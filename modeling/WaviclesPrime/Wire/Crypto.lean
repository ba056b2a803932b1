import WaviclesPrime.Lib.Sealed
import WaviclesPrime.Wire.Nonce
import WaviclesPrime.Wire.Submit

/-! Identities, signatures and the encrypted channel, over the primitives of the NaCl library. -/
namespace WaviclesPrime.Wire

def sigLen : Nat := 64
def macLen : Nat := 16

/-- What a sealed box adds: the public key it drew, and a tag. -/
def sealLen : Nat := 32 + macLen

/-- The library's primitives. A sealed box draws a key pair of its own, here its first argument. -/
structure NaCl where
  signPk : ByteArr 32 → ByteArr 32
  boxPk : ByteArr 32 → ByteArr 32
  sign : ByteArr 32 → Bytes → ByteArr sigLen
  verify : ByteArr 32 → Bytes → ByteArr sigLen → Bool
  sealTo : ByteArr 32 → ByteArr 32 → Bytes → Bytes
  unsealBox : ByteArr 32 → Bytes → Option Bytes
  precompute : ByteArr 32 → ByteArr 32 → ByteArr 32
  encrypt : ByteArr 32 → Nonce → Bytes → ByteArr macLen × Bytes
  decrypt : ByteArr 32 → Nonce → ByteArr macLen → Bytes → Option Bytes

/-- What the library promises of its primitives. -/
structure NaCl.Documented (N : NaCl) : Prop where
  verify_sign : ∀ sk msg, N.verify (N.signPk sk) msg (N.sign sk msg) = true
  unsealBox_sealTo : ∀ eph sk msg, N.unsealBox sk (N.sealTo eph (N.boxPk sk) msg) = some msg
  length_sealTo : ∀ eph pk msg, (N.sealTo eph pk msg).length = sealLen + msg.length
  agree : ∀ a b, N.precompute (N.boxPk a) b = N.precompute (N.boxPk b) a
  decrypt_encrypt : ∀ key n plain,
    N.decrypt key n (N.encrypt key n plain).1 (N.encrypt key n plain).2 = some plain
  length_encrypt : ∀ key n plain, (N.encrypt key n plain).2.length = plain.length

inductive CryptoError where
  | wire (e : Error)
  | signature
  | decrypt
  deriving DecidableEq, Repr

/-- The secret halves of a signing pair and a box pair. -/
structure Identity where
  sign : ByteArr 32
  bx : ByteArr 32
  deriving DecidableEq

/-- An established channel with a gateway. -/
structure Channel where
  bx : ByteArr 32
  sendNonce : Nonce
  recvNonce : Nonce
  deriving DecidableEq

section
variable (N : NaCl)

def Identity.signPk (i : Identity) : ByteArr 32 := N.signPk i.sign

def Identity.boxPk (i : Identity) : ByteArr 32 := N.boxPk i.bx

def Identity.unsealBox (i : Identity) (sealed : Bytes) : Except CryptoError Bytes :=
  match N.unsealBox i.bx sealed with
  | none => .error .decrypt
  | some plain => .ok plain

/-- Split a payload into a message and the signature after it, and verify that. -/
def verifyTrailing (pk : ByteArr 32) (payload : Bytes) : Except CryptoError Bytes :=
  if h : payload.length < sigLen then .error (.wire .short)
  else
    let msg := payload.take (payload.length - sigLen)
    let sig : ByteArr sigLen :=
      ⟨payload.drop (payload.length - sigLen), by rw [List.length_drop]; omega⟩
    if N.verify pk msg sig then .ok msg else .error .signature

namespace Channel

/-- The tag, then the ciphertext; the nonce goes on. -/
def encrypt (c : Channel) (plain : Bytes) : Bytes × Channel :=
  let (tag, body) := N.encrypt c.bx c.sendNonce plain
  (tag.toList ++ body, { c with sendNonce := bumpNonce c.sendNonce })

/-- The nonce goes on only where the payload opens. -/
def decryptInPlace (c : Channel) (buf : Bytes) : Except CryptoError (Bytes × Channel) :=
  if h : buf.length < macLen then .error (.wire .short)
  else
    let tag : ByteArr macLen := ⟨buf.take macLen, by rw [List.length_take]; omega⟩
    match N.decrypt c.bx c.recvNonce tag (buf.drop macLen) with
    | none => .error .decrypt
    | some plain => .ok (plain, { c with recvNonce := bumpNonce c.recvNonce })

end Channel

variable {N}

/-- What was sealed to an identity is unsealed by it. -/
theorem Identity.unsealBox_sealTo (hN : N.Documented) (i : Identity) (eph : ByteArr 32) (msg : Bytes) :
    i.unsealBox N (N.sealTo eph (i.boxPk N) msg) = .ok msg := by
  rw [Identity.unsealBox, boxPk, hN.unsealBox_sealTo]

theorem verifyTrailing_append {pk : ByteArr 32} {msg : Bytes} {sig : ByteArr sigLen} (h : N.verify pk msg sig = true) :
    verifyTrailing N pk (msg ++ sig.toList) = .ok msg := by
  have hlen : (msg ++ sig.toList).length - sigLen = msg.length := by
    rw [List.length_append, sig.toList_length, Nat.add_sub_cancel]
  have hlong : ¬ (msg ++ sig.toList).length < sigLen := by
    rw [List.length_append, sig.toList_length]
    omega
  have hsig : ∀ p, (⟨(msg ++ sig.toList).drop ((msg ++ sig.toList).length - sigLen), p⟩ : ByteArr sigLen) = sig := by
    intro p
    refine Subtype.ext ?_
    change List.drop _ _ = sig.toList
    rw [hlen, List.drop_left]
  unfold verifyTrailing
  rw [dif_neg hlong]
  dsimp only
  rw [hsig, hlen, List.take_left, h, if_pos rfl]

/-- A payload is good when it ends in a signature of what comes before. -/
theorem verifyTrailing_ok {pk : ByteArr 32} {payload msg : Bytes} :
    verifyTrailing N pk payload = .ok msg ↔
      ∃ sig : ByteArr sigLen, payload = msg ++ sig.toList ∧ N.verify pk msg sig = true := by
  constructor
  · intro h
    unfold verifyTrailing at h
    split at h
    next => cases h
    next hlen =>
      dsimp only at h
      split at h
      next hv =>
        obtain rfl := Except.ok.inj h
        exact ⟨_, (List.take_append_drop _ _).symm, hv⟩
      next => cases h
  · rintro ⟨sig, rfl, hv⟩
    exact verifyTrailing_append hv

namespace Channel

theorem length_encrypt (hN : N.Documented) (c : Channel) (plain : Bytes) :
    (c.encrypt N plain).1.length = macLen + plain.length := by
  change ((N.encrypt c.bx c.sendNonce plain).1.toList ++ (N.encrypt c.bx c.sendNonce plain).2).length = _
  rw [List.length_append, List.Vector.toList_length, hN.length_encrypt]

theorem mk_fields (key : ByteArr 32) (send recv : Nonce) : (Channel.mk key send recv).bx = key ∧
    (Channel.mk key send recv).sendNonce = send ∧ (Channel.mk key send recv).recvNonce = recv := ⟨rfl, rfl, rfl⟩

/-- Only the sending nonce goes on. -/
theorem encrypt_fields (c : Channel) (plain : Bytes) : (c.encrypt N plain).2.bx = c.bx ∧
    (c.encrypt N plain).2.sendNonce = bumpNonce c.sendNonce ∧ (c.encrypt N plain).2.recvNonce = c.recvNonce := by
  have hmk : (c.encrypt N plain).2 = ⟨c.bx, bumpNonce c.sendNonce, c.recvNonce⟩ := rfl
  rw [hmk]
  exact mk_fields ..

/-- A payload opens when it is a tag and a ciphertext that decrypt under the next nonce. -/
theorem decryptInPlace_ok {c c' : Channel} {buf plain : Bytes} :
    c.decryptInPlace N buf = .ok (plain, c') ↔
      ∃ (tag : ByteArr macLen) (body : Bytes), buf = tag.toList ++ body ∧
        N.decrypt c.bx c.recvNonce tag body = some plain ∧
        c' = { c with recvNonce := bumpNonce c.recvNonce } := by
  constructor
  · intro h
    unfold decryptInPlace at h
    split at h
    next => cases h
    next hlen =>
      dsimp only at h
      split at h
      next => cases h
      next p hp =>
        obtain ⟨rfl, rfl⟩ := Prod.mk.inj (Except.ok.inj h)
        exact ⟨_, _, (List.take_append_drop macLen buf).symm, hp, rfl⟩
  · rintro ⟨tag, body, rfl, hd, rfl⟩
    have hlong : ¬ (tag.toList ++ body).length < macLen := by
      rw [List.length_append, tag.toList_length]
      omega
    have htag : ∀ p, (⟨(tag.toList ++ body).take macLen, p⟩ : ByteArr macLen) = tag := fun p =>
      Subtype.ext (List.take_left' tag.toList_length)
    unfold decryptInPlace
    rw [dif_neg hlong]
    dsimp only
    rw [htag, List.drop_left' tag.toList_length, hd]

/-- Only the receiving nonce goes on. -/
theorem decryptInPlace_fields {c c' : Channel} {buf plain : Bytes} (h : c.decryptInPlace N buf = .ok (plain, c')) :
    c'.bx = c.bx ∧ c'.sendNonce = c.sendNonce ∧ c'.recvNonce = bumpNonce c.recvNonce := by
  obtain ⟨tag, body, -, -, rfl⟩ := decryptInPlace_ok.mp h
  exact mk_fields ..

/-- The other end of a channel: the same key, and the nonces crossed. -/
def Paired (a b : Channel) : Prop := a.bx = b.bx ∧ a.sendNonce = b.recvNonce

/-- What one end encrypts next the other opens, and both go on in step. -/
theorem decrypt_encrypt (hN : N.Documented) {a b : Channel} (hp : Paired a b) (plain : Bytes) :
    ∃ b', b.decryptInPlace N (a.encrypt N plain).1 = .ok (plain, b') ∧ Paired (a.encrypt N plain).2 b' ∧
      b'.sendNonce = b.sendNonce := by
  obtain ⟨hkey, hnonce⟩ := hp
  refine ⟨{ b with recvNonce := bumpNonce b.recvNonce }, decryptInPlace_ok.mpr ⟨_, _, rfl, ?_, rfl⟩,
    ⟨hkey, congrArg bumpNonce hnonce⟩, rfl⟩
  rw [hkey, hnonce]
  exact hN.decrypt_encrypt ..

end Channel
end

/-- Primitives that keep their promises and hide nothing. -/
def NaCl.clear : NaCl where
  signPk := id
  boxPk := id
  sign sk _ := ⟨sk.toList ++ sk.toList, by rw [List.length_append, sk.toList_length]; rfl⟩
  verify pk _ sig := sig.toList == pk.toList ++ pk.toList
  sealTo eph pk msg := eph.toList ++ pk.toList.take macLen ++ msg
  unsealBox sk box :=
    if (box.drop 32).take macLen = sk.toList.take macLen then some (box.drop (32 + macLen)) else none
  precompute a b := ⟨List.zipWith (· ^^^ ·) a.toList b.toList, by simp⟩
  encrypt key n plain := (⟨key.toList.take 8 ++ n.toList.take 8, by simp; rfl⟩, plain)
  decrypt key n tag body := if tag.toList = key.toList.take 8 ++ n.toList.take 8 then some body else none

theorem NaCl.clear_documented : NaCl.clear.Documented where
  verify_sign sk _ := beq_self_eq_true (sk.toList ++ sk.toList)
  unsealBox_sealTo eph sk msg := by
    have hfront : (eph.toList ++ sk.toList.take macLen).length = 32 + macLen := by
      rw [List.length_append, eph.toList_length, List.length_take, sk.toList_length]
      rfl
    have hkey : ((eph.toList ++ sk.toList.take macLen ++ msg).drop 32).take macLen = sk.toList.take macLen := by
      rw [List.append_assoc, List.drop_left' eph.toList_length]
      exact List.take_left' (by rw [List.length_take, sk.toList_length]; rfl)
    refine (if_pos hkey).trans ?_
    change some ((eph.toList ++ sk.toList.take macLen ++ msg).drop (32 + macLen)) = some msg
    rw [List.drop_left' hfront]
  length_sealTo eph pk msg := by
    change (eph.toList ++ pk.toList.take macLen ++ msg).length = _
    rw [List.length_append, List.length_append, eph.toList_length, List.length_take, pk.toList_length]
    rfl
  agree a b := Subtype.ext (List.zipWith_comm_of_comm UInt8.xor_comm)
  decrypt_encrypt _ _ _ := if_pos rfl
  length_encrypt _ _ _ := rfl

end WaviclesPrime.Wire
