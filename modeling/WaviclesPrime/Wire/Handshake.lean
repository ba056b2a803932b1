import Mathlib.Data.List.TakeWhile
import WaviclesPrime.Wire.Crypto

/-! The two messages of the handshake: a client hello sealed to the pool, and the pool's reply sealed to
the client's session. -/
namespace WaviclesPrime.Wire

def maxUserAgent : Nat := 512
def maxMotd : Nat := 511
def resumeTokenLen : Nat := 40
def resumeMarker : Bytes := [0x44, 0x52, 0x53, 0x01]

/-- Which configuration layout the client parses. -/
inductive Generation where
  | ocean
  | convoy
  deriving DecidableEq, Repr

structure ClientHello where
  identitySignPk : ByteArr 32
  identityBoxPk : ByteArr 32
  sessionSignPk : ByteArr 32
  sessionBoxPk : ByteArr 32
  userAgent : String
  seed : UInt32
  generation : Generation
  resumeToken : Option (ByteArr resumeTokenLen)
  deriving DecidableEq

/-- After the seed: the marker and its flag, or a pad that says nothing. -/
def readExtension : Read (Generation × Option (ByteArr resumeTokenLen)) := fun c =>
  if 5 ≤ c.remaining ∧ c.rest.take 4 = resumeMarker then
    (do
      let _ ← Cursor.take 4
      if (← Cursor.uint8) = 1 then return (.convoy, some (← Cursor.array resumeTokenLen))
      else return (.convoy, none) : Read (Generation × Option (ByteArr resumeTokenLen))) c
  else .ok ((.ocean, none), c)

/-- The fields of a hello, once its first key has answered for it. -/
def ClientHello.read (identitySignPk : ByteArr 32) : Read ClientHello := do
  let _ ← Cursor.take 32
  let identityBoxPk ← Cursor.array 32
  let sessionSignPk ← Cursor.array 32
  let sessionBoxPk ← Cursor.array 32
  let ua ← Cursor.cstr maxUserAgent
  if (← Cursor.uint8) ≠ terminator then throw (.malformed "hello separator")
  let seed ← Cursor.uint32
  let (generation, resumeToken) ← readExtension
  return ⟨identitySignPk, identityBoxPk, sessionSignPk, sessionBoxPk, Utf8.fromUtf8Lossy ua, seed,
    generation, resumeToken⟩

def convoyHelloExtension : Option (ByteArr resumeTokenLen) → Bytes
  | some t => resumeMarker ++ [1] ++ t.toList
  | none => resumeMarker ++ [0]

section
variable (N : NaCl)

/-- Open and validate a client hello payload. -/
def parseClientHello (pool : Identity) (sealed : Bytes) : Except CryptoError ClientHello := do
  let plain ← pool.unsealBox N sealed
  if h : plain.length < 4 * 32 + sigLen then .error (.wire .short)
  else
    let identitySignPk : ByteArr 32 := ⟨plain.take 32, by rw [List.length_take]; omega⟩
    let body ← verifyTrailing N identitySignPk plain
    match ClientHello.read identitySignPk (.new body) with
    | .error e => .error (.wire e)
    | .ok (hello, _) => .ok hello

def ClientHello.keys (h : ClientHello) : Bytes :=
  h.identitySignPk.toList ++ h.identityBoxPk.toList ++ h.sessionSignPk.toList ++ h.sessionBoxPk.toList

/-- The reply to a hello that was accepted. -/
def buildServerHello (eph : ByteArr 32) (pool session : Identity) (hello : ClientHello) (motd : String) : Bytes :=
  let m := hello.keys ++ (session.signPk N).toList ++ (session.boxPk N).toList ++
    (asBytes motd).take maxMotd ++ [0]
  N.sealTo eph hello.sessionBoxPk (m ++ (N.sign pool.sign m).toList)

/-- The hello of a client. -/
def buildClientHello (eph poolBoxPk : ByteArr 32) (identity session : Identity) (userAgent : String)
    (seed : UInt32) (pad : Bytes) : Bytes :=
  let m := (identity.signPk N).toList ++ (identity.boxPk N).toList ++ (session.signPk N).toList ++
    (session.boxPk N).toList ++ asBytes userAgent ++ [0] ++ [terminator] ++ u32Bytes seed ++ pad
  N.sealTo eph poolBoxPk (m ++ (N.sign identity.sign m).toList)

def readServerHello : Read (ByteArr 32 × ByteArr 32 × String) := do
  let _ ← Cursor.take 128
  let ssk ← Cursor.array 32
  let sbk ← Cursor.array 32
  let motd ← Cursor.cstr maxMotd
  return (ssk, sbk, Utf8.fromUtf8Lossy motd)

/-- The client's side of the reply. -/
def parseServerHello (poolSignPk : ByteArr 32) (session : Identity) (sealed : Bytes) :
    Except CryptoError (ByteArr 32 × ByteArr 32 × String) := do
  let plain ← session.unsealBox N sealed
  let body ← verifyTrailing N poolSignPk plain
  match readServerHello (.new body) with
  | .error e => .error (.wire e)
  | .ok (reply, _) => .ok reply

end

/-- What the bytes after the seed say of the client. -/
inductive Extends : Bytes → Generation → Option (ByteArr resumeTokenLen) → Prop
  | convoy {flag : UInt8} (hflag : flag ≠ 1) (rest : Bytes) : Extends (resumeMarker ++ [flag] ++ rest) .convoy none
  | resumes (token : ByteArr resumeTokenLen) (rest : Bytes) :
      Extends (resumeMarker ++ [1] ++ token.toList ++ rest) .convoy (some token)
  | ocean {pad : Bytes} (h : ¬ (5 ≤ pad.length ∧ pad.take 4 = resumeMarker)) : Extends pad .ocean none

/-- What a client of the later generation appends. -/
theorem extends_convoyHelloExtension (t : Option (ByteArr resumeTokenLen)) :
    Extends (convoyHelloExtension t) .convoy t := by
  cases t with
  | none =>
    have h := @Extends.convoy 0 (by decide) []
    rwa [List.append_nil] at h
  | some token =>
    have h := Extends.resumes token []
    rwa [List.append_nil] at h

/-- A hello before it is signed, with the user agent as it was written. -/
def ClientHello.bytes (h : ClientHello) (ua pad : Bytes) : Bytes :=
  h.keys ++ ((ua ++ [0]) ++ ([terminator] ++ (u32Bytes h.seed ++ pad)))

namespace Reads

theorem array (n : Nat) : Reads (Cursor.array n) fun bytes a => bytes = a.toList := by
  intro c a c' h
  unfold Cursor.array at h
  split at h
  next => cases h
  next hlen =>
    cases h
    have htake : (c.rest.take n).length = n := List.length_take_of_le (Nat.le_of_not_lt hlen)
    exact ⟨c.rest.take n, (List.take_append_drop n c.rest).symm, by rw [htake], rfl⟩

theorem uint8 : Reads Cursor.uint8 fun bytes b => bytes = [b] := by
  refine (uint 1).bind fun n => (ret _).mono ?_
  rintro _ b ⟨rfl, rfl⟩ u ⟨rfl, hn⟩
  change n < 256 at hn
  rw [List.append_nil, LittleEndian.write, LittleEndian.write, Nat.mod_eq_of_lt hn]

theorem uint32 : Reads Cursor.uint32 fun bytes x => bytes = u32Bytes x := by
  refine (uint 4).bind fun n => (ret _).mono ?_
  rintro _ x ⟨rfl, rfl⟩ u ⟨rfl, hn⟩
  rw [List.append_nil, u32Bytes, UInt32.toNat_ofNat_of_lt' hn]

theorem cstr (max : Nat) : Reads (Cursor.cstr max) fun bytes a => bytes = a ++ [0] ∧ a.length ≤ max ∧ 0 ∉ a := by
  intro c a c' h
  unfold Cursor.cstr at h
  split at h
  next => cases h
  next stop hstop =>
    cases h
    obtain ⟨hlt, hzero, hbefore⟩ := List.findIdx?_eq_some_iff_getElem.mp hstop
    rw [List.length_take] at hlt
    have hrest : stop < c.rest.length := by omega
    have hnul : c.rest[stop] = 0 := by
      rw [List.getElem_take] at hzero
      exact beq_iff_eq.mp hzero
    have hlen : (c.rest.take stop).length = stop := List.length_take_of_le hrest.le
    refine ⟨c.rest.take (stop + 1), (List.take_append_drop _ _).symm, ?_, ?_, by omega, ?_⟩
    · rw [List.length_take_of_le hrest, Nat.add_assoc]
    · rw [List.take_succ_eq_append_getElem hrest, hnul]
    · intro hmem
      obtain ⟨i, hi, hval⟩ := List.getElem_of_mem hmem
      rw [hlen] at hi
      have hnot := hbefore i hi
      rw [List.getElem_take] at hnot hval
      exact hnot (beq_iff_eq.mpr hval)

end Reads

/-- The extension of a hello is read just as it says. -/
theorem readExtension_ok {pad : Bytes} {pos : Nat} {g : Generation} {t : Option (ByteArr resumeTokenLen)} :
    (∃ c', readExtension ⟨pad, pos⟩ = .ok ((g, t), c')) ↔ Extends pad g t := by
  have hmarker : resumeMarker.length = 4 := rfl
  constructor
  · rintro ⟨c', h⟩
    unfold readExtension at h
    split at h
    next hmark =>
      obtain ⟨hfive, htake⟩ := hmark
      obtain ⟨_, c₁, hfour, h⟩ := Read.bind_eq_ok h
      obtain ⟨front, hfront, -, rfl, hlen⟩ := Reads.take 4 _ _ _ hfour
      dsimp only at hfront htake
      obtain rfl : front = resumeMarker := by
        rw [← htake, hfront, ← hlen, List.take_left]
      obtain ⟨flag, c₂, hflag, h⟩ := Read.bind_eq_ok h
      obtain ⟨_, hone, -, rfl⟩ := Reads.uint8 _ _ _ hflag
      rw [hone] at hfront
      split at h
      next hset =>
        obtain ⟨token, c₃, htoken, hret⟩ := Read.bind_eq_ok h
        obtain ⟨_, hbytes, -, rfl⟩ := Reads.array _ _ _ _ htoken
        cases hret
        rw [hfront, hset, hbytes, ← List.append_assoc, ← List.append_assoc]
        exact .resumes token _
      next hclear =>
        cases h
        rw [hfront, ← List.append_assoc]
        exact .convoy hclear _
    next hmark =>
      cases h
      exact .ocean hmark
  · intro h
    unfold readExtension Cursor.remaining
    have hfour := fun rest => Takes.take resumeMarker rest pos
    rw [hmarker] at hfour
    cases h with
    | convoy hflag rest =>
      rename_i flag
      refine ⟨⟨rest, pos + 4 + 1⟩, ?_⟩
      rw [if_pos ⟨by simp [hmarker]; omega, by rw [List.append_assoc, ← hmarker, List.take_left]⟩, List.append_assoc,
        Read.bind_ok (hfour _), Read.bind_ok (Takes.uint8 flag rest _), if_neg hflag]
      rfl
    | resumes token rest =>
      refine ⟨⟨rest, pos + 4 + 1 + token.toList.length⟩, ?_⟩
      rw [if_pos ⟨by simp [hmarker]; omega, by rw [List.append_assoc, List.append_assoc, ← hmarker, List.take_left]⟩,
        List.append_assoc, List.append_assoc, Read.bind_ok (hfour _), Read.bind_ok (Takes.uint8 1 _ _), if_pos rfl,
        Read.bind_ok (Takes.array token rest _)]
      rfl
    | ocean hpad =>
      exact ⟨_, if_neg hpad⟩

/-- What a hello says, when this is how its user agent and its pad are written. -/
structure ClientHello.Says (h : ClientHello) (ua pad : Bytes) : Prop where
  length : ua.length ≤ maxUserAgent
  nul : 0 ∉ ua
  userAgent : h.userAgent = Utf8.fromUtf8Lossy ua
  extension : Extends pad h.generation h.resumeToken

theorem ClientHello.length_keys (h : ClientHello) : h.keys.length = 4 * 32 := by
  simp only [keys, List.length_append, List.Vector.toList_length]

/-- A signed body is read just as it says. -/
theorem ClientHello.read_ok {pk : ByteArr 32} {body : Bytes} {h : ClientHello} (hpk : body.take 32 = pk.toList) :
    (∃ c', ClientHello.read pk (.new body) = .ok (h, c')) ↔
      h.identitySignPk = pk ∧ ∃ ua pad, body = h.bytes ua pad ∧ h.Says ua pad := by
  constructor
  · rintro ⟨c', hread⟩
    obtain ⟨_, c₁, h₁, hread⟩ := Read.bind_eq_ok hread
    obtain ⟨front, hbody, -, rfl, hlen⟩ := Reads.take 32 _ _ _ h₁
    obtain ⟨boxPk, c₂, h₂, hread⟩ := Read.bind_eq_ok hread
    obtain ⟨_, hbox, -, rfl⟩ := Reads.array _ _ _ _ h₂
    obtain ⟨signPk, c₃, h₃, hread⟩ := Read.bind_eq_ok hread
    obtain ⟨_, hsign, -, rfl⟩ := Reads.array _ _ _ _ h₃
    obtain ⟨sessionPk, c₄, h₄, hread⟩ := Read.bind_eq_ok hread
    obtain ⟨_, hsession, -, rfl⟩ := Reads.array _ _ _ _ h₄
    obtain ⟨ua, c₅, h₅, hread⟩ := Read.bind_eq_ok hread
    obtain ⟨_, hua, -, rfl, hmax, hnul⟩ := Reads.cstr _ _ _ _ h₅
    obtain ⟨sep, c₆, h₆, hread⟩ := Read.bind_eq_ok hread
    obtain ⟨_, hsep, -, rfl⟩ := Reads.uint8 _ _ _ h₆
    obtain ⟨hterm, hread⟩ := Read.guard_eq_ok hread
    obtain ⟨seed, c₇, h₇, hread⟩ := Read.bind_eq_ok hread
    obtain ⟨_, hseed, -, rfl⟩ := Reads.uint32 _ _ _ h₇
    obtain ⟨⟨g, t⟩, c₈, h₈, hret⟩ := Read.bind_eq_ok hread
    cases hret
    refine ⟨rfl, ua, c₇.rest, ?_, hmax, hnul, rfl, readExtension_ok.mp ⟨_, h₈⟩⟩
    obtain rfl : front = pk.toList := by
      rw [← hpk]
      change front = (Cursor.new body).rest.take 32
      rw [hbody, List.take_left' hlen]
    obtain rfl := not_not.mp hterm
    change (Cursor.new body).rest = _
    rw [hbody, hbox, hsign, hsession, hua, hsep, hseed]
    simp only [bytes, keys, List.append_assoc]
  · rintro ⟨rfl, ua, pad, rfl, hsaid⟩
    have hname := Takes.cstr hsaid.length hsaid.nul
    have hpkLen : h.identitySignPk.toList.length = 32 := h.identitySignPk.toList_length
    have hfront := Takes.take h.identitySignPk.toList
    rw [hpkLen] at hfront
    obtain ⟨c', hext⟩ := readExtension_ok.mpr hsaid.extension
    refine ⟨c', ?_⟩
    simp only [bytes, keys, List.append_assoc, Cursor.new, read]
    rw [Read.bind_ok (hfront _ _), Read.bind_ok (Takes.array h.identityBoxPk _ _),
      Read.bind_ok (Takes.array h.sessionSignPk _ _), Read.bind_ok (Takes.array h.sessionBoxPk _ _)]
    rw [← List.append_assoc ua, Read.bind_ok (hname _ _), Read.bind_ok (Takes.uint8 terminator _ _),
      Read.guard (by simp), Read.bind_ok (Takes.uint32 h.seed _ _), Read.bind_ok hext, ← hsaid.userAgent]
    rfl

section
variable {N : NaCl}

/-- A hello is accepted when it was sealed to the pool and is well formed, and its own first key signed
everything before the signature. -/
theorem parseClientHello_ok {pool : Identity} {sealed : Bytes} {h : ClientHello} :
    parseClientHello N pool sealed = .ok h ↔ ∃ ua pad, ∃ sig : ByteArr sigLen,
      N.unsealBox pool.bx sealed = some (h.bytes ua pad ++ sig.toList) ∧
      N.verify h.identitySignPk (h.bytes ua pad) sig = true ∧ h.Says ua pad := by
  constructor
  · intro hparse
    unfold parseClientHello at hparse
    cases hopen : N.unsealBox pool.bx sealed with
    | none =>
      rw [Identity.unsealBox, hopen] at hparse
      cases hparse
    | some plain =>
      rw [Identity.unsealBox, hopen] at hparse
      dsimp only [Bind.bind, Except.bind] at hparse
      split at hparse
      next => cases hparse
      next hlen =>
        split at hparse
        next => cases hparse
        next body hbody =>
          split at hparse
          next => cases hparse
          next hello c' hread =>
            obtain rfl := Except.ok.inj hparse
            obtain ⟨sig, rfl, hverify⟩ := verifyTrailing_ok.mp hbody
            have hfront : (body ++ sig.toList).take 32 = body.take 32 := by
              rw [List.length_append, sig.toList_length] at hlen
              exact List.take_append_of_le_length (by omega)
            obtain ⟨hpk, ua, pad, rfl, hsaid⟩ := (ClientHello.read_ok hfront.symm).mp ⟨c', hread⟩
            exact ⟨ua, pad, sig, rfl, hpk ▸ hverify, hsaid⟩
  · rintro ⟨ua, pad, sig, hopen, hverify, hsaid⟩
    have hkeys := h.length_keys
    have hlen : ¬ (h.bytes ua pad ++ sig.toList).length < 4 * 32 + sigLen := by
      rw [List.length_append, sig.toList_length, ClientHello.bytes, List.length_append]
      omega
    have hfront : ∀ rest, (h.bytes ua pad ++ rest).take 32 = h.identitySignPk.toList := by
      intro rest
      simp only [ClientHello.bytes, ClientHello.keys, List.append_assoc]
      exact List.take_left' h.identitySignPk.toList_length
    have hpk : ∀ p, (⟨(h.bytes ua pad ++ sig.toList).take 32, p⟩ : ByteArr 32) = h.identitySignPk := fun p =>
      Subtype.ext (hfront sig.toList)
    have hbody : (h.bytes ua pad).take 32 = h.identitySignPk.toList := by
      have hnil := hfront []
      rwa [List.append_nil] at hnil
    obtain ⟨c', hread⟩ := (ClientHello.read_ok hbody).mpr ⟨rfl, ua, pad, rfl, hsaid⟩
    unfold parseClientHello
    rw [Identity.unsealBox, hopen]
    dsimp only [Bind.bind, Except.bind]
    rw [dif_neg hlen]
    simp only [hpk, verifyTrailing_append hverify, hread]

/-- The hello of a client, as the pool is to read it. -/
def helloOf (N : NaCl) (identity session : Identity) (userAgent : String) (seed : UInt32)
    (generation : Generation) (resumeToken : Option (ByteArr resumeTokenLen)) : ClientHello :=
  ⟨identity.signPk N, identity.boxPk N, session.signPk N, session.boxPk N, userAgent, seed, generation, resumeToken⟩

/-- The pool reads a client's hello as it was meant. -/
theorem parse_buildClientHello (hN : N.Documented) (eph : ByteArr 32) (pool identity session : Identity) {ua : String}
    (hlen : ua.utf8ByteSize ≤ maxUserAgent) (hnul : 0 ∉ asBytes ua) (seed : UInt32) {pad : Bytes} {g : Generation}
    {t : Option (ByteArr resumeTokenLen)} (hext : Extends pad g t) :
    parseClientHello N pool (buildClientHello N eph (pool.boxPk N) identity session ua seed pad) =
      .ok (helloOf N identity session ua seed g t) := by
  let hello := helloOf N identity session ua seed g t
  refine parseClientHello_ok.mpr ⟨asBytes ua, pad, N.sign identity.sign (hello.bytes (asBytes ua) pad), ?_,
    hN.verify_sign .., hlen, hnul, (Utf8.fromUtf8Lossy_asBytes ua).symm, hext⟩
  rw [buildClientHello, Identity.boxPk, hN.unsealBox_sealTo]
  simp only [ClientHello.bytes, ClientHello.keys, hello, helloOf, List.append_assoc]

/-- The message of the day as a client shows it: cut at its length limit, and at its first NUL. -/
def motdShown (motd : String) : String :=
  Utf8.fromUtf8Lossy (((asBytes motd).take maxMotd).takeWhile (· ≠ 0))

theorem Takes.cstr_until {max : Nat} {bytes : Bytes} (hmax : bytes.length ≤ max) (rest : Bytes) (pos : Nat) :
    ∃ c', Cursor.cstr max ⟨bytes ++ [0] ++ rest, pos⟩ = .ok (bytes.takeWhile (· ≠ 0), c') := by
  obtain ⟨tail, htail⟩ : ∃ tail, bytes ++ [0] = bytes.takeWhile (· ≠ 0) ++ [0] ++ tail := by
    have hsplit := List.takeWhile_append_dropWhile (p := (· ≠ 0)) (l := bytes)
    cases hdrop : bytes.dropWhile (· ≠ 0) with
    | nil =>
      rw [hdrop, List.append_nil] at hsplit
      exact ⟨[], by rw [hsplit, List.append_nil]⟩
    | cons b tail =>
      have hhead := List.head_dropWhile_not (fun x : UInt8 => decide (x ≠ 0)) (l := bytes)
        (by rw [hdrop]; exact List.cons_ne_nil _ _)
      simp only [hdrop, List.head_cons] at hhead
      obtain rfl : b = 0 := by simpa using hhead
      rw [hdrop] at hsplit
      refine ⟨tail ++ [0], ?_⟩
      conv_lhs => rw [← hsplit]
      simp
  have hshort : (bytes.takeWhile (· ≠ 0)).length ≤ max := (List.takeWhile_prefix _).length_le.trans hmax
  have hnul : (0 : UInt8) ∉ bytes.takeWhile (· ≠ 0) := fun hmem => by simpa using List.mem_takeWhile_imp hmem
  rw [htail, List.append_assoc]
  exact ⟨_, Takes.cstr hshort hnul _ _⟩

/-- A reply fits a frame, whatever it says. -/
theorem length_buildServerHello (hN : N.Documented) (eph : ByteArr 32) (pool session : Identity)
    (hello : ClientHello) (motd : String) : (buildServerHello N eph pool session hello motd).length ≤
      sealLen + (hello.keys.length + 32 + 32 + maxMotd + 1 + sigLen) := by
  have hmotd := List.length_take_le maxMotd (asBytes motd)
  unfold buildServerHello
  dsimp only
  rw [hN.length_sealTo]
  simp only [List.length_append, List.Vector.toList_length, List.length_singleton]
  omega

/-- The client reads the pool's reply: the session keys, and the message of the day. -/
theorem parse_buildServerHello (hN : N.Documented) (eph : ByteArr 32) (pool session client : Identity)
    {hello : ClientHello} (hkey : hello.sessionBoxPk = client.boxPk N) (motd : String) :
    parseServerHello N (pool.signPk N) client (buildServerHello N eph pool session hello motd) =
      .ok (session.signPk N, session.boxPk N, motdShown motd) := by
  have hfront := Takes.take hello.keys
  rw [show hello.keys.length = 128 from hello.length_keys] at hfront
  obtain ⟨c', hmotd⟩ := Takes.cstr_until (List.length_take_le maxMotd (asBytes motd)) []
    (0 + hello.keys.length + (session.signPk N).toList.length + (session.boxPk N).toList.length)
  rw [List.append_nil] at hmotd
  have hread : readServerHello (.new (hello.keys ++ (session.signPk N).toList ++ (session.boxPk N).toList ++
      (asBytes motd).take maxMotd ++ [0])) = .ok ((session.signPk N, session.boxPk N, motdShown motd), c') := by
    simp only [readServerHello, Cursor.new, List.append_assoc]
    rw [Read.bind_ok (hfront _ _), Read.bind_ok (Takes.array (session.signPk N) _ _),
      Read.bind_ok (Takes.array (session.boxPk N) _ _), Read.bind_ok hmotd]
    rfl
  unfold parseServerHello buildServerHello
  dsimp only
  rw [hkey, client.unsealBox_sealTo hN]
  dsimp only [Bind.bind, Except.bind]
  have hsigned : ∀ m, verifyTrailing N (pool.signPk N) (m ++ (N.sign pool.sign m).toList) = .ok m := fun m =>
    verifyTrailing_append (hN.verify_sign pool.sign m)
  simp only [hsigned, hread]

end
end WaviclesPrime.Wire
