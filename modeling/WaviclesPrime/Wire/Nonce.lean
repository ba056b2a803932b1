import WaviclesPrime.Lib.Counter
import WaviclesPrime.Wire.Frame
import WaviclesPrime.Wire.Pow

/-! The box nonces of a session's two directions. -/
namespace WaviclesPrime.Wire
open LittleEndian

abbrev Nonce := ByteArr 24

/-- Increment the first word, and carry into the next while a word wraps to zero. -/
def bumpWords : Nat → Bytes → Bytes
  | 0, n => n
  | words + 1, n =>
    let w := UInt32.ofNat (LittleEndian.read (n.take 4)) + 1
    if w ≠ 0 then le32 w ++ n.drop 4 else le32 w ++ bumpWords words (n.drop 4)

theorem length_bumpWords {words : Nat} {n : Bytes} (h : n.length = 4 * words) :
    (bumpWords words n).length = n.length := by
  induction words generalizing n with
  | zero => rfl
  | succ words ih =>
    have hrest : (n.drop 4).length = 4 * words := by
      rw [List.length_drop]
      omega
    rw [bumpWords]
    split
    · rw [List.length_append, le32, length_write, hrest]
      omega
    · rw [List.length_append, le32, length_write, ih hrest, hrest]
      omega

/-- Advance a nonce by one message. -/
def bumpNonce (n : Nonce) : Nonce := ⟨bumpWords 6 n.toList, (length_bumpWords n.2).trans n.2⟩

/-- The words of a nonce, each from the complement of the last. -/
def nonceWords : Nat → UInt32 → List UInt32
  | 0, _ => []
  | words + 1, nk =>
    let word := feedback (nk - 42)
    word :: nonceWords words (~~~word)

@[simp] theorem length_nonceWords (words : Nat) (nk : UInt32) : (nonceWords words nk).length = words := by
  induction words generalizing nk with
  | zero => rfl
  | succ words ih => rw [nonceWords, List.length_cons, ih]

theorem length_flatMap_le32 (words : List UInt32) : (words.flatMap le32).length = 4 * words.length := by
  induction words with
  | nil => rfl
  | cons w words ih =>
    rw [List.flatMap_cons, List.length_append, ih, le32, length_write, List.length_cons]
    omega

def nonceMask : UInt32 := 0x57575757

def Nonce.ofWords (words : List UInt32) (h : words.length = 6) : Nonce :=
  ⟨words.flatMap le32, by rw [length_flatMap_le32, h]⟩

/-- The nonces to and from the client. -/
def sessionNonces (seed : UInt32) (clientSessionSignPk : ByteArr 32) : Nonce × Nonce :=
  let pk7 := UInt32.ofNat (LittleEndian.read ((clientSessionSignPk.toList.drop 7).take 4))
  let words := nonceWords 6 ((seed - 42) ^^^ pk7)
  (.ofWords words (length_nonceWords ..),
    .ofWords (words.map (· ^^^ nonceMask)) (by rw [List.length_map, length_nonceWords]))

def Nonce.value (n : Nonce) : Nat := LittleEndian.read n.toList

theorem read_le32_append (w : UInt32) (rest : Bytes) :
    LittleEndian.read (le32 w ++ rest) = w.toNat + 2 ^ 32 * LittleEndian.read rest := by
  rw [read_append, le32, read_write w.toNat_lt, length_write]
  rfl

/-- The carry chain adds one, around the width. -/
theorem read_bumpWords {words : Nat} {n : Bytes} (h : n.length = 4 * words) :
    LittleEndian.read (bumpWords words n) = (LittleEndian.read n + 1) % 256 ^ (4 * words) := by
  induction words generalizing n with
  | zero =>
    obtain rfl : n = [] := List.length_eq_zero_iff.mp h
    rfl
  | succ words ih =>
    have htake : (n.take 4).length = 4 := by
      rw [List.length_take]
      omega
    have hdrop : (n.drop 4).length = 4 * words := by
      rw [List.length_drop]
      omega
    have hlow := read_lt (n.take 4)
    have hhigh := read_lt (n.drop 4)
    have hsplit := read_append (n.take 4) (n.drop 4)
    rw [List.take_append_drop, htake] at hsplit
    rw [htake] at hlow
    rw [hdrop] at hhigh
    have hpow : 256 ^ (4 * (words + 1)) = 2 ^ 32 * 256 ^ (4 * words) := by
      rw [Nat.mul_succ, Nat.pow_add, Nat.mul_comm]
      rfl
    have hword : (UInt32.ofNat (LittleEndian.read (n.take 4)) + 1).toNat =
        (LittleEndian.read (n.take 4) + 1) % 2 ^ 32 := by
      rw [UInt32.toNat_add, UInt32.toNat_ofNat_of_lt' hlow]
      rfl
    rw [bumpWords]
    generalize UInt32.ofNat (LittleEndian.read (n.take 4)) + 1 = w at hword ⊢
    split
    next hne =>
      have hpos : w.toNat ≠ 0 := fun h => hne (UInt32.toNat_inj.mp h)
      have hsum : LittleEndian.read n + 1 < 256 ^ (4 * (words + 1)) := by
        rw [hpow]
        calc LittleEndian.read n + 1 ≤ 2 ^ 32 * (LittleEndian.read (n.drop 4) + 1) - 1 := by omega
          _ < 2 ^ 32 * 256 ^ (4 * words) := by
            have hmul := Nat.mul_le_mul_left (2 ^ 32) (Nat.succ_le_of_lt hhigh)
            omega
      rw [read_le32_append, Nat.mod_eq_of_lt hsum]
      omega
    next heq =>
      have hzero : w.toNat = 0 := congrArg UInt32.toNat (not_not.mp heq)
      have hcarry : LittleEndian.read n + 1 = 2 ^ 32 * (LittleEndian.read (n.drop 4) + 1) := by omega
      rw [read_le32_append, hzero, ih hdrop, hcarry, hpow, Nat.mul_mod_mul_left, Nat.zero_add]

theorem value_bumpNonce (n : Nonce) : (bumpNonce n).value = (n.value + 1) % 256 ^ 24 := read_bumpWords n.2

theorem Nonce.value_lt (n : Nonce) : n.value < 256 ^ 24 := by
  have h := read_lt n.toList
  rwa [n.toList_length] at h

/-- Masking a word moves it by more than one and less than all the way around. -/
theorem masked_word (w : UInt32) :
    (w.toNat + 2 ≤ (w ^^^ nonceMask).toNat ∧ (w ^^^ nonceMask).toNat + 2 ≤ w.toNat + 2 ^ 32) ∨
      ((w ^^^ nonceMask).toNat + 2 ≤ w.toNat ∧ w.toNat + 2 ≤ (w ^^^ nonceMask).toNat + 2 ^ 32) := by
  -- of the three highest bits the mask changes only the middle one
  have hhigh : (w ^^^ nonceMask).toNat / 2 ^ 29 = w.toNat / 2 ^ 29 ^^^ 2 := by
    rw [UInt32.toNat_xor, Nat.xor_div_two_pow]
    rfl
  have hbit : ∀ q < 8, (q ^^^ 2) = q + 2 ∨ (q ^^^ 2) + 2 = q := by decide
  have hq := hbit (w.toNat / 2 ^ 29) (by have := w.toNat_lt; omega)
  rw [← hhigh] at hq
  omega

/-- The last word weighs more than the others together. -/
theorem value_ofWords {front : List UInt32} {w : UInt32} (h : (front ++ [w]).length = 6) :
    ∃ low < 2 ^ 160, (Nonce.ofWords (front ++ [w]) h).value = low + 2 ^ 160 * w.toNat := by
  have hfront : (front.flatMap le32).length = 20 := by
    rw [length_flatMap_le32]
    rw [List.length_append, List.length_singleton] at h
    omega
  have hlow := read_lt (front.flatMap le32)
  rw [hfront] at hlow
  refine ⟨LittleEndian.read (front.flatMap le32), hlow, ?_⟩
  change LittleEndian.read ((front ++ [w]).flatMap le32) = _
  rw [List.flatMap_append, read_append, hfront, List.flatMap_singleton, le32, read_write w.toNat_lt]
  rfl

/-- A nonce and the masked one are far apart, both ways around. -/
theorem masked_far {words : List UInt32} (h : words.length = 6) (h' : (words.map (· ^^^ nonceMask)).length = 6) :
    let s := (Nonce.ofWords words h).value
    let r := (Nonce.ofWords (words.map (· ^^^ nonceMask)) h').value
    (s + 2 ^ 64 ≤ r ∧ r + 2 ^ 64 ≤ s + 256 ^ 24) ∨ (r + 2 ^ 64 ≤ s ∧ s + 2 ^ 64 ≤ r + 256 ^ 24) := by
  obtain rfl | ⟨front, w, rfl⟩ := List.eq_nil_or_concat words
  · cases h
  · simp only [List.concat_eq_append] at h h' ⊢
    obtain ⟨low, hlow, hs⟩ := value_ofWords h
    have hmasked : (front ++ [w]).map (· ^^^ nonceMask) = front.map (· ^^^ nonceMask) ++ [w ^^^ nonceMask] := by
      rw [List.map_append, List.map_singleton]
    simp only [hmasked] at h' ⊢
    obtain ⟨low', hlow', hr⟩ := value_ofWords h'
    have hword := masked_word w
    rw [hs, hr]
    generalize (w ^^^ nonceMask).toNat = x at hword ⊢
    omega

theorem sessionNonces_far (seed : UInt32) (pk : ByteArr 32) :
    let (s, r) := sessionNonces seed pk
    (s.value + 2 ^ 64 ≤ r.value ∧ r.value + 2 ^ 64 ≤ s.value + 256 ^ 24) ∨
      (r.value + 2 ^ 64 ≤ s.value ∧ s.value + 2 ^ 64 ≤ r.value + 256 ^ 24) :=
  masked_far (length_nonceWords ..) (by rw [List.length_map, length_nonceWords])

/-- No nonce is used twice: neither direction comes back to one of its own, nor comes upon one of the
other's, in 2^64 messages each. -/
theorem nonces_fresh (seed : UInt32) (pk : ByteArr 32) {i j : Nat} (hi : i < 2 ^ 64) (hj : j < 2 ^ 64) :
    let (s, r) := sessionNonces seed pk
    bumpNonce^[i] s ≠ bumpNonce^[j] r ∧ (bumpNonce^[i] s = bumpNonce^[j] s → i = j) ∧
      (bumpNonce^[i] r = bumpNonce^[j] r → i = j) := by
  have hfar := sessionNonces_far seed pk
  generalize sessionNonces seed pk = nonces at hfar ⊢
  obtain ⟨s, r⟩ := nonces
  dsimp only at hfar ⊢
  have hmodulus : 2 ^ 64 < 256 ^ 24 := by decide
  refine ⟨?_, ?_, ?_⟩
  · obtain ⟨hsr, hrs⟩ | ⟨hrs, hsr⟩ := hfar
    · exact Counter.iterate_ne Nonce.value_lt value_bumpNonce hsr hrs hi hj
    · exact (Counter.iterate_ne Nonce.value_lt value_bumpNonce hrs hsr hj hi).symm
  · exact Counter.iterate_inj Nonce.value_lt value_bumpNonce (hi.trans hmodulus) (hj.trans hmodulus)
  · exact Counter.iterate_inj Nonce.value_lt value_bumpNonce (hi.trans hmodulus) (hj.trans hmodulus)

theorem nonces_fresh_sample : bumpNonce^[3] (sessionNonces 7 (zeros 32)).1 ≠ bumpNonce^[5] (sessionNonces 7 (zeros 32)).2 :=
  (nonces_fresh 7 (zeros 32) (by decide) (by decide)).1

end WaviclesPrime.Wire
