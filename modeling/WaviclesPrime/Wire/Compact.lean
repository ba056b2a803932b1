import WaviclesPrime.Wire.Pow

/-! Compact targets, and the numbers they stand for. -/
namespace WaviclesPrime.Wire
open LittleEndian

/-- The loop that places bytes from an index on. One past the end has to be zero. -/
def placeBytes (t : Bytes) (idx : Nat) : Bytes → Option Bytes
  | [] => some t
  | b :: bs =>
    if idx < t.length then placeBytes (t.set idx b) (idx + 1) bs
    else if b ≠ 0 then none
    else placeBytes t (idx + 1) bs

/-- Over zeros, the loop adds the bytes at their place exactly where the sum fits. -/
theorem placeBytes_spec {t : Bytes} {idx : Nat} (bs : Bytes) (hzero : ∀ b ∈ t.drop idx, b = 0) :
    ((placeBytes t idx bs).isSome ↔ LittleEndian.read t + 256 ^ idx * LittleEndian.read bs < 256 ^ t.length) ∧
      ∀ t', placeBytes t idx bs = some t' → t'.length = t.length ∧
        LittleEndian.read t' = LittleEndian.read t + 256 ^ idx * LittleEndian.read bs := by
  induction bs generalizing t idx with
  | nil =>
    refine ⟨iff_of_true rfl (read_lt t), fun t' h => ?_⟩
    obtain rfl := Option.some.inj h
    exact ⟨rfl, rfl⟩
  | cons b bs ih =>
    have hread : 256 ^ idx * LittleEndian.read (b :: bs) =
        256 ^ idx * b.toNat + 256 ^ (idx + 1) * LittleEndian.read bs := by
      rw [LittleEndian.read, Nat.mul_add, Nat.pow_succ, Nat.mul_assoc]
    unfold placeBytes
    split
    next hin =>
      have hfree : t[idx]? = some 0 := by
        rw [List.getElem?_eq_getElem hin, hzero t[idx] (List.mem_drop_iff_getElem.mpr ⟨0, by simpa using hin, rfl⟩)]
      have hrest : ∀ x ∈ (t.set idx b).drop (idx + 1), x = 0 := by
        intro x hx
        rw [List.drop_set_of_lt (Nat.lt_succ_self idx)] at hx
        exact hzero x (List.mem_of_mem_drop (List.drop_drop .. ▸ hx : x ∈ (t.drop idx).drop 1))
      have hlen : (t.set idx b).length = t.length := List.length_set
      rw [hread, ← Nat.add_assoc, ← read_set hfree b, ← hlen]
      exact ih hrest
    next hout =>
      have hpow : 256 ^ t.length ≤ 256 ^ idx := Nat.pow_le_pow_right (by decide) (Nat.not_lt.mp hout)
      split
      next hb =>
        have hpos : 1 ≤ b.toNat := Nat.pos_of_ne_zero fun h => hb (UInt8.toNat_inj.mp h)
        have hmul := Nat.mul_le_mul_left (256 ^ idx) hpos
        refine ⟨iff_of_false Bool.false_ne_true ?_, fun t' h => absurd h.symm (Option.some_ne_none t')⟩
        omega
      next hb =>
        obtain rfl : b = 0 := not_not.mp hb
        have hnone : ∀ x ∈ t.drop (idx + 1), x = 0 := by
          rw [List.drop_eq_nil_of_le (by omega)]
          exact List.forall_mem_nil _
        rw [hread, show (0 : UInt8).toNat = 0 from rfl, Nat.mul_zero, Nat.zero_add]
        exact ih hnone

def compactExp (nbits : UInt32) : Nat := (nbits >>> 24).toNat
def compactMant (nbits : UInt32) : Nat := (nbits &&& 0x007fffff).toNat

/-- The mantissa at its exponent, without what is below one. -/
def compactValue (nbits : UInt32) : Nat := compactMant nbits * 256 ^ compactExp nbits / 256 ^ 3

/-- A target is found exactly where the value is positive and fits, and is the value. -/
structure DecodesToValue (nbits : UInt32) : Prop where
  found : (nbitsToTargetLe nbits).isSome ↔
    nbits &&& 0x00800000 = 0 ∧ compactMant nbits ≠ 0 ∧ compactValue nbits < 2 ^ 256
  value : ∀ t, nbitsToTargetLe nbits = some t → LittleEndian.read t = compactValue nbits

section
variable {nbits : UInt32}

theorem compactMant_lt (nbits : UInt32) : compactMant nbits < 2 ^ 23 := by
  rw [compactMant, UInt32.toNat_and]
  exact Nat.lt_of_le_of_lt Nat.and_le_right (by decide)

theorem compactValue_of_le (h : compactExp nbits ≤ 3) :
    compactValue nbits = compactMant nbits >>> (8 * (3 - compactExp nbits)) := by
  have hpow : (256 : Nat) ^ 3 = 256 ^ (3 - compactExp nbits) * 256 ^ compactExp nbits := by
    rw [← Nat.pow_add, Nat.sub_add_cancel h]
  rw [compactValue, hpow, Nat.mul_div_mul_right _ _ (Nat.pow_pos (by decide)), Nat.shiftRight_eq_div_pow, Nat.pow_mul]

theorem compactValue_of_lt (h : 3 < compactExp nbits) :
    compactValue nbits = 256 ^ (compactExp nbits - 3) * compactMant nbits := by
  have hpow : (256 : Nat) ^ compactExp nbits = 256 ^ (compactExp nbits - 3) * 256 ^ 3 := by
    rw [← Nat.pow_add, Nat.sub_add_cancel h.le]
  rw [compactValue, hpow, ← Nat.mul_assoc, Nat.mul_div_cancel _ (by decide), Nat.mul_comm]

/-- Up to exponent 32 every value fits. -/
theorem compactValue_lt (h : 3 < compactExp nbits) (h' : compactExp nbits ≤ 32) : compactValue nbits < 2 ^ 256 := by
  have hpow : 256 ^ (compactExp nbits - 3) ≤ 256 ^ 29 := Nat.pow_le_pow_right (by decide) (by omega)
  have hmul := Nat.mul_le_mul hpow (compactMant_lt nbits).le
  rw [compactValue_of_lt h]
  exact Nat.lt_of_le_of_lt hmul (by decide)

/-- Above exponent 3, the loop alone finds the value exactly where it fits. -/
theorem placeBytes_mantissa (h : 3 < compactExp nbits) :
    ((placeBytes (List.replicate 32 0) (compactExp nbits - 3) (write 3 (compactMant nbits))).isSome ↔
        compactValue nbits < 2 ^ 256) ∧
      ∀ t, placeBytes (List.replicate 32 0) (compactExp nbits - 3) (write 3 (compactMant nbits)) = some t →
        t.length = 32 ∧ LittleEndian.read t = compactValue nbits := by
  have hzero : ∀ b ∈ (List.replicate 32 (0 : UInt8)).drop (compactExp nbits - 3), b = 0 :=
    fun b hb => List.eq_of_mem_replicate (List.mem_of_mem_drop hb)
  have hspec := placeBytes_spec (write 3 (compactMant nbits)) hzero
  rwa [read_zeros, Nat.zero_add, read_write ((compactMant_lt nbits).trans (by decide)), ← compactValue_of_lt h,
    List.length_replicate, show 256 ^ 32 = 2 ^ 256 by decide] at hspec

theorem compactMant_eq_zero : compactMant nbits = 0 ↔ nbits &&& 0x007fffff = 0 :=
  ⟨fun h => UInt32.toNat_inj.mp h, fun h => congrArg UInt32.toNat h⟩

/-- From exponent 4 to 32 the loop never gets past the end, so its last test never fails there. -/
theorem nbitsToTargetLe_loop (nbits : UInt32) : nbitsToTargetLe nbits =
    if nbits &&& 0x00800000 ≠ 0 ∨ nbits &&& 0x007fffff = 0 then none
    else if compactExp nbits ≤ 3 then
      some (write 4 (compactMant nbits >>> (8 * (3 - compactExp nbits))) ++ List.replicate 28 0)
    else if 32 < compactExp nbits then none
    else placeBytes (List.replicate 32 0) (compactExp nbits - 3) (write 3 (compactMant nbits)) := by
  unfold nbitsToTargetLe
  refine if_congr Iff.rfl rfl (ite_congr rfl (fun _ => rfl) fun hlow => ite_congr rfl (fun _ => rfl) fun hhigh => ?_)
  change ¬ compactExp nbits ≤ 3 at hlow
  change ¬ 32 < compactExp nbits at hhigh
  have hmant := compactMant_lt nbits
  have hvalue := compactValue_of_lt (Nat.not_le.mp hlow)
  obtain ⟨hfound, hplaced⟩ := placeBytes_mantissa (Nat.not_le.mp hlow)
  obtain ⟨t, ht⟩ := Option.isSome_iff_exists.mp (hfound.mpr
    (compactValue_lt (Nat.not_le.mp hlow) (Nat.not_lt.mp hhigh)))
  obtain ⟨hlen, hread⟩ := hplaced t ht
  rw [ht]
  change some (List.replicate (compactExp nbits - 3) 0 ++ write 3 (compactMant nbits) ++
    List.replicate (32 - compactExp nbits) 0) = some t
  refine congrArg some (eq_of_read ?_ ?_)
  · simp only [List.length_append, List.length_replicate, length_write, hlen]
    omega
  · rw [read_append, read_append, read_zeros, read_zeros, List.length_replicate,
      read_write (hmant.trans (by decide)), hread, hvalue, Nat.mul_zero, Nat.zero_add, Nat.add_zero]

/-- A mantissa whose high bytes are zero, at an exponent that puts only these past the end. -/
def HighZeros (nbits : UInt32) : Prop :=
  compactExp nbits = 33 ∧ compactMant nbits < 256 ^ 2 ∨ compactExp nbits = 34 ∧ compactMant nbits < 256

theorem fits_iff_highZeros (h : 32 < compactExp nbits) (hpos : compactMant nbits ≠ 0) :
    compactValue nbits < 2 ^ 256 ↔ HighZeros nbits := by
  have hsize : (2 : Nat) ^ 256 = 256 ^ 30 * 256 ^ 2 := by decide
  obtain hexp | hexp | hexp : compactExp nbits = 33 ∨ compactExp nbits = 34 ∨ 35 ≤ compactExp nbits := by omega
  · rw [compactValue_of_lt (by omega), HighZeros, hexp, hsize, Nat.mul_lt_mul_left (Nat.pow_pos (by decide))]
    simp
  · have hsize' : (256 : Nat) ^ 30 * 256 ^ 2 = 256 ^ 31 * 256 := by decide
    rw [compactValue_of_lt (by omega), HighZeros, hexp, hsize, hsize', Nat.mul_lt_mul_left (Nat.pow_pos (by decide))]
    simp
  · refine iff_of_false (Nat.not_lt.mpr ?_) ?_
    · have hpow : 256 ^ 32 ≤ 256 ^ (compactExp nbits - 3) := Nat.pow_le_pow_right (by decide) (by omega)
      rw [compactValue_of_lt (by omega)]
      calc 2 ^ 256 = 256 ^ 32 * 1 := by decide
        _ ≤ 256 ^ (compactExp nbits - 3) * compactMant nbits := Nat.mul_le_mul hpow (Nat.pos_of_ne_zero hpos)
    · unfold HighZeros
      omega

theorem decodesToValue_none (h : nbitsToTargetLe nbits = none) : DecodesToValue nbits ↔
    ¬ (nbits &&& 0x00800000 = 0 ∧ compactMant nbits ≠ 0 ∧ compactValue nbits < 2 ^ 256) := by
  constructor
  · intro hdecodes hfits
    have hfound := hdecodes.found.mpr hfits
    rw [h] at hfound
    cases hfound
  · intro hnot
    refine ⟨iff_of_false (by simp [h]) hnot, fun t ht => ?_⟩
    rw [h] at ht
    cases ht

theorem decodesToValue_some {t : Bytes} (h : nbitsToTargetLe nbits = some t)
    (hread : LittleEndian.read t = compactValue nbits)
    (hfits : nbits &&& 0x00800000 = 0 ∧ compactMant nbits ≠ 0 ∧ compactValue nbits < 2 ^ 256) :
    DecodesToValue nbits := by
  refine ⟨iff_of_true (by simp [h]) hfits, fun t' ht' => ?_⟩
  obtain rfl := Option.some.inj (h.symm.trans ht')
  exact hread

/-- A compact target decodes to its value, but for those that fit only because high bytes of their
mantissa are zero. -/
theorem decodesToValue_iff (nbits : UInt32) : DecodesToValue nbits ↔
    ¬ (nbits &&& 0x00800000 = 0 ∧ compactMant nbits ≠ 0 ∧ HighZeros nbits) := by
  have hloop := nbitsToTargetLe_loop nbits
  split at hloop
  next hnone =>
    rw [← compactMant_eq_zero] at hnone
    have hnot (q : Prop) : ¬ (nbits &&& 0x00800000 = 0 ∧ compactMant nbits ≠ 0 ∧ q) := fun h =>
      hnone.elim (fun hsign => hsign h.1) h.2.1
    exact (decodesToValue_none hloop).trans (iff_of_true (hnot _) (hnot _))
  next hsome =>
    rw [not_or, not_not, ← compactMant_eq_zero] at hsome
    obtain ⟨hsign, hpos⟩ := hsome
    split at hloop
    next hlow =>
      have hvalue := compactValue_of_le hlow
      have hsmall : compactValue nbits < 2 ^ 23 := by
        rw [hvalue]
        exact (Nat.shiftRight_le ..).trans_lt (compactMant_lt nbits)
      refine iff_of_true (decodesToValue_some hloop ?_ ⟨hsign, hpos, hsmall.trans (by decide)⟩) ?_
      · rw [← hvalue, read_append, read_zeros, Nat.mul_zero, Nat.add_zero, read_write (hsmall.trans (by decide))]
      · unfold HighZeros
        omega
    next hlow =>
      split at hloop
      next hhigh => rw [decodesToValue_none hloop, fits_iff_highZeros hhigh hpos]
      next hhigh =>
        obtain ⟨hfound, hplaced⟩ := placeBytes_mantissa (Nat.not_le.mp hlow)
        have hfits := compactValue_lt (Nat.not_le.mp hlow) (Nat.not_lt.mp hhigh)
        obtain ⟨t, ht⟩ := Option.isSome_iff_exists.mp (hfound.mpr hfits)
        refine iff_of_true (decodesToValue_some (hloop.trans ht) (hplaced t ht).2 ⟨hsign, hpos, hfits⟩) ?_
        unfold HighZeros
        omega

theorem edge_target_refused : nbitsToTargetLe 0x2100ffff = none ∧ compactValue 0x2100ffff = 0xffff * 256 ^ 30 ∧
    ¬ DecodesToValue 0x2100ffff := by
  refine ⟨by decide, by decide, fun h => ?_⟩
  have hfound := h.found.mpr ⟨by decide, by decide, by decide⟩
  cases hfound

end
end WaviclesPrime.Wire
