import WaviclesPrime.Wire.Classify

/-! What a coinbase that is classified a full split pays each script. -/
namespace WaviclesPrime.Wire
open Machine

section
variable (cb : Coinbase) (poolScript : Bytes) (iss : List Output) (tolerance : Nat)

/-- An issued amount in exact arithmetic, scaled down when the coinbase is worth less than was issued. -/
def scaledDown (sats : Nat) : Nat :=
  let issuedValue := (iss.map Output.sats).sum
  if issuedValue = 0 ∨ issuedValue ≤ cb.totalOutputValue then sats
  else sats * cb.totalOutputValue / issuedValue

/-- What the coinbase owes a script, over all the outputs issued to it. -/
def scaledSum (script : Bytes) : Nat :=
  ((iss.filter fun i => i.script = script).map fun i => scaledDown cb iss i.sats).sum

def issuedCount (script : Bytes) : Nat := (iss.filter fun i => i.script = script).length

/-- Every commitment is there, and every script is paid the sum of what was issued to it. -/
structure PaidInFull : Prop where
  commitments : ∀ c ∈ commits iss, ∃ o ∈ cb.outputs, o.script = c.script
  scripts : ∀ script, script ≠ poolScript → isOpReturnScript script = false →
    scaledSum cb iss script ≤ cb.paidTo script + tolerance * issuedCount iss script

/-- The list fits its counters, and each issued output, looked at by itself, is as it should be. -/
structure PassesAlone : Prop where
  known : ∀ o ∈ cb.outputs, isForeign poolScript (some iss) o = false
  kept : dropsCommit cb iss = false
  fits : (iss.map Output.sats).sum < sizeU64 ∧ (minersOf poolScript iss).length < sizeU16
  paid : ∀ i ∈ minersOf poolScript iss, 0 < cb.paidTo i.script
  whole : ∀ i ∈ minersOf poolScript iss, scaledDown cb iss i.sats ≤ cb.paidTo i.script + tolerance
  within : ∀ i ∈ minersOf poolScript iss,
    cb.paidTo i.script ≤ ceilingOf cb iss i.script + (tolerance + iss.length)

end

section
variable {cb : Coinbase} {poolScript : Bytes} {iss : List Output} {tolerance : Nat}

theorem paidTo_lt (cb : Coinbase) (script : Bytes) : cb.paidTo script < sizeU64 := by
  rw [cb.paidTo_eq]
  exact Nat.lt_of_le_of_lt (Nat.min_le_right _ _) (by decide)

theorem scaledDown_le (cb : Coinbase) (iss : List Output) (sats : Nat) : scaledDown cb iss sats ≤ sats := by
  unfold scaledDown
  dsimp only
  split
  next => exact Nat.le_refl _
  next h => exact Nat.div_le_of_le_mul (by rw [Nat.mul_comm]; exact Nat.mul_le_mul_right _ (by omega))

/-- A word is not cut by the scaling, which only makes it smaller. -/
theorem owedFor_eq {sats : Nat} (h : sats < sizeU64) :
    owedFor (iss.map Output.sats).sum cb.totalOutputValue sats = scaledDown cb iss sats := by
  have hle := scaledDown_le cb iss sats
  unfold scaledDown at hle ⊢
  unfold owedFor
  dsimp only at hle ⊢
  split
  next => rfl
  next hdown =>
    rw [if_neg hdown] at hle
    exact cast_of_lt (by omega)

theorem isShort_iff {i : Output} (hi : i.sats < sizeU64) :
    isShort cb tolerance (iss.map Output.sats).sum cb.totalOutputValue i = true ↔
      0 < cb.paidTo i.script ∧ cb.paidTo i.script + tolerance < scaledDown cb iss i.sats := by
  have hle := scaledDown_le cb iss i.sats
  rw [isShort, owedFor_eq hi, Bool.and_eq_true, decide_eq_true_eq, decide_eq_true_eq, satAdd]
  omega

/-- The saturating ceiling refuses just what the exact one does. -/
theorem le_satAdd_ceiling (ceiling : Nat) (script : Bytes) :
    cb.paidTo script ≤ satAdd sizeU64 ceiling (satAdd sizeU64 tolerance iss.length) ↔
      cb.paidTo script ≤ ceiling + (tolerance + iss.length) := by
  have hlt := paidTo_lt cb script
  unfold satAdd
  omega

theorem sats_lt_of_mem (hfit : (iss.map Output.sats).sum < sizeU64) {i : Output} (hi : i ∈ iss) :
    i.sats < sizeU64 :=
  Nat.lt_of_le_of_lt (List.single_le_sum (by simp) _ (List.mem_map_of_mem hi)) hfit

theorem mem_minersOf {i : Output} : i ∈ minersOf poolScript iss ↔
    i ∈ iss ∧ i.script ≠ poolScript ∧ isOpReturnScript i.script = false := by
  simp [minersOf]

/-- The run of the loop that the classification makes, in exact arithmetic. -/
theorem holdMiners_iff (hfit : (iss.map Output.sats).sum < sizeU64) {n : Nat} :
    holdMiners cb tolerance (satAdd sizeU64 tolerance iss.length) (iss.map Output.sats).sum
        cb.totalOutputValue (minersOf poolScript iss) (minersOf poolScript iss) 0 false =
          some (some (n, false)) ↔
      n < sizeU16 ∧ n = (minersOf poolScript iss).countP (fun i => 0 < cb.paidTo i.script) ∧
      ∀ i ∈ minersOf poolScript iss,
        cb.paidTo i.script ≤ ceilingOf cb iss i.script + (tolerance + iss.length) ∧
        (0 < cb.paidTo i.script → scaledDown cb iss i.sats ≤ cb.paidTo i.script + tolerance) := by
  rw [holdMiners_eq_some (by decide), Nat.zero_add, Bool.false_or, Prod.mk.injEq, eq_comm (a := false),
    List.any_eq_false]
  have hwithin : ∀ i ∈ minersOf poolScript iss, (cb.paidTo i.script ≤ satAdd sizeU64
      (capFor (iss.map Output.sats).sum cb.totalOutputValue (issuedTo (minersOf poolScript iss) i.script))
        (satAdd sizeU64 tolerance iss.length) ↔
      cb.paidTo i.script ≤ ceilingOf cb iss i.script + (tolerance + iss.length)) := by
    intro i hi
    obtain ⟨-, hp, ho⟩ := mem_minersOf.mp hi
    rw [capFor_eq hfit hp ho, le_satAdd_ceiling]
  have hshort : ∀ i ∈ minersOf poolScript iss, (¬ isShort cb tolerance (iss.map Output.sats).sum
      cb.totalOutputValue i = true ↔
      (0 < cb.paidTo i.script → scaledDown cb iss i.sats ≤ cb.paidTo i.script + tolerance)) := by
    intro i hi
    rw [isShort_iff (sats_lt_of_mem hfit (mem_minersOf.mp hi).1), not_and, Nat.not_lt]
  constructor
  · rintro ⟨hcount, hin, rfl, hnone⟩
    exact ⟨hcount, rfl, fun i hi => ⟨(hwithin i hi).mp (hin i hi), (hshort i hi).mp (hnone i hi)⟩⟩
  · rintro ⟨hcount, rfl, hall⟩
    exact ⟨hcount, fun i hi => (hwithin i hi).mpr (hall i hi).1, rfl,
      fun i hi => (hshort i hi).mpr (hall i hi).2⟩

/-- With nobody unknown paid and no commitment dropped, the loop over the miners decides. -/
theorem classify_kept {n : Nat} {short : Bool}
    (known : ∀ o ∈ cb.outputs, isForeign poolScript (some iss) o = false)
    (kept : dropsCommit cb iss = false) (hfit : (iss.map Output.sats).sum < sizeU64)
    (hold : holdMiners cb tolerance (satAdd sizeU64 tolerance iss.length) (iss.map Output.sats).sum
      cb.totalOutputValue (minersOf poolScript iss) (minersOf poolScript iss) 0 false =
        some (some (n, short))) :
    classifyCoinbase cb poolScript (some iss) tolerance = some (
      if !short && (n == (minersOf poolScript iss).length &&
        (poolPaid cb poolScript || !(minersOf poolScript iss).isEmpty)) then .split
      else if !short && decide (0 < n) then .partialSplit n
      else poolOrForeign cb poolScript) := by
  have hany : cb.outputs.any (isForeign poolScript (some iss)) = false := by
    simpa [List.any_eq_false] using known
  have hsum : (iss.map Output.sats).foldlM (checkedAdd sizeU64) 0 = some (iss.map Output.sats).sum :=
    (foldlM_checkedAdd _ _ _ (by decide)).mpr ⟨by omega, Nat.zero_add _⟩
  simp only [classifyCoinbase, hany, kept, hsum, hold, Bool.false_eq_true, if_false,
    Option.bind_eq_bind, Option.bind_some]
  split
  next => rfl
  next => split <;> rfl

/-- A coinbase is a split exactly when each issued output by itself is as it should be, and there is
somebody to pay. -/
theorem classify_split_iff : classifyCoinbase cb poolScript (some iss) tolerance = some .split ↔
    PassesAlone cb poolScript iss tolerance ∧
      (poolPaid cb poolScript = true ∨ minersOf poolScript iss ≠ []) := by
  constructor
  · intro h
    obtain ⟨known, kept, hfit, hhold, hpool⟩ := split_held h
    obtain ⟨hlen, hcount, hall⟩ := (holdMiners_iff hfit).mp hhold
    have hpaid : ∀ i ∈ minersOf poolScript iss, 0 < cb.paidTo i.script := by
      simpa using List.countP_eq_length.mp hcount.symm
    exact ⟨⟨known, kept, ⟨hfit, hlen⟩, hpaid, fun i hi => (hall i hi).2 (hpaid i hi),
      fun i hi => (hall i hi).1⟩, hpool⟩
  · rintro ⟨⟨known, kept, ⟨hfit, hlen⟩, hpaid, hwhole, hwithin⟩, hpool⟩
    have hcount : (minersOf poolScript iss).countP (fun i => 0 < cb.paidTo i.script) =
        (minersOf poolScript iss).length := List.countP_eq_length.mpr (by simpa using hpaid)
    have hhold := (holdMiners_iff hfit).mpr
      ⟨hlen, hcount.symm, fun i hi => ⟨hwithin i hi, fun _ => hwhole i hi⟩⟩
    rw [classify_kept known kept hfit hhold]
    simp [hpool]

theorem dropsCommit_eq_false : dropsCommit cb iss = false ↔
    ∀ c ∈ commits iss, ∃ o ∈ cb.outputs, o.script = c.script := by
  simp [dropsCommit]

/-- An output issued alone to its script is all that the script is owed. -/
theorem scaledSum_of_one {script : Bytes} (h : PassesAlone cb poolScript iss tolerance)
    (hp : script ≠ poolScript) (ho : isOpReturnScript script = false)
    (hone : issuedCount iss script < 2) :
    scaledSum cb iss script ≤ cb.paidTo script + tolerance * issuedCount iss script := by
  have hmem : ∀ i ∈ iss.filter (fun i => i.script = script), i ∈ iss ∧ i.script = script :=
    fun i hi => by simpa using hi
  unfold scaledSum
  unfold issuedCount at hone ⊢
  cases hf : iss.filter (fun i => i.script = script) with
  | nil => simp
  | cons i rest =>
    rw [hf] at hmem hone
    rw [List.length_cons] at hone
    obtain rfl : rest = [] := List.eq_nil_of_length_eq_zero (by omega)
    obtain ⟨hi, rfl⟩ := hmem i List.mem_cons_self
    simpa using h.whole i (mem_minersOf.mpr ⟨hi, hp, ho⟩)

/-- A split is paid in full exactly when some output fails by itself, so that there is no split, or
every script issued more than once is paid its sum. -/
theorem split_paid_in_full_iff : (classifyCoinbase cb poolScript (some iss) tolerance = some .split →
      PaidInFull cb poolScript iss tolerance) ↔
    (¬ PassesAlone cb poolScript iss tolerance ∨
      ∀ script, script ≠ poolScript → isOpReturnScript script = false → 2 ≤ issuedCount iss script →
        scaledSum cb iss script ≤ cb.paidTo script + tolerance * issuedCount iss script) := by
  constructor
  · intro h
    refine or_iff_not_imp_left.mpr fun halone script hp ho htwice => ?_
    rw [not_not] at halone
    obtain ⟨i, hi⟩ := List.exists_mem_of_length_pos (Nat.lt_of_lt_of_le Nat.two_pos htwice)
    obtain ⟨hiss, heq⟩ := List.mem_filter.mp hi
    have hminer : i ∈ minersOf poolScript iss := by
      obtain rfl := of_decide_eq_true heq
      exact mem_minersOf.mpr ⟨hiss, hp, ho⟩
    exact (h (classify_split_iff.mpr ⟨halone, .inr (List.ne_nil_of_mem hminer)⟩)).scripts script hp ho
  · rintro hcond hsplit
    obtain ⟨halone, -⟩ := classify_split_iff.mp hsplit
    refine ⟨dropsCommit_eq_false.mp halone.kept, fun script hp ho => ?_⟩
    by_cases htwice : 2 ≤ issuedCount iss script
    · exact (hcond.resolve_left (not_not_intro halone)) script hp ho htwice
    · exact scaledSum_of_one halone hp ho (Nat.lt_of_not_le htwice)

end

/-- Two identities with one script, each issued 100: paid 100 in all, the coinbase is a split. -/
theorem repeated_script_short :
    ¬ ∀ (cb : Coinbase) (poolScript : Bytes) (iss : List Output) (tolerance : Nat),
      classifyCoinbase cb poolScript (some iss) tolerance = some .split →
      PaidInFull cb poolScript iss tolerance := by
  intro h
  have hfull := h (coinbaseOf [⟨100, [0, 20, 1]⟩, ⟨900, [0, 20, 9]⟩]) [0, 20, 9]
    [⟨100, [0, 20, 1]⟩, ⟨100, [0, 20, 1]⟩, ⟨800, [0, 20, 9]⟩] 1 (by decide)
  exact absurd (hfull.scripts [0, 20, 1] (by decide) (by decide)) (by decide)

end WaviclesPrime.Wire
