import WaviclesPrime.Tides.Split
import WaviclesPrime.Lib.Loop
import WaviclesPrime.Lib.Apportion

/-! The loop over the window in exact arithmetic: what each miner is offered, what becomes of
the offer, and when no check stops the loop. -/
namespace WaviclesPrime.Tides
open Machine Apportion

def SplitParams.Bounded (p : SplitParams) : Prop :=
  p.feeBps ≤ 10000 ∧ p.stratumFeeBps ≤ 10000 ∧ ∀ e ∈ p.feeOverrides.entries, e.2 ≤ 10000

instance (p : SplitParams) : Decidable p.Bounded :=
  inferInstanceAs (Decidable (_ ∧ _ ∧ ∀ e ∈ p.feeOverrides.entries, e.2 ≤ 10000))

theorem SplitParams.Bounded.bpsFor_le {p : SplitParams} (h : p.Bounded) (i : Identity) :
    (p.bpsFor i).1 ≤ 10000 ∧ (p.bpsFor i).2 ≤ 10000 := by
  obtain ⟨hf, hs, ho⟩ := h
  unfold SplitParams.bpsFor
  cases hg : p.feeOverrides.get i with
  | some o => exact ⟨ho _ (OrdMap.mem_of_get _ hg), ho _ (OrdMap.mem_of_get _ hg)⟩
  | none => dsimp only; split <;> exact ⟨by assumption, hf⟩

def stratumPart (m : MinerStat) : Nat := min m.stratumWork m.work

def datumPart (m : MinerStat) : Nat := m.work - stratumPart m

def feeWeight (p : SplitParams) (m : MinerStat) : Nat :=
  stratumPart m * (p.bpsFor m.identity).1 + datumPart m * (p.bpsFor m.identity).2

def keepWeight (p : SplitParams) (m : MinerStat) : Nat :=
  stratumPart m * (10000 - (p.bpsFor m.identity).1) + datumPart m * (10000 - (p.bpsFor m.identity).2)

/-- A miner's part of the value after the fee, and the fee itself, both rounded down. -/
def shareOf (p : SplitParams) (value totalWork : Nat) (m : MinerStat) : Nat :=
  value * keepWeight p m / totalWork / 10000

def feePartOf (p : SplitParams) (value totalWork : Nat) (m : MinerStat) : Nat :=
  value * feeWeight p m / totalWork / 10000

theorem stratum_add_datum (m : MinerStat) : stratumPart m + datumPart m = m.work := by
  unfold datumPart stratumPart; omega

/-- Every unit of work is either kept or charged. -/
theorem keep_add_fee {p : SplitParams} (hp : p.Bounded) (m : MinerStat) :
    keepWeight p m + feeWeight p m = 10000 * m.work := by
  obtain ⟨hs, hd⟩ := hp.bpsFor_le m.identity
  have hkeep (a b : Nat) (hb : b ≤ 10000) : a * (10000 - b) + a * b = 10000 * a := by
    rw [← Nat.mul_add, Nat.sub_add_cancel hb, Nat.mul_comm]
  have h1 := hkeep (stratumPart m) _ hs
  have h2 := hkeep (datumPart m) _ hd
  have h3 := stratum_add_datum m
  unfold keepWeight feeWeight
  omega

theorem weights_eq {p : SplitParams} {m : MinerStat} {fk : Nat × Nat}
    (h : weights p m = some fk) : fk = (feeWeight p m, keepWeight p m) := by
  simp only [weights, Option.bind_eq_bind, Option.bind_eq_some_iff, checkedMul_eq_some,
    checkedAdd_eq_some, checkedSub_eq_some, Option.some.injEq] at h
  obtain ⟨_, ⟨_, rfl⟩, _, ⟨_, rfl⟩, _, ⟨_, rfl⟩, _, ⟨_, rfl⟩, _, ⟨_, rfl⟩, _, ⟨_, rfl⟩,
    _, ⟨_, rfl⟩, _, ⟨_, rfl⟩, rfl⟩ := h
  rfl

theorem weights_total {p : SplitParams} (hp : p.Bounded) {m : MinerStat}
    (hw : m.work < sizeU64) : weights p m = some (feeWeight p m, keepWeight p m) := by
  obtain ⟨hs, hd⟩ := hp.bpsFor_le m.identity
  have hsd := stratum_add_datum m
  have hsmall (a b : Nat) (ha : a ≤ m.work) (hb : b ≤ 10000) : a * b ≤ m.work * 10000 :=
    Nat.mul_le_mul ha hb
  have h1 := hsmall (stratumPart m) _ (by omega) hs
  have h2 := hsmall (datumPart m) _ (by omega) hd
  have h3 := hsmall (stratumPart m) (10000 - (p.bpsFor m.identity).1) (by omega) (by omega)
  have h4 := hsmall (datumPart m) (10000 - (p.bpsFor m.identity).2) (by omega) (by omega)
  simp only [weights, Option.bind_eq_bind, Option.bind_eq_some_iff, checkedMul_eq_some,
    checkedAdd_eq_some, checkedSub_eq_some]
  refine ⟨_, ⟨?_, rfl⟩, _, ⟨?_, rfl⟩, _, ⟨?_, rfl⟩, _, ⟨hs, rfl⟩, _, ⟨hd, rfl⟩, _, ⟨?_, rfl⟩,
    _, ⟨?_, rfl⟩, _, ⟨?_, rfl⟩, rfl⟩
  all_goals
    simp only [sizeU128, sizeU64, stratumPart, datumPart] at *
    omega

/-- What the caller of a split promises: rates at most 100 %, a window whose work is its total,
and amounts that fit their words. -/
structure SplitInput (miners : List MinerStat) (totalWork value : Nat) (p : SplitParams) : Prop where
  bounded : p.Bounded
  total : (miners.map MinerStat.work).sum = totalWork
  workFits : totalWork < sizeU64
  valueFits : value < sizeU64

instance (miners : List MinerStat) (totalWork value : Nat) (p : SplitParams) :
    Decidable (SplitInput miners totalWork value p) :=
  decidable_of_iff (p.Bounded ∧ (miners.map MinerStat.work).sum = totalWork ∧
    totalWork < sizeU64 ∧ value < sizeU64)
    ⟨fun ⟨a, b, c, d⟩ => ⟨a, b, c, d⟩, fun ⟨a, b, c, d⟩ => ⟨a, b, c, d⟩⟩

section
variable {miners : List MinerStat} {totalWork value : Nat} {p : SplitParams}
  {scriptFor : Identity → Option Bytes}

theorem SplitInput.work_le (h : SplitInput miners totalWork value p) {m : MinerStat}
    (hm : m ∈ miners) : m.work ≤ totalWork := h.total ▸ le_sum_of_mem hm

theorem portion_le_value {weight : Nat} (h : weight ≤ 10000 * totalWork) :
    value * weight / totalWork / 10000 ≤ value := by
  rw [Nat.div_div_eq_div_mul]
  exact Nat.div_le_of_le_mul (by
    rw [Nat.mul_comm _ value]
    exact Nat.mul_le_mul_left value (by omega))

theorem portion_eq {weight : Nat} (hv : value < sizeU64) (h : weight ≤ 10000 * totalWork)
    {sats : Nat} (hs : portion value weight totalWork = some sats) :
    sats = value * weight / totalWork / 10000 := by
  simp only [portion, Option.bind_eq_bind, Option.bind_eq_some_iff, checkedMul_eq_some,
    Option.some.injEq] at hs
  obtain ⟨_, ⟨_, rfl⟩, rfl⟩ := hs
  exact cast_of_lt ((portion_le_value h).trans_lt hv)

theorem portion_total {weight : Nat} (hv : value < sizeU64) (h : weight ≤ 10000 * totalWork)
    (hprod : value * weight < sizeU128) :
    portion value weight totalWork = some (value * weight / totalWork / 10000) := by
  simp only [portion, Option.bind_eq_bind, Option.bind_eq_some_iff, checkedMul_eq_some]
  exact ⟨_, ⟨hprod, rfl⟩, congrArg some (cast_of_lt ((portion_le_value h).trans_lt hv))⟩

theorem SplitInput.keepWeight_le (h : SplitInput miners totalWork value p) {m : MinerStat}
    (hm : m ∈ miners) : keepWeight p m ≤ 10000 * totalWork := by
  have := keep_add_fee h.bounded m
  have := h.work_le hm
  omega

theorem SplitInput.feeWeight_le (h : SplitInput miners totalWork value p) {m : MinerStat}
    (hm : m ∈ miners) : feeWeight p m ≤ 10000 * totalWork := by
  have := keep_add_fee h.bounded m
  have := h.work_le hm
  omega

/-- Fee weights of a whole window never exceed its work at 100 %. -/
theorem SplitInput.sum_weights (h : SplitInput miners totalWork value p) :
    (miners.map (keepWeight p)).sum + (miners.map (feeWeight p)).sum = 10000 * totalWork := by
  rw [← List.sum_map_add, ← h.total, ← List.sum_map_mul_left]
  exact congrArg List.sum (List.map_congr_left fun m _ => keep_add_fee h.bounded m)

/-- All offers and all fees together never exceed the value. -/
theorem SplitInput.sum_offers_le (h : SplitInput miners totalWork value p) :
    (miners.map (shareOf p value totalWork)).sum + (miners.map (feePartOf p value totalWork)).sum
      ≤ value := by
  have hk : (miners.map (shareOf p value totalWork)).sum
      ≤ value * (miners.map (keepWeight p)).sum / (totalWork * 10000) := by
    change (miners.map fun m => value * keepWeight p m / totalWork / 10000).sum ≤ _
    simp only [Nat.div_div_eq_div_mul]
    simpa only [List.sum_map_mul_left] using sum_div_le miners (fun m => value * keepWeight p m) _
  have hf : (miners.map (feePartOf p value totalWork)).sum
      ≤ value * (miners.map (feeWeight p)).sum / (totalWork * 10000) := by
    change (miners.map fun m => value * feeWeight p m / totalWork / 10000).sum ≤ _
    simp only [Nat.div_div_eq_div_mul]
    simpa only [List.sum_map_mul_left] using sum_div_le miners (fun m => value * feeWeight p m) _
  refine (Nat.add_le_add hk hf).trans (Nat.div_add_div_le_add_div.trans ?_)
  rw [← Nat.mul_add, h.sum_weights]
  exact Nat.div_le_of_le_mul (by rw [Nat.mul_comm _ value, Nat.mul_comm totalWork])

/-- The offer a miner receives, under the script the lookup returns. -/
def offer (p : SplitParams) (value totalWork : Nat) (scriptFor : Identity → Option Bytes)
    (m : MinerStat) : Payee :=
  ⟨m.identity, m.work, shareOf p value totalWork m, (scriptFor m.identity).getD []⟩

/-- The tally after charging a miner, before deciding on an output. -/
def Tally.charge (p : SplitParams) (value totalWork : Nat) (t : Tally) (m : MinerStat) : Tally :=
  { t with
    feeNum := t.feeNum + feeWeight p m
    feeSats := satAdd sizeU64 t.feeSats (feePartOf p value totalWork m) }

/-- Everything one iteration can do. -/
theorem addMiner_cases (h : SplitInput miners totalWork value p) {m : MinerStat} (hm : m ∈ miners)
    {t t' : Tally} (run : addMiner p value totalWork scriptFor t m = some t') :
    let c := t.charge p value totalWork m
    let sats := shareOf p value totalWork m
    (sats < p.minPayout ∧
      t' = { c with unpaid := c.unpaid ++ [(m.identity, sats, .belowMinimum)] }) ∨
    (p.minPayout ≤ sats ∧ scriptFor m.identity = none ∧
      t' = { c with unpaid := c.unpaid ++ [(m.identity, sats, .noScript)] }) ∨
    (∃ script, p.minPayout ≤ sats ∧ scriptFor m.identity = some script ∧
      (p.maxOutputs ≤ t.payees.length ∨ p.outputBudgetBytes < t.bytes + outputNeed script) ∧
      t' = { c with unpaid := c.unpaid ++ [(m.identity, sats, .overBudget)] }) ∨
    (∃ script, p.minPayout ≤ sats ∧ scriptFor m.identity = some script ∧
      t.payees.length < p.maxOutputs ∧ t.bytes + outputNeed script ≤ p.outputBudgetBytes ∧
      t.paid + sats < sizeU64 ∧
      t' = { c with
        bytes := t.bytes + outputNeed script
        paid := t.paid + sats
        payees := t.payees ++ [⟨m.identity, m.work, sats, script⟩] }) := by
  simp only [addMiner, Option.bind_eq_bind, Option.bind_eq_some_iff, checkedAdd_eq_some] at run
  obtain ⟨fk, hw, _, ⟨_, rfl⟩, sats, hs, feePart, hf, run⟩ := run
  obtain rfl := weights_eq hw
  obtain rfl : sats = shareOf p value totalWork m := portion_eq h.valueFits (h.keepWeight_le hm) hs
  obtain rfl : feePart = feePartOf p value totalWork m :=
    portion_eq h.valueFits (h.feeWeight_le hm) hf
  intro c sats
  split at run
  next hlt => exact .inl ⟨hlt, (Option.some.inj run).symm⟩
  next hge =>
    have hge : p.minPayout ≤ sats := Nat.le_of_not_lt hge
    split at run
    next hn => exact .inr (.inl ⟨hge, hn, (Option.some.inj run).symm⟩)
    next script hsc =>
      split at run
      next hover => exact .inr (.inr (.inl ⟨script, hge, hsc, hover, (Option.some.inj run).symm⟩))
      next hroom =>
        simp only [Option.bind_eq_some_iff, checkedAdd_eq_some] at run
        obtain ⟨_, ⟨hfit, rfl⟩, run⟩ := run
        rw [not_or, Nat.not_le, Nat.not_lt] at hroom
        exact .inr (.inr (.inr ⟨script, hge, hsc, hroom.1, hroom.2, hfit, (Option.some.inj run).symm⟩))

/-- No check stops an iteration whose products and sums fit. -/
theorem addMiner_total (scriptFor : Identity → Option Bytes) (h : SplitInput miners totalWork value p) {m : MinerStat} (hm : m ∈ miners)
    {t : Tally} (hkeep : value * keepWeight p m < sizeU128) (hfee : value * feeWeight p m < sizeU128)
    (hnum : t.feeNum + feeWeight p m < sizeU128)
    (hpaid : t.paid + shareOf p value totalWork m < sizeU64) :
    ∃ t', addMiner p value totalWork scriptFor t m = some t' := by
  have hw := weights_total h.bounded ((h.work_le hm).trans_lt h.workFits)
  have hs := portion_total h.valueFits (h.keepWeight_le hm) hkeep
  have hf := portion_total h.valueFits (h.feeWeight_le hm) hfee
  have hn : checkedAdd sizeU128 t.feeNum (feeWeight p m) = some (t.feeNum + feeWeight p m) := by
    simp [hnum]
  have hp : checkedAdd sizeU64 t.paid (value * keepWeight p m / totalWork / 10000)
      = some (t.paid + shareOf p value totalWork m) := by
    simp only [checkedAdd_eq_some, shareOf] at hpaid ⊢
    exact ⟨hpaid, trivial⟩
  simp only [addMiner, hw, hs, hf, hn, Option.bind_eq_bind, Option.bind_some]
  split
  · exact ⟨_, rfl⟩
  · split
    · exact ⟨_, rfl⟩
    · split
      · exact ⟨_, rfl⟩
      · exact ⟨_, by rw [hp]; rfl⟩

end
end WaviclesPrime.Tides
