import WaviclesPrime.Tides.Accounting

/-! When a split goes through its arithmetic: the products of a value, a work and a rate are
the only ones that can leave their word. -/
namespace WaviclesPrime.Tides
open Machine Apportion

/-- What a split casts to u64 is inside u64: both parts of each miner and, under a cap, the fee
and every share of the re-distribution. -/
structure CastsExact (miners : List MinerStat) (totalWork value : Nat) (p : SplitParams)
    (scriptFor : Identity → Option Bytes) : Prop where
  share : ∀ m ∈ counted miners totalWork, value * keepWeight p m / totalWork / 10000 < sizeU64
  fee : ∀ m ∈ counted miners totalWork, value * feeWeight p m / totalWork / 10000 < sizeU64
  feeOfCap : ∀ t, tallyMiners miners totalWork value p scriptFor = some t → CapApplies p t →
    value * t.feeNum / max totalWork 1 / 10000 < sizeU64
  reshared : ∀ t, tallyMiners miners totalWork value p scriptFor = some t → CapApplies p t →
    ∀ q ∈ keptOf p t.payees, (value - cappedFee value totalWork t.feeNum) * q.work /
      max (workOf (keptOf p t.payees)) 1 < sizeU64

/-- No operation of a split leaves its word, and no cast loses a bit. -/
def NoOverflow (miners : List MinerStat) (totalWork value : Nat) (p : SplitParams)
    (carry : OrdMap Identity Nat) (scriptFor : Identity → Option Bytes) : Prop :=
  (∃ s, computeWithCarry miners totalWork value p carry scriptFor = some s) ∧
    CastsExact miners totalWork value p scriptFor

section
variable {miners : List MinerStat} {totalWork value : Nat} {p : SplitParams}
  {scriptFor : Identity → Option Bytes} {carry : OrdMap Identity Nat}

theorem castsExact (h : SplitInput miners totalWork value p) :
    CastsExact miners totalWork value p scriptFor where
  share _ hm := (portion_le_value (h.counted.keepWeight_le hm)).trans_lt h.valueFits
  fee _ hm := (portion_le_value (h.counted.feeWeight_le hm)).trans_lt h.valueFits
  feeOfCap t ht _ := by
    have hd := decided_run h.counted (tallyMiners_eq ▸ ht)
    have hle := cappedFee_le h.counted
    rw [← hd.feeNum] at hle
    exact hle.trans_lt h.valueFits
  reshared _ _ _ _ hq := (reshare_le hq).trans_lt ((Nat.sub_le _ _).trans_lt h.valueFits)

/-- An iteration that goes through had products that fit. -/
theorem addMiner_fits {m : MinerStat} {t t' : Tally}
    (run : addMiner p value totalWork scriptFor t m = some t') :
    value * keepWeight p m < sizeU128 ∧ value * feeWeight p m < sizeU128 := by
  simp only [addMiner, portion, Option.bind_eq_bind, Option.bind_eq_some_iff,
    checkedMul_eq_some] at run
  obtain ⟨fk, hw, _, _, _, ⟨_, ⟨hkeep, _⟩, _⟩, _, ⟨_, ⟨hfee, _⟩, _⟩, _⟩ := run
  obtain rfl := weights_eq hw
  exact ⟨hkeep, hfee⟩

theorem tally_fits {t : Tally}
    (run : miners.foldlM (addMiner p value totalWork scriptFor) .start = some t) :
    ∀ m ∈ miners, value * keepWeight p m < sizeU128 ∧ value * feeWeight p m < sizeU128 := by
  refine Loop.run_invariant (P := fun done _ => ∀ m ∈ done,
    value * keepWeight p m < sizeU128 ∧ value * feeWeight p m < sizeU128) ?_ (by simp) run
  intro done m t t' _ hdone hstep x hx
  rcases List.mem_append.mp hx with hx | hx
  · exact hdone x hx
  · exact List.mem_singleton.mp hx ▸ addMiner_fits hstep

/-- A cap that goes through multiplied out a fee that fits. -/
theorem capPayees_fits {t t' : Tally} (hc : CapApplies p t)
    (run : capPayees p value totalWork t = some t') : value * t.feeNum < sizeU128 := by
  unfold capPayees at run
  rw [if_pos hc] at run
  simp only [Option.bind_eq_bind, Option.bind_eq_some_iff, checkedMul_eq_some] at run
  obtain ⟨_, ⟨hlt, _⟩, _⟩ := run
  exact hlt

/-- A split goes through its arithmetic, and keeps every bit, exactly when its products fit. -/
theorem noOverflow_iff (h : SplitInput miners totalWork value p) :
    NoOverflow miners totalWork value p carry scriptFor ↔
      SplitFits miners totalWork value p scriptFor := by
  rw [← splitFits_counted h, NoOverflow, and_iff_left (castsExact h)]
  constructor
  · rintro ⟨s, run⟩
    simp only [computeWithCarry, Option.bind_eq_bind, Option.bind_eq_some_iff] at run
    obtain ⟨tally, ht, t, hcap, -⟩ := run
    rw [tallyMiners_eq] at ht
    refine ⟨tally_fits ht, fun hpos hex => ?_⟩
    have hfit := capPayees_fits ((capApplies_iff h.counted ht).mpr ⟨hpos, hex⟩) hcap
    rwa [(decided_run h.counted ht).feeNum] at hfit
  · exact fun hfit => computeWithCarry_fits h ((splitFits_counted h).mp hfit)

end

/-- Every value and work of a small window is far inside the products' word. -/
theorem noOverflow_two : NoOverflow [⟨"b", 3, 0, 1, 0⟩, ⟨"c", 1, 1, 1, 0⟩] 4 (2 ^ 64 - 1) cappedParams
    oneOwed plainScript :=
  (noOverflow_iff (by decide)).mpr (by decide)

/-- The largest value a request can carry, against one miner with the work of a large window. -/
theorem greatest_value_overflows : SplitInput [⟨"b", 2 ^ 54, 0, 1, 0⟩] (2 ^ 54) (2 ^ 64 - 1) cappedParams ∧
    ¬ NoOverflow [⟨"b", 2 ^ 54, 0, 1, 0⟩] (2 ^ 54) (2 ^ 64 - 1) cappedParams .empty plainScript := by
  refine ⟨by decide, ?_⟩
  rintro ⟨⟨s, run⟩, _⟩
  simp only [computeWithCarry, Option.bind_eq_bind, Option.bind_eq_some_iff] at run
  obtain ⟨tally, ht, -⟩ := run
  rw [tallyMiners_eq] at ht
  exact absurd (tally_fits ht ⟨"b", 2 ^ 54, 0, 1, 0⟩ (by decide)).1 (by decide)

end WaviclesPrime.Tides
