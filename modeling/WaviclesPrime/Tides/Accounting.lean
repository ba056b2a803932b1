import WaviclesPrime.Tides.CarryRun

/-! What a split is made of, and the account it keeps of the value. -/
namespace WaviclesPrime.Tides
open Machine Apportion

/-- The miners the loop goes through: nobody when the window holds no work. -/
def counted (miners : List MinerStat) (totalWork : Nat) : List MinerStat :=
  if 0 < totalWork then miners else []

/-- The tally after the cap, where one applies. -/
def limited (p : SplitParams) (value totalWork : Nat) (t : Tally) : Tally :=
  if CapApplies p t then cappedTally p value totalWork t else t

def openPurse (value : Nat) (t : Tally) : Purse := ⟨value - t.paid, t.paid, t.bytes, t.payees, []⟩

/-- A split, as what its three phases leave. -/
def settledSplit (value totalWork : Nat) (t : Tally) (u : Purse) : Split :=
  ⟨value, t.feeSats, totalWork, u.payees, t.unpaid, u.carryPaid, value - u.paid⟩

/-- The three phases of a split, each by its own account. -/
structure Phases (miners : List MinerStat) (totalWork value : Nat) (p : SplitParams)
    (carry : OrdMap Identity Nat) (scriptFor : Identity → Option Bytes) (s : Split) where
  tally : Tally
  purse : Purse
  ran : tallyMiners miners totalWork value p scriptFor = some tally
  decided : Decided p value totalWork scriptFor (counted miners totalWork) tally
  carried : payCarry p scriptFor carry.entries (openPurse value (limited p value totalWork tally))
    = some purse
  funded : Funded p scriptFor (openPurse value (limited p value totalWork tally)) carry.entries purse
  split : s = settledSplit value totalWork (limited p value totalWork tally) purse

/-- A miner the loop over the window would place if nobody came before. -/
def Placeable (p : SplitParams) (value totalWork : Nat) (scriptFor : Identity → Option Bytes)
    (m : MinerStat) : Prop :=
  p.minPayout ≤ shareOf p value totalWork m ∧ 0 < p.maxOutputs ∧
    ∃ script ∈ scriptFor m.identity, outputNeed script ≤ p.outputBudgetBytes

instance (p : SplitParams) (value totalWork : Nat) (scriptFor : Identity → Option Bytes)
    (m : MinerStat) : Decidable (Placeable p value totalWork scriptFor m) :=
  inferInstanceAs (Decidable (_ ∧ _ ∧ _))

/-- Every product of a split stays inside u128. The fee of the whole window is multiplied out
only for a cap, and only when somebody is paid. -/
def SplitFits (miners : List MinerStat) (totalWork value : Nat) (p : SplitParams)
    (scriptFor : Identity → Option Bytes) : Prop :=
  (∀ m ∈ miners, value * keepWeight p m < sizeU128 ∧ value * feeWeight p m < sizeU128) ∧
    (0 < p.maxPayees → (∃ m ∈ miners, Placeable p value totalWork scriptFor m) →
      value * (miners.map (feeWeight p)).sum < sizeU128)

instance (miners : List MinerStat) (totalWork value : Nat) (p : SplitParams)
    (scriptFor : Identity → Option Bytes) :
    Decidable (SplitFits miners totalWork value p scriptFor) :=
  inferInstanceAs (Decidable ((∀ m ∈ miners, _ ∧ _) ∧ (_ → (∃ m ∈ miners, _) → _)))

section
variable {miners : List MinerStat} {totalWork value : Nat} {p : SplitParams}
  {scriptFor : Identity → Option Bytes} {carry : OrdMap Identity Nat} {s : Split}

theorem SplitInput.counted (h : SplitInput miners totalWork value p) :
    SplitInput (counted miners totalWork) totalWork value p where
  __ := h
  total := by
    unfold Tides.counted
    split
    · exact h.total
    · simp only [List.map_nil, List.sum_nil]; omega

theorem counted_sublist : (counted miners totalWork).Sublist miners := by
  unfold counted
  split
  · exact List.Sublist.refl _
  · exact List.nil_sublist _

theorem tallyMiners_eq : tallyMiners miners totalWork value p scriptFor =
    (counted miners totalWork).foldlM (addMiner p value totalWork scriptFor) .start := by
  unfold tallyMiners counted
  split <;> rfl

/-- Distinct miners get distinct outputs. -/
theorem Decided.nodup {done : List MinerStat} {t : Tally}
    (h : Decided p value totalWork scriptFor done t)
    (hid : (done.map MinerStat.identity).Nodup) : (identities t.payees).Nodup := by
  refine (h.offered.map Payee.identity).nodup ?_
  simpa [List.map_map, Function.comp_def, offer] using hid

theorem keptOf_perm_sublist (p : SplitParams) (payees : List Payee) :
    (keptOf p payees).Subperm payees :=
  (List.take_sublist _ _).subperm.trans (List.perm_insertionSort byWork payees).subperm

theorem identities_cappedPayees (d : Nat) (kept : List Payee) :
    identities (cappedPayees d kept) = identities kept :=
  cappedPayees_map Payee.identity (fun _ _ => rfl) (fun _ _ _ => rfl) d kept

theorem limited_nodup (p : SplitParams) (value totalWork : Nat) {t : Tally} (h : (identities t.payees).Nodup) :
    (identities (limited p value totalWork t).payees).Nodup := by
  unfold limited
  split
  · change (identities (cappedPayees _ _)).Nodup
    rw [identities_cappedPayees]
    obtain ⟨ys, hp, hs⟩ := keptOf_perm_sublist p t.payees
    exact (hp.symm.map _).nodup_iff.mpr ((hs.map _).nodup h)
  · exact h

theorem limited_count (p : SplitParams) (value totalWork : Nat) (t : Tally) :
    (limited p value totalWork t).payees.length ≤ t.payees.length := by
  unfold limited
  split
  · have hlen := congrArg List.length (identities_cappedPayees
      (value - cappedFee value totalWork t.feeNum) (keptOf p t.payees))
    simp only [identities, List.length_map] at hlen
    exact hlen.trans_le (keptOf_perm_sublist p t.payees).length_le
  · exact Nat.le_refl _

/-- The cap changes neither who a payee is nor where it is paid. -/
theorem limited_scripted {done : List MinerStat} {t : Tally}
    (h : Decided p value totalWork scriptFor done t) :
    ∀ q ∈ (limited p value totalWork t).payees, scriptFor q.identity = some q.script := by
  intro q hq
  unfold limited at hq
  split at hq
  next =>
    have hmem : (q.identity, q.script) ∈ (keptOf p t.payees).map fun x => (x.identity, x.script) :=
      cappedPayees_map (fun x => (x.identity, x.script)) (fun _ _ => rfl) (fun _ _ _ => rfl) _ _ ▸
        List.mem_map_of_mem (f := fun x => (x.identity, x.script)) hq
    obtain ⟨x, hx, heq⟩ := List.mem_map.mp hmem
    obtain ⟨hi, hs⟩ := Prod.mk.inj heq
    rw [← hi, ← hs]
    exact (h.scripted x ((keptOf_perm_sublist p t.payees).subset hx)).1
  next => exact (h.scripted q hq).1

/-- After the cap the payees still hold what is paid, and no more than the value. -/
theorem limited_paid (h : SplitInput miners totalWork value p) {t : Tally}
    (hd : Decided p value totalWork scriptFor miners t) :
    (limited p value totalWork t).paid = ((limited p value totalWork t).payees.map Payee.sats).sum ∧
      (limited p value totalWork t).paid ≤ value := by
  unfold limited
  split
  next hc => exact ⟨(sum_cappedPayees (keptOf_ne_nil hc)).symm, Nat.sub_le _ _⟩
  next => exact ⟨hd.paid, (hd.paid_le h (List.prefix_refl _)).1.trans
      (hd.paid_le h (List.prefix_refl _)).2⟩

/-- What a returned split is made of: a tally, its cap, and a purse the carry went through. -/
theorem computeWithCarry_cases (h : SplitInput miners totalWork value p)
    (run : computeWithCarry miners totalWork value p carry scriptFor = some s) :
    ∃ tally u, tallyMiners miners totalWork value p scriptFor = some tally ∧
      Decided p value totalWork scriptFor (counted miners totalWork) tally ∧
      payCarry p scriptFor carry.entries (openPurse value (limited p value totalWork tally)) = some u ∧
      s = settledSplit value totalWork (limited p value totalWork tally) u := by
  simp only [computeWithCarry, Option.bind_eq_bind, Option.bind_eq_some_iff] at run
  obtain ⟨tally, ht, t, hcap, u, hu, hs⟩ := run
  have hd := decided_run h.counted (tallyMiners_eq ▸ ht)
  obtain rfl : t = limited p value totalWork tally := capPayees_eq h.counted hd hcap
  exact ⟨tally, u, ht, hd, hu, (Option.some.inj hs).symm⟩

/-- A split that is returned went through its phases. -/
theorem computeWithCarry_phases (h : SplitInput miners totalWork value p)
    (hid : (miners.map MinerStat.identity).Nodup)
    (run : computeWithCarry miners totalWork value p carry scriptFor = some s) :
    Nonempty (Phases miners totalWork value p carry scriptFor s) := by
  obtain ⟨tally, u, ht, hd, hu, hs⟩ := computeWithCarry_cases h run
  have hn := limited_nodup p value totalWork
    (hd.nodup ((counted_sublist.map _).nodup hid))
  have hf := payCarry_funded hn carry.entries [] carry.keys_nodup
    (funded_start (openPurse value (limited p value totalWork tally)) rfl) hu
  exact ⟨⟨tally, u, ht, hd, hu, hf, hs⟩⟩

/-- With products that fit where they are taken, a split is returned. -/
theorem computeWithCarry_returns (h : SplitInput miners totalWork value p)
    (hprod : ∀ m ∈ counted miners totalWork,
      value * keepWeight p m < sizeU128 ∧ value * feeWeight p m < sizeU128)
    (hcap : ∀ t, tallyMiners miners totalWork value p scriptFor = some t → CapApplies p t →
      value * ((counted miners totalWork).map (feeWeight p)).sum < sizeU128) :
    ∃ s, computeWithCarry miners totalWork value p carry scriptFor = some s := by
  obtain ⟨tally, ht, hd⟩ := tally_total scriptFor h.counted hprod
  obtain ⟨t, hct⟩ := capPayees_total h.counted hd (hcap tally (tallyMiners_eq.trans ht))
  obtain rfl : t = limited p value totalWork tally := capPayees_eq h.counted hd hct
  obtain ⟨hpaid, hle⟩ := limited_paid h.counted hd
  have hv := h.valueFits
  obtain ⟨u, hu⟩ := payCarry_total p scriptFor carry.entries
    (u := openPurse value (limited p value totalWork tally)) hpaid.symm
    (by simp only [openPurse]; omega)
  refine ⟨settledSplit value totalWork (limited p value totalWork tally) u, ?_⟩
  simp only [computeWithCarry, tallyMiners_eq, Option.bind_eq_bind, Option.bind_eq_some_iff]
  exact ⟨tally, ht, _, hct, u, hu, rfl⟩

/-- The first placement needs room for one output only. -/
theorem payees_nil_step (h : SplitInput miners totalWork value p) {done : List MinerStat}
    {m : MinerStat} (hm : m ∈ miners) {t t' : Tally} (hd : Decided p value totalWork scriptFor done t)
    (run : addMiner p value totalWork scriptFor t m = some t') :
    t'.payees = [] ↔ t.payees = [] ∧ ¬ Placeable p value totalWork scriptFor m := by
  rcases addMiner_cases h hm run with ⟨hlow, rfl⟩ | ⟨hmin, hs, rfl⟩ |
    ⟨script, hmin, hs, hover, rfl⟩ | ⟨script, hmin, hs, hc, hb, -, rfl⟩
  · have hnot : ¬ Placeable p value totalWork scriptFor m := fun hp => by
      have := hp.1
      omega
    simp [Tally.charge, hnot]
  · have hnot : ¬ Placeable p value totalWork scriptFor m := by
      rintro ⟨_, _, script, hx, _⟩
      simp [hs] at hx
    simp [Tally.charge, hnot]
  · have hnot : t.payees = [] → ¬ Placeable p value totalWork scriptFor m := by
      rintro hnil ⟨_, hpos, other, hx, hfit⟩
      obtain rfl : script = other := Option.some.inj (hs.symm.trans hx)
      have hbytes := hd.bytes
      rw [hnil] at hover hbytes
      simp only [List.length_nil, List.map_nil, List.sum_nil] at hover hbytes
      omega
    simpa [Tally.charge] using hnot
  · have hplace : Placeable p value totalWork scriptFor m :=
      ⟨hmin, by omega, script, hs, by omega⟩
    simp [hplace]

/-- The loop places nobody exactly when it could not place anyone alone. -/
theorem payees_nil_iff (h : SplitInput miners totalWork value p) {t : Tally}
    (run : miners.foldlM (addMiner p value totalWork scriptFor) .start = some t) :
    t.payees = [] ↔ ∀ m ∈ miners, ¬ Placeable p value totalWork scriptFor m := by
  refine (Loop.run_invariant (P := fun done t => Decided p value totalWork scriptFor done t ∧
    (t.payees = [] ↔ ∀ m ∈ done, ¬ Placeable p value totalWork scriptFor m)) ?_
    ⟨decided_start, by simp [Tally.start]⟩ run).2
  rintro done m t t' hpre ⟨hd, ih⟩ hstep
  have hm : m ∈ miners := hpre.subset (by simp)
  refine ⟨decided_step h hm hd hstep, ?_⟩
  rw [payees_nil_step h hm hd hstep, ih, List.forall_mem_append, List.forall_mem_singleton]

theorem capApplies_iff (h : SplitInput miners totalWork value p) {t : Tally}
    (run : miners.foldlM (addMiner p value totalWork scriptFor) .start = some t) :
    CapApplies p t ↔ 0 < p.maxPayees ∧ ∃ m ∈ miners, Placeable p value totalWork scriptFor m := by
  refine and_congr_right fun _ => ?_
  rw [ne_eq, payees_nil_iff h run]
  simp only [not_forall, not_not, exists_prop]

/-- A window without work has nothing to multiply. -/
theorem SplitInput.weights_zero (h : SplitInput miners 0 value p) {m : MinerStat} (hm : m ∈ miners) :
    keepWeight p m = 0 ∧ feeWeight p m = 0 := by
  have hall := keep_add_fee h.bounded m
  have hle := h.work_le hm
  omega

theorem splitFits_counted (h : SplitInput miners totalWork value p) :
    SplitFits (counted miners totalWork) totalWork value p scriptFor ↔
      SplitFits miners totalWork value p scriptFor := by
  rcases Nat.eq_zero_or_pos totalWork with rfl | hpos
  · have hsum : (miners.map (feeWeight p)).sum = 0 := by
      have := h.sum_weights
      omega
    have hleft : SplitFits (counted miners 0) 0 value p scriptFor := by
      simp [SplitFits, counted]
    refine iff_of_true hleft ⟨fun m hm => ?_, fun _ _ => ?_⟩
    · obtain ⟨hkeep, hfee⟩ := h.weights_zero hm
      simp [hkeep, hfee]
    · simp [hsum]
  · rw [counted, if_pos hpos]

/-- A split whose products fit is returned. -/
theorem computeWithCarry_fits (h : SplitInput miners totalWork value p)
    (hfit : SplitFits miners totalWork value p scriptFor) :
    ∃ s, computeWithCarry miners totalWork value p carry scriptFor = some s := by
  obtain ⟨hprod, hfee⟩ := (splitFits_counted h).mpr hfit
  refine computeWithCarry_returns h hprod fun t ht hc => ?_
  obtain ⟨hpos, hex⟩ := (capApplies_iff h.counted (tallyMiners_eq ▸ ht)).mp hc
  exact hfee hpos hex

theorem computeWithCarry_total (h : SplitInput miners totalWork value p)
    (hfit : ProductsFit miners value p) :
    ∃ s, computeWithCarry miners totalWork value p carry scriptFor = some s :=
  computeWithCarry_fits h ⟨hfit.1, fun _ _ => hfit.2⟩

theorem amountOf_payees {payees : List Payee} (hn : (identities payees).Nodup) {q : Payee}
    (hq : q ∈ payees) : amountOf q.identity (payees.map Payee.amount) = q.sats :=
  amountOf_of_mem (e := q.amount) (by simpa [identities, Function.comp_def, Payee.amount] using hn)
    (List.mem_map_of_mem hq)

theorem amountOf_payees_none {payees : List Payee} {i : Identity} (hi : i ∉ identities payees) :
    amountOf i (payees.map Payee.amount) = 0 :=
  amountOf_of_notMem (by simpa [identities, Function.comp_def, Payee.amount] using hi)

namespace Phases

theorem payees_eq (f : Phases miners totalWork value p carry scriptFor s) :
    s.payees = f.purse.payees := congrArg Split.payees f.split

theorem carryPaid_eq (f : Phases miners totalWork value p carry scriptFor s) :
    s.carryPaid = f.purse.carryPaid := congrArg Split.carryPaid f.split

theorem unpaid_eq (f : Phases miners totalWork value p carry scriptFor s) :
    s.unpaid = (limited p value totalWork f.tally).unpaid := congrArg Split.unpaid f.split

theorem feeSats_eq (f : Phases miners totalWork value p carry scriptFor s) :
    s.feeSats = (limited p value totalWork f.tally).feeSats := congrArg Split.feeSats f.split

theorem poolSats_eq (f : Phases miners totalWork value p carry scriptFor s) :
    s.poolSats = value - f.purse.paid := congrArg Split.poolSats f.split

/-- Outputs and the pool's remainder make up the value. -/
theorem paid_add_pool (h : SplitInput miners totalWork value p)
    (f : Phases miners totalWork value p carry scriptFor s) : s.paidSats + s.poolSats = value := by
  obtain ⟨hpaid, hle⟩ := limited_paid h.counted f.decided
  have hsats := f.funded.sats
  have hu := f.funded.paid
  have hroom := f.funded.room
  rw [Split.paidSats, f.payees_eq, f.poolSats_eq]
  simp only [openPurse] at *
  omega

/-- The pool's remainder before carry. -/
theorem pool_add_carry (h : SplitInput miners totalWork value p)
    (f : Phases miners totalWork value p carry scriptFor s) :
    s.poolSats + given s.carryPaid + (limited p value totalWork f.tally).paid = value := by
  obtain ⟨-, hle⟩ := limited_paid h.counted f.decided
  have hu := f.funded.paid
  have hroom := f.funded.room
  rw [f.poolSats_eq, f.carryPaid_eq]
  simp only [openPurse] at *
  omega

theorem carryPaid_nodup (f : Phases miners totalWork value p carry scriptFor s) :
    (s.carryPaid.map Prod.fst).Nodup := by
  rw [f.carryPaid_eq]
  exact f.funded.keys.nodup carry.keys_nodup

theorem payees_nodup (hid : (miners.map MinerStat.identity).Nodup)
    (f : Phases miners totalWork value p carry scriptFor s) : (identities s.payees).Nodup := by
  rw [f.payees_eq]
  exact f.funded.nodup (limited_nodup p value totalWork (f.decided.nodup ((counted_sublist.map _).nodup hid)))
    carry.keys_nodup

theorem carryPaid_le_owed (f : Phases miners totalWork value p carry scriptFor s)
    {e : Identity × Nat} (he : e ∈ s.carryPaid) : ∃ owed, carry.get e.1 = some owed ∧ e.2 ≤ owed := by
  rw [f.carryPaid_eq] at he
  obtain ⟨-, owed, hm, hle⟩ := f.funded.owed e he
  exact ⟨owed, carry.get_of_mem hm, hle⟩

/-- Every payee is paid to the script its identity has. -/
theorem scripted (f : Phases miners totalWork value p carry scriptFor s) :
    ∀ q ∈ s.payees, scriptFor q.identity = some q.script := by
  intro q hq
  rw [f.payees_eq, f.funded.payees] at hq
  rcases List.mem_append.mp hq with hq | hq
  · obtain ⟨x, hx, rfl⟩ := List.mem_map.mp hq
    exact limited_scripted f.decided x hx
  · obtain ⟨e, he, rfl⟩ := List.mem_map.mp hq
    obtain ⟨script, hs⟩ := Option.isSome_iff_exists.mp (f.funded.scripted e he).2
    simp [newOutput, hs]

theorem count_le (f : Phases miners totalWork value p carry scriptFor s) :
    s.payees.length ≤ p.maxOutputs := by
  have hstart := (limited_count p value totalWork f.tally).trans f.decided.count
  have hend := f.funded.count
  rw [f.payees_eq]
  simp only [openPurse] at hend
  omega

/-- Carry paid to an identity is inside its output. -/
theorem carryPaid_in_payee (f : Phases miners totalWork value p carry scriptFor s)
    {e : Identity × Nat} (he : e ∈ s.carryPaid) : ∃ q ∈ s.payees, q.identity = e.1 ∧ e.2 ≤ q.sats := by
  have hamount := amountOf_of_mem f.carryPaid_nodup he
  rw [f.carryPaid_eq] at he hamount
  rw [f.payees_eq, f.funded.payees]
  by_cases hi : e.1 ∈ identities (openPurse value (limited p value totalWork f.tally)).payees
  · obtain ⟨q, hq, hqi⟩ := List.mem_map.mp hi
    refine ⟨topUp f.purse.carryPaid q, by simp [List.mem_append_left _ (List.mem_map_of_mem hq)],
      hqi, ?_⟩
    simp only [topUp, hqi, hamount]
    omega
  · have hnew : e ∈ newcomers (openPurse value (limited p value totalWork f.tally)).payees
        f.purse.carryPaid := List.mem_filter.mpr ⟨he, by simpa using hi⟩
    exact ⟨newOutput scriptFor e, List.mem_append_right _ (List.mem_map_of_mem hnew), rfl,
      Nat.le_refl _⟩

/-- Only who has no script is left unpaid for want of one. -/
theorem noScript (f : Phases miners totalWork value p carry scriptFor s) :
    ∀ e ∈ s.unpaid, e.2.2 = .noScript → scriptFor e.1 = none := by
  intro e he hr
  have hj : ∀ e ∈ f.tally.unpaid, e.2.2 = .noScript → scriptFor e.1 = none := by
    intro e he hr
    have := f.decided.justified e he
    rw [Justified, hr] at this
    exact this.2
  rw [f.unpaid_eq] at he
  unfold limited at he
  split at he
  next =>
    rcases List.mem_append.mp he with he | he
    · exact hj e he hr
    · obtain ⟨q, -, rfl⟩ := List.mem_map.mp he
      simp at hr
  next => exact hj e he hr

/-- What an identity is paid holds the carry it is paid. -/
theorem carryPaid_le_paid (hid : (miners.map MinerStat.identity).Nodup)
    (f : Phases miners totalWork value p carry scriptFor s) (i : Identity) :
    amountOf i s.carryPaid ≤ amountOf i (s.payees.map Payee.amount) := by
  by_cases hi : i ∈ s.carryPaid.map Prod.fst
  · obtain ⟨e, he, rfl⟩ := List.mem_map.mp hi
    obtain ⟨q, hq, hqe, hle⟩ := f.carryPaid_in_payee he
    rw [amountOf_of_mem f.carryPaid_nodup he, ← hqe]
    exact hle.trans_eq (amountOf_payees (f.payees_nodup hid) hq).symm
  · rw [amountOf_of_notMem hi]
    exact Nat.zero_le _

/-- Without a cap the pool keeps its fee and everything nobody was paid. -/
theorem uncapped (h : SplitInput miners totalWork value p)
    (f : Phases miners totalWork value p carry scriptFor s) (hc : p.maxPayees = 0) :
    s.feeSats + (s.unpaid.map (fun e => e.2.1)).sum ≤ s.poolSats + given s.carryPaid := by
  have hl : limited p value totalWork f.tally = f.tally := if_neg (by simp [CapApplies, hc])
  have hpool := f.pool_add_carry h
  have hoffers := h.counted.sum_offers_le
  have hsum := f.decided.sum_eq
  have hfee := f.decided.feeSats
  have hpaid := f.decided.paid
  rw [f.feeSats_eq, f.unpaid_eq]
  rw [hl] at *
  omega

/-- Nobody owed, no carry paid. -/
theorem carryPaid_empty (f : Phases miners totalWork value p .empty scriptFor s) :
    s.carryPaid = [] := by
  rw [f.carryPaid_eq, ← Option.some.inj f.carried]
  rfl

/-- With a cap the pool keeps its fee exactly. -/
theorem capped (h : SplitInput miners totalWork value p)
    (f : Phases miners totalWork value p carry scriptFor s) (hc : CapApplies p f.tally) :
    s.poolSats + given s.carryPaid = s.feeSats := by
  have hl : limited p value totalWork f.tally = cappedTally p value totalWork f.tally := if_pos hc
  have hpool := f.pool_add_carry h
  have hfee := cappedFee_le h.counted
  rw [← f.decided.feeNum] at hfee
  rw [f.feeSats_eq]
  rw [hl] at *
  simp only [cappedTally] at *
  omega

/-- Without carry the payees are those the window pays. -/
theorem payees_ne_nil (f : Phases miners totalWork value p carry scriptFor s) {s₀ : Split}
    (h : SplitInput miners totalWork value p)
    (run : compute miners totalWork value p scriptFor = some s₀) (hne : s₀.payees ≠ []) :
    f.tally.payees ≠ [] := by
  intro hnil
  simp only [compute, computeWithCarry, f.ran, Option.bind_eq_bind, Option.bind_some,
    Option.bind_eq_some_iff] at run
  obtain ⟨t, hcap, u, hu, hs⟩ := run
  obtain rfl := capPayees_eq h.counted f.decided hcap
  rw [if_neg (by simp [CapApplies, hnil])] at hu
  obtain rfl := Option.some.inj (hu : some _ = some u)
  exact hne (Option.some.inj hs ▸ hnil)

end Phases

/-- A list with distinct keys holds one element for each of them. -/
theorem filter_identity_eq {payees : List Payee} (hn : (identities payees).Nodup) {q : Payee}
    (hq : q ∈ payees) : payees.filter (fun x => x.identity = q.identity) = [q] := by
  induction payees with
  | nil => simp at hq
  | cons x rest ih =>
    obtain ⟨hx, hrest⟩ := List.nodup_cons.mp hn
    rcases List.mem_cons.mp hq with rfl | hq
    · rw [List.filter_cons_of_pos (by simp)]
      congr 1
      refine List.filter_eq_nil_iff.mpr fun y hy => ?_
      simp only [decide_eq_true_eq]
      exact fun heq => hx (heq ▸ List.mem_map_of_mem hy)
    · have hne : x.identity ≠ q.identity := fun heq => hx (heq ▸ List.mem_map_of_mem hq)
      rw [List.filter_cons_of_neg (by simpa using hne)]
      exact ih hrest hq

/-- The account of a split. Under a cap the pool's part comes to the fee once the window itself
pays somebody: carry alone never makes the split remainder-free. -/
theorem split_accounts (h : SplitInput miners totalWork value p)
    (hid : (miners.map MinerStat.identity).Nodup) (hfit : SplitFits miners totalWork value p scriptFor) :
    ∃ s, computeWithCarry miners totalWork value p carry scriptFor = some s ∧
      s.paidSats + s.poolSats = value ∧
      (∀ e ∈ s.carryPaid, (∃ owed, carry.get e.1 = some owed ∧ e.2 ≤ owed) ∧
        ∃ q, s.payees.filter (fun x => x.identity = e.1) = [q] ∧ e.2 ≤ q.sats) ∧
      (p.maxPayees = 0 →
        s.feeSats + (s.unpaid.map (fun e => e.2.1)).sum ≤ s.poolSats + given s.carryPaid) ∧
      (0 < p.maxPayees →
        (∃ s₀, compute miners totalWork value p scriptFor = some s₀ ∧ s₀.payees ≠ []) →
        s.poolSats + given s.carryPaid = s.feeSats) := by
  obtain ⟨s, run⟩ : ∃ s, computeWithCarry miners totalWork value p carry scriptFor = some s :=
    computeWithCarry_fits h hfit
  obtain ⟨f⟩ := computeWithCarry_phases h hid run
  refine ⟨s, run, f.paid_add_pool h, fun e he => ⟨f.carryPaid_le_owed he, ?_⟩, f.uncapped h, ?_⟩
  · obtain ⟨q, hq, hqe, hle⟩ := f.carryPaid_in_payee he
    exact ⟨q, hqe ▸ filter_identity_eq (f.payees_nodup hid) hq, hle⟩
  · rintro hpos ⟨s₀, hs₀, hne⟩
    exact f.capped h ⟨hpos, f.payees_ne_nil h hs₀ hne⟩

end

/-- Parameters of a capped split without fees. -/
def cappedParams : SplitParams := ⟨0, 0, 1, 511, 14000, 2, .empty⟩

def oneOwed : OrdMap Identity Nat := .insert .empty "a" 600

def plainScript (i : Identity) : Option Bytes := some (i.toList.map fun c => c.toNat.toUInt8)

theorem split_accounts_two : ∃ s, computeWithCarry [⟨"b", 3, 0, 1, 0⟩, ⟨"c", 1, 1, 1, 0⟩] 4 1000
    cappedParams oneOwed plainScript = some s ∧ s.poolSats + given s.carryPaid = s.feeSats := by
  have hinput : SplitInput [⟨"b", 3, 0, 1, 0⟩, ⟨"c", 1, 1, 1, 0⟩] 4 1000 cappedParams := by decide
  obtain ⟨s, run, -, -, -, hcap⟩ := @split_accounts _ _ _ _ plainScript oneOwed hinput (by decide) (by decide)
  exact ⟨s, run, hcap (by decide) ⟨_, rfl, by decide⟩⟩

/-- An empty window pays carry only, and the cap leaves the remainder with the pool. -/
theorem carry_only_keeps_remainder : ∃ s, SplitInput [] 0 1000 cappedParams ∧
    SplitFits [] 0 1000 cappedParams plainScript ∧ 0 < cappedParams.maxPayees ∧
    computeWithCarry [] 0 1000 cappedParams oneOwed plainScript = some s ∧ s.payees ≠ [] ∧
    s.poolSats + given s.carryPaid ≠ s.feeSats :=
  ⟨_, by decide, by decide, by decide, rfl, by decide, by decide⟩

end WaviclesPrime.Tides
