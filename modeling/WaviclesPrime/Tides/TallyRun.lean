import WaviclesPrime.Tides.Tally

/-! Invariant of the loop over the window, and its run. -/
namespace WaviclesPrime.Tides
open Machine Apportion

/-- An unpaid entry: who, and how much. -/
abbrev Due := Identity × Nat × UnpaidReason

def Payee.amount (q : Payee) : Identity × Nat := (q.identity, q.sats)

def dueAmount (e : Due) : Identity × Nat := (e.1, e.2.1)

/-- Why an offer was not placed, as the tables stand now. -/
def Justified (p : SplitParams) (scriptFor : Identity → Option Bytes) (t : Tally) (e : Due) : Prop :=
  match e.2.2 with
  | .belowMinimum => e.2.1 < p.minPayout
  | .noScript => p.minPayout ≤ e.2.1 ∧ scriptFor e.1 = none
  | .overBudget => p.minPayout ≤ e.2.1 ∧ ∃ script, scriptFor e.1 = some script ∧
      (p.maxOutputs ≤ t.payees.length ∨ p.outputBudgetBytes < t.bytes + outputNeed script)
  | .belowCut => False

/-- The loop has decided every miner of `done`, once. -/
structure Decided (p : SplitParams) (value totalWork : Nat) (scriptFor : Identity → Option Bytes)
    (done : List MinerStat) (t : Tally) : Prop where
  feeNum : t.feeNum = (done.map (feeWeight p)).sum
  feeSats : t.feeSats ≤ (done.map (feePartOf p value totalWork)).sum
  paid : t.paid = (t.payees.map Payee.sats).sum
  bytes : t.bytes = (t.payees.map (fun q => outputNeed q.script)).sum
  count : t.payees.length ≤ p.maxOutputs
  size : t.bytes ≤ p.outputBudgetBytes
  offered : t.payees.Sublist (done.map (offer p value totalWork scriptFor))
  scripted : ∀ q ∈ t.payees, scriptFor q.identity = some q.script ∧ p.minPayout ≤ q.sats
  settled : (t.payees.map Payee.amount ++ t.unpaid.map dueAmount).Perm
    (done.map fun m => (m.identity, shareOf p value totalWork m))
  justified : ∀ e ∈ t.unpaid, Justified p scriptFor t e

theorem Justified.mono {p : SplitParams} {scriptFor : Identity → Option Bytes} {t t' : Tally}
    (hl : t.payees.length ≤ t'.payees.length) (hb : t.bytes ≤ t'.bytes) {e : Due}
    (h : Justified p scriptFor t e) : Justified p scriptFor t' e := by
  unfold Justified at *
  split at h
  · exact h
  · exact h
  · obtain ⟨hm, script, hs, hor⟩ := h
    exact ⟨hm, script, hs, hor.imp (by omega) (by omega)⟩
  · exact h

section
variable {miners : List MinerStat} {totalWork value : Nat} {p : SplitParams}
  {scriptFor : Identity → Option Bytes}

theorem decided_start : Decided p value totalWork scriptFor [] .start where
  feeNum := rfl
  feeSats := Nat.le_refl _
  paid := rfl
  bytes := rfl
  count := Nat.zero_le _
  size := Nat.zero_le _
  offered := .slnil
  scripted := by simp [Tally.start]
  settled := .nil
  justified := by simp [Tally.start]

private theorem Decided.charged {done : List MinerStat} {t : Tally}
    (h : Decided p value totalWork scriptFor done t) (m : MinerStat) :
    (t.charge p value totalWork m).feeSats ≤ ((done ++ [m]).map (feePartOf p value totalWork)).sum := by
  have hadd := satAdd_le sizeU64 t.feeSats (feePartOf p value totalWork m)
  have hbefore := h.feeSats
  simp only [Tally.charge, List.map_append, List.map_cons, List.map_nil, List.sum_append, List.sum_cons,
    List.sum_nil]
  omega

/-- A miner left without an output is recorded with its whole share. -/
private theorem Decided.leave {done : List MinerStat} {t : Tally} {m : MinerStat}
    (h : Decided p value totalWork scriptFor done t) (reason : UnpaidReason)
    (hj : Justified p scriptFor t (m.identity, shareOf p value totalWork m, reason)) :
    Decided p value totalWork scriptFor (done ++ [m])
      { t.charge p value totalWork m with
        unpaid := t.unpaid ++ [(m.identity, shareOf p value totalWork m, reason)] } where
  feeNum := by simp [Tally.charge, h.feeNum]
  feeSats := h.charged m
  paid := h.paid
  bytes := h.bytes
  count := h.count
  size := h.size
  offered := by
    rw [List.map_append]
    exact h.offered.trans (List.sublist_append_left ..)
  scripted := h.scripted
  settled := by
    simp only [Tally.charge, List.map_append, List.map_cons, List.map_nil, ← List.append_assoc]
    exact h.settled.append_right _
  justified := by
    intro e he
    rcases List.mem_append.mp he with he | he
    · exact (h.justified e he).mono (Nat.le_refl _) (Nat.le_refl _)
    · exact List.mem_singleton.mp he ▸ hj.mono (Nat.le_refl _) (Nat.le_refl _)

/-- A miner that gets an output gets its whole share. -/
private theorem Decided.place {done : List MinerStat} {t : Tally} {m : MinerStat} {script : Bytes}
    (h : Decided p value totalWork scriptFor done t) (hs : scriptFor m.identity = some script)
    (hmin : p.minPayout ≤ shareOf p value totalWork m) (hc : t.payees.length < p.maxOutputs)
    (hb : t.bytes + outputNeed script ≤ p.outputBudgetBytes) :
    Decided p value totalWork scriptFor (done ++ [m])
      { t.charge p value totalWork m with
        bytes := t.bytes + outputNeed script
        paid := t.paid + shareOf p value totalWork m
        payees := t.payees ++ [⟨m.identity, m.work, shareOf p value totalWork m, script⟩] } where
  feeNum := by simp [Tally.charge, h.feeNum]
  feeSats := h.charged m
  paid := by simp [h.paid]
  bytes := by simp [h.bytes]
  count := by simp; omega
  size := hb
  offered := by
    rw [List.map_append]
    refine h.offered.append ?_
    simp [offer, hs]
  scripted := by
    intro q hq
    rcases List.mem_append.mp hq with hq | hq
    · exact h.scripted q hq
    · exact List.mem_singleton.mp hq ▸ ⟨hs, hmin⟩
  settled := by
    simp only [Tally.charge, List.map_append, List.map_cons, List.map_nil, List.append_assoc]
    refine (List.perm_append_comm.append_left _).trans ?_
    rw [← List.append_assoc]
    exact h.settled.append_right _
  justified := by
    intro e he
    exact (h.justified e he).mono (by simp) (Nat.le_add_right _ _)

/-- One iteration decides one more miner. -/
theorem decided_step (h : SplitInput miners totalWork value p) {done : List MinerStat}
    {m : MinerStat} (hm : m ∈ miners) {t t' : Tally} (hd : Decided p value totalWork scriptFor done t)
    (run : addMiner p value totalWork scriptFor t m = some t') :
    Decided p value totalWork scriptFor (done ++ [m]) t' := by
  rcases addMiner_cases h hm run with ⟨hlow, rfl⟩ | ⟨hmin, hs, rfl⟩ | ⟨script, hmin, hs, hover, rfl⟩ |
    ⟨script, hmin, hs, hc, hb, -, rfl⟩
  · exact hd.leave .belowMinimum hlow
  · exact hd.leave .noScript ⟨hmin, hs⟩
  · exact hd.leave .overBudget ⟨hmin, script, hs, hover⟩
  · exact hd.place hs hmin hc hb

private theorem mem_of_snocPrefix {before : List MinerStat} {m : MinerStat}
    (hp : before ++ [m] <+: miners) : m ∈ miners := hp.subset (by simp)

/-- The whole loop decides every miner of the window. -/
theorem decided_run (h : SplitInput miners totalWork value p) {t : Tally}
    (run : miners.foldlM (addMiner p value totalWork scriptFor) .start = some t) :
    Decided p value totalWork scriptFor miners t :=
  Loop.run_invariant (P := Decided p value totalWork scriptFor)
    (fun _ _ _ _ hp hd hs => decided_step h (mem_of_snocPrefix hp) hd hs) decided_start run

/-- Payees and unpaid entries split the offers between them. -/
theorem Decided.sum_eq {done : List MinerStat} {t : Tally}
    (h : Decided p value totalWork scriptFor done t) :
    (t.payees.map Payee.sats).sum + (t.unpaid.map (fun e => e.2.1)).sum =
      (done.map (shareOf p value totalWork)).sum := by
  have hs := (h.settled.map Prod.snd).sum_eq
  simpa [List.map_map, Function.comp_def, Payee.amount, dueAmount] using hs

theorem Decided.paid_le (h : SplitInput miners totalWork value p) {done : List MinerStat}
    (hp : done <+: miners) {t : Tally} (hd : Decided p value totalWork scriptFor done t) :
    t.paid ≤ (done.map (shareOf p value totalWork)).sum ∧
      (done.map (shareOf p value totalWork)).sum ≤ value := by
  have hsum := hd.sum_eq
  have hpaid := hd.paid
  have hle : (done.map (shareOf p value totalWork)).sum ≤ (miners.map (shareOf p value totalWork)).sum :=
    (hp.sublist.map _).sum_le_sum (by simp)
  have := h.sum_offers_le
  omega

/-- No intermediate product of a split over these inputs leaves u128. -/
def ProductsFit (miners : List MinerStat) (value : Nat) (p : SplitParams) : Prop :=
  (∀ m ∈ miners, value * keepWeight p m < sizeU128 ∧ value * feeWeight p m < sizeU128) ∧
    value * (miners.map (feeWeight p)).sum < sizeU128

instance (miners : List MinerStat) (value : Nat) (p : SplitParams) :
    Decidable (ProductsFit miners value p) :=
  inferInstanceAs (Decidable ((∀ m ∈ miners, _ ∧ _) ∧ _))

/-- With products that fit, nothing stops the loop. -/
theorem tally_total (scriptFor : Identity → Option Bytes) (h : SplitInput miners totalWork value p)
    (hfit : ∀ m ∈ miners, value * keepWeight p m < sizeU128 ∧ value * feeWeight p m < sizeU128) :
    ∃ t, miners.foldlM (addMiner p value totalWork scriptFor) .start = some t ∧
      Decided p value totalWork scriptFor miners t := by
  refine Loop.run_total (P := Decided p value totalWork scriptFor) ?_ decided_start
  intro before m t hp hd
  have hm := mem_of_snocPrefix hp
  have hnum : t.feeNum + feeWeight p m < sizeU128 := by
    have hle : ((before ++ [m]).map (feeWeight p)).sum ≤ (miners.map (feeWeight p)).sum :=
      (hp.sublist.map _).sum_le_sum (by simp)
    have hall := h.sum_weights
    have hw := h.workFits
    rw [List.map_append, List.sum_append, ← hd.feeNum] at hle
    simp only [List.map_cons, List.map_nil, List.sum_cons, List.sum_nil, sizeU64, sizeU128] at hle hw ⊢
    omega
  have hpaid : t.paid + shareOf p value totalWork m < sizeU64 := by
    have hd' := hd.paid_le h ((List.prefix_append before [m]).trans hp)
    have hle : ((before ++ [m]).map (shareOf p value totalWork)).sum
        ≤ (miners.map (shareOf p value totalWork)).sum := (hp.sublist.map _).sum_le_sum (by simp)
    have := h.sum_offers_le
    have := h.valueFits
    simp only [List.map_append, List.sum_append, List.map_cons, List.map_nil, List.sum_cons,
      List.sum_nil] at hle
    omega
  obtain ⟨t', run⟩ := addMiner_total scriptFor h hm (hfit m hm).1 (hfit m hm).2 hnum hpaid
  exact ⟨t', run, decided_step h hm hd run⟩

end
end WaviclesPrime.Tides
