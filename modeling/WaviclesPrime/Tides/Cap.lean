import WaviclesPrime.Lib.Extremum
import WaviclesPrime.Tides.TallyRun

/-! The capped, remainder-free split in exact arithmetic. -/
namespace WaviclesPrime.Tides
open Machine Apportion Extremum

/-- The fee of a capped split, in one expression. -/
def cappedFee (value totalWork feeNum : Nat) : Nat := value * feeNum / max totalWork 1 / 10000

def keptOf (p : SplitParams) (payees : List Payee) : List Payee :=
  (payees.insertionSort byWork).take p.maxPayees

def cutOf (p : SplitParams) (payees : List Payee) : List Payee :=
  (payees.insertionSort byWork).drop p.maxPayees

def workOf (payees : List Payee) : Nat := (payees.map Payee.work).sum

def reshare (distributable keptWork : Nat) (q : Payee) : Payee :=
  { q with sats := distributable * q.work / max keptWork 1 }

def bump (dust : Nat) (q : Payee) : Payee := { q with sats := q.sats + dust }

/-- The amounts of a capped split before its rounding dust is placed. -/
def floorShares (distributable : Nat) (kept : List Payee) : List Payee :=
  kept.map (reshare distributable (workOf kept))

/-- Sats the floors leave over. -/
def dustOf (distributable : Nat) (kept : List Payee) : Nat :=
  distributable - ((floorShares distributable kept).map Payee.sats).sum

/-- Where `max_by_key` places the dust. -/
def topIndex : List Payee → Nat
  | [] => 0
  | q :: rest => lastMaxIndex (0, q.sats) 1 rest

/-- `max_by_key` finds the last of the largest amounts. -/
theorem topIndex_spec {payees : List Payee} (h : payees ≠ []) :
    ∃ top, LastMax id (payees.map Payee.sats) (topIndex payees) top := by
  have run : ∀ (rest : List Payee) (seen : List Nat) (best : Nat × Nat),
      LastMax id seen best.1 best.2 →
      ∃ top, LastMax id (seen ++ rest.map Payee.sats) (lastMaxIndex best seen.length rest) top := by
    intro rest
    induction rest with
    | nil => exact fun seen best hb => ⟨best.2, by simpa [lastMaxIndex] using hb⟩
    | cons q rest ih =>
      intro seen best hb
      have hlen : (seen ++ [q.sats]).length = seen.length + 1 := by simp
      rw [lastMaxIndex, List.map_cons, ← hlen, ← List.singleton_append, ← List.append_assoc]
      refine ih _ _ ?_
      split
      next hle => exact hb.snoc_ge hle
      next hlt => exact hb.snoc_lt (Nat.lt_of_not_le hlt)
  cases payees with
  | nil => exact absurd rfl h
  | cons q rest => exact run rest [q.sats] (0, q.sats) (lastMax_single _)

theorem topIndex_lt {xs : List Payee} (h : xs ≠ []) : topIndex xs < xs.length := by
  obtain ⟨_, htop⟩ := topIndex_spec h
  simpa using lt_length_of_getElem? htop.here

theorem addDust_eq {dust : Nat} {xs ys : List Payee} (h : addDust dust xs = some ys) :
    ys = xs.modify (topIndex xs) (bump dust) := by
  cases xs with
  | nil => simpa [addDust, eq_comm] using h
  | cons q rest =>
    simp only [addDust, Option.bind_eq_bind, Option.bind_eq_some_iff, checkedAdd_eq_some] at h
    obtain ⟨top, htop, _, ⟨_, rfl⟩, h⟩ := h
    change (q :: rest)[topIndex (q :: rest)]? = some top at htop
    rw [List.modify_eq_set_getElem?, htop, ← Option.some.inj h]
    rfl

theorem addDust_total (dust : Nat) (xs : List Payee)
    (h : ∀ q ∈ xs, q.sats + dust < sizeU64) : ∃ ys, addDust dust xs = some ys := by
  cases xs with
  | nil => exact ⟨[], rfl⟩
  | cons q rest =>
    have hlt := topIndex_lt (show q :: rest ≠ [] by simp)
    have hfit : checkedAdd sizeU64 (q :: rest)[topIndex (q :: rest)].sats dust
        = some ((q :: rest)[topIndex (q :: rest)].sats + dust) := by
      simp [h _ (List.getElem_mem hlt)]
    exact ⟨_, by
      simp only [addDust, Option.bind_eq_bind, Option.bind_eq_some_iff]
      exact ⟨_, List.getElem?_eq_getElem hlt, _, hfit, rfl⟩⟩

/-- Changing one element changes the sum by that element's change. -/
theorem sum_modify_bump (dust i : Nat) (xs : List Payee) (h : i < xs.length) :
    ((xs.modify i (bump dust)).map Payee.sats).sum = (xs.map Payee.sats).sum + dust := by
  induction xs generalizing i with
  | nil => simp at h
  | cons q xs ih =>
    cases i with
    | zero => simp [bump]; omega
    | succ i =>
      have := ih i (by simpa using h)
      simp only [List.modify_succ_cons, List.map_cons, List.sum_cons]
      omega

/-- An image of a list with one element changed. -/
theorem map_modify {α β : Type} {f : α → β} {g : α → α} {h : β → β} (hf : ∀ x, f (g x) = h (f x))
    (i : Nat) (xs : List α) : (xs.modify i g).map f = (xs.map f).modify i h := by
  induction xs generalizing i with
  | nil => simp
  | cons x xs ih => cases i <;> simp [hf, ih]

/-- Dust changes amounts only. -/
theorem map_modify_bump {β : Type} (f : Payee → β) (hf : ∀ d q, f (bump d q) = f q)
    (dust i : Nat) (xs : List Payee) : (xs.modify i (bump dust)).map f = xs.map f := by
  rw [map_modify (h := id) (hf dust), List.modify_id]

private theorem mapM_shareAmong {d k : Nat} {xs ys : List Payee}
    (hfit : ∀ q ∈ xs, d * q.work / max k 1 < sizeU64)
    (h : xs.mapM (shareAmong d k) = some ys) : ys = xs.map (reshare d k) := by
  induction xs generalizing ys with
  | nil => simpa [eq_comm] using h
  | cons q xs ih =>
    simp only [List.mapM_cons, shareAmong, Option.bind_eq_bind, Option.bind_eq_some_iff,
      checkedMul_eq_some, Option.some.injEq, Option.pure_def] at h
    obtain ⟨_, ⟨_, ⟨_, rfl⟩, rfl⟩, tail, htail, rfl⟩ := h
    rw [List.map_cons, ← ih (fun q hq => hfit q (by simp [hq])) htail]
    simp [reshare, cast_of_lt (hfit q (by simp))]

private theorem mapM_shareAmong_total {d k : Nat} {xs : List Payee}
    (hprod : ∀ q ∈ xs, d * q.work < sizeU128) (hfit : ∀ q ∈ xs, d * q.work / max k 1 < sizeU64) :
    xs.mapM (shareAmong d k) = some (xs.map (reshare d k)) := by
  refine Loop.mapM_eq fun q hq => ?_
  simp only [shareAmong, Option.bind_eq_bind, Option.bind_eq_some_iff, checkedMul_eq_some]
  exact ⟨_, ⟨hprod q hq, rfl⟩, by simp [reshare, cast_of_lt (hfit q hq)]⟩

theorem work_le_workOf {q : Payee} {xs : List Payee} (h : q ∈ xs) : q.work ≤ workOf xs :=
  le_sum_of_mem h

/-- A re-distributed share is part of what is distributed. -/
theorem reshare_le {d : Nat} {q : Payee} {xs : List Payee} (h : q ∈ xs) :
    d * q.work / max (workOf xs) 1 ≤ d :=
  Nat.div_le_of_le_mul (by
    rw [Nat.mul_comm _ d]
    exact Nat.mul_le_mul_left d ((work_le_workOf h).trans (Nat.le_max_left _ _)))

theorem sum_floorShares_le (d : Nat) (kept : List Payee) :
    ((floorShares d kept).map Payee.sats).sum ≤ d := by
  rw [floorShares, List.map_map]
  exact sum_share_le kept Payee.work d _ (Nat.le_max_left _ _)

/-- The payees of a capped split. -/
def cappedPayees (distributable : Nat) (kept : List Payee) : List Payee :=
  (floorShares distributable kept).modify (topIndex (floorShares distributable kept))
    (bump (dustOf distributable kept))

/-- Nothing is left over: the kept payees share exactly what is distributed. -/
theorem sum_cappedPayees {d : Nat} {kept : List Payee} (h : kept ≠ []) :
    ((cappedPayees d kept).map Payee.sats).sum = d := by
  have hne : floorShares d kept ≠ [] := by simpa [floorShares] using h
  rw [cappedPayees, sum_modify_bump _ _ _ (topIndex_lt hne), dustOf]
  exact Nat.add_sub_cancel' (sum_floorShares_le d kept)

theorem cappedPayees_map {β : Type} (f : Payee → β) (hb : ∀ d q, f (bump d q) = f q)
    (hr : ∀ d k q, f (reshare d k q) = f q) (d : Nat) (kept : List Payee) :
    (cappedPayees d kept).map f = kept.map f := by
  rw [cappedPayees, map_modify_bump f hb, floorShares, List.map_map]
  exact List.map_congr_left fun q _ => hr _ _ q

/-- The tally after the cap. -/
def cappedTally (p : SplitParams) (value totalWork : Nat) (t : Tally) : Tally :=
  let fee := cappedFee value totalWork t.feeNum
  { t with
    feeSats := fee
    payees := cappedPayees (value - fee) (keptOf p t.payees)
    unpaid := t.unpaid ++ (cutOf p t.payees).map (fun q => (q.identity, q.sats, .belowCut))
    paid := value - fee }

/-- The cap applies when one is set and somebody is paid. -/
abbrev CapApplies (p : SplitParams) (t : Tally) : Prop := 0 < p.maxPayees ∧ t.payees ≠ []

/-- A cap that is set and does not apply has nobody to cut. -/
theorem payees_nil_of_uncapped {p : SplitParams} {t : Tally} (h : ¬ CapApplies p t)
    (hpos : 0 < p.maxPayees) : t.payees = [] := by
  by_contra hne
  exact h ⟨hpos, hne⟩

theorem keptOf_ne_nil {p : SplitParams} {t : Tally} (h : CapApplies p t) : keptOf p t.payees ≠ [] := by
  have hl : (t.payees.insertionSort byWork).length = t.payees.length := List.length_insertionSort ..
  have hpos := List.length_pos_of_ne_nil h.2
  intro hnil
  have := congrArg List.length hnil
  simp only [keptOf, List.length_take, List.length_nil, hl] at this
  have := h.1
  omega

section
variable {miners : List MinerStat} {totalWork value : Nat} {p : SplitParams}
  {scriptFor : Identity → Option Bytes}

theorem cappedFee_le (h : SplitInput miners totalWork value p) :
    cappedFee value totalWork (miners.map (feeWeight p)).sum ≤ value := by
  have hw := h.sum_weights
  refine portion_le_value (show _ ≤ 10000 * max totalWork 1 from ?_)
  have := Nat.le_max_left totalWork 1
  omega

/-- The fee of the whole window survives its cast. -/
theorem cast_cappedFee (h : SplitInput miners totalWork value p) {t : Tally}
    (hd : Decided p value totalWork scriptFor miners t) :
    cast sizeU64 (value * t.feeNum / max totalWork 1 / 10000) = cappedFee value totalWork t.feeNum := by
  have hle := cappedFee_le h
  rw [← hd.feeNum] at hle
  exact cast_of_lt (hle.trans_lt h.valueFits)

/-- The kept work is part of the window's. -/
theorem workOf_keptOf_le (h : SplitInput miners totalWork value p) {t : Tally}
    (hd : Decided p value totalWork scriptFor miners t) : workOf (keptOf p t.payees) ≤ totalWork := by
  calc workOf (keptOf p t.payees) ≤ workOf (t.payees.insertionSort byWork) :=
        ((List.take_sublist _ _).map _).sum_le_sum (by simp)
    _ = workOf t.payees := ((List.perm_insertionSort byWork t.payees).map _).sum_eq
    _ ≤ (miners.map MinerStat.work).sum := by
        have hsum := (hd.offered.map Payee.work).sum_le_sum (by simp)
        simpa [workOf, List.map_map, Function.comp_def, offer] using hsum
    _ = totalWork := h.total

/-- What is distributed, times the work of a kept payee, is a product of two words. -/
theorem distributed_fits (h : SplitInput miners totalWork value p) {t : Tally}
    (hd : Decided p value totalWork scriptFor miners t) {q : Payee} (hq : q ∈ keptOf p t.payees) (fee : Nat) :
    (value - fee) * q.work < sizeU128 := by
  have hwork := (work_le_workOf hq).trans (workOf_keptOf_le h hd)
  calc (value - fee) * q.work ≤ value * totalWork := Nat.mul_le_mul (Nat.sub_le _ _) hwork
    _ ≤ (2 ^ 64 - 1) * (2 ^ 64 - 1) :=
        Nat.mul_le_mul (Nat.le_pred_of_lt h.valueFits) (Nat.le_pred_of_lt h.workFits)
    _ < sizeU128 := by decide

/-- What the cap computes. -/
theorem capPayees_eq (h : SplitInput miners totalWork value p) {t t' : Tally}
    (hd : Decided p value totalWork scriptFor miners t)
    (run : capPayees p value totalWork t = some t') :
    t' = if CapApplies p t then cappedTally p value totalWork t else t := by
  unfold capPayees at run
  split at run
  next hc =>
    rw [if_pos hc]
    simp only [Option.bind_eq_bind, Option.bind_eq_some_iff, checkedMul_eq_some,
      checkedSub_eq_some] at run
    obtain ⟨_, ⟨_, rfl⟩, kw, hkw, shared, hsh, sum, hsum, dust, ⟨_, rfl⟩, payees, hpay, run⟩ := run
    rw [cast_cappedFee h hd] at hsh hpay run
    obtain ⟨_, hkw⟩ := (foldlM_checkedAdd _ _ _ (by decide)).mp hkw
    obtain ⟨_, hsum⟩ := (foldlM_checkedAdd _ _ _ (by decide)).mp hsum
    obtain rfl : kw = workOf (keptOf p t.payees) := by rw [← hkw, Nat.zero_add]; rfl
    have hfit : ∀ q ∈ keptOf p t.payees, (value - cappedFee value totalWork t.feeNum) * q.work /
        max (workOf (keptOf p t.payees)) 1 < sizeU64 := fun q hq =>
      (reshare_le hq).trans_lt ((Nat.sub_le _ _).trans_lt h.valueFits)
    obtain rfl := mapM_shareAmong hfit hsh
    obtain rfl := addDust_eq hpay
    rw [Nat.zero_add] at hsum
    subst hsum
    exact (Option.some.inj run).symm
  next hc =>
    rw [if_neg hc]
    exact (Option.some.inj run).symm

/-- With a fee product that fits, nothing stops the cap. -/
theorem capPayees_total (h : SplitInput miners totalWork value p) {t : Tally}
    (hd : Decided p value totalWork scriptFor miners t)
    (hfit : CapApplies p t → value * (miners.map (feeWeight p)).sum < sizeU128) :
    ∃ t', capPayees p value totalWork t = some t' := by
  unfold capPayees
  split
  next hc =>
    have hv := h.valueFits
    have hw := h.workFits
    have hkw := workOf_keptOf_le h hd
    have hprod : ∀ q ∈ keptOf p t.payees,
        (value - cappedFee value totalWork t.feeNum) * q.work < sizeU128 :=
      fun _ hq => distributed_fits h hd hq _
    have hsmall : ∀ q ∈ keptOf p t.payees, (value - cappedFee value totalWork t.feeNum) * q.work /
        max (workOf (keptOf p t.payees)) 1 < sizeU64 := fun q hq =>
      (reshare_le hq).trans_lt ((Nat.sub_le _ _).trans_lt hv)
    set d := value - cappedFee value totalWork t.feeNum with hdist
    have hsum := sum_floorShares_le d (keptOf p t.payees)
    obtain ⟨payees, hpay⟩ := addDust_total (dustOf d (keptOf p t.payees))
      (floorShares d (keptOf p t.payees)) (by
        intro q hq
        have := le_sum_of_mem (f := Payee.sats) hq
        unfold dustOf
        omega)
    refine ⟨{ t with
      feeSats := cappedFee value totalWork t.feeNum
      payees := payees
      unpaid := t.unpaid ++ (cutOf p t.payees).map (fun q => (q.identity, q.sats, .belowCut))
      paid := d }, ?_⟩
    simp only [Option.bind_eq_bind, Option.bind_eq_some_iff, checkedMul_eq_some,
      checkedSub_eq_some]
    refine ⟨_, ⟨by rw [hd.feeNum]; exact hfit hc, rfl⟩, ?_⟩
    rw [cast_cappedFee h hd]
    refine ⟨workOf (keptOf p t.payees), ?_, _, mapM_shareAmong_total hprod hsmall,
      ((floorShares d (keptOf p t.payees)).map Payee.sats).sum, ?_, _, ⟨hsum, rfl⟩, payees, hpay, rfl⟩
    · refine (foldlM_checkedAdd _ _ _ (by decide)).mpr ⟨?_, Nat.zero_add _⟩
      change 0 + workOf (keptOf p t.payees) < sizeU128
      simp only [sizeU128, sizeU64] at *
      omega
    · exact (foldlM_checkedAdd _ _ _ (by decide)).mpr ⟨by
        change 0 + ((floorShares d (keptOf p t.payees)).map Payee.sats).sum < sizeU64
        omega, Nat.zero_add _⟩
  next hc => exact ⟨t, rfl⟩

end
end WaviclesPrime.Tides
