import WaviclesPrime.Tides.Limits
import WaviclesPrime.Tides.Overflow

/-! The floor on an output. The loop over the window checks it, the cap rewrites the amount it
was checked on: when the floor still stands after that. -/
namespace WaviclesPrime.Tides
open Machine Apportion Extremum

/-- Miners that get an output, in the window's order, with `count` outputs and `bytes` taken: the
offer reaches the floor, there is a script, and both limits leave room for it. -/
def placedMiners (p : SplitParams) (value totalWork : Nat) (scriptFor : Identity → Option Bytes) :
    Nat → Nat → List MinerStat → List MinerStat
  | _, _, [] => []
  | count, bytes, m :: rest =>
    let next := bytes + outputNeed ((scriptFor m.identity).getD [])
    if p.minPayout ≤ shareOf p value totalWork m ∧ scriptFor m.identity ≠ none ∧
        count < p.maxOutputs ∧ next ≤ p.outputBudgetBytes then
      m :: placedMiners p value totalWork scriptFor (count + 1) next rest
    else placedMiners p value totalWork scriptFor count bytes rest

/-- Largest work first, then by name. -/
def byRank (a b : MinerStat) : Prop := b.work < a.work ∨ (a.work = b.work ∧ a.identity ≤ b.identity)

instance : DecidableRel byRank := fun a b =>
  inferInstanceAs (Decidable (b.work < a.work ∨ (a.work = b.work ∧ a.identity ≤ b.identity)))

/-- Miners a cap keeps. -/
def keptMiners (miners : List MinerStat) (totalWork value : Nat) (p : SplitParams)
    (scriptFor : Identity → Option Bytes) : List MinerStat :=
  ((placedMiners p value totalWork scriptFor 0 0 (counted miners totalWork)).insertionSort byRank).take
    p.maxPayees

/-- What a cap distributes: the value less the fee of the whole window. -/
def distributable (miners : List MinerStat) (totalWork value : Nat) (p : SplitParams) : Nat :=
  value - cappedFee value totalWork ((counted miners totalWork).map (feeWeight p)).sum

/-- The floor still stands for every miner a cap keeps, once the fee is taken off the whole value
and the rest is shared by work alone. -/
def FloorKept (miners : List MinerStat) (totalWork value : Nat) (p : SplitParams)
    (scriptFor : Identity → Option Bytes) : Prop :=
  ∀ m ∈ keptMiners miners totalWork value p scriptFor, p.minPayout ≤
    distributable miners totalWork value p * m.work /
      max ((keptMiners miners totalWork value p scriptFor).map MinerStat.work).sum 1

instance (miners : List MinerStat) (totalWork value : Nat) (p : SplitParams)
    (scriptFor : Identity → Option Bytes) :
    Decidable (FloorKept miners totalWork value p scriptFor) :=
  inferInstanceAs (Decidable (∀ m ∈ keptMiners miners totalWork value p scriptFor, _))

section
variable {miners : List MinerStat} {totalWork value : Nat} {p : SplitParams}
  {scriptFor : Identity → Option Bytes}

/-- The loop places exactly the miners the limits leave room for. -/
theorem tally_payees (h : SplitInput miners totalWork value p) {ms : List MinerStat} (hms : ms ⊆ miners)
    {t t' : Tally} (run : ms.foldlM (addMiner p value totalWork scriptFor) t = some t') :
    t'.payees = t.payees ++ (placedMiners p value totalWork scriptFor t.payees.length t.bytes ms).map
      (offer p value totalWork scriptFor) := by
  induction ms generalizing t with
  | nil =>
    obtain rfl := Option.some.inj run
    simp [placedMiners]
  | cons m ms ih =>
    simp only [List.foldlM_cons, Option.bind_eq_bind, Option.bind_eq_some_iff] at run
    obtain ⟨mid, hstep, run⟩ := run
    obtain ⟨hm, hms⟩ := List.cons_subset.mp hms
    have hrest := ih hms run
    rcases addMiner_cases h hm hstep with ⟨hlow, rfl⟩ | ⟨hmin, hs, rfl⟩ |
      ⟨script, hmin, hs, hover, rfl⟩ | ⟨script, hmin, hs, hc, hb, -, rfl⟩
    · rw [placedMiners, if_neg fun hx => absurd hx.1 (by omega)]
      exact hrest
    · rw [placedMiners, if_neg fun hx => hx.2.1 hs]
      exact hrest
    · rw [placedMiners, if_neg fun hx => ?_]
      · exact hrest
      · rw [hs, Option.getD_some] at hx
        omega
    · rw [placedMiners, if_pos ⟨hmin, by simp [hs], hc, by rw [hs]; exact hb⟩]
      simpa [hs, offer] using hrest

theorem byRank_offer (a b : MinerStat) : byRank a b ↔
    byWork (offer p value totalWork scriptFor a) (offer p value totalWork scriptFor b) := Iff.rfl

/-- What a cap keeps are the offers of the miners it keeps. -/
theorem keptOf_tally (h : SplitInput miners totalWork value p) {t : Tally}
    (run : tallyMiners miners totalWork value p scriptFor = some t) :
    keptOf p t.payees = (keptMiners miners totalWork value p scriptFor).map
      (offer p value totalWork scriptFor) := by
  rw [tallyMiners_eq] at run
  have hpayees := tally_payees h.counted (List.Subset.refl _) run
  rw [keptOf, hpayees, keptMiners, List.map_take,
    List.map_insertionSort byRank byWork _ _ fun a _ b _ => byRank_offer a b]
  rfl

/-- The re-distribution over one payee gives it everything. -/
theorem floorShares_single {d : Nat} {q : Payee} (hw : 0 < q.work) :
    d * q.work / max (workOf [q]) 1 = d := by
  have hmax : max (workOf [q]) 1 = q.work := by simp [workOf]; omega
  rw [hmax, Nat.mul_div_cancel d hw]

theorem getElem?_cappedPayees (d : Nat) (kept : List Payee) (j : Nat) :
    (cappedPayees d kept)[j]? =
      (fun q => if topIndex (floorShares d kept) = j then bump (dustOf d kept) q else q) <$>
        (floorShares d kept)[j]? :=
  List.getElem?_modify ..

/-- Every share but the largest is paid as it was rounded. -/
theorem floor_of_other {d c : Nat} {kept : List Payee} (hall : ∀ q ∈ cappedPayees d kept, c ≤ q.sats)
    {j : Nat} {q : Payee} (hj : topIndex (floorShares d kept) ≠ j)
    (hq : (floorShares d kept)[j]? = some q) : c ≤ q.sats := by
  refine hall q (List.mem_of_getElem? (i := j) ?_)
  rw [getElem?_cappedPayees, hq, Option.map_eq_map, Option.map_some, if_neg hj]

/-- A payee left alone is paid the whole amount, and needs no remainder for it. -/
theorem floor_of_single {d c : Nat} {q : Payee} (hw : q.work = 0 → c = 0)
    (hall : ∀ x ∈ cappedPayees d [q], c ≤ x.sats) : c ≤ d * q.work / max (workOf [q]) 1 := by
  rcases Nat.eq_zero_or_pos q.work with hzero | hpos
  · rw [hw hzero]
    exact Nat.zero_le _
  · have hsum := sum_cappedPayees (d := d) (List.cons_ne_nil q [])
    obtain ⟨y, hy⟩ := List.exists_mem_of_ne_nil (cappedPayees d [q]) fun hnil => by
      have hids := identities_cappedPayees d [q]
      rw [hnil] at hids
      cases hids
    have hle := le_sum_of_mem (f := Payee.sats) hy
    rw [floorShares_single hpos]
    exact (hall y hy).trans (hle.trans hsum.le)

/-- A largest share is above the floor when any other share is. -/
theorem floor_of_largest {d c : Nat} {kept : List Payee} {q : Payee}
    (hall : ∀ q ∈ cappedPayees d kept, c ≤ q.sats)
    (hq : (floorShares d kept)[topIndex (floorShares d kept)]? = some q) (hlen : kept.length ≠ 1) :
    c ≤ q.sats := by
  have hne : floorShares d kept ≠ [] := List.ne_nil_of_mem (List.mem_of_getElem? hq)
  obtain ⟨top, htop⟩ := topIndex_spec hne
  obtain ⟨k, hk, hlt⟩ : ∃ k, topIndex (floorShares d kept) ≠ k ∧ k < (floorShares d kept).length := by
    have hlt := topIndex_lt hne
    have hl : (floorShares d kept).length = kept.length := List.length_map ..
    exact ⟨if topIndex (floorShares d kept) = 0 then 1 else 0, by split_ifs <;> omega,
      by split_ifs <;> omega⟩
  have hx := List.getElem?_eq_getElem hlt
  have hge := htop.ge k _ (by rw [List.getElem?_map, hx]; rfl)
  have hhere := htop.here
  rw [List.getElem?_map, hq] at hhere
  exact (floor_of_other hall hk hx).trans (hge.trans (Option.some.inj hhere).ge)

/-- The rounding remainder never lifts a capped split over a floor: it goes to the largest share. -/
theorem floor_cappedPayees {d c : Nat} {kept : List Payee} (hw : ∀ q ∈ kept, q.work = 0 → c = 0) :
    (∀ q ∈ cappedPayees d kept, c ≤ q.sats) ↔
      ∀ q ∈ kept, c ≤ d * q.work / max (workOf kept) 1 := by
  constructor
  · intro hall q hq
    by_cases hlen : kept.length = 1
    · obtain ⟨r, rfl⟩ := List.length_eq_one_iff.mp hlen
      obtain rfl := List.mem_singleton.mp hq
      exact floor_of_single (hw q hq) hall
    · obtain ⟨j, hj⟩ := List.getElem?_of_mem hq
      have hshare : (floorShares d kept)[j]? = some (reshare d (workOf kept) q) := by
        simp [floorShares, hj]
      by_cases htop : topIndex (floorShares d kept) = j
      · exact floor_of_largest hall (htop ▸ hshare) hlen
      · exact floor_of_other hall htop hshare
  · intro hall q hq
    obtain ⟨j, hj⟩ := List.getElem?_of_mem hq
    rw [getElem?_cappedPayees, floorShares, List.getElem?_map, Option.map_eq_map, Option.map_map,
      Option.map_eq_some_iff] at hj
    obtain ⟨x, hx, rfl⟩ := hj
    have hshare : c ≤ (reshare d (workOf kept) x).sats := hall x (List.mem_of_getElem? hx)
    simp only [Function.comp_apply]
    split_ifs
    · exact hshare.trans (Nat.le_add_right _ _)
    · exact hshare

/-- Topping up lowers nobody. -/
theorem giveTo_raises {i : Identity} {give : Nat} {payees ys : List Payee}
    (h : giveTo i give payees = some (some ys)) : ∀ y ∈ ys, ∃ q ∈ payees, q.sats ≤ y.sats := by
  rcases giveTo_cases h with ⟨-, hnone⟩ | ⟨before, q, after, rfl, -, -, hsome⟩
  · cases hnone
  · obtain rfl := Option.some.inj hsome
    intro y hy
    rcases List.mem_append.mp hy with hy | hy
    · exact ⟨y, List.mem_append_left _ hy, Nat.le_refl _⟩
    · rcases List.mem_cons.mp hy with rfl | hy
      · exact ⟨q, by simp, Nat.le_add_right _ _⟩
      · exact ⟨y, by simp [hy], Nat.le_refl _⟩

/-- Carry keeps the floor: an output is raised, or opened at the floor or above. -/
theorem payCarry_floor {entries : List (Identity × Nat)} {u u' : Purse}
    (run : payCarry p scriptFor entries u = some u') (h : ∀ q ∈ u.payees, p.minPayout ≤ q.sats) :
    ∀ q ∈ u'.payees, p.minPayout ≤ q.sats := by
  induction entries generalizing u with
  | nil =>
    obtain rfl := Option.some.inj run
    exact h
  | cons e rest ih =>
    rw [payCarry_cons_eq, Option.bind_eq_bind, Option.bind_eq_some_iff] at run
    obtain ⟨next, hone, run⟩ := run
    refine ih run ?_
    rcases payCarry_one hone with ⟨-, rfl⟩ | ⟨-, hg, -⟩ | ⟨ho, script, hp, -, -⟩
    · exact h
    · intro y hy
      obtain ⟨q, hq, hle⟩ := giveTo_raises hg y hy
      exact (h q hq).trans hle
    · rw [hp, List.forall_mem_append, List.forall_mem_singleton]
      exact ⟨h, ho.2.2.2.1⟩

/-- A miner without work is offered nothing. -/
theorem SplitInput.share_zero (h : SplitInput miners totalWork value p) {m : MinerStat}
    (hm : m.work = 0) : shareOf p value totalWork m = 0 := by
  have hkeep := keep_add_fee h.bounded m
  have hzero : keepWeight p m = 0 := by omega
  simp [shareOf, hzero]

/-- After the cap the outputs reach the floor exactly when every kept miner still does. -/
theorem limited_floor (h : SplitInput miners totalWork value p) {t : Tally}
    (ht : tallyMiners miners totalWork value p scriptFor = some t) :
    (∀ q ∈ (limited p value totalWork t).payees, p.minPayout ≤ q.sats) ↔
      (0 < p.maxPayees → FloorKept miners totalWork value p scriptFor) := by
  have hd := decided_run h.counted (tallyMiners_eq ▸ ht)
  have hkept := keptOf_tally h ht
  by_cases hc : CapApplies p t
  · have hzero : ∀ q ∈ keptOf p t.payees, q.work = 0 → p.minPayout = 0 := by
      intro q hq hw
      have hq := (keptOf_perm_sublist p t.payees).subset hq
      have hmin := (hd.scripted q hq).2
      obtain ⟨m, -, rfl⟩ := List.mem_map.mp (hd.offered.subset hq)
      have hshare : (offer p value totalWork scriptFor m).sats = 0 := h.share_zero hw
      omega
    have hwork : workOf (keptOf p t.payees) =
        ((keptMiners miners totalWork value p scriptFor).map MinerStat.work).sum := by
      rw [hkept, workOf, List.map_map]
      rfl
    rw [limited, if_pos hc, forall_prop_of_true hc.1]
    refine (floor_cappedPayees hzero).trans ?_
    rw [hwork, hkept, List.forall_mem_map, hd.feeNum]
    rfl
  · rw [limited, if_neg hc]
    refine iff_of_true (fun q hq => (hd.scripted q hq).2) fun hpos => ?_
    have hnone : keptMiners miners totalWork value p scriptFor = [] := by
      rw [payees_nil_of_uncapped hc hpos, keptOf] at hkept
      simpa using hkept.symm
    simp [FloorKept, hnone]

/-- Whatever is owed, a split that returns pays nobody below the floor, exactly when no cap is set
or every miner it keeps is still above the floor after the re-distribution. -/
theorem dust_floor_iff (h : SplitInput miners totalWork value p) :
    (∀ carry s, computeWithCarry miners totalWork value p carry scriptFor = some s →
      ∀ q ∈ s.payees, p.minPayout ≤ q.sats) ↔
    (SplitFits miners totalWork value p scriptFor → 0 < p.maxPayees →
      FloorKept miners totalWork value p scriptFor) := by
  constructor
  · intro hall hfit
    have hno : NoOverflow miners totalWork value p .empty scriptFor := (noOverflow_iff h).mpr hfit
    obtain ⟨s, run⟩ := hno.1
    have hfloor := hall .empty s run
    obtain ⟨t, u, ht, -, hu, rfl⟩ := computeWithCarry_cases h run
    obtain rfl : openPurse value (limited p value totalWork t) = u := Option.some.inj hu
    exact (limited_floor h ht).mp hfloor
  · intro hkept carry s run
    have hfit := (noOverflow_iff h).mp ⟨⟨s, run⟩, castsExact h⟩
    obtain ⟨t, u, ht, -, hu, rfl⟩ := computeWithCarry_cases h run
    exact payCarry_floor hu ((limited_floor h ht).mpr (hkept hfit))

end
/-- Nobody is charged, and whoever is owed whatever, everybody paid is paid the floor. -/
theorem free_split_keeps_floor : SplitInput [⟨"b", 3, 0, 1, 0⟩, ⟨"c", 1, 1, 1, 0⟩] 4 1000 cappedParams ∧
    ∀ carry s, computeWithCarry [⟨"b", 3, 0, 1, 0⟩, ⟨"c", 1, 1, 1, 0⟩] 4 1000 cappedParams carry
      plainScript = some s → ∀ q ∈ s.payees, cappedParams.minPayout ≤ q.sats :=
  ⟨by decide, (dust_floor_iff (by decide)).mpr fun _ _ => by decide⟩

/-- A floor of 100, one identity at a rate of 50 % and all others free. -/
def partnerRate : SplitParams := ⟨0, 0, 100, 511, 14000, 2, .insert .empty "b" 5000⟩

/-- The free miner's offer is on the floor; the other's fee then takes half of it. -/
theorem reshared_below_floor : SplitInput [⟨"b", 90, 0, 1, 0⟩, ⟨"a", 10, 0, 1, 0⟩] 100 1000 partnerRate ∧
    ∃ s, computeWithCarry [⟨"b", 90, 0, 1, 0⟩, ⟨"a", 10, 0, 1, 0⟩] 100 1000 partnerRate .empty plainScript
      = some s ∧ ∃ q ∈ s.payees, q.sats < partnerRate.minPayout :=
  ⟨by decide, _, rfl, ⟨"a", 10, 55, [97]⟩, by decide, by decide⟩

end WaviclesPrime.Tides
