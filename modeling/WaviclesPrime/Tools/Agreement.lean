import WaviclesPrime.Lib.Extremum
import WaviclesPrime.Tools.Mirror

/-! When the public verifier finds the split Prime computed. -/
namespace WaviclesPrime.Tools
open Machine Tides Primed Primed.Snapshot Extremum

theorem firstTop_spec {lines : List Line} (h : lines ≠ []) :
    ∃ top, FirstMax id (lines.map Line.sats) (firstTop lines) top := by
  have run : ∀ (rest : List Line) (seen : List Nat) (best : Nat × Nat),
      FirstMax id seen best.1 best.2 →
      ∃ top, FirstMax id (seen ++ rest.map Line.sats) (firstMaxIndex best seen.length rest) top := by
    intro rest
    induction rest with
    | nil => exact fun seen best hb => ⟨best.2, by simpa [firstMaxIndex] using hb⟩
    | cons q rest ih =>
      intro seen best hb
      have hlen : (seen ++ [q.sats]).length = seen.length + 1 := by simp
      rw [firstMaxIndex, List.map_cons, ← hlen, ← List.singleton_append, ← List.append_assoc]
      refine ih _ _ ?_
      split
      next hlt => exact hb.snoc_gt hlt
      next hle => exact hb.snoc_le (Nat.le_of_not_lt hle)
  cases lines with
  | nil => exact absurd rfl h
  | cons q rest => exact run rest [q.sats] (0, q.sats) (firstMax_single _)

/-- What the two compare: who is paid, and how much. -/
def Line.amount (q : Line) : Identity × Nat := (q.identity, q.sats)

@[simp] theorem amount_lineOf (q : Payee) : (lineOf q).amount = q.amount := rfl

/-- Adding to one entry or to another gives one list only when they are the same, or nothing is
added. -/
theorem modify_eq_iff (xs : List (Identity × Nat)) {i j : Nat} (hi : i < xs.length) (d : Nat) :
    xs.modify i (fun e => (e.1, e.2 + d)) = xs.modify j (fun e => (e.1, e.2 + d)) ↔ d = 0 ∨ i = j := by
  constructor
  · intro h
    refine or_iff_not_imp_right.mpr fun hij => ?_
    have hget := congrArg (fun l => l[i]?) h
    simp only [List.getElem?_modify, if_pos, if_neg (Ne.symm hij), List.getElem?_eq_getElem hi,
      Option.map_some, Option.map_eq_map] at hget
    have := congrArg Prod.snd (Option.some.inj hget)
    simp at this
    omega
  · rintro (rfl | rfl)
    · have hid : (fun e : Identity × Nat => (e.1, e.2 + 0)) = id := rfl
      rw [hid, List.modify_id, List.modify_id]
    · rfl

/-- The scripts the verifier reads off the payees of a split. -/
def scriptsOf (payees : List Payee) : Identity → Option String :=
  dict ((payees.map paidOutputOf).map fun q => (q.identity, q.script))

/-- They are those the payees have. -/
theorem inferred_payees {payees : List Payee} {scriptFor : Identity → Option Bytes}
    (hn : (identities payees).Nodup)
    (hs : ∀ q ∈ payees, scriptFor q.identity = some q.script) :
    Inferred scriptFor (scriptsOf payees) (identities payees) := by
  have hkeys : ((payees.map paidOutputOf).map fun q => (q.identity, q.script)).map Prod.fst =
      identities payees := by
    simp [identities, Function.comp_def, paidOutputOf]
  intro i
  constructor
  · intro hi
    obtain ⟨q, hq, rfl⟩ := List.mem_map.mp hi
    refine ⟨q.script, hs q hq, dict_of_mem (by rw [hkeys]; exact hn) ?_⟩
    exact List.mem_map.mpr ⟨paidOutputOf q, List.mem_map_of_mem hq, rfl⟩
  · exact fun hi => dict_of_notMem (by rw [hkeys]; exact hi)

section
variable {w : WindowView} {value : Nat} {p : SplitParams} {carry : OrdMap Identity Nat}
  {scriptFor : Identity → Option Bytes} {s : Split}

theorem counted_ranked (w : WindowView) : (counted w.miners w.totalWork).Pairwise rankedBefore :=
  w.ranked.sublist counted_sublist

theorem counted_distinct (w : WindowView) :
    ((counted w.miners w.totalWork).map MinerStat.identity).Nodup :=
  (counted_sublist.map _).nodup w.distinct

/-- The miners the loop of the split placed. -/
def placed (t : Tally) (m : MinerStat) : Bool := decide (m.identity ∈ identities t.payees)

/-- An offer the split placed, the verifier shows, if it is still among the payees. -/
theorem shown_of_placed (hmin : 0 < p.minPayout)
    (f : Phases w.miners w.totalWork value p carry scriptFor s) {m : MinerStat}
    (hm : m ∈ counted w.miners w.totalWork) (hp : placed f.tally m = true)
    (hpaid : m.identity ∈ identities s.payees) :
    shown p value w.totalWork (identities s.payees) m = true := by
  obtain ⟨q, hq, hqi⟩ := List.mem_map.mp (of_decide_eq_true hp)
  obtain ⟨x, hx, rfl⟩ := List.mem_map.mp (f.decided.offered.subset hq)
  obtain rfl : x = m := List.inj_on_of_nodup_map (counted_distinct w) hx hm hqi
  have hshare := (f.decided.scripted _ hq).2
  simp only [offer] at hshare
  exact decide_eq_true ⟨by omega, hshare, hpaid⟩

theorem start_subset (f : Phases w.miners w.totalWork value p carry scriptFor s) :
    identities (limited p value w.totalWork f.tally).payees ⊆ identities s.payees := by
  rw [f.payees_eq, f.funded.identities_eq]
  exact List.subset_append_left _ _

/-- Where no cap applies, the verifier shows the very miners the split placed. -/
theorem shown_uncapped (hp : p.Bounded) (hv : value < sizeU64) (hmin : 0 < p.minPayout)
    (f : Phases w.miners w.totalWork value p carry scriptFor s) (hc : ¬ CapApplies p f.tally) :
    (counted w.miners w.totalWork).filter (shown p value w.totalWork (identities s.payees)) =
      (counted w.miners w.totalWork).filter (placed f.tally) := by
  have hlim : limited p value w.totalWork f.tally = f.tally := if_neg hc
  have hstart := start_subset f
  rw [hlim] at hstart
  refine List.filter_congr fun m hm => ?_
  cases hpl : placed f.tally m with
  | true => exact shown_of_placed hmin f hm hpl (hstart (of_decide_eq_true hpl))
  | false =>
    by_contra hshown
    have hshown : shown p value w.totalWork (identities s.payees) m = true := by simpa using hshown
    obtain ⟨-, hfloor, hpaid⟩ := of_decide_eq_true hshown
    obtain ⟨before, after, heq⟩ := List.append_of_mem hm
    have hlate := f.late_newcomer (w.input hp hv) w.distinct heq hfloor hpaid (of_decide_eq_false hpl)
    rw [hlim] at hlate
    omega

/-- Under a cap, it shows the kept ones first. -/
theorem shown_capped (hp : p.Bounded) (hv : value < sizeU64) (hmin : 0 < p.minPayout)
    (f : Phases w.miners w.totalWork value p carry scriptFor s) (hc : CapApplies p f.tally) :
    ((counted w.miners w.totalWork).filter (shown p value w.totalWork (identities s.payees))).take
        p.maxPayees =
      ((counted w.miners w.totalWork).filter (placed f.tally)).take p.maxPayees := by
  have hlim : limited p value w.totalWork f.tally = cappedTally p value w.totalWork f.tally := if_pos hc
  have hpay := f.decided.payees_eq (counted_distinct w)
  have hkept := f.decided.keptOf_eq (counted_ranked w)
  have hstart := start_subset f
  have hids : identities (limited p value w.totalWork f.tally).payees =
      identities (f.tally.payees.take p.maxPayees) := by
    rw [hlim, ← hkept]
    exact identities_cappedPayees _ _
  rw [hids] at hstart
  refine take_filter_congr p.maxPayees _ (fun m hm => ?_) fun before m after heq hshown hpl => ?_
  · have hmem := List.mem_of_mem_take hm
    refine shown_of_placed hmin f (List.mem_filter.mp hmem).1 (List.mem_filter.mp hmem).2 (hstart ?_)
    refine List.mem_map.mpr ⟨offer p value w.totalWork scriptFor m, ?_, rfl⟩
    rw [hpay, ← List.map_take]
    exact List.mem_map_of_mem hm
  · obtain ⟨-, hfloor, hpaid⟩ := of_decide_eq_true hshown
    have hlate := f.late_newcomer (w.input hp hv) w.distinct heq hfloor hpaid (of_decide_eq_false hpl)
    have hlen : (identities (limited p value w.totalWork f.tally).payees).length =
        min p.maxPayees f.tally.payees.length := by rw [hids]; simp [identities]
    have hall : (before.filter (placed f.tally)).length = f.tally.payees.length := by
      have hafter : after.filter (placed f.tally) = [] :=
        List.filter_eq_nil_iff.mpr fun x hx => by simpa [placed] using hlate.2 x hx
      have hlen := congrArg List.length hpay
      rw [List.length_map, heq, List.filter_append] at hlen
      rw [hlen, List.filter_cons_of_neg (by simpa [placed] using of_decide_eq_false hpl)]
      change _ = (before.filter (placed f.tally) ++ after.filter (placed f.tally)).length
      rw [hafter, List.append_nil]
    simp only [identities, List.length_map] at hlen
    omega

/-- The work the verifier looks up by name. -/
def workIn (w : WindowView) (i : Identity) : Nat :=
  (dict ((entriesOf w).map fun e => (e.identity, e.work)) i).getD 0

theorem workIn_eq {m : MinerStat} (hm : m ∈ w.miners) : workIn w m.identity = m.work := by
  have hperm := (entriesOf_perm w).map fun e => (e.identity, e.work)
  have hkeys : (((entriesOf w).map fun e => (e.identity, e.work)).map Prod.fst).Nodup := by
    refine (hperm.map Prod.fst).nodup_iff.mpr ?_
    simpa [Function.comp_def, entryOf] using w.distinct
  have hmem : (m.identity, m.work) ∈ (entriesOf w).map fun e => (e.identity, e.work) :=
    hperm.mem_iff.mpr (List.mem_map.mpr ⟨entryOf m, List.mem_map_of_mem hm, rfl⟩)
  rw [workIn, dict_of_mem hkeys hmem, Option.getD_some]

theorem lines_ranked {miners : List MinerStat} (hs : miners.Sublist w.miners) :
    (miners.map (lineOf ∘ offer p value w.totalWork scriptFor)).Pairwise (byWorkOf (workIn w)) := by
  refine List.pairwise_map.mpr ((w.ranked.sublist hs).imp_of_mem fun {a b} ha hb hab => ?_)
  have hwa := workIn_eq (hs.subset ha)
  have hwb := workIn_eq (hs.subset hb)
  unfold byWorkOf
  simp only [Function.comp_apply, lineOf, offer, hwa, hwb]
  exact hab.imp_right fun h => ⟨h.1, h.2.le⟩

/-- What the verifier's cap leaves: the split's floors, with the dust on the first largest. -/
theorem shareLargest_eq (value : Nat) (p : SplitParams) (scriptFor : Identity → Option Bytes)
    {miners : List MinerStat} (hs : miners.Sublist w.miners) (n d : Nat) :
    let kept := (miners.take n).map (offer p value w.totalWork scriptFor)
    let lines := (floorShares d kept).map lineOf
    shareLargest (workIn w) n d (miners.map (lineOf ∘ offer p value w.totalWork scriptFor)) =
      lines.modify (firstTop lines) (Line.add (dustOf d kept)) := by
  intro kept lines
  have hwork : ∀ m ∈ miners.take n, workIn w m.identity = m.work :=
    fun m hm => workIn_eq (hs.subset (List.mem_of_mem_take hm))
  have hkeptWork : (((miners.map (lineOf ∘ offer p value w.totalWork scriptFor)).take n).map
      fun q => workIn w q.identity).sum = Tides.workOf kept := by
    rw [← List.map_take, List.map_map, Tides.workOf, List.map_map]
    exact congrArg List.sum (List.map_congr_left hwork)
  have hshared : ((miners.map (lineOf ∘ offer p value w.totalWork scriptFor)).take n).map
      (fun q => { q with sats := d * workIn w q.identity / max (Tides.workOf kept) 1 }) = lines := by
    rw [← List.map_take, List.map_map]
    simp only [lines, floorShares, kept, List.map_map]
    refine List.map_congr_left fun m hm => ?_
    simp only [hwork m hm, Function.comp_apply, lineOf, reshare, offer]
  have hdust : d - (lines.map Line.sats).sum = dustOf d kept := by
    simp only [lines, dustOf, List.map_map]
    rfl
  rw [shareLargest, (lines_ranked hs).insertionSort_eq]
  rw [hkeptWork, hshared, hdust]

/-- The lines the verifier has before its carry loop, and what is paid with them. -/
structure Before (w : WindowView) (value : Nat) (p : SplitParams)
    (scriptFor : Identity → Option Bytes) (t : Tally) (sheet : Sheet) : Prop where
  ids : lineIds sheet.payees = identities (limited p value w.totalWork t).payees
  paid : sheet.paid = (limited p value w.totalWork t).paid
  agree : sheet.payees.map Line.amount = (limited p value w.totalWork t).payees.map Payee.amount ↔
    (CapApplies p t →
      dustOf (value - cappedFee value w.totalWork t.feeNum) (keptOf p t.payees) = 0 ∨
      UniqueMax id ((floorShares (value - cappedFee value w.totalWork t.feeNum)
        (keptOf p t.payees)).map Payee.sats))

/-- The amounts of a list where dust went to the first largest, and to the last. -/
theorem dust_agree_iff {shares : List Payee} (hne : shares ≠ []) (d : Nat) :
    ((shares.map lineOf).modify (firstTop (shares.map lineOf)) (Line.add d)).map Line.amount =
      (shares.modify (topIndex shares) (bump d)).map Payee.amount ↔
      d = 0 ∨ UniqueMax id (shares.map Payee.sats) := by
  have hline := map_modify (f := Line.amount) (g := Line.add d) (h := fun e => (e.1, e.2 + d))
    (fun _ => rfl) (firstTop (shares.map lineOf)) (shares.map lineOf)
  have hpayee := map_modify (f := Payee.amount) (g := bump d) (h := fun e => (e.1, e.2 + d))
    (fun _ => rfl) (topIndex shares) shares
  obtain ⟨_, hfirst⟩ := firstTop_spec (show shares.map lineOf ≠ [] by simpa using hne)
  obtain ⟨_, hlast⟩ := topIndex_spec hne
  rw [List.map_map, show Line.sats ∘ lineOf = Payee.sats from rfl] at hfirst
  have hlt := lt_length_of_getElem? hfirst.here
  rw [hline, hpayee, List.map_map, show Line.amount ∘ lineOf = Payee.amount from rfl,
    modify_eq_iff _ (by simpa using hlt), first_eq_last_iff hfirst hlast]

/-- What the verifier holds when its carry loop starts. -/
theorem sheet_before (hp : p.Bounded) (hv : value < sizeU64) (hmin : 0 < p.minPayout)
    (f : Phases w.miners w.totalWork value p carry scriptFor s) (fee : Nat) :
    let ms := (counted w.miners w.totalWork).filter (shown p value w.totalWork (identities s.payees))
    Before w value p scriptFor f.tally (capSheet (paramsOf p) (entriesOf w) value w.totalWork
      ⟨ms.map (lineOf ∘ offer p value w.totalWork scriptFor),
        (ms.map (shareOf p value w.totalWork)).sum, fee,
        ((counted w.miners w.totalWork).map (feeWeight p)).sum⟩) := by
  intro ms
  have hpay := f.decided.payees_eq (counted_distinct w)
  have hsub : ms.Sublist w.miners := List.filter_sublist.trans counted_sublist
  by_cases hc : CapApplies p f.tally
  · have hlim : limited p value w.totalWork f.tally = cappedTally p value w.totalWork f.tally := if_pos hc
    have hkept := f.decided.keptOf_eq (counted_ranked w)
    have htake : (ms.take p.maxPayees).map (offer p value w.totalWork scriptFor) =
        keptOf p f.tally.payees := by
      rw [shown_capped hp hv hmin f hc, hkept, List.map_take]
      exact congrArg (List.take p.maxPayees) hpay.symm
    have hms : ms ≠ [] := by
      intro hnil
      rw [hnil, List.take_nil, List.map_nil] at htake
      exact keptOf_ne_nil hc htake.symm
    have hif : 0 < (paramsOf p).maxPayees ∧
        ms.map (lineOf ∘ offer p value w.totalWork scriptFor) ≠ [] := ⟨hc.1, by simpa using hms⟩
    rw [capSheet, if_pos hif, ← f.decided.feeNum]
    set d := value - cappedFee value w.totalWork f.tally.feeNum with hd
    have hshare := shareLargest_eq value p scriptFor hsub p.maxPayees d
    rw [htake] at hshare
    have hfloors : floorShares d (keptOf p f.tally.payees) ≠ [] := by
      simpa [floorShares] using keptOf_ne_nil hc
    refine ⟨?_, ?_, ?_⟩
    · refine (congrArg lineIds hshare).trans ?_
      rw [hlim, lineIds, map_modify (f := Line.identity) (g := Line.add _) (h := id) (fun _ => rfl),
        List.modify_id, List.map_map]
      change identities (floorShares d _) = identities (cappedPayees d _)
      rw [identities_cappedPayees, floorShares, identities_map (f := reshare d _) fun _ => rfl]
    · rw [hlim]
      rfl
    · rw [hlim]
      refine Iff.trans ?_ ((dust_agree_iff hfloors _).trans ⟨fun h _ => h, fun h => h hc⟩)
      exact Eq.congr_left (congrArg (List.map Line.amount) hshare)
  · have hlim : limited p value w.totalWork f.tally = f.tally := if_neg hc
    have hms : ms.map (offer p value w.totalWork scriptFor) = f.tally.payees := by
      conv_rhs => rw [hpay]
      exact congrArg _ (shown_uncapped hp hv hmin f hc)
    have hlines : ms.map (lineOf ∘ offer p value w.totalWork scriptFor) = f.tally.payees.map lineOf := by
      rw [← hms, List.map_map]
    have hif : ¬ (0 < (paramsOf p).maxPayees ∧
        ms.map (lineOf ∘ offer p value w.totalWork scriptFor) ≠ []) := by
      rw [hlines]
      exact fun h => hc ⟨h.1, by simpa using h.2⟩
    rw [capSheet, if_neg hif, hlines]
    refine ⟨?_, ?_, ?_⟩
    · rw [hlim, lineIds, List.map_map]
      rfl
    · change (ms.map (shareOf p value w.totalWork)).sum = _
      rw [hlim, f.decided.paid, ← hms, List.map_map]
      rfl
    · rw [hlim, List.map_map]
      exact ⟨fun _ h => absurd h hc, fun _ => rfl⟩

private theorem carry_sorted (carry : OrdMap Identity Nat) :
    carry.entries.insertionSort byKey = carry.entries :=
  (carry.sorted.imp fun h => le_of_lt h).insertionSort_eq

/-- Topping up and appending the same outputs keeps two lists apart or together. -/
theorem topped_agree_iff {lines : List Line} {payees : List Payee} (es ns : List (Identity × Nat)) :
    (lines.map (topUpLine es) ++ ns.map (newLine scriptFor)).map Line.amount =
      (payees.map (topUp es) ++ ns.map (newOutput scriptFor)).map Payee.amount ↔
      lines.map Line.amount = payees.map Payee.amount := by
  have hnew : (ns.map (newLine scriptFor)).map Line.amount =
      (ns.map (newOutput scriptFor)).map Payee.amount := by
    rw [List.map_map, List.map_map]
    rfl
  have hinj : Function.Injective fun e : Identity × Nat => (e.1, e.2 + amountOf e.1 es) := by
    rintro ⟨i, n⟩ ⟨j, m⟩ h
    obtain ⟨rfl, hn⟩ := Prod.mk.inj h
    simpa using hn
  have hlines : (lines.map (topUpLine es)).map Line.amount =
      (lines.map Line.amount).map fun e => (e.1, e.2 + amountOf e.1 es) := by
    rw [List.map_map, List.map_map]
    rfl
  have hpayees : (payees.map (topUp es)).map Payee.amount =
      (payees.map Payee.amount).map fun e => (e.1, e.2 + amountOf e.1 es) := by
    rw [List.map_map, List.map_map]
    rfl
  rw [List.map_append, List.map_append, hnew, List.append_left_inj, hlines, hpayees]
  exact (List.map_injective_iff.mpr hinj).eq_iff

/-- The verifier's loop over the snapshot's window, whatever the fee it keeps for itself. -/
theorem window_sheet (w : WindowView) (value : Nat) (p : SplitParams) {scriptOf : Identity → Option String} {paid : List Identity}
    (hinf : Inferred scriptFor scriptOf paid) :
    let ms := (counted w.miners w.totalWork).filter (shown p value w.totalWork paid)
    ∃ fee, (if 0 < w.totalWork then ((entriesOf w).insertionSort byRank).foldl
        (addEntry (paramsOf p) value w.totalWork scriptOf) ⟨[], 0, 0, 0⟩ else ⟨[], 0, 0, 0⟩) =
      (⟨ms.map (lineOf ∘ offer p value w.totalWork scriptFor), (ms.map (shareOf p value w.totalWork)).sum,
        fee, ((counted w.miners w.totalWork).map (feeWeight p)).sum⟩ : Sheet) := by
  intro ms
  rw [ranked_entries]
  by_cases hpos : 0 < w.totalWork
  · obtain ⟨fee, hfee⟩ := foldl_addEntry p value w.totalWork hinf
      w.miners ⟨[], 0, 0, 0⟩
    refine ⟨fee, ?_⟩
    simp only [ms, counted, if_pos hpos, hfee, List.nil_append, Nat.zero_add]
  · exact ⟨0, by simp [ms, counted, if_neg hpos]⟩

/-- A recomputation finds no problem when it ends with the payees and the pool's part of the
split. -/
theorem recompute_ok_iff (tag : String) (height : Nat) (prevhash : String) (ts : Nat) {till : Till}
    (h : respend (build tag height prevhash ts value p w carry s) w.totalWork = till) :
    (recompute (build tag height prevhash ts value p w carry s)).1 = [] ↔
      till.payees.map Line.amount = s.payees.map Payee.amount ∧ value - till.paid = s.poolSats := by
  have hsum : ((build tag height prevhash ts value p w carry s).window.identities.map Entry.work).sum =
      w.totalWork := sum_entriesOf w
  have hamounts : (build tag height prevhash ts value p w carry s).split.payees.map
      (fun q => (q.identity, q.sats)) = s.payees.map Payee.amount := by
    simp only [build, splitOf, List.map_map]
    rfl
  have htotal : (build tag height prevhash ts value p w carry s).window.totalWork = w.totalWork := rfl
  simp only [recompute, hsum, htotal, h, hamounts, List.append_eq_nil_iff, ite_eq_right_iff]
  change ((_ ∧ (till.payees.map Line.amount ≠ s.payees.map Payee.amount → _)) ∧
    (value - till.paid ≠ s.poolSats → _)) ↔ _
  simp

/-- The verifier agrees with Prime on every snapshot of a split that was returned, but where a
cap leaves dust and several kept payees share the largest part of it. -/
theorem recompute_agrees_iff (hp : p.Bounded) (hv : value < sizeU64) (hmin : 0 < p.minPayout)
    (tag : String) (height : Nat) (prevhash : String) (ts : Nat) :
    (∀ s, w.splitWithCarry value p carry scriptFor = some s →
      ((recompute (build tag height prevhash ts value p w carry s)).1 = [] ↔
        ∀ t, tallyMiners w.miners w.totalWork value p scriptFor = some t → CapApplies p t →
          dustOf (value - cappedFee value w.totalWork t.feeNum) (keptOf p t.payees) = 0 ∨
          UniqueMax id ((floorShares (value - cappedFee value w.totalWork t.feeNum)
            (keptOf p t.payees)).map Payee.sats))) ∧
    (ProductsFit w.miners value p → ∃ s, w.splitWithCarry value p carry scriptFor = some s) := by
  have hin := w.input hp hv
  refine ⟨fun s run => ?_, fun hfit => computeWithCarry_total hin hfit⟩
  obtain ⟨f⟩ := computeWithCarry_phases hin w.distinct run
  have hinf := inferred_payees (f.payees_nodup w.distinct) f.scripted
  obtain ⟨fee, hsheet⟩ := window_sheet w value p hinf
  have hnodup := limited_nodup p value w.totalWork (f.decided.nodup (counted_distinct w))
  obtain ⟨sheet, hcap, hbefore⟩ : ∃ sheet, capSheet (paramsOf p) (entriesOf w) value w.totalWork _ = sheet ∧
      Before w value p scriptFor f.tally sheet := ⟨_, rfl, sheet_before hp hv hmin f fee⟩
  -- the verifier's carry loop starts from its own lines, and ends beside the split's purse
  have htill : respend (build tag height prevhash ts value p w carry s) w.totalWork =
      mirror scriptFor (openPurse value (limited p value w.totalWork f.tally)) sheet.payees f.purse := by
    have hinf' : Inferred scriptFor (scriptsOf s.payees) (identities f.purse.payees) := by
      rw [← f.payees_eq]
      exact hinf
    have hmirror := payCarry_mirror hnodup hbefore.ids hinf' carry.entries []
      carry.keys_nodup (funded_start _ rfl) f.carried
    rw [← hmirror]
    have hstart : mirror scriptFor (openPurse value (limited p value w.totalWork f.tally)) sheet.payees
        (openPurse value (limited p value w.totalWork f.tally)) =
        ⟨sheet.payees, sheet.paid, value - sheet.paid⟩ := by
      rw [hbefore.paid]
      simp [mirror, openPurse, newcomers]
    rw [hstart, ← carry_sorted carry, ← hcap, ← hsheet]
    rfl
  have hpool : value - (mirror scriptFor (openPurse value (limited p value w.totalWork f.tally))
      sheet.payees f.purse).paid = s.poolSats := f.poolSats_eq.symm
  rw [recompute_ok_iff tag height prevhash ts htill, and_iff_left hpool]
  have hpayees : s.payees = f.purse.payees := f.payees_eq
  rw [hpayees, f.funded.payees]
  refine (topped_agree_iff f.purse.carryPaid _).trans (hbefore.agree.trans ⟨fun h t ht => ?_, fun h => ?_⟩)
  · obtain rfl := Option.some.inj (f.ran.symm.trans ht)
    exact h
  · exact h f.tally f.ran

end

/-- Two miners, one with more work. -/
def plainWindow : WindowView :=
  ⟨1, 4, [⟨"b", 3, 0, 1, 0⟩, ⟨"c", 1, 1, 1, 0⟩], by decide, by decide, by decide, by decide⟩

theorem recompute_agrees_plain : ∃ s,
    plainWindow.splitWithCarry 1000 cappedParams oneOwed plainScript = some s ∧
    (recompute (build "PYBLOCK-TON618" 0 "" 0 1000 cappedParams plainWindow oneOwed s)).1 = [] := by
  obtain ⟨hagree, htotal⟩ := recompute_agrees_iff (show cappedParams.Bounded by decide)
    (show 1000 < sizeU64 by decide) (by decide) "PYBLOCK-TON618" 0 "" 0
  obtain ⟨s, run⟩ := htotal (show ProductsFit plainWindow.miners 1000 cappedParams by decide)
  refine ⟨s, run, (hagree s run).mpr fun t ht _ => .inl ?_⟩
  have hdust : (tallyMiners plainWindow.miners plainWindow.totalWork 1000 cappedParams plainScript).map
      (fun t => dustOf (1000 - cappedFee 1000 plainWindow.totalWork t.feeNum)
        (keptOf cappedParams t.payees)) = some 0 := by decide +kernel
  rw [ht] at hdust
  exact Option.some.inj hdust

/-- Two miners with the same work. -/
def tiedWindow : WindowView :=
  ⟨1, 2, [⟨"a", 1, 0, 1, 0⟩, ⟨"b", 1, 0, 1, 0⟩], by decide, by decide, by decide, by decide⟩

/-- One sat of dust between two equal shares: Prime gives it to the last, the verifier expects it
with the first. -/
theorem tied_top_disagrees : ∃ s, cappedParams.Bounded ∧ 0 < cappedParams.minPayout ∧
    tiedWindow.splitWithCarry 1001 cappedParams .empty plainScript = some s ∧
    (recompute (build "PYBLOCK-TON618" 0 "" 0 1001 cappedParams tiedWindow .empty s)).1 =
      ["recomputed split != snapshot split.payees"] :=
  ⟨_, by decide, by decide, rfl, by decide +kernel⟩

end WaviclesPrime.Tools
