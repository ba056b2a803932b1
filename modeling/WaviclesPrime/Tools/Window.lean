import Mathlib.Data.Prod.Lex
import WaviclesPrime.Tides.Ranked
import WaviclesPrime.Tools.Recompute

/-! The verifier's reading of a snapshot: its mappings, the order it takes the window in, and its
loop over it. -/
namespace WaviclesPrime.Tools
open Machine Tides Primed Primed.Snapshot

section
variable {β : Type}

theorem dict_of_mem {pairs : List (Identity × β)} (hn : (pairs.map Prod.fst).Nodup) {k : Identity}
    {v : β} (h : (k, v) ∈ pairs) : dict pairs k = some v := by
  unfold dict
  cases hf : pairs.reverse.find? (fun e => e.1 == k) with
  | none =>
    have := List.find?_eq_none.mp hf (k, v) (List.mem_reverse.mpr h)
    simp at this
  | some e =>
    have hk : e.1 = k := by simpa using List.find?_some hf
    have hmem : e ∈ pairs := List.mem_reverse.mp (List.mem_of_find?_eq_some hf)
    have heq : e = (k, v) := List.inj_on_of_nodup_map hn hmem h hk
    simp [heq]

theorem dict_of_notMem {pairs : List (Identity × β)} {k : Identity} (h : k ∉ pairs.map Prod.fst) :
    dict pairs k = none := by
  have hf : pairs.reverse.find? (fun e => e.1 == k) = none :=
    List.find?_eq_none.mpr fun e he heq =>
      h (List.mem_map.mpr ⟨e, List.mem_reverse.mp he, by simpa using heq⟩)
  simp [dict, hf]

/-- The pairs of a map, read back as a mapping, are the map. -/
theorem dict_entries (m : OrdMap Identity β) (k : Identity) : dict m.entries k = m.get k := by
  cases hg : m.get k with
  | some v => exact dict_of_mem m.keys_nodup (m.mem_of_get hg)
  | none =>
    refine dict_of_notMem fun hm => ?_
    obtain ⟨e, he, rfl⟩ := List.mem_map.mp hm
    simp [m.get_of_mem (k := e.1) (v := e.2) he] at hg

end

@[simp] theorem bpsFor_paramsOf (p : SplitParams) (i : Identity) :
    bpsFor (paramsOf p) i = p.bpsFor i := by
  simp only [bpsFor, paramsOf, dict_entries, SplitParams.bpsFor]
  cases p.feeOverrides.get i <;> rfl

/-- The window of a snapshot. -/
def entriesOf (w : WindowView) : List Entry := (w.miners.map entryOf).insertionSort byName

theorem entriesOf_perm (w : WindowView) : (entriesOf w).Perm (w.miners.map entryOf) :=
  List.perm_insertionSort ..

theorem sum_entriesOf (w : WindowView) : ((entriesOf w).map Entry.work).sum = w.totalWork := by
  rw [((entriesOf_perm w).map Entry.work).sum_eq, List.map_map, ← w.total]
  rfl

/-- An entry in the order of work falling and name rising. -/
def standingOf (e : Entry) : Natᵒᵈ ×ₗ Identity := toLex (OrderDual.toDual e.work, e.identity)

theorem byRank_iff {a b : Entry} : byRank a b ↔ standingOf a ≤ standingOf b := by
  rw [standingOf, standingOf, Prod.Lex.toLex_le_toLex]
  rfl

instance : Std.Total byRank :=
  ⟨fun a b => (le_total (standingOf a) (standingOf b)).imp byRank_iff.mpr byRank_iff.mpr⟩

instance : IsTrans Entry byRank :=
  ⟨fun _ _ _ hab hbc => byRank_iff.mpr ((byRank_iff.mp hab).trans (byRank_iff.mp hbc))⟩

/-- The verifier takes the miners in the order the window ranks them. -/
theorem ranked_entries (w : WindowView) : (entriesOf w).insertionSort byRank = w.miners.map entryOf := by
  have hperm : ((entriesOf w).insertionSort byRank).Perm (w.miners.map entryOf) :=
    (List.perm_insertionSort ..).trans (entriesOf_perm w)
  have hranked : (w.miners.map entryOf).Pairwise byRank :=
    List.pairwise_map.mpr (w.ranked.imp fun h => h.imp_right fun hw => ⟨hw.1, hw.2.le⟩)
  refine List.Perm.eq_of_pairwise ?_ (List.pairwise_insertionSort ..) hranked hperm
  intro a b ha hb hab hba
  have hid : ((w.miners.map entryOf).map Entry.identity).Nodup := by
    simpa [List.map_map, Function.comp_def, entryOf] using w.distinct
  have hsame : standingOf a = standingOf b := le_antisymm (byRank_iff.mp hab) (byRank_iff.mp hba)
  exact List.inj_on_of_nodup_map hid (hperm.subset ha) hb (congrArg (fun r => (ofLex r).2) hsame)

/-- What the verifier writes down for a payee. -/
def lineOf (q : Payee) : Line := ⟨q.identity, q.sats, hexEncode q.script⟩

/-- The miners the verifier pays: with an offer above the floor, among the payees of the split. -/
def shown (p : SplitParams) (value totalWork : Nat) (paid : List Identity) (m : MinerStat) : Bool :=
  decide (shareOf p value totalWork m ≠ 0 ∧ p.minPayout ≤ shareOf p value totalWork m ∧
    m.identity ∈ paid)

section
variable {p : SplitParams} {value totalWork : Nat} {scriptFor : Identity → Option Bytes}
  {scriptOf : Identity → Option String} {paid : List Identity}

/-- The scripts the verifier infers: those of the payees, and no others. -/
def Inferred (scriptFor : Identity → Option Bytes) (scriptOf : Identity → Option String)
    (paid : List Identity) : Prop :=
  ∀ i, (i ∈ paid → ∃ script, scriptFor i = some script ∧ scriptOf i = some (hexEncode script)) ∧
    (i ∉ paid → scriptOf i = none)

private theorem addEntry_shown (h : Inferred scriptFor scriptOf paid) (t : Sheet) (m : MinerStat) :
    addEntry (paramsOf p) value totalWork scriptOf t (entryOf m) =
      { payees := t.payees ++ ([m].filter (shown p value totalWork paid)).map
          (lineOf ∘ offer p value totalWork scriptFor)
        paid := t.paid + (([m].filter (shown p value totalWork paid)).map
          (shareOf p value totalWork)).sum
        fee := t.fee + feePartOf p value totalWork m
        feeNum := t.feeNum + feeWeight p m } := by
  unfold addEntry
  simp only [bpsFor_paramsOf]
  change (if shareOf p value totalWork m = 0 then _ else if shareOf p value totalWork m < p.minPayout then _ else _) = _
  by_cases hz : shareOf p value totalWork m = 0
  · rw [if_pos hz, List.filter_cons_of_neg (by simp [shown, hz])]
    simp [feePartOf, feeWeight, stratumPart, datumPart, entryOf]
  · rw [if_neg hz]
    by_cases hlow : shareOf p value totalWork m < p.minPayout
    · rw [if_pos hlow, List.filter_cons_of_neg (by simp [shown]; omega)]
      simp [feePartOf, feeWeight, stratumPart, datumPart, entryOf]
    · rw [if_neg hlow]
      by_cases hi : m.identity ∈ paid
      · obtain ⟨script, hs, ho⟩ := (h m.identity).1 hi
        rw [List.filter_cons_of_pos (by simp [shown, hz, hi]; omega)]
        simp only [entryOf, ho]
        simp [feePartOf, feeWeight, stratumPart, datumPart, lineOf, offer, hs, shareOf, keepWeight]
      · rw [List.filter_cons_of_neg (by simp [shown, hi])]
        simp only [entryOf, (h m.identity).2 hi]
        simp [feePartOf, feeWeight, stratumPart, datumPart]

/-- What the verifier's loop over the window writes down. -/
theorem foldl_addEntry (p : SplitParams) (value totalWork : Nat) (h : Inferred scriptFor scriptOf paid) (miners : List MinerStat) (t : Sheet) :
    ∃ fee, (miners.map entryOf).foldl (addEntry (paramsOf p) value totalWork scriptOf) t =
      { payees := t.payees ++ (miners.filter (shown p value totalWork paid)).map
          (lineOf ∘ offer p value totalWork scriptFor)
        paid := t.paid + ((miners.filter (shown p value totalWork paid)).map
          (shareOf p value totalWork)).sum
        fee := fee
        feeNum := t.feeNum + (miners.map (feeWeight p)).sum } := by
  induction miners generalizing t with
  | nil => exact ⟨t.fee, by simp⟩
  | cons m miners ih =>
    rw [List.map_cons, List.foldl_cons, addEntry_shown h]
    refine (ih _).imp fun fee hfee => hfee.trans ?_
    have happ : (m :: miners).filter (shown p value totalWork paid) =
        [m].filter (shown p value totalWork paid) ++ miners.filter (shown p value totalWork paid) := by
      rw [← List.filter_append]; rfl
    rw [happ]
    simp [List.map_append, List.append_assoc, Nat.add_assoc]

end
end WaviclesPrime.Tools
