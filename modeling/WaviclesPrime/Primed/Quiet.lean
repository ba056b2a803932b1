import WaviclesPrime.Primed.MainChain

/-! What a confirm pass that changes nothing has left: the records in range it did not ask about. -/
namespace WaviclesPrime.Primed
open Wire Machine Tides

/-- The records in range, newest first. -/
def eligible (tipHeight : Nat) (blocks : List BlockRecord) : List BlockRecord :=
  blocks.reverse.filter (inRange tipHeight)

/-- Those a pass asks about. -/
def asked (tipHeight : Nat) (blocks : List BlockRecord) : List BlockRecord :=
  (eligible tipHeight blocks).take maxAsked

/-- What an answer makes of the newest record of the hash it is about. -/
def ruledAs (carryForward : Bool) (tipHeight : Nat) (height : UInt32) (r : BlockRecord) :
    Answer → BlockRecord
  | .confirmations n =>
    if 0 < n then if carryForward then carryRecord (confirmRecord r) else confirmRecord r
    else if n < 0 then orphanRecord r else r
  | .unknown => if height.toNat + 6 < tipHeight then orphanRecord r else r
  | .failed => r

/-- The answer changes that record: it is settled, or loses or gains the orphan label, or is carried. -/
def Moves (carryForward : Bool) (tipHeight : Nat) (node : String → Answer) (blocks : List BlockRecord)
    (hash : String) (height : UInt32) : Prop :=
  ∃ r ∈ Journal.latest BlockRecord.hash hash blocks, ruledAs carryForward tipHeight height r (node hash) ≠ r

instance (carryForward : Bool) (tipHeight : Nat) (node : String → Answer) (blocks : List BlockRecord)
    (hash : String) (height : UInt32) :
    Decidable (Moves carryForward tipHeight node blocks hash height) :=
  inferInstanceAs (Decidable (∃ r ∈ Journal.latest BlockRecord.hash hash blocks, _))

/-- How far a record is along the one way the node's answers move it. -/
def progress (node : String → Answer) (r : BlockRecord) : Nat :=
  if (node r.hash).inMainChain then r.settled.toNat + (!r.orphan).toNat + r.carried.toNat
  else r.orphan.toNat

def totalProgress (node : String → Answer) (blocks : List BlockRecord) : Nat :=
  (blocks.map (progress node)).sum

section
variable {t t' : Treasury} {ws : List Write} {hash : String} {height : UInt32} {carryForward : Bool}
  {tipHeight : Nat} {node : String → Answer} {r : BlockRecord} {a : Answer}

theorem confirmRecord_eq (hs : r.settled = true) (ho : r.orphan = false) : confirmRecord r = r := by
  cases r
  simp_all [confirmRecord]

theorem carryRecord_eq (hc : r.carried = true) : carryRecord r = r := by
  cases r
  simp_all [carryRecord]

theorem orphanRecord_eq (ho : r.orphan = true) : orphanRecord r = r := by
  cases r
  simp_all [orphanRecord]

section
variable {before after : List BlockRecord} {c : Carry} (hr : r.hash = hash)
  (hafter : ∀ x ∈ after, x.hash ≠ hash)
include hr hafter

theorem markOrphan_newest :
    (Treasury.markOrphan ⟨before ++ r :: after, c⟩ hash).1.blocks = before ++ orphanRecord r :: after := by
  have hfind := Journal.find_reverse_split before (p := fun x => decide (x.hash = hash)) (r := r)
    (decide_eq_true hr) fun x (hx : x ∈ after) => decide_eq_false (hafter x hx)
  rw [Treasury.markOrphan, hfind]
  dsimp only
  split
  next ho => rw [orphanRecord_eq ho]
  next => rw [Treasury.updateBlock_newest hr hafter]

theorem applyCarry_newest (hs : r.settled = true)
    (run : Treasury.applyCarryForSettled carryForward ⟨before ++ r :: after, c⟩ hash = ⟨ws, .ok t'⟩) :
    t'.blocks = before ++ (if carryForward then carryRecord r else r) :: after := by
  rcases Treasury.applyCarry_ok run with ⟨rfl, -, hnone⟩ | ⟨x, more, rfl, -, -, hput, -⟩
  · cases carryForward with
    | false => rfl
    | true =>
      have hno := List.find?_eq_none.mp (hnone rfl) r (by simp)
      have hc : r.carried = true := by simpa [hr, hs] using hno
      rw [if_pos rfl, carryRecord_eq hc]
  · rw [Treasury.updateBlock_newest hr hafter] at hput
    rw [← (Prod.mk.inj hput).1, if_pos rfl]

theorem checkBlock_newest (run : Treasury.checkBlock carryForward tipHeight ⟨before ++ r :: after, c⟩ hash
    height a = ⟨ws, .ok t'⟩) : t'.blocks = before ++ ruledAs carryForward tipHeight height r a :: after := by
  cases a with
  | failed =>
    cases run
    rfl
  | unknown =>
    obtain ⟨past, _, more, hpast, run, -⟩ := Traced.bind_eq_ok.mp run
    obtain ⟨-, rfl⟩ := checkedAdd_eq_some.mp (Traced.require_eq_ok.mp hpast).1
    rw [ruledAs]
    split at run
    next hlost =>
      cases run
      rw [if_pos hlost, ← markOrphan_newest hr hafter]
    next hlost =>
      cases run
      rw [if_neg hlost]
  | confirmations n =>
    rw [Treasury.checkBlock] at run
    rw [ruledAs]
    split at run
    next hpos =>
      rw [Treasury.updateBlock_newest hr hafter] at run
      obtain ⟨t₁, _, more, hmark, hmove, -⟩ := Traced.bind_eq_ok.mp run
      cases hmark
      have hcarry := applyCarry_newest (r := confirmRecord r) hr hafter rfl hmove
      rw [if_pos hpos]
      exact hcarry
    next hpos =>
      rw [if_neg hpos]
      split at run
      next hneg =>
        cases run
        rw [if_pos hneg, ← markOrphan_newest hr hafter]
      next hneg =>
        cases run
        rw [if_neg hneg]

end

/-- An answer about a hash that is not recorded changes nothing. -/
theorem checkBlock_absent (hno : ∀ x ∈ t.blocks, x.hash ≠ hash)
    (run : t.checkBlock carryForward tipHeight hash height a = ⟨ws, .ok t'⟩) : t'.blocks = t.blocks := by
  have horphan : t.markOrphan hash = (t, []) := by
    have hfind : t.blocks.reverse.find? (fun x => x.hash = hash) = none :=
      List.find?_eq_none.mpr fun x hx => by simp [hno x (List.mem_reverse.mp hx)]
    rw [Treasury.markOrphan, hfind]
  cases a with
  | failed =>
    cases run
    rfl
  | unknown =>
    obtain ⟨past, _, more, -, run, -⟩ := Traced.bind_eq_ok.mp run
    rw [horphan] at run
    split at run <;> cases run <;> rfl
  | confirmations n =>
    rw [Treasury.checkBlock, horphan, Treasury.updateBlock_absent hno] at run
    split at run
    next =>
      obtain ⟨t₁, _, more, hmark, hmove, -⟩ := Traced.bind_eq_ok.mp run
      cases hmark
      rcases Treasury.applyCarry_ok hmove with ⟨rfl, -⟩ | ⟨x, _, -, -, hfind, -⟩
      · rfl
      · have hx := List.find?_some hfind
        simp [hno x (List.mem_reverse.mp (List.mem_of_find?_eq_some hfind))] at hx
    next => split at run <;> cases run <;> rfl

/-- The record an answer changes gets further, and never back. -/
theorem progress_ruledAs (carryForward : Bool) (tipHeight : Nat) (height : UInt32) (r : BlockRecord) :
    ruledAs carryForward tipHeight height r (node r.hash) = r ∨
      progress node r < progress node (ruledAs carryForward tipHeight height r (node r.hash)) := by
  have horphan (hout : (node r.hash).inMainChain = false) :
      orphanRecord r = r ∨ progress node r < progress node (orphanRecord r) := by
    cases ho : r.orphan with
    | true => exact .inl (orphanRecord_eq ho)
    | false =>
      refine .inr ?_
      simp [progress, hout, ho, orphanRecord]
  cases ha : node r.hash with
  | failed => exact .inl rfl
  | unknown =>
    rw [ruledAs]
    split
    · exact horphan (by rw [ha]; rfl)
    · exact .inl rfl
  | confirmations n =>
    rw [ruledAs]
    split
    next hpos =>
      have hin : (node r.hash).inMainChain = true := by rw [ha]; exact decide_eq_true hpos
      have hmarks (x : BlockRecord) (hx : x.hash = r.hash) :
          progress node x = x.settled.toNat + (!x.orphan).toNat + x.carried.toNat := by
        rw [progress, hx, if_pos hin]
      have hcarried := Bool.toNat_le r.carried
      cases hdone : r.settled && !r.orphan with
      | true =>
        rw [Bool.and_eq_true, Bool.not_eq_true'] at hdone
        rw [confirmRecord_eq hdone.1 hdone.2]
        cases carryForward with
        | false => exact .inl rfl
        | true =>
          cases hc : r.carried with
          | true => exact .inl (carryRecord_eq hc)
          | false =>
            refine .inr ?_
            rw [hmarks r rfl, if_pos rfl, hmarks (carryRecord r) rfl]
            simp [carryRecord, hc]
      | false =>
        refine .inr ?_
        have hshort : r.settled.toNat + (!r.orphan).toNat ≤ 1 := by
          revert hdone
          cases r.settled <;> cases r.orphan <;> decide
        have hconfirmed : progress node (confirmRecord r) = 2 + r.carried.toNat := by
          rw [hmarks (confirmRecord r) rfl]
          simp [confirmRecord]
        rw [hmarks r rfl]
        cases carryForward with
        | false =>
          rw [if_neg Bool.false_ne_true, hconfirmed]
          omega
        | true =>
          rw [if_pos rfl, hmarks (carryRecord (confirmRecord r)) rfl]
          simp only [carryRecord, confirmRecord, Bool.not_false, Bool.toNat_true]
          omega
    next hpos =>
      split
      · exact horphan (by rw [ha]; exact decide_eq_false hpos)
      · exact .inl rfl

/-- One answer leaves every record as it is, or takes the records further. -/
theorem checkBlock_progress
    (run : t.checkBlock carryForward tipHeight hash height (node hash) = ⟨ws, .ok t'⟩) :
    (¬ Moves carryForward tipHeight node t.blocks hash height ∧ t'.blocks = t.blocks) ∨
    (Moves carryForward tipHeight node t.blocks hash height ∧
      totalProgress node t.blocks < totalProgress node t'.blocks) := by
  unfold Moves
  cases hlast : Journal.latest BlockRecord.hash hash t.blocks with
  | none =>
    have hno := Journal.latest_eq_none.mp hlast
    refine .inl ⟨by simp, checkBlock_absent (fun x hx heq => hno ?_) run⟩
    rw [← heq]
    exact List.mem_map_of_mem hx
  | some r =>
    have hr : r.hash = hash := Journal.key_of_latest hlast
    obtain ⟨before, after, hblocks, hafter⟩ := Journal.latest_split hlast
    obtain ⟨blocks, c⟩ := t
    obtain rfl : blocks = before ++ r :: after := hblocks
    have hnext := checkBlock_newest hr hafter run
    rw [← hr] at hnext
    simp only [Option.mem_some_iff, exists_eq_left', ← hr]
    rcases progress_ruledAs carryForward tipHeight height r with hsame | hless
    · rw [hsame] at hnext
      exact .inl ⟨fun hne => hne hsame, hnext⟩
    · refine .inr ⟨fun heq => ?_, ?_⟩
      · rw [heq] at hless
        exact Nat.lt_irrefl _ hless
      · rw [hnext]
        simp only [totalProgress, List.map_append, List.map_cons, List.sum_append, List.sum_cons]
        omega

/-- A pass leaves every record as it is exactly when no answer changes one of them as they are before
the pass: what one answer changes no other changes back. -/
theorem checkAll_unchanged {es : List (String × UInt32)}
    (run : t.checkAll carryForward tipHeight node es = ⟨ws, .ok t'⟩) :
    totalProgress node t.blocks ≤ totalProgress node t'.blocks ∧
      (t'.blocks = t.blocks ↔ ∀ e ∈ es, ¬ Moves carryForward tipHeight node t.blocks e.1 e.2) := by
  induction es generalizing t ws with
  | nil =>
    cases run
    exact ⟨Nat.le_refl _, by simp⟩
  | cons e es ih =>
    obtain ⟨mid, first, more, hone, hrest, -⟩ := Traced.bind_eq_ok.mp run
    obtain ⟨hle, hiff⟩ := ih hrest
    rw [List.forall_mem_cons]
    rcases checkBlock_progress hone with ⟨hstill, hmid⟩ | ⟨hmoves, hless⟩
    · rw [hmid] at hle hiff
      exact ⟨hle, hiff.trans (and_iff_right hstill).symm⟩
    · refine ⟨Nat.le_of_lt (hless.trans_le hle), iff_of_false (fun heq => ?_) fun h => h.1 hmoves⟩
      rw [heq] at hle
      omega

/-- A record that is asked about and is the newest of its hash moves when the node has its block. -/
theorem moves_of_asked (hr : r ∈ eligible tipHeight t.blocks) (hin : (node r.hash).inMainChain = true)
    (hlast : Journal.latest BlockRecord.hash r.hash t.blocks = some r) :
    Moves carryForward tipHeight node t.blocks r.hash r.height := by
  have hunsettled : r.settled = false := by
    have hrange := (List.mem_filter.mp hr).2
    simp only [inRange, Bool.and_eq_true, Bool.not_eq_true'] at hrange
    exact hrange.1
  refine ⟨r, hlast, fun heq => ?_⟩
  have hsettled : (ruledAs carryForward tipHeight r.height r (node r.hash)).settled = true := by
    cases ha : node r.hash with
    | failed => simp [ha, Answer.inMainChain] at hin
    | unknown => simp [ha, Answer.inMainChain] at hin
    | confirmations n =>
      have hpos : 0 < n := by simpa [ha, Answer.inMainChain] using hin
      rw [ruledAs, if_pos hpos]
      cases carryForward <;> rfl
  rw [heq, hunsettled] at hsettled
  exact absurd hsettled (by decide)

/-- A pass that changes nothing has left nothing to confirm, exactly when every record in range whose
block the node has is among those asked about and the newest of its hash, or some answer changes a record. -/
theorem quiet_pass_iff
    (run : t.confirmBlocks carryForward tipHeight node = ⟨ws, .ok t'⟩) :
    (t'.blocks = t.blocks → ∀ r ∈ eligible tipHeight t.blocks, (node r.hash).inMainChain = false) ↔
    ∀ r ∈ eligible tipHeight t.blocks, (node r.hash).inMainChain = true →
      (r ∈ asked tipHeight t.blocks ∧ Journal.latest BlockRecord.hash r.hash t.blocks = some r) ∨
      ∃ x ∈ asked tipHeight t.blocks, Moves carryForward tipHeight node t.blocks x.hash x.height := by
  obtain ⟨_, _, more, hpending, run, -⟩ := Traced.bind_eq_ok.mp run
  obtain ⟨ys, hys, rfl⟩ : ∃ ys, askAbout tipHeight maxAsked t.blocks.reverse = some ys ∧ _ := by
    simpa only [Treasury.pending, Option.bind_eq_bind, Option.bind_eq_some_iff, Option.some.injEq]
      using (Traced.require_eq_ok.mp hpending).1
  obtain rfl : ys = asked tipHeight t.blocks := (askAbout_eq hys).1
  have hquiet := (checkAll_unchanged run).2
  rw [List.forall_mem_map] at hquiet
  rw [hquiet]
  constructor
  · intro h r hr hin
    by_contra hno
    rw [not_or] at hno
    have hout := h (fun x hx hm => hno.2 ⟨x, hx, hm⟩) r hr
    simp [hout] at hin
  · intro h hstill r hr
    by_contra hin
    rcases h r hr (by simpa using hin) with ⟨hasked, hlast⟩ | ⟨x, hx, hm⟩
    · exact hstill r hasked (moves_of_asked hr (by simpa using hin) hlast)
    · exact hstill x hx hm

end
/-- As many labelled orphans as a pass asks about. -/
def orphans : List BlockRecord :=
  (List.range 20).map fun i => { sampleRecord with hash := String.ofList (List.replicate i 'o'), orphan := true }

/-- A node that has one block in the main chain, and knows of the others' orphaning. -/
def oneReal (hash : String) : Answer := .confirmations (if hash = "real" then 3 else -1)

/-- The orphans alone are left as they are, and none of them is in the main chain. -/
theorem quiet_pass_orphans : ∃ t' ws,
    Treasury.confirmBlocks true 101 oneReal ⟨orphans, .empty⟩ = ⟨ws, .ok t'⟩ ∧ t'.blocks = orphans ∧
      ∀ r ∈ eligible 101 orphans, (oneReal r.hash).inMainChain = false := by
  have hstop : (Treasury.confirmBlocks true 101 oneReal ⟨orphans, .empty⟩).stop = none := by decide +kernel
  have hdec : (Treasury.confirmBlocks true 101 oneReal ⟨orphans, .empty⟩).result.toOption.map
      Treasury.blocks = some orphans := by decide +kernel
  obtain ⟨ws, t', run⟩ := Traced.stop_eq_none.mp hstop
  rw [run] at hdec
  have hsame : t'.blocks = orphans := Option.some.inj hdec
  exact ⟨t', ws, run, hsame, (quiet_pass_iff run).mpr (by decide +kernel) hsame⟩

/-- Below them a block the node has, which no pass asks about. -/
theorem orphans_hide_block : ∃ t' ws,
    Treasury.confirmBlocks true 101 oneReal ⟨{ sampleRecord with hash := "real" } :: orphans, .empty⟩
      = ⟨ws, .ok t'⟩ ∧ t'.blocks = { sampleRecord with hash := "real" } :: orphans ∧
      ∃ r ∈ eligible 101 ({ sampleRecord with hash := "real" } :: orphans),
        (oneReal r.hash).inMainChain = true := by
  let blocks := { sampleRecord with hash := "real" } :: orphans
  have hstop : (Treasury.confirmBlocks true 101 oneReal ⟨blocks, .empty⟩).stop = none := by decide +kernel
  have hdec : (Treasury.confirmBlocks true 101 oneReal ⟨blocks, .empty⟩).result.toOption.map
      Treasury.blocks = some blocks := by decide +kernel
  obtain ⟨ws, t', run⟩ := Traced.stop_eq_none.mp hstop
  rw [run] at hdec
  exact ⟨t', ws, run, Option.some.inj hdec, by decide +kernel⟩

end WaviclesPrime.Primed
