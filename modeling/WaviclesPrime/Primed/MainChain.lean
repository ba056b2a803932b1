import WaviclesPrime.Primed.Restart

/-! Which blocks the carry ledger reflects, over any blocks recorded and any confirm passes. -/
namespace WaviclesPrime.Primed
open Wire Machine Tides

/-- The node has the block in the main chain. -/
def Answer.inMainChain : Answer → Bool
  | .confirmations n => 0 < n
  | .unknown => false
  | .failed => false

/-- The hashes a pass asked about that the node has in the main chain. -/
def placedBy (node : String → Answer) (asked : List (String × UInt32)) : List String :=
  (asked.map Prod.fst).filter fun hash => (node hash).inMainChain

/-- The histories of a treasury: the blocks recorded in it, and the hashes the node has placed in the
main chain when asked about them. -/
inductive History (carryForward : Bool) (c : Carry) :
    List BlockRecord → List String → Treasury → Prop where
  | start : History carryForward c [] [] ⟨[], c⟩
  | record {recorded placed t} {r : BlockRecord} (h : History carryForward c recorded placed t)
      (settled : r.settled = false) (carried : r.carried = false)
      (fresh : r.hash ∉ recorded.map BlockRecord.hash) :
      History carryForward c (recorded ++ [r]) placed (t.recordBlock r).1
  | pass {recorded placed t t' tipHeight node asked ws} (h : History carryForward c recorded placed t)
      (asks : t.pending tipHeight = some asked)
      (run : t.confirmBlocks carryForward tipHeight node = ⟨ws, .ok t'⟩) :
      History carryForward c recorded (placed ++ placedBy node asked) t'

/-- The records of some hashes. -/
def recordsOf (recorded : List BlockRecord) (hashes : List String) : List BlockRecord :=
  hashes.filterMap fun hash => recorded.find? fun r => r.hash = hash

def settleInto (carryForward : Bool) (c : Carry) (r : BlockRecord) : Carry :=
  if carryForward then c.applied r.carryPaid r.unpaid else c

/-- What holds throughout: the ledger is the first one with the placed blocks settled into it, and the
blocks still held are settled exactly when placed. -/
structure Follows (carryForward : Bool) (c : Carry) (recorded : List BlockRecord)
    (placed : List String) (t : Treasury) : Prop where
  kept : t.Kept
  distinct : (recorded.map BlockRecord.hash).Nodup
  once : placed.Nodup
  known : ∀ hash ∈ placed, hash ∈ recorded.map BlockRecord.hash
  same : ∀ b ∈ t.blocks, ∃ r ∈ recorded,
    r.hash = b.hash ∧ r.carryPaid = b.carryPaid ∧ r.unpaid = b.unpaid
  settled : ∀ b ∈ t.blocks, b.settled = true ↔ b.hash ∈ placed
  carry : t.carry = (recordsOf recorded placed).foldl (settleInto carryForward) c

section
variable {carryForward : Bool} {c : Carry} {recorded : List BlockRecord} {placed : List String}
  {t : Treasury} {r : BlockRecord} {q : Ruling}

theorem find_recorded (hn : (recorded.map BlockRecord.hash).Nodup) (h : r ∈ recorded) :
    (recorded.find? fun x => x.hash = r.hash) = some r := by
  have hone := Treasury.find_reverse (t := ⟨recorded.reverse, .empty⟩) (r := r)
    (by simpa using hn) (by simpa using h) fun _ => true
  simpa using hone

/-- Recording another block leaves the records of the placed ones as they are. -/
theorem recordsOf_append (hknown : ∀ hash ∈ placed, hash ∈ recorded.map BlockRecord.hash)
    (more : List BlockRecord) : recordsOf (recorded ++ more) placed = recordsOf recorded placed := by
  refine List.filterMap_congr fun hash hmem => ?_
  obtain ⟨x, hx, rfl⟩ := List.mem_map.mp (hknown hash hmem)
  rw [List.find?_append, Option.or_of_isSome]
  exact List.find?_isSome.mpr ⟨x, hx, by simp⟩

theorem Follows.record (h : Follows carryForward c recorded placed t) (hs : r.settled = false)
    (hc : r.carried = false) (hfresh : r.hash ∉ recorded.map BlockRecord.hash) :
    Follows carryForward c (recorded ++ [r]) placed (t.recordBlock r).1 := by
  have hsub : (t.recordBlock r).1.blocks.Sublist (t.blocks ++ [r]) := by
    rw [Treasury.recordBlock_blocks]
    exact newest_sublist ..
  have hcases : ∀ b ∈ (t.recordBlock r).1.blocks, b ∈ t.blocks ∨ b = r := by
    intro b hb
    simpa using hsub.subset hb
  have hnew : r.hash ∉ t.blocks.map BlockRecord.hash := by
    intro hmem
    obtain ⟨b, hb, heq⟩ := List.mem_map.mp hmem
    obtain ⟨x, hx, hxb, -⟩ := h.same b hb
    exact hfresh (heq ▸ hxb ▸ List.mem_map_of_mem hx)
  constructor
  · refine ⟨List.Nodup.sublist (hsub.map _) ?_, fun b hb => ?_⟩
    · rw [List.map_append, List.map_singleton]
      exact h.kept.distinct.append (List.nodup_singleton _) (by simpa using hnew)
    · rcases hcases b hb with hb | rfl
      · exact h.kept.carried b hb
      · simp [hc]
  · rw [List.map_append, List.map_singleton]
    exact h.distinct.append (List.nodup_singleton _) (by simpa using hfresh)
  · exact h.once
  · intro hash hmem
    rw [List.map_append]
    exact List.mem_append_left _ (h.known hash hmem)
  · intro b hb
    rcases hcases b hb with hb | rfl
    · obtain ⟨x, hx, hxb⟩ := h.same b hb
      exact ⟨x, List.mem_append_left _ hx, hxb⟩
    · exact ⟨b, List.mem_append_right _ (List.mem_singleton_self b), rfl, rfl, rfl⟩
  · intro b hb
    rcases hcases b hb with hb | rfl
    · exact h.settled b hb
    · simp only [hs, Bool.false_eq_true, false_iff]
      exact fun hmem => hfresh (h.known _ hmem)
  · rw [recordsOf_append h.known, Treasury.recordBlock_carry]
    exact h.carry

/-- A ruling places its block in the main chain exactly when the answer does. -/
theorem Follows.ruling {tipHeight : Nat} {a : Answer} {ws : List Write} (h : Follows carryForward c recorded placed t)
    (hr : r ∈ t.blocks) (hs : r.settled = false)
    (hq : judge carryForward tipHeight t.carry r a = ⟨ws, .ok q⟩) :
    Follows carryForward c recorded (if a.inMainChain then placed ++ [r.hash] else placed)
      (t.after q) := by
  have hkept : (t.after q).Kept := h.kept.after hr hq
  have hfresh : r.hash ∉ placed := fun hmem => by simp [(h.settled r hr).mpr hmem] at hs
  obtain ⟨x, hx, hhash, hcarry, hunpaid⟩ := h.same r hr
  have hin : ∀ b ∈ (t.after q).blocks, (b = q.record) ∨ (b ∈ t.blocks ∧ b.hash ≠ q.record.hash) := by
    intro b hb
    exact (mem_putRecord.mp hb).imp And.left id
  obtain ⟨hqhash, hqc, hqu⟩ := judge_same hq
  have hsame : ∀ b ∈ (t.after q).blocks, ∃ x ∈ recorded,
      x.hash = b.hash ∧ x.carryPaid = b.carryPaid ∧ x.unpaid = b.unpaid := by
    intro b hb
    rcases hin b hb with rfl | ⟨hb, -⟩
    · exact ⟨x, hx, hhash.trans hqhash.symm, hcarry.trans hqc.symm, hunpaid.trans hqu.symm⟩
    · exact h.same b hb
  rcases judge_ok hq with ⟨rfl, -, -, n, hpos, rfl⟩ | ⟨hq', hneg⟩
  · rw [if_pos (show (Answer.confirmations n).inMainChain = true by simpa [Answer.inMainChain] using hpos)]
    have hsettle : (Ruling.settled carryForward t.carry r).record.settled = true ∧
        (Ruling.settled carryForward t.carry r).carry = settleInto carryForward t.carry r := by
      cases carryForward with
      | true => exact ⟨rfl, rfl⟩
      | false => exact ⟨rfl, rfl⟩
    obtain ⟨hqs, hled⟩ := hsettle
    refine ⟨hkept, h.distinct, ?_, ?_, hsame, ?_, ?_⟩
    · exact h.once.append (List.nodup_singleton _) (by simpa using hfresh)
    · intro hash hmem
      rcases List.mem_append.mp hmem with hmem | hmem
      · exact h.known hash hmem
      · rw [List.mem_singleton.mp hmem, ← hhash]
        exact List.mem_map_of_mem hx
    · intro b hb
      rcases hin b hb with rfl | ⟨hb, hne⟩
      · simp [hqs, hqhash]
      · rw [hqhash] at hne
        simp [h.settled b hb, hne]
    · have hone : recordsOf recorded [r.hash] = [x] := by
        simp [recordsOf, ← hhash, find_recorded h.distinct hx]
      have happ : recordsOf recorded (placed ++ [r.hash]) = recordsOf recorded placed ++ [x] := by
        rw [← hone]
        exact List.filterMap_append
      rw [happ, List.foldl_append, ← h.carry]
      simp only [Treasury.after, hled, List.foldl_cons, List.foldl_nil, settleInto, hcarry, hunpaid]
  · have hout : a.inMainChain = false := by
      cases a with
      | confirmations n => simpa [Answer.inMainChain] using hneg n rfl
      | unknown => rfl
      | failed => rfl
    obtain ⟨hqs, hled⟩ : q.record.settled = r.settled ∧ q.carry = t.carry := by
      rcases hq' with ⟨rfl, -⟩ | ⟨rfl, -⟩
      · exact ⟨rfl, rfl⟩
      · exact ⟨rfl, rfl⟩
    simp only [hout, Bool.false_eq_true, if_false]
    refine ⟨hkept, h.distinct, h.once, h.known, hsame, ?_, ?_⟩
    · intro b hb
      rcases hin b hb with rfl | ⟨hb, -⟩
      · rw [hqs, hqhash]
        exact h.settled r hr
      · exact h.settled b hb
    · exact hled.trans h.carry

theorem Follows.pass {t' : Treasury} {tipHeight : Nat} {node : String → Answer}
    {asked : List (String × UInt32)} {ws : List Write} (h : Follows carryForward c recorded placed t)
    (hask : t.pending tipHeight = some asked)
    (run : t.confirmBlocks carryForward tipHeight node = ⟨ws, .ok t'⟩) :
    Follows carryForward c recorded (placed ++ placedBy node asked) t' := by
  let new (done : List BlockRecord) : List String :=
    (done.map BlockRecord.hash).filter fun hash => (node hash).inMainChain
  have hstep : ∀ done t before r q ws,
      Treasury.StandsBefore (fun done t _ => Follows carryForward c recorded (placed ++ new done) t) t r done before →
      judge carryForward tipHeight t.carry r (node r.hash) = ⟨ws, .ok q⟩ →
      Follows carryForward c recorded (placed ++ new (done ++ [r])) (t.after q) := by
    intro done t _ r q _ hstands hq
    have hnext := hstands.holds.ruling hstands.mem hstands.unsettled hq
    cases hin : (node r.hash).inMainChain with
    | true => simpa [new, hin, List.filter_append] using hnext
    | false => simpa [new, hin, List.filter_append] using hnext
  obtain ⟨done, hdone, -, hfollows⟩ :=
    (Treasury.confirmBlocks_rule hstep h.kept (by simpa [new] using h)).1 t' ws run
  simp only [Treasury.pending, hdone, Option.bind_eq_bind, Option.bind_some, Option.some.injEq] at hask
  subst hask
  simpa [placedBy, List.map_map, Function.comp_def] using hfollows

theorem History.follows (h : History carryForward c recorded placed t) :
    Follows carryForward c recorded placed t := by
  induction h with
  | start => exact ⟨⟨.nil, by simp⟩, .nil, .nil, by simp, by simp, by simp, rfl⟩
  | record _ settled carried fresh ih => exact ih.record settled carried fresh
  | pass _ asks run ih => exact ih.pass asks run

/-- A block in memory is placed by a pass if the pass asks about it and the node has it. -/
theorem mem_placedBy {tipHeight : Nat} {node : String → Answer} {asked : List (String × UInt32)}
    (hk : t.Kept) (hask : t.pending tipHeight = some asked) (hr : r ∈ t.blocks) :
    r.hash ∈ placedBy node asked → recheck tipHeight r = some true ∧ (node r.hash).inMainChain := by
  simp only [Treasury.pending, Option.bind_eq_bind, Option.bind_eq_some_iff, Option.some.injEq] at hask
  obtain ⟨done, hdone, rfl⟩ := hask
  intro hmem
  obtain ⟨hin, hnode⟩ := List.mem_filter.mp hmem
  rw [List.map_map] at hin
  obtain ⟨x, hx, hhash⟩ := List.mem_map.mp hin
  have hxt : x ∈ t.blocks := List.mem_reverse.mp ((askAbout_sublist hdone).subset hx)
  obtain rfl := List.inj_on_of_nodup_map hk.distinct hxt hr hhash
  exact ⟨(askAbout_eq hdone).2 x hx, hnode⟩

/-- After a pass that asked about every block inside its recheck range, the ledger is the first one
with exactly the placed blocks settled into it, once each: those that settled before, and those in range
that the node now has in the main chain. -/
theorem carry_follows_answers {t' : Treasury} {tipHeight : Nat} {node : String → Answer}
    {asked : List (String × UInt32)} {ws : List Write} (h : History carryForward c recorded placed t)
    (hask : t.pending tipHeight = some asked)
    (hall : ∀ b ∈ t.blocks, recheck tipHeight b = some true → (b.hash, b.height) ∈ asked)
    (run : t.confirmBlocks carryForward tipHeight node = ⟨ws, .ok t'⟩) :
    t'.carry = (recordsOf recorded (placed ++ placedBy node asked)).foldl (settleInto carryForward) c ∧
      (placed ++ placedBy node asked).Nodup ∧ ∀ b ∈ t.blocks,
        (b.hash ∈ placed ++ placedBy node asked ↔
          b.settled = true ∨ recheck tipHeight b = some true ∧ (node b.hash).inMainChain) ∧
        (b.settled = true ↔ b.hash ∈ placed) := by
  have hold := h.follows
  have hnew := hold.pass hask run
  refine ⟨hnew.carry, hnew.once, fun b hb => ⟨?_, hold.settled b hb⟩⟩
  rw [List.mem_append, hold.settled b hb]
  refine or_congr_right ⟨mem_placedBy hold.kept hask hb, fun ⟨hin, hnode⟩ => ?_⟩
  exact List.mem_filter.mpr ⟨List.mem_map.mpr ⟨_, hall b hb hin, rfl⟩, hnode⟩

end

theorem sampleRecorded (carryForward : Bool) : History carryForward .empty [sampleRecord] []
    (Treasury.recordBlock ⟨[], .empty⟩ sampleRecord).1 :=
  .record .start rfl rfl (by simp)

theorem carry_follows_answers_one : ∃ t' ws,
    (Treasury.recordBlock ⟨[], .empty⟩ sampleRecord).1.confirmBlocks true 101
      (fun _ => .confirmations 1) = ⟨ws, .ok t'⟩ ∧
    t'.carry = Carry.empty.applied sampleRecord.carryPaid sampleRecord.unpaid := by
  have hrun : ((Treasury.recordBlock ⟨[], .empty⟩ sampleRecord).1.confirmBlocks true 101
      fun _ => .confirmations 1).stop = none := by decide +kernel
  obtain ⟨ws, t', run⟩ := Traced.stop_eq_none.mp hrun
  have hask : (Treasury.recordBlock ⟨[], .empty⟩ sampleRecord).1.pending 101 =
      some [("00ab", 100)] := by decide +kernel
  refine ⟨t', ws, run, (carry_follows_answers (sampleRecorded true) hask ?_ run).1⟩
  intro b hb _
  rw [Treasury.recordBlock_blocks] at hb
  obtain rfl : b = sampleRecord := by simpa using (newest_sublist ..).subset hb
  exact List.mem_singleton_self _

/-- A block confirmed in one pass and off the main chain in the next: its amounts stay in the ledger. -/
theorem reorganised_block_stays : ∃ t t' ws, History true .empty [sampleRecord] ["00ab"] t ∧
    t.confirmBlocks true 102 (fun _ => .confirmations (-1)) = ⟨ws, .ok t'⟩ ∧ t'.carry ≠ .empty := by
  let passes := (Treasury.recordBlock ⟨[], .empty⟩ sampleRecord).1.confirmBlocks true 101
    (fun _ => .confirmations 1) >>= fun t => t.confirmBlocks true 102 fun _ => .confirmations (-1)
  have hrun : passes.stop = none := by decide +kernel
  have hcarry : passes.result.toOption.any (fun t => t.carry ≠ .empty) = true := by decide +kernel
  obtain ⟨_, t', run⟩ := Traced.stop_eq_none.mp hrun
  rw [run] at hcarry
  obtain ⟨t, _, ws, hfirst, hsecond, -⟩ := Traced.bind_eq_ok.mp run
  have hask : (Treasury.recordBlock ⟨[], .empty⟩ sampleRecord).1.pending 101 =
      some [("00ab", 100)] := by decide +kernel
  exact ⟨t, t', ws, .pass (sampleRecorded true) hask hfirst, hsecond, by simpa [Except.toOption] using hcarry⟩

end WaviclesPrime.Primed
