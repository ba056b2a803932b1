import WaviclesPrime.Primed.Treasury

/-! What a confirm pass does, one record at a time. -/
namespace WaviclesPrime.Primed
open Wire Machine Tides

/-- What an answer means for one record: the record it becomes, and the ledger. -/
structure Ruling where
  record : BlockRecord
  carry : Carry

namespace Ruling

/-- The record is left as it is. -/
def keep (c : Carry) (r : BlockRecord) : Ruling := ⟨r, c⟩

def orphan (c : Carry) (r : BlockRecord) : Traced Write Overflow Ruling :=
  if r.orphan then pure (keep c r) else ⟨[.line (orphanRecord r)], .ok ⟨orphanRecord r, c⟩⟩

/-- What a settlement that goes through leaves. -/
def settled (carryForward : Bool) (c : Carry) (r : BlockRecord) : Ruling :=
  if carryForward then ⟨carryRecord (confirmRecord r), c.applied r.carryPaid r.unpaid⟩
  else ⟨confirmRecord r, c⟩

/-- And what it writes. -/
def settleWrites (carryForward : Bool) (c : Carry) (r : BlockRecord) : List Write :=
  if carryForward then [.line (confirmRecord r), .ledger (c.applied r.carryPaid r.unpaid) (confirmRecord r),
    .line (carryRecord (confirmRecord r))]
  else [.line (confirmRecord r)]

/-- A settlement: with carry-forward it stops after its first line when a sum does not fit. -/
def settle (carryForward : Bool) (c : Carry) (r : BlockRecord) : Traced Write Overflow Ruling :=
  if carryForward = true ∧ ¬ SumsFit r then ⟨[.line (confirmRecord r)], .error .sats⟩
  else ⟨settleWrites carryForward c r, .ok (settled carryForward c r)⟩

end Ruling

/-- The ruling on a record that has not settled. -/
def judge (carryForward : Bool) (tipHeight : Nat) (c : Carry) (r : BlockRecord) :
    Answer → Traced Write Overflow Ruling
  | .confirmations n =>
    if 0 < n then Ruling.settle carryForward c r else if n < 0 then Ruling.orphan c r else pure (.keep c r)
  | .unknown => do
    let past ← .require .height (checkedAdd sizeU32 r.height.toNat 6)
    if past < tipHeight then Ruling.orphan c r else pure (.keep c r)
  | .failed => pure (.keep c r)

/-- A record a pass could still settle: it has not, and is within its range of the tip. -/
def inRange (tipHeight : Nat) (r : BlockRecord) : Bool :=
  !r.settled && decide (tipHeight < r.height.toNat + if r.orphan then orphanRecheckBlocks else recheckBlocks)

/-- Put a record in the place of the one with its hash. -/
def putRecord (r : BlockRecord) (blocks : List BlockRecord) : List BlockRecord :=
  blocks.map fun b => if b.hash = r.hash then r else b

@[simp] theorem hash_confirmRecord (r : BlockRecord) : (confirmRecord r).hash = r.hash := rfl

@[simp] theorem hash_carryRecord (r : BlockRecord) : (carryRecord r).hash = r.hash := rfl

@[simp] theorem hash_orphanRecord (r : BlockRecord) : (orphanRecord r).hash = r.hash := rfl

@[simp] theorem hash_putRecord (r : BlockRecord) (blocks : List BlockRecord) :
    (putRecord r blocks).map BlockRecord.hash = blocks.map BlockRecord.hash :=
  Journal.map_replace r blocks

theorem mem_putRecord {r b : BlockRecord} {blocks : List BlockRecord} :
    b ∈ putRecord r blocks ↔
      (b = r ∧ r.hash ∈ blocks.map BlockRecord.hash) ∨ (b ∈ blocks ∧ b.hash ≠ r.hash) := by
  simp only [putRecord, List.mem_map]
  constructor
  · rintro ⟨x, hx, rfl⟩
    split
    next h => exact .inl ⟨rfl, x, hx, h⟩
    next h => exact .inr ⟨hx, h⟩
  · rintro (⟨rfl, x, hx, h⟩ | ⟨hb, h⟩)
    · exact ⟨x, hx, if_pos h⟩
    · exact ⟨b, hb, if_neg h⟩

theorem putRecord_putRecord {r s : BlockRecord} (h : s.hash = r.hash) (blocks : List BlockRecord) :
    putRecord s (putRecord r blocks) = putRecord s blocks := by
  simp only [putRecord, List.map_map]
  refine List.map_congr_left fun b _ => ?_
  rw [Function.comp_apply]
  by_cases hb : b.hash = r.hash <;> simp [hb, h]

theorem putRecord_self {r : BlockRecord} {blocks : List BlockRecord}
    (hn : (blocks.map BlockRecord.hash).Nodup) (h : r ∈ blocks) : putRecord r blocks = blocks := by
  refine (List.map_congr_left fun b hb => ?_).trans (List.map_id blocks)
  split
  next hk => exact (List.inj_on_of_nodup_map hn hb h hk).symm
  next => rfl

namespace Treasury
variable {t : Treasury} {r : BlockRecord} {carryForward : Bool} {tipHeight : Nat}

/-- An update changes the newest record of its hash. -/
theorem updateBlock_newest {before after : List BlockRecord} {c : Carry} {hash : String}
    (hr : r.hash = hash) (hafter : ∀ x ∈ after, x.hash ≠ hash) (f : BlockRecord → BlockRecord) :
    updateBlock ⟨before ++ r :: after, c⟩ hash f = (⟨before ++ f r :: after, c⟩, [.line (f r)]) := by
  have hput := Journal.updateLast_at f before (p := fun x => decide (x.hash = hash)) (r := r)
    (decide_eq_true hr) fun x hx => decide_eq_false (hafter x hx)
  rw [updateBlock, hput]

theorem updateBlock_absent {hash : String} (hno : ∀ x ∈ t.blocks, x.hash ≠ hash)
    (f : BlockRecord → BlockRecord) : t.updateBlock hash f = (t, []) := by
  rw [updateBlock, Journal.updateLast_eq_none.mpr fun x hx => decide_eq_false (hno x hx)]

theorem updateBlock_mem (hn : (t.blocks.map BlockRecord.hash).Nodup) (h : r ∈ t.blocks)
    (f : BlockRecord → BlockRecord) (hf : (f r).hash = r.hash) :
    t.updateBlock r.hash f = (⟨putRecord (f r) t.blocks, t.carry⟩, [.line (f r)]) := by
  rw [updateBlock, Journal.updateLast_key hn h f hf]
  rfl

/-- Moving a settled block's amounts: those of the newest record of the hash that is settled and not
carried, if there is one and its sums fit. -/
theorem applyCarry_ok {hash : String} {t' : Treasury} {ws : List Write}
    (run : t.applyCarryForSettled carryForward hash = ⟨ws, .ok t'⟩) :
    (t' = t ∧ ws = [] ∧ (carryForward = true →
      t.blocks.reverse.find? (fun r => r.hash = hash && r.settled && !r.carried) = none)) ∨
    ∃ r more, carryForward = true ∧ SumsFit r ∧
      t.blocks.reverse.find? (fun r => r.hash = hash && r.settled && !r.carried) = some r ∧
      updateBlock ⟨t.blocks, t.carry.applied r.carryPaid r.unpaid⟩ hash carryRecord = (t', more) ∧
      ws = .ledger (t.carry.applied r.carryPaid r.unpaid) r :: more := by
  unfold applyCarryForSettled at run
  split at run
  next hcf =>
    split at run
    next hnone =>
      cases run
      exact .inl ⟨rfl, rfl, fun _ => hnone⟩
    next r hfind =>
      simp only [Traced.bind_eq_ok, Traced.require_eq_ok, Traced.tell, sumSats_eq_some] at run
      obtain ⟨_, _, more, ⟨⟨hu, -⟩, rfl⟩, ⟨_, _, rest, ⟨⟨hp, -⟩, rfl⟩, ⟨_, _, last, htell, hput, rfl⟩, rfl⟩, rfl⟩ := run
      cases htell
      cases hput
      exact .inr ⟨r, _, hcf, ⟨hu, hp⟩, hfind, rfl, rfl⟩
  next hcf =>
    cases run
    exact .inl ⟨rfl, rfl, fun h => absurd h hcf⟩

/-- Moving a settled block's amounts stops before anything is written. -/
theorem applyCarry_error {hash : String} {ws : List Write} {e : Overflow}
    (run : t.applyCarryForSettled carryForward hash = ⟨ws, .error e⟩) : ws = [] ∧ e = .sats := by
  unfold applyCarryForSettled at run
  split at run
  next =>
    split at run
    next => cases run
    next r _ =>
      simp only [Traced.bind_eq_error, Traced.require_eq_error, Traced.require_eq_ok] at run
      rcases run with ⟨-, rfl, rfl⟩ | ⟨_, _, more, ⟨-, rfl⟩, hpaid, rfl⟩
      · exact ⟨rfl, rfl⟩
      · rcases hpaid with ⟨-, rfl, rfl⟩ | ⟨_, _, more, ⟨-, rfl⟩, htell | ⟨_, _, more, -, hput, -⟩, -⟩
        · exact ⟨rfl, rfl⟩
        · cases htell
        · cases hput
  next => cases run

/-- An answer stops with an addition to the height, or between the line that marks a block settled and
its carry file. -/
theorem checkBlock_error {hash : String} {height : UInt32} {a : Answer} {ws : List Write} {e : Overflow}
    (run : t.checkBlock carryForward tipHeight hash height a = ⟨ws, .error e⟩) :
    (e = .height ∧ ws = [] ∧ sizeU32 ≤ height.toNat + 6) ∨
      (e = .sats ∧ ws = (t.updateBlock hash confirmRecord).2) := by
  cases a with
  | failed => cases run
  | unknown =>
    rcases Traced.bind_eq_error.mp run with hpast | ⟨past, _, more, -, hrest, -⟩
    · obtain ⟨hlarge, rfl, rfl⟩ := Traced.require_eq_error.mp hpast
      exact .inl ⟨rfl, rfl, by simpa [checkedAdd] using hlarge⟩
    · split at hrest <;> cases hrest
  | confirmations n =>
    rw [checkBlock] at run
    split at run
    next =>
      rcases Traced.bind_eq_error.mp run with hmark | ⟨t₁, _, more, hmark, hmove, rfl⟩
      · cases hmark
      · obtain ⟨rfl, rfl⟩ := applyCarry_error hmove
        cases hmark
        exact .inr ⟨rfl, List.append_nil _⟩
    next => split at run <;> cases run

/-- Where hashes are distinct, looking one up finds its record or nothing. -/
theorem find_reverse (hn : (t.blocks.map BlockRecord.hash).Nodup) (h : r ∈ t.blocks)
    (p : BlockRecord → Bool) :
    t.blocks.reverse.find? (fun b => b.hash = r.hash && p b) = if p r then some r else none := by
  have honly : ∀ b ∈ t.blocks.reverse, b.hash = r.hash → b = r := fun b hb hk =>
    List.inj_on_of_nodup_map hn (List.mem_reverse.mp hb) h hk
  split
  next hp =>
    obtain ⟨b, hb⟩ : ∃ b, t.blocks.reverse.find? (fun b => b.hash = r.hash && p b) = some b :=
      Option.isSome_iff_exists.mp (List.find?_isSome.mpr ⟨r, List.mem_reverse.mpr h, by simp [hp]⟩)
    have hk := List.find?_some hb
    rw [Bool.and_eq_true, decide_eq_true_eq] at hk
    rw [hb, honly b (List.mem_of_find?_eq_some hb) hk.1]
  next hp =>
    refine List.find?_eq_none.mpr fun b hb hk => hp ?_
    rw [Bool.and_eq_true, decide_eq_true_eq] at hk
    exact honly b hb hk.1 ▸ hk.2

/-- Every hash is recorded once, and no record is carried before it settles. -/
structure Kept (t : Treasury) : Prop where
  distinct : (t.blocks.map BlockRecord.hash).Nodup
  carried : ∀ b ∈ t.blocks, b.carried = true → b.settled = true

/-- The treasury once a ruling is carried out. -/
def after (t : Treasury) (q : Ruling) : Treasury := ⟨putRecord q.record t.blocks, q.carry⟩

theorem after_keep (hn : (t.blocks.map BlockRecord.hash).Nodup) (h : r ∈ t.blocks) :
    t.after (.keep t.carry r) = t := by
  rw [after, Ruling.keep, putRecord_self hn h]

theorem markOrphan_mem (hn : (t.blocks.map BlockRecord.hash).Nodup) (h : r ∈ t.blocks) :
    Traced.ofPair (t.markOrphan r.hash) = (Ruling.orphan t.carry r >>= fun q => pure (t.after q)) := by
  have hfind : t.blocks.reverse.find? (fun b => b.hash = r.hash) = some r := by
    simpa using find_reverse hn h fun _ => true
  rw [markOrphan, hfind, Ruling.orphan]
  dsimp only
  split
  · rw [Traced.pure_eq, Traced.ok_bind, after_keep hn h]
    rfl
  · rw [updateBlock_mem hn h orphanRecord rfl]
    rfl

/-- Settling a block that was not carried: it is marked, the ledger moves, and it is marked again. -/
theorem settle_mem (carryForward : Bool) (hn : (t.blocks.map BlockRecord.hash).Nodup) (h : r ∈ t.blocks)
    (hc : r.carried = false) :
    (Traced.ofPair (t.updateBlock r.hash confirmRecord) >>= fun t => t.applyCarryForSettled carryForward r.hash) =
      (Ruling.settle carryForward t.carry r >>= fun q => pure (t.after q)) := by
  have hmem : confirmRecord r ∈ putRecord (confirmRecord r) t.blocks :=
    mem_putRecord.mpr (.inl ⟨rfl, List.mem_map.mpr ⟨r, h, rfl⟩⟩)
  have hn' : ((putRecord (confirmRecord r) t.blocks).map BlockRecord.hash).Nodup := by simpa using hn
  rw [updateBlock_mem hn h confirmRecord rfl, Traced.ofPair, Traced.ok_bind]
  cases carryForward with
  | false => rfl
  | true =>
    have hfind := find_reverse (t := ⟨putRecord (confirmRecord r) t.blocks, t.carry⟩) hn' hmem
      fun b => b.settled && !b.carried
    simp only [← Bool.and_assoc] at hfind
    rw [if_pos (by simp [confirmRecord, hc]), hash_confirmRecord] at hfind
    unfold applyCarryForSettled Ruling.settle
    rw [if_pos rfl, hfind]
    by_cases hfit : SumsFit r
    · have hu : sumSats (confirmRecord r).unpaid = some (given r.unpaid) := sumSats_eq_some.mpr ⟨hfit.1, rfl⟩
      have hp : sumSats (confirmRecord r).carryPaid = some (given r.carryPaid) :=
        sumSats_eq_some.mpr ⟨hfit.2, rfl⟩
      have hput := updateBlock_mem (t := ⟨putRecord (confirmRecord r) t.blocks,
        t.carry.applied (confirmRecord r).carryPaid (confirmRecord r).unpaid⟩) hn' hmem carryRecord rfl
      rw [hash_confirmRecord, putRecord_putRecord (hash_carryRecord (confirmRecord r))] at hput
      dsimp only
      rw [hu, hp, hput, if_neg (by simp [hfit])]
      rfl
    · rw [if_pos ⟨rfl, hfit⟩]
      dsimp only
      cases hu : sumSats (confirmRecord r).unpaid with
      | none => rfl
      | some added =>
        cases hp : sumSats (confirmRecord r).carryPaid with
        | none => rfl
        | some paid => exact absurd ⟨(sumSats_eq_some.mp hu).1, (sumSats_eq_some.mp hp).1⟩ hfit

/-- One answer about a block does to the treasury what the ruling on its record says. -/
theorem checkBlock_judge (hk : t.Kept) (h : r ∈ t.blocks) (hs : r.settled = false) (a : Answer) :
    t.checkBlock carryForward tipHeight r.hash r.height a =
      (judge carryForward tipHeight t.carry r a >>= fun q => pure (t.after q)) := by
  have hc : r.carried = false := by
    rw [← Bool.not_eq_true]
    exact fun hc => by simp [hk.carried r h hc] at hs
  have hkeep : (pure t : Traced Write Overflow Treasury) =
      (pure (.keep t.carry r) >>= fun q => pure (t.after q)) := by
    rw [Traced.pure_eq, Traced.pure_eq, Traced.ok_bind, after_keep hk.distinct h]
    rfl
  cases a with
  | failed => exact hkeep
  | unknown =>
    unfold checkBlock judge
    cases checkedAdd sizeU32 r.height.toNat 6 with
    | none => rfl
    | some past =>
      simp only [Traced.require, Traced.ok_bind]
      split
      · rw [markOrphan_mem hk.distinct h]
        rfl
      · rw [hkeep]
        rfl
  | confirmations n =>
    unfold checkBlock judge
    dsimp only
    split
    · exact settle_mem carryForward hk.distinct h hc
    · split
      · exact markOrphan_mem hk.distinct h
      · exact hkeep

end Treasury

section
variable {t : Treasury} {r : BlockRecord} {carryForward : Bool} {tipHeight : Nat} {c : Carry}
  {q : Ruling}

theorem orphan_cases (c : Carry) (r : BlockRecord) : Ruling.orphan c r = ⟨[], .ok (.keep c r)⟩ ∨
    Ruling.orphan c r = ⟨[.line (orphanRecord r)], .ok ⟨orphanRecord r, c⟩⟩ := by
  rw [Ruling.orphan]
  split
  · exact .inl rfl
  · exact .inr rfl

/-- A ruling keeps the record as it is, or marks it an orphan, or settles it: the last exactly on
positive confirmations. It stops where a sum or an addition overflows. -/
theorem judge_cases (carryForward : Bool) (tipHeight : Nat) (c : Carry) (r : BlockRecord) (a : Answer) :
    (judge carryForward tipHeight c r a = Ruling.settle carryForward c r ∧ ∃ n, 0 < n ∧ a = .confirmations n) ∨
      ((judge carryForward tipHeight c r a = ⟨[], .ok (.keep c r)⟩ ∨
        judge carryForward tipHeight c r a = ⟨[.line (orphanRecord r)], .ok ⟨orphanRecord r, c⟩⟩ ∨
        judge carryForward tipHeight c r a = ⟨[], .error .height⟩ ∧ sizeU32 ≤ r.height.toNat + 6) ∧
        ∀ n, a = .confirmations n → n ≤ 0) := by
  cases a with
  | failed => exact .inr ⟨.inl rfl, by simp⟩
  | unknown =>
    refine .inr ⟨?_, by simp⟩
    unfold judge
    cases hpast : checkedAdd sizeU32 r.height.toNat 6 with
    | none => exact .inr (.inr ⟨rfl, by simpa [checkedAdd] using hpast⟩)
    | some past =>
      simp only [Traced.require, Traced.ok_bind, List.nil_append]
      split
      · exact (orphan_cases c r).imp_right .inl
      · exact .inl rfl
  | confirmations n =>
    by_cases hpos : 0 < n
    · exact .inl ⟨if_pos hpos, n, hpos, rfl⟩
    · refine .inr ⟨?_, fun m hm => Answer.confirmations.inj hm ▸ Int.not_lt.mp hpos⟩
      rw [judge, if_neg hpos]
      split
      · exact (orphan_cases c r).imp_right .inl
      · exact .inl rfl

/-- The rulings that are carried out. -/
theorem judge_ok {a : Answer} {ws : List Write} (h : judge carryForward tipHeight c r a = ⟨ws, .ok q⟩) :
    (q = .settled carryForward c r ∧ ws = Ruling.settleWrites carryForward c r ∧
        (carryForward = true → SumsFit r) ∧ ∃ n, 0 < n ∧ a = .confirmations n) ∨
      ((q = .keep c r ∧ ws = [] ∨ q = ⟨orphanRecord r, c⟩ ∧ ws = [.line (orphanRecord r)]) ∧
        ∀ n, a = .confirmations n → n ≤ 0) := by
  rcases judge_cases carryForward tipHeight c r a with ⟨hj, hpos⟩ | ⟨hj | hj | ⟨hj, -⟩, hneg⟩ <;>
    rw [h] at hj
  · unfold Ruling.settle at hj
    split at hj
    next => cases hj
    next hfit =>
      cases hj
      exact .inl ⟨rfl, rfl, fun hcf => by_contra fun hno => hfit ⟨hcf, hno⟩, hpos⟩
  · cases hj
    exact .inr ⟨.inl ⟨rfl, rfl⟩, hneg⟩
  · cases hj
    exact .inr ⟨.inr ⟨rfl, rfl⟩, hneg⟩
  · cases hj

/-- The rulings that are not: a settlement stops between its first line and the ledger. -/
theorem judge_error {a : Answer} {ws : List Write} {e : Overflow}
    (h : judge carryForward tipHeight c r a = ⟨ws, .error e⟩) :
    (e = .sats ∧ ws = [.line (confirmRecord r)] ∧ carryForward = true ∧ ¬ SumsFit r ∧
        ∃ n, 0 < n ∧ a = .confirmations n) ∨ (e = .height ∧ ws = [] ∧ sizeU32 ≤ r.height.toNat + 6) := by
  rcases judge_cases carryForward tipHeight c r a with ⟨hj, hpos⟩ | ⟨hj | hj | ⟨hj, hlarge⟩, -⟩ <;>
    rw [h] at hj
  · unfold Ruling.settle at hj
    split at hj
    next hfit =>
      cases hj
      exact .inl ⟨rfl, rfl, hfit.1, hfit.2, hpos⟩
    next => cases hj
  · cases hj
  · cases hj
  · cases hj
    exact .inr ⟨rfl, rfl, hlarge⟩

theorem judge_record {a : Answer} {ws : List Write} (h : judge carryForward tipHeight c r a = ⟨ws, .ok q⟩)
    (hc : r.carried = true → r.settled = true) :
    q.record.hash = r.hash ∧ (q.record.carried = true → q.record.settled = true) := by
  rcases judge_ok h with ⟨rfl, -⟩ | ⟨⟨rfl, -⟩ | ⟨rfl, -⟩, -⟩
  · cases carryForward with
    | true => exact ⟨rfl, fun _ => rfl⟩
    | false => exact ⟨rfl, fun _ => rfl⟩
  · exact ⟨rfl, hc⟩
  · exact ⟨rfl, hc⟩

/-- A ruling leaves what its block paid and owes. -/
theorem judge_same {a : Answer} {ws : List Write} (h : judge carryForward tipHeight c r a = ⟨ws, .ok q⟩) :
    q.record.hash = r.hash ∧ q.record.carryPaid = r.carryPaid ∧ q.record.unpaid = r.unpaid := by
  rcases judge_ok h with ⟨rfl, -⟩ | ⟨⟨rfl, -⟩ | ⟨rfl, -⟩, -⟩
  · cases carryForward with
    | true => exact ⟨rfl, rfl, rfl⟩
    | false => exact ⟨rfl, rfl, rfl⟩
  · exact ⟨rfl, rfl, rfl⟩
  · exact ⟨rfl, rfl, rfl⟩

theorem Treasury.Kept.after {a : Answer} {ws : List Write} (hk : t.Kept) (hr : r ∈ t.blocks)
    (h : judge carryForward tipHeight t.carry r a = ⟨ws, .ok q⟩) : (t.after q).Kept := by
  obtain ⟨hhash, hc⟩ := judge_record h (hk.carried r hr)
  constructor
  · rw [Treasury.after, hash_putRecord]
    exact hk.distinct
  · intro b hb
    rcases mem_putRecord.mp hb with ⟨rfl, -⟩ | ⟨hb, -⟩
    · exact hc
    · exact hk.carried b hb

theorem recheck_inRange {b : Bool} (h : recheck tipHeight r = some b) : inRange tipHeight r = b := by
  unfold recheck at h
  split at h
  next hs =>
    obtain rfl := Option.some.inj h
    simp [inRange, hs]
  next hs =>
    simp only [Option.bind_eq_bind, Option.bind_eq_some_iff, checkedAdd_eq_some, Option.some.injEq] at h
    obtain ⟨_, ⟨-, rfl⟩, rfl⟩ := h
    simp [inRange, hs]

/-- A pass asks about the first records in range, and has computed for each that it is. -/
theorem askAbout_eq {n : Nat} {xs ys : List BlockRecord} (h : askAbout tipHeight n xs = some ys) :
    ys = (xs.filter (inRange tipHeight)).take n ∧ ∀ r ∈ ys, recheck tipHeight r = some true := by
  induction n, xs using askAbout.induct generalizing ys with
  | case1 xs =>
    rw [askAbout] at h
    simp [← Option.some.inj h]
  | case2 n =>
    rw [askAbout] at h
    simp [← Option.some.inj h]
  | case3 n r rest ihtake ihskip =>
    simp only [askAbout, Option.bind_eq_bind, Option.bind_eq_some_iff] at h
    obtain ⟨b, hb, h⟩ := h
    have hr := recheck_inRange hb
    cases b with
    | true =>
      simp only [if_true, Option.bind_eq_some_iff, Option.some.injEq] at h
      obtain ⟨more, hmore, rfl⟩ := h
      obtain ⟨hfirst, hall⟩ := ihtake hmore
      rw [List.filter_cons_of_pos hr, List.take_succ_cons, ← hfirst]
      exact ⟨rfl, List.forall_mem_cons.mpr ⟨hb, hall⟩⟩
    | false =>
      rw [List.filter_cons_of_neg (by simp [hr])]
      exact ihskip h

theorem askAbout_sublist {n : Nat} {xs ys : List BlockRecord}
    (h : askAbout tipHeight n xs = some ys) : ys.Sublist xs := by
  rw [(askAbout_eq h).1]
  exact (List.take_sublist ..).trans List.filter_sublist

/-- A record whose range could be computed is far enough below the end of u32 for the other addition. -/
theorem recheck_small (h : recheck tipHeight r = some true) : r.height.toNat + 6 < sizeU32 := by
  unfold recheck at h
  split at h
  next => simp at h
  next =>
    simp only [Option.bind_eq_bind, Option.bind_eq_some_iff, checkedAdd_eq_some] at h
    obtain ⟨_, ⟨hfit, -⟩, -⟩ := h
    have hrange : 6 ≤ if r.orphan then orphanRecheckBlocks else recheckBlocks := by split <;> decide
    omega

theorem recheck_unsettled (h : recheck tipHeight r = some true) : r.settled = false := by
  unfold recheck at h
  split at h
  next => simp at h
  next hs => simpa using hs

end

namespace Treasury
variable {t t' : Treasury} {carryForward : Bool} {tipHeight : Nat} {node : String → Answer}
  {ws : List Write} {P : List BlockRecord → Treasury → List Write → Prop} {e : Overflow}

/-- A pass that has ruled on some records, and stands before the next. -/
structure StandsBefore (P : List BlockRecord → Treasury → List Write → Prop) (t : Treasury) (r : BlockRecord)
    (done : List BlockRecord) (before : List Write) : Prop where
  kept : t.Kept
  mem : r ∈ t.blocks
  unsettled : r.settled = false
  holds : P done t before

section
variable (step : ∀ done t before r q ws, StandsBefore P t r done before →
  judge carryForward tipHeight t.carry r (node r.hash) = ⟨ws, .ok q⟩ → P (done ++ [r]) (t.after q) (before ++ ws))
include step

private theorem checkAll_rule (asked done : List BlockRecord) {before : List Write} (hk : t.Kept)
    (hin : ∀ r ∈ asked, r ∈ t.blocks ∧ r.settled = false) (hn : (asked.map BlockRecord.hash).Nodup)
    (h : P done t before) :
    (∀ t' ws, t.checkAll carryForward tipHeight node (asked.map fun r => (r.hash, r.height)) = ⟨ws, .ok t'⟩ →
      t'.Kept ∧ P (done ++ asked) t' (before ++ ws)) ∧
    ∀ e ws, t.checkAll carryForward tipHeight node (asked.map fun r => (r.hash, r.height)) = ⟨ws, .error e⟩ →
      ∃ r rest ruled t₁ ws₁ ws₂, asked = ruled ++ r :: rest ∧ StandsBefore P t₁ r (done ++ ruled) ws₁ ∧
        judge carryForward tipHeight t₁.carry r (node r.hash) = ⟨ws₂, .error e⟩ ∧ before ++ ws = ws₁ ++ ws₂ := by
  induction asked generalizing done t before with
  | nil =>
    constructor
    · intro t' ws run
      cases run
      simpa using ⟨hk, h⟩
    · intro e ws run
      cases run
  | cons r asked ih =>
    obtain ⟨⟨hr, hs⟩, hin⟩ := List.forall_mem_cons.mp hin
    obtain ⟨hfresh, hn⟩ := List.nodup_cons.mp hn
    simp only [List.map_cons, checkAll, checkBlock_judge hk hr hs]
    cases hq : judge carryForward tipHeight t.carry r (node r.hash) with
    | mk first result =>
    cases result with
    | error e =>
      refine ⟨fun _ _ run => (nomatch run), fun e' ws run => ?_⟩
      cases run
      exact ⟨r, asked, [], t, before, _, rfl, ⟨hk, hr, hs, by simpa using h⟩, hq, rfl⟩
    | ok q =>
      have hhash : q.record.hash = r.hash := (judge_record hq (hk.carried r hr)).1
      have hleft : ∀ b ∈ asked, b ∈ (t.after q).blocks ∧ b.settled = false := by
        intro b hb
        refine ⟨mem_putRecord.mpr (.inr ⟨(hin b hb).1, fun heq => hfresh ?_⟩), (hin b hb).2⟩
        rw [← hhash, ← heq]
        exact List.mem_map_of_mem hb
      obtain ⟨hok, herror⟩ := ih (done ++ [r]) (hk.after hr hq) hleft hn (step _ _ _ r q _ ⟨hk, hr, hs, h⟩ hq)
      simp only [Traced.pure_eq, Traced.ok_bind, List.append_nil]
      constructor
      · intro t' ws run
        obtain ⟨rfl, hresult⟩ := (Traced.mk.injEq ..).mp run
        simpa using hok t' _ (by rw [← hresult])
      · intro e ws run
        obtain ⟨rfl, hresult⟩ := (Traced.mk.injEq ..).mp run
        obtain ⟨x, rest, ruled, t₁, ws₁, ws₂, rfl, hstand, hjudge, hws⟩ := herror e _ (by rw [← hresult])
        refine ⟨x, rest, r :: ruled, t₁, ws₁, ws₂, rfl, by simpa using hstand, hjudge, ?_⟩
        rw [← List.append_assoc]
        exact hws

/-- What every ruling of a confirm pass preserves holds after the pass, and until it stops. -/
theorem confirmBlocks_rule (hk : t.Kept) (h : P [] t []) :
    (∀ t' ws, t.confirmBlocks carryForward tipHeight node = ⟨ws, .ok t'⟩ →
      ∃ asked, askAbout tipHeight maxAsked t.blocks.reverse = some asked ∧ t'.Kept ∧ P asked t' ws) ∧
    ∀ e ws, t.confirmBlocks carryForward tipHeight node = ⟨ws, .error e⟩ →
      askAbout tipHeight maxAsked t.blocks.reverse = none ∧ ws = [] ∨
      ∃ r rest ruled t₁ ws₁ ws₂, askAbout tipHeight maxAsked t.blocks.reverse = some (ruled ++ r :: rest) ∧
        StandsBefore P t₁ r ruled ws₁ ∧ judge carryForward tipHeight t₁.carry r (node r.hash) = ⟨ws₂, .error e⟩ ∧
        ws = ws₁ ++ ws₂ := by
  unfold confirmBlocks pending
  cases hasked : askAbout tipHeight maxAsked t.blocks.reverse with
  | none =>
    refine ⟨fun _ _ run => (nomatch run), fun e ws run => ?_⟩
    cases run
    exact .inl ⟨rfl, rfl⟩
  | some asked =>
    have hsub := askAbout_sublist hasked
    have hnodup : (asked.map BlockRecord.hash).Nodup :=
      (by simpa using hk.distinct : (t.blocks.reverse.map BlockRecord.hash).Nodup).sublist (hsub.map _)
    have hin : ∀ r ∈ asked, r ∈ t.blocks ∧ r.settled = false := fun r hr =>
      ⟨List.mem_reverse.mp (hsub.subset hr), recheck_unsettled ((askAbout_eq hasked).2 r hr)⟩
    obtain ⟨hok, herror⟩ := checkAll_rule step asked [] hk hin hnodup h
    constructor
    · intro t' ws run
      exact ⟨asked, rfl, hok t' ws run⟩
    · intro e ws run
      obtain ⟨r, rest, ruled, t₁, ws₁, ws₂, rfl, hstop⟩ := herror e ws run
      exact .inr ⟨r, rest, ruled, t₁, ws₁, ws₂, rfl, hstop⟩

end
end Treasury
end WaviclesPrime.Primed
