import WaviclesPrime.Lib.Filed
import WaviclesPrime.Primed.Replay

/-! The shares seen answer as one set of shares would, and their count never goes below zero. -/
namespace WaviclesPrime.Primed
open Wire Machine

/-- What the pool does to the shares seen. -/
inductive SeenOp where
  | insert (height : UInt32) (hash : Bytes)
  | prune (minHeight : Nat)

namespace SeenShares

/-- Some operations in turn, with what the insertions among them answer. -/
def run (seen : SeenShares) : List SeenOp → Option (SeenShares × List Seen)
  | [] => some (seen, [])
  | .insert height hash :: ops => do
    let inserted := seen.insert height hash
    let (seen, answers) ← inserted.1.run ops
    some (seen, inserted.2 :: answers)
  | .prune minHeight :: ops => do
    let seen ← seen.pruneBelow minHeight
    seen.run ops

/-- The shares credited and not yet forgotten. -/
abbrev Credited := List (UInt32 × Bytes)

/-- What is owed to a share, given those already credited. -/
def judge (held : Credited) (share : UInt32 × Bytes) : Seen :=
  if share ∈ held then .duplicate
  else if maxPerHeight ≤ held.countP (·.1 = share.1) ∨ maxTotal ≤ held.length then .full
  else .fresh

def judgeAll (held : Credited) : List SeenOp → Credited × List Seen
  | [] => (held, [])
  | .insert height hash :: ops =>
    let answer := judge held (height, hash)
    let (held, answers) := judgeAll (if answer = .fresh then (height, hash) :: held else held) ops
    (held, answer :: answers)
  | .prune minHeight :: ops => judgeAll (held.filter fun e => !decide (e.1.toNat < minHeight)) ops

/-- The shares seen are these: each under its height and once, counted, and within both caps. -/
structure Keeps (seen : SeenShares) (held : Credited) : Prop where
  filed : seen.byHeight.Files Prod.fst Prod.snd held
  total : seen.total = held.length
  once : held.Nodup
  capped : held.length ≤ maxTotal
  cappedAt : ∀ height, held.countP (·.1 = height) ≤ maxPerHeight

variable {seen : SeenShares} {held : Credited}

theorem keeps_empty : empty.Keeps [] where
  filed := KeyMap.files_empty
  total := rfl
  once := .nil
  capped := Nat.zero_le _
  cappedAt _ := Nat.zero_le _

theorem Keeps.mem_set (h : seen.Keeps held) (height : UInt32) (hash : Bytes) :
    hash ∈ (seen.byHeight.get height).getD [] ↔ (height, hash) ∈ held := by
  rw [h.filed]
  constructor
  · intro hmem
    obtain ⟨⟨i, x⟩, hx, rfl⟩ := List.mem_map.mp hmem
    obtain ⟨hin, hi⟩ := List.mem_filter.mp hx
    exact of_decide_eq_true hi ▸ hin
  · intro hmem
    exact List.mem_map.mpr ⟨_, List.mem_filter.mpr ⟨hmem, decide_eq_true rfl⟩, rfl⟩

theorem Keeps.length_set (h : seen.Keeps held) (height : UInt32) :
    ((seen.byHeight.get height).getD []).length = held.countP (·.1 = height) := by
  rw [h.filed, List.length_map, List.countP_eq_length_filter]

theorem Keeps.opened (h : seen.Keeps held) (height : UInt32) :
    Keeps { seen with byHeight := seen.byHeight.insert height ((seen.byHeight.get height).getD []) } held :=
  { h with filed := h.filed.opened height }

theorem Keeps.fresh (h : seen.Keeps held) {height : UInt32} {hash : Bytes} (hnew : (height, hash) ∉ held)
    (hset : held.countP (·.1 = height) < maxPerHeight) (hroom : held.length < maxTotal) :
    Keeps ⟨seen.byHeight.insert height (hash :: (seen.byHeight.get height).getD []), seen.total + 1⟩
      ((height, hash) :: held) where
  filed := h.filed.cons (height, hash)
  total := by rw [h.total, List.length_cons]
  once := List.nodup_cons.mpr ⟨hnew, h.once⟩
  capped := hroom
  cappedAt i := by
    rw [List.countP_cons]
    split
    next heq =>
      obtain rfl := of_decide_eq_true heq
      exact hset
    next => exact h.cappedAt i

/-- An insertion answers what is owed, and remembers the share if that is new work. -/
theorem Keeps.insert (h : seen.Keeps held) (height : UInt32) (hash : Bytes) :
    (seen.insert height hash).2 = judge held (height, hash) ∧
      (seen.insert height hash).1.Keeps
        (if judge held (height, hash) = .fresh then (height, hash) :: held else held) := by
  obtain ⟨byHeight, total⟩ := seen
  obtain rfl : total = held.length := h.total
  unfold SeenShares.insert judge
  simp only [h.mem_set, h.length_set]
  split
  next => exact ⟨rfl, h.opened height⟩
  next hnew =>
    split
    next => exact ⟨rfl, h.opened height⟩
    next hroom =>
      rw [not_or, Nat.not_le, Nat.not_le] at hroom
      exact ⟨rfl, h.fresh hnew hroom.1 hroom.2⟩

/-- The sets that go hold as much as is taken off the count. -/
theorem Keeps.prune (h : seen.Keeps held) (minHeight : Nat) :
    ∃ seen', seen.pruneBelow minHeight = some seen' ∧
      seen'.Keeps (held.filter fun e => !decide (e.1.toNat < minHeight)) := by
  have hgone := h.filed.sum_filter fun height => decide (height.toNat < minHeight)
  have hparts : (held.filter fun e => !decide (e.1.toNat < minHeight)).length =
      held.length - held.countP fun e => decide (e.1.toNat < minHeight) := by
    rw [List.countP_eq_length_filter,
      List.length_eq_length_filter_add (l := held) fun e => decide (e.1.toNat < minHeight), Nat.add_sub_cancel_left]
  refine ⟨⟨seen.byHeight.retain fun height => !decide (height.toNat < minHeight), seen.total -
    held.countP fun e => decide (e.1.toNat < minHeight)⟩, ?_, h.filed.retain _, ?_, h.once.filter _,
    (List.length_filter_le ..).trans h.capped, fun i => List.filter_sublist.countP_le.trans (h.cappedAt i)⟩
  · have hle : held.countP (fun e => decide (e.1.toNat < minHeight)) ≤ seen.total :=
      h.total ▸ List.countP_le_length
    rw [pruneBelow, hgone, Option.bind_eq_bind, Option.bind_eq_some_iff]
    exact ⟨_, checkedSub_eq_some.mpr ⟨hle, rfl⟩, rfl⟩
  · rw [hparts, h.total]

/-- Operations never stop on the count, answer what is owed, and keep what is credited. -/
theorem Keeps.run (h : seen.Keeps held) (ops : List SeenOp) :
    ∃ seen', seen.run ops = some (seen', (judgeAll held ops).2) ∧ seen'.Keeps (judgeAll held ops).1 := by
  induction ops generalizing seen held with
  | nil => exact ⟨seen, rfl, h⟩
  | cons op ops ih =>
    cases op with
    | insert height hash =>
      obtain ⟨hanswer, hkeeps⟩ := h.insert height hash
      obtain ⟨seen', hrun, hkept⟩ := ih hkeeps
      refine ⟨seen', ?_, hkept⟩
      rw [SeenShares.run, hrun, hanswer]
      rfl
    | prune minHeight =>
      obtain ⟨mid, hprune, hkeeps⟩ := h.prune minHeight
      obtain ⟨seen', hrun, hkept⟩ := ih hkeeps
      refine ⟨seen', ?_, hkept⟩
      rw [SeenShares.run, hprune]
      exact hrun

/-- Whatever is inserted and pruned, in any order, the shares seen answer as the set of shares
credited and not yet forgotten would, and stay within both caps. -/
theorem seen_exact (ops : List SeenOp) :
    ∃ seen, empty.run ops = some (seen, (judgeAll [] ops).2) ∧ seen.Keeps (judgeAll [] ops).1 :=
  keeps_empty.run ops

end SeenShares

section
variable {D : Decoders} {H : Digests} {canonical : Snapshot.Doc → Bytes} {p q : Pool} {events : List Event}
  {held : SeenShares.Credited}

/-- A share leaves the shares seen alone, or is shown to them. -/
theorem onPow_keeps {sh sh' : Shared} {ss ss' : Session} {s : PowSubmit} {clock : Nat} {now : UInt32}
    {out : PowOutcome} (h : sh.seen.Keeps held) (run : onPow D H sh clock now ss s = some (sh', ss', out)) :
    ∃ held', sh'.seen.Keeps held' := by
  rcases onPow_cases run with ⟨-, rfl, -, -⟩ | ⟨identity, -, ⟨_, -, rfl, -⟩ |
    ⟨mid, absorbed, -, ⟨-, rfl, -, -⟩ | ⟨-, hjudge⟩⟩⟩
  · exact ⟨held, h⟩
  · exact ⟨held, h⟩
  · exact ⟨held, h⟩
  · rcases judgeShare_cases hjudge with
      ⟨rfl, -, -⟩ | ⟨_, _, _, _, -, -, -, -, ⟨rfl, -⟩ | ⟨v, seen, mark, -, hins, rfl, -⟩⟩
    · exact ⟨held, h⟩
    · exact ⟨held, h⟩
    · have hkeeps := (h.insert v.height v.hash).2
      rw [hins] at hkeeps
      exact ⟨_, hkeeps⟩

/-- An action does to the shares seen nothing but these operations. -/
theorem Pool.step_keeps {a : Action} (h : p.shared.seen.Keeps held)
    (moved : p.step D H canonical a = some (q, events)) : ∃ held', q.shared.seen.Keeps held' := by
  cases moves_of_step moved with
  | connect => exact ⟨held, h⟩
  | request => exact ⟨held, h⟩
  | tip => exact ⟨held, h⟩
  | controls => exact ⟨held, h⟩
  | idle => exact ⟨held, h⟩
  | startPass => exact ⟨held, h⟩
  | answer => exact ⟨held, h⟩
  | @prune t _ _ hseen =>
    obtain ⟨seen, hprune, hkeeps⟩ := h.prune (t.height - 2)
    obtain rfl := Option.some.inj (hseen.symm.trans hprune)
    exact ⟨_, hkeeps⟩
  | refused ran => exact onPow_keeps h ran
  | share ran => exact onPow_keeps h ran
  | found ran => exact onPow_keeps h ran

/-- What is remembered after an action was remembered before it, or is credited by it. -/
theorem Pool.step_credited {a : Action} (moved : p.step D H canonical a = some (q, events)) {height : UInt32}
    {hash : Bytes} (hq : q.shared.seen.Holds height hash) :
    p.shared.seen.Holds height hash ∨ (height, hash) ∈ credits events := by
  rcases Pool.step_shares moved with
    ⟨i, x, _, hone, -, -, -, -, hholds⟩ | ⟨_, -, -, -, -, hholds⟩ | ⟨-, -, -, hholds⟩
  · rcases (hholds height hash).mp hq with ⟨rfl, rfl⟩ | hp
    · exact .inr (hone ▸ List.mem_singleton_self _)
    · exact .inl hp
  · exact .inl ((hholds height hash).mp hq).1
  · exact .inl ((hholds height hash).mp hq)

theorem Pool.play_keeps {actions : List Action} (h : p.shared.seen.Keeps held)
    (ran : p.play D H canonical actions = some (q, events)) :
    ∃ held', q.shared.seen.Keeps held' ∧ ∀ e ∈ held', e ∈ held ∨ e ∈ credits events := by
  induction actions generalizing p held events with
  | nil =>
    obtain ⟨rfl, rfl⟩ := Prod.mk.inj (Option.some.inj ran)
    exact ⟨held, h, fun _ => .inl⟩
  | cons a actions ih =>
    simp only [play, Option.bind_eq_bind, Option.bind_eq_some_iff, Option.some.injEq, Prod.mk.injEq,
      Prod.exists] at ran
    obtain ⟨mid, first, moved, _, more, ran, rfl, rfl⟩ := ran
    obtain ⟨between, hbetween⟩ := Pool.step_keeps h moved
    obtain ⟨held', hkeeps, hfrom⟩ := ih hbetween ran
    refine ⟨held', hkeeps, fun e he => ?_⟩
    rw [credits_append, List.mem_append]
    rcases hfrom e he with hmid | hmore
    · have hstep := Pool.step_credited moved ((hbetween.mem_set e.1 e.2).mpr hmid)
      exact hstep.imp (h.mem_set e.1 e.2).mp .inl
    · exact .inr (.inr hmore)

/-- In every state a pool reaches, the shares seen are some of those credited, each once and within
both caps, and housekeeping goes through. -/
theorem housekeeping_goes_through {actions : List Action} (started : p.shared.seen = .empty)
    (ran : p.play D H canonical actions = some (q, events)) :
    (∃ held, q.shared.seen.Keeps held ∧ ∀ e ∈ held, e ∈ credits events) ∧
      (q.step D H canonical .housekeeping).isSome := by
  obtain ⟨held, hkeeps, hfrom⟩ := Pool.play_keeps (started ▸ SeenShares.keeps_empty) ran
  refine ⟨⟨held, hkeeps, fun e he => (hfrom e he).resolve_left List.not_mem_nil⟩, ?_⟩
  simp only [Pool.step]
  split
  next => rfl
  next t _ =>
    obtain ⟨seen, hprune, -⟩ := hkeeps.prune (t.height - 2)
    rw [hprune]
    rfl

/-- A share, sent twice, before a tip that forgets it. -/
theorem housekeeping_goes_through_resent : ∃ q events,
    samplePool.play sampleDecoders lowDigests (fun _ => [])
      [sentBy 0, sentBy 1, .tip ⟨900000, 0⟩] = some (q, events) ∧
    (credits events).length = 1 ∧ (q.step sampleDecoders lowDigests (fun _ => []) .housekeeping).isSome := by
  have hplay : (samplePool.play sampleDecoders lowDigests (fun _ => [])
      [sentBy 0, sentBy 1, .tip ⟨900000, 0⟩]).map (fun x => decide ((credits x.2).length = 1)) = some true := by
    decide +kernel
  obtain ⟨⟨q, events⟩, hrun, hone⟩ := Option.map_eq_some_iff.mp hplay
  exact ⟨q, events, hrun, of_decide_eq_true hone, (housekeeping_goes_through rfl hrun).2⟩

end
end WaviclesPrime.Primed
