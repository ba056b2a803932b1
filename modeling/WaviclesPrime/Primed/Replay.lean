import WaviclesPrime.Primed.Issued
import WaviclesPrime.Primed.Pool

/-! Shares are credited once: the stale check and the pruning of the shares seen leave no gap. -/
namespace WaviclesPrime.Primed
open Wire Machine Tides

def Event.share : Event → Option (UInt32 × Bytes)
  | .credited height hash => some (height, hash)
  | .wrote _ => none

/-- The shares credited, by height and hash. -/
def credits (events : List Event) : List (UInt32 × Bytes) := events.filterMap Event.share

/-- The tip height housekeeping prunes at, if an action is one. -/
def Pool.prunesAt (p : Pool) : Action → Nat
  | .housekeeping => (p.shared.tip.map Tip.height).getD 0
  | _ => 0

/-- The runs in which the tip is never more than two below the highest one pruned at. -/
inductive Pool.Paced (D : Decoders) (H : Digests) (canonical : Snapshot.Doc → Bytes) (p : Pool) :
    Pool → List Event → Nat → Prop where
  | start : Paced D H canonical p p [] 0
  | step {q q' events more highest} {a : Action} (h : Paced D H canonical p q events highest)
      (moved : q.step D H canonical a = some (q', more))
      (margin : ∀ t ∈ q'.shared.tip, max highest (q.prunesAt a) ≤ t.height + 2) :
      Paced D H canonical p q' (events ++ more) (max highest (q.prunesAt a))

/-- Every share credited is remembered, or too far below what was pruned to pass for fresh. -/
structure Guarded (q : Pool) (events : List Event) (highest : Nat) : Prop where
  once : (credits events).Nodup
  remembered : ∀ height hash, (height, hash) ∈ credits events →
    q.shared.seen.Holds height hash ∨ height.toNat + 2 < highest
  known : 0 < highest → q.shared.tip.isSome
  margin : ∀ t ∈ q.shared.tip, highest ≤ t.height + 2

section
variable {D : Decoders} {H : Digests} {canonical : Snapshot.Doc → Bytes} {p q q' : Pool}
  {events more : List Event} {a : Action} {highest : Nat}

theorem credits_append (xs ys : List Event) : credits (xs ++ ys) = credits xs ++ credits ys :=
  List.filterMap_append

@[simp] theorem credits_wrote (ws : List Write) : credits (ws.map .wrote) = [] := by
  simp [credits, Event.share, List.filterMap_map, Function.comp_def]

/-- A share that is not stale is for the tip's height at the lowest, and at most two blocks past it. -/
theorem near_tip_of_fresh {sh : Shared} {clock : Nat} {height : UInt32}
    (h : isStale sh clock height = some false) :
    ∀ t ∈ sh.tip, t.height ≤ height.toNat ∧ height.toNat ≤ t.height + 2 := by
  intro t ht
  unfold isStale at h
  rw [Option.mem_def.mp ht] at h
  simp only [Option.bind_eq_bind, Option.bind_eq_some_iff, checkedAdd_eq_some, Option.some.injEq,
    Bool.or_eq_false_iff, Bool.and_eq_false_iff, decide_eq_false_iff_not, Bool.not_eq_false',
    Bool.and_eq_true, beq_iff_eq] at h
  obtain ⟨_, ⟨_, rfl⟩, _, ⟨_, rfl⟩, hahead, hbehind⟩ := h
  refine ⟨?_, Nat.le_of_not_lt hahead⟩
  -- one block behind the next is the tip's own height, within the grace or not
  rcases hbehind with hbehind | ⟨hgrace, -⟩
  · omega
  · omega

/-- What an action does to the shares that are remembered: it credits one that is fresh and new, or
prunes, or leaves them alone. -/
theorem Pool.step_shares (moved : q.step D H canonical a = some (q', more)) :
    (∃ height hash clock, credits more = [(height, hash)] ∧ q.prunesAt a = 0 ∧
      isStale q.shared clock height = some false ∧ ¬ q.shared.seen.Holds height hash ∧
      q'.shared.tip = q.shared.tip ∧
      ∀ i x, q'.shared.seen.Holds i x ↔ i = height ∧ x = hash ∨ q.shared.seen.Holds i x) ∨
    (∃ t, credits more = [] ∧ q.prunesAt a = t.height ∧ q.shared.tip = some t ∧
      q'.shared.tip = some t ∧
      ∀ i x, q'.shared.seen.Holds i x ↔ q.shared.seen.Holds i x ∧ t.height - 2 ≤ i.toNat) ∨
    (credits more = [] ∧ q.prunesAt a = 0 ∧ (q.shared.tip.isSome → q'.shared.tip.isSome) ∧
      ∀ i x, q'.shared.seen.Holds i x ↔ q.shared.seen.Holds i x) := by
  cases moves_of_step moved with
  | connect => exact .inr (.inr ⟨rfl, rfl, id, fun _ _ => Iff.rfl⟩)
  | request => exact .inr (.inr ⟨rfl, rfl, id, fun _ _ => Iff.rfl⟩)
  | tip => exact .inr (.inr ⟨rfl, rfl, fun _ => rfl, fun _ _ => Iff.rfl⟩)
  | controls => exact .inr (.inr ⟨rfl, rfl, id, fun _ _ => Iff.rfl⟩)
  | startPass => exact .inr (.inr ⟨rfl, rfl, id, fun _ _ => Iff.rfl⟩)
  | @answer _ _ _ _ _ _ ws =>
    exact .inr (.inr ⟨credits_wrote ws, rfl, id, fun _ _ => Iff.rfl⟩)
  | idle htip => exact .inr (.inr ⟨rfl, by simp [prunesAt, htip], by simp, fun _ _ => Iff.rfl⟩)
  | @prune t _ htip hseen =>
    exact .inr (.inl ⟨t, rfl, by simp [prunesAt, htip], htip, htip, SeenShares.pruneBelow_holds hseen⟩)
  | refused ran =>
    obtain ⟨seen, rfl, hholds⟩ := (onPow_remembers ran).1
    exact .inr (.inr ⟨rfl, rfl, id, hholds⟩)
  | @share _ _ clock _ _ _ _ _ _ v ran =>
    obtain ⟨hstale, hnew, seen, rfl, hholds⟩ := (onPow_remembers ran).1
    exact .inl ⟨v.height, v.hash, clock, rfl, rfl, hstale, hnew, rfl, hholds⟩
  | @found _ _ clock _ _ _ _ _ _ v r ran =>
    obtain ⟨hstale, hnew, seen, rfl, hholds⟩ := (onPow_remembers ran).1
    have hone : credits (Event.credited v.height v.hash ::
        (q.treasury.recordBlock r).2.map .wrote) = [(v.height, v.hash)] :=
      congrArg (_ :: ·) (credits_wrote _)
    exact .inl ⟨v.height, v.hash, clock, hone, rfl, hstale, hnew, rfl, hholds⟩

theorem Guarded.step (h : Guarded q events highest)
    (moved : q.step D H canonical a = some (q', more))
    (margin : ∀ t ∈ q'.shared.tip, max highest (q.prunesAt a) ≤ t.height + 2) :
    Guarded q' (events ++ more) (max highest (q.prunesAt a)) := by
  rcases Pool.step_shares moved with ⟨height, hash, clock, hone, hprune, hstale, hnew, htip, hholds⟩ |
    ⟨t, hnone, hprune, ht, ht', hholds⟩ | ⟨hnone, hprune, htip, hholds⟩
  · have hfresh : (height, hash) ∉ credits events := by
      intro hmem
      rcases h.remembered height hash hmem with hold | hlow
      · exact hnew hold
      · obtain ⟨t, ht⟩ := Option.isSome_iff_exists.mp (h.known (by omega))
        have hle := (near_tip_of_fresh hstale t ht).1
        have hmargin := h.margin t ht
        omega
    rw [hprune, Nat.max_eq_left (Nat.zero_le _)] at margin ⊢
    constructor
    · rw [credits_append, hone]
      exact h.once.append (List.nodup_singleton _) (by simpa using hfresh)
    · intro i x hmem
      rw [credits_append, hone] at hmem
      rcases List.mem_append.mp hmem with hmem | hmem
      · exact (h.remembered i x hmem).imp_left fun hold => (hholds i x).mpr (.inr hold)
      · obtain ⟨rfl, rfl⟩ := Prod.mk.inj (List.mem_singleton.mp hmem)
        exact .inl ((hholds _ _).mpr (.inl ⟨rfl, rfl⟩))
    · rw [htip]
      exact h.known
    · exact margin
  · constructor
    · rw [credits_append, hnone, List.append_nil]
      exact h.once
    · intro i x hmem
      rw [credits_append, hnone, List.append_nil] at hmem
      rw [hprune]
      by_cases hle : t.height - 2 ≤ i.toNat
      · rcases h.remembered i x hmem with hold | hlow
        · exact .inl ((hholds i x).mpr ⟨hold, hle⟩)
        · exact .inr (by omega)
      · exact .inr (by omega)
    · simp [ht']
    · exact margin
  · rw [hprune, Nat.max_eq_left (Nat.zero_le _)] at margin ⊢
    constructor
    · rw [credits_append, hnone, List.append_nil]
      exact h.once
    · intro i x hmem
      rw [credits_append, hnone, List.append_nil] at hmem
      exact (h.remembered i x hmem).imp_left (hholds i x).mpr
    · exact fun hpos => htip (h.known hpos)
    · exact margin

/-- In every run in which the tip stays within two of the highest height pruned at, each share is
credited at most once, whichever session sends it, from before the first tip on. -/
theorem share_credited_once (run : p.Paced D H canonical q events highest) :
    (credits events).Nodup := by
  suffices h : Guarded q events highest from h.once
  induction run with
  | start => exact ⟨.nil, by simp [credits], by simp, by simp⟩
  | step _ moved margin ih => exact ih.step moved margin

end
/-- A hash that is small as a number, and grows with its input. -/
def lowDigests : Digests where
  sha256 data := ⟨List.replicate 31 0 ++ [data.sum], by simp⟩
  blake2b256 data := ⟨List.replicate 31 0 ++ [data.sum], by simp⟩

def samplePool : Pool := ⟨sampleShared, ⟨[], .empty⟩, fun _ => .fresh, none⟩

/-- One share, sent by a session. -/
def sentBy (k : Nat) : Action :=
  .pow k .empty 0 0 "" (rename (sampleShare 5 4) sampleAddress)

theorem share_credited_once_resent : ∃ q events highest,
    samplePool.Paced sampleDecoders lowDigests (fun _ => []) q events highest ∧
      (credits events).length = 1 ∧ (credits events).Nodup := by
  have hrun : (samplePool.step sampleDecoders lowDigests (fun _ => []) (sentBy 0)).bind (fun x =>
      (x.1.step sampleDecoders lowDigests (fun _ => []) (sentBy 1)).map fun y =>
        decide (x.1.shared.tip = none ∧ y.1.shared.tip = none ∧
          (credits ([] ++ x.2 ++ y.2)).length = 1)) = some true := by decide +kernel
  obtain ⟨⟨q, events⟩, hfirst, hrun⟩ := Option.bind_eq_some_iff.mp hrun
  obtain ⟨⟨q', more⟩, hsecond, hdec⟩ := Option.map_eq_some_iff.mp hrun
  obtain ⟨htip, htip', hone⟩ := of_decide_eq_true hdec
  have run : samplePool.Paced sampleDecoders lowDigests (fun _ => []) q' ([] ++ events ++ more) _ :=
    (Pool.Paced.start.step hfirst fun _ ht => absurd (ht.symm.trans htip) (by simp)).step hsecond
      fun _ ht => absurd (ht.symm.trans htip') (by simp)
  exact ⟨q', _, _, run, hone, share_credited_once run⟩

end WaviclesPrime.Primed
