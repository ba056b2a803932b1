import Mathlib.Data.List.Induction
import WaviclesPrime.Lib.KeyMap
import WaviclesPrime.Lib.Machine
import WaviclesPrime.Lib.Recent
import WaviclesPrime.Tides.Split

/-! What the pool keeps of each worker behind a gateway, and the shares it keeps it of. -/
namespace WaviclesPrime.Primed
open Machine Recent Tides

structure WorkerStat where
  gateway : String
  accepted : Nat
  work : Nat
  lastShareTs : Nat
  recent : List (Nat × Nat)
  deriving DecidableEq

def WorkerStat.default : WorkerStat := ⟨"", 0, 0, 0, []⟩

/-- Shares this old do not count for the rate. -/
def workerRateS : Nat := 600

/-- Workers silent this long are dropped. -/
def workerExpireS : Nat := 3600

structure Worker where
  identity : Identity
  worker : String
  deriving DecidableEq

structure WorkerShare where
  gateway : String
  work : Nat
  ts : Nat
  deriving DecidableEq

abbrev Workers := KeyMap Worker WorkerStat

namespace Workers

/-- None where a count overflows, with the table's lock held. -/
def creditWorker (w : Workers) (k : Worker) (s : WorkerShare) : Option Workers := do
  let e := (w.get k).getD .default
  let accepted ← checkedAdd sizeU64 e.accepted 1
  let work ← checkedAdd sizeU64 e.work s.work
  some (w.insert k ⟨s.gateway, accepted, work, s.ts, trim Prod.fst workerRateS s.ts (e.recent ++ [(s.ts, s.work)])⟩)

def expireWorkers (w : Workers) (ts : Nat) : Workers :=
  w.adjust fun e =>
    if ts - e.lastShareTs ≤ workerExpireS then some { e with recent := trim Prod.fst workerRateS ts e.recent } else none

end Workers

inductive WorkerOp where
  | credit (k : Worker) (s : WorkerShare)
  | expire (ts : Nat)

def WorkerOp.ts : WorkerOp → Nat
  | .credit _ s => s.ts
  | .expire ts => ts

def Workers.apply (w : Workers) : WorkerOp → Option Workers
  | .credit k s => w.creditWorker k s
  | .expire ts => some (w.expireWorkers ts)

def Workers.run (w : Workers) (ops : List WorkerOp) : Option Workers := ops.foldlM apply w

/-- The shares of one worker since it was last dropped, and when the old ones were last left out. -/
structure Heard where
  past : List WorkerShare
  swept : Nat

namespace Heard

def none : Heard := ⟨[], 0⟩

def silent (h : Heard) (ts : Nat) : Bool := h.past.getLast?.any fun last => workerExpireS < ts - last.ts

def hear (k : Worker) (h : Heard) : WorkerOp → Heard
  | .credit j s => if j = k then ⟨h.past ++ [s], s.ts⟩ else h
  | .expire ts => ⟨if h.silent ts then [] else h.past, ts⟩

def run (k : Worker) (h : Heard) (ops : List WorkerOp) : Heard := ops.foldl (hear k) h

/-- What is to be known of a worker whose shares these are. -/
def told (h : Heard) : Option WorkerStat :=
  h.past.getLast?.map fun last =>
    ⟨last.gateway, h.past.length, (h.past.map WorkerShare.work).sum, last.ts,
      (h.past.filter (isRecent WorkerShare.ts workerRateS h.swept)).map fun s => (s.ts, s.work)⟩

/-- Counts that the table has room for. -/
structure Fits (h : Heard) : Prop where
  accepted : h.past.length < sizeU64
  work : (h.past.map WorkerShare.work).sum < sizeU64

/-- In order, and nothing of a time to come. -/
structure Timely (now : Nat) (h : Heard) : Prop where
  ordered : Ordered WorkerShare.ts h.past
  past : ∀ s ∈ h.past, s.ts ≤ now
  swept : h.swept ≤ now

end Heard

namespace Workers
variable {w : Workers} {k : Worker} {s : WorkerShare} {h : Heard} {now : Nat}

theorem creditWorker_eq_some {w' : Workers} : w.creditWorker k s = some w' ↔
    ((w.get k).getD .default).accepted + 1 < sizeU64 ∧ ((w.get k).getD .default).work + s.work < sizeU64 ∧
    w' = w.insert k ⟨s.gateway, ((w.get k).getD .default).accepted + 1, ((w.get k).getD .default).work + s.work, s.ts,
      trim Prod.fst workerRateS s.ts (((w.get k).getD .default).recent ++ [(s.ts, s.work)])⟩ := by
  simp only [creditWorker, Option.bind_eq_bind, Option.bind_eq_some_iff, checkedAdd_eq_some, Option.some.injEq]
  constructor
  · rintro ⟨_, ⟨ha, rfl⟩, _, ⟨hw, rfl⟩, rfl⟩
    exact ⟨ha, hw, rfl⟩
  · rintro ⟨ha, hw, rfl⟩
    exact ⟨_, ⟨ha, rfl⟩, _, ⟨hw, rfl⟩, rfl⟩

/-- Every worker of the table is told as its shares say. -/
def Tells (w : Workers) (heard : Worker → Heard) : Prop := ∀ k, w.get k = (heard k).told

theorem told_concat (past : List WorkerShare) (s : WorkerShare) (swept : Nat) :
    (⟨past ++ [s], swept⟩ : Heard).told =
      some ⟨s.gateway, past.length + 1, (past.map WorkerShare.work).sum + s.work, s.ts,
        ((past ++ [s]).filter (isRecent WorkerShare.ts workerRateS swept)).map fun s => (s.ts, s.work)⟩ := by
  rw [Heard.told, List.getLast?_concat, Option.map_some, List.length_append, List.length_singleton, List.map_append,
    List.sum_append, List.map_singleton, List.sum_singleton]

/-- The fields that counts go on from. -/
theorem told_getD (h : Heard) : (h.told.getD .default).accepted = h.past.length ∧
    (h.told.getD .default).work = (h.past.map WorkerShare.work).sum ∧
    (h.told.getD .default).recent =
      (h.past.filter (isRecent WorkerShare.ts workerRateS h.swept)).map fun s => (s.ts, s.work) := by
  obtain ⟨past, swept⟩ := h
  cases past using List.reverseRecOn with
  | nil => exact ⟨rfl, rfl, rfl⟩
  | append_singleton past s =>
    rw [told_concat, Option.getD_some, List.length_append, List.length_singleton, List.map_append, List.sum_append,
      List.map_singleton, List.sum_singleton]
    exact ⟨rfl, rfl, rfl⟩

/-- Trimming the times and the work of shares is trimming the shares. -/
theorem trim_map {past : List WorkerShare} (hordered : Ordered WorkerShare.ts past) (now : Nat) :
    trim Prod.fst workerRateS now (past.map fun s => (s.ts, s.work)) =
      (past.filter (isRecent WorkerShare.ts workerRateS now)).map fun s => (s.ts, s.work) := by
  have hpairs : Ordered Prod.fst (past.map fun s => (s.ts, s.work)) := List.pairwise_map.mpr hordered
  rw [trim_eq_filter hpairs, List.filter_map]
  rfl

end Workers

namespace Heard
variable {h : Heard} {now : Nat}

/-- A share that comes later leaves the shares in order. -/
theorem Timely.concat (ht : h.Timely now) {s : WorkerShare} (hs : now ≤ s.ts) :
    Ordered WorkerShare.ts (h.past ++ [s]) := by
  refine List.pairwise_append.mpr ⟨ht.ordered, List.pairwise_singleton .., fun x hx y hy => ?_⟩
  rw [List.mem_singleton.mp hy]
  exact (ht.past x hx).trans hs

theorem Timely.hear (ht : h.Timely now) (k : Worker) {op : WorkerOp} (hop : now ≤ op.ts) :
    (h.hear k op).Timely op.ts := by
  have hlater : h.Timely op.ts := ⟨ht.ordered, fun s hs => (ht.past s hs).trans hop, ht.swept.trans hop⟩
  cases op with
  | credit j s =>
    rw [Heard.hear]
    split
    next =>
      refine ⟨ht.concat hop, fun x hx => ?_, Nat.le_refl _⟩
      rcases List.mem_append.mp hx with hx | hx
      · exact hlater.past x hx
      · rw [List.mem_singleton.mp hx]
        exact Nat.le_refl _
    next => exact hlater
  | expire ts =>
    rw [Heard.hear]
    split
    next => exact ⟨.nil, nofun, Nat.le_refl _⟩
    next => exact ⟨ht.ordered, hlater.past, Nat.le_refl _⟩

end Heard

namespace Workers
variable {w : Workers} {heard : Worker → Heard} {now : Nat}

/-- What old shares were left out before makes no difference after. -/
theorem recent_sweep {h : Heard} (ht : h.Timely now) {ts : Nat} (hts : now ≤ ts) (more : List WorkerShare)
    (hordered : Ordered WorkerShare.ts (h.past ++ more)) :
    trim Prod.fst workerRateS ts
        ((h.past.filter (isRecent WorkerShare.ts workerRateS h.swept)).map (fun s => (s.ts, s.work)) ++
          more.map fun s => (s.ts, s.work)) =
      ((h.past ++ more).filter (isRecent WorkerShare.ts workerRateS ts)).map fun s => (s.ts, s.work) := by
  rw [← List.map_append, trim_map (hordered.sublist (List.filter_sublist.append_right _)), List.filter_append,
    filter_isRecent_filter (ht.swept.trans hts), ← List.filter_append]

theorem Tells.credit (h : w.Tells heard) (k : Worker) (s : WorkerShare) (ht : (heard k).Timely now) (hs : now ≤ s.ts) :
    (∃ w', w.creditWorker k s = some w' ∧ w'.Tells (fun j => (heard j).hear j (.credit k s)) ∧
      (⟨(heard k).past ++ [s], s.ts⟩ : Heard).Fits) ∨
    (w.creditWorker k s = none ∧ ¬ (⟨(heard k).past ++ [s], s.ts⟩ : Heard).Fits) := by
  obtain ⟨haccepted, hwork, hrecent⟩ := told_getD (heard k)
  rw [← h k] at haccepted hwork hrecent
  by_cases hfits : (heard k).past.length + 1 < sizeU64 ∧ ((heard k).past.map WorkerShare.work).sum + s.work < sizeU64
  · have hroom := hfits
    rw [← haccepted, ← hwork] at hroom
    refine .inl ⟨_, creditWorker_eq_some.mpr ⟨hroom.1, hroom.2, rfl⟩, ?_, ?_⟩
    · intro j
      beta_reduce
      rw [KeyMap.get_insert, Heard.hear]
      by_cases hj : j = k
      · subst hj
        rw [if_pos rfl, if_pos rfl, told_concat, haccepted, hwork, hrecent]
        exact congrArg (fun recent => some (WorkerStat.mk s.gateway _ _ s.ts recent))
          (recent_sweep ht hs [s] (ht.concat hs))
      · rw [if_neg hj, if_neg (Ne.symm hj)]
        exact h j
    · refine ⟨?_, ?_⟩
      · rw [List.length_append, List.length_singleton]
        exact hfits.1
      · rw [List.map_append, List.sum_append, List.map_singleton, List.sum_singleton]
        exact hfits.2
  · refine .inr ⟨?_, fun hno => hfits ?_⟩
    · refine Option.eq_none_iff_forall_ne_some.mpr fun w' hw' => hfits ?_
      obtain ⟨ha, hw, -⟩ := creditWorker_eq_some.mp hw'
      rw [haccepted] at ha
      rw [hwork] at hw
      exact ⟨ha, hw⟩
    · obtain ⟨ha, hw⟩ := hno
      rw [List.length_append, List.length_singleton] at ha
      rw [List.map_append, List.sum_append, List.map_singleton, List.sum_singleton] at hw
      exact ⟨ha, hw⟩

theorem Tells.expire (h : w.Tells heard) {ts : Nat} (ht : ∀ k, (heard k).Timely now) (hts : now ≤ ts) :
    (w.expireWorkers ts).Tells fun k => (heard k).hear k (.expire ts) := by
  intro k
  beta_reduce
  rw [expireWorkers, KeyMap.get_adjust, h k, Heard.hear]
  have hk := ht k
  generalize heard k = h at hk
  obtain ⟨past, swept⟩ := h
  cases past using List.reverseRecOn with
  | nil =>
    dsimp only [Heard.told]
    split <;> rfl
  | append_singleton past s =>
    rw [told_concat, Option.bind_some]
    have hsilent : (⟨past ++ [s], swept⟩ : Heard).silent ts = decide (workerExpireS < ts - s.ts) := by
      rw [Heard.silent, List.getLast?_concat]
      rfl
    by_cases hold : ts - s.ts ≤ workerExpireS
    · rw [if_pos hold, hsilent, if_neg (by simpa using hold), told_concat]
      have hsweep := recent_sweep hk hts [] (by rw [List.append_nil]; exact hk.ordered)
      rw [List.map_nil, List.append_nil, List.append_nil] at hsweep
      exact congrArg (fun recent => some (WorkerStat.mk s.gateway _ _ s.ts recent)) hsweep
    · rw [if_neg hold, hsilent, if_pos (decide_eq_true (Nat.lt_of_not_le hold))]
      rfl

theorem Tells.run (h : w.Tells heard) (ht : ∀ k, (heard k).Timely now) (hfits : ∀ k, (heard k).Fits) {ops : List WorkerOp}
    (hordered : Ordered WorkerOp.ts ops) (hops : ∀ op ∈ ops, now ≤ op.ts) :
    (∃ w', w.run ops = some w' ∧ w'.Tells (fun k => (heard k).run k ops) ∧
      ∀ front, front <+: ops → ∀ k, ((heard k).run k front).Fits) ∨
    (w.run ops = none ∧ ∃ front, front <+: ops ∧ ∃ k, ¬ ((heard k).run k front).Fits) := by
  induction ops generalizing w heard now with
  | nil =>
    refine .inl ⟨w, rfl, h, fun front hfront k => ?_⟩
    rw [List.prefix_nil.mp hfront]
    exact hfits k
  | cons op ops ih =>
    obtain ⟨hfirst, hrest⟩ := List.pairwise_cons.mp hordered
    have hop : now ≤ op.ts := hops op List.mem_cons_self
    have htimely : ∀ k, ((heard k).hear k op).Timely op.ts := fun k => (ht k).hear k hop
    have hstep : (∃ w', w.apply op = some w' ∧ w'.Tells (fun k => (heard k).hear k op) ∧
          ∀ k, ((heard k).hear k op).Fits) ∨
        (w.apply op = none ∧ ∃ k, ¬ ((heard k).hear k op).Fits) := by
      cases op with
      | credit k s =>
        rcases h.credit k s (ht k) hop with ⟨w', hw', htells, hk⟩ | ⟨hnone, hk⟩
        · refine .inl ⟨w', hw', htells, fun j => ?_⟩
          rw [Heard.hear]
          split
          next heq => exact heq ▸ hk
          next => exact hfits j
        · refine .inr ⟨hnone, k, ?_⟩
          rw [Heard.hear, if_pos rfl]
          exact hk
      | expire ts =>
        refine .inl ⟨_, rfl, h.expire ht hop, fun k => ?_⟩
        rw [Heard.hear]
        split
        · exact ⟨Nat.zero_lt_succ _, Nat.zero_lt_succ _⟩
        · exact ⟨(hfits k).accepted, (hfits k).work⟩
    rw [Workers.run, List.foldlM_cons]
    rcases hstep with ⟨w', hw', htells, hk⟩ | ⟨hnone, k, hk⟩
    · rw [hw', Option.bind_eq_bind, Option.bind_some]
      rcases ih htells htimely hk hrest hfirst with ⟨w'', hrun, htells', hall⟩ | ⟨hrun, front, hfront, k, hover⟩
      · refine .inl ⟨w'', hrun, htells', fun front hfront k => ?_⟩
        cases front with
        | nil => exact hfits k
        | cons e front =>
          obtain ⟨rfl, hback⟩ := List.cons_prefix_cons.mp hfront
          exact hall front hback k
      · exact .inr ⟨hrun, op :: front, List.cons_prefix_cons.mpr ⟨rfl, hfront⟩, k, hover⟩
    · rw [hnone, Option.bind_eq_bind, Option.bind_none]
      exact .inr ⟨rfl, [op], List.cons_prefix_cons.mpr ⟨rfl, List.nil_prefix⟩, k, hk⟩

end Workers

/-- The table is the log of every worker's shares, summed up: what is kept of a worker is of just the shares since
it was last silent for an hour, its recent ones those of the ten minutes before the table was last gone through.
The pool stops only where a worker's counts have no room. -/
theorem workers_told {ops : List WorkerOp} (hordered : Ordered WorkerOp.ts ops) :
    (∀ w, Workers.run .empty ops = some w → ∀ k, w.get k = (Heard.none.run k ops).told) ∧
      (Workers.run .empty ops = none ↔ ∃ front, front <+: ops ∧ ∃ k, ¬ (Heard.none.run k front).Fits) := by
  have htells : Workers.Tells .empty fun _ => Heard.none := fun _ => rfl
  have htimely : ∀ _ : Worker, Heard.none.Timely 0 := fun _ => ⟨.nil, nofun, Nat.le_refl _⟩
  have hfits : ∀ _ : Worker, Heard.none.Fits := fun _ => ⟨Nat.zero_lt_succ _, Nat.zero_lt_succ _⟩
  rcases htells.run htimely hfits hordered (fun _ _ => Nat.zero_le _) with ⟨w, hrun, hw, hall⟩ | ⟨hrun, hover⟩
  · refine ⟨fun w' hw' => ?_, fun hnone => ?_, fun ⟨front, hfront, k, hover⟩ => absurd (hall front hfront k) hover⟩
    · obtain rfl := Option.some.inj (hrun.symm.trans hw')
      exact hw
    · rw [hrun] at hnone
      cases hnone
  · refine ⟨fun w hw => ?_, fun _ => hover, fun _ => hrun⟩
    rw [hrun] at hw
    cases hw

/-- A worker that comes back after it was dropped starts anew. -/
def returningOps : List WorkerOp :=
  [.credit ⟨"i", "w"⟩ ⟨"g", 5, 100⟩, .expire 3600, .credit ⟨"i", "w"⟩ ⟨"g", 7, 3650⟩, .expire 8000,
    .credit ⟨"i", "w"⟩ ⟨"h", 9, 8001⟩]

theorem workers_told_returning :
    (Workers.run .empty returningOps).bind (KeyMap.get · ⟨"i", "w"⟩) = some ⟨"h", 1, 9, 8001, [(8001, 9)]⟩ := by
  have hordered : Ordered WorkerOp.ts returningOps := by simp [Ordered, returningOps, WorkerOp.ts]
  have hsome : (Workers.run .empty returningOps).isSome := by decide
  obtain ⟨w, hw⟩ := Option.isSome_iff_exists.mp hsome
  rw [hw]
  exact ((workers_told hordered).1 w hw _).trans (by decide)

end WaviclesPrime.Primed
