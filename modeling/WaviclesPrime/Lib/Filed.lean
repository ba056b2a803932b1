import Mathlib.Algebra.BigOperators.Group.List.Basic
import WaviclesPrime.Lib.KeyMap

/-! Maps that file the elements of a list, each under its key. -/
namespace WaviclesPrime.KeyMap
variable {κ α β : Type} [DecidableEq κ] {key : β → κ} {val : β → α} {m : KeyMap κ (List α)} {xs : List β}

/-- Under each key, the values of the elements that have it, in their order. -/
def Files (m : KeyMap κ (List α)) (key : β → κ) (val : β → α) (xs : List β) : Prop :=
  ∀ k, (m.get k).getD [] = (xs.filter (key · = k)).map val

theorem files_empty : (empty : KeyMap κ (List α)).Files key val [] := fun _ => rfl

/-- A key may be there with nothing under it. -/
theorem Files.opened (h : m.Files key val xs) (k : κ) : (m.insert k ((m.get k).getD [])).Files key val xs := by
  intro j
  rw [get_insert]
  split
  next heq =>
    rw [heq]
    exact h k
  next => exact h j

theorem Files.cons (h : m.Files key val xs) (x : β) :
    (m.insert (key x) (val x :: (m.get (key x)).getD [])).Files key val (x :: xs) := by
  intro j
  rw [get_insert, List.filter_cons]
  by_cases heq : j = key x
  · subst heq
    rw [if_pos rfl, if_pos (decide_eq_true rfl), Option.getD_some, h, List.map_cons]
  · rw [if_neg heq, if_neg (by simpa using Ne.symm heq)]
    exact h j

theorem Files.retain (h : m.Files key val xs) (keep : κ → Bool) :
    (m.retain keep).Files key val (xs.filter fun x => keep (key x)) := by
  intro j
  rw [get_retain, List.filter_filter]
  cases hkeep : keep j with
  | true =>
    have hsame : xs.filter (fun x => decide (key x = j) && keep (key x)) = xs.filter (key · = j) := by
      refine List.filter_congr fun x _ => ?_
      by_cases heq : key x = j <;> simp [heq, hkeep]
    rw [if_pos rfl, hsame]
    exact h j
  | false =>
    have hnone : xs.filter (fun x => decide (key x = j) && keep (key x)) = [] := by
      refine List.filter_eq_nil_iff.mpr fun x _ => ?_
      by_cases heq : key x = j <;> simp [heq, hkeep]
    rw [if_neg Bool.false_ne_true, hnone]
    rfl

/-- An element's key is one of the map's. -/
theorem Files.key_mem (h : m.Files key val xs) {x : β} (hx : x ∈ xs) : key x ∈ m.entries.map Prod.fst := by
  have hlist : (m.get (key x)).getD [] ≠ [] := by
    rw [h]
    exact List.ne_nil_of_mem (List.mem_map_of_mem (List.mem_filter.mpr ⟨hx, decide_eq_true rfl⟩))
  cases hget : m.get (key x) with
  | none =>
    rw [hget] at hlist
    exact absurd rfl hlist
  | some v => exact List.mem_map.mpr ⟨_, get_eq_some.mp hget, rfl⟩

theorem sum_map_ite_eq (ks : List κ) (a : κ) : (ks.map fun k => if a = k then 1 else 0).sum = ks.count a := by
  induction ks with
  | nil => rfl
  | cons k ks ih =>
    rw [List.map_cons, List.sum_cons, ih, List.count_cons, Nat.add_comm]
    by_cases heq : a = k
    · simp [heq]
    · simp [heq, Ne.symm heq]

/-- Counted key by key, each element is counted once. -/
theorem sum_map_countP {ks : List κ} (hn : ks.Nodup) (p : κ → Bool) (hall : ∀ x ∈ xs, key x ∈ ks) :
    ((ks.filter p).map fun k => xs.countP (key · = k)).sum = xs.countP fun x => p (key x) := by
  induction xs with
  | nil => simp
  | cons x xs ih =>
    obtain ⟨hx, hxs⟩ := List.forall_mem_cons.mp hall
    have hone : ((ks.filter p).map fun k => if key x = k then 1 else 0).sum = if p (key x) then 1 else 0 := by
      rw [sum_map_ite_eq]
      split
      next hp => rw [List.count_filter hp, List.count_eq_one_of_mem hn hx]
      next hp => exact List.count_eq_zero.mpr fun hmem => hp (List.mem_filter.mp hmem).2
    have hsplit : ((ks.filter p).map fun k => (x :: xs).countP (key · = k)) =
        (ks.filter p).map fun k => xs.countP (key · = k) + if key x = k then 1 else 0 := by
      refine List.map_congr_left fun k _ => ?_
      rw [List.countP_cons]
      simp only [decide_eq_true_eq]
    rw [hsplit, List.sum_map_add, ih hxs, hone, List.countP_cons]

/-- What is filed under some of the keys is as much as the elements that have them. -/
theorem Files.sum_filter (h : m.Files key val xs) (p : κ → Bool) :
    ((m.entries.filter fun e => p e.1).map fun e => e.2.length).sum = xs.countP fun x => p (key x) := by
  have hlengths : ((m.entries.filter fun e => p e.1).map fun e => e.2.length) =
      ((m.entries.map Prod.fst).filter p).map fun k => xs.countP (key · = k) := by
    rw [List.filter_map, List.map_map]
    refine List.map_congr_left fun e he => ?_
    have hget := h e.1
    rw [get_eq_some.mpr (List.mem_of_mem_filter he), Option.getD_some] at hget
    rw [hget, List.length_map, Function.comp_apply, List.countP_eq_length_filter]
  rw [hlengths]
  exact sum_map_countP m.distinct p fun x hx => h.key_mem hx

end WaviclesPrime.KeyMap
