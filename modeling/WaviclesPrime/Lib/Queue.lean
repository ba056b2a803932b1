import Mathlib.Algebra.BigOperators.Ring.List
import Mathlib.Algebra.Order.BigOperators.Group.List
import Mathlib.Algebra.Order.Ring.Nat
import Mathlib.Data.List.Infix
import Mathlib.Tactic.Common

/-! Queues cut from the front, to the shortest end of them that still has a given weight. -/
namespace WaviclesPrime.Queue
variable {α : Type} (weight : α → Nat)

def total (xs : List α) : Nat := (xs.map weight).sum

/-- Drop the front while what follows it has the weight asked for. -/
def trim (target : Nat) : List α → List α
  | [] => []
  | x :: xs => if target ≤ total weight xs then trim target xs else x :: xs

/-- The shortest end of a queue that has the weight asked for, or all of it if it has less. -/
def IsShortest (target : Nat) (all kept : List α) : Prop :=
  kept <:+ all ∧ (total weight all < target → kept = all) ∧
    (target ≤ total weight all → target ≤ total weight kept ∧
      ∀ other, other <:+ all → target ≤ total weight other → kept.length ≤ other.length)

@[simp] theorem total_nil : total weight [] = 0 := rfl

@[simp] theorem total_cons (x : α) (xs : List α) : total weight (x :: xs) = weight x + total weight xs := rfl

@[simp] theorem total_append (xs ys : List α) :
    total weight (xs ++ ys) = total weight xs + total weight ys := by
  rw [total, List.map_append, List.sum_append]
  rfl

variable {weight} {target : Nat} {xs : List α}

theorem total_le_of_suffix {ys : List α} (h : ys <:+ xs) : total weight ys ≤ total weight xs := by
  obtain ⟨front, rfl⟩ := h
  rw [total_append]
  exact Nat.le_add_left _ _

theorem trim_suffix (target : Nat) (xs : List α) : trim weight target xs <:+ xs := by
  induction xs with
  | nil => exact List.suffix_rfl
  | cons x xs ih =>
    rw [trim]
    split
    next => exact ih.trans (List.suffix_cons x xs)
    next => exact List.suffix_rfl

/-- A queue that falls short is left alone. -/
theorem trim_of_lt (h : total weight xs < target) : trim weight target xs = xs := by
  cases xs with
  | nil => rfl
  | cons x xs =>
    rw [total_cons] at h
    rw [trim, if_neg (by omega)]

theorem le_total_trim (h : target ≤ total weight xs) : target ≤ total weight (trim weight target xs) := by
  induction xs with
  | nil => exact h
  | cons x xs ih =>
    rw [trim]
    split
    next hrest => exact ih hrest
    next => exact h

/-- Whatever end has the weight, what is kept is an end of it. -/
theorem trim_suffix_of_le {ys : List α} (hs : ys <:+ xs) (hw : target ≤ total weight ys) :
    trim weight target xs <:+ ys := by
  induction xs with
  | nil =>
    obtain rfl := List.suffix_nil.mp hs
    exact List.suffix_rfl
  | cons x xs ih =>
    rcases List.suffix_cons_iff.mp hs with rfl | hs
    · exact trim_suffix target _
    · rw [trim, if_pos (hw.trans (total_le_of_suffix hs))]
      exact ih hs

theorem trim_isShortest (target : Nat) (xs : List α) :
    IsShortest weight target xs (trim weight target xs) :=
  ⟨trim_suffix target xs, trim_of_lt,
    fun h => ⟨le_total_trim h, fun _ hs hw => (trim_suffix_of_le hs hw).length_le⟩⟩

/-- Cutting early does not change what is left at the end. -/
theorem trim_trim_append {larger : Nat} (h : target ≤ larger) (xs ys : List α) :
    trim weight target (trim weight larger xs ++ ys) = trim weight target (xs ++ ys) := by
  induction xs with
  | nil => rfl
  | cons x xs ih =>
    rw [trim]
    split
    next hrest =>
      rw [ih, List.cons_append, trim, if_pos]
      rw [total_append]
      omega
    next => rfl

theorem trim_append (target : Nat) (xs ys : List α) :
    trim weight target (trim weight target xs ++ ys) = trim weight target (xs ++ ys) :=
  trim_trim_append (Nat.le_refl _) xs ys

theorem total_le_of_sublist {ys : List α} (h : ys.Sublist xs) : total weight ys ≤ total weight xs :=
  (h.map weight).sum_le_sum (by simp)

/-- The front stays just when what follows it falls short. -/
theorem trim_cons_eq_self {x : α} : trim weight target (x :: xs) = x :: xs ↔ total weight xs < target := by
  rw [trim]
  split
  next hle =>
    have hlen := (@trim_suffix _ weight target xs).length_le
    refine iff_of_false (fun heq => ?_) (Nat.not_lt_of_le hle)
    rw [heq, List.length_cons] at hlen
    omega
  next hshort => exact iff_of_true rfl (Nat.lt_of_not_le hshort)

/-- Where there is nothing to cut, taking elements out leaves nothing to cut either. -/
theorem trim_of_sublist {ys : List α} (h : ys.Sublist xs) (hfix : trim weight target xs = xs) :
    trim weight target ys = ys := by
  cases h with
  | slnil => rfl
  | cons x hsub =>
    exact trim_of_lt (Nat.lt_of_le_of_lt (total_le_of_sublist hsub) (trim_cons_eq_self.mp hfix))
  | cons_cons x hsub =>
    exact trim_cons_eq_self.mpr
      (Nat.lt_of_le_of_lt (total_le_of_sublist hsub) (trim_cons_eq_self.mp hfix))

/-- The weight of a queue, gathered by the keys of its elements. -/
theorem sum_total_filter {κ : Type} [DecidableEq κ] (key : α → κ) {ks : List κ} (hn : ks.Nodup)
    (hall : ∀ x ∈ xs, key x ∈ ks) :
    (ks.map fun k => total weight (xs.filter fun x => key x = k)).sum = total weight xs := by
  induction xs with
  | nil => simp
  | cons x xs ih =>
    have hsplit : (ks.map fun k => total weight ((x :: xs).filter fun y => key y = k)) =
        ks.map fun k => (if k = key x then weight x else 0) + total weight (xs.filter fun y => key y = k) := by
      refine List.map_congr_left fun k _ => ?_
      by_cases hk : key x = k
      · simp [hk]
      · simp [hk, Ne.symm hk]
    have hone : (ks.map fun k => if k = key x then weight x else 0).sum = weight x := by
      rw [List.sum_map_eq_nsmul_single (key x) _ fun k hk _ => if_neg hk, hn.count,
        if_pos (hall x List.mem_cons_self), if_pos rfl, one_nsmul]
    rw [hsplit, List.sum_map_add, hone, ih fun y hy => hall y (List.mem_cons_of_mem _ hy), total_cons]

end WaviclesPrime.Queue
