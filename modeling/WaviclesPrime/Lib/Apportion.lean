import Mathlib.Algebra.BigOperators.Group.List.Basic
import Mathlib.Algebra.BigOperators.Ring.List
import Mathlib.Algebra.Order.BigOperators.Group.List
import Mathlib.Tactic.Ring
import Mathlib.Tactic.Linarith

/-! Dividing an amount in proportion to weights, each share rounded down. -/
namespace WaviclesPrime.Apportion
variable {α : Type}

/-- The floors of proportional parts never exceed the floor of the whole. -/
theorem sum_div_le (xs : List α) (f : α → Nat) (d : Nat) :
    (xs.map (fun x => f x / d)).sum ≤ (xs.map f).sum / d := by
  induction xs with
  | nil => simp
  | cons x xs ih =>
    simp only [List.map_cons, List.sum_cons]
    exact (Nat.add_le_add_left ih _).trans Nat.div_add_div_le_add_div

/-- They fall short of it by at most one for each part. -/
theorem div_le_sum_div (xs : List α) (f : α → Nat) {d : Nat} (hd : 0 < d) :
    (xs.map f).sum / d ≤ (xs.map (fun x => f x / d)).sum + xs.length := by
  induction xs with
  | nil => simp
  | cons x xs ih =>
    have hadd : (f x + (xs.map f).sum) / d ≤ f x / d + (xs.map f).sum / d + 1 := by
      rw [Nat.add_div hd]
      split <;> omega
    simp only [List.map_cons, List.sum_cons, List.length_cons]
    omega

/-- Parts whose weights total at most the divisor never exceed the amount divided. -/
theorem sum_share_le (xs : List α) (w : α → Nat) (v d : Nat) (h : (xs.map w).sum ≤ d) :
    (xs.map (fun x => v * w x / d)).sum ≤ v := by
  refine (sum_div_le xs (fun x => v * w x) d).trans ?_
  rw [List.sum_map_mul_left]
  exact Nat.div_le_of_le_mul (by rw [Nat.mul_comm d]; exact Nat.mul_le_mul_left v h)

/-- One part of a list of naturals is at most the sum of the list. -/
theorem le_sum_of_mem {xs : List α} {f : α → Nat} {x : α} (h : x ∈ xs) :
    f x ≤ (xs.map f).sum := List.single_le_sum (by simp) _ (List.mem_map_of_mem h)

/-- Rescaling a list down or up by `a/b` with floors moves at most the rescaled total. -/
theorem sum_rescale_le (xs : List α) (f : α → Nat) (a b : Nat) :
    (xs.map (fun x => f x * a / b)).sum ≤ (xs.map f).sum * a / b := by
  refine (sum_div_le xs (fun x => f x * a) b).trans ?_
  rw [List.sum_map_mul_right]

/-- A bound on each element bounds a sum over a list and one over a sublist of it together. -/
theorem sum_add_sum_le {xs ys : List α} (h : xs.Sublist ys) {f g k : α → Nat}
    (hall : ∀ y ∈ ys, f y ≤ k y) (hin : ∀ x ∈ xs, f x + g x ≤ k x) :
    (ys.map f).sum + (xs.map g).sum ≤ (ys.map k).sum := by
  induction h with
  | slnil => simp
  | cons y _ ih =>
    have := ih (fun z hz => hall z (List.mem_cons_of_mem _ hz)) hin
    have := hall y List.mem_cons_self
    simp only [List.map_cons, List.sum_cons]
    omega
  | cons_cons y _ ih =>
    have := ih (fun z hz => hall z (List.mem_cons_of_mem _ hz))
      fun z hz => hin z (List.mem_cons_of_mem _ hz)
    have := hin y List.mem_cons_self
    simp only [List.map_cons, List.sum_cons]
    omega

/-- A sum over a sublist is one over the whole list of what vanishes elsewhere. -/
theorem sum_sublist_eq {xs ys : List α} (h : xs.Sublist ys) (hn : ys.Nodup) {f g : α → Nat}
    (hin : ∀ x ∈ xs, f x = g x) (hout : ∀ y ∈ ys, y ∉ xs → f y = 0) :
    (ys.map f).sum = (xs.map g).sum := by
  induction h with
  | slnil => simp
  | cons y hsub ih =>
    obtain ⟨hy, hn⟩ := List.nodup_cons.mp hn
    have := ih hn hin fun z hz => hout z (List.mem_cons_of_mem _ hz)
    have := hout y List.mem_cons_self fun hmem => hy (hsub.subset hmem)
    simp only [List.map_cons, List.sum_cons]
    omega
  | cons_cons y hsub ih =>
    obtain ⟨hy, hn⟩ := List.nodup_cons.mp hn
    have := ih hn (fun z hz => hin z (List.mem_cons_of_mem _ hz)) fun z hz hout' =>
      hout z (List.mem_cons_of_mem _ hz) fun hmem => (List.mem_cons.mp hmem).elim
        (fun heq => hy (heq ▸ hz)) hout'
    have := hin y List.mem_cons_self
    simp only [List.map_cons, List.sum_cons]
    omega

end WaviclesPrime.Apportion
