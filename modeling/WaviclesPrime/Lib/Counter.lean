import Mathlib.Data.Nat.ModEq
import Mathlib.Logic.Function.Iterate

/-! Counters that wrap. -/
namespace WaviclesPrime.Counter
variable {α : Type} {value : α → Nat} {next : α → α} {n : Nat}

/-- So many steps add as much, around the modulus. -/
theorem value_iterate (hlt : ∀ a, value a < n) (hnext : ∀ a, value (next a) = (value a + 1) % n) (i : Nat) (a : α) :
    value (next^[i] a) = (value a + i) % n := by
  induction i with
  | zero => exact (Nat.mod_eq_of_lt (hlt a)).symm
  | succ i ih => rw [Function.iterate_succ_apply', hnext, ih, Nat.mod_add_mod, Nat.add_assoc]

/-- A counter does not come back within its modulus. -/
theorem iterate_inj (hlt : ∀ a, value a < n) (hnext : ∀ a, value (next a) = (value a + 1) % n) {i j : Nat} {a : α}
    (hi : i < n) (hj : j < n) (h : next^[i] a = next^[j] a) : i = j := by
  have hvalue := congrArg value h
  rw [value_iterate hlt hnext, value_iterate hlt hnext] at hvalue
  exact (Nat.ModEq.add_left_cancel' (value a) hvalue).eq_of_lt_of_lt hi hj

/-- Two counters that start far apart, both ways around, do not meet for as many steps. -/
theorem iterate_ne (hlt : ∀ a, value a < n) (hnext : ∀ a, value (next a) = (value a + 1) % n) {i j far : Nat} {a b : α}
    (hab : value a + far ≤ value b) (hba : value b + far ≤ value a + n) (hi : i < far) (hj : j < far) :
    next^[i] a ≠ next^[j] b := by
  intro h
  have hvalue := congrArg value h
  rw [value_iterate hlt hnext, value_iterate hlt hnext] at hvalue
  have hdvd := (Nat.modEq_iff_dvd' (by omega : value a + i ≤ value b + j)).mp hvalue
  have hle := Nat.le_of_dvd (by omega) hdvd
  omega

end WaviclesPrime.Counter
