import Mathlib.Algebra.BigOperators.Ring.List
import Mathlib.Algebra.Order.BigOperators.Group.List
import Mathlib.Algebra.Order.Ring.Nat
import Mathlib.Data.List.Sort
import Mathlib.Data.String.Basic
import Mathlib.Tactic.Linarith
import Mathlib.Tactic.Ring

/-! Unsigned machine arithmetic over naturals. A checked operation is `none` where a build
with overflow checks would stop; a cast keeps the low bits; a saturating one stays in range. -/
namespace WaviclesPrime.Machine

abbrev sizeU16 : Nat := 2 ^ 16
abbrev sizeU32 : Nat := 2 ^ 32
abbrev sizeU64 : Nat := 2 ^ 64
abbrev sizeU128 : Nat := 2 ^ 128

def checkedAdd (size a b : Nat) : Option Nat := if a + b < size then some (a + b) else none

def checkedSub (a b : Nat) : Option Nat := if b ≤ a then some (a - b) else none

def checkedMul (size a b : Nat) : Option Nat := if a * b < size then some (a * b) else none

def cast (size a : Nat) : Nat := a % size

def satAdd (size a b : Nat) : Nat := min (a + b) (size - 1)

@[simp] theorem checkedAdd_eq_some {size a b c : Nat} :
    checkedAdd size a b = some c ↔ a + b < size ∧ a + b = c := by
  simp [checkedAdd]

@[simp] theorem checkedSub_eq_some {a b c : Nat} :
    checkedSub a b = some c ↔ b ≤ a ∧ a - b = c := by
  simp [checkedSub]

@[simp] theorem checkedMul_eq_some {size a b c : Nat} :
    checkedMul size a b = some c ↔ a * b < size ∧ a * b = c := by
  simp [checkedMul]

theorem cast_of_lt {size a : Nat} (h : a < size) : cast size a = a := Nat.mod_eq_of_lt h

theorem satAdd_le (size a b : Nat) : satAdd size a b ≤ a + b := Nat.min_le_left _ _

theorem satAdd_of_lt {size a b : Nat} (h : a + b < size) : satAdd size a b = a + b :=
  Nat.min_eq_left (by omega)

/-- A saturating sum over a list is the exact sum cut off at the largest word. -/
theorem foldl_satAdd {size : Nat} (xs : List Nat) (a : Nat) (ha : a < size) :
    xs.foldl (satAdd size) a = min (a + xs.sum) (size - 1) := by
  induction xs generalizing a with
  | nil => simp; omega
  | cons x xs ih =>
    have hs : satAdd size a x < size := by unfold satAdd; omega
    rw [List.foldl_cons, ih _ hs, List.sum_cons]
    unfold satAdd
    omega

/-- A checked sum over a list is the exact sum, or stops. -/
theorem foldlM_checkedAdd {size : Nat} (xs : List Nat) (a c : Nat) (ha : a < size) :
    xs.foldlM (checkedAdd size) a = some c ↔ a + xs.sum < size ∧ a + xs.sum = c := by
  induction xs generalizing a with
  | nil => simp [ha]
  | cons x xs ih =>
    simp only [List.foldlM_cons, Option.bind_eq_bind, Option.bind_eq_some_iff, checkedAdd_eq_some,
      List.sum_cons]
    constructor
    · rintro ⟨b, ⟨hb, rfl⟩, h⟩
      obtain ⟨hlt, heq⟩ := (ih _ hb).mp h
      omega
    · rintro ⟨hlt, heq⟩
      refine ⟨a + x, ⟨by omega, rfl⟩, (ih _ (by omega)).mpr ⟨by omega, by omega⟩⟩

end WaviclesPrime.Machine
