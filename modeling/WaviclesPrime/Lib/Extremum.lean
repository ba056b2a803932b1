import Mathlib.Data.List.Basic
import Mathlib.Tactic.Common

/-! The largest element of a list under a key: the first of several, the last of several, and
when the two are the same. -/
namespace WaviclesPrime.Extremum
variable {α : Type}

/-- Of the elements with the largest key, `top` at `i` is the last. -/
structure LastMax (key : α → Nat) (xs : List α) (i : Nat) (top : α) : Prop where
  here : xs[i]? = some top
  ge : ∀ (k : Nat) (x : α), xs[k]? = some x → key x ≤ key top
  after : ∀ (k : Nat) (x : α), xs[k]? = some x → i < k → key x < key top

/-- Of the elements with the largest key, `top` at `i` is the first. -/
structure FirstMax (key : α → Nat) (xs : List α) (i : Nat) (top : α) : Prop where
  here : xs[i]? = some top
  ge : ∀ (k : Nat) (x : α), xs[k]? = some x → key x ≤ key top
  before : ∀ (k : Nat) (x : α), xs[k]? = some x → k < i → key x < key top

/-- One element has a larger key than every other. -/
def UniqueMax (key : α → Nat) (xs : List α) : Prop :=
  ∃ (i : Nat) (top : α), xs[i]? = some top ∧ ∀ (k : Nat) (x : α), xs[k]? = some x → k ≠ i → key x < key top

theorem getElem?_snoc {xs : List α} {q x : α} {k : Nat} :
    (xs ++ [q])[k]? = some x ↔ xs[k]? = some x ∨ (k = xs.length ∧ x = q) := by
  rcases Nat.lt_trichotomy k xs.length with h | rfl | h
  · simp [List.getElem?_append_left h, Nat.ne_of_lt h]
  · simp [eq_comm]
  · have hnone : xs[k]? = none := List.getElem?_eq_none (by omega)
    have hlong : (xs ++ [q])[k]? = none := List.getElem?_eq_none (by simp; omega)
    simp [hnone, hlong, Nat.ne_of_gt h]

section
variable {key : α → Nat} {xs : List α} {i : Nat} {top q : α}

theorem lt_length_of_getElem? {k : Nat} {x : α} (h : xs[k]? = some x) : k < xs.length :=
  (List.getElem?_eq_some_iff.mp h).1

theorem LastMax.snoc_ge (h : LastMax key xs i top) (hq : key top ≤ key q) :
    LastMax key (xs ++ [q]) xs.length q where
  here := getElem?_snoc.mpr (.inr ⟨rfl, rfl⟩)
  ge k x hx := by
    rcases getElem?_snoc.mp hx with hx | ⟨-, rfl⟩
    · exact Nat.le_trans (h.ge k x hx) hq
    · exact Nat.le_refl _
  after k x hx hk := by
    rcases getElem?_snoc.mp hx with hx | ⟨rfl, -⟩
    · have := lt_length_of_getElem? hx; omega
    · omega

theorem LastMax.snoc_lt (h : LastMax key xs i top) (hq : key q < key top) :
    LastMax key (xs ++ [q]) i top where
  here := getElem?_snoc.mpr (.inl h.here)
  ge k x hx := by
    rcases getElem?_snoc.mp hx with hx | ⟨-, rfl⟩
    · exact h.ge k x hx
    · exact Nat.le_of_lt hq
  after k x hx hk := by
    rcases getElem?_snoc.mp hx with hx | ⟨-, rfl⟩
    · exact h.after k x hx hk
    · exact hq

theorem FirstMax.snoc_gt (h : FirstMax key xs i top) (hq : key top < key q) :
    FirstMax key (xs ++ [q]) xs.length q where
  here := getElem?_snoc.mpr (.inr ⟨rfl, rfl⟩)
  ge k x hx := by
    rcases getElem?_snoc.mp hx with hx | ⟨-, rfl⟩
    · exact Nat.le_trans (h.ge k x hx) (Nat.le_of_lt hq)
    · exact Nat.le_refl _
  before k x hx hk := by
    rcases getElem?_snoc.mp hx with hx | ⟨rfl, -⟩
    · exact Nat.lt_of_le_of_lt (h.ge k x hx) hq
    · omega

theorem FirstMax.snoc_le (h : FirstMax key xs i top) (hq : key q ≤ key top) :
    FirstMax key (xs ++ [q]) i top where
  here := getElem?_snoc.mpr (.inl h.here)
  ge k x hx := by
    rcases getElem?_snoc.mp hx with hx | ⟨-, rfl⟩
    · exact h.ge k x hx
    · exact hq
  before k x hx hk := by
    rcases getElem?_snoc.mp hx with hx | ⟨rfl, -⟩
    · exact h.before k x hx hk
    · have := lt_length_of_getElem? h.here; omega

theorem lastMax_single (q : α) : LastMax key [q] 0 q := by
  constructor <;> simp +contextual [List.getElem?_singleton]

theorem firstMax_single (q : α) : FirstMax key [q] 0 q := by
  constructor <;> simp +contextual [List.getElem?_singleton]

/-- The first and the last largest element are one exactly when no two share the largest key. -/
theorem first_eq_last_iff {j : Nat} {last : α} (hf : FirstMax key xs i top)
    (hl : LastMax key xs j last) : i = j ↔ UniqueMax key xs := by
  constructor
  · rintro rfl
    obtain rfl := Option.some.inj (hf.here.symm.trans hl.here)
    refine ⟨i, top, hf.here, fun k x hx hk => ?_⟩
    rcases Nat.lt_or_gt_of_ne hk with hk | hk
    · exact hf.before k x hx hk
    · exact hl.after k x hx hk
  · rintro ⟨u, big, hu, hbig⟩
    have hfu : i = u := by
      by_contra hne
      have := hbig i top hf.here hne
      have := hf.ge u big hu
      omega
    have hlu : j = u := by
      by_contra hne
      have := hbig j last hl.here hne
      have := hl.ge u big hu
      omega
    rw [hfu, hlu]

end
end WaviclesPrime.Extremum
