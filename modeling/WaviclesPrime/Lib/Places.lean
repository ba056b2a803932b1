import Mathlib.Data.Finset.Card
import Mathlib.Data.List.Nodup
import Mathlib.Data.List.Perm.Subperm
import Mathlib.Order.Interval.Finset.Nat

/-! Lists that have each name once, in the order of first appearance, and weights on their places. -/
namespace WaviclesPrime.Places
variable {α : Type}

section
variable [DecidableEq α]

theorem eraseDups_concat (names : List α) (s : α) :
    (names ++ [s]).eraseDups = if s ∈ names then names.eraseDups else names.eraseDups ++ [s] := by
  rw [List.eraseDups_append]
  by_cases h : s ∈ names <;> simp [List.removeAll, h, List.eraseDups_cons]

theorem nodup_eraseDups (names : List α) : names.eraseDups.Nodup := by
  induction names using List.reverseRecOn with
  | nil => exact .nil
  | append_singleton names s ih =>
    rw [eraseDups_concat]
    split
    next => exact ih
    next hs =>
      refine ih.append (List.nodup_singleton s) fun a ha has => hs ?_
      rw [List.mem_singleton.mp has] at ha
      exact List.mem_eraseDups.mp ha

theorem eraseDups_of_nodup {names : List α} (h : names.Nodup) : names.eraseDups = names := by
  induction names using List.reverseRecOn with
  | nil => rfl
  | append_singleton names s ih =>
    have hs : s ∉ names := fun hmem => List.disjoint_of_nodup_append h hmem (List.mem_singleton_self s)
    rw [eraseDups_concat, if_neg hs, ih (List.Nodup.of_append_left h)]

end

section
variable (weight : Nat → Nat) (names others : List α)

/-- A name whose place has a weight has as much of it in the other list. -/
def Carried : Prop :=
  ∀ k s, names[k]? = some s → 0 < weight k → ∃ j, others[j]? = some s ∧ weight j = weight k

/-- There is no weight past the end of the first list. -/
def NonePast : Prop := ∀ j, names.length ≤ j → j < others.length → weight j = 0

/-- The weight at a name's place; other names have none. -/
def weightOf [DecidableEq α] (s : α) : Nat := if s ∈ names then weight (names.idxOf s) else 0

/-- The places of a list that have a weight. -/
def weighty : Finset Nat := (Finset.range names.length).filter fun k => 0 < weight k

/-- The names at those places. -/
def heavy [DecidableEq α] : Finset (Option α) := (weighty weight names).image fun k => names[k]?

end

section
variable {weight : Nat → Nat} {names others : List α}

theorem mem_weighty {k : Nat} : k ∈ weighty weight names ↔ k < names.length ∧ 0 < weight k := by
  rw [weighty, Finset.mem_filter, Finset.mem_range]

theorem NonePast.subset (h : NonePast weight names others) :
    weighty weight others ⊆ weighty weight names := by
  intro j hj
  obtain ⟨hlt, hpos⟩ := mem_weighty.mp hj
  by_cases hpast : names.length ≤ j
  · exact absurd (h j hpast hlt) (by omega)
  · exact mem_weighty.mpr ⟨by omega, hpos⟩

variable [DecidableEq α]

theorem card_heavy (hn : names.Nodup) : (heavy weight names).card = (weighty weight names).card := by
  refine Finset.card_image_of_injOn fun j hj k _ heq => ?_
  exact (List.getElem?_inj (mem_weighty.mp hj).1 hn).mp heq

theorem Carried.subset (h : Carried weight names others) : heavy weight names ⊆ heavy weight others := by
  intro x hx
  obtain ⟨k, hk, rfl⟩ := Finset.mem_image.mp hx
  obtain ⟨hlt, hpos⟩ := mem_weighty.mp hk
  obtain ⟨j, hj, hw⟩ := h k names[k] (List.getElem?_eq_getElem hlt) hpos
  refine Finset.mem_image.mpr ⟨j, mem_weighty.mpr ⟨(List.getElem?_eq_some_iff.mp hj).1, by omega⟩, ?_⟩
  rw [List.getElem?_eq_getElem hlt]
  exact hj

/-- With no weight past the end, whatever has a weight in the other list is a name that carried it there. -/
theorem Carried.converse (h : Carried weight names others) (hn : names.Nodup) (ho : others.Nodup)
    (hpast : NonePast weight names others) : Carried weight others names := by
  have hsame : heavy weight names = heavy weight others := by
    refine Finset.eq_of_subset_of_card_le h.subset ?_
    rw [card_heavy hn, card_heavy ho]
    exact Finset.card_le_card hpast.subset
  intro j s hj hpos
  have hlt := (List.getElem?_eq_some_iff.mp hj).1
  have hmem : some s ∈ heavy weight names := by
    rw [hsame]
    exact Finset.mem_image.mpr ⟨j, mem_weighty.mpr ⟨hlt, hpos⟩, hj⟩
  obtain ⟨k, hk, hks⟩ := Finset.mem_image.mp hmem
  obtain ⟨i, hi, hw⟩ := h k s hks (mem_weighty.mp hk).2
  obtain rfl : j = i := (List.getElem?_inj hlt ho).mp (hj.trans hi.symm)
  exact ⟨k, hks, hw.symm⟩

/-- A list that carries another's weights leaves none past its end. -/
theorem Carried.nonePast (h : Carried weight others names) (hn : names.Nodup) (ho : others.Nodup) :
    NonePast weight names others := by
  intro j hge hlt
  by_contra hpos
  have hsub : weighty weight names ⊆ weighty weight others := by
    intro k hk
    obtain ⟨hk, hw⟩ := mem_weighty.mp hk
    exact mem_weighty.mpr ⟨by omega, hw⟩
  have hcard : (weighty weight others).card ≤ (weighty weight names).card := by
    rw [← card_heavy hn, ← card_heavy ho]
    exact Finset.card_le_card h.subset
  have hj : j ∈ weighty weight names := by
    rw [Finset.eq_of_subset_of_card_le hsub hcard]
    exact mem_weighty.mpr ⟨hlt, Nat.pos_of_ne_zero hpos⟩
  exact absurd (mem_weighty.mp hj).1 (by omega)

theorem weightOf_of_place (hn : names.Nodup) {k : Nat} {s : α} (hk : names[k]? = some s) :
    weightOf weight names s = weight k := by
  have hs : s ∈ names := List.mem_of_getElem? hk
  have hplace : names[names.idxOf s]? = some s := by
    rw [List.getElem?_eq_getElem (List.idxOf_lt_length_of_mem hs), List.getElem_idxOf]
  obtain rfl : names.idxOf s = k :=
    (List.getElem?_inj (List.idxOf_lt_length_of_mem hs) hn).mp (hplace.trans hk.symm)
  rw [weightOf, if_pos hs]

theorem exists_place {s : α} (h : 0 < weightOf weight names s) :
    ∃ k, names[k]? = some s ∧ weight k = weightOf weight names s := by
  unfold weightOf at h ⊢
  split at h
  next hs =>
    rw [if_pos hs]
    refine ⟨names.idxOf s, ?_, rfl⟩
    rw [List.getElem?_eq_getElem (List.idxOf_lt_length_of_mem hs), List.getElem_idxOf]
  next => exact absurd h (Nat.lt_irrefl 0)

theorem carried_iff (hn : names.Nodup) (ho : others.Nodup) : Carried weight names others ↔
    ∀ s, 0 < weightOf weight names s → weightOf weight others s = weightOf weight names s := by
  constructor
  · intro h s hpos
    obtain ⟨k, hk, hw⟩ := exists_place hpos
    obtain ⟨j, hj, hjw⟩ := h k s hk (by omega)
    rw [weightOf_of_place ho hj, hjw, hw]
  · intro h k s hk hpos
    have hplace : weightOf weight names s = weight k := weightOf_of_place hn hk
    have hsame := h s (by omega)
    obtain ⟨j, hj, hw⟩ := @exists_place _ weight others _ s (by omega)
    exact ⟨j, hj, by omega⟩

/-- Two lists give each name the same weight just when one carries its own, with none past its end. -/
theorem weightOf_eq_iff (hn : names.Nodup) (ho : others.Nodup) :
    (∀ s, weightOf weight others s = weightOf weight names s) ↔
      Carried weight names others ∧ NonePast weight names others := by
  constructor
  · intro h
    have hback : Carried weight others names := (carried_iff ho hn).mpr fun s _ => (h s).symm
    exact ⟨(carried_iff hn ho).mpr fun s _ => h s, hback.nonePast hn ho⟩
  · rintro ⟨h, hpast⟩ s
    have hback := h.converse hn ho hpast
    by_cases hpos : 0 < weightOf weight names s
    · exact (carried_iff hn ho).mp h s hpos
    · by_contra hne
      have hother : 0 < weightOf weight others s := by omega
      exact hne ((carried_iff ho hn).mp hback s hother).symm

end
end WaviclesPrime.Places
