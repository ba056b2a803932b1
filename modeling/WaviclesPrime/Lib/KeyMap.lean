import Mathlib.Algebra.BigOperators.Ring.List
import Mathlib.Algebra.Order.BigOperators.Group.List
import Mathlib.Algebra.Order.Ring.Nat
import Mathlib.Data.List.Nodup

/-! Finite maps with no order on their keys, and the cache discipline over them. -/
namespace WaviclesPrime

structure KeyMap (κ ν : Type) [DecidableEq κ] where
  entries : List (κ × ν)
  distinct : (entries.map Prod.fst).Nodup

namespace KeyMap
variable {κ ν : Type} [DecidableEq κ]

def empty : KeyMap κ ν := ⟨[], .nil⟩

def find (k : κ) : List (κ × ν) → Option ν
  | [] => none
  | (a, v) :: rest => if a = k then some v else find k rest

def get (m : KeyMap κ ν) (k : κ) : Option ν := find k m.entries

def size (m : KeyMap κ ν) : Nat := m.entries.length

/-- Keep the entries whose key passes. -/
def retain (m : KeyMap κ ν) (keep : κ → Bool) : KeyMap κ ν :=
  ⟨m.entries.filter (fun e => keep e.1), m.distinct.sublist (List.filter_sublist.map _)⟩

/-- Change each value, or leave its entry out. -/
def adjust (m : KeyMap κ ν) (f : ν → Option ν) : KeyMap κ ν where
  entries := m.entries.filterMap fun e => (f e.2).map (e.1, ·)
  distinct := by
    rw [List.map_filterMap]
    refine m.distinct.sublist ?_
    induction m.entries with
    | nil => exact .slnil
    | cons e rest ih =>
      rw [List.filterMap_cons]
      cases f e.2 with
      | none => exact ih.cons _
      | some v => exact ih.cons_cons _

def erase (m : KeyMap κ ν) (k : κ) : KeyMap κ ν := m.retain (· ≠ k)

theorem notMem_erase (m : KeyMap κ ν) (k : κ) : k ∉ (m.erase k).entries.map Prod.fst := by
  simp [erase, retain]

def insert (m : KeyMap κ ν) (k : κ) (v : ν) : KeyMap κ ν :=
  ⟨(k, v) :: (m.erase k).entries, List.nodup_cons.mpr ⟨m.notMem_erase k, (m.erase k).distinct⟩⟩

private theorem find_filter (xs : List (κ × ν)) (keep : κ → Bool) (k : κ) :
    find k (xs.filter (fun e => keep e.1)) = if keep k then find k xs else none := by
  induction xs with
  | nil => simp [find]
  | cons x xs ih => by_cases hx : x.1 = k <;> grind [find]

@[simp] theorem get_retain (m : KeyMap κ ν) (keep : κ → Bool) (k : κ) :
    (m.retain keep).get k = if keep k then m.get k else none := find_filter m.entries keep k

@[simp] theorem get_erase (m : KeyMap κ ν) (k j : κ) :
    (m.erase k).get j = if j = k then none else m.get j := by
  by_cases h : j = k <;> simp [erase, h]

@[simp] theorem get_insert (m : KeyMap κ ν) (k j : κ) (v : ν) :
    (m.insert k v).get j = if j = k then some v else m.get j := by
  have he := m.get_erase k j
  unfold get at he ⊢
  by_cases h : j = k
  · simp [insert, find, h]
  · simp [insert, find, h, Ne.symm h, he]

@[simp] theorem get_empty (k : κ) : (empty : KeyMap κ ν).get k = none := rfl

theorem get_eq_some {m : KeyMap κ ν} {k : κ} {v : ν} : m.get k = some v ↔ (k, v) ∈ m.entries := by
  obtain ⟨xs, hn⟩ := m
  unfold get
  induction xs with
  | nil => simp [find]
  | cons x xs ih =>
    obtain ⟨hx, hxs⟩ := List.nodup_cons.mp hn
    obtain ⟨a, u⟩ := x
    rw [find, List.mem_cons, Prod.mk.injEq]
    split
    next heq =>
      subst heq
      have hout : (a, v) ∉ xs := fun hmem => hx (List.mem_map.mpr ⟨(a, v), hmem, rfl⟩)
      simp [hout, eq_comm]
    next hne => exact (ih hxs).trans (or_iff_right fun h => hne h.1.symm).symm

@[simp] theorem get_adjust (m : KeyMap κ ν) (f : ν → Option ν) (k : κ) : (m.adjust f).get k = (m.get k).bind f := by
  refine Option.ext fun v => ?_
  rw [get_eq_some, Option.bind_eq_some_iff, adjust, List.mem_filterMap]
  constructor
  · rintro ⟨⟨a, u⟩, hmem, hmap⟩
    obtain ⟨w, hw, heq⟩ := Option.map_eq_some_iff.mp hmap
    obtain ⟨rfl, rfl⟩ := Prod.mk.inj heq
    exact ⟨u, get_eq_some.mpr hmem, hw⟩
  · rintro ⟨u, hget, hf⟩
    exact ⟨(k, u), get_eq_some.mp hget, by rw [hf, Option.map_some]⟩

theorem erase_insert (m : KeyMap κ ν) (k : κ) (v : ν) : (m.insert k v).erase k = m.erase k := by
  simp [insert, erase, retain, List.filter_filter]

theorem size_erase_lt {m : KeyMap κ ν} {k : κ} (h : m.get k ≠ none) : (m.erase k).size < m.size := by
  obtain ⟨v, hv⟩ := Option.ne_none_iff_exists'.mp h
  refine List.length_filter_lt_length_iff_exists.mpr ⟨(k, v), get_eq_some.mp hv, ?_⟩
  simp

theorem size_insert_le (m : KeyMap κ ν) (k : κ) (v : ν) : (m.insert k v).size ≤ m.size + 1 :=
  Nat.succ_le_succ (List.length_filter_le ..)

theorem size_insert_of_get {m : KeyMap κ ν} {k : κ} (h : m.get k ≠ none) (v : ν) :
    (m.insert k v).size ≤ m.size := size_erase_lt h

theorem eq_empty_of_size {m : KeyMap κ ν} (h : m.size = 0) : m = empty := by
  obtain ⟨xs, hn⟩ := m
  obtain rfl : xs = [] := List.length_eq_zero_iff.mp h
  rfl

theorem size_retain_le (m : KeyMap κ ν) (keep : κ → Bool) : (m.retain keep).size ≤ m.size :=
  List.length_filter_le ..

/-- Emptying a full map before storing keeps it within its bound. -/
theorem size_store_le {bound : Nat} (hb : 0 < bound) (m : KeyMap κ ν) (k : κ) (v : ν) :
    ((if bound ≤ m.size then KeyMap.empty else m).insert k v).size ≤ bound := by
  split
  next => exact ((empty : KeyMap κ ν).size_insert_le k v).trans hb
  next hroom => exact (m.size_insert_le k v).trans (Nat.lt_of_not_le hroom)

/-- What the stored values weigh together. -/
def weight (w : ν → Nat) (m : KeyMap κ ν) : Nat := (m.entries.map fun e => w e.2).sum

theorem weight_erase_le (w : ν → Nat) (m : KeyMap κ ν) (k : κ) : (m.erase k).weight w ≤ m.weight w :=
  (List.filter_sublist.map _).sum_le_sum (by simp)

theorem weight_le {w : ν → Nat} {m : KeyMap κ ν} {bound : Nat} (h : ∀ e ∈ m.entries, w e.2 ≤ bound) :
    m.weight w ≤ m.size * bound := by
  have hsum := List.sum_le_card_nsmul (m.entries.map fun e => w e.2) bound (by
    intro x hx
    obtain ⟨e, he, rfl⟩ := List.mem_map.mp hx
    exact h e he)
  rwa [List.length_map] at hsum

/-- Every stored value satisfies what its key promises. -/
def Sound (m : KeyMap κ ν) (P : κ → ν → Prop) : Prop := ∀ k v, m.get k = some v → P k v

section
variable {m : KeyMap κ ν} {P Q : κ → ν → Prop}

theorem sound_empty : (empty : KeyMap κ ν).Sound P := fun _ _ h => by simp at h

theorem Sound.insert (h : m.Sound P) {k : κ} {v : ν} (hv : P k v) : (m.insert k v).Sound P := by
  intro j w hj
  rw [get_insert] at hj
  split at hj
  next heq => exact heq ▸ Option.some.inj hj ▸ hv
  next => exact h j w hj

/-- Entries that survive a purge may answer for a new state. -/
theorem Sound.retain (h : m.Sound P) {keep : κ → Bool} (hpq : ∀ k v, keep k → P k v → Q k v) :
    (m.retain keep).Sound Q := by
  intro k v hk
  rw [get_retain] at hk
  split at hk
  next hkeep => exact hpq k v hkeep (h k v hk)
  next => simp at hk

/-- Emptying a full map before storing keeps it sound. -/
theorem Sound.store (h : m.Sound P) (full : Prop) [Decidable full] {k : κ} {v : ν} (hv : P k v) :
    ((if full then KeyMap.empty else m).insert k v).Sound P := by
  split
  · exact sound_empty.insert hv
  · exact h.insert hv

end
end KeyMap
end WaviclesPrime
