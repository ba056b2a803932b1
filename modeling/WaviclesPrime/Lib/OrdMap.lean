import Mathlib.Data.List.Basic
import Mathlib.Order.Lattice
import Mathlib.Tactic.Common

/-! Finite maps walked in key order. The order of the entries is a field, so two entries with
one key cannot be built. -/
namespace WaviclesPrime

structure OrdMap (κ ν : Type) [LinearOrder κ] where
  entries : List (κ × ν)
  sorted : entries.Pairwise (fun a b => a.1 < b.1)
  deriving DecidableEq

namespace OrdMap
variable {κ ν : Type} [LinearOrder κ]

def empty : OrdMap κ ν := ⟨[], .nil⟩

def lookup (k : κ) : List (κ × ν) → Option ν
  | [] => none
  | (a, v) :: rest => if k = a then some v else lookup k rest

def put (k : κ) (v : ν) : List (κ × ν) → List (κ × ν)
  | [] => [(k, v)]
  | (a, w) :: rest =>
    if k < a then (k, v) :: (a, w) :: rest
    else if k = a then (k, v) :: rest
    else (a, w) :: put k v rest

theorem mem_put {k : κ} {v : ν} {e : κ × ν} {xs : List (κ × ν)} (h : e ∈ put k v xs) :
    e = (k, v) ∨ e ∈ xs := by
  induction xs with
  | nil => simpa [put] using h
  | cons x xs ih =>
    obtain ⟨a, w⟩ := x
    unfold put at h
    split_ifs at h <;> grind

theorem put_sorted {k : κ} {v : ν} {xs : List (κ × ν)}
    (h : xs.Pairwise (fun a b => a.1 < b.1)) : (put k v xs).Pairwise (fun a b => a.1 < b.1) := by
  induction xs with
  | nil => simp [put]
  | cons x xs ih =>
    obtain ⟨a, w⟩ := x
    obtain ⟨hx, hxs⟩ := List.pairwise_cons.mp h
    unfold put
    split_ifs with hlt heq
    · exact List.pairwise_cons.mpr ⟨by
        intro e he
        rcases List.mem_cons.mp he with rfl | he
        · exact hlt
        · exact hlt.trans (hx e he), h⟩
    · subst heq
      exact List.pairwise_cons.mpr ⟨hx, hxs⟩
    · refine List.pairwise_cons.mpr ⟨fun e he => ?_, ih hxs⟩
      rcases mem_put he with rfl | he
      · exact lt_of_le_of_ne (not_lt.mp hlt) (Ne.symm heq)
      · exact hx e he

def get (m : OrdMap κ ν) (k : κ) : Option ν := lookup k m.entries

def insert (m : OrdMap κ ν) (k : κ) (v : ν) : OrdMap κ ν := ⟨put k v m.entries, put_sorted m.sorted⟩

def erase (m : OrdMap κ ν) (k : κ) : OrdMap κ ν :=
  ⟨m.entries.filter (fun e => e.1 ≠ k), m.sorted.filter _⟩

private theorem lookup_put (xs : List (κ × ν)) (k j : κ) (v : ν) :
    lookup j (put k v xs) = if j = k then some v else lookup j xs := by
  induction xs with
  | nil => simp [put, lookup]
  | cons x xs ih =>
    obtain ⟨a, w⟩ := x
    unfold put
    split_ifs with hlt heq hjk hjk <;> simp only [lookup] <;> grind

@[simp] theorem get_insert (m : OrdMap κ ν) (k j : κ) (v : ν) :
    (m.insert k v).get j = if j = k then some v else m.get j := lookup_put m.entries k j v

private theorem lookup_filter (xs : List (κ × ν)) (k j : κ) :
    lookup j (xs.filter (fun e => e.1 ≠ k)) = if j = k then none else lookup j xs := by
  induction xs with
  | nil => simp [lookup]
  | cons x xs ih => by_cases hx : x.1 = k <;> grind [lookup]

@[simp] theorem get_erase (m : OrdMap κ ν) (k j : κ) :
    (m.erase k).get j = if j = k then none else m.get j := lookup_filter m.entries k j

@[simp] theorem get_empty (k : κ) : (empty : OrdMap κ ν).get k = none := rfl

theorem keys_nodup (m : OrdMap κ ν) : (m.entries.map Prod.fst).Nodup :=
  List.pairwise_map.mpr (m.sorted.imp fun h => ne_of_lt h)

private theorem lookup_of_mem {xs : List (κ × ν)} (hs : xs.Pairwise (fun a b => a.1 < b.1))
    {k : κ} {v : ν} (h : (k, v) ∈ xs) : lookup k xs = some v := by
  induction xs with
  | nil => simp at h
  | cons x xs ih =>
    obtain ⟨hx, hxs⟩ := List.pairwise_cons.mp hs
    rcases List.mem_cons.mp h with rfl | h
    · simp [lookup]
    · simp [lookup, ne_of_gt (hx _ h), ih hxs h]

theorem get_of_mem (m : OrdMap κ ν) {k : κ} {v : ν} (h : (k, v) ∈ m.entries) : m.get k = some v :=
  lookup_of_mem m.sorted h

private theorem mem_of_lookup {xs : List (κ × ν)} {k : κ} {v : ν} (h : lookup k xs = some v) :
    (k, v) ∈ xs := by
  induction xs with
  | nil => simp [lookup] at h
  | cons x xs ih => by_cases hx : k = x.1 <;> grind [lookup]

theorem mem_of_get (m : OrdMap κ ν) {k : κ} {v : ν} (h : m.get k = some v) : (k, v) ∈ m.entries :=
  mem_of_lookup h

end OrdMap
end WaviclesPrime
