import Mathlib.Data.List.Perm.Basic
import Mathlib.Data.List.Sort
import Mathlib.Data.String.Basic

/-! JSON documents whose objects list their entries in some order, and when two of them say the same. -/
namespace WaviclesPrime

inductive Json where
  | str (s : String)
  | int (n : Int)
  | arr (xs : List Json)
  | obj (m : List (String × Json))

namespace Json

/-- What holds of a document once it holds of all that it contains. -/
theorem nested {motive : Json → Prop} (str : ∀ s, motive (.str s)) (int : ∀ n, motive (.int n))
    (arr : ∀ xs, (∀ x ∈ xs, motive x) → motive (.arr xs))
    (obj : ∀ m, (∀ e ∈ m, motive e.2) → motive (.obj m)) (v : Json) : motive v :=
  @Json.rec motive (fun xs => ∀ x ∈ xs, motive x) (fun m => ∀ e ∈ m, motive e.2) (fun e => motive e.2)
    str int arr obj nofun (fun _ _ hx hxs => List.forall_mem_cons.mpr ⟨hx, hxs⟩)
    nofun (fun _ _ he hm => List.forall_mem_cons.mpr ⟨he, hm⟩) (fun _ _ h => h) v

/-- No object has two entries with one key. -/
inductive Distinct : Json → Prop
  | str (s : String) : Distinct (.str s)
  | int (n : Int) : Distinct (.int n)
  | arr {xs : List Json} (elems : ∀ x ∈ xs, Distinct x) : Distinct (.arr xs)
  | obj {m : List (String × Json)} (keys : (m.map Prod.fst).Nodup) (values : ∀ e ∈ m, Distinct e.2) :
      Distinct (.obj m)

attribute [simp] Distinct.str Distinct.int

@[simp] theorem distinct_arr {xs : List Json} : (Json.arr xs).Distinct ↔ ∀ x ∈ xs, x.Distinct :=
  ⟨fun | .arr elems => elems, .arr⟩

@[simp] theorem distinct_obj {m : List (String × Json)} :
    (Json.obj m).Distinct ↔ (m.map Prod.fst).Nodup ∧ ∀ e ∈ m, e.2.Distinct :=
  ⟨fun | .obj keys values => ⟨keys, values⟩, fun h => .obj h.1 h.2⟩

theorem Distinct.list {α : Type} {form : α → Json} (h : ∀ a, (form a).Distinct) (xs : List α) :
    (Json.arr (xs.map form)).Distinct := by
  refine .arr fun y hy => ?_
  obtain ⟨x, -, rfl⟩ := List.mem_map.mp hy
  exact h x

/-- Two documents are the same up to the order of the entries in their objects, at every depth. -/
inductive Reordered : Json → Json → Prop
  | str (s : String) : Reordered (.str s) (.str s)
  | int (n : Int) : Reordered (.int n) (.int n)
  | arr {xs ys : List Json} (elems : List.Forall₂ Reordered xs ys) : Reordered (.arr xs) (.arr ys)
  | obj {m l m' : List (String × Json)} (keys : m.map Prod.fst = l.map Prod.fst)
      (values : List.Forall₂ Reordered (m.map Prod.snd) (l.map Prod.snd)) (perm : l.Perm m') :
      Reordered (.obj m) (.obj m')

def byKey (a b : String × Json) : Prop := a.1 ≤ b.1

instance : DecidableRel byKey := fun a b => by unfold byKey; infer_instance

instance : Std.Total byKey := ⟨fun a b => le_total a.1 b.1⟩

instance : IsTrans (String × Json) byKey := ⟨fun _ _ _ => le_trans⟩

mutual

/-- The document with the entries of each object in the order of their keys. -/
def sortKeys : Json → Json
  | .str s => .str s
  | .int n => .int n
  | .arr xs => .arr (sortKeysAll xs)
  | .obj m => .obj ((sortKeysFields m).insertionSort byKey)

def sortKeysAll : List Json → List Json
  | [] => []
  | x :: xs => x.sortKeys :: sortKeysAll xs

def sortKeysFields : List (String × Json) → List (String × Json)
  | [] => []
  | (k, v) :: m => (k, v.sortKeys) :: sortKeysFields m

end

/-- Change the value under a key. -/
def onValue (f : Json → Json) (e : String × Json) : String × Json := (e.1, f e.2)

@[simp] theorem sortKeysAll_eq (xs : List Json) : sortKeysAll xs = xs.map sortKeys := by
  induction xs with
  | nil => rfl
  | cons x xs ih => rw [sortKeysAll, ih, List.map_cons]

@[simp] theorem sortKeysFields_eq (m : List (String × Json)) : sortKeysFields m = m.map (onValue sortKeys) := by
  induction m with
  | nil => rfl
  | cons e m ih => rw [sortKeysFields, ih, List.map_cons, onValue]

@[simp] theorem keys_onValue (f : Json → Json) (m : List (String × Json)) :
    (m.map (onValue f)).map Prod.fst = m.map Prod.fst := by
  rw [List.map_map]
  rfl

/-- Entries agree when their keys and their values do. -/
theorem fields_ext {m l : List (String × Json)} : m = l ↔ m.map Prod.fst = l.map Prod.fst ∧ m.map Prod.snd = l.map Prod.snd := by
  induction m generalizing l with
  | nil => simp
  | cons e m ih =>
    cases l with
    | nil => simp
    | cons e' l => simp only [List.map_cons, List.cons.injEq, ih, Prod.ext_iff]; tauto

/-- With distinct keys, sorting forgets the order and nothing else. -/
theorem insertionSort_eq_iff {m l : List (String × Json)} (h : (m.map Prod.fst).Nodup) :
    m.insertionSort byKey = l.insertionSort byKey ↔ m.Perm l := by
  constructor
  · intro heq
    exact (List.perm_insertionSort byKey m).symm.trans (heq ▸ List.perm_insertionSort byKey l)
  · intro hperm
    have hsorted : (m.insertionSort byKey).Perm (l.insertionSort byKey) :=
      (List.perm_insertionSort ..).trans (hperm.trans (List.perm_insertionSort ..).symm)
    refine List.Perm.eq_of_pairwise ?_ (List.pairwise_insertionSort ..) (List.pairwise_insertionSort ..) hsorted
    intro a b ha hb hle hge
    have hb' : b ∈ m := hperm.symm.subset ((List.mem_insertionSort _).mp hb)
    exact List.inj_on_of_nodup_map h ((List.mem_insertionSort _).mp ha) hb' (le_antisymm hle hge)

theorem forall₂_iff_map_eq {α β : Type} {R : α → α → Prop} {f : α → β} {xs ys : List α}
    (h : ∀ x ∈ xs, ∀ y, R x y ↔ f x = f y) : List.Forall₂ R xs ys ↔ xs.map f = ys.map f := by
  induction xs generalizing ys with
  | nil => simp
  | cons x xs ih =>
    obtain ⟨hx, hxs⟩ := List.forall_mem_cons.mp h
    cases ys with
    | nil => simp
    | cons y ys => rw [List.forall₂_cons, List.map_cons, List.map_cons, List.cons.injEq, hx, ih hxs]

/-- Sorting tells which documents are the same up to order as this one. -/
def SortTells (v : Json) : Prop := ∀ w, v.Reordered w ↔ v.sortKeys = w.sortKeys

theorem sortTells_arr {xs : List Json} (h : ∀ x ∈ xs, x.SortTells) : (Json.arr xs).SortTells := by
  have hall (ys : List Json) : List.Forall₂ Reordered xs ys ↔ xs.map sortKeys = ys.map sortKeys := forall₂_iff_map_eq h
  intro w
  constructor
  · intro hw
    cases hw with
    | @arr _ ys elems => rw [sortKeys, sortKeys, sortKeysAll_eq, sortKeysAll_eq, (hall ys).mp elems]
  · intro hw
    cases w with
    | arr ys =>
      rw [sortKeys, sortKeys, sortKeysAll_eq, sortKeysAll_eq, Json.arr.injEq] at hw
      exact .arr ((hall ys).mpr hw)
    | _ => cases hw

theorem sortTells_obj {m : List (String × Json)} (hkeys : (m.map Prod.fst).Nodup)
    (h : ∀ e ∈ m, e.2.SortTells) : (Json.obj m).SortTells := by
  have hall (l : List (String × Json)) : List.Forall₂ Reordered (m.map Prod.snd) (l.map Prod.snd) ↔
      (m.map Prod.snd).map sortKeys = (l.map Prod.snd).map sortKeys := by
    refine forall₂_iff_map_eq fun x hx => ?_
    obtain ⟨e, he, rfl⟩ := List.mem_map.mp hx
    exact h e he
  have hsame (l : List (String × Json)) : m.map (onValue sortKeys) = l.map (onValue sortKeys) ↔
      m.map Prod.fst = l.map Prod.fst ∧ List.Forall₂ Reordered (m.map Prod.snd) (l.map Prod.snd) := by
    rw [fields_ext, keys_onValue, keys_onValue, hall, List.map_map, List.map_map, List.map_map, List.map_map]
    rfl
  have hsorted (m' : List (String × Json)) : (Json.obj m).sortKeys = (Json.obj m').sortKeys ↔
      ∃ l : List (String × Json), m.map (onValue sortKeys) = l.map (onValue sortKeys) ∧ l.Perm m' := by
    rw [sortKeys, sortKeys, sortKeysFields_eq, sortKeysFields_eq, Json.obj.injEq,
      insertionSort_eq_iff (by rwa [keys_onValue])]
    exact Iff.of_eq (congrFun₂ (List.eq_map_comp_perm (onValue sortKeys)) _ _).symm
  intro w
  constructor
  · intro hw
    cases hw with
    | @obj _ l m' keys values perm => exact (hsorted m').mpr ⟨l, (hsame l).mpr ⟨keys, values⟩, perm⟩
  · intro hw
    cases w with
    | obj m' =>
      obtain ⟨l, heq, perm⟩ := (hsorted m').mp hw
      obtain ⟨keys, values⟩ := (hsame l).mp heq
      exact .obj keys values perm
    | _ => cases hw

/-- Documents with distinct keys are the same up to order exactly if they are when sorted. -/
theorem reordered_iff {v : Json} (hv : v.Distinct) (w : Json) : v.Reordered w ↔ v.sortKeys = w.sortKeys := by
  revert w
  induction v using nested with
  | str s =>
    intro w
    constructor
    · rintro ⟨⟩
      rfl
    · intro h
      cases w with
      | str s' => exact (Json.str.inj h) ▸ .str s
      | _ => cases h
  | int n =>
    intro w
    constructor
    · rintro ⟨⟩
      rfl
    · intro h
      cases w with
      | int n' => exact (Json.int.inj h) ▸ .int n
      | _ => cases h
  | arr xs ih =>
    have hxs := distinct_arr.mp hv
    exact sortTells_arr fun x hx => ih x hx (hxs x hx)
  | obj m ih =>
    obtain ⟨hkeys, hvalues⟩ := distinct_obj.mp hv
    exact sortTells_obj hkeys fun e he => ih e he (hvalues e he)

/-- Entries with the same distinct keys are in the same order only if they are the same. -/
theorem eq_of_perm {m l : List (String × Json)} (h : (m.map Prod.fst).Nodup) (hkeys : m.map Prod.fst = l.map Prod.fst)
    (hperm : m.Perm l) : m = l := by
  refine List.ext_getElem (by simpa using congrArg List.length hkeys) fun i hi hi' => ?_
  have hkey : (m.map Prod.fst)[i]? = (l.map Prod.fst)[i]? := congrArg (·[i]?) hkeys
  rw [List.getElem?_map, List.getElem?_map, List.getElem?_eq_getElem hi, List.getElem?_eq_getElem hi'] at hkey
  exact List.inj_on_of_nodup_map h (List.getElem_mem hi) (hperm.symm.subset (List.getElem_mem hi'))
    (Option.some.inj hkey)

/-- Objects that list the same keys in the same order have their values the same up to order. -/
theorem Reordered.values {m m' : List (String × Json)} (h : (Json.obj m).Reordered (.obj m'))
    (hn : (m.map Prod.fst).Nodup) (hkeys : m.map Prod.fst = m'.map Prod.fst) :
    List.Forall₂ Reordered (m.map Prod.snd) (m'.map Prod.snd) := by
  cases h with
  | @obj _ l _ hl values perm =>
    obtain rfl := eq_of_perm (hl ▸ hn) (hl.symm.trans hkeys) perm
    exact values

/-- A form of documents that tells what is put in it, whatever the order of the keys. -/
def Told {α : Type} (form : α → Json) : Prop := ∀ a b, (form a).Reordered (form b) → a = b

theorem told_str : Told .str := by
  rintro s t ⟨⟩
  rfl

theorem told_nat : Told fun n : Nat => .int n := by
  rintro m n h
  cases h
  rfl

theorem Told.list {α : Type} {form : α → Json} (h : Told form) : Told fun xs : List α => .arr (xs.map form) := by
  intro xs ys hxs
  cases hxs with
  | arr elems =>
    rw [List.forall₂_map_left_iff, List.forall₂_map_right_iff] at elems
    exact List.forall₂_eq_eq_eq ▸ elems.imp fun a b => h a b

/-- Sorting leaves each object its keys. -/
theorem Distinct.sortKeys {v : Json} (h : v.Distinct) : v.sortKeys.Distinct := by
  induction v using nested with
  | str s => exact .str s
  | int n => exact .int n
  | arr xs ih =>
    have hxs := distinct_arr.mp h
    rw [Json.sortKeys, sortKeysAll_eq, distinct_arr]
    intro y hy
    obtain ⟨x, hx, rfl⟩ := List.mem_map.mp hy
    exact ih x hx (hxs x hx)
  | obj m ih =>
    obtain ⟨hkeys, hvalues⟩ := distinct_obj.mp h
    rw [Json.sortKeys, sortKeysFields_eq, distinct_obj]
    refine ⟨((List.perm_insertionSort ..).map Prod.fst).nodup_iff.mpr (by rwa [keys_onValue]), fun e he => ?_⟩
    obtain ⟨e', he', rfl⟩ := List.mem_map.mp ((List.mem_insertionSort _).mp he)
    exact ih e' he' (hvalues e' he')

/-- Distinct keys sort strictly. -/
theorem insertionSort_strict {m : List (String × Json)} (h : (m.map Prod.fst).Nodup) :
    (m.insertionSort byKey).Pairwise fun a b => a.1 < b.1 := by
  have hne : (m.insertionSort byKey).Pairwise fun a b => a.1 ≠ b.1 :=
    List.pairwise_map.mp (((List.perm_insertionSort byKey m).map Prod.fst).nodup_iff.mpr h)
  exact ((List.pairwise_insertionSort byKey m).and hne).imp fun hab => lt_of_le_of_ne hab.1 hab.2

/-- A document whose objects have distinct keys. -/
structure Document where
  value : Json
  distinct : value.Distinct

end Json
end WaviclesPrime
