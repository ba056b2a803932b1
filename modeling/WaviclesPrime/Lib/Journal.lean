import Mathlib.Data.List.Induction
import Mathlib.Data.List.Nodup

/-! Append-only logs of keyed records, read back with the latest line of each key. -/
namespace WaviclesPrime.Journal
variable {κ α : Type} [DecidableEq κ] (key : α → κ)

/-- Put a record in the place of the one with its key, or at the end. -/
def place : List α → α → List α
  | [], r => [r]
  | b :: rest, r => if key b = key r then r :: rest else b :: place rest r

/-- The records of a log in first-seen order, each as its latest line has it. -/
def replay (lines : List α) : List α := lines.foldl (place key) []

/-- Change the last record that passes. -/
def updateLast (p : α → Bool) (f : α → α) : List α → Option (List α × α)
  | [] => none
  | r :: rest =>
    match updateLast p f rest with
    | some (rest', u) => some (r :: rest', u)
    | none => if p r then some (f r :: rest, f r) else none

variable {key} {r : α} {xs : List α}

theorem replay_append (lines more : List α) :
    replay key (lines ++ more) = more.foldl (place key) (replay key lines) := List.foldl_append ..

/-- A record with a key that is there takes its place. -/
theorem place_of_mem (hn : (xs.map key).Nodup) (h : key r ∈ xs.map key) :
    place key xs r = xs.map fun b => if key b = key r then r else b := by
  induction xs with
  | nil => simp at h
  | cons b xs ih =>
    obtain ⟨hb, hn⟩ := List.nodup_cons.mp hn
    by_cases hk : key b = key r
    · have hother : ∀ x ∈ xs, key x ≠ key r := by
        intro x hx hxr
        exact hb ((hxr.trans hk.symm) ▸ List.mem_map_of_mem hx)
      have hrest : xs.map (fun b => if key b = key r then r else b) = xs :=
        (List.map_congr_left fun x hx => if_neg (hother x hx)).trans (List.map_id xs)
      simp only [place, hk, if_true, List.map_cons, hrest]
    · have hmem : key r ∈ xs.map key := (List.mem_cons.mp h).resolve_left (Ne.symm hk)
      simp only [place, hk, if_false, List.map_cons, ih hn hmem]

theorem place_of_notMem (h : key r ∉ xs.map key) : place key xs r = xs ++ [r] := by
  induction xs with
  | nil => rfl
  | cons b xs ih =>
    rw [List.map_cons, List.mem_cons, not_or] at h
    rw [place, if_neg (Ne.symm h.1), ih h.2, List.cons_append]

theorem map_replace (r : α) (xs : List α) :
    (xs.map fun b => if key b = key r then r else b).map key = xs.map key := by
  rw [List.map_map]
  refine List.map_congr_left fun b _ => ?_
  rw [Function.comp_apply]
  split
  next h => exact h.symm
  next => rfl

theorem place_nodup (hn : (xs.map key).Nodup) (r : α) : ((place key xs r).map key).Nodup := by
  by_cases h : key r ∈ xs.map key
  · rw [place_of_mem hn h, map_replace]
    exact hn
  · rw [place_of_notMem h, List.map_append, List.map_singleton]
    exact hn.append (List.nodup_singleton _) (by simpa using h)

theorem mem_place {x : α} (h : x ∈ place key xs r) : x = r ∨ x ∈ xs := by
  induction xs with
  | nil => exact .inl (List.mem_singleton.mp h)
  | cons b xs ih =>
    rw [place] at h
    split at h
    · exact (List.mem_cons.mp h).imp_right (List.mem_cons_of_mem _)
    · rcases List.mem_cons.mp h with rfl | h
      · exact .inr List.mem_cons_self
      · exact (ih h).imp_right (List.mem_cons_of_mem _)

private theorem foldl_place (s : List α) {lines : List α} {P : α → Prop} (hn : (s.map key).Nodup)
    (hx : ∀ x ∈ s, P x) (hl : ∀ x ∈ lines, P x) :
    ((lines.foldl (place key) s).map key).Nodup ∧ ∀ x ∈ lines.foldl (place key) s, P x := by
  induction lines generalizing s with
  | nil => exact ⟨hn, hx⟩
  | cons r lines ih =>
    apply ih _ (place_nodup hn r)
    · intro x h
      rcases mem_place h with rfl | h
      · exact hl _ List.mem_cons_self
      · exact hx x h
    · exact fun x h => hl x (List.mem_cons_of_mem _ h)

/-- What a log reads back has every key once, however often it was written. -/
theorem replay_nodup (lines : List α) : ((replay key lines).map key).Nodup :=
  (foldl_place [] (P := fun _ => True) List.nodup_nil (by simp) (by simp)).1

/-- Every record read back is a line of the log. -/
theorem mem_of_mem_replay {lines : List α} {x : α} (h : x ∈ replay key lines) : x ∈ lines :=
  (foldl_place [] List.nodup_nil (by simp) (fun _ hx => hx)).2 x h

theorem updateLast_eq_none {p : α → Bool} {f : α → α} :
    updateLast p f xs = none ↔ ∀ x ∈ xs, p x = false := by
  induction xs with
  | nil => simp [updateLast]
  | cons b xs ih =>
    rw [updateLast, List.forall_mem_cons, ← ih]
    cases updateLast p f xs with
    | none => cases p b <;> simp
    | some found => simp

/-- What changing the last record that passes does. -/
theorem updateLast_split {p : α → Bool} {f : α → α} {ys : List α} {u : α}
    (h : updateLast p f xs = some (ys, u)) : ∃ before r after, xs = before ++ r :: after ∧
      p r = true ∧ (∀ x ∈ after, p x = false) ∧ ys = before ++ f r :: after ∧ u = f r := by
  induction xs generalizing ys with
  | nil => simp [updateLast] at h
  | cons b xs ih =>
    rw [updateLast] at h
    cases hrest : updateLast p f xs with
    | some found =>
      simp only [hrest, Option.some.injEq, Prod.mk.injEq] at h
      obtain ⟨rfl, rfl⟩ := h
      obtain ⟨before, r, after, rfl, hr, hafter, hys, hu⟩ := ih hrest
      exact ⟨b :: before, r, after, rfl, hr, hafter, congrArg (b :: ·) hys, hu⟩
    | none =>
      simp only [hrest, Option.ite_none_right_eq_some, Option.some.injEq, Prod.mk.injEq] at h
      obtain ⟨hb, rfl, rfl⟩ := h
      exact ⟨[], b, xs, rfl, hb, updateLast_eq_none.mp hrest, rfl, rfl⟩

theorem updateLast_at {p : α → Bool} (f : α → α) (before : List α) {after : List α} (hr : p r = true)
    (hafter : ∀ x ∈ after, p x = false) :
    updateLast p f (before ++ r :: after) = some (before ++ f r :: after, f r) := by
  induction before with
  | nil => rw [List.nil_append, updateLast, updateLast_eq_none.mpr hafter, if_pos hr, List.nil_append]
  | cons b before ih => rw [List.cons_append, updateLast, ih, List.cons_append]

/-- The last record that passes, looked up from the end. -/
theorem find_reverse_split {p : α → Bool} (before : List α) {after : List α} (hr : p r = true)
    (hafter : ∀ x ∈ after, p x = false) : (before ++ r :: after).reverse.find? p = some r := by
  have hnone : after.reverse.find? p = none :=
    List.find?_eq_none.mpr fun x hx => by simp [hafter x (List.mem_reverse.mp hx)]
  simp [List.find?_append, hnone, hr]

/-- Where keys are distinct, the last record with a key is the only one. -/
theorem updateLast_key (hn : (xs.map key).Nodup) (h : r ∈ xs) (f : α → α)
    (hf : key (f r) = key r) : updateLast (fun b => key b = key r) f xs =
      some (xs.map fun b => if key b = key (f r) then f r else b, f r) := by
  induction xs with
  | nil => simp at h
  | cons b xs ih =>
    obtain ⟨hb, hn⟩ := List.nodup_cons.mp hn
    rw [updateLast, hf]
    rcases List.mem_cons.mp h with rfl | h
    · have hrest : ∀ x ∈ xs, key x ≠ key r := fun x hx hk => hb (hk ▸ List.mem_map_of_mem hx)
      have hmap : xs.map (fun b => if key b = key r then f r else b) = xs :=
        (List.map_congr_left fun x hx => if_neg (hrest x hx)).trans (List.map_id xs)
      rw [updateLast_eq_none.mpr (by simpa using hrest)]
      simp [hmap]
    · have hk : key b ≠ key r := fun hk => hb (hk ▸ List.mem_map_of_mem h)
      rw [ih hn h, hf]
      simp [hk]

/-- The last record with a key. -/
def latest (key : α → κ) (k : κ) (xs : List α) : Option α := (xs.filter fun x => key x = k).getLast?

section
variable {k : κ}

theorem latest_append (xs ys : List α) :
    latest key k (xs ++ ys) = (latest key k ys).or (latest key k xs) := by
  rw [latest, List.filter_append, List.getLast?_append, latest, latest]

@[simp] theorem latest_singleton (r : α) : latest key k [r] = if key r = k then some r else none := by
  by_cases h : key r = k <;> simp [latest, h]

theorem key_of_latest (h : latest key k xs = some r) : key r = k :=
  of_decide_eq_true (List.mem_filter.mp (List.mem_of_getLast? h)).2

theorem mem_of_latest (h : latest key k xs = some r) : r ∈ xs :=
  (List.mem_filter.mp (List.mem_of_getLast? h)).1

theorem latest_eq_none : latest key k xs = none ↔ k ∉ xs.map key := by
  rw [latest, List.getLast?_eq_none_iff, List.filter_eq_nil_iff, List.mem_map]
  constructor
  · rintro h ⟨x, hx, hk⟩
    exact h x hx (decide_eq_true hk)
  · exact fun h x hx hk => h ⟨x, hx, of_decide_eq_true hk⟩

theorem latest_at (before : List α) {after : List α} (hr : key r = k) (hafter : ∀ x ∈ after, key x ≠ k) :
    latest key k (before ++ r :: after) = some r := by
  have hnone : latest key k after = none := latest_eq_none.mpr fun hm => by
    obtain ⟨x, hx, hk⟩ := List.mem_map.mp hm
    exact hafter x hx hk
  rw [← List.singleton_append, latest_append, latest_append, hnone, Option.none_or, latest_singleton,
    if_pos hr, Option.some_or]

/-- A record in the place of one of the same key is no other key's latest. -/
theorem latest_put {x : α} (before after : List α) (hx : key x = key r) (hk : key r ≠ k) :
    latest key k (before ++ x :: after) = latest key k (before ++ r :: after) := by
  simp [latest, hx, hk]

/-- What is dropped from the front was no later. -/
theorem latest_of_drop {n : Nat} (h : latest key k (xs.drop n) = some r) : latest key k xs = some r := by
  rw [← List.take_append_drop n xs, latest_append, h, Option.some_or]


/-- The last record with a key, and what comes after it. -/
theorem latest_split (h : latest key k xs = some r) : ∃ before after, xs = before ++ r :: after ∧
    ∀ x ∈ after, key x ≠ k := by
  cases hu : updateLast (fun x => key x = k) id xs with
  | none =>
    have hno := updateLast_eq_none.mp hu r (mem_of_latest h)
    simp [key_of_latest h] at hno
  | some found =>
    obtain ⟨before, x, after, rfl, hx, hafter, -, -⟩ := updateLast_split hu
    have hafter : ∀ y ∈ after, key y ≠ k := fun y hy => of_decide_eq_false (hafter y hy)
    rw [latest_at before (of_decide_eq_true hx) hafter] at h
    obtain rfl := Option.some.inj h
    exact ⟨before, after, rfl, hafter⟩

/-- No record has a key, or the last one with it is somewhere. -/
theorem latest_cases (key : α → κ) (k : κ) (xs : List α) : (∀ x ∈ xs, key x ≠ k) ∨
    ∃ before r after, xs = before ++ r :: after ∧ key r = k ∧ ∀ x ∈ after, key x ≠ k := by
  cases hlast : latest key k xs with
  | none =>
    refine .inl fun x hx hk => latest_eq_none.mp hlast ?_
    exact hk ▸ List.mem_map_of_mem hx
  | some r =>
    obtain ⟨before, after, hxs, hafter⟩ := latest_split hlast
    exact .inr ⟨before, r, after, hxs, key_of_latest hlast, hafter⟩

/-- An element may go before those with other keys. -/
theorem latest_move (front back : List α) (h : key r ∉ front.map key) :
    latest key k (front ++ r :: back) = latest key k (r :: (front ++ back)) := by
  rw [latest, latest, List.filter_append, List.filter_cons, List.filter_cons, List.filter_append]
  split
  next hk =>
    have hnone : front.filter (fun x => key x = k) = [] := by
      refine List.filter_eq_nil_iff.mpr fun x hx hxk => h ?_
      rw [of_decide_eq_true hk, ← of_decide_eq_true hxk]
      exact List.mem_map_of_mem hx
    rw [hnone]
    rfl
  next => rfl

/-- Where keys are distinct, the last record with a key is the only one. -/
theorem filter_of_latest (hn : (xs.map key).Nodup) (h : latest key k xs = some r) :
    xs.filter (fun x => key x = k) = [r] := by
  have hk := key_of_latest h
  have hmem := mem_of_latest h
  have hone : ∀ x ∈ xs.filter (fun x => key x = k), x = r := fun x hx =>
    List.inj_on_of_nodup_map hn (List.mem_filter.mp hx).1 hmem
      ((of_decide_eq_true (List.mem_filter.mp hx).2).trans hk.symm)
  have hnodup : (xs.filter fun x => key x = k).Nodup := (List.Nodup.of_map key hn).filter _
  have hperm : (xs.filter fun x => key x = k).Perm [r] := by
    refine (List.perm_ext_iff_of_nodup hnodup (List.nodup_singleton r)).mpr fun x => ?_
    rw [List.mem_singleton]
    exact ⟨hone x, fun hx => hx ▸ List.mem_filter.mpr ⟨hmem, decide_eq_true hk⟩⟩
  exact List.perm_singleton.mp hperm

theorem latest_place (hn : (xs.map key).Nodup) (r : α) :
    latest key k (place key xs r) = if key r = k then some r else latest key k xs := by
  induction xs with
  | nil => exact latest_singleton r
  | cons b xs ih =>
    obtain ⟨hb, hn⟩ := List.nodup_cons.mp hn
    have hcons : ∀ (y : α) (ys : List α), latest key k (y :: ys) = (latest key k ys).or (latest key k [y]) :=
      fun y ys => latest_append [y] ys
    rw [place]
    split
    next hkey =>
      rw [hcons r xs, hcons b xs, latest_singleton, latest_singleton, hkey]
      split
      next hk =>
        rw [latest_eq_none.mpr (by rw [← hk, ← hkey]; exact hb), Option.none_or]
      next => rfl
    next hkey =>
      rw [hcons b (place key xs r), hcons b xs, ih hn]
      split
      next => exact Option.some_or
      next => rfl

/-- What a log reads back for a key is the last line with it. -/
theorem latest_replay (lines : List α) : latest key k (replay key lines) = latest key k lines := by
  induction lines using List.reverseRecOn with
  | nil => rfl
  | append_singleton lines r ih =>
    rw [replay_append, List.foldl_cons, List.foldl_nil, latest_place (replay_nodup lines), ih,
      latest_append, latest_singleton]
    split
    next => rfl
    next => rfl

end

end WaviclesPrime.Journal
