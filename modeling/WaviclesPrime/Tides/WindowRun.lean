import WaviclesPrime.Tides.Window

/-! What a window's totals, its identity table and its rows have to do with each other. -/
namespace WaviclesPrime.Tides
open Machine

def rowWork (c : Credit) : Nat := c.work.toNat

def rowsOf (rows : List Credit) (ident : UInt32) : List Credit := rows.filter fun c => c.ident = ident

/-- The work and the number of an identity's rows, if it has any. -/
def tally (rows : List Credit) (ident : UInt32) : Option (Nat × Nat) :=
  if rowsOf rows ident = [] then none
  else some (Queue.total rowWork (rowsOf rows ident), (rowsOf rows ident).length)

/-- Exactly the identities with a row have totals, and those are exact. -/
def Tallied (totals : KeyMap UInt32 Total) (rows : List Credit) : Prop :=
  ∀ i, (totals.get i).map (fun t => (t.work, t.credits)) = tally rows i

/-- What a trim leaves of some rows; a zero target keeps all. -/
def keptRows (target : Nat) (rows : List Credit) : List Credit :=
  if target = 0 then rows else Queue.trim rowWork target rows

@[simp] theorem rowsOf_nil (i : UInt32) : rowsOf [] i = [] := rfl

theorem rowsOf_cons (c : Credit) (rows : List Credit) (i : UInt32) :
    rowsOf (c :: rows) i = if c.ident = i then c :: rowsOf rows i else rowsOf rows i := by
  simp [rowsOf, List.filter_cons]

theorem rowsOf_append (rows more : List Credit) (i : UInt32) :
    rowsOf (rows ++ more) i = rowsOf rows i ++ rowsOf more i := List.filter_append ..

theorem total_rowsOf_le (rows : List Credit) (i : UInt32) :
    Queue.total rowWork (rowsOf rows i) ≤ Queue.total rowWork rows :=
  (List.filter_sublist.map _).sum_le_sum (by simp)

namespace Tallied
variable {totals : KeyMap UInt32 Total} {rows : List Credit} {c : Credit}

theorem empty : Tallied .empty [] := fun _ => rfl

/-- What a missing entry stands for is no work and no rows. -/
theorem getD_eq (h : Tallied totals rows) (i : UInt32) :
    ((totals.get i).getD ⟨0, 0, 0⟩).work = Queue.total rowWork (rowsOf rows i) ∧
      ((totals.get i).getD ⟨0, 0, 0⟩).credits = (rowsOf rows i).length := by
  have hi := h i
  unfold tally at hi
  cases hg : totals.get i with
  | none =>
    rw [hg] at hi
    split at hi
    next hnil => simp [hnil]
    next => simp at hi
  | some t =>
    rw [hg] at hi
    split at hi
    next => simp at hi
    next =>
      obtain ⟨hwork, hcount⟩ := Prod.mk.inj (Option.some.inj hi)
      exact ⟨hwork, hcount⟩

theorem drop (h : Tallied totals (c :: rows)) : Tallied (dropRow totals c) rows := by
  intro i
  have hi := h i
  unfold dropRow
  by_cases heq : c.ident = i
  · subst heq
    rw [tally, rowsOf_cons, if_pos rfl, if_neg (List.cons_ne_nil _ _)] at hi
    obtain ⟨t, ht, hval⟩ := Option.map_eq_some_iff.mp hi
    obtain ⟨hwork, hcount⟩ := Prod.mk.inj hval
    rw [Queue.total_cons] at hwork
    rw [List.length_cons] at hcount
    simp only [ht, tally]
    by_cases hnil : rowsOf rows c.ident = []
    · rw [if_pos hnil, if_pos (by rw [hcount, hnil]; rfl)]
      simp
    · have hpos := List.length_pos_of_ne_nil hnil
      rw [if_neg hnil, if_neg (by omega), KeyMap.get_insert, if_pos rfl, Option.map_some,
        Option.some.injEq, Prod.mk.injEq]
      dsimp only
      rw [show rowWork c = c.work.toNat from rfl] at hwork
      exact ⟨by omega, by omega⟩
  · rw [tally, rowsOf_cons, if_neg heq] at hi
    rw [tally, ← hi]
    split
    next => rfl
    next => split <;> simp [Ne.symm heq]

theorem push (h : Tallied totals rows) (hfit : Queue.total rowWork rows + rowWork c < sizeU64)
    (ts : UInt32) : Tallied (totals.insert c.ident
      ⟨satAdd sizeU64 ((totals.get c.ident).getD ⟨0, 0, 0⟩).work c.work.toNat,
        ((totals.get c.ident).getD ⟨0, 0, 0⟩).credits + 1, ts⟩) (rows ++ [c]) := by
  intro i
  rw [tally, rowsOf_append, rowsOf_cons]
  by_cases heq : c.ident = i
  · subst heq
    obtain ⟨hwork, hcount⟩ := h.getD_eq c.ident
    have hle := total_rowsOf_le rows c.ident
    have hsat : satAdd sizeU64 (Queue.total rowWork (rowsOf rows c.ident)) c.work.toNat =
        Queue.total rowWork (rowsOf rows c.ident) + rowWork c :=
      satAdd_of_lt (Nat.lt_of_le_of_lt (Nat.add_le_add_right hle _) hfit)
    rw [hwork, hcount, hsat, KeyMap.get_insert, if_pos rfl, if_pos rfl, if_neg (by simp)]
    simp [rowsOf]
  · rw [if_neg heq, KeyMap.get_insert, if_neg (Ne.symm heq), h i, tally]
    simp [rowsOf]

/-- More work in the last row. -/
theorem merge {c' : Credit} (h : Tallied totals (rows ++ [c])) (hident : c'.ident = c.ident) {more : Nat}
    (hwork : rowWork c' = rowWork c + more)
    (hfit : Queue.total rowWork (rows ++ [c]) + more < sizeU64) (ts : UInt32) :
    Tallied (totals.insert c.ident
      ⟨satAdd sizeU64 ((totals.get c.ident).getD ⟨0, 0, 0⟩).work more,
        ((totals.get c.ident).getD ⟨0, 0, 0⟩).credits, ts⟩) (rows ++ [c']) := by
  intro i
  rw [tally, rowsOf_append, rowsOf_cons, hident]
  by_cases heq : c.ident = i
  · subst heq
    obtain ⟨hsum, hcount⟩ := h.getD_eq c.ident
    have hle := total_rowsOf_le (rows ++ [c]) c.ident
    have hsat : satAdd sizeU64 (Queue.total rowWork (rowsOf (rows ++ [c]) c.ident)) more =
        Queue.total rowWork (rowsOf (rows ++ [c]) c.ident) + more :=
      satAdd_of_lt (Nat.lt_of_le_of_lt (Nat.add_le_add_right hle _) hfit)
    rw [hsum, hcount, hsat, KeyMap.get_insert, if_pos rfl, if_pos rfl, if_neg (by simp)]
    simp [rowsOf_append, rowsOf_cons, hwork, Nat.add_assoc]
  · have hi := h i
    rw [tally, rowsOf_append, rowsOf_cons, if_neg heq] at hi
    rw [if_neg heq, KeyMap.get_insert, if_neg (Ne.symm heq), hi]

end Tallied

/-- The loop that trims, over totals that agree with the rows. -/
theorem trimRows_eq {target : Nat} {rows : List Credit} {totals : KeyMap UInt32 Total}
    (h : Tallied totals rows) : ∃ totals',
    trimRows target rows (Queue.total rowWork rows) totals =
        (Queue.trim rowWork target rows, Queue.total rowWork (Queue.trim rowWork target rows), totals') ∧
      Tallied totals' (Queue.trim rowWork target rows) := by
  induction rows generalizing totals with
  | nil => exact ⟨totals, rfl, h⟩
  | cons front rest ih =>
    have hleft : checkedSub (Queue.total rowWork (front :: rest)) front.work.toNat =
        some (Queue.total rowWork rest) := by
      rw [checkedSub_eq_some, Queue.total_cons, rowWork]
      omega
    rw [trimRows, hleft, Queue.trim]
    dsimp only
    by_cases hlt : Queue.total rowWork rest < target
    · rw [if_pos hlt, if_neg (by omega)]
      exact ⟨totals, rfl, h⟩
    · rw [if_neg hlt, if_pos (by omega)]
      exact ih h.drop

theorem keptRows_suffix (target : Nat) (rows : List Credit) : keptRows target rows <:+ rows := by
  unfold keptRows
  split
  next => exact List.suffix_rfl
  next => exact Queue.trim_suffix target rows

/-- Trimming in between makes no difference. -/
theorem keptRows_append (target : Nat) (rows more : List Credit) :
    keptRows target (keptRows target rows ++ more) = keptRows target (rows ++ more) := by
  unfold keptRows
  split
  next => rfl
  next => exact Queue.trim_append target rows more

namespace Window

/-- The table of identities holds each once, and the index is of their places. -/
structure Indexed (w : Window) : Prop where
  distinct : w.idents.Nodup
  index : ∀ s i, w.identIndex.get s = some i ↔ ∃ k, w.idents[k]? = some s ∧ UInt32.ofNat k = i

/-- The parts of a window agree. -/
structure Sound (w : Window) : Prop extends Indexed w where
  total : w.totalWork = Queue.total rowWork w.credits
  tallied : Tallied w.totals w.credits
  known : ∀ c ∈ w.credits, c.ident.toNat < w.idents.length

section
variable (w : Window) (s : Identity)

@[simp] theorem intern_credits : (w.intern s).1.credits = w.credits := by unfold intern; split <;> rfl

@[simp] theorem intern_totals : (w.intern s).1.totals = w.totals := by unfold intern; split <;> rfl

@[simp] theorem intern_totalWork : (w.intern s).1.totalWork = w.totalWork := by
  unfold intern; split <;> rfl

@[simp] theorem intern_targetWork : (w.intern s).1.targetWork = w.targetWork := by
  unfold intern; split <;> rfl

@[simp] theorem intern_lifetimeShares : (w.intern s).1.lifetimeShares = w.lifetimeShares := by
  unfold intern; split <;> rfl

@[simp] theorem intern_lifetimeWork : (w.intern s).1.lifetimeWork = w.lifetimeWork := by
  unfold intern; split <;> rfl

/-- The index handed out is the identity's. -/
theorem intern_get : (w.intern s).1.identIndex.get s = some (w.intern s).2 := by
  unfold intern
  split
  next i hi => exact hi
  next => simp

@[simp] theorem trim_idents : w.trim.idents = w.idents := by unfold trim; split <;> rfl

@[simp] theorem trim_identIndex : w.trim.identIndex = w.identIndex := by unfold trim; split <;> rfl

@[simp] theorem trim_targetWork : w.trim.targetWork = w.targetWork := by unfold trim; split <;> rfl

@[simp] theorem trim_lifetimeShares : w.trim.lifetimeShares = w.lifetimeShares := by
  unfold trim; split <;> rfl

@[simp] theorem trim_lifetimeWork : w.trim.lifetimeWork = w.lifetimeWork := by
  unfold trim; split <;> rfl

variable (work : UInt64) (height ts : UInt32) (source : UInt8)

@[simp] theorem setTarget_idents (target : Nat) : (w.setTarget target).idents = w.idents := trim_idents _

@[simp] theorem creditRow_row :
    (w.creditRow s work height ts source).2 = ⟨ts, (w.intern s).2, work, height, source⟩ := rfl

@[simp] theorem creditRow_idents :
    (w.creditRow s work height ts source).1.idents = (w.intern s).1.idents := trim_idents _

@[simp] theorem creditRow_targetWork :
    (w.creditRow s work height ts source).1.targetWork = w.targetWork :=
  (trim_targetWork _).trans (intern_targetWork w s)

@[simp] theorem credit_idents :
    (w.credit s work height ts source).1.idents = (w.intern s).1.idents := by
  unfold credit
  dsimp only
  split
  next => split <;> exact trim_idents _
  next => exact trim_idents _

end

namespace Indexed
variable {w : Window} {s : Identity}

theorem new : Window.new.Indexed := ⟨.nil, fun s i => by simp [Window.new]⟩

/-- An identity that is not in the table has no index. -/
theorem index_eq_none (h : w.Indexed) : w.identIndex.get s = none ↔ s ∉ w.idents := by
  rw [Option.eq_none_iff_forall_ne_some]
  constructor
  · intro hnone hmem
    obtain ⟨k, hk⟩ := List.mem_iff_getElem?.mp hmem
    exact hnone (UInt32.ofNat k) ((h.index s _).mpr ⟨k, hk, rfl⟩)
  · intro hout i hi
    obtain ⟨k, hk, -⟩ := (h.index s i).mp hi
    exact hout (List.mem_of_getElem? hk)

/-- The table after an identity is looked up. -/
theorem intern_idents (h : w.Indexed) (s : Identity) :
    (w.intern s).1.idents = if s ∈ w.idents then w.idents else w.idents ++ [s] := by
  unfold Window.intern
  split
  next i hi =>
    obtain ⟨k, hk, -⟩ := (h.index s i).mp hi
    rw [if_pos (List.mem_of_getElem? hk)]
  next hnone => rw [if_neg (h.index_eq_none.mp hnone)]

theorem intern (h : w.Indexed) (s : Identity) : (w.intern s).1.Indexed := by
  unfold Window.intern
  split
  next => exact h
  next hnone =>
    have hnew := h.index_eq_none.mp hnone
    refine ⟨?_, fun t i => ?_⟩
    · refine List.Nodup.append h.distinct (List.nodup_singleton s) fun a ha hs => hnew ?_
      exact List.mem_singleton.mp hs ▸ ha
    · rw [KeyMap.get_insert]
      split
      next heq =>
        subst heq
        constructor
        · intro hi
          exact ⟨w.idents.length, by simp, Option.some.inj hi⟩
        · rintro ⟨k, hk, rfl⟩
          rcases Nat.lt_or_ge k w.idents.length with hlt | hge
          · rw [List.getElem?_append_left hlt] at hk
            exact absurd (List.mem_of_getElem? hk) hnew
          · have hlt := (List.getElem?_eq_some_iff.mp hk).1
            rw [List.length_append, List.length_singleton] at hlt
            obtain rfl : k = w.idents.length := by omega
            rfl
      next hne =>
        rw [h.index t i]
        refine exists_congr fun k => and_congr_left fun _ => ?_
        rcases Nat.lt_or_ge k w.idents.length with hlt | hge
        · rw [List.getElem?_append_left hlt]
        · rw [List.getElem?_append_right hge, List.getElem?_eq_none hge, List.getElem?_singleton]
          split
          next => simp [Ne.symm hne]
          next => rfl

theorem intern_known (h : w.Indexed) (s : Identity) :
    (w.intern s).2.toNat < (w.intern s).1.idents.length := by
  obtain ⟨k, hk, hi⟩ := ((h.intern s).index s _).mp (w.intern_get s)
  have hlt := (List.getElem?_eq_some_iff.mp hk).1
  rw [← hi]
  exact Nat.lt_of_le_of_lt (Nat.mod_le k _) hlt

/-- The table only grows. -/
theorem length_le_intern (h : w.Indexed) (s : Identity) :
    w.idents.length ≤ (w.intern s).1.idents.length := by
  rw [h.intern_idents]
  split
  next => exact Nat.le_refl _
  next => rw [List.length_append]; exact Nat.le_add_right _ _

end Indexed

namespace Sound
variable {w : Window}

theorem new : Window.new.Sound := ⟨.new, rfl, .empty, by simp [Window.new]⟩

theorem intern (h : w.Sound) (s : Identity) : (w.intern s).1.Sound := by
  refine ⟨h.toIndexed.intern s, ?_, ?_, fun c hc => ?_⟩
  · rw [intern_totalWork, intern_credits, h.total]
  · rw [intern_totals, intern_credits]
    exact h.tallied
  · rw [intern_credits] at hc
    exact Nat.lt_of_lt_of_le (h.known c hc) (h.length_le_intern s)

theorem trim (h : w.Sound) : w.trim.Sound ∧ w.trim.credits = keptRows w.targetWork w.credits := by
  unfold Window.trim keptRows
  split
  next => exact ⟨h, rfl⟩
  next =>
    obtain ⟨totals, hrun, htallied⟩ := @trimRows_eq w.targetWork _ _ h.tallied
    rw [← h.total] at hrun
    rw [hrun]
    refine ⟨⟨⟨h.distinct, h.index⟩, rfl, htallied, fun c hc => ?_⟩, rfl⟩
    exact h.known c ((Queue.trim_suffix _ _).subset hc)

theorem setTarget (h : w.Sound) (target : Nat) : (w.setTarget target).Sound ∧
    (w.setTarget target).credits = keptRows target w.credits :=
  trim ⟨⟨h.distinct, h.index⟩, h.total, h.tallied, h.known⟩

theorem append {c : Credit} (h : w.Sound) (hc : c.ident.toNat < w.idents.length)
    (hfit : Queue.total rowWork w.credits + rowWork c < sizeU64) : ((w.count c.work).append c).Sound := by
  refine ⟨⟨h.distinct, h.index⟩, ?_, h.tallied.push hfit c.ts, fun x hx => ?_⟩
  · have hsat : satAdd sizeU64 w.totalWork c.work.toNat = Queue.total rowWork w.credits + rowWork c := by
      rw [h.total]
      exact satAdd_of_lt hfit
    simpa [Window.append, Window.count] using hsat
  · rcases List.mem_append.mp hx with hx | hx
    · exact h.known x hx
    · exact List.mem_singleton.mp hx ▸ hc

theorem pushRaw {c : Credit} (h : w.Sound) (hc : c.ident.toNat < w.idents.length)
    (hfit : Queue.total rowWork w.credits + rowWork c < sizeU64) : (w.pushRaw c).Sound := by
  refine ⟨⟨h.distinct, h.index⟩, ?_, h.tallied.push hfit _, fun x hx => ?_⟩
  · have hsat : satAdd sizeU64 w.totalWork c.work.toNat = Queue.total rowWork w.credits + rowWork c := by
      rw [h.total]
      exact satAdd_of_lt hfit
    simpa [Window.pushRaw] using hsat
  · rcases List.mem_append.mp hx with hx | hx
    · exact h.known x hx
    · exact List.mem_singleton.mp hx ▸ hc

theorem merge {tail : Credit} {work : UInt64} (h : w.Sound) (hlast : w.credits.getLast? = some tail)
    (hfit : Queue.total rowWork w.credits + work.toNat < sizeU64) :
    ((w.count work).merge tail work).Sound := by
  obtain ⟨rows, hrows⟩ := List.getLast?_eq_some_iff.mp hlast
  have hsum : tail.work.toNat + work.toNat < sizeU64 := by
    rw [hrows, Queue.total_append, Queue.total_cons] at hfit
    exact Nat.lt_of_le_of_lt (by unfold rowWork; omega) hfit
  have hwork : rowWork { tail with work := UInt64.ofNat (satAdd sizeU64 tail.work.toNat work.toNat) } =
      rowWork tail + work.toNat := by
    rw [rowWork, satAdd_of_lt hsum]
    exact UInt64.toNat_ofNat_of_lt' hsum
  have hdrop : w.credits.dropLast = rows := by rw [hrows, List.dropLast_concat]
  refine ⟨⟨h.distinct, h.index⟩, ?_, ?_, fun x hx => ?_⟩
  · have hsat : satAdd sizeU64 w.totalWork work.toNat = Queue.total rowWork w.credits + work.toNat := by
      rw [h.total]
      exact satAdd_of_lt hfit
    simp [Window.merge, Window.count, hwork, hsat, hrows, Nat.add_assoc]
  · have htallied := h.tallied
    rw [hrows] at htallied hfit
    simpa [Window.merge, Window.count, hdrop, Window.totalOf] using
      htallied.merge (by rfl) hwork hfit tail.ts
  · rcases List.mem_append.mp hx with hx | hx
    · exact h.known x (List.dropLast_subset _ hx)
    · obtain rfl := List.mem_singleton.mp hx
      exact h.known tail (hrows ▸ List.mem_append_right _ (List.mem_singleton_self _))

theorem creditRow (h : w.Sound) (s : Identity) (work : UInt64) (height ts : UInt32) (source : UInt8)
    (hfit : Queue.total rowWork w.credits + work.toNat < sizeU64) :
    (w.creditRow s work height ts source).1.Sound ∧
      (w.creditRow s work height ts source).1.credits =
        keptRows w.targetWork (w.credits ++ [(w.creditRow s work height ts source).2]) := by
  have hrow := (h.intern s).append (c := ⟨ts, (w.intern s).2, work, height, source⟩)
    (h.intern_known s) (by rw [intern_credits]; exact hfit)
  have htrim := hrow.trim
  refine ⟨htrim.1, htrim.2.trans ?_⟩
  simp [Window.append, Window.count, Window.creditRow]

/-- A credit keeps the parts in step, whichever row the work goes to. -/
theorem credit (h : w.Sound) (s : Identity) (work : UInt64) (height ts : UInt32) (source : UInt8)
    (hfit : Queue.total rowWork w.credits + work.toNat < sizeU64) :
    (w.credit s work height ts source).1.Sound ∧
      Queue.total rowWork (w.credit s work height ts source).1.credits ≤
        Queue.total rowWork w.credits + work.toNat := by
  have hin := h.intern s
  have hnew := hin.append (c := ⟨ts, (w.intern s).2, work, height, source⟩)
    (h.intern_known s) (by rw [intern_credits]; exact hfit)
  have hrow : Queue.total rowWork (((w.intern s).1.count work).append
      ⟨ts, (w.intern s).2, work, height, source⟩).trim.credits ≤
        Queue.total rowWork w.credits + work.toNat := by
    rw [hnew.trim.2]
    refine (Queue.total_le_of_suffix (keptRows_suffix _ _)).trans ?_
    simp [Window.append, Window.count, rowWork]
  unfold Window.credit
  dsimp only
  split
  next tail hlast =>
    have hlast : (w.intern s).1.credits.getLast? = some tail := hlast
    split
    next =>
      have hmerge := @Sound.merge _ tail work hin hlast (by simpa using hfit)
      refine ⟨hmerge.trim.1, ?_⟩
      rw [hmerge.trim.2]
      refine (Queue.total_le_of_suffix (keptRows_suffix _ _)).trans ?_
      rw [← hmerge.total]
      have hsat := satAdd_le sizeU64 w.totalWork work.toNat
      simpa [Window.merge, Window.count, h.total] using hsat
    next => exact ⟨hnew.trim.1, hrow⟩
  next => exact ⟨hnew.trim.1, hrow⟩

end Sound
end Window

end WaviclesPrime.Tides
