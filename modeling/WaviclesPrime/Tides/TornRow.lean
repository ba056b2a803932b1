import WaviclesPrime.Tides.Reload

/-! A credits file that ends inside a row: what is read over the fragment, and what is written after it. -/
namespace WaviclesPrime.Tides
open Machine

inductive Ending where
  | flush
  | persistWindow

namespace Ledger

def finish (l : Ledger) : Ending → Ledger
  | .flush => l.flush
  | .persistWindow => l.persistWindow

/-- Credits one after another, with no write that fails. -/
def creditAll (l : Ledger) (calls : List Accepted) : Ledger := l.run (calls.map .credit)

/-- A directory whose credits file has whole rows of the names, and then a fragment of one. -/
structure Torn (d : Files) (names : List Identity) (valid fragment : Bytes) : Prop extends d.Names names where
  whole : Whole valid
  known : ∀ c ∈ readRows valid, c.ident.toNat < names.length
  credits : d.credits = valid ++ fragment
  short : fragment.length < Credit.size

/-- The valid rows and the new ones after them. -/
def allRows (d : Files) (valid : Bytes) (calls : List Accepted) : List Credit :=
  readRows valid ++ ((openDir d).window.creditRows calls).2

/-- A restart gives the valid rows and the new ones, trimmed to the target. -/
def Restored (d : Files) (valid : Bytes) (calls : List Accepted) (e : Ending) : Prop :=
  (openDir (((openDir d).creditAll calls).finish e).disk).window.credits =
    keptRows d.state.targetWork (allRows d valid calls)

/-- Credits of names on lines of their own, with the valid rows less than a word of work. -/
structure Allowed (valid : Bytes) (calls : List Accepted) : Prop where
  plain : ∀ a ∈ calls, Plain a.identity
  fits : Queue.total rowWork (readRows valid) + (calls.map fun a => a.work.toNat).sum < sizeU64

/-- More rows are trimmed than a file may have left over. -/
def Overgrown (target : Nat) (rows : List Credit) : Prop :=
  (keptRows target rows).length + slackRows < rows.length

/-- The file is rewritten before it is next read: when it is opened, flushed or persisted. -/
def Rewritten (d : Files) (valid : Bytes) (calls : List Accepted) : Ending → Prop
  | .flush => Overgrown d.state.targetWork (readRows valid) ∨
      Overgrown d.state.targetWork (allRows d valid calls)
  | .persistWindow => Overgrown d.state.targetWork (readRows valid) ∨
      keptRows d.state.targetWork (allRows d valid calls) ≠ allRows d valid calls

section
variable {l : Ledger} {d : Files} {names : List Identity} {valid fragment : Bytes} {calls : List Accepted}

theorem creditAll_cons (a : Accepted) : l.creditAll (a :: calls) = (l.credit a none).1.creditAll calls := rfl

theorem creditAll_window : (l.creditAll calls).window = (l.window.creditRows calls).1 := by
  induction calls generalizing l with
  | nil => rfl
  | cons a calls ih => rw [creditAll_cons, ih, credit_window, Window.creditRows]

theorem creditAll_rowsOnDisk : (l.creditAll calls).rowsOnDisk = l.rowsOnDisk + calls.length := by
  induction calls generalizing l with
  | nil => rfl
  | cons a calls ih =>
    rw [creditAll_cons, ih, credit_none, List.length_cons]
    dsimp only
    omega

theorem creditAll_dirty (h : calls ≠ []) : (l.creditAll calls).dirty = true := by
  induction calls generalizing l with
  | nil => exact absurd rfl h
  | cons a calls ih =>
    rw [creditAll_cons]
    by_cases hnil : calls = []
    · rw [hnil, creditAll, List.map_nil, run, List.foldl_nil, credit_none]
    · exact ih hnil

theorem length_creditRows (w : Window) : (w.creditRows calls).2.length = calls.length := by
  induction calls generalizing w with
  | nil => rfl
  | cons a calls ih => exact congrArg (· + 1) (ih _)

theorem workOf_credits : workOf (calls.map .credit) = (calls.map fun a => a.work.toNat).sum := by
  rw [workOf, List.map_map]
  rfl

/-- The fragment is not read. -/
theorem Torn.knownRows (h : Torn d names valid fragment) : d.knownRows names = readRows valid := by
  rw [Files.knownRows, h.credits, readRows_fragment h.whole h.short, List.filter_eq_self]
  exact fun c hc => decide_eq_true (h.known c hc)

theorem Torn.opened (h : Torn d names valid fragment)
    (hfit : Queue.total rowWork (readRows valid) < sizeU64) : Opened d names (openDir d).window :=
  Ledger.opened h.toNames (by rw [h.knownRows]; exact hfit)

theorem creditRows_targetWork (w : Window) : (w.creditRows calls).1.targetWork = w.targetWork := by
  induction calls generalizing w with
  | nil => rfl
  | cons a calls ih => exact (ih _).trans (Window.creditRow_targetWork ..)

/-- A credit adds no more than its work to the window. -/
theorem credit_total_le (hw : l.window.Sound) (a : Accepted)
    (hfit : Queue.total rowWork l.window.credits + a.work.toNat < sizeU64) :
    Queue.total rowWork (l.credit a none).1.window.credits ≤
      Queue.total rowWork l.window.credits + a.work.toNat := by
  obtain ⟨-, hrow⟩ := hw.creditRow a.identity a.work a.height a.ts a.source hfit
  rw [credit_window, hrow]
  refine (Queue.total_le_of_suffix (keptRows_suffix _ _)).trans ?_
  simp [rowWork]

/-- Credits keep the table and the window, whatever is in the credits file. -/
theorem Tabled.creditAll (h : Tabled l) (hw : l.window.Sound) (hplain : ∀ a ∈ calls, Plain a.identity)
    (hfit : Queue.total rowWork l.window.credits + (calls.map fun a => a.work.toNat).sum < sizeU64) :
    Tabled (l.creditAll calls) ∧ (l.creditAll calls).window.Sound := by
  induction calls generalizing l with
  | nil => exact ⟨h, hw⟩
  | cons a calls ih =>
    rw [List.map_cons, List.sum_cons] at hfit
    obtain ⟨hsound, -⟩ := hw.creditRow a.identity a.work a.height a.ts a.source (by omega)
    have hle := credit_total_le hw a (by omega)
    rw [creditAll_cons]
    refine ih (h.credit hw.toIndexed (hplain a List.mem_cons_self)) ?_
      (fun x hx => hplain x (List.mem_cons_of_mem _ hx)) (by omega)
    rw [credit_window]
    exact hsound

/-- What is in memory after the credits. -/
structure Credited (d : Files) (valid : Bytes) (calls : List Accepted) (l : Ledger) : Prop extends
    Tabled l where
  sound : l.window.Sound
  kept : l.window.credits = keptRows d.state.targetWork (allRows d valid calls)
  targetWork : l.window.targetWork = d.state.targetWork

theorem Credited.trimmed (h : Credited d valid calls l) :
    keptRows l.window.targetWork l.window.credits = l.window.credits := by
  rw [h.kept, h.targetWork]
  simpa using keptRows_append d.state.targetWork (allRows d valid calls) []

theorem Credited.total_le (h : Credited d valid calls l) :
    Queue.total rowWork l.window.credits ≤ Queue.total rowWork (allRows d valid calls) := by
  rw [h.kept]
  exact Queue.total_le_of_suffix (keptRows_suffix _ _)

theorem total_allRows (d : Files) (valid : Bytes) (calls : List Accepted) :
    Queue.total rowWork (allRows d valid calls) =
      Queue.total rowWork (readRows valid) + (calls.map fun a => a.work.toNat).sum := by
  have hnew : ∀ w : Window, Queue.total rowWork (w.creditRows calls).2 =
      (calls.map fun a => a.work.toNat).sum := by
    induction calls with
    | nil => exact fun _ => rfl
    | cons a calls ih =>
      intro w
      rw [Window.creditRows, Queue.total_cons, ih, List.map_cons, List.sum_cons]
      rfl
  rw [allRows, Queue.total_append, hnew]

theorem Allowed.total_lt (hc : Allowed valid calls) (d : Files) :
    Queue.total rowWork (allRows d valid calls) < sizeU64 := by
  rw [total_allRows]
  exact hc.fits

theorem Torn.credited (h : Torn d names valid fragment) (hc : Allowed valid calls) :
    Credited d valid calls ((openDir d).creditAll calls) := by
  have hfits := hc.fits
  have hopen := h.opened (by omega)
  have hkept := hopen.credits
  rw [h.knownRows] at hkept
  have hle : Queue.total rowWork (keptRows d.state.targetWork (readRows valid)) ≤ _ :=
    Queue.total_le_of_suffix (keptRows_suffix d.state.targetWork (readRows valid))
  rw [← hkept] at hle
  obtain ⟨htabled, hsound⟩ := (openDir_tabled h.toNames hopen).creditAll hopen.toSound hc.plain (by omega)
  refine ⟨htabled, hsound, ?_, ?_⟩
  · rw [creditAll_window, hopen.toSound.creditRows (by omega) (by rw [hopen.targetWork]; exact hkept),
      hopen.targetWork, allRows]
  · rw [creditAll_window, creditRows_targetWork, hopen.targetWork]

@[simp] theorem finish_window (e : Ending) : (l.finish e).window = l.window := by
  cases e with
  | flush => exact flush_window l
  | persistWindow => exact persistWindow_window l

/-- A file that ends up durable gives the window back. -/
theorem Credited.restored (h : Credited d valid calls ((openDir d).creditAll calls)) (e : Ending)
    (hend : Durable (((openDir d).creditAll calls).finish e))
    (hd : (((openDir d).creditAll calls).finish e).dirty = false)
    (hfit : Queue.total rowWork (((openDir d).creditAll calls).finish e).rows < sizeU64) :
    Restored d valid calls e := by
  rw [Restored, (hend.restores hd hfit).credits, finish_window, h.kept]

theorem Durable.finish (h : Durable l) (e : Ending) (hfit : Queue.total rowWork l.rows < sizeU64) :
    Durable (l.finish e) ∧ Queue.total rowWork (l.finish e).rows ≤ Queue.total rowWork l.rows ∧
      (l.finish e).dirty = false := by
  cases e with
  | flush =>
    obtain ⟨hdur, hle, hclean⟩ := @Durable.apply _ h .flush trivial hfit
    exact ⟨hdur, hle, hclean rfl⟩
  | persistWindow =>
    obtain ⟨hdur, hle, hclean⟩ := @Durable.apply _ h .persistWindow trivial hfit
    exact ⟨hdur, hle, hclean rfl⟩

/-- From a durable start no row is lost. -/
theorem Torn.restored_of_durable (h : Torn d names valid fragment) (hc : Allowed valid calls) (e : Ending)
    (hstart : fragment = [] ∨ Overgrown d.state.targetWork (readRows valid)) : Restored d valid calls e := by
  have hfits := hc.fits
  have hrows := h.knownRows
  obtain ⟨hopen, hle⟩ := openDir_durable h.toNames (by rw [hrows]; omega) (by
    rcases hstart with hf | hmany
    · have hbytes : d.credits = valid := by rw [h.credits, hf, List.append_nil]
      rw [hrows, hbytes]
      exact .inl ⟨h.whole, rfl⟩
    · rw [hrows]
      exact .inr hmany)
  rw [hrows] at hle
  have hnamed : ∀ op ∈ calls.map LedgerOp.credit, op.Named := by
    intro op hop
    obtain ⟨a, ha, rfl⟩ := List.mem_map.mp hop
    exact hc.plain a ha
  obtain ⟨hrun, hle'⟩ := hopen.run hnamed (by rw [workOf_credits]; omega)
  rw [workOf_credits] at hle'
  obtain ⟨hend, hle'', hd⟩ := hrun.finish e (by omega)
  exact (h.credited hc).restored e hend hd (by unfold creditAll; omega)

/-- A ledger that has more in memory than its file is durable once the file is rewritten. -/
theorem Credited.compact_pushed (h : Credited d valid calls l) (hc : Allowed valid calls) :
    Durable l.pushed.compact ∧ Queue.total rowWork l.pushed.compact.rows < sizeU64 := by
  refine ⟨h.toTabled.pushed.compact h.sound h.trimmed fun _ => ⟨rfl, rfl⟩, ?_⟩
  rw [rows_compact]
  exact Nat.lt_of_le_of_lt h.total_le (hc.total_lt d)

theorem flush_of_dirty (hd : l.dirty = true) (hmany : l.window.credits.length + slackRows < l.rowsOnDisk) :
    l.flush = l.pushed.compact := by
  rw [flush_eq, if_pos hd]
  exact if_pos hmany

theorem persistWindow_of_dirty (hd : l.dirty = true) (hmore : l.rowsOnDisk ≠ l.window.credits.length) :
    l.persistWindow = l.pushed.compact := by
  have hflush : l.flush = l.pushed.compact ∨ l.flush = l.pushed := by
    rw [flush_eq, if_pos hd]
    split
    next => exact .inl rfl
    next => exact .inr rfl
  unfold Ledger.persistWindow sync
  dsimp only
  rcases hflush with hflush | hflush <;> rw [hflush]
  · exact if_neg (not_not.mpr rfl)
  · exact if_pos hmore

/-- An opened directory whose file stays as it is. -/
theorem Torn.openDir_eq_replayed (h : Torn d names valid fragment)
    (hfit : Queue.total rowWork (readRows valid) < sizeU64)
    (hkeep : ¬ Overgrown d.state.targetWork (readRows valid)) : openDir d = replayed d := by
  have hopen := h.opened hfit
  rw [openDir_window] at hopen
  rw [openDir_eq, replayed_rowsOnDisk h.toNames, hopen.credits, h.knownRows]
  exact if_neg hkeep

theorem Torn.rowsOnDisk (h : Torn d names valid fragment) (hc : Allowed valid calls)
    (hkeep : ¬ Overgrown d.state.targetWork (readRows valid)) :
    ((openDir d).creditAll calls).rowsOnDisk = (allRows d valid calls).length := by
  have hfits := hc.fits
  rw [creditAll_rowsOnDisk, allRows, List.length_append, length_creditRows,
    h.openDir_eq_replayed (by omega) hkeep, replayed_rowsOnDisk h.toNames, h.knownRows]

/-- A file that is rewritten before it is next read costs nothing. -/
theorem Torn.restored_of_rewritten (h : Torn d names valid fragment) (hc : Allowed valid calls) {e : Ending}
    (hcalls : calls ≠ []) (hkeep : ¬ Overgrown d.state.targetWork (readRows valid))
    (he : Rewritten d valid calls e) : Restored d valid calls e := by
  have hcred := h.credited hc
  have hdirty := creditAll_dirty (l := openDir d) hcalls
  have hcount := h.rowsOnDisk hc hkeep
  obtain ⟨hdur, hfit⟩ := hcred.compact_pushed hc
  have hfinish : ((openDir d).creditAll calls).finish e = ((openDir d).creditAll calls).pushed.compact := by
    cases e with
    | flush =>
      refine flush_of_dirty hdirty ?_
      rw [hcount, hcred.kept]
      exact he.resolve_left hkeep
    | persistWindow =>
      refine persistWindow_of_dirty hdirty fun heq => he.resolve_left hkeep ?_
      rw [hcount, hcred.kept] at heq
      exact (keptRows_suffix _ _).eq_of_length heq.symm
  refine hcred.restored e ?_ ?_ ?_ <;> rw [hfinish]
  · exact hdur
  · rfl
  · exact hfit

/-- Nothing is lost where nothing is credited. -/
theorem Torn.restored_nil (h : Torn d names valid fragment) (hc : Allowed valid []) (e : Ending)
    (hkeep : ¬ Overgrown d.state.targetWork (readRows valid)) : Restored d valid [] e := by
  have hfits := hc.fits
  rw [List.map_nil, List.sum_nil, Nat.add_zero] at hfits
  have hopen := h.opened hfits
  have hsame : (openDir d).creditAll [] = replayed d := h.openDir_eq_replayed hfits hkeep
  have hagain : (openDir (replayed d).disk).window.credits =
      keptRows d.state.targetWork (allRows d valid []) := by
    rw [show (replayed d).disk = d from rfl, hopen.credits, h.knownRows, allRows, Window.creditRows,
      List.append_nil]
  have hcred := h.credited hc
  have hfinish : ((openDir d).creditAll []).finish e = replayed d ∨
      ((openDir d).creditAll []).finish e = (replayed d).compact := by
    rw [hsame]
    cases e with
    | flush => exact .inl rfl
    | persistWindow =>
      change (if _ then _ else _) = _ ∨ (if _ then _ else _) = _
      split
      next => exact .inr rfl
      next => exact .inl rfl
  rcases hfinish with hfinish | hfinish
  · rw [Restored, hfinish, hagain]
  · rw [openDir_window] at hopen
    have hstate := replayed_state hopen
    have hcred' := hcred
    rw [hsame] at hcred'
    have hdur := hcred'.toTabled.compact hcred'.sound hcred'.trimmed fun _ => ⟨rfl, hstate⟩
    refine hcred.restored e ?_ ?_ ?_ <;> rw [hfinish]
    · exact hdur
    · rfl
    · rw [rows_compact]
      exact Nat.lt_of_le_of_lt hcred'.total_le (hc.total_lt d)

/-- Every run that leaves no fragment before a new row is restored. -/
theorem Torn.restored (h : Torn d names valid fragment) (hc : Allowed valid calls) {e : Ending}
    (hok : fragment = [] ∨ calls = [] ∨ Rewritten d valid calls e) : Restored d valid calls e := by
  by_cases hgrown : Overgrown d.state.targetWork (readRows valid)
  · exact h.restored_of_durable hc e (.inr hgrown)
  by_cases hcalls : calls = []
  · subst hcalls
    exact h.restored_nil hc e hgrown
  rcases hok with hf | hnil | he
  · exact h.restored_of_durable hc e (.inl hf)
  · exact absurd hnil hcalls
  · exact h.restored_of_rewritten hc hcalls hgrown he

end

end Ledger
end WaviclesPrime.Tides
