import WaviclesPrime.Lib.Places
import WaviclesPrime.Tides.Replay

/-! The window that opening a directory gives. -/
namespace WaviclesPrime.Tides
open Machine

namespace Window

section
variable (w : Window) (rows : List Credit)

@[simp] theorem replay_idents (c : Credit) : (w.replay c).idents = w.idents := by
  unfold replay; split <;> rfl

@[simp] theorem replay_identIndex (c : Credit) : (w.replay c).identIndex = w.identIndex := by
  unfold replay; split <;> rfl

@[simp] theorem replay_lifetimeShares (c : Credit) : (w.replay c).lifetimeShares = w.lifetimeShares := by
  unfold replay; split <;> rfl

@[simp] theorem replay_lifetimeWork (c : Credit) : (w.replay c).lifetimeWork = w.lifetimeWork := by
  unfold replay; split <;> rfl

theorem foldl_replay_idents : (rows.foldl replay w).idents = w.idents := by
  induction rows generalizing w with
  | nil => rfl
  | cons c rows ih => rw [List.foldl_cons, ih, replay_idents]

theorem foldl_replay_lifetimes : (rows.foldl replay w).lifetimeShares = w.lifetimeShares ∧
    (rows.foldl replay w).lifetimeWork = w.lifetimeWork := by
  induction rows generalizing w with
  | nil => exact ⟨rfl, rfl⟩
  | cons c rows ih =>
    rw [List.foldl_cons, (ih _).1, (ih _).2, replay_lifetimeShares, replay_lifetimeWork]
    exact ⟨rfl, rfl⟩

theorem usable_cons (c : Credit) : w.usable (c :: rows) =
    if c.ident.toNat < w.idents.length then c :: w.usable rows else w.usable rows := by
  simp [usable, List.filter_cons]

/-- The rows that are replayed are those whose identity is in the table. -/
theorem foldl_replay_credits : (rows.foldl replay w).credits = w.credits ++ w.usable rows := by
  induction rows generalizing w with
  | nil => exact (List.append_nil _).symm
  | cons c rows ih =>
    have husable : (w.replay c).usable rows = w.usable rows := by rw [usable, usable, replay_idents]
    rw [List.foldl_cons, ih, husable, usable_cons, replay]
    split
    next => rw [pushRaw, List.append_assoc, List.singleton_append]
    next => rfl

end

theorem Sound.foldl_replay {w : Window} (h : w.Sound) {rows : List Credit}
    (hfit : Queue.total rowWork w.credits + Queue.total rowWork (w.usable rows) < sizeU64) :
    (rows.foldl replay w).Sound := by
  induction rows generalizing w with
  | nil => exact h
  | cons c rows ih =>
    rw [usable_cons] at hfit
    rw [List.foldl_cons, replay]
    split
    next hc =>
      rw [if_pos hc, Queue.total_cons] at hfit
      have husable : (w.pushRaw c).usable rows = w.usable rows := rfl
      refine ih (h.pushRaw hc (by omega)) ?_
      rw [husable, Window.pushRaw, Queue.total_append, Queue.total_cons, Queue.total_nil]
      omega
    next hc =>
      rw [if_neg hc] at hfit
      exact ih h hfit

/-- A window that has read a table of names, and no rows yet. -/
structure Blank (w : Window) (names : List Identity) (state : Meta) : Prop extends w.Sound where
  idents : w.idents = names
  credits : w.credits = []
  totals : w.totals = .empty
  lifetimeShares : w.lifetimeShares = state.lifetimeShares
  lifetimeWork : w.lifetimeWork = state.lifetimeWork

theorem Blank.intern {w : Window} {names : List Identity} {state : Meta} (h : w.Blank names.eraseDups state)
    (s : Identity) : (w.intern s).1.Blank (names ++ [s]).eraseDups state where
  toSound := h.toSound.intern s
  idents := by
    rw [h.toSound.intern_idents, h.idents, Places.eraseDups_concat]
    simp only [List.mem_eraseDups]
  credits := (intern_credits w s).trans h.credits
  totals := (intern_totals w s).trans h.totals
  lifetimeShares := (intern_lifetimeShares w s).trans h.lifetimeShares
  lifetimeWork := (intern_lifetimeWork w s).trans h.lifetimeWork

/-- A table takes each name once, where it first comes. -/
theorem Blank.foldl_intern {w : Window} {names more : List Identity} {state : Meta}
    (h : w.Blank names.eraseDups state) :
    (more.foldl (fun w s => (w.intern s).1) w).Blank (names ++ more).eraseDups state := by
  induction more generalizing w names with
  | nil => rwa [List.append_nil]
  | cons s more ih =>
    rw [List.append_cons]
    exact ih (h.intern s)

end Window

/-- The window of a directory before its rows are replayed. -/
def Files.table (d : Files) : Window :=
  ((lines d.identities).filter (· ≠ "")).foldl (fun w s => (w.intern s).1)
    { Window.new with lifetimeShares := d.state.lifetimeShares, lifetimeWork := d.state.lifetimeWork }

/-- The names that a text lists: its lines that are not blank, each once. -/
def listed (text : List Char) : List Identity := ((lines text).filter (· ≠ "")).eraseDups

/-- A directory whose identities file has each of the names on a line of its own. -/
structure Files.Names (d : Files) (names : List Identity) : Prop where
  distinct : names.Nodup
  plain : ∀ s ∈ names, Plain s
  text : d.identities = names.flatMap lineOf

/-- The rows of a directory whose identity is one of the names. -/
def Files.knownRows (d : Files) (names : List Identity) : List Credit :=
  (readRows d.credits).filter fun c => c.ident.toNat < names.length

namespace Files
variable {d : Files} {names : List Identity}

theorem blank (d : Files) : d.table.Blank (listed d.identities) d.state := by
  have hfresh : { Window.new with
      lifetimeShares := d.state.lifetimeShares
      lifetimeWork := d.state.lifetimeWork }.Blank [] d.state :=
    ⟨⟨⟨Window.Sound.new.distinct, Window.Sound.new.index⟩, rfl, .empty, Window.Sound.new.known⟩,
      rfl, rfl, rfl, rfl, rfl⟩
  exact @Window.Blank.foldl_intern _ [] _ _ hfresh

theorem usable (d : Files) : d.table.usable (readRows d.credits) = d.knownRows (listed d.identities) := by
  rw [Window.usable, d.blank.idents, knownRows]

/-- Lines of their own are listed as they are. -/
theorem Names.listed (h : d.Names names) : Tides.listed d.identities = names := by
  have hlines : (lines d.identities).filter (· ≠ "") = names := by
    rw [h.text, lines_flatMap h.plain, List.filter_eq_self]
    exact fun s hs => decide_eq_true (h.plain s hs).1
  rw [Tides.listed, hlines, Places.eraseDups_of_nodup h.distinct]

theorem Names.blank (h : d.Names names) : d.table.Blank names d.state := by
  have hblank := d.blank
  rwa [h.listed] at hblank

theorem Names.usable (h : d.Names names) : d.table.usable (readRows d.credits) = d.knownRows names := by
  rw [d.usable, h.listed]

end Files

namespace Ledger
variable {d : Files} {names : List Identity}

/-- A directory as it is read, before its credits file may be rewritten. -/
def replayed (d : Files) : Ledger where
  window := ((readRows d.credits).foldl Window.replay d.table).setTarget d.state.targetWork
  disk := d
  identsOut := []
  creditsOut := []
  rowsOnDisk := (d.table.usable (readRows d.credits)).length
  dirty := false

theorem openDir_eq (d : Files) : openDir d =
    if (replayed d).window.credits.length + slackRows < (replayed d).rowsOnDisk then (replayed d).compact
    else replayed d := rfl

theorem openDir_window (d : Files) : (openDir d).window = (replayed d).window := by
  rw [openDir_eq]
  split <;> rfl

/-- What is in the window once a directory is opened. -/
structure Opened (d : Files) (names : List Identity) (w : Window) : Prop extends w.Sound where
  idents : w.idents = names
  credits : w.credits = keptRows d.state.targetWork (d.knownRows names)
  targetWork : w.targetWork = d.state.targetWork
  lifetimeShares : w.lifetimeShares = d.state.lifetimeShares
  lifetimeWork : w.lifetimeWork = d.state.lifetimeWork

/-- A directory opens to what it lists, whatever its lines are. -/
theorem opened_listed (d : Files)
    (hfit : Queue.total rowWork (d.knownRows (listed d.identities)) < sizeU64) :
    Opened d (listed d.identities) (openDir d).window := by
  have hcredits : ((readRows d.credits).foldl Window.replay d.table).credits =
      d.knownRows (listed d.identities) := by
    rw [Window.foldl_replay_credits, d.blank.credits, d.usable, List.nil_append]
  have hsound : ((readRows d.credits).foldl Window.replay d.table).Sound := by
    refine d.blank.toSound.foldl_replay ?_
    rw [d.blank.credits, d.usable, Queue.total_nil, Nat.zero_add]
    exact hfit
  obtain ⟨htrim, hkept⟩ := hsound.setTarget d.state.targetWork
  obtain ⟨hshares, hwork⟩ := Window.foldl_replay_lifetimes d.table (readRows d.credits)
  rw [openDir_window, replayed]
  refine ⟨htrim, ?_, ?_, Window.trim_targetWork _, ?_, ?_⟩
  · rw [Window.setTarget_idents, Window.foldl_replay_idents, d.blank.idents]
  · rw [hkept, hcredits]
  · exact (Window.trim_lifetimeShares _).trans (hshares.trans d.blank.lifetimeShares)
  · exact (Window.trim_lifetimeWork _).trans (hwork.trans d.blank.lifetimeWork)

theorem opened (h : d.Names names) (hfit : Queue.total rowWork (d.knownRows names) < sizeU64) :
    Opened d names (openDir d).window := by
  rw [← h.listed] at hfit ⊢
  exact opened_listed d hfit

end Ledger
end WaviclesPrime.Tides
