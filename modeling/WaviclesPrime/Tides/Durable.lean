import WaviclesPrime.Tides.Reopen

/-! A ledger whose files say what its window does, and what every operation keeps of that. -/
namespace WaviclesPrime.Tides
open Machine

namespace Ledger

/-- The rows of the credits file, with those that are still buffered. -/
def rows (l : Ledger) : List Credit := readRows (l.disk.credits ++ l.creditsOut)

/-- With what is buffered, the identities file has a line for each identity. -/
structure Tabled (l : Ledger) : Prop where
  plain : ∀ s ∈ l.window.idents, Plain s
  identities : l.disk.identities ++ l.identsOut = l.window.idents.flatMap lineOf

/-- With what is buffered, the credits file has whole rows of those identities. -/
structure Written (l : Ledger) : Prop extends Tabled l where
  whole : Whole (l.disk.credits ++ l.creditsOut)
  known : ∀ c ∈ l.rows, c.ident.toNat < l.window.idents.length

/-- With what is buffered, the files list each identity and have whole rows of them, whatever the names. -/
structure Filed (l : Ledger) : Prop where
  identities : l.disk.identities ++ l.identsOut = l.window.idents.flatMap lineOf
  whole : Whole (l.disk.credits ++ l.creditsOut)
  known : ∀ c ∈ l.rows, c.ident.toNat < l.window.idents.length

/-- What the meta file is to say. -/
def state (l : Ledger) : Meta := ⟨l.window.targetWork, l.window.lifetimeShares, l.window.lifetimeWork⟩

/-- The window has the last rows of the file, and none to trim; what is not dirty is all in the files. -/
structure Held (l : Ledger) : Prop extends Written l where
  sound : l.window.Sound
  suffix : l.window.credits <:+ l.rows
  trimmed : keptRows l.window.targetWork l.window.credits = l.window.credits
  count : l.rowsOnDisk = l.rows.length
  clean : l.dirty = false → l.identsOut = [] ∧ l.creditsOut = [] ∧ l.disk.state = l.state

/-- As much of it as does not depend on the names. -/
structure Stored (l : Ledger) : Prop extends Filed l where
  sound : l.window.Sound
  suffix : l.window.credits <:+ l.rows
  trimmed : keptRows l.window.targetWork l.window.credits = l.window.credits
  count : l.rowsOnDisk = l.rows.length
  clean : l.dirty = false → l.identsOut = [] ∧ l.creditsOut = [] ∧ l.disk.state = l.state

/-- The window has exactly what one trim leaves of the rows of the file. -/
structure Durable (l : Ledger) : Prop extends Held l where
  kept : l.window.credits = keptRows l.window.targetWork l.rows

/-- What a credit puts out for its identity. -/
def lineFor (l : Ledger) (s : Identity) : List Char :=
  if (l.window.identIndex.get s).isSome then [] else lineOf s

section
variable (l : Ledger) (a : Accepted) (fault : Option Fault)

/-- Whatever write fails, the window has the work. -/
theorem credit_window : (l.credit a fault).1.window =
    (l.window.creditRow a.identity a.work a.height a.ts a.source).1 := by
  unfold credit
  cases (l.window.identIndex.get a.identity).isSome with
  | true => cases fault with
    | none => rfl
    | some f => cases f <;> rfl
  | false => cases fault with
    | none => rfl
    | some f => cases f <;> rfl

/-- A credit none of whose writes fails. -/
theorem credit_none : (l.credit a none).1 =
    { l with
      window := (l.window.creditRow a.identity a.work a.height a.ts a.source).1
      identsOut := l.identsOut ++ l.lineFor a.identity
      creditsOut := l.creditsOut ++ (l.window.creditRow a.identity a.work a.height a.ts a.source).2.write
      rowsOnDisk := l.rowsOnDisk + 1
      dirty := true } := by
  unfold credit lineFor
  cases (l.window.identIndex.get a.identity).isSome <;> simp [lineOf]

/-- Pushed out, but not rewritten. -/
def pushed : Ledger :=
  { l with
    disk :=
      { identities := l.disk.identities ++ l.identsOut
        credits := l.disk.credits ++ l.creditsOut
        state := l.state }
    identsOut := []
    creditsOut := []
    dirty := false }

theorem flush_eq : l.flush =
    if l.dirty then
      if l.pushed.window.credits.length + slackRows < l.pushed.rowsOnDisk then l.pushed.compact else l.pushed
    else l := rfl

@[simp] theorem compact_window : l.compact.window = l.window := rfl

@[simp] theorem flush_window : l.flush.window = l.window := by
  rw [flush_eq]
  split
  next => split <;> rfl
  next => rfl

@[simp] theorem persistWindow_window : l.persistWindow.window = l.window := by
  unfold persistWindow sync
  dsimp only
  split
  next => rw [compact_window, flush_window]
  next => exact flush_window l

@[simp] theorem rows_pushed : l.pushed.rows = l.rows := by rw [rows, rows, pushed, List.append_nil]

@[simp] theorem rows_compact : l.compact.rows = l.window.credits := by
  rw [rows, compact, List.append_nil, readRows_write]

end

section
variable {l : Ledger}

theorem lineFor_eq (h : l.window.Indexed) (s : Identity) :
    l.window.idents.flatMap lineOf ++ l.lineFor s = (l.window.intern s).1.idents.flatMap lineOf := by
  rw [h.intern_idents, lineFor]
  cases hget : l.window.identIndex.get s with
  | none =>
    rw [if_neg (h.index_eq_none.mp hget), List.flatMap_append]
    simp
  | some i =>
    have hmem : s ∈ l.window.idents := by
      by_contra hout
      rw [h.index_eq_none.mpr hout] at hget
      exact absurd hget (by simp)
    rw [if_pos hmem]
    simp

theorem mem_intern (h : l.window.Indexed) {s t : Identity} (ht : t ∈ (l.window.intern s).1.idents) :
    t ∈ l.window.idents ∨ t = s := by
  rw [h.intern_idents] at ht
  split at ht
  next => exact .inl ht
  next => exact (List.mem_append.mp ht).imp_right List.mem_singleton.mp

theorem Written.filed (h : Written l) : Filed l := ⟨h.identities, h.whole, h.known⟩

theorem Filed.written (h : Filed l) (hplain : ∀ s ∈ l.window.idents, Plain s) : Written l :=
  ⟨⟨hplain, h.identities⟩, h.whole, h.known⟩

theorem identities_credit (h : l.disk.identities ++ l.identsOut = l.window.idents.flatMap lineOf)
    (hi : l.window.Indexed) (a : Accepted) : (l.credit a none).1.disk.identities ++
      (l.credit a none).1.identsOut = (l.credit a none).1.window.idents.flatMap lineOf := by
  rw [credit_window, Window.creditRow_idents, ← lineFor_eq hi, ← h, credit_none, List.append_assoc]

theorem plain_credit (h : ∀ s ∈ l.window.idents, Plain s) (hi : l.window.Indexed) {a : Accepted}
    (ha : Plain a.identity) : ∀ s ∈ (l.credit a none).1.window.idents, Plain s := by
  intro s hs
  rw [credit_window, Window.creditRow_idents] at hs
  rcases mem_intern hi hs with hs | rfl
  · exact h s hs
  · exact ha

theorem Tabled.credit (h : Tabled l) (hi : l.window.Indexed) {a : Accepted} (ha : Plain a.identity) :
    Tabled (l.credit a none).1 :=
  ⟨plain_credit h.plain hi ha, identities_credit h.identities hi a⟩

theorem Tabled.pushed (h : Tabled l) : Tabled l.pushed where
  plain := h.plain
  identities := by
    rw [Ledger.pushed, List.append_nil]
    exact h.identities

theorem Filed.rows_credit (h : Filed l) (a : Accepted) : (l.credit a none).1.rows =
    l.rows ++ [(l.window.creditRow a.identity a.work a.height a.ts a.source).2] := by
  have hrow := readRows_write [(l.window.creditRow a.identity a.work a.height a.ts a.source).2]
  rw [List.flatMap_singleton] at hrow
  rw [credit_none, rows, ← List.append_assoc, h.whole.readRows_append, hrow, rows]

theorem Written.rows_credit (h : Written l) (a : Accepted) : (l.credit a none).1.rows =
    l.rows ++ [(l.window.creditRow a.identity a.work a.height a.ts a.source).2] := h.filed.rows_credit a

theorem Filed.credit (h : Filed l) (hi : l.window.Indexed) (a : Accepted) : Filed (l.credit a none).1 where
  identities := identities_credit h.identities hi a
  whole := by
    rw [credit_none, ← List.append_assoc]
    exact h.whole.append (by rw [Whole, Credit.length_write])
  known := by
    intro c hc
    rw [h.rows_credit] at hc
    rw [credit_window, Window.creditRow_idents]
    rcases List.mem_append.mp hc with hc | hc
    · exact Nat.lt_of_lt_of_le (h.known c hc) (hi.length_le_intern a.identity)
    · obtain rfl := List.mem_singleton.mp hc
      exact hi.intern_known a.identity

theorem Written.credit (h : Written l) (hi : l.window.Indexed) {a : Accepted} (ha : Plain a.identity) :
    Written (l.credit a none).1 := (h.filed.credit hi a).written (plain_credit h.plain hi ha)

theorem Filed.pushed (h : Filed l) : Filed l.pushed where
  identities := by
    rw [Ledger.pushed, List.append_nil]
    exact h.identities
  whole := by
    rw [Ledger.pushed, List.append_nil]
    exact h.whole
  known := by
    rw [rows_pushed]
    exact h.known

theorem Written.pushed (h : Written l) : Written l.pushed := h.filed.pushed.written h.plain

theorem Filed.compact (h : l.disk.identities ++ l.identsOut = l.window.idents.flatMap lineOf)
    (hknown : ∀ c ∈ l.window.credits, c.ident.toNat < l.window.idents.length) : Filed l.compact where
  identities := h
  whole := by
    rw [Ledger.compact, List.append_nil]
    exact whole_write _
  known := by
    rw [rows_compact]
    exact hknown

theorem Written.compact (h : Tabled l)
    (hknown : ∀ c ∈ l.window.credits, c.ident.toNat < l.window.idents.length) : Written l.compact :=
  (Filed.compact h.identities hknown).written h.plain

/-- A rewritten file has the window's rows, whatever it had before. -/
theorem Tabled.compact (h : Tabled l) (hsound : l.window.Sound)
    (htrim : keptRows l.window.targetWork l.window.credits = l.window.credits)
    (hclean : l.dirty = false → l.identsOut = [] ∧ l.disk.state = l.state) : Durable l.compact where
  toWritten := .compact h hsound.known
  sound := hsound
  suffix := by rw [rows_compact]; exact List.suffix_rfl
  trimmed := htrim
  count := by rw [rows_compact]; rfl
  clean := fun hd => ⟨(hclean hd).1, rfl, (hclean hd).2⟩
  kept := by
    rw [rows_compact]
    exact htrim.symm

theorem Held.stored (h : Held l) : Stored l :=
  ⟨h.toWritten.filed, h.sound, h.suffix, h.trimmed, h.count, h.clean⟩

theorem Stored.held (h : Stored l) (hplain : ∀ s ∈ l.window.idents, Plain s) : Held l :=
  ⟨h.toFiled.written hplain, h.sound, h.suffix, h.trimmed, h.count, h.clean⟩

theorem Stored.pushed (h : Stored l) : Stored l.pushed where
  toFiled := h.toFiled.pushed
  sound := h.sound
  suffix := by rw [rows_pushed]; exact h.suffix
  trimmed := h.trimmed
  count := by rw [rows_pushed]; exact h.count
  clean := fun _ => ⟨rfl, rfl, rfl⟩

theorem Stored.compact (h : Stored l) : Stored l.compact where
  toFiled := .compact h.identities h.sound.known
  sound := h.sound
  suffix := by rw [rows_compact]; exact List.suffix_rfl
  trimmed := h.trimmed
  count := by rw [rows_compact]; rfl
  clean := fun hd => ⟨(h.clean hd).1, rfl, (h.clean hd).2.2⟩

theorem Held.total_le (h : Held l) : Queue.total rowWork l.window.credits ≤ Queue.total rowWork l.rows :=
  Queue.total_le_of_suffix h.suffix

/-- What a flush leaves in the files is what was there, or what is in the window. -/
theorem Stored.flush (h : Stored l) : Stored l.flush ∧ l.flush.dirty = false ∧
    (l.flush.rows = l.rows ∨ l.flush.rows = l.window.credits) := by
  rw [flush_eq]
  split
  next =>
    split
    next => exact ⟨h.pushed.compact, rfl, .inr (rows_compact _)⟩
    next => exact ⟨h.pushed, rfl, .inl (rows_pushed l)⟩
  next hd => exact ⟨h, by simpa using hd, .inl rfl⟩

theorem Held.flush (h : Held l) : Held l.flush ∧ l.flush.dirty = false ∧
    (l.flush.rows = l.rows ∨ l.flush.rows = l.window.credits) := by
  obtain ⟨hstored, hrest⟩ := h.stored.flush
  exact ⟨hstored.held (by rw [flush_window]; exact h.plain), hrest⟩

theorem Durable.flush (h : Durable l) : Durable l.flush := by
  obtain ⟨hheld, -, hrows⟩ := h.toHeld.flush
  refine ⟨hheld, ?_⟩
  rw [flush_window]
  rcases hrows with hrows | hrows
  · rw [hrows]
    exact h.kept
  · rw [hrows]
    exact h.trimmed.symm

/-- Once the window is persisted, the file has its rows and no others. -/
theorem Stored.persistWindow (h : Stored l) : Stored l.persistWindow ∧ l.persistWindow.dirty = false ∧
    l.persistWindow.rows = l.window.credits := by
  obtain ⟨hstored, hdirty, -⟩ := h.flush
  unfold Ledger.persistWindow sync
  dsimp only
  split
  next => exact ⟨hstored.compact, hdirty, by rw [rows_compact, flush_window]⟩
  next hcount =>
    rw [not_not, hstored.count] at hcount
    have hrows : l.flush.rows = l.window.credits := by
      rw [← flush_window]
      exact (hstored.suffix.eq_of_length hcount.symm).symm
    exact ⟨hstored, hdirty, hrows⟩

theorem Held.persistWindow (h : Held l) : Durable l.persistWindow ∧ l.persistWindow.dirty = false ∧
    l.persistWindow.rows = l.window.credits := by
  obtain ⟨hstored, hdirty, hrows⟩ := h.stored.persistWindow
  refine ⟨⟨hstored.held (by rw [persistWindow_window]; exact h.plain), ?_⟩, hdirty, hrows⟩
  rw [hrows, persistWindow_window]
  exact h.trimmed.symm

/-- A credit is held on to, whatever its name. -/
theorem Stored.credit (h : Stored l) (a : Accepted)
    (hfit : Queue.total rowWork l.window.credits + a.work.toNat < sizeU64) :
    Stored (l.credit a none).1 := by
  obtain ⟨hsound, hrow⟩ := h.sound.creditRow a.identity a.work a.height a.ts a.source hfit
  have htarget : (l.credit a none).1.window.targetWork = l.window.targetWork := by
    rw [credit_window, Window.creditRow_targetWork]
  rw [← credit_window l a none] at hrow hsound
  refine ⟨h.toFiled.credit h.sound.toIndexed a, hsound, ?_, ?_, ?_, ?_⟩
  · rw [hrow, h.rows_credit]
    obtain ⟨front, hfront⟩ := h.suffix
    rw [← hfront, List.append_assoc]
    exact (keptRows_suffix _ _).trans (List.suffix_append _ _)
  · rw [htarget, hrow]
    simpa using keptRows_append l.window.targetWork (l.window.credits ++
      [(l.window.creditRow a.identity a.work a.height a.ts a.source).2]) []
  · rw [h.rows_credit, List.length_append, ← h.count, credit_none]
    rfl
  · intro hd
    rw [credit_none] at hd
    exact absurd hd (by simp)

theorem Durable.credit (h : Durable l) {a : Accepted} (ha : Plain a.identity)
    (hfit : Queue.total rowWork l.rows + a.work.toNat < sizeU64) : Durable (l.credit a none).1 := by
  have hle := h.total_le
  obtain ⟨-, hrow⟩ := h.sound.creditRow a.identity a.work a.height a.ts a.source (by omega)
  rw [h.kept, keptRows_append] at hrow
  refine ⟨(h.stored.credit a (by omega)).held (plain_credit h.plain h.sound.toIndexed ha), ?_⟩
  rw [h.rows_credit, credit_window, Window.creditRow_targetWork, hrow]

/-- A new target is held to in memory at once; the files follow when the window is persisted. -/
theorem Held.setTarget (h : Held l) (target : Nat) : Held (l.setTarget target) ∧
    (l.setTarget target).rows = l.rows := by
  unfold Ledger.setTarget
  split
  next => exact ⟨h, rfl⟩
  next =>
    obtain ⟨hsound, hkept⟩ := h.sound.setTarget target
    have htarget : (l.window.setTarget target).targetWork = target := Window.trim_targetWork _
    refine ⟨⟨⟨⟨?_, ?_⟩, h.whole, ?_⟩, hsound, ?_, ?_, h.count, ?_⟩, rfl⟩
    · rw [Window.setTarget_idents]
      exact h.plain
    · rw [Window.setTarget_idents]
      exact h.identities
    · rw [Window.setTarget_idents]
      exact h.known
    · rw [hkept]
      exact (keptRows_suffix _ _).trans h.suffix
    · rw [htarget, hkept]
      simpa using keptRows_append target l.window.credits []
    · intro hd
      exact absurd hd (by simp)

end

section
variable {d : Files} {names : List Identity}

theorem replayed_tabled (h : d.Names names) (hopen : Opened d names (replayed d).window) :
    Tabled (replayed d) where
  plain := by
    rw [hopen.idents]
    exact h.plain
  identities := by
    rw [hopen.idents]
    exact (List.append_nil _).trans h.text

theorem openDir_tabled (h : d.Names names) (hopen : Opened d names (openDir d).window) :
    Tabled (openDir d) := by
  rw [openDir_window] at hopen
  have htabled := replayed_tabled h hopen
  rw [openDir_eq]
  split
  next => exact ⟨htabled.plain, htabled.identities⟩
  next => exact htabled

theorem replayed_state (hopen : Opened d names (replayed d).window) :
    (replayed d).disk.state = (replayed d).state := by
  rw [state, hopen.targetWork, hopen.lifetimeShares, hopen.lifetimeWork]
  rfl

theorem replayed_trimmed (hopen : Opened d names (replayed d).window) :
    keptRows (replayed d).window.targetWork (replayed d).window.credits = (replayed d).window.credits := by
  rw [hopen.credits, hopen.targetWork]
  simpa using keptRows_append d.state.targetWork (d.knownRows names) []

theorem replayed_rowsOnDisk (h : d.Names names) :
    (replayed d).rowsOnDisk = (d.knownRows names).length := by rw [replayed, h.usable]

/-- A directory that is as some ledger leaves it, or whose credits file is rewritten, opens durable. -/
theorem openDir_durable (h : d.Names names) (hfit : Queue.total rowWork (d.knownRows names) < sizeU64)
    (hrows : Whole d.credits ∧ d.knownRows names = readRows d.credits ∨
      (keptRows d.state.targetWork (d.knownRows names)).length + slackRows < (d.knownRows names).length) :
    Durable (openDir d) ∧ Queue.total rowWork (openDir d).rows ≤ Queue.total rowWork (d.knownRows names) := by
  have hopen := opened h hfit
  rw [openDir_window] at hopen
  have htabled := replayed_tabled h hopen
  have hstate := replayed_state hopen
  have htrim := replayed_trimmed hopen
  rw [openDir_eq, replayed_rowsOnDisk h, hopen.credits]
  split
  next =>
    refine ⟨htabled.compact hopen.toSound htrim fun _ => ⟨rfl, hstate⟩, ?_⟩
    rw [rows_compact, hopen.credits]
    exact Queue.total_le_of_suffix (keptRows_suffix _ _)
  next hkeep =>
    obtain ⟨hwhole, hknown⟩ := hrows.resolve_right hkeep
    have hall : (replayed d).rows = d.knownRows names := by
      rw [hknown, rows, replayed, List.append_nil]
    have hkept : (replayed d).window.credits =
        keptRows (replayed d).window.targetWork (replayed d).rows := by
      rw [hall, hopen.credits, hopen.targetWork]
    refine ⟨⟨⟨⟨htabled, ?_, ?_⟩, hopen.toSound, ?_, htrim, ?_, fun _ => ⟨rfl, rfl, hstate⟩⟩, hkept⟩, ?_⟩
    · rw [replayed, List.append_nil]
      exact hwhole
    · rw [hall, hopen.idents]
      exact fun c hc => of_decide_eq_true (List.mem_filter.mp hc).2
    · rw [hkept]
      exact keptRows_suffix _ _
    · rw [replayed_rowsOnDisk h, hall]
    · rw [hall]

end

/-- What is in the files of a durable ledger once it is pushed out. -/
theorem Durable.reopened {l : Ledger} (h : Durable l) (hd : l.dirty = false)
    (hfit : Queue.total rowWork l.rows < sizeU64) :
    Opened l.disk l.window.idents (openDir l.disk).window ∧ l.disk.knownRows l.window.idents = l.rows := by
  obtain ⟨hids, hcredits, hstate⟩ := h.clean hd
  have hnames : l.disk.Names l.window.idents :=
    ⟨h.sound.distinct, h.plain, by rw [← h.identities, hids, List.append_nil]⟩
  have hrows : l.disk.knownRows l.window.idents = l.rows := by
    have hread : readRows l.disk.credits = l.rows := by rw [rows, hcredits, List.append_nil]
    rw [Files.knownRows, hread, List.filter_eq_self]
    exact fun c hc => decide_eq_true (h.known c hc)
  exact ⟨opened hnames (by rw [hrows]; exact hfit), hrows⟩

end Ledger
end WaviclesPrime.Tides
