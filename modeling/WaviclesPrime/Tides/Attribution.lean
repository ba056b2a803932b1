import WaviclesPrime.Tides.Durable
import WaviclesPrime.Tides.Fair

/-! Whose work the rows of a ledger are, when writes fail and the process stops. -/
namespace WaviclesPrime.Tides
open Machine

/-- What happens to a ledger. A stop leaves so many characters and bytes of what was written to the two
files, and the ledger is opened again. -/
inductive LedgerStep where
  | credit (a : Accepted) (fault : Option Fault)
  | flush
  | persistWindow
  | setTarget (target : Nat)
  | stop (chars bytes : Nat)

/-- The names that are credited stand on lines of their own. -/
def LedgerStep.Named : LedgerStep → Prop
  | .credit a _ => Plain a.identity
  | _ => True

/-- Text that ends where a line does. -/
def WholeLines (text : List Char) : Prop := text = [] ∨ text.getLast? = some '\n'

instance (text : List Char) : Decidable (WholeLines text) := inferInstanceAs (Decidable (_ ∨ _))

/-- The work that some steps credit to a name, whether its row is written or not. -/
def creditedTo (steps : List LedgerStep) (s : Identity) : Nat :=
  (steps.map fun
    | .credit a _ => if a.identity = s then a.work.toNat else 0
    | _ => 0).sum

namespace Ledger

/-- What the directory holds after a stop. -/
def left (l : Ledger) (chars bytes : Nat) : Files where
  identities := (l.disk.identities ++ l.identsOut).take chars
  credits := (l.disk.credits ++ l.creditsOut).take bytes
  state := l.disk.state

def step (l : Ledger) : LedgerStep → Ledger
  | .credit a fault => (l.credit a fault).1
  | .flush => l.flush
  | .persistWindow => l.persistWindow
  | .setTarget target => l.setTarget target
  | .stop chars bytes => openDir (l.left chars bytes)

def steps (l : Ledger) (run : List LedgerStep) : Ledger := run.foldl step l

/-- No line is lost under a row: a new name has an index left and its line is written; a stop cuts neither
file inside a line or row, and leaves each row's line. -/
def Keeps (l : Ledger) : LedgerStep → Prop
  | .credit a fault => a.identity ∈ l.window.idents ∨
      (fault ≠ some .identity ∧ fault ≠ some .newline ∧ l.window.idents.length < sizeU32)
  | .stop chars bytes =>
      WholeLines (l.left chars bytes).identities ∧ Whole (l.left chars bytes).credits ∧
        ∀ c ∈ readRows (l.left chars bytes).credits,
          c.ident.toNat < (lines (l.left chars bytes).identities).length
  | _ => True

/-- Every step of a run does. -/
def KeepsAll (l : Ledger) : List LedgerStep → Prop
  | [] => True
  | s :: run => l.Keeps s ∧ (l.step s).KeepsAll run

instance (bytes : Bytes) : Decidable (Whole bytes) := inferInstanceAs (Decidable (_ ∣ _))

instance (l : Ledger) : DecidablePred l.Keeps
  | .credit _ _ => inferInstanceAs (Decidable (_ ∨ _))
  | .stop _ _ => inferInstanceAs (Decidable (_ ∧ _))
  | .flush | .persistWindow | .setTarget _ => isTrue trivial

instance decideKeepsAll (l : Ledger) : (run : List LedgerStep) → Decidable (l.KeepsAll run)
  | [] => isTrue trivial
  | s :: run =>
    have := decideKeepsAll (l.step s) run
    inferInstanceAs (Decidable (_ ∧ _))

/-- No name has more work than it is due, in the window or in the file. -/
structure Attributed (due : Identity → Nat) (l : Ledger) : Prop extends Written l where
  fair : l.window.Fair
  room : l.window.idents.length ≤ sizeU32
  inWindow : Capped l.window.idents due l.window.credits
  inFile : Capped l.window.idents due l.rows

/-- Lines that are cut where one of them ends are the first so many of them. -/
theorem exists_names_of_prefix {names : List Identity} (hp : ∀ s ∈ names, Plain s) {text : List Char}
    (hpre : text <+: names.flatMap lineOf) (hw : WholeLines text) :
    ∃ names', names' <+: names ∧ text = names'.flatMap lineOf := by
  induction names generalizing text with
  | nil => exact ⟨[], List.prefix_rfl, List.prefix_nil.mp hpre⟩
  | cons s names ih =>
    rw [List.flatMap_cons] at hpre
    rcases List.prefix_or_prefix_of_prefix hpre (List.prefix_append _ _) with hshort | ⟨more, rfl⟩
    · rcases List.prefix_concat_iff.mp hshort with heq | hinside
      · exact ⟨[s], by simp, by simp [heq, lineOf]⟩
      · rcases hw with rfl | hlast
        · exact ⟨[], List.nil_prefix, rfl⟩
        · have hmem := hinside.subset (List.mem_of_getLast? hlast)
          exact absurd rfl (hp s List.mem_cons_self |>.2 _ hmem).1
    · have hrest : more <+: names.flatMap lineOf := (List.prefix_append_right_inj _).mp hpre
      have hmore : WholeLines more := by
        by_cases hnil : more = []
        · exact .inl hnil
        · refine .inr ?_
          rcases hw with hall | hlast
          · exact absurd (List.append_eq_nil_iff.mp hall).2 hnil
          · rwa [List.getLast?_append_of_ne_nil _ hnil] at hlast
      obtain ⟨names', hnames, rfl⟩ := ih (fun x hx => hp x (List.mem_cons_of_mem _ hx)) hrest hmore
      exact ⟨s :: names', (List.cons_prefix_cons).mpr ⟨rfl, hnames⟩, List.flatMap_cons.symm⟩

section
variable {l : Ledger} {due : Identity → Nat}

/-- A credit whose line is written is one that does not fail, or one that only has no row in the file. -/
theorem credit_of_line {a : Accepted} {fault : Option Fault}
    (h : (l.window.identIndex.get a.identity).isSome ∨ (fault ≠ some .identity ∧ fault ≠ some .newline)) :
    (l.credit a fault).1 =
      if fault = some .row then
        { l with
          window := (l.window.creditRow a.identity a.work a.height a.ts a.source).1
          identsOut := l.identsOut ++ l.lineFor a.identity }
      else (l.credit a none).1 := by
  rw [credit_none]
  unfold credit lineFor
  revert h
  cases (l.window.identIndex.get a.identity).isSome with
  | true =>
    intro _
    cases fault with
    | none => simp
    | some f => cases f <;> simp
  | false =>
    intro h
    obtain ⟨hid, hline⟩ := h.resolve_left (by simp)
    cases fault with
    | none => simp [lineOf]
    | some f =>
      cases f with
      | identity => exact absurd rfl hid
      | newline => exact absurd rfl hline
      | row => simp [lineOf]

namespace Attributed

theorem compact (h : Attributed due l) : Attributed due l.compact where
  toWritten := .compact h.toTabled h.fair.known
  fair := h.fair
  room := h.room
  inWindow := h.inWindow
  inFile := by
    rw [rows_compact]
    exact h.inWindow

theorem pushed (h : Attributed due l) : Attributed due l.pushed where
  toWritten := h.toWritten.pushed
  fair := h.fair
  room := h.room
  inWindow := h.inWindow
  inFile := by
    rw [rows_pushed]
    exact h.inFile

theorem flush (h : Attributed due l) : Attributed due l.flush := by
  rw [flush_eq]
  split
  next =>
    split
    next => exact h.pushed.compact
    next => exact h.pushed
  next => exact h

theorem persistWindow (h : Attributed due l) : Attributed due l.persistWindow := by
  unfold Ledger.persistWindow sync
  dsimp only
  split
  next => exact h.flush.compact
  next => exact h.flush

theorem setTarget (h : Attributed due l) (target : Nat) : Attributed due (l.setTarget target) := by
  unfold Ledger.setTarget
  split
  next => exact h
  next =>
    obtain ⟨hfair, hsuffix⟩ := h.fair.setTarget target
    refine ⟨⟨⟨?_, ?_⟩, h.whole, ?_⟩, hfair, ?_, ?_, ?_⟩ <;> rw [Window.setTarget_idents]
    · exact h.plain
    · exact h.identities
    · exact h.known
    · exact h.room
    · exact h.inWindow.sublist hsuffix.sublist
    · exact h.inFile

/-- The file after a credit has its row, or lacks it. -/
theorem credit (h : Attributed due l) {a : Accepted} {fault : Option Fault} (ha : Plain a.identity)
    (hk : l.Keeps (.credit a fault)) :
    Attributed (fun s => due s + if a.identity = s then a.work.toNat else 0) (l.credit a fault).1 := by
  have hindexed := h.fair.toIndexed
  have hline : (l.window.identIndex.get a.identity).isSome ∨
      (fault ≠ some .identity ∧ fault ≠ some .newline) := by
    refine hk.imp (fun hmem => ?_) fun hnew => ⟨hnew.1, hnew.2.1⟩
    rw [Option.isSome_iff_ne_none]
    exact fun hnone => hindexed.index_eq_none.mp hnone hmem
  have hroom := hk.imp_right fun hnew => hnew.2.2
  have hroom' : (l.window.intern a.identity).1.idents.length ≤ sizeU32 := by
    rw [hindexed.intern_idents]
    split
    next => exact h.room
    next hout =>
      rw [List.length_append, List.length_singleton]
      exact hroom.resolve_left hout
  obtain ⟨hfair, hsuffix⟩ := h.fair.creditRow a
  have hwritten := h.toWritten.credit hindexed ha
  have hwindow := (hindexed.capped_concat hroom h.room h.fair.known h.inWindow).sublist hsuffix.sublist
  have hfile := hindexed.capped_concat hroom h.room h.known h.inFile
  rw [← h.rows_credit] at hfile
  have hdone : Attributed (fun s => due s + if a.identity = s then a.work.toNat else 0)
      (l.credit a none).1 := by
    refine ⟨hwritten, ?_, ?_, ?_, ?_⟩ <;> rw [credit_window]
    · exact hfair
    · rwa [Window.creditRow_idents]
    · rwa [Window.creditRow_idents]
    · rwa [Window.creditRow_idents]
  rw [credit_of_line hline]
  split
  next =>
    have hrows : l.rows.Sublist (l.credit a none).1.rows := by
      rw [h.rows_credit]
      exact List.sublist_append_left _ _
    rw [credit_none] at hdone hrows
    exact ⟨⟨⟨hdone.plain, hdone.identities⟩, h.whole, fun c hc => hdone.known c (hrows.subset hc)⟩,
      hdone.fair, hdone.room, hdone.inWindow, hdone.inFile.sublist hrows⟩
  next => exact hdone

/-- After a stop the rows that are left are of the names they were of. -/
theorem stop (h : Attributed due l) {chars bytes : Nat} (hk : l.Keeps (.stop chars bytes)) :
    Attributed due (openDir (l.left chars bytes)) := by
  obtain ⟨hlines, hwhole, hknown⟩ := hk
  have hpre : (l.left chars bytes).identities <+: l.window.idents.flatMap lineOf := by
    rw [← h.identities]
    exact List.take_prefix _ _
  obtain ⟨names, hpres, htext⟩ := exists_names_of_prefix h.plain hpre hlines
  have hplain : ∀ s ∈ names, Plain s := fun s hs => h.plain s (hpres.subset hs)
  have hnames : (l.left chars bytes).Names names := ⟨h.fair.distinct.sublist hpres.sublist, hplain, htext⟩
  rw [htext, lines_flatMap hplain] at hknown
  have hsplit : l.rows = readRows (l.left chars bytes).credits ++
      readRows ((l.disk.credits ++ l.creditsOut).drop bytes) := by
    rw [← hwhole.readRows_append, rows]
    exact congrArg readRows (List.take_append_drop bytes _).symm
  have hrows : (l.left chars bytes).knownRows names = readRows (l.left chars bytes).credits :=
    List.filter_eq_self.mpr fun c hc => decide_eq_true (hknown c hc)
  have hcap : Capped names due (readRows (l.left chars bytes).credits) := by
    refine (h.inFile.take hpres).sublist ?_
    rw [hsplit]
    exact List.sublist_append_left _ _
  obtain ⟨hfair, hids, hsuffix⟩ := openDir_fair hnames
  rw [hrows] at hsuffix
  rw [openDir_window] at hfair hids hsuffix
  have hopen : Attributed due (replayed (l.left chars bytes)) := by
    refine ⟨⟨⟨?_, ?_⟩, ?_, ?_⟩, hfair, ?_, ?_, ?_⟩
    · rw [hids]
      exact hplain
    · rw [hids]
      exact (List.append_nil _).trans htext
    · exact (List.append_nil _).symm ▸ hwhole
    · rw [rows, replayed, List.append_nil, ← replayed, hids]
      exact hknown
    · rw [hids]
      exact hpres.length_le.trans h.room
    · rw [hids]
      exact hcap.sublist hsuffix.sublist
    · rw [hids, rows, replayed, List.append_nil]
      exact hcap
  rw [openDir_eq]
  split
  next => exact hopen.compact
  next => exact hopen

theorem mono {due' : Identity → Nat} (h : Attributed due l) (hle : ∀ s, due s ≤ due' s) :
    Attributed due' l :=
  ⟨h.toWritten, h.fair, h.room, h.inWindow.mono hle, h.inFile.mono hle⟩

theorem step (h : Attributed due l) {s : LedgerStep} (hs : s.Named) (hk : l.Keeps s) :
    Attributed (fun t => due t + creditedTo [s] t) (l.step s) := by
  cases s with
  | credit a fault => exact h.credit hs hk
  | flush => exact h.flush
  | persistWindow => exact h.persistWindow
  | setTarget target => exact h.setTarget target
  | stop chars bytes => exact h.stop hk

theorem steps (h : Attributed due l) {run : List LedgerStep} (hrun : ∀ s ∈ run, s.Named)
    (hk : l.KeepsAll run) : Attributed (fun t => due t + creditedTo run t) (l.steps run) := by
  induction run generalizing l due with
  | nil => exact h
  | cons s run ih =>
    have hstep := ih (h.step (hrun s List.mem_cons_self) hk.1)
      (fun x hx => hrun x (List.mem_cons_of_mem _ hx)) hk.2
    refine hstep.mono fun t => ?_
    simp [creditedTo, Nat.add_assoc]

theorem start : Attributed (fun _ => 0) (openDir Files.empty) := by
  have hnames : Files.empty.Names [] := ⟨.nil, by simp, rfl⟩
  obtain ⟨hfair, -, -⟩ := openDir_fair hnames
  exact ⟨⟨⟨hnames.plain, rfl⟩, Nat.dvd_zero _, by decide⟩, hfair, by decide, .nil _ _, .nil _ _⟩

/-- What the window shows of a name is at most what it is due. -/
theorem workOf_le (h : Attributed due l) (s : Identity) : l.window.workOf s ≤ due s :=
  h.fair.workOf_le h.inWindow s

end Attributed
end
end Ledger
end WaviclesPrime.Tides
