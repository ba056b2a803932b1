import WaviclesPrime.Tides.Lines
import WaviclesPrime.Tides.TornRow

/-! Rows taken over from another pool's JSON ledger, and what a restart makes of them. -/
namespace WaviclesPrime.Tides
open Machine

/-- A row of the other ledger; a height may be missing. -/
structure Row where
  ts : UInt32
  identity : Identity
  work : UInt64
  height : Option UInt32

/-- The other ledger, of the form `{"credits":[{"ts":..,"identity":"..","work":..}, ...]}`. -/
structure Doc where
  credits : List Row

def Row.accepted (r : Row) : Accepted := ⟨r.identity, r.work, r.height.getD 0, r.ts, sourceUnknown⟩

/-- Import rows from another pool's ledger, in file order, and count them. -/
def Ledger.importJsonCredits (l : Ledger) (parse : Bytes → Option Doc) (file : Bytes) :
    Option (Ledger × Nat) := do
  let doc ← parse file
  let l := doc.credits.foldl (fun l r => (l.credit r.accepted none).1) l
  return (l.flush, doc.credits.length)

/-- A directory with no identities and no rows; its meta file may already have a target. -/
def Files.unused (state : Meta) : Files := ⟨[], [], state⟩

/-- The work of the rows whose identity's index is that of a place. -/
def placeWork (rows : List Credit) (k : Nat) : Nat := Queue.total rowWork (rowsOf rows (UInt32.ofNat k))

namespace Doc
variable (doc : Doc)

def work : Nat := (doc.credits.map fun r => r.work.toNat).sum

/-- The identities, each once, in the order of their first rows. -/
def names : List Identity := (doc.credits.map Row.identity).eraseDups

/-- The rows, each with the place of its identity. -/
def rows : List Credit := doc.credits.map fun r =>
  ⟨r.ts, UInt32.ofNat (doc.names.idxOf r.identity), r.work, r.height.getD 0, sourceUnknown⟩

/-- The work at a place of the rows that a target leaves in the window. -/
def workAt (target : Nat) : Nat → Nat := placeWork (keptRows target doc.rows)

/-- The identities as a file of them is read, with each written on a line. -/
def readBack : List Identity := listed (doc.names.flatMap lineOf)

/-- Every identity with work is read back, at a place of as much work; and no line is read past the
identities' own number at a place of work, which only an index of more than a word can be. -/
def InPlace (target : Nat) : Prop :=
  Places.Carried (doc.workAt target) doc.names doc.readBack ∧
    Places.NonePast (doc.workAt target) doc.names doc.readBack

end Doc

namespace Window
variable {w : Window}

/-- The index of an identity is that of its place. -/
theorem Indexed.intern_place (h : w.Indexed) (s : Identity) :
    s ∈ (w.intern s).1.idents ∧ (w.intern s).2 = UInt32.ofNat ((w.intern s).1.idents.idxOf s) := by
  have hin := h.intern s
  obtain ⟨k, hk, hi⟩ := (hin.index s _).mp (w.intern_get s)
  have hmem : s ∈ (w.intern s).1.idents := List.mem_of_getElem? hk
  have hplace : (w.intern s).1.idents[(w.intern s).1.idents.idxOf s]? = some s := by
    rw [List.getElem?_eq_getElem (List.idxOf_lt_length_of_mem hmem), List.getElem_idxOf]
  have hsame := (List.getElem?_inj (List.idxOf_lt_length_of_mem hmem) hin.distinct).mp (hplace.trans hk.symm)
  exact ⟨hmem, by rw [hsame, hi]⟩

theorem Indexed.grows_intern (h : w.Indexed) (s : Identity) : w.idents <+: (w.intern s).1.idents := by
  rw [h.intern_idents]
  split
  next => exact List.prefix_rfl
  next => exact List.prefix_append _ _

theorem Indexed.creditRow (h : w.Indexed) (a : Accepted) :
    (w.creditRow a.identity a.work a.height a.ts a.source).1.Indexed := by
  have hin := h.intern a.identity
  refine ⟨?_, fun s i => ?_⟩
  · rw [creditRow_idents]
    exact hin.distinct
  · rw [creditRow_idents, Window.creditRow, trim_identIndex]
    exact hin.index s i

theorem Indexed.grows_creditRows (h : w.Indexed) (calls : List Accepted) :
    w.idents <+: (w.creditRows calls).1.idents := by
  induction calls generalizing w with
  | nil => exact List.prefix_rfl
  | cons a calls ih =>
    have hstep := ih (h.creditRow a)
    rw [creditRow_idents] at hstep
    exact (h.grows_intern a.identity).trans hstep

/-- Rows have the places that their identities end up at. -/
theorem Indexed.creditRows_rows (h : w.Indexed) (calls : List Accepted) : (w.creditRows calls).2 =
    calls.map fun a => ⟨a.ts, UInt32.ofNat ((w.creditRows calls).1.idents.idxOf a.identity), a.work,
      a.height, a.source⟩ := by
  induction calls generalizing w with
  | nil => rfl
  | cons a calls ih =>
    obtain ⟨hmem, hplace⟩ := h.intern_place a.identity
    have hgrown := (h.creditRow a).grows_creditRows calls
    rw [creditRow_idents] at hgrown
    rw [hgrown.idxOf_eq_of_mem hmem] at hplace
    rw [List.map_cons, creditRows]
    dsimp only
    rw [ih (h.creditRow a), creditRow_row, hplace]

/-- The table after some rows has their identities where they first come. -/
theorem Indexed.creditRows_idents (h : w.Indexed) {names : List Identity} (hw : w.idents = names.eraseDups)
    (calls : List Accepted) :
    (w.creditRows calls).1.idents = (names ++ calls.map Accepted.identity).eraseDups := by
  induction calls generalizing w names with
  | nil => rwa [List.map_nil, List.append_nil]
  | cons a calls ih =>
    have hstep : (w.creditRow a.identity a.work a.height a.ts a.source).1.idents =
        (names ++ [a.identity]).eraseDups := by
      rw [creditRow_idents, h.intern_idents, hw, Places.eraseDups_concat]
      simp only [List.mem_eraseDups]
    have hrest := ih (h.creditRow a) hstep
    rwa [List.append_assoc] at hrest

/-- An identity's work is what its rows have. -/
theorem Sound.workOf_eq (h : w.Sound) (s : Identity) :
    w.workOf s = Places.weightOf (placeWork w.credits) w.idents s := by
  unfold workOf
  cases hget : w.identIndex.get s with
  | none =>
    rw [Places.weightOf, if_neg (h.index_eq_none.mp hget)]
    rfl
  | some i =>
    obtain ⟨k, hk, rfl⟩ := (h.index s i).mp hget
    have hwork := (h.tallied.getD_eq (UInt32.ofNat k)).1
    rw [Places.weightOf_of_place h.distinct hk, placeWork, ← hwork, Option.bind_some]
    cases w.totals.get (UInt32.ofNat k) <;> rfl

end Window

theorem keptRows_of_sublist {target : Nat} {rows some : List Credit} (h : some.Sublist rows)
    (hfix : keptRows target rows = rows) : keptRows target some = some := by
  unfold keptRows at hfix ⊢
  split
  next => rfl
  next hpos =>
    rw [if_neg hpos] at hfix
    exact Queue.trim_of_sublist h hfix

/-- Rows of indices past a table are not missed at its places. -/
theorem placeWork_filter (rows : List Credit) {count k : Nat} (hk : k < count) :
    placeWork (rows.filter fun c => c.ident.toNat < count) k = placeWork rows k := by
  rw [placeWork, placeWork, rowsOf, rowsOf, List.filter_filter]
  refine congrArg _ (List.filter_congr fun c _ => ?_)
  by_cases hident : c.ident = UInt32.ofNat k
  · have hle : (UInt32.ofNat k).toNat ≤ k := Nat.mod_le k _
    have hlt : c.ident.toNat < count := by
      rw [hident]
      omega
    rw [decide_eq_true hlt, Bool.and_true]
  · simp [hident]

namespace Ledger
variable {l : Ledger}

theorem Stored.creditAll (h : Stored l) {calls : List Accepted}
    (hfit : Queue.total rowWork l.window.credits + (calls.map fun a => a.work.toNat).sum < sizeU64) :
    Stored (l.creditAll calls) := by
  induction calls generalizing l with
  | nil => exact h
  | cons a calls ih =>
    rw [List.map_cons, List.sum_cons] at hfit
    have hle := credit_total_le h.sound a (by omega)
    rw [creditAll_cons]
    exact ih (h.credit a (by omega)) (by omega)

/-- What a ledger with everything in its files is opened as. -/
theorem Stored.reopened (h : Stored l) (hd : l.dirty = false) (hrows : l.rows = l.window.credits)
    (hfit : Queue.total rowWork l.window.credits < sizeU64) (s : Identity) :
    (openDir l.disk).window.workOf s =
      Places.weightOf (placeWork l.window.credits) (listed (l.window.idents.flatMap lineOf)) s := by
  obtain ⟨hids, hcredits, hstate⟩ := h.clean hd
  have htext : l.disk.identities = l.window.idents.flatMap lineOf := by
    rw [← h.identities, hids, List.append_nil]
  have hread : readRows l.disk.credits = l.window.credits := by
    rw [← hrows, rows, hcredits, List.append_nil]
  have hknown : l.disk.knownRows (listed l.disk.identities) =
      l.window.credits.filter fun c => c.ident.toNat < (listed l.disk.identities).length := by
    rw [Files.knownRows, hread]
  have hopen := opened_listed l.disk (by
    rw [hknown]
    exact (Queue.total_le_of_sublist List.filter_sublist).trans_lt hfit)
  have hkept : (openDir l.disk).window.credits =
      l.window.credits.filter fun c => c.ident.toNat < (listed l.disk.identities).length := by
    rw [hopen.credits, hknown, hstate]
    exact keptRows_of_sublist List.filter_sublist h.trimmed
  rw [hopen.toSound.workOf_eq, hkept, hopen.idents, htext, Places.weightOf, Places.weightOf]
  split
  next hs => exact placeWork_filter _ (List.idxOf_lt_length_of_mem hs)
  next => rfl

/-- A directory that is not used yet. -/
theorem openDir_unused (state : Meta) : Stored (openDir (.unused state)) ∧
    (openDir (.unused state)).window.idents = [] ∧ (openDir (.unused state)).window.credits = [] ∧
    (openDir (.unused state)).window.targetWork = state.targetWork := by
  have hnames : (Files.unused state).Names [] := ⟨.nil, by simp, rfl⟩
  have hread : readRows (Files.unused state).credits = [] :=
    readRows_of_short (show ([] : Bytes).length < Credit.size by decide)
  have hrows : (Files.unused state).knownRows [] = [] := by
    rw [Files.knownRows, hread]
    rfl
  have hfit : Queue.total rowWork ((Files.unused state).knownRows []) < sizeU64 := by
    rw [hrows]
    exact Nat.two_pow_pos 64
  have hdur := (openDir_durable hnames hfit (.inl ⟨Nat.dvd_zero _, hrows.trans hread.symm⟩)).1
  have hopen := opened hnames hfit
  refine ⟨hdur.stored, hopen.idents, ?_, hopen.targetWork⟩
  rw [hopen.credits, hrows]
  exact List.suffix_nil.mp (keptRows_suffix _ _)

variable {doc : Doc} {state : Meta}

/-- What is in memory after an import. -/
structure Imported (doc : Doc) (target : Nat) (l : Ledger) : Prop extends Stored l where
  idents : l.window.idents = doc.names
  credits : l.window.credits = keptRows target doc.rows
  fits : Queue.total rowWork l.window.credits ≤ doc.work

theorem foldl_credit (rows : List Row) :
    rows.foldl (fun l r => (l.credit r.accepted none).1) l = l.creditAll (rows.map Row.accepted) := by
  induction rows generalizing l with
  | nil => rfl
  | cons r rows ih => rw [List.foldl_cons, List.map_cons, creditAll_cons, ih]

theorem Doc.work_eq (doc : Doc) :
    ((doc.credits.map Row.accepted).map fun a => a.work.toNat).sum = doc.work := by
  rw [List.map_map]
  rfl

/-- An import leaves what the other ledger has, cut to the target. -/
theorem Stored.imported (h : Stored l) (hids : l.window.idents = []) (hcredits : l.window.credits = [])
    (hfit : doc.work < sizeU64) : Imported doc l.window.targetWork
      (doc.credits.foldl (fun l r => (l.credit r.accepted none).1) l).flush := by
  have hsum : Queue.total rowWork l.window.credits +
      ((doc.credits.map Row.accepted).map fun a => a.work.toNat).sum < sizeU64 := by
    rw [hcredits, Queue.total_nil, Doc.work_eq]
    omega
  have hnames : (l.window.creditRows (doc.credits.map Row.accepted)).1.idents = doc.names := by
    rw [@Window.Indexed.creditRows_idents _ h.sound.toIndexed [] hids, List.nil_append, List.map_map]
    rfl
  have hrows : (l.window.creditRows (doc.credits.map Row.accepted)).2 = doc.rows := by
    rw [h.sound.toIndexed.creditRows_rows, hnames, List.map_map]
    rfl
  have hnone : l.window.credits = keptRows l.window.targetWork [] := by
    rw [hcredits]
    exact (List.suffix_nil.mp (keptRows_suffix _ _)).symm
  have hkept : (l.window.creditRows (doc.credits.map Row.accepted)).1.credits =
      keptRows l.window.targetWork doc.rows := by
    rw [h.sound.creditRows hsum hnone, hrows, List.nil_append]
  rw [foldl_credit]
  refine ⟨(h.creditAll hsum).flush.1, ?_, ?_, ?_⟩
  · rw [flush_window, creditAll_window, hnames]
  · rw [flush_window, creditAll_window, hkept]
  · rw [flush_window, creditAll_window, hkept]
    refine (Queue.total_le_of_suffix (keptRows_suffix _ _)).trans_eq ?_
    rw [Doc.rows, Queue.total, List.map_map, Doc.work]
    rfl

theorem imported (hfit : doc.work < sizeU64) : Imported doc state.targetWork
    (doc.credits.foldl (fun l r => (l.credit r.accepted none).1) (openDir (.unused state))).flush := by
  obtain ⟨hstored, hids, hcredits, htarget⟩ := openDir_unused state
  have h := hstored.imported hids hcredits hfit
  rwa [htarget] at h

/-- What a restart after an import leaves of an identity's work, and what it was. -/
theorem Imported.workOf (h : Imported doc state.targetWork l) (hfit : doc.work < sizeU64) (s : Identity) :
    (openDir l.persistWindow.disk).window.workOf s =
      Places.weightOf (doc.workAt state.targetWork) doc.readBack s ∧
    l.window.workOf s = Places.weightOf (doc.workAt state.targetWork) doc.names s := by
  obtain ⟨hstored, hdirty, hrows⟩ := h.toStored.persistWindow
  have hagain := hstored.reopened hdirty (by rw [hrows, persistWindow_window])
    (by rw [persistWindow_window]; exact h.fits.trans_lt hfit) s
  constructor
  · rw [hagain, persistWindow_window, h.credits, h.idents]
    rfl
  · rw [h.sound.workOf_eq, h.credits, h.idents]
    rfl

end Ledger

namespace Doc
variable {doc : Doc} {target : Nat}

theorem nodup_names (doc : Doc) : doc.names.Nodup := Places.nodup_eraseDups _

theorem mem_names {r : Row} (h : r ∈ doc.credits) : r.identity ∈ doc.names :=
  List.mem_eraseDups.mpr (List.mem_map_of_mem h)

/-- With nothing trimmed, an identity's place has the work of its rows. -/
theorem work_le_workAt {r : Row} (h : r ∈ doc.credits) : r.work.toNat ≤
    doc.workAt 0 (doc.names.idxOf r.identity) := by
  have hmem : (⟨r.ts, UInt32.ofNat (doc.names.idxOf r.identity), r.work, r.height.getD 0, sourceUnknown⟩ :
      Credit) ∈ rowsOf doc.rows (UInt32.ofNat (doc.names.idxOf r.identity)) :=
    List.mem_filter.mpr ⟨List.mem_map_of_mem h, by simp⟩
  exact List.le_sum_of_mem (List.mem_map_of_mem hmem)

/-- Where every row has work and nothing is trimmed, all identities have to be one line each. -/
theorem inPlace_iff_oneLine (hpos : ∀ r ∈ doc.credits, 0 < r.work) :
    doc.InPlace 0 ↔ ∀ r ∈ doc.credits, OneLine r.identity := by
  constructor
  · rintro ⟨hcarried, -⟩ r hr
    refine oneLine_of_listed doc.nodup_names (fun s hs => ?_) r.identity (mem_names hr)
    obtain ⟨x, hx, rfl⟩ := List.mem_map.mp (List.mem_eraseDups.mp hs)
    have hlt := List.idxOf_lt_length_of_mem hs
    have hwork : 0 < doc.workAt 0 (doc.names.idxOf x.identity) :=
      Nat.lt_of_lt_of_le (UInt64.lt_iff_toNat_lt.mp (hpos x hx)) (work_le_workAt hx)
    obtain ⟨j, hj, -⟩ := hcarried _ x.identity
      (by rw [List.getElem?_eq_getElem hlt, List.getElem_idxOf]) hwork
    exact List.mem_of_getElem? hj
  · intro h
    have hback : doc.readBack = doc.names := by
      refine listed_of_oneLine doc.nodup_names fun s hs => ?_
      obtain ⟨x, hx, rfl⟩ := List.mem_map.mp (List.mem_eraseDups.mp hs)
      exact h x hx
    rw [InPlace, hback]
    exact ⟨fun k s hk _ => ⟨k, hk, rfl⟩, fun j hge hlt => absurd hlt (Nat.not_lt_of_le hge)⟩

end Doc

namespace Ledger

/-- A restart leaves each identity the work that it has in the window. -/
def Survives (l : Ledger) : Prop :=
  ∀ s, (openDir l.persistWindow.disk).window.workOf s = l.window.workOf s

theorem importJsonCredits_eq {l : Ledger} {parse : Bytes → Option Doc} {file : Bytes} {doc : Doc}
    (h : parse file = some doc) : l.importJsonCredits parse file =
      some ((doc.credits.foldl (fun l r => (l.credit r.accepted none).1) l).flush, doc.credits.length) := by
  rw [importJsonCredits, h]
  rfl

theorem Imported.survives_iff {doc : Doc} {state : Meta} {l : Ledger}
    (h : Imported doc state.targetWork l) (hfit : doc.work < sizeU64) :
    l.Survives ↔ doc.InPlace state.targetWork := by
  refine Iff.trans (forall_congr' fun s => ?_)
    (Places.weightOf_eq_iff doc.nodup_names (Places.nodup_eraseDups _))
  obtain ⟨hafter, hbefore⟩ := h.workOf hfit s
  rw [hafter, hbefore]

end Ledger

/-- A ledger imported into an unused directory survives a restart just when its identities with work are
read back in their places. Where every row has work and nothing is trimmed, they are just when each
identity is one line. -/
theorem import_survives_iff {parse : Bytes → Option Doc} {file : Bytes} {doc : Doc}
    (hparse : parse file = some doc) (hfit : doc.work < sizeU64) (state : Meta) :
    ∃ l, (Ledger.openDir (.unused state)).importJsonCredits parse file = some (l, doc.credits.length) ∧
      (l.Survives ↔ doc.InPlace state.targetWork) ∧
      (state.targetWork = 0 → (∀ r ∈ doc.credits, 0 < r.work) →
        (l.Survives ↔ ∀ r ∈ doc.credits, OneLine r.identity)) := by
  have hsurvives := (@Ledger.imported doc state hfit).survives_iff hfit
  refine ⟨_, Ledger.importJsonCredits_eq hparse, hsurvives, fun htarget hpos => ?_⟩
  rw [hsurvives, htarget]
  exact Doc.inPlace_iff_oneLine hpos

/-- A reader of one file. -/
def readsAs (file : Bytes) (doc : Doc) (bytes : Bytes) : Option Doc :=
  if bytes = file then some doc else none

def oldFile : Bytes :=
  ("\x7b\"credits\":[\x7b\"ts\":1,\"identity\":\"bc1qa\",\"work\":56\x7d," ++
    "\x7b\"ts\":2,\"identity\":\"1Fw8\",\"work\":8192\x7d]\x7d").toByteArray.toList

def oldDoc : Doc := ⟨[⟨1, "bc1qa", 56, none⟩, ⟨2, "1Fw8", 8192, none⟩]⟩

theorem import_survives_sample : ∃ l,
    (Ledger.openDir (.unused ⟨0, 0, 0⟩)).importJsonCredits (readsAs oldFile oldDoc) oldFile = some (l, 2) ∧
      l.Survives := by
  obtain ⟨l, hrun, -, hlines⟩ :=
    @import_survives_iff (readsAs oldFile oldDoc) oldFile oldDoc (if_pos rfl) (by decide) ⟨0, 0, 0⟩
  refine ⟨l, hrun, (hlines rfl (by decide)).mpr fun r hr => ?_⟩
  rcases List.mem_cons.mp hr with rfl | hr
  · exact ⟨by decide, by decide, by decide⟩
  · obtain rfl := List.mem_singleton.mp hr
    exact ⟨by decide, by decide, by decide⟩

def unnamedFile : Bytes :=
  ("\x7b\"credits\":[\x7b\"ts\":1,\"identity\":\"\",\"work\":5\x7d," ++
    "\x7b\"ts\":2,\"identity\":\"bc1qa\",\"work\":7\x7d]\x7d").toByteArray.toList

def unnamedDoc : Doc := ⟨[⟨1, "", 5, none⟩, ⟨2, "bc1qa", 7, none⟩]⟩

/-- Behind an identity that is no line, the next one gets its work. -/
theorem unnamed_moves_work : ¬ ∀ (parse : Bytes → Option Doc) (file : Bytes) (doc : Doc),
    parse file = some doc → doc.work < sizeU64 → ∀ state : Meta, ∃ l,
      (Ledger.openDir (.unused state)).importJsonCredits parse file = some (l, doc.credits.length) ∧
        l.Survives := by
  intro hall
  have hread : readsAs unnamedFile unnamedDoc unnamedFile = some unnamedDoc := if_pos rfl
  have himported := @Ledger.imported unnamedDoc ⟨0, 0, 0⟩ (by decide)
  obtain ⟨l, hrun, hsame⟩ := hall _ _ _ hread (by decide) ⟨0, 0, 0⟩
  rw [Ledger.importJsonCredits_eq hread, Option.some.injEq, Prod.mk.injEq] at hrun
  obtain ⟨rfl, -⟩ := hrun
  obtain ⟨hafter, hbefore⟩ := himported.workOf (by decide) "bc1qa"
  have hmoved := (hafter.symm.trans (hsame "bc1qa")).trans hbefore
  exact absurd hmoved (by decide +kernel)

end WaviclesPrime.Tides
