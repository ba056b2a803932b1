import Mathlib.Data.List.Dedup
import Mathlib.Data.List.Perm.Subperm
import Mathlib.Data.Prod.Lex
import WaviclesPrime.Tides.WindowRun

/-! The miners a window lists, and what holds of it after any calls. -/
namespace WaviclesPrime.Tides
open Machine

def isStratum (c : Credit) : Bool := c.source = sourceStratum

/-- A miner in the order of work falling and name rising. -/
def rankOf (m : MinerStat) : Natᵒᵈ ×ₗ Identity := toLex (OrderDual.toDual m.work, m.identity)

theorem rankedLe_iff {a b : MinerStat} : rankedLe a b ↔ rankOf a ≤ rankOf b := by
  rw [rankOf, rankOf, Prod.Lex.toLex_le_toLex]
  rfl

instance : Std.Total rankedLe :=
  ⟨fun a b => (le_total (rankOf a) (rankOf b)).imp rankedLe_iff.mpr rankedLe_iff.mpr⟩

instance : IsTrans MinerStat rankedLe :=
  ⟨fun _ _ _ hab hbc => rankedLe_iff.mpr ((rankedLe_iff.mp hab).trans (rankedLe_iff.mp hbc))⟩

namespace Window

/-- The rows of an identity, by its name. -/
def rowsNamed (w : Window) (s : Identity) : List Credit :=
  w.credits.filter fun c => w.identity c.ident = some s

/-- What the miners of a window are to be: each identity with a row once, ranked, with its exact work,
stratum work and rows, and all of the window's work between them. -/
structure Lists (w : Window) (ms : List MinerStat) : Prop where
  ranked : ms.Pairwise rankedBefore
  distinct : (ms.map MinerStat.identity).Nodup
  mem : ∀ s, s ∈ ms.map MinerStat.identity ↔ w.rowsNamed s ≠ []
  work : ∀ m ∈ ms, m.work = Queue.total rowWork (w.rowsNamed m.identity)
  stratum : ∀ m ∈ ms, m.stratumWork = Queue.total rowWork ((w.rowsNamed m.identity).filter isStratum)
  credits : ∀ m ∈ ms, m.credits = (w.rowsNamed m.identity).length
  total : (ms.map MinerStat.work).sum = w.totalWork

/-- The stratum work gathered so far. -/
private def Gathered (rows : List Credit) (m : KeyMap UInt32 Nat) : Prop :=
  ∀ i, (m.get i).getD 0 = Queue.total rowWork ((rowsOf rows i).filter isStratum)

theorem total_filter_le (p : Credit → Bool) (rows : List Credit) :
    Queue.total rowWork (rows.filter p) ≤ Queue.total rowWork rows :=
  (List.filter_sublist.map _).sum_le_sum (by simp)

/-- The loop over the stratum rows adds up each identity's, and never overflows. -/
theorem stratum_eq {w : Window} (hfit : Queue.total rowWork w.credits < sizeU64) :
    ∃ m, w.stratum = some m ∧
      ∀ i, (m.get i).getD 0 = Queue.total rowWork ((rowsOf w.credits i).filter isStratum) := by
  refine Loop.run_total (P := Gathered) ?_ fun i => rfl
  intro before c m hpre hm
  have hle : Queue.total rowWork (before ++ [c]) ≤ Queue.total rowWork w.credits :=
    (hpre.sublist.map _).sum_le_sum (by simp)
  by_cases hsource : c.source = sourceStratum
  · have hs : isStratum c = true := decide_eq_true hsource
    have hsum := hm c.ident
    have hpart := (total_filter_le isStratum (rowsOf before c.ident)).trans (total_rowsOf_le before c.ident)
    rw [Queue.total_append, Queue.total_cons, Queue.total_nil] at hle
    have hadd : checkedAdd sizeU64 ((m.get c.ident).getD 0) c.work.toNat =
        some ((m.get c.ident).getD 0 + c.work.toNat) := by
      rw [show rowWork c = c.work.toNat from rfl] at hle
      exact checkedAdd_eq_some.mpr ⟨by omega, rfl⟩
    refine ⟨_, by rw [if_pos hsource, hadd]; rfl, fun i => ?_⟩
    rw [KeyMap.get_insert, rowsOf_append, rowsOf_cons]
    by_cases hi : i = c.ident
    · subst hi
      rw [if_pos rfl, if_pos rfl, Option.getD_some, hsum]
      simp [hs, rowWork]
    · rw [if_neg hi, if_neg (Ne.symm hi), hm i]
      simp
  · have hs : isStratum c = false := decide_eq_false hsource
    refine ⟨m, by rw [if_neg hsource]; rfl, fun i => ?_⟩
    rw [hm i, rowsOf_append, rowsOf_cons]
    split <;> simp [hs]

namespace Sound
variable {w : Window}

/-- A name stands for one index. -/
theorem identity_inj (h : w.Sound) {i j : UInt32} {s : Identity} (hi : w.identity i = some s)
    (hj : w.identity j = some s) : i = j := by
  unfold identity at hi hj
  have hlt := (List.getElem?_eq_some_iff.mp hi).1
  have heq := (List.getElem?_inj hlt h.distinct).mp (hi.trans hj.symm)
  exact UInt32.toNat_inj.mp heq

theorem identity_of_mem (h : w.Sound) {c : Credit} (hc : c ∈ w.credits) :
    ∃ s, w.identity c.ident = some s := ⟨_, List.getElem?_eq_getElem (h.known c hc)⟩

theorem rowsNamed_eq (h : w.Sound) {i : UInt32} {s : Identity} (hi : w.identity i = some s) :
    w.rowsNamed s = rowsOf w.credits i := by
  refine List.filter_congr fun c _ => ?_
  rw [decide_eq_decide]
  exact ⟨fun hc => h.identity_inj hc hi, fun hc => hc ▸ hi⟩

/-- An entry of the totals is an identity with rows. -/
theorem entry_eq (h : w.Sound) {i : UInt32} {t : Total} (ht : (i, t) ∈ w.totals.entries) :
    rowsOf w.credits i ≠ [] ∧ t.work = Queue.total rowWork (rowsOf w.credits i) ∧
      t.credits = (rowsOf w.credits i).length ∧ ∃ s, w.identity i = some s := by
  have hi := h.tallied i
  rw [KeyMap.get_eq_some.mpr ht, tally, Option.map_some] at hi
  split at hi
  next => simp at hi
  next hne =>
    obtain ⟨hwork, hcount⟩ := Prod.mk.inj (Option.some.inj hi)
    obtain ⟨c, hc⟩ := List.exists_mem_of_ne_nil _ hne
    obtain ⟨hmem, heq⟩ := List.mem_filter.mp hc
    exact ⟨hne, hwork, hcount, of_decide_eq_true heq ▸ h.identity_of_mem hmem⟩

theorem mem_keys_iff (h : w.Sound) (i : UInt32) :
    i ∈ w.totals.entries.map Prod.fst ↔ rowsOf w.credits i ≠ [] := by
  have hi := h.tallied i
  unfold tally at hi
  constructor
  · intro hmem
    obtain ⟨⟨_, t⟩, ht, rfl⟩ := List.mem_map.mp hmem
    exact (h.entry_eq ht).1
  · intro hne
    rw [if_neg hne] at hi
    obtain ⟨t, ht, -⟩ := Option.map_eq_some_iff.mp hi
    exact List.mem_map.mpr ⟨(i, t), KeyMap.get_eq_some.mp ht, rfl⟩

/-- The entry of the list that an entry of the totals becomes. -/
private def statOf (w : Window) (stratum : KeyMap UInt32 Nat) (e : UInt32 × Total) : MinerStat :=
  ⟨(w.identity e.1).getD "", e.2.work, min ((stratum.get e.1).getD 0) e.2.work, e.2.credits,
    e.2.lastTs.toNat⟩

section
variable (h : w.Sound) (stratum : KeyMap UInt32 Nat)
include h

private theorem stat_named {m : MinerStat} (hm : m ∈ w.totals.entries.map (statOf w stratum)) :
    ∃ i t, (i, t) ∈ w.totals.entries ∧ w.identity i = some m.identity ∧ m = statOf w stratum (i, t) := by
  obtain ⟨⟨i, t⟩, he, rfl⟩ := List.mem_map.mp hm
  obtain ⟨-, -, -, s, hs⟩ := h.entry_eq he
  exact ⟨i, t, he, by simp [statOf, hs], rfl⟩

private theorem stats_distinct :
    ((w.totals.entries.map (statOf w stratum)).map MinerStat.identity).Nodup := by
  rw [List.map_map]
  refine List.Nodup.map_on (fun e he f hf heq => ?_) w.totals.distinct.of_map
  obtain ⟨-, -, -, s, hs⟩ := h.entry_eq (i := e.1) (t := e.2) he
  obtain ⟨-, -, -, u, hu⟩ := h.entry_eq (i := f.1) (t := f.2) hf
  have hsu : s = u := by simpa [statOf, hs, hu] using heq
  exact List.inj_on_of_nodup_map w.totals.distinct he hf (h.identity_inj hs (hsu ▸ hu))

private theorem stats_mem (s : Identity) :
    s ∈ (w.totals.entries.map (statOf w stratum)).map MinerStat.identity ↔ w.rowsNamed s ≠ [] := by
  constructor
  · intro hs
    obtain ⟨m, hm, rfl⟩ := List.mem_map.mp hs
    obtain ⟨i, t, he, hi, -⟩ := h.stat_named stratum hm
    rw [h.rowsNamed_eq hi]
    exact (h.entry_eq he).1
  · intro hne
    obtain ⟨c, hc⟩ := List.exists_mem_of_ne_nil _ hne
    have hi := of_decide_eq_true (List.mem_filter.mp hc).2
    rw [h.rowsNamed_eq hi] at hne
    obtain ⟨e, he, heq⟩ := List.mem_map.mp ((h.mem_keys_iff c.ident).mpr hne)
    refine List.mem_map.mpr ⟨statOf w stratum e, List.mem_map_of_mem he, ?_⟩
    simp [statOf, heq, hi]

private theorem stats_total :
    ((w.totals.entries.map (statOf w stratum)).map MinerStat.work).sum = w.totalWork := by
  have hsum : (w.totals.entries.map (statOf w stratum)).map MinerStat.work =
      (w.totals.entries.map Prod.fst).map fun i => Queue.total rowWork (rowsOf w.credits i) := by
    rw [List.map_map, List.map_map]
    exact List.map_congr_left fun e he => (h.entry_eq (i := e.1) (t := e.2) he).2.1
  rw [hsum, h.total]
  refine Queue.sum_total_filter Credit.ident w.totals.distinct fun c hc => ?_
  rw [h.mem_keys_iff]
  exact List.ne_nil_of_mem (List.mem_filter.mpr ⟨hc, decide_eq_true rfl⟩)

end

/-- The miners of a window whose parts agree: the list never fails, and is what it is to be. -/
theorem miners (h : w.Sound) (hfit : Queue.total rowWork w.credits < sizeU64) :
    ∃ ms, w.miners = some ms ∧ w.Lists ms := by
  obtain ⟨stratum, hstratum, hgathered⟩ := stratum_eq hfit
  let stats := w.totals.entries.map (statOf w stratum)
  have hmap : w.totals.entries.mapM (w.stat stratum) = some stats := by
    refine Loop.mapM_eq fun e he => ?_
    obtain ⟨-, -, -, s, hs⟩ := h.entry_eq (i := e.1) (t := e.2) he
    rw [Window.stat, statOf, hs]
    exact congrArg (Option.map _) hs
  have hperm : (stats.insertionSort rankedLe).Perm stats := List.perm_insertionSort ..
  have hdistinct : ((stats.insertionSort rankedLe).map MinerStat.identity).Nodup :=
    (hperm.map _).nodup_iff.mpr (h.stats_distinct stratum)
  refine ⟨stats.insertionSort rankedLe, ?_, ?_, hdistinct, fun s => ?_, fun m hm => ?_, fun m hm => ?_,
    fun m hm => ?_, ?_⟩
  · rw [Window.miners, hstratum, Option.bind_eq_bind, Option.bind_some, hmap]
    rfl
  · refine ((List.pairwise_insertionSort ..).and (List.pairwise_map.mp hdistinct)).imp ?_
    exact fun ⟨hle, hne⟩ => hle.imp_right fun hw => ⟨hw.1, lt_of_le_of_ne hw.2 hne⟩
  · rw [(hperm.map MinerStat.identity).mem_iff]
    exact h.stats_mem stratum s
  · obtain ⟨i, t, he, hi, rfl⟩ := h.stat_named stratum (hperm.subset hm)
    rw [h.rowsNamed_eq hi]
    exact (h.entry_eq he).2.1
  · obtain ⟨i, t, he, hi, rfl⟩ := h.stat_named stratum (hperm.subset hm)
    rw [h.rowsNamed_eq hi, ← hgathered]
    refine Nat.min_eq_left ?_
    rw [hgathered, (h.entry_eq he).2.1]
    exact total_filter_le _ _
  · obtain ⟨i, t, he, hi, rfl⟩ := h.stat_named stratum (hperm.subset hm)
    rw [h.rowsNamed_eq hi]
    exact (h.entry_eq he).2.2.1
  · rw [(hperm.map MinerStat.work).sum_eq]
    exact h.stats_total stratum

end Sound
end Window

/-- What an accepted share is credited with. -/
structure Accepted where
  identity : Identity
  work : UInt64
  height : UInt32
  ts : UInt32
  source : UInt8

inductive WindowOp where
  | intern (identity : Identity)
  | credit (a : Accepted)
  | creditRow (a : Accepted)
  | setTarget (target : Nat)

namespace WindowOp

def work : WindowOp → Nat
  | .credit a | .creditRow a => a.work.toNat
  | .intern _ | .setTarget _ => 0

def name : WindowOp → Option Identity
  | .intern s => some s
  | .credit a | .creditRow a => some a.identity
  | .setTarget _ => none

end WindowOp

/-- All the work that some calls credit. -/
def credited (ops : List WindowOp) : Nat := (ops.map WindowOp.work).sum

/-- The names that some calls mention, each once. -/
def namesOf (ops : List WindowOp) : List Identity := (ops.filterMap WindowOp.name).dedup

theorem mem_namesOf {ops : List WindowOp} {s : Identity} :
    s ∈ namesOf ops ↔ ∃ op ∈ ops, op.name = some s := by
  rw [namesOf, List.mem_dedup, List.mem_filterMap]

namespace Window

def apply (w : Window) : WindowOp → Window
  | .intern s => (w.intern s).1
  | .credit a => (w.credit a.identity a.work a.height a.ts a.source).1
  | .creditRow a => (w.creditRow a.identity a.work a.height a.ts a.source).1
  | .setTarget target => w.setTarget target

def run (w : Window) (ops : List WindowOp) : Window := ops.foldl apply w

/-- Rows added one after another, and the window they leave. -/
def creditRows (w : Window) : List Accepted → Window × List Credit
  | [] => (w, [])
  | a :: rest =>
    let (w, c) := w.creditRow a.identity a.work a.height a.ts a.source
    let (w, rows) := w.creditRows rest
    (w, c :: rows)

/-- The table and its index are inverse to each other. -/
def Inverse (w : Window) : Prop := ∀ s i, w.indexOf s = some i ↔ w.identity i = some s

namespace Sound
variable {w : Window}

theorem inverse (h : w.Sound) (hlen : w.idents.length ≤ sizeU32) : w.Inverse := by
  intro s i
  rw [indexOf, identity, h.index s i]
  constructor
  · rintro ⟨k, hk, rfl⟩
    have hlt : k < sizeU32 := Nat.lt_of_lt_of_le (List.getElem?_eq_some_iff.mp hk).1 hlen
    rwa [UInt32.toNat_ofNat_of_lt' hlt]
  · exact fun hi => ⟨i.toNat, hi, UInt32.ofNat_toNat⟩

theorem apply (h : w.Sound) (op : WindowOp) (hfit : Queue.total rowWork w.credits + op.work < sizeU64) :
    (w.apply op).Sound ∧
      Queue.total rowWork (w.apply op).credits ≤ Queue.total rowWork w.credits + op.work := by
  cases op with
  | intern s => exact ⟨h.intern s, by simp [Window.apply, WindowOp.work]⟩
  | credit a => exact h.credit a.identity a.work a.height a.ts a.source hfit
  | creditRow a =>
    have hrow := h.creditRow a.identity a.work a.height a.ts a.source hfit
    refine ⟨hrow.1, ?_⟩
    rw [Window.apply, hrow.2]
    refine (Queue.total_le_of_suffix (keptRows_suffix _ _)).trans ?_
    simp [rowWork, WindowOp.work]
  | setTarget target =>
    have htarget := h.setTarget target
    refine ⟨htarget.1, ?_⟩
    rw [Window.apply, htarget.2]
    exact (Queue.total_le_of_suffix (keptRows_suffix _ _)).trans (Nat.le_add_right _ _)

theorem run (h : w.Sound) (ops : List WindowOp)
    (hfit : Queue.total rowWork w.credits + credited ops < sizeU64) :
    (w.run ops).Sound ∧
      Queue.total rowWork (w.run ops).credits ≤ Queue.total rowWork w.credits + credited ops := by
  induction ops generalizing w with
  | nil => exact ⟨h, Nat.le_refl _⟩
  | cons op ops ih =>
    have hsum : credited (op :: ops) = op.work + credited ops := rfl
    obtain ⟨hstep, hle⟩ := h.apply op (by omega)
    obtain ⟨hrun, hle'⟩ := ih hstep (by omega)
    exact ⟨hrun, by rw [hsum]; exact hle'.trans (by omega)⟩

/-- Only names that are mentioned come into the table. -/
theorem apply_idents (h : w.Sound) (op : WindowOp) :
    ∀ s ∈ (w.apply op).idents, s ∈ w.idents ∨ op.name = some s := by
  have hintern : ∀ s, ∀ t ∈ (w.intern s).1.idents, t ∈ w.idents ∨ some s = some t := by
    intro s t ht
    rw [h.intern_idents] at ht
    split at ht
    next => exact .inl ht
    next => exact (List.mem_append.mp ht).imp_right fun hs => by rw [List.mem_singleton.mp hs]
  cases op with
  | intern s => exact hintern s
  | credit a => exact fun t ht => hintern a.identity t (credit_idents .. ▸ ht)
  | creditRow a => exact fun t ht => hintern a.identity t (creditRow_idents .. ▸ ht)
  | setTarget target => exact fun t ht => .inl (setTarget_idents w target ▸ ht)

theorem run_idents (h : w.Sound) {ops : List WindowOp}
    (hfit : Queue.total rowWork w.credits + credited ops < sizeU64) :
    ∀ s ∈ (w.run ops).idents, s ∈ w.idents ∨ s ∈ namesOf ops := by
  induction ops generalizing w with
  | nil => exact fun s hs => .inl hs
  | cons op ops ih =>
    intro s hs
    have hsum : credited (op :: ops) = op.work + credited ops := rfl
    obtain ⟨hstep, hle⟩ := h.apply op (by omega)
    rw [mem_namesOf]
    rcases ih hstep (by omega) s hs with hs | hs
    · exact (h.apply_idents op s hs).imp_right fun hn => ⟨op, List.mem_cons_self, hn⟩
    · obtain ⟨x, hx, hn⟩ := mem_namesOf.mp hs
      exact .inr ⟨x, List.mem_cons_of_mem _ hx, hn⟩

/-- Rows added to a window that has been trimmed leave what one trim of them all leaves. -/
theorem creditRows (h : w.Sound) {calls : List Accepted}
    (hfit : Queue.total rowWork w.credits + (calls.map fun a => a.work.toNat).sum < sizeU64)
    {rows : List Credit} (hkept : w.credits = keptRows w.targetWork rows) :
    (w.creditRows calls).1.credits = keptRows w.targetWork (rows ++ (w.creditRows calls).2) := by
  induction calls generalizing w rows with
  | nil => rw [Window.creditRows, List.append_nil, hkept]
  | cons a calls ih =>
    rw [List.map_cons, List.sum_cons] at hfit
    obtain ⟨hsound, hrow⟩ := h.creditRow a.identity a.work a.height a.ts a.source (by omega)
    have hle : Queue.total rowWork (w.creditRow a.identity a.work a.height a.ts a.source).1.credits ≤
        Queue.total rowWork w.credits + a.work.toNat := by
      rw [hrow]
      refine (Queue.total_le_of_suffix (keptRows_suffix _ _)).trans ?_
      simp [rowWork]
    rw [hkept, keptRows_append] at hrow
    have htarget : (w.creditRow a.identity a.work a.height a.ts a.source).1.targetWork =
        w.targetWork := creditRow_targetWork ..
    rw [← htarget] at hrow
    have hrest := ih hsound (by omega) hrow
    rw [htarget, List.append_assoc] at hrest
    exact hrest

end Sound

/-- After any calls that credit less than a word of work, under at most as many names as there are
indices, the parts of a window agree; and under a fixed target, rows added one by one leave the shortest
end of all of them that reaches the target. -/
theorem agrees_after (ops : List WindowOp) (hwork : credited ops < sizeU64)
    (hnames : (namesOf ops).length ≤ sizeU32) :
    (new.run ops).totalWork = Queue.total rowWork (new.run ops).credits ∧
    Tallied (new.run ops).totals (new.run ops).credits ∧ (new.run ops).Inverse ∧
    (∃ ms, (new.run ops).miners = some ms ∧ (new.run ops).Lists ms) ∧
    ∀ (target : Nat) (calls : List Accepted), target ≠ 0 →
      credited ops + (calls.map fun a => a.work.toNat).sum < sizeU64 →
      Queue.IsShortest rowWork target
        ((new.run ops).credits ++ (((new.run ops).setTarget target).creditRows calls).2)
        (((new.run ops).setTarget target).creditRows calls).1.credits := by
  have hzero : Queue.total rowWork new.credits = 0 := rfl
  have hfit : Queue.total rowWork new.credits + credited ops < sizeU64 := by omega
  obtain ⟨h, hle⟩ := Sound.new.run ops hfit
  have hlen : (new.run ops).idents.length ≤ sizeU32 := by
    refine Nat.le_trans ?_ hnames
    refine (List.subperm_of_subset h.distinct fun s hs => ?_).length_le
    exact (Sound.new.run_idents hfit s hs).resolve_left List.not_mem_nil
  refine ⟨h.total, h.tallied, h.inverse hlen, h.miners (by omega), fun target calls htarget hcalls => ?_⟩
  obtain ⟨hset, hkept⟩ := h.setTarget target
  have hsum : Queue.total rowWork (keptRows target (new.run ops).credits) ≤ _ :=
    Queue.total_le_of_suffix (keptRows_suffix target (new.run ops).credits)
  rw [← hkept] at hsum
  have htw : ((new.run ops).setTarget target).targetWork = target := trim_targetWork _
  rw [hset.creditRows (by omega) (by rw [htw]; exact hkept), htw, keptRows, if_neg htarget]
  exact Queue.trim_isShortest target _

def sampleAccepted (identity : Identity) (work : UInt64) : Accepted := ⟨identity, work, 7, 0, sourceDatum⟩

/-- Two miners, and a target that only the last two rows reach. -/
theorem agrees_after_two : ∃ ms, (new.run [.creditRow (sampleAccepted "1Ann" 20),
      .credit (sampleAccepted "1Bob" 30)]).miners = some ms ∧ (ms.map MinerStat.work).sum = 50 ∧
    Queue.IsShortest rowWork 40 ((new.run [.creditRow (sampleAccepted "1Ann" 20),
      .credit (sampleAccepted "1Bob" 30)]).credits ++ [⟨0, 0, 10, 7, sourceDatum⟩])
      [⟨0, 1, 30, 7, sourceDatum⟩, ⟨0, 0, 10, 7, sourceDatum⟩] := by
  obtain ⟨htotal, -, -, ⟨ms, hms, hlists⟩, hlaw⟩ := agrees_after [.creditRow (sampleAccepted "1Ann" 20),
    .credit (sampleAccepted "1Bob" 30)] (by decide) (by decide)
  exact ⟨ms, hms, hlists.total, hlaw 40 [sampleAccepted "1Ann" 10] (by decide) (by decide)⟩

section
variable (name : Nat → Identity)

/-- The first so many names of a series, interned one after another. -/
def interns (count : Nat) : List WindowOp := (List.range count).map fun k => .intern (name k)

theorem credited_interns (count : Nat) : credited (interns name count) = 0 := by
  refine List.sum_eq_zero fun x hx => ?_
  rw [interns, List.map_map] at hx
  obtain ⟨k, -, rfl⟩ := List.mem_map.mp hx
  rfl

theorem run_interns (count : Nat) (hn : Function.Injective name) :
    (new.run (interns name count)).idents = (List.range count).map name := by
  induction count with
  | zero => rfl
  | succ count ih =>
    have h := (Sound.new.run (interns name count)
      (by rw [credited_interns]; exact Nat.two_pow_pos 64)).1
    have hsucc : interns name (count + 1) = interns name count ++ [.intern (name count)] := by
      rw [interns, List.range_succ, List.map_append]
      rfl
    have hnew : name count ∉ (new.run (interns name count)).idents := by
      rw [ih]
      intro hmem
      obtain ⟨k, hk, heq⟩ := List.mem_map.mp hmem
      exact absurd (hn heq) (List.mem_range.mp hk).ne
    rw [hsucc, run, List.foldl_append]
    change ((new.run (interns name count)).intern (name count)).1.idents = _
    rw [h.intern_idents, if_neg hnew, ih, List.range_succ, List.map_append]
    rfl

/-- Once the indices wrap round, two identities share one. -/
theorem not_inverse_of_wrap (count : Nat) (hn : Function.Injective name) (hpos : 0 < count)
    (hwrap : UInt32.ofNat count = 0) : ¬ (new.run (interns name (count + 1))).Inverse := by
  intro hinverse
  have h := (Sound.new.run (interns name (count + 1))
    (by rw [credited_interns]; exact Nat.two_pow_pos 64)).1
  have hids := run_interns name (count + 1) hn
  have hlast : (new.run (interns name (count + 1))).identIndex.get (name count) = some 0 :=
    (h.index _ _).mpr ⟨count, by rw [hids]; simp, hwrap⟩
  have hfirst := (hinverse _ _).mp hlast
  have hzero : name 0 = name count := by simpa [identity, hids] using hfirst
  exact hpos.ne (hn hzero)

end

/-- With 2 ^ 32 + 1 names the index of the last is that of the first. -/
theorem wrapped_index : ¬ ∀ ops, credited ops < sizeU64 → (new.run ops).Inverse := by
  intro h
  have hn : Function.Injective fun k => String.ofList (List.replicate k 'a') := by
    intro j k heq
    simpa using congrArg (fun s : String => s.toList.length) heq
  refine not_inverse_of_wrap _ (2 ^ 32) hn (by decide) (by decide) (h _ ?_)
  rw [credited_interns]
  exact Nat.two_pow_pos 64

end Window
end WaviclesPrime.Tides
