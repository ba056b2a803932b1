import WaviclesPrime.Primed.Controls
import WaviclesPrime.Primed.Sections

/-! The controls file edited while the pool runs, and the watcher that reads it again. -/
namespace WaviclesPrime.Primed

/-- What is at the path of the controls file; a text that does not parse is there all the same. -/
inductive OnDisk where
  | absent
  | unreadable
  | file (mtime : Nat) (parsed : Option ControlsFile)

def OnDisk.modified : OnDisk → Option Nat
  | .file mtime _ => some mtime
  | .absent | .unreadable => none

/-- Controls, and the time of the file they came from. -/
structure DatedControls where
  controls : NetControls
  mtime : Option Nat

def DatedControls.default : DatedControls := ⟨⟨.none, []⟩, none⟩

/-- Where the watcher is: between its looks at the file's time, before a load, or between a load's own look at
the file's time and its reading of the file. -/
inductive Watching where
  | asleep
  | loading (current : Option Nat)
  | reading (mtime : Nat)

structure Watcher where
  disk : OnDisk
  inForce : DatedControls
  doing : Watching

/-- The file may be edited between any two turns of the watcher. -/
inductive Watched where
  | edit (disk : OnDisk)
  | turn

section
variable (D : Decoders) (quoted : String → String)

/-- The controls that a text puts in force, if it is one that does. -/
def OnDisk.read : OnDisk → Option NetControls
  | .file _ (some f) => (f.load D quoted).toOption
  | .file _ none | .absent | .unreadable => none

namespace Watcher

/-- The controls are loaded once before the first look. -/
def start (disk : OnDisk) : Watcher := ⟨disk, .default, .loading none⟩

def turn (w : Watcher) : Watcher :=
  match w.doing with
  | .asleep => if w.disk.modified = w.inForce.mtime then w else { w with doing := .loading w.inForce.mtime }
  | .loading current =>
    match w.disk with
    | .absent => { w with inForce := if current.isSome then .default else w.inForce, doing := .asleep }
    | .unreadable => { w with doing := .asleep }
    | .file mtime _ => { w with doing := .reading mtime }
  | .reading mtime =>
    match w.disk.read D quoted with
    | some controls => { w with inForce := ⟨controls, some mtime⟩, doing := .asleep }
    | none => { w with doing := .asleep }

def step (w : Watcher) : Watched → Watcher
  | .edit disk => { w with disk }
  | .turn => w.turn D quoted

def run (w : Watcher) (es : List Watched) : Watcher := es.foldl (step D quoted) w

end Watcher

/-- What is in force once the watcher has caught up with the file: without a file nothing, and a file that does
not load leaves what was. -/
def OnDisk.settles (d : OnDisk) (before : NetControls) : NetControls :=
  match d with
  | .absent => DatedControls.default.controls
  | .unreadable => before
  | .file mtime parsed => (OnDisk.read D quoted (.file mtime parsed)).getD before

/-- Nothing in force but what some version of the file put there. -/
def Vetted (versions : List OnDisk) (c : NetControls) : Prop :=
  c = DatedControls.default.controls ∨ ∃ d ∈ versions, d.read D quoted = some c

end

def edits : List Watched → List OnDisk := List.filterMap fun
  | .edit disk => some disk
  | .turn => none

/-- The times of the file's versions. -/
def mtimes (versions : List OnDisk) : List Nat := versions.filterMap OnDisk.modified

namespace Watcher
variable {D : Decoders} {quoted : String → String} {w : Watcher} {versions : List OnDisk}

/-- While the file is the version that the controls are from, it is that version that they say. -/
structure Follows (D : Decoders) (quoted : String → String) (versions : List OnDisk) (w : Watcher) : Prop where
  disk : w.disk ∈ versions
  vetted : Vetted D quoted versions w.inForce.controls
  undated : w.inForce.mtime = none → w.inForce.controls = DatedControls.default.controls
  dated : ∀ m, w.inForce.mtime = some m ∨ w.doing = .reading m → m ∈ mtimes versions
  loading : ∀ current, w.doing = .loading current → current = w.inForce.mtime
  agrees : ∀ m, w.inForce.mtime = some m → w.disk.modified = some m →
    w.disk.read D quoted = some w.inForce.controls

theorem follows_start (disk : OnDisk) : (start disk).Follows D quoted [disk] where
  disk := List.mem_cons_self
  vetted := .inl rfl
  undated _ := rfl
  dated m h := by rcases h with h | h <;> cases h
  loading current h := (Watching.loading.inj h).symm
  agrees m h := by cases h

theorem vetted_append {c : NetControls} {more : List OnDisk} (h : Vetted D quoted versions c) :
    Vetted D quoted (versions ++ more) c :=
  h.imp_right fun ⟨d, hd, hread⟩ => ⟨d, List.mem_append_left _ hd, hread⟩

/-- A version of a time not seen before is not the one in force. -/
theorem Follows.edit (h : w.Follows D quoted versions) {d : OnDisk}
    (hnew : ∀ m, d.modified = some m → m ∉ mtimes versions) :
    (w.step D quoted (.edit d)).Follows D quoted (versions ++ [d]) where
  disk := List.mem_append_right _ List.mem_cons_self
  vetted := vetted_append h.vetted
  undated := h.undated
  dated m hm := by
    rw [mtimes, List.filterMap_append]
    exact List.mem_append_left _ (h.dated m hm)
  loading := h.loading
  agrees m hm hd := absurd (h.dated m (.inl hm)) (hnew m hd)

theorem Follows.sleeps (h : w.Follows D quoted versions) :
    (⟨w.disk, w.inForce, .asleep⟩ : Watcher).Follows D quoted versions where
  disk := h.disk
  vetted := h.vetted
  undated := h.undated
  dated m hm := by
    rcases hm with hm | hm
    · exact h.dated m (.inl hm)
    · cases hm
  loading current hc := by cases hc
  agrees := h.agrees

section
variable (D quoted) (disk : OnDisk) (inForce : DatedControls)

theorem turn_asleep : turn D quoted ⟨disk, inForce, .asleep⟩ =
    if disk.modified = inForce.mtime then ⟨disk, inForce, .asleep⟩ else ⟨disk, inForce, .loading inForce.mtime⟩ := rfl

theorem turn_loading (current : Option Nat) : turn D quoted ⟨disk, inForce, .loading current⟩ =
    match disk with
    | .absent => ⟨.absent, if current.isSome then .default else inForce, .asleep⟩
    | .unreadable => ⟨.unreadable, inForce, .asleep⟩
    | .file mtime parsed => ⟨.file mtime parsed, inForce, .reading mtime⟩ := by
  cases disk <;> rfl

theorem turn_reading (mtime : Nat) : turn D quoted ⟨disk, inForce, .reading mtime⟩ =
    match disk.read D quoted with
    | some controls => ⟨disk, ⟨controls, some mtime⟩, .asleep⟩
    | none => ⟨disk, inForce, .asleep⟩ := rfl

end

theorem Follows.turned (h : w.Follows D quoted versions) : (w.turn D quoted).Follows D quoted versions := by
  obtain ⟨disk, inForce, doing⟩ := w
  cases doing with
  | asleep =>
    rw [turn_asleep]
    split
    · exact h
    · exact { h.sleeps with
        dated := fun m hm => by
          rcases hm with hm | hm
          · exact h.dated m (.inl hm)
          · cases hm
        loading := fun current hc => (Watching.loading.inj hc).symm }
  | loading current =>
    rw [turn_loading]
    cases disk with
    | absent =>
      cases current with
      | none => exact h.sleeps
      | some m =>
        refine ⟨h.disk, .inl rfl, fun _ => rfl, fun m hm => ?_, fun _ hc => ?_, fun m hm => ?_⟩
        · rcases hm with hm | hm <;> cases hm
        · cases hc
        · cases hm
    | unreadable => exact h.sleeps
    | file mtime parsed =>
      refine { h.sleeps with dated := fun m hm => ?_, loading := fun _ hc => ?_ }
      · rcases hm with hm | hm
        · exact h.dated m (.inl hm)
        · obtain rfl := Watching.reading.inj hm
          exact List.mem_filterMap.mpr ⟨_, h.disk, rfl⟩
      · cases hc
  | reading mtime =>
    rw [turn_reading]
    cases hread : disk.read D quoted with
    | none => exact h.sleeps
    | some controls =>
      refine ⟨h.disk, .inr ⟨_, h.disk, hread⟩, fun hc => ?_, fun m hm => ?_, fun _ hc => ?_, fun m _ _ => hread⟩
      · cases hc
      · rcases hm with hm | hm
        · obtain rfl := Option.some.inj hm
          exact h.dated _ (.inr rfl)
        · cases hm
      · cases hc

theorem Follows.run (h : w.Follows D quoted versions) {es : List Watched}
    (hfresh : (mtimes (versions ++ edits es)).Nodup) : (w.run D quoted es).Follows D quoted (versions ++ edits es) := by
  induction es generalizing w versions with
  | nil =>
    rw [edits, List.filterMap_nil, List.append_nil]
    exact h
  | cons e es ih =>
    cases e with
    | turn => exact ih h.turned hfresh
    | edit d =>
      have hcons : versions ++ edits (.edit d :: es) = versions ++ [d] ++ edits es := by
        rw [List.append_assoc]
        rfl
      rw [hcons] at hfresh ⊢
      refine ih (h.edit fun m hm hmem => ?_) hfresh
      rw [mtimes, List.filterMap_append, List.filterMap_append] at hfresh
      have hdisj := (List.nodup_append.mp (List.nodup_append.mp hfresh).1).2.2
      exact hdisj m hmem m (List.mem_filterMap.mpr ⟨d, List.mem_cons_self, hm⟩) rfl

/-- The watcher has caught up with the file as it is. -/
def Settled (D : Decoders) (quoted : String → String) (w : Watcher) : Prop :=
  w.disk.settles D quoted w.inForce.controls = w.inForce.controls

theorem settles_of_read {d : OnDisk} {c : NetControls} (h : d.read D quoted = some c) (before : NetControls) :
    d.settles D quoted before = c := by
  cases d with
  | absent | unreadable => cases h
  | file mtime parsed => rw [OnDisk.settles, h, Option.getD_some]

/-- A turn moves towards what the file settles to, and from there not away. -/
theorem turn_settles (w : Watcher) :
    (w.turn D quoted).disk = w.disk ∧
    (w.turn D quoted).disk.settles D quoted (w.turn D quoted).inForce.controls =
      w.disk.settles D quoted w.inForce.controls ∧
    (w.Settled D quoted → (w.turn D quoted).inForce.controls = w.inForce.controls) := by
  obtain ⟨disk, inForce, doing⟩ := w
  cases doing with
  | asleep =>
    rw [turn_asleep]
    split <;> exact ⟨rfl, rfl, fun _ => rfl⟩
  | loading current =>
    rw [turn_loading]
    cases disk with
    | absent =>
      cases current with
      | none => exact ⟨rfl, rfl, fun _ => rfl⟩
      | some m => exact ⟨rfl, rfl, fun hs => hs⟩
    | unreadable | file => exact ⟨rfl, rfl, fun _ => rfl⟩
  | reading mtime =>
    rw [turn_reading]
    cases hread : disk.read D quoted with
    | none => exact ⟨rfl, rfl, fun _ => rfl⟩
    | some controls =>
      refine ⟨rfl, (settles_of_read hread _).trans (settles_of_read hread _).symm, fun hs => ?_⟩
      exact (settles_of_read hread _).symm.trans hs

theorem Settled.turned (h : w.Settled D quoted) : (w.turn D quoted).Settled D quoted := by
  obtain ⟨-, hsame, hstays⟩ := @turn_settles D quoted w
  exact hsame.trans (h.trans (hstays h).symm)

section
variable {disk : OnDisk} {inForce : DatedControls}

/-- A file that is read is caught up with, unless it has gone meanwhile. -/
theorem settled_read (mtime : Nat) (h : disk ≠ .absent) :
    (turn D quoted ⟨disk, inForce, .reading mtime⟩).Settled D quoted := by
  rw [turn_reading]
  cases hread : disk.read D quoted with
  | some controls => exact settles_of_read hread _
  | none =>
    cases disk with
    | absent => exact absurd rfl h
    | unreadable => rfl
    | file m parsed => exact congrArg (Option.getD · inForce.controls) hread

theorem Follows.settled_loading {current : Option Nat}
    (h : (⟨disk, inForce, .loading current⟩ : Watcher).Follows D quoted versions) :
    (turn D quoted (turn D quoted ⟨disk, inForce, .loading current⟩)).Settled D quoted := by
  rw [turn_loading]
  cases disk with
  | absent =>
    refine Settled.turned ?_
    cases current with
    | none => exact (h.undated (h.loading none rfl).symm).symm
    | some m => rfl
  | unreadable => exact Settled.turned rfl
  | file mtime parsed => exact settled_read mtime nofun

theorem Follows.settled_asleep (h : (⟨disk, inForce, .asleep⟩ : Watcher).Follows D quoted versions) :
    (turn D quoted (turn D quoted (turn D quoted ⟨disk, inForce, .asleep⟩))).Settled D quoted := by
  have hturn := h.turned
  rw [turn_asleep] at hturn ⊢
  split at hturn
  next heq =>
    rw [if_pos heq]
    have hsettled : (⟨disk, inForce, .asleep⟩ : Watcher).Settled D quoted := by
      cases disk with
      | absent => exact (h.undated heq.symm).symm
      | unreadable => rfl
      | file mtime parsed => exact settles_of_read (h.agrees mtime heq.symm rfl) _
    exact hsettled.turned.turned
  next hne =>
    rw [if_neg hne]
    exact hturn.settled_loading

end

/-- Three turns are enough. -/
theorem Follows.settled (h : w.Follows D quoted versions) :
    (turn D quoted (turn D quoted (turn D quoted w))).Settled D quoted := by
  obtain ⟨disk, inForce, doing⟩ := w
  cases doing with
  | asleep => exact h.settled_asleep
  | loading current => exact h.settled_loading.turned
  | reading mtime =>
    by_cases habsent : disk = .absent
    · -- the file went between the two looks at it, which the next load finds
      subst habsent
      have hturn := h.turned
      rw [turn_reading] at hturn ⊢
      have hasleep := hturn.turned
      change (turn D quoted ⟨.absent, inForce, .asleep⟩).Follows D quoted versions at hasleep
      change (turn D quoted (turn D quoted ⟨.absent, inForce, .asleep⟩)).Settled D quoted
      rw [turn_asleep] at hasleep ⊢
      split at hasleep
      next heq =>
        rw [if_pos heq]
        exact Settled.turned (h.undated heq.symm).symm
      next hne =>
        rw [if_neg hne, turn_loading]
        cases hm : inForce.mtime with
        | none => exact absurd hm.symm hne
        | some m => rfl
    · exact (settled_read mtime habsent).turned.turned

theorem run_turns (w : Watcher) (n : Nat) :
    (w.run D quoted (.replicate n .turn)).disk.settles D quoted (w.run D quoted (.replicate n .turn)).inForce.controls =
      w.disk.settles D quoted w.inForce.controls ∧
    (w.Settled D quoted → (w.run D quoted (.replicate n .turn)).Settled D quoted) := by
  induction n generalizing w with
  | zero => exact ⟨rfl, id⟩
  | succ n ih =>
    obtain ⟨hsame, hsettled⟩ := ih (w.turn D quoted)
    exact ⟨hsame.trans (turn_settles w).2.1, fun h => hsettled h.turned⟩

/-- Left alone, the watcher catches up. -/
theorem Follows.run_turns (h : w.Follows D quoted versions) {n : Nat} (hn : 3 ≤ n) :
    (w.run D quoted (.replicate n .turn)).inForce.controls = w.disk.settles D quoted w.inForce.controls := by
  obtain ⟨k, rfl⟩ := Nat.exists_eq_add_of_le' hn
  have hsettled : (w.run D quoted (.replicate (k + 3) .turn)).Settled D quoted :=
    (Watcher.run_turns (((w.turn D quoted).turn D quoted).turn D quoted) k).2 h.settled
  exact hsettled.symm.trans (Watcher.run_turns w (k + 3)).1

theorem run_append (w : Watcher) (es more : List Watched) :
    w.run D quoted (es ++ more) = (w.run D quoted es).run D quoted more := List.foldl_append

end Watcher

/-- Whatever is done to the file and however it falls between the watcher's turns, what is in force is none or
what some version of the file said; and once the file is left alone, three turns bring what it settles to. -/
theorem controls_follow_file {D : Decoders} {quoted : String → String} {disk d : OnDisk} {es : List Watched} {n : Nat}
    (hfresh : (mtimes (disk :: edits es ++ [d])).Nodup) (hn : 3 ≤ n) :
    Vetted D quoted (disk :: edits es) ((Watcher.start disk).run D quoted es).inForce.controls ∧
      ((Watcher.start disk).run D quoted (es ++ .edit d :: .replicate n .turn)).inForce.controls =
        d.settles D quoted ((Watcher.start disk).run D quoted es).inForce.controls := by
  rw [mtimes, List.filterMap_append] at hfresh
  obtain ⟨hfront, -, hdisjoint⟩ := List.nodup_append.mp hfresh
  have hstart : (Watcher.start disk).Follows D quoted [disk] := Watcher.follows_start disk
  have hes := hstart.run hfront
  have hedit := hes.edit fun m hm hmem =>
    hdisjoint m hmem m (List.mem_filterMap.mpr ⟨d, List.mem_cons_self, hm⟩) rfl
  refine ⟨hes.vetted, ?_⟩
  rw [Watcher.run_append]
  exact hedit.run_turns hn

/-- A fee of one per cent, loaded while the file is written over with a text that does not parse. -/
def slippedEdits : List Watched :=
  [.edit (.file 7 (some ⟨some 100, none, .empty, [], []⟩)), .turn, .turn, .turn, .turn]

theorem controls_follow_file_slipped :
    Vetted sampleDecoders id (.absent :: edits slippedEdits)
      ((Watcher.start .absent).run sampleDecoders id slippedEdits).inForce.controls ∧
      ((Watcher.start .absent).run sampleDecoders id (slippedEdits ++ .edit (.file 8 none) ::
        .replicate 3 .turn)).inForce.controls =
        ((Watcher.start .absent).run sampleDecoders id slippedEdits).inForce.controls :=
  controls_follow_file (d := .file 8 none) (by decide) (Nat.le_refl 3)

end WaviclesPrime.Primed
