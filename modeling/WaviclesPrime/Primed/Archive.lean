import WaviclesPrime.Lib.Disk
import WaviclesPrime.Primed.Snapshot

/-! The directory of published snapshots: stores of several sessions at once, and what is pruned from it. -/
namespace WaviclesPrime.Primed
open Wire

/-- Snapshots older than this are pruned. -/
def keepSecs : Nat := 48 * 3600

/-- A snapshot to be stored: its hash, the bytes that are hashed, and the time it says. -/
structure Snap where
  hash : Bytes
  canonical : Bytes
  ts : Nat
  deriving DecidableEq

namespace Snap

def hex (s : Snap) : String := Snapshot.hexEncode s.hash

def path (s : Snap) : String := s.hex ++ ".json"

def tmp (s : Snap) : String := "." ++ s.hex ++ ".tmp"

end Snap

/-- How far a store has come; one that is torn left its file half written. -/
inductive Storing where
  | checking
  | opening
  | writing (i : Nat)
  | moving
  | stored
  | failed
  | torn (i : Nat)
  deriving DecidableEq

/-- How a store is left when the process ends. -/
def Storing.ended : Storing → Storing
  | .checking | .opening | .moving | .failed => .failed
  | .writing i | .torn i => .torn i
  | .stored => .stored

structure Store where
  snap : Snap
  stage : Storing
  deriving DecidableEq

structure Archive where
  dir : Directory
  now : Nat
  stores : List Store

namespace Archive

def empty (now : Nat) : Archive := ⟨.empty, now, []⟩

/-- The next step of a store: write the file once, under another name first. -/
def turn (a : Archive) (s : Snap) : Storing → Directory × Storing
  | .checking => (a.dir, if (a.dir.names.get s.path).isSome then .stored else .opening)
  | .opening => ((a.dir.create s.tmp a.now).2, .writing (a.dir.create s.tmp a.now).1)
  | .writing i => (a.dir.write i s.canonical a.now, .moving)
  | .moving =>
    match a.dir.rename s.tmp s.path with
    | none => (a.dir, .failed)
    | some dir => (dir, .stored)
  | .stored => (a.dir, .stored)
  | .failed => (a.dir, .failed)
  | .torn i => (a.dir, .torn i)

/-- A step that does not succeed; of a write, the first bytes may be there. -/
def fail (a : Archive) (s : Snap) (n : Nat) : Storing → Directory × Storing
  | .checking | .opening | .moving | .failed => (a.dir, .failed)
  | .writing i => (a.dir.write i (s.canonical.take n) a.now, .torn i)
  | .stored => (a.dir, .stored)
  | .torn i => (a.dir, .torn i)

/-- The bytes published under a hash; no other name can be asked for. -/
def load (a : Archive) (hexHash : String) : Option Bytes :=
  if hexHash.utf8ByteSize ≠ 64 ∨
      ¬ hexHash.toList.all (fun c => c.isDigit || ('a' ≤ c && c ≤ 'f') || ('A' ≤ c && c ≤ 'F')) then none
  else a.dir.read (hexHash ++ ".json")

/-- One entry of a prune, which goes through the directory. -/
def prune (a : Archive) (name : String) (keep : List String) : Directory :=
  if ¬ (".json".toList).isSuffixOf name.toList then a.dir
  else if keep.any (fun k => k ++ ".json" == name) then a.dir
  else
    match a.dir.inode name with
    | none => a.dir
    | some node => if keepSecs < a.now - node.mtime ∧ 0 < a.now then a.dir.remove name else a.dir

end Archive

/-- What happens to the archive. A session starts to store a snapshot it built; one that is under way goes on or
fails; time passes; an entry is pruned; the process ends and is started again. -/
inductive Archiving where
  | start (s : Snap)
  | turn (k : Nat)
  | fail (k n : Nat)
  | tick (secs : Nat)
  | prune (name : String) (keep : List String)
  | restart

namespace Archive

def step (a : Archive) : Archiving → Archive
  | .start s => { a with stores := a.stores ++ [⟨s, .checking⟩] }
  | .turn k =>
    match a.stores[k]? with
    | none => a
    | some t =>
      { a with
        dir := (a.turn t.snap t.stage).1
        stores := a.stores.set k ⟨t.snap, (a.turn t.snap t.stage).2⟩ }
  | .fail k n =>
    match a.stores[k]? with
    | none => a
    | some t =>
      { a with
        dir := (a.fail t.snap n t.stage).1
        stores := a.stores.set k ⟨t.snap, (a.fail t.snap n t.stage).2⟩ }
  | .tick secs => { a with now := a.now + secs }
  | .prune name keep => { a with dir := a.prune name keep }
  | .restart =>
    { a with stores := a.stores.map fun t => ⟨t.snap, t.stage.ended⟩ }

def run (a : Archive) (es : List Archiving) : Archive := es.foldl step a

/-- Every prune so far came within the time a snapshot is kept, or was told to keep it. -/
def Spares (s : Snap) : Archive → List Archiving → Prop
  | _, [] => True
  | a, e :: es =>
    (match e with
      | .prune _ keep => a.now ≤ s.ts + keepSecs ∨ s.hex ∈ keep
      | _ => True) ∧ Spares s (a.step e) es

/-- A snapshot is built before it is stored, and different ones have different hashes. -/
def Built (snaps : List Snap) : Archive → List Archiving → Prop
  | _, [] => True
  | a, e :: es =>
    (match e with
      | .start s => s.ts ≤ a.now ∧ s ∈ snaps
      | _ => True) ∧ Built snaps (a.step e) es

end Archive

theorem hexDigit_injective : ∀ m < 16, ∀ n < 16, Snapshot.hexDigit m = Snapshot.hexDigit n → m = n := by decide

theorem hexEncode_injective {a b : Bytes} (h : Snapshot.hexEncode a = Snapshot.hexEncode b) : a = b := by
  have hchars := String.ofList_injective h
  clear h
  induction a generalizing b with
  | nil =>
    cases b with
    | nil => rfl
    | cons y b => cases hchars
  | cons x a ih =>
    cases b with
    | nil => cases hchars
    | cons y b =>
      rw [List.flatMap_cons, List.flatMap_cons] at hchars
      obtain ⟨hhigh, hrest⟩ := List.cons.inj hchars
      obtain ⟨hlow, hrest⟩ := List.cons.inj hrest
      have hx := x.toNat_lt
      have hy := y.toNat_lt
      have hdiv := hexDigit_injective _ (by omega) _ (by omega) hhigh
      have hmod := hexDigit_injective _ (by omega) _ (by omega) hlow
      rw [ih hrest, UInt8.toNat_inj.mp (by omega : x.toNat = y.toNat)]

/-- No two of the snapshots have one hash. -/
def Collisionless (snaps : List Snap) : Prop := ∀ s ∈ snaps, ∀ t ∈ snaps, s.hash = t.hash → s = t

namespace Collisionless
variable {snaps : List Snap} {s t : Snap}

theorem path (h : Collisionless snaps) (hs : s ∈ snaps) (ht : t ∈ snaps) (heq : s.path = t.path) : s = t :=
  h s hs t ht (hexEncode_injective (String.append_left_inj _ |>.mp heq))

theorem tmp (h : Collisionless snaps) (hs : s ∈ snaps) (ht : t ∈ snaps) (heq : s.tmp = t.tmp) : s = t := by
  have hhex : s.hex = t.hex := (String.append_right_inj _).mp ((String.append_left_inj _).mp heq)
  exact h s hs t ht (hexEncode_injective hhex)

end Collisionless

/-- A snapshot is not published under the name that another is written under. -/
theorem Snap.path_ne_tmp (s t : Snap) : s.path ≠ t.tmp := by
  intro heq
  have hlast := congrArg (fun name : String => name.toList.getLast?) heq
  simp [path, tmp, List.getLast?_cons] at hlast

/-- Whether a store has its file open to write it, or left it so. -/
def Store.Midway (t : Store) (s : Snap) (i : Nat) : Prop := t.snap = s ∧ (t.stage = .writing i ∨ t.stage = .torn i)

/-- A store has one file open at a time. -/
theorem Store.Midway.inode {t : Store} {s r : Snap} {i j : Nat} (hi : t.Midway s i) (hj : t.Midway r j) : i = j := by
  obtain ⟨-, hi⟩ := hi
  obtain ⟨-, hj⟩ := hj
  rcases hi with hi | hi <;> rcases hj with hj | hj <;> rw [hi] at hj
  · exact Storing.writing.inj hj
  · cases hj
  · cases hj
  · exact Storing.torn.inj hj

/-- Each file is one snapshot's, by its names and its writers, and holds its bytes unless a store of it is midway. -/
structure Archive.Sound (snaps owners : List Snap) (a : Archive) : Prop where
  length : owners.length = a.dir.inodes.length
  path : ∀ s ∈ snaps, ∀ i, a.dir.names.get s.path = some i → owners[i]? = some s
  tmp : ∀ s ∈ snaps, ∀ i, a.dir.names.get s.tmp = some i → owners[i]? = some s
  known : ∀ t ∈ a.stores, t.snap ∈ snaps ∧ t.snap.ts ≤ a.now
  midway : ∀ t ∈ a.stores, ∀ s i, t.Midway s i → owners[i]? = some s
  content : ∀ i s node, owners[i]? = some s → a.dir.inodes[i]? = some node →
    s.ts ≤ node.mtime ∧ (node.content = s.canonical ∨ ∃ t ∈ a.stores, t.Midway s i)

namespace Archive
variable {snaps owners : List Snap} {a : Archive} {t : Store} {k : Nat}

theorem mem_set_of_ne {α : Type} {xs : List α} {k : Nat} {x y z : α} (hk : xs[k]? = some x) (hy : y ∈ xs)
    (hne : y ≠ x) :
    y ∈ xs.set k z := by
  obtain ⟨j, hj⟩ := List.mem_iff_getElem?.mp hy
  refine List.mem_iff_getElem?.mpr ⟨j, ?_⟩
  rw [List.getElem?_set_ne, hj]
  rintro rfl
  exact hne (Option.some.inj (hj.symm.trans hk))

/-- One store goes on, and its file with it; every other store stays as far as it was. -/
theorem Sound.turned (h : a.Sound snaps owners) (hk : a.stores[k]? = some t) {dir : Directory} {stage : Storing}
    {owners' : List Snap} (hlength : owners'.length = dir.inodes.length)
    (hpath : ∀ s ∈ snaps, ∀ i, dir.names.get s.path = some i → owners'[i]? = some s)
    (htmp : ∀ s ∈ snaps, ∀ i, dir.names.get s.tmp = some i → owners'[i]? = some s)
    (howners : ∀ (i : Nat) (s : Snap), owners[i]? = some s → owners'[i]? = some s)
    (hmidway : ∀ (s : Snap) (i : Nat), Store.Midway ⟨t.snap, stage⟩ s i → owners'[i]? = some s)
    (hcontent : ∀ (i : Nat) (s : Snap) (node : Inode), owners'[i]? = some s → dir.inodes[i]? = some node →
      s.ts ≤ node.mtime ∧ (node.content = s.canonical ∨ Store.Midway ⟨t.snap, stage⟩ s i ∨
        (¬ t.Midway s i ∧ ∃ u ∈ a.stores, u.Midway s i))) :
    ({ a with dir, stores := a.stores.set k ⟨t.snap, stage⟩ } : Archive).Sound snaps owners' where
  length := hlength
  path := hpath
  tmp := htmp
  known u hu := by
    rcases List.mem_or_eq_of_mem_set hu with hu | rfl
    · exact h.known u hu
    · exact h.known t (List.mem_of_getElem? hk)
  midway u hu s i hm := by
    rcases List.mem_or_eq_of_mem_set hu with hu | rfl
    · exact howners i s (h.midway u hu s i hm)
    · exact hmidway s i hm
  content i s node hi hnode := by
    obtain ⟨hts, hbytes | hself | ⟨hnot, u, hu, hm⟩⟩ := hcontent i s node hi hnode
    · exact ⟨hts, .inl hbytes⟩
    · exact ⟨hts, .inr ⟨_, List.mem_set (List.getElem?_eq_some_iff.mp hk).1 _, hself⟩⟩
    · exact ⟨hts, .inr ⟨u, mem_set_of_ne hk hu fun heq => hnot (heq ▸ hm), hm⟩⟩

/-- A file that a store is not midway in holds what it held. -/
theorem Sound.unchanged (h : a.Sound snaps owners) {stage : Storing} {i : Nat} {s : Snap} {node : Inode}
    (ht : ¬ t.Midway s i) (hi : owners[i]? = some s) (hnode : a.dir.inodes[i]? = some node) :
    s.ts ≤ node.mtime ∧ (node.content = s.canonical ∨ Store.Midway ⟨t.snap, stage⟩ s i ∨
      (¬ t.Midway s i ∧ ∃ u ∈ a.stores, u.Midway s i)) := by
  obtain ⟨hts, hbytes | hother⟩ := h.content i s node hi hnode
  · exact ⟨hts, .inl hbytes⟩
  · exact ⟨hts, .inr (.inr ⟨ht, hother⟩)⟩

/-- Where the file stays as it was, and the store was not midway, nothing changes. -/
theorem Sound.passes (h : a.Sound snaps owners) (hk : a.stores[k]? = some t) {stage : Storing}
    (ht : ∀ s i, ¬ t.Midway s i) (hstage : ∀ s i, ¬ Store.Midway ⟨t.snap, stage⟩ s i) :
    ({ a with stores := a.stores.set k ⟨t.snap, stage⟩ } : Archive).Sound snaps owners :=
  h.turned hk h.length h.path h.tmp (fun _ _ hi => hi) (fun s i hm => absurd hm (hstage s i))
    fun i s _ hi hnode => h.unchanged (ht s i) hi hnode

/-- The file of a writer is written, with all its bytes or while the writer is midway. -/
theorem Sound.writes (h : a.Sound snaps owners) (hk : a.stores[k]? = some t) {i : Nat} (ht : t.Midway t.snap i)
    {stage : Storing} {content : Bytes}
    (hstage : ∀ s j, Store.Midway ⟨t.snap, stage⟩ s j → s = t.snap ∧ j = i)
    (hcontent : content = t.snap.canonical ∨ Store.Midway ⟨t.snap, stage⟩ t.snap i) :
    ({ a with
      dir := a.dir.write i content a.now
      stores := a.stores.set k ⟨t.snap, stage⟩ } : Archive).Sound snaps owners := by
  have hmem := List.mem_of_getElem? hk
  have hown := h.midway t hmem t.snap i ht
  refine h.turned hk (by rw [Directory.inodes_write, List.length_set]; exact h.length) h.path h.tmp (fun _ _ hi => hi)
    (fun s j hm => ?_) fun j s node hj hnode => ?_
  · obtain ⟨rfl, rfl⟩ := hstage s j hm
    exact hown
  · rw [Directory.inodes_write] at hnode
    by_cases hij : i = j
    · subst hij
      obtain rfl := Option.some.inj (hown.symm.trans hj)
      have hlt := (List.getElem?_eq_some_iff.mp hown).1
      rw [List.getElem?_set_self (h.length ▸ hlt)] at hnode
      obtain rfl := Option.some.inj hnode
      exact ⟨(h.known t hmem).2, hcontent.imp_right .inl⟩
    · rw [List.getElem?_set_ne hij] at hnode
      exact h.unchanged (fun hm => hij (ht.inode hm)) hj hnode

/-- A writer opens its file: the one that is there, which is its snapshot's, or a new one. -/
theorem Sound.opens (h : a.Sound snaps owners) (hsnaps : Collisionless snaps) (hk : a.stores[k]? = some t)
    (ht : ∀ s i, ¬ t.Midway s i) :
    ∃ owners', ({ a with
      dir := (a.dir.create t.snap.tmp a.now).2
      stores := a.stores.set k ⟨t.snap, .writing (a.dir.create t.snap.tmp a.now).1⟩ } : Archive).Sound
        snaps owners' := by
  have hmem := List.mem_of_getElem? hk
  obtain ⟨hsnap, hts⟩ := h.known t hmem
  have hstage : ∀ (i j : Nat) (s : Snap), Store.Midway ⟨t.snap, .writing i⟩ s j → s = t.snap ∧ j = i := by
    rintro i j s ⟨hs, hi | hi⟩
    · exact ⟨hs.symm, (Storing.writing.inj hi).symm⟩
    · cases hi
  obtain ⟨i, hi, hcreate⟩ | ⟨hnone, hfst, hinodes, hnames⟩ := a.dir.create_cases t.snap.tmp a.now
  · -- the other writer of this snapshot finds its file emptied
    rw [hcreate]
    have hown := h.tmp t.snap hsnap i hi
    refine ⟨owners, h.turned hk (by rw [Directory.inodes_write, List.length_set]; exact h.length) h.path h.tmp
      (fun _ _ hi => hi) (fun s j hm => ?_) fun j s node hj hnode => ?_⟩
    · obtain ⟨rfl, rfl⟩ := hstage i j s hm
      exact hown
    · rw [Directory.inodes_write] at hnode
      by_cases hij : i = j
      · subst hij
        obtain rfl := Option.some.inj (hown.symm.trans hj)
        rw [List.getElem?_set_self (h.length ▸ (List.getElem?_eq_some_iff.mp hown).1)] at hnode
        obtain rfl := Option.some.inj hnode
        exact ⟨hts, .inr (.inl ⟨rfl, .inl rfl⟩)⟩
      · rw [List.getElem?_set_ne hij] at hnode
        exact h.unchanged (ht s j) hj hnode
  · rw [hfst]
    have hkeep : ∀ (j : Nat) (s : Snap), owners[j]? = some s → (owners ++ [t.snap])[j]? = some s := fun j s hj => by
      rw [List.getElem?_append_left (List.getElem?_eq_some_iff.mp hj).1, hj]
    have hnew : (owners ++ [t.snap])[a.dir.inodes.length]? = some t.snap := by
      rw [← h.length, List.getElem?_concat_length]
    refine ⟨owners ++ [t.snap], h.turned hk ?_ (fun s hs j hj => ?_) (fun s hs j hj => ?_) hkeep (fun s j hm => ?_)
      fun j s node hj hnode => ?_⟩
    · rw [hinodes, List.length_append, List.length_append, h.length, List.length_singleton, List.length_singleton]
    · rw [hnames, if_neg (Snap.path_ne_tmp s t.snap)] at hj
      exact hkeep j s (h.path s hs j hj)
    · rw [hnames] at hj
      split at hj
      next heq =>
        obtain rfl := hsnaps.tmp hs hsnap heq
        obtain rfl := Option.some.inj hj
        exact hnew
      next => exact hkeep j s (h.tmp s hs j hj)
    · obtain ⟨rfl, rfl⟩ := hstage _ j s hm
      exact hnew
    · rw [hinodes] at hnode
      rcases Nat.lt_or_ge j a.dir.inodes.length with hlt | hge
      · rw [List.getElem?_append_left hlt] at hnode
        rw [List.getElem?_append_left (h.length ▸ hlt)] at hj
        exact h.unchanged (ht s j) hj hnode
      · have hlt := (List.getElem?_eq_some_iff.mp hnode).1
        rw [List.length_append, List.length_singleton] at hlt
        obtain rfl : j = a.dir.inodes.length := by omega
        rw [List.getElem?_concat_length] at hnode
        obtain rfl := Option.some.inj hnode
        obtain rfl := Option.some.inj (hnew.symm.trans hj)
        exact ⟨hts, .inr (.inl ⟨rfl, .inl rfl⟩)⟩

/-- A file gets the name it is published under. -/
theorem Sound.renames (h : a.Sound snaps owners) (hsnaps : Collisionless snaps) (hk : a.stores[k]? = some t)
    (ht : ∀ s i, ¬ t.Midway s i) {dir : Directory} (hdir : a.dir.rename t.snap.tmp t.snap.path = some dir) :
    ({ a with dir, stores := a.stores.set k ⟨t.snap, .stored⟩ } : Archive).Sound snaps owners := by
  obtain ⟨hsnap, -⟩ := h.known t (List.mem_of_getElem? hk)
  obtain ⟨i, hi, hinodes, hnames⟩ := Directory.rename_eq_some hdir
  refine h.turned hk (by rw [hinodes]; exact h.length) (fun s hs j hj => ?_) (fun s hs j hj => ?_) (fun _ _ hi => hi)
    (fun s j hm => ?_) fun j s node hj hnode => ?_
  · rw [hnames] at hj
    split at hj
    next heq =>
      obtain rfl := hsnaps.path hs hsnap heq
      obtain rfl := Option.some.inj hj
      exact h.tmp t.snap hsnap i hi
    next =>
      rw [if_neg (Snap.path_ne_tmp s t.snap)] at hj
      exact h.path s hs j hj
  · rw [hnames, if_neg (Snap.path_ne_tmp t.snap s).symm] at hj
    split at hj
    · cases hj
    · exact h.tmp s hs j hj
  · rcases hm.2 with hm | hm <;> cases hm
  · rw [hinodes] at hnode
    exact h.unchanged (ht s j) hj hnode

theorem Sound.removes (h : a.Sound snaps owners) (name : String) :
    ({ a with dir := a.dir.remove name } : Archive).Sound snaps owners := by
  refine { h with path := fun s hs i hi => ?_, tmp := fun s hs i hi => ?_ }
  · rw [Directory.get_remove] at hi
    split at hi
    · cases hi
    · exact h.path s hs i hi
  · rw [Directory.get_remove] at hi
    split at hi
    · cases hi
    · exact h.tmp s hs i hi

/-- An entry is left or removed. -/
theorem prune_cases (a : Archive) (name : String) (keep : List String) :
    a.prune name keep = a.dir ∨
    (a.prune name keep = a.dir.remove name ∧ (∀ k ∈ keep, k ++ ".json" ≠ name) ∧
      ∃ node, a.dir.inode name = some node ∧ node.mtime + keepSecs < a.now) := by
  unfold prune
  split
  · exact .inl rfl
  · split
    · exact .inl rfl
    · rename_i hkeep
      split
      · exact .inl rfl
      · rename_i node hnode
        split
        · rename_i hold
          refine .inr ⟨rfl, fun k hk heq => hkeep ?_, node, hnode, by omega⟩
          exact List.any_eq_true.mpr ⟨k, hk, beq_iff_eq.mpr heq⟩
        · exact .inl rfl

theorem not_midway {s : Snap} {stage : Storing} (h : ∀ i, stage ≠ .writing i ∧ stage ≠ .torn i) :
    ∀ r i, ¬ Store.Midway ⟨s, stage⟩ r i := by
  rintro r i ⟨-, hi | hi⟩
  · exact (h i).1 hi
  · exact (h i).2 hi

theorem ended_midway {stage : Storing} {i : Nat} :
    (stage.ended = .writing i ∨ stage.ended = .torn i) ↔ (stage = .writing i ∨ stage = .torn i) := by
  cases stage <;> simp [Storing.ended]

theorem Sound.rests (h : a.Sound snaps owners) (hk : a.stores[k]? = some t) :
    ({ a with stores := a.stores.set k t } : Archive).Sound snaps owners := by
  obtain ⟨hlt, rfl⟩ := List.getElem?_eq_some_iff.mp hk
  rw [List.set_getElem_self]
  exact h

/-- One step, whoever takes it. -/
theorem Sound.step (h : a.Sound snaps owners) (hsnaps : Collisionless snaps) {e : Archiving}
    (hbuilt : ∀ s, e = .start s → s.ts ≤ a.now ∧ s ∈ snaps) : ∃ owners', (a.step e).Sound snaps owners' := by
  cases e with
  | start s =>
    obtain ⟨hts, hs⟩ := hbuilt s rfl
    have hnot : ∀ r i, ¬ Store.Midway ⟨s, .checking⟩ r i := not_midway fun i => ⟨nofun, nofun⟩
    refine ⟨owners, { h with
      known := fun t ht => ?_
      midway := fun t ht r i hm => ?_
      content := fun i r node hi hnode => ?_ }⟩
    · rcases List.mem_append.mp ht with ht | ht
      · exact h.known t ht
      · rw [List.mem_singleton.mp ht]
        exact ⟨hs, hts⟩
    · rcases List.mem_append.mp ht with ht | ht
      · exact h.midway t ht r i hm
      · exact absurd (List.mem_singleton.mp ht ▸ hm) (hnot r i)
    · obtain ⟨hr, hbytes | ⟨t, ht, hm⟩⟩ := h.content i r node hi hnode
      · exact ⟨hr, .inl hbytes⟩
      · exact ⟨hr, .inr ⟨t, List.mem_append_left _ ht, hm⟩⟩
  | turn k =>
    rw [Archive.step]
    cases hk : a.stores[k]? with
    | none => exact ⟨owners, h⟩
    | some t =>
      obtain ⟨s, stage⟩ := t
      cases stage with
      | checking =>
        refine ⟨owners, h.passes hk (not_midway fun i => ⟨nofun, nofun⟩) (not_midway fun i => ?_)⟩
        dsimp only [turn]
        split <;> exact ⟨nofun, nofun⟩
      | opening => exact h.opens hsnaps hk (not_midway fun i => ⟨nofun, nofun⟩)
      | writing i =>
        have hnot : ∀ r i, ¬ Store.Midway ⟨s, .moving⟩ r i := not_midway fun i => ⟨nofun, nofun⟩
        exact ⟨owners, h.writes hk ⟨rfl, .inl rfl⟩ (fun r j hm => absurd hm (hnot r j)) (.inl rfl)⟩
      | moving =>
        have hnot : ∀ r i, ¬ Store.Midway ⟨s, .moving⟩ r i := not_midway fun i => ⟨nofun, nofun⟩
        dsimp only [turn]
        cases hdir : a.dir.rename s.tmp s.path with
        | none => exact ⟨owners, h.passes hk hnot (not_midway fun i => ⟨nofun, nofun⟩)⟩
        | some dir => exact ⟨owners, h.renames hsnaps hk hnot hdir⟩
      | stored | failed =>
        exact ⟨owners, h.passes hk (not_midway fun i => ⟨nofun, nofun⟩) (not_midway fun i => ⟨nofun, nofun⟩)⟩
      | torn i => exact ⟨owners, h.rests hk⟩
  | fail k n =>
    rw [Archive.step]
    cases hk : a.stores[k]? with
    | none => exact ⟨owners, h⟩
    | some t =>
      obtain ⟨s, stage⟩ := t
      cases stage with
      | checking | opening | moving | stored | failed =>
        exact ⟨owners, h.passes hk (not_midway fun i => ⟨nofun, nofun⟩) (not_midway fun i => ⟨nofun, nofun⟩)⟩
      | writing i =>
        refine ⟨owners, h.writes hk ⟨rfl, .inl rfl⟩ (fun r j hm => ?_) (.inr ⟨rfl, .inr rfl⟩)⟩
        obtain ⟨hr, hj | hj⟩ := hm
        · cases hj
        · exact ⟨hr.symm, (Storing.torn.inj hj).symm⟩
      | torn i => exact ⟨owners, h.rests hk⟩
  | tick secs =>
    refine ⟨owners, { h with known := fun t ht => ?_ }⟩
    exact ⟨(h.known t ht).1, (h.known t ht).2.trans (Nat.le_add_right ..)⟩
  | prune name keep =>
    rcases a.prune_cases name keep with heq | ⟨heq, -⟩ <;> rw [Archive.step, heq]
    · exact ⟨owners, h⟩
    · exact ⟨owners, h.removes name⟩
  | restart =>
    refine ⟨owners, { h with
      known := fun t ht => ?_
      midway := fun t ht s i hm => ?_
      content := fun i s node hi hnode => ?_ }⟩
    · obtain ⟨u, hu, rfl⟩ := List.mem_map.mp ht
      exact h.known u hu
    · obtain ⟨u, hu, rfl⟩ := List.mem_map.mp ht
      exact h.midway u hu s i ⟨hm.1, ended_midway.mp hm.2⟩
    · obtain ⟨hs, hbytes | ⟨t, ht, hm⟩⟩ := h.content i s node hi hnode
      · exact ⟨hs, .inl hbytes⟩
      · exact ⟨hs, .inr ⟨_, List.mem_map_of_mem ht, hm.1, ended_midway.mpr hm.2⟩⟩

theorem sound_empty (now : Nat) : (empty now).Sound snaps [] where
  length := rfl
  path _ _ _ h := by cases h
  tmp _ _ _ h := by cases h
  known _ h := by cases h
  midway _ h := by cases h
  content _ _ _ h := by simp at h

/-- A snapshot whose store succeeded is published. -/
def Holds (s : Snap) (a : Archive) : Prop := (⟨s, .stored⟩ : Store) ∈ a.stores → a.dir.names.get s.path ≠ none

/-- A store only adds to what is published. -/
theorem turn_path (a : Archive) (r s : Snap) (stage : Storing) (h : a.dir.names.get s.path ≠ none) :
    (a.turn r stage).1.names.get s.path ≠ none := by
  cases stage with
  | checking | writing | stored | failed | torn => exact h
  | opening =>
    dsimp only [turn]
    obtain ⟨i, hi, hcreate⟩ | ⟨-, -, -, hnames⟩ := a.dir.create_cases r.tmp a.now
    · rw [hcreate]
      exact h
    · rwa [hnames, if_neg (Snap.path_ne_tmp s r)]
  | moving =>
    dsimp only [turn]
    cases hdir : a.dir.rename r.tmp r.path with
    | none => exact h
    | some dir =>
      obtain ⟨i, -, -, hnames⟩ := Directory.rename_eq_some hdir
      dsimp only
      rw [hnames, if_neg (Snap.path_ne_tmp s r)]
      split
      · exact Option.some_ne_none i
      · exact h

/-- A store that comes to say so has published its snapshot. -/
theorem turn_stored {r : Snap} {stage : Storing} (h : (a.turn r stage).2 = .stored) :
    stage = .stored ∨ (a.turn r stage).1.names.get r.path ≠ none := by
  cases stage with
  | stored => exact .inl rfl
  | opening | writing | failed | torn => cases h
  | checking =>
    dsimp only [turn] at h ⊢
    split at h
    next hsome => exact .inr (Option.isSome_iff_ne_none.mp hsome)
    next => cases h
  | moving =>
    dsimp only [turn] at h ⊢
    cases hdir : a.dir.rename r.tmp r.path with
    | none =>
      rw [hdir] at h
      cases h
    | some dir =>
      obtain ⟨i, -, -, hnames⟩ := Directory.rename_eq_some hdir
      dsimp only
      rw [hnames, if_pos rfl]
      exact .inr (Option.some_ne_none i)

theorem fail_names (a : Archive) (r : Snap) (n : Nat) (stage : Storing) : (a.fail r n stage).1.names = a.dir.names := by
  cases stage <;> rfl

theorem fail_stored {r : Snap} {n : Nat} {stage : Storing} (h : (a.fail r n stage).2 = .stored) : stage = .stored := by
  cases stage with
  | stored => rfl
  | checking | opening | writing | moving | failed | torn => cases h

/-- What was published stays so, but for a prune. -/
theorem Holds.step {s : Snap} (hs : a.Holds s) (h : a.Sound snaps owners) (hmem : s ∈ snaps) {e : Archiving}
    (hspared : ∀ name keep, e = .prune name keep → a.now ≤ s.ts + keepSecs ∨ s.hex ∈ keep) : (a.step e).Holds s := by
  intro hstored
  cases e with
  | start r =>
    rcases List.mem_append.mp hstored with hstored | hstored
    · exact hs hstored
    · cases List.mem_singleton.mp hstored
  | turn k =>
    rw [Archive.step] at hstored ⊢
    cases hk : a.stores[k]? with
    | none =>
      rw [hk] at hstored
      exact hs hstored
    | some t =>
      rw [hk] at hstored
      rcases List.mem_or_eq_of_mem_set hstored with hstored | heq
      · exact a.turn_path t.snap s t.stage (hs hstored)
      · obtain ⟨hsnap, hstage⟩ := Store.mk.inj heq
        rcases turn_stored hstage.symm with hbefore | hpath
        · refine a.turn_path t.snap s t.stage (hs ?_)
          rw [hsnap, ← hbefore]
          exact List.mem_of_getElem? hk
        · dsimp only
          rw [hsnap]
          exact hpath
  | fail k n =>
    rw [Archive.step] at hstored ⊢
    cases hk : a.stores[k]? with
    | none =>
      rw [hk] at hstored
      exact hs hstored
    | some t =>
      rw [hk] at hstored
      dsimp only
      rw [fail_names]
      rcases List.mem_or_eq_of_mem_set hstored with hstored | heq
      · exact hs hstored
      · obtain ⟨hsnap, hstage⟩ := Store.mk.inj heq
        refine hs ?_
        rw [hsnap, ← fail_stored hstage.symm]
        exact List.mem_of_getElem? hk
  | tick secs => exact hs hstored
  | prune name keep =>
    rw [Archive.step]
    obtain heq | ⟨heq, hkeep, node, hnode, hold⟩ := a.prune_cases name keep
    · rw [heq]
      exact hs hstored
    · rw [heq, Directory.get_remove, if_neg]
      · exact hs hstored
      · rintro rfl
        rcases hspared _ keep rfl with hyoung | hkept
        · obtain ⟨i, hi, hinode⟩ := Option.bind_eq_some_iff.mp hnode
          have hts := (h.content i s node (h.path s hmem i hi) hinode).1
          omega
        · exact hkeep s.hex hkept rfl
  | restart =>
    obtain ⟨t, ht, heq⟩ := List.mem_map.mp hstored
    obtain ⟨hsnap, hstage⟩ := Store.mk.inj heq
    refine hs ?_
    rw [← hsnap]
    cases hst : t.stage with
    | stored =>
      rw [← hst]
      exact ht
    | checking | opening | writing | moving | failed | torn =>
      rw [hst] at hstage
      cases hstage

theorem Sound.run (h : a.Sound snaps owners) (hsnaps : Collisionless snaps) {es : List Archiving}
    (hbuilt : Built snaps a es) :
    (∃ owners', (a.run es).Sound snaps owners') ∧
      ∀ s ∈ snaps, a.Holds s → Spares s a es → (a.run es).Holds s := by
  induction es generalizing a owners with
  | nil => exact ⟨⟨owners, h⟩, fun s _ hs _ => hs⟩
  | cons e es ih =>
    obtain ⟨hfirst, hrest⟩ := hbuilt
    have hstart : ∀ s, e = .start s → s.ts ≤ a.now ∧ s ∈ snaps := by
      rintro s rfl
      exact hfirst
    obtain ⟨owners', hstep⟩ := h.step hsnaps hstart
    obtain ⟨hsound, hholds⟩ := ih hstep hrest
    refine ⟨hsound, fun s hmem hs hspared => ?_⟩
    have hprune : ∀ name keep, e = .prune name keep → a.now ≤ s.ts + keepSecs ∨ s.hex ∈ keep := by
      rintro name keep rfl
      exact hspared.1
    exact hholds s hmem (hs.step h hmem hprune) hspared.2

end Archive

theorem hexDigit_ascii : ∀ n < 16, (Snapshot.hexDigit n).utf8Size = 1 ∧
    ((Snapshot.hexDigit n).isDigit || ('a' ≤ Snapshot.hexDigit n && Snapshot.hexDigit n ≤ 'f')) = true := by decide

theorem length_hexEncode (bytes : Bytes) : (Snapshot.hexEncode bytes).utf8ByteSize = 2 * bytes.length := by
  rw [Snapshot.hexEncode, String.utf8ByteSize_ofList]
  induction bytes with
  | nil => rfl
  | cons x bytes ih =>
    have hx := x.toNat_lt
    rw [List.flatMap_cons, List.cons_append, List.cons_append, List.nil_append, String.utf8Len_cons,
      String.utf8Len_cons, ih, (hexDigit_ascii _ (by omega)).1, (hexDigit_ascii _ (by omega)).1, List.length_cons]
    omega

theorem hexEncode_hex (bytes : Bytes) : (Snapshot.hexEncode bytes).toList.all
    (fun c => c.isDigit || ('a' ≤ c && c ≤ 'f') || ('A' ≤ c && c ≤ 'F')) = true := by
  rw [Snapshot.hexEncode, String.toList_ofList, List.all_flatMap]
  refine List.all_eq_true.mpr fun x _ => ?_
  have hx := x.toNat_lt
  have hhigh := (hexDigit_ascii (x.toNat / 16) (by omega)).2
  have hlow := (hexDigit_ascii (x.toNat % 16) (by omega)).2
  rw [List.all_cons, List.all_cons, hhigh, hlow]
  rfl

/-- The name of a snapshot is one that can be asked for. -/
theorem Archive.load_hex (a : Archive) {s : Snap} (h : s.hash.length = 32) : a.load s.hex = a.dir.read s.path := by
  rw [Archive.load, if_neg]
  · rfl
  · rw [not_or, not_not, not_not]
    exact ⟨by rw [Snap.hex, length_hexEncode, h], hexEncode_hex s.hash⟩

/-- Under every interleaving of stores, prunes, failed writes and restarts: a snapshot whose store succeeded, and
that every prune came early enough for or was told to keep, is found under its hash; and what is found there is the
bytes that were hashed, unless another store of the same snapshot is midway or was torn. -/
theorem published_snapshot {snaps : List Snap} (hsnaps : Collisionless snaps) {now : Nat} {es : List Archiving}
    (hbuilt : Archive.Built snaps (.empty now) es) {s : Snap} (hs : s ∈ snaps) (hhash : s.hash.length = 32) :
    let a := (Archive.empty now).run es
    ((⟨s, .stored⟩ : Store) ∈ a.stores → Archive.Spares s (.empty now) es → (a.load s.hex).isSome = true) ∧
      ∀ bytes, a.load s.hex = some bytes → bytes = s.canonical ∨ ∃ t ∈ a.stores, ∃ i, t.Midway s i := by
  intro a
  obtain ⟨⟨owners, hsound⟩, hholds⟩ := (Archive.sound_empty now).run hsnaps hbuilt
  rw [a.load_hex hhash, Directory.read]
  refine ⟨fun hstored hspared => ?_, fun bytes hbytes => ?_⟩
  · have hnone : (Archive.empty now).Holds s := fun h => by cases h
    obtain ⟨i, hi⟩ := Option.ne_none_iff_exists'.mp (hholds s hs hnone hspared hstored)
    have hlt := a.dir.linked s.path i hi
    rw [Directory.inode, hi, Option.bind_some, List.getElem?_eq_getElem hlt]
    rfl
  · obtain ⟨node, hnode, rfl⟩ := Option.map_eq_some_iff.mp hbytes
    obtain ⟨i, hi, hinode⟩ := Option.bind_eq_some_iff.mp hnode
    obtain ⟨-, heq | ⟨t, ht, hm⟩⟩ := hsound.content i s node (hsound.path s hs i hi) hinode
    · exact .inl heq
    · exact .inr ⟨t, ht, i, hm⟩

/-- A block's snapshot, gone through two days later. -/
def minedSnap : Snap := ⟨List.replicate 32 7, [1, 2, 3], 900⟩

def minedRun : List Archiving :=
  [.start minedSnap, .turn 0, .turn 0, .turn 0, .turn 0, .tick 200000, .prune minedSnap.path [minedSnap.hex]]

theorem published_snapshot_kept : (((Archive.empty 1000).run minedRun).load minedSnap.hex).isSome = true := by
  have hsnaps : Collisionless [minedSnap] := by simp [Collisionless]
  have hbuilt : Archive.Built [minedSnap] (.empty 1000) minedRun :=
    ⟨⟨by decide, List.mem_singleton_self _⟩, trivial, trivial, trivial, trivial, trivial, trivial, trivial⟩
  refine (published_snapshot hsnaps hbuilt (List.mem_singleton_self _) rfl).1 ?_ ?_
  · decide +kernel
  · exact ⟨trivial, trivial, trivial, trivial, trivial, trivial, .inr (List.mem_singleton_self _), trivial⟩

end WaviclesPrime.Primed
