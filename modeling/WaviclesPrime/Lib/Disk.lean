import WaviclesPrime.Lib.KeyMap

/-! A directory: names, and the files they lead to, which a rename moves and a writer may still have open. -/
namespace WaviclesPrime

structure Inode where
  content : List UInt8
  mtime : Nat

structure Directory where
  names : KeyMap String Nat
  inodes : List Inode
  linked : ∀ n i, names.get n = some i → i < inodes.length

namespace Directory

def empty : Directory := ⟨.empty, [], fun _ _ h => by simp at h⟩

def inode (d : Directory) (n : String) : Option Inode := (d.names.get n).bind fun i => d.inodes[i]?

def read (d : Directory) (n : String) : Option (List UInt8) := (d.inode n).map Inode.content

/-- Write over a file that is open, whatever its name is by now. -/
def write (d : Directory) (i : Nat) (content : List UInt8) (now : Nat) : Directory where
  names := d.names
  inodes := d.inodes.set i ⟨content, now⟩
  linked n j h := by
    rw [List.length_set]
    exact d.linked n j h

/-- Open a file, emptied if it was there. -/
def create (d : Directory) (n : String) (now : Nat) : Nat × Directory :=
  match d.names.get n with
  | some i => (i, d.write i [] now)
  | none =>
    (d.inodes.length,
      { names := d.names.insert n d.inodes.length
        inodes := d.inodes ++ [⟨[], now⟩]
        linked := fun m j h => by
          rw [KeyMap.get_insert] at h
          rw [List.length_append, List.length_singleton]
          split at h
          · obtain rfl := Option.some.inj h
            exact Nat.lt_succ_self _
          · exact Nat.lt_succ_of_lt (d.linked m j h) })

/-- Give a file another name, in place of what had it. -/
def rename (d : Directory) (n m : String) : Option Directory :=
  match hn : d.names.get n with
  | none => none
  | some i => some
    { names := (d.names.erase n).insert m i
      inodes := d.inodes
      linked := fun k j h => by
        rw [KeyMap.get_insert, KeyMap.get_erase] at h
        split at h
        · exact Option.some.inj h ▸ d.linked n i hn
        · split at h
          · cases h
          · exact d.linked k j h }

def remove (d : Directory) (n : String) : Directory where
  names := d.names.erase n
  inodes := d.inodes
  linked k j h := by
    rw [KeyMap.get_erase] at h
    split at h
    · cases h
    · exact d.linked k j h

variable {d : Directory} {n m : String} {i now : Nat} {content : List UInt8}

@[simp] theorem names_write : (d.write i content now).names = d.names := rfl

@[simp] theorem inodes_write : (d.write i content now).inodes = d.inodes.set i ⟨content, now⟩ := rfl

@[simp] theorem inodes_remove : (d.remove n).inodes = d.inodes := rfl

@[simp] theorem get_remove (k : String) : (d.remove n).names.get k = if k = n then none else d.names.get k :=
  KeyMap.get_erase ..

/-- A file is found open under its name, with nothing in it, and every other name leads where it led. -/
theorem create_cases (d : Directory) (n : String) (now : Nat) :
    (∃ i, d.names.get n = some i ∧ d.create n now = (i, d.write i [] now)) ∨
    (d.names.get n = none ∧ (d.create n now).1 = d.inodes.length ∧
      (d.create n now).2.inodes = d.inodes ++ [⟨[], now⟩] ∧
      ∀ k, (d.create n now).2.names.get k = if k = n then some d.inodes.length else d.names.get k) := by
  unfold create
  split
  next i hi => exact .inl ⟨i, hi, rfl⟩
  next hnone => exact .inr ⟨hnone, rfl, rfl, fun k => KeyMap.get_insert ..⟩

theorem rename_eq_some {d' : Directory} (h : d.rename n m = some d') :
    ∃ i, d.names.get n = some i ∧ d'.inodes = d.inodes ∧
      ∀ k, d'.names.get k = if k = m then some i else if k = n then none else d.names.get k := by
  unfold rename at h
  split at h
  next => cases h
  next i hn =>
    obtain rfl := Option.some.inj h
    refine ⟨i, hn, rfl, fun k => ?_⟩
    rw [KeyMap.get_insert, KeyMap.get_erase]

end Directory
end WaviclesPrime
