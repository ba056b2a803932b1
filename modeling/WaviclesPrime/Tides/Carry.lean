import WaviclesPrime.Tides.CarryRun

/-! The carry-forward ledger, sats owed to identities and paid by later coinbases, and the block
records that feed it. -/
namespace WaviclesPrime.Tides
open Machine

structure Carry where
  owed : OrdMap Identity Nat
  deriving DecidableEq

namespace Carry

def empty : Carry := ⟨.empty⟩

/-- Owe `sats` more to `identity`. -/
def add (c : Carry) (identity : Identity) (sats : Nat) : Carry :=
  if sats = 0 then c
  else ⟨c.owed.insert identity (satAdd sizeU64 ((c.owed.get identity).getD 0) sats)⟩

/-- `identity` was paid `sats` of its carry by a coinbase. -/
def settle (c : Carry) (identity : Identity) (sats : Nat) : Carry :=
  match c.owed.get identity with
  | none => c
  | some e => if e - sats = 0 then ⟨c.owed.erase identity⟩ else ⟨c.owed.insert identity (e - sats)⟩

/-- What the ledger owes an identity. -/
def due (c : Carry) (i : Identity) : Nat := (c.owed.get i).getD 0

@[simp] theorem due_empty (i : Identity) : empty.due i = 0 := rfl

/-- The entries owe an identity its balance. -/
theorem amountOf_entries (c : Carry) (i : Identity) : amountOf i c.owed.entries = c.due i := by
  unfold due
  cases hg : c.owed.get i with
  | none =>
    refine amountOf_of_notMem fun hmem => ?_
    obtain ⟨e, he, rfl⟩ := List.mem_map.mp hmem
    cases hg.symm.trans (c.owed.get_of_mem he)
  | some owed => exact amountOf_of_mem c.owed.keys_nodup (c.owed.mem_of_get hg)

/-- Settling takes what is there, and nothing from anybody else. -/
@[simp] theorem due_settle (c : Carry) (i j : Identity) (sats : Nat) :
    (c.settle i sats).due j = c.due j - if i = j then sats else 0 := by
  unfold settle due
  cases hg : c.owed.get i with
  | none =>
    by_cases hij : i = j
    · subst hij; simp [hg]
    · simp [hij]
  | some e =>
    by_cases hij : i = j
    · subst hij
      dsimp only
      split
      next hz => simp [hg, hz]
      next => simp [hg]
    · dsimp only
      split <;> simp [Ne.symm hij]

theorem due_add_le (c : Carry) (i j : Identity) (sats : Nat) :
    (c.add i sats).due j ≤ c.due j + if i = j then sats else 0 := by
  unfold add due
  by_cases hz : sats = 0
  · simp [hz]
  · rw [if_neg hz]
    by_cases hij : i = j
    · subst hij; simpa using satAdd_le _ _ _
    · simp [Ne.symm hij]

/-- Adding for an identity is exact up to the largest word, and nothing for anybody else. -/
theorem due_add (c : Carry) (i j : Identity) (sats : Nat) (h : c.due j < sizeU64) :
    (c.add i sats).due j = min (c.due j + if i = j then sats else 0) (sizeU64 - 1) := by
  have hle : c.due j ≤ sizeU64 - 1 := Nat.le_sub_one_of_lt h
  by_cases hz : sats = 0
  · rw [add, if_pos hz, hz, ite_self, Nat.add_zero, Nat.min_eq_left hle]
  · rw [add, if_neg hz]
    by_cases hij : i = j
    · subst hij
      simp [due, satAdd]
    · rw [if_neg hij, Nat.add_zero, Nat.min_eq_left hle]
      simp [due, Ne.symm hij]

/-- Settle a list of payments, one after another. -/
def settleAll (c : Carry) (paid : List (Identity × Nat)) : Carry :=
  paid.foldl (fun c e => c.settle e.1 e.2) c

def addAll (c : Carry) (unpaid : List (Identity × Nat)) : Carry :=
  unpaid.foldl (fun c e => c.add e.1 e.2) c

theorem due_settleAll (c : Carry) (paid : List (Identity × Nat)) (i : Identity) :
    (c.settleAll paid).due i = c.due i - amountOf i paid := by
  induction paid generalizing c with
  | nil => simp [settleAll]
  | cons e paid ih =>
    have hstep := ih (c.settle e.1 e.2)
    simp only [settleAll, List.foldl_cons, due_settle, amountOf, List.map_cons, List.sum_cons]
      at hstep ⊢
    omega

theorem due_addAll_le (c : Carry) (unpaid : List (Identity × Nat)) (i : Identity) :
    (c.addAll unpaid).due i ≤ c.due i + amountOf i unpaid := by
  induction unpaid generalizing c with
  | nil => simp [addAll]
  | cons e unpaid ih =>
    have hstep := ih (c.add e.1 e.2)
    have hadd := due_add_le c e.1 i e.2
    simp only [addAll, List.foldl_cons, amountOf, List.map_cons, List.sum_cons] at hstep ⊢
    omega

/-- A balance grows by all that is added for it, up to the largest word. -/
theorem due_addAll (c : Carry) (unpaid : List (Identity × Nat)) (i : Identity) (h : c.due i < sizeU64) :
    (c.addAll unpaid).due i = min (c.due i + amountOf i unpaid) (sizeU64 - 1) := by
  induction unpaid generalizing c with
  | nil => exact (Nat.min_eq_left (Nat.le_sub_one_of_lt h)).symm
  | cons e unpaid ih =>
    have hcons : amountOf i (e :: unpaid) = (if e.1 = i then e.2 else 0) + amountOf i unpaid := rfl
    have hstep := c.due_add e.1 i e.2 h
    have hfit : (c.add e.1 e.2).due i < sizeU64 := by
      rw [hstep]
      exact Nat.lt_of_le_of_lt (Nat.min_le_right _ _) (by decide)
    have hrest := ih (c.add e.1 e.2) hfit
    rw [hstep] at hrest
    rw [hcons]
    simp only [addAll, List.foldl_cons] at hrest ⊢
    omega

/-- What the settlement of a block does: the carry it paid comes off, what it left unpaid goes on. -/
def applied (c : Carry) (carryPaid unpaid : List (Identity × Nat)) : Carry :=
  (c.settleAll carryPaid).addAll unpaid

theorem due_applied_le (c : Carry) (carryPaid unpaid : List (Identity × Nat)) (i : Identity) :
    (c.applied carryPaid unpaid).due i ≤ c.due i - amountOf i carryPaid + amountOf i unpaid :=
  (due_addAll_le ..).trans_eq (by rw [due_settleAll])

theorem due_applied (c : Carry) (carryPaid unpaid : List (Identity × Nat)) (i : Identity)
    (h : c.due i < sizeU64) : (c.applied carryPaid unpaid).due i =
      min (c.due i - amountOf i carryPaid + amountOf i unpaid) (sizeU64 - 1) := by
  have hless : (c.settleAll carryPaid).due i = c.due i - amountOf i carryPaid := c.due_settleAll carryPaid i
  rw [applied, due_addAll _ _ _ (by omega), hless]

end Carry

inductive BlockKind where
  | split
  | partialSplit
  | poolOnly
  | unknown
  deriving DecidableEq, Repr

/-- A found block. `orphan` is the prefix a kind carries while its block is off the main chain. -/
structure BlockRecord where
  ts : Nat
  height : UInt32
  hash : String
  finder : Option Identity
  coinbaseValue : Nat
  kind : BlockKind
  orphan : Bool
  owedSats : Nat
  split : List (Identity × Nat)
  poolSats : Nat
  settled : Bool
  submit : String
  gateway : String
  unpaid : List (Identity × Nat)
  carryPaid : List (Identity × Nat)
  snapshot : String
  carried : Bool
  deriving DecidableEq

end WaviclesPrime.Tides
