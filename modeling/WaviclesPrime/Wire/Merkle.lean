import WaviclesPrime.Lib.Merkle
import WaviclesPrime.Wire.Verify

/-! The merkle branches of a coinbase, and the tree they fold to. -/
namespace WaviclesPrime.Wire

section
variable (sha256d : Bytes → Hash)

def concatHash (a b : Hash) : Hash := sha256d (a.toList ++ b.toList)

/-- The fold of `merkleRoot` over any double hash. -/
def merkleRootOf (txid : Hash) (branches : List Hash) : Hash := branches.foldl (concatHash sha256d) txid

/-- A pair on the coinbase's path has no hash yet. -/
def hashPair : Option Hash → Option Hash → Option Hash
  | some a, some b => some (concatHash sha256d a b)
  | _, _ => none

/-- The pairs of a level. A chunk of one has no second node to read. -/
def hashPairs : List (Option Hash) → Option (List (Option Hash))
  | [] => some []
  | [_] => none
  | a :: b :: rest => (hashPairs rest).map (hashPair sha256d a b :: ·)

end

/-- An odd level gets its last node again. -/
def padOdd {α : Type} (level : List α) : List α :=
  if level.length % 2 = 1 then level ++ level.getLast?.toList else level

theorem length_padOdd_le {α : Type} (level : List α) : (padOdd level).length ≤ level.length + 1 := by
  unfold padOdd
  split
  · cases level.getLast? with
    | none => simp
    | some last => simp
  · omega

section
variable {sha256d : Bytes → Hash}

theorem length_hashPairs {level next : List (Option Hash)} (h : hashPairs sha256d level = some next) :
    2 * next.length = level.length := by
  induction level using hashPairs.induct generalizing next with
  | case1 =>
    obtain rfl := Option.some.inj h
    rfl
  | case2 a => cases h
  | case3 a b rest ih =>
    obtain ⟨up, hup, rfl⟩ := Option.map_eq_some_iff.mp h
    rw [List.length_cons, List.length_cons, List.length_cons, ← ih hup]
    omega

end

section
variable (sha256d : Bytes → Hash)

/-- Take the sibling of the path, and go a level up, until one node is left. -/
def climb (level : List (Option Hash)) (branches : List Hash) : Option (List Hash) :=
  if 1 < level.length then
    match level[1]?.join, h : hashPairs sha256d (padOdd level) with
    | some sibling, some next => climb next (branches ++ [sibling])
    | _, _ => none
  else some branches
termination_by level.length
decreasing_by
  have hhalf := length_hashPairs h
  have hpad := length_padOdd_le level
  omega

/-- The branches a gateway would send; none where the source panics. -/
def merkleBranchesForCoinbase (txids : List Hash) : Option (List Hash) :=
  climb sha256d (none :: txids.map some) []

end

section
variable {sha256d : Bytes → Hash}

theorem padOdd_cons_cons {α : Type} (a b : α) (rest : List α) : padOdd (a :: b :: rest) = a :: b :: padOdd rest := by
  have hparity : (a :: b :: rest).length % 2 = rest.length % 2 := by
    rw [List.length_cons, List.length_cons]
    omega
  unfold padOdd
  rw [hparity]
  split
  next hodd =>
    cases rest with
    | nil => cases hodd
    | cons c rest => rw [List.getLast?_cons_cons, List.getLast?_cons_cons, List.cons_append, List.cons_append]
  next => rfl

/-- A padded level of hashes has the hashes of its pairs above it. -/
theorem hashPairs_padOdd (level : List Hash) : hashPairs sha256d (padOdd (level.map some)) =
    some ((Merkle.parents (concatHash sha256d) level).map some) := by
  induction level using Merkle.parents.induct with
  | case1 => simp [padOdd, hashPairs, Merkle.parents]
  | case2 a => simp [padOdd, hashPairs, Merkle.parents, hashPair]
  | case3 a b rest ih =>
    rw [List.map_cons, List.map_cons, padOdd_cons_cons, hashPairs, ih, Merkle.parents, List.map_cons]
    rfl

/-- The loop collects the branch of the coinbase, whatever it has collected before. -/
theorem climb_eq (others branches : List Hash) : climb sha256d (none :: others.map some) branches =
    some (branches ++ Merkle.branch (concatHash sha256d) others) := by
  induction others using Merkle.branch.induct (concatHash sha256d) generalizing branches with
  | case1 =>
    rw [climb, Merkle.branch, List.append_nil]
    rfl
  | case2 sibling rest ih =>
    have hup : hashPairs sha256d (padOdd (none :: (sibling :: rest).map some)) =
        some (none :: (Merkle.parents (concatHash sha256d) rest).map some) := by
      rw [List.map_cons, padOdd_cons_cons, hashPairs, hashPairs_padOdd]
      rfl
    rw [climb, if_pos (by simp)]
    split
    next sibling' next hsibling hnext =>
      obtain rfl : sibling = sibling' := Option.some.inj hsibling
      obtain rfl := Option.some.inj (hup.symm.trans hnext)
      rw [ih, Merkle.branch, List.append_assoc, List.singleton_append]
    next hnone => exact absurd hup (hnone _ _ rfl)

theorem merkleBranches_eq (txids : List Hash) : merkleBranchesForCoinbase sha256d txids =
    some (Merkle.branch (concatHash sha256d) txids) := by
  rw [merkleBranchesForCoinbase, climb_eq, List.nil_append]

/-- For every list of transactions the branches are found, and fold the coinbase into the root of
the whole tree. -/
theorem branches_fold_to_root (sha256d : Bytes → Hash) (txid : Hash) (txids : List Hash) :
    ∃ branches, merkleBranchesForCoinbase sha256d txids = some branches ∧
      Merkle.root (concatHash sha256d) (txid :: txids) = some (merkleRootOf sha256d txid branches) :=
  ⟨_, merkleBranches_eq txids, Merkle.root_eq_fold (concatHash sha256d) txid txids⟩

end

/-- The root that is hashed for a job with these branches is that of its coinbase and transactions. -/
theorem Attempt.merkleRoot_tree {H : Digests} {a : Attempt} {txids : List Hash}
    (h : merkleBranchesForCoinbase (sha256d H) txids = some a.job.merkleBranches) :
    Merkle.root (concatHash (sha256d H)) (sha256d H a.legacy :: txids) = some (a.merkleRoot H) := by
  have hbranch : Merkle.branch (concatHash (sha256d H)) txids = a.job.merkleBranches :=
    Option.some.inj ((merkleBranches_eq txids).symm.trans h)
  rw [Merkle.root_eq_fold, hbranch]
  rfl

end WaviclesPrime.Wire
