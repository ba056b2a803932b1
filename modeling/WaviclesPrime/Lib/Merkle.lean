import Mathlib.Tactic.Common

/-! Hash trees over a list of nodes, and the branch that leads from the first node to the root. -/
namespace WaviclesPrime.Merkle

variable {α : Type} (node : α → α → α)

/-- The level above: neighbours are paired, and an odd last node is paired with itself. -/
def parents : List α → List α
  | [] => []
  | [a] => [node a a]
  | a :: b :: rest => node a b :: parents rest

@[simp] theorem length_parents (level : List α) : (parents node level).length = (level.length + 1) / 2 := by
  induction level using parents.induct with
  | case1 => simp [parents]
  | case2 a => simp [parents]
  | case3 a b rest ih =>
    rw [parents, List.length_cons, ih, List.length_cons, List.length_cons]
    omega

/-- The one node that is left of a level. -/
def root : List α → Option α
  | [] => none
  | [a] => some a
  | a :: b :: rest => root (parents node (a :: b :: rest))
termination_by level => level.length
decreasing_by
  rw [length_parents, List.length_cons, List.length_cons]
  omega

/-- The siblings on the way up from the first node, given what follows it. -/
def branch : List α → List α
  | [] => []
  | sibling :: rest => sibling :: branch (parents node rest)
termination_by others => others.length
decreasing_by
  rw [length_parents, List.length_cons]
  omega

/-- Folding its branch into the first node gives the root. -/
theorem root_eq_fold (first : α) (others : List α) :
    root node (first :: others) = some ((branch node others).foldl node first) := by
  induction others using branch.induct node generalizing first with
  | case1 => rw [root, branch, List.foldl_nil]
  | case2 sibling rest ih => rw [root, parents, ih, branch, List.foldl_cons]

end WaviclesPrime.Merkle
