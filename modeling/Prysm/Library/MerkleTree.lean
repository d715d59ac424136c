import Mathlib.Tactic.Ring

/-!
# Binary hash trees

A complete binary tree over the leaves of a sequence, where every node is the combination of its two
children.  A node is named by its height and its position among the nodes of that height, so that
the children of the node at position `p` stand at positions `2 * p` and `2 * p + 1` and the node
above a leaf at height `h` is the one at position `index / 2 ^ h`.

The branch of a leaf holds the siblings of the nodes above it, lowest first, and climbing along it
from the leaf reaches the node at its end.  A node depends on the leaves below it only, and above
leaves that are all the same it depends on its height only.
-/

namespace Prysm.Library

variable {α : Type*} (combine : α → α → α)

/-- The node at a height and a position of the tree over a sequence of leaves. -/
def merkleNode (leaf : ℕ → α) : ℕ → ℕ → α
  | 0, position => leaf position
  | height + 1, position =>
    combine (merkleNode leaf height (2 * position)) (merkleNode leaf height (2 * position + 1))

/-- The node of a height above leaves that are all the same. -/
def emptyNode (zero : α) : ℕ → α
  | 0 => zero
  | height + 1 => combine (emptyNode zero height) (emptyNode zero height)

/-- The position of the other child of the same node. -/
def sibling (position : ℕ) : ℕ :=
  if position % 2 = 1 then position - 1 else position + 1

variable (leaf : ℕ → α) (height index pos : ℕ)

/-- The siblings of the nodes above a leaf, up to a height and lowest first. -/
def branch (height index : ℕ) : List α :=
  (List.range height).map fun level ↦ merkleNode combine leaf level (sibling (index / 2 ^ level))

/-- The node reached from a node by combining it with the siblings of a branch. -/
def climb : List α → ℕ → α → α
  | [], _, node => node
  | other :: rest, position, node =>
    climb rest (position / 2) (if position % 2 = 1 then combine other node else combine node other)

/-- The first leaf below the node at a height and a position. -/
def blockStart (height position : ℕ) : ℕ := position * 2 ^ height

@[simp]
theorem blockStart_zero_left : blockStart 0 pos = pos := by
  simp [blockStart]

@[simp]
theorem blockStart_zero_right : blockStart height 0 = 0 := by
  simp [blockStart]

theorem blockStart_left : blockStart height (2 * pos) = blockStart (height + 1) pos := by
  unfold blockStart
  ring

theorem blockStart_right :
    blockStart height (2 * pos + 1) = blockStart (height + 1) pos + 2 ^ height := by
  unfold blockStart
  ring

/-- The blocks below the two children of a node are the halves of its block. -/
theorem blockStart_children :
    blockStart height (2 * pos) = blockStart (height + 1) pos ∧
      blockStart height (2 * pos + 1) = blockStart (height + 1) pos + 2 ^ height ∧
      2 ^ (height + 1) = 2 ^ height + 2 ^ height ∧ 0 < 2 ^ height :=
  ⟨blockStart_left height pos, blockStart_right height pos, by ring, Nat.two_pow_pos height⟩

theorem blockStart_div_le : blockStart height (index / 2 ^ height) ≤ index :=
  Nat.div_mul_le_self index (2 ^ height)

theorem lt_blockStart_div_add : index < blockStart height (index / 2 ^ height) + 2 ^ height :=
  Nat.lt_div_mul_add (Nat.two_pow_pos height)

theorem div_two_pow_succ (height : ℕ) : index / 2 ^ (height + 1) = index / 2 ^ height / 2 := by
  rw [pow_succ, Nat.div_div_eq_div_mul]

variable {combine}

/-- A node depends on the leaves below it only. -/
theorem merkleNode_congr {leaf other : ℕ → α} {height pos : ℕ}
    (hagree : ∀ i, blockStart height pos ≤ i → i < blockStart height pos + 2 ^ height →
      leaf i = other i) :
    merkleNode combine leaf height pos = merkleNode combine other height pos := by
  induction height generalizing pos with
  | zero => exact hagree pos (by simp) (by simp)
  | succ height ih =>
    obtain ⟨hleft, hright, hpow, -⟩ := blockStart_children height pos
    unfold merkleNode
    rw [ih fun i hfrom hto ↦ hagree i (by omega) (by omega),
      ih fun i hfrom hto ↦ hagree i (by omega) (by omega)]

theorem merkleNode_const (zero : α) (height pos : ℕ) :
    merkleNode combine (fun _ ↦ zero) height pos = emptyNode combine zero height := by
  induction height generalizing pos with
  | zero => rfl
  | succ height ih => rw [merkleNode, ih, ih, emptyNode]

@[simp]
theorem length_branch : (branch combine leaf height index).length = height := by
  simp [branch]

theorem branch_succ :
    branch combine leaf (height + 1) index = branch combine leaf height index ++
      [merkleNode combine leaf height (sibling (index / 2 ^ height))] := by
  simp [branch, List.range_succ]

/-- A node is the combination of the node of the path below it with its sibling. -/
theorem merkleNode_succ_div :
    merkleNode combine leaf (height + 1) (pos / 2) =
      if pos % 2 = 1 then
        combine (merkleNode combine leaf height (sibling pos)) (merkleNode combine leaf height pos)
      else combine (merkleNode combine leaf height pos)
        (merkleNode combine leaf height (sibling pos)) := by
  rw [merkleNode, sibling]
  split_ifs with hodd
  · rw [show 2 * (pos / 2) = pos - 1 by omega, show pos - 1 + 1 = pos by omega]
  · rw [show 2 * (pos / 2) = pos by omega]

theorem climb_append (first second : List α) (pos : ℕ) (node : α) :
    climb combine (first ++ second) pos node =
      climb combine second (pos / 2 ^ first.length) (climb combine first pos node) := by
  induction first generalizing pos node with
  | nil => simp [climb]
  | cons other rest ih =>
    rw [List.cons_append, climb, ih, climb, List.length_cons, pow_succ', Nat.div_div_eq_div_mul]

/-- Climbing along the branch of a leaf reaches the node above it. -/
theorem climb_branch :
    climb combine (branch combine leaf height index) index (leaf index) =
      merkleNode combine leaf height (index / 2 ^ height) := by
  induction height with
  | zero => simp [branch, climb, merkleNode]
  | succ height ih =>
    rw [branch_succ, climb_append, ih, length_branch, div_two_pow_succ, merkleNode_succ_div]
    rfl

end Prysm.Library

