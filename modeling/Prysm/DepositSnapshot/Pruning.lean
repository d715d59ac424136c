import Mathlib.Data.List.GetD
import Prysm.DepositSnapshot.Snapshot

/-!
# The pruned deposit tree

What the deposit tree is for: it stands for the deposits pushed so far, of which the first ones are
finalized.  The nodes of the tree are a function of the two (`treeOf`), and pushing a leaf,
finalizing and rebuilding from a snapshot change the tree as they change the deposits.  Finalized
leaves enter the tree through the hashes of full blocks only, so a tree rebuilt from a snapshot and
the leaves after it is the tree itself.
-/

namespace Prysm.DepositSnapshot

open List hiding Vector
open Prysm.Library Prysm.Helpers MerkleTreeNode Nat

section Specification

variable (hash : HashFunc) (leaves : List Bytes32)

/-- The leaves in their order, followed by zeros. -/
def paddedLeaf (index : ℕ) : Bytes32 :=
  leaves.getD index (Vector.replicate 32 0)

/-- A node of the zero-padded Merkle tree over the leaves. -/
def nodeOf (depth position : ℕ) : Bytes32 :=
  merkleNode (hashPair hash) (paddedLeaf leaves) depth position

/-- The root of the zero-padded Merkle tree over the leaves, with their number mixed in. -/
def depositRoot : Bytes32 :=
  hashPair hash (nodeOf hash leaves depositContractDepth 0)
    (uint64ToBytesLittleEndian32 leaves.length)

/-- The branch of a leaf up to that root. -/
def depositBranch (index : ℕ) : List Bytes32 :=
  branch (hashPair hash) (paddedLeaf leaves) depositContractDepth index ++
    [uint64ToBytesLittleEndian32 leaves.length]

/-- The node of the deposit tree at a depth and a position when the first leaves are finalized. -/
def treeOf (leaves : List Bytes32) (finalized : ℕ) : ℕ → ℕ → MerkleTreeNode
  | 0, position =>
    if position + 1 ≤ finalized then .finalizedNode 1 (paddedLeaf leaves position)
    else if leaves.length ≤ position then .zeroNode 0
    else .leafNode (paddedLeaf leaves position)
  | depth + 1, position =>
    if blockStart (depth + 1) position + 2 ^ (depth + 1) ≤ finalized then
      .finalizedNode (2 ^ (depth + 1)) (nodeOf hash leaves (depth + 1) position)
    else if leaves.length ≤ blockStart (depth + 1) position then .zeroNode (depth + 1)
    else .innerNode (treeOf leaves finalized depth (2 * position))
      (treeOf leaves finalized depth (2 * position + 1))

/-- The hashes that a snapshot keeps of a block: those of its finalized subtrees. -/
def finalizedHashes (leaves : List Bytes32) (finalized : ℕ) : ℕ → ℕ → List Bytes32
  | 0, position => if position + 1 ≤ finalized then [paddedLeaf leaves position] else []
  | depth + 1, position =>
    if blockStart (depth + 1) position + 2 ^ (depth + 1) ≤ finalized then
      [nodeOf hash leaves (depth + 1) position]
    else finalizedHashes leaves finalized depth (2 * position) ++
      finalizedHashes leaves finalized depth (2 * position + 1)

end Specification

variable {hash : HashFunc} {leaves : List Bytes32} {finalized depth pos count index : ℕ}
  {left right : MerkleTreeNode}

/-! ### Padded leaves -/

theorem paddedLeaf_of_le (hidx : leaves.length ≤ index) :
    paddedLeaf leaves index = Vector.replicate 32 0 :=
  getD_eq_default _ _ hidx

theorem paddedLeaf_append_of_lt (hidx : index < leaves.length) (later : List Bytes32) :
    paddedLeaf (leaves ++ later) index = paddedLeaf leaves index :=
  getD_append _ _ _ _ hidx

theorem paddedLeaf_take_of_lt (hidx : index < count) :
    paddedLeaf (leaves.take count) index = paddedLeaf leaves index := by
  simp [paddedLeaf, getD_eq_getElem?_getD, hidx]

/-- The node above a block without leaves is the zero hash of its depth. -/
theorem nodeOf_empty (hempty : leaves.length ≤ blockStart depth pos) :
    nodeOf hash leaves depth pos = zeroHashes hash depth := by
  calc
    nodeOf hash leaves depth pos =
        merkleNode (hashPair hash) (fun _ ↦ Vector.replicate 32 0) depth pos :=
      merkleNode_congr fun i hfrom _ ↦ paddedLeaf_of_le (hempty.trans hfrom)
    _ = zeroHashes hash depth := merkleNode_const _ _ _

/-- The node above a full block stays when leaves are pushed. -/
theorem nodeOf_append (hfull : blockStart depth pos + 2 ^ depth ≤ leaves.length)
    (later : List Bytes32) :
    nodeOf hash (leaves ++ later) depth pos = nodeOf hash leaves depth pos :=
  merkleNode_congr fun _ _ hto ↦ paddedLeaf_append_of_lt (by omega) later

theorem nodeOf_take (hfull : blockStart depth pos + 2 ^ depth ≤ count) :
    nodeOf hash (leaves.take count) depth pos = nodeOf hash leaves depth pos :=
  merkleNode_congr fun _ _ hto ↦ paddedLeaf_take_of_lt (by omega)

/-! ### The nodes of the tree -/

theorem treeOf_of_finalized (hblock : blockStart depth pos + 2 ^ depth ≤ finalized) :
    treeOf hash leaves finalized depth pos =
      .finalizedNode (2 ^ depth) (nodeOf hash leaves depth pos) := by
  cases depth with
  | zero => exact if_pos (by simpa using hblock)
  | succ depth => exact if_pos hblock

theorem treeOf_of_empty (hopen : finalized < blockStart depth pos + 2 ^ depth)
    (hempty : leaves.length ≤ blockStart depth pos) :
    treeOf hash leaves finalized depth pos = .zeroNode depth := by
  cases depth with
  | zero =>
    simp only [blockStart_zero_left, pow_zero] at hopen hempty
    rw [treeOf, if_neg (by omega), if_pos hempty]
  | succ depth => rw [treeOf, if_neg (by omega), if_pos hempty]

theorem treeOf_leaf (hopen : finalized ≤ pos) (hleaf : pos < leaves.length) :
    treeOf hash leaves finalized 0 pos = .leafNode (paddedLeaf leaves pos) := by
  rw [treeOf, if_neg (by omega), if_neg (by omega)]

theorem treeOf_inner (hopen : finalized < blockStart (depth + 1) pos + 2 ^ (depth + 1))
    (hleaf : blockStart (depth + 1) pos < leaves.length) :
    treeOf hash leaves finalized (depth + 1) pos =
      .innerNode (treeOf hash leaves finalized depth (2 * pos))
        (treeOf hash leaves finalized depth (2 * pos + 1)) := by
  rw [treeOf, if_neg (by omega), if_neg (by omega)]

/-- A property of all nodes of the tree, from the four kinds of nodes. -/
theorem treeOf_cases {motive : ℕ → ℕ → MerkleTreeNode → Prop}
    (hfin : ∀ depth pos, blockStart depth pos + 2 ^ depth ≤ finalized →
      motive depth pos (.finalizedNode (2 ^ depth) (nodeOf hash leaves depth pos)))
    (hempty : ∀ depth pos, finalized < blockStart depth pos + 2 ^ depth →
      leaves.length ≤ blockStart depth pos → motive depth pos (.zeroNode depth))
    (hleaf : ∀ pos, finalized ≤ pos → pos < leaves.length →
      motive 0 pos (.leafNode (paddedLeaf leaves pos))) (hinner : ∀ depth pos,
      finalized < blockStart (depth + 1) pos + 2 ^ (depth + 1) →
      blockStart (depth + 1) pos < leaves.length →
      motive depth (2 * pos) (treeOf hash leaves finalized depth (2 * pos)) →
      motive depth (2 * pos + 1) (treeOf hash leaves finalized depth (2 * pos + 1)) →
      motive (depth + 1) pos (.innerNode (treeOf hash leaves finalized depth (2 * pos))
          (treeOf hash leaves finalized depth (2 * pos + 1)))) (depth pos : ℕ) :
    motive depth pos (treeOf hash leaves finalized depth pos) := by
  induction depth generalizing pos with
  | zero =>
    rcases lt_or_ge pos finalized with hbelow | habove
    · have hblock : blockStart 0 pos + 2 ^ 0 ≤ finalized := by
        simpa using succ_le_of_lt hbelow
      rw [treeOf_of_finalized hblock]
      exact hfin 0 pos hblock
    rcases lt_or_ge pos leaves.length with hin | hout
    · rw [treeOf_leaf habove hin]
      exact hleaf pos habove hin
    · have hopen : finalized < blockStart 0 pos + 2 ^ 0 := by
        simpa using lt_succ_of_le habove
      have hnone : leaves.length ≤ blockStart 0 pos := by simpa using hout
      rw [treeOf_of_empty hopen hnone]
      exact hempty 0 pos hopen hnone
  | succ depth ih =>
    rcases lt_or_ge finalized (blockStart (depth + 1) pos + 2 ^ (depth + 1)) with
      hopen | hdone
    · rcases lt_or_ge (blockStart (depth + 1) pos) leaves.length with hin | hout
      · rw [treeOf_inner hopen hin]
        exact hinner depth pos hopen hin (ih _) (ih _)
      · rw [treeOf_of_empty hopen hout]
        exact hempty (depth + 1) pos hopen hout
    · rw [treeOf_of_finalized hdone]
      exact hfin (depth + 1) pos hdone

theorem getRoot_treeOf (depth pos : ℕ) :
    (treeOf hash leaves finalized depth pos).getRoot hash = nodeOf hash leaves depth pos := by
  refine treeOf_cases (motive := fun depth pos node ↦
    node.getRoot hash = nodeOf hash leaves depth pos) ?_ ?_ ?_ ?_ depth pos
  · intro depth pos _
    rfl
  · intro depth pos _ hempty
    rw [nodeOf_empty hempty, getRoot_zeroNode]
  · intro pos _ _
    rfl
  · intro depth pos _ _ hleft hright
    rw [getRoot, hleft, hright]
    rfl

section

variable (hle : finalized ≤ leaves.length)
include hle

theorem isFull_treeOf (depth pos : ℕ) :
    (treeOf hash leaves finalized depth pos).isFull = true ↔
      blockStart depth pos + 2 ^ depth ≤ leaves.length := by
  refine treeOf_cases (motive := fun depth pos node ↦ node.isFull = true ↔
    blockStart depth pos + 2 ^ depth ≤ leaves.length) ?_ ?_ ?_ ?_ depth pos
  · intro depth pos hblock
    exact iff_of_true rfl (hblock.trans hle)
  · intro depth pos _ hempty
    have hpos := Nat.two_pow_pos depth
    exact iff_of_false Bool.false_ne_true (by omega)
  · intro pos _ hin
    exact iff_of_true rfl (by simpa using succ_le_of_lt hin)
  · intro depth pos _ _ _ hright
    rw [isFull, hright, blockStart_right]
    exact iff_of_eq (by rw [pow_succ]; congr 1; ring)

/-! ### Pushing a leaf -/

variable (leaf : Bytes32)

/-- A block that is full, or that the new leaf is not in either, stays. -/
theorem treeOf_append
    (hblock : blockStart depth pos + 2 ^ depth ≤ leaves.length ∨ leaves.length < blockStart
      depth pos) :
    treeOf hash (leaves ++ [leaf]) finalized depth pos =
      treeOf hash leaves finalized depth pos := by
  refine treeOf_cases (motive := fun depth pos node ↦
    (blockStart depth pos + 2 ^ depth ≤ leaves.length ∨ leaves.length < blockStart depth pos) →
    treeOf hash (leaves ++ [leaf]) finalized depth pos = node) ?_ ?_ ?_ ?_ depth pos hblock
  · intro depth pos hdone _
    rw [treeOf_of_finalized hdone, nodeOf_append (hdone.trans hle)]
  · intro depth pos hopen hempty hblock
    have hpos := Nat.two_pow_pos depth
    exact treeOf_of_empty hopen (by rw [length_append, length_singleton]; omega)
  · intro pos hopen hin _
    rw [treeOf_leaf hopen (by rw [length_append]; omega), paddedLeaf_append_of_lt hin]
  · intro depth pos hopen hin hleft hright hblock
    obtain ⟨hl, hr, hpow, htwo⟩ := blockStart_children depth pos
    rw [treeOf_inner hopen (by rw [length_append]; omega), hleft (by omega), hright (by omega)]

/-- The subtree that `create` makes of a first leaf. -/
theorem create_singleton (hstart : leaves.length = blockStart depth pos) :
    create [leaf] depth = treeOf hash (leaves ++ [leaf]) finalized depth pos := by
  induction depth generalizing pos with
  | zero =>
    rw [blockStart_zero_left] at hstart
    rw [treeOf_leaf (by omega) (by simp [hstart]), create, paddedLeaf, ← hstart]
    simp
  | succ depth ih =>
    obtain ⟨hl, hr, hpow, htwo⟩ := blockStart_children depth pos
    have hmin : min (2 ^ depth) [leaf].length = 1 := by
      rw [length_singleton]
      omega
    have hlen : (leaves ++ [leaf]).length = leaves.length + 1 := length_append
    have hright : treeOf hash (leaves ++ [leaf]) finalized depth (2 * pos + 1) =
        .zeroNode depth := treeOf_of_empty (by omega) (by omega)
    rw [treeOf_inner (by omega) (by omega), hright, ← ih (by omega)]
    simp only [create, hmin, take_succ_cons, take_zero, drop_succ_cons, drop_zero]

theorem pushLeaf_treeOf (hfrom : blockStart depth pos ≤ leaves.length)
    (hto : leaves.length < blockStart depth pos + 2 ^ depth) :
    (treeOf hash leaves finalized depth pos).pushLeaf leaf depth =
      .ok (treeOf hash (leaves ++ [leaf]) finalized depth pos) := by
  induction depth generalizing pos with
  | zero =>
    rw [blockStart_zero_left] at hfrom hto
    have hstart : leaves.length = blockStart 0 pos := by
      rw [blockStart_zero_left]
      omega
    rw [treeOf_of_empty (by rw [← hstart]; omega) hstart.le, pushLeaf,
      create_singleton hle leaf hstart]
  | succ depth ih =>
    obtain ⟨hl, hr, hpow, htwo⟩ := blockStart_children depth pos
    rcases eq_or_lt_of_le hfrom with hstart | hin
    · rw [treeOf_of_empty (by omega) hstart.ge, pushLeaf, create_singleton hle leaf hstart.symm]
    rw [treeOf_inner (by omega) hin, pushLeaf, Nat.add_sub_cancel,
      treeOf_inner (by omega) (by rw [length_append]; omega)]
    split_ifs with hfull
    · rw [isFull_treeOf hle] at hfull
      rw [ih (by omega) (by omega), treeOf_append hle leaf (.inl hfull), ok_bind]
    · rw [isFull_treeOf hle] at hfull
      have hright : treeOf hash (leaves ++ [leaf]) finalized depth (2 * pos + 1) =
          treeOf hash leaves finalized depth (2 * pos + 1) :=
        treeOf_append hle leaf (.inr (by omega))
      rw [ih (by omega) (by omega), hright, ok_bind]

end

/-! ### Finalizing -/

/-- Deposits that are finalized before a block leave it as it is. -/
theorem treeOf_of_le (hle : finalized ≤ blockStart depth pos) :
    treeOf hash leaves finalized depth pos = treeOf hash leaves 0 depth pos := by
  refine treeOf_cases (motive := fun depth pos node ↦ finalized ≤ blockStart depth pos →
    treeOf hash leaves finalized depth pos = node) ?_ ?_ ?_ ?_ depth pos hle
  · grind
  · intro depth pos hopen hempty hle
    have hpos := Nat.two_pow_pos depth
    exact treeOf_of_empty (by omega) hempty
  · intro pos _ hin hle
    rw [blockStart_zero_left] at hle
    exact treeOf_leaf hle hin
  · intro depth pos hopen hin hleft hright hle
    obtain ⟨hl, hr, hpow, htwo⟩ := blockStart_children depth pos
    rw [treeOf_inner (by omega) hin, hleft (by omega), hright (by omega)]

/-- An inner node that is not finalized as a whole finalizes its children, in place. -/
theorem finalize_innerNode {left' right' : MerkleTreeNode} (hcount : count < 2 ^ (depth + 1))
    (hleft : (left.finalize hash count depth).err = none ∧
      (left.finalize hash count depth).node = left') (hright : if 2 ^ depth < count then
        (right.finalize hash (count - 2 ^ depth) depth).err = none ∧
          (right.finalize hash (count - 2 ^ depth) depth).node = right'
      else right = right') :
    (innerNode left right).finalize hash count (depth + 1) =
      ⟨.innerNode left' right', .innerNode left' right', none⟩ := by
  rw [finalize]
  grind

/-- An inner node that is not finalized as a whole returns itself. -/
theorem receiver_eq_node (hcount : count < 2 ^ (depth + 1))
    (herr : ((innerNode left right).finalize hash count (depth + 1)).err = none) :
    ((innerNode left right).finalize hash count (depth + 1)).receiver =
      ((innerNode left right).finalize hash count (depth + 1)).node := by
  rw [finalize, if_neg (by omega), if_neg (succ_ne_zero depth)] at herr ⊢
  grind

/-- Finalizing a number of deposits of a subtree finalizes the deposits before them as well, and
changes nothing if they are finalized already. -/
theorem finalize_treeOf (hpos : 0 < count) (hcount : blockStart depth pos + count ≤ leaves.length) :
    ((treeOf hash leaves finalized depth pos).finalize hash count depth).err = none ∧
      ((treeOf hash leaves finalized depth pos).finalize hash count depth).node =
        treeOf hash leaves (max finalized (blockStart depth pos + count)) depth pos := by
  induction depth generalizing pos count with
  | zero =>
    rw [blockStart_zero_left] at hcount ⊢
    have hdone : treeOf hash leaves (max finalized (pos + count)) 0 pos =
        .finalizedNode 1 (paddedLeaf leaves pos) := if_pos (by omega)
    rw [hdone]
    rcases lt_or_ge pos finalized with hbelow | habove
    · rw [treeOf, if_pos (by omega)]
      exact ⟨rfl, rfl⟩
    · rw [treeOf_leaf habove (by omega)]
      exact ⟨rfl, rfl⟩
  | succ depth ih =>
    obtain ⟨hl, hr, hpow, htwo⟩ := blockStart_children depth pos
    rcases lt_or_ge finalized (blockStart (depth + 1) pos + 2 ^ (depth + 1)) with
      hopen | hdone
    swap
    · rw [treeOf_of_finalized hdone, treeOf_of_finalized (hdone.trans (le_max_left _ _))]
      exact ⟨rfl, rfl⟩
    have hinner : treeOf hash leaves finalized (depth + 1) pos = _ := treeOf_inner hopen (by omega)
    have hroot : (treeOf hash leaves finalized (depth + 1) pos).getRoot hash =
      nodeOf hash leaves (depth + 1) pos := getRoot_treeOf _ _
    generalize hafter : max finalized (blockStart (depth + 1) pos + count) = after
    by_cases hall : 2 ^ (depth + 1) ≤ count
    · rw [treeOf_of_finalized (show _ ≤ after by omega), ← hroot, hinner, finalize, if_pos hall]
      exact ⟨rfl, rfl⟩
    have hleft := @ih (2 * pos) count hpos (by omega)
    have hright : if 2 ^ depth < count then
        ((treeOf hash leaves finalized depth (2 * pos + 1)).finalize hash
            (count - 2 ^ depth) depth).err = none ∧
          ((treeOf hash leaves finalized depth (2 * pos + 1)).finalize hash
            (count - 2 ^ depth) depth).node = treeOf hash leaves after depth (2 * pos + 1)
        else treeOf hash leaves finalized depth (2 * pos + 1) =
          treeOf hash leaves after depth (2 * pos + 1) := by
      split_ifs with hboth
      · grind
      · rcases lt_or_ge finalized after with hlt | hge
        · exact (treeOf_of_le (by omega)).trans (treeOf_of_le (by omega)).symm
        · rw [show finalized = after by omega]
    rw [hl, hafter] at hleft
    rw [hinner, finalize_innerNode (by omega) hleft hright,
      treeOf_inner (show after < _ by omega) (by omega)]
    exact ⟨rfl, rfl⟩

/-! ### Snapshots -/

theorem finalizedHashes_of_finalized (hblock : blockStart depth pos + 2 ^ depth ≤ finalized) :
    finalizedHashes hash leaves finalized depth pos = [nodeOf hash leaves depth pos] := by
  cases depth with
  | zero => exact if_pos (by simpa using hblock)
  | succ depth => exact if_pos hblock

theorem finalizedHashes_of_le (hle : finalized ≤ blockStart depth pos) :
    finalizedHashes hash leaves finalized depth pos = [] := by
  induction depth generalizing pos with
  | zero =>
    rw [blockStart_zero_left] at hle
    exact if_neg (by omega)
  | succ depth ih =>
    obtain ⟨hl, hr, hpow, htwo⟩ := blockStart_children depth pos
    rw [finalizedHashes, if_neg (by omega), ih (by omega), ih (by omega), append_nil]

theorem finalizedHashes_succ (hopen : finalized < blockStart (depth + 1) pos + 2 ^ (depth + 1)) :
    finalizedHashes hash leaves finalized (depth + 1) pos =
      finalizedHashes hash leaves finalized depth (2 * pos) ++
        finalizedHashes hash leaves finalized depth (2 * pos + 1) :=
  if_neg (by omega)

theorem finalizedHashes_ne_nil (hlt : blockStart depth pos < finalized) :
    finalizedHashes hash leaves finalized depth pos ≠ [] := by
  induction depth generalizing pos with
  | zero =>
    rw [blockStart_zero_left] at hlt
    rw [finalizedHashes, if_pos (by omega)]
    exact cons_ne_nil _ _
  | succ depth ih =>
    rw [finalizedHashes]
    split_ifs
    · exact cons_ne_nil _ _
    · exact append_ne_nil_of_left_ne_nil (ih (by rwa [blockStart_left])) _

theorem getFinalized_treeOf (hle : finalized ≤ leaves.length)
    (hdepth : depth ≤ depositContractDepth) (result : List Bytes32) :
    (treeOf hash leaves finalized depth pos).getFinalized result =
      (min (finalized - blockStart depth pos) (2 ^ depth),
        result ++ finalizedHashes hash leaves finalized depth pos) := by
  refine treeOf_cases (motive := fun depth pos node ↦ depth ≤ depositContractDepth →
    ∀ result, node.getFinalized result = (min (finalized - blockStart depth pos) (2 ^ depth),
      result ++ finalizedHashes hash leaves finalized depth pos)) ?_ ?_ ?_ ?_ depth pos
    hdepth result
  · intro depth pos hdone _ result
    rw [finalizedHashes_of_finalized hdone, getFinalized, min_eq_right (by omega)]
  · intro depth pos _ hempty _ result
    rw [finalizedHashes_of_le (by omega), append_nil,
      Nat.sub_eq_zero_of_le (by omega), Nat.zero_min, getFinalized]
  · intro pos hopen _ _ result
    rw [finalizedHashes_of_le (by rwa [blockStart_zero_left]), append_nil,
      blockStart_zero_left, Nat.sub_eq_zero_of_le hopen, Nat.zero_min, getFinalized]
  · intro depth pos hopen hin hleft hright hdepth result
    obtain ⟨hl, hr, hpow, htwo⟩ := blockStart_children depth pos
    have hbound : 2 ^ (depth + 1) ≤ 2 ^ depositContractDepth :=
      Nat.pow_le_pow_right (by decide) hdepth
    have hwidth : 2 ^ depositContractDepth < 2 ^ 64 := by decide
    rw [getFinalized, hleft (by omega), hright (by omega),
      finalizedHashes_succ hopen, append_assoc, hl, hr]
    refine Prod.ext ?_ rfl
    grind

theorem fromSnapshotParts_finalizedHashes (hle : finalized ≤ leaves.length)
    (hfrom : blockStart depth pos ≤ finalized)
    (hto : finalized ≤ blockStart depth pos + 2 ^ depth) :
    fromSnapshotParts (finalizedHashes hash leaves finalized depth pos)
        (finalized - blockStart depth pos) depth =
      .ok (treeOf hash (leaves.take finalized) finalized depth pos) := by
  have hlen : (leaves.take finalized).length = finalized := length_take_of_le hle
  induction depth generalizing pos with
  | zero =>
    rw [blockStart_zero_left] at hfrom hto ⊢
    rcases eq_or_lt_of_le hfrom with hstart | hin
    · rw [finalizedHashes, if_neg (by omega), treeOf, if_neg (by omega), if_pos (by omega)]
      rfl
    · rw [finalizedHashes, if_pos (by omega), treeOf, if_pos (by omega),
        show finalized - pos = 2 ^ 0 by omega, fromSnapshotParts_full,
        paddedLeaf_take_of_lt hin]
      rfl
  | succ depth ih =>
    obtain ⟨hl, hr, hpow, htwo⟩ := blockStart_children depth pos
    rcases eq_or_lt_of_le hfrom with hstart | hin
    · rw [finalizedHashes_of_le hstart.ge, treeOf_of_empty (by omega) (by omega)]
      rfl
    rcases eq_or_lt_of_le hto with hend | hopen
    · rw [finalizedHashes_of_finalized hend.ge, treeOf_of_finalized hend.ge, nodeOf_take hend.ge,
        show finalized - blockStart (depth + 1) pos = 2 ^ (depth + 1) by omega,
        fromSnapshotParts_full]
    rw [finalizedHashes_succ hopen, treeOf_inner hopen (by omega)]
    by_cases hleft : finalized - blockStart (depth + 1) pos ≤ 2 ^ depth
    · -- The finalized deposits end in the left half.
      have hih := @ih (2 * pos) (by omega) (by omega)
      have hright : treeOf hash (leaves.take finalized) finalized depth (2 * pos + 1) =
          .zeroNode depth := treeOf_of_empty (by omega) (by omega)
      have hnone : finalizedHashes hash leaves finalized depth (2 * pos + 1) = [] :=
        finalizedHashes_of_le (by omega)
      rw [hnone, append_nil, hright]
      rw [hl] at hih
      cases hhashes : finalizedHashes hash leaves finalized depth (2 * pos) with
      | nil => exact absurd hhashes (finalizedHashes_ne_nil (by omega))
      | cons first rest =>
        rw [hhashes] at hih
        rw [fromSnapshotParts, if_neg (by omega), if_neg (by omega), if_pos hleft, hih, ok_bind]
    · -- The left half is finalized.
      have hih := @ih (2 * pos + 1) (by omega) (by omega)
      rw [finalizedHashes_of_finalized (by omega), treeOf_of_finalized (by omega),
        nodeOf_take (by omega), singleton_append, fromSnapshotParts, if_neg (by omega),
        if_neg (by omega), if_neg hleft,
        show finalized - blockStart (depth + 1) pos - 2 ^ depth =
          finalized - blockStart depth (2 * pos + 1) by omega, hih, ok_bind]

/-! ### Proofs -/

theorem descend_treeOf {index : ℕ} (hopen : finalized ≤ index) (hidx : index < leaves.length)
    (proof : List Bytes32) :
    (treeOf hash leaves finalized depth (index / 2 ^ depth)).descend hash index depth proof =
      .ok (.leafNode (paddedLeaf leaves index),
        proof ++ (branch (hashPair hash) (paddedLeaf leaves) depth index).reverse) := by
  induction depth generalizing proof with
  | zero =>
    rw [pow_zero, Nat.div_one, treeOf_leaf hopen hidx, descend]
    simp [branch]
  | succ depth ih =>
    have hfrom := blockStart_div_le (depth + 1) index
    have hto := lt_blockStart_div_add (depth + 1) index
    rw [treeOf_inner (by omega) (by omega), div_two_pow_succ, branch_succ, reverse_append]
    generalize hhalf : index / 2 ^ depth = path at ih ⊢
    simp only [descend, left, right, deref, ok_bind, getRoot_treeOf, hhalf, sibling]
    split_ifs with hodd
    · rw [show 2 * (path / 2) + 1 = path by omega, show 2 * (path / 2) = path - 1 by omega, ih]
      simp [nodeOf]
    · rw [show 2 * (path / 2) = path by omega, ih]
      simp [nodeOf]

/-! ### The root of a snapshot -/

theorem finalizedHashes_take (depth pos : ℕ) :
    finalizedHashes hash (leaves.take finalized) finalized depth pos =
      finalizedHashes hash leaves finalized depth pos := by
  induction depth generalizing pos with
  | zero =>
    unfold finalizedHashes
    split_ifs with hdone
    · rw [paddedLeaf_take_of_lt hdone]
    · rfl
  | succ depth ih =>
    unfold finalizedHashes
    split_ifs with hdone
    · rw [nodeOf_take hdone]
    · rw [ih, ih]

section

variable (hle : finalized ≤ leaves.length) (hcount : finalized < 2 ^ depositContractDepth)
include hle hcount

theorem fromSnapshotParts_depositTree :
    fromSnapshotParts (finalizedHashes hash leaves finalized depositContractDepth 0) finalized
        depositContractDepth =
      .ok (treeOf hash (leaves.take finalized) finalized depositContractDepth 0) :=
  fromSnapshotParts_finalizedHashes hle (by simp) (by simpa using hcount.le)

/-- The root of a snapshot is the deposit root of the finalized leaves. -/
theorem calculateRoot_finalizedHashes (root : Bytes32) (block : ExecutionBlock) :
    (DepositTreeSnapshot.mk (finalizedHashes hash leaves finalized depositContractDepth 0) root
      finalized block).calculateRoot hash = .ok (depositRoot hash (leaves.take finalized)) := by
  have hkept : (leaves.take finalized).length = finalized := length_take_of_le hle
  obtain ⟨tree, htree, -, hroot⟩ := exists_calculateRoot hash
    ⟨finalizedHashes hash leaves finalized depositContractDepth 0, root, finalized, block⟩ hcount
  obtain rfl := Except.ok.inj ((fromSnapshotParts_depositTree hle hcount).symm.trans htree)
  rw [hroot, getRoot_treeOf, depositRoot, hkept]
  rw [getFinalized_treeOf hkept.ge le_rfl, finalizedHashes_take, blockStart_zero_right,
    Nat.sub_zero, min_eq_left hcount.le, nil_append]

end

/-! ### The deposit tree -/

/-- The deposit tree over the leaves, of which the first ones are finalized. -/
def depositTreeOf (hash : HashFunc) (leaves : List Bytes32) (finalized : ℕ)
    (block : ExecutionBlock) : DepositTree :=
  ⟨treeOf hash leaves finalized depositContractDepth 0, leaves.length, block⟩

variable {block : ExecutionBlock}

theorem getRoot_depositTreeOf :
    (depositTreeOf hash leaves finalized block).getRoot hash = depositRoot hash leaves := by
  rw [DepositTree.getRoot, depositTreeOf, getRoot_treeOf, depositRoot]

section

variable (hle : finalized ≤ leaves.length)
include hle

theorem pushLeaf_depositTreeOf (hcount : leaves.length < 2 ^ depositContractDepth)
    (leaf : Bytes32) : (depositTreeOf hash leaves finalized block).pushLeaf leaf =
      .ok (depositTreeOf hash (leaves ++ [leaf]) finalized block) := by
  have hwidth : 2 ^ depositContractDepth < 2 ^ 64 := by decide
  rw [DepositTree.pushLeaf, depositTreeOf,
    pushLeaf_treeOf hle leaf (by simp) (by simpa using hcount), ok_bind, depositTreeOf,
    length_append, length_singleton, mod_eq_of_lt (show leaves.length + 1 < 2 ^ 64 by omega)]

theorem pushLeaves_depositTreeOf (later : List Bytes32)
    (hcount : leaves.length + later.length ≤ 2 ^ depositContractDepth) :
    later.foldlM DepositTree.pushLeaf (depositTreeOf hash leaves finalized block) =
      .ok (depositTreeOf hash (leaves ++ later) finalized block) := by
  induction later generalizing leaves with
  | nil =>
    rw [append_nil]
    rfl
  | cons leaf later ih =>
    rw [length_cons] at hcount
    have hlen : (leaves ++ [leaf]).length = leaves.length + 1 := length_append
    rw [foldlM_cons, pushLeaf_depositTreeOf hle (by omega), ok_bind,
      ih (by omega) (by omega), append_assoc, singleton_append]

omit hle in
theorem finalize_depositTreeOf (hcount : leaves.length < 2 ^ depositContractDepth) {i : ℕ}
    (hfin : finalized ≤ leaves.length) (hi : i < leaves.length) (executionHash : Bytes32)
    (number : ℕ) :
    (depositTreeOf hash leaves finalized block).finalize hash i executionHash number =
      (depositTreeOf hash leaves (max finalized (i + 1)) ⟨executionHash, number⟩,
        none) := by
  have hsmall : leaves.length < 2 ^ (31 + 1) := hcount
  have hidx : (((i : ℤ) + 1) % 2 ^ 64).toNat = i + 1 := by omega
  have hinner : treeOf hash leaves finalized (31 + 1) 0 = _ :=
    treeOf_inner (by rw [blockStart_zero_right]; omega) (by rw [blockStart_zero_right]; omega)
  obtain ⟨herr, hnode⟩ : (finalize hash (treeOf hash leaves finalized (31 + 1) 0)
      (i + 1) (31 + 1)).err = none ∧ _ :=
    finalize_treeOf (succ_pos i) (by rw [blockStart_zero_right]; omega)
  have hreceiver := herr
  rw [hinner] at hreceiver
  replace hreceiver := receiver_eq_node (by omega) hreceiver
  rw [← hinner, hnode, blockStart_zero_right, zero_add] at hreceiver
  rw [DepositTree.finalize, hidx]
  exact Prod.ext (congrArg (DepositTree.mk · _ _) hreceiver) herr

theorem getSnapshot_depositTreeOf (hcount : finalized < 2 ^ depositContractDepth) :
    (depositTreeOf hash leaves finalized block).getSnapshot hash =
      .ok ⟨finalizedHashes hash leaves finalized depositContractDepth 0,
        depositRoot hash (leaves.take finalized), finalized, block⟩ := by
  rw [DepositTree.getSnapshot, depositTreeOf, getFinalized_treeOf hle le_rfl, blockStart_zero_right,
    Nat.sub_zero, min_eq_left hcount.le, nil_append]
  dsimp only
  rw [fromTreeParts, calculateRoot_finalizedHashes hle hcount, ok_bind]

/-- The tree of a snapshot is the deposit tree over the finalized leaves. -/
theorem fromSnapshot_finalizedHashes (hcount : finalized < 2 ^ depositContractDepth) :
    fromSnapshot hash ⟨finalizedHashes hash leaves finalized depositContractDepth 0,
        depositRoot hash (leaves.take finalized), finalized, block⟩ =
      .ok (depositTreeOf hash (leaves.take finalized) finalized block) := by
  rw [fromSnapshot, calculateRoot_finalizedHashes hle hcount, ok_bind, if_neg (not_not.2 rfl),
    if_neg (by dsimp only; omega), fromSnapshotParts_depositTree hle hcount, ok_bind, depositTreeOf,
    length_take_of_le hle]

theorem getProof_depositTreeOf (hcount : leaves.length < 2 ^ depositContractDepth)
    (hopen : finalized ≤ index) (hindex : index < leaves.length) :
    (depositTreeOf hash leaves finalized block).getProof hash index =
      .ok (paddedLeaf leaves index, depositBranch hash leaves index) := by
  have hsmall : leaves.length < 2 ^ 32 := hcount
  have hdescend := @descend_treeOf hash leaves finalized depositContractDepth index hopen hindex []
  have hfin : ((treeOf hash leaves finalized depositContractDepth 0).getFinalized []).1 =
      finalized := by
    rw [getFinalized_treeOf hle le_rfl, blockStart_zero_right, Nat.sub_zero]
    exact min_eq_left (by omega)
  have hidx : DepositTree.finalizedIdx finalized = .ok ((finalized : ℤ) - 1) := by
    unfold DepositTree.finalizedIdx
    split_ifs with hsome
    · rw [toInt, if_neg (by omega), ok_bind]
    · rw [not_not.1 hsome]
      rfl
  rw [div_eq_of_lt (by omega)] at hdescend
  unfold DepositTree.getProof depositTreeOf
  dsimp only
  rw [if_neg (by omega), if_neg (by omega), hfin, hidx, ok_bind, toInt, if_neg (by omega),
    ok_bind, if_neg (by omega), generateProof, hdescend, ok_bind, ok_bind,
    nil_append, reverse_reverse]
  rfl

end

theorem verifyMerkleProof_depositBranch (hcount : leaves.length < 2 ^ depositContractDepth)
    (hidx : index < leaves.length) :
    verifyMerkleProof hash (depositRoot hash leaves) (paddedLeaf leaves index) index
      (depositBranch hash leaves index) = true := by
  have hlen : (depositBranch hash leaves index).length = depositContractDepth + 1 := by
    rw [depositBranch, length_append, length_branch, length_singleton]
  have hzero : index / 2 ^ depositContractDepth = 0 := div_eq_of_lt (by omega)
  rw [verifyMerkleProof, if_neg (by omega), verifyMerkleProofWithDepth, if_neg (by omega),
    depositBranch, climb_append, climb_branch, length_branch, hzero]
  exact beq_self_eq_true _

/-- The calls that change a deposit tree. -/
inductive TreeCall
  | pushLeaf (leaf : Bytes32)
  | finalize (eth1DepositIndex : ℤ) (executionHash : Bytes32) (executionNumber : ℕ)
deriving DecidableEq, Repr

/-- One call on a deposit tree. -/
def treeCall (hash : HashFunc) (d : DepositTree) : TreeCall → Except Fault DepositTree
  | .pushLeaf leaf => d.pushLeaf leaf
  | .finalize eth1DepositIndex executionHash executionNumber =>
    match d.finalize hash eth1DepositIndex executionHash executionNumber with
    | (_, some err) => .error (.error err)
    | (d, none) => .ok d

/-- The leaves pushed by calls, in their order. -/
def pushed : List TreeCall → List Bytes32
  | [] => []
  | .pushLeaf leaf :: calls => leaf :: pushed calls
  | .finalize _ _ _ :: calls => pushed calls

/-- Every `Finalize` call names a deposit of the tree, which has some leaves at the start. -/
def InRange : ℕ → List TreeCall → Prop
  | _, [] => True
  | count, .pushLeaf _ :: calls => InRange (count + 1) calls
  | count, .finalize eth1DepositIndex _ _ :: calls =>
    0 ≤ eth1DepositIndex ∧ eth1DepositIndex < count ∧ InRange count calls

/-- The indices that calls finalize. -/
def finalizedIndices (calls : List TreeCall) : Set ℤ :=
  {i | ∃ executionHash executionNumber, .finalize i executionHash executionNumber ∈ calls}

/-- The number of finalized deposits after calls. -/
def finalizedCount : ℕ → List TreeCall → ℕ
  | finalized, [] => finalized
  | finalized, .pushLeaf _ :: calls => finalizedCount finalized calls
  | finalized, .finalize eth1DepositIndex _ _ :: calls =>
    finalizedCount (max finalized (eth1DepositIndex + 1).toNat) calls

theorem finalizedCount_le_iff {calls : List TreeCall} {bound : ℕ} :
    finalizedCount finalized calls ≤ bound ↔
      finalized ≤ bound ∧ ∀ i ∈ finalizedIndices calls, i < bound := by
  induction calls generalizing finalized with
  | nil => simp [finalizedCount, finalizedIndices]
  | cons call calls ih =>
    cases call with
    | pushLeaf leaf =>
      rw [finalizedCount, ih]
      simp [finalizedIndices]
    | finalize i executionHash number =>
      have hmem : ∀ j, j ∈ finalizedIndices (.finalize i executionHash number :: calls) ↔
          j = i ∨ j ∈ finalizedIndices calls := by
        intro j
        constructor
        · rintro ⟨executionHash', number', hcall⟩
          rcases mem_cons.1 hcall with heq | hmem
          · exact .inl (TreeCall.finalize.inj heq).1
          · exact .inr ⟨_, _, hmem⟩
        · rintro (rfl | ⟨executionHash', number', hcall⟩)
          · exact ⟨_, _, mem_cons_self⟩
          · exact ⟨_, _, mem_cons_of_mem _ hcall⟩
      have hhead : (i + 1).toNat ≤ bound ↔ i < bound := by omega
      simp only [finalizedCount, ih, hmem, max_le_iff, forall_eq_or_imp, hhead, and_assoc]

/-- A deposit tree follows its deposits through any calls. -/
theorem foldlM_treeCall (calls : List TreeCall) (hle : finalized ≤ leaves.length)
    (hrange : InRange leaves.length calls)
    (hcount : leaves.length + (pushed calls).length < 2 ^ depositContractDepth) :
    finalizedCount finalized calls ≤ leaves.length + (pushed calls).length ∧
      ∃ last, calls.foldlM (treeCall hash) (depositTreeOf hash leaves finalized block) =
        .ok (depositTreeOf hash (leaves ++ pushed calls) (finalizedCount finalized calls)
          last) := by
  induction calls generalizing leaves finalized block with
  | nil =>
    refine ⟨hle.trans (le_add_right _ _), block, ?_⟩
    rw [pushed, append_nil]
    rfl
  | cons call calls ih =>
    cases call with
    | pushLeaf leaf =>
      have hlen : (leaves ++ [leaf]).length = leaves.length + 1 := length_append
      rw [pushed, length_cons] at hcount
      rw [InRange, ← hlen] at hrange
      obtain ⟨hfin, last, hlast⟩ := @ih (leaves ++ [leaf]) finalized block (by omega) hrange
        (by omega)
      refine ⟨by rw [pushed, length_cons, finalizedCount]; omega, last, ?_⟩
      rw [append_assoc, singleton_append] at hlast
      rw [foldlM_cons, treeCall, pushLeaf_depositTreeOf hle (by omega), ok_bind, hlast]
      rfl
    | finalize i executionHash number =>
      obtain ⟨hnonneg, hlt, hrange⟩ := hrange
      obtain ⟨n, rfl⟩ := Int.eq_ofNat_of_zero_le hnonneg
      obtain ⟨hfin, last, hlast⟩ := @ih leaves (max finalized (n + 1))
        ⟨executionHash, number⟩ (by omega) hrange hcount
      refine ⟨hfin, last, ?_⟩
      rw [foldlM_cons, treeCall,
        finalize_depositTreeOf (by rw [pushed] at hcount; omega) hle (by omega)]
      exact hlast

/-- The pruned deposit tree is as good as the full one: after any pushes and finalizations its root
is that of the full tree and it has the proofs of all leaves that are not finalized, and its
snapshot with the leaves after the last finalized one gives the same tree. -/
theorem depositTree_prunes (hash : HashFunc) (calls : List TreeCall) (hrange : InRange 0 calls)
    (hcount : (pushed calls).length < 2 ^ 32) :
    ∃ tree, calls.foldlM (treeCall hash) newDepositTree = .ok tree ∧
      tree.getRoot hash = depositRoot hash (pushed calls) ∧
      (∀ (index : ℕ) (leaf : Bytes32), (pushed calls)[index]? = some leaf →
        (∀ i ∈ finalizedIndices calls, i < index) →
        ∃ proof, tree.getProof hash index = .ok (leaf, proof) ∧
          verifyMerkleProof hash (tree.getRoot hash) leaf index proof = true) ∧
      ∀ i : ℕ, IsGreatest (finalizedIndices calls) i →
        ∃ snapshot restored, tree.getSnapshot hash = .ok snapshot ∧
          fromSnapshot hash snapshot = .ok restored ∧
          ∀ later, (pushed calls).length + later.length < 2 ^ 32 →
            ∃ original rebuilt, later.foldlM DepositTree.pushLeaf tree = .ok original ∧
              ((pushed calls).drop (i + 1) ++ later).foldlM DepositTree.pushLeaf restored =
                .ok rebuilt ∧
              rebuilt.getRoot hash = original.getRoot hash ∧
              ∀ index > i, rebuilt.getProof hash index = original.getProof hash index := by
  obtain ⟨hle, block, hrun⟩ := @foldlM_treeCall hash [] 0 ⟨Vector.replicate 32 0, 0⟩ calls le_rfl
    hrange (by rwa [length_nil, zero_add])
  rw [length_nil, zero_add] at hle
  refine ⟨_, hrun, getRoot_depositTreeOf, ?_, ?_⟩
  · intro index leaf hleaf hopen
    obtain ⟨hidx, rfl⟩ := List.getElem?_eq_some_iff.1 hleaf
    have hfin := finalizedCount_le_iff.2 ⟨zero_le index, hopen⟩
    have hpadded : paddedLeaf (pushed calls) index = (pushed calls)[index] :=
      getD_eq_getElem _ _ hidx
    rw [getRoot_depositTreeOf, ← hpadded]
    exact ⟨_, getProof_depositTreeOf hle hcount hfin hidx,
      verifyMerkleProof_depositBranch hcount hidx⟩
  · intro i hgreatest
    have hcounted : finalizedCount 0 calls = i + 1 := by
      refine eq_of_forall_ge_iff fun bound ↦ ?_
      rw [finalizedCount_le_iff]
      constructor
      · rintro ⟨-, hbound⟩
        exact Int.ofNat_lt.1 (hbound i hgreatest.1)
      · intro hbound
        exact ⟨zero_le bound, fun j hj ↦ (hgreatest.2 hj).trans_lt (Int.ofNat_lt.2 hbound)⟩
    rw [hcounted] at hle ⊢
    have hkept : ((pushed calls).take (i + 1)).length = i + 1 := length_take_of_le hle
    refine ⟨_, _, getSnapshot_depositTreeOf hle (hle.trans_lt hcount),
      fromSnapshot_finalizedHashes hle (hle.trans_lt hcount), ?_⟩
    intro later hlater
    refine ⟨_, _, pushLeaves_depositTreeOf hle later hlater.le,
      pushLeaves_depositTreeOf hkept.ge _ ?_, ?_⟩
    · rw [hkept, length_append, length_drop, depositContractDepth]
      omega
    · rw [← append_assoc, take_append_drop]
      exact ⟨rfl, fun _ _ ↦ rfl⟩

/-- Three leaves of which two are finalized, the second one first. -/
def twoOfThree : List TreeCall :=
  [.pushLeaf (Vector.replicate 32 1), .pushLeaf (Vector.replicate 32 2),
    .finalize 1 (Vector.replicate 32 9) 70, .pushLeaf (Vector.replicate 32 3),
    .finalize 0 (Vector.replicate 32 8) 60]

/-- A hash that adds up the bytes. -/
def byteSum : HashFunc := fun bytes ↦ Vector.replicate 32 (bytes.foldl (· + ·) 0)

theorem twoOfThree_finalized : IsGreatest (finalizedIndices twoOfThree) (1 : ℕ) := by
  refine ⟨⟨Vector.replicate 32 9, 70, by decide⟩, ?_⟩
  rintro i ⟨executionHash, number, hcall⟩
  simp only [twoOfThree, mem_cons, TreeCall.finalize.injEq, reduceCtorEq, false_or,
    not_mem_nil, or_false] at hcall
  omega

theorem depositTree_prunes_twoOfThree :
    ∃ tree, twoOfThree.foldlM (treeCall byteSum) newDepositTree = .ok tree ∧
      (∃ proof, tree.getProof byteSum 2 = .ok (Vector.replicate 32 3, proof)) ∧
      ∃ snapshot restored, tree.getSnapshot byteSum = .ok snapshot ∧
        fromSnapshot byteSum snapshot = .ok restored := by
  obtain ⟨tree, hrun, -, hproof, hsnapshot⟩ := depositTree_prunes byteSum twoOfThree
    ⟨by decide, by decide, by decide, by decide, trivial⟩ (by decide)
  obtain ⟨proof, hproof, -⟩ := hproof 2 (Vector.replicate 32 3) (by decide) fun i hi ↦
    (twoOfThree_finalized.2 hi).trans_lt (by decide)
  obtain ⟨snapshot, restored, htaken, hrestored, -⟩ := hsnapshot 1 twoOfThree_finalized
  grind

end Prysm.DepositSnapshot
