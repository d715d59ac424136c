import Prysm.Helpers.Shuffle
import Prysm.Library.Loop
import Prysm.Library.MerkleTree

/-!
# The deposit tree and its snapshots

The functions of `cache/depositsnapshot`: a sparse Merkle tree over the deposits whose full subtrees
are replaced by their hashes when the deposits below them are finalized, and the snapshot that keeps
those hashes only.

`InnerNode.Finalize` changes the node in place and returns a node as well, and
`DepositTree.Finalize` ignores the node that comes back.  The model of a call therefore has both,
the receiver as the call leaves it and the node it returns.

The depth of every node is at most 32, so `math.PowerOf2` does not panic and the table of zero
hashes is long enough.
-/

namespace Prysm.DepositSnapshot

open Prysm.Library Prysm.Helpers

/-- `[32]byte`. -/
abbrev Bytes32 := Vector UInt8 32

def depositContractDepth : ℕ := 32

def errFinalizedNodeCannotPushLeaf : Error :=
  .errorf "can't push a leaf to a finalized node" []

def errLeafNodeCannotPushLeaf : Error := .errorf "can't push a leaf to a leaf node" []

def errZeroLevel : Error := .errorf "level should be greater than 0" []

def errZeroDepth : Error := .errorf "depth should be greater than 0" []

def errInvalidSnapshotRoot : Error := .errorf "snapshot root is invalid" []

def errInvalidDepositCount : Error := .errorf "deposit count should be greater than 0" []

def errInvalidIndex : Error := .errorf "index should be greater than finalizedDeposits - 1" []

def errTooManyDeposits : Error :=
  .errorf "number of deposits should not be greater than the capacity of the tree" []

def errOverflow : Error := .errorf "integer overflow" []

/-- `bytesutil.Uint64ToBytesLittleEndian32`. -/
def uint64ToBytesLittleEndian32 (i : ℕ) : Bytes32 :=
  ⟨(littleEndian 8 i ++ List.replicate 24 0).toArray, by simp [littleEndian]⟩

/-- `math.Int`. -/
def toInt (u : ℕ) : Except Fault ℤ :=
  if u > 2 ^ 63 - 1 then .error (.error errOverflow) else .ok u

section Hashing

variable (hash : HashFunc)

/-- The hash of two hashes, one after the other. -/
def hashPair (left right : Bytes32) : Bytes32 := hash (left.toList ++ right.toList)

/-- `trie.ZeroHashes`: the table lists the roots of the trees without leaves, by their depth. -/
def zeroHashes (depth : ℕ) : Bytes32 := emptyNode (hashPair hash) (Vector.replicate 32 0) depth

section

variable (root item : Bytes32) (merkleIndex : ℕ) (proof : List Bytes32)

/-- `trie.VerifyMerkleProofWithDepth`. -/
def verifyMerkleProofWithDepth (depth : ℕ) : Bool :=
  if proof.length ≠ depth + 1 then false
  else root == climb (hashPair hash) proof merkleIndex item

/-- `trie.VerifyMerkleProof`. -/
def verifyMerkleProof : Bool :=
  if proof.length = 0 then false
  else verifyMerkleProofWithDepth hash root item merkleIndex proof (proof.length - 1)

end

end Hashing

/-- The types that implement the `MerkleTreeNode` interface. -/
inductive MerkleTreeNode
  | finalizedNode (depositCount : ℕ) (hash : Bytes32)
  | leafNode (hash : Bytes32)
  | innerNode (left right : MerkleTreeNode)
  | zeroNode (depth : ℕ)
deriving DecidableEq, Repr

def create : List Bytes32 → ℕ → MerkleTreeNode
  | [], depth => .zeroNode depth
  | leaf :: _, 0 => .leafNode leaf
  | leaf :: rest, depth + 1 =>
    let leaves := leaf :: rest
    let split := min (2 ^ depth) leaves.length
    .innerNode (create (leaves.take split) depth) (create (leaves.drop split) depth)

def fromSnapshotParts : List Bytes32 → ℕ → ℕ → Except Fault MerkleTreeNode
  | [], _, level => .ok (.zeroNode level)
  | first :: _, deposits, 0 =>
    if deposits = 0 then .ok (.zeroNode 0)
    else if deposits = 2 ^ 0 then .ok (.finalizedNode deposits first)
    else .error (.error errZeroLevel)
  | first :: rest, deposits, level + 1 =>
    if deposits = 0 then .ok (.zeroNode (level + 1))
    else if deposits = 2 ^ (level + 1) then .ok (.finalizedNode deposits first)
    else if deposits ≤ 2 ^ level then do
      let left ← fromSnapshotParts (first :: rest) deposits level
      .ok (.innerNode left (.zeroNode level))
    else do
      let right ← fromSnapshotParts rest (deposits - 2 ^ level) level
      .ok (.innerNode (.finalizedNode (2 ^ level) first) right)

namespace MerkleTreeNode

/-- `Left`; only an inner node has children. -/
def left : MerkleTreeNode → Option MerkleTreeNode
  | innerNode left _ => some left
  | _ => none

def right : MerkleTreeNode → Option MerkleTreeNode
  | innerNode _ right => some right
  | _ => none

def isFull : MerkleTreeNode → Bool
  | finalizedNode _ _ => true
  | leafNode _ => true
  | innerNode _ right => right.isFull
  | zeroNode _ => false

def getFinalized : MerkleTreeNode → List Bytes32 → ℕ × List Bytes32
  | finalizedNode depositCount hash, result => (depositCount, result ++ [hash])
  | leafNode _, result => (0, result)
  | innerNode left right, result =>
    let leftDeposits := left.getFinalized result
    let rightDeposits := right.getFinalized leftDeposits.2
    ((leftDeposits.1 + rightDeposits.1) % 2 ^ 64, rightDeposits.2)
  | zeroNode _, result => (0, result)

def pushLeaf (leaf : Bytes32) : MerkleTreeNode → ℕ → Except Fault MerkleTreeNode
  | finalizedNode _ _, _ => .error (.error errFinalizedNodeCannotPushLeaf)
  | leafNode _, _ => .error (.error errLeafNodeCannotPushLeaf)
  | innerNode left right, depth =>
    if left.isFull then do
      let right ← right.pushLeaf leaf (depth - 1)
      .ok (innerNode left right)
    else do
      let left ← left.pushLeaf leaf (depth - 1)
      .ok (innerNode left right)
  | zeroNode _, depth => .ok (create [leaf] depth)

variable (hash : HashFunc)

def getRoot : MerkleTreeNode → Bytes32
  | finalizedNode _ hash => hash
  | leafNode hash => hash
  | innerNode left right => hashPair hash left.getRoot right.getRoot
  | zeroNode depth =>
    if depth = depositContractDepth then
      hashPair hash (zeroHashes hash (depth - 1)) (zeroHashes hash (depth - 1))
    else zeroHashes hash depth

/-- The outcome of a `Finalize` call: the receiver after the call, the node it returns and its
error. -/
structure Finalized where
  receiver : MerkleTreeNode
  node : MerkleTreeNode
  err : Option Error

def finalize : MerkleTreeNode → ℕ → ℕ → Finalized
  | finalizedNode depositCount hash, _, _ =>
    ⟨finalizedNode depositCount hash, finalizedNode depositCount hash, none⟩
  | leafNode hash, _, _ => ⟨leafNode hash, finalizedNode 1 hash, none⟩
  | innerNode left right, depositsToFinalize, depth =>
    let deposits := 2 ^ depth
    if deposits ≤ depositsToFinalize then
      ⟨innerNode left right,
        finalizedNode deposits ((innerNode left right).getRoot hash), none⟩
    else if depth = 0 then ⟨innerNode left right, zeroNode 0, some errZeroDepth⟩
    else
      let left := left.finalize depositsToFinalize (depth - 1)
      match left.err with
      | some err => ⟨innerNode left.node right, zeroNode 0, some err⟩
      | none =>
        if depositsToFinalize > deposits / 2 then
          let right := right.finalize (depositsToFinalize - deposits / 2) (depth - 1)
          match right.err with
          | some err => ⟨innerNode left.node right.node, zeroNode 0, some err⟩
          | none => ⟨innerNode left.node right.node, innerNode left.node right.node, none⟩
        else ⟨innerNode left.node right, innerNode left.node right, none⟩
  | zeroNode depth, _, _ => ⟨zeroNode depth, zeroNode 0, none⟩

/-- The loop of `generateProof`, with the node it has reached and the proof from the top. -/
def descend (index : ℕ) : ℕ → MerkleTreeNode → List Bytes32 →
    Except Fault (MerkleTreeNode × List Bytes32)
  | 0, node, proof => .ok (node, proof)
  | depth + 1, node, proof => do
    let left ← deref node.left
    let right ← deref node.right
    if index / 2 ^ depth % 2 = 1 then descend index depth right (proof ++ [left.getRoot hash])
    else descend index depth left (proof ++ [right.getRoot hash])

def generateProof (tree : MerkleTreeNode) (index depth : ℕ) :
    Except Fault (Bytes32 × List Bytes32) := do
  let (node, proof) ← tree.descend hash index depth []
  .ok (node.getRoot hash, proof.reverse)

end MerkleTreeNode

structure ExecutionBlock where
  hash : Bytes32
  depth : ℕ
deriving DecidableEq, Repr

structure DepositTreeSnapshot where
  finalized : List Bytes32
  depositRoot : Bytes32
  depositCount : ℕ
  executionBlock : ExecutionBlock
deriving DecidableEq, Repr

section Snapshots

variable (hash : HashFunc)

/-- The variables of the loop of `CalculateRoot`. -/
structure RootState where
  size : ℕ
  index : ℕ
  root : Bytes32

/-- One round of the loop of `CalculateRoot`, and whether it breaks. -/
def calculateRootRound (finalized : List Bytes32) (state : RootState) (i : ℕ) :
    Except Fault (RootState × Bool) :=
  if state.size % 2 = 1 then
    if state.index = 0 then .ok (state, true)
    else do
      let node ← deref finalized[state.index - 1]?
      .ok (⟨state.size / 2, state.index - 1, hashPair hash node state.root⟩, false)
  else .ok (⟨state.size / 2, state.index, hashPair hash state.root (zeroHashes hash i)⟩, false)

def DepositTreeSnapshot.calculateRoot (ds : DepositTreeSnapshot) : Except Fault Bytes32 := do
  let state ← loop (calculateRootRound hash ds.finalized) (List.range depositContractDepth)
    ⟨ds.depositCount, ds.finalized.length, zeroHashes hash 0⟩
  .ok (hashPair hash state.root (uint64ToBytesLittleEndian32 ds.depositCount))

def fromTreeParts (finalised : List Bytes32) (depositCount : ℕ) (executionBlock : ExecutionBlock) :
    Except Fault DepositTreeSnapshot := do
  let snapshot : DepositTreeSnapshot :=
    ⟨finalised, zeroHashes hash 0, depositCount, executionBlock⟩
  let root ← snapshot.calculateRoot hash
  .ok { snapshot with depositRoot := root }

end Snapshots

structure DepositTree where
  tree : MerkleTreeNode
  depositCount : ℕ
  finalizedExecutionBlock : ExecutionBlock
deriving DecidableEq, Repr

def newDepositTree : DepositTree :=
  ⟨create [] depositContractDepth, 0, ⟨Vector.replicate 32 0, 0⟩⟩

def fromSnapshot (hash : HashFunc) (snapshot : DepositTreeSnapshot) : Except Fault DepositTree := do
  let root ← snapshot.calculateRoot hash
  if snapshot.depositRoot ≠ root then .error (.error errInvalidSnapshotRoot)
  else if snapshot.depositCount ≥ 2 ^ depositContractDepth then .error (.error errTooManyDeposits)
  else do
    let tree ← fromSnapshotParts snapshot.finalized snapshot.depositCount depositContractDepth
    .ok ⟨tree, snapshot.depositCount, snapshot.executionBlock⟩

namespace DepositTree

def pushLeaf (d : DepositTree) (leaf : Bytes32) : Except Fault DepositTree := do
  let tree ← d.tree.pushLeaf leaf depositContractDepth
  .ok { d with tree, depositCount := (d.depositCount + 1) % 2 ^ 64 }

/-- The index of the last finalized deposit, or -1. -/
def finalizedIdx (finalizedDeposits : ℕ) : Except Fault ℤ :=
  if finalizedDeposits ≠ 0 then do
    let fd ← toInt finalizedDeposits
    .ok (fd - 1)
  else .ok (-1)

variable (hash : HashFunc)

def getSnapshot (d : DepositTree) : Except Fault DepositTreeSnapshot :=
  let (depositCount, finalized) := d.tree.getFinalized []
  fromTreeParts hash finalized depositCount d.finalizedExecutionBlock

/-- `Finalize`, with the tree it leaves also when it fails. -/
def finalize (d : DepositTree) (eth1DepositIndex : ℤ) (executionHash : Bytes32)
    (executionNumber : ℕ) : DepositTree × Option Error :=
  let depositCount := ((eth1DepositIndex + 1) % 2 ^ 64).toNat
  let result := d.tree.finalize hash depositCount depositContractDepth
  ({ d with tree := result.receiver, finalizedExecutionBlock := ⟨executionHash, executionNumber⟩ },
    result.err)

def getProof (d : DepositTree) (index : ℕ) : Except Fault (Bytes32 × List Bytes32) :=
  if d.depositCount ≤ 0 then .error (.error errInvalidDepositCount)
  else if index ≥ d.depositCount then .error (.error errInvalidIndex)
  else do
    let finalizedDeposits := (d.tree.getFinalized []).1
    let finalizedIdx ← finalizedIdx finalizedDeposits
    let i ← toInt index
    if finalizedDeposits > 0 ∧ i ≤ finalizedIdx then .error (.error errInvalidIndex)
    else do
      let (leaf, proof) ← d.tree.generateProof hash index depositContractDepth
      .ok (leaf, proof ++ [uint64ToBytesLittleEndian32 d.depositCount])

def getRoot (d : DepositTree) : Bytes32 :=
  hashPair hash (d.tree.getRoot hash) (uint64ToBytesLittleEndian32 d.depositCount)

end DepositTree

end Prysm.DepositSnapshot
