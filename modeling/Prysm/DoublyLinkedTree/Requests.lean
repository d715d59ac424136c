import Prysm.DoublyLinkedTree.ForkChoice
import Prysm.Library.Run

/-!
# Runs of the fork choice

The calls that the rest of the client makes to the fork choice object, each with its own context,
clock and balances handler.  A call is atomic, since the object is locked during it.
-/

namespace Prysm.DoublyLinkedTree

open Library

inductive Request
  | insert (block : ROBlock) (justifiedEpoch finalizedEpoch : Epoch)
  | insertNode (state : BeaconState) (block : ROBlock)
  | processAttestation (validatorIndices : List ValidatorIndex) (blockRoot : Root)
      (targetEpoch : Epoch)
  | updateJustifiedBalances (root : Root)
  | insertSlashedIndex (index : ValidatorIndex)
  | setOptimisticToValid (root : Root)
  | setOptimisticToInvalid (root parentRoot lastValidHash : Root)
  | removeNode (root : Root)
  | updateFinalizedCheckpoint (fc : Checkpoint)
  | prune
  | newSlot (slot : Slot) (order : List Root)
  | head

inductive Response
  | done
  | node (id : NodeId)
  | root (root : Root)
  | roots (roots : List Root)

/-- `removeNode` on the node of a root. -/
def removeNodeOf (root : Root) : Op (List Root) := do
  let s ← get
  removeNode ((s.nodeByRoot root).getD s.nodes.length)

def Request.op (config : BeaconChainConfig) : Request → Op Response
  | insert block justifiedEpoch finalizedEpoch =>
    .node <$> DoublyLinkedTree.insert config block justifiedEpoch finalizedEpoch
  | insertNode state block => (fun _ ↦ .done) <$> DoublyLinkedTree.insertNode config state block
  | processAttestation validatorIndices blockRoot targetEpoch =>
    (fun _ ↦ .done) <$> DoublyLinkedTree.processAttestation validatorIndices blockRoot targetEpoch
  | updateJustifiedBalances root =>
    (fun _ ↦ .done) <$> DoublyLinkedTree.updateJustifiedBalances config root
  | insertSlashedIndex index => (fun _ ↦ .done) <$> DoublyLinkedTree.insertSlashedIndex index
  | setOptimisticToValid root => (fun _ ↦ .done) <$> DoublyLinkedTree.setOptimisticToValid root
  | setOptimisticToInvalid root parentRoot lastValidHash =>
    .roots <$> DoublyLinkedTree.setOptimisticToInvalid root parentRoot lastValidHash
  | removeNode root => .roots <$> removeNodeOf root
  | updateFinalizedCheckpoint fc =>
    (fun _ ↦ .done) <$> (modify fun call ↦ { call with finalizedCheckpoint := fc } : Op Unit)
  | prune => (fun _ ↦ .done) <$> DoublyLinkedTree.prune config
  | newSlot slot order => (fun _ ↦ .done) <$> DoublyLinkedTree.newSlot config slot order
  | head => .root <$> forkChoiceHead config

/-- What is seen of a call. -/
structure Event where
  request : Request
  environment : Environment
  outcome : Except Fault Response
  alarms : List Alarm

/-- A call at the start. -/
def ForkChoice.call (f : ForkChoice) (environment : Environment) : Call :=
  ⟨f, environment, []⟩

/-- Make a call on a fork choice object. -/
def perform (config : BeaconChainConfig) (f : ForkChoice) (call : Request × Environment) :
    Event × ForkChoice :=
  let result := (call.1.op config).runFrom (f.call call.2)
  (⟨call.1, call.2, result.1, result.2.alarms⟩, result.2)

/-- The environment of a call: a context with the given number of checks, a clock that stands still
and a handler that knows no balances. -/
def environmentAt (ctx : Option ℕ) (now : Time) : Environment where
  ctx := ctx
  clock := fun _ ↦ now
  balancesByRoot := fun _ ↦ .ok []

end Prysm.DoublyLinkedTree
