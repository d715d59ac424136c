import Prysm.Library.Action
import Prysm.Slots

/-!
# The nodes of the fork choice tree

The types of the doubly linked tree and the functions of a node.

The nodes live in a list that stands for the memory, and a pointer is an index into it.  Nodes are
never freed: a node that the source leaves to the garbage collector stays in the list, where nothing
points to it any more.  A pointer outside the list stands for `nil`; the links that are `nil` in
ordinary stores have an optional pointer.  The maps hold no `nil`, since only `insert` writes to
them, and the checks for one are left out.

A call runs with what it finds outside the store: its context, the clock and the handler that looks
balances up.  The recursive functions take a bound on the depth of the recursion, and their callers
give one that exceeds the number of nodes.
-/

namespace Prysm.DoublyLinkedTree

open Library

/-- A pointer to a node. -/
abbrev NodeId := ℕ

/-- `Node`, without the time of its insertion. -/
structure Node where
  slot : Slot
  root : Root
  payloadHash : Root
  parent : Option NodeId
  target : Option NodeId
  children : List NodeId
  justifiedEpoch : Epoch
  unrealizedJustifiedEpoch : Epoch
  finalizedEpoch : Epoch
  unrealizedFinalizedEpoch : Epoch
  balance : ℕ
  weight : ℕ
  bestDescendant : Option NodeId
  optimistic : Bool
deriving DecidableEq, Repr

structure Vote where
  currentRoot : Root
  nextRoot : Root
  nextEpoch : Epoch
deriving DecidableEq, Repr

/-- `Store`, with the memory that holds its nodes. -/
structure Store where
  nodes : List Node
  justifiedCheckpoint : Checkpoint
  unrealizedJustifiedCheckpoint : Checkpoint
  unrealizedFinalizedCheckpoint : Checkpoint
  prevJustifiedCheckpoint : Checkpoint
  finalizedCheckpoint : Checkpoint
  proposerBoostRoot : Root
  previousProposerBoostRoot : Root
  previousProposerBoostScore : ℕ
  committeeWeight : ℕ
  treeRootNode : Option NodeId
  headNode : Option NodeId
  nodeByRoot : Root → Option NodeId
  nodeByPayload : Root → Option NodeId
  slashedIndices : ValidatorIndex → Bool
  genesisTime : Time
  highestReceivedNode : Option NodeId
  receivedBlocksLastEpoch : List Slot
  allTipsAreInvalid : Bool

structure ForkChoice extends Store where
  votes : List Vote
  balances : List ℕ
  justifiedBalances : List ℕ
  numActiveValidators : ℕ

/-- `New`, with the genesis time that the client sets next. -/
def ForkChoice.new (config : BeaconChainConfig) (genesisTime : Time) : ForkChoice where
  nodes := []
  justifiedCheckpoint := ⟨0, zeroHash⟩
  unrealizedJustifiedCheckpoint := ⟨0, zeroHash⟩
  unrealizedFinalizedCheckpoint := ⟨0, zeroHash⟩
  prevJustifiedCheckpoint := ⟨0, zeroHash⟩
  finalizedCheckpoint := ⟨0, zeroHash⟩
  proposerBoostRoot := zeroHash
  previousProposerBoostRoot := zeroHash
  previousProposerBoostScore := 0
  committeeWeight := 0
  treeRootNode := none
  headNode := none
  nodeByRoot := fun _ ↦ none
  nodeByPayload := fun _ ↦ none
  slashedIndices := fun _ ↦ false
  genesisTime := genesisTime
  highestReceivedNode := none
  receivedBlocksLastEpoch := List.replicate config.slotsPerEpoch 0
  allTipsAreInvalid := false
  votes := []
  balances := []
  justifiedBalances := []
  numActiveValidators := 0

/-- Branches that only an accounting error can reach. -/
inductive Alarm
  /-- `updateBalances` sets the balance of a node to zero, with a warning in the log. -/
  | invalidBalance
  /-- `InsertSlashedIndex` sets the balance of a node to zero. -/
  | slashedBalance
  /-- `applyProposerBoostScore` subtracts more than the balance of a node. -/
  | boostUnderflow
deriving DecidableEq, Repr

/-- The outside of a call: the number of checks of its context that still succeed (`none` if it is
never cancelled), the readings of the clock to come, and the answers of the balances handler. -/
structure Environment where
  ctx : Option ℕ
  clock : ℕ → Time
  balancesByRoot : Root → Except Error (List ℕ)

/-- The state of a call. -/
structure Call extends ForkChoice, Environment where
  alarms : List Alarm

instance : Coe Call ForkChoice where coe c := c.toForkChoice

instance : Coe Call Store where coe c := c.toStore

abbrev Op := Action Call Fault

def errNilNode : Error := .errorf "invalid nil or unknown node" []

/-- `errors.Wrap` on the error of a call. -/
def wrap {α : Type} (format : String) (op : Op α) : Op α :=
  op.mapOutcome fun outcome ↦ wrapf outcome format []

/-- `ctx.Err()`. -/
def checkContext : Op Unit := fun call ↦
  match call.ctx with
  | none => (.ok (), call)
  | some 0 => (.error (.error .canceled), call)
  | some (checks + 1) => (.ok (), { call with ctx := some checks })

/-- `time.Now()`. -/
def timeNow : Op Time := fun call ↦
  (.ok (call.clock 0), { call with clock := fun reading ↦ call.clock (reading + 1) })

/-- `slots.CurrentSlot`. -/
def currentSlot (config : BeaconChainConfig) : Op Slot := do
  let now ← timeNow
  return slotAt config (← get).genesisTime now

/-- The node behind a pointer; reading through `nil` is a panic. -/
def load (id : NodeId) : Op Node := do
  match (← get).nodes[id]? with
  | some node => return node
  | none => throw .panic

/-- The node behind a link. -/
def loadLink (link : Option NodeId) : Op Node :=
  match link with
  | some id => load id
  | none => throw .panic

/-- Write the fields of a node. -/
def update (id : NodeId) (change : Node → Node) : Op Unit :=
  modify fun call ↦ { call with nodes := call.nodes.modify id change }

/-- One child in the loop of `applyWeightChanges`. -/
def addChildWeight (applyToChild : NodeId → Op Unit) (childrenWeight : ℕ) (child : NodeId) :
    Op ℕ := do
  checkContext
  applyToChild child
  return (childrenWeight + (← load child).weight) % 2 ^ 64

def applyWeightChanges : ℕ → NodeId → Op Unit
  | 0, _ => throw .diverges
  | fuel + 1, id => do
    let n ← load id
    let childrenWeight ← n.children.foldlM (addChildWeight (applyWeightChanges fuel)) 0
    if n.root = zeroHash then return
    update id fun n ↦ { n with weight := (n.balance + childrenWeight) % 2 ^ 64 }

def Node.viableForHead (n : Node) (justifiedEpoch currentEpoch : Epoch) : Bool :=
  if justifiedEpoch = 0 then true
  else n.justifiedEpoch = justifiedEpoch ∨ currentEpoch ≤ (n.justifiedEpoch + 2) % 2 ^ 64

def Node.leadsToViableHead (n : Node) (justifiedEpoch currentEpoch : Epoch) : Op Bool := do
  match n.bestDescendant with
  | none => return n.viableForHead justifiedEpoch currentEpoch
  | some best => return (← load best).viableForHead justifiedEpoch currentEpoch

/-- The variables of the loop of `updateBestDescendant`. -/
structure BestChild where
  bestChild : Option NodeId
  bestWeight : ℕ
  hasViableDescendant : Bool

/-- The comparison of a child with the best one so far. -/
def BestChild.compare (best : BestChild) (child : NodeId) (n : Node)
    (childLeadsToViableHead : Bool) : Op BestChild :=
  if childLeadsToViableHead && !best.hasViableDescendant then
    return ⟨some child, n.weight, true⟩
  else if childLeadsToViableHead then
    if n.weight = best.bestWeight then do
      -- Equal weights are told apart by the root.
      let bestNode ← loadLink best.bestChild
      if bestNode.root < n.root then
        return { best with bestChild := some child }
      else
        return best
    else if best.bestWeight < n.weight then
      return { best with bestChild := some child, bestWeight := n.weight }
    else
      return best
  else
    return best

/-- One child in the loop of `updateBestDescendant`. -/
def considerChild (updateChild : NodeId → Op Unit) (justifiedEpoch currentEpoch : Epoch)
    (best : BestChild) (child : NodeId) : Op BestChild := do
  match (← get).nodes[child]? with
  | none => throw (.error (.wrapf errNilNode "could not update best descendant" []))
  | some _ =>
    updateChild child
    let n ← load child
    best.compare child n (← n.leadsToViableHead justifiedEpoch currentEpoch)

/-- `updateBestDescendant`.  The source passes the finalized epoch too and does not read it. -/
def updateBestDescendant (justifiedEpoch currentEpoch : Epoch) : ℕ → NodeId → Op Unit
  | 0, _ => throw .diverges
  | fuel + 1, id => do
    checkContext
    let n ← load id
    if n.children = [] then
      update id fun n ↦ { n with bestDescendant := none }
    else
      let best ← n.children.foldlM
        (considerChild (updateBestDescendant justifiedEpoch currentEpoch fuel)
          justifiedEpoch currentEpoch) ⟨none, 0, false⟩
      if best.hasViableDescendant then
        let bestNode ← loadLink best.bestChild
        update id fun n ↦
          { n with bestDescendant := bestNode.bestDescendant.or best.bestChild }
      else
        update id fun n ↦ { n with bestDescendant := none }

def setNodeAndParentValidated : ℕ → NodeId → Op Unit
  | 0, _ => throw .diverges
  | fuel + 1, id => do
    checkContext
    let n ← load id
    if !n.optimistic then return
    update id fun n ↦ { n with optimistic := false }
    match n.parent with
    | none => return
    | some parent => setNodeAndParentValidated fuel parent

end Prysm.DoublyLinkedTree
