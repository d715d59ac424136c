import Prysm.DoublyLinkedTree.Basic

/-!
# The fork choice store

The functions that find the head, insert a block, prune upon finalization and remove the blocks with
an invalid payload.
-/

namespace Prysm.DoublyLinkedTree

open Library

def errUnknownJustifiedRoot : Error := .errorf "unknown justified root" []

def errUnknownFinalizedRoot : Error := .errorf "unknown finalized root" []

def errInvalidParentRoot : Error := .errorf "invalid parent root" []

def errInvalidOptimisticStatus : Error := .errorf "invalid optimistic status" []

/-- The part of a block that `insert` reads.  `execution` is the block hash of the execution payload
or the error of reading it, and `none` before Bellatrix. -/
structure ROBlock where
  root : Root
  slot : Slot
  parentRoot : Root
  execution : Option (Except Error Root)

/-- The payload hash of a block, which is zero before Bellatrix. -/
def ROBlock.payloadHash (block : ROBlock) : Except Fault Root :=
  match block.execution with
  | none => .ok zeroHash
  | some execution => execution.mapError Fault.error

/-- The root of the tree as a pointer, which is `nil` when there is no tree. -/
def Store.treeRoot (s : Store) : NodeId := s.treeRootNode.getD s.nodes.length

/-- A bound on the depth of every recursion over the nodes. -/
def Store.depthBound (s : Store) : ℕ := s.nodes.length + 1

variable (config : BeaconChainConfig)

/-- The end of `head`: the best descendant of the justified node. -/
def headFrom (justifiedNode : Option NodeId) : Op Root := do
  let bestDescendant := (← loadLink justifiedNode).bestDescendant.or justifiedNode
  let currentEpoch := toEpoch config (← currentSlot config)
  let best ← loadLink bestDescendant
  let s ← get
  if best.viableForHead s.justifiedCheckpoint.epoch currentEpoch then
    modify fun call ↦ { call with allTipsAreInvalid := false, headNode := bestDescendant }
    return best.root
  else
    modify fun call ↦ { call with allTipsAreInvalid := true }
    throw (.error (.errorf ("head at slot %d with weight %d is not eligible, finalizedEpoch, " ++
      "justified Epoch %d, %d != %d, %d")
      [.number best.slot, .number (best.weight / (10 * 10 ^ 9)), .number best.finalizedEpoch,
        .number best.justifiedEpoch, .number s.finalizedCheckpoint.epoch,
        .number s.justifiedCheckpoint.epoch]))

def head : Op Root := do
  checkContext
  let s ← get
  match s.nodeByRoot s.justifiedCheckpoint.root with
  | some justifiedNode => headFrom config (some justifiedNode)
  | none =>
    -- The justified checkpoint of genesis has the zero root.
    if s.justifiedCheckpoint.epoch = config.genesisEpoch then
      headFrom config s.treeRootNode
    else
      throw (.error (.wrapf errUnknownJustifiedRoot "%#x" [.bytes s.justifiedCheckpoint.root]))

/-- The children of the parent once `node` is taken out: the last child moves to its place. -/
def removeFromChildren (children : List NodeId) (node : NodeId) : List NodeId :=
  if children.length = 1 then []
  else if node ∈ children then
    (children.set (children.idxOf node) (children.getLastD node)).dropLast
  else children

variable (node : Node)

/-- The end of `removeNodeAndChildren`: the node leaves the maps, and the boost if it had it. -/
def Call.forget (call : Call) : Call :=
  { call with
    proposerBoostRoot :=
      if node.root = call.proposerBoostRoot then zeroHash else call.proposerBoostRoot
    previousProposerBoostRoot :=
      if node.root = call.previousProposerBoostRoot then zeroHash
      else call.previousProposerBoostRoot
    previousProposerBoostScore :=
      if node.root = call.previousProposerBoostRoot then 0 else call.previousProposerBoostScore
    nodeByRoot := Function.update call.nodeByRoot node.root none
    nodeByPayload := Function.update call.nodeByPayload node.payloadHash none }

/-- One child in the loop of `removeNodeAndChildren`. -/
def removeChild (removeSubtree : NodeId → List Root → Op (List Root)) (invalidRoots : List Root)
    (child : NodeId) : Op (List Root) := do
  checkContext
  removeSubtree child invalidRoots

/-- `removeNodeAndChildren`.  The roots that the source returns beside an error are left out. -/
def removeNodeAndChildren : ℕ → NodeId → List Root → Op (List Root)
  | 0, _, _ => throw .diverges
  | fuel + 1, id, invalidRoots => do
    let node ← load id
    let invalidRoots ← node.children.foldlM (removeChild (removeNodeAndChildren fuel)) invalidRoots
    modify (Call.forget node)
    return invalidRoots ++ [node.root]

def removeNode (id : NodeId) : Op (List Root) := do
  match (← get).nodes[id]? with
  | none => throw (.error (.wrapf errNilNode "could not remove node" []))
  | some node =>
    match node.optimistic, node.parent with
    | true, some parent =>
      update parent fun p ↦ { p with children := removeFromChildren p.children id }
      removeNodeAndChildren (← get).depthBound id []
    | _, _ => throw (.error errInvalidOptimisticStatus)

/-- A step of an insertion: an error takes the node out of the store again.  An error of that is
only logged. -/
def orRemove (id : NodeId) (format : String) (op : Op Unit) : Op Unit := do
  match ← op.attempt with
  | .ok () => return
  | .error (.error err) =>
    let _ ← (removeNode id).attempt
    throw (.error (.wrapf err format []))
  | .error fault => throw fault

/-- The walk of `setOptimisticToInvalid` up to the first block after the last valid payload. -/
def findFirstInvalid (lastValidHash : Root) : ℕ → NodeId → Op NodeId
  | 0, _ => throw .diverges
  | fuel + 1, id => do
    match (← load id).parent with
    | none => return id
    | some parent =>
      if (← load parent).payloadHash = lastValidHash then return id
      else do
        checkContext
        findFirstInvalid lastValidHash fuel parent

def setOptimisticToInvalid (root parentRoot lastValidHash : Root) : Op (List Root) := do
  let s ← get
  match s.nodeByRoot root with
  | none =>
    match s.nodeByRoot parentRoot with
    | none => throw (.error (.wrapf errNilNode "could not set node to invalid" []))
    | some id =>
      if (← load id).payloadHash = lastValidHash then return []
      else removeInvalid id
  | some id =>
    if (← loadLink (← load id).parent).root = parentRoot then removeInvalid id
    else throw (.error errInvalidParentRoot)
where
  /-- The end of the function, after `node` has been found. -/
  removeInvalid (id : NodeId) : Op (List Root) := do
    let firstInvalid ← findFirstInvalid lastValidHash (← get).depthBound id
    -- No ancestor has the last valid payload: the execution client does not follow the chain.
    if (← load firstInvalid).parent = none then
      if (← load id).root = parentRoot then return []
      else removeNode id
    else
      removeNode firstInvalid

/-- The node that `insert` makes for a block. -/
def newNode (block : ROBlock) (payloadHash : Root) (justifiedEpoch finalizedEpoch : Epoch)
    (id : NodeId) (parent : Option (NodeId × Node)) : Node where
  slot := block.slot
  root := block.root
  payloadHash := payloadHash
  parent := parent.map Prod.fst
  target :=
    if block.slot % config.slotsPerEpoch = 0 then some id
    else match parent with
      | none => none
      | some (parentId, parent) =>
        if toEpoch config block.slot = toEpoch config parent.slot then parent.target
        else some parentId
  children := []
  justifiedEpoch := justifiedEpoch
  unrealizedJustifiedEpoch := justifiedEpoch
  finalizedEpoch := finalizedEpoch
  unrealizedFinalizedEpoch := finalizedEpoch
  balance := 0
  weight := 0
  bestDescendant := none
  optimistic := true

/-- The node is put into the memory and into both maps. -/
def Call.register (call : Call) : Call :=
  { call with
    nodes := call.nodes ++ [node]
    nodeByRoot := Function.update call.nodeByRoot node.root (some call.nodes.length)
    nodeByPayload := Function.update call.nodeByPayload node.payloadHash (some call.nodes.length) }

/-- The first node, which becomes the root of the tree. -/
def Call.plant (call : Call) : Call :=
  { call.register node with
    treeRootNode := some call.nodes.length
    headNode := some call.nodes.length
    highestReceivedNode := some call.nodes.length }

/-- A node that becomes the last child of its parent. -/
def Call.link (parentId : NodeId) (call : Call) : Call :=
  { call.register node with
    nodes := (call.register node).nodes.modify parentId fun parent ↦
      { parent with children := parent.children ++ [call.nodes.length] } }

/-- The node leaves both maps. -/
def Call.unregister (call : Call) : Call :=
  { call with
    nodeByRoot := Function.update call.nodeByRoot node.root none
    nodeByPayload := Function.update call.nodeByPayload node.payloadHash none }

/-- The time after the start of a slot in which a block is boosted. -/
def boostThreshold : ℕ :=
  config.secondsPerSlot / config.intervalsPerSlot * second

/-- The first block that arrives early in its slot is boosted. -/
def Call.boostFirst (block : ROBlock) (currentSlot : Slot) (sss : ℕ) (call : Call) : Call :=
  if currentSlot = block.slot ∧ sss < boostThreshold config ∧ call.proposerBoostRoot = zeroHash then
    { call with proposerBoostRoot := block.root }
  else
    call

/-- The part of `insert` that updates the store after the node was linked to its parent.  An error
in the best descendants takes the node out again. -/
def boostAndUpdate (id : NodeId) (block : ROBlock) (now : Time) : Op Unit := do
  let currentSlot ← currentSlot config
  let sss ← wrap "could not determine time since current slot started" <| .ofExcept <|
    sinceSlotStart config currentSlot (← get).genesisTime now
  modify (Call.boostFirst config block currentSlot sss)
  let s ← get
  orRemove id "could not update best descendants"
    (updateBestDescendant s.justifiedCheckpoint.epoch (toEpoch config currentSlot) s.depthBound
      s.treeRoot)

/-- The end of `insert`: the received blocks and the highest one. -/
def recordReceived (id : NodeId) (slot : Slot) : Op Unit := do
  let currentSlot ← currentSlot config
  modify fun call ↦ { call with
    receivedBlocksLastEpoch :=
      if currentSlot < (slot + config.slotsPerEpoch) % 2 ^ 64 then
        call.receivedBlocksLastEpoch.set (slot % config.slotsPerEpoch) slot
      else call.receivedBlocksLastEpoch }
  let highest ← loadLink (← get).highestReceivedNode
  modify fun call ↦ { call with
    highestReceivedNode := if highest.slot < slot then some id else call.highestReceivedNode }

/-- `insert` of a block that is not in the store. -/
def insertNew (block : ROBlock) (payloadHash : Root) (justifiedEpoch finalizedEpoch : Epoch) :
    Op NodeId := do
  let s ← get
  let id := s.nodes.length
  match s.nodeByRoot block.parentRoot with
  | none =>
    let node := newNode config block payloadHash justifiedEpoch finalizedEpoch id none
    if s.treeRootNode = none then
      modify (Call.plant node)
      recordReceived config id block.slot
      return id
    else
      modify fun call ↦ (call.register node).unregister node
      throw (.error errInvalidParentRoot)
  | some parentId =>
    let parent ← load parentId
    modify (Call.link (newNode config block payloadHash justifiedEpoch finalizedEpoch id
      (some (parentId, parent))) parentId)
    let now ← timeNow
    if now < (← get).genesisTime then
      return id
    else
      boostAndUpdate config id block now
      recordReceived config id block.slot
      return id

def insert (block : ROBlock) (justifiedEpoch finalizedEpoch : Epoch) : Op NodeId := do
  let payloadHash ← .ofExcept block.payloadHash
  -- A block that is in the store is returned as it is.
  match (← get).nodeByRoot block.root with
  | some id => return id
  | none => insertNew config block payloadHash justifiedEpoch finalizedEpoch

def pruneFinalizedNodeByRootMap (finalizedNode : NodeId) : ℕ → NodeId → Op Unit
  | 0, _ => throw .diverges
  | fuel + 1, id => do
    checkContext
    if id = finalizedNode then
      update id fun node ↦
        { node with target := if node.target = some id then node.target else none }
    else
      let node ← load id
      node.children.forM (pruneFinalizedNodeByRootMap finalizedNode fuel)
      update id fun node ↦ { node with children := [] }
      modify (Call.unregister node)

/-- One child in the last loop of `prune`. -/
def pruneIncompatibleChild (finalizedNode : NodeId) (checkpointMaxSlot : Slot) (child : NodeId) :
    Op Unit := do
  match (← get).nodes[child]? with
  | none => return
  | some node =>
    if node.slot ≤ checkpointMaxSlot then
      wrap "could not prune incompatible finalized child"
        (pruneFinalizedNodeByRootMap finalizedNode (← get).depthBound child)

/-- The finalized node becomes the root of the tree. -/
def Call.reroot (finalizedNode : NodeId) (call : Call) : Call :=
  { call with
    nodes := call.nodes.modify finalizedNode fun node ↦ { node with parent := none }
    treeRootNode := some finalizedNode }

/-- The end of `prune`: the children of the finalized node that are not after the checkpoint. -/
def pruneIncompatibleChildren (finalizedNode : NodeId) (finalizedEpoch : Epoch) : Op Unit := do
  let checkpointMaxSlot ← wrap "could not compute epoch start" <| .ofExcept <|
    epochStart config finalizedEpoch
  let node ← load finalizedNode
  if node.slot = checkpointMaxSlot then
    return
  else
    node.children.forM (pruneIncompatibleChild finalizedNode checkpointMaxSlot)

def prune : Op Unit := do
  let s ← get
  match s.nodeByRoot s.finalizedCheckpoint.root with
  | none =>
    throw (.error (.wrapf errUnknownFinalizedRoot "%#x" [.bytes s.finalizedCheckpoint.root]))
  | some finalizedNode =>
    if (← load finalizedNode).parent = none then
      -- The finalized checkpoint has not changed.
      return
    else
      pruneFinalizedNodeByRootMap finalizedNode s.depthBound s.treeRoot
      modify (Call.reroot finalizedNode)
      pruneIncompatibleChildren config finalizedNode s.finalizedCheckpoint.epoch

end Prysm.DoublyLinkedTree
