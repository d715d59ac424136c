import Prysm.DoublyLinkedTree.Store

/-!
# Votes, balances and checkpoints

The functions of the fork choice object: the vote accounting, the proposer boost, the checkpoints
and the calls that the rest of the client makes.
-/

namespace Prysm.DoublyLinkedTree

open Library

def errInvalidNilCheckpoint : Error := .errorf "invalid nil checkpoint" []

/-- The part of a beacon state that `InsertNode` reads, with what `precompute.UnrealizedCheckpoints`
gives for it. -/
structure BeaconState where
  slot : Slot
  currentJustifiedCheckpoint : Option Checkpoint
  finalizedCheckpoint : Option Checkpoint
  unrealizedCheckpoints : Except Error (Checkpoint × Checkpoint)

/-- `ProcessAttestation` for one validator. -/
def Call.castVote (blockRoot : Root) (targetEpoch : Epoch) (call : Call) (index : ValidatorIndex) :
    Call :=
  -- Validator indices grow the vote cache.
  let votes := call.votes ++
    List.replicate (index + 1 - call.votes.length) ⟨zeroHash, zeroHash, 0⟩
  { call with
    votes := votes.modify index fun vote ↦
      if (vote.nextRoot = zeroHash ∧ vote.currentRoot = zeroHash) ∨
          vote.nextEpoch < targetEpoch then
        { vote with nextEpoch := targetEpoch, nextRoot := blockRoot }
      else vote }

def processAttestation (validatorIndices : List ValidatorIndex) (blockRoot : Root)
    (targetEpoch : Epoch) : Op Unit :=
  modify fun call ↦ validatorIndices.foldl (Call.castVote blockRoot targetEpoch) call

variable (config : BeaconChainConfig)

/-- The weight of a committee: the sum of the positive balances over the slots of an epoch. -/
def committeeWeightOf (balances : List ℕ) : ℕ :=
  balances.foldl
    (fun weight balance ↦ if 0 < balance then (weight + balance) % 2 ^ 64 else weight) 0
    / config.slotsPerEpoch

def updateJustifiedBalances (root : Root) : Op Unit := do
  let balances ← wrap "could not get justified balances" <| .ofExcept <|
    ((← get).balancesByRoot root).mapError Fault.error
  modify fun call ↦ { call with
    justifiedBalances := balances
    committeeWeight := committeeWeightOf config balances
    numActiveValidators := balances.countP (0 < ·) }

variable (root : Root)

/-- The action on the node of a root, which is left out for the zero hash. -/
def unlessZero (op : Op Unit) : Op Unit :=
  if root = zeroHash then pure () else op

/-- `node.balance += amount`, if the root is in the store. -/
def addBalance (amount : ℕ) : Op Unit := do
  match (← get).nodeByRoot root with
  | none => return
  | some id => update id fun node ↦ { node with balance := (node.balance + amount) % 2 ^ 64 }

/-- `node.balance -= amount`, if the root is in the store.  A balance that is too small becomes
zero, which raises the alarm. -/
def subtractBalance (alarm : Alarm) (root : Root) (amount : ℕ) : Op Unit := do
  match (← get).nodeByRoot root with
  | none => return
  | some id =>
    if (← load id).balance < amount then
      modify fun call ↦ { call with alarms := call.alarms ++ [alarm] }
      update id fun node ↦ { node with balance := 0 }
    else
      update id fun node ↦ { node with balance := node.balance - amount }

/-- The balance of a vote goes to the node of its next root and leaves the one of its current root.
-/
def moveBalance (vote : Vote) (oldBalance newBalance : ℕ) : Op Unit :=
  if vote.currentRoot ≠ vote.nextRoot ∨ oldBalance ≠ newBalance then do
    unlessZero vote.nextRoot (addBalance vote.nextRoot newBalance)
    unlessZero vote.currentRoot (subtractBalance .invalidBalance vote.currentRoot oldBalance)
  else
    return

/-- One validator in the loop of `updateBalances`. -/
def updateBalance (newBalances : List ℕ) (index : ValidatorIndex) : Op Unit := do
  let f ← get
  let vote := f.votes.getD index ⟨zeroHash, zeroHash, 0⟩
  -- Slashed validators and those that never voted are skipped.
  if f.slashedIndices index then
    return
  else if vote.currentRoot = zeroHash ∧ vote.nextRoot = zeroHash then
    return
  else
    moveBalance vote (f.balances.getD index 0) (newBalances.getD index 0)
    modify fun call ↦ { call with
      votes := call.votes.modify index fun vote ↦ { vote with currentRoot := vote.nextRoot } }

def updateBalances : Op Unit := do
  let f ← get
  (List.range f.votes.length).forM (updateBalance f.justifiedBalances)
  modify fun call ↦ { call with balances := f.justifiedBalances }

/-- The score that the proposer boost adds to a node. -/
def proposerScore (committeeWeight : ℕ) : ℕ :=
  committeeWeight * config.proposerScoreBoost % 2 ^ 64 / 100

/-- The score of the last boost is taken back. -/
def withdrawBoost (score : ℕ) : Op Unit := do
  match (← get).nodeByRoot root with
  | none => return
  | some id =>
    let balance := (← load id).balance
    modify fun call ↦ { call with
      alarms := if balance < score then call.alarms ++ [.boostUnderflow] else call.alarms }
    update id fun node ↦ { node with balance := (node.balance + 2 ^ 64 - score) % 2 ^ 64 }

/-- The score of the boost is added, if there is a boost; the score that was added is returned. -/
def grantBoost (score : ℕ) : Op ℕ :=
  if root = zeroHash then
    return 0
  else do
    match (← get).nodeByRoot root with
    | none => return 0
    | some id =>
      update id fun node ↦ { node with balance := (node.balance + score) % 2 ^ 64 }
      return score

def applyProposerBoostScore : Op Unit := do
  let s ← get
  unlessZero s.previousProposerBoostRoot
    (withdrawBoost s.previousProposerBoostRoot s.previousProposerBoostScore)
  let score ← grantBoost s.proposerBoostRoot (proposerScore config s.committeeWeight)
  modify fun call ↦ { call with
    previousProposerBoostRoot := s.proposerBoostRoot, previousProposerBoostScore := score }

/-- `ForkChoice.Head`. -/
def forkChoiceHead : Op Root := do
  wrap "could not update balances" updateBalances
  wrap "could not apply proposer boost score" (applyProposerBoostScore config)
  let s ← get
  wrap "could not apply weight changes" (applyWeightChanges s.depthBound s.treeRoot)
  let currentEpoch := toEpoch config (← currentSlot config)
  wrap "could not update best descendant"
    (updateBestDescendant s.justifiedCheckpoint.epoch currentEpoch s.depthBound s.treeRoot)
  head config

def insertSlashedIndex (index : ValidatorIndex) : Op Unit := do
  let f ← get
  if f.slashedIndices index then
    return
  else
    modify fun call ↦
      { call with slashedIndices := Function.update call.slashedIndices index true }
    if f.balances.length ≤ index then
      return
    else if f.votes.length ≤ index then
      return
    else
      -- The last vote of this equivocating validator is subtracted.
      subtractBalance .slashedBalance (f.votes.getD index ⟨zeroHash, zeroHash, 0⟩).currentRoot
        (f.balances.getD index 0)

def setOptimisticToValid : Op Unit := do
  let s ← get
  match s.nodeByRoot root with
  | none => throw (.error (.wrapf errNilNode "could not set node to valid" []))
  | some id => setNodeAndParentValidated s.depthBound id

/-- A node with a greater justified epoch than the store's makes it take its unrealized justified
checkpoint. -/
def realizeJustified (justifiedEpoch : Epoch) : Op Unit := do
  let s ← get
  if s.justifiedCheckpoint.epoch < justifiedEpoch then
    modify fun call ↦ { call with
      prevJustifiedCheckpoint := call.justifiedCheckpoint
      justifiedCheckpoint := call.unrealizedJustifiedCheckpoint }
    wrap "could not update justified balances"
      (updateJustifiedBalances config s.unrealizedJustifiedCheckpoint.root)
  else
    return

/-- The same for the finalized checkpoint. -/
def realizeFinalized (finalizedEpoch : Epoch) : Op Unit :=
  modify fun call ↦ { call with
    finalizedCheckpoint :=
      if call.finalizedCheckpoint.epoch < finalizedEpoch then call.unrealizedFinalizedCheckpoint
      else call.finalizedCheckpoint }

/-- One node in the loop of `updateUnrealizedCheckpoints`. -/
def realizeCheckpoints (root : Root) : Op Unit := do
  match (← get).nodeByRoot root with
  | none => return
  | some id =>
    update id fun node ↦ { node with
      justifiedEpoch := node.unrealizedJustifiedEpoch
      finalizedEpoch := node.unrealizedFinalizedEpoch }
    let node ← load id
    realizeJustified config node.justifiedEpoch
    realizeFinalized node.finalizedEpoch

/-- `updateUnrealizedCheckpoints`.  `order` lists the keys of `nodeByRoot` in the order in which the
loop over the map visits them. -/
def updateUnrealizedCheckpoints (order : List Root) : Op Unit :=
  order.forM (realizeCheckpoints config)

/-- The store's unrealized checkpoints after those of a new node. -/
def Store.withUnrealized (s : Store) (uj uf : Checkpoint) : Store :=
  { s with
    unrealizedJustifiedCheckpoint :=
      if s.unrealizedFinalizedCheckpoint.epoch < uf.epoch ∨
          s.unrealizedJustifiedCheckpoint.epoch < uj.epoch then uj
      else s.unrealizedJustifiedCheckpoint
    unrealizedFinalizedCheckpoint :=
      if s.unrealizedFinalizedCheckpoint.epoch < uf.epoch then uf
      else s.unrealizedFinalizedCheckpoint }

/-- The unrealized checkpoints of a state, or the given ones if they cannot be computed. -/
def BeaconState.unrealizedOr (state : BeaconState) (jc fc : Checkpoint) : Checkpoint × Checkpoint :=
  match state.unrealizedCheckpoints with
  | .ok unrealized => unrealized
  | .error _ => (jc, fc)

def pullTips (state : BeaconState) (id : NodeId) (jc fc : Checkpoint) :
    Op (Checkpoint × Checkpoint) := do
  match (← load id).parent with
  | none => return (jc, fc)
  | some parentId =>
    let currentEpoch := toEpoch config (← currentSlot config)
    let stateEpoch := toEpoch config state.slot
    let parent ← load parentId
    let currJustified := parent.unrealizedJustifiedEpoch = currentEpoch
    let prevJustified := (parent.unrealizedJustifiedEpoch + 1) % 2 ^ 64 = currentEpoch
    let tooEarlyForCurr := sinceEpochStarts config state.slot * 3 < config.slotsPerEpoch * 2
    if currJustified ∨ (stateEpoch = currentEpoch ∧ prevJustified ∧ tooEarlyForCurr) then
      update id fun node ↦ { node with
        unrealizedJustifiedEpoch := parent.unrealizedJustifiedEpoch
        unrealizedFinalizedEpoch := parent.unrealizedFinalizedEpoch }
      return (jc, fc)
    else
      let (uj, uf) := state.unrealizedOr jc fc
      modify fun call ↦ { call with toStore := call.toStore.withUnrealized uj uf }
      update id fun node ↦ { node with
        unrealizedJustifiedEpoch := uj.epoch, unrealizedFinalizedEpoch := uf.epoch }
      if stateEpoch < currentEpoch then
        update id fun node ↦ { node with justifiedEpoch := uj.epoch, finalizedEpoch := uf.epoch }
        return (uj, uf)
      else
        return (jc, fc)

/-- A greater justified checkpoint than the store's. -/
def updateJustified (jc : Checkpoint) : Op Unit := do
  if (← get).justifiedCheckpoint.epoch < jc.epoch then
    modify fun call ↦ { call with
      prevJustifiedCheckpoint := call.justifiedCheckpoint, justifiedCheckpoint := jc }
    wrap "could not update justified balances" (updateJustifiedBalances config jc.root)
  else
    return

def updateCheckpoints (jc fc : Checkpoint) : Op Unit := do
  updateJustified config jc
  if fc.epoch ≤ (← get).finalizedCheckpoint.epoch then
    return
  else
    modify fun call ↦ { call with finalizedCheckpoint := fc }
    prune config

/-- The part of `InsertNode` after the block was inserted. -/
def pullUp (state : BeaconState) (id : NodeId) (jc fc : Checkpoint) : Op Unit := do
  let (jc, fc) ← pullTips config state id jc fc
  orRemove id "could not update checkpoints" (updateCheckpoints config jc fc)

def insertNode (state : BeaconState) (block : ROBlock) : Op Unit := do
  match state.currentJustifiedCheckpoint, state.finalizedCheckpoint with
  | some jc, some fc =>
    let id ← insert config block jc.epoch fc.epoch
    pullUp config state id jc fc
  | _, _ => throw (.error errInvalidNilCheckpoint)

def newSlot (slot : Slot) (order : List Root) : Op Unit := do
  modify fun call ↦ { call with proposerBoostRoot := zeroHash }
  if !isEpochStart config slot then
    return
  else
    wrap "could not update unrealized checkpoints" (updateUnrealizedCheckpoints config order)
    prune config

end Prysm.DoublyLinkedTree
