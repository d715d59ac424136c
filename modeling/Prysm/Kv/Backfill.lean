import Prysm.Kv.StateMap

/-!
# Backfill

A node that starts from a checkpoint stores the origin block with `SaveOrigin`.  New finalized
blocks are linked to the index above the origin by `SaveFinalizedCheckpoint`, and `fillBack` stores
batches of ancestors of the origin and links them below the lowest block of the index.
-/

namespace Prysm.Kv

open Prysm.Library

variable {Validator Body : Type}

def errBatchDisconnected : Error :=
  .errorf "highest block root in backfill batch doesn't match next parent_root" []

def errEmptyBlockSlice : Error := .errorf "[]blocks.ROBlock is empty" []

def errIncorrectBlockParent : Error :=
  .errorf "unexpected missing or forked blocks in a []ROBlock" []

def errFinalizedChildNotFound : Error :=
  .errorf "unable to find finalized root descending from backfill batch" []

def errNotConnectedToFinalized : Error :=
  .errorf "unable to finalize backfill blocks, finalized parent_root does not match" []

section Model

variable (config : BeaconChainConfig) (codec : StateCodec Validator Body) (enabled : Bool)
  (store : Store Validator)

def saveBackfillStatus (fault : Option Error) (bf : BackfillStatus) :
    Except Fault Unit × Store Validator :=
  store.update (.ok { store.db with backfillStatus := some bf }) fault

def stateSummaryCachePruneCount : ℕ := 128

section

variable (fault : Option Error)

/-- `saveCachedStateSummariesDB`: the cached summaries go to the database, and the cache is
cleared. -/
def saveCachedStateSummariesDB : Except Fault Unit × Store Validator :=
  match store.update (.ok { store.db with
      stateSummaries := store.stateSummaryCache.entries.foldl
        (fun bkt entry ↦ bkt.put entry.2.root entry.2) store.db.stateSummaries }) fault with
  | (.error err, store) => (.error err, store)
  | (.ok _, store) => (.ok (), { store with stateSummaryCache := .empty })

/-- `SaveStateSummary`, which dumps the cache when it is full. -/
def saveStateSummary (summary : StateSummary) : Except Fault Unit × Store Validator :=
  let dumped := if stateSummaryCachePruneCount ≤ store.stateSummaryCache.entries.length then
    saveCachedStateSummariesDB store fault else (.ok (), store)
  match dumped with
  | (.error err, store) => (.error err, store)
  | (.ok _, store) => (.ok (), { store with
      stateSummaryCache := store.stateSummaryCache.put summary.root summary })

def saveHeadBlockRoot (blockRoot : Root) : Except Fault Unit × Store Validator :=
  store.update (
    if (store.db.states.get blockRoot).isSome ∨ hasStateSummary store blockRoot then
      .ok { store.db with headBlockRoot := some blockRoot }
    else .error (.error (.errorf "no state or state summary found with head block root" []))) fault

def saveOriginCheckpointBlockRoot (blockRoot : Root) : Except Fault Unit × Store Validator :=
  store.update (.ok { store.db with originCheckpointBlockRoot := some blockRoot }) fault

end

/-- A call whose error is wrapped and returned, and what follows it. -/
def wrapThen (result : Except Fault Unit × Store Validator) (msg : String)
    (next : Store Validator → Except Fault Unit × Store Validator) :
    Except Fault Unit × Store Validator :=
  match result with
  | (.error err, store) => (wrapf (.error err) msg [], store)
  | (.ok _, store) => next store

/-- The faults of the transactions of `SaveOrigin`. -/
structure OriginEnvironment where
  status : Option Error
  block : Environment
  state : SaveEnvironment
  summary : Option Error
  head : Option Error
  origin : Option Error
  justified : Option Error
  finalized : Option Error

/-- The status before any backfill. -/
def originStatus (blockRoot : Root) (blk : SignedBeaconBlock) : BackfillStatus where
  lowSlot := blk.slot
  lowRoot := blockRoot
  lowParentRoot := blk.parentRoot
  originRoot := blockRoot
  originSlot := blk.slot

/-- `SaveOrigin` once the state and the block are decoded. -/
def saveOrigin (env : OriginEnvironment) (state : BeaconState Validator Body)
    (wblk : SignedBeaconBlock) : Except Fault Unit × Store Validator :=
  let blockRoot := wblk.root
  let bf := originStatus blockRoot wblk
  let chkpt : Checkpoint := ⟨wblk.slot / config.slotsPerEpoch, blockRoot⟩
  wrapThen (saveBackfillStatus store env.status bf)
    "unable to save backfill status data to db for checkpoint sync" fun store ↦
  wrapThen (saveBlock store env.block wblk) "save block" fun store ↦
  wrapThen (saveState codec enabled store env.state state blockRoot) "save state" fun store ↦
  wrapThen (saveStateSummary store env.summary ⟨state.slot, blockRoot⟩)
    "save state summary" fun store ↦
  wrapThen (saveHeadBlockRoot store env.head blockRoot) "save head block root" fun store ↦
  wrapThen (saveOriginCheckpointBlockRoot store env.origin blockRoot)
    "save origin checkpoint block root" fun store ↦
  wrapThen (saveJustifiedCheckpoint store env.justified chkpt)
    "save justified checkpoint" fun store ↦
  wrapThen (saveFinalizedCheckpoint config store env.finalized chkpt)
    "save finalized checkpoint" fun store ↦ (.ok (), store)

/-- The check of `BackfillFinalizedIndex` that every block is the parent of the next one. -/
def checkParents : List SignedBeaconBlock → Except Fault Unit
  | previous :: blk :: blks =>
    if previous.root ≠ blk.parentRoot then
      .error (.error (.wrapf errIncorrectBlockParent
        "previous root=%#x, slot=%d; child parent_root=%#x, root=%#x, slot=%d"
        [.bytes previous.root, .number previous.slot, .bytes blk.parentRoot, .bytes blk.root,
          .number blk.slot]))
    else checkParents (blk :: blks)
  | _ => .ok ()

/-- The containers of `BackfillFinalizedIndex`. -/
def backfillContainers (finalizedChildRoot : Root) :
    List SignedBeaconBlock → List (Root × FinalizedValue)
  | [] => []
  | [blk] => [(blk.root, .container blk.parentRoot (some finalizedChildRoot))]
  | blk :: next :: blks => (blk.root, .container blk.parentRoot (some next.root)) ::
      backfillContainers finalizedChildRoot (next :: blks)

/-- The transaction of `BackfillFinalizedIndex`. -/
def connectBatch (db : Db Validator) (blks : List SignedBeaconBlock) (last : SignedBeaconBlock)
    (finalizedChildRoot : Root) : Except Fault (Db Validator) :=
  match db.finalizedBlockRootsIndex.get finalizedChildRoot with
  | none => .error (.error errFinalizedChildNotFound)
  | some .finalizedButNotCanonical => .error (.error (.wrapf errSnappyCorrupt
      "unable to decode finalized block root container for root=%#x" [.bytes finalizedChildRoot]))
  | some (.container parentRoot _) =>
    if parentRoot ≠ last.root then
      .error (.error (.wrapf errNotConnectedToFinalized
        "finalized block root container for root=%#x has parent_root=%#x, not %#x"
        [.bytes finalizedChildRoot, .bytes parentRoot, .bytes last.root]))
    else .ok { db with
      finalizedBlockRootsIndex := (backfillContainers finalizedChildRoot blks).foldl
        (fun bkt entry ↦ bkt.put entry.1 entry.2) db.finalizedBlockRootsIndex }

def backfillFinalizedIndex (fault : Option Error) (blks : List SignedBeaconBlock)
    (finalizedChildRoot : Root) : Except Fault Unit × Store Validator :=
  match blks.getLast?, checkParents blks with
  | none, _ => (.error (.error errEmptyBlockSlice), store)
  | some _, .error err => (.error err, store)
  | some last, .ok _ => store.update (connectBatch store.db blks last finalizedChildRoot) fault

/-- The backfill `Store`: the database and the status. -/
structure StatusUpdater (Validator : Type) where
  store : Store Validator
  genesisSync : Bool
  bs : Option BackfillStatus

variable (updater : StatusUpdater Validator)

def StatusUpdater.saveStatus (fault : Option Error) (bs : BackfillStatus) :
    Except Fault Unit × StatusUpdater Validator :=
  match saveBackfillStatus updater.store fault bs with
  | (.error err, store) => (.error err, { updater with store := store })
  | (.ok _, store) => (.ok (), { updater with store := store, bs := some bs })

def StatusUpdater.recoverLegacy (fault : Option Error) :
    Except Fault Unit × StatusUpdater Validator :=
  match updater.store.db.originCheckpointBlockRoot with
  | none => (.ok (), { updater with genesisSync := true })
  | some cpr =>
    match block updater.store cpr with
    | none => (.error (.error (.wrapf errNilSignedBeaconBlock
        "nil block found for origin checkpoint root=%#x" [.bytes cpr])), updater)
    | some cpb => updater.saveStatus fault (originStatus cpr cpb)

def newUpdater (fault : Option Error) : Except Fault Unit × StatusUpdater Validator :=
  match store.db.backfillStatus with
  | some status => (.ok (), ⟨store, false, some status⟩)
  | none => StatusUpdater.recoverLegacy ⟨store, false, none⟩ fault

/-- What the environment decides in a call of `fillBack`: the blocks whose data is not available,
and the faults of the transactions. -/
structure BackfillEnvironment where
  isDataAvailable : Root → Option Error
  blocks : Environment
  index : Option Error
  status : Option Error

def fillBack (env : BackfillEnvironment) (blks : List SignedBeaconBlock) :
    Except Fault BackfillStatus × StatusUpdater Validator :=
  match updater.bs with
  | none => (.error .panic, updater)
  | some status =>
    match blks.head?, blks.getLast? with
    | some lowest, some highest =>
      if highest.root ≠ status.lowParentRoot then
        (.error (.error (.wrapf errBatchDisconnected
          "prev parent_root=%#x, root=%#x, prev slot=%d, slot=%d"
          [.bytes status.lowParentRoot, .bytes highest.root, .number status.lowSlot,
            .number highest.slot])), updater)
      else match blks.findSome? fun blk ↦ env.isDataAvailable blk.root with
      | some err => (.error (.error err), updater)
      | none =>
        match saveROBlocks updater.store env.blocks blks false with
        | (.error err, store) =>
          (wrapf (.error err) "error saving backfill blocks" [], { updater with store := store })
        | (.ok _, store) =>
          match backfillFinalizedIndex store env.index blks status.lowRoot with
          | (.error err, store) => (wrapf (.error err)
              ("failed to update finalized index for batch, connecting root %#x to " ++
                "previously finalized block %#x")
              [.bytes highest.root, .bytes status.lowRoot], { updater with store := store })
          | (.ok _, store) =>
            let status := { status with
              lowSlot := lowest.slot
              lowRoot := lowest.root
              lowParentRoot := lowest.parentRoot }
            match StatusUpdater.saveStatus { updater with store := store } env.status status with
            | (.error err, updater) => (.error err, updater)
            | (.ok _, updater) => (.ok status, updater)
    | _, _ => (.ok status, updater)

end Model

end Prysm.Kv
