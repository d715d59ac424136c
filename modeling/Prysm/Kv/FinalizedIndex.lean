import Prysm.Kv.BlockIndices

/-!
# The index of the finalized blocks

`SaveFinalizedCheckpoint` updates the index in three steps.  It deletes the entries of all blocks
from the epoch of the previous checkpoint to the epoch after the new one, walks from the finalized
block to its ancestors until it meets an entry, and marks the stored blocks of the finalized epoch
and of the epoch after it, since both ends of the filter are inclusive.

An entry is an ancestor of the finalized block or a stored block of these two epochs, and the next
update deletes the entries of the second kind.
-/

namespace Prysm.Kv

open Prysm.Library

variable {Validator : Type}

def errNilSignedBeaconBlock : Error := .errorf "signed beacon block can't be nil" []

/-- The error of `decode` on `containerFinalizedButNotCanonical`. -/
def errSnappyCorrupt : Error := .errorf "snappy: corrupt input" []

def errMissingStateForCheckpoint : Error :=
  .errorf "missing state summary for checkpoint root" []

/-- The walk of `updateFinalizedBlockRoots` from a root to its ancestors. -/
def walkAncestry (genesisRoot initCheckpointRoot : Option Root)
    (blockOf : Root → Option SignedBeaconBlock) :
    ℕ → Root → Option Root → Bucket Root FinalizedValue →
      Except Fault (Bucket Root FinalizedValue)
  | 0, _, _, _ => .error .diverges
  | fuel + 1, root, previousRoot, bkt =>
    if some root = genesisRoot then .ok bkt
    else match blockOf root with
      | none => .error (.error errNilSignedBeaconBlock)
      | some signedBlock =>
        let bkt := bkt.put root (.container signedBlock.parentRoot previousRoot)
        if some root = initCheckpointRoot then .ok bkt
        else match bkt.get signedBlock.parentRoot with
          | some (.container parentRoot _) =>
            .ok (bkt.put signedBlock.parentRoot (.container parentRoot (some root)))
          | some .finalizedButNotCanonical => .error (.error errSnappyCorrupt)
          | none =>
            walkAncestry genesisRoot initCheckpointRoot blockOf fuel signedBlock.parentRoot
              (some root) bkt

/-- The loop that marks the blocks of the finalized epoch. -/
def upsertRecent (checkpointRoot : Root) (roots : List Root) (bkt : Bucket Root FinalizedValue) :
    Bucket Root FinalizedValue :=
  roots.foldl (fun bkt root ↦
    if root = checkpointRoot ∨ (bkt.get root).isSome then bkt
    else bkt.put root .finalizedButNotCanonical) bkt

variable (config : BeaconChainConfig)

/-- `updateFinalizedBlockRoots` in the transaction that has reached `db`. -/
def updateFinalizedBlockRoots (store : Store Validator) (db : Db Validator)
    (checkpoint : Checkpoint) : Except Fault (Db Validator) := do
  let previousEpoch := (db.previousFinalizedCheckpoint.map (·.epoch)).getD 0
  let endEpoch := (checkpoint.epoch + 1) % 2 ^ 64
  let stale ← blockRoots config store.db previousEpoch endEpoch
  let bkt := stale.foldl Bucket.delete db.finalizedBlockRootsIndex
  -- Every iteration puts a stored block that was not in the index, so there are no more than these.
  let bkt ← walkAncestry db.genesisBlockRoot db.originCheckpointBlockRoot (block store)
    (store.db.blocks.entries.length + 2) checkpoint.root none bkt
  let recent ← blockRoots config store.db checkpoint.epoch endEpoch
  .ok { db with
    finalizedBlockRootsIndex := upsertRecent checkpoint.root recent bkt
    previousFinalizedCheckpoint := some checkpoint }

def hasStateSummary (store : Store Validator) (blockRoot : Root) : Bool :=
  (store.stateSummaryCache.get blockRoot).isSome || (store.db.stateSummaries.get blockRoot).isSome

variable (db : Db Validator) {root : Root}

def recoverStateSummary (root : Root) : Except Fault (Db Validator) :=
  match db.blocks.get root with
  | none => .error (.error (.errorf "nil block, root: %#x" [.bytes root]))
  | some blk => .ok { db with states := db.states.put root (StateSummary.encode ⟨blk.slot, root⟩) }

section

variable (store : Store Validator)

/-- The start of the transaction of a checkpoint save: without a state and a state summary for the
root, a summary is recovered. -/
def ensureStateSummary (root : Root) (missing : Error) : Except Fault (Db Validator) :=
  if (store.db.states.get root).isSome ∨ hasStateSummary store root then .ok store.db
  else match recoverStateSummary store.db root with
    | .error _ => .error (.error missing)
    | .ok db => .ok db

/-- The transaction of `SaveFinalizedCheckpoint`. -/
def finalizeCheckpoint (checkpoint : Checkpoint) : Except Fault (Db Validator) := do
  let db ← ensureStateSummary store checkpoint.root (.wrapf errMissingStateForCheckpoint
    "could not save finalized checkpoint, finalized root: %#x" [.bytes checkpoint.root])
  updateFinalizedBlockRoots config store { db with finalizedCheckpoint := some checkpoint }
    checkpoint

/-- What a call returns whose transaction gives a database, unless the transaction fails. -/
def Store.update (result : Except Fault (Db Validator)) (fault : Option Error) :
    Except Fault Unit × Store Validator :=
  match result, fault with
  | .error err, _ => (.error err, store)
  | .ok _, some err => (.error (.error err), store)
  | .ok db, none => (.ok (), { store with db := db })

def saveFinalizedCheckpoint (fault : Option Error) (checkpoint : Checkpoint) :
    Except Fault Unit × Store Validator :=
  store.update (finalizeCheckpoint config store checkpoint) fault

end

def isFinalizedBlock (blockRoot : Root) : Bool :=
  (db.finalizedBlockRootsIndex.get blockRoot).isSome || db.genesisBlockRoot.getD 0 == blockRoot

def finalizedChildBlock (blockRoot : Root) : Option SignedBeaconBlock :=
  match db.finalizedBlockRootsIndex.get blockRoot with
  | some (.container _ (some childRoot)) => db.blocks.get childRoot
  | _ => none

/-- The parent of a stored block. -/
def Db.Parent (child parent : Root) : Prop :=
  ∃ blk, db.blocks.get child = some blk ∧ blk.parentRoot = parent

/-- The second root is the first one, or is reached from it through the parents of stored blocks. -/
def Db.Ancestor : Root → Root → Prop := Relation.ReflTransGen db.Parent

section Update

variable {config : BeaconChainConfig} {store store' : Store Validator} {db db' : Db Validator}
  {cp : Checkpoint} {bkt bkt' : Bucket Root FinalizedValue}
  {result : Except Fault (Db Validator)} {fault : Option Error}
  {genesisRoot initCheckpointRoot previousRoot : Option Root} {checkpointRoot : Root} {fuel : ℕ}

theorem Db.Ancestor.mono (hkept : ∀ root blk, db.blocks.get root = some blk →
    db'.blocks.get root = some blk) {ancestor : Root} (hanc : db.Ancestor root ancestor) :
    db'.Ancestor root ancestor :=
  Relation.ReflTransGen.mono (fun _ _ ⟨blk, hblk, hpar⟩ ↦ ⟨blk, hkept _ blk hblk, hpar⟩)
    _ _ hanc

/-- What an update does that succeeds. -/
def UpdatesIndex (config : BeaconChainConfig) (store : Store Validator) (db : Db Validator)
    (checkpoint : Checkpoint) (db' : Db Validator) : Prop :=
  ∃ stale walked recent,
    blockRoots config store.db ((db.previousFinalizedCheckpoint.map (·.epoch)).getD 0)
      ((checkpoint.epoch + 1) % 2 ^ 64) = .ok stale ∧
    walkAncestry db.genesisBlockRoot db.originCheckpointBlockRoot (block store)
      (store.db.blocks.entries.length + 2) checkpoint.root none
      (stale.foldl Bucket.delete db.finalizedBlockRootsIndex) = .ok walked ∧
    blockRoots config store.db checkpoint.epoch ((checkpoint.epoch + 1) % 2 ^ 64) = .ok recent ∧
    db' = { db with
      finalizedBlockRootsIndex := upsertRecent checkpoint.root recent walked
      previousFinalizedCheckpoint := some checkpoint }

theorem updateFinalizedBlockRoots_eq_ok
    (hok : updateFinalizedBlockRoots config store db cp = .ok db') :
    UpdatesIndex config store db cp db' := by
  obtain ⟨stale, hstale, hok⟩ := bind_eq_ok_iff.1 hok
  obtain ⟨walked, hwalked, hok⟩ := bind_eq_ok_iff.1 hok
  obtain ⟨recent, hrecent, hok⟩ := bind_eq_ok_iff.1 hok
  exact ⟨stale, walked, recent, hstale, hwalked, hrecent, (Except.ok.inj hok).symm⟩

/-- What a call does to the store whose transaction succeeds. -/
theorem Store.update_eq_ok (hok : store.update result fault = (.ok (), store')) :
    ∃ db, result = .ok db ∧ store' = { store with db := db } := by
  cases result with
  | error err => cases hok
  | ok db =>
    cases fault with
    | some err => cases hok
    | none => exact ⟨db, rfl, (Prod.mk.inj hok).2.symm⟩

/-- A call whose transaction fails leaves the store as it was. -/
theorem Store.update_eq_error {err : Fault}
    (herr : store.update result fault = (.error err, store')) : store' = store := by
  cases result with
  | error err => exact (Prod.mk.inj herr).2.symm
  | ok db =>
    cases fault with
    | some err => exact (Prod.mk.inj herr).2.symm
    | none => cases herr

/-- What holds of the store and of every database that the transaction may commit holds after the
call. -/
theorem Store.update_keeps (Keeps : Store Validator → Prop) (fault : Option Error)
    (hstart : Keeps store) (hok : ∀ db, result = .ok db → Keeps { store with db := db }) :
    Keeps (store.update result fault).2 := by
  cases result with
  | error err => exact hstart
  | ok db =>
    cases fault with
    | some err => exact hstart
    | none => exact hok db rfl

/-- Only the states change before the update of the index. -/
theorem ensureStateSummary_eq_ok {missing : Error}
    (hok : ensureStateSummary store root missing = .ok db) :
    ∃ states, db = { store.db with states := states } := by
  unfold ensureStateSummary recoverStateSummary at hok
  split_ifs at hok
  · exact ⟨_, (Except.ok.inj hok).symm⟩
  · grind

theorem finalizeCheckpoint_eq_ok (hok : finalizeCheckpoint config store cp = .ok db') :
    ∃ states, UpdatesIndex config store
      { store.db with states := states, finalizedCheckpoint := some cp } cp db' := by
  obtain ⟨db, hensure, hok⟩ := bind_eq_ok_iff.1 hok
  obtain ⟨states, rfl⟩ := ensureStateSummary_eq_ok hensure
  exact ⟨states, updateFinalizedBlockRoots_eq_ok hok⟩

theorem get_upsertRecent_of_some {value : FinalizedValue} (hget : bkt.get root = some value)
    (roots : List Root) : (upsertRecent checkpointRoot roots bkt).get root = some value := by
  unfold upsertRecent
  induction roots generalizing bkt with
  | nil => exact hget
  | cons other roots ih =>
    rw [List.foldl_cons]
    split_ifs with hskip
    · exact ih hget
    · refine ih ?_
      rw [Bucket.get_put, if_neg, hget]
      rintro rfl
      exact hskip (.inr (hget ▸ rfl))

theorem isSome_get_upsertRecent {roots : List Root} :
    ((upsertRecent checkpointRoot roots bkt).get root).isSome ↔
      (bkt.get root).isSome ∨ root ∈ roots ∧ root ≠ checkpointRoot := by
  unfold upsertRecent
  induction roots generalizing bkt with
  | nil => simp
  | cons other roots ih =>
    rw [List.foldl_cons, ih, List.mem_cons]
    split_ifs with hskip
    · grind
    · rw [Bucket.get_put]
      grind

/-- The entry of the root itself is put first in an iteration of the walk. -/
theorem walkAncestry_eq_ok {blockOf : Root → Option SignedBeaconBlock}
    (hwalk : walkAncestry genesisRoot initCheckpointRoot blockOf (fuel + 1) root previousRoot bkt =
      .ok bkt') :
    some root = genesisRoot ∧ bkt' = bkt ∨
      some root ≠ genesisRoot ∧ ∃ blk put, blockOf root = some blk ∧
        put = bkt.put root (.container blk.parentRoot previousRoot) ∧
        (some root = initCheckpointRoot ∧ bkt' = put ∨
          some root ≠ initCheckpointRoot ∧
            ((∃ parentRoot childRoot,
                put.get blk.parentRoot = some (.container parentRoot childRoot) ∧
                bkt' = put.put blk.parentRoot (.container parentRoot (some root))) ∨
              put.get blk.parentRoot = none ∧
                walkAncestry genesisRoot initCheckpointRoot blockOf fuel blk.parentRoot (some root)
                  put = .ok bkt')) := by
  unfold walkAncestry at hwalk
  by_cases hgen : some root = genesisRoot
  · grind
  rw [if_neg hgen] at hwalk
  cases hblk : blockOf root with
  | none =>
    rw [hblk] at hwalk
    cases hwalk
  | some blk =>
    grind

/-- The walk only adds entries for ancestors. -/
theorem isSome_of_walkAncestry
    (hwalk : walkAncestry genesisRoot initCheckpointRoot db.blocks.get fuel root previousRoot bkt =
      .ok bkt') {other : Root} (hother : (bkt'.get other).isSome) :
    (bkt.get other).isSome ∨ db.Ancestor root other := by
  induction fuel generalizing root previousRoot bkt with
  | zero => cases hwalk
  | succ fuel ih =>
    rcases walkAncestry_eq_ok hwalk with ⟨-, rfl⟩ | ⟨-, blk, put, hblk, rfl, hrest⟩
    · exact .inl hother
    have hput : ((bkt.put root (.container blk.parentRoot previousRoot)).get other).isSome →
        (bkt.get other).isSome ∨ db.Ancestor root other := by
      rw [Bucket.get_put]
      split_ifs with heq
      · exact fun _ ↦ .inr (heq ▸ .refl)
      · exact .inl
    rcases hrest with ⟨-, rfl⟩ | ⟨-, ⟨parentRoot, childRoot, hpar, rfl⟩ | ⟨-, hrest⟩⟩
    · exact hput hother
    · rw [Bucket.get_put] at hother
      grind
    · rcases ih hrest with hold | hanc
      · exact hput hold
      · exact .inr (.head ⟨blk, hblk, rfl⟩ hanc)

/-- The two epochs of the marks, when the query for their blocks succeeds. -/
theorem recent_epochs (hslots : 2 * config.slotsPerEpoch ≤ 2 ^ 64) {epoch : Epoch}
    {recent : List Root}
    (hrecent : blockRoots config db epoch ((epoch + 1) % 2 ^ 64) = .ok recent) :
    (epoch + 1) % 2 ^ 64 = epoch + 1 ∧
      config.slotsPerEpoch * (epoch + 1) + config.slotsPerEpoch - 1 < 2 ^ 64 := by
  have hpos := config.slotsPerEpoch_pos
  obtain ⟨hstart, hend, endSlot, hslot, hle, -⟩ := blockRoots_eq_ok hrecent
  have hepoch : epoch < 2 ^ 64 := (Nat.le_mul_of_pos_left epoch hpos).trans_lt hstart
  by_cases hlast : epoch + 1 = 2 ^ 64
  · grind
  · grind

end Update

/-- The calls of a run: saves of blocks and of finalized checkpoints. -/
inductive FinalityCall
  | blocks (call : BlockCall)
  | saveFinalizedCheckpoint (fault : Option Error) (checkpoint : Checkpoint)

def FinalityCall.serve (config : BeaconChainConfig) (store : Store Validator) :
    FinalityCall → Except Fault Unit × Store Validator
  | blocks call => call.serve store
  | saveFinalizedCheckpoint fault checkpoint =>
    Kv.saveFinalizedCheckpoint config store fault checkpoint

/-- The checkpoint has a stored block that descends from the finalized one, and no lower epoch. -/
def Descends (db : Db Validator) (checkpoint : Checkpoint) : Prop :=
  db.Stored checkpoint.root ∧ ∀ finalized, db.finalizedCheckpoint = some finalized →
    db.Ancestor checkpoint.root finalized.root ∧ finalized.epoch ≤ checkpoint.epoch

/-- The calls that are made: blocks with their hashes as roots, and descending checkpoints. -/
def FinalityAllowed (headers : Headers) (store : Store Validator) : FinalityCall → Prop
  | .blocks call => FailsUncached store call ∧ ∀ blk ∈ call.blks, headers.Hashes blk
  | .saveFinalizedCheckpoint _ checkpoint => Descends store.db checkpoint

/-- An entry of the index is an ancestor of the finalized block, or a stored block of one of the two
epochs whose blocks are marked. -/
def Db.Marks (config : BeaconChainConfig) (headers : Headers) (db : Db Validator)
    (finalized : Checkpoint) (root : Root) : Prop :=
  db.Ancestor finalized.root root ∨ db.Stored root ∧
    finalized.epoch ≤ toEpoch config (headers.slot root) ∧
    toEpoch config (headers.slot root) ≤ finalized.epoch + 1

/-- The invariant of the runs. -/
structure MarksRecent (config : BeaconChainConfig) (headers : Headers)
    (store : Store Validator) : Prop where
  indexed : ∃ slots parents, Indexed headers store.db slots parents
  cache : CacheCommitted store
  previous : store.db.previousFinalizedCheckpoint = store.db.finalizedCheckpoint
  entries : ∀ root, (store.db.finalizedBlockRootsIndex.get root).isSome →
    ∃ finalized, store.db.finalizedCheckpoint = some finalized ∧
      store.db.Marks config headers finalized root

section Runs

variable {config : BeaconChainConfig} {headers : Headers} {store : Store Validator}
  {db' : Db Validator} {cp : Checkpoint}

theorem Db.Marks.mono {db : Db Validator} (hkept : ∀ root blk,
    db.blocks.get root = some blk → db'.blocks.get root = some blk)
    (hmarks : db.Marks config headers cp root) : db'.Marks config headers cp root := by
  rcases hmarks with hanc | ⟨hstored, hrecent⟩
  · exact .inl (hanc.mono hkept)
  · obtain ⟨blk, hblk⟩ := Db.stored_iff.1 hstored
    exact .inr ⟨Db.stored_of_get (hkept root blk hblk), hrecent⟩

section

variable (hmarked : MarksRecent config headers store)
include hmarked

section

variable (hslots : 2 * config.slotsPerEpoch ≤ 2 ^ 64)
include hslots

theorem MarksRecent.isSome_finalizeCheckpoint (hdesc : Descends store.db cp)
    (hok : finalizeCheckpoint config store cp = .ok db')
    (hroot : (db'.finalizedBlockRootsIndex.get root).isSome) :
    store.db.Marks config headers cp root := by
  obtain ⟨states, stale, walked, recent, hstale, hwalked, hrecent, rfl⟩ :=
    finalizeCheckpoint_eq_ok hok
  obtain ⟨slots, parents, hidx⟩ := hmarked.indexed
  obtain ⟨hnext, hend⟩ := recent_epochs hslots hrecent
  rw [hnext] at hstale hrecent
  rcases isSome_get_upsertRecent.1 hroot with hwalk | ⟨hmem, -⟩
  · rw [funext hmarked.cache.block_eq] at hwalked
    rcases isSome_of_walkAncestry hwalked hwalk with hkept | hanc
    · -- What the de-indexing leaves was an ancestor of the previous finalized block.
      rw [Bucket.get_foldl_delete, List.map_id'] at hkept
      split_ifs at hkept with hdeleted
      · cases hkept
      obtain ⟨fin, hfin, hmarks⟩ := hmarked.entries root hkept
      obtain ⟨hanc, hepoch⟩ := hdesc.2 fin hfin
      rcases hmarks with hold | ⟨hstored, hlow, hhigh⟩
      · exact .inl (hanc.trans hold)
      · refine absurd ((hidx.mem_blockRoots hend hstale root).2 ⟨hstored, ?_, ?_⟩) hdeleted
        · rwa [hmarked.previous, hfin]
        · exact hhigh.trans (Nat.succ_le_succ hepoch)
    · exact .inl hanc
  · exact .inr ((hidx.mem_blockRoots hend hrecent root).1 hmem)

/-- The blocks of the two epochs have an entry. -/
theorem MarksRecent.isSome_of_recent (hok : finalizeCheckpoint config store cp = .ok db')
    (hstored : store.db.Stored root) (hlow : cp.epoch ≤ toEpoch config (headers.slot root))
    (hhigh : toEpoch config (headers.slot root) ≤ cp.epoch + 1)
    (hroot : root ≠ cp.root) : (db'.finalizedBlockRootsIndex.get root).isSome := by
  obtain ⟨states, stale, walked, recent, -, -, hrecent, rfl⟩ := finalizeCheckpoint_eq_ok hok
  obtain ⟨slots, parents, hidx⟩ := hmarked.indexed
  obtain ⟨hnext, hend⟩ := recent_epochs hslots hrecent
  rw [hnext] at hrecent
  refine isSome_get_upsertRecent.2 (.inr ⟨?_, hroot⟩)
  exact (hidx.mem_blockRoots hend hrecent root).2 ⟨hstored, hlow, hhigh⟩

theorem MarksRecent.saveFinalizedCheckpoint (hdesc : Descends store.db cp) (fault : Option Error) :
    MarksRecent config headers (Kv.saveFinalizedCheckpoint config store fault cp).2 := by
  refine Store.update_keeps (MarksRecent config headers) fault hmarked fun db' hok ↦ ?_
  have hentries (root : Root) (hroot : (db'.finalizedBlockRootsIndex.get root).isSome) :=
    hmarked.isSome_finalizeCheckpoint hslots hdesc hok hroot
  obtain ⟨states, stale, walked, recent, -, -, -, rfl⟩ := finalizeCheckpoint_eq_ok hok
  obtain ⟨slots, parents, hidx⟩ := hmarked.indexed
  exact ⟨⟨slots, parents, hidx.congr rfl rfl rfl⟩, hmarked.cache, rfl,
    fun root hroot ↦ ⟨cp, rfl, hentries root hroot⟩⟩

theorem MarksRecent.serve {call : FinalityCall} (hallowed : FinalityAllowed headers store call) :
    MarksRecent config headers (call.serve config store).2 := by
  cases call with
  | blocks call =>
    obtain ⟨slots, parents, hidx⟩ := hmarked.indexed
    obtain ⟨blocks, slotBkt, parentBkt, hdb⟩ := sameButBlocks_serve store call
    have hindex : (call.serve store).2.db.finalizedBlockRootsIndex =
        store.db.finalizedBlockRootsIndex := by rw [hdb]
    have hfin : (call.serve store).2.db.finalizedCheckpoint =
        store.db.finalizedCheckpoint := by rw [hdb]
    have hprev : (call.serve store).2.db.previousFinalizedCheckpoint =
        store.db.previousFinalizedCheckpoint := by rw [hdb]
    rw [FinalityCall.serve]
    refine ⟨hidx.serve hallowed.2, hmarked.cache.serve hallowed.1, ?_, fun root hroot ↦ ?_⟩
    · rw [hprev, hfin, hmarked.previous]
    · rw [hindex] at hroot
      obtain ⟨fin, hold, hmarks⟩ := hmarked.entries root hroot
      exact ⟨fin, hfin.trans hold, hmarks.mono fun _ _ ↦ get_serve call⟩
  | saveFinalizedCheckpoint fault cp =>
    exact hmarked.saveFinalizedCheckpoint hslots hallowed fault

end

end

theorem genesisBlockRoot_serve (store : Store Validator) (call : FinalityCall) :
    (call.serve config store).2.db.genesisBlockRoot = store.db.genesisBlockRoot := by
  cases call with
  | blocks call =>
    obtain ⟨blocks, slotBkt, parentBkt, hdb⟩ := sameButBlocks_serve store call
    rw [FinalityCall.serve, hdb]
  | saveFinalizedCheckpoint fault cp =>
    rw [FinalityCall.serve]
    cases hres : Kv.saveFinalizedCheckpoint config store fault cp with
    | mk returned store' =>
      cases returned with
      | error err => rw [Store.update_eq_error hres]
      | ok _ =>
        obtain ⟨db', hok, rfl⟩ := Store.update_eq_ok hres
        obtain ⟨states, stale, walked, recent, -, -, -, rfl⟩ := finalizeCheckpoint_eq_ok hok
        rfl

variable {checkpoint : Checkpoint} in
/-- After a checkpoint save only the ancestors of the finalized block and blocks of its epoch are
finalized, if and only if all stored blocks of the epoch after it are ancestors. -/
theorem isFinalizedBlock_only_iff (hslots : 2 * config.slotsPerEpoch ≤ 2 ^ 64)
    {genesis origin : Option Root} {labels : List (FinalityCall × Except Fault Unit)}
    (run : Run (CallStep (answer (FinalityCall.serve config)) (FinalityAllowed headers))
      (Store.open { (Db.empty : Db Validator) with
        genesisBlockRoot := genesis
        originCheckpointBlockRoot := origin }) labels store)
    (hdescends : Descends store.db checkpoint) {fault : Option Error} {store' : Store Validator}
    (hok : saveFinalizedCheckpoint config store fault checkpoint = (.ok (), store')) :
    (∀ root blk, store'.db.blocks.get root = some blk → root ≠ genesis.getD 0 →
        isFinalizedBlock store'.db root = true →
        store'.db.Ancestor checkpoint.root root ∨ toEpoch config blk.slot = checkpoint.epoch) ↔
      ∀ root blk, store.db.blocks.get root = some blk → root ≠ genesis.getD 0 →
        toEpoch config blk.slot = checkpoint.epoch + 1 →
        store.db.Ancestor checkpoint.root root := by
  obtain ⟨hmarked, hgen⟩ := run.call_invariant
    (fun store ↦ MarksRecent config headers store ∧ store.db.genesisBlockRoot = genesis)
    ⟨⟨⟨_, _, indexed_empty headers genesis origin⟩, nofun, rfl, nofun⟩, rfl⟩
    (fun state call h hallowed ↦
      ⟨h.1.serve hslots hallowed, (genesisBlockRoot_serve state call).trans h.2⟩)
  obtain ⟨slots, parents, hidx⟩ := hmarked.indexed
  obtain ⟨db', hfinalize, rfl⟩ := Store.update_eq_ok hok
  obtain ⟨hblocks, hroot⟩ : db'.blocks = store.db.blocks ∧
      db'.genesisBlockRoot = store.db.genesisBlockRoot := by
    obtain ⟨states, stale, walked, recent, -, -, -, rfl⟩ := finalizeCheckpoint_eq_ok hfinalize
    exact ⟨rfl, rfl⟩
  have hancestor : db'.Ancestor = store.db.Ancestor := by
    unfold Db.Ancestor Db.Parent
    rw [hblocks]
  rw [hblocks, hancestor]
  refine ⟨fun honly root blk hblk hne hepoch ↦ ?_, fun hrecent root blk hblk hne hfinal ↦ ?_⟩
  · obtain ⟨rfl, hslot, -⟩ := hidx.hashes root blk hblk
    by_contra hnot
    have hentry : (db'.finalizedBlockRootsIndex.get blk.root).isSome := by
      refine hmarked.isSome_of_recent hslots hfinalize (Db.stored_of_get hblk) ?_ ?_ ?_
      · rw [← hslot, hepoch]
        exact Nat.le_succ _
      · rw [← hslot, hepoch]
      · intro heq
        exact hnot (heq ▸ .refl)
    rcases honly blk.root blk hblk hne (Bool.or_eq_true_iff.2 (.inl hentry)) with hanc | hsame
    · exact hnot hanc
    · lia
  · obtain ⟨rfl, hslot, -⟩ := hidx.hashes root blk hblk
    have hentry : (db'.finalizedBlockRootsIndex.get blk.root).isSome := by
      refine (Bool.or_eq_true_iff.1 hfinal).resolve_right fun heq ↦ hne ?_
      grind
    rcases hmarked.isSome_finalizeCheckpoint hslots hdescends hfinalize hentry with
      hanc | ⟨-, hlow, hhigh⟩
    · exact .inl hanc
    · grind

end Runs

/-- A block of epoch 2 on another branch than `firstBlock`. -/
def forkBlock : SignedBeaconBlock where
  root := 8
  slot := 64
  parentRoot := 3
  version := .phase0
  isBlinded := false

def forkHeaders : Headers where
  slot root := if root = forkBlock.root then forkBlock.slot else firstBlock.slot
  parentRoot _ := 3

/-- The store on an empty database whose genesis block has root 3. -/
def afterGenesis : Store ℕ := Store.open { (Db.empty : Db ℕ) with genesisBlockRoot := some 3 }

/-- The store in which both branches are saved. -/
def forkedStore : Store ℕ :=
  (execute (answer (FinalityCall.serve mainnetConfig)) afterGenesis
    [.blocks (.saveBlocks noFault [firstBlock, forkBlock])]).2

theorem run_forkedStore :
    ∃ labels, Run (CallStep (answer (FinalityCall.serve mainnetConfig))
      (FinalityAllowed forkHeaders)) afterGenesis labels forkedStore :=
  ⟨_, run_execute _ _ _ _ ⟨⟨by decide +kernel, by decide +kernel⟩, trivial⟩⟩

theorem descends_forkedStore : Descends forkedStore.db ⟨1, firstBlock.root⟩ := by
  refine ⟨by decide +kernel, fun fin hfin ↦ ?_⟩
  have hnone : forkedStore.db.finalizedCheckpoint = none := by decide +kernel
  cases hfin

/-- Finalizing `firstBlock` for epoch 1 also marks the block of epoch 2 on the other branch. -/
theorem isFinalizedBlock_forkBlock :
    ∃ (labels : List (FinalityCall × Except Fault Unit)) (store store' : Store ℕ),
      Run (CallStep (answer (FinalityCall.serve mainnetConfig)) (FinalityAllowed forkHeaders))
        afterGenesis labels store ∧
      Descends store.db ⟨1, firstBlock.root⟩ ∧
      saveFinalizedCheckpoint mainnetConfig store none ⟨1, firstBlock.root⟩ = (.ok (), store') ∧
      store'.db.blocks.get forkBlock.root = some forkBlock ∧
      store'.db.genesisBlockRoot = some 3 ∧ forkBlock.root ≠ 3 ∧
      isFinalizedBlock store'.db forkBlock.root = true ∧
      ¬ store'.db.Ancestor firstBlock.root forkBlock.root ∧
      toEpoch mainnetConfig forkBlock.slot ≠ 1 := by
  obtain ⟨labels, run⟩ := run_forkedStore
  refine ⟨labels, forkedStore, _, run, descends_forkedStore,
    Prod.ext (by decide +kernel) rfl, by decide +kernel, by decide +kernel, by decide +kernel,
    by decide +kernel, fun hanc ↦ ?_, by decide⟩
  -- The only ancestor of the finalized block is the genesis block, which is not stored.
  rcases hanc.cases_head with heq | ⟨parent, ⟨blk, hblk, rfl⟩, hrest⟩
  · exact absurd heq (by decide)
  · have hfirst : blk = firstBlock := by
      refine Option.some.inj (hblk.symm.trans ?_)
      decide +kernel
    subst hfirst
    rcases hrest.cases_head with heq | ⟨parent, ⟨genesis, hgen, -⟩, -⟩
    · exact absurd heq (by decide)
    · refine Option.some_ne_none genesis (hgen.symm.trans ?_)
      decide +kernel

theorem isFinalizedBlock_only_iff_forkedStore :
    ∃ (labels : List (FinalityCall × Except Fault Unit)) (store' : Store ℕ),
      Run (CallStep (answer (FinalityCall.serve mainnetConfig)) (FinalityAllowed forkHeaders))
        afterGenesis labels forkedStore ∧
      Descends forkedStore.db ⟨1, firstBlock.root⟩ ∧
      saveFinalizedCheckpoint mainnetConfig forkedStore none ⟨1, firstBlock.root⟩ =
        (.ok (), store') ∧
      ((∀ root blk, store'.db.blocks.get root = some blk → root ≠ 3 →
          isFinalizedBlock store'.db root = true →
          store'.db.Ancestor firstBlock.root root ∨ toEpoch mainnetConfig blk.slot = 1) ↔
        ∀ root blk, forkedStore.db.blocks.get root = some blk → root ≠ 3 →
          toEpoch mainnetConfig blk.slot = 2 →
          forkedStore.db.Ancestor firstBlock.root root) := by
  obtain ⟨labels, run⟩ := run_forkedStore
  have hok : saveFinalizedCheckpoint mainnetConfig forkedStore none ⟨1, firstBlock.root⟩ =
      (.ok (), (saveFinalizedCheckpoint mainnetConfig forkedStore none ⟨1, firstBlock.root⟩).2) :=
    Prod.ext (by decide +kernel) rfl
  exact ⟨labels, _, run, descends_forkedStore, hok,
    isFinalizedBlock_only_iff (by decide) run descends_forkedStore hok⟩

end Prysm.Kv

