import Prysm.Kv.Database
import Prysm.Library.Run
import Prysm.Library.Writes

/-!
# Saving and reading blocks

`SaveROBlocks` writes a batch of blocks in one transaction and raises a flag for each block that it
wrote.  After the transaction the flagged blocks are put in the block cache, whether the transaction
was committed or rolled back.  The cache answers the reads, and `SaveBlock` returns at once when it
holds the block.

So a block is reported only if it is in the database as long as every transaction of a caching save
that fails does so before it has written a block.
-/

namespace Prysm.Kv

open List Prysm.Library

variable {Validator : Type}

/-- The buckets of the block indices, each with a key. -/
inductive IndexKey
  | blockSlot (slot : Slot)
  | blockParentRoot (parentRoot : Root)

/-- What the environment decides in a call: whether its transaction fails, whether a write that
fails is one of the indices, and in which order a map with the two indices of a block is iterated.
-/
structure Environment where
  fault : Option TxFault
  atIndices : Bool
  slotFirst : Root → Bool

/-- The error of the writes for an entry. -/
def Environment.writeError (env : Environment) (entry : ℕ) (root : Root) : Option Error :=
  (Kv.writeError env.fault entry).map fun err ↦
    if env.atIndices then .wrapf err "could not update DB indices for root %#x" [.bytes root]
    else .wrapf err "could write block to db with root %#x" [.bytes root]

def Environment.commitError (env : Environment) : Option Error :=
  Kv.commitError env.fault

def blockIndices (env : Environment) (block : SignedBeaconBlock) : List IndexKey :=
  if env.slotFirst block.root then [.blockSlot block.slot, .blockParentRoot block.parentRoot]
  else [.blockParentRoot block.parentRoot, .blockSlot block.slot]

/-- One iteration of the loop of `updateValueForIndices`, unless it ends the loop. -/
def Db.addRoot (db : Db Validator) (root : Root) : IndexKey → Option (Db Validator)
  | .blockSlot slot =>
    (Kv.addRoot db.blockSlotIndices slot root).map fun bkt ↦ { db with blockSlotIndices := bkt }
  | .blockParentRoot parentRoot =>
    (Kv.addRoot db.blockParentRootIndices parentRoot root).map fun bkt ↦
      { db with blockParentRootIndices := bkt }

def updateValueForIndices (root : Root) :
    List IndexKey → Db Validator → Db Validator
  | [], db => db
  | idx :: indices, db =>
    match db.addRoot root idx with
    | none => db
    | some db => updateValueForIndices root indices db

/-- The block that is saved for a block: the blinded one, if blocks are saved blinded and the
version has an execution payload. -/
def SignedBeaconBlock.prepare (shouldBlind : Bool) (block : SignedBeaconBlock) :
    SignedBeaconBlock :=
  if shouldBlind ∧ Version.bellatrix.number ≤ block.version.number then
    { block with isBlinded := true }
  else block

def prepareBlockBatch (blks : List SignedBeaconBlock) (shouldBlind : Bool) :
    List SignedBeaconBlock :=
  blks.map (·.prepare shouldBlind)

/-- How far the transaction of `SaveROBlocks` came: the database in it, the entries that are flagged
as updated, and the error it fails with. -/
structure Written (Validator : Type) where
  db : Db Validator
  updated : List SignedBeaconBlock
  err : Option Error

/-- The writes for a block that is not in the database. -/
def Db.putBlock (db : Db Validator) (env : Environment) (block : SignedBeaconBlock) :
    Db Validator :=
  updateValueForIndices block.root (blockIndices env block)
    { db with blocks := db.blocks.put block.root block }

/-- The loop in the transaction of `SaveROBlocks`.  What it has written for an entry that fails is
rolled back with the rest, and the entry is not flagged. -/
def writeBlocks (env : Environment) :
    ℕ → List SignedBeaconBlock → Db Validator → List SignedBeaconBlock →
      Written Validator
  | _, [], db, updated => ⟨db, updated, env.commitError⟩
  | i, block :: batch, db, updated =>
    if (db.blocks.get block.root).isSome then writeBlocks env (i + 1) batch db updated
    else match env.writeError i block.root with
      | some err => ⟨db, updated, some err⟩
      | none => writeBlocks env (i + 1) batch (db.putBlock env block) (updated ++ [block])

/-- The database after a transaction: a failed one is rolled back. -/
def Written.commit (written : Written Validator) (db : Db Validator) : Db Validator :=
  if written.err.isSome then db else written.db

/-- What a call returns whose only error is that of its transaction. -/
def returned (err : Option Error) : Except Fault Unit :=
  match err with
  | none => .ok ()
  | some err => .error (.error err)

/-- The transaction of `SaveROBlocks` on a database. -/
def Db.writeBatch (db : Db Validator) (env : Environment) (blks : List SignedBeaconBlock) :
    Written Validator :=
  writeBlocks env 0 (prepareBlockBatch blks db.saveBlindedBeaconBlocks) db []

variable (store : Store Validator) {root : Root}

def saveROBlocks (env : Environment) (blks : List SignedBeaconBlock) (cache : Bool) :
    Except Fault Unit × Store Validator :=
  let written := store.db.writeBatch env blks
  let store := { store with db := written.commit store.db }
  (returned written.err,
    if cache then
      { store with
        blockCache := written.updated.foldl
          (fun blockCache block ↦ Function.update blockCache block.root (some block))
          store.blockCache }
    else store)

def saveBlocks (env : Environment) (blks : List SignedBeaconBlock) :
    Except Fault Unit × Store Validator :=
  saveROBlocks store env blks true

def saveBlock (env : Environment) (signed : SignedBeaconBlock) :
    Except Fault Unit × Store Validator :=
  if (store.blockCache signed.root).isSome then (.ok (), store) else saveBlocks store env [signed]

def getBlock (blockRoot : Root) : Except Fault SignedBeaconBlock :=
  match store.blockCache blockRoot with
  | some blk => .ok blk
  | none =>
    match store.db.blocks.get blockRoot with
    | some blk => .ok blk
    | none => .error (.error (.wrapf errNotFound "empty block bytes in db" []))

/-- `Block`: a block that is not found is nil. -/
def block (blockRoot : Root) : Option SignedBeaconBlock :=
  match getBlock store blockRoot with
  | .ok blk => some blk
  | .error _ => none

def hasBlock (blockRoot : Root) : Bool :=
  (store.blockCache blockRoot).isSome || (store.db.blocks.get blockRoot).isSome

variable {upd : List SignedBeaconBlock}

section Writes

variable {env : Environment} {db db' : Db Validator} {idx : IndexKey}

/-- Only the index buckets change. -/
theorem updateValueForIndices_eq (root : Root) (indices : List IndexKey) (db : Db Validator) :
    ∃ slots parents, updateValueForIndices root indices db =
      { db with blockSlotIndices := slots, blockParentRootIndices := parents } := by
  induction indices generalizing db with
  | nil => exact ⟨_, _, rfl⟩
  | cons idx indices ih =>
    rw [updateValueForIndices]
    cases hadd : db.addRoot root idx with
    | none => exact ⟨_, _, rfl⟩
    | some db' =>
      obtain ⟨slots, parents, heq⟩ := ih db'
      cases idx <;> obtain ⟨bkt, -, rfl⟩ := Option.map_eq_some_iff.1 hadd <;> exact ⟨_, _, heq⟩

@[simp]
theorem blocks_putBlock (db : Db Validator) (env : Environment) (block : SignedBeaconBlock) :
    (db.putBlock env block).blocks = db.blocks.put block.root block := by
  obtain ⟨slots, parents, heq⟩ := updateValueForIndices_eq block.root (blockIndices env block)
    { db with blocks := db.blocks.put block.root block }
  exact congrArg Db.blocks heq

@[simp]
theorem root_prepare (shouldBlind : Bool) (block : SignedBeaconBlock) :
    (block.prepare shouldBlind).root = block.root := by
  unfold SignedBeaconBlock.prepare
  split_ifs <;> rfl

/-- The loop of the transaction as a loop of writes into the database and the flags. -/
def blockWrites (env : Environment) :
    ℕ → List SignedBeaconBlock → Db Validator × List SignedBeaconBlock →
      (Db Validator × List SignedBeaconBlock) × Option Error :=
  writeNew (fun state block ↦ (state.1.blocks.get block.root).isSome)
    (fun state block ↦ (state.1.putBlock env block, state.2 ++ [block]))
    (fun i block ↦ env.writeError i block.root) env.commitError

theorem writeBlocks_eq (i : ℕ) (batch : List SignedBeaconBlock) (db : Db Validator)
    (upd : List SignedBeaconBlock) :
    writeBlocks env i batch db upd = ⟨(blockWrites env i batch (db, upd)).1.1,
      (blockWrites env i batch (db, upd)).1.2, (blockWrites env i batch (db, upd)).2⟩ := by
  induction batch generalizing i db upd with
  | nil => rfl
  | cons block batch ih =>
    rw [writeBlocks, blockWrites, writeNew, ← blockWrites]
    split_ifs
    · exact ih (i + 1) db upd
    · cases env.writeError i block.root with
      | some err => rfl
      | none => exact ih (i + 1) _ _

/-- What holds of the database and the flags is kept by the transaction, if it is kept by the writes
for a new block. -/
theorem writeBlocks_invariant (Invariant : Db Validator → List SignedBeaconBlock → Prop)
    (batch : List SignedBeaconBlock) (i : ℕ) (hstart : Invariant db upd)
    (hput : ∀ block ∈ batch, ∀ db upd, Invariant db upd → db.blocks.get block.root = none →
      Invariant (db.putBlock env block) (upd ++ [block])) :
    Invariant (writeBlocks env i batch db upd).db (writeBlocks env i batch db upd).updated := by
  rw [writeBlocks_eq]
  exact writeNew_invariant (fun state : Db Validator × _ ↦ Invariant state.1 state.2) i hstart
    fun block hblock _ hst hnew ↦ hput block hblock _ _ hst (Option.not_isSome_iff_eq_none.1 hnew)

/-- The other buckets are left alone. -/
def Db.SameButBlocks (db db' : Db Validator) : Prop :=
  ∃ blocks slots parents, db' = { db with
    blocks := blocks
    blockSlotIndices := slots
    blockParentRootIndices := parents }

theorem Db.SameButBlocks.refl (db : Db Validator) : db.SameButBlocks db := ⟨_, _, _, rfl⟩

theorem Db.SameButBlocks.trans {db'' : Db Validator} (hfirst : db.SameButBlocks db')
    (hsnd : db'.SameButBlocks db'') : db.SameButBlocks db'' := by
  obtain ⟨_, _, _, rfl⟩ := hfirst
  obtain ⟨_, _, _, rfl⟩ := hsnd
  exact ⟨_, _, _, rfl⟩

theorem sameButBlocks_putBlock (db : Db Validator) (env : Environment)
    (block : SignedBeaconBlock) : db.SameButBlocks (db.putBlock env block) := by
  obtain ⟨slots, parents, heq⟩ := updateValueForIndices_eq _ _ _
  exact ⟨_, slots, parents, heq⟩

theorem sameButBlocks_writeBatch (db : Db Validator) (env : Environment)
    (blks : List SignedBeaconBlock) : db.SameButBlocks (db.writeBatch env blks).db :=
  writeBlocks_invariant (fun db' _ ↦ db.SameButBlocks db') _ _ (.refl db)
    fun block _ _ _ hsame _ ↦ hsame.trans (sameButBlocks_putBlock _ env block)

variable {blk : SignedBeaconBlock}

/-- A block that is in the database stays there. -/
theorem get_writeBlocks_of_some (hget : db.blocks.get root = some blk)
    (batch : List SignedBeaconBlock) (i : ℕ) (upd : List SignedBeaconBlock) :
    (writeBlocks env i batch db upd).db.blocks.get root = some blk := by
  refine writeBlocks_invariant (fun db _ ↦ db.blocks.get root = some blk) batch i hget
    fun block _ db _ hkept hnew ↦ ?_
  rw [blocks_putBlock, Bucket.get_put, if_neg, hkept]
  rintro rfl
  rw [hkept] at hnew
  cases hnew

/-- The flagged blocks are in the database of the transaction. -/
theorem get_of_mem_updated (batch : List SignedBeaconBlock)
    (hblk : blk ∈ (writeBlocks env 0 batch db []).updated) :
    (writeBlocks env 0 batch db []).db.blocks.get blk.root = some blk := by
  refine writeBlocks_invariant (fun db upd ↦ ∀ blk ∈ upd, db.blocks.get blk.root = some blk) batch 0
    (fun _ h ↦ absurd h not_mem_nil) (fun block _ db upd hkept hnew blk hblk ↦ ?_) blk hblk
  rw [blocks_putBlock, Bucket.get_put]
  grind

variable {batch : List SignedBeaconBlock}

/-- A transaction that succeeds has all blocks of the batch. -/
theorem isSome_get_of_writeBlocks {i : ℕ} (hok : (writeBlocks env i batch db upd).err = none)
    (hblk : blk ∈ batch) : ((writeBlocks env i batch db upd).db.blocks.get blk.root).isSome := by
  rw [writeBlocks_eq] at hok ⊢
  refine known_writeNew (fun state block other hother ↦ ?_) (fun state block ↦ by simp) hok hblk
  rw [blocks_putBlock, Bucket.get_put]
  split_ifs
  · rfl
  · exact hother

/-- The transaction fails, if it does, before it has written a block of the batch. -/
def FailsFirst (db : Db Validator) (env : Environment) (batch : List SignedBeaconBlock) : Prop :=
  match env.fault with
  | none => True
  | some (.write entry _) => ∀ blk ∈ batch.take entry, (db.blocks.get blk.root).isSome
  | some (.commit _) => ∀ blk ∈ batch, (db.blocks.get blk.root).isSome

instance (db : Db Validator) (env : Environment) (batch : List SignedBeaconBlock) :
    Decidable (FailsFirst db env batch) := by
  unfold FailsFirst
  split <;> infer_instance

theorem err_writeBlocks_eq_none {i : ℕ}
    (hwrite : ∀ entry root, i ≤ entry → env.writeError entry root = none)
    (hcommit : env.commitError = none) (batch upd : List SignedBeaconBlock) :
    (writeBlocks env i batch db upd).err = none := by
  rw [writeBlocks_eq]
  exact writeNew_eq_none (fun entry hentry block ↦ hwrite entry block.root hentry) hcommit _ _

/-- A failed transaction that fails first has flagged no block. -/
theorem FailsFirst.updated_eq_nil (hfirst : FailsFirst db env batch)
    (hfails : (writeBlocks env 0 batch db []).err ≠ none) :
    (writeBlocks env 0 batch db []).updated = [] := by
  obtain ⟨fault, atIndices, slotFirst⟩ := env
  rw [writeBlocks_eq] at hfails ⊢
  refine congrArg Prod.snd
    (?_ : (blockWrites ⟨fault, atIndices, slotFirst⟩ 0 batch (db, [])).1 = (db, []))
  cases fault with
  | none =>
    exact writeNew_eq_of_fails (fun _ ↦ False) (fun _ _ ↦ ⟨rfl, fun _ _ _ ↦ rfl⟩)
      (fun _ _ _ h ↦ h.elim) hfails
  | some fault =>
    cases fault with
    | write entry err =>
      refine writeNew_eq_of_fails (· < entry) (fun n hn ↦ ⟨rfl, fun m hm _ ↦ ?_⟩)
        (fun k blk hblk hk ↦ hfirst blk ?_) hfails
      · rw [Environment.writeError, writeError, if_neg (by omega)]
        rfl
      · refine mem_of_getElem? (i := k) ?_
        rw [getElem?_take_of_lt (by omega), hblk]
    | commit err =>
      exact writeNew_eq_of_fails (fun _ ↦ True) (fun _ h ↦ absurd trivial h)
        (fun _ blk hblk _ ↦ hfirst blk (mem_of_getElem? hblk)) hfails

end Writes

/-- The calls of a run, and the loss of an entry of the block cache. -/
inductive BlockCall
  | saveBlock (env : Environment) (signed : SignedBeaconBlock)
  | saveBlocks (env : Environment) (blks : List SignedBeaconBlock)
  | saveROBlocks (env : Environment) (blks : List SignedBeaconBlock) (cache : Bool)
  | evict (blockRoot : Root)

/-- What a call returns, and the store after it. -/
def BlockCall.serve :
    BlockCall → Except Fault Unit × Store Validator
  | saveBlock env signed => Kv.saveBlock store env signed
  | saveBlocks env blks => Kv.saveBlocks store env blks
  | saveROBlocks env blks cache => Kv.saveROBlocks store env blks cache
  | evict blockRoot =>
    (.ok (), { store with blockCache := Function.update store.blockCache blockRoot none })

/-- The blocks of a call. -/
def BlockCall.blks : BlockCall → List SignedBeaconBlock
  | saveBlock _ signed => [signed]
  | saveBlocks _ blks => blks
  | saveROBlocks _ blks _ => blks
  | evict _ => []

/-- A save that fills the cache fails, if it does, before it has written a block. -/
def FailsUncached : BlockCall → Prop
  | .saveBlock env signed => FailsFirst store.db env [signed]
  | .saveBlocks env blks => FailsFirst store.db env blks
  | .saveROBlocks env blks cache => cache = true → FailsFirst store.db env blks
  | .evict _ => True

instance (store : Store Validator) (call : BlockCall) : Decidable (FailsUncached store call) := by
  cases call <;> unfold FailsUncached <;> infer_instance

/-- The cache only holds blocks of the database. -/
def CacheCommitted : Prop :=
  ∀ root blk, store.blockCache root = some blk → store.db.blocks.get root = some blk

section Runs

variable {store : Store Validator} {env : Environment} {blks : List SignedBeaconBlock}
  {cache : Bool} {blk : SignedBeaconBlock}

theorem mem_of_foldl_update {cache : Root → Option SignedBeaconBlock}
    (hget : (upd.foldl (fun (cache : Root → Option SignedBeaconBlock) block ↦
      Function.update cache block.root (some block)) cache) root = some blk) :
    blk ∈ upd ∧ blk.root = root ∨ cache root = some blk := by
  induction upd generalizing cache with
  | nil => exact .inr hget
  | cons first rest ih =>
    rcases ih hget with ⟨hmem, hroot⟩ | hold
    · exact .inl ⟨mem_cons_of_mem _ hmem, hroot⟩
    · grind

theorem db_saveROBlocks (store : Store Validator) (env : Environment)
    (blks : List SignedBeaconBlock) (cache : Bool) :
    (saveROBlocks store env blks cache).2.db = (store.db.writeBatch env blks).commit store.db := by
  cases cache <;> rfl

/-- A call leaves the database as it was, or commits the blocks that it was given. -/
theorem db_serve (store : Store Validator) (call : BlockCall) :
    (call.serve store).2.db = store.db ∨
      ∃ other, (call.serve store).2.db = (store.db.writeBatch other call.blks).db := by
  have hsave (env : Environment) (blks : List SignedBeaconBlock) (cache : Bool) :
      (Kv.saveROBlocks store env blks cache).2.db = store.db ∨
        ∃ other, (Kv.saveROBlocks store env blks cache).2.db =
          (store.db.writeBatch other blks).db := by
    rw [db_saveROBlocks, Written.commit]
    grind
  cases call with
  | saveBlock env signed =>
    rw [BlockCall.serve, saveBlock]
    split_ifs
    · exact .inl rfl
    · exact hsave env [signed] true
  | saveBlocks env blks => exact hsave env blks true
  | saveROBlocks env blks cache => exact hsave env blks cache
  | evict blockRoot => exact .inl rfl

/-- No save loses a block of the database. -/
theorem get_saveROBlocks (hget : store.db.blocks.get root = some blk) :
    (saveROBlocks store env blks cache).2.db.blocks.get root = some blk := by
  rw [db_saveROBlocks, Written.commit]
  split_ifs
  · exact hget
  · exact get_writeBlocks_of_some hget _ _ _

theorem err_eq_none_of_returned {err : Option Error} (hok : returned err = .ok ()) :
    err = none := by
  cases err with
  | none => rfl
  | some err => cases hok

/-- A save that returns without an error has put its blocks into the database. -/
theorem isSome_get_saveROBlocks (hok : (saveROBlocks store env blks cache).1 = .ok ())
    (hblk : blk ∈ blks) :
    ((saveROBlocks store env blks cache).2.db.blocks.get blk.root).isSome := by
  have herr : (store.db.writeBatch env blks).err = none := err_eq_none_of_returned hok
  have hprepared := isSome_get_of_writeBlocks herr
    (mem_map_of_mem (f := SignedBeaconBlock.prepare store.db.saveBlindedBeaconBlocks) hblk)
  rw [root_prepare] at hprepared
  rwa [db_saveROBlocks, Written.commit, herr, if_neg (by simp)]

theorem failsFirst_prepare {db : Db Validator} {shouldBlind : Bool}
    (hfirst : FailsFirst db env blks) : FailsFirst db env (prepareBlockBatch blks shouldBlind) := by
  unfold FailsFirst prepareBlockBatch at *
  cases hfault : env.fault with
  | none => trivial
  | some fault =>
    rw [hfault] at hfirst
    cases fault with
    | write entry err =>
      intro blk hblk
      rw [← map_take] at hblk
      obtain ⟨other, hother, rfl⟩ := mem_map.1 hblk
      rw [root_prepare]
      exact hfirst other hother
    | commit err =>
      intro blk hblk
      obtain ⟨other, hother, rfl⟩ := mem_map.1 hblk
      rw [root_prepare]
      exact hfirst other hother

section

variable (hcache : CacheCommitted store)
include hcache

/-- The cache stays committed when a failed transaction has flagged no block. -/
theorem CacheCommitted.saveROBlocks_of_flagged
    (hflagged : (store.db.writeBatch env blks).err ≠ none → cache = true →
      (store.db.writeBatch env blks).updated = []) :
    CacheCommitted (Kv.saveROBlocks store env blks cache).2 := by
  intro root blk hblk
  have hkept (hold : store.blockCache root = some blk) :
      (Kv.saveROBlocks store env blks cache).2.db.blocks.get root = some blk :=
    get_saveROBlocks (hcache root blk hold)
  cases cache with
  | false => exact hkept hblk
  | true =>
    rcases mem_of_foldl_update hblk with ⟨hupd, rfl⟩ | hold
    · have hwritten := get_of_mem_updated _ hupd
      rw [db_saveROBlocks, Written.commit]
      split_ifs with herr
      · rw [hflagged (Option.isSome_iff_ne_none.1 herr) rfl] at hupd
        exact absurd hupd not_mem_nil
      · exact hwritten
    · exact hkept hold

theorem CacheCommitted.saveROBlocks (hfirst : cache = true → FailsFirst store.db env blks) :
    CacheCommitted (Kv.saveROBlocks store env blks cache).2 :=
  hcache.saveROBlocks_of_flagged fun herr htrue ↦
    (failsFirst_prepare (hfirst htrue)).updated_eq_nil herr

variable {signed : SignedBeaconBlock}

/-- A save of a block that returns without an error keeps the cache committed. -/
theorem CacheCommitted.saveBlock_of_ok (hok : (Kv.saveBlock store env signed).1 = .ok ()) :
    CacheCommitted (Kv.saveBlock store env signed).2 := by
  unfold Kv.saveBlock at hok ⊢
  split_ifs at hok ⊢
  · exact hcache
  · refine hcache.saveROBlocks_of_flagged fun herr _ ↦ absurd ?_ herr
    exact err_eq_none_of_returned hok

theorem CacheCommitted.serve {call : BlockCall} (hallowed : FailsUncached store call) :
    CacheCommitted (call.serve store).2 := by
  cases call with
  | saveBlock env signed =>
    rw [BlockCall.serve, saveBlock]
    split_ifs
    · exact hcache
    · exact hcache.saveROBlocks fun _ ↦ hallowed
  | saveBlocks env blks =>
    exact hcache.saveROBlocks fun _ ↦ hallowed
  | saveROBlocks env blks cache => exact hcache.saveROBlocks hallowed
  | evict blockRoot =>
    intro root blk hblk
    rw [BlockCall.serve] at hblk
    dsimp only at hblk
    rw [Function.update_apply] at hblk
    split_ifs at hblk
    exact hcache root blk hblk

omit hcache in
theorem get_serve (call : BlockCall) (hget : store.db.blocks.get root = some blk) :
    (call.serve store).2.db.blocks.get root = some blk := by
  rcases db_serve store call with hdb | ⟨env, hdb⟩
  · rw [hdb, hget]
  · rw [hdb, Db.writeBatch]
    exact get_writeBlocks_of_some hget _ _ _

omit hcache in
theorem sameButBlocks_serve (store : Store Validator) (call : BlockCall) :
    store.db.SameButBlocks (call.serve store).2.db := by
  rcases db_serve store call with hdb | ⟨env, hdb⟩
  · rw [hdb]
    exact .refl store.db
  · rw [hdb]
    exact sameButBlocks_writeBatch _ _ _

/-- A save of a block that returns without an error leaves the block in the database. -/
theorem CacheCommitted.isSome_get_saveBlock (hok : (saveBlock store env signed).1 = .ok ()) :
    ((saveBlock store env signed).2.db.blocks.get signed.root).isSome := by
  unfold saveBlock at hok ⊢
  split_ifs at hok ⊢ with hcached
  · obtain ⟨blk, hblk⟩ := Option.isSome_iff_exists.1 hcached
    rw [hcache _ _ hblk]
    rfl
  · exact isSome_get_saveROBlocks hok (mem_singleton_self signed)

/-- The reads give what is in the database. -/
theorem CacheCommitted.block_eq (root : Root) : block store root = store.db.blocks.get root := by
  unfold block getBlock
  cases hcached : store.blockCache root with
  | some blk => exact (hcache root blk hcached).symm
  | none =>
    grind

end

/-- In a run of saves that fail, if they do, before a block is written, a block is reported only if
it is in the database, and a block whose save returned without an error is in it. -/
theorem reported_blocks_committed {db : Db Validator}
    {labels : List (BlockCall × Except Fault Unit)}
    (run : Run (CallStep (answer BlockCall.serve) FailsUncached) (Store.open db) labels store) :
    (∀ root, hasBlock store root = true → (store.db.blocks.get root).isSome) ∧
      (∀ root blk, block store root = some blk → store.db.blocks.get root = some blk) ∧
      ∀ env signed, (BlockCall.saveBlock env signed, .ok ()) ∈ labels →
        (store.db.blocks.get signed.root).isSome := by
  obtain ⟨hcache, hsaved⟩ := run.answered_invariant (fun labels store ↦ CacheCommitted store ∧
      ∀ env signed, (BlockCall.saveBlock env signed, .ok ()) ∈ labels →
        (store.db.blocks.get signed.root).isSome) ⟨nofun, fun _ _ h ↦ absurd h not_mem_nil⟩
    (by
      rintro history store call ⟨hcache, hsaved⟩ hallowed
      refine ⟨hcache.serve hallowed, fun env signed hmem ↦ ?_⟩
      rcases mem_append.1 hmem with hold | hlast
      · obtain ⟨blk, hblk⟩ := Option.isSome_iff_exists.1 (hsaved env signed hold)
        rw [get_serve call hblk]
        rfl
      · obtain ⟨rfl, hok⟩ := Prod.mk.inj (mem_singleton.1 hlast)
        exact hcache.isSome_get_saveBlock hok.symm)
  refine ⟨fun root hroot ↦ ?_, fun root blk hblk ↦ ?_, hsaved⟩
  · rcases Bool.or_eq_true_iff.1 hroot with hcached | hstored
    · obtain ⟨blk, hblk⟩ := Option.isSome_iff_exists.1 hcached
      rw [hcache root blk hblk]
      rfl
    · exact hstored
  · rwa [hcache.block_eq] at hblk

end Runs

/-- The block after genesis on a chain of one block. -/
def firstBlock : SignedBeaconBlock where
  root := 7
  slot := 1
  parentRoot := 3
  version := .phase0
  isBlinded := false

/-- A commit that fails. -/
def commitFails : Environment :=
  ⟨some (.commit (.errorf "disk full" [])), false, fun _ ↦ true⟩

/-- A transaction that does not fail. -/
def noFault : Environment := ⟨none, false, fun _ ↦ true⟩

/-- A block whose save failed at the commit is reported, and saving it again returns without an
error and without the block in the database. -/
theorem reported_uncommitted :
    ∃ store : Store ℕ, (saveBlock (Store.open Db.empty) commitFails firstBlock).2 = store ∧
      (saveBlock (Store.open (Db.empty : Db ℕ)) commitFails firstBlock).1 ≠ .ok () ∧
      hasBlock store firstBlock.root = true ∧ block store firstBlock.root = some firstBlock ∧
      store.db.blocks.get firstBlock.root = none ∧
      (saveBlock store noFault firstBlock).1 = .ok () ∧
      (saveBlock store noFault firstBlock).2.db.blocks.get firstBlock.root = none :=
  ⟨_, rfl, by decide +kernel⟩

/-- Two saves, of which the first fails before it has written anything. -/
def savesAfterFailure : List BlockCall :=
  [.saveBlock ⟨some (.write 0 (.errorf "disk full" [])), false, fun _ ↦ true⟩ firstBlock,
    .saveBlock noFault firstBlock]

theorem reported_blocks_committed_savesAfterFailure :
    ∃ (labels : List (BlockCall × Except Fault Unit)) (store : Store ℕ),
      Run (CallStep (answer BlockCall.serve) FailsUncached) (Store.open Db.empty) labels store ∧
      (∀ root, hasBlock store root = true → (store.db.blocks.get root).isSome) ∧
      (∀ root blk, block store root = some blk → store.db.blocks.get root = some blk) ∧
      ∀ env signed, (BlockCall.saveBlock env signed, .ok ()) ∈ labels →
        (store.db.blocks.get signed.root).isSome :=
  have run := run_execute (answer BlockCall.serve) FailsUncached
    (Store.open Db.empty : Store ℕ) savesAfterFailure (by decide +kernel)
  ⟨_, _, run, reported_blocks_committed run⟩

end Prysm.Kv
