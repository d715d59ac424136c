import Prysm.Kv.FinalizedChain

/-!
# Runs with backfill

A run starts with `SaveOrigin`, after which the origin alone is the finalized chain, and continues
with saves of blocks and of finalized checkpoints and with backfills in any order.
-/

namespace Prysm.Kv

open Prysm.Library

variable {Validator Body : Type} {root : Root}

/-- Nothing is finalized, and the stored blocks belong to the tree. -/
structure Unfinalized (tree : BlockTree) (store : Store Validator) : Prop where
  indexed : ∃ slots parents, Indexed tree store.db slots parents
  cache : CacheCommitted store
  known : ∀ root, store.db.Stored root → tree.known root
  index : store.db.finalizedBlockRootsIndex = Bucket.empty
  finalized : store.db.finalizedCheckpoint = none
  previous : store.db.previousFinalizedCheckpoint = none

/-- Only the states, what is saved with them, the head and the justified checkpoint differ. -/
def Store.SameButStates (store store' : Store Validator) : Prop :=
  ∃ head justified states slots summaries hashes validators entryCache summaryCache,
    store' = { store with
      db := { store.db with
        headBlockRoot := head
        justifiedCheckpoint := justified
        states := states
        stateSlotIndices := slots
        stateSummaries := summaries
        blockRootValidatorHashes := hashes
        stateValidators := validators }
      validatorEntryCache := entryCache
      stateSummaryCache := summaryCache }

section Origin

variable {config : BeaconChainConfig} {codec : StateCodec Validator Body} {enabled : Bool}
  {tree : BlockTree} {store store' store'' : Store Validator} {st : BeaconState Validator Body}
  {fault : Option Error} {env : SaveEnvironment}

theorem wrapThen_eq_ok {result : Except Fault Unit × Store Validator} {msg : String}
    {next : Store Validator → Except Fault Unit × Store Validator}
    (hok : wrapThen result msg next = (.ok (), store')) :
    ∃ store, result = (.ok (), store) ∧ next store = (.ok (), store') := by
  obtain ⟨returned, store⟩ := result
  cases returned with
  | error err => exact absurd (wrapf_eq_ok_iff.1 (Prod.mk.inj hok).1) nofun
  | ok _ => exact ⟨store, rfl, hok⟩

theorem Store.SameButStates.trans (hfirst : store.SameButStates store')
    (hsnd : store'.SameButStates store'') : store.SameButStates store'' := by
  obtain ⟨_, _, _, _, _, _, _, _, _, rfl⟩ := hfirst
  obtain ⟨_, _, _, _, _, _, _, _, _, rfl⟩ := hsnd
  exact ⟨_, _, _, _, _, _, _, _, _, rfl⟩

theorem writeStates_singleton
    {write : Db Validator → BeaconState Validator Body → Root → Db Validator}
    {db db' : Db Validator} (hok : writeStates env write 0 [st] [root] db = .ok db') :
    db' = write db st root := by
  rw [writeStates] at hok
  split at hok
  · cases hok
  · exact (Except.ok.inj hok).symm

theorem sameButStates_saveState
    (hok : saveState codec enabled store env st root = (.ok (), store')) :
    store.SameButStates store' := by
  unfold saveState at hok
  split_ifs at hok
  · unfold saveStatesEfficient at hok
    split at hok
    · cases hok
    · next db hwrite =>
      obtain ⟨db', hdb, rfl⟩ := Store.update_eq_ok hok
      obtain rfl := Except.ok.inj hdb
      rw [writeStates_singleton hwrite]
      exact ⟨_, _, _, _, _, _, _, _, _, rfl⟩
  · obtain ⟨db', hdb, rfl⟩ := Store.update_eq_ok hok
    rw [writeStates_singleton hdb]
    exact ⟨_, _, _, _, _, _, _, _, _, rfl⟩

theorem sameButStates_saveStateSummary {summary : StateSummary}
    (hok : saveStateSummary store fault summary = (.ok (), store')) :
    store.SameButStates store' := by
  unfold saveStateSummary saveCachedStateSummariesDB at hok
  split_ifs at hok
  · cases fault with
    | some err => cases hok
    | none =>
      cases hok
      exact ⟨_, _, _, _, _, _, _, _, _, rfl⟩
  · cases hok
    exact ⟨_, _, _, _, _, _, _, _, _, rfl⟩

theorem sameButStates_saveHeadBlockRoot
    (hok : saveHeadBlockRoot store fault root = (.ok (), store')) : store.SameButStates store' := by
  obtain ⟨db', hdb, rfl⟩ := Store.update_eq_ok hok
  split_ifs at hdb
  obtain rfl := Except.ok.inj hdb
  exact ⟨_, _, _, _, _, _, _, _, _, rfl⟩

theorem sameButStates_saveJustifiedCheckpoint {checkpoint : Checkpoint}
    (hok : saveJustifiedCheckpoint store fault checkpoint = (.ok (), store')) :
    store.SameButStates store' := by
  obtain ⟨db', hdb, rfl⟩ := Store.update_eq_ok hok
  obtain ⟨db, hensure, hdb⟩ := bind_eq_ok_iff.1 hdb
  obtain ⟨states, rfl⟩ := ensureStateSummary_eq_ok hensure
  obtain rfl := Except.ok.inj hdb
  exact ⟨_, _, _, _, _, _, _, _, _, rfl⟩

section

variable (hstart : Unfinalized tree store)
include hstart

theorem Unfinalized.update (status : Option BackfillStatus) (origin : Option Root) :
    Unfinalized tree { store with db := { store.db with
      backfillStatus := status
      originCheckpointBlockRoot := origin } } := by
  obtain ⟨slots, parents, hidx⟩ := hstart.indexed
  exact ⟨⟨slots, parents, hidx.congr rfl rfl rfl⟩, hstart.cache, hstart.known, hstart.index,
    hstart.finalized, hstart.previous⟩

theorem Unfinalized.congr (hsame : store.SameButStates store') : Unfinalized tree store' := by
  obtain ⟨slots, parents, hidx⟩ := hstart.indexed
  obtain ⟨_, _, _, _, _, _, _, _, _, rfl⟩ := hsame
  exact ⟨⟨slots, parents, hidx.congr rfl rfl rfl⟩, hstart.cache, hstart.known, hstart.index,
    hstart.finalized, hstart.previous⟩

variable {wblk : SignedBeaconBlock}

/-- The save of the block leaves nothing finalized. -/
theorem Unfinalized.saveBlock {env : Environment} (hhashes : tree.Hashes wblk)
    (hknown : tree.known wblk.root) (hok : Kv.saveBlock store env wblk = (.ok (), store')) :
    Unfinalized tree store' ∧ store'.db.Stored wblk.root ∧ store.db.SameButBlocks store'.db := by
  have hserve : BlockCall.serve store (.saveBlock env wblk) = (.ok (), store') := hok
  obtain ⟨slots, parents, hidx⟩ := hstart.indexed
  have hidx' : ∃ slots parents, Indexed tree
      (BlockCall.serve store (.saveBlock env wblk)).2.db slots parents :=
    hidx.serve fun blk hblk ↦ List.mem_singleton.1 hblk ▸ hhashes
  have hsame := sameButBlocks_serve store (.saveBlock env wblk)
  have hcache : CacheCommitted (Kv.saveBlock store env wblk).2 :=
    hstart.cache.saveBlock_of_ok (by rw [hok])
  have hsaved : ((Kv.saveBlock store env wblk).2.db.blocks.get wblk.root).isSome :=
    hstart.cache.isSome_get_saveBlock (by rw [hok])
  rw [hok] at hcache hsaved
  rw [hserve] at hidx' hsame
  refine ⟨⟨hidx', hcache, fun root hroot ↦ ?_, ?_, ?_, ?_⟩, hsaved, hsame⟩
  · rcases stored_serve (.saveBlock env wblk) (by rwa [hserve]) with hold | ⟨blk, hblk, rfl⟩
    · exact hstart.known root hold
    · exact List.mem_singleton.1 hblk ▸ hknown
  all_goals obtain ⟨blocks, slotBkt, parentBkt, hdb⟩ := hsame
  · rw [hdb]
    exact hstart.index
  · rw [hdb]
    exact hstart.finalized
  · rw [hdb]
    exact hstart.previous

/-- The first checkpoint save puts the entry of the origin. -/
theorem Unfinalized.backfilled (hslots : 2 * config.slotsPerEpoch ≤ 2 ^ 64)
    (hhashes : tree.Hashes wblk) (hstored : store.db.Stored wblk.root)
    (hgen : ∀ root, store.db.genesisBlockRoot = some root → tree.slot root < tree.slot wblk.root)
    (horigin : store.db.originCheckpointBlockRoot = some wblk.root) {epoch : Epoch}
    (hok : saveFinalizedCheckpoint config store fault ⟨epoch, wblk.root⟩ = (.ok (), store')) :
    Backfilled config tree wblk.root ⟨store', false, some (originStatus wblk.root wblk)⟩ := by
  obtain ⟨slots, parents, hidx⟩ := hstart.indexed
  have hmarked : MarksRecent config tree store := by
    refine ⟨hstart.indexed, hstart.cache, hstart.previous.trans hstart.finalized.symm,
      fun root hroot ↦ ?_⟩
    rw [hstart.index] at hroot
    cases hroot
  have hdesc : Descends store.db ⟨epoch, wblk.root⟩ := by
    refine ⟨hstored, fun finalized hfin ↦ ?_⟩
    rw [hstart.finalized] at hfin
    cases hfin
  have hmarked' := hmarked.saveFinalizedCheckpoint hslots hdesc fault
  rw [hok] at hmarked'
  obtain ⟨db', hdb, rfl⟩ := Store.update_eq_ok hok
  obtain ⟨states, stale, walked, recent, -, hwalked, -, rfl⟩ := finalizeCheckpoint_eq_ok hdb
  rw [funext hstart.cache.block_eq, horigin] at hwalked
  have hzero {k : ℕ} (hk : k ≤ 0) : tree.below wblk.root k = wblk.root := by
    rw [Nat.le_zero.1 hk, tree.below_zero]
  have hknown (k : ℕ) (hk : k ≤ 0) : tree.known (tree.below wblk.root k) := by
    rw [hzero hk]
    exact hstart.known _ hstored
  refine ⟨hmarked', hstart.known, hgen, horigin, ⟨epoch, wblk.root⟩,
    originStatus wblk.root wblk, 0, 0, ?_⟩
  exact {
    finalized_eq := rfl
    status_eq := rfl
    origin_eq := rfl
    low_eq := rfl
    lowParent_eq := hhashes.2
    le := le_rfl
    origin_below := rfl
    linked := by
      refine ⟨fun k hk ↦ ?_, fun k hk ↦ get_upsertRecent_of_some ?_ recent⟩
      · rw [hzero hk]
        exact hstored
      · refine entry_walkAncestry hidx hknown le_rfl (fun k hk hroot ↦ ?_) le_rfl
          (fun j hj ↦ absurd hj (Nat.not_lt_zero j)) (fun j hlow hhigh ↦ absurd hlow (by omega))
          (fun hlt ↦ absurd hlt (lt_irrefl 0)) hwalked hk
        rw [hzero hk] at hroot
        exact lt_irrefl _ (hgen _ hroot.symm) }

/-- After `SaveOrigin` the origin is the finalized chain. -/
theorem Unfinalized.saveOrigin (hslots : 2 * config.slotsPerEpoch ≤ 2 ^ 64)
    {env : OriginEnvironment} (hhashes : tree.Hashes wblk) (hknown : tree.known wblk.root)
    (hgen : ∀ root, store.db.genesisBlockRoot = some root → tree.slot root < tree.slot wblk.root)
    (hok : Kv.saveOrigin config codec enabled store env st wblk = (.ok (), store'))
    (fault : Option Error) : Backfilled config tree wblk.root (newUpdater store' fault).2 := by
  obtain ⟨first, hfirst, hok⟩ := wrapThen_eq_ok hok
  obtain ⟨db, hdb, rfl⟩ := Store.update_eq_ok hfirst
  obtain rfl := Except.ok.inj hdb
  have hunfinalized := hstart.update (some (originStatus wblk.root wblk))
    store.db.originCheckpointBlockRoot
  obtain ⟨second, hsnd, hok⟩ := wrapThen_eq_ok hok
  obtain ⟨hunfinalized, hstored, blocks, slotBkt, parentBkt, hblocks⟩ :=
    hunfinalized.saveBlock hhashes hknown hsnd
  have hgenesisRoot : second.db.genesisBlockRoot = store.db.genesisBlockRoot := by rw [hblocks]
  have hstatus : second.db.backfillStatus = some (originStatus wblk.root wblk) := by rw [hblocks]
  obtain ⟨third, hthird, hok⟩ := wrapThen_eq_ok hok
  obtain ⟨fourth, hfourth, hok⟩ := wrapThen_eq_ok hok
  obtain ⟨fifth, hfifth, hok⟩ := wrapThen_eq_ok hok
  have hstates : second.SameButStates fifth := by
    exact ((sameButStates_saveState hthird).trans (sameButStates_saveStateSummary hfourth)).trans
      (sameButStates_saveHeadBlockRoot hfifth)
  obtain ⟨_, _, _, _, _, _, _, _, _, rfl⟩ := hstates
  obtain ⟨sixth, hsixth, hok⟩ := wrapThen_eq_ok hok
  obtain ⟨db, hdb, rfl⟩ := Store.update_eq_ok hsixth
  obtain rfl := Except.ok.inj hdb
  obtain ⟨seventh, hseventh, hok⟩ := wrapThen_eq_ok hok
  have hjust := sameButStates_saveJustifiedCheckpoint hseventh
  replace hunfinalized := (hunfinalized.update second.db.backfillStatus
    (some wblk.root)).congr hjust
  obtain ⟨_, _, _, _, _, _, _, _, _, rfl⟩ := hjust
  obtain ⟨eighth, heighth, hok⟩ := wrapThen_eq_ok hok
  obtain rfl := (Prod.mk.inj hok).2
  have hback := hunfinalized.backfilled hslots hhashes hstored (hgenesisRoot ▸ hgen) rfl heighth
  have hsaved : eighth.db.backfillStatus = some (originStatus wblk.root wblk) := by
    obtain ⟨db, hdb, rfl⟩ := Store.update_eq_ok heighth
    obtain ⟨states, stale, walked, recent, -, -, -, rfl⟩ := finalizeCheckpoint_eq_ok hdb
    exact hstatus
  rw [newUpdater, hsaved]
  exact hback

end

end Origin

/-- The calls of a run: saves of blocks and of finalized checkpoints, and backfills. -/
inductive BackfillCall
  | blocks (call : BlockCall)
  | saveFinalizedCheckpoint (fault : Option Error) (checkpoint : Checkpoint)
  | fillBack (env : BackfillEnvironment) (blks : List SignedBeaconBlock)

/-- The state after a call. -/
def BackfillCall.serve (config : BeaconChainConfig) (updater : StatusUpdater Validator) :
    BackfillCall → StatusUpdater Validator
  | blocks call => { updater with store := (call.serve updater.store).2 }
  | saveFinalizedCheckpoint fault checkpoint =>
    { updater with store := (Kv.saveFinalizedCheckpoint config updater.store fault checkpoint).2 }
  | fillBack env blks => (Kv.fillBack updater env blks).2

/-- The calls that keep the chain: saves and backfills of blocks of the tree, and descending
checkpoints whose save restores the chain. -/
def BackfillAllowed (config : BeaconChainConfig) (tree : BlockTree)
    (updater : StatusUpdater Validator) : BackfillCall → Prop
  | .blocks call => FailsUncached updater.store call ∧
      ∀ blk ∈ call.blks, tree.Hashes blk ∧ tree.known blk.root
  | .saveFinalizedCheckpoint _ checkpoint => Descends updater.store.db checkpoint ∧
      RestoresChain config tree updater checkpoint
  | .fillBack _ blks => ∀ blk ∈ blks, tree.Hashes blk ∧ tree.known blk.root

/-- The data of all blocks is available, and no transaction fails. -/
def BackfillEnvironment.NoFault (env : BackfillEnvironment) : Prop :=
  (∀ root, env.isDataAvailable root = none) ∧ env.blocks.fault = none ∧ env.index = none ∧
    env.status = none

section Runs

variable {config : BeaconChainConfig} {codec : StateCodec Validator Body} {enabled : Bool}
  {tree : BlockTree} {origin : Root} {updater : StatusUpdater Validator} {finalized : Checkpoint}
  {status : BackfillStatus} {m n : ℕ}

theorem Backfilled.serve (hback : Backfilled config tree origin updater)
    (hslots : 2 * config.slotsPerEpoch ≤ 2 ^ 64) {call : BackfillCall}
    (hallowed : BackfillAllowed config tree updater call) :
    Backfilled config tree origin (call.serve config updater) := by
  cases call with
  | blocks call => exact hback.blocks hslots hallowed.1 hallowed.2
  | saveFinalizedCheckpoint fault checkpoint =>
    exact hback.saveFinalizedCheckpoint hslots hallowed.1 hallowed.2 fault
  | fillBack env blks => exact hback.fillBack hslots env hallowed

/-- The blocks between the finalized and the lowest block. -/
theorem Backfilled.exists_below (hback : Backfilled config tree origin updater)
    (hchain : FinalizedChain tree origin updater finalized status m n)
    (hanc : updater.store.db.Ancestor finalized.root root)
    (hlow : updater.store.db.Ancestor root status.lowRoot) :
    ∃ k ≤ n, root = tree.below finalized.root k := by
  obtain ⟨slots, parents, hidx⟩ := hback.marked.indexed
  rw [hchain.low_eq] at hlow
  have hroot : updater.store.db.Stored root := by
    rcases hlow.cases_head with rfl | ⟨parent, hpar, -⟩
    · exact hchain.linked.stored n le_rfl
    · exact (hidx.parent_iff.1 hpar).1
  obtain ⟨k, rfl, hstored⟩ := hidx.ancestor_iff.1 hanc
  refine ⟨k, not_lt.1 fun hlt ↦ ?_, rfl⟩
  refine BlockTree.not_ancestor hidx hback.known hlt (fun i hi ↦ ?_) hlow
  rcases Nat.eq_or_lt_of_le hi with rfl | hless
  · exact hroot
  · exact hstored i hless

section

variable (hchain : FinalizedChain tree origin updater finalized status m n)
include hchain

theorem FinalizedChain.ancestor
    {slots : Slot → List Root} {parents : Root → List Root}
    (hidx : Indexed tree updater.store.db slots parents) {k : ℕ} (hk : k ≤ n) :
    updater.store.db.Ancestor finalized.root (tree.below finalized.root k) :=
  hidx.ancestor_iff.2 ⟨k, rfl, fun i hi ↦ hchain.linked.stored i (by omega)⟩

/-- A backfill that connects to the lowest block succeeds. -/
theorem FinalizedChain.fillBack_eq_ok
    {env : BackfillEnvironment}
    (henv : env.NoFault) {blks : List SignedBeaconBlock} {highest : SignedBeaconBlock}
    (hhighest : blks.getLast? = some highest) (hroot : highest.root = status.lowParentRoot)
    (hparents : checkParents blks = .ok ()) :
    ∃ status', (fillBack updater env blks).1 = .ok status' := by
  obtain ⟨havailable, hblocks, hidx, hstatus⟩ := henv
  have hsave : saveROBlocks updater.store env.blocks blks false =
      (.ok (), { updater.store with db := (updater.store.db.writeBatch env.blocks blks).db }) := by
    have herr : (updater.store.db.writeBatch env.blocks blks).err = none := by
      refine err_writeBlocks_eq_none (fun entry _ _ ↦ ?_) ?_ _ _
      · rw [Environment.writeError, hblocks]
        rfl
      · rw [Environment.commitError, hblocks]
        rfl
    rw [saveROBlocks, Written.commit, herr]
    rfl
  have hsame : (updater.store.db.writeBatch env.blocks blks).db.finalizedBlockRootsIndex =
      updater.store.db.finalizedBlockRootsIndex := by
    obtain ⟨blocks, slotBkt, parentBkt, hdb⟩ :=
      sameButBlocks_writeBatch updater.store.db env.blocks blks
    rw [hdb]
  obtain ⟨lowest, hlowest⟩ : ∃ lowest, blks.head? = some lowest := by
    cases blks with
    | nil => cases hhighest
    | cons blk blks => exact ⟨blk, rfl⟩
  rw [fillBack, hchain.status_eq]
  rw [hlowest, hhighest]
  dsimp only
  rw [if_neg (not_not.2 hroot), List.findSome?_eq_none_iff.2 fun blk _ ↦ havailable blk.root, hsave]
  dsimp only
  rw [backfillFinalizedIndex, hhighest, hparents]
  dsimp only
  rw [hchain.connectBatch hsame hroot, hidx]
  rw [hstatus]
  exact ⟨_, rfl⟩

end

/-- The finalized chain is indexed and linked from the finalized block to the lowest backfilled one
in every run whose checkpoint saves restore it, and a backfill that connects to it succeeds. -/
theorem finalized_chain_linked (hslots : 2 * config.slotsPerEpoch ≤ 2 ^ 64)
    {start store : Store Validator} (hstart : Unfinalized tree start) {env : OriginEnvironment}
    {st : BeaconState Validator Body} {wblk : SignedBeaconBlock} (hhashes : tree.Hashes wblk)
    (hknown : tree.known wblk.root) (hgenesis : ∀ root, start.db.genesisBlockRoot = some root →
      tree.slot root < tree.slot wblk.root)
    (horigin : saveOrigin config codec enabled start env st wblk = (.ok (), store))
    {fault : Option Error} {calls : List BackfillCall}
    (run : Run (CallStep (fun updater call ↦ (call, call.serve config updater))
      (BackfillAllowed config tree)) (newUpdater store fault).2 calls updater) :
    ∃ finalized status, updater.store.db.finalizedCheckpoint = some finalized ∧
      updater.bs = some status ∧
      updater.store.db.Ancestor finalized.root status.lowRoot ∧
      (∀ root, updater.store.db.Ancestor finalized.root root →
        updater.store.db.Ancestor root status.lowRoot →
        isFinalizedBlock updater.store.db root = true ∧
          (root ≠ finalized.root → ∃ child,
            finalizedChildBlock updater.store.db root = some child ∧ child.parentRoot = root ∧
              updater.store.db.Ancestor finalized.root child.root)) ∧
      ∀ env blks highest, env.NoFault → blks.getLast? = some highest →
        highest.root = status.lowParentRoot → checkParents blks = .ok () →
        ∃ status', (fillBack updater env blks).1 = .ok status' := by
  have hback := run.call_invariant (Backfilled config tree wblk.root)
    (hstart.saveOrigin hslots hhashes hknown hgenesis horigin fault)
    (fun _ _ h hallowed ↦ h.serve hslots hallowed)
  obtain ⟨finalized, status, m, n, hchain⟩ := hback.chain
  obtain ⟨slots, parents, hidx⟩ := hback.marked.indexed
  refine ⟨finalized, status, hchain.finalized_eq, hchain.status_eq, ?_, fun root hanc hlow ↦ ?_,
    fun env blks highest henv hhighest hroot hparents ↦
      hchain.fillBack_eq_ok henv hhighest hroot hparents⟩
  · rw [hchain.low_eq]
    exact hchain.ancestor hidx le_rfl
  · obtain ⟨k, hk, rfl⟩ := hback.exists_below hchain hanc hlow
    have hentry := hchain.linked.entry k hk
    refine ⟨by rw [isFinalizedBlock, hentry]; rfl, fun hne ↦ ?_⟩
    cases k with
    | zero => exact absurd rfl hne
    | succ k =>
      obtain ⟨child, hchild⟩ := Db.stored_iff.1 (hchain.linked.stored k (by omega))
      obtain ⟨hroot, -, hpar⟩ := hidx.hashes _ child hchild
      refine ⟨child, ?_, ?_, ?_⟩
      · rw [finalizedChildBlock, hentry]
        exact hchild
      · rw [hpar, hroot, tree.below_succ]
      · rw [hroot]
        exact hchain.ancestor hidx (by omega)

end Runs

/-- A block of phase 0 whose parent has the root before its own. -/
def phase0Block (root : Root) (slot : Slot) : SignedBeaconBlock where
  root := root
  slot := slot
  parentRoot := root - 1
  version := .phase0
  isBlinded := false

/-- An origin in the second slot of epoch 1. -/
def originBlock : SignedBeaconBlock := phase0Block 40 33

def originEnvironment : OriginEnvironment :=
  ⟨none, noFault, saveFault none, none, none, none, none, none⟩

/-- The state after the save of the origin. -/
def originUpdater : StatusUpdater ℕ :=
  (newUpdater (saveOrigin mainnetConfig numberCodec false (Store.open Db.empty) originEnvironment
    twoValidators originBlock).2 none).2

def backfillEnvironment : BackfillEnvironment := ⟨fun _ ↦ none, noFault, none, none⟩

/-- The parent of the origin is backfilled, and a child of the origin is saved. -/
def backfilledUpdater : StatusUpdater ℕ :=
  [.fillBack backfillEnvironment [phase0Block 39 32],
    .blocks (.saveBlock noFault (phase0Block 41 64))].foldl
    (BackfillCall.serve mainnetConfig) originUpdater

theorem ancestor_backfilledUpdater :
    backfilledUpdater.store.db.Ancestor 41 40 ∧ backfilledUpdater.store.db.Ancestor 40 39 :=
  ⟨.single ⟨phase0Block 41 64, by decide +kernel, by decide⟩,
    .single ⟨originBlock, by decide +kernel, by decide⟩⟩

/-- The first finalization after the origin removes the backfilled parent of the origin from the
index, and the next backfill fails. -/
theorem backfilled_block_lost :
    ∃ (store : Store ℕ) (updater : StatusUpdater ℕ),
      saveOrigin mainnetConfig numberCodec false (Store.open Db.empty) originEnvironment
        twoValidators originBlock = (.ok (), store) ∧
      (newUpdater store none).2 = originUpdater ∧
      Descends backfilledUpdater.store.db ⟨2, 41⟩ ∧
      (saveFinalizedCheckpoint mainnetConfig backfilledUpdater.store none ⟨2, 41⟩).1 = .ok () ∧
      BackfillCall.serve mainnetConfig backfilledUpdater
        (.saveFinalizedCheckpoint none ⟨2, 41⟩) = updater ∧
      updater.bs.map (·.lowRoot) = some 39 ∧ updater.store.db.Ancestor 41 39 ∧
      isFinalizedBlock updater.store.db 39 = false ∧
      (fillBack updater backfillEnvironment [phase0Block 38 31]).1 =
        .error (.error (.wrapf errFinalizedChildNotFound
          ("failed to update finalized index for batch, connecting root %#x to " ++
            "previously finalized block %#x") [.bytes (some 38), .bytes (some 39)])) := by
  refine ⟨_, _, Prod.ext (by decide +kernel) rfl, rfl, ⟨by decide +kernel, ?_⟩,
    by decide +kernel, rfl, by decide +kernel, ?_, by decide +kernel, by decide +kernel⟩
  · intro finalized hfin
    have hsome : backfilledUpdater.store.db.finalizedCheckpoint = some ⟨1, 40⟩ := by
      decide +kernel
    obtain rfl := Option.some.inj (hsome.symm.trans hfin)
    exact ⟨ancestor_backfilledUpdater.1, by decide⟩
  · exact Relation.ReflTransGen.head (b := 40) ⟨phase0Block 41 64, by decide +kernel, by decide⟩
      (.single ⟨originBlock, by decide +kernel, by decide⟩)

/-- The blocks with the roots 38 to 41. -/
def originHeaders : Headers where
  slot root := if root = 41 then 64 else root.val - 7
  parentRoot root := root - 1

def originTree : BlockTree where
  toHeaders := originHeaders
  known root := root ∈ [38, 39, 40, 41]
  slot_lt root hknown hparent := by
    simp only [List.mem_cons, List.not_mem_nil, or_false] at hknown
    revert hparent
    rcases hknown with rfl | rfl | rfl | rfl <;> decide +kernel

instance (root : Root) : Decidable (originTree.known root) :=
  inferInstanceAs (Decidable (root ∈ ([38, 39, 40, 41] : List Root)))

theorem unfinalized_empty (tree : BlockTree) : Unfinalized tree (Store.open (Db.empty : Db ℕ)) where
  indexed := ⟨_, _, indexed_empty tree none none⟩
  cache := nofun
  known _ hstored := by cases hstored
  index := rfl
  finalized := rfl
  previous := rfl

/-- The child of the origin is finalized before the parent is backfilled. -/
def finalizeFirst : List BackfillCall :=
  [.blocks (.saveBlock noFault (phase0Block 41 64)), .saveFinalizedCheckpoint none ⟨2, 41⟩,
    .fillBack backfillEnvironment [phase0Block 39 32]]

theorem finalized_chain_linked_finalizeFirst :
    ∃ (store : Store ℕ) (calls : List BackfillCall) (updater : StatusUpdater ℕ),
      saveOrigin mainnetConfig numberCodec false (Store.open Db.empty) originEnvironment
        twoValidators originBlock = (.ok (), store) ∧
      Run (CallStep (fun updater call ↦ (call, call.serve mainnetConfig updater))
        (BackfillAllowed mainnetConfig originTree)) (newUpdater store none).2 calls updater ∧
      updater.store.db.finalizedCheckpoint = some ⟨2, 41⟩ ∧
      updater.bs.map (·.lowRoot) = some 39 ∧ updater.store.db.Ancestor 41 39 ∧
      isFinalizedBlock updater.store.db 40 = true ∧
      (∃ child, finalizedChildBlock updater.store.db 40 = some child ∧ child.parentRoot = 40 ∧
        updater.store.db.Ancestor 41 child.root) ∧
      ∃ status, (fillBack updater backfillEnvironment [phase0Block 38 31]).1 = .ok status := by
  let first := BackfillCall.serve mainnetConfig originUpdater
    (.blocks (.saveBlock noFault (phase0Block 41 64)))
  have hfin : first.store.db.finalizedCheckpoint = some ⟨1, 40⟩ := by decide +kernel
  have hstatus : first.bs = some (originStatus 40 originBlock) := by decide +kernel
  have hdesc : Descends first.store.db ⟨2, 41⟩ := by
    refine ⟨by decide +kernel, fun finalized hother ↦ ?_⟩
    obtain rfl := Option.some.inj (hfin.symm.trans hother)
    exact ⟨.single ⟨phase0Block 41 64, by decide +kernel, by decide⟩, by decide⟩
  have hrestores : RestoresChain mainnetConfig originTree first ⟨2, 41⟩ := by
    intro finalized status hother hbs
    obtain rfl := Option.some.inj (hfin.symm.trans hother)
    obtain rfl := Option.some.inj (hstatus.symm.trans hbs)
    exact ⟨by decide +kernel, .inl rfl⟩
  have hsaved : saveOrigin mainnetConfig numberCodec false (Store.open Db.empty) originEnvironment
      twoValidators originBlock = (.ok (), (saveOrigin mainnetConfig numberCodec false
        (Store.open Db.empty) originEnvironment twoValidators originBlock).2) :=
    Prod.ext (by decide +kernel) rfl
  have hpar : ∀ blk ∈ [phase0Block 39 32],
      originTree.Hashes blk ∧ originTree.known blk.root := by decide +kernel
  have run := run_execute (fun updater call ↦ (call, BackfillCall.serve mainnetConfig updater call))
    (BackfillAllowed mainnetConfig originTree) originUpdater finalizeFirst
    ⟨⟨by decide +kernel, by decide +kernel⟩, ⟨hdesc, hrestores⟩, hpar, trivial⟩
  obtain ⟨finalized, status, hfinal, hbs, hanc, hindexed, hconnects⟩ :=
    finalized_chain_linked (by decide) (unfinalized_empty originTree) (by decide +kernel)
      (by decide +kernel) nofun hsaved run
  obtain rfl : ⟨2, 41⟩ = finalized := Option.some.inj (.trans (by decide +kernel) hfinal)
  obtain rfl : ⟨32, 39, 38, 40, 33⟩ = status := Option.some.inj (.trans (by decide +kernel) hbs)
  obtain ⟨hfinalized, hchild⟩ := hindexed 40
    (.single ⟨phase0Block 41 64, by decide +kernel, by decide⟩)
    (.single ⟨originBlock, by decide +kernel, by decide⟩)
  exact ⟨_, _, _, hsaved, run, hfinal, by rw [hbs]; rfl, hanc, hfinalized, hchild (by decide),
    hconnects backfillEnvironment [phase0Block 38 31] _ ⟨fun _ ↦ rfl, rfl, rfl, rfl⟩ rfl rfl rfl⟩

end Prysm.Kv
