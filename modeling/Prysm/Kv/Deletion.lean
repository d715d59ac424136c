import Prysm.Kv.StateMap

/-!
# Deleting blocks

`DeleteBlock` takes a block out of both indices.  `DeleteHistoricalDataBeforeSlot` takes a batch of
blocks from the cutoff slot downwards and deletes them one after the other, with the key of the
block itself in the parent index, and then the keys of their slots in the slot index.  It leaves the
block listed under its parent, whose key is only deleted together with the parent, and when the
context is cancelled between the deletions it commits them without the slot index.
-/

namespace Prysm.Kv

open List Function Prysm.Library Bucket

variable {Validator Body : Type} {root : Root} {blk : SignedBeaconBlock} {cutoffSlot : Slot}

section Model

variable (codec : StateCodec Validator Body) (enabled : Bool)

/-- Go's `%v` for a byte string. -/
def formatBytes (bytes : Bytes) : String :=
  "[" ++ " ".intercalate (bytes.map toString) ++ "]"

/-- The loop of `slotRootsInRange` over the keys that the cursor visits. -/
def collectSlotRoots (start stop : Slot) (batchSize : ℤ) :
    List (Slot × Bytes) → List (Slot × Root) → Except Fault (List (Slot × Root))
  | [], pairs => .ok pairs
  | (slot, value) :: entries, pairs =>
    if stop < slot then collectSlotRoots start stop batchSize entries pairs
    else if slot < start then .ok pairs
    else do
      let roots ← wrapf (splitRoots value) "corrupt value %v in block slot index for slot=%d"
        [.text (formatBytes value), .number slot]
      let pairs := pairs ++ roots.map fun root ↦ (slot, root)
      if batchSize < 0 then collectSlotRoots start stop batchSize entries pairs
      else if batchSize ≤ pairs.length then .ok pairs
      else collectSlotRoots start stop batchSize entries pairs

variable (db : Db Validator)

def slotRootsInRange (start stop : Slot) (batchSize : ℤ) : Except Fault (List (Slot × Root)) :=
  if stop < start then .error (.error errInvalidSlotRange)
  else collectSlotRoots start stop batchSize (db.blockSlotIndices.backFrom stop) []

/-- The private `deleteBlock`: the block, and its own key in the parent index. -/
def Db.deleteBlock (root : Root) : Db Validator :=
  { db with
    blocks := db.blocks.delete root
    blockParentRootIndices := db.blockParentRootIndices.delete root }

/-- The faults of the three transactions of `DeleteBlock`. -/
structure DeleteEnvironment where
  state : Option TxFault
  summary : Option Error
  block : Option Error

variable (store : Store Validator)

/-- `deleteStateSummary`.  The cache entry goes first. -/
def deleteStateSummary (fault : Option Error) (blockRoot : Root) :
    Except Fault Unit × Store Validator :=
  let store := { store with
    stateSummaryCache := store.stateSummaryCache.delete blockRoot }
  store.update (.ok { store.db with stateSummaries := store.db.stateSummaries.delete blockRoot })
    fault

/-- The transaction of `DeleteBlock` that deletes the block: the database, and whether the block
leaves the cache. -/
def deleteBlockTx (root : Root) : Except Fault (Db Validator × Bool) :=
  if (store.db.finalizedBlockRootsIndex.get root).isSome then
    .error (.error errDeleteJustifiedAndFinalized)
  else match getBlock store root with
    | .error _ => .ok (store.db, false)
    | .ok blk => do
      let slotBkt ← wrapf (deleteRootIndexEntry store.db.blockSlotIndices blk.slot root)
        "could not delete slot index entry" []
      let parentBkt ← wrapf
        (deleteRootIndexEntry store.db.blockParentRootIndices blk.parentRoot root)
        "could not delete parent root index entry" []
      .ok (Db.deleteBlock { store.db with
        blockSlotIndices := slotBkt
        blockParentRootIndices := parentBkt } root, true)

def deleteBlock (env : DeleteEnvironment) (root : Root) : Except Fault Unit × Store Validator :=
  match deleteState codec enabled store env.state root with
  | (.error err, store) => (.error err, store)
  | (.ok _, store) =>
    match deleteStateSummary store env.summary root with
    | (.error err, store) => (.error err, store)
    | (.ok _, store) =>
      match deleteBlockTx store root with
      | .error err => (.error err, store)
      | .ok (db, uncache) =>
        let store := if uncache then
          { store with blockCache := update store.blockCache root none } else store
        store.update (.ok db) env.block

/-- What `DeleteHistoricalDataBeforeSlot` deletes for a root. -/
def Db.deleteHistorical (root : Root) : Db Validator :=
  let db := db.deleteBlock root
  { db with
    finalizedBlockRootsIndex := db.finalizedBlockRootsIndex.delete root
    states := db.states.delete root
    stateSummaries := db.stateSummaries.delete root
    blockRootValidatorHashes :=
      if isStateValidatorMigrationOver enabled db then db.blockRootValidatorHashes.delete root
      else db.blockRootValidatorHashes }

/-- What the environment decides in a pruning: whether the transaction fails, where the deletions of
the slot indices come after those of the roots, and from which iteration on the context is
cancelled. -/
structure PruneEnvironment where
  fault : Option TxFault
  cancelAt : Option ℕ

/-- How the loop over the roots ends. -/
inductive PruneEnd
  | finished
  | cancelled
  | failed (err : Error)
deriving DecidableEq, Repr

def PruneEnvironment.cancelled (env : PruneEnvironment) (i : ℕ) : Bool :=
  match env.cancelAt with
  | some iteration => iteration ≤ i
  | none => false

/-- The loop over the roots, with the number of deletions. -/
def deleteRoots (env : PruneEnvironment) :
    ℕ → List (Slot × Root) → Db Validator → Db Validator × ℕ × PruneEnd
  | i, [], db => (db, i, .finished)
  | i, (_, root) :: slotRoots, db =>
    if env.cancelled i then (db, i, .cancelled)
    else match writeError env.fault i with
      | some err => (db, i, .failed err)
      | none => deleteRoots env (i + 1) slotRoots (db.deleteHistorical enabled root)

/-- The loop over the slots. -/
def Db.deleteSlots (slotRoots : List (Slot × Root)) : Db Validator :=
  { db with
    blockSlotIndices := slotRoots.foldl (fun bkt pair ↦ bkt.delete pair.1) db.blockSlotIndices
    stateSlotIndices := slotRoots.foldl (fun bkt pair ↦ bkt.delete pair.1) db.stateSlotIndices }

/-- The caches without the entries of the roots. -/
def Store.uncache (slotRoots : List (Slot × Root)) : Store Validator :=
  { store with
    blockCache := fun root ↦
      if root ∈ slotRoots.map (·.2) then none else store.blockCache root
    stateSummaryCache :=
      slotRoots.foldl (fun cache pair ↦ cache.delete pair.2) store.stateSummaryCache }

/-- What a call returns that counts its deletions, whose transaction gives a database. -/
def Store.commit (db : Db Validator) (count : ℕ) (err : Option Error) :
    (ℕ × Option Error) × Store Validator :=
  match err with
  | none => ((count, none), { store with db := db })
  | some err => ((count, some err), store)

/-- The transaction of `DeleteHistoricalDataBeforeSlot`. -/
def deleteBatch (env : PruneEnvironment) (slotRoots : List (Slot × Root)) :
    (ℕ × Option Error) × Store Validator :=
  match deleteRoots enabled env 0 slotRoots store.db with
  | (_, count, .failed err) => store.commit store.db count (some err)
  | (db, count, .cancelled) => store.commit db count (commitError env.fault)
  | (db, count, .finished) =>
    match (List.range slotRoots.length).findSome? fun i ↦
        writeError env.fault (slotRoots.length + i) with
    | some err => store.commit store.db count (some err)
    | none =>
      (store.uncache slotRoots).commit (db.deleteSlots slotRoots) count (commitError env.fault)

/-- `DeleteHistoricalDataBeforeSlot`, with the number of deleted slots that it returns. -/
def deleteHistoricalDataBeforeSlot (env : PruneEnvironment) (cutoffSlot : Slot) (batchSize : ℤ) :
    Except Fault (ℕ × Option Error) × Store Validator :=
  match slotRootsInRange store.db 0 cutoffSlot batchSize with
  | .error err => (.error err, store)
  | .ok [] => (.ok (0, none), store)
  | .ok slotRoots => ((.ok (deleteBatch enabled store env slotRoots).1),
      (deleteBatch enabled store env slotRoots).2)

end Model

/-! ### The batch -/

/-- The number of stored blocks above a slot and up to the cutoff. -/
def Db.blocksAbove (db : Db Validator) (slot cutoffSlot : Slot) : ℕ :=
  (db.blocks.entries.filter fun entry ↦ slot < entry.2.slot ∧ entry.2.slot ≤ cutoffSlot).length

/-- The block is one of the highest blocks up to the cutoff: it is stored, and less than a batch of
blocks is above it.  All blocks of the highest slot are in the batch. -/
def Db.InBatch (db : Db Validator) (cutoffSlot : Slot) (batchSize : ℤ) (blk : SignedBeaconBlock) :
    Prop :=
  db.blocks.get blk.root = some blk ∧ blk.slot ≤ cutoffSlot ∧
    (batchSize < 0 ∨ (db.blocksAbove blk.slot cutoffSlot : ℤ) < max batchSize 1)

instance (db : Db Validator) (cutoffSlot : Slot) (batchSize : ℤ) (blk : SignedBeaconBlock) :
    Decidable (db.InBatch cutoffSlot batchSize blk) :=
  inferInstanceAs (Decidable (_ ∧ _))

section Batch

variable {headers : Headers} {db : Db Validator} {slots : Slot → List Root}
  {parents : Root → List Root} {stop : Slot} {batchSize : ℤ}

/-- The slots and roots that entries of the slot index list. -/
def listedPairs (slots : Slot → List Root) (entries : List (Slot × Bytes)) : List (Slot × Root) :=
  entries.flatMap fun entry ↦ (slots entry.1).map fun root ↦ (entry.1, root)

theorem mem_listedPairs {entries : List (Slot × Bytes)} {pair : Slot × Root} :
    pair ∈ listedPairs slots entries ↔ pair.1 ∈ entries.map (·.1) ∧ pair.2 ∈ slots pair.1 := by
  simp only [listedPairs, mem_flatMap, mem_map]
  constructor
  · rintro ⟨entry, hentry, root, hroot, rfl⟩
    exact ⟨⟨entry, hentry, rfl⟩, hroot⟩
  · rintro ⟨⟨entry, hentry, heq⟩, hroot⟩
    exact ⟨entry, hentry, pair.2, heq ▸ hroot, by rw [heq]⟩

/-- The pairs that the loop collects: those with less than a batch of pairs above them. -/
def collected (batchSize : ℤ) (pairs : List (Slot × Root)) (count : ℕ) : List (Slot × Root) :=
  pairs.filter fun pair ↦ batchSize < 0 ∨
    ((count + pairs.countP (pair.1 < ·.1) : ℕ) : ℤ) < max batchSize 1

variable {entries : List (Slot × Bytes)} {start : Slot}

theorem collectSlotRoots_eq (start stop : Slot) (batchSize : ℤ) (pairs : List (Slot × Root))
    (hsorted : entries.Pairwise fun left right ↦ right.1 < left.1)
    (hvalues : ∀ entry ∈ entries, slots entry.1 ≠ [] ∧ entry.2 = packRoots (slots entry.1))
    (hbatch : batchSize < 0 ∨ (pairs.length : ℤ) < max batchSize 1) :
    collectSlotRoots start stop batchSize entries pairs =
      .ok (pairs ++ collected batchSize (listedPairs slots
        (entries.filter fun entry ↦ start ≤ entry.1 ∧ entry.1 ≤ stop)) pairs.length) := by
  induction entries generalizing pairs with
  | nil => simp [collectSlotRoots, collected, listedPairs]
  | cons entry entries ih =>
    obtain ⟨key, value⟩ := entry
    obtain ⟨hbelow, hsorted⟩ := pairwise_cons.1 hsorted
    obtain ⟨hne, hvalue⟩ : slots key ≠ [] ∧ value = packRoots (slots key) :=
      hvalues (key, value) mem_cons_self
    have hrest (other : Slot × Bytes) (hother : other ∈ entries) :=
      hvalues other (mem_cons_of_mem _ hother)
    rw [collectSlotRoots]
    by_cases hskip : stop < key
    · rw [if_pos hskip, ih _ hsorted hrest hbatch, filter_cons_of_neg (by simp [hskip])]
    by_cases hlow : key < start
    · -- So are the keys below.
      have hnone : (((key, value) :: entries).filter fun entry ↦
          start ≤ entry.1 ∧ entry.1 ≤ stop) = [] := by
        refine filter_eq_nil_iff.2 fun entry hentry ↦ ?_
        have hlt : entry.1 < start := by
          rcases mem_cons.1 hentry with rfl | hmem
          · exact hlow
          · exact lt_trans (hbelow entry hmem) hlow
        simp [hlt]
      rw [if_neg hskip, if_pos hlow, hnone]
      simp [collected, listedPairs]
    have hroots : splitRoots value = .ok (slots key) := hvalue ▸ splitRoots_packRoots _
    have hpos : 0 < (slots key).length := length_pos_iff.2 hne
    rw [filter_cons_of_pos (by simp [not_lt.1 hskip, not_lt.1 hlow]), if_neg hskip, if_neg hlow,
      hroots, wrapf_ok, ok_bind, listedPairs, flatMap_cons, ← listedPairs]
    dsimp only
    set group := (slots key).map fun root ↦ (key, root) with hgroup
    set rest := listedPairs slots (entries.filter fun entry ↦ start ≤ entry.1 ∧ entry.1 ≤ stop)
    have hlen : group.length = (slots key).length := length_map ..
    have hless (pair : Slot × Root) (hpair : pair ∈ rest) : pair.1 < key := by
      obtain ⟨entry, hentry, heq⟩ := mem_map.1 (mem_listedPairs.1 hpair).1
      exact heq ▸ hbelow entry (mem_filter.1 hentry).1
    have hown : (group ++ rest).countP (key < ·.1) = 0 := countP_eq_zero.2 fun pair hpair ↦ by
      grind
    have habove (pair : Slot × Root) (hpair : pair ∈ rest) :
        (group ++ rest).countP (pair.1 < ·.1) = group.length + rest.countP (pair.1 < ·.1) := by
      rw [countP_append, countP_eq_length.2]
      grind
    rw [collected, filter_append, filter_eq_self.2 (by grind), ← append_assoc]
    by_cases hroom : batchSize < 0 ∨ ((pairs.length + group.length : ℕ) : ℤ) < max batchSize 1
    · -- The keys below count the roots of the key.
      have hnext := ih (pairs ++ group) hsorted hrest (by simpa using hroom)
      have hkept : collected batchSize rest (pairs ++ group).length = _ :=
        filter_congr fun other hother ↦ by
          rw [length_append, Nat.add_assoc, ← habove other hother]
      rw [hkept] at hnext
      split_ifs with hall hfull
      · exact hnext
      · rw [length_append] at hfull
        omega
      · exact hnext
    · obtain ⟨hall, hfull⟩ := not_or.1 hroom
      rw [if_neg hall, if_pos (by rw [length_append]; omega), filter_eq_nil_iff.2, append_nil]
      intro other hother
      have hcount := habove other hother
      simp only [decide_eq_true_eq, not_or]
      omega

section

variable (hidx : Indexed headers db slots parents)
include hidx

/-- The cursor lists the blocks of a range downwards, each once. -/
theorem Indexed.exists_listedPairs (hrange : start ≤ stop) :
    ∃ pairs, (∀ batchSize, Kv.slotRootsInRange db start stop batchSize =
        .ok (collected batchSize pairs 0)) ∧
      pairs.Pairwise (fun left right ↦ right.1 ≤ left.1) ∧ pairs.Nodup ∧
      ∀ slot root, (slot, root) ∈ pairs ↔
        db.Stored root ∧ headers.slot root = slot ∧ start ≤ slot ∧ slot ≤ stop := by
  have hsorted := sorted_backFrom db.blockSlotIndices stop
  refine ⟨listedPairs slots ((db.blockSlotIndices.backFrom stop).filter fun entry ↦
    start ≤ entry.1 ∧ entry.1 ≤ stop), fun batchSize ↦ ?_, pairwise_flatMap.2 ⟨fun entry _ ↦
      pairwise_map.2 (pairwise_of_forall fun _ _ ↦ le_rfl), (hsorted.filter _).imp ?_⟩,
    nodup_flatMap.2 ⟨fun entry _ ↦ ?_, (hsorted.filter _).imp ?_⟩, fun slot root ↦ ?_⟩
  · rw [Kv.slotRootsInRange, if_neg (not_lt.2 hrange), collectSlotRoots_eq start stop batchSize []
      hsorted (fun entry hentry ↦ hidx.slotIndex.of_get (mem_of_mem_backFrom hentry))
      (.inr (by simp)), nil_append]
    rfl
  · intro left right hlt pair hleft other hright
    obtain ⟨_, -, rfl⟩ := mem_map.1 hleft
    obtain ⟨_, -, rfl⟩ := mem_map.1 hright
    exact hlt.le
  · exact (hidx.slots_nodup entry.1).map fun _ _ heq ↦ (Prod.mk.inj heq).2
  · intro left right hlt pair hleft hright
    obtain ⟨_, -, rfl⟩ := mem_map.1 hleft
    obtain ⟨_, -, heq⟩ := mem_map.1 hright
    exact hlt.ne (Prod.mk.inj heq).1
  · rw [mem_listedPairs, hidx.mem_slots]
    constructor
    · rintro ⟨hslot, hroot, heq⟩
      obtain ⟨entry, hentry, rfl⟩ := mem_map.1 hslot
      exact ⟨hroot, heq, of_decide_eq_true (mem_filter.1 hentry).2⟩
    · rintro ⟨hroot, heq, hrange⟩
      have hget := hidx.slotIndex slot
      rw [if_neg (ne_nil_of_mem ((hidx.mem_slots slot root).2 ⟨hroot, heq⟩))] at hget
      exact ⟨mem_map.2 ⟨_, mem_filter.2 ⟨mem_backFrom hget hrange.2,
        decide_eq_true hrange⟩, rfl⟩, hroot, heq⟩

end

/-- The number of blocks in the batch. -/
def Db.batchCount (db : Db Validator) (cutoffSlot : Slot) (batchSize : ℤ) : ℕ :=
  (db.blocks.entries.filter fun entry ↦ db.InBatch cutoffSlot batchSize entry.2).length

theorem Indexed.mem_slotRoots (hidx : Indexed headers db slots parents)
    (p : SignedBeaconBlock → Prop) [DecidablePred p] {slot : Slot} {root : Root} :
    (slot, root) ∈ (db.blocks.entries.filter fun entry ↦ p entry.2).map
        (fun entry ↦ (entry.2.slot, entry.1)) ↔
      ∃ blk, (db.blocks.get blk.root = some blk ∧ p blk) ∧ blk.slot = slot ∧ blk.root = root := by
  rw [mem_map]
  constructor
  · rintro ⟨⟨key, blk⟩, hentry, heq⟩
    obtain ⟨hget, hp⟩ := mem_filter.1 hentry
    replace hget := (mem_entries_iff _ _ _).1 hget
    obtain ⟨rfl, -⟩ := hidx.hashes key blk hget
    exact ⟨blk, ⟨hget, of_decide_eq_true hp⟩, Prod.mk.inj heq⟩
  · rintro ⟨blk, ⟨hget, hp⟩, rfl, rfl⟩
    exact ⟨(blk.root, blk), mem_filter.2 ⟨(mem_entries_iff _ _ _).2 hget, decide_eq_true hp⟩, rfl⟩

theorem Indexed.slotRootsInRange (hidx : Indexed headers db slots parents) (cutoffSlot : Slot)
    (batchSize : ℤ) :
    ∃ pairs, Kv.slotRootsInRange db 0 cutoffSlot batchSize = .ok pairs ∧
      pairs.length = db.batchCount cutoffSlot batchSize ∧ ∀ slot root, (slot, root) ∈ pairs ↔
        ∃ blk, db.InBatch cutoffSlot batchSize blk ∧ blk.slot = slot ∧ blk.root = root := by
  obtain ⟨pairs, hpairs, -, hnodup, hmem⟩ := hidx.exists_listedPairs (Nat.zero_le cutoffSlot)
  have hblocks := db.blocks.nodup_map_filter fun entry ↦ entry.2.slot ≤ cutoffSlot
  have hperm : pairs.Perm ((db.blocks.entries.filter fun entry ↦ entry.2.slot ≤ cutoffSlot).map
      fun entry ↦ (entry.2.slot, entry.1)) := by
    refine (perm_ext_iff_of_nodup hnodup (List.Nodup.of_map Prod.snd (by rwa [map_map]))).2
      fun ⟨slot, root⟩ ↦ ?_
    rw [hmem, ← and_assoc, ← hidx.mem_slots, hidx.mem_slots_iff,
      hidx.mem_slotRoots (·.slot ≤ cutoffSlot)]
    grind
  have hbatch : (collected batchSize pairs 0).Perm ((db.blocks.entries.filter fun entry ↦
      db.InBatch cutoffSlot batchSize entry.2).map fun entry ↦ (entry.2.slot, entry.1)) := by
    refine (hperm.filter _).trans (.of_eq ?_)
    rw [filter_map, filter_filter]
    refine congrArg _ (filter_congr fun entry hentry ↦ ?_)
    have hget := (mem_entries_iff _ _ _).1 hentry
    have hblk : db.blocks.get entry.2.root = some entry.2 := (hidx.hashes _ _ hget).1 ▸ hget
    have hcount : pairs.countP (entry.2.slot < ·.1) = db.blocksAbove entry.2.slot cutoffSlot := by
      rw [hperm.countP_eq, countP_map, countP_filter, Db.blocksAbove, countP_eq_length_filter]
      simp
    simp [Db.InBatch, hblk, hcount, Bool.and_comm]
  refine ⟨_, hpairs batchSize, by rw [hbatch.length_eq, length_map, Db.batchCount],
    fun slot root ↦ ?_⟩
  rw [hbatch.mem_iff, hidx.mem_slotRoots (db.InBatch cutoffSlot batchSize)]
  simp only [Db.InBatch, ← and_assoc, and_self]

end Batch

section Removal

variable {headers : Headers} {db db' : Db Validator} {slots slots' : Slot → List Root}
  {parents parents' : Root → List Root}

/-- The invariant holds after blocks are removed, if they are removed from both indices. -/
theorem Indexed.remove (hidx : Indexed headers db slots parents) (removed : List Root)
    (hblocks : ∀ root, db'.blocks.get root = if root ∈ removed then none else db.blocks.get root)
    (hslotIndex : Packs db'.blockSlotIndices slots') (hslots_nodup : ∀ slot, (slots' slot).Nodup)
    (hslots : ∀ slot root, root ∈ slots' slot ↔ root ∈ slots slot ∧ root ∉ removed)
    (hparentIndex : Packs db'.blockParentRootIndices parents')
    (hparents_nodup : ∀ parentRoot, (parents' parentRoot).Nodup)
    (hparents : ∀ parentRoot root, root ∈ parents' parentRoot →
      root ∈ parents parentRoot ∧ root ∉ removed) : Indexed headers db' slots' parents' := by
  have hstored (root : Root) : db'.Stored root ↔ db.Stored root ∧ root ∉ removed := by
    unfold Db.Stored
    grind
  refine ⟨fun root blk hget ↦ ?_, hslotIndex, hslots_nodup, fun slot root ↦ ?_, hparentIndex,
    hparents_nodup, fun parentRoot root hroot ↦ ?_⟩
  · rw [hblocks] at hget
    split_ifs at hget
    exact hidx.hashes root blk hget
  · rw [hslots, hidx.mem_slots, hstored, and_right_comm]
  · obtain ⟨hold, hnot⟩ := hparents parentRoot root hroot
    obtain ⟨hblock, hpar⟩ := hidx.of_mem_parents parentRoot root hold
    grind

/-- The cache holds blocks under their roots. -/
def CacheHashes (headers : Headers) (store : Store Validator) : Prop :=
  ∀ root blk, store.blockCache root = some blk → blk.root = root ∧ headers.Hashes blk

/-- A block that is taken out of the keys of its slot and of its parent can be deleted. -/
theorem Indexed.deleteBlock (hidx : Indexed headers db slots parents)
    (hhashes : headers.Hashes blk) {slotBkt : Bucket Slot Bytes} {parentBkt : Bucket Root Bytes}
    (hslot : Packs slotBkt (update slots blk.slot ((slots blk.slot).erase blk.root)))
    (hpar : Packs parentBkt
      (update parents blk.parentRoot ((parents blk.parentRoot).erase blk.root))) :
    ∃ slots' parents', Indexed headers (Db.deleteBlock { db with
      blockSlotIndices := slotBkt
      blockParentRootIndices := parentBkt } blk.root) slots' parents' := by
  refine ⟨_, _, hidx.remove [blk.root] (fun root ↦ ?_) hslot (fun slot ↦ ?_)
    (fun slot root ↦ ?_) (hpar.delete blk.root) (fun parentRoot ↦ ?_)
    fun parentRoot root hroot ↦ ?_⟩
  · rw [Db.deleteBlock, get_delete]
    simp only [mem_singleton, eq_comm]
  · rw [update_apply]
    split_ifs
    · exact (hidx.slots_nodup _).erase _
    · exact hidx.slots_nodup slot
  · rw [update_apply, mem_singleton]
    split_ifs with hkey
    · rw [hkey, (hidx.slots_nodup _).mem_erase_iff, and_comm]
    · refine ⟨fun hroot ↦ ⟨hroot, ?_⟩, And.left⟩
      rintro rfl
      exact hkey (((hidx.mem_slots _ _).1 hroot).2.symm.trans hhashes.1.symm)
  · rw [update_apply, update_apply]
    split_ifs
    · exact nodup_nil
    · exact (hidx.parents_nodup _).erase _
    · exact hidx.parents_nodup parentRoot
  · rw [update_apply, update_apply] at hroot
    rw [mem_singleton]
    split_ifs at hroot with hself hkey
    · cases hroot
    · rw [hkey]
      exact ((hidx.parents_nodup _).mem_erase_iff.1 hroot).symm
    · refine ⟨hroot, ?_⟩
      rintro rfl
      exact hkey ((hidx.of_mem_parents _ _ hroot).2.symm.trans hhashes.2.symm)

end Removal

/-! ### Deleting a block -/

variable {db : Db Validator}

section DeleteBlock

variable {codec : StateCodec Validator Body} {enabled : Bool} {headers : Headers}
  {store store' : Store Validator}

/-- The invariant of the runs. -/
structure Agrees (headers : Headers) (store : Store Validator) : Prop where
  indexed : ∃ slots parents, Indexed headers store.db slots parents
  cache : CacheHashes headers store

/-- The blocks, their indices and their cache are the same. -/
structure Store.SameBlocks (store store' : Store Validator) : Prop where
  finalized : store'.db.finalizedBlockRootsIndex = store.db.finalizedBlockRootsIndex
  blocks : store'.db.blocks = store.db.blocks
  slots : store'.db.blockSlotIndices = store.db.blockSlotIndices
  parents : store'.db.blockParentRootIndices = store.db.blockParentRootIndices
  cache : store'.blockCache = store.blockCache

theorem Agrees.congr (hagrees : Agrees headers store) (hsame : store.SameBlocks store') :
    Agrees headers store' := by
  obtain ⟨slots, parents, hidx⟩ := hagrees.indexed
  refine ⟨⟨slots, parents, hidx.congr hsame.blocks hsame.slots hsame.parents⟩, ?_⟩
  rw [CacheHashes, hsame.cache]
  exact hagrees.cache

theorem sameBlocks_deleteState (codec : StateCodec Validator Body) (enabled : Bool)
    (store : Store Validator) (fault : Option TxFault) (root : Root) :
    store.SameBlocks (deleteState codec enabled store fault root).2 := by
  unfold deleteState
  dsimp only
  split
  · exact ⟨rfl, rfl, rfl, rfl, rfl⟩
  · next herr =>
    rcases db_deleteStateTx herr with ⟨-, hdb⟩ | ⟨slotBkt, hdb⟩
    · exact hdb ▸ ⟨rfl, rfl, rfl, rfl, rfl⟩
    · exact hdb ▸ ⟨rfl, rfl, rfl, rfl, rfl⟩

theorem Store.SameBlocks.deleteStateSummary (hsame : store.SameBlocks store')
    (fault : Option Error) (root : Root) :
    store.SameBlocks (Kv.deleteStateSummary store' fault root).2 := by
  cases fault <;>
    exact ⟨hsame.finalized, hsame.blocks, hsame.slots, hsame.parents, hsame.cache⟩

theorem getBlock_eq_ok (hget : getBlock store root = .ok blk) :
    store.blockCache root = some blk ∨ store.db.blocks.get root = some blk := by
  unfold getBlock at hget
  grind

section

variable (hagrees : Agrees headers store)
include hagrees

theorem Agrees.hashes_of_getBlock (hget : getBlock store root = .ok blk) :
    blk.root = root ∧ headers.Hashes blk := by
  rcases getBlock_eq_ok hget with hcached | hstored
  · exact hagrees.cache root blk hcached
  · obtain ⟨slots, parents, hidx⟩ := hagrees.indexed
    exact hidx.hashes root blk hstored

/-- The transaction that deletes the block refuses only roots of the finalized index. -/
theorem Agrees.deleteBlockTx (hnot : (store.db.finalizedBlockRootsIndex.get root).isSome = false) :
    ∃ db uncache, Kv.deleteBlockTx store root = .ok (db, uncache) ∧
      ∃ slots parents, Indexed headers db slots parents := by
  obtain ⟨slots, parents, hidx⟩ := hagrees.indexed
  unfold Kv.deleteBlockTx
  rw [hnot, if_neg Bool.false_ne_true]
  cases hblk : getBlock store root with
  | error err => exact ⟨_, _, rfl, slots, parents, hidx⟩
  | ok blk =>
    obtain ⟨rfl, hhashes⟩ := hagrees.hashes_of_getBlock hblk
    obtain ⟨slotBkt, hslotBkt, hslot⟩ := hidx.slotIndex.deleteRootIndexEntry blk.slot blk.root
    obtain ⟨parentBkt, hparentBkt, hpar⟩ :=
      hidx.parentIndex.deleteRootIndexEntry blk.parentRoot blk.root
    dsimp only
    rw [hslotBkt, wrapf_ok, ok_bind, hparentBkt, wrapf_ok, ok_bind]
    exact ⟨_, _, rfl, hidx.deleteBlock hhashes hslot hpar⟩

theorem Agrees.uncache {blockCache : Root → Option SignedBeaconBlock}
    (hcache : ∀ root, blockCache root = none ∨ blockCache root = store.blockCache root) :
    Agrees headers { store with blockCache := blockCache } := by
  refine ⟨hagrees.indexed, fun root blk hblk ↦ ?_⟩
  rcases hcache root with hnone | hsame
  · grind
  · exact hagrees.cache root blk (hsame.symm.trans hblk)

/-- A transaction whose database has the invariant keeps it. -/
theorem Agrees.update (hidx : ∃ slots parents, Indexed headers db slots parents)
    (fault : Option Error) : Agrees headers (store.update (.ok db) fault).2 := by
  cases fault with
  | some err => exact hagrees
  | none => exact ⟨hidx, hagrees.cache⟩

theorem Agrees.deleteBlock (env : DeleteEnvironment) (root : Root) :
    Agrees headers (Kv.deleteBlock codec enabled store env root).2 := by
  unfold Kv.deleteBlock
  have hst := sameBlocks_deleteState codec enabled store env.state root
  cases hdelete : deleteState codec enabled store env.state root with
  | mk returned store =>
    rw [hdelete] at hst
    cases returned with
    | error err => exact hagrees.congr hst
    | ok _ =>
      have hsum := hagrees.congr (hst.deleteStateSummary env.summary root)
      dsimp only at hsum ⊢
      cases hdelete : deleteStateSummary store env.summary root with
      | mk returned store =>
        rw [hdelete] at hsum
        cases returned with
        | error err => exact hsum
        | ok _ =>
          dsimp only at hsum ⊢
          cases hfinal : (store.db.finalizedBlockRootsIndex.get root).isSome with
          | true =>
            rw [Kv.deleteBlockTx, hfinal, if_pos rfl]
            exact hsum
          | false =>
            obtain ⟨db, uncache, htx, hidx⟩ := hsum.deleteBlockTx hfinal
            rw [htx]
            dsimp only
            split_ifs
            · refine (hsum.uncache fun other ↦ ?_).update hidx _
              grind
            · exact hsum.update hidx _

end

/-- `DeleteState` refuses the root: it is the root of genesis or of a checkpoint, or it has a state
whose slot cannot be read or whose validator hashes are missing. -/
def Db.Guarded (codec : StateCodec Validator Body) (enabled : Bool) (db : Db Validator)
    (root : Root) : Prop :=
  some root = (db.finalizedCheckpoint.map (·.root)).or db.genesisBlockRoot ∨
    some root = db.genesisBlockRoot ∨
    some root = (db.justifiedCheckpoint.map (·.root)).or db.genesisBlockRoot ∨
    (db.states.get root).isSome ∧ ((∀ slot, slotByBlockRoot codec enabled db root ≠ .ok slot) ∨
      isStateValidatorMigrationOver enabled db ∧ db.blockRootValidatorHashes.get root = none)

/-- `DeleteState` fails before it changes anything, unless a write fails. -/
theorem deleteStateTx_none (codec : StateCodec Validator Body) (enabled : Bool)
    (store : Store Validator) (root : Root) :
    ((deleteStateTx codec enabled store none root).err ≠ none ↔
        store.db.Guarded codec enabled root) ∧
      ((deleteStateTx codec enabled store none root).err ≠ none ∨ store.db.states.get root = none →
        (deleteStateTx codec enabled store none root).cache = store.validatorEntryCache) ∧
      (store.db.states.get root = none →
        (deleteStateTx codec enabled store none root).db = store.db) := by
  have hover (slotBkt : Bucket Slot Bytes) : isStateValidatorMigrationOver enabled
      { store.db with stateSlotIndices := slotBkt } =
        isStateValidatorMigrationOver enabled store.db := rfl
  unfold deleteStateTx Db.Guarded
  dsimp only
  split_ifs with hroot
  · exact ⟨iff_of_true nofun (by tauto), fun _ ↦ rfl, fun _ ↦ rfl⟩
  · cases hst : store.db.states.get root with
    | none => simp [hroot, commitError]
    | some enc =>
      cases hslot : slotByBlockRoot codec enabled store.db root with
      | error err => simp
      | ok slot =>
        simp only [hover, writeError]
        split_ifs with hmigrated
        · cases hhashes : store.db.blockRootValidatorHashes.get root <;>
            simp [removeState, writeError, commitError, hmigrated, hroot]
        · simp [removeState, writeError, commitError, hmigrated, hroot]

/-- The last transaction of `DeleteBlock` refuses the root: it is in the finalized index, or it has
a block, and a value of the slot or parent index for it cannot be read. -/
def Store.RefusesBlock (store : Store Validator) (root : Root) : Prop :=
  (store.db.finalizedBlockRootsIndex.get root).isSome ∨ ∃ blk, getBlock store root = .ok blk ∧
    ((∀ bkt, deleteRootIndexEntry store.db.blockSlotIndices blk.slot root ≠ .ok bkt) ∨
      ∀ bkt, deleteRootIndexEntry store.db.blockParentRootIndices blk.parentRoot root ≠ .ok bkt)

theorem Store.SameBlocks.refusesBlock_iff (hsame : store.SameBlocks store') :
    store.RefusesBlock root ↔ ∀ result, deleteBlockTx store' root ≠ .ok result := by
  have hget : getBlock store' root = getBlock store root := by
    rw [getBlock, getBlock, hsame.cache, hsame.blocks]
  unfold RefusesBlock deleteBlockTx
  rw [hsame.finalized, hget, hsame.slots, hsame.parents]
  split_ifs with hfinal
  · simp [hfinal]
  · cases getBlock store root with
    | error err => simp [hfinal]
    | ok blk =>
      simp only [ne_eq, bind_eq_ok_iff, wrapf_eq_ok_iff]
      grind

/-- A deletion of a block that is refused changes nothing, if and only if the roots that the last
transaction refuses are refused by `DeleteState` or have neither a state nor a summary. -/
theorem deleteBlock_refused (codec : StateCodec Validator Body) (enabled : Bool)
    (store : Store Validator) (root : Root) :
    (∀ err store', deleteBlock codec enabled store ⟨none, none, none⟩ root = (.error err, store') →
      store' = store) ↔
      (store.RefusesBlock root →
        store.db.Guarded codec enabled root ∨ store.db.states.get root = none ∧
          store.db.stateSummaries.get root = none ∧ store.stateSummaryCache.get root = none) := by
  have hst := sameBlocks_deleteState codec enabled store none root
  obtain ⟨hguarded, hcache, hkept⟩ := deleteStateTx_none codec enabled store root
  unfold deleteBlock
  unfold deleteState at hst ⊢
  cases hfails : (deleteStateTx codec enabled store none root).err with
  | some fault =>
    have hsome : (deleteStateTx codec enabled store none root).err ≠ none := by simp [hfails]
    refine iff_of_true (fun err store' herr ↦ ?_) fun _ ↦ .inl (hguarded.1 hsome)
    simp only [hfails] at herr
    rw [← (Prod.mk.inj herr).2, hcache (.inl hsome)]
  | none =>
    have hnot : ¬ store.db.Guarded codec enabled root := fun h ↦ hguarded.2 h hfails
    simp only [hfails, hnot, false_or] at hst ⊢
    have hsum := hst.deleteStateSummary none root
    unfold deleteStateSummary at hsum ⊢
    simp only [Store.update] at hsum ⊢
    rw [hsum.refusesBlock_iff]
    cases htx : deleteBlockTx _ root with
    | ok result =>
      exact iff_of_true (fun err store' herr ↦ nomatch (Prod.mk.inj herr).1)
        fun h ↦ absurd rfl (h result)
    | error err =>
      refine ⟨fun hsame _ ↦ ?_, fun hnothing err store' herr ↦ ?_⟩
      · -- the state and the summary are gone, so that they were not there
        have heq := hsame _ _ rfl
        refine ⟨?_, ?_, ?_⟩
        · rcases db_deleteStateTx hfails with ⟨hstate, -⟩ | ⟨_, hdb⟩
          · exact hstate
          · rw [← heq, hdb]
            exact (get_delete _ _ _).trans (if_pos rfl)
        · rw [← heq]
          exact (get_delete _ _ _).trans (if_pos rfl)
        · rw [← heq]
          exact (get_delete _ _ _).trans (if_pos rfl)
      · obtain ⟨hstate, hsummary, hcached⟩ := hnothing nofun
        rw [← (Prod.mk.inj herr).2, hcache (.inr hstate), hkept hstate,
          Bucket.delete_eq_self hsummary, Bucket.delete_eq_self hcached]

end DeleteBlock

/-- A database with a state and a summary of root 5, which is in the finalized index, and with the
finalized checkpoint of epoch 3. -/
def finalizedStore (finalizedRoot : Root) : Store ℕ :=
  Store.open { Db.empty with
    finalizedCheckpoint := some ⟨3, finalizedRoot⟩
    finalizedBlockRootsIndex := empty.put 5 (.container 4 (some 9))
    states := empty.put 5 [1]
    stateSummaries := empty.put 5 ⟨8, 5⟩ }

/-- The root of the finalized checkpoint is refused at once. -/
theorem deleteBlock_refused_finalized :
    ((finalizedStore 5).db.finalizedBlockRootsIndex.get 5).isSome ∧
      ∃ store', deleteBlock numberCodec false (finalizedStore 5) ⟨none, none, none⟩ 5 =
        (.error (.error errDeleteJustifiedAndFinalized), store') ∧ store' = finalizedStore 5 := by
  exact ⟨by decide, _, rfl, (deleteBlock_refused _ _ _ _).2 (fun _ ↦ .inl (.inl rfl)) _ _ rfl⟩

/-- The state and the summary of an older finalized root are deleted before it is refused. -/
theorem deleteBlock_refused_after_state :
    ∃ store', (finalizedStore 9).db.states.get 5 = some [1] ∧
      ((finalizedStore 9).db.stateSummaries.get 5).isSome ∧
      deleteBlock numberCodec false (finalizedStore 9) ⟨none, none, none⟩ 5 =
        (.error (.error errDeleteJustifiedAndFinalized), store') ∧
      store'.db.states.get 5 = none ∧ store'.db.stateSummaries.get 5 = none :=
  ⟨_, by decide, by decide, rfl, by decide, by decide⟩

/-! ### Pruning -/

section

variable (env : PruneEnvironment) (count : ℕ)

/-- The number of writes before the commit, when a batch has `count` blocks. -/
def PruneEnvironment.writes : ℕ :=
  match env.cancelAt with
  | some iteration => if iteration < count then iteration else 2 * count
  | none => 2 * count

/-- The transaction fails, in one of its writes or at the commit. -/
def PruneEnvironment.RollsBack : Prop :=
  match env.fault with
  | some (.write entry _) => entry < env.writes count
  | some (.commit _) => True
  | none => False

/-- The context is cancelled between the deletions. -/
def PruneEnvironment.Interrupted : Prop :=
  match env.cancelAt with
  | some iteration => 0 < iteration ∧ iteration < count
  | none => False

end

/-- The parents of the blocks of the batch are in the batch too, where they list these blocks. -/
def Db.ParentsInBatch (db : Db Validator) (cutoffSlot : Slot) (batchSize : ℤ) : Prop :=
  ∀ blk, db.InBatch cutoffSlot batchSize blk → blk.root ∈ rootsOfParent db blk.parentRoot →
    ∃ parent, db.InBatch cutoffSlot batchSize parent ∧ parent.root = blk.parentRoot

instance (env : PruneEnvironment) (count : ℕ) : Decidable (env.RollsBack count) := by
  unfold PruneEnvironment.RollsBack
  split <;> infer_instance

instance (env : PruneEnvironment) (count : ℕ) : Decidable (env.Interrupted count) := by
  unfold PruneEnvironment.Interrupted
  split <;> infer_instance

variable {batchSize : ℤ}

/-- Every block of the batch is an entry of the bucket. -/
theorem Db.forall_inBatch_iff {p : SignedBeaconBlock → Prop} :
    (∀ entry ∈ db.blocks.entries, db.InBatch cutoffSlot batchSize entry.2 → p entry.2) ↔
      ∀ blk, db.InBatch cutoffSlot batchSize blk → p blk :=
  ⟨fun h blk hblk ↦ h (blk.root, blk) ((mem_entries_iff _ _ _).2 hblk.1) hblk,
    fun h entry _ ↦ h entry.2⟩

instance (db : Db Validator) (cutoffSlot : Slot) (batchSize : ℤ) :
    Decidable (db.ParentsInBatch cutoffSlot batchSize) :=
  decidable_of_iff (∀ entry ∈ db.blocks.entries, db.InBatch cutoffSlot batchSize entry.2 →
      entry.2.root ∈ rootsOfParent db entry.2.parentRoot →
      ∃ parent ∈ db.blocks.entries,
        db.InBatch cutoffSlot batchSize parent.2 ∧ parent.2.root = entry.2.parentRoot) <| by
    rw [Db.ParentsInBatch, ← Db.forall_inBatch_iff]
    refine forall₂_congr fun entry _ ↦ imp_congr_right fun _ ↦ imp_congr_right fun _ ↦ ?_
    exact ⟨fun ⟨parent, _, h⟩ ↦ ⟨parent.2, h⟩, fun ⟨parent, h⟩ ↦
      ⟨(parent.root, parent), (Bucket.mem_entries_iff _ _ _).2 h.1.1, h⟩⟩

section Prune

variable {enabled : Bool} {headers : Headers} {store : Store Validator} {env : PruneEnvironment}
  {db db' : Db Validator} {slotRoots : List (Slot × Root)}

theorem deleteRoots_eq {i count : ℕ} {result : PruneEnd}
    (hloop : deleteRoots enabled env i slotRoots db = (db', count, result)) :
    (∀ k, i ≤ k → k < count → env.cancelled k = false ∧ writeError env.fault k = none) ∧
      (result = .finished → count = i + slotRoots.length ∧
        db' = slotRoots.foldl (fun db pair ↦ db.deleteHistorical enabled pair.2) db) ∧
      (result = .cancelled → count < i + slotRoots.length ∧ env.cancelled count = true) := by
  induction slotRoots generalizing i db with
  | nil =>
    obtain ⟨rfl, hrest⟩ := Prod.mk.inj hloop
    obtain ⟨rfl, rfl⟩ := Prod.mk.inj hrest
    grind
  | cons pair slotRoots ih =>
    rw [deleteRoots] at hloop
    cases hcancel : env.cancelled i with
    | true =>
      grind
    | false =>
      rw [hcancel, if_neg Bool.false_ne_true] at hloop
      cases hwrite : writeError env.fault i with
      | some err =>
        grind
      | none =>
        rw [hwrite] at hloop
        obtain ⟨hbefore, hfinished, hstopped⟩ := ih hloop
        grind

theorem cancelled_eq_true {k : ℕ} :
    env.cancelled k = true ↔ ∃ iteration, env.cancelAt = some iteration ∧ iteration ≤ k := by
  unfold PruneEnvironment.cancelled
  cases env.cancelAt <;> simp

/-- The blocks and their indices after the loop over the roots. -/
theorem foldl_deleteHistorical (enabled : Bool) (slotRoots : List (Slot × Root))
    (db : Db Validator) :
    let last := slotRoots.foldl (fun db pair ↦ db.deleteHistorical enabled pair.2) db
    last.blocks = slotRoots.foldl (fun bkt pair ↦ bkt.delete pair.2) db.blocks ∧
      last.blockParentRootIndices =
        slotRoots.foldl (fun bkt pair ↦ bkt.delete pair.2) db.blockParentRootIndices ∧
      last.blockSlotIndices = db.blockSlotIndices := by
  induction slotRoots generalizing db with
  | nil => exact ⟨rfl, rfl, rfl⟩
  | cons pair slotRoots ih => exact ih _

theorem PruneEnvironment.writes_le (env : PruneEnvironment) (count : ℕ) :
    env.writes count ≤ 2 * count := by
  unfold PruneEnvironment.writes
  split
  · split_ifs <;> omega
  · exact le_rfl

/-- A call that changes the database meets no fault, and it deletes the whole batch unless it is
cancelled. -/
theorem db_deleteBatch (enabled : Bool) (store : Store Validator) (env : PruneEnvironment)
    (slotRoots : List (Slot × Root)) : (deleteBatch enabled store env slotRoots).2.db = store.db ∨
      ¬ env.RollsBack slotRoots.length ∧
        ((∃ iteration < slotRoots.length, env.cancelAt = some iteration) ∨
          (deleteBatch enabled store env slotRoots).2.db = (slotRoots.foldl (fun db pair ↦
            db.deleteHistorical enabled pair.2) store.db).deleteSlots slotRoots) := by
  have hback (hcommit : commitError env.fault = none)
      (hwrites : ∀ k < env.writes slotRoots.length, writeError env.fault k = none) :
      ¬ env.RollsBack slotRoots.length := by
    unfold PruneEnvironment.RollsBack
    cases hfault : env.fault with
    | none => exact id
    | some fault =>
      cases fault with
      | commit err => simp [hfault, commitError] at hcommit
      | write entry err => exact fun hlt ↦ by simpa [hfault, writeError] using hwrites entry hlt
  unfold deleteBatch
  cases hloop : deleteRoots enabled env 0 slotRoots store.db with
  | mk last rest =>
    obtain ⟨count, result⟩ := rest
    obtain ⟨hbefore, hfinished, hstopped⟩ := deleteRoots_eq hloop
    cases hcommit : commitError env.fault with
    | some err =>
      cases result <;> dsimp only
      · split <;> exact .inl rfl
      · exact .inl rfl
      · exact .inl rfl
    | none =>
      cases result with
      | failed err => exact .inl rfl
      | cancelled =>
        obtain ⟨hcount, hcancel⟩ := hstopped rfl
        obtain ⟨iteration, hat, hle⟩ := cancelled_eq_true.1 hcancel
        refine .inr ⟨hback hcommit fun k hk ↦ (hbefore k k.zero_le ?_).2,
          .inl ⟨iteration, by omega, hat⟩⟩
        simp only [PruneEnvironment.writes, hat] at hk
        rw [if_pos (by omega)] at hk
        omega
      | finished =>
        obtain ⟨rfl, rfl⟩ := hfinished rfl
        dsimp only
        split
        · exact .inl rfl
        · next hfind =>
          refine .inr ⟨hback hcommit fun k hk ↦ ?_, .inr rfl⟩
          rcases lt_or_ge k slotRoots.length with hlt | hge
          · exact (hbefore k k.zero_le (by omega)).2
          · have hle := env.writes_le slotRoots.length
            have hnone := findSome?_eq_none_iff.1 hfind (k - slotRoots.length)
              (mem_range.2 (by omega))
            rwa [Nat.add_sub_cancel' hge] at hnone

/-- A call that is cancelled at once leaves the database alone. -/
theorem db_deleteBatch_of_cancelled (hzero : env.cancelAt = some 0) (hne : slotRoots ≠ []) :
    (deleteBatch enabled store env slotRoots).2.db = store.db := by
  obtain ⟨pair, rest, rfl⟩ := exists_cons_of_ne_nil hne
  rw [deleteBatch, deleteRoots, if_pos (cancelled_eq_true.2 ⟨0, hzero, le_rfl⟩)]
  cases commitError env.fault <;> rfl

theorem Store.blockCache_commit (db : Db Validator) (count : ℕ) (err : Option Error) :
    (store.commit db count err).2.blockCache = store.blockCache := by
  cases err <;> rfl

/-- Pruning only removes entries of the cache. -/
theorem blockCache_deleteBatch (root : Root) :
    (deleteBatch enabled store env slotRoots).2.blockCache root = none ∨
      (deleteBatch enabled store env slotRoots).2.blockCache root = store.blockCache root := by
  unfold deleteBatch
  split
  · exact .inr rfl
  · exact .inr (congrFun (Store.blockCache_commit _ _ _) root)
  · split
    · exact .inr rfl
    · rw [Store.blockCache_commit, Store.uncache]
      grind

/-- The indices without the batch. -/
theorem Indexed.deleteSlots {slots : Slot → List Root} {parents : Root → List Root}
    (hidx : Indexed headers db slots parents) (hbatch : ∀ slot root, (slot, root) ∈ slotRoots ↔
      ∃ blk, db.InBatch cutoffSlot batchSize blk ∧ blk.slot = slot ∧ blk.root = root)
    (hparents : db.ParentsInBatch cutoffSlot batchSize) :
    ∃ slots' parents', Indexed headers
      ((slotRoots.foldl (fun db pair ↦ db.deleteHistorical enabled pair.2) db).deleteSlots
        slotRoots) slots' parents' := by
  obtain ⟨hblocks, hparentBkt, hslotBkt⟩ := foldl_deleteHistorical enabled slotRoots db
  have hroot {root : Root} : root ∈ slotRoots.map (·.2) ↔
      ∃ blk, db.InBatch cutoffSlot batchSize blk ∧ blk.root = root := by
    simp only [mem_map, Prod.exists, hbatch]
    grind
  have hslot {slot : Slot} : slot ∈ slotRoots.map (·.1) ↔
      ∃ blk, db.InBatch cutoffSlot batchSize blk ∧ blk.slot = slot := by
    simp only [mem_map, Prod.exists, hbatch]
    grind
  refine ⟨_, _, hidx.remove (slotRoots.map (·.2)) (fun root ↦ ?_)
    (hslotBkt ▸ hidx.slotIndex.foldl_delete slotRoots (·.1)) (fun slot ↦ ?_)
    (fun slot root ↦ ?_) (hparentBkt ▸ hidx.parentIndex.foldl_delete slotRoots (·.2))
    (fun parentRoot ↦ ?_) fun parentRoot root hmem ↦ ?_⟩
  · rw [Db.deleteSlots, hblocks, get_foldl_delete]
  · split_ifs
    · exact nodup_nil
    · exact hidx.slots_nodup slot
  · rw [hroot]
    split_ifs with hkey
    -- All blocks of a slot are in the batch together.
    · refine ⟨nofun, fun h ↦ absurd ?_ h.2⟩
      obtain ⟨other, ⟨-, hbound⟩, hother⟩ := hslot.1 hkey
      obtain ⟨blk, hblk, rfl, rfl⟩ := hidx.mem_slots_iff.1 h.1
      rw [hother] at hbound
      exact ⟨blk, ⟨hblk, hbound⟩, rfl⟩
    · refine ⟨fun h ↦ ⟨h, ?_⟩, And.left⟩
      rintro ⟨blk, hblk, rfl⟩
      obtain ⟨-, hhashes, -⟩ := hidx.hashes _ blk hblk.1
      obtain ⟨-, rfl⟩ := (hidx.mem_slots slot _).1 h
      exact hkey (hslot.2 ⟨blk, hblk, hhashes⟩)
  · split_ifs
    · exact nodup_nil
    · exact hidx.parents_nodup parentRoot
  · split_ifs at hmem with hkey
    · cases hmem
    · refine ⟨hmem, fun hdeleted ↦ hkey (hroot.2 ?_)⟩
      obtain ⟨blk, hblk, rfl⟩ := hroot.1 hdeleted
      obtain ⟨-, -, hpar⟩ := hidx.hashes _ blk hblk.1
      obtain ⟨-, rfl⟩ := hidx.of_mem_parents _ _ hmem
      rw [← hpar] at hmem ⊢
      exact hparents blk hblk (by rwa [hidx.rootsOfParent])

end Prune

/-- The calls of a run: saves of blocks, with evictions from their cache, and deletions. -/
inductive DeletionCall
  | blocks (call : BlockCall)
  | deleteBlock (env : DeleteEnvironment) (root : Root)
  | deleteHistoricalDataBeforeSlot (env : PruneEnvironment) (cutoffSlot : Slot) (batchSize : ℤ)

/-- The store after a call. -/
def DeletionCall.serve (codec : StateCodec Validator Body) (enabled : Bool)
    (store : Store Validator) : DeletionCall → Store Validator
  | blocks call => (call.serve store).2
  | deleteBlock env root => (Kv.deleteBlock codec enabled store env root).2
  | deleteHistoricalDataBeforeSlot env cutoffSlot batchSize =>
    (Kv.deleteHistoricalDataBeforeSlot enabled store env cutoffSlot batchSize).2

/-- The calls that keep the indices: blocks with their hashes as roots, and prunings that fail, are
cancelled before the first deletion, or delete a batch that contains its parents to the end. -/
def DeletionAllowed (headers : Headers) (store : Store Validator) : DeletionCall → Prop
  | .blocks call => ∀ blk ∈ call.blks, headers.Hashes blk
  | .deleteBlock _ _ => True
  | .deleteHistoricalDataBeforeSlot env cutoffSlot batchSize =>
    env.RollsBack (store.db.batchCount cutoffSlot batchSize) ∨ env.cancelAt = some 0 ∨
      ¬ env.Interrupted (store.db.batchCount cutoffSlot batchSize) ∧
        store.db.ParentsInBatch cutoffSlot batchSize

instance (headers : Headers) (store : Store Validator) (call : DeletionCall) :
    Decidable (DeletionAllowed headers store call) := by
  cases call <;> unfold DeletionAllowed <;> infer_instance

/-- No block is stored. -/
def Db.NoBlocks (db : Db Validator) : Prop :=
  db.blocks = .empty ∧ db.blockSlotIndices = .empty ∧ db.blockParentRootIndices = .empty

section Runs

variable {codec : StateCodec Validator Body} {enabled : Bool} {headers : Headers}
  {store : Store Validator}

theorem CacheHashes.saveROBlocks (hcache : CacheHashes headers store) (env : Environment)
    {blks : List SignedBeaconBlock} (hhashes : ∀ blk ∈ blks, headers.Hashes blk) (cache : Bool) :
    CacheHashes headers (Kv.saveROBlocks store env blks cache).2 := by
  cases cache with
  | false => exact hcache
  | true =>
    intro root blk hblk
    have hupd : ∀ blk ∈ (store.db.writeBatch env blks).updated, headers.Hashes blk := by
      refine writeBlocks_invariant (fun _ upd ↦ ∀ blk ∈ upd, headers.Hashes blk) _ _ (by simp) ?_
      intro block hblock _ upd hold _ other hother
      rcases mem_append.1 hother with hmem | hlast
      · exact hold other hmem
      · obtain ⟨blk, hblk, rfl⟩ := mem_map.1 hblock
        obtain rfl := mem_singleton.1 hlast
        exact hashes_prepare.2 (hhashes blk hblk)
    rcases mem_of_foldl_update hblk with ⟨hmem, hroot⟩ | hold
    · exact ⟨hroot, hupd blk hmem⟩
    · exact hcache root blk hold

section

variable (hagrees : Agrees headers store)
include hagrees

theorem Agrees.blocks {call : BlockCall}
    (hhashes : ∀ blk ∈ call.blks, headers.Hashes blk) : Agrees headers (call.serve store).2 := by
  obtain ⟨slots, parents, hidx⟩ := hagrees.indexed
  refine ⟨hidx.serve hhashes, ?_⟩
  cases call with
  | saveBlock env signed =>
    rw [BlockCall.serve, saveBlock]
    split_ifs
    · exact hagrees.cache
    · exact hagrees.cache.saveROBlocks env hhashes true
  | saveBlocks env blks => exact hagrees.cache.saveROBlocks env hhashes true
  | saveROBlocks env blks cache => exact hagrees.cache.saveROBlocks env hhashes cache
  | evict blockRoot =>
    refine (hagrees.uncache fun root ↦ ?_).cache
    grind

theorem Agrees.deleteHistoricalDataBeforeSlot {env : PruneEnvironment}
    (hallowed : DeletionAllowed headers store
      (.deleteHistoricalDataBeforeSlot env cutoffSlot batchSize)) :
    Agrees headers
      (Kv.deleteHistoricalDataBeforeSlot enabled store env cutoffSlot batchSize).2 := by
  obtain ⟨slots, parents, hidx⟩ := hagrees.indexed
  obtain ⟨slotRoots, hslotRoots, hcount, hbatch⟩ := hidx.slotRootsInRange cutoffSlot batchSize
  unfold Kv.deleteHistoricalDataBeforeSlot
  rw [hslotRoots]
  cases slotRoots with
  | nil => exact hagrees
  | cons pair slotRoots =>
    refine ⟨?_, (hagrees.uncache (blockCache_deleteBatch ·)).cache⟩
    rw [DeletionAllowed, ← hcount] at hallowed
    rcases db_deleteBatch enabled store env (pair :: slotRoots) with hdb | ⟨hback, hdone⟩
    · exact hdb ▸ ⟨slots, parents, hidx⟩
    by_cases hzero : env.cancelAt = some 0
    · have hdb : (deleteBatch enabled store env (pair :: slotRoots)).2.db = store.db :=
        db_deleteBatch_of_cancelled hzero (cons_ne_nil _ _)
      exact hdb ▸ ⟨slots, parents, hidx⟩
    obtain ⟨hinterrupted, hparents⟩ := (hallowed.resolve_left hback).resolve_left hzero
    rcases hdone with ⟨iteration, hlt, hat⟩ | hdb
    · refine absurd ?_ hinterrupted
      rw [PruneEnvironment.Interrupted, hat]
      grind
    · rw [hdb]
      exact hidx.deleteSlots hbatch hparents

theorem Agrees.serve {call : DeletionCall}
    (hallowed : DeletionAllowed headers store call) :
    Agrees headers (call.serve codec enabled store) := by
  cases call with
  | blocks call => exact hagrees.blocks hallowed
  | deleteBlock env root => exact hagrees.deleteBlock env root
  | deleteHistoricalDataBeforeSlot env cutoffSlot batchSize =>
    exact hagrees.deleteHistoricalDataBeforeSlot hallowed

end

/-- The stored blocks and their indices agree after every run of saves and deletions. -/
theorem stored_blocks_indexed {db : Db Validator} (hempty : db.NoBlocks) {calls : List DeletionCall}
    (run : Run (CallStep (fun store call ↦ (call, call.serve codec enabled store))
      (DeletionAllowed headers)) (Store.open db) calls store) :
    (∀ slot, ∃ roots, blockRootsBySlot store.db slot = .ok roots ∧ roots.Nodup ∧
        ∀ root, root ∈ roots ↔ ∃ blk, store.db.blocks.get root = some blk ∧ blk.slot = slot) ∧
      (∀ parentRoot, ∀ root ∈ rootsOfParent store.db parentRoot,
        ∃ blk, store.db.blocks.get root = some blk ∧ blk.parentRoot = parentRoot) ∧
      (∀ slot, ∃ blks, blocksBySlot store.db slot = .ok blks ∧
        ∀ blk, blk ∈ blks ↔ store.db.blocks.get blk.root = some blk ∧ blk.slot = slot) ∧
      ∀ parentRoot, ∃ blks, blocksByParentRoot store.db parentRoot = .ok blks ∧
        ∀ blk ∈ blks, store.db.blocks.get blk.root = some blk ∧ blk.parentRoot = parentRoot := by
  obtain ⟨hblocks, hslotBkt, hparentBkt⟩ := hempty
  have hagrees := run.call_invariant (Agrees headers)
    ⟨⟨_, _, (indexed_empty headers none none).congr hblocks hslotBkt hparentBkt⟩, nofun⟩
    (fun _ _ h hallowed ↦ h.serve hallowed)
  obtain ⟨slots, parents, hidx⟩ := hagrees.indexed
  refine ⟨fun slot ↦ ⟨slots slot, hidx.blockRootsBySlot slot, hidx.slots_nodup slot,
    fun root ↦ ?_⟩, fun parentRoot root hroot ↦ ?_, hidx.blocksBySlot, hidx.blocksByParentRoot⟩
  · rw [hidx.mem_slots_iff]
    constructor
    · rintro ⟨blk, hblk, -, hslot⟩
      exact ⟨blk, hblk, hslot⟩
    · rintro ⟨blk, hblk, hslot⟩
      exact ⟨blk, hblk, (hidx.hashes root blk hblk).1, hslot⟩
  · rw [hidx.rootsOfParent] at hroot
    obtain ⟨blk, hblk, -, hpar⟩ := hidx.exists_of_mem_parents hroot
    exact ⟨blk, hblk, hpar⟩

end Runs

/-- A child of `firstBlock`. -/
def childBlock : SignedBeaconBlock where
  root := 9
  slot := 2
  parentRoot := firstBlock.root
  version := .phase0
  isBlinded := false

def chainHeaders : Headers where
  slot root := if root = childBlock.root then childBlock.slot else firstBlock.slot
  parentRoot root := if root = childBlock.root then childBlock.parentRoot else firstBlock.parentRoot

/-- The store of a list of calls. -/
def deletionStore (calls : List DeletionCall) : Store ℕ :=
  calls.foldl (DeletionCall.serve numberCodec false) (Store.open Db.empty)

def saveChain : DeletionCall := .blocks (.saveROBlocks noFault [firstBlock, childBlock] true)

/-- A pruning that is cancelled after the first of two deletions leaves the deleted block in the
slot index, and a pruning of one block leaves it in the parent index. -/
theorem deleted_block_listed :
    (∃ store,
        deletionStore [saveChain, .deleteHistoricalDataBeforeSlot ⟨none, some 1⟩ 2 10] = store ∧
        store.db.blocks.get childBlock.root = none ∧
        blockRootsBySlot store.db childBlock.slot = .ok [childBlock.root] ∧
        blocksBySlot store.db childBlock.slot =
          .error (.error (.wrapf errNotFound "empty block bytes in db" []))) ∧
      ∃ store, deletionStore [saveChain, .deleteHistoricalDataBeforeSlot ⟨none, none⟩ 2 1] = store ∧
        store.db.blocks.get firstBlock.root = some firstBlock ∧
        store.db.blocks.get childBlock.root = none ∧
        rootsOfParent store.db firstBlock.root = [childBlock.root] ∧
        blocksByParentRoot store.db firstBlock.root =
          .error (.error (.wrapf (.wrapf errNotFound "empty block bytes in db" [])
            "could not unmarshal block with key %#x" [.bytes childBlock.root])) :=
  ⟨⟨_, rfl, by decide +kernel⟩, ⟨_, rfl, by decide +kernel⟩⟩

/-- The first block is deleted with its key in the parent index, and its child is then pruned. -/
def deleteChain : List DeletionCall :=
  [saveChain, .deleteBlock ⟨none, none, none⟩ firstBlock.root,
    .deleteHistoricalDataBeforeSlot ⟨none, none⟩ 2 1]

theorem stored_blocks_indexed_deleteChain :
    ∃ (calls : List DeletionCall) (store : Store ℕ),
      Run (CallStep (fun store call ↦ (call, call.serve numberCodec false store))
        (DeletionAllowed chainHeaders)) (Store.open Db.empty) calls store ∧
      (∀ slot, ∃ roots, blockRootsBySlot store.db slot = .ok roots ∧ roots.Nodup ∧
        ∀ root, root ∈ roots ↔ ∃ blk, store.db.blocks.get root = some blk ∧ blk.slot = slot) := by
  have run := run_execute (fun store call ↦ (call, DeletionCall.serve numberCodec false store call))
    (DeletionAllowed chainHeaders) (Store.open Db.empty) deleteChain (by decide +kernel)
  exact ⟨_, _, run, (stored_blocks_indexed ⟨rfl, rfl, rfl⟩ run).1⟩

end Prysm.Kv

