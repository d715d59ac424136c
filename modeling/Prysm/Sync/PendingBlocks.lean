import Mathlib.Data.Fintype.Pi
import Prysm.Library.ExpiringCache
import Prysm.Library.Run
import Prysm.Slots

/-!
# The queue of pending blocks

Blocks that cannot be processed yet wait in `slotToPendingBlocks`, an expiring cache with a list of
blocks for each slot.  The roots of the waiting blocks are marked in `seenPendingBlocks`, so that a
block is neither taken from gossip nor requested a second time while it waits.

An insertion marks its block although the list of the slot is full, and it overwrites a list that
has expired but is not swept yet without taking back the marks of its blocks.  A deletion removes
the block that is equal to its argument, but takes back the mark of every block with the same root.
All other operations keep the marks and the stored blocks in step.

An operation reads the clock at each access to the cache.  The times of these accesses are part of
the operation, and may be any.
-/

namespace Prysm.Sync

open List Prysm.Library ExpiringCache

/-- What the queue reads of a signed block.  The root is a hash of the message, so blocks with the
same root have the same slot, but the signature is not part of it. -/
structure SignedBlocks (Block : Type) where
  slot : Block → Slot
  parentRoot : Block → Root
  hashTreeRoot : Block → Root
  slot_eq : ∀ b other, hashTreeRoot b = hashTreeRoot other → slot b = slot other

def maxBlocksPerSlot : ℕ := 3

def pendingBlockExpTime (config : BeaconChainConfig) : ℕ :=
  config.slotsPerEpoch * config.secondsPerSlot * second

/-- The error of `Replace` for a slot that is not there. -/
def errItemNotFound (slot : Slot) : Error := .errorf "Item %s doesn't exist" [.number slot]

/-- The part of `Service` with the pending blocks. -/
structure PendingQueue (Block : Type) where
  slotToPendingBlocks : ExpiringCache Slot (List Block)
  seenPendingBlocks : Finset Root

section Operations

variable {Block : Type} [DecidableEq Block] (config : BeaconChainConfig)
  (blocks : SignedBlocks Block)

namespace PendingQueue

/-- The queue of `NewService`. -/
def new : PendingQueue Block := ⟨ExpiringCache.new (pendingBlockExpTime config), ∅⟩

variable (queue : PendingQueue Block)

def pendingBlocksInCache (now : Time) (slot : Slot) : List Block :=
  (queue.slotToPendingBlocks.get now slot).getD []

def addPendingBlockToCache (now later : Time) (b : Block) : PendingQueue Block :=
  let blks := queue.pendingBlocksInCache now (blocks.slot b)
  if blks.length ≥ maxBlocksPerSlot then queue
  else { queue with
    slotToPendingBlocks := queue.slotToPendingBlocks.set later (blocks.slot b) (blks ++ [b])
      (pendingBlockExpTime config) }

def insertBlockToPendingQueue (now later : Time) (b : Block) (r : Root) : PendingQueue Block :=
  if r ∈ queue.seenPendingBlocks then queue
  else
    let queue := queue.addPendingBlockToCache config blocks now later b
    { queue with seenPendingBlocks := insert r queue.seenPendingBlocks }

/-- The callback that `NewService` installs with `OnEvicted`. -/
def onEvicted (blks : List Block) : PendingQueue Block :=
  { queue with
    seenPendingBlocks := queue.seenPendingBlocks \ (blks.map blocks.hashTreeRoot).toFinset }

def deleteBlockFromPendingQueue (now later : Time) (slot : Slot) (b : Block) (r : Root) :
    Except Fault Unit × PendingQueue Block :=
  let blks := queue.pendingBlocksInCache now slot
  if blks = [] then (.ok (), queue)
  else
    let newBlks := blks.filter (· ≠ b)
    if newBlks = [] then
      let deleted := queue.slotToPendingBlocks.delete slot
      let queue := { queue with slotToPendingBlocks := deleted.2 }.onEvicted blocks
        (deleted.1.getD [])
      (.ok (), { queue with seenPendingBlocks := queue.seenPendingBlocks.erase r })
    else
      match queue.slotToPendingBlocks.replace later slot newBlks
          (pendingBlockExpTime config / newBlks.length) with
      | none => (.error (.error (errItemNotFound slot)), queue)
      | some cache => (.ok (), ⟨cache, queue.seenPendingBlocks.erase r⟩)

def deleteExpiredBlocksFromCache (now : Time) : PendingQueue Block :=
  let deleted := queue.slotToPendingBlocks.deleteExpired now
  deleted.1.foldl (onEvicted blocks) { queue with slotToPendingBlocks := deleted.2 }

def clearPendingSlots : PendingQueue Block :=
  ⟨queue.slotToPendingBlocks.flush, ∅⟩

end PendingQueue

/-- The variables of `validatePendingSlots`, with the number of accesses to the cache so far. -/
structure Validation (Block : Type) where
  queue : PendingQueue Block
  oldBlockRoots : Finset Root
  tick : ℕ

/-- The loop of `validatePendingSlots` over the blocks of a slot. -/
def validateBlocks (clock : ℕ → Time) (finalizedEpoch : Epoch) (slot : Slot) :
    List Block → Validation Block → Except Fault Unit × Validation Block
  | [], state => (.ok (), state)
  | b :: blks, state =>
    if blocks.parentRoot b ∈ state.oldBlockRoots ∨
        finalizedEpoch > 0 ∧ toEpoch config slot ≤ finalizedEpoch then
      let root := blocks.hashTreeRoot b
      let deleted := state.queue.deleteBlockFromPendingQueue config blocks (clock state.tick)
        (clock (state.tick + 1)) slot b root
      let state := ⟨deleted.2, insert root state.oldBlockRoots, state.tick + 2⟩
      match deleted.1 with
      | .error err => (.error err, state)
      | .ok () => validateBlocks clock finalizedEpoch slot blks state
    else validateBlocks clock finalizedEpoch slot blks state

/-- The loop of `validatePendingSlots` over the slots. -/
def validateSlots (clock : ℕ → Time) (finalizedEpoch : Epoch) :
    List Slot → Validation Block → Except Fault Unit × Validation Block
  | [], state => (.ok (), state)
  | slot :: slots, state =>
    let blks := state.queue.pendingBlocksInCache (clock state.tick) slot
    match validateBlocks config blocks clock finalizedEpoch slot blks
        { state with tick := state.tick + 1 } with
    | (.error err, state) => (.error err, state)
    | (.ok (), state) => validateSlots clock finalizedEpoch slots state

/-- `validatePendingSlots`.  The map of the items is iterated in the order of the ranks. -/
def PendingQueue.validatePendingSlots (queue : PendingQueue Block) (clock : ℕ → Time)
    (finalizedEpoch : Epoch) (rank : Slot → ℕ) : Except Fault Unit × PendingQueue Block :=
  let slots := (queue.slotToPendingBlocks.keys (clock 0)).insertionSort
    fun left right ↦ rank left ≤ rank right
  let validated := validateSlots config blocks clock finalizedEpoch slots ⟨queue, ∅, 1⟩
  (validated.1, validated.2.queue)

/-- An operation under the lock of the queue. -/
inductive Operation (Block : Type)
  | insert (b : Block) (now later : Time)
  | delete (b : Block) (now later : Time)
  | validate (finalizedEpoch : Epoch) (clock : ℕ → Time) (rank : Slot → ℕ)
  | deleteExpired (now : Time)
  | clear

/-- An operation with what it returns. -/
def serve (queue : PendingQueue Block) : Operation Block → Except Fault Unit × PendingQueue Block
  | .insert b now later =>
    (.ok (), queue.insertBlockToPendingQueue config blocks now later b (blocks.hashTreeRoot b))
  | .delete b now later =>
    queue.deleteBlockFromPendingQueue config blocks now later (blocks.slot b) b
      (blocks.hashTreeRoot b)
  | .validate finalizedEpoch clock rank =>
    queue.validatePendingSlots config blocks clock finalizedEpoch rank
  | .deleteExpired now => (.ok (), queue.deleteExpiredBlocksFromCache blocks now)
  | .clear => (.ok (), queue.clearPendingSlots)

end Operations

/-! ### Marks and stored blocks -/

open PendingQueue

section Marks

variable {Block : Type} (blocks : SignedBlocks Block) (queue : PendingQueue Block)

/-- The blocks that are stored for a slot, expired or not. -/
def PendingQueue.storedAt (slot : Slot) : List Block :=
  ((queue.slotToPendingBlocks.items.get slot).map (·.object)).getD []

/-- The roots of all stored blocks. -/
def PendingQueue.storedRoots : List Root :=
  queue.slotToPendingBlocks.items.entries.flatMap fun entry ↦
    entry.2.object.map blocks.hashTreeRoot

/-- A root is marked exactly when a block with that root is stored. -/
def Agrees : Prop := ∀ root, root ∈ queue.seenPendingBlocks ↔ root ∈ queue.storedRoots blocks

/-- The list of the slot is stored but hidden. -/
def PendingQueue.Stale (now : Time) (slot : Slot) : Prop :=
  (queue.slotToPendingBlocks.items.get slot).isSome ∧ queue.slotToPendingBlocks.get now slot = none

/-- The operations that keep the marks and the stored blocks in step: a block is inserted for a slot
whose list is neither full nor expired and waiting for a sweep, and a block is deleted while no
other block with the same root is stored, or too late to replace the list. -/
def KeepsMarks : Operation Block → Prop
  | .insert b now _ => blocks.hashTreeRoot b ∈ queue.seenPendingBlocks ∨
    ¬ queue.Stale now (blocks.slot b) ∧
      (queue.pendingBlocksInCache now (blocks.slot b)).length < maxBlocksPerSlot
  | .delete b now later => queue.slotToPendingBlocks.get later (blocks.slot b) = none ∨
    ∀ blk ∈ queue.pendingBlocksInCache now (blocks.slot b),
      blocks.hashTreeRoot blk = blocks.hashTreeRoot b → blk = b
  | _ => True

variable {blocks queue}

theorem mem_storedRoots {root : Root} :
    root ∈ queue.storedRoots blocks ↔
      ∃ slot, root ∈ (queue.storedAt slot).map blocks.hashTreeRoot := by
  simp only [storedRoots, mem_flatMap, Prod.exists, Bucket.mem_entries_iff]
  constructor
  · rintro ⟨slot, item, hitem, hroot⟩
    exact ⟨slot, by rwa [storedAt, hitem]⟩
  · rintro ⟨slot, hroot⟩
    cases hitem : queue.slotToPendingBlocks.items.get slot with
    | none =>
      rw [storedAt, hitem] at hroot
      cases hroot
    | some item =>
      rw [storedAt, hitem] at hroot
      exact ⟨slot, item, hitem, hroot⟩

/-- The lists of a queue are not empty, and hold blocks of their slot with different roots. -/
structure WellFormed (blocks : SignedBlocks Block) (queue : PendingQueue Block) : Prop where
  nonempty : ∀ slot, (queue.slotToPendingBlocks.items.get slot).isSome → queue.storedAt slot ≠ []
  nodup : ∀ slot, ((queue.storedAt slot).map blocks.hashTreeRoot).Nodup
  slot_eq : ∀ slot, ∀ b ∈ queue.storedAt slot, blocks.slot b = slot

/-- The blocks that are not hidden are those that are stored, or there are none. -/
theorem pendingBlocksInCache_eq (queue : PendingQueue Block) (now : Time) (slot : Slot) :
    queue.pendingBlocksInCache now slot = queue.storedAt slot ∧ ¬ queue.Stale now slot ∨
      queue.pendingBlocksInCache now slot = [] ∧ queue.Stale now slot := by
  unfold pendingBlocksInCache storedAt PendingQueue.Stale
  cases hget : queue.slotToPendingBlocks.get now slot with
  | some blks =>
    obtain ⟨item, hitem, rfl⟩ := exists_item_of_get hget
    simp [hitem]
  | none =>
    cases hitem : queue.slotToPendingBlocks.items.get slot <;> simp

/-- Lists that are as before or good themselves. -/
theorem WellFormed.of_lists (wf : WellFormed blocks queue) {next : PendingQueue Block}
    (hlists : ∀ slot, next.slotToPendingBlocks.items.get slot =
        queue.slotToPendingBlocks.items.get slot ∨
      ((next.slotToPendingBlocks.items.get slot).isSome → next.storedAt slot ≠ []) ∧
        ((next.storedAt slot).map blocks.hashTreeRoot).Nodup ∧
        ∀ b ∈ next.storedAt slot, blocks.slot b = slot) : WellFormed blocks next := by
  have hgood (slot : Slot) := (hlists slot).elim (fun heq ↦ by
    unfold storedAt
    rw [heq]
    exact ⟨wf.nonempty slot, wf.nodup slot, wf.slot_eq slot⟩) id
  exact ⟨fun slot ↦ (hgood slot).1, fun slot ↦ (hgood slot).2.1, fun slot ↦ (hgood slot).2.2⟩

/-- Only the list of one slot can hold blocks of a root. -/
theorem WellFormed.slot_unique (wf : WellFormed blocks queue) {slot other : Slot} {root : Root}
    (hroot : root ∈ (queue.storedAt slot).map blocks.hashTreeRoot)
    (hother : root ∈ (queue.storedAt other).map blocks.hashTreeRoot) : slot = other := by
  obtain ⟨b, hb, rfl⟩ := mem_map.1 hroot
  obtain ⟨c, hc, heq⟩ := mem_map.1 hother
  rw [← wf.slot_eq slot b hb, ← wf.slot_eq other c hc, blocks.slot_eq c b heq]

theorem WellFormed.root_stored_iff (wf : WellFormed blocks queue) (b : Block) :
    blocks.hashTreeRoot b ∈ queue.storedRoots blocks ↔
      blocks.hashTreeRoot b ∈ (queue.storedAt (blocks.slot b)).map blocks.hashTreeRoot := by
  rw [mem_storedRoots]
  refine ⟨?_, fun hroot ↦ ⟨_, hroot⟩⟩
  rintro ⟨slot, hroot⟩
  obtain ⟨other, hother, heq⟩ := mem_map.1 hroot
  rwa [← blocks.slot_eq other b heq, wf.slot_eq slot other hother]

/-- Only the list of one slot changes. -/
structure ListUpdate (queue queue' : PendingQueue Block) (slot : Slot) (list : List Block) : Prop
    where
  self : queue'.storedAt slot = list
  other : ∀ other, other ≠ slot → queue'.slotToPendingBlocks.items.get other =
    queue.slotToPendingBlocks.items.get other
  nonempty : (queue'.slotToPendingBlocks.items.get slot).isSome → list ≠ []

variable {queue' : PendingQueue Block} {slot : Slot} {list : List Block}

theorem ListUpdate.storedAt_other (update : ListUpdate queue queue' slot list) {other : Slot}
    (hne : other ≠ slot) : queue'.storedAt other = queue.storedAt other := by
  rw [storedAt, update.other other hne, storedAt]

theorem WellFormed.update (wf : WellFormed blocks queue)
    (update : ListUpdate queue queue' slot list) (hnodup : (list.map blocks.hashTreeRoot).Nodup)
    (hslot : ∀ b ∈ list, blocks.slot b = slot) : WellFormed blocks queue' := by
  refine wf.of_lists fun other ↦ ?_
  by_cases hne : other = slot
  · rw [hne, update.self]
    exact .inr ⟨update.nonempty, hnodup, hslot⟩
  · exact .inl (update.other other hne)

/-- The stored roots after a change of one list, for the roots of blocks of its slot and for the
others. -/
theorem ListUpdate.stored_iff (update : ListUpdate queue queue' slot list)
    (wf : WellFormed blocks queue) (hslot : ∀ b ∈ list, blocks.slot b = slot) (root : Root) :
    root ∈ queue'.storedRoots blocks ↔ root ∈ list.map blocks.hashTreeRoot ∨
      root ∈ queue.storedRoots blocks ∧
        root ∉ (queue.storedAt slot).map blocks.hashTreeRoot := by
  rw [mem_storedRoots, mem_storedRoots]
  constructor
  · rintro ⟨other, hroot⟩
    by_cases hne : other = slot
    · rw [hne, update.self] at hroot
      exact .inl hroot
    · rw [update.storedAt_other hne] at hroot
      exact .inr ⟨⟨other, hroot⟩, fun hslotRoot ↦ hne (wf.slot_unique hroot hslotRoot)⟩
  · rintro (hlist | ⟨⟨other, hroot⟩, hnot⟩)
    · exact ⟨slot, by rwa [update.self]⟩
    · have hne : other ≠ slot := by
        rintro rfl
        exact hnot hroot
      exact ⟨other, by rwa [update.storedAt_other hne]⟩

theorem listUpdate_put (queue : PendingQueue Block) (slot : Slot) (item : Item (List Block))
    (seen : Finset Root) (expiration : ℕ) (hitem : item.object ≠ []) :
    ListUpdate queue ⟨⟨queue.slotToPendingBlocks.items.put slot item, expiration⟩, seen⟩ slot
      item.object where
  self := by simp [storedAt]
  other other hne := by simp [Ne.symm hne]
  nonempty _ := hitem

theorem listUpdate_delete (queue : PendingQueue Block) (slot : Slot) (seen : Finset Root)
    (expiration : ℕ) :
    ListUpdate queue ⟨⟨queue.slotToPendingBlocks.items.delete slot, expiration⟩, seen⟩ slot [] where
  self := by simp [storedAt]
  other other hne := by simp [Ne.symm hne]
  nonempty hsome := by simp at hsome

theorem WellFormed.visible (wf : WellFormed blocks queue) (now : Time) (slot : Slot) :
    ((queue.pendingBlocksInCache now slot).map blocks.hashTreeRoot).Nodup ∧
      ∀ blk ∈ queue.pendingBlocksInCache now slot, blk ∈ queue.storedAt slot := by
  rcases pendingBlocksInCache_eq queue now slot with ⟨heq, -⟩ | ⟨heq, -⟩
  · rw [heq]
    exact ⟨wf.nodup slot, fun _ hblk ↦ hblk⟩
  · rw [heq]
    exact ⟨nodup_nil, nofun⟩

theorem visible_eq_storedAt {now : Time} (hempty : queue.pendingBlocksInCache now slot ≠ []) :
    queue.pendingBlocksInCache now slot = queue.storedAt slot := by
  rcases pendingBlocksInCache_eq queue now slot with ⟨heq, -⟩ | ⟨heq, -⟩
  · exact heq
  · exact absurd heq hempty

/-- The marks are in step and the lists are well formed. -/
def Sound (blocks : SignedBlocks Block) (queue : PendingQueue Block) : Prop :=
  WellFormed blocks queue ∧ Agrees blocks queue

theorem sound_empty (blocks : SignedBlocks Block) (expiration : ℕ) :
    Sound blocks ⟨⟨Bucket.empty, expiration⟩, ∅⟩ := by
  refine ⟨⟨fun _ hsome ↦ ?_, fun _ ↦ nodup_nil, fun _ _ hb ↦ ?_⟩, fun root ↦ ?_⟩
  · cases hsome
  · cases hb
  · exact iff_of_false (Finset.notMem_empty root) not_mem_nil

end Marks

section Sweep

variable {Block : Type} {blocks : SignedBlocks Block} {queue : PendingQueue Block}

/-- The callbacks take back the marks of the evicted blocks and nothing else. -/
theorem foldl_onEvicted (blocks : SignedBlocks Block) (lists : List (List Block))
    (queue : PendingQueue Block) :
    (lists.foldl (onEvicted blocks) queue).slotToPendingBlocks = queue.slotToPendingBlocks ∧
      ∀ root, root ∈ (lists.foldl (onEvicted blocks) queue).seenPendingBlocks ↔
        root ∈ queue.seenPendingBlocks ∧ ∀ list ∈ lists, root ∉ list.map blocks.hashTreeRoot := by
  induction lists generalizing queue with
  | nil => simp
  | cons list lists ih =>
    obtain ⟨hcache, hseen⟩ := ih (queue.onEvicted blocks list)
    refine ⟨hcache, fun root ↦ ?_⟩
    rw [foldl_cons, hseen, onEvicted, Finset.mem_sdiff, mem_toFinset, forall_mem_cons, and_assoc]

theorem Sound.deleteExpired (h : Sound blocks queue) (now : Time) :
    Sound blocks (queue.deleteExpiredBlocksFromCache blocks now) := by
  obtain ⟨wf, hagrees⟩ := h
  obtain ⟨hcache, hseen⟩ := foldl_onEvicted blocks (queue.slotToPendingBlocks.deleteExpired now).1
    { queue with slotToPendingBlocks := (queue.slotToPendingBlocks.deleteExpired now).2 }
  set next := queue.deleteExpiredBlocksFromCache blocks now with hnext
  have hget (slot : Slot) : next.slotToPendingBlocks.items.get slot =
      (queue.slotToPendingBlocks.items.get slot).filter fun item ↦ !item.expired now := by
    rw [hnext, deleteExpiredBlocksFromCache, hcache]
    exact get_items_deleteExpired now slot
  have hitems (slot : Slot) : next.slotToPendingBlocks.items.get slot =
        queue.slotToPendingBlocks.items.get slot ∧
          (∀ item ∈ queue.slotToPendingBlocks.items.get slot, item.expired now = false) ∨
      next.slotToPendingBlocks.items.get slot = none ∧
        ∃ item ∈ queue.slotToPendingBlocks.items.get slot, item.expired now = true := by
    rw [hget]
    cases queue.slotToPendingBlocks.items.get slot <;> grind
  refine ⟨wf.of_lists fun slot ↦ (hitems slot).imp And.left fun hgone ↦ by
    simp [storedAt, hgone.1], fun root ↦ ?_⟩
  rw [hnext, deleteExpiredBlocksFromCache, hseen,
    ← deleteExpiredBlocksFromCache, ← hnext, hagrees root, mem_storedRoots, mem_storedRoots]
  constructor
  · rintro ⟨⟨slot, hroot⟩, hnot⟩
    refine ⟨slot, ?_⟩
    rcases hitems slot with ⟨heq, -⟩ | ⟨-, item, hitem, hexpired⟩
    · rwa [storedAt, heq, ← storedAt]
    · refine absurd ?_ (hnot item.object
        (mem_deleteExpired_iff.2 ⟨slot, item, hitem, hexpired, rfl⟩))
      rwa [storedAt, hitem] at hroot
  · rintro ⟨slot, hroot⟩
    rcases hitems slot with ⟨heq, hkept⟩ | ⟨hnone, -⟩
    · rw [storedAt, heq, ← storedAt] at hroot
      refine ⟨⟨slot, hroot⟩, fun list hlist hmem ↦ ?_⟩
      obtain ⟨other, item, hitem, hexpired, rfl⟩ := mem_deleteExpired_iff.1 hlist
      obtain rfl := wf.slot_unique hroot (by rwa [storedAt, hitem])
      grind
    · rw [storedAt, hnone] at hroot
      cases hroot

end Sweep

section Steps

variable {Block : Type} [DecidableEq Block] {config : BeaconChainConfig}
  {blocks : SignedBlocks Block} {queue : PendingQueue Block} {b : Block} {now later : Time}

/-- An insertion of a block that is not marked, for a slot whose list is not full. -/
theorem listUpdate_insert (config : BeaconChainConfig) (later : Time)
    (hnew : blocks.hashTreeRoot b ∉ queue.seenPendingBlocks)
    (hroom : (queue.pendingBlocksInCache now (blocks.slot b)).length < maxBlocksPerSlot) :
    ListUpdate queue (serve config blocks queue (.insert b now later)).2 (blocks.slot b)
        (queue.pendingBlocksInCache now (blocks.slot b) ++ [b]) ∧
      (serve config blocks queue (.insert b now later)).2.seenPendingBlocks =
        insert (blocks.hashTreeRoot b) queue.seenPendingBlocks := by
  simp only [serve, insertBlockToPendingQueue, if_neg hnew,
    addPendingBlockToCache, if_neg (not_le.2 hroom)]
  exact ⟨listUpdate_put queue _ _ _ _ (by simp [newItem]), trivial⟩

theorem insert_of_full (hnew : blocks.hashTreeRoot b ∉ queue.seenPendingBlocks)
    (hfull : ¬ (queue.pendingBlocksInCache now (blocks.slot b)).length < maxBlocksPerSlot) :
    (serve config blocks queue (.insert b now later)).2 = ⟨queue.slotToPendingBlocks,
        insert (blocks.hashTreeRoot b) queue.seenPendingBlocks⟩ := by
  simp only [serve, insertBlockToPendingQueue, if_neg hnew,
    addPendingBlockToCache, if_pos (not_lt.1 hfull)]

theorem insert_of_seen (hseen : blocks.hashTreeRoot b ∈ queue.seenPendingBlocks) :
    (serve config blocks queue (.insert b now later)).2 = queue := by
  simp only [serve, insertBlockToPendingQueue, if_pos hseen]

/-- An insertion keeps the lists well formed, and it keeps the marks in step exactly if there is
room in a list that is not hidden. -/
theorem Sound.insert (h : Sound blocks queue) :
    WellFormed blocks (serve config blocks queue (.insert b now later)).2 ∧
      (Agrees blocks (serve config blocks queue (.insert b now later)).2 ↔
        KeepsMarks blocks queue (.insert b now later)) := by
  obtain ⟨wf, hagrees⟩ := h
  by_cases hseen : blocks.hashTreeRoot b ∈ queue.seenPendingBlocks
  · rw [insert_of_seen hseen]
    exact ⟨wf, iff_of_true hagrees (.inl hseen)⟩
  have hnotStored := mt (hagrees _).2 hseen
  by_cases hroom : (queue.pendingBlocksInCache now (blocks.slot b)).length < maxBlocksPerSlot
  · obtain ⟨update, hmarks⟩ := listUpdate_insert config later hseen hroom
    obtain ⟨hnodup, hsub⟩ := wf.visible now (blocks.slot b)
    have hslot (blk : Block) (hblk : blk ∈ queue.pendingBlocksInCache now (blocks.slot b) ++ [b]) :
        blocks.slot blk = blocks.slot b := by
      rcases mem_append.1 hblk with hold | hlast
      · exact wf.slot_eq _ blk (hsub blk hold)
      · rw [mem_singleton.1 hlast]
    refine ⟨wf.update update ?_ hslot, ?_⟩
    · rw [wf.root_stored_iff] at hnotStored
      rw [map_append, map_singleton]
      refine List.Nodup.append hnodup (nodup_singleton _) ?_
      rw [disjoint_singleton]
      grind
    have hstored := update.stored_iff wf hslot
    rcases pendingBlocksInCache_eq queue now (blocks.slot b) with ⟨heq, hstale⟩ | ⟨heq, hstale⟩
    · refine iff_of_true (fun root ↦ ?_) (.inr ⟨hstale, hroom⟩)
      rw [hmarks, Finset.mem_insert, hstored, heq, hagrees root, map_append, mem_append,
        map_singleton, mem_singleton]
      constructor
      · grind
      · rintro ((hroot | rfl) | ⟨hroot, -⟩)
        · exact .inr (mem_storedRoots.2 ⟨_, hroot⟩)
        · exact .inl rfl
        · exact .inr hroot
    · -- the roots of the list that is overwritten stay marked
      refine iff_of_false (fun hafter ↦ ?_) ?_
      · obtain ⟨old, hold⟩ := exists_mem_of_ne_nil _ (wf.nonempty _ hstale.1)
        have holdRoot := mem_map_of_mem (f := blocks.hashTreeRoot) hold
        have hmarked := (hagrees _).2 (mem_storedRoots.2 ⟨_, holdRoot⟩)
        have hstill : blocks.hashTreeRoot old ∈
            (serve config blocks queue (.insert b now later)).2.seenPendingBlocks := by
          grind
        rcases (hstored _).1 ((hafter _).1 hstill) with hroot | ⟨-, hnot⟩
        · grind
        · exact hnot holdRoot
      · rintro (hmarked | ⟨hnot, -⟩)
        · exact hseen hmarked
        · exact hnot hstale
  · -- the block is marked but not stored
    rw [insert_of_full hseen hroom]
    refine ⟨⟨wf.nonempty, wf.nodup, wf.slot_eq⟩, iff_of_false (fun hafter ↦ ?_) ?_⟩
    · exact hnotStored ((hafter _).1 (Finset.mem_insert_self _ _))
    · rintro (hmarked | ⟨-, hlt⟩)
      · exact hseen hmarked
      · exact hroom hlt

/-! ### Deletion -/

/-- What a deletion can do: nothing, the list of the slot is deleted, or it is replaced by a shorter
one. -/
theorem delete_cases (config : BeaconChainConfig) (blocks : SignedBlocks Block)
    (queue : PendingQueue Block) (b : Block) (now later : Time) {next : PendingQueue Block}
    (hnext : (serve config blocks queue (.delete b now later)).2 = next) :
    next = queue ∧
        (queue.pendingBlocksInCache now (blocks.slot b) = [] ∨
          queue.slotToPendingBlocks.get later (blocks.slot b) = none) ∨
      (b ∈ queue.pendingBlocksInCache now (blocks.slot b) ∧
        (∀ blk ∈ queue.pendingBlocksInCache now (blocks.slot b), blk = b) ∧
        ListUpdate queue next (blocks.slot b) [] ∧
        next.seenPendingBlocks = (queue.seenPendingBlocks \
            ((queue.storedAt (blocks.slot b)).map blocks.hashTreeRoot).toFinset).erase
              (blocks.hashTreeRoot b)) ∨
      (queue.slotToPendingBlocks.get later (blocks.slot b) ≠ none ∧
        queue.pendingBlocksInCache now (blocks.slot b) ≠ [] ∧
        ListUpdate queue next (blocks.slot b)
          ((queue.pendingBlocksInCache now (blocks.slot b)).filter (· ≠ b)) ∧
        next.seenPendingBlocks = queue.seenPendingBlocks.erase (blocks.hashTreeRoot b)) := by
  subst hnext
  simp only [serve, deleteBlockFromPendingQueue]
  by_cases hempty : queue.pendingBlocksInCache now (blocks.slot b) = []
  · grind
  rw [if_neg hempty]
  by_cases hnone : (queue.pendingBlocksInCache now (blocks.slot b)).filter (· ≠ b) = []
  · rw [if_pos hnone]
    have hall : ∀ blk ∈ queue.pendingBlocksInCache now (blocks.slot b), blk = b := by
      simpa [filter_eq_nil_iff] using hnone
    obtain ⟨blk, hblk⟩ := exists_mem_of_ne_nil _ hempty
    exact .inr (.inl ⟨hall blk hblk ▸ hblk, hall, listUpdate_delete queue _ _ _, rfl⟩)
  rw [if_neg hnone]
  cases hget : queue.slotToPendingBlocks.get later (blocks.slot b) with
  | none =>
    have hreplace (list : List Block) (duration : ℕ) :
        queue.slotToPendingBlocks.replace later (blocks.slot b) list duration = none := by
      rw [ExpiringCache.replace, hget]
      rfl
    grind
  | some blks =>
    have hreplace (list : List Block) (duration : ℕ) :
        queue.slotToPendingBlocks.replace later (blocks.slot b) list duration =
          some (queue.slotToPendingBlocks.set later (blocks.slot b) list duration) := by
      rw [ExpiringCache.replace, hget]
      rfl
    simp only [hreplace]
    exact .inr (.inr ⟨nofun, hempty, listUpdate_put queue _ _ _ _ hnone, trivial⟩)

/-- A deletion keeps the lists well formed, and it keeps the marks in step exactly if no other block
with the root stays. -/
theorem Sound.delete (h : Sound blocks queue) :
    WellFormed blocks (serve config blocks queue (.delete b now later)).2 ∧
      (Agrees blocks (serve config blocks queue (.delete b now later)).2 ↔
        KeepsMarks blocks queue (.delete b now later)) := by
  obtain ⟨wf, hagrees⟩ := h
  obtain ⟨hnodup, hsub⟩ := wf.visible now (blocks.slot b)
  rcases delete_cases config blocks queue b now later rfl with
    ⟨hsame, hcase⟩ | ⟨hmem, hall, update, hmarks⟩ | ⟨hlater, hempty, update, hmarks⟩
  · rw [hsame]
    refine ⟨wf, iff_of_true hagrees ?_⟩
    rcases hcase with hempty | hlater
    · exact .inr (by rw [hempty]; nofun)
    · exact .inl hlater
  · refine ⟨wf.update update nodup_nil nofun, iff_of_true (fun root ↦ ?_)
      (.inr fun blk hblk _ ↦ hall blk hblk)⟩
    rw [hmarks, update.stored_iff wf nofun, Finset.mem_erase, Finset.mem_sdiff, mem_toFinset,
      hagrees root]
    grind
  · have hvisible := visible_eq_storedAt hempty
    have hslot (blk : Block)
        (hblk : blk ∈ (queue.pendingBlocksInCache now (blocks.slot b)).filter (· ≠ b)) :
        blocks.slot blk = blocks.slot b := wf.slot_eq _ blk (hsub blk (mem_of_mem_filter hblk))
    have hstored := update.stored_iff wf hslot
    have hkeep (blk : Block) (hblk : blk ∈ queue.pendingBlocksInCache now (blocks.slot b))
        (hne : blk ≠ b) : blocks.hashTreeRoot blk ∈
          ((queue.pendingBlocksInCache now (blocks.slot b)).filter (· ≠ b)).map
            blocks.hashTreeRoot := mem_map_of_mem (mem_filter.2 ⟨hblk, by simpa using hne⟩)
    refine ⟨wf.update update (hnodup.sublist (filter_sublist.map _)) hslot, ?_, ?_⟩
    · intro hafter
      refine .inr fun blk hblk hroot ↦ by_contra fun hne ↦ ?_
      have hmarked := (hafter _).2 ((hstored _).2 (.inl (hkeep blk hblk hne)))
      grind
    · rintro (hnone | hunique)
      · exact absurd hnone hlater
      · intro root
        rw [hmarks, hstored, Finset.mem_erase, hagrees root]
        constructor
        · grind
        · rintro (hroot | ⟨hroot, hnot⟩)
          · obtain ⟨blk, hblk, rfl⟩ := mem_map.1 hroot
            obtain ⟨hvis, hne⟩ := mem_filter.1 hblk
            refine ⟨fun heq ↦ ?_, mem_storedRoots.2 ⟨_, mem_map_of_mem (hvisible ▸ hvis)⟩⟩
            simp [hunique blk hvis heq] at hne
          · refine ⟨?_, hroot⟩
            rintro rfl
            exact hnot ((wf.root_stored_iff b).1 hroot)

/-- A deletion only takes blocks from the list of its slot. -/
theorem mem_storedAt_of_delete {blk : Block}
    (hblk : blk ∈ (serve config blocks queue (.delete b now later)).2.storedAt (blocks.slot b)) :
    blk ∈ queue.storedAt (blocks.slot b) := by
  rcases delete_cases config blocks queue b now later rfl with
    ⟨hsame, -⟩ | ⟨-, -, update, -⟩ | ⟨-, hempty, update, -⟩
  · rwa [hsame] at hblk
  · rw [update.self] at hblk
    cases hblk
  · rw [update.self] at hblk
    rw [← visible_eq_storedAt hempty]
    exact mem_of_mem_filter hblk

/-! ### Validation -/

/-- The loop of the validation over the blocks that were found for a slot.  What is stored for the
slot is always among them. -/
theorem Sound.validateBlocks (config : BeaconChainConfig) (clock : ℕ → Time)
    (finalizedEpoch : Epoch) {slot : Slot} {found : List Block}
    (hnodup : (found.map blocks.hashTreeRoot).Nodup) (hslot : ∀ blk ∈ found, blocks.slot blk = slot)
    (blks : List Block) (hblks : ∀ blk ∈ blks, blk ∈ found) (state : Validation Block)
    (hfound : ∀ blk ∈ state.queue.storedAt slot, blk ∈ found) (h : Sound blocks state.queue) :
    Sound blocks
      (Sync.validateBlocks config blocks clock finalizedEpoch slot blks state).2.queue := by
  induction blks generalizing state with
  | nil => exact h
  | cons b blks ih =>
    have hrest (blk : Block) (hblk : blk ∈ blks) := hblks blk (mem_cons_of_mem _ hblk)
    have hb := hblks b mem_cons_self
    rw [Sync.validateBlocks]
    by_cases hold : blocks.parentRoot b ∈ state.oldBlockRoots ∨
        finalizedEpoch > 0 ∧ toEpoch config slot ≤ finalizedEpoch
    · rw [if_pos hold]
      obtain rfl := hslot b hb
      dsimp only
      generalize clock state.tick = now, clock (state.tick + 1) = later
      have hserve : state.queue.deleteBlockFromPendingQueue config blocks now later (blocks.slot b)
          b (blocks.hashTreeRoot b) = serve config blocks state.queue (.delete b now later) := rfl
      rw [hserve]
      -- a block with the same root was found with it, and is the same block
      have hkeeps : KeepsMarks blocks state.queue (.delete b now later) := by
        refine .inr fun blk hblk hroot ↦ ?_
        exact inj_on_of_nodup_map hnodup (hfound blk ((h.1.visible _ _).2 blk hblk)) hb hroot
      have hdeleted : Sound blocks (serve config blocks state.queue (.delete b now later)).2 :=
        ⟨h.delete.1, h.delete.2.2 hkeeps⟩
      cases hres : (serve config blocks state.queue (.delete b now later)).1 with
      | error err => exact hdeleted
      | ok =>
        exact ih hrest _ (fun blk hblk ↦ hfound blk (mem_storedAt_of_delete hblk)) hdeleted
    · rw [if_neg hold]
      exact ih hrest state hfound h

theorem Sound.validateSlots (clock : ℕ → Time) (finalizedEpoch : Epoch) (slots : List Slot)
    (state : Validation Block) (h : Sound blocks state.queue) :
    Sound blocks (Sync.validateSlots config blocks clock finalizedEpoch slots state).2.queue := by
  induction slots generalizing state with
  | nil => exact h
  | cons slot slots ih =>
    obtain ⟨-, hsub⟩ := h.1.visible (clock state.tick) slot
    have hblocks := Sound.validateBlocks config clock finalizedEpoch (h.1.nodup slot)
      (h.1.slot_eq slot) (state.queue.pendingBlocksInCache (clock state.tick) slot) hsub
      { state with tick := state.tick + 1 } (fun _ hblk ↦ hblk) h
    rw [Sync.validateSlots]
    grind

/-- What an operation does to a queue whose marks are in step: the lists stay well formed, and the
marks stay in step exactly if the operation meets the condition. -/
theorem Sound.serve (config : BeaconChainConfig) (h : Sound blocks queue)
    (operation : Operation Block) :
    WellFormed blocks (Sync.serve config blocks queue operation).2 ∧
      (Agrees blocks (Sync.serve config blocks queue operation).2 ↔
        KeepsMarks blocks queue operation) := by
  have hkeeps {queue' : PendingQueue Block} (hsound : Sound blocks queue') :
      WellFormed blocks queue' ∧ (Agrees blocks queue' ↔ True) :=
    ⟨hsound.1, iff_of_true hsound.2 trivial⟩
  cases operation with
  | insert b now later => exact h.insert
  | delete b now later => exact h.delete
  | validate finalizedEpoch clock rank =>
    exact hkeeps (Sound.validateSlots clock finalizedEpoch _ ⟨queue, ∅, 1⟩ h)
  | deleteExpired now => exact hkeeps (h.deleteExpired now)
  | clear => exact hkeeps (sound_empty blocks _)

end Steps

section Runs

variable {Block : Type} [DecidableEq Block] (config : BeaconChainConfig)
  (blocks : SignedBlocks Block)

/-- The queue after some operations. -/
def queueAfter (queue : PendingQueue Block) (operations : List (Operation Block)) :
    PendingQueue Block :=
  (execute (answer (serve config blocks)) queue operations).2

/-- The marks agree with the stored blocks after every operation of a sequence exactly if every
operation finds room in a list that has not expired, or deletes the only block of its root. -/
theorem agrees_after_every_operation_iff (operations : List (Operation Block)) :
    (∀ n, Agrees blocks (queueAfter config blocks (PendingQueue.new config) (operations.take n))) ↔
      AllAllowed (answer (serve config blocks)) (KeepsMarks blocks) (PendingQueue.new config)
        operations := by
  suffices hsuffices : ∀ queue : PendingQueue Block, Sound blocks queue →
      ((∀ n, Agrees blocks (queueAfter config blocks queue (operations.take n))) ↔
        AllAllowed (answer (serve config blocks)) (KeepsMarks blocks) queue operations) from
    hsuffices _ (sound_empty blocks _)
  induction operations with
  | nil =>
    intro queue h
    refine iff_of_true (fun n ↦ ?_) trivial
    rw [take_nil]
    exact h.2
  | cons operation operations ih =>
    intro queue h
    obtain ⟨hwf, hiff⟩ := h.serve config operation
    have hstep (n : ℕ) : queueAfter config blocks queue ((operation :: operations).take (n + 1)) =
        queueAfter config blocks (serve config blocks queue operation).2 (operations.take n) := rfl
    constructor
    · intro hall
      have hnext : Agrees blocks (serve config blocks queue operation).2 := hall 1
      exact ⟨hiff.1 hnext, (ih _ ⟨hwf, hnext⟩).1 fun n ↦ hstep n ▸ hall (n + 1)⟩
    · rintro ⟨hfirst, hrest⟩ n
      cases n with
      | zero => exact h.2
      | succ n => exact hstep n ▸ (ih _ ⟨hwf, hiff.2 hfirst⟩).2 hrest n

end Runs

/-- Messages and signatures that are numbers, all for slot 5. -/
def numberedBlocks : SignedBlocks (ℕ × ℕ) where
  slot _ := 5
  parentRoot _ := 0
  hashTreeRoot b := Fin.ofNat _ b.1
  slot_eq _ _ _ := rfl

/-- The marks and the stored blocks differ after a fourth block for a slot, after a block for a slot
whose list has expired, and after the deletion of a block that differs from a stored one only in its
signature. -/
theorem marks_fail :
    ¬ Agrees numberedBlocks (queueAfter mainnetConfig numberedBlocks (.new mainnetConfig)
      [.insert (1, 0) 7 7, .insert (2, 0) 7 7, .insert (3, 0) 7 7, .insert (4, 0) 7 7]) ∧
    ¬ Agrees numberedBlocks (queueAfter mainnetConfig numberedBlocks (.new mainnetConfig)
      [.insert (1, 0) 7 7, .insert (2, 0) (400 * second) (400 * second)]) ∧
    ¬ Agrees numberedBlocks (queueAfter mainnetConfig numberedBlocks (.new mainnetConfig)
      [.insert (1, 0) 7 7, .insert (2, 0) 7 7, .delete (1, 1) 7 7]) := by
  refine ⟨fun h ↦ ?_, fun h ↦ ?_, fun h ↦ ?_⟩
  · exact absurd ((h 4).1 (by decide +kernel)) (by decide +kernel)
  · exact absurd ((h 1).1 (by decide +kernel)) (by decide +kernel)
  · exact absurd ((h 1).2 (by decide +kernel)) (by decide +kernel)

end Prysm.Sync
