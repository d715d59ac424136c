import Prysm.Sync.PendingBlocks

/-!
# Old pending blocks

`validatePendingSlots` deletes the blocks up to the finalized epoch together with their descendants,
which it finds by the roots of the blocks deleted so far.  As the slots are visited in the order of
an unordered map, a descendant can be visited before its ancestor, and then stays.
-/

namespace Prysm.Sync

open List Function Prysm.Library ExpiringCache PendingQueue

section

variable {Block : Type} (config : BeaconChainConfig) (blocks : SignedBlocks Block)
  (held : Slot → List Block) (finalizedEpoch : Epoch)

/-- A block up to the finalized epoch, or with such an ancestor reached through held blocks. -/
@[mk_iff]
inductive Old : Block → Prop
  | epoch {b : Block} : toEpoch config (blocks.slot b) ≤ finalizedEpoch → Old b
  | parent {b p : Block} {slot : Slot} : p ∈ held slot →
    blocks.parentRoot b = blocks.hashTreeRoot p → Old p → Old b

/-- A block that the loops delete: one up to the finalized epoch, or with a deleted parent in a slot
that is visited before. -/
@[mk_iff]
inductive Reached (rank : Slot → ℕ) : Block → Prop
  | epoch {b : Block} : toEpoch config (blocks.slot b) ≤ finalizedEpoch → Reached rank b
  | parent {b p : Block} {slot : Slot} : p ∈ held slot →
    blocks.parentRoot b = blocks.hashTreeRoot p → rank slot < rank (blocks.slot b) →
    Reached rank p → Reached rank b

variable {config blocks held finalizedEpoch} in
theorem Reached.old {rank : Slot → ℕ} {b : Block}
    (hreached : Reached config blocks held finalizedEpoch rank b) :
    Old config blocks held finalizedEpoch b := by
  induction hreached with
  | epoch hepoch => exact .epoch hepoch
  | parent hp heq _ _ ih => exact .parent hp heq ih

/-- What the loops keep of the held blocks, up to a rank: those that are deleted go, and their roots
are known. -/
structure Pruned (gone : Block → Prop) (rank : Slot → ℕ) (bound : ℕ)
    (pending : Slot → List Block) (roots : Finset Root) : Prop where
  subset : ∀ slot, pending slot ⊆ held slot
  deleted : ∀ slot, ∀ b ∈ held slot, b ∈ pending slot ∨ gone b ∧ blocks.hashTreeRoot b ∈ roots
  visited : ∀ root ∈ roots, ∃ p slot, p ∈ held slot ∧ root = blocks.hashTreeRoot p ∧
    rank slot ≤ bound ∧ gone p

variable [DecidableEq Block]

/-- A deletion at one time takes the block and nothing else. -/
theorem visible_delete (queue : PendingQueue Block) (now : Time) (slot : Slot) (b : Block)
    (root : Root) :
    ∃ after, queue.deleteBlockFromPendingQueue config blocks now now slot b root = (.ok (), after) ∧
      ∀ other c, c ∈ after.pendingBlocksInCache now other ↔
        c ∈ queue.pendingBlocksInCache now other ∧ (other = slot → c ≠ b) := by
  simp only [deleteBlockFromPendingQueue]
  split_ifs with hempty hnone
  · exact ⟨queue, rfl, by grind⟩
  · refine ⟨_, rfl, fun other c ↦ ?_⟩
    simp only [pendingBlocksInCache, onEvicted, get_delete] at hnone ⊢
    grind
  · cases hget : queue.slotToPendingBlocks.get now slot with
    | none => simp [pendingBlocksInCache, hget] at hempty
    | some blks =>
      refine ⟨_, by rw [ExpiringCache.replace, hget]; rfl, fun other c ↦ ?_⟩
      simp only [pendingBlocksInCache, get_set]
      grind

variable {config blocks held finalizedEpoch} {now : Time} {gone : Block → Prop} {rank : Slot → ℕ}
  (hgone : ∀ slot, ∀ b ∈ held slot, gone b ↔ toEpoch config slot ≤ finalizedEpoch ∨
    ∃ p other, p ∈ held other ∧ blocks.parentRoot b = blocks.hashTreeRoot p ∧
      rank other < rank slot ∧ gone p)
  (hne : ∀ slot other, ∀ b ∈ held slot, ∀ p ∈ held other,
    blocks.parentRoot b = blocks.hashTreeRoot p → rank other ≠ rank slot)
include hgone hne

/-- The loop over blocks of a slot, where the roots of the deleted parents are known. -/
theorem validateBlocks_spec {slot : Slot} (blks : List Block) (state : Validation Block)
    (hpruned : Pruned blocks held gone rank (rank slot) (state.queue.pendingBlocksInCache now)
      state.oldBlockRoots)
    (hheld : blks ⊆ held slot) (hknown : ∀ b ∈ blks, gone b →
      blocks.parentRoot b ∈ state.oldBlockRoots ∨
        finalizedEpoch > 0 ∧ toEpoch config slot ≤ finalizedEpoch) :
    ∃ after, validateBlocks config blocks (fun _ ↦ now) finalizedEpoch slot blks state =
        (.ok (), after) ∧
      Pruned blocks held gone rank (rank slot) (after.queue.pendingBlocksInCache now)
        after.oldBlockRoots ∧
      (∀ other, after.queue.pendingBlocksInCache now other ⊆
        state.queue.pendingBlocksInCache now other) ∧
      ∀ b ∈ blks, b ∈ after.queue.pendingBlocksInCache now slot → ¬ gone b := by
  induction blks generalizing state with
  | nil => exact ⟨state, rfl, hpruned, fun _ _ ↦ id, by simp⟩
  | cons b blks ih =>
    rw [forall_mem_cons] at hknown
    obtain ⟨hb, hheld⟩ := cons_subset.1 hheld
    rw [validateBlocks]
    split_ifs with hdelete
    · have hbgone : gone b := by
        refine (hgone slot b hb).2 (hdelete.symm.imp And.right fun hroot ↦ ?_)
        obtain ⟨p, other, hp, heq, hle, hpgone⟩ := hpruned.visited _ hroot
        exact ⟨p, other, hp, heq, lt_of_le_of_ne hle (hne slot other b hb p hp heq), hpgone⟩
      obtain ⟨queue, hrun, hqueue⟩ := visible_delete config blocks state.queue now slot b
        (blocks.hashTreeRoot b)
      simp only [hrun]
      obtain ⟨after, hrest, hpruned', hsub, hstays⟩ := ih
        ⟨queue, insert (blocks.hashTreeRoot b) state.oldBlockRoots, state.tick + 2⟩
        ⟨fun other c hc ↦ hpruned.subset other ((hqueue other c).1 hc).1, fun other c hc ↦ by
          by_cases heq : c = b
          · exact .inr ⟨heq ▸ hbgone, heq ▸ Finset.mem_insert_self _ _⟩
          · exact (hpruned.deleted other c hc).imp
              (fun hc ↦ (hqueue other c).2 ⟨hc, fun _ ↦ heq⟩) (.imp_right Finset.mem_insert_of_mem),
          (Finset.forall_mem_insert _ _ _).2
            ⟨⟨b, slot, hb, rfl, le_rfl, hbgone⟩, hpruned.visited⟩⟩ hheld
        fun c hc hcgone ↦ (hknown.2 c hc hcgone).imp_left Finset.mem_insert_of_mem
      refine ⟨after, hrest, hpruned', fun other c hc ↦ ((hqueue other c).1 (hsub other hc)).1, ?_⟩
      exact forall_mem_cons.2
        ⟨fun hb ↦ absurd rfl (((hqueue slot b).1 (hsub slot hb)).2 rfl), hstays⟩
    · obtain ⟨after, hrest, hpruned', hsub, hstays⟩ := ih state hpruned hheld hknown.2
      exact ⟨after, hrest, hpruned', hsub, forall_mem_cons.2 ⟨fun _ ↦ mt hknown.1 hdelete, hstays⟩⟩

variable (hpos : 0 < finalizedEpoch)
include hpos

theorem validateSlots_spec (slots : List Slot) (state : Validation Block) {bound : ℕ}
    (hpruned : Pruned blocks held gone rank bound (state.queue.pendingBlocksInCache now)
      state.oldBlockRoots)
    (hsorted : slots.Pairwise fun left right ↦ rank left ≤ rank right)
    (hbound : ∀ slot ∈ slots, bound ≤ rank slot)
    (hvisited : ∀ slot ∉ slots, ∀ b ∈ state.queue.pendingBlocksInCache now slot, ¬ gone b) :
    ∃ after, validateSlots config blocks (fun _ ↦ now) finalizedEpoch slots state =
        (.ok (), after) ∧
      ∀ slot b, b ∈ after.queue.pendingBlocksInCache now slot ↔ b ∈ held slot ∧ ¬ gone b := by
  induction slots generalizing state bound with
  | nil =>
    refine ⟨state, rfl, fun slot b ↦ ⟨fun hb ↦ ?_, fun hb ↦ ?_⟩⟩
    · exact ⟨hpruned.subset slot hb, hvisited slot not_mem_nil b hb⟩
    · exact (hpruned.deleted slot b hb.1).resolve_right fun h ↦ hb.2 h.1
  | cons slot slots ih =>
    obtain ⟨hfirst, hsorted⟩ := pairwise_cons.1 hsorted
    have hle := hbound slot mem_cons_self
    obtain ⟨after, hrun, hpruned', hsub, hstays⟩ := validateBlocks_spec hgone hne
      (state.queue.pendingBlocksInCache now slot) { state with tick := state.tick + 1 }
      ⟨hpruned.subset, hpruned.deleted, fun root hroot ↦ by
        obtain ⟨p, other, hp, heq, hother, hpgone⟩ := hpruned.visited root hroot
        exact ⟨p, other, hp, heq, hother.trans hle, hpgone⟩⟩
      (hpruned.subset slot) fun b hb hbgone ↦ by
        have hbheld := hpruned.subset slot hb
        refine ((hgone slot b hbheld).1 hbgone).symm.imp ?_ fun hepoch ↦ ⟨hpos, hepoch⟩
        rintro ⟨p, other, hp, heq, hlt, hpgone⟩
        -- the slot of the parent was visited before
        have hnot : other ∉ slot :: slots := by grind
        exact heq ▸ ((hpruned.deleted other p hp).resolve_left
          fun hpending ↦ hvisited other hnot p hpending hpgone).2
    rw [validateSlots]
    simp only [hrun]
    refine ih after hpruned' hsorted hfirst fun other hother c hc ↦ ?_
    by_cases heq : other = slot
    · exact hstays c (heq ▸ hsub other hc) (heq ▸ hc)
    · exact hvisited other (by simp [heq, hother]) c (hsub other hc)

omit hgone hne in
/-- If all accesses read one time, the queue keeps exactly the blocks that are not old if and only
if every old block above the finalized epoch has an old parent in a slot that is visited before. -/
theorem validatePendingSlots_exact {queue : PendingQueue Block}
    (hslot : ∀ slot, ∀ b ∈ queue.pendingBlocksInCache now slot, blocks.slot b = slot)
    (hrising : ∀ slot other, ∀ b ∈ queue.pendingBlocksInCache now slot,
      ∀ p ∈ queue.pendingBlocksInCache now other,
        blocks.parentRoot b = blocks.hashTreeRoot p → other < slot)
    (hrank : rank.Injective) :
    (∃ after,
      queue.validatePendingSlots config blocks (fun _ ↦ now) finalizedEpoch rank = (.ok (), after) ∧
        ∀ slot b, b ∈ after.pendingBlocksInCache now slot ↔
          b ∈ queue.pendingBlocksInCache now slot ∧
            ¬ Old config blocks (queue.pendingBlocksInCache now) finalizedEpoch b) ↔
      ∀ slot, ∀ b ∈ queue.pendingBlocksInCache now slot,
        Old config blocks (queue.pendingBlocksInCache now) finalizedEpoch b →
          toEpoch config slot ≤ finalizedEpoch ∨
            ∃ p other, p ∈ queue.pendingBlocksInCache now other ∧
              blocks.parentRoot b = blocks.hashTreeRoot p ∧ rank other < rank slot ∧
              Old config blocks (queue.pendingBlocksInCache now) finalizedEpoch p := by
  have hgone (slot : Slot) (b : Block) (hb : b ∈ queue.pendingBlocksInCache now slot) :=
    hslot slot b hb ▸
      reached_iff config blocks (queue.pendingBlocksInCache now) finalizedEpoch rank b
  obtain ⟨last, hrun, hqueue⟩ := validateSlots_spec hgone
    (fun slot other b hb p hp heq ↦ hrank.ne (hrising slot other b hb p hp heq).ne) hpos _
    ⟨queue, ∅, 1⟩ ⟨fun _ _ ↦ id, fun _ _ ↦ .inl, by simp⟩
    (pairwise_insertionSort _ (queue.slotToPendingBlocks.keys now)) (fun _ _ ↦ Nat.zero_le _)
    fun slot hnot b hb ↦ by
      rw [(perm_insertionSort _ _).mem_iff] at hnot
      rw [pendingBlocksInCache, Option.not_isSome_iff_eq_none.1 (mt mem_keys hnot)] at hb
      cases hb
  have hvalidate : queue.validatePendingSlots config blocks (fun _ ↦ now) finalizedEpoch rank =
      (.ok (), last.queue) := by
    rw [validatePendingSlots, hrun]
  constructor
  · rintro ⟨after, hafter, hexact⟩ slot b hb hold
    obtain rfl : last.queue = after := (Prod.mk.inj (hvalidate.symm.trans hafter)).2
    have hreached := not_not.1 fun hnot ↦
      ((hexact slot b).1 ((hqueue slot b).2 ⟨hb, hnot⟩)).2 hold
    refine ((hgone slot b hb).1 hreached).imp_right ?_
    rintro ⟨p, other, hp, heq, hlt, hpgone⟩
    exact ⟨p, other, hp, heq, hlt, hpgone.old⟩
  · intro hparent
    -- by induction on the rank of the slot
    have hreached (n : ℕ) (slot : Slot) (hn : rank slot = n) (b : Block)
        (hb : b ∈ queue.pendingBlocksInCache now slot)
        (hold : Old config blocks (queue.pendingBlocksInCache now) finalizedEpoch b) :
        Reached config blocks (queue.pendingBlocksInCache now) finalizedEpoch rank b := by
      induction n using Nat.strong_induction_on generalizing slot b with
      | _ n ih =>
        refine (hgone slot b hb).2 ((hparent slot b hb hold).imp_right ?_)
        rintro ⟨p, other, hp, heq, hlt, hpold⟩
        exact ⟨p, other, hp, heq, hlt, ih _ (hn ▸ hlt) other rfl p hp hpold⟩
    refine ⟨last.queue, hvalidate, fun slot b ↦ (hqueue slot b).trans ?_⟩
    exact and_congr_right fun hb ↦ not_congr ⟨Reached.old, hreached _ slot rfl b hb⟩

end

/-- A block and its child. -/
def twoBlocks : SignedBlocks Bool where
  slot child := if child then 64 else 63
  parentRoot child := if child then 1 else 0
  hashTreeRoot child := if child then 2 else 1
  slot_eq := by decide

/-- The last block of epoch 1 and its child. -/
def oldAndChild : PendingQueue Bool :=
  ⟨⟨(Bucket.empty.put 63 ⟨[false], 0⟩).put 64 ⟨[true], 0⟩, 0⟩, ∅⟩

theorem validatePendingSlots_exact_oldAndChild : ∃ after,
    oldAndChild.validatePendingSlots mainnetConfig twoBlocks (fun _ ↦ 7) 1 id = (.ok (), after) ∧
      ∀ slot b, b ∈ after.pendingBlocksInCache 7 slot ↔
        b ∈ oldAndChild.pendingBlocksInCache 7 slot ∧
          ¬ Old mainnetConfig twoBlocks (oldAndChild.pendingBlocksInCache 7) 1 b := by
  have hslot (slot : Slot) (b : Bool) (hb : b ∈ oldAndChild.pendingBlocksInCache 7 slot) :
      twoBlocks.slot b = slot := by
    simp only [oldAndChild, pendingBlocksInCache, ExpiringCache.get, Bucket.get_put] at hb
    split_ifs at hb with hchild hold
    · rw [← hchild, mem_singleton.1 hb]
      rfl
    · rw [← hold, mem_singleton.1 hb]
      rfl
    · cases hb
  refine (validatePendingSlots_exact (by decide) hslot (fun slot other b hb p hp ↦ ?_)
    injective_id).2 fun slot b hb _ ↦ ?_
  · rw [← hslot slot b hb, ← hslot other p hp]
    clear hb hp
    decide +revert
  · obtain rfl := hslot slot b hb
    cases b with
    | false => exact .inl (by decide)
    | true => exact .inr ⟨false, 63, by decide +kernel, rfl, by decide, .epoch (by decide)⟩

/-- The child of an old block stays if its slot is visited first. -/
theorem validatePendingSlots_keeps_child :
    (oldAndChild.validatePendingSlots mainnetConfig twoBlocks (fun _ ↦ 7) 1
        (Equiv.swap 63 64)).1 = .ok () ∧
      true ∈ (oldAndChild.validatePendingSlots mainnetConfig twoBlocks (fun _ ↦ 7) 1
        (Equiv.swap 63 64)).2.pendingBlocksInCache 7 64 ∧
      Old mainnetConfig twoBlocks (oldAndChild.pendingBlocksInCache 7) 1 true := by
  refine ⟨by decide +kernel, by decide +kernel, ?_⟩
  exact .parent (show false ∈ oldAndChild.pendingBlocksInCache 7 63 by decide +kernel) rfl
    (.epoch (by decide))

end Prysm.Sync
