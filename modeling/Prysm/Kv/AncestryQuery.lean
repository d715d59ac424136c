import Prysm.Kv.Deletion

/-!
# Ancestry queries

`Blocks` with an ancestry query returns the chain of a block down to a slot.  It lists the roots of
the slots below the block once, from the highest slot on, and looks for the parent of the last block
that it found in the rest of the list.  The slices of the result are made for one block in each slot
of the range, as far as there is memory for them, and the number of these slots wraps around.
-/

namespace Prysm.Kv

open List Prysm.Library

variable {Validator : Type}

def errInvalidQuery : Error := .errorf "invalid query" []

structure AncestryQuery where
  earliest : Slot
  descendent : Slot × Root

def AncestryQuery.span (q : AncestryQuery) : ℕ :=
  if q.descendent.1 < q.earliest then 0 else (q.descendent.1 - q.earliest + 1) % 2 ^ 64

section Model

variable (store : Store Validator) (fits : ℕ → Bool)

/-- The loop of `blocksAncestryQuery` over the listed roots. -/
def collectAncestors (earliest : Slot) :
    List (Slot × Root) → Root → Slot → List SignedBeaconBlock → List Root →
      Except Fault (List SignedBeaconBlock × List Root)
  | [], _, _, blocks, roots => .ok (blocks, roots)
  | (slot, root) :: rest, proot, lowest, blocks, roots =>
    if slot < earliest then .ok (blocks, roots)
    else if lowest ≤ slot then collectAncestors earliest rest proot lowest blocks roots
    else if root = proot then do
      let p ← getBlock store root
      collectAncestors earliest rest p.parentRoot p.slot (blocks ++ [p]) (roots ++ [root])
    else collectAncestors earliest rest proot lowest blocks roots

/-- `blocksAncestryQuery`: `fits` says for which spans there is memory for the two slices. -/
def blocksAncestryQuery (q : AncestryQuery) : Except Fault (List SignedBeaconBlock × List Root) :=
  if q.span < 1 then .error (.error errInvalidQuery)
  else if !fits q.span then .error .panic
  else if q.span = 1 then do
    let descendent ← wrapf (getBlock store q.descendent.2) "descendent block not in db" []
    .ok ([descendent], [q.descendent.2])
  else do
    let sr ← slotRootsInRange store.db q.earliest (q.descendent.1 - 1) (-1)
    let descendent ← wrapf (getBlock store q.descendent.2) "descendent block not in db" []
    let (blocks, roots) ← collectAncestors store q.earliest sr descendent.parentRoot
      descendent.slot [descendent] [q.descendent.2]
    .ok (blocks.reverse, roots.reverse)

/-- `Blocks` with an ancestry query, which `GetAncestryQuery` checks. -/
def blocks (q : AncestryQuery) : Except Fault (List SignedBeaconBlock × List Root) :=
  if q.descendent.1 < q.earliest then
    .error (.error (.wrapf errInvalidQuery "descendent slot must come after earliest slot" []))
  else blocksAncestryQuery store fits q

end Model

section Chain

variable {store : Store Validator} {earliest : Slot}

/-- The blocks of a chain from a root downwards, as far as they are stored and not too early. -/
inductive StoredChain (store : Store Validator) (earliest : Slot) :
    Root → List SignedBeaconBlock → Prop
  | stop {root : Root} (hstop : ∀ blk, store.db.blocks.get root = some blk → blk.slot < earliest) :
    StoredChain store earliest root []
  | block {root : Root} {blk : SignedBeaconBlock} {blks : List SignedBeaconBlock}
    (hstored : store.db.Stored root) (hblk : getBlock store root = .ok blk)
    (hearliest : earliest ≤ blk.slot) (hrest : StoredChain store earliest blk.parentRoot blks) :
    StoredChain store earliest root (blk :: blks)

variable {headers : Headers} (hagrees : Agrees headers store)
include hagrees

theorem Agrees.getBlock_of_stored {root : Root} (hstored : store.db.Stored root) :
    ∃ blk, getBlock store root = .ok blk ∧ blk.root = root ∧ headers.Hashes blk := by
  have hget : ∃ blk, getBlock store root = .ok blk := by
    obtain ⟨blk, hblk⟩ := Db.stored_iff.1 hstored
    unfold getBlock
    rw [hblk]
    cases store.blockCache root <;> exact ⟨_, rfl⟩
  obtain ⟨blk, hblk⟩ := hget
  exact ⟨blk, hblk, hagrees.hashes_of_getBlock hblk⟩

theorem Agrees.stop {root : Root} (hlt : store.db.Stored root → headers.slot root < earliest) :
    StoredChain store earliest root [] := by
  obtain ⟨slots, parents, hidx⟩ := hagrees.indexed
  refine .stop fun blk hblk ↦ ?_
  obtain ⟨rfl, hslot, -⟩ := hidx.hashes root blk hblk
  exact hslot ▸ hlt (Db.stored_of_get hblk)

variable (hrising : ∀ root, store.db.Stored root → store.db.Stored (headers.parentRoot root) →
    headers.slot (headers.parentRoot root) < headers.slot root)
include hrising

/-- The loop finds the chain of the parent, if the list has the parent and all blocks below it. -/
theorem collectAncestors_eq {sr : List (Slot × Root)} {proot : Root} {lowest highest : Slot}
    (blocks : List SignedBeaconBlock) (roots : List Root)
    (hsorted : sr.Pairwise fun left right ↦ right.1 ≤ left.1)
    (hsr : ∀ slot root, (slot, root) ∈ sr →
      store.db.Stored root ∧ headers.slot root = slot ∧ earliest ≤ slot ∧ slot ≤ highest)
    (hlowest : store.db.Stored proot → headers.slot proot < lowest)
    (hlisted : store.db.Stored proot → ∀ root, store.db.Stored root →
      earliest ≤ headers.slot root → root = proot ∨ headers.slot root < headers.slot proot →
      (headers.slot root, root) ∈ sr) :
    ∃ blks, StoredChain store earliest proot blks ∧
      (lowest :: blks.map (·.slot)).IsChain (· > ·) ∧
      collectAncestors store earliest sr proot lowest blocks roots =
        .ok (blocks ++ blks, roots ++ blks.map (·.root)) := by
  induction sr generalizing proot lowest blocks roots with
  | nil =>
    refine ⟨[], hagrees.stop fun hstored ↦ not_le.1 fun hle ↦ ?_, .singleton _, by
      simp [collectAncestors]⟩
    exact not_mem_nil (hlisted hstored proot hstored hle (.inl rfl))
  | cons pair rest ih =>
    obtain ⟨slot, root⟩ := pair
    obtain ⟨hroot, heq, hearliest, -⟩ := hsr slot root mem_cons_self
    subst heq
    obtain ⟨hbelow, htail⟩ := pairwise_cons.1 hsorted
    have hrest (slot : Slot) (root : Root) (hpair : (slot, root) ∈ rest) :=
      hsr slot root (mem_cons_of_mem _ hpair)
    rw [collectAncestors, if_neg (not_lt.2 hearliest)]
    by_cases hpar : root = proot
    · subst hpar
      obtain ⟨blk, hblk, rfl, hslot, hnext⟩ := hagrees.getBlock_of_stored hroot
      have hrise := hrising _ hroot
      rw [← hnext, ← hslot] at hrise
      rw [← hslot] at hearliest hlisted hlowest ⊢
      obtain ⟨blks, hchain, hfalling, heq⟩ := ih (blocks ++ [blk]) (roots ++ [blk.root]) htail
        hrest hrise fun hstored other hother hle hbelow ↦ by
          have hlt : headers.slot other < blk.slot := by
            rcases hbelow with rfl | hlt
            · exact hrise hstored
            · exact hlt.trans (hrise hstored)
          exact (mem_cons.1 (hlisted hroot other hother hle (.inr hlt))).resolve_left fun heq ↦
            hlt.ne (Prod.mk.inj heq).1
      refine ⟨blk :: blks, .block hroot hblk hearliest hchain,
        isChain_cons_cons.2 ⟨hlowest hroot, hfalling⟩, ?_⟩
      rw [if_neg (not_le.2 (hlowest hroot)), if_pos rfl, hblk, ok_bind, heq]
      simp
    · -- A block below the parent is listed after the parent, so this is none.
      obtain ⟨blks, hchain, hfalling, heq⟩ := ih blocks roots htail hrest hlowest
        fun hstored other hother hle hbelow' ↦ by
          refine (mem_cons.1 (hlisted hstored other hother hle hbelow')).resolve_left fun heq ↦ ?_
          obtain ⟨-, rfl⟩ := Prod.mk.inj heq
          have hlt := hbelow'.resolve_left hpar
          rcases mem_cons.1 (hlisted hstored proot hstored (hle.trans hlt.le) (.inl rfl)) with
            heq | hmem
          · exact hpar (Prod.mk.inj heq).2.symm
          · exact absurd hlt (not_lt.2 (hbelow _ hmem))
      exact ⟨blks, hchain, hfalling, by rw [if_neg hpar, heq, ite_self]⟩

/-- An ancestry query for a stored block at its own slot, for which there is memory, returns its
chain in the order of the slots if and only if the number of slots does not wrap around. -/
theorem blocks_ancestry (fits : ℕ → Bool) (q : AncestryQuery)
    (hstored : store.db.Stored q.descendent.2)
    (hslot : headers.slot q.descendent.2 = q.descendent.1)
    (hearliest : q.earliest ≤ q.descendent.1) (huint : q.descendent.1 < 2 ^ 64)
    (hmemory : fits q.span = true) :
    (∃ blks, StoredChain store q.earliest q.descendent.2 blks ∧
      (blks.map (·.slot)).IsChain (· > ·) ∧
      blocks store fits q = .ok (blks.reverse, (blks.map (·.root)).reverse)) ↔
      q.descendent.1 - q.earliest + 1 < 2 ^ 64 := by
  obtain ⟨slots, parents, hidx⟩ := hagrees.indexed
  obtain ⟨earliest, slot, root⟩ := q
  dsimp only at *
  by_cases hspan : slot - earliest + 1 < 2 ^ 64
  swap
  · refine iff_of_false ?_ hspan
    rintro ⟨blks, -, -, hblocks⟩
    have hvalue : AncestryQuery.span ⟨earliest, slot, root⟩ = 0 := by
      rw [AncestryQuery.span, if_neg (not_lt.2 hearliest),
        show slot - earliest + 1 = 2 ^ 64 by lia, Nat.mod_self]
    rw [blocks, if_neg (not_lt.2 hearliest), blocksAncestryQuery, hvalue, if_pos one_pos] at hblocks
    cases hblocks
  refine iff_of_true ?_ hspan
  obtain ⟨blk, hblk, rfl, hown, hpar⟩ := hagrees.getBlock_of_stored hstored
  obtain rfl : blk.slot = slot := hown.trans hslot
  have hrise := hrising _ hstored
  rw [← hpar, hslot] at hrise
  have hvalue : AncestryQuery.span ⟨earliest, blk.slot, blk.root⟩ = blk.slot - earliest + 1 := by
    rw [AncestryQuery.span, if_neg (not_lt.2 hearliest), Nat.mod_eq_of_lt hspan]
  rw [blocks, if_neg (not_lt.2 hearliest), blocksAncestryQuery, hmemory, hvalue, if_neg (by lia),
    if_neg (by simp)]
  rcases hearliest.eq_or_lt with rfl | hlt
  · refine ⟨[blk], .block hstored hblk le_rfl (hagrees.stop hrise), .singleton _, ?_⟩
    rw [Nat.sub_self, if_pos rfl, hblk, wrapf_ok, ok_bind]
    rfl
  · obtain ⟨pairs, hpairs, hsorted, -, hmem⟩ := hidx.exists_listedPairs (Nat.le_sub_one_of_lt hlt)
    have hlisted (hnext : store.db.Stored blk.parentRoot) (other : Root)
        (hother : store.db.Stored other) (hle : earliest ≤ headers.slot other)
        (hbelow : other = blk.parentRoot ∨ headers.slot other < headers.slot blk.parentRoot) :
        (headers.slot other, other) ∈ pairs := by
      refine (hmem _ other).2 ⟨hother, rfl, hle, Nat.le_sub_one_of_lt ?_⟩
      rcases hbelow with rfl | hlt
      · exact hrise hnext
      · exact hlt.trans (hrise hnext)
    obtain ⟨blks, hchain, hfalling, heq⟩ := collectAncestors_eq hagrees hrising [blk] [blk.root]
      hsorted (fun slot root hpair ↦ (hmem slot root).1 hpair) hrise hlisted
    refine ⟨blk :: blks, .block hstored hblk hearliest hchain, hfalling, ?_⟩
    have hall : collected (-1) pairs 0 = pairs := by simp [collected]
    rw [if_neg (by lia), hpairs, hall, ok_bind, hblk, wrapf_ok, ok_bind, heq, ok_bind]
    simp

end Chain

theorem agrees_saveChain : Agrees chainHeaders (deletionStore [saveChain]) :=
  @Agrees.serve ℕ ℕ numberCodec false chainHeaders (Store.open Db.empty)
    ⟨⟨_, _, indexed_empty chainHeaders none none⟩, nofun⟩ saveChain (by decide +kernel)

theorem blocks_ancestry_chain :
    ∃ store : Store ℕ, ∃ blks, StoredChain store 1 childBlock.root blks ∧
      (blks.map (·.slot)).IsChain (· > ·) ∧
      blocks store (· < 2 ^ 30) ⟨1, 2, childBlock.root⟩ =
        .ok (blks.reverse, (blks.map (·.root)).reverse) := by
  have hnone : ¬ (deletionStore [saveChain]).db.Stored firstBlock.parentRoot := by decide +kernel
  refine ⟨_, (blocks_ancestry agrees_saveChain (fun root _ hpar ↦ ?_) (· < 2 ^ 30)
    ⟨1, 2, childBlock.root⟩ (by decide +kernel) rfl (by decide) (by decide) (by decide)).2
      (by decide)⟩
  by_cases hchild : root = childBlock.root
  · exact hchild ▸ by decide
  · rw [show chainHeaders.parentRoot root = firstBlock.parentRoot from if_neg hchild] at hpar
    exact absurd hpar hnone

/-- A store with one block. -/
def storeAt (slot : Slot) : Store ℕ :=
  deletionStore [.blocks (.saveROBlocks noFault [{ firstBlock with slot := slot }] true)]

/-- The query for all slots is refused. -/
theorem blocks_ancestry_far :
    blockRootsBySlot (storeAt (2 ^ 64 - 1)).db (2 ^ 64 - 1) = .ok [firstBlock.root] ∧
      blocks (storeAt (2 ^ 64 - 1)) (fun _ ↦ true) ⟨0, 2 ^ 64 - 1, firstBlock.root⟩ =
        .error (.error errInvalidQuery) := by
  decide +kernel

end Prysm.Kv
