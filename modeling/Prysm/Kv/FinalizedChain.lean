import Prysm.Kv.Backfill

/-!
# The finalized chain

The finalized chain goes from the finalized block over the origin to the lowest backfilled block.
The blocks of the chain have an entry each, which names the parent and the child on the chain.  A
checkpoint save first deletes the entries from the epoch of the previous checkpoint on and then
walks down to a block with an entry, or to the origin.  It does not restore the deleted entries of
blocks below the origin.
-/

namespace Prysm.Kv

open List Prysm.Library Nat Bucket

variable {Validator : Type} {db' : Db Validator} {i k t : ℕ}

/-! ### Chains of parents -/

/-- The root that is `k` blocks below another one. -/
def Headers.below (headers : Headers) (root : Root) (k : ℕ) : Root := headers.parentRoot^[k] root

/-- The roots of blocks that may be saved.  A block is above its parent, if this is one of them. -/
structure BlockTree extends Headers where
  known : Root → Prop
  slot_lt : ∀ root, known root → known (parentRoot root) → slot (parentRoot root) < slot root

instance : Coe BlockTree Headers where coe tree := tree.toHeaders

section Chains

variable {headers : Headers} {tree : BlockTree} {db : Db Validator} {slots : Slot → List Root}
  {parents : Root → List Root} {root top : Root} {n : ℕ}

@[simp]
theorem Headers.below_zero (headers : Headers) (root : Root) : headers.below root 0 = root := rfl

theorem Headers.below_succ (headers : Headers) (root : Root) (k : ℕ) :
    headers.below root (k + 1) = headers.parentRoot (headers.below root k) :=
  Function.iterate_succ_apply' _ _ _

theorem Headers.below_add (headers : Headers) (root : Root) (k m : ℕ) :
    headers.below root (k + m) = headers.below (headers.below root m) k :=
  Function.iterate_add_apply _ _ _ _

theorem Indexed.parent_iff (hidx : Indexed headers db slots parents) {child parent : Root} :
    db.Parent child parent ↔ db.Stored child ∧ headers.parentRoot child = parent := by
  constructor
  · rintro ⟨blk, hblk, rfl⟩
    obtain ⟨rfl, -, hpar⟩ := hidx.hashes child blk hblk
    exact ⟨Db.stored_of_get hblk, hpar.symm⟩
  · rintro ⟨hstored, rfl⟩
    obtain ⟨blk, hblk⟩ := Db.stored_iff.1 hstored
    obtain ⟨rfl, -, hpar⟩ := hidx.hashes child blk hblk
    exact ⟨blk, hblk, hpar⟩

/-- The ancestors of a block are the roots below it, as far as the blocks are stored. -/
theorem Indexed.ancestor_iff (hidx : Indexed headers db slots parents) {ancestor : Root} :
    db.Ancestor root ancestor ↔
      ∃ k, headers.below root k = ancestor ∧ ∀ i < k, db.Stored (headers.below root i) := by
  constructor
  · intro hanc
    induction hanc using Relation.ReflTransGen.head_induction_on with
    | refl => exact ⟨0, rfl, fun i hi ↦ absurd hi (not_lt_zero i)⟩
    | head hpar _ ih =>
      obtain ⟨hstored, rfl⟩ := hidx.parent_iff.1 hpar
      obtain ⟨k, hk, hrest⟩ := ih
      refine ⟨k + 1, (headers.below_add _ k 1).trans hk, fun i hi ↦ ?_⟩
      cases i with
      | zero => exact hstored
      | succ i =>
        exact hrest i (by omega)
  · rintro ⟨k, rfl, hstored⟩
    induction k with
    | zero => exact .refl
    | succ k ih =>
      exact (ih fun i hi ↦ hstored i (by omega)).tail (hidx.parent_iff.2
        ⟨hstored k (by omega), (headers.below_succ root k).symm⟩)

section

variable (hknown : ∀ k ≤ n, tree.known (tree.below top k))
include hknown

variable {j : ℕ}

/-- The slots fall along a chain of known blocks. -/
theorem BlockTree.slot_below_lt (hij : i < j) (hj : j ≤ n) :
    tree.slot (tree.below top j) < tree.slot (tree.below top i) := by
  have hstep (k : ℕ) (hk : k + 1 ≤ n) :
      tree.slot (tree.below top (k + 1)) < tree.slot (tree.below top k) := by
    have hpar := hknown (k + 1) hk
    rw [tree.below_succ] at hpar ⊢
    exact tree.slot_lt _ (hknown k (by omega)) hpar
  induction j, hij using le_induction with
  | base => exact hstep i hj
  | succ j _ ih => exact (hstep j hj).trans (ih (by omega))

theorem BlockTree.slot_below_le (hij : i ≤ j) (hj : j ≤ n) :
    tree.slot (tree.below top j) ≤ tree.slot (tree.below top i) := by
  rcases eq_or_lt_of_le hij with rfl | hlt
  · exact le_rfl
  · exact (slot_below_lt hknown hlt hj).le

theorem BlockTree.below_ne (hij : i ≠ j) (hi : i ≤ n) (hj : j ≤ n) :
    tree.below top i ≠ tree.below top j := by
  intro heq
  rcases lt_or_gt_of_ne hij with hlt | hgt
  · exact absurd (slot_below_lt hknown hlt hj) (by rw [heq]; exact lt_irrefl _)
  · exact absurd (slot_below_lt hknown hgt hi) (by rw [heq]; exact lt_irrefl _)

end

/-- A block of a chain is no ancestor of a lower one. -/
theorem BlockTree.not_ancestor (hidx : Indexed tree db slots parents)
    (hknown : ∀ root, db.Stored root → tree.known root) (hk : k < t)
    (hstored : ∀ i ≤ t, db.Stored (tree.below top i)) :
    ¬ db.Ancestor (tree.below top t) (tree.below top k) := by
  intro hanc
  obtain ⟨j, hj, hrest⟩ := hidx.ancestor_iff.1 hanc
  rw [← tree.below_add] at hj
  have hchain (i : ℕ) (hi : i ≤ j + t) : db.Stored (tree.below top i) := by
    rcases lt_or_ge t i with hlow | hhigh
    · obtain ⟨d, rfl⟩ := Nat.exists_eq_add_of_le' hlow.le
      rcases lt_or_ge d j with hd | hd
      · rw [tree.below_add]
        exact hrest d hd
      · grind
    · exact hstored i hhigh
  exact below_ne (fun i hi ↦ hknown _ (hchain i hi)) (by omega) le_rfl (by omega) hj

end Chains

/-! ### The walk -/

/-- The child of a block on the chain of a finalized block, which has none. -/
def Headers.child (headers : Headers) (top : Root) : ℕ → Option Root
  | 0 => none
  | k + 1 => some (headers.below top k)

/-- The entry of a block on the chain names its parent and its child. -/
def Headers.Entry (headers : Headers) (bkt : Bucket Root FinalizedValue) (top : Root) (k : ℕ) :
    Prop :=
  bkt.get (headers.below top k) =
    some (.container (headers.below top (k + 1)) (headers.child top k))

open BlockTree

variable {headers : Headers} {root : Root} {db : Db Validator}

section Walk

variable {tree : BlockTree} {top : Root} {n m : ℕ} {bkt : Bucket Root FinalizedValue}

/-- What the walk finds below the block that it has come to: no entry, or one that is linked to the
rest of the chain. -/
def Headers.Rest (headers : Headers) (bkt : Bucket Root FinalizedValue) (top : Root) (n k : ℕ) :
    Prop :=
  bkt.get (headers.below top k) = none ∨
    (∃ childRoot, bkt.get (headers.below top k) =
      some (.container (headers.below top (k + 1)) childRoot)) ∧
      (k < n → headers.Entry bkt top (k + 1))

/-- Below an entry the whole chain has its entries. -/
theorem Headers.Rest.entry {k : ℕ} (hrest : ∀ i, k < i → i ≤ n → headers.Rest bkt top n i)
    (hentry : headers.Entry bkt top (k + 1)) {i : ℕ} (hi : k < i) (hin : i ≤ n) :
    headers.Entry bkt top i := by
  induction i, hi using le_induction with
  | base => exact hentry
  | succ i hi ih =>
    have hi' := ih (by omega)
    rcases hrest i hi (by omega) with hnone | ⟨-, hnext⟩
    · rw [Headers.Entry, hnone] at hi'
      cases hi'
    · exact hnext hin

theorem Headers.Entry.put (hentry : headers.Entry bkt top k) (hne : root ≠ headers.below top k)
    (value : FinalizedValue) : headers.Entry (bkt.put root value) top k := by
  rw [Headers.Entry, get_put, if_neg hne]
  exact hentry

theorem Headers.entry_put (headers : Headers) (bkt : Bucket Root FinalizedValue) (top : Root)
    (k : ℕ) : headers.Entry (bkt.put (headers.below top k)
      (.container (headers.below top (k + 1)) (headers.child top k))) top k := by
  rw [Headers.Entry, get_put, if_pos rfl]

theorem Headers.Rest.put (hrest : headers.Rest bkt top n k) (hne : root ≠ headers.below top k)
    (hnext : k < n → root ≠ headers.below top (k + 1)) (value : FinalizedValue) :
    headers.Rest (bkt.put root value) top n k := by
  unfold Headers.Rest at *
  rw [get_put, if_neg hne]
  exact hrest.imp_right fun h ↦ ⟨h.1, fun hk ↦ (h.2 hk).put (hnext hk) value⟩

/-- The walk from the block `k` of the chain links the chain. -/
theorem entry_walkAncestry {slots : Slot → List Root} {parents : Root → List Root}
    (hidx : Indexed tree db slots parents)
    (hknown : ∀ k ≤ n, tree.known (tree.below top k)) (hm : m ≤ n) {genesisRoot : Option Root}
    (hgen : ∀ k ≤ m, some (tree.below top k) ≠ genesisRoot) {fuel : ℕ} (hk : k ≤ m)
    {bkt' : Bucket Root FinalizedValue} (hdone : ∀ i < k, tree.Entry bkt top i)
    (hrest : ∀ i, k < i → i ≤ n → tree.Rest bkt top n i)
    (horigin : m < n → tree.Entry bkt top (m + 1))
    (hwalk : walkAncestry genesisRoot (some (tree.below top m)) db.blocks.get fuel
      (tree.below top k) (tree.child top k) bkt = .ok bkt') (hi : i ≤ n) :
    tree.Entry bkt' top i := by
  induction fuel generalizing k bkt with
  | zero => cases hwalk
  | succ fuel ih =>
    rcases walkAncestry_eq_ok hwalk with ⟨hroot, -⟩ | ⟨-, blk, put, hblk, rfl, hstep⟩
    · exact absurd hroot (hgen k hk)
    obtain ⟨-, -, hpar⟩ := hidx.hashes _ blk hblk
    rw [(hidx.hashes _ blk hblk).1, ← tree.below_succ] at hpar
    rw [hpar] at hstep
    have hne {j : ℕ} (hj : j ≠ k) (hjn : j ≤ n) : tree.below top k ≠ tree.below top j :=
      below_ne hknown hj.symm (by omega) hjn
    -- The entries up to the block itself are set, and those below it are as before.
    have hput {j : ℕ} (hj : j ≤ k) : tree.Entry (bkt.put (tree.below top k)
        (.container (tree.below top (k + 1)) (tree.child top k))) top j := by
      rcases eq_or_lt_of_le hj with rfl | hlt
      · exact tree.entry_put bkt top j
      · exact (hdone j hlt).put (hne (by omega) (by omega)) _
    have hbelow (j : ℕ) (hj : k < j) (hjn : j ≤ n) : tree.Rest (bkt.put (tree.below top k)
        (.container (tree.below top (k + 1)) (tree.child top k))) top n j :=
      (hrest j hj hjn).put (hne (by omega) hjn) (fun hlt ↦ hne (by omega) hlt) _
    rcases hstep with ⟨hroot, rfl⟩ | ⟨hroot, ⟨parentRoot, childRoot, hget, rfl⟩ | ⟨-, hwalk⟩⟩
    · obtain rfl : k = m := by
        by_contra hkm
        exact below_ne hknown hkm (by omega) hm (Option.some.inj hroot)
      rcases lt_or_ge k i with hlt | hle
      · exact Headers.Rest.entry hbelow
          ((horigin (by omega)).put (hne (by omega) (by omega)) _) hlt hi
      · exact hput hle
    · have hkm : k < m := lt_of_le_of_ne hk fun heq ↦ hroot (heq ▸ rfl)
      have hother {j : ℕ} (hj : j ≠ k + 1) (hjn : j ≤ n) :
          tree.below top (k + 1) ≠ tree.below top j := below_ne hknown hj.symm (by omega) hjn
      rcases hbelow (k + 1) (by omega) (by omega) with hnone | ⟨⟨childRoot, hentry⟩, hnext⟩
      · rw [hnone] at hget
        cases hget
      rw [hentry] at hget
      obtain ⟨rfl, -⟩ := FinalizedValue.container.inj (Option.some.inj hget)
      rcases lt_trichotomy i (k + 1) with hlt | rfl | hgt
      · exact (hput (by omega)).put (hother (by omega) hi) _
      · exact tree.entry_put _ top (k + 1)
      · exact (Headers.Rest.entry (fun j hj ↦ hbelow j (by omega)) (hnext (by omega)) hgt hi).put
          (hother (by omega) hi) _
    · have hkm : k < m := lt_of_le_of_ne hk fun heq ↦ hroot (heq ▸ rfl)
      exact ih hkm (fun j hj ↦ hput (by omega)) (fun j hj ↦ hbelow j (by omega))
        (fun hlt ↦ (horigin hlt).put (hne (by omega) hlt) _) hwalk

end Walk

/-! ### The invariant -/

/-- The blocks of a chain are stored and linked in the index. -/
structure Linked (headers : Headers) (db : Db Validator) (top : Root) (n : ℕ) : Prop where
  stored : ∀ k ≤ n, db.Stored (headers.below top k)
  entry : ∀ k ≤ n, headers.Entry db.finalizedBlockRootsIndex top k

/-- The finalized chain: the origin is the block `m` and the lowest backfilled block the block `n`
below the finalized block. -/
structure FinalizedChain (tree : BlockTree) (origin : Root) (updater : StatusUpdater Validator)
    (finalized : Checkpoint) (status : BackfillStatus) (m n : ℕ) : Prop where
  finalized_eq : updater.store.db.finalizedCheckpoint = some finalized
  status_eq : updater.bs = some status
  origin_eq : status.originRoot = origin
  low_eq : status.lowRoot = tree.below finalized.root n
  lowParent_eq : status.lowParentRoot = tree.below finalized.root (n + 1)
  le : m ≤ n
  origin_below : tree.below finalized.root m = origin
  linked : Linked tree updater.store.db finalized.root n

/-- The invariant of the runs. -/
structure Backfilled (config : BeaconChainConfig) (tree : BlockTree) (origin : Root)
    (updater : StatusUpdater Validator) : Prop where
  marked : MarksRecent config tree updater.store
  known : ∀ root, updater.store.db.Stored root → tree.known root
  genesis : ∀ root, updater.store.db.genesisBlockRoot = some root →
    tree.slot root < tree.slot origin
  originRoot : updater.store.db.originCheckpointBlockRoot = some origin
  chain : ∃ finalized status m n, FinalizedChain tree origin updater finalized status m n

/-- The checkpoint save deletes no entries that its walk does not restore: the finalized block is
not after the epochs whose entries are deleted, and a backfilled block is before them. -/
def RestoresChain (config : BeaconChainConfig) (headers : Headers)
    (updater : StatusUpdater Validator) (checkpoint : Checkpoint) : Prop :=
  ∀ finalized status, updater.store.db.finalizedCheckpoint = some finalized →
    updater.bs = some status →
    toEpoch config (headers.slot finalized.root) ≤ checkpoint.epoch + 1 ∧
      (status.lowRoot = status.originRoot ∨
        toEpoch config (headers.slot (headers.parentRoot status.originRoot)) < finalized.epoch)

section Checkpoint

variable {config : BeaconChainConfig} {tree : BlockTree} {origin : Root}
  {updater : StatusUpdater Validator} {cp finalized : Checkpoint}
  {status : BackfillStatus} {m n : ℕ}

theorem toEpoch_mono {slot slot' : Slot} (hle : slot ≤ slot') :
    toEpoch config slot ≤ toEpoch config slot' :=
  Nat.div_le_div_right hle

section

variable (hback : Backfilled config tree origin updater)
include hback

/-- The chain of a checkpoint that descends from the finalized one. -/
theorem Backfilled.stored_below (hchain : FinalizedChain tree origin updater finalized status m n)
    (hdesc : Descends updater.store.db cp) :
    ∃ t, tree.below cp.root t = finalized.root ∧
      ∀ k ≤ n + t, updater.store.db.Stored (tree.below cp.root k) := by
  obtain ⟨slots, parents, hidx⟩ := hback.marked.indexed
  obtain ⟨hanc, -⟩ := hdesc.2 finalized hchain.finalized_eq
  obtain ⟨t, ht, hstored⟩ := hidx.ancestor_iff.1 hanc
  refine ⟨t, ht, fun k hk ↦ ?_⟩
  rcases lt_or_ge k t with hlt | hge
  · exact hstored k hlt
  · obtain ⟨i, rfl⟩ := Nat.exists_eq_add_of_le' hge
    rw [tree.below_add, ht]
    exact hchain.linked.stored i (by omega)

/-- The entries that a checkpoint save leaves before its walk. -/
theorem Backfilled.get_stale {stale : List Root}
    (hend : config.slotsPerEpoch * (cp.epoch + 1) + config.slotsPerEpoch - 1 < 2 ^ 64)
    (hstale : blockRoots config updater.store.db finalized.epoch (cp.epoch + 1) = .ok stale)
    (hstored : updater.store.db.Stored root) :
    (stale.foldl delete updater.store.db.finalizedBlockRootsIndex).get root =
      if finalized.epoch ≤ toEpoch config (tree.slot root) ∧
        toEpoch config (tree.slot root) ≤ cp.epoch + 1 then none
      else updater.store.db.finalizedBlockRootsIndex.get root := by
  obtain ⟨slots, parents, hidx⟩ := hback.marked.indexed
  rw [get_foldl_delete, map_id']
  refine if_congr ?_ rfl rfl
  rw [hidx.mem_blockRoots hend hstale root]
  exact and_iff_right hstored

/-- A checkpoint save links the chain of the new finalized block. -/
theorem Backfilled.entry_finalizeCheckpoint
    (hchain : FinalizedChain tree origin updater finalized status m n)
    (hslots : 2 * config.slotsPerEpoch ≤ 2 ^ 64) (hdesc : Descends updater.store.db cp)
    (hrestores : RestoresChain config tree updater cp)
    (ht : tree.below cp.root t = finalized.root)
    (hstored : ∀ k ≤ n + t, updater.store.db.Stored (tree.below cp.root k))
    (hok : finalizeCheckpoint config updater.store cp = .ok db') (hi : i ≤ n + t) :
    tree.Entry db'.finalizedBlockRootsIndex cp.root i := by
  obtain ⟨slots, parents, hidx⟩ := hback.marked.indexed
  obtain ⟨hafter, hbefore⟩ := hrestores finalized status hchain.finalized_eq hchain.status_eq
  obtain ⟨states, stale, walked, recent, hstale, hwalked, hrecent, rfl⟩ :=
    finalizeCheckpoint_eq_ok hok
  obtain ⟨hnext, hend⟩ := recent_epochs hslots hrecent
  rw [hnext, hback.marked.previous, hchain.finalized_eq] at hstale
  have hknown (k : ℕ) (hk : k ≤ n + t) := hback.known _ (hstored k hk)
  have hbelow (k : ℕ) : tree.below cp.root (k + t) = tree.below finalized.root k := by
    rw [tree.below_add, ht]
  have horigin : tree.below cp.root (m + t) = origin := (hbelow m).trans hchain.origin_below
  have hm := hchain.le
  set start := stale.foldl delete updater.store.db.finalizedBlockRootsIndex
  have hget (k : ℕ) (hk : k ≤ n + t) := hback.get_stale hend hstale (hstored k hk)
  -- Above the previous finalized block only marks had an entry.
  have habove (k : ℕ) (hk : k < t) : start.get (tree.below cp.root k) = none := by
    rw [hget k (by omega)]
    split_ifs with hdeleted
    · rfl
    by_contra hentry
    obtain ⟨other, hother, hmarks⟩ := hback.marked.entries _ (Option.isSome_iff_ne_none.2 hentry)
    obtain rfl := Option.some.inj (hchain.finalized_eq.symm.trans hother)
    rcases hmarks with hanc | ⟨-, hlow, hhigh⟩
    · rw [← ht] at hanc
      exact not_ancestor hidx hback.known hk (fun j hj ↦ hstored j (by omega)) hanc
    · exact hdeleted ⟨hlow, hhigh.trans (succ_le_succ (hdesc.2 _ hother).2)⟩
  -- From it on the entries before the epoch of the previous cp are kept.
  have hkept (k : ℕ) (hk : k + 1 ≤ n) (hepoch : toEpoch config
      (tree.slot (tree.below cp.root (k + 1 + t))) < finalized.epoch) :
      tree.Entry start cp.root (k + 1 + t) := by
    have hentry := hchain.linked.entry (k + 1) hk
    have hchild : tree.child cp.root (k + 1 + t) = tree.child finalized.root (k + 1) := by
      rw [add_right_comm k 1 t, Headers.child, Headers.child, hbelow]
    rw [Headers.Entry, hget (k + 1 + t) (by omega), if_neg fun h ↦ absurd h.1 (not_le.2 hepoch),
      hchild, add_right_comm (k + 1) t 1, hbelow, hbelow]
    exact hentry
  have hrest (k : ℕ) (hk : k ≤ n + t) : tree.Rest start cp.root (n + t) k := by
    rcases lt_or_ge k t with hlt | hge
    · exact .inl (habove k hlt)
    obtain ⟨j, rfl⟩ := Nat.exists_eq_add_of_le' hge
    by_cases hepoch : toEpoch config (tree.slot (tree.below cp.root (j + t))) < finalized.epoch
    · refine .inr ⟨⟨tree.child finalized.root j, ?_⟩, fun hlt ↦ ?_⟩
      · rw [hget _ hk, if_neg fun h ↦ absurd h.1 (not_le.2 hepoch), hbelow, add_right_comm, hbelow]
        exact hchain.linked.entry j (by omega)
      · rw [add_right_comm]
        refine hkept j (by omega) (lt_of_le_of_lt (toEpoch_mono ?_) hepoch)
        exact slot_below_le hknown (by omega) (by omega)
    · have hhigh : toEpoch config (tree.slot (tree.below cp.root (j + t))) ≤
          cp.epoch + 1 := by
        refine le_trans (toEpoch_mono ?_) hafter
        rw [← ht]
        exact slot_below_le hknown hge hk
      exact .inl ((hget _ hk).trans (if_pos ⟨not_lt.1 hepoch, hhigh⟩))
  refine get_upsertRecent_of_some ?_ recent
  rw [funext hback.marked.cache.block_eq, hback.originRoot, ← horigin] at hwalked
  refine entry_walkAncestry hidx hknown (by omega) (fun k hk hroot ↦ ?_) (zero_le _)
    (fun j hj ↦ absurd hj (not_lt_zero j)) (fun j _ hj ↦ hrest j hj) (fun hlt ↦ ?_) hwalked hi
  · have hslot := hback.genesis _ hroot.symm
    rw [← horigin] at hslot
    exact absurd (slot_below_le hknown hk (by omega)) (not_le.2 hslot)
  · rw [add_right_comm]
    refine hkept m (by omega) ?_
    rcases hbefore with hlow | hbefore
    · rw [hchain.low_eq, hchain.origin_eq, ← horigin, ← hbelow n] at hlow
      exact absurd hlow (below_ne hknown (by omega) le_rfl (by omega))
    · rwa [add_right_comm, tree.below_succ, horigin, ← hchain.origin_eq]

theorem Backfilled.saveFinalizedCheckpoint (hslots : 2 * config.slotsPerEpoch ≤ 2 ^ 64)
    (hdesc : Descends updater.store.db cp)
    (hrestores : RestoresChain config tree updater cp) (fault : Option Error) :
    Backfilled config tree origin { updater with
      store := (Kv.saveFinalizedCheckpoint config updater.store fault cp).2 } := by
  have hmarked := hback.marked.saveFinalizedCheckpoint hslots hdesc fault
  cases hres : Kv.saveFinalizedCheckpoint config updater.store fault cp with
  | mk returned store' =>
    cases returned with
    | error err =>
      rw [Store.update_eq_error hres]
      exact hback
    | ok _ =>
      rw [hres] at hmarked
      obtain ⟨db', hok, rfl⟩ := Store.update_eq_ok hres
      obtain ⟨finalized, status, m, n, hchain⟩ := hback.chain
      obtain ⟨t, ht, hstored⟩ := hback.stored_below hchain hdesc
      have hentry (k : ℕ) (hk : k ≤ n + t) :=
        hback.entry_finalizeCheckpoint hchain hslots hdesc hrestores ht hstored hok hk
      have hbelow (k : ℕ) : tree.below cp.root (k + t) = tree.below finalized.root k := by
        rw [tree.below_add, ht]
      obtain ⟨states, stale, walked, recent, -, -, -, rfl⟩ := finalizeCheckpoint_eq_ok hok
      refine ⟨hmarked, hback.known, hback.genesis, hback.originRoot, cp, status, m + t, n + t, ?_⟩
      exact {
        finalized_eq := rfl
        status_eq := hchain.status_eq
        origin_eq := hchain.origin_eq
        low_eq := hchain.low_eq.trans (hbelow n).symm
        lowParent_eq := by
          rw [hchain.lowParent_eq, ← hbelow, add_right_comm]
        le := Nat.add_le_add_right hchain.le t
        origin_below := (hbelow m).trans hchain.origin_below
        linked := ⟨hstored, hentry⟩ }

end

end Checkpoint

/-! ### Batches of blocks -/

/-- The blocks continue the chain below its block `n`, the last of them first. -/
def Headers.Continues (headers : Headers) (top : Root) (n : ℕ) : List SignedBeaconBlock → Prop
  | [] => True
  | blk :: blks => blk.root = headers.below top (n + blks.length + 1) ∧
      blk.parentRoot = headers.below top (n + blks.length + 2) ∧ headers.Continues top n blks

section Batches

variable {headers : Headers} {tree : BlockTree} {top : Root} {n : ℕ}
  {bkt : Bucket Root FinalizedValue} {blks : List SignedBeaconBlock}

/-- A batch that connects to the chain continues it. -/
theorem continues_of_checkParents {last : SignedBeaconBlock} (hparents : checkParents blks = .ok ())
    (hlast : blks.getLast? = some last) (hroot : last.root = headers.below top (n + 1))
    (hhashes : ∀ blk ∈ blks, headers.Hashes blk) : headers.Continues top n blks := by
  have hpar {blk : SignedBeaconBlock} (hblk : headers.Hashes blk) {k : ℕ}
      (hk : blk.root = headers.below top k) : blk.parentRoot = headers.below top (k + 1) := by
    rw [hblk.2, hk, headers.below_succ]
  induction blks with
  | nil => trivial
  | cons blk blks ih =>
    have hblk := hhashes blk mem_cons_self
    cases blks with
    | nil =>
      obtain rfl := Option.some.inj hlast
      exact ⟨hroot, hpar hblk hroot, trivial⟩
    | cons next blks =>
      rw [checkParents] at hparents
      split_ifs at hparents with hne
      have hnext := ih hparents hlast fun other hother ↦ hhashes other (mem_cons_of_mem _ hother)
      have hself : blk.root = headers.below top (n + blks.length + 2) :=
        (not_not.1 hne).trans hnext.2.1
      exact ⟨hself, hpar hblk hself, hnext⟩

theorem map_fst_backfillContainers (finalizedChildRoot : Root) (blks : List SignedBeaconBlock) :
    (backfillContainers finalizedChildRoot blks).map (·.1) = blks.map (·.root) := by
  induction blks with
  | nil => rfl
  | cons blk blks ih =>
    cases blks with
    | nil => rfl
    | cons next blks => exact congrArg (blk.root :: ·) ih

theorem get_foldl_put_of_not_mem {entries : List (Root × FinalizedValue)}
    (hroot : root ∉ entries.map (·.1)) :
    (entries.foldl (fun bkt entry ↦ bkt.put entry.1 entry.2) bkt).get root = bkt.get root := by
  induction entries generalizing bkt with
  | nil => rfl
  | cons entry entries ih =>
    rw [map_cons, mem_cons, not_or] at hroot
    rw [foldl_cons, ih hroot.2, get_put, if_neg (Ne.symm hroot.1)]

theorem Headers.Continues.mem_iff (hcont : headers.Continues top n blks) :
    root ∈ blks.map (·.root) ↔ ∃ k, n < k ∧ k ≤ n + blks.length ∧ root = headers.below top k := by
  induction blks with
  | nil =>
    grind
  | cons blk blks ih =>
    rw [map_cons, mem_cons, ih hcont.2.2, length_cons]
    constructor
    · rintro (rfl | ⟨k, hlow, hhigh, rfl⟩)
      · exact ⟨n + blks.length + 1, by omega, by omega, hcont.1⟩
      · exact ⟨k, hlow, by omega, rfl⟩
    · rintro ⟨k, hlow, hhigh, rfl⟩
      rcases eq_or_lt_of_le hhigh with rfl | hlt
      · exact .inl hcont.1.symm
      · exact .inr ⟨k, hlow, by omega, rfl⟩

/-- The containers of a batch link it to the chain. -/
theorem entry_backfillContainers (hcont : tree.Continues top n blks)
    (hknown : ∀ k ≤ n + blks.length, tree.known (tree.below top k))
    (hentry : ∀ k ≤ n, tree.Entry bkt top k) (hk : k ≤ n + blks.length) :
    tree.Entry ((backfillContainers (tree.below top n) blks).foldl
      (fun bkt entry ↦ bkt.put entry.1 entry.2) bkt) top k := by
  induction blks generalizing bkt with
  | nil => exact hentry k hk
  | cons blk blks ih =>
    obtain ⟨hroot, hpar, hrest⟩ := hcont
    rw [length_cons, ← add_assoc] at hknown hk
    have hne {j : ℕ} (hj : j ≤ n + blks.length) : blk.root ≠ tree.below top j := by
      rw [hroot]
      exact below_ne hknown (by omega) le_rfl (by omega)
    cases blks with
    | nil =>
      rcases eq_or_lt_of_le hk with rfl | hlt
      · rw [backfillContainers, foldl_cons, foldl_nil, hroot, hpar]
        exact tree.entry_put bkt top (n + 1)
      · exact (hentry k (Nat.lt_succ_iff.1 hlt)).put (hne (Nat.lt_succ_iff.1 hlt)) _
    | cons next blks =>
      rw [backfillContainers, foldl_cons]
      rcases eq_or_lt_of_le hk with rfl | hlt
      · -- The entry of the lowest block is put first and stays.
        rw [Headers.Entry, get_foldl_put_of_not_mem, hroot, hpar, hrest.1]
        · exact tree.entry_put bkt top _
        · rw [map_fst_backfillContainers, hrest.mem_iff]
          rintro ⟨i, -, hhigh, heq⟩
          grind
      · exact ih hrest (fun j hj ↦ hknown j (by omega))
          (fun j hj ↦ (hentry j hj).put (hne (by omega)) _) (by omega)

end Batches

section FillBack

variable {config : BeaconChainConfig} {tree : BlockTree} {origin : Root}
  {updater : StatusUpdater Validator} {finalized : Checkpoint} {status : BackfillStatus} {m n : ℕ}

/-- The chain only needs the blocks that are stored and the index. -/
theorem Linked.mono {top : Root} (hlinked : Linked headers db top n)
    (hkept : ∀ root blk, db.blocks.get root = some blk → db'.blocks.get root = some blk)
    (hidx : db'.finalizedBlockRootsIndex = db.finalizedBlockRootsIndex) :
    Linked headers db' top n := by
  refine ⟨fun k hk ↦ ?_, fun k hk ↦ ?_⟩
  · obtain ⟨blk, hblk⟩ := Db.stored_iff.1 (hlinked.stored k hk)
    exact Db.stored_of_get (hkept _ blk hblk)
  · rw [hidx]
    exact hlinked.entry k hk

theorem Backfilled.blocks (hback : Backfilled config tree origin updater)
    (hslots : 2 * config.slotsPerEpoch ≤ 2 ^ 64) {call : BlockCall}
    (hfails : FailsUncached updater.store call)
    (hblks : ∀ blk ∈ call.blks, tree.Hashes blk ∧ tree.known blk.root) :
    Backfilled config tree origin { updater with store := (call.serve updater.store).2 } := by
  have hallowed : FinalityAllowed tree updater.store (.blocks call) :=
    ⟨hfails, fun blk hblk ↦ (hblks blk hblk).1⟩
  have hmarked := hback.marked.serve hslots hallowed
  obtain ⟨finalized, status, m, n, hchain⟩ := hback.chain
  obtain ⟨blocks, slotBkt, parentBkt, hdb⟩ := sameButBlocks_serve updater.store call
  have hlinked : Linked tree (call.serve updater.store).2.db finalized.root n :=
    hchain.linked.mono (fun _ _ ↦ get_serve call) (by rw [hdb])
  refine ⟨hmarked, fun root hstored ↦ ?_, ?_, ?_, finalized, status, m, n, ?_⟩
  · rcases stored_serve call hstored with hold | ⟨blk, hblk, rfl⟩
    · exact hback.known root hold
    · exact (hblks blk hblk).2
  · rw [hdb]
    exact hback.genesis
  · rw [hdb]
    exact hback.originRoot
  · refine { hchain with finalized_eq := ?_, linked := hlinked }
    rw [hdb]
    exact hchain.finalized_eq

/-- What a call of `fillBack` does: nothing, the save of the blocks, or also the update of the
index, and after that also of the status. -/
theorem fillBack_cases (updater : StatusUpdater Validator) (env : BackfillEnvironment)
    (blks : List SignedBeaconBlock) :
    (fillBack updater env blks).2 = updater ∨
      ∃ saved, saved = (saveROBlocks updater.store env.blocks blks false).2 ∧
        ((fillBack updater env blks).2 = { updater with store := saved } ∨
          ∃ status lowest highest db, updater.bs = some status ∧ blks.head? = some lowest ∧
            blks.getLast? = some highest ∧ highest.root = status.lowParentRoot ∧
            (saveROBlocks updater.store env.blocks blks false).1 = .ok () ∧
            checkParents blks = .ok () ∧
            connectBatch saved.db blks highest status.lowRoot = .ok db ∧
            ((fillBack updater env blks).2 = { updater with store := { saved with db := db } } ∨
              ∃ status', status'.originRoot = status.originRoot ∧ status'.lowRoot = lowest.root ∧
                status'.lowParentRoot = lowest.parentRoot ∧
                (fillBack updater env blks).2 = { updater with
                  store := { saved with db := { db with backfillStatus := some status' } }
                  bs := some status' })) := by
  unfold fillBack
  cases hbs : updater.bs with
  | none => exact .inl rfl
  | some status =>
    dsimp only
    split
    · next lowest highest hlowest hhighest =>
      split_ifs with hroot
      · exact .inl rfl
      split
      · exact .inl rfl
      refine .inr ⟨_, rfl, ?_⟩
      cases hsave : saveROBlocks updater.store env.blocks blks false with
      | mk returned saved =>
        cases returned with
        | error err => exact .inl rfl
        | ok _ =>
          dsimp only
          cases hidx : backfillFinalizedIndex saved env.index blks status.lowRoot with
          | mk returned store =>
            unfold backfillFinalizedIndex at hidx
            rw [hhighest] at hidx
            cases hparents : checkParents blks with
            | error err =>
              grind
            | ok _ =>
              rw [hparents] at hidx
              cases returned with
              | error err =>
                rw [Store.update_eq_error hidx]
                exact .inl rfl
              | ok _ =>
                obtain ⟨db, hdb, rfl⟩ := Store.update_eq_ok hidx
                refine .inr ⟨status, lowest, highest, db, rfl, hlowest, hhighest, not_not.1 hroot,
                  rfl, rfl, hdb, ?_⟩
                unfold StatusUpdater.saveStatus saveBackfillStatus Store.update
                grind
    · exact .inl rfl

variable {blks : List SignedBeaconBlock}

/-- The entry of the lowest block is found, and the batch is connected to it. -/
theorem FinalizedChain.connectBatch
    (hchain : FinalizedChain tree origin updater finalized status m n)
    (hidx : db.finalizedBlockRootsIndex = updater.store.db.finalizedBlockRootsIndex)
    {highest : SignedBeaconBlock} (hroot : highest.root = status.lowParentRoot) :
    Kv.connectBatch db blks highest status.lowRoot = .ok { db with
      finalizedBlockRootsIndex := (backfillContainers status.lowRoot blks).foldl
        (fun bkt entry ↦ bkt.put entry.1 entry.2) db.finalizedBlockRootsIndex } := by
  have hentry := hchain.linked.entry n le_rfl
  rw [Headers.Entry, ← hidx, ← hchain.low_eq, ← hchain.lowParent_eq] at hentry
  rw [Kv.connectBatch, hentry]
  exact if_neg (not_not.2 hroot.symm)

section

variable (hback : Backfilled config tree origin updater)
include hback

section

variable (hchain : FinalizedChain tree origin updater finalized status m n)
include hchain

section

variable (hcont : tree.Continues finalized.root n blks)
  (hstored : ∀ blk ∈ blks, updater.store.db.Stored blk.root)
include hcont hstored

/-- The chain with the batch below it. -/
theorem Backfilled.connect :
    Linked tree { updater.store.db with
      finalizedBlockRootsIndex := (backfillContainers status.lowRoot blks).foldl
        (fun bkt entry ↦ bkt.put entry.1 entry.2) updater.store.db.finalizedBlockRootsIndex }
      finalized.root (n + blks.length) := by
  have hbelow (k : ℕ) (hk : k ≤ n + blks.length) :
      updater.store.db.Stored (tree.below finalized.root k) := by
    rcases lt_or_ge n k with hlow | hhigh
    · obtain ⟨blk, hblk, hroot⟩ := mem_map.1 (hcont.mem_iff.2 ⟨k, hlow, hk, rfl⟩)
      exact hroot ▸ hstored blk hblk
    · exact hchain.linked.stored k hhigh
  refine ⟨hbelow, fun k hk ↦ ?_⟩
  rw [hchain.low_eq]
  exact entry_backfillContainers hcont (fun j hj ↦ hback.known _ (hbelow j hj))
    hchain.linked.entry hk

/-- The entries of a batch belong to ancestors of the finalized block. -/
theorem Backfilled.marked_connect :
    MarksRecent config tree { updater.store with
      db := { updater.store.db with
        finalizedBlockRootsIndex := (backfillContainers status.lowRoot blks).foldl
          (fun bkt entry ↦ bkt.put entry.1 entry.2)
          updater.store.db.finalizedBlockRootsIndex } } := by
  have hlinked := hback.connect hchain hcont hstored
  obtain ⟨slots, parents, hidx⟩ := hback.marked.indexed
  refine ⟨⟨slots, parents, hidx.congr rfl rfl rfl⟩, hback.marked.cache,
    hback.marked.previous, fun root hroot ↦ ?_⟩
  by_cases hmem : root ∈ blks.map (·.root)
  · obtain ⟨k, -, hk, rfl⟩ := hcont.mem_iff.1 hmem
    refine ⟨finalized, hchain.finalized_eq, .inl (hidx.ancestor_iff.2 ⟨k, rfl, ?_⟩)⟩
    exact fun i hi ↦ hlinked.stored i (by omega)
  · rw [get_foldl_put_of_not_mem (by rwa [map_fst_backfillContainers])] at hroot
    exact hback.marked.entries root hroot

end

end

theorem Backfilled.fillBack (hslots : 2 * config.slotsPerEpoch ≤ 2 ^ 64) (env : BackfillEnvironment)
    (hblks : ∀ blk ∈ blks, tree.Hashes blk ∧ tree.known blk.root) :
    Backfilled config tree origin (Kv.fillBack updater env blks).2 := by
  rcases fillBack_cases updater env blks with hsame | ⟨saved, hsaved, hrest⟩
  · rw [hsame]
    exact hback
  have hsave : Backfilled config tree origin { updater with store := saved } := by
    have hcall : BlockCall.serve updater.store (.saveROBlocks env.blocks blks false) =
        Kv.saveROBlocks updater.store env.blocks blks false := rfl
    rw [hsaved, ← hcall]
    exact hback.blocks hslots (nofun : false = true → _) hblks
  rcases hrest with hsame |
    ⟨status, lowest, highest, db, hstatus, hlowest, hhighest, hroot, hok, hparents, hdb, hend⟩
  · rw [hsame]
    exact hsave
  obtain ⟨finalized, other, m, n, hchain⟩ := hsave.chain
  obtain rfl : status = other := Option.some.inj (hstatus.symm.trans hchain.status_eq)
  have hcont : tree.Continues finalized.root n blks :=
    continues_of_checkParents hparents hhighest (hroot.trans hchain.lowParent_eq)
      fun blk hblk ↦ (hblks blk hblk).1
  have hstored (blk : SignedBeaconBlock) (hblk : blk ∈ blks) : saved.db.Stored blk.root := by
    rw [hsaved]
    exact isSome_get_saveROBlocks hok hblk
  have hmarked := hsave.marked_connect hchain hcont hstored
  have hlinked := hsave.connect hchain hcont hstored
  rw [hchain.connectBatch rfl hroot] at hdb
  obtain rfl := Except.ok.inj hdb
  rcases hend with hend | ⟨status', horigin, hlow, hlowParent, hend⟩
  · rw [hend]
    refine ⟨hmarked, hsave.known, hsave.genesis, hsave.originRoot, finalized, status, m, n, ?_⟩
    exact { hchain with
      linked := ⟨fun k hk ↦ hlinked.stored k (by omega), fun k hk ↦ hlinked.entry k (by omega)⟩ }
  · rw [hend]
    obtain ⟨slots, parents, hidx⟩ := hmarked.indexed
    obtain ⟨rest, rfl⟩ := head?_eq_some_iff.1 hlowest
    refine ⟨⟨⟨slots, parents, hidx.congr rfl rfl rfl⟩, hmarked.cache, hmarked.previous,
      hmarked.entries⟩, hsave.known, hsave.genesis, hsave.originRoot, finalized, status', m,
      n + (rest.length + 1), ?_⟩
    exact { hchain with
      status_eq := rfl
      origin_eq := horigin.trans hchain.origin_eq
      low_eq := hlow.trans hcont.1
      lowParent_eq := hlowParent.trans hcont.2.1
      le := hchain.le.trans (le_add_right _ _)
      linked := ⟨hlinked.stored, hlinked.entry⟩ }

end

end FillBack

end Prysm.Kv

