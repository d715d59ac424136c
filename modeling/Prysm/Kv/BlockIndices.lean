import Prysm.Kv.Blocks

/-!
# The indices of the stored blocks

The reads that go through an index of the blocks, and the invariant that relates the indices to the
stored blocks: the slot index lists exactly the roots of the stored blocks, each once and under its
own slot, and the parent index lists under a root only stored blocks with this parent.

The root of a block is a hash of it, so it determines the slot and the parent root.  `Headers` gives
them for every root.
-/

namespace Prysm.Kv

open List Function Prysm.Library Db

variable {Validator : Type}

def errInvalidSlotRange : Error := .errorf "invalid end slot and start slot provided" []

/-- `unmarshalBlock` on the value of a key in `blocksBucket`. -/
def unmarshalBlock (enc : Option SignedBeaconBlock) : Except Fault SignedBeaconBlock :=
  match enc with
  | none => .error (.error (.wrapf errNotFound "empty block bytes in db" []))
  | some blk => .ok blk

variable (db : Db Validator) {root : Root}

def blockRootsBySlot (slot : Slot) : Except Fault (List Root) :=
  match db.blockSlotIndices.get slot with
  | some value =>
    wrapf (splitRoots value) "corrupt value in block slot index for slot=%d" [.number slot]
  | none => .ok []

def blocksBySlot (slot : Slot) : Except Fault (List SignedBeaconBlock) := do
  let roots ← wrapf (blockRootsBySlot db slot) "could not retrieve blocks by slot" []
  roots.mapM fun root ↦ unmarshalBlock (db.blocks.get root)

/-- `lookupValuesForIndices` for the parent index. -/
def rootsOfParent (parentRoot : Root) : List Root :=
  (records hashLength ((db.blockParentRootIndices.get parentRoot).getD [])).map toBytes32

/-- `Blocks` with a filter that sets the parent root. -/
def blocksByParentRoot (parentRoot : Root) : Except Fault (List SignedBeaconBlock) :=
  (rootsOfParent db parentRoot).mapM fun root ↦
    wrapf (unmarshalBlock (db.blocks.get root)) "could not unmarshal block with key %#x"
      [.bytes root]

/-- `IntersectionByteSlices` of two slices, where `m` counts the slices with an element. -/
def intersectionByteSlices (s others : List Root) : List Root :=
  (others.foldl (fun (m, inter) k ↦
    if m k = 1 then (Function.update m k 2, inter ++ [k]) else (m, inter))
    ((fun k ↦ if k ∈ s then 1 else 0 : Root → ℕ), [])).2

/-- The range of a filter.  An end of a range of slots that is not set is 0. -/
inductive SlotRange
  | slots (startSlot endSlot : Slot)
  | epochs (startEpoch endEpoch : Epoch)

/-- A filter for blocks.  A step that is not set is 0. -/
structure QueryFilter where
  parentRoot : Option Root
  range : Option SlotRange
  slotStep : ℕ

section

variable (config : BeaconChainConfig)

/-- The first and the last slot that a range is read as. -/
def SlotRange.ends : SlotRange → Except Fault (Slot × Slot)
  | .slots startSlot endSlot => .ok (startSlot, endSlot)
  | .epochs startEpoch endEpoch => do
    let startSlot ← epochStart config startEpoch
    let endSlot ← epochStart config endEpoch
    .ok (startSlot, (endSlot + config.slotsPerEpoch - 1) % 2 ^ 64)

namespace QueryFilter

variable (fits : ℕ → Bool) (f : QueryFilter)

def step : ℕ := if f.slotStep = 0 then 1 else f.slotStep

/-- `blockRootsBySlotRange`, which makes a slice with a place for each step: `fits` says whether
there is memory for a slice. -/
def blockRootsBySlotRange : Except Fault (List Root) :=
  match f.range with
  | none => .ok []
  | some range => do
    let (startSlot, endSlot) ← range.ends config
    if endSlot < startSlot then .error (.error errInvalidSlotRange)
    else if !fits ((endSlot - startSlot) / f.step) then .error .panic
    else .ok (((db.blockSlotIndices.range startSlot endSlot).filter fun entry ↦
      (entry.1 - startSlot) % f.step = 0).flatMap fun entry ↦
        (records hashLength entry.2).map toBytes32)

def blockRootsByFilter : Except Fault (List Root) := do
  let rootsBySlotRange ← f.blockRootsBySlotRange db config fits
  match f.parentRoot with
  | none => .ok rootsBySlotRange
  | some parentRoot =>
    let indices := rootsOfParent db parentRoot
    .ok (if rootsBySlotRange = [] then indices else intersectionByteSlices rootsBySlotRange indices)

def blockRoots : Except Fault (List Root) :=
  wrapf (f.blockRootsByFilter db config fits) "could not retrieve block roots" []

end QueryFilter

/-- `BlockRoots` with a filter that sets the epochs, where the roots fit in memory. -/
def blockRoots (db : Db Validator) (startEpoch endEpoch : Epoch) : Except Fault (List Root) :=
  QueryFilter.blockRoots db config (fun _ ↦ true) ⟨none, some (.epochs startEpoch endEpoch), 0⟩

end

/-- The slot and the parent root of the block that a root is the hash of. -/
structure Headers where
  slot : Root → Slot
  parentRoot : Root → Root

/-- The root of the block is its hash. -/
def Headers.Hashes (headers : Headers) (blk : SignedBeaconBlock) : Prop :=
  blk.slot = headers.slot blk.root ∧ blk.parentRoot = headers.parentRoot blk.root

instance (headers : Headers) (blk : SignedBeaconBlock) : Decidable (headers.Hashes blk) :=
  inferInstanceAs (Decidable (_ ∧ _))

/-- A block with this root is stored. -/
def Db.Stored (root : Root) : Prop := (db.blocks.get root).isSome = true

instance (db : Db Validator) (root : Root) : Decidable (db.Stored root) :=
  inferInstanceAs (Decidable (_ = true))

/-- The indices and the stored blocks agree. -/
structure Indexed (headers : Headers) (db : Db Validator) (slots : Slot → List Root)
    (parents : Root → List Root) : Prop where
  hashes : ∀ root blk, db.blocks.get root = some blk → blk.root = root ∧ headers.Hashes blk
  slotIndex : Packs db.blockSlotIndices slots
  slots_nodup : ∀ slot, (slots slot).Nodup
  mem_slots : ∀ slot root, root ∈ slots slot ↔ db.Stored root ∧ headers.slot root = slot
  parentIndex : Packs db.blockParentRootIndices parents
  parents_nodup : ∀ parentRoot, (parents parentRoot).Nodup
  of_mem_parents : ∀ parentRoot root, root ∈ parents parentRoot →
    db.Stored root ∧ headers.parentRoot root = parentRoot

section Reads

variable {headers : Headers} {db : Db Validator} {slots : Slot → List Root}
  {parents : Root → List Root} {slot : Slot}

theorem Db.stored_of_get {blk : SignedBeaconBlock} (hget : db.blocks.get root = some blk) :
    db.Stored root := by
  rw [Db.Stored, hget]
  rfl

theorem Db.stored_iff : db.Stored root ↔ ∃ blk, db.blocks.get root = some blk :=
  Option.isSome_iff_exists

/-- A slot lists the roots of its blocks. -/
theorem Indexed.mem_slots_iff (hidx : Indexed headers db slots parents) : root ∈ slots slot ↔
      ∃ blk, db.blocks.get root = some blk ∧ blk.root = root ∧ blk.slot = slot := by
  rw [hidx.mem_slots, stored_iff]
  constructor
  · rintro ⟨⟨blk, hblk⟩, rfl⟩
    obtain ⟨rfl, hhashes⟩ := hidx.hashes root blk hblk
    exact ⟨blk, hblk, rfl, hhashes.1⟩
  · rintro ⟨blk, hblk, rfl, rfl⟩
    exact ⟨⟨blk, hblk⟩, (hidx.hashes _ blk hblk).2.1.symm⟩

theorem Indexed.exists_of_mem_parents (hidx : Indexed headers db slots parents)
    {parentRoot : Root} (hroot : root ∈ parents parentRoot) :
    ∃ blk, db.blocks.get root = some blk ∧ blk.root = root ∧ blk.parentRoot = parentRoot := by
  obtain ⟨hstored, rfl⟩ := hidx.of_mem_parents parentRoot root hroot
  obtain ⟨blk, hblk⟩ := stored_iff.1 hstored
  obtain ⟨rfl, hhashes⟩ := hidx.hashes root blk hblk
  exact ⟨blk, hblk, rfl, hhashes.2⟩

theorem indexed_empty (headers : Headers) (genesis origin : Option Root) :
    Indexed headers
      { (empty : Db Validator) with
        genesisBlockRoot := genesis
        originCheckpointBlockRoot := origin } (fun _ ↦ []) fun _ ↦ [] where
  hashes root blk hget := by cases hget
  slotIndex := Packs.empty
  slots_nodup _ := nodup_nil
  mem_slots slot root := by simp [Db.Stored, empty]
  parentIndex := Packs.empty
  parents_nodup _ := nodup_nil
  of_mem_parents _ root hroot := absurd hroot not_mem_nil

theorem Indexed.congr (hidx : Indexed headers db slots parents) {db' : Db Validator}
    (hblocks : db'.blocks = db.blocks) (hslots : db'.blockSlotIndices = db.blockSlotIndices)
    (hparents : db'.blockParentRootIndices = db.blockParentRootIndices) :
    Indexed headers db' slots parents where
  hashes := hblocks ▸ hidx.hashes
  slotIndex := hslots ▸ hidx.slotIndex
  slots_nodup := hidx.slots_nodup
  mem_slots := by
    unfold Db.Stored
    exact hblocks ▸ hidx.mem_slots
  parentIndex := hparents ▸ hidx.parentIndex
  parents_nodup := hidx.parents_nodup
  of_mem_parents := by
    unfold Db.Stored
    exact hblocks ▸ hidx.of_mem_parents

theorem Indexed.blockRootsBySlot (hidx : Indexed headers db slots parents) (slot : Slot) :
    Kv.blockRootsBySlot db slot = .ok (slots slot) := by
  unfold Kv.blockRootsBySlot
  cases hget : db.blockSlotIndices.get slot with
  | none => rw [hidx.slotIndex.of_get_none hget]
  | some value =>
    obtain ⟨-, rfl⟩ := hidx.slotIndex.of_get hget
    dsimp only
    rw [splitRoots_packRoots, wrapf_ok]

theorem mapM_ok {α β : Type} {f : α → Except Fault β} {g : α → β} {items : List α}
    (hitems : ∀ item ∈ items, f item = .ok (g item)) : items.mapM f = .ok (items.map g) := by
  induction items with
  | nil => rfl
  | cons item items ih =>
    rw [mapM_cons, hitems item mem_cons_self, ok_bind,
      ih fun other hother ↦ hitems other (mem_cons_of_mem _ hother), ok_bind]
    rfl

/-- The block of a root, or some other one if there is none. -/
def Db.blockAt (db : Db Validator) (root : Root) : SignedBeaconBlock :=
  (db.blocks.get root).getD ⟨root, 0, root, .phase0, false⟩

theorem Db.unmarshalBlock_of_stored (hstored : db.Stored root) :
    unmarshalBlock (db.blocks.get root) = .ok (db.blockAt root) := by
  obtain ⟨blk, hblk⟩ := stored_iff.1 hstored
  rw [blockAt, hblk]
  rfl

section

variable (hidx : Indexed headers db slots parents)
include hidx

/-- The blocks of a slot are read without an error, and none is missed. -/
theorem Indexed.blocksBySlot (slot : Slot) :
    ∃ blks, Kv.blocksBySlot db slot = .ok blks ∧
      ∀ blk, blk ∈ blks ↔ db.blocks.get blk.root = some blk ∧ blk.slot = slot := by
  refine ⟨(slots slot).map db.blockAt, ?_, fun blk ↦ ?_⟩
  · rw [Kv.blocksBySlot, hidx.blockRootsBySlot, wrapf_ok, ok_bind]
    exact mapM_ok fun root hroot ↦ unmarshalBlock_of_stored ((hidx.mem_slots slot root).1 hroot).1
  · rw [mem_map]
    constructor
    · rintro ⟨root, hroot, rfl⟩
      obtain ⟨blk, hblk, rfl, hslot⟩ := hidx.mem_slots_iff.1 hroot
      rw [blockAt, hblk]
      exact ⟨hblk, hslot⟩
    · rintro ⟨hblk, hslot⟩
      refine ⟨blk.root, hidx.mem_slots_iff.2 ⟨blk, hblk, rfl, hslot⟩, ?_⟩
      rw [blockAt, hblk]
      rfl

theorem Indexed.rootsOfParent (parentRoot : Root) :
    Kv.rootsOfParent db parentRoot = parents parentRoot := by
  unfold Kv.rootsOfParent
  cases hget : db.blockParentRootIndices.get parentRoot with
  | none => simp [hidx.parentIndex.of_get_none hget, records]
  | some value =>
    obtain ⟨-, rfl⟩ := hidx.parentIndex.of_get hget
    rw [Option.getD_some, map_records_packRoots]

/-- The blocks of a parent are read without an error. -/
theorem Indexed.blocksByParentRoot (parentRoot : Root) :
    ∃ blks, Kv.blocksByParentRoot db parentRoot = .ok blks ∧
      ∀ blk ∈ blks, db.blocks.get blk.root = some blk ∧ blk.parentRoot = parentRoot := by
  refine ⟨(parents parentRoot).map db.blockAt, ?_, fun blk hblk ↦ ?_⟩
  · rw [Kv.blocksByParentRoot, hidx.rootsOfParent]
    refine mapM_ok fun root hroot ↦ ?_
    rw [unmarshalBlock_of_stored (hidx.of_mem_parents parentRoot root hroot).1, wrapf_ok]
  · obtain ⟨root, hroot, rfl⟩ := mem_map.1 hblk
    obtain ⟨blk, hblk, rfl, hpar⟩ := hidx.exists_of_mem_parents hroot
    rw [blockAt, hblk]
    exact ⟨hblk, hpar⟩

section

variable {entries : List (Slot × Bytes)} {p : Slot → Prop}
  (hentries : ∀ slot value, (slot, value) ∈ entries ↔
    db.blockSlotIndices.get slot = some value ∧ p slot)
include hentries

theorem Indexed.flatMap_entries :
    (entries.flatMap fun entry ↦ (records hashLength entry.2).map toBytes32) =
      entries.flatMap fun entry ↦ slots entry.1 := by
  refine flatMap_congr fun entry hentry ↦ ?_
  obtain ⟨-, hvalue⟩ := hidx.slotIndex.of_get ((hentries entry.1 entry.2).1 hentry).1
  rw [hvalue, map_records_packRoots]

/-- The roots that some entries of the slot index list. -/
theorem Indexed.mem_entries : root ∈ entries.flatMap (fun entry ↦
      (records hashLength entry.2).map toBytes32) ↔
    db.Stored root ∧ p (headers.slot root) := by
  rw [hidx.flatMap_entries hentries, mem_flatMap]
  constructor
  · rintro ⟨entry, hentry, hroot⟩
    obtain ⟨hstored, hslot⟩ := (hidx.mem_slots _ _).1 hroot
    exact ⟨hstored, hslot ▸ ((hentries _ _).1 hentry).2⟩
  · rintro ⟨hstored, hp⟩
    have hroot := (hidx.mem_slots (headers.slot root) root).2 ⟨hstored, rfl⟩
    have hget := hidx.slotIndex (headers.slot root)
    rw [if_neg (ne_nil_of_mem hroot)] at hget
    exact ⟨_, (hentries _ _).2 ⟨hget, hp⟩, hroot⟩

theorem Indexed.nodup_entries (hsorted : entries.Pairwise (·.1 < ·.1)) :
    (entries.flatMap fun entry ↦ (records hashLength entry.2).map toBytes32).Nodup := by
  rw [hidx.flatMap_entries hentries]
  refine nodup_flatMap.2 ⟨fun entry _ ↦ hidx.slots_nodup entry.1, hsorted.imp ?_⟩
  intro left right hlt root hleft hright
  rw [hidx.mem_slots] at hleft hright
  exact hlt.ne (hleft.2.symm.trans hright.2)

end

end

variable {config : BeaconChainConfig} {endEpoch startEpoch : Epoch} {roots : List Root}

theorem epochStart_eq_ok_iff {epoch : Epoch} :
    epochStart config epoch = .ok slot ↔
      config.slotsPerEpoch * epoch < 2 ^ 64 ∧ slot = config.slotsPerEpoch * epoch := by
  unfold epochStart
  by_cases hepoch : config.slotsPerEpoch * epoch < 2 ^ 64
  · rw [if_pos hepoch]
    exact ⟨fun h ↦ ⟨hepoch, (Except.ok.inj h).symm⟩, fun h ↦ h.2 ▸ rfl⟩
  · rw [if_neg hepoch]
    exact ⟨nofun, fun h ↦ absurd h.1 hepoch⟩

theorem toEpoch_between :
    config.slotsPerEpoch * startEpoch ≤ slot ∧
        slot ≤ config.slotsPerEpoch * endEpoch + (config.slotsPerEpoch - 1) ↔
      startEpoch ≤ toEpoch config slot ∧ toEpoch config slot ≤ endEpoch := by
  have hpos := config.slotsPerEpoch_pos
  have hlow : startEpoch ≤ toEpoch config slot ↔ config.slotsPerEpoch * startEpoch ≤ slot := by
    rw [toEpoch, Nat.le_div_iff_mul_le hpos, Nat.mul_comm]
  have hhigh : toEpoch config slot < endEpoch + 1 ↔
      slot < config.slotsPerEpoch * (endEpoch + 1) := by
    rw [toEpoch, Nat.div_lt_iff_lt_mul hpos, Nat.mul_comm]
  rw [hlow, ← Nat.lt_succ_iff (m := toEpoch config slot), Nat.succ_eq_add_one, hhigh]
  exact and_congr_right fun _ ↦ ⟨fun h ↦ by lia, fun h ↦ by lia⟩

theorem blockRoots_eq_ok (hroots : blockRoots config db startEpoch endEpoch = .ok roots) :
    config.slotsPerEpoch * startEpoch < 2 ^ 64 ∧ config.slotsPerEpoch * endEpoch < 2 ^ 64 ∧
      ∃ endSlot, endSlot = (config.slotsPerEpoch * endEpoch + config.slotsPerEpoch - 1) % 2 ^ 64 ∧
        config.slotsPerEpoch * startEpoch ≤ endSlot ∧
        roots = (db.blockSlotIndices.range (config.slotsPerEpoch * startEpoch) endSlot).flatMap
          fun entry ↦ (records hashLength entry.2).map toBytes32 := by
  rw [blockRoots, QueryFilter.blockRoots, wrapf_eq_ok_iff, QueryFilter.blockRootsByFilter,
    bind_eq_ok_iff] at hroots
  obtain ⟨found, hfound, hroots⟩ := hroots
  obtain rfl : found = roots := Except.ok.inj hroots
  obtain ⟨⟨startSlot, endSlot⟩, hends, hfound⟩ := bind_eq_ok_iff.1 hfound
  obtain ⟨_, hstart, hends⟩ := bind_eq_ok_iff.1 hends
  obtain ⟨_, hend, hends⟩ := bind_eq_ok_iff.1 hends
  obtain ⟨hstartEpoch, rfl⟩ := epochStart_eq_ok_iff.1 hstart
  obtain ⟨hendEpoch, rfl⟩ := epochStart_eq_ok_iff.1 hend
  obtain ⟨rfl, rfl⟩ := Prod.mk.inj (Except.ok.inj hends)
  dsimp only at hfound
  split_ifs at hfound with hrange
  refine ⟨hstartEpoch, hendEpoch, _, rfl, not_lt.1 hrange, ?_⟩
  rw [← Except.ok.inj hfound, filter_eq_self.2]
  simp [QueryFilter.step, Nat.mod_one]

theorem Indexed.mem_blockRoots (hidx : Indexed headers db slots parents)
    (hend : config.slotsPerEpoch * endEpoch + config.slotsPerEpoch - 1 < 2 ^ 64)
    (hroots : blockRoots config db startEpoch endEpoch = .ok roots) (root : Root) :
    root ∈ roots ↔ db.Stored root ∧ startEpoch ≤ toEpoch config (headers.slot root) ∧
      toEpoch config (headers.slot root) ≤ endEpoch := by
  obtain ⟨-, -, endSlot, hslot, -, rfl⟩ := blockRoots_eq_ok hroots
  rw [Nat.mod_eq_of_lt hend, Nat.add_sub_assoc config.slotsPerEpoch_pos] at hslot
  subst hslot
  rw [← toEpoch_between]
  exact hidx.mem_entries fun _ _ ↦ Bucket.mem_range

end Reads

section Saves

variable {headers : Headers} {db : Db Validator} {slots : Slot → List Root}
  {parents : Root → List Root} {env : Environment} {blk : SignedBeaconBlock}
  {store : Store Validator}

/-- The writes for a block that neither index lists. -/
theorem putBlock_eq {slotBkt : Bucket Slot Bytes} {parentBkt : Bucket Root Bytes}
    (hslot : addRoot db.blockSlotIndices blk.slot blk.root = some slotBkt)
    (hpar : addRoot db.blockParentRootIndices blk.parentRoot blk.root = some parentBkt) :
    db.putBlock env blk = { db with
      blocks := db.blocks.put blk.root blk
      blockSlotIndices := slotBkt
      blockParentRootIndices := parentBkt } := by
  unfold Db.putBlock blockIndices
  split_ifs <;> simp [updateValueForIndices, Db.addRoot, hslot, hpar]

theorem Indexed.putBlock (hidx : Indexed headers db slots parents)
    (hhashes : headers.Hashes blk) (hnew : db.blocks.get blk.root = none) :
    Indexed headers (db.putBlock env blk) (update slots blk.slot (slots blk.slot ++ [blk.root]))
      (update parents blk.parentRoot (parents blk.parentRoot ++ [blk.root])) := by
  have hnot : ¬ db.Stored blk.root := by simp [Db.Stored, hnew]
  have hslot : blk.root ∉ slots blk.slot := fun hmem ↦ hnot ((hidx.mem_slots _ _).1 hmem).1
  have hpar : blk.root ∉ parents blk.parentRoot := fun hmem ↦ hnot (hidx.of_mem_parents _ _ hmem).1
  obtain ⟨slotBkt, hslotAdd, hslotPacks⟩ := hidx.slotIndex.addRoot hslot
  obtain ⟨parentBkt, hparentAdd, hparentPacks⟩ := hidx.parentIndex.addRoot hpar
  have hstored (root : Root) : Db.Stored { db with
      blocks := db.blocks.put blk.root blk
      blockSlotIndices := slotBkt
      blockParentRootIndices := parentBkt } root ↔ root = blk.root ∨ db.Stored root := by
    unfold Db.Stored
    by_cases hroot : blk.root = root
    · simp [hroot]
    · simp [hroot, Ne.symm hroot]
  rw [putBlock_eq hslotAdd hparentAdd]
  refine ⟨fun root stored hget ↦ ?_, hslotPacks, fun slot ↦ ?_, fun slot root ↦ ?_, hparentPacks,
    fun parentRoot ↦ ?_, fun parentRoot root hroot ↦ ?_⟩
  · rw [Bucket.get_put] at hget
    split_ifs at hget with hroot
    · obtain rfl := Option.some.inj hget
      exact ⟨hroot, hhashes⟩
    · exact hidx.hashes root stored hget
  · rw [update_apply]
    split_ifs
    · rw [← concat_eq_append]
      exact List.Nodup.concat hslot (hidx.slots_nodup _)
    · exact hidx.slots_nodup slot
  · rw [hstored, update_apply]
    split_ifs with hkey
    · rw [hkey, mem_append, mem_singleton, hidx.mem_slots]
      constructor
      · rintro (⟨hold, hheader⟩ | rfl)
        · exact ⟨.inr hold, hheader⟩
        · exact ⟨.inl rfl, hhashes.1.symm⟩
      · rintro ⟨rfl | hold, hheader⟩
        · exact .inr rfl
        · exact .inl ⟨hold, hheader⟩
    · rw [hidx.mem_slots]
      refine ⟨fun h ↦ ⟨.inr h.1, h.2⟩, fun h ↦ ⟨h.1.resolve_left ?_, h.2⟩⟩
      rintro rfl
      exact hkey (h.2.symm.trans hhashes.1.symm)
  · rw [update_apply]
    split_ifs
    · rw [← concat_eq_append]
      exact List.Nodup.concat hpar (hidx.parents_nodup _)
    · exact hidx.parents_nodup parentRoot
  · rw [hstored]
    rw [update_apply] at hroot
    split_ifs at hroot with hkey
    · rcases mem_append.1 hroot with hold | hlast
      · obtain ⟨hold, hheader⟩ := hidx.of_mem_parents _ _ hold
        exact ⟨.inr hold, hheader.trans hkey.symm⟩
      · obtain rfl := mem_singleton.1 hlast
        exact ⟨.inl rfl, hhashes.2.symm.trans hkey.symm⟩
    · obtain ⟨hold, hheader⟩ := hidx.of_mem_parents _ _ hroot
      exact ⟨.inr hold, hheader⟩

theorem hashes_prepare {shouldBlind : Bool} :
    headers.Hashes (blk.prepare shouldBlind) ↔ headers.Hashes blk := by
  unfold SignedBeaconBlock.prepare
  split_ifs <;> exact Iff.rfl

theorem Indexed.writeBatch (hidx : Indexed headers db slots parents)
    {blks : List SignedBeaconBlock} (hhashes : ∀ blk ∈ blks, headers.Hashes blk) :
    ∃ slots' parents', Indexed headers (db.writeBatch env blks).db slots' parents' := by
  refine writeBlocks_invariant (fun db _ ↦ ∃ slots parents, Indexed headers db slots parents) _ _
    ⟨slots, parents, hidx⟩ ?_
  rintro block hblock db - ⟨slots, parents, hidx⟩ hnew
  obtain ⟨blk, hblk, rfl⟩ := mem_map.1 hblock
  exact ⟨_, _, hidx.putBlock (hashes_prepare.2 (hhashes blk hblk)) hnew⟩

theorem Indexed.serve (hidx : Indexed headers store.db slots parents) {call : BlockCall}
    (hhashes : ∀ blk ∈ call.blks, headers.Hashes blk) :
    ∃ slots' parents', Indexed headers (call.serve store).2.db slots' parents' := by
  rcases db_serve store call with hdb | ⟨env, hdb⟩
  · exact ⟨slots, parents, hdb ▸ hidx⟩
  · rw [hdb]
    exact hidx.writeBatch hhashes

/-- A call stores no blocks but those that it was given. -/
theorem stored_serve (call : BlockCall) (hstored : (call.serve store).2.db.Stored root) :
    store.db.Stored root ∨ ∃ blk ∈ call.blks, blk.root = root := by
  rcases db_serve store call with hdb | ⟨env, hdb⟩
  · exact .inl (hdb ▸ hstored)
  rw [hdb] at hstored
  refine writeBlocks_invariant
    (fun db _ ↦ db.Stored root → store.db.Stored root ∨ ∃ blk ∈ call.blks, blk.root = root) _ _
    .inl (fun block hblock db _ hold _ hput ↦ ?_) hstored
  rw [Db.Stored, blocks_putBlock, Bucket.get_put] at hput
  split_ifs at hput with hroot
  · obtain ⟨blk, hblk, rfl⟩ := mem_map.1 hblock
    exact .inr ⟨blk, hblk, (root_prepare _ _).symm.trans hroot⟩
  · exact hold hput

end Saves

end Prysm.Kv
