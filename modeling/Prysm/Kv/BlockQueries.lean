import Prysm.Kv.AncestryQuery

/-!
# Block queries

`BlockRoots` looks up the range of a filter in the slot index and its parent root in the parent
index, and intersects what it finds.  The intersection is left out when the range lists nothing, and
all children of the parent root are returned.  A filter with neither of them selects nothing.
-/

namespace Prysm.Kv

open List Prysm.Library

variable {Validator : Type} (config : BeaconChainConfig)

/-- The first and the last slot of a range. -/
def SlotRange.bounds : SlotRange → Slot × Slot
  | .slots startSlot endSlot => (startSlot, endSlot)
  | .epochs startEpoch endEpoch =>
    (config.slotsPerEpoch * startEpoch, config.slotsPerEpoch * endEpoch + config.slotsPerEpoch - 1)

/-- The last epoch of a range starts in a slot of 64 bits. -/
def SlotRange.Starts : SlotRange → Prop
  | .slots _ _ => True
  | .epochs _ endEpoch => config.slotsPerEpoch * endEpoch < 2 ^ 64

/-- A slot of the range that is reached in steps from its start. -/
def QueryFilter.HasSlot (f : QueryFilter) (slot : Slot) : Prop :=
  ∀ range ∈ f.range, ((range.bounds config).1 ≤ slot ∧ slot ≤ (range.bounds config).2) ∧
    (slot - (range.bounds config).1) % f.step = 0

variable {config} {headers : Headers} {db : Db Validator} {slots : Slot → List Root}
  {parents : Root → List Root} {fits : ℕ → Bool} {f : QueryFilter} {range : SlotRange}
  {others : List Root}

theorem foldl_intersection (hnodup : others.Nodup) (m : Root → ℕ) (inter : List Root) :
    (others.foldl (fun (m, inter) k ↦
      if m k = 1 then (Function.update m k 2, inter ++ [k]) else (m, inter)) (m, inter)).2 =
        inter ++ others.filter (m · = 1) := by
  induction others generalizing m inter with
  | nil => simp
  | cons k others ih =>
    obtain ⟨hk, hrest⟩ := nodup_cons.1 hnodup
    rw [foldl_cons]
    dsimp only
    by_cases hm : m k = 1
    · have hsame : others.filter (Function.update m k 2 · = 1) = others.filter (m · = 1) :=
        filter_congr fun other hother ↦ by
          rw [Function.update_of_ne (ne_of_mem_of_not_mem hother hk)]
      rw [if_pos hm, ih hrest, hsame, filter_cons_of_pos (by simpa), append_assoc, singleton_append]
    · rw [if_neg hm, ih hrest, filter_cons_of_neg (by simpa)]

theorem mem_intersectionByteSlices (s : List Root) (hnodup : others.Nodup) :
    intersectionByteSlices s others = others.filter (· ∈ s) := by
  refine (foldl_intersection hnodup _ []).trans (filter_congr fun k _ ↦ ?_)
  by_cases hk : k ∈ s <;> simp [hk]

/-- A range in order is read as its slots, when they have 64 bits. -/
theorem SlotRange.ends_eq_ok (hdvd : config.slotsPerEpoch ∣ 2 ^ 64)
    (hordered : (range.bounds config).1 ≤ (range.bounds config).2) {ends : Slot × Slot} :
    range.ends config = .ok ends ↔ range.Starts config ∧ range.bounds config = ends := by
  cases range with
  | slots startSlot endSlot => simp [SlotRange.ends, SlotRange.Starts, SlotRange.bounds]
  | epochs startEpoch endEpoch =>
    simp only [SlotRange.ends, SlotRange.Starts, SlotRange.bounds, bind_eq_ok_iff,
      epochStart_eq_ok_iff] at hordered ⊢
    obtain ⟨count, hcount⟩ := hdvd
    constructor
    · rintro ⟨_, ⟨-, rfl⟩, _, ⟨hend, rfl⟩, hends⟩
      have hlast : config.slotsPerEpoch * (endEpoch + 1) ≤ config.slotsPerEpoch * count :=
        Nat.mul_le_mul_left _ (Nat.lt_of_mul_lt_mul_left (hcount ▸ hend))
      rw [Nat.mod_eq_of_lt (by lia)] at hends
      exact ⟨hend, Except.ok.inj hends⟩
    · rintro ⟨hend, rfl⟩
      have hlast : config.slotsPerEpoch * (endEpoch + 1) ≤ config.slotsPerEpoch * count :=
        Nat.mul_le_mul_left _ (Nat.lt_of_mul_lt_mul_left (hcount ▸ hend))
      exact ⟨_, ⟨by lia, rfl⟩, _, ⟨hend, rfl⟩, by rw [Nat.mod_eq_of_lt (by lia)]⟩

variable (hindexed : Indexed headers db slots parents)
include hindexed

theorem Indexed.blockRootsBySlotRange (hrange : f.range = some range)
    (hends : range.ends config = .ok (range.bounds config))
    (hordered : (range.bounds config).1 ≤ (range.bounds config).2)
    (hmemory : fits (((range.bounds config).2 - (range.bounds config).1) / f.step) = true) :
    ∃ roots, f.blockRootsBySlotRange db config fits = .ok roots ∧ roots.Nodup ∧
      ∀ root, root ∈ roots ↔ db.Stored root ∧ f.HasSlot config (headers.slot root) := by
  have hentries (slot : Slot) (value : Bytes) :
      (slot, value) ∈ (db.blockSlotIndices.range (range.bounds config).1
        (range.bounds config).2).filter (fun entry ↦
          (entry.1 - (range.bounds config).1) % f.step = 0) ↔
      db.blockSlotIndices.get slot = some value ∧ f.HasSlot config slot := by
    simp [Bucket.mem_range, QueryFilter.HasSlot, hrange, and_assoc]
  refine ⟨_, ?_, hindexed.nodup_entries hentries ((db.blockSlotIndices.sorted.sublist
      ((takeWhile_sublist _).trans (dropWhile_sublist _))).filter _),
    fun root ↦ hindexed.mem_entries hentries⟩
  rw [QueryFilter.blockRootsBySlotRange, hrange]
  dsimp only
  rw [hends, ok_bind, if_neg (not_lt.2 hordered), hmemory]
  rfl

/-- A query returns the roots of the stored blocks that satisfy all criteria, each once, if and only
if the filter has a criterion or there is no block, the epochs of its range start in slots of 64
bits, and some block is in the range when the parent root has a child. -/
theorem blockRoots_selects (fits : ℕ → Bool) (f : QueryFilter)
    (hdvd : config.slotsPerEpoch ∣ 2 ^ 64)
    (hparents : ∀ entry ∈ db.blocks.entries, entry.1 ∈ rootsOfParent db entry.2.parentRoot)
    (hordered : ∀ range ∈ f.range, (range.bounds config).1 ≤ (range.bounds config).2)
    (hmemory : ∀ range ∈ f.range,
      fits (((range.bounds config).2 - (range.bounds config).1) / f.step) = true) :
    (∃ roots, f.blockRoots db config fits = .ok roots ∧ roots.Nodup ∧
      ∀ root, root ∈ roots ↔ db.Stored root ∧ f.HasSlot config (headers.slot root) ∧
        ∀ parentRoot ∈ f.parentRoot, headers.parentRoot root = parentRoot) ↔
      (f.parentRoot = none → f.range = none → ∀ root, ¬ db.Stored root) ∧
        (∀ range ∈ f.range, range.Starts config) ∧
        ∀ root, db.Stored root → headers.parentRoot root ∈ f.parentRoot →
          ∃ other, db.Stored other ∧ f.HasSlot config (headers.slot other) := by
  have hpar (parentRoot root : Root) : root ∈ parents parentRoot ↔
      db.Stored root ∧ headers.parentRoot root = parentRoot := by
    refine ⟨hindexed.of_mem_parents parentRoot root, ?_⟩
    rintro ⟨hstored, rfl⟩
    obtain ⟨blk, hget⟩ := Db.stored_iff.1 hstored
    obtain ⟨rfl, hhashes⟩ := hindexed.hashes root blk hget
    have hlisted : blk.root ∈ rootsOfParent db blk.parentRoot :=
      hparents _ ((Bucket.mem_entries_iff _ _ _).2 hget)
    rwa [hindexed.rootsOfParent, hhashes.2] at hlisted
  rw [QueryFilter.blockRoots, QueryFilter.blockRootsByFilter]
  cases hrange : f.range with
  | none =>
    have hnil : f.blockRootsBySlotRange db config fits = .ok [] := by
      rw [QueryFilter.blockRootsBySlotRange, hrange]
    have hall (slot : Slot) : f.HasSlot config slot := by
      simp [QueryFilter.HasSlot, hrange]
    rw [hnil, ok_bind]
    cases hp : f.parentRoot with
    | none => simp [wrapf_ok, hall]
    | some parentRoot =>
      refine iff_of_true ⟨_, rfl, ?_, fun root ↦ ?_⟩ ⟨by simp, by simp, fun root hroot _ ↦ ?_⟩
      · rw [hindexed.rootsOfParent]
        exact hindexed.parents_nodup parentRoot
      · simp [hall, hindexed.rootsOfParent, hpar]
      · exact ⟨root, hroot, hall _⟩
  | some range =>
    have hle := hordered range hrange
    by_cases hstarts : range.Starts config
    · obtain ⟨found, hlookup, hnodup, hmem⟩ := hindexed.blockRootsBySlotRange hrange
        ((SlotRange.ends_eq_ok hdvd hle).2 ⟨hstarts, rfl⟩) hle (hmemory range hrange)
      have hsome : ∀ other ∈ some range, other.Starts config := by simpa using hstarts
      rw [hlookup, ok_bind]
      cases hp : f.parentRoot with
      | none =>
        exact iff_of_true ⟨found, rfl, hnodup, fun root ↦ by simp [hmem]⟩ ⟨by simp, hsome, by simp⟩
      | some parentRoot =>
        dsimp only
        rw [hindexed.rootsOfParent,
          mem_intersectionByteSlices found (hindexed.parents_nodup parentRoot), wrapf_ok]
        by_cases hempty : found = []
        · -- no block is in the range, and the children of the parent root are returned
          have hnone (root : Root) : ¬ (db.Stored root ∧ f.HasSlot config (headers.slot root)) := by
            rw [← hmem, hempty]
            exact not_mem_nil
          rw [if_pos hempty]
          constructor
          · rintro ⟨_, hroots, -, hexact⟩
            obtain rfl := Except.ok.inj hroots
            refine ⟨by simp, hsome, fun root hroot hchild ↦ ?_⟩
            obtain ⟨hstored, hslot, -⟩ :=
              (hexact root).1 ((hpar _ root).2 ⟨hroot, (Option.some.inj hchild).symm⟩)
            exact absurd ⟨hstored, hslot⟩ (hnone root)
          · rintro ⟨-, -, hfound⟩
            refine ⟨_, rfl, hindexed.parents_nodup parentRoot, fun root ↦ iff_of_false ?_ ?_⟩
            · intro hchild
              obtain ⟨hstored, rfl⟩ := (hpar _ root).1 hchild
              obtain ⟨other, hother⟩ := hfound root hstored rfl
              exact hnone other hother
            · exact fun h ↦ hnone root ⟨h.1, h.2.1⟩
        · rw [if_neg hempty]
          refine iff_of_true ⟨_, rfl, (hindexed.parents_nodup parentRoot).filter _, fun root ↦ ?_⟩
            ⟨by simp, hsome, fun _ _ _ ↦ ?_⟩
          · simp only [mem_filter, hpar, decide_eq_true_eq, hmem, Option.mem_def,
              Option.some.injEq, forall_eq']
            tauto
          · obtain ⟨other, hother⟩ := exists_mem_of_ne_nil found hempty
            exact ⟨other, (hmem other).1 hother⟩
    · refine iff_of_false ?_ fun h ↦ hstarts (h.2.1 range rfl)
      rintro ⟨roots, hroots, -⟩
      obtain ⟨found, hfound, -⟩ := bind_eq_ok_iff.1 (wrapf_eq_ok_iff.1 hroots)
      rw [QueryFilter.blockRootsBySlotRange, hrange] at hfound
      obtain ⟨ends, hends, -⟩ := bind_eq_ok_iff.1 hfound
      exact hstarts ((SlotRange.ends_eq_ok hdvd hle).1 hends).1

omit hindexed in
theorem blockRoots_selects_child :
    ∃ db : Db ℕ, ∃ roots, QueryFilter.blockRoots db mainnetConfig (· < 2 ^ 30)
      ⟨some firstBlock.root, some (.slots 0 5), 2⟩ = .ok roots ∧ roots.Nodup ∧
        childBlock.root ∈ roots := by
  obtain ⟨slots, parents, hindexed⟩ := agrees_saveChain.indexed
  have hchild : (deletionStore [saveChain]).db.Stored childBlock.root := by decide +kernel
  have hslot : QueryFilter.HasSlot mainnetConfig
      ⟨some firstBlock.root, some (.slots 0 5), 2⟩ 2 := by
    rintro range ⟨⟩
    decide
  obtain ⟨roots, hroots, hnodup, hmem⟩ := (blockRoots_selects hindexed (· < 2 ^ 30)
    ⟨some firstBlock.root, some (.slots 0 5), 2⟩ (by decide) (by decide +kernel)
      (by rintro range ⟨⟩; decide) (by rintro range ⟨⟩; decide)).2
        ⟨nofun, by rintro range ⟨⟩; trivial, fun _ _ _ ↦ ⟨_, hchild, hslot⟩⟩
  exact ⟨_, roots, hroots, hnodup, (hmem _).2 ⟨hchild, hslot, by rintro parentRoot ⟨⟩; rfl⟩⟩

omit hindexed in
/-- Without a block in the range the children of the parent root are returned. -/
theorem blockRoots_ignores_range :
    blockRootsBySlot (storeAt 1).db 1 = .ok [firstBlock.root] ∧
      QueryFilter.blockRoots (storeAt 1).db mainnetConfig (fun _ ↦ true)
        ⟨some firstBlock.parentRoot, some (.slots 5 6), 0⟩ = .ok [firstBlock.root] := by
  decide +kernel

end Prysm.Kv
