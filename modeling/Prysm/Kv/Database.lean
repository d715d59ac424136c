import Prysm.Library.Bucket
import Prysm.Library.Numeral
import Prysm.Library.Records
import Prysm.Slots

/-!
# The beacon chain database

The buckets of `beacon-chain/db/kv` that hold blocks, states, checkpoints and their indices.  BoltDB
is taken as an ordered key-value store with atomic transactions.  Slots are the big-endian keys of
the source, so that key order is numeric order.

An index maps a key to a byte string of packed roots.  `Packs` says which lists of roots the strings
stand for, and the functions that edit the strings are shown to edit the lists.
-/

namespace Prysm.Kv

open List Function Prysm.Library

/-- A byte string. -/
abbrev Bytes := List ℕ

def hashLength : ℕ := 32

/-- The bytes of a root. -/
def rootBytes (root : Root) : Bytes := Numeral.fixedDigits 256 32 root

/-- `bytesutil.ToBytes32` on a string of 32 bytes. -/
def toBytes32 (bytes : Bytes) : Root := Fin.ofNat _ (Numeral.ofDigits 256 bytes)

variable (root : Root)

@[simp]
theorem length_rootBytes : (rootBytes root).length = hashLength :=
  Numeral.length_fixedDigits 256 32 root

@[simp]
theorem toBytes32_rootBytes : toBytes32 (rootBytes root) = root := by
  have hvalue : Numeral.ofDigits 256 (rootBytes root) = root := Numeral.ofDigits_bytes root.isLt rfl
  rw [toBytes32, hvalue]
  exact Fin.ofNat_val_eq_self root

theorem rootBytes_injective : Function.Injective rootBytes :=
  Function.LeftInverse.injective toBytes32_rootBytes

def errMisalignedRootList : Error :=
  .errorf "incorrectly packed root list, length is not a multiple of 32" []

variable (roots : List Root) (n : ℕ)

/-- The value under an index key that lists the roots. -/
def packRoots : Bytes := (roots.map rootBytes).flatten

def splitRoots (bytes : Bytes) : Except Fault (List Root) :=
  if bytes.length % hashLength ≠ 0 then
    .error (.error (.wrapf errMisalignedRootList "root list len=%d" [.number bytes.length]))
  else .ok ((records hashLength bytes).map toBytes32)

def removeRoot (roots : Bytes) (root : Root) : Except Fault Bytes :=
  if roots = [] then .ok []
  else if roots = rootBytes root then .ok []
  else if roots.length % hashLength ≠ 0 then
    .error (.error (.wrapf errMisalignedRootList "root list len=%d" [.number roots.length]))
  else match (records hashLength roots).findIdx? (· = rootBytes root) with
    | some i => .ok (roots.take (i * hashLength) ++ roots.drop ((i + 1) * hashLength))
    | none => .ok roots

theorem length_of_mem_map_rootBytes {roots : List Root} :
    ∀ bytes ∈ roots.map rootBytes, bytes.length = hashLength := by
  intro bytes hbytes
  obtain ⟨root, -, rfl⟩ := mem_map.1 hbytes
  exact length_rootBytes root

theorem records_packRoots : records hashLength (packRoots roots) = roots.map rootBytes :=
  records_flatten (by decide) length_of_mem_map_rootBytes

theorem length_packRoots : (packRoots roots).length = roots.length * hashLength := by
  rw [packRoots, length_flatten_records length_of_mem_map_rootBytes, length_map]

theorem packRoots_injective : Function.Injective packRoots := by
  intro roots others heq
  refine map_injective_iff.2 rootBytes_injective ?_
  exact flatten_injective (by decide) length_of_mem_map_rootBytes length_of_mem_map_rootBytes heq

@[simp]
theorem packRoots_nil : packRoots [] = [] := rfl

theorem packRoots_eq_nil_iff {roots : List Root} : packRoots roots = [] ↔ roots = [] :=
  packRoots_injective.eq_iff' packRoots_nil

theorem packRoots_append (roots others : List Root) :
    packRoots (roots ++ others) = packRoots roots ++ packRoots others := by
  rw [packRoots, map_append, flatten_append]
  rfl

theorem packRoots_singleton : packRoots [root] = rootBytes root := by
  simp [packRoots]

theorem take_packRoots : (packRoots roots).take (n * hashLength) = packRoots (roots.take n) := by
  rw [packRoots, (flatten_records length_of_mem_map_rootBytes _).1, ← map_take]
  rfl

theorem drop_packRoots : (packRoots roots).drop (n * hashLength) = packRoots (roots.drop n) := by
  rw [packRoots, (flatten_records length_of_mem_map_rootBytes _).2, ← map_drop]
  rfl

theorem mem_records_packRoots {roots : List Root} {root : Root} :
    rootBytes root ∈ records hashLength (packRoots roots) ↔ root ∈ roots := by
  rw [records_packRoots, mem_map_of_injective rootBytes_injective]

theorem map_records_packRoots : (records hashLength (packRoots roots)).map toBytes32 = roots := by
  have hid : toBytes32 ∘ rootBytes = id := funext toBytes32_rootBytes
  rw [records_packRoots, map_map, hid, map_id]

theorem splitRoots_packRoots : splitRoots (packRoots roots) = .ok roots := by
  rw [splitRoots, length_packRoots, if_neg (by simp), map_records_packRoots]

/-- Cutting a root out of the packed list removes it from the list. -/
theorem removeRoot_packRoots :
    removeRoot (packRoots roots) root = .ok (packRoots (roots.erase root)) := by
  unfold removeRoot
  by_cases hempty : packRoots roots = []
  · obtain rfl := packRoots_eq_nil_iff.1 hempty
    simp
  rw [if_neg hempty]
  by_cases honly : packRoots roots = rootBytes root
  · obtain rfl : roots = [root] := packRoots_injective (honly.trans (packRoots_singleton root).symm)
    simp [packRoots_singleton]
  rw [if_neg honly, length_packRoots, if_neg (by simp), records_packRoots]
  have hidx : (roots.map rootBytes).findIdx? (fun bytes ↦ decide (bytes = rootBytes root)) =
      roots.findIdx? (· == root) := by
    rw [findIdx?_map]
    refine congrArg (fun p ↦ roots.findIdx? p) (funext fun other ↦ ?_)
    rw [comp_apply, Bool.eq_iff_iff, decide_eq_true_eq, beq_iff_eq]
    exact rootBytes_injective.eq_iff
  rw [hidx]
  cases hfound : roots.findIdx? (· == root) with
  | none =>
    have hnot : root ∉ roots := by
      intro hmem
      have hnone := findIdx?_eq_none_iff.1 hfound root hmem
      simp at hnone
    rw [erase_of_not_mem hnot]
  | some i =>
    have hidxOf : roots.idxOf? root = some i := hfound
    dsimp only
    rw [take_packRoots, drop_packRoots, ← packRoots_append, ← eraseIdx_eq_take_drop_succ,
      erase_eq_eraseIdx, hidxOf]

section Indices

variable {K : Type} [LinearOrder K] (bkt : Bucket K Bytes)

/-- One iteration of the loop of `updateValueForIndices`; there is no next one if the root is
already listed. -/
def addRoot (idx : K) (root : Root) : Option (Bucket K Bytes) :=
  match bkt.get idx with
  | none => some (bkt.put idx (rootBytes root))
  | some valuesAtIndex =>
    if rootBytes root ∈ records hashLength valuesAtIndex then none
    else some (bkt.put idx (valuesAtIndex ++ rootBytes root))

def deleteRootIndexEntry (key : K) (root : Root) : Except Fault (Bucket K Bytes) :=
  match bkt.get key with
  | none => .ok bkt
  | some packed =>
    if packed = [] then .ok bkt
    else do
      let updated ← removeRoot packed root
      if updated = packed then .ok bkt
      else if updated = [] then .ok (bkt.delete key)
      else .ok (bkt.put key updated)

/-- The offset of the first occurrence of a string in another one, `bytes.Index`. -/
def bytesIndex (bytes sub : Bytes) : Option ℕ :=
  (List.range (bytes.length + 1 - sub.length)).find? fun i ↦ (bytes.drop i).take sub.length = sub

/-- One iteration of the loop of `deleteValueForIndices`. -/
def cutRoot (idx : K) (root : Root) : Bucket K Bytes :=
  match bkt.get idx with
  | none => bkt
  | some valuesAtIndex =>
    match bytesIndex valuesAtIndex (rootBytes root) with
    | none => bkt
    | some start =>
      if start % hashLength ≠ 0 then bkt
      else
        let values := valuesAtIndex.take start ++ valuesAtIndex.drop (start + hashLength)
        if values = [] then bkt.delete idx else bkt.put idx values

/-- An index lists these roots under its keys; a key without roots is not there. -/
def Packs (roots : K → List Root) : Prop :=
  ∀ key, bkt.get key = if roots key = [] then none else some (packRoots (roots key))

namespace Packs

variable {bkt : Bucket K Bytes} {roots : K → List Root}

theorem empty : Packs (Bucket.empty : Bucket K Bytes) fun _ ↦ [] := fun _ ↦ rfl

section

variable (hpacks : Packs bkt roots)
include hpacks

variable {key : K}

theorem of_get {value : Bytes} (hget : bkt.get key = some value) :
    roots key ≠ [] ∧ value = packRoots (roots key) := by
  have hvalue := hpacks key
  rw [hget] at hvalue
  split_ifs at hvalue with hempty
  exact ⟨hempty, Option.some.inj hvalue⟩

theorem of_get_none (hget : bkt.get key = none) : roots key = [] := by
  have hvalue := hpacks key
  rw [hget] at hvalue
  split_ifs at hvalue with hempty
  exact hempty

theorem put (key : K) {listed : List Root} (hlisted : listed ≠ []) :
    Packs (bkt.put key (packRoots listed)) (update roots key listed) := by
  intro other
  rw [Bucket.get_put, update_apply]
  by_cases hkey : key = other
  · rw [if_pos hkey, if_pos hkey.symm, if_neg hlisted]
  · rw [if_neg hkey, if_neg (Ne.symm hkey)]
    exact hpacks other

theorem delete (key : K) : Packs (bkt.delete key) (update roots key []) := by
  intro other
  rw [Bucket.get_delete, update_apply]
  by_cases hkey : key = other
  · rw [if_pos hkey, if_pos hkey.symm, if_pos rfl]
  · rw [if_neg hkey, if_neg (Ne.symm hkey)]
    exact hpacks other

theorem foldl_delete {Index : Type*} (indices : List Index) (key : Index → K) :
    Packs (indices.foldl (fun bkt index ↦ bkt.delete (key index)) bkt)
      fun other ↦ if other ∈ indices.map key then [] else roots other := by
  intro other
  rw [Bucket.get_foldl_delete]
  by_cases hother : other ∈ indices.map key
  · simp [hother]
  · simp only [hother, if_false]
    exact hpacks other

theorem addRoot {root : Root} (hnew : root ∉ roots key) :
    ∃ bkt', Kv.addRoot bkt key root = some bkt' ∧
      Packs bkt' (update roots key (roots key ++ [root])) := by
  have hput := hpacks.put key (concat_ne_nil root (roots key))
  refine ⟨_, ?_, hput⟩
  rw [packRoots_append, packRoots_singleton]
  unfold Kv.addRoot
  cases hget : bkt.get key with
  | none =>
    rw [hpacks.of_get_none hget, packRoots_nil, nil_append]
  | some value =>
    obtain ⟨-, rfl⟩ := hpacks.of_get hget
    exact if_neg (mem_records_packRoots.not.2 hnew)

theorem deleteRootIndexEntry (key : K) (root : Root) :
    ∃ bkt', Kv.deleteRootIndexEntry bkt key root = .ok bkt' ∧
      Packs bkt' (update roots key ((roots key).erase root)) := by
  unfold Kv.deleteRootIndexEntry
  cases hget : bkt.get key with
  | none =>
    refine ⟨bkt, rfl, ?_⟩
    rwa [hpacks.of_get_none hget, erase_nil, ← hpacks.of_get_none hget, update_eq_self]
  | some value =>
    obtain ⟨hlisted, rfl⟩ := hpacks.of_get hget
    dsimp only
    rw [if_neg (packRoots_eq_nil_iff.not.2 hlisted), removeRoot_packRoots, ok_bind]
    by_cases herase : (roots key).erase root = roots key
    · rw [herase, if_pos rfl]
      exact ⟨bkt, rfl, by rwa [update_eq_self]⟩
    rw [if_neg (packRoots_injective.ne herase)]
    by_cases hlast : (roots key).erase root = []
    · rw [hlast, if_pos packRoots_nil]
      exact ⟨_, rfl, hpacks.delete key⟩
    · rw [if_neg (packRoots_eq_nil_iff.not.2 hlast)]
      exact ⟨_, rfl, hpacks.put key hlast⟩

end

end Packs

end Indices

/-- A signed beacon block with its hash tree root, which is the same for the blinded block. -/
structure SignedBeaconBlock where
  root : Root
  slot : Slot
  parentRoot : Root
  version : Version
  isBlinded : Bool
deriving DecidableEq, Repr

structure StateSummary where
  slot : Slot
  root : Root
deriving DecidableEq, Repr

/-- The `varint` encoding of a number, in at most the given number of bytes. -/
def varint : ℕ → ℕ → Bytes
  | 0, _ => []
  | size + 1, value =>
    if value < 128 then [value] else (value % 128 + 128) :: varint size (value / 128)

/-- `encode` on a state summary, which is not stored in SSZ format. -/
def StateSummary.encode (summary : StateSummary) : Bytes :=
  (if summary.slot = 0 then [] else 8 :: varint 10 summary.slot) ++
    [18, 32] ++ rootBytes summary.root

/-- A value of `finalizedBlockRootsIndexBucket`: a `FinalizedBlockRootContainer`, or the text
`containerFinalizedButNotCanonical`. -/
inductive FinalizedValue
  | container (parentRoot : Root) (childRoot : Option Root)
  | finalizedButNotCanonical
deriving DecidableEq, Repr

/-- `dbval.BackfillStatus`. -/
structure BackfillStatus where
  lowSlot : Slot
  lowRoot : Root
  lowParentRoot : Root
  originRoot : Root
  originSlot : Slot
deriving DecidableEq, Repr

/-- The contents of the database.  The values that the source keeps in a bucket of roots under a key
of their own are fields. -/
structure Db (Validator : Type) where
  blocks : Bucket Root SignedBeaconBlock
  genesisBlockRoot : Option Root
  originCheckpointBlockRoot : Option Root
  headBlockRoot : Option Root
  backfillStatus : Option BackfillStatus
  saveBlindedBeaconBlocks : Bool
  blockSlotIndices : Bucket Slot Bytes
  blockParentRootIndices : Bucket Root Bytes
  finalizedBlockRootsIndex : Bucket Root FinalizedValue
  previousFinalizedCheckpoint : Option Checkpoint
  justifiedCheckpoint : Option Checkpoint
  finalizedCheckpoint : Option Checkpoint
  states : Bucket Root Bytes
  stateSlotIndices : Bucket Slot Bytes
  stateSummaries : Bucket Root StateSummary
  blockRootValidatorHashes : Bucket Root (List Root)
  stateValidators : Bucket Root Validator
  stateValidatorMigrationCompleted : Bool

/-- The database that `NewKVStore` creates. -/
def Db.empty {Validator : Type} : Db Validator where
  blocks := Bucket.empty
  genesisBlockRoot := none
  originCheckpointBlockRoot := none
  headBlockRoot := none
  backfillStatus := none
  saveBlindedBeaconBlocks := true
  blockSlotIndices := Bucket.empty
  blockParentRootIndices := Bucket.empty
  finalizedBlockRootsIndex := Bucket.empty
  previousFinalizedCheckpoint := none
  justifiedCheckpoint := none
  finalizedCheckpoint := none
  states := Bucket.empty
  stateSlotIndices := Bucket.empty
  stateSummaries := Bucket.empty
  blockRootValidatorHashes := Bucket.empty
  stateValidators := Bucket.empty
  stateValidatorMigrationCompleted := false

/-- The database and the caches in front of it. -/
structure Store (Validator : Type) where
  db : Db Validator
  blockCache : Root → Option SignedBeaconBlock
  validatorEntryCache : Root → Option Validator
  stateSummaryCache : Bucket Root StateSummary

/-- A store that was opened on a database. -/
def Store.open {Validator : Type} (db : Db Validator) : Store Validator where
  db := db
  blockCache := fun _ ↦ none
  validatorEntryCache := fun _ ↦ none
  stateSummaryCache := .empty

/-- How a transaction fails: in the writes for one of the entries that it loops over, or when it
commits. -/
inductive TxFault
  | write (entry : ℕ) (err : Error)
  | commit (err : Error)
deriving DecidableEq, Repr

/-- The error of the writes for an entry in a transaction. -/
def writeError (fault : Option TxFault) (entry : ℕ) : Option Error :=
  match fault with
  | some (.write failing err) => if entry = failing then some err else none
  | _ => none

/-- The error of the commit of a transaction. -/
def commitError (fault : Option TxFault) : Option Error :=
  match fault with
  | some (.commit err) => some err
  | _ => none

def errNotFound : Error := .errorf "not found in db" []

def errDeleteJustifiedAndFinalized : Error := .errorf "cannot delete finalized block or state" []

end Prysm.Kv
