import Prysm.Kv.FinalizedIndex

/-!
# Saving and reading states

With the historical state representation a state is stored in three parts: its encoding without the
registry, the list of the hashes of its validators, and the validators themselves, which the states
share.  A validator is written only if neither the cache nor the database has it.  The cache is
filled inside the transaction of a save.

Snappy is left out, since it only compresses the byte strings.
-/

namespace Prysm.Kv

open Prysm.Library

/-- A beacon state: its registry, and the rest of it. -/
structure BeaconState (Validator Body : Type) where
  version : Version
  slot : Slot
  validators : List Validator
  body : Body
deriving DecidableEq, Repr

def asciiBytes (text : String) : Bytes := text.toList.map Char.toNat

/-- The text in front of the encoding of a state. -/
def stateKey : Version → Bytes
  | .phase0 => []
  | .altair => asciiBytes "altair"
  | .bellatrix => asciiBytes "merge"
  | .capella => asciiBytes "capella"
  | .deneb => asciiBytes "deneb"
  | .electra => asciiBytes "electra"
  | .fulu => asciiBytes "fulu"

/-- `hasAltairKey` and the functions like it. -/
def hasKey (version : Version) (enc : Bytes) : Bool :=
  if (stateKey version).length ≥ enc.length then false
  else enc.take (stateKey version).length == stateKey version

/-- The version that `unmarshalState` finds. -/
def encodedVersion (enc : Bytes) : Version :=
  if hasKey .fulu enc then .fulu
  else if hasKey .electra enc then .electra
  else if hasKey .deneb enc then .deneb
  else if hasKey .capella enc then .capella
  else if hasKey .bellatrix enc then .bellatrix
  else if hasKey .altair enc then .altair
  else .phase0

/-- The SSZ encoding of the states of a network, and the hash tree root of a validator.  An encoding
starts with the genesis time, which does not spell a key. -/
structure StateCodec (Validator Body : Type) where
  marshalSSZ : BeaconState Validator Body → Bytes
  unmarshalSSZ : Version → Bytes → Except Error (BeaconState Validator Body)
  hashTreeRoot : Validator → Root
  unmarshal_marshal : ∀ st, unmarshalSSZ st.version (marshalSSZ st) = .ok st
  length_marshal : ∀ st, 8 ≤ (marshalSSZ st).length
  not_hasKey : ∀ st version, version ≠ .phase0 → hasKey version (marshalSSZ st) = false

variable {Validator Body : Type} (codec : StateCodec Validator Body)
  (st : BeaconState Validator Body)

def marshalState : Bytes :=
  stateKey st.version ++ codec.marshalSSZ st

/-- The text that an error of `UnmarshalSSZ` is wrapped with. -/
def unmarshalFailure : Version → String
  | .phase0 => "failed to unmarshal encoding"
  | .altair => "failed to unmarshal encoding for altair"
  | .bellatrix => "failed to unmarshal encoding for bellatrix"
  | .capella => "failed to unmarshal encoding for capella"
  | .deneb => "failed to unmarshal encoding for Deneb"
  | .electra => "failed to unmarshal encoding for Electra"
  | .fulu => "failed to unmarshal encoding for Fulu"

/-- `unmarshalState`, if the validators are stored on their own or not. -/
def unmarshalState (separate : Bool) (enc : Bytes) (validatorEntries : List Validator) :
    Except Fault (BeaconState Validator Body) :=
  let version := encodedVersion enc
  match codec.unmarshalSSZ version (enc.drop (stateKey version).length) with
  | .error err => .error (.error (.wrapf err (unmarshalFailure version) []))
  | .ok st => .ok (if separate then { st with validators := validatorEntries } else st)

variable {codec}

theorem hasKey_stateKey_append (version : Version) {bytes : Bytes} (hbytes : bytes ≠ []) :
    hasKey version (stateKey version ++ bytes) = true := by
  have hlen := List.length_pos_iff.2 hbytes
  rw [hasKey, if_neg (by rw [List.length_append]; omega), List.take_left]
  exact beq_self_eq_true _

theorem not_hasKey_of_ne {version other : Version} (hne : version ≠ other)
    (hver : version ≠ .phase0) (hother : other ≠ .phase0) (bytes : Bytes) :
    hasKey version (stateKey other ++ bytes) = false := by
  cases version <;> cases other <;> simp_all [hasKey, stateKey, asciiBytes]

theorem encodedVersion_marshalState : encodedVersion (marshalState codec st) = st.version := by
  have hbytes : codec.marshalSSZ st ≠ [] := by
    have hlen := codec.length_marshal st
    exact List.ne_nil_of_length_pos (by omega)
  have hself := hasKey_stateKey_append st.version hbytes
  by_cases hphase0 : st.version = .phase0
  · unfold encodedVersion marshalState
    rw [hphase0]
    simp [stateKey, codec.not_hasKey]
  · have hother (version : Version) (hver : version ≠ .phase0) (hne : version ≠ st.version) :
        hasKey version (stateKey st.version ++ codec.marshalSSZ st) = false :=
      not_hasKey_of_ne hne hver hphase0 _
    unfold encodedVersion marshalState
    cases hst : st.version <;> rw [hst] at hself hother <;> simp_all

/-- Reading an encoding gives the state, with the validators that were read on their own. -/
theorem unmarshalState_marshalState (vals : List Validator) :
    unmarshalState codec true (marshalState codec st) vals =
      .ok { st with validators := vals } := by
  rw [unmarshalState, encodedVersion_marshalState, marshalState, List.drop_left,
    codec.unmarshal_marshal]
  rfl

/-- How the transaction of a state save fails: in the writes for one of the states, in those for one
of the validators, or when it commits. -/
inductive StateTxFault
  | state (entry : ℕ) (err : Error)
  | validator (entry : ℕ) (err : Error)
  | commit (err : Error)
deriving DecidableEq, Repr

/-- What the environment decides in a state save: whether the transaction fails, and in which order
the map of the validators is iterated. -/
structure SaveEnvironment where
  fault : Option StateTxFault
  rank : Root → ℕ

def SaveEnvironment.stateError (env : SaveEnvironment) (entry : ℕ) : Option Error :=
  match env.fault with
  | some (.state failing err) => if entry = failing then some err else none
  | _ => none

def SaveEnvironment.validatorError (env : SaveEnvironment) (entry : ℕ) : Option Error :=
  match env.fault with
  | some (.validator failing err) => if entry = failing then some err else none
  | _ => none

def SaveEnvironment.commitError (env : SaveEnvironment) : Option Error :=
  match env.fault with
  | some (.commit err) => some err
  | _ => none

/-- `isStateValidatorMigrationOver` with the value of the feature flag. -/
def isStateValidatorMigrationOver (enabled : Bool) (db : Db Validator) : Bool :=
  enabled || db.stateValidatorMigrationCompleted

@[simp]
theorem isStateValidatorMigrationOver_true (db : Db Validator) :
    isStateValidatorMigrationOver true db = true := rfl

/-- The writes for a state in both representations. -/
def Db.putState (db : Db Validator) (root : Root) (slot : Slot) (enc : Bytes) : Db Validator :=
  { db with
    stateSlotIndices := (Kv.addRoot db.stateSlotIndices slot root).getD db.stateSlotIndices
    states := db.states.put root enc }

/-- The loop over the roots in a transaction that saves states. -/
def writeStates (env : SaveEnvironment)
    (write : Db Validator → BeaconState Validator Body → Root → Db Validator) :
    ℕ → List (BeaconState Validator Body) → List Root → Db Validator → Except Fault (Db Validator)
  | _, _, [], db => .ok db
  | _, [], _ :: _, _ => .error .panic
  | i, st :: states, root :: roots, db =>
    match env.stateError i with
    | some err => .error (.error err)
    | none => writeStates env write (i + 1) states roots (write db st root)

section Model

variable (codec) (enabled : Bool) (store : Store Validator)

def saveStates (env : SaveEnvironment) (states : List (BeaconState Validator Body))
    (blockRoots : List Root) : Except Fault Unit × Store Validator :=
  store.update
    (writeStates env (fun db st root ↦ db.putState root st.slot (marshalState codec st)) 0 states
      blockRoots store.db)
    env.commitError

/-- The hashes of the validators of a state. -/
def validatorKeys (st : BeaconState Validator Body) : List Root :=
  st.validators.map codec.hashTreeRoot

/-- The map from the hashes to the validators of all states. -/
def validatorsEntries (states : List (BeaconState Validator Body)) : Bucket Root Validator :=
  (states.flatMap (·.validators)).foldl (fun entries val ↦ entries.put (codec.hashTreeRoot val) val)
    Bucket.empty

variable (db : Db Validator)

/-- `processPhase0` and the functions for the later forks. -/
def processState (st : BeaconState Validator Body) (root : Root) : Db Validator :=
  let db := db.putState root st.slot (marshalState codec { st with validators := [] })
  { db with blockRootValidatorHashes :=
      db.blockRootValidatorHashes.put root (validatorKeys codec st) }

/-- How far the transaction of a state save came with the validators. -/
structure StoredValidators (Validator : Type) where
  valBkt : Bucket Root Validator
  cache : Root → Option Validator
  err : Option Error

/-- `storeValidatorEntriesSeparately` and the commit after it. -/
def storeValidatorEntriesSeparately (env : SaveEnvironment) :
    ℕ → List (Root × Validator) → Bucket Root Validator → (Root → Option Validator) →
      StoredValidators Validator
  | _, [], valBkt, cache => ⟨valBkt, cache, env.commitError⟩
  | i, (key, validatorEntry) :: entries, valBkt, cache =>
    if (cache key).isSome ∨ (valBkt.get key).isSome then
      storeValidatorEntriesSeparately env (i + 1) entries valBkt cache
    else match env.validatorError i with
      | some err => ⟨valBkt, cache, some err⟩
      | none =>
        storeValidatorEntriesSeparately env (i + 1) entries (valBkt.put key validatorEntry)
          (Function.update cache key (some validatorEntry))

/-- The map of the validators in the order of its iteration. -/
def SaveEnvironment.iterate (env : SaveEnvironment) (entries : Bucket Root Validator) :
    List (Root × Validator) :=
  entries.entries.insertionSort fun left right ↦ env.rank left.1 ≤ env.rank right.1

/-- `SaveStatesEfficient`.  The cache keeps what a transaction has put there that fails later. -/
def saveStatesEfficient (env : SaveEnvironment) (states : List (BeaconState Validator Body))
    (blockRoots : List Root) : Except Fault Unit × Store Validator :=
  match writeStates env (processState codec) 0 states blockRoots store.db with
  | .error err => (.error err, store)
  | .ok db =>
    let stored := storeValidatorEntriesSeparately env 0
      (env.iterate (validatorsEntries codec states)) db.stateValidators store.validatorEntryCache
    let store := { store with validatorEntryCache := stored.cache }
    store.update (.ok { db with stateValidators := stored.valBkt }) stored.err

def saveState (env : SaveEnvironment) (st : BeaconState Validator Body) (blockRoot : Root) :
    Except Fault Unit × Store Validator :=
  if isStateValidatorMigrationOver enabled store.db then
    saveStatesEfficient codec store env [st] [blockRoot]
  else saveStates codec store env [st] [blockRoot]

/-- The loop of `validatorEntries` over the keys, with the cache that it fills. -/
def readEntries (valBkt : Bucket Root Validator) :
    List Root → (Root → Option Validator) →
      Except Fault (List Validator) × (Root → Option Validator)
  | [], cache => (.ok [], cache)
  | key :: keys, cache =>
    match cache key with
    | some valEntry =>
      let rest := readEntries valBkt keys cache
      (rest.1.map (valEntry :: ·), rest.2)
    | none =>
      match valBkt.get key with
      | none => (.error (.error (.errorf "could not find validator entry" [])), cache)
      | some valEntry =>
        let rest := readEntries valBkt keys (Function.update cache key (some valEntry))
        (rest.1.map (valEntry :: ·), rest.2)

section

variable (blockRoot : Root)

/-- `validatorEntries`, with the cache after it. -/
def validatorEntries : Except Fault (List Validator) × (Root → Option Validator) :=
  if isStateValidatorMigrationOver enabled store.db then
    match store.db.blockRootValidatorHashes.get blockRoot with
    | none => (.error (.error (.errorf "validator keys not found for given block root: %x"
        [.bytes blockRoot])), store.validatorEntryCache)
    | some keys => readEntries store.db.stateValidators keys store.validatorEntryCache
  else (.ok [], store.validatorEntryCache)

/-- `State`: no state is nil. -/
def state : Except Fault (Option (BeaconState Validator Body)) × Store Validator :=
  match store.db.states.get blockRoot with
  | none => (.ok none, store)
  | some enc =>
    if enc = [] then (.ok none, store)
    else
      let read := validatorEntries enabled store blockRoot
      let store := { store with validatorEntryCache := read.2 }
      match read.1 with
      | .error err => (.error err, store)
      | .ok valEntries =>
        ((unmarshalState codec (isStateValidatorMigrationOver enabled store.db) enc
          valEntries).map some, store)

def hasState : Bool :=
  match db.states.get blockRoot with
  | none => false
  | some stBytes => stBytes ≠ []

def slotByBlockRoot : Except Fault Slot :=
  match db.stateSummaries.get blockRoot with
  | some stateSummary => .ok stateSummary.slot
  | none =>
    match db.blocks.get blockRoot with
    | some b => .ok b.slot
    | none =>
      match db.states.get blockRoot with
      | none => .error (.error (.errorf "state enc can't be nil" []))
      | some enc => do
        let st ← wrapf (unmarshalState codec (isStateValidatorMigrationOver enabled db) enc [])
          "could not unmarshal state" []
        .ok st.slot

end

/-- How far the transaction of `DeleteState` came: the database in it, and the cache without the
entries that it has evicted. -/
structure Deleted (Validator : Type) where
  db : Db Validator
  cache : Root → Option Validator
  err : Option Fault

/-- The end of the transaction of `DeleteState`, once the indices are deleted. -/
def removeState (cache : Root → Option Validator) (fault : Option TxFault) (blockRoot : Root) :
    Deleted Validator :=
  ⟨{ db with states := db.states.delete blockRoot }, cache,
    ((writeError fault 1).or (commitError fault)).map .error⟩

/-- The transaction of `DeleteState`.  The deletes of the indices are its entry 0 and that of the
state its entry 1. -/
def deleteStateTx (fault : Option TxFault) (blockRoot : Root) : Deleted Validator :=
  let db := store.db
  let cache := store.validatorEntryCache
  let finalizedRoot := (db.finalizedCheckpoint.map (·.root)).or db.genesisBlockRoot
  let justifiedRoot := (db.justifiedCheckpoint.map (·.root)).or db.genesisBlockRoot
  if some blockRoot = finalizedRoot ∨ some blockRoot = db.genesisBlockRoot ∨
      some blockRoot = justifiedRoot then
    ⟨db, cache, some (.error errDeleteJustifiedAndFinalized)⟩
  else match db.states.get blockRoot with
    | none => ⟨db, cache, (commitError fault).map .error⟩
    | some _ =>
      match slotByBlockRoot codec enabled db blockRoot, writeError fault 0 with
      | .error err, _ => ⟨db, cache, some err⟩
      | .ok _, some err => ⟨db, cache, some (.error err)⟩
      | .ok slot, none =>
        let db := { db with stateSlotIndices := cutRoot db.stateSlotIndices slot blockRoot }
        if isStateValidatorMigrationOver enabled db then
          match db.blockRootValidatorHashes.get blockRoot with
          | none =>
            ⟨db, cache, some (.error (.errorf "invalid compressed validator keys length" []))⟩
          | some validatorHashes =>
            removeState
              { db with blockRootValidatorHashes := db.blockRootValidatorHashes.delete blockRoot }
              (fun key ↦ if key ∈ validatorHashes then none else cache key) fault blockRoot
        else removeState db cache fault blockRoot

/-- `DeleteState`.  The cache stays as the transaction has left it, also when that fails. -/
def deleteState (fault : Option TxFault) (blockRoot : Root) : Except Fault Unit × Store Validator :=
  let deleted := deleteStateTx codec enabled store fault blockRoot
  let store := { store with validatorEntryCache := deleted.cache }
  match deleted.err with
  | some err => (.error err, store)
  | none => (.ok (), { store with db := deleted.db })

end Model

def saveJustifiedCheckpoint (store : Store Validator) (fault : Option Error)
    (checkpoint : Checkpoint) : Except Fault Unit × Store Validator :=
  store.update (do
    let db ← ensureStateSummary store checkpoint.root errMissingStateForCheckpoint
    .ok { db with justifiedCheckpoint := some checkpoint }) fault

end Prysm.Kv
