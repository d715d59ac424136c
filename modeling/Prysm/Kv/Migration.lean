import Prysm.Kv.StateMap

/-!
# Migration of the states to separate validators

The migration walks the keys of the state bucket in batches, each in a transaction of its own.  It
moves the validators of a state to the bucket that the states share, and writes the state back
without them.  The mark that the migration is over is written after the last batch.  A run that is
stopped between two batches is started again from the first key, where it finds a state without
validators.

The keys of the forks after Capella are not cut off before a state is decoded.
-/

namespace Prysm.Kv

open List Prysm.Library Version Option

variable {Validator Body : Type} {key : Root}

/-- The fork of an encoding without a key, which `detect.FromState` looks up by the bytes of the
current fork version. -/
structure ForkDetector (codec : StateCodec Validator Body) where
  fromState : Bytes → Except Error Version
  fromState_marshal : ∀ st, fromState (codec.marshalSSZ st) = .ok st.version
  version_unmarshal : ∀ version bytes st,
    codec.unmarshalSSZ version bytes = .ok st → st.version = version

def batchSize : ℕ := 10

/-- The version whose key `performValidatorStateMigration` cuts off and puts in front again. -/
def migratedKey (enc : Bytes) : Version :=
  if hasKey .altair enc then .altair
  else if hasKey .bellatrix enc then .bellatrix
  else if hasKey .capella enc then .capella
  else .phase0

section Model

variable {codec : StateCodec Validator Body} (detector : ForkDetector codec)

/-- `UnmarshalBeaconState` of the detected fork. -/
def unmarshalBeaconState (item : Bytes) : Except Fault (BeaconState Validator Body) :=
  match detector.fromState item with
  | .error err => .error (.error err)
  | .ok fork =>
    match codec.unmarshalSSZ fork item with
    | .error err => .error (.error
        (.wrapf err "failed to unmarshal state, detected fork=%s" [.text fork.string]))
    | .ok st => .ok st

variable (codec)

def insertValidatorHashes :
    List Validator → Bucket Root Validator → Bucket Root Validator × List Root
  | [], valBkt => (valBkt, [])
  | val :: validators, valBkt =>
    let hash := codec.hashTreeRoot val
    let valBkt := if (valBkt.get hash).isNone then valBkt.put hash val else valBkt
    let rest := insertValidatorHashes validators valBkt
    (rest.1, hash :: rest.2)

/-- The writes for a state of a batch. -/
def Db.putMigrated (db : Db Validator) (key : Root) (version : Version)
    (st : BeaconState Validator Body) : Db Validator :=
  let inserted := insertValidatorHashes codec st.validators db.stateValidators
  { db with
    stateValidators := inserted.1
    blockRootValidatorHashes := db.blockRootValidatorHashes.put key inserted.2
    states := db.states.put key
      (stateKey version ++ codec.marshalSSZ { st with validators := [] }) }

variable {codec}

/-- The state that is read for a key of a batch. -/
def migrationState (key : Root) (enc : Bytes) : Except Fault (BeaconState Validator Body) := do
  let beaconState ← unmarshalBeaconState detector (enc.drop (stateKey (migratedKey enc)).length)
  if beaconState.validators = [] then
    .error (.error (.errorf "no validator entries in state key 0x%s" [.bytes key]))
  else .ok beaconState

/-- The loop of `performValidatorStateMigration` over the rest of the keys and the values that the
cursor gives, for at most so many keys.  A cursor at its end gives no value. -/
def migrateEntries :
    ℕ → List Root → List (Root × Bytes) → Db Validator → Except Fault (Db Validator)
  | 0, _, _, db => .ok db
  | _ + 1, [], _, db => .ok db
  | _ + 1, _ :: _, [], _ => .error (.error errSnappyCorrupt)
  | count + 1, key :: keys, (_, enc) :: entries, db => do
    let beaconState ← migrationState detector key enc
    migrateEntries count keys entries (db.putMigrated codec key (migratedKey enc) beaconState)

def performValidatorStateMigration (keys : List Root) (batchIndex : ℕ) (db : Db Validator) :
    Except Fault (Db Validator) :=
  match keys.drop batchIndex with
  | [] => .error .panic
  | first :: rest => migrateEntries detector batchSize (first :: rest) (db.states.seek first) db

/-- The first keys of the batches. -/
def batchIndices (length : ℕ) : List ℕ :=
  (List.range ((length + batchSize - 1) / batchSize)).map (· * batchSize)

/-- The transactions of these batches up to the first that fails. -/
def migrateBatches (keys : List Root) : List ℕ → Db Validator → Option Fault × Db Validator
  | [], db => (none, db)
  | batchIndex :: batches, db =>
    match performValidatorStateMigration detector keys batchIndex db with
    | .error err => (some err, db)
    | .ok db => migrateBatches keys batches db

/-- `shouldMigrateValidators` with the value of the feature flag. -/
def shouldMigrateValidators (enabled : Bool) (db : Db Validator) : Bool :=
  enabled && !db.stateValidatorMigrationCompleted

/-- How a run of the migration ends: it returns, or the process is stopped. -/
inductive MigrationEnd
  | returned (err : Option Fault)
  | stopped
deriving DecidableEq

/-- `migrateStateValidators`, possibly stopped once so many batches are committed. -/
def migrateStateValidators (enabled : Bool) (stop : Option ℕ) (db : Db Validator) :
    MigrationEnd × Db Validator :=
  if shouldMigrateValidators enabled db then
    let keys := db.states.keys
    let batches := batchIndices keys.length
    match stop with
    | none =>
      match migrateBatches detector keys batches db with
      | (some err, db) => (.returned (some err), db)
      | (none, db) => (.returned none, { db with stateValidatorMigrationCompleted := true })
    | some committed =>
      match migrateBatches detector keys (batches.take committed) db with
      | (some err, db) => (.returned (some err), db)
      | (none, db) => (.stopped, db)
  else (.returned none, db)

end Model

section State

variable {codec : StateCodec Validator Body} {detector : ForkDetector codec} {version : Version}

theorem marshalSSZ_ne_nil (codec : StateCodec Validator Body) (st : BeaconState Validator Body) :
    codec.marshalSSZ st ≠ [] := by
  have hlen := codec.length_marshal st
  exact ne_nil_of_length_pos (by omega)

/-- A key that the migration cuts off is found again. -/
theorem migratedKey_append (hver : version.number ≤ capella.number)
    (st : BeaconState Validator Body) :
    migratedKey (stateKey version ++ codec.marshalSSZ st) = version := by
  have hself := hasKey_stateKey_append version (marshalSSZ_ne_nil codec st)
  by_cases hphase0 : version = .phase0
  · rw [hphase0]
    simp [migratedKey, stateKey, codec.not_hasKey]
  · have hother (other : Version) (hother : other ≠ .phase0) (hne : other ≠ version) :
        hasKey other (stateKey version ++ codec.marshalSSZ st) = false :=
      not_hasKey_of_ne hne hother hphase0 _
    unfold migratedKey
    cases version <;> simp_all [number]

theorem number_migratedKey_le (enc : Bytes) : (migratedKey enc).number ≤ capella.number := by
  unfold migratedKey
  split_ifs <;> decide

/-- No key is cut off from the state of a fork after Capella. -/
theorem migratedKey_of_capella_lt {st : BeaconState Validator Body}
    (hver : capella.number < st.version.number) :
    migratedKey (marshalState codec st) = .phase0 := by
  have hother (other : Version) (hother : other.number ≤ capella.number)
      (hne : other ≠ .phase0) : hasKey other (marshalState codec st) = false := by
    refine not_hasKey_of_ne ?_ hne ?_ _
    · rintro rfl
      omega
    · intro hphase0
      rw [hphase0] at hver
      exact absurd hver (by decide)
  rw [migratedKey, hother .altair (by decide) (by decide),
    hother .bellatrix (by decide) (by decide), hother .capella (by decide) (by decide)]
  rfl

theorem unmarshalBeaconState_marshalSSZ (st : BeaconState Validator Body) :
    unmarshalBeaconState detector (codec.marshalSSZ st) = .ok st := by
  rw [unmarshalBeaconState, detector.fromState_marshal]
  dsimp only
  rw [codec.unmarshal_marshal]

theorem migrationState_append (key : Root) (hver : version.number ≤ capella.number)
    (st : BeaconState Validator Body) :
    migrationState detector key (stateKey version ++ codec.marshalSSZ st) =
      if st.validators = [] then
        .error (.error (.errorf "no validator entries in state key 0x%s" [.bytes key]))
      else .ok st := by
  rw [migrationState, migratedKey_append hver, drop_left, unmarshalBeaconState_marshalSSZ, ok_bind]

end State

section Insert

variable {codec : StateCodec Validator Body} {vals : List Validator}

theorem hashes_insertValidatorHashes (vals : List Validator) (valBkt : Bucket Root Validator) :
    (insertValidatorHashes codec vals valBkt).2 = vals.map codec.hashTreeRoot := by
  induction vals generalizing valBkt with
  | nil => rfl
  | cons val vals ih =>
    rw [insertValidatorHashes, map_cons]
    rw [ih]

theorem get_insert_validator (valBkt : Bucket Root Validator) (val : Validator) (key : Root) :
    (if (valBkt.get (codec.hashTreeRoot val)).isNone then valBkt.put (codec.hashTreeRoot val) val
      else valBkt).get key =
      (valBkt.get key).or (if codec.hashTreeRoot val = key then some val else none) := by
  by_cases hkey : codec.hashTreeRoot val = key
  · subst hkey
    cases hget : valBkt.get (codec.hashTreeRoot val) <;> simp [hget]
  · split_ifs <;> simp [hkey]

variable {valBkt : Bucket Root Validator}

/-- An entry of the bucket was there before, or it is one of the validators. -/
theorem get_insertValidatorHashes {val : Validator}
    (hget : (insertValidatorHashes codec vals valBkt).1.get key = some val) :
    valBkt.get key = some val ∨ codec.hashTreeRoot val = key ∧ val ∈ vals := by
  induction vals generalizing valBkt with
  | nil => exact .inl hget
  | cons first vals ih =>
    rcases ih hget with hbefore | ⟨hhash, hmem⟩
    · rw [get_insert_validator, or_eq_some_iff] at hbefore
      grind
    · exact .inr ⟨hhash, mem_cons_of_mem _ hmem⟩

theorem isSome_get_insertValidatorHashes
    (hkey : (valBkt.get key).isSome ∨ key ∈ vals.map codec.hashTreeRoot) :
    ((insertValidatorHashes codec vals valBkt).1.get key).isSome := by
  induction vals generalizing valBkt with
  | nil => simpa [insertValidatorHashes] using hkey
  | cons val vals ih =>
    apply ih
    rw [get_insert_validator, isSome_or]
    grind

end Insert

/-- The database while the migration goes on: these states are migrated, and the others are as they
were stored. -/
structure Migrating {codec : StateCodec Validator Body} (detector : ForkDetector codec)
    (registry : Set Validator) (stored : Root → Option (BeaconState Validator Body))
    (migrated : List Root) (db : Db Validator) : Prop where
  mark : db.stateValidatorMigrationCompleted = false
  unchanged : ∀ root ∉ migrated, db.states.get root = (stored root).map (marshalState codec)
  rewritten : ∀ root ∈ migrated, ∃ st beaconState, stored root = some st ∧
    migrationState detector root (marshalState codec st) = .ok beaconState ∧
    db.states.get root = some (stateKey (migratedKey (marshalState codec st)) ++
      codec.marshalSSZ { beaconState with validators := [] }) ∧
    db.blockRootValidatorHashes.get root = some (validatorKeys codec beaconState) ∧
    ∀ key ∈ validatorKeys codec beaconState, (db.stateValidators.get key).isSome
  validators : ∀ key val, db.stateValidators.get key = some val → codec.hashTreeRoot val = key ∧
    (val ∈ registry ∨ ∃ root st beaconState, stored root = some st ∧
      migrationState detector root (marshalState codec st) = .ok beaconState ∧
      val ∈ beaconState.validators)

/-- The migration cannot read some stored state. -/
def Unreadable {codec : StateCodec Validator Body} (detector : ForkDetector codec)
    (stored : Root → Option (BeaconState Validator Body)) : Prop :=
  ∃ root st err, stored root = some st ∧
    migrationState detector root (marshalState codec st) = .error err

section Walk

variable {codec : StateCodec Validator Body} {detector : ForkDetector codec}
  {registry : Set Validator} {stored : Root → Option (BeaconState Validator Body)}
  {migrated keys : List Root} {db db' start : Db Validator} {entries : List (Root × Bytes)}
  {count i : ℕ}

section

variable (hmig : Migrating detector registry stored migrated db)
include hmig

theorem Migrating.putMigrated {st beaconState : BeaconState Validator Body}
    (hst : stored key = some st)
    (hread : migrationState detector key (marshalState codec st) = .ok beaconState) :
    Migrating detector registry stored (migrated ++ [key])
      (db.putMigrated codec key (migratedKey (marshalState codec st)) beaconState) where
  mark := hmig.mark
  unchanged root hroot := by
    obtain ⟨hmigrated, hkey⟩ : root ∉ migrated ∧ root ≠ key := by simpa using hroot
    rw [Db.putMigrated, Bucket.get_put, if_neg (Ne.symm hkey), hmig.unchanged root hmigrated]
  rewritten root hroot := by
    by_cases hkey : key = root
    · subst hkey
      refine ⟨st, beaconState, hst, hread, ?_, ?_, fun hash hmem ↦ ?_⟩
      · rw [Db.putMigrated, Bucket.get_put, if_pos rfl]
      · rw [Db.putMigrated, Bucket.get_put, if_pos rfl, hashes_insertValidatorHashes]
        rfl
      · exact isSome_get_insertValidatorHashes (.inr hmem)
    · have hmigrated : root ∈ migrated := by simpa [Ne.symm hkey] using hroot
      obtain ⟨st, beaconState, hst, hread, hstates, hhashes, hvals⟩ := hmig.rewritten root hmigrated
      refine ⟨st, beaconState, hst, hread, ?_, ?_, fun hash hmem ↦ ?_⟩
      · rw [Db.putMigrated, Bucket.get_put, if_neg hkey, hstates]
      · rw [Db.putMigrated, Bucket.get_put, if_neg hkey, hhashes]
      · exact isSome_get_insertValidatorHashes (.inl (hvals hash hmem))
  validators hash val hval := by
    rcases get_insertValidatorHashes hval with hbefore | ⟨hhash, hmem⟩
    · exact hmig.validators hash val hbefore
    · grind

/-- The migration neither adds nor drops a key. -/
theorem Migrating.isSome_get (root : Root) :
    (db.states.get root).isSome = (stored root).isSome := by
  by_cases hroot : root ∈ migrated
  · obtain ⟨st, beaconState, hst, -, hstates, -⟩ := hmig.rewritten root hroot
    rw [hstates, hst]
    rfl
  · rw [hmig.unchanged root hroot, isSome_map]

/-- The keys stay the same through the whole migration. -/
theorem Migrating.keys_eq {other : List Root}
    (hother : Migrating detector registry stored other db') : db.states.keys = db'.states.keys :=
  Bucket.keys_congr fun root ↦ by rw [hmig.isSome_get, hother.isSome_get]

theorem Migrating.migrateEntries (hentries : ∀ entry ∈ entries,
    ∃ st, stored entry.1 = some st ∧ entry.2 = marshalState codec st) :
    match migrateEntries detector count (entries.map Prod.fst) entries db with
    | .error _ => Unreadable detector stored
    | .ok db' =>
      Migrating detector registry stored (migrated ++ (entries.map Prod.fst).take count) db' := by
  induction entries generalizing migrated count db with
  | nil => cases count <;> simpa [Kv.migrateEntries] using hmig
  | cons entry entries ih =>
    cases count with
    | zero => simpa [Kv.migrateEntries] using hmig
    | succ count =>
      obtain ⟨st, hst, henc⟩ := hentries entry mem_cons_self
      rw [map_cons, Kv.migrateEntries, henc]
      cases hread : migrationState detector entry.1 (marshalState codec st) with
      | error err => exact ⟨entry.1, st, err, hst, hread⟩
      | ok beaconState =>
        have hrest := @ih _ _ count (hmig.putMigrated hst hread)
          fun other hother ↦ hentries other (mem_cons_of_mem _ hother)
        rwa [append_assoc] at hrest

end

/-- A batch walks the entries behind those of the batches before it. -/
theorem performValidatorStateMigration_eq (hi : i < db.states.keys.length) :
    performValidatorStateMigration detector db.states.keys i db =
      migrateEntries detector batchSize ((db.states.entries.drop i).map Prod.fst)
        (db.states.entries.drop i) db := by
  rw [performValidatorStateMigration]
  cases hdrop : db.states.keys.drop i with
  | nil =>
    rw [drop_eq_nil_iff] at hdrop
    omega
  | cons first rest =>
    dsimp only
    rw [db.states.seek_eq_drop hdrop, map_drop, ← Bucket.keys, hdrop]

section

variable (hmig : Migrating detector registry stored (db.states.keys.take i) db)
include hmig

/-- The entries behind those of the batches before are as they were stored. -/
theorem Migrating.entries_drop {entry : Root × Bytes} (hentry : entry ∈ db.states.entries.drop i) :
    ∃ st, stored entry.1 = some st ∧ entry.2 = marshalState codec st := by
  have hnot : entry.1 ∉ db.states.keys.take i := by
    intro htaken
    have hsplit := db.states.sorted_keys
    rw [← take_append_drop i db.states.keys, pairwise_append] at hsplit
    have hdropped : entry.1 ∈ db.states.keys.drop i := by
      rw [Bucket.keys, ← map_drop]
      exact mem_map_of_mem hentry
    exact lt_irrefl _ (hsplit.2.2 _ htaken _ hdropped)
  have hget := (db.states.mem_entries_iff _ _).1 (mem_of_mem_drop hentry)
  rw [hmig.unchanged _ hnot] at hget
  obtain ⟨st, hst, henc⟩ := map_eq_some_iff.1 hget
  exact ⟨st, hst, henc.symm⟩

theorem Migrating.performValidatorStateMigration (hi : i < db.states.keys.length) :
    match performValidatorStateMigration detector db.states.keys i db with
    | .error _ => Unreadable detector stored
    | .ok db' => Migrating detector registry stored (db.states.keys.take (i + batchSize)) db' := by
  rw [performValidatorStateMigration_eq hi, take_add, Bucket.keys, ← map_drop]
  exact hmig.migrateEntries fun _ hentry ↦ hmig.entries_drop hentry

end

theorem mul_batchSize_lt {n length : ℕ} (hn : n < (length + batchSize - 1) / batchSize) :
    n * batchSize < length := by
  unfold batchSize at hn ⊢
  omega

/-- The committed batches are the first ones, and all of them if none has failed. -/
theorem Migrating.migrateBatches (hstart : Migrating detector registry stored [] start)
    (hkeys : keys = start.states.keys)
    (hmig : Migrating detector registry stored (keys.take (i * batchSize)) db) {batches : ℕ}
    (hbatches : i + batches ≤ (keys.length + batchSize - 1) / batchSize) :
    ∃ err db' n,
      migrateBatches detector keys ((List.range' i batches).map (· * batchSize)) db = (err, db') ∧
      i ≤ n ∧ Migrating detector registry stored (keys.take (n * batchSize)) db' ∧
      (err = none ∧ n = i + batches ∨ err ≠ none ∧ Unreadable detector stored) := by
  induction batches generalizing i db with
  | zero => exact ⟨none, db, i, rfl, le_rfl, hmig, .inl ⟨rfl, rfl⟩⟩
  | succ batches ih =>
    obtain rfl : keys = db.states.keys := hkeys.trans (hstart.keys_eq hmig)
    have hbatch := hmig.performValidatorStateMigration (mul_batchSize_lt (by omega))
    rw [range'_succ, map_cons, Kv.migrateBatches]
    cases hrun : Kv.performValidatorStateMigration detector db.states.keys (i * batchSize) db with
    | error err =>
      rw [hrun] at hbatch
      exact ⟨some err, db, i, rfl, le_rfl, hmig, .inr ⟨nofun, hbatch⟩⟩
    | ok next =>
      rw [hrun, ← Nat.succ_mul] at hbatch
      obtain ⟨err, db', n, hrest, hle, hdone, hend⟩ := ih hbatch (by omega)
      refine ⟨err, db', n, hrest, by omega, hdone, hend.imp_left fun hall ↦ ⟨hall.1, ?_⟩⟩
      omega

/-- A batch that meets a migrated state at its start fails. -/
theorem Migrating.performValidatorStateMigration_of_mem
    (hmig : Migrating detector registry stored migrated db) {first : Root} {rest : List Root}
    (hkeys : db.states.keys = first :: rest) (hfirst : first ∈ migrated) :
    ∃ err, Kv.performValidatorStateMigration detector db.states.keys 0 db = .error err := by
  obtain ⟨st, beaconState, -, -, hstates, -⟩ := hmig.rewritten first hfirst
  have hlen : 0 < db.states.keys.length := by
    rw [hkeys]
    exact Nat.succ_pos _
  rw [performValidatorStateMigration_eq hlen, drop_zero]
  cases hentries : db.states.entries with
  | nil =>
    rw [Bucket.keys, hentries] at hkeys
    cases hkeys
  | cons entry entries =>
    have hkey : entry.1 = first := by
      rw [Bucket.keys, hentries] at hkeys
      exact (List.cons.inj hkeys).1
    have hget := (db.states.mem_entries_iff entry.1 entry.2).1 (hentries ▸ mem_cons_self)
    rw [hkey, hstates] at hget
    rw [map_cons, batchSize, Kv.migrateEntries, ← some.inj hget,
      migrationState_append _ (number_migratedKey_le _), if_pos rfl]
    exact ⟨_, rfl⟩

end Walk

section Runs

variable {codec : StateCodec Validator Body} {detector : ForkDetector codec}
  {registry : Set Validator} {stored : Root → Option (BeaconState Validator Body)}
  {migrated : List Root} {db : Db Validator} {root : Root} {length : ℕ}

theorem le_mul_batchSize (length : ℕ) :
    length ≤ (length + batchSize - 1) / batchSize * batchSize := by
  unfold batchSize
  omega

section

variable (hmig : Migrating detector registry stored migrated db)
include hmig

theorem Migrating.shouldMigrateValidators : shouldMigrateValidators true db = true := by
  rw [Kv.shouldMigrateValidators, hmig.mark]
  rfl

/-- The batches of a stopped run, also of one that fails before it is stopped. -/
theorem migrateStateValidators_stopped (committed : ℕ) :
    (migrateStateValidators detector true (some committed) db).2 =
      (migrateBatches detector db.states.keys
        ((batchIndices db.states.keys.length).take committed) db).2 := by
  rw [migrateStateValidators, if_pos hmig.shouldMigrateValidators]
  grind

omit hmig in
theorem take_batchIndices (length committed : ℕ) :
    (batchIndices length).take committed =
      (List.range' 0 (min committed ((length + batchSize - 1) / batchSize))).map
        (· * batchSize) := by
  rw [batchIndices, ← map_take, take_range, range_eq_range']

omit hmig in
/-- The first batch starts at the first key. -/
theorem batchIndices_eq_cons (hlen : 0 < length) :
    ∃ batches, (length + batchSize - 1) / batchSize = batches + 1 ∧
      batchIndices length = 0 :: (List.range' 1 batches).map (· * batchSize) ∧
      ∀ committed, (batchIndices length).take (committed + 1) =
        0 :: (List.range' 1 (min committed batches)).map (· * batchSize) := by
  obtain ⟨batches, hbatches⟩ :
      ∃ batches, (length + batchSize - 1) / batchSize = batches + 1 := by
    refine Nat.exists_eq_succ_of_ne_zero ?_
    unfold batchSize
    omega
  refine ⟨batches, hbatches, ?_, fun committed ↦ ?_⟩
  · rw [batchIndices, hbatches, range_eq_range', range'_succ, map_cons, Nat.zero_mul]
  · rw [take_batchIndices, hbatches, Nat.succ_min_succ, range'_succ, map_cons, Nat.zero_mul]

/-- A run whose first batch fails returns the error. -/
theorem Migrating.not_returned_of_error (hkeys : 0 < db.states.keys.length) {err : Fault}
    (hbatch : Kv.performValidatorStateMigration detector db.states.keys 0 db = .error err) :
    (migrateStateValidators detector true none db).1 ≠ .returned none := by
  obtain ⟨batches, -, hindices, -⟩ := batchIndices_eq_cons hkeys
  rw [migrateStateValidators, if_pos hmig.shouldMigrateValidators]
  dsimp only
  rw [hindices, Kv.migrateBatches, hbatch]
  nofun

end

/-- Once a batch is committed or has failed, a further run fails. -/
theorem Migrating.not_returned (hstart : Migrating detector registry stored [] db) {committed : ℕ}
    (hcommitted : committed ≠ 0) (hroot : (stored root).isSome) :
    (migrateStateValidators detector true none
      (migrateStateValidators detector true (some committed) db).2).1 ≠ .returned none := by
  have hmem : root ∈ db.states.keys := by
    rw [Bucket.mem_keys_iff, hstart.isSome_get, hroot]
  have hlen := length_pos_of_mem hmem
  obtain ⟨first, rest, hkeys⟩ := exists_cons_of_ne_nil (ne_nil_of_mem hmem)
  obtain ⟨committed, rfl⟩ := Nat.exists_eq_succ_of_ne_zero hcommitted
  obtain ⟨batches, hbatches, -, htake⟩ := batchIndices_eq_cons hlen
  rw [migrateStateValidators_stopped hstart, htake, Kv.migrateBatches]
  cases hbatch : Kv.performValidatorStateMigration detector db.states.keys 0 db with
  | error err => exact hstart.not_returned_of_error hlen hbatch
  | ok db' =>
    have hfirst := Migrating.performValidatorStateMigration (i := 0) (by simpa using hstart) hlen
    rw [hbatch, Nat.zero_add, ← Nat.one_mul batchSize] at hfirst
    have hinside : 1 + min committed batches ≤ _ := (by omega : _ ≤ batches + 1).trans hbatches.ge
    obtain ⟨err, stopped, n, hrun, hn, hstopped, -⟩ := hstart.migrateBatches rfl hfirst hinside
    dsimp only
    rw [hrun]
    -- the first key is in the first batch, so that it is met again without its validators
    have hsame := hstart.keys_eq hstopped
    have hmet : first ∈ db.states.keys.take (n * batchSize) := by
      obtain ⟨n, rfl⟩ := Nat.exists_eq_succ_of_ne_zero (show n ≠ 0 by omega)
      rw [hkeys, Nat.succ_mul, batchSize, take_succ_cons]
      exact mem_cons_self
    obtain ⟨err, herr⟩ :=
      hstopped.performValidatorStateMigration_of_mem (hsame.symm.trans hkeys) hmet
    exact hstopped.not_returned_of_error (hsame ▸ hlen) herr

variable {st : BeaconState Validator Body} {store : Store Validator}

/-- The state that is read for a key of a state up to Capella. -/
theorem migrationState_marshalState (root : Root)
    (hver : st.version.number ≤ capella.number) (hvals : st.validators ≠ []) :
    migrationState detector root (marshalState codec st) = .ok st := by
  rw [marshalState, migrationState_append root hver, if_neg hvals]

/-- A run migrates every state and returns, or it fails on one that cannot be read. -/
theorem Migrating.outcome (hstart : Migrating detector registry stored [] db) :
    (∃ db', Migrating detector registry stored db.states.keys db' ∧
      migrateStateValidators detector true none db =
        (.returned none, { db' with stateValidatorMigrationCompleted := true })) ∨
    (migrateStateValidators detector true none db).1 ≠ .returned none ∧
      Unreadable detector stored := by
  obtain ⟨err, db', n, hrun, -, hdone, hend⟩ := hstart.migrateBatches (i := 0) rfl
    (by simpa using hstart) (Nat.zero_add _).le
  rw [← range_eq_range', ← batchIndices] at hrun
  rw [migrateStateValidators, if_pos hstart.shouldMigrateValidators]
  dsimp only
  rw [hrun]
  rcases hend with ⟨rfl, rfl⟩ | ⟨herr, hunreadable⟩
  · rw [Nat.zero_add, take_of_length_le (le_mul_batchSize _)] at hdone
    exact .inl ⟨db', hdone, rfl⟩
  · cases err with
    | none => exact absurd rfl herr
    | some err => exact .inr ⟨nofun, hunreadable⟩

/-- A state that is read has the version of the key that is found. -/
theorem version_of_state (detector : ForkDetector codec) {enc : Bytes}
    (hget : store.db.states.get root = some enc)
    (hst : (state codec true store root).1 = .ok (some st)) : st.version = encodedVersion enc := by
  unfold state at hst
  rw [hget] at hst
  dsimp only at hst
  split_ifs at hst
  · cases hst
  · cases hread : (validatorEntries true store root).1 with
    | error err =>
      rw [hread] at hst
      cases hst
    | ok valEntries =>
      rw [hread] at hst
      unfold unmarshalState at hst
      dsimp only at hst
      cases hdecoded : codec.unmarshalSSZ (encodedVersion enc)
          (enc.drop (stateKey (encodedVersion enc)).length) with
      | error err =>
        rw [hdecoded] at hst
        cases hst
      | ok decoded =>
        rw [hdecoded, isStateValidatorMigrationOver_true] at hst
        have hver := detector.version_unmarshal _ _ _ hdecoded
        obtain rfl := some.inj (Except.ok.inj hst)
        exact hver

theorem Migrating.state_eq (hinj : Set.InjOn codec.hashTreeRoot registry)
    (hmig : Migrating detector registry stored migrated db)
    (hstored : ∀ root st, stored root = some st → st.version.number ≤ capella.number ∧
      st.validators ≠ [] ∧ ∀ val ∈ st.validators, val ∈ registry) (hroot : root ∈ migrated) :
    (state codec true (Store.open { db with stateValidatorMigrationCompleted := true })
      root).1 = .ok (stored root) := by
  have hsame {root : Root} {st beaconState : BeaconState Validator Body}
      (hst : stored root = some st)
      (hread : migrationState detector root (marshalState codec st) = .ok beaconState) :
      beaconState = st := by
    obtain ⟨hver, hvals, -⟩ := hstored root st hst
    rw [migrationState_marshalState root hver hvals] at hread
    exact (Except.ok.inj hread).symm
  obtain ⟨st, beaconState, hst, hread, hstates, hhashes, hkeys⟩ := hmig.rewritten root hroot
  obtain rfl := hsame hst hread
  obtain ⟨hver, -, hreg⟩ := hstored root beaconState hst
  have hwritten : db.states.get root =
      some (marshalState codec { beaconState with validators := [] }) := by
    rwa [marshalState, migratedKey_append hver] at hstates
  rw [hst]
  refine state_eq_of_parts hwritten hhashes (fun val hval ↦ ?_) (by simp [Store.open])
  obtain ⟨other, hother⟩ := isSome_iff_exists.1 (hkeys _ (mem_map_of_mem hval))
  obtain ⟨hhash, hknown⟩ := hmig.validators _ _ hother
  have hotherRegistered : other ∈ registry := by
    grind
  obtain rfl := hinj hotherRegistered (hreg val hval) hhash
  exact hother

/-- A state of a fork after Capella is not read back. -/
theorem Migrating.state_ne (hmig : Migrating detector registry stored migrated db)
    (hroot : root ∈ migrated) (hst : stored root = some st)
    (hver : capella.number < st.version.number) (hstates : store.db.states = db.states) :
    (state codec true store root).1 ≠ .ok (some st) := by
  intro hstate
  obtain ⟨st', beaconState, hst', -, hget, -⟩ := hmig.rewritten root hroot
  obtain rfl := some.inj (hst.symm.trans hst')
  rw [← hstates, migratedKey_of_capella_lt hver] at hget
  have hread := version_of_state detector hget hstate
  have hphase0 (other : Version) (hother : other ≠ .phase0) :=
    codec.not_hasKey { beaconState with validators := [] } other hother
  have hfound : encodedVersion (stateKey .phase0 ++
      codec.marshalSSZ { beaconState with validators := [] }) = .phase0 := by
    simp [encodedVersion, stateKey, hphase0]
  rw [hfound] at hread
  rw [hread] at hver
  exact absurd hver (by decide)

/-- Without the feature flag the states are read as they are stored. -/
theorem state_disabled (hmark : db.stateValidatorMigrationCompleted = false)
    (hget : db.states.get root = some (marshalState codec st)) :
    (state codec false (Store.open db) root).1 = .ok (some st) := by
  have hover : isStateValidatorMigrationOver false db = false := hmark
  have hread : validatorEntries false (Store.open db) root = (.ok [], fun _ ↦ none) :=
    if_neg (by rw [show (Store.open db).db = db from rfl, hover]; decide)
  have hdecoded : unmarshalState codec false (marshalState codec st) [] = .ok st := by
    rw [unmarshalState, encodedVersion_marshalState, marshalState, drop_left,
      codec.unmarshal_marshal]
    rfl
  unfold state
  rw [show (Store.open db).db.states.get root = _ from hget]
  dsimp only
  rw [if_neg (marshalState_ne_nil _), hread]
  dsimp only
  rw [show isStateValidatorMigrationOver false (Store.open db).db = false from hover, hdecoded]
  rfl

/-- A migration that was stopped can be run again exactly if no batch was committed.  It also
requires that no state is of a fork after Capella. -/
theorem migration_restarts_iff (hinj : Set.InjOn codec.hashTreeRoot registry)
    (hstates : ∀ root, db.states.get root = (stored root).map (marshalState codec))
    (hstored : ∀ root st, stored root = some st →
      st.validators ≠ [] ∧ ∀ val ∈ st.validators, val ∈ registry)
    (hvalidators : ∀ key val, db.stateValidators.get key = some val →
      codec.hashTreeRoot val = key ∧ val ∈ registry)
    (hmark : db.stateValidatorMigrationCompleted = false) (enabled : Bool) (committed : ℕ) :
    (∃ db', migrateStateValidators detector enabled none
        (migrateStateValidators detector enabled (some committed) db).2 = (.returned none, db') ∧
      ∀ root st, stored root = some st →
        (state codec enabled (Store.open db') root).1 = .ok (some st)) ↔
    enabled = false ∨ (∀ root, stored root = none) ∨
      committed = 0 ∧ ∀ root st, stored root = some st →
        st.version.number ≤ Version.capella.number := by
  have hstart : Migrating detector registry stored [] db :=
    ⟨hmark, fun root _ ↦ hstates root, nofun, fun key val hval ↦
      ⟨(hvalidators key val hval).1, .inl (hvalidators key val hval).2⟩⟩
  cases enabled with
  | false =>
    refine iff_of_true ⟨db, rfl, fun root st hst ↦ ?_⟩ (.inl rfl)
    exact state_disabled hmark (by rw [hstates, hst]; rfl)
  | true =>
    have hmem {root : Root} (hroot : (stored root).isSome) : root ∈ db.states.keys := by
      rw [Bucket.mem_keys_iff, hstart.isSome_get, hroot]
    by_cases hempty : ∀ root, stored root = none
    · have hkeys : db.states.keys = [] := by
        refine eq_nil_iff_forall_not_mem.2 fun root hroot ↦ ?_
        rw [Bucket.mem_keys_iff, hstart.isSome_get, hempty] at hroot
        cases hroot
      have hfirst : (migrateStateValidators detector true (some committed) db).2 = db := by
        rw [migrateStateValidators_stopped hstart, hkeys, length_nil, take_batchIndices]
        simp [batchSize, Kv.migrateBatches]
      rcases hstart.outcome with ⟨last, -, hlast⟩ | ⟨-, root, st, -, hst, -⟩
      · exact iff_of_true ⟨_, hfirst.symm ▸ hlast, by simp [hempty]⟩ (.inr (.inl hempty))
      · cases (hempty root).symm.trans hst
    · obtain ⟨known, hknown⟩ := not_forall.1 hempty
      have hfirst : (migrateStateValidators detector true (some 0) db).2 = db := by
        rw [migrateStateValidators_stopped hstart, take_zero]
        rfl
      constructor
      · rintro ⟨db', hrun, hreads⟩
        have hzero : committed = 0 := by
          by_contra hcommitted
          exact hstart.not_returned hcommitted (isSome_iff_ne_none.2 hknown)
            (congrArg Prod.fst hrun)
        rw [hzero, hfirst] at hrun
        rcases hstart.outcome with ⟨last, hmigrated, hlast⟩ | ⟨hfails, -⟩
        · obtain rfl := (Prod.mk.inj (hlast.symm.trans hrun)).2
          refine .inr (.inr ⟨hzero, fun root st hst ↦ le_of_not_gt fun hlt ↦ ?_⟩)
          exact hmigrated.state_ne (hmem (by rw [hst]; rfl)) hst hlt rfl (hreads root st hst)
        · exact absurd (congrArg Prod.fst hrun) hfails
      · rintro (hflag | hnone | ⟨rfl, hversions⟩)
        · cases hflag
        · exact absurd hnone hempty
        · rcases hstart.outcome with ⟨last, hmigrated, hlast⟩ | ⟨-, root, st, err, hst, hread⟩
          · rw [hfirst]
            refine ⟨_, hlast, fun root st hst ↦ ?_⟩
            rw [hmigrated.state_eq hinj (fun root st hst ↦
              ⟨hversions root st hst, hstored root st hst⟩) (hmem (by rw [hst]; rfl)), hst]
          · rw [migrationState_marshalState root (hversions root st hst) (hstored root st hst).1]
              at hread
            cases hread

end Runs

/-- The versions of `numberCodec` are told by their byte. -/
def numberDetector : ForkDetector numberCodec where
  fromState bytes :=
    match ([.phase0, .altair, .bellatrix, .capella, .deneb, .electra, .fulu] :
        List Version).find? fun version ↦ bytes[8]? = some version.number with
    | some version => .ok version
    | none => .error (.errorf "version not found" [])
  fromState_marshal st := by
    cases hversion : st.version <;> simp [numberCodec, hversion, Version.number]
  version_unmarshal version bytes st hst := by
    simp only [numberCodec] at hst
    split at hst
    · split_ifs at hst
      obtain rfl := Except.ok.inj hst
      rfl
    · cases hst

/-- A database from before the migration. -/
def unmigratedDb (st : BeaconState ℕ ℕ) : Db ℕ :=
  { (Db.empty : Db ℕ) with states := Bucket.empty.put 1 (marshalState numberCodec st) }

/-- The only batch is committed and the process is stopped before the mark is written: the next run
finds a state without validators.  The state of a fork after Capella cannot be migrated at all. -/
theorem stopped_migration_fails :
    migrateStateValidators numberDetector true none
        (migrateStateValidators numberDetector true (some 1) (unmigratedDb twoValidators)).2 =
      (.returned (some (.error (.errorf "no validator entries in state key 0x%s"
          [.bytes (some 1)]))),
        (migrateStateValidators numberDetector true (some 1) (unmigratedDb twoValidators)).2) ∧
    migrateStateValidators numberDetector true none
        (migrateStateValidators numberDetector true (some 0)
          (unmigratedDb { twoValidators with version := .deneb })).2 =
      (.returned (some (.error (.wrapf errSize "failed to unmarshal state, detected fork=%s"
          [.text "phase0"]))),
        unmigratedDb { twoValidators with version := .deneb }) :=
  ⟨rfl, rfl⟩

/-- A migration that was stopped before its first batch. -/
theorem migration_restarts_iff_twoValidators :
    ∃ db', migrateStateValidators numberDetector true none
        (migrateStateValidators numberDetector true (some 0) (unmigratedDb twoValidators)).2 =
          (.returned none, db') ∧
      (state numberCodec true (Store.open db') 1).1 = .ok (some twoValidators) := by
  let stored (root : Root) : Option (BeaconState ℕ ℕ) :=
    if root = 1 then some twoValidators else none
  have hstored (root : Root) (st : BeaconState ℕ ℕ) (hst : stored root = some st) :
      st = twoValidators := (some.inj (ite_none_right_eq_some.1 hst).2).symm
  have hstates (root : Root) : (unmigratedDb twoValidators).states.get root =
      (stored root).map (marshalState numberCodec) := by
    rw [unmigratedDb, Bucket.get_put]
    by_cases hroot : root = 1
    · grind
    · rw [if_neg (Ne.symm hroot), show stored root = none from if_neg hroot]
      rfl
  have hvals (root : Root) (st : BeaconState ℕ ℕ) (hst : stored root = some st) :
      st.validators ≠ [] ∧ ∀ val ∈ st.validators, val ∈ numberRegistry := by
    obtain rfl := hstored root st hst
    exact ⟨by decide, by simp [twoValidators, numberRegistry]⟩
  have hversions (root : Root) (st : BeaconState ℕ ℕ) (hst : stored root = some st) :
      st.version.number ≤ capella.number := by
    obtain rfl := hstored root st hst
    decide
  obtain ⟨db', hrun, hreads⟩ := (migration_restarts_iff injOn_numberRegistry hstates hvals nofun rfl
    true 0).2 (.inr (.inr ⟨rfl, hversions⟩))
  exact ⟨db', hrun, hreads 1 twoValidators (if_pos rfl)⟩

end Prysm.Kv
