import Prysm.Kv.States

/-!
# The state store as a map

As long as a save that fails has cached nothing new, `SaveStates` only saves states whose validators
are already listed for the root and no checkpoint save recovers a summary, the store is a map from
roots to states.  The invariant says that every hash in a list of hashes has its validator in the
database, and that the cache only holds validators of the database.
-/

namespace Prysm.Kv

open List Function Prysm.Library Bucket Option

variable {Validator Body : Type} {codec : StateCodec Validator Body} {key : Root}

/-! ### The store as a map -/

/-- The parts of the state of a root, if there is one. -/
def StateAt (codec : StateCodec Validator Body) (db : Db Validator) (root : Root) :
    Option (BeaconState Validator Body) → Prop
  | none => db.states.get root = none
  | some st =>
    (∃ others, db.states.get root = some (marshalState codec { st with validators := others })) ∧
      db.blockRootValidatorHashes.get root = some (validatorKeys codec st)

variable {db db' : Db Validator} {st : Option (BeaconState Validator Body)} {root : Root}

/-- Only the state and the hashes of the root matter. -/
theorem StateAt.congr (hat : StateAt codec db root st)
    (hstates : db'.states.get root = db.states.get root)
    (hkeys : db'.blockRootValidatorHashes.get root = db.blockRootValidatorHashes.get root) :
    StateAt codec db' root st := by
  cases st with
  | none => exact hstates.trans hat
  | some st => exact ⟨hat.1.imp fun _ h ↦ hstates.trans h, hkeys.trans hat.2⟩

/-- The state of one root is replaced, and the others are as they were. -/
theorem StateAt.update {saved : Root → Option (BeaconState Validator Body)}
    (hstates : ∀ root, StateAt codec db root (saved root)) (hkey : StateAt codec db' key st)
    (hget : ∀ root, key ≠ root → db'.states.get root = db.states.get root)
    (hkeys : ∀ root, key ≠ root →
      db'.blockRootValidatorHashes.get root = db.blockRootValidatorHashes.get root) (root : Root) :
    StateAt codec db' root (Function.update saved key st root) := by
  by_cases heq : key = root
  · subst heq
    rwa [update_self]
  · rw [update_of_ne (Ne.symm heq)]
    exact (hstates root).congr (hget root heq) (hkeys root heq)

/-- The store holds these states, with validators from a set without colliding hashes. -/
structure HoldsStates (codec : StateCodec Validator Body) (registry : Set Validator)
    (store : Store Validator) (saved : Root → Option (BeaconState Validator Body)) : Prop where
  states : ∀ root, StateAt codec store.db root (saved root)
  registered : ∀ root st, saved root = some st → ∀ val ∈ st.validators, val ∈ registry
  keys : ∀ root keys, store.db.blockRootValidatorHashes.get root = some keys →
    ∀ key ∈ keys, (store.db.stateValidators.get key).isSome
  validators : ∀ key val, store.db.stateValidators.get key = some val →
    codec.hashTreeRoot val = key ∧ val ∈ registry
  cached : ∀ key val, store.validatorEntryCache key = some val →
    store.db.stateValidators.get key = some val

variable {config : BeaconChainConfig} {registry : Set Validator} {store store' : Store Validator}
  {saved : Root → Option (BeaconState Validator Body)} {states : List (BeaconState Validator Body)}
  {blockRoots : List Root} {valBkt : Bucket Root Validator} {cache : Root → Option Validator}
  {env : SaveEnvironment} {st : BeaconState Validator Body} {err : Fault} {val : Validator} {i : ℕ}

variable (hholds : HoldsStates codec registry store saved)

section Reads

/-- The cache only gets entries of the database. -/
theorem cached_readEntries (hcached : ∀ key val, cache key = some val → valBkt.get key = some val)
    (keys : List Root) (key : Root) (val : Validator)
    (hval : (readEntries valBkt keys cache).2 key = some val) : valBkt.get key = some val := by
  induction keys generalizing cache with
  | nil => exact hcached key val hval
  | cons first keys ih =>
    unfold readEntries at hval
    cases hfirst : cache first with
    | some entry =>
      rw [hfirst] at hval
      exact ih hcached hval
    | none =>
      rw [hfirst] at hval
      cases hget : valBkt.get first with
      | none =>
        rw [hget] at hval
        exact hcached key val hval
      | some entry =>
        rw [hget] at hval
        refine ih (fun other val hother ↦ ?_) hval
        grind

theorem readEntries_eq_ok {vals : List Validator}
    (hvals : ∀ val ∈ vals, valBkt.get (codec.hashTreeRoot val) = some val)
    (hcached : ∀ key val, cache key = some val → valBkt.get key = some val) :
    (readEntries valBkt (vals.map codec.hashTreeRoot) cache).1 = .ok vals := by
  induction vals generalizing cache with
  | nil => rfl
  | cons val vals ih =>
    have hval := hvals val mem_cons_self
    have hrest (other : Validator) (hother : other ∈ vals) := hvals other (mem_cons_of_mem _ hother)
    rw [map_cons, readEntries]
    cases hcache : cache (codec.hashTreeRoot val) with
    | some entry =>
      obtain rfl : entry = val := some.inj ((hcached _ _ hcache).symm.trans hval)
      dsimp only
      rw [ih hrest hcached]
      rfl
    | none =>
      rw [hval]
      dsimp only
      rw [ih hrest]
      · rfl
      · grind

include hholds in
theorem HoldsStates.get_validator (hinj : Set.InjOn codec.hashTreeRoot registry) {root : Root}
    (hst : saved root = some st) (hval : val ∈ st.validators) :
    store.db.stateValidators.get (codec.hashTreeRoot val) = some val := by
  have hparts := hholds.states root
  rw [hst] at hparts
  obtain ⟨other, hother⟩ := isSome_iff_exists.1
    (hholds.keys root _ hparts.2 _ (mem_map_of_mem hval))
  obtain ⟨hhash, hreg⟩ := hholds.validators _ _ hother
  rw [hother, hinj hreg (hholds.registered root st hst val hval) hhash]

theorem marshalState_ne_nil (st : BeaconState Validator Body) : marshalState codec st ≠ [] := by
  have hlen := codec.length_marshal st
  refine ne_nil_of_length_pos ?_
  rw [marshalState, length_append]
  omega

/-- `State` puts the parts of a stored state together. -/
theorem state_eq_of_parts {others : List Validator}
    (hget : store.db.states.get root = some (marshalState codec { st with validators := others }))
    (hkeys : store.db.blockRootValidatorHashes.get root = some (validatorKeys codec st))
    (hvals : ∀ val ∈ st.validators,
      store.db.stateValidators.get (codec.hashTreeRoot val) = some val)
    (hcached : ∀ key val, store.validatorEntryCache key = some val →
      store.db.stateValidators.get key = some val) :
    (state codec true store root).1 = .ok (some st) := by
  have hread : (validatorEntries true store root).1 = .ok st.validators := by
    unfold validatorEntries
    rw [isStateValidatorMigrationOver_true, if_pos rfl, hkeys]
    exact readEntries_eq_ok hvals hcached
  unfold state
  rw [hget]
  dsimp only
  rw [if_neg (marshalState_ne_nil _), hread]
  dsimp only
  rw [isStateValidatorMigrationOver_true, unmarshalState_marshalState]
  rfl

include hholds in
theorem HoldsStates.state_eq (hinj : Set.InjOn codec.hashTreeRoot registry) (root : Root) :
    (state codec true store root).1 = .ok (saved root) := by
  have hparts := hholds.states root
  cases hst : saved root with
  | none =>
    rw [hst] at hparts
    unfold state
    rw [show store.db.states.get root = none from hparts]
  | some st =>
    rw [hst] at hparts
    obtain ⟨⟨others, hget⟩, hkeys⟩ := hparts
    exact state_eq_of_parts hget hkeys (fun val hval ↦ hholds.get_validator hinj hst hval)
      hholds.cached

include hholds in
theorem HoldsStates.hasState_iff (root : Root) :
    hasState store.db root = true ↔ (saved root).isSome := by
  have hparts := hholds.states root
  unfold hasState
  cases hst : saved root with
  | none =>
    rw [hst] at hparts
    rw [show store.db.states.get root = none from hparts]
    simp
  | some st =>
    rw [hst] at hparts
    obtain ⟨⟨others, hget⟩, -⟩ := hparts
    rw [hget]
    simp [marshalState_ne_nil]

/-- A read only changes the cache. -/
theorem state_store (codec : StateCodec Validator Body) (enabled : Bool) (store : Store Validator)
    (root : Root) :
    (state codec enabled store root).2 = store ∨ (state codec enabled store root).2 =
      { store with validatorEntryCache := (validatorEntries enabled store root).2 } := by
  unfold state
  grind

include hholds in
theorem HoldsStates.read (root : Root) :
    HoldsStates codec registry (Kv.state codec true store root).2 saved := by
  rcases state_store codec true store root with hsame | hcache
  · rwa [hsame]
  · rw [hcache]
    refine { hholds with cached := fun key val hval ↦ ?_ }
    unfold validatorEntries at hval
    cases hkeys : store.db.blockRootValidatorHashes.get root with
    | none =>
      rw [hkeys] at hval
      exact hholds.cached key val hval
    | some keys =>
      rw [hkeys] at hval
      exact cached_readEntries hholds.cached keys key val hval

end Reads

/-- The states after those of the pairs are saved. -/
def recordStates (saved : Root → Option (BeaconState Validator Body))
    (pairs : List (BeaconState Validator Body × Root)) :
    Root → Option (BeaconState Validator Body) :=
  pairs.foldl (fun saved pair ↦ update saved pair.2 (some pair.1)) saved

section Writes

variable {db db' : Db Validator} {entries : List (Root × Validator)}
  {stored : StoredValidators Validator}

/-- What every write of a transaction keeps, together with the states that are recorded. -/
theorem writeStates_records
    {write : Db Validator → BeaconState Validator Body → Root → Db Validator}
    (Records : Db Validator → (Root → Option (BeaconState Validator Body)) → Prop)
    (saved : Root → Option (BeaconState Validator Body))
    (hok : writeStates env write i states blockRoots db = .ok db') (hstart : Records db saved)
    (hwrite : ∀ pair ∈ states.zip blockRoots, ∀ db saved, Records db saved →
      Records (write db pair.1 pair.2) (update saved pair.2 (some pair.1))) :
    Records db' (recordStates saved (states.zip blockRoots)) := by
  induction blockRoots generalizing i states db saved with
  | nil =>
    rw [writeStates] at hok
    rw [zip_nil_right]
    exact Except.ok.inj hok ▸ hstart
  | cons root blockRoots ih =>
    cases states with
    | nil => cases hok
    | cons st states =>
      unfold writeStates at hok
      cases herr : env.stateError i with
      | some err =>
        rw [herr] at hok
        cases hok
      | none =>
        rw [herr] at hok
        exact ih _ hok (hwrite (st, root) mem_cons_self db saved hstart)
          fun pair hpair ↦ hwrite pair (mem_cons_of_mem _ hpair)

/-- A state that is put without its validators, together with their hashes. -/
theorem stateAt_processState (hstates : ∀ root, StateAt codec db root (saved root))
    (st : BeaconState Validator Body) (key root : Root) :
    StateAt codec (processState codec db st key) root (update saved key (some st) root) := by
  have hkey : StateAt codec (processState codec db st key) key (some st) :=
    ⟨⟨[], (get_put _ _ _ _).trans (if_pos rfl)⟩, (get_put _ _ _ _).trans (if_pos rfl)⟩
  exact .update hstates hkey (fun _ hne ↦ (get_put _ _ _ _).trans (if_neg hne))
    (fun _ hne ↦ (get_put _ _ _ _).trans (if_neg hne)) root

/-- A state that is put with its validators, whose hashes are already listed. -/
theorem stateAt_putState (hstates : ∀ root, StateAt codec db root (saved root))
    (hlisted : db.blockRootValidatorHashes.get key = some (validatorKeys codec st)) (root : Root) :
    StateAt codec (db.putState key st.slot (marshalState codec st)) root
      (update saved key (some st) root) := by
  have hkey : StateAt codec (db.putState key st.slot (marshalState codec st)) key (some st) :=
    ⟨⟨st.validators, (get_put _ _ _ _).trans (if_pos rfl)⟩, hlisted⟩
  exact .update hstates hkey (fun _ hne ↦ (get_put _ _ _ _).trans (if_neg hne)) (fun _ _ ↦ rfl) root

/-- The states of the new pairs, or old ones. -/
theorem recordStates_eq_some {pairs : List (BeaconState Validator Body × Root)}
    (hst : recordStates saved pairs root = some st) :
    (st, root) ∈ pairs ∨ saved root = some st := by
  induction pairs generalizing saved with
  | nil => exact .inr hst
  | cons pair pairs ih =>
    rcases ih hst with hmem | hold
    · exact .inl (mem_cons_of_mem _ hmem)
    · grind

include hholds in
/-- `SaveStates` for roots that already list the validators of the states. -/
theorem HoldsStates.saveStates (hlisted : ∀ pair ∈ states.zip blockRoots,
      store.db.blockRootValidatorHashes.get pair.2 = some (validatorKeys codec pair.1))
    (hreg : ∀ st ∈ states, ∀ val ∈ st.validators, val ∈ registry)
    (hok : Kv.saveStates codec store env states blockRoots = (.ok (), store')) :
    HoldsStates codec registry store' (recordStates saved (states.zip blockRoots)) := by
  obtain ⟨db', hwrite, rfl⟩ := Store.update_eq_ok hok
  obtain ⟨hstates, hkeys, hvals⟩ := writeStates_records
    (fun db saved ↦ (∀ root, StateAt codec db root (saved root)) ∧
      db.blockRootValidatorHashes = store.db.blockRootValidatorHashes ∧
      db.stateValidators = store.db.stateValidators) saved hwrite ⟨hholds.states, rfl, rfl⟩
    (fun pair hpair db saved h ↦ ⟨stateAt_putState h.1 (h.2.1 ▸ hlisted pair hpair), h.2.1, h.2.2⟩)
  refine ⟨hstates, fun root st hst ↦ ?_, hkeys ▸ hvals ▸ hholds.keys,
    hvals ▸ hholds.validators, hvals ▸ hholds.cached⟩
  rcases recordStates_eq_some hst with hmem | hold
  · exact hreg st (of_mem_zip hmem).1
  · exact hholds.registered root st hold

theorem get_validatorsEntries (hget : (validatorsEntries codec states).get key = some val) :
    codec.hashTreeRoot val = key ∧ ∃ st ∈ states, val ∈ st.validators := by
  rw [validatorsEntries, get_foldl_put_self] at hget
  have hfind := (or_eq_some_iff.1 hget).resolve_right fun h ↦ nomatch h.2
  exact ⟨by simpa using find?_some hfind, by simpa using mem_of_find?_eq_some hfind⟩

theorem isSome_get_validatorsEntries (hst : st ∈ states) (hkey : key ∈ validatorKeys codec st) :
    ((validatorsEntries codec states).get key).isSome := by
  obtain ⟨val, hval, rfl⟩ := mem_map.1 hkey
  rw [validatorsEntries, get_foldl_put_self, isSome_or, Bool.or_eq_true, find?_isSome]
  exact .inl ⟨val, mem_reverse.2 (mem_flatMap.2 ⟨st, hst, hval⟩), decide_eq_true rfl⟩

/-- The loop over the validators as a loop of writes into the bucket and the cache. -/
def validatorWrites (env : SaveEnvironment) :
    ℕ → List (Root × Validator) → Bucket Root Validator × (Root → Option Validator) →
      (Bucket Root Validator × (Root → Option Validator)) × Option Error :=
  writeNew (fun state entry ↦ (state.2 entry.1).isSome ∨ (state.1.get entry.1).isSome)
    (fun state entry ↦ (state.1.put entry.1 entry.2, update state.2 entry.1 (some entry.2)))
    (fun i _ ↦ env.validatorError i) env.commitError

theorem storeValidatorEntriesSeparately_eq (i : ℕ) (entries : List (Root × Validator))
    (valBkt : Bucket Root Validator) (cache : Root → Option Validator) :
    storeValidatorEntriesSeparately env i entries valBkt cache =
      ⟨(validatorWrites env i entries (valBkt, cache)).1.1,
        (validatorWrites env i entries (valBkt, cache)).1.2,
        (validatorWrites env i entries (valBkt, cache)).2⟩ := by
  induction entries generalizing i valBkt cache with
  | nil => rfl
  | cons entry entries ih =>
    rw [storeValidatorEntriesSeparately, validatorWrites, writeNew, ← validatorWrites]
    split_ifs
    · exact ih (i + 1) valBkt cache
    · cases env.validatorError i with
      | some err => rfl
      | none => exact ih (i + 1) _ _

/-- The validators and the cache stay in order, and no validator is lost. -/
theorem storeValidatorEntriesSeparately_keeps
    (hentries : ∀ entry ∈ entries, codec.hashTreeRoot entry.2 = entry.1 ∧ entry.2 ∈ registry)
    (hvals : ∀ key val, valBkt.get key = some val → codec.hashTreeRoot val = key ∧ val ∈ registry)
    (hcached : ∀ key val, cache key = some val → valBkt.get key = some val)
    (hstored : storeValidatorEntriesSeparately env i entries valBkt cache = stored) :
    (∀ key val, stored.valBkt.get key = some val → codec.hashTreeRoot val = key ∧ val ∈ registry) ∧
      (∀ key val, stored.cache key = some val → stored.valBkt.get key = some val) ∧
      ∀ key, (valBkt.get key).isSome → (stored.valBkt.get key).isSome := by
  rw [← hstored, storeValidatorEntriesSeparately_eq]
  refine writeNew_invariant (fun state : Bucket Root Validator × (Root → Option Validator) ↦
    (∀ key val, state.1.get key = some val → codec.hashTreeRoot val = key ∧ val ∈ registry) ∧
      (∀ key val, state.2 key = some val → state.1.get key = some val) ∧
      ∀ key, (valBkt.get key).isSome → (state.1.get key).isSome) i ⟨hvals, hcached, fun _ h ↦ h⟩ ?_
  rintro entry hentry ⟨bkt, cache⟩ ⟨hvals, hcached, hkept⟩ -
  dsimp only at hvals hcached hkept ⊢
  refine ⟨fun key val hget ↦ ?_, fun key val hget ↦ ?_, fun key hkey ↦ ?_⟩
  · rw [get_put] at hget
    split_ifs at hget with heq
    · grind
    · exact hvals key val hget
  · rw [get_put]
    grind
  · rw [get_put]
    split_ifs
    · rfl
    · exact hkept key hkey

/-- A transaction that succeeds knows all validators of the map. -/
theorem known_storeValidatorEntriesSeparately
    (hstored : storeValidatorEntriesSeparately env i entries valBkt cache = stored)
    (hok : stored.err = none) {entry : Root × Validator} (hentry : entry ∈ entries) :
    (stored.cache entry.1).isSome ∨ (stored.valBkt.get entry.1).isSome := by
  subst hstored
  rw [storeValidatorEntriesSeparately_eq] at hok ⊢
  refine known_writeNew (fun state entry other hother ↦ ?_) (fun state entry ↦ by simp) hok hentry
  dsimp only
  by_cases heq : other.1 = entry.1
  · exact .inl (by simp [heq])
  · rwa [update_of_ne heq, get_put, if_neg (Ne.symm heq)]

end Writes

/-! ### Saves -/

/-- The validator with this hash is cached or stored. -/
def Store.Knows (store : Store Validator) (key : Root) : Prop :=
  (store.validatorEntryCache key).isSome ∨ (store.db.stateValidators.get key).isSome

instance (store : Store Validator) (key : Root) : Decidable (store.Knows key) :=
  inferInstanceAs (Decidable (_ ∨ _))

/-- The transaction fails, if it does, before it has cached a validator. -/
def FailsBeforeCaching (store : Store Validator) (env : SaveEnvironment)
    (entries : Bucket Root Validator) : Prop :=
  match env.fault with
  | some (.validator entry _) => ∀ other ∈ (env.iterate entries).take entry, store.Knows other.1
  | some (.commit _) => ∀ other ∈ env.iterate entries, store.Knows other.1
  | _ => True

instance (store : Store Validator) (env : SaveEnvironment) (entries : Bucket Root Validator) :
    Decidable (FailsBeforeCaching store env entries) := by
  unfold FailsBeforeCaching
  split <;> infer_instance

/-- A failed transaction that fails before caching leaves the cache as it was. -/
theorem FailsBeforeCaching.cache_eq {entries : Bucket Root Validator}
    (hfirst : FailsBeforeCaching store env entries)
    (hfails : (storeValidatorEntriesSeparately env 0 (env.iterate entries) store.db.stateValidators
      store.validatorEntryCache).err ≠ none) :
    (storeValidatorEntriesSeparately env 0 (env.iterate entries) store.db.stateValidators
      store.validatorEntryCache).cache = store.validatorEntryCache := by
  obtain ⟨fault, rank⟩ := env
  rw [storeValidatorEntriesSeparately_eq] at hfails ⊢
  have hnever (hvalidator : ∀ n, SaveEnvironment.validatorError ⟨fault, rank⟩ n = none)
      (hcommit : SaveEnvironment.commitError ⟨fault, rank⟩ = none) :=
    writeNew_eq_of_fails (fun _ ↦ False) (fun _ _ ↦ ⟨hcommit, fun m _ _ ↦ hvalidator m⟩)
      (fun _ _ _ h ↦ h.elim) hfails
  suffices hsame : (validatorWrites ⟨fault, rank⟩ 0 (SaveEnvironment.iterate ⟨fault, rank⟩ entries)
      (store.db.stateValidators, store.validatorEntryCache)).1 =
        (store.db.stateValidators, store.validatorEntryCache) from congrArg Prod.snd hsame
  match fault with
  | none => exact hnever (fun _ ↦ rfl) rfl
  | some (.state _ _) => exact hnever (fun _ ↦ rfl) rfl
  | some (.validator failing err) =>
    refine writeNew_eq_of_fails (· < failing) (fun n hn ↦ ⟨rfl, fun m hm _ ↦ if_neg (by omega)⟩)
      (fun k entry hentry hk ↦ hfirst entry (mem_of_getElem? (i := k) ?_)) hfails
    rw [getElem?_take_of_lt (by omega), hentry]
  | some (.commit err) =>
    exact writeNew_eq_of_fails (fun _ ↦ True) (fun _ h ↦ absurd trivial h)
      (fun _ entry hentry _ ↦ hfirst entry (mem_of_getElem? hentry)) hfails

/-- The writes of the states do not touch the validators. -/
theorem stateValidators_writeStates
    (hok : writeStates env (processState codec) i states blockRoots db = .ok db') :
    db'.stateValidators = db.stateValidators :=
  writeStates_records (fun other _ ↦ other.stateValidators = db.stateValidators) (fun _ ↦ none) hok
    rfl fun _ _ _ _ h ↦ h

/-- A save that fails before caching leaves the store as it was. -/
theorem saveStatesEfficient_eq_error
    (hfirst : FailsBeforeCaching store env (validatorsEntries codec states))
    (herr : saveStatesEfficient codec store env states blockRoots = (.error err, store')) :
    store' = store := by
  unfold saveStatesEfficient at herr
  cases hwrite : writeStates env (processState codec) 0 states blockRoots store.db with
  | error fault =>
    grind
  | ok db =>
    rw [hwrite] at herr
    dsimp only at herr
    rw [stateValidators_writeStates hwrite] at herr
    rw [Store.update_eq_error herr]
    rw [hfirst.cache_eq]
    intro hnone
    rw [hnone] at herr
    cases herr

include hholds in
theorem HoldsStates.saveStatesEfficient
    (hreg : ∀ st ∈ states, ∀ val ∈ st.validators, val ∈ registry)
    (hok : Kv.saveStatesEfficient codec store env states blockRoots = (.ok (), store')) :
    HoldsStates codec registry store' (recordStates saved (states.zip blockRoots)) := by
  unfold Kv.saveStatesEfficient at hok
  cases hwrite : writeStates env (processState codec) 0 states blockRoots store.db with
  | error fault =>
    rw [hwrite] at hok
    cases hok
  | ok db =>
    rw [hwrite] at hok
    dsimp only at hok
    rw [stateValidators_writeStates hwrite] at hok
    generalize hstored : storeValidatorEntriesSeparately env 0
      (env.iterate (validatorsEntries codec states)) store.db.stateValidators
      store.validatorEntryCache = stored at hok
    obtain ⟨db', hdb', rfl⟩ := Store.update_eq_ok hok
    obtain rfl := Except.ok.inj hdb'
    have herr : stored.err = none := by
      cases herr : stored.err with
      | none => rfl
      | some err =>
        rw [herr] at hok
        cases hok
    have hmap {entry : Root × Validator} : entry ∈ env.iterate (validatorsEntries codec states) ↔
          (validatorsEntries codec states).get entry.1 = some entry.2 :=
      (mem_insertionSort _).trans (mem_entries_iff _ _ _)
    obtain ⟨hvals, hcached, hkept⟩ := storeValidatorEntriesSeparately_keeps
      (fun entry hentry ↦ by
        obtain ⟨hhash, st, hst, hval⟩ := get_validatorsEntries (hmap.1 hentry)
        exact ⟨hhash, hreg st hst _ hval⟩)
      hholds.validators hholds.cached hstored
    obtain ⟨hstates, hkeys⟩ := writeStates_records
      (fun db saved ↦ (∀ root, StateAt codec db root (saved root)) ∧
        ∀ root keys, db.blockRootValidatorHashes.get root = some keys →
          ∀ key ∈ keys, (store.db.stateValidators.get key).isSome ∨
            ∃ st ∈ states, key ∈ validatorKeys codec st) saved hwrite
      ⟨hholds.states, fun root keys hget key hkey ↦ .inl (hholds.keys root keys hget key hkey)⟩
      (by
        rintro ⟨st, root⟩ hpair db saved ⟨hstates, hkeys⟩
        refine ⟨stateAt_processState hstates st root, fun other keys hget ↦ ?_⟩
        rw [processState, get_put] at hget
        split_ifs at hget with heq
        · obtain rfl := some.inj hget
          exact fun key hkey ↦ .inr ⟨st, (of_mem_zip hpair).1, hkey⟩
        · exact hkeys other keys hget)
    refine ⟨hstates, fun root st hst ↦ ?_, fun root keys hget key hkey ↦ ?_, hvals, hcached⟩
    · rcases recordStates_eq_some hst with hmem | hold
      · exact hreg st (of_mem_zip hmem).1
      · exact hholds.registered root st hold
    · rcases hkeys root keys hget key hkey with hold | ⟨st, hst, hnew⟩
      · exact hkept key hold
      · obtain ⟨val, hval⟩ := isSome_iff_exists.1 (isSome_get_validatorsEntries hst hnew)
        have hentry : (key, val) ∈ env.iterate (validatorsEntries codec states) := hmap.2 hval
        rcases known_storeValidatorEntriesSeparately hstored herr hentry with hcache | hbkt
        · obtain ⟨cached, hcache⟩ := isSome_iff_exists.1 hcache
          rw [hcached key cached hcache]
          rfl
        · exact hbkt

section Deletions

variable {blockRoot : Root} {fault : Option TxFault}

/-- Deletions only take entries out of the cache. -/
theorem cache_deleteStateTx
    (hval : (deleteStateTx codec true store fault blockRoot).cache key = some val) :
    store.validatorEntryCache key = some val := by
  unfold deleteStateTx removeState at hval
  grind

/-- What a transaction does that succeeds: there is no state to delete, or the state and the hashes
of its validators are deleted. -/
theorem db_deleteStateTx {enabled : Bool}
    (hok : (deleteStateTx codec enabled store fault blockRoot).err = none) :
    store.db.states.get blockRoot = none ∧
        (deleteStateTx codec enabled store fault blockRoot).db = store.db ∨
      ∃ slotBkt, (deleteStateTx codec enabled store fault blockRoot).db = { store.db with
        stateSlotIndices := slotBkt
        blockRootValidatorHashes := if isStateValidatorMigrationOver enabled store.db then
          store.db.blockRootValidatorHashes.delete blockRoot else store.db.blockRootValidatorHashes
        states := store.db.states.delete blockRoot } := by
  unfold deleteStateTx removeState isStateValidatorMigrationOver at hok ⊢
  dsimp only at hok ⊢
  split_ifs at hok ⊢
  all_goals
    split at hok
    · exact .inl ⟨‹_›, rfl⟩
    · right
      grind

theorem deleteState_eq_ok (hok : deleteState codec true store fault blockRoot = (.ok (), store')) :
    (deleteStateTx codec true store fault blockRoot).err = none ∧ store' = { store with
      db := (deleteStateTx codec true store fault blockRoot).db
      validatorEntryCache := (deleteStateTx codec true store fault blockRoot).cache } := by
  unfold deleteState at hok
  grind

theorem deleteState_eq_error
    (herr : deleteState codec true store fault blockRoot = (.error err, store')) :
    store' = { store with
      validatorEntryCache := (deleteStateTx codec true store fault blockRoot).cache } := by
  unfold deleteState at herr
  grind

include hholds in
theorem HoldsStates.deleteState
    (hok : Kv.deleteState codec true store fault blockRoot = (.ok (), store')) :
    HoldsStates codec registry store' (update saved blockRoot none) := by
  have hcached (key : Root) (val : Validator)
      (hval : (deleteStateTx codec true store fault blockRoot).cache key = some val) :=
    hholds.cached key val (cache_deleteStateTx hval)
  have hreg (root : Root) (st : BeaconState Validator Body)
      (hst : update saved blockRoot none root = some st) :
      ∀ val ∈ st.validators, val ∈ registry := by
    rw [update_apply] at hst
    split_ifs at hst
    exact hholds.registered root st hst
  obtain ⟨herr, rfl⟩ := deleteState_eq_ok hok
  rcases db_deleteStateTx herr with ⟨hnone, hdb⟩ | ⟨slotBkt, hdb⟩
  · rw [hdb]
    exact ⟨.update hholds.states hnone (fun _ _ ↦ rfl) fun _ _ ↦ rfl, hreg, hholds.keys,
      hholds.validators, hcached⟩
  · rw [hdb, isStateValidatorMigrationOver_true, if_pos rfl]
    refine ⟨.update hholds.states ((get_delete _ _ _).trans (if_pos rfl))
      (fun root hne ↦ (get_delete _ _ _).trans (if_neg hne))
      (fun root hne ↦ (get_delete _ _ _).trans (if_neg hne)), hreg,
      fun root keys hget ↦ ?_, hholds.validators, hcached⟩
    rw [get_delete] at hget
    split_ifs at hget
    exact hholds.keys root keys hget

/-- The root of a checkpoint has a state or a summary, or no block to recover a summary from. -/
def Store.RecoversNothing (store : Store Validator) (root : Root) : Prop :=
  (store.db.states.get root).isSome ∨ hasStateSummary store root ∨ store.db.blocks.get root = none

instance (store : Store Validator) (root : Root) : Decidable (store.RecoversNothing root) :=
  inferInstanceAs (Decidable (_ ∨ _ ∨ _))

theorem ensureStateSummary_of_recoversNothing {db : Db Validator} {missing : Error}
    (hnothing : store.RecoversNothing root) (hok : ensureStateSummary store root missing = .ok db) :
    db = store.db := by
  unfold ensureStateSummary recoverStateSummary at hok
  split_ifs at hok with hknown
  · exact (Except.ok.inj hok).symm
  · rw [not_or] at hknown
    rcases hnothing with hst | hsum | hblock
    · exact absurd hst hknown.1
    · exact absurd hsum hknown.2
    · rw [hblock] at hok
      cases hok

include hholds in
/-- A checkpoint save that recovers nothing does not touch the states. -/
theorem HoldsStates.saveCheckpoint {root : Root} (hnothing : store.RecoversNothing root)
    (missing : Error) (err : Option Error) {write : Db Validator → Except Fault (Db Validator)}
    (hwrite : ∀ db', write store.db = .ok db' → db'.states = store.db.states ∧
      db'.blockRootValidatorHashes = store.db.blockRootValidatorHashes ∧
      db'.stateValidators = store.db.stateValidators) :
    HoldsStates codec registry
      (store.update (ensureStateSummary store root missing >>= write) err).2 saved := by
  refine Store.update_keeps (HoldsStates codec registry · saved) err hholds fun db' hok ↦ ?_
  obtain ⟨db, hensure, hok⟩ := bind_eq_ok_iff.1 hok
  obtain rfl := ensureStateSummary_of_recoversNothing hnothing hensure
  obtain ⟨hstates, hhashes, hvals⟩ := hwrite db' hok
  exact ⟨fun root ↦ (hholds.states root).congr (by rw [hstates]) (by rw [hhashes]),
    hholds.registered, hhashes ▸ hvals ▸ hholds.keys, hvals ▸ hholds.validators,
    hvals ▸ hholds.cached⟩

end Deletions

/-- The calls of a run, the loss of an entry of the validator cache, and a restart. -/
inductive StateCall (Validator Body : Type)
  | saveState (env : SaveEnvironment) (st : BeaconState Validator Body) (blockRoot : Root)
  | saveStates (env : SaveEnvironment) (states : List (BeaconState Validator Body))
      (blockRoots : List Root)
  | deleteState (fault : Option TxFault) (blockRoot : Root)
  | saveJustifiedCheckpoint (fault : Option Error) (checkpoint : Checkpoint)
  | saveFinalizedCheckpoint (fault : Option Error) (checkpoint : Checkpoint)
  | state (blockRoot : Root)
  | evict (key : Root)
  | restart

/-- What a call returns, and the store after it, with the historical state representation. -/
def StateCall.serve (config : BeaconChainConfig) (codec : StateCodec Validator Body)
    (store : Store Validator) : StateCall Validator Body → Except Fault Unit × Store Validator
  | saveState env st blockRoot => Kv.saveState codec true store env st blockRoot
  | saveStates env states blockRoots => Kv.saveStates codec store env states blockRoots
  | deleteState fault blockRoot => Kv.deleteState codec true store fault blockRoot
  | saveJustifiedCheckpoint fault checkpoint => Kv.saveJustifiedCheckpoint store fault checkpoint
  | saveFinalizedCheckpoint fault checkpoint =>
    Kv.saveFinalizedCheckpoint config store fault checkpoint
  | state blockRoot =>
    ((Kv.state codec true store blockRoot).1.map fun _ ↦ (),
      (Kv.state codec true store blockRoot).2)
  | evict key =>
    (.ok (), { store with
      validatorEntryCache := update store.validatorEntryCache key none })
  | restart => (.ok (), Store.open store.db)

/-- The saves whose states have validators from the set, and of which none caches a validator that
is not committed, saves a state without its hashes or recovers a summary. -/
def StateAllowed (codec : StateCodec Validator Body) (registry : Set Validator)
    (store : Store Validator) : StateCall Validator Body → Prop
  | .saveState env st _ => (∀ val ∈ st.validators, val ∈ registry) ∧
      FailsBeforeCaching store env (validatorsEntries codec [st])
  | .saveStates _ states blockRoots =>
    (∀ st ∈ states, ∀ val ∈ st.validators, val ∈ registry) ∧
      ∀ pair ∈ states.zip blockRoots,
        store.db.blockRootValidatorHashes.get pair.2 = some (validatorKeys codec pair.1)
  | .saveJustifiedCheckpoint _ checkpoint => store.RecoversNothing checkpoint.root
  | .saveFinalizedCheckpoint _ checkpoint => store.RecoversNothing checkpoint.root
  | _ => True

/-- The states after a call that succeeds. -/
def StateCall.record (saved : Root → Option (BeaconState Validator Body)) :
    StateCall Validator Body → Root → Option (BeaconState Validator Body)
  | saveState _ st blockRoot => update saved blockRoot (some st)
  | saveStates _ states blockRoots => recordStates saved (states.zip blockRoots)
  | deleteState _ blockRoot => update saved blockRoot none
  | _ => saved

/-- The states of the last successful saves that were not deleted since. -/
def lastSaved (labels : List (StateCall Validator Body × Except Fault Unit)) :
    Root → Option (BeaconState Validator Body) :=
  labels.foldl (fun saved label ↦
    match label.2 with
    | .ok _ => label.1.record saved
    | .error _ => saved) fun _ ↦ none

section Runs

include hholds in
theorem HoldsStates.serve
    {call : StateCall Validator Body} (hallowed : StateAllowed codec registry store call) :
    HoldsStates codec registry (call.serve config codec store).2
      (match (call.serve config codec store).1 with
        | .ok _ => call.record saved
        | .error _ => saved) := by
  cases call with
  | saveState env st blockRoot =>
    cases hres : StateCall.serve config codec store (.saveState env st blockRoot) with
    | mk returned store' =>
      cases returned with
      | error err =>
        rw [saveStatesEfficient_eq_error hallowed.2 hres]
        exact hholds
      | ok _ =>
        exact hholds.saveStatesEfficient
          (fun other hother ↦ (mem_singleton.1 hother) ▸ hallowed.1) hres
  | saveStates env states blockRoots =>
    cases hres : StateCall.serve config codec store (.saveStates env states blockRoots) with
    | mk returned store' =>
      cases returned with
      | error err =>
        rw [Store.update_eq_error hres]
        exact hholds
      | ok _ => exact hholds.saveStates hallowed.2 hallowed.1 hres
  | deleteState fault blockRoot =>
    cases hres : StateCall.serve config codec store (.deleteState fault blockRoot) with
    | mk returned store' =>
      cases returned with
      | error err =>
        rw [deleteState_eq_error hres]
        exact { hholds with
          cached := fun key val hval ↦ hholds.cached key val (cache_deleteStateTx hval) }
      | ok _ => exact hholds.deleteState hres
  | saveJustifiedCheckpoint fault checkpoint =>
    have hkept : HoldsStates codec registry
        (Kv.saveJustifiedCheckpoint store fault checkpoint).2 saved :=
      hholds.saveCheckpoint hallowed _ fault fun db' hok ↦ Except.ok.inj hok ▸ ⟨rfl, rfl, rfl⟩
    split <;> exact hkept
  | saveFinalizedCheckpoint fault checkpoint =>
    have hkept : HoldsStates codec registry
        (Kv.saveFinalizedCheckpoint config store fault checkpoint).2 saved :=
      hholds.saveCheckpoint hallowed _ fault fun db' hok ↦ by
        obtain ⟨stale, walked, recent, -, -, -, rfl⟩ := updateFinalizedBlockRoots_eq_ok hok
        exact ⟨rfl, rfl, rfl⟩
    split <;> exact hkept
  | state blockRoot =>
    have hkept := hholds.read blockRoot
    split <;> exact hkept
  | evict key =>
    refine { hholds with cached := fun other val hval ↦ ?_ }
    rw [StateCall.serve] at hval
    dsimp only at hval
    rw [update_apply] at hval
    split_ifs at hval
    exact hholds.cached other val hval
  | restart => exact { hholds with cached := nofun }

/-- In a run of allowed calls the state store is a map: `State` returns the state of the last
successful save of the root that was not deleted since, and `HasState` tells if there is one. -/
theorem state_store_is_map (hinj : Set.InjOn codec.hashTreeRoot registry) {db : Db Validator}
    (hstates : db.states = Bucket.empty) (hhashes : db.blockRootValidatorHashes = Bucket.empty)
    (hvalidators : db.stateValidators = Bucket.empty)
    {labels : List (StateCall Validator Body × Except Fault Unit)}
    (run : Run (CallStep (answer (StateCall.serve config codec)) (StateAllowed codec registry))
      (Store.open db) labels store) (root : Root) :
    (state codec true store root).1 = .ok (lastSaved labels root) ∧
      (hasState store.db root = true ↔ (lastSaved labels root).isSome) := by
  have hholds : HoldsStates codec registry store (lastSaved labels) := by
    refine run.answered_invariant
      (fun labels store ↦ HoldsStates codec registry store (lastSaved labels)) ?_
      fun history store call hholds hallowed ↦ ?_
    · refine ⟨fun root ↦ ?_, nofun, fun root keys hget ↦ ?_, fun key val hget ↦ ?_, nofun⟩
      · exact congrArg (·.get root) hstates
      · rw [Store.open, hhashes] at hget
        cases hget
      · rw [Store.open, hvalidators] at hget
        cases hget
    · rw [lastSaved, foldl_append]
      exact hholds.serve hallowed
  exact ⟨hholds.state_eq hinj root, hholds.hasState_iff root⟩

end Runs

def errSize : Error := .errorf "incorrect size" []

/-- States whose validators and whose other parts are numbers, each a byte of the encoding. -/
def numberCodec : StateCodec ℕ ℕ where
  marshalSSZ st := [0, 0, 0, 0, 0, 0, 0, 0, st.version.number, st.slot, st.body] ++ st.validators
  unmarshalSSZ version bytes :=
    match bytes with
    | 0 :: 0 :: 0 :: 0 :: 0 :: 0 :: 0 :: 0 :: number :: slot :: body :: validators =>
      if number = version.number then .ok ⟨version, slot, validators, body⟩ else .error errSize
    | _ => .error errSize
  hashTreeRoot val := Fin.ofNat _ val
  unmarshal_marshal st := by simp
  length_marshal st := by simp
  not_hasKey st version hversion := by
    cases version <;> simp_all [hasKey, stateKey, asciiBytes]

def numberRegistry : Set ℕ := { val | val < 10 }

theorem injOn_numberRegistry : Set.InjOn numberCodec.hashTreeRoot numberRegistry := by
  intro val hval other hother heq
  have hmod : val % 2 ^ 256 = other % 2 ^ 256 := congrArg Fin.val heq
  rwa [Nat.mod_eq_of_lt (lt_trans hval (by decide)),
    Nat.mod_eq_of_lt (lt_trans hother (by decide))] at hmod

def twoValidators : BeaconState ℕ ℕ := ⟨.altair, 1, [4, 5], 9⟩

/-- A save whose transaction fails or not, with a map that is iterated in some order. -/
def saveFault (fault : Option StateTxFault) : SaveEnvironment := ⟨fault, fun _ ↦ 0⟩

def diskFull : Error := .errorf "disk full" []

/-- Three runs on an empty database.  After a save that was rolled back, a save of the same
validators succeeds without writing them, and after a restart the state cannot be read.  A state
that `SaveStates` has saved cannot be read.  A checkpoint save recovers a summary, which is then
taken for a state. -/
theorem state_store_not_map :
    (∃ labels store, execute (answer (StateCall.serve mainnetConfig numberCodec))
        (Store.open Db.empty)
        [.saveState (saveFault (some (.commit diskFull))) twoValidators 1,
          .saveState (saveFault none) twoValidators 2, .restart] = (labels, store) ∧
      labels.map (·.2) = [.error (.error diskFull), .ok (), .ok ()] ∧
      lastSaved labels 2 = some twoValidators ∧ hasState store.db 2 = true ∧
      (state numberCodec true store 2).1 =
        .error (.error (.errorf "could not find validator entry" []))) ∧
    (∃ labels store, execute (answer (StateCall.serve mainnetConfig numberCodec))
        (Store.open Db.empty) [.saveStates (saveFault none) [twoValidators] [1]] =
          (labels, store) ∧
      labels.map (·.2) = [.ok ()] ∧ lastSaved labels 1 = some twoValidators ∧
      (state numberCodec true store 1).1 = .error (.error
        (.errorf "validator keys not found for given block root: %x" [.bytes (some 1)]))) ∧
    ∃ labels store, execute (answer (StateCall.serve mainnetConfig numberCodec))
        (Store.open { (Db.empty : Db ℕ) with blocks := empty.put 7 firstBlock })
        [.saveJustifiedCheckpoint none ⟨0, 7⟩] = (labels, store) ∧
      labels.map (·.2) = [.ok ()] ∧ lastSaved labels 7 = none ∧ hasState store.db 7 = true ∧
      (state numberCodec true store 7).1 = .error (.error
        (.errorf "validator keys not found for given block root: %x" [.bytes (some 7)])) :=
  ⟨⟨_, _, rfl, by decide +kernel⟩, ⟨_, _, rfl, by decide +kernel⟩, ⟨_, _, rfl, by decide +kernel⟩⟩

/-- A failed save, two saves, a deletion and a restart. -/
def stateCalls : List (StateCall ℕ ℕ) :=
  [.saveState (saveFault (some (.validator 0 diskFull))) twoValidators 1,
    .saveState (saveFault none) twoValidators 1, .saveState (saveFault none) twoValidators 2,
    .deleteState none 1, .restart]

theorem state_store_is_map_stateCalls :
    ∃ (labels : List (StateCall ℕ ℕ × Except Fault Unit)) (store : Store ℕ),
      Run (CallStep (answer (StateCall.serve mainnetConfig numberCodec))
        (StateAllowed numberCodec numberRegistry)) (Store.open Db.empty) labels store ∧
      (state numberCodec true store 2).1 = .ok (lastSaved labels 2) ∧
      (hasState store.db 2 = true ↔ (lastSaved labels 2).isSome) := by
  have hreg : ∀ val ∈ twoValidators.validators, val ∈ numberRegistry :=
    show ∀ val ∈ twoValidators.validators, val < 10 by decide
  have run := run_execute (answer (StateCall.serve mainnetConfig numberCodec))
    (StateAllowed numberCodec numberRegistry) (Store.open Db.empty) stateCalls
    ⟨⟨hreg, by decide +kernel⟩, ⟨hreg, by decide +kernel⟩,
      ⟨hreg, by decide +kernel⟩, trivial, trivial, trivial⟩
  exact ⟨_, _, run, state_store_is_map injOn_numberRegistry rfl rfl rfl run 2⟩

end Prysm.Kv
