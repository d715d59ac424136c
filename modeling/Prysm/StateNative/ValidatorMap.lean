import Mathlib.Data.List.Induction
import Prysm.MultiValueSlice.Refinement
import Prysm.Primitives

/-!
# Validators by public key

A beacon state and all its copies share one map from public keys to validator indices.  A copy tells
the keys that are not its own from the others by comparing the index with the length of its own
registry, which works as long as no two states that share the map append different validators at the
same index.
-/

namespace Prysm.StateNative.ValidatorMap

open Function Library MultiValueSlice Slice

/-- A validator record.  The registry compares the records by address. -/
structure Validator where
  address : ℕ
  publicKey : PubKey
deriving DecidableEq, Repr

/-- The addresses of the registry and of the map of a state. -/
structure BeaconState where
  validatorsMultiValue : ℕ
  valMapHandler : ℕ

/-- The live states of a copy family by their ids, and the memory they share.  A registry may hold
`nil` records. -/
structure Family where
  states : ℕ → Option BeaconState
  slices : ℕ → Slice (Option Validator)
  valIdxMaps : ℕ → PubKey → Option ValidatorIndex
  nextId : ℕ
  nextAddress : ℕ

variable {i : ℕ}

section Index

variable {α Key : Type} [DecidableEq Key]

/-- The last index of each key in a list of records, some of which have no key. -/
def indexBy (keyOf : α → Option Key) (records : List α) : Key → Option ℕ :=
  records.zipIdx.foldl (fun m entry ↦
    match keyOf entry.1 with
    | none => m
    | some key => update m key (some entry.2)) fun _ ↦ none

theorem indexBy_concat (keyOf : α → Option Key) (records : List α) (record : α) :
    indexBy keyOf (records ++ [record]) =
      match keyOf record with
      | none => indexBy keyOf records
      | some key => update (indexBy keyOf records) key (some records.length) := by
  simp [indexBy, List.zipIdx_append]

/-- With different keys the map has the index of each one. -/
theorem indexBy_eq_some_iff {keyOf : α → Option Key} {records : List α}
    (hnodup : (records.filterMap keyOf).Nodup) {key : Key} :
    indexBy keyOf records key = some i ↔ records[i]?.bind keyOf = some key := by
  induction records using List.reverseRecOn with
  | nil => simp [indexBy]
  | append_singleton records record ih =>
    have hget : (records ++ [record])[i]? =
        if i = records.length then some record else records[i]? := by grind
    rw [List.filterMap_append, List.nodup_append] at hnodup
    obtain ⟨hold, -, hnew⟩ := hnodup
    rw [indexBy_concat, hget]
    cases hrec : keyOf record with
    | none =>
      grind
    | some last =>
      have hother : key = last → records[i]?.bind keyOf ≠ some key := by
        intro heq hsome
        obtain ⟨other, hother, hkey⟩ := Option.bind_eq_some_iff.1 hsome
        exact hnew key (List.mem_filterMap.2 ⟨other, List.mem_of_getElem? hother, hkey⟩) last
          (by simp [hrec]) heq
      grind

end Index

def validatorIndexMap (validators : List (Option Validator)) : PubKey → Option ValidatorIndex :=
  indexBy (fun record ↦ record.map Validator.publicKey) validators

namespace Family

/-- A fresh state with the given validators. -/
def new (validators : List (Option Validator)) : Family where
  states := update (fun _ ↦ none) 0 (some ⟨0, 0⟩)
  slices := fun _ ↦ Slice.init validators
  valIdxMaps := fun _ ↦ validatorIndexMap validators
  nextId := 1
  nextAddress := 1

section

variable (f : Family) (id : ℕ) (b : BeaconState)

def copy : Family :=
  { f with
    states := update f.states f.nextId (some b)
    slices := update f.slices b.validatorsMultiValue
      ((f.slices b.validatorsMultiValue).copy id f.nextId)
    nextId := f.nextId + 1 }

def setValidators (val : List (Option Validator)) : Family :=
  let detached := (f.slices b.validatorsMultiValue).detach id
  { f with
    states := update f.states id (some ⟨f.nextAddress, f.nextAddress⟩)
    slices := update (update f.slices b.validatorsMultiValue detached)
      f.nextAddress (Slice.init val)
    valIdxMaps := update f.valIdxMaps f.nextAddress (validatorIndexMap val)
    nextAddress := f.nextAddress + 1 }

def appendValidator (val : Validator) : Family :=
  let appended := (f.slices b.validatorsMultiValue).append id (some val)
  let valIdx := appended.len id - 1
  { f with
    slices := update f.slices b.validatorsMultiValue appended
    valIdxMaps := update f.valIdxMaps b.valMapHandler
      (update (f.valIdxMaps b.valMapHandler) val.publicKey (some valIdx)) }

/-- `finalizerCleanup`, which runs when a state is garbage collected. -/
def finalizerCleanup : Family :=
  { f with
    states := update f.states id none
    slices := update f.slices b.validatorsMultiValue
      ((f.slices b.validatorsMultiValue).detach id) }

def validatorIndexByPubkey (key : PubKey) : ValidatorIndex × Bool :=
  let numOfVals := (f.slices b.validatorsMultiValue).len id
  match f.valIdxMaps b.valMapHandler key with
  | none => (0, false)
  | some idx => if numOfVals ≤ idx then (0, false) else (idx, true)

/-- The validator at an index of the registry has the key. -/
def HasKeyAt (i : ValidatorIndex) (key : PubKey) : Prop :=
  ∃ validator, (f.slices b.validatorsMultiValue).atIndex id i = .ok (some validator) ∧
    validator.publicKey = key

end

end Family

inductive Request
  | copy (id : ℕ)
  | appendValidator (id : ℕ) (val : Validator)
  | setValidators (id : ℕ) (val : List (Option Validator))
  | finalizerCleanup (id : ℕ)

/-- The state that a request is made to. -/
def Request.id : Request → ℕ
  | copy id => id
  | appendValidator id _ => id
  | setValidators id _ => id
  | finalizerCleanup id => id

def Request.apply (f : Family) (b : BeaconState) : Request → Family
  | copy id => f.copy id b
  | appendValidator id val => f.appendValidator id b val
  | setValidators id val => f.setValidators id b val
  | finalizerCleanup id => f.finalizerCleanup id b

/-- A request to a state that is not alive does nothing. -/
def perform (f : Family) (request : Request) : Request × Family :=
  (request, (f.states request.id).elim f fun b ↦ request.apply f b)

/-- The public keys of the records. -/
def keysOf (validators : List (Option Validator)) : List PubKey :=
  validators.filterMap fun record ↦ record.map Validator.publicKey

/-- An appended validator has a new key, and the map has no other key at the index it gets.  The
validators that a registry is set to have different keys. -/
def KeysKept (f : Family) : Request → Prop
  | .appendValidator id val => ∀ b, f.states id = some b →
      (∀ i, ¬f.HasKeyAt id b i val.publicKey) ∧
        ∀ key ≠ val.publicKey, f.valIdxMaps b.valMapHandler key ≠
          some ((f.slices b.validatorsMultiValue).len id)
  | .setValidators _ val => (keysOf val).Nodup
  | _ => True

/-- The record that a state has at an index. -/
def Family.record (f : Family) (id : ℕ) (b : BeaconState) (i : ℕ) : Option (Option Validator) :=
  (f.slices b.validatorsMultiValue).itemAt id i

/-- The registries are well-formed, and the ids and addresses that are not given out are unused. -/
structure Family.Allocated (f : Family) : Prop where
  slices : ∀ address, (f.slices address).Invariant
  unused : ∀ address id, f.nextId ≤ id → (f.slices address).Unused id
  states : ∀ {id : ℕ} {b : BeaconState}, f.states id = some b →
    id < f.nextId ∧ b.validatorsMultiValue < f.nextAddress ∧ b.valMapHandler < f.nextAddress

/-- Every state finds exactly its own validators in the map.  Of two states that share the map, the
`nil` records of one are not past the end of the other. -/
structure Family.Indexed (f : Family) : Prop where
  key : ∀ {id : ℕ} {b : BeaconState}, f.states id = some b → ∀ key i,
    f.valIdxMaps b.valMapHandler key = some i ∧ (f.record id b i).isSome ↔
      ∃ validator, f.record id b i = some (some validator) ∧ validator.publicKey = key
  nilRecord : ∀ {id id' : ℕ} {b b' : BeaconState}, f.states id = some b → f.states id' = some b' →
    b.valMapHandler = b'.valMapHandler → ∀ i, f.record id b i = some none →
      (f.record id' b' i).isSome

section Steps

variable {f f' : Family} {id : ℕ} {b : BeaconState} {validators : List (Option Validator)}
  {key : PubKey}

theorem hasKeyAt_iff {i : ValidatorIndex} : f.HasKeyAt id b i key ↔
    ∃ validator, f.record id b i = some (some validator) ∧ validator.publicKey = key := by
  rw [Family.HasKeyAt, atIndex_eq, Family.record]
  grind

theorem validatorIndexMap_eq_some_iff (hnodup : (keysOf validators).Nodup) :
    validatorIndexMap validators key = some i ↔
      ∃ validator, validators[i]? = some (some validator) ∧ validator.publicKey = key := by
  rw [validatorIndexMap, indexBy_eq_some_iff hnodup, Option.bind_eq_some_iff]
  constructor
  · rintro ⟨record, hrec, hkey⟩
    obtain ⟨validator, rfl, rfl⟩ := Option.map_eq_some_iff.1 hkey
    exact ⟨validator, hrec, rfl⟩
  · grind

/-- Every state of the later family looks like a state of the earlier one. -/
theorem Family.Indexed.of_source (hidx : f.Indexed) (source : ℕ → ℕ)
    (hstates : ∀ {id b}, f'.states id = some b → f.states (source id) = some b ∧
      ∀ i, f'.record id b i = f.record (source id) b i)
    (hmaps : f'.valIdxMaps = f.valIdxMaps) : f'.Indexed where
  key hst key i := by
    obtain ⟨hold, hrec⟩ := hstates hst
    rw [hmaps, hrec]
    exact hidx.key hold key i
  nilRecord hst hst' hshared i hnil := by
    obtain ⟨hold, hrec⟩ := hstates hst
    obtain ⟨hold', hrec'⟩ := hstates hst'
    rw [hrec] at hnil
    rw [hrec']
    exact hidx.nilRecord hold hold' hshared i hnil

theorem Family.Allocated.new (validators : List (Option Validator)) :
    (Family.new validators).Allocated where
  slices _ := init_invariant validators
  unused _ id _ := init_unused validators id
  states {id b} hst := by
    simp only [Family.new, update_apply] at hst
    split_ifs at hst with hid
    cases hst
    simp [hid, Family.new]

theorem Family.Indexed.new (hnodup : (keysOf validators).Nodup) :
    (Family.new validators).Indexed := by
  have hrec (id : ℕ) (b : BeaconState) (i : ℕ) :
      (Family.new validators).record id b i = validators[i]? := (init_unused validators id).itemAt i
  constructor
  · intro id b _ key i
    rw [hrec]
    have hkey : validatorIndexMap validators key = some i ↔ _ :=
      validatorIndexMap_eq_some_iff hnodup
    refine ⟨fun hsome ↦ hkey.1 hsome.1, fun hsome ↦ ⟨hkey.2 hsome, ?_⟩⟩
    grind
  · grind

variable (halloc : f.Allocated)
include halloc

section Copy

theorem Family.Allocated.copy (hst : f.states id = some b) : (f.copy id b).Allocated := by
  have hfresh := halloc.unused b.validatorsMultiValue f.nextId le_rfl
  refine ⟨fun address ↦ ?_, fun address other hother ↦ ?_, fun {other b'} hst' ↦ ?_⟩
  · simp only [Family.copy, update_apply]
    split_ifs
    · exact (renamed_copy (halloc.slices _) hfresh id).invariant (halloc.slices _)
    · exact halloc.slices address
  · have hlt : f.nextId < other := hother
    simp only [Family.copy, update_apply]
    split_ifs
    · refine (renamed_copy (halloc.slices _) hfresh id).unused ?_
      rintro old ⟨⟩
      rw [if_neg hlt.ne']
      exact halloc.unused _ other hlt.le
    · exact halloc.unused address other hlt.le
  · simp only [Family.copy, update_apply] at hst' ⊢
    split_ifs at hst' with hnew
    · cases hst'
      exact ⟨by omega, (halloc.states hst).2⟩
    · have := halloc.states hst'
      exact ⟨by omega, this.2⟩

theorem Family.Indexed.copy (hidx : f.Indexed)
    (hst : f.states id = some b) : (f.copy id b).Indexed := by
  have hfresh := halloc.unused b.validatorsMultiValue f.nextId le_rfl
  refine hidx.of_source (fun other ↦ if other = f.nextId then id else other) ?_ rfl
  intro other b' hst'
  have hrec (i : ℕ) : (f.copy id b).record other b' i =
      if b'.validatorsMultiValue = b.validatorsMultiValue then
        f.record (if other = f.nextId then id else other) b' i
      else f.record other b' i := by
    simp only [Family.record, Family.copy, update_apply]
    by_cases heq : b'.validatorsMultiValue = b.validatorsMultiValue
    · rw [if_pos heq, if_pos heq, heq,
        (renamed_copy (halloc.slices _) hfresh id).itemAt_of_some rfl]
    · simp [heq]
  simp only [Family.copy, update_apply] at hst'
  grind

end Copy

section Detach

/-- What is left of the other states when a state leaves its registry. -/
theorem Family.Allocated.detach (address : ℕ) {other : ℕ} (hne : other ≠ id) (i : ℕ) :
    (update f.slices b.validatorsMultiValue ((f.slices b.validatorsMultiValue).detach id)
      address).itemAt other i = (f.slices address).itemAt other i := by
  rw [update_apply]
  split_ifs with heq
  · rw [(renamed_detach (halloc.slices _) id).itemAt_of_some (if_neg hne), heq]
  · rfl

theorem Family.Allocated.finalizerCleanup (id : ℕ) (b : BeaconState) :
    (f.finalizerCleanup id b).Allocated := by
  refine ⟨fun address ↦ ?_, fun address other hother ↦ ?_, fun {other b'} hst' ↦ ?_⟩
  · simp only [Family.finalizerCleanup, update_apply]
    split_ifs
    · exact (renamed_detach (halloc.slices _) id).invariant (halloc.slices _)
    · exact halloc.slices address
  · simp only [Family.finalizerCleanup, update_apply]
    split_ifs
    · refine (renamed_detach (halloc.slices _) id).unused fun old hold ↦ ?_
      split_ifs at hold
      cases hold
      exact halloc.unused _ other hother
    · exact halloc.unused address other hother
  · simp only [Family.finalizerCleanup, update_apply] at hst'
    split_ifs at hst'
    exact halloc.states hst'

theorem Family.Indexed.finalizerCleanup (hidx : f.Indexed) : (f.finalizerCleanup id b).Indexed := by
  refine hidx.of_source (fun other ↦ other) ?_ rfl
  intro other b' hst'
  simp only [Family.finalizerCleanup, update_apply] at hst'
  split_ifs at hst' with hne
  exact ⟨hst', halloc.detach _ hne⟩

theorem Family.Allocated.setValidators (hst : f.states id = some b)
    (val : List (Option Validator)) : (f.setValidators id b val).Allocated := by
  have hdetached := halloc.finalizerCleanup id b
  refine ⟨fun address ↦ ?_, fun address other hother ↦ ?_, fun {other b'} hst' ↦ ?_⟩
  · simp only [Family.setValidators]
    rw [update_apply]
    split_ifs
    · exact init_invariant val
    · exact hdetached.slices address
  · simp only [Family.setValidators]
    rw [update_apply]
    split_ifs
    · exact init_unused val other
    · exact hdetached.unused address other hother
  · have hold := halloc.states hst
    simp only [Family.setValidators, update_apply] at hst' ⊢
    split_ifs at hst' with heq
    · grind
    · have := halloc.states hst'
      exact ⟨this.1, by omega, by omega⟩

theorem Family.Indexed.setValidators (hidx : f.Indexed)
    (hst : f.states id = some b) {val : List (Option Validator)} (hnodup : (keysOf val).Nodup) :
    (f.setValidators id b val).Indexed := by
  -- The state has its own registry and its own map now.
  have hself {b' : BeaconState} (hst' : (f.setValidators id b val).states id = some b') :
      b' = ⟨f.nextAddress, f.nextAddress⟩ := by
    simpa [Family.setValidators, eq_comm] using hst'
  have hother {other : ℕ} {b' : BeaconState} (hne : other ≠ id)
      (hst' : (f.setValidators id b val).states other = some b') :
      f.states other = some b' ∧ b'.valMapHandler ≠ f.nextAddress ∧
        (f.setValidators id b val).valIdxMaps b'.valMapHandler = f.valIdxMaps b'.valMapHandler ∧
        ∀ i, (f.setValidators id b val).record other b' i = f.record other b' i := by
    have hold : f.states other = some b' := by
      simpa [Family.setValidators, update_of_ne hne] using hst'
    obtain ⟨-, hslice, hmap⟩ := halloc.states hold
    refine ⟨hold, hmap.ne, ?_, fun i ↦ ?_⟩
    · simp only [Family.setValidators]
      rw [update_of_ne hmap.ne]
    · simp only [Family.record, Family.setValidators]
      rw [update_of_ne hslice.ne]
      exact halloc.detach _ hne i
  have hrec (i : ℕ) : (f.setValidators id b val).record id ⟨f.nextAddress, f.nextAddress⟩ i =
      val[i]? := by
    simp only [Family.record, Family.setValidators]
    rw [update_self]
    exact (init_unused val id).itemAt i
  constructor
  · intro other b' hst' key i
    by_cases heq : other = id
    · subst heq
      obtain rfl := hself hst'
      have hmap : (f.setValidators other b val).valIdxMaps f.nextAddress =
          validatorIndexMap val := by
        simp only [Family.setValidators]
        rw [update_self]
      rw [hrec, hmap, validatorIndexMap_eq_some_iff hnodup, and_iff_left_iff_imp]
      grind
    · obtain ⟨hold, -, hmap, hsame⟩ := hother heq hst'
      rw [hmap, hsame]
      exact hidx.key hold key i
  · intro first second b' b'' hst' hst'' hshared i hnil
    by_cases hfirst : first = id
    · grind
    · obtain ⟨hold, hne, -, hsame⟩ := hother hfirst hst'
      by_cases hsnd : second = id
      · grind
      · obtain ⟨hold', -, -, hsame'⟩ := hother hsnd hst''
        rw [hsame] at hnil
        rw [hsame']
        exact hidx.nilRecord hold hold' hshared i hnil

end Detach

section Append

variable {val : Validator}

theorem Family.Allocated.len_append :
    ((f.slices b.validatorsMultiValue).append id (some val)).len id - 1 =
      (f.slices b.validatorsMultiValue).len id := by
  rw [(appended_append (halloc.slices _) id (some val)).len, if_pos rfl]
  rfl

theorem Family.Allocated.appendValidator (hst : f.states id = some b) :
    (f.appendValidator id b val).Allocated := by
  have happended := appended_append (halloc.slices b.validatorsMultiValue) id (some val)
  refine ⟨fun address ↦ ?_, fun address other hother ↦ ?_, halloc.states⟩
  · simp only [Family.appendValidator, update_apply]
    split_ifs
    · exact happended.invariant (halloc.slices _)
    · exact halloc.slices address
  · have hlt := (halloc.states hst).1.trans_le hother
    simp only [Family.appendValidator, update_apply]
    split_ifs
    · exact happended.unused (halloc.unused _ other hother) hlt.ne'
    · exact halloc.unused address other hother

theorem Family.Allocated.record_appendValidator (id : ℕ)
    (b : BeaconState) (val : Validator) (other : ℕ) (b' : BeaconState) (i : ℕ) :
    (f.appendValidator id b val).record other b' i =
      if other = id ∧ b'.validatorsMultiValue = b.validatorsMultiValue ∧
          i = (f.slices b.validatorsMultiValue).len id then some (some val)
      else f.record other b' i := by
  simp only [Family.record, Family.appendValidator, update_apply]
  by_cases heq : b'.validatorsMultiValue = b.validatorsMultiValue
  · simp [heq, (appended_append (halloc.slices _) id (some val)).itemAt (halloc.slices _)]
  · simp [heq]

theorem Family.Indexed.appendValidator (hidx : f.Indexed)
    (hst : f.states id = some b) (hnew : ∀ i, ¬f.HasKeyAt id b i val.publicKey)
    (hfree : ∀ key ≠ val.publicKey, f.valIdxMaps b.valMapHandler key ≠
      some ((f.slices b.validatorsMultiValue).len id)) : (f.appendValidator id b val).Indexed := by
  generalize hlen : (f.slices b.validatorsMultiValue).len id = n at hfree
  have hrec := halloc.record_appendValidator id b val
  rw [hlen] at hrec
  have hextent {other : ℕ} {b' : BeaconState} {i : ℕ} :
      (f.record other b' i).isSome ↔ i < (f.slices b'.validatorsMultiValue).len other :=
    (halloc.slices _).extent other i
  have hmap (handler : ℕ) (key : PubKey) : (f.appendValidator id b val).valIdxMaps handler key =
      if handler = b.valMapHandler ∧ key = val.publicKey then some n
      else f.valIdxMaps handler key := by
    simp only [Family.appendValidator, halloc.len_append, hlen, update_apply]
    grind
  have hend : ¬(f.record id b n).isSome := by
    rw [hextent, hlen]
    exact lt_irrefl n
  -- A state with the same map that is longer has the same key at this index.
  have hlonger {other : ℕ} {b' : BeaconState} (hst' : f.states other = some b')
      (hshared : b'.valMapHandler = b.valMapHandler) (hsome : (f.record other b' n).isSome) :
      ∃ w, f.record other b' n = some (some w) ∧ w.publicKey = val.publicKey := by
    obtain ⟨r, hr⟩ := Option.isSome_iff_exists.1 hsome
    cases r with
    | none => exact absurd (hidx.nilRecord hst' hst hshared n hr) hend
    | some w =>
      refine ⟨w, hr, ?_⟩
      by_contra hne
      have hw := (hidx.key hst' w.publicKey n).2 ⟨w, hr, rfl⟩
      exact hfree w.publicKey hne (hshared ▸ hw.1)
  constructor
  · intro other b' hst' key i
    by_cases heq : other = id
    · subst heq
      obtain rfl : b = b' := Option.some.inj (hst.symm.trans hst')
      rw [hmap, hrec]
      by_cases hi : i = n
      · grind
      · by_cases hkey : key = val.publicKey
        · have hnone := hnew i
          rw [hasKeyAt_iff] at hnone
          simp [hi, Ne.symm hi, hkey, hnone]
        · simpa [hi, hkey] using hidx.key hst key i
    · have hstays : (f.appendValidator id b val).record other b' i = f.record other b' i := by
        rw [hrec, if_neg fun hand ↦ heq hand.1]
      rw [hmap, hstays]
      split_ifs with hwrites
      · obtain ⟨hshared, rfl⟩ := hwrites
        constructor
        · rintro ⟨hi, hsome⟩
          obtain rfl := Option.some.inj hi
          exact hlonger hst' hshared hsome
        · rintro ⟨v, hv, hkey⟩
          obtain ⟨hold, hsome⟩ := (hidx.key hst' val.publicKey i).2 ⟨v, hv, hkey⟩
          refine ⟨?_, hsome⟩
          rw [hshared] at hold
          obtain hlt | rfl | hgt := lt_trichotomy i n
          · have hself := (hidx.key hst val.publicKey i).1 ⟨hold, hextent.2 (hlen ▸ hlt)⟩
            exact absurd (hasKeyAt_iff.2 hself) (hnew i)
          · rfl
          · obtain ⟨w, hw, hkey'⟩ := hlonger hst' hshared (hextent.2 (hgt.trans (hextent.1 hsome)))
            have hn := ((hidx.key hst' val.publicKey n).2 ⟨w, hw, hkey'⟩).1
            grind
      · exact hidx.key hst' key i
  · intro first second b' b'' hst' hst'' hshared i hnil
    have hold : f.record first b' i = some none := by
      grind
    have hsome := hidx.nilRecord hst' hst'' hshared i hold
    grind

end Append

end Steps

section Runs

variable {f : Family}

theorem invariant_perform (halloc : f.Allocated) (hidx : f.Indexed) {request : Request}
    (hkept : KeysKept f request) :
    (perform f request).2.Allocated ∧ (perform f request).2.Indexed := by
  simp only [perform]
  cases hst : f.states request.id with
  | none => exact ⟨halloc, hidx⟩
  | some b =>
    cases request with
    | copy id => exact ⟨halloc.copy hst, hidx.copy halloc hst⟩
    | appendValidator id val =>
      obtain ⟨hnew, hfree⟩ := hkept b hst
      exact ⟨halloc.appendValidator hst, hidx.appendValidator halloc hst hnew hfree⟩
    | setValidators id val =>
      exact ⟨halloc.setValidators hst val, hidx.setValidators halloc hst hkept⟩
    | finalizerCleanup id =>
      exact ⟨halloc.finalizerCleanup id b, hidx.finalizerCleanup halloc⟩

/-- In every run that keeps the keys apart, every live state finds exactly its own validators. -/
theorem validatorIndexByPubkey_iff {validators : List (Option Validator)}
    (hnodup : (keysOf validators).Nodup) {requests : List Request}
    (run : Run (CallStep perform KeysKept) (Family.new validators) requests f) {id : ℕ}
    {b : BeaconState} (hstate : f.states id = some b) (key : PubKey) :
    (∀ i, f.validatorIndexByPubkey id b key = (i, true) ↔ f.HasKeyAt id b i key) ∧
      ((∀ i, ¬f.HasKeyAt id b i key) → f.validatorIndexByPubkey id b key = (0, false)) := by
  obtain ⟨hallocated, hidx⟩ : f.Allocated ∧ f.Indexed :=
    run.call_invariant (fun f ↦ f.Allocated ∧ f.Indexed) ⟨.new validators, .new hnodup⟩
      fun f request hf hkept ↦ invariant_perform hf.1 hf.2 hkept
  have hfound (i : ℕ) : f.validatorIndexByPubkey id b key = (i, true) ↔ f.HasKeyAt id b i key := by
    rw [hasKeyAt_iff, ← hidx.key hstate]
    have hextent := (hallocated.slices b.validatorsMultiValue).extent id i
    simp only [Family.validatorIndexByPubkey, Family.record, hextent]
    grind
  refine ⟨hfound, fun hnone ↦ ?_⟩
  have hnot (i : ℕ) : f.validatorIndexByPubkey id b key ≠ (i, true) :=
    fun heq ↦ hnone i ((hfound i).1 heq)
  simp only [Family.validatorIndexByPubkey] at hnot ⊢
  grind

/-- A state with one validator is copied, and validators are appended to the state and to its copy.
-/
def appendToBoth (validators copied : List Validator) : Family :=
  (execute perform (Family.new [some ⟨0, 5⟩]) ([.copy 0] ++ validators.map (.appendValidator 0) ++
    copied.map (.appendValidator 1))).2

theorem keysKept_appendToBoth :
    AllAllowed perform KeysKept (Family.new [some ⟨0, 5⟩])
      [.copy 0, .appendValidator 1 ⟨1, 6⟩] := by
  have hnodup : (keysOf [some ⟨0, 5⟩]).Nodup := List.nodup_singleton _
  have hcopy : ((Family.new [some ⟨0, 5⟩]).copy 0 ⟨0, 0⟩).Indexed :=
    (Family.Indexed.new hnodup).copy (.new _) rfl
  refine ⟨trivial, ?_, trivial⟩
  rintro b ⟨⟩
  refine ⟨fun i hkey ↦ ?_, fun key _ hsome ↦ ?_⟩
  · have hsome := ((hcopy.key rfl 6 i).2 (hasKeyAt_iff.1 hkey)).1
    cases hsome
  · obtain ⟨validator, hvalidator, -⟩ := (validatorIndexMap_eq_some_iff hnodup).1 hsome
    cases hvalidator

theorem validatorIndexByPubkey_iff_appendToBoth :
    (appendToBoth [] [⟨1, 6⟩]).validatorIndexByPubkey 1 ⟨0, 0⟩ 6 = (1, true) := by
  have hnodup : (keysOf [some ⟨0, 5⟩]).Nodup := List.nodup_singleton _
  have run := run_execute perform KeysKept _ _ keysKept_appendToBoth
  exact ((validatorIndexByPubkey_iff hnodup run rfl 6).1 1).2 ⟨⟨1, 6⟩, rfl, rfl⟩

/-- The state and its copy append different validators at the same index.  The state finds the
validator of the copy. -/
theorem appendToBoth_finds_other :
    (appendToBoth [⟨1, 6⟩] [⟨2, 7⟩]).states 0 = some ⟨0, 0⟩ ∧
      (appendToBoth [⟨1, 6⟩] [⟨2, 7⟩]).validatorIndexByPubkey 0 ⟨0, 0⟩ 7 = (1, true) ∧
      ((appendToBoth [⟨1, 6⟩] [⟨2, 7⟩]).slices 0).atIndex 0 1 = .ok (some ⟨1, 6⟩) :=
  ⟨rfl, by decide +kernel, rfl⟩

end Runs

end Prysm.StateNative.ValidatorMap

