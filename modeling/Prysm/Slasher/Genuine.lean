import Prysm.Slasher.Records
import Prysm.Slasher.Batch

/-!
# Genuine slashings

Every attester slashing that the slasher returns consists of two slashable attestations with a
common attesting validator, as long as attestations with one data root have the same attesting
indices.  The records are kept by data root, so of two aggregates with one data root only one is
kept, and the validators of the other find it as their own record.
-/

namespace Prysm.Slasher

open List Function Prysm.Library Database

/-- The two attestations are slashable against each other. -/
def Slashable (a b : IndexedAttestationWrapper) : Prop :=
  (a.target = b.target ∧ a.dataRoot ≠ b.dataRoot) ∨ Surrounds a b ∨ Surrounds b a

instance (a b : IndexedAttestationWrapper) : Decidable (Slashable a b) :=
  inferInstanceAs (Decidable (_ ∨ _ ∨ _))

/-- A validator attested to both attestations, and they are slashable. -/
def Genuine (slashing : AttesterSlashing) : Prop :=
  (∃ v ∈ slashing.attestation1.attestingIndices, v ∈ slashing.attestation2.attestingIndices) ∧
    Slashable slashing.attestation1 slashing.attestation2

instance (slashing : AttesterSlashing) : Decidable (Genuine slashing) :=
  inferInstanceAs (Decidable (_ ∧ _))

theorem Slashable.symm {a b : IndexedAttestationWrapper} (hslash : Slashable a b) :
    Slashable b a := by
  rcases hslash with ⟨htgt, hroot⟩ | hab | hba
  · exact .inl ⟨htgt.symm, hroot.symm⟩
  · exact .inr (.inr hab)
  · exact .inr (.inl hba)

variable {existing incoming : IndexedAttestationWrapper}

/-- The order of the attestations in a slashing does not matter. -/
theorem genuine_attesterSlashing {v : ValidatorIndex} (hexisting : v ∈ existing.attestingIndices)
    (hincoming : v ∈ incoming.attestingIndices) (hslash : Slashable existing incoming) :
    Genuine (attesterSlashing existing incoming) := by
  unfold attesterSlashing
  split_ifs
  · exact ⟨⟨v, hincoming, hexisting⟩, hslash.symm⟩
  · exact ⟨⟨v, hexisting, hincoming⟩, hslash⟩

/-! ### What a detection rests on -/

variable {params : Parameters} {fuel : ℕ} {slasherDB : RecordLookup}
  {disk : ChunkKind → ℕ → Option Chunk} {kind : ChunkKind} {v : ValidatorIndex}
  {atts : List IndexedAttestationWrapper} {cur : Epoch} {orders : IterationOrders}

variable {vci : ℕ} {chunks upd : ChunkMap} {detection : Detection}
  {w : ValidatorIndex}

theorem encodeValidatorIndex_lt (v : ValidatorIndex) : encodeValidatorIndex v < 2 ^ 40 := by
  unfold encodeValidatorIndex
  lia

theorem dataRootKey_div (target : Epoch) (v : ValidatorIndex) :
    dataRootKey target v / 2 ^ 40 = target := by
  have hlt := encodeValidatorIndex_lt v
  unfold dataRootKey
  lia

/-- Data roots determine the epochs and the attesting indices, and indices fit in five bytes. -/
structure RootsDetermine (saved : List IndexedAttestationWrapper) : Prop where
  epochs : ∀ a ∈ saved, ∀ b ∈ saved, a.dataRoot = b.dataRoot → a.target = b.target
  indices : ∀ a ∈ saved, ∀ b ∈ saved, a.dataRoot = b.dataRoot →
    a.attestingIndices ⊆ b.attestingIndices
  validators : ∀ a ∈ saved, ∀ w ∈ a.attestingIndices, w < 2 ^ 40

/-- The database holds nothing but the saved attestations, and a record for every validator and
target that are live. -/
structure Holds (saved : List IndexedAttestationWrapper) (live : ValidatorIndex → Epoch → Prop)
    (db : Database) : Prop where
  records : ∀ root record, db.records root = some record → record ∈ saved ∧ record.dataRoot = root
  dataRoots : ∀ key root, db.dataRoots.get key = some root →
    ∃ a ∈ saved, ∃ w ∈ a.attestingIndices, key = dataRootKey a.target w ∧ a.dataRoot = root
  present : ∀ v target, live v target → ∃ root record,
    db.dataRoots.get (dataRootKey target v) = some root ∧ db.records root = some record

variable {saved saved' : List IndexedAttestationWrapper} {live : ValidatorIndex → Epoch → Prop}
  {db : Database} {a : IndexedAttestationWrapper} {state : DoubleVotes} {target : Epoch}

section

variable (hdb : Holds saved live db)
include hdb

theorem Holds.mono (hsubset : saved ⊆ saved') : Holds saved' live db where
  records := fun root record h ↦
    ⟨hsubset (hdb.records root record h).1, (hdb.records root record h).2⟩
  dataRoots := fun key root h ↦ by
    obtain ⟨a, ha, hrest⟩ := hdb.dataRoots key root h
    exact ⟨a, hsubset ha, hrest⟩
  present := hdb.present

theorem Holds.saveAttestationRecord (ha : a ∈ saved) :
    Holds saved (fun v target ↦ live v target ∨ v ∈ a.attestingIndices ∧ a.target = target)
      (db.saveAttestationRecord a) where
  records := by
    intro root record hrec
    by_cases hroot : root = a.dataRoot
    · subst hroot
      simp only [Database.saveAttestationRecord, update_self, Option.some.injEq] at hrec
      exact hrec ▸ ⟨ha, rfl⟩
    · simp only [Database.saveAttestationRecord, update_of_ne hroot] at hrec
      exact hdb.records root record hrec
  dataRoots := by
    intro key root hget
    simp only [Database.saveAttestationRecord, Bucket.get_foldl_put] at hget
    split_ifs at hget with hkey
    · grind
    · exact hdb.dataRoots key root hget
  present := by
    intro v target hlive
    have hrecords : ∀ root, (∃ record, db.records root = some record) →
        ∃ record, (db.saveAttestationRecord a).records root = some record := by
      rintro root ⟨record, hrec⟩
      by_cases hroot : root = a.dataRoot
      · exact ⟨a, by simp [Database.saveAttestationRecord, hroot]⟩
      · exact ⟨record, by simp [Database.saveAttestationRecord, hroot, hrec]⟩
    simp only [Database.saveAttestationRecord, Bucket.get_foldl_put]
    by_cases hkey : dataRootKey target v ∈ a.attestingIndices.map (dataRootKey a.target)
    · exact ⟨a.dataRoot, a, by simp [hkey], by simp⟩
    · rcases hlive with hlive | ⟨hv, rfl⟩
      · obtain ⟨root, record, hget, hrec⟩ := hdb.present v target hlive
        obtain ⟨record', hrec'⟩ := hrecords root ⟨record, hrec⟩
        grind
      · exact absurd (mem_map_of_mem hv) hkey

/-- Saving a batch makes its validators and targets live. -/
theorem Holds.save (hsubset : atts ⊆ saved) :
    Holds saved (fun v target ↦ live v target ∨
        ∃ a ∈ atts, v ∈ a.attestingIndices ∧ a.target = target)
      (db.saveAttestationRecordsForValidators atts) := by
  unfold saveAttestationRecordsForValidators
  induction atts with
  | nil => simpa using hdb
  | cons a atts ih =>
    have hrest := ih fun b hb ↦ hsubset (mem_cons_of_mem _ hb)
    have hstep := hrest.saveAttestationRecord (hsubset mem_cons_self)
    grind

omit hdb in
theorem foldl_deleteRecord (entries : List (ℕ × Root))
    (records : Root → Option IndexedAttestationWrapper) (root : Root) :
    entries.foldl deleteRecord records root =
      if root ∈ entries.map Prod.snd then none else records root := by
  induction entries generalizing records with
  | nil => simp
  | cons entry entries ih =>
    rw [foldl_cons, ih]
    simp only [map_cons, mem_cons, deleteRecord]
    grind

/-- Pruning keeps the records of later targets. -/
theorem Holds.prune (hroots : RootsDetermine saved) (maxEpoch : Epoch) :
    Holds saved (fun v target ↦ live v target ∧ maxEpoch < target)
      (db.pruneAttestationsAtEpoch maxEpoch) where
  records := by
    intro root record hrec
    simp only [pruneAttestationsAtEpoch, foldl_deleteRecord] at hrec
    split_ifs at hrec
    exact hdb.records root record hrec
  dataRoots := fun key root hget ↦ hdb.dataRoots key root (Bucket.get_of_get_deleteWhile hget)
  present := by
    rintro v target ⟨hlive, hlater⟩
    obtain ⟨root, record, hget, hrec⟩ := hdb.present v target hlive
    have hkept : pruned maxEpoch (dataRootKey target v) = false := by
      simpa only [pruned, dataRootKey_div, decide_eq_false_iff_not, not_le] using hlater
    refine ⟨root, record, ?_, ?_⟩
    · simp only [pruneAttestationsAtEpoch, Bucket.get_deleteWhile_of_not hkept, hget]
    · simp only [pruneAttestationsAtEpoch, foldl_deleteRecord]
      rw [if_neg, hrec]
      -- a pruned key with this data root would be for an attestation of the same target
      intro hmem
      obtain ⟨⟨key, root'⟩, hentry, rfl⟩ := mem_map.1 hmem
      have hpruned := mem_takeWhile_imp hentry
      obtain ⟨b, hb, w', -, hkey', hroot'⟩ := hdb.dataRoots key root'
        ((db.dataRoots.mem_entries_iff _ _).1 ((takeWhile_sublist _).mem hentry))
      obtain ⟨a, ha, w, -, hkey, hroot⟩ := hdb.dataRoots _ _ hget
      have htgt : target = a.target := by
        rw [← dataRootKey_div target v, hkey, dataRootKey_div]
      have hsame := hroots.epochs a ha b hb (hroot.trans hroot'.symm)
      simp only [pruned, hkey', dataRootKey_div, decide_eq_true_eq] at hpruned
      lia

end

/-! ### Double votes -/

/-- What the batch loop of `checkDoubleVotes` keeps. -/
structure BatchDoubleVotes (state : DoubleVotes) : Prop where
  existing : ∀ v target a, state.existing v target = some a →
    v ∈ a.attestingIndices ∧ a.target = target
  slashings : ∀ slashing ∈ state.slashings, Genuine slashing

theorem BatchDoubleVotes.step (hst : BatchDoubleVotes state) (hv : v ∈ a.attestingIndices) :
    BatchDoubleVotes (doubleVoteInBatch state (a, v)) := by
  unfold doubleVoteInBatch
  cases hexisting : state.existing v a.target with
  | none =>
    refine ⟨fun w target b hb ↦ ?_, hst.slashings⟩
    simp only at hb
    by_cases hw : w = v
    · subst hw
      rw [update_self] at hb
      by_cases htgt : target = a.target
      · grind
      · rw [update_of_ne htgt] at hb
        exact hst.existing w target b hb
    · rw [update_of_ne hw] at hb
      exact hst.existing w target b hb
  | some existing =>
    simp only
    split_ifs with hroot
    · exact hst
    · refine ⟨hst.existing, fun slashing hmem ↦ ?_⟩
      rcases mem_append.1 hmem with hold | hnew
      · exact hst.slashings slashing hold
      · obtain ⟨hidx, htgt⟩ := hst.existing v a.target existing hexisting
        rw [mem_singleton.1 hnew]
        exact genuine_attesterSlashing hidx hv (.inl ⟨htgt, hroot⟩)

/-- What happens to the slasher: a batch with the slashings it returned, a batch whose check failed
after its records were saved, and pruning. -/
inductive SlasherEvent
  | batch (attestations : List IndexedAttestationWrapper) (slashings : List AttesterSlashing)
  | failed (attestations : List IndexedAttestationWrapper)
  | prune (maxEpoch : Epoch)

def SlasherEvent.newRecords : SlasherEvent → List IndexedAttestationWrapper
  | .batch attestations _ => attestations
  | .failed attestations => attestations
  | .prune _ => []

/-- The validator and target were saved, and not pruned since. -/
def SavedUnpruned (events : List SlasherEvent) (v : ValidatorIndex) (target : Epoch) : Prop :=
  ∃ before event after, events = before ++ event :: after ∧
    (∃ a ∈ event.newRecords, v ∈ a.attestingIndices ∧ a.target = target) ∧
    ∀ maxEpoch, .prune maxEpoch ∈ after → maxEpoch < target

variable {events : List SlasherEvent} {event : SlasherEvent}

theorem SavedUnpruned.of_append (hsaved : SavedUnpruned (events ++ [event]) v target) :
    (SavedUnpruned events v target ∧ ∀ maxEpoch, event = .prune maxEpoch → maxEpoch < target) ∨
      ∃ a ∈ event.newRecords, v ∈ a.attestingIndices ∧ a.target = target := by
  obtain ⟨before, middle, after, hlist, hattests, hunpruned⟩ := hsaved
  rcases eq_nil_or_concat after with rfl | ⟨after, last, rfl⟩
  · obtain ⟨-, hlast⟩ := append_inj' hlist rfl
    grind
  · rw [concat_eq_append, ← cons_append, ← append_assoc] at hlist
    obtain ⟨rfl, hlast⟩ := append_inj' hlist rfl
    obtain rfl : event = last := by simpa using hlast
    refine .inl ⟨⟨before, middle, after, rfl, hattests, fun maxEpoch hmem ↦ ?_⟩,
      fun maxEpoch hevent ↦ ?_⟩
    · exact hunpruned maxEpoch (by simp [hmem])
    · exact hunpruned maxEpoch (by simp [hevent])

end Prysm.Slasher
