import Prysm.Validator.AttesterProtection
import Prysm.Library.Run

/-!
# Safety of attester slashing protection

What an accepted attestation tells about the stored history, what saving and pruning do to that
history, and the invariant that carries safety through a whole run: every vote the key has signed is
either still stored or lies at or below the lowest bounds of the key.  Pruning deletes by its own
cutoff and never raises the bounds, so the invariant, and with it safety, needs the deleted entries
to be covered by them.
-/

namespace Prysm.Validator

open List Prysm.Library Option Store AttestationBuckets

variable {store next : Store} {pubKey : PubKey} {att : IndexedAttestation} {root : Root}

/-! ### What the checks accept -/

theorem mem_getD_nil {α : Type*} {list : Option (List α)} {x : α} :
    x ∈ list.getD [] ↔ ∃ elements, list = some elements ∧ x ∈ elements := by
  cases list <;> simp

variable {bucket : Bucket Epoch (List Epoch)} {canceled : Bool} {stored : Option Root}

/-- A backwards search that fails, where the test holds for keys above the bound only. -/
theorem test_eq_false_of_findFromLast {bound : Epoch}
    {test : Epoch → Epoch → Bool} {pair : Epoch → Epoch → Epoch × Epoch}
    (hnone : bucket.findFromLast bound
      (fun key list ↦ (list.find? (test key)).map (pair key)) = none)
    (hbound : ∀ key x, test key x = true → bound < key) {key : Epoch} {list : List Epoch}
    (hget : bucket.get key = some list) {x : Epoch} (hx : x ∈ list) : test key x = false := by
  by_contra htest
  have hfind := (bucket.findFromLast_eq_none_iff _ _).1 hnone key list hget
    (hbound key x (by simpa using htest))
  rw [Option.map_eq_none_iff, find?_eq_none] at hfind
  exact hfind x hx (by simpa using htest)

variable {source target : Epoch} {epochs : List Epoch}

theorem isSurround_of_checkSurroundingVote (hcheck : (checkSurroundingVote bucket att).2 = none)
    (hget : bucket.get source = some epochs) (htgt : target ∈ epochs) :
    isSurround att ⟨source, target⟩ = false := by
  unfold checkSurroundingVote at hcheck
  split at hcheck
  · cases hcheck
  · next hnone => exact test_eq_false_of_findFromLast hnone (by simp_all [isSurround]) hget htgt

theorem isSurround_of_checkSurroundedVote (hcheck : (checkSurroundedVote bucket att).2 = none)
    (hget : bucket.get target = some epochs) (hsrc : source ∈ epochs) :
    isSurround ⟨source, target⟩ att = false := by
  unfold checkSurroundedVote at hcheck
  split at hcheck
  · cases hcheck
  · next hnone => exact test_eq_false_of_findFromLast hnone (by simp_all [isSurround]) hget hsrc

/-- What the stored history of the key says about an attestation that was accepted. -/
structure Accepted (store : Store) (pubKey : PubKey) (signingRoot : Root)
    (att : IndexedAttestation) : Prop where
  source_not_below : ∀ lowest, store.lowestSignedSource pubKey = some lowest → lowest ≤ att.source
  target_above : store.storedSigningRoot pubKey att.target = none →
    ∀ lowest, store.lowestSignedTarget pubKey = some lowest → lowest < att.target
  same_root : ∀ stored, store.storedSigningRoot pubKey att.target = some stored →
    stored = some signingRoot
  not_surrounding : ∀ source, ∀ target ∈ store.attestedTargets pubKey source,
    isSurround att ⟨source, target⟩ = false
  not_surrounded : (∀ pkBucket, store.pubKeys pubKey = some pkBucket →
      pkBucket.sourceEpochs.isSome) →
    ∀ target, ∀ source ∈ store.attestedSources pubKey target,
      isSurround ⟨source, target⟩ att = false

theorem signingRootsDiffer_eq_false_iff (old : Option Root) (incoming : Root) :
    signingRootsDiffer old incoming = false ↔ old = some incoming := by
  cases old <;> simp [signingRootsDiffer]

theorem slashableAttestationCheck_eq_ok_iff :
    slashableAttestationCheck store att pubKey root canceled = .ok next ↔
      lowestSourceError store pubKey att = none ∧
      lowestTargetError store pubKey root att = none ∧
      (checkSlashableAttestation store pubKey root att canceled).2 = none ∧
      next = saveAttestationRecord store ⟨pubKey, att.source, att.target, some root⟩ := by
  unfold slashableAttestationCheck
  cases lowestSourceError store pubKey att with
  | some err => simp
  | none =>
    cases lowestTargetError store pubKey root att with
    | some err => simp
    | none =>
      cases (checkSlashableAttestation store pubKey root att canceled).2 with
      | some err => simp
      | none => simp [saveAttestationRecords, eq_comm]

theorem same_root_of_checkDoubleVote {bucket : Option (Bucket Epoch (Option Root))}
    (hcheck : checkDoubleVote bucket root att = none)
    (hstored : (bucket.bind fun b ↦ b.get att.target) = some stored) : stored = some root := by
  unfold checkDoubleVote at hcheck
  rw [hstored] at hcheck
  rw [← signingRootsDiffer_eq_false_iff]
  simpa using hcheck

/-- The slashing check of an existing key bucket passes when its three parts do; the search for a
surrounding vote is skipped when the source epochs bucket is missing. -/
theorem checkSlashableAttestation_eq_none {bkt : AttestationBuckets}
    (hbucket : store.pubKeys pubKey = some bkt)
    (hcheck : (checkSlashableAttestation store pubKey root att canceled).2 = none) :
    checkDoubleVote bkt.signingRoots root att = none ∧
      ∀ sources, bkt.sourceEpochs = some sources →
        (checkSurroundingVote sources att).2 = none ∧
        ∀ targets, bkt.targetEpochs = some targets →
          (checkSurroundedVote targets att).2 = none := by
  unfold checkSlashableAttestation at hcheck
  grind

theorem accepted_of_check
    (hcheck : slashableAttestationCheck store att pubKey root canceled = .ok next) :
    Accepted store pubKey root att := by
  obtain ⟨hsrc, htgt, hslash, -⟩ := slashableAttestationCheck_eq_ok_iff.1 hcheck
  constructor
  · intro lowest hlowest
    unfold lowestSourceError at hsrc
    rw [hlowest] at hsrc
    simpa using hsrc
  · intro hnone lowest hlowest
    unfold lowestTargetError at htgt
    rw [hlowest] at htgt
    simpa [signingRootAtTargetEpoch, hnone, signingRootsDiffer] using htgt
  · intro stored hstored
    obtain ⟨bkt, hbucket, hget⟩ := bind_eq_some_iff.1 hstored
    exact same_root_of_checkDoubleVote (checkSlashableAttestation_eq_none hbucket hslash).1 hget
  · intro source target hmem
    obtain ⟨targets, hattested, htgt⟩ := mem_getD_nil.1 hmem
    obtain ⟨bkt, hbucket, hpk⟩ := bind_eq_some_iff.1 hattested
    obtain ⟨sourceBucket, hsources, hget⟩ := bind_eq_some_iff.1 hpk
    have hnone := ((checkSlashableAttestation_eq_none hbucket hslash).2 _ hsources).1
    exact isSurround_of_checkSurroundingVote hnone hget htgt
  · intro hcomplete target source hmem
    obtain ⟨sources, hattested, hsrc⟩ := mem_getD_nil.1 hmem
    obtain ⟨bkt, hbucket, hpk⟩ := bind_eq_some_iff.1 hattested
    obtain ⟨targetBucket, htargets, hget⟩ := bind_eq_some_iff.1 hpk
    obtain ⟨sourceBucket, hsources⟩ := isSome_iff_exists.1 (hcomplete bkt hbucket)
    have hnone := ((checkSlashableAttestation_eq_none hbucket hslash).2 _ hsources).2
      _ htargets
    exact isSurround_of_checkSurroundedVote hnone hget hsrc

/-! ### What saving a record does -/

variable (bucket) (record : AttestationRecord) (target)

theorem get_appendEpoch (key value other : Epoch) :
    ((appendEpoch bucket key value).get other).getD [] =
      if key = other then (bucket.get other).getD [] ++ [value]
      else (bucket.get other).getD [] := by
  unfold appendEpoch
  by_cases hkey : key = other
  · subst hkey
    cases bucket.get key <;> simp
  · cases bucket.get key <;> simp [hkey]

variable {V : Type*}

theorem get_createBucketIfNotExists (bucket : Option (Bucket ℕ V)) (key : ℕ) :
    (createBucketIfNotExists bucket).get key = bucket.bind fun b ↦ b.get key := by
  cases bucket <;> simp [createBucketIfNotExists]

theorem storedSigningRoot_save :
    (saveAttestationRecord store record).storedSigningRoot record.pubKey target =
      if record.target = target then some record.signingRoot
      else store.storedSigningRoot record.pubKey target := by
  cases hbucket : store.pubKeys record.pubKey <;>
    simp [storedSigningRoot, saveAttestationRecord, get_createBucketIfNotExists, hbucket]

theorem attestedTargets_save (source : Epoch) :
    (saveAttestationRecord store record).attestedTargets record.pubKey source =
      if record.source = source then store.attestedTargets record.pubKey source ++ [record.target]
      else store.attestedTargets record.pubKey source := by
  cases hbucket : store.pubKeys record.pubKey <;>
    simp [attestedTargets, saveAttestationRecord, get_appendEpoch,
      get_createBucketIfNotExists, hbucket]

theorem attestedSources_save :
    (saveAttestationRecord store record).attestedSources record.pubKey target =
      if record.target = target then store.attestedSources record.pubKey target ++ [record.source]
      else store.attestedSources record.pubKey target := by
  cases hbucket : store.pubKeys record.pubKey <;>
    simp [attestedSources, saveAttestationRecord, get_appendEpoch,
      get_createBucketIfNotExists, hbucket]

/-! ### What pruning does -/

variable (config : BeaconChainConfig) {bound : Epoch} {lowest : Option Epoch}

theorem get_pruneBucket (bucket : Bucket Epoch V) (key : Epoch) :
    (pruneBucket config bucket).get key = bucket.get key ∨
      (pruneBucket config bucket).get key = none ∧ bucket.get key ≠ none ∧
        key < bucketCutoff config bucket := by
  by_cases hkey : key < bucketCutoff config bucket
  · cases hpruned : (pruneBucket config bucket).get key with
    | some value => exact .inl (Bucket.get_of_get_deleteWhile hpruned).symm
    | none =>
      grind
  · exact .inl (Bucket.get_deleteWhile_of_not (by simpa using hkey))

/-- Every stored entry of the bucket that lies below its cutoff is at or below `lowest`. -/
def CutoffCovered (bucket : Option (Bucket Epoch V)) (lowest : Option Epoch) : Prop :=
  ∀ stored ∈ bucket, ∀ bound ∈ lowest, ∀ entry ∈ stored.entries,
    entry.1 < bucketCutoff config stored → entry.1 ≤ bound

instance {V : Type*} (bucket : Option (Bucket Epoch V)) (lowest : Option Epoch) :
    Decidable (CutoffCovered config bucket lowest) :=
  inferInstanceAs (Decidable (∀ _ ∈ bucket, _))

theorem get_prune_of_covered {bucket : Option (Bucket Epoch V)}
    (hcov : CutoffCovered config bucket lowest) (hlowest : lowest = some bound) (key : Epoch) :
    ((bucket.map (pruneBucket config)).bind fun b ↦ b.get key) = (bucket.bind fun b ↦ b.get key) ∨
      ((bucket.map (pruneBucket config)).bind fun b ↦ b.get key) = none ∧ key ≤ bound := by
  cases bucket with
  | none => exact .inl rfl
  | some stored =>
    rcases get_pruneBucket config stored key with hsame | ⟨hnone, hstored, hcutoff⟩
    · exact .inl hsame
    · obtain ⟨value, hvalue⟩ := ne_none_iff_exists'.1 hstored
      have hentry := (stored.mem_entries_iff key value).2 hvalue
      exact .inr ⟨hnone, hcov stored rfl bound hlowest _ hentry hcutoff⟩

/-! ### The history of a key -/

/-- What the key signs: the epochs of the attestation and its signing root. -/
structure Vote where
  source : Epoch
  target : Epoch
  signingRoot : Root
deriving DecidableEq, Repr

/-- Two votes that may not both be signed: a double vote, or one surrounds the other. -/
def Slashable (a b : Vote) : Prop :=
  (a.target = b.target ∧ a.signingRoot ≠ b.signingRoot) ∨
    (a.source < b.source ∧ b.target < a.target) ∨ (b.source < a.source ∧ a.target < b.target)

instance (a b : Vote) : Decidable (Slashable a b) :=
  inferInstanceAs (Decidable (_ ∨ _))

/-- The store still refuses whatever is slashable against the vote: each of its entries is stored,
or was pruned and is at or below the lowest bound. -/
@[mk_iff]
structure Recorded (store : Store) (pubKey : PubKey) (vote : Vote) : Prop where
  source : ∃ lowest, store.lowestSignedSource pubKey = some lowest ∧
    (vote.target ∈ store.attestedTargets pubKey vote.source ∨ vote.source ≤ lowest)
  target : ∃ lowest, store.lowestSignedTarget pubKey = some lowest ∧
    (vote.source ∈ store.attestedSources pubKey vote.target ∨ vote.target ≤ lowest) ∧
    (store.storedSigningRoot pubKey vote.target = some (some vote.signingRoot) ∨
      store.storedSigningRoot pubKey vote.target = none ∧ vote.target ≤ lowest)

/-- The invariant of a run: the votes signed so far are recorded and not slashable. -/
structure Protects (store : Store) (pubKey : PubKey) (votes : List Vote) : Prop where
  sourceBucket : ∀ pkBucket, store.pubKeys pubKey = some pkBucket → pkBucket.sourceEpochs.isSome
  stored_not_below : ∀ target, store.storedSigningRoot pubKey target ≠ none →
    ∃ lowest, store.lowestSignedTarget pubKey = some lowest ∧ lowest ≤ target
  recorded : ∀ vote ∈ votes, Recorded store pubKey vote
  safe : votes.Pairwise fun a b ↦ ¬ Slashable a b

theorem protects_empty (pubKey : PubKey) : Protects empty pubKey [] where
  sourceBucket := by simp [empty]
  stored_not_below := by simp [empty, storedSigningRoot]
  recorded := by simp
  safe := List.Pairwise.nil

variable {votes : List Vote} {vote : Vote}

section

variable (hprotects : Protects store pubKey votes)
include hprotects

section

variable (hacc : Accepted store pubKey root att)
include hacc

/-- An accepted target is never below the lowest signed target. -/
theorem Protects.lowest_le_target {lowest : Epoch}
    (hlowest : store.lowestSignedTarget pubKey = some lowest) : lowest ≤ att.target := by
  by_cases hstored : store.storedSigningRoot pubKey att.target = none
  · exact (hacc.target_above hstored lowest hlowest).le
  · obtain ⟨bound, hbound, hle⟩ := hprotects.stored_not_below _ hstored
    grind

theorem Protects.not_slashable (hvote : vote ∈ votes) :
    ¬ Slashable vote ⟨att.source, att.target, root⟩ := by
  obtain ⟨lowestSource, hlowestSource, hsrc⟩ := (hprotects.recorded vote hvote).source
  obtain ⟨lowestTarget, hlowestTarget, htgt, hroot⟩ := (hprotects.recorded vote hvote).target
  have hsourceBound := hacc.source_not_below lowestSource hlowestSource
  have htargetBound := hprotects.lowest_le_target hacc hlowestTarget
  rintro (⟨hsame, hdiffer⟩ | ⟨hsourceLt, htargetLt⟩ | ⟨hsourceLt, htargetLt⟩)
  · -- a double vote: the stored root decides, or the target is one the lowest bound refuses
    rcases hroot with hstored | ⟨hnone, hle⟩
    · rw [hsame] at hstored
      have hequal := hacc.same_root _ hstored
      exact hdiffer (some.inj hequal)
    · rw [hsame] at hnone hle
      exact absurd (hacc.target_above hnone lowestTarget hlowestTarget) (not_lt.2 hle)
  · -- the stored vote surrounds the new one
    rcases htgt with hstored | hle
    · have hfree := hacc.not_surrounded hprotects.sourceBucket _ _ hstored
      simp [isSurround, hsourceLt, htargetLt] at hfree
    · grind
  · -- the new vote surrounds the stored one
    rcases hsrc with hstored | hle
    · have hfree := hacc.not_surrounding _ _ hstored
      simp [isSurround, hsourceLt, htargetLt] at hfree
    · grind

theorem Recorded.save (hrecorded : Recorded store pubKey vote) :
    Recorded (saveAttestationRecord store ⟨pubKey, att.source, att.target, some root⟩)
      pubKey vote := by
  obtain ⟨lowestSource, hlowestSource, hsrc⟩ := hrecorded.source
  obtain ⟨lowestTarget, hlowestTarget, htgt, hroot⟩ := hrecorded.target
  constructor
  · refine ⟨lowestSource, ?_, ?_⟩
    · simp [saveAttestationRecord, overrideLowest_eq_of_le hlowestSource
        (hacc.source_not_below _ hlowestSource)]
    · rw [attestedTargets_save]
      refine hsrc.imp_left fun hmem ↦ ?_
      grind
  · refine ⟨lowestTarget, ?_, ?_, ?_⟩
    · simp [saveAttestationRecord, overrideLowest_eq_of_le hlowestTarget
        (hprotects.lowest_le_target hacc hlowestTarget)]
    · rw [attestedSources_save]
      refine htgt.imp_left fun hmem ↦ ?_
      grind
    · rw [storedSigningRoot_save]
      by_cases hsame : att.target = vote.target
      · rcases hroot with hstored | ⟨hnone, hle⟩
        · have hequal := hacc.same_root (some vote.signingRoot) (hsame ▸ hstored)
          simp [hsame, hequal]
        · have habove := hacc.target_above (hsame ▸ hnone) lowestTarget hlowestTarget
          exact absurd habove (not_lt.2 (hsame ▸ hle))
      · simpa only [hsame, if_false] using hroot

end

omit hprotects in
theorem recorded_saved (store : Store) (pubKey : PubKey) (att : IndexedAttestation) (root : Root) :
    Recorded (saveAttestationRecord store ⟨pubKey, att.source, att.target, some root⟩)
      pubKey ⟨att.source, att.target, root⟩ := by
  constructor
  · refine ⟨overrideLowest (store.lowestSignedSource pubKey) att.source, ?_, .inl ?_⟩
    · simp [saveAttestationRecord]
    · rw [attestedTargets_save]
      simp
  · refine ⟨overrideLowest (store.lowestSignedTarget pubKey) att.target, ?_, .inl ?_, .inl ?_⟩
    · simp [saveAttestationRecord]
    · rw [attestedSources_save]
      simp
    · rw [storedSigningRoot_save]
      simp

theorem Protects.save (hacc : Accepted store pubKey root att) :
    Protects (saveAttestationRecord store ⟨pubKey, att.source, att.target, some root⟩)
      pubKey (votes ++ [⟨att.source, att.target, root⟩]) where
  sourceBucket := by simp [saveAttestationRecord]
  stored_not_below := by
    intro target hstored
    refine ⟨overrideLowest (store.lowestSignedTarget pubKey) att.target, ?_, ?_⟩
    · simp [saveAttestationRecord]
    · rw [storedSigningRoot_save] at hstored
      by_cases hsame : att.target = target
      · exact hsame ▸ overrideLowest_le _ _
      · simp only [hsame, if_false] at hstored
        obtain ⟨lowest, hlowest, hle⟩ := hprotects.stored_not_below target hstored
        rw [overrideLowest_eq_of_le hlowest (hprotects.lowest_le_target hacc hlowest)]
        exact hle
  recorded := by
    intro vote hvote
    rcases mem_append.1 hvote with hold | hnew
    · exact (hprotects.recorded vote hold).save hprotects hacc
    · obtain rfl := mem_singleton.1 hnew
      exact recorded_saved store pubKey att root
  safe := by
    rw [pairwise_append]
    refine ⟨hprotects.safe, pairwise_singleton _ _, fun vote hvote new hnew ↦ ?_⟩
    obtain rfl := mem_singleton.1 hnew
    exact hprotects.not_slashable hacc hvote

/-- The invariant of a key only reads that key's buckets. -/
theorem Protects.congr (hbuckets : next.pubKeys pubKey = store.pubKeys pubKey)
    (hsrc : next.lowestSignedSource pubKey = store.lowestSignedSource pubKey)
    (htgt : next.lowestSignedTarget pubKey = store.lowestSignedTarget pubKey) :
    Protects next pubKey votes := by
  obtain ⟨hbucket, hbelow, hrecorded, hsafe⟩ := hprotects
  simp only [recorded_iff, attestedTargets, attestedSources, storedSigningRoot, ← hbuckets, ← hsrc,
    ← htgt] at hbucket hbelow hrecorded
  exact ⟨hbucket, hbelow, fun vote hvote ↦ (recorded_iff _ _ _).2 (hrecorded vote hvote), hsafe⟩

end

/-- What pruning is about to delete for a key is at or below the key's lowest bounds. -/
def PruneCovered (config : BeaconChainConfig) (store : Store) (pubKey : PubKey) : Prop :=
  ∀ pkBucket ∈ store.pubKeys pubKey,
    CutoffCovered config pkBucket.sourceEpochs (store.lowestSignedSource pubKey) ∧
    CutoffCovered config pkBucket.targetEpochs (store.lowestSignedTarget pubKey) ∧
    CutoffCovered config pkBucket.signingRoots (store.lowestSignedTarget pubKey)

instance (store : Store) (pubKey : PubKey) : Decidable (PruneCovered config store pubKey) :=
  inferInstanceAs (Decidable (∀ _ ∈ _, _))

/-- A covered pruning of one kind of bucket loses only keys at or below the bound. -/
theorem stored_prune (kind : AttestationBuckets → Option (Bucket Epoch V))
    (hkind : ∀ bkt, kind (pruneBuckets config bkt) = (kind bkt).map (pruneBucket config))
    (hcov : ∀ bkt ∈ store.pubKeys pubKey, CutoffCovered config (kind bkt) lowest)
    (hlowest : lowest = some bound) (key : Epoch) :
    (((pruneAttestations config store).pubKeys pubKey).bind fun bkt ↦
        (kind bkt).bind fun bucket ↦ bucket.get key) =
      ((store.pubKeys pubKey).bind fun bkt ↦ (kind bkt).bind fun bucket ↦ bucket.get key) ∨
    (((pruneAttestations config store).pubKeys pubKey).bind fun bkt ↦
        (kind bkt).bind fun bucket ↦ bucket.get key) = none ∧ key ≤ bound := by
  cases hbucket : store.pubKeys pubKey with
  | none => simp [pruneAttestations, hbucket]
  | some bkt =>
    simp only [pruneAttestations, hbucket, map_some, bind_some, hkind]
    exact get_prune_of_covered config (hcov bkt hbucket) hlowest key

theorem Recorded.prune (hcov : PruneCovered config store pubKey)
    (hrecorded : Recorded store pubKey vote) :
    Recorded (pruneAttestations config store) pubKey vote := by
  obtain ⟨lowestSource, hlowestSource, hsrc⟩ := hrecorded.source
  obtain ⟨lowestTarget, hlowestTarget, htgt, hroot⟩ := hrecorded.target
  have hsources := stored_prune config sourceEpochs (fun _ ↦ rfl)
    (fun bkt hbucket ↦ (hcov bkt hbucket).1) hlowestSource vote.source
  have htargets := stored_prune config targetEpochs (fun _ ↦ rfl)
    (fun bkt hbucket ↦ (hcov bkt hbucket).2.1) hlowestTarget vote.target
  have hroots := stored_prune config signingRoots (fun _ ↦ rfl)
    (fun bkt hbucket ↦ (hcov bkt hbucket).2.2) hlowestTarget vote.target
  constructor
  · refine ⟨lowestSource, hlowestSource, ?_⟩
    rcases hsources with hsame | ⟨-, hle⟩
    · unfold attestedTargets at hsrc ⊢
      exact hsame ▸ hsrc
    · exact .inr hle
  · refine ⟨lowestTarget, hlowestTarget, ?_, ?_⟩
    · rcases htargets with hsame | ⟨-, hle⟩
      · unfold attestedSources at htgt ⊢
        exact hsame ▸ htgt
      · exact .inr hle
    · rcases hroots with hsame | hgone
      · unfold storedSigningRoot at hroot ⊢
        exact hsame ▸ hroot
      · exact .inr hgone

theorem storedSigningRoot_of_prune {target : Epoch}
    (hstored : (pruneAttestations config store).storedSigningRoot pubKey target = some stored) :
    store.storedSigningRoot pubKey target = some stored := by
  obtain ⟨pruned, hpruned, hroots⟩ := bind_eq_some_iff.1 hstored
  obtain ⟨bkt, hbucket, rfl⟩ := map_eq_some_iff.1 hpruned
  obtain ⟨prunedRoots, hprunedRoots, hget⟩ := bind_eq_some_iff.1 hroots
  obtain ⟨bucket, hsigning, rfl⟩ := map_eq_some_iff.1 hprunedRoots
  have hbefore := Bucket.get_of_get_deleteWhile hget
  simp [storedSigningRoot, hbucket, hsigning, hbefore]

theorem Protects.prune (hprotects : Protects store pubKey votes)
    (hcov : PruneCovered config store pubKey) :
    Protects (pruneAttestations config store) pubKey votes where
  sourceBucket := by
    intro bkt hbucket
    obtain ⟨prev, hprev, rfl⟩ := map_eq_some_iff.1 hbucket
    simpa [pruneBuckets] using hprotects.sourceBucket prev hprev
  stored_not_below := by
    intro target hstored
    obtain ⟨stored, hvalue⟩ := ne_none_iff_exists'.1 hstored
    have hbefore := storedSigningRoot_of_prune config hvalue
    exact hprotects.stored_not_below target (by simp [hbefore])
  recorded := fun vote hvote ↦ (hprotects.recorded vote hvote).prune config hcov
  safe := hprotects.safe

/-- The calls on the attestation history, for any keys. -/
inductive AttestationCall
  | check (pubKey : PubKey) (att : IndexedAttestation) (signingRoot : Root) (canceled : Bool)
  | prune

/-- What a call did. -/
inductive AttestationEvent
  | signed (pubKey : PubKey) (vote : Vote)
  | refused (pubKey : PubKey) (err : Error)
  | pruned
deriving DecidableEq

/-- A check answers and, when it accepts, saves the record; a pruning deletes old entries. -/
def applyAttestationCall (config : BeaconChainConfig) (store : Store) :
    AttestationCall → AttestationEvent × Store
  | .check pubKey att signingRoot canceled =>
    match slashableAttestationCheck store att pubKey signingRoot canceled with
    | .ok saved => (.signed pubKey ⟨att.source, att.target, signingRoot⟩, saved)
    | .error err => (.refused pubKey err, store)
  | .prune => (.pruned, pruneAttestations config store)

/-- The votes that a key signed in a run, oldest first. -/
def signedVotes (pubKey : PubKey) (events : List AttestationEvent) : List Vote :=
  events.filterMap fun event ↦
    match event with
    | .signed key vote => if key = pubKey then some vote else none
    | _ => none

/-- Checks are always allowed; a pruning is when what it deletes is covered by the bounds. -/
def CoveredCall (config : BeaconChainConfig) (pubKey : PubKey) (store : Store) :
    AttestationCall → Prop
  | .check _ _ _ _ => True
  | .prune => PruneCovered config store pubKey

instance (store : Store) : (call : AttestationCall) →
    Decidable (CoveredCall config pubKey store call)
  | .check _ _ _ _ => inferInstanceAs (Decidable True)
  | .prune => inferInstanceAs (Decidable (PruneCovered config store pubKey))

theorem signedVotes_append (events : List AttestationEvent) (event : AttestationEvent) :
    signedVotes pubKey (events ++ [event]) =
      signedVotes pubKey events ++ signedVotes pubKey [event] :=
  filterMap_append

theorem Protects.step {events : List AttestationEvent} {event : AttestationEvent}
    (hprotects : Protects store pubKey (signedVotes pubKey events))
    (hstep : CallStep (applyAttestationCall config) (CoveredCall config pubKey)
      store event next) : Protects next pubKey (signedVotes pubKey (events ++ [event])) := by
  rw [signedVotes_append]
  obtain ⟨call, hcov, happly⟩ := hstep
  cases call with
  | prune =>
    obtain ⟨rfl, rfl⟩ := Prod.mk.inj happly
    simpa [signedVotes] using hprotects.prune config hcov
  | check key att root canceled =>
    unfold applyAttestationCall at happly
    cases hcheck : slashableAttestationCheck store att key root canceled with
    | error err =>
      simp only [hcheck] at happly
      obtain ⟨rfl, rfl⟩ := Prod.mk.inj happly
      simpa [signedVotes] using hprotects
    | ok saved =>
      simp only [hcheck] at happly
      obtain ⟨rfl, rfl⟩ := Prod.mk.inj happly
      obtain ⟨-, -, -, rfl⟩ := slashableAttestationCheck_eq_ok_iff.1 hcheck
      by_cases hkey : key = pubKey
      · subst hkey
        simpa [signedVotes] using hprotects.save (accepted_of_check hcheck)
      · have hother : pubKey ≠ key := Ne.symm hkey
        have hvotes : signedVotes pubKey
            [AttestationEvent.signed key ⟨att.source, att.target, root⟩] = [] := by
          simp [signedVotes, hkey]
        rw [hvotes, append_nil]
        apply hprotects.congr
        · simp [saveAttestationRecord, hother]
        · simp [saveAttestationRecord, hother]
        · simp [saveAttestationRecord, hother]

/-- A key never signs two slashable votes in a run whose prunings are covered: what they delete of
the key's history is at or below its lowest signed source and target. -/
theorem signedVotes_not_slashable (pubKey : PubKey) {events : List AttestationEvent} {last : Store}
    (run : Run (CallStep (applyAttestationCall config) (CoveredCall config pubKey))
      Store.empty events last) :
    (signedVotes pubKey events).Pairwise fun a b ↦ ¬ Slashable a b := by
  have hprotects : Protects last pubKey (signedVotes pubKey events) :=
    run.history_invariant (fun events store ↦ Protects store pubKey (signedVotes pubKey events))
      (protects_empty pubKey) (fun _ _ _ _ hprotects hstep ↦ hprotects.step config hstep)
  exact hprotects.safe

/-- Three votes with a pruning that deletes the first, which set both bounds. -/
def prunedFirstVote : List AttestationCall :=
  [.check 0 ⟨0, 1⟩ 1 false, .check 0 ⟨600, 601⟩ 2 false, .prune, .check 0 ⟨601, 602⟩ 3 false]

theorem signedVotes_not_slashable_prunedFirstVote :
    signedVotes 0 (execute (applyAttestationCall mainnetConfig) Store.empty prunedFirstVote).1 =
        [⟨0, 1, 1⟩, ⟨600, 601, 2⟩, ⟨601, 602, 3⟩] ∧
      (signedVotes 0 (execute (applyAttestationCall mainnetConfig) Store.empty
        prunedFirstVote).1).Pairwise fun a b ↦ ¬ Slashable a b :=
  ⟨by decide +kernel, signedVotes_not_slashable mainnetConfig 0
    (run_execute (applyAttestationCall mainnetConfig) (CoveredCall mainnetConfig 0) empty
      prunedFirstVote (by decide +kernel))⟩

/-- A target above the lowest bound is pruned, and a second root is signed for it. -/
theorem signedVotes_double_vote_after_prune :
    ∃ events last, Run (CallStep (applyAttestationCall mainnetConfig) (fun _ _ ↦ True))
      Store.empty events last ∧
      ¬ (signedVotes 0 events).Pairwise fun a b ↦ ¬ Slashable a b := by
  refine ⟨_, _, run_execute (applyAttestationCall mainnetConfig) (fun _ _ ↦ True)
    empty [.check 0 ⟨0, 1⟩ 1 false, .check 0 ⟨1, 2⟩ 2 false, .check 0 ⟨600, 601⟩ 3 false,
      .prune, .check 0 ⟨1, 2⟩ 4 false] (by decide +kernel), ?_⟩
  decide +kernel

end Prysm.Validator

