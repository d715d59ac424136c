import Prysm.Validator.Store

/-!
# Attester slashing protection

The functions of `attester_protection.go` and `prune_attester_protection.go`: the check of an
attestation against the stored history of its key, the transaction that saves attestation records,
and the pruning of old records.  A check that fails leaves the store as it was.
-/

namespace Prysm.Validator

open Prysm.Library

/-- The epochs of the attestation data that the checks read. -/
structure IndexedAttestation where
  source : Epoch
  target : Epoch
deriving DecidableEq, Repr

/-- `common.AttestationRecord`. -/
structure AttestationRecord where
  pubKey : PubKey
  source : Epoch
  target : Epoch
  signingRoot : Option Root
deriving DecidableEq, Repr

inductive SlashingKind
  | notSlashable
  | doubleVote
  | surroundingVote
  | surroundedVote
deriving DecidableEq, Repr

/-- `slashings.IsSurround`: the first attestation surrounds the second. -/
def isSurround (a b : IndexedAttestation) : Bool :=
  a.source < b.source && b.target < a.target

/-- `slashings.SigningRootsDiffer`: an empty existing root always differs. -/
def signingRootsDiffer (existingSigningRoot : Option Root) (incomingSigningRoot : Root) : Bool :=
  match existingSigningRoot with
  | none => true
  | some existing => existing != incomingSigningRoot

def doubleVoteMessage : String :=
  "double vote found, existing attestation at target epoch %d with conflicting signing root %#x"

def surroundingVoteMessage : String :=
  "attestation with (source %d, target %d) surrounds another with (source %d, target %d)"

def surroundedVoteMessage : String :=
  "attestation with (source %d, target %d) is surrounded by another with (source %d, target %d)"

def failedAttLocalProtectionErr : String :=
  "attempted to make slashable attestation, rejected by local slashing protection"

def lowestSourceMessage : String :=
  "could not sign attestation lower than lowest source epoch in db, %d < %d"

def lowestTargetMessage : String :=
  "could not sign attestation lower than or equal to lowest target epoch in db if signing roots " ++
    "differ, %d <= %d"

variable (store : Store)

/-- The value of the signing roots bucket at a target epoch. -/
def Store.storedSigningRoot (pubKey : PubKey) (target : Epoch) : Option (Option Root) :=
  (store.pubKeys pubKey).bind fun pkBucket ↦
    pkBucket.signingRoots.bind fun bucket ↦ bucket.get target

/-- `SigningRootAtTargetEpoch`: a missing and an empty signing root are both returned empty. -/
def Store.signingRootAtTargetEpoch (pubKey : PubKey) (target : Epoch) : Option Root :=
  (store.storedSigningRoot pubKey target).join

/-- The target epochs recorded for a source epoch. -/
def Store.attestedTargets (pubKey : PubKey) (source : Epoch) : List Epoch :=
  ((store.pubKeys pubKey).bind fun pkBucket ↦
    pkBucket.sourceEpochs.bind fun bucket ↦ bucket.get source).getD []

/-- The source epochs recorded for a target epoch. -/
def Store.attestedSources (pubKey : PubKey) (target : Epoch) : List Epoch :=
  ((store.pubKeys pubKey).bind fun pkBucket ↦
    pkBucket.targetEpochs.bind fun bucket ↦ bucket.get target).getD []

/-- `checkSurroundedVote`: goes back over the target epochs above the attestation's own. -/
def checkSurroundedVote (targetEpochsBucket : Bucket Epoch (List Epoch))
    (att : IndexedAttestation) : SlashingKind × Option Error :=
  match targetEpochsBucket.findFromLast att.target fun existingTarget attestedSourceEpochs ↦
    (attestedSourceEpochs.find? fun existingSource ↦
      isSurround ⟨existingSource, existingTarget⟩ att).map fun existingSource ↦
        (existingSource, existingTarget) with
  | some (existingSource, existingTarget) =>
    (.surroundedVote, some (.errorf surroundedVoteMessage
      [.number att.source, .number att.target, .number existingSource, .number existingTarget]))
  | none => (.notSlashable, none)

/-- `checkSurroundingVote`: goes back over the source epochs above the attestation's own. -/
def checkSurroundingVote (sourceEpochsBucket : Bucket Epoch (List Epoch))
    (att : IndexedAttestation) : SlashingKind × Option Error :=
  match sourceEpochsBucket.findFromLast att.source fun existingSource attestedTargetEpochs ↦
    (attestedTargetEpochs.find? fun existingTarget ↦
      isSurround att ⟨existingSource, existingTarget⟩).map fun existingTarget ↦
        (existingSource, existingTarget) with
  | some (existingSource, existingTarget) =>
    (.surroundingVote, some (.errorf surroundingVoteMessage
      [.number att.source, .number att.target, .number existingSource, .number existingTarget]))
  | none => (.notSlashable, none)

/-- The double vote check inside `CheckSlashableAttestation`. -/
def checkDoubleVote (signingRootsBucket : Option (Bucket Epoch (Option Root)))
    (signingRoot : Root) (att : IndexedAttestation) : Option Error :=
  match signingRootsBucket.bind fun bucket ↦ bucket.get att.target with
  | none => none
  | some existingSigningRoot =>
    if signingRootsDiffer existingSigningRoot signingRoot then
      some (.errorf doubleVoteMessage [.number att.target, .bytes existingSigningRoot])
    else none

/-- `CheckSlashableAttestation`.  `canceled` is the state of the call's context. -/
def checkSlashableAttestation (pubKey : PubKey) (signingRoot : Root) (att : IndexedAttestation)
    (canceled : Bool) : SlashingKind × Option Error :=
  if canceled then (.notSlashable, some .canceled)
  else
    match store.pubKeys pubKey with
    | none => (.notSlashable, none)
    | some pkBucket =>
      match checkDoubleVote pkBucket.signingRoots signingRoot att with
      | some err => (.doubleVote, some err)
      | none =>
        match pkBucket.sourceEpochs with
        | none => (.notSlashable, none)
        | some sourceEpochsBucket =>
          match checkSurroundingVote sourceEpochsBucket att with
          | (slashKind, some err) => (slashKind, some err)
          | (slashKind, none) =>
            match pkBucket.targetEpochs with
            | none => (slashKind, none)
            | some targetEpochsBucket => checkSurroundedVote targetEpochsBucket att

/-- The refusal of a source below the lowest signed source. -/
def lowestSourceError (pubKey : PubKey) (att : IndexedAttestation) : Option Error :=
  match store.lowestSignedSource pubKey with
  | none => none
  | some lowestSource =>
    if att.source < lowestSource then
      some (.errorf lowestSourceMessage [.number att.source, .number lowestSource])
    else none

/-- The refusal of a target at or below the lowest signed target, unless the stored signing root
is the same. -/
def lowestTargetError (pubKey : PubKey) (signingRoot : Root) (att : IndexedAttestation) :
    Option Error :=
  match store.lowestSignedTarget pubKey with
  | none => none
  | some lowestTarget =>
    if signingRootsDiffer (store.signingRootAtTargetEpoch pubKey att.target) signingRoot ∧
        att.target ≤ lowestTarget then
      some (.errorf lowestTargetMessage [.number att.target, .number lowestTarget])
    else none

/-- Appends an epoch to the list stored under a key, or starts the list. -/
def appendEpoch (bucket : Bucket Epoch (List Epoch)) (key value : Epoch) :
    Bucket Epoch (List Epoch) :=
  match bucket.get key with
  | some existing => bucket.put key (existing ++ [value])
  | none => bucket.put key [value]

/-- The loop body of `saveAttestationRecords`. -/
def saveAttestationRecord (att : AttestationRecord) : Store :=
  let pkBucket := (store.pubKeys att.pubKey).getD ⟨none, none, none⟩
  { store with
    pubKeys := Function.update store.pubKeys att.pubKey (some {
      signingRoots :=
        some ((createBucketIfNotExists pkBucket.signingRoots).put att.target att.signingRoot)
      sourceEpochs :=
        some (appendEpoch (createBucketIfNotExists pkBucket.sourceEpochs) att.source att.target)
      targetEpochs :=
        some (appendEpoch (createBucketIfNotExists pkBucket.targetEpochs) att.target att.source) })
    lowestSignedSource := Function.update store.lowestSignedSource att.pubKey
      (some (overrideLowest (store.lowestSignedSource att.pubKey) att.source))
    lowestSignedTarget := Function.update store.lowestSignedTarget att.pubKey
      (some (overrideLowest (store.lowestSignedTarget att.pubKey) att.target)) }

/-- `saveAttestationRecords`: all records in one transaction. -/
def saveAttestationRecords (atts : List AttestationRecord) : Store :=
  atts.foldl saveAttestationRecord store

/-- `SlashableAttestationCheck`, with the accepted record flushed before the call returns. -/
def slashableAttestationCheck (indexedAtt : IndexedAttestation) (pubKey : PubKey)
    (signingRoot : Root) (canceled : Bool) : Except Error Store :=
  match lowestSourceError store pubKey indexedAtt with
  | some err => .error err
  | none =>
    match lowestTargetError store pubKey signingRoot indexedAtt with
    | some err => .error err
    | none =>
      match (checkSlashableAttestation store pubKey signingRoot indexedAtt canceled).2 with
      | some err => .error (.wrapf err failedAttLocalProtectionErr [])
      | none => .ok (saveAttestationRecords store
          [⟨pubKey, indexedAtt.source, indexedAtt.target, some signingRoot⟩])

variable (config : BeaconChainConfig)

def pruningEpochCutoff (epoch : Epoch) : Epoch :=
  if epoch > config.slashingProtectionPruningEpochs then
    epoch - config.slashingProtectionPruningEpochs
  else 0

section

variable {V : Type*} (config : BeaconChainConfig) (bucket : Bucket Epoch V)

/-- The cutoff of one bucket, from its highest key; an empty bucket reads as epoch 0. -/
def bucketCutoff : Epoch :=
  pruningEpochCutoff config ((bucket.last.map Prod.fst).getD 0)

def pruneBucket : Bucket Epoch V :=
  bucket.deleteWhile fun targetEpoch ↦ targetEpoch < bucketCutoff config bucket

end

/-- The transaction of `PruneAttestations` on the buckets of one key. -/
def pruneBuckets (pkBucket : AttestationBuckets) : AttestationBuckets where
  sourceEpochs := pkBucket.sourceEpochs.map (pruneBucket config)
  targetEpochs := pkBucket.targetEpochs.map (pruneBucket config)
  signingRoots := pkBucket.signingRoots.map (pruneBucket config)

/-- `PruneAttestations`: every bucket of every key is pruned by its own highest key. -/
def pruneAttestations (store : Store) : Store :=
  { store with pubKeys := fun pubKey ↦ (store.pubKeys pubKey).map (pruneBuckets config) }

end Prysm.Validator
