import Prysm.Slasher.Detection

/-!
# Attestation records

The model of the attestation buckets of the slasher database, of the check for double votes, and of
`checkSlashableAttestations` as a whole.  One bucket maps target epoch and validator index to the
data root of an attestation, the other maps the data root to the attestation.  Encoding and decoding
of the records, the transactions and the metrics are left out.
-/

namespace Prysm.Slasher

open Prysm.Library

/-- The attestation buckets of the database: `attestationDataRootsBucket` and
`attestationRecordsBucket`. -/
structure Database where
  dataRoots : Bucket ℕ Root
  records : Root → Option IndexedAttestationWrapper

def Database.new : Database where
  dataRoots := Bucket.empty
  records := fun _ ↦ none

/-- `encodeValidatorIndex`: the low five bytes in little-endian order, read as a big-endian number
as the bucket compares them. -/
def encodeValidatorIndex (index : ValidatorIndex) : ℕ :=
  index % 256 * 2 ^ 32 + index / 2 ^ 8 % 256 * 2 ^ 24 + index / 2 ^ 16 % 256 * 2 ^ 16 +
    index / 2 ^ 24 % 256 * 2 ^ 8 + index / 2 ^ 32 % 256

/-- The key of `attestationDataRootsBucket`: the bytes of the target epoch, then those of the
validator index. -/
def dataRootKey (targetEpoch : Epoch) (validatorIndex : ValidatorIndex) : ℕ :=
  targetEpoch * 2 ^ 40 + encodeValidatorIndex validatorIndex

namespace Database

variable (db : Database)

/-- The loop body of `SaveAttestationRecordsForValidators`. -/
def saveAttestationRecord (attWrapper : IndexedAttestationWrapper) : Database where
  dataRoots := attWrapper.attestingIndices.foldl (fun dataRoots validatorIndex ↦
    dataRoots.put (dataRootKey attWrapper.target validatorIndex) attWrapper.dataRoot) db.dataRoots
  records := Function.update db.records attWrapper.dataRoot (some attWrapper)

/-- `SaveAttestationRecordsForValidators`: the attestations are saved from the last to the first, so
the first one for a validator and a target is kept. -/
def saveAttestationRecordsForValidators (attWrappers : List IndexedAttestationWrapper) : Database :=
  attWrappers.reverse.foldl saveAttestationRecord db

/-- The target epoch of a key is at most the end pruning epoch. -/
def pruned (maxEpoch : Epoch) (key : ℕ) : Bool :=
  key / 2 ^ 40 ≤ maxEpoch

/-- Deletes the record of a data root. -/
def deleteRecord (records : Root → Option IndexedAttestationWrapper) (entry : ℕ × Root) :
    Root → Option IndexedAttestationWrapper :=
  Function.update records entry.2 none

/-- `PruneAttestationsAtEpoch`: deletes the keys up to the given target epoch, with the records of
their data roots. -/
def pruneAttestationsAtEpoch (maxEpoch : Epoch) : Database where
  dataRoots := db.dataRoots.deleteWhile (pruned maxEpoch)
  records := (db.dataRoots.entries.takeWhile fun entry ↦ pruned maxEpoch entry.1).foldl
    deleteRecord db.records

end Database

/-- The attestations seen so far in a batch by validator and target, and the slashings found. -/
structure DoubleVotes where
  existing : ValidatorIndex → Epoch → Option IndexedAttestationWrapper
  slashings : List AttesterSlashing

/-- The loop body of `checkDoubleVotes` for one attestation and one of its attesting indices. -/
def doubleVoteInBatch (state : DoubleVotes) (work : IndexedAttestationWrapper × ValidatorIndex) :
    DoubleVotes :=
  match state.existing work.2 work.1.target with
  | none => { state with
      existing := Function.update state.existing work.2
        (Function.update (state.existing work.2) work.1.target (some work.1)) }
  | some existing =>
    if existing.dataRoot = work.1.dataRoot then state
    else { state with slashings := state.slashings ++ [attesterSlashing existing work.1] }

/-- The database and the service with its chunks. -/
structure Detector where
  database : Database
  service : Service

def Detector.new : Detector := ⟨Database.new, Service.new⟩

end Prysm.Slasher
