import Prysm.Primitives
import Prysm.Library.Bucket

/-!
# Span chunks of the slasher

The model of `params.go` and `chunks.go`.  The minimum and maximum spans of a validator are kept in
a circular buffer of `historyLength` epochs, cut into chunks; one chunk holds the cells of
`validatorChunkSize` validators.  A cell holds the distance from its epoch to a target epoch.  The
loops of the source that have no evident bound take fuel, and running out of it is a fault.
-/

namespace Prysm.Slasher

open Prysm.Library

/-- `Parameters`.  A zero size makes the index computations panic; the other bounds say that a chunk
fits in a slice and that the epochs of one buffer fit in a `uint64`. -/
structure Parameters where
  chunkSize : ℕ
  validatorChunkSize : ℕ
  historyLength : Epoch
  chunkSize_pos : 0 < chunkSize
  validatorChunkSize_pos : 0 < validatorChunkSize
  historyLength_pos : 0 < historyLength
  cells_lt : chunkSize * validatorChunkSize < 2 ^ 48
  epochs_lt : historyLength + chunkSize < 2 ^ 64

namespace Parameters

variable (params : Parameters)

def chunkIndex (epoch : Epoch) : ℕ :=
  epoch % params.historyLength / params.chunkSize

variable (validatorIndex : ValidatorIndex)

def validatorChunkIndex : ℕ :=
  validatorIndex / params.validatorChunkSize

def firstEpoch (chunkIndex : ℕ) : Epoch :=
  chunkIndex * params.chunkSize

def lastEpoch (chunkIndex : ℕ) : Epoch :=
  params.firstEpoch chunkIndex + (params.chunkSize - 1)

def chunkOffset (epoch : Epoch) : ℕ :=
  epoch % params.chunkSize

def validatorOffset : ℕ :=
  validatorIndex % params.validatorChunkSize

def cellIndex (epoch : Epoch) : ℕ :=
  params.validatorOffset validatorIndex * params.chunkSize + params.chunkOffset epoch

/-- `flatSliceID`: the products and sums of `Epoch` panic on overflow. -/
def flatSliceID (validatorChunkIndex chunkIndex : ℕ) : Except Fault ℕ :=
  let width := params.historyLength / params.chunkSize
  if width * validatorChunkIndex + chunkIndex < 2 ^ 64 then
    .ok (width * validatorChunkIndex + chunkIndex)
  else .error .panic

def validatorIndexesInChunk (validatorChunkIndex : ℕ) : List ValidatorIndex :=
  List.range' (validatorChunkIndex * params.validatorChunkSize) params.validatorChunkSize

end Parameters

/-- Chunks of two epochs, three of them in the history. -/
def smallParams : Parameters where
  chunkSize := 2
  validatorChunkSize := 1
  historyLength := 6
  chunkSize_pos := by decide
  validatorChunkSize_pos := by decide
  historyLength_pos := by decide
  cells_lt := by decide
  epochs_lt := by decide

/-- An indexed attestation with its data root.  Of the attestation data only the epochs are read. -/
structure IndexedAttestationWrapper where
  attestingIndices : List ValidatorIndex
  source : Epoch
  target : Epoch
  dataRoot : Root
deriving DecidableEq, Repr

/-- An attester slashing, with the attestation of the lower data root first. -/
structure AttesterSlashing where
  attestation1 : IndexedAttestationWrapper
  attestation2 : IndexedAttestationWrapper
deriving DecidableEq, Repr

def attesterSlashing (existing incoming : IndexedAttestationWrapper) : AttesterSlashing :=
  if existing.dataRoot > incoming.dataRoot then ⟨incoming, existing⟩ else ⟨existing, incoming⟩

inductive ChunkKind
  | minSpan
  | maxSpan
deriving DecidableEq, Repr

/-- The data of a `MinSpanChunksSlice` or `MaxSpanChunksSlice`: a flat slice of `uint16`. -/
abbrev Chunk := List ℕ

/-- `AttestationRecordForValidator`. -/
abbrev RecordLookup := ValidatorIndex → Epoch → Option IndexedAttestationWrapper

def ChunkKind.neutralElement : ChunkKind → ℕ
  | .minSpan => 2 ^ 16 - 1
  | .maxSpan => 0

variable (params : Parameters) (kind : ChunkKind)

/-- `EmptyMinSpanChunksSlice` and `EmptyMaxSpanChunksSlice`. -/
def emptyChunk : Chunk :=
  List.replicate (params.chunkSize * params.validatorChunkSize) kind.neutralElement

variable (chunk : Chunk)

def wrongLength : Error :=
  .errorf "chunk has wrong length, %d, expected %d"
    [.number chunk.length, .number (params.chunkSize * params.validatorChunkSize)]

def outOfBounds (cellIdx : ℕ) (chunk : Chunk) : Error :=
  .errorf "cell index %d out of bounds (len(chunk) = %d)" [.number cellIdx, .number chunk.length]

/-- `MinChunkSpansSliceFrom` and `MaxChunkSpansSliceFrom`. -/
def chunkFrom : Except Fault Chunk :=
  if chunk.length ≠ params.chunkSize * params.validatorChunkSize then
    .error (.error (wrongLength params chunk))
  else .ok chunk

/-- `Epoch.Add` panics on overflow. -/
def addEpoch (epoch : Epoch) (x : ℕ) : Except Fault Epoch :=
  if epoch + x < 2 ^ 64 then .ok (epoch + x) else .error .panic

def chunkDataAtEpoch (validatorIdx : ValidatorIndex) (epoch : Epoch) : Except Fault Epoch :=
  if chunk.length ≠ params.chunkSize * params.validatorChunkSize then
    .error (.error (wrongLength params chunk))
  else
    match chunk[params.cellIndex validatorIdx epoch]? with
    | none => .error (.error (outOfBounds (params.cellIndex validatorIdx epoch) chunk))
    | some distance => addEpoch epoch distance

def setChunkRawDistance (validatorIdx : ValidatorIndex) (epochInChunk : Epoch) (distance : ℕ) :
    Except Fault Chunk :=
  if params.cellIndex validatorIdx epochInChunk ≥ chunk.length then
    .error (.error (outOfBounds (params.cellIndex validatorIdx epochInChunk) chunk))
  else .ok (chunk.set (params.cellIndex validatorIdx epochInChunk) distance)

/-- `epochDistance`: the difference is cut to a `uint16`. -/
def epochDistance (epoch baseEpoch : Epoch) : Except Fault ℕ :=
  if baseEpoch > epoch then
    .error (.error (.errorf "base epoch %d cannot be less than epoch %d"
      [.number baseEpoch, .number epoch]))
  else .ok ((epoch - baseEpoch) % 2 ^ 16)

def setChunkDataAtEpoch (validatorIdx : ValidatorIndex) (epochInChunk targetEpoch : Epoch) :
    Except Fault Chunk := do
  let distance ← epochDistance targetEpoch epochInChunk
  setChunkRawDistance params chunk validatorIdx epochInChunk distance

/-- The span target read from the chunk tells of an offence: the incoming attestation reaches over a
minimum target, or stays below a maximum target. -/
def ChunkKind.offends : ChunkKind → Epoch → Epoch → Bool
  | .minSpan, targetEpoch, minTarget => minTarget < targetEpoch
  | .maxSpan, targetEpoch, maxTarget => targetEpoch < maxTarget

/-- The existing attestation starts on the side of the incoming one that makes a surround vote. -/
def ChunkKind.confirms : ChunkKind → Epoch → Epoch → Bool
  | .minSpan, sourceEpoch, existingSource => sourceEpoch < existingSource
  | .maxSpan, sourceEpoch, existingSource => existingSource < sourceEpoch

def ChunkKind.couldNotGet : ChunkKind → String
  | .minSpan => "could not get min target for validator %d at epoch %d"
  | .maxSpan => "could not get max target for validator %d at epoch %d"

/-- `CheckSlashable`: the existing attestation of the slashing, if there is one.  A span without a
record, or with a record that does not confirm it, is not a slashing. -/
def checkSlashable (slasherDB : RecordLookup) (chunk : Chunk) (validatorIdx : ValidatorIndex)
    (incoming : IndexedAttestationWrapper) : Except Fault (Option IndexedAttestationWrapper) := do
  let spanTarget ← wrapf (chunkDataAtEpoch params chunk validatorIdx incoming.source)
    kind.couldNotGet [.number validatorIdx, .number incoming.source]
  if kind.offends incoming.target spanTarget then
    match slasherDB validatorIdx spanTarget with
    | none => return none
    | some existing =>
      if kind.confirms incoming.source existing.source then return some existing else return none
  else return none

/-- The lowest epoch that a minimum span update reaches. -/
def minEpoch (currentEpoch : Epoch) : Epoch :=
  if currentEpoch > params.historyLength - 1 then currentEpoch - (params.historyLength - 1) else 0

/-- The loop of `MinSpanChunksSlice.Update`, going down from `epochInChunk`. -/
def minUpdateLoop (chunkIndex : ℕ) (currentEpoch : Epoch) (validatorIndex : ValidatorIndex)
    (newTargetEpoch : Epoch) : ℕ → Epoch → Chunk → Except Fault (Chunk × Bool)
  | 0, _, _ => .error .diverges
  | fuel + 1, epochInChunk, chunk =>
    if params.chunkIndex epochInChunk = chunkIndex ∧
        epochInChunk ≥ minEpoch params currentEpoch then do
      let chunkTarget ← wrapf (chunkDataAtEpoch params chunk validatorIndex epochInChunk)
        "could not get chunk data at epoch %d" [.number epochInChunk]
      if newTargetEpoch < chunkTarget then
        let updated ← wrapf
          (setChunkDataAtEpoch params chunk validatorIndex epochInChunk newTargetEpoch)
          "could not set chunk data at epoch %d" [.number epochInChunk]
        minUpdateLoop chunkIndex currentEpoch validatorIndex newTargetEpoch fuel
          (epochInChunk - 1) updated
      else return (chunk, false)
    else .ok (chunk, epochInChunk ≥ minEpoch params currentEpoch)

/-- The loop of `MaxSpanChunksSlice.Update`, going up from `epochInChunk`. -/
def maxUpdateLoop (chunkIndex : ℕ) (currentEpoch : Epoch) (validatorIndex : ValidatorIndex)
    (newTargetEpoch : Epoch) : ℕ → Epoch → Chunk → Except Fault (Chunk × Bool)
  | 0, _, _ => .error .diverges
  | fuel + 1, epochInChunk, chunk =>
    if params.chunkIndex epochInChunk = chunkIndex ∧ epochInChunk ≤ currentEpoch then do
      let chunkTarget ← wrapf (chunkDataAtEpoch params chunk validatorIndex epochInChunk)
        "could not get chunk data at epoch %d" [.number epochInChunk]
      if newTargetEpoch > chunkTarget then
        let updated ← wrapf
          (setChunkDataAtEpoch params chunk validatorIndex epochInChunk newTargetEpoch)
          "could not set chunk data at epoch %d" [.number epochInChunk]
        maxUpdateLoop chunkIndex currentEpoch validatorIndex newTargetEpoch fuel
          (epochInChunk + 1) updated
      else return (chunk, false)
    else .ok (chunk, epochInChunk ≤ currentEpoch)

/-- `Update`: the updated chunk, and whether to go on with the next one.  The downward loop visits
epoch 0 at most twice, the upward loop stops above the current epoch. -/
def update (chunkIndex : ℕ) (currentEpoch : Epoch) (validatorIndex : ValidatorIndex)
    (startEpoch newTargetEpoch : Epoch) (chunk : Chunk) : Except Fault (Chunk × Bool) :=
  match kind with
  | .minSpan => minUpdateLoop params chunkIndex currentEpoch validatorIndex newTargetEpoch
      (startEpoch + 2) startEpoch chunk
  | .maxSpan => maxUpdateLoop params chunkIndex currentEpoch validatorIndex newTargetEpoch
      (currentEpoch + 1 - startEpoch + 1) startEpoch chunk

def startEpoch (sourceEpoch currentEpoch : Epoch) : Option Epoch :=
  match kind with
  | .minSpan =>
    if sourceEpoch = 0 then none
    else
      let difference :=
        if currentEpoch > params.historyLength then currentEpoch - params.historyLength else 0
      if sourceEpoch ≤ difference then none else some (sourceEpoch - 1)
  | .maxSpan => if sourceEpoch ≥ currentEpoch then none else some (sourceEpoch + 1)

def nextChunkStartEpoch (startEpoch : Epoch) : Epoch :=
  match kind with
  | .minSpan => params.lastEpoch (params.chunkIndex startEpoch - 1)
  | .maxSpan => params.firstEpoch (params.chunkIndex startEpoch + 1)

end Prysm.Slasher
