import Prysm.Slasher.Chunks

/-!
# Surround vote detection

The model of the surround vote part of `detect_attestations.go`: loading and resetting the chunks of
a validator chunk, applying the attestations of a batch to them, and saving the chunks.

Go iterates over maps in any order.  The orders that matter are arguments: the order of the
validator chunk indexes, and for each of them the order of the chunk indexes in the minimum span
pass and, independently, in the maximum span pass.  A slashing is kept together with the pass, the
validator and the incoming attestation at which it was found; the source keeps only the slashing, in
a map from its hash tree root.
-/

namespace Prysm.Slasher

open Prysm.Library

/-- The chunk buckets of the database and the service's `latestEpochUpdatedForValidator`. -/
structure Service where
  disk : ChunkKind → ℕ → Option Chunk
  latestEpochUpdatedForValidator : ValidatorIndex → Option Epoch

def Service.new : Service where
  disk := fun _ _ ↦ none
  latestEpochUpdatedForValidator := fun _ ↦ none

/-- A map from chunk index to chunk. -/
abbrev ChunkMap := Bucket ℕ Chunk

/-- One slashing that a pass of `updateSpans` found. -/
structure Detection where
  kind : ChunkKind
  validatorIndex : ValidatorIndex
  incoming : IndexedAttestationWrapper
  existing : IndexedAttestationWrapper
deriving DecidableEq, Repr

def Detection.slashing (detection : Detection) : AttesterSlashing :=
  attesterSlashing detection.existing detection.incoming

/-- The orders in which Go iterates over the maps of `checkSurroundVotes`. -/
structure IterationOrders where
  validatorChunks : List ℕ
  chunks : ℕ → ChunkKind → List ℕ

variable (params : Parameters)

variable (disk : ChunkKind → ℕ → Option Chunk)

section

variable (validatorChunkIndex : ℕ) (kind : ChunkKind)

/-- One chunk of `loadChunksFromDisk`: an empty one when the database has none. -/
def loadChunk (chunkIndex : ℕ) : Except Fault Chunk := do
  let chunkKey ← params.flatSliceID validatorChunkIndex chunkIndex
  match disk kind chunkKey with
  | some rawChunk =>
    match chunkFrom params rawChunk with
    | .error (.error err) => .error (.error (.wrapf err "could not initialize chunk" []))
    | result => result
  | none => .ok (emptyChunk params kind)

/-- The loop body of `loadChunksFromDisk`. -/
def addChunk (chunks : ChunkMap) (chunkIndex : ℕ) : Except Fault ChunkMap := do
  let chunk ← loadChunk params disk validatorChunkIndex kind chunkIndex
  return chunks.put chunkIndex chunk

def loadChunksFromDisk (chunkIndexes : List ℕ) : Except Fault ChunkMap :=
  chunkIndexes.foldlM (addChunk params disk validatorChunkIndex kind) Bucket.empty

end

variable (latest : ValidatorIndex → Option Epoch)

/-- `firstEpochToUpdate`: `none` when there is nothing to update. -/
def firstEpochToUpdate (validatorIndex : ValidatorIndex) (currentEpoch : Epoch) :
    Except Fault (Option Epoch) :=
  let latestEpochUpdated := (latest validatorIndex).getD 0
  if latestEpochUpdated + 1 ≥ 2 ^ 64 then
    .error (.error (.wrapf (.errorf "addition overflows" [])
      "could not add 1 to latest updated epoch" []))
  else
    let epochToUpdate := if (latest validatorIndex).isSome then latestEpochUpdated + 1 else 0
    if latestEpochUpdated = currentEpoch then .ok none
    else if latestEpochUpdated > currentEpoch then
      .error (.error (.errorf
        "epoch to write `%d` should not be greater than the current epoch `%d`"
        [.number epochToUpdate, .number currentEpoch]))
    else if currentEpoch - epochToUpdate ≥ params.historyLength then
      .ok (some (currentEpoch + 1 - params.historyLength))
    else .ok (some epochToUpdate)

def firstEpochMessage : String :=
  "could not get first epoch to write for validator index %d with current epoch %d"

/-- The epochs from `first` to `last`, both included. -/
def epochRange (first last : Epoch) : List Epoch :=
  List.range' first (last + 1 - first)

/-- The chunk indexes of the epochs from `first` on, added to the needed ones. -/
def insertChunkIndexes (needed : List ℕ) (first currentEpoch : Epoch) : List ℕ :=
  ((epochRange first currentEpoch).map params.chunkIndex).foldl
    (fun needed chunkIndex ↦ needed.insert chunkIndex) needed

/-- The loop body of `findNeededChunkIndexes`: the needed chunks so far, and the least first epoch
seen. -/
def findNeededChunkIndexesFor (currentEpoch : Epoch) (state : List ℕ × Option Epoch)
    (validatorIndex : ValidatorIndex) : Except Fault (List ℕ × Option Epoch) := do
  let first ← wrapf (firstEpochToUpdate params latest validatorIndex currentEpoch)
    firstEpochMessage [.number validatorIndex, .number currentEpoch]
  match first, state.2 with
  | none, _ => return state
  | some first, some minFirst =>
    if minFirst ≤ first then return state
    else return (insertChunkIndexes params state.1 first currentEpoch, some first)
  | some first, none => return (insertChunkIndexes params state.1 first currentEpoch, some first)

/-- `findNeededChunkIndexes`: the chunks of the epochs to update, for the validators in turn. -/
def findNeededChunkIndexes (validatorIndexes : List ValidatorIndex) (currentEpoch : Epoch) :
    Except Fault (List ℕ) := do
  let (needed, _) ← validatorIndexes.foldlM
    (findNeededChunkIndexesFor params latest currentEpoch) ([], none)
  return needed

variable (kind : ChunkKind)

/-- Sets the cell of one epoch to the neutral element. -/
def resetEpoch (validatorIndex : ValidatorIndex) (chunks : ChunkMap) (epochToUpdate : Epoch) :
    Except Fault ChunkMap :=
  match chunks.get (params.chunkIndex epochToUpdate) with
  | none => .error (.error (.errorf "chunk at index %d does not exist"
      [.number (params.chunkIndex epochToUpdate)]))
  | some currentChunk => do
    let updated ← setChunkRawDistance params currentChunk validatorIndex epochToUpdate
      kind.neutralElement
    return chunks.put (params.chunkIndex epochToUpdate) updated

/-- Resets the epochs since the last update of one validator. -/
def resetEpochs (kind : ChunkKind) (currentEpoch : Epoch) (chunks : ChunkMap)
    (validatorIndex : ValidatorIndex) : Except Fault ChunkMap := do
  let first ← wrapf (firstEpochToUpdate params latest validatorIndex currentEpoch)
    firstEpochMessage [.number validatorIndex, .number currentEpoch]
  match first with
  | none => return chunks
  | some first =>
    (epochRange first currentEpoch).foldlM (resetEpoch params kind validatorIndex) chunks

/-- `updatedChunkByChunkIndex`: the chunks that hold the epochs since the last update, with those
epochs reset for every validator of the validator chunk. -/
def updatedChunkByChunkIndex (service : Service) (kind : ChunkKind) (currentEpoch : Epoch)
    (validatorChunkIndex : ℕ) : Except Fault ChunkMap := do
  let validatorIndexes := params.validatorIndexesInChunk validatorChunkIndex
  let latest := service.latestEpochUpdatedForValidator
  let needed ← wrapf (findNeededChunkIndexes params latest validatorIndexes currentEpoch)
    "could not find the needed chunk indexed" []
  let chunks ← wrapf (loadChunksFromDisk params service.disk validatorChunkIndex kind needed)
    "could not load chunks from disk" []
  validatorIndexes.foldlM (resetEpochs params latest kind currentEpoch) chunks

/-- The chunk in memory, or else in the database. -/
def currentChunk (validatorChunkIndex : ℕ) (kind : ChunkKind) (chunks : ChunkMap) (chunkIndex : ℕ) :
    Except Fault Chunk :=
  match chunks.get chunkIndex with
  | some chunk => .ok chunk
  | none => wrapf (wrapf (loadChunk params disk validatorChunkIndex kind chunkIndex)
      "could not load chunk at index %d" [.number chunkIndex])
      "could not get chunk at index %d" [.number chunkIndex]

/-- The loop of `applyAttestationForValidator` over the chunks that an attestation covers. -/
def updateChunks (disk : ChunkKind → ℕ → Option Chunk) (kind : ChunkKind)
    (validatorChunkIndex : ℕ) (validatorIndex : ValidatorIndex) (currentEpoch targetEpoch : Epoch) :
    ℕ → Epoch → ChunkMap → Except Fault ChunkMap
  | 0, _, _ => .error .diverges
  | fuel + 1, startEpoch, chunks => do
    let chunkIndex := params.chunkIndex startEpoch
    let chunk ← currentChunk params disk validatorChunkIndex kind chunks chunkIndex
    let (updated, keepGoing) ← wrapf
      (update params kind chunkIndex currentEpoch validatorIndex startEpoch targetEpoch chunk)
      ("could not update chunk at chunk index %d for validator index %d and current epoch %d")
      [.number chunkIndex, .number validatorIndex, .number currentEpoch]
    if keepGoing then
      updateChunks disk kind validatorChunkIndex validatorIndex currentEpoch targetEpoch fuel
        (nextChunkStartEpoch params kind startEpoch) (chunks.put chunkIndex updated)
    else return chunks.put chunkIndex updated

section

variable (fuel : ℕ) (slasherDB : RecordLookup) (disk : ChunkKind → ℕ → Option Chunk)

/-- `applyAttestationForValidator`: the existing attestation of a slashing, or the updated chunks.
-/
def applyAttestationForValidator (chunks : ChunkMap) (attestation : IndexedAttestationWrapper)
    (kind : ChunkKind) (validatorChunkIndex : ℕ) (validatorIndex : ValidatorIndex)
    (currentEpoch : Epoch) : Except Fault (Option IndexedAttestationWrapper × ChunkMap) := do
  let chunk ← currentChunk params disk validatorChunkIndex kind chunks
    (params.chunkIndex attestation.source)
  let slashing ← wrapf (checkSlashable params kind slasherDB chunk validatorIndex attestation)
    "could not check if attestation for validator index %d is slashable" [.number validatorIndex]
  match slashing with
  | some existing => return (some existing, chunks)
  | none =>
    match startEpoch params kind attestation.source currentEpoch with
    | none => return (none, chunks)
    | some start => do
      let updated ← updateChunks params disk kind validatorChunkIndex validatorIndex currentEpoch
        attestation.target fuel start chunks
      return (none, updated)

/-- The loop body of `updateSpans`, for one attestation and one of its attesting indices. -/
def updateSpan (kind : ChunkKind) (validatorChunkIndex : ℕ) (currentEpoch : Epoch)
    (state : List Detection × ChunkMap) (work : IndexedAttestationWrapper × ValidatorIndex) :
    Except Fault (List Detection × ChunkMap) :=
  if params.validatorChunkIndex work.2 ≠ validatorChunkIndex then .ok state
  else do
    let (slashing, chunks) ← wrapf
      (applyAttestationForValidator params fuel slasherDB disk state.2 work.1 kind
        validatorChunkIndex work.2 currentEpoch)
      "could not apply attestation for validator index %d" [.number work.2]
    match slashing with
    | none => return (state.1, chunks)
    | some existing => return (state.1 ++ [⟨kind, work.2, work.1, existing⟩], chunks)

end

variable (attestations : List IndexedAttestationWrapper)

/-- `groupByValidatorChunkIndex`: the attestations with an attesting index in the validator chunk.
-/
def attestationsOfValidatorChunk (validatorChunkIndex : ℕ) : List IndexedAttestationWrapper :=
  attestations.filter fun attestation ↦ attestation.attestingIndices.any fun validatorIndex ↦
    params.validatorChunkIndex validatorIndex = validatorChunkIndex

/-- `groupByChunkIndex`: the attestations whose source lies in the chunk. -/
def attestationsOfChunk (chunkIndex : ℕ) : List IndexedAttestationWrapper :=
  attestations.filter fun attestation ↦ params.chunkIndex attestation.source = chunkIndex

/-- The attestations with their attesting indices, in the order in which a pass visits them. -/
def passOrder (chunkOrder : List ℕ) : List (IndexedAttestationWrapper × ValidatorIndex) :=
  (chunkOrder.flatMap (attestationsOfChunk params attestations)).flatMap fun attestation ↦
    attestation.attestingIndices.map fun validatorIndex ↦ (attestation, validatorIndex)

def updateSpans (fuel : ℕ) (slasherDB : RecordLookup) (disk : ChunkKind → ℕ → Option Chunk)
    (chunks : ChunkMap) (attestations : List IndexedAttestationWrapper) (chunkOrder : List ℕ)
    (kind : ChunkKind) (validatorChunkIndex : ℕ) (currentEpoch : Epoch) :
    Except Fault (List Detection × ChunkMap) :=
  (passOrder params attestations chunkOrder).foldlM
    (updateSpan params fuel slasherDB disk kind validatorChunkIndex currentEpoch) ([], chunks)

/-- Saves one chunk under its key. -/
def saveChunk (validatorChunkIndex : ℕ) (disk : ChunkKind → ℕ → Option Chunk) (entry : ℕ × Chunk) :
    Except Fault (ChunkKind → ℕ → Option Chunk) := do
  let key ← params.flatSliceID validatorChunkIndex entry.1
  return Function.update disk kind (Function.update (disk kind) key (some entry.2))

/-- The updated chunks of one validator chunk, of both kinds. -/
structure UpdatedChunks where
  validatorChunkIndex : ℕ
  minChunks : ChunkMap
  maxChunks : ChunkMap

def UpdatedChunks.ofKind (updated : UpdatedChunks) : ChunkKind → ChunkMap
  | .minSpan => updated.minChunks
  | .maxSpan => updated.maxChunks

/-- The inner loop of `saveChunksToDisk`. -/
def saveUpdatedChunks (disk : ChunkKind → ℕ → Option Chunk) (updated : UpdatedChunks) :
    Except Fault (ChunkKind → ℕ → Option Chunk) :=
  (updated.ofKind kind).entries.foldlM
    (saveChunk params kind updated.validatorChunkIndex) disk

def saveChunksToDisk (disk : ChunkKind → ℕ → Option Chunk) (memoized : List UpdatedChunks) :
    Except Fault (ChunkKind → ℕ → Option Chunk) :=
  memoized.foldlM (saveUpdatedChunks params kind) disk

/-- The two calls of `saveChunksToDisk`, for the minimum and the maximum spans. -/
def saveBothKinds (memoized : List UpdatedChunks) :
    Except Fault (ChunkKind → ℕ → Option Chunk) := do
  let disk ← wrapf (saveChunksToDisk params .minSpan disk memoized)
    "could not save updated min chunks to disk" []
  wrapf (saveChunksToDisk params .maxSpan disk memoized)
    "could not save updated max chunks to disk" []

def maxChunkBeforeFlush : ℕ := 25600

/-- What `checkSurroundVotes` keeps while it goes over the validator chunks. -/
structure Progress where
  service : Service
  detections : List Detection
  memoized : List UpdatedChunks
  chunksCounts : ℕ

/-- The loop body of `checkSurroundVotes` for one validator chunk. -/
def checkValidatorChunk (fuel : ℕ) (slasherDB : RecordLookup)
    (attestations : List IndexedAttestationWrapper) (currentEpoch : Epoch)
    (orders : IterationOrders) (progress : Progress) (validatorChunkIndex : ℕ) :
    Except Fault Progress := do
  let service := progress.service
  let minChunks ← wrapf
    (updatedChunkByChunkIndex params service .minSpan currentEpoch validatorChunkIndex)
    "could not update updatedMinChunks" []
  let maxChunks ← wrapf
    (updatedChunkByChunkIndex params service .maxSpan currentEpoch validatorChunkIndex)
    "could not update updatedMaxChunks" []
  let chunksCounts := progress.chunksCounts + minChunks.entries.length + maxChunks.entries.length
  let group := attestationsOfValidatorChunk params attestations validatorChunkIndex
  let (surrounding, minChunks) ← wrapf (updateSpans params fuel slasherDB service.disk minChunks
      group (orders.chunks validatorChunkIndex .minSpan) .minSpan validatorChunkIndex currentEpoch)
    "could not update min attestation spans for validator chunk index %d"
    [.number validatorChunkIndex]
  let (surrounded, maxChunks) ← wrapf (updateSpans params fuel slasherDB service.disk maxChunks
      group (orders.chunks validatorChunkIndex .maxSpan) .maxSpan validatorChunkIndex currentEpoch)
    "could not update max attestation spans for validator chunk index %d"
    [.number validatorChunkIndex]
  let memoized := progress.memoized ++ [⟨validatorChunkIndex, minChunks, maxChunks⟩]
  let detections := progress.detections ++ surrounding ++ surrounded
  let latest := fun validatorIndex ↦
    if validatorIndex ∈ params.validatorIndexesInChunk validatorChunkIndex then some currentEpoch
    else service.latestEpochUpdatedForValidator validatorIndex
  if chunksCounts ≥ maxChunkBeforeFlush then
    let disk ← saveBothKinds params service.disk memoized
    return ⟨⟨disk, latest⟩, detections, [], 0⟩
  else return ⟨⟨service.disk, latest⟩, detections, memoized, chunksCounts⟩

/-- `checkSurroundVotes`: the slashings found and the state after the batch. -/
def checkSurroundVotes (fuel : ℕ) (slasherDB : RecordLookup) (service : Service)
    (attestations : List IndexedAttestationWrapper) (currentEpoch : Epoch)
    (orders : IterationOrders) : Except Fault (List Detection × Service) := do
  let progress ← orders.validatorChunks.foldlM
    (checkValidatorChunk params fuel slasherDB attestations currentEpoch orders)
    ⟨service, [], [], 0⟩
  let disk ← saveBothKinds params progress.service.disk progress.memoized
  return (progress.detections, { progress.service with disk := disk })

/-- The orders list the keys of the maps that Go builds for the batch, each key once. -/
structure IterationOrders.Valid (orders : IterationOrders)
    (attestations : List IndexedAttestationWrapper) : Prop where
  validatorChunks_nodup : orders.validatorChunks.Nodup
  mem_validatorChunks : ∀ validatorChunkIndex, validatorChunkIndex ∈ orders.validatorChunks ↔
    attestationsOfValidatorChunk params attestations validatorChunkIndex ≠ []
  chunks_nodup : ∀ validatorChunkIndex kind, (orders.chunks validatorChunkIndex kind).Nodup
  mem_chunks : ∀ validatorChunkIndex ∈ orders.validatorChunks, ∀ kind chunkIndex,
    chunkIndex ∈ orders.chunks validatorChunkIndex kind ↔
      attestationsOfChunk params
        (attestationsOfValidatorChunk params attestations validatorChunkIndex) chunkIndex ≠ []

end Prysm.Slasher
