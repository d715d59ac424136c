import Prysm.Validator.AttesterProtection
import Prysm.Validator.ProposerProtection
import Prysm.Validator.Interchange
import Prysm.Library.Action

/-!
# The minimal slashing protection database

The functions of `validator/db/filesystem` that record attestations and proposals.  The database has
a file for each public key, which holds three numbers: the slot of the latest block, and the source
and the target of the last attestation.  Reading and writing a file are taken as lossless.

An attestation that lacks its source or its target is `none`.  A save that fails leaves the files as
they were, while an import that fails keeps what it has written.
-/

namespace Prysm.Validator.Filesystem

open Prysm.Library

/-- The content of the file of a public key. -/
structure ValidatorSlashingProtection where
  latestSignedBlockSlot : Option Slot
  lastSignedAttestationSourceEpoch : Epoch
  lastSignedAttestationTargetEpoch : Option Epoch
deriving DecidableEq, Repr

structure Store where
  genesisValidatorsRoot : Option Root
  validatorSlashingProtection : PubKey → Option ValidatorSlashingProtection

/-- A database directory without files. -/
def Store.empty : Store where
  genesisValidatorsRoot := none
  validatorSlashingProtection := fun _ ↦ none

variable (store : Store)

def Store.saveValidatorSlashingProtection (pubKey : PubKey) (record : ValidatorSlashingProtection) :
    Store :=
  { store with
    validatorSlashingProtection :=
      Function.update store.validatorSlashingProtection pubKey (some record) }

/-- `strings.Contains` on the text of an error. -/
def mentions (text : String) : Error → Bool
  | .errorf format _ => decide (text.toList <:+: format.toList)
  | .wrapf err format _ => mentions text err || decide (text.toList <:+: format.toList)
  | .canceled => false

def missingEpochMessage : String :=
  "incoming attestation does not contain source and/or target epoch"

def lowerSourceMessage : String :=
  "could not sign attestation with source lower than recorded source epoch, %d < %d"

def lowerTargetMessage : String :=
  "could not sign attestation with target lower than or equal to recorded target epoch, %d <= %d"

/-- The refusals of `SaveAttestationForPubKey` for a key that has a file. -/
def attestationError (saved : ValidatorSlashingProtection) (att : IndexedAttestation) :
    Option Error :=
  if att.source < saved.lastSignedAttestationSourceEpoch then
    some (.errorf lowerSourceMessage
      [.number att.source, .number saved.lastSignedAttestationSourceEpoch])
  else
    match saved.lastSignedAttestationTargetEpoch with
    | none => none
    | some savedTarget =>
      if att.target ≤ savedTarget then
        some (.errorf lowerTargetMessage [.number att.target, .number savedTarget])
      else none

def saveAttestationForPubKey (pubKey : PubKey) (att : Option IndexedAttestation) :
    Except Error Store :=
  match att with
  | none => .error (.errorf missingEpochMessage [])
  | some att =>
    match store.validatorSlashingProtection pubKey with
    | none => .ok (store.saveValidatorSlashingProtection pubKey ⟨none, att.source, some att.target⟩)
    | some saved =>
      match attestationError saved att with
      | some err => .error err
      | none => .ok (store.saveValidatorSlashingProtection pubKey { saved with
          lastSignedAttestationSourceEpoch := att.source
          lastSignedAttestationTargetEpoch := some att.target })

def maxSourceTargetEpoch (atts : List (Option IndexedAttestation)) : Except Error (Epoch × Epoch) :=
  atts.foldlM (fun maxEpochs att ↦
    match att with
    | none => .error (.errorf missingEpochMessage [])
    | some att => .ok (if att.source > maxEpochs.1 then att.source else maxEpochs.1,
        if att.target > maxEpochs.2 then att.target else maxEpochs.2)) (0, 0)

/-- The larger of the incoming and the recorded number. -/
def raise (saved incoming : ℕ) : ℕ := if saved > incoming then saved else incoming

def saveAttestationsForPubKey (pubKey : PubKey) (atts : List (Option IndexedAttestation)) :
    Except Error Store :=
  if atts = [] then .ok store
  else
    match maxSourceTargetEpoch atts with
    | .error err => .error (.wrapf err "could not get maximum source and target epoch" [])
    | .ok (maxSource, maxTarget) =>
      match store.validatorSlashingProtection pubKey with
      | none => .ok (store.saveValidatorSlashingProtection pubKey ⟨none, maxSource, some maxTarget⟩)
      | some saved => .ok (store.saveValidatorSlashingProtection pubKey { saved with
          lastSignedAttestationSourceEpoch :=
            raise saved.lastSignedAttestationSourceEpoch maxSource
          lastSignedAttestationTargetEpoch :=
            some (saved.lastSignedAttestationTargetEpoch.elim maxTarget (raise · maxTarget)) })

def slashableAttestationCheck (indexedAtt : IndexedAttestation) (pubKey : PubKey) :
    Except Error Store :=
  match saveAttestationForPubKey store pubKey (some indexedAtt) with
  | .error err =>
    if mentions "could not sign attestation" err then
      .error (.wrapf err failedAttLocalProtectionErr [])
    else .error (.wrapf err "could not save attestation history for validator public key" [])
  | .ok saved => .ok saved

def lowerSlotMessage : String :=
  "could not sign proposal with slot lower than or equal to recorded slot, %d <= %d"

def saveProposalHistoryForSlot (pubKey : PubKey) (slot : Slot) : Except Error Store :=
  match store.validatorSlashingProtection pubKey with
  | none => .ok (store.saveValidatorSlashingProtection pubKey ⟨some slot, 0, none⟩)
  | some saved =>
    match saved.latestSignedBlockSlot with
    | none =>
      .ok (store.saveValidatorSlashingProtection pubKey { saved with
        latestSignedBlockSlot := some slot })
    | some latest =>
      if slot ≤ latest then .error (.errorf lowerSlotMessage [.number slot, .number latest])
      else .ok (store.saveValidatorSlashingProtection pubKey { saved with
        latestSignedBlockSlot := some slot })

def slashableProposalCheck (pubKey : PubKey) (slot : Slot) : Except Error Store :=
  match saveProposalHistoryForSlot store pubKey slot with
  | .error err =>
    if mentions "could not sign proposal" err then .error (.wrapf err failedBlockSignLocalErr [])
    else .error (.wrapf err "failed to save updated proposal history" [])
  | .ok saved => .ok saved

/-- A save as an action: an error that mentions the text is passed over. -/
def saveUnless (text : String) (save : Store → Except Error Store) : Action Store Fault Unit :=
  fun store ↦
    match save store with
    | .ok saved => (.ok (), saved)
    | .error err => (if mentions text err then .ok () else .error (.error err), store)

/-- An error as a fault. -/
def fault {α : Type} (result : Except Error α) : Except Fault α := result.mapError .error

/-- The decoder of the library `hexutil`, of which nothing is assumed. -/
class Hexutil where
  decode : String → Except Error (List ℕ)

variable [Hexutil]

/-- The conversion of the key of an item to an array, which panics if there are too few bytes and
drops what is beyond the 48th. -/
def itemPubKey (item : ProtectionData) : Except Fault PubKey :=
  match Hexutil.decode item.pubkey with
  | .error err => .error (.error (.wrapf err "could not decode public key from hex" []))
  | .ok bytes =>
    if bytes.length < 48 then .error .panic
    else .ok (Fin.ofNat _ (Numeral.ofDigits 256 (bytes.take 48)))

/-- `importBlockProposals`.  A null block ends the loop. -/
def importBlockProposals (pubKey : PubKey) : List (Option SignedBlock) → Action Store Fault Unit
  | [] => pure ()
  | none :: _ => pure ()
  | some sb :: signedBlocks => do
    let slot ← Action.ofExcept
      (wrapf (fault (slotFromString sb.slot)) "could not convert slot to primitives.Slot" [])
    Action.mapOutcome (wrapf · "could not save proposal history from imported JSON to database" [])
      (saveUnless "could not sign proposal" fun store ↦
        saveProposalHistoryForSlot store pubKey slot)
    importBlockProposals pubKey signedBlocks

/-- The epochs of a signed attestation.  A null attestation panics. -/
def attestationOf : Option SignedAttestation → Except Fault IndexedAttestation
  | none => .error .panic
  | some sa => do
    let source ← wrapf (fault (epochFromString sa.sourceEpoch))
      "could not convert source epoch to primitives.Epoch" []
    let target ← wrapf (fault (epochFromString sa.targetEpoch))
      "could not convert target epoch to primitives.Epoch" []
    pure ⟨source, target⟩

def importAttestations (pubKey : PubKey) (signedAttestations : List (Option SignedAttestation)) :
    Action Store Fault Unit := do
  let atts ← Action.ofExcept (signedAttestations.mapM attestationOf)
  Action.mapOutcome (wrapf · "could not save attestation record from imported JSON to database" [])
    (saveUnless "could not sign attestation" fun store ↦
      saveAttestationsForPubKey store pubKey (atts.map some))

/-- The loop body of `ImportStandardProtectionJSON`. -/
def importItem (item : ProtectionData) : Action Store Fault Unit := do
  let pubKey ← Action.ofExcept (itemPubKey item)
  Action.mapOutcome (wrapf · "could not import block proposals" [])
    (importBlockProposals pubKey item.signedBlocks)
  Action.mapOutcome (wrapf · "could not import attestations" [])
    (importAttestations pubKey item.signedAttestations)

/-- The items of `ImportStandardProtectionJSON`; null items are skipped. -/
def importItems (data : List (Option ProtectionData)) : Action Store Fault Unit :=
  data.reduceOption.forM importItem

/-- `ImportStandardProtectionJSON`, of a text that is not JSON of the format if it is `none`. -/
def importStandardProtectionJSON (interchangeJSON : Option EIPSlashingProtectionFormat) :
    Action Store Fault Unit := do
  match interchangeJSON with
  | none => throw (.error (.errorf "could not unmarshal slashing protection JSON file" []))
  | some interchangeJSON =>
    match interchangeJSON.data with
    | none => pure ()
    | some data =>
      let store ← get
      let gvr ← Action.ofExcept (wrapf
        (fault (validateMetadata store.genesisValidatorsRoot interchangeJSON))
        "slashing protection JSON metadata was incorrect" [])
      modify fun store ↦ { store with genesisValidatorsRoot := some gvr }
      importItems data

end Prysm.Validator.Filesystem
