import Prysm.Primitives
import Prysm.Library.Numeral

/-!
# The slashing protection interchange format

The types of `slashing-protection-history/format` and the conversions of `validator/helpers` between
their strings and numbers, keys and roots.  A null entry of a JSON list is `none`, and so is a
missing `data` list.  The JSON text itself is not modelled: encoding a value and decoding it is the
identity.
-/

namespace Prysm.Validator

open Prysm.Library

/-- A signed attestation of the interchange format.  A missing signing root is the empty string. -/
structure SignedAttestation where
  sourceEpoch : String
  targetEpoch : String
  signingRoot : String
deriving DecidableEq, Repr

structure SignedBlock where
  slot : String
  signingRoot : String
deriving DecidableEq, Repr

/-- What the interchange format holds for one public key. -/
structure ProtectionData where
  pubkey : String
  signedBlocks : List (Option SignedBlock)
  signedAttestations : List (Option SignedAttestation)
deriving DecidableEq, Repr

structure EIPSlashingProtectionFormat where
  interchangeFormatVersion : String
  genesisValidatorsRoot : String
  data : Option (List (Option ProtectionData))
deriving DecidableEq, Repr

/-- `format.InterchangeFormatVersion`. -/
def interchangeFormatVersion : String := "5"

variable (str : String)

def uint64FromString : Except Error ℕ :=
  match Numeral.parseDecimal str with
  | none => .error (.errorf "strconv.ParseUint: parsing %q: invalid syntax" [.text str])
  | some value =>
    if value < 2 ^ 64 then .ok value
    else .error (.errorf "strconv.ParseUint: parsing %q: value out of range" [.text str])

def epochFromString : Except Error Epoch := uint64FromString str

def slotFromString : Except Error Slot := uint64FromString str

/-- `%#x` of the big-endian bytes of a number. -/
def hexString (width n : ℕ) : String :=
  String.ofList ('0' :: 'x' :: Numeral.encodeHex (Numeral.fixedDigits 256 width n))

/-- `strings.TrimPrefix(str, "0x")`. -/
def trimHexPrefix : List Char → List Char
  | '0' :: 'x' :: rest => rest
  | chars => chars

/-- The errors of `encoding/hex`. -/
def hexError : Numeral.HexError → Error
  | .invalidByte c => .errorf "encoding/hex: invalid byte: %#U" [.text (String.singleton c)]
  | .oddLength => .errorf "encoding/hex: odd length hex string" []

/-- `hex.DecodeString` of a string with or without the `0x` in front. -/
def decodeString : Except Error (List ℕ) :=
  match Numeral.decodeHex (trimHexPrefix str.toList) with
  | .error err => .error (hexError err)
  | .ok bytes => .ok bytes

def rootFromHex : Except Error Root :=
  match decodeString str with
  | .error err => .error err
  | .ok bytes =>
    if bytes.length ≠ 32 then
      .error (.errorf "wrong root length, 32-byte length: %s" [.text str])
    else .ok (Fin.ofNat _ (Numeral.ofDigits 256 bytes))

def unsupportedVersionMessage : String :=
  "slashing protection JSON version '%s' is not supported, wanted '%s'"

def genesisMismatchMessage : String :=
  "genesis validators root doesn't match the one that is stored in slashing protection db. " ++
    "Please make sure you import the protection data that is relevant to the chain you are on"

/-- `ValidateMetadata`: the genesis validators root that the database has afterwards. -/
def validateMetadata (dbGvr : Option Root) (interchangeJSON : EIPSlashingProtectionFormat) :
    Except Error Root :=
  if interchangeJSON.interchangeFormatVersion ≠ interchangeFormatVersion then
    .error (.errorf unsupportedVersionMessage
      [.text interchangeJSON.interchangeFormatVersion, .text interchangeFormatVersion])
  else
    match rootFromHex interchangeJSON.genesisValidatorsRoot with
    | .error err => .error (.wrapf err "%#x is not a valid root"
        [.text interchangeJSON.genesisValidatorsRoot])
    | .ok gvr =>
      match dbGvr with
      | none => .ok gvr
      | some stored =>
        if stored ≠ gvr then .error (.errorf genesisMismatchMessage []) else .ok stored

end Prysm.Validator
