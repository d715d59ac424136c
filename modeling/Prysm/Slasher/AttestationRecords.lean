import Prysm.Primitives

/-!
# Attestation records of the slasher

`encodeAttestationRecord` puts the data root of an attestation in front of its compressed encoding,
and the bytes of `"electra"` in front of both for an attestation from Electra on.  Nothing marks an
earlier attestation, so one whose data root begins with these bytes is taken for a later one when it
is read.  `decodeAttestationRecord` checks the length before it strips the prefix, and reads out of
bounds when less than a data root is left.
-/

namespace Prysm.SlasherKv

open List

/-- The encodings of attestations and the compression, which round-trip.  The decoder of either kind
of attestations returns attestations of that kind. -/
structure RecordCodec (Att : Type) where
  version : Att → Version
  marshalSSZ : Att → List UInt8
  unmarshalSSZ : Bool → List UInt8 → Except Error Att
  snappyEncode : List UInt8 → List UInt8
  snappyDecode : List UInt8 → Except Error (List UInt8)
  snappy_roundTrip : ∀ bytes, snappyDecode (snappyEncode bytes) = .ok bytes
  ssz_roundTrip : ∀ att,
    unmarshalSSZ (Version.electra.number ≤ (version att).number) (marshalSSZ att) = .ok att
  version_unmarshalSSZ : ∀ postElectra bytes att, unmarshalSSZ postElectra bytes = .ok att →
    decide (Version.electra.number ≤ (version att).number) = postElectra

def rootSize : ℕ := 32

/-- `kv.ElectraKey`, the bytes of `"electra"`. -/
def electraKey : List UInt8 := [101, 108, 101, 99, 116, 114, 97]

/-- `kv.HasElectraKey`. -/
def hasElectraKey (enc : List UInt8) : Bool :=
  if electraKey.length ≥ enc.length then false else enc.take electraKey.length = electraKey

@[ext]
structure IndexedAttestationWrapper (Att : Type) where
  indexedAttestation : Att
  dataRoot : List UInt8
  length_dataRoot : dataRoot.length = rootSize

variable {Att : Type} (codec : RecordCodec Att) (att : IndexedAttestationWrapper Att)
  {encoded : List UInt8}

/-- The attestation is one from Electra on. -/
def IndexedAttestationWrapper.postElectra : Bool :=
  Version.electra.number ≤ (codec.version att.indexedAttestation).number

/-- `encodeAttestationRecord` of an attestation that is not nil. -/
def encodeAttestationRecord : List UInt8 :=
  (if att.postElectra codec then electraKey else []) ++
    (att.dataRoot ++ codec.snappyEncode (codec.marshalSSZ att.indexedAttestation))

/-- `decodeAttestationRecord` after the prefix was stripped. -/
def decodeRecord (postElectra : Bool) (encoded : List UInt8) :
    Except Fault (IndexedAttestationWrapper Att) :=
  if hbounds : rootSize ≤ encoded.length then
    match codec.snappyDecode (encoded.drop rootSize) with
    | .error err => .error (.error err)
    | .ok decodedAttBytes =>
      match codec.unmarshalSSZ postElectra decodedAttBytes with
      | .error err => .error (.error err)
      | .ok decodedAtt => .ok ⟨decodedAtt, encoded.take rootSize, by simp [hbounds]⟩
  else .error .panic

def decodeAttestationRecord (encoded : List UInt8) : Except Fault (IndexedAttestationWrapper Att) :=
  if encoded.length < rootSize then
    .error (.error (.errorf "wrong length for encoded attestation record, want minimum %d, got %d"
      [.number rootSize, .number encoded.length]))
  else if hasElectraKey encoded then decodeRecord codec true (encoded.drop electraKey.length)
  else decodeRecord codec false encoded

theorem hasElectraKey_iff {enc : List UInt8} (hlen : rootSize ≤ enc.length) :
    hasElectraKey enc = true ↔ electraKey <+: enc := by
  have hshort : ¬ electraKey.length ≥ enc.length := not_le.2 (lt_of_lt_of_le (by decide) hlen)
  rw [hasElectraKey, if_neg hshort, decide_eq_true_iff, prefix_iff_eq_take, eq_comm]

theorem decodeRecord_append :
    decodeRecord codec (att.postElectra codec)
      (att.dataRoot ++ codec.snappyEncode (codec.marshalSSZ att.indexedAttestation)) = .ok att := by
  have hbounds : att.dataRoot.length ≤
      (att.dataRoot ++ codec.snappyEncode (codec.marshalSSZ att.indexedAttestation)).length := by
    simp
  have hssz := codec.ssz_roundTrip att.indexedAttestation
  simp only [decodeRecord, dif_pos hbounds, ← att.length_dataRoot, drop_left, take_left,
    codec.snappy_roundTrip, IndexedAttestationWrapper.postElectra, hssz]

variable {postElectra : Bool}

/-- The kind of the attestation that is returned is the one that was asked for. -/
theorem postElectra_of_decodeRecord {att : IndexedAttestationWrapper Att}
    (hdecode : decodeRecord codec postElectra encoded = .ok att) :
    att.postElectra codec = postElectra := by
  unfold decodeRecord at hdecode
  split at hdecode
  · split at hdecode
    · cases hdecode
    · split at hdecode
      · cases hdecode
      · next hssz =>
        obtain rfl := Except.ok.inj hdecode
        exact codec.version_unmarshalSSZ _ _ _ hssz
  · cases hdecode

theorem decodeRecord_eq_panic_iff :
    decodeRecord codec postElectra encoded = .error .panic ↔ encoded.length < rootSize := by
  unfold decodeRecord
  split
  · next hbounds =>
    refine iff_of_false (fun hpanic ↦ ?_) (not_lt.2 hbounds)
    split at hpanic
    · cases hpanic
    · split at hpanic <;> cases hpanic
  · next hbounds => exact iff_of_true rfl (not_le.1 hbounds)

/-- An attestation is read as it was written exactly if it is one from Electra on or its data root
does not begin with the prefix, and a byte string is read out of bounds exactly if it begins with
the prefix and is at least as long as a data root, but not as long as the two together. -/
theorem attestation_records_iff (encoded : List UInt8) :
    (decodeAttestationRecord codec (encodeAttestationRecord codec att) = .ok att ↔
      att.postElectra codec = true ∨ ¬ electraKey <+: att.dataRoot) ∧
    (decodeAttestationRecord codec encoded = .error .panic ↔ electraKey <+: encoded ∧
      rootSize ≤ encoded.length ∧ encoded.length < electraKey.length + rootSize) := by
  constructor
  · have hrec := decodeRecord_append codec att
    have hlong : rootSize ≤ (encodeAttestationRecord codec att).length := by
      simp only [encodeAttestationRecord, length_append, att.length_dataRoot]
      omega
    simp only [decodeAttestationRecord, if_neg (not_lt.2 hlong), hasElectraKey_iff hlong]
    cases hpost : att.postElectra codec with
    | true =>
      rw [hpost] at hrec
      simp only [encodeAttestationRecord, hpost, if_true, prefix_append, drop_left]
      exact iff_of_true hrec (.inl trivial)
    | false =>
      rw [hpost] at hrec
      have hkey : electraKey <+: att.dataRoot ++
          codec.snappyEncode (codec.marshalSSZ att.indexedAttestation) ↔
            electraKey <+: att.dataRoot :=
        ⟨fun hkey ↦ prefix_of_prefix_length_le hkey (prefix_append _ _)
          (att.length_dataRoot ▸ by decide), fun hkey ↦ hkey.trans (prefix_append _ _)⟩
      simp only [encodeAttestationRecord, hpost, Bool.false_eq_true, if_false, nil_append,
        hkey, false_or]
      split_ifs with hkeyed
      · -- Whatever is decoded is one from Electra on.
        refine iff_of_false (fun hdecode ↦ ?_) (not_not.2 hkeyed)
        rw [postElectra_of_decodeRecord codec hdecode] at hpost
        cases hpost
      · exact iff_of_true hrec hkeyed
  · unfold decodeAttestationRecord
    split_ifs with hshort hkeyed
    · exact iff_of_false nofun fun hcases ↦ hcases.2.1.not_gt hshort
    · rw [hasElectraKey_iff (not_lt.1 hshort)] at hkeyed
      rw [decodeRecord_eq_panic_iff, length_drop]
      have hle := hkeyed.length_le
      have hlong := not_lt.1 hshort
      constructor
      · exact fun hlt ↦ ⟨hkeyed, hlong, by omega⟩
      · rintro ⟨-, -, hlt⟩
        omega
    · rw [hasElectraKey_iff (not_lt.1 hshort)] at hkeyed
      rw [decodeRecord_eq_panic_iff]
      exact iff_of_false hshort fun hcases ↦ hkeyed hcases.1

/-- The decoder of a compression in which every byte is a literal of its own. -/
def decodeLiterals : List UInt8 → Except Error (List UInt8)
  | [] => .ok []
  | 0 :: byte :: rest => (byte :: ·) <$> decodeLiterals rest
  | _ => .error (.errorf "snappy: corrupt input" [])

theorem decodeLiterals_flatMap (bytes : List UInt8) :
    decodeLiterals (bytes.flatMap fun byte ↦ [0, byte]) = .ok bytes := by
  induction bytes with
  | nil => rfl
  | cons byte bytes ih => exact congrArg (Functor.map (byte :: ·)) ih

/-- Attestations with their kind and attesting indices, which are encoded after their offset. -/
def indicesCodec : RecordCodec (Bool × List UInt8) where
  version att := if att.1 then .electra else .deneb
  marshalSSZ att := [4, 0, 0, 0] ++ att.2
  unmarshalSSZ
    | postElectra, 4 :: 0 :: 0 :: 0 :: indices => .ok (postElectra, indices)
    | _, _ => .error (.errorf "incorrect offset" [])
  snappyEncode bytes := bytes.flatMap fun byte ↦ [0, byte]
  snappyDecode := decodeLiterals
  snappy_roundTrip := decodeLiterals_flatMap
  ssz_roundTrip
    | (true, _) => rfl
    | (false, _) => rfl
  version_unmarshalSSZ postElectra bytes att hok := by
    split at hok
    · obtain rfl := Except.ok.inj hok
      cases postElectra <;> rfl
    · cases hok

/-- The record of an attestation before Electra whose data root begins with the prefix is not read,
and 32 bytes that begin with the prefix are read out of bounds. -/
theorem attestation_record_fails :
    decodeAttestationRecord indicesCodec (encodeAttestationRecord indicesCodec
      ⟨(false, [5, 8]), electraKey ++ List.replicate 25 0, by decide⟩) =
        .error (.error (.errorf "snappy: corrupt input" [])) ∧
      decodeAttestationRecord indicesCodec (electraKey ++ List.replicate 25 0) = .error .panic :=
  ⟨rfl, rfl⟩

end Prysm.SlasherKv
