import Prysm.Aggregation.MaxCover
import Prysm.Library.Compaction

/-!
# Aggregation of attestations

`MaxCoverAttestationAggregation` of `attestation/aggregation/attestations/maxcover.go`.  It works in
place on the array of the attestations and on the array of their bit lists.  In front stand the
aggregates that are done, behind them the attestations that are still open, and at the end the
entries that were merged into an aggregate, which are nil.  A round selects disjoint open
attestations, puts their aggregate behind the others and moves the selected ones to the end.

A signature is the multiset of the votes that it aggregates.
-/

namespace Prysm.Aggregation

open Prysm.Library

/-- The votes that a signature aggregates. -/
abbrev Signature := Multiset ℕ

/-- `bls.AggregateSignatures`. -/
def aggregateSignatures (signs : List Signature) : Signature := signs.sum

/-- The attestation types with aggregation bits: those of phase 0 and those of Electra. -/
inductive Att (Data CommitteeBits : Type)
  | attestation (aggregationBits : Bitlist) (data : Data) (signature : Signature)
  | attestationElectra (aggregationBits : Bitlist) (committeeBits : CommitteeBits) (data : Data)
      (signature : Signature)
deriving DecidableEq

namespace Att

variable {Data CommitteeBits : Type}

def getAggregationBits : Att Data CommitteeBits → Bitlist
  | attestation aggregationBits _ _ => aggregationBits
  | attestationElectra aggregationBits _ _ _ => aggregationBits

def getData : Att Data CommitteeBits → Data
  | attestation _ data _ => data
  | attestationElectra _ _ data _ => data

def getSignature : Att Data CommitteeBits → Signature
  | attestation _ _ signature => signature
  | attestationElectra _ _ _ signature => signature

/-- What an attestation is about: its data, and the committees of an Electra attestation. -/
def subject : Att Data CommitteeBits → Data × Option CommitteeBits
  | attestation _ data _ => (data, none)
  | attestationElectra _ committeeBits data _ => (data, some committeeBits)

/-- The votes of the set bits. -/
def votes (att : Att Data CommitteeBits) : Finset ℕ := att.getAggregationBits.bitSet

end Att

def errInvalidAttestationCount : Error := .errorf "invalid number of attestations" []

variable {Data CommitteeBits : Type} [Bitfield]

/-- What `sort.Slice` by descending bit count does: some ordering of the attestations. -/
structure SortByCount (Data CommitteeBits : Type) where
  sort : List (Att Data CommitteeBits) → List (Att Data CommitteeBits)
  perm : ∀ al, (sort al).Perm al
  sorted : ∀ al, (sort al).Pairwise fun att other ↦
    other.getAggregationBits.count ≤ att.getAggregationBits.count

/-- The two arrays that the function works on. -/
structure Arrays (Data CommitteeBits : Type) where
  atts : List (Option (Att Data CommitteeBits))
  candidates : List (Option Bitlist)

def padSelectedKeys (keys : List ℕ) (pad : ℕ) : List ℕ := keys.map (· + pad)

/-- `aggregateAttestations`: the array with the aggregate at the position of the first selected
attestation, and this position. -/
def aggregateAttestations (atts : List (Option (Att Data CommitteeBits))) (keys : List ℕ)
    (coverage : Bitlist) : Except Fault (List (Option (Att Data CommitteeBits)) × ℕ) :=
  match keys with
  | targetIdx :: _ :: _ =>
    if atts.length < 2 then
      .error (.error (.wrapf errInvalidAttestationCount "cannot aggregate" []))
    else if coverage.count = 0 then .error (.error (.errorf "invalid or empty coverage" []))
    else do
      let signs ← keys.mapM fun idx ↦ do
        let att ← entryAt atts idx
        .ok att.getSignature
      let target ← entryAt atts targetIdx
      let first ← entryAt atts 0
      let aggregate := match first with
        | .attestation _ _ _ => .attestation coverage target.getData (aggregateSignatures signs)
        | .attestationElectra _ committeeBits _ _ =>
          .attestationElectra coverage committeeBits target.getData (aggregateSignatures signs)
      .ok (atts.set targetIdx (some aggregate), targetIdx)
  | _ => .error (.error (.wrapf errInvalidAttestationCount "cannot aggregate" []))

/-- Set the entries at a position to nil. -/
def Arrays.clear (arrays : Arrays Data CommitteeBits) (idx : ℕ) :
    Except Fault (Arrays Data CommitteeBits) :=
  if idx < arrays.atts.length ∧ idx < arrays.candidates.length then
    .ok ⟨arrays.atts.set idx none, arrays.candidates.set idx none⟩
  else .error .panic

/-- Exchange the entries at two positions. -/
def Arrays.swap (arrays : Arrays Data CommitteeBits) (i j : ℕ) : Arrays Data CommitteeBits :=
  ⟨Library.swap arrays.atts i j, Library.swap arrays.candidates i j⟩

/-- The loop of `rearrangeProcessedAttestations` that moves the nil entries to the end.  The
positions are those of entries that were set to nil before, so they are in the arrays. -/
def Arrays.swapOut : List ℕ → Arrays Data CommitteeBits → ℕ → Arrays Data CommitteeBits
  | [], arrays, _ => arrays
  | idx0 :: keys, arrays, lastIdx =>
    let lastIdx := skipGone Option.isNone arrays.atts idx0 lastIdx
    if idx0 = lastIdx then arrays else swapOut keys (arrays.swap idx0 lastIdx) lastIdx

def rearrangeProcessedAttestations (arrays : Arrays Data CommitteeBits) (processedKeys : List ℕ) :
    Except Fault (Arrays Data CommitteeBits) := do
  let cleared ← processedKeys.foldlM Arrays.clear arrays
  .ok (cleared.swapOut (processedKeys.mergeSort (· ≤ ·)) (cleared.atts.length - 1))

/-- `filterContained`: an attestation is dropped if the last one that was kept contains it.  The
result overwrites the sorted list from the left, behind the position that is read. -/
def filterContained (sorting : SortByCount Data CommitteeBits)
    (al : List (Option (Att Data CommitteeBits))) :
    Except Fault (List (Option (Att Data CommitteeBits))) :=
  if al.length < 2 then .ok al
  else do
    let al ← al.mapM deref
    match sorting.sort al with
    | [] => .ok []
    | first :: rest => do
      let filtered ← rest.foldlM (fun filtered att ↦ do
        let last ← deref filtered.getLast?
        let c ← last.getAggregationBits.contains att.getAggregationBits
        if c then .ok filtered else .ok (filtered ++ [att])) [first]
      .ok (filtered.map some)

/-- `validate`; a bit list that is nil is empty. -/
def validate (al : List (Att Data CommitteeBits)) : Except Fault PUnit :=
  if al.any fun att ↦ att.getAggregationBits.len = 0 then
    .error (.error (.wrapf errInvalidMaxCoverProblem "bitlist cannot be nil or empty" []))
  else .ok ⟨⟩

/-- The variables of the aggregation loop.  `aggregated` is a slice from the start of the array,
given by its length, and `unaggregated` one from a position. -/
structure Aggregating (Data CommitteeBits : Type) where
  arrays : Arrays Data CommitteeBits
  coveredBitsSoFar : Bitlist
  aggregated : ℕ
  unaggregatedStart : ℕ
  unaggregated : ℕ

/-- The part of a round that adds the aggregate of the selected attestations, if it covers anything
new. -/
def placeAggregate (state : Aggregating Data CommitteeBits) (keys : List ℕ) (coverage : Bitlist) :
    Except Fault (Aggregating Data CommitteeBits × List ℕ) := do
  let xc ← state.coveredBitsSoFar.xorCount coverage
  if xc > 0 then do
    let (atts, aggIdx) ← aggregateAttestations state.arrays.atts keys coverage
    let arrays : Arrays Data CommitteeBits := { state.arrays with atts }
    let idx0 := state.aggregated
    let covered ← coverage.or state.coveredBitsSoFar
    .ok (⟨if idx0 < aggIdx then arrays.swap idx0 aggIdx else arrays, covered, idx0 + 1,
      state.unaggregatedStart + 1, state.unaggregated - 1⟩, keys.tail)
  else .ok (state, keys)

/-- One round of the aggregation loop, and whether it breaks. -/
def aggregateRound (state : Aggregating Data CommitteeBits) :
    Except Fault (Aggregating Data CommitteeBits × Bool) :=
  if state.unaggregated < 2 then .ok (state, true)
  else do
    let roundCandidates :=
      (state.arrays.candidates.drop state.aggregated).take state.unaggregated
    let (selectedKeys, coverage) ← maxCover roundCandidates false roundCandidates.length
    if selectedKeys.count < 2 then .ok (state, true)
    else do
      let keys := padSelectedKeys selectedKeys.bitIndices state.aggregated
      let (state, keys) ← placeAggregate state keys coverage
      let arrays ← rearrangeProcessedAttestations state.arrays keys
      .ok ({ state with arrays, unaggregated := state.unaggregated - keys.length }, false)

def maxCoverAttestationAggregation (sorting : SortByCount Data CommitteeBits)
    (atts : List (Att Data CommitteeBits)) :
    Except Fault (List (Option (Att Data CommitteeBits))) :=
  match atts with
  | first :: _ :: _ => do
    validate atts
    let state ← loop (fun state _ ↦ aggregateRound state) (List.range (atts.length / 2))
      ⟨⟨atts.map some, atts.map fun att ↦ some att.getAggregationBits⟩,
        Bitlist.ofLen first.getAggregationBits.len, 0, 0, atts.length⟩
    let filtered ← filterContained sorting
      ((state.arrays.atts.drop state.unaggregatedStart).take state.unaggregated)
    .ok (state.arrays.atts.take state.aggregated ++ filtered)
  | atts => .ok (atts.map some)

end Prysm.Aggregation
