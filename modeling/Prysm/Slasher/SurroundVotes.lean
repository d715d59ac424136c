import Prysm.Slasher.Batch
import Mathlib.Data.List.Pairwise

/-!
# Surround votes over a history of batches

The batches that reach `checkSurroundVotes` one after the other, with a database that returns for a
validator and a target the record that was saved.  For a history of single attestations a slashing
is found exactly for the surround votes, as long as no walk over the spans leaves a chunk after the
history has wrapped around; and a batch misses no surround vote of its own exactly when the
iteration orders of its two passes fit together.
-/

namespace Prysm.Slasher

open List Prysm.Library

/-- The arguments of one call of `checkSurroundVotes`, with the iteration orders of its maps. -/
structure Batch where
  attestations : List IndexedAttestationWrapper
  currentEpoch : Epoch
  orders : IterationOrders

/-- The service, and the attestations saved in the database. -/
structure SlasherState where
  service : Service
  saved : List IndexedAttestationWrapper

def SlasherState.new : SlasherState := ⟨Service.new, []⟩

/-- A database that returns the first attestation saved for the validator and the target. -/
def savedRecord (saved : List IndexedAttestationWrapper) : RecordLookup := fun v target ↦
  saved.find? fun a ↦ v ∈ a.attestingIndices ∧ a.target = target

variable (params : Parameters)

/-- `checkSlashableAttestations` without the check for double votes: the attestations are saved, and
checked for surround votes. -/
def detectBatch (fuel : ℕ) (state : SlasherState) (batch : Batch) :
    Except Fault (List Detection × SlasherState) := do
  let saved := state.saved ++ batch.attestations
  let (detections, service) ← checkSurroundVotes params fuel (savedRecord saved) state.service
    batch.attestations batch.currentEpoch batch.orders
  return (detections, ⟨service, saved⟩)

/-- The state after a batch. -/
def afterBatch (fuel : ℕ) (state : SlasherState) (batch : Batch) : Except Fault SlasherState := do
  let (_, next) ← detectBatch params fuel state batch
  return next

/-- The state after a history of batches. -/
def runBatches (fuel : ℕ) (batches : List Batch) : Except Fault SlasherState :=
  batches.foldlM (afterBatch params fuel) SlasherState.new

/-- What the last batch of a history finds. -/
def detectionsAfter (fuel : ℕ) (earlier : List Batch) (last : Batch) :
    Except Fault (List Detection) := do
  let state ← runBatches params fuel earlier
  let (detections, _) ← detectBatch params fuel state last
  return detections

/-- The attestations of the batches that a validator takes part in. -/
def attestationsOf (batches : List Batch) (v : ValidatorIndex) : Set IndexedAttestationWrapper :=
  {a | a ∈ batches.flatMap (·.attestations) ∧ v ∈ a.attestingIndices}

/-- A history as the slasher's caller makes it: the current epoch does not go back, the attestations
pass `filterAttestations`, Go iterates over maps in some order, and no validator makes two votes for
one target. -/
structure ValidHistory (params : Parameters) (batches : List Batch) : Prop where
  epochs : batches.Pairwise (·.currentEpoch ≤ ·.currentEpoch)
  inWindow : ∀ batch ∈ batches, ∀ a ∈ batch.attestations, InWindow params batch.currentEpoch a
  orders : ∀ batch ∈ batches, batch.orders.Valid params batch.attestations
  targets : ∀ v, ∀ a ∈ attestationsOf batches v, ∀ b ∈ attestationsOf batches v,
    a.target = b.target → a = b

/-- Every cell that the batches reach has a key, and every epoch in it a value. -/
structure Representable (batches : List Batch) : Prop where
  epochs : ∀ batch ∈ batches, batch.currentEpoch + 2 ^ 16 ≤ 2 ^ 64
  validators : ∀ batch ∈ batches, ∀ a ∈ batch.attestations, ∀ w ∈ a.attestingIndices, w < 2 ^ 40

/-- No walk over the spans leaves a chunk after the history has wrapped around. -/
def NeverWraps (batches : List Batch) : Prop :=
  ∀ batch ∈ batches, ∀ a ∈ batch.attestations, ∀ kind, Unwrapped params kind batch.currentEpoch a

variable {params : Parameters} {fuel : ℕ} {batches earlier later : List Batch} {last : Batch}
  {kind : ChunkKind} {a att : IndexedAttestationWrapper} {w : ValidatorIndex}
  {processed : ValidatorIndex → Set IndexedAttestationWrapper} (v : ValidatorIndex)

/-- `params.VALIDATOR_REGISTRY_LIMIT` validators have keys that fit. -/
theorem keysFit_of_lt (hlength : params.historyLength < 2 ^ 16) (hw : w < 2 ^ 40) :
    KeysFit params (params.validatorChunkIndex w) := by
  have hwidth : params.historyLength / params.chunkSize ≤ 2 ^ 16 :=
    (Nat.div_le_self _ _).trans hlength.le
  have hchunk : params.validatorChunkIndex w + 1 ≤ 2 ^ 40 :=
    Nat.succ_le_of_lt (lt_of_le_of_lt (Nat.div_le_self _ _) hw)
  calc params.historyLength / params.chunkSize * (params.validatorChunkIndex w + 1)
      ≤ 2 ^ 16 * 2 ^ 40 := Nat.mul_le_mul hwidth hchunk
    _ ≤ 2 ^ 64 := by decide

theorem attestationsOf_append :
    attestationsOf (earlier ++ [last]) v =
      withBatch (attestationsOf earlier) last.attestations v := by
  ext a
  simp only [attestationsOf, withBatch, flatMap_append, mem_append, flatMap_cons,
    flatMap_nil, append_nil, Set.mem_union, Set.mem_ofPred_eq]
  tauto

/-- With one vote for a target, the database returns it. -/
theorem ValidHistory.saved (hvalid : ValidHistory params batches) (v : ValidatorIndex) :
    Saved (savedRecord (batches.flatMap (·.attestations))) v (attestationsOf batches v) := by
  intro a ha
  unfold savedRecord
  cases hfind : (batches.flatMap (·.attestations)).find?
      fun b ↦ v ∈ b.attestingIndices ∧ b.target = a.target with
  | none =>
    rw [find?_eq_none] at hfind
    exact absurd (by simpa using ha.2) (hfind a ha.1)
  | some b =>
    have hb := find?_some hfind
    simp only [decide_eq_true_eq] at hb
    rw [hvalid.targets v a ha b ⟨mem_of_find?_eq_some hfind, hb.1⟩ hb.2.symm]

theorem ValidHistory.left (hvalid : ValidHistory params (earlier ++ later)) :
    ValidHistory params earlier where
  epochs := (pairwise_append.1 hvalid.epochs).1
  inWindow := fun batch hbatch ↦ hvalid.inWindow batch (mem_append_left _ hbatch)
  orders := fun batch hbatch ↦ hvalid.orders batch (mem_append_left _ hbatch)
  targets := by
    have hsubset : ∀ v, attestationsOf earlier v ⊆ attestationsOf (earlier ++ later) v := by
      intro v a ha
      simp only [attestationsOf, flatMap_append, mem_append]
      exact ⟨.inl ha.1, ha.2⟩
    exact fun v a ha b hb ↦ hvalid.targets v a (hsubset v ha) b (hsubset v hb)

theorem Representable.left (hfits : Representable (earlier ++ later)) : Representable earlier where
  epochs := fun batch hbatch ↦ hfits.epochs batch (mem_append_left _ hbatch)
  validators := fun batch hbatch ↦ hfits.validators batch (mem_append_left _ hbatch)

/-- What the slasher's state is after a history of batches. -/
structure Reflects (params : Parameters) (batches : List Batch) (state : SlasherState) : Prop where
  saved : state.saved = batches.flatMap (·.attestations)
  tracked : Tracked params state.service [] (attestationsOf batches)
  latest : ∀ w epoch, state.service.latestEpochUpdatedForValidator w = some epoch →
    ∃ batch ∈ batches, epoch ≤ batch.currentEpoch

theorem reflects_new : Reflects params [] SlasherState.new where
  saved := rfl
  tracked := by
    have hempty : attestationsOf [] = fun _ ↦ ∅ := by
      funext v
      simp [attestationsOf]
    rw [hempty]
    exact tracked_new
  latest := fun _ _ h ↦ absurd h.symm (Option.some_ne_none _)

section Setting

variable (hdvd : params.chunkSize ∣ params.historyLength)
  (hlength : params.historyLength < 2 ^ 16) (hfuel : params.historyLength < fuel)

include hdvd hlength hfuel

/-- One more batch finds the attestations that offend when their turn comes. -/
theorem Reflects.detectBatch {state : SlasherState} (hst : Reflects params earlier state)
    (hvalid : ValidHistory params (earlier ++ [last])) (hfits : Representable (earlier ++ [last]))
    (hwraps : NeverWraps params (earlier ++ [last])) :
    ∃ dets next, detectBatch params fuel state last = .ok (dets, next) ∧
      Reflects params (earlier ++ [last]) next ∧
      ∀ kind w a, (∃ old, ⟨kind, w, a, old⟩ ∈ dets) ↔
        Reported kind (attestationsOf earlier)
          (batchOrder params last.attestations last.orders kind (params.validatorChunkIndex w)) w
          a := by
  have hlast : last ∈ earlier ++ [last] := by simp
  have hsaved : (earlier ++ [last]).flatMap (·.attestations) =
      state.saved ++ last.attestations := by
    simp [hst.saved]
  have hbatch : Acceptable params (savedRecord (state.saved ++ last.attestations))
      (attestationsOf earlier) last.attestations last.currentEpoch :=
    ⟨hvalid.inWindow last hlast, hwraps last hlast,
      fun a ha w hw ↦ keysFit_of_lt hlength (hfits.validators last hlast a ha w hw),
      fun w ↦ attestationsOf_append w ▸ hsaved ▸ hvalid.saved w⟩
  obtain ⟨dets, next, hrun, htracked, hlatest, hdets⟩ := checkSurroundVotes_spec
    hbatch ⟨hdvd, hlength, hfits.epochs last hlast, hfuel⟩ (hvalid.orders last hlast) hst.tracked
    (fun w epoch hw ↦ by
      obtain ⟨batch, hmem, hle⟩ := hst.latest w epoch hw
      exact hle.trans ((pairwise_append.1 hvalid.epochs).2.2 batch hmem last (by simp)))
  refine ⟨dets, ⟨next, state.saved ++ last.attestations⟩, ?_, ⟨hsaved.symm, ?_, ?_⟩, hdets⟩
  · simp only [Slasher.detectBatch, hrun, bind, Except.bind]
    rfl
  · rwa [funext attestationsOf_append]
  · grind

theorem exists_runBatches (hvalid : ValidHistory params batches) (hfits : Representable batches)
    (hwraps : NeverWraps params batches) :
    ∃ state, runBatches params fuel batches = .ok state ∧ Reflects params batches state := by
  refine exists_foldlM_eq_ok (afterBatch params fuel) batches SlasherState.new
    (Reflects params) reflects_new fun done batch rest state hlist hst ↦ ?_
  rw [append_cons] at hlist
  obtain ⟨dets, next, hrun, hnext, -⟩ := hst.detectBatch hdvd hlength hfuel
    (hlist ▸ hvalid).left (hlist ▸ hfits).left (fun b hb ↦ hwraps b (hlist ▸ mem_append_left _ hb))
  refine ⟨next, ?_, hnext⟩
  simp only [afterBatch, hrun, bind, Except.bind]
  rfl

/-- The last batch of a history finds the attestations that offend when their turn comes. -/
theorem exists_detectionsAfter (hvalid : ValidHistory params (earlier ++ [last]))
    (hfits : Representable (earlier ++ [last])) (hwraps : NeverWraps params (earlier ++ [last])) :
    ∃ dets, detectionsAfter params fuel earlier last = .ok dets ∧
      ∀ kind w a, (∃ old, ⟨kind, w, a, old⟩ ∈ dets) ↔
        Reported kind (attestationsOf earlier)
          (batchOrder params last.attestations last.orders kind (params.validatorChunkIndex w)) w
          a := by
  obtain ⟨state, hst, hreflects⟩ := exists_runBatches hdvd hlength hfuel hvalid.left hfits.left
    (fun b hb ↦ hwraps b (mem_append_left _ hb))
  obtain ⟨dets, next, hrun, -, hdets⟩ :=
    hreflects.detectBatch hdvd hlength hfuel hvalid hfits hwraps
  refine ⟨dets, ?_, hdets⟩
  simp only [detectionsAfter, hst, hrun, bind, Except.bind]
  rfl

end Setting

/-- An attestation that the database and the batches before know offends at its turn. -/
theorem reported_of_mem {work : List (IndexedAttestationWrapper × ValidatorIndex)}
    {v : ValidatorIndex} {old : IndexedAttestationWrapper} (hatt : (att, v) ∈ work)
    (hexisting : old ∈ processed v) (hoffence : kind.Offence att old) :
    Reported kind processed work v att := by
  obtain ⟨before, after, hwork⟩ := append_of_mem hatt
  exact ⟨before, after, hwork, old, .inl hexisting, hoffence⟩

/-! ### Single attestations -/

/-- A vote of one validator, and the current epoch when it is processed. -/
structure Vote where
  source : Epoch
  target : Epoch
  dataRoot : Root
  currentEpoch : Epoch
deriving DecidableEq, Repr

def Vote.attestation (vote : Vote) (v : ValidatorIndex) : IndexedAttestationWrapper :=
  ⟨[v], vote.source, vote.target, vote.dataRoot⟩

/-- The batch of a single vote.  Each map that Go iterates over has one key. -/
def Vote.batch (params : Parameters) (v : ValidatorIndex) (vote : Vote) : Batch where
  attestations := [vote.attestation v]
  currentEpoch := vote.currentEpoch
  orders := ⟨[params.validatorChunkIndex v], fun _ _ ↦ [params.chunkIndex vote.source]⟩

/-- A history of votes: the current epoch does not go back, each vote is
in the window, and the targets differ. -/
structure ValidVotes (params : Parameters) (votes : List Vote) : Prop where
  epochs : votes.Pairwise (·.currentEpoch ≤ ·.currentEpoch)
  inWindow : ∀ vote ∈ votes, vote.currentEpoch < vote.source + params.historyLength ∧
    vote.source < vote.target ∧ vote.target ≤ vote.currentEpoch
  targets : votes.Pairwise (·.target ≠ ·.target)

instance (params : Parameters) (votes : List Vote) : Decidable (ValidVotes params votes) :=
  decidable_of_iff (votes.Pairwise (·.currentEpoch ≤ ·.currentEpoch) ∧
    (∀ vote ∈ votes, vote.currentEpoch < vote.source + params.historyLength ∧
      vote.source < vote.target ∧ vote.target ≤ vote.currentEpoch) ∧
    votes.Pairwise (·.target ≠ ·.target))
    ⟨fun ⟨hepochs, hwindow, htargets⟩ ↦ ⟨hepochs, hwindow, htargets⟩,
      fun hvotes ↦ ⟨hvotes.epochs, hvotes.inWindow, hvotes.targets⟩⟩

theorem Vote.orders_valid (vote : Vote) :
    (vote.batch params v).orders.Valid params (vote.batch params v).attestations where
  validatorChunks_nodup := by simp [Vote.batch]
  mem_validatorChunks := by
    intro vci
    simp only [Vote.batch, Vote.attestation, attestationsOfValidatorChunk, mem_singleton]
    by_cases hvci : params.validatorChunkIndex v = vci
    · simp [hvci]
    · simp [hvci, Ne.symm hvci]
  chunks_nodup := by simp [Vote.batch]
  mem_chunks := by
    intro vci hvci kind idx
    obtain rfl := mem_singleton.1 hvci
    simp only [Vote.batch, Vote.attestation, attestationsOfValidatorChunk, attestationsOfChunk,
      mem_singleton]
    grind

variable {votes : List Vote} {vote : Vote}

theorem mem_attestationsOf_votes {v : ValidatorIndex} :
    a ∈ attestationsOf (votes.map (·.batch params v)) w ↔
      w = v ∧ ∃ vote ∈ votes, vote.attestation v = a := by
  simp only [attestationsOf, mem_flatMap, mem_map, Set.mem_ofPred_eq]
  constructor
  · rintro ⟨⟨_, ⟨vote, hvote, rfl⟩, ha⟩, hw⟩
    obtain rfl := mem_singleton.1 ha
    exact ⟨mem_singleton.1 hw, vote, hvote, rfl⟩
  · rintro ⟨rfl, vote, hvote, rfl⟩
    exact ⟨⟨_, ⟨vote, hvote, rfl⟩, mem_singleton_self _⟩, mem_singleton_self _⟩

theorem ValidVotes.history (hvotes : ValidVotes params votes) (v : ValidatorIndex) :
    ValidHistory params (votes.map (·.batch params v)) where
  epochs := by
    rw [pairwise_map]
    exact hvotes.epochs
  inWindow := by
    intro batch hbatch a ha
    obtain ⟨vote, hvote, rfl⟩ := mem_map.1 hbatch
    obtain rfl := mem_singleton.1 ha
    obtain ⟨habove, hlt, hle⟩ := hvotes.inWindow vote hvote
    exact ⟨habove, hlt, hle⟩
  orders := by
    intro batch hbatch
    obtain ⟨vote, -, rfl⟩ := mem_map.1 hbatch
    exact vote.orders_valid v
  targets := by
    intro w a ha b hb htgt
    obtain ⟨rfl, vote, hvote, rfl⟩ := mem_attestationsOf_votes.1 ha
    obtain ⟨-, other, hother, rfl⟩ := mem_attestationsOf_votes.1 hb
    by_contra hne
    have hdiffer : vote ≠ other := fun h ↦ hne (h ▸ rfl)
    have : Std.Symm fun x y : Vote ↦ x.target ≠ y.target := ⟨fun _ _ h ↦ h.symm⟩
    exact hvotes.targets.forall hvote hother hdiffer htgt

/-- The only work of the batch of a single vote. -/
theorem mem_batchOrder_vote {v : ValidatorIndex} :
    (a, w) ∈ batchOrder params (vote.batch params v).attestations (vote.batch params v).orders kind
        (params.validatorChunkIndex v) ↔ a = vote.attestation v ∧ w = v := by
  rw [mem_batchOrder (vote.orders_valid v) (by simp [Vote.batch]), mem_attestationsOfValidatorChunk]
  constructor
  · rintro ⟨⟨ha, -⟩, hw⟩
    obtain rfl := mem_singleton.1 ha
    exact ⟨rfl, mem_singleton.1 hw⟩
  · rintro ⟨rfl, rfl⟩
    exact ⟨⟨mem_singleton_self _, w, mem_singleton_self _, rfl⟩, mem_singleton_self _⟩

theorem not_offence_self (a : IndexedAttestationWrapper) : ¬ kind.Offence a a := by
  cases kind with
  | minSpan => exact fun h ↦ lt_irrefl _ h.1
  | maxSpan => exact fun h ↦ lt_irrefl _ h.1

/-- The batch of a vote reports exactly the offences with what was processed before. -/
theorem reported_vote_iff {v : ValidatorIndex} :
    Reported kind processed (batchOrder params (vote.batch params v).attestations
        (vote.batch params v).orders kind (params.validatorChunkIndex v)) v (vote.attestation v) ↔
      ∃ a ∈ processed v, kind.Offence (vote.attestation v) a := by
  constructor
  · rintro ⟨before, after, hwork, a, hold | hbefore, hoffence⟩
    · exact ⟨a, hold, hoffence⟩
    · have hmem := mem_batchOrder_vote.1 (hwork ▸ mem_append_left _ hbefore)
      exact absurd (hmem.1 ▸ hoffence) (not_offence_self _)
  · rintro ⟨a, ha, hoffence⟩
    exact reported_of_mem (mem_batchOrder_vote.2 ⟨rfl, rfl⟩) ha hoffence

/-- Neither a `uint64` nor a key overflows on the votes of the validator. -/
structure RepresentableVotes (v : ValidatorIndex) (votes : List Vote) : Prop where
  validator : v < 2 ^ 40
  epochs : ∀ vote ∈ votes, vote.currentEpoch + 2 ^ 16 ≤ 2 ^ 64

instance (v : ValidatorIndex) (votes : List Vote) : Decidable (RepresentableVotes v votes) :=
  decidable_of_iff (v < 2 ^ 40 ∧ ∀ vote ∈ votes, vote.currentEpoch + 2 ^ 16 ≤ 2 ^ 64)
    ⟨fun ⟨hv, hepochs⟩ ↦ ⟨hv, hepochs⟩, fun hvotes ↦ ⟨hvotes.validator, hvotes.epochs⟩⟩

/-- No walk for a vote leaves a chunk after the history has wrapped around. -/
def VotesNeverWrap (params : Parameters) (v : ValidatorIndex) (votes : List Vote) : Prop :=
  ∀ vote ∈ votes, Unwrapped params .minSpan vote.currentEpoch (vote.attestation v) ∧
    Unwrapped params .maxSpan vote.currentEpoch (vote.attestation v)

instance (params : Parameters) (v : ValidatorIndex) (votes : List Vote) :
    Decidable (VotesNeverWrap params v votes) :=
  inferInstanceAs (Decidable (∀ vote ∈ votes, _ ∧ _))

/-- A slashing is found for a vote exactly when it surrounds, or is surrounded by, an earlier vote
whose target is still in the history window. -/
theorem surroundVote_detected_iff (params : Parameters) (fuel : ℕ) (v : ValidatorIndex)
    (earlier : List Vote) (last : Vote) (hdvd : params.chunkSize ∣ params.historyLength)
    (hlength : params.historyLength < 2 ^ 16) (hfuel : params.historyLength < fuel)
    (hvotes : ValidVotes params (earlier ++ [last]))
    (hfits : RepresentableVotes v (earlier ++ [last]))
    (hwraps : VotesNeverWrap params v (earlier ++ [last])) :
    ∃ detections, detectionsAfter params fuel (earlier.map (·.batch params v))
        (last.batch params v) = .ok detections ∧
      (detections ≠ [] ↔ ∃ a ∈ earlier,
        (Surrounds (a.attestation v) (last.attestation v) ∨
          Surrounds (last.attestation v) (a.attestation v)) ∧
        last.currentEpoch < a.target + params.historyLength) := by
  have hvalid := hvotes.history v
  have hrepresentable : Representable ((earlier ++ [last]).map (·.batch params v)) := by
    refine ⟨fun batch hbatch ↦ ?_, fun batch hbatch a ha w hw ↦ ?_⟩
    · obtain ⟨vote, hvote, rfl⟩ := mem_map.1 hbatch
      exact hfits.epochs vote hvote
    · obtain ⟨vote, hvote, rfl⟩ := mem_map.1 hbatch
      obtain rfl := mem_singleton.1 ha
      exact mem_singleton.1 hw ▸ hfits.validator
  have hnever : NeverWraps params ((earlier ++ [last]).map (·.batch params v)) := by
    intro batch hbatch a ha kind
    obtain ⟨vote, hvote, rfl⟩ := mem_map.1 hbatch
    obtain rfl := mem_singleton.1 ha
    cases kind with
    | minSpan => exact (hwraps vote hvote).1
    | maxSpan => exact (hwraps vote hvote).2
  rw [map_append, map_singleton] at hvalid hrepresentable hnever
  obtain ⟨detections, hrun, hdets⟩ :=
    exists_detectionsAfter hdvd hlength hfuel hvalid hrepresentable hnever
  refine ⟨detections, hrun, ?_⟩
  constructor
  · intro hne
    obtain ⟨⟨kind, w, b, old⟩, hmem⟩ := exists_mem_of_ne_nil _ hne
    have hreported := (hdets kind w b).1 ⟨old, hmem⟩
    obtain ⟨before, after, hwork, -⟩ := id hreported
    have hturn : (b, w) ∈ batchOrder params (last.batch params v).attestations
        (last.batch params v).orders kind (params.validatorChunkIndex w) := by simp [hwork]
    obtain ⟨⟨hb, -⟩, hw⟩ := mem_passOrder.1 hturn
    obtain rfl := mem_singleton.1 (mem_attestationsOfValidatorChunk.1 hb).1
    obtain rfl := mem_singleton.1 hw
    obtain ⟨_, hproc, hoffence⟩ := reported_vote_iff.1 hreported
    obtain ⟨-, a, ha, rfl⟩ := mem_attestationsOf_votes.1 hproc
    have hlast := hvotes.inWindow last (by simp)
    have htgt := (hvotes.inWindow a (mem_append_left _ ha)).2.1
    refine ⟨a, ha, ?_, ?_⟩
    · cases kind with
      | minSpan => exact .inr hoffence
      | maxSpan => exact .inl hoffence
    · cases kind with
      | minSpan =>
        have hinside : last.source < a.source := hoffence.1
        lia
      | maxSpan =>
        have houtside : last.target < a.target := hoffence.2
        lia
  · rintro ⟨a, ha, hsurrounds, -⟩
    have hproc : a.attestation v ∈ attestationsOf (earlier.map (·.batch params v)) v :=
      mem_attestationsOf_votes.2 ⟨rfl, a, ha, rfl⟩
    rcases hsurrounds with houter | hinner
    · obtain ⟨old, hmem⟩ := (hdets .maxSpan v (last.attestation v)).2
        (reported_vote_iff.2 ⟨_, hproc, houter⟩)
      exact ne_nil_of_mem hmem
    · obtain ⟨old, hmem⟩ := (hdets .minSpan v (last.attestation v)).2
        (reported_vote_iff.2 ⟨_, hproc, hinner⟩)
      exact ne_nil_of_mem hmem

theorem surroundVote_detected_iff_firstRound :
    ∃ detections, detectionsAfter smallParams 7 [Vote.batch smallParams 0 ⟨2, 3, 1, 3⟩]
        (Vote.batch smallParams 0 ⟨1, 4, 2, 4⟩) = .ok detections ∧
      (detections ≠ [] ↔ ∃ a ∈ [(⟨2, 3, 1, 3⟩ : Vote)],
        (Surrounds (a.attestation 0) (Vote.attestation ⟨1, 4, 2, 4⟩ 0) ∨
          Surrounds (Vote.attestation ⟨1, 4, 2, 4⟩ 0) (a.attestation 0)) ∧
        4 < a.target + 6) :=
  surroundVote_detected_iff smallParams 7 0 [⟨2, 3, 1, 3⟩] ⟨1, 4, 2, 4⟩ (by decide) (by decide)
    (by decide) (by decide) (by decide) (by decide)

/-- After the history has wrapped around, a vote that surrounds an earlier one is not found: the
walk for the earlier vote stops at the start of its chunk. -/
theorem surroundVote_missed_after_wrap :
    ValidVotes smallParams [⟨9, 10, 1, 10⟩, ⟨7, 11, 2, 11⟩] ∧
      Surrounds (Vote.attestation ⟨7, 11, 2, 11⟩ 0) (Vote.attestation ⟨9, 10, 1, 10⟩ 0) ∧
      detectionsAfter smallParams 7 [Vote.batch smallParams 0 ⟨9, 10, 1, 10⟩]
        (Vote.batch smallParams 0 ⟨7, 11, 2, 11⟩) = .ok [] :=
  ⟨by decide, by decide, by rfl⟩

/-! ### Surround votes inside one batch -/

/-- The batch reports the surround vote of the validator: at the surrounding attestation in the
minimum span pass, or at the surrounded one in the maximum span pass. -/
def PairReported (detections : List Detection) (v : ValidatorIndex)
    (surrounded surrounding : IndexedAttestationWrapper) : Prop :=
  (∃ existing, ⟨.minSpan, v, surrounding, existing⟩ ∈ detections) ∨
    ∃ existing, ⟨.maxSpan, v, surrounded, existing⟩ ∈ detections

/-- No surround vote of a validator with an attestation of the last batch is missed. -/
def NoPairMissed (earlier : List Batch) (last : Batch) (detections : List Detection) : Prop :=
  ∀ v, ∀ a ∈ attestationsOf (earlier ++ [last]) v, ∀ b ∈ attestationsOf (earlier ++ [last]) v,
    Surrounds b a → a ∈ last.attestations ∨ b ∈ last.attestations →
      PairReported detections v a b

/-- The iteration orders of the two passes fit together: for a surround vote inside the batch, the
minimum span pass comes to the surrounding attestation after one that it surrounds, or the maximum
span pass to the surrounded one after one that surrounds it. -/
def OrdersFit (params : Parameters) (earlier : List Batch) (last : Batch) : Prop :=
  ∀ v, ∀ a ∈ last.attestations, ∀ b ∈ last.attestations, v ∈ a.attestingIndices →
    v ∈ b.attestingIndices → Surrounds b a →
    Reported .minSpan (attestationsOf earlier) (batchOrder params last.attestations last.orders
        .minSpan (params.validatorChunkIndex v)) v b ∨
      Reported .maxSpan (attestationsOf earlier) (batchOrder params last.attestations last.orders
        .maxSpan (params.validatorChunkIndex v)) v a

/-- Below the history length nothing wraps around. -/
theorem unwrapped_of_lt {cur : Epoch} (hatt : InWindow params cur att)
    (hcurr : cur < params.historyLength) (kind : ChunkKind) : Unwrapped params kind cur att := by
  have hsrc := hatt.source_le
  have htgt := hatt.target_le
  cases kind with
  | minSpan => exact .inr (.inl (by lia))
  | maxSpan =>
    refine .inr (le_max_of_le_left ?_)
    exact (Nat.div_mul_le_self _ _).trans (htgt.trans hcurr.le)

theorem ValidHistory.currentEpoch_le (hvalid : ValidHistory params (earlier ++ [last]))
    {batch : Batch} (hbatch : batch ∈ earlier ++ [last]) :
    batch.currentEpoch ≤ last.currentEpoch := by
  rcases mem_append.1 hbatch with hearlier | hlast
  · exact (pairwise_append.1 hvalid.epochs).2.2 batch hearlier last (by simp)
  · rw [mem_singleton.1 hlast]

/-- A batch misses no surround vote exactly when its iteration orders fit together. -/
theorem noPairMissed_iff_ordersFit (params : Parameters) (fuel : ℕ) (earlier : List Batch)
    (last : Batch) (hdvd : params.chunkSize ∣ params.historyLength)
    (hlength : params.historyLength < 2 ^ 16) (hfuel : params.historyLength < fuel)
    (hvalid : ValidHistory params (earlier ++ [last]))
    (hcurrent : last.currentEpoch < params.historyLength)
    (hvalidators : ∀ batch ∈ earlier ++ [last], ∀ a ∈ batch.attestations,
      ∀ w ∈ a.attestingIndices, w < 2 ^ 40) :
    ∃ detections, detectionsAfter params fuel earlier last = .ok detections ∧
      (NoPairMissed earlier last detections ↔ OrdersFit params earlier last) := by
  have hfits : Representable (earlier ++ [last]) := by
    refine ⟨fun batch hbatch ↦ ?_, hvalidators⟩
    have hle := hvalid.currentEpoch_le hbatch
    lia
  have hwraps : NeverWraps params (earlier ++ [last]) := fun batch hbatch a ha kind ↦
    unwrapped_of_lt (hvalid.inWindow batch hbatch a ha)
      (lt_of_le_of_lt (hvalid.currentEpoch_le hbatch) hcurrent) kind
  obtain ⟨detections, hrun, hdets⟩ := exists_detectionsAfter hdvd hlength hfuel hvalid hfits hwraps
  refine ⟨detections, hrun, fun hmissed v a ha b hb hva hvb hsurrounds ↦ ?_,
    fun horders v a ha b hb hsurrounds hin ↦ ?_⟩
  · rw [← hdets, ← hdets]
    refine hmissed v a ?_ b ?_ hsurrounds (.inl ha)
    · exact attestationsOf_append v ▸ .inr ⟨ha, hva⟩
    · exact attestationsOf_append v ▸ .inr ⟨hb, hvb⟩
  · unfold PairReported
    rw [hdets, hdets]
    have hturn : ∀ kind, ∀ c ∈ last.attestations, v ∈ c.attestingIndices →
        (c, v) ∈ batchOrder params last.attestations last.orders kind
          (params.validatorChunkIndex v) := by
      intro kind c hc hv
      have hgroup : c ∈ attestationsOfValidatorChunk params last.attestations
          (params.validatorChunkIndex v) := mem_attestationsOfValidatorChunk.2 ⟨hc, v, hv, rfl⟩
      have horders := hvalid.orders last (by simp)
      refine (mem_batchOrder horders ?_).2 ⟨hgroup, hv⟩
      exact (horders.mem_validatorChunks _).2 (ne_nil_of_mem hgroup)
    have hva := ha.2
    have hvb := hb.2
    rw [attestationsOf_append] at ha hb
    -- a vote of an earlier batch is known to both passes from the start
    rcases hin with hlast | hlast
    · rcases hb with hearlier | ⟨hlast', -⟩
      · exact .inr (reported_of_mem (hturn .maxSpan a hlast hva) hearlier hsurrounds)
      · exact horders v a hlast b hlast' hva hvb hsurrounds
    · rcases ha with hearlier | ⟨hlast', -⟩
      · exact .inl (reported_of_mem (hturn .minSpan b hlast hvb) hearlier hsurrounds)
      · exact horders v a hlast' b hlast hva hvb hsurrounds

/-- A surround vote of validator 0, with attestations in different chunks. -/
def nestedAttestations : List IndexedAttestationWrapper := [⟨[0], 1, 4, 1⟩, ⟨[0], 2, 3, 2⟩]

/-- The batch of both, with the given orders of the two chunks. -/
def nestedVotes (minOrder maxOrder : List ℕ) : Batch where
  attestations := nestedAttestations
  currentEpoch := 4
  orders := ⟨[0], fun _ kind ↦ match kind with
    | .minSpan => minOrder
    | .maxSpan => maxOrder⟩

theorem mem_chunk_nestedAttestations (index : ℕ) :
    index ∈ [0, 1] ↔ attestationsOfChunk smallParams
      (attestationsOfValidatorChunk smallParams nestedAttestations 0) index ≠ [] := by
  by_cases hzero : index = 0
  · subst hzero
    decide
  · by_cases hone : index = 1
    · subst hone
      decide
    · have hgroup : attestationsOfValidatorChunk smallParams nestedAttestations 0 =
          [⟨[0], 1, 4, 1⟩, ⟨[0], 2, 3, 2⟩] := by decide
      have hchunks : smallParams.chunkIndex 1 = 0 ∧ smallParams.chunkIndex 2 = 1 := by decide
      simp [hgroup, attestationsOfChunk, hchunks, hzero, hone, Ne.symm hzero, Ne.symm hone]

theorem nestedVotes_valid {minOrder maxOrder : List ℕ} (hmin : minOrder.Perm [0, 1])
    (hmax : maxOrder.Perm [0, 1]) :
    ValidHistory smallParams ([] ++ [nestedVotes minOrder maxOrder]) where
  epochs := pairwise_singleton _ _
  inWindow := by
    intro batch hbatch a ha
    obtain rfl := mem_singleton.1 hbatch
    have hall : ∀ a ∈ nestedAttestations,
        4 < a.source + 6 ∧ a.source < a.target ∧ a.target ≤ 4 := by
      decide
    obtain ⟨habove, hlt, hle⟩ := hall a ha
    exact ⟨habove, hlt, hle⟩
  orders := by
    intro batch hbatch
    obtain rfl := mem_singleton.1 hbatch
    refine ⟨by simp [nestedVotes], fun vci ↦ ?_, fun vci kind ↦ ?_, fun vci hvci kind index ↦ ?_⟩
    · by_cases hzero : vci = 0
      · subst hzero
        exact iff_of_true (by simp [nestedVotes]) (by simp only [nestedVotes]; decide)
      · have hne : (0 : ℕ) ≠ vci := Ne.symm hzero
        simp [nestedVotes, nestedAttestations, attestationsOfValidatorChunk,
          Parameters.validatorChunkIndex, hzero, hne]
    · cases kind with
      | minSpan => exact hmin.nodup_iff.2 (by decide)
      | maxSpan => exact hmax.nodup_iff.2 (by decide)
    · obtain rfl := mem_singleton.1 hvci
      cases kind with
      | minSpan => exact hmin.mem_iff.trans (mem_chunk_nestedAttestations index)
      | maxSpan => exact hmax.mem_iff.trans (mem_chunk_nestedAttestations index)
  targets := by
    intro v a ha b hb htgt
    simp only [attestationsOf, nestedVotes, nestedAttestations, nil_append, flatMap_cons,
      flatMap_nil, append_nil, mem_cons, not_mem_nil, or_false, Set.mem_ofPred_eq] at ha hb
    grind

theorem noPairMissed_iff_ordersFit_nestedVotes :
    ∃ detections, detectionsAfter smallParams 7 [] (nestedVotes [1, 0] [1, 0]) = .ok detections ∧
      (NoPairMissed [] (nestedVotes [1, 0] [1, 0]) detections ↔
        OrdersFit smallParams [] (nestedVotes [1, 0] [1, 0])) :=
  noPairMissed_iff_ordersFit smallParams 7 [] (nestedVotes [1, 0] [1, 0]) (by decide) (by decide)
    (by decide) (nestedVotes_valid (by decide) (by decide)) (by decide) (by decide)

/-- When the minimum span pass comes to the surrounding attestation first, and the maximum span pass
to the surrounded one, nothing is found. -/
theorem nestedVotes_missed :
    ValidHistory smallParams ([] ++ [nestedVotes [0, 1] [1, 0]]) ∧
      (nestedVotes [0, 1] [1, 0]).currentEpoch < smallParams.historyLength ∧
      detectionsAfter smallParams 7 [] (nestedVotes [0, 1] [1, 0]) = .ok [] ∧
      ¬ NoPairMissed [] (nestedVotes [0, 1] [1, 0]) [] := by
  refine ⟨nestedVotes_valid (by decide) (by decide), by decide, by rfl, fun hmissed ↦ ?_⟩
  have hpair := hmissed 0 ⟨[0], 2, 3, 2⟩ ⟨by decide, by decide⟩ ⟨[0], 1, 4, 1⟩
    ⟨by decide, by decide⟩ (by decide) (by decide)
  simp [PairReported] at hpair

end Prysm.Slasher
