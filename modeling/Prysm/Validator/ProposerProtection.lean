import Prysm.Validator.Store
import Prysm.Library.Run

/-!
# Proposer slashing protection

The functions of `proposer_protection.go`, and what they guarantee over a whole run.  Saving a
proposal also prunes the proposals that are a weak subjectivity period older than it, while the
lowest signed slot is only ever lowered.  A key therefore proposes at most one block for a slot as
long as every pruned slot is at or below the lowest signed slot.
-/

namespace Prysm.Validator

open Prysm.Library Store

def lowestProposalMessage : String :=
  "could not sign block with slot < lowest signed slot in db, block slot: %d < lowest signed " ++
    "slot: %d"

def repeatProposalMessage : String :=
  "could not sign block with slot == lowest signed slot in db if it is not a repeat signing, " ++
    "block slot: %d == slowest signed slot: %d"

def failedBlockSignLocalErr : String :=
  "block rejected by local protection"

/-- The value of the key's proposals bucket at a slot. -/
def Store.storedProposal (store : Store) (pubKey : PubKey) (slot : Slot) : Option (Option Root) :=
  (store.historicProposals pubKey).bind fun valBucket ↦ valBucket.get slot

/-- `ProposalHistoryForSlot`: the signing root, whether a proposal exists for the slot, and whether
it has a signing root. -/
def Store.proposalHistoryForSlot (store : Store) (pubKey : PubKey) (slot : Slot) :
    Root × Bool × Bool :=
  match store.storedProposal pubKey slot with
  | none => (zeroHash, false, false)
  | some none => (zeroHash, true, false)
  | some (some signingRoot) => (signingRoot, true, true)

variable (config : BeaconChainConfig)

/-- The proposal at `slot` is older than the weak subjectivity period seen from `newestSlot`. -/
def prunableProposal (newestSlot slot : Slot) : Bool :=
  (toEpoch config slot + config.weakSubjectivityPeriod) % 2 ^ 64 ≤ toEpoch config newestSlot

/-- `pruneProposalHistoryBySlot`: deletes from the oldest slot while it is prunable. -/
def pruneProposalHistoryBySlot (valBucket : Bucket Slot (Option Root)) (newestSlot : Slot) :
    Bucket Slot (Option Root) :=
  valBucket.deleteWhile (prunableProposal config newestSlot)

section

variable (store : Store) (pubKey : PubKey) (slot : Slot)

def saveProposalHistoryForSlot (signingRoot : Option Root) : Store :=
  let valBucket := (createBucketIfNotExists (store.historicProposals pubKey)).put slot signingRoot
  { store with
    lowestSignedProposals := Function.update store.lowestSignedProposals pubKey
      (some (overrideLowest (store.lowestSignedProposals pubKey) slot))
    highestSignedProposals := Function.update store.highestSignedProposals pubKey
      (some (overrideHighest (store.highestSignedProposals pubKey) slot))
    historicProposals := Function.update store.historicProposals pubKey
      (some (pruneProposalHistoryBySlot config valBucket slot)) }

/-- The refusals of `SlashableProposalCheck` that compare with the lowest signed slot. -/
def lowestProposalError (signingRoot : Root) : Option Error :=
  let (prevSigningRoot, proposalAtSlotExists, prevSigningRootExists) :=
    store.proposalHistoryForSlot pubKey slot
  match store.lowestSignedProposals pubKey with
  | none => none
  | some lowestSignedProposalSlot =>
    if slot < lowestSignedProposalSlot then
      some (.errorf lowestProposalMessage [.number slot, .number lowestSignedProposalSlot])
    else
      let condition1 := !proposalAtSlotExists
      let condition2 := proposalAtSlotExists && !prevSigningRootExists
      let condition3 :=
        proposalAtSlotExists && prevSigningRootExists && prevSigningRoot != signingRoot
      if slot = lowestSignedProposalSlot ∧ (condition1 || condition2 || condition3) then
        some (.errorf repeatProposalMessage [.number slot, .number lowestSignedProposalSlot])
      else none

def slashableProposalCheck (signingRoot : Root) : Except Error Store :=
  let (prevSigningRoot, proposalAtSlotExists, prevSigningRootExists) :=
    store.proposalHistoryForSlot pubKey slot
  match lowestProposalError store pubKey slot signingRoot with
  | some err => .error err
  | none =>
    if proposalAtSlotExists && (!prevSigningRootExists || prevSigningRoot != signingRoot) then
      .error (.errorf failedBlockSignLocalErr [])
    else .ok (saveProposalHistoryForSlot config store pubKey slot (some signingRoot))

end

variable {config : BeaconChainConfig} {store next : Store} {pubKey : PubKey} {slot : Slot}
  {root : Root} (other : Slot)

/-- What the history of the key says about a proposal that was accepted. -/
structure AcceptedProposal (store : Store) (pubKey : PubKey) (slot : Slot) (signingRoot : Root) :
    Prop where
  not_below : ∀ lowest, store.lowestSignedProposals pubKey = some lowest → lowest ≤ slot
  at_lowest : store.lowestSignedProposals pubKey = some slot →
    store.storedProposal pubKey slot ≠ none
  same_root : ∀ stored, store.storedProposal pubKey slot = some stored → stored = some signingRoot

theorem slashableProposalCheck_ok
    (hcheck : slashableProposalCheck config store pubKey slot root = .ok next) :
    AcceptedProposal store pubKey slot root ∧
      next = saveProposalHistoryForSlot config store pubKey slot (some root) := by
  unfold slashableProposalCheck at hcheck
  cases hlowest : lowestProposalError store pubKey slot root with
  | some err => simp [hlowest] at hcheck
  | none =>
    simp only [hlowest] at hcheck
    split_ifs at hcheck with hslash
    have hsame : ∀ stored, store.storedProposal pubKey slot = some stored →
        stored = some root := by
      rintro (_ | stored) hstored
      · simp [proposalHistoryForSlot, hstored] at hslash
      · simpa [proposalHistoryForSlot, hstored] using hslash
    unfold lowestProposalError at hlowest
    refine ⟨⟨fun lowest hbound ↦ ?_, fun hbound ↦ ?_, hsame⟩, (Except.ok.inj hcheck).symm⟩
    · simp only [hbound] at hlowest
      split_ifs at hlowest with hlt
      exact not_lt.1 hlt
    · intro hnone
      simp [hbound, proposalHistoryForSlot, hnone] at hlowest

/-- What saving a proposal for `slot` may prune is at or below the lowest signed slot, where the
first proposal of a key sets that slot itself. -/
def SaveCovered (config : BeaconChainConfig) (store : Store) (pubKey : PubKey) (slot : Slot) :
    Prop :=
  (prunableProposal config slot slot → slot ≤ (store.lowestSignedProposals pubKey).getD slot) ∧
    ∀ valBucket ∈ store.historicProposals pubKey, ∀ entry ∈ valBucket.entries,
      prunableProposal config slot entry.1 →
        entry.1 ≤ (store.lowestSignedProposals pubKey).getD slot

instance : Decidable (SaveCovered config store pubKey slot) :=
  inferInstanceAs (Decidable (_ ∧ ∀ _ ∈ _, _))

theorem storedProposal_save_eq :
    (saveProposalHistoryForSlot config store pubKey slot (some root)).storedProposal pubKey other =
      (((createBucketIfNotExists (store.historicProposals pubKey)).put slot
        (some root)).deleteWhile (prunableProposal config slot)).get other := by
  simp [storedProposal, saveProposalHistoryForSlot, pruneProposalHistoryBySlot]

theorem get_put_proposal :
    ((createBucketIfNotExists (store.historicProposals pubKey)).put slot (some root)).get other =
      if slot = other then some (some root) else store.storedProposal pubKey other := by
  cases hbucket : store.historicProposals pubKey <;>
    simp [createBucketIfNotExists, storedProposal, hbucket]

/-- A covered save keeps a stored slot or loses one that is at or below the lowest slot. -/
theorem storedProposal_save (hcov : SaveCovered config store pubKey slot)
    (root : Root) (other : Slot) :
    (saveProposalHistoryForSlot config store pubKey slot (some root)).storedProposal pubKey other =
        (if slot = other then some (some root) else store.storedProposal pubKey other) ∨
      (saveProposalHistoryForSlot config store pubKey slot (some root)).storedProposal
        pubKey other = none ∧ other ≤ (store.lowestSignedProposals pubKey).getD slot := by
  rw [storedProposal_save_eq, ← get_put_proposal]
  cases hprunable : prunableProposal config slot other with
  | false => exact .inl (Bucket.get_deleteWhile_of_not hprunable)
  | true =>
    cases hafter : (((createBucketIfNotExists (store.historicProposals pubKey)).put slot
        (some root)).deleteWhile (prunableProposal config slot)).get other with
    | some value => exact .inl (Bucket.get_of_get_deleteWhile hafter).symm
    | none =>
      rw [get_put_proposal]
      by_cases hsame : slot = other
      · subst hsame
        exact .inr ⟨rfl, hcov.1 hprunable⟩
      · rw [if_neg hsame]
        cases hstored : store.storedProposal pubKey other with
        | none => exact .inl rfl
        | some stored =>
          obtain ⟨valBucket, hbucket, hget⟩ := Option.bind_eq_some_iff.1 hstored
          have hentry := (valBucket.mem_entries_iff other stored).2 hget
          exact .inr ⟨rfl, hcov.2 valBucket hbucket _ hentry hprunable⟩

/-- A block the key has proposed. -/
structure Proposal where
  slot : Slot
  signingRoot : Root
deriving DecidableEq, Repr

/-- The proposal is stored, or was pruned and its slot is at or below the lowest signed slot. -/
def RecordedProposal (store : Store) (pubKey : PubKey) (proposal : Proposal) : Prop :=
  ∃ lowest, store.lowestSignedProposals pubKey = some lowest ∧
    (store.storedProposal pubKey proposal.slot = some (some proposal.signingRoot) ∨
      store.storedProposal pubKey proposal.slot = none ∧ proposal.slot ≤ lowest)

/-- The invariant of a run: the proposals made so far are recorded, with one root for a slot. -/
structure ProtectsProposals (store : Store) (pubKey : PubKey) (proposals : List Proposal) :
    Prop where
  recorded : ∀ proposal ∈ proposals, RecordedProposal store pubKey proposal
  safe : proposals.Pairwise fun a b ↦ a.slot = b.slot → a.signingRoot = b.signingRoot

variable {proposals : List Proposal} {proposal : Proposal}

/-- A recorded proposal for the same slot is stored, with the root that is accepted again. -/
theorem RecordedProposal.same_root (hrecorded : RecordedProposal store pubKey proposal)
    (hacc : AcceptedProposal store pubKey proposal.slot root) : proposal.signingRoot = root := by
  obtain ⟨lowest, hlowest, hstored | ⟨hnone, hle⟩⟩ := hrecorded
  · exact Option.some.inj (hacc.same_root _ hstored)
  · have heq : lowest = proposal.slot := le_antisymm (hacc.not_below lowest hlowest) hle
    exact absurd hnone (hacc.at_lowest (heq ▸ hlowest))

theorem AcceptedProposal.lowest_save (hacc : AcceptedProposal store pubKey slot root) :
    (saveProposalHistoryForSlot config store pubKey slot (some root)).lowestSignedProposals pubKey =
        some ((store.lowestSignedProposals pubKey).getD slot) := by
  cases hlowest : store.lowestSignedProposals pubKey with
  | none => simp [saveProposalHistoryForSlot, hlowest, overrideLowest]
  | some lowest =>
    have hle := hacc.not_below lowest hlowest
    simp [saveProposalHistoryForSlot, hlowest, overrideLowest_eq_of_le rfl hle]

theorem RecordedProposal.save (hrecorded : RecordedProposal store pubKey proposal)
    (hacc : AcceptedProposal store pubKey slot root) (hcov : SaveCovered config store pubKey slot) :
    RecordedProposal (saveProposalHistoryForSlot config store pubKey slot (some root))
      pubKey proposal := by
  refine ⟨_, hacc.lowest_save, ?_⟩
  rcases storedProposal_save hcov root proposal.slot with hafter | hpruned
  · by_cases hsame : slot = proposal.slot
    · subst hsame
      rw [hafter, hrecorded.same_root hacc]
      simp
    · rw [hafter, if_neg hsame]
      obtain ⟨lowest, hlowest, hstored⟩ := hrecorded
      rw [hlowest, Option.getD_some]
      exact hstored
  · exact .inr hpruned

/-- Saving an accepted proposal keeps the invariant. -/
theorem ProtectsProposals.save (hprot : ProtectsProposals store pubKey proposals)
    (hacc : AcceptedProposal store pubKey slot root) (hcov : SaveCovered config store pubKey slot) :
    ProtectsProposals (saveProposalHistoryForSlot config store pubKey slot (some root))
      pubKey (proposals ++ [⟨slot, root⟩]) where
  recorded := by
    intro proposal hproposal
    rcases List.mem_append.1 hproposal with hold | hnew
    · exact (hprot.recorded proposal hold).save hacc hcov
    · obtain rfl := List.mem_singleton.1 hnew
      refine ⟨_, hacc.lowest_save, ?_⟩
      simpa only [if_true] using storedProposal_save hcov root slot
  safe := by
    rw [List.pairwise_append]
    refine ⟨hprot.safe, List.pairwise_singleton _ _, fun proposal hproposal new hnew ↦ ?_⟩
    obtain rfl := List.mem_singleton.1 hnew
    intro hslot
    exact (hprot.recorded proposal hproposal).same_root (hslot ▸ hacc)

/-- A call of `SlashableProposalCheck`, for any key. -/
structure ProposalCall where
  pubKey : PubKey
  slot : Slot
  signingRoot : Root

inductive ProposalEvent
  | proposed (pubKey : PubKey) (proposal : Proposal)
  | refused (pubKey : PubKey) (err : Error)
deriving DecidableEq

def applyProposalCall (config : BeaconChainConfig) (store : Store) (call : ProposalCall) :
    ProposalEvent × Store :=
  match slashableProposalCheck config store call.pubKey call.slot call.signingRoot with
  | .ok saved => (.proposed call.pubKey ⟨call.slot, call.signingRoot⟩, saved)
  | .error err => (.refused call.pubKey err, store)

/-- The proposals that a key made in a run, oldest first. -/
def proposalsOf (pubKey : PubKey) (events : List ProposalEvent) : List Proposal :=
  events.filterMap fun event ↦
    match event with
    | .proposed key proposal => if key = pubKey then some proposal else none
    | .refused _ _ => none

/-- The calls for the key are covered; calls for other keys are free. -/
def CoveredProposal (config : BeaconChainConfig) (pubKey : PubKey) (store : Store)
    (call : ProposalCall) : Prop :=
  call.pubKey = pubKey → SaveCovered config store pubKey call.slot

instance (call : ProposalCall) : Decidable (CoveredProposal config pubKey store call) :=
  inferInstanceAs (Decidable (_ → _))

/-- The invariant of a key only reads that key's buckets. -/
theorem ProtectsProposals.congr (hprot : ProtectsProposals store pubKey proposals)
    (hbucket : next.historicProposals pubKey = store.historicProposals pubKey)
    (hlowest : next.lowestSignedProposals pubKey = store.lowestSignedProposals pubKey) :
    ProtectsProposals next pubKey proposals where
  recorded := by
    intro proposal hproposal
    unfold RecordedProposal storedProposal
    rw [hbucket, hlowest]
    exact hprot.recorded proposal hproposal
  safe := hprot.safe

theorem ProtectsProposals.step {events : List ProposalEvent} {event : ProposalEvent}
    (hprot : ProtectsProposals store pubKey (proposalsOf pubKey events))
    (hstep : CallStep (applyProposalCall config) (CoveredProposal config pubKey) store event next) :
    ProtectsProposals next pubKey (proposalsOf pubKey (events ++ [event])) := by
  have happend : proposalsOf pubKey (events ++ [event]) =
      proposalsOf pubKey events ++ proposalsOf pubKey [event] := List.filterMap_append
  rw [happend]
  obtain ⟨⟨key, slot, root⟩, hcov, happly⟩ := hstep
  unfold applyProposalCall at happly
  cases hcheck : slashableProposalCheck config store key slot root with
  | error err =>
    simp only [hcheck] at happly
    obtain ⟨rfl, rfl⟩ := Prod.mk.inj happly
    simpa [proposalsOf] using hprot
  | ok saved =>
    simp only [hcheck] at happly
    obtain ⟨rfl, rfl⟩ := Prod.mk.inj happly
    obtain ⟨hacc, rfl⟩ := slashableProposalCheck_ok hcheck
    by_cases hkey : key = pubKey
    · subst hkey
      simpa [proposalsOf] using hprot.save hacc (hcov rfl)
    · have hother : pubKey ≠ key := Ne.symm hkey
      have hnone : proposalsOf pubKey [.proposed key ⟨slot, root⟩] = [] := by
        simp [proposalsOf, hkey]
      rw [hnone, List.append_nil]
      apply hprot.congr
      · simp [saveProposalHistoryForSlot, hother]
      · simp [saveProposalHistoryForSlot, hother]

/-- A key proposes at most one block for a slot in a run in which every save of the key only prunes
slots at or below its lowest signed slot. -/
theorem proposalsOf_same_root (config : BeaconChainConfig) (pubKey : PubKey)
    {events : List ProposalEvent} {last : Store}
    (run : Run (CallStep (applyProposalCall config) (CoveredProposal config pubKey))
      Store.empty events last) :
    (proposalsOf pubKey events).Pairwise fun a b ↦ a.slot = b.slot →
      a.signingRoot = b.signingRoot := by
  have hprot : ProtectsProposals last pubKey (proposalsOf pubKey events) := run.history_invariant
      (fun events store ↦ ProtectsProposals store pubKey (proposalsOf pubKey events))
      ⟨by simp [proposalsOf], List.Pairwise.nil⟩ (fun _ _ _ _ hprot hstep ↦ hprot.step hstep)
  exact hprot.safe

/-- A repeated proposal, and one that prunes the lowest slot. -/
def prunedLowestSlot : List ProposalCall :=
  [⟨0, 5, 1⟩, ⟨0, 100, 2⟩, ⟨0, 100, 2⟩, ⟨0, 100, 3⟩, ⟨0, 1728031, 4⟩]

theorem proposalsOf_same_root_prunedLowestSlot :
    proposalsOf 0 (execute (applyProposalCall mainnetConfig) Store.empty prunedLowestSlot).1 =
        [⟨5, 1⟩, ⟨100, 2⟩, ⟨100, 2⟩, ⟨1728031, 4⟩] ∧
      (proposalsOf 0 (execute (applyProposalCall mainnetConfig) Store.empty
        prunedLowestSlot).1).Pairwise fun a b ↦ a.slot = b.slot → a.signingRoot = b.signingRoot :=
  ⟨by decide +kernel, proposalsOf_same_root mainnetConfig 0
    (run_execute (applyProposalCall mainnetConfig) (CoveredProposal mainnetConfig 0) empty
      prunedLowestSlot (by decide +kernel))⟩

/-- Slot 100 is pruned while the lowest signed slot is 0, and a second root is proposed for it. -/
theorem proposalsOf_two_roots :
    ∃ events last, Run (CallStep (applyProposalCall mainnetConfig) (fun _ _ ↦ True))
      Store.empty events last ∧
      ⟨100, 2⟩ ∈ proposalsOf 0 events ∧ ⟨100, 4⟩ ∈ proposalsOf 0 events := by
  refine ⟨_, _, run_execute (applyProposalCall mainnetConfig) (fun _ _ ↦ True) empty
    [⟨0, 0, 1⟩, ⟨0, 100, 2⟩, ⟨0, 1728128, 3⟩, ⟨0, 100, 4⟩] (by decide +kernel), ?_⟩
  decide +kernel

end Prysm.Validator
