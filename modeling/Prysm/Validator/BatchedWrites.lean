import Prysm.Validator.AttesterProtection
import Prysm.Library.Run

/-!
# Batched attestation writes

`SaveAttestationForPubKey` hands its record to a background routine and waits for the next message
of an event feed.  The parties are modelled with their own steps: a caller sends its record on a
buffered channel, subscribes, and returns the first response; the routine receives and queues
records, flushes the queue in one transaction, and sends the result to all subscribers.

The response carries no identity.  A caller whose record is still on the channel when the routine
sends the result of a flush is answered by a flush that did not contain its record, so a record is
durable once acknowledged only if no such caller is subscribed at that moment.

The event feed is the documented behaviour of `event.Feed`: `Send` delivers to the channels that are
subscribed when it starts, waits for each to have room, and returns when all have received or are
unsubscribed.
-/

namespace Prysm.Validator

open Function Prysm.Library Option

/-- The capacity of the queue and of the channel. -/
def attestationBatchCapacity : ℕ := 2048

variable {Caller : Type*}

/-- Where one call of `SaveAttestationForPubKey` stands. -/
inductive CallerState
  | start
  | sent (record : AttestationRecord)
  | waiting (record : AttestationRecord)
  | answered (record : AttestationRecord) (response : Option Error)
  | returned (record : AttestationRecord) (response : Option Error)
deriving DecidableEq

/-- Where `batchAttestationWrites` stands: in its `select`, in `flushAttestationRecords` before the
transaction, after it with the error to forward, or inside the feed's `Send`. -/
inductive Routine (Caller : Type*)
  | select
  | flushing (records : List (Caller × AttestationRecord))
  | notifying (err : Option Error)
  | delivering (err : Option Error) (pending : List Caller)
deriving DecidableEq

/-- The records taken from the queue by a flush whose transaction is not over. -/
def Routine.inFlight : Routine Caller → List (Caller × AttestationRecord)
  | .flushing records => records
  | _ => []

/-- A save request is kept with the caller that made it.  `committed` lists the requests whose
transaction has committed; it is not part of the program's state. -/
structure SaveState (Caller : Type*) where
  callers : Caller → CallerState
  subscribers : List Caller
  batchedAttestationsChan : List (Caller × AttestationRecord)
  batchedAttestations : List (Caller × AttestationRecord)
  routine : Routine Caller
  store : Store
  committed : List (Caller × AttestationRecord)

/-- `NewKVStore` on a database, with no call made yet. -/
def SaveState.init (store : Store) : SaveState Caller where
  callers := fun _ ↦ .start
  subscribers := []
  batchedAttestationsChan := []
  batchedAttestations := []
  routine := .select
  store := store
  committed := []

/-- The atomic steps of the callers and of the routine. -/
inductive SaveAction (Caller : Type*)
  | send (caller : Caller) (record : AttestationRecord)
  | subscribe (caller : Caller)
  | respond (caller : Caller)
  | receive
  | tick
  | transaction (err : Option Error)
  | notify
  | deliver (caller : Caller)
  | unsubscribed (caller : Caller)
  | notified

namespace SaveState

/-- The request is on the channel, queued, in the running flush, or committed. -/
def Held (state : SaveState Caller) (request : Caller × AttestationRecord) : Prop :=
  request ∈ state.batchedAttestationsChan ∨ request ∈ state.batchedAttestations ∨
    request ∈ state.routine.inFlight ∨ request ∈ state.committed

/-- The invariant of a run from the database `initial`. -/
structure Durable (initial : Store) (state : SaveState Caller) : Prop where
  store_eq : state.store = saveAttestationRecords initial (state.committed.map Prod.snd)
  held : ∀ caller record, state.callers caller = .sent record ∨
    state.callers caller = .waiting record → state.Held (caller, record)
  subscribed : ∀ caller ∈ state.subscribers, state.callers caller ≠ .start ∧
    ∀ record, state.callers caller ≠ .sent record
  pending_subscribed : ∀ err pending, state.routine = .delivering err pending →
    ∀ caller ∈ pending, state.callers caller ≠ .start ∧
      ∀ record, state.callers caller ≠ .sent record
  flushing_queue : ∀ records, state.routine = .flushing records → state.batchedAttestations = []
  notifying_queue : state.routine = .notifying none → state.batchedAttestations = []
  delivering : ∀ pending, state.routine = .delivering none pending → ∀ caller ∈ pending,
    ∀ record, state.callers caller = .waiting record → (caller, record) ∈ state.committed
  acknowledged : ∀ caller record, state.callers caller = .answered record none ∨
    state.callers caller = .returned record none → (caller, record) ∈ state.committed

open SaveState

theorem durable_init (initial : Store) : Durable initial (init initial : SaveState Caller) := by
  constructor <;> simp [init, saveAttestationRecords]

variable [DecidableEq Caller] {initial : Store} {state next : SaveState Caller}

/-- One step, when it is enabled. -/
def act (state : SaveState Caller) : SaveAction Caller → Option (SaveState Caller)
  | .send caller record =>
    if state.callers caller = .start ∧
        state.batchedAttestationsChan.length < attestationBatchCapacity then
      some { state with
        callers := update state.callers caller (.sent record)
        batchedAttestationsChan := state.batchedAttestationsChan ++ [(caller, record)] }
    else none
  | .subscribe caller =>
    match state.callers caller with
    | .sent record => some { state with
        callers := update state.callers caller (.waiting record)
        subscribers := state.subscribers ++ [caller] }
    | _ => none
  | .respond caller =>
    match state.callers caller with
    | .answered record response => some { state with
        callers := update state.callers caller (.returned record response)
        subscribers := state.subscribers.erase caller }
    | _ => none
  | .receive =>
    match state.routine, state.batchedAttestationsChan with
    | .select, request :: rest =>
      let queued := state.batchedAttestations ++ [request]
      if queued.length ≥ attestationBatchCapacity then
        some { state with
          batchedAttestationsChan := rest
          batchedAttestations := []
          routine := .flushing queued }
      else some { state with batchedAttestationsChan := rest, batchedAttestations := queued }
    | _, _ => none
  | .tick =>
    match state.routine with
    | .select =>
      if state.batchedAttestations.length > 0 then
        some { state with
          batchedAttestations := []
          routine := .flushing state.batchedAttestations }
      else some state
    | _ => none
  | .transaction err =>
    match state.routine, err with
    | .flushing records, none => some { state with
        store := saveAttestationRecords state.store (records.map Prod.snd)
        committed := state.committed ++ records
        routine := .notifying none }
    | .flushing records, some err => some { state with
        batchedAttestations := state.batchedAttestations ++ records
        routine := .notifying (some err) }
    | _, _ => none
  | .notify =>
    match state.routine with
    | .notifying err => some { state with routine := .delivering err state.subscribers }
    | _ => none
  | .deliver caller =>
    match state.routine, state.callers caller with
    | .delivering err pending, .waiting record =>
      if caller ∈ pending then
        some { state with
          callers := update state.callers caller (.answered record err)
          routine := .delivering err (pending.erase caller) }
      else none
    | _, _ => none
  | .unsubscribed caller =>
    match state.routine with
    | .delivering err pending =>
      if caller ∈ pending ∧ caller ∉ state.subscribers then
        some { state with routine := .delivering err (pending.erase caller) }
      else none
    | _ => none
  | .notified =>
    match state.routine with
    | .delivering _ [] => some { state with routine := .select }
    | _ => none

/-- The routine answers a caller only with a flush that it took part in. -/
def NotifyCovered (state : SaveState Caller) : SaveAction Caller → Prop
  | .notify => state.routine = .notifying none → ∀ request ∈ state.batchedAttestationsChan,
      state.callers request.1 ≠ .waiting request.2
  | _ => True

attribute [local simp] act

open Routine

omit [DecidableEq Caller] in
/-- With the queue flushed and no waiting caller's record on the channel, every waiting caller's
record is committed. -/
theorem Durable.committed (hdurable : Durable initial state) (hcov : state.NotifyCovered .notify)
    (hroutine : state.routine = .notifying none) (caller : Caller) (record : AttestationRecord)
    (hwaiting : state.callers caller = .waiting record) : (caller, record) ∈ state.committed := by
  rcases hdurable.held caller record (.inr hwaiting) with hchan | hqueued | hflight | hdone
  · exact absurd hwaiting (hcov hroutine _ hchan)
  · simp [hdurable.notifying_queue hroutine] at hqueued
  · simp [hroutine, inFlight] at hflight
  · exact hdone

/-- One step of any party, at which no uncommitted caller is answered. -/
def CoveredStep (state : SaveState Caller) (action : SaveAction Caller)
    (next : SaveState Caller) : Prop :=
  state.NotifyCovered action ∧ state.act action = some next

theorem Durable.step {action : SaveAction Caller} (hdurable : Durable initial state)
    (hstep : CoveredStep state action next) : Durable initial next := by
  obtain ⟨hcov, hnext⟩ := hstep
  have hheld := hdurable.held
  cases action with
  | send caller record =>
    -- The record is now on the channel; the caller was neither subscribed nor answered.
    simp only [act] at hnext
    split_ifs at hnext with henabled
    obtain rfl := some.inj hnext
    exact { hdurable with
      held := by grind [Held, update_apply]
      subscribed := by grind [update_apply, hdurable.subscribed]
      pending_subscribed := by grind [update_apply, hdurable.pending_subscribed]
      delivering := by grind [update_apply, hdurable.delivering]
      acknowledged := by grind [update_apply, hdurable.acknowledged] }
  | subscribe caller | respond caller =>
    -- A delivery that is under way does not wait for a new subscriber.
    simp only [act] at hnext
    split at hnext
    · obtain rfl := some.inj hnext
      exact { hdurable with
        held := by grind [Held, update_apply]
        subscribed := by grind [update_apply, hdurable.subscribed, List.mem_of_mem_erase]
        pending_subscribed := by grind [update_apply, hdurable.pending_subscribed]
        delivering := by grind [update_apply, hdurable.delivering, hdurable.pending_subscribed]
        acknowledged := by grind [update_apply, hdurable.acknowledged] }
    · cases hnext
  | receive =>
    -- The request moves from the channel to the queue, or with the full queue to the flush.
    simp only [act] at hnext
    split at hnext
    · split_ifs at hnext <;> obtain rfl := some.inj hnext
      · exact { hdurable with
          held := by grind [Held, inFlight]
          pending_subscribed := nofun
          flushing_queue := fun _ _ ↦ rfl
          notifying_queue := nofun
          delivering := nofun }
      · exact { hdurable with
          held := by grind [Held]
          flushing_queue := by grind
          notifying_queue := by grind }
    · cases hnext
  | tick =>
    simp only [act] at hnext
    split at hnext
    · split_ifs at hnext <;> obtain rfl := some.inj hnext
      · exact { hdurable with
          held := by grind [Held, inFlight]
          pending_subscribed := nofun
          flushing_queue := fun _ _ ↦ rfl
          notifying_queue := nofun
          delivering := nofun }
      · exact hdurable
    · cases hnext
  | transaction =>
    -- The flush commits its records, or returns them to the queue with an error to forward.
    simp only [act] at hnext
    split at hnext
    · obtain rfl := some.inj hnext
      exact { hdurable with
        store_eq := by
          simp only [hdurable.store_eq, saveAttestationRecords, List.map_append,
            List.foldl_append]
        held := by grind [Held, inFlight]
        pending_subscribed := nofun
        flushing_queue := nofun
        notifying_queue := fun _ ↦ hdurable.flushing_queue _ ‹_›
        delivering := nofun
        acknowledged := fun caller record hdone ↦
          List.mem_append_left _ (hdurable.acknowledged caller record hdone) }
    · obtain rfl := some.inj hnext
      exact { hdurable with
        held := by grind [Held, inFlight]
        pending_subscribed := nofun
        flushing_queue := nofun
        notifying_queue := nofun
        delivering := nofun }
    · cases hnext
  | notify =>
    -- The step that matters: the callers that are answered have their records committed.
    simp only [act] at hnext
    split at hnext
    · obtain rfl := some.inj hnext
      exact { hdurable with
        held := by grind [Held, inFlight]
        pending_subscribed := by grind [hdurable.subscribed]
        flushing_queue := nofun
        notifying_queue := nofun
        delivering := by grind [hdurable.committed hcov] }
    · cases hnext
  | deliver caller =>
    simp only [act] at hnext
    split at hnext
    · split_ifs at hnext
      obtain rfl := some.inj hnext
      exact { hdurable with
        held := by grind [Held, inFlight, update_apply]
        subscribed := by grind [update_apply, hdurable.subscribed]
        pending_subscribed := by
          grind [update_apply, hdurable.pending_subscribed, List.mem_of_mem_erase]
        flushing_queue := nofun
        notifying_queue := nofun
        delivering := by grind [update_apply, hdurable.delivering, List.mem_of_mem_erase]
        acknowledged := by grind [update_apply, hdurable.acknowledged, hdurable.delivering] }
    · cases hnext
  | unsubscribed caller =>
    simp only [act] at hnext
    split at hnext
    · split_ifs at hnext
      obtain rfl := some.inj hnext
      exact { hdurable with
        held := by grind [Held, inFlight]
        pending_subscribed := by grind [hdurable.pending_subscribed, List.mem_of_mem_erase]
        flushing_queue := nofun
        notifying_queue := nofun
        delivering := by grind [hdurable.delivering, List.mem_of_mem_erase] }
    · cases hnext
  | notified =>
    simp only [act] at hnext
    split at hnext
    · obtain rfl := some.inj hnext
      exact { hdurable with
        held := by grind [Held, inFlight]
        pending_subscribed := nofun
        flushing_queue := nofun
        notifying_queue := nofun
        delivering := nofun }
    · cases hnext

/-- In a run in which no waiting caller's record is still on the channel when the routine sends the
result of a committed flush, a call that returned `nil` has its record in the database: it is among
the committed requests, and the store is the initial one with exactly those saved, in order. -/
theorem acknowledged_committed (initial : Store) {actions : List (SaveAction Caller)}
    {last : SaveState Caller}
    (run : Run CoveredStep (SaveState.init initial) actions last) {caller : Caller}
    {record : AttestationRecord} (hreturned : last.callers caller = .returned record none) :
    (caller, record) ∈ last.committed ∧
      last.store = saveAttestationRecords initial (last.committed.map Prod.snd) := by
  have hdurable : Durable initial last :=
    run.invariant (Durable initial) (durable_init initial) (fun _ _ _ hst ↦ hst.step)
  exact ⟨hdurable.acknowledged caller record (.inr hreturned), hdurable.store_eq⟩

instance (state : SaveState Caller) : (action : SaveAction Caller) →
    Decidable (state.NotifyCovered action)
  | .notify => inferInstanceAs (Decidable (_ → ∀ _ ∈ _, _))
  | .send _ _ | .subscribe _ | .respond _ | .receive | .tick | .transaction _ | .deliver _
  | .unsubscribed _ | .notified => inferInstanceAs (Decidable True)

section

variable (state : SaveState Caller) (action : SaveAction Caller)

/-- The covered steps as a partial function. -/
def coveredAct : Option (SaveState Caller) :=
  if state.NotifyCovered action then state.act action else none

theorem coveredStep_of_coveredAct (next : SaveState Caller)
    (hnext : state.coveredAct action = some next) : CoveredStep state action next := by
  unfold coveredAct at hnext
  split_ifs at hnext with hcov
  exact ⟨hcov, hnext⟩

end

/-- Two callers whose records are written by one flush. -/
def oneFlush : List (SaveAction ℕ) :=
  [.send 0 ⟨0, 0, 1, some 1⟩, .send 1 ⟨1, 0, 1, some 2⟩, .receive, .subscribe 0, .receive,
    .subscribe 1, .tick, .transaction none, .notify, .deliver 1, .respond 1]

theorem acknowledged_committed_oneFlush :
    ∃ last : SaveState ℕ, last.callers 1 = .returned ⟨1, 0, 1, some 2⟩ none ∧
      (1, ⟨1, 0, 1, some 2⟩) ∈ last.committed ∧
      last.store = saveAttestationRecords Store.empty (last.committed.map Prod.snd) := by
  have henabled : (oneFlush.foldlM coveredAct (init Store.empty)).isSome := by
    decide +kernel
  have hreturned : ((oneFlush.foldlM coveredAct (init Store.empty)).get
      henabled).callers 1 = .returned ⟨1, 0, 1, some 2⟩ none := by
    decide +kernel +revert
  have run := run_of_foldlM coveredAct coveredStep_of_coveredAct (some_get henabled).symm
  exact ⟨_, hreturned, acknowledged_committed Store.empty run hreturned⟩

/-- The second caller sends its record and subscribes after the flush of the first caller's record
was taken from the queue: it is answered by that flush, and its own record is not in the store. -/
def answeredByEarlierFlush : List (SaveAction ℕ) :=
  [.send 0 ⟨0, 0, 1, some 1⟩, .receive, .tick, .send 1 ⟨1, 0, 1, some 2⟩, .subscribe 1,
    .transaction none, .notify, .deliver 1, .respond 1]

theorem acknowledged_not_committed :
    ∃ last : SaveState ℕ, Run (fun state action next ↦ act state action = some next)
      (SaveState.init Store.empty) answeredByEarlierFlush last ∧
      last.callers 1 = .returned ⟨1, 0, 1, some 2⟩ none ∧
      (1, ⟨1, 0, 1, some 2⟩) ∉ last.committed ∧ last.store.storedSigningRoot 1 1 = none := by
  have henabled : (answeredByEarlierFlush.foldlM act (init Store.empty)).isSome := by
    decide +kernel
  refine ⟨(answeredByEarlierFlush.foldlM act (init Store.empty)).get henabled,
    run_of_foldlM act (fun _ _ _ hnext ↦ hnext) (some_get henabled).symm, ?_⟩
  decide +kernel +revert

end SaveState

end Prysm.Validator
