import Prysm.Library.Run
import Prysm.Library.SharedWindow
import Prysm.Primitives

/-!
# The copy-on-write fields of the beacon state

`Copy` shares the large slices of a state with its copy, together with a reference counter for each
field.  A setter writes in place when the counter of the field is one, and takes its own copy of the
slice otherwise.  The elements are numbers: balances, bytes, roots, or the addresses of records,
where the address 0 is `nil`.
-/

namespace Prysm.StateNative.SharedFields

open Library SharedWindow

inductive Field
  | slashings
  | previousEpochParticipationBits
  | currentEpochParticipationBits
  | eth1DataVotes
  | historicalRoots
  | historicalSummaries
  | pendingDeposits
  | pendingPartialWithdrawals
  | pendingConsolidations
deriving DecidableEq, Repr

def Field.all : List Field :=
  [slashings, previousEpochParticipationBits, currentEpochParticipationBits, eth1DataVotes,
    historicalRoots, historicalSummaries, pendingDeposits, pendingPartialWithdrawals,
    pendingConsolidations]

/-- The first version whose states have the field. -/
def Field.since : Field → Version
  | slashings => .phase0
  | previousEpochParticipationBits => .altair
  | currentEpochParticipationBits => .altair
  | eth1DataVotes => .phase0
  | historicalRoots => .phase0
  | historicalSummaries => .capella
  | pendingDeposits => .electra
  | pendingPartialWithdrawals => .electra
  | pendingConsolidations => .electra

/-- The slices and reference counters of the fields of all states, by the ids of the states. -/
abbrev FieldHeap := Heap (ℕ × Field) ℕ

/-- The live states of a copy family with their versions, and the memory they share. -/
structure Family where
  versions : ℕ → Option Version
  heap : FieldHeap
  nextId : ℕ

/-- The argument of `ModifyCurrentParticipationBits`: it changes the cells that it reaches through
the slice it is given, and returns a slice or an error. -/
structure Mutator where
  write : List ℕ → List ℕ
  result : Window → List ℕ → Except Error (Source ℕ)
  length_write : ∀ cells, (write cells).length = cells.length

def errNotSupported (funcName : String) (ver : Version) : Error :=
  .errorf "%s is not supported for %s" [.text funcName, .text ver.string]

/-- A setter on a live state: what it returns, and the memory after it. -/
abbrev Setter := FieldHeap → ℕ → Version → Except Fault Unit × FieldHeap

section Setters

/-- A setter returns an error before it does anything. -/
def refuse (err : Error) : Setter := fun heap _ _ ↦ (.error (.error err), heap)

/-- Go on with the slice and the counter of a field.  A method of a `nil` counter panics. -/
def withField (field : Field) (action : Holding → Setter) : Setter := fun heap id ver ↦
  match heap.holders (id, field) with
  | none => (.error .panic, heap)
  | some h => action h heap id ver

/-- The common part of the setters of whole fields. -/
def setField (field : Field) (val : Source ℕ) : Setter :=
  withField field fun h heap id _ ↦ (.ok (), heap.replace (id, field) h val)

/-- The common part of the setters that append.  The copy has spare cells for `extra` elements, and
an array that is full is replaced by one with `growth` spare cells. -/
def appendField (field : Field) (extra growth : ℕ) (val : ℕ) : Setter :=
  withField field fun h heap id _ ↦
    let (heap, h) := heap.own (id, field) h (List.replicate extra 0)
    let (heap, window) := heap.push h.window val (List.replicate growth 0)
    (.ok (), heap.hold (id, field) { h with window := window })

/-- The common part of the setters that take a mutator. -/
def modifyField (field : Field) (mutator : Mutator) : Setter :=
  withField field fun h heap id _ ↦
    let (heap, h) := heap.own (id, field) h [0]
    let cells := heap.cells h.window
    let heap := heap.write h.window (mutator.write cells)
    match mutator.result h.window cells with
    -- The state keeps the slice that it had before.
    | .error err => (.error (.error err), heap)
    | .ok source =>
      let (heap, window) := heap.resolve source
      (.ok (), heap.hold (id, field) { h with window := window })

variable (val : Source ℕ)

def setSlashings : Setter := setField .slashings val

def updateSlashingsAtIndex (idx val : ℕ) : Setter :=
  withField .slashings fun h heap id _ ↦
    if h.window.length ≤ idx then
      (.error (.error (.errorf "invalid index provided %d" [.number idx])), heap)
    else
      let (heap, h) := heap.own (id, .slashings) h []
      let heap := heap.write h.window ((heap.cells h.window).set idx val)
      (.ok (), heap.hold (id, .slashings) h)

def setPreviousParticipationBits : Setter := fun heap id ver ↦
  if ver = .phase0 then refuse (errNotSupported "SetPreviousParticipationBits" ver) heap id ver
  else setField .previousEpochParticipationBits val heap id ver

def setCurrentParticipationBits : Setter := fun heap id ver ↦
  if ver = .phase0 then refuse (errNotSupported "SetCurrentParticipationBits" ver) heap id ver
  else setField .currentEpochParticipationBits val heap id ver

def appendCurrentParticipationBits (maxDeposits growth val : ℕ) : Setter := fun heap id ver ↦
  if ver = .phase0 then refuse (errNotSupported "AppendCurrentParticipationBits" ver) heap id ver
  else appendField .currentEpochParticipationBits maxDeposits growth val heap id ver

def appendPreviousParticipationBits (maxDeposits growth val : ℕ) : Setter := fun heap id ver ↦
  if ver = .phase0 then refuse (errNotSupported "AppendPreviousParticipationBits" ver) heap id ver
  else appendField .previousEpochParticipationBits maxDeposits growth val heap id ver

def modifyPreviousParticipationBits (mutator : Mutator) : Setter := fun heap id ver ↦
  if ver = .phase0 then refuse (errNotSupported "ModifyPreviousParticipationBits" ver) heap id ver
  else modifyField .previousEpochParticipationBits mutator heap id ver

def modifyCurrentParticipationBits (mutator : Mutator) : Setter := fun heap id ver ↦
  if ver = .phase0 then refuse (errNotSupported "ModifyCurrentParticipationBits" ver) heap id ver
  else modifyField .currentEpochParticipationBits mutator heap id ver

def setEth1DataVotes : Setter := setField .eth1DataVotes val

def appendEth1DataVotes (growth val : ℕ) : Setter := appendField .eth1DataVotes 1 growth val

/-- The roots are copied to a new array. -/
def setHistoricalRoots (val : List ℕ) : Setter := setField .historicalRoots (.new val [])

def appendHistoricalRoots (growth root : ℕ) : Setter := fun heap id ver ↦
  if Version.bellatrix.number < ver.number then
    refuse (errNotSupported "AppendHistoricalRoots" ver) heap id ver
  else appendField .historicalRoots 1 growth root heap id ver

def appendHistoricalSummaries (growth summary : ℕ) : Setter := fun heap id ver ↦
  if ver.number < Version.capella.number then
    refuse (errNotSupported "AppendHistoricalSummaries" ver) heap id ver
  else appendField .historicalSummaries 1 growth summary heap id ver

def appendPendingDeposit (growth pd : ℕ) : Setter := fun heap id ver ↦
  if ver.number < Version.electra.number then
    refuse (errNotSupported "AppendPendingDeposit" ver) heap id ver
  else if pd = 0 then refuse (.errorf "cannot append nil pending deposit" []) heap id ver
  else appendField .pendingDeposits 1 growth pd heap id ver

def setPendingDeposits : Setter := fun heap id ver ↦
  if ver.number < Version.electra.number then
    refuse (errNotSupported "SetPendingDeposits" ver) heap id ver
  else setField .pendingDeposits val heap id ver

def appendPendingPartialWithdrawal (growth ppw : ℕ) : Setter := fun heap id ver ↦
  if ver.number < Version.electra.number then
    refuse (errNotSupported "AppendPendingPartialWithdrawal" ver) heap id ver
  else if ppw = 0 then
    refuse (.errorf "cannot append nil pending partial withdrawal" []) heap id ver
  else appendField .pendingPartialWithdrawals 1 growth ppw heap id ver

def dequeuePendingPartialWithdrawals (n : ℕ) : Setter := fun heap id ver ↦
  if ver.number < Version.electra.number then
    refuse (errNotSupported "DequeuePendingPartialWithdrawals" ver) heap id ver
  else withField .pendingPartialWithdrawals (fun h heap id ver ↦
    if h.window.length < n then
      refuse (.errorf "cannot dequeue more withdrawals than are in the queue" []) heap id ver
    else if n = 0 then (.ok (), heap)
    else
      let (heap, h) := heap.own (id, .pendingPartialWithdrawals) h []
      let window := ⟨h.window.array, h.window.start + n, h.window.length - n⟩
      (.ok (), heap.hold (id, .pendingPartialWithdrawals) { h with window := window })) heap id ver

def appendPendingConsolidation (growth val : ℕ) : Setter := fun heap id ver ↦
  if ver.number < Version.electra.number then
    refuse (errNotSupported "AppendPendingConsolidation" ver) heap id ver
  else if val = 0 then refuse (.errorf "cannot append nil pending consolidation" []) heap id ver
  else appendField .pendingConsolidations 1 growth val heap id ver

def setPendingConsolidations : Setter := fun heap id ver ↦
  if ver.number < Version.electra.number then
    refuse (errNotSupported "SetPendingConsolidations" ver) heap id ver
  else setField .pendingConsolidations val heap id ver

end Setters

section Requests

/-- The calls of the setters.  Where the runtime may leave spare cells in a new array, their number
is an argument. -/
inductive SetterCall
  | setSlashings (val : Source ℕ)
  | updateSlashingsAtIndex (idx val : ℕ)
  | setPreviousParticipationBits (val : Source ℕ)
  | setCurrentParticipationBits (val : Source ℕ)
  | appendCurrentParticipationBits (maxDeposits growth val : ℕ)
  | appendPreviousParticipationBits (maxDeposits growth val : ℕ)
  | modifyPreviousParticipationBits (mutator : Mutator)
  | modifyCurrentParticipationBits (mutator : Mutator)
  | setEth1DataVotes (val : Source ℕ)
  | appendEth1DataVotes (growth val : ℕ)
  | setHistoricalRoots (val : List ℕ)
  | appendHistoricalRoots (growth root : ℕ)
  | appendHistoricalSummaries (growth summary : ℕ)
  | appendPendingDeposit (growth pd : ℕ)
  | setPendingDeposits (val : Source ℕ)
  | appendPendingPartialWithdrawal (growth ppw : ℕ)
  | dequeuePendingPartialWithdrawals (n : ℕ)
  | appendPendingConsolidation (growth val : ℕ)
  | setPendingConsolidations (val : Source ℕ)

def SetterCall.run : SetterCall → Setter
  | setSlashings val => SharedFields.setSlashings val
  | updateSlashingsAtIndex idx val => SharedFields.updateSlashingsAtIndex idx val
  | setPreviousParticipationBits val => SharedFields.setPreviousParticipationBits val
  | setCurrentParticipationBits val => SharedFields.setCurrentParticipationBits val
  | appendCurrentParticipationBits maxDeposits growth val =>
    SharedFields.appendCurrentParticipationBits maxDeposits growth val
  | appendPreviousParticipationBits maxDeposits growth val =>
    SharedFields.appendPreviousParticipationBits maxDeposits growth val
  | modifyPreviousParticipationBits mutator => SharedFields.modifyPreviousParticipationBits mutator
  | modifyCurrentParticipationBits mutator => SharedFields.modifyCurrentParticipationBits mutator
  | setEth1DataVotes val => SharedFields.setEth1DataVotes val
  | appendEth1DataVotes growth val => SharedFields.appendEth1DataVotes growth val
  | setHistoricalRoots val => SharedFields.setHistoricalRoots val
  | appendHistoricalRoots growth root => SharedFields.appendHistoricalRoots growth root
  | appendHistoricalSummaries growth summary =>
    SharedFields.appendHistoricalSummaries growth summary
  | appendPendingDeposit growth pd => SharedFields.appendPendingDeposit growth pd
  | setPendingDeposits val => SharedFields.setPendingDeposits val
  | appendPendingPartialWithdrawal growth ppw =>
    SharedFields.appendPendingPartialWithdrawal growth ppw
  | dequeuePendingPartialWithdrawals n => SharedFields.dequeuePendingPartialWithdrawals n
  | appendPendingConsolidation growth val => SharedFields.appendPendingConsolidation growth val
  | setPendingConsolidations val => SharedFields.setPendingConsolidations val

inductive Request
  | set (call : SetterCall)
  | copy
  | finalizerCleanup

namespace Family

/-- A fresh state of a version, whose slices have the given contents. -/
def new (version : Version) (contents : Field → List ℕ) : Family where
  versions := Function.update (fun _ ↦ none) 0 (some version)
  heap := Field.all.foldl (fun heap field ↦
    if version.number < field.since.number then heap
    else heap.adopt (0, field) (contents field)) .empty
  nextId := 1

def copy (f : Family) (id : ℕ) (version : Version) : Family where
  versions := Function.update f.versions f.nextId (some version)
  heap := Field.all.foldl (fun heap field ↦ heap.share (id, field) (f.nextId, field)) f.heap
  nextId := f.nextId + 1

/-- `finalizerCleanup`, which runs when a state is garbage collected. -/
def finalizerCleanup (f : Family) (id : ℕ) : Family where
  versions := Function.update f.versions id none
  heap := Field.all.foldl (fun heap field ↦ heap.drop (id, field)) f.heap
  nextId := f.nextId

/-- The elements that a getter of a state copies. -/
def elements (f : Family) (id : ℕ) (field : Field) : Option (List ℕ) :=
  (f.heap.holders (id, field)).map fun h ↦ f.heap.contents h.window

end Family

def Request.apply (f : Family) (id : ℕ) (version : Version) : Request → Except Fault Unit × Family
  | set call =>
    ((call.run f.heap id version).1, { f with heap := (call.run f.heap id version).2 })
  | copy => (.ok (), f.copy id version)
  | finalizerCleanup => (.ok (), f.finalizerCleanup id)

/-- A request to the state with the given id. -/
def perform (f : Family) (call : ℕ × Request) : Except Fault Unit × Family :=
  match f.versions call.1 with
  | none => (.error .panic, f)
  | some version => call.2.apply f call.1 version

end Requests

section Conditions

variable (heap : FieldHeap) (id : ℕ)

/-- A slice that is handed to a field of a state is not in an array of another field or state. -/
def Unaliased (field : Field) (val : Source ℕ) : Prop :=
  ∀ window, val = .existing window →
    window.array < heap.next ∧ heap.Exclusive (id, field) window.array

/-- The mutator fails only when the slice is not shared, and the slice it returns is not in an array
of another field or state. -/
def MutatorKept (field : Field) (mutator : Mutator) : Prop :=
  ∀ h, heap.holders (id, field) = some h →
    match mutator.result (heap.own (id, field) h [0]).2.window
        ((heap.own (id, field) h [0]).1.cells (heap.own (id, field) h [0]).2.window) with
    | .error _ => heap.counts h.counter ≤ 1
    | .ok source => Unaliased (heap.own (id, field) h [0]).1 id field source

def SlicesKept : SetterCall → Prop
  | .setSlashings val => Unaliased heap id .slashings val
  | .setPreviousParticipationBits val => Unaliased heap id .previousEpochParticipationBits val
  | .setCurrentParticipationBits val => Unaliased heap id .currentEpochParticipationBits val
  | .modifyPreviousParticipationBits mutator =>
    MutatorKept heap id .previousEpochParticipationBits mutator
  | .modifyCurrentParticipationBits mutator =>
    MutatorKept heap id .currentEpochParticipationBits mutator
  | .setEth1DataVotes val => Unaliased heap id .eth1DataVotes val
  | .setPendingDeposits val => Unaliased heap id .pendingDeposits val
  | .setPendingConsolidations val => Unaliased heap id .pendingConsolidations val
  | _ => True

end Conditions

/-- The calls that keep the states of a family independent. -/
def CallKept (f : Family) : ℕ × Request → Prop
  | (id, .set call) => SlicesKept f.heap id call
  | _ => True

end Prysm.StateNative.SharedFields
