import Prysm.Slots

/-!
# Justification and finalization

The functions of `core/epoch/precompute/justification_finalization.go`, with the block root lookup
of `core/helpers/block.go`, and the specification's `weigh_justification_and_finalization` that they
implement.  The source decides the new justified checkpoint from the shifted justification bits, the
specification from the balances.
-/

namespace Prysm.Precompute

/-- The constants of the beacon chain configuration that justification depends on. -/
structure FinalityConfig extends BeaconChainConfig where
  slotsPerHistoricalRoot : ℕ
  effectiveBalanceIncrement : ℕ
  genesisEpoch_eq : genesisEpoch = 0
  effectiveBalanceIncrement_pos : 0 < effectiveBalanceIncrement
  one_lt_slotsPerEpoch : 1 < slotsPerEpoch
  two_epochs_le : 2 * slotsPerEpoch ≤ slotsPerHistoricalRoot
  slotsPerHistoricalRoot_lt : slotsPerHistoricalRoot < 2 ^ 64

instance : Coe FinalityConfig BeaconChainConfig where coe config := config.toBeaconChainConfig

/-- The values of `params.MainnetConfig`. -/
def mainnetFinality : FinalityConfig where
  toBeaconChainConfig := mainnetConfig
  slotsPerHistoricalRoot := 8192
  effectiveBalanceIncrement := 10 ^ 9
  genesisEpoch_eq := rfl
  effectiveBalanceIncrement_pos := by decide
  one_lt_slotsPerEpoch := by decide
  two_epochs_le := by decide
  slotsPerHistoricalRoot_lt := by decide

/-- The fields of the beacon state that justification reads and writes.  `blockRoots` is a vector of
`slotsPerHistoricalRoot` entries, read at indices below that length only. -/
structure FinalityState where
  slot : Slot
  blockRoots : ℕ → Root
  justificationBits : BitVec 4
  previousJustifiedCheckpoint : Checkpoint
  currentJustifiedCheckpoint : Checkpoint
  finalizedCheckpoint : Checkpoint

variable (config : FinalityConfig) (st : FinalityState)

/-- `time.CurrentEpoch`. -/
def currentEpoch : Epoch := toEpoch config st.slot

/-- `time.PrevEpoch`. -/
def prevEpoch : Epoch :=
  if currentEpoch config st = 0 then 0 else currentEpoch config st - 1

/-- `helpers.BlockRootAtSlot`. -/
def blockRootAtSlot (slot : Slot) : Except Fault Root :=
  if 2 ^ 64 - 1 - slot < config.slotsPerHistoricalRoot then
    .error (.error (.errorf "slot overflows uint64" []))
  else if slot ≥ st.slot ∨ st.slot > slot + config.slotsPerHistoricalRoot then
    .error (.error (.errorf "slot %d out of bounds" [.number slot]))
  else
    .ok (st.blockRoots (slot % config.slotsPerHistoricalRoot))

/-- `helpers.BlockRoot`. -/
def blockRoot (epoch : Epoch) : Except Fault Root := do
  let slot ← epochStart config epoch
  blockRootAtSlot config st slot

/-- The operations of `bitfield.Bitvector4`, with what is assumed of them. -/
class Bitvector4 where
  shift : BitVec 4 → ℤ → BitVec 4
  setBitAt : BitVec 4 → ℕ → Bool → BitVec 4
  bitAt : BitVec 4 → ℕ → Bool
  shift_one (bits : BitVec 4) : shift bits 1 = bits <<< 1
  setBitAt_true (bits : BitVec 4) {idx : ℕ} :
    idx < 4 → setBitAt bits idx true = bits ||| 1#4 <<< idx
  bitAt_eq (bits : BitVec 4) (idx : ℕ) : bitAt bits idx = bits.getLsbD idx

open Bitvector4

variable [Bitvector4]

def processJustificationBits
    (totalActiveBalance prevEpochTargetBalance currEpochTargetBalance : ℕ) : BitVec 4 :=
  let newBits := shift st.justificationBits 1
  let newBits :=
    if 3 * prevEpochTargetBalance % 2 ^ 64 ≥ 2 * totalActiveBalance % 2 ^ 64 then
      setBitAt newBits 1 true
    else newBits
  if 3 * currEpochTargetBalance % 2 ^ 64 ≥ 2 * totalActiveBalance % 2 ^ 64 then
    setBitAt newBits 0 true
  else newBits

section

variable (newBits : BitVec 4)

/-- The justified checkpoint that `computeCheckpoints` returns. -/
def computeJustified : Except Fault Checkpoint :=
  let justified := st.currentJustifiedCheckpoint
  if bitAt newBits 0 ∧ currentEpoch config st ≥ justified.epoch then do
    let root ← wrapf (blockRoot config st (currentEpoch config st))
      "could not get block root for current epoch %d" [.number (currentEpoch config st)]
    .ok ⟨currentEpoch config st, root⟩
  else if bitAt newBits 1 ∧ prevEpoch config st ≥ justified.epoch then do
    let root ← wrapf (blockRoot config st (prevEpoch config st))
      "could not get block root for previous epoch %d" [.number (prevEpoch config st)]
    .ok ⟨prevEpoch config st, root⟩
  else
    .ok justified

/-- The finalized checkpoint that `computeCheckpoints` returns: the last of its four rules that
applies decides. -/
def computeFinalized : Checkpoint :=
  let oldPrev := st.previousJustifiedCheckpoint
  let oldCurr := st.currentJustifiedCheckpoint
  let epoch := currentEpoch config st
  let finalized := st.finalizedCheckpoint
  let finalized :=
    if newBits &&& 0x0E#4 = 0x0E#4 ∧ (oldPrev.epoch + 3) % 2 ^ 64 = epoch then oldPrev
    else finalized
  let finalized :=
    if newBits &&& 0x06#4 = 0x06#4 ∧ (oldPrev.epoch + 2) % 2 ^ 64 = epoch then oldPrev
    else finalized
  let finalized :=
    if newBits &&& 0x07#4 = 0x07#4 ∧ (oldCurr.epoch + 2) % 2 ^ 64 = epoch then oldCurr
    else finalized
  if newBits &&& 0x03#4 = 0x03#4 ∧ (oldCurr.epoch + 1) % 2 ^ 64 = epoch then oldCurr
  else finalized

def computeCheckpoints : Except Fault (Checkpoint × Checkpoint) := do
  let justified ← computeJustified config st newBits
  .ok (justified, computeFinalized config st newBits)

def weighJustificationAndFinalization : Except Fault FinalityState := do
  let (justified, finalized) ← computeCheckpoints config st newBits
  .ok { st with
    previousJustifiedCheckpoint := st.currentJustifiedCheckpoint
    currentJustifiedCheckpoint := justified
    justificationBits := newBits
    finalizedCheckpoint := finalized }

end

/-- The three totals of `precompute.Balance` that justification reads. -/
structure TargetBalances where
  activeCurrentEpoch : ℕ
  prevEpochTargetAttested : ℕ
  currentEpochTargetAttested : ℕ
deriving DecidableEq, Repr

def processJustificationAndFinalizationPreCompute (bal : TargetBalances) :
    Except Fault FinalityState := do
  let canProcessSlot ← epochStart config 2
  if st.slot ≤ canProcessSlot then
    .ok st
  else
    weighJustificationAndFinalization config st (processJustificationBits st
      bal.activeCurrentEpoch bal.prevEpochTargetAttested bal.currentEpochTargetAttested)

/-- The fields of the specification's state that `weigh_justification_and_finalization` writes.  The
justification bits are a list of four, the most recent epoch first. -/
@[ext]
structure SpecState where
  justificationBits : List Bool
  previousJustifiedCheckpoint : Checkpoint
  currentJustifiedCheckpoint : Checkpoint
  finalizedCheckpoint : Checkpoint
deriving DecidableEq, Repr

/-- The specification's `get_block_root`.  It has no value when the assertion fails or the sum of
the assertion does not fit into 64 bits. -/
def getBlockRoot (stateSlot : Slot) (blockRoots : ℕ → Root) (epoch : Epoch) : Option Root :=
  let slot := config.slotsPerEpoch * epoch
  if slot + config.slotsPerHistoricalRoot < 2 ^ 64 ∧ slot < stateSlot ∧
      stateSlot ≤ slot + config.slotsPerHistoricalRoot then
    some (blockRoots (slot % config.slotsPerHistoricalRoot))
  else none

variable (blockRootOf : Epoch → Option Root)

/-- The first half of `weigh_justification_and_finalization`: the new justification bits and the new
current justified checkpoint. -/
def specJustify (previous current : Epoch) (bal : TargetBalances) (st : SpecState) :
    Option (List Bool × Checkpoint) := do
  let bits := false :: st.justificationBits.take 3
  let (bits, justified) ←
    if bal.prevEpochTargetAttested * 3 ≥ bal.activeCurrentEpoch * 2 then do
      let root ← blockRootOf previous
      some (bits.set 1 true, (⟨previous, root⟩ : Checkpoint))
    else some (bits, st.currentJustifiedCheckpoint)
  if bal.currentEpochTargetAttested * 3 ≥ bal.activeCurrentEpoch * 2 then do
    let root ← blockRootOf current
    some (bits.set 0 true, (⟨current, root⟩ : Checkpoint))
  else some (bits, justified)

/-- The second half of `weigh_justification_and_finalization`: the new finalized checkpoint. -/
def specFinalize (bits : List Bool) (current : Epoch) (st : SpecState) : Checkpoint :=
  let oldPrevious := st.previousJustifiedCheckpoint
  let oldCurrent := st.currentJustifiedCheckpoint
  let finalized := st.finalizedCheckpoint
  let finalized :=
    if ((bits.drop 1).take 3).all id ∧ oldPrevious.epoch + 3 = current then oldPrevious
    else finalized
  let finalized :=
    if ((bits.drop 1).take 2).all id ∧ oldPrevious.epoch + 2 = current then oldPrevious
    else finalized
  let finalized :=
    if (bits.take 3).all id ∧ oldCurrent.epoch + 2 = current then oldCurrent else finalized
  if (bits.take 2).all id ∧ oldCurrent.epoch + 1 = current then oldCurrent else finalized

/-- The specification's `weigh_justification_and_finalization`. -/
def specWeigh (previous current : Epoch) (bal : TargetBalances) (st : SpecState) :
    Option SpecState := do
  let (bits, justified) ← specJustify blockRootOf previous current bal st
  some {
    justificationBits := bits
    previousJustifiedCheckpoint := st.currentJustifiedCheckpoint
    currentJustifiedCheckpoint := justified
    finalizedCheckpoint := specFinalize bits current st }

/-- The specification's `process_justification_and_finalization`, on given balances. -/
def specProcess (current : Epoch) (bal : TargetBalances) (st : SpecState) : Option SpecState :=
  if current ≤ 1 then some st else specWeigh blockRootOf (current - 1) current bal st

/-- The justification bits as the specification's list. -/
def bitList (bits : BitVec 4) : List Bool :=
  [bits.getLsbD 0, bits.getLsbD 1, bits.getLsbD 2, bits.getLsbD 3]

/-- What the specification sees of a state of the source. -/
def view : SpecState where
  justificationBits := bitList st.justificationBits
  previousJustifiedCheckpoint := st.previousJustifiedCheckpoint
  currentJustifiedCheckpoint := st.currentJustifiedCheckpoint
  finalizedCheckpoint := st.finalizedCheckpoint

/-- What an epoch transition finds in its state besides the fields that justification writes: the
balances of the epoch and the recent block roots. -/
structure EpochInput where
  balances : TargetBalances
  blockRoots : ℕ → Root

/-- The last slot of an epoch, at which its transition is processed. -/
def lastSlot (epoch : Epoch) : Slot := config.slotsPerEpoch * epoch + (config.slotsPerEpoch - 1)

/-- The state that the transition of an epoch is applied to. -/
def atEpochEnd (epoch : Epoch) (input : EpochInput) (st : FinalityState) : FinalityState :=
  { st with slot := lastSlot config epoch, blockRoots := input.blockRoots }

/-- Consecutive epoch transitions of the source, from the given epoch on. -/
def runEpochs : Epoch → List EpochInput → FinalityState → Except Fault FinalityState
  | _, [], st => .ok st
  | epoch, input :: inputs, st => do
    let next ← processJustificationAndFinalizationPreCompute config
      (atEpochEnd config epoch input st) input.balances
    runEpochs (epoch + 1) inputs next

/-- Consecutive epoch transitions of the specification, from the given epoch on. -/
def specEpochs : Epoch → List EpochInput → SpecState → Option SpecState
  | _, [], st => some st
  | epoch, input :: inputs, st => do
    let next ← specProcess (getBlockRoot config (lastSlot config epoch) input.blockRoots) epoch
      input.balances st
    specEpochs (epoch + 1) inputs next

/-- The balances of an epoch are small enough for the products not to wrap around. -/
def TargetBalances.Small (bal : TargetBalances) : Prop :=
  bal.activeCurrentEpoch < 2 ^ 62 ∧ bal.prevEpochTargetAttested < 2 ^ 62 ∧
    bal.currentEpochTargetAttested < 2 ^ 62

/-- What is assumed of a transition: balances below `2 ^ 62`, a slot of 64 bits, and the block root
of an epoch's start slot is the one that every other transition reads. -/
structure ValidInput (root : Epoch → Root) (epoch : Epoch) (input : EpochInput) : Prop where
  small : input.balances.Small
  slot_lt : lastSlot config epoch < 2 ^ 64
  root_eq : ∀ read, read = epoch ∨ read + 1 = epoch → input.blockRoots
    (config.slotsPerEpoch * read % config.slotsPerHistoricalRoot) = root read

/-- The inputs of consecutive transitions, from the given epoch on. -/
def ValidInputs (root : Epoch → Root) : Epoch → List EpochInput → Prop
  | _, [] => True
  | epoch, input :: inputs =>
    ValidInput config root epoch input ∧ ValidInputs root (epoch + 1) inputs

end Prysm.Precompute
