import Mathlib.Data.Vector.Defs
import Prysm.Slots
import Mathlib.Algebra.Order.BigOperators.Group.List

/-!
# The beacon state of the core package

The fields of the beacon state that deposits, consolidations, withdrawals and exits read and write,
the getters and setters of `state-native` they go through, and the functions of `core/helpers` they
share. Every function of the package changes its state in place and is modelled by a function from
the old state to the new one.  The state that a failed call leaves behind is dropped by its callers,
so a failure carries no state.
-/

namespace Prysm.Core

open List hiding Vector

abbrev WithdrawalCredentials := Vector UInt8 32

/-- A BLS signature of 96 bytes. -/
abbrev Signature := Vector UInt8 96

structure Validator where
  publicKey : PubKey
  withdrawalCredentials : WithdrawalCredentials
  effectiveBalance : ℕ
  slashed : Bool
  activationEligibilityEpoch : Epoch
  activationEpoch : Epoch
  exitEpoch : Epoch
  withdrawableEpoch : Epoch
deriving DecidableEq

structure PendingDeposit where
  publicKey : PubKey
  withdrawalCredentials : WithdrawalCredentials
  amount : ℕ
  signature : Signature
  slot : Slot
deriving DecidableEq

structure PendingConsolidation where
  sourceIndex : ValidatorIndex
  targetIndex : ValidatorIndex
deriving DecidableEq

structure PendingPartialWithdrawal where
  index : ValidatorIndex
  amount : ℕ
  withdrawableEpoch : Epoch
deriving DecidableEq

structure BeaconState where
  version : Version
  slot : Slot
  validators : List Validator
  balances : List ℕ
  previousEpochParticipation : List UInt8
  currentEpochParticipation : List UInt8
  inactivityScores : List ℕ
  slashings : List ℕ
  finalizedCheckpoint : Checkpoint
  eth1DepositIndex : ℕ
  nextWithdrawalIndex : ℕ
  nextWithdrawalValidatorIndex : ValidatorIndex
  depositRequestsStartIndex : ℕ
  depositBalanceToConsume : ℕ
  exitBalanceToConsume : ℕ
  earliestExitEpoch : Epoch
  consolidationBalanceToConsume : ℕ
  earliestConsolidationEpoch : Epoch
  pendingDeposits : List PendingDeposit
  pendingPartialWithdrawals : List PendingPartialWithdrawal
  pendingConsolidations : List PendingConsolidation
deriving Inhabited

/-- The constants of the beacon chain configuration that the package reads. -/
structure CoreConfig extends BeaconChainConfig where
  effectiveBalanceIncrement : ℕ
  maxEffectiveBalance : ℕ
  minActivationBalance : ℕ
  maxEffectiveBalanceElectra : ℕ
  maxSeedLookahead : ℕ
  minPerEpochChurnLimit : ℕ
  churnLimitQuotient : ℕ
  minPerEpochChurnLimitElectra : ℕ
  maxPerEpochActivationExitChurnLimit : ℕ
  minValidatorWithdrawabilityDelay : ℕ
  epochsPerSlashingsVector : ℕ
  maxPendingDepositsPerEpoch : ℕ
  maxPendingPartialsPerWithdrawalsSweep : ℕ
  maxWithdrawalsPerPayload : ℕ
  maxValidatorsPerWithdrawalsSweep : ℕ

/-- The values of `params.MainnetConfig`. -/
def mainnetCore : CoreConfig where
  toBeaconChainConfig := mainnetConfig
  effectiveBalanceIncrement := 10 ^ 9
  maxEffectiveBalance := 32 * 10 ^ 9
  minActivationBalance := 32 * 10 ^ 9
  maxEffectiveBalanceElectra := 2048 * 10 ^ 9
  maxSeedLookahead := 4
  minPerEpochChurnLimit := 4
  churnLimitQuotient := 2 ^ 16
  minPerEpochChurnLimitElectra := 128 * 10 ^ 9
  maxPerEpochActivationExitChurnLimit := 256 * 10 ^ 9
  minValidatorWithdrawabilityDelay := 256
  epochsPerSlashingsVector := 8192
  maxPendingDepositsPerEpoch := 16
  maxPendingPartialsPerWithdrawalsSweep := 8
  maxWithdrawalsPerPayload := 16
  maxValidatorsPerWithdrawalsSweep := 16384

/-- `params.BeaconConfig().FarFutureEpoch`. -/
def farFutureEpoch : Epoch := 2 ^ 64 - 1

/-- `params.BeaconConfig().UnsetDepositRequestsStartIndex`. -/
def unsetDepositRequestsStartIndex : ℕ := 2 ^ 64 - 1

def eth1AddressWithdrawalPrefixByte : UInt8 := 1

def compoundingWithdrawalPrefixByte : UInt8 := 2

/-- `common.InfiniteSignature`. -/
def infiniteSignature : Signature := (Vector.replicate 96 0).set 0 0xC0

def errNotSupported (funcName : String) (version : Version) : Fault :=
  .error (.errorf "%s is not supported for %s" [.text funcName, .text version.string])

/-- The error of a list read past its end. -/
def outOfBounds (idx : ℕ) : Fault := .error (.errorf "index %d out of bounds" [.number idx])

namespace BeaconState

variable (st : BeaconState)

section

variable (idx : ValidatorIndex)

/-- `ValidatorAtIndex` and `ValidatorAtIndexReadOnly`. -/
def validatorAtIndex : Except Fault Validator :=
  match st.validators[idx]? with
  | some val => .ok val
  | none => .error (outOfBounds idx)

def balanceAtIndex : Except Fault ℕ :=
  match st.balances[idx]? with
  | some bal => .ok bal
  | none => .error (outOfBounds idx)

def updateValidatorAtIndex (val : Validator) : Except Fault BeaconState :=
  if idx < st.validators.length then .ok { st with validators := st.validators.set idx val }
  else wrapf (.error (outOfBounds idx)) "could not update validator" []

def updateBalancesAtIndex (bal : ℕ) : Except Fault BeaconState :=
  if idx < st.balances.length then .ok { st with balances := st.balances.set idx bal }
  else wrapf (.error (outOfBounds idx)) "could not update balances" []

end

/-- `ValidatorIndexByPubkey`, of a state whose key map is in step with the registry. -/
def validatorIndexByPubkey (key : PubKey) : Option ValidatorIndex :=
  st.validators.findIdx? fun val ↦ val.publicKey = key

def appendPendingDeposit (deposit : PendingDeposit) : Except Fault BeaconState :=
  if st.version.number < Version.electra.number then
    .error (errNotSupported "AppendPendingDeposit" st.version)
  else .ok { st with pendingDeposits := st.pendingDeposits ++ [deposit] }

end BeaconState

def Validator.hasETH1WithdrawalCredentials (val : Validator) : Bool :=
  val.withdrawalCredentials[0] == eth1AddressWithdrawalPrefixByte

def Validator.hasCompoundingWithdrawalCredentials (val : Validator) : Bool :=
  val.withdrawalCredentials[0] == compoundingWithdrawalPrefixByte

def Validator.hasExecutionWithdrawalCredentials (val : Validator) : Bool :=
  val.hasETH1WithdrawalCredentials || val.hasCompoundingWithdrawalCredentials

/-- `IsActiveValidatorUsingTrie`. -/
def Validator.isActive (val : Validator) (epoch : Epoch) : Bool :=
  decide (val.activationEpoch ≤ epoch ∧ epoch < val.exitEpoch)

def increaseBalance (st : BeaconState) (idx : ValidatorIndex) (delta : ℕ) :
    Except Fault BeaconState := do
  let bal ← st.balanceAtIndex idx
  let newBal ← add64 bal delta
  st.updateBalancesAtIndex idx newBal

def decreaseBalanceWithVal (currBalance delta : ℕ) : ℕ :=
  if delta > currBalance then 0 else currBalance - delta

def decreaseBalance (st : BeaconState) (idx : ValidatorIndex) (delta : ℕ) :
    Except Fault BeaconState := do
  let bal ← st.balanceAtIndex idx
  st.updateBalancesAtIndex idx (decreaseBalanceWithVal bal delta)

variable (config : CoreConfig)

/-- `slots.ToEpoch` of the slot of the state. -/
def BeaconState.currentEpoch (st : BeaconState) : Epoch :=
  toEpoch config.toBeaconChainConfig st.slot

def validatorMaxEffectiveBalance (val : Validator) : ℕ :=
  if val.hasCompoundingWithdrawalCredentials then config.maxEffectiveBalanceElectra
  else config.minActivationBalance

def balanceChurnLimit (activeBalance : ℕ) : ℕ :=
  let churn := max config.minPerEpochChurnLimitElectra (activeBalance / config.churnLimitQuotient)
  churn - churn % config.effectiveBalanceIncrement

def activationExitChurnLimit (activeBalance : ℕ) : ℕ :=
  min config.maxPerEpochActivationExitChurnLimit (balanceChurnLimit config activeBalance)

def consolidationChurnLimit (activeBalance : ℕ) : ℕ :=
  balanceChurnLimit config activeBalance - activationExitChurnLimit config activeBalance

def activationExitEpoch (epoch : Epoch) : Epoch := (epoch + 1 + config.maxSeedLookahead) % 2 ^ 64

/-- `TotalActiveBalance`.  The cache it consults holds what it computed before. -/
def totalActiveBalance (st : BeaconState) : ℕ :=
  let epoch := st.currentEpoch config
  let total := st.validators.foldl (fun total val ↦
    if val.isActive epoch then (total + val.effectiveBalance) % 2 ^ 64 else total) 0
  max config.effectiveBalanceIncrement total

variable {st next : BeaconState} {idx : ValidatorIndex} {val : Validator} {bal delta : ℕ}

open BeaconState

theorem validatorAtIndex_eq_ok_iff :
    st.validatorAtIndex idx = .ok val ↔ st.validators[idx]? = some val := by
  unfold validatorAtIndex
  cases st.validators[idx]? <;> simp

theorem balanceAtIndex_eq_ok_iff :
    st.balanceAtIndex idx = .ok bal ↔ st.balances[idx]? = some bal := by
  unfold balanceAtIndex
  cases st.balances[idx]? <;> simp

theorem updateBalancesAtIndex_eq_ok_iff :
    st.updateBalancesAtIndex idx bal = .ok next ↔
      idx < st.balances.length ∧ next = { st with balances := st.balances.set idx bal } := by
  unfold updateBalancesAtIndex
  split_ifs with hidx
  · simp [hidx, eq_comm]
  · simp [hidx, wrapf, outOfBounds]

theorem updateValidatorAtIndex_eq_ok_iff :
    st.updateValidatorAtIndex idx val = .ok next ↔
      idx < st.validators.length ∧ next = { st with validators := st.validators.set idx val } := by
  unfold updateValidatorAtIndex
  split_ifs with hidx
  · simp [hidx, eq_comm]
  · simp [hidx, wrapf, outOfBounds]

theorem increaseBalance_eq_ok_iff :
    increaseBalance st idx delta = .ok next ↔
      ∃ bal, st.balances[idx]? = some bal ∧ bal + delta < 2 ^ 64 ∧
        next = { st with balances := st.balances.set idx (bal + delta) } := by
  unfold increaseBalance
  simp only [bind_eq_ok_iff, balanceAtIndex_eq_ok_iff, add64_eq_ok_iff,
    updateBalancesAtIndex_eq_ok_iff]
  constructor
  · rintro ⟨bal, hbal, _, ⟨hlt, rfl⟩, -, rfl⟩
    exact ⟨bal, hbal, hlt, rfl⟩
  · rintro ⟨bal, hbal, hlt, rfl⟩
    exact ⟨bal, hbal, _, ⟨hlt, rfl⟩, (List.getElem?_eq_some_iff.1 hbal).1, rfl⟩

theorem decreaseBalance_eq_ok_iff :
    decreaseBalance st idx delta = .ok next ↔
      ∃ bal, st.balances[idx]? = some bal ∧
        next = { st with balances := st.balances.set idx (bal - delta) } := by
  have hsub (bal : ℕ) : decreaseBalanceWithVal bal delta = bal - delta := by
    unfold decreaseBalanceWithVal
    split_ifs <;> omega
  unfold decreaseBalance
  simp only [bind_eq_ok_iff, balanceAtIndex_eq_ok_iff, updateBalancesAtIndex_eq_ok_iff, hsub]
  constructor
  · rintro ⟨bal, hbal, -, rfl⟩
    exact ⟨bal, hbal, rfl⟩
  · rintro ⟨bal, hbal, rfl⟩
    exact ⟨bal, hbal, (List.getElem?_eq_some_iff.1 hbal).1, rfl⟩

/-- The sum of a list after one entry was replaced. -/
theorem sum_set_add {bals : List ℕ} {idx old : ℕ} (hold : bals[idx]? = some old)
    (value : ℕ) : (bals.set idx value).sum + old = bals.sum + value := by
  induction bals generalizing idx with
  | nil => simp at hold
  | cons bal bals ih =>
    cases idx with
    | zero =>
      obtain rfl : bal = old := by simpa using hold
      simp only [set_cons_zero, sum_cons]
      omega
    | succ idx =>
      have hrest := ih (show bals[idx]? = some old by simpa using hold)
      simp only [set_cons_succ, sum_cons]
      omega

/-- The sum of the amounts of pending deposits. -/
def depositedAmount (deposits : List PendingDeposit) : ℕ := (deposits.map (·.amount)).sum

@[simp] theorem depositedAmount_nil : depositedAmount [] = 0 := rfl

@[simp] theorem depositedAmount_cons (deposit : PendingDeposit) (deposits : List PendingDeposit) :
    depositedAmount (deposit :: deposits) = deposit.amount + depositedAmount deposits := rfl

@[simp] theorem depositedAmount_append (deposits more : List PendingDeposit) :
    depositedAmount (deposits ++ more) = depositedAmount deposits + depositedAmount more := by
  simp [depositedAmount]

/-- The stake of a state: the balances and the amounts of the pending deposits, which a state has
from Electra on. -/
def BeaconState.totalStake (st : BeaconState) : ℕ :=
  st.balances.sum +
    if st.version.number < Version.electra.number then 0 else depositedAmount st.pendingDeposits

theorem increaseBalance_sum (hincrease : increaseBalance st idx delta = .ok next) :
    next.balances.sum = st.balances.sum + delta := by
  obtain ⟨bal, hbal, -, rfl⟩ := increaseBalance_eq_ok_iff.1 hincrease
  have hsum := sum_set_add hbal (bal + delta)
  dsimp only
  omega

theorem decreaseBalance_sum (hbal : st.balances[idx]? = some bal) (hdelta : delta ≤ bal)
    (hdecrease : decreaseBalance st idx delta = .ok next) :
    next.balances.sum + delta = st.balances.sum := by
  obtain ⟨bal', hbal', rfl⟩ := decreaseBalance_eq_ok_iff.1 hdecrease
  obtain rfl : bal = bal' := Option.some.inj (hbal.symm.trans hbal')
  have hsum := sum_set_add hbal (bal - delta)
  dsimp only
  omega

/-- A balance can be raised when the balances do not overflow. -/
theorem exists_increaseBalance (hidx : idx < st.balances.length)
    (hfits : st.balances.sum + delta < 2 ^ 64) :
    ∃ next, increaseBalance st idx delta = .ok next := by
  have hle : st.balances[idx] ≤ st.balances.sum := le_sum_of_mem (getElem_mem hidx)
  exact ⟨_, increaseBalance_eq_ok_iff.2 ⟨st.balances[idx], getElem?_eq_getElem hidx, by omega, rfl⟩⟩

end Prysm.Core
