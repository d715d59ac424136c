import Prysm.Core.State
import Prysm.Library.Loop
import Prysm.Library.Run
import Mathlib.Data.List.Induction
import Mathlib.Data.Nat.ModEq

/-!
# Withdrawals

`ExpectedWithdrawals` of `state-native/getters_withdrawal.go` first serves the queue of partial
withdrawals, then sweeps over the registry from the next withdrawal validator index on, until the
payload is full or the bound of the sweep is reached.  `ProcessWithdrawals` of `core/blocks` takes
the amounts from the balances and computes where the next sweep starts.
-/

namespace Prysm.Core

open List hiding Vector
open Prysm.Library Nat Option Version

structure Withdrawal where
  index : ℕ
  validatorIndex : ValidatorIndex
  address : Vector UInt8 20
  amount : ℕ
deriving DecidableEq

/-- The execution address in the withdrawal credentials, after `ETH1AddressOffset` bytes. -/
def Validator.executionAddress (val : Validator) : Vector UInt8 20 :=
  val.withdrawalCredentials.drop 12

variable (config : CoreConfig)

section

variable (val : Validator) (balance : ℕ)

def isFullyWithdrawableValidator (epoch : Epoch) (fork : Version) : Bool :=
  if balance ≤ 0 then false
  else if fork.number ≥ Version.electra.number then
    val.hasExecutionWithdrawalCredentials && val.withdrawableEpoch ≤ epoch
  else val.hasETH1WithdrawalCredentials && val.withdrawableEpoch ≤ epoch

def isPartiallyWithdrawableValidatorElectra : Bool :=
  val.hasExecutionWithdrawalCredentials &&
    val.effectiveBalance == validatorMaxEffectiveBalance config val &&
    balance > validatorMaxEffectiveBalance config val

def isPartiallyWithdrawableValidatorCapella : Bool :=
  val.hasETH1WithdrawalCredentials && balance > config.maxEffectiveBalance &&
    val.effectiveBalance == config.maxEffectiveBalance

def isPartiallyWithdrawableValidator (fork : Version) : Bool :=
  if fork.number < Version.electra.number then
    isPartiallyWithdrawableValidatorCapella config val balance
  else isPartiallyWithdrawableValidatorElectra config val balance

end

/-- The sum of the amounts that the list withdraws from a validator, as the loops over the list
compute it. -/
def totalWithdrawn (withdrawals : List Withdrawal) (idx : ValidatorIndex) : ℕ :=
  withdrawals.foldl (fun total w ↦
    if w.validatorIndex = idx then (total + w.amount) % 2 ^ 64 else total) 0

/-- The variables of the loop over the pending partial withdrawals. -/
structure PartialLoop where
  withdrawals : List Withdrawal
  withdrawalIndex : ℕ
  processedPartialWithdrawalsCount : ℕ

variable (st : BeaconState)

/-- The body of the loop over the pending partial withdrawals. -/
def partialStep (epoch : Epoch) (acc : PartialLoop) (w : PendingPartialWithdrawal) :
    Except Fault (PartialLoop × Bool) :=
  if w.withdrawableEpoch > epoch ∨
      acc.withdrawals.length ≥ config.maxPendingPartialsPerWithdrawalsSweep then .ok (acc, true)
  else do
    let v ← wrapf (st.validatorAtIndex w.index) "failed to determine withdrawals at index %d"
      [.number w.index]
    let vBal ← wrapf (st.balanceAtIndex w.index) "could not retrieve balance at index %d"
      [.number w.index]
    let balance ← wrapf (sub64 vBal (totalWithdrawn acc.withdrawals w.index))
      "failed to subtract balance %d with total withdrawn %d"
      [.number vBal, .number (totalWithdrawn acc.withdrawals w.index)]
    if v.exitEpoch = farFutureEpoch ∧ v.effectiveBalance ≥ config.minActivationBalance ∧
        balance > config.minActivationBalance then
      .ok ({
        withdrawals := acc.withdrawals ++ [{
          index := acc.withdrawalIndex
          validatorIndex := w.index
          address := v.executionAddress
          amount := min (balance - config.minActivationBalance) w.amount }]
        withdrawalIndex := (acc.withdrawalIndex + 1) % 2 ^ 64
        processedPartialWithdrawalsCount := acc.processedPartialWithdrawalsCount + 1 }, false)
    else
      .ok ({ acc with
        processedPartialWithdrawalsCount := acc.processedPartialWithdrawalsCount + 1 }, false)

/-- The partial withdrawals of the payload, which there are from Electra on. -/
def partialWithdrawals : Except Fault PartialLoop :=
  if st.version.number ≥ Version.electra.number then
    loop (partialStep config st (st.currentEpoch config)) st.pendingPartialWithdrawals
      ⟨[], st.nextWithdrawalIndex, 0⟩
  else .ok ⟨[], st.nextWithdrawalIndex, 0⟩

/-- The variables of the sweep. -/
structure SweepLoop where
  withdrawals : List Withdrawal
  withdrawalIndex : ℕ
  validatorIndex : ValidatorIndex

/-- The balance that the sweep looks at: from Electra on, without what the list already withdraws.
The failed subtraction has set the balance of the message to zero. -/
def sweepBalance (withdrawals : List Withdrawal) (idx : ValidatorIndex) (balance : ℕ) :
    Except Fault ℕ :=
  if st.version.number ≥ Version.electra.number then
    wrapf (sub64 balance (totalWithdrawn withdrawals idx))
      "could not subtract balance %d with partial withdrawn balance %d"
      [.number 0, .number (totalWithdrawn withdrawals idx)]
  else .ok balance

/-- The amount that the sweep withdraws from a validator, if any. -/
def sweepAmount (epoch : Epoch) (val : Validator) (balance : ℕ) : Option ℕ :=
  if isFullyWithdrawableValidator val balance epoch st.version then some balance
  else if isPartiallyWithdrawableValidator config val balance st.version then
    some ((balance + 2 ^ 64 - validatorMaxEffectiveBalance config val) % 2 ^ 64)
  else none

/-- Append the withdrawal of the amount, if any. -/
def SweepLoop.withdraw (acc : SweepLoop) (val : Validator) (amount : Option ℕ) : SweepLoop :=
  match amount with
  | none => acc
  | some amount => { acc with
      withdrawals := acc.withdrawals ++ [{
        index := acc.withdrawalIndex
        validatorIndex := acc.validatorIndex
        address := val.executionAddress
        amount := amount }]
      withdrawalIndex := (acc.withdrawalIndex + 1) % 2 ^ 64 }

/-- The body of the sweep. -/
def sweepStep (epoch : Epoch) (acc : SweepLoop) : Except Fault (SweepLoop × Bool) := do
  let val ← wrapf (st.validatorAtIndex acc.validatorIndex)
    "could not retrieve validator at index %d" [.number acc.validatorIndex]
  let balance ← wrapf (st.balanceAtIndex acc.validatorIndex)
    "could not retrieve balance at index %d" [.number acc.validatorIndex]
  let balance ← sweepBalance st acc.withdrawals acc.validatorIndex balance
  let acc := acc.withdraw val (sweepAmount config st epoch val balance)
  if acc.withdrawals.length = config.maxWithdrawalsPerPayload then .ok (acc, true)
  else
    .ok ({ acc with
      validatorIndex :=
        if acc.validatorIndex + 1 = st.validators.length then 0 else acc.validatorIndex + 1 },
      false)

/-- How many validators the sweep looks at, unless the payload is full before. -/
def sweepBound : ℕ :=
  min st.validators.length config.maxValidatorsPerWithdrawalsSweep

def expectedWithdrawals : Except Fault (List Withdrawal × ℕ) :=
  if st.version.number < Version.capella.number then
    .error (errNotSupported "ExpectedWithdrawals" st.version)
  else do
    let partials ← partialWithdrawals config st
    let swept ← loop (fun acc _ ↦ sweepStep config st (st.currentEpoch config) acc)
      (List.range (sweepBound config st))
      ⟨partials.withdrawals, partials.withdrawalIndex, st.nextWithdrawalValidatorIndex⟩
    .ok (swept.withdrawals, partials.processedPartialWithdrawalsCount)

/-- What `ProcessWithdrawals` reads of an execution payload or of its header. -/
inductive ExecutionData
  | header (withdrawalsRoot : Root)
  | payload (withdrawals : List Withdrawal)

def dequeuePendingPartialWithdrawals (n : ℕ) : Except Fault BeaconState :=
  if st.version.number < Version.electra.number then
    .error (errNotSupported "DequeuePendingPartialWithdrawals" st.version)
  else if n > st.pendingPartialWithdrawals.length then
    .error (.error (.errorf "cannot dequeue more withdrawals than are in the queue" []))
  else .ok { st with pendingPartialWithdrawals := st.pendingPartialWithdrawals.drop n }

/-- Where the next sweep starts.  The division by the number of validators and the access to the
last withdrawal panic when there is none. -/
def nextSweepStart (expected : List Withdrawal) : Except Fault ValidatorIndex :=
  if expected.length < config.maxWithdrawalsPerPayload then
    if st.validators.length = 0 then .error .panic
    else .ok ((st.nextWithdrawalValidatorIndex + config.maxValidatorsPerWithdrawalsSweep) % 2 ^ 64 %
      st.validators.length)
  else
    match expected.getLast? with
    | none => .error .panic
    | some last =>
      let next := (last.validatorIndex + 1) % 2 ^ 64
      .ok (if next = st.validators.length then 0 else next)

/-- The withdrawals root of the payload that is compared with the expected one. -/
def withdrawalsRoot (withdrawalSliceRoot : List Withdrawal → Except Fault Root)
    (executionData : ExecutionData) (expected : List Withdrawal) : Except Fault Root :=
  match executionData with
  | .header root => .ok root
  | .payload wds =>
    if wds.length ≠ expected.length then
      .error (.error (.errorf "execution payload header has %d withdrawals when %d were expected"
        [.number wds.length, .number expected.length]))
    else wrapf (withdrawalSliceRoot wds) "could not get withdrawals root" []

/-- The processed partial withdrawals leave the queue, which there is from Electra on. -/
def dequeueProcessed (processedPartialWithdrawalsCount : ℕ) : Except Fault BeaconState :=
  if st.version.number ≥ Version.electra.number then
    wrapf (dequeuePendingPartialWithdrawals st processedPartialWithdrawalsCount)
      "unable to dequeue partial withdrawals from state" []
  else .ok st

/-- The part of `ProcessWithdrawals` after the payload was checked. -/
def applyWithdrawals (expected : List Withdrawal) (processedPartialWithdrawalsCount : ℕ) :
    Except Fault BeaconState := do
  let st ← expected.foldlM (fun st withdrawal ↦
    wrapf (decreaseBalance st withdrawal.validatorIndex withdrawal.amount)
      "could not decrease balance" []) st
  let st ← dequeueProcessed st processedPartialWithdrawalsCount
  let st := match expected.getLast? with
    | none => st
    | some last => { st with nextWithdrawalIndex := (last.index + 1) % 2 ^ 64 }
  let next ← nextSweepStart config st expected
  .ok { st with nextWithdrawalValidatorIndex := next }

/-- `ProcessWithdrawals`; `withdrawalSliceRoot` is `ssz.WithdrawalSliceRoot`. -/
def processWithdrawals (withdrawalSliceRoot : List Withdrawal → Except Fault Root)
    (st : BeaconState) (executionData : ExecutionData) : Except Fault BeaconState := do
  let (expected, processedPartialWithdrawalsCount) ←
    wrapf (expectedWithdrawals config st) "could not get expected withdrawals" []
  let wdRoot ← withdrawalsRoot withdrawalSliceRoot executionData expected
  let expectedRoot ← wrapf (withdrawalSliceRoot expected)
    "could not get expected withdrawals root" []
  if expectedRoot ≠ wdRoot then
    .error (.error (.errorf "expected withdrawals root %#x, got %#x"
      [.bytes (some expectedRoot), .bytes (some wdRoot)]))
  else applyWithdrawals config st expected processedPartialWithdrawalsCount

/-! ### What a list withdraws from a validator -/

/-- The sum of the amounts that the list withdraws from a validator. -/
def withdrawnFrom (withdrawals : List Withdrawal) (idx : ValidatorIndex) : ℕ :=
  ((withdrawals.filter (·.validatorIndex = idx)).map (·.amount)).sum

@[simp] theorem withdrawnFrom_nil (idx : ValidatorIndex) : withdrawnFrom [] idx = 0 := rfl

@[simp] theorem withdrawnFrom_append (withdrawals more : List Withdrawal) (idx : ValidatorIndex) :
    withdrawnFrom (withdrawals ++ more) idx =
      withdrawnFrom withdrawals idx + withdrawnFrom more idx := by
  simp [withdrawnFrom]

theorem withdrawnFrom_cons (w : Withdrawal) (withdrawals : List Withdrawal) (idx : ValidatorIndex) :
    withdrawnFrom (w :: withdrawals) idx =
      (if w.validatorIndex = idx then w.amount else 0) + withdrawnFrom withdrawals idx := by
  unfold withdrawnFrom
  by_cases hidx : w.validatorIndex = idx <;> simp [hidx]

/-- The sum that the code computes is the sum of the amounts, modulo `2 ^ 64`. -/
theorem totalWithdrawn_eq_mod (withdrawals : List Withdrawal) (idx : ValidatorIndex) :
    totalWithdrawn withdrawals idx = withdrawnFrom withdrawals idx % 2 ^ 64 := by
  induction withdrawals using List.reverseRecOn with
  | nil => rfl
  | append_singleton withdrawals w ih =>
    unfold totalWithdrawn at ih ⊢
    rw [foldl_append, ih, withdrawnFrom_append, withdrawnFrom_cons, withdrawnFrom_nil]
    grind

/-! ### Lists that the balances cover -/

/-- The states that withdrawals start from: the registry is not empty and fits into a slice, every
validator has a balance of 64 bits, and the indices point into the registry. -/
structure Sweepable (st : BeaconState) : Prop where
  capella : Version.capella.number ≤ st.version.number
  validators : 0 < st.validators.length
  slice : st.validators.length < 2 ^ 63
  balances : st.balances.length = st.validators.length
  uint64 : ∀ bal ∈ st.balances, bal < 2 ^ 64
  nextWithdrawalIndex : st.nextWithdrawalIndex < 2 ^ 64
  nextWithdrawalValidatorIndex : st.nextWithdrawalValidatorIndex < st.validators.length
  partials : ∀ w ∈ st.pendingPartialWithdrawals, w.index < st.validators.length

/-- Every index of the registry has a validator and a balance. -/
theorem Sweepable.exists_entry {st : BeaconState} (hst : Sweepable st) {idx : ValidatorIndex}
    (hidx : idx < st.validators.length) :
    ∃ val bal, st.validators[idx]? = some val ∧ st.balances[idx]? = some bal :=
  ⟨_, _, getElem?_eq_getElem hidx, getElem?_eq_getElem (hst.balances.symm ▸ hidx)⟩

/-- The withdrawals have consecutive indices and the balances cover them. -/
structure Payable (st : BeaconState) (withdrawals : List Withdrawal) : Prop where
  indices : ∀ k w, withdrawals[k]? = some w → w.index = (st.nextWithdrawalIndex + k) % 2 ^ 64
  known : ∀ w ∈ withdrawals, w.validatorIndex < st.balances.length
  covered : ∀ idx bal, st.balances[idx]? = some bal → withdrawnFrom withdrawals idx ≤ bal

variable {config} {st : BeaconState} {withdrawals : List Withdrawal} {idx : ValidatorIndex}
  {epoch : Epoch} {val : Validator} {fork : Version} {bal balance : ℕ}

theorem Payable.nil (st : BeaconState) : Payable st [] := ⟨nofun, nofun, fun _ _ _ ↦ Nat.zero_le _⟩

/-- One more withdrawal of no more than what is left. -/
theorem Payable.append {w : Withdrawal} (hpayable : Payable st withdrawals)
    (hidx : w.index = (st.nextWithdrawalIndex + withdrawals.length) % 2 ^ 64)
    (hbal : st.balances[w.validatorIndex]? = some bal)
    (hamount : withdrawnFrom withdrawals w.validatorIndex + w.amount ≤ bal) :
    Payable st (withdrawals ++ [w]) := by
  refine ⟨?_, ?_, ?_⟩
  · intro k other hother
    rcases lt_trichotomy k withdrawals.length with hlt | rfl | hgt
    · rw [getElem?_append_left hlt] at hother
      exact hpayable.indices k other hother
    · grind
    · grind
  · intro other hother
    rcases mem_append.1 hother with hmem | hmem
    · exact hpayable.known other hmem
    · grind
  · intro idx other hother
    rw [withdrawnFrom_append, withdrawnFrom_cons, withdrawnFrom_nil]
    have hcov := hpayable.covered idx other hother
    grind

/-- The code's sum over a list that the balances cover does not overflow. -/
theorem Payable.totalWithdrawn_eq (hpayable : Payable st withdrawals) (hst : Sweepable st)
    (hbal : st.balances[idx]? = some bal) :
    totalWithdrawn withdrawals idx = withdrawnFrom withdrawals idx := by
  rw [totalWithdrawn_eq_mod, mod_eq_of_lt]
  exact (hpayable.covered idx bal hbal).trans_lt (hst.uint64 bal (mem_of_getElem? hbal))

/-! ### The partial withdrawals -/

/-- How many partial withdrawals fit into a payload, and how the maximal balances compare. -/
structure WithdrawalLimits (config : CoreConfig) : Prop where
  partials : config.maxPendingPartialsPerWithdrawalsSweep < config.maxWithdrawalsPerPayload
  balances : config.minActivationBalance ≤ config.maxEffectiveBalance

/-- The invariant of the loop over the pending partial withdrawals. -/
structure PartialProgress (config : CoreConfig) (st : BeaconState) (acc : PartialLoop) : Prop where
  payable : Payable st acc.withdrawals
  withdrawalIndex : acc.withdrawalIndex =
    (st.nextWithdrawalIndex + acc.withdrawals.length) % 2 ^ 64
  length : acc.withdrawals.length ≤ config.maxPendingPartialsPerWithdrawalsSweep

/-- The withdrawal index after one more withdrawal. -/
theorem add_one_mod (start length : ℕ) :
    ((start + length) % 2 ^ 64 + 1) % 2 ^ 64 = (start + (length + 1)) % 2 ^ 64 := by
  omega

/-- A round over a pending partial withdrawal of a known validator succeeds. -/
theorem exists_partialStep {acc : PartialLoop} {w : PendingPartialWithdrawal} (hst : Sweepable st)
    (hacc : PartialProgress config st acc) (hidx : w.index < st.validators.length) :
    ∃ next stop, partialStep config st epoch acc w = .ok (next, stop) ∧
      (stop = true → next = acc) ∧
      (stop = false → PartialProgress config st next ∧
        next.processedPartialWithdrawalsCount = acc.processedPartialWithdrawalsCount + 1) := by
  obtain ⟨val, bal, hval, hbal⟩ := hst.exists_entry hidx
  have htotal := hacc.payable.totalWithdrawn_eq hst hbal
  have hcov := hacc.payable.covered _ _ hbal
  unfold partialStep
  by_cases hstop : w.withdrawableEpoch > epoch ∨
      acc.withdrawals.length ≥ config.maxPendingPartialsPerWithdrawalsSweep
  · exact ⟨acc, true, if_pos hstop, fun _ ↦ rfl, nofun⟩
  rw [if_neg hstop]
  simp only [validatorAtIndex_eq_ok_iff.2 hval, balanceAtIndex_eq_ok_iff.2 hbal, htotal,
    sub64_of_le hcov, wrapf_ok, ok_bind]
  by_cases hwithdraw : val.exitEpoch = farFutureEpoch ∧
      val.effectiveBalance ≥ config.minActivationBalance ∧
      bal - withdrawnFrom acc.withdrawals w.index > config.minActivationBalance
  · refine ⟨_, false, if_pos hwithdraw, nofun, fun _ ↦ ⟨⟨?_, ?_, ?_⟩, rfl⟩⟩
    · refine hacc.payable.append hacc.withdrawalIndex hbal ?_
      dsimp only
      omega
    · rw [hacc.withdrawalIndex, add_one_mod, length_append, length_singleton]
    · grind
  · exact ⟨_, false, if_neg hwithdraw, nofun, fun _ ↦
      ⟨⟨hacc.payable, hacc.withdrawalIndex, hacc.length⟩, rfl⟩⟩

/-- The partial withdrawals of a payload: the balances cover them and they leave room for the
sweep.  Before Electra there are none. -/
theorem exists_partialWithdrawals (config : CoreConfig) (hst : Sweepable st) :
    ∃ partials, partialWithdrawals config st = .ok partials ∧ PartialProgress config st partials ∧
      partials.processedPartialWithdrawalsCount ≤ st.pendingPartialWithdrawals.length ∧
      (st.version.number < electra.number → partials.withdrawals = []) := by
  have hstart : PartialProgress config st ⟨[], st.nextWithdrawalIndex, 0⟩ :=
    ⟨.nil st, (mod_eq_of_lt hst.nextWithdrawalIndex).symm, Nat.zero_le _⟩
  unfold partialWithdrawals
  by_cases helectra : st.version.number ≥ electra.number
  · have hloop : ∃ last, loop (partialStep config st (st.currentEpoch config))
        st.pendingPartialWithdrawals ⟨[], st.nextWithdrawalIndex, 0⟩ = .ok last ∧
        PartialProgress config st last ∧
        last.processedPartialWithdrawalsCount ≤ st.pendingPartialWithdrawals.length := by
      refine exists_loop_post (fun rest acc ↦ PartialProgress config st acc ∧
          acc.processedPartialWithdrawalsCount + rest.length =
            st.pendingPartialWithdrawals.length ∧ rest ⊆ st.pendingPartialWithdrawals)
        (fun acc ↦ PartialProgress config st acc ∧
          acc.processedPartialWithdrawalsCount ≤ st.pendingPartialWithdrawals.length)
        ⟨hstart, by simp, fun _ ↦ id⟩ ?_ ?_
      · rintro w rest acc ⟨hacc, hcount, hrest⟩
        obtain ⟨next, stop, hnext, hstop, hgo⟩ := exists_partialStep hst hacc
          (hst.partials w (hrest mem_cons_self))
        refine ⟨next, stop, hnext, fun h ↦ hstop h ▸ ⟨hacc, by omega⟩, fun h ↦ ?_⟩
        obtain ⟨hprog, hnextCount⟩ := hgo h
        grind
      · grind
    grind
  · grind

/-! ### The sweep -/

/-- The validator is neither fully nor partially withdrawable with the balance. -/
def Settled (config : CoreConfig) (val : Validator) (balance : ℕ) (epoch : Epoch) (fork : Version) :
    Prop :=
  isFullyWithdrawableValidator val balance epoch fork = false ∧
    isPartiallyWithdrawableValidator config val balance fork = false

theorem settled_zero (config : CoreConfig) (val : Validator) (epoch : Epoch) (fork : Version) :
    Settled config val 0 epoch fork := by
  constructor
  · simp [isFullyWithdrawableValidator]
  · unfold isPartiallyWithdrawableValidator isPartiallyWithdrawableValidatorCapella
      isPartiallyWithdrawableValidatorElectra
    split_ifs <;> simp

/-- A smaller balance is not withdrawn in full if a larger one is not. -/
theorem isFullyWithdrawableValidator_anti {larger : ℕ} (hle : balance ≤ larger)
    (hfull : isFullyWithdrawableValidator val larger epoch fork = false) :
    isFullyWithdrawableValidator val balance epoch fork = false := by
  unfold isFullyWithdrawableValidator at hfull ⊢
  grind

theorem validatorMaxEffectiveBalance_of_eth1 (config : CoreConfig)
    (heth1 : val.hasETH1WithdrawalCredentials = true) :
    validatorMaxEffectiveBalance config val = config.minActivationBalance := by
  have hplain : val.hasCompoundingWithdrawalCredentials = false := by
    rw [Validator.hasETH1WithdrawalCredentials, beq_iff_eq] at heth1
    rw [Validator.hasCompoundingWithdrawalCredentials, heth1]
    decide
  rw [validatorMaxEffectiveBalance, hplain, if_neg Bool.false_ne_true]

/-- A partially withdrawable balance is above the maximal effective balance of the validator, which
is not partially withdrawable itself. -/
theorem maxEffectiveBalance_of_partially (hlimits : WithdrawalLimits config)
    (hpartially : isPartiallyWithdrawableValidator config val balance fork = true) :
    validatorMaxEffectiveBalance config val < balance ∧
      isPartiallyWithdrawableValidator config val (validatorMaxEffectiveBalance config val) fork =
        false := by
  unfold isPartiallyWithdrawableValidator at hpartially ⊢
  split_ifs at hpartially ⊢
  · simp only [isPartiallyWithdrawableValidatorCapella, Bool.and_eq_true, decide_eq_true_eq]
      at hpartially
    obtain ⟨⟨heth1, hexcess⟩, -⟩ := hpartially
    rw [validatorMaxEffectiveBalance_of_eth1 config heth1]
    refine ⟨hlimits.balances.trans_lt hexcess, ?_⟩
    simp [isPartiallyWithdrawableValidatorCapella, hlimits.balances]
  · simp only [isPartiallyWithdrawableValidatorElectra, Bool.and_eq_true, decide_eq_true_eq]
      at hpartially
    exact ⟨hpartially.2, by simp [isPartiallyWithdrawableValidatorElectra]⟩

/-- What the sweep withdraws is at most the balance, and leaves a settled one. -/
theorem sweepAmount_settles (hlimits : WithdrawalLimits config) (st : BeaconState) (epoch : Epoch)
    (val : Validator) (hbalance : balance < 2 ^ 64) :
    (sweepAmount config st epoch val balance).getD 0 ≤ balance ∧
      Settled config val (balance - (sweepAmount config st epoch val balance).getD 0) epoch
        st.version := by
  unfold sweepAmount
  split_ifs with hfull hpartially
  · simpa using settled_zero config val epoch st.version
  · obtain ⟨hlt, hsettled⟩ := maxEffectiveBalance_of_partially hlimits hpartially
    have hamount : (balance + 2 ^ 64 - validatorMaxEffectiveBalance config val) % 2 ^ 64 =
        balance - validatorMaxEffectiveBalance config val := by omega
    rw [getD_some, hamount, Nat.sub_sub_self hlt.le]
    exact ⟨Nat.sub_le _ _,
      isFullyWithdrawableValidator_anti hlt.le (Bool.eq_false_iff.2 hfull), hsettled⟩
  · simp only [getD_none, Nat.zero_le, Nat.sub_zero, true_and]
    exact ⟨Bool.eq_false_iff.2 hfull, Bool.eq_false_iff.2 hpartially⟩

/-- The place that the sweep reaches after some rounds. -/
def sweepPlace (st : BeaconState) (rounds : ℕ) : ValidatorIndex :=
  (st.nextWithdrawalValidatorIndex + rounds) % st.validators.length

/-- What the sweep has done after some rounds: the balances cover the list, the validators that it
has passed are settled by the list, and from the others only partial withdrawals are made. -/
structure Swept (config : CoreConfig) (st : BeaconState) (partials : List Withdrawal) (rounds : ℕ)
    (acc : SweepLoop) : Prop where
  payable : Payable st acc.withdrawals
  withdrawalIndex : acc.withdrawalIndex =
    (st.nextWithdrawalIndex + acc.withdrawals.length) % 2 ^ 64
  ahead : ∀ idx, (∀ j < rounds, sweepPlace st j ≠ idx) →
    withdrawnFrom acc.withdrawals idx = withdrawnFrom partials idx
  settled : ∀ j < rounds, ∀ val bal, st.validators[sweepPlace st j]? = some val →
    st.balances[sweepPlace st j]? = some bal →
    Settled config val (bal - withdrawnFrom acc.withdrawals (sweepPlace st j))
      (st.currentEpoch config) st.version

theorem sweepPlace_lt (hst : Sweepable st) (rounds : ℕ) :
    sweepPlace st rounds < st.validators.length :=
  mod_lt _ hst.validators

/-- The sweep does not come back to a validator in less rounds than there are validators. -/
theorem sweepPlace_ne (st : BeaconState) {j k : ℕ} (hjk : j < k) (hk : k < st.validators.length) :
    sweepPlace st j ≠ sweepPlace st k := by
  intro heq
  have hmod := Nat.ModEq.add_left_cancel' st.nextWithdrawalValidatorIndex (show
    Nat.ModEq st.validators.length _ _ from heq)
  have hlt := hmod.eq_of_lt_of_lt (hjk.trans hk) hk
  omega

theorem sweepPlace_succ (hst : Sweepable st) (rounds : ℕ) :
    (if sweepPlace st rounds + 1 = st.validators.length then 0 else sweepPlace st rounds + 1) =
      sweepPlace st (rounds + 1) := by
  have hlt := sweepPlace_lt hst rounds
  unfold sweepPlace at hlt ⊢
  rw [← add_assoc, ← mod_add_mod (st.nextWithdrawalValidatorIndex + rounds)]
  split_ifs with hwrap
  · rw [hwrap, mod_self]
  · exact (mod_eq_of_lt (lt_of_le_of_ne hlt hwrap)).symm

variable {partials : List Withdrawal} {acc : SweepLoop} {count rounds : ℕ}

/-- The balance that the sweep looks at is what the list leaves. -/
theorem sweepBalance_eq (hst : Sweepable st) (hswept : Swept config st partials rounds acc)
    (hpartials : st.version.number < electra.number → partials = [])
    (hrounds : rounds < st.validators.length)
    (hbal : st.balances[sweepPlace st rounds]? = some bal) :
    sweepBalance st acc.withdrawals (sweepPlace st rounds) bal =
      .ok (bal - withdrawnFrom acc.withdrawals (sweepPlace st rounds)) := by
  unfold sweepBalance
  by_cases helectra : st.version.number ≥ electra.number
  · rw [if_pos helectra, hswept.payable.totalWithdrawn_eq hst hbal,
      sub64_of_le (hswept.payable.covered _ _ hbal), wrapf_ok]
  · rw [if_neg helectra, hswept.ahead _ fun j hj ↦ sweepPlace_ne st hj hrounds,
      hpartials (Nat.not_le.1 helectra), withdrawnFrom_nil, Nat.sub_zero]

/-- The list after a validator was served. -/
theorem Swept.withdraw (hlimits : WithdrawalLimits config) (hst : Sweepable st)
    (hswept : Swept config st partials rounds acc) (hrounds : rounds < st.validators.length)
    (hplace : acc.validatorIndex = sweepPlace st rounds)
    (hval : st.validators[sweepPlace st rounds]? = some val)
    (hbal : st.balances[sweepPlace st rounds]? = some bal) :
    Swept config st partials (rounds + 1) (acc.withdraw val (sweepAmount config st
      (st.currentEpoch config) val
      (bal - withdrawnFrom acc.withdrawals (sweepPlace st rounds)))) := by
  have hcov := hswept.payable.covered _ _ hbal
  have hbal64 := hst.uint64 bal (mem_of_getElem? hbal)
  obtain ⟨hle, hsettled⟩ := sweepAmount_settles hlimits st (st.currentEpoch config) val
    ((Nat.sub_le bal (withdrawnFrom acc.withdrawals (sweepPlace st rounds))).trans_lt hbal64)
  generalize sweepAmount config st (st.currentEpoch config) val
    (bal - withdrawnFrom acc.withdrawals (sweepPlace st rounds)) = amount at hle hsettled ⊢
  have hfrom (idx : ValidatorIndex) :
      withdrawnFrom (acc.withdraw val amount).withdrawals idx = withdrawnFrom acc.withdrawals idx +
        if sweepPlace st rounds = idx then amount.getD 0 else 0 := by
    cases amount with
    | none => simp [SweepLoop.withdraw]
    | some amount =>
      rw [SweepLoop.withdraw, withdrawnFrom_append, withdrawnFrom_cons, withdrawnFrom_nil, hplace,
        add_zero, getD_some]
  refine ⟨?_, ?_, fun idx hidx ↦ ?_, fun j hj val' bal' hval' hbal' ↦ ?_⟩
  · cases amount with
    | none => exact hswept.payable
    | some amount =>
      refine hswept.payable.append hswept.withdrawalIndex (hplace.symm ▸ hbal) ?_
      rw [getD_some] at hle
      dsimp only
      rw [hplace]
      omega
  · cases amount with
    | none => exact hswept.withdrawalIndex
    | some amount =>
      rw [SweepLoop.withdraw, hswept.withdrawalIndex, add_one_mod, length_append, length_singleton]
  · rw [hfrom, if_neg (hidx rounds (lt_succ_self rounds)),
      hswept.ahead idx fun j hj ↦ hidx j (lt_succ_of_lt hj), add_zero]
  · rw [hfrom]
    rcases Nat.lt_succ_iff_lt_or_eq.1 hj with hlt | rfl
    · rw [if_neg (sweepPlace_ne st hlt hrounds).symm, add_zero]
      exact hswept.settled j hlt val' bal' hval' hbal'
    · obtain rfl : val = val' := some.inj (hval.symm.trans hval')
      obtain rfl : bal = bal' := some.inj (hbal.symm.trans hbal')
      rwa [if_pos rfl, ← Nat.sub_sub]

/-- What the sweep leaves: either it has made all its rounds and the list has room, or the list is
full and its last entry is for the validator that the sweep has reached. -/
structure SweepEnd (config : CoreConfig) (st : BeaconState) (partials : List Withdrawal)
    (rounds : ℕ) (acc : SweepLoop) : Prop where
  swept : Swept config st partials rounds acc
  rounds_le : rounds ≤ sweepBound config st
  length_le : acc.withdrawals.length ≤ config.maxWithdrawalsPerPayload
  room : acc.withdrawals.length < config.maxWithdrawalsPerPayload → rounds = sweepBound config st
  full : acc.withdrawals.length = config.maxWithdrawalsPerPayload → 0 < rounds ∧
    ∃ last, acc.withdrawals.getLast? = some last ∧
      last.validatorIndex = sweepPlace st (rounds - 1)

/-- A round of the sweep succeeds and serves one more validator. -/
theorem exists_sweepStep (hlimits : WithdrawalLimits config) (hst : Sweepable st)
    (hpartials : st.version.number < electra.number → partials = [])
    (hswept : Swept config st partials rounds acc) (hrounds : rounds < sweepBound config st)
    (hplace : acc.validatorIndex = sweepPlace st rounds)
    (hlen : acc.withdrawals.length < config.maxWithdrawalsPerPayload) :
    ∃ next stop, sweepStep config st (st.currentEpoch config) acc = .ok (next, stop) ∧
      (stop = true → SweepEnd config st partials (rounds + 1) next) ∧
      (stop = false → Swept config st partials (rounds + 1) next ∧
        next.validatorIndex = sweepPlace st (rounds + 1) ∧
        next.withdrawals.length < config.maxWithdrawalsPerPayload) := by
  have hrounds' : rounds < st.validators.length := hrounds.trans_le (min_le_left _ _)
  obtain ⟨val, bal, hval, hbal⟩ := hst.exists_entry (sweepPlace_lt hst rounds)
  have hnext := hswept.withdraw hlimits hst hrounds' hplace hval hbal
  unfold sweepStep
  rw [hplace]
  simp only [validatorAtIndex_eq_ok_iff.2 hval, balanceAtIndex_eq_ok_iff.2 hbal, wrapf_ok, ok_bind,
    sweepBalance_eq hst hswept hpartials hrounds' hbal]
  generalize sweepAmount config st (st.currentEpoch config) val
    (bal - withdrawnFrom acc.withdrawals (sweepPlace st rounds)) = amount at hnext ⊢
  have hidx : (acc.withdraw val amount).validatorIndex = sweepPlace st rounds := by
    rw [← hplace]
    cases amount <;> rfl
  have hmore : (acc.withdraw val amount).withdrawals.length ≤ acc.withdrawals.length + 1 := by
    cases amount <;> simp [SweepLoop.withdraw]
  by_cases hfull : (acc.withdraw val amount).withdrawals.length = config.maxWithdrawalsPerPayload
  · refine ⟨_, true, if_pos hfull, fun _ ↦ ⟨hnext, hrounds, hfull.le, fun hroom ↦ ?_, fun _ ↦ ?_⟩,
      nofun⟩
    · omega
    · cases amount with
      | none => exact absurd hfull hlen.ne
      | some amount => exact ⟨succ_pos _, _, getLast?_concat, hplace⟩
  · refine ⟨_, false, if_neg hfull, nofun, fun _ ↦
      ⟨⟨hnext.payable, hnext.withdrawalIndex, hnext.ahead, hnext.settled⟩, ?_, ?_⟩⟩
    · rw [hidx]
      exact sweepPlace_succ hst rounds
    · dsimp only
      omega

theorem exists_sweep (hlimits : WithdrawalLimits config) (hst : Sweepable st)
    {partials : PartialLoop} (hprog : PartialProgress config st partials)
    (hpartials : st.version.number < electra.number → partials.withdrawals = []) :
    ∃ acc, loop (fun acc _ ↦ sweepStep config st (st.currentEpoch config) acc)
        (List.range (sweepBound config st))
        ⟨partials.withdrawals, partials.withdrawalIndex, st.nextWithdrawalValidatorIndex⟩ =
          .ok acc ∧
      ∃ rounds, SweepEnd config st partials.withdrawals rounds acc := by
  refine exists_loop_post (fun rest acc ↦ ∃ rounds, rounds + rest.length = sweepBound config st ∧
      Swept config st partials.withdrawals rounds acc ∧ acc.validatorIndex = sweepPlace st rounds ∧
      acc.withdrawals.length < config.maxWithdrawalsPerPayload)
    (fun acc ↦ ∃ rounds, SweepEnd config st partials.withdrawals rounds acc)
    ⟨0, by simp, ⟨hprog.payable, hprog.withdrawalIndex, fun _ _ ↦ rfl, nofun⟩,
      (mod_eq_of_lt hst.nextWithdrawalValidatorIndex).symm,
      hprog.length.trans_lt hlimits.partials⟩ ?_ ?_
  · rintro _ rest acc ⟨rounds, hcount, hswept, hplace, hlen⟩
    rw [length_cons] at hcount
    obtain ⟨next, stop, hnext, hstop, hgo⟩ :=
      exists_sweepStep hlimits hst hpartials hswept (by omega) hplace hlen
    refine ⟨next, stop, hnext, fun h ↦ ⟨rounds + 1, hstop h⟩, fun h ↦ ?_⟩
    exact ⟨rounds + 1, by omega, hgo h⟩
  · rintro acc ⟨rounds, hcount, hswept, -, hlen⟩
    exact ⟨rounds, hswept, hcount.le, hlen.le, fun _ ↦ hcount, fun hfull ↦ by omega⟩

/-! ### Taking the amounts from the balances -/

/-- The balances after an amount was taken from one of them. -/
theorem getElem?_set_sub {bals : List ℕ} {idx amount : ℕ} (hbal : bals[idx]? = some bal)
    (other : ℕ) : (bals.set idx (bal - amount))[other]? =
      bals[other]?.map (· - if idx = other then amount else 0) := by
  by_cases hsame : idx = other
  · grind
  · rw [getElem?_set_ne hsame, if_neg hsame]
    simp

/-- The balances after the withdrawals of a list that they cover. -/
theorem exists_decreaseBalances
    (hcov : ∀ idx bal, st.balances[idx]? = some bal → withdrawnFrom withdrawals idx ≤ bal)
    (hknown : ∀ w ∈ withdrawals, w.validatorIndex < st.balances.length) :
    ∃ balances, withdrawals.foldlM (fun st withdrawal ↦
        wrapf (decreaseBalance st withdrawal.validatorIndex withdrawal.amount)
          "could not decrease balance" []) st = .ok { st with balances := balances } ∧
      (∀ idx bal, st.balances[idx]? = some bal →
        balances[idx]? = some (bal - withdrawnFrom withdrawals idx)) ∧
      balances.sum + (withdrawals.map (·.amount)).sum = st.balances.sum := by
  induction withdrawals generalizing st with
  | nil => exact ⟨st.balances, rfl, by simp, by simp⟩
  | cons w withdrawals ih =>
    obtain ⟨bal, hbal⟩ : ∃ bal, st.balances[w.validatorIndex]? = some bal :=
      ⟨_, getElem?_eq_getElem (hknown w mem_cons_self)⟩
    have hfirst := hcov _ _ hbal
    rw [withdrawnFrom_cons, if_pos rfl] at hfirst
    have hlow := decreaseBalance_eq_ok_iff.2 ⟨bal, hbal, Eq.refl
      { st with balances := st.balances.set w.validatorIndex (bal - w.amount) }⟩
    have hlowSum := decreaseBalance_sum hbal (by omega) hlow
    have hrest (idx before after : ℕ) (hbefore : st.balances[idx]? = some before)
        (hafter : after = before - if w.validatorIndex = idx then w.amount else 0) :
        withdrawnFrom withdrawals idx ≤ after := by
      have hle := hcov idx before hbefore
      rw [withdrawnFrom_cons] at hle
      omega
    obtain ⟨balances, hrun, hbals, hsum⟩ := @ih
      { st with balances := st.balances.set w.validatorIndex (bal - w.amount) }
      (fun idx after hafter ↦ by
        rw [getElem?_set_sub hbal, map_eq_some_iff] at hafter
        obtain ⟨before, hbefore, hafter⟩ := hafter
        exact hrest idx before after hbefore hafter.symm)
      (fun w' hmem ↦ by simpa using hknown w' (mem_cons_of_mem _ hmem))
    refine ⟨balances, ?_, ?_, ?_⟩
    · rw [foldlM_cons, hlow, wrapf_ok]
      exact hrun
    · intro idx before hbefore
      have hafter : (st.balances.set w.validatorIndex (bal - w.amount))[idx]? =
          some (before - if w.validatorIndex = idx then w.amount else 0) := by
        rw [getElem?_set_sub hbal, hbefore, map_some]
      rw [hbals idx _ hafter, withdrawnFrom_cons, Nat.sub_sub]
    · grind

/-! ### Withdrawals settle the validators that the sweep passes -/

/-- What the withdrawals of a payload leave: the amounts are gone from the balances, the registry
and the slot are as before, and the validators from the old start of the sweep on are settled.  How
many of them depends on the room in the payload. -/
structure Settles (config : CoreConfig) (st : BeaconState) (expected : List Withdrawal)
    (post : BeaconState) : Prop where
  registry : post.validators = st.validators ∧ post.slot = st.slot ∧ post.version = st.version
  balances : ∀ idx bal, st.balances[idx]? = some bal →
    post.balances[idx]? = some (bal - withdrawnFrom expected idx)
  sum : post.balances.sum + (expected.map (·.amount)).sum = st.balances.sum
  passed : ∃ rounds ≤ sweepBound config st,
    (expected.length < config.maxWithdrawalsPerPayload → rounds = sweepBound config st) ∧
    (expected.length = config.maxWithdrawalsPerPayload → 0 < rounds) ∧
    (expected.length = config.maxWithdrawalsPerPayload ∨
        config.maxValidatorsPerWithdrawalsSweep < st.validators.length →
      post.nextWithdrawalValidatorIndex = sweepPlace st rounds) ∧
    ∀ j < rounds, ∀ val bal, post.validators[sweepPlace st j]? = some val →
      post.balances[sweepPlace st j]? = some bal →
      Settled config val bal (post.currentEpoch config) post.version

/-- The start of the next sweep: the place that the sweep has reached, if the payload is full or the
bound of the sweep is below the number of validators. -/
theorem exists_nextSweepStart (hst : Sweepable st) (hend : SweepEnd config st partials rounds acc) :
    ∃ next, nextSweepStart config st acc.withdrawals = .ok next ∧
      (acc.withdrawals.length = config.maxWithdrawalsPerPayload ∨
        config.maxValidatorsPerWithdrawalsSweep < st.validators.length →
        next = sweepPlace st rounds) := by
  have hvals := hst.validators
  have hslice := hst.slice
  have hnext := hst.nextWithdrawalValidatorIndex
  unfold nextSweepStart
  by_cases hroom : acc.withdrawals.length < config.maxWithdrawalsPerPayload
  · rw [if_pos hroom, if_neg hvals.ne']
    refine ⟨_, rfl, fun hcase ↦ ?_⟩
    have hmany : config.maxValidatorsPerWithdrawalsSweep < st.validators.length :=
      hcase.resolve_left hroom.ne
    have hsmall : st.nextWithdrawalValidatorIndex + config.maxValidatorsPerWithdrawalsSweep <
        2 ^ 64 := by lia
    rw [mod_eq_of_lt hsmall, sweepPlace, hend.room hroom, sweepBound, min_eq_right hmany.le]
  · rw [if_neg hroom]
    have hfull : acc.withdrawals.length = config.maxWithdrawalsPerPayload :=
      le_antisymm hend.length_le (not_lt.1 hroom)
    obtain ⟨hpos, last, hlast, hplace⟩ := hend.full hfull
    have hlt := sweepPlace_lt hst (rounds - 1)
    have hsucc := sweepPlace_succ hst (rounds - 1)
    rw [Nat.sub_add_cancel hpos] at hsucc
    refine ⟨_, by rw [hlast], fun _ ↦ ?_⟩
    rw [hplace, mod_eq_of_lt (by lia)]
    exact hsucc

theorem exists_dequeueProcessed (hcount : count ≤ st.pendingPartialWithdrawals.length) :
    ∃ queue, dequeueProcessed st count = .ok { st with pendingPartialWithdrawals := queue } := by
  unfold dequeueProcessed dequeuePendingPartialWithdrawals
  by_cases helectra : st.version.number ≥ electra.number
  · rw [if_pos helectra, if_neg (not_lt.2 helectra), if_neg (not_lt.2 hcount), wrapf_ok]
    exact ⟨_, rfl⟩
  · rw [if_neg helectra]
    exact ⟨st.pendingPartialWithdrawals, rfl⟩

/-- The withdrawals of the sweep can be applied, and settle what the sweep has passed. -/
theorem exists_applyWithdrawals (hst : Sweepable st) (hend : SweepEnd config st partials rounds acc)
    (hcount : count ≤ st.pendingPartialWithdrawals.length) :
    ∃ post, applyWithdrawals config st acc.withdrawals count = .ok post ∧
      Settles config st acc.withdrawals post := by
  obtain ⟨balances, hrun, hbals, hsum⟩ :=
    exists_decreaseBalances hend.swept.payable.covered hend.swept.payable.known
  obtain ⟨queue, hqueue⟩ : ∃ queue, dequeueProcessed { st with balances := balances } count =
      .ok { st with balances := balances, pendingPartialWithdrawals := queue } :=
    exists_dequeueProcessed hcount
  obtain ⟨next, hnext, hplace⟩ := exists_nextSweepStart hst hend
  obtain ⟨index, hpost⟩ : ∃ index, applyWithdrawals config st acc.withdrawals count =
      .ok { st with
        balances := balances
        pendingPartialWithdrawals := queue
        nextWithdrawalIndex := index
        nextWithdrawalValidatorIndex := next } := by
    unfold applyWithdrawals
    rw [hrun, ok_bind, hqueue, ok_bind]
    cases hlast : acc.withdrawals.getLast? with
    | none | some last => exact ⟨_, bind_eq_ok_iff.2 ⟨next, hnext, rfl⟩⟩
  refine ⟨_, hpost, ⟨rfl, rfl, rfl⟩, hbals, hsum, rounds, hend.rounds_le, hend.room,
    fun hfull ↦ (hend.full hfull).1, hplace, ?_⟩
  intro j hj val after hval hafter
  obtain ⟨_, bal, -, hbal⟩ := hst.exists_entry (sweepPlace_lt hst j)
  obtain rfl : bal - withdrawnFrom acc.withdrawals (sweepPlace st j) = after :=
    some.inj ((hbals _ _ hbal).symm.trans hafter)
  exact hend.swept.settled j hj val bal hval hbal

/-- The withdrawals of a payload can be computed, are at most as many as fit into it, have
consecutive indices and are covered by the balances.  Whenever a payload passes, its withdrawals
have been taken from the balances and the validators that the sweep has passed are settled, and the
payload with the expected withdrawals passes. -/
theorem withdrawals_settle (config : CoreConfig) (hlimits : WithdrawalLimits config)
    (st : BeaconState) (hst : Sweepable st)
    (withdrawalSliceRoot : List Withdrawal → Except Fault Root) :
    ∃ expected count, expectedWithdrawals config st = .ok (expected, count) ∧
      expected.length ≤ config.maxWithdrawalsPerPayload ∧
      (∀ k w, expected[k]? = some w → w.index = (st.nextWithdrawalIndex + k) % 2 ^ 64) ∧
      (∀ idx bal, st.balances[idx]? = some bal → withdrawnFrom expected idx ≤ bal) ∧
      (∀ executionData post,
        processWithdrawals config withdrawalSliceRoot st executionData = .ok post →
        Settles config st expected post) ∧
      ∀ executionData root, withdrawalSliceRoot expected = .ok root →
        withdrawalsRoot withdrawalSliceRoot executionData expected = .ok root →
        ∃ post, processWithdrawals config withdrawalSliceRoot st executionData = .ok post := by
  obtain ⟨partials, hpartials, hprog, hcount, hnone⟩ := exists_partialWithdrawals config hst
  obtain ⟨acc, hacc, rounds, hend⟩ := exists_sweep hlimits hst hprog hnone
  obtain ⟨post, hpost, hsettles⟩ := exists_applyWithdrawals hst hend hcount
  have hexpected : expectedWithdrawals config st =
      .ok (acc.withdrawals, partials.processedPartialWithdrawalsCount) := by
    rw [expectedWithdrawals, if_neg (not_lt.2 hst.capella), hpartials, ok_bind, hacc]
    rfl
  refine ⟨acc.withdrawals, _, hexpected, hend.length_le, hend.swept.payable.indices,
    hend.swept.payable.covered, ?_, ?_⟩
  · intro executionData other hother
    simp only [processWithdrawals, hexpected, wrapf_ok, ok_bind, bind_eq_ok_iff] at hother
    obtain ⟨wdRoot, -, expectedRoot, -, hother⟩ := hother
    grind
  · intro executionData root hexpectedRoot hroot
    refine ⟨post, ?_⟩
    simp only [processWithdrawals, hexpected, wrapf_ok, ok_bind, hroot, hexpectedRoot, ne_eq,
      not_true_eq_false, if_false]
    exact hpost

theorem mainnetCore_withdrawalLimits : WithdrawalLimits mainnetCore := ⟨by decide, by decide⟩

/-- A Capella state with seventeen validators that have exited, one more than fit into a payload. -/
def exitedValidators : BeaconState :=
  { (default : BeaconState) with
    version := .capella
    slot := 3200
    validators := (List.range 17).map fun i ↦
      ⟨Fin.ofNat (2 ^ 384) i, Vector.replicate 32 1, 32 * 10 ^ 9, false, 0, 0, 10, 20⟩
    balances := List.replicate 17 (32 * 10 ^ 9)
    finalizedCheckpoint := ⟨98, 0⟩
    eth1DepositIndex := 17 }

theorem exitedValidators_sweepable : Sweepable exitedValidators where
  capella := by decide
  validators := by decide
  slice := by decide
  balances := by decide
  uint64 := by decide
  nextWithdrawalIndex := by decide
  nextWithdrawalValidatorIndex := by decide
  partials := nofun

theorem withdrawals_settle_exitedValidators :
    ∃ expected post, processWithdrawals mainnetCore (fun _ ↦ .ok 0) exitedValidators (.header 0) =
        .ok post ∧ Settles mainnetCore exitedValidators expected post := by
  obtain ⟨expected, _, -, -, -, -, hsettles, hexists⟩ := withdrawals_settle mainnetCore
    mainnetCore_withdrawalLimits exitedValidators exitedValidators_sweepable fun _ ↦ .ok 0
  obtain ⟨post, hpost⟩ := hexists (.header 0) 0 rfl rfl
  grind

/-- A full payload leaves the seventeenth validator fully withdrawable, although all seventeen are
within the bound of the sweep. -/
theorem seventeenth_validator_left :
    exitedValidators.validators.length ≤ mainnetCore.maxValidatorsPerWithdrawalsSweep ∧
      (processWithdrawals mainnetCore (fun _ ↦ .ok 0) exitedValidators (.header 0)).toOption.map
        (fun post ↦ post.validators[16]?.map fun val ↦
          isFullyWithdrawableValidator val (post.balances.getD 16 0) (post.currentEpoch mainnetCore)
            post.version) = some (some true) := by
  decide +kernel

end Prysm.Core
