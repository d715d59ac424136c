import Prysm.Core.PendingDeposits
import Mathlib.Data.List.Sort

/-!
# The bookkeeping of stake in Electra

Electra moves stake between the balances and the queue of pending deposits: the upgrade queues the
balances of validators that are not yet active and the excess of compounding ones, a switch to
compounding credentials queues the excess balance, and consolidations move a balance from one
validator to another.  None of them changes the stake of the state.  Processing pending deposits
loses exactly the deposits to new keys whose signature is invalid.
-/

namespace Prysm.Core

open List hiding Vector
open Prysm.Library BeaconState Version

variable (config : CoreConfig) (st : BeaconState)

def queueExcessActiveBalance (idx : ValidatorIndex) : Except Fault BeaconState := do
  let bal ← st.balanceAtIndex idx
  if bal > config.minActivationBalance then
    let st ← st.updateBalancesAtIndex idx config.minActivationBalance
    let val ← st.validatorAtIndex idx
    st.appendPendingDeposit
      { publicKey := val.publicKey
        withdrawalCredentials := val.withdrawalCredentials
        amount := bal - config.minActivationBalance
        signature := infiniteSignature
        slot := 0 }
  else .ok st

/-- `SwitchToCompoundingValidator`.  Withdrawal credentials have 32 bytes here, so that they are
never empty. -/
def switchToCompoundingValidator (idx : ValidatorIndex) : Except Fault BeaconState := do
  let v ← st.validatorAtIndex idx
  let st ← st.updateValidatorAtIndex idx
    { v with
      withdrawalCredentials :=
        v.withdrawalCredentials.set 0 compoundingWithdrawalPrefixByte thirtyTwo_pos }
  queueExcessActiveBalance config st idx

def queueEntireBalanceAndResetValidator (idx : ValidatorIndex) : Except Fault BeaconState := do
  let bal ← st.balanceAtIndex idx
  let st ← st.updateBalancesAtIndex idx 0
  let v ← st.validatorAtIndex idx
  let st ← st.updateValidatorAtIndex idx
    { v with effectiveBalance := 0, activationEligibilityEpoch := farFutureEpoch }
  st.appendPendingDeposit
    { publicKey := v.publicKey
      withdrawalCredentials := v.withdrawalCredentials
      amount := bal
      signature := infiniteSignature
      slot := 0 }

/-- The body of the loop of `ProcessPendingConsolidations`, over the state and
`nextPendingConsolidation`. -/
def consolidationStep (nextEpoch : Epoch) (acc : BeaconState × ℕ) (pc : PendingConsolidation) :
    Except Fault ((BeaconState × ℕ) × Bool) := do
  let sourceValidator ← acc.1.validatorAtIndex pc.sourceIndex
  if sourceValidator.slashed then .ok ((acc.1, acc.2 + 1), false)
  else if sourceValidator.withdrawableEpoch > nextEpoch then .ok (acc, true)
  else
    let validatorBalance ← acc.1.balanceAtIndex pc.sourceIndex
    let b := min validatorBalance sourceValidator.effectiveBalance
    let st ← decreaseBalance acc.1 pc.sourceIndex b
    let st ← increaseBalance st pc.targetIndex b
    .ok ((st, acc.2 + 1), false)

def processPendingConsolidations : Except Fault BeaconState :=
  if st.version.number < Version.electra.number then
    .error (errNotSupported "PendingConsolidations" st.version)
  else do
    let nextEpoch := (st.currentEpoch config + 1) % 2 ^ 64
    let (post, nextPendingConsolidation) ←
      loop (consolidationStep nextEpoch) st.pendingConsolidations (st, 0)
    if nextPendingConsolidation > 0 then
      .ok { post with
        pendingConsolidations := st.pendingConsolidations.drop nextPendingConsolidation }
    else .ok post

/-- The earliest epoch after every exit of the registry. -/
def electraExitEpoch : Epoch :=
  (st.validators.foldl (fun earliestExitEpoch val ↦
    if val.exitEpoch ≠ farFutureEpoch ∧ val.exitEpoch > earliestExitEpoch then val.exitEpoch
    else earliestExitEpoch) (activationExitEpoch config (st.currentEpoch config)) + 1) % 2 ^ 64

/-- The indices of the validators that the property holds of, in the order of the registry. -/
def indicesWhere (property : Validator → Bool) : List ValidatorIndex :=
  (List.range st.validators.length).filter fun idx ↦ st.validators[idx]?.any property

/-- The order of `preActivationIndices`: by activation eligibility epoch, then by index. -/
def activatesBefore (i j : ValidatorIndex) : Prop :=
  let epoch (idx : ValidatorIndex) : Epoch :=
    (st.validators[idx]?.map (·.activationEligibilityEpoch)).getD 0
  epoch i < epoch j ∨ epoch i = epoch j ∧ i ≤ j

instance (st : BeaconState) : DecidableRel (activatesBefore st) := fun _ _ ↦
  inferInstanceAs (Decidable (_ ∨ _))

/-- `consensus_types.ErrUnsupportedField`. -/
def errUnsupportedField : Fault := .error (.errorf "unsupported getter" [])

/-- The Electra state that `UpgradeToElectra` starts from. -/
def electraState : BeaconState :=
  let tab := totalActiveBalance config st
  { st with
    version := .electra
    depositRequestsStartIndex := unsetDepositRequestsStartIndex
    depositBalanceToConsume := 0
    exitBalanceToConsume := activationExitChurnLimit config tab
    earliestExitEpoch := electraExitEpoch config st
    consolidationBalanceToConsume := consolidationChurnLimit config tab
    earliestConsolidationEpoch := activationExitEpoch config (st.currentEpoch config)
    pendingDeposits := []
    pendingPartialWithdrawals := []
    pendingConsolidations := [] }

/-- `UpgradeToElectra`.  The first branches are the getters that fail on a state of an earlier
version. -/
def upgradeToElectra : Except Fault BeaconState :=
  if st.version = .phase0 then .error (errNotSupported "CurrentSyncCommittee" st.version)
  else if st.version.number < Version.bellatrix.number then
    .error (errNotSupported "LatestExecutionPayloadHeader" st.version)
  else if st.version.number < Version.deneb.number then .error errUnsupportedField
  else do
    let preActivationIndices := (indicesWhere st fun val ↦
      val.activationEpoch = farFutureEpoch).insertionSort (activatesBefore st)
    let compoundWithdrawalIndices := indicesWhere st (·.hasCompoundingWithdrawalCredentials)
    let post ← preActivationIndices.foldlM (fun post index ↦
      wrapf (queueEntireBalanceAndResetValidator post index)
        "failed to queue entire balance and reset validator" []) (electraState config st)
    compoundWithdrawalIndices.foldlM (fun post index ↦
      wrapf (queueExcessActiveBalance config post index) "failed to queue excess active balance" [])
      post

/-! ### Moving stake into the queue -/

variable {config} {st next post : BeaconState} {idx : ValidatorIndex} {pc : PendingConsolidation}
  {bal : ℕ} {deposit : PendingDeposit}

theorem appendPendingDeposit_eq_ok_iff :
    st.appendPendingDeposit deposit = .ok next ↔
      electra.number ≤ st.version.number ∧
        next = { st with pendingDeposits := st.pendingDeposits ++ [deposit] } := by
  unfold appendPendingDeposit
  grind

/-- Lowering a balance and queueing the difference keeps the stake. -/
theorem totalStake_queue (helectra : electra.number ≤ st.version.number) {left : ℕ}
    (hbal : st.balances[idx]? = some bal) (hleft : left ≤ bal) (validators : List Validator)
    (deposit : PendingDeposit) (hamount : deposit.amount = bal - left) :
    ({ st with
      validators := validators
      balances := st.balances.set idx left
      pendingDeposits := st.pendingDeposits ++ [deposit] } : BeaconState).totalStake =
      st.totalStake := by
  have hsum := sum_set_add hbal left
  simp only [totalStake, if_neg (Nat.not_lt.2 helectra), depositedAmount_append,
    depositedAmount_cons, depositedAmount_nil, hamount]
  omega

/-- What queueing the excess does: nothing, or one deposit of the excess. -/
theorem queueExcessActiveBalance_eq_ok_iff :
    queueExcessActiveBalance config st idx = .ok next ↔
      ∃ bal, st.balances[idx]? = some bal ∧
        (bal ≤ config.minActivationBalance ∧ next = st ∨
          config.minActivationBalance < bal ∧ electra.number ≤ st.version.number ∧
            ∃ val, st.validators[idx]? = some val ∧ next = { st with
              balances := st.balances.set idx config.minActivationBalance
              pendingDeposits := st.pendingDeposits ++
                [⟨val.publicKey, val.withdrawalCredentials, bal - config.minActivationBalance,
                  infiniteSignature, 0⟩] }) := by
  unfold queueExcessActiveBalance
  simp only [bind_eq_ok_iff, balanceAtIndex_eq_ok_iff]
  refine exists_congr fun bal ↦ and_congr_right fun hbal ↦ ?_
  by_cases hexcess : bal > config.minActivationBalance
  · rw [if_pos hexcess]
    simp only [bind_eq_ok_iff, updateBalancesAtIndex_eq_ok_iff, validatorAtIndex_eq_ok_iff,
      appendPendingDeposit_eq_ok_iff]
    grind
  · grind

theorem queueEntireBalanceAndResetValidator_eq_ok_iff :
    queueEntireBalanceAndResetValidator st idx = .ok next ↔
      electra.number ≤ st.version.number ∧ ∃ bal val, st.balances[idx]? = some bal ∧
        st.validators[idx]? = some val ∧ next = { st with
          validators := st.validators.set idx
            { val with effectiveBalance := 0, activationEligibilityEpoch := farFutureEpoch }
          balances := st.balances.set idx 0
          pendingDeposits := st.pendingDeposits ++
            [⟨val.publicKey, val.withdrawalCredentials, bal, infiniteSignature, 0⟩] } := by
  unfold queueEntireBalanceAndResetValidator
  simp only [bind_eq_ok_iff, balanceAtIndex_eq_ok_iff, updateBalancesAtIndex_eq_ok_iff,
    validatorAtIndex_eq_ok_iff, updateValidatorAtIndex_eq_ok_iff, appendPendingDeposit_eq_ok_iff]
  grind

/-! ### Each operation keeps the stake -/

/-- The states that the operations of Electra start from: every validator has a balance, pending
consolidations refer to validators, and the stake does not overflow. -/
structure Intact (st : BeaconState) : Prop where
  balances : st.balances.length = st.validators.length
  consolidations : ∀ pc ∈ st.pendingConsolidations,
    pc.sourceIndex < st.validators.length ∧ pc.targetIndex < st.validators.length
  stake : st.totalStake < 2 ^ 64

/-- The call keeps the stake, if it returns a state. -/
def Conserves (st : BeaconState) (call : Except Fault BeaconState) : Prop :=
  ∀ post, call = .ok post → post.totalStake = st.totalStake

theorem queueExcessActiveBalance_conserves (config : CoreConfig) (st : BeaconState)
    (idx : ValidatorIndex) : Conserves st (queueExcessActiveBalance config st idx) := by
  intro post hpost
  obtain ⟨bal, hbal, ⟨-, rfl⟩ | ⟨hlt, helectra, val, -, rfl⟩⟩ :=
    queueExcessActiveBalance_eq_ok_iff.1 hpost
  · rfl
  · exact totalStake_queue helectra hbal hlt.le _ _ rfl

theorem queueEntireBalanceAndResetValidator_conserves (st : BeaconState) (idx : ValidatorIndex) :
    Conserves st (queueEntireBalanceAndResetValidator st idx) := by
  intro post hpost
  obtain ⟨helectra, bal, val, hbal, -, rfl⟩ := queueEntireBalanceAndResetValidator_eq_ok_iff.1 hpost
  exact totalStake_queue helectra hbal (Nat.zero_le _) _ _ rfl

theorem switchToCompoundingValidator_conserves (config : CoreConfig) (st : BeaconState)
    (idx : ValidatorIndex) : Conserves st (switchToCompoundingValidator config st idx) := by
  intro post hpost
  simp only [switchToCompoundingValidator, bind_eq_ok_iff, updateValidatorAtIndex_eq_ok_iff]
    at hpost
  obtain ⟨v, -, _, ⟨-, rfl⟩, hqueue⟩ := hpost
  have hkept := queueExcessActiveBalance_conserves config _ idx post hqueue
  exact hkept

variable {nextEpoch : Epoch}

/-- What a round of the consolidations does: it moves a balance from the source to the target, or
changes no balance. -/
theorem consolidationStep_cases {acc next : BeaconState × ℕ} {stop : Bool}
    (hstep : consolidationStep nextEpoch acc pc = .ok (next, stop)) :
    next.1 = acc.1 ∨ ∃ bal moved lowered, acc.1.balances[pc.sourceIndex]? = some bal ∧ moved ≤ bal ∧
      decreaseBalance acc.1 pc.sourceIndex moved = .ok lowered ∧
      increaseBalance lowered pc.targetIndex moved = .ok next.1 := by
  simp only [consolidationStep, bind_eq_ok_iff] at hstep
  obtain ⟨source, -, hstep⟩ := hstep
  by_cases hslashed : source.slashed = true
  · grind
  rw [if_neg hslashed] at hstep
  by_cases hlater : source.withdrawableEpoch > nextEpoch
  · grind
  rw [if_neg hlater] at hstep
  simp only [bind_eq_ok_iff, balanceAtIndex_eq_ok_iff] at hstep
  obtain ⟨bal, hbal, lowered, hlowered, raised, hraised, hnext⟩ := hstep
  cases hnext
  grind

/-- The states differ only in how the same sum is spread over the balances. -/
def Rebalanced (st next : BeaconState) : Prop :=
  ∃ balances, next = { st with balances := balances } ∧ balances.sum = st.balances.sum ∧
    balances.length = st.balances.length

theorem Rebalanced.refl (st : BeaconState) : Rebalanced st st := ⟨st.balances, rfl, rfl, rfl⟩

theorem Rebalanced.trans (hfirst : Rebalanced st next) (hsnd : Rebalanced next post) :
    Rebalanced st post := by
  obtain ⟨bals, rfl, hsum, hlen⟩ := hfirst
  obtain ⟨bals', rfl, hsum', hlen'⟩ := hsnd
  exact ⟨bals', rfl, hsum'.trans hsum, hlen'.trans hlen⟩

theorem consolidationStep_rebalanced {acc next : BeaconState × ℕ} {stop : Bool}
    (hstep : consolidationStep nextEpoch acc pc = .ok (next, stop)) : Rebalanced acc.1 next.1 := by
  rcases consolidationStep_cases hstep with
    hsame | ⟨bal, moved, lowered, hbal, hmoved, hlow, hraise⟩
  · exact hsame ▸ .refl _
  · have hlowSum := decreaseBalance_sum hbal hmoved hlow
    have hraiseSum := increaseBalance_sum hraise
    obtain ⟨_, -, rfl⟩ := decreaseBalance_eq_ok_iff.1 hlow
    obtain ⟨_, -, -, hnext⟩ := increaseBalance_eq_ok_iff.1 hraise
    refine ⟨next.1.balances, ?_, by omega, ?_⟩
    · rw [hnext]
    · rw [hnext]
      simp

/-- A part of a balance can be moved to another one when the balances do not overflow. -/
theorem exists_move {source target : ValidatorIndex} {moved : ℕ}
    (hbal : st.balances[source]? = some bal) (hmoved : moved ≤ bal)
    (htgt : target < st.balances.length) (hsum : st.balances.sum < 2 ^ 64) :
    ∃ lowered raised, decreaseBalance st source moved = .ok lowered ∧
      increaseBalance lowered target moved = .ok raised := by
  have hlow := decreaseBalance_eq_ok_iff.2
    ⟨bal, hbal, Eq.refl { st with balances := st.balances.set source (bal - moved) }⟩
  have hlowSum := decreaseBalance_sum hbal hmoved hlow
  obtain ⟨raised, hraised⟩ := exists_increaseBalance (by simpa using htgt) (hlowSum.trans_lt hsum)
  exact ⟨_, raised, hlow, hraised⟩

/-- A round succeeds when the source and the target have balances that do not overflow. -/
theorem exists_consolidationStep (nextEpoch : Epoch) {acc : BeaconState × ℕ}
    (hbals : acc.1.balances.length = acc.1.validators.length)
    (hsrc : pc.sourceIndex < acc.1.validators.length)
    (htgt : pc.targetIndex < acc.1.validators.length) (hsum : acc.1.balances.sum < 2 ^ 64) :
    ∃ next stop, consolidationStep nextEpoch acc pc = .ok (next, stop) := by
  have hval := getElem?_eq_getElem hsrc
  have hbal := getElem?_eq_getElem (hbals.symm ▸ hsrc)
  obtain ⟨lowered, raised, hlow, hraise⟩ := exists_move hbal
    (Nat.min_le_left _ acc.1.validators[pc.sourceIndex].effectiveBalance) (hbals.symm ▸ htgt) hsum
  simp only [consolidationStep, validatorAtIndex_eq_ok_iff.2 hval, balanceAtIndex_eq_ok_iff.2 hbal]
  by_cases hslashed : acc.1.validators[pc.sourceIndex].slashed = true
  · exact ⟨_, false, if_pos hslashed⟩
  by_cases hlater : acc.1.validators[pc.sourceIndex].withdrawableEpoch > nextEpoch
  · exact ⟨_, true, (if_neg hslashed).trans (if_pos hlater)⟩
  refine ⟨(raised, acc.2 + 1), false, (if_neg hslashed).trans ((if_neg hlater).trans ?_)⟩
  simp only [bind_eq_ok_iff]
  exact ⟨_, rfl, lowered, hlow, raised, hraise, rfl⟩

theorem processPendingConsolidations_conserves (config : CoreConfig) (st : BeaconState) :
    Conserves st (processPendingConsolidations config st) := by
  intro post hpost
  unfold processPendingConsolidations at hpost
  split_ifs at hpost with helectra
  simp only [bind_eq_ok_iff] at hpost
  obtain ⟨⟨last, count⟩, hloop, hpost⟩ := hpost
  have hlast := loop_keeps (fun acc ↦ Rebalanced st acc.1) hloop (.refl st)
    fun _ _ _ _ hacc hstep ↦ hacc.trans (consolidationStep_rebalanced hstep)
  obtain ⟨bals, hlast, hsum, -⟩ := hlast
  subst hlast
  split_ifs at hpost <;>
  · obtain rfl := Except.ok.inj hpost
    simp only [totalStake, hsum]

theorem exists_processPendingConsolidations (config : CoreConfig)
    (helectra : electra.number ≤ st.version.number) (hintact : Intact st) :
    ∃ post, processPendingConsolidations config st = .ok post := by
  have hsum : st.balances.sum < 2 ^ 64 := (Nat.le_add_right _ _).trans_lt hintact.stake
  have hloop : ∃ acc, loop (consolidationStep ((st.currentEpoch config + 1) % 2 ^ 64))
      st.pendingConsolidations (st, 0) = .ok acc := by
    refine exists_loop_eq_ok (fun rest acc ↦ Rebalanced st acc.1 ∧ rest ⊆ st.pendingConsolidations)
      ⟨.refl st, fun _ ↦ id⟩ ?_
    rintro pc rest acc ⟨hacc, hrest⟩
    obtain ⟨hsrc, htgt⟩ := hintact.consolidations pc (hrest mem_cons_self)
    obtain ⟨bals, hmid, hmidSum, hmidLength⟩ := hacc
    obtain ⟨next, stop, hnext⟩ : ∃ next stop,
        consolidationStep ((st.currentEpoch config + 1) % 2 ^ 64) acc pc = .ok (next, stop) := by
      apply exists_consolidationStep
      · rw [hmid]
        exact hmidLength.trans hintact.balances
      · rwa [hmid]
      · rwa [hmid]
      · rw [hmid]
        exact hmidSum.trans_lt hsum
    exact ⟨next, stop, hnext, fun _ ↦
      ⟨.trans ⟨bals, hmid, hmidSum, hmidLength⟩ (consolidationStep_rebalanced hnext),
        fun _ hmem ↦ hrest (mem_cons_of_mem _ hmem)⟩⟩
  obtain ⟨⟨last, count⟩, hlast⟩ := hloop
  rw [processPendingConsolidations, if_neg (Nat.not_lt.2 helectra)]
  simp only [bind_eq_ok_iff]
  by_cases hcount : count > 0
  · exact ⟨_, _, hlast, if_pos hcount⟩
  · exact ⟨_, _, hlast, if_neg hcount⟩

/-! ### The upgrade -/

/-- The later state has the same validators and balances up to their values, so that the indices of
the earlier one stay valid. -/
structure SameSize (st next : BeaconState) : Prop where
  version : next.version = st.version
  validators : next.validators.length = st.validators.length
  balances : next.balances.length = st.balances.length

theorem mem_indicesWhere {property : Validator → Bool} (hidx : idx ∈ indicesWhere st property) :
    idx < st.validators.length :=
  mem_range.1 (mem_filter.1 hidx).1

theorem queueEntireBalanceAndResetValidator_sameSize
    (hqueue : queueEntireBalanceAndResetValidator st idx = .ok next) : SameSize st next := by
  obtain ⟨-, _, _, -, -, rfl⟩ := queueEntireBalanceAndResetValidator_eq_ok_iff.1 hqueue
  exact ⟨rfl, by simp, by simp⟩

theorem queueExcessActiveBalance_sameSize
    (hqueue : queueExcessActiveBalance config st idx = .ok next) : SameSize st next := by
  obtain ⟨_, -, ⟨-, rfl⟩ | ⟨-, -, _, -, rfl⟩⟩ := queueExcessActiveBalance_eq_ok_iff.1 hqueue
  · exact ⟨rfl, rfl, rfl⟩
  · exact ⟨rfl, rfl, by simp⟩

section

variable (config : CoreConfig) (helectra : Version.electra.number ≤ st.version.number)
  (hbals : st.balances.length = st.validators.length) (hidx : idx < st.validators.length)
include helectra hbals hidx

/-- The entire balance of a validator can be queued from Electra on. -/
theorem exists_queueEntireBalanceAndResetValidator :
    ∃ next, queueEntireBalanceAndResetValidator st idx = .ok next :=
  ⟨_, queueEntireBalanceAndResetValidator_eq_ok_iff.2 ⟨helectra, _, _,
    getElem?_eq_getElem (hbals.symm ▸ hidx), getElem?_eq_getElem hidx, rfl⟩⟩

/-- The excess of a validator can be queued from Electra on. -/
theorem exists_queueExcessActiveBalance :
    ∃ next, queueExcessActiveBalance config st idx = .ok next := by
  have hidx' : idx < st.balances.length := hbals.symm ▸ hidx
  have hbal := getElem?_eq_getElem hidx'
  have hval := getElem?_eq_getElem hidx
  by_cases hexcess : config.minActivationBalance < st.balances[idx]
  · exact ⟨_, queueExcessActiveBalance_eq_ok_iff.2
      ⟨_, hbal, .inr ⟨hexcess, helectra, _, hval, rfl⟩⟩⟩
  · exact ⟨st, queueExcessActiveBalance_eq_ok_iff.2 ⟨_, hbal, .inl ⟨Nat.not_lt.1 hexcess, rfl⟩⟩⟩

theorem exists_switchToCompoundingValidator :
    ∃ next, switchToCompoundingValidator config st idx = .ok next := by
  have hupd (val : Validator) : ∃ next, queueExcessActiveBalance config
      { st with validators := st.validators.set idx val } idx = .ok next :=
    exists_queueExcessActiveBalance config helectra (by simpa using hbals) (by simpa using hidx)
  obtain ⟨next, hnext⟩ := hupd { st.validators[idx] with
    withdrawalCredentials :=
      st.validators[idx].withdrawalCredentials.set 0 compoundingWithdrawalPrefixByte }
  simp only [switchToCompoundingValidator, bind_eq_ok_iff, validatorAtIndex_eq_ok_iff,
    updateValidatorAtIndex_eq_ok_iff]
  grind

end

/-- The upgrade keeps the stake of a state before Electra, which has no pending deposits. -/
theorem upgradeToElectra_conserves (config : CoreConfig)
    (hver : st.version.number < electra.number) : Conserves st (upgradeToElectra config st) := by
  intro post hpost
  unfold upgradeToElectra at hpost
  split_ifs at hpost
  simp only [bind_eq_ok_iff] at hpost
  obtain ⟨mid, hentire, hexcess⟩ := hpost
  have hstart : (electraState config st).totalStake = st.totalStake := by
    simp [totalStake, electraState, hver]
  have hmid := foldlM_invariant hentire (·.totalStake = st.totalStake) hstart
    fun index _ state next hst hstep ↦
      (queueEntireBalanceAndResetValidator_conserves state index next
        (wrapf_eq_ok_iff.1 hstep)).trans hst
  exact foldlM_invariant hexcess (·.totalStake = st.totalStake) hmid
    fun index _ state next hst hstep ↦ (queueExcessActiveBalance_conserves config state index next
        (wrapf_eq_ok_iff.1 hstep)).trans hst

theorem exists_foldlM_sameSize {operation : BeaconState → ValidatorIndex → Except Fault BeaconState}
    (msg : String) (hexists : ∀ st idx, electra.number ≤ st.version.number →
      st.balances.length = st.validators.length → idx < st.validators.length →
      ∃ next, operation st idx = .ok next)
    (hsame : ∀ st idx next, operation st idx = .ok next → SameSize st next)
    (helectra : electra.number ≤ st.version.number)
    (hbals : st.balances.length = st.validators.length) (indices : List ValidatorIndex)
    (hindices : ∀ idx ∈ indices, idx < st.validators.length) :
    ∃ post, indices.foldlM (fun post idx ↦ wrapf (operation post idx) msg []) st = .ok post ∧
      SameSize st post := by
  refine exists_foldlM_eq_ok _ _ _ (fun _ mid ↦ SameSize st mid) ⟨rfl, rfl, rfl⟩ ?_
  intro done idx rest mid hsplit hmid
  have hidx := hindices idx (hsplit.symm ▸ mem_append_right _ mem_cons_self)
  obtain ⟨next, hnext⟩ := hexists mid idx (hmid.version ▸ helectra)
    (by rw [hmid.balances, hmid.validators, hbals]) (hmid.validators.symm ▸ hidx)
  have hstep := hsame mid idx next hnext
  exact ⟨next, by rw [hnext, wrapf_ok], hstep.version.trans hmid.version,
    hstep.validators.trans hmid.validators, hstep.balances.trans hmid.balances⟩

theorem exists_upgradeToElectra (config : CoreConfig)
    (hver : deneb.number ≤ st.version.number)
    (hbals : st.balances.length = st.validators.length) :
    ∃ post, upgradeToElectra config st = .ok post := by
  have hphase : st.version ≠ .phase0 := by
    intro hphase
    rw [hphase] at hver
    exact absurd hver (by decide)
  have hbellatrix : ¬ st.version.number < bellatrix.number :=
    Nat.not_lt.2 (le_trans (by decide) hver)
  have helectra : electra.number ≤ (electraState config st).version.number := le_rfl
  obtain ⟨mid, hentire, hmid⟩ := exists_foldlM_sameSize
    "failed to queue entire balance and reset validator"
    (fun _ _ ↦ exists_queueEntireBalanceAndResetValidator)
    (fun _ _ _ ↦ queueEntireBalanceAndResetValidator_sameSize) helectra hbals
    ((indicesWhere st fun val ↦ val.activationEpoch = farFutureEpoch).insertionSort
      (activatesBefore st)) fun _ hmem ↦ mem_indicesWhere ((mem_insertionSort _).1 hmem)
  obtain ⟨post, hexcess, -⟩ := exists_foldlM_sameSize "failed to queue excess active balance"
    (fun _ _ ↦ exists_queueExcessActiveBalance config)
    (fun _ _ _ ↦ queueExcessActiveBalance_sameSize) (hmid.version ▸ helectra)
    (by rw [hmid.balances, hmid.validators]; exact hbals)
    (indicesWhere st (·.hasCompoundingWithdrawalCredentials)) fun _ hmem ↦
      hmid.validators.symm ▸ mem_indicesWhere hmem
  rw [upgradeToElectra, if_neg hphase, if_neg hbellatrix, if_neg (Nat.not_lt.2 hver)]
  simp only [bind_eq_ok_iff]
  exact ⟨post, mid, hentire, hexcess⟩

/-! ### Pending deposits -/

variable {valid : PendingDeposit → Bool} {deposits : List PendingDeposit}

/-- The amounts of the deposits that are lost when the deposits are applied in order: those with an
invalid signature whose key is not in the registry when they are applied. -/
def droppedAmount (validSignature : PendingDeposit → Bool) :
    List PubKey → List PendingDeposit → ℕ
  | _, [] => 0
  | known, deposit :: deposits =>
    if deposit.publicKey ∈ known then droppedAmount validSignature known deposits
    else if validSignature deposit then
      droppedAmount validSignature (known ++ [deposit.publicKey]) deposits
    else deposit.amount + droppedAmount validSignature known deposits

/-- The keys of the registry. -/
def BeaconState.pubKeys (st : BeaconState) : List PubKey := st.validators.map (·.publicKey)

theorem mem_pubKeys_iff {key : PubKey} :
    key ∈ st.pubKeys ↔ ∃ index, st.validatorIndexByPubkey key = some index := by
  unfold pubKeys validatorIndexByPubkey
  rw [← Option.isSome_iff_exists, findIdx?_isSome, any_eq_true, mem_map]
  simp only [decide_eq_true_eq]

/-- Deposits to keys that were known before do not matter. -/
theorem droppedAmount_filter {before known : List PubKey} (hbefore : before ⊆ known)
    (deposits : List PendingDeposit) :
    droppedAmount valid known (deposits.filter (·.publicKey ∉ before)) =
      droppedAmount valid known deposits := by
  induction deposits generalizing known with
  | nil => rfl
  | cons deposit deposits ih =>
    have hmore : before ⊆ known ++ [deposit.publicKey] :=
      fun _ hkey ↦ mem_append_left _ (hbefore hkey)
    by_cases hmem : deposit.publicKey ∈ before
    · simp only [filter_cons, hmem, not_true_eq_false, decide_false, Bool.false_eq_true,
        if_false, droppedAmount, hbefore hmem, if_true, ih hbefore]
    · simp only [filter_cons, hmem, not_false_eq_true, decide_true, if_true, droppedAmount,
        ih hbefore, ih hmore]

theorem foldlM_balances_sum
    (hrun : deposits.foldlM (applyPendingDeposit config valid) st = .ok next) :
    next.balances.sum + droppedAmount valid st.pubKeys deposits =
      st.balances.sum + depositedAmount deposits := by
  induction deposits generalizing st with
  | nil =>
    obtain rfl := Except.ok.inj hrun
    rfl
  | cons deposit deposits ih =>
    rw [foldlM_cons, bind_eq_ok_iff] at hrun
    obtain ⟨mid, happly, hrest⟩ := hrun
    have hsum := ih hrest
    rw [droppedAmount, depositedAmount_cons]
    rcases applyPendingDeposit_eq_ok_iff.1 happly with ⟨hnew, rfl⟩ | ⟨index, hidx, hraise⟩
    · have hunknown : deposit.publicKey ∉ st.pubKeys := by
        rw [mem_pubKeys_iff, hnew]
        simp
      split_ifs at hsum ⊢ with hvalid
      · obtain ⟨hvals, hbals⟩ := addValidatorToRegistry_fields config st deposit.publicKey
          deposit.withdrawalCredentials deposit.amount
        have hkeys : (addValidatorToRegistry config st deposit.publicKey
            deposit.withdrawalCredentials deposit.amount).pubKeys =
            st.pubKeys ++ [deposit.publicKey] := by
          rw [pubKeys, hvals, map_append]
          rfl
        grind
      · omega
    · have hraiseSum := increaseBalance_sum hraise
      have hkeys : mid.pubKeys = st.pubKeys := by
        obtain ⟨_, -, -, rfl⟩ := increaseBalance_eq_ok_iff.1 hraise
        rfl
      rw [if_pos (mem_pubKeys_iff.2 ⟨index, hidx⟩), ← hkeys]
      omega

/-- What one round of the loop over pending deposits does: it stops, raises the balance of a known
key, postpones a deposit to a known key, or sets a deposit to a new key aside. -/
theorem depositStep_cases {slot : Slot} {startIndex available : ℕ} {acc next : DepositLoop}
    {stop : Bool} (hstep : depositStep config nextEpoch slot startIndex available acc deposit =
      .ok (next, stop)) :
    (stop = true ∧ next = { acc with isChurnLimitReached := next.isChurnLimitReached }) ∨
      stop = false ∧ ((∃ index raised,
          acc.st.validatorIndexByPubkey deposit.publicKey = some index ∧
            increaseBalance acc.st index deposit.amount = .ok raised ∧ next = { acc with
              st := raised
              processedAmount := next.processedAmount
              isChurnLimitReached := next.isChurnLimitReached
              nextDepositIndex := acc.nextDepositIndex + 1 }) ∨
        (∃ index, acc.st.validatorIndexByPubkey deposit.publicKey = some index ∧ next = { acc with
          toPostpone := acc.toPostpone ++ [deposit]
          nextDepositIndex := acc.nextDepositIndex + 1 }) ∨
        acc.st.validatorIndexByPubkey deposit.publicKey = none ∧ next = { acc with
          processedAmount := next.processedAmount
          isChurnLimitReached := next.isChurnLimitReached
          toBatchVerify := acc.toBatchVerify ++ [deposit]
          nextDepositIndex := acc.nextDepositIndex + 1 }) := by
  unfold depositStep at hstep
  by_cases hstop : stopsAt config acc.st acc.nextDepositIndex slot startIndex deposit = true
  · rw [if_pos hstop] at hstep
    cases hstep
    exact .inl ⟨rfl, rfl⟩
  rw [if_neg hstop] at hstep
  simp only [bind_eq_ok_iff] at hstep
  obtain ⟨⟨exited, withdrawn⟩, hflags, hstep⟩ := hstep
  unfold handleDeposit at hstep
  cases hidx : acc.st.validatorIndexByPubkey deposit.publicKey with
  | none =>
    rw [hidx] at hflags hstep
    cases hflags
    grind
  | some index =>
    rw [hidx] at hstep
    by_cases hwithdrawn : withdrawn = true
    · simp only [if_pos hwithdrawn, bind_eq_ok_iff, wrapf_eq_ok_iff] at hstep
      obtain ⟨raised, hraised, hnext⟩ := hstep
      grind
    by_cases hexited : exited = true
    · grind
    by_cases hlimit : (acc.processedAmount + deposit.amount) % 2 ^ 64 > available
    · grind
    · simp only [if_neg hwithdrawn, if_neg hexited, if_neg hlimit, bind_eq_ok_iff,
        wrapf_eq_ok_iff] at hstep
      obtain ⟨raised, hraised, hnext⟩ := hstep
      grind

/-- The state of the loop after the deposits were processed: the registry is unchanged, deposits to
new keys are set aside, some deposits to known keys are postponed, and all others are in the
balances. -/
structure Progress (st : BeaconState) (processed : List PendingDeposit) (acc : DepositLoop) :
    Prop where
  count : acc.nextDepositIndex = processed.length
  version : acc.st.version = st.version
  validators : acc.st.validators = st.validators
  toBatchVerify : acc.toBatchVerify = processed.filter (·.publicKey ∉ st.pubKeys)
  toPostpone : acc.toPostpone.Sublist (processed.filter (·.publicKey ∈ st.pubKeys))
  sum : acc.st.balances.sum + depositedAmount acc.toBatchVerify + depositedAmount acc.toPostpone =
    st.balances.sum + depositedAmount processed

section Rounds

variable {nextEpoch : Epoch} {slot : Slot} {startIndex available : ℕ}
  {acc next : DepositLoop} {deposit : PendingDeposit} {processed : List PendingDeposit}

/-- A round that stops has processed no deposit. -/
theorem Progress.stop (hprog : Progress st processed acc)
    (hstep : depositStep config nextEpoch slot startIndex available acc deposit =
      .ok (next, true)) : Progress st processed next := by
  rcases depositStep_cases hstep with ⟨-, hnext⟩ | ⟨hstop, -⟩
  · rw [hnext]
    exact ⟨hprog.count, hprog.version, hprog.validators, hprog.toBatchVerify,
      hprog.toPostpone, hprog.sum⟩
  · cases hstop

/-- A round that goes on has processed its deposit. -/
theorem Progress.round (hprog : Progress st processed acc)
    (hstep : depositStep config nextEpoch slot startIndex available acc deposit =
      .ok (next, false)) : Progress st (processed ++ [deposit]) next := by
  obtain ⟨hcount, hver, hvals, hbatch, hpostpone, hsum⟩ := hprog
  have hkeys : acc.st.pubKeys = st.pubKeys := by
    rw [pubKeys, hvals, pubKeys]
  have hmore : depositedAmount (processed ++ [deposit]) =
      depositedAmount processed + deposit.amount := by simp
  rcases depositStep_cases hstep with ⟨hstop, -⟩ | ⟨-, ⟨index, raised, hidx, hraise, hnext⟩ |
    ⟨index, hidx, hnext⟩ | ⟨hnew, hnext⟩⟩
  · cases hstop
  · have hknown : deposit.publicKey ∈ st.pubKeys := hkeys ▸ mem_pubKeys_iff.2 ⟨index, hidx⟩
    have hraiseSum := increaseBalance_sum hraise
    obtain ⟨balances, hraised⟩ : ∃ balances, raised = { acc.st with balances := balances } := by
      obtain ⟨_, -, -, hraised⟩ := increaseBalance_eq_ok_iff.1 hraise
      exact ⟨_, hraised⟩
    rw [hnext]
    refine ⟨by simp [hcount], by rw [hraised, hver], by rw [hraised, hvals], ?_, ?_, ?_⟩
    · simp [filter_append, hknown, hbatch]
    · grind
    · dsimp only
      omega
  · have hknown : deposit.publicKey ∈ st.pubKeys := hkeys ▸ mem_pubKeys_iff.2 ⟨index, hidx⟩
    rw [hnext]
    refine ⟨by simp [hcount], hver, hvals, ?_, ?_, ?_⟩
    · simp [filter_append, hknown, hbatch]
    · simpa [filter_append, hknown] using hpostpone
    · simp only [depositedAmount_append, depositedAmount_cons, depositedAmount_nil]
      omega
  · have hunknown : deposit.publicKey ∉ st.pubKeys := by
      rw [← hkeys, mem_pubKeys_iff, hnew]
      simp
    rw [hnext]
    refine ⟨by simp [hcount], hver, hvals, ?_, ?_, ?_⟩
    · simp [filter_append, hunknown, hbatch]
    · simpa [filter_append, hunknown] using hpostpone
    · simp only [depositedAmount_append, depositedAmount_cons, depositedAmount_nil]
      omega

end Rounds

/-- Processing pending deposits loses exactly the amounts of the processed deposits with an invalid
signature whose key is not in the registry when they are applied. -/
theorem processPendingDeposits_dropped {batchVerify : List PendingDeposit → Bool}
    {activeBalance : ℕ} (hbatch : ∀ deposits, batchVerify deposits = deposits.all valid)
    (hrun : processPendingDeposits config valid batchVerify st activeBalance = .ok post) :
    ∃ processed remaining postponed, st.pendingDeposits = processed ++ remaining ∧
      post.pendingDeposits = remaining ++ postponed ∧
      postponed.Sublist (processed.filter (·.publicKey ∈ st.pubKeys)) ∧
      post.totalStake + droppedAmount valid st.pubKeys processed = st.totalStake := by
  unfold processPendingDeposits at hrun
  split_ifs at hrun with hver
  · cases hrun
  simp only [bind_eq_ok_iff, wrapf_eq_ok_iff] at hrun
  obtain ⟨slot, -, acc, hloop, last, hlast, hpost⟩ := hrun
  obtain ⟨processed, remaining, hsplit, hprog⟩ :
      ∃ processed remaining, st.pendingDeposits = processed ++ remaining ∧
        Progress st processed acc := by
    refine loop_invariant (fun rest acc ↦ ∃ processed, st.pendingDeposits = processed ++ rest ∧
        Progress st processed acc)
      (fun acc ↦ ∃ processed remaining, st.pendingDeposits = processed ++ remaining ∧
        Progress st processed acc) hloop ⟨[], rfl, rfl, rfl, rfl, rfl, nil_sublist _, rfl⟩ ?_ ?_ ?_
    · rintro deposit rest acc next ⟨processed, hsplit, hprog⟩ hstep
      exact ⟨processed ++ [deposit], by simp [hsplit], hprog.round hstep⟩
    · rintro deposit rest acc next ⟨processed, hsplit, hprog⟩ hstep
      exact ⟨processed, deposit :: rest, hsplit, hprog.stop hstep⟩
    · grind
  rw [batchProcessNewPendingDeposits_eq_ok_iff hbatch] at hlast
  have hkeys : acc.st.pubKeys = st.pubKeys := by
    rw [pubKeys, hprog.validators, pubKeys]
  have hsum := foldlM_balances_sum hlast
  rw [hkeys, hprog.toBatchVerify, droppedAmount_filter fun _ ↦ id, ← hprog.toBatchVerify] at hsum
  have hlastVersion := (extends_foldlM hlast).version.trans hprog.version
  obtain rfl := Except.ok.inj hpost
  refine ⟨processed, remaining, acc.toPostpone, hsplit, ?_, hprog.toPostpone, ?_⟩
  · simp [hsplit, hprog.count]
  · have htotal := hprog.sum
    simp only [totalStake, hlastVersion, if_neg hver, hsplit, hprog.count,
      drop_left, depositedAmount_append]
    omega

/-! ### Stake is neither created nor destroyed -/

/-- The upgrade of a state before Electra, switches to compounding credentials, queued balances and
consolidations keep the stake, and pending deposits lose exactly the dropped amounts.  All of them
succeed on states that are intact. -/
theorem bookkeeping_conserves_stake (config : CoreConfig) (validSignature : PendingDeposit → Bool)
    (batchVerify : List PendingDeposit → Bool)
    (hbatch : ∀ deposits, batchVerify deposits = deposits.all validSignature) (st : BeaconState) :
    (st.version.number < Version.electra.number → Conserves st (upgradeToElectra config st)) ∧
      (∀ idx, Conserves st (switchToCompoundingValidator config st idx) ∧
        Conserves st (queueExcessActiveBalance config st idx) ∧
        Conserves st (queueEntireBalanceAndResetValidator st idx)) ∧
      Conserves st (processPendingConsolidations config st) ∧
      (∀ activeBalance post,
        processPendingDeposits config validSignature batchVerify st activeBalance = .ok post →
        ∃ processed remaining postponed, st.pendingDeposits = processed ++ remaining ∧
          post.pendingDeposits = remaining ++ postponed ∧
          postponed.Sublist (processed.filter (·.publicKey ∈ st.pubKeys)) ∧
          post.totalStake + droppedAmount validSignature st.pubKeys processed = st.totalStake) ∧
      (Intact st → Version.deneb.number ≤ st.version.number →
        ∃ post, upgradeToElectra config st = .ok post) ∧
      (Intact st → Version.electra.number ≤ st.version.number →
        (∀ idx < st.validators.length,
          (∃ post, switchToCompoundingValidator config st idx = .ok post) ∧
          (∃ post, queueExcessActiveBalance config st idx = .ok post) ∧
          ∃ post, queueEntireBalanceAndResetValidator st idx = .ok post) ∧
        (∃ post, processPendingConsolidations config st = .ok post) ∧
        ∀ activeBalance, NoOverflow config st activeBalance → ∃ post,
          processPendingDeposits config validSignature batchVerify st activeBalance =
            .ok post) := by
  refine ⟨upgradeToElectra_conserves config, fun idx ↦
    ⟨switchToCompoundingValidator_conserves config st idx,
      queueExcessActiveBalance_conserves config st idx,
      queueEntireBalanceAndResetValidator_conserves st idx⟩,
    processPendingConsolidations_conserves config st,
    fun activeBalance post ↦ processPendingDeposits_dropped hbatch,
    fun hintact hdeneb ↦ exists_upgradeToElectra config hdeneb hintact.balances,
    fun hintact helectra ↦ ⟨fun idx hidx ↦
      ⟨exists_switchToCompoundingValidator config helectra hintact.balances hidx,
        exists_queueExcessActiveBalance config helectra hintact.balances hidx,
        exists_queueEntireBalanceAndResetValidator helectra hintact.balances hidx⟩,
      exists_processPendingConsolidations config helectra hintact, fun activeBalance hfits ↦ ?_⟩⟩
  obtain ⟨post, hpost⟩ :=
    exists_specProcessPendingDeposits validSignature helectra hintact.balances.ge hfits
  exact ⟨post, processPendingDeposits_of_spec hbatch helectra hintact.balances.ge hpost⟩

/-- The withdrawn and the exiting validator are to be consolidated into the active one. -/
def consolidating : BeaconState :=
  { mixedQueue with
    balances := [32 * 10 ^ 9, 32 * 10 ^ 9, 5 * 10 ^ 9]
    pendingConsolidations := [⟨2, 0⟩, ⟨1, 0⟩] }

theorem consolidating_noOverflow : NoOverflow mainnetCore consolidating (64 * 10 ^ 9) :=
  ⟨by decide, by decide, by decide, by decide⟩

/-- The first consolidation is carried out, and the first deposit has an invalid signature. -/
theorem bookkeeping_conserves_stake_consolidating :
    (∃ post, processPendingConsolidations mainnetCore consolidating = .ok post ∧
      post.totalStake = consolidating.totalStake) ∧
    ∃ post processed remaining,
      processPendingDeposits mainnetCore (·.amount = 32 * 10 ^ 9) (·.all (·.amount = 32 * 10 ^ 9))
        consolidating (64 * 10 ^ 9) = .ok post ∧
      consolidating.pendingDeposits = processed ++ remaining ∧
      post.totalStake + droppedAmount (·.amount = 32 * 10 ^ 9) consolidating.pubKeys processed =
        consolidating.totalStake ∧ post.totalStake + 10 ^ 9 = consolidating.totalStake := by
  obtain ⟨-, -, hconserves, hdropped, -, hexists⟩ := bookkeeping_conserves_stake mainnetCore
    (·.amount = 32 * 10 ^ 9) (·.all (·.amount = 32 * 10 ^ 9)) (fun _ ↦ rfl) consolidating
  obtain ⟨-, ⟨merged, hmerged⟩, hdeposits⟩ :=
    hexists ⟨rfl, by decide, by decide⟩ (by decide)
  obtain ⟨post, hpost⟩ := hdeposits (64 * 10 ^ 9) consolidating_noOverflow
  obtain ⟨processed, remaining, -, hsplit, -, -, hstake⟩ := hdropped _ post hpost
  have hvalue : (processPendingDeposits mainnetCore (·.amount = 32 * 10 ^ 9)
      (·.all (·.amount = 32 * 10 ^ 9)) consolidating (64 * 10 ^ 9)).toOption.map
        (·.totalStake + 10 ^ 9) = some consolidating.totalStake := by decide +kernel
  rw [hpost] at hvalue
  exact ⟨⟨merged, hmerged, hconserves merged hmerged⟩, post, processed, remaining, hpost, hsplit,
    hstake, Option.some.inj hvalue⟩

/-- A new key with a valid deposit followed by one with an invalid signature, which is then no
deposit to a new key any more. -/
def validThenInvalid : BeaconState :=
  { mixedQueue with pendingDeposits :=
    [⟨4, Vector.replicate 32 1, 32 * 10 ^ 9, infiniteSignature, 3000⟩,
      ⟨4, Vector.replicate 32 1, 10 ^ 9, infiniteSignature, 3001⟩] }

/-- Upgrading a state that already is an Electra state drops its pending deposits, and a deposit
with an invalid signature to a key that the registry did not have before is not lost when a valid
deposit of the same queue comes first. -/
theorem stake_of_upgraded_electra_and_repeated_key :
    ((upgradeToElectra mainnetCore mixedQueue).toOption.map (·.totalStake) =
        some (64 * 10 ^ 9) ∧ mixedQueue.totalStake = 101 * 10 ^ 9) ∧
      (processPendingDeposits mainnetCore (·.amount = 32 * 10 ^ 9)
        (·.all (·.amount = 32 * 10 ^ 9)) validThenInvalid (64 * 10 ^ 9)).toOption.map
          (fun post ↦ (post.totalStake, post.pendingDeposits)) =
        some (validThenInvalid.totalStake, []) := by
  decide +kernel

end Prysm.Core
