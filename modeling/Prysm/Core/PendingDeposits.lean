import Prysm.Core.State
import Prysm.Library.Loop
import Prysm.Library.Run

/-!
# Pending deposits

`ProcessPendingDeposits` of `core/electra/deposits.go` applies a deposit to a known key when it
reaches it, but sets deposits to new keys aside, verifies their signatures in one batch and applies
them after the loop.  The specification applies every deposit when it is reached.  The two leave the
same state: what a deposit to a new key does, appending a validator or raising the balance of an
appended one, commutes with what a deposit to an old key does.
-/

namespace Prysm.Core

open List hiding Vector
open Prysm.Library Option

variable (config : CoreConfig)

def getValidatorFromDeposit (pubKey : PubKey) (withdrawalCredentials : WithdrawalCredentials)
    (amount : ℕ) : Validator :=
  let validator : Validator :=
    { publicKey := pubKey
      withdrawalCredentials := withdrawalCredentials
      effectiveBalance := 0
      slashed := false
      activationEligibilityEpoch := farFutureEpoch
      activationEpoch := farFutureEpoch
      exitEpoch := farFutureEpoch
      withdrawableEpoch := farFutureEpoch }
  { validator with
    effectiveBalance := min (amount - amount % config.effectiveBalanceIncrement)
      (validatorMaxEffectiveBalance config validator) }

def addValidatorToRegistry (st : BeaconState) (pubKey : PubKey)
    (withdrawalCredentials : WithdrawalCredentials) (amount : ℕ) : BeaconState :=
  let st := { st with
    validators :=
      st.validators ++ [getValidatorFromDeposit config pubKey withdrawalCredentials amount]
    balances := st.balances ++ [amount] }
  if st.version.number ≥ Version.altair.number then
    { st with
      inactivityScores := st.inactivityScores ++ [0]
      previousEpochParticipation := st.previousEpochParticipation ++ [0]
      currentEpochParticipation := st.currentEpochParticipation ++ [0] }
  else st

variable (validSignature : PendingDeposit → Bool)

/-- `ApplyPendingDeposit`; `validSignature` is `IsValidDepositSignature`. -/
def applyPendingDeposit (st : BeaconState) (deposit : PendingDeposit) : Except Fault BeaconState :=
  match st.validatorIndexByPubkey deposit.publicKey with
  | none =>
    if validSignature deposit then
      .ok (addValidatorToRegistry config st deposit.publicKey deposit.withdrawalCredentials
        deposit.amount)
    else .ok st
  | some index => increaseBalance st index deposit.amount

/-- The body of the loop of `batchProcessNewPendingDeposits`. -/
def batchStep (allSignaturesVerified : Bool) (st : BeaconState) (pd : PendingDeposit) :
    Except Fault BeaconState :=
  let validSig := if allSignaturesVerified then true else validSignature pd
  match st.validatorIndexByPubkey pd.publicKey with
  | some index => wrapf (increaseBalance st index pd.amount) "could not increase balance" []
  | none =>
    if validSig then
      .ok (addValidatorToRegistry config st pd.publicKey pd.withdrawalCredentials pd.amount)
    else .ok st

/-- `batchProcessNewPendingDeposits`; `batchVerify` is `BatchVerifyPendingDepositsSignatures`. -/
def batchProcessNewPendingDeposits (batchVerify : List PendingDeposit → Bool) (st : BeaconState)
    (pendingDeposits : List PendingDeposit) : Except Fault BeaconState :=
  if pendingDeposits.length = 0 then .ok st
  else pendingDeposits.foldlM (batchStep config validSignature (batchVerify pendingDeposits)) st

/-- The variables of the loop of `ProcessPendingDeposits`. -/
structure DepositLoop where
  st : BeaconState
  processedAmount : ℕ
  nextDepositIndex : ℕ
  isChurnLimitReached : Bool
  toBatchVerify : List PendingDeposit
  toPostpone : List PendingDeposit

/-- Whether the validator at the index is exiting and whether it is withdrawn. -/
def exitedAndWithdrawn (st : BeaconState) (index : Option ValidatorIndex) (nextEpoch : Epoch) :
    Except Fault (Bool × Bool) :=
  match index with
  | none => .ok (false, false)
  | some index => do
    let val ← wrapf (st.validatorAtIndex index) "could not get validator" []
    .ok (decide (val.exitEpoch < farFutureEpoch), decide (val.withdrawableEpoch < nextEpoch))

/-- The checks before a deposit is looked at: bridge deposits first, finalized deposits only, and no
more than the limit of an epoch. -/
def stopsAt (st : BeaconState) (nextDepositIndex : ℕ) (finalizedSlot : Slot) (startIndex : ℕ)
    (deposit : PendingDeposit) : Bool :=
  (deposit.slot > 0 && st.eth1DepositIndex < startIndex) || deposit.slot > finalizedSlot ||
    nextDepositIndex ≥ config.maxPendingDepositsPerEpoch

/-- The branches of the loop of `ProcessPendingDeposits` on a deposit whose key has the index and
the flags. -/
def handleDeposit (availableForProcessing : ℕ) (acc : DepositLoop) (deposit : PendingDeposit)
    (index : Option ValidatorIndex) (isValidatorExited isValidatorWithdrawn : Bool) :
    Except Fault (DepositLoop × Bool) :=
  if isValidatorWithdrawn then do
    let st ← wrapf (increaseBalance acc.st (index.getD 0) deposit.amount)
      "could not increase balance" []
    .ok ({ acc with st := st, nextDepositIndex := acc.nextDepositIndex + 1 }, false)
  else if isValidatorExited then
    .ok ({ acc with
      toPostpone := acc.toPostpone ++ [deposit]
      nextDepositIndex := acc.nextDepositIndex + 1 }, false)
  else if (acc.processedAmount + deposit.amount) % 2 ^ 64 > availableForProcessing then
    .ok ({ acc with isChurnLimitReached := true }, true)
  else
    let acc := { acc with
      isChurnLimitReached := false
      processedAmount := (acc.processedAmount + deposit.amount) % 2 ^ 64 }
    match index with
    | some index => do
      let st ← wrapf (increaseBalance acc.st index deposit.amount) "could not increase balance" []
      .ok ({ acc with st := st, nextDepositIndex := acc.nextDepositIndex + 1 }, false)
    | none =>
      .ok ({ acc with
        toBatchVerify := acc.toBatchVerify ++ [deposit]
        nextDepositIndex := acc.nextDepositIndex + 1 }, false)

/-- The body of the loop of `ProcessPendingDeposits`. -/
def depositStep (nextEpoch : Epoch) (finalizedSlot : Slot) (startIndex availableForProcessing : ℕ)
    (acc : DepositLoop) (deposit : PendingDeposit) : Except Fault (DepositLoop × Bool) :=
  if stopsAt config acc.st acc.nextDepositIndex finalizedSlot startIndex deposit then
    .ok (acc, true)
  else do
    let index := acc.st.validatorIndexByPubkey deposit.publicKey
    let (isValidatorExited, isValidatorWithdrawn) ← exitedAndWithdrawn acc.st index nextEpoch
    handleDeposit availableForProcessing acc deposit index isValidatorExited isValidatorWithdrawn

def processPendingDeposits (batchVerify : List PendingDeposit → Bool) (st : BeaconState)
    (activeBalance : ℕ) : Except Fault BeaconState :=
  if st.version.number < Version.electra.number then
    wrapf (.error (errNotSupported "DepositBalanceToConsume" st.version))
      "could not get deposit balance to consume" []
  else do
    let nextEpoch := (st.currentEpoch config + 1) % 2 ^ 64
    let availableForProcessing :=
      (st.depositBalanceToConsume + activationExitChurnLimit config activeBalance) % 2 ^ 64
    let finalizedSlot ← wrapf (epochStart config.toBeaconChainConfig st.finalizedCheckpoint.epoch)
      "could not get finalized slot" []
    let acc ← loop (depositStep config nextEpoch finalizedSlot st.depositRequestsStartIndex
      availableForProcessing) st.pendingDeposits ⟨st, 0, 0, false, [], []⟩
    let post ← wrapf (batchProcessNewPendingDeposits config validSignature batchVerify acc.st
      acc.toBatchVerify) "could not process pending deposits with new public keys" []
    .ok { post with
      pendingDeposits := st.pendingDeposits.drop acc.nextDepositIndex ++ acc.toPostpone
      depositBalanceToConsume :=
        if acc.isChurnLimitReached then availableForProcessing - acc.processedAmount else 0 }

/-! ### The specification -/

/-- The variables of the loop of the specification's `process_pending_deposits`. -/
structure SpecLoop where
  st : BeaconState
  processedAmount : ℕ
  nextDepositIndex : ℕ
  isChurnLimitReached : Bool
  depositsToPostpone : List PendingDeposit

/-- What the specification does with a deposit that is processed in this epoch: it is applied when
it is reached. -/
def specHandle (nextEpoch : Epoch) (availableForProcessing : ℕ) (acc : SpecLoop)
    (deposit : PendingDeposit) : Except Fault (SpecLoop × Bool) :=
  let validator := acc.st.validators.find? fun val ↦ val.publicKey = deposit.publicKey
  let isValidatorExited := validator.any fun val ↦ val.exitEpoch < farFutureEpoch
  let isValidatorWithdrawn := validator.any fun val ↦ val.withdrawableEpoch < nextEpoch
  if isValidatorWithdrawn then do
    let st ← applyPendingDeposit config validSignature acc.st deposit
    .ok ({ acc with st := st, nextDepositIndex := acc.nextDepositIndex + 1 }, false)
  else if isValidatorExited then
    .ok ({ acc with
      depositsToPostpone := acc.depositsToPostpone ++ [deposit]
      nextDepositIndex := acc.nextDepositIndex + 1 }, false)
  else do
    let processedAmount ← add64 acc.processedAmount deposit.amount
    if processedAmount > availableForProcessing then
      .ok ({ acc with isChurnLimitReached := true }, true)
    else
      let st ← applyPendingDeposit config validSignature acc.st deposit
      .ok ({ acc with
        st := st
        isChurnLimitReached := false
        processedAmount := processedAmount
        nextDepositIndex := acc.nextDepositIndex + 1 }, false)

/-- The body of the loop of the specification's `process_pending_deposits`. -/
def specStep (nextEpoch : Epoch) (finalizedSlot : Slot) (availableForProcessing : ℕ)
    (acc : SpecLoop) (deposit : PendingDeposit) : Except Fault (SpecLoop × Bool) :=
  if deposit.slot > 0 ∧ acc.st.eth1DepositIndex < acc.st.depositRequestsStartIndex then
    .ok (acc, true)
  else if deposit.slot > finalizedSlot then .ok (acc, true)
  else if acc.nextDepositIndex ≥ config.maxPendingDepositsPerEpoch then .ok (acc, true)
  else specHandle config validSignature nextEpoch availableForProcessing acc deposit

/-- The specification's `process_pending_deposits`.  An addition that overflows is an error there.
-/
def specProcessPendingDeposits (st : BeaconState) (activeBalance : ℕ) :
    Except Fault BeaconState := do
  let nextEpoch ← add64 (st.currentEpoch config) 1
  let availableForProcessing ←
    add64 st.depositBalanceToConsume (activationExitChurnLimit config activeBalance)
  let finalizedSlot ← epochStart config.toBeaconChainConfig st.finalizedCheckpoint.epoch
  let acc ← loop (specStep config validSignature nextEpoch finalizedSlot availableForProcessing)
    st.pendingDeposits ⟨st, 0, 0, false, []⟩
  .ok { acc.st with
    pendingDeposits := st.pendingDeposits.drop acc.nextDepositIndex ++ acc.depositsToPostpone
    depositBalanceToConsume :=
      if acc.isChurnLimitReached then availableForProcessing - acc.processedAmount else 0 }

/-! ### Deposits commute with raised balances -/

variable {config} {valid : PendingDeposit → Bool} {st next last : BeaconState}
  {deposit : PendingDeposit} {amount : ℕ}

/-- What applying a deposit does: a new validator, nothing, or a higher balance. -/
theorem applyPendingDeposit_eq_ok_iff :
    applyPendingDeposit config valid st deposit = .ok next ↔
      (st.validatorIndexByPubkey deposit.publicKey = none ∧ next =
        if valid deposit then addValidatorToRegistry config st deposit.publicKey
          deposit.withdrawalCredentials deposit.amount else st) ∨
      ∃ index, st.validatorIndexByPubkey deposit.publicKey = some index ∧
        increaseBalance st index deposit.amount = .ok next := by
  unfold applyPendingDeposit
  grind

/-- The appended entries of a registry after a validator was added. -/
theorem addValidatorToRegistry_fields (config : CoreConfig) (st : BeaconState) (pubKey : PubKey)
    (creds : WithdrawalCredentials) (amount : ℕ) :
    (addValidatorToRegistry config st pubKey creds amount).validators =
        st.validators ++ [getValidatorFromDeposit config pubKey creds amount] ∧
      (addValidatorToRegistry config st pubKey creds amount).balances =
        st.balances ++ [amount] := by
  unfold addValidatorToRegistry
  dsimp only
  split_ifs <;> exact ⟨rfl, rfl⟩

/-- Other balances can be changed before or after a validator is added. -/
theorem addValidatorToRegistry_balances (st : BeaconState) (pubKey : PubKey)
    (creds : WithdrawalCredentials) (amount : ℕ) (balances : List ℕ) :
    addValidatorToRegistry config { st with balances := balances } pubKey creds amount =
      { addValidatorToRegistry config st pubKey creds amount with
        balances := balances ++ [amount] } := by
  unfold addValidatorToRegistry
  dsimp only
  split_ifs <;> rfl

theorem increaseBalance_comm {first second : ValidatorIndex} {more : ℕ}
    (hfirst : increaseBalance st first amount = .ok next)
    (hsnd : increaseBalance next second more = .ok last) :
    ∃ raised, increaseBalance st second more = .ok raised ∧
      increaseBalance raised first amount = .ok last := by
  simp only [increaseBalance_eq_ok_iff] at hfirst hsnd ⊢
  obtain ⟨bal, hbal, hlt, rfl⟩ := hfirst
  obtain ⟨other, hother, hlt', rfl⟩ := hsnd
  have hlen : first < st.balances.length := (List.getElem?_eq_some_iff.1 hbal).1
  by_cases hsame : first = second
  · subst hsame
    obtain rfl : bal + amount = other := by simpa [hlen] using hother
    refine ⟨_, ⟨bal, hbal, by omega, rfl⟩, bal + more, by simp [hlen], by omega, ?_⟩
    simp [Nat.add_right_comm]
  · rw [getElem?_set_ne hsame] at hother
    refine ⟨_, ⟨other, hother, hlt', rfl⟩, bal, ?_, hlt, ?_⟩
    · rw [getElem?_set_ne (Ne.symm hsame), hbal]
    · simp only [set_comm _ _ hsame]

variable {index : ValidatorIndex}

/-- A balance that is raised after a deposit was applied can be raised before it. -/
theorem applyPendingDeposit_comm (hidx : index < st.balances.length)
    (happly : applyPendingDeposit config valid st deposit = .ok next)
    (hincrease : increaseBalance next index amount = .ok last) :
    ∃ raised, increaseBalance st index amount = .ok raised ∧
      applyPendingDeposit config valid raised deposit = .ok last := by
  rcases applyPendingDeposit_eq_ok_iff.1 happly with ⟨hnew, rfl⟩ | ⟨other, hother, hraise⟩
  · by_cases hvalid : valid deposit
    · rw [if_pos hvalid] at hincrease
      obtain ⟨bal, hbal, hlt, rfl⟩ := increaseBalance_eq_ok_iff.1 hincrease
      rw [(addValidatorToRegistry_fields config st _ _ _).2] at hbal ⊢
      rw [getElem?_append_left hidx] at hbal
      refine ⟨_, increaseBalance_eq_ok_iff.2 ⟨bal, hbal, hlt, rfl⟩,
        applyPendingDeposit_eq_ok_iff.2 (.inl ⟨hnew, ?_⟩)⟩
      rw [if_pos hvalid, set_append_left _ _ hidx]
      exact (addValidatorToRegistry_balances st _ _ _ (st.balances.set index (bal + amount))).symm
    · rw [if_neg hvalid] at hincrease
      obtain ⟨bal, hbal, hlt, rfl⟩ := increaseBalance_eq_ok_iff.1 hincrease
      exact ⟨_, hincrease, applyPendingDeposit_eq_ok_iff.2 (.inl ⟨hnew, by rw [if_neg hvalid]⟩)⟩
  · obtain ⟨raised, hraised, hlast⟩ := increaseBalance_comm hraise hincrease
    refine ⟨raised, hraised, applyPendingDeposit_eq_ok_iff.2 (.inr ⟨other, ?_, hlast⟩)⟩
    obtain ⟨_, _, _, rfl⟩ := increaseBalance_eq_ok_iff.1 hraised
    exact hother

/-! ### What a batch leaves alone -/

/-- The later state has the same validators followed by ones that never exit, and reads deposits
from the same places. -/
structure Extends (st next : BeaconState) : Prop where
  version : next.version = st.version
  validators : ∃ added, next.validators = st.validators ++ added ∧
    ∀ val ∈ added, val.exitEpoch = farFutureEpoch ∧ val.withdrawableEpoch = farFutureEpoch
  balances : st.balances.length ≤ next.balances.length
  eth1DepositIndex : next.eth1DepositIndex = st.eth1DepositIndex
  depositRequestsStartIndex : next.depositRequestsStartIndex = st.depositRequestsStartIndex

theorem Extends.refl (st : BeaconState) : Extends st st := ⟨rfl, ⟨[], by simp⟩, le_rfl, rfl, rfl⟩

theorem Extends.trans (hfirst : Extends st next) (hsnd : Extends next last) : Extends st last := by
  obtain ⟨added, hadded, hfar⟩ := hfirst.validators
  obtain ⟨more, hmore, hmoreFar⟩ := hsnd.validators
  refine ⟨hsnd.version.trans hfirst.version, ⟨added ++ more, ?_, ?_⟩,
    hfirst.balances.trans hsnd.balances, hsnd.eth1DepositIndex.trans hfirst.eth1DepositIndex,
    hsnd.depositRequestsStartIndex.trans hfirst.depositRequestsStartIndex⟩
  · rw [hmore, hadded, append_assoc]
  · grind

theorem extends_increaseBalance (hincrease : increaseBalance st index amount = .ok next) :
    Extends st next := by
  obtain ⟨bal, -, -, rfl⟩ := increaseBalance_eq_ok_iff.1 hincrease
  exact ⟨rfl, ⟨[], by simp⟩, by simp, rfl, rfl⟩

theorem extends_addValidatorToRegistry (st : BeaconState) (pubKey : PubKey)
    (creds : WithdrawalCredentials) (amount : ℕ) :
    Extends st (addValidatorToRegistry config st pubKey creds amount) := by
  obtain ⟨hvals, hbals⟩ := addValidatorToRegistry_fields config st pubKey creds amount
  set next := addValidatorToRegistry config st pubKey creds amount with hnext
  have hkept : next.version = st.version ∧ next.eth1DepositIndex = st.eth1DepositIndex ∧
      next.depositRequestsStartIndex = st.depositRequestsStartIndex := by
    rw [hnext, addValidatorToRegistry]
    split_ifs <;> exact ⟨rfl, rfl, rfl⟩
  exact ⟨hkept.1, ⟨_, hvals, by simp [getValidatorFromDeposit]⟩, by simp [hbals],
    hkept.2.1, hkept.2.2⟩

theorem extends_applyPendingDeposit
    (happly : applyPendingDeposit config valid st deposit = .ok next) : Extends st next := by
  rcases applyPendingDeposit_eq_ok_iff.1 happly with ⟨-, rfl⟩ | ⟨index, -, hraise⟩
  · split_ifs
    · exact extends_addValidatorToRegistry st _ _ _
    · exact .refl st
  · exact extends_increaseBalance hraise

variable {deposits : List PendingDeposit} {batchVerify : List PendingDeposit → Bool}

theorem extends_foldlM (hrun : deposits.foldlM (applyPendingDeposit config valid) st = .ok next) :
    Extends st next :=
  foldlM_invariant hrun (Extends st) (.refl st) fun _ _ _ _ hextends happly ↦
    hextends.trans (extends_applyPendingDeposit happly)

/-- A balance that is raised after a list of deposits was applied can be raised before it. -/
theorem foldlM_comm (hidx : index < st.balances.length)
    (hrun : deposits.foldlM (applyPendingDeposit config valid) st = .ok next)
    (hincrease : increaseBalance next index amount = .ok last) :
    ∃ raised, increaseBalance st index amount = .ok raised ∧
      deposits.foldlM (applyPendingDeposit config valid) raised = .ok last := by
  induction deposits generalizing st with
  | nil =>
    obtain rfl := Except.ok.inj hrun
    exact ⟨last, hincrease, rfl⟩
  | cons deposit deposits ih =>
    rw [foldlM_cons, bind_eq_ok_iff] at hrun
    obtain ⟨mid, happly, hrest⟩ := hrun
    have hmid : index < mid.balances.length :=
      hidx.trans_le (extends_applyPendingDeposit happly).balances
    obtain ⟨raisedMid, hraisedMid, hlast⟩ := ih hmid hrest
    obtain ⟨raised, hraised, hnext⟩ := applyPendingDeposit_comm hidx happly hraisedMid
    refine ⟨raised, hraised, ?_⟩
    rw [foldlM_cons, bind_eq_ok_iff]
    exact ⟨raisedMid, hnext, hlast⟩

/-- A round of the batch applies its deposit when the batch takes the signature for what it is. -/
theorem batchStep_eq_ok_iff {allSignaturesVerified : Bool}
    (hvalid : (if allSignaturesVerified then true else valid deposit) = valid deposit) :
    batchStep config valid allSignaturesVerified st deposit = .ok next ↔
      applyPendingDeposit config valid st deposit = .ok next := by
  simp only [batchStep, applyPendingDeposit, hvalid]
  cases st.validatorIndexByPubkey deposit.publicKey with
  | none => rfl
  | some index => exact wrapf_eq_ok_iff

/-- The batch does what applying the deposits one by one does, since it takes a signature for valid
exactly when it is. -/
theorem batchProcessNewPendingDeposits_eq_ok_iff
    (hbatch : ∀ deposits, batchVerify deposits = deposits.all valid) :
    batchProcessNewPendingDeposits config valid batchVerify st deposits = .ok next ↔
      deposits.foldlM (applyPendingDeposit config valid) st = .ok next := by
  have hvalid (deposit : PendingDeposit) (hmem : deposit ∈ deposits) :
      (if batchVerify deposits then true else valid deposit) = valid deposit := by
    grind
  have hfold (rest : List PendingDeposit) (hsub : ∀ deposit ∈ rest, deposit ∈ deposits)
      (st : BeaconState) :
      rest.foldlM (batchStep config valid (batchVerify deposits)) st = .ok next ↔
        rest.foldlM (applyPendingDeposit config valid) st = .ok next := by
    induction rest generalizing st with
    | nil => rfl
    | cons deposit rest ih =>
      have hhead := hvalid deposit (hsub _ mem_cons_self)
      have htail := ih fun _ hmem ↦ hsub _ (mem_cons_of_mem _ hmem)
      simp only [foldlM_cons, bind_eq_ok_iff, batchStep_eq_ok_iff hhead, htail]
  unfold batchProcessNewPendingDeposits
  split_ifs with hempty
  · rw [length_eq_zero_iff.1 hempty]
    rfl
  · exact hfold deposits (fun _ hmem ↦ hmem) st

/-! ### Looking up a key -/

theorem find?_validators (st : BeaconState) (key : PubKey) :
    (st.validators.find? fun val ↦ val.publicKey = key) =
      (st.validatorIndexByPubkey key).bind fun index ↦ st.validators[index]? := by
  exact find?_eq_bind_findIdx?_getElem?

theorem validatorIndexByPubkey_lt {key : PubKey}
    (hidx : st.validatorIndexByPubkey key = some index) : index < st.validators.length := by
  exact (findIdx?_eq_some_iff_getElem.1 hidx).1

/-- A known key keeps its index when validators are appended. -/
theorem Extends.validatorIndexByPubkey {key : PubKey} (hextends : Extends st next)
    (hidx : st.validatorIndexByPubkey key = some index) :
    next.validatorIndexByPubkey key = some index := by
  obtain ⟨added, hadded, -⟩ := hextends.validators
  unfold BeaconState.validatorIndexByPubkey at hidx ⊢
  rw [hadded, findIdx?_append, hidx]
  rfl

/-- The flags of a key are those of the specification's registry: a validator that the specification
has already added is neither exiting nor withdrawn. -/
theorem Extends.exitedAndWithdrawn_eq {nextEpoch : Epoch} (hextends : Extends st next)
    (hnextEpoch : nextEpoch < 2 ^ 64) (key : PubKey) :
    exitedAndWithdrawn st (st.validatorIndexByPubkey key) nextEpoch =
      .ok ((next.validators.find? fun val ↦ val.publicKey = key).any fun val ↦
          val.exitEpoch < farFutureEpoch,
        (next.validators.find? fun val ↦ val.publicKey = key).any fun val ↦
          val.withdrawableEpoch < nextEpoch) := by
  obtain ⟨added, hadded, hfar⟩ := hextends.validators
  rw [hadded, find?_append, find?_validators st key]
  cases hidx : st.validatorIndexByPubkey key with
  | none =>
    cases hfind : added.find? fun val ↦ val.publicKey = key with
    | none => rfl
    | some val =>
      obtain ⟨hexit, hwithdrawable⟩ := hfar val (mem_of_find?_eq_some hfind)
      have hlate : ¬ farFutureEpoch < nextEpoch := Nat.not_lt.2 (Nat.le_sub_one_of_lt hnextEpoch)
      simp only [exitedAndWithdrawn, bind_none, none_or, any_some, hexit,
        hwithdrawable, hlate, lt_self_iff_false, decide_false]
  | some index =>
    have hval := getElem?_eq_getElem (validatorIndexByPubkey_lt hidx)
    have hread := validatorAtIndex_eq_ok_iff.2 hval
    simp only [exitedAndWithdrawn, hread, wrapf_ok, hval, bind_some, some_or, any_some]
    rfl

/-! ### The two loops side by side -/

/-- The loop of the code follows the loop of the specification: applying the deposits set aside for
the batch leads to the state of the specification. -/
structure Follows (config : CoreConfig) (validSignature : PendingDeposit → Bool) (startIndex : ℕ)
    (acc : DepositLoop) (spec : SpecLoop) : Prop where
  processedAmount : acc.processedAmount = spec.processedAmount
  nextDepositIndex : acc.nextDepositIndex = spec.nextDepositIndex
  isChurnLimitReached : acc.isChurnLimitReached = spec.isChurnLimitReached
  toPostpone : acc.toPostpone = spec.depositsToPostpone
  toBatchVerify :
    acc.toBatchVerify.foldlM (applyPendingDeposit config validSignature) acc.st = .ok spec.st
  balances : acc.st.validators.length ≤ acc.st.balances.length
  startIndex : acc.st.depositRequestsStartIndex = startIndex

variable {nextEpoch : Epoch} {finalizedSlot : Slot} {startIndex available : ℕ} {acc : DepositLoop}
  {spec specNext : SpecLoop} {stop : Bool}

section

variable (hfollows : Follows config valid startIndex acc spec)
include hfollows

theorem Follows.extends : Extends acc.st spec.st := extends_foldlM hfollows.toBatchVerify

/-- The specification raises the balance of a known key; the code can do so before the batch. -/
theorem Follows.exists_increaseBalance
    (hidx : acc.st.validatorIndexByPubkey deposit.publicKey = some index)
    (happly : applyPendingDeposit config valid spec.st deposit = .ok next) :
    ∃ raised, increaseBalance acc.st index deposit.amount = .ok raised ∧
      Follows config valid startIndex
        { acc with st := raised, nextDepositIndex := acc.nextDepositIndex + 1 }
        { spec with st := next, nextDepositIndex := spec.nextDepositIndex + 1 } := by
  have hspec : increaseBalance spec.st index deposit.amount = .ok next := by
    rw [applyPendingDeposit, hfollows.extends.validatorIndexByPubkey hidx] at happly
    exact happly
  have hlen := (validatorIndexByPubkey_lt hidx).trans_le hfollows.balances
  obtain ⟨raised, hraised, hlast⟩ := foldlM_comm hlen hfollows.toBatchVerify hspec
  obtain ⟨bal, -, -, rfl⟩ := increaseBalance_eq_ok_iff.1 hraised
  exact ⟨_, hraised, { hfollows with
    nextDepositIndex := congrArg (· + 1) hfollows.nextDepositIndex
    toBatchVerify := hlast
    balances := by simpa using hfollows.balances }⟩

omit hfollows in
theorem specStep_eq (spec : SpecLoop) :
    specStep config valid nextEpoch finalizedSlot available spec deposit =
      if stopsAt config spec.st spec.nextDepositIndex finalizedSlot
        spec.st.depositRequestsStartIndex deposit then .ok (spec, true)
      else specHandle config valid nextEpoch available spec deposit := by
  unfold specStep stopsAt
  grind

/-- A deposit that both loops handle is handled the same way. -/
theorem handleDeposit_follows {exited withdrawn : Bool}
    (hflags : exitedAndWithdrawn acc.st (acc.st.validatorIndexByPubkey deposit.publicKey) nextEpoch
      = .ok (exited, withdrawn))
    (hexited : ((spec.st.validators.find? fun val ↦ val.publicKey =
      deposit.publicKey).any fun val ↦ val.exitEpoch < farFutureEpoch) = exited)
    (hwithdrawn : ((spec.st.validators.find? fun val ↦ val.publicKey =
      deposit.publicKey).any fun val ↦ val.withdrawableEpoch < nextEpoch) = withdrawn)
    (hspec : specHandle config valid nextEpoch available spec deposit = .ok (specNext, stop)) :
    ∃ next, handleDeposit available acc deposit (acc.st.validatorIndexByPubkey deposit.publicKey)
        exited withdrawn = .ok (next, stop) ∧
      Follows config valid startIndex next specNext := by
  simp only [specHandle, hexited, hwithdrawn] at hspec
  unfold handleDeposit
  by_cases hw : withdrawn = true
  · -- a withdrawn validator is known
    rw [if_pos hw, bind_eq_ok_iff] at hspec
    obtain ⟨st, happly, hnext⟩ := hspec
    cases hnext
    cases hidx : acc.st.validatorIndexByPubkey deposit.publicKey with
    | none =>
      rw [hidx] at hflags
      cases hflags
      cases hw
    | some index =>
      obtain ⟨raised, hraised, hnext⟩ := hfollows.exists_increaseBalance hidx happly
      refine ⟨_, ?_, hnext⟩
      rw [if_pos hw, getD_some, hraised]
      rfl
  rw [if_neg hw] at hspec ⊢
  by_cases he : exited = true
  · rw [if_pos he] at hspec ⊢
    cases hspec
    exact ⟨_, rfl, { hfollows with
      nextDepositIndex := congrArg (· + 1) hfollows.nextDepositIndex
      toPostpone := congrArg (· ++ [deposit]) hfollows.toPostpone }⟩
  rw [if_neg he, bind_eq_ok_iff] at hspec
  rw [if_neg he]
  obtain ⟨sum, hadd, hspec⟩ := hspec
  obtain ⟨hlt, rfl⟩ := add64_eq_ok_iff.1 hadd
  rw [hfollows.processedAmount, Nat.mod_eq_of_lt hlt]
  by_cases hlimit : spec.processedAmount + deposit.amount > available
  · rw [if_pos hlimit] at hspec ⊢
    cases hspec
    exact ⟨_, rfl, { hfollows with processedAmount := rfl, isChurnLimitReached := rfl }⟩
  rw [if_neg hlimit, bind_eq_ok_iff] at hspec
  rw [if_neg hlimit]
  obtain ⟨st, happly, hnext⟩ := hspec
  cases hnext
  cases hidx : acc.st.validatorIndexByPubkey deposit.publicKey with
  | some index =>
    obtain ⟨raised, hraised, hnext⟩ := hfollows.exists_increaseBalance hidx happly
    simp only [hraised, wrapf_ok]
    exact ⟨_, rfl, { hnext with processedAmount := rfl, isChurnLimitReached := rfl }⟩
  | none =>
    refine ⟨_, rfl, { hfollows with
      processedAmount := rfl
      nextDepositIndex := congrArg (· + 1) hfollows.nextDepositIndex
      isChurnLimitReached := rfl
      toBatchVerify := ?_ }⟩
    rw [foldlM_append, bind_eq_ok_iff]
    exact ⟨spec.st, hfollows.toBatchVerify, by simpa using happly⟩

end

/-- One round of the code follows one round of the specification. -/
theorem depositStep_follows (hnextEpoch : nextEpoch < 2 ^ 64)
    (hfollows : Follows config valid startIndex acc spec)
    (hspec : specStep config valid nextEpoch finalizedSlot available spec deposit =
      .ok (specNext, stop)) :
    ∃ next, depositStep config nextEpoch finalizedSlot startIndex available acc deposit =
        .ok (next, stop) ∧ Follows config valid startIndex next specNext := by
  have hflags := hfollows.extends.exitedAndWithdrawn_eq hnextEpoch deposit.publicKey
  have hguard : stopsAt config spec.st spec.nextDepositIndex finalizedSlot
      spec.st.depositRequestsStartIndex deposit =
      stopsAt config acc.st acc.nextDepositIndex finalizedSlot startIndex deposit := by
    unfold stopsAt
    rw [hfollows.extends.eth1DepositIndex, hfollows.extends.depositRequestsStartIndex,
      hfollows.startIndex, hfollows.nextDepositIndex]
  rw [specStep_eq, hguard] at hspec
  unfold depositStep
  split_ifs at hspec ⊢ with hstop
  · cases hspec
    exact ⟨acc, rfl, hfollows⟩
  · simp only [hflags]
    exact handleDeposit_follows hfollows hflags rfl rfl hspec

/-! ### The specification succeeds when nothing overflows -/

/-- A deposit can be applied when its amount fits, and adds at most its amount to the balances. -/
theorem exists_applyPendingDeposit (config : CoreConfig) (valid : PendingDeposit → Bool)
    (deposit : PendingDeposit) (hbals : st.validators.length ≤ st.balances.length)
    (hfits : st.balances.sum + deposit.amount < 2 ^ 64) :
    ∃ next, applyPendingDeposit config valid st deposit = .ok next ∧
      next.balances.sum ≤ st.balances.sum + deposit.amount ∧
      next.validators.length ≤ next.balances.length := by
  cases hidx : st.validatorIndexByPubkey deposit.publicKey with
  | none =>
    refine ⟨_, applyPendingDeposit_eq_ok_iff.2 (.inl ⟨hidx, rfl⟩), ?_⟩
    split_ifs
    · simp [addValidatorToRegistry_fields, hbals]
    · exact ⟨Nat.le_add_right _ _, hbals⟩
  | some index =>
    have hlen := (validatorIndexByPubkey_lt hidx).trans_le hbals
    obtain ⟨next, hnext⟩ := exists_increaseBalance hlen hfits
    refine ⟨next, applyPendingDeposit_eq_ok_iff.2 (.inr ⟨index, hidx, hnext⟩),
      (increaseBalance_sum hnext).le, ?_⟩
    obtain ⟨bal, -, -, rfl⟩ := increaseBalance_eq_ok_iff.1 hnext
    simpa using hbals

/-- What the specification keeps: the amounts still to come fit into the balances and into the
amount processed so far. -/
structure Fits (deposits : List PendingDeposit) (spec : SpecLoop) : Prop where
  stake : spec.st.balances.sum + depositedAmount deposits < 2 ^ 64
  processedAmount : spec.processedAmount + depositedAmount deposits < 2 ^ 64
  balances : spec.st.validators.length ≤ spec.st.balances.length

/-- A round of the specification succeeds when the amounts fit. -/
theorem exists_specStep (hfits : Fits (deposit :: deposits) spec) :
    ∃ next stop, specStep config valid nextEpoch finalizedSlot available spec deposit =
      .ok (next, stop) ∧ (stop = false → Fits deposits next) := by
  obtain ⟨hstake, hproc, hbals⟩ := hfits
  rw [depositedAmount_cons] at hstake hproc
  obtain ⟨st, happly, hsum, hlen⟩ :=
    exists_applyPendingDeposit config valid deposit hbals (by omega)
  rw [specStep_eq]
  by_cases hstop : stopsAt config spec.st spec.nextDepositIndex finalizedSlot
      spec.st.depositRequestsStartIndex deposit = true
  · exact ⟨spec, true, if_pos hstop, nofun⟩
  unfold specHandle
  dsimp only
  split_ifs
  · refine ⟨_, false, by rw [happly]; rfl, fun _ ↦ ⟨?_, ?_, hlen⟩⟩ <;> dsimp only <;> omega
  · refine ⟨_, false, rfl, fun _ ↦ ⟨?_, ?_, hbals⟩⟩ <;> dsimp only <;> omega
  · have hadd : add64 spec.processedAmount deposit.amount =
        .ok (spec.processedAmount + deposit.amount) := add64_eq_ok_iff.2 ⟨by omega, rfl⟩
    simp only [hadd, happly]
    by_cases hlimit : spec.processedAmount + deposit.amount > available
    · exact ⟨_, true, if_pos hlimit, nofun⟩
    · refine ⟨_, false, if_neg hlimit, fun _ ↦ ⟨?_, ?_, hlen⟩⟩ <;> dsimp only <;> omega

/-- No amount, epoch or slot that the epoch's deposits compute overflows. -/
structure NoOverflow (config : CoreConfig) (st : BeaconState) (activeBalance : ℕ) : Prop where
  stake : st.totalStake < 2 ^ 64
  epoch : st.currentEpoch config + 1 < 2 ^ 64
  available : st.depositBalanceToConsume + activationExitChurnLimit config activeBalance < 2 ^ 64
  finalizedSlot : config.slotsPerEpoch * st.finalizedCheckpoint.epoch < 2 ^ 64

variable {active : ℕ}

theorem exists_specProcessPendingDeposits (valid : PendingDeposit → Bool)
    (helectra : Version.electra.number ≤ st.version.number)
    (hbals : st.validators.length ≤ st.balances.length) (hfits : NoOverflow config st active) :
    ∃ post, specProcessPendingDeposits config valid st active = .ok post := by
  have hstake := hfits.stake
  rw [BeaconState.totalStake, if_neg (Nat.not_lt.2 helectra)] at hstake
  have hslot : epochStart config.toBeaconChainConfig st.finalizedCheckpoint.epoch =
      .ok (config.slotsPerEpoch * st.finalizedCheckpoint.epoch) := by
    rw [epochStart, if_pos hfits.finalizedSlot]
  have hloop : ∃ acc, loop (specStep config valid (st.currentEpoch config + 1)
      (config.slotsPerEpoch * st.finalizedCheckpoint.epoch)
      (st.depositBalanceToConsume + activationExitChurnLimit config active))
      st.pendingDeposits ⟨st, 0, 0, false, []⟩ = .ok acc :=
    exists_loop_eq_ok Fits ⟨hstake, by dsimp only; omega, hbals⟩ fun _ _ _ ↦ exists_specStep
  obtain ⟨acc, hacc⟩ := hloop
  simp only [specProcessPendingDeposits, bind_eq_ok_iff]
  exact ⟨_, _, add64_eq_ok_iff.2 ⟨hfits.epoch, rfl⟩, _, add64_eq_ok_iff.2 ⟨hfits.available, rfl⟩, _,
    hslot, acc, hacc, rfl⟩

/-- Whatever the specification computes, the batched code computes. -/
theorem processPendingDeposits_of_spec {post : BeaconState}
    (hbatch : ∀ deposits, batchVerify deposits = deposits.all valid)
    (helectra : Version.electra.number ≤ st.version.number)
    (hbals : st.validators.length ≤ st.balances.length)
    (hspec : specProcessPendingDeposits config valid st active = .ok post) :
    processPendingDeposits config valid batchVerify st active = .ok post := by
  simp only [specProcessPendingDeposits, bind_eq_ok_iff] at hspec
  obtain ⟨nextEpoch, hepoch, available, havailable, finalizedSlot, hslot, spec, hloop, hpost⟩ :=
    hspec
  obtain ⟨hepochLt, rfl⟩ := add64_eq_ok_iff.1 hepoch
  obtain ⟨havailableLt, rfl⟩ := add64_eq_ok_iff.1 havailable
  obtain rfl := Except.ok.inj hpost
  have hstart : Follows config valid st.depositRequestsStartIndex
      ⟨st, 0, 0, false, [], []⟩ ⟨st, 0, 0, false, []⟩ := ⟨rfl, rfl, rfl, rfl, rfl, hbals, rfl⟩
  obtain ⟨acc, hacc, hfollows⟩ := loop_simulation _ hloop hstart fun _ _ _ _ _ _ ↦
    depositStep_follows hepochLt
  rw [processPendingDeposits, if_neg (Nat.not_lt.2 helectra)]
  simp only [bind_eq_ok_iff, wrapf_eq_ok_iff, Nat.mod_eq_of_lt hepochLt,
    Nat.mod_eq_of_lt havailableLt]
  refine ⟨finalizedSlot, hslot, acc, hacc, spec.st,
    (batchProcessNewPendingDeposits_eq_ok_iff hbatch).2 hfollows.toBatchVerify, ?_⟩
  rw [hfollows.nextDepositIndex, hfollows.toPostpone, hfollows.isChurnLimitReached,
    hfollows.processedAmount]

/-- Processing the pending deposits of an epoch with one batch of signatures leaves the state that
the specification's processing of one deposit after the other leaves.  The specification only fails
when an amount, an epoch or a slot overflows. -/
theorem processPendingDeposits_sequential (config : CoreConfig)
    (validSignature : PendingDeposit → Bool) (batchVerify : List PendingDeposit → Bool)
    (hbatch : ∀ deposits, batchVerify deposits = deposits.all validSignature) (st : BeaconState)
    (activeBalance : ℕ) (helectra : Version.electra.number ≤ st.version.number)
    (hbalances : st.validators.length ≤ st.balances.length) :
    (∀ post, specProcessPendingDeposits config validSignature st activeBalance = .ok post →
        processPendingDeposits config validSignature batchVerify st activeBalance = .ok post) ∧
      (NoOverflow config st activeBalance →
        ∃ post, specProcessPendingDeposits config validSignature st activeBalance = .ok post ∧
          processPendingDeposits config validSignature batchVerify st activeBalance =
            .ok post) := by
  refine ⟨fun post ↦ processPendingDeposits_of_spec hbatch helectra hbalances, fun hfits ↦ ?_⟩
  obtain ⟨post, hpost⟩ := exists_specProcessPendingDeposits validSignature helectra hbalances hfits
  exact ⟨post, hpost, processPendingDeposits_of_spec hbatch helectra hbalances hpost⟩

/-- A state with an active, an exiting and a withdrawn validator, and deposits to each of them and
to a new key. -/
def mixedQueue : BeaconState :=
  { (default : BeaconState) with
    version := .electra
    slot := 3200
    validators :=
      [⟨1, Vector.replicate 32 1, 32 * 10 ^ 9, false, 0, 0, farFutureEpoch, farFutureEpoch⟩,
        ⟨2, Vector.replicate 32 1, 32 * 10 ^ 9, false, 0, 0, 110, 366⟩,
        ⟨3, Vector.replicate 32 1, 0, false, 0, 0, 10, 20⟩]
    balances := [32 * 10 ^ 9, 32 * 10 ^ 9, 0]
    previousEpochParticipation := [0, 0, 0]
    currentEpochParticipation := [0, 0, 0]
    inactivityScores := [0, 0, 0]
    finalizedCheckpoint := ⟨98, 0⟩
    eth1DepositIndex := 6
    depositRequestsStartIndex := 6
    pendingDeposits :=
      [⟨4, Vector.replicate 32 1, 10 ^ 9, infiniteSignature, 3000⟩,
        ⟨1, Vector.replicate 32 1, 10 ^ 9, infiniteSignature, 3000⟩,
        ⟨4, Vector.replicate 32 1, 32 * 10 ^ 9, infiniteSignature, 3001⟩,
        ⟨2, Vector.replicate 32 1, 10 ^ 9, infiniteSignature, 3002⟩,
        ⟨4, Vector.replicate 32 1, 10 ^ 9, infiniteSignature, 3003⟩,
        ⟨3, Vector.replicate 32 1, 10 ^ 9, infiniteSignature, 3004⟩] }

theorem mixedQueue_noOverflow : NoOverflow mainnetCore mixedQueue (64 * 10 ^ 9) :=
  ⟨by decide, by decide, by decide, by decide⟩

theorem processPendingDeposits_sequential_mixedQueue :
    ∃ post,
      specProcessPendingDeposits mainnetCore (fun deposit ↦ deposit.amount = 32 * 10 ^ 9) mixedQueue
        (64 * 10 ^ 9) = .ok post ∧
      processPendingDeposits mainnetCore (fun deposit ↦ deposit.amount = 32 * 10 ^ 9)
        (fun deposits ↦ deposits.all fun deposit ↦ deposit.amount = 32 * 10 ^ 9) mixedQueue
        (64 * 10 ^ 9) = .ok post :=
  (processPendingDeposits_sequential mainnetCore (fun deposit ↦ deposit.amount = 32 * 10 ^ 9) _
    (fun _ ↦ rfl) mixedQueue (64 * 10 ^ 9) (by decide) (by decide)).2 mixedQueue_noOverflow

end Prysm.Core
