import Prysm.Core.State
import Prysm.Library.Run
import Mathlib.Data.List.Induction

/-!
# The exit queue

Before Electra every exit is put at the end of a queue: at the highest exit epoch of the registry,
or at the next one if as many validators as the churn limit leave there already.  The specification
scans the registry at every exit.  The code of `core/validators` scans it once per block and carries
the highest exit epoch and the number of exits there through the voluntary exits and slashings of
the block.
-/

namespace Prysm.Core

open List hiding Vector
open Prysm.Library Nat BeaconState

/-- The constants that slashings read besides those of the package. -/
structure SlashingConfig extends CoreConfig where
  minSlashingPenaltyQuotient : ℕ
  minSlashingPenaltyQuotientAltair : ℕ
  minSlashingPenaltyQuotientBellatrix : ℕ
  minSlashingPenaltyQuotientElectra : ℕ
  whistleBlowerRewardQuotient : ℕ
  whistleBlowerRewardQuotientElectra : ℕ
  proposerRewardQuotient : ℕ

instance : Coe SlashingConfig CoreConfig where coe config := config.toCoreConfig

/-- The values of `params.MainnetConfig`. -/
def mainnetSlashing : SlashingConfig where
  toCoreConfig := mainnetCore
  minSlashingPenaltyQuotient := 128
  minSlashingPenaltyQuotientAltair := 64
  minSlashingPenaltyQuotientBellatrix := 32
  minSlashingPenaltyQuotientElectra := 4096
  whistleBlowerRewardQuotient := 512
  whistleBlowerRewardQuotientElectra := 4096
  proposerRewardQuotient := 8

structure ExitInfo where
  highestExitEpoch : Epoch
  churn : ℕ
  totalActiveBalance : ℕ
deriving DecidableEq

/-- The exit part of the loop of `ExitInformation`. -/
def ExitInfo.recordExit (exitInfo : ExitInfo) (e : Epoch) : ExitInfo :=
  if e ≠ farFutureEpoch then
    if e > exitInfo.highestExitEpoch then { exitInfo with highestExitEpoch := e, churn := 1 }
    else if e = exitInfo.highestExitEpoch then { exitInfo with churn := exitInfo.churn + 1 }
    else exitInfo
  else exitInfo

/-- The body of the loop of `ExitInformation`. -/
def ExitInfo.record (currentEpoch : Epoch) (exitInfo : ExitInfo) (val : Validator) : ExitInfo :=
  let exitInfo := exitInfo.recordExit val.exitEpoch
  if val.isActive currentEpoch then
    { exitInfo with
      totalActiveBalance := (exitInfo.totalActiveBalance + val.effectiveBalance) % 2 ^ 64 }
  else exitInfo

section Model

variable (config : SlashingConfig) (st : BeaconState)

def exitInformation : ExitInfo :=
  let exitInfo :=
    st.validators.foldl (ExitInfo.record (st.currentEpoch config)) ⟨0, 0, 0⟩
  { exitInfo with
    totalActiveBalance := max config.effectiveBalanceIncrement exitInfo.totalActiveBalance }

/-- `ActiveValidatorCount` for the current epoch.  The cache it consults holds what it computed
before, and exits do not change it. -/
def activeValidatorCount : ℕ :=
  st.validators.countP (·.isActive (st.currentEpoch config))

def validatorExitChurnLimit (activeValidatorCount : ℕ) : ℕ :=
  let churnLimit := activeValidatorCount / config.churnLimitQuotient
  if churnLimit < config.minPerEpochChurnLimit then config.minPerEpochChurnLimit else churnLimit

/-- The end of the queue is not before the epoch at which exits can take effect. -/
def ExitInfo.atLeast (exitInfo : ExitInfo) (exitableEpoch : Epoch) : ExitInfo :=
  if exitableEpoch > exitInfo.highestExitEpoch then
    { exitInfo with highestExitEpoch := exitableEpoch, churn := 0 }
  else exitInfo

def initiateValidatorExitPreElectra (exitInfo : ExitInfo) : Except Fault ExitInfo :=
  let exitInfo := exitInfo.atLeast
    (activationExitEpoch config (st.currentEpoch config))
  let currentChurn := validatorExitChurnLimit config (activeValidatorCount config st)
  if exitInfo.churn ≥ currentChurn then do
    let highestExitEpoch ← add64 exitInfo.highestExitEpoch 1
    .ok { exitInfo with highestExitEpoch := highestExitEpoch, churn := 1 }
  else .ok { exitInfo with churn := exitInfo.churn + 1 }

/-- `exitEpochAndUpdateChurn`, from Electra on: the epoch and the new state. -/
def exitEpochAndUpdateChurn (totalActiveBalance exitBalance : ℕ) : Epoch × BeaconState :=
  let earliestExitEpoch := max st.earliestExitEpoch
    (activationExitEpoch config (st.currentEpoch config))
  let perEpochChurn := activationExitChurnLimit config totalActiveBalance
  let exitBalanceToConsume :=
    if st.earliestExitEpoch < earliestExitEpoch then perEpochChurn else st.exitBalanceToConsume
  let additionalEpochs :=
    if exitBalance > exitBalanceToConsume then
      (exitBalance - exitBalanceToConsume - 1) / perEpochChurn + 1
    else 0
  let earliestExitEpoch := (earliestExitEpoch + additionalEpochs) % 2 ^ 64
  let exitBalanceToConsume := (exitBalanceToConsume + additionalEpochs * perEpochChurn) % 2 ^ 64
  (earliestExitEpoch, { st with
    exitBalanceToConsume := (exitBalanceToConsume + 2 ^ 64 - exitBalance) % 2 ^ 64
    earliestExitEpoch := earliestExitEpoch })

/-- The exit queue epoch of a validator: the new state and the new exit information. -/
def exitQueueEpoch (exitInfo : ExitInfo) (totalActiveBalance exitBalance : ℕ) :
    Except Fault (BeaconState × ExitInfo) :=
  if st.version.number < Version.electra.number then do
    let exitInfo ← initiateValidatorExitPreElectra config st exitInfo
    .ok (st, exitInfo)
  else
    let (epoch, st) := exitEpochAndUpdateChurn config st totalActiveBalance exitBalance
    .ok (st, { exitInfo with highestExitEpoch := epoch })

/-- A state that an exit returns.  It comes with `ErrValidatorAlreadyExited` when the validator has
already exited. -/
structure ExitResult where
  st : BeaconState
  exitInfo : ExitInfo
  alreadyExited : Bool

/-- The common body of the two functions that initiate an exit. -/
def initiateExit (totalActiveBalance : ℕ) (st : BeaconState) (idx : ValidatorIndex)
    (exitInfo : ExitInfo) : Except Fault ExitResult := do
  let validator ← st.validatorAtIndex idx
  if validator.exitEpoch ≠ farFutureEpoch then .ok ⟨st, exitInfo, true⟩
  else
    let (st, exitInfo) ←
      exitQueueEpoch config st exitInfo totalActiveBalance validator.effectiveBalance
    let withdrawableEpoch ← add64 exitInfo.highestExitEpoch config.minValidatorWithdrawabilityDelay
    let st ← st.updateValidatorAtIndex idx
      { validator with
        exitEpoch := exitInfo.highestExitEpoch
        withdrawableEpoch := withdrawableEpoch }
    .ok ⟨st, exitInfo, false⟩

def initiateValidatorExit (idx : ValidatorIndex) (exitInfo : ExitInfo) : Except Fault ExitResult :=
  initiateExit config (totalActiveBalance config st) st idx exitInfo

def initiateValidatorExitForTotalBal (idx : ValidatorIndex) (exitInfo : ExitInfo)
    (totalActiveBalance : ℕ) : Except Fault ExitResult :=
  initiateExit config totalActiveBalance st idx exitInfo

/-- `math.Div64`. -/
def div64 (a b : ℕ) : Except Fault ℕ :=
  if b = 0 then .error (.error (.errorf "integer divide by zero" [])) else .ok (a / b)

/-- `SlashingParamsPerVersion`: the quotients of the penalty, of the proposer's reward and of the
whistleblower's reward. -/
def slashingParamsPerVersion (v : Version) : ℕ × ℕ × ℕ :=
  if v.number ≥ Version.electra.number then
    (config.minSlashingPenaltyQuotientElectra, config.proposerRewardQuotient,
      config.whistleBlowerRewardQuotientElectra)
  else if v.number ≥ Version.bellatrix.number then
    (config.minSlashingPenaltyQuotientBellatrix, config.proposerRewardQuotient,
      config.whistleBlowerRewardQuotient)
  else if v.number ≥ Version.altair.number then
    (config.minSlashingPenaltyQuotientAltair, config.proposerRewardQuotient,
      config.whistleBlowerRewardQuotient)
  else
    (config.minSlashingPenaltyQuotient, config.proposerRewardQuotient,
      config.whistleBlowerRewardQuotient)

/-- The slashed balance of the epoch grows.  The access to `Slashings` panics when the vector is too
short. -/
def addSlashing (currentEpoch : Epoch) (effectiveBalance : ℕ) : Except Fault BeaconState :=
  let idx := currentEpoch % config.epochsPerSlashingsVector
  match st.slashings[idx]? with
  | none => .error .panic
  | some currentSlashing =>
    .ok { st with
      slashings := st.slashings.set idx ((currentSlashing + effectiveBalance) % 2 ^ 64) }

variable (beaconProposerIndex : BeaconState → Except Fault ValidatorIndex)

/-- The penalty of the slashed validator and the rewards of the proposer, who is also the
whistleblower. -/
def payPenalty (st : BeaconState) (slashedIdx : ValidatorIndex) (effectiveBalance : ℕ) :
    Except Fault BeaconState := do
  let (slashingQuotient, proposerRewardQuotient, whistleblowerRewardQuotient) :=
    slashingParamsPerVersion config st.version
  let slashingPenalty ← wrapf (div64 effectiveBalance slashingQuotient)
    "failed to compute slashing slashingPenalty" []
  let st ← decreaseBalance st slashedIdx slashingPenalty
  let proposerIdx ← wrapf (beaconProposerIndex st) "could not get proposer idx" []
  let whistleblowerReward ← wrapf (div64 effectiveBalance whistleblowerRewardQuotient)
    "failed to compute whistleblowerReward" []
  let proposerReward ← wrapf (div64 whistleblowerReward proposerRewardQuotient)
    "failed to compute proposer reward" []
  let st ← increaseBalance st proposerIdx proposerReward
  increaseBalance st proposerIdx (whistleblowerReward - proposerReward)

/-- The slashed validator, which is not withdrawable before the epoch. -/
def Validator.markSlashed (val : Validator) (epoch : Epoch) : Validator :=
  { val with slashed := true, withdrawableEpoch := max val.withdrawableEpoch epoch }

/-- `SlashValidator`; `beaconProposerIndex` is `helpers.BeaconProposerIndex`. -/
def slashValidator (st : BeaconState) (slashedIdx : ValidatorIndex) (exitInfo : ExitInfo) :
    Except Fault (BeaconState × ExitInfo) := do
  let result ← wrapf (initiateValidatorExitForTotalBal config st slashedIdx exitInfo
    exitInfo.totalActiveBalance) "could not initiate validator %d exit" [.number slashedIdx]
  let currentEpoch := result.st.currentEpoch config
  let validator ← result.st.validatorAtIndex slashedIdx
  let st ← result.st.updateValidatorAtIndex slashedIdx
    (validator.markSlashed ((currentEpoch + config.epochsPerSlashingsVector) % 2 ^ 64))
  let st ← addSlashing config st currentEpoch validator.effectiveBalance
  let st ← payPenalty config beaconProposerIndex st slashedIdx validator.effectiveBalance
  .ok (st, result.exitInfo)

/-- The calls of a block that initiate exits. -/
inductive ExitCall
  | exit (idx : ValidatorIndex)
  | slash (idx : ValidatorIndex)
deriving DecidableEq

/-- A call with the state and the exit information that the calls before it have left.  An exit of a
validator that has already exited returns the state it was given. -/
def exitCall (acc : BeaconState × ExitInfo) : ExitCall → Except Fault (BeaconState × ExitInfo)
  | .exit idx => do
    let result ← initiateValidatorExit config acc.1 idx acc.2
    .ok (result.st, result.exitInfo)
  | .slash idx => slashValidator config beaconProposerIndex acc.1 idx acc.2

/-! ### The specification -/

section

variable (currentEpoch : Epoch) (validators : List Validator)

/-- The exit queue epoch of the specification's `initiate_validator_exit` before Electra, from a
scan of the registry. -/
def specExitQueueEpoch : Except Fault Epoch := do
  let exitableEpoch ← add64 currentEpoch (1 + config.maxSeedLookahead)
  let exitEpochs := (validators.map (·.exitEpoch)).filter (· ≠ farFutureEpoch)
  let exitQueueEpoch := exitEpochs.foldl max exitableEpoch
  let exitQueueChurn := validators.countP (·.exitEpoch = exitQueueEpoch)
  let churnLimit := max config.minPerEpochChurnLimit
    (validators.countP (·.isActive currentEpoch) / config.churnLimitQuotient)
  if exitQueueChurn ≥ churnLimit then add64 exitQueueEpoch 1 else .ok exitQueueEpoch

/-- The specification's `initiate_validator_exit`, on the registry. -/
def specInitiateValidatorExit (idx : ValidatorIndex) : Except Fault (List Validator) :=
  match validators[idx]? with
  | none => .error (outOfBounds idx)
  | some validator =>
    if validator.exitEpoch ≠ farFutureEpoch then .ok validators
    else do
      let exitQueueEpoch ← specExitQueueEpoch config currentEpoch validators
      let withdrawableEpoch ← add64 exitQueueEpoch config.minValidatorWithdrawabilityDelay
      .ok (validators.set idx { validator with
        exitEpoch := exitQueueEpoch
        withdrawableEpoch := withdrawableEpoch })

/-- What the specification's calls do to the registry: `slash_validator` marks the validator after
its exit and raises its withdrawable epoch. -/
def specExitCall :
    ExitCall → Except Fault (List Validator)
  | .exit idx => specInitiateValidatorExit config currentEpoch validators idx
  | .slash idx => do
    let validators ← specInitiateValidatorExit config currentEpoch validators idx
    let slashedUntil ← add64 currentEpoch config.epochsPerSlashingsVector
    .ok (validators.modify idx (·.markSlashed slashedUntil))

end

end Model

@[simp] theorem Validator.markSlashed_exitEpoch (val : Validator) (epoch : Epoch) :
    (val.markSlashed epoch).exitEpoch = val.exitEpoch := rfl

/-! ### Summaries of a registry -/

theorem countP_set_add {Item : Type*} (p : Item → Bool) {items : List Item} {idx : ℕ} {old : Item}
    (hold : items[idx]? = some old) (new : Item) :
    (items.set idx new).countP p + (if p old then 1 else 0) =
      items.countP p + if p new then 1 else 0 := by
  induction items generalizing idx with
  | nil => simp at hold
  | cons item items ih =>
    grind

/-- The number of validators that exit at the epoch. -/
def exitsAt (validators : List Validator) (epoch : Epoch) : ℕ :=
  validators.countP fun val ↦ val.exitEpoch ≠ farFutureEpoch ∧ val.exitEpoch = epoch

/-- The epoch is the highest exit epoch of the registry, or zero if nobody exits, and the churn is
the number of exits there. -/
structure Summarizes (validators : List Validator) (highest : Epoch) (churn : ℕ) : Prop where
  upper : ∀ val ∈ validators, val.exitEpoch ≠ farFutureEpoch → val.exitEpoch ≤ highest
  count : churn = exitsAt validators highest
  attained : highest = 0 ∨ 0 < churn

variable {config : SlashingConfig} {validators : List Validator} {st : BeaconState}
  {highest other : Epoch} {churn churn' : ℕ}

theorem exitsAt_pos {epoch : Epoch} (hpos : 0 < exitsAt validators epoch) :
    ∃ val ∈ validators, val.exitEpoch ≠ farFutureEpoch ∧ val.exitEpoch = epoch := by
  obtain ⟨val, hmem, hval⟩ := countP_pos_iff.1 hpos
  exact ⟨val, hmem, of_decide_eq_true hval⟩

section

variable (hsum : Summarizes validators highest churn)
include hsum

/-- Nobody exits after the highest exit epoch. -/
theorem Summarizes.exitsAt_eq_zero {epoch : Epoch} (hepoch : highest < epoch) :
    exitsAt validators epoch = 0 := by
  by_contra hne
  obtain ⟨val, hmem, hfar, rfl⟩ := exitsAt_pos (pos_of_ne_zero hne)
  exact absurd (hsum.upper val hmem hfar) (not_le.2 hepoch)

theorem Summarizes.highest_le {bound : Epoch} (hupper : ∀ val ∈ validators,
    val.exitEpoch ≠ farFutureEpoch → val.exitEpoch ≤ bound) : highest ≤ bound := by
  rcases hsum.attained with hzero | hpos
  · exact hzero ▸ zero_le _
  · rw [hsum.count] at hpos
    obtain ⟨val, hmem, hfar, rfl⟩ := exitsAt_pos hpos
    exact hupper val hmem hfar

theorem Summarizes.unique (hother : Summarizes validators other churn') :
    highest = other ∧ churn = churn' := by
  obtain rfl := le_antisymm (hsum.highest_le hother.upper) (hother.highest_le hsum.upper)
  exact ⟨rfl, hsum.count.trans hother.count.symm⟩

end

theorem exitsAt_append (val : Validator) (epoch : Epoch) :
    exitsAt (validators ++ [val]) epoch = exitsAt validators epoch +
      if val.exitEpoch ≠ farFutureEpoch ∧ val.exitEpoch = epoch then 1 else 0 := by
  simp [exitsAt, countP_append, countP_cons]

variable {exitInfo : ExitInfo}

theorem Summarizes.recordExit (val : Validator)
    (hsum : Summarizes validators exitInfo.highestExitEpoch exitInfo.churn) :
    Summarizes (validators ++ [val]) (exitInfo.recordExit val.exitEpoch).highestExitEpoch
      (exitInfo.recordExit val.exitEpoch).churn := by
  have hupper {highest : Epoch} (hle : exitInfo.highestExitEpoch ≤ highest)
      (hval : val.exitEpoch ≠ farFutureEpoch → val.exitEpoch ≤ highest) (other : Validator)
      (hmem : other ∈ validators ++ [val]) (hfar : other.exitEpoch ≠ farFutureEpoch) :
      other.exitEpoch ≤ highest := by
    rcases mem_append.1 hmem with hother | hother
    · exact (hsum.upper other hother hfar).trans hle
    · grind
  unfold ExitInfo.recordExit
  split_ifs with hfar hhigher hsame
  · refine ⟨hupper hhigher.le fun _ ↦ le_rfl, ?_, .inr one_pos⟩
    rw [exitsAt_append, hsum.exitsAt_eq_zero hhigher, if_pos ⟨hfar, rfl⟩]
  · refine ⟨hupper le_rfl fun _ ↦ hsame.le, ?_, .inr (succ_pos _)⟩
    rw [exitsAt_append, hsum.count, if_pos ⟨hfar, hsame⟩]
  · refine ⟨hupper le_rfl fun _ ↦ not_lt.1 hhigher, ?_, hsum.attained⟩
    rw [exitsAt_append, if_neg fun h ↦ hsame h.2, hsum.count, add_zero]
  · refine ⟨hupper le_rfl fun h ↦ absurd h hfar, ?_, hsum.attained⟩
    rw [exitsAt_append, if_neg fun h ↦ hfar h.1, hsum.count, add_zero]

theorem exitInformation_summarizes (config : SlashingConfig) (st : BeaconState) :
    Summarizes st.validators (exitInformation config st).highestExitEpoch
      (exitInformation config st).churn := by
  have hfold (validators : List Validator) (epoch : Epoch) :
      Summarizes validators (validators.foldl (ExitInfo.record epoch) ⟨0, 0, 0⟩).highestExitEpoch
        (validators.foldl (ExitInfo.record epoch) ⟨0, 0, 0⟩).churn := by
    induction validators using List.reverseRecOn with
    | nil => exact ⟨nofun, rfl, .inl rfl⟩
    | append_singleton validators val ih =>
      rw [foldl_append, foldl_cons, foldl_nil]
      have hrec := ih.recordExit val
      unfold ExitInfo.record
      split_ifs <;> exact hrec
  exact hfold st.validators _

section Set

variable {idx : ValidatorIndex} {old new : Validator}

theorem exitsAt_set (hold : validators[idx]? = some old) (hfar : old.exitEpoch = farFutureEpoch)
    (hnew : new.exitEpoch ≠ farFutureEpoch) (epoch : Epoch) :
    exitsAt (validators.set idx new) epoch =
      exitsAt validators epoch + if new.exitEpoch = epoch then 1 else 0 := by
  have hcount := countP_set_add
    (fun val ↦ decide (val.exitEpoch ≠ farFutureEpoch ∧ val.exitEpoch = epoch)) hold new
  simpa [hfar, hnew, exitsAt] using hcount

theorem exitsAt_set_of_eq (hold : validators[idx]? = some old)
    (hsame : new.exitEpoch = old.exitEpoch) (epoch : Epoch) :
    exitsAt (validators.set idx new) epoch = exitsAt validators epoch := by
  have hcount := countP_set_add
    (fun val ↦ decide (val.exitEpoch ≠ farFutureEpoch ∧ val.exitEpoch = epoch)) hold new
  rw [hsame] at hcount
  exact add_right_cancel hcount

section

variable (hsum : Summarizes validators highest churn) (hold : validators[idx]? = some old)
include hsum hold

/-- The summary after a validator got its exit epoch, at the end of the queue. -/
theorem Summarizes.set (hfar : old.exitEpoch = farFutureEpoch)
    (hnew : new.exitEpoch ≠ farFutureEpoch) (hhigher : highest ≤ new.exitEpoch) :
    Summarizes (validators.set idx new) new.exitEpoch (exitsAt validators new.exitEpoch + 1) := by
  refine ⟨?_, ?_, .inr (succ_pos _)⟩
  · intro val hmem hval
    rcases mem_or_eq_of_mem_set hmem with hmem | rfl
    · exact (hsum.upper val hmem hval).trans hhigher
    · exact le_rfl
  · rw [exitsAt_set hold hfar hnew, if_pos rfl]

/-- The summary after a change that is not of an exit epoch. -/
theorem Summarizes.set_of_eq (hsame : new.exitEpoch = old.exitEpoch) :
    Summarizes (validators.set idx new) highest churn := by
  refine ⟨?_, ?_, hsum.attained⟩
  · intro val hmem hval
    rcases mem_or_eq_of_mem_set hmem with hmem | rfl
    · exact hsum.upper val hmem hval
    · rw [hsame] at hval ⊢
      exact hsum.upper old (mem_of_getElem? hold) hval
  · rw [exitsAt_set_of_eq hold hsame, hsum.count]

end

end Set

theorem foldl_max_le_iff {epochs : List ℕ} {start bound : ℕ} :
    epochs.foldl max start ≤ bound ↔ start ≤ bound ∧ ∀ epoch ∈ epochs, epoch ≤ bound := by
  induction epochs generalizing start with
  | nil => simp
  | cons epoch epochs ih =>
    rw [foldl_cons, ih]
    simp [and_assoc]

/-- The scan of the specification finds the highest exit epoch of the summary, or the exitable epoch
if that is later. -/
theorem Summarizes.foldl_max {exitable : Epoch} (hsum : Summarizes validators highest churn) :
    ((validators.map (·.exitEpoch)).filter (· ≠ farFutureEpoch)).foldl max exitable =
      max highest exitable := by
  have hscan := foldl_max_le_iff.1
    (le_refl (((validators.map (·.exitEpoch)).filter (· ≠ farFutureEpoch)).foldl max exitable))
  apply le_antisymm
  · refine foldl_max_le_iff.2 ⟨le_max_right _ _, fun epoch hepoch ↦ ?_⟩
    obtain ⟨hmem, hfar⟩ := mem_filter.1 hepoch
    obtain ⟨val, hval, rfl⟩ := mem_map.1 hmem
    exact (hsum.upper val hval (of_decide_eq_true hfar)).trans (le_max_left _ _)
  · refine max_le (hsum.highest_le fun val hmem hfar ↦ ?_) hscan.1
    exact hscan.2 _ (mem_filter.2 ⟨mem_map_of_mem hmem, decide_eq_true hfar⟩)

theorem ExitInfo.atLeast_highestExitEpoch (exitInfo : ExitInfo) (exitable : Epoch) :
    (exitInfo.atLeast exitable).highestExitEpoch = max exitInfo.highestExitEpoch exitable := by
  unfold ExitInfo.atLeast
  grind

theorem Summarizes.atLeast_churn
    (hsum : Summarizes validators exitInfo.highestExitEpoch exitInfo.churn) (exitable : Epoch) :
    (exitInfo.atLeast exitable).churn =
      exitsAt validators (exitInfo.atLeast exitable).highestExitEpoch := by
  unfold ExitInfo.atLeast
  split_ifs with hlater
  · exact (hsum.exitsAt_eq_zero hlater).symm
  · exact hsum.count

/-- The churn limit of a state. -/
def churnLimit (config : SlashingConfig) (st : BeaconState) : ℕ :=
  validatorExitChurnLimit config (activeValidatorCount config st)

theorem validatorExitChurnLimit_eq (config : SlashingConfig) (count : ℕ) :
    validatorExitChurnLimit config count =
      max config.minPerEpochChurnLimit (count / config.churnLimitQuotient) := by
  unfold validatorExitChurnLimit
  dsimp only
  split_ifs <;> omega

/-- The end of the queue: the epoch at which the next validator exits, from the summary and from a
scan of the registry. -/
theorem initiateValidatorExitPreElectra_eq_ok {exitInfo next : ExitInfo}
    (hsum : Summarizes st.validators exitInfo.highestExitEpoch exitInfo.churn)
    (hlimit : 0 < churnLimit config st)
    (hepoch : st.currentEpoch config + (1 + config.maxSeedLookahead) < 2 ^ 64)
    (hrun : initiateValidatorExitPreElectra config st exitInfo = .ok next)
    (hfar : next.highestExitEpoch < farFutureEpoch) :
    exitInfo.highestExitEpoch ≤ next.highestExitEpoch ∧
      st.currentEpoch config < next.highestExitEpoch ∧
      next.churn = exitsAt st.validators next.highestExitEpoch + 1 ∧
      next.churn ≤ churnLimit config st ∧
      specExitQueueEpoch config (st.currentEpoch config) st.validators =
        .ok next.highestExitEpoch := by
  have hexitable : activationExitEpoch config (st.currentEpoch config) =
      st.currentEpoch config + (1 + config.maxSeedLookahead) := by
    rw [activationExitEpoch, add_assoc, mod_eq_of_lt hepoch]
  generalize hexit : st.currentEpoch config + (1 + config.maxSeedLookahead) = exitable
    at hexitable hepoch
  -- the end of the queue before the churn is looked at
  have hend (epoch : Epoch) (hlater : max exitInfo.highestExitEpoch exitable < epoch) :
      exitsAt st.validators epoch = 0 := hsum.exitsAt_eq_zero ((le_max_left _ _).trans_lt hlater)
  unfold initiateValidatorExitPreElectra at hrun
  rw [hexitable] at hrun
  have hhighest := exitInfo.atLeast_highestExitEpoch exitable
  have hchurn := hsum.atLeast_churn exitable
  generalize exitInfo.atLeast exitable = mid at hrun hhighest hchurn
  have hscan (hfarMid : mid.highestExitEpoch ≠ farFutureEpoch) :
      specExitQueueEpoch config (st.currentEpoch config) st.validators =
        if mid.churn ≥ churnLimit config st then add64 mid.highestExitEpoch 1
        else .ok mid.highestExitEpoch := by
    have hcount : st.validators.countP (·.exitEpoch = mid.highestExitEpoch) = mid.churn := by
      rw [hchurn]
      refine countP_congr fun val _ ↦ ?_
      grind
    simp only [specExitQueueEpoch, add64_eq_ok_iff.2 ⟨hexit.symm ▸ hepoch, rfl⟩, ok_bind, hexit,
      hsum.foldl_max, ← hhighest, hcount, churnLimit, validatorExitChurnLimit_eq,
      activeValidatorCount]
  by_cases hfull : mid.churn ≥ churnLimit config st
  · change (if mid.churn ≥ churnLimit config st then _ else _) = _ at hrun
    rw [if_pos hfull, bind_eq_ok_iff] at hrun
    obtain ⟨epoch, hadd, hnext⟩ := hrun
    obtain ⟨-, rfl⟩ := add64_eq_ok_iff.1 hadd
    grind
  · change (if mid.churn ≥ churnLimit config st then _ else _) = _ at hrun
    grind

variable {total : ℕ} {idx : ValidatorIndex} {exitInfo : ExitInfo} {result : ExitResult}

/-- What an exit before Electra does: nothing to a validator that has exited, or it gives the
validator its exit epoch. -/
theorem initiateExit_eq_ok (hver : st.version.number < Version.electra.number)
    (hrun : initiateExit config total st idx exitInfo = .ok result) :
    ∃ val, st.validators[idx]? = some val ∧
      ((val.exitEpoch ≠ farFutureEpoch ∧ result = ⟨st, exitInfo, true⟩) ∨
        (val.exitEpoch = farFutureEpoch ∧ ∃ next,
          initiateValidatorExitPreElectra config st exitInfo = .ok next ∧
          next.highestExitEpoch + config.minValidatorWithdrawabilityDelay < 2 ^ 64 ∧
          result = ⟨{ st with validators := st.validators.set idx { val with
              exitEpoch := next.highestExitEpoch
              withdrawableEpoch :=
                next.highestExitEpoch + config.minValidatorWithdrawabilityDelay } },
            next, false⟩)) := by
  simp only [initiateExit, bind_eq_ok_iff, validatorAtIndex_eq_ok_iff] at hrun
  obtain ⟨val, hval, hrun⟩ := hrun
  refine ⟨val, hval, ?_⟩
  by_cases hexited : val.exitEpoch ≠ farFutureEpoch
  · rw [if_pos hexited] at hrun
    exact .inl ⟨hexited, (Except.ok.inj hrun).symm⟩
  · rw [if_neg hexited] at hrun
    simp only [exitQueueEpoch, if_pos hver, bind_eq_ok_iff, add64_eq_ok_iff,
      updateValidatorAtIndex_eq_ok_iff] at hrun
    obtain ⟨⟨mid, info⟩, ⟨next, hnext, hpair⟩, _, ⟨hlt, rfl⟩, _, ⟨-, rfl⟩, hres⟩ := hrun
    obtain ⟨rfl, rfl⟩ := Prod.mk.inj (Except.ok.inj hpair)
    exact .inr ⟨not_not.1 hexited, next, hnext, hlt, (Except.ok.inj hres).symm⟩

/-! ### The calls of a block -/

/-- The states that the exits of a block start from: a state before Electra whose epoch does not
overflow, with a positive churn limit and delay. -/
structure ExitLimits (config : SlashingConfig) (st : BeaconState) : Prop where
  preElectra : st.version.number < Version.electra.number
  churn : 0 < config.minPerEpochChurnLimit
  delay : 0 < config.minValidatorWithdrawabilityDelay
  exitable : st.currentEpoch config + (1 + config.maxSeedLookahead) < 2 ^ 64
  slashings : st.currentEpoch config + config.epochsPerSlashingsVector < 2 ^ 64

/-- What holds after the calls of a block: the carried information summarizes the registry, the
active validators are those of the start, and no epoch after the first end of the queue has more
exits than the churn limit. -/
structure InQueue (config : SlashingConfig) (start : BeaconState) (acc : BeaconState × ExitInfo) :
    Prop where
  slot : acc.1.slot = start.slot
  version : acc.1.version = start.version
  summary : Summarizes acc.1.validators acc.2.highestExitEpoch acc.2.churn
  active : activeValidatorCount config acc.1 = activeValidatorCount config start
  bounded : ∀ epoch, (exitInformation config start).highestExitEpoch < epoch →
    exitsAt acc.1.validators epoch ≤ churnLimit config start

variable {start : BeaconState} {acc : BeaconState × ExitInfo}

theorem churnLimit_pos (hlimits : ExitLimits config start) (st : BeaconState) :
    0 < churnLimit config st := by
  rw [churnLimit, validatorExitChurnLimit_eq]
  exact hlimits.churn.trans_le (le_max_left _ _)

theorem inQueue_start (config : SlashingConfig) (st : BeaconState) :
    InQueue config st (st, exitInformation config st) where
  slot := rfl
  version := rfl
  summary := exitInformation_summarizes config st
  active := rfl
  bounded epoch hepoch := by
    rw [(exitInformation_summarizes config st).exitsAt_eq_zero hepoch]
    exact zero_le _

/-- A validator that stays active or inactive does not change the number of active validators. -/
theorem activeValidatorCount_set {old new : Validator} (hold : st.validators[idx]? = some old)
    (hactive : new.isActive (st.currentEpoch config) =
      old.isActive (st.currentEpoch config)) :
    activeValidatorCount config { st with validators := st.validators.set idx new } =
      activeValidatorCount config st := by
  have hcount := countP_set_add (·.isActive (st.currentEpoch config)) hold new
  rw [hactive] at hcount
  exact add_right_cancel hcount

/-- An exit keeps the queue in order and gives the validator what the specification gives it. -/
theorem InQueue.initiateExit (hlimits : ExitLimits config start) (hqueue : InQueue config start acc)
    (hrun : initiateExit config total acc.1 idx acc.2 = .ok result) :
    InQueue config start (result.st, result.exitInfo) ∧
      specInitiateValidatorExit config (start.currentEpoch config) acc.1.validators
        idx = .ok result.st.validators := by
  have hver : acc.1.version.number < Version.electra.number := hqueue.version ▸ hlimits.preElectra
  have hcurr : acc.1.currentEpoch config =
      start.currentEpoch config := by
    rw [currentEpoch, hqueue.slot, currentEpoch]
  obtain ⟨val, hval, ⟨hexited, rfl⟩ | ⟨hfar, next, hnext, hlt, rfl⟩⟩ := initiateExit_eq_ok hver hrun
  · refine ⟨hqueue, ?_⟩
    simp only [specInitiateValidatorExit, hval, if_pos hexited]
  · have hdelay := hlimits.delay
    have hnextFar : next.highestExitEpoch < farFutureEpoch := by
      unfold farFutureEpoch
      lia
    obtain ⟨hhigher, hlater, hchurn, hbound, hspec⟩ := initiateValidatorExitPreElectra_eq_ok
      hqueue.summary (churnLimit_pos hlimits acc.1) (hcurr ▸ hlimits.exitable) hnext hnextFar
    have hlimit : churnLimit config acc.1 = churnLimit config start := by
      rw [churnLimit, hqueue.active, churnLimit]
    refine ⟨⟨hqueue.slot, hqueue.version, ?_, ?_, ?_⟩, ?_⟩
    · rw [hchurn]
      exact hqueue.summary.set hval hfar hnextFar.ne hhigher
    · rw [← hqueue.active]
      refine activeValidatorCount_set hval ?_
      have hbefore := hlater.trans hnextFar
      simp only [Validator.isActive, hfar, hlater, hbefore]
    · intro epoch hepoch
      rw [exitsAt_set hval hfar hnextFar.ne]
      split_ifs with hsame
      · grind
      · exact hqueue.bounded epoch hepoch
    · simp only [specInitiateValidatorExit, hval, hfar, ne_eq, not_true_eq_false, if_false,
        ← hcurr, hspec, ok_bind, add64_eq_ok_iff.2 ⟨hlt, rfl⟩]

variable {beaconProposerIndex : BeaconState → Except Fault ValidatorIndex}
  {next : BeaconState × ExitInfo} {currentEpoch : Epoch} {call : ExitCall} {calls : List ExitCall}
  {after : List Validator} {val : Validator}

theorem payPenalty_eq_ok {post : BeaconState} {effectiveBalance : ℕ}
    (hrun : payPenalty config beaconProposerIndex st idx effectiveBalance = .ok post) :
    ∃ balances, post = { st with balances := balances } := by
  simp only [payPenalty, bind_eq_ok_iff] at hrun
  obtain ⟨_, -, low, hlow, _, -, _, -, _, -, mid, hmid, hpost⟩ := hrun
  obtain ⟨_, -, rfl⟩ := decreaseBalance_eq_ok_iff.1 hlow
  obtain ⟨_, -, -, rfl⟩ := increaseBalance_eq_ok_iff.1 hmid
  obtain ⟨_, -, -, rfl⟩ := increaseBalance_eq_ok_iff.1 hpost
  exact ⟨_, rfl⟩

/-- What a slashing does besides the exit: it marks the validator, raises its withdrawable epoch and
changes balances and slashed balances. -/
theorem slashValidator_eq_ok
    (hrun : slashValidator config beaconProposerIndex st idx exitInfo = .ok next) :
    ∃ result val balances slashings,
      initiateExit config exitInfo.totalActiveBalance st idx exitInfo = .ok result ∧
      result.st.validators[idx]? = some val ∧
      next = ({ result.st with
        validators := result.st.validators.set idx (val.markSlashed
          ((result.st.currentEpoch config + config.epochsPerSlashingsVector) % 2 ^ 64))
        balances := balances
        slashings := slashings }, result.exitInfo) := by
  simp only [slashValidator, initiateValidatorExitForTotalBal, bind_eq_ok_iff, wrapf_eq_ok_iff,
    validatorAtIndex_eq_ok_iff, updateValidatorAtIndex_eq_ok_iff] at hrun
  obtain ⟨result, hres, val, hval, _, ⟨-, rfl⟩, mid, hmid, last, hlast, hnext⟩ := hrun
  obtain ⟨slashings, rfl⟩ : ∃ slashings, mid = { result.st with
      validators := result.st.validators.set idx (val.markSlashed
        ((result.st.currentEpoch config + config.epochsPerSlashingsVector) % 2 ^ 64))
      slashings := slashings } := by
    unfold addSlashing at hmid
    dsimp only at hmid
    split at hmid
    · cases hmid
    · exact ⟨_, (Except.ok.inj hmid).symm⟩
  obtain ⟨balances, rfl⟩ := payPenalty_eq_ok hlast
  grind

/-- A call keeps the queue in order and does to the registry what the specification does. -/
theorem InQueue.exitCall (hlimits : ExitLimits config start) (hqueue : InQueue config start acc)
    (hrun : exitCall config beaconProposerIndex acc call = .ok next) :
    InQueue config start next ∧
      specExitCall config (start.currentEpoch config) acc.1.validators call =
        .ok next.1.validators := by
  cases call with
  | exit idx =>
    simp only [Core.exitCall, initiateValidatorExit, bind_eq_ok_iff] at hrun
    obtain ⟨result, hres, hnext⟩ := hrun
    cases hnext
    exact hqueue.initiateExit hlimits hres
  | slash idx =>
    obtain ⟨result, val, bals, slashings, hres, hval, rfl⟩ := slashValidator_eq_ok hrun
    obtain ⟨hexit, hspec⟩ := hqueue.initiateExit hlimits hres
    have hcurr : result.st.currentEpoch config =
        start.currentEpoch config := by
      rw [currentEpoch, hexit.slot, currentEpoch]
    rw [hcurr, mod_eq_of_lt hlimits.slashings]
    generalize hmark : start.currentEpoch config + config.epochsPerSlashingsVector =
      slashedUntil
    have hactive : activeValidatorCount config { result.st with
        validators := result.st.validators.set idx (val.markSlashed slashedUntil) } =
        activeValidatorCount config result.st := activeValidatorCount_set hval rfl
    have hexits (epoch : Epoch) :
        exitsAt (result.st.validators.set idx (val.markSlashed slashedUntil)) epoch =
          exitsAt result.st.validators epoch :=
      exitsAt_set_of_eq hval (Validator.markSlashed_exitEpoch val slashedUntil) epoch
    refine ⟨⟨hexit.slot, hexit.version, hexit.summary.set_of_eq hval rfl,
      hactive.trans hexit.active,
      fun epoch hepoch ↦ (hexits epoch).trans_le (hexit.bounded epoch hepoch)⟩, ?_⟩
    simp only [specExitCall, hspec, ok_bind, add64_eq_ok_iff.2 ⟨hlimits.slashings, rfl⟩, hmark,
      modify_eq_set_getElem?, hval]
    rfl

/-- The calls of a block, one after the other. -/
theorem InQueue.run (hlimits : ExitLimits config start) (hqueue : InQueue config start acc)
    (hrun : calls.foldlM (Core.exitCall config beaconProposerIndex) acc = .ok next) :
    InQueue config start next ∧
      calls.foldlM (specExitCall config (start.currentEpoch config))
        acc.1.validators = .ok next.1.validators := by
  induction calls generalizing acc with
  | nil =>
    obtain rfl := Except.ok.inj hrun
    exact ⟨hqueue, rfl⟩
  | cons call calls ih =>
    rw [foldlM_cons, bind_eq_ok_iff] at hrun
    obtain ⟨mid, hmid, hrest⟩ := hrun
    obtain ⟨hmidQueue, hspec⟩ := hqueue.exitCall hlimits hmid
    obtain ⟨hlast, hspecRest⟩ := ih hmidQueue hrest
    refine ⟨hlast, ?_⟩
    rw [foldlM_cons, hspec]
    exact hspecRest

/-! ### Validators that already exit -/

/-- The later validator exits at the same epoch, and becomes withdrawable at the same epoch if it
was not slashed in between. -/
structure Keeps (slashed : Prop) (val later : Validator) : Prop where
  exitEpoch : later.exitEpoch = val.exitEpoch
  withdrawableEpoch : ¬ slashed → later.withdrawableEpoch = val.withdrawableEpoch

theorem specInitiateValidatorExit_keeps
    (hspec : specInitiateValidatorExit config currentEpoch validators idx = .ok after)
    {other : ValidatorIndex} (hval : validators[other]? = some val)
    (hexits : val.exitEpoch ≠ farFutureEpoch) : after[other]? = some val := by
  unfold specInitiateValidatorExit at hspec
  split at hspec
  · cases hspec
  next validator hvalidator =>
    by_cases hexited : validator.exitEpoch ≠ farFutureEpoch
    · grind
    · rw [if_neg hexited] at hspec
      simp only [bind_eq_ok_iff] at hspec
      obtain ⟨_, -, _, -, hafter⟩ := hspec
      grind

theorem specExitCall_keeps (hspec : specExitCall config currentEpoch validators call = .ok after)
    (hval : validators[idx]? = some val) (hexits : val.exitEpoch ≠ farFutureEpoch) :
    ∃ later, after[idx]? = some later ∧ Keeps (call = .slash idx) val later := by
  cases call with
  | exit other => exact ⟨val, specInitiateValidatorExit_keeps hspec hval hexits, rfl, fun _ ↦ rfl⟩
  | slash other =>
    simp only [specExitCall, bind_eq_ok_iff] at hspec
    obtain ⟨mid, hmid, slashedUntil, -, hafter⟩ := hspec
    have hkept := specInitiateValidatorExit_keeps hmid hval hexits
    rw [← Except.ok.inj hafter, getElem?_modify, hkept]
    refine ⟨_, rfl, ?_, fun hother ↦ ?_⟩
    · split_ifs <;> rfl
    · grind

theorem foldlM_specExitCall_keeps
    (hspec : calls.foldlM (specExitCall config currentEpoch) validators = .ok after)
    (hval : validators[idx]? = some val) (hexits : val.exitEpoch ≠ farFutureEpoch) :
    ∃ later, after[idx]? = some later ∧ Keeps (.slash idx ∈ calls) val later := by
  induction calls generalizing validators val with
  | nil =>
    obtain rfl := Except.ok.inj hspec
    exact ⟨val, hval, rfl, fun _ ↦ rfl⟩
  | cons call calls ih =>
    rw [foldlM_cons, bind_eq_ok_iff] at hspec
    obtain ⟨mid, hmid, hrest⟩ := hspec
    obtain ⟨between, hbetween, hfirst⟩ := specExitCall_keeps hmid hval hexits
    obtain ⟨later, hlater, hsnd⟩ := ih hrest hbetween (hfirst.exitEpoch ▸ hexits)
    refine ⟨later, hlater, hsnd.exitEpoch.trans hfirst.exitEpoch, fun hslash ↦ ?_⟩
    rw [mem_cons, not_or] at hslash
    exact (hsnd.withdrawableEpoch hslash.2).trans (hfirst.withdrawableEpoch fun h ↦ hslash.1 h.symm)

/-! ### Carrying the exit information through a block -/

/-- An exit succeeds when its withdrawable epoch does not overflow. -/
theorem exists_initiateValidatorExit (hver : st.version.number < Version.electra.number)
    (hidx : idx < st.validators.length)
    (hepoch : max exitInfo.highestExitEpoch (activationExitEpoch config
      (st.currentEpoch config)) + 1 + config.minValidatorWithdrawabilityDelay <
        2 ^ 64) : ∃ result, initiateValidatorExit config st idx exitInfo = .ok result := by
  obtain ⟨val, hval⟩ : ∃ val, st.validators[idx]? = some val := ⟨_, getElem?_eq_getElem hidx⟩
  obtain ⟨next, hnext, hle⟩ : ∃ next,
      initiateValidatorExitPreElectra config st exitInfo = .ok next ∧
      next.highestExitEpoch ≤ max exitInfo.highestExitEpoch (activationExitEpoch
        config (st.currentEpoch config)) + 1 := by
    rw [← exitInfo.atLeast_highestExitEpoch] at hepoch ⊢
    unfold initiateValidatorExitPreElectra
    dsimp only
    split_ifs
    · rw [add64_eq_ok_iff.2 ⟨by lia, rfl⟩]
      exact ⟨_, rfl, le_rfl⟩
    · exact ⟨_, rfl, le_succ _⟩
  have hadd : add64 next.highestExitEpoch config.minValidatorWithdrawabilityDelay =
      .ok (next.highestExitEpoch + config.minValidatorWithdrawabilityDelay) :=
    add64_eq_ok_iff.2 ⟨by lia, rfl⟩
  simp only [initiateValidatorExit, initiateExit, validatorAtIndex_eq_ok_iff.2 hval, ok_bind,
    exitQueueEpoch, if_pos hver, hnext, hadd]
  by_cases hexited : val.exitEpoch ≠ farFutureEpoch
  · exact ⟨_, if_pos hexited⟩
  · rw [if_neg hexited, updateValidatorAtIndex, if_pos hidx]
    exact ⟨_, rfl⟩

/-- Carrying the exit information through the exits and slashings of a block is the same as
computing it anew after each of them: it summarizes the registry, the registry is the one of the
specification, validators that already exit keep their exit epoch, and no epoch after the first end
of the queue has more exits than the churn limit. -/
theorem exitInfo_carried (config : SlashingConfig)
    (beaconProposerIndex : BeaconState → Except Fault ValidatorIndex) (st : BeaconState)
    (hlimits : ExitLimits config st) (calls : List ExitCall) (last : BeaconState)
    (exitInfo : ExitInfo)
    (hrun : calls.foldlM (exitCall config beaconProposerIndex) (st, exitInformation config st) =
      .ok (last, exitInfo)) :
    (exitInfo.highestExitEpoch = (exitInformation config last).highestExitEpoch ∧
        exitInfo.churn = (exitInformation config last).churn) ∧
      calls.foldlM (specExitCall config (st.currentEpoch config)) st.validators =
        .ok last.validators ∧
      (∀ idx val, st.validators[idx]? = some val → val.exitEpoch ≠ farFutureEpoch →
        ∃ later, last.validators[idx]? = some later ∧ Keeps (.slash idx ∈ calls) val later) ∧
      (∀ epoch, (exitInformation config st).highestExitEpoch < epoch →
        exitsAt last.validators epoch ≤ churnLimit config st) ∧
      churnLimit config last = churnLimit config st ∧
      ∀ idx < last.validators.length, max exitInfo.highestExitEpoch (activationExitEpoch
          config (last.currentEpoch config)) + 1 +
            config.minValidatorWithdrawabilityDelay < 2 ^ 64 →
        ∃ result, initiateValidatorExit config last idx exitInfo = .ok result := by
  obtain ⟨hqueue, hspec⟩ := (inQueue_start config st).run hlimits hrun
  refine ⟨hqueue.summary.unique (exitInformation_summarizes config last), hspec,
    fun idx val ↦ foldlM_specExitCall_keeps hspec, hqueue.bounded, ?_, fun idx hidx ↦
      exists_initiateValidatorExit (hqueue.version ▸ hlimits.preElectra) hidx⟩
  rw [churnLimit, hqueue.active, churnLimit]

/-- A Deneb state in epoch 100 whose first validator already exits. -/
def firstExits : BeaconState :=
  { (default : BeaconState) with
    version := .deneb
    slot := 3200
    validators :=
      [⟨1, Vector.replicate 32 1, 32 * 10 ^ 9, false, 0, 0, 110, 366⟩,
        ⟨2, Vector.replicate 32 1, 32 * 10 ^ 9, false, 0, 0, farFutureEpoch, farFutureEpoch⟩,
        ⟨3, Vector.replicate 32 1, 32 * 10 ^ 9, false, 0, 0, farFutureEpoch, farFutureEpoch⟩]
    balances := [32 * 10 ^ 9, 32 * 10 ^ 9, 32 * 10 ^ 9]
    slashings := List.replicate 8192 0
    finalizedCheckpoint := ⟨98, 0⟩
    eth1DepositIndex := 3 }

theorem firstExits_limits : ExitLimits mainnetSlashing firstExits :=
  ⟨by decide, by decide, by decide, by decide, by decide⟩

theorem firstExits_run :
    ([.exit 1, .exit 0, .slash 2].foldlM (exitCall mainnetSlashing fun _ ↦ .ok 1)
      (firstExits, exitInformation mainnetSlashing firstExits)).toOption.isSome = true := by
  decide +kernel

theorem exitInfo_carried_firstExits :
    ∃ last exitInfo, [.exit 1, .exit 0, .slash 2].foldlM (exitCall mainnetSlashing fun _ ↦ .ok 1)
        (firstExits, exitInformation mainnetSlashing firstExits) = .ok (last, exitInfo) ∧
      exitInfo.churn = (exitInformation mainnetSlashing last).churn := by
  have hsome := firstExits_run
  cases hrun : [.exit 1, .exit 0, .slash 2].foldlM (exitCall mainnetSlashing fun _ ↦ .ok 1)
      (firstExits, exitInformation mainnetSlashing firstExits) with
  | error fault =>
    rw [hrun] at hsome
    cases hsome
  | ok result =>
    exact ⟨result.1, result.2, rfl, (exitInfo_carried mainnetSlashing _ firstExits firstExits_limits
      _ result.1 result.2 hrun).1.2⟩

/-- A slashing makes a validator that already exits withdrawable later. -/
theorem slashing_raises_withdrawableEpoch :
    firstExits.validators.map (·.withdrawableEpoch) = [366, farFutureEpoch, farFutureEpoch] ∧
      (slashValidator mainnetSlashing (fun _ ↦ .ok 1) firstExits 0
        (exitInformation mainnetSlashing firstExits)).toOption.map
          (fun result ↦ result.1.validators.map (·.withdrawableEpoch)) =
        some [8292, farFutureEpoch, farFutureEpoch] := by
  decide +kernel

end Prysm.Core
