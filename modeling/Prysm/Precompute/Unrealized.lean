import Prysm.Precompute.Justification

/-!
# Unrealized checkpoints

Fork choice asks which checkpoints a state would have after the epoch it is in.
`UnrealizedCheckpoints` answers from the state as it is, with balances computed by
`stateutil.UnrealizedCheckpointBalances`; the epoch transition computes them with
`InitializePrecomputeValidators`, `ProcessEpochParticipation` and `UpdateBalance`.  This module
embeds both.
-/

namespace Prysm.Precompute

/-- The fields of a validator that the two computations read. -/
structure Validator where
  activationEpoch : Epoch
  exitEpoch : Epoch
  withdrawableEpoch : Epoch
  effectiveBalance : ℕ
  slashed : Bool
deriving DecidableEq, Repr

/-- The beacon state as the two computations see it.  A missing participation list is a nil slice.
-/
structure BeaconState extends FinalityState where
  version : Version
  validators : List Validator
  inactivityScores : List ℕ
  currentEpochParticipation : Option (List UInt8)
  previousEpochParticipation : Option (List UInt8)

instance : Coe BeaconState FinalityState where coe st := st.toFinalityState

def timelySourceFlagIndex : UInt8 := 0

def timelyTargetFlagIndex : UInt8 := 1

def timelyHeadFlagIndex : UInt8 := 2

def errNotSupported (funcName : String) (version : Version) : Error :=
  .errorf "%s is not supported for %s" [.text funcName, .text version.string]

/-- The addition with overflow check to one of the totals, under a condition. -/
def addIf (condition : Bool) (total amount : ℕ) : Except Fault ℕ :=
  if condition then add64 total amount else .ok total

variable [Bitvector4] (config : FinalityConfig)

/-- The loop of `stateutil.UnrealizedCheckpointBalances`. -/
def unrealizedLoop (currentEpoch : Epoch) : List Validator → List UInt8 → List UInt8 →
    TargetBalances → Except Fault TargetBalances
  | v :: validators, c :: cp, p :: pp, bal => do
    let activeCurrent := decide (v.activationEpoch ≤ currentEpoch ∧ currentEpoch < v.exitEpoch)
    let active ← addIf activeCurrent bal.activeCurrentEpoch v.effectiveBalance
    if v.slashed then
      unrealizedLoop currentEpoch validators cp pp { bal with activeCurrentEpoch := active }
    else
      let currentTarget ← addIf (activeCurrent && (c >>> timelyTargetFlagIndex) &&& 1 == 1)
        bal.currentEpochTargetAttested v.effectiveBalance
      let activePrevious := decide (v.activationEpoch < currentEpoch ∧ currentEpoch ≤ v.exitEpoch)
      let prevTarget ← addIf (activePrevious && (p >>> timelyTargetFlagIndex) &&& 1 == 1)
        bal.prevEpochTargetAttested v.effectiveBalance
      unrealizedLoop currentEpoch validators cp pp ⟨active, prevTarget, currentTarget⟩
  | _, _, _, bal => .ok bal

def ensureLowerBound (bal : TargetBalances) : TargetBalances :=
  let ebi := config.effectiveBalanceIncrement
  { activeCurrentEpoch :=
      if ebi > bal.activeCurrentEpoch then ebi else bal.activeCurrentEpoch
    prevEpochTargetAttested :=
      if ebi > bal.prevEpochTargetAttested then ebi else bal.prevEpochTargetAttested
    currentEpochTargetAttested :=
      if ebi > bal.currentEpochTargetAttested then ebi else bal.currentEpochTargetAttested }

/-- `stateutil.UnrealizedCheckpointBalances`. -/
def unrealizedBalances (cp pp : List UInt8) (validators : List Validator) (currentEpoch : Epoch) :
    Except Fault TargetBalances :=
  if cp.length < validators.length ∨ pp.length < validators.length then
    .error (.error (.errorf "participation does not match validator set" []))
  else do
    let bal ← unrealizedLoop currentEpoch validators cp pp ⟨0, 0, 0⟩
    .ok (ensureLowerBound config bal)

variable (st : BeaconState)

/-- The method `UnrealizedCheckpointBalances` of the beacon state. -/
def unrealizedCheckpointBalances : Except Fault TargetBalances :=
  if st.version = .phase0 then
    .error (.error (errNotSupported "UnrealizedCheckpointBalances" st.version))
  else
    match st.currentEpochParticipation, st.previousEpochParticipation with
    | some cp, some pp =>
      unrealizedBalances config cp pp st.validators (currentEpoch config st)
    | _, _ => .error (.error (.errorf "nil epoch participation in state" []))

/-- `UnrealizedCheckpoints`: the justified and the finalized checkpoint. -/
def unrealizedCheckpoints : Except Fault (Checkpoint × Checkpoint) :=
  if toEpoch config st.slot ≤ config.genesisEpoch + 1 then
    .ok (st.currentJustifiedCheckpoint, st.finalizedCheckpoint)
  else do
    let bal ← unrealizedCheckpointBalances config st
    computeCheckpoints config st (processJustificationBits st
      bal.activeCurrentEpoch bal.prevEpochTargetAttested bal.currentEpochTargetAttested)

/-- The fields of `precompute.Validator` that the modelled functions write. -/
structure PrecomputeValidator where
  isSlashed : Bool
  isWithdrawableCurrentEpoch : Bool
  isActiveCurrentEpoch : Bool
  isActivePrevEpoch : Bool
  isCurrentEpochAttester : Bool
  isCurrentEpochTargetAttester : Bool
  isPrevEpochAttester : Bool
  isPrevEpochSourceAttester : Bool
  isPrevEpochTargetAttester : Bool
  isPrevEpochHeadAttester : Bool
  currentEpochEffectiveBalance : ℕ
  inactivityScore : ℕ
deriving DecidableEq, Repr

/-- `precompute.Balance`. -/
structure Balance extends TargetBalances where
  activePrevEpoch : ℕ
  currentEpochAttested : ℕ
  prevEpochAttested : ℕ
  prevEpochHeadAttested : ℕ
deriving DecidableEq, Repr

/-- `helpers.IsActiveValidatorUsingTrie`. -/
def isActiveValidator (v : Validator) (epoch : Epoch) : Bool :=
  decide (v.activationEpoch ≤ epoch ∧ epoch < v.exitEpoch)

/-- The record that `InitializePrecomputeValidators` makes of a validator. -/
def initialRecord (current prev : Epoch) (v : Validator) (score : ℕ) : PrecomputeValidator where
  isSlashed := v.slashed
  isWithdrawableCurrentEpoch := decide (current ≥ v.withdrawableEpoch)
  isActiveCurrentEpoch := isActiveValidator v current
  isActivePrevEpoch := isActiveValidator v prev
  isCurrentEpochAttester := false
  isCurrentEpochTargetAttester := false
  isPrevEpochAttester := false
  isPrevEpochSourceAttester := false
  isPrevEpochTargetAttester := false
  isPrevEpochHeadAttester := false
  currentEpochEffectiveBalance := v.effectiveBalance
  inactivityScore := score

/-- The loop of `InitializePrecomputeValidators` over the registry. -/
def initializeLoop (current prev : Epoch) : List (Validator × ℕ) → Balance →
    Except Fault (List PrecomputeValidator × Balance)
  | [], bal => .ok ([], bal)
  | (v, score) :: rest, bal => do
    let activeCurrent ← addIf (isActiveValidator v current) bal.activeCurrentEpoch
      v.effectiveBalance
    let activePrev ← addIf (isActiveValidator v prev) bal.activePrevEpoch v.effectiveBalance
    let (vals, bal) ← initializeLoop current prev rest
      { bal with activeCurrentEpoch := activeCurrent, activePrevEpoch := activePrev }
    .ok (initialRecord current prev v score :: vals, bal)

def initializePrecomputeValidators : Except Fault (List PrecomputeValidator × Balance) :=
  if st.version = .phase0 then
    .error (.error (errNotSupported "InactivityScores" st.version))
  else if st.validators.length ≠ st.inactivityScores.length then
    .error (.error (.errorf "num of validators is different than num of inactivity scores" []))
  else
    wrapf (initializeLoop (currentEpoch config st)
      (prevEpoch config st) (st.validators.zip st.inactivityScores)
      ⟨⟨0, 0, 0⟩, 0, 0, 0, 0⟩) "could not read every validator" []

def hasValidatorFlag (flag flagPosition : UInt8) : Except Fault Bool :=
  if flagPosition > 7 then .error (.error (.errorf "flag position exceeds length" []))
  else .ok ((flag >>> flagPosition) &&& 1 == 1)

/-- The body of the loop of `ProcessEpochParticipation` over the current participation. -/
def markCurrent (b : UInt8) (v : PrecomputeValidator) : Except Fault PrecomputeValidator := do
  let has ← hasValidatorFlag b timelySourceFlagIndex
  let v := if has && v.isActiveCurrentEpoch then { v with isCurrentEpochAttester := true } else v
  let has ← hasValidatorFlag b timelyTargetFlagIndex
  .ok (if has && v.isActiveCurrentEpoch then
    { v with isCurrentEpochAttester := true, isCurrentEpochTargetAttester := true } else v)

/-- The body of the loop of `ProcessEpochParticipation` over the previous participation. -/
def markPrevious (b : UInt8) (v : PrecomputeValidator) : Except Fault PrecomputeValidator := do
  let has ← hasValidatorFlag b timelySourceFlagIndex
  let v := if has && v.isActivePrevEpoch then
    { v with isPrevEpochAttester := true, isPrevEpochSourceAttester := true } else v
  let has ← hasValidatorFlag b timelyTargetFlagIndex
  let v := if has && v.isActivePrevEpoch then
    { v with isPrevEpochAttester := true, isPrevEpochTargetAttester := true } else v
  let has ← hasValidatorFlag b timelyHeadFlagIndex
  .ok (if has && v.isActivePrevEpoch then { v with isPrevEpochHeadAttester := true } else v)

/-- A loop over a participation list.  An entry without a record is read past the end of the records
when one of the flags `positions` is set. -/
def markAll (mark : UInt8 → PrecomputeValidator → Except Fault PrecomputeValidator)
    (positions : List UInt8) :
    List UInt8 → List PrecomputeValidator → Except Fault (List PrecomputeValidator)
  | [], vals => .ok vals
  | b :: participation, v :: vals => do
    let v ← mark b v
    let vals ← markAll mark positions participation vals
    .ok (v :: vals)
  | b :: participation, [] =>
    if positions.any fun position ↦ (b >>> position) &&& 1 == 1 then .error .panic
    else markAll mark positions participation []

/-- One round of the loop of `UpdateBalance`. -/
def addRecord (stateVersion : Version) (bal : Balance) (v : PrecomputeValidator) : Balance :=
  let add (condition : Bool) (total : ℕ) : ℕ :=
    if condition then (total + v.currentEpochEffectiveBalance) % 2 ^ 64 else total
  if v.isSlashed then bal
  else
    let bal := { bal with
      currentEpochAttested := add v.isCurrentEpochAttester bal.currentEpochAttested
      currentEpochTargetAttested :=
        add v.isCurrentEpochTargetAttester bal.currentEpochTargetAttested }
    let bal := { bal with
      prevEpochAttested :=
        add (stateVersion = Version.phase0 && v.isPrevEpochAttester) bal.prevEpochAttested }
    { bal with
      prevEpochAttested :=
        add (stateVersion.number ≥ Version.altair.number && v.isPrevEpochSourceAttester)
          bal.prevEpochAttested
      prevEpochTargetAttested := add v.isPrevEpochTargetAttester bal.prevEpochTargetAttested
      prevEpochHeadAttested := add v.isPrevEpochHeadAttester bal.prevEpochHeadAttested }

def ensureBalancesLowerBound (bal : Balance) : Balance :=
  let ebi := config.effectiveBalanceIncrement
  { activeCurrentEpoch :=
      if ebi > bal.activeCurrentEpoch then ebi else bal.activeCurrentEpoch
    activePrevEpoch := if ebi > bal.activePrevEpoch then ebi else bal.activePrevEpoch
    currentEpochAttested :=
      if ebi > bal.currentEpochAttested then ebi else bal.currentEpochAttested
    currentEpochTargetAttested :=
      if ebi > bal.currentEpochTargetAttested then ebi else bal.currentEpochTargetAttested
    prevEpochAttested := if ebi > bal.prevEpochAttested then ebi else bal.prevEpochAttested
    prevEpochTargetAttested :=
      if ebi > bal.prevEpochTargetAttested then ebi else bal.prevEpochTargetAttested
    prevEpochHeadAttested :=
      if ebi > bal.prevEpochHeadAttested then ebi else bal.prevEpochHeadAttested }

def updateBalance (vals : List PrecomputeValidator) (bal : Balance) (stateVersion : Version) :
    Balance :=
  ensureBalancesLowerBound config (vals.foldl (addRecord stateVersion) bal)

def processEpochParticipation (bal : Balance) (vals : List PrecomputeValidator) :
    Except Fault (List PrecomputeValidator × Balance) :=
  if st.version = .phase0 then
    .error (.error (errNotSupported "CurrentEpochParticipation" st.version))
  else do
    let vals ← markAll markCurrent [timelySourceFlagIndex, timelyTargetFlagIndex]
      (st.currentEpochParticipation.getD []) vals
    let vals ← markAll markPrevious
      [timelySourceFlagIndex, timelyTargetFlagIndex, timelyHeadFlagIndex]
      (st.previousEpochParticipation.getD []) vals
    .ok (vals, updateBalance config vals bal st.version)

/-- The balances that the epoch transition computes. -/
def precomputeBalances : Except Fault Balance := do
  let (vals, bal) ← initializePrecomputeValidators config st
  let (_, bal) ← processEpochParticipation config st bal vals
  .ok bal

/-- The first three functions of the epoch transition. -/
def processEpochStart : Except Fault FinalityState := do
  let bal ← precomputeBalances config st
  processJustificationAndFinalizationPreCompute config st bal.toTargetBalances

/-- One empty slot: `ProcessSlot` stores the root `root` of the latest block header, and the slot is
raised. -/
def emptySlot (root : Slot → Root) (st : BeaconState) : BeaconState :=
  { st with
    blockRoots := Function.update st.blockRoots (st.slot % config.slotsPerHistoricalRoot)
      (root st.slot)
    slot := st.slot + 1 }

/-- The state advanced with empty slots to the last slot of its epoch. -/
def advance (root : Slot → Root) (st : BeaconState) : BeaconState :=
  (emptySlot config root)^[config.slotsPerEpoch - 1 - st.slot % config.slotsPerEpoch] st

end Prysm.Precompute
