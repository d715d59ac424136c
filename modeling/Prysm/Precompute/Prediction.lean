import Prysm.Precompute.Finality
import Prysm.Precompute.Unrealized

/-!
# Unrealized checkpoints predict the epoch transition

The balances that fork choice computes from a state are those that the epoch transition computes,
and the checkpoints derived from them are the ones the state has once it was advanced with empty
slots to the end of its epoch and the transition was started.
-/

namespace Prysm.Precompute

open List Nat

variable {config : FinalityConfig}

/-! ### The balances in closed form -/

variable (epoch : Epoch) (b : UInt8) (v : PrecomputeValidator)

/-- The total effective balance of the validators that are active in an epoch. -/
def activeSum (validators : List Validator) : ℕ :=
  (validators.map fun v ↦ if isActiveValidator v epoch then v.effectiveBalance else 0).sum

/-- The bit of the timely target flag. -/
def hasTarget (b : UInt8) : Bool := (b >>> timelyTargetFlagIndex) &&& 1 == 1

/-- The total effective balance of the unslashed active validators with the timely target flag. -/
def targetSum (validators : List Validator) (participation : List UInt8) : ℕ :=
  (List.zipWith (fun v b ↦
    if isActiveValidator v epoch && !v.slashed && hasTarget b then v.effectiveBalance else 0)
    validators participation).sum

theorem targetSum_le_activeSum (validators : List Validator) (flags : List UInt8) :
    targetSum epoch validators flags ≤ activeSum epoch validators := by
  induction validators generalizing flags with
  | nil => exact zero_le _
  | cons v validators ih =>
    cases flags with
    | nil => exact zero_le _
    | cons b flags =>
      simp only [targetSum, activeSum, zipWith_cons_cons, map_cons, sum_cons] at *
      cases isActiveValidator v epoch <;> grind

theorem targetSum_eq_zero (vals : List Validator) (flags : List UInt8)
    (hnone : ∀ b ∈ flags, hasTarget b = false) : targetSum epoch vals flags = 0 := by
  induction vals generalizing flags with
  | nil => rfl
  | cons v vals ih =>
    cases flags with
    | nil => rfl
    | cons b flags =>
      simp only [targetSum, zipWith_cons_cons, sum_cons] at *
      grind

/-- An addition of the source under a condition, when it does not overflow with the rest. -/
theorem addIf_eq {condition : Bool} {total amount rest : ℕ}
    (hlt : total + (if condition then amount else 0) + rest < 2 ^ 64) :
    addIf condition total amount = .ok (total + if condition then amount else 0) := by
  cases condition with
  | true => exact if_pos (lt_of_le_of_lt (le_add_right _ _) hlt)
  | false => rfl

variable {epoch : Epoch}

/-- The previous epoch in the words of the fork choice computation. -/
theorem isActiveValidator_pred (hepoch : 1 ≤ epoch) (v : Validator) :
    decide (v.activationEpoch < epoch ∧ epoch ≤ v.exitEpoch) = isActiveValidator v (epoch - 1) := by
  apply decide_eq_decide.2
  lia

theorem activeSum_cons (v : Validator) (validators : List Validator) :
    activeSum epoch (v :: validators) =
      (if isActiveValidator v epoch then v.effectiveBalance else 0) + activeSum epoch validators :=
  rfl

theorem targetSum_cons (v : Validator) (vals : List Validator) (b : UInt8) (flags : List UInt8) :
    targetSum epoch (v :: vals) (b :: flags) =
      (if isActiveValidator v epoch && !v.slashed && hasTarget b then v.effectiveBalance else 0) +
        targetSum epoch vals flags := rfl

theorem unrealizedLoop_eq (hepoch : 1 ≤ epoch) (vals : List Validator) (cp pp : List UInt8)
    (bal : TargetBalances) (hcp : cp.length = vals.length) (hpp : pp.length = vals.length)
    (hactive : bal.activeCurrentEpoch + activeSum epoch vals < 2 ^ 64)
    (hprev : bal.prevEpochTargetAttested + targetSum (epoch - 1) vals pp < 2 ^ 64)
    (hcurr : bal.currentEpochTargetAttested + targetSum epoch vals cp < 2 ^ 64) :
    unrealizedLoop epoch vals cp pp bal = .ok ⟨bal.activeCurrentEpoch + activeSum epoch vals,
        bal.prevEpochTargetAttested + targetSum (epoch - 1) vals pp,
        bal.currentEpochTargetAttested + targetSum epoch vals cp⟩ := by
  induction vals generalizing cp pp bal with
  | nil => rfl
  | cons v vals ih =>
    obtain ⟨c, cp, rfl⟩ := exists_cons_of_length_eq_add_one hcp
    obtain ⟨p, pp, rfl⟩ := exists_cons_of_length_eq_add_one hpp
    rw [length_cons, length_cons, add_left_inj] at hcp hpp
    rw [activeSum_cons, ← add_assoc] at hactive ⊢
    rw [targetSum_cons, ← add_assoc] at hprev hcurr
    rw [targetSum_cons, targetSum_cons, ← add_assoc, ← add_assoc]
    have hcurrAdd := addIf_eq hcurr
    have hprevAdd := addIf_eq hprev
    have hrest := ih cp pp ⟨_, _, _⟩ hcp hpp hactive hprev hcurr
    have hcurrent : decide (v.activationEpoch ≤ epoch ∧ epoch < v.exitEpoch) =
        isActiveValidator v epoch := rfl
    rw [unrealizedLoop, hcurrent, isActiveValidator_pred hepoch, addIf_eq hactive]
    cases hslashed : v.slashed with
    | true =>
      rw [hslashed] at hrest
      simp only [Bool.not_true, Bool.and_false, Bool.false_and, Bool.false_eq_true, if_false,
        if_true, add_zero] at hrest ⊢
      exact hrest
    | false =>
      rw [hslashed, Bool.not_false, Bool.and_true] at hcurrAdd hprevAdd
      simp only [hslashed, Bool.not_false, Bool.and_true] at hrest
      simp only [Bool.false_eq_true, if_false, Bool.not_false, Bool.and_true]
      change (do
        let currentTarget ← addIf (isActiveValidator v epoch && hasTarget c) _ _
        let prevTarget ← addIf (isActiveValidator v (epoch - 1) && hasTarget p) _ _
        unrealizedLoop epoch vals cp pp ⟨_, prevTarget, currentTarget⟩) = _
      rw [hcurrAdd, hprevAdd]
      exact hrest

/-! ### The records of the epoch transition -/

/-- The part of a validator's record that the target balances depend on. -/
structure TargetRecord where
  slashed : Bool
  activeCurrent : Bool
  activePrev : Bool
  currentTarget : Bool
  prevTarget : Bool
  balance : ℕ

def targetRecord (v : PrecomputeValidator) : TargetRecord where
  slashed := v.isSlashed
  activeCurrent := v.isActiveCurrentEpoch
  activePrev := v.isActivePrevEpoch
  currentTarget := v.isCurrentEpochTargetAttester
  prevTarget := v.isPrevEpochTargetAttester
  balance := v.currentEpochEffectiveBalance

theorem hasValidatorFlag_eq {b pos : UInt8} (hposition : ¬ pos > 7) :
    hasValidatorFlag b pos = .ok ((b >>> pos) &&& 1 == 1) :=
  if_neg hposition

/-- A participation flag of the current epoch counts for an active validator. -/
def TargetRecord.markCurrent (b : UInt8) (r : TargetRecord) : TargetRecord :=
  { r with currentTarget := r.currentTarget || (hasTarget b && r.activeCurrent) }

/-- A participation flag of the previous epoch counts for a validator that was active in it. -/
def TargetRecord.markPrevious (b : UInt8) (r : TargetRecord) : TargetRecord :=
  { r with prevTarget := r.prevTarget || (hasTarget b && r.activePrev) }

theorem exists_markCurrent_eq :
    ∃ v', markCurrent b v = .ok v' ∧ targetRecord v' = (targetRecord v).markCurrent b := by
  refine ⟨_, rfl, ?_⟩
  change targetRecord (if (hasTarget b && _) = true then _ else _) = _
  unfold TargetRecord.markCurrent targetRecord
  grind

theorem exists_markPrevious_eq :
    ∃ v', markPrevious b v = .ok v' ∧ targetRecord v' = (targetRecord v).markPrevious b := by
  unfold markPrevious
  rw [hasValidatorFlag_eq (by decide), hasValidatorFlag_eq (by decide),
    hasValidatorFlag_eq (by decide)]
  have htgt : ((b >>> timelyTargetFlagIndex) &&& 1 == 1) = hasTarget b := rfl
  refine ⟨_, rfl, ?_⟩
  unfold TargetRecord.markPrevious targetRecord
  grind

/-- A loop over a participation list as long as the registry marks every record once. -/
theorem exists_markAll_eq {mark : UInt8 → PrecomputeValidator → Except Fault PrecomputeValidator}
    {effect : UInt8 → TargetRecord → TargetRecord}
    (hmark : ∀ b v, ∃ v', mark b v = .ok v' ∧ targetRecord v' = effect b (targetRecord v))
    (positions flags : List UInt8) (vals : List PrecomputeValidator)
    (hlen : flags.length = vals.length) :
    ∃ vals', markAll mark positions flags vals = .ok vals' ∧
      vals'.map targetRecord = List.zipWith effect flags (vals.map targetRecord) := by
  induction vals generalizing flags with
  | nil =>
    rw [length_nil, length_eq_zero_iff] at hlen
    exact ⟨[], by rw [hlen]; rfl, by rw [hlen]; rfl⟩
  | cons v vals ih =>
    obtain ⟨b, flags, rfl⟩ := exists_cons_of_length_eq_add_one hlen
    rw [length_cons, length_cons, add_left_inj] at hlen
    obtain ⟨v', hv, heffect⟩ := hmark b v
    obtain ⟨vals', hvals, heffects⟩ := ih flags hlen
    refine ⟨v' :: vals', ?_, ?_⟩
    · rw [markAll, hv]
      rw [hvals]
      rfl
    · rw [map_cons, map_cons, zipWith_cons_cons, heffect, heffects]

/-- The balance of the records with a property that are not slashed. -/
def recordSum (counts : TargetRecord → Bool) (records : List TargetRecord) : ℕ :=
  (records.map fun r ↦ if !r.slashed && counts r then r.balance else 0).sum

theorem recordSum_cons (counts : TargetRecord → Bool) (r : TargetRecord)
    (records : List TargetRecord) :
    recordSum counts (r :: records) =
      (if !r.slashed && counts r then r.balance else 0) + recordSum counts records := rfl

variable (version : Version) (current prev : Epoch) (vals : List PrecomputeValidator)
  (bal : Balance)

theorem foldl_addRecord_activeCurrentEpoch :
    (vals.foldl (addRecord version) bal).activeCurrentEpoch = bal.activeCurrentEpoch := by
  induction vals generalizing bal with
  | nil => rfl
  | cons v vals ih =>
    rw [foldl_cons, ih]
    unfold addRecord
    cases v.isSlashed <;> rfl

theorem addRecord_targets (v : PrecomputeValidator) {x y : ℕ}
    (hcurr : bal.currentEpochTargetAttested + (if !v.isSlashed && v.isCurrentEpochTargetAttester
      then v.currentEpochEffectiveBalance else 0) + x < 2 ^ 64)
    (hprev : bal.prevEpochTargetAttested + (if !v.isSlashed && v.isPrevEpochTargetAttester then
      v.currentEpochEffectiveBalance else 0) + y < 2 ^ 64) :
    (addRecord version bal v).currentEpochTargetAttested = bal.currentEpochTargetAttested +
        (if !v.isSlashed && v.isCurrentEpochTargetAttester then
          v.currentEpochEffectiveBalance else 0) ∧
      (addRecord version bal v).prevEpochTargetAttested = bal.prevEpochTargetAttested +
        if !v.isSlashed && v.isPrevEpochTargetAttester then
          v.currentEpochEffectiveBalance else 0 := by
  unfold addRecord
  grind

/-- The totals of `UpdateBalance` are sums over the records as long as they do not wrap around. -/
theorem foldl_addRecord_targets (hcurr : bal.currentEpochTargetAttested +
      recordSum TargetRecord.currentTarget (vals.map targetRecord) < 2 ^ 64)
    (hprev : bal.prevEpochTargetAttested +
      recordSum TargetRecord.prevTarget (vals.map targetRecord) < 2 ^ 64) :
    (vals.foldl (addRecord version) bal).currentEpochTargetAttested =
        bal.currentEpochTargetAttested +
          recordSum TargetRecord.currentTarget (vals.map targetRecord) ∧
      (vals.foldl (addRecord version) bal).prevEpochTargetAttested = bal.prevEpochTargetAttested +
          recordSum TargetRecord.prevTarget (vals.map targetRecord) := by
  induction vals generalizing bal with
  | nil => exact ⟨rfl, rfl⟩
  | cons v vals ih =>
    rw [map_cons, recordSum_cons, ← add_assoc] at hcurr hprev ⊢
    rw [recordSum_cons, ← add_assoc, foldl_cons]
    obtain ⟨hcurrent, hprevious⟩ := addRecord_targets version bal v hcurr hprev
    have hrest := ih (addRecord version bal v) (by rw [hcurrent]; exact hcurr)
      (by rw [hprevious]; exact hprev)
    rw [hcurrent, hprevious] at hrest
    exact hrest

/-- The records after both loops over the participation lists. -/
def markedRecords (cp pp : List UInt8) (vals : List PrecomputeValidator) : List TargetRecord :=
  List.zipWith TargetRecord.markPrevious pp
    (List.zipWith TargetRecord.markCurrent cp (vals.map targetRecord))

/-- The sums over the records of a registry. -/
theorem recordSum_marked (vals : List Validator) (scores : List ℕ) (cp pp : List UInt8)
    (hscores : scores.length = vals.length) (hcp : cp.length = vals.length)
    (hpp : pp.length = vals.length) :
    recordSum TargetRecord.currentTarget (markedRecords cp pp
        (List.zipWith (initialRecord current prev) vals scores)) =
      targetSum current vals cp ∧
    recordSum TargetRecord.prevTarget (markedRecords cp pp
        (List.zipWith (initialRecord current prev) vals scores)) =
      targetSum prev vals pp := by
  induction vals generalizing scores cp pp with
  | nil =>
    cases pp with
    | nil => exact ⟨rfl, rfl⟩
    | cons p pp => exact absurd hpp (by simp)
  | cons v vals ih =>
    obtain ⟨score, scores, rfl⟩ := exists_cons_of_length_eq_add_one hscores
    obtain ⟨c, cp, rfl⟩ := exists_cons_of_length_eq_add_one hcp
    obtain ⟨p, pp, rfl⟩ := exists_cons_of_length_eq_add_one hpp
    simp only [length_cons, add_left_inj] at hscores hcp hpp
    obtain ⟨hcurr, hprev⟩ := ih scores cp pp hscores hcp hpp
    simp only [markedRecords, zipWith_cons_cons, map_cons, recordSum_cons,
      targetSum_cons] at hcurr hprev ⊢
    rw [hcurr, hprev]
    simp [TargetRecord.markPrevious, TargetRecord.markCurrent, targetRecord, initialRecord,
      Bool.and_comm, Bool.and_left_comm]

theorem initializeLoop_eq (vals : List Validator) (scores : List ℕ) (bal : Balance)
    (hscores : scores.length = vals.length)
    (hcurr : bal.activeCurrentEpoch + activeSum current vals < 2 ^ 64)
    (hprev : bal.activePrevEpoch + activeSum prev vals < 2 ^ 64) :
    initializeLoop current prev (vals.zip scores) bal = .ok
      (List.zipWith (initialRecord current prev) vals scores,
        { bal with
          activeCurrentEpoch := bal.activeCurrentEpoch + activeSum current vals
          activePrevEpoch := bal.activePrevEpoch + activeSum prev vals }) := by
  induction vals generalizing scores bal with
  | nil => rfl
  | cons v vals ih =>
    obtain ⟨score, scores, rfl⟩ := exists_cons_of_length_eq_add_one hscores
    rw [length_cons, length_cons, add_left_inj] at hscores
    rw [activeSum_cons, ← add_assoc] at hcurr hprev ⊢
    rw [activeSum_cons, ← add_assoc]
    have hrest := ih scores { bal with
      activeCurrentEpoch := bal.activeCurrentEpoch +
        if isActiveValidator v current then v.effectiveBalance else 0
      activePrevEpoch := bal.activePrevEpoch +
        if isActiveValidator v prev then v.effectiveBalance else 0 } hscores hcurr hprev
    rw [zip_cons_cons, initializeLoop, addIf_eq hcurr, addIf_eq hprev]
    change (initializeLoop current prev (vals.zip scores) _ >>= _) = _
    rw [hrest]
    rfl

/-- The balances that both computations give. -/
def targetBalances (config : FinalityConfig) (epoch : Epoch) (validators : List Validator)
    (cp pp : List UInt8) : TargetBalances :=
  ensureLowerBound config
    ⟨activeSum epoch validators, targetSum (epoch - 1) validators pp, targetSum epoch validators cp⟩

/-- The balances of a state with the given participation lists. -/
def balancesOf (config : FinalityConfig) (st : BeaconState) (cp pp : List UInt8) : TargetBalances :=
  targetBalances config (currentEpoch config st) st.validators cp pp

variable {st : BeaconState} {cp pp : List UInt8} {root : Slot → Root}

/-- A state whose participation lists are as long as its registry and whose active balances fit into
64 bits. -/
structure Participating (config : FinalityConfig) (st : BeaconState) (cp pp : List UInt8) :
    Prop where
  version_ne : st.version ≠ .phase0
  current : st.currentEpochParticipation = some cp
  previous : st.previousEpochParticipation = some pp
  current_length : cp.length = st.validators.length
  previous_length : pp.length = st.validators.length
  active_lt : activeSum (currentEpoch config st) st.validators < 2 ^ 64
  active_prev_lt : activeSum (currentEpoch config st - 1) st.validators < 2 ^ 64

theorem Participating.current_lt (hst : Participating config st cp pp) :
    targetSum (currentEpoch config st) st.validators cp < 2 ^ 64 :=
  lt_of_le_of_lt (targetSum_le_activeSum _ st.validators cp) hst.active_lt

theorem Participating.previous_lt (hst : Participating config st cp pp) :
    targetSum (currentEpoch config st - 1) st.validators pp < 2 ^ 64 :=
  lt_of_le_of_lt (targetSum_le_activeSum _ st.validators pp) hst.active_prev_lt

variable (hst : Participating config st cp pp) (hepoch : 2 ≤ currentEpoch config st)
  {read : Epoch}

include hst hepoch in
theorem unrealizedCheckpointBalances_eq :
    unrealizedCheckpointBalances config st = .ok (balancesOf config st cp pp) := by
  have hcpLength := hst.current_length
  have hppLength := hst.previous_length
  have hloop := unrealizedLoop_eq (le_trans one_le_two hepoch) st.validators cp pp ⟨0, 0, 0⟩
    hcpLength hppLength (by rw [zero_add]; exact hst.active_lt)
    (by rw [zero_add]; exact hst.previous_lt) (by rw [zero_add]; exact hst.current_lt)
  simp only [zero_add] at hloop
  rw [unrealizedCheckpointBalances, if_neg hst.version_ne, hst.current, hst.previous]
  change unrealizedBalances config cp pp st.validators _ = _
  rw [unrealizedBalances, if_neg (by omega), hloop]
  rfl

include hst hepoch in
theorem unrealizedCheckpoints_eq [Bitvector4] : unrealizedCheckpoints config st =
    computeCheckpoints config st
      (newBitsOf st (balancesOf config st cp pp)) := by
  have hlate : ¬ toEpoch config st.slot ≤ config.genesisEpoch + 1 := by
    rw [config.genesisEpoch_eq]
    exact not_le.2 hepoch
  rw [unrealizedCheckpoints, if_neg hlate, unrealizedCheckpointBalances_eq hst hepoch]
  rfl

theorem prevEpoch_eq {st : FinalityState} (hepoch : 2 ≤ currentEpoch config st) :
    prevEpoch config st = currentEpoch config st - 1 :=
  if_neg (by lia)

/-- The balance record that `InitializePrecomputeValidators` starts from and fills in. -/
def initialBalance (active activePrev : ℕ) : Balance where
  activeCurrentEpoch := active
  prevEpochTargetAttested := 0
  currentEpochTargetAttested := 0
  activePrevEpoch := activePrev
  currentEpochAttested := 0
  prevEpochAttested := 0
  prevEpochHeadAttested := 0

include hst hepoch in
theorem initializePrecomputeValidators_eq
    (hscores : st.inactivityScores.length = st.validators.length) :
    initializePrecomputeValidators config st = .ok
      (List.zipWith (initialRecord (currentEpoch config st)
        (currentEpoch config st - 1)) st.validators st.inactivityScores,
      initialBalance (activeSum (currentEpoch config st) st.validators)
        (activeSum (currentEpoch config st - 1) st.validators)) := by
  have hloop := initializeLoop_eq (currentEpoch config st)
    (currentEpoch config st - 1) st.validators st.inactivityScores
    ⟨⟨0, 0, 0⟩, 0, 0, 0, 0⟩ hscores (by rw [zero_add]; exact hst.active_lt)
    (by rw [zero_add]; exact hst.active_prev_lt)
  simp only [zero_add] at hloop
  rw [initializePrecomputeValidators, if_neg hst.version_ne, if_neg (not_not.2 hscores.symm),
    prevEpoch_eq hepoch, hloop]
  rfl

/-- The target balances after `ProcessEpochParticipation` are sums over the marked records. -/
theorem exists_processEpochParticipation_eq (hst : Participating config st cp pp)
    (vals : List PrecomputeValidator) (bal : Balance) (hvals : vals.length = st.validators.length)
    (hcurrZero : bal.currentEpochTargetAttested = 0) (hprevZero : bal.prevEpochTargetAttested = 0)
    {current prev : ℕ}
    (hsums : recordSum TargetRecord.currentTarget (markedRecords cp pp vals) = current ∧
      recordSum TargetRecord.prevTarget (markedRecords cp pp vals) = prev)
    (hcurr : current < 2 ^ 64) (hprev : prev < 2 ^ 64) :
    ∃ result, processEpochParticipation config st bal vals = .ok result ∧
      result.2.toTargetBalances =
        ensureLowerBound config ⟨bal.activeCurrentEpoch, prev, current⟩ := by
  obtain ⟨vals₁, hmark₁, hrecords₁⟩ := exists_markAll_eq exists_markCurrent_eq
    [timelySourceFlagIndex, timelyTargetFlagIndex] cp vals (hst.current_length.trans hvals.symm)
  have hlength₁ : pp.length = vals₁.length := by
    have hcount := congrArg List.length hrecords₁
    have hcpLength := hst.current_length
    have hppLength := hst.previous_length
    grind
  obtain ⟨vals₂, hmark₂, hrecords₂⟩ := exists_markAll_eq exists_markPrevious_eq
    [timelySourceFlagIndex, timelyTargetFlagIndex, timelyHeadFlagIndex] pp vals₁ hlength₁
  rw [markedRecords, ← hrecords₁, ← hrecords₂] at hsums
  have htargets := foldl_addRecord_targets st.version vals₂ bal
    (by rwa [hcurrZero, zero_add, hsums.1]) (by rwa [hprevZero, zero_add, hsums.2])
  rw [hcurrZero, hprevZero, zero_add, zero_add, hsums.1, hsums.2] at htargets
  refine ⟨(vals₂, updateBalance config vals₂ bal st.version), ?_, ?_⟩
  · rw [processEpochParticipation, if_neg hst.version_ne, hst.current, hst.previous]
    change (markAll markCurrent _ cp vals >>= _) = _
    rw [hmark₁]
    change (markAll markPrevious _ pp vals₁ >>= _) = _
    rw [hmark₂]
    rfl
  · have hactive := foldl_addRecord_activeCurrentEpoch st.version vals₂ bal
    change TargetBalances.mk _ _ _ = TargetBalances.mk _ _ _
    rw [htargets.1, htargets.2, hactive]

/-- The epoch transition computes the same three balances as fork choice. -/
theorem exists_precomputeBalances_eq (hst : Participating config st cp pp)
    (hepoch : 2 ≤ currentEpoch config st)
    (hscores : st.inactivityScores.length = st.validators.length) :
    ∃ bal, precomputeBalances config st = .ok bal ∧
      bal.toTargetBalances = balancesOf config st cp pp := by
  have hinit := initializePrecomputeValidators_eq hst hepoch hscores
  have hlen : (List.zipWith (initialRecord (currentEpoch config st)
      (currentEpoch config st - 1)) st.validators st.inactivityScores).length =
      st.validators.length := by
    rw [length_zipWith, hscores, min_self]
  obtain ⟨result, hres, hbals⟩ := exists_processEpochParticipation_eq hst _
    (initialBalance (activeSum (currentEpoch config st) st.validators)
      (activeSum (currentEpoch config st - 1) st.validators)) hlen rfl rfl
    (recordSum_marked (currentEpoch config st)
      (currentEpoch config st - 1) st.validators st.inactivityScores cp pp hscores
      hst.current_length hst.previous_length) hst.current_lt hst.previous_lt
  refine ⟨result.2, ?_, hbals⟩
  rw [precomputeBalances, hinit]
  change (processEpochParticipation config st _ _ >>= _) = _
  rw [hres]
  rfl

/-! ### Empty slots -/

theorem iterate_emptySlot (config : FinalityConfig) (root : Slot → Root) (count : ℕ)
    (st : BeaconState) :
    ∃ blockRoots, (emptySlot config root)^[count] st =
        { st with slot := st.slot + count, blockRoots := blockRoots } ∧
      ∀ slot, slot < st.slot → st.slot + count ≤ slot + config.slotsPerHistoricalRoot →
        blockRoots (slot % config.slotsPerHistoricalRoot) =
          st.blockRoots (slot % config.slotsPerHistoricalRoot) := by
  induction count with
  | zero => exact ⟨st.blockRoots, rfl, fun _ _ _ ↦ rfl⟩
  | succ count ih =>
    obtain ⟨blockRoots, heq, hkept⟩ := ih
    rw [Function.iterate_succ_apply', heq]
    refine ⟨_, rfl, ?_⟩
    intro slot hslot hnear
    have hne : slot % config.slotsPerHistoricalRoot ≠
        (st.slot + count) % config.slotsPerHistoricalRoot := by
      intro heq
      have hzero := sub_mod_eq_zero_of_mod_eq heq.symm
      rw [mod_eq_of_lt (by lia)] at hzero
      lia
    grind

/-- The state at the end of its epoch: every slot up to the first slot of the previous epoch still
has its block root. -/
theorem advance_eq (config : FinalityConfig) (root : Slot → Root) (st : BeaconState) :
    ∃ blockRoots, advance config root st =
        { st with
          slot := lastSlot config (currentEpoch config st)
          blockRoots := blockRoots } ∧
      ∀ slot, slot < st.slot → lastSlot config (currentEpoch config st) ≤
          slot + config.slotsPerHistoricalRoot →
        blockRoots (slot % config.slotsPerHistoricalRoot) =
          st.blockRoots (slot % config.slotsPerHistoricalRoot) := by
  have hlast : st.slot + (config.slotsPerEpoch - 1 - st.slot % config.slotsPerEpoch) =
      lastSlot config (currentEpoch config st) := by
    have hmod := mod_lt st.slot config.slotsPerEpoch_pos
    have hdiv := div_add_mod st.slot config.slotsPerEpoch
    unfold lastSlot currentEpoch toEpoch
    lia
  obtain ⟨blockRoots, heq, hkept⟩ := iterate_emptySlot config root
    (config.slotsPerEpoch - 1 - st.slot % config.slotsPerEpoch) st
  rw [hlast] at heq hkept
  exact ⟨blockRoots, heq, hkept⟩

/-- Two states of one epoch that agree on a block root in the past of both read the same root. -/
theorem blockRoot_congr {st next : FinalityState} (hst : config.slotsPerEpoch * read < st.slot ∧
      st.slot ≤ config.slotsPerEpoch * read + config.slotsPerHistoricalRoot)
    (hnext : config.slotsPerEpoch * read < next.slot ∧
      next.slot ≤ config.slotsPerEpoch * read + config.slotsPerHistoricalRoot)
    (hroot : next.blockRoots (config.slotsPerEpoch * read % config.slotsPerHistoricalRoot) =
      st.blockRoots (config.slotsPerEpoch * read % config.slotsPerHistoricalRoot)) :
    blockRoot config next read = blockRoot config st read := by
  unfold blockRoot epochStart blockRootAtSlot
  by_cases hslot : config.slotsPerEpoch * read < 2 ^ 64
  · rw [if_pos hslot]
    change (if _ then _ else if _ then _ else _) = (if _ then _ else if _ then _ else _)
    grind
  · rw [if_neg hslot]
    rfl

/-- The checkpoints only depend on the epoch, the old checkpoints and the block roots that the bits
ask for. -/
theorem computeCheckpoints_atEpochEnd [Bitvector4] {st ended : FinalityState} (input : EpochInput)
    (hended : ended = atEpochEnd config epoch input st) (heq : currentEpoch config st = epoch)
    (hepoch : 2 ≤ epoch) (newBits : BitVec 4)
    (hcurr : newBits.getLsbD 0 = true → blockRoot config ended epoch = blockRoot config st epoch)
    (hprev : blockRoot config ended (epoch - 1) = blockRoot config st (epoch - 1)) :
    computeCheckpoints config ended newBits = computeCheckpoints config st newBits := by
  subst heq
  have hfin : computeFinalized config ended newBits = computeFinalized config st newBits := by
    simp only [hended, computeFinalized, currentEpoch_atEpochEnd,
      atEpochEnd_previousJustifiedCheckpoint,
      atEpochEnd_currentJustifiedCheckpoint, atEpochEnd_finalizedCheckpoint]
  have hjust : computeJustified config ended newBits = computeJustified config st newBits := by
    rw [hended] at hcurr hprev ⊢
    unfold computeJustified
    rw [currentEpoch_atEpochEnd, prevEpoch_atEpochEnd hepoch, prevEpoch_eq hepoch, hprev,
      atEpochEnd_currentJustifiedCheckpoint]
    grind [Bitvector4.bitAt_eq]
  rw [computeCheckpoints, computeCheckpoints, hjust, hfin]

theorem getLsbD_newBitsOf_of_lt [Bitvector4] {st : FinalityState} {bal : TargetBalances}
    (hlt : 3 * bal.currentEpochTargetAttested % 2 ^ 64 < 2 * bal.activeCurrentEpoch % 2 ^ 64) :
    (newBitsOf st bal).getLsbD 0 = false := by
  rw [newBitsOf_eq, (getLsbD_shiftIn _ _ _).1]
  exact decide_eq_false (not_le.2 hlt)

/-- In the first slot of an epoch, without a vote for it, the current epoch is not justified. -/
theorem three_target_lt_two_active (pp : List UInt8) (hnone : ∀ b ∈ cp, hasTarget b = false)
    (henough : 2 * config.effectiveBalanceIncrement ≤
      activeSum (currentEpoch config st) st.validators)
    (hactive : 2 * activeSum (currentEpoch config st) st.validators < 2 ^ 64) :
    3 * (balancesOf config st cp pp).currentEpochTargetAttested % 2 ^ 64 <
      2 * (balancesOf config st cp pp).activeCurrentEpoch % 2 ^ 64 := by
  have hpos := config.effectiveBalanceIncrement_pos
  have htgt : (balancesOf config st cp pp).currentEpochTargetAttested =
      config.effectiveBalanceIncrement := by
    simp only [balancesOf, targetBalances, ensureLowerBound, targetSum_eq_zero _ _ cp hnone]
    exact if_pos hpos
  have htotal : (balancesOf config st cp pp).activeCurrentEpoch =
      activeSum (currentEpoch config st) st.validators := by
    simp only [balancesOf, targetBalances, ensureLowerBound]
    exact if_neg (by omega)
  grind

theorem exists_blockRoot {st : FinalityState}
    (hsome : (getBlockRoot config st.slot st.blockRoots read).isSome) :
    ∃ found, blockRoot config st read = .ok found := by
  rw [← toOption_blockRoot] at hsome
  cases hfound : blockRoot config st read with
  | ok found => exact ⟨found, rfl⟩
  | error fault =>
    rw [hfound] at hsome
    cases hsome

theorem exists_blockRoot_atEpochEnd (st : FinalityState) (input : EpochInput)
    (hread : read = epoch ∨ read + 1 = epoch)
    (hsum : config.slotsPerEpoch * read + config.slotsPerHistoricalRoot < 2 ^ 64) :
    ∃ found, blockRoot config (atEpochEnd config epoch input st) read = .ok found := by
  apply exists_blockRoot
  change (getBlockRoot config (lastSlot config epoch) input.blockRoots read).isSome
  rw [getBlockRoot_lastSlot config input.blockRoots hread, if_pos hsum]
  rfl

variable {input : EpochInput}

theorem exists_computeCheckpoints_atEpochEnd [Bitvector4] {st : FinalityState} (hepoch : 2 ≤ epoch)
    (hsum : config.slotsPerEpoch * epoch + config.slotsPerHistoricalRoot < 2 ^ 64)
    (bits : BitVec 4) :
    ∃ result, computeCheckpoints config (atEpochEnd config epoch input st) bits = .ok result := by
  have hless := mul_le_mul_left config.slotsPerEpoch (sub_le epoch 1)
  have hsum' : config.slotsPerEpoch * (epoch - 1) + config.slotsPerHistoricalRoot < 2 ^ 64 := by lia
  obtain ⟨current, hcurr⟩ := exists_blockRoot_atEpochEnd st input (.inl (rfl : epoch = epoch)) hsum
  obtain ⟨prev, hprev⟩ := exists_blockRoot_atEpochEnd st input
    (.inr (by lia : epoch - 1 + 1 = epoch)) hsum'
  have hjust : ∃ justified,
      computeJustified config (atEpochEnd config epoch input st) bits = .ok justified := by
    unfold computeJustified
    rw [currentEpoch_atEpochEnd, prevEpoch_atEpochEnd hepoch, hcurr, hprev]
    dsimp only
    split_ifs <;> exact ⟨_, rfl⟩
  obtain ⟨justified, hjust⟩ := hjust
  rw [computeCheckpoints, hjust]
  exact ⟨_, rfl⟩

/-- The roots that the bits ask for can be read before and after the empty slots, and they are the
same. -/
theorem blockRoot_atEpochEnd_eq {st : FinalityState}
    (hread : read = currentEpoch config st ∧ st.slot % config.slotsPerEpoch ≠ 0 ∨
      read + 1 = currentEpoch config st)
    (hkept : ∀ slot, slot < st.slot → lastSlot config (currentEpoch config st) ≤
        slot + config.slotsPerHistoricalRoot →
      input.blockRoots (slot % config.slotsPerHistoricalRoot) =
        st.blockRoots (slot % config.slotsPerHistoricalRoot)) :
    blockRoot config (atEpochEnd config (currentEpoch config st) input st) read =
      blockRoot config st read := by
  have hmod := mod_lt st.slot config.slotsPerEpoch_pos
  have hslot : config.slotsPerEpoch * currentEpoch config st + st.slot % config.slotsPerEpoch =
      st.slot := div_add_mod st.slot config.slotsPerEpoch
  have htwo := config.two_epochs_le
  have hlast : lastSlot config (currentEpoch config st) =
      config.slotsPerEpoch * currentEpoch config st + (config.slotsPerEpoch - 1) := rfl
  have hbounds : config.slotsPerEpoch * read < st.slot ∧ st.slot ≤ lastSlot config
      (currentEpoch config st) ∧ lastSlot config (currentEpoch config st) ≤
        config.slotsPerEpoch * read + config.slotsPerHistoricalRoot := by
    rcases hread with ⟨rfl, hne⟩ | hread
    · refine ⟨?_, ?_, ?_⟩ <;> lia
    · rw [← hread, mul_succ] at hslot hlast
      refine ⟨?_, ?_, ?_⟩ <;> lia
  obtain ⟨hbefore, hle, hnear⟩ := hbounds
  exact blockRoot_congr ⟨hbefore, hle.trans hnear⟩ ⟨hbefore.trans_le hle, hnear⟩
    (hkept _ hbefore hnear)

/-- For a state from epoch 2 on whose lists have the length of the registry and whose active
balances fit into 64 bits, fork choice computes the balances of the epoch transition, and its
checkpoints are those that the state has after empty slots to the end of its epoch and the start of
the transition. The two fail together, and only when the slot is near the greatest one. -/
theorem unrealizedCheckpoints_predict [Bitvector4] (config : FinalityConfig) (root : Slot → Root)
    (st : BeaconState) (cp pp : List UInt8) (hversion : st.version ≠ .phase0)
    (hepoch : 2 ≤ currentEpoch config st)
    (hcp : st.currentEpochParticipation = some cp) (hpp : st.previousEpochParticipation = some pp)
    (hscores : st.inactivityScores.length = st.validators.length)
    (hcpLength : cp.length = st.validators.length) (hppLength : pp.length = st.validators.length)
    (henough : 2 * config.effectiveBalanceIncrement ≤
      activeSum (currentEpoch config st) st.validators)
    (hactive : activeSum (currentEpoch config st) st.validators < 2 ^ 64)
    (hactivePrev : activeSum (currentEpoch config st - 1) st.validators < 2 ^ 64)
    (hfirst : st.slot % config.slotsPerEpoch = 0 → (∀ b ∈ cp, hasTarget b = false) ∧
      2 * activeSum (currentEpoch config st) st.validators < 2 ^ 64) :
    unrealizedCheckpoints config st =
      (processEpochStart config (advance config root st)).map (fun next ↦
        (next.currentJustifiedCheckpoint, next.finalizedCheckpoint)) ∧
    (∃ bal, precomputeBalances config (advance config root st) = .ok bal ∧
      unrealizedCheckpointBalances config st = .ok bal.toTargetBalances) ∧
    (config.slotsPerEpoch * currentEpoch config st +
        config.slotsPerHistoricalRoot < 2 ^ 64 →
      ∃ result, unrealizedCheckpoints config st = .ok result) := by
  obtain ⟨roots, hadvance, hkept⟩ := advance_eq config root st
  have hst : Participating config st cp pp :=
    ⟨hversion, hcp, hpp, hcpLength, hppLength, hactive, hactivePrev⟩
  have hsame : currentEpoch config (advance config root st) =
      currentEpoch config st := by
    rw [hadvance]
    exact toEpoch_lastSlot
  have hvals : (advance config root st).validators = st.validators := by rw [hadvance]
  have hadvanced : Participating config (advance config root st) cp pp := by
    constructor <;> first | rwa [hsame, hvals] | rwa [hadvance]
  obtain ⟨bal, hbal, htargets⟩ := exists_precomputeBalances_eq hadvanced (by rwa [hsame])
    (by rwa [hadvance])
  have hbals : balancesOf config (advance config root st) cp pp = balancesOf config st cp pp := by
    rw [balancesOf, hsame, hvals]
    rfl
  rw [hbals] at htargets
  have hstate : (advance config root st) =
      atEpochEnd config (currentEpoch config st)
        ⟨bal.toTargetBalances, roots⟩ st := by
    rw [hadvance]
    rfl
  have hcheckpoints := computeCheckpoints_atEpochEnd ⟨bal.toTargetBalances, roots⟩ rfl rfl hepoch
    (newBitsOf st bal.toTargetBalances)
    (fun hbit ↦ blockRoot_atEpochEnd_eq (.inl ⟨rfl, fun hzero ↦ by
      obtain ⟨hnone, hsmall⟩ := hfirst hzero
      have hlt := three_target_lt_two_active pp hnone henough hsmall
      rw [← htargets] at hlt
      rw [getLsbD_newBitsOf_of_lt hlt] at hbit
      cases hbit⟩) hkept)
    (blockRoot_atEpochEnd_eq (.inr (by lia)) hkept)
  have hunreal := unrealizedCheckpoints_eq hst hepoch
  rw [← htargets] at hunreal
  refine ⟨?_, ⟨bal, hbal, by
    rw [htargets, unrealizedCheckpointBalances_eq hst hepoch]⟩, ?_⟩
  · rw [hunreal, ← hcheckpoints, processEpochStart, hbal]
    rw [hstate]
    change _ = (processAtEnd config _ ⟨bal.toTargetBalances, roots⟩ _).map _
    rw [processAtEnd_eq _ _ hepoch, weighJustificationAndFinalization]
    cases computeCheckpoints config (atEpochEnd config (currentEpoch config st)
      ⟨bal.toTargetBalances, roots⟩ st) _ <;> rfl
  · intro hsum
    rw [hunreal, ← hcheckpoints]
    exact exists_computeCheckpoints_atEpochEnd hepoch hsum _

/-- A state in epoch 2 with two validators of the given effective balance that attest to both
targets. -/
def twoValidators (balance : ℕ) : BeaconState where
  slot := 65
  blockRoots := fun _ ↦ zeroHash
  justificationBits := 0#4
  previousJustifiedCheckpoint := ⟨0, zeroHash⟩
  currentJustifiedCheckpoint := ⟨0, zeroHash⟩
  finalizedCheckpoint := ⟨0, zeroHash⟩
  version := .altair
  validators := List.replicate 2 ⟨0, 2 ^ 64 - 1, 2 ^ 64 - 1, balance, false⟩
  inactivityScores := [0, 0]
  currentEpochParticipation := some [7, 7]
  previousEpochParticipation := some [7, 7]

theorem unrealizedCheckpoints_predict_twoValidators :
    (processEpochStart mainnetFinality
        (advance mainnetFinality (fun _ ↦ zeroHash) (twoValidators (32 * 10 ^ 9)))).map
      (fun next ↦ (next.currentJustifiedCheckpoint, next.finalizedCheckpoint)) =
        .ok (⟨2, zeroHash⟩, ⟨0, zeroHash⟩) := by
  rw [← (unrealizedCheckpoints_predict mainnetFinality (fun _ ↦ zeroHash)
    (twoValidators (32 * 10 ^ 9)) [7, 7] [7, 7] (by decide) (by decide) rfl rfl rfl rfl rfl
    (by decide) (by decide) (by decide) (by decide)).1]
  rfl

/-- With effective balances that add up to `2 ^ 64` fork choice gets an error, and so does the epoch
transition. -/
theorem unrealizedCheckpoints_overflow :
    (twoValidators (2 ^ 63)).version ≠ .phase0 ∧
    2 ≤ currentEpoch mainnetFinality (twoValidators (2 ^ 63)) ∧
    2 * mainnetFinality.effectiveBalanceIncrement ≤
      activeSum 2 (twoValidators (2 ^ 63)).validators ∧
    (twoValidators (2 ^ 63)).slot % mainnetFinality.slotsPerEpoch ≠ 0 ∧
    unrealizedCheckpoints mainnetFinality (twoValidators (2 ^ 63)) =
      .error (.error (.errorf "addition overflows" [])) :=
  ⟨by decide, by decide, by decide, by decide, rfl⟩

end Prysm.Precompute
