import Prysm.Precompute.Justification

/-!
# Finality over whole runs

The source and the specification agree on justification and finalization over every run of epoch
transitions.  A justification bit that the shift carried over makes the source write a checkpoint
that the specification leaves alone.  What ties the two together is that such a bit stands for the
checkpoint that is already there.
-/

namespace Prysm.Precompute

open Nat Checkpoint Bitvector4

/-! ### One epoch transition -/

variable {config : FinalityConfig} {root : Epoch → Root} {epoch : Epoch} {input : EpochInput}
  {st : FinalityState}

theorem toEpoch_lastSlot : toEpoch config (lastSlot config epoch) = epoch := by
  have hone := config.one_lt_slotsPerEpoch
  have hrest : (config.slotsPerEpoch - 1) / config.slotsPerEpoch = 0 := div_eq_of_lt (by omega)
  rw [toEpoch, lastSlot, mul_add_div config.slotsPerEpoch_pos, hrest, add_zero]

/-- The block root lookup of the source succeeds when the specification's does, and gives the same
root. -/
theorem toOption_blockRoot (config : FinalityConfig) (st : FinalityState) (epoch : Epoch) :
    (blockRoot config st epoch).toOption = getBlockRoot config st.slot st.blockRoots epoch := by
  unfold blockRoot getBlockRoot epochStart
  generalize config.slotsPerEpoch * epoch = slot
  by_cases hsum : slot + config.slotsPerHistoricalRoot < 2 ^ 64
  · rw [if_pos (by omega)]
    change (blockRootAtSlot config st slot).toOption = _
    unfold blockRootAtSlot
    rw [if_neg (by omega)]
    by_cases hrange : slot < st.slot ∧ st.slot ≤ slot + config.slotsPerHistoricalRoot
    · rw [if_neg (by lia), if_pos ⟨hsum, hrange⟩]
      rfl
    · rw [if_pos (by lia), if_neg fun h ↦ hrange h.2]
      rfl
  · have hnone : ¬ (slot + config.slotsPerHistoricalRoot < 2 ^ 64 ∧ slot < st.slot ∧
        st.slot ≤ slot + config.slotsPerHistoricalRoot) := fun h ↦ hsum h.1
    rw [if_neg hnone]
    by_cases hslot : slot < 2 ^ 64
    · rw [if_pos hslot]
      change (blockRootAtSlot config st slot).toOption = _
      rw [blockRootAtSlot, if_pos (by omega)]
      rfl
    · rw [if_neg hslot]
      rfl

theorem toOption_wrapf {α : Type*} (result : Except Fault α) (format : String)
    (args : List ErrorArg) : (wrapf result format args).toOption = result.toOption := by
  cases result with
  | ok value => rfl
  | error fault => cases fault <;> rfl

/-- At the end of an epoch the roots of its own start and of the start of the epoch before are in
range. -/
theorem getBlockRoot_lastSlot (config : FinalityConfig) (roots : ℕ → Root) {read : Epoch}
    (hread : read = epoch ∨ read + 1 = epoch) :
    getBlockRoot config (lastSlot config epoch) roots read =
      if config.slotsPerEpoch * read + config.slotsPerHistoricalRoot < 2 ^ 64 then
        some (roots (config.slotsPerEpoch * read % config.slotsPerHistoricalRoot))
      else none := by
  have hone := config.one_lt_slotsPerEpoch
  have htwo := config.two_epochs_le
  have hrange : config.slotsPerEpoch * read < lastSlot config epoch ∧
      lastSlot config epoch ≤ config.slotsPerEpoch * read + config.slotsPerHistoricalRoot := by
    unfold lastSlot
    rcases hread with rfl | rfl
    · constructor <;> lia
    · constructor <;> lia
  simp only [getBlockRoot, hrange, and_true]

variable (bits : BitVec 4) {next : FinalityState} {inputs : List EpochInput} (prev curr : Bool)

/-- The justification bits after an epoch, shifted and with the bits of the epochs that the balances
justify. -/
def shiftIn (prev curr : Bool) : BitVec 4 :=
  let bits := bits <<< 1
  let bits := if prev then bits ||| 1#4 <<< 1 else bits
  if curr then bits ||| 1#4 <<< 0 else bits

theorem getLsbD_shiftIn : (shiftIn bits prev curr).getLsbD 0 = curr ∧
    (shiftIn bits prev curr).getLsbD 1 = (prev || bits.getLsbD 0) := by
  revert bits prev curr
  decide

theorem bitList_shiftIn : bitList (shiftIn bits prev curr) =
    let bits := false :: (bitList bits).take 3
    let bits := if prev then bits.set 1 true else bits
    if curr then bits.set 0 true else bits := by
  revert bits prev curr
  decide

/-- The condition under which the source sees two thirds of the total balance. -/
theorem twoThirds_iff {part total : ℕ} (hpart : part < 2 ^ 62) (htotal : total < 2 ^ 62) :
    3 * part % 2 ^ 64 ≥ 2 * total % 2 ^ 64 ↔ part * 3 ≥ total * 2 := by
  rw [mod_eq_of_lt (by omega), mod_eq_of_lt (by omega), mul_comm 3, mul_comm 2]

/-- What holds of the state before the transition of an epoch.  A set bit for the epoch before says
that this epoch is the current justified one, and that its block root could be read. -/
structure Linked (config : FinalityConfig) (root : Epoch → Root) (epoch : Epoch)
    (st : FinalityState) : Prop where
  finalized_le : st.finalizedCheckpoint.epoch ≤ st.previousJustifiedCheckpoint.epoch
  previous_le : st.previousJustifiedCheckpoint.epoch ≤ st.currentJustifiedCheckpoint.epoch
  current_le : st.currentJustifiedCheckpoint.epoch ≤ epoch - 1
  carried : st.justificationBits.getLsbD 0 = true → 2 < epoch ∧
    config.slotsPerEpoch * (epoch - 1) + config.slotsPerHistoricalRoot < 2 ^ 64 ∧
    st.currentJustifiedCheckpoint = ⟨epoch - 1, root (epoch - 1)⟩

@[simp]
theorem atEpochEnd_previousJustifiedCheckpoint :
    (atEpochEnd config epoch input st).previousJustifiedCheckpoint =
      st.previousJustifiedCheckpoint := rfl

@[simp]
theorem atEpochEnd_currentJustifiedCheckpoint :
    (atEpochEnd config epoch input st).currentJustifiedCheckpoint =
      st.currentJustifiedCheckpoint := rfl

@[simp]
theorem atEpochEnd_finalizedCheckpoint :
    (atEpochEnd config epoch input st).finalizedCheckpoint = st.finalizedCheckpoint := rfl

@[simp]
theorem currentEpoch_atEpochEnd : currentEpoch config (atEpochEnd config epoch input st) = epoch :=
  toEpoch_lastSlot

theorem prevEpoch_atEpochEnd (hepoch : 2 ≤ epoch) :
    prevEpoch config (atEpochEnd config epoch input st) = epoch - 1 := by
  rw [prevEpoch, currentEpoch_atEpochEnd, if_neg (by lia)]

theorem all_take_three_iff :
    (((bitList bits).take 3).all id = true ↔ bits &&& 0x07#4 = 0x07#4) ∧
      ((((bitList bits).drop 1).take 3).all id = true ↔ bits &&& 0x0E#4 = 0x0E#4) := by
  revert bits
  decide

theorem all_take_two_iff :
    (((bitList bits).take 2).all id = true ↔ bits &&& 0x03#4 = 0x03#4) ∧
      ((((bitList bits).drop 1).take 2).all id = true ↔ bits &&& 0x06#4 = 0x06#4) := by
  revert bits
  decide

theorem epoch_lt_of_lastSlot_lt (hslot : lastSlot config epoch < 2 ^ 64) : epoch < 2 ^ 63 := by
  have hone := config.one_lt_slotsPerEpoch
  have hmul : 2 * epoch ≤ config.slotsPerEpoch * epoch := mul_le_mul_right _ hone
  unfold lastSlot at hslot
  lia

theorem computeFinalized_mem (config : FinalityConfig) (st : FinalityState) (bits : BitVec 4) :
    computeFinalized config st bits = st.finalizedCheckpoint ∨
      computeFinalized config st bits = st.previousJustifiedCheckpoint ∨
      computeFinalized config st bits = st.currentJustifiedCheckpoint := by
  unfold computeFinalized
  dsimp only
  split_ifs <;> simp

theorem epochStart_two (config : FinalityConfig) :
    epochStart config 2 = .ok (config.slotsPerEpoch * 2) := by
  have htwo := config.two_epochs_le
  have hroots := config.slotsPerHistoricalRoot_lt
  exact if_pos (by omega)

theorem linked_of_genesis (hbits : st.justificationBits = 0#4)
    (hprev : st.previousJustifiedCheckpoint.epoch = 0)
    (hcurr : st.currentJustifiedCheckpoint.epoch = 0)
    (hfin : st.finalizedCheckpoint.epoch = 0) : Linked config root epoch st where
  finalized_le := by rw [hfin]; exact zero_le _
  previous_le := by rw [hprev]; exact zero_le _
  current_le := by rw [hcurr]; exact zero_le _
  carried hbit := by
    rw [hbits] at hbit
    exact absurd hbit (by decide)

/-- A run over a first input ends where the run over the others from the next epoch ends. -/
theorem add_length_cons (epoch : Epoch) (input : EpochInput) (inputs : List EpochInput) :
    epoch + (input :: inputs).length = epoch + 1 + inputs.length := by
  rw [List.length_cons]
  lia

theorem validInputs_append {more : List EpochInput}
    (hinputs : ValidInputs config root epoch (inputs ++ more)) :
    ValidInputs config root epoch inputs ∧
      ValidInputs config root (epoch + inputs.length) more := by
  induction inputs generalizing epoch with
  | nil => exact ⟨trivial, hinputs⟩
  | cons input inputs ih =>
    obtain ⟨hfirst, hrest⟩ := ih hinputs.2
    exact ⟨⟨hinputs.1, hfirst⟩, add_length_cons epoch input inputs ▸ hrest⟩

/-- The finalized checkpoint of the source is the specification's. -/
theorem computeFinalized_eq (hlinked : Linked config root epoch st)
    (hslot : lastSlot config epoch < 2 ^ 64) (bits : BitVec 4) :
    computeFinalized config (atEpochEnd config epoch input st) bits =
      specFinalize (bitList bits) epoch (view st) := by
  have hepoch := epoch_lt_of_lastSlot_lt hslot
  have hcurr : st.currentJustifiedCheckpoint.epoch ≤ epoch := by
    have := hlinked.current_le
    lia
  have hprev : st.previousJustifiedCheckpoint.epoch ≤ epoch := hlinked.previous_le.trans hcurr
  have hmod (just : Epoch) (gap : ℕ) (hle : just ≤ epoch) (hgap : gap ≤ 3) :
      (just + gap) % 2 ^ 64 = just + gap := mod_eq_of_lt (by lia)
  unfold computeFinalized specFinalize
  simp only [currentEpoch_atEpochEnd, atEpochEnd_previousJustifiedCheckpoint,
    atEpochEnd_currentJustifiedCheckpoint, atEpochEnd_finalizedCheckpoint, view,
    hmod _ 3 hprev (by decide), hmod _ 2 hprev (by decide), hmod _ 2 hcurr (by decide),
    hmod _ 1 hcurr (by decide), all_take_three_iff bits, all_take_two_iff bits]

section

variable [Bitvector4]

/-- The new justification bits for the balances of an epoch. -/
def newBitsOf (st : FinalityState) (bal : TargetBalances) : BitVec 4 :=
  processJustificationBits st bal.activeCurrentEpoch bal.prevEpochTargetAttested
    bal.currentEpochTargetAttested

theorem newBitsOf_eq (st : FinalityState) (bal : TargetBalances) :
    newBitsOf st bal = shiftIn st.justificationBits
      (decide (3 * bal.prevEpochTargetAttested % 2 ^ 64 ≥ 2 * bal.activeCurrentEpoch % 2 ^ 64))
      (decide (3 * bal.currentEpochTargetAttested % 2 ^ 64 ≥
        2 * bal.activeCurrentEpoch % 2 ^ 64)) := by
  simp only [newBitsOf, processJustificationBits, shiftIn, shift_one, setBitAt_true,
    Nat.reduceLT, decide_eq_true_eq]

theorem newBitsOf_of_small (st : FinalityState) {bal : TargetBalances} (hsmall : bal.Small) :
    newBitsOf st bal = shiftIn st.justificationBits
      (decide (bal.prevEpochTargetAttested * 3 ≥ bal.activeCurrentEpoch * 2))
      (decide (bal.currentEpochTargetAttested * 3 ≥ bal.activeCurrentEpoch * 2)) := by
  simp only [newBitsOf_eq, twoThirds_iff hsmall.2.1 hsmall.1, twoThirds_iff hsmall.2.2 hsmall.1]

/-- The transition of the source at the end of an epoch. -/
abbrev processAtEnd (config : FinalityConfig) (epoch : Epoch) (input : EpochInput)
    (st : FinalityState) : Except Fault FinalityState :=
  processJustificationAndFinalizationPreCompute config (atEpochEnd config epoch input st)
    input.balances

/-- From epoch 2 on the source weighs at the last slot of every epoch. -/
theorem processAtEnd_eq (input : EpochInput) (st : FinalityState) (hepoch : 2 ≤ epoch) :
    processAtEnd config epoch input st = weighJustificationAndFinalization config
      (atEpochEnd config epoch input st) (newBitsOf st input.balances) := by
  have hone := config.one_lt_slotsPerEpoch
  have hmul : config.slotsPerEpoch * 2 ≤ config.slotsPerEpoch * epoch := mul_le_mul_left _ hepoch
  have hlate : ¬ (atEpochEnd config epoch input st).slot ≤ config.slotsPerEpoch * 2 := by
    change ¬ config.slotsPerEpoch * epoch + (config.slotsPerEpoch - 1) ≤ _
    lia
  unfold processAtEnd processJustificationAndFinalizationPreCompute
  rw [epochStart_two]
  exact if_neg hlate

/-- The source does nothing in the first two epochs. -/
theorem processAtEnd_early (hepoch : epoch ≤ 1) :
    processAtEnd config epoch input st = .ok (atEpochEnd config epoch input st) := by
  have hmul : config.slotsPerEpoch * epoch ≤ config.slotsPerEpoch * 1 := mul_le_mul_left _ hepoch
  have hearly : (atEpochEnd config epoch input st).slot ≤ config.slotsPerEpoch * 2 := by
    change config.slotsPerEpoch * epoch + (config.slotsPerEpoch - 1) ≤ _
    lia
  unfold processAtEnd processJustificationAndFinalizationPreCompute
  rw [epochStart_two]
  exact if_pos hearly

/-- What the transition of an epoch leaves behind. -/
theorem process_eq_ok_iff (hepoch : 2 ≤ epoch) :
    processAtEnd config epoch input st = .ok next ↔
      ∃ bits just, bits = newBitsOf st input.balances ∧
        computeJustified config (atEpochEnd config epoch input st) bits = .ok just ∧
        next = { atEpochEnd config epoch input st with
          previousJustifiedCheckpoint := st.currentJustifiedCheckpoint
          currentJustifiedCheckpoint := just
          justificationBits := bits
          finalizedCheckpoint :=
            computeFinalized config (atEpochEnd config epoch input st) bits } := by
  rw [processAtEnd_eq input st hepoch, weighJustificationAndFinalization, computeCheckpoints]
  simp only [bind_eq_ok_iff, Except.ok.injEq, Prod.exists, Prod.mk.injEq]
  constructor
  · rintro ⟨_, _, ⟨just, hjust, rfl, rfl⟩, rfl⟩
    exact ⟨_, just, rfl, hjust, rfl⟩
  · rintro ⟨_, just, rfl, hjust, rfl⟩
    exact ⟨just, _, ⟨just, hjust, rfl, rfl⟩, rfl⟩

theorem runEpochs_cons (inputs : List EpochInput) :
    runEpochs config epoch (input :: inputs) st =
      processAtEnd config epoch input st >>= runEpochs config (epoch + 1) inputs := rfl

theorem runEpochs_append (epoch : Epoch) (inputs more : List EpochInput) (st : FinalityState) :
    runEpochs config epoch (inputs ++ more) st = (do
      let middle ← runEpochs config epoch inputs st
      runEpochs config (epoch + inputs.length) more middle) := by
  induction inputs generalizing epoch st with
  | nil => rfl
  | cons input inputs ih =>
    rw [List.cons_append, runEpochs_cons, runEpochs_cons, add_length_cons]
    cases processAtEnd config epoch input st with
    | error fault => rfl
    | ok next => exact ih (epoch + 1) next

variable (hlinked : Linked config root epoch st)
include hlinked

/-- The justified checkpoint of the source at the end of an epoch.  The comparisons with the old
justified epoch always succeed. -/
theorem toOption_computeJustified (hepoch : 2 ≤ epoch) (input : EpochInput) (bits : BitVec 4) :
    (computeJustified config (atEpochEnd config epoch input st) bits).toOption =
      if bits.getLsbD 0 = true then
        (getBlockRoot config (lastSlot config epoch) input.blockRoots epoch).map (mk epoch)
      else if bits.getLsbD 1 = true then
        (getBlockRoot config (lastSlot config epoch) input.blockRoots (epoch - 1)).map
          (mk (epoch - 1))
      else some st.currentJustifiedCheckpoint := by
  have hle : st.currentJustifiedCheckpoint.epoch ≤ epoch - 1 := hlinked.current_le
  set readRoot := getBlockRoot config (lastSlot config epoch) input.blockRoots
  have hread (read : Epoch) (format : String) (args : List ErrorArg) :
      (do
        let root ← wrapf (blockRoot config (atEpochEnd config epoch input st) read) format args
        .ok (mk read root) : Except Fault Checkpoint).toOption = (readRoot read).map (mk read) := by
    have hroot := toOption_blockRoot config (atEpochEnd config epoch input st) read
    rw [← toOption_wrapf _ format args] at hroot
    change _ = readRoot read at hroot
    rw [← hroot]
    cases wrapf (blockRoot config (atEpochEnd config epoch input st) read) format args <;> rfl
  unfold computeJustified
  rw [currentEpoch_atEpochEnd, prevEpoch_atEpochEnd hepoch]
  change (if _ ∧ epoch ≥ st.currentJustifiedCheckpoint.epoch then _ else if
    _ ∧ epoch - 1 ≥ st.currentJustifiedCheckpoint.epoch then _ else _ :
    Except Fault Checkpoint).toOption = _
  have hge : epoch ≥ st.currentJustifiedCheckpoint.epoch := by lia
  simp only [bitAt_eq, hge, hle, and_true]
  split_ifs
  · exact hread epoch _ _
  · exact hread (epoch - 1) _ _
  · rfl

/-- The justified checkpoint of the source is the specification's, and so are the bits. -/
theorem specJustify_eq (hepoch : 2 ≤ epoch) (hinput : ValidInput config root epoch input)
    (bits : BitVec 4) (hbits : bits = newBitsOf st input.balances) :
    specJustify (getBlockRoot config (lastSlot config epoch) input.blockRoots) (epoch - 1) epoch
        input.balances (view st) =
      (computeJustified config (atEpochEnd config epoch input st) bits).toOption.map
        fun just ↦ (bitList bits, just) := by
  have hprevious : epoch - 1 = epoch ∨ epoch - 1 + 1 = epoch := by lia
  have hprev := getBlockRoot_lastSlot config input.blockRoots hprevious
  have hcurr := getBlockRoot_lastSlot config input.blockRoots (.inl (rfl : epoch = epoch))
  rw [hinput.root_eq _ hprevious] at hprev
  rw [newBitsOf_of_small st hinput.small] at hbits
  rw [toOption_computeJustified hlinked hepoch, hbits, (getLsbD_shiftIn _ _ _).1,
    (getLsbD_shiftIn _ _ _).2, bitList_shiftIn]
  unfold specJustify
  by_cases hC : input.balances.currentEpochTargetAttested * 3 ≥
      input.balances.activeCurrentEpoch * 2
  · -- the source reads one root, the specification possibly two; the older one is there if the
    -- newer is
    simp only [hC, decide_true, if_true, hprev, hcurr, view]
    by_cases hsum : config.slotsPerEpoch * epoch + config.slotsPerHistoricalRoot < 2 ^ 64
    · have hless := mul_le_mul_left config.slotsPerEpoch (sub_le epoch 1)
      grind
    · split_ifs <;> rfl
  · simp only [hC, decide_false, if_false, hprev, view]
    by_cases hP : input.balances.prevEpochTargetAttested * 3 ≥ input.balances.activeCurrentEpoch * 2
    · grind
    · by_cases hold : st.justificationBits.getLsbD 0 = true
      · -- the source writes the checkpoint that is there already
        obtain ⟨-, hsum, hcurrent⟩ := hlinked.carried hold
        grind
      · simp only [hP, hold]
        rfl

/-- One transition of the source gives what the specification gives. -/
theorem process_eq_spec (hinput : ValidInput config root epoch input) :
    (processAtEnd config epoch input st).toOption.map view =
      specProcess (getBlockRoot config (lastSlot config epoch) input.blockRoots) epoch
        input.balances (view st) := by
  unfold specProcess
  by_cases hepoch : epoch ≤ 1
  · rw [processAtEnd_early hepoch, if_pos hepoch]
    rfl
  · rw [processAtEnd_eq input st (by lia), if_neg hepoch, specWeigh,
      specJustify_eq hlinked (by lia) hinput _ rfl]
    unfold weighJustificationAndFinalization computeCheckpoints
    cases hjust : computeJustified config (atEpochEnd config epoch input st)
      (newBitsOf st input.balances) with
    | error fault => rfl
    | ok just =>
      rw [computeFinalized_eq hlinked hinput.slot_lt]
      rfl

/-- The justified checkpoint after a transition: the current epoch when its bit is set, and
otherwise the previous epoch or the checkpoint that was there. -/
theorem computeJustified_cases (hepoch : 2 ≤ epoch) (hinput : ValidInput config root epoch input)
    {bits : BitVec 4} {just : Checkpoint}
    (hjust : computeJustified config (atEpochEnd config epoch input st) bits = .ok just) :
    (bits.getLsbD 0 = true ∧
      config.slotsPerEpoch * epoch + config.slotsPerHistoricalRoot < 2 ^ 64 ∧
      just = ⟨epoch, root epoch⟩) ∨
    bits.getLsbD 0 = false ∧ (just.epoch = epoch - 1 ∨ just = st.currentJustifiedCheckpoint) := by
  have hsome := toOption_computeJustified hlinked hepoch input bits
  rw [hjust] at hsome
  by_cases hzero : bits.getLsbD 0 = true
  · rw [if_pos hzero, getBlockRoot_lastSlot config input.blockRoots (.inl rfl)] at hsome
    by_cases hsum : config.slotsPerEpoch * epoch + config.slotsPerHistoricalRoot < 2 ^ 64
    · rw [if_pos hsum, hinput.root_eq epoch (.inl rfl)] at hsome
      exact .inl ⟨hzero, hsum, Option.some.inj hsome⟩
    · rw [if_neg hsum] at hsome
      cases hsome
  · rw [if_neg hzero] at hsome
    refine .inr ⟨by simpa using hzero, ?_⟩
    by_cases hone : bits.getLsbD 1 = true
    · rw [if_pos hone] at hsome
      obtain ⟨read, -, hread⟩ := Option.map_eq_some_iff.1 hsome.symm
      exact .inl (congrArg Checkpoint.epoch hread).symm
    · rw [if_neg hone] at hsome
      exact .inr (Option.some.inj hsome)

/-- A transition keeps the link between bits and checkpoints, and finality does not go back. -/
theorem Linked.step (hinput : ValidInput config root epoch input)
    (hnext : processAtEnd config epoch input st = .ok next) :
    Linked config root (epoch + 1) next ∧
      st.finalizedCheckpoint.epoch ≤ next.finalizedCheckpoint.epoch := by
  have hprev := hlinked.previous_le
  have hfin := hlinked.finalized_le
  have hcurr := hlinked.current_le
  by_cases hepoch : epoch ≤ 1
  · rw [processAtEnd_early hepoch] at hnext
    obtain rfl := Except.ok.inj hnext
    refine ⟨⟨hfin, hprev, ?_, ?_⟩, le_rfl⟩
    · change st.currentJustifiedCheckpoint.epoch ≤ epoch + 1 - 1
      lia
    · intro hbit
      have := (hlinked.carried hbit).1
      lia
  · have htwo : 2 ≤ epoch := by lia
    obtain ⟨bits, just, -, hjust, rfl⟩ := (process_eq_ok_iff htwo).1 hnext
    have hcases := computeJustified_cases hlinked htwo hinput hjust
    have hmem := computeFinalized_mem config (atEpochEnd config epoch input st) bits
    generalize computeFinalized config (atEpochEnd config epoch input st) bits = finalized at hmem
    simp only [atEpochEnd_previousJustifiedCheckpoint, atEpochEnd_currentJustifiedCheckpoint,
      atEpochEnd_finalizedCheckpoint] at hmem
    have hbounds : st.finalizedCheckpoint.epoch ≤ finalized.epoch ∧
        finalized.epoch ≤ st.currentJustifiedCheckpoint.epoch := by
      grind
    have hjustified_le : st.currentJustifiedCheckpoint.epoch ≤ just.epoch ∧
        just.epoch ≤ epoch := by
      grind
    refine ⟨⟨hbounds.2, hjustified_le.1, hjustified_le.2, ?_⟩, hbounds.1⟩
    grind

/-! ### Whole runs -/

/-- A run of the source gives what the run of the specification gives. -/
theorem runEpochs_eq_spec (hinputs : ValidInputs config root epoch inputs) :
    (runEpochs config epoch inputs st).toOption.map view =
      specEpochs config epoch inputs (view st) := by
  induction inputs generalizing epoch st with
  | nil => rfl
  | cons input inputs ih =>
    have hstep := process_eq_spec hlinked hinputs.1
    rw [runEpochs_cons, specEpochs, ← hstep]
    cases hnext : processAtEnd config epoch input st with
    | error fault => rfl
    | ok next => exact ih (hlinked.step hinputs.1 hnext).1 hinputs.2

/-- A run keeps the link between bits and checkpoints, and finality does not go back. -/
theorem Linked.run (hinputs : ValidInputs config root epoch inputs) {last : FinalityState}
    (hrun : runEpochs config epoch inputs st = .ok last) :
    Linked config root (epoch + inputs.length) last ∧
      st.finalizedCheckpoint.epoch ≤ last.finalizedCheckpoint.epoch := by
  induction inputs generalizing epoch st with
  | nil =>
    obtain rfl := Except.ok.inj hrun
    exact ⟨hlinked, le_rfl⟩
  | cons input inputs ih =>
    obtain ⟨next, hnext, hrest⟩ := bind_eq_ok_iff.1 hrun
    obtain ⟨hstep, hle⟩ := hlinked.step hinputs.1 hnext
    obtain ⟨hlast, hle'⟩ := ih hstep hinputs.2 hrest
    grind

/-- A transition succeeds as long as the start slot of its epoch is far enough from the greatest
slot. -/
theorem exists_process_eq_ok (input : EpochInput)
    (hsum : config.slotsPerEpoch * epoch + config.slotsPerHistoricalRoot < 2 ^ 64) :
    ∃ next, processAtEnd config epoch input st = .ok next := by
  by_cases hepoch : epoch ≤ 1
  · exact ⟨_, processAtEnd_early hepoch⟩
  · have htwo : 2 ≤ epoch := by lia
    have hless := mul_le_mul_left config.slotsPerEpoch (sub_le epoch 1)
    have hsum' : config.slotsPerEpoch * (epoch - 1) + config.slotsPerHistoricalRoot < 2 ^ 64 := by
      lia
    have hsome := toOption_computeJustified hlinked htwo input (newBitsOf st input.balances)
    rw [getBlockRoot_lastSlot config input.blockRoots (.inl rfl), if_pos hsum,
      getBlockRoot_lastSlot config input.blockRoots (.inr (by lia)), if_pos hsum'] at hsome
    cases hjust : computeJustified config (atEpochEnd config epoch input st)
        (newBitsOf st input.balances) with
    | ok just => exact ⟨_, (process_eq_ok_iff htwo).2 ⟨_, just, rfl, hjust, rfl⟩⟩
    | error fault =>
      rw [hjust] at hsome
      split_ifs at hsome <;> cases hsome

theorem exists_runEpochs_eq_ok (hinputs : ValidInputs config root epoch inputs)
    (hsum : config.slotsPerEpoch * (epoch + inputs.length) + config.slotsPerHistoricalRoot ≤
      2 ^ 64) : ∃ last, runEpochs config epoch inputs st = .ok last := by
  induction inputs generalizing epoch st with
  | nil => exact ⟨st, rfl⟩
  | cons input inputs ih =>
    rw [add_length_cons] at hsum
    have hpos := config.slotsPerEpoch_pos
    have hfirst : config.slotsPerEpoch * epoch + config.slotsPerHistoricalRoot < 2 ^ 64 := by
      grind
    obtain ⟨next, hnext⟩ := exists_process_eq_ok hlinked input hfirst
    obtain ⟨last, hlast⟩ := ih (hlinked.step hinputs.1 hnext).1 hinputs.2 hsum
    exact ⟨last, bind_eq_ok_iff.2 ⟨next, hnext, hlast⟩⟩

end

/-- Over every run of consecutive epoch transitions from a state without justification, the source
and the specification agree on the justification bits and on the three checkpoints, and they fail
together.  Every state of the run has its checkpoints in order, a later state has no smaller
finalized epoch, and the run does not fail while its slots are a vector of block roots away from the
greatest slot. -/
theorem finality_follows_specification [Bitvector4] (config : FinalityConfig) (root : Epoch → Root)
    (start : Epoch) (st : FinalityState) (hbits : st.justificationBits = 0#4)
    (hprevious : st.previousJustifiedCheckpoint.epoch = 0)
    (hcurrent : st.currentJustifiedCheckpoint.epoch = 0)
    (hfinalized : st.finalizedCheckpoint.epoch = 0) (inputs : List EpochInput)
    (hinputs : ValidInputs config root start inputs) :
    (runEpochs config start inputs st).toOption.map view =
      specEpochs config start inputs (view st) ∧
    (∀ done more middle last, inputs = done ++ more →
      runEpochs config start done st = .ok middle → runEpochs config start inputs st = .ok last →
      middle.finalizedCheckpoint.epoch ≤ middle.previousJustifiedCheckpoint.epoch ∧
      middle.previousJustifiedCheckpoint.epoch ≤ middle.currentJustifiedCheckpoint.epoch ∧
      middle.finalizedCheckpoint.epoch ≤ last.finalizedCheckpoint.epoch) ∧
    (config.slotsPerEpoch * (start + inputs.length) + config.slotsPerHistoricalRoot ≤ 2 ^ 64 →
      ∃ last, runEpochs config start inputs st = .ok last) := by
  have hlinked : Linked config root start st :=
    linked_of_genesis hbits hprevious hcurrent hfinalized
  refine ⟨runEpochs_eq_spec hlinked hinputs, ?_, exists_runEpochs_eq_ok hlinked hinputs⟩
  rintro done more middle last rfl hdone hrun
  obtain ⟨hvalid, hmore⟩ := validInputs_append hinputs
  have hmid := (hlinked.run hvalid hdone).1
  rw [runEpochs_append, hdone] at hrun
  exact ⟨hmid.finalized_le, hmid.previous_le, (hmid.run hmore hrun).2⟩

/-- A state at genesis, with all block roots zero. -/
def genesisFinality : FinalityState where
  slot := 0
  blockRoots := fun _ ↦ zeroHash
  justificationBits := 0#4
  previousJustifiedCheckpoint := ⟨0, zeroHash⟩
  currentJustifiedCheckpoint := ⟨0, zeroHash⟩
  finalizedCheckpoint := ⟨0, zeroHash⟩

/-- An epoch in which two thirds of the balance attest to both targets. -/
def fullEpoch : EpochInput where
  balances := ⟨96, 64, 64⟩
  blockRoots := fun _ ↦ zeroHash

theorem validInputs_fullEpoch :
    ValidInputs mainnetFinality (fun _ ↦ zeroHash) 0 (List.replicate 4 fullEpoch) := by
  have hsmall : fullEpoch.balances.Small := ⟨by decide, by decide, by decide⟩
  have hvalid (epoch : Epoch) (hslot : lastSlot mainnetFinality epoch < 2 ^ 64) :
      ValidInput mainnetFinality (fun _ ↦ zeroHash) epoch fullEpoch :=
    ⟨hsmall, hslot, fun _ _ ↦ rfl⟩
  exact ⟨hvalid 0 (by decide), hvalid 1 (by decide), hvalid 2 (by decide), hvalid 3 (by decide),
    trivial⟩

instance : Bitvector4 where
  shift bits i := bits <<< i.toNat
  setBitAt bits idx val := if val then bits ||| 1#4 <<< idx else bits &&& ~~~(1#4 <<< idx)
  bitAt := BitVec.getLsbD
  shift_one _ := rfl
  setBitAt_true _ _ _ := rfl
  bitAt_eq _ _ := rfl

theorem finality_follows_specification_fullEpochs :
    (runEpochs mainnetFinality 0 (List.replicate 4 fullEpoch) genesisFinality).toOption.map view =
      specEpochs mainnetFinality 0 (List.replicate 4 fullEpoch) (view genesisFinality) ∧
    (specEpochs mainnetFinality 0 (List.replicate 4 fullEpoch) (view genesisFinality)).map
      (fun st ↦ (st.currentJustifiedCheckpoint.epoch, st.finalizedCheckpoint.epoch)) =
        some (3, 2) :=
  ⟨(finality_follows_specification mainnetFinality (fun _ ↦ zeroHash) 0 genesisFinality rfl rfl rfl
    rfl (List.replicate 4 fullEpoch) validInputs_fullEpoch).1, rfl⟩

/-- After any run from genesis, two epochs with two thirds of the balance on their own targets
finalize the first of them. -/
theorem two_epochs_finalize [Bitvector4] (root : Epoch → Root) {first second : EpochInput}
    (hepoch : 2 ≤ epoch + inputs.length)
    (hinputs : ValidInputs config root epoch (inputs ++ [first, second]))
    (htargets : ∀ input ∈ [first, second], input.balances.currentEpochTargetAttested * 3 ≥
      input.balances.activeCurrentEpoch * 2)
    (hsum : config.slotsPerEpoch * (epoch + (inputs ++ [first, second]).length) +
      config.slotsPerHistoricalRoot ≤ 2 ^ 64) :
    ∃ last, runEpochs config epoch (inputs ++ [first, second]) genesisFinality = .ok last ∧
      last.finalizedCheckpoint = ⟨epoch + inputs.length, root (epoch + inputs.length)⟩ := by
  have hgenesis : Linked config root epoch genesisFinality := linked_of_genesis rfl rfl rfl rfl
  obtain ⟨last, hrun⟩ := exists_runEpochs_eq_ok hgenesis hinputs hsum
  refine ⟨last, hrun, ?_⟩
  obtain ⟨hdone, hfirst, hsecond, -⟩ := validInputs_append hinputs
  simp only [runEpochs_append, runEpochs_cons, bind_eq_ok_iff] at hrun
  obtain ⟨_, hmiddle, _, hbefore, _, hlast, ⟨⟩⟩ := hrun
  have hcarried := ((hgenesis.run hdone hmiddle).1.step hfirst hbefore).1.carried
  obtain ⟨_, _, rfl, -, rfl⟩ := (process_eq_ok_iff hepoch).1 hbefore
  obtain ⟨_, _, rfl, -, rfl⟩ := (process_eq_ok_iff (by lia)).1 hlast
  simp only [newBitsOf_of_small _ hfirst.small, newBitsOf_of_small _ hsecond.small,
    htargets _ (.head _), htargets _ (.tail _ (.head _)), decide_true] at hcarried ⊢
  obtain ⟨-, -, hjust⟩ := hcarried (getLsbD_shiftIn _ _ _).1
  -- both bits are set, so the last rule of the source decides
  have hbits : ∀ bits p q, shiftIn (shiftIn bits p true) q true &&& 3#4 = 3#4 := by decide
  have hlt := epoch_lt_of_lastSlot_lt hsecond.slot_lt
  rw [computeFinalized, atEpochEnd_currentJustifiedCheckpoint, hjust]
  exact if_pos ⟨hbits _ _ _, by rw [currentEpoch_atEpochEnd, mod_eq_of_lt] <;> lia⟩

theorem two_epochs_finalize_fullEpochs :
    ∃ last, runEpochs mainnetFinality 0 ([fullEpoch, fullEpoch] ++ [fullEpoch, fullEpoch])
      genesisFinality = .ok last ∧ last.finalizedCheckpoint = ⟨2, zeroHash⟩ :=
  two_epochs_finalize (fun _ ↦ zeroHash) (by decide) validInputs_fullEpoch (by decide) (by decide)

end Prysm.Precompute
