import Prysm.DoublyLinkedTree.Checkpoints
import Prysm.Precompute.Prediction

/-!
# The early exit of `pullTips`

A node takes over the unrealized epochs of its parent once the parent has justified the current
epoch.  The justified epoch cannot rise any further then.  The finalized epoch can: the block may
bring the votes that justify the previous epoch, and with it another checkpoint may be final.
-/

namespace Prysm.DoublyLinkedTree

open Library Action Precompute

/-- Participation flags are added and none is taken back. -/
def AddsFlags : List UInt8 → List UInt8 → Prop :=
  List.Forall₂ fun b b' ↦ ∀ position, (b >>> position) &&& 1 == 1 → (b' >>> position) &&& 1 == 1

theorem AddsFlags.targetSum_le {old new : List UInt8} (hadds : AddsFlags old new) (epoch : Epoch)
    (validators : List Validator) :
    targetSum epoch validators old ≤ targetSum epoch validators new := by
  induction hadds generalizing validators with
  | nil => rfl
  | cons hflags _ ih =>
    cases validators with
    | nil => rfl
    | cons v validators =>
      rw [targetSum_cons, targetSum_cons]
      unfold hasTarget
      grind

/-- The post-state of a block, from the post-state of its parent in the same epoch: the slots up to
the block have their block roots, and attestations were added to the participation lists. -/
def afterBlock (pre : Precompute.BeaconState) (slot : Slot) (blockRoots : ℕ → Root)
    (cp pp : List UInt8) : Precompute.BeaconState :=
  { pre with
    slot := slot
    blockRoots := blockRoots
    currentEpochParticipation := some cp
    previousEpochParticipation := some pp }

variable {config : FinalityConfig} {pre : Precompute.BeaconState} {slot : Slot}
  {blockRoots : ℕ → Root} {cp pp cp' pp' : List UInt8} {uj uf uj' uf' : Checkpoint}

/-- A block in the epoch of its parent, with the participation lists `cp` and `pp` before and `cp'`
and `pp'` after it.  Before the end of an epoch only earlier epochs are justified in a state. -/
structure Extends (config : FinalityConfig) (pre : Precompute.BeaconState) (slot : Slot)
    (blockRoots : ℕ → Root) (cp pp cp' pp' : List UInt8) : Prop where
  before : Participating config pre cp pp
  after : Participating config (afterBlock pre slot blockRoots cp' pp') cp' pp'
  current : AddsFlags cp cp'
  previous : AddsFlags pp pp'
  epoch_eq : currentEpoch config (afterBlock pre slot blockRoots cp' pp') =
    currentEpoch config pre
  justified_le : pre.currentJustifiedCheckpoint.epoch ≤ currentEpoch config pre - 1
  small : (balancesOf config pre cp' pp').Small

section Late

variable (config : FinalityConfig) (st : FinalityState)

/-- The target votes for the previous epoch have two thirds of the balance. -/
def justifiesPrevious (bal : TargetBalances) : Bool :=
  bal.prevEpochTargetAttested * 3 ≥ bal.activeCurrentEpoch * 2

/-- The previous epoch is justified with the balances `after`, and was not before. -/
def LateJustification (before after : TargetBalances) : Prop :=
  justifiesPrevious after ∧ ¬ justifiesPrevious before ∧ ¬ st.justificationBits.getLsbD 0

/-- The current justified checkpoint is final once the last two epochs are justified. -/
def CurrentFinal : Prop :=
  (st.currentJustifiedCheckpoint.epoch + 1) % 2 ^ 64 = currentEpoch config st ∨
    st.justificationBits.getLsbD 1 ∧
      (st.currentJustifiedCheckpoint.epoch + 2) % 2 ^ 64 = currentEpoch config st

/-- The previous justified checkpoint is final once the last two epochs are justified. -/
def PreviousFinal : Prop :=
  st.justificationBits.getLsbD 1 ∧
    ((st.previousJustifiedCheckpoint.epoch + 2) % 2 ^ 64 = currentEpoch config st ∨
      st.justificationBits.getLsbD 2 ∧
        (st.previousJustifiedCheckpoint.epoch + 3) % 2 ^ 64 = currentEpoch config st)

/-- What is final once the last two epochs are justified is not of the finalized epoch. -/
def MovesFinality : Prop :=
  CurrentFinal config st ∧ st.currentJustifiedCheckpoint.epoch ≠ st.finalizedCheckpoint.epoch ∨
    ¬ CurrentFinal config st ∧ PreviousFinal config st ∧
      st.previousJustifiedCheckpoint.epoch ≠ st.finalizedCheckpoint.epoch

/-- After the first two epochs, new votes justify the previous epoch, and move finality with it. -/
def FinalizesLate (before after : TargetBalances) : Prop :=
  2 ≤ currentEpoch config st ∧ LateJustification st before after ∧ MovesFinality config st

end Late

/-- The vote on the previous epoch does not count when the epoch has its bit already. -/
theorem shiftIn_of_carried (bits : BitVec 4) (prev prev' curr : Bool) (hmono : prev → prev')
    (hcarried : ¬ (prev' ∧ ¬ prev ∧ ¬ bits.getLsbD 0)) :
    shiftIn bits prev' curr = shiftIn bits prev curr := by
  revert bits prev prev' curr
  decide

/-- Without the bit of the previous epoch no checkpoint is finalized. -/
theorem computeFinalized_of_missing (st : FinalityState) {bits : BitVec 4}
    (hbit : ¬ bits.getLsbD 0) :
    computeFinalized config st (shiftIn bits false true) = st.finalizedCheckpoint := by
  have hmasks : ∀ bits : BitVec 4, ¬ bits.getLsbD 0 →
      shiftIn bits false true &&& 0x0E#4 ≠ 0x0E#4 ∧ shiftIn bits false true &&& 0x06#4 ≠ 0x06#4 ∧
      shiftIn bits false true &&& 0x07#4 ≠ 0x07#4 ∧
      shiftIn bits false true &&& 0x03#4 ≠ 0x03#4 := by
    decide
  obtain ⟨hfour, hthree, hall, htwo⟩ := hmasks bits hbit
  simp only [computeFinalized, hfour, hthree, hall, htwo, false_and, if_false]

/-- What is finalized when the last two epochs are justified. -/
theorem computeFinalized_epoch_iff (st : FinalityState) :
    (computeFinalized config st (shiftIn st.justificationBits true true)).epoch =
      st.finalizedCheckpoint.epoch ↔ ¬ MovesFinality config st := by
  have hmasks : ∀ bits : BitVec 4,
      (shiftIn bits true true &&& 0x0E#4 = 0x0E#4 ↔ bits.getLsbD 1 ∧ bits.getLsbD 2) ∧
      (shiftIn bits true true &&& 0x06#4 = 0x06#4 ↔ bits.getLsbD 1) ∧
      (shiftIn bits true true &&& 0x07#4 = 0x07#4 ↔ bits.getLsbD 1) ∧
      shiftIn bits true true &&& 0x03#4 = 0x03#4 := by
    decide
  obtain ⟨hfour, hthree, hall, htwo⟩ := hmasks st.justificationBits
  simp only [computeFinalized, hfour, hthree, hall, htwo, true_and, MovesFinality, CurrentFinal,
    PreviousFinal]
  grind

/-- The current epoch is justified exactly when its bit is set. -/
theorem computeJustified_epoch_iff [Bitvector4] {st : FinalityState} {bits : BitVec 4}
    (htwo : 2 ≤ currentEpoch config st)
    (hle : st.currentJustifiedCheckpoint.epoch ≤ currentEpoch config st - 1)
    (hok : computeJustified config st bits = .ok uj) :
    uj.epoch = currentEpoch config st ↔ bits.getLsbD 0 := by
  unfold computeJustified at hok
  simp only [Bitvector4.bitAt_eq, prevEpoch_eq htwo] at hok
  split_ifs at hok with hcurr hprev
  · obtain ⟨_, -, hread⟩ := bind_eq_ok_iff.1 hok
    obtain rfl := Except.ok.inj hread
    exact ⟨fun _ ↦ hcurr.1, fun _ ↦ rfl⟩
  · obtain ⟨_, -, hread⟩ := bind_eq_ok_iff.1 hok
    obtain rfl := Except.ok.inj hread
    lia
  · obtain rfl := Except.ok.inj hok
    lia

section

variable [Bitvector4] (hextends : Extends config pre slot blockRoots cp pp cp' pp')
include hextends

/-- The bits before and after the block, when the current epoch has its bit already. -/
theorem Extends.newBitsOf_eq
    (hbit : (newBitsOf pre (balancesOf config pre cp pp)).getLsbD 0) :
    newBitsOf pre (balancesOf config pre cp pp) =
        shiftIn pre.justificationBits (justifiesPrevious (balancesOf config pre cp pp)) true ∧
      newBitsOf pre (balancesOf config pre cp' pp') =
        shiftIn pre.justificationBits (justifiesPrevious (balancesOf config pre cp' pp')) true ∧
      (justifiesPrevious (balancesOf config pre cp pp) →
        justifiesPrevious (balancesOf config pre cp' pp')) := by
  have hcurrent := hextends.current.targetSum_le (currentEpoch config pre)
    pre.validators
  have hprevious := hextends.previous.targetSum_le (currentEpoch config pre - 1)
    pre.validators
  obtain ⟨hprev, hcurr⟩ : (balancesOf config pre cp pp).prevEpochTargetAttested ≤
        (balancesOf config pre cp' pp').prevEpochTargetAttested ∧
      (balancesOf config pre cp pp).currentEpochTargetAttested ≤
        (balancesOf config pre cp' pp').currentEpochTargetAttested := by
    simp only [balancesOf, targetBalances, ensureLowerBound]
    constructor <;> split_ifs <;> omega
  have hsmall := hextends.small
  have hbefore : (balancesOf config pre cp pp).Small :=
    ⟨hsmall.1, hprev.trans_lt hsmall.2.1, hcurr.trans_lt hsmall.2.2⟩
  have hactive : (balancesOf config pre cp' pp').activeCurrentEpoch =
      (balancesOf config pre cp pp).activeCurrentEpoch := rfl
  rw [newBitsOf_of_small _ hbefore, (getLsbD_shiftIn _ _ _).1, decide_eq_true_eq] at hbit
  rw [newBitsOf_of_small _ hbefore, newBitsOf_of_small _ hsmall, decide_eq_true hbit, hactive,
    decide_eq_true (hbit.le.trans (Nat.mul_le_mul_right 3 hcurr))]
  refine ⟨rfl, rfl, fun hle ↦ decide_eq_true ?_⟩
  exact (of_decide_eq_true hle).le.trans (Nat.mul_le_mul_right 3 hprev)

/-- Votes in a block leave the unrealized justified epoch as it is when the current epoch was
justified before, and the finalized one unless the previous epoch is justified late. -/
theorem Extends.epochs_eq (hok : unrealizedCheckpoints config pre = .ok (uj, uf))
    (hok' : unrealizedCheckpoints config (afterBlock pre slot blockRoots cp' pp') = .ok (uj', uf'))
    (huj : uj.epoch = currentEpoch config pre) :
    uj'.epoch = uj.epoch ∧ (uf'.epoch = uf.epoch ↔ ¬ FinalizesLate config pre
      (balancesOf config pre cp pp) (balancesOf config pre cp' pp')) := by
  have hsame := hextends.epoch_eq
  by_cases htwo : 2 ≤ currentEpoch config pre
  · rw [unrealizedCheckpoints_eq hextends.before htwo] at hok
    rw [unrealizedCheckpoints_eq hextends.after (hsame.symm ▸ htwo), balancesOf, hsame] at hok'
    obtain ⟨justified, hjust, hpair⟩ := bind_eq_ok_iff.1 hok
    obtain ⟨rfl, rfl⟩ := Prod.mk.inj (Except.ok.inj hpair)
    obtain ⟨justified', hjust', hpair'⟩ := bind_eq_ok_iff.1 hok'
    obtain ⟨rfl, rfl⟩ := Prod.mk.inj (Except.ok.inj hpair')
    have hbit := (computeJustified_epoch_iff htwo hextends.justified_le hjust).1 huj
    obtain ⟨hbefore, hafter, hmono⟩ := hextends.newBitsOf_eq hbit
    constructor
    · rw [huj, ← hsame]
      refine (computeJustified_epoch_iff (hsame.symm ▸ htwo) (hsame.symm ▸ hextends.justified_le)
        hjust').2 ?_
      exact (congrArg (·.getLsbD 0) hafter).trans (getLsbD_shiftIn _ _ _).1
    · have hfinalized (bits : BitVec 4) : computeFinalized config
          (afterBlock pre slot blockRoots cp' pp') bits =
            computeFinalized config pre bits := by
        rw [computeFinalized, hsame]
        rfl
      change (computeFinalized config _ (newBitsOf pre
        (balancesOf config pre cp' pp'))).epoch = _ ↔ _
      rw [hfinalized, hbefore, hafter]
      by_cases hlate : LateJustification pre (balancesOf config pre cp pp)
        (balancesOf config pre cp' pp')
      · rw [hlate.1, Bool.eq_false_of_not_eq_true hlate.2.1,
          computeFinalized_of_missing _ hlate.2.2, computeFinalized_epoch_iff, FinalizesLate]
        tauto
      · rw [shiftIn_of_carried _ _ _ _ hmono hlate]
        exact iff_of_true rfl fun h ↦ hlate h.2.1
  · have hearly : toEpoch config pre.slot ≤ config.genesisEpoch + 1 := by
      rw [config.genesisEpoch_eq]
      exact Nat.lt_succ_iff.1 (not_le.1 htwo)
    have hearly' : toEpoch config
        (afterBlock pre slot blockRoots cp' pp').slot ≤ config.genesisEpoch + 1 :=
      hsame.trans_le hearly
    rw [unrealizedCheckpoints, if_pos hearly] at hok
    rw [unrealizedCheckpoints, if_pos hearly'] at hok'
    obtain ⟨rfl, rfl⟩ := Prod.mk.inj (Except.ok.inj (hok.symm.trans hok'))
    exact ⟨rfl, iff_of_true rfl fun h ↦ htwo h.1⟩

variable {state : BeaconState} {c : Call} {id parentId : NodeId} {node parent : Node}
  {jc fc : Checkpoint}

/-- The epochs that `pullTips` stores for a block of the current epoch whose parent has justified
the epoch are those of `UnrealizedCheckpoints` on the post-state of the block, unless the votes of
the block justify the previous epoch and another epoch is final with it. -/
theorem pullTips_currJustified_agrees (hok : unrealizedCheckpoints config pre = .ok (uj, uf))
    (hok' : unrealizedCheckpoints config (afterBlock pre slot blockRoots cp' pp') = .ok (uj', uf'))
    (hnode : c.nodes[id]? = some node) (hlink : node.parent = some parentId)
    (hparent : c.nodes[parentId]? = some parent)
    (hjustified : parent.unrealizedJustifiedEpoch = uj.epoch)
    (hfinalized : parent.unrealizedFinalizedEpoch = uf.epoch)
    (hcurrent : currentEpoch config pre = toEpoch config
      (slotAt config c.genesisTime (c.clock 0)))
    (hearly : parent.unrealizedJustifiedEpoch = currentEpoch config pre) :
    wp (pullTips config state id jc fc) (fun outcome c' ↦
      outcome = .ok (jc, fc) ∧ ∃ node', c'.nodes[id]? = some node' ∧
        node'.unrealizedJustifiedEpoch = uj'.epoch ∧
        node'.unrealizedFinalizedEpoch = uf'.epoch) c ↔
      ¬ FinalizesLate config pre (balancesOf config pre cp pp)
        (balancesOf config pre cp' pp') := by
  obtain ⟨hepoch, hfinal⟩ := hextends.epochs_eq hok hok' (hjustified.symm.trans hearly)
  have hload : c.tick.nodes[parentId]? = some parent := hparent
  rw [pullTips, wp_bind, wp_load hnode, whenOk_ok, hlink]
  simp only [wp_bind, wp_currentSlot, whenOk_ok, wp_load hload]
  rw [if_pos (.inl (hearly.trans hcurrent))]
  have hcopied : (c.copyEpochs id parent).nodes[id]? = some { node with
      unrealizedJustifiedEpoch := parent.unrealizedJustifiedEpoch
      unrealizedFinalizedEpoch := parent.unrealizedFinalizedEpoch } := by
    simp [Call.copyEpochs, hnode]
  rw [← hfinal]
  constructor
  · rintro ⟨-, node', hnode', -, hstored⟩
    obtain rfl := Option.some.inj (hcopied.symm.trans hnode')
    exact hstored.symm.trans hfinalized
  · intro heq
    exact ⟨rfl, _, hcopied, hjustified.trans hepoch.symm, hfinalized.trans heq.symm⟩

end

/-- A state in epoch 3 whose current justified epoch is 1.  Both validators attested to the target
of the current epoch, and one to that of the previous epoch. -/
def inEpochThree : Precompute.BeaconState :=
  { Precompute.twoValidators (32 * 10 ^ 9) with
    slot := 106
    justificationBits := 2#4
    currentJustifiedCheckpoint := ⟨1, zeroHash⟩
    previousEpochParticipation := some [7, 0] }

/-- A block in slot 107 that may add the vote of the second validator for the previous epoch. -/
theorem extends_inEpochThree {flags : UInt8} (hflags : flags = 0 ∨ flags = 7) :
    Extends mainnetFinality inEpochThree 107 (fun _ ↦ zeroHash) [7, 7] [7, 0] [7, 7]
      [7, flags] where
  before := by constructor <;> decide
  after := by obtain rfl | rfl := hflags <;> constructor <;> decide
  current := List.forall₂_same.2 fun _ _ _ hflag ↦ hflag
  previous := .cons (fun _ hflag ↦ hflag) (.cons (fun _ hflag ↦ by simp at hflag) .nil)
  epoch_eq := by obtain rfl | rfl := hflags <;> decide
  justified_le := by decide
  small := by obtain rfl | rfl := hflags <;> exact ⟨by decide, by decide, by decide⟩

/-- The call of `pullTips` for the block, whose parent has the unrealized epochs of its state. -/
def pullTipsCall : Call :=
  { (ForkChoice.new mainnetConfig 0).call (environmentAt none (107 * 12 * second)) with
    nodes := [⟨106, 1, 0, none, none, [1], 1, 3, 0, 0, 0, 0, none, false⟩,
      ⟨107, 2, 0, some 0, none, [], 1, 1, 0, 0, 0, 0, none, false⟩] }

theorem pullTips_currJustified_agrees_inEpochThree :
    wp (pullTips mainnetConfig ⟨107, none, none, .ok (⟨3, zeroHash⟩, ⟨0, zeroHash⟩)⟩ 1 ⟨1, zeroHash⟩
      ⟨0, zeroHash⟩) (fun outcome c' ↦
      outcome = .ok (⟨1, zeroHash⟩, ⟨0, zeroHash⟩) ∧ ∃ node', c'.nodes[1]? = some node' ∧
        node'.unrealizedJustifiedEpoch = 3 ∧ node'.unrealizedFinalizedEpoch = 0) pullTipsCall := by
  have hok : unrealizedCheckpoints mainnetFinality inEpochThree =
    .ok (⟨3, zeroHash⟩, ⟨0, zeroHash⟩) := rfl
  exact (pullTips_currJustified_agrees (extends_inEpochThree (.inl rfl)) hok hok rfl rfl rfl rfl rfl
    rfl rfl).2 fun h ↦ absurd h.2.1.1 (by decide)

/-- With the vote of the second validator the post-state of the block finalizes epoch 1, and
`pullTips` stores the finalized epoch 0 of the parent. -/
theorem pullTips_misses_late_votes :
    Extends mainnetFinality inEpochThree 107 (fun _ ↦ zeroHash) [7, 7] [7, 0] [7, 7] [7, 7] ∧
    unrealizedCheckpoints mainnetFinality inEpochThree = .ok (⟨3, zeroHash⟩, ⟨0, zeroHash⟩) ∧
    unrealizedCheckpoints mainnetFinality
      (afterBlock inEpochThree 107 (fun _ ↦ zeroHash) [7, 7] [7, 7]) =
        .ok (⟨3, zeroHash⟩, ⟨1, zeroHash⟩) ∧
    (((pullTips mainnetConfig ⟨107, none, none, .ok (⟨3, zeroHash⟩, ⟨1, zeroHash⟩)⟩ 1 ⟨1, zeroHash⟩
        ⟨0, zeroHash⟩).runFrom pullTipsCall).2.nodes[1]?.map fun node ↦
      (node.unrealizedJustifiedEpoch, node.unrealizedFinalizedEpoch)) = some (3, 0) :=
  ⟨extends_inEpochThree (.inr rfl), rfl, rfl, rfl⟩

end Prysm.DoublyLinkedTree
