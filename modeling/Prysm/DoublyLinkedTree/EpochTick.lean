import Prysm.DoublyLinkedTree.Checkpoints

/-!
# The order of the epoch tick

`updateUnrealizedCheckpoints` goes through the map of the nodes in an order that the language leaves
open, and it compares each node with checkpoints that earlier nodes may have replaced.  When the
nodes are covered, the first node with a greater epoch makes the store take the unrealized
checkpoint, and no later node has a greater epoch than that.  So the tick computes `Call.ticked`,
which depends only on the set of the roots.
-/

namespace Prysm.DoublyLinkedTree

open Library Action Classical Call

section

variable (s : Store) (visited : List Root)

/-- One of the roots has a node with a greater unrealized justified epoch than the store's. -/
def RealizesJustified : Prop :=
  ∃ root ∈ visited, ∃ id ∈ s.nodeByRoot root, ∃ n ∈ s.nodes[id]?,
    s.justifiedCheckpoint.epoch < n.unrealizedJustifiedEpoch

def RealizesFinalized : Prop :=
  ∃ root ∈ visited, ∃ id ∈ s.nodeByRoot root, ∃ n ∈ s.nodes[id]?,
    s.finalizedCheckpoint.epoch < n.unrealizedFinalizedEpoch

/-- The nodes after the tick has visited the given roots. -/
noncomputable def tickedNodes : List Node :=
  s.nodes.mapIdx fun id n ↦
    if ∃ root ∈ visited, s.nodeByRoot root = some id then n.realized else n

end

/-- The nodes and the finalized checkpoint after the tick has visited the given roots. -/
noncomputable def Call.tickedStart (visited : List Root) (c : Call) : Call :=
  { c with
    nodes := tickedNodes c visited
    finalizedCheckpoint :=
      if RealizesFinalized c visited then c.unrealizedFinalizedCheckpoint
      else c.finalizedCheckpoint }

/-- The state after the tick has visited the given roots. -/
noncomputable def Call.ticked (config : BeaconChainConfig) (balances : List ℕ)
    (visited : List Root) (c : Call) : Call :=
  if RealizesJustified c visited then
    ((c.tickedStart visited).justify c.unrealizedJustifiedCheckpoint).setBalances config balances
  else c.tickedStart visited

variable {config : BeaconChainConfig} {s : Store} {c : Call} {visited : List Root} {root : Root}
  {id : NodeId} {n n' : Node} {balances : List ℕ} (start : Call) (jc : Checkpoint)

theorem tickedNodes_concat (hroot : s.nodeByRoot root = some id) :
    tickedNodes s (visited ++ [root]) = (tickedNodes s visited).modify id Node.realized := by
  apply List.ext_getElem?
  intro other
  rw [List.getElem?_modify, tickedNodes, tickedNodes, List.getElem?_mapIdx, List.getElem?_mapIdx]
  cases s.nodes[other]? with
  | none => simp
  | some n =>
    simp only [Option.map_some, Option.map_eq_map]
    by_cases heq : id = other
    · subst heq
      rw [if_pos ⟨root, by simp, hroot⟩, if_pos rfl]
      split_ifs
      · rfl
      · rfl
    · simp [hroot, heq]

/-- The tick leaves the unrealized epochs alone. -/
theorem tickedNodes_getElem? (hnode : (tickedNodes s visited)[id]? = some n') :
    ∃ n, s.nodes[id]? = some n ∧ n'.unrealizedJustifiedEpoch = n.unrealizedJustifiedEpoch ∧
      n'.unrealizedFinalizedEpoch = n.unrealizedFinalizedEpoch := by
  rw [tickedNodes, List.getElem?_mapIdx] at hnode
  obtain ⟨n, hn, rfl⟩ := Option.map_eq_some_iff.1 hnode
  refine ⟨n, hn, ?_⟩
  split_ifs
  · exact ⟨rfl, rfl⟩
  · exact ⟨rfl, rfl⟩

section

variable (visited : List Root) (hroot : s.nodeByRoot root = some id) (hnode : s.nodes[id]? = some n)
include hroot hnode

theorem realizesJustified_concat :
    RealizesJustified s (visited ++ [root]) ↔ RealizesJustified s visited ∨
      s.justifiedCheckpoint.epoch < n.unrealizedJustifiedEpoch := by
  simp [RealizesJustified, or_and_right, exists_or, hroot, hnode]

theorem realizesFinalized_concat :
    RealizesFinalized s (visited ++ [root]) ↔ RealizesFinalized s visited ∨
      s.finalizedCheckpoint.epoch < n.unrealizedFinalizedEpoch := by
  simp [RealizesFinalized, or_and_right, exists_or, hroot, hnode]

end

/-- Roots that are not in the map, the order and repetitions do not matter. -/
theorem ticked_congr {visited' : List Root}
    (hsame : ∀ root, c.nodeByRoot root ≠ none → (root ∈ visited ↔ root ∈ visited')) :
    c.ticked config balances visited = c.ticked config balances visited' := by
  have hiff {Property : Root → Prop} (hknown : ∀ root, Property root → c.nodeByRoot root ≠ none) :
      (∃ root ∈ visited, Property root) ↔ ∃ root ∈ visited', Property root := by
    constructor
    · rintro ⟨root, hmem, hroot⟩
      exact ⟨root, (hsame root (hknown root hroot)).1 hmem, hroot⟩
    · rintro ⟨root, hmem, hroot⟩
      exact ⟨root, (hsame root (hknown root hroot)).2 hmem, hroot⟩
  have hjust : RealizesJustified c visited ↔ RealizesJustified c visited' := by
    apply hiff
    rintro root ⟨id, hid, -⟩ hnone
    simp [hnone] at hid
  have hfin : RealizesFinalized c visited ↔ RealizesFinalized c visited' := by
    apply hiff
    rintro root ⟨id, hid, -⟩ hnone
    simp [hnone] at hid
  have hnodes : tickedNodes c visited = tickedNodes c visited' := by
    refine congrArg (fun change ↦ c.nodes.mapIdx change) (funext₂ fun id n ↦ if_congr ?_ rfl rfl)
    exact hiff fun root hroot ↦ by simp [hroot]
  simp only [ticked, tickedStart, hjust, hfin, hnodes]

theorem tickedStart_concat (hroot : c.nodeByRoot root = some id) (hnode : c.nodes[id]? = some n) :
    ((c.tickedStart visited).realizeEpochs id).finalize n.unrealizedFinalizedEpoch =
      c.tickedStart (visited ++ [root]) := by
  simp only [tickedStart, realizeEpochs, finalize, tickedNodes_concat hroot,
    realizesFinalized_concat visited hroot hnode]
  by_cases hbefore : RealizesFinalized c visited
  · simp [hbefore]
  · simp [hbefore]

theorem ticked_of_realizes (hrealizes : RealizesJustified c visited) :
    c.ticked config balances visited =
      ((c.tickedStart visited).justify c.unrealizedJustifiedCheckpoint).setBalances config
        balances := by
  rw [ticked, if_pos hrealizes]

theorem ticked_of_not_realizes (hrealizes : ¬ RealizesJustified c visited) :
    c.ticked config balances visited = c.tickedStart visited := by
  rw [ticked, if_neg hrealizes]

/-- What the tick only reads, and the nodes. -/
theorem ticked_same (config : BeaconChainConfig) (balances : List ℕ) (visited : List Root) :
    (c.ticked config balances visited).nodeByRoot = c.nodeByRoot ∧
    (c.ticked config balances visited).balancesByRoot = c.balancesByRoot ∧
    (c.ticked config balances visited).unrealizedJustifiedCheckpoint =
      c.unrealizedJustifiedCheckpoint ∧
    (c.ticked config balances visited).nodes = tickedNodes c visited := by
  unfold ticked
  split_ifs
  · exact ⟨rfl, rfl, rfl, rfl⟩
  · exact ⟨rfl, rfl, rfl, rfl⟩

/-- A node with a greater epoch than the store's is the first one. -/
theorem CoveredExcept.not_realizesJustified (hcov : CoveredExcept c none)
    (hroot : c.nodeByRoot root = some id) (hnode : c.nodes[id]? = some n)
    (hgt : (c.ticked config balances visited).justifiedCheckpoint.epoch <
      n.unrealizedJustifiedEpoch) : ¬ RealizesJustified c visited := by
  intro hrealizes
  rw [ticked_of_realizes hrealizes] at hgt
  obtain ⟨root', -, id', hroot', n', hnode', hless⟩ := hrealizes
  have hn := (hcov id n (.inl ⟨root, hroot⟩) (by simp) hnode).justified
  have hn' := (hcov id' n' (.inl ⟨root', hroot'⟩) (by simp) hnode').justified
  simp only [setBalances, justify] at hgt
  lia

theorem finalize_setBalances (finalizedEpoch : Epoch) :
    (((start.realizeEpochs id).justify jc).setBalances config balances).finalize finalizedEpoch =
      (((start.realizeEpochs id).finalize finalizedEpoch).justify jc).setBalances config balances :=
  rfl

theorem realizeEpochs_setBalances :
    ((start.justify jc).setBalances config balances).realizeEpochs id =
      ((start.realizeEpochs id).justify jc).setBalances config balances :=
  rfl

theorem wp_realizeCheckpoints_ticked (hcov : CoveredExcept c none)
    (hsound : Sound (c.ticked config balances visited))
    (hbals : RealizesJustified c (visited ++ [root]) →
      c.balancesByRoot c.unrealizedJustifiedCheckpoint.root = .ok balances) :
    wp (realizeCheckpoints config root) (fun out c' ↦
      out = .ok () ∧ c' = c.ticked config balances (visited ++ [root]))
      (c.ticked config balances visited) := by
  obtain ⟨hmap, hhandler, hunreal, hnodes⟩ := ticked_same (c := c) config balances visited
  apply hsound.realizeCheckpoints
  · intro hnone
    refine ⟨rfl, ticked_congr fun other hother ↦ ?_⟩
    have hne : other ≠ root := by
      rintro rfl
      exact hother (hmap ▸ hnone)
    simp [hne]
  · intro id n' hroot hnode' hle
    rw [hmap] at hroot
    rw [hnodes] at hnode'
    obtain ⟨n, hnode, hjust, hfin⟩ := tickedNodes_getElem? hnode'
    have hconcat := realizesJustified_concat visited hroot hnode
    refine ⟨rfl, ?_⟩
    rw [hfin]
    by_cases hbefore : RealizesJustified c visited
    · rw [ticked_of_realizes hbefore, ticked_of_realizes (hconcat.2 (.inl hbefore)),
        realizeEpochs_setBalances, finalize_setBalances, tickedStart_concat hroot hnode]
    · rw [ticked_of_not_realizes hbefore, hjust] at hle
      have hafter : ¬ RealizesJustified c (visited ++ [root]) := fun hrealizes ↦
        (hconcat.1 hrealizes).elim hbefore (not_lt.2 hle)
      rw [ticked_of_not_realizes hbefore, ticked_of_not_realizes hafter,
        tickedStart_concat hroot hnode]
  · intro id n' balances' hroot hnode' hgt hok
    rw [hmap] at hroot
    rw [hnodes] at hnode'
    obtain ⟨n, hnode, hjust, hfin⟩ := tickedNodes_getElem? hnode'
    rw [hjust] at hgt
    have hbefore := hcov.not_realizesJustified hroot hnode hgt
    rw [ticked_of_not_realizes hbefore] at hgt
    have hafter := (realizesJustified_concat visited hroot hnode).2 (.inr hgt)
    rw [hhandler, hunreal, hbals hafter, Except.ok.injEq] at hok
    refine ⟨rfl, ?_⟩
    rw [← hok, hunreal, hfin, ticked_of_not_realizes hbefore, ticked_of_realizes hafter,
      finalize_setBalances, tickedStart_concat hroot hnode]
  · intro id n' err err' hroot hnode' hgt herror
    rw [hmap] at hroot
    rw [hnodes] at hnode'
    obtain ⟨n, hnode, hjust, -⟩ := tickedNodes_getElem? hnode'
    rw [hjust] at hgt
    have hbefore := hcov.not_realizesJustified hroot hnode hgt
    rw [ticked_of_not_realizes hbefore] at hgt
    have hafter := (realizesJustified_concat visited hroot hnode).2 (.inr hgt)
    rw [hhandler, hunreal, hbals hafter] at herror
    simp at herror

/-- The epoch tick, when the balances of the unrealized justified checkpoint can be looked up. -/
theorem CoveredExcept.updateUnrealizedCheckpoints (hcov : CoveredExcept c none)
    (hsound : Sound c) {order : List Root} (hbals : RealizesJustified c order →
      c.balancesByRoot c.unrealizedJustifiedCheckpoint.root = .ok balances) :
    wp (updateUnrealizedCheckpoints config order) (fun out c' ↦
      out = .ok () ∧ c' = c.ticked config balances order) c := by
  have hstart : c = c.ticked config balances [] := by
    have hnodes : tickedNodes c [] = c.nodes := by
      apply List.ext_getElem?
      simp [tickedNodes]
    rw [ticked_of_not_realizes (by simp [RealizesJustified])]
    simp [tickedStart, hnodes, RealizesFinalized]
  apply wp_forM fun done middle ↦ Settled c.toStore middle.toStore ∧
    middle = c.ticked config balances done
  · exact ⟨⟨hsound, hcov, .refl _⟩, hstart⟩
  · rintro done root rest middle rfl ⟨hsettled, rfl⟩
    have hsofar (hrealizes : RealizesJustified c (done ++ [root])) :
        RealizesJustified c (done ++ root :: rest) := by
      obtain ⟨other, hother, hnode⟩ := hrealizes
      exact ⟨other, by simp at hother ⊢; tauto, hnode⟩
    apply ((settled_realizeCheckpoints _ hsettled).and (wp_realizeCheckpoints_ticked hcov
      hsettled.sound fun hrealizes ↦ hbals (hsofar hrealizes))).mono
    rintro out last ⟨hlast, rfl, rfl⟩
    exact ⟨hlast, rfl⟩
  · rintro last ⟨-, rfl⟩
    exact ⟨rfl, rfl⟩

/-- In every store that `InsertNode` and `NewSlot` lead to, the epoch tick ends in the same state
for any two orders of the nodes, when the balances of the checkpoint that it justifies can be looked
up. -/
theorem epoch_tick_order_independent (config : BeaconChainConfig) (genesisTime : Time)
    {events : List Event} {f : ForkChoice}
    (run : Run (CallStep (perform config) (CheckpointsKept config))
      (ForkChoice.new config genesisTime) events f) {environment : Environment}
    {order order' : List Root} (hperm : order.Perm order')
    (hbalances : RealizesJustified f.toStore order →
      (environment.balancesByRoot f.unrealizedJustifiedCheckpoint.root).isOk) :
    ∃ last,
      (updateUnrealizedCheckpoints config order).runFrom (f.call environment) = (.ok (), last) ∧
      (updateUnrealizedCheckpoints config order').runFrom (f.call environment) =
        (.ok (), last) := by
  obtain ⟨hsound, hcov⟩ := covered_of_run run
  obtain ⟨balances, hok⟩ : ∃ balances, RealizesJustified f.toStore order →
      environment.balancesByRoot f.unrealizedJustifiedCheckpoint.root = .ok balances := by
    cases hlookup : environment.balancesByRoot f.unrealizedJustifiedCheckpoint.root with
    | ok balances => exact ⟨balances, fun _ ↦ rfl⟩
    | error err =>
      refine ⟨[], fun hrealizes ↦ ?_⟩
      have hlookup' := hbalances hrealizes
      rw [hlookup] at hlookup'
      simp [Except.isOk, Except.toBool] at hlookup'
  have htick {visited : List Root} (hsame : ∀ root, root ∈ order ↔ root ∈ visited) :
      wp (updateUnrealizedCheckpoints config visited) (fun out c' ↦
        out = .ok () ∧ c' = (f.call environment).ticked config balances order)
        (f.call environment) := by
    rw [ticked_congr fun root _ ↦ hsame root]
    apply CoveredExcept.updateUnrealizedCheckpoints hcov hsound
    rintro ⟨root, hmem, hnode⟩
    exact hok ⟨root, (hsame root).2 hmem, hnode⟩
  have hfirst := htick fun _ ↦ Iff.rfl
  have hsnd := htick fun _ ↦ hperm.mem_iff
  exact ⟨_, Prod.ext hfirst.1 hfirst.2, Prod.ext hsnd.1 hsnd.2⟩

theorem epoch_tick_order_independent_crossingStates :
    [1, 2, 3].Perm ([3, 1, 2] : List Root) ∧ ∃ last,
      (updateUnrealizedCheckpoints mainnetConfig [1, 2, 3]).runFrom
          ((afterCrossingStates 7 3).call (environmentAt none 0)) = (.ok (), last) ∧
        (updateUnrealizedCheckpoints mainnetConfig [3, 1, 2]).runFrom
          ((afterCrossingStates 7 3).call (environmentAt none 0)) = (.ok (), last) := by
  have hperm : [1, 2, 3].Perm ([3, 1, 2] : List Root) := by decide
  exact ⟨hperm, epoch_tick_order_independent mainnetConfig 0 (run_execute (perform mainnetConfig)
    (CheckpointsKept mainnetConfig) _ _ checkpointsKept_crossingStates) hperm fun _ ↦ rfl⟩

/-- The unrealized justified checkpoint has gone back from epoch 6 to epoch 5, and there are nodes
with either epoch.  The one with epoch 6 makes the store take the checkpoint of epoch 5 again if it
comes last. -/
theorem crossingStates_tick_orders_differ :
    ((updateUnrealizedCheckpoints mainnetConfig [1, 2, 3]).runFrom
        ((afterCrossingStates 5 3).call (environmentAt none 0))).2.prevJustifiedCheckpoint =
          ⟨0, 0⟩ ∧
      ((updateUnrealizedCheckpoints mainnetConfig [1, 3, 2]).runFrom
        ((afterCrossingStates 5 3).call (environmentAt none 0))).2.prevJustifiedCheckpoint =
          ⟨5, 1⟩ := by
  decide +kernel

end Prysm.DoublyLinkedTree
