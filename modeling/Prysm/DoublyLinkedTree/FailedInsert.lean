import Prysm.DoublyLinkedTree.Checkpoints

/-!
# What a failed insertion leaves behind

`InsertNode` can fail after it has begun to write.  The store is as it was before if and only if the
call fails before it writes anything, or because the parent is not known, or because the traversal
of the tree is cancelled, and the new node has not taken the place of another one in the map of the
payloads or had the boost already.
-/

namespace Prysm.DoublyLinkedTree

open List Library Action Call

/-- The nodes with their links, the payloads, the checkpoints and the boost are the same. -/
structure Unchanged (f f' : ForkChoice) : Prop where
  nodeByRoot : f'.nodeByRoot = f.nodeByRoot
  links : ∀ {root id}, f.nodeByRoot root = some id →
    parentOf f'.nodes id = parentOf f.nodes id ∧ childrenOf f'.nodes id = childrenOf f.nodes id
  nodeByPayload : f'.nodeByPayload = f.nodeByPayload
  justified : f'.justifiedCheckpoint = f.justifiedCheckpoint
  prevJustified : f'.prevJustifiedCheckpoint = f.prevJustifiedCheckpoint
  finalized : f'.finalizedCheckpoint = f.finalizedCheckpoint
  boost : f'.proposerBoostRoot = f.proposerBoostRoot

variable (config : BeaconChainConfig)

/-- The traversal of the tree, which visits the new node after each visit of its parent, is
cancelled. -/
def CancelsTraversal (c : Call) (parentId : NodeId) : Prop :=
  c.genesisTime ≤ c.clock 0 ∧
    (sinceSlotStart config (c.arrivalSlot config) c.genesisTime (c.clock 0)).isOk ∧
    ∃ passed ∈ c.ctx, passed < c.traversal.length + c.traversal.count parentId

/-- The new block with the given payload is refused, or it is taken out again without a trace. -/
def LeavesNoTrace (c : Call) (block : ROBlock) (payloadHash : Root) : Prop :=
  c.nodeByRoot block.root = none ∧ c.nodeByPayload payloadHash = none ∧
    match c.nodeByRoot block.parentRoot with
    | none => c.treeRootNode ≠ none
    | some parentId => CancelsTraversal config c parentId ∧
        (c.proposerBoostRoot ≠ block.root ∨ block.root = zeroHash)

/-- The calls of `InsertNode` whose failure leaves the store as it was. -/
def FailsCleanly (c : Call) (state : BeaconState) (block : ROBlock) : Prop :=
  state.currentJustifiedCheckpoint = none ∨ state.finalizedCheckpoint = none ∨
    match block.payloadHash with
    | .error _ => True
    | .ok payloadHash => LeavesNoTrace config c block payloadHash

variable {config : BeaconChainConfig} {block : ROBlock} {payloadHash : Root}
  {justified finalized : Epoch} {state : BeaconState} {jc fc : Checkpoint} {c c' : Call}
  {id parentId : NodeId} {n node parent : Node}

theorem length_flatMap_add_count {visit visit' : NodeId → List NodeId} (children : List NodeId)
    (hvisit : ∀ child ∈ children, (visit' child).length = (visit child).length +
      (visit child).count parentId) :
    (children.flatMap visit').length =
      (children.flatMap visit).length + (children.flatMap visit).count parentId := by
  induction children with
  | nil => rfl
  | cons child children ih =>
    simp only [flatMap_cons, length_append, count_append,
      hvisit child mem_cons_self, ih fun other hother ↦ hvisit other (mem_cons_of_mem _ hother)]
    omega

/-- A linked leaf is visited once more for each visit of its parent. -/
theorem length_visits_link (hfwd : Forward c.nodes) (hpar : parentId < c.nodes.length)
    (hchildren : node.children = []) {fuel : ℕ} (hid : id < c.nodes.length)
    (hfuel : c.nodes.length < fuel + id) :
    (visits (c.link node parentId).nodes fuel id).length =
      (visits c.nodes fuel id).length + (visits c.nodes fuel id).count parentId := by
  have hlink := childrenOf_link hpar hchildren
  induction fuel generalizing id with
  | zero => lia
  | succ fuel ih =>
    have hold :
        ((childrenOf c.nodes id).flatMap (visits (c.link node parentId).nodes fuel)).length =
        ((childrenOf c.nodes id).flatMap (visits c.nodes fuel)).length +
          ((childrenOf c.nodes id).flatMap (visits c.nodes fuel)).count parentId := by
      apply length_flatMap_add_count
      intro child hchild
      obtain ⟨hlt, hlen⟩ := hfwd.child hchild
      exact ih hlen (by lia)
    rw [visits, visits, hlink]
    by_cases heq : id = parentId
    · obtain ⟨fuel, rfl⟩ : ∃ depth, fuel = depth + 1 := Nat.exists_eq_add_one.2 (by lia)
      have hleaf : visits (c.link node parentId).nodes (fuel + 1) c.nodes.length =
          [c.nodes.length] := by
        rw [visits, hlink, if_neg hpar.ne', if_pos rfl]
        rfl
      simp only [heq, if_true, flatMap_append, flatMap_singleton, length_cons,
        length_append, hleaf, count_cons_self, length_nil] at hold ⊢
      omega
    · rw [if_neg heq, if_neg hid.ne, length_cons, length_cons, hold, count_cons_of_ne heq]
      lia

section

variable (hsound : Sound c)
include hsound

theorem length_traversal_linkAndBoost (hpar : c.nodeByRoot block.parentRoot = some parentId)
    (sss : ℕ) :
    (c.linkAndBoost config block payloadHash justified finalized parentId parent
      sss).traversal.length = c.traversal.length + c.traversal.count parentId := by
  obtain ⟨treeRoot, htree⟩ := Option.ne_none_iff_exists'.1 (hsound.planted hpar)
  have hroot := hsound.treeRoot htree
  have hvisits : c.traversal = visits c.nodes (c.nodes.length + 2) treeRoot := by
    simp only [Store.traversal, Store.treeRoot, htree, Option.getD_some, Store.depthBound]
    exact hsound.forward.visits_eq hroot (by lia) (by lia)
  have hlink : (visits (c.link (nodeFor config block payloadHash justified finalized c
      (some (parentId, parent))) parentId).nodes (c.nodes.length + 2) treeRoot).length = _ :=
    length_visits_link hsound.forward (hsound.index hpar) rfl hroot (by lia)
  rw [hvisits, ← hlink, linkAndBoost, boostFirst_eq]
  simp [Store.traversal, Store.treeRoot, Store.depthBound, tick, link, register, htree]

omit hsound in
theorem removeFromChildren_concat {children : List NodeId} (hmem : id ∉ children) :
    removeFromChildren (children ++ [id]) id = children := by
  unfold removeFromChildren
  split_ifs with hone hin
  · have hnil : children = [] := by simpa using hone
    exact hnil.symm
  · simp [idxOf_append, hmem]
  · simp at hin

omit hsound in
/-- The checkpoints do not have to be compared after an edit of the tree. -/
theorem EditsTree.unchanged_iff (hedits : EditsTree c c') :
    Unchanged c c' ↔ c'.nodeByRoot = c.nodeByRoot ∧
      (∀ root id, c.nodeByRoot root = some id → parentOf c'.nodes id = parentOf c.nodes id ∧
        childrenOf c'.nodes id = childrenOf c.nodes id) ∧
      c'.nodeByPayload = c.nodeByPayload ∧ c'.proposerBoostRoot = c.proposerBoostRoot := by
  constructor
  · intro hsame
    exact ⟨hsame.nodeByRoot, fun _ _ ↦ hsame.links, hsame.nodeByPayload, hsame.boost⟩
  · rintro ⟨hmap, hlinks, hpayload, hboost⟩
    refine ⟨hmap, hlinks _ _, hpayload, ?_, ?_, ?_, hboost⟩
    · rw [hedits]
    · rw [hedits]
    · rw [hedits]

theorem unchanged_refused_iff (hroot : c.nodeByRoot node.root = none) :
    Unchanged c ((c.register node).unregister node) ↔
      c.nodeByPayload node.payloadHash = none := by
  have hedits : EditsTree c ((c.register node).unregister node) := rfl
  have hmap : ((c.register node).unregister node).nodeByRoot = c.nodeByRoot := by
    simp [unregister, register, Function.update_eq_self_iff, hroot]
  have hpayload : ((c.register node).unregister node).nodeByPayload = c.nodeByPayload ↔
      c.nodeByPayload node.payloadHash = none := by
    simp [unregister, register, eq_comm]
  rw [hedits.unchanged_iff, hpayload]
  constructor
  · exact fun hsame ↦ hsame.2.2.1
  · refine fun hnone ↦ ⟨hmap, ?_, hnone, rfl⟩
    intro root id hid
    have hlt := hsound.index hid
    simp only [unregister, register]
    rw [parentOf_append, if_neg hlt.ne, childrenOf_append, if_neg hlt.ne]
    exact ⟨rfl, rfl⟩

variable {middle : Call}

/-- Linking a leaf to its parent and taking it out again restores the links. -/
theorem links_detach (hpar : parentId < c.nodes.length) (hchildren : node.children = [])
    (hsame : SameTree (c.link node parentId) middle) (hid : id < c.nodes.length) :
    parentOf (middle.detach c.nodes.length parentId).nodes id = parentOf c.nodes id ∧
      childrenOf (middle.detach c.nodes.length parentId).nodes id = childrenOf c.nodes id := by
  have hlink := childrenOf_link hpar hchildren
  constructor
  · obtain ⟨n, hnode⟩ : ∃ n, c.nodes[id]? = some n := ⟨_, getElem?_eq_getElem hid⟩
    obtain ⟨children, hnode'⟩ := link_node node parentId hnode
    rw [(shrinks_detach _ _).parentOf_eq, hsame.parentOf_eq, parentOf_eq hnode', parentOf_eq hnode]
  · rw [childrenOf_detach, hsame.childrenOf_eq, hlink parentId, if_pos rfl, hlink id, if_neg hid.ne]
    split_ifs with heq
    · rw [removeFromChildren_concat, heq]
      exact fun hmem ↦ (hsound.forward.child hmem).2.false
    · rfl

theorem unchanged_cancelled_iff (hroot : c.nodeByRoot block.root = none)
    (hpar : c.nodeByRoot block.parentRoot = some parentId) {sss : ℕ}
    (hrank : Reranked (c.linkAndBoost config block payloadHash justified finalized
      parentId parent sss) middle) :
    Unchanged c ((middle.detach c.nodes.length parentId).forget (nodeFor config block
      payloadHash justified finalized c (some (parentId, parent)))) ↔
      c.nodeByPayload payloadHash = none ∧
        (c.proposerBoostRoot ≠ block.root ∨ block.root = zeroHash) := by
  set node := nodeFor config block payloadHash justified finalized c (some (parentId, parent))
  have hboost : middle.proposerBoostRoot = c.proposerBoostRoot ∨
      c.proposerBoostRoot = zeroHash ∧ middle.proposerBoostRoot = block.root := by
    rw [hrank.same]
    unfold linkAndBoost boostFirst
    split_ifs with hfirst
    · exact .inr ⟨hfirst.2.2, rfl⟩
    · exact .inl rfl
  have hlinked : SameTree (c.link node parentId) (c.linkAndBoost config block payloadHash
      justified finalized parentId parent sss) := by
    rw [linkAndBoost, boostFirst_eq]
    exact .of_eq rfl rfl rfl
  have hsame := hlinked.trans hrank.recomputed.sameTree
  have hmap : middle.nodeByRoot = Function.update c.nodeByRoot block.root (some c.nodes.length) :=
    hsame.nodeByRoot
  have hpayload : middle.nodeByPayload =
      Function.update c.nodeByPayload payloadHash (some c.nodes.length) := by
    rw [hrank.same, linkAndBoost, boostFirst_eq]
    rfl
  set last := (middle.detach c.nodes.length parentId).forget node
  have hedits : EditsTree c last := by
    have hmid : EditsTree c middle := by
      rw [hrank.same, linkAndBoost, boostFirst_eq]
      rfl
    exact hmid.trans rfl
  rw [hedits.unchanged_iff]
  have hmap' : last.nodeByRoot = c.nodeByRoot := by
    simp [last, Call.forget, detach, hmap, node, nodeFor, newNode, hroot]
  have hpayload' : last.nodeByPayload = c.nodeByPayload ↔ c.nodeByPayload payloadHash = none := by
    simp [last, Call.forget, detach, hpayload, node, nodeFor, newNode, eq_comm]
  have hboost' : last.proposerBoostRoot = c.proposerBoostRoot ↔
      c.proposerBoostRoot ≠ block.root ∨ block.root = zeroHash := by
    simp only [last, Call.forget, detach, node, nodeFor, newNode]
    grind
  rw [hpayload', hboost']
  constructor
  · exact fun hsame' ↦ hsame'.2.2
  · refine fun hnone ↦ ⟨hmap', fun root id hid ↦ ?_, hnone⟩
    exact links_detach hsound (hsound.index hpar) rfl hsame (hsound.index hid)

omit hsound in
/-- Taking the node out again keeps what does not depend on the tree. -/
theorem wp_orRemove_failed {op : Op Unit} {format : String} {Failed : Call → Prop}
    (hop : wp op (fun out c' ↦ out ≠ .ok () → Failed c') c)
    (hedits : ∀ {c c' : Call}, EditsTree c c' → Failed c → Failed c') :
    wp (orRemove id format op) (fun out c' ↦ out ≠ .ok () → Failed c') c := by
  rw [orRemove, wp_bind, wp_attempt]
  apply hop.mono
  intro out last hlast
  rw [whenOk_ok]
  split
  · exact fun hne ↦ absurd rfl hne
  · rw [wp_bind, wp_attempt]
    apply (shrinks_removeNode id last (.refl last)).mono
    exact fun _ last' hshrinks _ ↦ hedits hshrinks.editsTree (hlast (by simp))
  · exact fun _ ↦ hlast (by simp)

/-- A failure after the node was inserted has moved a checkpoint. -/
theorem Sound.pullUp (hnode : c.nodes[id]? = some n) :
    wp (pullUp config state id jc fc) (fun out c' ↦ out ≠ .ok () →
      c.justifiedCheckpoint.epoch < c'.justifiedCheckpoint.epoch ∨
        c.finalizedCheckpoint.epoch < c'.finalizedCheckpoint.epoch) c := by
  rw [DoublyLinkedTree.pullUp, wp_bind]
  apply hsound.pullTips hnode
  · intro _
    exact wp_orRemove_failed (hsound.updateCheckpoints.mono fun _ _ hlast ↦ hlast.2)
      fun hedits hmoved ↦ by rwa [hedits]
  · intro parentId parent checkpoints middle _ _ hpulled
    rw [whenOk_ok]
    apply wp_orRemove_failed
    · apply (hpulled.sound hsound).updateCheckpoints.mono
      intro out last hlast
      have hmoved := hlast.2
      rw [hpulled.same] at hmoved
      exact hmoved
    · exact fun hedits hmoved ↦ by rwa [hedits]

omit hsound in
/-- The end of `InsertNode` after the node was found or inserted. -/
theorem EditsTree.pullUp_changes (hedits : EditsTree c middle) (hsound : Sound middle)
    (hnode : middle.nodes[id]? = some n) :
    wp (pullUp config state id jc fc) (fun out c' ↦ (∃ fault, out = .error fault) →
      ¬Unchanged c c') middle := by
  apply (hsound.pullUp hnode).mono
  rintro out last hmoved ⟨fault, rfl⟩ hsame
  have hmoved := hmoved (by simp)
  rw [hedits, hsame.justified, hsame.finalized] at hmoved
  exact hmoved.elim (lt_irrefl _) (lt_irrefl _)

theorem InsertResult.stays {out : Except Fault NodeId}
    (hres : InsertResult config block payloadHash justified finalized c out c')
    (hok : out = .ok id) :
    EditsTree c c' ∧ Sound c' ∧ (∃ n, c'.nodes[id]? = some n) ∧
      ¬LeavesNoTrace config c block payloadHash := by
  obtain ⟨middle, hins, hshrinks⟩ := hres.exists_inserted
  have hlt : c.nodes.length < c'.nodes.length := hshrinks.size ▸ hins.length_lt
  have hid : c.nodes.length = id := by cases hres <;> simp_all
  refine ⟨hins.editsTree.trans hshrinks.editsTree,
    (hsound.of_inserted hins).of_shrinks hshrinks, ⟨_, getElem?_eq_getElem (hid ▸ hlt)⟩,
    fun ⟨_, _, htrace⟩ ↦ ?_⟩
  cases hres with
  | refused | unclocked | cancelled => simp at hok
  | planted hpar htree => simp [hpar, htree] at htrace
  | early hpar hnode hearly =>
    simp only [hpar] at htrace
    exact absurd hearly (not_lt.2 htrace.1.1)
  | inserted hpar hnode hgen hclock hctx =>
    -- The context had all the checks that the traversal spends.
    simp only [hpar] at htrace
    obtain ⟨-, -, passed, hpassed, hlt⟩ := htrace.1
    rw [hctx, length_traversal_linkAndBoost hsound hpar] at hpassed
    obtain ⟨rest, -, rfl⟩ := Option.map_eq_some_iff.1 hpassed
    omega

theorem InsertResult.unchanged_iff {fault : Fault} (hroot : c.nodeByRoot block.root = none)
    (hres : InsertResult config block payloadHash justified finalized c (.error fault) c') :
    Unchanged c c' ↔ LeavesNoTrace config c block payloadHash := by
  cases hres with
  | refused hpar htree =>
    rw [unchanged_refused_iff hsound (by exact hroot)]
    simp [LeavesNoTrace, hroot, hpar, htree, nodeFor, newNode]
  | unclocked hpar hnode hgen hclock =>
    refine iff_of_false (fun hsame ↦ ?_) (fun htrace ↦ ?_)
    · have hmap := congrFun hsame.nodeByRoot block.root
      rw [hroot] at hmap
      simp [tick, link, register, nodeFor, newNode] at hmap
    · obtain ⟨-, -, htrace⟩ := htrace
      simp only [hpar] at htrace
      have hok := htrace.1.2.1
      rw [hclock] at hok
      simp [Except.isOk, Except.toBool] at hok
  | cancelled hpar hnode hgen hclock hctx hpassed hrank =>
    rw [unchanged_cancelled_iff hsound hroot hpar hrank]
    rw [length_traversal_linkAndBoost hsound hpar] at hpassed
    simp only [LeavesNoTrace, hroot, hpar, CancelsTraversal, true_and]
    refine and_congr_right fun _ ↦ (and_iff_right ⟨hgen, ?_, _, hctx, hpassed⟩).symm
    rw [hclock]
    rfl

theorem Sound.insertNode_unchanged_iff :
    wp (insertNode config state block) (fun out c' ↦ (∃ fault, out = .error fault) →
      (Unchanged c c' ↔ FailsCleanly config c state block)) c := by
  have hsame : Unchanged c c :=
    ⟨rfl, fun _ ↦ ⟨rfl, rfl⟩, rfl, rfl, rfl, rfl, rfl⟩
  unfold DoublyLinkedTree.insertNode
  split
  · rename_i jc fc hjc hfc
    have hcleanly : FailsCleanly config c state block ↔ (match block.payloadHash with
        | .error _ => True
        | .ok payloadHash => LeavesNoTrace config c block payloadHash) := by
      simp [FailsCleanly, hjc, hfc]
    rw [hcleanly, wp_bind, DoublyLinkedTree.insert, wp_bind, wp_ofExcept]
    cases block.payloadHash with
    | error fault => exact fun _ ↦ iff_of_true hsame trivial
    | ok payloadHash =>
      rw [whenOk_ok, wp_bind, wp_get, whenOk_ok]
      cases hroot : c.nodeByRoot block.root with
      | some id =>
        have hnode := getElem?_eq_getElem (hsound.index hroot)
        simp only [wp_pure, whenOk_ok]
        apply ((EditsTree.refl c).pullUp_changes hsound hnode).mono
        intro out last hchanges hfault
        exact iff_of_false (hchanges hfault) fun htrace ↦ by simp [LeavesNoTrace, hroot] at htrace
      | none =>
        apply hsound.insertNew.mono
        intro out middle hres
        cases out with
        | error fault => exact fun _ ↦ hres.unchanged_iff hsound hroot
        | ok id =>
          obtain ⟨hedits, hmid, ⟨n, hnode⟩, htrace⟩ := hres.stays hsound rfl
          rw [whenOk_ok]
          apply (hedits.pullUp_changes hmid hnode).mono
          intro out last hchanges hfault
          exact iff_of_false (hchanges hfault) htrace
  · rename_i hnil
    refine fun _ ↦ iff_of_true hsame ?_
    unfold FailsCleanly
    cases hjc : state.currentJustifiedCheckpoint with
    | none => exact .inl rfl
    | some jc =>
      cases hfc : state.finalizedCheckpoint with
      | none => exact .inr (.inl rfl)
      | some fc => exact (hnil jc fc hjc hfc).elim

end

/-- A call of `InsertNode` that fails leaves the store as it was if and only if it fails cleanly. -/
theorem failed_insertNode_unchanged_iff (config : BeaconChainConfig) {f : ForkChoice}
    (hsound : Sound f.toStore) {state : BeaconState} {block : ROBlock} {environment : Environment}
    {fault : Fault}
    (hfault : (perform config f (.insertNode state block, environment)).1.outcome = .error fault) :
    Unchanged f (perform config f (.insertNode state block, environment)).2 ↔
      FailsCleanly config (f.call environment) state block := by
  have hperform : wp ((Request.insertNode state block).op config) (fun out c' ↦
      (∃ fault, out = .error fault) →
        (Unchanged f c' ↔ FailsCleanly config (f.call environment) state block))
      (f.call environment) := by
    rw [Request.op, wp_map]
    apply (Sound.insertNode_unchanged_iff (c := f.call environment) hsound).mono
    intro out last hiff
    cases out with
    | ok _ =>
      rintro ⟨fault, hfault⟩
      cases hfault
    | error fault => exact fun _ ↦ hiff ⟨fault, rfl⟩
  exact hperform ⟨fault, hfault⟩

/-- A block with the given root and parent is inserted with the state of the second block of
`crossingStates`, whose checkpoints are now realized, and a handler that fails. -/
def insertAgain (root parentRoot : Root) : Request × Environment :=
  (.insertNode ⟨320, some ⟨6, 1⟩, some ⟨1, 1⟩, .ok (⟨6, 1⟩, ⟨1, 1⟩)⟩
      ⟨root, 320, parentRoot, some (.ok root)⟩,
    { environmentAt none (3840 * second) with
      balancesByRoot := fun _ ↦ .error (.errorf "no balances" []) })

theorem failed_insertNode_unchanged_iff_unknown_parent :
    Unchanged (afterCrossingStates 7 3)
      (perform mainnetConfig (afterCrossingStates 7 3) (insertAgain 4 9)).2 := by
  have hsound : Sound (afterCrossingStates 7 3).toStore :=
    (covered_of_run (run_execute (perform mainnetConfig) (CheckpointsKept mainnetConfig) _ _
      checkpointsKept_crossingStates)).1
  have htree : (afterCrossingStates 7 3).treeRootNode ≠ none := by decide +kernel
  exact (failed_insertNode_unchanged_iff mainnetConfig hsound rfl).2
    (.inr (.inr ⟨by decide +kernel, by decide +kernel, htree⟩))

/-- The second block is in the store.  The call fails, takes it out of the store, and leaves the
justified checkpoint of the state behind. -/
theorem insertAgain_removes_block :
    (∃ fault, (perform mainnetConfig (afterCrossingStates 7 3) (insertAgain 2 1)).1.outcome =
      .error fault) ∧
    (afterCrossingStates 7 3).nodeByRoot 2 ≠ none ∧
    (perform mainnetConfig (afterCrossingStates 7 3) (insertAgain 2 1)).2.nodeByRoot 2 = none ∧
    (afterCrossingStates 7 3).justifiedCheckpoint = ⟨0, 0⟩ ∧
    (perform mainnetConfig (afterCrossingStates 7 3) (insertAgain 2 1)).2.justifiedCheckpoint =
      ⟨6, 1⟩ := by
  refine ⟨⟨_, rfl⟩, ?_, ?_, ?_, ?_⟩
  all_goals decide +kernel

end Prysm.DoublyLinkedTree
