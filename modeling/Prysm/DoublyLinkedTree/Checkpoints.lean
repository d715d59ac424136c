import Prysm.DoublyLinkedTree.Insertion

/-!
# The checkpoints of the store

`InsertNode` takes the checkpoints of a state and those that its epoch would realize into the store,
and `NewSlot` makes the realized checkpoints catch up with the unrealized ones at the start of an
epoch.  The epochs of the checkpoints never decrease when the unrealized epochs of all the nodes are
covered by those of the checkpoints, which the insertions establish under a condition on the states
they are given.
-/

namespace Prysm.DoublyLinkedTree

open Library Action Option

/-- The epochs of the checkpoints are not below those of an earlier store. -/
structure NotBehind (s s' : Store) : Prop where
  justified : s.justifiedCheckpoint.epoch ≤ s'.justifiedCheckpoint.epoch
  finalized : s.finalizedCheckpoint.epoch ≤ s'.finalizedCheckpoint.epoch
  unrealizedJustified :
    s.unrealizedJustifiedCheckpoint.epoch ≤ s'.unrealizedJustifiedCheckpoint.epoch
  unrealizedFinalized :
    s.unrealizedFinalizedCheckpoint.epoch ≤ s'.unrealizedFinalizedCheckpoint.epoch

/-- The node is in the map or the parent of a node. -/
def Tracked (s : Store) (id : NodeId) : Prop :=
  (∃ root, s.nodeByRoot root = some id) ∨ ∃ child, parentOf s.nodes child = some id

/-- The unrealized epochs of the node are not above those of the checkpoints. -/
structure Covered (s : Store) (n : Node) : Prop where
  justified : n.unrealizedJustifiedEpoch ≤
    max s.unrealizedJustifiedCheckpoint.epoch s.justifiedCheckpoint.epoch
  finalized : n.unrealizedFinalizedEpoch ≤
    max s.unrealizedFinalizedCheckpoint.epoch s.finalizedCheckpoint.epoch

/-- The tracked nodes, with at most one exception, are covered. -/
def CoveredExcept (s : Store) (exception : Option NodeId) : Prop :=
  ∀ id n, Tracked s id → some id ≠ exception → s.nodes[id]? = some n → Covered s n

/-- The tracked nodes of the later store were tracked before and have kept their unrealized epochs.
-/
def Retains (s s' : Store) : Prop :=
  ∀ id n', Tracked s' id → s'.nodes[id]? = some n' → Tracked s id ∧ ∃ n, s.nodes[id]? = some n ∧
    n'.unrealizedJustifiedEpoch = n.unrealizedJustifiedEpoch ∧
    n'.unrealizedFinalizedEpoch = n.unrealizedFinalizedEpoch

/-- Only the tree and its maps, the boost and what the call has left of its environment differ. -/
def EditsTree (c c' : Call) : Prop :=
  c' = { c with
    nodes := c'.nodes, nodeByRoot := c'.nodeByRoot, nodeByPayload := c'.nodeByPayload,
    treeRootNode := c'.treeRootNode, headNode := c'.headNode,
    highestReceivedNode := c'.highestReceivedNode,
    receivedBlocksLastEpoch := c'.receivedBlocksLastEpoch,
    proposerBoostRoot := c'.proposerBoostRoot,
    previousProposerBoostRoot := c'.previousProposerBoostRoot,
    previousProposerBoostScore := c'.previousProposerBoostScore, ctx := c'.ctx, clock := c'.clock }

variable {post : Except Fault Unit → Call → Prop} {change : Node → Node}

section Relations

variable {s s' s'' : Store} {c c' c'' : Call} {n : Node} {exception : Option NodeId}

theorem NotBehind.refl (s : Store) : NotBehind s s := ⟨le_rfl, le_rfl, le_rfl, le_rfl⟩

theorem NotBehind.trans (hfirst : NotBehind s s') (hsnd : NotBehind s' s'') : NotBehind s s'' where
  justified := hfirst.justified.trans hsnd.justified
  finalized := hfirst.finalized.trans hsnd.finalized
  unrealizedJustified := hfirst.unrealizedJustified.trans hsnd.unrealizedJustified
  unrealizedFinalized := hfirst.unrealizedFinalized.trans hsnd.unrealizedFinalized

theorem Covered.mono (hcovered : Covered s n) (hnot : NotBehind s s') : Covered s' n where
  justified := hcovered.justified.trans
    (max_le_max hnot.unrealizedJustified hnot.justified)
  finalized := hcovered.finalized.trans
    (max_le_max hnot.unrealizedFinalized hnot.finalized)

theorem Retains.refl (s : Store) : Retains s s :=
  fun _ n' htracked hnode ↦ ⟨htracked, n', hnode, rfl, rfl⟩

theorem Retains.trans (hfirst : Retains s s') (hsnd : Retains s' s'') : Retains s s'' := by
  intro id n'' htracked hnode''
  obtain ⟨htracked', n', hnode', hjust', hfin'⟩ := hsnd id n'' htracked hnode''
  obtain ⟨htracked, n, hnode, hjust, hfin⟩ := hfirst id n' htracked' hnode'
  grind

theorem CoveredExcept.of_retains (hcovered : CoveredExcept s exception) (hretains : Retains s s')
    (hnot : NotBehind s s') : CoveredExcept s' exception := by
  intro id n' htracked hne hnode'
  obtain ⟨htracked', n, hnode, hjust, hfin⟩ := hretains id n' htracked hnode'
  have hn := (hcovered id n htracked' hne hnode).mono hnot
  exact ⟨hjust ▸ hn.justified, hfin ▸ hn.finalized⟩

theorem Tracked.of_update {id other : NodeId} (hnodes : s'.nodes = s.nodes.modify id change)
    (hmap : s'.nodeByRoot = s.nodeByRoot) (hpar : ∀ n, (change n).parent = n.parent)
    (htracked : Tracked s' other) : Tracked s other := by
  obtain ⟨root, hroot⟩ | ⟨child, hchild⟩ := htracked
  · exact .inl ⟨root, hmap ▸ hroot⟩
  · rw [hnodes, parentOf_modify_of_eq hpar] at hchild
    exact .inr ⟨child, hchild⟩

theorem Retains.of_eq (hnodes : s'.nodes = s.nodes) (hmap : s'.nodeByRoot = s.nodeByRoot) :
    Retains s s' := by
  intro id n' htracked hnode
  rw [Tracked, hnodes, hmap] at htracked
  exact ⟨htracked, n', hnodes ▸ hnode, rfl, rfl⟩

/-- Writing a node without changing its unrealized epochs. -/
theorem Retains.of_update {id : NodeId} (hnodes : s'.nodes = s.nodes.modify id change)
    (hmap : s'.nodeByRoot = s.nodeByRoot) (hchange : ∀ n, (change n).parent = n.parent ∧
      (change n).unrealizedJustifiedEpoch = n.unrealizedJustifiedEpoch ∧
      (change n).unrealizedFinalizedEpoch = n.unrealizedFinalizedEpoch) : Retains s s' := by
  intro other n' htracked hnode'
  refine ⟨htracked.of_update hnodes hmap fun n ↦ (hchange n).1, ?_⟩
  rw [hnodes, List.getElem?_modify] at hnode'
  obtain ⟨n, hnode, rfl⟩ := map_eq_some_iff.1 hnode'
  grind

theorem EditsTree.refl (c : Call) : EditsTree c c := rfl

theorem EditsTree.trans (hfirst : EditsTree c c') (hsnd : EditsTree c' c'') : EditsTree c c'' := by
  unfold EditsTree at *
  rw [hsnd, hfirst]

theorem Shrinks.editsTree (hshrinks : Shrinks c c') : EditsTree c c' := by
  unfold EditsTree
  rw [hshrinks.same]

theorem Shrinks.retains (hshrinks : Shrinks c c') : Retains c c' := by
  intro id n' htracked hnode'
  obtain ⟨n, hnode, hn⟩ := hshrinks.node_of_later hnode'
  refine ⟨?_, n, hnode, by rw [hn.same], by rw [hn.same]⟩
  obtain ⟨root, hroot⟩ | ⟨child, hchild⟩ := htracked
  · exact .inl ⟨root, hshrinks.nodeByRoot_of_later hroot⟩
  · exact .inr ⟨child, hshrinks.parentOf_eq child ▸ hchild⟩

theorem EditsTree.notBehind (hedits : EditsTree c c') : NotBehind c c' := by
  rw [hedits]
  exact ⟨le_rfl, le_rfl, le_rfl, le_rfl⟩

/-- A step that only edits the tree keeps the nodes covered. -/
theorem CoveredExcept.of_shrinks (hcovered : CoveredExcept c exception)
    (hshrinks : Shrinks c c') : CoveredExcept c' exception :=
  hcovered.of_retains hshrinks.retains hshrinks.editsTree.notBehind

theorem retains_reroot (final : NodeId) : Retains c (c.reroot final) := by
  intro id n' htracked hnode'
  obtain ⟨n, parent, hnode, rfl⟩ := reroot_node hnode'
  refine ⟨?_, n, hnode, rfl, rfl⟩
  obtain ⟨root, hroot⟩ | ⟨child, hchild⟩ := htracked
  · exact .inl ⟨root, hroot⟩
  · exact .inr ⟨child, reroot_parentOf hchild⟩

theorem wp_prune_retains (config : BeaconChainConfig) :
    wp (prune config) (fun _ c' ↦ EditsTree c c' ∧ Retains c c') c := by
  apply (wp_prune config).mono
  intro out last hlast
  obtain hshrinks | ⟨final, middle, -, -, -, hmid, hshrinks⟩ := hlast
  · exact ⟨hshrinks.editsTree, hshrinks.retains⟩
  · have hreroot : EditsTree middle (middle.reroot final) := rfl
    exact ⟨hmid.editsTree.trans (hreroot.trans hshrinks.editsTree),
      hmid.retains.trans ((retains_reroot final).trans hshrinks.retains)⟩

end Relations

section Insert

variable {config : BeaconChainConfig} {block : ROBlock} {payload : Root}
  {justified finalized : Epoch} {c c' middle : Call} {id : NodeId} {node : Node}

theorem Inserted.editsTree (hins : Inserted config block payload justified finalized c c') :
    EditsTree c c' := by
  cases hins <;> rfl

variable (hsound : Sound c)
include hsound

theorem Appends.tracked_parent (happ : Appends c node c')
    {child : NodeId} (hchild : parentOf c'.nodes child = some id) :
    Tracked c id ∧ id < c.nodes.length := by
  by_cases heq : child = c.nodes.length
  · rw [heq, parentOf_eq happ.new] at hchild
    obtain ⟨root, hroot⟩ := happ.parent hchild
    exact ⟨.inl ⟨root, hroot⟩, hsound.index hroot⟩
  · have hold := happ.parentOf_of_later hchild heq
    exact ⟨.inr ⟨child, hold⟩, hsound.parent_lt_length hold⟩

theorem Appends.tracked (happ : Appends c node c')
    (htracked : Tracked c' id) (hid : id ≠ c.nodes.length) : Tracked c id := by
  obtain ⟨root, hroot⟩ | ⟨child, hchild⟩ := htracked
  · by_cases heq : root = node.root
    · exact absurd (happ.entry (heq ▸ hroot)) hid
    · exact .inl ⟨root, happ.other heq ▸ hroot⟩
  · exact (happ.tracked_parent hsound hchild).1

variable (hcovered : CoveredExcept c none)
include hcovered

/-- After an insertion all the nodes but the new one are covered. -/
theorem CoveredExcept.of_inserted (hins : Inserted config block payload justified finalized c c') :
    CoveredExcept c' (some c.nodes.length) := by
  obtain ⟨parent, happ⟩ := hins.appends hsound.index
  intro id n' htracked hne hnode'
  have hid : id ≠ c.nodes.length := fun heq ↦ hne (congrArg some heq)
  have hold := happ.tracked hsound htracked hid
  obtain ⟨n, children, hnode, rfl⟩ := happ.node_of_later hnode' hid
  have hn := (hcovered id n hold (by simp) hnode).mono hins.editsTree.notBehind
  exact ⟨hn.justified, hn.finalized⟩

/-- A node that has left the map does not matter if it is the newest one. -/
theorem CoveredExcept.of_forgotten
    (hins : Inserted config block payload justified finalized c middle)
    (hshrinks : Shrinks middle c') (hgone : c'.nodeByRoot block.root = none) :
    CoveredExcept c' none := by
  have hcovered' := (hcovered.of_inserted hsound hins).of_shrinks hshrinks
  intro id n htracked _ hnode
  apply hcovered' id n htracked _ hnode
  intro heq
  obtain rfl := some.inj heq
  obtain ⟨parent, happ⟩ := hins.appends hsound.index
  obtain ⟨root, hroot⟩ | ⟨child, hchild⟩ := htracked
  · by_cases hnew : root = block.root
    · simp [← hnew, hroot] at hgone
    · have hold := happ.other hnew ▸ hshrinks.nodeByRoot_of_later hroot
      exact (hsound.index hold).false
  · rw [hshrinks.parentOf_eq] at hchild
    exact (happ.tracked_parent hsound hchild).2.false

/-- The clock does not go on to the next slot between its first two readings, or it is before
genesis. -/
def ClockSteady (config : BeaconChainConfig) (c : Call) : Prop :=
  c.clock 0 < c.genesisTime ∨
    (sinceSlotStart config (c.arrivalSlot config) c.genesisTime (c.clock 0)).isOk

/-- After `insert` at most the node that it returns is left to be covered, and a node without a
parent is new only in an empty tree. -/
def InsertCovers (justifiedEpoch finalizedEpoch : Epoch) (c : Call) :
    Except Fault NodeId → Call → Prop
  | .error _, c' => CoveredExcept c' none
  | .ok id, c' => CoveredExcept c' (some id) ∧ ∃ n, c'.nodes[id]? = some n ∧
      (n.parent = none → Covered c' n ∨ c.treeRootNode = none ∧
        n.unrealizedJustifiedEpoch = justifiedEpoch ∧ n.unrealizedFinalizedEpoch = finalizedEpoch)

theorem CoveredExcept.insertNew (hsteady : ClockSteady config c) :
    wp (insertNew config block payload justified finalized) (fun out c' ↦
      EditsTree c c' ∧ Sound c' ∧ InsertCovers justified finalized c out c')
      c := by
  apply hsound.insertNew.mono
  intro out last hres
  obtain ⟨middle, hins, hshrinks⟩ := hres.exists_inserted
  refine ⟨hins.editsTree.trans hshrinks.editsTree,
    (hsound.of_inserted hins).of_shrinks hshrinks, ?_⟩
  have hcovered' := (hcovered.of_inserted hsound hins).of_shrinks hshrinks
  have hleaves := hcovered.of_forgotten hsound hins hshrinks
  cases hres with
  | refused hpar htree =>
    apply hleaves
    simp [Call.unregister, nodeFor, newNode]
  | planted hpar htree hleft =>
    obtain ⟨n, hnew, hn⟩ := hleft.node plant_new
    refine ⟨hcovered', n, hnew, fun _ ↦ .inr ?_⟩
    rw [hn.same]
    exact ⟨htree, rfl, rfl⟩
  | early hpar hnode hearly =>
    refine ⟨hcovered', _, link_new (hsound.index hpar), ?_⟩
    simp [nodeFor, newNode]
  | unclocked hpar hnode hgen hclock =>
    obtain hearly | hok := hsteady
    · exact absurd hgen (not_le.2 hearly)
    · rw [hclock] at hok
      simp [Except.isOk, Except.toBool] at hok
  | cancelled =>
    apply hleaves
    simp [Call.forget, nodeFor, newNode]
  | inserted hpar hnode hgen hclock hctx hleft =>
    obtain ⟨n, hnew, hn⟩ := hleft.node (linkAndBoost_new (hsound.index hpar))
    refine ⟨hcovered', n, hnew, ?_⟩
    rw [hn.same]
    simp [nodeFor, newNode]

theorem CoveredExcept.insert (hsteady : ClockSteady config c) :
    wp (insert config block justified finalized) (fun out c' ↦
      EditsTree c c' ∧ Sound c' ∧ InsertCovers justified finalized c out c')
      c := by
  rw [DoublyLinkedTree.insert, wp_bind, wp_ofExcept]
  cases block.payloadHash with
  | error fault => exact ⟨.refl c, hsound, hcovered⟩
  | ok payload =>
    rw [whenOk_ok, wp_bind, wp_get, whenOk_ok]
    cases hroot : c.nodeByRoot block.root with
    | none => exact hcovered.insertNew hsound hsteady
    | some id =>
      have hnode := List.getElem?_eq_getElem (hsound.index hroot)
      refine ⟨.refl c, hsound, fun other n htracked _ ↦ hcovered other n htracked (by simp), _,
        hnode, fun _ ↦ .inl (hcovered id _ (.inl ⟨_, hroot⟩) (by simp) hnode)⟩

end Insert

variable {s : Store}

section PullTips

variable {config : BeaconChainConfig} {state : BeaconState} {c : Call} {id : NodeId} {n : Node}
  {jc fc : Checkpoint}

/-- The node takes the unrealized epochs of its parent. -/
def Call.copyEpochs (id : NodeId) (parent : Node) (c : Call) : Call :=
  { c.tick with
    nodes := c.nodes.modify id fun node ↦ { node with
      unrealizedJustifiedEpoch := parent.unrealizedJustifiedEpoch
      unrealizedFinalizedEpoch := parent.unrealizedFinalizedEpoch } }

section

variable (id : NodeId) (unrealized : Checkpoint × Checkpoint) (c : Call)

/-- The node and the store take the unrealized checkpoints of the state. -/
def Call.unrealize : Call :=
  { c.tick with
    toStore := { c.toStore.withUnrealized unrealized.1 unrealized.2 with
      nodes := c.nodes.modify id fun node ↦ { node with
        unrealizedJustifiedEpoch := unrealized.1.epoch
        unrealizedFinalizedEpoch := unrealized.2.epoch } } }

/-- The node realizes the unrealized checkpoints at once. -/
def Call.realizeNode : Call :=
  { c with
    nodes := c.nodes.modify id fun node ↦ { node with
      justifiedEpoch := unrealized.1.epoch, finalizedEpoch := unrealized.2.epoch } }

end

/-- What `pullTips` returns and does for a node with a parent. -/
inductive Pulled (state : BeaconState) (jc fc : Checkpoint) (id : NodeId) (parent : Node)
    (c : Call) : Checkpoint × Checkpoint → Call → Prop
  | copied : Pulled state jc fc id parent c (jc, fc) (c.copyEpochs id parent)
  | unrealized : Pulled state jc fc id parent c (jc, fc) (c.unrealize id (state.unrealizedOr jc fc))
  | realized : Pulled state jc fc id parent c (state.unrealizedOr jc fc)
      ((c.unrealize id (state.unrealizedOr jc fc)).realizeNode id (state.unrealizedOr jc fc))

/-- On a sound store `pullTips` returns. -/
theorem Sound.pullTips {post : Except Fault (Checkpoint × Checkpoint) → Call → Prop}
    (hsound : Sound c) (hnode : c.nodes[id]? = some n)
    (horphan : n.parent = none → post (.ok (jc, fc)) c)
    (hpulled : ∀ parentId parent checkpoints c', n.parent = some parentId →
      c.nodes[parentId]? = some parent → Pulled state jc fc id parent c checkpoints c' →
      post (.ok checkpoints) c') : wp (pullTips config state id jc fc) post c := by
  rw [DoublyLinkedTree.pullTips, wp_bind, wp_load hnode, whenOk_ok]
  cases hlink : n.parent with
  | none => exact horphan hlink
  | some parentId =>
    obtain ⟨parent, hpar⟩ : ∃ parent, c.nodes[parentId]? = some parent :=
      ⟨_, List.getElem?_eq_getElem (hsound.parent_lt_length ((parentOf_eq hnode).trans hlink))⟩
    have hload : c.tick.nodes[parentId]? = some parent := hpar
    simp only [wp_bind, wp_currentSlot, whenOk_ok, wp_load hload]
    split_ifs with hcopy hrealize
    · exact hpulled parentId parent _ _ hlink hpar .copied
    · exact hpulled parentId parent _ _ hlink hpar .realized
    · exact hpulled parentId parent _ _ hlink hpar .unrealized

variable {parent : Node} {checkpoints : Checkpoint × Checkpoint} {c' : Call}

theorem Pulled.sound (hpulled : Pulled state jc fc id parent c checkpoints c')
    (hsound : Sound c) : Sound c' := by
  have hunrealize : Sound (c.unrealize id (state.unrealizedOr jc fc)) :=
    hsound.of_update rfl rfl rfl rfl (fun _ ↦ rfl) (fun _ ↦ rfl) fun _ ↦ rfl
  cases hpulled with
  | copied => exact hsound.of_update rfl rfl rfl rfl (fun _ ↦ rfl) (fun _ ↦ rfl) fun _ ↦ rfl
  | unrealized => exact hunrealize
  | realized => exact hunrealize.of_update rfl rfl rfl rfl (fun _ ↦ rfl) (fun _ ↦ rfl) fun _ ↦ rfl

/-- Only the nodes and the unrealized checkpoints, and the readings of the clock, differ. -/
theorem Pulled.same (hpulled : Pulled state jc fc id parent c checkpoints c') : c' = { c with
    nodes := c'.nodes, unrealizedJustifiedCheckpoint := c'.unrealizedJustifiedCheckpoint,
    unrealizedFinalizedCheckpoint := c'.unrealizedFinalizedCheckpoint, clock := c'.clock } := by
  cases hpulled <;> rfl

/-- A state whose unrealized checkpoints do not take the store's back: a greater finalized epoch
comes with a justified epoch that is not smaller. -/
def KeepsUnrealized (s : Store) (unrealized : Checkpoint × Checkpoint) : Prop :=
  s.unrealizedFinalizedCheckpoint.epoch < unrealized.2.epoch →
    s.unrealizedJustifiedCheckpoint.epoch ≤ unrealized.1.epoch

theorem NotBehind.withUnrealized {unrealized : Checkpoint × Checkpoint}
    (hkeeps : KeepsUnrealized s unrealized) :
    NotBehind s (s.withUnrealized unrealized.1 unrealized.2) where
  justified := le_rfl
  finalized := le_rfl
  unrealizedJustified := by
    simp only [Store.withUnrealized]
    split_ifs with hgt
    · obtain hfin | hjust := hgt
      · exact hkeeps hfin
      · exact hjust.le
    · exact le_rfl
  unrealizedFinalized := by
    simp only [Store.withUnrealized]
    grind

theorem Pulled.notBehind (hpulled : Pulled state jc fc id parent c checkpoints c')
    (hkeeps : KeepsUnrealized c (state.unrealizedOr jc fc)) : NotBehind c c' := by
  have hstore := NotBehind.withUnrealized hkeeps
  cases hpulled with
  | copied => exact ⟨le_rfl, le_rfl, le_rfl, le_rfl⟩
  | unrealized | realized =>
    exact ⟨le_rfl, le_rfl, hstore.unrealizedJustified, hstore.unrealizedFinalized⟩

/-- The last node is covered when its epochs are written. -/
theorem CoveredExcept.of_update {s s' : Store} (hcovered : CoveredExcept s (some id))
    (hnodes : s'.nodes = s.nodes.modify id change) (hmap : s'.nodeByRoot = s.nodeByRoot)
    (hpar : ∀ n, (change n).parent = n.parent) (hnot : NotBehind s s')
    (hnew : ∀ n, Covered s' (change n)) : CoveredExcept s' none := by
  intro other n' htracked _ hnode'
  have htracked' := htracked.of_update hnodes hmap hpar
  rw [hnodes, List.getElem?_modify] at hnode'
  obtain ⟨n, hnode, heq⟩ := map_eq_some_iff.1 hnode'
  split_ifs at heq with hid
  · exact heq ▸ hnew n
  · obtain rfl : n = n' := heq
    exact (hcovered other n htracked' (fun hsome ↦ hid (some.inj hsome).symm) hnode).mono hnot

theorem Pulled.covered (hpulled : Pulled state jc fc id parent c checkpoints c')
    (hkeeps : KeepsUnrealized c (state.unrealizedOr jc fc))
    (hcovered : CoveredExcept c (some id)) (hpar : Covered c parent) : CoveredExcept c' none := by
  have hunrealize (n : Node) : Covered (c.unrealize id (state.unrealizedOr jc fc)) { n with
      unrealizedJustifiedEpoch := (state.unrealizedOr jc fc).1.epoch
      unrealizedFinalizedEpoch := (state.unrealizedOr jc fc).2.epoch } := by
    constructor
    · apply le_max_of_le_left
      simp only [Call.unrealize, Store.withUnrealized]
      grind
    · apply le_max_of_le_left
      simp only [Call.unrealize, Store.withUnrealized]
      grind
  have hnot := hpulled.notBehind hkeeps
  cases hpulled with
  | copied =>
    exact hcovered.of_update rfl rfl (fun _ ↦ rfl) hnot fun _ ↦ ⟨hpar.justified, hpar.finalized⟩
  | unrealized => exact hcovered.of_update rfl rfl (fun _ ↦ rfl) hnot hunrealize
  | realized =>
    have hunreal : CoveredExcept (c.unrealize id (state.unrealizedOr jc fc)) none :=
      hcovered.of_update rfl rfl (fun _ ↦ rfl) ⟨le_rfl, le_rfl, hnot.unrealizedJustified,
        hnot.unrealizedFinalized⟩ hunrealize
    exact hunreal.of_retains (.of_update rfl rfl fun _ ↦ ⟨rfl, rfl, rfl⟩)
      ⟨le_rfl, le_rfl, le_rfl, le_rfl⟩

end PullTips

section UpdateCheckpoints

variable {config : BeaconChainConfig} {c : Call} {jc fc : Checkpoint}

/-- The checkpoint becomes the justified one. -/
def Call.justify (jc : Checkpoint) (c : Call) : Call :=
  { c with prevJustifiedCheckpoint := c.justifiedCheckpoint, justifiedCheckpoint := jc }

def Call.setBalances (config : BeaconChainConfig) (balances : List ℕ) (c : Call) : Call :=
  { c with
    justifiedBalances := balances
    committeeWeight := committeeWeightOf config balances
    numActiveValidators := balances.countP (0 < ·) }

theorem wp_updateJustifiedBalances {root : Root}
    (hok : ∀ bals, c.balancesByRoot root = .ok bals → post (.ok ()) (c.setBalances config bals))
    (herror : ∀ err err', c.balancesByRoot root = .error err → post (.error (.error err')) c) :
    wp (updateJustifiedBalances config root) post c := by
  simp only [updateJustifiedBalances, wp_bind, wp_get, whenOk_ok, wrap, wp_mapOutcome, wp_ofExcept]
  cases hbals : c.balancesByRoot root with
  | ok bals => exact hok bals hbals
  | error err => exact herror err _ hbals

theorem wp_updateJustified (hsame : jc.epoch ≤ c.justifiedCheckpoint.epoch → post (.ok ()) c)
    (hok : ∀ bals, c.justifiedCheckpoint.epoch < jc.epoch →
      c.balancesByRoot jc.root = .ok bals →
      post (.ok ()) ((c.justify jc).setBalances config bals))
    (herror : ∀ err err', c.justifiedCheckpoint.epoch < jc.epoch →
      c.balancesByRoot jc.root = .error err → post (.error (.error err')) (c.justify jc)) :
    wp (updateJustified config jc) post c := by
  rw [updateJustified, wp_bind, wp_get, whenOk_ok]
  split_ifs with hgt
  · rw [wp_bind, wp_modify, whenOk_ok, wrap, wp_mapOutcome]
    apply wp_updateJustifiedBalances
    · exact fun bals ↦ hok bals hgt
    · exact fun err err' ↦ herror err _ hgt
  · exact hsame (not_lt.1 hgt)

/-- The checkpoints of the store are not below the given ones, unless the balances of the justified
one cannot be looked up. -/
structure CaughtUp (jc fc : Checkpoint) (c c' : Call) : Prop where
  sound : Sound c'
  retains : Retains c c'
  notBehind : NotBehind c c'
  justified : jc.epoch ≤ c'.justifiedCheckpoint.epoch
  finalized : (c.justifiedCheckpoint.epoch < jc.epoch → (c.balancesByRoot jc.root).isOk) →
    fc.epoch ≤ c'.finalizedCheckpoint.epoch

/-- `updateCheckpoints` catches up, and it fails only after it has moved a checkpoint. -/
theorem Sound.updateCheckpoints (hsound : Sound c) :
    wp (updateCheckpoints config jc fc) (fun out c' ↦ CaughtUp jc fc c c' ∧
      (out ≠ .ok () → c.justifiedCheckpoint.epoch < c'.justifiedCheckpoint.epoch ∨
        c.finalizedCheckpoint.epoch < c'.finalizedCheckpoint.epoch)) c := by
  rw [DoublyLinkedTree.updateCheckpoints, wp_bind]
  -- The rest of the function, after the justified checkpoint.
  have hrest (middle : Call) (hmid : Sound middle)
      (hretains : Retains c middle) (hnot : NotBehind c middle)
      (hjust : jc.epoch ≤ middle.justifiedCheckpoint.epoch) :
      wp (do
        if fc.epoch ≤ (← get).finalizedCheckpoint.epoch then
          return
        else
          modify fun call ↦ { call with finalizedCheckpoint := fc }
          DoublyLinkedTree.prune config : Op Unit)
        (fun out c' ↦ CaughtUp jc fc c c' ∧
          (out ≠ .ok () → c.justifiedCheckpoint.epoch < c'.justifiedCheckpoint.epoch ∨
            c.finalizedCheckpoint.epoch < c'.finalizedCheckpoint.epoch)) middle := by
    rw [wp_bind, wp_get, whenOk_ok]
    split_ifs with hle
    · exact ⟨⟨hmid, hretains, hnot, hjust, fun _ ↦ hle⟩, fun hne ↦ absurd rfl hne⟩
    · rw [wp_bind, wp_modify, whenOk_ok]
      have hlt := not_le.1 hle
      have hfinalize : NotBehind middle { middle with finalizedCheckpoint := fc } :=
        ⟨le_rfl, hlt.le, le_rfl, le_rfl⟩
      have hsound' : Sound { middle with finalizedCheckpoint := fc } :=
        hmid.of_eq rfl rfl rfl rfl
      apply (Sound.prune (c := { middle with finalizedCheckpoint := fc }) hsound').and
        (wp_prune_retains config) |>.mono
      rintro out last ⟨hlast, hedits, hretains'⟩
      have hnot' := hfinalize.trans hedits.notBehind
      have hfin : last.finalizedCheckpoint = fc := by rw [hedits]
      refine ⟨⟨hlast, (hretains.trans (.of_eq rfl rfl)).trans hretains',
        hnot.trans hnot', hjust.trans hnot'.justified, fun _ ↦ ?_⟩, fun _ ↦ ?_⟩
      · rw [hfin]
      · rw [hfin]
        exact .inr (hnot.finalized.trans_lt hlt)
  apply wp_updateJustified
  · intro hle
    exact hrest c hsound (.refl _) (.refl _) hle
  · intro bals hlt hbals
    exact hrest _ (hsound.of_eq rfl rfl rfl rfl) (.of_eq rfl rfl) ⟨hlt.le, le_rfl, le_rfl, le_rfl⟩
      le_rfl
  · intro err err' hlt herror
    refine ⟨⟨hsound.of_eq rfl rfl rfl rfl, .of_eq rfl rfl, ⟨hlt.le, le_rfl, le_rfl, le_rfl⟩, le_rfl,
      fun hok ↦ ?_⟩, fun _ ↦ .inl hlt⟩
    have hok := hok hlt
    simp [herror, Except.isOk, Except.toBool] at hok

end UpdateCheckpoints

variable {c' : Call}

section InsertNode

variable {config : BeaconChainConfig} {state : BeaconState} {block : ROBlock} {c : Call}
  {jc fc : Checkpoint} {id : NodeId} {n : Node}

/-- The nodes are covered by checkpoints that have not moved backwards. -/
structure Settled (s s' : Store) : Prop where
  sound : Sound s'
  covered : CoveredExcept s' none
  notBehind : NotBehind s s'

theorem Settled.of_shrinks (hsettled : Settled s c) (hshrinks : Shrinks c c') : Settled s c' where
  sound := hsettled.sound.of_shrinks hshrinks
  covered := hsettled.covered.of_shrinks hshrinks
  notBehind := hsettled.notBehind.trans hshrinks.editsTree.notBehind

/-- The checkpoints that have caught up with a node without a parent cover it. -/
theorem CaughtUp.covered (hcaughtUp : CaughtUp jc fc c c')
    (hcovered : CoveredExcept c (some id)) (hnode : c.nodes[id]? = some n)
    (horphan : Covered c n ∨
      (c.justifiedCheckpoint.epoch < jc.epoch → (c.balancesByRoot jc.root).isOk) ∧
        n.unrealizedJustifiedEpoch = jc.epoch ∧ n.unrealizedFinalizedEpoch = fc.epoch) :
    CoveredExcept c' none := by
  intro other n' htracked _ hnode'
  by_cases heq : other = id
  · subst heq
    obtain ⟨-, n₀, hnode₀, hjust, hfin⟩ := hcaughtUp.retains _ n' htracked hnode'
    obtain rfl : n = n₀ := some.inj (hnode.symm.trans hnode₀)
    obtain hold | ⟨hbals, hjc, hfc⟩ := horphan
    · have hn := hold.mono hcaughtUp.notBehind
      exact ⟨hjust ▸ hn.justified, hfin ▸ hn.finalized⟩
    · constructor
      · rw [hjust, hjc]
        exact le_max_of_le_right hcaughtUp.justified
      · rw [hfin, hfc]
        exact le_max_of_le_right (hcaughtUp.finalized hbals)
  · exact hcovered.of_retains hcaughtUp.retains hcaughtUp.notBehind other n' htracked
      (fun hsome ↦ heq (some.inj hsome)) hnode'

/-- The end of `InsertNode` covers the node that was inserted. -/
theorem CoveredExcept.pullUp (hcovered : CoveredExcept c (some id))
    (hsound : Sound c) (hnode : c.nodes[id]? = some n)
    (hkeeps : KeepsUnrealized c (state.unrealizedOr jc fc))
    (horphan : n.parent = none → Covered c n ∨
      (c.justifiedCheckpoint.epoch < jc.epoch → (c.balancesByRoot jc.root).isOk) ∧
        n.unrealizedJustifiedEpoch = jc.epoch ∧ n.unrealizedFinalizedEpoch = fc.epoch) :
    wp (pullUp config state id jc fc) (fun _ c' ↦ Settled c c') c := by
  -- A removal of the node after a failure changes nothing of this.
  have hremove (call : Call) (hcall : Settled c call) :
      wp (removeNode id) (fun _ c' ↦ Settled c c') call :=
    (shrinks_removeNode id call (.refl call)).mono fun _ _ hshrinks ↦ hcall.of_shrinks hshrinks
  rw [DoublyLinkedTree.pullUp, wp_bind]
  apply hsound.pullTips hnode
  · intro hnone
    apply wp_orRemove (hsound.updateCheckpoints.mono _) (fun _ hcall ↦ hcall) hremove
    rintro out last ⟨hlast, -⟩
    exact ⟨hlast.sound, hlast.covered hcovered hnode (horphan hnone), hlast.notBehind⟩
  · intro parentId parent checkpoints middle hlink hpar hpulled
    have hlink' : parentOf c.nodes id = some parentId := (parentOf_eq hnode).trans hlink
    have hparentCovered : Covered c parent := hcovered parentId parent (.inr ⟨id, hlink'⟩)
        (fun hsome ↦ (hsound.parent hlink').ne (some.inj hsome)) hpar
    have hmid := hpulled.covered hkeeps hcovered hparentCovered
    apply wp_orRemove ((hpulled.sound hsound).updateCheckpoints.mono _)
      (fun _ hcall ↦ hcall) hremove
    rintro out last ⟨hlast, -⟩
    exact ⟨hlast.sound, hmid.of_retains hlast.retains hlast.notBehind,
      (hpulled.notBehind hkeeps).trans hlast.notBehind⟩

/-- The states that `InsertNode` may be given: the unrealized checkpoints of the state keep the
store's, no slot begins between the readings of the clock, and the balances of the first justified
checkpoint can be looked up. -/
structure InsertNodeKept (config : BeaconChainConfig) (c : Call) (state : BeaconState)
    (jc fc : Checkpoint) : Prop where
  unrealized : KeepsUnrealized c (state.unrealizedOr jc fc)
  clock : ClockSteady config c
  balances : c.treeRootNode = none → c.justifiedCheckpoint.epoch < jc.epoch →
    (c.balancesByRoot jc.root).isOk

instance (config : BeaconChainConfig) (c : Call) (state : BeaconState) (jc fc : Checkpoint) :
    Decidable (InsertNodeKept config c state jc fc) :=
  have : Decidable (KeepsUnrealized c (state.unrealizedOr jc fc)) :=
    inferInstanceAs (Decidable (_ → _))
  have : Decidable (ClockSteady config c) := inferInstanceAs (Decidable (_ ∨ _))
  decidable_of_iff (KeepsUnrealized c (state.unrealizedOr jc fc) ∧ ClockSteady config c ∧
    (c.treeRootNode = none → c.justifiedCheckpoint.epoch < jc.epoch →
      (c.balancesByRoot jc.root).isOk))
    ⟨fun ⟨hunrealized, hclock, hbalances⟩ ↦ ⟨hunrealized, hclock, hbalances⟩,
      fun hkept ↦ ⟨hkept.unrealized, hkept.clock, hkept.balances⟩⟩

theorem CoveredExcept.insertNode (hcovered : CoveredExcept c none)
    (hsound : Sound c)
    (hkept : ∀ jc ∈ state.currentJustifiedCheckpoint, ∀ fc ∈ state.finalizedCheckpoint,
      InsertNodeKept config c state jc fc) :
    wp (insertNode config state block) (fun _ c' ↦ Settled c c') c := by
  have hsame : Settled c c := ⟨hsound, hcovered, .refl _⟩
  unfold DoublyLinkedTree.insertNode
  split
  · rename_i jc fc hjc hfc
    have hkept := hkept jc hjc fc hfc
    rw [wp_bind]
    apply (hcovered.insert hsound hkept.clock).mono
    rintro out middle ⟨hedits, hsound', hcovers⟩
    cases out with
    | error fault => exact ⟨hsound', hcovers, hedits.notBehind⟩
    | ok id =>
      obtain ⟨hcovered', n, hnode, horphan⟩ := hcovers
      rw [whenOk_ok]
      have hkeeps : KeepsUnrealized middle (state.unrealizedOr jc fc) := by
        rw [hedits]
        exact hkept.unrealized
      apply (hcovered'.pullUp hsound' hnode hkeeps _).mono
      · rintro out last ⟨hlast, hcovered'', hnot⟩
        exact ⟨hlast, hcovered'', hedits.notBehind.trans hnot⟩
      · intro hnone
        obtain hold | ⟨htree, hjust, hfin⟩ := horphan hnone
        · exact .inl hold
        · refine .inr ⟨?_, hjust, hfin⟩
          rw [hedits]
          exact hkept.balances htree
  · exact hsame

end InsertNode

section Tick

variable {config : BeaconChainConfig} {c : Call} {root : Root}

/-- The node realizes its unrealized epochs. -/
def Node.realized (n : Node) : Node :=
  { n with
    justifiedEpoch := n.unrealizedJustifiedEpoch, finalizedEpoch := n.unrealizedFinalizedEpoch }

def Call.realizeEpochs (id : NodeId) (c : Call) : Call :=
  { c with nodes := c.nodes.modify id Node.realized }

/-- The end of an iteration of the epoch tick. -/
def Call.finalize (finalizedEpoch : Epoch) (c : Call) : Call :=
  { c with
    finalizedCheckpoint :=
      if c.finalizedCheckpoint.epoch < finalizedEpoch then c.unrealizedFinalizedCheckpoint
      else c.finalizedCheckpoint }

/-- One node in the epoch tick of a sound store. -/
theorem Sound.realizeCheckpoints (hsound : Sound c)
    (hunknown : c.nodeByRoot root = none → post (.ok ()) c)
    (hsame : ∀ id n, c.nodeByRoot root = some id → c.nodes[id]? = some n →
      n.unrealizedJustifiedEpoch ≤ c.justifiedCheckpoint.epoch →
      post (.ok ()) ((c.realizeEpochs id).finalize n.unrealizedFinalizedEpoch))
    (hok : ∀ id n bals, c.nodeByRoot root = some id → c.nodes[id]? = some n →
      c.justifiedCheckpoint.epoch < n.unrealizedJustifiedEpoch →
      c.balancesByRoot c.unrealizedJustifiedCheckpoint.root = .ok bals →
      post (.ok ())
        ((((c.realizeEpochs id).justify c.unrealizedJustifiedCheckpoint).setBalances config
        bals).finalize n.unrealizedFinalizedEpoch))
    (herror : ∀ id n err err', c.nodeByRoot root = some id → c.nodes[id]? = some n →
      c.justifiedCheckpoint.epoch < n.unrealizedJustifiedEpoch →
      c.balancesByRoot c.unrealizedJustifiedCheckpoint.root = .error err →
      post (.error (.error err')) ((c.realizeEpochs id).justify c.unrealizedJustifiedCheckpoint)) :
    wp (realizeCheckpoints config root) post c := by
  rw [DoublyLinkedTree.realizeCheckpoints, wp_bind, wp_get, whenOk_ok]
  cases hroot : c.nodeByRoot root with
  | none => exact hunknown hroot
  | some id =>
    obtain ⟨n, hnode⟩ : ∃ n, c.nodes[id]? = some n :=
      ⟨_, List.getElem?_eq_getElem (hsound.index hroot)⟩
    have hload : (c.realizeEpochs id).nodes[id]? = some n.realized := by
      simp [Call.realizeEpochs, hnode]
    simp only [wp_bind, wp_update, whenOk_ok]
    apply (wp_load hload).2
    rw [whenOk_ok, wp_bind, realizeJustified, wp_bind, wp_get, whenOk_ok]
    split_ifs with hgt
    · rw [wp_bind, wp_modify, whenOk_ok, wrap, wp_mapOutcome]
      apply wp_updateJustifiedBalances
      · exact fun bals ↦ hok id n bals hroot hnode hgt
      · exact fun err err' ↦ herror id n err _ hroot hnode hgt
    · exact hsame id n hroot hnode (not_lt.1 hgt)

theorem Settled.realizeEpochs (hsettled : Settled s c) (id : NodeId) :
    Settled s (c.realizeEpochs id) where
  sound := hsettled.sound.of_update rfl rfl rfl rfl (fun _ ↦ rfl) (fun _ ↦ rfl) fun _ ↦ rfl
  covered := hsettled.covered.of_retains (.of_update rfl rfl fun _ ↦ ⟨rfl, rfl, rfl⟩)
    ⟨le_rfl, le_rfl, le_rfl, le_rfl⟩
  notBehind := hsettled.notBehind.trans ⟨le_rfl, le_rfl, le_rfl, le_rfl⟩

/-- A step that only moves checkpoints, and not backwards. -/
theorem Settled.of_notBehind (hsettled : Settled s c) (hnodes : c'.nodes = c.nodes)
    (hmap : c'.nodeByRoot = c.nodeByRoot) (htree : c'.treeRootNode = c.treeRootNode)
    (hrecv : c'.highestReceivedNode = c.highestReceivedNode)
    (hnot : NotBehind c c') : Settled s c' where
  sound := hsettled.sound.of_eq hnodes hmap htree hrecv
  covered := hsettled.covered.of_retains (.of_eq hnodes hmap) hnot
  notBehind := hsettled.notBehind.trans hnot

/-- The checkpoints that a covered node makes the store take are not behind. -/
theorem Covered.notBehind_finalize {n : Node} (hcovered : Covered c n) :
    NotBehind c (c.finalize n.unrealizedFinalizedEpoch) := by
  refine ⟨le_rfl, ?_, le_rfl, le_rfl⟩
  have := hcovered.finalized
  simp only [Call.finalize]
  split_ifs with hgt
  · lia
  · exact le_rfl

theorem Covered.notBehind_justify {n : Node} (hcovered : Covered c n)
    (hgt : c.justifiedCheckpoint.epoch < n.unrealizedJustifiedEpoch) :
    NotBehind c (c.justify c.unrealizedJustifiedCheckpoint) := by
  refine ⟨?_, le_rfl, le_rfl, le_rfl⟩
  have := hcovered.justified
  simp only [Call.justify]
  lia

/-- The epoch tick keeps the nodes covered, however it ends. -/
theorem settled_realizeCheckpoints :
    Preserves (fun call ↦ Settled s call.toStore) (realizeCheckpoints config root) := by
  intro c hsettled
  have hcovered {id : NodeId} {n : Node} (hroot : c.nodeByRoot root = some id)
      (hnode : c.nodes[id]? = some n) : Covered (c.realizeEpochs id) n :=
    (hsettled.covered id n (.inl ⟨root, hroot⟩) (by simp) hnode).mono
      ⟨le_rfl, le_rfl, le_rfl, le_rfl⟩
  have hjustify {id : NodeId} {n : Node} (hn : Covered (c.realizeEpochs id) n)
      (hgt : c.justifiedCheckpoint.epoch < n.unrealizedJustifiedEpoch) :
      Settled s ((c.realizeEpochs id).justify c.unrealizedJustifiedCheckpoint) :=
    (hsettled.realizeEpochs id).of_notBehind rfl rfl rfl rfl (hn.notBehind_justify hgt)
  apply hsettled.sound.realizeCheckpoints
  · exact fun _ ↦ hsettled
  · intro id n hroot hnode _
    exact (hsettled.realizeEpochs id).of_notBehind rfl rfl rfl rfl
      (hcovered hroot hnode).notBehind_finalize
  · intro id n bals hroot hnode hgt _
    have hn := hcovered hroot hnode
    have hbals : Settled s (((c.realizeEpochs id).justify
        c.unrealizedJustifiedCheckpoint).setBalances config bals) :=
      (hjustify hn hgt).of_notBehind rfl rfl rfl rfl ⟨le_rfl, le_rfl, le_rfl, le_rfl⟩
    have hlast : Covered (((c.realizeEpochs id).justify
        c.unrealizedJustifiedCheckpoint).setBalances config bals) n :=
      (hn.mono (hn.notBehind_justify hgt)).mono ⟨le_rfl, le_rfl, le_rfl, le_rfl⟩
    exact hbals.of_notBehind rfl rfl rfl rfl hlast.notBehind_finalize
  · grind

/-- `NewSlot` moves no checkpoint backwards. -/
theorem CoveredExcept.newSlot (hcovered : CoveredExcept c none) (hsound : Sound c)
    (slot : Slot) (order : List Root) :
    wp (newSlot config slot order) (fun _ c' ↦ Settled c c') c := by
  have hstart : Settled c { c with proposerBoostRoot := zeroHash } :=
    ⟨hsound.of_eq rfl rfl rfl rfl, hcovered.of_retains (.of_eq rfl rfl)
      ⟨le_rfl, le_rfl, le_rfl, le_rfl⟩, ⟨le_rfl, le_rfl, le_rfl, le_rfl⟩⟩
  rw [DoublyLinkedTree.newSlot, wp_bind, wp_modify, whenOk_ok]
  split_ifs
  · exact hstart
  · have hloop : Preserves (fun call ↦ Settled c call.toStore)
        (wrap "could not update unrealized checkpoints"
          (updateUnrealizedCheckpoints config order)) :=
      preserves_wrap (preserves_forM fun root _ ↦ settled_realizeCheckpoints)
    rw [wp_bind]
    apply (hloop { c with proposerBoostRoot := zeroHash } hstart).mono
    intro out middle hmid
    cases out with
    | error fault => exact hmid
    | ok _ =>
      rw [whenOk_ok]
      apply (hmid.sound.prune.and (wp_prune_retains config)).mono
      rintro out last ⟨hlast, hedits, hretains⟩
      exact ⟨hlast, hmid.covered.of_retains hretains hedits.notBehind,
        hmid.notBehind.trans hedits.notBehind⟩

end Tick

section Runs

variable {config : BeaconChainConfig} {f : ForkChoice}

/-- The calls of `InsertNode` that keep the checkpoints from moving backwards, and all calls of
`NewSlot`. -/
def CheckpointsKept (config : BeaconChainConfig) (f : ForkChoice) : Request × Environment → Prop
  | (.insertNode state _, environment) => ∀ jc ∈ state.currentJustifiedCheckpoint,
      ∀ fc ∈ state.finalizedCheckpoint, InsertNodeKept config (f.call environment) state jc fc
  | (.newSlot _ _, _) => True
  | _ => False

theorem CoveredExcept.new (config : BeaconChainConfig) (genesis : Time) :
    CoveredExcept (ForkChoice.new config genesis).toStore none := by
  intro id n _ _ hnode
  simp [ForkChoice.new] at hnode

theorem CoveredExcept.perform (hcovered : CoveredExcept f.toStore none) (hsound : Sound f.toStore)
    {call : Request × Environment} (hkept : CheckpointsKept config f call) :
    Settled f.toStore (perform config f call).2.toStore := by
  obtain ⟨request, env⟩ := call
  suffices hwp : wp (request.op config) (fun _ c' ↦ Settled f.toStore c'.toStore)
      (f.call env) from hwp
  cases request with
  | insertNode state block =>
    exact (CoveredExcept.insertNode (c := f.call env) hcovered hsound hkept).map _
  | newSlot slot order =>
    exact (CoveredExcept.newSlot (c := f.call env) hcovered hsound slot order).map _
  | _ => exact absurd hkept id

theorem covered_of_run {genesis : Time} {events : List Event}
    (run : Run (CallStep (perform config) (CheckpointsKept config))
      (ForkChoice.new config genesis) events f) :
    Sound f.toStore ∧ CoveredExcept f.toStore none := by
  apply run.call_invariant (fun f ↦ Sound f.toStore ∧ CoveredExcept f.toStore none)
    ⟨.new config genesis, .new config genesis⟩
  intro f call hf hkept
  have hnext := hf.2.perform hf.1 hkept
  exact ⟨hnext.sound, hnext.covered⟩

/-- In every run of `InsertNode` and `NewSlot` no call moves a checkpoint backwards. -/
theorem checkpoints_never_move_backwards (config : BeaconChainConfig) (genesisTime : Time)
    {events : List Event} {f : ForkChoice}
    (run : Run (CallStep (perform config) (CheckpointsKept config))
      (ForkChoice.new config genesisTime) events f)
    {call : Request × Environment} (hkept : CheckpointsKept config f call) :
    NotBehind f.toStore (perform config f call).2.toStore := by
  obtain ⟨hsound, hcovered⟩ := covered_of_run run
  exact (hcovered.perform hsound hkept).notBehind

/-- Three blocks at the start of epoch 10.  The states of the second and the third one have
unrealized checkpoints: first the justified epoch 6 and the finalized epoch 1, then the given
justified epoch and the finalized epoch 2. -/
def crossingStates (justifiedEpoch : Epoch) : List (Request × Environment) :=
  [(.insertNode ⟨0, some ⟨0, 0⟩, some ⟨0, 0⟩, .ok (⟨0, 0⟩, ⟨0, 0⟩)⟩ ⟨1, 0, 0, none⟩,
      environmentAt none (3840 * second)),
    (.insertNode ⟨320, some ⟨0, 0⟩, some ⟨0, 0⟩, .ok (⟨6, 1⟩, ⟨1, 1⟩)⟩ ⟨2, 320, 1, none⟩,
      environmentAt none (3840 * second)),
    (.insertNode ⟨320, some ⟨0, 0⟩, some ⟨0, 0⟩, .ok (⟨justifiedEpoch, 1⟩, ⟨2, 1⟩)⟩
      ⟨3, 320, 1, none⟩, environmentAt none (3840 * second))]

/-- The store after the first of these calls. -/
def afterCrossingStates (justifiedEpoch : Epoch) (calls : ℕ) : ForkChoice :=
  (execute (perform mainnetConfig) (ForkChoice.new mainnetConfig 0)
    ((crossingStates justifiedEpoch).take calls)).2

theorem checkpointsKept_crossingStates :
    AllAllowed (perform mainnetConfig) (CheckpointsKept mainnetConfig)
      (ForkChoice.new mainnetConfig 0) (crossingStates 7) := by
  refine ⟨?_, ?_, ?_, trivial⟩
  · rintro jc ⟨⟩ fc ⟨⟩
    decide +kernel
  · rintro jc ⟨⟩ fc ⟨⟩
    decide +kernel
  · rintro jc ⟨⟩ fc ⟨⟩
    decide +kernel

theorem checkpoints_never_move_backwards_crossingStates :
    (afterCrossingStates 7 3).justifiedCheckpoint.epoch <
      (perform mainnetConfig (afterCrossingStates 7 3)
        (.newSlot 320 [1, 2, 3], environmentAt none 0)).2.justifiedCheckpoint.epoch ∧
      NotBehind (afterCrossingStates 7 3).toStore (perform mainnetConfig (afterCrossingStates 7 3)
        (.newSlot 320 [1, 2, 3], environmentAt none 0)).2.toStore :=
  ⟨by decide +kernel, checkpoints_never_move_backwards mainnetConfig 0 (run_execute
    (perform mainnetConfig) (CheckpointsKept mainnetConfig) _ _ checkpointsKept_crossingStates)
    trivial⟩

/-- The third state has a greater finalized epoch, and its smaller justified epoch replaces the
greater one. -/
theorem crossingStates_move_backwards :
    (afterCrossingStates 5 2).unrealizedJustifiedCheckpoint.epoch = 6 ∧
      (afterCrossingStates 5 3).unrealizedJustifiedCheckpoint.epoch = 5 := by
  decide +kernel

end Runs

end Prysm.DoublyLinkedTree
