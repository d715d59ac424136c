import Prysm.DoublyLinkedTree.Removal

/-!
# Well-formed stores

The memory of a well-formed store is linked, its maps point to nodes with the right root, and the
root of its tree has no parent.  Every function keeps that, also when it is cut short, except that
`prune` must not make a node the root of the tree that another node still lists as a child.
-/

namespace Prysm.DoublyLinkedTree

open List Library Action Call

/-- The pointers of the store are valid, and the memory is linked. -/
structure WellFormed (s : Store) : Prop where
  linked : Linked s.nodes
  index : ∀ {root : Root} {id : NodeId}, s.nodeByRoot root = some id →
    ∃ n, s.nodes[id]? = some n ∧ n.root = root
  planted : ∀ {root : Root} {id : NodeId}, s.nodeByRoot root = some id → s.treeRootNode ≠ none
  treeRoot : ∀ {id : NodeId}, s.treeRootNode = some id →
    id < s.nodes.length ∧ parentOf s.nodes id = none

theorem WellFormed.new (config : BeaconChainConfig) (genesis : Time) :
    WellFormed (ForkChoice.new config genesis).toStore where
  linked := by
    constructor <;> simp [ForkChoice.new, parentOf, childrenOf]
  index := by simp [ForkChoice.new]
  planted := by simp [ForkChoice.new]
  treeRoot := by simp [ForkChoice.new]

variable {c c' : Call} {nodes : List Node} {n' : Node} {parent : NodeId} {root : Root}

theorem Shrinks.treeRootNode_eq (hshrinks : Shrinks c c') : c'.treeRootNode = c.treeRootNode := by
  rw [hshrinks.same]

variable {id : NodeId}

namespace WellFormed

theorem of_shrinks (hwf : WellFormed c) (hshrinks : Shrinks c c') : WellFormed c' where
  linked := hwf.linked.of_shrinks hshrinks
  index hroot := by
    obtain ⟨n, hnode, hn⟩ := hwf.index (hshrinks.nodeByRoot_of_later hroot)
    obtain ⟨n', hnode', hshrinks'⟩ := hshrinks.node hnode
    have hroot' : n'.root = n.root := by rw [hshrinks'.same]
    exact ⟨n', hnode', hroot'.trans hn⟩
  planted hroot := by
    rw [hshrinks.treeRootNode_eq]
    exact hwf.planted (hshrinks.nodeByRoot_of_later hroot)
  treeRoot hroot := by
    rw [hshrinks.treeRootNode_eq] at hroot
    rw [hshrinks.parentOf_eq, hshrinks.size]
    exact hwf.treeRoot hroot

theorem of_sameTree {s s' : Store} (hwf : WellFormed s) (hsame : SameTree s s') :
    WellFormed s' where
  linked := hsame.linked hwf.linked
  index hroot := by
    rw [hsame.nodeByRoot] at hroot
    obtain ⟨n, hnode, hn⟩ := hwf.index hroot
    obtain ⟨n', hnode', hn', -⟩ := hsame.node hnode
    exact ⟨n', hnode', hn'.trans hn⟩
  planted hroot := by
    rw [hsame.nodeByRoot] at hroot
    rw [hsame.treeRootNode]
    exact hwf.planted hroot
  treeRoot hroot := by
    rw [hsame.treeRootNode] at hroot
    rw [hsame.parentOf_eq, hsame.size]
    exact hwf.treeRoot hroot

/-- A node that the map points to is in the memory. -/
theorem lt_length (hwf : WellFormed c) (hroot : c.nodeByRoot root = some id) :
    id < c.nodes.length := by
  obtain ⟨n, hnode, -⟩ := hwf.index hroot
  exact (List.getElem?_eq_some_iff.1 hnode).1

end WellFormed

section Insert

variable {config : BeaconChainConfig} {block : ROBlock} {payload : Root}
  {just fin : Epoch} {node n : Node} {id parentId : NodeId}

theorem getElem?_append_of_some (hnode : nodes[id]? = some n) (node : Node) :
    (nodes ++ [node])[id]? = some n := by
  rw [getElem?_append_left (List.getElem?_eq_some_iff.1 hnode).1, hnode]

/-- Linking a new node leaves the other nodes as they are, up to their children. -/
theorem link_node (node : Node) (parentId : NodeId) (hnode : c.nodes[id]? = some n) :
    ∃ children, (c.link node parentId).nodes[id]? = some { n with children := children } := by
  simp only [link, register, getElem?_modify, getElem?_append_of_some hnode]
  by_cases heq : parentId = id
  · exact ⟨n.children ++ [c.nodes.length], by simp [heq]⟩
  · exact ⟨n.children, by simp [heq]⟩

theorem plant_new : (c.plant node).nodes[c.nodes.length]? = some node := by
  simp [plant, register]

theorem link_new (hpar : parentId < c.nodes.length) :
    (c.link node parentId).nodes[c.nodes.length]? = some node := by
  simp [link, register, hpar.ne]

theorem childrenOf_link (hpar : parentId < c.nodes.length) (hchildren : node.children = [])
    (other : NodeId) : childrenOf (c.link node parentId).nodes other =
      if other = parentId then childrenOf c.nodes other ++ [c.nodes.length]
      else if other = c.nodes.length then [] else childrenOf c.nodes other := by
  simp only [link, register]
  rw [childrenOf_modify, childrenOf_append, hchildren]
  by_cases heq : parentId = other
  · subst heq
    rw [getElem?_append_left hpar, getElem?_eq_getElem hpar]
    simp [childrenOf_eq (getElem?_eq_getElem hpar)]
  · simp [heq, Ne.symm heq]

theorem link_linked (hlinked : Linked c.nodes) (hpar : parentId < c.nodes.length)
    (hchildren : node.children = []) (hlink : node.parent = some parentId) :
    Linked (c.link node parentId).nodes := by
  apply (hlinked.append hchildren _).addChild
  · rw [parentOf_append, if_pos rfl, hlink]
  · rw [childrenOf_append, if_neg hpar.ne]
    exact fun hmem ↦ (hlinked.lt_length_of_mem hmem).false
  · intro parent heq
    rw [hlink, Option.some.injEq] at heq
    exact heq ▸ hpar

theorem WellFormed.of_link (hwf : WellFormed c) (hpar : parentId < c.nodes.length)
    (hchildren : node.children = []) (hlink : node.parent = some parentId)
    (htree : c.treeRootNode ≠ none) : WellFormed (c.link node parentId) where
  linked := link_linked hwf.linked hpar hchildren hlink
  index {root id} hroot := by
    by_cases heq : root = node.root
    · have hid : c.nodes.length = id := by
        simpa [link, register, heq] using hroot
      exact ⟨node, hid ▸ link_new hpar, heq.symm⟩
    · have hold : c.nodeByRoot root = some id := by
        simpa [link, register, heq] using hroot
      obtain ⟨n, hnode, hn⟩ := hwf.index hold
      obtain ⟨children, hnode'⟩ := link_node node parentId hnode
      exact ⟨_, hnode', hn⟩
  planted _ := htree
  treeRoot {id} hroot := by
    obtain ⟨hlt, hnone⟩ := hwf.treeRoot hroot
    obtain ⟨n, hnode⟩ : ∃ n, c.nodes[id]? = some n := ⟨_, getElem?_eq_getElem hlt⟩
    obtain ⟨children, hnode'⟩ := link_node node parentId hnode
    refine ⟨?_, ?_⟩
    · exact (List.getElem?_eq_some_iff.1 hnode').1
    · rw [parentOf_eq hnode']
      rwa [parentOf_eq hnode] at hnone

theorem WellFormed.of_inserted (hwf : WellFormed c)
    (hins : Inserted config block payload just fin c c') : WellFormed c' := by
  cases hins with
  | refused hpar htree =>
    refine ⟨hwf.linked.append rfl (by simp [nodeFor, newNode]), ?_, fun _ ↦ htree, ?_⟩
    · intro root id hroot
      by_cases heq : root = block.root
      · simp [unregister, nodeFor, newNode, heq] at hroot
      · have hold : c.nodeByRoot root = some id := by
          simpa [unregister, register, nodeFor, newNode, heq] using hroot
        obtain ⟨n, hnode, hn⟩ := hwf.index hold
        exact ⟨n, getElem?_append_of_some hnode _, hn⟩
    · intro id hroot
      obtain ⟨hlt, hnone⟩ := hwf.treeRoot hroot
      refine ⟨by simp [unregister, register]; lia, ?_⟩
      simp only [unregister, register]
      rw [parentOf_append, if_neg hlt.ne, hnone]
  | planted hpar htree =>
    refine ⟨hwf.linked.append rfl (by simp [nodeFor, newNode]), ?_, by simp [plant], ?_⟩
    · intro root id hroot
      by_cases heq : root = block.root
      · have hid : c.nodes.length = id := by
          simpa [plant, register, nodeFor, newNode, heq] using hroot
        exact ⟨_, hid ▸ plant_new, heq.symm⟩
      · have hold : c.nodeByRoot root = some id := by
          simpa [plant, register, nodeFor, newNode, heq] using hroot
        exact absurd htree (hwf.planted hold)
    · intro id hroot
      have hid : c.nodes.length = id := by simpa [plant] using hroot
      subst hid
      refine ⟨by simp [plant, register], ?_⟩
      simp only [plant, register]
      rw [parentOf_append, if_pos rfl]
      rfl
  | linked hpar hnode => exact hwf.of_link (hwf.lt_length hpar) rfl rfl (hwf.planted hpar)
  | @boosted parentId parent hpar hnode _ =>
    have hlink : WellFormed (c.link (nodeFor config block payload just fin c
        (some (parentId, parent))) parentId) :=
      hwf.of_link (hwf.lt_length hpar) rfl rfl (hwf.planted hpar)
    exact hlink.of_sameTree (.of_eq rfl rfl rfl)

/-- One node was added at the end of the memory, perhaps as a child of a known node. -/
structure Appends (c : Call) (node : Node) (c' : Call) : Prop where
  size : c'.nodes.length = c.nodes.length + 1
  new : c'.nodes[c.nodes.length]? = some node
  old : ∀ {id : NodeId} {n : Node}, c.nodes[id]? = some n →
    ∃ children, c'.nodes[id]? = some { n with children := children }
  child : ∀ {id child : NodeId}, child ∈ childrenOf c'.nodes id →
    child = c.nodes.length ∨ child ∈ childrenOf c.nodes id
  parent : ∀ {parent : NodeId}, node.parent = some parent → ∃ root, c.nodeByRoot root = some parent
  other : ∀ {root : Root}, root ≠ node.root → c'.nodeByRoot root = c.nodeByRoot root
  entry : ∀ {id : NodeId}, c'.nodeByRoot node.root = some id → id = c.nodes.length

theorem Appends.node_of_later (happ : Appends c node c') (hnode : c'.nodes[id]? = some n')
    (hid : id ≠ c.nodes.length) :
    ∃ n children, c.nodes[id]? = some n ∧ n' = { n with children := children } := by
  have hlt : id < c.nodes.length := by
    have := (List.getElem?_eq_some_iff.1 hnode).1
    have := happ.size
    lia
  obtain ⟨children, hnode'⟩ := happ.old (getElem?_eq_getElem hlt)
  rw [hnode, Option.some.injEq] at hnode'
  exact ⟨_, children, getElem?_eq_getElem hlt, hnode'⟩

theorem Appends.parentOf_of_later (happ : Appends c node c')
    (hpar : parentOf c'.nodes id = some parent) (hid : id ≠ c.nodes.length) :
    parentOf c.nodes id = some parent := by
  obtain ⟨n', hnode', hlink⟩ := Option.bind_eq_some_iff.1 hpar
  obtain ⟨n, children, hnode, rfl⟩ := happ.node_of_later hnode' hid
  rwa [parentOf_eq hnode]

/-- A node that gets a link to nowhere. -/
theorem Appends.of_append (hchildren : node.children = []) (hpar : node.parent = none)
    (hnodes : c'.nodes = c.nodes ++ [node])
    (hother : ∀ {root : Root}, root ≠ node.root → c'.nodeByRoot root = c.nodeByRoot root)
    (hentry : ∀ {id : NodeId}, c'.nodeByRoot node.root = some id → id = c.nodes.length) :
    Appends c node c' where
  size := by simp [hnodes]
  new := by simp [hnodes]
  old {id n} hnode := ⟨n.children, by rw [hnodes, getElem?_append_of_some hnode]⟩
  child {id child} hchild := by
    rw [hnodes, childrenOf_append] at hchild
    split_ifs at hchild
    · simp [hchildren] at hchild
    · exact .inr hchild
  parent hlink := by simp [hpar] at hlink
  other := hother
  entry := hentry

theorem Appends.of_link (hpar : c.nodeByRoot root = some parentId)
    (hlt : parentId < c.nodes.length) (hchildren : node.children = [])
    (hlink : node.parent = some parentId) : Appends c node (c.link node parentId) where
  size := by simp [link, register]
  new := link_new hlt
  old := link_node node parentId
  child {id child} hchild := by
    rw [childrenOf_link hlt hchildren] at hchild
    split_ifs at hchild
    · rw [mem_append, mem_singleton] at hchild
      exact hchild.symm
    · simp at hchild
    · exact .inr hchild
  parent heq := ⟨root, by rw [hpar, ← hlink, heq]⟩
  other hne := by simp [link, register, hne]
  entry {id} hentry := by
    have hid : c.nodes.length = id := by simpa [link, register] using hentry
    exact hid.symm

theorem Inserted.appends
    (hidx : ∀ {root : Root} {id : NodeId}, c.nodeByRoot root = some id → id < c.nodes.length)
    (hins : Inserted config block payload just fin c c') :
    ∃ parent, Appends c (nodeFor config block payload just fin c parent) c' := by
  cases hins with
  | refused hpar htree =>
    refine ⟨none, .of_append rfl rfl rfl ?_ ?_⟩
    · exact fun hne ↦ by simp [unregister, register, hne]
    · exact fun hentry ↦ by simp [unregister] at hentry
  | planted hpar htree =>
    refine ⟨none, .of_append rfl rfl rfl ?_ ?_⟩
    · exact fun hne ↦ by simp [plant, register, hne]
    · intro id hentry
      have hid : c.nodes.length = id := by simpa [plant, register] using hentry
      exact hid.symm
  | linked hpar hnode => exact ⟨_, .of_link hpar (hidx hpar) rfl rfl⟩
  | @boosted parentId parent hpar hnode _ =>
    have hlink : Appends c (nodeFor config block payload just fin c
        (some (parentId, parent))) (c.link (nodeFor config block payload just
        fin c (some (parentId, parent))) parentId) := .of_link hpar (hidx hpar) rfl rfl
    exact ⟨_, hlink.size, hlink.new, hlink.old, hlink.child, hlink.parent, hlink.other, hlink.entry⟩

end Insert

section Prune

/-- The node that `prune` makes the root of the tree is in the tree, or no other node lists it as a
child any more. -/
def PruneDetaches (s : Store) : Prop :=
  ∀ finalizedNode, s.nodeByRoot s.finalizedCheckpoint.root = some finalizedNode →
    Descends (childrenOf s.nodes) s.treeRoot finalizedNode ∨
      ∀ id, finalizedNode ∉ childrenOf s.nodes id

variable {final : NodeId}

/-- The nodes before the finalized one are reached without going through it. -/
theorem Linked.descends_stopAt (hlinked : Linked nodes) {a b : NodeId}
    (hdesc : Descends (childrenOf nodes) a b) (hlt : b < final) :
    Descends (stopAt final (childrenOf nodes)) a b := by
  induction hdesc with
  | refl => exact Descends.refl a
  | @tail x y hx hmem ih =>
    have hxlt : x < final := (hlinked.lt_of_mem hmem).trans hlt
    apply (ih hxlt).tail
    rw [stopAt, if_neg hxlt.ne]
    exact hmem

/-- When the walk of `prune` is done nobody lists the finalized node as a child. -/
theorem PruneDetaches.notMem {middle : Call} (hwf : WellFormed c)
    (hdetaches : PruneDetaches c)
    (hfin : c.nodeByRoot c.finalizedCheckpoint.root = some final)
    (hpar : ∀ n, c.nodes[final]? = some n → n.parent ≠ none)
    (hrun : (pruneFinalizedNodeByRootMap final c.depthBound c.treeRoot).runFrom c =
      (.ok (), middle)) (id : NodeId) : final ∉ childrenOf middle.nodes id := by
  have hshrinks : Shrinks c middle :=
    wp_iff.1 (shrinks_pruneFinalizedNodeByRootMap final _ _ c (.refl c)) _ _ hrun
  intro hchild
  have hold := (hshrinks.childrenOf_subperm id).subset hchild
  obtain hbelow | hnone := hdetaches final hfin
  · obtain ⟨treeRoot, htree⟩ := Option.ne_none_iff_exists'.1 (hwf.planted hfin)
    obtain ⟨hlt, horphan⟩ := hwf.treeRoot htree
    have heq : c.treeRoot = treeRoot := by simp [Store.treeRoot, htree]
    rw [heq] at hrun hbelow
    have hprunes := (wp_iff.1 (wp_pruneFinalizedNodeByRootMap hwf.linked le_rfl hlt rfl) _ _ hrun).2
    obtain hsame | ⟨last, hlast, hmem⟩ := Descends.iff_tail.1 hbelow
    · obtain ⟨n, hnode, -⟩ := hwf.index hfin
      rw [← hsame, parentOf_eq hnode] at horphan
      exact hpar n hnode horphan
    · have hid : last = id := Option.some.inj
        ((hwf.linked.child_parent hmem).symm.trans (hwf.linked.child_parent hold))
      have hbefore := hwf.linked.lt_of_mem hmem
      have hpruned := hprunes.cleared ⟨hwf.linked.descends_stopAt hlast hbefore, hbefore.ne⟩
      rw [← hid, hpruned] at hchild
      simp at hchild
  · exact hnone id hold

theorem reroot_node (hnode : (c.reroot final).nodes[id]? = some n') :
    ∃ n parent, c.nodes[id]? = some n ∧ n' = { n with parent := parent } := by
  simp only [reroot, getElem?_modify] at hnode
  obtain ⟨n, hn, heq⟩ := Option.map_eq_some_iff.1 hnode
  by_cases hid : final = id
  · exact ⟨n, none, hn, by simpa [hid] using heq.symm⟩
  · exact ⟨n, n.parent, hn, by simpa [hid] using heq.symm⟩

theorem reroot_parentOf (hpar : parentOf (c.reroot final).nodes id = some parent) :
    parentOf c.nodes id = some parent := by
  simp only [reroot] at hpar
  rw [parentOf_modify] at hpar
  split_ifs at hpar
  · cases hnode : c.nodes[final]? <;> simp [hnode] at hpar
  · exact hpar

theorem reroot_childrenOf (final id : NodeId) :
    childrenOf (c.reroot final).nodes id = childrenOf c.nodes id := by
  apply childrenOf_modify_of_eq
  exact fun _ ↦ rfl

theorem WellFormed.of_reroot (hwf : WellFormed c) (hlt : final < c.nodes.length)
    (hchild : ∀ id, final ∉ childrenOf c.nodes id) : WellFormed (c.reroot final) where
  linked := hwf.linked.orphan hchild
  index {root id} hroot := by
    obtain ⟨n, hnode, hn⟩ := hwf.index hroot
    by_cases heq : final = id
    · exact ⟨{ n with parent := none }, by simp [reroot, heq, hnode], hn⟩
    · exact ⟨n, by simp [reroot, heq, hnode], hn⟩
  planted _ := by simp [reroot]
  treeRoot {id} hroot := by
    have hid : final = id := by simpa [reroot] using hroot
    subst hid
    refine ⟨by simpa [reroot] using hlt, ?_⟩
    simp only [reroot]
    rw [parentOf_modify, if_pos rfl]
    cases c.nodes[final]? <;> rfl

end Prune

end Prysm.DoublyLinkedTree
