import Prysm.DoublyLinkedTree.WellFormed

/-!
# The tree and its index

The map of the store and the links of its nodes are edited separately by the functions that insert
and remove nodes.  They are in step when the map has exactly the nodes that are reached from the
root of the tree.  Insertions keep them in step, also those that fail.  Removals and prunings do
when they are not cancelled, and a pruning must not find a child of the finalized node to prune: it
takes the child out of the map and leaves it in the list of children.
-/

namespace Prysm.DoublyLinkedTree

open Library Action Descends Option Call

/-- The node is reached from the root of the tree through lists of children. -/
def InTree (s : Store) (id : NodeId) : Prop :=
  ∃ root, s.treeRootNode = some root ∧ Descends (childrenOf s.nodes) root id

/-- The map has the nodes of the tree under their roots, and no others. -/
structure InStep (s : Store) : Prop where
  wellFormed : WellFormed s
  registered : ∀ {id : NodeId} {n : Node}, InTree s id → s.nodes[id]? = some n →
    s.nodeByRoot n.root = some id
  rooted : ∀ {root : Root} {id : NodeId}, s.nodeByRoot root = some id → InTree s id

variable {s s' : Store} {c c' : Call} {id parent : NodeId}

/-- The parent of a node in the tree is in the tree and has the node as a child. -/
theorem InTree.parent_mem (hid : InTree s id) (hwf : WellFormed s)
    (hpar : parentOf s.nodes id = some parent) :
    InTree s parent ∧ id ∈ childrenOf s.nodes parent := by
  obtain ⟨root, hroot, hbelow⟩ := hid
  obtain rfl | ⟨last, hlast, hmem⟩ := iff_tail.1 hbelow
  · simp [(hwf.treeRoot hroot).2] at hpar
  · have heq : last = parent := some.inj ((hwf.linked.child_parent hmem).symm.trans hpar)
    exact ⟨⟨root, hroot, heq ▸ hlast⟩, heq ▸ hmem⟩

theorem InTree.lt_length (hid : InTree s id) (hwf : WellFormed s) : id < s.nodes.length := by
  obtain ⟨root, hroot, hbelow⟩ := hid
  obtain rfl | ⟨last, -, hmem⟩ := iff_tail.1 hbelow
  · exact (hwf.treeRoot hroot).1
  · exact hwf.linked.lt_length_of_mem hmem

theorem InTree.of_sameTree (hid : InTree s' id) (hsame : SameTree s s') : InTree s id := by
  obtain ⟨root, hroot, hbelow⟩ := hid
  exact ⟨root, hsame.treeRootNode ▸ hroot, hsame.childrenOf_eq ▸ hbelow⟩

theorem SameTree.symm (hsame : SameTree s s') : SameTree s' s where
  size := hsame.size.symm
  node {id n'} hnode := by
    obtain ⟨n, hnode', -⟩ := hsame.node_of_later hnode
    obtain ⟨n'', hnode'', hroot, hpar, hchildren⟩ := hsame.node hnode'
    rw [hnode, some.injEq] at hnode''
    subst hnode''
    exact ⟨n, hnode', hroot.symm, hpar.symm, hchildren.symm⟩
  nodeByRoot := hsame.nodeByRoot.symm
  treeRootNode := hsame.treeRootNode.symm

theorem InStep.of_sameTree (hstep : InStep s) (hsame : SameTree s s') : InStep s' where
  wellFormed := hstep.wellFormed.of_sameTree hsame
  registered hid hnode := by
    obtain ⟨n, hnode', hroot⟩ := hsame.node_of_later hnode
    rw [hroot, hsame.nodeByRoot]
    exact hstep.registered (hid.of_sameTree hsame) hnode'
  rooted hroot := by
    rw [hsame.nodeByRoot] at hroot
    exact (hstep.rooted hroot).of_sameTree hsame.symm

section Removal

theorem childrenOf_detach_of_ne {other : NodeId} (hne : other ≠ parent) :
    childrenOf (c.detach id parent).nodes other = childrenOf c.nodes other := by
  rw [childrenOf_detach, if_neg hne]

section

variable (hlinked : Linked c.nodes) (hmem : id ∈ childrenOf c.nodes parent) (other : NodeId)
include hlinked hmem

theorem mem_childrenOf_detach : other ∈ childrenOf (c.detach id parent).nodes parent ↔
      other ∈ childrenOf c.nodes parent ∧ other ≠ id := by
  rw [childrenOf_detach, if_pos rfl, (removeFromChildren_perm hmem).mem_iff,
    (hlinked.nodup parent).mem_erase_iff, and_comm]

/-- What is below the node itself does not change. -/
theorem descends_detach : Descends (childrenOf (c.detach id parent).nodes) id other ↔
      Descends (childrenOf c.nodes) id other := by
  apply Descends.congr
  intro x hx
  apply childrenOf_detach_of_ne
  rintro rfl
  exact (hlinked.isTree x).not_descends_of_mem (refl x) hmem hx

end

theorem inTree_detach (hwf : WellFormed c) (hpar : InTree c parent)
    (hmem : id ∈ childrenOf c.nodes parent) (other : NodeId) :
    InTree (c.detach id parent) other ↔
      InTree c other ∧ ¬ Descends (childrenOf c.nodes) id other := by
  obtain ⟨root, hroot, hbelow⟩ := hpar
  have htree := (hwf.linked.isTree root).descends_removeChild hbelow hmem
    (mem_childrenOf_detach hwf.linked hmem) (fun x hx ↦ childrenOf_detach_of_ne hx) (c := other)
  constructor
  · rintro ⟨root', hroot', hother⟩
    obtain rfl : root = root' := some.inj (hroot.symm.trans hroot')
    exact ⟨⟨root, hroot, (htree.1 hother).1⟩, (htree.1 hother).2⟩
  · rintro ⟨⟨root', hroot', hother⟩, hcut⟩
    obtain rfl : root = root' := some.inj (hroot.symm.trans hroot')
    exact ⟨root, hroot, htree.2 ⟨hother, hcut⟩⟩

/-- When a node is detached and it and the nodes below it have left the map, the rest is in step. -/
theorem InStep.of_forgets (hstep : InStep c) (hpar : InTree c parent)
    (hmem : id ∈ childrenOf c.nodes parent) (hnodes : c'.nodes = (c.detach id parent).nodes)
    (hforgets : Forgets {x | Descends (childrenOf (c.detach id parent).nodes) id x}
      (c.detach id parent) c') : InStep c' := by
  have hwf := hstep.wellFormed
  have hshrinks : Shrinks c c' := (shrinks_detach id parent).trans hforgets.shrinks
  have hbelow := descends_detach hwf.linked hmem
  have hinTree (other : NodeId) : InTree c' other ↔
      InTree c other ∧ ¬ Descends (childrenOf c.nodes) id other := by
    rw [← inTree_detach hwf hpar hmem, InTree, InTree, hnodes, hforgets.shrinks.treeRootNode_eq]
  refine ⟨hwf.of_shrinks hshrinks, ?_, ?_⟩
  · intro other n' hother hnode'
    obtain ⟨hold, hcut⟩ := (hinTree other).1 hother
    obtain ⟨n, hnode, hn⟩ := hshrinks.node_of_later hnode'
    have hroot : n'.root = n.root := by rw [hn.same]
    have hentry := hstep.registered hold hnode
    rw [hroot, hforgets.kept]
    · exact hentry
    -- A removed node with the same root would be the same node.
    · rintro x m' hx hm' heq
      obtain ⟨m, hm, hsame⟩ := (shrinks_detach id parent).node_of_later hm'
      have hm'root : m'.root = m.root := by rw [hsame.same]
      rw [Set.mem_ofPred_eq, hbelow] at hx
      have hxtree : InTree c x := by
        obtain ⟨root, hroot, hdesc⟩ := hpar
        exact ⟨root, hroot, (hdesc.tail hmem).trans hx⟩
      have hxentry := hstep.registered hxtree hm
      grind
  · intro root other hroot
    rw [hinTree]
    have hold := hshrinks.nodeByRoot_of_later hroot
    refine ⟨hstep.rooted hold, fun hx ↦ ?_⟩
    obtain ⟨n, hnode, hn⟩ := hwf.index hold
    obtain ⟨n', hnode', hsame⟩ := (shrinks_detach id parent).node hnode
    have hgone := hforgets.gone ((hbelow other).2 hx) hnode'
    have hroot' : n'.root = root := by rw [← hn, hsame.same]
    rw [hroot', hroot] at hgone
    simp at hgone

/-- A leaf is removed without a look at the context. -/
theorem wp_removeNodeAndChildren_leaf {fuel : ℕ} {roots : List Root} (hid : id < c.nodes.length)
    (hleaf : childrenOf c.nodes id = []) :
    wp (removeNodeAndChildren (fuel + 1) id roots) (fun _ c' ↦ c'.nodes = c.nodes ∧
      Forgets {x | Descends (childrenOf c.nodes) id x} c c') c := by
  obtain ⟨n, hnode⟩ : ∃ n, c.nodes[id]? = some n := ⟨_, List.getElem?_eq_getElem hid⟩
  have hchildren : n.children = [] := (childrenOf_eq hnode).symm.trans hleaf
  have hset : {x | Descends (childrenOf c.nodes) id x} = {id} := by
    rw [setOf_descends, hleaf]
    simp
  rw [removeNodeAndChildren, wp_bind, wp_load hnode, whenOk_ok, hchildren, hset]
  exact ⟨rfl, .of_singleton (.of_forget n) hnode rfl⟩

/-- `removeNode` keeps the tree and the map in step if it is not cancelled or has nothing to check
the context for. -/
theorem InStep.removeNode (hstep : InStep c) (hid : InTree c id)
    (hctx : c.ctx = none ∨ childrenOf c.nodes id = []) :
    wp (removeNode id) (fun _ c' ↦ InStep c') c := by
  have hwf := hstep.wellFormed
  have hlt := hid.lt_length hwf
  rw [DoublyLinkedTree.removeNode, wp_bind, wp_get, whenOk_ok]
  cases hnode : c.nodes[id]? with
  | none => exact hstep
  | some n =>
    simp only
    split
    · rename_i parent hopt hlink
      obtain ⟨hpar, hmem⟩ := hid.parent_mem hwf ((parentOf_eq hnode).trans hlink)
      rw [wp_bind, wp_update, whenOk_ok, wp_bind, wp_get, whenOk_ok]
      have hlinked := hwf.linked.of_shrinks (shrinks_detach id parent)
      have hlt' : id < (c.detach id parent).nodes.length := by
        rw [(shrinks_detach id parent).size]
        exact hlt
      obtain hnone | hleaf := hctx
      · apply (wp_removeNodeAndChildren hlinked (Nat.le_refl _) hlt' [] rfl).mono
        intro out last hlast
        cases out with
        | error fault => exact absurd hnone hlast
        | ok roots => exact hstep.of_forgets hpar hmem hlast.2.1 hlast.2.2
      · have hne : id ≠ parent := (hwf.linked.lt_of_mem hmem).ne'
        apply (wp_removeNodeAndChildren_leaf hlt' ((childrenOf_detach_of_ne hne).trans hleaf)).mono
        intro out last hlast
        exact hstep.of_forgets hpar hmem hlast.1 hlast.2
    · exact hstep

end Removal

/-- `setOptimisticToInvalid` keeps the tree and the map in step if it is not cancelled. -/
theorem InStep.setOptimisticToInvalid (hstep : InStep c) (hctx : c.ctx = none)
    (root parentRoot lastValid : Root) :
    wp (setOptimisticToInvalid root parentRoot lastValid) (fun _ c' ↦ InStep c') c := by
  apply wp_setOptimisticToInvalid fun _ ↦ hstep
  intro root id start ctx hroot hanc hnone
  have hstart : InTree c start := by
    induction hanc with
    | refl => exact hstep.rooted hroot
    | tail _ hpar ih => exact (ih.parent_mem hstep.wellFormed hpar).1
  exact InStep.removeNode (c := { c with ctx := ctx }) hstep hstart (.inl (hnone hctx))

section Prune

variable {nodes : List Node} {final root : NodeId}

/-- A node below the finalized one is only reached through it. -/
theorem Linked.not_descends_stopAt (hlinked : Linked nodes) (hroot : parentOf nodes root = none)
    (hbelow : Descends (childrenOf nodes) final id)
    (hreached : Descends (stopAt final (childrenOf nodes)) root id) : id = final := by
  induction hbelow with
  | refl => rfl
  | @tail last id _ hmem ih =>
    have hpar := hlinked.child_parent hmem
    obtain rfl | ⟨other, hother, hmem'⟩ := iff_tail.1 hreached
    · simp [hroot] at hpar
    · have hother' := hlinked.child_parent ((stopAt_sublist _ _).subset hmem')
      obtain rfl : other = last := some.inj (hother'.symm.trans hpar)
      simp [stopAt, ih hother] at hmem'

/-- Every node of the tree is below the finalized one or reached without going through it. -/
theorem descends_or_stopAt (hid : Descends (childrenOf nodes) root id) :
    Descends (childrenOf nodes) final id ∨
      Descends (stopAt final (childrenOf nodes)) root id ∧ id ≠ final := by
  induction hid with
  | refl =>
    by_cases heq : root = final
    · exact .inl (heq ▸ refl _)
    · exact .inr ⟨refl _, heq⟩
  | @tail last id _ hmem ih =>
    obtain hbelow | ⟨hreached, hne⟩ := ih
    · exact .inl (hbelow.tail hmem)
    · by_cases heq : id = final
      · exact .inl (heq ▸ refl _)
      · refine .inr ⟨hreached.tail ?_, heq⟩
        rwa [stopAt, if_neg hne]

/-- When the nodes that are not below the finalized one are pruned, the rest is a tree in step with
the map. -/
theorem InStep.of_prunes (hstep : InStep c) (hroot : c.treeRootNode = some root)
    (hfin : InTree c final)
    (hprunes : Prunes {x | Descends (stopAt final (childrenOf c.nodes)) root x ∧ x ≠ final} c c')
    (hwf : WellFormed (c'.reroot final)) : InStep (c'.reroot final) := by
  have hlinked := hstep.wellFormed.linked
  have horphan := (hstep.wellFormed.treeRoot hroot).2
  have hbelow {x : NodeId} (hx : Descends (childrenOf c.nodes) final x) :
      x ∉ {x | Descends (stopAt final (childrenOf c.nodes)) root x ∧ x ≠ final} :=
    fun ⟨hreached, hne⟩ ↦ hne (hlinked.not_descends_stopAt horphan hx hreached)
  have hinTree (x : NodeId) : InTree (c'.reroot final) x ↔
      Descends (childrenOf c.nodes) final x := by
    have hsame : Descends (childrenOf (c'.reroot final).nodes) final x ↔
        Descends (childrenOf c.nodes) final x :=
      Descends.congr fun y hy ↦ by rw [reroot_childrenOf, hprunes.intact (hbelow hy)]
    rw [← hsame]
    simp [InTree, reroot]
  have hold {x : NodeId} (hx : Descends (childrenOf c.nodes) final x) :
      InTree c x := by
    obtain ⟨root', hroot', hdesc⟩ := hfin
    exact ⟨root', hroot', hdesc.trans hx⟩
  have hshrinks := hprunes.forgets.shrinks
  refine ⟨hwf, ?_, ?_⟩
  · intro x n'' hx hnode''
    obtain ⟨n', link, hnode', rfl⟩ := reroot_node hnode''
    obtain ⟨n, hnode, hn⟩ := hshrinks.node_of_later hnode'
    have hentry := hstep.registered (hold ((hinTree x).1 hx)) hnode
    have hnroot : n'.root = n.root := by rw [hn.same]
    have hkept : c'.nodeByRoot n.root = c.nodeByRoot n.root := by
      apply hprunes.forgets.kept
      rintro y m ⟨hreached, hne⟩ hm heq
      have hytree : InTree c y :=
        ⟨root, hroot, hreached.mono fun z ↦ (stopAt_sublist _ z).subset⟩
      have hyentry := hstep.registered hytree hm
      grind
    change c'.nodeByRoot n'.root = some x
    rw [hnroot, hkept, hentry]
  · intro key x hkey
    have hkey' : c'.nodeByRoot key = some x := hkey
    have hentry := hshrinks.nodeByRoot_of_later hkey'
    obtain ⟨n, hnode, hn⟩ := hstep.wellFormed.index hentry
    obtain ⟨root', hroot', hdesc⟩ := hstep.rooted hentry
    obtain rfl : root = root' := some.inj (hroot.symm.trans hroot')
    rw [hinTree]
    refine (descends_or_stopAt hdesc).resolve_right fun hpruned ↦ ?_
    have hgone := hprunes.forgets.gone hpruned hnode
    rw [hn, hkey'] at hgone
    simp at hgone

/-- `prune` has no child of the finalized node to prune. -/
def NoIncompatibleChild (config : BeaconChainConfig) (s : Store) : Prop :=
  ∀ finalizedNode ∈ s.nodeByRoot s.finalizedCheckpoint.root, ∀ n ∈ s.nodes[finalizedNode]?,
    n.parent ≠ none →
    ∀ checkpointMaxSlot ∈ (epochStart config s.finalizedCheckpoint.epoch).toOption,
      n.slot ≠ checkpointMaxSlot →
      ∀ child ∈ n.children, ∀ m ∈ s.nodes[child]?, checkpointMaxSlot < m.slot

instance (config : BeaconChainConfig) (s : Store) : Decidable (NoIncompatibleChild config s) := by
  delta NoIncompatibleChild
  infer_instance

variable {config : BeaconChainConfig}

/-- The last loop of `prune` does nothing when all the children are after the checkpoint. -/
theorem wp_pruneIncompatibleChildren {epoch : Epoch}
    (hlater : ∀ n maxSlot, c.nodes[final]? = some n →
      epochStart config epoch = .ok maxSlot → n.slot ≠ maxSlot →
      ∀ child m, child ∈ n.children → c.nodes[child]? = some m → maxSlot < m.slot) :
    wp (pruneIncompatibleChildren config final epoch) (fun _ c' ↦ c' = c) c := by
  simp only [pruneIncompatibleChildren, wrap, wp_bind, wp_mapOutcome, wp_ofExcept]
  cases hstart : epochStart config epoch with
  | error fault => cases fault <;> rfl
  | ok maxSlot =>
    rw [wrapf_ok, whenOk_ok, wp_bind]
    apply wp_load_intro _ fun _ ↦ rfl
    intro n hnode
    rw [whenOk_ok]
    split_ifs with hslot
    · rfl
    · apply wp_forM (fun _ middle ↦ middle = c) rfl _ fun _ hlast ↦ hlast
      rintro done child rest middle hsplit rfl
      rw [pruneIncompatibleChild, wp_bind, wp_get, whenOk_ok]
      cases hchild : middle.nodes[child]? with
      | none => rfl
      | some m =>
        have hlt := hlater n maxSlot hnode hstart hslot child m (by simp [hsplit]) hchild
        simp only [not_le.2 hlt, if_false]
        rfl

theorem InStep.prune (hstep : InStep c) (hctx : c.ctx = none)
    (hchildren : NoIncompatibleChild config c) : wp (prune config) (fun _ c' ↦ InStep c') c := by
  have hwf := hstep.wellFormed
  rw [DoublyLinkedTree.prune, wp_bind, wp_get, whenOk_ok]
  cases hfin : c.nodeByRoot c.finalizedCheckpoint.root with
  | none => exact hstep
  | some final =>
    obtain ⟨n, hnode, hn⟩ := hwf.index hfin
    simp only [wp_bind, wp_load hnode, whenOk_ok]
    split_ifs with hpar
    · exact hstep
    · have hinTree := hstep.rooted hfin
      obtain ⟨root, hroot, hbelow⟩ := hinTree
      have htree : c.treeRoot = root := by simp [Store.treeRoot, hroot]
      have hdetaches : PruneDetaches c := by
        intro other hother
        grind
      rw [wp_bind, wp_iff]
      intro out middle hrun
      have hdone := wp_iff.1 (wp_pruneFinalizedNodeByRootMap hwf.linked (Nat.le_refl _)
        (hwf.treeRoot hroot).1 rfl) out middle (htree ▸ hrun)
      cases out with
      | error fault => exact absurd hctx hdone
      | ok _ =>
        have hprunes := hdone.2
        have hshrinks := hprunes.forgets.shrinks
        have hlt : final < middle.nodes.length := hshrinks.size ▸ hwf.lt_length hfin
        have hreroot := (hwf.of_shrinks hshrinks).of_reroot hlt (hdetaches.notMem hwf hfin
          (fun m hm ↦ some.inj (hnode.symm.trans hm) ▸ hpar) hrun)
        rw [whenOk_ok, wp_bind, wp_modify, whenOk_ok]
        apply (wp_pruneIncompatibleChildren _).mono
        · rintro _ _ rfl
          exact hstep.of_prunes hroot ⟨root, hroot, hbelow⟩ hprunes hreroot
        · intro n'' maxSlot hn'' hstart hslot child m'' hchild hm''
          obtain ⟨n', link, hn', rfl⟩ := reroot_node hn''
          obtain ⟨m', link', hm', rfl⟩ := reroot_node hm''
          obtain ⟨m, hm, hsame⟩ := hshrinks.node_of_later hm'
          obtain ⟨n₀, hn₀, hsame'⟩ := hshrinks.node_of_later hn'
          obtain rfl : n = n₀ := some.inj (hnode.symm.trans hn₀)
          have hmslot : m'.slot = m.slot := by rw [hsame.same]
          have hnslot : n'.slot = n.slot := by rw [hsame'.same]
          rw [hmslot]
          exact hchildren final hfin n hnode hpar maxSlot
            (congrArg Except.toOption hstart) (hnslot ▸ hslot) child (hsame'.children.subset hchild)
            m hm

end Prune

section Insert

variable {config : BeaconChainConfig} {block : ROBlock} {payload : Root}
  {just fin : Epoch} {node : Node} {parentId : NodeId}

/-- An insertion adds at most the new node to the tree, and the map has the new node if and only if
the tree has it. -/
theorem InStep.of_appends (hstep : InStep c) (happ : Appends c node c')
    (hwf : WellFormed c') (hunknown : c.nodeByRoot node.root = none)
    (hkept : ∀ id, InTree c id → InTree c' id)
    (hadded : ∀ id, InTree c' id → InTree c id ∨ id = c.nodes.length)
    (hnew : InTree c' c.nodes.length ↔ c'.nodeByRoot node.root = some c.nodes.length) :
    InStep c' := by
  refine ⟨hwf, ?_, ?_⟩
  · intro id n' hid hnode'
    obtain hold | rfl := hadded id hid
    · have hne : id ≠ c.nodes.length := (hold.lt_length hstep.wellFormed).ne
      obtain ⟨n, children, hnode, rfl⟩ := happ.node_of_later hnode' hne
      have hentry := hstep.registered hold hnode
      have hroot : n.root ≠ node.root := by
        intro heq
        simp [← heq, hentry] at hunknown
      exact (happ.other hroot).trans hentry
    · rw [happ.new, some.injEq] at hnode'
      exact hnode' ▸ hnew.1 hid
  · intro root id hroot
    by_cases heq : root = node.root
    · subst heq
      obtain rfl := happ.entry hroot
      exact hnew.2 hroot
    · rw [happ.other heq] at hroot
      exact hkept id (hstep.rooted hroot)

/-- A node that is put into the memory without a link is not in the tree. -/
theorem inTree_register (hwf : WellFormed c) (id : NodeId) :
    InTree ((c.register node).unregister node) id ↔ InTree c id := by
  have hsame {root : NodeId} (hroot : c.treeRootNode = some root) :
      Descends (childrenOf ((c.register node).unregister node).nodes) root id ↔
        Descends (childrenOf c.nodes) root id := by
    apply Descends.congr
    intro x hx
    have hlt : x < c.nodes.length := InTree.lt_length ⟨root, hroot, hx⟩ hwf
    simp only [unregister, register]
    rw [childrenOf_append, if_neg hlt.ne]
  constructor
  · rintro ⟨root, hroot, hbelow⟩
    exact ⟨root, hroot, (hsame hroot).1 hbelow⟩
  · rintro ⟨root, hroot, hbelow⟩
    exact ⟨root, hroot, (hsame hroot).2 hbelow⟩

/-- The first node is the whole tree. -/
theorem inTree_plant (hchildren : node.children = []) (id : NodeId) :
    InTree (c.plant node) id ↔ id = c.nodes.length := by
  have hleaf : childrenOf (c.plant node).nodes c.nodes.length = [] := by
    simp only [plant, register]
    rw [childrenOf_append, if_pos rfl, hchildren]
  constructor
  · rintro ⟨root, hroot, hbelow⟩
    obtain rfl : c.nodes.length = root := by simpa [plant] using hroot
    obtain heq | ⟨child, hmem, -⟩ := iff_head.1 hbelow
    · exact heq.symm
    · simp [hleaf] at hmem
  · rintro rfl
    exact ⟨c.nodes.length, by simp [plant], refl _⟩

theorem inTree_link (hwf : WellFormed c) (hpar : InTree c parentId)
    (hchildren : node.children = []) (id : NodeId) :
    InTree (c.link node parentId) id ↔ InTree c id ∨ id = c.nodes.length := by
  have hlt := hpar.lt_length hwf
  obtain ⟨root, hroot, hbelow⟩ := hpar
  have hlink := childrenOf_link hlt hchildren
  have htree : Descends (childrenOf (c.link node parentId).nodes) root id ↔
      Descends (childrenOf c.nodes) root id ∨ id = c.nodes.length := by
    apply IsTree.descends_insertLeaf hbelow
    · exact fun hdesc ↦ (InTree.lt_length ⟨root, hroot, hdesc⟩ hwf).false
    · rw [hlink, if_pos rfl]
    · rw [hlink, if_neg hlt.ne', if_pos rfl]
    · intro x hx hx'
      rw [hlink, if_neg hx, if_neg hx']
  constructor
  · rintro ⟨root', hroot', hid⟩
    obtain rfl : root = root' := some.inj (hroot.symm.trans hroot')
    exact (htree.1 hid).imp_left fun hold ↦ ⟨root, hroot, hold⟩
  · intro hid
    refine ⟨root, hroot, htree.2 (hid.imp_left ?_)⟩
    rintro ⟨root', hroot', hold⟩
    grind

section

variable (hstep : InStep c)
include hstep

theorem InStep.of_link {root : Root} (hpar : c.nodeByRoot root = some parentId)
    (hchildren : node.children = []) (hlink : node.parent = some parentId)
    (hunknown : c.nodeByRoot node.root = none) : InStep (c.link node parentId) := by
  have hwf := hstep.wellFormed
  have hinTree := inTree_link hwf (hstep.rooted hpar) hchildren
  apply hstep.of_appends (.of_link hpar (hwf.lt_length hpar) hchildren hlink)
    (hwf.of_link (hwf.lt_length hpar) hchildren hlink (hwf.planted hpar)) hunknown
  · exact fun id hid ↦ (hinTree id).2 (.inl hid)
  · exact fun id ↦ (hinTree id).1
  · exact iff_of_true ((hinTree _).2 (.inr rfl)) (by simp [link, register])

theorem InStep.of_inserted (hunknown : c.nodeByRoot block.root = none)
    (hins : Inserted config block payload just fin c c') : InStep c' := by
  have hwf := hstep.wellFormed
  have hwf' := hwf.of_inserted hins
  obtain ⟨_, happ⟩ := hins.appends hwf.lt_length
  cases hins with
  | refused hpar htree =>
    apply hstep.of_appends happ hwf' hunknown
    · exact fun id ↦ (inTree_register hwf id).2
    · exact fun id hid ↦ .inl ((inTree_register hwf id).1 hid)
    · apply iff_of_false
      · intro hid
        exact (((inTree_register hwf _).1 hid).lt_length hwf).false
      · simp [unregister, nodeFor, newNode]
  | planted hpar htree =>
    apply hstep.of_appends happ hwf' hunknown
    · rintro id ⟨root, hroot, -⟩
      simp [htree] at hroot
    · exact fun id hid ↦ .inr ((inTree_plant rfl id).1 hid)
    · apply iff_of_true
      · exact (inTree_plant rfl _).2 rfl
      · simp [plant, register, nodeFor, newNode]
  | linked hpar hnode => exact hstep.of_link hpar rfl rfl hunknown
  | @boosted parentId parent hpar hnode _ =>
    have hlink : InStep (c.link (nodeFor config block payload just fin c
        (some (parentId, parent))) parentId) := hstep.of_link hpar rfl rfl hunknown
    exact hlink.of_sameTree (.of_eq rfl rfl rfl)

/-- The end of `insert` keeps the tree and the map in step, also when it takes out the new leaf. -/
theorem InStep.boostAndUpdate (hid : InTree c id) (hleaf : childrenOf c.nodes id = [])
    (now : Time) : wp (boostAndUpdate config id block now) (fun _ c' ↦ InStep c') c := by
  simp only [DoublyLinkedTree.boostAndUpdate, wp_bind, wp_currentSlot, whenOk_ok, wp_get, wrap,
    wp_mapOutcome, wp_ofExcept]
  cases sinceSlotStart config (slotAt config c.genesisTime (c.clock 0)) c.tick.genesisTime now with
  | error fault => cases fault <;> exact hstep
  | ok sss =>
    rw [wrapf_ok, whenOk_ok, wp_bind, wp_modify, whenOk_ok, wp_bind, wp_get, whenOk_ok]
    have hboost : SameTree c (c.tick.boostFirst config block
        (slotAt config c.genesisTime (c.clock 0)) sss) := by
      unfold boostFirst
      split_ifs
      · exact .of_eq rfl rfl rfl
      · exact .of_eq rfl rfl rfl
    apply wp_orRemove
    · apply Recomputed.preserves_sameTree (fun _ ↦ recomputed_updateBestDescendant _ _ _ _) _ hboost
    · exact fun call hsame ↦ hstep.of_sameTree hsame
    · intro call hsame
      apply (hstep.of_sameTree hsame).removeNode (hid.of_sameTree hsame.symm)
      exact .inr (hsame.childrenOf_eq ▸ hleaf)

theorem InStep.recordReceived (slot : Slot) :
    wp (recordReceived config id slot) (fun _ c' ↦ InStep c') c :=
  (sameTree_recordReceived config id slot c (.refl c)).mono fun _ _ hsame ↦
    hstep.of_sameTree hsame

theorem InStep.insertNew (hunknown : c.nodeByRoot block.root = none) :
    wp (insertNew config block payload just fin) (fun _ c' ↦ InStep c') c := by
  have hwf := hstep.wellFormed
  refine (wp_insertNew_keeps (fun c' ↦ InStep c') (hstep.of_inserted hunknown)
    (fun _ hcall ↦ hcall) (fun parentId parent now hpar hnode ↦ ?_)
    fun _ hcall ↦ hcall.recordReceived block.slot).mono ?_
  · exact InStep.boostAndUpdate (c := (c.link (nodeFor config block payload just
      fin c (some (parentId, parent))) parentId).tick)
      (show InStep (c.link _ parentId) from hstep.of_inserted hunknown (.linked hpar hnode))
      ((inTree_link hwf (hstep.rooted hpar) rfl _).2 (.inr rfl))
      (childrenOf_eq (link_new (hwf.lt_length hpar))) now
  · rintro _ last (rfl | hlast)
    · exact hstep
    · exact hlast

/-- `insert` keeps the tree and the map in step, also when it fails. -/
theorem InStep.insert : wp (insert config block just fin) (fun _ c' ↦ InStep c') c := by
  rw [DoublyLinkedTree.insert, wp_bind, wp_ofExcept]
  cases block.payloadHash with
  | error fault => exact hstep
  | ok payload =>
    rw [whenOk_ok, wp_bind, wp_get, whenOk_ok]
    cases hroot : c.nodeByRoot block.root with
    | some id => exact hstep
    | none => exact hstep.insertNew hroot

end

end Insert

section Runs

variable {config : BeaconChainConfig} {f : ForkChoice}

/-- The calls that keep the tree and the map in step: a removal or a pruning must not be cancelled,
and a pruning must not find a child of the finalized node to prune.  `InsertNode` and `NewSlot`,
which prune too, are left out. -/
def StepKept (config : BeaconChainConfig) (f : ForkChoice) : Request × Environment → Prop
  | (.removeNode _, environment) => environment.ctx = none
  | (.setOptimisticToInvalid _ _ _, environment) => environment.ctx = none
  | (.prune, environment) => environment.ctx = none ∧ NoIncompatibleChild config f.toStore
  | (.insertNode _ _, _) => False
  | (.newSlot _ _, _) => False
  | _ => True

theorem InStep.new (config : BeaconChainConfig) (genesis : Time) :
    InStep (ForkChoice.new config genesis).toStore where
  wellFormed := .new config genesis
  registered hid := by
    obtain ⟨root, hroot, -⟩ := hid
    simp [ForkChoice.new] at hroot
  rooted hroot := by simp [ForkChoice.new] at hroot

/-- A call that leaves the tree as it is keeps it in step with the map. -/
theorem InStep.of_preserves {α : Type} {op : Op α} (hstep : InStep c)
    (hop : ∀ s, Preserves (KeepsTree s) op) : wp op (fun _ c' ↦ InStep c') c :=
  (hop c c (.refl _)).mono fun _ _ hsame ↦ hstep.of_sameTree hsame

theorem InStep.removeNodeOf (hstep : InStep c) (hctx : c.ctx = none) (root : Root) :
    wp (removeNodeOf root) (fun _ c' ↦ InStep c') c := by
  rw [DoublyLinkedTree.removeNodeOf, wp_bind, wp_get, whenOk_ok]
  cases hroot : c.nodeByRoot root with
  | some id => exact hstep.removeNode (hstep.rooted hroot) (.inl hctx)
  | none => simpa [DoublyLinkedTree.removeNode] using hstep

/-- A call that is allowed keeps the tree and the map in step, however it ends. -/
theorem InStep.perform (hstep : InStep f.toStore) {call : Request × Environment}
    (hkept : StepKept config f call) : InStep (perform config f call).2.toStore := by
  obtain ⟨request, env⟩ := call
  have hcall : InStep (f.call env) := hstep
  suffices hwp : wp (request.op config) (fun _ c' ↦ InStep c') (f.call env) from hwp
  cases request with
  | insert block justifiedEpoch finalizedEpoch => exact hcall.insert.map _
  | processAttestation indices blockRoot targetEpoch =>
    exact (hcall.of_preserves fun _ ↦
      sameTree_processAttestation indices blockRoot targetEpoch).map _
  | updateJustifiedBalances root =>
    exact (hcall.of_preserves fun _ ↦ sameTree_updateJustifiedBalances config root).map _
  | insertSlashedIndex index =>
    exact (hcall.of_preserves fun _ ↦ sameTree_insertSlashedIndex index).map _
  | setOptimisticToValid root =>
    exact (hcall.of_preserves fun _ ↦ sameTree_setOptimisticToValid root).map _
  | setOptimisticToInvalid root parentRoot lastValid =>
    exact (hcall.setOptimisticToInvalid hkept root parentRoot lastValid).map _
  | removeNode root => exact (hcall.removeNodeOf hkept root).map _
  | updateFinalizedCheckpoint fc =>
    apply wp.map
    exact hcall.of_sameTree (.of_eq rfl rfl rfl)
  | prune => exact (hcall.prune hkept.1 hkept.2).map _
  | head => exact (hcall.of_preserves fun _ ↦ sameTree_forkChoiceHead config).map _
  | insertNode state block | newSlot slot order => exact absurd hkept id

/-- In every run of insertions, removals, prunings and `Head` the keys of the map are the roots of
the nodes of the tree, every node of the tree but its root is in exactly one list of children, which
is the one of its parent, and the root has no parent. -/
theorem tree_and_index_in_step (config : BeaconChainConfig) (genesisTime : Time)
    {events : List Event} {f : ForkChoice}
    (run : Run (CallStep (perform config) (StepKept config)) (ForkChoice.new config genesisTime)
      events f) :
    (∀ root, f.nodeByRoot root ≠ none ↔
      ∃ id n, InTree f.toStore id ∧ f.nodes[id]? = some n ∧ n.root = root) ∧
    (∀ id, InTree f.toStore id → f.treeRootNode ≠ some id →
      ∃ parent, parentOf f.nodes id = some parent ∧ InTree f.toStore parent ∧
        (childrenOf f.nodes parent).count id = 1 ∧
        ∀ other, id ∈ childrenOf f.nodes other → other = parent) ∧
    (∀ id, f.treeRootNode = some id →
      parentOf f.nodes id = none ∧ ∀ other, id ∉ childrenOf f.nodes other) := by
  have hstep : InStep f.toStore :=
    run.call_invariant (fun f ↦ InStep f.toStore) (.new config genesisTime)
      fun _ _ hstep hkept ↦ hstep.perform hkept
  have hwf := hstep.wellFormed
  refine ⟨?_, ?_, ?_⟩
  · intro root
    constructor
    · intro hroot
      obtain ⟨id, hid⟩ := ne_none_iff_exists'.1 hroot
      obtain ⟨n, hnode, hn⟩ := hwf.index hid
      exact ⟨id, n, hstep.rooted hid, hnode, hn⟩
    · rintro ⟨id, n, hid, hnode, rfl⟩
      simp [hstep.registered hid hnode]
  · rintro id ⟨root, hroot, hbelow⟩ hne
    obtain rfl | ⟨parent, hpar, hmem⟩ := iff_tail.1 hbelow
    · exact absurd hroot hne
    · have hlink := hwf.linked.child_parent hmem
      refine ⟨parent, hlink, ⟨root, hroot, hpar⟩, ?_, fun other hother ↦ ?_⟩
      · exact List.count_eq_one_of_mem (hwf.linked.nodup parent) hmem
      · exact some.inj ((hwf.linked.child_parent hother).symm.trans hlink)
  · intro id hroot
    obtain ⟨-, horphan⟩ := hwf.treeRoot hroot
    refine ⟨horphan, fun other hother ↦ ?_⟩
    simp [hwf.linked.child_parent hother] at horphan

/-- A chain of three blocks whose second one, at the given slot, is finalized for the first epoch.
-/
def finalizedChain (slot : Slot) : List (Request × Environment) :=
  [(.insert ⟨1, 0, 0, none⟩ 0 0, environmentAt none 0),
    (.insert ⟨2, slot, 1, none⟩ 0 0, environmentAt none 0),
    (.insert ⟨3, slot + 1, 2, none⟩ 0 0, environmentAt none 0),
    (.updateFinalizedCheckpoint ⟨1, 2⟩, environmentAt none 0),
    (.prune, environmentAt none 0)]

/-- The store after the chain. -/
def afterFinalizedChain (slot : Slot) : ForkChoice :=
  (execute (perform mainnetConfig) (ForkChoice.new mainnetConfig 0) (finalizedChain slot)).2

theorem tree_and_index_in_step_finalizedChain :
    (afterFinalizedChain 32).nodeByRoot 1 = none ∧
      ∃ id n, InTree (afterFinalizedChain 32).toStore id ∧
        (afterFinalizedChain 32).nodes[id]? = some n ∧ n.root = 3 := by
  have hallowed : AllAllowed (perform mainnetConfig) (StepKept mainnetConfig)
      (ForkChoice.new mainnetConfig 0) (finalizedChain 32) :=
    ⟨trivial, trivial, trivial, trivial, ⟨rfl, by decide +kernel⟩, trivial⟩
  exact ⟨by decide +kernel, ((tree_and_index_in_step mainnetConfig 0
    (run_execute (perform mainnetConfig) (StepKept mainnetConfig) _ _ hallowed)).1 3).1
      (by decide +kernel)⟩

/-- The finalized block is before the start of its epoch, and so is its child.  The child is taken
out of the map and stays a child of the root of the tree. -/
theorem finalizedChain_dangling_child :
    (afterFinalizedChain 1).nodeByRoot 3 = none ∧
      InTree (afterFinalizedChain 1).toStore 2 ∧
      ((afterFinalizedChain 1).nodes[2]?).map Node.root = some 3 :=
  ⟨by decide +kernel, ⟨1, by decide +kernel, .of_mem (by decide +kernel)⟩, by decide +kernel⟩

end Runs

end Prysm.DoublyLinkedTree
