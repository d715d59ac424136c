import Prysm.DoublyLinkedTree.Frames
import Prysm.Library.RootedTree

/-!
# The links between the nodes

In a linked memory the children of a node point back to it, so that the nodes below any node form a
tree, and parents are older than their children.  The edits of the store keep the memory linked, and
the recursions over the children go through exactly the nodes below the one they start from.
-/

namespace Prysm.DoublyLinkedTree

open List Library Action

/-- The children of the node behind a pointer. -/
def childrenOf (nodes : List Node) (id : NodeId) : List NodeId :=
  (nodes[id]?).elim [] Node.children

/-- The parent of the node behind a pointer. -/
def parentOf (nodes : List Node) (id : NodeId) : Option NodeId :=
  (nodes[id]?).bind Node.parent

/-- The second node is the first one or an ancestor of it. -/
def Ancestor (nodes : List Node) : NodeId → NodeId → Prop :=
  Relation.ReflTransGen fun id parent ↦ parentOf nodes id = some parent

/-- Every child points back to its only parent, which is older. -/
structure Linked (nodes : List Node) : Prop where
  parent_lt : ∀ {id parent}, parentOf nodes id = some parent → parent < id
  child_parent : ∀ {id child}, child ∈ childrenOf nodes id → parentOf nodes child = some id
  nodup : ∀ id, (childrenOf nodes id).Nodup

variable {nodes nodes' : List Node} {id child : NodeId} {n : Node} {c c' : Call}
  {change : Node → Node}

theorem childrenOf_eq (hnode : nodes[id]? = some n) : childrenOf nodes id = n.children := by
  simp [childrenOf, hnode]

theorem parentOf_eq (hnode : nodes[id]? = some n) : parentOf nodes id = n.parent := by
  simp [parentOf, hnode]

theorem childrenOf_eq_nil_of_le (hle : nodes.length ≤ id) : childrenOf nodes id = [] := by
  simp [childrenOf, getElem?_eq_none hle]

theorem parentOf_eq_none_of_le (hle : nodes.length ≤ id) : parentOf nodes id = none := by
  simp [parentOf, getElem?_eq_none hle]

theorem Shrinks.childrenOf_subperm (hshrinks : Shrinks c c') (id : NodeId) :
    (childrenOf c'.nodes id).Subperm (childrenOf c.nodes id) := by
  cases hnode : c.nodes[id]? with
  | none =>
    have hnone : c'.nodes[id]? = none := by
      rw [getElem?_eq_none_iff] at hnode ⊢
      rw [hshrinks.size]
      exact hnode
    simp [childrenOf, hnone]
  | some n =>
    obtain ⟨n', hnode', hn⟩ := hshrinks.node hnode
    rw [childrenOf_eq hnode, childrenOf_eq hnode']
    exact hn.children

theorem Shrinks.parentOf_eq (hshrinks : Shrinks c c') (id : NodeId) :
    parentOf c'.nodes id = parentOf c.nodes id := by
  cases hnode : c.nodes[id]? with
  | none =>
    rw [getElem?_eq_none_iff] at hnode
    rw [parentOf_eq_none_of_le hnode, parentOf_eq_none_of_le (hshrinks.size ▸ hnode)]
  | some n =>
    obtain ⟨n', hnode', hn⟩ := hshrinks.node hnode
    rw [DoublyLinkedTree.parentOf_eq hnode, DoublyLinkedTree.parentOf_eq hnode', hn.same]

/-- The two stores have the same tree: what may differ in a node is not its root or a link. -/
structure SameTree (s s' : Store) : Prop where
  size : s'.nodes.length = s.nodes.length
  node : ∀ {id : NodeId} {n : Node}, s.nodes[id]? = some n → ∃ n', s'.nodes[id]? = some n' ∧
    n'.root = n.root ∧ n'.parent = n.parent ∧ n'.children = n.children
  nodeByRoot : s'.nodeByRoot = s.nodeByRoot
  treeRootNode : s'.treeRootNode = s.treeRootNode

namespace SameTree

variable {s s' s'' : Store}

theorem of_eq (hnodes : s'.nodes = s.nodes) (hmap : s'.nodeByRoot = s.nodeByRoot)
    (htree : s'.treeRootNode = s.treeRootNode) : SameTree s s' :=
  ⟨by rw [hnodes], fun hnode ↦ ⟨_, hnodes ▸ hnode, rfl, rfl, rfl⟩, hmap, htree⟩

theorem refl (s : Store) : SameTree s s := of_eq rfl rfl rfl

theorem trans (hfirst : SameTree s s') (hsnd : SameTree s' s'') : SameTree s s'' where
  size := hsnd.size.trans hfirst.size
  node hnode := by
    obtain ⟨n', hnode', hroot, hpar, hchildren⟩ := hfirst.node hnode
    obtain ⟨n'', hnode'', hroot', hpar', hchildren'⟩ := hsnd.node hnode'
    exact ⟨n'', hnode'', hroot'.trans hroot, hpar'.trans hpar, hchildren'.trans hchildren⟩
  nodeByRoot := hsnd.nodeByRoot.trans hfirst.nodeByRoot
  treeRootNode := hsnd.treeRootNode.trans hfirst.treeRootNode

section

variable (hsame : SameTree s s')
include hsame

theorem node_of_later {n' : Node} (hnode : s'.nodes[id]? = some n') :
    ∃ n, s.nodes[id]? = some n ∧ n'.root = n.root := by
  obtain ⟨n, hnode', hroot, -⟩ := exists_of_later hsame.size hsame.node hnode
  exact ⟨n, hnode', hroot⟩

theorem links_eq (id : NodeId) : parentOf s'.nodes id = parentOf s.nodes id ∧
    childrenOf s'.nodes id = childrenOf s.nodes id := by
  unfold parentOf childrenOf
  cases hnode : s.nodes[id]? with
  | none =>
    rw [getElem?_eq_none_iff, ← hsame.size] at hnode
    simp [getElem?_eq_none hnode]
  | some n =>
    obtain ⟨n', hnode', -, hpar, hchildren⟩ := hsame.node hnode
    simp [hnode', hpar, hchildren]

theorem parentOf_eq : parentOf s'.nodes = parentOf s.nodes := funext fun id ↦ (hsame.links_eq id).1

theorem childrenOf_eq : childrenOf s'.nodes = childrenOf s.nodes :=
  funext fun id ↦ (hsame.links_eq id).2

theorem linked (hlinked : Linked s.nodes) : Linked s'.nodes := by
  constructor
  · rw [hsame.parentOf_eq]
    exact hlinked.parent_lt
  · rw [hsame.parentOf_eq, hsame.childrenOf_eq]
    exact hlinked.child_parent
  · rw [hsame.childrenOf_eq]
    exact hlinked.nodup

end

/-- Writing fields of a node that are not its root and not links. -/
theorem of_update (s : Store) (id : NodeId) (hchange : ∀ n,
    (change n).root = n.root ∧ (change n).parent = n.parent ∧ (change n).children = n.children) :
    SameTree s { s with nodes := s.nodes.modify id change } where
  size := by simp
  node {_ n} := exists_modify ⟨rfl, rfl, rfl⟩ (hchange n)
  nodeByRoot := rfl
  treeRootNode := rfl

end SameTree

theorem Recomputed.sameTree (hrec : Recomputed c c') : SameTree c c' where
  size := hrec.size
  node hnode := by
    obtain ⟨n', hnode', hn⟩ := hrec.node hnode
    exact ⟨n', hnode', by rw [hn], by rw [hn], by rw [hn]⟩
  nodeByRoot := by rw [hrec.same]
  treeRootNode := by rw [hrec.same]

/-- The tree is still that of the store. -/
abbrev KeepsTree (s : Store) (call : Call) : Prop := SameTree s call

section KeepsTree

variable {s : Store}

theorem preserves_sameTree_modify {change : Call → Call}
    (hchange : ∀ call, SameTree call.toStore (change call).toStore) :
    Preserves (KeepsTree s) (modify change : Op Unit) :=
  preserves_modify fun call hcall ↦ hcall.trans (hchange call)

theorem sameTree_update (id : NodeId) (hchange : ∀ n,
    (change n).root = n.root ∧ (change n).parent = n.parent ∧ (change n).children = n.children) :
    Preserves (KeepsTree s) (update id change) :=
  preserves_sameTree_modify fun call ↦ .of_update call id hchange

theorem sameTree_checkContext : Preserves (KeepsTree s) checkContext :=
  checkContext_preserves fun _ _ hcall ↦ hcall

variable (config : BeaconChainConfig) (root : Root) (score : ℕ)

theorem sameTree_currentSlot : Preserves (KeepsTree s) (currentSlot config) := fun _ hcall ↦ hcall

theorem Recomputed.preserves_sameTree {α : Type} {op : Op α}
    (hop : ∀ call, Preserves (Recomputed call) op) : Preserves (KeepsTree s) op :=
  fun call hcall ↦ (hop call call (.refl call)).mono fun _ _ hlast ↦ hcall.trans hlast.sameTree

theorem sameTree_recordReceived (id : NodeId) (slot : Slot) :
    Preserves (KeepsTree s) (recordReceived config id slot) := by
  apply (sameTree_currentSlot config).bind
  intro currentSlot
  apply Preserves.bind
  · exact preserves_sameTree_modify fun _ ↦ .of_eq rfl rfl rfl
  · exact fun _ ↦ preserves_get.bind fun _ ↦ (preserves_loadLink _).bind fun _ ↦
      preserves_sameTree_modify fun _ ↦ .of_eq rfl rfl rfl

theorem sameTree_setNodeAndParentValidated (fuel : ℕ) (id : NodeId) :
    Preserves (KeepsTree s) (setNodeAndParentValidated fuel id) := by
  induction fuel generalizing id with
  | zero => exact preserves_throw _
  | succ fuel ih =>
    apply sameTree_checkContext.bind
    intro _
    apply (preserves_load id).bind
    intro n
    split_ifs
    · exact preserves_pure _
    · apply Preserves.bind
      · exact sameTree_update id fun _ ↦ ⟨rfl, rfl, rfl⟩
      · intro _
        cases n.parent with
        | none => exact preserves_pure _
        | some parent => exact ih parent

theorem sameTree_setOptimisticToValid : Preserves (KeepsTree s) (setOptimisticToValid root) := by
  apply preserves_get.bind
  intro call
  cases call.nodeByRoot root with
  | none => exact preserves_throw _
  | some id => exact sameTree_setNodeAndParentValidated _ id

theorem sameTree_processAttestation (indices : List ValidatorIndex) (blockRoot : Root)
    (targetEpoch : Epoch) :
    Preserves (KeepsTree s) (processAttestation indices blockRoot targetEpoch) := by
  apply preserves_modify
  intro call hcall
  induction indices generalizing call with
  | nil => exact hcall
  | cons index indices ih => exact ih _ (hcall.trans (.of_eq rfl rfl rfl))

theorem sameTree_updateJustifiedBalances :
    Preserves (KeepsTree s) (updateJustifiedBalances config root) := by
  apply preserves_get.bind
  intro call
  apply (preserves_wrap (preserves_ofExcept _)).bind
  intro bals
  exact preserves_sameTree_modify fun _ ↦ .of_eq rfl rfl rfl

theorem preserves_unlessZero {Invariant : Call → Prop} {root : Root} {op : Op Unit}
    (hop : Preserves Invariant op) : Preserves Invariant (unlessZero root op) :=
  (preserves_pure _).ite hop

theorem sameTree_addBalance (amount : ℕ) : Preserves (KeepsTree s) (addBalance root amount) := by
  apply preserves_get.bind
  intro call
  cases call.nodeByRoot root with
  | none => exact preserves_pure _
  | some id => exact sameTree_update id fun _ ↦ ⟨rfl, rfl, rfl⟩

theorem sameTree_subtractBalance (alarm : Alarm) (root : Root) (amount : ℕ) :
    Preserves (KeepsTree s) (subtractBalance alarm root amount) := by
  apply preserves_get.bind
  intro call
  cases call.nodeByRoot root with
  | none => exact preserves_pure _
  | some id =>
    apply (preserves_load id).bind
    intro n
    apply Preserves.ite
    · apply Preserves.bind
      · exact preserves_sameTree_modify fun _ ↦ .of_eq rfl rfl rfl
      · exact fun _ ↦ sameTree_update id fun _ ↦ ⟨rfl, rfl, rfl⟩
    · exact sameTree_update id fun _ ↦ ⟨rfl, rfl, rfl⟩

theorem sameTree_insertSlashedIndex (index : ValidatorIndex) :
    Preserves (KeepsTree s) (insertSlashedIndex index) := by
  apply preserves_get.bind
  intro f
  apply (preserves_pure _).ite
  apply Preserves.bind
  · exact preserves_sameTree_modify fun _ ↦ .of_eq rfl rfl rfl
  · exact fun _ ↦ (preserves_pure _).ite ((preserves_pure _).ite (sameTree_subtractBalance _ _ _))

theorem sameTree_updateBalances : Preserves (KeepsTree s) updateBalances := by
  apply preserves_get.bind
  intro f
  apply Preserves.bind
  · apply preserves_forM
    intro index _
    apply preserves_get.bind
    intro call
    apply (preserves_pure _).ite
    apply (preserves_pure _).ite
    apply Preserves.bind
    · apply Preserves.ite _ (preserves_pure _)
      exact (preserves_unlessZero (sameTree_addBalance _ _)).bind fun _ ↦
        preserves_unlessZero (sameTree_subtractBalance _ _ _)
    · exact fun _ ↦ preserves_sameTree_modify fun _ ↦ .of_eq rfl rfl rfl
  · exact fun _ ↦ preserves_sameTree_modify fun _ ↦ .of_eq rfl rfl rfl

theorem sameTree_withdrawBoost : Preserves (KeepsTree s) (withdrawBoost root score) := by
  apply preserves_get.bind
  intro call
  cases call.nodeByRoot root with
  | none => exact preserves_pure _
  | some id =>
    apply (preserves_load id).bind
    intro n
    apply Preserves.bind
    · exact preserves_sameTree_modify fun _ ↦ .of_eq rfl rfl rfl
    · exact fun _ ↦ sameTree_update id fun _ ↦ ⟨rfl, rfl, rfl⟩

theorem sameTree_grantBoost : Preserves (KeepsTree s) (grantBoost root score) := by
  apply (preserves_pure _).ite
  apply preserves_get.bind
  intro call
  cases call.nodeByRoot root with
  | none => exact preserves_pure _
  | some id =>
    apply Preserves.bind
    · exact sameTree_update id fun _ ↦ ⟨rfl, rfl, rfl⟩
    · exact fun _ ↦ preserves_pure _

theorem sameTree_applyProposerBoostScore :
    Preserves (KeepsTree s) (applyProposerBoostScore config) := by
  apply preserves_get.bind
  intro call
  apply (preserves_unlessZero (sameTree_withdrawBoost _ _)).bind
  intro _
  apply (sameTree_grantBoost _ _).bind
  intro score
  exact preserves_sameTree_modify fun _ ↦ .of_eq rfl rfl rfl

theorem sameTree_headFrom (justifiedNode : Option NodeId) :
    Preserves (KeepsTree s) (headFrom config justifiedNode) := by
  apply (preserves_loadLink _).bind
  intro n
  apply (sameTree_currentSlot config).bind
  intro slot
  apply (preserves_loadLink _).bind
  intro best
  apply preserves_get.bind
  intro call
  apply Preserves.ite
  · apply Preserves.bind
    · exact preserves_sameTree_modify fun _ ↦ .of_eq rfl rfl rfl
    · exact fun _ ↦ preserves_pure _
  · apply Preserves.bind
    · exact preserves_sameTree_modify fun _ ↦ .of_eq rfl rfl rfl
    · exact fun _ ↦ preserves_throw _

theorem sameTree_head : Preserves (KeepsTree s) (head config) := by
  apply sameTree_checkContext.bind
  intro _
  apply preserves_get.bind
  intro call
  cases call.nodeByRoot call.justifiedCheckpoint.root with
  | some justifiedNode => exact sameTree_headFrom config (some justifiedNode)
  | none => exact (sameTree_headFrom config call.treeRootNode).ite (preserves_throw _)

theorem sameTree_forkChoiceHead : Preserves (KeepsTree s) (forkChoiceHead config) := by
  apply (preserves_wrap sameTree_updateBalances).bind
  intro _
  apply (preserves_wrap (sameTree_applyProposerBoostScore config)).bind
  intro _
  apply preserves_get.bind
  intro call
  apply (preserves_wrap (Recomputed.preserves_sameTree fun _ ↦
    recomputed_applyWeightChanges _ _)).bind
  intro _
  apply (sameTree_currentSlot config).bind
  intro slot
  apply (preserves_wrap (Recomputed.preserves_sameTree fun _ ↦
    recomputed_updateBestDescendant _ _ _ _)).bind
  intro _
  exact sameTree_head config

end KeepsTree

namespace Linked

theorem of_shrinks (hlinked : Linked c.nodes) (hshrinks : Shrinks c c') : Linked c'.nodes where
  parent_lt hpar := hlinked.parent_lt (hshrinks.parentOf_eq _ ▸ hpar)
  child_parent hchild := by
    rw [hshrinks.parentOf_eq]
    exact hlinked.child_parent ((hshrinks.childrenOf_subperm _).subset hchild)
  nodup id := by
    obtain ⟨children, hperm, hsublist⟩ := hshrinks.childrenOf_subperm id
    exact hperm.nodup_iff.1 ((hlinked.nodup id).sublist hsublist)

section

variable (hlinked : Linked nodes)
include hlinked

theorem lt_of_mem (hchild : child ∈ childrenOf nodes id) : id < child :=
  hlinked.parent_lt (hlinked.child_parent hchild)

theorem lt_length_of_mem (hchild : child ∈ childrenOf nodes id) : child < nodes.length := by
  by_contra hle
  have hnone : parentOf nodes child = none := parentOf_eq_none_of_le (not_lt.1 hle)
  simp [hlinked.child_parent hchild] at hnone

theorem le_of_descends {a b : NodeId} (hdesc : Descends (childrenOf nodes) a b) : a ≤ b := by
  induction hdesc with
  | refl => exact le_rfl
  | tail _ hmem ih => exact ih.trans (hlinked.lt_of_mem hmem).le

/-- The nodes below any node form a tree. -/
theorem isTree (root : NodeId) : IsTree (childrenOf nodes) root where
  nodup _ := hlinked.nodup _
  parent_unique _ _ ha hb :=
    Option.some.inj ((hlinked.child_parent ha).symm.trans (hlinked.child_parent hb))
  root_notMem ha hmem := (hlinked.le_of_descends ha).not_gt (hlinked.lt_of_mem hmem)

theorem descends_subset (root : NodeId) :
    {x | Descends (childrenOf nodes) root x} ⊆
      (Finset.range nodes.length ∪ {root} : Finset NodeId) := by
  intro x hx
  obtain heq | ⟨parent, -, hmem⟩ := Descends.iff_tail.1 hx
  · simp [heq]
  · simp [hlinked.lt_length_of_mem hmem]

theorem finite_descends (root : NodeId) : {x | Descends (childrenOf nodes) root x}.Finite :=
  (Finset.finite_toSet _).subset (hlinked.descends_subset root)

theorem ncard_descends_le (root : NodeId) :
    {x | Descends (childrenOf nodes) root x}.ncard ≤ nodes.length + 1 := by
  calc {x | Descends (childrenOf nodes) root x}.ncard
    _ ≤ (Finset.range nodes.length ∪ {root} : Finset NodeId).card := by
      rw [← Set.ncard_coe_finset]
      exact Set.ncard_le_ncard (hlinked.descends_subset root) (Finset.finite_toSet _)
    _ ≤ (Finset.range nodes.length).card + ({root} : Finset NodeId).card := Finset.card_union_le _ _
    _ = nodes.length + 1 := by simp

end

end Linked

section Edits

section

variable (nodes : List Node) (n : Node) (id : NodeId)

theorem getElem?_append_node :
    (nodes ++ [n])[id]? = if id = nodes.length then some n else nodes[id]? := by
  grind

theorem childrenOf_append :
    childrenOf (nodes ++ [n]) id =
      if id = nodes.length then n.children else childrenOf nodes id := by
  unfold childrenOf
  rw [getElem?_append_node]
  split_ifs <;> rfl

theorem parentOf_append :
    parentOf (nodes ++ [n]) id = if id = nodes.length then n.parent else parentOf nodes id := by
  unfold parentOf
  rw [getElem?_append_node]
  split_ifs <;> rfl

end

section

variable (nodes : List Node) (change : Node → Node) (id other : NodeId)

theorem childrenOf_modify :
    childrenOf (nodes.modify id change) other =
      if id = other then ((nodes[id]?).map change).elim [] Node.children
      else childrenOf nodes other := by
  unfold childrenOf
  rw [getElem?_modify]
  split_ifs with heq
  · subst heq
    simp
  · simp

theorem parentOf_modify :
    parentOf (nodes.modify id change) other =
      if id = other then ((nodes[id]?).map change).bind Node.parent else parentOf nodes other := by
  unfold parentOf
  rw [getElem?_modify]
  split_ifs with heq
  · subst heq
    simp
  · simp

end

theorem childrenOf_modify_of_eq (hchange : ∀ n, (change n).children = n.children)
    (nodes : List Node) (id other : NodeId) :
    childrenOf (nodes.modify id change) other = childrenOf nodes other := by
  rw [childrenOf_modify]
  split_ifs with heq
  · subst heq
    cases hnode : nodes[id]? <;> simp [childrenOf, hnode, hchange]
  · rfl

theorem parentOf_modify_of_eq (hchange : ∀ n, (change n).parent = n.parent) (nodes : List Node)
    (id other : NodeId) : parentOf (nodes.modify id change) other = parentOf nodes other := by
  rw [parentOf_modify]
  split_ifs with heq
  · subst heq
    cases hnode : nodes[id]? <;> simp [parentOf, hnode, hchange]
  · rfl

namespace Linked

theorem append (hlinked : Linked nodes) (hchildren : n.children = [])
    (hpar : ∀ {parent}, n.parent = some parent → parent < nodes.length) :
    Linked (nodes ++ [n]) where
  parent_lt {id parent} hlink := by
    rw [parentOf_append] at hlink
    split_ifs at hlink with heq
    · exact heq ▸ hpar hlink
    · exact hlinked.parent_lt hlink
  child_parent {id child} hchild := by
    rw [childrenOf_append] at hchild
    split_ifs at hchild
    · simp [hchildren] at hchild
    · rw [parentOf_append, if_neg (hlinked.lt_length_of_mem hchild).ne]
      exact hlinked.child_parent hchild
  nodup id := by
    rw [childrenOf_append]
    split_ifs
    · simp [hchildren]
    · exact hlinked.nodup id

/-- A node that points to its parent becomes a child of it. -/
theorem addChild (hlinked : Linked nodes) (hpar : parentOf nodes child = some id)
    (hnew : child ∉ childrenOf nodes id) :
    Linked (nodes.modify id fun n ↦ { n with children := n.children ++ [child] }) := by
  have hparents (x : NodeId) : parentOf
      (nodes.modify id fun n ↦ { n with children := n.children ++ [child] }) x =
        parentOf nodes x := by
    apply parentOf_modify_of_eq
    exact fun _ ↦ rfl
  have hchildren (x : NodeId) : childrenOf
      (nodes.modify id fun n ↦ { n with children := n.children ++ [child] }) x =
        if id = x ∧ id < nodes.length then childrenOf nodes x ++ [child]
        else childrenOf nodes x := by
    rw [childrenOf_modify]
    by_cases heq : id = x
    · subst heq
      by_cases hlt : id < nodes.length
      · simp [childrenOf, hlt]
      · simp [childrenOf, hlt]
    · simp [heq]
  refine ⟨?_, ?_, ?_⟩
  · intro x parent hlink
    exact hlinked.parent_lt (hparents x ▸ hlink)
  · intro x other hother
    rw [hparents]
    rw [hchildren] at hother
    split_ifs at hother with hx
    · obtain hold | hsame := mem_append.1 hother
      · exact hlinked.child_parent hold
      · rw [mem_singleton.1 hsame, hpar, hx.1]
    · exact hlinked.child_parent hother
  · intro x
    rw [hchildren]
    split_ifs with hx
    · apply (hlinked.nodup x).append (by simp)
      exact disjoint_singleton.2 (hx.1 ▸ hnew)
    · exact hlinked.nodup x

/-- A node that is nobody's child loses its parent. -/
theorem orphan (hlinked : Linked nodes) (hchild : ∀ x, id ∉ childrenOf nodes x) :
    Linked (nodes.modify id fun n ↦ { n with parent := none }) := by
  have hchildren (x : NodeId) :
      childrenOf (nodes.modify id fun n ↦ { n with parent := none }) x = childrenOf nodes x := by
    apply childrenOf_modify_of_eq
    exact fun _ ↦ rfl
  have hparents (x : NodeId) : parentOf (nodes.modify id fun n ↦ { n with parent := none }) x =
      if id = x then none else parentOf nodes x := by
    rw [parentOf_modify]
    split_ifs with heq
    · cases nodes[id]? <;> rfl
    · rfl
  refine ⟨?_, ?_, ?_⟩
  · intro x parent hlink
    rw [hparents] at hlink
    split_ifs at hlink
    exact hlinked.parent_lt hlink
  · intro x other hother
    rw [hchildren] at hother
    have hne : id ≠ other := fun heq ↦ hchild x (heq ▸ hother)
    rw [hparents, if_neg hne]
    exact hlinked.child_parent hother
  · exact fun x ↦ hchildren x ▸ hlinked.nodup x

end Linked

end Edits

end Prysm.DoublyLinkedTree
