import Prysm.DoublyLinkedTree.BestDescendant
import Prysm.DoublyLinkedTree.WellFormed

/-!
# Sound stores

The pointers of a sound store are valid, so that no function panics on it.  Every function keeps a
store sound, however it ends: unlike the links of a well-formed store, the pointers survive a call
that is cut short.
-/

namespace Prysm.DoublyLinkedTree

open Library Action Call

/-- The pointers of the store are valid. -/
structure Sound (s : Store) : Prop where
  forward : Forward s.nodes
  index : ∀ {root : Root} {id : NodeId}, s.nodeByRoot root = some id → id < s.nodes.length
  parent : ∀ {id parent : NodeId}, parentOf s.nodes id = some parent → parent < id
  treeRoot : ∀ {id : NodeId}, s.treeRootNode = some id → id < s.nodes.length
  planted : ∀ {root : Root} {id : NodeId}, s.nodeByRoot root = some id → s.treeRootNode ≠ none
  received : s.treeRootNode ≠ none → ∃ id < s.nodes.length, s.highestReceivedNode = some id

theorem Sound.new (config : BeaconChainConfig) (genesis : Time) :
    Sound (ForkChoice.new config genesis).toStore where
  forward := by
    constructor <;> simp [ForkChoice.new, childrenOf]
  index := by simp [ForkChoice.new]
  parent := by simp [ForkChoice.new, parentOf]
  treeRoot := by simp [ForkChoice.new]
  planted := by simp [ForkChoice.new]
  received := by simp [ForkChoice.new]

theorem Sound.parent_lt_length {s : Store} (hsound : Sound s) {id parent : NodeId}
    (hpar : parentOf s.nodes id = some parent) : parent < s.nodes.length := by
  by_contra hle
  have hlt := hsound.parent hpar
  simp [parentOf_eq_none_of_le (show s.nodes.length ≤ id by lia)] at hpar

variable {c c' : Call}

theorem Sound.of_shrinks (hsound : Sound c) (hshrinks : Shrinks c c') : Sound c' where
  forward := by
    constructor
    · intro id child hchild
      rw [hshrinks.size]
      exact hsound.forward.child ((hshrinks.childrenOf_subperm id).subset hchild)
    · intro id n best hnode hn
      rw [hshrinks.size]
      obtain ⟨other, m, hm, hbest | hchild⟩ := hshrinks.best _ _ _ hnode hn
      · exact hsound.forward.best hm hbest
      · exact (hsound.forward.child (childrenOf_eq hm ▸ hchild)).2
  index hroot := hshrinks.size ▸ hsound.index (hshrinks.nodeByRoot_of_later hroot)
  parent hpar := by
    rw [hshrinks.parentOf_eq] at hpar
    exact hsound.parent hpar
  treeRoot hroot := by
    rw [hshrinks.treeRootNode_eq] at hroot
    exact hshrinks.size ▸ hsound.treeRoot hroot
  planted hroot := by
    rw [hshrinks.treeRootNode_eq]
    exact hsound.planted (hshrinks.nodeByRoot_of_later hroot)
  received htree := by
    rw [hshrinks.treeRootNode_eq] at htree
    obtain ⟨id, hid, hrecv⟩ := hsound.received htree
    obtain hsame | ⟨id', hid', hrecv'⟩ := hshrinks.received
    · exact ⟨id, hshrinks.size ▸ hid, hsame.trans hrecv⟩
    · exact ⟨id', hshrinks.size ▸ hid', hrecv'⟩

section Edits

variable {node : Node} {config : BeaconChainConfig} {block : ROBlock} {payload : Root}
  {just fin : Epoch}

/-- A new node without a best descendant keeps the store sound. -/
theorem Sound.of_appends (hsound : Sound c) (happ : Appends c node c')
    (hbest : node.bestDescendant = none)
    (hlink : ∀ id, c.nodes.length ∈ childrenOf c'.nodes id → id < c.nodes.length)
    (htree : ∀ {id}, c'.treeRootNode = some id → id < c'.nodes.length)
    (hplanted : c'.treeRootNode ≠ none)
    (hrecv : ∃ id < c'.nodes.length, c'.highestReceivedNode = some id) : Sound c' where
  forward := by
    have hsize := happ.size
    constructor
    · intro id child hchild
      obtain rfl | hold := happ.child hchild
      · have := hlink id hchild
        exact ⟨this, by lia⟩
      · have := hsound.forward.child hold
        exact ⟨this.1, by lia⟩
    · intro id n best hnode hn
      by_cases heq : id = c.nodes.length
      · rw [heq, happ.new, Option.some.injEq] at hnode
        simp [← hnode, hbest] at hn
      · obtain ⟨n₀, children, hnode₀, rfl⟩ := happ.node_of_later hnode heq
        have := hsound.forward.best hnode₀ hn
        lia
  index {root id} hroot := by
    have hsize := happ.size
    by_cases heq : root = node.root
    · have := happ.entry (heq ▸ hroot)
      lia
    · rw [happ.other heq] at hroot
      have := hsound.index hroot
      lia
  parent {id parent} hpar := by
    by_cases heq : id = c.nodes.length
    · rw [heq, parentOf_eq happ.new] at hpar
      obtain ⟨root, hroot⟩ := happ.parent hpar
      exact heq ▸ hsound.index hroot
    · exact hsound.parent (happ.parentOf_of_later hpar heq)
  treeRoot := htree
  planted _ := hplanted
  received _ := hrecv

theorem Sound.of_inserted (hsound : Sound c)
    (hins : Inserted config block payload just fin c c') : Sound c' := by
  obtain ⟨parent, happ⟩ := hins.appends hsound.index
  have hsize := happ.size
  have hrecv (htree : c.treeRootNode ≠ none) :
      ∃ id < c'.nodes.length, c.highestReceivedNode = some id := by
    obtain ⟨id, hid, hrecv⟩ := hsound.received htree
    exact ⟨id, by lia, hrecv⟩
  have hroot {id : NodeId} (htree : c.treeRootNode = some id) : id < c'.nodes.length := by
    have := hsound.treeRoot htree
    lia
  have hnot {id : NodeId} (hmem : c.nodes.length ∈ childrenOf c.nodes id) : id < c.nodes.length :=
    absurd (hsound.forward.child hmem).2 (lt_irrefl _)
  have hleaf {n : Node} {id : NodeId} (hchildren : n.children = [])
      (hmem : c.nodes.length ∈ childrenOf (c.nodes ++ [n]) id) : id < c.nodes.length := by
    rw [childrenOf_append, hchildren] at hmem
    split_ifs at hmem
    · cases hmem
    · exact hnot hmem
  cases hins with
  | refused hpar htree =>
    exact hsound.of_appends happ rfl (fun id ↦ hleaf rfl) hroot htree (hrecv htree)
  | planted hpar htree =>
    apply hsound.of_appends happ rfl
    · exact fun id ↦ hleaf rfl
    · intro id hroot
      have hid : c.nodes.length = id := by simpa [plant] using hroot
      lia
    · simp [plant]
    · exact ⟨c.nodes.length, by lia, rfl⟩
  | linked hpar _ | boosted hpar _ _ =>
    have htree := hsound.planted hpar
    apply hsound.of_appends happ rfl _ hroot htree (hrecv htree)
    intro id hmem
    rw [childrenOf_link (hsound.index hpar) rfl] at hmem
    split_ifs at hmem with heq
    · exact heq ▸ hsound.index hpar
    · simp at hmem
    · exact hnot hmem

end Edits

section Writes

variable {s s' : Store}

theorem Sound.of_eq (hsound : Sound s) (hnodes : s'.nodes = s.nodes)
    (hmap : s'.nodeByRoot = s.nodeByRoot) (htree : s'.treeRootNode = s.treeRootNode)
    (hrecv : s'.highestReceivedNode = s.highestReceivedNode) : Sound s' where
  forward := hnodes ▸ hsound.forward
  index hroot := hnodes ▸ hsound.index (hmap ▸ hroot)
  parent hpar := hsound.parent (hnodes ▸ hpar)
  treeRoot hroot := hnodes ▸ hsound.treeRoot (htree ▸ hroot)
  planted hroot := htree ▸ hsound.planted (hmap ▸ hroot)
  received hroot := hrecv ▸ hnodes ▸ hsound.received (htree ▸ hroot)

theorem Sound.of_update (hsound : Sound s) {id : NodeId} {change : Node → Node}
    (hnodes : s'.nodes = s.nodes.modify id change) (hmap : s'.nodeByRoot = s.nodeByRoot)
    (htree : s'.treeRootNode = s.treeRootNode)
    (hrecv : s'.highestReceivedNode = s.highestReceivedNode)
    (hpar : ∀ n, (change n).parent = n.parent) (hchildren : ∀ n, (change n).children = n.children)
    (hbest : ∀ n, (change n).bestDescendant = n.bestDescendant) : Sound s' := by
  have hsize : s'.nodes.length = s.nodes.length := by simp [hnodes]
  refine ⟨⟨?_, ?_⟩, ?_, ?_, ?_, ?_, ?_⟩
  · intro other child hchild
    rw [hnodes, childrenOf_modify_of_eq hchildren] at hchild
    exact hsize ▸ hsound.forward.child hchild
  · intro other n' best hnode hn'
    rw [hnodes] at hnode
    obtain ⟨x, n, hn, hbest | hchild⟩ := BestFrom.of_modify s.nodes id hbest other n' best hnode hn'
    · exact hsize ▸ hsound.forward.best hn hbest
    · exact hsize ▸ (hsound.forward.child (childrenOf_eq hn ▸ hchild)).2
  · exact fun hroot ↦ hsize ▸ hsound.index (hmap ▸ hroot)
  · intro other parent hlink
    rw [hnodes, parentOf_modify_of_eq hpar] at hlink
    exact hsound.parent hlink
  · exact fun hroot ↦ hsize ▸ hsound.treeRoot (htree ▸ hroot)
  · exact fun hroot ↦ htree ▸ hsound.planted (hmap ▸ hroot)
  · intro hroot
    rw [hsize, hrecv]
    exact hsound.received (htree ▸ hroot)

end Writes

section Prune

theorem Sound.of_reroot (hsound : Sound c) {final : NodeId}
    (hlt : final < c.nodes.length) (htree : c.treeRootNode ≠ none) : Sound (c.reroot final) where
  forward := by
    constructor
    · intro id child hchild
      rw [reroot_childrenOf] at hchild
      simpa [reroot] using hsound.forward.child hchild
    · intro id n' best hnode' hbest
      obtain ⟨n, parent, hnode, rfl⟩ := reroot_node hnode'
      simpa [reroot] using hsound.forward.best hnode hbest
  index hroot := by simpa [reroot] using hsound.index hroot
  parent hpar := hsound.parent (reroot_parentOf hpar)
  treeRoot {id} hroot := by
    obtain rfl : final = id := by simpa [reroot] using hroot
    simpa [reroot] using hlt
  planted _ := by simp [reroot]
  received _ := by simpa [reroot] using hsound.received htree

theorem Sound.prune {config : BeaconChainConfig} (hsound : Sound c) :
    wp (prune config) (fun _ c' ↦ Sound c') c := by
  apply (wp_prune config).mono
  intro out last hlast
  obtain hshrinks | ⟨final, middle, hfin, -, -, hmid, hshrinks⟩ := hlast
  · exact hsound.of_shrinks hshrinks
  · have hlt : final < middle.nodes.length := hmid.size ▸ hsound.index hfin
    have htree : middle.treeRootNode ≠ none := hmid.treeRootNode_eq ▸ hsound.planted hfin
    exact ((hsound.of_shrinks hmid).of_reroot hlt htree).of_shrinks hshrinks

end Prune

end Prysm.DoublyLinkedTree



