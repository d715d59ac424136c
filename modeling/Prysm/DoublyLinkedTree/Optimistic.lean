import Prysm.DoublyLinkedTree.WellFormed

/-!
# Validated blocks and their ancestors

A block is validated only if its ancestors are.  `SetOptimisticToValid` relies on that when it stops
at the first validated ancestor, and `SetOptimisticToInvalid` when it removes everything below an
optimistic block.  The property survives calls that are cut short, with one exception:
`setNodeAndParentValidated` marks a node before it looks at its parent, and a cancelled context then
leaves a validated node below an optimistic one.
-/

namespace Prysm.DoublyLinkedTree

open Library Action

/-- The node is not optimistic. -/
def Validated (nodes : List Node) (id : NodeId) : Prop :=
  ∃ n, nodes[id]? = some n ∧ n.optimistic = false

instance (nodes : List Node) (id : NodeId) : Decidable (Validated nodes id) :=
  decidable_of_iff ((nodes[id]?).map Node.optimistic = some false) (by simp [Validated])

/-- The parents of validated nodes are validated, except perhaps for one parent. -/
def ClosedExcept (nodes : List Node) (exception : Option NodeId) : Prop :=
  ∀ id parent, Validated nodes id → parentOf nodes id = some parent → some parent ≠ exception →
    Validated nodes parent

/-- The node can be reached from the map through parents and children. -/
inductive Reachable (s : Store) : NodeId → Prop
  | entry {root : Root} {id : NodeId} (hroot : s.nodeByRoot root = some id) : Reachable s id
  | parent {id parent : NodeId} (hid : Reachable s id)
      (hparent : parentOf s.nodes id = some parent) : Reachable s parent
  | child {id child : NodeId} (hid : Reachable s id) (hchild : child ∈ childrenOf s.nodes id) :
      Reachable s child

variable {below : NodeId} {s s' : Store} {fuel : ℕ}

theorem Reachable.ancestor {id ancestor : NodeId} (hid : Reachable s id)
    (hanc : Ancestor s.nodes id ancestor) : Reachable s ancestor := by
  induction hanc with
  | refl => exact hid
  | tail _ hpar ih => exact ih.parent hpar

variable {id : NodeId}

theorem Reachable.descends (hid : Reachable s id) (hdesc : Descends (childrenOf s.nodes) id below) :
    Reachable s below := by
  induction hdesc with
  | refl => exact hid
  | tail _ hchild ih => exact ih.child hchild

theorem Reachable.of_sameTree (hid : Reachable s' id) (hsame : SameTree s s') : Reachable s id := by
  induction hid with
  | entry hroot => exact .entry (hsame.nodeByRoot ▸ hroot)
  | parent _ hpar ih => exact ih.parent (hsame.parentOf_eq ▸ hpar)
  | child _ hchild ih => exact ih.child (hsame.childrenOf_eq ▸ hchild)

/-- What holds of the store between the calls. -/
structure Consistent (s : Store) : Prop where
  wellFormed : WellFormed s
  closed : ClosedExcept s.nodes none
  distinct : ∀ {id : NodeId} {n : Node} {entry : NodeId}, Reachable s id → s.nodes[id]? = some n →
    s.nodeByRoot n.root = some entry → entry = id

section Closure

variable {nodes : List Node} {id : NodeId}

theorem ClosedExcept.of_validated (hclosed : ClosedExcept nodes (some id))
    (hvalid : Validated nodes id) : ClosedExcept nodes none := by
  intro other parent hother hpar _
  by_cases heq : parent = id
  · exact heq ▸ hvalid
  · exact hclosed other parent hother hpar fun hsome ↦ heq (Option.some.inj hsome)

theorem ClosedExcept.ancestor (hclosed : ClosedExcept nodes none) {ancestor : NodeId}
    (hanc : Ancestor nodes id ancestor) (hvalid : Validated nodes id) :
    Validated nodes ancestor := by
  induction hanc with
  | refl => exact hvalid
  | tail _ hpar ih => exact hclosed _ _ ih hpar (by simp)

/-- Below an optimistic node everything is optimistic. -/
theorem ClosedExcept.of_descends (hclosed : ClosedExcept nodes none) (hlinked : Linked nodes)
    (hdesc : Descends (childrenOf nodes) id below) (hvalid : Validated nodes below) :
    Validated nodes id := by
  induction hdesc with
  | refl => exact hvalid
  | tail _ hmem ih => exact ih (hclosed _ _ hvalid (hlinked.child_parent hmem) (by simp))

end Closure

section Shrinking

variable {c c' : Call}

theorem Shrinks.validated_iff (hshrinks : Shrinks c c') (id : NodeId) :
    Validated c'.nodes id ↔ Validated c.nodes id := by
  constructor
  · rintro ⟨n', hnode', hn'⟩
    obtain ⟨n, hnode, hn⟩ := hshrinks.node_of_later hnode'
    rw [hn.same] at hn'
    exact ⟨n, hnode, hn'⟩
  · rintro ⟨n, hnode, hn⟩
    obtain ⟨n', hnode', hn'⟩ := hshrinks.node hnode
    exact ⟨n', hnode', by rw [hn'.same]; exact hn⟩

theorem Shrinks.reachable (hshrinks : Shrinks c c') (hreach : Reachable c' id) :
    Reachable c id := by
  induction hreach with
  | entry hroot => exact .entry (hshrinks.nodeByRoot_of_later hroot)
  | parent _ hpar ih => exact ih.parent (hshrinks.parentOf_eq _ ▸ hpar)
  | child _ hchild ih => exact ih.child ((hshrinks.childrenOf_subperm _).subset hchild)

theorem Consistent.of_shrinks (hcons : Consistent c) (hshrinks : Shrinks c c') : Consistent c' where
  wellFormed := hcons.wellFormed.of_shrinks hshrinks
  closed id parent hvalid hpar _ := by
    rw [hshrinks.validated_iff] at hvalid ⊢
    rw [hshrinks.parentOf_eq] at hpar
    exact hcons.closed id parent hvalid hpar (by simp)
  distinct {id n' entry} hreach hnode' hentry := by
    obtain ⟨n, hnode, hn⟩ := hshrinks.node_of_later hnode'
    have hroot : n'.root = n.root := by rw [hn.same]
    rw [hroot] at hentry
    exact hcons.distinct (hshrinks.reachable hreach) hnode (hshrinks.nodeByRoot_of_later hentry)

end Shrinking

section Validating

variable {c c' c'' : Call} {id : NodeId}

/-- Nodes become validated, and checks of the context are used up. -/
structure Validates (c c' : Call) : Prop where
  same : c' = { c with nodes := c'.nodes, ctx := c'.ctx }
  size : c'.nodes.length = c.nodes.length
  node : ∀ {id : NodeId} {n : Node}, c.nodes[id]? = some n → ∃ n', c'.nodes[id]? = some n' ∧
    n' = { n with optimistic := n'.optimistic } ∧ (n.optimistic = false → n'.optimistic = false)

theorem Validates.of_ctx (ctx : Option ℕ) : Validates c { c with ctx := ctx } :=
  ⟨rfl, rfl, fun hnode ↦ ⟨_, hnode, rfl, id⟩⟩

theorem Validates.trans (hfirst : Validates c c') (hsnd : Validates c' c'') : Validates c c'' where
  same := by
    rw [hsnd.same, hfirst.same]
  size := hsnd.size.trans hfirst.size
  node hnode := by
    obtain ⟨n', hnode', hn', hkept⟩ := hfirst.node hnode
    obtain ⟨n'', hnode'', hn'', hkept'⟩ := hsnd.node hnode'
    grind

theorem Validates.of_update (id : NodeId) :
    Validates c { c with nodes := c.nodes.modify id fun n ↦ { n with optimistic := false } } where
  same := rfl
  size := by simp
  node {other n} hnode := by
    rw [List.getElem?_modify, hnode]
    grind

theorem Validates.validated (hvalidates : Validates c c') (hvalid : Validated c.nodes id) :
    Validated c'.nodes id := by
  obtain ⟨n, hnode, hn⟩ := hvalid
  obtain ⟨n', hnode', -, hkept⟩ := hvalidates.node hnode
  exact ⟨n', hnode', hkept hn⟩

theorem Validates.sameTree (hvalidates : Validates c c') : SameTree c c' where
  size := hvalidates.size
  node hnode := by
    obtain ⟨n', hnode', hn, -⟩ := hvalidates.node hnode
    exact ⟨n', hnode', by rw [hn], by rw [hn], by rw [hn]⟩
  nodeByRoot := by rw [hvalidates.same]
  treeRootNode := by rw [hvalidates.same]

theorem Consistent.of_sameTree (hcons : Consistent s) (hsame : SameTree s s')
    (hclosed : ClosedExcept s'.nodes none) : Consistent s' where
  wellFormed := hcons.wellFormed.of_sameTree hsame
  closed := hclosed
  distinct {id n' entry} hreach hnode' hentry := by
    obtain ⟨n, hnode, hroot⟩ := hsame.node_of_later hnode'
    rw [hsame.nodeByRoot, hroot] at hentry
    exact hcons.distinct (hreach.of_sameTree hsame) hnode hentry

/-- The optimistic nodes among a node and its ancestors. -/
def optimisticPath (nodes : List Node) (id : NodeId) : Set NodeId :=
  {x | Ancestor nodes id x ∧ ¬ Validated nodes x}

/-- The context passes a check at each of the optimistic nodes from a node up to the root. -/
def PassesPath (nodes : List Node) (ctx : Option ℕ) (id : NodeId) : Prop :=
  ∀ checks, ctx = some checks → (optimisticPath nodes id).ncard ≤ checks

variable {nodes : List Node} {n : Node}

theorem Linked.le_of_ancestor (hlinked : Linked nodes) {ancestor : NodeId}
    (hanc : Ancestor nodes id ancestor) : ancestor ≤ id := by
  induction hanc with
  | refl => exact le_rfl
  | tail _ hpar ih => exact (hlinked.parent_lt hpar).le.trans ih

theorem Linked.finite_optimisticPath (hlinked : Linked nodes) (id : NodeId) :
    (optimisticPath nodes id).Finite :=
  (Set.finite_le_nat id).subset fun _ hx ↦ hlinked.le_of_ancestor hx.1

theorem Validates.ncard_optimisticPath_le (hvalidates : Validates c c') (hlinked : Linked c.nodes)
    (id : NodeId) : (optimisticPath c'.nodes id).ncard ≤ (optimisticPath c.nodes id).ncard := by
  apply Set.ncard_le_ncard _ (hlinked.finite_optimisticPath id)
  rintro x ⟨hanc, hopt⟩
  refine ⟨?_, fun hvalid ↦ hopt (hvalidates.validated hvalid)⟩
  simpa only [Ancestor, hvalidates.sameTree.parentOf_eq] using hanc

/-- Above an optimistic node the path is shorter by that node. -/
theorem Linked.ncard_optimisticPath_lt (hlinked : Linked nodes) {parent : NodeId}
    (hpar : parentOf nodes id = some parent) (hopt : ¬ Validated nodes id) :
    (optimisticPath nodes parent).ncard < (optimisticPath nodes id).ncard := by
  apply Set.ncard_lt_ncard
  · constructor
    · exact fun x hx ↦ ⟨hx.1.head hpar, hx.2⟩
    · intro hsubset
      have hloop : Ancestor nodes parent id := (hsubset ⟨.refl, hopt⟩).1
      exact (hlinked.le_of_ancestor hloop).not_gt (hlinked.parent_lt hpar)
  · exact hlinked.finite_optimisticPath id

theorem not_validated_iff (hnode : nodes[id]? = some n) :
    ¬ Validated nodes id ↔ n.optimistic = true := by
  simp [Validated, hnode]

theorem validated_modify (hnode : nodes[id]? = some n) (other : NodeId) :
    Validated (nodes.modify id fun n ↦ { n with optimistic := false }) other ↔
      other = id ∨ Validated nodes other := by
  unfold Validated
  grind

/-- Validating a node leaves at most its own parent to be validated. -/
theorem ClosedExcept.update (hnode : nodes[id]? = some n) (hclosed : ClosedExcept nodes (some id)) :
    ClosedExcept (nodes.modify id fun n ↦ { n with optimistic := false }) n.parent := by
  intro other parent hother hpar hexception
  have hpar' : parentOf nodes other = some parent := by
    rw [← hpar, parentOf_modify]
    split_ifs with heq
    · simp [← heq, parentOf, hnode]
    · rfl
  rw [validated_modify hnode] at hother ⊢
  by_cases hsame : parent = id
  · exact .inl hsame
  · right
    obtain rfl | hother := hother
    · exact absurd (hpar'.symm.trans (parentOf_eq hnode)) hexception
    · exact hclosed other parent hother hpar' fun heq ↦ hsame (Option.some.inj heq)

/-- The walk of `setNodeAndParentValidated`.  The invariant is that the node it is at is the only
optimistic parent of a validated node. -/
theorem wp_setNodeAndParentValidated (hlinked : Linked c.nodes)
    (hclosed : ClosedExcept c.nodes (some id)) :
    wp (setNodeAndParentValidated fuel id) (fun out c' ↦ Validates c c' ∧
      (out = .ok () → Validated c'.nodes id) ∧
      (out = .ok () ∨ id < fuel ∧ id < c.nodes.length ∧ PassesPath c.nodes c.ctx id →
        ClosedExcept c'.nodes none)) c := by
  induction fuel generalizing id c with
  | zero =>
    rw [setNodeAndParentValidated, wp_throw]
    exact ⟨.of_ctx c.ctx, by simp, by simp⟩
  | succ fuel ih =>
    rw [setNodeAndParentValidated, wp_bind]
    apply wp_checkContext
    · intro ctx hctx
      rw [whenOk_ok, wp_bind]
      apply wp_load_intro
      · intro n hload
        have hnode : c.nodes[id]? = some n := hload
        rw [whenOk_ok]
        cases hopt : n.optimistic with
        | false =>
          have hvalid : Validated c.nodes id := ⟨n, hnode, hopt⟩
          exact ⟨.of_ctx ctx, fun _ ↦ hvalid, fun _ ↦ hclosed.of_validated hvalid⟩
        | true =>
          have hupd := hclosed.update hnode
          simp only [Bool.not_true, Bool.false_eq_true, if_false, wp_bind, wp_update, whenOk_ok]
          have hvalidates : Validates c { c with
              ctx := ctx, nodes := c.nodes.modify id fun n ↦ { n with optimistic := false } } :=
            (Validates.of_update id).trans (.of_ctx ctx)
          have hdone : Validated (c.nodes.modify id fun n ↦ { n with optimistic := false }) id :=
            (validated_modify hnode id).2 (.inl rfl)
          cases hpar : n.parent with
          | none =>
            rw [hpar] at hupd
            exact ⟨hvalidates, fun _ ↦ hdone, fun _ ↦ hupd⟩
          | some parent =>
            have hlink : parentOf c.nodes id = some parent := (parentOf_eq hnode).trans hpar
            apply (ih (hvalidates.sameTree.linked hlinked) (hpar ▸ hupd)).mono
            rintro out last ⟨hlast, -, hend⟩
            refine ⟨hvalidates.trans hlast, fun _ ↦ hlast.validated hdone, fun hcases ↦ hend ?_⟩
            refine hcases.imp_right ?_
            rintro ⟨hfuel, hlen, hpasses⟩
            have hlt := hlinked.parent_lt hlink
            refine ⟨by lia, by simp; lia, fun checks hchecks ↦ ?_⟩
            have hshorter := hlinked.ncard_optimisticPath_lt hlink
              ((not_validated_iff hnode).2 hopt)
            have hbefore := hpasses (checks + 1) (hctx.trans (congrArg (Option.map _) hchecks))
            have hafter := hvalidates.ncard_optimisticPath_le hlinked parent
            lia
      · intro hnone
        refine ⟨.of_ctx ctx, by simp, ?_⟩
        grind
    · intro hcancel
      refine ⟨.of_ctx c.ctx, by simp, ?_⟩
      rintro (hok | ⟨-, hlen, hpasses⟩)
      · simp at hok
      -- No check is needed when the node is validated already.
      · have hempty : optimisticPath c.nodes id = ∅ :=
          (Set.ncard_eq_zero (hlinked.finite_optimisticPath id)).1
            (Nat.le_zero.1 (hpasses 0 hcancel))
        apply hclosed.of_validated
        by_contra hopt
        have hmem : id ∈ optimisticPath c.nodes id := ⟨.refl, hopt⟩
        simp [hempty] at hmem

end Validating

section Insert

variable {c c' : Call} {config : BeaconChainConfig} {block : ROBlock} {payload : Root}
  {just fin : Epoch} {node : Node} {parentId : NodeId}

/-- No other node that can still be reached has the root of the block. -/
def FreshRoot (s : Store) (root : Root) : Prop :=
  ∀ id n, Reachable s id → s.nodes[id]? = some n → n.root = root → s.nodeByRoot root = some id

theorem FreshRoot.of_forall {root : Root} (hfresh : ∀ n ∈ s.nodes, n.root ≠ root) :
    FreshRoot s root :=
  fun _ n _ hnode heq ↦ absurd heq (hfresh n (List.mem_of_getElem? hnode))

theorem WellFormed.reachable_lt (hwf : WellFormed c) (hid : Reachable c id) :
    id < c.nodes.length := by
  induction hid with
  | entry hroot => exact hwf.lt_length hroot
  | parent _ hpar ih => exact (hwf.linked.parent_lt hpar).trans ih
  | child _ hchild _ => exact hwf.linked.lt_length_of_mem hchild

theorem Appends.reachable (happ : Appends c node c') (hid : Reachable c' id) :
    id = c.nodes.length ∨ Reachable c id := by
  induction hid with
  | @entry root id hroot =>
    by_cases heq : root = node.root
    · exact .inl (happ.entry (heq ▸ hroot))
    · exact .inr (.entry ((happ.other heq).symm.trans hroot))
  | @parent id parent hid hpar ih =>
    right
    by_cases heq : id = c.nodes.length
    · rw [heq, parentOf_eq happ.new] at hpar
      obtain ⟨root, hroot⟩ := happ.parent hpar
      exact .entry hroot
    · exact (ih.resolve_left heq).parent (happ.parentOf_of_later hpar heq)
  | @child id child hid hchild ih =>
    obtain heq | hold := happ.child hchild
    · exact .inl heq
    · have hne : id ≠ c.nodes.length := by
        rintro rfl
        simp [childrenOf] at hold
      exact .inr ((ih.resolve_left hne).child hold)

theorem Consistent.of_appends (hcons : Consistent c) (hwf : WellFormed c')
    (happ : Appends c node c') (hopt : node.optimistic = true)
    (hfresh : FreshRoot c node.root) (hunknown : c.nodeByRoot node.root = none) :
    Consistent c' where
  wellFormed := hwf
  closed id parent hvalidated hpar _ := by
    obtain ⟨n', hnode', hn'⟩ := hvalidated
    have hid : id ≠ c.nodes.length := by
      rintro rfl
      rw [happ.new, Option.some.injEq] at hnode'
      simp [← hnode', hopt] at hn'
    obtain ⟨n, children, hnode, rfl⟩ := happ.node_of_later hnode' hid
    obtain ⟨p, hp, hvalid⟩ := hcons.closed id parent ⟨n, hnode, hn'⟩
      (happ.parentOf_of_later hpar hid) (by simp)
    obtain ⟨children, hp'⟩ := happ.old hp
    exact ⟨_, hp', hvalid⟩
  distinct {id n' entry} hid hnode' hentry := by
    obtain rfl | hreach := happ.reachable hid
    · rw [happ.new, Option.some.injEq] at hnode'
      exact happ.entry (hnode' ▸ hentry)
    · have hne : id ≠ c.nodes.length := (hcons.wellFormed.reachable_lt hreach).ne
      obtain ⟨n, children, hnode, rfl⟩ := happ.node_of_later hnode' hne
      by_cases heq : n.root = node.root
      · have hold := hfresh id n hreach hnode heq
        simp [hunknown] at hold
      · exact hcons.distinct hreach hnode ((happ.other heq).symm.trans hentry)

/-- `insert` keeps the store consistent, also when it is cut short. -/
theorem Consistent.insert (hcons : Consistent c) (hfresh : FreshRoot c block.root) :
    wp (insert config block just fin) (fun _ c' ↦ Consistent c') c := by
  apply wp_insert.mono
  intro out last hlast
  obtain rfl | ⟨payload, middle, hunknown, hins, hshrinks⟩ := hlast
  · exact hcons
  · obtain ⟨parent, happ⟩ := hins.appends hcons.wellFormed.lt_length
    have hmid : Consistent middle :=
      hcons.of_appends (hcons.wellFormed.of_inserted hins) happ rfl hfresh hunknown
    exact hmid.of_shrinks hshrinks

end Insert

section Prune

variable {c : Call} {final : NodeId}

theorem Consistent.of_reroot (hcons : Consistent c)
    (hwf : WellFormed (c.reroot final)) : Consistent (c.reroot final) := by
  have hreach {id : NodeId} (hid : Reachable (c.reroot final) id) :
      Reachable c id := by
    induction hid with
    | entry hroot => exact .entry hroot
    | parent _ hpar ih => exact ih.parent (reroot_parentOf hpar)
    | child _ hchild ih => exact ih.child (reroot_childrenOf _ _ ▸ hchild)
  refine ⟨hwf, ?_, ?_⟩
  · rintro id parent ⟨n', hnode', hn'⟩ hpar _
    obtain ⟨n, link, hnode, rfl⟩ := reroot_node hnode'
    obtain ⟨p, hp, hvalid⟩ := hcons.closed id parent ⟨n, hnode, hn'⟩
      (reroot_parentOf hpar) (by simp)
    by_cases heq : final = parent
    · exact ⟨{ p with parent := none }, by simp [Call.reroot, heq, hp], hvalid⟩
    · exact ⟨p, by simp [Call.reroot, heq, hp], hvalid⟩
  · intro id n' entry hid hnode' hentry
    obtain ⟨n, link, hnode, rfl⟩ := reroot_node hnode'
    exact hcons.distinct (hreach hid) hnode hentry

/-- `prune` keeps the store consistent, also when it is cut short. -/
theorem Consistent.prune {config : BeaconChainConfig} (hcons : Consistent c)
    (hdetaches : PruneDetaches c) : wp (prune config) (fun _ c' ↦ Consistent c') c := by
  apply (wp_prune config).mono
  intro out last hlast
  obtain hshrinks | ⟨final, middle, hfin, hpar, hrun, hmid, hshrinks⟩ := hlast
  · exact hcons.of_shrinks hshrinks
  · have hwf := hcons.wellFormed
    have hlt : final < middle.nodes.length := hmid.size ▸ hwf.lt_length hfin
    have hreroot := (hwf.of_shrinks hmid).of_reroot hlt (hdetaches.notMem hwf hfin hpar hrun)
    exact ((hcons.of_shrinks hmid).of_reroot hreroot).of_shrinks hshrinks

end Prune

section Invalid

variable {c : Call} {start : NodeId}

/-- The map has lost nothing but roots of nodes below `start`. -/
structure LosesBelow (start : NodeId) (c c' : Call) : Prop where
  nodes : c'.nodes = c.nodes
  lost : ∀ {root : Root}, c'.nodeByRoot root ≠ c.nodeByRoot root →
    ∃ id n, Descends (childrenOf c.nodes) start id ∧ c.nodes[id]? = some n ∧ n.root = root

theorem losesBelow_removeNodeAndChildren {roots : List Root}
    (hbelow : Descends (childrenOf c.nodes) start id) :
    Preserves (LosesBelow start c) (removeNodeAndChildren fuel id roots) := by
  induction fuel generalizing id roots with
  | zero => exact preserves_throw _
  | succ fuel ih =>
    intro middle hmid
    rw [removeNodeAndChildren, wp_bind]
    apply wp_load_intro _ fun _ ↦ hmid
    · intro n hnode
      have hold : c.nodes[id]? = some n := hmid.nodes ▸ hnode
      refine Preserves.bind ?_ (fun roots ↦ ?_) middle hmid
      · apply preserves_foldlM
        intro roots child hchild
        rw [← childrenOf_eq hold] at hchild
        apply Preserves.bind _ fun _ ↦ ih (hbelow.tail hchild)
        exact checkContext_preserves fun _ _ hcall ↦ ⟨hcall.nodes, hcall.lost⟩
      · apply Preserves.bind _ fun _ ↦ preserves_pure _
        apply preserves_modify
        intro last hlast
        refine ⟨hlast.nodes, fun {root} hlost ↦ ?_⟩
        by_cases heq : root = n.root
        · exact ⟨id, n, hbelow, hold, heq.symm⟩
        · exact hlast.lost (by simpa [Call.forget, heq] using hlost)

/-- The map still has all the validated nodes it had. -/
def KeepsValidated (s s' : Store) : Prop :=
  ∀ root id, s.nodeByRoot root = some id → Validated s.nodes id → s'.nodeByRoot root = some id

theorem KeepsValidated.refl (s : Store) : KeepsValidated s s := fun _ _ hroot _ ↦ hroot

/-- Removing a reachable node loses optimistic nodes only. -/
theorem keepsValidated_removeNode (hcons : Consistent c) (hreach : Reachable c id) :
    wp (removeNode id) (fun _ c' ↦ KeepsValidated c c') c := by
  rw [removeNode, wp_bind, wp_get, whenOk_ok]
  cases hnode : c.nodes[id]? with
  | none => exact .refl _
  | some n =>
    simp only
    split
    · rename_i parent hopt _
      rw [wp_bind, wp_update, whenOk_ok, wp_bind, wp_get, whenOk_ok]
      have hshrinks : Shrinks c (c.detach id parent) := shrinks_detach id parent
      refine (losesBelow_removeNodeAndChildren (Descends.refl id) _
        ⟨rfl, fun h ↦ absurd rfl h⟩).mono
        fun _ last hlast root entry hroot hvalid ↦ ?_
      by_contra hne
      obtain ⟨x, n', hbelow, hnode', hn'⟩ := hlast.lost fun heq ↦ hne (heq.trans hroot)
      -- The node below whose root was lost is the validated one.
      obtain ⟨m, hm, hsame⟩ := hshrinks.node_of_later hnode'
      have hroot' : m.root = root := by rw [← hn', hsame.same]
      have hbelow' : Descends (childrenOf c.nodes) id x :=
        hbelow.mono fun y ↦ (hshrinks.childrenOf_subperm y).subset
      have hentry := hcons.distinct (hreach.descends hbelow') hm (hroot' ▸ hroot)
      have hid := hcons.closed.of_descends hcons.wellFormed.linked hbelow' (hentry ▸ hvalid)
      exact (not_validated_iff hnode).2 hopt hid
    · exact .refl _

/-- `SetOptimisticToInvalid` does not remove a validated node, also when it is cut short. -/
theorem keepsValidated_setOptimisticToInvalid (hcons : Consistent c)
    (root parentRoot lastValid : Root) :
    wp (setOptimisticToInvalid root parentRoot lastValid)
      (fun _ c' ↦ KeepsValidated c c') c := by
  apply wp_setOptimisticToInvalid fun _ ↦ .refl _
  intro root id start ctx hroot hanc _
  exact keepsValidated_removeNode (c := { c with ctx := ctx }) hcons
    ((Reachable.entry hroot).ancestor hanc)

end Invalid

section Runs

variable {config : BeaconChainConfig} {f : ForkChoice}

/-- The calls that keep validated nodes below validated ones.  A call of `SetOptimisticToValid` is
cancelled at once or after it has marked all the optimistic nodes of its path; the root of a new
block is not the root of a node that has left the map and is still linked; the finalized node of
`prune` is in the tree or linked to by nobody. -/
def ClosureKept (f : ForkChoice) : Request × Environment → Prop
  | (.insert block _ _, _) => FreshRoot f.toStore block.root
  | (.setOptimisticToValid root, environment) => ∀ id, f.nodeByRoot root = some id →
      environment.ctx = some 0 ∨ PassesPath f.nodes environment.ctx id
  | (.setOptimisticToInvalid _ _ _, _) => True
  | (.updateFinalizedCheckpoint _, _) => True
  | (.prune, _) => PruneDetaches f.toStore
  | _ => False

theorem Consistent.new (config : BeaconChainConfig) (genesis : Time) :
    Consistent (ForkChoice.new config genesis).toStore where
  wellFormed := .new config genesis
  closed := by simp [ClosedExcept, Validated, ForkChoice.new]
  distinct := by simp [ForkChoice.new]

/-- A call that is cancelled at once changes nothing. -/
theorem wp_setNodeAndParentValidated_cancelled {c : Call} (hctx : c.ctx = some 0) :
    wp (setNodeAndParentValidated (fuel + 1) id) (fun _ c' ↦ c' = c) c := by
  rw [setNodeAndParentValidated, wp_bind]
  apply wp_checkContext _ fun _ ↦ rfl
  intro ctx hpass
  cases ctx <;> simp [hctx] at hpass

theorem Consistent.setOptimisticToValid {c : Call} (hcons : Consistent c) (root : Root) :
    wp (setOptimisticToValid root) (fun out c' ↦ Validates c c' ∧
      ((∀ id, c.nodeByRoot root = some id → c.ctx = some 0 ∨ PassesPath c.nodes c.ctx id) →
        ClosedExcept c'.nodes none) ∧
      (out = .ok () → ∀ id, c.nodeByRoot root = some id →
        Validated c'.nodes id ∧ ClosedExcept c'.nodes none)) c := by
  rw [DoublyLinkedTree.setOptimisticToValid, wp_bind, wp_get, whenOk_ok]
  cases hroot : c.nodeByRoot root with
  | none => exact ⟨.of_ctx c.ctx, fun _ ↦ hcons.closed, by simp⟩
  | some id =>
    have hlt := hcons.wellFormed.lt_length hroot
    have hclosed : ClosedExcept c.nodes (some id) := fun other parent hother hpar _ ↦
      hcons.closed other parent hother hpar (by simp)
    rw [wp_iff]
    intro out last hrun
    obtain ⟨hvalidates, hvalid, hend⟩ := wp_iff.1
      (wp_setNodeAndParentValidated hcons.wellFormed.linked hclosed) out last hrun
    refine ⟨hvalidates, fun hpasses ↦ ?_, ?_⟩
    · obtain hcancel | hpasses := hpasses id rfl
      · have hsame := wp_iff.1 (wp_setNodeAndParentValidated_cancelled hcancel) out last hrun
        exact hsame ▸ hcons.closed
      · exact hend (.inr ⟨hlt.trans (Nat.lt_succ_self _), hlt, hpasses⟩)
    · grind

/-- A call that is allowed keeps the store consistent, however it ends. -/
theorem Consistent.perform (hcons : Consistent f.toStore) {call : Request × Environment}
    (hkept : ClosureKept f call) : Consistent (perform config f call).2.toStore := by
  obtain ⟨request, env⟩ := call
  suffices hwp : wp (request.op config) (fun _ c' ↦ Consistent c'.toStore) (f.call env) from
    hwp
  cases request with
  | insert block just fin =>
    exact (Consistent.insert (c := f.call env) hcons hkept).map _
  | setOptimisticToValid root =>
    apply wp.map
    apply (Consistent.setOptimisticToValid (c := f.call env) hcons root).mono
    rintro out last ⟨hvalidates, hclosed, -⟩
    exact hcons.of_sameTree hvalidates.sameTree (hclosed hkept)
  | setOptimisticToInvalid root parentRoot lastValid =>
    apply wp.map
    apply (shrinks_setOptimisticToInvalid root parentRoot lastValid _).mono
    intro out last hshrinks
    exact Consistent.of_shrinks (c := f.call env) hcons hshrinks
  | updateFinalizedCheckpoint fc =>
    apply wp.map
    exact hcons.of_sameTree (.of_eq rfl rfl rfl) hcons.closed
  | prune => exact (Consistent.prune (c := f.call env) hcons hkept).map _
  | _ => exact absurd hkept id

/-- In a run of insertions, prunings and changes of status, calls of which may be cancelled, the
ancestors of a validated node are validated.  So a call of `SetOptimisticToValid` that returns
leaves the whole path up to the root of the tree validated, and a call of `SetOptimisticToInvalid`
removes no validated node. -/
theorem validated_closed_under_ancestors (config : BeaconChainConfig) (genesisTime : Time)
    {events : List Event} {f : ForkChoice}
    (run : Run (CallStep (perform config) ClosureKept) (ForkChoice.new config genesisTime) events
      f) :
    (∀ root id ancestor, f.nodeByRoot root = some id → Validated f.nodes id →
      Ancestor f.nodes id ancestor → Validated f.nodes ancestor) ∧
    (∀ root environment id response ancestor, f.nodeByRoot root = some id →
      (perform config f (.setOptimisticToValid root, environment)).1.outcome = .ok response →
      Ancestor f.nodes id ancestor →
        Validated (perform config f (.setOptimisticToValid root, environment)).2.nodes ancestor) ∧
    (∀ root parentRoot lastValidHash environment, KeepsValidated f.toStore (perform config f
      (.setOptimisticToInvalid root parentRoot lastValidHash, environment)).2.toStore) := by
  have hconsistent : Consistent f.toStore :=
    run.call_invariant (fun f ↦ Consistent f.toStore) (.new config genesisTime)
      fun _ _ hconsistent hkept ↦ hconsistent.perform hkept
  refine ⟨?_, ?_, ?_⟩
  · intro root id ancestor _ hvalid hanc
    exact hconsistent.closed.ancestor hanc hvalid
  · intro root environment id response ancestor hroot hok hanc
    have hwp : wp ((Request.setOptimisticToValid root).op config) (fun out c' ↦
        out = .ok response → Validated c'.nodes ancestor) (f.call environment) := by
      rw [Request.op, wp_map]
      apply (Consistent.setOptimisticToValid (c := f.call environment) hconsistent root).mono
      rintro out last ⟨hvalidates, -, hreturned⟩
      cases out with
      | error fault => exact fun heq ↦ by simp at heq
      | ok _ =>
        intro _
        obtain ⟨hvalid, hclosed⟩ := hreturned rfl id hroot
        have hparents : parentOf last.nodes = parentOf f.nodes := hvalidates.sameTree.parentOf_eq
        exact hclosed.ancestor (by simpa only [Ancestor, hparents] using hanc) hvalid
    exact hwp hok
  · intro root parentRoot lastValidHash environment
    have hkeeps := keepsValidated_setOptimisticToInvalid (c := f.call environment) hconsistent root
      parentRoot lastValidHash
    exact hkeeps.map _

/-- A chain of three blocks, and the last one is found valid. -/
def validatedChain (ctx : Option ℕ) : List (Request × Environment) :=
  [(.insert ⟨1, 0, 0, none⟩ 0 0, environmentAt none 0),
    (.insert ⟨2, 1, 1, none⟩ 0 0, environmentAt none 0),
    (.insert ⟨3, 2, 2, none⟩ 0 0, environmentAt none 0),
    (.setOptimisticToValid 3, environmentAt ctx 0)]

/-- The store after the chain, with the call that validates it cancelled after the given number of
checks. -/
def afterValidatedChain (ctx : Option ℕ) : ForkChoice :=
  (execute (perform mainnetConfig) (ForkChoice.new mainnetConfig 0) (validatedChain ctx)).2

theorem closureKept_validatedChain :
    AllAllowed (perform mainnetConfig) ClosureKept (ForkChoice.new mainnetConfig 0)
      (validatedChain none) := by
  refine ⟨?_, ?_, ?_, ?_, trivial⟩
  · exact .of_forall (by decide +kernel)
  · exact .of_forall (by decide +kernel)
  · exact .of_forall (by decide +kernel)
  · exact fun _ _ ↦ .inr fun _ heq ↦ by simp [environmentAt] at heq

theorem validated_closed_under_ancestors_validatedChain :
    Ancestor (afterValidatedChain none).nodes 2 0 ∧
      Validated (afterValidatedChain none).nodes 0 := by
  have hanc : Ancestor (afterValidatedChain none).nodes 2 0 :=
    .tail (b := 1) (.single (by decide +kernel)) (by decide +kernel)
  have hclosed := (validated_closed_under_ancestors mainnetConfig 0
    (run_execute (perform mainnetConfig) ClosureKept _ _ closureKept_validatedChain)).1
  exact ⟨hanc, hclosed 3 2 0 (by decide +kernel) (by decide +kernel) hanc⟩

/-- The context is cancelled when the last block is marked and its parent is not. -/
theorem validatedChain_cancelled :
    (afterValidatedChain (some 1)).nodeByRoot 3 = some 2 ∧
      Validated (afterValidatedChain (some 1)).nodes 2 ∧
      Ancestor (afterValidatedChain (some 1)).nodes 2 1 ∧
      ¬ Validated (afterValidatedChain (some 1)).nodes 1 :=
  ⟨by decide +kernel, by decide +kernel, .single (by decide +kernel), by decide +kernel⟩

end Runs

end Prysm.DoublyLinkedTree
