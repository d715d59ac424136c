import Prysm.DoublyLinkedTree.Links

/-!
# What the recursions over the tree remove

`removeNodeAndChildren` takes the node it is called for and all the nodes below it out of the maps.
`pruneFinalizedNodeByRootMap` does so with the nodes it reaches without going through the finalized
one, and empties their lists of children.  Both finish when the context is not cancelled.
-/

namespace Prysm.DoublyLinkedTree

open Library Action Descends Set

/-- A call that returns satisfies `done`, and it returns if its context is not cancelled. -/
def Completes {α : Type} (c : Call) (done : α → Call → Prop) : Except Fault α → Call → Prop
  | .ok value, last => (c.ctx = none → last.ctx = none) ∧ done value last
  | .error _, _ => c.ctx ≠ none

variable {c : Call}

/-- A check of the context passes and is used up, or the context is cancelled. -/
theorem wp_checkContext {post : Except Fault Unit → Call → Prop}
    (hpass : ∀ ctx, c.ctx = ctx.map (· + 1) → post (.ok ()) { c with ctx := ctx })
    (hcancel : c.ctx = some 0 → post (.error (.error .canceled)) c) : wp checkContext post c := by
  simp only [wp, runFrom, checkContext, ExceptT.run, StateT.run]
  cases hctx : c.ctx with
  | none =>
    have hsame : { c with ctx := none } = c := by rw [← hctx]
    exact hsame ▸ hpass none hctx
  | some checks =>
    cases checks with
    | zero => exact hcancel hctx
    | succ checks => exact hpass (some checks) hctx

/-- A context that is never cancelled is not used up. -/
theorem ctx_eq_none {ctx ctx' : Option ℕ} (hpass : ctx = ctx'.map (· + 1)) (hnone : ctx = none) :
    ctx' = none :=
  Option.map_eq_none_iff.1 (hpass ▸ hnone)

variable {n : Node} {id : NodeId} {children : NodeId → List NodeId} {lastValid : Root}
  {fuel : ℕ}

/-- The walk of `findFirstInvalid` ends at an ancestor. -/
theorem wp_findFirstInvalid :
    wp (findFirstInvalid lastValid fuel id) (fun out c' ↦
      (∃ ctx, (c.ctx = none → ctx = none) ∧ c' = { c with ctx := ctx }) ∧
        ∀ first, out = .ok first → Ancestor c.nodes id first) c := by
  have hsame : ∃ ctx, (c.ctx = none → ctx = none) ∧ c = { c with ctx := ctx } :=
    ⟨c.ctx, fun hnone ↦ hnone, rfl⟩
  induction fuel generalizing id c with
  | zero =>
    rw [findFirstInvalid, wp_throw]
    exact ⟨hsame, by simp⟩
  | succ fuel ih =>
    rw [findFirstInvalid, wp_bind]
    apply wp_load_intro _ fun _ ↦ ⟨hsame, by simp⟩
    intro n hnode
    rw [whenOk_ok]
    cases hpar : n.parent with
    | none =>
      refine ⟨hsame, fun first heq ↦ ?_⟩
      exact Except.ok.inj heq ▸ Relation.ReflTransGen.refl
    | some parent =>
      rw [wp_bind]
      apply wp_load_intro _ fun _ ↦ ⟨hsame, by simp⟩
      intro p _
      rw [whenOk_ok]
      split_ifs
      · refine ⟨hsame, fun first heq ↦ ?_⟩
        exact Except.ok.inj heq ▸ Relation.ReflTransGen.refl
      · rw [wp_bind]
        apply wp_checkContext _ fun _ ↦ ⟨hsame, by simp⟩
        intro ctx hpass
        rw [whenOk_ok]
        apply (ih ⟨ctx, fun hnone ↦ hnone, rfl⟩).mono
        rintro out last ⟨⟨ctx', hnone, rfl⟩, hanc⟩
        refine ⟨⟨ctx', fun h ↦ hnone (ctx_eq_none hpass h), rfl⟩, fun first heq ↦ ?_⟩
        exact (hanc first heq).head ((parentOf_eq hnode).trans hpar)

/-- `setOptimisticToInvalid` changes nothing, or it removes a node of the map or an ancestor. -/
theorem wp_setOptimisticToInvalid {post : Call → Prop} {root parentRoot : Root}
    (hsame : ∀ ctx, post { c with ctx := ctx })
    (hremove : ∀ root id start ctx, c.nodeByRoot root = some id → Ancestor c.nodes id start →
      (c.ctx = none → ctx = none) → wp (removeNode start) (fun _ ↦ post) { c with ctx := ctx }) :
    wp (setOptimisticToInvalid root parentRoot lastValid) (fun _ ↦ post) c := by
  have hinvalid {root : Root} {id : NodeId} (hroot : c.nodeByRoot root = some id) :
      wp (setOptimisticToInvalid.removeInvalid parentRoot lastValid id) (fun _ ↦ post) c := by
    rw [setOptimisticToInvalid.removeInvalid, wp_bind, wp_get, whenOk_ok, wp_bind]
    apply wp_findFirstInvalid.mono
    rintro out last ⟨⟨ctx, hctx, rfl⟩, hanc⟩
    cases out with
    | error fault => exact hsame ctx
    | ok first =>
      rw [whenOk_ok, wp_bind]
      apply wp_load_intro _ fun _ ↦ hsame ctx
      intro n _
      rw [whenOk_ok]
      split_ifs
      · rw [wp_bind]
        apply wp_load_intro _ fun _ ↦ hsame ctx
        intro m _
        rw [whenOk_ok]
        split_ifs
        · exact hsame ctx
        · exact hremove root id id ctx hroot .refl hctx
      · exact hremove root id first ctx hroot (hanc first rfl) hctx
  rw [setOptimisticToInvalid, wp_bind, wp_get, whenOk_ok]
  cases hroot : c.nodeByRoot root with
  | none =>
    cases hpar : c.nodeByRoot parentRoot with
    | none => exact hsame c.ctx
    | some id =>
      simp only [wp_bind]
      apply wp_load_intro _ fun _ ↦ hsame c.ctx
      intro n _
      rw [whenOk_ok]
      split_ifs
      · exact hsame c.ctx
      · exact hinvalid hpar
  | some id =>
    simp only [wp_bind]
    apply wp_load_intro _ fun _ ↦ hsame c.ctx
    intro n _
    rw [whenOk_ok, wp_bind]
    apply wp_loadLink_intro _ (hsame c.ctx)
    intro _ p _ _
    rw [whenOk_ok]
    split_ifs
    · exact hinvalid hroot
    · exact hsame c.ctx

theorem shrinks_setOptimisticToInvalid (root parentRoot lastValid : Root) (c : Call) :
    wp (setOptimisticToInvalid root parentRoot lastValid) (fun _ ↦ Shrinks c) c := by
  apply wp_setOptimisticToInvalid fun ctx ↦ .of_environment ctx _ _
  intro root id start ctx _ _ _
  exact shrinks_removeNode start _ (.of_environment ctx _ _)

/-- The roots of the given nodes, and no others, have left the map. -/
structure Forgets (removed : Set NodeId) (c c' : Call) : Prop where
  shrinks : Shrinks c c'
  gone : ∀ {id : NodeId} {n : Node}, id ∈ removed → c.nodes[id]? = some n →
    c'.nodeByRoot n.root = none
  kept : ∀ {root : Root}, (∀ id n, id ∈ removed → c.nodes[id]? = some n → n.root ≠ root) →
    c'.nodeByRoot root = c.nodeByRoot root

namespace Forgets

variable {removed removed' : Set NodeId} {c c' c'' : Call}

theorem of_shrinks (hshrinks : Shrinks c c') (hsame : c'.nodeByRoot = c.nodeByRoot) :
    Forgets ∅ c c' where
  shrinks := hshrinks
  gone hid := absurd hid (notMem_empty _)
  kept _ := congrFun hsame _

theorem of_singleton (hshrinks : Shrinks c c') (hnode : c.nodes[id]? = some n)
    (hmap : c'.nodeByRoot = Function.update c.nodeByRoot n.root none) : Forgets {id} c c' where
  shrinks := hshrinks
  gone {other n'} hother hnode' := by
    rw [mem_singleton_iff.1 hother, hnode, Option.some.injEq] at hnode'
    simp [hmap, hnode']
  kept {root} hroots := by
    rw [hmap, Function.update_of_ne (hroots id n rfl hnode).symm]

theorem union (hfirst : Forgets removed c c') (hsnd : Forgets removed' c' c'') :
    Forgets (removed ∪ removed') c c'' where
  shrinks := hfirst.shrinks.trans hsnd.shrinks
  gone {id n} hid hnode := by
    obtain hid | hid := hid
    · obtain hsame | hnone := hsnd.shrinks.nodeByRoot n.root
      · exact hsame.trans (hfirst.gone hid hnode)
      · exact hnone
    · obtain ⟨n', hnode', hn⟩ := hfirst.shrinks.node hnode
      have hroot : n'.root = n.root := by rw [hn.same]
      exact hroot ▸ hsnd.gone hid hnode'
  kept {root} hroots := by
    have hfirst' : c'.nodeByRoot root = c.nodeByRoot root :=
      hfirst.kept fun id n hid hnode ↦ hroots id n (.inl hid) hnode
    rw [← hfirst']
    apply hsnd.kept
    intro id n' hid hnode'
    obtain ⟨n, hnode, hn⟩ := hfirst.shrinks.node_of_later hnode'
    have hroot : n'.root = n.root := by rw [hn.same]
    exact hroot ▸ hroots id n (.inr hid) hnode

/-- A step before the removal that leaves the map as it is. -/
theorem after (hshrinks : Shrinks c c') (hsame : c'.nodeByRoot = c.nodeByRoot)
    (hforgets : Forgets removed c' c'') : Forgets removed c c'' :=
  empty_union removed ▸ (of_shrinks hshrinks hsame).union hforgets

end Forgets

/-- The nodes below a node are the node itself and those below its children. -/
theorem setOf_descends (id : NodeId) :
    {x | Descends children id x} =
      {x | ∃ child ∈ children id, Descends children child x} ∪ {id} := by
  ext x
  rw [mem_union, mem_singleton_iff, mem_ofPred_eq, mem_ofPred_eq, iff_head, or_comm, eq_comm]

/-- The nodes below the children up to the next one. -/
theorem setOf_descends_concat (done : List NodeId) (child : NodeId) :
    {x | ∃ c ∈ done ++ [child], Descends children c x} =
      {x | ∃ c ∈ done, Descends children c x} ∪ {x | Descends children child x} := by
  ext x
  simp [or_and_right, exists_or]

section RemoveNodeAndChildren

variable {nodes : List Node}

/-- `removeNodeAndChildren` takes out the node and all the nodes below it. -/
theorem wp_removeNodeAndChildren (hlinked : Linked nodes) (hfuel : nodes.length + 1 ≤ fuel)
    (hid : id < nodes.length) (roots : List Root) (hnodes : c.nodes = nodes) :
    wp (removeNodeAndChildren fuel id roots) (Completes c fun _ c' ↦ c'.nodes = nodes ∧
      Forgets {x | Descends (childrenOf nodes) id x} c c') c := by
  refine (hlinked.isTree id).fuel_induction (hlinked.finite_descends id)
    (fun fuel id ↦ ∀ roots c, id < nodes.length → c.nodes = nodes →
      wp (removeNodeAndChildren fuel id roots) (Completes c fun _ c' ↦ c'.nodes = nodes ∧
        Forgets {x | Descends (childrenOf nodes) id x} c c') c)
    ?_ fuel id (refl id) ((hlinked.ncard_descends_le id).trans hfuel) roots c hid hnodes
  intro fuel id _ ih roots c hid hnodes
  obtain ⟨n, hnode⟩ : ∃ n, c.nodes[id]? = some n := ⟨_, List.getElem?_eq_getElem (hnodes ▸ hid)⟩
  have hchildren : childrenOf nodes id = n.children := childrenOf_eq (hnodes ▸ hnode)
  rw [removeNodeAndChildren, wp_bind, wp_load hnode, whenOk_ok, wp_bind]
  apply wp_foldlM fun done _ middle ↦ (c.ctx = none → middle.ctx = none) ∧ middle.nodes = nodes ∧
    Forgets {x | ∃ child ∈ done, Descends (childrenOf nodes) child x} c middle
  · refine ⟨fun hctx ↦ hctx, hnodes, ?_⟩
    simpa using Forgets.of_shrinks (.refl c) rfl
  · rintro done child rest roots middle hsplit ⟨hctx, hmid, hforgets⟩
    have hchild : child ∈ childrenOf nodes id := by simp [hchildren, hsplit]
    rw [removeChild, wp_bind]
    apply wp_checkContext
    · intro ctx hpass
      rw [whenOk_ok]
      apply (ih child hchild roots { middle with ctx := ctx } (hlinked.lt_length_of_mem hchild)
        hmid).mono
      intro out last hlast
      cases out with
      | error fault => exact fun hnone ↦ hlast (ctx_eq_none hpass (hctx hnone))
      | ok roots =>
        refine ⟨fun hnone ↦ hlast.1 (ctx_eq_none hpass (hctx hnone)), hlast.2.1, ?_⟩
        rw [setOf_descends_concat]
        exact hforgets.union (hlast.2.2.after (.of_environment ctx _ _) rfl)
    · exact fun hcancel hnone ↦ by simp [hctx hnone] at hcancel
  · rintro roots last ⟨hctx, hlast, hforgets⟩
    refine ⟨hctx, hlast, ?_⟩
    rw [setOf_descends, hchildren]
    exact hforgets.union (.of_singleton (.of_forget n) (hlast ▸ hnodes ▸ hnode) rfl)

end RemoveNodeAndChildren

theorem childrenOf_detach (c : Call) (id parent other : NodeId) :
    childrenOf (c.detach id parent).nodes other =
      if other = parent then removeFromChildren (childrenOf c.nodes parent) id
      else childrenOf c.nodes other := by
  simp only [Call.detach]
  rw [childrenOf_modify]
  by_cases heq : parent = other
  · subst heq
    cases hnode : c.nodes[parent]? <;> simp [childrenOf, hnode, removeFromChildren]
  · rw [if_neg heq, if_neg (Ne.symm heq)]

/-- A leaf is removed without a look at the context. -/
theorem wp_removeNode_leaf {parent : NodeId} {post : Except Fault (List Root) → Call → Prop}
    (hnode : c.nodes[id]? = some n) (hopt : n.optimistic = true) (hpar : n.parent = some parent)
    (hleaf : n.children = []) (hne : id ≠ parent)
    (hpost : post (.ok [n.root]) ((c.detach id parent).forget n)) : wp (removeNode id) post c := by
  have hload : (c.detach id parent).nodes[id]? = some n := by
    simp [Call.detach, Ne.symm hne, hnode]
  rw [removeNode, wp_bind, wp_get, whenOk_ok, hnode]
  simp only [hopt, hpar]
  rw [wp_bind, wp_update, whenOk_ok, wp_bind, wp_get, whenOk_ok, Store.depthBound,
    removeNodeAndChildren, wp_bind]
  apply (wp_load hload).2
  rw [whenOk_ok, hleaf]
  exact hpost

section Prune

/-- The children of every node but `stop`, where the recursion ends. -/
def stopAt (stop : NodeId) (children : NodeId → List NodeId) (id : NodeId) : List NodeId :=
  if id = stop then [] else children id

/-- The given nodes have lost their children and left the map, and the others are as they were. -/
structure Prunes (pruned : Set NodeId) (c c' : Call) : Prop where
  forgets : Forgets pruned c c'
  cleared : ∀ {id}, id ∈ pruned → childrenOf c'.nodes id = []
  intact : ∀ {id}, id ∉ pruned → childrenOf c'.nodes id = childrenOf c.nodes id

namespace Prunes

variable {pruned pruned' : Set NodeId} {c c' c'' : Call}

theorem of_shrinks (hshrinks : Shrinks c c') (hsame : c'.nodeByRoot = c.nodeByRoot)
    (hchildren : ∀ id, childrenOf c'.nodes id = childrenOf c.nodes id) : Prunes ∅ c c' where
  forgets := .of_shrinks hshrinks hsame
  cleared hid := absurd hid (notMem_empty _)
  intact _ := hchildren _

theorem union (hfirst : Prunes pruned c c') (hsnd : Prunes pruned' c' c'') :
    Prunes (pruned ∪ pruned') c c'' where
  forgets := hfirst.forgets.union hsnd.forgets
  cleared {id} hid := by
    by_cases hid' : id ∈ pruned'
    · exact hsnd.cleared hid'
    · rw [hsnd.intact hid']
      exact hfirst.cleared (hid.resolve_right hid')
  intact {id} hid := by
    rw [hsnd.intact fun hid' ↦ hid (.inr hid'), hfirst.intact fun hid' ↦ hid (.inl hid')]

/-- The node loses its children and leaves the maps. -/
theorem of_singleton {n' : Node} (hnode : c.nodes[id]? = some n) (hroot : n'.root = n.root) :
    Prunes {id} c (Call.unregister n'
      { c with nodes := c.nodes.modify id fun n ↦ { n with children := [] } }) where
  forgets := by
    have hshrinks : Shrinks c (Call.unregister n'
        { c with nodes := c.nodes.modify id fun n ↦ { n with children := [] } }) :=
      .trans (.of_update id (fun n ↦ .of_children n List.nil_subperm) fun _ ↦ rfl)
        (.of_unregister n')
    exact .of_singleton hshrinks hnode (by simp [Call.unregister, hroot])
  cleared {other} hother := by
    rw [mem_singleton_iff.1 hother]
    simp [Call.unregister, childrenOf_modify, hnode]
  intact {other} hother := by
    have hne : id ≠ other := fun heq ↦ hother heq.symm
    simp [Call.unregister, childrenOf_modify, hne]

end Prunes

variable {nodes : List Node} {final : NodeId}

theorem stopAt_sublist (children : NodeId → List NodeId) (id : NodeId) :
    (stopAt final children id).Sublist (children id) := by
  unfold stopAt
  split_ifs
  · exact List.nil_sublist _
  · exact List.Sublist.refl _

/-- `pruneFinalizedNodeByRootMap` prunes the nodes that it reaches before the finalized one. -/
theorem wp_pruneFinalizedNodeByRootMap (hlinked : Linked nodes) (hfuel : nodes.length + 1 ≤ fuel)
    (hid : id < nodes.length) (hnodes : c.nodes = nodes) :
    wp (pruneFinalizedNodeByRootMap final fuel id) (Completes c fun _ c' ↦
      Prunes {x | Descends (stopAt final (childrenOf nodes)) id x ∧ x ≠ final} c c') c := by
  generalize hkids : stopAt final (childrenOf nodes) = kids
  have hsublist (x : NodeId) : (kids x).Sublist (childrenOf nodes x) :=
    hkids ▸ stopAt_sublist (childrenOf nodes) x
  have htree : IsTree kids id := (hlinked.isTree id).sublist hsublist
  have hsubset : {x | Descends kids id x} ⊆ {x | Descends (childrenOf nodes) id x} :=
    fun x hx ↦ mono (fun y ↦ (hsublist y).subset) hx
  have hfinite := hlinked.finite_descends id
  refine htree.fuel_induction (hfinite.subset hsubset)
    (fun fuel id ↦ ∀ c : Call, c.nodes.length = nodes.length → id < nodes.length →
      (∀ x, Descends kids id x → x ≠ final → childrenOf c.nodes x = kids x) →
      wp (pruneFinalizedNodeByRootMap final fuel id) (Completes c fun _ c' ↦
        Prunes {x | Descends kids id x ∧ x ≠ final} c c') c)
    ?_ fuel id (refl id) ?_ c (congrArg _ hnodes) hid ?_
  · intro fuel id hbelow ih c hlen hid hsame
    rw [pruneFinalizedNodeByRootMap, wp_bind]
    apply wp_checkContext
    · intro ctx hpass
      have hchecked : Shrinks c { c with ctx := ctx } := .of_environment ctx _ _
      rw [whenOk_ok]
      split_ifs with hfin
      · -- The recursion stops at the finalized node.
        have hempty : {x | Descends kids id x ∧ x ≠ final} = ∅ := by
          ext x
          have hleaf : kids id = [] := by rw [← hkids, stopAt, if_pos hfin]
          rw [mem_ofPred_eq, iff_head, hleaf, hfin]
          simp [eq_comm]
        rw [hempty, wp_update]
        refine ⟨ctx_eq_none hpass, .of_shrinks (hchecked.trans ?_) rfl fun x ↦ ?_⟩
        · exact .of_update id (fun n ↦ ⟨rfl, List.Subperm.refl _⟩) fun _ ↦ rfl
        · apply childrenOf_modify_of_eq
          exact fun _ ↦ rfl
      · obtain ⟨n, hnode⟩ : ∃ n, c.nodes[id]? = some n :=
          ⟨_, List.getElem?_eq_getElem (hlen ▸ hid)⟩
        have hchildren : n.children = kids id := by
          rw [← childrenOf_eq hnode, hsame id (refl id) hfin]
        have hload : ({ c with ctx := ctx } : Call).nodes[id]? = some n := hnode
        rw [wp_bind, wp_load hload, whenOk_ok, wp_bind, hchildren]
        apply wp_forM fun done middle ↦ (c.ctx = none → middle.ctx = none) ∧
          Prunes {x | (∃ child ∈ done, Descends kids child x) ∧ x ≠ final} c middle
        · exact ⟨ctx_eq_none hpass, by simpa using Prunes.of_shrinks hchecked rfl fun _ ↦ rfl⟩
        · rintro done child rest middle hsplit ⟨hctx, hprunes⟩
          have hchild : child ∈ kids id := by simp [hsplit]
          have hfresh : child ∉ done := by
            have hnodup := htree.nodup hbelow
            rw [hsplit] at hnodup
            exact fun hmem ↦ (List.nodup_append.1 hnodup).2.2 child hmem child (by simp) rfl
          have hintact : ∀ x, Descends kids child x → x ≠ final →
              childrenOf middle.nodes x = kids x := by
            intro x hx hne
            rw [hprunes.intact, hsame x (Descends.head hchild hx) hne]
            rintro ⟨⟨other, hother, hotherx⟩, -⟩
            have heq := htree.eq_of_descends hbelow (show other ∈ kids id by simp [hsplit, hother])
              hchild hotherx hx
            exact hfresh (heq ▸ hother)
          apply (ih child hchild middle (hprunes.forgets.shrinks.size.trans hlen)
            (hlinked.lt_length_of_mem ((hsublist id).subset hchild)) hintact).mono
          intro out last hlast
          cases out with
          | error fault => exact fun hnone ↦ hlast (hctx hnone)
          | ok _ =>
            refine ⟨fun hnone ↦ hlast.1 (hctx hnone), ?_⟩
            change Prunes ({x | ∃ c ∈ done ++ [child], Descends kids c x} \ {final}) c last
            rw [setOf_descends_concat, union_sdiff_distrib]
            exact hprunes.union hlast.2
        · rintro last ⟨hctx, hprunes⟩
          obtain ⟨n', hnode', hn⟩ := hprunes.forgets.shrinks.node hnode
          have hroot : n.root = n'.root := by rw [hn.same]
          refine ⟨hctx, ?_⟩
          change Prunes ({x | Descends kids id x} \ {final}) c _
          rw [setOf_descends, union_sdiff_distrib,
            sdiff_singleton_eq_self (s := {id}) fun heq ↦ hfin heq.symm]
          exact hprunes.union (.of_singleton hnode' hroot)
    · exact fun hcancel hnone ↦ by simp [hnone] at hcancel
  · calc {x | Descends kids id x}.ncard
      _ ≤ {x | Descends (childrenOf nodes) id x}.ncard := ncard_le_ncard hsubset hfinite
      _ ≤ nodes.length + 1 := hlinked.ncard_descends_le id
      _ ≤ fuel := hfuel
  · intro x _ hne
    rw [hnodes, ← hkids, stopAt, if_neg hne]

end Prune

end Prysm.DoublyLinkedTree
