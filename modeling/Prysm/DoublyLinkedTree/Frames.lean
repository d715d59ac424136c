import Prysm.DoublyLinkedTree.Requests
import Mathlib.Data.List.Perm.Subperm

/-!
# What the functions of the store leave alone

Removing nodes, pruning and recomputing weights and best descendants only take things away: nodes
leave the maps, children leave the lists, a boost ends.  `Shrinks` says so once for all of these
functions, whether they return or fail on the way, and every invariant that such a step keeps is
derived from it.
-/

namespace Prysm.DoublyLinkedTree

open List Library Action

/-- The node keeps what it says about its block, its parent, its balance and its status.  Its
children can only get fewer, its target is free and so is what is recomputed. -/
structure Node.Shrinks (n n' : Node) : Prop where
  same : n' = { n with
    target := n'.target, children := n'.children, weight := n'.weight,
    bestDescendant := n'.bestDescendant }
  children : n'.children.Subperm n.children

/-- The best descendants of the second memory are best descendants or children of the first one. -/
def BestFrom (nodes nodes' : List Node) : Prop :=
  ∀ (id : NodeId) (n' : Node) (best : NodeId), nodes'[id]? = some n' →
    n'.bestDescendant = some best → ∃ (other : NodeId) (n : Node), nodes[other]? = some n ∧
      (n.bestDescendant = some best ∨ best ∈ n.children)

/-- Nodes, links, map entries and boosts can only go away between the two states of a call. -/
structure Shrinks (c c' : Call) : Prop where
  same : c' = { c with
    nodes := c'.nodes, nodeByRoot := c'.nodeByRoot, nodeByPayload := c'.nodeByPayload,
    highestReceivedNode := c'.highestReceivedNode,
    receivedBlocksLastEpoch := c'.receivedBlocksLastEpoch,
    proposerBoostRoot := c'.proposerBoostRoot,
    previousProposerBoostRoot := c'.previousProposerBoostRoot,
    previousProposerBoostScore := c'.previousProposerBoostScore, ctx := c'.ctx, clock := c'.clock }
  size : c'.nodes.length = c.nodes.length
  node : ∀ {id : NodeId} {n : Node}, c.nodes[id]? = some n →
    ∃ n', c'.nodes[id]? = some n' ∧ n.Shrinks n'
  nodeByRoot : ∀ root, c'.nodeByRoot root = c.nodeByRoot root ∨ c'.nodeByRoot root = none
  nodeByPayload : ∀ hash, c'.nodeByPayload hash = c.nodeByPayload hash ∨
    c'.nodeByPayload hash = none
  boost : c'.proposerBoostRoot = c.proposerBoostRoot ∨ c'.proposerBoostRoot = zeroHash
  previousBoost : c'.previousProposerBoostRoot = c.previousProposerBoostRoot ∧
      c'.previousProposerBoostScore = c.previousProposerBoostScore ∨
    c'.previousProposerBoostRoot = zeroHash ∧ c'.previousProposerBoostScore = 0 ∧
      c'.nodeByRoot c.previousProposerBoostRoot = none
  best : BestFrom c.nodes c'.nodes
  received : c'.highestReceivedNode = c.highestReceivedNode ∨
    ∃ id < c.nodes.length, c'.highestReceivedNode = some id

/-- Only weights and best descendants, and the checks of the context, differ. -/
structure Recomputed (c c' : Call) : Prop where
  same : c' = { c with nodes := c'.nodes, ctx := c'.ctx }
  size : c'.nodes.length = c.nodes.length
  node : ∀ {id : NodeId} {n : Node}, c.nodes[id]? = some n → ∃ n', c'.nodes[id]? = some n' ∧
    n' = { n with weight := n'.weight, bestDescendant := n'.bestDescendant }
  best : BestFrom c.nodes c'.nodes

variable {n' : Node} {change : Node → Node} (nodes : List Node) (n : Node) {id : NodeId}

theorem exists_of_later {Relates : Node → Node → Prop} {nodes nodes' : List Node}
    (hsize : nodes'.length = nodes.length) (hlater : ∀ {id : NodeId} {n : Node},
      nodes[id]? = some n → ∃ n', nodes'[id]? = some n' ∧ Relates n n')
    (hnode : nodes'[id]? = some n') : ∃ n, nodes[id]? = some n ∧ Relates n n' := by
  have hlt : id < nodes.length := hsize ▸ (List.getElem?_eq_some_iff.1 hnode).1
  obtain ⟨n'', hnode', hn⟩ := hlater (getElem?_eq_getElem hlt)
  rw [hnode, Option.some.injEq] at hnode'
  exact ⟨_, getElem?_eq_getElem hlt, hnode' ▸ hn⟩

/-- What holds of a node and of the changed node holds of the node found in its place. -/
theorem exists_modify {Holds : Node → Prop} {nodes : List Node} {id other : NodeId} {n : Node}
    (hnode : Holds n) (hchange : Holds (change n)) (hget : nodes[other]? = some n) :
    ∃ n', (nodes.modify id change)[other]? = some n' ∧ Holds n' := by
  rw [getElem?_modify, hget]
  by_cases heq : id = other
  · exact ⟨change n, by simp [heq], hchange⟩
  · exact ⟨n, by simp [heq], hnode⟩

theorem BestFrom.refl : BestFrom nodes nodes :=
  fun id n' _ hnode hbest ↦ ⟨id, n', hnode, .inl hbest⟩

/-- A step after which the children of every node are among those it had before. -/
theorem BestFrom.trans {nodes nodes' nodes'' : List Node} (hfirst : BestFrom nodes nodes')
    (hsnd : BestFrom nodes' nodes'') (hchildren : ∀ (id : NodeId) (n' : Node),
      nodes'[id]? = some n' → ∃ n, nodes[id]? = some n ∧ n'.children ⊆ n.children) :
    BestFrom nodes nodes'' := by
  intro id n'' best hnode'' hbest
  obtain ⟨other, n', hnode', hbest' | hchild⟩ := hsnd id n'' best hnode'' hbest
  · exact hfirst other n' best hnode' hbest'
  · grind

/-- Writing a node without changing its best descendant. -/
theorem BestFrom.of_modify (id : NodeId)
    (hchange : ∀ n, (change n).bestDescendant = n.bestDescendant) :
    BestFrom nodes (nodes.modify id change) := by
  intro other n' best hnode hbest
  grind

theorem Node.Shrinks.refl : n.Shrinks n where
  same := rfl
  children := List.Subperm.refl _

theorem Node.Shrinks.trans {n n'' : Node} (hfirst : n.Shrinks n') (hsnd : n'.Shrinks n'') :
    n.Shrinks n'' where
  same := by
    rw [hsnd.same, hfirst.same]
  children := hsnd.children.trans hfirst.children

namespace Shrinks

variable {c c' c'' : Call} (ctx : Option ℕ) (clock : ℕ → Time) (receivedBlocksLastEpoch : List Slot)

/-- What a call reads of its environment, the record of the received blocks and, within the memory,
the highest of them are free. -/
theorem of_received {highestReceivedNode : Option NodeId}
    (hrecv : highestReceivedNode = c.highestReceivedNode ∨
      ∃ id < c.nodes.length, highestReceivedNode = some id) :
    Shrinks c { c with
      ctx := ctx, clock := clock, receivedBlocksLastEpoch := receivedBlocksLastEpoch
      highestReceivedNode := highestReceivedNode } where
  same := rfl
  size := rfl
  node hnode := ⟨_, hnode, .refl _⟩
  nodeByRoot _ := .inl rfl
  nodeByPayload _ := .inl rfl
  boost := .inl rfl
  previousBoost := .inl ⟨rfl, rfl⟩
  best := .refl _
  received := hrecv

theorem of_environment :
    Shrinks c { c with
      ctx := ctx, clock := clock, receivedBlocksLastEpoch := receivedBlocksLastEpoch } :=
  of_received ctx clock receivedBlocksLastEpoch (.inl rfl)

theorem refl (c : Call) : Shrinks c c := of_environment c.ctx c.clock c.receivedBlocksLastEpoch

/-- A node of the later state comes from one of the earlier state. -/
theorem node_of_later (hshrinks : Shrinks c c') (hnode : c'.nodes[id]? = some n') :
    ∃ n, c.nodes[id]? = some n ∧ n.Shrinks n' :=
  exists_of_later hshrinks.size hshrinks.node hnode

theorem trans (hfirst : Shrinks c c') (hsnd : Shrinks c' c'') : Shrinks c c'' where
  same := by
    rw [hsnd.same, hfirst.same]
  size := hsnd.size.trans hfirst.size
  node hnode := by
    obtain ⟨n', hnode', hshrinks⟩ := hfirst.node hnode
    obtain ⟨n'', hnode'', hshrinks'⟩ := hsnd.node hnode'
    exact ⟨n'', hnode'', hshrinks.trans hshrinks'⟩
  nodeByRoot root := by
    obtain hsame | hnone := hsnd.nodeByRoot root
    · exact hsame ▸ hfirst.nodeByRoot root
    · exact .inr hnone
  nodeByPayload hash := by
    obtain hsame | hnone := hsnd.nodeByPayload hash
    · exact hsame ▸ hfirst.nodeByPayload hash
    · exact .inr hnone
  boost := by
    obtain hsame | hzero := hsnd.boost
    · exact hsame ▸ hfirst.boost
    · exact .inr hzero
  previousBoost := by
    obtain ⟨hroot, hscore⟩ | ⟨hroot, hscore, hnone⟩ := hfirst.previousBoost
    · exact hroot ▸ hscore ▸ hsnd.previousBoost
    · have hgone := (hsnd.nodeByRoot c.previousProposerBoostRoot).elim (·.trans hnone) id
      right
      obtain ⟨hroot', hscore'⟩ | ⟨hroot', hscore', -⟩ := hsnd.previousBoost
      · exact ⟨hroot'.trans hroot, hscore'.trans hscore, hgone⟩
      · exact ⟨hroot', hscore', hgone⟩
  best := by
    apply hfirst.best.trans hsnd.best
    intro id n' hnode'
    obtain ⟨n, hnode, hn⟩ := hfirst.node_of_later hnode'
    exact ⟨n, hnode, hn.children.subset⟩
  received := by
    obtain hsame | ⟨id, hid, hrecv⟩ := hsnd.received
    · exact hsame ▸ hfirst.received
    · exact .inr ⟨id, hfirst.size ▸ hid, hrecv⟩

/-- A map entry of the later state is one of the earlier state. -/
theorem nodeByRoot_of_later (hshrinks : Shrinks c c') {root : Root}
    (hroot : c'.nodeByRoot root = some id) : c.nodeByRoot root = some id := by
  obtain hsame | hnone := hshrinks.nodeByRoot root
  · exact hsame ▸ hroot
  · simp [hnone] at hroot

/-- Writing a node in a way that takes things away. -/
theorem of_update (id : NodeId) (hchange : ∀ n : Node, n.Shrinks (change n))
    (hbest : ∀ n : Node, (change n).bestDescendant = n.bestDescendant) :
    Shrinks c { c with nodes := c.nodes.modify id change } where
  same := rfl
  size := by simp
  node {_ n} := exists_modify (.refl n) (hchange n)
  nodeByRoot _ := .inl rfl
  nodeByPayload _ := .inl rfl
  boost := .inl rfl
  previousBoost := .inl ⟨rfl, rfl⟩
  best := .of_modify c.nodes id hbest
  received := .inl rfl

theorem update_none_or {Key : Type} [DecidableEq Key] (map : Key → Option NodeId)
    (key other : Key) :
    Function.update map key none other = map other ∨ Function.update map key none other = none := by
  rw [Function.update_apply]
  exact (ite_eq_or_eq _ _ _).symm

theorem of_forget : Shrinks c (c.forget n) where
  same := rfl
  size := rfl
  node hnode := ⟨_, hnode, .refl _⟩
  nodeByRoot := update_none_or _ _
  nodeByPayload := update_none_or _ _
  boost := (ite_eq_or_eq _ _ _).symm
  previousBoost := by
    by_cases heq : n.root = c.previousProposerBoostRoot
    · exact .inr (by simp [Call.forget, heq])
    · exact .inl (by simp [Call.forget, heq])
  best := .refl _
  received := .inl rfl

theorem of_unregister : Shrinks c (c.unregister n) where
  same := rfl
  size := rfl
  node hnode := ⟨_, hnode, .refl _⟩
  nodeByRoot := update_none_or _ _
  nodeByPayload := update_none_or _ _
  boost := .inl rfl
  previousBoost := .inl ⟨rfl, rfl⟩
  best := .refl _
  received := .inl rfl

end Shrinks

namespace Recomputed

variable {c c' c'' : Call}

theorem refl (c : Call) : Recomputed c c := ⟨rfl, rfl, fun hnode ↦ ⟨_, hnode, rfl⟩, .refl _⟩

theorem node_of_later (hrec : Recomputed c c') (hnode : c'.nodes[id]? = some n') :
    ∃ n, c.nodes[id]? = some n ∧
      n' = { n with weight := n'.weight, bestDescendant := n'.bestDescendant } :=
  exists_of_later hrec.size hrec.node hnode

theorem trans (hfirst : Recomputed c c') (hsnd : Recomputed c' c'') : Recomputed c c'' where
  same := by
    rw [hsnd.same, hfirst.same]
  size := hsnd.size.trans hfirst.size
  node hnode := by
    obtain ⟨n', hnode', hn'⟩ := hfirst.node hnode
    obtain ⟨n'', hnode'', hn''⟩ := hsnd.node hnode'
    exact ⟨n'', hnode'', by rw [hn'', hn']⟩
  best := by
    apply hfirst.best.trans hsnd.best
    intro id n' hnode'
    obtain ⟨n, hnode, hn⟩ := hfirst.node_of_later hnode'
    grind

theorem shrinks (hrec : Recomputed c c') : Shrinks c c' where
  same := by
    rw [hrec.same]
  size := hrec.size
  node hnode := by
    obtain ⟨n', hnode', hn'⟩ := hrec.node hnode
    exact ⟨n', hnode', by rw [hn'], by rw [hn']⟩
  nodeByRoot root := .inl (by rw [hrec.same])
  nodeByPayload hash := .inl (by rw [hrec.same])
  boost := .inl (by rw [hrec.same])
  previousBoost := .inl ⟨by rw [hrec.same], by rw [hrec.same]⟩
  best := hrec.best
  received := .inl (by rw [hrec.same])

theorem of_weight (id : NodeId) (weight : Node → ℕ) :
    Recomputed c { c with nodes := c.nodes.modify id fun n ↦ { n with weight := weight n } } where
  same := rfl
  size := by simp
  node := exists_modify (by rfl) (by rfl)
  best := .of_modify c.nodes id fun _ ↦ rfl

theorem of_bestDescendant (id : NodeId) {bestDescendant : Option NodeId}
    (hbest : ∀ best, bestDescendant = some best → ∃ (other : NodeId) (n : Node),
      c.nodes[other]? = some n ∧ (n.bestDescendant = some best ∨ best ∈ n.children)) :
    Recomputed c { c with
      nodes := c.nodes.modify id fun n ↦ { n with bestDescendant := bestDescendant } } where
  same := rfl
  size := by simp
  node := exists_modify (by rfl) (by rfl)
  best := by
    intro other n' best hnode hn'
    rw [getElem?_modify] at hnode
    grind

end Recomputed

section Operations

variable {Invariant : Call → Prop} {c : Call}

/-- The call after a reading of the clock. -/
def Call.tick (call : Call) : Call :=
  { call with clock := fun reading ↦ call.clock (reading + 1) }

variable {call : Call}

@[simp]
theorem wp_timeNow {post : Except Fault Time → Call → Prop} :
    wp timeNow post call ↔ post (.ok (call.clock 0)) call.tick := Iff.rfl

@[simp]
theorem wp_currentSlot {config : BeaconChainConfig} {post : Except Fault Slot → Call → Prop} :
    wp (currentSlot config) post call ↔
      post (.ok (slotAt config call.genesisTime (call.clock 0))) call.tick := Iff.rfl

variable {id : NodeId} {post : Except Fault Node → Call → Prop} {format : String}

theorem wp_load {n : Node} (hnode : call.nodes[id]? = some n) :
    wp (load id) post call ↔ post (.ok n) call := by
  simp [load, hnode]

theorem wp_load_intro (hsome : ∀ n, call.nodes[id]? = some n → post (.ok n) call)
    (hnone : call.nodes[id]? = none → post (.error .panic) call) : wp (load id) post call := by
  cases hnode : call.nodes[id]? with
  | some n => exact (wp_load hnode).2 (hsome n hnode)
  | none =>
    simp only [load, wp_bind, wp_get, whenOk_ok, hnode, wp_throw]
    exact hnone hnode

theorem wp_loadLink_intro {link : Option NodeId}
    (hsome : ∀ id n, link = some id → call.nodes[id]? = some n → post (.ok n) call)
    (hnone : post (.error .panic) call) : wp (loadLink link) post call := by
  cases link with
  | none => exact hnone
  | some id => exact wp_load_intro (fun n ↦ hsome id n rfl) fun _ ↦ hnone

@[simp]
theorem wp_update {post : Except Fault Unit → Call → Prop} :
    wp (update id change) post call ↔
      post (.ok ()) { call with nodes := call.nodes.modify id change } := Iff.rfl

theorem preserves_load (id : NodeId) : Preserves Invariant (load id) := by
  apply preserves_get.bind
  intro call
  cases call.nodes[id]? with
  | none => exact preserves_throw _
  | some n => exact preserves_pure n

theorem preserves_loadLink (link : Option NodeId) : Preserves Invariant (loadLink link) := by
  cases link with
  | none => exact preserves_throw _
  | some id => exact preserves_load id

theorem checkContext_preserves
    (hctx : ∀ call ctx, Invariant call → Invariant { call with ctx := ctx }) :
    Preserves Invariant checkContext := by
  intro call hcall
  unfold checkContext wp runFrom
  simp only [ExceptT.run, StateT.run]
  grind

theorem preserves_wrap {α : Type} {op : Op α} (hop : Preserves Invariant op) :
    Preserves Invariant (wrap format op) :=
  hop.mapOutcome

/-- A function that only takes things away takes things away from every earlier state. -/
theorem preserves_shrinks_modify {change : Call → Call}
    (hchange : ∀ call, Shrinks call (change call)) :
    Preserves (Shrinks c) (modify change : Op Unit) :=
  preserves_modify fun call hcall ↦ hcall.trans (hchange call)

theorem shrinks_checkContext : Preserves (Shrinks c) checkContext :=
  checkContext_preserves fun _ ctx hcall ↦ hcall.trans (.of_environment ctx _ _)

theorem shrinks_timeNow : Preserves (Shrinks c) timeNow :=
  fun _ hcall ↦ hcall.trans (.of_environment _ _ _)

variable (config : BeaconChainConfig) {children : List NodeId} {op : Op Unit}
  (final : NodeId) (fuel : ℕ)

theorem shrinks_currentSlot : Preserves (Shrinks c) (currentSlot config) :=
  shrinks_timeNow.bind fun _ ↦ preserves_get.bind fun _ ↦ preserves_pure _

theorem shrinks_update (id : NodeId) (hchange : ∀ n : Node, n.Shrinks (change n))
    (hbest : ∀ n : Node, (change n).bestDescendant = n.bestDescendant) :
    Preserves (Shrinks c) (update id change) :=
  preserves_shrinks_modify fun _ ↦ .of_update id hchange hbest

theorem Node.Shrinks.of_children (hsubperm : children.Subperm n.children) :
    n.Shrinks { n with children } :=
  ⟨rfl, hsubperm⟩

theorem recomputed_checkContext : Preserves (Recomputed c) checkContext :=
  checkContext_preserves fun _ _ hcall ↦
    hcall.trans ⟨rfl, rfl, fun hnode ↦ ⟨_, hnode, rfl⟩, .refl _⟩

theorem recomputed_applyWeightChanges (id : NodeId) :
    Preserves (Recomputed c) (applyWeightChanges fuel id) := by
  induction fuel generalizing id with
  | zero => exact preserves_throw _
  | succ fuel ih =>
    apply (preserves_load id).bind
    intro n
    apply Preserves.bind
    · apply preserves_foldlM
      intro childrenWeight child _
      exact recomputed_checkContext.bind fun _ ↦ (ih child).bind fun _ ↦
        (preserves_load child).bind fun _ ↦ preserves_pure _
    · intro childrenWeight
      split_ifs
      · exact preserves_pure _
      · exact preserves_modify fun _ hcall ↦ hcall.trans (.of_weight id _)

theorem preserves_leadsToViableHead (justifiedEpoch epoch : Epoch) :
    Preserves Invariant (n.leadsToViableHead justifiedEpoch epoch) := by
  unfold Node.leadsToViableHead
  cases n.bestDescendant with
  | none => exact preserves_pure _
  | some best => exact (preserves_load best).bind fun _ ↦ preserves_pure _

/-- The comparison keeps the best child or takes the new one. -/
theorem wp_compare (best : BestChild) (child : NodeId) (n : Node) (viable : Bool) :
    wp (best.compare child n viable) (fun out call' ↦ call' = call ∧ ∀ best', out = .ok best' →
      best'.bestChild = best.bestChild ∨ best'.bestChild = some child) call := by
  unfold BestChild.compare
  split_ifs
  · exact ⟨rfl, fun _ heq ↦ Except.ok.inj heq ▸ .inr rfl⟩
  · rw [wp_bind]
    apply wp_loadLink_intro _ ⟨rfl, by simp⟩
    intro _ bestNode _ _
    rw [whenOk_ok]
    split_ifs
    · exact ⟨rfl, fun _ heq ↦ Except.ok.inj heq ▸ .inr rfl⟩
    · exact ⟨rfl, fun _ heq ↦ Except.ok.inj heq ▸ .inl rfl⟩
  · exact ⟨rfl, fun _ heq ↦ Except.ok.inj heq ▸ .inr rfl⟩
  · exact ⟨rfl, fun _ heq ↦ Except.ok.inj heq ▸ .inl rfl⟩
  · exact ⟨rfl, fun _ heq ↦ Except.ok.inj heq ▸ .inl rfl⟩

/-- A child in the loop of `updateBestDescendant` keeps what the recursive call keeps. -/
theorem wp_considerChild {updateChild : NodeId → Op Unit} {justifiedEpoch epoch : Epoch}
    {best : BestChild} {child : NodeId} (hupdate : Preserves Invariant (updateChild child))
    (hcall : Invariant call) :
    wp (considerChild updateChild justifiedEpoch epoch best child) (fun out call' ↦
      Invariant call' ∧ ∀ best', out = .ok best' →
        best'.bestChild = best.bestChild ∨ best'.bestChild = some child) call := by
  rw [considerChild, wp_bind, wp_get, whenOk_ok]
  cases call.nodes[child]? with
  | none =>
    rw [wp_throw]
    exact ⟨hcall, by simp⟩
  | some _ =>
    simp only [wp_bind]
    apply (hupdate call hcall).mono
    intro out middle hmid
    cases out with
    | error fault => exact ⟨hmid, by simp⟩
    | ok _ =>
      rw [whenOk_ok, wp_bind]
      apply wp_load_intro _ fun _ ↦ ⟨hmid, by simp⟩
      intro n _
      rw [whenOk_ok, wp_bind]
      apply (preserves_leadsToViableHead n justifiedEpoch epoch middle hmid).mono
      intro out last hlast
      cases out with
      | error fault => exact ⟨hlast, by simp⟩
      | ok viable =>
        rw [whenOk_ok]
        apply (wp_compare best child n viable).mono
        grind

theorem recomputed_updateBestDescendant (justifiedEpoch epoch : Epoch) (fuel : ℕ) (id : NodeId) :
    Preserves (Recomputed c) (updateBestDescendant justifiedEpoch epoch fuel id) := by
  induction fuel generalizing id with
  | zero => exact preserves_throw _
  | succ fuel ih =>
    apply recomputed_checkContext.bind
    intro _ start hstart
    rw [wp_bind]
    apply wp_load_intro _ fun _ ↦ hstart
    intro n hnode
    rw [whenOk_ok]
    rw [ite_eq_right_iff.2 fun hnil ↦ by rw [hnil]; rfl, wp_bind]
    -- The best child so far is one of the children that were looked at.
    apply wp_foldlM fun done best middle ↦
      Recomputed c middle ∧ ∀ child, best.bestChild = some child → child ∈ done
    · exact ⟨hstart, by simp⟩
    · rintro done child rest best middle hsplit ⟨hmid, hbest⟩
      apply (wp_considerChild (ih child) hmid).mono
      rintro out last ⟨hlast, hbest'⟩
      cases out with
      | error fault => exact hlast
      | ok best' =>
        refine ⟨hlast, fun other hother ↦ ?_⟩
        grind
    · rintro best last ⟨hlast, hbest⟩
      rw [whenOk_ok]
      split_ifs
      · rw [wp_bind]
        apply wp_loadLink_intro _ hlast
        intro child bestNode hchild hbestNode
        apply hlast.trans (.of_bestDescendant id _)
        intro other hother
        obtain ⟨n₀, hnode₀, hn₀⟩ := hstart.node_of_later hnode
        obtain ⟨n', hnode', hn'⟩ := hlast.node hnode₀
        cases hdescendant : bestNode.bestDescendant with
        | some descendant =>
          grind
        | none =>
          grind
      · exact hlast.trans (.of_bestDescendant id (by simp))

/-- The children that remain are the others, in some order. -/
theorem removeFromChildren_perm (hmem : id ∈ children) :
    (removeFromChildren children id).Perm (children.erase id) := by
  obtain hnil | ⟨front, last, rfl⟩ := eq_nil_or_concat children
  · simp [hnil] at hmem
  rw [concat_eq_append] at hmem ⊢
  by_cases hone : (front ++ [last]).length = 1
  · have hfront : front = [] := by simpa using hone
    subst hfront
    have hid : id = last := by simpa using hmem
    simp [removeFromChildren, hid]
  · rw [removeFromChildren, if_neg hone, if_pos hmem]
    by_cases hfront : id ∈ front
    · grind
    · grind

theorem removeFromChildren_subperm (children : List NodeId) (id : NodeId) :
    (removeFromChildren children id).Subperm children := by
  by_cases hmem : id ∈ children
  · exact (removeFromChildren_perm hmem).subperm.trans erase_sublist.subperm
  · unfold removeFromChildren
    split_ifs
    · exact nil_subperm
    · exact List.Subperm.refl _

theorem shrinks_removeNodeAndChildren (id : NodeId) (invalidRoots : List Root) :
    Preserves (Shrinks c) (removeNodeAndChildren fuel id invalidRoots) := by
  induction fuel generalizing id invalidRoots with
  | zero => exact preserves_throw _
  | succ fuel ih =>
    apply (preserves_load id).bind
    intro n
    apply (preserves_foldlM fun roots child _ ↦
      shrinks_checkContext.bind fun _ ↦ ih child roots).bind
    intro roots
    exact (preserves_shrinks_modify fun _ ↦ .of_forget n).bind fun _ ↦ preserves_pure _

/-- The state in which `removeNode` removes the node and the nodes below it. -/
def Call.detach (id parent : NodeId) (call : Call) : Call :=
  { call with
    nodes := call.nodes.modify parent fun p ↦
      { p with children := removeFromChildren p.children id } }

theorem shrinks_detach (id parent : NodeId) : Shrinks c (c.detach id parent) :=
  .of_update parent (fun p ↦ .of_children p (removeFromChildren_subperm p.children id)) fun _ ↦ rfl

theorem shrinks_removeNode (id : NodeId) : Preserves (Shrinks c) (removeNode id) := by
  apply preserves_get.bind
  intro call
  cases call.nodes[id]? with
  | none => exact preserves_throw _
  | some n =>
    simp only
    split
    · apply Preserves.bind
      · exact preserves_shrinks_modify fun _ ↦ shrinks_detach id _
      · exact fun _ ↦ preserves_get.bind fun _ ↦ shrinks_removeNodeAndChildren _ id []
    · exact preserves_throw _

/-- A step of an insertion, whose failure takes out the node. -/
theorem wp_orRemove {Before After : Call → Prop} (hop : wp op (fun _ ↦ Before) c)
    (hafter : ∀ call, Before call → After call)
    (hremove : ∀ call, Before call → wp (removeNode id) (fun _ ↦ After) call) :
    wp (orRemove id format op) (fun _ ↦ After) c := by
  rw [orRemove, wp_bind, wp_attempt]
  apply hop.mono
  intro out last hlast
  rw [whenOk_ok]
  split
  · exact hafter last hlast
  · exact hremove last hlast
  · exact hafter last hlast

theorem preserves_orRemove (hop : Preserves Invariant op)
    (hremove : Preserves Invariant (removeNode id)) : Preserves Invariant (orRemove id format op) :=
  fun call hcall ↦ wp_orRemove (hop call hcall) (fun _ hlast ↦ hlast) hremove

/-- What recomputes weights and best descendants takes things away. -/
theorem Recomputed.preserves_shrinks {α : Type} {op : Op α}
    (hop : ∀ call, Preserves (Recomputed call) op) : Preserves (Shrinks c) op :=
  fun call hcall ↦ (hop call call (.refl call)).mono fun _ _ hlast ↦ hcall.trans hlast.shrinks

theorem shrinks_pruneFinalizedNodeByRootMap (id : NodeId) :
    Preserves (Shrinks c) (pruneFinalizedNodeByRootMap final fuel id) := by
  induction fuel generalizing id with
  | zero => exact preserves_throw _
  | succ fuel ih =>
    apply shrinks_checkContext.bind
    intro _
    split_ifs
    · exact shrinks_update id (fun n ↦ ⟨rfl, List.Subperm.refl _⟩) fun _ ↦ rfl
    · apply (preserves_load id).bind
      intro n
      apply (preserves_forM fun child _ ↦ ih child).bind
      intro _
      apply Preserves.bind
      · exact shrinks_update id (fun n ↦ .of_children n nil_subperm) fun _ ↦ rfl
      · exact fun _ ↦ preserves_shrinks_modify fun _ ↦ .of_unregister n

theorem shrinks_pruneIncompatibleChildren (finalizedEpoch : Epoch) :
    Preserves (Shrinks c) (pruneIncompatibleChildren config final finalizedEpoch) := by
  apply (preserves_wrap (preserves_ofExcept _)).bind
  intro maxSlot
  apply (preserves_load final).bind
  intro node
  split_ifs
  · exact preserves_pure _
  · apply preserves_forM
    intro child _
    apply preserves_get.bind
    intro last
    cases last.nodes[child]? with
    | none => exact preserves_pure _
    | some n =>
      simp only
      split_ifs
      · exact preserves_get.bind fun _ ↦
          preserves_wrap (shrinks_pruneFinalizedNodeByRootMap final _ child)
      · exact preserves_pure _

/-- What `prune` does: it stops early, or it makes the finalized node the root of the tree after it
has gone through the tree. -/
theorem wp_prune :
    wp (prune config) (fun _ c' ↦ Shrinks c c' ∨ ∃ final middle,
      c.nodeByRoot c.finalizedCheckpoint.root = some final ∧
        (∀ n, c.nodes[final]? = some n → n.parent ≠ none) ∧
        (pruneFinalizedNodeByRootMap final c.depthBound c.treeRoot).runFrom c = (.ok (), middle) ∧
        Shrinks c middle ∧ Shrinks (middle.reroot final) c') c := by
  rw [prune, wp_bind, wp_get, whenOk_ok]
  cases hfin : c.nodeByRoot c.finalizedCheckpoint.root with
  | none => exact .inl (.refl c)
  | some final =>
    cases hnode : c.nodes[final]? with
    | none => simp [load, hnode, Shrinks.refl]
    | some n =>
      simp only [wp_bind, wp_load hnode, whenOk_ok]
      split_ifs with hpar
      · exact .inl (.refl c)
      · rw [wp_bind, wp_iff]
        intro out middle hrun
        have hshrinks := wp_iff.1 (shrinks_pruneFinalizedNodeByRootMap final c.depthBound
          c.treeRoot c (.refl c)) out middle hrun
        cases out with
        | error fault => exact .inl hshrinks
        | ok _ =>
          rw [whenOk_ok, wp_bind, wp_modify, whenOk_ok]
          exact (shrinks_pruneIncompatibleChildren config final _ _ (.refl _)).mono
            fun _ _ hlast ↦ .inr ⟨final, middle, rfl, by simpa [hnode], hrun, hshrinks, hlast⟩

theorem shrinks_recordReceived (slot : Slot) (hid : id < c.nodes.length) :
    Preserves (Shrinks c) (recordReceived config id slot) := by
  apply (shrinks_currentSlot config).bind
  intro currentSlot
  apply Preserves.bind
  · exact preserves_shrinks_modify fun _ ↦ .of_environment _ _ _
  · intro _
    apply preserves_get.bind
    intro s
    apply (preserves_loadLink _).bind
    intro highest
    apply preserves_modify
    intro call hcall
    apply hcall.trans (.of_received _ _ _ _)
    split_ifs
    · exact .inr ⟨id, hcall.size ▸ hid, rfl⟩
    · exact .inl rfl

end Operations

section Insert

variable (config : BeaconChainConfig) (block : ROBlock) (payloadHash : Root)
  (justifiedEpoch finalizedEpoch : Epoch)

/-- The node that is made for the block in the given state. -/
def nodeFor (c : Call) (parent : Option (NodeId × Node)) : Node :=
  newNode config block payloadHash justifiedEpoch finalizedEpoch c.nodes.length parent

/-- The states that `insert` of a new block reaches before it only takes things away. -/
inductive Inserted (c : Call) : Call → Prop
  /-- The parent is not known and there is a tree already. -/
  | refused (hparent : c.nodeByRoot block.parentRoot = none) (htree : c.treeRootNode ≠ none) :
      Inserted c ((c.register (nodeFor config block payloadHash justifiedEpoch finalizedEpoch c
        none)).unregister (nodeFor config block payloadHash justifiedEpoch finalizedEpoch c none))
  /-- The first node. -/
  | planted (hparent : c.nodeByRoot block.parentRoot = none) (htree : c.treeRootNode = none) :
      Inserted c (c.plant (nodeFor config block payloadHash justifiedEpoch finalizedEpoch c none))
  /-- A child of a known node. -/
  | linked {parentId : NodeId} {parent : Node}
      (hparent : c.nodeByRoot block.parentRoot = some parentId)
      (hnode : c.nodes[parentId]? = some parent) :
      Inserted c (c.link (nodeFor config block payloadHash justifiedEpoch finalizedEpoch c
        (some (parentId, parent))) parentId)
  /-- A child of a known node that is boosted. -/
  | boosted {parentId : NodeId} {parent : Node}
      (hparent : c.nodeByRoot block.parentRoot = some parentId)
      (hnode : c.nodes[parentId]? = some parent) (hfirst : c.proposerBoostRoot = zeroHash) :
      Inserted c { c.link (nodeFor config block payloadHash justifiedEpoch finalizedEpoch c
        (some (parentId, parent))) parentId with proposerBoostRoot := block.root }

variable {config block} {payload : Root} {just fin : Epoch}

theorem Inserted.length_lt {c c' : Call} (hins : Inserted config block payload just fin c c') :
    c.nodes.length < c'.nodes.length := by
  cases hins <;> simp [Call.unregister, Call.plant, Call.link, Call.register]

variable {c : Call}

/-- Once the node is linked, the rest of `insert` boosts it or not and then takes things away. -/
theorem wp_boostAndUpdate (id : NodeId) (now : Time) :
    wp (boostAndUpdate config id block now) (fun _ c' ↦ Shrinks c c' ∨
      c.proposerBoostRoot = zeroHash ∧
        Shrinks { c with proposerBoostRoot := block.root } c') c := by
  have htick : Shrinks c c.tick := .of_environment _ _ _
  simp only [boostAndUpdate, wp_bind, wp_currentSlot, whenOk_ok, wp_get, wrap, wp_mapOutcome,
    wp_ofExcept]
  cases hstart : sinceSlotStart config (slotAt config c.genesisTime (c.clock 0)) c.tick.genesisTime
      now with
  | error fault => cases fault <;> exact .inl htick
  | ok sss =>
    rw [wrapf_ok, whenOk_ok, wp_bind, wp_modify, whenOk_ok, wp_bind, wp_get, whenOk_ok]
    have hrest (start middle : Call) (hmid : Shrinks start middle) :
        wp (orRemove id "could not update best descendants"
          (updateBestDescendant middle.justifiedCheckpoint.epoch
            (toEpoch config (slotAt config c.genesisTime (c.clock 0))) middle.depthBound
            middle.treeRoot)) (fun _ ↦ Shrinks start) middle := preserves_orRemove
        (Recomputed.preserves_shrinks fun _ ↦ recomputed_updateBestDescendant _ _ _ _)
        (shrinks_removeNode id) middle hmid
    by_cases hboost : slotAt config c.genesisTime (c.clock 0) = block.slot ∧
        sss < boostThreshold config ∧ c.tick.proposerBoostRoot = zeroHash
    · rw [Call.boostFirst, if_pos hboost]
      exact (hrest { c with proposerBoostRoot := block.root } _ (.of_environment _ _ _)).mono
        fun _ _ hlast ↦ .inr ⟨hboost.2.2, hlast⟩
    · rw [Call.boostFirst, if_neg hboost]
      exact (hrest c c.tick htick).mono fun _ _ hlast ↦ .inl hlast

/-- What the steps of `insert` keep holds after it, unless the memory does not have the parent. -/
theorem wp_insertNew_keeps (Keeps : Call → Prop)
    (hins : ∀ {middle : Call}, Inserted config block payload just fin c middle → Keeps middle)
    (htick : ∀ call, Keeps call → Keeps call.tick)
    (hboost : ∀ parentId parent now, c.nodeByRoot block.parentRoot = some parentId →
      c.nodes[parentId]? = some parent → wp (boostAndUpdate config c.nodes.length block now)
        (fun _ ↦ Keeps) (c.link (nodeFor config block payload just fin c
          (some (parentId, parent))) parentId).tick)
    (hrec : Preserves Keeps (recordReceived config c.nodes.length block.slot)) :
    wp (insertNew config block payload just fin) (fun _ c' ↦ c' = c ∨ Keeps c') c := by
  have hreturn := hrec.bind fun _ ↦ preserves_pure c.nodes.length
  rw [insertNew, wp_bind, wp_get, whenOk_ok]
  cases hpar : c.nodeByRoot block.parentRoot with
  | none =>
    by_cases htree : c.treeRootNode = none
    · simp only [htree, if_true]
      exact (hreturn _ (hins (.planted hpar htree))).mono fun _ _ ↦ Or.inr
    · simp only [htree, if_false, wp_bind, wp_modify, whenOk_ok, wp_throw]
      exact .inr (hins (.refused hpar htree))
  | some parentId =>
    cases hnode : c.nodes[parentId]? with
    | none => simp [load, hnode]
    | some parent =>
      simp only [wp_bind, wp_load hnode, whenOk_ok, wp_modify, wp_timeNow, wp_get]
      split_ifs
      · exact .inr (htick _ (hins (.linked hpar hnode)))
      · exact ((hboost parentId parent _ hpar hnode).bind_preserves fun _ ↦ hreturn).mono
          fun _ _ ↦ .inr

/-- What `insert` does to the store, however it ends. -/
theorem wp_insertNew :
    wp (insertNew config block payload just fin) (fun _ c' ↦ c' = c ∨
      ∃ middle, Inserted config block payload just fin c middle ∧
        Shrinks middle c') c := by
  apply wp_insertNew_keeps
  · exact fun hmid ↦ ⟨_, hmid, .refl _⟩
  · rintro call ⟨middle, hmid, hshrinks⟩
    exact ⟨middle, hmid, hshrinks.trans (.of_environment _ _ _)⟩
  · intro parentId parent now hpar hnode
    apply (wp_boostAndUpdate _ _).mono
    rintro _ last (hlast | ⟨hzero, hlast⟩)
    · exact ⟨_, .linked hpar hnode, .trans (.of_environment _ _ _) hlast⟩
    · exact ⟨_, .boosted hpar hnode hzero, .trans (.of_environment _ _ _) hlast⟩
  · rintro call ⟨middle, hmid, hshrinks⟩
    exact (shrinks_recordReceived config block.slot hmid.length_lt call hshrinks).mono
      fun _ _ hlast ↦ ⟨middle, hmid, hlast⟩

theorem wp_insert :
    wp (insert config block just fin) (fun _ c' ↦ c' = c ∨
      ∃ payload middle, c.nodeByRoot block.root = none ∧
        Inserted config block payload just fin c middle ∧
          Shrinks middle c') c := by
  rw [insert, wp_bind, wp_ofExcept]
  cases block.payloadHash with
  | error fault => exact .inl rfl
  | ok payload =>
    rw [whenOk_ok, wp_bind, wp_get, whenOk_ok]
    cases hroot : c.nodeByRoot block.root with
    | some id => exact .inl rfl
    | none =>
      apply wp_insertNew.mono
      intro out last hlast
      grind

end Insert

end Prysm.DoublyLinkedTree
