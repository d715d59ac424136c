import Prysm.DoublyLinkedTree.Removal

/-!
# The traversal of `updateBestDescendant`

In a memory where children are younger than their parents and the cached best descendants are valid,
`updateBestDescendant` neither panics nor runs forever.  It fails if and only if its context passes
fewer checks than there are visits, and otherwise it leaves in every node below its start the best
descendant that `bestDescendantOf` computes from the nodes alone.
-/

namespace Prysm.DoublyLinkedTree

open List Library Action Option BestChild Descends

/-- Children are younger than their parents, and the children and best descendants are in the
memory. -/
structure Forward (nodes : List Node) : Prop where
  child : ∀ {id child}, child ∈ childrenOf nodes id → id < child ∧ child < nodes.length
  best : ∀ {id : NodeId} {n : Node} {best : NodeId}, nodes[id]? = some n →
    n.bestDescendant = some best → best < nodes.length

/-- The nodes that the traversal visits below `id`, in the order of the visits. -/
def visits (nodes : List Node) : ℕ → NodeId → List NodeId
  | 0, _ => []
  | fuel + 1, id => id :: (childrenOf nodes id).flatMap (visits nodes fuel)

/-- The nodes that a traversal of the whole tree visits. -/
def Store.traversal (s : Store) : List NodeId := visits s.nodes s.depthBound s.treeRoot

variable (nodes : List Node)

/-- The best descendant that is cached in a node. -/
def bestAt (id : NodeId) : Option NodeId :=
  (nodes[id]?).bind Node.bestDescendant

/-- The root of the node behind a link. -/
def rootAt (link : Option NodeId) : Root :=
  ((link.bind fun id ↦ nodes[id]?).map Node.root).getD zeroHash

/-- The node, or its best descendant if it has one, can be the head. -/
def leadsAt (justifiedEpoch currentEpoch : Epoch) (n : Node) (best : Option NodeId) : Bool :=
  match best with
  | none => n.viableForHead justifiedEpoch currentEpoch
  | some best => (nodes[best]?).any fun n ↦ n.viableForHead justifiedEpoch currentEpoch

/-- The better one of the best child so far and the next child. -/
def BestChild.better (best : BestChild) (child : NodeId) (n : Node)
    (childLeadsToViableHead : Bool) : BestChild :=
  if childLeadsToViableHead && !best.hasViableDescendant then ⟨some child, n.weight, true⟩
  else if childLeadsToViableHead then
    if n.weight = best.bestWeight then
      if rootAt nodes best.bestChild < n.root then { best with bestChild := some child } else best
    else if best.bestWeight < n.weight then
      { best with bestChild := some child, bestWeight := n.weight }
    else best
  else best

/-- The loop over the children, with the best descendants of the children given. -/
def bestChildOf (justifiedEpoch currentEpoch : Epoch) (bestOfChild : NodeId → Option NodeId)
    (children : List NodeId) : BestChild :=
  children.foldl (fun best child ↦ (nodes[child]?).elim best fun n ↦
    best.better nodes child n (leadsAt nodes justifiedEpoch currentEpoch n (bestOfChild child)))
    ⟨none, 0, false⟩

/-- The best descendant that goes with the best child. -/
def BestChild.descendant (bestOfChild : NodeId → Option NodeId) (best : BestChild) :
    Option NodeId :=
  if best.hasViableDescendant then (best.bestChild.bind bestOfChild).or best.bestChild else none

/-- The best descendant of a node, down to the given depth. -/
def bestBelow (nodes : List Node) (justifiedEpoch currentEpoch : Epoch) : ℕ → NodeId → Option NodeId
  | 0, _ => none
  | fuel + 1, id =>
    (bestChildOf nodes justifiedEpoch currentEpoch
      (bestBelow nodes justifiedEpoch currentEpoch fuel)
      (childrenOf nodes id)).descendant (bestBelow nodes justifiedEpoch currentEpoch fuel)

/-- The best descendant of a node. -/
def bestDescendantOf (justifiedEpoch currentEpoch : Epoch) (id : NodeId) : Option NodeId :=
  bestBelow nodes justifiedEpoch currentEpoch (nodes.length - id) id

variable {nodes : List Node} {just cur : Epoch} {id : NodeId}
  {bestDescendant : Option NodeId} {fuel fuel' : ℕ}

section BestChild

variable {bestOfChild bestOfChild' : NodeId → Option NodeId} (children : List NodeId)

theorem bestChildOf_concat (child : NodeId) :
    bestChildOf nodes just cur bestOfChild (children ++ [child]) =
      (nodes[child]?).elim (bestChildOf nodes just cur bestOfChild children)
        fun n ↦ (bestChildOf nodes just cur bestOfChild children).better nodes child
          n (leadsAt nodes just cur n (bestOfChild child)) := by
  simp [bestChildOf, foldl_append]

/-- The best child is kept or replaced by the next one. -/
theorem BestChild.better_bestChild (nodes : List Node) (best : BestChild) (child : NodeId)
    (n : Node) (viable : Bool) : best.better nodes child n viable = best ∨
      (best.better nodes child n viable).bestChild = some child := by
  unfold better
  split_ifs <;> simp

theorem bestChildOf_mem
    (hviable : (bestChildOf nodes just cur bestOfChild children).hasViableDescendant = true) :
    ∃ child ∈ children, (bestChildOf nodes just cur bestOfChild
      children).bestChild = some child := by
  induction children using List.reverseRecOn with
  | nil => simp [bestChildOf] at hviable
  | append_singleton children child ih =>
    rw [bestChildOf_concat] at hviable ⊢
    cases hnode : nodes[child]? with
    | none =>
      rw [hnode] at hviable
      obtain ⟨other, hother, hbest⟩ := ih hviable
      exact ⟨other, mem_append_left _ hother, hbest⟩
    | some n =>
      rw [hnode, elim_some] at hviable
      rw [elim_some]
      obtain hsame | hnew := better_bestChild nodes (bestChildOf nodes
        just cur bestOfChild children) child n (leadsAt nodes just cur n (bestOfChild child))
      · rw [hsame] at hviable ⊢
        obtain ⟨other, hother, hbest⟩ := ih hviable
        exact ⟨other, mem_append_left _ hother, hbest⟩
      · exact ⟨child, by simp, hnew⟩

variable {children : List NodeId}

section

variable (hsame : ∀ child ∈ children, bestOfChild child = bestOfChild' child)
include hsame

/-- Only the best descendants of the children matter. -/
theorem bestChildOf_congr :
    bestChildOf nodes just cur bestOfChild children =
      bestChildOf nodes just cur bestOfChild' children := by
  apply foldl_ext
  intro best child hchild
  rw [hsame child hchild]

theorem descendant_congr :
    (bestChildOf nodes just cur bestOfChild children).descendant bestOfChild =
      (bestChildOf nodes just cur bestOfChild' children).descendant bestOfChild' := by
  rw [← bestChildOf_congr hsame]
  unfold descendant
  split_ifs with hviable
  · obtain ⟨child, hchild, hbest⟩ := bestChildOf_mem children hviable
    simp [hbest, hsame child hchild]
  · rfl

end

end BestChild

/-- More depth than the memory has does not matter. -/
theorem Forward.bestBelow_eq (hfwd : Forward nodes) (hfuel : nodes.length ≤ fuel + id)
    (hfuel' : nodes.length ≤ fuel' + id) :
    bestBelow nodes just cur fuel id = bestBelow nodes just cur fuel' id := by
  have hnil {depth : ℕ} {id : NodeId} (hid : nodes.length ≤ id) :
      bestBelow nodes just cur depth id = none := by
    cases depth with
    | zero => rfl
    | succ depth =>
      rw [bestBelow, childrenOf_eq_nil_of_le hid]
      rfl
  induction fuel generalizing fuel' id with
  | zero => rw [hnil (by lia), hnil (by lia)]
  | succ fuel ih =>
    cases fuel' with
    | zero => rw [hnil (by lia), hnil (by lia)]
    | succ fuel' =>
      apply descendant_congr
      intro child hchild
      have hlt := (hfwd.child hchild).1
      exact ih (by lia) (by lia)

theorem Forward.bestDescendantOf_eq (hfwd : Forward nodes) (id : NodeId) :
    bestDescendantOf nodes just cur id = (bestChildOf nodes just cur
        (bestDescendantOf nodes just cur) (childrenOf nodes id)).descendant
          (bestDescendantOf nodes just cur) := by
  calc bestDescendantOf nodes just cur id
    _ = bestBelow nodes just cur (nodes.length + 1) id :=
      hfwd.bestBelow_eq (by lia) (by lia)
    _ = _ := by
      exact descendant_congr fun child _ ↦ hfwd.bestBelow_eq (by lia) (by lia)

/-- More depth than the memory has does not matter. -/
theorem Forward.visits_eq (hfwd : Forward nodes) (hid : id < nodes.length)
    (hfuel : nodes.length ≤ fuel + id) (hfuel' : nodes.length ≤ fuel' + id) :
    visits nodes fuel id = visits nodes fuel' id := by
  induction fuel generalizing fuel' id with
  | zero => lia
  | succ fuel ih =>
    cases fuel' with
    | zero => lia
    | succ fuel' =>
      rw [visits, visits]
      congr 1
      apply flatMap_congr
      intro child hchild
      obtain ⟨hlt, hlen⟩ := hfwd.child hchild
      exact ih hlen (by lia) (by lia)

/-- Only best descendants, and the checks of the context, differ. -/
structure Reranked (c c' : Call) : Prop where
  same : c' = { c with nodes := c'.nodes, ctx := c'.ctx }
  size : c'.nodes.length = c.nodes.length
  node : ∀ {id : NodeId} {n : Node}, c.nodes[id]? = some n → ∃ n', c'.nodes[id]? = some n' ∧
    n' = { n with bestDescendant := n'.bestDescendant }
  best : BestFrom c.nodes c'.nodes

namespace Reranked

variable {c c' c'' : Call}

theorem refl (c : Call) : Reranked c c := ⟨rfl, rfl, fun hnode ↦ ⟨_, hnode, rfl⟩, .refl _⟩

section

variable (hrank : Reranked c c')
include hrank

theorem recomputed : Recomputed c c' where
  same := hrank.same
  size := hrank.size
  node hnode := by
    obtain ⟨n', hnode', hn⟩ := hrank.node hnode
    exact ⟨n', hnode', by rw [hn]⟩
  best := hrank.best

theorem of_ctx (ctx : Option ℕ) : Reranked c { c' with ctx := ctx } where
  same := by
    rw [hrank.same]
  size := hrank.size
  node := hrank.node
  best := hrank.best

theorem update (id : NodeId) (hbest : ∀ best, bestDescendant = some best →
      ∃ (other : NodeId) (n : Node), c'.nodes[other]? = some n ∧
      (n.bestDescendant = some best ∨ best ∈ n.children)) :
    Reranked c { c' with
      nodes := c'.nodes.modify id fun n ↦ { n with bestDescendant := bestDescendant } } where
  same := by
    rw [hrank.same]
  size := by
    simpa using hrank.size
  node {other n} hnode := by
    obtain ⟨n', hnode', hn⟩ := hrank.node hnode
    exact exists_modify hn (by rw [hn]) hnode'
  best := (hrank.recomputed.trans (.of_bestDescendant id hbest)).best

theorem childrenOf_eq : childrenOf c'.nodes = childrenOf c.nodes :=
  hrank.recomputed.sameTree.childrenOf_eq

theorem node_eq (hid : id < c.nodes.length) :
    ∃ n, c.nodes[id]? = some n ∧
      c'.nodes[id]? = some { n with bestDescendant := bestAt c'.nodes id } := by
  obtain ⟨n', hnode', hn⟩ := hrank.node (getElem?_eq_getElem hid)
  refine ⟨_, getElem?_eq_getElem hid, ?_⟩
  rw [hnode', bestAt, hnode', bind_some, some.injEq]
  exact hn

theorem forward (hfwd : Forward c.nodes) : Forward c'.nodes where
  child hchild := by
    rw [hrank.childrenOf_eq] at hchild
    rw [hrank.size]
    exact hfwd.child hchild
  best hnode hn := by
    rw [hrank.size]
    obtain ⟨other, m, hm, hbest | hchild⟩ := hrank.best _ _ _ hnode hn
    · exact hfwd.best hm hbest
    · exact (hfwd.child (DoublyLinkedTree.childrenOf_eq hm ▸ hchild)).2

end

end Reranked

/-- The traversal returns after the given number of checks, or it is cancelled before. -/
def Spends (checks : ℕ) (ctx : Option ℕ) : Except Fault Unit → Option ℕ → Prop
  | .ok _, left => ctx = left.map (· + checks)
  | .error fault, _ => fault = .error .canceled ∧ ∃ passed < checks, ctx = some passed

variable {c middle : Call} {child : NodeId} {n : Node}

theorem Reranked.wp_leadsToViableHead (hrank : Reranked c middle) (hfwd : Forward c.nodes)
    {post : Except Fault Bool → Call → Prop}
    (hpost : post (.ok (leadsAt c.nodes just cur n (bestAt middle.nodes child))) middle) :
    wp (Node.leadsToViableHead { n with bestDescendant := bestAt middle.nodes child } just
      cur) post middle := by
  unfold Node.leadsToViableHead
  cases hbest : bestAt middle.nodes child with
  | none =>
    rw [hbest] at hpost
    exact hpost
  | some best =>
    obtain ⟨n', hnode', hn'⟩ := bind_eq_some_iff.1 hbest
    have hlt : best < c.nodes.length := hrank.size ▸ (hrank.forward hfwd).best hnode' hn'
    obtain ⟨m, hm, hm'⟩ := hrank.node_eq hlt
    simp only [hbest, leadsAt, hm, any_some] at hpost
    simp only [wp_bind]
    rw [wp_load hm', whenOk_ok]
    exact hpost

/-- The comparison takes the better child. -/
theorem Reranked.wp_compare (hrank : Reranked c middle) {best : BestChild} {viable : Bool}
    {descendant : Option NodeId} (hbest : best.hasViableDescendant = true →
      ∃ other < c.nodes.length, best.bestChild = some other)
    {post : Except Fault BestChild → Call → Prop}
    (hpost : post (.ok (best.better c.nodes child n viable)) middle) :
    wp (best.compare child { n with bestDescendant := descendant } viable) post middle := by
  unfold BestChild.compare
  unfold better at hpost
  by_cases hfirst : (viable && !best.hasViableDescendant) = true
  · rw [if_pos hfirst] at hpost ⊢
    exact hpost
  rw [if_neg hfirst] at hpost ⊢
  by_cases hviable : viable = true
  · rw [if_pos hviable] at hpost ⊢
    by_cases hequal : n.weight = best.bestWeight
    · rw [if_pos hequal] at hpost ⊢
      -- A second viable child is compared with the best one by the root.
      obtain ⟨other, hlt, hother⟩ := hbest (by simpa [hviable] using hfirst)
      obtain ⟨m, hm, hm'⟩ := hrank.node_eq hlt
      have hroot : rootAt c.nodes best.bestChild = m.root := by simp [rootAt, hother, hm]
      rw [wp_bind, hother]
      simp only [loadLink]
      rw [wp_load hm', whenOk_ok]
      rw [hroot] at hpost
      by_cases hless : m.root < n.root
      · simpa [hless] using hpost
      · simpa [hless] using hpost
    · rw [if_neg hequal] at hpost ⊢
      by_cases hmore : best.bestWeight < n.weight
      · rw [if_pos hmore] at hpost ⊢
        exact hpost
      · rw [if_neg hmore] at hpost ⊢
        exact hpost
  · rw [if_neg hviable] at hpost ⊢
    exact hpost

/-- The given nodes have their best descendant, and the others have what they had. -/
structure Ranked (nodes : List Node) (justifiedEpoch currentEpoch : Epoch) (Below : NodeId → Prop)
    (start last : List Node) : Prop where
  below : ∀ {x}, Below x → bestAt last x = bestDescendantOf nodes justifiedEpoch currentEpoch x
  other : ∀ {x}, ¬ Below x → bestAt last x = bestAt start x

theorem bestAt_modify (nodes : List Node) (id other : NodeId) (bestDescendant : Option NodeId)
    (hid : id < nodes.length) :
    bestAt (nodes.modify id fun n ↦ { n with bestDescendant := bestDescendant }) other =
      if other = id then bestDescendant else bestAt nodes other := by
  unfold bestAt
  by_cases heq : id = other
  · subst heq
    simp [hid]
  · simp [heq, Ne.symm heq]

/-- The last step of the traversal, at the node it started from. -/
theorem Ranked.update {start last : List Node} (hsize : last.length = nodes.length)
    (hid : id < nodes.length) (hranked : Ranked nodes just cur
      (fun x ↦ ∃ child ∈ childrenOf nodes id, Descends (childrenOf nodes) child x) start last)
    (hbest : bestDescendant = bestDescendantOf nodes just cur id) :
    Ranked nodes just cur (Descends (childrenOf nodes) id) start
      (last.modify id fun n ↦ { n with bestDescendant := bestDescendant }) where
  below {x} hx := by
    rw [bestAt_modify _ _ _ _ (hsize ▸ hid)]
    split_ifs with heq
    · rw [heq, hbest]
    · exact hranked.below ((iff_head.1 hx).resolve_left (Ne.symm heq))
  other {x} hx := by
    have hne : x ≠ id := by
      rintro rfl
      exact hx (refl x)
    rw [bestAt_modify _ _ _ _ (hsize ▸ hid), if_neg hne]
    exact hranked.other fun hbelow ↦ hx (iff_head.2 (.inr hbelow))

theorem length_visits_lt {done rest : List NodeId}
    (hsplit : childrenOf nodes id = done ++ child :: rest) {passed : ℕ}
    (hpassed : passed < (visits nodes fuel child).length) :
    passed + (1 + (done.flatMap (visits nodes fuel)).length) <
      (visits nodes (fuel + 1) id).length := by
  rw [visits, hsplit]
  simp only [flatMap_append, flatMap_cons, length_append, length_cons]
  omega

/-- The traversal neither panics nor runs forever, it fails if and only if the context passes fewer
checks than there are visits, and it leaves the best descendants in the nodes below its start. -/
theorem wp_updateBestDescendant (hfwd : Forward c.nodes) {start : Call}
    (hfuel : c.nodes.length ≤ fuel + id) (hid : id < c.nodes.length) (hstart : Reranked c start) :
    wp (updateBestDescendant just cur fuel id) (fun out last ↦
      Reranked c last ∧ Spends (visits c.nodes fuel id).length start.ctx out last.ctx ∧
        (out = .ok () → Ranked c.nodes just cur
          (Descends (childrenOf c.nodes) id) start.nodes last.nodes)) start := by
  induction fuel generalizing id start with
  | zero => lia
  | succ fuel ih =>
    obtain ⟨n, hnode, hnode'⟩ := hstart.node_eq hid
    have hchildren : n.children = childrenOf c.nodes id := (childrenOf_eq hnode).symm
    rw [updateBestDescendant, wp_bind]
    apply wp_checkContext
    · intro ctx hctx
      have hload : ({ start with ctx := ctx } : Call).nodes[id]? = some { n with
        bestDescendant := bestAt start.nodes id } := hnode'
      rw [whenOk_ok, wp_bind, wp_load hload, whenOk_ok]
      have hchecked := hstart.of_ctx ctx
      -- Without children the loop leaves no best child, as the source's own branch does.
      rw [ite_eq_right_iff.2 fun hnil ↦ by rw [hnil]; rfl, wp_bind, hchildren]
      apply wp_foldlM fun done best middle ↦ Reranked c middle ∧
        start.ctx = middle.ctx.map (· + (1 + (done.flatMap (visits c.nodes fuel)).length)) ∧
        best = bestChildOf c.nodes just cur (bestDescendantOf c.nodes just cur) done ∧
        Ranked c.nodes just cur
          (fun x ↦ ∃ child ∈ done, Descends (childrenOf c.nodes) child x) start.nodes middle.nodes
      · exact ⟨hchecked, by simpa using hctx, rfl, by simp, fun _ ↦ rfl⟩
      · rintro done child rest best middle hsplit ⟨hmid, hspent, hbest, hranked⟩
        have hmem : child ∈ childrenOf c.nodes id := by simp [hsplit]
        obtain ⟨hlt, hlen⟩ := hfwd.child hmem
        obtain ⟨m, hm, hm'⟩ := hmid.node_eq hlen
        rw [considerChild, wp_bind, wp_get, whenOk_ok, hm']
        simp only [wp_bind]
        apply (ih (by lia) hlen hmid).mono
        rintro out last ⟨hlast, hspends, hchildRanked⟩
        cases out with
        | error fault =>
          obtain ⟨rfl, passed, hpassed, hpassed'⟩ := hspends
          refine ⟨hlast, ⟨rfl, passed + (1 + (done.flatMap (visits c.nodes fuel)).length),
            length_visits_lt hsplit hpassed, ?_⟩, by simp⟩
          rw [hspent, hpassed', map_some]
        | ok _ =>
          have hchildRanked := hchildRanked rfl
          have hchildBest := hchildRanked.below (refl child)
          obtain ⟨m', hm₀, hmlast⟩ := hlast.node_eq hlen
          obtain rfl : m = m' := some.inj (hm.symm.trans hm₀)
          rw [whenOk_ok, wp_bind, wp_load hmlast, whenOk_ok, wp_bind]
          apply hlast.wp_leadsToViableHead hfwd
          rw [whenOk_ok]
          apply hlast.wp_compare
          · intro hviable
            rw [hbest] at hviable ⊢
            obtain ⟨other, hother, hbestChild⟩ := bestChildOf_mem done hviable
            have hotherMem : other ∈ childrenOf c.nodes id := by simp [hsplit, hother]
            exact ⟨other, (hfwd.child hotherMem).2, hbestChild⟩
          · refine ⟨hlast, ?_, ?_, ?_, ?_⟩
            · rw [hspent, hspends, Option.map_map]
              congr 1
              funext checks
              simp only [Function.comp_apply, flatMap_append, flatMap_singleton, length_append]
              omega
            · rw [bestChildOf_concat, hm, elim_some, hbest, hchildBest]
            · rintro x ⟨other, hother, hx⟩
              by_cases hchild : Descends (childrenOf c.nodes) child x
              · exact hchildRanked.below hchild
              · rw [hchildRanked.other hchild]
                obtain hdone | rfl := mem_append.1 hother |>.imp_right mem_singleton.1
                · exact hranked.below ⟨other, hdone, hx⟩
                · exact absurd hx hchild
            · intro x hx
              rw [hchildRanked.other fun hchild ↦ hx ⟨child, by simp, hchild⟩]
              exact hranked.other fun ⟨other, hother, hbelow⟩ ↦
                hx ⟨other, mem_append_left _ hother, hbelow⟩
      · rintro best last ⟨hlast, hspent, hbest, hranked⟩
        have hvisits : start.ctx = last.ctx.map (· + (visits c.nodes (fuel + 1) id).length) := by
          rw [hspent, visits, length_cons, add_comm 1]
        have hdescendant : best.descendant (bestDescendantOf c.nodes just cur) =
            bestDescendantOf c.nodes just cur id := by
          rw [hfwd.bestDescendantOf_eq id, hbest]
        rw [whenOk_ok]
        split_ifs with hviable
        · obtain ⟨child, hmem, hchild⟩ := bestChildOf_mem _ (hbest ▸ hviable)
          rw [← hbest] at hchild
          obtain ⟨m, hm, hm'⟩ := hlast.node_eq (hfwd.child hmem).2
          have hchildBest := hranked.below ⟨child, hmem, refl child⟩
          rw [descendant, if_pos hviable, hchild, bind_some, ← hchildBest]
            at hdescendant
          rw [wp_bind, hchild]
          simp only [loadLink]
          rw [wp_load hm', whenOk_ok, wp_update]
          refine ⟨hlast.update id ?_, hvisits, fun _ ↦ ?_⟩
          · intro descendant heq
            obtain ⟨n', hn', hnlast⟩ := hlast.node_eq hid
            cases hbestAt : bestAt last.nodes child with
            | some b =>
              refine ⟨child, _, hm', .inl ?_⟩
              simpa [hbestAt] using heq
            | none =>
              refine ⟨id, _, hnlast, .inr ?_⟩
              obtain rfl : child = descendant := by simpa [hbestAt] using heq
              exact childrenOf_eq hn' ▸ hmem
          · exact hranked.update hlast.size hid hdescendant
        · rw [descendant, if_neg hviable] at hdescendant
          exact ⟨hlast.update id (by simp), hvisits, fun _ ↦
            hranked.update hlast.size hid hdescendant⟩
    · exact fun hcancel ↦ ⟨hstart, ⟨rfl, 0, by simp [visits], hcancel⟩, by simp⟩

end Prysm.DoublyLinkedTree
