import Mathlib.Data.Set.Finite.Lemmas
import Mathlib.Order.Interval.Finset.Nat
import Prysm.DoublyLinkedTree.Index

/-!
# Ancestors of nodes

The queries that walk from a node towards the root of the tree.  In a tree whose slots increase from
parent to child, `CommonAncestor` finds the lowest common ancestor of two nodes: it moves the
pointer with the greater slot, or the second one when the slots are equal, and that pointer is never
at the node it looks for.  `AncestorRoot` stops at the first node that is not after a slot, and
`IsViableForCheckpoint` decides from the children of a node whether it stops there for some leaf.
-/

namespace Prysm.DoublyLinkedTree

open Library Action Option Descends

/-- `forkchoice.ErrUnknownCommonAncestor`. -/
def errUnknownCommonAncestor : Error := .errorf "unknown common ancestor" []

/-- The loop of `CommonAncestor`. -/
def commonAncestorFrom : ℕ → NodeId → NodeId → Op (Root × Slot)
  | 0, _, _ => throw .diverges
  | fuel + 1, id1, id2 => do
    checkContext
    let n1 ← load id1
    let n2 ← load id2
    match if n1.slot > n2.slot then (n1.parent, some id2) else (some id1, n2.parent) with
    | (some id1, some id2) =>
      if id1 = id2 then
        let n ← load id1
        return (n.root, n.slot)
      else commonAncestorFrom fuel id1 id2
    | _ => throw (.error errUnknownCommonAncestor)

def commonAncestor (r1 r2 : Root) : Op (Root × Slot) := do
  let s ← get
  match s.nodeByRoot r1 with
  | none => throw (.error errUnknownCommonAncestor)
  | some id1 =>
    if r1 = r2 then
      let n1 ← load id1
      return (r1, n1.slot)
    else
      match s.nodeByRoot r2 with
      | none => throw (.error errUnknownCommonAncestor)
      | some id2 => commonAncestorFrom (2 * s.depthBound) id1 id2

/-- The loop of `AncestorRoot`. -/
def ancestorRootFrom (slot : Slot) : ℕ → Option NodeId → Op Root
  | 0, _ => throw .diverges
  | _, none => wrap "could not determine ancestor root" (throw (.error errNilNode))
  | fuel + 1, some id => do
    let n ← load id
    if n.slot > slot then
      checkContext
      ancestorRootFrom slot fuel n.parent
    else
      return n.root

def ancestorRoot (root : Root) (slot : Slot) : Op Root := do
  let s ← get
  match s.nodeByRoot root with
  | none => wrap "could not determine ancestor root" (throw (.error errNilNode))
  | some id => ancestorRootFrom slot s.depthBound (some id)

/-- The loop of `IsViableForCheckpoint` over the children. -/
def anyAfter (slot : Slot) : List NodeId → Op Bool
  | [] => return false
  | child :: children => do
    let n ← load child
    if n.slot > slot then return true else anyAfter slot children

def isViableForCheckpoint (config : BeaconChainConfig) (cp : Checkpoint) : Op Bool := do
  match (← get).nodeByRoot cp.root with
  | none => return false
  | some id =>
    let node ← load id
    let epochStart ← .ofExcept (epochStart config cp.epoch)
    if node.slot > epochStart then return false
    else if node.children = [] then return true
    else if node.slot = epochStart then return true
    else if toEpoch config node.slot ≥ cp.epoch then return false
    else anyAfter epochStart node.children

/-- The slot of the node behind a pointer. -/
def slotOf (nodes : List Node) (id : NodeId) : Slot :=
  (nodes[id]?).elim 0 Node.slot

/-- The slots of the tree increase from parent to child. -/
def Ascends (s : Store) : Prop :=
  ∀ id child, InTree s id → child ∈ childrenOf s.nodes id → slotOf s.nodes id < slotOf s.nodes child

/-- The third node is above the other two, or one of them, and no other such node has a greater
slot. -/
structure LowestCommonAncestor (nodes : List Node) (id1 id2 a : NodeId) : Prop where
  left : Descends (childrenOf nodes) a id1
  right : Descends (childrenOf nodes) a id2
  greatest : ∀ x, Descends (childrenOf nodes) x id1 → Descends (childrenOf nodes) x id2 →
    slotOf nodes x ≤ slotOf nodes a

/-- The query ends with the value, unless its context is cancelled. -/
def Answers {α : Type} (c : Call) (value : α) (outcome : Except Fault α) : Prop :=
  outcome = .ok value ∨ c.ctx ≠ none ∧ outcome = .error (.error .canceled)

variable {nodes : List Node} {fuel : ℕ}

section Trees

variable {s : Store} {a b id1 id2 : NodeId}

theorem slotOf_eq {id : NodeId} {n : Node} (hnode : nodes[id]? = some n) :
    slotOf nodes id = n.slot := by
  simp [slotOf, hnode]

/-- What is above a node of the tree is in the tree. -/
theorem InTree.of_descends (hb : InTree s b) (hwf : WellFormed s)
    (hab : Descends (childrenOf s.nodes) a b) : InTree s a := by
  induction hab with
  | refl => exact hb
  | tail _ hmem ih => exact ih (hb.parent_mem hwf (hwf.linked.child_parent hmem)).1

theorem InTree.below (ha : InTree s a) (hab : Descends (childrenOf s.nodes) a b) : InTree s b := by
  obtain ⟨root, hroot, hbelow⟩ := ha
  exact ⟨root, hroot, hbelow.trans hab⟩

theorem InTree.exists_node (ha : InTree s a) (hwf : WellFormed s) : ∃ n, s.nodes[a]? = some n :=
  ⟨_, List.getElem?_eq_getElem (ha.lt_length hwf)⟩

theorem Ascends.slot_lt (hascends : Ascends s) (ha : InTree s a)
    (hab : Descends (childrenOf s.nodes) a b) : b = a ∨ slotOf s.nodes a < slotOf s.nodes b := by
  induction hab with
  | refl => exact .inl rfl
  | tail hlast hmem ih =>
    have hslot := hascends _ _ (ha.below hlast) hmem
    obtain heq | hlt := ih
    · exact .inr (heq ▸ hslot)
    · exact .inr (hlt.trans hslot)

/-- Two nodes of a tree have a lowest common ancestor: there is the root of the tree, and finitely
many nodes are above a node. -/
theorem InStep.exists_lowestCommonAncestor (hstep : InStep s) (h1 : InTree s id1)
    (h2 : InTree s id2) : ∃ a, LowestCommonAncestor s.nodes id1 id2 a := by
  obtain ⟨root, hroot, hbelow1⟩ := h1
  obtain ⟨root', hroot', hbelow2⟩ := h2
  obtain rfl : root = root' := some.inj (hroot.symm.trans hroot')
  let common := {x | Descends (childrenOf s.nodes) x id1 ∧ Descends (childrenOf s.nodes) x id2}
  have hfinite : common.Finite :=
    (Set.finite_Iic id1).subset fun x hx ↦ hstep.wellFormed.linked.le_of_descends hx.1
  obtain ⟨a, ha, hmax⟩ := Set.exists_max_image common (slotOf s.nodes) hfinite
    ⟨root, hbelow1, hbelow2⟩
  exact ⟨a, ha.1, ha.2, fun x hleft hright ↦ hmax x ⟨hleft, hright⟩⟩

namespace LowestCommonAncestor

theorem symm (hlow : LowestCommonAncestor s.nodes id1 id2 a) :
    LowestCommonAncestor s.nodes id2 id1 a :=
  ⟨hlow.right, hlow.left, fun x hright hleft ↦ hlow.greatest x hleft hright⟩

theorem eq_of_self (hlow : LowestCommonAncestor s.nodes b b a) (hascends : Ascends s)
    (ha : InTree s a) : b = a :=
  (hascends.slot_lt ha hlow.left).resolve_right (not_lt.2 (hlow.greatest b (.refl b) (.refl b)))

/-- A pointer that is not at the lowest common ancestor can be moved to the parent. -/
theorem move (hlow : LowestCommonAncestor s.nodes id1 id2 a) (hwf : WellFormed s)
    (hne : id1 ≠ a) : ∃ parent, parentOf s.nodes id1 = some parent ∧
      LowestCommonAncestor s.nodes parent id2 a := by
  obtain heq | ⟨parent, habove, hmem⟩ := iff_tail.1 hlow.left
  · exact absurd heq hne
  · exact ⟨parent, hwf.linked.child_parent hmem, habove, hlow.right, fun x hleft ↦
      hlow.greatest x (hleft.tail hmem)⟩

end LowestCommonAncestor

end Trees

section CommonAncestor

variable {c : Call} {id1 id2 a : NodeId} {n : Node}

/-- The pointers stay above the given nodes and below the lowest common ancestor until they meet. -/
theorem wp_commonAncestorFrom (hstep : InStep c) (hascends : Ascends c)
    (hlow : LowestCommonAncestor c.nodes id1 id2 a) (h1 : InTree c id1)
    (h2 : InTree c id2) (hne : id1 ≠ id2) (hnode : c.nodes[a]? = some n)
    (hfuel : id1 + id2 < fuel) :
    wp (commonAncestorFrom fuel id1 id2) (fun out _ ↦ Answers c (n.root, n.slot) out) c := by
  induction fuel generalizing id1 id2 c with
  | zero => lia
  | succ fuel ih =>
    have hwf := hstep.wellFormed
    have ha := h1.of_descends hwf hlow.left
    obtain ⟨n1, hn1⟩ := h1.exists_node hwf
    obtain ⟨n2, hn2⟩ := h2.exists_node hwf
    have hslot1 := slotOf_eq hn1
    have hslot2 := slotOf_eq hn2
    rw [commonAncestorFrom, wp_bind]
    apply wp_checkContext _ fun hcancel ↦ .inr ⟨by simp [hcancel], rfl⟩
    intro ctx hctx
    -- What is left to do once a pointer has been moved.
    have hnext {id1 id2 : NodeId} (hlow : LowestCommonAncestor c.nodes id1 id2 a)
        (h1 : InTree c id1) (h2 : InTree c id2) (hfuel : id1 + id2 < fuel) :
        wp (if id1 = id2 then do
            let n ← load id1
            return (n.root, n.slot)
          else commonAncestorFrom fuel id1 id2)
          (fun out _ ↦ Answers c (n.root, n.slot) out) { c with ctx := ctx } := by
      split_ifs with heq
      · subst heq
        obtain rfl := hlow.eq_of_self hascends ha
        simp only [load, wp_bind, wp_get, whenOk_ok, hnode, wp_pure]
        exact .inl rfl
      · apply (ih (c := { c with ctx := ctx }) hstep hascends hlow h1 h2 heq hnode hfuel).mono
        exact fun out _ ↦ Or.imp_right
          (And.imp_left fun hlive hnone ↦ hlive (ctx_eq_none hctx hnone))
    simp only [load, wp_bind, wp_get, whenOk_ok, hn1, hn2, wp_pure]
    by_cases hgt : n1.slot > n2.slot
    · have hfar : id1 ≠ a := by
        rintro rfl
        obtain heq | hlt := hascends.slot_lt ha hlow.right
        · exact hne heq.symm
        · lia
      obtain ⟨parent, hpar, hlow'⟩ := hlow.move hwf hfar
      rw [if_pos hgt, ← parentOf_eq hn1, hpar]
      have hlt := hwf.linked.parent_lt hpar
      exact hnext hlow' (h1.parent_mem hwf hpar).1 h2 (by lia)
    · have hfar : id2 ≠ a := by
        rintro rfl
        obtain heq | hlt := hascends.slot_lt ha hlow.left
        · exact hne heq
        · lia
      obtain ⟨parent, hpar, hlow'⟩ := hlow.symm.move hwf hfar
      rw [if_neg hgt, ← parentOf_eq hn2, hpar]
      have hlt := hwf.linked.parent_lt hpar
      exact hnext hlow'.symm h1 (h2.parent_mem hwf hpar).1 (by lia)

theorem wp_commonAncestor {r1 r2 : Root} (hstep : InStep c) (hascends : Ascends c)
    (h1 : c.nodeByRoot r1 = some id1) (h2 : c.nodeByRoot r2 = some id2)
    (hlow : LowestCommonAncestor c.nodes id1 id2 a) (hnode : c.nodes[a]? = some n) :
    wp (commonAncestor r1 r2) (fun out _ ↦ Answers c (n.root, n.slot) out) c := by
  obtain ⟨n1, hn1, hroot1⟩ := hstep.wellFormed.index h1
  obtain ⟨n2, -, hroot2⟩ := hstep.wellFormed.index h2
  simp only [commonAncestor, wp_bind, wp_get, whenOk_ok, h1]
  by_cases heq : r1 = r2
  · subst heq
    obtain rfl : id1 = id2 := some.inj (h1.symm.trans h2)
    have ha := (hstep.rooted h1).of_descends hstep.wellFormed hlow.left
    obtain rfl := hlow.eq_of_self hascends ha
    obtain rfl : n1 = n := some.inj (hn1.symm.trans hnode)
    rw [if_pos rfl, wp_bind, wp_load hn1, hroot1]
    exact .inl rfl
  · have hne : id1 ≠ id2 := by
      rintro rfl
      obtain ⟨n', hn', hroot⟩ := hstep.wellFormed.index h2
      rw [hn1, some.injEq] at hn'
      exact heq (hroot1.symm.trans (hn' ▸ hroot))
    have hlt1 := hstep.wellFormed.lt_length (c := c) h1
    have hlt2 := hstep.wellFormed.lt_length (c := c) h2
    rw [if_neg heq, h2]
    apply wp_commonAncestorFrom hstep hascends hlow (hstep.rooted h1) (hstep.rooted h2) hne hnode
    simp only [Store.depthBound]
    lia

/-- Two branches that leave the first block, with blocks of the same slot. -/
def forkedBlocks : List (Request × Environment) :=
  [(.insert ⟨1, 0, 0, none⟩ 0 0, environmentAt none 0),
    (.insert ⟨2, 1, 1, none⟩ 0 0, environmentAt none 0),
    (.insert ⟨3, 2, 1, none⟩ 0 0, environmentAt none 0),
    (.insert ⟨4, 2, 2, none⟩ 0 0, environmentAt none 0)]

/-- The start of a query after the blocks were inserted. -/
def afterForkedBlocks : Call :=
  (execute (perform mainnetConfig) (ForkChoice.new mainnetConfig 0) forkedBlocks).2.call
    (environmentAt none 0)

theorem inStep_forkedBlocks : InStep afterForkedBlocks :=
  (run_execute (perform mainnetConfig) (StepKept mainnetConfig) _ forkedBlocks
    ⟨trivial, trivial, trivial, trivial, trivial⟩).call_invariant (fun f ↦ InStep f.toStore)
      (.new mainnetConfig 0) fun _ _ hstep hkept ↦ hstep.perform hkept

theorem ascends_forkedBlocks : Ascends afterForkedBlocks := by
  intro id child hid hchild
  have hlt : id < 4 := hid.lt_length inStep_forkedBlocks.wellFormed
  have hall : ∀ id < 4, ∀ child ∈ childrenOf afterForkedBlocks.nodes id,
      slotOf afterForkedBlocks.nodes id < slotOf afterForkedBlocks.nodes child := by
    decide +kernel
  exact hall id hlt child hchild

/-- `CommonAncestor` returns the root and the slot of the lowest common ancestor of two nodes of a
tree whose slots increase, whichever of them comes first. -/
theorem commonAncestor_lowest {r1 r2 : Root} (hstep : InStep c)
    (hascends : Ascends c) (h1 : c.nodeByRoot r1 = some id1)
    (h2 : c.nodeByRoot r2 = some id2) :
    ∃ a n, LowestCommonAncestor c.nodes id1 id2 a ∧ c.nodes[a]? = some n ∧
      Answers c (n.root, n.slot) ((commonAncestor r1 r2).runFrom c).1 ∧
      Answers c (n.root, n.slot) ((commonAncestor r2 r1).runFrom c).1 := by
  obtain ⟨a, hlow⟩ := hstep.exists_lowestCommonAncestor (hstep.rooted h1) (hstep.rooted h2)
  obtain ⟨n, hnode⟩ := ((hstep.rooted h1).of_descends hstep.wellFormed hlow.left).exists_node
    hstep.wellFormed
  exact ⟨a, n, hlow, hnode, wp_commonAncestor hstep hascends h1 h2 hlow hnode,
    wp_commonAncestor hstep hascends h2 h1 hlow.symm hnode⟩

theorem commonAncestor_forkedBlocks :
    ((commonAncestor 3 4).runFrom afterForkedBlocks).1 = .ok (1, 0) ∧
      ∃ a n, LowestCommonAncestor afterForkedBlocks.nodes 2 3 a ∧
        afterForkedBlocks.nodes[a]? = some n ∧
        Answers afterForkedBlocks (n.root, n.slot)
          ((commonAncestor 3 4).runFrom afterForkedBlocks).1 ∧
        Answers afterForkedBlocks (n.root, n.slot)
          ((commonAncestor 4 3).runFrom afterForkedBlocks).1 :=
  ⟨by decide +kernel, commonAncestor_lowest inStep_forkedBlocks ascends_forkedBlocks
    (by decide +kernel) (by decide +kernel)⟩

end CommonAncestor

section Viable

variable {c : Call} {id y : NodeId} {slot : Slot}

/-- Every node has a leaf below it: the youngest node below it. -/
theorem Linked.exists_leaf (hlinked : Linked nodes) (id : NodeId) :
    ∃ leaf, Descends (childrenOf nodes) id leaf ∧ childrenOf nodes leaf = [] := by
  obtain ⟨leaf, hleaf, hmax⟩ := Set.exists_max_image {x | Descends (childrenOf nodes) id x}
    (fun x ↦ x) (hlinked.finite_descends id) ⟨id, .refl id⟩
  refine ⟨leaf, hleaf, List.eq_nil_iff_forall_not_mem.2 fun child hchild ↦ ?_⟩
  exact (hlinked.lt_of_mem hchild).not_ge (hmax child (hleaf.tail hchild))

/-- The first node on the way from `id` to the root of the tree that is not after the slot. -/
structure StopsAt (nodes : List Node) (slot : Slot) (id y : NodeId) : Prop where
  above : Descends (childrenOf nodes) y id
  slot_le : slotOf nodes y ≤ slot
  first : ∀ x, Descends (childrenOf nodes) x id → slotOf nodes x ≤ slot →
    Descends (childrenOf nodes) x y

/-- Of two nodes above a third one is above the other. -/
theorem Linked.descends_total (hlinked : Linked nodes) {x : NodeId}
    (hx : Descends (childrenOf nodes) x id) (hy : Descends (childrenOf nodes) y id) :
    Descends (childrenOf nodes) x y ∨ Descends (childrenOf nodes) y x := by
  induction hx with
  | refl => exact .inr hy
  | @tail last id hlast hmem ih =>
    obtain rfl | ⟨last', hlast', hmem'⟩ := iff_tail.1 hy
    · exact .inl (hlast.tail hmem)
    · obtain rfl : last = last' := some.inj
        ((hlinked.child_parent hmem).symm.trans (hlinked.child_parent hmem'))
      exact ih hlast'

/-- The walk returns the root of the node it stops at, or fails at the end of the chain. -/
theorem wp_ancestorRootFrom (hwf : WellFormed c) (hctx : c.ctx = none)
    (hid : InTree c id) (hfuel : id < fuel) :
    wp (ancestorRootFrom slot fuel (some id)) (fun out _ ↦
      (∃ y n, out = .ok n.root ∧ c.nodes[y]? = some n ∧ StopsAt c.nodes slot id y) ∨
      (∃ fault, out = .error fault) ∧
        ∀ x, Descends (childrenOf c.nodes) x id → slot < slotOf c.nodes x) c := by
  induction fuel generalizing id with
  | zero => lia
  | succ fuel ih =>
    obtain ⟨n, hnode⟩ := hid.exists_node hwf
    have hslot := slotOf_eq hnode
    rw [ancestorRootFrom, wp_bind, wp_load hnode, whenOk_ok]
    split_ifs with hafter
    · rw [wp_bind]
      apply wp_checkContext _ fun hcancel ↦ by simp [hctx] at hcancel
      intro ctx hpass
      have hsame : { c with ctx := ctx } = c := by rw [ctx_eq_none hpass hctx, ← hctx]
      rw [hsame, whenOk_ok, ← parentOf_eq hnode]
      -- The nodes above this one are itself and those above its parent.
      have hcases {x : NodeId} (hx : Descends (childrenOf c.nodes) x id) : x = id ∨
          ∃ parent, parentOf c.nodes id = some parent ∧ Descends (childrenOf c.nodes) x parent :=
        (iff_tail.1 hx).imp Eq.symm fun ⟨parent, hpar, hmem⟩ ↦
          ⟨parent, hwf.linked.child_parent hmem, hpar⟩
      cases hpar : parentOf c.nodes id with
      | none =>
        rw [hpar] at hcases
        refine .inr ⟨?_, fun x hx ↦ ?_⟩
        · cases fuel <;> exact ⟨_, rfl⟩
        · obtain rfl | ⟨parent, hnone, -⟩ := hcases hx
          · exact hslot ▸ hafter
          · cases hnone
      | some parent =>
        rw [hpar] at hcases
        obtain ⟨hin, hmem⟩ := hid.parent_mem hwf hpar
        have hlt := hwf.linked.parent_lt hpar
        apply (ih hin (by lia)).mono
        rintro out _ (⟨y, m, houtcome, hm, hstops⟩ | ⟨hfault, hlate⟩)
        · refine .inl ⟨y, m, houtcome, hm, hstops.above.tail hmem, hstops.slot_le, ?_⟩
          intro x hx hle
          obtain rfl | ⟨parent', heq, hx⟩ := hcases hx
          · lia
          · exact hstops.first x (some.inj heq ▸ hx) hle
        · refine .inr ⟨hfault, fun x hx ↦ ?_⟩
          obtain rfl | ⟨parent', heq, hx⟩ := hcases hx
          · exact hslot ▸ hafter
          · exact hlate x (some.inj heq ▸ hx)
    · exact .inl ⟨id, n, rfl, hnode, .refl id, hslot ▸ not_lt.1 hafter, fun _ hx _ ↦ hx⟩

/-- `AncestorRoot` of a node of the tree returns the root of another one exactly if the walk stops
there. -/
theorem InStep.ancestorRoot_eq_iff (hstep : InStep c) (hctx : c.ctx = none)
    (hid : InTree c id) {n : Node} (hnode : c.nodes[id]? = some n) {root : Root}
    (hroot : c.nodeByRoot root = some y) :
    ((ancestorRoot n.root slot).runFrom c).1 = .ok root ↔ StopsAt c.nodes slot id y := by
  obtain ⟨m, hm, rfl⟩ := hstep.wellFormed.index hroot
  suffices hwp : wp (ancestorRoot n.root slot)
      (fun out _ ↦ out = .ok m.root ↔ StopsAt c.nodes slot id y) c from hwp
  simp only [ancestorRoot, wp_bind, wp_get, whenOk_ok, hstep.registered hid hnode]
  apply (wp_ancestorRootFrom hstep.wellFormed hctx hid
    ((hid.lt_length hstep.wellFormed).trans (Nat.lt_succ_self _))).mono
  rintro out _ (⟨y', m', rfl, hm', hstops⟩ | ⟨⟨fault, rfl⟩, hlate⟩)
  · have hroot' := hstep.registered (hid.of_descends hstep.wellFormed hstops.above) hm'
    constructor
    · intro heq
      rw [Except.ok.inj heq, hroot] at hroot'
      exact some.inj hroot' ▸ hstops
    · intro hstops'
      have hyy' := hstops.first y hstops'.above hstops'.slot_le
      have hy'y := hstops'.first y' hstops.above hstops.slot_le
      have heq := le_antisymm (hstep.wellFormed.linked.le_of_descends hyy')
        (hstep.wellFormed.linked.le_of_descends hy'y)
      rw [← heq, hm, some.injEq] at hm'
      rw [hm']
  · refine iff_of_false (by simp) fun hstops ↦ ?_
    exact (hlate y hstops.above).not_ge hstops.slot_le

theorem wp_anyAfter (children : List NodeId)
    (hchildren : ∀ child ∈ children, child < c.nodes.length) :
    wp (anyAfter slot children) (fun out _ ↦ ∃ answer, out = .ok answer ∧
      (answer = true ↔ ∃ child ∈ children, slot < slotOf c.nodes child)) c := by
  induction children with
  | nil => exact ⟨false, rfl, by simp⟩
  | cons child children ih =>
    have hnode := List.getElem?_eq_getElem (hchildren child List.mem_cons_self)
    rw [anyAfter, wp_bind, wp_load hnode, whenOk_ok]
    split_ifs with hafter
    · exact ⟨true, rfl, iff_of_true rfl ⟨child, List.mem_cons_self, slotOf_eq hnode ▸ hafter⟩⟩
    · apply (ih fun other hother ↦ hchildren other (List.mem_cons_of_mem _ hother)).mono
      rintro out _ ⟨answer, houtcome, hiff⟩
      refine ⟨answer, houtcome, hiff.trans ?_⟩
      simp [slotOf_eq hnode, hafter]

/-- `IsViableForCheckpoint` answers for every checkpoint of an epoch whose start does not overflow,
and it answers with true exactly if the node of the checkpoint is in the store and is the ancestor
of some leaf below it at the start of the epoch. -/
theorem isViableForCheckpoint_iff (config : BeaconChainConfig) {cp : Checkpoint}
    (hstep : InStep c) (hascends : Ascends c) (hctx : c.ctx = none)
    (hstart : epochStart config cp.epoch = .ok slot) :
    ∃ answer, ((isViableForCheckpoint config cp).runFrom c).1 = .ok answer ∧
      (answer = true ↔ ∃ id, c.nodeByRoot cp.root = some id ∧ ∃ leaf n,
        Descends (childrenOf c.nodes) id leaf ∧ c.nodes[leaf]? = some n ∧ n.children = [] ∧
          ((ancestorRoot n.root slot).runFrom c).1 = .ok cp.root) := by
  have hwf := hstep.wellFormed
  have hlinked := hwf.linked
  suffices hwp : wp (isViableForCheckpoint config cp) (fun out _ ↦ ∃ answer,
      out = .ok answer ∧ (answer = true ↔ ∃ id, c.nodeByRoot cp.root = some id ∧ ∃ leaf,
        Descends (childrenOf c.nodes) id leaf ∧ childrenOf c.nodes leaf = [] ∧
          StopsAt c.nodes slot leaf id)) c by
    obtain ⟨answer, houtcome, hiff⟩ := hwp
    refine ⟨answer, houtcome, hiff.trans (exists_congr fun id ↦ and_congr_right fun hroot ↦ ?_)⟩
    refine exists_congr fun leaf ↦ ⟨?_, ?_⟩
    · rintro ⟨hbelow, hnil, hstops⟩
      have hleaf := (hstep.rooted hroot).below hbelow
      obtain ⟨n, hn⟩ := hleaf.exists_node hwf
      exact ⟨n, hbelow, hn, childrenOf_eq hn ▸ hnil,
        (hstep.ancestorRoot_eq_iff hctx hleaf hn hroot).2 hstops⟩
    · rintro ⟨n, hbelow, hn, hnil, heq⟩
      exact ⟨hbelow, (childrenOf_eq hn).trans hnil,
        (hstep.ancestorRoot_eq_iff hctx ((hstep.rooted hroot).below hbelow) hn hroot).1 heq⟩
  simp only [isViableForCheckpoint, wp_bind, wp_get, whenOk_ok]
  cases hroot : c.nodeByRoot cp.root with
  | none => exact ⟨false, rfl, by simp⟩
  | some id =>
    obtain ⟨n, hnode, -⟩ := hwf.index hroot
    have hid := hstep.rooted hroot
    have hslot := slotOf_eq hnode
    have hchildren := childrenOf_eq hnode
    simp only [some.injEq, exists_eq_left', wp_bind]
    rw [wp_load hnode, whenOk_ok]
    simp only [wp_bind, wp_ofExcept, hstart, whenOk_ok]
    split_ifs with hafter hnil heq hepoch
    · refine ⟨false, rfl, iff_of_false (by simp) ?_⟩
      rintro ⟨leaf, -, -, hstops⟩
      have hle := hstops.slot_le
      lia
    · exact ⟨true, rfl, iff_of_true rfl ⟨id, .refl id, hchildren.trans hnil, .refl id,
        hslot ▸ not_lt.1 hafter, fun _ hx _ ↦ hx⟩⟩
    · obtain ⟨leaf, hbelow, hleaf⟩ := hlinked.exists_leaf id
      refine ⟨true, rfl, iff_of_true rfl ⟨leaf, hbelow, hleaf, hbelow, hslot ▸ heq.le, ?_⟩⟩
      intro x hx hle
      obtain habove | hdown := hlinked.descends_total hx hbelow
      · exact habove
      · obtain rfl | hlt := hascends.slot_lt hid hdown
        · exact .refl x
        · lia
    · -- The node is before the start of the epoch, so it is in an earlier one.
      simp only [epochStart] at hstart
      split_ifs at hstart
      obtain rfl := Except.ok.inj hstart
      have hbefore : n.slot < config.slotsPerEpoch * cp.epoch :=
        lt_of_le_of_ne (not_lt.1 hafter) heq
      exact absurd hepoch (not_le.2 (Nat.div_lt_of_lt_mul hbefore))
    · apply (wp_anyAfter n.children fun child hchild ↦
        hlinked.lt_length_of_mem (hchildren ▸ hchild)).mono
      rintro out _ ⟨answer, houtcome, hiff⟩
      refine ⟨answer, houtcome, hiff.trans ⟨?_, ?_⟩⟩
      · rintro ⟨child, hchild, hlate⟩
        rw [← hchildren] at hchild
        obtain ⟨leaf, hbelow, hleaf⟩ := hlinked.exists_leaf child
        refine ⟨leaf, .head hchild hbelow, hleaf, .head hchild hbelow, hslot ▸ not_lt.1 hafter, ?_⟩
        intro x hx hle
        -- What is above the leaf and not after the slot is above the child.
        obtain habove | hdown := hlinked.descends_total hx hbelow
        · obtain rfl | ⟨last, hlast, hmem⟩ := iff_tail.1 habove
          · lia
          · exact some.inj ((hlinked.child_parent hmem).symm.trans
              (hlinked.child_parent hchild)) ▸ hlast
        · obtain rfl | hlt := hascends.slot_lt (hid.below (.of_mem hchild)) hdown
          · lia
          · lia
      · rintro ⟨leaf, hbelow, hleaf, hstops⟩
        obtain rfl | ⟨child, hchild, hdown⟩ := iff_head.1 hbelow
        · exact absurd (hchildren.symm.trans hleaf) hnil
        · refine ⟨child, hchildren ▸ hchild, not_le.1 fun hle ↦ ?_⟩
          exact (hlinked.isTree id).not_descends_of_mem (.refl id) hchild
            (hstops.first child hdown hle)

theorem isViableForCheckpoint_forkedBlocks :
    ∃ answer,
      ((isViableForCheckpoint mainnetConfig ⟨0, 1⟩).runFrom afterForkedBlocks).1 = .ok answer ∧
      (answer = true ↔ ∃ id, afterForkedBlocks.nodeByRoot 1 = some id ∧ ∃ leaf n,
        Descends (childrenOf afterForkedBlocks.nodes) id leaf ∧
          afterForkedBlocks.nodes[leaf]? = some n ∧ n.children = [] ∧
          ((ancestorRoot n.root 0).runFrom afterForkedBlocks).1 = .ok 1) :=
  isViableForCheckpoint_iff mainnetConfig inStep_forkedBlocks ascends_forkedBlocks rfl rfl

end Viable

end Prysm.DoublyLinkedTree
