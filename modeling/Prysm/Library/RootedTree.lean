import Mathlib.Data.Set.Card.Arithmetic

/-!
# Rooted trees given by lists of children

A graph is given by the list of children of each node.  The nodes below a root form a tree when no
list of children repeats a node, no node is in the lists of two parents, and the root is in none.

The edits a program makes to such a tree are hanging a leaf under a node, cutting off a subtree and
making a subtree the whole tree.  For each of them there is a lemma that says which nodes are below
the root afterwards and that they still form a tree.  `fuel_induction` proves properties of
functions that recurse over the children with a bound on the depth.
-/

namespace Prysm.Library

variable {α : Type*}

/-- The second node is the first one or below it. -/
def Descends (children : α → List α) : α → α → Prop :=
  Relation.ReflTransGen fun parent child ↦ child ∈ children parent

/-- The nodes below `root` form a tree. -/
structure IsTree (children : α → List α) (root : α) : Prop where
  nodup : ∀ {a}, Descends children root a → (children a).Nodup
  parent_unique : ∀ {a b c}, Descends children root a → Descends children root b →
    c ∈ children a → c ∈ children b → a = b
  root_notMem : ∀ {a}, Descends children root a → root ∉ children a

variable {children children' : α → List α} {root a b c : α}

namespace Descends

@[simp]
theorem refl (a : α) : Descends children a a := Relation.ReflTransGen.refl

theorem trans (hab : Descends children a b) (hbc : Descends children b c) : Descends children a c :=
  Relation.ReflTransGen.trans hab hbc

theorem of_mem (hmem : b ∈ children a) : Descends children a b := Relation.ReflTransGen.single hmem

theorem tail (hab : Descends children a b) (hmem : c ∈ children b) : Descends children a c :=
  Relation.ReflTransGen.tail hab hmem

theorem head (hmem : b ∈ children a) (hbc : Descends children b c) : Descends children a c :=
  Relation.ReflTransGen.head hmem hbc

theorem iff_head : Descends children a b ↔ a = b ∨ ∃ c ∈ children a, Descends children c b :=
  Relation.ReflTransGen.cases_head_iff

theorem iff_tail : Descends children a b ↔ b = a ∨ ∃ c, Descends children a c ∧ b ∈ children c :=
  Relation.ReflTransGen.cases_tail_iff _ a b

/-- Only the children of the nodes below `a` matter for what is below `a`. -/
theorem congr (hsame : ∀ x, Descends children a x → children' x = children x) :
    Descends children' a b ↔ Descends children a b := by
  constructor
  · intro hdesc
    induction hdesc with
    | refl => exact refl a
    | tail _ hmem ih => exact ih.tail (hsame _ ih ▸ hmem)
  · intro hdesc
    induction hdesc with
    | refl => exact refl a
    | tail hlast hmem ih => exact ih.tail ((hsame _ hlast).symm ▸ hmem)

/-- With fewer children there is less below. -/
theorem mono (hsubset : ∀ x, children' x ⊆ children x) (hab : Descends children' a b) :
    Descends children a b :=
  Relation.ReflTransGen.mono (fun x _ hmem ↦ hsubset x hmem) _ _ hab

end Descends

namespace IsTree

section

variable (htree : IsTree children root)
include htree

open Descends

/-- A tree has no cycle: a node is not below its children. -/
theorem not_descends_of_mem (ha : Descends children root a) (hmem : c ∈ children a) :
    ¬ Descends children c a := by
  -- The parent of a node on a cycle is on the cycle, so the root would be on one too.
  induction ha generalizing c with
  | refl =>
    intro hdesc
    obtain heq | ⟨last, hlast, hroot⟩ := iff_tail.1 hdesc
    · exact htree.root_notMem (Descends.refl root) (heq ▸ hmem)
    · exact htree.root_notMem ((of_mem hmem).trans hlast) hroot
  | @tail parent a hpar hedge ih =>
    intro hdesc
    have hbelow : Descends children root a := hpar.tail hedge
    obtain heq | ⟨last, hlast, hlastmem⟩ := iff_tail.1 hdesc
    · have hloop := htree.parent_unique hbelow hpar (heq ▸ hmem) hedge
      exact ih hedge (hloop ▸ Descends.refl a)
    · have hloop := htree.parent_unique ((hbelow.tail hmem).trans hlast) hpar hlastmem hedge
      exact ih hedge (hloop ▸ head hmem hlast)

/-- The subtrees of two children of a node are disjoint. -/
theorem eq_of_descends (ha : Descends children root a) {d x : α} (hc : c ∈ children a)
    (hd : d ∈ children a) (hcx : Descends children c x) (hdx : Descends children d x) : c = d := by
  induction hcx with
  | refl =>
    obtain heq | ⟨last, hlast, hmem⟩ := iff_tail.1 hdx
    · exact heq
    · have heq := htree.parent_unique (ha.trans ((of_mem hd).trans hlast)) ha hmem hc
      exact absurd (heq ▸ hlast) (htree.not_descends_of_mem ha hd)
  | @tail y x hcy hmem ih =>
    have hy : Descends children root y := ha.trans (head hc hcy)
    obtain rfl | ⟨last, hlast, hlastmem⟩ := iff_tail.1 hdx
    · have heq := htree.parent_unique hy ha hmem hd
      exact absurd (heq ▸ hcy) (htree.not_descends_of_mem ha hc)
    · have heq := htree.parent_unique (ha.trans (head hd hlast)) hy hlastmem hmem
      exact ih (heq ▸ hlast)

/-- Leaving children out of a tree leaves a tree. -/
theorem sublist (hsublist : ∀ x, (children' x).Sublist (children x)) : IsTree children' root where
  nodup ha := (htree.nodup (ha.mono fun x ↦ (hsublist x).subset)).sublist (hsublist _)
  parent_unique ha hb hc hd :=
    htree.parent_unique (ha.mono fun x ↦ (hsublist x).subset) (hb.mono fun x ↦ (hsublist x).subset)
      ((hsublist _).subset hc) ((hsublist _).subset hd)
  root_notMem ha hmem :=
    htree.root_notMem (ha.mono fun x ↦ (hsublist x).subset) ((hsublist _).subset hmem)

omit htree in
/-- What is below the root after a new leaf was hung under `a`. -/
theorem descends_insertLeaf {leaf : α} (ha : Descends children root a)
    (hleaf : ¬ Descends children root leaf) (hpar : children' a = children a ++ [leaf])
    (hnil : children' leaf = []) (hsame : ∀ x, x ≠ a → x ≠ leaf → children' x = children x) :
    Descends children' root b ↔ Descends children root b ∨ b = leaf := by
  have hkept : ∀ x, Descends children root x → Descends children' root x := by
    intro x hx
    induction hx with
    | refl => exact Descends.refl root
    | @tail y x hy hmem ih =>
      apply ih.tail
      by_cases hya : y = a
      · exact hya ▸ hpar ▸ List.mem_append_left _ (hya ▸ hmem)
      · exact (hsame y hya fun heq ↦ hleaf (heq ▸ hy)).symm ▸ hmem
  constructor
  · intro hdesc
    induction hdesc with
    | refl => exact .inl (Descends.refl root)
    | @tail y x _ hmem ih =>
      obtain hy | rfl := ih
      · by_cases hya : y = a
        · rw [hya, hpar, List.mem_append, List.mem_singleton] at hmem
          exact hmem.imp (fun hx ↦ (hya ▸ hy).tail hx) id
        · rw [hsame y hya fun heq ↦ hleaf (heq ▸ hy)] at hmem
          exact .inl (hy.tail hmem)
      · simp [hnil] at hmem
  · rintro (hb | rfl)
    · exact hkept b hb
    · exact (hkept a ha).tail (by simp [hpar])

/-- What is below the root after the subtree of the child `b` of `a` was cut off. -/
theorem descends_removeChild (ha : Descends children root a) (hb : b ∈ children a)
    (hpar : ∀ x, x ∈ children' a ↔ x ∈ children a ∧ x ≠ b)
    (hsame : ∀ x, x ≠ a → children' x = children x) :
    Descends children' root c ↔ Descends children root c ∧ ¬ Descends children b c := by
  have hmem {x y : α} : y ∈ children' x ↔ y ∈ children x ∧ (x = a → y ≠ b) := by
    by_cases hxa : x = a
    · subst hxa
      simp [hpar]
    · simp [hsame x hxa, hxa]
  have hroot : ¬ Descends children b root := by
    intro hdesc
    obtain heq | ⟨last, hlast, hlastmem⟩ := iff_tail.1 hdesc
    · exact htree.root_notMem ha (heq ▸ hb)
    · exact htree.root_notMem (ha.trans (head hb hlast)) hlastmem
  constructor
  · intro hdesc
    induction hdesc with
    | refl => exact ⟨Descends.refl root, hroot⟩
    | @tail y x _ hedge ih =>
      obtain ⟨hold, hne⟩ := hmem.1 hedge
      refine ⟨ih.1.tail hold, fun hbx ↦ ?_⟩
      -- The parent of a node below `b` is below `b` too, unless the node is `b` itself.
      obtain heq | ⟨last, hlast, hlastmem⟩ := iff_tail.1 hbx
      · exact hne (htree.parent_unique ih.1 ha hold (heq ▸ hb)) heq
      · have hlasty := htree.parent_unique (ha.trans (head hb hlast)) ih.1 hlastmem hold
        exact ih.2 (hlasty ▸ hlast)
  · rintro ⟨hdesc, hcut⟩
    induction hdesc with
    | refl => exact Descends.refl root
    | @tail y x _ hedge ih =>
      have hy : ¬ Descends children b y := fun hby ↦ hcut (hby.tail hedge)
      exact (ih hy).tail (hmem.2 ⟨hedge, fun _ heq ↦ hcut (heq ▸ Descends.refl x)⟩)

/-- There are fewer nodes below a child than below its parent. -/
theorem ncard_lt (hfinite : {x | Descends children root x}.Finite) (ha : Descends children root a)
    (hc : c ∈ children a) :
    {x | Descends children c x}.ncard < {x | Descends children a x}.ncard := by
  apply Set.ncard_lt_ncard
  · constructor
    · exact fun x hx ↦ head hc hx
    · exact fun hsubset ↦ htree.not_descends_of_mem ha hc (hsubset (Descends.refl a))
  · exact hfinite.subset fun x hx ↦ ha.trans hx

/-- Induction for a recursion over the children whose depth is bounded by `fuel`: with at least as
much fuel as there are nodes below `a` the bound is not reached. -/
theorem fuel_induction (hfinite : {x | Descends children root x}.Finite) (Property : ℕ → α → Prop)
    (hstep : ∀ fuel a, Descends children root a → (∀ c ∈ children a, Property fuel c) →
      Property (fuel + 1) a) :
    ∀ fuel a, Descends children root a → {x | Descends children a x}.ncard ≤ fuel →
      Property fuel a := by
  intro fuel
  induction fuel with
  | zero =>
    intro a ha hcard
    have hbelow : {x | Descends children a x}.Finite := hfinite.subset fun x hx ↦ ha.trans hx
    have hpos : 0 < {x | Descends children a x}.ncard :=
      (Set.ncard_pos hbelow).2 ⟨a, Descends.refl a⟩
    omega
  | succ fuel ih =>
    intro a ha hcard
    apply hstep fuel a ha
    intro c hc
    have hlt := htree.ncard_lt hfinite ha hc
    exact ih c (ha.tail hc) (by omega)

end

end IsTree

end Prysm.Library
