import Mathlib.Data.List.Basic

/-!
# Involutions applied to arrays in place

An involution `σ` of the positions of an array is applied in place by swapping `i` with `σ i` for
one position `i` of every pair.  The loop may visit the pairs in any order, and a position may be
its own partner.

The second part is the round of a swap-or-not shuffle: the partner of a position is its mirror image
about a pivot, and a bit of the higher position of a pair says whether the pair is swapped.
-/

namespace Prysm.Library

open List

variable {α : Type*} {σ : ℕ → ℕ} {size : ℕ} {array : Array α} (positions : List ℕ)

/-- A map of the first positions that is its own inverse. -/
structure InvolutionBelow (σ : ℕ → ℕ) (size : ℕ) : Prop where
  lt : ∀ {i}, i < size → σ i < size
  apply_apply : ∀ {i}, i < size → σ (σ i) = i

/-- The positions are of different pairs. -/
def OfDifferentPairs (σ : ℕ → ℕ) (positions : List ℕ) : Prop :=
  positions.Pairwise fun i j ↦ i ≠ j ∧ σ i ≠ j

/-- The array with every position swapped with its partner. -/
def swapAll (σ : ℕ → ℕ) (positions : List ℕ) (array : Array α) : Array α :=
  positions.foldl (fun array i ↦ array.swapIfInBounds i (σ i)) array

theorem swapAll_append (others : List ℕ) (array : Array α) :
    swapAll σ (positions ++ others) array = swapAll σ others (swapAll σ positions array) :=
  foldl_append

theorem perm_swapAll (array : Array α) : (swapAll σ positions array).toList.Perm array.toList := by
  induction positions generalizing array with
  | nil => rfl
  | cons i positions ih =>
    refine (ih _).trans ?_
    change (array.swapIfInBounds i (σ i)).toList.Perm array.toList
    unfold Array.swapIfInBounds
    split_ifs with hi hj
    · exact (Array.swap_perm hi hj).toList
    · rfl
    · rfl

theorem getElem?_swapIfInBounds {i j : ℕ} (hi : i < array.size) (hj : j < array.size) (k : ℕ) :
    (array.swapIfInBounds i j)[k]? =
      if k = i then array[j]? else if k = j then array[i]? else array[k]? := by
  rw [Array.swapIfInBounds, dif_pos hi, dif_pos hj, Array.getElem?_swap]
  by_cases hki : k = i
  · subst hki
    by_cases hkj : j = k
    · subst hkj
      simp [hi]
    · simp [hkj, hj]
  · by_cases hkj : k = j
    · subst hkj
      simp [hki, hi]
    · simp [hki, hkj, Ne.symm hki, Ne.symm hkj]

/-- One swap applies the involution to the two positions of the pair. -/
theorem getElem?_swap_partner (hσ : InvolutionBelow σ size) (hsize : array.size = size) {i : ℕ}
    (hi : i < size) (k : ℕ) :
    (array.swapIfInBounds i (σ i))[k]? =
      if k = i ∨ k = σ i then array[σ k]? else array[k]? := by
  rw [getElem?_swapIfInBounds (by omega) (by have := hσ.lt hi; omega)]
  by_cases hki : k = i
  · simp [hki]
  · by_cases hkj : k = σ i
    · subst hkj
      simp [hki, hσ.apply_apply hi]
    · simp [hki, hkj]

/-- The loop applies the involution to every position that it visits or whose partner it visits. -/
theorem getElem?_swapAll (hσ : InvolutionBelow σ size) {positions : List ℕ}
    (hsize : array.size = size) (hbelow : ∀ i ∈ positions, i < size)
    (hpairs : OfDifferentPairs σ positions) {k : ℕ} (hk : k < size) :
    (swapAll σ positions array)[k]? =
      if k ∈ positions ∨ σ k ∈ positions then array[σ k]? else array[k]? := by
  induction positions generalizing array with
  | nil => simp [swapAll]
  | cons i positions ih =>
    obtain ⟨hfirst, hrest⟩ := pairwise_cons.1 hpairs
    have hi : i < size := hbelow i mem_cons_self
    have hswap := getElem?_swap_partner hσ hsize hi
    have hswapped : (array.swapIfInBounds i (σ i)).size = size :=
      Array.size_swapIfInBounds.trans hsize
    have hstep := ih hswapped (fun j hj ↦ hbelow j (mem_cons_of_mem _ hj)) hrest
    rw [swapAll, foldl_cons, ← swapAll, hstep]
    by_cases hvisited : k ∈ positions ∨ σ k ∈ positions
    · -- A pair that comes later is not the pair of `i`.
      have hne : σ k ≠ i ∧ σ k ≠ σ i := by
        constructor <;> intro heq <;> rcases hvisited with hmem | hmem
        · exact (hfirst k hmem).2 (by rw [← heq, hσ.apply_apply hk])
        · exact (hfirst _ hmem).1 heq.symm
        · exact (hfirst k hmem).1 (by rw [← hσ.apply_apply hi, ← heq, hσ.apply_apply hk])
        · exact (hfirst _ hmem).2 heq.symm
      rw [if_pos hvisited, hswap, if_neg (by simp [hne]),
        if_pos (hvisited.imp (mem_cons_of_mem _) (mem_cons_of_mem _))]
    · rw [if_neg hvisited, hswap]
      have hiff : (k = i ∨ k = σ i) ↔ (k ∈ i :: positions ∨ σ k ∈ i :: positions) := by
        have hpartner : k = σ i ↔ σ k = i :=
          ⟨fun heq ↦ by rw [heq, hσ.apply_apply hi], fun heq ↦ by rw [← heq, hσ.apply_apply hk]⟩
        rw [mem_cons, mem_cons, hpartner]
        tauto
      exact if_congr hiff rfl rfl

/-- The mirror image of a position about a pivot, on a circle of `size` positions. -/
def mirror (pivot size i : ℕ) : ℕ := (pivot + size - i) % size

/-- A position moves to its mirror image if the bit of the higher of the two is set. -/
def mirrorIf (bit : ℕ → Bool) (pivot size i : ℕ) : ℕ :=
  if bit (max i (mirror pivot size i)) then mirror pivot size i else i

/-- The lower positions of the pairs: those before the middle of the range up to the pivot, and
those before the middle of the range after it. -/
def lowerPositions (pivot size : ℕ) : List ℕ :=
  List.range' 0 ((pivot + 1) / 2) ++
    List.range' (pivot + 1) ((pivot + size + 1) / 2 - (pivot + 1))

section Mirror

variable {bit : ℕ → Bool} {pivot i j : ℕ}

/-- The range up to the pivot and the range after it are mirrored in themselves. -/
theorem mirror_eq (hpivot : pivot < size) (hi : i < size) :
    mirror pivot size i = if i ≤ pivot then pivot - i else pivot + size - i := by
  unfold mirror
  split_ifs with hle
  · have hsub : pivot + size - i = pivot - i + size := by omega
    rw [hsub, Nat.add_mod_right, Nat.mod_eq_of_lt (by omega)]
  · exact Nat.mod_eq_of_lt (by omega)

theorem mirror_lt (hi : i < size) : mirror pivot size i < size :=
  Nat.mod_lt _ (Nat.zero_lt_of_lt hi)

theorem mirror_mirror (hpivot : pivot < size) (hi : i < size) :
    mirror pivot size (mirror pivot size i) = i := by
  rw [mirror_eq hpivot (mirror_lt hi), mirror_eq hpivot hi]
  split_ifs <;> omega

theorem mirrorIf_of_le (bit : ℕ → Bool) (hmirror : mirror pivot size i = j) (hle : i ≤ j) :
    mirrorIf bit pivot size i = if bit j then j else i := by
  rw [mirrorIf, hmirror, Nat.max_eq_right hle]

theorem involutionBelow_mirrorIf (bit : ℕ → Bool) (hpivot : pivot < size) :
    InvolutionBelow (mirrorIf bit pivot size) size where
  lt := by
    intro i hi
    unfold mirrorIf
    split_ifs
    · exact mirror_lt hi
    · exact hi
  apply_apply := by
    intro i hi
    by_cases hbit : bit (max i (mirror pivot size i))
    · have hmoves : mirrorIf bit pivot size i = mirror pivot size i := if_pos hbit
      rw [hmoves, mirrorIf, mirror_mirror hpivot hi, Nat.max_comm, if_pos hbit]
    · have hstays : mirrorIf bit pivot size i = i := if_neg hbit
      rw [hstays, hstays]

theorem mem_lowerPositions : i ∈ lowerPositions pivot size ↔
    i < (pivot + 1) / 2 ∨ pivot < i ∧ i < (pivot + size + 1) / 2 := by
  simp only [lowerPositions, mem_append, mem_range'_1]
  omega

theorem lt_of_mem_lowerPositions (hpivot : pivot < size) (hi : i ∈ lowerPositions pivot size) :
    i < size := by
  rw [mem_lowerPositions] at hi
  omega

/-- No two lower positions are mirror images of each other. -/
theorem mirror_ne_of_mem (hpivot : pivot < size) (hi : i ∈ lowerPositions pivot size)
    (hj : j ∈ lowerPositions pivot size) : mirror pivot size i ≠ j := by
  rw [mirror_eq hpivot (lt_of_mem_lowerPositions hpivot hi)]
  rw [mem_lowerPositions] at hi hj
  split_ifs <;> omega

theorem nodup_lowerPositions (pivot size : ℕ) : (lowerPositions pivot size).Nodup := by
  rw [lowerPositions, nodup_append]
  refine ⟨nodup_range', nodup_range', fun i hi j hj ↦ ?_⟩
  rw [mem_range'_1] at hi hj
  omega

theorem ofDifferentPairs_lowerPositions (bit : ℕ → Bool) (hpivot : pivot < size) :
    OfDifferentPairs (mirrorIf bit pivot size) (lowerPositions pivot size) := by
  apply (nodup_lowerPositions pivot size).imp_of_mem
  intro i j hi hj hne
  refine ⟨hne, ?_⟩
  unfold mirrorIf
  split_ifs
  · exact mirror_ne_of_mem hpivot hi hj
  · exact hne

/-- A position that is not the lower one of a pair is the higher one, or is its own mirror image. -/
theorem mirror_mem_or_eq (hpivot : pivot < size) (hi : i < size)
    (hnot : i ∉ lowerPositions pivot size) :
    mirror pivot size i ∈ lowerPositions pivot size ∨ mirror pivot size i = i := by
  rw [mem_lowerPositions] at hnot ⊢
  rw [mirror_eq hpivot hi]
  split_ifs <;> omega

/-- Swapping the lower positions applies the round to the whole array. -/
theorem getElem?_swapAll_lowerPositions (bit : ℕ → Bool) (hpivot : pivot < size)
    (hsize : array.size = size) (hi : i < size) :
    (swapAll (mirrorIf bit pivot size) (lowerPositions pivot size) array)[i]? =
      array[mirrorIf bit pivot size i]? := by
  rw [getElem?_swapAll (involutionBelow_mirrorIf bit hpivot) hsize
    (fun j hj ↦ lt_of_mem_lowerPositions hpivot hj) (ofDifferentPairs_lowerPositions bit hpivot) hi]
  split_ifs with hvisited
  · rfl
  · have hself : mirrorIf bit pivot size i = i := by
      unfold mirrorIf at hvisited ⊢
      split_ifs at hvisited ⊢ with hbit
      · have hmirror := mirror_mem_or_eq hpivot hi fun hmem ↦ hvisited (.inl hmem)
        exact hmirror.resolve_left fun hmem ↦ hvisited (.inr hmem)
      · rfl
    rw [hself]

end Mirror

end Prysm.Library
