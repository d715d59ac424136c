import Prysm.Aggregation.Attestations

/-!
# Aggregation loses no vote

Every attestation that `MaxCoverAttestationAggregation` returns is the sum of distinct input
attestations whose bits are disjoint, and together the results have all the votes of the input.

The entries of the two arrays are followed together: an entry is an attestation, the bit list that
stands for it and, in the proof only, the positions of the input attestations it is made of.
-/

namespace Prysm.Aggregation

open Prysm.Library Att Bitfield
open List hiding Disjoint swap swap_self

variable {Data CommitteeBits : Type} {att : Att Data CommitteeBits} {keys : List ℕ} {idx key : ℕ}

/-- The votes of the input attestation at a position. -/
def votesAt (inputs : List (Att Data CommitteeBits)) (i : ℕ) : Finset ℕ :=
  (inputs[i]?.map Att.votes).getD ∅

/-- An attestation is the aggregate of distinct input attestations with disjoint bits, and its
signature has the vote of each of its bits once. -/
structure Sound (inputs : List (Att Data CommitteeBits)) (width : ℕ)
    (subject : Data × Option CommitteeBits) (att : Att Data CommitteeBits) (origin : List ℕ) :
    Prop where
  len : att.getAggregationBits.len = width
  subject : att.subject = subject
  signature : att.getSignature = att.votes.val
  inside : ∀ i ∈ origin, i < inputs.length
  nodup : origin.Nodup
  disjoint : origin.Pairwise fun i j ↦ Disjoint (votesAt inputs i) (votesAt inputs j)
  votes : ∀ v, v ∈ att.votes ↔ ∃ i ∈ origin, v ∈ votesAt inputs i

/-- An entry of the arrays. -/
structure Entry (Data CommitteeBits : Type) where
  att : Att Data CommitteeBits
  candidate : Bitlist
  origin : List ℕ

/-- The sum of disjoint sets has each of their elements once. -/
theorem sum_val_of_disjoint {sets : List (Finset ℕ)} (hdisj : sets.Pairwise Disjoint)
    {s : Finset ℕ} (hs : ∀ v, v ∈ s ↔ ∃ t ∈ sets, v ∈ t) : (sets.map Finset.val).sum = s.val := by
  induction sets generalizing s with
  | nil =>
    have hempty : s = ∅ := Finset.eq_empty_of_forall_notMem fun v hv ↦ by
      obtain ⟨t, ht, -⟩ := (hs v).1 hv
      exact not_mem_nil ht
    rw [hempty]
    rfl
  | cons t sets ih =>
    obtain ⟨hfirst, hrest⟩ := pairwise_cons.1 hdisj
    have hsub : t ⊆ s := fun v hv ↦ (hs v).2 ⟨t, mem_cons_self, hv⟩
    have hsum := @ih hrest (s \ t) fun v ↦ by
      rw [Finset.mem_sdiff, hs]
      constructor
      · grind
      · rintro ⟨u, hu, hv⟩
        exact ⟨⟨u, mem_cons_of_mem _ hu, hv⟩, fun hin ↦ Finset.disjoint_left.1 (hfirst u hu) hin hv⟩
    rw [map_cons, sum_cons, hsum]
    calc
      t.val + (s \ t).val = (t.disjUnion (s \ t) Finset.disjoint_sdiff).val := rfl
      _ = s.val := by rw [Finset.disjUnion_eq_union, Finset.union_sdiff_of_subset hsub]

section Aggregates

variable {inputs : List (Att Data CommitteeBits)} {width : ℕ}
  {subject : Data × Option CommitteeBits}

/-- The aggregate of attestations that do not overlap. -/
theorem Sound.aggregate {picked : List (Entry Data CommitteeBits)}
    (hsound : ∀ entry ∈ picked, Sound inputs width subject entry.att entry.origin)
    (hnodup : (picked.flatMap (·.origin)).Nodup)
    (hdisj : picked.Pairwise fun entry other ↦ Disjoint entry.att.votes other.att.votes)
    (hlen : att.getAggregationBits.len = width) (hsubject : att.subject = subject)
    (hsignature : att.getSignature = (picked.map (·.att.getSignature)).sum)
    (hvotes : ∀ v, v ∈ att.votes ↔ ∃ entry ∈ picked, v ∈ entry.att.votes) :
    Sound inputs width subject att (picked.flatMap (·.origin)) := by
  refine ⟨hlen, hsubject, ?_, ?_, hnodup, ?_, ?_⟩
  · have hsum := @sum_val_of_disjoint (picked.map (·.att.votes)) (pairwise_map.2 hdisj)
      att.votes fun v ↦ by simp [hvotes]
    rw [hsignature, ← hsum, map_map]
    exact congrArg sum (map_congr_left fun entry hentry ↦ (hsound entry hentry).signature)
  · intro i hi
    obtain ⟨entry, hentry, hin⟩ := mem_flatMap.1 hi
    exact (hsound entry hentry).inside i hin
  · refine pairwise_flatMap.2 ⟨fun entry hentry ↦ (hsound entry hentry).disjoint, ?_⟩
    refine hdisj.imp_of_mem fun hentry hother hdis i hi j hj ↦ ?_
    exact hdis.mono (fun v hv ↦ ((hsound _ hentry).votes v).2 ⟨i, hi, hv⟩)
      fun v hv ↦ ((hsound _ hother).votes v).2 ⟨j, hj, hv⟩
  · intro v
    rw [hvotes]
    constructor
    · rintro ⟨entry, hentry, hv⟩
      obtain ⟨i, hi, hv⟩ := ((hsound entry hentry).votes v).1 hv
      grind
    · rintro ⟨i, hi, hv⟩
      obtain ⟨entry, hentry, hin⟩ := mem_flatMap.1 hi
      exact ⟨entry, hentry, ((hsound entry hentry).votes v).2 ⟨i, hin, hv⟩⟩

end Aggregates

/-! ### The arrays -/

/-- The arrays of a list of entries, of which some are nil. -/
def arraysOf (slots : List (Option (Entry Data CommitteeBits))) : Arrays Data CommitteeBits :=
  ⟨slots.map (Option.map (·.att)), slots.map (Option.map (·.candidate))⟩

/-- Entries followed by nil entries. -/
def layout (entries : List (Entry Data CommitteeBits)) (count : ℕ) :
    List (Option (Entry Data CommitteeBits)) :=
  entries.map some ++ List.replicate count none

theorem arraysOf_swap (slots : List (Option (Entry Data CommitteeBits))) (i j : ℕ) :
    (arraysOf slots).swap i j = arraysOf (swap slots i j) := by
  rw [Arrays.swap, arraysOf, arraysOf, map_swap, map_swap]

variable {entry target : Entry Data CommitteeBits}
  {slots : List (Option (Entry Data CommitteeBits))}

theorem arraysOf_clear (hidx : idx < slots.length) :
    (arraysOf slots).clear idx = .ok (arraysOf (slots.set idx none)) := by
  rw [Arrays.clear, if_pos (by simpa [arraysOf] using hidx)]
  simp [arraysOf, map_set]

theorem foldlM_clear (hkeys : ∀ key ∈ keys, key < slots.length) :
    keys.foldlM Arrays.clear (arraysOf slots) = .ok (arraysOf (clearAll keys slots)) := by
  induction keys generalizing slots with
  | nil => rfl
  | cons key keys ih =>
    rw [foldlM_cons, arraysOf_clear (hkeys key mem_cons_self), ok_bind]
    exact ih fun other hother ↦ by
      rw [length_set]
      exact hkeys other (mem_cons_of_mem _ hother)

theorem swapOut_arraysOf (keys : List ℕ) (slots : List (Option (Entry Data CommitteeBits)))
    (last : ℕ) :
    (arraysOf slots).swapOut keys last = arraysOf (compact Option.isNone keys slots last) := by
  induction keys generalizing slots last with
  | nil => rfl
  | cons key keys ih =>
    have hskip : skipGone Option.isNone (arraysOf slots).atts key last =
        skipGone Option.isNone slots key last :=
      skipGone_map (fun slot ↦ Option.isNone_map) key last
    rw [Arrays.swapOut, compact, hskip]
    split_ifs
    · rfl
    · rw [arraysOf_swap, ih]

/-- The processed entries leave, and the front part stays. -/
theorem exists_rearrange {front items picked : List (Entry Data CommitteeBits)} {keys : List ℕ}
    (count : ℕ) (hsorted : keys.Pairwise (· < ·))
    (hpicked : keys.map (items[·]?) = picked.map some) :
    ∃ left, rearrangeProcessedAttestations (arraysOf (layout (front ++ items) count))
        (keys.map (· + front.length)) =
        .ok (arraysOf (layout (front ++ left) (count + keys.length))) ∧
      items.Perm (picked ++ left) := by
  obtain ⟨left, hleft, hperm⟩ := @compact_clearAll _ front items picked count keys hsorted hpicked
  have hshifted : (keys.map (· + front.length)).Pairwise (· ≤ ·) :=
    pairwise_map.2 (hsorted.imp fun hlt ↦ (Nat.add_lt_add_right hlt _).le)
  have hlen : (layout (front ++ items) count).length = (front ++ items).length + count := by
    rw [layout, length_append, length_map, length_replicate]
  have hinside : ∀ key ∈ keys.map (· + front.length),
      key < (layout (front ++ items) count).length := by
    intro key hkey
    obtain ⟨item, hitem, rfl⟩ := mem_map.1 hkey
    have hlt := lt_length_of_picked hpicked hitem
    rw [hlen, length_append]
    omega
  have hlast : (arraysOf (clearAll (keys.map (· + front.length))
      (layout (front ++ items) count))).atts.length - 1 = (front ++ items).length + count - 1 := by
    rw [arraysOf, length_map, length_clearAll, hlen]
  refine ⟨left, ?_, hperm⟩
  rw [rearrangeProcessedAttestations, foldlM_clear hinside, ok_bind,
    mergeSort_of_pairwise (by simpa using hshifted), swapOut_arraysOf, hlast, layout, hleft, layout]

section Aggregate

variable {front items picked : List (Entry Data CommitteeBits)} {count : ℕ} {coverage : Bitlist}
  {subject : Data × Option CommitteeBits}

theorem entryAt_arraysOf {entries : List (Entry Data CommitteeBits)} {i : ℕ}
    (hentry : entries[i]? = some entry) :
    entryAt (arraysOf (layout entries count)).atts i = .ok entry.att := by
  rw [entryAt, arraysOf, getElem?_map, layout, getElem?_layout.2 hentry]
  rfl

theorem getElem?_append_add (front items : List (Entry Data CommitteeBits)) (key : ℕ) :
    (front ++ items)[key + front.length]? = items[key]? := by
  rw [getElem?_append_right (Nat.le_add_left _ _), Nat.add_sub_cancel]

theorem mapM_getSignature {keys : List ℕ} (hpicked : keys.map (items[·]?) = picked.map some) :
    ((keys.map (· + front.length)).mapM fun idx ↦ do
      let att ← entryAt (arraysOf (layout (front ++ items) count)).atts idx
      .ok att.getSignature) = .ok (picked.map (·.att.getSignature)) := by
  induction keys generalizing picked with
  | nil =>
    obtain rfl : picked = [] := by simpa using hpicked.symm
    rfl
  | cons key keys ih =>
    cases picked with
    | nil => cases hpicked
    | cons entry picked =>
      rw [map_cons, map_cons, cons.injEq] at hpicked
      have hentry : (front ++ items)[key + front.length]? = some entry :=
        (getElem?_append_add front items key).trans hpicked.1
      rw [map_cons, mapM_cons, entryAt_arraysOf hentry, ok_bind, ok_bind, ih hpicked.2, ok_bind]
      rfl

/-- The aggregate of the picked attestations takes the place of the first of them. -/
theorem exists_aggregateAttestations [Bitfield] {key other : ℕ} {keys : List ℕ}
    (hpicked : (key :: other :: keys).map (items[·]?) = picked.map some)
    (hcoverage : coverage.count ≠ 0) (hlen : 2 ≤ (front ++ items).length)
    (hsubject : ∀ entry ∈ front ++ items, entry.att.subject = subject) :
    ∃ att : Att Data CommitteeBits,
      aggregateAttestations (arraysOf (layout (front ++ items) count)).atts
          ((key :: other :: keys).map (· + front.length)) coverage =
        .ok ((arraysOf (layout (front ++ items) count)).atts.set (key + front.length) (some att),
          key + front.length) ∧
      att.getAggregationBits = coverage ∧ att.subject = subject ∧
      att.getSignature = (picked.map (·.att.getSignature)).sum := by
  have hsigns := @mapM_getSignature _ _ front items picked count _ hpicked
  obtain ⟨first, hfirst⟩ : ∃ first, (front ++ items)[0]? = some first :=
    ⟨_, getElem?_eq_getElem (by omega)⟩
  obtain ⟨target, htgt⟩ : ∃ target, (front ++ items)[key + front.length]? = some target := by
    rw [getElem?_append_add]
    exact ⟨_, getElem?_eq_getElem (lt_length_of_picked hpicked mem_cons_self)⟩
  have htwo : ¬ (arraysOf (layout (front ++ items) count)).atts.length < 2 := by
    rw [arraysOf, length_map, layout, length_append, length_map]
    omega
  have hdata := hsubject target (mem_of_getElem? htgt)
  have hcommittee := hsubject first (mem_of_getElem? hfirst)
  simp only [map_cons] at hsigns ⊢
  simp only [aggregateAttestations, if_neg htwo, if_neg hcoverage, hsigns, ok_bind,
    entryAt_arraysOf htgt, entryAt_arraysOf hfirst]
  refine ⟨_, rfl, ?_⟩
  have htargetData : target.att.getData = subject.1 := by
    rw [← hdata]
    cases target.att <;> rfl
  cases hkind : first.att with
  | attestation bits data sig =>
    rw [hkind] at hcommittee
    exact ⟨rfl, by rw [← hcommittee, Att.subject, htargetData, ← hcommittee]; rfl, rfl⟩
  | attestationElectra bits committeeBits data sig =>
    rw [hkind] at hcommittee
    exact ⟨rfl, by rw [← hcommittee, Att.subject, htargetData, ← hcommittee]; rfl, rfl⟩

theorem arraysOf_set (htgt : slots[idx]? = some (some target))
    (hcandidate : entry.candidate = target.candidate) :
    { arraysOf slots with atts := (arraysOf slots).atts.set idx (some entry.att) } =
      arraysOf (slots.set idx (some entry)) := by
  have hcandidates : (slots.set idx (some entry)).map (Option.map (·.candidate)) =
      slots.map (Option.map (·.candidate)) := by
    refine ext_getElem? fun i ↦ ?_
    grind
  rw [arraysOf, arraysOf, hcandidates, map_set]
  rfl

/-- The aggregate, put in place of the first picked entry, moves behind the front part. -/
theorem arraysOf_place (head entry : Entry Data CommitteeBits)
    (tail : List (Entry Data CommitteeBits)) (hkey : key < tail.length + 1) :
    (if front.length < key + front.length then
        (arraysOf ((layout (front ++ head :: tail) count).set (key + front.length)
          (some entry))).swap front.length (key + front.length)
      else arraysOf ((layout (front ++ head :: tail) count).set (key + front.length)
        (some entry))) =
      arraysOf (layout (front ++ entry :: ((head :: tail).set key head).tail) count) := by
  have hswap := swap_set_layout front head entry tail count hkey
  rw [← layout, ← layout] at hswap
  rw [← hswap, arraysOf_swap]
  split_ifs with hlt
  · rfl
  · rw [show key + front.length = front.length by omega, swap_self]

end Aggregate

/-! ### The rounds -/

/-- Where the aggregation stands: the aggregates that are done, the open entries and the number of
nil entries. -/
structure Progress (inputs : List (Att Data CommitteeBits)) (width : ℕ)
    (subject : Data × Option CommitteeBits) (state : Aggregating Data CommitteeBits)
    (done items : List (Entry Data CommitteeBits)) (count : ℕ) : Prop where
  arrays : state.arrays = arraysOf (layout (done ++ items) count)
  aggregated : state.aggregated = done.length
  start : state.unaggregatedStart = done.length
  unaggregated : state.unaggregated = items.length
  sound : ∀ entry ∈ done ++ items, Sound inputs width subject entry.att entry.origin
  fresh : ∀ entry ∈ items, entry.candidate = entry.att.getAggregationBits
  nodup : ((done ++ items).flatMap (·.origin)).Nodup
  lenCovered : state.coveredBitsSoFar.len = width
  covered : ∀ v, v ∈ state.coveredBitsSoFar.bitSet ↔ ∃ entry ∈ done, v ∈ entry.att.votes
  kept : ∀ v, (∃ entry ∈ done ++ items, v ∈ entry.att.votes) ↔ ∃ att ∈ inputs, v ∈ att.votes

section Rounds

variable {inputs : List (Att Data CommitteeBits)} {width : ℕ}
  {subject : Data × Option CommitteeBits} {state : Aggregating Data CommitteeBits}
  {done items picked left : List (Entry Data CommitteeBits)} {count : ℕ}

variable (hprog : Progress inputs width subject state done items count)
include hprog

theorem Progress.roundCandidates :
    (state.arrays.candidates.drop state.aggregated).take state.unaggregated =
      (items.map (·.candidate)).map some := by
  rw [hprog.arrays, hprog.aggregated, hprog.unaggregated, arraysOf, layout]
  simp

/-- What `MaxCover` selects among the open entries. -/
theorem Progress.exists_selection [Bitfield] (hwidth : 0 < width) (hne : items ≠ []) :
    ∃ sel coverage, ∃ picked : List (Entry Data CommitteeBits),
      maxCover ((items.map (·.candidate)).map some) false items.length = .ok (sel, coverage) ∧
      sel.bitIndices.map (items[·]?) = picked.map some ∧ coverage.len = width ∧
      picked.Pairwise (fun entry other ↦ Disjoint entry.att.votes other.att.votes) ∧
      (∀ v, v ∈ coverage.bitSet ↔ ∃ entry ∈ picked, v ∈ entry.att.votes) ∧
      (picked ≠ [] → coverage.count ≠ 0) := by
  have hlen : ∀ b ∈ items.map (·.candidate), b.len = width := by
    intro b hb
    obtain ⟨entry, hentry, rfl⟩ := mem_map.1 hb
    rw [hprog.fresh entry hentry]
    exact (hprog.sound entry (mem_append_right _ hentry)).len
  obtain ⟨sel, coverage, hcover, hcovers⟩ :=
    exists_maxCover (by simpa using hne) hwidth hlen items.length
  have hinside : ∀ key ∈ sel.bitIndices, key < items.length := fun key hkey ↦ by
    have hlt := sel.lt_len key (mem_bitIndices.1 hkey)
    rwa [hcovers.lenSelected, length_map] at hlt
  obtain ⟨picked, hpicked⟩ := exists_picked hinside
  have hset (key : ℕ) : setAt (items.map (·.candidate)) key =
      (items[key]?.map (·.att.votes)).getD ∅ := by
    rw [setAt, getElem?_map]
    cases hitem : items[key]? with
    | none => rfl
    | some entry =>
      exact congrArg Bitlist.bitSet (hprog.fresh entry (mem_of_getElem? hitem))
  have hsets : sel.bitIndices.map (setAt (items.map (·.candidate))) =
      picked.map (·.att.votes) := by
    calc
      sel.bitIndices.map (setAt (items.map (·.candidate))) =
          (sel.bitIndices.map (items[·]?)).map fun item ↦
            (item.map (·.att.votes)).getD ∅ := by
        rw [map_map]
        exact map_congr_left fun key _ ↦ hset key
      _ = picked.map (·.att.votes) := by
        rw [hpicked, map_map]
        rfl
  have hmem (v : ℕ) : (∃ entry ∈ picked, v ∈ entry.att.votes) ↔
      ∃ key ∈ sel.bitSet, v ∈ setAt (items.map (·.candidate)) key := by
    have hleft : (∃ entry ∈ picked, v ∈ entry.att.votes) ↔
        ∃ t ∈ picked.map (·.att.votes), v ∈ t := by simp
    rw [hleft, ← hsets]
    simp [mem_bitIndices]
  refine ⟨sel, coverage, picked, hcover, hpicked, hcovers.lenCovered, ?_, fun v ↦ ?_, ?_⟩
  · refine pairwise_map.1 (hsets ▸ pairwise_map.2 ?_)
    refine (sorted_bitIndices sel).imp_of_mem fun hkey hother hlt ↦ ?_
    exact hcovers.disjoint (mem_bitIndices.1 hkey) (mem_bitIndices.1 hother) hlt.ne
  · rw [hcovers.union, Finset.mem_biUnion, hmem]
  · intro hsome hzero
    rw [count_eq, Finset.card_eq_zero, hcovers.union] at hzero
    obtain ⟨key, hkey⟩ : ∃ key, key ∈ sel.bitIndices := by
      refine exists_mem_of_ne_nil _ fun hnil ↦ hsome ?_
      rw [hnil] at hpicked
      simpa using hpicked.symm
    rw [mem_bitIndices] at hkey
    obtain ⟨v, hv⟩ := hcovers.nonempty key hkey
    exact Finset.notMem_empty v (hzero ▸ Finset.mem_biUnion.2 ⟨key, hkey, hv⟩)

theorem Progress.nodup_perm (hitems : items.Perm (picked ++ left)) :
    (done.flatMap (·.origin) ++ (picked.flatMap (·.origin) ++ left.flatMap (·.origin))).Nodup := by
  have hflat : (items.flatMap (·.origin)).Perm ((picked ++ left).flatMap (·.origin)) :=
    hitems.flatMap_right _
  have hnodup := hprog.nodup
  grind

variable {next : Aggregating Data CommitteeBits} {count' : ℕ}

/-- The picked entries leave the open ones, and those that are done get their votes. -/
theorem Progress.advance {done' : List (Entry Data CommitteeBits)}
    (hitems : items.Perm (picked ++ left))
    (hsound : ∀ entry ∈ done', Sound inputs width subject entry.att entry.origin)
    (horigin : (done'.flatMap (·.origin)).Sublist
      (done.flatMap (·.origin) ++ picked.flatMap (·.origin)))
    (hvotes : ∀ v, (∃ entry ∈ done', v ∈ entry.att.votes) ↔
      v ∈ state.coveredBitsSoFar.bitSet ∨ ∃ entry ∈ picked, v ∈ entry.att.votes)
    (harrays : next.arrays = arraysOf (layout (done' ++ left) count'))
    (haggregated : next.aggregated = done'.length) (hstart : next.unaggregatedStart = done'.length)
    (hunaggregated : next.unaggregated = left.length) (hlen : next.coveredBitsSoFar.len = width)
    (hcov : ∀ v, v ∈ next.coveredBitsSoFar.bitSet ↔ ∃ entry ∈ done', v ∈ entry.att.votes) :
    Progress inputs width subject next done' left count' := by
  have hopen (other : Entry Data CommitteeBits) (hother : other ∈ left) : other ∈ items :=
    hitems.mem_iff.2 (mem_append_right _ hother)
  refine ⟨harrays, haggregated, hstart, hunaggregated, fun entry hentry ↦ ?_, fun other hother ↦
    hprog.fresh other (hopen other hother), ?_, hlen, hcov, fun v ↦ ?_⟩
  · rcases mem_append.1 hentry with hdone | hleft
    · exact hsound entry hdone
    · exact hprog.sound entry (mem_append_right _ (hopen entry hleft))
  · have hnodup := hprog.nodup_perm hitems
    rw [← append_assoc] at hnodup
    rw [flatMap_append]
    exact hnodup.sublist (horigin.append_right _)
  · rw [← hprog.kept v]
    simp only [mem_append, or_and_right, exists_or, hvotes, hprog.covered, hitems.mem_iff, or_assoc]

variable {coverage : Bitlist} [Bitfield]

/-- What the rest of a round does with the selected positions: it returns, and the aggregation goes
on. -/
def Finishes (inputs : List (Att Data CommitteeBits)) (width : ℕ)
    (subject : Data × Option CommitteeBits) (state : Aggregating Data CommitteeBits)
    (keys : List ℕ) (coverage : Bitlist) : Prop :=
  ∃ placed rest arrays,
    placeAggregate state (padSelectedKeys keys state.aggregated) coverage = .ok (placed, rest) ∧
    rearrangeProcessedAttestations placed.arrays rest = .ok arrays ∧
    ∃ done items count, Progress inputs width subject
      { placed with arrays, unaggregated := placed.unaggregated - rest.length } done items count

/-- The rest of a round when the selected attestations add nothing. -/
theorem Progress.exists_drop (hsorted : keys.Pairwise (· < ·))
    (hpicked : keys.map (items[·]?) = picked.map some)
    (hvotes : ∀ v, (∃ entry ∈ picked, v ∈ entry.att.votes) → v ∈ state.coveredBitsSoFar.bitSet)
    (hxc : state.coveredBitsSoFar.xorCount coverage = .ok 0) :
    Finishes inputs width subject state keys coverage := by
  obtain ⟨left, hleft, hitems⟩ := @exists_rearrange _ _ done items picked keys count hsorted hpicked
  rw [← hprog.arrays] at hleft
  have hlen := hitems.length_eq
  have hpickedLength : keys.length = picked.length := by
    simpa using congrArg length hpicked
  refine ⟨state, padSelectedKeys keys state.aggregated,
    arraysOf (layout (done ++ left) (count + keys.length)), ?_, ?_, done, left, _,
    hprog.advance hitems (fun entry hentry ↦ hprog.sound entry (mem_append_left _ hentry))
      (sublist_append_left _ _) (fun v ↦ ?_) rfl hprog.aggregated hprog.start ?_
      hprog.lenCovered hprog.covered⟩
  · rw [placeAggregate, hxc, ok_bind]
    rfl
  · rw [padSelectedKeys, hprog.aggregated]
    exact hleft
  · rw [← hprog.covered, or_iff_left_of_imp (hvotes v)]
  · rw [hprog.unaggregated, padSelectedKeys, length_map]
    grind

variable {other xc : ℕ}

/-- The aggregate of the selected attestations is put behind the others, and the first open entry
takes the place of the first selected one. -/
theorem Progress.exists_place
    (hpicked : (key :: other :: keys).map (items[·]?) = (target :: picked).map some)
    (hmany : 2 ≤ items.length) (hlen : coverage.len = width) (hcoverage : coverage.count ≠ 0)
    (hpos : xc > 0) (hxc : state.coveredBitsSoFar.xorCount coverage = .ok xc) :
    ∃ (entry : Entry Data CommitteeBits) (moved : List (Entry Data CommitteeBits))
        (covered : Bitlist),
      placeAggregate state (padSelectedKeys (key :: other :: keys) state.aggregated) coverage =
        .ok (⟨arraysOf (layout ((done ++ [entry]) ++ moved) count), covered, done.length + 1,
          done.length + 1, items.length - 1⟩, (other :: keys).map (· + done.length)) ∧
      (entry.att.getAggregationBits = coverage ∧ entry.att.subject = subject ∧
        entry.att.getSignature = ((target :: picked).map (·.att.getSignature)).sum ∧
        entry.origin = (target :: picked).flatMap (·.origin)) ∧
      (covered.len = width ∧
        covered.bitSet = coverage.bitSet ∪ state.coveredBitsSoFar.bitSet) ∧
      items.Perm (target :: moved) ∧
      ∀ pos, key < pos → moved[pos - 1]? = items[pos]? := by
  have hkey : key < items.length := lt_length_of_picked hpicked mem_cons_self
  have htgt : items[key]? = some target := (cons.inj hpicked).1
  obtain ⟨head, tail, rfl⟩ := exists_cons_of_length_pos (show 0 < items.length by omega)
  obtain ⟨att, hatt, hbits, hsubject, hsignature⟩ :=
    @exists_aggregateAttestations _ _ done (head :: tail) (target :: picked) count coverage subject
      _ key other keys hpicked hcoverage (by rw [length_append]; omega) fun entry hentry ↦
        (hprog.sound entry hentry).subject
  obtain ⟨covered, hor, hcoveredLen, hcov⟩ := Bitfield.exists_or (hlen.trans hprog.lenCovered.symm)
  obtain ⟨entry, rfl, hcandidate, horigin⟩ : ∃ entry : Entry Data CommitteeBits, entry.att = att ∧
      entry.candidate = target.candidate ∧
      entry.origin = (target :: picked).flatMap (·.origin) := ⟨⟨att, _, _⟩, rfl, rfl, rfl⟩
  have hslot : (layout (done ++ head :: tail) count)[key + done.length]? = some (some target) :=
    getElem?_layout.2 ((getElem?_append_add done (head :: tail) key).trans htgt)
  refine ⟨entry, ((head :: tail).set key head).tail, covered, ?_,
    ⟨hbits, hsubject, hsignature, horigin⟩, ⟨hcoveredLen.trans hlen, hcov⟩,
    perm_set_tail htgt, fun pos hposition ↦ ?_⟩
  · rw [placeAggregate, hxc, ok_bind, if_pos hpos, padSelectedKeys, hprog.aggregated,
      hprog.start, hprog.unaggregated, hprog.arrays, hatt, ok_bind]
    dsimp only
    rw [hor, ok_bind, arraysOf_set hslot hcandidate, arraysOf_place head entry tail hkey,
      append_assoc, singleton_append]
    rfl
  · grind

/-- The rest of a round when the selected attestations are aggregated. -/
theorem Progress.exists_aggregate (hsorted : (key :: other :: keys).Pairwise (· < ·))
    (hpicked : (key :: other :: keys).map (items[·]?) = picked.map some) (hmany : 2 ≤ items.length)
    (hlen : coverage.len = width)
    (hdisj : picked.Pairwise fun entry other ↦ Disjoint entry.att.votes other.att.votes)
    (hvotes : ∀ v, v ∈ coverage.bitSet ↔ ∃ entry ∈ picked, v ∈ entry.att.votes)
    (hcoverage : coverage.count ≠ 0) (hpos : xc > 0)
    (hxc : state.coveredBitsSoFar.xorCount coverage = .ok xc) :
    Finishes inputs width subject state (key :: other :: keys) coverage := by
  cases picked with
  | nil => cases hpicked
  | cons target picked =>
    obtain ⟨entry, moved, covered, hplaced, ⟨hbits, hsubject, hsignature, horigin⟩, hcov, hperm,
      hmoved⟩ := hprog.exists_place hpicked hmany hlen hcoverage hpos hxc
    -- The positions of the other selected entries, counted from behind the aggregate.
    have hlater : ∀ position ∈ other :: keys, key < position := (pairwise_cons.1 hsorted).1
    have hback : ((other :: keys).map (· - 1)).map (· + (done ++ [entry]).length) =
        (other :: keys).map (· + done.length) := by
      rw [map_map, length_append, length_singleton]
      refine map_congr_left fun position hposition ↦ ?_
      grind
    have hbackSorted : ((other :: keys).map (· - 1)).Pairwise (· < ·) := by
      refine pairwise_map.2 ((pairwise_cons.1 hsorted).2.imp_of_mem ?_)
      intro position position' hposition _ hlt
      grind
    have hbackPicked : ((other :: keys).map (· - 1)).map (moved[·]?) = picked.map some := by
      rw [map_map, ← (cons.inj hpicked).2]
      exact map_congr_left fun position hposition ↦ hmoved position (hlater position hposition)
    obtain ⟨left, hleft, hitems⟩ := @exists_rearrange _ _ (done ++ [entry]) moved picked
      ((other :: keys).map (· - 1)) count hbackSorted hbackPicked
    rw [hback] at hleft
    have hall : items.Perm (target :: picked ++ left) := hperm.trans (hitems.cons target)
    have hentryVotes : entry.att.votes = coverage.bitSet := congrArg Bitlist.bitSet hbits
    have hsound : Sound inputs width subject entry.att entry.origin := by
      rw [horigin]
      refine Sound.aggregate (fun member hmem ↦ ?_) ?_ hdisj (hbits ▸ hlen) hsubject
        hsignature fun v ↦ hentryVotes ▸ hvotes v
      · exact hprog.sound member (mem_append_right _ (hall.mem_iff.2 (mem_append_left _ hmem)))
      · exact (hprog.nodup_perm hall).sublist
          ((sublist_append_left _ _).trans (sublist_append_right _ _))
    have hdone (v : ℕ) : (∃ other ∈ done ++ [entry], v ∈ other.att.votes) ↔
        v ∈ state.coveredBitsSoFar.bitSet ∨ v ∈ coverage.bitSet := by
      rw [hprog.covered, ← hentryVotes]
      simp
    refine ⟨_, _, _, hplaced, hleft, done ++ [entry], left, _, hprog.advance hall ?_
      (by simp [horigin]) (fun v ↦ (hdone v).trans (or_congr_right (hvotes v))) rfl (by simp)
      (by simp) ?_ hcov.1 fun v ↦ ?_⟩
    · simp only [mem_append, mem_singleton]
      rintro other (hother | rfl)
      · exact hprog.sound other (mem_append_left _ hother)
      · exact hsound
    · have hlengths := hall.length_eq
      have hkeys := congrArg length hpicked
      grind
    · rw [hdone, hcov.2, Finset.mem_union, or_comm]

theorem Progress.round (hwidth : 0 < width) :
    ∃ next stop, aggregateRound state = .ok (next, stop) ∧
      ∃ done' items' count', Progress inputs width subject next done' items' count' := by
  unfold aggregateRound
  by_cases hfew : state.unaggregated < 2
  · rw [if_pos hfew]
    grind
  have hmany : 2 ≤ items.length := by
    rw [← hprog.unaggregated]
    omega
  obtain ⟨sel, coverage, picked, hcover, hpicked, hlen, hdisj, hvotes, hcount⟩ :=
    hprog.exists_selection hwidth (ne_nil_of_length_pos (by omega))
  dsimp only
  rw [hprog.roundCandidates, length_map, length_map, hcover, ok_bind]
  split_ifs with hsingle
  · grind
  have hxc := xorCount_eq (hprog.lenCovered.trans hlen.symm)
  have hrest : Finishes inputs width subject state sel.bitIndices coverage := by
    have hsorted := sorted_bitIndices sel
    have hlength := Bitlist.length_bitIndices sel
    rcases Nat.eq_zero_or_pos (symmDiff state.coveredBitsSoFar.bitSet coverage.bitSet).card
      with hzero | hpos
    · have hsame := symmDiff_eq_bot.1 (Finset.card_eq_zero.1 hzero)
      exact hprog.exists_drop hsorted hpicked (fun v hv ↦ hsame ▸ (hvotes v).2 hv) (hzero ▸ hxc)
    · match hkeys : sel.bitIndices with
      | [] =>
        grind
      | [_] =>
        grind
      | key :: other :: keys =>
        rw [hkeys] at hsorted hpicked
        refine hprog.exists_aggregate hsorted hpicked hmany hlen hdisj hvotes (hcount ?_) hpos hxc
        rintro rfl
        cases hpicked
  obtain ⟨placed, rest, arrays, hplaced, harrays, hnext⟩ := hrest
  refine ⟨_, false, ?_, hnext⟩
  rw [hplaced, ok_bind]
  rw [harrays, ok_bind]

theorem Progress.exists_loop (hwidth : 0 < width) (rounds : ℕ) :
    ∃ last, loop (fun state _ ↦ aggregateRound state) (range rounds) state = .ok last ∧
      ∃ done' items' count', Progress inputs width subject last done' items' count' := by
  refine exists_loop_post
    (fun _ state ↦ ∃ done items count, Progress inputs width subject state done items count)
    (fun state ↦ ∃ done items count, Progress inputs width subject state done items count)
    ⟨done, items, count, hprog⟩ ?_ fun _ ↦ id
  rintro _ _ state ⟨done, items, count, hprog⟩
  obtain ⟨next, stop, hnext, hkept⟩ := hprog.round hwidth
  grind

end Rounds

/-! ### The start and the end -/

/-- The entries of the input, each made of itself. -/
def entriesOf (inputs : List (Att Data CommitteeBits)) : List (Entry Data CommitteeBits) :=
  inputs.zipIdx.map fun input ↦ ⟨input.1, input.1.getAggregationBits, [input.2]⟩

theorem mem_entriesOf {inputs : List (Att Data CommitteeBits)} :
    entry ∈ entriesOf inputs ↔ ∃ i att, inputs[i]? = some att ∧
      entry = ⟨att, att.getAggregationBits, [i]⟩ := by
  simp only [entriesOf, mem_map, Prod.exists, mem_zipIdx_iff_getElem?]
  grind

theorem mapM_deref (al : List (Att Data CommitteeBits)) :
    (al.map some).mapM deref = (.ok al : Except Fault _) := by
  induction al with
  | nil => rfl
  | cons att al ih =>
    rw [map_cons, mapM_cons, ih]
    rfl

section Result

variable [Bitfield] {inputs : List (Att Data CommitteeBits)} {width : ℕ}
  {subject : Data × Option CommitteeBits}

/-- The variables before the first round. -/
def startOf (inputs : List (Att Data CommitteeBits)) (width : ℕ) : Aggregating Data CommitteeBits :=
  ⟨⟨inputs.map some, inputs.map fun att ↦ some att.getAggregationBits⟩, Bitlist.ofLen width, 0, 0,
    inputs.length⟩

theorem progress_start (hlen : ∀ att ∈ inputs, att.getAggregationBits.len = width)
    (hsubject : ∀ att ∈ inputs, att.subject = subject)
    (hsignature : ∀ att ∈ inputs, att.getSignature = att.votes.val) :
    Progress inputs width subject (startOf inputs width) [] (entriesOf inputs) 0 := by
  have hatts : (entriesOf inputs).map (·.att) = inputs := by
    rw [entriesOf, map_map]
    exact zipIdx_map_fst 0 inputs
  have hcandidates : (entriesOf inputs).map (·.candidate) = inputs.map getAggregationBits := by
    calc
      (entriesOf inputs).map (·.candidate) =
          (entriesOf inputs).map (getAggregationBits ∘ (·.att)) := by
        refine map_congr_left fun entry hentry ↦ ?_
        obtain ⟨i, att, -, rfl⟩ := mem_entriesOf.1 hentry
        rfl
      _ = inputs.map getAggregationBits := by rw [← map_map, hatts]
  have horigins : (entriesOf inputs).flatMap (·.origin) = range' 0 inputs.length := by
    rw [entriesOf, flatMap_map, ← zipIdx_map_snd 0 inputs]
    exact (map_eq_flatMap).symm
  unfold startOf
  refine ⟨?_, rfl, rfl, ?_, ?_, ?_, ?_, len_ofLen width, ?_, ?_⟩
  · have hfirst : (entriesOf inputs).map (Option.map (·.att) ∘ some) = inputs.map some := by
      conv_rhs => rw [← hatts, map_map]
      rfl
    have hsnd : (entriesOf inputs).map (Option.map (·.candidate) ∘ some) =
        inputs.map fun att ↦ some att.getAggregationBits := by
      have hsome := congrArg (map some) hcandidates
      rwa [map_map, map_map] at hsome
    rw [nil_append, layout, replicate_zero, append_nil, arraysOf, map_map, map_map, hfirst, hsnd]
  · simp [entriesOf]
  · intro entry hentry
    obtain ⟨i, att, hatt, rfl⟩ := mem_entriesOf.1 hentry
    have hmem := mem_of_getElem? hatt
    refine ⟨hlen att hmem, hsubject att hmem, hsignature att hmem, ?_, nodup_singleton i,
      pairwise_singleton _ i, fun v ↦ ?_⟩
    · simpa using (List.getElem?_eq_some_iff.1 hatt).1
    · simp [votesAt, hatt]
  · intro entry hentry
    obtain ⟨i, att, hatt, rfl⟩ := mem_entriesOf.1 hentry
    rfl
  · grind
  · simp
  · grind

/-- What the filter has kept of the attestations `done`: no vote is lost. -/
structure Filtered (done filtered : List (Att Data CommitteeBits)) : Prop where
  ne_nil : filtered ≠ []
  sub : ∀ att ∈ filtered, att ∈ done
  contained : ∀ att ∈ done, ∃ other ∈ filtered, att.votes ⊆ other.votes

theorem Filtered.round {done filtered : List (Att Data CommitteeBits)}
    (hfiltered : Filtered done filtered)
    (hlen : ∀ other ∈ done ++ [att], other.getAggregationBits.len = width) :
    ∃ next, (do
      let last ← deref filtered.getLast?
      let c ← last.getAggregationBits.contains att.getAggregationBits
      if c then .ok filtered else .ok (filtered ++ [att]) : Except Fault _) = .ok next ∧
      Filtered (done ++ [att]) next := by
  have hlast := getLast?_eq_some_getLast hfiltered.ne_nil
  have hkept := getLast_mem hfiltered.ne_nil
  generalize filtered.getLast _ = last at hlast hkept
  have hdone : last ∈ done := hfiltered.sub last hkept
  have hlens : last.getAggregationBits.len = att.getAggregationBits.len :=
    (hlen last (mem_append_left _ hdone)).trans (hlen att (by simp)).symm
  rw [hlast, deref, ok_bind, contains_eq hlens, ok_bind]
  split_ifs with hin
  · have hsub : att.votes ⊆ last.votes := of_decide_eq_true hin
    refine ⟨filtered, rfl, hfiltered.ne_nil, fun other hother ↦ ?_, fun seen hseen ↦ ?_⟩
    · exact mem_append_left _ (hfiltered.sub other hother)
    · rcases mem_append.1 hseen with hold | hnew
      · exact hfiltered.contained seen hold
      · exact ⟨last, hkept, mem_singleton.1 hnew ▸ hsub⟩
  · refine ⟨filtered ++ [att], rfl, by simp, fun other hother ↦ ?_, fun seen hseen ↦ ?_⟩
    · rw [mem_append] at hother ⊢
      exact hother.imp_left (hfiltered.sub other)
    · rcases mem_append.1 hseen with hold | hnew
      · obtain ⟨other, hother, hsub⟩ := hfiltered.contained seen hold
        exact ⟨other, mem_append_left _ hother, hsub⟩
      · exact ⟨seen, mem_append_right _ hnew, Finset.Subset.refl _⟩

theorem exists_filterContained (sorting : SortByCount Data CommitteeBits)
    {al : List (Att Data CommitteeBits)} (hlen : ∀ att ∈ al, att.getAggregationBits.len = width) :
    ∃ kept : List (Att Data CommitteeBits),
      filterContained sorting (al.map some) = .ok (kept.map some) ∧ (∀ att ∈ kept, att ∈ al) ∧
      ∀ att ∈ al, ∃ other ∈ kept, att.votes ⊆ other.votes := by
  unfold filterContained
  split_ifs
  · exact ⟨al, rfl, fun _ ↦ id, fun att hatt ↦ ⟨att, hatt, Finset.Subset.refl _⟩⟩
  have hperm := sorting.perm al
  rw [mapM_deref, ok_bind]
  cases hsort : sorting.sort al with
  | nil =>
    obtain rfl : al = [] := (hsort ▸ hperm).nil_eq.symm
    exact ⟨[], rfl, by simp, by simp⟩
  | cons first rest =>
    rw [hsort] at hperm
    have hfirst : Filtered [first] [first] :=
      ⟨by simp, fun _ ↦ id, fun att hatt ↦ ⟨att, hatt, Finset.Subset.refl _⟩⟩
    obtain ⟨kept, hrun, hkept⟩ := exists_foldlM_eq_ok _ rest [first]
      (fun done filtered ↦ Filtered ([first] ++ done) filtered) hfirst
      fun done att rest' filtered hsplit hfiltered ↦ by
        exact hfiltered.round fun other hother ↦ hlen other (hperm.mem_iff.1 (by grind))
    refine ⟨kept, ?_, fun att hatt ↦ hperm.mem_iff.1 (hkept.sub att hatt),
      fun att hatt ↦ hkept.contained att (hperm.mem_iff.2 hatt)⟩
    dsimp only
    rw [hrun, ok_bind]

omit [Bitfield] in
theorem validate_eq_ok (hwidth : 0 < width)
    (hlen : ∀ att ∈ inputs, att.getAggregationBits.len = width) : validate inputs = .ok ⟨⟩ := by
  refine if_neg fun hany ↦ ?_
  grind

/-- Aggregation is sound and loses no vote: every result is the aggregate of distinct input
attestations with disjoint bits, and together the results have the votes of the input. -/
theorem maxCoverAttestationAggregation_sound (sorting : SortByCount Data CommitteeBits)
    (atts : List (Att Data CommitteeBits)) (htwo : 2 ≤ atts.length) (hwidth : 0 < width)
    (hlen : ∀ att ∈ atts, att.getAggregationBits.len = width)
    (hsubject : ∀ att ∈ atts, att.subject = subject)
    (hsignature : ∀ att ∈ atts, att.getSignature = att.votes.val) :
    ∃ results : List (Att Data CommitteeBits),
      maxCoverAttestationAggregation sorting atts = .ok (results.map some) ∧
      (∀ att ∈ results, ∃ origin, Sound atts width subject att origin) ∧
      ∀ v, (∃ att ∈ results, v ∈ att.votes) ↔ ∃ att ∈ atts, v ∈ att.votes := by
  obtain ⟨state, hst, done, items, count, hprog⟩ :=
    (progress_start hlen hsubject hsignature).exists_loop hwidth (atts.length / 2)
  have hopen : (state.arrays.atts.drop state.unaggregatedStart).take state.unaggregated =
      (items.map (·.att)).map some := by
    rw [hprog.arrays, hprog.start, hprog.unaggregated, arraysOf, layout]
    simp
  have hdone : state.arrays.atts.take state.aggregated = (done.map (·.att)).map some := by
    rw [hprog.arrays, hprog.aggregated, arraysOf, layout]
    simp
  obtain ⟨kept, hkept, hsub, hcontained⟩ := exists_filterContained sorting
    (fun att (hatt : att ∈ items.map (·.att)) ↦ by
      obtain ⟨entry, hentry, rfl⟩ := mem_map.1 hatt
      exact (hprog.sound entry (mem_append_right _ hentry)).len)
  have hmem (att : Att Data CommitteeBits) (hatt : att ∈ done.map (·.att) ++ kept) :
      ∃ entry ∈ done ++ items, entry.att = att := by
    grind
  refine ⟨done.map (·.att) ++ kept, ?_, fun att hatt ↦ ?_, fun v ↦ ?_⟩
  · match atts, htwo with
    | first :: second :: rest, _ =>
      rw [maxCoverAttestationAggregation, validate_eq_ok hwidth hlen, ok_bind,
        hlen first mem_cons_self, ← startOf, hst, ok_bind, hopen, hkept, ok_bind, hdone, map_append]
  · obtain ⟨entry, hentry, rfl⟩ := hmem att hatt
    exact ⟨entry.origin, hprog.sound entry hentry⟩
  · rw [← hprog.kept]
    grind

end Result

/-- A sorting by descending bit count. -/
def mergeSortByCount [Bitfield] : SortByCount Data CommitteeBits where
  sort al := al.mergeSort fun att other ↦
    other.getAggregationBits.count ≤ att.getAggregationBits.count
  perm al := mergeSort_perm al _
  sorted al := by
    refine (pairwise_mergeSort ?_ ?_ al).imp of_decide_eq_true
    · intro att other third hfirst hsecond
      exact decide_eq_true ((of_decide_eq_true hsecond).trans (of_decide_eq_true hfirst))
    · intro att other
      simpa using Nat.le_total _ _

/-- The bit list of a length with the set bits at the given positions. -/
def Bitlist.ofSet (len : ℕ) (positions : Finset ℕ) : Bitlist where
  len := len
  bitSet := positions.filter (· < len)
  lt_len _ hi := (Finset.mem_filter.1 hi).2

theorem Bitlist.bitSet_ofSet {len : ℕ} {positions : Finset ℕ} (hlt : ∀ i ∈ positions, i < len) :
    (ofSet len positions).bitSet = positions :=
  Finset.filter_true_of_mem hlt

/-- What an operation on two bit lists returns. -/
def Bitlist.sameLen {α : Type} (b c : Bitlist) (value : α) : Except Fault α :=
  if b.len = c.len then .ok value
  else .error (.error (.errorf "bitlists are different lengths" []))

instance : Bitfield where
  ofLen n := .ofSet n ∅
  count b := b.bitSet.card
  bitIndices b := (range b.len).filter (· ∈ b.bitSet)
  setBitAt b idx val := .ofSet b.len (if val then insert idx b.bitSet else b.bitSet.erase idx)
  not b := .ofSet b.len (Finset.range b.len \ b.bitSet)
  or b c := b.sameLen c (.ofSet b.len (b.bitSet ∪ c.bitSet))
  and b c := b.sameLen c (.ofSet b.len (b.bitSet ∩ c.bitSet))
  andCount b c := b.sameLen c (b.bitSet ∩ c.bitSet).card
  xorCount b c := b.sameLen c (symmDiff b.bitSet c.bitSet).card
  overlaps b c := b.sameLen c (decide (¬ Disjoint b.bitSet c.bitSet))
  contains b c := b.sameLen c (decide (c.bitSet ⊆ b.bitSet))
  len_ofLen _ := rfl
  bitSet_ofLen _ := rfl
  count_eq _ := rfl
  mem_bitIndices {b i} := by simpa using b.lt_len i
  sorted_bitIndices _ := pairwise_lt_range.filter _
  len_setBitAt _ _ _ := rfl
  bitSet_setBitAt {b idx} hidx := Bitlist.bitSet_ofSet (by simpa [hidx] using b.lt_len)
  len_not _ := rfl
  exists_or {b c} hlen := ⟨_, if_pos hlen, rfl, Bitlist.bitSet_ofSet fun i hi ↦
    (Finset.mem_union.1 hi).elim (b.lt_len i) (hlen ▸ c.lt_len i)⟩
  exists_and {b c} hlen := ⟨_, if_pos hlen, rfl, Bitlist.bitSet_ofSet fun i hi ↦
    b.lt_len i (Finset.mem_inter.1 hi).1⟩
  andCount_eq hlen := if_pos hlen
  xorCount_eq hlen := if_pos hlen
  overlaps_eq hlen := if_pos hlen
  contains_eq hlen := if_pos hlen

/-- Four attestations of which the second overlaps the first. -/
def overlapping : List (Att ℕ ℕ) :=
  [.attestation (.ofSet 4 {0, 3}) 7 {0, 3}, .attestation (.ofSet 4 {0, 1}) 7 {0, 1},
    .attestation (.ofSet 4 {2}) 7 {2}, .attestation (.ofSet 4 {1}) 7 {1}]

theorem maxCoverAttestationAggregation_sound_overlapping :
    ∃ results : List (Att ℕ ℕ),
      maxCoverAttestationAggregation mergeSortByCount overlapping = .ok (results.map some) ∧
      (∀ att ∈ results, ∃ origin, Sound overlapping 4 (7, none) att origin) ∧
      ∀ v, (∃ att ∈ results, v ∈ att.votes) ↔ ∃ att ∈ overlapping, v ∈ att.votes :=
  maxCoverAttestationAggregation_sound mergeSortByCount overlapping (by decide) (by decide)
    (by decide) (by decide) (by decide)

end Prysm.Aggregation

