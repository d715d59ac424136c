import Prysm.Aggregation.Bitlist
import Prysm.Library.Loop
import Prysm.Library.Run

/-!
# Greedy coverage

`MaxCover` of `attestation/aggregation/maxcover.go`.  From a list of candidate sets it selects one
after the other the candidate that adds the most uncovered elements, among those that do not overlap
with what is covered.  The function keeps the candidates that may still be selected and those that
are as bit lists over the positions of the candidates.
-/

namespace Prysm.Aggregation

open List Prysm.Library Bitfield

def errInvalidMaxCoverProblem : Error := .errorf "invalid max_cover problem" []

/-- The entry at a position, which is there and not nil. -/
def entryAt {α : Type*} (entries : List (Option α)) (idx : ℕ) : Except Fault α :=
  deref (entries[idx]?).join

variable {bits : List Bitlist} {width idx : ℕ} {covered : Bitlist}

theorem entryAt_map_some {α : Type*} {entries : List α} {entry : α}
    (hentry : entries[idx]? = some entry) : entryAt (entries.map some) idx = .ok entry := by
  rw [entryAt, getElem?_map, hentry]
  rfl

/-- The set of the candidate at a position. -/
def setAt (bits : List Bitlist) (idx : ℕ) : Finset ℕ := (bits[idx]?.map Bitlist.bitSet).getD ∅

theorem setAt_of_getElem? {candidate : Bitlist} (hidx : bits[idx]? = some candidate) :
    setAt bits idx = candidate.bitSet := by
  rw [setAt, hidx]
  rfl

variable [Bitfield]

/-- `union`, which is nil for no candidates or an empty bit list. -/
def union (candidates : List (Option Bitlist)) : Except Fault (Option Bitlist) :=
  if candidates.length = 0 then .ok none
  else do
    let first ← entryAt candidates 0
    if first.len = 0 then .ok none
    else do
      let ret ← candidates.foldlM (fun ret candidate ↦ do
        let bl ← deref candidate
        if ret.len = bl.len then ret.or bl else .ok ret) (ofLen first.len)
      .ok (some ret)

/-- The variables of the search for the best candidate. -/
structure Search where
  usable : Bitlist
  maxScore : ℕ
  bestIdx : ℕ

/-- The variables of the selection loop. -/
structure Cover where
  selected : Bitlist
  usable : Bitlist
  covered : Bitlist
  remaining : Bitlist

section Selection

variable (candidates : List (Option Bitlist)) (allowOverlaps : Bool)

/-- The number of bits that a candidate adds, zero if its length is wrong. -/
def scoreOf (candidate remaining : Bitlist) : Except Fault ℕ :=
  if candidate.len = remaining.len then candidate.andCount remaining else .ok 0

/-- One usable candidate in the search: it is dropped when it adds nothing, has the wrong length or
overlaps, and is remembered when it is the best so far. -/
def searchRound (covered remaining : Bitlist) (search : Search) (idx : ℕ) :
    Except Fault Search := do
  let candidate ← entryAt candidates idx
  let score ← scoreOf candidate remaining
  if score = 0 then .ok { search with usable := search.usable.setBitAt idx false }
  else if covered.len ≠ candidate.len then
    .ok { search with usable := search.usable.setBitAt idx false }
  else do
    let o ← covered.overlaps candidate
    if !allowOverlaps && o then .ok { search with usable := search.usable.setBitAt idx false }
    else if score > search.maxScore then .ok { search with maxScore := score, bestIdx := idx }
    else .ok search

/-- The body of the selection loop. -/
def coverRound (state : Cover) : Except Fault Cover := do
  let search ← state.usable.bitIndices.foldlM
    (searchRound candidates allowOverlaps state.covered state.remaining) ⟨state.usable, 0, 0⟩
  if 0 < search.maxScore then do
    let best ← entryAt candidates search.bestIdx
    let covered ← state.covered.or best
    let remaining ← state.remaining.and best.not
    .ok ⟨state.selected.setBitAt search.bestIdx true, search.usable.setBitAt search.bestIdx false,
      covered, remaining⟩
  else .ok { state with usable := search.usable }

/-- The selection loop, which makes at most one attempt more than it may select candidates. -/
def coverLoop (k : ℕ) (start : Cover) : Except Fault Cover :=
  loop (fun state _ ↦
    if state.selected.count < k ∧ 0 < state.usable.count then do
      let next ← coverRound candidates allowOverlaps state
      .ok (next, false)
    else .ok (state, true)) (List.range (k + 1)) start

/-- `MaxCover`: the selected candidates and what they cover. -/
def maxCover (k : ℕ) : Except Fault (Bitlist × Bitlist) :=
  if candidates.length = 0 then
    .error (.error (.wrapf errInvalidMaxCoverProblem "cannot calculate set coverage" []))
  else do
    let k := if candidates.length < k then candidates.length else k
    let first ← entryAt candidates 0
    let remaining ← union candidates
    match remaining with
    | none => .error (.error (.wrapf errInvalidMaxCoverProblem "empty bitlists" []))
    | some remaining => do
      let last ← coverLoop candidates allowOverlaps k
        ⟨ofLen candidates.length, (ofLen candidates.length).not,
          ofLen first.len, remaining⟩
      .ok (last.selected, last.covered)

end Selection

/-- The union of the candidates has their length. -/
theorem exists_union (hne : bits ≠ []) (hwidth : 0 < width) (hlen : ∀ b ∈ bits, b.len = width) :
    ∃ ret, union (bits.map some) = .ok (some ret) ∧ ret.len = width := by
  obtain ⟨first, rest, rfl⟩ := exists_cons_of_ne_nil hne
  have hfirst : first.len = width := hlen first mem_cons_self
  obtain ⟨ret, hret, hlength⟩ := exists_foldlM_keeps (fun (ret : Bitlist) candidate ↦ do
      let bl ← deref candidate
      if ret.len = bl.len then ret.or bl else .ok ret) ((first :: rest).map some)
    (ofLen first.len) (fun ret ↦ ret.len = width) (by simpa using hfirst) (by
      intro candidate hcandidate state hst
      obtain ⟨bl, hbl, rfl⟩ := mem_map.1 hcandidate
      have hsame : state.len = bl.len := hst.trans (hlen bl hbl).symm
      obtain ⟨d, hd, hdlen, -⟩ := exists_or hsame
      refine ⟨d, ?_, hdlen.trans hst⟩
      rw [deref, ok_bind, if_pos hsame, hd])
  refine ⟨ret, ?_, hlength⟩
  rw [union, if_neg (by simp), entryAt_map_some getElem?_cons_zero, ok_bind,
    if_neg (by omega), hret, ok_bind]

/-- The selected candidates do not overlap, each has an element, and they are what is covered. -/
structure Covers (bits : List Bitlist) (width : ℕ) (selected covered : Bitlist) : Prop where
  lenSelected : selected.len = bits.length
  lenCovered : covered.len = width
  nonempty : ∀ i ∈ selected.bitSet, (setAt bits i).Nonempty
  disjoint : (selected.bitSet : Set ℕ).PairwiseDisjoint (setAt bits)
  union : covered.bitSet = selected.bitSet.biUnion (setAt bits)

/-- A candidate with an element outside of what is covered can be selected as well. -/
theorem Covers.select {sel next best : Bitlist} (hcovers : Covers bits width sel covered)
    (hbest : bits[idx]? = some best) (hne : best.bitSet.Nonempty)
    (hdisj : Disjoint covered.bitSet best.bitSet) (hlen : next.len = width)
    (hnext : next.bitSet = covered.bitSet ∪ best.bitSet) :
    Covers bits width (sel.setBitAt idx true) next := by
  have hset : setAt bits idx = best.bitSet := setAt_of_getElem? hbest
  have hidx : idx < sel.len := by
    rw [hcovers.lenSelected]
    exact (List.getElem?_eq_some_iff.1 hbest).1
  have hmem := bitSet_setBitAt hidx
  refine ⟨(len_setBitAt _ _ _).trans hcovers.lenSelected, hlen, ?_, ?_, ?_⟩
  · intro i hi
    rw [hmem, Finset.mem_insert] at hi
    rcases hi with rfl | hi
    · rwa [hset]
    · exact hcovers.nonempty i hi
  · rw [hmem, Finset.coe_insert]
    refine hcovers.disjoint.insert fun j hj _ ↦ ?_
    rw [hset]
    refine hdisj.symm.mono_right ?_
    rw [hcovers.union]
    exact Finset.subset_biUnion_of_mem (setAt bits) hj
  · rw [hnext, hmem, Finset.biUnion_insert, hset, hcovers.union, Finset.union_comm]

/-- What the search knows: the best candidate has an element and does not overlap. -/
structure Found (bits : List Bitlist) (covered : Bitlist) (search : Search) : Prop where
  lenUsable : search.usable.len = bits.length
  best : 0 < search.maxScore → ∃ best, bits[search.bestIdx]? = some best ∧
    best.bitSet.Nonempty ∧ Disjoint covered.bitSet best.bitSet

section

variable (hlen : ∀ b ∈ bits, b.len = width)
include hlen

theorem exists_searchRound {rest : Bitlist} {search : Search} (hcov : covered.len = width)
    (hrem : rest.len = width) (hfound : Found bits covered search) (hidx : idx < bits.length) :
    ∃ next, searchRound (bits.map some) false covered rest search idx = .ok next ∧
      Found bits covered next := by
  have hcandidate := getElem?_eq_getElem hidx
  generalize bits[idx] = candidate at hcandidate
  have hwidth := hlen candidate (mem_of_getElem? hcandidate)
  have hdropped : Found bits covered { search with usable := search.usable.setBitAt idx false } :=
    ⟨(len_setBitAt _ _ _).trans hfound.lenUsable, hfound.best⟩
  simp only [searchRound, entryAt_map_some hcandidate, ok_bind, scoreOf,
    if_pos (hwidth.trans hrem.symm), andCount_eq (hwidth.trans hrem.symm),
    overlaps_eq (hcov.trans hwidth.symm), Bool.not_false, Bool.true_and]
  split_ifs with hzero hwrong hoverlaps hbetter
  · exact ⟨_, rfl, hdropped⟩
  · exact ⟨_, rfl, hdropped⟩
  · exact ⟨_, rfl, hdropped⟩
  · exact ⟨_, rfl, hfound.lenUsable, fun _ ↦ ⟨candidate, hcandidate,
      (Finset.card_ne_zero.1 hzero).mono Finset.inter_subset_left, by simpa using hoverlaps⟩⟩
  · exact ⟨_, rfl, hfound⟩

theorem exists_coverRound {state : Cover} (husable : state.usable.len = bits.length)
    (hremaining : state.remaining.len = width)
    (hcovers : Covers bits width state.selected state.covered) :
    ∃ next, coverRound (bits.map some) false state = .ok next ∧
      next.usable.len = bits.length ∧ next.remaining.len = width ∧
      Covers bits width next.selected next.covered := by
  obtain ⟨search, hsearch, hfound⟩ := exists_foldlM_keeps
    (searchRound (bits.map some) false state.covered state.remaining) state.usable.bitIndices
    ⟨state.usable, 0, 0⟩ (Found bits state.covered) ⟨husable, fun h ↦ absurd h (lt_irrefl 0)⟩
    fun idx hidx search hst ↦ exists_searchRound hlen hcovers.lenCovered hremaining hst
      (husable ▸ state.usable.lt_len idx (mem_bitIndices.1 hidx))
  rw [coverRound, hsearch, ok_bind]
  split_ifs with hpos
  · obtain ⟨best, hbest, hne, hdisj⟩ := hfound.best hpos
    have hwidth := hlen best (mem_of_getElem? hbest)
    obtain ⟨covered, hcov, hclen, hcset⟩ := exists_or (hcovers.lenCovered.trans hwidth.symm)
    obtain ⟨rest, hrem, hrlen, -⟩ :=
      @exists_and _ state.remaining best.not (by rw [len_not]; omega)
    refine ⟨_, by rw [entryAt_map_some hbest, ok_bind, hcov, ok_bind, hrem, ok_bind], ?_,
      hrlen.trans hremaining, hcovers.select hbest hne hdisj (hclen.trans hcovers.lenCovered) hcset⟩
    exact (len_setBitAt _ _ _).trans hfound.lenUsable
  · exact ⟨_, rfl, hfound.lenUsable, hremaining, hcovers⟩

theorem exists_coverLoop {start : Cover} (husable : start.usable.len = bits.length)
    (hrem : start.remaining.len = width)
    (hcovers : Covers bits width start.selected start.covered) (k : ℕ) :
    ∃ last, coverLoop (bits.map some) false k start = .ok last ∧
      Covers bits width last.selected last.covered := by
  refine exists_loop_post (fun _ (state : Cover) ↦ state.usable.len = bits.length ∧
    state.remaining.len = width ∧ Covers bits width state.selected state.covered)
    (fun state ↦ Covers bits width state.selected state.covered) ⟨husable, hrem, hcovers⟩
    (fun _ _ state hst ↦ ?_) fun _ hst ↦ hst.2.2
  obtain ⟨husable, hrem, hcovers⟩ := hst
  split_ifs
  · obtain ⟨next, hnext, hkept⟩ := exists_coverRound hlen husable hrem hcovers
    exact ⟨next, false, by rw [hnext, ok_bind], Bool.noConfusion, fun _ ↦ hkept⟩
  · exact ⟨state, true, rfl, fun _ ↦ hcovers, Bool.noConfusion⟩

end

/-- `MaxCover` without overlaps returns disjoint candidates and their union. -/
theorem exists_maxCover (hne : bits ≠ []) (hwidth : 0 < width)
    (hlen : ∀ b ∈ bits, b.len = width) (k : ℕ) :
    ∃ sel covered, maxCover (bits.map some) false k = .ok (sel, covered) ∧
      Covers bits width sel covered := by
  obtain ⟨first, rest, hbits⟩ := exists_cons_of_ne_nil hne
  have hfirst : bits[0]? = some first := by rw [hbits, getElem?_cons_zero]
  have hfirstLen : first.len = width := hlen first (mem_of_getElem? hfirst)
  obtain ⟨remaining, hunion, hrem⟩ := exists_union hne hwidth hlen
  have hstart : Covers bits width (ofLen (bits.map some).length)
      (ofLen first.len) := ⟨by simp, by simpa using hfirstLen, by simp, by simp, by simp⟩
  have hnonempty : (bits.map some).length ≠ 0 := by simpa using hne
  obtain ⟨last, hlast, hcovers⟩ := @exists_coverLoop bits width _ hlen
    ⟨ofLen (bits.map some).length, (ofLen (bits.map some).length).not,
      ofLen first.len, remaining⟩ (by simp) hrem hstart
    (if (bits.map some).length < k then (bits.map some).length else k)
  refine ⟨last.selected, last.covered, ?_, hcovers⟩
  simp only [maxCover, if_neg hnonempty, entryAt_map_some hfirst, ok_bind, hunion, hlast]

end Prysm.Aggregation
