import Mathlib.Algebra.BigOperators.Group.Finset.Basic
import Mathlib.Data.List.Sort
import Prysm.Helpers.Shuffle

/-!
# Custody groups

`CustodyGroups` hashes the id of a node and the ids after it, until it has found enough different
groups.  A search for more groups begins with the same groups, whatever the hash function is, and so
a node keeps its groups and columns when its count grows.
-/

namespace Prysm.PeerDas

open List Prysm.Helpers Nat

def errCustodyGroupTooLarge : Error := .errorf "custody group too large" []

def errCustodyGroupCountTooLarge : Error := .errorf "custody group count too large" []

def errWrongComputedCustodyGroupCount : Error :=
  .errorf "wrong computed custody group count, should never happen" []

def errIndexTooLarge : Error := .errorf "column index is larger than the specified columns count" []

/-- A group is added once.  The groups are also the keys of `custodyGroupsMap`. -/
def addGroup (custodyGroups : List ℕ) (custodyGroup : ℕ) : List ℕ :=
  if custodyGroup ∈ custodyGroups then custodyGroups else custodyGroups ++ [custodyGroup]

/-- The id after an id, where 0 comes after the greatest one. -/
def nextId (currentId : ℕ) : ℕ := if currentId = 2 ^ 256 - 1 then 0 else currentId + 1

section Model

variable (numberOfColumns numberOfCustodyGroups : ℕ) (hash : HashFunc)

/-- The loop of `CustodyGroups`. -/
def searchGroups (custodyGroupCount : ℕ) : ℕ → ℕ → List ℕ → Option (List ℕ)
  | 0, _, _ => none
  | fuel + 1, currentId, custodyGroups =>
    if custodyGroups.length < custodyGroupCount then
      searchGroups custodyGroupCount fuel (nextId currentId) (addGroup custodyGroups
        (fromBytes8 (hash (littleEndian 32 currentId)) % numberOfCustodyGroups))
    else some custodyGroups

def custodyGroups (fuel : ℕ) (nodeId : Root) (custodyGroupCount : ℕ) : Except Fault (List ℕ) :=
  if numberOfCustodyGroups < custodyGroupCount then .error (.error errCustodyGroupCountTooLarge)
  else if custodyGroupCount = numberOfCustodyGroups then .ok (range numberOfCustodyGroups)
  else
    match searchGroups numberOfCustodyGroups hash custodyGroupCount fuel nodeId [] with
    | none => .error .diverges
    | some custodyGroups =>
      if custodyGroups.length ≠ custodyGroupCount then
        .error (.error errWrongComputedCustodyGroupCount)
      else .ok (custodyGroups.insertionSort (· ≤ ·))

def computeColumnsForCustodyGroup (custodyGroup : ℕ) : Except Fault (List ℕ) :=
  if numberOfCustodyGroups ≤ custodyGroup then .error (.error errCustodyGroupTooLarge)
  else .ok ((range (numberOfColumns / numberOfCustodyGroups)).map fun i ↦
    numberOfCustodyGroups * i + custodyGroup)

def computeCustodyGroupForColumn (columnIndex : ℕ) : Except Fault ℕ :=
  if numberOfColumns ≤ columnIndex then .error (.error errIndexTooLarge)
  else .ok (columnIndex % numberOfCustodyGroups)

def custodyColumns (custodyGroups : List ℕ) : Except Fault (Finset ℕ) :=
  custodyGroups.foldlM (fun columns group ↦
    if numberOfCustodyGroups ≤ group then .error (.error errCustodyGroupTooLarge)
    else do
      let groupColumns ← wrapf (computeColumnsForCustodyGroup numberOfColumns numberOfCustodyGroups
        group) "compute columns for custody group" []
      .ok (columns ∪ groupColumns.toFinset)) ∅

end Model

variable {hash : HashFunc} {M N c d fuel fuel' id group : ℕ} {groups found found' : List ℕ}

theorem prefix_addGroup (groups : List ℕ) (group : ℕ) : groups <+: addGroup groups group := by
  unfold addGroup
  split_ifs
  · exact prefix_rfl
  · exact prefix_append _ _

/-- Different groups below the number of groups. -/
structure Groups (numberOfCustodyGroups : ℕ) (groups : List ℕ) : Prop where
  nodup : groups.Nodup
  lt : ∀ group ∈ groups, group < numberOfCustodyGroups

theorem Groups.addGroup (hgroups : Groups N groups) (hgroup : group < N) :
    Groups N (addGroup groups group) := by
  unfold PeerDas.addGroup
  split_ifs with hmem
  · exact hgroups
  · refine ⟨by simpa using hgroups.nodup.concat hmem, forall_mem_append.2 ⟨hgroups.lt, ?_⟩⟩
    simpa using hgroup

/-- A search finds different groups, as many as it is asked for. -/
theorem searchGroups_groups (hc : c < N) (hgroups : Groups N groups) (hlength : groups.length ≤ c)
    (hfound : searchGroups N hash c fuel id groups = some found) :
    Groups N found ∧ found.length = c := by
  induction fuel generalizing id groups with
  | zero => cases hfound
  | succ fuel ih =>
    rw [searchGroups] at hfound
    split_ifs at hfound with hless
    · refine ih (hgroups.addGroup (mod_lt _ (by lia))) ?_ hfound
      unfold PeerDas.addGroup
      split_ifs
      · exact hlength
      · rw [length_append]
        exact hless
    · obtain rfl := Option.some.inj hfound
      exact ⟨hgroups, by lia⟩

theorem prefix_searchGroups (hfound : searchGroups N hash c fuel id groups = some found) :
    groups <+: found := by
  induction fuel generalizing id groups with
  | zero => cases hfound
  | succ fuel ih =>
    rw [searchGroups] at hfound
    split_ifs at hfound
    · exact (prefix_addGroup _ _).trans (ih hfound)
    · exact Option.some.inj hfound ▸ prefix_rfl

/-- A search for more groups begins with what a search for fewer finds. -/
theorem searchGroups_mono (hle : c ≤ d) (hfound : searchGroups N hash c fuel id groups = some found)
    (hfound' : searchGroups N hash d fuel' id groups = some found') : found <+: found' := by
  induction fuel generalizing fuel' id groups with
  | zero => cases hfound
  | succ fuel ih =>
    rw [searchGroups] at hfound
    split_ifs at hfound with hless
    · cases fuel' with
      | zero => cases hfound'
      | succ fuel' =>
        rw [searchGroups, if_pos (hless.trans_le hle)] at hfound'
        exact ih hfound hfound'
    · exact Option.some.inj hfound ▸ prefix_searchGroups hfound'

/-- What `CustodyGroups` returns: all groups, or the groups of a search. -/
theorem custodyGroups_spec {nodeId : Root} (hc : c ≤ N)
    (hends : custodyGroups N hash fuel nodeId c ≠ .error .diverges) :
    ∃ groups, custodyGroups N hash fuel nodeId c = .ok groups ∧ groups.length = c ∧
      groups.Pairwise (· < ·) ∧ (∀ group ∈ groups, group < N) ∧
      (c = N → ∀ group < N, group ∈ groups) ∧
      (c ≠ N → ∃ found, searchGroups N hash c fuel nodeId [] = some found ∧ groups ~ found) := by
  unfold custodyGroups at hends ⊢
  rw [if_neg (not_lt.2 hc)] at hends ⊢
  by_cases heq : c = N
  · subst heq
    exact ⟨_, if_pos rfl, length_range, pairwise_lt_range, fun _ ↦ mem_range.1,
      fun _ _ ↦ mem_range.2, fun hne ↦ absurd rfl hne⟩
  · rw [if_neg heq] at hends ⊢
    cases hfound : searchGroups N hash c fuel nodeId [] with
    | none => exact absurd (by rw [hfound]) hends
    | some found =>
      obtain ⟨hgroups, hlength⟩ := searchGroups_groups (lt_of_le_of_ne hc heq) ⟨nodup_nil, nofun⟩
        (zero_le c) hfound
      have hperm := perm_insertionSort (· ≤ ·) found
      have hsorted := (pairwise_insertionSort (· ≤ ·) found).and (hperm.nodup_iff.2 hgroups.nodup)
      exact ⟨_, if_neg (not_not.2 hlength), hperm.length_eq.trans hlength,
        hsorted.imp fun h ↦ lt_of_le_of_ne h.1 h.2,
        fun group hgroup ↦ hgroups.lt group (hperm.mem_iff.1 hgroup), fun h ↦ absurd h heq,
        fun _ ↦ ⟨found, rfl, hperm⟩⟩

/-- `ComputeCustodyGroupForColumn` inverts `ComputeColumnsForCustodyGroup`. -/
theorem computeColumnsForCustodyGroup_spec (hdvd : N ∣ M) (hgroup : group < N) :
    ∃ columns, computeColumnsForCustodyGroup M N group = .ok columns ∧
      columns.toFinset.card = M / N ∧
      ∀ column, column ∈ columns ↔ computeCustodyGroupForColumn M N column = .ok group := by
  obtain ⟨width, rfl⟩ := hdvd
  have hpos : 0 < N := by lia
  rw [computeColumnsForCustodyGroup, Nat.mul_div_cancel_left _ hpos]
  refine ⟨_, if_neg (not_le.2 hgroup), ?_, fun column ↦ ?_⟩
  · rw [toFinset_card_of_nodup, length_map, length_range]
    refine nodup_range.map fun i j hij ↦ ?_
    exact Nat.eq_of_mul_eq_mul_left hpos (Nat.add_right_cancel hij)
  · rw [computeCustodyGroupForColumn]
    constructor
    · intro hmem
      obtain ⟨i, hi, rfl⟩ := mem_map.1 hmem
      have hlt : N * i + group < N * width :=
        calc N * i + group
          _ < N * (i + 1) := Nat.add_lt_add_left hgroup _
          _ ≤ N * width := mul_le_mul_left N (mem_range.1 hi)
      rw [if_neg (not_le.2 hlt), mul_add_mod, mod_eq_of_lt hgroup]
    · intro hmod
      split_ifs at hmod with hle
      exact mem_map.2 ⟨column / N, mem_range.2 (Nat.div_lt_of_lt_mul (not_le.1 hle)),
        Except.ok.inj hmod ▸ div_add_mod _ _⟩

theorem custodyColumns_spec (hdvd : N ∣ M) (hnodup : groups.Nodup)
    (hlt : ∀ group ∈ groups, group < N) :
    ∃ columns, custodyColumns M N groups = .ok columns ∧
      columns.card = groups.length * (M / N) ∧
      ∀ column, column ∈ columns ↔
        ∃ group ∈ groups, computeCustodyGroupForColumn M N column = .ok group := by
  induction groups using reverseRecOn with
  | nil => exact ⟨∅, rfl, by simp, by simp⟩
  | append_singleton groups group ih =>
    obtain ⟨hgroups, -, hnew⟩ := nodup_append'.1 hnodup
    obtain ⟨hbelow, hgroup⟩ := forall_mem_append.1 hlt
    obtain ⟨columns, hcolumns, hcard, hmem⟩ := ih hgroups hbelow
    obtain ⟨more, hmore, hcard', hmem'⟩ :=
      computeColumnsForCustodyGroup_spec hdvd (hgroup group mem_cons_self)
    refine ⟨columns ∪ more.toFinset, ?_, ?_, fun column ↦ ?_⟩
    · rw [custodyColumns] at hcolumns ⊢
      rw [foldlM_append, hcolumns, ok_bind, foldlM_cons,
        if_neg (not_le.2 (hgroup group mem_cons_self)), hmore]
      rfl
    · rw [Finset.card_union_of_disjoint, hcard, hcard', length_append, add_mul,
        length_singleton, one_mul]
      refine Finset.disjoint_left.2 fun column hcolumn hcolumn' ↦ ?_
      obtain ⟨other, hother, heq⟩ := (hmem column).1 hcolumn
      rw [(hmem' column).1 (mem_toFinset.1 hcolumn'), Except.ok.injEq] at heq
      exact hnew hother (heq ▸ mem_cons_self)
    · simp [hmem, hmem', or_and_right, exists_or]

/-- A node that is asked for more groups keeps its groups and their columns.  The groups come in
order, and the columns are those whose group is among them. -/
theorem custody_grows (hdvd : N ∣ M) (nodeId : Root) (hle : c ≤ d) (hd : d ≤ N)
    (hends : custodyGroups N hash fuel nodeId c ≠ .error .diverges)
    (hends' : custodyGroups N hash fuel' nodeId d ≠ .error .diverges) :
    ∃ groups groups' columns columns', custodyGroups N hash fuel nodeId c = .ok groups ∧
      custodyGroups N hash fuel' nodeId d = .ok groups' ∧
      custodyColumns M N groups = .ok columns ∧ custodyColumns M N groups' = .ok columns' ∧
      groups.length = c ∧ groups.Pairwise (· < ·) ∧ (∀ group ∈ groups, group < N) ∧
      groups ⊆ groups' ∧ columns.card = c * (M / N) ∧ columns ⊆ columns' ∧
      ∀ column, column ∈ columns ↔
        ∃ group ∈ groups, computeCustodyGroupForColumn M N column = .ok group := by
  obtain ⟨groups, hgroups, hlength, hsorted, hlt, -, hsearch⟩ :=
    custodyGroups_spec (hle.trans hd) hends
  obtain ⟨groups', hgroups', -, hsorted', hlt', hall, hsearch'⟩ := custodyGroups_spec hd hends'
  have hsubset : groups ⊆ groups' := by
    intro group hgroup
    by_cases heq : d = N
    · exact hall heq group (hlt group hgroup)
    · obtain ⟨found, hfound, hperm⟩ := hsearch (by lia)
      obtain ⟨found', hfound', hperm'⟩ := hsearch' heq
      exact hperm'.mem_iff.2
        ((searchGroups_mono hle hfound hfound').subset (hperm.mem_iff.1 hgroup))
  obtain ⟨columns, hcolumns, hcard, hmem⟩ := custodyColumns_spec hdvd (hsorted.imp ne_of_lt) hlt
  obtain ⟨columns', hcolumns', -, hmem'⟩ := custodyColumns_spec hdvd (hsorted'.imp ne_of_lt) hlt'
  refine ⟨groups, groups', columns, columns', hgroups, hgroups', hcolumns, hcolumns', hlength,
    hsorted, hlt, hsubset, hlength ▸ hcard, fun column hcolumn ↦ ?_, hmem⟩
  obtain ⟨group, hgroup, heq⟩ := (hmem column).1 hcolumn
  exact (hmem' column).2 ⟨group, hsubset hgroup, heq⟩

/-- A search from the greatest id, where the hash repeats the first byte. -/
theorem custody_grows_wrapped :
    ∃ columns columns', custodyColumns 8 4 [0, 3] = .ok columns ∧
      custodyColumns 8 4 [0, 1, 3] = .ok columns' ∧ columns ⊆ columns' := by
  obtain ⟨groups, groups', columns, columns', hgroups, hgroups', hcolumns, hcolumns', -, -, -, -, -,
      hsubset, -⟩ :=
    @custody_grows (fun bytes ↦ Vector.replicate 32 (bytes.headD 0)) 8 4 2 3 5 5 (by decide)
      (2 ^ 256 - 1) (by decide) (by decide) (by decide +kernel) (by decide +kernel)
  have hfirst : groups = [0, 3] := Except.ok.inj (hgroups.symm.trans (by decide +kernel))
  have hsnd : groups' = [0, 1, 3] := Except.ok.inj (hgroups'.symm.trans (by decide +kernel))
  exact ⟨columns, columns', hfirst ▸ hcolumns, hsnd ▸ hcolumns', hsubset⟩

end Prysm.PeerDas
