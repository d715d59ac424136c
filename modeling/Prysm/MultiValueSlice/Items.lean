import Mathlib.Data.List.Nodup
import Mathlib.Data.List.Pairwise
import Prysm.MultiValueSlice.Basic

/-!
# The values of one index

An item is well formed when no object id occurs twice in it.  Then the item is a partial function
from ids to values, and the order of its values and ids does not matter: sharing, unsharing and
joining a value act on that function at one id only.
-/

namespace Prysm.MultiValueSlice

open List

variable {V : Type} {ids : List ℕ} {i : ℕ}

theorem containsId_eq_none_iff {id : ℕ} : containsId ids id = none ↔ id ∉ ids := by
  simp [containsId, idxOf?_eq_none_iff]

theorem containsId_eq_some {id : ℕ} (h : containsId ids id = some i) : ids[i]? = some id := by
  unfold containsId at h
  rw [idxOf?_eq_some_iff] at h
  obtain ⟨hi, heq, _⟩ := h
  rw [getElem?_eq_getElem hi, heq]

/-- Deleting an element keeps the others, in some order. -/
theorem deleteElemFromSlice_perm {T : Type} (front back : List T) (x : T) :
    (deleteElemFromSlice (front ++ x :: back) front.length).Perm (front ++ back) := by
  rcases eq_nil_or_concat back with rfl | ⟨back, last, rfl⟩
  · simp [deleteElemFromSlice]
  · have hset : (front ++ x :: (back ++ [last])).set front.length last =
        (front ++ last :: back) ++ [last] := by
      simp
    have hlast : (front ++ x :: (back ++ [last])).getLast? = some last := by
      simp [getLast?_append, getLast?_cons]
    simp only [deleteElemFromSlice, concat_eq_append, hlast, hset, dropLast_concat]
    exact List.Perm.append_left front (perm_append_singleton last back).symm

theorem exists_append_of_getElem? {T : Type} {l : List T} {x : T} (h : l[i]? = some x) :
    ∃ front back, l = front ++ x :: back ∧ front.length = i := by
  obtain ⟨hi, heq⟩ := List.getElem?_eq_some_iff.mp h
  refine ⟨l.take i, l.drop (i + 1), ?_, length_take_of_le (Nat.le_of_lt hi)⟩
  rw [← heq, getElem_cons_drop, take_append_drop]

namespace MultiValueItem

/-- No object id occurs twice in the item. -/
def WellFormed (item : MultiValueItem V) : Prop :=
  (item.flatMap Value.ids).Nodup

/-- The object has the value in the item. -/
def Has (item : MultiValueItem V) (id : ℕ) (x : V) : Prop :=
  ∃ v ∈ item, id ∈ v.ids ∧ v.val = x

theorem wellFormed_nil : WellFormed ([] : MultiValueItem V) := nodup_nil

theorem has_perm {item other : MultiValueItem V} (hperm : item.Perm other) (id : ℕ) (x : V) :
    item.Has id x ↔ other.Has id x := by
  simp only [Has, hperm.mem_iff]

theorem has_singleton (val : V) (id o : ℕ) (x : V) :
    Has [{ val := val, ids := [id] }] o x ↔ o = id ∧ x = val := by
  simp [Has, eq_comm]

theorem has_cons (item : MultiValueItem V) (v : Value V) (id : ℕ) (x : V) :
    Has (v :: item) id x ↔ (id ∈ v.ids ∧ v.val = x) ∨ item.Has id x := by
  simp [Has]

variable {item : MultiValueItem V} {id dst src : ℕ} {x : V}

/-- In a well-formed item the objects of different values differ. -/
theorem WellFormed.eq_of_mem (h : item.WellFormed) {y : V} (hx : item.Has id x)
    (hy : item.Has id y) : x = y := by
  obtain ⟨v, hv, hidv, rfl⟩ := hx
  obtain ⟨w, hw, hidw, rfl⟩ := hy
  have : Std.Symm (Function.onFun List.Disjoint (Value.ids : Value V → List ℕ)) :=
    ⟨fun _ _ hdisj o hv hw ↦ hdisj hw hv⟩
  by_contra hne
  exact (nodup_flatMap.mp h).2.forall hv hw (fun heq ↦ hne (heq ▸ rfl)) hidv hidw

theorem valueOf_eq_find? : item.valueOf id = (item.find? (id ∈ ·.ids)).map Value.val := by
  induction item with
  | nil => rfl
  | cons v rest ih =>
    rw [valueOf, find?_cons]
    cases hfound : containsId v.ids id with
    | some i => simp [mem_of_getElem? (containsId_eq_some hfound)]
    | none => simp [containsId_eq_none_iff.mp hfound, ih]

theorem valueOf_has (h : item.valueOf id = some x) : item.Has id x := by
  rw [valueOf_eq_find?, Option.map_eq_some_iff] at h
  obtain ⟨v, hv, hval⟩ := h
  exact ⟨v, mem_of_find?_eq_some hv, by simpa using find?_some hv, hval⟩

theorem valueOf_eq_none_iff : item.valueOf id = none ↔ ∀ v ∈ item, id ∉ v.ids := by
  simp [valueOf_eq_find?]

/-- The search through a well-formed item computes the item's partial function. -/
theorem WellFormed.valueOf_eq_some_iff (h : item.WellFormed) :
    item.valueOf id = some x ↔ item.Has id x := by
  refine ⟨valueOf_has, fun hx ↦ ?_⟩
  cases hvalue : item.valueOf id with
  | none =>
    obtain ⟨v, hv, hid, _⟩ := hx
    exact absurd hid (valueOf_eq_none_iff.mp hvalue v hv)
  | some y => rw [h.eq_of_mem (valueOf_has hvalue) hx]

theorem position_eq_none_iff : item.position id = none ↔ item.valueOf id = none := by
  induction item with
  | nil => simp [position, valueOf]
  | cons v rest ih =>
    unfold position valueOf
    cases containsId v.ids id with
    | some i => simp
    | none => simpa using ih

theorem position_eq_some {vi foundIndex : ℕ} (h : item.position id = some (vi, foundIndex)) :
    ∃ v, item[vi]? = some v ∧ v.ids[foundIndex]? = some id := by
  induction item generalizing vi with
  | nil => simp [position] at h
  | cons v rest ih =>
    unfold position at h
    cases hfound : containsId v.ids id with
    | some i =>
      simp only [hfound, Option.some.injEq, Prod.mk.injEq] at h
      obtain ⟨rfl, rfl⟩ := h
      exact ⟨v, rfl, containsId_eq_some hfound⟩
    | none =>
      simp only [hfound, Option.map_eq_some_iff, Prod.mk.injEq] at h
      obtain ⟨⟨vi', foundIndex'⟩, hposition, rfl, rfl⟩ := h
      simpa using ih hposition

variable {o : ℕ}

/-- Sharing makes the destination have what the source has. -/
theorem has_share (h : item.WellFormed) :
    (item.share src dst).1.Has o x ↔ item.Has o x ∨ (o = dst ∧ item.Has src x) := by
  induction item with
  | nil => simp [share, Has]
  | cons v rest ih =>
    have hrest : WellFormed rest := by
      have hsplit := h
      simp only [WellFormed, flatMap_cons, nodup_append'] at hsplit
      exact hsplit.2.1
    unfold share
    cases hfound : containsId v.ids src with
    | some i =>
      have hmem : src ∈ v.ids := mem_of_getElem? (containsId_eq_some hfound)
      have hsrc : Has (v :: rest) src x ↔ v.val = x := by
        refine ⟨fun hx ↦ ?_, fun hx ↦ ⟨v, mem_cons_self, hmem, hx⟩⟩
        exact h.eq_of_mem ⟨v, mem_cons_self, hmem, rfl⟩ hx
      simp only [hsrc]
      simp only [has_cons, mem_append, mem_singleton]
      tauto
    | none =>
      have hmem := containsId_eq_none_iff.mp hfound
      simp only [has_cons, ih hrest, hmem, false_and, false_or]
      tauto

theorem share_found_iff (dst : ℕ) : (item.share src dst).2 = true ↔ (item.valueOf src).isSome := by
  induction item with
  | nil => simp [share, valueOf]
  | cons v rest ih =>
    unfold share valueOf
    cases containsId v.ids src with
    | some i => simp
    | none => simpa using ih

theorem share_ids_perm :
    ((item.share src dst).1.flatMap Value.ids).Perm
      (item.flatMap Value.ids ++ if (item.share src dst).2 then [dst] else []) := by
  induction item with
  | nil => simp [share]
  | cons v rest ih =>
    unfold share
    cases containsId v.ids src with
    | some i =>
      simp only [flatMap_cons, append_assoc, if_true]
      exact List.Perm.append_left _ perm_append_comm
    | none =>
      simp only [flatMap_cons, append_assoc]
      exact List.Perm.append_left _ ih

theorem WellFormed.share (h : item.WellFormed) (hdst : item.valueOf dst = none) :
    (item.share src dst).1.WellFormed := by
  refine share_ids_perm.nodup_iff.mpr ?_
  have hnot : dst ∉ item.flatMap Value.ids := by
    simpa [mem_flatMap] using valueOf_eq_none_iff.mp hdst
  cases (item.share src dst).2 with
  | false => simpa using (show (item.flatMap Value.ids).Nodup from h)
  | true =>
    rw [if_pos rfl, nodup_append']
    exact ⟨h, nodup_singleton dst, by simpa using hnot⟩

theorem valueOf_share (h : item.WellFormed) (hdst : item.valueOf dst = none) (o : ℕ) :
    (item.share src dst).1.valueOf o = item.valueOf (if o = dst then src else o) := by
  ext x
  rw [(h.share hdst).valueOf_eq_some_iff, has_share h]
  split
  next heq =>
    subst heq
    have hnot : ¬ item.Has o x := fun ⟨v, hv, hid, _⟩ ↦ valueOf_eq_none_iff.mp hdst v hv hid
    simp [hnot, h.valueOf_eq_some_iff]
  next hne => simp [hne, h.valueOf_eq_some_iff]

/-- What unsharing does to a well-formed item that has a value of the object, up to order. -/
theorem unshare_perm (hsome : item.valueOf id ≠ none) :
    ∃ (front back : MultiValueItem V) (v : Value V) (left right : List ℕ),
      item = front ++ v :: back ∧ v.ids = left ++ id :: right ∧
        ((left ++ right = [] ∧ (item.unshare id).Perm (front ++ back)) ∨
          ∃ ids, ids.Perm (left ++ right) ∧
            item.unshare id = front ++ { v with ids := ids } :: back) := by
  rw [Ne, ← position_eq_none_iff] at hsome
  obtain ⟨⟨vi, foundIndex⟩, hposition⟩ := Option.ne_none_iff_exists'.mp hsome
  obtain ⟨v, hv, hid⟩ := position_eq_some hposition
  obtain ⟨front, back, hitem, hfront⟩ := exists_append_of_getElem? hv
  obtain ⟨left, right, hids, hleft⟩ := exists_append_of_getElem? hid
  refine ⟨front, back, v, left, right, hitem, hids, ?_⟩
  simp only [unshare, hposition, hv]
  split
  next hone =>
    left
    have hlen : left.length + right.length = 0 := by
      rw [hids] at hone
      simp only [length_append, length_cons] at hone
      omega
    refine ⟨by simpa using hlen, ?_⟩
    rw [hitem, ← hfront]
    exact deleteElemFromSlice_perm front back v
  next =>
    right
    refine ⟨deleteElemFromSlice v.ids foundIndex, ?_, ?_⟩
    · rw [hids, ← hleft]
      exact deleteElemFromSlice_perm left right id
    · rw [hitem, ← hfront]
      simp

theorem unshare_of_valueOf_eq_none (h : item.valueOf id = none) : item.unshare id = item := by
  simp [unshare, position_eq_none_iff.mpr h]

/-- Unsharing removes exactly the object's id. -/
theorem unshare_ids_perm (hsome : item.valueOf id ≠ none) :
    (item.flatMap Value.ids).Perm (id :: (item.unshare id).flatMap Value.ids) := by
  obtain ⟨front, back, v, left, right, hitem, hids, hcase⟩ := unshare_perm hsome
  have hall : (item.flatMap Value.ids).Perm
      (id :: (front.flatMap Value.ids ++ (left ++ right ++ back.flatMap Value.ids))) := by
    rw [hitem]
    simp only [flatMap_append, flatMap_cons, hids, append_assoc, cons_append]
    refine (List.Perm.append_left _ perm_middle).trans ?_
    exact perm_middle
  refine hall.trans (List.Perm.cons id ?_)
  rcases hcase with ⟨hnil, hperm⟩ | ⟨ids, hperm, heq⟩
  · refine .trans ?_ (hperm.flatMap_right Value.ids).symm
    simp [hnil]
  · rw [heq]
    simp only [flatMap_append, flatMap_cons]
    exact List.Perm.append_left _ (List.Perm.append_right _ hperm.symm)

section

variable (h : item.WellFormed)
include h

theorem WellFormed.unshare (id : ℕ) : (item.unshare id).WellFormed := by
  by_cases hsome : item.valueOf id = none
  · rw [unshare_of_valueOf_eq_none hsome]
    exact h
  · exact ((unshare_ids_perm hsome).nodup_iff.mp h).of_cons

theorem valueOf_unshare_self (id : ℕ) : (item.unshare id).valueOf id = none := by
  by_cases hsome : item.valueOf id = none
  · rw [unshare_of_valueOf_eq_none hsome]
    exact hsome
  · have hnot := ((unshare_ids_perm hsome).nodup_iff.mp h).notMem
    rw [valueOf_eq_none_iff]
    intro v hv hid
    exact hnot (mem_flatMap.mpr ⟨v, hv, hid⟩)

theorem valueOf_unshare_of_ne (hne : o ≠ id) : (item.unshare id).valueOf o = item.valueOf o := by
  by_cases hsome : item.valueOf id = none
  · rw [unshare_of_valueOf_eq_none hsome]
  · ext x
    rw [(h.unshare id).valueOf_eq_some_iff, h.valueOf_eq_some_iff]
    obtain ⟨front, back, v, left, right, hitem, hids, hcase⟩ := unshare_perm hsome
    have hv : o ∈ v.ids ↔ o ∈ left ++ right := by
      rw [hids]
      simp [hne]
    have hall : item.Has o x ↔ (front ++ back).Has o x ∨ (o ∈ left ++ right ∧ v.val = x) := by
      rw [hitem]
      simp only [Has, mem_append, mem_cons, ← hv]
      aesop
    rcases hcase with ⟨hnil, hperm⟩ | ⟨ids, hperm, heq⟩
    · rw [has_perm hperm, hall, hnil]
      simp
    · rw [heq, hall]
      simp only [Has, mem_append, mem_cons, ← hperm.mem_iff]
      aesop

theorem valueOf_unshare (id o : ℕ) :
    (item.unshare id).valueOf o = if o = id then none else item.valueOf o := by
  split
  next heq => rw [heq, valueOf_unshare_self h]
  next hne => exact valueOf_unshare_of_ne h hne

end

variable [DecidableEq V] {val : V}

theorem join_ids_perm :
    ((item.join id val).flatMap Value.ids).Perm (id :: item.flatMap Value.ids) := by
  induction item with
  | nil => simp [join]
  | cons v rest ih =>
    unfold join
    split
    · simp only [flatMap_cons, append_assoc, singleton_append]
      exact perm_middle
    · exact (List.Perm.append_left _ ih).trans perm_middle

theorem WellFormed.join (h : item.WellFormed) (hid : item.valueOf id = none) :
    (item.join id val).WellFormed := by
  refine join_ids_perm.nodup_iff.mpr (nodup_cons.mpr ⟨?_, h⟩)
  simpa [mem_flatMap] using valueOf_eq_none_iff.mp hid

theorem has_join : (item.join id val).Has o x ↔ item.Has o x ∨ (o = id ∧ x = val) := by
  induction item with
  | nil =>
    have hnil : ¬ Has ([] : MultiValueItem V) o x := by simp [Has]
    simp only [join, has_singleton, hnil, false_or]
  | cons v rest ih =>
    unfold join
    split
    next heq =>
      subst heq
      simp only [has_cons, mem_append, mem_singleton]
      tauto
    next =>
      simp only [has_cons, ih]
      tauto

theorem valueOf_join (h : item.WellFormed) (hid : item.valueOf id = none) (o : ℕ) :
    (item.join id val).valueOf o = if o = id then some val else item.valueOf o := by
  ext x
  rw [(h.join hid).valueOf_eq_some_iff, has_join]
  split
  next heq =>
    subst heq
    have hnot : ¬ item.Has o x := fun ⟨v, hv, ho, _⟩ ↦ valueOf_eq_none_iff.mp hid v hv ho
    simp [hnot, eq_comm]
  next hne => simp [hne, h.valueOf_eq_some_iff]

/-- Replacing an object's value changes the item's partial function at that object only. -/
theorem valueOf_unshare_join (h : item.WellFormed) (id : ℕ) (val : V) (o : ℕ) :
    ((item.unshare id).join id val).valueOf o = if o = id then some val else item.valueOf o := by
  rw [valueOf_join (h.unshare id) (valueOf_unshare_self h id)]
  split
  next => rfl
  next hne => exact valueOf_unshare_of_ne h hne

end MultiValueItem

end Prysm.MultiValueSlice
