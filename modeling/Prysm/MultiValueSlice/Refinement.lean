import Mathlib.Data.Set.Insert
import Prysm.Library.Run
import Prysm.MultiValueSlice.Operations

/-!
# The multi-value slice refines independent lists

The abstract component is a family of plain lists, one for each object.  Every run of operations
on the shared structure is followed step by step by the family, and what `Value`, `Len` and `At`
return is read off the object's own list.
-/

namespace Prysm.MultiValueSlice

open List Function Library Slice Option

variable {V : Type}

/-- The operations on a slice after `Init`. -/
inductive Op (V : Type)
  | copy (src dst : ℕ)
  | updateAt (id index : ℕ) (val : V)
  | append (id : ℕ) (val : V)
  | detach (id : ℕ)

/-- The object whose list an operation may change. -/
def Op.target : Op V → ℕ
  | .copy _ dst => dst
  | .updateAt id _ _ => id
  | .append id _ => id
  | .detach id => id

/-- A family of independent lists, and the ids that are in use. -/
structure Objects (V : Type) where
  list : ℕ → List V
  inUse : Set ℕ

namespace Objects

def init (items : List V) : Objects V where
  list := fun _ ↦ items
  inUse := ∅

/-- The object's own list takes the operation; an update past the end changes nothing.  A detached
id is free again and stands for the initial items. -/
def apply (items : List V) (objects : Objects V) : Op V → Objects V
  | .copy src dst =>
    ⟨update objects.list dst (objects.list src), insert src (insert dst objects.inUse)⟩
  | .updateAt id index val =>
    ⟨update objects.list id ((objects.list id).set index val), insert id objects.inUse⟩
  | .append id val =>
    ⟨update objects.list id (objects.list id ++ [val]), insert id objects.inUse⟩
  | .detach id => ⟨update objects.list id items, objects.inUse \ {id}⟩

/-- A copy needs a destination id that is not in use. -/
def Allows (objects : Objects V) : Op V → Prop
  | .copy _ dst => dst ∉ objects.inUse
  | _ => True

end Objects

/-- The slice after an operation; a failing `UpdateAt` leaves it as it was. -/
def Slice.apply [DecidableEq V] (s : Slice V) : Op V → Slice V
  | .copy src dst => s.copy src dst
  | .updateAt id index val =>
    match s.updateAt id index val with
    | .ok t => t
    | .error _ => s
  | .append id val => s.append id val
  | .detach id => s.detach id

/-- The slice and the family of lists take the same operation. -/
def Step [DecidableEq V] (items : List V) (before : Slice V × Objects V) (op : Op V)
    (after : Slice V × Objects V) : Prop :=
  before.2.Allows op ∧ after = (before.1.apply op, before.2.apply items op)

namespace Slice

variable {s : Slice V} {id i : ℕ}

theorem assign_length (written todo : List V) (old v : V) :
    assign (written ++ old :: todo) written.length v = some (written ++ [v] ++ todo) := by
  simp [assign]

/-- The loop over the shared items replaces the first elements that are left. -/
theorem fillOriginalItems_eq (s : Slice V) (id : ℕ) (rest written todo : List V)
    (h : rest.length ≤ todo.length) :
    s.fillOriginalItems id written.length rest (written ++ todo) =
      some (written ++ rest.mapIdx (fun k ↦ s.originalItem id (written.length + k)) ++
        todo.drop rest.length) := by
  induction rest generalizing written todo with
  | nil => simp [fillOriginalItems]
  | cons item rest ih =>
    cases todo with
    | nil => cases h
    | cons old todo =>
      have hrest := ih (written ++ [s.originalItem id written.length item]) todo (by simpa using h)
      rw [length_append, length_singleton] at hrest
      rw [fillOriginalItems, assign_length, bind_some, hrest]
      simp [mapIdx_cons, Nat.add_comm, Nat.add_left_comm]

/-- The loop over the appended items writes exactly the object's appended values. -/
theorem fillAppendedItems_eq (items : List (MultiValueItem V)) (written todo : List V)
    (h : ∀ k, ((items[k]?).bind fun item ↦ item.valueOf id).isSome ↔ k < todo.length) :
    ∃ values, fillAppendedItems id written.length items (written ++ todo) =
        some (written ++ values) ∧
      ∀ k : ℕ, ((items[k]?).bind fun item ↦ item.valueOf id) = values[k]? := by
  induction todo generalizing items written with
  | nil =>
    have hnone (k : ℕ) : ((items[k]?).bind fun item ↦ item.valueOf id) = none := by
      rw [← not_isSome_iff_eq_none, h]
      exact Nat.not_lt_zero k
    refine ⟨[], ?_, hnone⟩
    cases items with
    | nil => rfl
    | cons item rest =>
      have hitem : item.valueOf id = none := hnone 0
      simp only [fillAppendedItems, hitem]
  | cons old todo ih =>
    have hzero := h 0
    cases items with
    | nil => simp at hzero
    | cons item rest =>
      obtain ⟨val, hval⟩ : ∃ val, item.valueOf id = some val :=
        isSome_iff_exists.1 (hzero.2 (Nat.succ_pos _))
      have hrest (k : ℕ) := (h (k + 1)).trans Nat.succ_lt_succ_iff
      obtain ⟨values, hfill, hvalues⟩ := ih rest (written ++ [val]) hrest
      rw [length_append, length_singleton] at hfill
      refine ⟨val :: values, ?_, fun k ↦ ?_⟩
      · simp only [fillAppendedItems, hval, assign_length, bind_some, hfill]
        rw [append_assoc, singleton_append]
      · cases k with
        | zero => exact hval
        | succ k => exact hvalues k

/-- `Value` returns the list of the object's observations. -/
theorem value_eq [Inhabited V] (h : s.Invariant) {list : List V}
    (hlist : ∀ i, list[i]? = s.itemAt id i) : s.value id = some list := by
  have horiginal (l : ℕ) (hl : s.sharedItems.length ≤ l) :=
    s.fillOriginalItems_eq id s.sharedItems [] (List.replicate l default) (by simpa using hl)
  simp only [length_nil, nil_append, Nat.zero_add, drop_replicate] at horiginal
  have hshared := h.shared_le id
  -- the observations are those of the shared items and then the appended values
  have hparts (values : List V) (hvalues : ∀ k, s.appendedValue id k = values[k]?) :
      s.sharedItems.mapIdx (s.originalItem id) ++ values = list := by
    apply ext_getElem?
    intro j
    rw [hlist, getElem?_append, length_mapIdx]
    split_ifs with hj
    · rw [itemAt_of_lt hj, getElem?_mapIdx, getElem?_eq_getElem hj]
      rfl
    · rw [itemAt_of_le (Nat.not_lt.1 hj), hvalues]
  unfold value
  cases hcached : s.cachedLengths id with
  | none =>
    have hlen : s.len id = s.sharedItems.length := by rw [len_eq, hcached]; rfl
    simp only [horiginal _ (Nat.le_refl _), Nat.sub_self, replicate_zero]
    rw [hparts [] fun k ↦ ?_]
    rw [getElem?_nil, ← not_isSome_iff_eq_none, h.appendedValue_isSome]
    omega
  | some l =>
    have hlen : s.len id = l := by rw [len_eq, hcached]; rfl
    obtain ⟨values, hfill, hvalues⟩ := fillAppendedItems_eq s.appendedItems
      (s.sharedItems.mapIdx (s.originalItem id)) (List.replicate (l - s.sharedItems.length) default)
      fun k ↦ (h.appendedValue_isSome id k).trans (by rw [length_replicate]; omega)
    rw [length_mapIdx] at hfill
    simp only [horiginal l (by omega), bind_some, hfill, hparts values hvalues]

/-- `At` returns the object's observation, or fails when there is none. -/
theorem atIndex_eq (s : Slice V) (id index : ℕ) :
    s.atIndex id index = match s.itemAt id index with
      | some x => .ok x
      | none => .error ⟨index⟩ := by
  unfold atIndex itemAt
  split
  next hle =>
    rw [getElem?_eq_none (by omega)]
    have hnone : s.appendedValue id (index - s.sharedItems.length) = none := by
      simp [appendedValue, getElem?_eq_none (by omega : s.appendedItems.length ≤
        index - s.sharedItems.length)]
    simp only [hnone]
  next =>
    cases s.sharedItems[index]? with
    | some item => simp only [originalItem_eq]
    | none =>
      rfl

end Slice

/-- The slice stores the family of lists. -/
structure Refines (items : List V) (s : Slice V) (objects : Objects V) : Prop where
  invariant : s.Invariant
  sharedItems : s.sharedItems = items
  list : ∀ id i, (objects.list id)[i]? = s.itemAt id i
  unused : ∀ id, id ∉ objects.inUse → s.Unused id

variable {op : Op V}

namespace Refines

variable {items : List V} {s : Slice V} {objects : Objects V}

theorem init (items : List V) : Refines items (init items) (Objects.init items) where
  invariant := init_invariant items
  sharedItems := rfl
  list id i := ((init_unused items id).itemAt i).symm
  unused id _ := init_unused items id

section

variable (h : Refines items s objects)
include h

theorem length_eq (id : ℕ) : (objects.list id).length = s.len id := by
  have hiff (i : ℕ) : i < (objects.list id).length ↔ i < s.len id := by
    rw [← h.invariant.extent, ← h.list]
    simp
  have hle := hiff (objects.list id).length
  have hge := hiff (s.len id)
  omega

theorem copy {src dst : ℕ} (hdst : dst ∉ objects.inUse) :
    Refines items (s.copy src dst) (objects.apply items (.copy src dst)) := by
  have hrenamed := renamed_copy h.invariant (h.unused dst hdst) src
  refine ⟨hrenamed.invariant h.invariant, h.sharedItems, fun o i ↦ ?_, fun o ho ↦ ?_⟩
  · rw [hrenamed.itemAt_of_some rfl, ← h.list]
    simp only [Objects.apply, update_apply]
    split <;> rfl
  · simp only [Objects.apply, Set.mem_insert_iff, not_or] at ho
    refine hrenamed.unused ?_
    rintro old ⟨⟩
    rw [if_neg ho.2.1]
    exact h.unused o ho.2.2

theorem detach (id : ℕ) : Refines items (s.detach id) (objects.apply items (.detach id)) := by
  have hrenamed := renamed_detach h.invariant id
  refine ⟨hrenamed.invariant h.invariant, h.sharedItems, fun o i ↦ ?_, fun o ho ↦ ?_⟩
  · simp only [Objects.apply, update_apply]
    split
    next heq => rw [hrenamed.itemAt_of_none (if_pos heq), h.sharedItems]
    next hne => rw [hrenamed.itemAt_of_some (if_neg hne), h.list]
  · simp only [Objects.apply, Set.mem_sdiff, Set.mem_singleton_iff, not_and, not_not] at ho
    refine hrenamed.unused fun old hold ↦ ?_
    split_ifs at hold with hne
    cases hold
    exact h.unused o (mt ho hne)

end

variable [DecidableEq V]

section

variable (h : Refines items s objects)
include h

theorem updateAt (id index : ℕ) (val : V) :
    Refines items (s.apply (.updateAt id index val))
      (objects.apply items (.updateAt id index val)) := by
  rcases Nat.lt_or_ge index (s.len id) with hidx | hidx
  · obtain ⟨t, ht, hupd⟩ := updateAt_of_lt h.invariant hidx val
    have happly : s.apply (.updateAt id index val) = t := by simp only [apply, ht]
    rw [happly]
    refine ⟨hupd.invariant h.invariant hidx, hupd.sharedItems.trans h.sharedItems,
      fun o i ↦ ?_, fun o ho ↦ ?_⟩
    · rw [hupd.itemAt]
      simp only [Objects.apply, update_apply]
      by_cases ho : o = id
      · subst ho
        rw [if_pos rfl, getElem?_set, h.length_eq, h.list]
        by_cases hi : index = i
        · subst hi
          simp [hidx]
        · rw [if_neg hi, if_neg fun hand ↦ hi hand.2.symm]
      · rw [if_neg ho, if_neg fun hand ↦ ho hand.1, h.list]
    · simp only [Objects.apply, Set.mem_insert_iff, not_or] at ho
      exact hupd.unused (h.unused o ho.2) ho.1
  · have happly : s.apply (.updateAt id index val) = s := by
      simp only [apply, updateAt_of_le h.invariant hidx]
    have hlist : update objects.list id ((objects.list id).set index val) =
        objects.list := by
      rw [set_eq_of_length_le (by rw [h.length_eq]; exact hidx), update_eq_self]
    rw [happly]
    refine ⟨h.invariant, h.sharedItems, fun o i ↦ ?_, fun o ho ↦ ?_⟩
    · simp only [Objects.apply, hlist]
      exact h.list o i
    · simp only [Objects.apply, Set.mem_insert_iff, not_or] at ho
      exact h.unused o ho.2

theorem append (id : ℕ) (val : V) :
    Refines items (s.append id val) (objects.apply items (.append id val)) := by
  have happended := appended_append h.invariant id val
  refine ⟨happended.invariant h.invariant, happended.sharedItems.trans h.sharedItems,
    fun o i ↦ ?_, fun o ho ↦ ?_⟩
  · rw [happended.itemAt h.invariant]
    simp only [Objects.apply, update_apply]
    by_cases ho : o = id
    · subst ho
      rw [if_pos rfl, getElem?_append, h.length_eq, h.list]
      have hextent := h.invariant.extent o i
      rcases Nat.lt_trichotomy i (s.len o) with hi | hi | hi
      · rw [if_pos hi, if_neg (by omega)]
      · simp [hi]
      · rw [if_neg (by omega), if_neg (by omega), getElem?_eq_none (by simp; omega), eq_comm,
          ← not_isSome_iff_eq_none, hextent]
        omega
    · rw [if_neg ho, if_neg fun hand ↦ ho hand.1, h.list]
  · simp only [Objects.apply, Set.mem_insert_iff, not_or] at ho
    exact happended.unused (h.unused o ho.2) ho.1

/-- Every allowed operation keeps the refinement. -/
theorem apply (hop : objects.Allows op) : Refines items (s.apply op) (objects.apply items op) := by
  cases op with
  | copy src dst => exact h.copy hop
  | updateAt id index val => exact h.updateAt id index val
  | append id val => exact h.append id val
  | detach id => exact h.detach id

end

end Refines

variable {objects : Objects V}

theorem refines_run [DecidableEq V] {items : List V} {ops : List (Op V)} {s : Slice V}
    (run : Run (Step items) (init items, Objects.init items) ops (s, objects)) :
    Refines items s objects := by
  refine run.invariant (fun state ↦ Refines items state.1 state.2) (Refines.init items) ?_
  rintro state op next hst ⟨hop, rfl⟩
  exact hst.apply hop

theorem Objects.apply_list_of_ne (items : List V) (objects : Objects V) {id : ℕ}
    (h : id ≠ op.target) : (objects.apply items op).list id = objects.list id := by
  cases op <;> exact update_of_ne h _ _

/-- What an object observes through the three read operations. -/
def Slice.observe [Inhabited V] (s : Slice V) (id : ℕ) :
    Option (List V) × ℕ × (ℕ → Except ErrOutOfBounds V) :=
  (s.value id, s.len id, s.atIndex id)

/-- What a plain list shows to the same read operations. -/
def observeList (list : List V) : Option (List V) × ℕ × (ℕ → Except ErrOutOfBounds V) :=
  (some list, list.length, fun i ↦
    match list[i]? with
    | some x => .ok x
    | none => .error ⟨i⟩)

theorem Refines.observe_eq [Inhabited V] {items : List V} {s : Slice V}
    (h : Refines items s objects) (id : ℕ) : s.observe id = observeList (objects.list id) := by
  unfold observe observeList
  rw [value_eq h.invariant (h.list id), h.length_eq id]
  congr 2
  funext i
  rw [atIndex_eq, h.list]

/-- In every run, each object observes exactly its own plain list, `At` and `UpdateAt` fail with
`ErrOutOfBounds` exactly from that list's length on, and an operation on one object is invisible
to all others. -/
theorem run_refines_independent_lists [DecidableEq V] [Inhabited V] {items : List V}
    {ops : List (Op V)} {s : Slice V} {objects : Objects V}
    (run : Run (Step items) (Slice.init items, Objects.init items) ops (s, objects)) :
    (∀ id, s.observe id = observeList (objects.list id)) ∧
      (∀ id index, (∃ err, s.atIndex id index = .error err) ↔
        (objects.list id).length ≤ index) ∧
      (∀ id index val, (∃ err, s.updateAt id index val = .error err) ↔
        (objects.list id).length ≤ index) ∧
      ∀ op, objects.Allows op → ∀ other, other ≠ op.target →
        (s.apply op).observe other = s.observe other := by
  have h := refines_run run
  refine ⟨h.observe_eq, fun id index ↦ ?_, fun id index val ↦ ?_, fun op hop other hother ↦ ?_⟩
  · rw [atIndex_eq, ← h.list]
    rcases Nat.lt_or_ge index (objects.list id).length with hlt | hge
    · rw [getElem?_eq_getElem hlt]
      simpa using hlt
    · rw [getElem?_eq_none hge]
      simpa using hge
  · rw [h.length_eq]
    rcases Nat.lt_or_ge index (s.len id) with hlt | hge
    · obtain ⟨t, ht, _⟩ := updateAt_of_lt h.invariant hlt val
      simp [ht, hlt]
    · simp [updateAt_of_le h.invariant hge, hge]
  · rw [(h.apply hop).observe_eq, h.observe_eq, Objects.apply_list_of_ne items objects hother]

/-- A copy is changed and extended; the source keeps the initial items. -/
theorem run_refines_copied_object :
    ∃ s objects, Run (Step [10, 20]) (Slice.init [10, 20], Objects.init [10, 20])
        [.copy 0 1, .updateAt 1 0 30, .append 1 40] (s, objects) ∧
      s.observe 0 = observeList [10, 20] ∧ s.observe 1 = observeList [30, 20, 40] := by
  have hcopy : (Objects.init [10, 20]).Allows (.copy 0 1) := by
    simp [Objects.Allows, Objects.init]
  have run : Run (Step [10, 20]) (init [10, 20], Objects.init [10, 20])
      [.copy 0 1, .updateAt 1 0 30, .append 1 40] _ :=
    (((Run.nil _).snoc ⟨hcopy, rfl⟩).snoc ⟨trivial, rfl⟩).snoc ⟨trivial, rfl⟩
  have hobserve := (run_refines_independent_lists run).1
  exact ⟨_, _, run, hobserve 0, hobserve 1⟩

/-- In every run only objects in use are listed in the slice: a detached one leaves no value. -/
theorem listed_in_use [DecidableEq V] {items : List V} {ops : List (Op V)} {s : Slice V}
    {objects : Objects V} (run : Run (Step items) (.init items, .init items) ops (s, objects))
    {item : MultiValueItem V}
    (hitem : item ∈ s.appendedItems ∨ ∃ i, s.individualItems i = some item)
    {id : ℕ} (hid : id ∈ item.flatMap Value.ids) : id ∈ objects.inUse := by
  by_contra hnot
  have hunused := (refines_run run).unused id hnot
  have hnone : item.valueOf id = none := by
    rcases hitem with hmem | ⟨i, hi⟩
    · obtain ⟨i, hi⟩ := getElem?_of_mem hmem
      simpa [appendedValue, hi] using hunused.appended i
    · simpa [individualValue, hi] using hunused.individual i
  obtain ⟨v, hv, hid⟩ := mem_flatMap.1 hid
  exact MultiValueItem.valueOf_eq_none_iff.1 hnone v hv hid

/-- Two copies append to the slice, and one of them is detached. -/
theorem listed_in_use_detached :
    ∃ s objects, Run (Step [10]) (Slice.init [10], Objects.init [10])
        [.copy 0 1, .append 0 40, .append 1 50, .detach 0] (s, objects) ∧
      0 ∉ objects.inUse ∧ (∃ item ∈ s.appendedItems, 1 ∈ item.flatMap Value.ids) ∧
      1 ∈ objects.inUse := by
  have hcopy : (Objects.init [10]).Allows (.copy 0 1) := by
    simp [Objects.Allows, Objects.init]
  have run : Run (Step [10]) (init [10], Objects.init [10])
      [.copy 0 1, .append 0 40, .append 1 50, .detach 0] _ :=
    ((((Run.nil _).snoc ⟨hcopy, rfl⟩).snoc ⟨trivial, rfl⟩).snoc ⟨trivial, rfl⟩).snoc
      ⟨trivial, rfl⟩
  have hid : 1 ∈ ([⟨50, [1]⟩] : MultiValueItem ℕ).flatMap Value.ids := by decide
  exact ⟨_, _, run, by simp [Objects.apply], ⟨_, mem_cons_self, hid⟩,
    listed_in_use run (.inl mem_cons_self) hid⟩

end Prysm.MultiValueSlice
