import Prysm.MultiValueSlice.Items

/-!
# What each operation of the multi-value slice does

The content of a slice is given by three partial functions: the individual value of an object at
an index, its appended value at a position, and its cached length.  Under the slice invariant
every operation changes these functions for one object only, and the lemmas below say how.
-/

namespace Prysm.MultiValueSlice.Slice

open List Function MultiValueItem Option

variable {V : Type}

def individualValue (s : Slice V) (id i : ℕ) : Option V :=
  (s.individualItems i).bind fun item ↦ item.valueOf id

def appendedValue (s : Slice V) (id i : ℕ) : Option V :=
  (s.appendedItems[i]?).bind fun item ↦ item.valueOf id

/-- What the object observes at an index. -/
def itemAt (s : Slice V) (id i : ℕ) : Option V :=
  match s.sharedItems[i]? with
  | some item => some ((s.individualValue id i).getD item)
  | none => s.appendedValue id (i - s.sharedItems.length)

/-- The object has no value of its own in the slice. -/
structure Unused (s : Slice V) (id : ℕ) : Prop where
  individual : ∀ i, s.individualValue id i = none
  appended : ∀ i, s.appendedValue id i = none
  cached : s.cachedLengths id = none

/-- The slice invariant: items are partial functions, an object observes exactly the indices below
its length, and only objects with appended values have a cached length. -/
structure Invariant (s : Slice V) : Prop where
  individual : ∀ i item, s.individualItems i = some item → item.WellFormed
  appended : ∀ item ∈ s.appendedItems, item.WellFormed
  extent : ∀ id i, (s.itemAt id i).isSome ↔ i < s.len id
  cached : ∀ id l, s.cachedLengths id = some l → s.sharedItems.length < l

theorem originalItem_eq (s : Slice V) (id i : ℕ) (item : V) :
    s.originalItem id i item = (s.individualValue id i).getD item := by
  unfold originalItem individualValue
  cases s.individualItems i <;> rfl

variable {s : Slice V} {items : List (MultiValueItem V)} {item : MultiValueItem V}

theorem itemAt_of_lt {id i : ℕ} (h : i < s.sharedItems.length) :
    s.itemAt id i = some (s.originalItem id i s.sharedItems[i]) := by
  simp [itemAt, originalItem_eq, getElem?_eq_getElem h]

theorem itemAt_of_le {id i : ℕ} (h : s.sharedItems.length ≤ i) :
    s.itemAt id i = s.appendedValue id (i - s.sharedItems.length) := by
  simp [itemAt, getElem?_eq_none h]

theorem len_eq (s : Slice V) (id : ℕ) :
    s.len id = (s.cachedLengths id).getD s.sharedItems.length := by
  unfold len
  cases s.cachedLengths id <;> rfl

section Invariant

variable (h : s.Invariant)
include h

theorem Invariant.shared_le (id : ℕ) : s.sharedItems.length ≤ s.len id := by
  by_contra hlt
  have hsome : (s.itemAt id (s.len id)).isSome := by
    rw [itemAt_of_lt (by omega)]
    rfl
  have := (h.extent id (s.len id)).mp hsome
  omega

/-- The appended values of an object form a prefix of the appended items. -/
theorem Invariant.appendedValue_isSome (id i : ℕ) :
    (s.appendedValue id i).isSome ↔ s.sharedItems.length + i < s.len id := by
  rw [← h.extent, itemAt_of_le (by omega)]
  simp

theorem Invariant.len_le (id : ℕ) : s.len id ≤ s.sharedItems.length + s.appendedItems.length := by
  by_contra hlt
  have hsome := (h.appendedValue_isSome id s.appendedItems.length).mpr (by omega)
  simp [appendedValue] at hsome

/-- An object that lacks a value in one appended item lacks one in all later items. -/
theorem Invariant.gapFree (id : ℕ) :
    s.appendedItems.Pairwise fun earlier later ↦
      earlier.valueOf id = none → later.valueOf id = none := by
  rw [pairwise_iff_getElem]
  intro i j hi hj hij hnone
  by_contra hsome
  have hj' := (h.appendedValue_isSome id j).mp (by
    simpa [appendedValue, getElem?_eq_getElem hj, isSome_iff_ne_none] using hsome)
  have hi' := (h.appendedValue_isSome id i).mpr (by omega)
  simp [appendedValue, getElem?_eq_getElem hi, hnone] at hi'

end Invariant

theorem Unused.itemAt {id : ℕ} (h : s.Unused id) (i : ℕ) : s.itemAt id i = s.sharedItems[i]? := by
  unfold Slice.itemAt
  cases s.sharedItems[i]? with
  | none => exact h.appended _
  | some item => simp [h.individual i]

variable {t : Slice V}

/-- The observations of an object are determined by its three partial functions. -/
theorem itemAt_congr {id o : ℕ} (hshared : t.sharedItems = s.sharedItems)
    (hindividual : ∀ i, t.individualValue id i = s.individualValue o i)
    (happended : ∀ i, t.appendedValue id i = s.appendedValue o i) (i : ℕ) :
    t.itemAt id i = s.itemAt o i := by
  unfold itemAt
  rw [hshared, hindividual, happended]

section Init

theorem init_unused (items : List V) (id : ℕ) : (init items).Unused id where
  individual _ := rfl
  appended i := by simp [appendedValue, init]
  cached := rfl

theorem init_invariant (items : List V) : (init items).Invariant where
  individual i item h := by simp [init] at h
  appended item h := by simp [init] at h
  extent id i := by
    rw [(init_unused items id).itemAt]
    simp [init, len]
  cached id l h := by simp [init] at h

end Init

section Renamed

/-- An object has the values of another one in the earlier slice, or none. -/
structure Renamed (s t : Slice V) (source : ℕ → Option ℕ) : Prop where
  sharedItems : t.sharedItems = s.sharedItems
  individual : ∀ o i, t.individualValue o i = (source o).bind (s.individualValue · i)
  appended : ∀ o i, t.appendedValue o i = (source o).bind (s.appendedValue · i)
  cached : ∀ o, t.cachedLengths o = (source o).bind s.cachedLengths
  individual_wf : ∀ i item, t.individualItems i = some item → item.WellFormed
  appended_wf : ∀ item ∈ t.appendedItems, item.WellFormed

variable {s t : Slice V} {source : ℕ → Option ℕ} {o : ℕ} (hrenamed : s.Renamed t source)
include hrenamed

theorem Renamed.unused (ho : ∀ old, source o = some old → s.Unused old) : t.Unused o := by
  refine ⟨fun i ↦ ?_, fun i ↦ ?_, ?_⟩
  · rw [hrenamed.individual, bind_eq_none_iff]
    exact fun old hold ↦ (ho old hold).individual i
  · rw [hrenamed.appended, bind_eq_none_iff]
    exact fun old hold ↦ (ho old hold).appended i
  · rw [hrenamed.cached, bind_eq_none_iff]
    exact fun old hold ↦ (ho old hold).cached

theorem Renamed.itemAt_of_none (ho : source o = none) (i : ℕ) :
    t.itemAt o i = s.sharedItems[i]? := by
  rw [(hrenamed.unused fun old hold ↦ by simp [ho] at hold).itemAt, hrenamed.sharedItems]

theorem Renamed.itemAt_of_some {old : ℕ} (ho : source o = some old) (i : ℕ) :
    t.itemAt o i = s.itemAt old i := by
  refine itemAt_congr hrenamed.sharedItems (fun j ↦ ?_) (fun j ↦ ?_) i
  · rw [hrenamed.individual, ho, bind_some]
  · rw [hrenamed.appended, ho, bind_some]

theorem Renamed.invariant (h : s.Invariant) : t.Invariant where
  individual := hrenamed.individual_wf
  appended := hrenamed.appended_wf
  extent o i := by
    rw [len_eq, hrenamed.cached, hrenamed.sharedItems]
    cases ho : source o with
    | none => simp [hrenamed.itemAt_of_none ho]
    | some old => rw [hrenamed.itemAt_of_some ho, h.extent, len_eq, bind_some]
  cached o l hl := by
    rw [hrenamed.cached] at hl
    obtain ⟨old, -, hold⟩ := bind_eq_some_iff.mp hl
    rw [hrenamed.sharedItems]
    exact h.cached old l hold

end Renamed

section Copy

theorem share_of_valueOf_eq_none {src dst : ℕ} (h : item.valueOf src = none) :
    (item.share src dst).1 = item := by
  induction item with
  | nil => rfl
  | cons v rest ih =>
    unfold valueOf at h
    unfold share
    grind

/-- The early exit of `Copy` loses nothing: the later items have no value of the source. -/
theorem copyAppended_eq_map {src dst : ℕ}
    (h : items.Pairwise fun earlier later ↦ earlier.valueOf src = none → later.valueOf src = none) :
    copyAppended src dst items = items.map fun item ↦ (item.share src dst).1 := by
  induction items with
  | nil => rfl
  | cons item rest ih =>
    obtain ⟨hhead, htail⟩ := pairwise_cons.mp h
    unfold copyAppended
    cases hfound : (item.share src dst).2 with
    | true =>
      grind
    | false =>
      have hnone : item.valueOf src = none := by
        have hnot : ¬ (item.valueOf src).isSome := by
          rw [← share_found_iff dst, hfound]
          simp
        simpa using hnot
      have hrest : rest.map (fun item ↦ (item.share src dst).1) = rest := by
        refine (map_congr_left fun later hlater ↦ ?_).trans (map_id rest)
        exact share_of_valueOf_eq_none (hhead later hlater hnone)
      grind

variable {s : Slice V} {dst : ℕ} (h : s.Invariant) (hdst : s.Unused dst) (src : ℕ)
include h hdst

theorem individualValue_copy (o i : ℕ) :
    (s.copy src dst).individualValue o i = s.individualValue (if o = dst then src else o) i := by
  have hnone := hdst.individual i
  unfold individualValue at hnone ⊢
  cases hitem : s.individualItems i with
  | none => simp [copy, hitem]
  | some item =>
    simp only [hitem, bind_some] at hnone
    simp [copy, hitem, valueOf_share (h.individual i item hitem) hnone]

theorem appendedValue_copy (o i : ℕ) :
    (s.copy src dst).appendedValue o i = s.appendedValue (if o = dst then src else o) i := by
  have hnone := hdst.appended i
  have hmap : (s.copy src dst).appendedItems =
      s.appendedItems.map fun item ↦ (item.share src dst).1 := copyAppended_eq_map (h.gapFree src)
  unfold appendedValue at hnone ⊢
  rw [hmap, getElem?_map]
  cases hitem : s.appendedItems[i]? with
  | none => simp
  | some item =>
    have hwf := h.appended item (mem_of_getElem? hitem)
    simp only [hitem, bind_some] at hnone
    simp [valueOf_share hwf hnone]

/-- After `Copy` the destination observes what the source observes. -/
theorem renamed_copy : s.Renamed (s.copy src dst) fun o ↦ some (if o = dst then src else o) where
  sharedItems := rfl
  individual := individualValue_copy h hdst src
  appended := appendedValue_copy h hdst src
  cached o := by
    cases hsrc : s.cachedLengths src with
    | none =>
      by_cases heq : o = dst
      · simp [copy, hsrc, heq, hdst.cached]
      · simp [copy, hsrc, heq]
    | some srcLen => by_cases heq : o = dst <;> simp [copy, hsrc, heq]
  individual_wf i item hitem := by
    obtain ⟨old, hold, rfl⟩ := map_eq_some_iff.mp hitem
    refine (h.individual i old hold).share ?_
    simpa [individualValue, hold] using hdst.individual i
  appended_wf item hitem := by
    rw [copy, copyAppended_eq_map (h.gapFree src)] at hitem
    obtain ⟨old, hold, rfl⟩ := mem_map.mp hitem
    refine (h.appended old hold).share ?_
    obtain ⟨i, hi⟩ := getElem?_of_mem hold
    simpa [appendedValue, hi] using hdst.appended i

end Copy

section Detach

variable {s : Slice V} {id : ℕ}

theorem detachAppended_eq_map
    (h : items.Pairwise fun earlier later ↦ earlier.valueOf id = none → later.valueOf id = none) :
    detachAppended id items = items.map fun item ↦ item.unshare id := by
  induction items with
  | nil => rfl
  | cons item rest ih =>
    obtain ⟨hhead, htail⟩ := pairwise_cons.mp h
    unfold detachAppended
    cases hposition : item.position id with
    | some p => simp [ih htail]
    | none =>
      have hnone := position_eq_none_iff.mp hposition
      have hrest : rest.map (fun item ↦ item.unshare id) = rest := by
        refine (map_congr_left fun later hlater ↦ ?_).trans (map_id rest)
        exact unshare_of_valueOf_eq_none (hhead later hlater hnone)
      simp [hrest, unshare_of_valueOf_eq_none hnone]

/-- A deleted map entry and an emptied item hold the same values. -/
theorem detachIndividual_bind {ind : MultiValueItem V} (h : ind.WellFormed) (o : ℕ) :
    ((detachIndividual id ind).bind fun item ↦ item.valueOf o) =
      if o = id then none else ind.valueOf o := by
  rw [← valueOf_unshare h]
  unfold detachIndividual
  cases hposition : ind.position id with
  | none =>
    have hnone := position_eq_none_iff.mp hposition
    simp [unshare_of_valueOf_eq_none hnone]
  | some p =>
    obtain ⟨v, hv, hid⟩ := position_eq_some hposition
    simp only [hv]
    split
    next hone =>
      obtain ⟨w, rfl⟩ := length_eq_one_iff.mp hone.2
      have hzero : p.1 = 0 := by
        grind
      have hunshare : unshare [w] id = [] := by
        simp only [unshare, hposition, hv, hone.1, if_true]
        simp [hzero, deleteElemFromSlice]
      rw [hunshare]
      rfl
    next => rfl

/-- After `Detach` the object observes the shared items again, and nobody else notices. -/
theorem renamed_detach (h : s.Invariant) (id : ℕ) :
    s.Renamed (s.detach id) fun o ↦ if o = id then none else some o where
  sharedItems := rfl
  individual o i := by
    unfold individualValue
    cases hitem : s.individualItems i with
    | none => simp [detach, hitem]
    | some item =>
      simp only [detach, hitem, bind_some]
      rw [detachIndividual_bind (h.individual i item hitem)]
      split <;> rfl
  appended o i := by
    have hmap : (s.detach id).appendedItems = s.appendedItems.map fun item ↦ item.unshare id :=
      detachAppended_eq_map (h.gapFree id)
    unfold appendedValue
    rw [hmap, getElem?_map]
    cases hitem : s.appendedItems[i]? with
    | none => simp
    | some item =>
      simp only [map_some, bind_some]
      rw [valueOf_unshare (h.appended item (mem_of_getElem? hitem))]
      split <;> rfl
  cached o := by
    simp only [detach, update_apply]
    split <;> rfl
  individual_wf i item hitem := by
    obtain ⟨old, hold, hdetach⟩ := bind_eq_some_iff.mp hitem
    have hwf := h.individual i old hold
    unfold detachIndividual at hdetach
    cases hposition : old.position id with
    | none =>
      grind
    | some p =>
      obtain ⟨v, hv, _⟩ := position_eq_some hposition
      simp only [hposition, hv] at hdetach
      split at hdetach
      · simp at hdetach
      · rw [some.injEq] at hdetach
        exact hdetach ▸ hwf.unshare id
  appended_wf item hitem := by
    rw [detach, detachAppended_eq_map (h.gapFree id)] at hitem
    obtain ⟨old, hold, rfl⟩ := mem_map.mp hitem
    exact (h.appended old hold).unshare id

end Detach

section UpdateAt

variable {s : Slice V} {id index : ℕ} {val : V}

/-- What a successful `UpdateAt` changes. -/
structure Updated (s t : Slice V) (id index : ℕ) (val : V) : Prop where
  sharedItems : t.sharedItems = s.sharedItems
  cachedLengths : t.cachedLengths = s.cachedLengths
  itemAt : ∀ o i, t.itemAt o i = if o = id ∧ i = index then some val else s.itemAt o i
  individual_other : ∀ o i, o ≠ id → t.individualValue o i = s.individualValue o i
  appended_other : ∀ o i, o ≠ id → t.appendedValue o i = s.appendedValue o i
  individual_wf : ∀ i item, t.individualItems i = some item → item.WellFormed
  appended_wf : ∀ item ∈ t.appendedItems, item.WellFormed

theorem Updated.invariant (h : s.Invariant) (hidx : index < s.len id)
    (hupd : s.Updated t id index val) : t.Invariant where
  individual := hupd.individual_wf
  appended := hupd.appended_wf
  extent o i := by
    have hlen : t.len o = s.len o := by
      rw [len_eq, len_eq, hupd.cachedLengths, hupd.sharedItems]
    rw [hupd.itemAt, hlen]
    split
    next hand => simp [hand.1, hand.2, hidx]
    next => exact h.extent o i
  cached o l hl := by
    rw [hupd.sharedItems]
    rw [hupd.cachedLengths] at hl
    exact h.cached o l hl

theorem Updated.unused (hupd : s.Updated t id index val) {o : ℕ} (ho : s.Unused o) (hne : o ≠ id) :
    t.Unused o where
  individual i := by rw [hupd.individual_other o i hne, ho.individual]
  appended i := by rw [hupd.appended_other o i hne, ho.appended]
  cached := by rw [hupd.cachedLengths, ho.cached]

variable [DecidableEq V] (h : s.Invariant)
include h

/-- Only the item at the index changes, and only at the object; writing back the shared value
removes the individual one. -/
theorem updateOriginalItem_eq (id index : ℕ) (shared val : V) :
    ∃ new : Option (MultiValueItem V),
      s.updateOriginalItem id index shared val =
          { s with individualItems := Function.update s.individualItems index new } ∧
        (∀ item, new = some item → item.WellFormed) ∧
          ∀ o, (new.bind fun item ↦ item.valueOf o) =
            if o = id then (if val = shared then none else some val)
            else s.individualValue o index := by
  unfold updateOriginalItem
  cases hold : s.individualItems index with
  | none =>
    have hvalue (o : ℕ) : s.individualValue o index = none := by simp [individualValue, hold]
    by_cases hshared : val = shared
    · have hself : Function.update s.individualItems index none = s.individualItems := by
        rw [← hold, update_eq_self]
      refine ⟨none, ?_, by simp, ?_⟩
      · rw [hself, if_pos hshared]
      · simp [hshared, hvalue]
    · refine ⟨some (join [] id val), ?_, ?_, ?_⟩
      · rw [if_neg hshared]
        rfl
      · rintro item ⟨⟩
        exact wellFormed_nil.join rfl
      · intro o
        rw [bind_some, valueOf_join wellFormed_nil rfl, hvalue, if_neg hshared]
        rfl
  | some old =>
    have hwf := h.individual index old hold
    have hvalue (o : ℕ) : s.individualValue o index = old.valueOf o := by
      simp [individualValue, hold]
    refine ⟨_, rfl, ?_, ?_⟩
    · rintro item ⟨⟩
      split
      · exact hwf.unshare id
      · exact (hwf.unshare id).join (valueOf_unshare_self hwf id)
    · intro o
      rw [hvalue, bind_some]
      split
      · rw [valueOf_unshare hwf]
      · rw [valueOf_unshare_join hwf]

theorem updated_updateOriginalItem {shared : V} (hshared : s.sharedItems[index]? = some shared) :
    s.Updated (s.updateOriginalItem id index shared val) id index val := by
  obtain ⟨new, heq, hwf, hvalue⟩ := updateOriginalItem_eq h id index shared val
  rw [heq]
  have hindividual (o i : ℕ) :
      ({ s with individualItems := Function.update s.individualItems index new } :
          Slice V).individualValue o i =
        if o = id ∧ i = index then (if val = shared then none else some val)
        else s.individualValue o i := by
    by_cases hi : i = index
    · subst hi
      simpa [individualValue] using hvalue o
    · simp [individualValue, hi]
  refine ⟨rfl, rfl, fun o i ↦ ?_, fun o i hne ↦ ?_, fun o i _ ↦ rfl, fun i item hitem ↦ ?_,
    h.appended⟩
  · unfold Slice.itemAt
    rw [hindividual]
    by_cases hand : o = id ∧ i = index
    · grind
    · simp only [if_neg hand]
      rfl
  · rw [hindividual, if_neg fun hand ↦ hne hand.1]
  · by_cases hi : i = index
    · exact hwf item (by simpa [hi] using hitem)
    · exact h.individual i item (by simpa [hi] using hitem)

theorem updated_set_appendedItems (id : ℕ) (val : V) {i : ℕ}
    (hitem : s.appendedItems[i]? = some item) :
    s.Updated { s with appendedItems := s.appendedItems.set i ((item.unshare id).join id val) }
      id (s.sharedItems.length + i) val := by
  let t : Slice V :=
    { s with appendedItems := s.appendedItems.set i ((item.unshare id).join id val) }
  have hlt := (List.getElem?_eq_some_iff.mp hitem).1
  have hwf := h.appended item (mem_of_getElem? hitem)
  have happended (o j : ℕ) : t.appendedValue o j =
      if o = id ∧ j = i then some val else s.appendedValue o j := by
    unfold appendedValue
    simp only [t, getElem?_set]
    by_cases hj : i = j
    · subst hj
      simp only [hlt, if_true, bind_some, hitem, and_true]
      rw [valueOf_unshare_join hwf]
    · grind
  refine ⟨rfl, rfl, fun o j ↦ ?_, fun o j _ ↦ rfl, fun o j hne ↦ ?_, h.individual, ?_⟩
  · rcases Nat.lt_or_ge j s.sharedItems.length with hj | hj
    · have hne : ¬ (o = id ∧ j = s.sharedItems.length + i) := by omega
      rw [if_neg hne, itemAt_of_lt (s := t) hj, itemAt_of_lt hj]
      rfl
    · rw [itemAt_of_le (s := t) hj, itemAt_of_le hj, happended]
      grind
  · grind
  · intro new hnew
    rcases mem_or_eq_of_mem_set hnew with hold | rfl
    · exact h.appended new hold
    · exact (hwf.unshare id).join (valueOf_unshare_self hwf id)

/-- `UpdateAt` succeeds on exactly the indices below the object's length. -/
theorem updateAt_of_lt (hidx : index < s.len id) (val : V) :
    ∃ t, s.updateAt id index val = .ok t ∧ s.Updated t id index val := by
  have hbound := h.len_le id
  unfold updateAt
  rw [if_neg (by omega)]
  cases hshared : s.sharedItems[index]? with
  | some shared => exact ⟨_, rfl, updated_updateOriginalItem h hshared⟩
  | none =>
    have hle : s.sharedItems.length ≤ index := getElem?_eq_none_iff.mp hshared
    have hsome : (s.appendedValue id (index - s.sharedItems.length)).isSome := by
      rw [h.appendedValue_isSome]
      omega
    obtain ⟨x, hx⟩ := isSome_iff_exists.mp hsome
    obtain ⟨item, hitem, hvalue⟩ := bind_eq_some_iff.mp hx
    have hposition : item.position id ≠ none := by
      rw [Ne, position_eq_none_iff, hvalue]
      simp
    obtain ⟨p, hp⟩ := ne_none_iff_exists'.mp hposition
    have hupd := updated_set_appendedItems h id val hitem
    rw [Nat.add_sub_cancel' hle] at hupd
    refine ⟨_, ?_, hupd⟩
    simp only [updateAppendedItem, hitem, hp]

theorem updateAt_of_le (hidx : s.len id ≤ index) : s.updateAt id index val = .error ⟨index⟩ := by
  have hshared := h.shared_le id
  unfold updateAt
  split
  · rfl
  · rw [getElem?_eq_none (by omega)]
    have hnone : s.appendedValue id (index - s.sharedItems.length) = none := by
      have := h.appendedValue_isSome id (index - s.sharedItems.length)
      rw [← not_isSome_iff_eq_none, this]
      omega
    cases hitem : s.appendedItems[index - s.sharedItems.length]? with
    | none => simp only [updateAppendedItem, hitem]
    | some item =>
      have hvalue : item.valueOf id = none := by simpa [appendedValue, hitem] using hnone
      simp only [updateAppendedItem, hitem, position_eq_none_iff.mpr hvalue]

end UpdateAt

section Append

variable {s t : Slice V} {id : ℕ} {val : V}

/-- What `Append` changes: the object gets a value at its first free position. -/
structure Appended (s t : Slice V) (id : ℕ) (val : V) : Prop where
  sharedItems : t.sharedItems = s.sharedItems
  individualItems : t.individualItems = s.individualItems
  appendedValue : ∀ o i, t.appendedValue o i =
    if o = id ∧ s.sharedItems.length + i = s.len id then some val else s.appendedValue o i
  cachedLengths : t.cachedLengths = Function.update s.cachedLengths id (some (s.len id + 1))
  appended_wf : ∀ item ∈ t.appendedItems, item.WellFormed

/-- The position of the first gap, when every item before it is filled. -/
theorem Invariant.len_eq_of_gap (h : s.Invariant) (front back : List (MultiValueItem V))
    (hitems : s.appendedItems = front ++ back) (hfront : ∀ item ∈ front, item.valueOf id ≠ none)
    (hgap : valueOf (back.head?.getD []) id = none) :
    s.len id = s.sharedItems.length + front.length := by
  have hshared := h.shared_le id
  have hbelow : s.sharedItems.length + front.length ≤ s.len id := by
    rcases Nat.eq_zero_or_pos front.length with hzero | hpos
    · omega
    · have hlast : front.length - 1 < front.length := by omega
      have hsome := h.appendedValue_isSome id (front.length - 1)
      have hvalue := hfront front[front.length - 1] (getElem_mem hlast)
      have := hsome.mp (by
        rw [appendedValue, hitems, getElem?_append_left hlast, getElem?_eq_getElem hlast]
        simpa [isSome_iff_ne_none] using hvalue)
      omega
  have habove : s.len id ≤ s.sharedItems.length + front.length := by
    by_contra hlt
    have hsome := (h.appendedValue_isSome id front.length).mpr (by omega)
    rw [appendedValue, hitems, getElem?_append_right (Nat.le_refl _), Nat.sub_self,
      ← head?_eq_getElem?] at hsome
    cases hhead : back.head? <;> simp_all
  omega

theorem Appended.len (happended : s.Appended t id val) (o : ℕ) :
    t.len o = if o = id then s.len id + 1 else s.len o := by
  rw [len_eq, happended.cachedLengths, happended.sharedItems, update_apply]
  split
  · rfl
  · rw [len_eq]

/-- After `Append` the object observes one more item, and nobody else notices. -/
theorem Appended.itemAt (h : s.Invariant) (happended : s.Appended t id val) (o i : ℕ) :
    t.itemAt o i = if o = id ∧ i = s.len id then some val else s.itemAt o i := by
  have hshared := h.shared_le id
  rcases Nat.lt_or_ge i s.sharedItems.length with hi | hi
  · rw [if_neg (by omega)]
    unfold Slice.itemAt individualValue
    rw [happended.sharedItems, happended.individualItems, getElem?_eq_getElem hi]
  · rw [itemAt_of_le (by rw [happended.sharedItems]; exact hi), itemAt_of_le hi,
      happended.appendedValue, happended.sharedItems]
    grind

theorem Appended.invariant (h : s.Invariant) (happended : s.Appended t id val) : t.Invariant where
  individual i item hitem := h.individual i item (by rwa [happended.individualItems] at hitem)
  appended := happended.appended_wf
  extent o i := by
    have hold := h.extent o i
    rw [happended.itemAt h, happended.len]
    by_cases ho : o = id
    · grind
    · rw [if_neg (by omega), if_neg ho, hold]
  cached o l hl := by
    rw [happended.cachedLengths, update_apply] at hl
    rw [happended.sharedItems]
    split at hl
    · have := h.shared_le id
      rw [some.injEq] at hl
      omega
    · exact h.cached o l hl

theorem Appended.unused (happended : s.Appended t id val) {o : ℕ} (ho : s.Unused o)
    (hne : o ≠ id) : t.Unused o where
  individual i := by
    rw [individualValue, happended.individualItems]
    exact ho.individual i
  appended i := by rw [happended.appendedValue, if_neg fun hand ↦ hne hand.1, ho.appended]
  cached := by rw [happended.cachedLengths, update_of_ne hne, ho.cached]

variable [DecidableEq V]

/-- The items up to the first gap, and those from there on.  A new item at the end fills the gap of
an empty one. -/
theorem fillFirstGap_eq (id : ℕ) (val : V) (items : List (MultiValueItem V)) :
    ∃ front back, items = front ++ back ∧ (∀ item ∈ front, item.valueOf id ≠ none) ∧
      valueOf (back.head?.getD []) id = none ∧
      fillFirstGap id val items = if back = [] then none
        else some (front ++ join (back.head?.getD []) id val :: back.tail) := by
  induction items with
  | nil => exact ⟨[], [], rfl, by simp, rfl, rfl⟩
  | cons item rest ih =>
    unfold fillFirstGap
    cases hposition : item.position id with
    | none => exact ⟨[], item :: rest, rfl, by simp, position_eq_none_iff.mp hposition, by simp⟩
    | some p =>
      obtain ⟨front, back, rfl, hfront, hgap, hfill⟩ := ih
      have hitem : item.valueOf id ≠ none := by
        rw [Ne, ← position_eq_none_iff, hposition]
        simp
      refine ⟨item :: front, back, rfl, forall_mem_cons.mpr ⟨hitem, hfront⟩, hgap, ?_⟩
      simp only [hfill]
      split <;> rfl

variable (h : s.Invariant)
include h

theorem appended_gap {front back : List (MultiValueItem V)} (val : V)
    (hitems : s.appendedItems = front ++ back)
    (hlen : s.len id = s.sharedItems.length + front.length)
    (hgap : valueOf (back.head?.getD []) id = none) :
    s.Appended
      { s with
        appendedItems := front ++ join (back.head?.getD []) id val :: back.tail
        cachedLengths := Function.update s.cachedLengths id (some (s.len id + 1)) } id val := by
  have hwf : WellFormed (back.head?.getD []) := by
    cases back with
    | nil => exact wellFormed_nil
    | cons gap back => exact h.appended gap (by simp [hitems])
  refine ⟨rfl, rfl, fun o i ↦ ?_, rfl, ?_⟩
  · unfold appendedValue
    rw [hitems]
    rcases Nat.lt_trichotomy i front.length with hi | hi | hi
    · grind
    · subst hi
      have hiff : (o = id ∧ s.sharedItems.length + front.length = s.len id) ↔ o = id := by omega
      rw [getElem?_append_right (Nat.le_refl _), getElem?_append_right (Nat.le_refl _),
        Nat.sub_self]
      simp only [getElem?_cons_zero, bind_some, hiff, valueOf_join hwf hgap]
      cases back <;> rfl
    · cases back <;> grind
  · intro item hitem
    rcases mem_append.mp hitem with hold | hnew
    · exact h.appended item (by simp [hitems, hold])
    · rcases mem_cons.mp hnew with rfl | hold
      · exact hwf.join hgap
      · exact h.appended item (by simp [hitems, mem_of_mem_tail hold])

theorem appended_append (id : ℕ) (val : V) : s.Appended (s.append id val) id val := by
  obtain ⟨front, back, hitems, hfront, hgap, hfill⟩ := fillFirstGap_eq id val s.appendedItems
  have hlen := h.len_eq_of_gap front back hitems hfront hgap
  have happended := appended_gap h val hitems hlen hgap
  unfold append
  split
  next hzero =>
    obtain ⟨rfl, rfl⟩ : front = [] ∧ back = [] := by simpa [hitems] using hzero
    rw [hitems, ← show s.len id = s.sharedItems.length from hlen]
    exact happended
  next hpos =>
    rw [hfill]
    by_cases hback : back = []
    · subst hback
      rw [append_nil] at hitems
      have hcached : (s.cachedLengths id).getD 0 = s.len id := by
        rw [len_eq] at hlen ⊢
        cases hold : s.cachedLengths id with
        | some l => rfl
        | none => grind
      simp only [if_true, hcached]
      rw [hitems]
      exact happended
    · simp only [if_neg hback, ← len_eq]
      exact happended

end Append

end Prysm.MultiValueSlice.Slice
