import Mathlib.Data.List.Perm.Basic
import Mathlib.Data.List.ReduceOption
import Mathlib.Algebra.Order.Ring.Nat

/-!
# Moving deleted entries to the end of an array

Some entries of an array are gone.  `compact` swaps the gone entries at given positions, from the
left, with the last entries that are not gone, from the right.  When the positions are the gone ones
in front of a gone tail, the entries that are left stand in front afterwards, in some order, and
nothing in front of the first position moves.
-/

namespace Prysm.Library

open List Nat

variable {α β : Type*}

/-- The array with two entries exchanged. -/
def swap (l : List α) (i j : ℕ) : List α :=
  match l[i]?, l[j]? with
  | some a, some b => (l.set i b).set j a
  | _, _ => l

theorem map_swap (f : α → β) (l : List α) (i j : ℕ) : (swap l i j).map f = swap (l.map f) i j := by
  unfold swap
  rw [getElem?_map, getElem?_map]
  cases l[i]? with
  | none => rfl
  | some a =>
    cases l[j]? with
    | none => rfl
    | some b => simp [map_set]

variable (gone : α → Bool)

/-- Whether an array has an entry at a position that is gone. -/
def goneAt (l : List α) (i : ℕ) : Bool := l[i]?.any gone

/-- The last position down to a floor whose entry is not gone, or the floor. -/
def skipGone (l : List α) (floor : ℕ) : ℕ → ℕ
  | 0 => 0
  | last + 1 =>
    if floor < last + 1 ∧ goneAt gone l (last + 1) = true then skipGone l floor last else last + 1

/-- Exchange the entries at the positions with the last entries that are not gone. -/
def compact : List ℕ → List α → ℕ → List α
  | [], l, _ => l
  | key :: keys, l, last =>
    let last := skipGone gone l key last
    if key = last then l else compact keys (swap l key last) last

variable {gone} {l items : List α} {last floor key : ℕ} {keys : List ℕ} {entry : α}
  (entries front : List α) (head : α) (count : ℕ) (x : α) (tail : List α)

theorem skipGone_of_lt (hlt : last < floor) : skipGone gone l floor last = last := by
  cases last with
  | zero => rfl
  | succ last => rw [skipGone, if_neg fun h ↦ absurd h.1 (by omega)]

/-- The search from the right passes entries that are gone, and ends at the floor or at an entry
that is not gone. -/
theorem skipGone_spec (gone : α → Bool) (l : List α) (hle : floor ≤ last) :
    ∃ found, skipGone gone l floor last = found ∧ floor ≤ found ∧ found ≤ last ∧
      (∀ i, found < i → i ≤ last → goneAt gone l i = true) ∧
      (found = floor ∨ goneAt gone l found = false) := by
  induction last with
  | zero => exact ⟨0, rfl, hle, le_rfl, by omega, .inl (nonpos_iff_eq_zero.1 hle).symm⟩
  | succ last ih =>
    rw [skipGone]
    split_ifs with hgone
    · obtain ⟨found, hskip, hfloor, hlast, hpassed, hstop⟩ := ih (by omega)
      refine ⟨found, hskip, hfloor, by omega, fun i hi hlt ↦ ?_, hstop⟩
      rcases lt_or_eq_of_le hlt with hlt | rfl
      · exact hpassed i hi (by omega)
      · exact hgone.2
    · exact ⟨_, rfl, hle, le_rfl, by omega, by grind⟩

theorem skipGone_map {gone' : β → Bool} {f : α → β} (hf : ∀ x, gone' (f x) = gone x)
    (key last : ℕ) : skipGone gone' (l.map f) key last = skipGone gone l key last := by
  have hgone (i : ℕ) : goneAt gone' (l.map f) i = goneAt gone l i := by
    rw [goneAt, goneAt, getElem?_map]
    cases l[i]? with
    | none => rfl
    | some x => exact hf x
  induction last with
  | zero => rfl
  | succ last ih => rw [skipGone, skipGone, hgone, ih]

section

variable (keys : List ℕ) (l : List (Option α))

/-- Set the entries at positions to `none`. -/
def clearAll : List (Option α) :=
  keys.foldl (fun l key ↦ l.set key none) l

@[simp]
theorem length_clearAll : (clearAll keys l).length = l.length := by
  induction keys generalizing l with
  | nil => rfl
  | cons key keys ih => exact (ih (l.set key none)).trans length_set

theorem getElem?_clearAll (i : ℕ) :
    (clearAll keys l)[i]? = if i ∈ keys then l[i]?.map fun _ ↦ none else l[i]? := by
  induction keys generalizing l with
  | nil => simp [clearAll]
  | cons key keys ih =>
    rw [show clearAll (key :: keys) l = clearAll keys (l.set key none) from rfl, ih, getElem?_set]
    by_cases heq : key = i
    · rw [if_pos heq, if_pos (mem_cons.2 (.inl heq.symm)), heq]
      rcases lt_or_ge i l.length with hlt | hge
      · simp [hlt]
      · simp [hge]
    · rw [if_neg heq]
      exact if_congr ⟨mem_cons_of_mem key, fun hmem ↦
        (mem_cons.1 hmem).resolve_left (Ne.symm heq)⟩ rfl rfl

end

/-- The entries of an array, with one of them in front. -/
theorem reduceOption_perm_cons {l : List (Option α)} (hentry : l[key]? = some (some entry)) :
    l.reduceOption.Perm (entry :: (l.set key none).reduceOption) := by
  obtain ⟨hlt, hget⟩ := List.getElem?_eq_some_iff.1 hentry
  calc
    l.reduceOption.Perm (some entry :: l.eraseIdx key).reduceOption :=
      (hget ▸ (getElem_cons_eraseIdx_perm hlt).symm).filterMap id
    List.Perm _ (entry :: (l.set key none).reduceOption) :=
      ((set_perm_cons_eraseIdx hlt none).symm.filterMap id).cons entry

/-- The entries at the positions that are cleared, and those that are left. -/
theorem reduceOption_perm_clearAll {l : List (Option α)} {entries : List α} (hnodup : keys.Nodup)
    (hentries : keys.map (l[·]?) = entries.map fun entry ↦ some (some entry)) :
    l.reduceOption.Perm (entries ++ (clearAll keys l).reduceOption) := by
  induction keys generalizing l entries with
  | nil =>
    obtain rfl : entries = [] := by simpa using hentries.symm
    exact .refl _
  | cons key keys ih =>
    cases entries with
    | nil => cases hentries
    | cons entry entries =>
      rw [map_cons, map_cons, cons.injEq] at hentries
      have hnext := @ih (l.set key none) entries (nodup_cons.1 hnodup).2 (by
        rw [← hentries.2]
        refine map_congr_left fun other hother ↦ getElem?_set_ne ?_
        rintro rfl
        exact (nodup_cons.1 hnodup).1 hother)
      exact (reduceOption_perm_cons hentries.1).trans (hnext.cons entry)

theorem getElem?_layout {entries : List α} {count i : ℕ} {entry : α} :
    (entries.map some ++ replicate count none)[i]? = some (some entry) ↔
      entries[i]? = some entry := by
  rw [getElem?_append, length_map]
  split_ifs with hlt
  · simp
  · rw [getElem?_eq_none (not_lt.1 hlt), getElem?_replicate]
    split_ifs <;> simp

theorem exists_picked (hkeys : ∀ key ∈ keys, key < items.length) :
    ∃ picked : List α, keys.map (items[·]?) = picked.map some := by
  refine ⟨keys.pmap (fun key hkey ↦ items[key]) hkeys, ?_⟩
  rw [map_pmap, ← pmap_eq_map hkeys]
  exact pmap_congr_left _ fun _ _ hkey _ ↦ getElem?_eq_getElem hkey

theorem lt_length_of_picked {picked : List α} (hpicked : keys.map (items[·]?) = picked.map some)
    (hkey : key ∈ keys) : key < items.length := by
  have hmem : items[key]? ∈ picked.map some := hpicked ▸ mem_map_of_mem hkey
  obtain ⟨entry, -, hentry⟩ := mem_map.1 hmem
  exact (List.getElem?_eq_some_iff.1 hentry.symm).1

theorem swap_self (l : List α) (i : ℕ) : swap l i i = l := by
  unfold swap
  cases hget : l[i]? with
  | none => rfl
  | some a =>
    obtain ⟨hi, rfl⟩ := List.getElem?_eq_some_iff.1 hget
    dsimp only
    rw [set_getElem_self, set_getElem_self]

theorem getElem?_swap {i j : ℕ} (hi : i < l.length) (hj : j < l.length) (k : ℕ) :
    (swap l i j)[k]? = if k = j then l[i]? else if k = i then l[j]? else l[k]? := by
  rw [swap, getElem?_eq_getElem hi, getElem?_eq_getElem hj]
  grind

theorem swap_perm (l : List α) (i j : ℕ) : (swap l i j).Perm l := by
  unfold swap
  split
  · rename_i a b ha hb
    obtain ⟨hi, rfl⟩ := List.getElem?_eq_some_iff.1 ha
    obtain ⟨hj, rfl⟩ := List.getElem?_eq_some_iff.1 hb
    exact set_set_perm hi hj
  · exact .refl l

theorem lt_length_of_goneAt {i : ℕ} (hgone : goneAt gone l i = true) : i < l.length := by
  by_contra hge
  rw [goneAt, getElem?_eq_none (not_lt.1 hge)] at hgone
  cases hgone

/-- The entries that are gone stand at the end. -/
def GoneLast (gone : α → Bool) (l : List α) : Prop :=
  ∀ i j, goneAt gone l i = true → i ≤ j → j < l.length → goneAt gone l j = true

/-- The loop stops with the entries that are gone at the end.  Before each round an entry that is
gone stands at one of the positions or has only such entries behind it. -/
theorem compact_spec {floor : ℕ} (hsorted : keys.Pairwise (· < ·))
    (hkeys : ∀ key ∈ keys, floor ≤ key ∧ goneAt gone l key = true ∧
      (key ≤ last ∨ goneAt gone l last = true)) (hfloor : floor ≤ last) (hlast : last < l.length)
    (hbehind : ∀ j, last < j → j < l.length → goneAt gone l j = true)
    (htail : ∀ i j, goneAt gone l i = true → i ∉ keys → i ≤ j → j < l.length →
      goneAt gone l j = true) :
    (compact gone keys l last).Perm l ∧
      (compact gone keys l last).take floor = l.take floor ∧
      GoneLast gone (compact gone keys l last) := by
  induction keys generalizing l last with
  | nil => exact ⟨.refl l, rfl, fun i j hi ↦ htail i j hi not_mem_nil⟩
  | cons key keys ih =>
    obtain ⟨hlow, hgone, hcase⟩ := hkeys key mem_cons_self
    obtain ⟨hless, hsorted⟩ := pairwise_cons.1 hsorted
    obtain ⟨found, hskip, hfound, hle, hpassed, hstop⟩ : ∃ found,
        skipGone gone l key last = found ∧ floor ≤ found ∧ found ≤ last ∧
        (∀ j, found < j → j < l.length → goneAt gone l j = true) ∧
        (key < found ∧ goneAt gone l found = false ∨
          found ≤ key ∧ goneAt gone l found = true) := by
      rcases le_or_gt key last with hkey | hkey
      · obtain ⟨found, hskip, hfound, hle, hpassed, hstop⟩ := skipGone_spec gone l hkey
        refine ⟨found, hskip, by omega, hle, fun j hj hlt ↦ ?_, by grind⟩
        rcases le_or_gt j last with hj' | hj'
        · exact hpassed j hj hj'
        · exact hbehind j hj' hlt
      · rw [skipGone_of_lt hkey]
        exact ⟨last, rfl, hfloor, le_rfl, hbehind, .inr ⟨hkey.le, hcase.resolve_left hkey.not_ge⟩⟩
    rw [compact, hskip]
    split_ifs with heq
    · refine ⟨.refl l, rfl, fun i j hi hij hj ↦ ?_⟩
      by_cases hmem : i ∈ key :: keys
      · grind
      · exact htail i j hi hmem hij hj
    have hat (k : ℕ) : goneAt gone (swap l key found) k = if k = found then true else
        if k = key then goneAt gone l found else goneAt gone l k := by
      rw [goneAt, getElem?_swap (lt_length_of_goneAt hgone) (hle.trans_lt hlast)]
      split_ifs
      · exact hgone
      · rfl
      · rfl
    have hlen := (swap_perm l key found).length_eq
    obtain ⟨hperm, htake, hrest⟩ := @ih (swap l key found) found hsorted
      (fun k hk ↦ by
        grind) hfound (by omega) (fun j hj hlt ↦ by grind) (fun i j hi hmem hij hlt ↦ by
        have hstays := htail i found
        grind)
    refine ⟨hperm.trans (swap_perm l key found), htake.trans ?_, hrest⟩
    unfold swap
    split
    · rw [take_set_of_le (by omega), take_set_of_le (by omega)]
    · rfl

/-- An array whose `none`s stand at the end. -/
theorem eq_layout {l : List (Option α)} (htail : GoneLast Option.isNone l) :
    l = l.reduceOption.map some ++ replicate (l.length - l.reduceOption.length) none := by
  induction l with
  | nil => rfl
  | cons head l ih =>
    have hl := ih fun i j hi hij hj ↦
      htail (i + 1) (j + 1) hi (by omega) (by simpa using hj)
    cases head with
    | some x =>
      rw [reduceOption_cons_of_some, map_cons, cons_append, length_cons, length_cons,
        Nat.add_sub_add_right, ← hl]
    | none =>
      have hnone : none :: l = replicate (l.length + 1) none := by
        refine eq_replicate_iff.2 ⟨rfl, fun entry hentry ↦ ?_⟩
        obtain ⟨i, hi, rfl⟩ := getElem_of_mem hentry
        have hgone := htail 0 i rfl (Nat.zero_le i) hi
        rwa [goneAt, getElem?_eq_getElem hi, Option.any_some, Option.isNone_iff_eq_none] at hgone
      rw [hnone]
      simp

/-- Clearing entries behind a front part and compacting the array leaves the front part, then the
other entries in some order. -/
theorem compact_clearAll {front items picked : List α} {count : ℕ} {keys : List ℕ}
    (hsorted : keys.Pairwise (· < ·)) (hpicked : keys.map (items[·]?) = picked.map some) :
    ∃ left, compact Option.isNone (keys.map (· + front.length))
        (clearAll (keys.map (· + front.length)) ((front ++ items).map some ++ replicate count none))
        ((front ++ items).length + count - 1) =
        (front ++ left).map some ++ replicate (count + keys.length) none ∧
      items.Perm (picked ++ left) := by
  have hcount : keys.length = picked.length := by simpa using congrArg length hpicked
  rcases eq_or_ne keys [] with rfl | hne
  · obtain rfl := length_eq_zero_iff.1 hcount.symm
    exact ⟨items, rfl, .refl items⟩
  set base := (front ++ items).map some ++ replicate count none with hbase
  set shifted := keys.map (· + front.length)
  have hinside (key : ℕ) (hkey : key ∈ shifted) :
      front.length ≤ key ∧ key < (front ++ items).length := by
    obtain ⟨key, hmem, rfl⟩ := mem_map.1 hkey
    have hlt := lt_length_of_picked hpicked hmem
    rw [length_append]
    omega
  have hsorted : shifted.Pairwise (· < ·) :=
    pairwise_map.2 (hsorted.imp fun hlt ↦ Nat.add_lt_add_right hlt _)
  have hentries : shifted.map (base[·]?) = picked.map fun entry ↦ some (some entry) := by
    have hmapped := congrArg (map (Option.map some)) hpicked
    rw [map_map, map_map] at hmapped
    rw [map_map]
    refine Eq.trans (map_congr_left fun key hkey ↦ ?_) hmapped
    have hlt := lt_length_of_picked hpicked hkey
    simp [hbase, getElem?_append, hlt]
  have hclear := reduceOption_perm_clearAll (hsorted.imp fun hlt ↦ hlt.ne) hentries
  have hlen : (clearAll shifted base).length = (front ++ items).length + count := by
    rw [length_clearAll, hbase, length_append, length_map, length_replicate]
  have hgone (i : ℕ) : goneAt Option.isNone (clearAll shifted base) i = true ↔
      i < (front ++ items).length + count ∧ (i ∈ shifted ∨ (front ++ items).length ≤ i) := by
    rw [goneAt, getElem?_clearAll, hbase, getElem?_append, length_map, getElem?_replicate]
    rcases lt_or_ge i (front ++ items).length with hlt | hge
    · grind
    · grind
  obtain ⟨key, hkey⟩ := exists_mem_of_ne_nil _ hne
  have hpos := hinside _ (mem_map_of_mem hkey)
  obtain ⟨hperm, htake, htail⟩ := @compact_spec _ Option.isNone (clearAll shifted base)
    ((front ++ items).length + count - 1) shifted front.length hsorted
    (fun key hkey ↦ by
      have hkey' := hinside key hkey
      exact ⟨hkey'.1, (hgone key).2 ⟨by omega, .inl hkey⟩, .inl (by omega)⟩)
    (by omega) (by omega) (by omega) (fun i j hi hmem hij hlt ↦ by
      have hi' := ((hgone i).1 hi).2.resolve_left hmem
      exact (hgone j).2 ⟨by omega, .inr (by omega)⟩)
  set result := compact Option.isNone shifted (clearAll shifted base)
    ((front ++ items).length + count - 1)
  have hfront : (clearAll shifted base).take front.length = front.map some := by
    refine ext_getElem? fun i ↦ ?_
    rw [getElem?_take, getElem?_clearAll, getElem?_map]
    grind
  have hresult : result.reduceOption = front ++ (result.drop front.length).reduceOption := by
    rw [← take_append_drop front.length result, reduceOption_append, htake, hfront]
    simp [reduceOption]
  have hitems : items.Perm (picked ++ (result.drop front.length).reduceOption) := by
    have hitems : base.reduceOption = front ++ items := by simp [hbase, reduceOption]
    refine (perm_append_left_iff front).1 (.trans ?_ (perm_append_comm_assoc ..))
    rw [← hresult, ← hitems]
    exact hclear.trans ((hperm.symm.filterMap id).append_left picked)
  refine ⟨_, (eq_layout htail).trans ?_, hitems⟩
  have hitemsLen := hitems.length_eq
  rw [hresult, hperm.length_eq, hlen]
  congr 2
  simp only [length_append] at hitemsLen ⊢
  omega

/-- Replacing an entry and moving the new one to the front of the entries that are behind a front
part. -/
theorem swap_set_layout (count : ℕ) {k : ℕ} (hk : k < tail.length + 1) :
    swap (((front ++ head :: tail).map some ++ replicate count none).set (k + front.length)
        (some x)) front.length (k + front.length) =
      (front ++ x :: ((head :: tail).set k head).tail).map some ++ replicate count none := by
  refine ext_getElem? fun i ↦ ?_
  rw [getElem?_swap (by simp) (by simp; omega)]
  cases k with
  | zero => grind
  | succ k =>
    grind

/-- The entries behind the front part lose the one that was replaced. -/
theorem perm_set_tail {head : α} {tail : List α} {k : ℕ}
    (hentry : (head :: tail)[k]? = some entry) :
    (head :: tail).Perm (entry :: ((head :: tail).set k head).tail) := by
  cases k with
  | zero =>
    rw [getElem?_cons_zero, Option.some.injEq] at hentry
    rw [hentry]
    exact .refl _
  | succ k =>
    rw [getElem?_cons_succ] at hentry
    obtain ⟨hlt, rfl⟩ := List.getElem?_eq_some_iff.1 hentry
    calc
      (head :: tail).Perm (head :: tail[k] :: tail.eraseIdx k) :=
        (getElem_cons_eraseIdx_perm hlt).symm.cons head
      List.Perm _ (tail[k] :: head :: tail.eraseIdx k) := List.Perm.swap _ _ _
      List.Perm _ (tail[k] :: tail.set k head) := (set_perm_cons_eraseIdx hlt head).symm.cons _

end Prysm.Library
