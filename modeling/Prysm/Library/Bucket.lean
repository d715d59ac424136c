import Mathlib.Data.List.Sort
import Mathlib.Data.List.TakeWhile

/-!
# Ordered buckets

A bucket of an ordered key-value store: its entries are listed by strictly increasing key, so a key
has at most one value and a cursor visits the keys in order.  The lemmas describe `put`, `delete`,
the deletion of an initial segment by a cursor that starts at the first key, the search by a cursor
that starts at the last key, the cursors that start at a given key and the walks along all keys, in
terms of `get`.
-/

namespace Prysm.Library

open List

/-- Entries in strictly increasing key order. -/
structure Bucket (K V : Type*) [LinearOrder K] where
  entries : List (K × V)
  sorted : entries.Pairwise (fun left right ↦ left.1 < right.1)

namespace Bucket

variable {K V W : Type*} [LinearOrder K]

def empty : Bucket K V := ⟨[], List.Pairwise.nil⟩

/-- The value of the first entry with the given key. -/
def lookup (key : K) : List (K × V) → Option V
  | [] => none
  | entry :: rest => if entry.1 = key then some entry.2 else lookup key rest

/-- Ordered insertion, which replaces the value of a key that is already present. -/
def insertEntry (key : K) (value : V) : List (K × V) → List (K × V)
  | [] => [(key, value)]
  | entry :: rest =>
    if key < entry.1 then (key, value) :: entry :: rest
    else if key = entry.1 then (key, value) :: rest
    else entry :: insertEntry key value rest

variable {value : V} {entries : List (K × V)} {key : K} {entry : K × V}

theorem mem_insertEntry (hentry : entry ∈ insertEntry key value entries) :
    entry = (key, value) ∨ entry ∈ entries := by
  induction entries with
  | nil => simpa [insertEntry] using hentry
  | cons head rest ih =>
    unfold insertEntry at hentry
    split_ifs at hentry with hlt heq
    · simpa using hentry
    · rcases mem_cons.1 hentry with hnew | hrest
      · exact .inl hnew
      · exact .inr (mem_cons_of_mem _ hrest)
    · rcases mem_cons.1 hentry with hhead | hrest
      · exact .inr (by simp [hhead])
      · exact (ih hrest).imp id (mem_cons_of_mem _)

theorem sorted_insertEntry (key : K) (value : V)
    (hsorted : entries.Pairwise (fun left right ↦ left.1 < right.1)) :
    (insertEntry key value entries).Pairwise (fun left right ↦ left.1 < right.1) := by
  induction entries with
  | nil => simp [insertEntry]
  | cons head rest ih =>
    have hhead : ∀ entry ∈ rest, head.1 < entry.1 := (pairwise_cons.1 hsorted).1
    have hrest := (pairwise_cons.1 hsorted).2
    unfold insertEntry
    split_ifs with hlt heq
    · refine pairwise_cons.2 ⟨fun entry hentry ↦ ?_, hsorted⟩
      rcases mem_cons.1 hentry with rfl | hmem
      · exact hlt
      · exact lt_trans hlt (hhead entry hmem)
    · refine pairwise_cons.2 ⟨fun entry hentry ↦ ?_, hrest⟩
      rw [heq]
      exact hhead entry hentry
    · refine pairwise_cons.2 ⟨fun entry hentry ↦ ?_, ih hrest⟩
      rcases mem_insertEntry hentry with rfl | hmem
      · exact lt_of_le_of_ne (not_lt.1 hlt) (Ne.symm heq)
      · exact hhead entry hmem

theorem lookup_insertEntry (key other : K) (value : V) (entries : List (K × V)) :
    lookup other (insertEntry key value entries) =
      if key = other then some value else lookup other entries := by
  induction entries with
  | nil => rfl
  | cons head rest ih =>
    unfold insertEntry
    by_cases hlt : key < head.1
    · simp [lookup, hlt]
    · by_cases heq : key = head.1
      · by_cases hhead : head.1 = other
        · simp [lookup, heq, hhead]
        · simp [lookup, heq, hhead]
      · simp only [hlt, heq, if_false, lookup, ih]
        by_cases hhead : head.1 = other
        · have hkey : key ≠ other := fun h ↦ heq (h.trans hhead.symm)
          simp [hhead, hkey]
        · simp [hhead]

variable (bucket : Bucket K V)

/-- The value of a key, `nil` in the source when the key is absent. -/
def get (key : K) : Option V :=
  lookup key bucket.entries

def put (key : K) (value : V) : Bucket K V :=
  ⟨insertEntry key value bucket.entries, sorted_insertEntry key value bucket.sorted⟩

/-- The entry a cursor finds with `Last`. -/
def last : Option (K × V) :=
  bucket.entries.getLast?

/-- A cursor at the first key deletes entries until one is found that is to be kept. -/
def deleteWhile (delete : K → Bool) : Bucket K V :=
  ⟨bucket.entries.dropWhile (fun entry ↦ delete entry.1),
    bucket.sorted.sublist (dropWhile_sublist _)⟩

/-- A cursor goes backwards from the last key, stops at the first key that is not above `bound`,
and returns the first result that `find` gives for a visited entry. -/
def findFromLast (bound : K) (find : K → V → Option W) : Option W :=
  (bucket.entries.reverse.takeWhile (fun entry ↦ bound < entry.1)).findSome?
    (fun entry ↦ find entry.1 entry.2)

@[simp]
theorem get_empty (key : K) : (empty : Bucket K V).get key = none := rfl

@[simp]
theorem get_put (key other : K) (value : V) :
    (bucket.put key value).get other = if key = other then some value else bucket.get other :=
  lookup_insertEntry key other value bucket.entries

variable {Index : Type*}

theorem get_foldl {step : Bucket K V → Index → Bucket K V} {key : Index → K} {other : K}
    {value : Option V} (hstep : ∀ bucket index,
      (step bucket index).get other = if key index = other then value else bucket.get other)
    (bucket : Bucket K V) (indices : List Index) :
    (indices.foldl step bucket).get other =
      if other ∈ indices.map key then value else bucket.get other := by
  induction indices generalizing bucket with
  | nil => simp
  | cons index indices ih =>
    rw [foldl_cons, ih, hstep]
    by_cases hrest : other ∈ indices.map key
    · simp [hrest]
    · by_cases hidx : key index = other
      · simp [hidx]
      · simp [hrest, hidx, Ne.symm hidx]

theorem get_foldl_put (indices : List Index) (key : Index → K) (value : V) (other : K) :
    (indices.foldl (fun bucket index ↦ bucket.put (key index) value) bucket).get other =
      if other ∈ indices.map key then some value else bucket.get other :=
  get_foldl (fun bucket index ↦ bucket.get_put (key index) other value) bucket indices

/-- Putting several values, each under its own key. -/
theorem get_foldl_put_self (key : V → K) (values : List V) (other : K) :
    (values.foldl (fun bucket value ↦ bucket.put (key value) value) bucket).get other =
      (values.reverse.find? (key · = other)).or (bucket.get other) := by
  induction values generalizing bucket with
  | nil => rfl
  | cons value values ih =>
    rw [foldl_cons, ih, get_put, reverse_cons, find?_append, Option.or_assoc]
    by_cases hkey : key value = other
    · simp [hkey]
    · simp [hkey]

theorem mem_iff_lookup (hsorted : entries.Pairwise (fun left right ↦ left.1 < right.1)) :
    (key, value) ∈ entries ↔ lookup key entries = some value := by
  induction entries with
  | nil => simp [lookup]
  | cons head rest ih =>
    obtain ⟨hhead, hrest⟩ := pairwise_cons.1 hsorted
    rw [lookup, mem_cons, ih hrest]
    split_ifs with hkey
    · subst hkey
      have hnone : lookup head.1 rest ≠ some value := fun hlookup ↦
        (hhead _ ((ih hrest).2 hlookup)).ne rfl
      simp [hnone, Prod.ext_iff, @eq_comm _ value]
    · simp [Prod.ext_iff, Ne.symm hkey]

theorem mem_entries_iff (key : K) (value : V) :
    (key, value) ∈ bucket.entries ↔ bucket.get key = some value := mem_iff_lookup bucket.sorted

theorem nodup_map_filter (p : K × V → Bool) : ((bucket.entries.filter p).map (·.1)).Nodup := by
  refine List.Pairwise.map _ (fun _ _ ↦ id) ?_
  exact (bucket.sorted.filter _).imp fun hlt ↦ ne_of_lt hlt

variable {bucket : Bucket K V} {low start : K}

/-- What is left after the deletion was there before. -/
theorem get_of_get_deleteWhile {delete : K → Bool}
    (hget : (bucket.deleteWhile delete).get key = some value) : bucket.get key = some value := by
  rw [← mem_entries_iff] at hget ⊢
  exact (dropWhile_sublist _).mem hget

/-- Only keys that are to be deleted are lost. -/
theorem get_deleteWhile_of_not {delete : K → Bool} (hkeep : delete key = false) :
    (bucket.deleteWhile delete).get key = bucket.get key := by
  apply Option.ext
  intro value
  refine ⟨get_of_get_deleteWhile, fun hget ↦ ?_⟩
  rw [← mem_entries_iff] at hget ⊢
  rw [← takeWhile_append_dropWhile (p := fun entry ↦ delete entry.1) (l := bucket.entries),
    mem_append] at hget
  rcases hget with hdropped | hkept
  · have hdelete := mem_takeWhile_imp hdropped
    simp [hkeep] at hdelete
  · exact hkept

/-- The initial segment of the items with a property, if no item without it comes before one with
it. -/
theorem takeWhile_eq_filter {Item : Type*} {p : Item → Bool} {items : List Item}
    (hdown : items.Pairwise fun left right ↦ p right = true → p left = true) :
    items.takeWhile p = items.filter p ∧ items.dropWhile p = items.filter (!p ·) := by
  induction items with
  | nil => exact ⟨rfl, rfl⟩
  | cons item items ih =>
    obtain ⟨hitem, hitems⟩ := pairwise_cons.1 hdown
    obtain ⟨htake, hdrop⟩ := ih hitems
    cases hp : p item with
    | true => simp [hp, htake, hdrop]
    | false =>
      have hnone (other : Item) (hother : other ∈ items) : p other = false := by
        simpa [hp] using hitem other hother
      simp +contextual [hp, hnone, filter_eq_nil_iff.2, filter_eq_self.2]

/-- The backwards search fails exactly when no entry above the bound gives a result. -/
theorem findFromLast_eq_none_iff (bucket : Bucket K V) (bound : K) (find : K → V → Option W) :
    bucket.findFromLast bound find = none ↔
      ∀ key value, bucket.get key = some value → bound < key → find key value = none := by
  have hdown : bucket.entries.reverse.Pairwise fun left right ↦
      decide (bound < right.1) = true → decide (bound < left.1) = true :=
    pairwise_reverse.2 (bucket.sorted.imp fun hlt hbound ↦
      decide_eq_true (lt_trans (of_decide_eq_true hbound) hlt))
  rw [findFromLast, (takeWhile_eq_filter hdown).1, findSome?_eq_none_iff]
  simp only [mem_filter, mem_reverse, Prod.forall, mem_entries_iff, decide_eq_true_eq, and_imp]

def delete (bucket : Bucket K V) (key : K) : Bucket K V :=
  ⟨bucket.entries.filter (fun entry ↦ entry.1 ≠ key), bucket.sorted.filter _⟩

@[simp]
theorem get_delete (bucket : Bucket K V) (key other : K) :
    (bucket.delete key).get other = if key = other then none else bucket.get other := by
  apply Option.ext
  intro value
  rw [← mem_entries_iff, delete, mem_filter, mem_entries_iff]
  by_cases hkey : key = other
  · simp [hkey]
  · simp [hkey, Ne.symm hkey]

theorem delete_eq_self {bucket : Bucket K V} {key : K} (hnone : bucket.get key = none) :
    bucket.delete key = bucket := by
  unfold delete
  congr
  refine filter_eq_self.2 fun entry hentry ↦ decide_eq_true ?_
  rintro rfl
  rw [(mem_entries_iff bucket entry.1 entry.2).1 hentry] at hnone
  cases hnone

theorem get_foldl_delete (bucket : Bucket K V) (indices : List Index) (key : Index → K)
    (other : K) :
    (indices.foldl (fun bucket index ↦ bucket.delete (key index)) bucket).get other =
      if other ∈ indices.map key then none else bucket.get other :=
  get_foldl (fun bucket index ↦ bucket.get_delete (key index) other) bucket indices

/-- The entries that satisfy a condition. -/
def filter (bucket : Bucket K V) (p : K → V → Bool) : Bucket K V :=
  ⟨bucket.entries.filter fun entry ↦ p entry.1 entry.2, bucket.sorted.filter _⟩

theorem get_filter (bucket : Bucket K V) (p : K → V → Bool) (key : K) :
    (bucket.filter p).get key = (bucket.get key).filter (p key) := by
  apply Option.ext
  intro value
  rw [← mem_entries_iff, filter, mem_filter, mem_entries_iff, Option.filter_eq_some_iff]

/-- The entries that a cursor visits from the first key that is at least `low` on, up to `high`. -/
def range (bucket : Bucket K V) (low high : K) : List (K × V) :=
  (bucket.entries.dropWhile (fun entry ↦ entry.1 < low)).takeWhile (fun entry ↦ entry.1 ≤ high)

/-- The entries that a cursor visits backwards: it starts at the first key that is at least `key`,
or at the last one if there is none. -/
def backFrom (bucket : Bucket K V) (key : K) : List (K × V) :=
  (bucket.entries.dropWhile (fun entry ↦ entry.1 < key)).take 1 ++
    (bucket.entries.takeWhile (fun entry ↦ entry.1 < key)).reverse

/-- A cursor that starts at a key splits the entries there. -/
theorem takeWhile_lt (bucket : Bucket K V) (low : K) :
    bucket.entries.takeWhile (fun entry ↦ entry.1 < low) =
        bucket.entries.filter (fun entry ↦ entry.1 < low) ∧
      bucket.entries.dropWhile (fun entry ↦ entry.1 < low) =
        bucket.entries.filter (fun entry ↦ !decide (entry.1 < low)) :=
  takeWhile_eq_filter (bucket.sorted.imp fun hlt hright ↦
    decide_eq_true (lt_trans hlt (of_decide_eq_true hright)))

/-- A range is what is stored under the keys between its bounds. -/
theorem mem_range {high : K} :
    (key, value) ∈ bucket.range low high ↔
      bucket.get key = some value ∧ low ≤ key ∧ key ≤ high := by
  have hdown := (bucket.sorted.filter fun entry ↦ !decide (entry.1 < low)).imp
    fun hlt (hright : decide _ = true) ↦
      decide_eq_true (le_trans (le_of_lt hlt) (of_decide_eq_true (p := _ ≤ high) hright))
  rw [range, (bucket.takeWhile_lt low).2, (takeWhile_eq_filter hdown).1, mem_filter, mem_filter,
    mem_entries_iff, and_assoc]
  simp

def keys (bucket : Bucket K V) : List K := bucket.entries.map Prod.fst

theorem mem_keys_iff (bucket : Bucket K V) (key : K) :
    key ∈ bucket.keys ↔ (bucket.get key).isSome := by
  rw [keys, mem_map, Option.isSome_iff_exists]
  constructor
  · rintro ⟨entry, hentry, rfl⟩
    exact ⟨entry.2, (bucket.mem_entries_iff _ _).1 hentry⟩
  · rintro ⟨value, hvalue⟩
    exact ⟨(key, value), (bucket.mem_entries_iff _ _).2 hvalue, rfl⟩

theorem sorted_keys (bucket : Bucket K V) : bucket.keys.Pairwise (· < ·) :=
  pairwise_map.2 bucket.sorted

/-- The order of the keys only depends on which keys there are. -/
theorem keys_congr {other : Bucket K W}
    (hsome : ∀ key, (bucket.get key).isSome = (other.get key).isSome) :
    bucket.keys = other.keys := by
  refine bucket.sorted_keys.eq_of_mem_iff other.sorted_keys fun key ↦ ?_
  rw [mem_keys_iff, mem_keys_iff, hsome]

/-- The entries that a cursor visits from the first key that is at least `low` on. -/
def seek (bucket : Bucket K V) (low : K) : List (K × V) :=
  bucket.entries.dropWhile (fun entry ↦ entry.1 < low)

theorem seek_eq_drop (bucket : Bucket K V) {i : ℕ} {rest : List K}
    (hdrop : bucket.keys.drop i = low :: rest) : bucket.seek low = bucket.entries.drop i := by
  have hsplit := bucket.sorted
  rw [← take_append_drop i bucket.entries, pairwise_append] at hsplit
  rw [keys, ← map_drop] at hdrop
  cases hentries : bucket.entries.drop i with
  | nil => simp [hentries] at hdrop
  | cons first entries =>
    obtain ⟨rfl, -⟩ := List.cons.inj (hentries ▸ hdrop)
    have hbefore (entry : K × V) (hentry : entry ∈ bucket.entries.take i) :
        decide (entry.1 < first.1) = true :=
      decide_eq_true (hsplit.2.2 entry hentry first (hentries ▸ mem_cons_self))
    calc
      bucket.seek first.1 =
          (bucket.entries.take i ++ bucket.entries.drop i).dropWhile (·.1 < first.1) := by
        rw [take_append_drop, seek]
      _ = (first :: entries).dropWhile (·.1 < first.1) := by
        rw [dropWhile_append_of_pos hbefore, hentries]
      _ = first :: entries := dropWhile_cons_of_neg (by simp)

theorem mem_of_mem_backFrom (hmem : (key, value) ∈ bucket.backFrom start) :
    bucket.get key = some value := by
  rw [← mem_entries_iff]
  rcases mem_append.1 hmem with hfirst | hrest
  · exact (dropWhile_sublist _).mem (mem_of_mem_take hfirst)
  · exact (takeWhile_sublist _).mem (mem_reverse.1 hrest)

/-- The keys that are visited backwards decrease. -/
theorem sorted_backFrom (bucket : Bucket K V) (start : K) :
    (bucket.backFrom start).Pairwise (fun left right ↦ right.1 < left.1) := by
  have hsplit := bucket.sorted
  rw [← takeWhile_append_dropWhile (p := fun entry ↦ decide (entry.1 < start))
    (l := bucket.entries), pairwise_append] at hsplit
  refine pairwise_append.2 ⟨?_, pairwise_reverse.2 hsplit.1, fun first hfirst rest hrest ↦
    hsplit.2.2 rest (mem_reverse.1 hrest) first (mem_of_mem_take hfirst)⟩
  cases List.dropWhile (fun entry ↦ decide (entry.1 < start)) bucket.entries with
  | nil => exact List.Pairwise.nil
  | cons first rest => exact pairwise_singleton _ first

/-- Every key up to the start is visited. -/
theorem mem_backFrom (hget : bucket.get key = some value) (hkey : key ≤ start) :
    (key, value) ∈ bucket.backFrom start := by
  rw [← mem_entries_iff] at hget
  rw [backFrom, (bucket.takeWhile_lt start).1, (bucket.takeWhile_lt start).2]
  rcases lt_or_eq_of_le hkey with hlt | rfl
  · exact mem_append_right _ (mem_reverse.2 (mem_filter.2 ⟨hget, decide_eq_true hlt⟩))
  · refine mem_append_left _ ?_
    have hsorted := bucket.sorted.filter fun entry ↦ !decide (entry.1 < key)
    have hmem : (key, value) ∈ bucket.entries.filter fun entry ↦ !decide (entry.1 < key) :=
      mem_filter.2 ⟨hget, by simp⟩
    cases hrest : bucket.entries.filter fun entry ↦ !decide (entry.1 < key) with
    | nil => simp [hrest] at hmem
    | cons first rest =>
      have hfirst := (mem_filter.1 (hrest ▸ mem_cons_self : first ∈ _)).2
      rw [hrest] at hmem hsorted
      rcases mem_cons.1 hmem with heq | hlater
      · simp [← heq]
      · exact absurd ((pairwise_cons.1 hsorted).1 _ hlater) (by simpa using hfirst)

end Bucket

end Prysm.Library
