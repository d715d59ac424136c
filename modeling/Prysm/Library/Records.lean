import Mathlib.Algebra.Order.Ring.Nat

/-!
# Records of a fixed width

A byte string that is made of records of one width, as data formats pack hashes or equal blocks.
The record at a position is read without looking at the others, and cutting the string at the
multiples of the width gives the records back.
-/

namespace Prysm.Library

open List

variable {α : Type*}

/-- The record at a position. -/
def record (width : ℕ) (bytes : List α) (position : ℕ) : List α :=
  (bytes.drop (position * width)).take width

/-- The records of a string, without a rest that is shorter than a record. -/
def records (width : ℕ) (bytes : List α) : List (List α) :=
  (List.range (bytes.length / width)).map (record width bytes)

variable {width : ℕ} {packed : List (List α)}

section

variable (hwidth : ∀ item ∈ packed, item.length = width)
include hwidth

theorem length_flatten_records : packed.flatten.length = packed.length * width := by
  induction packed with
  | nil => simp
  | cons first rest ih =>
    have hfirst := hwidth first mem_cons_self
    have hrest := ih fun item hitem ↦ hwidth item (mem_cons_of_mem _ hitem)
    rw [flatten_cons, length_append, hfirst, hrest, length_cons, Nat.succ_mul, Nat.add_comm]

variable (n : ℕ)

/-- A string of records is cut at a multiple of the width. -/
theorem flatten_records : packed.flatten.take (n * width) = (packed.take n).flatten ∧
    packed.flatten.drop (n * width) = (packed.drop n).flatten := by
  induction packed generalizing n with
  | nil => simp
  | cons first rest ih =>
    have hfirst := hwidth first mem_cons_self
    obtain ⟨htake, hdrop⟩ := ih (fun item hitem ↦ hwidth item (mem_cons_of_mem _ hitem)) (n - 1)
    cases n with
    | zero => simp
    | succ n =>
      rw [flatten_cons, Nat.succ_mul, Nat.add_comm, ← hfirst, take_length_add_append,
        drop_length_add_append, hfirst]
      rw [Nat.add_sub_cancel] at htake hdrop
      rw [htake, hdrop, take_succ_cons, flatten_cons, drop_succ_cons]
      exact ⟨rfl, rfl⟩

theorem record_flatten {pos : ℕ} {item : List α} (hitem : packed[pos]? = some item) :
    record width packed.flatten pos = item := by
  obtain ⟨hposition, hget⟩ := List.getElem?_eq_some_iff.1 hitem
  have hlen := hwidth item (mem_of_getElem? hitem)
  rw [record, (flatten_records hwidth _).2, drop_eq_getElem_cons hposition, hget,
    flatten_cons, ← hlen, take_left]

end

theorem records_flatten (hpos : 0 < width) (hwidth : ∀ item ∈ packed, item.length = width) :
    records width packed.flatten = packed := by
  rw [records, length_flatten_records hwidth, Nat.mul_div_cancel _ hpos]
  refine ext_getElem? fun pos ↦ ?_
  rw [getElem?_map]
  cases hitem : packed[pos]? with
  | none =>
    have hlen := getElem?_eq_none_iff.1 hitem
    rw [getElem?_eq_none_iff.2 (by rwa [length_range])]
    rfl
  | some item =>
    have hlen := (List.getElem?_eq_some_iff.1 hitem).1
    rw [getElem?_range hlen, Option.map_some, record_flatten hwidth hitem]

/-- Packed records are read as they were written. -/
theorem flatten_injective (hpos : 0 < width) {other : List (List α)}
    (hwidth : ∀ item ∈ packed, item.length = width) (hother : ∀ item ∈ other, item.length = width)
    (heq : packed.flatten = other.flatten) : packed = other := by
  rw [← records_flatten hpos hwidth, heq, records_flatten hpos hother]

end Prysm.Library
