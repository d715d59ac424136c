import Mathlib.Data.List.Basic

/-!
# Loops of writes that may fail

A transaction goes through a list of items and writes those that the state does not know yet.  The
write at a position may fail, which ends the loop, and so may the commit at the end.  What the
writes keep holds at the end of the loop, and a loop without a failure knows all its items.  A loop
that fails leaves the state alone if it has nothing to write as long as a failure is to come.
-/

namespace Prysm.Library

open List

section

variable {State Item Failure : Type*} (known : State → Item → Prop)
  [∀ state item, Decidable (known state item)] (write : State → Item → State)
  (fault : ℕ → Item → Option Failure) (commit : Option Failure)

/-- The state at the end of a loop that starts at a position, and its failure. -/
def writeNew : ℕ → List Item → State → State × Option Failure
  | _, [], state => (state, commit)
  | i, item :: items, state =>
    if known state item then writeNew (i + 1) items state
    else match fault i item with
      | some failure => (state, some failure)
      | none => writeNew (i + 1) items (write state item)

variable {known write fault commit} {items : List Item} {state : State} {i : ℕ}

theorem writeNew_invariant (Invariant : State → Prop) (i : ℕ) (hstart : Invariant state)
    (hwrite : ∀ item ∈ items, ∀ state, Invariant state → ¬ known state item →
      Invariant (write state item)) :
    Invariant (writeNew known write fault commit i items state).1 := by
  induction items generalizing i state with
  | nil => exact hstart
  | cons item items ih =>
    have hrest := fun other hother ↦ hwrite other (mem_cons_of_mem _ hother)
    unfold writeNew
    split_ifs with hknown
    · exact ih (i + 1) hstart hrest
    · cases fault i item with
      | some failure => exact hstart
      | none => exact ih (i + 1) (hwrite item mem_cons_self state hstart hknown) hrest

/-- A loop that does not fail knows its items at the end. -/
theorem known_writeNew
    (hkept : ∀ state item other, known state other → known (write state item) other)
    (hnew : ∀ state item, known (write state item) item)
    (hok : (writeNew known write fault commit i items state).2 = none) {item : Item}
    (hitem : item ∈ items) : known (writeNew known write fault commit i items state).1 item := by
  induction items generalizing i state with
  | nil => cases hitem
  | cons first items ih =>
    have hfirst {state : State} (hknown : known state first) :
        known (writeNew known write fault commit (i + 1) items state).1 first :=
      writeNew_invariant (known · first) (i + 1) hknown fun other _ _ h _ ↦ hkept _ other first h
    unfold writeNew at hok ⊢
    split_ifs at hok ⊢ with hknown
    · rcases mem_cons.1 hitem with rfl | hrest
      · exact hfirst hknown
      · exact ih hok hrest
    · cases hfault : fault i first with
      | some failure =>
        rw [hfault] at hok
        cases hok
      | none =>
        rw [hfault] at hok
        rcases mem_cons.1 hitem with rfl | hrest
        · exact hfirst (hnew state item)
        · exact ih hok hrest

theorem writeNew_eq_none (hfault : ∀ n, i ≤ n → ∀ item, fault n item = none)
    (hcommit : commit = none) (items : List Item) (state : State) :
    (writeNew known write fault commit i items state).2 = none := by
  induction items generalizing i state with
  | nil => exact hcommit
  | cons item items ih =>
    have hrest (n : ℕ) (hn : i + 1 ≤ n) := hfault n (Nat.le_of_succ_le hn)
    unfold writeNew
    rw [hfault i (Nat.le_refl i)]
    split_ifs
    · exact ih hrest state
    · exact ih hrest _

/-- `Pending` says from which positions a failure is still to come. -/
theorem writeNew_eq_of_fails (Pending : ℕ → Prop)
    (hpending : ∀ n, ¬ Pending n → commit = none ∧ ∀ m, n < m → ∀ item, fault m item = none)
    (hknown : ∀ k item, items[k]? = some item → Pending (i + k) → known state item)
    (hfails : (writeNew known write fault commit i items state).2 ≠ none) :
    (writeNew known write fault commit i items state).1 = state := by
  induction items generalizing i with
  | nil => rfl
  | cons item items ih =>
    unfold writeNew at hfails ⊢
    split_ifs at hfails ⊢ with hitem
    · refine ih (fun k other hother hk ↦ hknown (k + 1) other hother ?_) hfails
      rwa [Nat.add_comm k, ← Nat.add_assoc]
    · cases hfault : fault i item with
      | some failure => rfl
      | none =>
        -- The item is to be written, so that no failure is to come.
        obtain ⟨hcommit, hlater⟩ := hpending i fun h ↦ hitem (hknown 0 item rfl h)
        rw [hfault] at hfails
        exact absurd (writeNew_eq_none hlater hcommit items _) hfails

end

end Prysm.Library
