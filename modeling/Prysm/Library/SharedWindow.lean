import Mathlib.Data.Set.Card

/-!
# Windows of shared arrays under reference counters

Holders see windows of arrays: a start, a length, and cells past the end that an append may fill.
Copying a holder shares the array and its counter.  A holder that wants to write first makes the
array its own: it keeps the array if its counter says that nobody else has it, and takes a copy with
a new counter otherwise.  The invariant ties the counters to the holders: a counter counts its
holders, who all have the same window, and an array is never reached through two counters.
-/

namespace Prysm.Library.SharedWindow

open Function Set

variable {K V : Type*}

structure Window where
  array : ℕ
  start : ℕ
  length : ℕ
deriving DecidableEq, Repr

structure Holding where
  window : Window
  counter : ℕ
deriving DecidableEq, Repr

/-- The arrays up to their capacities, the counters, and the windows of the holders.  The addresses
from `next` on are free. -/
structure Heap (K V : Type*) where
  arrays : ℕ → List V
  counts : ℕ → ℕ
  holders : K → Option Holding
  next : ℕ

/-- Where a window comes from: a new array with spare cells, or one that exists. -/
inductive Source (V : Type*)
  | new (contents spare : List V)
  | existing (window : Window)

namespace Heap

def empty : Heap K V where
  arrays := fun _ ↦ []
  counts := fun _ ↦ 0
  holders := fun _ ↦ none
  next := 0

section

variable (heap : Heap K V)
include heap

/-- The cells from the start of the window to the end of its array. -/
def cells (w : Window) : List V := (heap.arrays w.array).drop w.start

def contents (w : Window) : List V := (heap.cells w).take w.length

/-- The holders of a counter. -/
def users (counter : ℕ) : Set K :=
  {k | ∃ h, heap.holders k = some h ∧ h.counter = counter}

/-- Nobody but the given holder has a window of the array. -/
def Exclusive (k : K) (array : ℕ) : Prop :=
  ∀ other h, other ≠ k → heap.holders other = some h → h.window.array ≠ array

def resolve : Source V → Heap K V × Window
  | .new contents spare =>
    ({ heap with
        arrays := update heap.arrays heap.next (contents ++ spare)
        next := heap.next + 1 }, ⟨heap.next, 0, contents.length⟩)
  | .existing window => (heap, window)

/-- Replace the cells from the start of a window on. -/
def write (w : Window) (cells : List V) : Heap K V :=
  { heap with
    arrays := update heap.arrays w.array ((heap.arrays w.array).take w.start ++ cells) }

/-- One holder more for a counter. -/
def acquire (counter : ℕ) : Heap K V :=
  { heap with counts := update heap.counts counter (heap.counts counter + 1) }

/-- One holder less for a counter. -/
def release (counter : ℕ) : Heap K V :=
  { heap with counts := update heap.counts counter (heap.counts counter - 1) }

def newCounter : Heap K V × ℕ :=
  ({ heap with counts := update heap.counts heap.next 1, next := heap.next + 1 }, heap.next)

end

section Operations

variable [DecidableEq K]

section

variable (heap : Heap K V)
include heap

def hold (k : K) (h : Holding) : Heap K V :=
  { heap with holders := update heap.holders k (some h) }

def forget (k : K) : Heap K V :=
  { heap with holders := update heap.holders k none }

/-- A new holder gets a new array under a new counter. -/
def adopt (k : K) (contents : List V) : Heap K V :=
  let (heap, window) := heap.resolve (.new contents [])
  let (heap, counter) := heap.newCounter
  heap.hold k ⟨window, counter⟩

/-- The holder leaves its counter for a new one. -/
def recount (k : K) (h : Holding) : Heap K V × Holding :=
  let (heap, counter) := (heap.release h.counter).newCounter
  (heap.hold k { h with counter := counter }, { h with counter := counter })

/-- The holder gets another window under a new counter. -/
def replace (k : K) (h : Holding) (source : Source V) : Heap K V :=
  let (heap, window) := heap.resolve source
  let (heap, h) := heap.recount k h
  heap.hold k { h with window := window }

/-- The window that the holder may write to, under the counter it has now.  The holder itself still
has its old window. -/
def own (k : K) (h : Holding) (spare : List V) : Heap K V × Holding :=
  if 1 < heap.counts h.counter then
    let (heap, window) := heap.resolve (.new (heap.contents h.window) spare)
    let (heap, h) := heap.recount k h
    (heap, { h with window := window })
  else (heap, h)

/-- Append in place if there is a spare cell, and to a new array otherwise. -/
def push (w : Window) (v : V) (spare : List V) : Heap K V × Window :=
  match (heap.cells w).drop w.length with
  | [] => heap.resolve (.new (heap.contents w ++ [v]) spare)
  | _ :: rest => (heap.write w (heap.contents w ++ v :: rest), { w with length := w.length + 1 })

/-- Another holder gets the same window under the same counter. -/
def share (k k' : K) : Heap K V :=
  match heap.holders k with
  | none => heap
  | some h => (heap.acquire h.counter).hold k' h

def drop (k : K) : Heap K V :=
  match heap.holders k with
  | none => heap
  | some h => (heap.release h.counter).forget k

end

end Operations

/-- The counters count the holders, and an array is reached through one counter only. -/
structure Invariant (heap : Heap K V) : Prop where
  finite : {k | heap.holders k ≠ none}.Finite
  count : ∀ counter, heap.counts counter = (heap.users counter).ncard
  window : ∀ {k k' : K} {h h' : Holding}, heap.holders k = some h → heap.holders k' = some h' →
    h.counter = h'.counter → h.window = h'.window
  counter : ∀ {k k' : K} {h h' : Holding}, heap.holders k = some h → heap.holders k' = some h' →
    h.window.array = h'.window.array → h.counter = h'.counter
  allocated : ∀ {k : K} {h : Holding}, heap.holders k = some h →
    h.window.array < heap.next ∧ h.counter < heap.next

/-- The other holders keep their windows, and the arrays of these windows stay the same. -/
structure Frames (heap heap' : Heap K V) (k : K) : Prop where
  holders : ∀ other ≠ k, heap'.holders other = heap.holders other
  arrays : ∀ other ≠ k, ∀ h, heap.holders other = some h →
    heap'.arrays h.window.array = heap.arrays h.window.array

section Frames

variable {heap heap' heap'' : Heap K V} {k : K} {h : Holding} {w : Window}

theorem Frames.refl (heap : Heap K V) (k : K) : Frames heap heap k :=
  ⟨fun _ _ ↦ rfl, fun _ _ _ _ ↦ rfl⟩

theorem Frames.trans (hfirst : Frames heap heap' k) (hsnd : Frames heap' heap'' k) :
    Frames heap heap'' k where
  holders other hne := (hsnd.holders other hne).trans (hfirst.holders other hne)
  arrays other hne h hh := by
    rw [hsnd.arrays other hne h ((hfirst.holders other hne).trans hh), hfirst.arrays other hne h hh]

theorem Frames.contents (hframes : Frames heap heap' k) {other : K} (hne : other ≠ k)
    (hother : heap.holders other = some h) :
    heap'.holders other = some h ∧ heap'.contents h.window = heap.contents h.window := by
  refine ⟨(hframes.holders other hne).trans hother, ?_⟩
  rw [Heap.contents, Heap.contents, Heap.cells, Heap.cells, hframes.arrays other hne h hother]

theorem Exclusive.frames {array : ℕ} (hexcl : heap.Exclusive k array)
    (hframes : Frames heap heap' k) : heap'.Exclusive k array := by
  intro other h hne hother
  rw [hframes.holders other hne] at hother
  exact hexcl other h hne hother

theorem frames_write (hexcl : heap.Exclusive k w.array) (cells : List V) :
    Frames heap (heap.write w cells) k :=
  ⟨fun _ _ ↦ rfl, fun other hne h hother ↦ update_of_ne (hexcl other h hne hother) _ _⟩

theorem Invariant.frames_resolve (hinv : heap.Invariant) (source : Source V) (k : K) :
    Frames heap (heap.resolve source).1 k := by
  cases source with
  | existing window => exact .refl heap k
  | new contents spare =>
    refine ⟨fun _ _ ↦ rfl, fun other _ h hother ↦ ?_⟩
    exact update_of_ne (hinv.allocated hother).1.ne _ _

variable [DecidableEq K]

theorem frames_hold (heap : Heap K V) (k : K) (h : Holding) : Frames heap (heap.hold k h) k :=
  ⟨fun _ hne ↦ update_of_ne hne _ _, fun _ _ _ _ ↦ rfl⟩

theorem Invariant.frames_adopt (hinv : heap.Invariant) (k : K) (contents : List V) :
    Frames heap (heap.adopt k contents) k :=
  ⟨fun _ hne ↦ update_of_ne hne _ _, fun _ _ _ hother ↦
    update_of_ne (hinv.allocated hother).1.ne _ _⟩

theorem frames_share (heap : Heap K V) (k k' : K) : Frames heap (heap.share k k') k' := by
  unfold Heap.share
  split
  · exact .refl heap k'
  · exact ⟨fun _ hne ↦ update_of_ne hne _ _, fun _ _ _ _ ↦ rfl⟩

theorem frames_drop (heap : Heap K V) (k : K) : Frames heap (heap.drop k) k := by
  unfold Heap.drop
  split
  · exact .refl heap k
  · exact ⟨fun _ hne ↦ update_of_ne hne _ _, fun _ _ _ _ ↦ rfl⟩

theorem frames_recount (heap : Heap K V) (k : K) (h : Holding) :
    Frames heap (heap.recount k h).1 k :=
  ⟨fun _ hne ↦ update_of_ne hne _ _, fun _ _ _ _ ↦ rfl⟩

end Frames

section Counting

variable {heap heap' : Heap K V} {k : K} {h : Holding} {w : Window}

theorem notMem_users (hk : heap.holders k = some h) {counter : ℕ} (hne : h.counter ≠ counter) :
    k ∉ heap.users counter := by
  rintro ⟨h', hk', heq⟩
  rw [hk, Option.some.injEq] at hk'
  exact hne (hk' ▸ heq)

theorem finite_of_update [DecidableEq K] {holding : Option Holding}
    (hfinite : {k | heap.holders k ≠ none}.Finite)
    (hholders : heap'.holders = update heap.holders k holding) :
    {k | heap'.holders k ≠ none}.Finite := by
  apply (hfinite.insert k).subset
  intro other hother
  by_cases heq : other = k
  · exact .inl heq
  · refine .inr ?_
    rwa [mem_ofPred_eq, hholders, update_of_ne heq] at hother

theorem users_of_update [DecidableEq K] (hholders : heap'.holders = update heap.holders k (some h))
    (counter : ℕ) : heap'.users counter =
      if h.counter = counter then insert k (heap.users counter)
      else heap.users counter \ {k} := by
  ext other
  by_cases heq : other = k
  · subst heq
    split_ifs with hcounter
    · simp [users, hholders, hcounter]
    · simp [users, hholders, hcounter]
  · split_ifs with hcounter
    · simp [users, hholders, heq]
    · simp [users, hholders, heq]

variable (hinv : heap.Invariant)
include hinv

theorem Invariant.finite_users (counter : ℕ) : (heap.users counter).Finite := by
  apply hinv.finite.subset
  rintro k ⟨h, hk, -⟩
  simp [hk]

/-- Two holders of one counter are counted. -/
theorem Invariant.one_lt_counts {k' : K} {h' : Holding} (hne : k ≠ k')
    (hk : heap.holders k = some h) (hk' : heap.holders k' = some h')
    (hcounter : h.counter = h'.counter) : 1 < heap.counts h.counter := by
  rw [hinv.count, one_lt_ncard (hinv.finite_users _)]
  exact ⟨k, ⟨h, hk, rfl⟩, k', ⟨h', hk', hcounter.symm⟩, hne⟩

/-- A holder of a counter that counts one holder has its array alone. -/
theorem Invariant.exclusive (hk : heap.holders k = some h)
    (hsole : heap.counts h.counter ≤ 1) : heap.Exclusive k h.window.array := by
  intro other h' hne hother harray
  have hcounter := hinv.counter hk hother harray.symm
  exact absurd (hinv.one_lt_counts hne.symm hk hother hcounter) (not_lt.2 hsole)

theorem Invariant.exclusive_next (k : K) : heap.Exclusive k heap.next :=
  fun _ _ _ hother ↦ (hinv.allocated hother).1.ne

variable [DecidableEq K]

/-- A holder gets a holding whose counter and array nobody else has. -/
theorem Invariant.of_update (hnext : heap.next ≤ heap'.next)
    (hholders : heap'.holders = update heap.holders k (some h))
    (hcount : ∀ counter, heap'.counts counter = (heap'.users counter).ncard)
    (hallocated : h.window.array < heap'.next ∧ h.counter < heap'.next)
    (halone : ∀ other h', other ≠ k → heap.holders other = some h' → h'.counter ≠ h.counter)
    (hexcl : heap.Exclusive k h.window.array) : heap'.Invariant := by
  have hcases {other : K} {h' : Holding} (hother : heap'.holders other = some h') :
      (other = k ∧ h' = h) ∨ (other ≠ k ∧ heap.holders other = some h') := by
    rw [hholders, update_apply] at hother
    split_ifs at hother with heq
    · exact .inl ⟨heq, (Option.some.inj hother).symm⟩
    · exact .inr ⟨heq, hother⟩
  refine ⟨finite_of_update hinv.finite hholders, hcount, fun {k₁ k₂ h₁ h₂} hk₁ hk₂ hsame ↦ ?_,
    fun {k₁ k₂ h₁ h₂} hk₁ hk₂ hsame ↦ ?_, fun {k₁ h₁} hk₁ ↦ ?_⟩
  · obtain ⟨rfl, rfl⟩ | ⟨hne₁, hold₁⟩ := hcases hk₁
    · obtain ⟨rfl, rfl⟩ | ⟨hne₂, hold₂⟩ := hcases hk₂
      · rfl
      · exact absurd hsame.symm (halone k₂ h₂ hne₂ hold₂)
    · obtain ⟨rfl, rfl⟩ | ⟨-, hold₂⟩ := hcases hk₂
      · exact absurd hsame (halone k₁ h₁ hne₁ hold₁)
      · exact hinv.window hold₁ hold₂ hsame
  · obtain ⟨rfl, rfl⟩ | ⟨hne₁, hold₁⟩ := hcases hk₁
    · obtain ⟨rfl, rfl⟩ | ⟨hne₂, hold₂⟩ := hcases hk₂
      · rfl
      · exact absurd hsame.symm (hexcl k₂ h₂ hne₂ hold₂)
    · obtain ⟨rfl, rfl⟩ | ⟨-, hold₂⟩ := hcases hk₂
      · exact absurd hsame (hexcl k₁ h₁ hne₁ hold₁)
      · exact hinv.counter hold₁ hold₂ hsame
  · obtain ⟨-, rfl⟩ | ⟨-, hold₁⟩ := hcases hk₁
    · exact hallocated
    · have := hinv.allocated hold₁
      exact ⟨this.1.trans_le hnext, this.2.trans_le hnext⟩

/-- The holder leaves its counter for a fresh one, with a window of an array that nobody else has.
-/
theorem Invariant.of_recount (hk : heap.holders k = some h) {counter : ℕ}
    (hfresh : heap.next ≤ counter) (hcounts : heap'.counts = update
      (update heap.counts h.counter (heap.counts h.counter - 1)) counter 1)
    (hholders : heap'.holders = update heap.holders k (some ⟨w, counter⟩))
    (hcounter : counter < heap'.next) (hwindow : w.array < heap'.next)
    (hexcl : heap.Exclusive k w.array) : heap'.Invariant := by
  have hold {other : K} {h' : Holding} (hother : heap.holders other = some h') :
      h'.counter ≠ counter := ((hinv.allocated hother).2.trans_le hfresh).ne
  apply hinv.of_update (hfresh.trans hcounter.le) hholders _ ⟨hwindow, hcounter⟩
    (fun other h' _ hother ↦ hold hother) hexcl
  intro other
  rw [users_of_update hholders, hcounts]
  by_cases hnew : counter = other
  · subst hnew
    have hempty : heap.users counter = ∅ := by
      rw [eq_empty_iff_forall_notMem]
      rintro k' ⟨h', hother, heq⟩
      exact hold hother heq
    simp [hempty]
  · rw [if_neg hnew, update_of_ne (Ne.symm hnew)]
    by_cases hleft : h.counter = other
    · subst hleft
      have hmem : k ∈ heap.users h.counter := ⟨h, hk, rfl⟩
      rw [update_self, hinv.count, ncard_sdiff_singleton_of_mem hmem]
    · rw [update_of_ne (Ne.symm hleft), hinv.count, sdiff_singleton_eq_self (notMem_users hk hleft)]

/-- The only holder of a counter gets another window of an array that nobody else has. -/
theorem Invariant.of_rewindow (hk : heap.holders k = some h)
    (hsole : heap.counts h.counter ≤ 1) (hcounts : heap'.counts = heap.counts)
    (hholders : heap'.holders = update heap.holders k (some { h with window := w }))
    (hnext : heap.next ≤ heap'.next) (hwindow : w.array < heap'.next)
    (hexcl : heap.Exclusive k w.array) : heap'.Invariant := by
  apply hinv.of_update hnext hholders _ ⟨hwindow, (hinv.allocated hk).2.trans_le hnext⟩ _ hexcl
  · intro other
    rw [users_of_update hholders, hcounts, hinv.count]
    split_ifs with heq
    · have hmem : k ∈ heap.users other := ⟨h, hk, heq⟩
      rw [insert_eq_of_mem hmem]
    · rw [sdiff_singleton_eq_self (notMem_users hk heq)]
  · intro other h' hne hother heq
    exact absurd (hinv.one_lt_counts hne.symm hk hother heq.symm) (not_lt.2 hsole)

end Counting

section Sharing

variable {heap heap' : Heap K V} {k k' : K} {h : Holding}

theorem Invariant.empty : (Heap.empty : Heap K V).Invariant := by
  refine ⟨?_, fun counter ↦ ?_, ?_, ?_, ?_⟩
  · simp [Heap.empty]
  · simp [Heap.empty, users]
  · simp [Heap.empty]
  · simp [Heap.empty]
  · simp [Heap.empty]

variable (hinv : heap.Invariant)
include hinv

/-- Nobody gets a holding that nobody had before. -/
theorem Invariant.of_source (hfinite : {k | heap'.holders k ≠ none}.Finite)
    (hcount : ∀ counter, heap'.counts counter = (heap'.users counter).ncard)
    (hsrc : ∀ {k h}, heap'.holders k = some h → ∃ source, heap.holders source = some h)
    (hnext : heap.next ≤ heap'.next) : heap'.Invariant := by
  refine ⟨hfinite, hcount, fun hk hk' hsame ↦ ?_, fun hk hk' hsame ↦ ?_, fun hk ↦ ?_⟩
  · obtain ⟨source, hold⟩ := hsrc hk
    obtain ⟨source', hold'⟩ := hsrc hk'
    exact hinv.window hold hold' hsame
  · obtain ⟨source, hold⟩ := hsrc hk
    obtain ⟨source', hold'⟩ := hsrc hk'
    exact hinv.counter hold hold' hsame
  · obtain ⟨source, hold⟩ := hsrc hk
    have := hinv.allocated hold
    exact ⟨this.1.trans_le hnext, this.2.trans_le hnext⟩

variable [DecidableEq K]

theorem Invariant.adopt (hk : heap.holders k = none) (contents : List V) :
    (heap.adopt k contents).Invariant := by
  have hholders : (heap.adopt k contents).holders = update heap.holders k
      (some ⟨⟨heap.next, 0, contents.length⟩, heap.next + 1⟩) := rfl
  have hfresh {other : K} {h : Holding} (hother : heap.holders other = some h) :
      h.counter ≠ heap.next + 1 := ((hinv.allocated hother).2.trans (Nat.lt_succ_self _)).ne
  have hnot (counter : ℕ) : k ∉ heap.users counter := by
    rintro ⟨h, hother, -⟩
    simp [hk] at hother
  refine hinv.of_update (Nat.le_add_right _ 2) hholders (fun counter ↦ ?_)
    ⟨Nat.lt_add_of_pos_right two_pos, Nat.lt_succ_self _⟩ (fun other h _ hother ↦ hfresh hother)
    (hinv.exclusive_next k)
  rw [users_of_update hholders]
  simp only [Heap.adopt, Heap.resolve, Heap.newCounter, Heap.hold, update_apply]
  by_cases heq : counter = heap.next + 1
  · have hempty : heap.users counter = ∅ := by
      rw [eq_empty_iff_forall_notMem]
      rintro other ⟨h, hother, hcounter⟩
      exact hfresh hother (hcounter.trans heq)
    rw [if_pos heq, if_pos heq.symm, hempty]
    simp
  · rw [if_neg heq, if_neg (Ne.symm heq), sdiff_singleton_eq_self (hnot _), hinv.count]

open Heap

theorem Invariant.share (hk' : heap.holders k' = none) : (heap.share k k').Invariant := by
  unfold Heap.share
  split
  · exact hinv
  · rename_i h hk
    have hholders : ((heap.acquire h.counter).hold k' h).holders =
        update heap.holders k' (some h) := rfl
    have hnot (counter : ℕ) : k' ∉ heap.users counter := by
      rintro ⟨h', hother, -⟩
      simp [hk'] at hother
    refine hinv.of_source (finite_of_update hinv.finite hholders) (fun counter ↦ ?_) ?_ le_rfl
    · rw [users_of_update hholders]
      simp only [Heap.hold, acquire, update_apply]
      by_cases heq : counter = h.counter
      · rw [if_pos heq, if_pos heq.symm, ncard_insert_of_notMem (hnot _) (hinv.finite_users _),
          hinv.count, heq]
      · rw [if_neg heq, if_neg (Ne.symm heq), sdiff_singleton_eq_self (hnot _), hinv.count]
    · intro other h' hother
      rw [hholders, update_apply] at hother
      split_ifs at hother
      · exact ⟨k, hother ▸ hk⟩
      · exact ⟨other, hother⟩

theorem Invariant.drop (k : K) : (heap.drop k).Invariant := by
  unfold Heap.drop
  split
  · exact hinv
  · rename_i h hk
    have husers (counter : ℕ) :
        ((heap.release h.counter).forget k).users counter = heap.users counter \ {k} := by
      ext other
      by_cases heq : other = k
      · simp [users, forget, heq]
      · simp [users, forget, release, heq]
    refine hinv.of_source (finite_of_update hinv.finite rfl) (fun counter ↦ ?_) ?_ le_rfl
    · rw [husers]
      simp only [release, forget, update_apply]
      split_ifs with heq
      · have hmem : k ∈ heap.users counter := ⟨h, hk, heq.symm⟩
        rw [ncard_sdiff_singleton_of_mem hmem, ← hinv.count, heq]
      · rw [sdiff_singleton_eq_self (notMem_users hk (Ne.symm heq)), hinv.count]
    · intro other h' hother
      simp only [forget, release, update_apply] at hother
      split_ifs at hother
      exact ⟨other, hother⟩

end Sharing

section Owning

variable [DecidableEq K] {heap heap' : Heap K V} {k : K} {h : Holding} {w : Window}
  {source : Source V}

/-- The holder may write to the window: nobody else has its array, and with this window under its
counter the heap is as it should be. -/
structure Owned (heap : Heap K V) (k : K) (h : Holding) : Prop where
  invariant : (heap.hold k h).Invariant
  sole : heap.counts h.counter ≤ 1

theorem hold_holders (heap : Heap K V) (k : K) (h : Holding) :
    (heap.hold k h).holders k = some h := update_self _ _ _

theorem Owned.exclusive (howned : heap.Owned k h) : heap.Exclusive k h.window.array := by
  have hexcl := howned.invariant.exclusive (hold_holders heap k h) howned.sole
  intro other h' hne hother
  exact hexcl other h' hne ((update_of_ne hne _ _).trans hother)

theorem Invariant.own (hinv : heap.Invariant) (hk : heap.holders k = some h) (spare : List V) :
    (heap.own k h spare).1.Owned k (heap.own k h spare).2 ∧ Frames heap (heap.own k h spare).1 k ∧
      (heap.own k h spare).1.contents (heap.own k h spare).2.window = heap.contents h.window := by
  unfold Heap.own
  split_ifs with hshared
  · have hresolve := hinv.frames_resolve (.new (heap.contents h.window) spare) k
    refine ⟨⟨?_, ?_⟩, hresolve.trans (frames_recount _ k h), ?_⟩
    · exact hinv.of_recount hk (Nat.le_succ _) rfl (update_idem _ _ _)
        (Nat.lt_succ_self _) (Nat.lt_add_of_pos_right two_pos) (hinv.exclusive_next k)
    · simp [recount, Heap.newCounter, Heap.hold]
    · simp [recount, Heap.newCounter, release, Heap.resolve, Heap.contents, Heap.cells, Heap.hold]
  · have hsame : heap.hold k h = heap := by
      rw [Heap.hold, ← hk, update_eq_self]
    exact ⟨⟨hsame.symm ▸ hinv, not_lt.1 hshared⟩, .refl heap k, rfl⟩

theorem Owned.write (howned : heap.Owned k h) (w : Window) (cells : List V) :
    (heap.write w cells).Owned k h := by
  have hinv := howned.invariant
  exact ⟨⟨hinv.finite, hinv.count, hinv.window, hinv.counter, hinv.allocated⟩, howned.sole⟩

/-- The owner of a window may take the given one instead: nobody else has its array. -/
structure Prepares (heap heap' : Heap K V) (k : K) (w : Window) : Prop where
  frames : Frames heap heap' k
  counts : heap'.counts = heap.counts
  next : heap.next ≤ heap'.next
  allocated : w.array < heap'.next
  exclusive : heap.Exclusive k w.array

section

variable (howned : heap.Owned k h)
include howned

theorem Owned.allocated : h.window.array < heap.next :=
  (howned.invariant.allocated (hold_holders heap k h)).1

/-- Another window of the same array. -/
theorem Owned.prepares (harray : w.array = h.window.array) : Prepares heap heap k w :=
  ⟨.refl heap k, rfl, le_rfl, harray ▸ howned.allocated, harray ▸ howned.exclusive⟩

theorem Owned.resolve (hsrc : ∀ window, source = .existing window →
      window.array < heap.next ∧ heap.Exclusive k window.array) :
    Prepares heap (heap.resolve source).1 k (heap.resolve source).2 := by
  cases source with
  | existing window =>
    obtain ⟨hlt, hexcl⟩ := hsrc window rfl
    exact ⟨.refl heap k, rfl, le_rfl, hlt, hexcl⟩
  | new contents spare =>
    have hne {other : K} {h' : Holding} (hne : other ≠ k) (hother : heap.holders other = some h') :
        h'.window.array ≠ heap.next :=
      (howned.invariant.allocated ((update_of_ne hne _ _).trans hother)).1.ne
    refine ⟨⟨fun _ _ ↦ rfl, fun other hother h' hh' ↦ ?_⟩, rfl, Nat.le_succ _, Nat.lt_succ_self _,
      fun other h' hother hh' ↦ hne hother hh'⟩
    exact update_of_ne (hne hother hh') _ _

theorem Owned.push (v : V) (spare : List V) :
    Prepares heap (heap.push h.window v spare).1 k (heap.push h.window v spare).2 := by
  unfold Heap.push
  split
  · exact howned.resolve (by simp)
  · exact ⟨frames_write howned.exclusive _, rfl, le_rfl, howned.allocated, howned.exclusive⟩

/-- The owner takes the window that was prepared for it. -/
theorem Owned.hold (hprepares : Prepares heap heap' k w) :
    (heap'.hold k { h with window := w }).Invariant := by
  refine howned.invariant.of_rewindow (hold_holders heap k h) howned.sole hprepares.counts ?_
    hprepares.next hprepares.allocated (hprepares.exclusive.frames (frames_hold heap k h))
  funext other
  by_cases heq : other = k
  · simp [heq, Heap.hold]
  · simp [heq, Heap.hold, hprepares.frames.holders other heq]

end

theorem Invariant.replace (hinv : heap.Invariant) (hk : heap.holders k = some h)
    (hsrc : ∀ window, source = .existing window →
      window.array < heap.next ∧ heap.Exclusive k window.array) :
    (heap.replace k h source).Invariant ∧ Frames heap (heap.replace k h source) k := by
  have hframes := hinv.frames_resolve source k
  refine ⟨?_, (hframes.trans (frames_recount _ k h)).trans (frames_hold _ k _)⟩
  cases source with
  | new contents spare =>
    exact hinv.of_recount hk (Nat.le_succ _) rfl (update_idem _ _ _)
      (Nat.lt_succ_self _) (Nat.lt_add_of_pos_right two_pos) (hinv.exclusive_next k)
  | existing window =>
    obtain ⟨hlt, hexcl⟩ := hsrc window rfl
    exact hinv.of_recount hk le_rfl rfl (update_idem _ _ _) (Nat.lt_succ_self _)
      (hlt.trans (Nat.lt_succ_self _)) hexcl

end Owning

end Heap

end Prysm.Library.SharedWindow
