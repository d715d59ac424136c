import Mathlib.Data.List.Basic

/-!
# The multi-value slice

Objects share one slice.  A value that an object has changed is stored next to the shared value,
together with the ids of the objects that have it; appended values have no shared counterpart, so
an object's appended values fill a gap-free prefix of the appended items.  The definitions follow
`container/multi-value-slice/multi_value_slice.go`.  Maps are functions into `Option`, and a loop
over a map whose iterations do not interact is a pointwise update.
-/

namespace Prysm.MultiValueSlice

open Function

/-- A value along with the ids of the objects that share it. -/
structure Value (V : Type) where
  val : V
  ids : List ℕ
  deriving DecidableEq, Repr

/-- The values that some objects have at one index. -/
abbrev MultiValueItem (V : Type) := List (Value V)

structure Slice (V : Type) where
  sharedItems : List V
  individualItems : ℕ → Option (MultiValueItem V)
  appendedItems : List (MultiValueItem V)
  cachedLengths : ℕ → Option ℕ

/-- `ErrOutOfBounds`, wrapped with the requested index. -/
structure ErrOutOfBounds where
  index : ℕ
  deriving DecidableEq, Repr

/-- The position of the wanted id, if it is present. -/
def containsId (ids : List ℕ) (wanted : ℕ) : Option ℕ :=
  ids.idxOf? wanted

/-- The last element takes the place of the deleted one. -/
def deleteElemFromSlice {T : Type} (s : List T) (i : ℕ) : List T :=
  match s.getLast? with
  | none => s
  | some last => (s.set i last).dropLast

section Items

variable {V : Type}

/-- The value of an object at an item: the loops of `Value`, `At` and `fillOriginalItems`. -/
def MultiValueItem.valueOf (item : MultiValueItem V) (id : ℕ) : Option V :=
  match item with
  | [] => none
  | v :: rest =>
    match containsId v.ids id with
    | some _ => some v.val
    | none => MultiValueItem.valueOf rest id

/-- The first value of the source is shared with the destination: the inner loop of `Copy`. -/
def MultiValueItem.share (item : MultiValueItem V) (src dst : ℕ) : MultiValueItem V × Bool :=
  match item with
  | [] => ([], false)
  | v :: rest =>
    match containsId v.ids src with
    | some _ => ({ v with ids := v.ids ++ [dst] } :: rest, true)
    | none => (v :: (MultiValueItem.share rest src dst).1, (MultiValueItem.share rest src dst).2)

/-- The position of the object's value in the item and of the object's id in that value. -/
def MultiValueItem.position (item : MultiValueItem V) (id : ℕ) : Option (ℕ × ℕ) :=
  match item with
  | [] => none
  | v :: rest =>
    match containsId v.ids id with
    | some foundIndex => some (0, foundIndex)
    | none => (MultiValueItem.position rest id).map fun p ↦ (p.1 + 1, p.2)

/-- The object's value is removed, or only its id when other objects share the value. -/
def MultiValueItem.unshare (item : MultiValueItem V) (id : ℕ) : MultiValueItem V :=
  match item.position id with
  | none => item
  | some (vi, foundIndex) =>
    match item[vi]? with
    | none => item
    | some v =>
      if v.ids.length = 1 then deleteElemFromSlice item vi
      else item.set vi { v with ids := deleteElemFromSlice v.ids foundIndex }

/-- The object joins the first equal value, or gets a new one at the end. -/
def MultiValueItem.join [DecidableEq V] (item : MultiValueItem V) (id : ℕ) (val : V) :
    MultiValueItem V :=
  match item with
  | [] => [{ val := val, ids := [id] }]
  | v :: rest =>
    if v.val = val then { v with ids := v.ids ++ [id] } :: rest
    else v :: MultiValueItem.join rest id val

end Items

namespace Slice

variable {V : Type}

def init (items : List V) : Slice V where
  sharedItems := items
  individualItems := fun _ ↦ none
  appendedItems := []
  cachedLengths := fun _ ↦ none

def len (s : Slice V) (id : ℕ) : ℕ :=
  match s.cachedLengths id with
  | none => s.sharedItems.length
  | some l => l

/-- The loop of `Copy` over the appended items, with its early exit. -/
def copyAppended (src dst : ℕ) : List (MultiValueItem V) → List (MultiValueItem V)
  | [] => []
  | item :: rest =>
    match item.share src dst with
    | (item, true) => item :: copyAppended src dst rest
    | (item, false) => item :: rest

def copy (s : Slice V) (src dst : ℕ) : Slice V where
  sharedItems := s.sharedItems
  individualItems := fun i ↦ (s.individualItems i).map fun item ↦ (item.share src dst).1
  appendedItems := copyAppended src dst s.appendedItems
  cachedLengths :=
    match s.cachedLengths src with
    | none => s.cachedLengths
    | some srcLen => update s.cachedLengths dst (some srcLen)

/-- Assignment to an element of a Go slice; `none` is the out-of-range panic. -/
def assign (l : List V) (i : ℕ) (v : V) : Option (List V) :=
  if i < l.length then some (l.set i v) else none

/-- The original item that the object has at an index whose shared item is `item`. -/
def originalItem (s : Slice V) (id i : ℕ) (item : V) : V :=
  match s.individualItems i with
  | none => item
  | some ind => (ind.valueOf id).getD item

/-- `fillOriginalItems`, from the shared item at index `i` on. -/
def fillOriginalItems (s : Slice V) (id : ℕ) : ℕ → List V → List V → Option (List V)
  | _, [], items => some items
  | i, item :: rest, items =>
    (assign items i (s.originalItem id i item)).bind (fillOriginalItems s id (i + 1) rest)

/-- The loop of `Value` over the appended items, from index `i` on, with its early exit. -/
def fillAppendedItems (id : ℕ) : ℕ → List (MultiValueItem V) → List V → Option (List V)
  | _, [], result => some result
  | i, item :: rest, result =>
    match item.valueOf id with
    | none => some result
    | some val => (assign result i val).bind (fillAppendedItems id (i + 1) rest)

/-- `Value`; `none` is an out-of-range panic. -/
def value [Inhabited V] (s : Slice V) (id : ℕ) : Option (List V) :=
  match s.cachedLengths id with
  | some l =>
    (s.fillOriginalItems id 0 s.sharedItems (List.replicate l default)).bind
      (fillAppendedItems id s.sharedItems.length s.appendedItems)
  | none => s.fillOriginalItems id 0 s.sharedItems (List.replicate s.sharedItems.length default)

def atIndex (s : Slice V) (id index : ℕ) : Except ErrOutOfBounds V :=
  if s.sharedItems.length + s.appendedItems.length ≤ index then .error ⟨index⟩
  else
    match s.sharedItems[index]? with
    | some item => .ok (s.originalItem id index item)
    | none =>
      match (s.appendedItems[index - s.sharedItems.length]?).bind fun item ↦ item.valueOf id with
      | some val => .ok val
      | none => .error ⟨index⟩

variable [DecidableEq V]

section

variable (s : Slice V) (id index : ℕ)

/-- The object's individual value is removed, and a new one is stored unless the new value equals
the shared one. -/
def updateOriginalItem (shared val : V) : Slice V :=
  match s.individualItems index with
  | none =>
    if val = shared then s
    else { s with
      individualItems := update s.individualItems index (some [{ val := val, ids := [id] }]) }
  | some ind =>
    let ind := ind.unshare id
    { s with
      individualItems := update s.individualItems index
        (some (if val = shared then ind else ind.join id val)) }

def updateAppendedItem (val : V) : Except ErrOutOfBounds (Slice V) :=
  let i := index - s.sharedItems.length
  match s.appendedItems[i]? with
  | none => .error ⟨index⟩
  | some item =>
    match item.position id with
    | none => .error ⟨index⟩
    | some _ =>
      .ok { s with appendedItems := s.appendedItems.set i ((item.unshare id).join id val) }

def updateAt (val : V) : Except ErrOutOfBounds (Slice V) :=
  if s.sharedItems.length + s.appendedItems.length ≤ index then .error ⟨index⟩
  else
    match s.sharedItems[index]? with
    | some shared => .ok (s.updateOriginalItem id index shared val)
    | none => s.updateAppendedItem id index val

end

/-- The loop of `Append`: the first item that the object lacks is filled.  `none` means that the
object has a value in every appended item. -/
def fillFirstGap (id : ℕ) (val : V) : List (MultiValueItem V) → Option (List (MultiValueItem V))
  | [] => none
  | item :: rest =>
    match item.position id with
    | none => some (item.join id val :: rest)
    | some _ => (fillFirstGap id val rest).map fun rest ↦ item :: rest

def append (s : Slice V) (id : ℕ) (val : V) : Slice V :=
  if s.appendedItems.length = 0 then
    { s with
      appendedItems := s.appendedItems ++ [[{ val := val, ids := [id] }]]
      cachedLengths := update s.cachedLengths id (some (s.sharedItems.length + 1)) }
  else
    match fillFirstGap id val s.appendedItems with
    | some appendedItems =>
      { s with
        appendedItems := appendedItems
        cachedLengths := update s.cachedLengths id
          (some ((s.cachedLengths id).getD s.sharedItems.length + 1)) }
    | none =>
      { s with
        appendedItems := s.appendedItems ++ [[{ val := val, ids := [id] }]]
        cachedLengths := update s.cachedLengths id
          (some ((s.cachedLengths id).getD 0 + 1)) }

/-- The body of the loop of `Detach` over the individual items; `none` is a deleted map entry. -/
def detachIndividual (id : ℕ) (ind : MultiValueItem V) : Option (MultiValueItem V) :=
  match ind.position id with
  | none => some ind
  | some (vi, _) =>
    match ind[vi]? with
    | none => some ind
    | some v => if v.ids.length = 1 ∧ ind.length = 1 then none else some (ind.unshare id)

/-- The loop of `Detach` over the appended items, with its early exit. -/
def detachAppended (id : ℕ) : List (MultiValueItem V) → List (MultiValueItem V)
  | [] => []
  | item :: rest =>
    match item.position id with
    | none => item :: rest
    | some _ => item.unshare id :: detachAppended id rest

def detach (s : Slice V) (id : ℕ) : Slice V where
  sharedItems := s.sharedItems
  individualItems := fun i ↦ (s.individualItems i).bind (detachIndividual id)
  appendedItems := detachAppended id s.appendedItems
  cachedLengths := update s.cachedLengths id none

end Slice

end Prysm.MultiValueSlice
