import Mathlib.Data.List.Basic

/-!
# Stateful actions that can fail

An action reads and writes a state and ends with a value or with a failure.  A failure keeps the
state the action had reached: a function that returns an error after it has begun to write leaves
what it wrote.

`wp action post` is the weakest precondition of a postcondition on how the action ends and on the
state it ends in.  The rules for the operations of the monad compute it, `wp_foldlM` and `wp_forM`
are the loop rules, and `Preserves` is the special case of a property of states that holds after
the action however it ends.
-/

namespace Prysm.Library

/-- An action on a state, which ends with a value or a failure and with a state in both cases. -/
abbrev Action (State Failure : Type) := ExceptT Failure (StateM State)

namespace Action

variable {State Failure α β : Type} (action : Action State Failure α) {elements : List α}
  {start : β} {body : β → α → Action State Failure β} (failure : Failure)
  (outcome : Except Failure α) (value : α)

/-- How the action ends, and the state it ends in. -/
def runFrom (state : State) : Except Failure α × State :=
  StateT.run (ExceptT.run action) state

/-- The action that only ends, in the given way. -/
def ofExcept (outcome : Except Failure α) : Action State Failure α :=
  fun state ↦ (outcome, state)

/-- The action with its failures returned as values. -/
def attempt : Action State Failure (Except Failure α) :=
  fun state ↦ (.ok (action.runFrom state).1, (action.runFrom state).2)

/-- The action with the way it ends replaced. -/
def mapOutcome (change : Except Failure α → Except Failure β) (action : Action State Failure α) :
    Action State Failure β :=
  fun state ↦ (change (action.runFrom state).1, (action.runFrom state).2)

section

variable (post : Except Failure β → State → Prop) (next : α → State → Prop)

/-- The postcondition of the first of two actions: its value goes on to `next`, its failure is the
failure of both. -/
def whenOk : Except Failure α → State → Prop
  | .ok value => next value
  | .error failure => post (.error failure)

@[simp]
theorem whenOk_ok (value : α) : whenOk post next (.ok value) = next value := rfl

end

/-- The weakest precondition of `post`. -/
def wp (post : Except Failure α → State → Prop) (state : State) : Prop :=
  post (action.runFrom state).1 (action.runFrom state).2

variable {action : Action State Failure α}

section Rules

variable {post : Except Failure α → State → Prop} {state : State} (change : α → β)

@[simp]
theorem wp_pure :
    wp (pure value : Action State Failure α) post state ↔ post (.ok value) state := Iff.rfl

@[simp]
theorem wp_throw :
    wp (throw failure : Action State Failure α) post state ↔ post (.error failure) state := Iff.rfl

@[simp]
theorem wp_get {post : Except Failure State → State → Prop} :
    wp (get : Action State Failure State) post state ↔ post (.ok state) state := Iff.rfl

@[simp]
theorem wp_modify {post : Except Failure PUnit → State → Prop} (change : State → State) :
    wp (modify change : Action State Failure PUnit) post state ↔
      post (.ok ⟨⟩) (change state) := Iff.rfl

@[simp]
theorem wp_ofExcept :
    wp (ofExcept outcome : Action State Failure α) post state ↔ post outcome state := Iff.rfl

@[simp]
theorem wp_attempt {post : Except Failure (Except Failure α) → State → Prop}
    (action : Action State Failure α) :
    wp action.attempt post state ↔ wp action (fun outcome ↦ post (.ok outcome)) state := Iff.rfl

section

variable {post : Except Failure β → State → Prop}

@[simp]
theorem wp_mapOutcome (change : Except Failure α → Except Failure β)
    (action : Action State Failure α) :
    wp (action.mapOutcome change) post state ↔
      wp action (fun outcome ↦ post (change outcome)) state := Iff.rfl

@[simp]
theorem wp_bind (action : Action State Failure α) (next : α → Action State Failure β) :
    wp (action >>= next) post state ↔
      wp action (whenOk post fun value ↦ wp (next value) post) state := by
  have hrun : (action >>= next).runFrom state = match action.runFrom state with
      | (.ok value, middle) => (next value).runFrom middle
      | (.error failure, middle) => (.error failure, middle) := by
    simp only [runFrom, ExceptT.run_bind, StateT.run_bind]
    cases hmid : StateT.run (ExceptT.run action) state with
    | mk outcome middle => cases outcome <;> rfl
  simp only [wp, hrun]
  cases action.runFrom state with
  | mk outcome middle => cases outcome <;> rfl

@[simp]
theorem wp_map (action : Action State Failure α) :
    wp (change <$> action) post state ↔
      wp action (whenOk post fun value ↦ post (.ok (change value))) state := by
  rw [← bind_pure_comp, wp_bind]
  rfl

end

theorem wp_iff :
    wp action post state ↔
      ∀ outcome last, action.runFrom state = (outcome, last) → post outcome last := by
  constructor
  · intro hwp outcome last hrun
    rwa [wp, hrun] at hwp
  · exact fun hpost ↦ hpost _ _ rfl

theorem wp.mono {weaker : Except Failure α → State → Prop} (hwp : wp action post state)
    (himp : ∀ outcome last, post outcome last → weaker outcome last) : wp action weaker state :=
  himp _ _ hwp

theorem wp.and {other : Except Failure α → State → Prop} (hpost : wp action post state)
    (hother : wp action other state) :
    wp action (fun outcome last ↦ post outcome last ∧ other outcome last) state :=
  ⟨hpost, hother⟩

/-- A property of the last state does not depend on what is made of the value. -/
theorem wp.map {Property : State → Prop} (hwp : wp action (fun _ ↦ Property) state) :
    wp (change <$> action) (fun _ ↦ Property) state := by
  rw [wp_map]
  apply hwp.mono
  intro outcome last hlast
  cases outcome with
  | error failure => exact hlast
  | ok value => exact hlast

/-- The rule for a loop that passes a value along.  The invariant speaks of the elements that are
done, and a failing iteration has to establish the postcondition at once. -/
theorem wp_foldlM {post : Except Failure β → State → Prop} (Invariant : List α → β → State → Prop)
    (hstart : Invariant [] start state)
    (hbody : ∀ done element rest value middle, elements = done ++ element :: rest →
      Invariant done value middle →
        wp (body value element) (whenOk post (Invariant (done ++ [element]))) middle)
    (hend : ∀ value last, Invariant elements value last → post (.ok value) last) :
    wp (elements.foldlM body start) post state := by
  suffices hsuffix : ∀ rest done value middle, elements = done ++ rest →
      Invariant done value middle → wp (rest.foldlM body value) post middle from
    hsuffix elements [] start state rfl hstart
  intro rest
  induction rest with
  | nil =>
    intro done value middle helements hinvariant
    rw [List.append_nil] at helements
    exact hend value middle (helements ▸ hinvariant)
  | cons element rest ih =>
    intro done value middle helements hinvariant
    rw [List.foldlM_cons, wp_bind]
    apply (hbody done element rest value middle helements hinvariant).mono
    intro outcome last houtcome
    cases outcome with
    | error failure => exact houtcome
    | ok next => exact ih (done ++ [element]) next last (by simp [helements]) houtcome

theorem forM_eq_foldlM (body : α → Action State Failure PUnit) (elements : List α) :
    elements.forM body = elements.foldlM (fun _ element ↦ body element) ⟨⟩ := by
  induction elements with
  | nil => rfl
  | cons element elements ih =>
    exact congrArg (body element >>= ·) (funext fun _ ↦ ih)

theorem wp_forM {body : α → Action State Failure PUnit} {post : Except Failure PUnit → State → Prop}
    (Invariant : List α → State → Prop) (hstart : Invariant [] state)
    (hbody : ∀ done element rest middle, elements = done ++ element :: rest →
      Invariant done middle →
        wp (body element) (whenOk post fun _ ↦ Invariant (done ++ [element])) middle)
    (hend : ∀ last, Invariant elements last → post (.ok ⟨⟩) last) :
    wp (elements.forM body) post state := by
  rw [forM_eq_foldlM]
  exact wp_foldlM (fun done _ middle ↦ Invariant done middle) hstart
    (fun done element rest _ middle ↦ hbody done element rest middle) fun _ ↦ hend

end Rules

/-- The property holds after the action, however it ends, when it holds before it. -/
def Preserves (Invariant : State → Prop) (action : Action State Failure α) : Prop :=
  ∀ state, Invariant state → wp action (fun _ ↦ Invariant) state

section Preserves

variable {Invariant : State → Prop}

theorem preserves_pure : Preserves Invariant (pure value : Action State Failure α) :=
  fun _ hst ↦ hst

theorem preserves_throw : Preserves Invariant (throw failure : Action State Failure α) :=
  fun _ hst ↦ hst

theorem preserves_ofExcept : Preserves Invariant (ofExcept outcome : Action State Failure α) :=
  fun _ hst ↦ hst

theorem preserves_get : Preserves Invariant (get : Action State Failure State) := fun _ hst ↦ hst

theorem preserves_modify {change : State → State}
    (hchange : ∀ state, Invariant state → Invariant (change state)) :
    Preserves Invariant (modify change : Action State Failure PUnit) :=
  hchange

variable {next : α → Action State Failure β}

/-- What follows an action keeps what holds after it, also when it fails. -/
theorem wp.bind_preserves {state : State} (haction : wp action (fun _ ↦ Invariant) state)
    (hnext : ∀ value, Preserves Invariant (next value)) :
    wp (action >>= next) (fun _ ↦ Invariant) state := by
  rw [wp_bind]
  apply haction.mono
  intro outcome last hlast
  cases outcome with
  | error failure => exact hlast
  | ok value => exact hnext value last hlast

theorem Preserves.bind (haction : Preserves Invariant action)
    (hnext : ∀ value, Preserves Invariant (next value)) : Preserves Invariant (action >>= next) :=
  fun state hst ↦ (haction state hst).bind_preserves hnext

theorem Preserves.mapOutcome {change : Except Failure α → Except Failure β}
    (haction : Preserves Invariant action) : Preserves Invariant (action.mapOutcome change) :=
  haction

theorem Preserves.ite {condition : Prop} [Decidable condition]
    {first second : Action State Failure α}
    (hfirst : Preserves Invariant first) (hsnd : Preserves Invariant second) :
    Preserves Invariant (if condition then first else second) := by
  split_ifs
  · exact hfirst
  · exact hsnd

theorem preserves_foldlM
    (hbody : ∀ value, ∀ element ∈ elements, Preserves Invariant (body value element)) :
    Preserves Invariant (elements.foldlM body start) := by
  intro state hst
  apply wp_foldlM (fun _ _ middle ↦ Invariant middle) hst
  · intro done element rest value middle helements hmid
    apply (hbody value element (by simp [helements]) middle hmid).mono
    intro outcome last hlast
    cases outcome with
    | error failure => exact hlast
    | ok next => exact hlast
  · exact fun _ _ hlast ↦ hlast

theorem preserves_forM {body : α → Action State Failure PUnit}
    (hbody : ∀ element ∈ elements, Preserves Invariant (body element)) :
    Preserves Invariant (elements.forM body) := by
  rw [forM_eq_foldlM]
  exact preserves_foldlM fun _ ↦ hbody

end Preserves

end Action

end Prysm.Library
