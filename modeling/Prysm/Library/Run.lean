import Mathlib.Data.List.Basic

/-!
# Finite runs of a labelled step relation

Every component of the client is modelled by a step relation between states.  A run is a finite
sequence of such steps, and a property that one step keeps is kept by the whole run.  The second
invariant rule also remembers which steps were taken, for properties that relate a state to the
history that led to it.

A component that answers calls deterministically is a function `apply` from a state and a call to a
label and the next state.  `CallStep` turns it into a step relation, with a condition on the calls
that may be made, and `execute` computes the run of a list of calls.
-/

namespace Prysm.Library

open List

variable {State Label : Type*} (Invariant : State → Prop)

/-- A finite run of `step`, with the labels of its steps in the order in which they were taken. -/
inductive Run (step : State → Label → State → Prop) : State → List Label → State → Prop
  | nil (start : State) : Run step start [] start
  | snoc {start middle last : State} {labels : List Label} {label : Label} :
      Run step start labels middle → step middle label last →
        Run step start (labels ++ [label]) last

namespace Run

variable {step : State → Label → State → Prop} {start last : State} {labels : List Label}

/-- A property of states that every step keeps holds at the end of every run. -/
theorem invariant (run : Run step start labels last) (hstart : Invariant start)
    (hstep : ∀ state label next, Invariant state → step state label next → Invariant next) :
    Invariant last := by
  induction run with
  | nil => exact hstart
  | snoc _ hlast ih => exact hstep _ _ _ ih hlast

/-- A property of states and histories that every step keeps holds at the end of every run. -/
theorem history_invariant (Invariant : List Label → State → Prop) (run : Run step start labels last)
    (hstart : Invariant [] start)
    (hstep : ∀ history state label next, Invariant history state → step state label next →
      Invariant (history ++ [label]) next) : Invariant labels last := by
  induction run with
  | nil => exact hstart
  | snoc _ hlast ih => exact hstep _ _ _ _ ih hlast

theorem cons {first : State} {label : Label} (hfirst : step first label start)
    (run : Run step start labels last) : Run step first (label :: labels) last := by
  induction run with
  | nil => exact snoc (nil first) hfirst
  | snoc _ hlast ih => exact snoc ih hlast

end Run

section Calls

variable {Call : Type*} (apply : State → Call → Label × State) (Allowed : State → Call → Prop)

/-- One call that the condition allows in the state before it. -/
def CallStep (state : State) (label : Label) (next : State) : Prop :=
  ∃ call, Allowed state call ∧ apply state call = (label, next)

/-- The labels and the last state of a list of calls. -/
def execute : State → List Call → List Label × State
  | state, [] => ([], state)
  | state, call :: calls =>
    let rest := execute (apply state call).2 calls
    ((apply state call).1 :: rest.1, rest.2)

/-- The condition allows every call of the list, each in the state before it. -/
def AllAllowed : State → List Call → Prop
  | _, [] => True
  | state, call :: calls => Allowed state call ∧ AllAllowed (apply state call).2 calls

instance decidableAllAllowed [∀ state call, Decidable (Allowed state call)] :
    ∀ state calls, Decidable (AllAllowed apply Allowed state calls)
  | _, [] => inferInstanceAs (Decidable True)
  | state, call :: calls =>
    have := decidableAllAllowed (apply state call).2 calls
    inferInstanceAs (Decidable (Allowed state call ∧ AllAllowed apply Allowed _ calls))

theorem run_execute (start : State) (calls : List Call)
    (hallowed : AllAllowed apply Allowed start calls) :
    Run (CallStep apply Allowed) start (execute apply start calls).1
      (execute apply start calls).2 := by
  induction calls generalizing start with
  | nil => exact Run.nil start
  | cons call calls ih => exact (ih _ hallowed.2).cons ⟨call, hallowed.1, rfl⟩

end Calls

/-- A property of states that every allowed call keeps holds at the end of every run. -/
theorem Run.call_invariant {Call : Type*} {apply : State → Call → Label × State}
    {Allowed : State → Call → Prop} {start last : State} {labels : List Label}
    (run : Run (CallStep apply Allowed) start labels last) (hstart : Invariant start)
    (hcall : ∀ state call, Invariant state → Allowed state call → Invariant (apply state call).2) :
    Invariant last := by
  apply run.invariant Invariant hstart
  rintro state label next hst ⟨call, hallowed, happly⟩
  have hnext := hcall state call hst hallowed
  rwa [happly] at hnext

section Answers

variable {Call Answer : Type*}

/-- A component that serves calls, with every call and its answer as the label of the step. -/
def answer (serve : State → Call → Answer × State) (state : State) (call : Call) :
    (Call × Answer) × State :=
  ((call, (serve state call).1), (serve state call).2)

/-- A property of states and of the calls with their answers that every allowed call keeps holds at
the end of every run. -/
theorem Run.answered_invariant {serve : State → Call → Answer × State}
    {Allowed : State → Call → Prop} {start last : State} {labels : List (Call × Answer)}
    (Invariant : List (Call × Answer) → State → Prop)
    (run : Run (CallStep (answer serve) Allowed) start labels last) (hstart : Invariant [] start)
    (hserve : ∀ history state call, Invariant history state → Allowed state call →
      Invariant (history ++ [(call, (serve state call).1)]) (serve state call).2) :
    Invariant labels last := by
  apply run.history_invariant Invariant hstart
  rintro history state label next hst ⟨call, hallowed, hanswer⟩
  have hnext := hserve history state call hst hallowed
  obtain ⟨rfl, rfl⟩ := Prod.mk.inj hanswer
  exact hnext

end Answers

/-- A loop over a list succeeds when every iteration does and keeps an invariant of the elements
that are done. -/
theorem exists_foldlM_eq_ok {Failure : Type*} (body : State → Label → Except Failure State)
    (labels : List Label) (start : State) (Invariant : List Label → State → Prop)
    (hstart : Invariant [] start)
    (hbody : ∀ done label rest state, labels = done ++ label :: rest → Invariant done state →
      ∃ next, body state label = .ok next ∧ Invariant (done ++ [label]) next) :
    ∃ last, labels.foldlM body start = .ok last ∧ Invariant labels last := by
  suffices hsuffix : ∀ rest done state, labels = done ++ rest → Invariant done state →
      ∃ last, rest.foldlM body state = .ok last ∧ Invariant labels last from
    hsuffix labels [] start rfl hstart
  intro rest
  induction rest with
  | nil =>
    intro done state hlabels hst
    rw [append_nil] at hlabels
    exact ⟨state, rfl, hlabels ▸ hst⟩
  | cons label rest ih =>
    intro done state hlabels hst
    obtain ⟨next, hnext, hinvariant⟩ := hbody done label rest state hlabels hst
    obtain ⟨last, hlast, hend⟩ := ih (done ++ [label]) next (by simp [hlabels]) hinvariant
    refine ⟨last, ?_, hend⟩
    rw [foldlM_cons, hnext]
    exact hlast

theorem exists_foldlM_keeps {Failure : Type*} (body : State → Label → Except Failure State)
    (labels : List Label) (start : State) (Invariant : State → Prop) (hstart : Invariant start)
    (hbody : ∀ label ∈ labels, ∀ state, Invariant state →
      ∃ next, body state label = .ok next ∧ Invariant next) :
    ∃ last, labels.foldlM body start = .ok last ∧ Invariant last :=
  exists_foldlM_eq_ok body labels start (fun _ ↦ Invariant) hstart
    fun done label _ state hlabels ↦
      hbody label (hlabels ▸ mem_append_right done mem_cons_self) state

/-- What every iteration of a loop keeps holds when the loop is done. -/
theorem foldlM_invariant {Failure : Type*} {body : State → Label → Except Failure State}
    {labels : List Label} {start last : State} (hrun : labels.foldlM body start = .ok last)
    (Invariant : State → Prop) (hstart : Invariant start)
    (hbody : ∀ label ∈ labels, ∀ state next, Invariant state → body state label = .ok next →
      Invariant next) : Invariant last := by
  induction labels generalizing start with
  | nil => exact Except.ok.inj hrun ▸ hstart
  | cons label labels ih =>
    rw [foldlM_cons] at hrun
    cases hnext : body start label with
    | error failure =>
      rw [hnext] at hrun
      exact absurd hrun (by simp [bind, Except.bind])
    | ok next =>
      rw [hnext] at hrun
      exact ih hrun (hbody label mem_cons_self start next hstart hnext)
        fun other hother ↦ hbody other (mem_cons_of_mem _ hother)

/-- A list of actions of a partial function that are all enabled is a run. -/
theorem run_of_foldlM {step : State → Label → State → Prop} (act : State → Label → Option State)
    (hstep : ∀ state label next, act state label = some next → step state label next)
    {start last : State} {labels : List Label} (hlast : labels.foldlM act start = some last) :
    Run step start labels last := by
  induction labels generalizing start with
  | nil =>
    have heq : start = last := by simpa using hlast
    exact heq ▸ Run.nil start
  | cons label labels ih =>
    obtain ⟨next, hnext, hrest⟩ := Option.bind_eq_some_iff.1 hlast
    exact (ih hrest).cons (hstep _ _ _ hnext)

end Prysm.Library
