import Mathlib.Data.List.Basic

/-!
# Loops that may stop early

A loop over a list whose body returns the next state and whether to stop, or fails.  An invariant of
such a loop speaks of the state and of the elements that are still ahead.  Two loops over the same
list are related by a relation of their states that one round of both keeps.
-/

namespace Prysm.Library

variable {State Other Item Failure : Type*}

/-- Run the body over the list until it stops, fails or the list ends. -/
def loop (body : State → Item → Except Failure (State × Bool)) :
    List Item → State → Except Failure State
  | [], state => .ok state
  | item :: rest, state =>
    match body state item with
    | .error failure => .error failure
    | .ok (next, true) => .ok next
    | .ok (next, false) => loop body rest next

variable {body : State → Item → Except Failure (State × Bool)} {items : List Item}
  {start last : State} (Invariant : List Item → State → Prop) (Post : State → Prop)

/-- What holds when a loop is done, from an invariant that every round keeps. -/
theorem loop_invariant (hrun : loop body items start = .ok last) (hstart : Invariant items start)
    (hround : ∀ item rest state next, Invariant (item :: rest) state →
      body state item = .ok (next, false) → Invariant rest next)
    (hstop : ∀ item rest state next, Invariant (item :: rest) state →
      body state item = .ok (next, true) → Post next)
    (hend : ∀ state, Invariant [] state → Post state) : Post last := by
  induction items generalizing start with
  | nil => exact Except.ok.inj hrun ▸ hend start hstart
  | cons item rest ih =>
    unfold loop at hrun
    cases hbody : body start item with
    | error failure =>
      rw [hbody] at hrun
      cases hrun
    | ok result =>
      obtain ⟨next, stop⟩ := result
      rw [hbody] at hrun
      cases stop with
      | true => exact Except.ok.inj hrun ▸ hstop item rest start next hstart hbody
      | false => exact ih hrun (hround item rest start next hstart hbody)

/-- A property of the state that every round keeps holds when the loop is done. -/
theorem loop_keeps (Invariant : State → Prop) (hrun : loop body items start = .ok last)
    (hstart : Invariant start)
    (hround : ∀ item state next stop, Invariant state → body state item = .ok (next, stop) →
      Invariant next) : Invariant last :=
  loop_invariant (fun _ ↦ Invariant) Invariant hrun hstart
    (fun item _ state next ↦ hround item state next false)
    (fun item _ state next ↦ hround item state next true) fun _ ↦ id

/-- A loop succeeds, with what its invariant gives at the end, when every round does. -/
theorem exists_loop_post (hstart : Invariant items start)
    (hround : ∀ item rest state, Invariant (item :: rest) state →
      ∃ next stop, body state item = .ok (next, stop) ∧ (stop = true →
      Post next) ∧ (stop = false → Invariant rest next))
    (hend : ∀ state, Invariant [] state → Post state) :
    ∃ last, loop body items start = .ok last ∧ Post last := by
  induction items generalizing start with
  | nil => exact ⟨start, rfl, hend start hstart⟩
  | cons item rest ih =>
    obtain ⟨next, stop, hbody, hstop, hnext⟩ := hround item rest start hstart
    cases stop with
    | true => exact ⟨next, by rw [loop, hbody], hstop rfl⟩
    | false =>
      obtain ⟨last, hlast, hpost⟩ := ih (hnext rfl)
      exact ⟨last, by rw [loop, hbody]; exact hlast, hpost⟩

/-- A loop succeeds when every round does under an invariant. -/
theorem exists_loop_eq_ok (hstart : Invariant items start)
    (hround : ∀ item rest state, Invariant (item :: rest) state →
      ∃ next stop, body state item = .ok (next, stop) ∧ (stop = false → Invariant rest next)) :
    ∃ last, loop body items start = .ok last := by
  obtain ⟨last, hlast, -⟩ := exists_loop_post Invariant (fun _ ↦ True) hstart
    (fun item rest state hst ↦ by
      obtain ⟨next, stop, hbody, hnext⟩ := hround item rest state hst
      exact ⟨next, stop, hbody, fun _ ↦ trivial, hnext⟩) fun _ _ ↦ trivial
  exact ⟨last, hlast⟩

/-- A loop follows another one over the same list when one round of it follows one round of the
other. -/
theorem loop_simulation {other : Other → Item → Except Failure (Other × Bool)}
    (Related : State → Other → Prop) {otherStart otherLast : Other}
    (hrun : loop other items otherStart = .ok otherLast) (hstart : Related start otherStart)
    (hround : ∀ item ∈ items, ∀ state otherState otherNext stop, Related state otherState →
      other otherState item = .ok (otherNext, stop) →
      ∃ next, body state item = .ok (next, stop) ∧ Related next otherNext) :
    ∃ last, loop body items start = .ok last ∧ Related last otherLast := by
  induction items generalizing start otherStart with
  | nil => exact ⟨start, rfl, Except.ok.inj hrun ▸ hstart⟩
  | cons item rest ih =>
    unfold loop at hrun
    cases hother : other otherStart item with
    | error failure =>
      rw [hother] at hrun
      cases hrun
    | ok result =>
      obtain ⟨otherNext, stop⟩ := result
      rw [hother] at hrun
      obtain ⟨next, hnext, hrelated⟩ :=
        hround item List.mem_cons_self start otherStart otherNext stop hstart hother
      cases stop with
      | true => exact ⟨next, by rw [loop, hnext], Except.ok.inj hrun ▸ hrelated⟩
      | false =>
        obtain ⟨last, hlast, hend⟩ := ih hrun hrelated fun other hmem ↦
          hround other (List.mem_cons_of_mem _ hmem)
        exact ⟨last, by rw [loop, hnext]; exact hlast, hend⟩

end Prysm.Library
