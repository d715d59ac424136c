import Mathlib.Data.Finset.Basic
import Prysm.Primitives

/-!
# The fork watcher

In every slot the watcher subscribes to the topics of the next epoch's fork digest and, in the epoch
after the start of the current fork, unsubscribes from those of the digest before it.  The topics of
a digest come and go together, so the state has the digests only.
-/

namespace Prysm.Sync

open List Finset

abbrev ForkDigest := Fin (2 ^ 32)

structure NetworkScheduleEntry where
  epoch : Epoch
  forkDigest : ForkDigest

/-- `NetworkSchedule`: the entry of the genesis and those of the forks, the latest one first. -/
structure NetworkSchedule where
  genesis : NetworkScheduleEntry
  forks : List NetworkScheduleEntry
  genesis_epoch : genesis.epoch = 0
  nodup : ((genesis :: forks).map (·.forkDigest)).Nodup

/-- The digests with topics, and the digest of `registeredNetworkEntry`, which is zero at first. -/
structure Watcher where
  digests : Finset ForkDigest
  registered : ForkDigest

namespace NetworkSchedule

variable (ns : NetworkSchedule) (s : Watcher) (currentEpoch : Epoch)

def forEpoch (epoch : Epoch) : NetworkScheduleEntry :=
  (ns.forks.find? (·.epoch ≤ epoch)).getD ns.genesis

def forkDigest (epoch : Epoch) : ForkDigest := (ns.forEpoch epoch).forkDigest

def registerForUpcomingFork : Watcher :=
  let nextDigest := ns.forkDigest (currentEpoch + 1)
  if nextDigest = s.registered then s
  else if nextDigest ∈ s.digests then s
  else ⟨insert nextDigest s.digests, nextDigest⟩

def deregisterFromPastFork : Watcher :=
  let currentFork := ns.forEpoch currentEpoch
  if currentFork.epoch = 0 then s
  else if currentEpoch ≠ currentFork.epoch + 1 then s
  else
    let beforeForkDigest := ns.forkDigest (currentFork.epoch - 1)
    if beforeForkDigest ∉ s.digests then s
    else { s with digests := s.digests.erase beforeForkDigest }

/-- One round of `forkWatcher`. -/
def tick : Watcher :=
  ns.deregisterFromPastFork (ns.registerForUpcomingFork s currentEpoch) currentEpoch

/-- The watcher after `n` epochs, where an epoch has one tick and some more. -/
def watched (more : Epoch → ℕ) (start : Epoch) : ℕ → Watcher
  | 0 => ⟨{ns.forkDigest start}, 0⟩
  | n + 1 => (ns.tick · (start + n))^[more (start + n) + 1] (watched more start n)

theorem forEpoch_spec (e : Epoch) :
    ns.forEpoch e ∈ ns.genesis :: ns.forks ∧ (ns.forEpoch e).epoch ≤ e := by
  unfold forEpoch
  cases hfind : ns.forks.find? (·.epoch ≤ e) with
  | none => exact ⟨mem_cons_self, ns.genesis_epoch.trans_le (Nat.zero_le e)⟩
  | some entry =>
    exact ⟨mem_cons_of_mem _ (mem_of_find?_eq_some hfind), by simpa using find?_some hfind⟩

variable {ns s} {a b c e : Epoch}

theorem forEpoch_eq (hab : a ≤ b) (hle : (ns.forEpoch b).epoch ≤ a) :
    ns.forEpoch a = ns.forEpoch b := by
  unfold forEpoch at hle ⊢
  generalize ns.forks = forks at hle ⊢
  induction forks with
  | nil => rfl
  | cons x forks ih =>
    by_cases hb : x.epoch ≤ b
    · have ha : x.epoch ≤ a := by simpa [hb] using hle
      simp [ha, hb]
    · have ha : ¬x.epoch ≤ a := fun h ↦ hb (h.trans hab)
      simp only [find?_cons, ha, hb, decide_false] at hle ⊢
      exact ih hle

/-- The digest before a fork is not used again. -/
theorem forkDigest_ne (hfork : (ns.forEpoch e).epoch ≠ 0) (hle : e ≤ c) :
    ns.forkDigest c ≠ ns.forkDigest ((ns.forEpoch e).epoch - 1) := by
  intro hdigest
  have hsame := inj_on_of_nodup_map ns.nodup (ns.forEpoch_spec _).1 (ns.forEpoch_spec _).1 hdigest
  have hbefore := (ns.forEpoch_spec ((ns.forEpoch e).epoch - 1)).2
  have hstart := (ns.forEpoch_spec e).2
  rw [← hsame] at hbefore
  have hcurrent : ns.forEpoch e = ns.forEpoch c := forEpoch_eq hle (by lia)
  lia

/-- What holds of the watcher before and after each tick of an epoch. -/
structure Follows (ns : NetworkSchedule) (e : Epoch) (s : Watcher) : Prop where
  current : ns.forkDigest e ∈ s.digests
  recent : ∀ d ∈ s.digests, ∃ k, e ≤ k + 2 ∧ ns.forkDigest k = d
  registered : ∀ k, e ≤ k → ns.forkDigest k = s.registered → ns.forkDigest k ∈ s.digests

theorem Follows.register (h : Follows ns e s) :
    Follows ns e (ns.registerForUpcomingFork s e) ∧
      ns.forkDigest (e + 1) ∈ (ns.registerForUpcomingFork s e).digests := by
  simp only [registerForUpcomingFork]
  split_ifs with hsame hthere
  · exact ⟨h, h.registered (e + 1) (Nat.le_succ e) hsame⟩
  · exact ⟨h, hthere⟩
  · refine ⟨⟨mem_insert_of_mem h.current, fun d hd ↦ ?_, fun k _ heq ↦ ?_⟩, mem_insert_self _ _⟩
    · rcases mem_insert.1 hd with rfl | hd
      · exact ⟨e + 1, by lia, rfl⟩
      · exact h.recent d hd
    · exact heq ▸ mem_insert_self _ _

theorem mem_deregister {d : ForkDigest} :
    d ∈ (ns.deregisterFromPastFork s e).digests ↔ d ∈ s.digests ∧
      ¬((ns.forEpoch e).epoch ≠ 0 ∧ e = (ns.forEpoch e).epoch + 1 ∧
        d = ns.forkDigest ((ns.forEpoch e).epoch - 1)) := by
  simp only [deregisterFromPastFork]
  split_ifs with hgenesis hafter hthere
  · simp [hgenesis]
  · simp [hafter]
  · rw [mem_erase, and_comm, not_and, not_and]
    exact and_congr_right fun _ ↦ ⟨fun hne _ _ ↦ hne, fun hne ↦ hne hgenesis (not_not.1 hafter)⟩
  · refine (and_iff_left_of_imp fun hd hgone ↦ hthere ?_).symm
    exact hgone.2.2 ▸ hd

/-- If no fork starts right after another one, a tick leaves the current digest, the next one, and
otherwise only digests of the previous epoch. -/
theorem Follows.tick (hspaced : ∀ x ∈ ns.forks, ∀ y ∈ ns.forks, x.epoch + 1 ≠ y.epoch)
    (h : Follows ns e s) : Follows ns e (ns.tick s e) ∧ Follows ns (e + 1) (ns.tick s e) := by
  have hfork (k : Epoch) (hstarts : (ns.forEpoch (k + 1)).epoch = k + 1) :
      ns.forEpoch (k + 1) ∈ ns.forks := by
    refine (mem_cons.1 (ns.forEpoch_spec (k + 1)).1).resolve_left fun heq ↦ ?_
    rw [heq, ns.genesis_epoch] at hstarts
    lia
  have hsucc (k : Epoch) (hnot : (ns.forEpoch (k + 1)).epoch ≠ k + 1) :
      ns.forEpoch k = ns.forEpoch (k + 1) :=
    forEpoch_eq (Nat.le_succ k) (Nat.lt_succ_iff.1 ((ns.forEpoch_spec (k + 1)).2.lt_of_ne hnot))
  obtain ⟨hreg, hnext⟩ := h.register
  have hkeep (k : Epoch) (hle : e ≤ k)
      (hk : ns.forkDigest k ∈ (ns.registerForUpcomingFork s e).digests) :
      ns.forkDigest k ∈ (ns.tick s e).digests :=
    mem_deregister.2 ⟨hk, fun hgone ↦ forkDigest_ne hgone.1 hle hgone.2.2⟩
  have hregistered (k : Epoch) (hle : e ≤ k) (heq : ns.forkDigest k = (ns.tick s e).registered) :
      ns.forkDigest k ∈ (ns.tick s e).digests := by
    refine hkeep k hle (hreg.registered k hle (heq.trans ?_))
    simp only [NetworkSchedule.tick, deregisterFromPastFork]
    split_ifs <;> rfl
  have hrecent (d : ForkDigest) (hd : d ∈ (ns.tick s e).digests) :
      ∃ k, e ≤ k + 1 ∧ ns.forkDigest k = d := by
    obtain ⟨hd, hgone⟩ := mem_deregister.1 hd
    obtain ⟨k, hle, rfl⟩ := hreg.recent d hd
    by_cases hlate : e ≤ k + 1
    · exact ⟨k, hlate, rfl⟩
    obtain rfl : e = k + 2 := by lia
    by_cases hold : (ns.forEpoch (k + 1)).epoch = k + 1
    · -- A fork started in the previous epoch, so the digest before it has been removed.
      have hsame := hsucc (k + 1) fun hnew ↦
        hspaced _ (hfork k hold) _ (hfork (k + 1) hnew) (by lia)
      rw [← hsame, hold] at hgone
      exact absurd ⟨Nat.succ_ne_zero k, rfl, rfl⟩ hgone
    · exact ⟨k + 1, le_rfl, by rw [forkDigest, ← hsucc k hold, forkDigest]⟩
  refine ⟨⟨hkeep e le_rfl hreg.current, fun d hd ↦ ?_, hregistered⟩,
    hkeep (e + 1) (Nat.le_succ e) hnext, fun d hd ↦ ?_, fun k hle ↦ hregistered k (by lia)⟩
  all_goals
    obtain ⟨k, hle, heq⟩ := hrecent d hd
    exact ⟨k, by lia, heq⟩

/-- If no fork starts right after another one, the current and the next digest have topics after
every epoch, and no digest that was last valid before the previous epoch. -/
theorem watched_follows (hzero : ∀ x ∈ ns.genesis :: ns.forks, x.forkDigest ≠ 0)
    (hspaced : ∀ x ∈ ns.forks, ∀ y ∈ ns.forks, x.epoch + 1 ≠ y.epoch)
    (more : Epoch → ℕ) (start : Epoch) (n : ℕ) :
    ns.forkDigest (start + n) ∈ (ns.watched more start (n + 1)).digests ∧
      ns.forkDigest (start + n + 1) ∈ (ns.watched more start (n + 1)).digests ∧
      ∀ d ∈ (ns.watched more start (n + 1)).digests,
        ∃ e, start + n ≤ e + 1 ∧ ns.forkDigest e = d := by
  have hepoch {n : ℕ} (h : Follows ns (start + n) (ns.watched more start n)) :
      Follows ns (start + n) (ns.watched more start (n + 1)) ∧
        Follows ns (start + (n + 1)) (ns.watched more start (n + 1)) := by
    rw [watched, Function.iterate_succ_apply]
    exact Function.Iterate.rec _ (h.tick hspaced) (fun _ hsettled ↦ hsettled.1.tick hspaced) _
  have hstart (n : ℕ) : Follows ns (start + n) (ns.watched more start n) := by
    induction n with
    | zero =>
      refine ⟨Finset.mem_singleton_self _, fun d hd ↦ ?_, fun k _ heq ↦ ?_⟩
      · exact ⟨start, by lia, (Finset.mem_singleton.1 hd).symm⟩
      · exact absurd heq (hzero _ (ns.forEpoch_spec k).1)
    | succ n ih => exact (hepoch ih).2
  obtain ⟨hcurrent, hnext⟩ := hepoch (hstart n)
  refine ⟨hcurrent.current, hnext.current, fun d hd ↦ ?_⟩
  obtain ⟨k, hle, heq⟩ := hnext.recent d hd
  exact ⟨k, by lia, heq⟩

/-- Forks in the given epochs. -/
def twoForks (first second : Epoch) : NetworkSchedule where
  genesis := ⟨0, 1⟩
  forks := [⟨second, 3⟩, ⟨first, 2⟩]
  genesis_epoch := rfl
  nodup := by simp

theorem watched_follows_twoForks :
    (twoForks 5 7).forkDigest 8 ∈ ((twoForks 5 7).watched (fun _ ↦ 1) 0 9).digests ∧
      (twoForks 5 7).forkDigest 4 ∉ ((twoForks 5 7).watched (fun _ ↦ 1) 0 9).digests :=
  ⟨(watched_follows (by decide) (by decide) (fun _ ↦ 1) 0 8).1, by decide⟩

/-- When forks start in two epochs in a row, the digest before them keeps its topics. -/
theorem watched_stale :
    (twoForks 5 6).forkDigest 4 ∈ ((twoForks 5 6).watched (fun _ ↦ 0) 0 8).digests ∧
      ∀ e, 7 ≤ e + 1 → (twoForks 5 6).forkDigest e ≠ (twoForks 5 6).forkDigest 4 := by
  refine ⟨by decide, fun e he ↦ ?_⟩
  exact forkDigest_ne (e := 5) (by decide) (by lia)

end NetworkSchedule

end Prysm.Sync
