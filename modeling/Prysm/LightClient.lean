import Prysm.Library.Run
import Prysm.Primitives

/-!
# Broadcasts of light client updates

`SaveLCData` compares the update of a new block with the last one that the store keeps, and so what
is broadcast moves forward as long as the last updates do.  They do not always: at the boundary of
two sync committee periods the last updates are replaced without a comparison, and a finality update
is replaced by one for the same finalized slot that has lost the supermajority.
-/

namespace Prysm.LightClient

open Function List Prysm.Library

structure LightClientConfig extends BeaconChainConfig where
  epochsPerSyncCommitteePeriod : ℕ

/-- What the store reads of the updates for a block.  The finality update and the optimistic update
have the same attested header. -/
structure Update where
  attestedSlot : Slot
  signatureSlot : Slot
  finalizedSlot : Slot
  numActiveParticipants : ℕ
  maxActiveParticipants : ℕ

/-- `SyncCommitteePeriod` of the attested slot. -/
def Update.period (config : LightClientConfig) (update : Update) : ℕ :=
  toEpoch config.toBeaconChainConfig update.attestedSlot / config.epochsPerSyncCommitteePeriod

def Update.hasSupermajority (update : Update) : Prop :=
  update.maxActiveParticipants * 2 ≤ update.numActiveParticipants * 3
deriving Decidable

/-- `IsFinalityUpdateValidForBroadcast` for an old update that is not nil. -/
def IsValidForBroadcast (newUpdate oldUpdate : Update) : Prop :=
  ¬ newUpdate.finalizedSlot < oldUpdate.finalizedSlot ∧
    ¬ (newUpdate.finalizedSlot = oldUpdate.finalizedSlot ∧
      (oldUpdate.hasSupermajority ∨ ¬ newUpdate.hasSupermajority))
deriving Decidable

/-- `IsBetterFinalityUpdate` for an old update that is not nil. -/
def IsBetterFinalityUpdate (newUpdate oldUpdate : Update) : Prop :=
  ¬ newUpdate.finalizedSlot < oldUpdate.finalizedSlot ∧
    (newUpdate.finalizedSlot = oldUpdate.finalizedSlot →
      ¬ newUpdate.attestedSlot < oldUpdate.attestedSlot ∧
      ¬ (newUpdate.attestedSlot = oldUpdate.attestedSlot ∧
        newUpdate.signatureSlot ≤ oldUpdate.signatureSlot))
deriving Decidable

/-- A block of the cache, without the best update, on which no broadcast depends. -/
structure CacheItem where
  period : ℕ
  bestFinalityUpdate : Update

/-- The store, with the updates that it has broadcast, oldest first. -/
structure Store where
  items : Root → Option CacheItem
  lastFinalityUpdate : Option Update
  lastOptimisticUpdate : Option Update
  finalityBroadcasts : List Update
  optimisticBroadcasts : List Update

def Store.new : Store := ⟨fun _ ↦ none, none, none, [], []⟩

def Store.setLastFinalityUpdate (s : Store) (update : Update) (broadcast : Bool) : Store :=
  { s with
    lastFinalityUpdate := some update
    finalityBroadcasts :=
      if broadcast ∧ ∀ old ∈ s.lastFinalityUpdate, IsValidForBroadcast update old then
        s.finalityBroadcasts ++ [update]
      else s.finalityBroadcasts }

/-- `setLastOptimisticUpdate` with a broadcast, as `SaveLCData` calls it. -/
def Store.setLastOptimisticUpdate (s : Store) (update : Update) : Store :=
  { s with
    lastOptimisticUpdate := some update
    optimisticBroadcasts := s.optimisticBroadcasts ++ [update] }

/-- The arguments of a `SaveLCData` that does not fail: the updates for the new block, the roots of
the attested block, of its parent and of the new block, and the root of the head. -/
structure Call where
  update : Update
  blockRoot : Root
  parentRoot : Root
  signatureBlockRoot : Root
  headBlockRoot : Root

section Model

variable (config : LightClientConfig) (s : Store) (call : Call)

/-- The period and the best finality update of the parent, from the cache or as a new item. -/
def Store.parentItem : ℕ × Option Update :=
  match s.items call.parentRoot with
  | some item => (item.period, some item.bestFinalityUpdate)
  | none => (call.update.period config, s.lastFinalityUpdate)

/-- The attested block begins a period. -/
def Store.AtBoundary : Prop := (s.parentItem config call).1 ≠ call.update.period config
deriving Decidable

/-- The best finality update for the new item, and whether it is the new one.  At the boundary of
two periods nothing is compared. -/
def Store.bestFinalityUpdate : Update × Bool :=
  match (s.parentItem config call).2 with
  | some old =>
    if s.AtBoundary config call ∨ IsBetterFinalityUpdate call.update old then (call.update, true)
    else (old, false)
  | none => (call.update, true)

def Store.saveItem : Store :=
  { s with
    items := Function.update s.items call.blockRoot
      (some ⟨call.update.period config, (s.bestFinalityUpdate config call).1⟩) }

/-- The optimistic update is saved at a boundary, or if it is better. -/
def Store.saveOptimistic : Store :=
  if s.AtBoundary config call ∨
      ∀ old ∈ s.lastOptimisticUpdate, old.attestedSlot < call.update.attestedSlot then
    (s.saveItem config call).setLastOptimisticUpdate call.update
  else s.saveItem config call

def Store.saveLCData : Store :=
  if call.signatureBlockRoot = call.headBlockRoot then
    (s.saveOptimistic config call).setLastFinalityUpdate (s.bestFinalityUpdate config call).1
      (s.bestFinalityUpdate config call).2
  else s.saveOptimistic config call

/-- `SaveLCData` as a step, labelled with its arguments. -/
def perform : Call × Store := (call, s.saveLCData config call)

end Model

/-- An update for a later finalized slot, or the first one for its slot with a supermajority. -/
def Precedes (old new : Update) : Prop :=
  old.finalizedSlot < new.finalizedSlot ∨
    old.finalizedSlot = new.finalizedSlot ∧ new.hasSupermajority ∧ ¬ old.hasSupermajority

/-- The finalized slots in their order, each without and with a supermajority. -/
def Update.rank (update : Update) : ℕ :=
  2 * update.finalizedSlot + if update.hasSupermajority then 1 else 0

variable {config : LightClientConfig} {s : Store} {call : Call} {old new : Update}
  {key : Update → ℕ} {sent : List Update} {last : Option Update}

theorem precedes_iff : Precedes old new ↔ old.rank < new.rank := by
  unfold Precedes Update.rank
  split_ifs <;> simp [*] <;> lia

theorem isValidForBroadcast_iff : IsValidForBroadcast new old ↔ old.rank < new.rank := by
  unfold IsValidForBroadcast Update.rank
  split_ifs <;> simp [*] <;> lia

/-- The updates that were sent ascend, up to the last one that was saved. -/
structure Ascends (key : Update → ℕ) (sent : List Update) (last : Option Update) : Prop where
  pairwise : sent.Pairwise (key · < key ·)
  le_last : ∀ update ∈ sent, ∃ top ∈ last, key update ≤ key top

theorem Ascends.raise (hsent : Ascends key sent last) (hle : ∀ old ∈ last, key old ≤ key new) :
    Ascends key sent (some new) := by
  refine ⟨hsent.pairwise, fun update hmem ↦ ?_⟩
  obtain ⟨top, htop, hle'⟩ := hsent.le_last update hmem
  exact ⟨new, rfl, hle'.trans (hle top htop)⟩

theorem Ascends.push (hsent : Ascends key sent last) (hlt : ∀ old ∈ last, key old < key new) :
    Ascends key (sent ++ [new]) (some new) := by
  have hraised := hsent.raise fun old hold ↦ (hlt old hold).le
  refine ⟨pairwise_append.2 ⟨hsent.pairwise, pairwise_singleton _ _, fun update hmem _ hnew ↦ ?_⟩,
    forall_mem_append.2 ⟨hraised.le_last, by simp⟩⟩
  obtain ⟨top, htop, hle⟩ := hsent.le_last update hmem
  exact mem_singleton.1 hnew ▸ hle.trans_lt (hlt top htop)

section

variable (config : LightClientConfig) (s : Store) (call : Call)

/-- Nothing is compared, or the update of the call is better than the one of the parent's item. -/
def Supersedes : Prop :=
  s.AtBoundary config call ∨
    ∀ best ∈ (s.parentItem config call).2, IsBetterFinalityUpdate call.update best
deriving Decidable

/-- The call does not replace a last update by one that is behind it: neither by its own update nor,
where that one does not supersede it, by the one of the parent's item. -/
def KeepsForward : Prop :=
  (s.AtBoundary config call →
    ∀ old ∈ s.lastOptimisticUpdate, old.attestedSlot < call.update.attestedSlot) ∧
  (call.signatureBlockRoot = call.headBlockRoot → ∀ old ∈ s.lastFinalityUpdate,
    (Supersedes config s call → old.rank ≤ call.update.rank) ∧
    (¬ Supersedes config s call → ∀ best ∈ (s.parentItem config call).2, old.rank ≤ best.rank))
deriving Decidable

end

theorem KeepsForward.rank_le (hkeeps : KeepsForward config s call)
    (hhead : call.signatureBlockRoot = call.headBlockRoot) (hold : old ∈ s.lastFinalityUpdate) :
    old.rank ≤ (s.bestFinalityUpdate config call).1.rank := by
  obtain ⟨hnew, hparent⟩ := hkeeps.2 hhead old hold
  unfold Store.bestFinalityUpdate Supersedes at *
  cases hitem : (s.parentItem config call).2 with
  | none => exact hnew (.inr (by simp [hitem]))
  | some best =>
    simp only [hitem, Option.mem_some_iff, forall_eq'] at hnew hparent ⊢
    split_ifs with hbetter
    · exact hnew hbetter
    · exact hparent hbetter

/-- What was broadcast moves forward. -/
structure Forward (s : Store) : Prop where
  optimistic : Ascends Update.attestedSlot s.optimisticBroadcasts s.lastOptimisticUpdate
  finality : Ascends Update.rank s.finalityBroadcasts s.lastFinalityUpdate

theorem Forward.saveOptimistic (hforward : Forward s) (hkeeps : KeepsForward config s call) :
    Forward (s.saveOptimistic config call) := by
  unfold Store.saveOptimistic
  split_ifs with hbetter
  · exact ⟨hforward.optimistic.push (hbetter.elim hkeeps.1 id), hforward.finality⟩
  · exact ⟨hforward.optimistic, hforward.finality⟩

theorem Forward.setLastFinalityUpdate (hforward : Forward s)
    (hle : ∀ old ∈ s.lastFinalityUpdate, old.rank ≤ new.rank) (broadcast : Bool) :
    Forward (s.setLastFinalityUpdate new broadcast) := by
  refine ⟨hforward.optimistic, ?_⟩
  unfold Store.setLastFinalityUpdate
  split_ifs with hsent
  · exact hforward.finality.push fun old hold ↦ isValidForBroadcast_iff.1 (hsent.2 old hold)
  · exact hforward.finality.raise hle

theorem Forward.saveLCData (hforward : Forward s) (hkeeps : KeepsForward config s call) :
    Forward (s.saveLCData config call) := by
  have hsame : (s.saveOptimistic config call).lastFinalityUpdate = s.lastFinalityUpdate := by
    unfold Store.saveOptimistic
    split_ifs <;> rfl
  have hnext := hforward.saveOptimistic hkeeps
  unfold Store.saveLCData
  split_ifs with hhead
  · exact hnext.setLastFinalityUpdate (fun old hold ↦ hkeeps.rank_le hhead (hsame ▸ hold)) _
  · exact hnext

/-- The slot of the last optimistic update does not fall. -/
theorem KeepsForward.attestedSlot_le (hkeeps : KeepsForward config s call)
    (hold : old ∈ s.lastOptimisticUpdate) : ∃ new ∈ (s.saveLCData config call).lastOptimisticUpdate,
      old.attestedSlot ≤ new.attestedSlot := by
  have hsame : (s.saveLCData config call).lastOptimisticUpdate =
      (s.saveOptimistic config call).lastOptimisticUpdate := by
    unfold Store.saveLCData
    split_ifs <;> rfl
  rw [hsame, Store.saveOptimistic]
  split_ifs with hbetter
  · exact ⟨call.update, rfl, (hbetter.elim hkeeps.1 id old hold).le⟩
  · exact ⟨old, hold, le_rfl⟩

/-- If no call replaces a last update by one that is behind it, every broadcast is ahead of all
broadcasts before, and the slot of the last optimistic update never falls. -/
theorem broadcasts_forward (config : LightClientConfig) {s last : Store} {calls later : List Call}
    (run : Run (CallStep (perform config) (KeepsForward config)) .new calls s)
    (rest : Run (CallStep (perform config) (KeepsForward config)) s later last) :
    last.optimisticBroadcasts.Pairwise (·.attestedSlot < ·.attestedSlot) ∧
      last.finalityBroadcasts.Pairwise Precedes ∧
      ∀ old ∈ s.lastOptimisticUpdate, ∃ new ∈ last.lastOptimisticUpdate,
        old.attestedSlot ≤ new.attestedSlot := by
  have hs : Forward s := run.call_invariant Forward ⟨⟨.nil, nofun⟩, .nil, nofun⟩
    fun _ _ ↦ Forward.saveLCData
  have hlast := rest.call_invariant Forward hs fun _ _ ↦ Forward.saveLCData
  refine ⟨hlast.optimistic.pairwise, hlast.finality.pairwise.imp precedes_iff.2, fun old hold ↦ ?_⟩
  refine rest.call_invariant (fun s ↦ ∃ new ∈ s.lastOptimisticUpdate,
    old.attestedSlot ≤ new.attestedSlot) ⟨old, hold, le_rfl⟩ fun middle call hmiddle hkeeps ↦ ?_
  obtain ⟨update, hupdate, hle⟩ := hmiddle
  obtain ⟨new, hnew, hle'⟩ := hkeeps.attestedSlot_le hupdate
  exact ⟨new, hnew, hle.trans hle'⟩

/-- Mainnet, with 8192 slots in a period. -/
def mainnetLightClient : LightClientConfig := ⟨mainnetConfig, 256⟩

/-- A fork at the end of the first period: blocks 2 and 3 have the parent 1, and their children 4
and 5 begin the next period.  Every child becomes the head; 4 has no supermajority. -/
def forkedCalls : List Call :=
  [⟨⟨8190, 8193, 64, 512, 512⟩, 1, 0, 2, 2⟩, ⟨⟨8190, 8192, 64, 512, 512⟩, 1, 0, 3, 2⟩,
    ⟨⟨8193, 8194, 64, 300, 512⟩, 2, 1, 4, 4⟩, ⟨⟨8192, 8195, 64, 512, 512⟩, 3, 1, 5, 5⟩]

theorem broadcasts_forward_oneChild :
    (execute (perform mainnetLightClient) .new
      (forkedCalls.eraseIdx 2)).2.optimisticBroadcasts.Pairwise (·.attestedSlot < ·.attestedSlot) :=
  (broadcasts_forward mainnetLightClient (run_execute _ _ _ _ (by decide +kernel)) (.nil _)).1

/-- The second child is broadcast after the first, for an earlier slot.  So is its finality update,
for the same finalized slot as the one of block 2, and both have a supermajority. -/
theorem broadcast_backwards :
    let last := (execute (perform mainnetLightClient) .new forkedCalls).2
    last.optimisticBroadcasts.map (·.attestedSlot) = [8190, 8193, 8192] ∧
      last.finalityBroadcasts.map (·.finalizedSlot) = [64, 64] ∧
      ∀ update ∈ last.finalityBroadcasts, update.hasSupermajority := by
  decide +kernel

end Prysm.LightClient
