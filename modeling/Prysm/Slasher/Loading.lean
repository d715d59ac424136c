import Prysm.Slasher.Apply
import Prysm.Library.Run

/-!
# Loading and resetting chunks

What `updatedChunkByChunkIndex` does to the spans of the validators of one validator chunk: it
resets the epochs since the last update, so that the spans advance to the current epoch.
-/

namespace Prysm.Slasher

open List Prysm.Library Bucket

variable {params : Parameters} {kind : ChunkKind} {disk : ChunkKind → ℕ → Option Chunk}
  {vci idx : ℕ} {latest : ValidatorIndex → Option Epoch} {v : ValidatorIndex}
  {current epoch first : Epoch} {chunks : ChunkMap} {needed : List ℕ} {last : Option Epoch}

/-- The first epoch to reset, when the last update was at the given epoch. -/
def firstReset (params : Parameters) (last : Option Epoch) (current : Epoch) : Option Epoch :=
  match last with
  | none => if current = 0 then none else some (minEpoch params current)
  | some last => if last = current then none else some (max (last + 1) (minEpoch params current))

/-- Cutting the epochs to reset to the history length starts them at the window's end. -/
theorem firstWindowed_eq (epoch : Epoch) :
    (if current - epoch ≥ params.historyLength then some (current + 1 - params.historyLength)
      else some epoch) = some (max epoch (minEpoch params current)) := by
  have hpos := params.historyLength_pos
  unfold minEpoch
  split_ifs <;> congr 1 <;> lia

theorem firstEpochToUpdate_eq (hepochs : current + 2 ^ 16 ≤ 2 ^ 64)
    (hlatest : ∀ last, latest v = some last → last ≤ current) :
    firstEpochToUpdate params latest v current = .ok (firstReset params (latest v) current) := by
  unfold firstEpochToUpdate firstReset
  cases hv : latest v with
  | none =>
    by_cases hzero : current = 0
    · simp [hzero]
    · have hne : ¬ 0 = current := fun h ↦ hzero h.symm
      simp only [Option.getD_none, Option.isSome_none, hne, hzero, Bool.false_eq_true, if_false,
        ← apply_ite Except.ok, firstWindowed_eq]
      rw [if_neg (by lia), if_neg (by lia), Nat.zero_max]
  | some last =>
    have hle := hlatest last hv
    simp only [Option.getD_some, Option.isSome_some, if_true, ← apply_ite Except.ok,
      firstWindowed_eq]
    rw [if_neg (by lia)]
    split_ifs with hsame hgt
    · rfl
    · lia
    · rfl

theorem mem_epochRange {last : Epoch} :
    epoch ∈ epochRange first last ↔ first ≤ epoch ∧ epoch ≤ last := by
  rw [epochRange, mem_range'_1]
  lia

theorem mem_foldl_insert {indexes : List ℕ} :
    idx ∈ indexes.foldl (fun needed index ↦ needed.insert index) needed ↔
      idx ∈ indexes ∨ idx ∈ needed := by
  induction indexes generalizing needed with
  | nil => simp
  | cons index indexes ih =>
    rw [foldl_cons, ih, mem_insert_iff, mem_cons]
    tauto

theorem mem_insertChunkIndexes :
    idx ∈ insertChunkIndexes params needed first current ↔
      (∃ epoch, (first ≤ epoch ∧ epoch ≤ current) ∧ params.chunkIndex epoch = idx) ∨
        idx ∈ needed := by
  simp only [insertChunkIndexes, mem_foldl_insert, mem_map, mem_epochRange]

/-- The chunk indexes of the epochs to reset are needed, and nothing outside the buffer is. -/
theorem findNeededChunkIndexes_spec (hdvd : params.chunkSize ∣ params.historyLength)
    {first : Option Epoch} {validatorIndexes : List ValidatorIndex} (hne : validatorIndexes ≠ [])
    (hfirst : ∀ w ∈ validatorIndexes, firstEpochToUpdate params latest w current = .ok first) :
    ∃ needed, findNeededChunkIndexes params latest validatorIndexes current = .ok needed ∧
      (∀ idx ∈ needed, idx < params.historyLength / params.chunkSize) ∧
      ∀ start, first = some start → ∀ epoch, start ≤ epoch → epoch ≤ current →
        params.chunkIndex epoch ∈ needed := by
  -- all validators have the same first epoch, so the first of them adds the indexes
  obtain ⟨⟨needed, minFirst⟩, hrun, hinside, hcov⟩ := exists_foldlM_eq_ok
    (findNeededChunkIndexesFor params latest current) validatorIndexes ([], none) (fun done state ↦
      (∀ idx ∈ state.1, idx < params.historyLength / params.chunkSize) ∧
      ((done = [] ∧ state.2 = none) ∨ (state.2 = first ∧
        ∀ start, first = some start → ∀ epoch, start ≤ epoch → epoch ≤ current →
          params.chunkIndex epoch ∈ state.1)))
    ⟨by simp, .inl ⟨rfl, rfl⟩⟩ (by
      rintro done w rest ⟨needed, minFirst⟩ hlist ⟨hinside, hcov⟩
      simp only [findNeededChunkIndexesFor, hfirst w (by simp [hlist]), wrapf_ok, bind, Except.bind]
      cases first with
      | none =>
        refine ⟨_, rfl, hinside, .inr ⟨?_, by simp⟩⟩
        rcases hcov with ⟨-, hnone⟩ | ⟨hnone, -⟩
        · exact hnone
        · exact hnone
      | some first =>
        rcases hcov with ⟨-, rfl⟩ | ⟨rfl, hcov⟩
        · refine ⟨_, rfl, fun idx hmem ↦ ?_, .inr ⟨rfl, ?_⟩⟩
          · rcases mem_insertChunkIndexes.1 hmem with ⟨epoch, -, rfl⟩ | hold
            · exact chunkIndex_lt_width hdvd epoch
            · exact hinside idx hold
          · rintro start ⟨⟩ epoch hstart hcurr
            exact mem_insertChunkIndexes.2 (.inl ⟨epoch, ⟨hstart, hcurr⟩, rfl⟩)
        · refine ⟨(needed, some first), by simp [pure, Except.pure], hinside, .inr ⟨rfl, hcov⟩⟩)
  refine ⟨needed, ?_, hinside, ?_⟩
  · simp only [findNeededChunkIndexes, hrun, bind, Except.bind]
    rfl
  · rcases hcov with ⟨hempty, -⟩ | ⟨-, hcov⟩
    · exact absurd hempty hne
    · exact hcov

/-- Loading chunks into memory does not change what is seen. -/
theorem loadChunksFromDisk_spec (hstored : Stored params disk vci kind) {chunkIndexes : List ℕ}
    (hinside : ∀ idx ∈ chunkIndexes, idx < params.historyLength / params.chunkSize) :
    ∃ chunks, loadChunksFromDisk params disk vci kind chunkIndexes = .ok chunks ∧
      Loaded params disk vci kind chunks ∧
      chunkView params disk vci kind chunks = chunkView params disk vci kind empty ∧
      ∀ idx ∈ chunkIndexes, (chunks.get idx).isSome := by
  -- what is shown of the whole list is the invariant
  apply exists_foldlM_eq_ok
  · exact ⟨⟨hstored.wellFormed, by simp⟩, rfl, by simp⟩
  rintro done idx rest chunks hlist ⟨hloaded, hview, hpresent⟩
  have hchunk := hinside idx (by simp [hlist])
  have hsame : Function.update (chunkView params disk vci kind chunks) idx
      (chunkView params disk vci kind empty idx) =
        chunkView params disk vci kind empty := by
    rw [hview, Function.update_eq_self]
  simp only [addChunk, loadChunk_eq hstored hchunk, bind, Except.bind]
  refine ⟨_, rfl, hloaded.put hchunk (by rw [hsame]; exact hstored.wellFormed), ?_,
    fun other hother ↦ ?_⟩
  · rw [chunkView_put, hsame]
  · rw [get_put]
    split_ifs with heq
    · rfl
    · rcases mem_append.1 hother with hold | hnew
      · exact hpresent other hold
      · exact absurd (mem_singleton.1 hnew).symm heq

/-- The chunk of the epoch is in memory. -/
def InMemory (params : Parameters) (chunks : ChunkMap) (epoch : Epoch) : Prop :=
  (chunks.get (params.chunkIndex epoch)).isSome

theorem resetEpoch_spec (hdvd : params.chunkSize ∣ params.historyLength)
    (hloaded : Loaded params disk vci kind chunks) (hmemory : InMemory params chunks epoch) :
    ∃ upd, resetEpoch params kind v chunks epoch = .ok upd ∧
      Loaded params disk vci kind upd ∧
      chunkView params disk vci kind upd =
        setCell params (chunkView params disk vci kind chunks) v epoch kind.neutralElement ∧
      ∀ other, InMemory params chunks other → InMemory params upd other := by
  obtain ⟨chunk, hchunk⟩ := Option.isSome_iff_exists.1 hmemory
  have hview : chunkView params disk vci kind chunks (params.chunkIndex epoch) =
      chunk := by simp [chunkView, hchunk]
  have hlen := hloaded.wellFormed.cellIndex_lt_length (v := v) (e := epoch)
    (params.chunkIndex epoch)
  have hneutral : kind.neutralElement < 2 ^ 16 := by cases kind <;> decide
  rw [hview] at hlen
  have hset : Function.update (chunkView params disk vci kind chunks)
      (params.chunkIndex epoch) (chunk.set (params.cellIndex v epoch) kind.neutralElement) =
        setCell params (chunkView params disk vci kind chunks) v epoch
          kind.neutralElement := by
    rw [setCell, hview]
  simp only [resetEpoch, hchunk, setChunkRawDistance, not_le.2 hlen, if_false, bind, Except.bind]
  refine ⟨_, rfl, hloaded.put (chunkIndex_lt_width hdvd epoch)
    (hset ▸ hloaded.wellFormed.setCell hneutral), by rw [chunkView_put, hset],
    fun other hother ↦ ?_⟩
  unfold InMemory at hother ⊢
  rw [get_put]
  split_ifs
  · rfl
  · exact hother

/-- The epochs of the validator from `first` on are reset. -/
structure ResetFrom (params : Parameters) (kind : ChunkKind) (view after : View)
    (v : ValidatorIndex) (current first : Epoch) : Prop where
  span_eq : ∀ x, minEpoch params current ≤ x → x ≤ current →
    span params after v x = if first ≤ x then x + kind.neutralElement else span params view v x
  frame : ∀ w x, w ≠ v → v / params.validatorChunkSize = w / params.validatorChunkSize →
    span params after w x = span params view w x

theorem resetEpoch_foldlM (hdvd : params.chunkSize ∣ params.historyLength)
    (hloaded : Loaded params disk vci kind chunks) (hlow : minEpoch params current ≤ first)
    (hmemory : ∀ epoch, first ≤ epoch → epoch ≤ current → InMemory params chunks epoch) :
    ∃ upd, (epochRange first current).foldlM (resetEpoch params kind v) chunks = .ok upd ∧
      Loaded params disk vci kind upd ∧
      ResetFrom params kind (chunkView params disk vci kind chunks)
        (chunkView params disk vci kind upd) v current first ∧
      ∀ epoch, InMemory params chunks epoch → InMemory params upd epoch := by
  have hwindow := current_lt_minEpoch_add params current
  unfold epochRange
  induction hcount : current + 1 - first generalizing first chunks with
  | zero => exact ⟨chunks, rfl, hloaded, ⟨fun x _ hx ↦ by rw [if_neg (by lia)], fun _ _ _ _ ↦ rfl⟩,
      fun _ ↦ id⟩
  | succ count ih =>
    obtain ⟨middle, hreset, hloaded', hview, hkept⟩ := resetEpoch_spec (v := v) hdvd hloaded
      (hmemory first le_rfl (by lia))
    obtain ⟨upd, hrun, hloaded'', hfrom, hkept'⟩ := @ih (first + 1) middle hloaded'
      (by lia) (fun epoch hle hcurr ↦ hkept epoch (hmemory epoch (by lia) hcurr)) (by lia)
    refine ⟨upd, ?_, hloaded'', ⟨fun x hx hx' ↦ ?_, fun w x hne hw ↦ ?_⟩,
      fun epoch ↦ hkept' epoch ∘ hkept epoch⟩
    · rw [range'_succ, foldlM_cons, hreset]
      exact hrun
    · rw [hfrom.span_eq x hx hx', hview]
      by_cases hsame : x = first
      · subst hsame
        rw [if_neg (by lia), if_pos le_rfl, span_setCell_self hloaded.wellFormed]
      · rw [span_setCell_of_ne hdvd _ rfl fun _ hmod ↦ hsame
          (eq_of_mod_eq hwindow hlow (by lia) hx hx' hmod).symm]
        exact if_congr (by lia) rfl rfl
    · rw [hfrom.frame w x hne hw, hview, span_setCell_of_ne hdvd _ hw (fun h ↦ absurd h.symm hne)]

theorem mem_validatorIndexesInChunk :
    v ∈ params.validatorIndexesInChunk vci ↔ params.validatorChunkIndex v = vci := by
  have hpos := params.validatorChunkSize_pos
  unfold Parameters.validatorIndexesInChunk Parameters.validatorChunkIndex
  rw [mem_range'_1, Nat.div_eq_iff hpos]
  lia

/-- The spans of one validator after `updatedChunkByChunkIndex`, from those of the database. -/
def resetSpan (params : Parameters) (kind : ChunkKind) (last : Option Epoch) (current epoch : Epoch)
    (value : Epoch) : Epoch :=
  match firstReset params last current with
  | none => value
  | some first => if first ≤ epoch then epoch + kind.neutralElement else value

theorem minEpoch_le_of_firstReset (hfirst : firstReset params last current = some first) :
    minEpoch params current ≤ first := by
  unfold firstReset at hfirst
  cases last with
  | none =>
    simp only [Option.ite_none_left_eq_some, Option.some.injEq] at hfirst
    exact hfirst.2.le
  | some last =>
    simp only [Option.ite_none_left_eq_some, Option.some.injEq] at hfirst
    exact hfirst.2 ▸ le_max_right _ _

variable {service : Service} {fuel : ℕ}

/-- `updatedChunkByChunkIndex` resets the epochs since the last update for all validators. -/
theorem updatedChunkByChunkIndex_spec (hbounds : Bounds params fuel current)
    (hstored : Stored params service.disk vci kind)
    (hlatest : ∀ w, params.validatorChunkIndex w = vci →
      service.latestEpochUpdatedForValidator w = last)
    (hlast : ∀ epoch, last = some epoch → epoch ≤ current) :
    ∃ chunks, updatedChunkByChunkIndex params service kind current vci = .ok chunks ∧
      Loaded params service.disk vci kind chunks ∧
      ∀ w, params.validatorChunkIndex w = vci → ∀ x,
        minEpoch params current ≤ x → x ≤ current →
        span params (chunkView params service.disk vci kind chunks) w x =
          resetSpan params kind last current x
            (span params (chunkView params service.disk vci kind empty) w x) := by
  have hfirst : ∀ w ∈ params.validatorIndexesInChunk vci,
      firstEpochToUpdate params service.latestEpochUpdatedForValidator w current =
        .ok (firstReset params last current) := by
    intro w hw
    have hw' := hlatest w (mem_validatorIndexesInChunk.1 hw)
    rw [firstEpochToUpdate_eq hbounds.epochs (fun epoch hepoch ↦ hlast epoch (hw' ▸ hepoch)), hw']
  have hne : params.validatorIndexesInChunk vci ≠ [] := by
    have hpos := params.validatorChunkSize_pos
    simp only [Parameters.validatorIndexesInChunk, ne_eq, range'_eq_nil_iff]
    lia
  obtain ⟨needed, hneeded, hinside, hcov⟩ := findNeededChunkIndexes_spec hbounds.dvd hne hfirst
  obtain ⟨loaded, hload, hloaded, hview, hpresent⟩ := loadChunksFromDisk_spec hstored hinside
  obtain ⟨chunks, hrun, hloaded', -, hspan⟩ := exists_foldlM_eq_ok
    (resetEpochs params service.latestEpochUpdatedForValidator kind current)
    (params.validatorIndexesInChunk vci) loaded
    (fun done chunks ↦ Loaded params service.disk vci kind chunks ∧
      (∀ epoch, InMemory params loaded epoch → InMemory params chunks epoch) ∧
      ∀ w, params.validatorChunkIndex w = vci → ∀ x, minEpoch params current ≤ x → x ≤ current →
        span params (chunkView params service.disk vci kind chunks) w x =
          if w ∈ done then resetSpan params kind last current x
            (span params (chunkView params service.disk vci kind empty) w x)
          else span params (chunkView params service.disk vci kind empty) w x)
    ⟨hloaded, fun _ hepoch ↦ hepoch, by simp [hview]⟩ (by
      rintro done v rest chunks hlist ⟨hloaded, hkept, hspan⟩
      have hv : v ∈ params.validatorIndexesInChunk vci := by simp [hlist]
      simp only [resetEpochs, hfirst v hv, wrapf_ok, bind, Except.bind]
      cases hreset : firstReset params last current with
      | none =>
        refine ⟨chunks, rfl, hloaded, hkept, fun w hw x hx hx' ↦ ?_⟩
        simp [hspan w hw x hx hx', resetSpan, hreset]
      | some first =>
        obtain ⟨upd, hrun, hloaded', hfrom, hkept'⟩ := resetEpoch_foldlM (v := v) hbounds.dvd
          hloaded (minEpoch_le_of_firstReset hreset) (fun epoch hle hcurr ↦ hkept epoch
            (hpresent _ (hcov first hreset epoch hle hcurr)))
        refine ⟨upd, hrun, hloaded', fun epoch hepoch ↦ hkept' epoch (hkept epoch hepoch),
          fun w hw x hx hx' ↦ ?_⟩
        by_cases hsame : w = v
        · subst hsame
          rw [hfrom.span_eq x hx hx', hspan w hw x hx hx']
          by_cases hle : first ≤ x
          · simp [resetSpan, hreset, hle]
          · simp [resetSpan, hreset, hle]
        · have hv' := mem_validatorIndexesInChunk.1 hv
          rw [hfrom.frame w x hsame (hv'.trans hw.symm), hspan w hw x hx hx']
          simp [hsame])
  refine ⟨chunks, ?_, hloaded', fun w hw x hx hx' ↦ ?_⟩
  · simp only [updatedChunkByChunkIndex, hneeded, hload, wrapf_ok, bind, Except.bind]
    exact hrun
  · rw [hspan w hw x hx hx', if_pos (mem_validatorIndexesInChunk.2 hw)]

/-- The spans of a validator chunk that was last updated at the given epoch.  Without an update
nothing was processed, and all cells are neutral. -/
def TrackedAt (params : Parameters) (view : ChunkKind → View)
    (processed : ValidatorIndex → Set IndexedAttestationWrapper) (validatorChunkIndex : ℕ) :
    Option Epoch → Prop
  | none => ∀ w, params.validatorChunkIndex w = validatorChunkIndex →
      processed w = ∅ ∧ ∀ kind x, span params (view kind) w x = x + kind.neutralElement
  | some last => ∀ kind, AllSpans params validatorChunkIndex kind (view kind) last processed

/-- The epochs that are reset are exactly the new ones of the window. -/
theorem resetSpan_some {last value : Epoch} (hlow : minEpoch params current ≤ epoch)
    (hcurr : epoch ≤ current) :
    resetSpan params kind (some last) current epoch value =
      if epoch ≤ last then value else epoch + kind.neutralElement := by
  unfold resetSpan firstReset
  by_cases hsame : last = current
  · simp [hsame, hcurr]
  · simp only [hsame, if_false]
    split_ifs with hfirst hold hold
    · lia
    · rfl
    · rfl
    · lia

theorem resetSpan_none (hlow : minEpoch params current ≤ epoch) :
    resetSpan params kind none current epoch (epoch + kind.neutralElement) =
      epoch + kind.neutralElement := by
  unfold resetSpan firstReset
  by_cases hzero : current = 0
  · simp [hzero]
  · simp [hzero, hlow]

theorem TrackedAt.advance {view : ChunkKind → View} {after : View}
    {processed : ValidatorIndex → Set IndexedAttestationWrapper}
    (hbounds : Bounds params fuel current) (htracked : TrackedAt params view processed vci last)
    (hlast : ∀ epoch, last = some epoch → epoch ≤ current)
    (hsources : ∀ w, ∀ a ∈ processed w, a.source ≤ a.target)
    (hspan : ∀ w, params.validatorChunkIndex w = vci → ∀ x,
      minEpoch params current ≤ x → x ≤ current →
      span params after w x = resetSpan params kind last current x (span params (view kind) w x)) :
    AllSpans params vci kind after current processed := by
  intro w hw
  cases last with
  | none =>
    obtain ⟨hempty, hneutral⟩ := htracked w hw
    rw [hempty]
    apply spans_neutral hbounds.length
    intro x hx hx'
    rw [hspan w hw x hx hx', hneutral, resetSpan_none hx]
  | some last =>
    have hle := hlast last rfl
    apply (htracked kind w hw).advance hbounds.length hle (hsources w)
    · intro x hx hx'
      rw [hspan w hw x hx (hx'.trans hle), resetSpan_some hx (hx'.trans hle), if_pos hx']
    · intro x hx hnew hx'
      rw [hspan w hw x hx hx', resetSpan_some hx hx', if_neg (not_le.2 hnew)]

end Prysm.Slasher
