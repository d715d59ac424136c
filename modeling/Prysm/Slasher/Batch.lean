import Prysm.Slasher.Loading

/-!
# A batch of attestations

What `checkSurroundVotes` does to the spans of all validators.  In each validator chunk the two
passes add the attestations of the batch to the processed ones.  The updated chunks are kept in
memory and saved at the end, or earlier when there are many; saving changes nothing of what is seen,
as the chunks of different validator chunks have different keys.
-/

namespace Prysm.Slasher

open List Function Prysm.Library Bucket Nat

variable {params : Parameters} {kind : ChunkKind} {disk disk' : ChunkKind → ℕ → Option Chunk}
  {vci index : ℕ} {chunks : ChunkMap} {updated : UpdatedChunks}

/-! ### Saving chunks -/

/-- The number of chunks of a validator chunk. -/
def width (params : Parameters) : ℕ := params.historyLength / params.chunkSize

theorem key_injective {vci vci' index' : ℕ} (hidx : index < width params)
    (hidx' : index' < width params)
    (hkey : width params * vci + index = width params * vci' + index') :
    vci = vci' ∧ index = index' := by
  have hpos : 0 < width params := zero_lt_of_lt hidx
  have hdiv := congrArg (· / width params) hkey
  have hmod := congrArg (· % width params) hkey
  simp only [mul_add_div hpos, div_eq_of_lt hidx, div_eq_of_lt hidx',
    mul_add_mod, mod_eq_of_lt hidx, mod_eq_of_lt hidx', add_zero] at hdiv hmod
  exact ⟨hdiv, hmod⟩

/-- The stored chunks after the given ones of a validator chunk were saved. -/
structure Saves (params : Parameters) (kind : ChunkKind) (validatorChunkIndex : ℕ)
    (entries : List (ℕ × Chunk)) (disk disk' : ChunkKind → ℕ → Option Chunk) : Prop where
  saved : ∀ index chunk, (index, chunk) ∈ entries →
    disk' kind (width params * validatorChunkIndex + index) = some chunk
  kept : ∀ kind' key, (kind' = kind → ∀ entry ∈ entries,
    key ≠ width params * validatorChunkIndex + entry.1) → disk' kind' key = disk kind' key

theorem saveUpdatedChunks_spec (disk : ChunkKind → ℕ → Option Chunk)
    (hkeys : KeysFit params updated.validatorChunkIndex)
    (hfits : ∀ index chunk, (updated.ofKind kind).get index = some chunk → index < width params) :
    ∃ disk', saveUpdatedChunks params kind disk updated = .ok disk' ∧
      Saves params kind updated.validatorChunkIndex (updated.ofKind kind).entries disk disk' := by
  have hsorted := (updated.ofKind kind).sorted
  refine exists_foldlM_eq_ok _ _ disk
    (fun done disk' ↦ Saves params kind updated.validatorChunkIndex done disk disk')
    ⟨by simp, fun _ _ _ ↦ rfl⟩ ?_
  rintro done ⟨index, chunk⟩ rest middle hlist hsaves
  have hget := ((updated.ofKind kind).mem_entries_iff index chunk).1 (by simp [hlist])
  simp only [saveChunk, flatSliceID_eq hkeys (hfits index chunk hget), bind, Except.bind]
  rw [hlist, pairwise_append] at hsorted
  refine ⟨_, rfl, fun other stored hmem ↦ ?_, fun kind' key hkey ↦ ?_⟩
  · rw [update_self]
    rcases mem_append.1 hmem with hold | hnew
    · have hlt := hsorted.2.2 _ hold _ mem_cons_self
      rw [update_of_ne (by simp only [width]; lia)]
      exact hsaves.saved other stored hold
    · simp only [mem_singleton, Prod.mk.injEq] at hnew
      rw [hnew.1, hnew.2]
      exact update_self _ _ _
  · rw [← hsaves.kept kind' key fun hkind entry hentry ↦
      hkey hkind entry (mem_append_left _ hentry)]
    by_cases hkind : kind' = kind
    · subst hkind
      rw [update_self, update_of_ne]
      exact hkey rfl (index, chunk) (by simp)
    · rw [update_of_ne hkind]

section

variable (hsaves : Saves params kind vci chunks.entries disk disk')
  (hfits : ∀ index chunk, chunks.get index = some chunk → index < width params)
  (hidx : index < width params)
include hsaves hfits hidx

/-- What is seen of the saved chunks is what was in memory. -/
theorem Saves.chunkView_self :
    chunkView params disk' vci kind empty index = chunkView params disk vci kind chunks index := by
  unfold chunkView
  rw [get_empty, Option.getD_none]
  cases hget : chunks.get index with
  | some chunk =>
    have hsaved := hsaves.saved index chunk ((chunks.mem_entries_iff index chunk).2 hget)
    rw [width] at hsaved
    rw [hsaved, Option.getD_some, Option.getD_some]
  | none =>
    have hkept := hsaves.kept kind (width params * vci + index) (by
      rintro - ⟨other, chunk⟩ hentry hkey
      have hother := (chunks.mem_entries_iff other chunk).1 hentry
      rw [(key_injective hidx (hfits other chunk hother) hkey).2, hother] at hget
      exact Option.some_ne_none _ hget)
    rw [width] at hkept
    rw [hkept, Option.getD_none]

theorem Saves.chunkView_other {other : ℕ} (hother : other ≠ vci) (memory : ChunkMap) :
    chunkView params disk' other kind memory index =
      chunkView params disk other kind memory index := by
  unfold chunkView
  rw [hsaves.kept]
  rintro - ⟨index', chunk⟩ hentry hkey
  have hget := (chunks.mem_entries_iff index' chunk).1 hentry
  exact hother (key_injective hidx (hfits index' chunk hget) hkey).1

end

/-- The chunks in memory for a validator chunk. -/
def memoChunks (memoized : List UpdatedChunks) (validatorChunkIndex : ℕ) (kind : ChunkKind) :
    ChunkMap :=
  match memoized.find? (·.validatorChunkIndex = validatorChunkIndex) with
  | none => Bucket.empty
  | some updated => updated.ofKind kind

/-- The chunks in memory belong to different validator chunks whose keys fit. -/
structure Memoized (params : Parameters) (memoized : List UpdatedChunks) : Prop where
  nodup : (memoized.map (·.validatorChunkIndex)).Nodup
  keys : ∀ updated ∈ memoized, KeysFit params updated.validatorChunkIndex
  fits : ∀ updated ∈ memoized, ∀ kind index chunk, (updated.ofKind kind).get index = some chunk →
    index < width params

variable {memoized : List UpdatedChunks} {last : Option Epoch}

theorem saveChunksToDisk_spec (kind : ChunkKind) (disk : ChunkKind → ℕ → Option Chunk)
    (hmemoized : Memoized params memoized) :
    ∃ disk', saveChunksToDisk params kind disk memoized = .ok disk' ∧
      (∀ other, other ≠ kind → disk' other = disk other) ∧
      ∀ vci index, index < width params →
        chunkView params disk' vci kind empty index = chunkView params disk vci kind
            (memoChunks memoized vci kind) index := by
  unfold saveChunksToDisk
  induction memoized generalizing disk with
  | nil => exact ⟨disk, rfl, fun _ _ ↦ rfl, fun _ _ _ ↦ rfl⟩
  | cons updated memoized ih =>
    obtain ⟨hnodup, hkeys, hfits⟩ := hmemoized
    rw [map_cons, nodup_cons] at hnodup
    have hfits' := hfits updated mem_cons_self kind
    obtain ⟨middle, hsave, hsaves⟩ := saveUpdatedChunks_spec disk
      (hkeys updated mem_cons_self) hfits'
    obtain ⟨disk', hrest, hother, hview⟩ := ih middle ⟨hnodup.2,
      fun u hu ↦ hkeys u (mem_cons_of_mem _ hu), fun u hu ↦ hfits u (mem_cons_of_mem _ hu)⟩
    refine ⟨disk', ?_, fun other hne ↦ ?_, fun vci index hidx ↦ ?_⟩
    · rw [foldlM_cons, hsave]
      exact hrest
    · rw [hother other hne]
      funext key
      exact hsaves.kept other key fun h ↦ absurd h hne
    · rw [hview vci index hidx]
      by_cases hsame : updated.validatorChunkIndex = vci
      · subst hsame
        have hnone : memoized.find?
            (·.validatorChunkIndex = updated.validatorChunkIndex) = none := by
          grind
        simp only [memoChunks, hnone, find?_cons, decide_true]
        exact hsaves.chunkView_self hfits' hidx
      · simp only [memoChunks, find?_cons, hsame, decide_false]
        exact hsaves.chunkView_other hfits' hidx (Ne.symm hsame) _

theorem saveBothKinds_spec (disk : ChunkKind → ℕ → Option Chunk)
    (hmemoized : Memoized params memoized) :
    ∃ disk', saveBothKinds params disk memoized = .ok disk' ∧
      ∀ vci kind index, index < width params →
        chunkView params disk' vci kind empty index = chunkView params disk vci kind
            (memoChunks memoized vci kind) index := by
  obtain ⟨middle, hmin, hothers, hminView⟩ := saveChunksToDisk_spec .minSpan disk hmemoized
  obtain ⟨disk', hmax, hothers', hmaxView⟩ := saveChunksToDisk_spec .maxSpan middle hmemoized
  refine ⟨disk', ?_, fun vci kind index hidx ↦ ?_⟩
  · simp only [saveBothKinds, hmin, hmax, wrapf_ok, bind, Except.bind]
  · cases kind with
    | minSpan =>
      rw [← hminView vci index hidx]
      simp only [chunkView, hothers' .minSpan (by decide)]
    | maxSpan =>
      rw [hmaxView vci index hidx]
      simp only [chunkView, hothers .maxSpan (by decide)]

/-! ### The state between batches -/

theorem span_congr (hdvd : params.chunkSize ∣ params.historyLength) {view view' : View}
    (hview : ∀ index < width params, view index = view' index) :
    span params view = span params view' := by
  funext v x
  unfold span
  rw [hview _ (chunkIndex_lt_width hdvd x)]

theorem TrackedAt.congr (hdvd : params.chunkSize ∣ params.historyLength)
    {view view' : ChunkKind → View}
    {processed processed' : ValidatorIndex → Set IndexedAttestationWrapper}
    (hview : ∀ kind, ∀ index < width params, view kind index = view' kind index)
    (hproc : ∀ w, params.validatorChunkIndex w = vci → processed w = processed' w)
    (htracked : TrackedAt params view processed vci last) :
    TrackedAt params view' processed' vci last := by
  cases last with
  | none =>
    intro w hw
    rw [← hproc w hw]
    refine ⟨(htracked w hw).1, fun kind x ↦ ?_⟩
    rw [← span_congr hdvd (hview kind)]
    exact (htracked w hw).2 kind x
  | some last =>
    intro kind w hw
    rw [← hproc w hw, ← span_congr hdvd (hview kind)]
    exact htracked kind w hw

/-- The chunks, in the database and in memory, hold the spans of the processed attestations. -/
structure Tracked (params : Parameters) (service : Service) (memoized : List UpdatedChunks)
    (processed : ValidatorIndex → Set IndexedAttestationWrapper) : Prop where
  stored : ∀ validatorChunkIndex kind,
    WellFormed params (chunkView params service.disk validatorChunkIndex kind Bucket.empty)
  memory : Memoized params memoized
  loaded : ∀ validatorChunkIndex kind, WellFormed params (chunkView params service.disk
    validatorChunkIndex kind (memoChunks memoized validatorChunkIndex kind))
  spans : ∀ validatorChunkIndex, ∃ last,
    (∀ w, params.validatorChunkIndex w = validatorChunkIndex →
      service.latestEpochUpdatedForValidator w = last) ∧
    TrackedAt params (fun kind ↦ chunkView params service.disk validatorChunkIndex kind
      (memoChunks memoized validatorChunkIndex kind)) processed validatorChunkIndex last
  sources : ∀ w, ∀ a ∈ processed w, a.source ≤ a.target

theorem wellFormed_emptyChunk (params : Parameters) (kind : ChunkKind) :
    WellFormed params (fun _ ↦ emptyChunk params kind) where
  length := fun _ ↦ length_replicate
  lt := by
    intro _ distance hdistance
    rw [eq_of_mem_replicate hdistance]
    cases kind <;> decide

theorem tracked_new : Tracked params Service.new [] (fun _ ↦ ∅) where
  stored := fun _ kind ↦ wellFormed_emptyChunk params kind
  memory := ⟨nodup_nil, by simp, by simp⟩
  loaded := fun _ kind ↦ wellFormed_emptyChunk params kind
  spans := by
    refine fun _ ↦ ⟨none, fun _ _ ↦ rfl, fun w _ ↦ ⟨rfl, fun kind x ↦ ?_⟩⟩
    have hcell := (wellFormed_emptyChunk params kind).cellIndex_lt_length (v := w) (e := x) 0
    change x + (emptyChunk params kind).getD (params.cellIndex w x) 0 = x + kind.neutralElement
    rw [getD_eq_getElem?_getD, getElem?_eq_getElem hcell]
    simp [emptyChunk]
  sources := by simp

/-- The keys of a validator chunk past its width are those of later validator chunks. -/
theorem wellFormed_of_lt (hdvd : params.chunkSize ∣ params.historyLength)
    (hlen : ∀ vci, ∀ index < width params,
      (chunkView params disk vci kind empty index).length =
        params.chunkSize * params.validatorChunkSize)
    (hlt : ∀ vci, ∀ index < width params, ∀ distance ∈
      chunkView params disk vci kind empty index, distance < 2 ^ 16) (vci : ℕ) :
    WellFormed params (chunkView params disk vci kind empty) := by
  have hpos : 0 < width params :=
    div_pos (le_of_dvd params.historyLength_pos hdvd) params.chunkSize_pos
  have hshift : ∀ index, chunkView params disk vci kind empty index =
      chunkView params disk (vci + index / width params) kind empty
        (index % width params) := by
    intro index
    unfold chunkView
    have hkey : width params * vci + index =
        width params * (vci + index / width params) + index % width params := by
      rw [mul_add, add_assoc, div_add_mod]
    rw [width] at hkey
    rw [get_empty, get_empty, hkey]
    rfl
  exact ⟨fun index ↦ hshift index ▸ hlen _ _ (mod_lt _ hpos),
    fun index ↦ hshift index ▸ hlt _ _ (mod_lt _ hpos)⟩

theorem Tracked.save (hdvd : params.chunkSize ∣ params.historyLength) {service : Service}
    {processed : ValidatorIndex → Set IndexedAttestationWrapper}
    (htracked : Tracked params service memoized processed) :
    ∃ disk', saveBothKinds params service.disk memoized = .ok disk' ∧
      Tracked params { service with disk := disk' } [] processed := by
  obtain ⟨disk', hrun, hview⟩ := saveBothKinds_spec service.disk htracked.memory
  have hstored : ∀ vci kind, WellFormed params (chunkView params disk' vci kind empty) :=
    fun vci kind ↦ wellFormed_of_lt hdvd
      (fun vci index hidx ↦ hview vci kind index hidx ▸ (htracked.loaded vci kind).length index)
      (fun vci index hidx ↦ hview vci kind index hidx ▸ (htracked.loaded vci kind).lt index) vci
  refine ⟨disk', hrun, hstored, ⟨nodup_nil, by simp, by simp⟩, hstored, fun vci ↦ ?_,
    htracked.sources⟩
  obtain ⟨last, hlatest, hlast⟩ := htracked.spans vci
  exact ⟨last, hlatest, hlast.congr hdvd (fun kind index hidx ↦ (hview vci kind index hidx).symm)
    fun _ _ ↦ rfl⟩

/-! ### One validator chunk -/

/-- The processed attestations with those of a batch. -/
def withBatch (processed : ValidatorIndex → Set IndexedAttestationWrapper)
    (attestations : List IndexedAttestationWrapper) :
    ValidatorIndex → Set IndexedAttestationWrapper :=
  fun w ↦ processed w ∪ {a | a ∈ attestations ∧ w ∈ a.attestingIndices}

/-- The order in which a pass of the given kind visits the attestations of a validator chunk. -/
def batchOrder (params : Parameters) (attestations : List IndexedAttestationWrapper)
    (orders : IterationOrders) (kind : ChunkKind) (validatorChunkIndex : ℕ) :
    List (IndexedAttestationWrapper × ValidatorIndex) :=
  passOrder params (attestationsOfValidatorChunk params attestations validatorChunkIndex)
    (orders.chunks validatorChunkIndex kind)

variable {atts : List IndexedAttestationWrapper} {orders : IterationOrders}
  {slasherDB : RecordLookup} {fuel : ℕ} {current : Epoch} {service : Service}
  {processed : ValidatorIndex → Set IndexedAttestationWrapper} {a : IndexedAttestationWrapper}
  {done : List ℕ} {w : ValidatorIndex}

theorem mem_attestationsOfValidatorChunk :
    a ∈ attestationsOfValidatorChunk params atts vci ↔
      a ∈ atts ∧
        ∃ w ∈ a.attestingIndices, params.validatorChunkIndex w = vci := by
  simp [attestationsOfValidatorChunk]

theorem mem_passOrder {chunkOrder : List ℕ} :
    (a, w) ∈ passOrder params atts chunkOrder ↔
      (a ∈ atts ∧ params.chunkIndex a.source ∈ chunkOrder) ∧ w ∈ a.attestingIndices := by
  simp only [passOrder, attestationsOfChunk, mem_flatMap, mem_map, mem_filter,
    decide_eq_true_eq, Prod.mk.injEq]
  grind

section

variable (horders : orders.Valid params atts)
include horders

/-- A pass visits the attestations of the validator chunk with all their attesting indices. -/
theorem mem_batchOrder (hvci : vci ∈ orders.validatorChunks) :
    (a, w) ∈ batchOrder params atts orders kind vci ↔
      a ∈ attestationsOfValidatorChunk params atts vci ∧
        w ∈ a.attestingIndices := by
  rw [batchOrder, mem_passOrder, horders.mem_chunks _ hvci]
  constructor
  · rintro ⟨⟨ha, -⟩, hw⟩
    exact ⟨ha, hw⟩
  · rintro ⟨ha, hw⟩
    refine ⟨⟨ha, ne_nil_of_mem (a := a) ?_⟩, hw⟩
    simp [attestationsOfChunk, ha]

theorem afterWork_batchOrder (hvci : params.validatorChunkIndex w ∈ orders.validatorChunks) :
    afterWork processed (batchOrder params atts orders kind (params.validatorChunkIndex w)) w =
      withBatch processed atts w := by
  ext a
  simp only [afterWork, withBatch, Set.mem_union, Set.mem_ofPred_eq, mem_batchOrder horders hvci,
    mem_attestationsOfValidatorChunk]
  grind

theorem afterWork_subset_withBatch (hvci : vci ∈ orders.validatorChunks) (w : ValidatorIndex) :
    afterWork processed (batchOrder params atts orders kind vci) w ⊆
      withBatch processed atts w := by
  rintro a (hold | hnew)
  · exact .inl hold
  · rw [Set.mem_ofPred_eq, mem_batchOrder horders hvci, mem_attestationsOfValidatorChunk] at hnew
    exact .inr ⟨hnew.1.1, hnew.2⟩

end

theorem memoChunks_eq_empty (hnew : ∀ updated ∈ memoized, updated.validatorChunkIndex ≠ vci) :
    memoChunks memoized vci kind = empty := by
  have hnone : memoized.find? (·.validatorChunkIndex = vci) = none := by
    grind
  simp only [memoChunks, hnone]

theorem memoChunks_append
    (hnew : ∀ other ∈ memoized, other.validatorChunkIndex ≠ updated.validatorChunkIndex) :
    memoChunks (memoized ++ [updated]) vci kind =
      if updated.validatorChunkIndex = vci then updated.ofKind kind
      else memoChunks memoized vci kind := by
  unfold memoChunks
  grind

/-- The processed attestations when the validator chunks of the list are done. -/
def afterChunks (params : Parameters) (processed : ValidatorIndex → Set IndexedAttestationWrapper)
    (attestations : List IndexedAttestationWrapper) (done : List ℕ) :
    ValidatorIndex → Set IndexedAttestationWrapper :=
  fun w ↦ if params.validatorChunkIndex w ∈ done then withBatch processed attestations w
    else processed w

/-- What a batch is required to be: its attestations are in the window, no walk leaves a chunk after
the history has wrapped, the keys fit, and the database has the records. -/
structure Acceptable (params : Parameters) (slasherDB : RecordLookup)
    (processed : ValidatorIndex → Set IndexedAttestationWrapper)
    (attestations : List IndexedAttestationWrapper) (current : Epoch) : Prop where
  inWindow : ∀ a ∈ attestations, InWindow params current a
  unwrapped : ∀ a ∈ attestations, ∀ kind, Unwrapped params kind current a
  keys : ∀ a ∈ attestations, ∀ w ∈ a.attestingIndices,
    KeysFit params (params.validatorChunkIndex w)
  saved : ∀ w, Saved slasherDB w (withBatch processed attestations w)

variable (hbatch : Acceptable params slasherDB processed atts current)
include hbatch

theorem Acceptable.keysFit (horders : orders.Valid params atts)
    (hvci : vci ∈ orders.validatorChunks) : KeysFit params vci := by
  obtain ⟨a, ha⟩ := exists_mem_of_ne_nil _ ((horders.mem_validatorChunks _).1 hvci)
  obtain ⟨hmem, w, hw, rfl⟩ := mem_attestationsOfValidatorChunk.1 ha
  exact hbatch.keys a hmem w hw

/-- Keeping the updated chunks of one more validator chunk in memory. -/
theorem Tracked.memoize (hdvd : params.chunkSize ∣ params.historyLength)
    (htracked : Tracked params service memoized (afterChunks params processed atts done))
    (updated : UpdatedChunks) (hkeys : KeysFit params updated.validatorChunkIndex)
    (hnew : ∀ other ∈ memoized, other.validatorChunkIndex ≠ updated.validatorChunkIndex)
    (htracks : ∀ kind, Tracks params service.disk updated.validatorChunkIndex kind
      (updated.ofKind kind) current (withBatch processed atts))
    (latest : ValidatorIndex → Option Epoch) (hlatest : ∀ w, latest w =
      if params.validatorChunkIndex w = updated.validatorChunkIndex then some current
      else service.latestEpochUpdatedForValidator w) :
    Tracked params ⟨service.disk, latest⟩ (memoized ++ [updated])
      (afterChunks params processed atts (done ++ [updated.validatorChunkIndex])) where
  stored := htracked.stored
  memory := by
    obtain ⟨hnodup, hkeys', hfits⟩ := htracked.memory
    refine ⟨?_, fun other hother ↦ ?_, fun other hother ↦ ?_⟩
    · grind
    · grind
    · rcases mem_append.1 hother with hold | hlast
      · exact hfits other hold
      · exact mem_singleton.1 hlast ▸ fun kind ↦ (htracks kind).fits
  loaded := by
    intro vci kind
    rw [memoChunks_append hnew]
    split_ifs with hsame
    · exact hsame ▸ (htracks kind).wellFormed
    · exact htracked.loaded vci kind
  spans := by
    intro vci
    by_cases hsame : updated.validatorChunkIndex = vci
    · subst hsame
      refine ⟨some current, fun w hw ↦ by simp [hlatest, hw], fun kind w hw ↦ ?_⟩
      simp only [memoChunks_append hnew, if_true, afterChunks, hw, mem_append,
        mem_singleton, or_true]
      exact (htracks kind).spans w hw
    · obtain ⟨last, hlast, hspans'⟩ := htracked.spans vci
      refine ⟨last, fun w hw ↦ ?_, hspans'.congr hdvd (fun kind index _ ↦ ?_) fun w hw ↦ ?_⟩
      · simp [hlatest, hw, Ne.symm hsame, hlast w hw]
      · simp only [memoChunks_append hnew, hsame, if_false]
      · simp [afterChunks, hw, Ne.symm hsame]
  sources := by
    intro w a ha
    unfold afterChunks at ha
    split_ifs at ha with hdone
    · rcases ha with hold | ⟨hatt, -⟩
      · have hsources := htracked.sources w
        unfold afterChunks at hsources
        split_ifs at hsources with hbefore
        · exact hsources a (.inl hold)
        · exact hsources a hold
      · exact (hbatch.inWindow a hatt).source_lt.le
    · rw [mem_append, not_or] at hdone
      exact htracked.sources w a (by simp [afterChunks, hdone.1, ha])

variable (hbounds : Bounds params fuel current) (horders : orders.Valid params atts)
include hbounds horders

/-- Loading the chunks of a kind and the pass over them. -/
theorem pass_spec (kind : ChunkKind) (hvci : vci ∈ orders.validatorChunks)
    (hstored : Stored params service.disk vci kind)
    (hlatest : ∀ w, params.validatorChunkIndex w = vci →
      service.latestEpochUpdatedForValidator w = last)
    (hlast : ∀ epoch, last = some epoch → epoch ≤ current)
    (hsources : ∀ w, ∀ a ∈ processed w, a.source ≤ a.target)
    (htracked : TrackedAt params (fun kind ↦ chunkView params service.disk vci kind
      empty) processed vci last) :
    ∃ loaded found updated,
      updatedChunkByChunkIndex params service kind current vci = .ok loaded ∧
      updateSpans params fuel slasherDB service.disk loaded
          (attestationsOfValidatorChunk params atts vci)
          (orders.chunks vci kind) kind vci current =
        .ok (found, updated) ∧
      Tracks params service.disk vci kind updated current (withBatch processed atts) ∧
      ∀ kind' w a, (∃ old, ⟨kind', w, a, old⟩ ∈ found) ↔
        kind' = kind ∧ params.validatorChunkIndex w = vci ∧
          Reported kind processed (batchOrder params atts orders kind vci) w a := by
  obtain ⟨loaded, hload, hloaded, hspan⟩ :=
    updatedChunkByChunkIndex_spec hbounds hstored hlatest hlast
  obtain ⟨found, updated, hrun, htracks, hfound⟩ := updateSpan_foldlM slasherDB hbounds
    hstored (batchOrder params atts orders kind vci) [] loaded processed
    ⟨hloaded, htracked.advance hbounds hlast hsources hspan⟩
    (fun item hitem ↦ by
      have hmem := ((mem_batchOrder horders hvci).1 hitem).1
      have hatt := (mem_attestationsOfValidatorChunk.1 hmem).1
      exact ⟨hbatch.inWindow _ hatt, hbatch.unwrapped _ hatt kind⟩)
    (fun w a ha ↦ hbatch.saved w a (afterWork_subset_withBatch horders hvci w ha))
  refine ⟨loaded, found, updated, hload, hrun, ⟨htracks.toLoaded, fun w hw ↦ ?_⟩, hfound⟩
  have hset := htracks.spans w hw
  subst hw
  rwa [afterWork_batchOrder horders hvci] at hset

/-! ### The whole batch -/

/-- The state of `checkSurroundVotes` after the validator chunks of the list. -/
structure BatchProgress (params : Parameters)
    (processed : ValidatorIndex → Set IndexedAttestationWrapper)
    (attestations : List IndexedAttestationWrapper) (current : Epoch) (orders : IterationOrders)
    (done : List ℕ) (progress : Progress) : Prop where
  tracked : Tracked params progress.service progress.memoized
    (afterChunks params processed attestations done)
  memoized : ∀ updated ∈ progress.memoized, updated.validatorChunkIndex ∈ done
  latest : ∀ w last, progress.service.latestEpochUpdatedForValidator w = some last → last ≤ current
  detections : ∀ kind w a, (∃ existing, ⟨kind, w, a, existing⟩ ∈ progress.detections) ↔
    params.validatorChunkIndex w ∈ done ∧ Reported kind processed
      (batchOrder params attestations orders kind (params.validatorChunkIndex w)) w a

theorem checkValidatorChunk_spec {rest : List ℕ} {progress : Progress}
    (hlist : orders.validatorChunks = done ++ vci :: rest)
    (hprog : BatchProgress params processed atts current orders done progress) :
    ∃ next, checkValidatorChunk params fuel slasherDB atts current orders progress vci = .ok next ∧
      BatchProgress params processed atts current orders (done ++ [vci]) next := by
  have hvci : vci ∈ orders.validatorChunks := by simp [hlist]
  have hkeys := hbatch.keysFit horders hvci
  have hfresh : vci ∉ done := by
    have hnodup := horders.validatorChunks_nodup
    grind
  have hnew : ∀ updated ∈ progress.memoized, updated.validatorChunkIndex ≠ vci :=
    fun updated hmem heq ↦ hfresh (heq ▸ hprog.memoized updated hmem)
  obtain ⟨last, hlatest, htracked⟩ := hprog.tracked.spans vci
  simp only [memoChunks_eq_empty hnew] at htracked
  have hlast : ∀ epoch, last = some epoch → epoch ≤ current := by
    rintro epoch rfl
    have hpos := params.validatorChunkSize_pos
    exact hprog.latest (vci * params.validatorChunkSize) epoch
      (hlatest _ (Nat.mul_div_cancel _ hpos))
  have hsources : ∀ w, ∀ a ∈ processed w, a.source ≤ a.target := by
    intro w a ha
    apply hprog.tracked.sources w a
    unfold afterChunks
    split_ifs
    · exact .inl ha
    · exact ha
  have hproc : TrackedAt params (fun kind ↦ chunkView params progress.service.disk
      vci kind empty) processed vci last :=
    htracked.congr hbounds.dvd (fun _ _ _ ↦ rfl) fun w hw ↦ by simp [afterChunks, hw, hfresh]
  have hpass := fun kind ↦ pass_spec hbatch hbounds horders kind hvci
    ⟨hkeys, hprog.tracked.stored _ kind⟩ hlatest hlast hsources hproc
  obtain ⟨minLoaded, surrounding, minChunks, hminLoad, hminRun, hmin, hminFound⟩ := hpass .minSpan
  obtain ⟨maxLoaded, surrounded, maxChunks, hmaxLoad, hmaxRun, hmax, hmaxFound⟩ := hpass .maxSpan
  have htracked' := hprog.tracked.memoize hbatch hbounds.dvd ⟨vci, minChunks, maxChunks⟩ hkeys hnew
    (fun kind ↦ by cases kind <;> assumption)
    (fun w ↦ if w ∈ params.validatorIndexesInChunk vci then some current
      else progress.service.latestEpochUpdatedForValidator w)
    (fun w ↦ by simp only [mem_validatorIndexesInChunk])
  have hlatest' : ∀ w last, (if w ∈ params.validatorIndexesInChunk vci
      then some current else progress.service.latestEpochUpdatedForValidator w) = some last →
      last ≤ current := by
    intro w last hw
    split_ifs at hw
    · exact (Option.some.inj hw).ge
    · exact hprog.latest w last hw
  have hdets : ∀ kind w a,
      (∃ old, ⟨kind, w, a, old⟩ ∈ progress.detections ++ surrounding ++ surrounded) ↔
        params.validatorChunkIndex w ∈ done ++ [vci] ∧ Reported kind processed
          (batchOrder params atts orders kind (params.validatorChunkIndex w)) w a := by
    intro kind w a
    simp only [mem_append, exists_or, hprog.detections, hminFound, hmaxFound,
      mem_singleton, or_and_right]
    rw [or_assoc]
    apply or_congr_right
    constructor
    · grind
    · rintro ⟨rfl, hreported⟩
      cases kind with
      | minSpan => exact .inl ⟨rfl, rfl, hreported⟩
      | maxSpan => exact .inr ⟨rfl, rfl, hreported⟩
  unfold checkValidatorChunk
  simp only [hminLoad, hmaxLoad, hminRun, hmaxRun, wrapf_ok, bind, Except.bind]
  split_ifs with hflush
  · obtain ⟨disk', hsave, hsaved⟩ := htracked'.save hbounds.dvd
    simp only [hsave]
    exact ⟨_, rfl, hsaved, by simp, hlatest', hdets⟩
  · refine ⟨_, rfl, htracked', fun updated hmem ↦ ?_, hlatest', hdets⟩
    rcases mem_append.1 hmem with hold | hlast'
    · exact mem_append_left _ (hprog.memoized updated hold)
    · simp [mem_singleton.1 hlast']

/-- `checkSurroundVotes` on an acceptable batch: it returns, the spans then cover the batch, and it
finds exactly the attestations that offend when their turn comes. -/
theorem checkSurroundVotes_spec (htracked : Tracked params service [] processed)
    (hlatest : ∀ w last, service.latestEpochUpdatedForValidator w = some last → last ≤ current) :
    ∃ dets next, checkSurroundVotes params fuel slasherDB service atts current orders =
        .ok (dets, next) ∧
      Tracked params next [] (withBatch processed atts) ∧
      (∀ w last, next.latestEpochUpdatedForValidator w = some last → last ≤ current) ∧
      ∀ kind w a, (∃ old, ⟨kind, w, a, old⟩ ∈ dets) ↔
        Reported kind processed
          (batchOrder params atts orders kind (params.validatorChunkIndex w)) w a := by
  obtain ⟨progress, hrun, hprog⟩ := exists_foldlM_eq_ok
    (checkValidatorChunk params fuel slasherDB atts current orders) orders.validatorChunks
    ⟨service, [], [], 0⟩ (BatchProgress params processed atts current orders)
    ⟨htracked, by simp, hlatest, by simp⟩
    (fun _ _ _ _ hlist hprog ↦ checkValidatorChunk_spec hbatch hbounds horders hlist hprog)
  obtain ⟨disk', hsave, hsaved⟩ := hprog.tracked.save hbounds.dvd
  -- a validator outside the visited chunks has no attestation in the batch
  have houtside : ∀ w, params.validatorChunkIndex w ∉ orders.validatorChunks →
      ∀ a ∈ atts, w ∉ a.attestingIndices := by
    intro w hw a ha hmem
    apply hw
    rw [horders.mem_validatorChunks]
    exact ne_nil_of_mem (mem_attestationsOfValidatorChunk.2 ⟨ha, w, hmem, rfl⟩)
  have hall : afterChunks params processed atts orders.validatorChunks =
      withBatch processed atts := by
    funext w
    unfold afterChunks
    split_ifs with hw
    · rfl
    · ext a
      simp only [withBatch, Set.mem_union, Set.mem_ofPred_eq]
      tauto
  refine ⟨progress.detections, { progress.service with disk := disk' }, ?_, hall ▸ hsaved,
    hprog.latest, fun kind w a ↦ ?_⟩
  · simp only [checkSurroundVotes, hrun, hsave, bind, Except.bind]
    rfl
  · rw [hprog.detections]
    refine and_iff_right_of_imp fun ⟨before, after, hwork, _⟩ ↦ ?_
    have hmem : (a, w) ∈ batchOrder params atts orders kind
        (params.validatorChunkIndex w) := by simp [hwork]
    by_contra hw
    obtain ⟨⟨hgroup, -⟩, hidx⟩ := mem_passOrder.1 hmem
    exact houtside w hw a (mem_attestationsOfValidatorChunk.1 hgroup).1 hidx

end Prysm.Slasher
