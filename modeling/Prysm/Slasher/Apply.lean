import Prysm.Slasher.Walk

/-!
# Applying attestations to spans

The two passes of surround detection in one form: what the spans of a kind say, what writing an
attestation does to them, and which attestation they report.  From it, what one application of an
attestation and what a whole pass over a batch do.
-/

namespace Prysm.Slasher

open List Function Prysm.Library ChunkKind Option

/-! ### Both kinds of spans -/

/-- The spans of the given kind, for the processed attestations. -/
def Spans (kind : ChunkKind) (value : Epoch → Epoch) (low current : Epoch)
    (processed : Set IndexedAttestationWrapper) : Prop :=
  match kind with
  | .minSpan => MinSpans value low current processed
  | .maxSpan => MaxSpans value low current processed

/-- The offence that a pass looks for: the incoming attestation surrounds the existing one in the
minimum span pass, and is surrounded by it in the maximum span pass. -/
def ChunkKind.Offence (kind : ChunkKind) (incoming existing : IndexedAttestationWrapper) : Prop :=
  match kind with
  | .minSpan => Surrounds incoming existing
  | .maxSpan => Surrounds existing incoming

instance (kind : ChunkKind) (incoming existing : IndexedAttestationWrapper) :
    Decidable (kind.Offence incoming existing) :=
  match kind with
  | .minSpan => inferInstanceAs (Decidable (Surrounds _ _))
  | .maxSpan => inferInstanceAs (Decidable (Surrounds _ _))

/-- The span at an epoch after an attestation is written. -/
def ChunkKind.written (kind : ChunkKind) (att : IndexedAttestationWrapper) (epoch : Epoch)
    (value : Epoch) : Epoch :=
  match kind with
  | .minSpan => if epoch < att.source then min value att.target else value
  | .maxSpan => if att.source < epoch then max value att.target else value

/-- The walk of the pass for the attestation leaves no chunk after the history has wrapped. -/
def Unwrapped (params : Parameters) (kind : ChunkKind) (current : Epoch)
    (att : IndexedAttestationWrapper) : Prop :=
  match kind with
  | .minSpan => MinUnwrapped params current (att.source - 1)
  | .maxSpan => MaxUnwrapped params att.target (att.source + 1)

instance (params : Parameters) (kind : ChunkKind) (current : Epoch)
    (att : IndexedAttestationWrapper) : Decidable (Unwrapped params kind current att) :=
  match kind with
  | .minSpan => inferInstanceAs (Decidable (MinUnwrapped _ _ _))
  | .maxSpan => inferInstanceAs (Decidable (MaxUnwrapped _ _ _))

/-- What `filterAttestations` lets through at the current epoch. -/
structure InWindow (params : Parameters) (current : Epoch) (att : IndexedAttestationWrapper) :
    Prop where
  source_above : current < att.source + params.historyLength
  source_lt : att.source < att.target
  target_le : att.target ≤ current

variable {params : Parameters} {kind : ChunkKind} {value value' : Epoch → Epoch}
  {current current' : Epoch} {processed : Set IndexedAttestationWrapper}
  {att : IndexedAttestationWrapper} {chunkIndex : ℕ}

theorem InWindow.minEpoch_le (hatt : InWindow params current att) :
    minEpoch params current ≤ att.source :=
  (minEpoch_le_iff params current att.source).2 hatt.source_above

theorem InWindow.source_le (hatt : InWindow params current att) : att.source ≤ current :=
  hatt.source_lt.le.trans hatt.target_le

/-! The walk order of a kind also orders its values. -/

variable {other : IndexedAttestationWrapper}

theorem ChunkKind.offence_iff : kind.Offence att other ↔
    kind.confirms att.source other.source ∧ kind.offends att.target other.target := by
  cases kind <;> simp [ChunkKind.Offence, Surrounds, confirms, offends]

theorem ChunkKind.offends_iff {x y : Epoch} : kind.offends x y ↔ ¬ kind.Ahead y x := by
  cases kind <;> simp [offends, ChunkKind.Ahead]

theorem ChunkKind.ahead_total (kind : ChunkKind) (x y : Epoch) :
    kind.Ahead x y ∨ kind.Ahead y x := by
  cases kind with
  | minSpan => exact le_total y x
  | maxSpan => exact le_total x y

theorem ChunkKind.Ahead.confirms {x y source : Epoch} (hxy : kind.Ahead x y)
    (hx : kind.confirms x source) : kind.confirms y source := by
  cases kind with
  | minSpan => exact decide_eq_true (lt_of_le_of_lt hxy (of_decide_eq_true hx))
  | maxSpan => exact decide_eq_true (lt_of_lt_of_le (of_decide_eq_true hx) hxy)

theorem ChunkKind.ahead_of_confirms {x source : Epoch} (hx : kind.confirms x source) :
    kind.Ahead source x := by
  cases kind with
  | minSpan | maxSpan => exact (of_decide_eq_true hx).le

theorem ChunkKind.written_eq (x value : Epoch) : kind.written att x value =
    if kind.confirms x att.source ∧ ¬ kind.Ahead att.target value then att.target else value := by
  cases kind <;> simp only [written, confirms, ChunkKind.Ahead, decide_eq_true_eq] <;>
    split_ifs <;> lia

section

variable (hlen : params.historyLength < 2 ^ 16)
include hlen

/-- The spans of both kinds: a value is that of a processed attestation on the side of the epoch
that matters or the neutral one, and it is ahead of all of these. -/
theorem spans_iff :
    Spans kind value (minEpoch params current) current processed ↔
      (∀ x, Held params current x →
        (value x = x + kind.neutralElement ∨
          ∃ a ∈ processed, kind.confirms x a.source ∧ a.target = value x) ∧
        kind.Ahead (x + kind.neutralElement) (value x) ∧
        ∀ a ∈ processed, kind.confirms x a.source → kind.Ahead a.target (value x)) ∧
      ∀ a ∈ processed, a.target ≤ current := by
  have hwindow := current_lt_minEpoch_add params current
  cases kind with
  | minSpan =>
    simp only [confirms, decide_eq_true_eq]
    constructor
    · rintro ⟨hattained, hbounded, htargets, -⟩
      refine ⟨fun x hx ↦ ⟨hattained x hx.1 hx.2, ?_, hbounded x hx.1 hx.2⟩, htargets⟩
      change value x ≤ x + (2 ^ 16 - 1)
      have hlow := hx.1
      rcases hattained x hx.1 hx.2 with heq | ⟨a, ha, -, heq⟩
      · exact heq.le
      · have htgt := htargets a ha
        lia
    · rintro ⟨hvalue, htargets⟩
      exact ⟨fun x hx hx' ↦ (hvalue x ⟨hx, hx'⟩).1, fun x hx hx' ↦ (hvalue x ⟨hx, hx'⟩).2.2,
        htargets, by unfold undefinedDistance; lia⟩
  | maxSpan =>
    simp only [confirms, decide_eq_true_eq]
    constructor
    · rintro ⟨hattained, hbounded, hself, htargets⟩
      exact ⟨fun x hx ↦ ⟨hattained x hx.1 hx.2, hself x hx.1 hx.2, hbounded x hx.1 hx.2⟩, htargets⟩
    · rintro ⟨hvalue, htargets⟩
      exact ⟨fun x hx hx' ↦ (hvalue x ⟨hx, hx'⟩).1, fun x hx hx' ↦ (hvalue x ⟨hx, hx'⟩).2.2,
        fun x hx hx' ↦ (hvalue x ⟨hx, hx'⟩).2.1, htargets⟩

section

variable (hspans : Spans kind value (minEpoch params current) current processed)
include hspans

/-- Values go the way of the walk. -/
theorem Spans.ahead {x y : Epoch} (hx : Held params current x) (hy : Held params current y)
    (hxy : kind.Ahead x y) : kind.Ahead (value x) (value y) := by
  obtain ⟨hvalue, -⟩ := (spans_iff hlen).1 hspans
  obtain ⟨-, hneutral, hbounded⟩ := hvalue y hy
  rcases (hvalue x hx).1 with heq | ⟨a, ha, hconfirms, heq⟩
  · have hshift : kind.Ahead (x + kind.neutralElement) (y + kind.neutralElement) := by
      cases kind with
      | minSpan | maxSpan => exact Nat.add_le_add_right hxy _
    rw [heq]
    exact hshift.trans hneutral
  · rw [← heq]
    exact hbounded a ha (hxy.confirms hconfirms)

section

variable (hatt : InWindow params current att)
include hatt

/-- Writing an attestation takes the values on its side to its target. -/
theorem Spans.record (hvalue : ∀ x, minEpoch params current ≤ x → x ≤ current →
      value' x = kind.written att x (value x)) :
    Spans kind value' (minEpoch params current) current (insert att processed) := by
  obtain ⟨hold, htargets⟩ := (spans_iff hlen).1 hspans
  refine (spans_iff hlen).2 ⟨fun x hx ↦ ?_, Set.forall_insert_of_forall htargets hatt.target_le⟩
  obtain ⟨hattained, hneutral, hbounded⟩ := hold x hx
  have hattained' := hattained.imp_right
    (Exists.imp fun _ ↦ And.imp_left (Set.mem_insert_of_mem att))
  rw [hvalue x hx.1 hx.2, written_eq]
  by_cases hside : kind.confirms x att.source ∧ ¬ kind.Ahead att.target (value x)
  · have hback := (kind.ahead_total (value x) att.target).resolve_right hside.2
    rw [if_pos hside]
    exact ⟨.inr ⟨att, Set.mem_insert _ _, hside.1, rfl⟩, hneutral.trans hback,
      Set.forall_insert_of_forall (fun a ha h ↦ (hbounded a ha h).trans hback)
        fun _ ↦ kind.ahead_refl _⟩
  · rw [if_neg hside]
    exact ⟨hattained', hneutral, Set.forall_insert_of_forall hbounded fun h ↦
      not_not.1 fun hnot ↦ hside ⟨h, hnot⟩⟩

/-- An attestation that offends is covered without being written. -/
theorem Spans.skip (hoffends : kind.offends att.target (value att.source)) :
    Spans kind value (minEpoch params current) current (insert att processed) := by
  refine hspans.record hlen hatt fun x hx hx' ↦ ?_
  rw [written_eq, if_neg]
  rintro ⟨hside, hnot⟩
  have hahead := hspans.ahead hlen ⟨hatt.minEpoch_le, hatt.source_le⟩ ⟨hx, hx'⟩
    (ahead_of_confirms hside)
  exact hnot (((kind.ahead_total _ _).resolve_left (offends_iff.1 hoffends)).trans hahead)

theorem Spans.offender (hoffends : kind.offends att.target (value att.source)) :
    ∃ a ∈ processed, kind.Offence att a ∧ a.target = value att.source := by
  obtain ⟨hvalue, -⟩ := (spans_iff hlen).1 hspans
  rcases (hvalue _ ⟨hatt.minEpoch_le, hatt.source_le⟩).1 with heq | ⟨a, ha, hside, heq⟩
  · -- the neutral value is not past any target of the window
    have habove := hatt.source_above
    have hsrc := hatt.source_lt
    have htgt := hatt.target_le
    rw [heq] at hoffends
    cases kind with
    | minSpan | maxSpan =>
      simp only [offends, neutralElement] at hoffends
      lia
  · exact ⟨a, ha, offence_iff.2 ⟨hside, heq ▸ hoffends⟩, heq⟩

/-- The span at the source of an attestation offends exactly when the pass has an offence to
report. -/
theorem Spans.offends_iff :
    kind.offends att.target (value att.source) ↔ ∃ a ∈ processed, kind.Offence att a := by
  constructor
  · intro hoffends
    obtain ⟨a, ha, hoffence, -⟩ := hspans.offender hlen hatt hoffends
    exact ⟨a, ha, hoffence⟩
  · rintro ⟨a, ha, hoffence⟩
    obtain ⟨hside, hoffends⟩ := offence_iff.1 hoffence
    have hbound :=
      (((spans_iff hlen).1 hspans).1 _ ⟨hatt.minEpoch_le, hatt.source_le⟩).2.2 a ha hside
    rw [ChunkKind.offends_iff] at hoffends ⊢
    exact fun hahead ↦ hoffends (hbound.trans hahead)

end

/-- The spans when the current epoch advances and the new epochs are reset. -/
theorem Spans.advance (hcurr : current ≤ current') (hsources : ∀ a ∈ processed, a.source ≤ a.target)
    (hold : ∀ x, minEpoch params current' ≤ x → x ≤ current → value' x = value x)
    (hnew : ∀ x, minEpoch params current' ≤ x → current < x → x ≤ current' →
      value' x = x + kind.neutralElement) :
    Spans kind value' (minEpoch params current') current' processed := by
  obtain ⟨hvalue, htargets⟩ := (spans_iff hlen).1 hspans
  have hlow : minEpoch params current ≤ minEpoch params current' := by
    have hwindow := current_lt_minEpoch_add params current'
    rw [minEpoch_le_iff]
    lia
  refine (spans_iff hlen).2 ⟨fun x hx ↦ ?_, fun a ha ↦ (htargets a ha).trans hcurr⟩
  by_cases hrecent : x ≤ current
  · rw [hold x hx.1 hrecent]
    exact hvalue x ⟨hlow.trans hx.1, hrecent⟩
  · rw [hnew x hx.1 (not_le.1 hrecent) hx.2]
    refine ⟨.inl rfl, kind.ahead_refl _, fun a ha hside ↦ ?_⟩
    have hsrc := hsources a ha
    have htgt := htargets a ha
    cases kind with
    | minSpan =>
      have hlt : x < a.source := of_decide_eq_true hside
      lia
    | maxSpan => exact htgt.trans (not_le.1 hrecent).le

end

/-- Reset spans, when nothing was processed. -/
theorem spans_neutral (hvalue : ∀ x, minEpoch params current ≤ x → x ≤ current →
      value x = x + kind.neutralElement) :
    Spans kind value (minEpoch params current) current ∅ := by
  refine (spans_iff hlen).2 ⟨fun x hx ↦ ?_, by simp⟩
  rw [hvalue x hx.1 hx.2]
  exact ⟨.inl rfl, kind.ahead_refl _, by simp⟩

end

/-! ### The chunks of a validator chunk -/

/-- The database keys of the validator chunk do not overflow. -/
def KeysFit (params : Parameters) (validatorChunkIndex : ℕ) : Prop :=
  params.historyLength / params.chunkSize * (validatorChunkIndex + 1) ≤ 2 ^ 64

theorem flatSliceID_eq {vci : ℕ} (hkeys : KeysFit params vci)
    (hchunk : chunkIndex < params.historyLength / params.chunkSize) :
    params.flatSliceID vci chunkIndex =
      .ok (params.historyLength / params.chunkSize * vci + chunkIndex) := by
  apply if_pos
  unfold KeysFit at hkeys
  lia

variable {disk : ChunkKind → ℕ → Option Chunk} {vci : ℕ} {chunks : ChunkMap}

/-- Well-formed chunks, in memory and in the database, with only chunk indexes in memory. -/
structure Loaded (params : Parameters) (disk : ChunkKind → ℕ → Option Chunk)
    (validatorChunkIndex : ℕ) (kind : ChunkKind) (chunks : ChunkMap) : Prop where
  wellFormed : WellFormed params (chunkView params disk validatorChunkIndex kind chunks)
  fits : ∀ chunkIndex chunk, chunks.get chunkIndex = some chunk →
    chunkIndex < params.historyLength / params.chunkSize

/-- The bounds under which spans are exact: distances fit in a `uint16`, epochs in a `uint64`, and
no walk visits more chunks than the history has epochs. -/
structure Bounds (params : Parameters) (fuel : ℕ) (current : Epoch) : Prop where
  dvd : params.chunkSize ∣ params.historyLength
  length : params.historyLength < 2 ^ 16
  epochs : current + 2 ^ 16 ≤ 2 ^ 64
  fuel : params.historyLength < fuel

/-- What a pass relies on in the database: keys that fit, and well-formed chunks. -/
structure Stored (params : Parameters) (disk : ChunkKind → ℕ → Option Chunk)
    (validatorChunkIndex : ℕ) (kind : ChunkKind) : Prop where
  keys : KeysFit params validatorChunkIndex
  wellFormed : WellFormed params (chunkView params disk validatorChunkIndex kind Bucket.empty)

theorem chunkView_eq_of_get_none (hget : chunks.get chunkIndex = none) :
    chunkView params disk vci kind chunks chunkIndex =
      chunkView params disk vci kind Bucket.empty chunkIndex := by
  simp [chunkView, hget]

section

variable (hstored : Stored params disk vci kind)
include hstored

section

variable (hchunk : chunkIndex < params.historyLength / params.chunkSize)
include hchunk

theorem loadChunk_eq :
    loadChunk params disk vci kind chunkIndex =
      .ok (chunkView params disk vci kind Bucket.empty chunkIndex) := by
  have hlen := hstored.wellFormed.length chunkIndex
  unfold loadChunk
  rw [flatSliceID_eq hstored.keys hchunk]
  simp only [bind, Except.bind]
  unfold chunkView at hlen ⊢
  simp only [Bucket.get_empty, getD_none] at hlen ⊢
  cases hdisk : disk kind
      (params.historyLength / params.chunkSize * vci + chunkIndex) with
  | none => rfl
  | some raw =>
    rw [hdisk, getD_some] at hlen
    simp [chunkFrom, hlen]

theorem currentChunk_eq :
    currentChunk params disk vci kind chunks chunkIndex =
      .ok (chunkView params disk vci kind chunks chunkIndex) := by
  unfold currentChunk
  cases hget : chunks.get chunkIndex with
  | some chunk => simp [chunkView, hget]
  | none => simp only [loadChunk_eq hstored hchunk, wrapf_ok, chunkView_eq_of_get_none hget]

end

end

theorem Loaded.put (hloaded : Loaded params disk vci kind chunks) {chunk : Chunk}
    (hchunk : chunkIndex < params.historyLength / params.chunkSize)
    (hview : WellFormed params (Function.update
      (chunkView params disk vci kind chunks) chunkIndex chunk)) :
    Loaded params disk vci kind (chunks.put chunkIndex chunk) where
  wellFormed := by
    rw [chunkView_put]
    exact hview
  fits := by
    intro other stored hget
    rw [Bucket.get_put] at hget
    split_ifs at hget with hsame
    · exact hsame ▸ hchunk
    · exact hloaded.fits other stored hget

/-! ### Updating from chunk to chunk -/

variable {v : ValidatorIndex} {target : Epoch}

theorem update_eq_updateLoop (params : Parameters) (kind : ChunkKind) (chunkIndex : ℕ)
    (current : Epoch) (v : ValidatorIndex) (start target : Epoch) :
    ∃ fuel, (∀ value, kind.rounds current target value start ≤ fuel) ∧
      update params kind chunkIndex current v start target =
        kind.updateLoop params chunkIndex current v target fuel start := by
  cases kind with
  | minSpan =>
    refine ⟨start + 2, fun value ↦ ?_, rfl⟩
    rw [rounds]
    split_ifs <;> lia
  | maxSpan => exact ⟨_, fun _ ↦ le_rfl, rfl⟩

/-- The walk over all chunks takes the values that are not ahead of the target to it. -/
theorem updateChunks_spec {bound : ℕ} (hbounds : Bounds params bound current)
    (hstored : Stored params disk vci kind) (htgt : target ≤ current) (fuel : ℕ) :
    ∀ (chunks : ChunkMap) (start : Epoch), Loaded params disk vci kind chunks →
    Walkable params kind (chunkView params disk vci kind chunks) v current target start →
    kind.chunkRounds params start < fuel → UnwrappedFrom params kind current target start →
    ∃ upd, updateChunks params disk kind vci v current target fuel start chunks = .ok upd ∧
      Loaded params disk vci kind upd ∧
      Combined params (chunkView params disk vci kind chunks)
        (chunkView params disk vci kind upd) v current (kind.Ahead start)
        (kind.combine target) := by
  have hwindow := current_lt_minEpoch_add params current
  obtain ⟨hdvd, hlen, hepochs, -⟩ := hbounds
  induction fuel with
  | zero => intro chunks start _ _ hfuel; lia
  | succ fuel ih =>
    intro chunks start hloaded hwalk hfuel hunwrapped
    have hchunk := chunkIndex_lt_width hdvd start
    obtain ⟨rounds, hrounds, hupdate⟩ := update_eq_updateLoop params kind
      (params.chunkIndex start) current v start target
    obtain ⟨chunk, stop, hrun, hwell, hcombined, hstop⟩ :=
      updateLoop_spec hdvd hepochs (by lia) rounds _ start hloaded.wellFormed hwalk (hrounds _)
        (params.chunkIndex start)
    have hput := hloaded.put hchunk hwell
    unfold updateChunks
    simp only [currentChunk_eq hstored hchunk, hupdate, hrun, wrapf_ok, bind, Except.bind]
    rw [← chunkView_put] at hcombined
    cases stop with
    | none => exact ⟨_, rfl, hput, by simpa using hcombined.span_eq, hcombined.frame⟩
    | some stop =>
      obtain ⟨hahead, hlast, hleft, hbefore⟩ := hstop stop rfl
      obtain ⟨hnext, hunwrapped', hless⟩ :=
        nextChunkStartEpoch_eq hdvd hunwrapped hahead hlast hbefore hleft
      obtain ⟨upd, hupd, hloaded', hrest⟩ := ih _ stop hput
        (hwalk.of_span (fun x ↦ hahead.trans) fun x hx hheld ↦ .inl (by
          rw [hcombined.span_eq x hheld.1 hheld.2, if_neg fun h ↦ h.2 stop rfl hx])) (by lia)
        hunwrapped'
      refine ⟨upd, ?_, hloaded', fun x hx hx' ↦ ?_, fun w x hne hw ↦ ?_⟩
      · simpa only [hnext, isSome_some, if_true] using hupd
      · rw [hrest.span_eq x hx hx', hcombined.span_eq x hx hx']
        by_cases hstop : kind.Ahead stop x
        · rw [if_pos hstop, if_neg fun h ↦ h.2 stop rfl hstop, if_pos (hahead.trans hstop)]
        · rw [if_neg hstop]
          refine if_congr ⟨And.left, fun hstart ↦ ⟨hstart, ?_⟩⟩ rfl rfl
          rintro _ ⟨⟩
          exact hstop
      · rw [hrest.frame w x hne hw, hcombined.frame w x hne hw]

/-! ### One attestation -/

/-- The database returns every processed attestation of the validator for its target. -/
def Saved (slasherDB : RecordLookup) (v : ValidatorIndex)
    (processed : Set IndexedAttestationWrapper) : Prop :=
  ∀ a ∈ processed, slasherDB v a.target = some a

theorem startEpoch_min (hatt : InWindow params current att) (hsrc : att.source ≠ 0) :
    startEpoch params .minSpan att.source current = some (att.source - 1) := by
  have habove := hatt.source_above
  simp only [startEpoch]
  split_ifs <;> lia

theorem startEpoch_max (hatt : InWindow params current att) :
    startEpoch params .maxSpan att.source current = some (att.source + 1) := by
  have hlt := hatt.source_lt.trans_le hatt.target_le
  simp only [startEpoch]
  rw [if_neg (not_le.2 hlt)]

/-- What writing an attestation to the spans of one validator does. -/
structure Written (params : Parameters) (kind : ChunkKind) (view after : View)
    (v : ValidatorIndex) (current : Epoch) (att : IndexedAttestationWrapper) : Prop where
  span_eq : ∀ x, minEpoch params current ≤ x → x ≤ current →
    span params after v x = kind.written att x (span params view v x)
  frame : ∀ w x, w ≠ v → v / params.validatorChunkSize = w / params.validatorChunkSize →
    span params after w x = span params view w x

variable {fuel : ℕ} {slasherDB : RecordLookup}

/-- The walk from the start epoch writes the attestation. -/
theorem updateChunks_written (hbounds : Bounds params fuel current)
    (hstored : Stored params disk vci kind) (hloaded : Loaded params disk vci kind chunks)
    (hspans : Spans kind (span params (chunkView params disk vci kind chunks) v)
      (minEpoch params current) current processed) (hatt : InWindow params current att)
    (hunwrapped : Unwrapped params kind current att) {start : Epoch}
    (hstart : startEpoch params kind att.source current = some start) :
    ∃ upd, updateChunks params disk kind vci v current att.target fuel start chunks = .ok upd ∧
      Loaded params disk vci kind upd ∧
      Written params kind (chunkView params disk vci kind chunks)
        (chunkView params disk vci kind upd) v current att := by
  have hsrc := hatt.source_lt
  have hlow := hatt.minEpoch_le
  have hfuel := hbounds.fuel
  have htgt := hatt.target_le
  suffices hwalk : Walkable params kind (chunkView params disk vci kind chunks) v
      current att.target start ∧ kind.chunkRounds params start < fuel ∧
      UnwrappedFrom params kind current att.target start ∧ ∀ x value, kind.written att x value =
        if kind.Ahead start x then kind.combine att.target value else value by
    obtain ⟨hwalk, hrounds, hunwrapped, hwritten⟩ := hwalk
    obtain ⟨upd, hrun, hloaded', hcombined⟩ := updateChunks_spec hbounds hstored
      htgt fuel chunks start hloaded hwalk hrounds hunwrapped
    refine ⟨upd, hrun, hloaded', fun x hx hx' ↦ ?_, hcombined.frame⟩
    rw [hcombined.span_eq x hx hx', hwritten]
  have hstays (x y : Epoch) (_ : kind.Ahead start x) (hy : kind.Ahead x y)
      (hheld : Held params current x) (hheld' : Held params current y)
      (hthere : kind.Ahead att.target (span params (chunkView params disk vci kind chunks) v x)) :=
    hthere.trans (hspans.ahead hbounds.length hheld hheld' hy)
  cases kind with
  | minSpan =>
    have hzero : att.source ≠ 0 := by
      intro hzero
      simp [startEpoch, hzero] at hstart
    rw [startEpoch_min hatt hzero, some.injEq] at hstart
    subst hstart
    refine ⟨⟨fun x hx hx' ↦ ⟨hx', ?_⟩, hstays, fun x hx hheld _ ↦ ?_⟩,
      (Nat.min_le_right _ _).trans_lt hfuel, hunwrapped, fun x value ↦ ?_⟩
    · change x ≤ att.source - 1 at hx
      lia
    · change x ≤ att.source - 1 at hx
      lia
    · simp only [written, combine, ChunkKind.Ahead]
      split_ifs <;> lia
  | maxSpan =>
    rw [startEpoch_max hatt, some.injEq] at hstart
    subst hstart
    refine ⟨⟨fun x hx hx' ↦ ⟨?_, hx'⟩, hstays, fun x hx hheld hlt ↦ ?_⟩,
      (Nat.sub_le _ _).trans_lt hfuel, hunwrapped, fun x value ↦ ?_⟩
    · change att.source + 1 ≤ x at hx
      lia
    · exact (hspans.self_le x hheld.1 hheld.2).trans_lt (not_le.1 hlt)
    · simp only [written, combine, ChunkKind.Ahead]
      split_ifs <;> lia

/-- `CheckSlashable` reports an offending processed attestation if there is one. -/
theorem checkSlashable_spec (hbounds : Bounds params fuel current) {view : View}
    (hview : WellFormed params view)
    (hspans : Spans kind (span params view v) (minEpoch params current) current processed)
    (hatt : InWindow params current att) (hsaved : Saved slasherDB v processed) :
    ∃ slashing, checkSlashable params kind slasherDB (view (params.chunkIndex att.source)) v att =
        .ok slashing ∧
      (slashing.isSome ↔ kind.offends att.target (span params view v att.source)) := by
  have hepochs := hbounds.epochs
  have hsrc := hatt.source_le
  have hread := chunkDataAtEpoch_eq (v := v) (e := att.source) hview (by lia)
  unfold checkSlashable
  simp only [hread, wrapf_ok, bind, Except.bind]
  by_cases hoffends : kind.offends att.target (span params view v att.source)
  · obtain ⟨a, ha, hoffence, htgt⟩ := hspans.offender hbounds.length hatt hoffends
    have hconfirms := (offence_iff.1 hoffence).1
    rw [← htgt, hsaved a ha, htgt, if_pos hoffends]
    exact ⟨some a, by simp [hconfirms, pure, Except.pure], by simp [hoffends]⟩
  · exact ⟨none, by simp [hoffends, pure, Except.pure], by simp [hoffends]⟩

/-- The spans of every validator of the validator chunk. -/
def AllSpans (params : Parameters) (validatorChunkIndex : ℕ) (kind : ChunkKind) (view : View)
    (current : Epoch) (processed : ValidatorIndex → Set IndexedAttestationWrapper) : Prop :=
  ∀ w, params.validatorChunkIndex w = validatorChunkIndex →
    Spans kind (span params view w) (minEpoch params current) current (processed w)

/-- The chunks hold the spans of the processed attestations. -/
structure Tracks (params : Parameters) (disk : ChunkKind → ℕ → Option Chunk)
    (validatorChunkIndex : ℕ) (kind : ChunkKind) (chunks : ChunkMap) (current : Epoch)
    (processed : ValidatorIndex → Set IndexedAttestationWrapper) : Prop
    extends Loaded params disk validatorChunkIndex kind chunks where
  spans : AllSpans params validatorChunkIndex kind
    (chunkView params disk validatorChunkIndex kind chunks) current processed

/-- Applying an attestation reports whether it offends with a processed one, and then counts it as
processed. -/
theorem applyAttestationForValidator_spec (hbounds : Bounds params fuel current)
    (hstored : Stored params disk vci kind)
    {processed : ValidatorIndex → Set IndexedAttestationWrapper}
    (htracks : Tracks params disk vci kind chunks current processed)
    (hv : params.validatorChunkIndex v = vci) (hatt : InWindow params current att)
    (hunwrapped : Unwrapped params kind current att) (hsaved : Saved slasherDB v (processed v)) :
    ∃ slashing upd, applyAttestationForValidator params fuel slasherDB disk chunks att kind
        vci v current = .ok (slashing, upd) ∧
      Tracks params disk vci kind upd current
        (Function.update processed v (insert att (processed v))) ∧
      (slashing.isSome ↔ ∃ a ∈ processed v, kind.Offence att a) := by
  have hspan := htracks.spans v hv
  obtain ⟨slashing, hcheck, hslashing⟩ := checkSlashable_spec (v := v) hbounds htracks.wellFormed
    hspan hatt hsaved
  have hlen := hbounds.length
  rw [hspan.offends_iff hlen hatt] at hslashing
  have hchunk := chunkIndex_lt_width hbounds.dvd att.source
  unfold applyAttestationForValidator
  simp only [currentChunk_eq hstored hchunk, hcheck, wrapf_ok, bind, Except.bind]
  -- the other validators keep their spans, so only the spans of `v` are left to show
  have hframe : ∀ view', (∀ w x, w ≠ v →
        v / params.validatorChunkSize = w / params.validatorChunkSize → span params view' w x =
          span params (chunkView params disk vci kind chunks) w x) →
      Spans kind (span params view' v) (minEpoch params current) current
        (insert att (processed v)) → AllSpans params vci kind view' current
        (Function.update processed v (insert att (processed v))) := by
    intro view' hother hself w hw
    by_cases hsame : w = v
    · subst hsame
      rwa [update_self]
    · have hfunext : span params view' w = span params (chunkView params disk vci kind chunks) w :=
        funext fun x ↦ hother w x hsame (hv.trans hw.symm)
      rw [update_of_ne hsame, hfunext]
      exact htracks.spans w hw
  cases slashing with
  | some old =>
    have hoffence := hslashing.1 rfl
    refine ⟨some old, chunks, rfl, ⟨htracks.toLoaded, ?_⟩, hslashing⟩
    exact hframe _ (fun _ _ _ _ ↦ rfl)
      (hspan.skip hlen hatt ((hspan.offends_iff hlen hatt).2 hoffence))
  | none =>
    cases hstart : startEpoch params kind att.source current with
    | none =>
      refine ⟨none, chunks, rfl, ⟨htracks.toLoaded, ?_⟩, hslashing⟩
      refine hframe _ (fun _ _ _ _ ↦ rfl) (hspan.record hlen hatt fun x _ _ ↦ ?_)
      cases kind with
      | minSpan =>
        -- there is no epoch before source 0
        have hzero : att.source = 0 := by
          by_contra hne
          rw [startEpoch_min hatt hne] at hstart
          exact some_ne_none _ hstart
        simp [written, hzero]
      | maxSpan =>
        rw [startEpoch_max hatt] at hstart
        exact absurd hstart (some_ne_none _)
    | some start =>
      obtain ⟨upd, hrun, hloaded', hwritten⟩ := updateChunks_written (v := v) hbounds hstored
        htracks.toLoaded hspan hatt hunwrapped hstart
      refine ⟨none, upd, by simp only [hrun]; rfl, ⟨hloaded', ?_⟩, hslashing⟩
      exact hframe _ hwritten.frame (hspan.record hlen hatt hwritten.span_eq)

/-! ### A pass over a batch -/

/-- The attestations of each validator after those of a list of work were processed. -/
def afterWork (processed : ValidatorIndex → Set IndexedAttestationWrapper)
    (work : List (IndexedAttestationWrapper × ValidatorIndex)) :
    ValidatorIndex → Set IndexedAttestationWrapper :=
  fun v ↦ processed v ∪ {a | (a, v) ∈ work}

/-- When its turn comes, the attestation offends with one that the validator made before. -/
def Reported (kind : ChunkKind) (processed : ValidatorIndex → Set IndexedAttestationWrapper)
    (work : List (IndexedAttestationWrapper × ValidatorIndex)) (v : ValidatorIndex)
    (att : IndexedAttestationWrapper) : Prop :=
  ∃ before after, work = before ++ (att, v) :: after ∧
    ∃ a ∈ afterWork processed before v, kind.Offence att a

variable {processed : ValidatorIndex → Set IndexedAttestationWrapper}
  {work : List (IndexedAttestationWrapper × ValidatorIndex)}

@[simp] theorem afterWork_nil : afterWork processed [] = processed := by
  funext v
  simp [afterWork]

theorem afterWork_cons (w : ValidatorIndex) :
    afterWork processed ((att, w) :: work) =
      afterWork (Function.update processed w (insert att (processed w))) work := by
  funext v
  ext a
  by_cases hsame : v = w
  · subst hsame
    simp only [afterWork, mem_cons, Prod.mk.injEq, update_self, Set.mem_union,
      Set.mem_insert_iff, Set.mem_ofPred_eq]
    tauto
  · simp [afterWork, hsame]

theorem reported_nil : ¬ Reported kind processed [] v att := by
  rintro ⟨before, after, hwork, -⟩
  simp at hwork

theorem reported_cons {w : ValidatorIndex} :
    Reported kind processed ((other, w) :: work) v att ↔
      (other = att ∧ w = v ∧ ∃ a ∈ processed v, kind.Offence att a) ∨
        Reported kind (Function.update processed w (insert other (processed w))) work v att := by
  constructor
  · rintro ⟨before, after, hwork, hoffence⟩
    cases before with
    | nil =>
      obtain ⟨⟨rfl, rfl⟩, -⟩ := hwork
      rw [afterWork_nil] at hoffence
      exact .inl ⟨rfl, rfl, hoffence⟩
    | cons first before =>
      obtain ⟨rfl, rfl⟩ := hwork
      rw [afterWork_cons] at hoffence
      exact .inr ⟨before, after, rfl, hoffence⟩
  · rintro (⟨rfl, rfl, hoffence⟩ | ⟨before, after, rfl, hoffence⟩)
    · exact ⟨[], work, rfl, by rwa [afterWork_nil]⟩
    · exact ⟨(other, w) :: before, after, rfl, by rwa [afterWork_cons]⟩

theorem updateSpan_spec (hbounds : Bounds params fuel current)
    (hstored : Stored params disk vci kind)
    (htracks : Tracks params disk vci kind chunks current processed)
    (hatt : InWindow params current att) (hunwrapped : Unwrapped params kind current att)
    (hsaved : Saved slasherDB v (processed v)) (dets : List Detection) :
    ∃ found upd, updateSpan params fuel slasherDB disk kind vci current
        (dets, chunks) (att, v) = .ok (dets ++ found, upd) ∧
      Tracks params disk vci kind upd current
        (Function.update processed v (insert att (processed v))) ∧
      ∀ kind' w a, (∃ old, ⟨kind', w, a, old⟩ ∈ found) ↔
        kind' = kind ∧ params.validatorChunkIndex w = vci ∧
          att = a ∧ v = w ∧ ∃ b ∈ processed w, kind.Offence a b := by
  unfold updateSpan
  by_cases hv : params.validatorChunkIndex v = vci
  · obtain ⟨slashing, upd, hrun, htracks', hslashing⟩ :=
      applyAttestationForValidator_spec hbounds hstored htracks hv hatt hunwrapped hsaved
    simp only [hv, hrun, wrapf_ok, bind, Except.bind, ne_eq, not_true_eq_false, if_false]
    cases slashing with
    | none =>
      refine ⟨[], upd, by rw [append_nil]; rfl, htracks', fun kind' w a ↦ ?_⟩
      refine iff_of_false (by simp) ?_
      rintro ⟨-, -, rfl, rfl, hoffence⟩
      cases hslashing.2 hoffence
    | some old =>
      refine ⟨[⟨kind, v, att, old⟩], upd, rfl, htracks', fun kind' w a ↦ ?_⟩
      simp only [mem_singleton, Detection.mk.injEq]
      constructor
      · rintro ⟨_, rfl, rfl, rfl, -⟩
        exact ⟨rfl, hv, rfl, rfl, hslashing.1 rfl⟩
      · rintro ⟨rfl, -, rfl, rfl, -⟩
        exact ⟨old, rfl, rfl, rfl, rfl⟩
  · -- a validator of another validator chunk is passed over
    rw [if_pos hv]
    refine ⟨[], chunks, by rw [append_nil], ⟨htracks.toLoaded, fun w hw ↦ ?_⟩, fun kind' w a ↦ ?_⟩
    · rw [update_of_ne (by rintro rfl; exact hv hw)]
      exact htracks.spans w hw
    · refine iff_of_false (by simp) ?_
      rintro ⟨-, hw, -, rfl, -⟩
      exact hv hw

/-- A pass over a list of work finds exactly the attestations that are reported. -/
theorem updateSpan_foldlM (slasherDB : RecordLookup) (hbounds : Bounds params fuel current)
    (hstored : Stored params disk vci kind)
    (work : List (IndexedAttestationWrapper × ValidatorIndex)) :
    ∀ (dets : List Detection) (chunks : ChunkMap)
      (processed : ValidatorIndex → Set IndexedAttestationWrapper),
    Tracks params disk vci kind chunks current processed →
    (∀ item ∈ work, InWindow params current item.1 ∧ Unwrapped params kind current item.1) →
    (∀ w, Saved slasherDB w (afterWork processed work w)) →
    ∃ found upd, work.foldlM (updateSpan params fuel slasherDB disk kind vci current)
        (dets, chunks) = .ok (dets ++ found, upd) ∧
      Tracks params disk vci kind upd current (afterWork processed work) ∧
      ∀ kind' w a, (∃ old, ⟨kind', w, a, old⟩ ∈ found) ↔
        kind' = kind ∧ params.validatorChunkIndex w = vci ∧
          Reported kind processed work w a := by
  induction work with
  | nil =>
    intro dets chunks processed htracks _ _
    refine ⟨[], chunks, by simp [pure, Except.pure], by rwa [afterWork_nil], ?_⟩
    intro kind' w a
    simp [reported_nil]
  | cons item work ih =>
    intro dets chunks processed htracks hitems hsaved
    obtain ⟨att, v⟩ := item
    obtain ⟨hatt, hunwrapped⟩ := hitems _ mem_cons_self
    obtain ⟨found, mid, hstep, hmid, hfound⟩ := updateSpan_spec hbounds hstored htracks hatt
      hunwrapped (fun a ha ↦ hsaved v a (.inl ha)) dets
    obtain ⟨more, last, hfold, hlast, hmore⟩ := ih (dets ++ found) mid _ hmid
      (fun item hitem ↦ hitems item (mem_cons_of_mem _ hitem))
      (fun w ↦ by
        rw [← afterWork_cons]
        exact hsaved w)
    refine ⟨found ++ more, last, ?_, by rwa [afterWork_cons], fun kind' w a ↦ ?_⟩
    · rw [foldlM_cons, hstep, ← append_assoc]
      exact hfold
    · simp only [mem_append, exists_or, hfound, hmore, reported_cons, and_or_left]

end Prysm.Slasher
