import Prysm.StateNative.SharedFields

/-!
# Copies of a beacon state are independent

Every setter keeps the invariant of the shared slices and leaves the slices of the other states
alone, when the slices that are handed to it are not those of other states and when no mutator fails
on a shared slice.  A mutator that fails leaves the state with the shared slice under a counter of
its own.
-/

namespace Prysm.StateNative.SharedFields

open List Library SharedWindow

/-- The setter keeps the invariant, and changes one field of the state only. -/
def Isolates (setter : Setter) (heap : FieldHeap) (id : ℕ) (version : Version) : Prop :=
  (setter heap id version).2.Invariant ∧
    ∃ field, heap.Frames (setter heap id version).2 (id, field)

section Setters

variable {heap : FieldHeap} {id : ℕ} {version : Version} {field : Field}

section

variable (hinv : heap.Invariant)
include hinv

variable (err : Error)

theorem isolates_refuse : Isolates (refuse err) heap id version := ⟨hinv, .slashings, .refl heap _⟩

theorem isolates_withField {action : Holding → Setter}
    (haction : ∀ h, heap.holders (id, field) = some h → Isolates (action h) heap id version) :
    Isolates (withField field action) heap id version := by
  unfold Isolates withField
  split
  · exact ⟨hinv, field, .refl heap _⟩
  · rename_i h hh
    exact haction h hh

theorem isolates_setField {val : Source ℕ} (hval : Unaliased heap id field val) :
    Isolates (setField field val) heap id version := by
  apply isolates_withField hinv
  intro h hh
  obtain ⟨hinv', hframes⟩ := hinv.replace hh hval
  exact ⟨hinv', field, hframes⟩

theorem isolates_appendField (extra growth val : ℕ) :
    Isolates (appendField field extra growth val) heap id version := by
  apply isolates_withField hinv
  intro h hh
  obtain ⟨howned, hframes, -⟩ := hinv.own hh (List.replicate extra 0)
  have hprepares := howned.push val (List.replicate growth 0)
  exact ⟨howned.hold hprepares, field,
    (hframes.trans hprepares.frames).trans (Heap.frames_hold _ _ _)⟩

theorem isolates_modifyField {mutator : Mutator} (hmutator : MutatorKept heap id field mutator) :
    Isolates (modifyField field mutator) heap id version := by
  apply isolates_withField hinv
  intro h hh
  obtain ⟨howned, hframes, -⟩ := hinv.own hh [0]
  have hkept := hmutator h hh
  have hwritten := howned.write (heap.own (id, field) h [0]).2.window (mutator.write
    ((heap.own (id, field) h [0]).1.cells (heap.own (id, field) h [0]).2.window))
  have hwrite := hframes.trans (Heap.frames_write howned.exclusive (mutator.write
    ((heap.own (id, field) h [0]).1.cells (heap.own (id, field) h [0]).2.window)))
  unfold Isolates
  simp only
  split at hkept
  · -- The slice was not shared, so the state has it still.
    have hsame : heap.own (id, field) h [0] = (heap, h) := by
      rw [Heap.own, if_neg (not_lt.2 hkept)]
    rw [hsame] at hwrite ⊢
    exact ⟨⟨hinv.finite, hinv.count, hinv.window, hinv.counter, hinv.allocated⟩, field, hwrite⟩
  · have hprepares := hwritten.resolve hkept
    exact ⟨hwritten.hold hprepares, field,
      (hwrite.trans hprepares.frames).trans (Heap.frames_hold _ _ _)⟩

theorem isolates_updateSlashingsAtIndex (idx val : ℕ) :
    Isolates (updateSlashingsAtIndex idx val) heap id version := by
  apply isolates_withField hinv
  intro h hh
  split_ifs
  · exact ⟨hinv, .slashings, .refl heap _⟩
  · obtain ⟨howned, hframes, -⟩ := hinv.own hh []
    have hwritten := howned.write (heap.own (id, .slashings) h []).2.window
      (((heap.own (id, .slashings) h []).1.cells
        (heap.own (id, .slashings) h []).2.window).set idx val)
    exact ⟨hwritten.invariant, .slashings,
      (hframes.trans (Heap.frames_write howned.exclusive _)).trans (Heap.frames_hold _ _ _)⟩

/-- A setter that is refused for some versions or arguments. -/
theorem isolates_ite {p : Prop} [Decidable p] {setter : Setter}
    (hsetter : Isolates setter heap id version) :
    Isolates (fun heap id version ↦ if p then refuse err heap id version
      else setter heap id version) heap id version := by
  split_ifs
  · exact isolates_refuse hinv err
  · exact hsetter

theorem isolates_dequeuePendingPartialWithdrawals (n : ℕ) :
    Isolates (dequeuePendingPartialWithdrawals n) heap id version := by
  refine isolates_ite hinv _ (isolates_withField hinv fun h hh ↦ ?_)
  split_ifs
  · exact isolates_refuse hinv _
  · exact ⟨hinv, .slashings, .refl heap _⟩
  · obtain ⟨howned, hframes, -⟩ := hinv.own hh []
    exact ⟨howned.hold (howned.prepares rfl), _, hframes.trans (Heap.frames_hold _ _ _)⟩

theorem isolates_run {call : SetterCall} (hkept : SlicesKept heap id call) :
    Isolates call.run heap id version := by
  cases call with
  | setSlashings val | setEth1DataVotes val => exact isolates_setField hinv hkept
  | setHistoricalRoots val =>
    apply isolates_setField hinv
    intro window hwindow
    cases hwindow
  | setPreviousParticipationBits val | setCurrentParticipationBits val | setPendingDeposits val
  | setPendingConsolidations val => exact isolates_ite hinv _ (isolates_setField hinv hkept)
  | updateSlashingsAtIndex idx val => exact isolates_updateSlashingsAtIndex hinv idx val
  | appendCurrentParticipationBits maxDeposits growth val
  | appendPreviousParticipationBits maxDeposits growth val =>
    exact isolates_ite hinv _ (isolates_appendField hinv maxDeposits growth val)
  | modifyPreviousParticipationBits mutator | modifyCurrentParticipationBits mutator =>
    exact isolates_ite hinv _ (isolates_modifyField hinv hkept)
  | appendEth1DataVotes growth val => exact isolates_appendField hinv 1 growth val
  | appendHistoricalRoots growth val | appendHistoricalSummaries growth val =>
    exact isolates_ite hinv _ (isolates_appendField hinv 1 growth val)
  | appendPendingDeposit growth val | appendPendingPartialWithdrawal growth val
  | appendPendingConsolidation growth val =>
    exact isolates_ite hinv _ (isolates_ite hinv _ (isolates_appendField hinv 1 growth val))
  | dequeuePendingPartialWithdrawals n => exact isolates_dequeuePendingPartialWithdrawals hinv n

end

end Setters

section Families

variable {f : Family} {heap' : FieldHeap} {fields : List Field}

/-- The slices are shared as the counters say, and a state that is yet to be made has none. -/
structure Family.Invariant (f : Family) : Prop where
  heap : f.heap.Invariant
  fresh : ∀ id field, f.nextId ≤ id → f.heap.holders (id, field) = none
  alive : ∀ {id version}, f.versions id = some version → id < f.nextId

/-- The other states keep their slices, and these keep their elements. -/
structure KeepsOthers (heap heap' : FieldHeap) (id : ℕ) : Prop where
  holders : ∀ other ≠ id, ∀ field, heap'.holders (other, field) = heap.holders (other, field)
  contents : ∀ other ≠ id, ∀ field h, heap.holders (other, field) = some h →
    heap'.contents h.window = heap.contents h.window

theorem KeepsOthers.refl (heap : FieldHeap) (id : ℕ) : KeepsOthers heap heap id :=
  ⟨fun _ _ _ ↦ rfl, fun _ _ _ _ _ ↦ rfl⟩

variable {id : ℕ}

theorem KeepsOthers.trans {heap heap'' : FieldHeap} (hfirst : KeepsOthers heap heap' id)
    (hsnd : KeepsOthers heap' heap'' id) : KeepsOthers heap heap'' id where
  holders other hne field := (hsnd.holders other hne field).trans (hfirst.holders other hne field)
  contents other hne field h hh := by
    rw [hsnd.contents other hne field h ((hfirst.holders other hne field).trans hh),
      hfirst.contents other hne field h hh]

variable {heap : FieldHeap}

theorem KeepsOthers.of_frames {field : Field} (hframes : heap.Frames heap' (id, field)) :
    KeepsOthers heap heap' id := by
  have hkey {other : ℕ} (hne : other ≠ id) (field' : Field) : (other, field') ≠ (id, field) :=
    fun heq ↦ hne (congrArg Prod.fst heq)
  exact ⟨fun other hne field' ↦ hframes.holders _ (hkey hne field'),
    fun other hne field' h hh ↦ (hframes.contents (hkey hne field') hh).2⟩

theorem KeepsOthers.elements {f' : Family} (hkeeps : KeepsOthers f.heap f'.heap id) {other : ℕ}
    (hne : other ≠ id) (field : Field) : f'.elements other field =
      f.elements other field := by
  unfold Family.elements
  rw [hkeeps.holders other hne field]
  cases hh : f.heap.holders (other, field) with
  | none => rfl
  | some h => rw [Option.map_some, Option.map_some, hkeeps.contents other hne field h hh]

/-- A state gets its slices field by field, and had none of them before. -/
theorem fill_fields {fill : FieldHeap → Field → FieldHeap}
    (hfill : ∀ heap field, heap.Invariant → heap.holders (id, field) = none →
      (fill heap field).Invariant ∧ heap.Frames (fill heap field) (id, field))
    (hinv : heap.Invariant) (hnodup : fields.Nodup)
    (hnew : ∀ field ∈ fields, heap.holders (id, field) = none) :
    (fields.foldl fill heap).Invariant ∧ KeepsOthers heap (fields.foldl fill heap) id := by
  induction fields generalizing heap with
  | nil => exact ⟨hinv, .refl heap id⟩
  | cons field fields ih =>
    obtain ⟨hnotMem, hnodup⟩ := nodup_cons.1 hnodup
    obtain ⟨hinv', hframes⟩ := hfill heap field hinv (hnew field mem_cons_self)
    obtain ⟨hlast, hkeeps⟩ := ih hinv' hnodup (by
      intro other hother
      have hne : (id, other) ≠ (id, field) := by
        rintro ⟨⟩
        exact hnotMem hother
      rw [hframes.holders _ hne]
      exact hnew other (mem_cons_of_mem _ hother))
    exact ⟨hlast, (KeepsOthers.of_frames hframes).trans hkeeps⟩

/-- A state gives its slices up, field by field. -/
theorem drop_fields (hinv : heap.Invariant) (id : ℕ) (fields : List Field) :
    (fields.foldl (fun heap field ↦ heap.drop (id, field)) heap).Invariant ∧
      KeepsOthers heap (fields.foldl (fun heap field ↦ heap.drop (id, field)) heap) id := by
  induction fields generalizing heap with
  | nil => exact ⟨hinv, .refl heap id⟩
  | cons field fields ih =>
    obtain ⟨hlast, hkeeps⟩ := ih (hinv.drop (id, field))
    exact ⟨hlast, (KeepsOthers.of_frames (heap.frames_drop (id, field))).trans hkeeps⟩

theorem Family.Invariant.perform (hinv : f.Invariant) {call : ℕ × Request}
    (hkept : CallKept f call) : (perform f call).2.Invariant ∧ ∀ other ≠ call.1, ∀ field elements,
      f.elements other field = some elements →
        (perform f call).2.elements other field = some elements := by
  obtain ⟨id, request⟩ := call
  simp only [SharedFields.perform]
  cases hver : f.versions id with
  | none => exact ⟨hinv, fun _ _ _ _ helements ↦ helements⟩
  | some version =>
    have hlt := hinv.alive hver
    cases request with
    | set call =>
      obtain ⟨hheap, field, hframes⟩ :=
        (isolates_run hinv.heap hkept : Isolates call.run f.heap id version)
      have hkeeps : KeepsOthers f.heap (call.run f.heap id version).2 id := .of_frames hframes
      refine ⟨⟨hheap, fun other field' hle ↦ ?_, hinv.alive⟩, fun other hne field' elements he ↦ ?_⟩
      · exact (hkeeps.holders other (hlt.trans_le hle).ne' field').trans
          (hinv.fresh other field' hle)
      · rw [← he]
        exact KeepsOthers.elements hkeeps hne field'
    | copy =>
      have hnodup : Field.all.Nodup := by decide
      obtain ⟨hheap, hkeeps⟩ := fill_fields (fun heap field hheap hnone ↦
        ⟨hheap.share hnone, heap.frames_share (id, field) (f.nextId, field)⟩) hinv.heap hnodup
        fun field _ ↦ hinv.fresh f.nextId field le_rfl
      refine ⟨⟨hheap, fun other field hle ↦ ?_, fun {other version'} halive ↦ ?_⟩,
        fun other hne field elements he ↦ ?_⟩
      · have hlt' : f.nextId < other := hle
        exact (hkeeps.holders other hlt'.ne' field).trans (hinv.fresh other field hlt'.le)
      · simp only [Request.apply, Family.copy, Function.update_apply] at halive ⊢
        split_ifs at halive with heq
        · omega
        · have := hinv.alive halive
          omega
      · have hold : other ≠ f.nextId := by
          rintro rfl
          simp [Family.elements, hinv.fresh f.nextId field le_rfl] at he
        rw [← he]
        exact KeepsOthers.elements hkeeps hold field
    | finalizerCleanup =>
      obtain ⟨hheap, hkeeps⟩ := drop_fields hinv.heap id Field.all
      refine ⟨⟨hheap, fun other field hle ↦ ?_, fun {other version'} halive ↦ ?_⟩,
        fun other hne field elements he ↦ ?_⟩
      · exact (hkeeps.holders other (hlt.trans_le hle).ne' field).trans (hinv.fresh other field hle)
      · simp only [Request.apply, Family.finalizerCleanup, Function.update_apply] at halive
        split_ifs at halive
        exact hinv.alive halive
      · rw [← he]
        exact KeepsOthers.elements hkeeps hne field

theorem Family.Invariant.new (version : Version) (contents : Field → List ℕ) :
    (Family.new version contents).Invariant := by
  have hnodup : Field.all.Nodup := by decide
  have hfilled : (Family.new version contents).heap.Invariant ∧
      KeepsOthers .empty (Family.new version contents).heap 0 := by
    refine fill_fields (fun heap field hheap hnone ↦ ?_) .empty hnodup fun _ _ ↦ rfl
    split_ifs
    · exact ⟨hheap, .refl heap _⟩
    · exact ⟨hheap.adopt hnone _, hheap.frames_adopt (0, field) (contents field)⟩
  obtain ⟨hheap, hkeeps⟩ := hfilled
  refine ⟨hheap, fun id field hle ↦ ?_, fun {id version'} halive ↦ ?_⟩
  · have hpos : 0 < id := hle
    exact hkeeps.holders id hpos.ne' field
  · simp only [Family.new, Function.update_apply] at halive ⊢
    split_ifs at halive with heq
    omega

/-- In every run whose calls keep the slices apart, no call changes what another state returns, and
states that share an array share its reference counter, which counts at least two. -/
theorem copies_independent (version : Version) (contents : Field → List ℕ)
    {results : List (Except Fault Unit)}
    (run : Run (CallStep perform CallKept) (Family.new version contents) results f) :
    (∀ call, CallKept f call → ∀ other ≠ call.1, ∀ field elements,
      f.elements other field = some elements →
        (perform f call).2.elements other field = some elements) ∧
    (∀ k k' h h', k ≠ k' → f.heap.holders k = some h → f.heap.holders k' = some h' →
      h.window.array = h'.window.array →
        h.counter = h'.counter ∧ 2 ≤ f.heap.counts h.counter) := by
  have hinv : f.Invariant := run.call_invariant Family.Invariant (.new version contents)
    fun f call hf hkept ↦ (hf.perform hkept).1
  refine ⟨fun call hkept ↦ (hinv.perform hkept).2, fun k k' h h' hne hk hk' harray ↦ ?_⟩
  have hcounter := hinv.heap.counter hk hk' harray
  exact ⟨hcounter, hinv.heap.one_lt_counts hne hk hk' hcounter⟩

/-- A mutator that returns the slice it was given keeps the slices apart. -/
theorem mutatorKept_of_result (hinv : heap.Invariant) (id : ℕ) (field : Field) (mutator : Mutator)
    (hres : ∀ window cells, mutator.result window cells = .ok (.existing window)) :
    MutatorKept heap id field mutator := by
  intro h hh
  obtain ⟨howned, -, -⟩ := hinv.own hh [0]
  rw [hres]
  rintro window ⟨⟩
  exact ⟨howned.allocated, howned.exclusive⟩

/-- A mutator that sets the first byte, and fails if it is given an error. -/
def setFirst (val : ℕ) (err : Option Error) : Mutator where
  write := fun cells ↦ cells.set 0 val
  result := fun window _ ↦ err.elim (.ok (.existing window)) .error
  length_write := fun _ ↦ length_set

/-- An Altair state is copied.  A mutator that may fail is given to the state, and one that does not
fail to the copy. -/
def modifyBoth (err : Option Error) : List (ℕ × Request) :=
  [(0, .copy), (0, .set (.modifyCurrentParticipationBits (setFirst 7 err))),
    (1, .set (.modifyCurrentParticipationBits (setFirst 9 none)))]

/-- The family after the first of these calls. -/
def afterModifyBoth (err : Option Error) (calls : ℕ) : Family :=
  (execute perform (Family.new .altair fun _ ↦ [1, 2]) ((modifyBoth err).take calls)).2

theorem copies_independent_modifyBoth :
    (afterModifyBoth none 2).elements 0 .currentEpochParticipationBits = some [7, 2] ∧
      (afterModifyBoth none 3).elements 0 .currentEpochParticipationBits = some [7, 2] ∧
      (afterModifyBoth none 3).elements 1 .currentEpochParticipationBits = some [9, 2] := by
  have hstart := Family.Invariant.new .altair fun _ ↦ [1, 2]
  have hcopied : (afterModifyBoth none 1).Invariant :=
    (hstart.perform (show CallKept _ (0, .copy) from trivial)).1
  have hset : CallKept (afterModifyBoth none 1) (0, .set (.modifyCurrentParticipationBits
      (setFirst 7 none))) := mutatorKept_of_result hcopied.heap 0
    .currentEpochParticipationBits (setFirst 7 none) fun _ _ ↦ rfl
  have hmodified : (afterModifyBoth none 2).Invariant := (hcopied.perform hset).1
  have hsetCopy : CallKept (afterModifyBoth none 2) (1, .set (.modifyCurrentParticipationBits
      (setFirst 9 none))) := mutatorKept_of_result hmodified.heap 1
    .currentEpochParticipationBits (setFirst 9 none) fun _ _ ↦ rfl
  have hrun := run_execute perform CallKept (Family.new .altair fun _ ↦ [1, 2])
    ((modifyBoth none).take 2) ⟨trivial, hset, trivial⟩
  have hbefore : (afterModifyBoth none 2).elements 0 .currentEpochParticipationBits =
      some [7, 2] := by decide +kernel
  exact ⟨hbefore, (copies_independent .altair _ hrun).1 _ hsetCopy 0 (by decide) _ _ hbefore,
    by decide +kernel⟩

/-- The mutator of the state fails.  The state keeps the slice of its copy, each with a counter of
one, and the call on the copy changes the state. -/
theorem modifyBoth_changes_other :
    (afterModifyBoth (some (.errorf "failed" [])) 2).elements 0 .currentEpochParticipationBits =
        some [1, 2] ∧
      (afterModifyBoth (some (.errorf "failed" [])) 3).elements 0 .currentEpochParticipationBits =
        some [9, 2] := by
  decide +kernel

end Families

end Prysm.StateNative.SharedFields
