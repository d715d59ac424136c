import Prysm.Slasher.Addressing
import Prysm.Slasher.Detection
import Prysm.Slasher.Spans

/-!
# Updating spans

The chunks of one validator chunk represent, for each of its validators, a value at every epoch of
the history window.  The update loops walk over the window and stop as soon as a value needs no
change.  As values are monotone, the walk amounts to taking the minimum or the maximum with the new
target at every epoch, provided it finds its way from chunk to chunk: the source computes the next
chunk from the wrapped chunk index, as if the history had not wrapped around.
-/

namespace Prysm.Slasher

open List Function Prysm.Library Nat ChunkKind Parameters

variable (params : Parameters) {f : Epoch} {w : ValidatorIndex}

/-! ### Views -/

/-- The chunks of one kind and one validator chunk, by chunk index. -/
abbrev View := ℕ → Chunk

/-- The chunks in memory, over those of the database, over empty ones. -/
def chunkView (disk : ChunkKind → ℕ → Option Chunk) (validatorChunkIndex : ℕ) (kind : ChunkKind)
    (chunks : ChunkMap) : View := fun chunkIndex ↦
  (chunks.get chunkIndex).getD
    ((disk kind (params.historyLength / params.chunkSize * validatorChunkIndex + chunkIndex)).getD
      (emptyChunk params kind))

theorem chunkView_put (disk : ChunkKind → ℕ → Option Chunk) (vci : ℕ)
    (kind : ChunkKind) (chunks : ChunkMap) (chunkIndex : ℕ) (chunk : Chunk) :
    chunkView params disk vci kind (chunks.put chunkIndex chunk) =
      Function.update (chunkView params disk vci kind chunks) chunkIndex chunk := by
  funext other
  by_cases hother : chunkIndex = other
  · subst hother
    simp [chunkView]
  · simp [chunkView, hother, update_of_ne (Ne.symm hother)]

/-- Chunks of the right length whose cells are `uint16`. -/
structure WellFormed (view : View) : Prop where
  length : ∀ chunkIndex, (view chunkIndex).length = params.chunkSize * params.validatorChunkSize
  lt : ∀ chunkIndex, ∀ distance ∈ view chunkIndex, distance < 2 ^ 16

section

variable (view : View) (validatorIndex : ValidatorIndex) (epoch : Epoch)

/-- The target epoch that the cell of a validator at an epoch holds. -/
def span : Epoch :=
  epoch + (view (params.chunkIndex epoch)).getD (params.cellIndex validatorIndex epoch) 0

/-- The view with one cell set. -/
def setCell (distance : ℕ) : View :=
  Function.update view (params.chunkIndex epoch)
    ((view (params.chunkIndex epoch)).set (params.cellIndex validatorIndex epoch) distance)

end

variable {params} {view : View} {v : ValidatorIndex} {e : Epoch}

section

variable (hview : WellFormed params view)
include hview

theorem WellFormed.cellIndex_lt_length (chunkIndex : ℕ) :
    params.cellIndex v e < (view chunkIndex).length := by
  rw [hview.length]
  exact cell_lt params.chunkSize_pos params.validatorChunkSize_pos v e

theorem WellFormed.setCell {distance : ℕ} (hdistance : distance < 2 ^ 16) :
    WellFormed params (setCell params view v e distance) where
  length := by
    intro chunkIndex
    by_cases hsame : chunkIndex = params.chunkIndex e
    · subst hsame
      simp [Slasher.setCell, hview.length]
    · simp [Slasher.setCell, hsame, hview.length]
  lt := by
    intro chunkIndex d hd
    by_cases hsame : chunkIndex = params.chunkIndex e
    · subst hsame
      simp only [Slasher.setCell, update_self] at hd
      rcases mem_or_eq_of_mem_set hd with hold | rfl
      · exact hview.lt _ d hold
      · exact hdistance
    · simp only [Slasher.setCell, update_of_ne hsame] at hd
      exact hview.lt _ d hd

theorem span_setCell_self (distance : ℕ) :
    span params (setCell params view v e distance) v e = e + distance := by
  have hlt := hview.cellIndex_lt_length (v := v) (e := e) (params.chunkIndex e)
  simp [span, setCell, getD_eq_getElem?_getD, getElem?_set_self hlt]

omit hview in
/-- Setting a cell changes no other validator of the chunk and no other residue. -/
theorem span_setCell_of_ne (hdvd : params.chunkSize ∣ params.historyLength) (distance : ℕ)
    (hchunk : v / params.validatorChunkSize = w / params.validatorChunkSize)
    (hne : v = w → e % params.historyLength ≠ f % params.historyLength) :
    span params (setCell params view v e distance) w f = span params view w f := by
  unfold span setCell
  by_cases hsame : params.chunkIndex f = params.chunkIndex e
  · have hcell : params.cellIndex v e ≠ params.cellIndex w f := by
      intro hcell
      obtain ⟨hv, hmod⟩ := cell_injective params.chunkSize_pos hdvd hchunk hsame.symm hcell
      exact hne hv hmod
    rw [hsame, update_self, getD_eq_getElem?_getD, getElem?_set_ne hcell, getD_eq_getElem?_getD]
  · rw [update_of_ne hsame]

theorem chunkDataAtEpoch_eq (hepoch : e + 2 ^ 16 ≤ 2 ^ 64) :
    chunkDataAtEpoch params (view (params.chunkIndex e)) v e = .ok (span params view v e) := by
  have hlt := hview.cellIndex_lt_length (v := v) (e := e) (params.chunkIndex e)
  have hdistance := hview.lt (params.chunkIndex e) _ (getElem_mem hlt)
  unfold chunkDataAtEpoch
  rw [if_neg (by simp [hview.length]), getElem?_eq_getElem hlt]
  simp only [addEpoch, span, getD_eq_getElem?_getD, getElem?_eq_getElem hlt, Option.getD_some]
  lia

theorem setChunkDataAtEpoch_eq {target : Epoch} (hle : e ≤ target) (hlt : target - e < 2 ^ 16) :
    setChunkDataAtEpoch params (view (params.chunkIndex e)) v e target =
      .ok (setCell params view v e (target - e) (params.chunkIndex e)) := by
  have hlen := hview.cellIndex_lt_length (v := v) (e := e) (params.chunkIndex e)
  unfold setChunkDataAtEpoch epochDistance
  rw [if_neg (not_lt.2 hle), mod_eq_of_lt hlt]
  simp [setChunkRawDistance, bind, Except.bind, setCell, hlen]

end

/-! ### Both walks -/

theorem minEpoch_le_iff (params : Parameters) (current epoch : Epoch) :
    minEpoch params current ≤ epoch ↔ current < epoch + params.historyLength := by
  have hpos := params.historyLength_pos
  unfold minEpoch
  split_ifs with hlong
  · lia
  · lia

theorem current_lt_minEpoch_add (params : Parameters) (current : Epoch) :
    current < minEpoch params current + params.historyLength :=
  (minEpoch_le_iff params current _).1 le_rfl

/-- The order of a walk, down for minimum spans and up for maximum spans.  Values go the same way: a
value needs no change if it is ahead of the target. -/
def ChunkKind.Ahead (kind : ChunkKind) (start epoch : Epoch) : Prop :=
  match kind with
  | .minSpan => epoch ≤ start
  | .maxSpan => start ≤ epoch

/-- The last epoch of the walk. -/
def ChunkKind.last (kind : ChunkKind) (params : Parameters) (current : Epoch) : Epoch :=
  match kind with
  | .minSpan => minEpoch params current
  | .maxSpan => current

def ChunkKind.next (kind : ChunkKind) (epoch : Epoch) : Epoch :=
  match kind with
  | .minSpan => epoch - 1
  | .maxSpan => epoch + 1

instance (kind : ChunkKind) (start epoch : Epoch) : Decidable (kind.Ahead start epoch) :=
  match kind with
  | .minSpan => inferInstanceAs (Decidable (_ ≤ _))
  | .maxSpan => inferInstanceAs (Decidable (_ ≤ _))

/-- The loop of `Update` for a kind. -/
def ChunkKind.updateLoop (kind : ChunkKind) (params : Parameters) (chunkIndex : ℕ)
    (current : Epoch) (v : ValidatorIndex) (target : Epoch) :
    ℕ → Epoch → Chunk → Except Fault (Chunk × Bool) :=
  match kind with
  | .minSpan => minUpdateLoop params chunkIndex current v target
  | .maxSpan => maxUpdateLoop params chunkIndex current v target

variable {kind : ChunkKind} {current target start stop x y : Epoch} {after : View} {chunkIndex : ℕ}

theorem ChunkKind.updateLoop_succ (fuel : ℕ) (epoch : Epoch) (chunk : Chunk) :
    kind.updateLoop params chunkIndex current v target (fuel + 1) epoch chunk =
      if params.chunkIndex epoch = chunkIndex ∧ kind.Ahead epoch (kind.last params current) then do
        let chunkTarget ← wrapf (chunkDataAtEpoch params chunk v epoch)
          "could not get chunk data at epoch %d" [.number epoch]
        if kind.Ahead target chunkTarget then return (chunk, false)
        else
          let updated ← wrapf (setChunkDataAtEpoch params chunk v epoch target)
            "could not set chunk data at epoch %d" [.number epoch]
          kind.updateLoop params chunkIndex current v target fuel (kind.next epoch) updated
      else .ok (chunk, kind.Ahead epoch (kind.last params current)) := by
  cases kind with
  | minSpan =>
    rw [updateLoop, minUpdateLoop]
    simp only [← not_le, ite_not]
    rfl
  | maxSpan =>
    rw [updateLoop, maxUpdateLoop]
    simp only [gt_iff_lt, ← not_le, ite_not]
    rfl

/-- The rounds that the loop needs.  The downward one visits epoch 0 twice if it writes to it. -/
def ChunkKind.rounds (kind : ChunkKind) (current target value epoch : Epoch) : ℕ :=
  match kind with
  | .minSpan => if target < value then epoch + 2 else epoch + 1
  | .maxSpan => current + 1 - epoch + 1

theorem ChunkKind.rounds_pos (value epoch : Epoch) :
    0 < kind.rounds current target value epoch := by
  cases kind with
  | minSpan =>
    rw [rounds]
    split_ifs <;> lia
  | maxSpan => exact succ_pos _

theorem ChunkKind.ahead_refl (kind : ChunkKind) (epoch : Epoch) : kind.Ahead epoch epoch := by
  cases kind <;> exact le_refl epoch

theorem ChunkKind.Ahead.trans (hxy : kind.Ahead x y) (hyz : kind.Ahead y e) : kind.Ahead x e := by
  cases kind with
  | minSpan => exact le_trans hyz hxy
  | maxSpan => exact le_trans hxy hyz

theorem ChunkKind.ahead_antisymm (hxy : kind.Ahead x y) (hyx : kind.Ahead y x) : x = y := by
  cases kind with
  | minSpan => exact le_antisymm hyx hxy
  | maxSpan => exact le_antisymm hxy hyx

theorem ChunkKind.ahead_of_next (hx : kind.Ahead (kind.next start) x) : kind.Ahead start x := by
  cases kind with
  | minSpan => exact le_trans hx (sub_le start 1)
  | maxSpan => exact le_trans (le_succ start) hx

theorem ChunkKind.ahead_next (hx : kind.Ahead start x) (hne : x ≠ start) :
    kind.Ahead (kind.next start) x := by
  cases kind with
  | minSpan => exact le_sub_one_of_lt (lt_of_le_of_ne hx hne)
  | maxSpan => exact lt_of_le_of_ne hx hne.symm

/-- The walk only stays where it is at epoch 0, the last one that it comes to. -/
theorem ChunkKind.eq_of_ahead_next (hstart : kind.Ahead (kind.next start) start)
    (hx : kind.Ahead start x) : x = start := by
  cases kind with
  | minSpan =>
    change start ≤ start - 1 at hstart
    change x ≤ start at hx
    lia
  | maxSpan => exact absurd hstart (not_succ_le_self _)

/-- The epochs that are held at the current epoch. -/
def Held (params : Parameters) (current epoch : Epoch) : Prop :=
  minEpoch params current ≤ epoch ∧ epoch ≤ current

theorem ChunkKind.ahead_last (kind : ChunkKind) (hheld : Held params current x) :
    kind.Ahead x (kind.last params current) := by
  cases kind with
  | minSpan => exact hheld.1
  | maxSpan => exact hheld.2

/-- A round that writes leaves less rounds. -/
theorem ChunkKind.rounds_next {value value' : Epoch} (hheld : Held params current start)
    (himproves : ¬ kind.Ahead target value) (hvalue : kind.next start = start → value' = target) :
    kind.rounds current target value' (kind.next start) <
      kind.rounds current target value start := by
  cases kind with
  | minSpan =>
    have hlt : target < value := not_le.1 himproves
    change start - 1 = start → value' = target at hvalue
    simp only [rounds, next, hlt, if_true]
    split_ifs <;> lia
  | maxSpan =>
    have hle := hheld.2
    simp only [rounds, next]
    lia

/-- What a walk relies on ahead of its start: it comes to epochs that are held only, once a value
needs no change none does later on, and the values that it changes are at epochs before the target.
-/
structure Walkable (params : Parameters) (kind : ChunkKind) (view : View) (v : ValidatorIndex)
    (current target start : Epoch) : Prop where
  held : ∀ x, kind.Ahead start x → kind.Ahead x (kind.last params current) → Held params current x
  stays : ∀ x y, kind.Ahead start x → kind.Ahead x y → Held params current x →
    Held params current y → kind.Ahead target (span params view v x) →
    kind.Ahead target (span params view v y)
  lt : ∀ x, kind.Ahead start x → Held params current x →
    ¬ kind.Ahead target (span params view v x) → x < target

/-- A later part of the walk, where the values are as before or where the last one is the target. -/
theorem Walkable.of_span (hwalk : Walkable params kind view v current target start)
    (hstop : ∀ x, kind.Ahead stop x → kind.Ahead start x)
    (hspan : ∀ x, kind.Ahead stop x → Held params current x →
      span params after v x = span params view v x ∨
        span params after v x = target ∧ ∀ y, kind.Ahead x y → y = x) :
    Walkable params kind after v current target stop where
  held x hx := hwalk.held x (hstop x hx)
  stays x y hx hy hheld hheld' hnot := by
    rcases hspan x hx hheld with heq | ⟨-, hlast⟩
    · rw [heq] at hnot
      rcases hspan y (hx.trans hy) hheld' with heq' | ⟨heq', -⟩
      · rw [heq']
        exact hwalk.stays x y (hstop x hx) hy hheld hheld' hnot
      · rw [heq']
        exact kind.ahead_refl target
    · rw [hlast y hy]
      exact hnot
  lt x hx hheld himproves := by
    rcases hspan x hx hheld with heq | ⟨heq, -⟩
    · exact hwalk.lt x (hstop x hx) hheld (heq ▸ himproves)
    · rw [heq] at himproves
      exact absurd (kind.ahead_refl target) himproves

/-- The spans of the validator are taken together with the target on the epochs of `range`, by
`combine`; those of the other validators are as before. -/
structure Combined (params : Parameters) (view after : View) (v : ValidatorIndex) (current : Epoch)
    (range : Epoch → Prop) [DecidablePred range] (combine : Epoch → Epoch) : Prop where
  span_eq : ∀ x, minEpoch params current ≤ x → x ≤ current →
    span params after v x =
      if range x then combine (span params view v x) else span params view v x
  frame : ∀ w x, w ≠ v → v / params.validatorChunkSize = w / params.validatorChunkSize →
    span params after w x = span params view w x

/-- The value that the walk leaves at an epoch. -/
def ChunkKind.combine (kind : ChunkKind) (target value : Epoch) : Epoch :=
  if kind.Ahead target value then value else target

/-- Nothing is written where no value needs a change. -/
theorem Combined.same {range : Epoch → Prop} [DecidablePred range]
    (hthere : ∀ x, Held params current x → range x → kind.Ahead target (span params view v x)) :
    Combined params view (Function.update view chunkIndex (view chunkIndex)) v current range
      (kind.combine target) := by
  rw [update_eq_self]
  refine ⟨fun x hx hx' ↦ ?_, fun _ _ _ _ ↦ rfl⟩
  split_ifs with hrange
  · rw [combine, if_pos (hthere x ⟨hx, hx'⟩ hrange)]
  · rfl

/-! ### One chunk -/

theorem update_update_setCell (chunk : Chunk) (distance : ℕ) :
    Function.update (setCell params view v e distance) (params.chunkIndex e) chunk =
      Function.update view (params.chunkIndex e) chunk :=
  update_idem _ _ _

section

variable (hdvd : params.chunkSize ∣ params.historyLength)
include hdvd

theorem span_setCell_held (hview : WellFormed params view) (he : Held params current e)
    (hle : e ≤ target) (hx : Held params current x) :
    span params (setCell params view v e (target - e)) v x =
      if x = e then target else span params view v x := by
  by_cases hsame : x = e
  · subst hsame
    rw [if_pos rfl, span_setCell_self hview]
    lia
  · rw [if_neg hsame]
    apply span_setCell_of_ne hdvd _ rfl
    intro _ hmod
    exact hsame
      (eq_of_mod_eq (current_lt_minEpoch_add params current) he.1 he.2 hx.1 hx.2 hmod).symm

/-- The loop in one chunk.  It takes the values to the target, of all epochs that it comes to or of
those before a last one, which is in another chunk. -/
theorem updateLoop_spec (hepochs : current + 2 ^ 16 ≤ 2 ^ 64)
    (hdistance : target < minEpoch params current + 2 ^ 16) (fuel : ℕ) :
    ∀ (view : View) (start : Epoch), WellFormed params view →
    Walkable params kind view v current target start →
    kind.rounds current target (span params view v start) start ≤ fuel → ∀ chunkIndex,
    ∃ chunk, ∃ stop : Option Epoch, kind.updateLoop params chunkIndex current v target fuel start
        (view chunkIndex) = .ok (chunk, stop.isSome) ∧
      WellFormed params (Function.update view chunkIndex chunk) ∧
      Combined params view (Function.update view chunkIndex chunk) v current
        (fun x ↦ kind.Ahead start x ∧ ∀ last ∈ stop, ¬ kind.Ahead last x) (kind.combine target) ∧
      ∀ last ∈ stop, kind.Ahead start last ∧ kind.Ahead last (kind.last params current) ∧
        params.chunkIndex last ≠ chunkIndex ∧ ∀ x, kind.Ahead start x → ¬ kind.Ahead last x →
          params.chunkIndex x = chunkIndex ∧ x < target := by
  induction fuel with
  | zero =>
    intro view start _ _ hfuel
    exact absurd (kind.rounds_pos _ _) (not_lt.2 hfuel)
  | succ fuel ih =>
    intro view start hview hwalk hfuel chunkIndex
    have hview' : WellFormed params (Function.update view chunkIndex (view chunkIndex)) := by
      rwa [update_eq_self]
    rw [updateLoop_succ]
    by_cases hloop :
        params.chunkIndex start = chunkIndex ∧ kind.Ahead start (kind.last params current)
    · obtain ⟨rfl, hinside⟩ := hloop
      have hheld := hwalk.held start (kind.ahead_refl start) hinside
      have hlow := hheld.1
      have hcurr := hheld.2
      have hread := chunkDataAtEpoch_eq (v := v) (e := start) hview (by lia)
      simp only [true_and, hinside, if_true, hread, wrapf_ok, bind, Except.bind]
      by_cases hthere : kind.Ahead target (span params view v start)
      · rw [if_pos hthere]
        exact ⟨_, none, rfl, hview', .same fun x hx hahead ↦
          hwalk.stays start x (kind.ahead_refl start) hahead.1 hheld hx hthere, nofun⟩
      · have hlt := hwalk.lt start (kind.ahead_refl start) hheld hthere
        rw [if_neg hthere, setChunkDataAtEpoch_eq hview hlt.le (by lia), wrapf_ok]
        have hspan (x : Epoch) (hx : Held params current x) :=
          span_setCell_held (v := v) hdvd hview hheld hlt.le hx
        obtain ⟨chunk, stop, hrun, hwell, hcombined, hstop⟩ :=
          ih (setCell params view v start (target - start)) (kind.next start)
            (hview.setCell (by lia)) (hwalk.of_span (fun _ ↦ ahead_of_next)
              fun x hx hx' ↦ by
                rw [hspan x hx']
                by_cases heq : x = start
                · subst heq
                  exact .inr ⟨if_pos rfl, fun y hy ↦ eq_of_ahead_next hx hy⟩
                · exact .inl (if_neg heq))
            (le_of_lt_succ ((rounds_next hheld hthere fun hnext ↦ by
              rw [hnext, hspan start hheld, if_pos rfl]).trans_le hfuel)) (params.chunkIndex start)
        rw [update_update_setCell] at hwell hcombined
        refine ⟨chunk, stop, hrun, hwell, ⟨fun x hx hx' ↦ ?_, fun w x hne hw ↦ ?_⟩,
          fun last hmem ↦ ?_⟩
        · rw [hcombined.span_eq x hx hx', hspan x ⟨hx, hx'⟩]
          by_cases heq : x = start
          · subst heq
            have hfirst (last : Epoch) (hmem : last ∈ stop) : ¬ kind.Ahead last x := by
              obtain ⟨hahead, -, hchunk, -⟩ := hstop last hmem
              intro hback
              rw [ahead_antisymm hback (ahead_of_next hahead)] at hchunk
              exact hchunk rfl
            have hself : kind.combine target target = target := if_pos (kind.ahead_refl target)
            rw [if_pos rfl, hself, ite_self, if_pos ⟨kind.ahead_refl x, hfirst⟩, combine,
              if_neg hthere]
          · rw [if_neg heq]
            exact if_congr (and_congr_left fun _ ↦ ⟨ahead_of_next,
              fun hahead ↦ ahead_next hahead heq⟩) rfl rfl
        · rw [hcombined.frame w x hne hw]
          exact span_setCell_of_ne hdvd _ hw (fun h ↦ absurd h.symm hne)
        · obtain ⟨hahead, hlast, hchunk, hbefore⟩ := hstop last hmem
          refine ⟨ahead_of_next hahead, hlast, hchunk, fun x hx hx' ↦ ?_⟩
          by_cases heq : x = start
          · subst heq
            exact ⟨rfl, hlt⟩
          · exact hbefore x (ahead_next hx heq) hx'
    · rw [if_neg hloop]
      by_cases hinside : kind.Ahead start (kind.last params current)
      · refine ⟨_, some start, by rw [decide_eq_true hinside, Option.isSome_some], hview',
          .same fun x _ hx ↦ absurd hx.1 (hx.2 start rfl), ?_⟩
        rintro _ ⟨⟩
        exact ⟨kind.ahead_refl start, hinside, fun hchunk ↦ hloop ⟨hchunk, hinside⟩,
          fun x hx hx' ↦ absurd hx hx'⟩
      · exact ⟨_, none, by rw [decide_eq_false hinside, Option.isSome_none], hview',
          .same fun x hheld hx ↦ absurd (hx.1.trans (kind.ahead_last hheld)) hinside, nofun⟩

/-! ### From chunk to chunk -/

variable (epoch : Epoch)

/-- Chunk indexes count the chunks of absolute epochs, modulo the number of chunks. -/
theorem chunkIndex_eq :
    params.chunkIndex epoch =
      epoch / params.chunkSize % (params.historyLength / params.chunkSize) := by
  obtain ⟨width, hwidth⟩ := hdvd
  unfold chunkIndex
  rw [hwidth, Nat.mul_div_cancel_left _ params.chunkSize_pos]
  exact mod_mul_right_div_self _ _ _

omit hdvd in
theorem chunkIndex_of_lt {epoch : Epoch} (hlt : epoch < params.historyLength) :
    params.chunkIndex epoch = epoch / params.chunkSize := by
  unfold chunkIndex
  rw [mod_eq_of_lt hlt]

theorem chunkIndex_lt_width :
    params.chunkIndex epoch < params.historyLength / params.chunkSize := by
  rw [chunkIndex_eq hdvd]
  exact mod_lt _ (div_pos (le_of_dvd params.historyLength_pos hdvd) params.chunkSize_pos)

theorem chunkIndex_congr (hsame : e / params.chunkSize = f / params.chunkSize) :
    params.chunkIndex e = params.chunkIndex f := by
  rw [chunkIndex_eq hdvd, chunkIndex_eq hdvd, hsame]

end

/-- The downward walk from `start` leaves no chunk after the history has wrapped around: there is
only one chunk, or `start` is in the first round, or its chunk reaches down to the window's end. -/
def MinUnwrapped (params : Parameters) (current start : Epoch) : Prop :=
  params.historyLength = params.chunkSize ∨ start < params.historyLength ∨
    start / params.chunkSize * params.chunkSize ≤ minEpoch params current

/-- The upward walk from `start` to the target leaves no chunk after the history has wrapped around:
there is only one chunk, or the chunk of the target begins in the first round, at its end, or before
`start`. -/
def MaxUnwrapped (params : Parameters) (target start : Epoch) : Prop :=
  params.historyLength = params.chunkSize ∨
    target / params.chunkSize * params.chunkSize ≤ max params.historyLength start

instance : Decidable (MinUnwrapped params current e) :=
  inferInstanceAs (Decidable (_ ∨ _ ∨ _))

instance : Decidable (MaxUnwrapped params target e) :=
  inferInstanceAs (Decidable (_ ∨ _))

theorem width_eq_one (hlen : params.historyLength = params.chunkSize) :
    params.historyLength / params.chunkSize = 1 := by
  rw [hlen, Nat.div_self params.chunkSize_pos]

/-- Where an unwrapped downward walk leaves a chunk, the source finds the next one. -/
theorem nextChunkStartEpoch_min (hdvd : params.chunkSize ∣ params.historyLength)
    (hunwrapped : MinUnwrapped params current start) (hstop : stop ≤ start)
    (hlow : minEpoch params current ≤ stop)
    (hchunks : ∀ x, stop < x → x ≤ start → params.chunkIndex x = params.chunkIndex start)
    (hleft : params.chunkIndex stop ≠ params.chunkIndex start) :
    start < params.historyLength ∧ nextChunkStartEpoch params .minSpan start = stop := by
  have hpos := params.chunkSize_pos
  have hlt : stop / params.chunkSize < start / params.chunkSize :=
    lt_of_le_of_ne (Nat.div_le_div_right hstop) fun hsame ↦ hleft (chunkIndex_congr hdvd hsame)
  have hstart : start < params.historyLength := by
    rcases hunwrapped with hone | hlt | hchunk
    · rw [chunkIndex_eq hdvd, chunkIndex_eq hdvd, width_eq_one hone, mod_one, mod_one] at hleft
      exact absurd rfl hleft
    · exact hlt
    · have hge : start / params.chunkSize ≤ stop / params.chunkSize :=
        (le_div_iff_mul_le hpos).2 (hchunk.trans hlow)
      exact absurd hlt (not_lt.2 hge)
  refine ⟨hstart, ?_⟩
  have hstop' : stop < start := lt_of_le_of_ne hstop fun heq ↦ hleft (heq ▸ rfl)
  have hsame := hchunks (stop + 1) (lt_succ_self stop) hstop'
  rw [chunkIndex_of_lt (by lia), chunkIndex_of_lt hstart] at hsame
  have hbound : stop + 1 = start / params.chunkSize * params.chunkSize := by
    have hupper : stop < start / params.chunkSize * params.chunkSize :=
      (div_lt_iff_lt_mul hpos).1 hlt
    have hlower : start / params.chunkSize * params.chunkSize ≤ stop + 1 :=
      hsame ▸ div_mul_le_self _ _
    lia
  obtain ⟨prev, hprev⟩ := exists_eq_succ_of_ne_zero (ne_zero_of_lt hlt)
  unfold nextChunkStartEpoch lastEpoch firstEpoch
  rw [hprev, succ_mul] at hbound
  rw [chunkIndex_of_lt hstart, hprev, succ_sub_one]
  lia

/-- Where an unwrapped upward walk leaves a chunk, the source finds the next one. -/
theorem nextChunkStartEpoch_max (hdvd : params.chunkSize ∣ params.historyLength)
    (hunwrapped : MaxUnwrapped params target start) (hstop : start ≤ stop) (htgt : stop ≤ target)
    (hchunks : ∀ x, start ≤ x → x < stop → params.chunkIndex x = params.chunkIndex start)
    (hleft : params.chunkIndex stop ≠ params.chunkIndex start) :
    start < params.historyLength ∧ stop ≤ params.historyLength ∧
      nextChunkStartEpoch params .maxSpan start = stop := by
  have hpos := params.chunkSize_pos
  have hlt : start / params.chunkSize < stop / params.chunkSize :=
    lt_of_le_of_ne (Nat.div_le_div_right hstop) fun hsame ↦ hleft (chunkIndex_congr hdvd hsame.symm)
  have hmany : params.historyLength ≠ params.chunkSize := by
    intro hone
    rw [chunkIndex_eq hdvd, chunkIndex_eq hdvd, width_eq_one hone, mod_one, mod_one] at hleft
    exact hleft rfl
  have hstart : start < params.historyLength := by
    by_contra hge
    have hbound : target / params.chunkSize * params.chunkSize ≤ start := by
      rcases hunwrapped with hone | hbound
      · exact absurd hone hmany
      · rwa [max_eq_right (not_lt.1 hge)] at hbound
    have hle : target / params.chunkSize ≤ start / params.chunkSize :=
      (le_div_iff_mul_le hpos).2 hbound
    exact absurd (Nat.div_le_div_right htgt) (not_le.2 (lt_of_le_of_lt hle hlt))
  -- the boundary after the chunk of `start` is where the index changes first
  have hboundary : (start / params.chunkSize + 1) * params.chunkSize ≤ params.historyLength := by
    obtain ⟨width, hwidth⟩ := hdvd
    have hchunk : start / params.chunkSize < width :=
      (div_lt_iff_lt_mul hpos).2 (by rw [mul_comm, ← hwidth]; exact hstart)
    rw [hwidth, mul_comm params.chunkSize]
    exact mul_le_mul_right _ hchunk
  have hge : (start / params.chunkSize + 1) * params.chunkSize ≤ stop :=
    (le_div_iff_mul_le hpos).1 hlt
  have heq : stop = (start / params.chunkSize + 1) * params.chunkSize := by
    by_contra hne
    have hinside := hchunks ((start / params.chunkSize + 1) * params.chunkSize)
      (lt_div_mul_add hpos |>.le.trans (by rw [succ_mul])) (lt_of_le_of_ne hge (Ne.symm hne))
    rw [chunkIndex_of_lt hstart] at hinside
    rcases hboundary.lt_or_eq with hless | hlast
    · rw [chunkIndex_of_lt hless, Nat.mul_div_cancel _ hpos] at hinside
      lia
    · rw [hlast, chunkIndex, mod_self, Nat.zero_div] at hinside
      rw [← hinside, zero_add, one_mul] at hlast
      exact hmany hlast.symm
  refine ⟨hstart, heq ▸ hboundary, ?_⟩
  unfold nextChunkStartEpoch firstEpoch
  rw [chunkIndex_of_lt hstart, heq]

/-- The walk from `start` leaves no chunk after the history has wrapped around. -/
def UnwrappedFrom (params : Parameters) (kind : ChunkKind) (current target start : Epoch) : Prop :=
  match kind with
  | .minSpan => MinUnwrapped params current start
  | .maxSpan => MaxUnwrapped params target start

/-- A bound of the number of chunks that an unwrapped walk leaves. -/
def ChunkKind.chunkRounds (kind : ChunkKind) (params : Parameters) (start : Epoch) : ℕ :=
  match kind with
  | .minSpan => min start params.historyLength
  | .maxSpan => params.historyLength - start

theorem nextChunkStartEpoch_eq (hdvd : params.chunkSize ∣ params.historyLength)
    (hunwrapped : UnwrappedFrom params kind current target start) (hahead : kind.Ahead start stop)
    (hlast : kind.Ahead stop (kind.last params current))
    (hbefore : ∀ x, kind.Ahead start x → ¬ kind.Ahead stop x →
      params.chunkIndex x = params.chunkIndex start ∧ x < target)
    (hleft : params.chunkIndex stop ≠ params.chunkIndex start) :
    nextChunkStartEpoch params kind start = stop ∧
      UnwrappedFrom params kind current target stop ∧
      kind.chunkRounds params stop < kind.chunkRounds params start := by
  have hne : stop ≠ start := fun heq ↦ hleft (heq ▸ rfl)
  cases kind with
  | minSpan =>
    obtain ⟨hstart, hnext⟩ := nextChunkStartEpoch_min hdvd hunwrapped hahead hlast
      (fun x hx hx' ↦ (hbefore x hx' (not_le.2 hx)).1) hleft
    have hlt : stop < start := lt_of_le_of_ne hahead hne
    exact ⟨hnext, .inr (.inl (by lia)), by simp only [chunkRounds]; lia⟩
  | maxSpan =>
    have hlt : start < stop := lt_of_le_of_ne hahead hne.symm
    have hreach := (hbefore (stop - 1) (le_sub_one_of_lt hlt)
      (not_le.2 (sub_lt (zero_lt_of_lt hlt) one_pos))).2
    obtain ⟨hstart, hround, hnext⟩ := nextChunkStartEpoch_max hdvd hunwrapped hahead (by lia)
      (fun x hx hx' ↦ (hbefore x hx (not_le.2 hx')).1) hleft
    refine ⟨hnext, hunwrapped.imp_right fun hbound ↦ ?_, by simp only [chunkRounds]; lia⟩
    rw [max_eq_left hstart.le] at hbound
    exact hbound.trans (le_max_left _ _)

end Prysm.Slasher
