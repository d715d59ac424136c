import Prysm.Slasher.Chunks
import Mathlib.Data.Nat.ModEq

/-!
# Disk addresses of cells

The key of a chunk counts the epochs modulo the history length, the index of a cell counts them
modulo the chunk size.  Together they tell all cells of one history window apart.
-/

namespace Prysm.Slasher

open Nat

section

variable {C K H a b x y : ℕ}

theorem row_injective (hx : x < C) (hy : y < C) (heq : a * C + x = b * C + y) : a = b ∧ x = y := by
  have hmod := congrArg (· % C) heq
  simp only [mul_add_mod', mod_eq_of_lt hx, mod_eq_of_lt hy] at hmod
  subst hmod
  exact ⟨eq_of_mul_eq_mul_right (zero_lt_of_lt hx) (add_right_cancel heq), rfl⟩

variable {v w e f low current : ℕ}

theorem cell_lt (hC : 0 < C) (hK : 0 < K) (v e : ℕ) : v % K * C + e % C < C * K :=
  calc v % K * C + e % C
      < v % K * C + C := Nat.add_lt_add_left (mod_lt e hC) _
    _ = (v % K + 1) * C := (succ_mul _ _).symm
    _ ≤ K * C := mul_le_mul_right _ (mod_lt v hK)
    _ = C * K := mul_comm _ _

/-- Chunk index and cell index determine the validator of the validator chunk and the epoch up to
the history length. -/
theorem cell_injective (hC : 0 < C) (hdvd : C ∣ H) (hvals : v / K = w / K)
    (hchunk : e % H / C = f % H / C) (hcell : v % K * C + e % C = w % K * C + f % C) :
    v = w ∧ e % H = f % H := by
  obtain ⟨hdiv, hmod⟩ := row_injective (mod_lt e hC) (mod_lt f hC) hcell
  constructor
  · rw [← div_add_mod v K, ← div_add_mod w K, hvals, hdiv]
  · rw [← div_add_mod (e % H) C, ← div_add_mod (f % H) C, mod_mod_of_dvd e hdvd,
      mod_mod_of_dvd f hdvd, hmod, hchunk]

/-- Epochs of one history window are told apart by their residues. -/
theorem eq_of_mod_eq (hwindow : current < low + H) (he : low ≤ e) (he' : e ≤ current)
    (hf : low ≤ f) (hf' : f ≤ current) (hmod : e % H = f % H) : e = f := by
  rcases le_total e f with hle | hle
  · have hdvd : H ∣ f - e := (modEq_iff_dvd' hle).1 hmod
    have hzero := eq_zero_of_dvd_of_lt hdvd (by lia)
    lia
  · have hdvd : H ∣ e - f := (modEq_iff_dvd' hle).1 hmod.symm
    have hzero := eq_zero_of_dvd_of_lt hdvd (by lia)
    lia

end

/-- The sizes of `Parameters`, of which nothing is asked. -/
structure Sizes where
  chunkSize : ℕ
  validatorChunkSize : ℕ
  historyLength : Epoch

namespace Sizes

variable (sizes : Sizes) (v : ValidatorIndex) (e : Epoch)

def chunkIndex : ℕ :=
  e % sizes.historyLength / sizes.chunkSize

def validatorChunkIndex : ℕ :=
  v / sizes.validatorChunkSize

/-- The index of a cell before it is cut to a `uint64`. -/
def cell : ℕ :=
  v % sizes.validatorChunkSize * sizes.chunkSize + e % sizes.chunkSize

def cellIndex : ℕ :=
  sizes.cell v e % 2 ^ 64

def flatSliceID (validatorChunkIndex chunkIndex : ℕ) : Except Fault ℕ :=
  let width := sizes.historyLength / sizes.chunkSize
  if width * validatorChunkIndex + chunkIndex < 2 ^ 64 then
    .ok (width * validatorChunkIndex + chunkIndex)
  else .error .panic

variable {sizes}

theorem of_flatSliceID {a b id : ℕ} (hid : sizes.flatSliceID a b = .ok id) :
    a * (sizes.historyLength / sizes.chunkSize) + b = id := by
  simp only [flatSliceID] at hid
  split_ifs at hid
  cases hid
  rw [mul_comm]

end Sizes

/-- The indexes of `Parameters`, whose chunks are small enough not to be cut. -/
theorem Parameters.sizes_eq (params : Parameters) (v : ValidatorIndex) (e : Epoch) :
    let sizes : Sizes := ⟨params.chunkSize, params.validatorChunkSize, params.historyLength⟩
    sizes.cellIndex v e = params.cellIndex v e ∧ sizes.flatSliceID = params.flatSliceID := by
  have hlt := cell_lt params.chunkSize_pos params.validatorChunkSize_pos v e
  have hcells := params.cells_lt
  exact ⟨mod_eq_of_lt (by change _ % _ * _ + _ < _; lia), rfl⟩

/-- The key of the chunk and the cell index are those of one cell of the window only. -/
theorem Sizes.address_injective (sizes : Sizes) (hC : 0 < sizes.chunkSize)
    (hK : 0 < sizes.validatorChunkSize) (hH : 0 < sizes.historyLength)
    (hdvd : sizes.chunkSize ∣ sizes.historyLength) :
    (∀ v e, sizes.cellIndex v e < sizes.chunkSize * sizes.validatorChunkSize) ∧
      ∀ low v w e f id, e ∈ Set.Ico low (low + sizes.historyLength) →
        f ∈ Set.Ico low (low + sizes.historyLength) →
        sizes.cell v e < 2 ^ 64 → sizes.cell w f < 2 ^ 64 →
        sizes.flatSliceID (sizes.validatorChunkIndex v) (sizes.chunkIndex e) = .ok id →
        sizes.flatSliceID (sizes.validatorChunkIndex w) (sizes.chunkIndex f) = .ok id →
        sizes.cellIndex v e = sizes.cellIndex w f → v = w ∧ e = f := by
  refine ⟨fun v e ↦ (mod_le _ _).trans_lt (cell_lt hC hK v e),
    fun low v w e f id he hf hv hw hid hid' hcell ↦ ?_⟩
  rw [cellIndex, cellIndex, mod_eq_of_lt hv, mod_eq_of_lt hw] at hcell
  have hwidth (x : Epoch) : sizes.chunkIndex x < sizes.historyLength / sizes.chunkSize :=
    div_lt_div_of_lt_of_dvd hdvd (mod_lt x hH)
  obtain ⟨hvals, hchunk⟩ := row_injective (hwidth e) (hwidth f)
    ((of_flatSliceID hid).trans (of_flatSliceID hid').symm)
  obtain ⟨hvw, hmod⟩ := cell_injective hC hdvd hvals hchunk hcell
  refine ⟨hvw, eq_of_mod_eq ?_ he.1 (le_sub_one_of_lt he.2) hf.1 (le_sub_one_of_lt hf.2) hmod⟩
  lia

theorem Sizes.address_injective_wrapped :
    let sizes : Sizes := ⟨3, 3, 12⟩
    sizes.flatSliceID (sizes.validatorChunkIndex 6) (sizes.chunkIndex 18) = .ok 10 ∧
      ∀ w f, f ∈ Set.Ico 10 22 → sizes.cell w f < 2 ^ 64 →
        sizes.flatSliceID (sizes.validatorChunkIndex w) (sizes.chunkIndex f) = .ok 10 →
        0 = sizes.cellIndex w f → 6 = w ∧ 18 = f := by
  refine ⟨rfl, fun w f hf hw hid hcell ↦ ?_⟩
  have hunique := (address_injective ⟨3, 3, 12⟩ (by decide) (by decide) (by decide) (by decide)).2
  exact hunique 10 6 w 18 f 10 ⟨by decide, by decide⟩ hf (by decide) hw rfl hid hcell

end Prysm.Slasher
