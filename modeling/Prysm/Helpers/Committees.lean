import Prysm.Helpers.Shuffle

/-!
# Beacon committees

The functions of `core/helpers/beacon_committee.go` and `container/slice` that assign the active
validators of an epoch to committees.  The list of active validators is shuffled and cut into as
many slices as there are committees in the epoch; the slices start at rounded multiples of the
average size.
-/

namespace Prysm.Helpers

open List hiding Vector
open Prysm.Library Nat

/-- The constants of the beacon chain configuration that committees depend on. -/
structure CommitteeConfig where
  slotsPerEpoch : ℕ
  targetCommitteeSize : ℕ
  maxCommitteesPerSlot : ℕ
  shuffleRoundCount : ℕ
  slotsPerEpoch_pos : 0 < slotsPerEpoch
  targetCommitteeSize_pos : 0 < targetCommitteeSize
  maxCommitteesPerSlot_pos : 0 < maxCommitteesPerSlot
  shuffleRoundCount_lt : shuffleRoundCount < 256
  committees_lt : maxCommitteesPerSlot * slotsPerEpoch < 2 ^ 24

/-- The values of `params.MainnetConfig`. -/
def mainnetCommittees : CommitteeConfig where
  slotsPerEpoch := 32
  targetCommitteeSize := 128
  maxCommitteesPerSlot := 64
  shuffleRoundCount := 90
  slotsPerEpoch_pos := thirtyTwo_pos
  targetCommitteeSize_pos := by decide
  maxCommitteesPerSlot_pos := by decide
  shuffleRoundCount_lt := by decide
  committees_lt := by decide

variable (config : CommitteeConfig) {j : ℕ} (count : ℕ)

def slotCommitteeCount (activeValidatorCount : ℕ) : ℕ :=
  let committeesPerSlot :=
    activeValidatorCount / config.slotsPerEpoch / config.targetCommitteeSize
  if committeesPerSlot > config.maxCommitteesPerSlot then config.maxCommitteesPerSlot
  else if committeesPerSlot = 0 then 1
  else committeesPerSlot

def splitOffset (listSize chunks index : ℕ) : ℕ := listSize * index % 2 ^ 64 / chunks

def computeCommittee (hashfunc : HashFunc) (indices : Array ValidatorIndex) (seed : Seed)
    (index count : ℕ) : Except Fault (List ValidatorIndex) :=
  if count = 0 then .error .panic
  else
    let start := splitOffset indices.size count index
    let stop := splitOffset indices.size count ((index + 1) % 2 ^ 64)
    if start > indices.size ∨ stop > indices.size then
      .error (.error (.errorf "index out of range" []))
    else
      match unshuffleList hashfunc config.shuffleRoundCount indices seed with
      | .error fault => .error fault
      | .ok shuffledList =>
        if start ≤ stop then .ok ((shuffledList.toList.drop start).take (stop - start))
        else .error .panic

/-- `BeaconCommittee`; `cached` is what the committee cache returns. -/
def beaconCommittee (hashfunc : HashFunc) (cached : Option (List ValidatorIndex))
    (validatorIndices : Array ValidatorIndex) (seed : Seed) (slot : Slot) (committeeIndex : ℕ) :
    Except Fault (List ValidatorIndex) :=
  match cached with
  | some committee => .ok committee
  | none =>
    let committeesPerSlot := slotCommitteeCount config validatorIndices.size
    let slotOffset := slot % config.slotsPerEpoch * committeesPerSlot
    if slotOffset ≥ 2 ^ 64 then .error .panic
    else if committeeIndex + slotOffset ≥ 2 ^ 64 then
      .error (.error (.wrapf (.errorf "addition overflows" [])
        "could not add calculate index offset" []))
    else
      computeCommittee config hashfunc validatorIndices seed (committeeIndex + slotOffset)
        (committeesPerSlot * config.slotsPerEpoch % 2 ^ 64)

section Slices

variable {α : Type*} {a : α} {offset : ℕ → ℕ}

/-- The slice of a list between two offsets. -/
def sliceBetween (offset : ℕ → ℕ) (list : List α) (j : ℕ) : List α :=
  (list.drop (offset j)).take (offset (j + 1) - offset j)

/-- Consecutive slices from the start make up the list up to their end. -/
theorem flatMap_sliceBetween (hmono : Monotone offset) (hzero : offset 0 = 0) (list : List α)
    (count : ℕ) : (range count).flatMap (sliceBetween offset list) = list.take (offset count) := by
  induction count with
  | zero => simp [hzero]
  | succ count ih =>
    have hle : offset count ≤ offset (count + 1) := hmono (Nat.le_succ count)
    calc
      _ = (range count).flatMap (sliceBetween offset list) ++ sliceBetween offset list count := by
        rw [range_succ, flatMap_append, flatMap_singleton]
      _ = list.take (offset count) ++
          (list.drop (offset count)).take (offset (count + 1) - offset count) := by
        rw [ih, sliceBetween]
      _ = list.take (offset (count + 1)) := by
        rw [← take_add, Nat.add_sub_cancel' hle]

theorem mem_sliceBetween {list : List α} :
    a ∈ sliceBetween offset list j ↔
      ∃ p, offset j ≤ p ∧ p < offset (j + 1) ∧ list[p]? = some a := by
  rw [sliceBetween, mem_iff_getElem?]
  constructor
  · intro ⟨p, hp⟩
    rw [getElem?_take] at hp
    split_ifs at hp with hlt
    rw [getElem?_drop] at hp
    exact ⟨offset j + p, by omega, by omega, hp⟩
  · intro ⟨p, hle, hlt, hp⟩
    refine ⟨p - offset j, ?_⟩
    rw [getElem?_take, if_pos (by omega), getElem?_drop, Nat.add_sub_cancel' hle, hp]

/-- An element of a list without duplicates is in one slice only. -/
theorem slice_unique (hmono : Monotone offset) {list : List α} (hnodup : list.Nodup) {j' : ℕ}
    (ha : a ∈ sliceBetween offset list j) (ha' : a ∈ sliceBetween offset list j') : j = j' := by
  obtain ⟨p, hle, hlt, hp⟩ := mem_sliceBetween.1 ha
  obtain ⟨p', hle', hlt', hp'⟩ := mem_sliceBetween.1 ha'
  have hsame : p = p' := (getElem?_inj (List.getElem?_eq_some_iff.1 hp).1 hnodup).1
    (hp.trans hp'.symm)
  by_contra hne
  rcases lt_or_gt_of_ne hne with hbelow | habove
  · have hoffset : offset (j + 1) ≤ offset j' := hmono hbelow
    omega
  · have hoffset : offset (j' + 1) ≤ offset j := hmono habove
    omega

theorem length_sliceBetween (list : List α) (hle : offset (j + 1) ≤ list.length) :
    (sliceBetween offset list j).length = offset (j + 1) - offset j := by
  rw [sliceBetween, length_take, length_drop]
  omega

theorem flatMap_range_mul (f : ℕ → List α) (rows columns : ℕ) :
    (range rows).flatMap (fun k ↦ (range columns).flatMap fun i ↦ f (i + k * columns)) =
      (range (rows * columns)).flatMap f := by
  induction rows with
  | zero => simp
  | succ rows ih =>
    rw [range_succ, flatMap_append, ih, succ_mul, range_add,
      flatMap_append, flatMap_singleton, flatMap_map]
    simp only [add_comm]

end Slices

theorem slotCommitteeCount_pos : 0 < slotCommitteeCount config count := by
  unfold slotCommitteeCount
  simp only
  split_ifs with hmax hzero
  · exact config.maxCommitteesPerSlot_pos
  · exact one_pos
  · exact pos_of_ne_zero hzero

theorem slotCommitteeCount_le : slotCommitteeCount config count ≤ config.maxCommitteesPerSlot := by
  unfold slotCommitteeCount
  simp only
  split_ifs with hmax hzero
  · exact le_rfl
  · exact config.maxCommitteesPerSlot_pos
  · exact not_lt.1 hmax

section Epoch

variable {config} {size i k : ℕ} {indices shuffled : Array ValidatorIndex} {hashfunc : HashFunc}
  {seed : Seed}

section

variable (config : CommitteeConfig) (size : ℕ)

/-- The number of committees in an epoch. -/
def epochCommitteeCount : ℕ :=
  slotCommitteeCount config size * config.slotsPerEpoch

theorem epochCommitteeCount_pos : 0 < epochCommitteeCount config size :=
  mul_pos (slotCommitteeCount_pos config size) config.slotsPerEpoch_pos

theorem epochCommitteeCount_lt : epochCommitteeCount config size < 2 ^ 24 :=
  (mul_le_mul_right _ (slotCommitteeCount_le config size)).trans_lt config.committees_lt

end

/-- The products that the offsets are computed from do not overflow. -/
theorem size_mul_lt (hsize : size ≤ maxShuffleListSize) (hj : j ≤ epochCommitteeCount config size) :
    size * j < 2 ^ 64 :=
  calc
    size * j ≤ 2 ^ 40 * epochCommitteeCount config size := Nat.mul_le_mul hsize hj
    _ < 2 ^ 40 * 2 ^ 24 :=
      mul_lt_mul_of_pos_left (epochCommitteeCount_lt config size) (by decide)
    _ = 2 ^ 64 := by decide

/-- Where the committee with number `j` of the epoch starts. -/
def committeeOffset (config : CommitteeConfig) (size j : ℕ) : ℕ :=
  size * j / epochCommitteeCount config size

theorem committeeOffset_mono (config : CommitteeConfig) (size : ℕ) :
    Monotone (committeeOffset config size) :=
  fun _ _ hle ↦ Nat.div_le_div_right (Nat.mul_le_mul_left size hle)

theorem committeeOffset_last (config : CommitteeConfig) (size : ℕ) :
    committeeOffset config size (epochCommitteeCount config size) = size :=
  Nat.mul_div_cancel size (epochCommitteeCount_pos config size)

theorem splitOffset_eq (hsize : size ≤ maxShuffleListSize)
    (hj : j ≤ epochCommitteeCount config size) :
    splitOffset size (epochCommitteeCount config size) j = committeeOffset config size j := by
  rw [splitOffset, Nat.mod_eq_of_lt (size_mul_lt hsize hj), committeeOffset]

/-- The size of a committee is the average, rounded down or up. -/
theorem committee_size (config : CommitteeConfig) (size j : ℕ) :
    size / epochCommitteeCount config size ≤
        committeeOffset config size (j + 1) - committeeOffset config size j ∧
      committeeOffset config size (j + 1) - committeeOffset config size j ≤
        size / epochCommitteeCount config size + 1 := by
  unfold committeeOffset
  generalize hcount : epochCommitteeCount config size = count
  have hpos : 0 < count := hcount ▸ epochCommitteeCount_pos config size
  rw [Nat.mul_succ, Nat.add_div hpos]
  generalize size / count = average
  split_ifs <;> omega

theorem committee_number_lt (hk : k < config.slotsPerEpoch)
    (hi : i < slotCommitteeCount config size) :
    i + k * slotCommitteeCount config size < epochCommitteeCount config size :=
  calc
    i + k * slotCommitteeCount config size
      < slotCommitteeCount config size + k * slotCommitteeCount config size := by omega
    _ = (k + 1) * slotCommitteeCount config size := by rw [succ_mul, add_comm]
    _ ≤ config.slotsPerEpoch * slotCommitteeCount config size := mul_le_mul_right _ hk
    _ = epochCommitteeCount config size := mul_comm _ _

/-- Different slots and indices have different numbers. -/
theorem number_injective {columns k' i' : ℕ} (hi : i < columns) (hi' : i' < columns)
    (hnumber : i + k * columns = i' + k' * columns) : (k, i) = (k', i') := by
  have hk : k = k' := by
    have hdiv := congrArg (· / columns) hnumber
    simpa [add_mul_div_right _ _ (zero_lt_of_lt hi), div_eq_of_lt hi, div_eq_of_lt hi'] using hdiv
  subst hk
  rw [add_right_cancel hnumber]

section

variable (hsize : indices.size ≤ maxShuffleListSize)
  (hshuffle : unshuffleList hashfunc config.shuffleRoundCount indices seed = .ok shuffled)
include hsize hshuffle

theorem computeCommittee_eq (hj : j < epochCommitteeCount config indices.size) :
    computeCommittee config hashfunc indices seed j (epochCommitteeCount config indices.size) =
      .ok (sliceBetween (committeeOffset config indices.size) shuffled.toList j) := by
  have hmono := committeeOffset_mono config indices.size
  have hstep : committeeOffset config indices.size j ≤
      committeeOffset config indices.size (j + 1) :=
    hmono (Nat.le_succ j)
  have hstop : committeeOffset config indices.size (j + 1) ≤ indices.size :=
    (hmono (succ_le_of_lt hj)).trans (committeeOffset_last config indices.size).le
  have hnext : (j + 1) % 2 ^ 64 = j + 1 := by
    have hlt := epochCommitteeCount_lt config indices.size
    exact Nat.mod_eq_of_lt (by omega)
  have hrange : ¬(committeeOffset config indices.size j > indices.size ∨
      committeeOffset config indices.size (j + 1) > indices.size) := by omega
  simp only [computeCommittee, hnext, splitOffset_eq hsize hj.le,
    splitOffset_eq hsize (succ_le_of_lt hj), hshuffle]
  rw [if_neg (epochCommitteeCount_pos config indices.size).ne', if_neg hrange, if_pos hstep]
  rfl

theorem beaconCommittee_eq (epoch : Epoch) (hk : k < config.slotsPerEpoch)
    (hi : i < slotCommitteeCount config indices.size) :
    beaconCommittee config hashfunc none indices seed (epoch * config.slotsPerEpoch + k) i =
      .ok (sliceBetween (committeeOffset config indices.size) shuffled.toList
        (i + k * slotCommitteeCount config indices.size)) := by
  have hslot : (epoch * config.slotsPerEpoch + k) % config.slotsPerEpoch = k := by
    rw [add_comm, add_mul_mod_self_right, Nat.mod_eq_of_lt hk]
  have hnumber := committee_number_lt hk hi
  have hlt : epochCommitteeCount config indices.size < 2 ^ 64 :=
    (epochCommitteeCount_lt config indices.size).trans (by decide)
  have hoffset : k * slotCommitteeCount config indices.size < 2 ^ 64 :=
    (le_add_left _ i).trans_lt (hnumber.trans hlt)
  have hmod : slotCommitteeCount config indices.size * config.slotsPerEpoch % 2 ^ 64 =
      epochCommitteeCount config indices.size := Nat.mod_eq_of_lt hlt
  simp only [beaconCommittee, hslot, hmod]
  rw [if_neg (not_le.2 hoffset), if_neg (not_le.2 (hnumber.trans hlt))]
  exact computeCommittee_eq hsize hshuffle hnumber

end

theorem flatMap_committees (shuffled : List ValidatorIndex) (hsize : shuffled.length = size) :
    ((range config.slotsPerEpoch).flatMap fun k ↦
      (range (slotCommitteeCount config size)).flatMap fun i ↦
        sliceBetween (committeeOffset config size) shuffled
          (i + k * slotCommitteeCount config size)) = shuffled := by
  rw [flatMap_range_mul, mul_comm,
    flatMap_sliceBetween (committeeOffset_mono config size) (by simp [committeeOffset])]
  exact take_of_length_le (hsize.trans (committeeOffset_last config size).symm).le

theorem length_committee (shuffled : List ValidatorIndex) (hsize : shuffled.length = size)
    (hj : j < epochCommitteeCount config size) :
    (sliceBetween (committeeOffset config size) shuffled j).length =
      committeeOffset config size (j + 1) - committeeOffset config size j := by
  apply length_sliceBetween
  calc
    _ ≤ committeeOffset config size (epochCommitteeCount config size) :=
      committeeOffset_mono config size (succ_le_of_lt hj)
    _ = shuffled.length := (committeeOffset_last config size).trans hsize.symm

end Epoch

/-- The committees of an epoch partition its active validators: their concatenation is a permutation
of them, every validator is in exactly one of them, their sizes differ by at most one, and no
product overflows. -/
theorem committees_partition (hashfunc : HashFunc) (indices : Array ValidatorIndex)
    (hnodup : indices.toList.Nodup) (hsize : indices.size ≤ maxShuffleListSize) (seed : Seed)
    (epoch : Epoch) :
    ∃ committee : ℕ → ℕ → List ValidatorIndex,
      (∀ k < config.slotsPerEpoch, ∀ i < slotCommitteeCount config indices.size,
        beaconCommittee config hashfunc none indices seed (epoch * config.slotsPerEpoch + k) i =
          .ok (committee k i)) ∧
      ((List.range config.slotsPerEpoch).flatMap fun k ↦
        (List.range (slotCommitteeCount config indices.size)).flatMap fun i ↦
          committee k i).Perm indices.toList ∧
      (∀ v ∈ indices.toList, ∃! number : ℕ × ℕ, number.1 < config.slotsPerEpoch ∧
        number.2 < slotCommitteeCount config indices.size ∧ v ∈ committee number.1 number.2) ∧
      (∀ k < config.slotsPerEpoch, ∀ i < slotCommitteeCount config indices.size,
        ∀ k' < config.slotsPerEpoch, ∀ i' < slotCommitteeCount config indices.size,
          (committee k i).length ≤ (committee k' i').length + 1) ∧
      (indices.size * (slotCommitteeCount config indices.size * config.slotsPerEpoch) <
        2 ^ 64) := by
  obtain ⟨shuffled, hshuffle, hrearranges⟩ :=
    unshuffleList_ok hashfunc config.shuffleRoundCount_lt seed hsize
  have hlen : shuffled.toList.length = indices.size := hrearranges.size_eq
  have hperm : ((range config.slotsPerEpoch).flatMap fun k ↦
      (range (slotCommitteeCount config indices.size)).flatMap fun i ↦
        sliceBetween (committeeOffset config indices.size) shuffled.toList
          (i + k * slotCommitteeCount config indices.size)).Perm indices.toList := by
    rw [flatMap_committees shuffled.toList hlen]
    exact hrearranges.perm
  refine ⟨fun k i ↦ sliceBetween (committeeOffset config indices.size) shuffled.toList
    (i + k * slotCommitteeCount config indices.size), ?_, hperm, ?_, ?_, size_mul_lt hsize le_rfl⟩
  · exact fun k hk i hi ↦ beaconCommittee_eq hsize hshuffle epoch hk hi
  · intro v hv
    have hmem := hperm.mem_iff.2 hv
    simp only [mem_flatMap, mem_range] at hmem
    obtain ⟨k, hk, i, hi, hmem⟩ := hmem
    refine ⟨(k, i), ⟨hk, hi, hmem⟩, ?_⟩
    rintro ⟨k', i'⟩ ⟨-, hi', hmem'⟩
    have hsame := slice_unique (committeeOffset_mono config indices.size)
      (hrearranges.perm.nodup_iff.2 hnodup) hmem' hmem
    exact number_injective hi' hi hsame
  · intro k hk i hi k' hk' i' hi'
    rw [length_committee shuffled.toList hlen (committee_number_lt hk hi),
      length_committee shuffled.toList hlen (committee_number_lt hk' hi')]
    have hsize := (committee_size config indices.size
      (i + k * slotCommitteeCount config indices.size)).2
    have hsize' := (committee_size config indices.size
      (i' + k' * slotCommitteeCount config indices.size)).1
    omega

/-- Three validators in an epoch of 32 slots. -/
theorem committees_partition_three :
    ∃ committee : ℕ → ℕ → List ValidatorIndex,
      beaconCommittee mainnetCommittees setBits none #[4, 7, 9] (Vector.replicate 32 0) 325 0 =
          .ok (committee 5 0) ∧
        ((List.range 32).flatMap fun k ↦
          (List.range (slotCommitteeCount mainnetCommittees 3)).flatMap
          fun i ↦ committee k i).Perm [4, 7, 9] := by
  obtain ⟨committee, hcommittee, hperm, -⟩ := committees_partition mainnetCommittees setBits
    #[4, 7, 9] (by decide) (by decide) (Vector.replicate 32 0) 10
  exact ⟨committee, hcommittee 5 (by decide) 0 (by decide), hperm⟩

end Prysm.Helpers
