import Mathlib.Data.Vector.Defs
import Prysm.Primitives
import Prysm.Library.Involution

/-!
# Swap-or-not shuffling

The functions of `core/helpers/shuffle.go`.  `ComputeShuffledIndex` follows one index through the
rounds.  In each round an index has a partner, its mirror image about a pivot, and moves there if a
bit of a hash is set; the bit belongs to the higher index of the pair.  `ShuffleList` and
`UnshuffleList` run the rounds on a whole list in place.  They visit each pair once, from the edges
of the two mirrored ranges inwards, and keep the hash and the byte of the last bit while they last.

Whatever the hash function is, a round is an involution of the indices, the list round applies it,
and so the list functions agree with the index function.
-/

namespace Prysm.Helpers

open List hiding Vector
open Prysm.Library UInt8

/-- A function from bytes to 32 bytes; the source uses SHA-256. -/
abbrev HashFunc := List UInt8 → Vector UInt8 32

abbrev Seed := Vector UInt8 32

def maxShuffleListSize : ℕ := 2 ^ 40

/-- The bytes of a number, least significant first. -/
def littleEndian (width n : ℕ) : List UInt8 :=
  (List.range width).map fun k ↦ UInt8.ofNat (n / 256 ^ k)

/-- The number that the first eight bytes of a hash stand for, least significant first. -/
def fromBytes8 (hash : Vector UInt8 32) : ℕ :=
  (hash.toList.take 8).foldr (fun byte value ↦ byte.toNat + 256 * value) 0

section Rounds

variable (hashfunc : HashFunc) (seed : Seed) (round : UInt8)

def roundPivot (indexCount : ℕ) : ℕ :=
  fromBytes8 (hashfunc (seed.toList ++ [round])) % indexCount

/-- The hash that holds the bits of the 256 positions around a position. -/
def sourceAt (position : ℕ) : Vector UInt8 32 :=
  hashfunc (seed.toList ++ [round] ++ littleEndian 4 (position / 256))

/-- The byte of a hash that holds the bit of a position. -/
def byteAt (source : Vector UInt8 32) (position : ℕ) : UInt8 :=
  source.get ⟨position % 256 / 8, by omega⟩

def bitAt (byteV : UInt8) (position : ℕ) : Bool :=
  (byteV >>> UInt8.ofNat (position % 8)) &&& 1 == 1

/-- The loop body of `ComputeShuffledIndex`. -/
def shuffleRound (indexCount index : ℕ) : ℕ :=
  let pivot := roundPivot hashfunc seed round indexCount
  let flip := (pivot + indexCount - index) % indexCount
  let position := if flip > index then flip else index
  let byteV := byteAt (sourceAt hashfunc seed round position) position
  if bitAt byteV position then flip else index

/-- The hash and the byte that the list loops carry along. -/
structure Window where
  byteV : UInt8
  source : Vector UInt8 32

/-- The window that the list loops start with. -/
def windowAt (position : ℕ) : Window where
  byteV := byteAt (sourceAt hashfunc seed round position) position
  source := sourceAt hashfunc seed round position

variable {α : Type*}

/-- `swapOrNot`, which panics if it swaps a position that the list does not have. -/
def swapOrNot (window : Window) (i j : ℕ) (input : Array α) : Except Fault (Window × Array α) :=
  let source := if j % 256 = 255 then sourceAt hashfunc seed round j else window.source
  let byteV := if j % 8 = 7 then byteAt source j else window.byteV
  if bitAt byteV j then
    if i < input.size ∧ j < input.size then .ok (⟨byteV, source⟩, input.swapIfInBounds i j)
    else .error .panic
  else .ok (⟨byteV, source⟩, input)

/-- The loop over a mirrored range, which runs `count` times. -/
def swapRange : ℕ → ℕ → ℕ → Window → Array α → Except Fault (Array α)
  | 0, _, _, _, input => .ok input
  | count + 1, i, j, window, input => do
    let (window, input) ← swapOrNot hashfunc seed round window i j input
    swapRange count (i + 1) (j - 1) window input

/-- The loop body of `innerShuffleList`: the range up to the pivot, then the range after it. -/
def shuffleListRound (listSize : ℕ) (input : Array α) : Except Fault (Array α) := do
  let pivot := roundPivot hashfunc seed round listSize
  let mirror := (pivot + 1) / 2
  let input ← swapRange hashfunc seed round mirror 0 pivot
    (windowAt hashfunc seed round pivot) input
  let mirror := (pivot + listSize + 1) / 2
  let last := listSize - 1
  swapRange hashfunc seed round (mirror - (pivot + 1)) (pivot + 1) last
    (windowAt hashfunc seed round last) input

end Rounds

section Loops

variable {State : Type*}

/-- The loop over the rounds, forwards or backwards.  Rounds are bytes, so it ends within 256
iterations. -/
def roundLoop (shuffle : Bool) (rounds : UInt8) (body : UInt8 → State → State) :
    ℕ → UInt8 → State → State
  | 0, _, state => state
  | fuel + 1, round, state =>
    if shuffle then
      if round + 1 = rounds then body round state
      else roundLoop shuffle rounds body fuel (round + 1) (body round state)
    else
      if round = 0 then body round state
      else roundLoop shuffle rounds body fuel (round - 1) (body round state)

/-- The rounds of `ComputeShuffledIndex` and of `innerShuffleList`, from the first one. -/
def runRounds (shuffle : Bool) (rounds : UInt8) (body : UInt8 → State → State) (state : State) :
    State :=
  roundLoop shuffle rounds body 256 (if shuffle then 0 else rounds - 1) state

end Loops

variable (hashfunc : HashFunc) (shuffleRoundCount : ℕ) {σ : ℕ → ℕ}

def computeShuffledIndex (index indexCount : ℕ) (seed : Seed) (shuffle : Bool) : Except Error ℕ :=
  if shuffleRoundCount = 0 then .ok index
  else if index ≥ indexCount then
    .error (.errorf "input index %d out of bounds: %d" [.number index, .number indexCount])
  else if indexCount > maxShuffleListSize then
    .error (.errorf "list size %d out of bounds" [.number indexCount])
  else
    .ok (runRounds shuffle (UInt8.ofNat shuffleRoundCount)
      (fun round index ↦ shuffleRound hashfunc seed round indexCount index) index)

variable {α : Type*}

section

variable (input : Array α) (seed : Seed)

def innerShuffleList (shuffle : Bool) : Except Fault (Array α) :=
  if input.size ≤ 1 then .ok input
  else if input.size > maxShuffleListSize then
    .error (.error (.errorf "list size %d out of bounds" [.number input.size]))
  else if UInt8.ofNat shuffleRoundCount = 0 then .ok input
  else
    runRounds shuffle (UInt8.ofNat shuffleRoundCount)
      (fun round list ↦ list >>= shuffleListRound hashfunc seed round input.size) (.ok input)

def shuffleList : Except Fault (Array α) :=
  innerShuffleList hashfunc shuffleRoundCount input seed true

def unshuffleList : Except Fault (Array α) :=
  innerShuffleList hashfunc shuffleRoundCount input seed false

end

section Round

variable {hash : HashFunc} {seed : Seed} {round : UInt8} {size i j other position : ℕ} {α : Type*}
  {window : Window} {input : Array α}

/-- The bit of a position in a round. -/
def roundBit (hashfunc : HashFunc) (seed : Seed) (round : UInt8) (position : ℕ) : Bool :=
  bitAt (byteAt (sourceAt hashfunc seed round position) position) position

/-- The round of one index is a swap-or-not round with the pivot and the bits of the hash. -/
theorem shuffleRound_eq (hash : HashFunc) (seed : Seed) (round : UInt8) (size index : ℕ) :
    shuffleRound hash seed round size index =
      mirrorIf (roundBit hash seed round) (roundPivot hash seed round size) size index := by
  have hmax : (if mirror (roundPivot hash seed round size) size index > index then
      mirror (roundPivot hash seed round size) size index else index) =
      max index (mirror (roundPivot hash seed round size) size index) := by
    grind
  unfold mirrorIf
  rw [← hmax]
  rfl

/-- The window gives the bit of a position, unless the loop renews it there. -/
structure Window.Fits (hashfunc : HashFunc) (seed : Seed) (round : UInt8) (window : Window)
    (position : ℕ) : Prop where
  source : position % 256 ≠ 255 → window.source = sourceAt hashfunc seed round position
  byteV : position % 8 ≠ 7 →
    window.byteV = byteAt (sourceAt hashfunc seed round position) position

theorem sourceAt_congr (hblock : position / 256 = other / 256) :
    sourceAt hash seed round position = sourceAt hash seed round other := by
  rw [sourceAt, sourceAt, hblock]

theorem byteAt_congr (source : Vector UInt8 32) (hbyte : position % 256 / 8 = other % 256 / 8) :
    byteAt source position = byteAt source other := by
  unfold byteAt
  congr 1
  exact Fin.ext hbyte

/-- The window of a position fits the position before it, down to the next renewal. -/
theorem fits_windowAt_pred (hash : HashFunc) (seed : Seed) (round : UInt8) (position : ℕ) :
    (windowAt hash seed round position).Fits hash seed round (position - 1) where
  source := fun hne ↦ sourceAt_congr (by omega)
  byteV := by
    intro hne
    have hblock : position / 256 = (position - 1) / 256 := by omega
    have hbyte : position % 256 / 8 = (position - 1) % 256 / 8 := by omega
    calc
      _ = byteAt (sourceAt hash seed round position) (position - 1) := byteAt_congr _ hbyte
      _ = _ := by rw [sourceAt_congr hblock]

theorem fits_windowAt (hash : HashFunc) (seed : Seed) (round : UInt8) (position : ℕ) :
    (windowAt hash seed round position).Fits hash seed round position :=
  ⟨fun _ ↦ rfl, fun _ ↦ rfl⟩

theorem swapOrNot_eq (hfits : window.Fits hash seed round j)
    (hrange : i < input.size ∧ j < input.size) :
    swapOrNot hash seed round window i j input = .ok (windowAt hash seed round j,
      if roundBit hash seed round j then input.swapIfInBounds i j else input) := by
  have hsrc : (if j % 256 = 255 then sourceAt hash seed round j else window.source) =
      sourceAt hash seed round j := by
    split_ifs with hrenew
    · rfl
    · exact hfits.source hrenew
  have hbyteV : (if j % 8 = 7 then byteAt (sourceAt hash seed round j) j else window.byteV) =
      byteAt (sourceAt hash seed round j) j := by
    split_ifs with hrenew
    · rfl
    · exact hfits.byteV hrenew
  unfold swapOrNot
  simp only [hsrc, hbyteV, if_pos hrange]
  exact (apply_ite (fun list ↦ Except.ok (windowAt hash seed round j, list)) _ _ _).symm

/-- The loop over a range whose positions are mirrored in it swaps them with their partners. -/
theorem swapRange_eq {count : ℕ} (hfits : window.Fits hash seed round j)
    (hσ : ∀ m < count, σ (i + m) = if roundBit hash seed round (j - m) then j - m else i + m)
    (hrange : ∀ m < count, i + m < input.size ∧ j - m < input.size) :
    swapRange hash seed round count i j window input =
      .ok (swapAll σ (List.range' i count) input) := by
  induction count generalizing i j window input with
  | zero => rfl
  | succ count ih =>
    have hfirst : σ i = if roundBit hash seed round j then j else i := hσ 0 (Nat.succ_pos _)
    have hrest : ∀ m < count, σ (i + 1 + m) =
        if roundBit hash seed round (j - 1 - m) then j - 1 - m else i + 1 + m := by
      grind
    have hswap : (if roundBit hash seed round j then input.swapIfInBounds i j else input) =
        input.swapIfInBounds i (σ i) := by
      grind
    have hrange' : ∀ m < count, i + 1 + m < (input.swapIfInBounds i (σ i)).size ∧
        j - 1 - m < (input.swapIfInBounds i (σ i)).size := by
      intro m hm
      have hlast := hrange (m + 1) (by omega)
      rw [Array.size_swapIfInBounds]
      omega
    have hhere : i < input.size ∧ j < input.size := hrange 0 (Nat.succ_pos _)
    rw [swapRange, swapOrNot_eq hfits hhere, hswap]
    exact ih (fits_windowAt_pred hash seed round j) hrest hrange'

theorem roundPivot_lt (hsize : 0 < size) : roundPivot hash seed round size < size :=
  Nat.mod_lt _ hsize

/-- The two loops of a round swap the lower positions with their partners. -/
theorem shuffleListRound_eq (hash : HashFunc) (seed : Seed) (round : UInt8) (hpos : 0 < size)
    (hsize : input.size = size) :
    shuffleListRound hash seed round size input =
      .ok (swapAll (mirrorIf (roundBit hash seed round) (roundPivot hash seed round size) size)
        (lowerPositions (roundPivot hash seed round size) size) input) := by
  have hpivot : roundPivot hash seed round size < size := roundPivot_lt hpos
  unfold shuffleListRound lowerPositions
  generalize roundPivot hash seed round size = pivot at hpivot
  have hfirst : ∀ m < (pivot + 1) / 2, mirrorIf (roundBit hash seed round) pivot size (0 + m) =
      if roundBit hash seed round (pivot - m) then pivot - m else 0 + m := by
    intro m hm
    apply mirrorIf_of_le
    · rw [mirror_eq hpivot (by omega), if_pos (by omega), Nat.zero_add]
    · omega
  have hsnd : ∀ m < (pivot + size + 1) / 2 - (pivot + 1),
      mirrorIf (roundBit hash seed round) pivot size (pivot + 1 + m) =
        if roundBit hash seed round (size - 1 - m) then size - 1 - m else pivot + 1 + m := by
    intro m hm
    apply mirrorIf_of_le
    · rw [mirror_eq hpivot (by omega), if_neg (by omega)]
      omega
    · omega
  have hmiddle : (swapAll (mirrorIf (roundBit hash seed round) pivot size)
      (List.range' 0 ((pivot + 1) / 2)) input).size = size :=
    (perm_swapAll _ _).length_eq.trans hsize
  have hrange : ∀ m < (pivot + 1) / 2, 0 + m < input.size ∧ pivot - m < input.size := by omega
  simp only [swapAll_append, swapRange_eq (fits_windowAt hash seed round pivot) hfirst hrange]
  refine swapRange_eq (fits_windowAt hash seed round (size - 1)) hsnd fun m hm ↦ ?_
  omega

theorem involutionBelow_shuffleRound (hash : HashFunc) (seed : Seed) (round : UInt8)
    (hsize : 0 < size) : InvolutionBelow (shuffleRound hash seed round size) size := by
  have hround : shuffleRound hash seed round size =
      mirrorIf (roundBit hash seed round) (roundPivot hash seed round size) size :=
    funext fun index ↦ shuffleRound_eq hash seed round size index
  rw [hround]
  exact involutionBelow_mirrorIf _ (roundPivot_lt hsize)

end Round

section AllRounds

variable {State : Type*} {body : UInt8 → State → State} {fuel : ℕ}

theorem ofNat_ne {n m : ℕ} (hn : n < 256) (hm : m < 256) (hne : n ≠ m) : ofNat n ≠ ofNat m := by
  intro heq
  apply hne
  have hmod : n % 2 ^ 8 = m % 2 ^ 8 := by
    rw [← toNat_ofNat', ← toNat_ofNat', heq]
  omega

/-- Forwards, the loop runs the rounds in order from the one it starts with. -/
theorem roundLoop_forwards {rounds : ℕ} (hrounds : rounds < 256) {round : ℕ}
    (hround : round < rounds) (hfuel : rounds ≤ round + fuel) (state : State) :
    roundLoop true (ofNat rounds) body fuel (ofNat round) state =
      (List.range' round (rounds - round)).foldl (fun state r ↦ body (ofNat r) state) state := by
  induction fuel generalizing round state with
  | zero => omega
  | succ fuel ih =>
    have hsucc : ofNat round + 1 = ofNat (round + 1) := by
      rw [ofNat_add]
      rfl
    have hrange : List.range' round (rounds - round) =
        round :: List.range' (round + 1) (rounds - (round + 1)) := by
      rw [← Nat.sub_add_cancel (Nat.sub_pos_of_lt hround), range'_succ, Nat.sub_sub]
    rw [roundLoop, if_pos rfl, hsucc, hrange, foldl_cons]
    by_cases hlast : round + 1 = rounds
    · rw [if_pos (by rw [hlast]), hlast, Nat.sub_self]
      rfl
    · have hne : ofNat (round + 1) ≠ ofNat rounds := ofNat_ne (by omega) hrounds hlast
      rw [if_neg hne]
      exact ih (by omega) (by omega) _

/-- Backwards, the loop runs the rounds down to the first one. -/
theorem roundLoop_backwards {rounds : UInt8} {round : ℕ} (hround : round < 256)
    (hfuel : round < fuel) (state : State) :
    roundLoop false rounds body fuel (ofNat round) state =
      (List.range (round + 1)).foldr (fun r state ↦ body (ofNat r) state) state := by
  induction round generalizing fuel state with
  | zero =>
    obtain ⟨fuel, rfl⟩ := Nat.exists_eq_succ_of_ne_zero hfuel.ne'
    rfl
  | succ round ih =>
    obtain ⟨fuel, rfl⟩ := Nat.exists_eq_succ_of_ne_zero (Nat.ne_zero_of_lt hfuel)
    have hne : ofNat (round + 1) ≠ 0 := ofNat_ne hround (by decide) (Nat.succ_ne_zero round)
    have hpred : ofNat (round + 1) - 1 = ofNat round := by
      rw [ofNat_add]
      exact UInt8.add_sub_cancel _ _
    rw [roundLoop, if_neg Bool.false_ne_true, if_neg hne, hpred,
      ih (by omega) (by omega), range_succ (n := round + 1), foldr_append]
    rfl

/-- The order in which the rounds are run. -/
def roundOrder (shuffle : Bool) (rounds : ℕ) : List ℕ :=
  if shuffle then List.range rounds else (List.range rounds).reverse

theorem reverse_roundOrder (shuffle : Bool) (rounds : ℕ) :
    (roundOrder shuffle rounds).reverse = roundOrder (!shuffle) rounds := by
  cases shuffle with
  | true => rfl
  | false => exact reverse_reverse _

theorem runRounds_eq {rounds : ℕ} (hpos : 0 < rounds) (hrounds : rounds < 256) (shuffle : Bool)
    (state : State) :
    runRounds shuffle (ofNat rounds) body state =
      (roundOrder shuffle rounds).foldl (fun state r ↦ body (ofNat r) state) state := by
  cases shuffle with
  | true =>
    calc
      _ = roundLoop true (ofNat rounds) body 256 (ofNat 0) state := rfl
      _ = (List.range' 0 (rounds - 0)).foldl (fun state r ↦ body (ofNat r) state) state :=
        roundLoop_forwards hrounds hpos (by omega) state
      _ = _ := by
        rw [Nat.sub_zero, ← range_eq_range']
        rfl
  | false =>
    obtain ⟨last, rfl⟩ := Nat.exists_eq_succ_of_ne_zero hpos.ne'
    have hpred : ofNat (last + 1) - 1 = ofNat last := by
      rw [ofNat_add]
      exact UInt8.add_sub_cancel _ _
    rw [runRounds, if_neg Bool.false_ne_true, hpred, roundOrder, if_neg Bool.false_ne_true,
      foldl_reverse]
    exact roundLoop_backwards (by omega) (by omega) state

end AllRounds

section Agreement

variable {hash : HashFunc} {seed : Seed} {size rounds : ℕ} {α : Type*}

/-- Where all rounds in order move an index. -/
def shuffledIndex (hashfunc : HashFunc) (rounds : ℕ) (seed : Seed) (size index : ℕ) : ℕ :=
  (List.range rounds).foldl
    (fun index r ↦ shuffleRound hashfunc seed (UInt8.ofNat r) size index) index

/-- Where all rounds in reverse order move an index. -/
def unshuffledIndex (hashfunc : HashFunc) (rounds : ℕ) (seed : Seed) (size index : ℕ) : ℕ :=
  (List.range rounds).foldr
    (fun r index ↦ shuffleRound hashfunc seed (UInt8.ofNat r) size index) index

/-- Where the rounds of a list, run in its order, move an index. -/
def movedIndex (hashfunc : HashFunc) (seed : Seed) (size : ℕ) (order : List ℕ) (index : ℕ) : ℕ :=
  order.foldl (fun index r ↦ shuffleRound hashfunc seed (UInt8.ofNat r) size index) index

theorem unshuffledIndex_eq : unshuffledIndex hash rounds seed size =
    movedIndex hash seed size (roundOrder false rounds) :=
  funext fun _ ↦ foldl_reverse.symm

variable {index : ℕ} {output : Array α}

section Moved

variable (hash) (seed) (order : List ℕ)

theorem movedIndex_lt (hidx : index < size) : movedIndex hash seed size order index < size := by
  induction order generalizing index with
  | nil => exact hidx
  | cons r order ih =>
    exact ih ((involutionBelow_shuffleRound hash seed _ (Nat.zero_lt_of_lt hidx)).lt hidx)

theorem movedIndex_reverse_cons (r index : ℕ) :
    movedIndex hash seed size (r :: order).reverse index = shuffleRound hash seed (ofNat r) size
        (movedIndex hash seed size order.reverse index) := by
  rw [movedIndex, reverse_cons, foldl_append]
  rfl

/-- The rounds in reverse order undo the rounds, as each round undoes itself. -/
theorem movedIndex_reverse (hidx : index < size) :
    movedIndex hash seed size order.reverse (movedIndex hash seed size order index) = index := by
  induction order generalizing index with
  | nil => rfl
  | cons r order ih =>
    have hround := involutionBelow_shuffleRound hash seed (ofNat r) (Nat.zero_lt_of_lt hidx)
    rw [movedIndex_reverse_cons]
    exact (congrArg _ (ih (hround.lt hidx))).trans (hround.apply_apply hidx)

end Moved

theorem computeShuffledIndex_eq (hrounds : rounds < 256) (hidx : index < size)
    (hsize : size ≤ maxShuffleListSize) (shuffle : Bool) :
    computeShuffledIndex hash rounds index size seed shuffle =
      .ok (movedIndex hash seed size (roundOrder shuffle rounds) index) := by
  unfold computeShuffledIndex
  by_cases hzero : rounds = 0
  · rw [if_pos hzero, hzero]
    cases shuffle <;> rfl
  · rw [if_neg hzero, if_neg (not_le.2 hidx), if_neg (not_lt.2 hsize),
      runRounds_eq (Nat.pos_of_ne_zero hzero) hrounds]
    rfl

/-- A list whose element at every position is the one of the input at the position `σ` of it. -/
structure Rearranges (size : ℕ) (σ : ℕ → ℕ) (input output : Array α) : Prop where
  getElem : ∀ {k}, k < size → output[k]? = input[σ k]?
  perm : output.toList.Perm input.toList

theorem Rearranges.size_eq {input : Array α} (hrearranges : Rearranges size σ input output) :
    output.size = input.size :=
  hrearranges.perm.length_eq

variable {input middle : Array α} {τ : ℕ → ℕ}

theorem rearranges_shuffleListRound (hash : HashFunc) (seed : Seed) (round : UInt8)
    (hsize : input.size = size) (hpos : 0 < size) :
    ∃ output, shuffleListRound hash seed round size input = .ok output ∧
      Rearranges size (shuffleRound hash seed round size) input output := by
  refine ⟨_, shuffleListRound_eq hash seed round hpos hsize, fun hk ↦ ?_, perm_swapAll _ _⟩
  rw [shuffleRound_eq]
  exact getElem?_swapAll_lowerPositions _ (roundPivot_lt hpos) hsize hk

theorem Rearranges.trans (hfirst : Rearranges size σ input middle)
    (hsnd : Rearranges size τ middle output) (hτ : ∀ {k}, k < size → τ k < size) :
    Rearranges size (fun k ↦ σ (τ k)) input output where
  getElem := fun hk ↦ (hsnd.getElem hk).trans (hfirst.getElem (hτ hk))
  perm := hsnd.perm.trans hfirst.perm

/-- The rounds on a list undo the rounds on an index. -/
theorem rearranges_foldl (hash : HashFunc) (seed : Seed) (order : List ℕ)
    (hsize : input.size = size) (hpos : 0 < size) :
    ∃ output, order.foldl (fun list r ↦ list >>= shuffleListRound hash seed (ofNat r) size)
        (.ok input) = .ok output ∧
      Rearranges size (movedIndex hash seed size order.reverse) input output := by
  induction order generalizing input with
  | nil => exact ⟨input, rfl, fun _ ↦ rfl, .refl _⟩
  | cons r order ih =>
    obtain ⟨middle, hround, hfirst⟩ := rearranges_shuffleListRound hash seed (ofNat r) hsize hpos
    obtain ⟨output, hrest, hlast⟩ := ih (hfirst.size_eq.trans hsize)
    have hall := hfirst.trans hlast fun hk ↦ movedIndex_lt hash seed order.reverse hk
    refine ⟨output, ?_, fun hk ↦ ?_, hall.perm⟩
    · rw [foldl_cons, ← hrest, ← hround]
      rfl
    · rw [movedIndex_reverse_cons]
      exact hall.getElem hk

/-- A list of at most one element has one rearrangement. -/
theorem rearranges_self (hsize : size ≤ 1) (hσ : ∀ {k}, k < size → σ k < size) :
    Rearranges size σ input input where
  getElem := by
    intro k hk
    have heq : σ k = k := by
      have := hσ hk
      omega
    rw [heq]
  perm := .refl _

section

variable (hash : HashFunc) (hrounds : rounds < 256) (seed : Seed)
  (hsize : input.size ≤ maxShuffleListSize)
include hrounds hsize

theorem innerShuffleList_ok (shuffle : Bool) :
    ∃ output, innerShuffleList hash rounds input seed shuffle = .ok output ∧
      Rearranges input.size (movedIndex hash seed input.size (roundOrder (!shuffle) rounds))
        input output := by
  unfold innerShuffleList
  by_cases hone : input.size ≤ 1
  · rw [if_pos hone]
    exact ⟨input, rfl, rearranges_self hone fun hk ↦ movedIndex_lt hash seed _ hk⟩
  · rw [if_neg hone, if_neg (not_lt.2 hsize), ← reverse_roundOrder]
    by_cases hzero : rounds = 0
    · subst hzero
      refine ⟨input, rfl, fun _ ↦ ?_, .refl _⟩
      cases shuffle <;> rfl
    · have hne : ofNat rounds ≠ 0 := ofNat_ne hrounds (by decide) hzero
      rw [if_neg hne, runRounds_eq (Nat.pos_of_ne_zero hzero) hrounds]
      exact rearranges_foldl hash seed _ rfl (by omega)

theorem shuffleList_ok : ∃ output, shuffleList hash rounds input seed = .ok output ∧
      Rearranges input.size (unshuffledIndex hash rounds seed input.size) input output :=
  unshuffledIndex_eq ▸ innerShuffleList_ok hash hrounds seed hsize true

theorem unshuffleList_ok : ∃ output, unshuffleList hash rounds input seed = .ok output ∧
      Rearranges input.size (shuffledIndex hash rounds seed input.size) input output :=
  innerShuffleList_ok hash hrounds seed hsize false

end

/-- Two rearrangements that undo each other give the input back. -/
theorem Rearranges.eq_input (hfirst : Rearranges input.size σ input middle)
    (hsnd : Rearranges input.size τ middle output)
    (hτ : ∀ {k}, k < input.size → τ k < input.size)
    (hinverse : ∀ {k}, k < input.size → σ (τ k) = k) : output = input := by
  have hsize : output.size = input.size := hsnd.size_eq.trans hfirst.size_eq
  apply Array.ext_getElem?
  intro k
  by_cases hk : k < input.size
  · rw [hsnd.getElem hk, hfirst.getElem (hτ hk), hinverse hk]
  · grind

/-- The list functions agree with the index function, are permutations of their input and undo each
other, and the two directions of the index function undo each other. -/
theorem shuffleList_agrees (hashfunc : HashFunc) (hrounds : rounds < 256) (seed : Seed)
    (input : Array α) (hsize : input.size ≤ maxShuffleListSize) :
    ∃ shuffled unshuffled, shuffleList hashfunc rounds input seed = .ok shuffled ∧
      unshuffleList hashfunc rounds input seed = .ok unshuffled ∧
      (∀ i < input.size, ∃ k < input.size,
        computeShuffledIndex hashfunc rounds i input.size seed true = .ok k ∧
          computeShuffledIndex hashfunc rounds k input.size seed false = .ok i ∧
            unshuffled[i]? = input[k]? ∧ shuffled[k]? = input[i]?) ∧
      (∀ k < input.size, ∃ i < input.size,
        computeShuffledIndex hashfunc rounds k input.size seed false = .ok i ∧
          computeShuffledIndex hashfunc rounds i input.size seed true = .ok k) ∧
      shuffled.toList.Perm input.toList ∧ unshuffled.toList.Perm input.toList ∧
      unshuffleList hashfunc rounds shuffled seed = .ok input ∧
      shuffleList hashfunc rounds unshuffled seed = .ok input := by
  obtain ⟨shuffled, hshuffle, hshuffled⟩ := shuffleList_ok hashfunc hrounds seed hsize
  obtain ⟨unshuffled, hunshuffle, hunshuffled⟩ := unshuffleList_ok hashfunc hrounds seed hsize
  have hshuffledSize := hshuffled.size_eq
  have hunshuffledSize := hunshuffled.size_eq
  obtain ⟨again, hagain, hback⟩ := unshuffleList_ok hashfunc hrounds seed (hshuffledSize ▸ hsize)
  obtain ⟨again', hagain', hback'⟩ := shuffleList_ok hashfunc hrounds seed (hunshuffledSize ▸ hsize)
  rw [hshuffledSize] at hback
  rw [hunshuffledSize, unshuffledIndex_eq] at hback'
  rw [unshuffledIndex_eq] at hshuffled
  have hinverse : ∀ shuffle {i}, i < input.size →
      movedIndex hashfunc seed input.size (roundOrder (!shuffle) rounds)
        (movedIndex hashfunc seed input.size (roundOrder shuffle rounds) i) = i := by
    intro shuffle i hi
    rw [← reverse_roundOrder]
    exact movedIndex_reverse hashfunc seed _ hi
  refine ⟨shuffled, unshuffled, hshuffle, hunshuffle, fun i hi ↦ ?_, fun k hk ↦ ?_, hshuffled.perm,
    hunshuffled.perm, ?_, ?_⟩
  · have hlt := movedIndex_lt hashfunc seed (roundOrder true rounds) hi
    refine ⟨_, hlt, computeShuffledIndex_eq hrounds hi hsize true, ?_, hunshuffled.getElem hi, ?_⟩
    · rw [computeShuffledIndex_eq hrounds hlt hsize]
      exact congrArg _ (hinverse true hi)
    · rw [hshuffled.getElem hlt]
      exact congrArg _ (hinverse true hi)
  · have hlt := movedIndex_lt hashfunc seed (roundOrder false rounds) hk
    refine ⟨_, hlt, computeShuffledIndex_eq hrounds hk hsize false, ?_⟩
    rw [computeShuffledIndex_eq hrounds hlt hsize]
    exact congrArg _ (hinverse false hk)
  · rw [hagain, hshuffled.eq_input hback (fun hk ↦ movedIndex_lt hashfunc seed _ hk)
      fun hk ↦ hinverse true hk]
  · rw [hagain', hunshuffled.eq_input hback' (fun hk ↦ movedIndex_lt hashfunc seed _ hk)
      fun hk ↦ hinverse false hk]

/-- A hash function that sets every bit. -/
def setBits : HashFunc := fun _ ↦ Vector.replicate 32 255

theorem shuffleList_agrees_three :
    ∃ shuffled, shuffleList setBits 1 #[10, 20, 30] (Vector.replicate 32 0) = .ok shuffled ∧
      shuffled = #[10, 30, 20] ∧
      unshuffleList setBits 1 shuffled (Vector.replicate 32 0) = .ok #[10, 20, 30] := by
  obtain ⟨shuffled, -, hshuffle, -, -, -, -, -, hback, -⟩ :=
    shuffleList_agrees setBits (show 1 < 256 by decide) (Vector.replicate 32 0) #[10, 20, 30]
      (by decide)
  have hvalue : shuffleList setBits 1 #[10, 20, 30] (Vector.replicate 32 0) =
      .ok #[10, 30, 20] := by rfl
  grind

end Agreement

end Prysm.Helpers
