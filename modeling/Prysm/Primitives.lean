import Mathlib.Order.Fin.Basic
import Mathlib.Algebra.Order.Ring.Nat

/-!
# Primitive types of the client

Slots, epochs, roots and public keys, the constants of the beacon chain configuration that the
modelled functions read, and the errors those functions return.

Slots, epochs, indices and balances are `uint64` in the source.  They are natural numbers here, and
an operation of the source that can wrap around says so with an explicit `% 2 ^ 64`.
-/

namespace Prysm

abbrev Slot := ℕ

abbrev Epoch := ℕ

abbrev ValidatorIndex := ℕ

/-- A 32-byte hash.  `bytes.Compare` on two hashes is the order of the big-endian numbers. -/
abbrev Root := Fin (2 ^ 256)

/-- A compressed BLS public key of 48 bytes. -/
abbrev PubKey := Fin (2 ^ 384)

-- What a literal or a search in a list needs, found by name in every module.
instance (priority := 2000) Root.neZero : NeZero (2 ^ 256) := inferInstance

instance (priority := 2000) PubKey.neZero : NeZero (2 ^ 384) := inferInstance

instance (priority := 2000) Root.lawfulBEq : LawfulBEq Root := inferInstance

theorem thirtyTwo_pos : 0 < 32 := by decide

/-- `params.BeaconConfig().ZeroHash`. -/
def zeroHash : Root := 0

structure Checkpoint where
  epoch : Epoch
  root : Root
deriving DecidableEq, Inhabited, Repr

/-- The forks of `runtime/version`, in their order. -/
inductive Version
  | phase0
  | altair
  | bellatrix
  | capella
  | deneb
  | electra
  | fulu
deriving DecidableEq, Inhabited, Repr

/-- The value of a version constant. -/
def Version.number : Version → ℕ
  | phase0 => 0
  | altair => 1
  | bellatrix => 2
  | capella => 3
  | deneb => 4
  | electra => 5
  | fulu => 6

/-- `version.String`. -/
def Version.string : Version → String
  | phase0 => "phase0"
  | altair => "altair"
  | bellatrix => "bellatrix"
  | capella => "capella"
  | deneb => "deneb"
  | electra => "electra"
  | fulu => "fulu"

/-- An argument of a formatted error. -/
inductive ErrorArg
  | number (value : ℕ)
  | bytes (value : Option Root)
  | text (value : String)
deriving DecidableEq, Repr

/-- The errors of the source: `errors.New` and `fmt.Errorf` with their text and arguments, and
`errors.Wrapf` with the text put in front. -/
inductive Error
  | errorf (format : String) (args : List ErrorArg)
  | wrapf (err : Error) (format : String) (args : List ErrorArg)
  | canceled
deriving DecidableEq, Repr

/-- How a call can fail to return a value: an error it returns, a panic, or a loop that does not
end. -/
inductive Fault
  | error (err : Error)
  | panic
  | diverges
deriving DecidableEq, Repr

variable {α : Type*}

/-- The use of a pointer that may be nil. -/
def deref : Option α → Except Fault α
  | none => .error .panic
  | some value => .ok value

/-- `errors.Wrapf` on the error of a call. -/
def wrapf (result : Except Fault α) (format : String) (args : List ErrorArg) : Except Fault α :=
  match result with
  | .error (.error err) => .error (.error (.wrapf err format args))
  | .error fault => .error fault
  | .ok value => .ok value

@[simp]
theorem wrapf_ok (value : α) (format : String) (args : List ErrorArg) :
    wrapf (.ok value) format args = .ok value := rfl

theorem wrapf_eq_ok_iff {result : Except Fault α} {format : String} {args : List ErrorArg}
    {value : α} : wrapf result format args = .ok value ↔ result = .ok value := by
  cases result with
  | ok _ => exact Iff.rfl
  | error fault => cases fault <;> simp [wrapf]

theorem bind_eq_ok_iff.{u} {α β : Type u} {result : Except Fault α} {next : α → Except Fault β}
    {value : β} :
    (result >>= next) = .ok value ↔ ∃ middle, result = .ok middle ∧ next middle = .ok value := by
  cases result with
  | ok middle => simp [bind, Except.bind]
  | error fault => simp [bind, Except.bind]

theorem ok_bind.{u} {α β : Type u} (value : α) (next : α → Except Fault β) :
    (.ok value >>= next) = next value := rfl

/-- `math.Add64`. -/
def add64 (a b : ℕ) : Except Fault ℕ :=
  if a + b < 2 ^ 64 then .ok (a + b) else .error (.error (.errorf "addition overflows" []))

theorem add64_eq_ok_iff {a b sum : ℕ} : add64 a b = .ok sum ↔ a + b < 2 ^ 64 ∧ sum = a + b := by
  unfold add64
  by_cases hlt : a + b < 2 ^ 64
  · rw [if_pos hlt]
    exact ⟨fun h ↦ ⟨hlt, (Except.ok.inj h).symm⟩, fun h ↦ by rw [h.2]⟩
  · rw [if_neg hlt]
    exact ⟨nofun, fun h ↦ absurd h.1 hlt⟩

/-- `math.Sub64`. -/
def sub64 (a b : ℕ) : Except Fault ℕ :=
  if b ≤ a then .ok (a - b) else .error (.error (.errorf "subtraction underflow" []))

theorem sub64_of_le {a b : ℕ} (hle : b ≤ a) : sub64 a b = .ok (a - b) := if_pos hle

/-- The part of `params.BeaconChainConfig` that the modelled functions read. -/
structure BeaconChainConfig where
  slotsPerEpoch : ℕ
  weakSubjectivityPeriod : Epoch
  slashingProtectionPruningEpochs : Epoch
  secondsPerSlot : ℕ
  intervalsPerSlot : ℕ
  proposerScoreBoost : ℕ
  genesisEpoch : Epoch
  slotsPerEpoch_pos : 0 < slotsPerEpoch

/-- `params.MainnetConfig`. -/
def mainnetConfig : BeaconChainConfig where
  slotsPerEpoch := 32
  weakSubjectivityPeriod := 54000
  slashingProtectionPruningEpochs := 512
  secondsPerSlot := 12
  intervalsPerSlot := 3
  proposerScoreBoost := 40
  genesisEpoch := 0
  slotsPerEpoch_pos := thirtyTwo_pos

/-- `slots.ToEpoch`. -/
def toEpoch (config : BeaconChainConfig) (slot : Slot) : Epoch :=
  slot / config.slotsPerEpoch

end Prysm
