import Mathlib.Algebra.Order.Ring.Nat

/-!
# Numerals

Numbers written as text and read back: decimal numerals, and hexadecimal text of bytes.  Writing is
injective because reading inverts it, which is what a data format that stores numbers as strings
needs.
-/

namespace Prysm.Library.Numeral

/-- The value of digits, the most significant one first. -/
def ofDigits (base : ℕ) (digits : List ℕ) : ℕ :=
  digits.foldl (fun value digit ↦ value * base + digit) 0

/-- The lowest digits of a number, the most significant one first. -/
def fixedDigits (base : ℕ) : ℕ → ℕ → List ℕ
  | 0, _ => []
  | width + 1, n => fixedDigits base width (n / base) ++ [n % base]

@[simp]
theorem length_fixedDigits (base width n : ℕ) : (fixedDigits base width n).length = width := by
  induction width generalizing n with
  | zero => rfl
  | succ width ih => rw [fixedDigits, List.length_append, ih, List.length_singleton]

/-- A number that fits is the value of its digits. -/
theorem ofDigits_fixedDigits {base width n : ℕ} (hn : n < base ^ width) :
    ofDigits base (fixedDigits base width n) = n := by
  induction width generalizing n with
  | zero =>
    have hzero : n = 0 := by simpa using hn
    simp [fixedDigits, ofDigits, hzero]
  | succ width ih =>
    have hdiv : n / base < base ^ width := Nat.div_lt_of_lt_mul (by rwa [pow_succ'] at hn)
    have hvalue := ih hdiv
    unfold ofDigits at hvalue ⊢
    rw [fixedDigits, List.foldl_append, hvalue, List.foldl_cons, List.foldl_nil]
    exact Nat.div_add_mod' n base

/-- A number of at most `bits` bits is the value of its bytes. -/
theorem ofDigits_bytes {bits width n : ℕ} (hn : n < 2 ^ bits) (hbits : bits = 8 * width) :
    ofDigits 256 (fixedDigits 256 width n) = n := by
  apply ofDigits_fixedDigits
  rwa [hbits, pow_mul] at hn

/-- The number that a text of decimal digits stands for, if there are any and nothing else. -/
def parseDecimal (text : String) : Option ℕ :=
  if text.toList ≠ [] ∧ text.toList.all Char.isDigit then
    some (Nat.ofDigitChars 10 text.toList 0)
  else none

/-- The value of a hexadecimal digit, in lower or upper case. -/
def hexValue (c : Char) : Option ℕ :=
  if '0' ≤ c ∧ c ≤ '9' then some (c.toNat - '0'.toNat)
  else if 'a' ≤ c ∧ c ≤ 'f' then some (c.toNat - 'a'.toNat + 10)
  else if 'A' ≤ c ∧ c ≤ 'F' then some (c.toNat - 'A'.toNat + 10)
  else none

/-- Two lower case digits for each byte. -/
def encodeHex (bytes : List ℕ) : List Char :=
  bytes.flatMap fun byte ↦ [Nat.digitChar (byte / 16), Nat.digitChar (byte % 16)]

/-- Why a text is not the hexadecimal text of bytes. -/
inductive HexError
  | invalidByte (c : Char)
  | oddLength
deriving DecidableEq, Repr

/-- The bytes of a hexadecimal text. -/
def decodeHex : List Char → Except HexError (List ℕ)
  | [] => .ok []
  | [c] => .error (if hexValue c = none then .invalidByte c else .oddLength)
  | c :: d :: rest =>
    match hexValue c, hexValue d, decodeHex rest with
    | none, _, _ => .error (.invalidByte c)
    | some _, none, _ => .error (.invalidByte d)
    | some _, some _, .error err => .error err
    | some high, some low, .ok bytes => .ok ((high * 16 + low) :: bytes)

end Prysm.Library.Numeral
