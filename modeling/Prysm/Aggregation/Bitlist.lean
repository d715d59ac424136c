import Mathlib.Data.Finset.Card
import Mathlib.Data.Finset.SymmDiff
import Mathlib.Data.Finset.Union
import Prysm.Primitives

/-!
# Bit lists

Attestation aggregation works on the bit lists of the `bitfield` package.  A bit list has a length
and stands for the set of the positions of its set bits.  `Bitfield` has the operations of the
package, with what is assumed of them; those on two lists fail when the lengths differ.
-/

namespace Prysm.Aggregation

/-- `bitfield.Bitlist` and `bitfield.Bitlist64`: the length and the positions of the set bits. -/
structure Bitlist where
  len : ℕ
  bitSet : Finset ℕ
  lt_len : ∀ i ∈ bitSet, i < len
deriving DecidableEq

/-- The operations of the package, where `ofLen` is `NewBitlist64`. -/
class Bitfield where
  ofLen : ℕ → Bitlist
  count : Bitlist → ℕ
  bitIndices : Bitlist → List ℕ
  setBitAt : Bitlist → ℕ → Bool → Bitlist
  not : Bitlist → Bitlist
  or : Bitlist → Bitlist → Except Fault Bitlist
  and : Bitlist → Bitlist → Except Fault Bitlist
  andCount : Bitlist → Bitlist → Except Fault ℕ
  xorCount : Bitlist → Bitlist → Except Fault ℕ
  overlaps : Bitlist → Bitlist → Except Fault Bool
  contains : Bitlist → Bitlist → Except Fault Bool
  len_ofLen (n : ℕ) : (ofLen n).len = n
  bitSet_ofLen (n : ℕ) : (ofLen n).bitSet = ∅
  count_eq (b : Bitlist) : count b = b.bitSet.card
  mem_bitIndices {b : Bitlist} {i : ℕ} : i ∈ bitIndices b ↔ i ∈ b.bitSet
  sorted_bitIndices (b : Bitlist) : (bitIndices b).Pairwise (· < ·)
  len_setBitAt (b : Bitlist) (idx : ℕ) (val : Bool) : (setBitAt b idx val).len = b.len
  bitSet_setBitAt {b : Bitlist} {idx : ℕ} :
    idx < b.len → (setBitAt b idx true).bitSet = insert idx b.bitSet
  len_not (b : Bitlist) : (not b).len = b.len
  exists_or {b c : Bitlist} :
    b.len = c.len → ∃ d, or b c = .ok d ∧ d.len = b.len ∧ d.bitSet = b.bitSet ∪ c.bitSet
  exists_and {b c : Bitlist} :
    b.len = c.len → ∃ d, and b c = .ok d ∧ d.len = b.len ∧ d.bitSet = b.bitSet ∩ c.bitSet
  andCount_eq {b c : Bitlist} : b.len = c.len → andCount b c = .ok (b.bitSet ∩ c.bitSet).card
  xorCount_eq {b c : Bitlist} :
    b.len = c.len → xorCount b c = .ok (symmDiff b.bitSet c.bitSet).card
  overlaps_eq {b c : Bitlist} :
    b.len = c.len → overlaps b c = .ok (decide (¬ Disjoint b.bitSet c.bitSet))
  contains_eq {b c : Bitlist} : b.len = c.len → contains b c = .ok (decide (c.bitSet ⊆ b.bitSet))

attribute [simp] Bitfield.len_ofLen Bitfield.bitSet_ofLen Bitfield.len_not

namespace Bitlist

export Bitfield (ofLen count bitIndices setBitAt not or and andCount xorCount overlaps contains)

variable [Bitfield]

theorem length_bitIndices (b : Bitlist) : b.bitIndices.length = b.count := by
  have hset : b.bitIndices.toFinset = b.bitSet := by
    ext i
    rw [List.mem_toFinset, Bitfield.mem_bitIndices]
  rw [Bitfield.count_eq, ← hset,
    List.toFinset_card_of_nodup ((Bitfield.sorted_bitIndices b).imp ne_of_lt)]

end Bitlist

end Prysm.Aggregation
