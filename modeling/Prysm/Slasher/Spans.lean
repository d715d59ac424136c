import Prysm.Slasher.Chunks

/-!
# What spans say about a set of attestations

The abstract meaning of the minimum and maximum spans of one validator, for the attestations of that
validator that were processed so far.  The minimum span at an epoch is the least target among the
attestations with a later source, the maximum span the greatest target among those with an earlier
source.  A span then tells exactly whether an attestation surrounds, or is surrounded by, a
processed one.

An attestation that is found slashable is not written to the spans of that pass.  Nothing is lost:
what surrounds it also surrounds the attestation it was found slashable with.
-/

namespace Prysm.Slasher

/-- The first attestation surrounds the second. -/
def Surrounds (a b : IndexedAttestationWrapper) : Prop :=
  a.source < b.source ∧ b.target < a.target

instance (a b : IndexedAttestationWrapper) : Decidable (Surrounds a b) :=
  inferInstanceAs (Decidable (_ ∧ _))

/-- The greatest distance a cell can hold; it marks a minimum span without attestation. -/
def undefinedDistance : ℕ := 2 ^ 16 - 1

/-- Between `low` and `current` the span at an epoch is the least target of the processed
attestations with a later source, and the undefined distance if there is none. -/
structure MinSpans (value : Epoch → Epoch) (low current : Epoch)
    (processed : Set IndexedAttestationWrapper) : Prop where
  attained : ∀ epoch, low ≤ epoch → epoch ≤ current →
    value epoch = epoch + undefinedDistance ∨
      ∃ a ∈ processed, epoch < a.source ∧ a.target = value epoch
  bounded : ∀ epoch, low ≤ epoch → epoch ≤ current → ∀ a ∈ processed, epoch < a.source →
    value epoch ≤ a.target
  targets : ∀ a ∈ processed, a.target ≤ current
  window : current ≤ low + undefinedDistance

/-- Between `low` and `current` the span at an epoch is the greatest target of the processed
attestations with an earlier source, and the epoch itself if no such target is later. -/
structure MaxSpans (value : Epoch → Epoch) (low current : Epoch)
    (processed : Set IndexedAttestationWrapper) : Prop where
  attained : ∀ epoch, low ≤ epoch → epoch ≤ current →
    value epoch = epoch ∨ ∃ a ∈ processed, a.source < epoch ∧ a.target = value epoch
  bounded : ∀ epoch, low ≤ epoch → epoch ≤ current → ∀ a ∈ processed, a.source < epoch →
    a.target ≤ value epoch
  self_le : ∀ epoch, low ≤ epoch → epoch ≤ current → epoch ≤ value epoch
  targets : ∀ a ∈ processed, a.target ≤ current

end Prysm.Slasher
