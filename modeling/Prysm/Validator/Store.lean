import Prysm.Primitives
import Prysm.Library.Bucket

/-!
# The validator client's BoltDB store

The buckets of `validator/db/kv` that slashing protection reads and writes.  BoltDB is taken as an
ordered key-value store with atomic transactions: a transaction is a function on the store, and a
nested bucket is an ordered bucket that exists once it has been created.  Epochs and slots are the
big-endian keys of the source, so that key order is numeric order.
-/

namespace Prysm.Validator

open Prysm.Library

/-- The nested buckets of one public key below `pubKeysBucket`.  An empty signing root, which an
imported history may hold, is `none`; a list of epochs is the concatenation of 8-byte epochs. -/
structure AttestationBuckets where
  signingRoots : Option (Bucket Epoch (Option Root))
  sourceEpochs : Option (Bucket Epoch (List Epoch))
  targetEpochs : Option (Bucket Epoch (List Epoch))

/-- The buckets of the slashing protection history, by public key. -/
structure Store where
  pubKeys : PubKey → Option AttestationBuckets
  lowestSignedSource : PubKey → Option Epoch
  lowestSignedTarget : PubKey → Option Epoch
  historicProposals : PubKey → Option (Bucket Slot (Option Root))
  lowestSignedProposals : PubKey → Option Slot
  highestSignedProposals : PubKey → Option Slot

/-- The store that `NewKVStore` opens on a fresh file: the outer buckets, with nothing in them. -/
def Store.empty : Store where
  pubKeys := fun _ ↦ none
  lowestSignedSource := fun _ ↦ none
  lowestSignedTarget := fun _ ↦ none
  historicProposals := fun _ ↦ none
  lowestSignedProposals := fun _ ↦ none
  highestSignedProposals := fun _ ↦ none

def createBucketIfNotExists {V : Type*} (bucket : Option (Bucket ℕ V)) : Bucket ℕ V :=
  bucket.getD Bucket.empty

/-- The value written to a `lowest` bucket: the incoming number if there was none, or if it is
lower than the stored one. -/
def overrideLowest (lowest : Option ℕ) (incoming : ℕ) : ℕ :=
  match lowest with
  | none => incoming
  | some lowestSigned => if incoming < lowestSigned then incoming else lowestSigned

/-- The value written to a `highest` bucket. -/
def overrideHighest (highest : Option ℕ) (incoming : ℕ) : ℕ :=
  match highest with
  | none => incoming
  | some highestSigned => if incoming > highestSigned then incoming else highestSigned

/-- A lowest bound that the incoming number respects is not moved. -/
theorem overrideLowest_eq_of_le {lowest : Option ℕ} {incoming bound : ℕ}
    (hlowest : lowest = some bound) (hle : bound ≤ incoming) :
    overrideLowest lowest incoming = bound := by
  subst hlowest
  exact if_neg (not_lt.2 hle)

theorem overrideLowest_le (lowest : Option ℕ) (incoming : ℕ) :
    overrideLowest lowest incoming ≤ incoming := by
  cases lowest with
  | none => exact le_refl incoming
  | some bound =>
    change (if incoming < bound then incoming else bound) ≤ incoming
    split_ifs with hlt
    · exact le_refl incoming
    · exact not_lt.1 hlt

end Prysm.Validator
