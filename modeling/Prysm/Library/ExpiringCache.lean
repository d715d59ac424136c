import Prysm.Library.Bucket

/-!
# Caches whose items expire

A cache keeps an item until it is deleted, but hides it once its expiration time has passed.
Deleted items are returned, for the sake of the callback that is told about them.  Replacing or
setting an item and flushing the cache drop the old items silently.
-/

namespace Prysm.Library

/-- A value with the time after which it is hidden, or zero if it never is. -/
structure Item (V : Type*) where
  object : V
  expiration : ℕ
deriving DecidableEq

def Item.expired {V : Type*} (item : Item V) (now : ℕ) : Bool :=
  0 < item.expiration && item.expiration < now

structure ExpiringCache (K V : Type*) [LinearOrder K] where
  items : Bucket K (Item V)
  defaultExpiration : ℕ

namespace ExpiringCache

variable {K V : Type*} [LinearOrder K] (cache : ExpiringCache K V)

def new (defaultExpiration : ℕ) : ExpiringCache K V := ⟨Bucket.empty, defaultExpiration⟩

def get (now : ℕ) (key : K) : Option V :=
  ((cache.items.get key).filter fun item ↦ !item.expired now).map (·.object)

/-- The item of a value that is set for a duration, where zero stands for the default. -/
def newItem (now : ℕ) (value : V) (duration : ℕ) : Item V :=
  let duration := if duration = 0 then cache.defaultExpiration else duration
  ⟨value, if duration = 0 then 0 else now + duration⟩

def set (now : ℕ) (key : K) (value : V) (duration : ℕ) : ExpiringCache K V :=
  { cache with items := cache.items.put key (cache.newItem now value duration) }

/-- Setting the value of a key that is there and not hidden. -/
def replace (now : ℕ) (key : K) (value : V) (duration : ℕ) : Option (ExpiringCache K V) :=
  if (cache.get now key).isSome then some (cache.set now key value duration) else none

/-- The cache without a key, and the value that was deleted. -/
def delete (key : K) : Option V × ExpiringCache K V :=
  ((cache.items.get key).map (·.object), { cache with items := cache.items.delete key })

/-- The cache without its expired items, and the values that were deleted. -/
def deleteExpired (now : ℕ) : List V × ExpiringCache K V :=
  ((cache.items.filter fun _ item ↦ item.expired now).entries.map (·.2.object),
    { cache with items := cache.items.filter fun _ item ↦ !item.expired now })

/-- The keys of the items that are not hidden. -/
def keys (now : ℕ) : List K := (cache.items.filter fun _ item ↦ !item.expired now).keys

def flush : ExpiringCache K V := { cache with items := Bucket.empty }

variable {cache} {now : ℕ} {key : K} {value : V}

theorem get_eq_some_iff :
    cache.get now key = some value ↔
      ∃ item, cache.items.get key = some item ∧ item.expired now = false ∧ item.object = value := by
  simp only [get, Option.map_eq_some_iff, Option.filter_eq_some_iff, Bool.not_eq_true', and_assoc]

theorem exists_item_of_get (hget : cache.get now key = some value) :
    ∃ item, cache.items.get key = some item ∧ item.object = value := by
  obtain ⟨item, hitem, -, hvalue⟩ := get_eq_some_iff.1 hget
  exact ⟨item, hitem, hvalue⟩

theorem mem_deleteExpired_iff :
    value ∈ (cache.deleteExpired now).1 ↔
      ∃ key item, cache.items.get key = some item ∧ item.expired now = true ∧
        item.object = value := by
  simp only [deleteExpired, List.mem_map, Prod.exists, Bucket.mem_entries_iff, Bucket.get_filter,
    Option.filter_eq_some_iff, and_assoc]

theorem get_items_deleteExpired (now : ℕ) (key : K) :
    (cache.deleteExpired now).2.items.get key =
      (cache.items.get key).filter fun item ↦ !item.expired now :=
  Bucket.get_filter _ _ _

theorem get_delete (other : K) :
    (cache.delete key).2.get now other = if key = other then none else cache.get now other := by
  simp only [get, delete, Bucket.get_delete]
  split_ifs <;> rfl

/-- A value that is set now is not hidden. -/
theorem get_set (duration : ℕ) (other : K) : (cache.set now key value duration).get now other =
    if key = other then some value else cache.get now other := by
  have hfresh : (cache.newItem now value duration).expired now = false := by
    simp only [newItem, Item.expired]
    grind
  simp only [get, set, Bucket.get_put]
  split_ifs
  · rw [Option.filter_some, hfresh]
    rfl
  · rfl

theorem mem_keys (hget : (cache.get now key).isSome) : key ∈ cache.keys now := by
  rwa [keys, Bucket.mem_keys_iff, Bucket.get_filter, ← Option.isSome_map]

end ExpiringCache

end Prysm.Library
