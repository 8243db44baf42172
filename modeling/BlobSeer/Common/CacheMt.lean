import Mathlib.Algebra.Group.Nat.Defs
import Mathlib.Logic.Function.Basic
import Mathlib.Data.List.Basic

/-!
# The cache (`common/cache_mt.hpp`)

`cache_mt` is a map of bounded size that asks its policy which entry to give up. `cache_mt_LRU`
keeps the keys in a list, the last used one at the back, and for every key an iterator to its place
in the list. List nodes are named here by the order in which they were pushed, and an iterator is
such a name.

The dirty entry that a write evicts goes to `evict_callback`; here it is part of the result.
-/

namespace BlobSeer

/-! ## Policies -/

/-- What `cache_mt` asks of its policy. -/
structure CachePolicy (κ σ : Type) where
  hit : κ → σ → σ
  miss : κ → σ → σ
  evictEntry : σ → Option (κ × σ)
  clear : σ → σ
  invalidate : κ → σ → σ

/-- `cache_mt_LRU`. -/
structure CacheMtLRU (κ : Type) where
  queue : List (Nat × κ) := []
  accessCount : κ → Option Nat := fun _ => none
  pushed : Nat := 0

namespace CacheMtLRU

variable {κ : Type} [DecidableEq κ]

/-- `cache_mt_LRU::invalidate`. -/
def invalidate (key : κ) (p : CacheMtLRU κ) : CacheMtLRU κ :=
  match p.accessCount key with
  | some node =>
    { p with
      queue := p.queue.filter fun e => e.1 != node
      accessCount := Function.update p.accessCount key none }
  | none => p

/-- `cache_mt_LRU::hit`: the key moves to the back of the queue. -/
def hit (key : κ) (p : CacheMtLRU κ) : CacheMtLRU κ :=
  let p := p.invalidate key
  { queue := p.queue ++ [(p.pushed, key)]
    accessCount := Function.update p.accessCount key (some p.pushed)
    pushed := p.pushed + 1 }

/-- `cache_mt_LRU::evictEntry`: the key at the front. -/
def evictEntry (p : CacheMtLRU κ) : Option (κ × CacheMtLRU κ) :=
  match p.queue with
  | [] => none
  | (_, key) :: _ => some (key, p.invalidate key)

/-- `cache_mt_LRU::clear`. -/
def clear (p : CacheMtLRU κ) : CacheMtLRU κ :=
  { p with queue := [], accessCount := fun _ => none }

/-- The policy; a miss does nothing. -/
def policy : CachePolicy κ (CacheMtLRU κ) where
  hit := hit
  miss _ p := p
  evictEntry := evictEntry
  clear := clear
  invalidate := invalidate

end CacheMtLRU

/-- `cache_mt_none`: no entry is ever given up. -/
def cacheMtNone (κ : Type) : CachePolicy κ Unit where
  hit _ p := p
  miss _ p := p
  evictEntry _ := none
  clear p := p
  invalidate _ p := p

/-! ## The cache -/

/-- `cache_mt`: the entries with their dirty marks, in no order. -/
structure CacheMt (κ α σ : Type) where
  policy : σ
  cacheMap : List (κ × α × Bool) := []
  mSize : Nat := 2 ^ 20

namespace CacheMt

variable {κ α σ : Type} [DecidableEq κ]

/-- `cache_map.find`. -/
def find (c : CacheMt κ α σ) (key : κ) : Option (α × Bool) := c.cacheMap.lookup key

/-- `cache_map.erase`. -/
def erase (c : CacheMt κ α σ) (key : κ) : CacheMt κ α σ :=
  { c with cacheMap := c.cacheMap.filter fun e => e.1 != key }

/-- `cache_mt::write`: whether the entry was stored, and the dirty entry that was evicted. -/
def write (P : CachePolicy κ σ) (c : CacheMt κ α σ) (key : κ) (data : α) (dirty : Bool) :
    Bool × Option (κ × α) × CacheMt κ α σ :=
  let c := c.erase key
  if c.cacheMap.length = c.mSize then
    match P.evictEntry c.policy with
    | none => (false, none, c)
    | some (ek, policy) =>
      let ev := match c.find ek with
        | some (data, true) => some (ek, data)
        | _ => none
      (true, ev, { c.erase ek with
        cacheMap := (key, data, dirty) :: (c.erase ek).cacheMap
        policy := P.hit key policy })
  else
    (true, none, { c with
      cacheMap := (key, data, dirty) :: c.cacheMap
      policy := P.hit key c.policy })

/-- `cache_mt::resize`, to a larger size. -/
def resize (c : CacheMt κ α σ) (mSize : Nat) : CacheMt κ α σ :=
  if c.mSize < mSize then { c with mSize := mSize } else c

/-- `cache_mt::read`. -/
def read (P : CachePolicy κ σ) (c : CacheMt κ α σ) (key : κ) : Option α × CacheMt κ α σ :=
  match c.find key with
  | none => (none, { c with policy := P.miss key c.policy })
  | some (data, _) => (some data, { c with policy := P.hit key c.policy })

/-- `cache_mt::free`. -/
def free (P : CachePolicy κ σ) (c : CacheMt κ α σ) (key : κ) : CacheMt κ α σ :=
  { c.erase key with policy := P.invalidate key c.policy }

/-- `cache_mt::clear`. -/
def clear (P : CachePolicy κ σ) (c : CacheMt κ α σ) : CacheMt κ α σ :=
  { c with cacheMap := [], policy := P.clear c.policy }

theorem lookup_filter_ne (key k : κ) :
    ∀ l : List (κ × α × Bool), (l.filter fun e => e.1 != key).lookup k =
      if k = key then none else l.lookup k
  | [] => by simp
  | x :: l => by
    by_cases hx : x.1 = key
    · rw [List.filter_cons_of_neg (by simp [hx]), lookup_filter_ne key k l, List.lookup_cons, hx]
      split
      · rfl
      · rw [beq_false_of_ne ‹_›]
    · rw [List.filter_cons_of_pos (by simp [hx]), List.lookup_cons, List.lookup_cons,
        lookup_filter_ne key k l]
      by_cases hk : k = x.1
      · rw [hk, beq_self_eq_true]
        exact (if_neg hx).symm
      · rw [beq_false_of_ne hk]

variable (P : CachePolicy κ σ) (c : CacheMt κ α σ)

theorem find_erase (key k : κ) : (c.erase key).find k = if k = key then none else c.find k :=
  lookup_filter_ne key k c.cacheMap

theorem find_of_erase {key k : κ} {e : α × Bool} (h : (c.erase key).find k = some e) :
    k ≠ key ∧ c.find k = some e := by
  rw [find_erase] at h
  split at h
  · cases h
  · exact ⟨‹_›, h⟩

/-- A read does not change the entries. -/
theorem find_read (key k : κ) : (c.read P key).2.find k = c.find k := by
  unfold read
  split <;> rfl

theorem read_eq_find (key : κ) : (c.read P key).1 = (c.find key).map (·.1) := by
  unfold read
  cases c.find key with
  | none => rfl
  | some e => rfl

/-- After a write there is nothing but the new entry and entries from before. -/
theorem find_write {key : κ} {data : α} {dirty : Bool} {k : κ} {e : α × Bool}
    (h : (c.write P key data dirty).2.2.find k = some e) :
    k = key ∧ e.1 = data ∨ k ≠ key ∧ c.find k = some e := by
  have hcons : ∀ {l : List (κ × α × Bool)}, List.lookup k ((key, data, dirty) :: l) = some e →
      k = key ∧ e.1 = data ∨ k ≠ key ∧ List.lookup k l = some e := by
    intro l hl
    rw [List.lookup_cons] at hl
    by_cases hk : k = key
    · rw [hk, beq_self_eq_true, Option.some.injEq] at hl
      exact .inl ⟨hk, by rw [← hl]⟩
    · rw [beq_false_of_ne hk] at hl
      exact .inr ⟨hk, hl⟩
  unfold write at h
  simp only at h
  split at h
  · split at h
    · exact .inr (c.find_of_erase h)
    · rcases hcons h with h | ⟨hk, h⟩
      · exact .inl h
      · exact .inr ⟨hk, (c.find_of_erase ((c.erase key).find_of_erase h).2).2⟩
  · rcases hcons h with h | ⟨hk, h⟩
    · exact .inl h
    · exact .inr ⟨hk, (c.find_of_erase h).2⟩

theorem length_erase_le (key : κ) : (c.erase key).cacheMap.length ≤ c.cacheMap.length :=
  List.length_filter_le _ _

/-- In a cache that is not full a write keeps all other entries. -/
theorem write_of_lt (key : κ) (data : α) (dirty : Bool) (h : c.cacheMap.length < c.mSize) :
    c.write P key data dirty = (true, none, { c.erase key with
      cacheMap := (key, data, dirty) :: (c.erase key).cacheMap
      policy := P.hit key c.policy }) := by
  have hle := c.length_erase_le key
  have hne : ¬ (c.erase key).cacheMap.length = (c.erase key).mSize :=
    Nat.ne_of_lt (Nat.lt_of_le_of_lt hle h)
  rw [write, if_neg hne]
  rfl

theorem find_write_of_lt (key : κ) (data : α) (dirty : Bool) (h : c.cacheMap.length < c.mSize)
    (k : κ) : (c.write P key data dirty).2.2.find k =
      if k = key then some (data, dirty) else c.find k := by
  rw [write_of_lt P c key data dirty h, find, List.lookup_cons]
  by_cases hk : k = key
  · rw [if_pos hk, hk, beq_self_eq_true]
  · rw [if_neg hk, beq_false_of_ne hk]
    exact (c.find_erase key k).trans (if_neg hk)

end CacheMt

end BlobSeer
