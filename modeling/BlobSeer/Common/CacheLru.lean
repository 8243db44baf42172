import Mathlib.Data.List.Nodup
import Mathlib.Data.List.Pairwise
import BlobSeer.Common.CacheMt

/-!
# The cache with the LRU policy

A cache under `cache_mt_LRU` keeps its keys in three containers: the queue and the iterator map of
the policy, and the map of the cache. `Ok` ties them together. A write that evicts is a `free` of the
key at the front followed by a write into a cache with room, so the three containers are followed
through `free` and `put` only.
-/

namespace BlobSeer

/-! ## The queue -/

namespace CacheMtLRU

variable {κ : Type}

/-- The keys in the order of their last use, the oldest first. -/
def keys (p : CacheMtLRU κ) : List κ := p.queue.map (·.2)

/-- List nodes have different names, and the iterator of a key points at the node that holds it. -/
structure Ok (p : CacheMtLRU κ) : Prop where
  nodes : (p.queue.map (·.1)).Nodup
  fresh : ∀ e ∈ p.queue, e.1 < p.pushed
  count : ∀ (k : κ) (node : Nat), p.accessCount k = some node ↔ (node, k) ∈ p.queue

namespace Ok

variable {p : CacheMtLRU κ}

theorem empty (n : Nat) : Ok ({ pushed := n } : CacheMtLRU κ) :=
  ⟨List.nodup_nil, fun _ he => absurd he List.not_mem_nil, fun _ _ => by simp⟩

theorem clear (p : CacheMtLRU κ) : p.clear.Ok := empty p.pushed

theorem keys_nodup (h : p.Ok) : p.keys.Nodup := by
  refine List.Nodup.map_on ?_ h.nodes.of_map
  intro a ha b hb hab
  have hca := (h.count a.2 a.1).mpr ha
  have hcb := (h.count b.2 b.1).mpr hb
  rw [hab, hcb, Option.some.injEq] at hca
  exact Prod.ext hca.symm hab

theorem mem_keys (h : p.Ok) (k : κ) : k ∈ p.keys ↔ (p.accessCount k).isSome := by
  rw [Option.isSome_iff_exists]
  constructor
  · intro hk
    obtain ⟨e, he, rfl⟩ := List.mem_map.mp hk
    exact ⟨e.1, (h.count e.2 e.1).mpr he⟩
  · rintro ⟨node, hnode⟩
    exact List.mem_map.mpr ⟨_, (h.count k node).mp hnode, rfl⟩

/-- Dereferencing an iterator gives the key it is kept for. -/
theorem filter_node (h : p.Ok) {k : κ} {node : Nat} (hk : p.accessCount k = some node) :
    p.queue.filter (fun e => e.1 == node) = [(node, k)] := by
  have hmem := (h.count k node).mp hk
  have hsub : ∀ e ∈ p.queue.filter (fun e => e.1 == node), e = (node, k) := by
    intro e he
    obtain ⟨he, hn⟩ := List.mem_filter.mp he
    exact List.inj_on_of_nodup_map h.nodes he hmem (eq_of_beq hn)
  have hnd : (p.queue.filter (fun e => e.1 == node)).Nodup := h.nodes.of_map.filter _
  have hin : (node, k) ∈ p.queue.filter (fun e => e.1 == node) :=
    List.mem_filter.mpr ⟨hmem, beq_self_eq_true _⟩
  rw [List.eq_replicate_of_mem hsub] at hnd hin ⊢
  have hle := List.nodup_replicate.mp hnd
  have hpos : (p.queue.filter (fun e => e.1 == node)).length ≠ 0 := (List.mem_replicate.mp hin).1
  rw [show (p.queue.filter (fun e => e.1 == node)).length = 1 by omega]
  rfl

variable [DecidableEq κ]

theorem queue_invalidate (h : p.Ok) (key : κ) :
    (p.invalidate key).queue = p.queue.filter (fun e => e.2 != key) := by
  unfold invalidate
  split
  · next node hnode =>
    apply List.filter_congr
    intro e he
    rw [Bool.eq_iff_iff, bne_iff_ne, bne_iff_ne, not_iff_not]
    constructor
    · intro hn
      have := List.inj_on_of_nodup_map h.nodes he ((h.count key node).mp hnode) hn
      rw [this]
    · intro hk
      have hc := (h.count e.2 e.1).mpr he
      rw [hk, hnode, Option.some.injEq] at hc
      exact hc.symm
  · next hnone =>
    refine (List.filter_eq_self.mpr ?_).symm
    intro e he
    rw [bne_iff_ne]
    intro hk
    have hc := (h.count e.2 e.1).mpr he
    rw [hk, hnone] at hc
    cases hc

theorem accessCount_invalidate (key : κ) :
    (p.invalidate key).accessCount = Function.update p.accessCount key none := by
  unfold invalidate
  split
  · rfl
  · next hnone => rw [← hnone, Function.update_eq_self]

theorem pushed_invalidate (key : κ) : (p.invalidate key).pushed = p.pushed := by
  unfold invalidate
  split <;> rfl

theorem keys_invalidate (h : p.Ok) (key : κ) :
    (p.invalidate key).keys = p.keys.filter (· != key) := by
  rw [keys, h.queue_invalidate, keys, List.filter_map]
  rfl

theorem invalidate (h : p.Ok) (key : κ) : (p.invalidate key).Ok := by
  have hsub := List.filter_sublist (p := fun e : Nat × κ => e.2 != key) (l := p.queue)
  refine ⟨?_, ?_, ?_⟩
  · rw [h.queue_invalidate]
    exact h.nodes.sublist (hsub.map _)
  · intro e he
    rw [h.queue_invalidate] at he
    rw [pushed_invalidate]
    exact h.fresh e (hsub.subset he)
  · intro k node
    rw [h.queue_invalidate, List.mem_filter, bne_iff_ne, accessCount_invalidate,
      Function.update_apply, ← h.count]
    by_cases hk : k = key
    · simp [hk]
    · simp [hk]

theorem keys_hit (h : p.Ok) (key : κ) : (p.hit key).keys = p.keys.filter (· != key) ++ [key] := by
  rw [← h.keys_invalidate]
  exact List.map_append

theorem hit (h : p.Ok) (key : κ) : (p.hit key).Ok := by
  have hi := h.invalidate key
  refine ⟨?_, ?_, ?_⟩
  · rw [CacheMtLRU.hit, List.map_append]
    refine List.nodup_append.mpr ⟨hi.nodes, List.nodup_singleton _, ?_⟩
    intro n hn n' hn'
    obtain ⟨e, he, rfl⟩ := List.mem_map.mp hn
    rw [List.map_singleton, List.mem_singleton] at hn'
    exact hn' ▸ Nat.ne_of_lt (hi.fresh e he)
  · intro e he
    change e.1 < (p.invalidate key).pushed + 1
    rcases List.mem_append.mp he with he | he
    · exact Nat.lt_succ_of_lt (hi.fresh e he)
    · rw [List.mem_singleton.mp he]
      exact Nat.lt_succ_self _
  · intro k node
    change Function.update (p.invalidate key).accessCount key _ k = some node ↔ (node, k) ∈ _ ++ _
    rw [List.mem_append, List.mem_singleton, Prod.mk.injEq, Function.update_apply]
    by_cases hk : k = key
    · have hout : (node, k) ∉ (p.invalidate key).queue := by
        rw [h.queue_invalidate, List.mem_filter, hk]
        simp
      simp [hk, hk ▸ hout, eq_comm]
    · simp [hk, hi.count]

end Ok

theorem evictEntry_eq [DecidableEq κ] (p : CacheMtLRU κ) :
    p.evictEntry = p.keys.head?.map fun key => (key, p.invalidate key) := by
  unfold evictEntry keys
  split
  · next hq => rw [hq]; rfl
  · next hq => rw [hq]; rfl

end CacheMtLRU

/-! ## The three containers -/

namespace CacheMt

variable {κ α : Type} [DecidableEq κ]

/-- The keys of `cache_map`. -/
def keys {σ : Type} (c : CacheMt κ α σ) : List κ := c.cacheMap.map (·.1)

/-- A cache under `cache_mt_LRU` whose containers agree. -/
structure Ok (c : CacheMt κ α (CacheMtLRU κ)) : Prop where
  policy : c.policy.Ok
  nodup : c.keys.Nodup
  same : ∀ k, k ∈ c.policy.keys ↔ k ∈ c.keys
  size : c.cacheMap.length ≤ c.mSize

/-- What a write does to a cache that need not evict. -/
def put (c : CacheMt κ α (CacheMtLRU κ)) (key : κ) (data : α) (dirty : Bool) :
    CacheMt κ α (CacheMtLRU κ) :=
  { c.erase key with
    cacheMap := (key, data, dirty) :: (c.erase key).cacheMap
    policy := c.policy.hit key }

/-- The entry under a key, if it is dirty. -/
def dirtyEntry {σ : Type} (c : CacheMt κ α σ) (key : κ) : Option (κ × α) :=
  match c.find key with
  | some (data, true) => some (key, data)
  | _ => none

section Maps

variable {σ : Type} (c : CacheMt κ α σ)

theorem mem_keys (k : κ) : k ∈ c.keys ↔ (c.find k).isSome := by
  unfold keys find
  induction c.cacheMap with
  | nil => simp
  | cons e l ih =>
    rw [List.map_cons, List.mem_cons, List.lookup_cons, ih]
    by_cases hk : k = e.1
    · simp [hk]
    · rw [beq_false_of_ne hk]
      simp [hk]

theorem keys_erase (key : κ) : (c.erase key).keys = c.keys.filter (· != key) := by
  rw [keys, erase, keys, List.filter_map]
  rfl

theorem erase_eq_self {key : κ} (h : key ∉ c.keys) : c.erase key = c := by
  have hfilter : c.cacheMap.filter (fun e => e.1 != key) = c.cacheMap := by
    refine List.filter_eq_self.mpr ?_
    intro e he
    rw [bne_iff_ne]
    rintro rfl
    exact h (List.mem_map_of_mem he)
  rw [erase, hfilter]

theorem length_erase_lt {key : κ} (h : key ∈ c.keys) :
    (c.erase key).cacheMap.length < c.cacheMap.length := by
  obtain ⟨e, he, rfl⟩ := List.mem_map.mp h
  refine Nat.lt_of_le_of_ne (List.length_filter_le _ _) ?_
  intro heq
  have := List.length_filter_eq_length_iff.mp heq e he
  simp at this

theorem ne_of_dirtyEntry_eq_none {key : κ} (h : c.dirtyEntry key = none) (data : α) :
    c.find key ≠ some (data, true) := by
  intro hf
  rw [dirtyEntry, hf] at h
  cases h

theorem find_of_dirtyEntry_eq_some {key : κ} {e : κ × α} (h : c.dirtyEntry key = some e) :
    e.1 = key ∧ c.find key = some (e.2, true) := by
  unfold dirtyEntry at h
  split at h
  · next data hf =>
    cases h
    exact ⟨rfl, hf⟩
  · cases h

end Maps

variable {c : CacheMt κ α (CacheMtLRU κ)}

theorem find_put (c : CacheMt κ α (CacheMtLRU κ)) (key : κ) (data : α) (dirty : Bool) (k : κ) :
    (c.put key data dirty).find k = if k = key then some (data, dirty) else c.find k := by
  rw [put, find, List.lookup_cons]
  by_cases hk : k = key
  · rw [if_pos hk, hk, beq_self_eq_true]
  · rw [if_neg hk, beq_false_of_ne hk]
    exact (c.find_erase key k).trans (if_neg hk)

theorem find_free (c : CacheMt κ α (CacheMtLRU κ)) (key k : κ) :
    (c.free CacheMtLRU.policy key).find k = if k = key then none else c.find k :=
  c.find_erase key k

/-- A write of a new key into a full cache. -/
theorem write_of_full {key : κ} (data : α) (dirty : Bool) (hkey : key ∉ c.keys)
    (hfull : c.cacheMap.length = c.mSize) :
    c.write CacheMtLRU.policy key data dirty =
      match c.policy.keys with
      | [] => (false, none, c)
      | ek :: _ => (true, c.dirtyEntry ek, (c.free CacheMtLRU.policy ek).put key data dirty) := by
  have hfree : ∀ ek, key ∉ (c.free CacheMtLRU.policy ek).keys := by
    intro ek hmem
    rw [mem_keys, find_free] at hmem
    split at hmem
    · cases hmem
    · exact hkey ((c.mem_keys key).mpr hmem)
  have hwrite := CacheMt.write.eq_1 CacheMtLRU.policy c key data dirty
  rw [c.erase_eq_self hkey, if_pos hfull] at hwrite
  rw [hwrite]
  have hev : CacheMtLRU.policy.evictEntry c.policy = _ := CacheMtLRU.evictEntry_eq c.policy
  cases hks : c.policy.keys with
  | nil =>
    rw [hks] at hev
    simp only [hev, List.head?_nil, Option.map_none]
  | cons ek ks =>
    rw [hks] at hev
    simp only [hev, List.head?_cons, Option.map_some]
    rw [put, (c.free _ ek).erase_eq_self (hfree ek)]
    rfl

namespace Ok

omit [DecidableEq κ] in
theorem mSize_ne_zero (h : c.Ok) {k : κ} (hk : k ∈ c.keys) : c.mSize ≠ 0 := by
  have hpos := List.length_pos_of_mem hk
  have hsize := h.size
  rw [keys, List.length_map] at hpos
  omega

theorem free (h : c.Ok) (key : κ) : (c.free CacheMtLRU.policy key).Ok := by
  refine ⟨h.policy.invalidate key, ?_, ?_, ?_⟩
  · exact (c.keys_erase key).symm ▸ h.nodup.filter _
  · intro k
    change k ∈ (c.policy.invalidate key).keys ↔ k ∈ (c.erase key).keys
    rw [h.policy.keys_invalidate, keys_erase, List.mem_filter, List.mem_filter, h.same]
  · exact Nat.le_trans (c.length_erase_le key) h.size

theorem clear (c : CacheMt κ α (CacheMtLRU κ)) : (c.clear CacheMtLRU.policy).Ok :=
  ⟨CacheMtLRU.Ok.clear c.policy, List.nodup_nil, fun _ => Iff.rfl, Nat.zero_le _⟩

theorem read (h : c.Ok) (key : κ) : (c.read CacheMtLRU.policy key).2.Ok := by
  unfold CacheMt.read
  split
  · exact ⟨h.policy, h.nodup, h.same, h.size⟩
  · next data _ hfind =>
    refine ⟨h.policy.hit key, h.nodup, ?_, h.size⟩
    intro k
    change k ∈ (c.policy.hit key).keys ↔ k ∈ c.keys
    have hkey : key ∈ c.keys := (c.mem_keys key).mpr (by rw [hfind]; rfl)
    rw [h.policy.keys_hit, List.mem_append, List.mem_filter, bne_iff_ne, List.mem_singleton,
      h.same]
    by_cases hk : k = key
    · simp [hk, hkey]
    · simp [hk]

theorem put (h : c.Ok) {key : κ} (data : α) (dirty : Bool)
    (hroom : key ∈ c.keys ∨ c.cacheMap.length < c.mSize) : (c.put key data dirty).Ok := by
  refine ⟨h.policy.hit key, ?_, ?_, ?_⟩
  · change (key :: (c.erase key).keys).Nodup
    rw [keys_erase]
    exact List.nodup_cons.mpr ⟨by simp, h.nodup.filter _⟩
  · intro k
    change k ∈ (c.policy.hit key).keys ↔ k ∈ key :: (c.erase key).keys
    rw [h.policy.keys_hit, List.mem_append, List.mem_singleton, List.mem_cons, keys_erase,
      List.mem_filter, List.mem_filter, h.same, or_comm]
  · change (c.erase key).cacheMap.length + 1 ≤ c.mSize
    rcases hroom with hmem | hlt
    · exact Nat.lt_of_lt_of_le (c.length_erase_lt hmem) h.size
    · exact Nat.lt_of_le_of_lt (c.length_erase_le key) hlt

/-- A cache without slots refuses the entry; with room for it nothing is evicted; and a full cache
gives up the key that was used longest ago. -/
theorem write_cases (h : c.Ok) (key : κ) (data : α) (dirty : Bool) :
    (c.mSize = 0 ∧ c.cacheMap = [] ∧
      c.write CacheMtLRU.policy key data dirty = (false, none, c)) ∨
    ((key ∈ c.keys ∨ c.cacheMap.length < c.mSize) ∧
      c.write CacheMtLRU.policy key data dirty = (true, none, c.put key data dirty)) ∨
    ∃ ek ks, c.policy.keys = ek :: ks ∧ key ∉ c.keys ∧ c.cacheMap.length = c.mSize ∧
      c.write CacheMtLRU.policy key data dirty =
        (true, c.dirtyEntry ek, (c.free CacheMtLRU.policy ek).put key data dirty) := by
  by_cases hroom : key ∈ c.keys ∨ c.cacheMap.length < c.mSize
  · refine .inr (.inl ⟨hroom, ?_⟩)
    have hlt : (c.erase key).cacheMap.length < (c.erase key).mSize := by
      rcases hroom with hmem | hlt
      · exact Nat.lt_of_lt_of_le (c.length_erase_lt hmem) h.size
      · exact Nat.lt_of_le_of_lt (c.length_erase_le key) hlt
    rw [CacheMt.write, if_neg (Nat.ne_of_lt hlt)]
    rfl
  · rw [not_or, Nat.not_lt] at hroom
    obtain ⟨hkey, hge⟩ := hroom
    have hfull : c.cacheMap.length = c.mSize := Nat.le_antisymm h.size hge
    rw [write_of_full data dirty hkey hfull]
    cases hks : c.policy.keys with
    | nil =>
      -- no key in the queue, so none in the map
      have hkeys : c.keys = [] := by
        refine List.eq_nil_iff_forall_not_mem.mpr ?_
        intro k hk
        have := (h.same k).mpr hk
        rw [hks] at this
        cases this
      have hnil : c.cacheMap = [] := List.map_eq_nil_iff.mp hkeys
      exact .inl ⟨by rw [← hfull, hnil]; rfl, hnil, rfl⟩
    | cons ek ks => exact .inr (.inr ⟨ek, ks, rfl, hkey, hfull, rfl⟩)

theorem write (h : c.Ok) (key : κ) (data : α) (dirty : Bool) :
    (c.write CacheMtLRU.policy key data dirty).2.2.Ok := by
  obtain ⟨-, -, hw⟩ | ⟨hroom, hw⟩ | ⟨ek, ks, hks, hkey, hfull, hw⟩ := h.write_cases key data dirty
  · rw [hw]
    exact h
  · rw [hw]
    exact h.put data dirty hroom
  · rw [hw]
    have hek : ek ∈ c.keys := (h.same ek).mp (by rw [hks]; exact List.mem_cons_self)
    refine (h.free ek).put data dirty (.inr ?_)
    exact Nat.lt_of_lt_of_le (c.length_erase_lt hek) h.size

end Ok

end CacheMt

/-! ## Runs of the cache -/

/-- The calls on a cache. -/
inductive CacheOp (κ α : Type) where
  | write (key : κ) (data : α) (dirty : Bool)
  | read (key : κ)
  | free (key : κ)
  | clear

/-- What a call returns, and what it passes to `evict_callback`. -/
structure CacheResult (κ α : Type) where
  ok : Bool := true
  data : Option α := none
  callback : Option (κ × α) := none

section Calls

variable {κ α : Type} [DecidableEq κ]

/-- One call. -/
def CacheMt.call (c : CacheMt κ α (CacheMtLRU κ)) :
    CacheOp κ α → CacheResult κ α × CacheMt κ α (CacheMtLRU κ)
  | .write key data dirty =>
    let r := c.write CacheMtLRU.policy key data dirty
    ({ ok := r.1, callback := r.2.1 }, r.2.2)
  | .read key =>
    let r := c.read CacheMtLRU.policy key
    ({ ok := r.1.isSome, data := r.1 }, r.2)
  | .free key => ({}, c.free CacheMtLRU.policy key)
  | .clear => ({}, c.clear CacheMtLRU.policy)

/-- A new cache with `m` slots after a list of calls, the last call first. -/
def calls (m : Nat) : List (CacheOp κ α) → CacheMt κ α (CacheMtLRU κ)
  | [] => { policy := {}, mSize := m }
  | op :: ops => ((calls m ops).call op).2

/-- The keys that a call evicts: those that it removes without being asked to. -/
def CacheMt.evicts (c : CacheMt κ α (CacheMtLRU κ)) : CacheOp κ α → List κ
  | .write key data dirty => c.keys.filter fun k => k ∉ (c.call (.write key data dirty)).2.keys
  | .read key => c.keys.filter fun k => k ∉ (c.call (.read key)).2.keys
  | .free _ | .clear => []

/-- The data of the last write of a key, unless the key was freed, cleared or evicted since. -/
def kept (m : Nat) : List (CacheOp κ α) → κ → Option α
  | [], _ => none
  | op :: ops, k =>
    if k ∈ (calls m ops).evicts op then none
    else match op with
      | .write key data dirty =>
        if key = k ∧ ((calls m ops).call (.write key data dirty)).1.ok then some data
        else kept m ops k
      | .read _ => kept m ops k
      | .free key => if key = k then none else kept m ops k
      | .clear => none

/-- The last write of a key: its data and its dirty mark. -/
def lastWrite : List (CacheOp κ α) → κ → Option (α × Bool)
  | [], _ => none
  | .write key data dirty :: ops, k => if key = k then some (data, dirty) else lastWrite ops k
  | _ :: ops, k => lastWrite ops k

/-- The key that a call writes or reads. -/
def CacheOp.uses : CacheOp κ α → Option κ
  | .write key _ _ | .read key => some key
  | .free _ | .clear => none

/-- How many calls ago a key was written or read for the last time. -/
def age : List (CacheOp κ α) → κ → Nat
  | [], _ => 0
  | op :: ops, k => if op.uses = some k then 0 else age ops k + 1

/-- The entry that `evict_callback` is owed when a key is evicted. -/
def owed (ops : List (CacheOp κ α)) (k : κ) : Option (κ × α) :=
  match lastWrite ops k with
  | some (data, true) => some (k, data)
  | _ => none

/-- A cache of `m` slots whose containers are consistent. -/
structure Consistent (m : Nat) (c : CacheMt κ α (CacheMtLRU κ)) : Prop where
  queue_nodup : (c.policy.queue.map (·.2)).Nodup
  queue_accessCount : ∀ k, k ∈ c.policy.queue.map (·.2) ↔ (c.policy.accessCount k).isSome
  queue_cacheMap : ∀ k, k ∈ c.policy.queue.map (·.2) ↔ k ∈ c.cacheMap.map (·.1)
  cacheMap_nodup : (c.cacheMap.map (·.1)).Nodup
  position : ∀ (k : κ) (node : Nat), c.policy.accessCount k = some node →
    c.policy.queue.filter (fun e => e.1 == node) = [(node, k)]
  size : c.cacheMap.length ≤ m

variable {c : CacheMt κ α (CacheMtLRU κ)}

theorem evicts_read (key : κ) : c.evicts (.read key) = [] := by
  have hkeys : (c.call (.read key)).2.keys = c.keys := by
    change (c.read CacheMtLRU.policy key).2.keys = c.keys
    unfold CacheMt.read
    split <;> rfl
  refine List.filter_eq_nil_iff.mpr ?_
  intro k hk
  rw [hkeys]
  simpa using hk

/-- Only writes evict. -/
theorem write_of_mem_evicts {op : CacheOp κ α} {k : κ} (hk : k ∈ c.evicts op) :
    ∃ key data dirty, op = .write key data dirty := by
  cases op with
  | write key data dirty => exact ⟨key, data, dirty, rfl⟩
  | read key => exact absurd (evicts_read (c := c) key ▸ hk) List.not_mem_nil
  | free key => exact absurd hk List.not_mem_nil
  | clear => exact absurd hk List.not_mem_nil

theorem mem_keys_put (key : κ) (data : α) (dirty : Bool) (k : κ) :
    k ∈ (c.put key data dirty).keys ↔ k = key ∨ k ∈ c.keys := by
  rw [CacheMt.mem_keys, CacheMt.find_put, CacheMt.mem_keys]
  by_cases hk : k = key
  · simp [hk]
  · simp [hk]

theorem mem_keys_free (key k : κ) :
    k ∈ (c.free CacheMtLRU.policy key).keys ↔ k ≠ key ∧ k ∈ c.keys := by
  rw [CacheMt.mem_keys, CacheMt.find_free, CacheMt.mem_keys]
  by_cases hk : k = key
  · simp [hk]
  · simp [hk]

/-- A write evicts at most one key, the front of the queue. -/
theorem evicts_write (h : c.Ok) (key : κ) (data : α) (dirty : Bool) :
    (c.mSize = 0 ∧ c.cacheMap = [] ∧ c.evicts (.write key data dirty) = [] ∧
      c.write CacheMtLRU.policy key data dirty = (false, none, c)) ∨
    (c.evicts (.write key data dirty) = [] ∧
      c.write CacheMtLRU.policy key data dirty = (true, none, c.put key data dirty)) ∨
    ∃ ek ks, c.policy.keys = ek :: ks ∧ key ∉ c.keys ∧ c.cacheMap.length = c.mSize ∧
      c.evicts (.write key data dirty) = [ek] ∧
      c.write CacheMtLRU.policy key data dirty =
        (true, c.dirtyEntry ek, (c.free CacheMtLRU.policy ek).put key data dirty) := by
  rw [CacheMt.evicts, CacheMt.call]
  obtain ⟨h0, hnil, hw⟩ | ⟨-, hw⟩ | ⟨ek, ks, hks, hkey, hfull, hw⟩ := h.write_cases key data dirty
  · refine .inl ⟨h0, hnil, ?_, hw⟩
    rw [hw, CacheMt.keys, hnil]
    rfl
  · refine .inr (.inl ⟨?_, hw⟩)
    rw [hw]
    refine List.filter_eq_nil_iff.mpr ?_
    intro k hk
    simp [mem_keys_put, hk]
  · refine .inr (.inr ⟨ek, ks, hks, hkey, hfull, ?_, hw⟩)
    have hek : ek ∈ c.keys := (h.same ek).mp (by rw [hks]; exact List.mem_cons_self)
    have hfilter : c.keys.filter
        (fun k => k ∉ ((c.free CacheMtLRU.policy ek).put key data dirty).keys) =
        c.keys.filter (· == ek) := by
      apply List.filter_congr
      intro k hk
      have hne : k ≠ key := fun e => hkey (e ▸ hk)
      rw [Bool.eq_iff_iff]
      simp [mem_keys_put, mem_keys_free, hne, hk]
    rw [hw, hfilter, List.filter_beq, List.count_eq_one_of_mem h.nodup hek]
    rfl

/-- The cache after a list of calls: the queue is in the order of use, and the map holds the last
writes that are still kept. -/
structure Follows (m : Nat) (ops : List (CacheOp κ α)) (c : CacheMt κ α (CacheMtLRU κ)) : Prop where
  ok : c.Ok
  size : c.mSize = m
  order : c.policy.keys.Pairwise fun a b => age ops b < age ops a
  last : ∀ k e, c.find k = some e → lastWrite ops k = some e
  kept : ∀ k, (c.find k).map (·.1) = kept m ops k

/-- Keys that a call does not use grow older together. -/
theorem pairwise_age {ops : List (CacheOp κ α)} {op : CacheOp κ α} {ks : List κ}
    (h : ks.Pairwise fun a b => age ops b < age ops a) (hks : ∀ k ∈ ks, op.uses ≠ some k) :
    ks.Pairwise fun a b => age (op :: ops) b < age (op :: ops) a := by
  refine h.imp_of_mem ?_
  intro a b ha hb hab
  rw [age, age, if_neg (hks a ha), if_neg (hks b hb)]
  exact Nat.succ_lt_succ hab

/-- The key that a call uses goes to the back. -/
theorem pairwise_age_use {ops : List (CacheOp κ α)} {op : CacheOp κ α} {ks : List κ} {key : κ}
    (h : ks.Pairwise fun a b => age ops b < age ops a) (hop : op.uses = some key) :
    (ks.filter (· != key) ++ [key]).Pairwise fun a b => age (op :: ops) b < age (op :: ops) a := by
  have hne : ∀ k ∈ ks.filter (· != key), op.uses ≠ some k := by
    intro k hk heq
    have hk := (List.mem_filter.mp hk).2
    rw [hop, Option.some.injEq] at heq
    rw [heq, bne_self_eq_false] at hk
    cases hk
  refine List.pairwise_append.mpr ⟨pairwise_age (h.filter _) hne, List.pairwise_singleton _ _, ?_⟩
  intro a ha b hb
  rw [List.mem_singleton.mp hb, age, age, if_pos hop, if_neg (hne a ha)]
  exact Nat.succ_pos _

theorem Follows.nil (m : Nat) : Follows m ([] : List (CacheOp κ α)) (calls m []) where
  ok := ⟨CacheMtLRU.Ok.empty 0, List.nodup_nil, fun _ => Iff.rfl, Nat.zero_le _⟩
  size := rfl
  order := List.Pairwise.nil
  last := fun _ _ h => nomatch h
  kept := fun _ => rfl

namespace Follows

variable {m : Nat} {ops : List (CacheOp κ α)}

/-- The new entry of a write is its last write, and an older entry has not been written. -/
theorem lastWrite_cons (h : Follows m ops c) {key : κ} {data : α} {dirty : Bool} {k : κ}
    {e : α × Bool} {old : Option (α × Bool)}
    (hf : (if k = key then some (data, dirty) else old) = some e)
    (hold : old = some e → c.find k = some e) :
    lastWrite (.write key data dirty :: ops) k = some e := by
  rw [lastWrite]
  split at hf
  · next hk => rw [if_pos hk.symm, hf]
  · next hk => rw [if_neg (Ne.symm hk), h.last k e (hold hf)]

theorem write (h : Follows m ops (calls m ops)) (key : κ) (data : α) (dirty : Bool) :
    Follows m (.write key data dirty :: ops) (calls m (.write key data dirty :: ops)) := by
  have hok := h.ok.write key data dirty
  have hcall : calls m (.write key data dirty :: ops) =
      ((calls m ops).write CacheMtLRU.policy key data dirty).2.2 := rfl
  have hkept : ∀ k, BlobSeer.kept m (.write key data dirty :: ops) k =
      if k ∈ (calls m ops).evicts (.write key data dirty) then none
      else if key = k ∧ ((calls m ops).write CacheMtLRU.policy key data dirty).1 then some data
      else BlobSeer.kept m ops k := fun _ => rfl
  rw [hcall]
  obtain ⟨-, hnil, he, hw⟩ | ⟨he, hw⟩ | ⟨ek, ks, hks, hkey, -, he, hw⟩ :=
    evicts_write h.ok key data dirty
  all_goals
    rw [hw] at hok hkept ⊢
    rw [he] at hkept
  · have hfind : ∀ k, (calls m ops).find k = none := by
      intro k
      rw [CacheMt.find, hnil, List.lookup_nil]
    have hkeys : (calls m ops).policy.keys = [] := by
      refine List.eq_nil_iff_forall_not_mem.mpr ?_
      intro k hk
      have := (h.ok.same k).mp hk
      rw [CacheMt.keys, hnil] at this
      cases this
    refine ⟨hok, h.size, ?_, ?_, ?_⟩
    · rw [hkeys]
      exact List.Pairwise.nil
    · intro k e hf
      rw [hfind] at hf
      cases hf
    · intro k
      rw [h.kept, hkept]
      simp
  · refine ⟨hok, h.size, ?_, ?_, ?_⟩
    · exact h.ok.policy.keys_hit key ▸ pairwise_age_use h.order rfl
    · intro k e hf
      rw [CacheMt.find_put] at hf
      exact h.lastWrite_cons hf fun hf => hf
    · intro k
      rw [hkept, CacheMt.find_put, ← h.kept]
      by_cases hk : k = key
      · simp [hk]
      · simp [hk, Ne.symm hk]
  · have hek : ek ∈ (calls m ops).keys :=
      (h.ok.same ek).mp (by rw [hks]; exact List.mem_cons_self)
    refine ⟨hok, h.size, ?_, ?_, ?_⟩
    · have hfree := h.ok.free ek
      have hkeys := hfree.policy.keys_hit key
      have horder := h.order.filter (· != ek)
      rw [← h.ok.policy.keys_invalidate ek] at horder
      exact hkeys ▸ pairwise_age_use horder rfl
    · intro k e hf
      rw [CacheMt.find_put, CacheMt.find_free] at hf
      refine h.lastWrite_cons hf ?_
      intro hf
      split at hf
      · cases hf
      · exact hf
    · intro k
      rw [hkept, CacheMt.find_put, CacheMt.find_free, ← h.kept]
      by_cases hk : k = key
      · have hne : key ≠ ek := fun e => hkey (e ▸ hek)
        simp [hk, hne]
      · simp only [if_neg hk, List.mem_singleton]
        split
        · rfl
        · simp [Ne.symm hk]

theorem read (h : Follows m ops (calls m ops)) (key : κ) :
    Follows m (.read key :: ops) (calls m (.read key :: ops)) := by
  have hcall : calls m (.read key :: ops) =
      ((calls m ops).read CacheMtLRU.policy key).2 := rfl
  have hok := h.ok.read key
  have hfind := CacheMt.find_read CacheMtLRU.policy (calls m ops) key
  rw [← hcall] at hok hfind
  refine ⟨hok, ?_, ?_, ?_, ?_⟩
  · refine Eq.trans ?_ h.size
    rw [hcall]
    unfold CacheMt.read
    split <;> rfl
  · rw [hcall]
    unfold CacheMt.read
    split
    · next hnone =>
      -- a miss leaves the queue alone, and the key is not in it
      refine pairwise_age h.order ?_
      rintro k hk ⟨⟩
      have := (h.ok.same key).mp hk
      rw [CacheMt.mem_keys, hnone] at this
      cases this
    · exact h.ok.policy.keys_hit key ▸ pairwise_age_use h.order rfl
  · intro k e hf
    rw [hfind] at hf
    exact h.last k e hf
  · intro k
    rw [hfind, h.kept, BlobSeer.kept, evicts_read, if_neg List.not_mem_nil]

theorem free (h : Follows m ops (calls m ops)) (key : κ) :
    Follows m (.free key :: ops) (calls m (.free key :: ops)) := by
  have hfind := CacheMt.find_free (calls m ops) key
  refine ⟨h.ok.free key, h.size, ?_, ?_, ?_⟩
  · refine pairwise_age ?_ fun _ _ => nofun
    exact h.ok.policy.keys_invalidate key ▸ h.order.filter _
  · intro k e hf
    have hf := (hfind k).symm.trans hf
    split at hf
    · cases hf
    · exact h.last k e hf
  · intro k
    refine (congrArg _ (hfind k)).trans ?_
    rw [BlobSeer.kept, CacheMt.evicts, if_neg List.not_mem_nil, ← h.kept]
    by_cases hk : k = key
    · simp [hk]
    · simp [hk, Ne.symm hk]

theorem clear (h : Follows m ops (calls m ops)) :
    Follows m (.clear :: ops) (calls m (.clear :: ops)) :=
  ⟨CacheMt.Ok.clear _, h.size, List.Pairwise.nil, fun _ _ hf => (nomatch hf), fun _ => rfl⟩

end Follows

theorem follows_calls (m : Nat) :
    ∀ ops : List (CacheOp κ α), Follows m ops (calls m ops)
  | [] => .nil m
  | .write key data dirty :: ops => (follows_calls m ops).write key data dirty
  | .read key :: ops => (follows_calls m ops).read key
  | .free key :: ops => (follows_calls m ops).free key
  | .clear :: ops => (follows_calls m ops).clear

/-! ## The bounded LRU map -/

theorem Follows.consistent {m : Nat} {ops : List (CacheOp κ α)} (h : Follows m ops c) :
    Consistent m c where
  queue_nodup := h.ok.policy.keys_nodup
  queue_accessCount := h.ok.policy.mem_keys
  queue_cacheMap := h.ok.same
  cacheMap_nodup := h.ok.nodup
  position := fun _ _ hk => h.ok.policy.filter_node hk
  size := h.size ▸ h.ok.size

theorem Follows.dirtyEntry {m : Nat} {ops : List (CacheOp κ α)} (h : Follows m ops c) {k : κ}
    (hk : k ∈ c.keys) : c.dirtyEntry k = owed ops k := by
  obtain ⟨e, he⟩ := Option.isSome_iff_exists.mp ((c.mem_keys k).mp hk)
  rw [CacheMt.dirtyEntry, owed, he, h.last k e he]

section conforms

variable {m : Nat} {ops : List (CacheOp κ α)}

/-- A key is evicted by the write of a new one into a full cache, and no key was used less recently. -/
theorem Follows.evicted (h : Follows m ops c) {op : CacheOp κ α} {k : κ} (hk : k ∈ c.evicts op) :
    (∃ key data dirty, op = .write key data dirty ∧ key ∉ c.keys ∧ c.cacheMap.length = m) ∧
      k ∈ c.keys ∧ ∀ k' ∈ c.keys, k' ≠ k → age ops k' < age ops k := by
  obtain ⟨key, data, dirty, rfl⟩ := write_of_mem_evicts hk
  obtain ⟨-, -, he, -⟩ | ⟨he, -⟩ | ⟨ek, ks, hks, hkey, hfull, he, -⟩ :=
    evicts_write h.ok key data dirty
  · exact absurd (he ▸ hk) List.not_mem_nil
  · exact absurd (he ▸ hk) List.not_mem_nil
  · rw [he, List.mem_singleton] at hk
    subst hk
    have horder := h.order
    rw [hks] at horder
    have hmem := h.ok.same
    rw [hks] at hmem
    refine ⟨⟨key, data, dirty, rfl, hkey, hfull.trans h.size⟩, (hmem k).mp List.mem_cons_self, ?_⟩
    intro k' hk' hne
    refine List.rel_of_pairwise_cons horder ?_
    exact List.mem_of_ne_of_mem hne ((hmem k').mpr hk')

/-- `evict_callback` is called for the keys that are evicted with a dirty entry. -/
theorem Follows.callback (h : Follows m ops c) (op : CacheOp κ α) :
    (c.call op).1.callback.toList = (c.evicts op).filterMap (owed ops) := by
  cases op with
  | write key data dirty =>
    rw [CacheMt.call]
    obtain ⟨-, -, he, hw⟩ | ⟨he, hw⟩ | ⟨ek, ks, hks, -, -, he, hw⟩ :=
      evicts_write h.ok key data dirty
    · rw [he, hw]
      rfl
    · rw [he, hw]
      rfl
    · have hek : ek ∈ c.keys := (h.ok.same ek).mp (by rw [hks]; exact List.mem_cons_self)
      rw [he, hw, h.dirtyEntry hek]
      cases howed : owed ops ek with
      | none => simp [howed]
      | some e => simp [howed]
  | read key =>
    rw [evicts_read]
    rfl
  | free key => rfl
  | clear => rfl

/-- A cache with slots takes every write. -/
theorem Follows.write_taken (h : Follows m ops c) (hm : 0 < m) (key : κ) (data : α) (dirty : Bool) :
    (c.call (.write key data dirty)).1.ok = true ∧
      (c.call (.write key data dirty)).2.find key = some (data, dirty) := by
  rw [CacheMt.call]
  obtain ⟨h0, -⟩ | ⟨-, hw⟩ | ⟨ek, ks, -, -, -, -, hw⟩ := evicts_write h.ok key data dirty
  · exact absurd (h0.symm.trans h.size) (Nat.ne_of_lt hm)
  · rw [hw]
    exact ⟨rfl, (CacheMt.find_put _ key data dirty key).trans (if_pos rfl)⟩
  · rw [hw]
    exact ⟨rfl, (CacheMt.find_put _ key data dirty key).trans (if_pos rfl)⟩

/-- A cache without slots takes none. -/
theorem write_refused (m : Nat) (ops : List (CacheOp κ α)) (hm : m = 0) (key : κ) (data : α)
    (dirty : Bool) :
    ((calls m ops).call (.write key data dirty)).1.ok = false ∧
      ((calls m ops).call (.write key data dirty)).2.cacheMap = [] := by
  have h := follows_calls m ops
  have hnil : (calls m ops).cacheMap = [] :=
    List.eq_nil_of_length_eq_zero (Nat.le_zero.mp (hm ▸ h.consistent.size))
  obtain ⟨-, -, -, hw⟩ | ⟨-, hw⟩ | ⟨ek, ks, hks, -⟩ := evicts_write h.ok key data dirty
  · rw [CacheMt.call, hw]
    exact ⟨rfl, hnil⟩
  · have hsize := (h.write key data dirty).consistent.size
    rw [calls, CacheMt.call, hw, hm] at hsize
    exact absurd hsize (Nat.not_succ_le_zero _)
  · have hek : ek ∈ (calls m ops).keys :=
      (h.ok.same ek).mp (by rw [hks]; exact List.mem_cons_self)
    rw [CacheMt.keys, hnil] at hek
    cases hek

end conforms

/-- Under the LRU policy the cache is a bounded LRU map, whatever is called. -/
theorem cache_mt_lru (m : Nat) (ops : List (CacheOp κ α)) :
    Consistent m (calls m ops) ∧
    (∀ k, ((calls m ops).call (.read k)).1.data = kept m ops k) ∧
    (∀ op, ∀ k ∈ (calls m ops).evicts op,
      (∃ key data dirty, op = .write key data dirty ∧ key ∉ (calls m ops).keys ∧
        (calls m ops).cacheMap.length = m) ∧
      k ∈ (calls m ops).keys ∧
      ∀ k' ∈ (calls m ops).keys, k' ≠ k → age ops k' < age ops k) ∧
    (∀ op, ((calls m ops).call op).1.callback.toList =
      ((calls m ops).evicts op).filterMap (owed ops)) ∧
    (0 < m → ∀ key data dirty, ((calls m ops).call (.write key data dirty)).1.ok = true ∧
      ((calls m ops).call (.write key data dirty)).2.find key = some (data, dirty)) ∧
    (m = 0 → ∀ key data dirty, ((calls m ops).call (.write key data dirty)).1.ok = false ∧
      ((calls m ops).call (.write key data dirty)).2.cacheMap = []) := by
  have h := follows_calls m ops
  refine ⟨h.consistent, fun k => ?_, fun op k hk => h.evicted hk, h.callback, h.write_taken,
    write_refused m ops⟩
  rw [← h.kept]
  exact CacheMt.read_eq_find CacheMtLRU.policy (calls m ops) k

end Calls

end BlobSeer
