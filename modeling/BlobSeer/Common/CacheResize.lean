import BlobSeer.Common.CacheLru

/-!
# Resizing the cache (`cache_mt::resize`)

`resize` has a branch for a larger limit and a loop that evicts for a smaller one. The loop compares
the number of entries with the old limit, and the new one is not stored. A cache never holds more
entries than its limit (`CacheMt.Ok`), so the loop does nothing (`resizeAll_eq`): a cache can grow,
but not shrink.
-/

namespace BlobSeer

namespace CacheMt

variable {κ α σ : Type} [DecidableEq κ]

/-- The loop of `cache_mt::resize`: what it returns, and the calls of `evict_callback`; `none` when
`fuel` rounds are not enough. -/
def resizeLoop (P : CachePolicy κ σ) :
    Nat → CacheMt κ α σ → Option (Bool × List (κ × α) × CacheMt κ α σ)
  | 0, _ => none
  | fuel + 1, c =>
    if c.cacheMap.length > c.mSize then
      match P.evictEntry c.policy with
      | none => some (false, [], c)
      | some (k, policy) =>
        match resizeLoop P fuel { c.erase k with policy := policy } with
        | none => none
        | some (ok, callbacks, c') => some (ok, (c.dirtyEntry k).toList ++ callbacks, c')
    else some (true, [], c)

/-- `cache_mt::resize`. Each round of the loop takes an entry out of the map, as long as the policy
knows what is in it. -/
def resizeAll (P : CachePolicy κ σ) (c : CacheMt κ α σ) (msize : Nat) :
    Option (Bool × List (κ × α) × CacheMt κ α σ) :=
  if c.mSize < msize then some (true, [], { c with mSize := msize })
  else resizeLoop P (c.cacheMap.length + 1) c

section Resize

omit [DecidableEq κ]

theorem mSize_resize (c : CacheMt κ α σ) (msize : Nat) :
    (c.resize msize).mSize = max c.mSize msize := by
  unfold resize
  split
  · next hlt => exact (Nat.max_eq_right (Nat.le_of_lt hlt)).symm
  · next hge => exact (Nat.max_eq_left (Nat.not_lt.mp hge)).symm

theorem cacheMap_resize (c : CacheMt κ α σ) (msize : Nat) :
    (c.resize msize).cacheMap = c.cacheMap := by
  unfold resize
  split <;> rfl

theorem Ok.resize {c : CacheMt κ α (CacheMtLRU κ)} (h : c.Ok) (msize : Nat) :
    (c.resize msize).Ok := by
  unfold CacheMt.resize
  split
  · next hlt => exact ⟨h.policy, h.nodup, h.same, Nat.le_trans h.size (Nat.le_of_lt hlt)⟩
  · exact h

end Resize

/-- A cache within its limit evicts nothing, whatever the new limit. -/
theorem resizeAll_eq (P : CachePolicy κ σ) {c : CacheMt κ α σ} (h : c.cacheMap.length ≤ c.mSize)
    (msize : Nat) : c.resizeAll P msize = some (true, [], c.resize msize) := by
  unfold resizeAll resize
  split
  · rfl
  · rw [resizeLoop, if_neg (Nat.not_lt.mpr h)]

end CacheMt

/-! ## Runs with resizing -/

/-- The calls on a cache, `resize` included. -/
inductive CacheStep (κ α : Type) where
  | call (op : CacheOp κ α)
  | resize (msize : Nat)

section Steps

variable {κ α : Type}

/-- The call that may use a key. -/
def CacheStep.op : CacheStep κ α → Option (CacheOp κ α)
  | .call op => some op
  | .resize _ => none

variable [DecidableEq κ]

/-- The cache after a step; `none` when it does not end. -/
def CacheMt.step (c : CacheMt κ α (CacheMtLRU κ)) :
    CacheStep κ α → Option (CacheMt κ α (CacheMtLRU κ))
  | .call op => some (c.call op).2
  | .resize msize => (c.resizeAll CacheMtLRU.policy msize).map (·.2.2)

/-- A new cache with `m` slots after a list of steps, the last step first. -/
def cacheAfter (m : Nat) : List (CacheStep κ α) → Option (CacheMt κ α (CacheMtLRU κ))
  | [] => some { policy := {}, mSize := m }
  | s :: steps => (cacheAfter m steps).bind fun c => c.step s

variable {c : CacheMt κ α (CacheMtLRU κ)}

theorem CacheMt.Ok.call (h : c.Ok) (op : CacheOp κ α) : (c.call op).2.Ok := by
  cases op with
  | write key data dirty => exact h.write key data dirty
  | read key => exact h.read key
  | free key => exact h.free key
  | clear => exact .clear c

/-- Every step ends, and keeps the containers consistent. -/
theorem CacheMt.Ok.step (h : c.Ok) (s : CacheStep κ α) : ∃ c', c.step s = some c' ∧ c'.Ok := by
  cases s with
  | call op => exact ⟨_, rfl, h.call op⟩
  | resize msize =>
    refine ⟨_, ?_, h.resize msize⟩
    rw [CacheMt.step, resizeAll_eq _ h.size]
    rfl

/-- Every list of steps leads to a cache with consistent containers. -/
theorem cacheAfter_ok (m : Nat) (steps : List (CacheStep κ α)) :
    ∃ c, cacheAfter m steps = some c ∧ c.Ok := by
  induction steps with
  | nil => exact ⟨_, rfl, .empty 0, List.nodup_nil, fun _ => Iff.rfl, Nat.zero_le _⟩
  | cons s steps ih =>
    obtain ⟨c, hc, hok⟩ := ih
    obtain ⟨c', hc', hok'⟩ := hok.step s
    exact ⟨c', by rw [cacheAfter, hc, Option.bind_some, hc'], hok'⟩

/-- What a resize that returns `true` promises: the new limit is in force, the entries that are left
are the ones used last, and `evict_callback` has been called for every dirty entry that is gone. -/
structure TakesEffect (steps : List (CacheStep κ α)) (c : CacheMt κ α (CacheMtLRU κ)) (msize : Nat)
    (callbacks : List (κ × α)) (c' : CacheMt κ α (CacheMtLRU κ)) : Prop where
  max_size : c'.mSize = msize
  size_le : c'.cacheMap.length ≤ msize
  size : c'.cacheMap.length = min c.cacheMap.length msize
  values : ∀ k ∈ c'.keys, c'.find k = c.find k
  recent : ∀ k ∈ c'.keys, ∀ k' ∈ c.keys, k' ∉ c'.keys →
    age (steps.filterMap CacheStep.op) k < age (steps.filterMap CacheStep.op) k'
  callbacks : callbacks.Perm
    ((c.cacheMap.filter fun e => e.2.2 && decide (e.1 ∉ c'.keys)).map fun e => (e.1, e.2.1))

/-- A resize to a limit that is not below the old one. -/
theorem CacheMt.Ok.takesEffect (h : c.Ok) (steps : List (CacheStep κ α)) {msize : Nat}
    (hle : c.mSize ≤ msize) : TakesEffect steps c msize [] (c.resize msize) := by
  have hmap := c.cacheMap_resize msize
  have hkeys : (c.resize msize).keys = c.keys := by
    rw [CacheMt.keys, hmap, CacheMt.keys]
  have hsize : c.cacheMap.length ≤ msize := Nat.le_trans h.size hle
  refine ⟨?_, ?_, ?_, ?_, ?_, ?_⟩
  · rw [c.mSize_resize, Nat.max_eq_right hle]
  · rw [hmap]
    exact hsize
  · rw [hmap, Nat.min_eq_left hsize]
  · intro k _
    rw [CacheMt.find, hmap, CacheMt.find]
  · intro k _ k' hk' hgone
    exact absurd (hkeys ▸ hk') hgone
  · have hnil :
        (c.cacheMap.filter fun e => e.2.2 && decide (e.1 ∉ (c.resize msize).keys)) = [] := by
      refine List.filter_eq_nil_iff.mpr ?_
      intro e he
      have hmem : e.1 ∈ c.keys := List.mem_map_of_mem he
      simp [hkeys, hmem]
    rw [hnil]
    exact List.Perm.refl _

/-- **Resizing takes effect**, from every reachable cache, if and only if the new limit is not below
the old one. -/
theorem resize_takes_effect_iff {m : Nat} {steps : List (CacheStep κ α)}
    (hc : cacheAfter m steps = some c) (msize : Nat) :
    (∀ callbacks c', c.resizeAll CacheMtLRU.policy msize = some (true, callbacks, c') →
      TakesEffect steps c msize callbacks c') ↔ c.mSize ≤ msize := by
  obtain ⟨_, hc', hok⟩ := cacheAfter_ok m steps
  rw [hc, Option.some.injEq] at hc'
  subst hc'
  rw [CacheMt.resizeAll_eq CacheMtLRU.policy hok.size]
  constructor
  · intro h
    have hmax := (h [] (c.resize msize) rfl).max_size
    rw [c.mSize_resize] at hmax
    exact hmax ▸ Nat.le_max_left c.mSize msize
  · rintro hle callbacks c' ⟨⟩
    exact hok.takesEffect steps hle

/-- A cache of two slots with two dirty entries that grows to three. -/
theorem resize_takes_effect_grow : ∃ c : CacheMt Nat Nat (CacheMtLRU Nat),
    cacheAfter 2 [.call (.write 1 10 true), .call (.write 0 20 true)] = some c ∧
    ∀ callbacks c', c.resizeAll CacheMtLRU.policy 3 = some (true, callbacks, c') →
      TakesEffect [.call (.write 1 10 true), .call (.write 0 20 true)] c 3 callbacks c' :=
  ⟨_, rfl, (resize_takes_effect_iff rfl 3).mpr (by decide)⟩

/-- The same cache keeps both entries and its limit when it is to shrink to one slot. -/
theorem resize_not_shrinking : ∃ c : CacheMt Nat Nat (CacheMtLRU Nat),
    cacheAfter 2 [.call (.write 1 10 true), .call (.write 0 20 true)] = some c ∧
    c.resizeAll CacheMtLRU.policy 1 = some (true, [], c) ∧ c.mSize = 2 ∧ c.keys = [1, 0] ∧
    ¬ ∀ callbacks c', c.resizeAll CacheMtLRU.policy 1 = some (true, callbacks, c') →
      TakesEffect [.call (.write 1 10 true), .call (.write 0 20 true)] c 1 callbacks c' := by
  refine ⟨_, rfl, rfl, rfl, rfl, ?_⟩
  intro h
  exact absurd (h [] _ rfl).max_size (by decide)

end Steps

end BlobSeer
