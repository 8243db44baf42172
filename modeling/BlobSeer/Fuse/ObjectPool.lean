import BlobSeer.Lib.Run
import Mathlib.Data.List.Nodup

/-!
# The pool of object handlers (`blob-fuse/object_pool.hpp`)

`object_pool_t` keeps its objects with a mark that says whether they are in use. `acquire` returns
the first object that is not marked, and leaves the mark as it is; only `release` writes a mark. So
nothing is ever marked (`PoolState.Inv`), and every `acquire` returns the same object.

A lock makes each call one step. What the requests hold is kept beside the pool, one entry for every
`acquire` that is not released yet.
-/

namespace BlobSeer

open Lib

/-- `object_pool_t`: `object_map` in the order of its iteration. Nothing is inserted after the
constructor, so the order does not change. -/
@[ext]
structure ObjectPool (ω : Type) where
  objectMap : List (ω × Bool) := []
  nodup : (objectMap.map (·.1)).Nodup := by exact List.nodup_nil

namespace ObjectPool

variable {ω : Type} [DecidableEq ω]

/-- `DEFAULT_POOL_SIZE`. -/
def defaultPoolSize : Nat := 16

/-- The objects of the pool. -/
def objects (p : ObjectPool ω) : List ω := p.objectMap.map (·.1)

/-- `object_map.insert` of an object that is not in use. -/
def insert (p : ObjectPool ω) (object : ω) : ObjectPool ω :=
  if h : object ∈ p.objects then p
  else
    { objectMap := p.objectMap ++ [(object, false)]
      nodup := by
        rw [List.map_append]
        exact p.nodup.append (List.nodup_singleton _) (List.disjoint_singleton.mpr h) }

/-- The constructor, in the order of insertion; `gen i` is what the `i`-th call of `gen` returns. -/
def make (gen : Nat → ω) (poolSize : Nat) : ObjectPool ω :=
  (List.range poolSize).foldl (fun p i => p.insert (gen i)) {}

/-- `acquire`: the first object that is not marked, or a null pointer. -/
def acquire (p : ObjectPool ω) : Option ω × ObjectPool ω :=
  ((p.objectMap.find? fun e => !e.2).map (·.1), p)

/-- `release`; `none` when it throws. -/
def release (p : ObjectPool ω) (object : ω) : Option (ObjectPool ω) :=
  if object ∈ p.objects then
    some
      { objectMap := p.objectMap.map fun e => if e.1 = object then (e.1, false) else e
        nodup := by
          have hkeys : (p.objectMap.map fun e => if e.1 = object then (e.1, false) else e).map
              (·.1) = p.objectMap.map (·.1) := by
            rw [List.map_map]
            refine List.map_congr_left fun e _ => ?_
            simp only [Function.comp]
            split <;> rfl
          rw [hkeys]
          exact p.nodup }
  else none

/-! ## A pool without marks -/

/-- No object is marked. -/
def Unmarked (p : ObjectPool ω) : Prop := ∀ e ∈ p.objectMap, e.2 = false

theorem Unmarked.insert {p : ObjectPool ω} (h : p.Unmarked) (object : ω) :
    (p.insert object).Unmarked := by
  unfold ObjectPool.insert
  split
  · exact h
  · intro e he
    rcases List.mem_append.mp he with he | he
    · exact h e he
    · rw [List.mem_singleton.mp he]

theorem make_unmarked (gen : Nat → ω) (poolSize : Nat) : (make gen poolSize).Unmarked := by
  induction poolSize with
  | zero => exact fun _ he => absurd he List.not_mem_nil
  | succ n ih =>
    rw [make, List.range_succ, List.foldl_append]
    exact ih.insert (gen n)

theorem insert_ne_nil (p : ObjectPool ω) (object : ω) : (p.insert object).objectMap ≠ [] := by
  unfold insert
  split
  · next h =>
    intro hnil
    rw [objects, hnil] at h
    cases h
  · exact List.append_ne_nil_of_right_ne_nil _ (List.cons_ne_nil _ _)

/-- Only a pool of size `0` is without objects. -/
theorem make_eq_nil_iff (gen : Nat → ω) (poolSize : Nat) :
    (make gen poolSize).objectMap = [] ↔ poolSize = 0 := by
  cases poolSize with
  | zero => exact iff_of_true rfl rfl
  | succ n =>
    refine iff_of_false ?_ (Nat.succ_ne_zero n)
    rw [make, List.range_succ, List.foldl_append]
    exact insert_ne_nil _ _

omit [DecidableEq ω] in
/-- Without marks the first object is returned, if there is one. -/
theorem Unmarked.acquire_eq {p : ObjectPool ω} (h : p.Unmarked) :
    p.acquire.1 = p.objects.head? := by
  unfold acquire objects
  cases hmap : p.objectMap with
  | nil => rfl
  | cons e l =>
    have he : e.2 = false := h e (hmap ▸ List.mem_cons_self)
    rw [List.find?_cons_of_pos (by rw [he]; rfl)]
    rfl

/-- A release writes the mark that is already there. -/
theorem Unmarked.release_eq {p : ObjectPool ω} (h : p.Unmarked) {object : ω}
    (hmem : object ∈ p.objects) : p.release object = some p := by
  have hmap : (p.objectMap.map fun e => if e.1 = object then (e.1, false) else e) =
      p.objectMap := by
    refine (List.map_congr_left fun e he => ?_).trans (List.map_id p.objectMap)
    split
    · exact Prod.ext rfl (h e he).symm
    · rfl
  rw [release, if_pos hmem, Option.some.injEq]
  exact ObjectPool.ext hmap

end ObjectPool

/-! ## Requests -/

/-- The pool, and which request holds which object. -/
structure PoolState (ρ ω : Type) where
  pool : ObjectPool ω
  held : List (ρ × ω) := []

/-- The calls of a request. -/
inductive PoolCall (ρ ω : Type) where
  | acquire (request : ρ)
  | release (request : ρ) (object : ω)

namespace PoolState

variable {ρ ω : Type} [DecidableEq ρ] [DecidableEq ω]

/-- One call; `none` when it throws. -/
def step (s : PoolState ρ ω) : PoolCall ρ ω → Option (PoolState ρ ω)
  | .acquire request =>
    some { pool := s.pool.acquire.2
           held := (s.pool.acquire.1.map fun object => (request, object)).toList ++ s.held }
  | .release request object =>
    (s.pool.release object).map fun pool => { pool, held := s.held.erase (request, object) }

/-- The objects in use. -/
def inUse (s : PoolState ρ ω) : List ω := s.held.map (·.2)

/-- A request releases only what it has acquired. -/
def Owned (s : PoolState ρ ω) : PoolCall ρ ω → Prop
  | .acquire _ => True
  | .release request object => (request, object) ∈ s.held

/-- Some more calls of `acquire` make it return the object. -/
def CanAcquire (s : PoolState ρ ω) (object : ω) : Prop :=
  ∃ (requests : List ρ) (t : PoolState ρ ω),
    Run step Owned s (requests.map .acquire) t ∧ t.pool.acquire.1 = some object

/-- What a pool promises for a call: an object that is in use is not returned, a null pointer is
returned only when all objects are in use, and an object that is released can be acquired again. -/
def Exclusive (s : PoolState ρ ω) : PoolCall ρ ω → Prop
  | .acquire _ =>
    (∀ object, s.pool.acquire.1 = some object → object ∉ s.inUse) ∧
    (s.pool.acquire.1 = none ↔ ∀ object ∈ s.pool.objects, object ∈ s.inUse)
  | .release request object =>
    ∀ t, s.step (.release request object) = some t → t.CanAcquire object

/-- Nothing is in use when `acquire` is called, or the pool has no objects. -/
def Alone (poolSize : Nat) (s : PoolState ρ ω) : PoolCall ρ ω → Prop
  | .acquire _ => poolSize = 0 ∨ s.held = []
  | .release _ _ => True

instance (s : PoolState ρ ω) (a : PoolCall ρ ω) : Decidable (s.Owned a) :=
  match a with
  | .acquire _ => inferInstanceAs (Decidable True)
  | .release request object => inferInstanceAs (Decidable ((request, object) ∈ s.held))

instance (poolSize : Nat) (s : PoolState ρ ω) (a : PoolCall ρ ω) :
    Decidable (s.Alone poolSize a) :=
  match a with
  | .acquire _ => inferInstanceAs (Decidable (poolSize = 0 ∨ s.held = []))
  | .release _ _ => inferInstanceAs (Decidable True)

/-- The pool is as it was constructed, and what is in use is the object that `acquire` returns. -/
structure Inv (p : ObjectPool ω) (s : PoolState ρ ω) : Prop where
  pool : s.pool = p
  inUse : ∀ object ∈ s.inUse, p.acquire.1 = some object

section Inv

variable {p : ObjectPool ω} (hp : p.Unmarked) {s t : PoolState ρ ω}

omit [DecidableEq ρ] [DecidableEq ω] in
theorem Inv.start (p : ObjectPool ω) : Inv p ({ pool := p } : PoolState ρ ω) :=
  ⟨rfl, fun _ h => absurd h List.not_mem_nil⟩

omit [DecidableEq ρ] [DecidableEq ω] in
/-- An object in use is one of the pool. -/
theorem Inv.mem_objects (h : Inv p s) {object : ω} (hmem : object ∈ s.inUse) :
    object ∈ p.objects := by
  have hfound := h.inUse object hmem
  rw [ObjectPool.acquire, Option.map_eq_some_iff] at hfound
  obtain ⟨e, he, rfl⟩ := hfound
  exact List.mem_map_of_mem (List.mem_of_find?_eq_some he)

include hp

/-- A call that is allowed does not throw, and leaves the pool as it is. -/
theorem Inv.step (h : Inv p s) {a : PoolCall ρ ω} (hown : s.Owned a) :
    ∃ t, s.step a = some t ∧ Inv p t := by
  cases a with
  | acquire request =>
    refine ⟨_, rfl, h.pool, ?_⟩
    intro object hmem
    rw [PoolState.inUse, List.map_append, List.mem_append] at hmem
    rcases hmem with hmem | hmem
    · obtain ⟨e, he, rfl⟩ := List.mem_map.mp hmem
      obtain ⟨object, hfound, rfl⟩ := Option.map_eq_some_iff.mp (Option.mem_toList.mp he)
      exact h.pool ▸ hfound
    · exact h.inUse object hmem
  | release request object =>
    have hmem : object ∈ s.inUse := List.mem_map_of_mem hown
    have hrelease := hp.release_eq (h.mem_objects hmem)
    refine ⟨{ pool := p, held := s.held.erase (request, object) }, ?_, rfl, ?_⟩
    · rw [PoolState.step, h.pool, hrelease]
      rfl
    · intro o ho
      exact h.inUse o (List.map_subset _ List.erase_subset ho)

theorem Inv.of_step (h : Inv p s) {a : PoolCall ρ ω} (hown : s.Owned a) (hs : s.step a = some t) :
    Inv p t := by
  obtain ⟨t', ht', h'⟩ := h.step hp hown
  rw [hs, Option.some.injEq] at ht'
  exact ht' ▸ h'

/-- A released object is the next one to be acquired. -/
theorem Inv.exclusive_release (h : Inv p s) {request : ρ} {object : ω}
    (hown : s.Owned (.release request object)) : s.Exclusive (.release request object) := by
  intro t ht
  refine ⟨[], t, .nil t, ?_⟩
  rw [(h.of_step hp hown ht).pool]
  exact h.inUse object (List.mem_map_of_mem hown)

/-- An `acquire` keeps the promise when nothing is in use, or when there is nothing to use. -/
theorem Inv.exclusive_acquire_iff (h : Inv p s) (request : ρ) :
    s.Exclusive (.acquire request) ↔ p.objectMap = [] ∨ s.held = [] := by
  have hacquire : s.pool.acquire.1 = p.objects.head? := h.pool ▸ hp.acquire_eq
  rw [Exclusive, hacquire, h.pool]
  constructor
  · rintro ⟨hfresh, -⟩
    refine or_iff_not_imp_right.mpr fun hheld => ?_
    obtain ⟨e, l, hl⟩ := List.exists_cons_of_ne_nil hheld
    have hmem : e.2 ∈ s.inUse := List.mem_map_of_mem (hl ▸ List.mem_cons_self)
    -- what is in use is what is acquired next
    exact absurd hmem (hfresh e.2 (hp.acquire_eq ▸ h.inUse e.2 hmem))
  · rintro (hnil | hheld)
    · have hobjects : p.objects = [] := List.map_eq_nil_iff.mpr hnil
      rw [hobjects]
      exact ⟨nofun, iff_of_true rfl fun _ ho => absurd ho List.not_mem_nil⟩
    · have hfree : s.inUse = [] := List.map_eq_nil_iff.mpr hheld
      rw [hfree, List.head?_eq_none_iff, List.eq_nil_iff_forall_not_mem]
      exact ⟨fun _ _ => List.not_mem_nil, forall_congr' fun _ =>
        forall_congr' fun _ => iff_of_false not_false List.not_mem_nil⟩

end Inv

/-- **A pool of any size keeps what it promises** in every call of a run, if and only if `acquire`
is never called while an object is in use, unless the pool has no objects. -/
theorem pool_exclusive_iff {gen : Nat → ω} {poolSize : Nat} {p : ObjectPool ω}
    (hp : p.objectMap.Perm (ObjectPool.make gen poolSize).objectMap)
    {calls : List (PoolCall ρ ω)} {t : PoolState ρ ω} :
    Run step (fun s a => s.Owned a ∧ s.Exclusive a) { pool := p } calls t ↔
      Run step (fun s a => s.Owned a ∧ s.Alone poolSize a) { pool := p } calls t := by
  have hunmarked : p.Unmarked := fun e he =>
    ObjectPool.make_unmarked gen poolSize e (hp.mem_iff.mp he)
  have hsize : p.objectMap = [] ↔ poolSize = 0 := by
    rw [← ObjectPool.make_eq_nil_iff gen, ← List.length_eq_zero_iff, hp.length_eq,
      List.length_eq_zero_iff]
  refine Run.guard_iff (P := Inv p) (fun h hok => h.of_step hunmarked hok.1) ?_ (Inv.start p)
  intro s t a h _
  refine and_congr_right fun hown => ?_
  cases a with
  | acquire request => rw [h.exclusive_acquire_iff hunmarked, Alone, hsize]
  | release request object => exact iff_of_true (h.exclusive_release hunmarked hown) trivial

/-- Two requests that take turns with a pool of two objects. -/
theorem pool_exclusive_turns :
    Run step (fun s a => s.Owned a ∧ s.Exclusive a) { pool := ObjectPool.make id 2 }
      [.acquire 0, .release 0 0, .acquire 1]
      { pool := ObjectPool.make id 2, held := [(1, 0)] } := by
  have hrun : Run step (fun (s : PoolState Nat Nat) a => s.Owned a ∧ s.Alone 2 a)
      { pool := ObjectPool.make id 2 } [.acquire 0, .release 0 0, .acquire 1]
      { pool := ObjectPool.make id 2, held := [(1, 0)] } :=
    .cons (by decide) rfl (.cons (by decide) rfl (.single (by decide) rfl))
  exact (pool_exclusive_iff (List.Perm.refl _)).mpr hrun

/-- Two open files share a handler, although the other fifteen are free. -/
theorem pool_shared :
    Run step Owned { pool := ObjectPool.make id ObjectPool.defaultPoolSize }
      [.acquire 0, .acquire 1]
      { pool := ObjectPool.make id ObjectPool.defaultPoolSize, held := [(1, 0), (0, 0)] } ∧
    ¬ Run step (fun (s : PoolState Nat Nat) a => s.Owned a ∧ s.Exclusive a)
      { pool := ObjectPool.make id ObjectPool.defaultPoolSize } [.acquire 0, .acquire 1]
      { pool := ObjectPool.make id ObjectPool.defaultPoolSize, held := [(1, 0), (0, 0)] } := by
  refine ⟨.cons trivial rfl (.single trivial rfl), ?_⟩
  rintro (_ | ⟨-, ⟨⟩, _ | ⟨⟨-, hfresh, -⟩, -, -⟩⟩)
  exact hfresh 0 rfl (by decide)

end PoolState

end BlobSeer
