import BlobSeer.Common.CacheLru
import BlobSeer.Dht.Readable

/-!
# The DHT of a client (`common/cached_dht.hpp`)

A client reaches the DHT through a cache of what it has put itself. A get that finds its key there is
answered at once, and any other one goes to `simple_dht`; what it finds does not go into the cache. A
put goes into the cache before any gateway has it, and stays there when it fails. Keys are write-once,
so none of this shows: every get of a key that is cached, or whose put was acknowledged before, is
answered once, with the value of the key (`cached_get_answered`).
-/

namespace BlobSeer

open Lib
open Persistency (find)

/-- Where a get is answered from: the cache, or a get of `simple_dht`, given by its number. -/
inductive GetSource where
  | hit (value : Buffer)
  | miss (n : Nat)
deriving DecidableEq, Repr

/-- A call of `cached_dht::get`, with the puts that had been acknowledged by then. -/
structure CachedGet extends GetCall where
  source : GetSource
deriving DecidableEq, Repr

/-- `cached_dht` over `simple_dht`, with the calls of `get`. -/
structure CachedDht (σ : Type) where
  cache : CacheMt Buffer Buffer (CacheMtLRU Buffer)
  world : DhtWorld σ
  gets : List CachedGet := []

/-- Calls of the methods, and what else happens to `simple_dht`. -/
inductive CachedAction (σ : Type) where
  | put (key value : Buffer)
  | get (key : Buffer)
  | remove (key : Buffer)
  | dht (a : DhtAction σ)

namespace CachedDht

variable {σ : Type}

/-- `cached_dht::get`. -/
def get (s : CachedDht σ) (key : Buffer) : CachedDht σ :=
  let acked := s.world.dht.ackedPuts
  match s.cache.read CacheMtLRU.policy key with
  | (some value, cache) => { s with cache := cache, gets := s.gets ++ [⟨⟨key, acked⟩, .hit value⟩] }
  | (none, cache) => { s with
      cache := cache
      world := { s.world with dht := s.world.dht.get key }
      gets := s.gets ++ [⟨⟨key, acked⟩, .miss s.world.dht.gets.length⟩] }

/-- What `getvalue_callback` of a get has been called with. -/
def answers (s : CachedDht σ) (g : CachedGet) : List Buffer :=
  match g.source with
  | .hit value => [value]
  | .miss n => (s.world.dht.getResults.filter fun e => e.1 = n).map Prod.snd

variable [Persistency σ]

/-- `simple_dht::remove` is not implemented and changes nothing. -/
def step (s : CachedDht σ) : CachedAction σ → Option (CachedDht σ)
  | .put key value => some { s with
      cache := (s.cache.write CacheMtLRU.policy key value true).2.2
      world := { s.world with dht := s.world.dht.put key value } }
  | .get key => some (s.get key)
  | .remove key => some { s with cache := s.cache.free CacheMtLRU.policy key }
  | .dht (.put _ _) | .dht (.get _) => none
  | .dht a => (s.world.step a).map fun w => { s with world := w }

/-- The guard of `Readable`, for what reaches `simple_dht`. -/
def Readable (val : Buffer → Buffer) (s : CachedDht σ) : CachedAction σ → Prop
  | .put key value => s.world.Readable val (.put key value)
  | .get _ | .remove _ => True
  | .dht a => s.world.Readable val a

noncomputable instance (val : Buffer → Buffer) (s : CachedDht σ) (a : CachedAction σ) :
    Decidable (s.Readable val a) :=
  match a with
  | .put key value => inferInstanceAs (Decidable (s.world.Readable val (.put key value)))
  | .get _ | .remove _ => .isTrue trivial
  | .dht a => inferInstanceAs (Decidable (s.world.Readable val a))

/-! ## What the cache holds -/

variable {val : Buffer → Buffer} {s t : CachedDht σ}

/-- The cache holds the values of its keys, and every get that has missed is one of `simple_dht`. -/
structure Inv (val : Buffer → Buffer) (s : CachedDht σ) : Prop where
  flow : s.world.Flow
  putFlow : s.world.PutFlow
  holds : s.world.Holds val
  cached : ∀ k e, s.cache.find k = some e → e.1 = val k
  gets : ∀ g ∈ s.gets, match g.source with
    | .hit value => value = val g.key
    | .miss n => s.world.dht.gets[n]? = some g.toGetCall

/-- Only calls of `get` make new gets. -/
theorem gets_step {w w' : DhtWorld σ} {a : DhtAction σ} (ha : ∀ key, a ≠ .get key)
    (hstep : w.step a = some w') : w'.dht.gets = w.dht.gets := by
  cases a with
  | put key value =>
    cases hstep
    rfl
  | get key => exact absurd rfl (ha key)
  | dispatch =>
    obtain ⟨-, -, rfl⟩ := DhtWorld.step_dispatch hstep
    rfl
  | serve i lost =>
    obtain ⟨rpc, -, -, rfl⟩ := DhtWorld.step_serve hstep
    unfold DhtWorld.serve
    dsimp only
    split
    · rfl
    · rfl
  | deliver i =>
    obtain ⟨rpc, status, result, -, -, -, rfl⟩ := DhtWorld.step_deliver hstep
    rfl
  | fail i code result =>
    obtain ⟨rpc, -, -, rfl⟩ := DhtWorld.step_fail hstep
    rfl
  | call =>
    obtain ⟨p, error, calls, -, rfl⟩ | ⟨x, error, v, calls, -, rfl⟩ := DhtWorld.step_call hstep
    · rfl
    · show (SimpleDht.handleGetCallback _ _ _ _).gets = _
      unfold SimpleDht.handleGetCallback
      split
      · rfl
      · split
        · rfl
        · rfl
  | change g store =>
    cases hstep
    rfl

namespace Inv

theorem get (h : Inv val s) (key : Buffer) : Inv val (s.get key) := by
  have hcached : ∀ k e, (s.cache.read CacheMtLRU.policy key).2.find k = some e → e.1 = val k := by
    intro k e he
    rw [CacheMt.find_read] at he
    exact h.cached k e he
  have hread := CacheMt.read_eq_find CacheMtLRU.policy s.cache key
  unfold CachedDht.get
  cases hcase : s.cache.read CacheMtLRU.policy key with
  | mk value cache =>
    rw [hcase] at hcached hread
    cases value with
    | some value =>
      refine ⟨h.flow, h.putFlow, h.holds, hcached, fun g hg => ?_⟩
      rcases List.mem_append.mp hg with hg | hg
      · exact h.gets g hg
      · cases List.mem_singleton.mp hg
        obtain ⟨e, he, rfl⟩ := Option.map_eq_some_iff.mp hread.symm
        exact h.cached key e he
    | none =>
      have hstep : s.world.step (.get key) = some { s.world with dht := s.world.dht.get key } := rfl
      have hok : s.world.Readable val (.get key) := ⟨trivial, trivial⟩
      refine ⟨h.flow.step hok.1.transportErrors hstep, h.putFlow.step h.flow hstep,
        h.holds.step h.flow h.putFlow hok.1 hok.2 hstep, hcached, fun g hg => ?_⟩
      rcases List.mem_append.mp hg with hg | hg
      · have hold := h.gets g hg
        cases hsource : g.source with
        | hit value =>
          rw [hsource] at hold
          exact hold
        | miss n =>
          rw [hsource] at hold
          exact (List.getElem?_append_left (List.getElem?_eq_some_iff.mp hold).1).trans hold
      · cases List.mem_singleton.mp hg
        exact List.getElem?_concat_length

/-- What happens to `simple_dht` keeps the gets that were called. -/
theorem dht (h : Inv val s) {a : DhtAction σ} {w : DhtWorld σ} (hok : s.world.Readable val a)
    (hstep : s.world.step a = some w) (hgets : w.dht.gets = s.world.dht.gets)
    {cache : CacheMt Buffer Buffer (CacheMtLRU Buffer)}
    (hcached : ∀ k e, cache.find k = some e → e.1 = val k) :
    Inv val { s with world := w, cache := cache } := by
  refine ⟨h.flow.step hok.1.transportErrors hstep, h.putFlow.step h.flow hstep,
    h.holds.step h.flow h.putFlow hok.1 hok.2 hstep, hcached, fun g hg => ?_⟩
  have hold := h.gets g hg
  cases hsource : g.source with
  | hit value =>
    rw [hsource] at hold
    exact hold
  | miss n =>
    rw [hsource] at hold
    show w.dht.gets[n]? = _
    rw [hgets]
    exact hold

theorem step (h : Inv val s) {a : CachedAction σ} (hok : s.Readable val a)
    (hstep : s.step a = some t) : Inv val t := by
  have hdht : ∀ {a : DhtAction σ}, (∀ key, a ≠ .get key) → s.world.Readable val a →
      ((s.world.step a).map fun w => { s with world := w }) = some t → Inv val t := by
    intro a ha hok hstep
    obtain ⟨w, hw, rfl⟩ := Option.map_eq_some_iff.mp hstep
    exact h.dht hok hw (gets_step ha hw) h.cached
  cases a with
  | put key value =>
    cases hstep
    refine h.dht hok rfl rfl fun k e he => ?_
    obtain ⟨rfl, hdata⟩ | ⟨-, hold⟩ := s.cache.find_write CacheMtLRU.policy he
    · exact hdata.trans hok.1
    · exact h.cached k e hold
  | get key =>
    cases hstep
    exact h.get key
  | remove key =>
    cases hstep
    exact ⟨h.flow, h.putFlow, h.holds, fun k e he => h.cached k e (s.cache.find_of_erase he).2, h.gets⟩
  | dht a =>
    cases a with
    | put key value => cases hstep
    | get key => cases hstep
    | dispatch => exact hdht (by rintro key ⟨⟩) hok hstep
    | serve i lost => exact hdht (by rintro key ⟨⟩) hok hstep
    | deliver i => exact hdht (by rintro key ⟨⟩) hok hstep
    | fail i code result => exact hdht (by rintro key ⟨⟩) hok hstep
    | call => exact hdht (by rintro key ⟨⟩) hok hstep
    | change g store => exact hdht (by rintro key ⟨⟩) hok hstep

/-- What a get of an acknowledged put is called back with. -/
theorem answer_of_acked (h : Inv val s) {n p : Nat} {c : GetCall} (hget : s.world.dht.gets[n]? = some c)
    (hp : p ∈ c.acked) (hfor : s.world.dht.PutFor p c.key) {v : Buffer}
    (hv : (n, v) ∈ s.world.dht.getResults) : v = val c.key := by
  obtain ⟨key, ⟨c', hc', rfl⟩, hfin, heq⟩ := h.flow.results (n, v) hv
  rw [hget, Option.some.injEq] at hc'
  subst hc'
  exact heq.trans (h.holds.firstAnswer_eq h.flow h.putFlow hget hp hfor hfin)

end Inv

/-- A client whose cache is empty, before any calls. -/
structure Initial (val : Buffer → Buffer) (s : CachedDht σ) : Prop where
  world : s.world.Initial
  stores : ∀ g k v, find (s.world.stores g) k = some v → v = val k
  cache : s.cache.cacheMap = []
  gets : s.gets = []

theorem Initial.inv (h : Initial val s) : Inv val s := by
  refine ⟨.initial h.world, .initial h.world, .initial h.world h.stores, fun k e he => ?_, ?_⟩
  · rw [CacheMt.find, h.cache] at he
    cases he
  · rw [h.gets]
    exact List.forall_mem_nil _

end CachedDht

open CachedDht

/-- **Gets through the cache.** Whatever the cache has evicted, a get that it answers and a get of a key
whose put was acknowledged before are called back with the value of their key only. When `wait` has
returned, every get was called back once. -/
theorem cached_get_answered {σ : Type} [Persistency σ] {val : Buffer → Buffer} {s t : CachedDht σ}
    (hinit : s.Initial val) {as : List (CachedAction σ)}
    (hrun : Run CachedDht.step (CachedDht.Readable val) s as t) :
    (∀ g ∈ t.gets, (∃ v, g.source = .hit v) ∨ (∃ p ∈ g.acked, t.world.dht.PutFor p g.key) →
      ∀ v ∈ t.answers g, v = val g.key) ∧
    (t.world.Idle → ∀ g ∈ t.gets, (t.answers g).length = 1) := by
  have h : Inv val t := hrun.inv (fun hs hok hstep => hs.step hok hstep) hinit.inv
  refine ⟨fun g hg hknown v hv => ?_, fun hidle g hg => ?_⟩
  · have hsource := h.gets g hg
    unfold answers at hv
    cases hcase : g.source with
    | hit value =>
      rw [hcase] at hsource hv
      exact (List.mem_singleton.mp hv).trans hsource
    | miss n =>
      rw [hcase] at hsource hv
      obtain ⟨e, he, rfl⟩ := List.mem_map.mp hv
      obtain ⟨he, hn⟩ := List.mem_filter.mp he
      obtain ⟨v, hhit⟩ | ⟨p, hp, hfor⟩ := hknown
      · rw [hcase] at hhit
        cases hhit
      · have hn : e.1 = n := of_decide_eq_true hn
        exact h.answer_of_acked hsource hp hfor (hn ▸ he)
  · have hsource := h.gets g hg
    unfold answers
    cases hcase : g.source with
    | hit value => rfl
    | miss n =>
      rw [hcase] at hsource
      dsimp only
      rw [(h.flow.get_result hidle hsource).2]
      rfl

/-- A client with a cache of one slot. -/
def oneSlot : CachedDht NullBwMap where
  cache := { policy := {}, mSize := 1 }
  world := oneGateway

/-- The first get finds its key in the cache, although no gateway has it yet; then another put evicts
it, and the second get has to ask. -/
def putTwiceGetTwice : List (CachedAction NullBwMap) :=
  [.put [0] [7], .get [0], .dht .dispatch, .dht (.serve 0 false), .dht (.deliver 0), .dht .call,
    .put [1] [7], .get [0], .dht .dispatch, .dht (.serve 0 false), .dht (.deliver 0), .dht .call,
    .dht (.serve 0 false), .dht (.deliver 0), .dht .call]

theorem cached_get_answered_twice :
    ∃ t, Run CachedDht.step (CachedDht.Readable fun _ => [7]) oneSlot putTwiceGetTwice t ∧
      t.gets.map CachedGet.source = [.hit [7], .miss 0] ∧ ∀ g ∈ t.gets, t.answers g = [[7]] := by
  have hinit : oneSlot.Initial fun _ => [7] :=
    ⟨⟨by decide, by decide, by decide, rfl, rfl, rfl, rfl, fun _ => rfl, fun _ => rfl⟩,
      by rintro g k v ⟨⟩, rfl, rfl⟩
  have hrun : Run CachedDht.step (CachedDht.Readable fun _ => [7]) oneSlot putTwiceGetTwice _ :=
    Run.of_isSome oneSlot (by decide +kernel)
  generalize ht : (exec CachedDht.step (CachedDht.Readable fun _ => [7]) oneSlot putTwiceGetTwice).getD
    oneSlot = t at hrun
  have hsources : t.gets = [⟨⟨[0], []⟩, .hit [7]⟩, ⟨⟨[0], [0]⟩, .miss 0⟩] := by
    rw [← ht]
    decide +kernel
  have hidle : t.world.Idle := by
    rw [← ht]
    decide +kernel
  have hput : t.world.dht.PutFor 0 [0] := by
    rw [← ht]
    decide +kernel
  obtain ⟨hvalue, hcount⟩ := cached_get_answered hinit hrun
  refine ⟨t, hrun, by rw [hsources]; rfl, fun g hg => ?_⟩
  obtain ⟨v, hv⟩ := List.length_eq_one_iff.mp (hcount hidle g hg)
  have hknown : (∃ v, g.source = .hit v) ∨ ∃ p ∈ g.acked, t.world.dht.PutFor p g.key := by
    rw [hsources] at hg
    rcases List.mem_cons.mp hg with rfl | hg
    · exact .inl ⟨_, rfl⟩
    · cases List.mem_singleton.mp hg
      exact .inr ⟨0, List.mem_cons_self, hput⟩
  rw [hv, hvalue g hg hknown v (hv ▸ List.mem_singleton_self v)]

end BlobSeer
