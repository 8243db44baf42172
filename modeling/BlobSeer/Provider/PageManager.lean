import BlobSeer.Common.CacheMt
import BlobSeer.Structures

/-!
# Providers (`provider/page_manager.hpp`, `provider/null_bw_map.cpp`)

A provider, or a gateway of the DHT, stores buffers under keys. `page_manager` handles its RPCs on
top of a persistency layer: a store that may refuse a write and otherwise behaves like a map. The
listener that `exec_hooks` calls only watches what is written and read; it is in
`BlobSeer.Provider.PmgrListener`.
-/

namespace BlobSeer

/-! `rpcstatus`; the status of an RPC may also be the code of a transport error. -/

namespace RpcStatus

def ok : Int := 0

def earg : Int := 7

def eres : Int := 28

def eobj : Int := 6

end RpcStatus

/-! ## Persistency layers -/

/-- What `page_manager` asks of its `Persistency`, and what it may rely on. -/
class Persistency (σ : Type) where
  read : σ → Buffer → Option Buffer × σ
  write : σ → Buffer → Buffer → Bool × σ
  read_read : ∀ s key k, (read (read s key).2 k).1 = (read s k).1
  read_write : ∀ s key value, (write s key value).1 = true →
    ∀ k, (read (write s key value).2 k).1 = if k = key then some value else (read s k).1
  read_write_failed : ∀ s key value, (write s key value).1 = false →
    ∀ k, (read (write s key value).2 k).1 = (read s k).1

/-- What is stored under a key. -/
def Persistency.find {σ : Type} [Persistency σ] (s : σ) (key : Buffer) : Option Buffer :=
  (read s key).1

/-- `null_bw_map`: a map in memory, of a bounded total size. -/
structure NullBwMap where
  cache : CacheMt Buffer Buffer Unit
  spaceLeft : Nat
  length_le : cache.cacheMap.length ≤ cache.mSize

namespace NullBwMap

/-- The constructor. -/
def new (cacheSize m : Nat) : NullBwMap where
  cache := { policy := (), mSize := cacheSize }
  spaceLeft := m
  length_le := Nat.zero_le _

/-- The cache with room for one more entry. -/
def roomy (m : NullBwMap) : CacheMt Buffer Buffer Unit :=
  if m.cache.mSize = m.cache.cacheMap.length then m.cache.resize (m.cache.cacheMap.length + 1)
  else m.cache

theorem roomy_spec (m : NullBwMap) :
    m.roomy.cacheMap = m.cache.cacheMap ∧ m.roomy.cacheMap.length < m.roomy.mSize := by
  have hle := m.length_le
  unfold roomy
  split
  · rw [CacheMt.resize, if_pos (by omega)]
    exact ⟨rfl, Nat.lt_succ_self _⟩
  · exact ⟨rfl, by omega⟩

/-- `null_bw_map::read`. -/
def read (m : NullBwMap) (key : Buffer) : Option Buffer × NullBwMap :=
  ((m.cache.read (cacheMtNone Buffer) key).1,
    { m with
      cache := (m.cache.read (cacheMtNone Buffer) key).2
      length_le := by
        unfold CacheMt.read
        split <;> exact m.length_le })

/-- `null_bw_map::write`. -/
def write (m : NullBwMap) (key value : Buffer) : Bool × NullBwMap :=
  if value.length > m.spaceLeft then (false, m)
  else (true, {
    cache := (m.roomy.write (cacheMtNone Buffer) key value true).2.2
    spaceLeft := m.spaceLeft - value.length
    length_le := by
      have hlt := m.roomy_spec.2
      rw [CacheMt.write_of_lt _ _ key value true hlt]
      exact Nat.lt_of_le_of_lt (m.roomy.length_erase_le key) hlt })

theorem read_fst (m : NullBwMap) (key : Buffer) :
    (m.read key).1 = (m.cache.find key).map Prod.fst :=
  CacheMt.read_eq_find _ _ _

instance : Persistency NullBwMap where
  read := read
  write := write
  read_read m key k := by
    rw [read_fst, read_fst]
    exact congrArg _ (CacheMt.find_read _ _ _ _)
  read_write m key value h k := by
    have hspace : ¬ value.length > m.spaceLeft := by
      intro hs
      rw [write, if_pos hs] at h
      cases h
    obtain ⟨hmap, hlt⟩ := m.roomy_spec
    rw [read_fst, read_fst, write, if_neg hspace]
    refine (congrArg _ (CacheMt.find_write_of_lt _ _ key value true hlt k)).trans ?_
    rw [apply_ite (Option.map Prod.fst), CacheMt.find, hmap]
    rfl
  read_write_failed m key value h k := by
    by_cases hs : value.length > m.spaceLeft
    · rw [write, if_pos hs]
    · rw [write, if_neg hs] at h
      cases h

end NullBwMap

/-! ## The RPCs of `page_manager` -/

namespace PageManager

open Persistency (find)

variable {σ : Type} [Persistency σ]

/-- The loop of `write_page`. -/
def writePairs : List Buffer → σ → Int × σ
  | key :: value :: params, s =>
    match Persistency.write s key value with
    | (true, s) => writePairs params s
    | (false, s) => (RpcStatus.eres, s)
  | _, s => (RpcStatus.ok, s)

/-- `write_page`. -/
def writePage (params : List Buffer) (s : σ) : Int × σ :=
  if params.length % 2 ≠ 0 ∨ params.length < 2 then (RpcStatus.ok, s) else writePairs params s

/-- The loop of `read_page`: the results, and how many keys were found. -/
def readKeys : List Buffer → σ → List Buffer × Nat × σ
  | [], s => ([], 0, s)
  | key :: params, s =>
    let (data, s) := Persistency.read s key
    let (result, ok, s) := readKeys params s
    match data with
    | none => ([] :: result, ok, s)
    | some data => (data :: result, ok + 1, s)

/-- `read_page`. -/
def readPage (params : List Buffer) (s : σ) : Int × List Buffer × σ :=
  if params.length < 1 then (RpcStatus.earg, [], s)
  else
    let (result, ok, s) := readKeys params s
    (if ok = params.length then RpcStatus.ok else RpcStatus.eobj, result, s)

/-- The parameters of a write of several pairs. -/
def flatPairs (pairs : List (Buffer × Buffer)) : List Buffer := pairs.flatMap fun e => [e.1, e.2]

theorem flatPairs_cons (e : Buffer × Buffer) (pairs : List (Buffer × Buffer)) :
    flatPairs (e :: pairs) = e.1 :: e.2 :: flatPairs pairs :=
  rfl

theorem length_flatPairs (pairs : List (Buffer × Buffer)) :
    (flatPairs pairs).length = 2 * pairs.length := by
  induction pairs with
  | nil => rfl
  | cons e pairs ih =>
    rw [flatPairs_cons]
    simp only [List.length_cons, ih]
    omega

theorem writePage_flatPairs (pairs : List (Buffer × Buffer)) (s : σ) :
    writePage (flatPairs pairs) s = writePairs (flatPairs pairs) s := by
  cases pairs with
  | nil => rfl
  | cons e pairs =>
    have hlen := length_flatPairs (e :: pairs)
    rw [List.length_cons] at hlen
    rw [writePage, if_neg (by omega)]

/-- Under every key there is what was there before, or a value that was written. -/
theorem find_writePairs (pairs : List (Buffer × Buffer)) (s : σ) (k : Buffer) :
    find (writePairs (flatPairs pairs) s).2 k = find s k ∨
      ∃ e ∈ pairs, e.1 = k ∧ find (writePairs (flatPairs pairs) s).2 k = some e.2 := by
  induction pairs generalizing s with
  | nil => exact .inl rfl
  | cons e pairs ih =>
    rw [flatPairs_cons, writePairs]
    have htrue := Persistency.read_write s e.1 e.2
    have hfalse := Persistency.read_write_failed s e.1 e.2
    generalize Persistency.write s e.1 e.2 = r at htrue hfalse ⊢
    obtain ⟨b, s'⟩ := r
    cases b with
    | false => exact .inl (hfalse rfl k)
    | true =>
      rcases ih s' with hk | ⟨e', he', hk, hf⟩
      · have hfind := htrue rfl k
        split at hfind
        · exact .inr ⟨e, List.mem_cons_self, Eq.symm ‹_›, hk.trans hfind⟩
        · exact .inl (hk.trans hfind)
      · exact .inr ⟨e', List.mem_cons_of_mem _ he', hk, hf⟩

/-- A write that returns `ok` has stored a value under every key. -/
theorem find_writePairs_ok (pairs : List (Buffer × Buffer)) (s : σ)
    (hok : (writePairs (flatPairs pairs) s).1 = RpcStatus.ok) {e : Buffer × Buffer}
    (he : e ∈ pairs) :
    ∃ e' ∈ pairs, e'.1 = e.1 ∧ find (writePairs (flatPairs pairs) s).2 e.1 = some e'.2 := by
  induction pairs generalizing s with
  | nil => cases he
  | cons x pairs ih =>
    rw [flatPairs_cons, writePairs] at hok ⊢
    have htrue := Persistency.read_write s x.1 x.2
    generalize Persistency.write s x.1 x.2 = r at htrue hok ⊢
    obtain ⟨b, s'⟩ := r
    cases b with
    | false => cases hok
    | true =>
      rcases List.mem_cons.mp he with rfl | he
      · rcases find_writePairs pairs s' e.1 with hk | ⟨e', he', hk, hf⟩
        · exact ⟨e, List.mem_cons_self, rfl, hk.trans ((htrue rfl e.1).trans (if_pos rfl))⟩
        · exact ⟨e', List.mem_cons_of_mem _ he', hk, hf⟩
      · obtain ⟨e', he', hk, hf⟩ := ih s' hok he
        exact ⟨e', List.mem_cons_of_mem _ he', hk, hf⟩

theorem readKeys_spec (params : List Buffer) (s : σ) :
    (readKeys params s).1 = params.map (fun k => (find s k).getD []) ∧
      ∀ k, find (readKeys params s).2.2 k = find s k := by
  induction params generalizing s with
  | nil => exact ⟨rfl, fun _ => rfl⟩
  | cons key params ih =>
    obtain ⟨hres, hfind⟩ := ih (Persistency.read s key).2
    have hread : ∀ k, find (Persistency.read s key).2 k = find s k := Persistency.read_read s key
    simp only [hread] at hres hfind
    rw [readKeys, List.map_cons, find, ← hres]
    generalize Persistency.read s key = r at hfind ⊢
    obtain ⟨data, s'⟩ := r
    cases data with
    | none => exact ⟨rfl, hfind⟩
    | some data => exact ⟨rfl, hfind⟩

/-- A read of at least one key answers with what is stored, and with an empty buffer where nothing
is. -/
theorem readPage_spec {params : List Buffer} (hparams : params ≠ []) (s : σ) :
    ((readPage params s).1 = RpcStatus.ok ∨ (readPage params s).1 = RpcStatus.eobj) ∧
      (readPage params s).2.1 = params.map (fun k => (find s k).getD []) ∧
      ∀ k, find (readPage params s).2.2 k = find s k := by
  obtain ⟨hres, hfind⟩ := readKeys_spec params s
  have hlen : ¬ params.length < 1 := by
    have := List.length_pos_iff.mpr hparams
    omega
  rw [readPage, if_neg hlen]
  refine ⟨?_, hres, hfind⟩
  dsimp only
  split
  · exact .inl rfl
  · exact .inr rfl

end PageManager

end BlobSeer
