import BlobSeer.Structures
import BlobSeer.Provider.BdbReads
import Mathlib.Data.Finset.Card

/-!
# The memory-only store (`provider/null_bw_map.cpp`)

`null_bw_map` is a cache that never evicts, made larger by one slot whenever it is full. The number of
slots is an `unsigned int`, and `write` does not look at what the cache says. As long as the slots can
be counted, the store is the map `NullBwMap`, which always has room.
-/

namespace BlobSeer

open Lib (Run exec)
open Persistency (find)

/-- The keys of the writes that returned true. -/
def acceptedKeys : List BdbReturn → Finset Buffer
  | [] => ∅
  | .write key _ true :: log => insert key (acceptedKeys log)
  | _ :: log => acceptedKeys log

theorem acceptedKeys_cons :
    ∀ (ret : BdbReturn) (log : List BdbReturn), acceptedKeys log ⊆ acceptedKeys (ret :: log)
  | .read _ _, _ => Finset.Subset.refl _
  | .write _ _ false, _ => Finset.Subset.refl _
  | .write _ _ true, _ => Finset.subset_insert _ _

theorem mem_acceptedKeys {key : Buffer} {log : List BdbReturn} :
    key ∈ acceptedKeys log ↔ ∃ value, lastTrue log key = some value := by
  induction log with
  | nil => simp [acceptedKeys, lastTrue]
  | cons ret log ih =>
    cases ret with
    | read k value => exact ih
    | write k value ok =>
      cases ok with
      | false => exact ih
      | true =>
        rw [acceptedKeys, Finset.mem_insert, ih, lastTrue]
        by_cases hk : k = key
        · simp [hk]
        · simp [hk, Ne.symm hk]

/-- The keys of a cache after a write that had a slot to spare. -/
theorem CacheMt.keys_write_of_lt {κ α σ : Type} [DecidableEq κ] (P : CachePolicy κ σ)
    (c : CacheMt κ α σ) (key : κ) (data : α) (dirty : Bool) (h : c.cacheMap.length < c.mSize) :
    (c.write P key data dirty).2.2.keys = key :: c.keys.filter (· != key) := by
  rw [write_of_lt P c key data dirty h, ← keys_erase]
  rfl

namespace NullBwMap

/-- `null_bw_map` as the code has it, with the calls that have returned, the last one first. -/
structure Raw where
  cache : CacheMt Buffer Buffer Unit
  spaceLeft : Nat
  log : List BdbReturn := []

namespace Raw

/-- The constructor: the cache takes its number of slots as an `unsigned int`. -/
def new (cacheSize m : Nat) : Raw where
  cache := { policy := (), mSize := u32 cacheSize }
  spaceLeft := m

/-- `null_bw_map::get_free`. -/
def getFree (s : Raw) : Nat := s.spaceLeft

/-- `null_bw_map::read`. -/
def read (s : Raw) (key : Buffer) : Option Buffer × Raw :=
  let (value, cache) := s.cache.read (cacheMtNone Buffer) key
  (value, { s with cache := cache, log := .read key value :: s.log })

/-- The resize in front of a write, if `max_size()` is `size()`. -/
def resized (s : Raw) : CacheMt Buffer Buffer Unit :=
  if s.cache.mSize = u32 s.cache.cacheMap.length then
    s.cache.resize (u32 (u32 s.cache.cacheMap.length + 1))
  else s.cache

/-- `null_bw_map::write`. -/
def write (s : Raw) (key value : Buffer) : Bool × Raw :=
  if value.length > s.spaceLeft then (false, { s with log := .write key value false :: s.log })
  else (true, {
    cache := (s.resized.write (cacheMtNone Buffer) key value true).2.2
    spaceLeft := s.spaceLeft - value.length
    log := .write key value true :: s.log })

/-- A call on the store. -/
inductive Call where
  | write (key value : Buffer)
  | read (key : Buffer)

def step (s : Raw) : Call → Option Raw
  | .write key value => some (s.write key value).2
  | .read key => some (s.read key).2

/-! ## The store is a map -/

/-- The store is in the state of a `NullBwMap`. -/
structure Refines (s : Raw) (m : NullBwMap) : Prop where
  cache : s.cache = m.cache
  space : s.spaceLeft = m.spaceLeft

theorem Refines.resized {s : Raw} {m : NullBwMap} (h : s.Refines m)
    (hcount : s.cache.cacheMap.length + 1 < 2 ^ 32) : s.resized = m.roomy := by
  rw [Raw.resized, roomy, ← h.cache, u32_of_lt (Nat.lt_of_succ_lt hcount), u32_of_lt hcount]

/-- A write with a slot to spare is the write of the map. -/
theorem Refines.write {s : Raw} {m : NullBwMap} (h : s.Refines m)
    (hcount : s.cache.cacheMap.length + 1 < 2 ^ 32) (key value : Buffer) :
    (s.write key value).1 = (m.write key value).1 ∧
      (s.write key value).2.Refines (m.write key value).2 := by
  unfold Raw.write NullBwMap.write
  rw [h.space, h.resized hcount]
  split
  · exact ⟨rfl, h.cache, rfl⟩
  · exact ⟨rfl, rfl, rfl⟩

theorem Refines.read {s : Raw} {m : NullBwMap} (h : s.Refines m) (key : Buffer) :
    (s.read key).1 = find m key ∧ (s.read key).2.Refines (m.read key).2 := by
  unfold Raw.read
  rw [h.cache]
  exact ⟨rfl, rfl, h.space⟩

/-- Every key that was written is there with its last value, and nothing else takes up a slot. -/
structure Inv (s : Raw) : Prop where
  refines : ∃ m : NullBwMap, s.Refines m ∧ ∀ key, find m key = lastTrue s.log key
  nodup : s.cache.keys.Nodup
  accepted : ∀ key ∈ s.cache.keys, key ∈ acceptedKeys s.log
  reads : ReadYourWrites s.log

theorem inv_new (cacheSize m : Nat) : (new cacheSize m).Inv where
  refines := ⟨NullBwMap.new (u32 cacheSize) m, ⟨rfl, rfl⟩, fun _ => rfl⟩
  nodup := List.nodup_nil
  accepted := fun _ h => nomatch h
  reads := trivial

/-- The slots in use are no more than the keys written. -/
theorem Inv.length_le {s : Raw} (h : s.Inv) :
    s.cache.cacheMap.length ≤ (acceptedKeys s.log).card := by
  have hcard := List.toFinset_card_of_nodup h.nodup
  rw [CacheMt.keys, List.length_map] at hcard
  rw [← hcard]
  refine Finset.card_le_card fun key hkey => ?_
  exact h.accepted key (List.mem_toFinset.mp hkey)

theorem Inv.write {s : Raw} (h : s.Inv) (key value : Buffer)
    (hcount : s.cache.cacheMap.length + 1 < 2 ^ 32) : (s.write key value).2.Inv := by
  obtain ⟨m, hm, hfind⟩ := h.refines
  obtain ⟨hret, hrefines⟩ := hm.write hcount key value
  have htrue := Persistency.read_write m key value
  by_cases hs : value.length > s.spaceLeft
  · have heq : s.write key value = (false, { s with log := .write key value false :: s.log }) :=
      if_pos hs
    rw [heq]
    exact ⟨⟨m, ⟨hm.cache, hm.space⟩, hfind⟩, h.nodup, h.accepted, h.reads⟩
  · have heq : s.write key value = (true, {
        cache := (s.resized.write (cacheMtNone Buffer) key value true).2.2
        spaceLeft := s.spaceLeft - value.length
        log := .write key value true :: s.log }) := if_neg hs
    have hkeys := CacheMt.keys_write_of_lt (cacheMtNone Buffer) s.resized key value true
      (by rw [hm.resized hcount]; exact m.roomy_spec.2)
    have hsame : s.resized.keys = s.cache.keys := by
      rw [hm.resized hcount, CacheMt.keys, m.roomy_spec.1, hm.cache, CacheMt.keys]
    rw [hsame] at hkeys
    rw [heq] at hret hrefines ⊢
    refine ⟨⟨_, hrefines, fun k => ?_⟩, ?_, ?_, h.reads⟩
    · refine (htrue hret.symm k).trans ?_
      rw [lastTrue]
      by_cases hk : k = key
      · rw [if_pos hk, if_pos hk.symm]
      · rw [if_neg hk, if_neg (Ne.symm hk)]
        exact hfind k
    · rw [hkeys]
      exact List.nodup_cons.mpr ⟨fun hmem => by simpa using (List.mem_filter.mp hmem).2,
        h.nodup.filter _⟩
    · intro k hk
      rw [hkeys, List.mem_cons] at hk
      rcases hk with rfl | hk
      · exact Finset.mem_insert_self _ _
      · exact Finset.mem_insert_of_mem (h.accepted k (List.mem_filter.mp hk).1)

theorem Inv.read {s : Raw} (h : s.Inv) (key : Buffer) : (s.read key).2.Inv := by
  obtain ⟨m, hm, hfind⟩ := h.refines
  obtain ⟨hret, hrefines⟩ := hm.read key
  have hkeep : (s.read key).2.cache.keys = s.cache.keys := by
    unfold Raw.read CacheMt.read
    cases s.cache.find key <;> rfl
  have hlog : (s.read key).2.log = .read key (s.read key).1 :: s.log := rfl
  refine ⟨⟨_, hrefines, fun k => ?_⟩, ?_, ?_, ?_⟩
  · rw [hlog]
    exact (Persistency.read_read m key k).trans (hfind k)
  · rw [hkeep]
    exact h.nodup
  · rw [hkeep, hlog]
    exact h.accepted
  · rw [hlog, hret, hfind key]
    exact ⟨fun _ hv => hv, h.reads⟩

/-- With fewer than `2 ^ 32 - 1` keys there is always a slot to spare. -/
theorem inv_run {cacheSize m : Nat} {s : Raw} {calls : List Call}
    (hrun : Run step (fun _ _ => True) (new cacheSize m) calls s)
    (hkeys : (acceptedKeys s.log).card < 2 ^ 32 - 1) : s.Inv := by
  refine hrun.inv (P := fun s => (acceptedKeys s.log).card < 2 ^ 32 - 1 → s.Inv) ?_
    (fun _ => inv_new cacheSize m) hkeys
  intro s t call h _ hstep hlt
  cases call with
  | read key =>
    cases hstep
    exact (h hlt).read key
  | write key value =>
    cases hstep
    have hsub : acceptedKeys s.log ⊆ acceptedKeys (s.write key value).2.log := by
      unfold Raw.write
      split <;> exact acceptedKeys_cons _ _
    have hinv := h (Nat.lt_of_le_of_lt (Finset.card_le_card hsub) hlt)
    refine hinv.write key value ?_
    have hlen := hinv.length_le
    have hcard := Finset.card_le_card hsub
    omega

/-- What was written and acknowledged is there for every later read, whatever else was written: in
the calls that were made, and in the next one. -/
theorem null_bw_map_keeps {cacheSize m : Nat} {s : Raw} {calls : List Call}
    (hrun : Run step (fun _ _ => True) (new cacheSize m) calls s)
    (hkeys : (acceptedKeys s.log).card < 2 ^ 32 - 1) :
    ReadYourWrites s.log ∧
      ∀ key value, lastTrue s.log key = some value → (s.read key).1 = some value := by
  have h := inv_run hrun hkeys
  obtain ⟨m, hm, hfind⟩ := h.refines
  refine ⟨h.reads, fun key value hlast => ?_⟩
  rw [(hm.read key).1, hfind key, hlast]

/-- A store without slots is given two keys, and one of them twice. -/
def twoKeys : List Call := [.write [1] [5], .write [2] [6], .write [1] [7], .read [1]]

def twoKeysEnd : Raw := (exec step (fun _ _ => True) (new 0 10) twoKeys).getD (new 0 10)

theorem null_bw_map_keeps_twoKeys :
    ReadYourWrites twoKeysEnd.log ∧ (twoKeysEnd.read [1]).1 = some [7] :=
  have hrun : Run step (fun _ _ => True) (new 0 10) twoKeys twoKeysEnd :=
    Run.of_isSome (new 0 10) (by decide)
  have h := null_bw_map_keeps hrun (by decide)
  ⟨h.1, h.2 [1] [7] (by decide)⟩

end Raw

end NullBwMap

end BlobSeer
