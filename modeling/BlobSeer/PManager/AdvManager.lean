import BlobSeer.Structures
import Mathlib.Data.List.Nodup

/-!
# The provider manager (`pmanager/adv_manager.cpp`)

The table of providers and its two remote procedures, after the decoding of their arguments. `get`
scans the table in the order of the info index, once for every replica; the index is changed by each
allocation. How it lists its entries is a parameter (`ScanOrder`), one list for every scan.

The time stamps and the watchdog, which erases providers that have not reported, are in
`BlobSeer.PManager.Watchdog`.

The outer loop of `get` ends as long as the inner one runs at all, which it does for a replica count
between `1` and `2 ^ 31 - 1` (`get_returns_iff`).
-/

namespace BlobSeer

/-- `adv_manager::score_entry`: four 64-bit counters. -/
structure ScoreEntry where
  score : Nat := 0
  free : Nat := 0
  readPages : Nat := 0
  readTotal : Nat := 0
deriving DecidableEq, Repr, Inhabited

/-- `score_entry::operator<`. -/
def ScoreEntry.lt (a b : ScoreEntry) : Bool :=
  if a.free = 0 ∧ b.free = 0 then decide (a.score < b.score)
  else if a.free = 0 ∨ a.score > b.score then false
  else if b.free = 0 ∨ a.score < b.score then true
  else decide (a.free > b.free)

/-- `adv_manager::table_entry`; the id is the host and the service of the provider. -/
structure TableEntry where
  id : ProviderDesc
  info : ScoreEntry := {}
deriving DecidableEq, Repr, Inhabited

/-- The entry with its score `k` higher. -/
def TableEntry.raise (e : TableEntry) (k : Nat) : TableEntry :=
  { e with info := { e.info with score := u64 (e.info.score + k) } }

namespace TableEntry

@[simp] theorem raise_id (e : TableEntry) (k : Nat) : (e.raise k).id = e.id := rfl

theorem raise_raise (e : TableEntry) (j k : Nat) : (e.raise j).raise k = e.raise (j + k) := by
  have hsum : u64 (u64 (e.info.score + j) + k) = u64 (e.info.score + (j + k)) := by
    rw [u64, u64, u64, Nat.mod_add_mod, Nat.add_assoc]
  rw [raise, raise, raise, ← hsum]

end TableEntry

/-- `adv_table`: no two entries have one id. -/
structure AdvTable where
  entries : List TableEntry := []
  nodup : (entries.map TableEntry.id).Nodup := by exact List.nodup_nil
  score_lt : ∀ e ∈ entries, e.info.score < 2 ^ 64 := by exact fun _ h => absurd h List.not_mem_nil

/-- How the info index lists the entries, for each scan. -/
abbrev ScanOrder := Nat → List TableEntry → List TableEntry

/-- A scan lists all entries. -/
def ScanOrder.Lists (order : ScanOrder) : Prop := ∀ k l, (order k l).Perm l

namespace AdvTable

theorem map_nodup {T : AdvTable} {f : TableEntry → TableEntry} (hf : ∀ e, (f e).id = e.id) :
    ((T.entries.map f).map TableEntry.id).Nodup := by
  have hids : (T.entries.map f).map TableEntry.id = T.entries.map TableEntry.id := by
    rw [List.map_map]
    exact List.map_congr_left fun e _ => hf e
  rw [hids]
  exact T.nodup

/-- `adv_manager::update`: what a provider reports about itself. -/
def update (T : AdvTable) (id : ProviderDesc) (free readPages readTotal : Nat) : AdvTable :=
  let report := fun e : TableEntry =>
    if e.id = id then
      { e with info := { e.info with free := free, readPages := readPages, readTotal := readTotal } }
    else e
  have hreport : ∀ e, (report e).id = e.id := by
    intro e
    dsimp only [report]
    split <;> rfl
  have hscore : ∀ e, (report e).info.score = e.info.score := by
    intro e
    dsimp only [report]
    split <;> rfl
  if hmem : id ∈ T.entries.map TableEntry.id then
    { entries := T.entries.map report
      nodup := map_nodup hreport
      score_lt := List.forall_mem_map.mpr fun e he => hscore e ▸ T.score_lt e he }
  else
    { entries := T.entries ++ [report { id := id }]
      nodup := by
        rw [List.map_append, List.map_singleton, hreport]
        exact T.nodup.append (List.nodup_singleton _) (List.disjoint_singleton.mpr hmem)
      score_lt := List.forall_mem_append.mpr ⟨T.score_lt, List.forall_mem_singleton.mpr
        (hscore { id := id } ▸ Nat.two_pow_pos 64)⟩ }

/-- `e.info.score++` and `replace`, for the entry of provider `id`. -/
def bump (T : AdvTable) (id : ProviderDesc) : AdvTable where
  entries := T.entries.map fun e => if e.id = id then e.raise 1 else e
  nodup := map_nodup fun e => by split <;> rfl
  score_lt := List.forall_mem_map.mpr fun e he => by
    split
    · exact Nat.mod_lt _ (Nat.two_pow_pos 64)
    · exact T.score_lt e he

end AdvTable

/-! ## `adv_manager::get` -/

/-- The value kept in a 32-bit signed integer. -/
def i32 (n : Nat) : Int := if u32 n < 2 ^ 31 then u32 n else u32 n - 2 ^ 32

/-- `for (j = ..; j > stop && j >= 0; j--)`: whether one of these results is provider `id`. -/
def allocatedLoop (advList : List ProviderDesc) (id : ProviderDesc) (stop : Int) :
    Nat → Int → Bool
  | 0, _ => false
  | fuel + 1, j =>
    if j > stop ∧ j ≥ 0 then
      if id = advList.getD j.toNat {} then true else allocatedLoop advList id stop fuel (j - 1)
    else false

/-- `already_allocated_for_another_replica`, for the `i`-th replica of a group. -/
def alreadyAllocated (advList : List ProviderDesc) (i : Nat) (id : ProviderDesc) : Bool :=
  let size := i32 advList.length
  allocatedLoop advList id (size - i - 1) (advList.length + 1) (size - 1)

/-- The scan of the info index: it ends at the first entry without free space. -/
def scan (taken : ProviderDesc → Bool) : List TableEntry → Option TableEntry
  | [] => none
  | e :: l => if e.info.free > 0 then (if taken e.id then scan taken l else some e) else none

/-- `adv_table` and `adv_list` in the loops of `get`. -/
structure AdvState where
  table : AdvTable
  advList : List ProviderDesc := []

namespace AdvState

variable (order : ScanOrder)

/-- The provider that the `i`-th replica of a group gets. There has been one scan for each result so
far. -/
def pick (s : AdvState) (i : Nat) : Option TableEntry :=
  scan (alreadyAllocated s.advList i) (order s.advList.length s.table.entries)

def allocate (s : AdvState) (id : ProviderDesc) : AdvState :=
  ⟨s.table.bump id, s.advList ++ [id]⟩

/-- The loop over the replicas of a group, with `m` rounds left before the `i`-th one reaches
`(int)replica_no`. The result is `found`. -/
def fillGroup : Nat → Nat → AdvState → Bool × AdvState
  | 0, _, s => (true, s)
  | m + 1, i, s =>
    match s.pick order i with
    | none => (false, s)
    | some e => fillGroup m (i + 1) (s.allocate e.id)

/-- The outer loop; `none` when it has not ended after `fuel` rounds. -/
def getLoop (n r : Nat) : Nat → AdvState → Option AdvState
  | 0, _ => none
  | fuel + 1, s =>
    if s.advList.length < n then
      match s.fillGroup order (i32 r).toNat 0 with
      | (true, s) => getLoop n r fuel s
      | (false, s) => some s
    else some s

end AdvState

/-- `adv_manager::get`: `none` when the loops do not end. A round that goes on adds at least one
provider, so `n + 1` rounds are enough (`getLoop_isSome`). -/
def AdvTable.get (order : ScanOrder) (T : AdvTable) (n r : Nat) :
    Option (AdvTable × RpcReturn × List ProviderDesc) :=
  if n = 0 then some (T, .earg, [])
  else
    match AdvState.getLoop order n r (n + 1) { table := T } with
    | none => none
    | some s =>
      if s.advList.length ≠ n then some (s.table, .eres, []) else some (s.table, .ok, s.advList)

/-! ## The loops end -/

theorem i32_of_lt {n : Nat} (h : n < 2 ^ 31) : i32 n = n := by
  have hu : u32 n = n := u32_of_lt (by omega)
  rw [i32, hu, if_pos h]

/-- How often the inner loop runs. -/
theorem i32_toNat_pos_iff {r : Nat} (hr : r < 2 ^ 32) :
    0 < (i32 r).toNat ↔ 0 < r ∧ r < 2 ^ 31 := by
  rw [i32, u32_of_lt hr]
  split <;> omega

namespace AdvState

variable {order : ScanOrder}

/-- The inner loop adds a provider in each round, unless it ends early. -/
theorem fillGroup_length : ∀ {m i : Nat} {s s' : AdvState},
    s.fillGroup order m i = (true, s') → s'.advList.length = s.advList.length + m
  | 0, _, s, s', h => by
    cases h
    rfl
  | m + 1, i, s, s', h => by
    rw [fillGroup] at h
    split at h
    · cases h
    · rw [fillGroup_length h, allocate, List.length_append, List.length_singleton]
      omega

theorem getLoop_isSome {n r : Nat} (hpos : 0 < (i32 r).toNat) :
    ∀ {fuel : Nat} {s : AdvState}, n ≤ s.advList.length + fuel →
      (getLoop order n r (fuel + 1) s).isSome = true
  | fuel, s, h => by
    rw [getLoop]
    split
    · split
      · next s' hs =>
        have hlen := fillGroup_length hs
        obtain ⟨fuel, rfl⟩ : ∃ k, fuel = k + 1 := ⟨fuel - 1, by omega⟩
        exact getLoop_isSome hpos (by omega)
      · rfl
    · rfl

/-- Without a round of the inner loop nothing changes. -/
theorem getLoop_eq_none {n r : Nat} (hzero : (i32 r).toNat = 0) {s : AdvState}
    (hlt : s.advList.length < n) : ∀ fuel, getLoop order n r fuel s = none
  | 0 => rfl
  | fuel + 1 => by
    rw [getLoop, if_pos hlt, hzero]
    exact getLoop_eq_none hzero hlt fuel

end AdvState

/-- **The loops of `get` end**, for a request of at least one provider, whatever the table and the order
of the index, if and only if the replica count is neither `0` nor `2 ^ 31` or more. -/
theorem get_returns_iff {order : ScanOrder} {T : AdvTable} {n r : Nat} (hn : n ≠ 0)
    (hr : r < 2 ^ 32) :
    (∃ fuel s, AdvState.getLoop order n r fuel { table := T } = some s) ↔ 0 < r ∧ r < 2 ^ 31 := by
  rw [← i32_toNat_pos_iff hr]
  constructor
  · rintro ⟨fuel, s, h⟩
    by_contra hzero
    rw [AdvState.getLoop_eq_none (by omega) (Nat.pos_of_ne_zero hn)] at h
    cases h
  · intro hpos
    have hsome : (AdvState.getLoop order n r (n + 1) { table := T }).isSome = true :=
      AdvState.getLoop_isSome hpos (Nat.le_add_left n _)
    obtain ⟨s, hs⟩ := Option.isSome_iff_exists.mp hsome
    exact ⟨_, s, hs⟩

/-- A table of two providers with free space. -/
def twoEntries : AdvTable :=
  (({} : AdvTable).update ⟨"a", "1"⟩ 5 0 0).update ⟨"b", "1"⟩ 5 0 0

/-- Two groups of two replicas. -/
theorem get_returns_two :
    ∃ fuel s, AdvState.getLoop (fun _ l => l) 4 2 fuel { table := twoEntries } = some s :=
  (get_returns_iff (by decide) (by decide)).mpr (by decide)

/-- With no replicas the first round goes on for ever. -/
theorem get_hangs :
    ¬ ∃ fuel s, AdvState.getLoop (fun _ l => l) 1 0 fuel { table := {} } = some s := by
  rintro ⟨fuel, s, h⟩
  rw [AdvState.getLoop_eq_none rfl Nat.one_pos] at h
  cases h

end BlobSeer
