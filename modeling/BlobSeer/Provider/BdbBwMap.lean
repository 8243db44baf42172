import Mathlib.Tactic.Common
import BlobSeer.Lib.Run
import BlobSeer.Common.CacheLru
import BlobSeer.Provider.PageManager

/-!
# The persistent store (`provider/bdb_bw_map.cpp`)

`bdb_bw_map` keeps pages in an LRU cache over a Berkeley DB database. The dirty entry that a write
evicts goes to `write_queue`, and the thread `process_writes` takes entries out of the queue and puts
them into the database. A read looks into the cache and then into the database.

A call is cut at each use of a shared container: the cache, the queue and the database have locks of
their own, and the thread may run between any two of the steps.
-/

namespace BlobSeer

open Lib (Run exec)

/-- What `process_writes` is doing: it is at the head of its loop, or waits for the queue to fill, or
holds an entry that it has taken out of the queue and not put yet. -/
inductive WriteExec where
  | running
  | waiting
  | holding (entry : Buffer × Buffer)
  deriving DecidableEq

/-- A call that has returned. -/
inductive BdbReturn where
  | write (key value : Buffer) (ok : Bool)
  | read (key : Buffer) (value : Option Buffer)
  deriving DecidableEq

/-- How far the call under way has come: a read that missed the cache, a read that has the value from
the database, or a call that has still to pass an evicted entry to `evict` before it returns. -/
inductive BdbCall where
  | idle
  | getting (key : Buffer)
  | caching (key value : Buffer)
  | evicting (entry : Buffer × Buffer) (ret : BdbReturn)
  deriving DecidableEq

/-- `bdb_bw_map`, with the calls that have returned, the last one first. -/
structure BdbBwMap where
  bufferWrapperCache : CacheMt Buffer Buffer (CacheMtLRU Buffer)
  db : Buffer → Option Buffer
  spaceLeft : Nat
  writeQueue : List (Buffer × Buffer) := []
  processWrites : WriteExec := .running
  call : BdbCall := .idle
  log : List BdbReturn := []

/-- The value of the last write of a key that returned true. -/
def lastTrue : List BdbReturn → Buffer → Option Buffer
  | [], _ => none
  | .write k value true :: log, key => if k = key then some value else lastTrue log key
  | _ :: log, key => lastTrue log key

namespace BdbBwMap

/-- The constructor, on an existing database. -/
def new (db : Buffer → Option Buffer) (cacheSize m : Nat) : BdbBwMap where
  bufferWrapperCache := { policy := {}, mSize := cacheSize }
  db := db
  spaceLeft := m

/-- `db->put`. -/
def put (db : Buffer → Option Buffer) (entry : Buffer × Buffer) : Buffer → Option Buffer :=
  Function.update db entry.1 (some entry.2)

/-- The call returns; a write that succeeded takes up space. -/
def doReturn (s : BdbBwMap) (ret : BdbReturn) : BdbBwMap :=
  { s with
    call := .idle
    log := ret :: s.log
    spaceLeft := match ret with
      | .write _ value true => s.spaceLeft - value.length
      | _ => s.spaceLeft }

/-- `buffer_wrapper_cache.write` in a call that returns `ret` of its result. -/
def cacheWrite (s : BdbBwMap) (key value : Buffer) (dirty : Bool) (ret : Bool → BdbReturn) :
    BdbBwMap :=
  let (ok, evicted, cache) := s.bufferWrapperCache.write CacheMtLRU.policy key value dirty
  match evicted with
  | some entry => { s with bufferWrapperCache := cache, call := .evicting entry (ret ok) }
  | none => { s with bufferWrapperCache := cache }.doReturn (ret ok)

/-- A call of `write` or `read`, the next step of the call under way, and the next step of
`write_exec`. -/
inductive Action where
  | write (key value : Buffer)
  | read (key : Buffer)
  | resume
  | writeExec

/-- `write`, up to the eviction. -/
def write (s : BdbBwMap) (key value : Buffer) : BdbBwMap :=
  if value.length > s.spaceLeft then s.doReturn (.write key value false)
  else s.cacheWrite key value true (.write key value)

/-- `read`, up to the database. -/
def read (s : BdbBwMap) (key : Buffer) : BdbBwMap :=
  match s.bufferWrapperCache.read CacheMtLRU.policy key with
  | (some value, cache) => { s with bufferWrapperCache := cache }.doReturn (.read key (some value))
  | (none, cache) => { s with bufferWrapperCache := cache, call := .getting key }

/-- The rest of a call, step by step: `db->get`, `buffer_wrapper_cache.write` of the value found, and
`evict`. -/
def resume (s : BdbBwMap) : Option BdbBwMap :=
  match s.call with
  | .idle => none
  | .getting key =>
    match s.db key with
    | none => some (s.doReturn (.read key none))
    | some value => some { s with call := .caching key value }
  | .caching key value =>
    some (s.cacheWrite key value false fun ok => .read key (if ok then some value else none))
  | .evicting entry ret => some ({ s with writeQueue := s.writeQueue ++ [entry] }.doReturn ret)

/-- `write_exec`, step by step. -/
def writeExec (s : BdbBwMap) : Option BdbBwMap :=
  match s.processWrites, s.writeQueue with
  | .holding entry, _ => some { s with db := put s.db entry, processWrites := .running }
  | _, entry :: queue => some { s with writeQueue := queue, processWrites := .holding entry }
  | .running, [] => some { s with processWrites := .waiting }
  | .waiting, [] => none

/-- One step; there is one call at a time. -/
def step (s : BdbBwMap) : Action → Option BdbBwMap
  | .write key value => if s.call = .idle then some (s.write key value) else none
  | .read key => if s.call = .idle then some (s.read key) else none
  | .resume => s.resume
  | .writeExec => s.writeExec

/-! ## Where the last value of a key is -/

/-- The entries on their way to the database, in the order in which they are put. -/
def pending (s : BdbBwMap) : List (Buffer × Buffer) :=
  (match s.processWrites with
    | .holding entry => [entry]
    | _ => []) ++ s.writeQueue ++
  match s.call with
  | .evicting entry _ => [entry]
  | _ => []

/-- The database once these are put. -/
def settled (s : BdbBwMap) : Buffer → Option Buffer := s.pending.foldl put s.db

/-- What is stored under a key: its dirty entry in the cache, or else what the database will hold. -/
def current (s : BdbBwMap) (key : Buffer) : Option Buffer :=
  match s.bufferWrapperCache.find key with
  | some (value, true) => some value
  | _ => s.settled key

/-- The calls that have returned, and the one that only has to pass on an evicted entry. -/
def returns (s : BdbBwMap) : List BdbReturn :=
  match s.call with
  | .evicting _ ret => ret :: s.log
  | _ => s.log

theorem foldl_put_of_notMem {key : Buffer} :
    ∀ (entries : List (Buffer × Buffer)) (db : Buffer → Option Buffer),
      key ∉ entries.map (·.1) → entries.foldl put db key = db key
  | [], _, _ => rfl
  | entry :: entries, db, h => by
    rw [List.map_cons, List.mem_cons, not_or] at h
    rw [List.foldl_cons, foldl_put_of_notMem entries _ h.2, put, Function.update_of_ne h.1]

/-- The writer changes nothing that the caller can see but the database, and that only in the way it
was going to. -/
theorem writeExec_spec {s t : BdbBwMap} (h : s.writeExec = some t) :
    t.settled = s.settled ∧ t.bufferWrapperCache = s.bufferWrapperCache ∧ t.call = s.call ∧
      t.log = s.log := by
  unfold writeExec at h
  split at h
  · next _ _ entry hw =>
    cases h
    simp [settled, pending, hw]
  · next _ _ entry queue hq hw =>
    cases h
    cases hp : s.processWrites with
    | holding e => exact absurd hp (hw e)
    | running => simp [settled, pending, hp, hq]
    | waiting => simp [settled, pending, hp, hq]
  · next _ _ hq hw =>
    cases h
    simp [settled, pending, hw, hq]
  · cases h

theorem returns_eq_log {s : BdbBwMap} (h : ∀ e r, s.call ≠ .evicting e r) : s.returns = s.log := by
  unfold returns
  split
  · next e r hc => exact absurd hc (h e r)
  · rfl

theorem doReturn_spec {s : BdbBwMap} (ret : BdbReturn) (h : ∀ e r, s.call ≠ .evicting e r) :
    (s.doReturn ret).settled = s.settled ∧ (s.doReturn ret).returns = ret :: s.returns := by
  cases hc : s.call with
  | evicting e r => exact absurd hc (h e r)
  | idle => simp [settled, pending, returns, doReturn, hc]
  | getting key => simp [settled, pending, returns, doReturn, hc]
  | caching key value => simp [settled, pending, returns, doReturn, hc]

/-- A call has written `value` into the cache and is going to return `ret`. No other key notices
whether its entry was evicted. -/
structure Cached (s t : BdbBwMap) (key value : Buffer) (dirty : Bool) (ret : BdbReturn) : Prop where
  slots : s.bufferWrapperCache.mSize ≠ 0
  ok : t.bufferWrapperCache.Ok
  size : t.bufferWrapperCache.mSize = s.bufferWrapperCache.mSize
  call : t.call = .idle ∨ ∃ e r, t.call = .evicting e r ∧
    s.bufferWrapperCache.find e.1 = some (e.2, true)
  returns : t.returns = ret :: s.returns
  settled : t.settled key = s.settled key
  find : t.bufferWrapperCache.find key = some (value, dirty)
  current : ∀ k, k ≠ key → t.current k = s.current k
  older : ∀ k e, k ≠ key → t.bufferWrapperCache.find k = some e →
    s.bufferWrapperCache.find k = some e

theorem current_eq_settled {s : BdbBwMap} {key : Buffer}
    (h : ∀ value, s.bufferWrapperCache.find key ≠ some (value, true)) :
    s.current key = s.settled key := by
  unfold current
  split
  · next value hv => exact absurd hv (h value)
  · rfl

/-- The write returns without evicting a dirty entry. -/
theorem cached_doReturn {s : BdbBwMap} (hcall : ∀ e r, s.call ≠ .evicting e r)
    {cache : CacheMt Buffer Buffer (CacheMtLRU Buffer)} {key value : Buffer} {dirty : Bool}
    (ret : BdbReturn) (hslots : s.bufferWrapperCache.mSize ≠ 0) (hok : cache.Ok)
    (hsize : cache.mSize = s.bufferWrapperCache.mSize)
    (hfind : cache.find key = some (value, dirty))
    (hkeep : ∀ k, k ≠ key → cache.find k = s.bufferWrapperCache.find k ∨
      cache.find k = none ∧ ∀ v, s.bufferWrapperCache.find k ≠ some (v, true)) :
    Cached s ({ s with bufferWrapperCache := cache }.doReturn ret) key value dirty ret := by
  have hspec := doReturn_spec (s := { s with bufferWrapperCache := cache }) ret hcall
  have hset : ({ s with bufferWrapperCache := cache }.doReturn ret).settled = s.settled := hspec.1
  refine ⟨hslots, hok, hsize, .inl rfl, hspec.2, congrFun hset key, hfind, ?_, ?_⟩
  · intro k hk
    rcases hkeep k hk with heq | ⟨hnone, hclean⟩
    · rw [current, current, hset]
      exact heq ▸ rfl
    · rw [current_eq_settled hclean, current_eq_settled, hset]
      intro v hv
      exact nomatch hnone.symm.trans hv
  · intro k e hk he
    rcases hkeep k hk with heq | ⟨hnone, -⟩
    · exact heq ▸ he
    · exact nomatch hnone.symm.trans he

/-- The dirty entry of another key is evicted: it joins the entries on their way to the database. -/
theorem cached_evicting {s : BdbBwMap} (hcall : ∀ e r, s.call ≠ .evicting e r)
    {cache : CacheMt Buffer Buffer (CacheMtLRU Buffer)} {key value : Buffer} {dirty : Bool}
    {entry : Buffer × Buffer} (ret : BdbReturn) (hslots : s.bufferWrapperCache.mSize ≠ 0)
    (hok : cache.Ok) (hsize : cache.mSize = s.bufferWrapperCache.mSize) (hne : entry.1 ≠ key)
    (hentry : s.bufferWrapperCache.find entry.1 = some (entry.2, true))
    (hfind : ∀ k, cache.find k = if k = key then some (value, dirty)
      else if k = entry.1 then none else s.bufferWrapperCache.find k) :
    Cached s { s with bufferWrapperCache := cache, call := .evicting entry ret }
      key value dirty ret := by
  have hpending : { s with bufferWrapperCache := cache, call := .evicting entry ret }.pending =
      s.pending ++ [entry] := by
    cases hc : s.call with
    | evicting e r => exact absurd hc (hcall e r)
    | idle => simp [pending, hc]
    | getting _ => simp [pending, hc]
    | caching _ _ => simp [pending, hc]
  have hset : { s with bufferWrapperCache := cache, call := .evicting entry ret }.settled =
      put s.settled entry := by
    rw [settled, hpending, List.foldl_append]
    rfl
  refine ⟨hslots, hok, hsize, .inr ⟨_, _, rfl, hentry⟩, ?_, ?_, ?_, ?_, ?_⟩
  · rw [returns_eq_log hcall]
    rfl
  · rw [hset, put, Function.update_of_ne (Ne.symm hne)]
  · rw [hfind, if_pos rfl]
  · intro k hk
    unfold current
    rw [hset, hfind, if_neg hk]
    by_cases hke : k = entry.1
    · rw [if_pos hke, hke, hentry, put, Function.update_self]
    · rw [if_neg hke, put, Function.update_of_ne hke]
  · intro k e hk he
    rw [hfind, if_neg hk] at he
    split at he
    · cases he
    · exact he

/-- A cache without slots refuses the entry. -/
theorem cacheWrite_spec {s : BdbBwMap} (hok : s.bufferWrapperCache.Ok)
    (hcall : ∀ e r, s.call ≠ .evicting e r) (key value : Buffer) (dirty : Bool)
    (ret : Bool → BdbReturn) :
    s.bufferWrapperCache.mSize = 0 ∧ s.cacheWrite key value dirty ret = s.doReturn (ret false) ∨
    Cached s (s.cacheWrite key value dirty ret) key value dirty (ret true) := by
  have hwrite := hok.write key value dirty
  unfold cacheWrite
  obtain ⟨h0, hnil, hw⟩ | ⟨hroom, hw⟩ | ⟨ek, ks, hks, hkey, hfull, hw⟩ :=
    hok.write_cases key value dirty
  · left
    rw [hw]
    exact ⟨h0, rfl⟩
  · right
    rw [hw] at hwrite ⊢
    have hslots : s.bufferWrapperCache.mSize ≠ 0 := by
      rcases hroom with hmem | hlt
      · exact hok.mSize_ne_zero hmem
      · omega
    refine cached_doReturn hcall (ret true) hslots hwrite rfl ?_ ?_
    · rw [CacheMt.find_put, if_pos rfl]
    · intro k hk
      rw [CacheMt.find_put, if_neg hk]
      exact .inl rfl
  · right
    rw [hw] at hwrite ⊢
    have hek : ek ∈ s.bufferWrapperCache.keys :=
      (hok.same ek).mp (by rw [hks]; exact List.mem_cons_self)
    have hne : ek ≠ key := fun e => hkey (e ▸ hek)
    have hslots : s.bufferWrapperCache.mSize ≠ 0 := hok.mSize_ne_zero hek
    have hfind : ∀ k, ((s.bufferWrapperCache.free CacheMtLRU.policy ek).put key value dirty).find k =
        if k = key then some (value, dirty)
        else if k = ek then none else s.bufferWrapperCache.find k := by
      intro k
      rw [CacheMt.find_put, CacheMt.find_free]
    cases hd : s.bufferWrapperCache.dirtyEntry ek with
    | none =>
      refine cached_doReturn hcall (ret true) hslots hwrite rfl ?_ ?_
      · rw [hfind, if_pos rfl]
      · intro k hk
        rw [hfind, if_neg hk]
        split
        · next hkek =>
          subst hkek
          exact .inr ⟨rfl, CacheMt.ne_of_dirtyEntry_eq_none _ hd⟩
        · exact .inl rfl
    | some entry =>
      obtain ⟨rfl, hentry⟩ := CacheMt.find_of_dirtyEntry_eq_some _ hd
      exact cached_evicting hcall (ret true) hslots hwrite rfl hne hentry hfind

/-! ## The invariant -/

/-- A key whose write was acknowledged has that value in the cache, dirty, or on its way to the
database. -/
structure Inv (s : BdbBwMap) : Prop where
  ok : s.bufferWrapperCache.Ok
  missed : ∀ key, s.call = .getting key ∨ (∃ value, s.call = .caching key value) →
    s.bufferWrapperCache.find key = none
  slots : s.bufferWrapperCache.mSize = 0 → ∀ k, lastTrue s.returns k = none
  stored : ∀ k value, lastTrue s.returns k = some value → s.current k = some value

theorem inv_new (db : Buffer → Option Buffer) (cacheSize m : Nat) : (new db cacheSize m).Inv where
  ok := ⟨CacheMtLRU.Ok.empty 0, List.nodup_nil, fun _ => Iff.rfl, Nat.zero_le _⟩
  missed := fun _ _ => rfl
  slots := fun _ _ => rfl
  stored := fun _ _ h => nomatch h

/-- Steps that leave the cache alone, keep what is pending, and do not acknowledge a write. -/
theorem Inv.keep {s t : BdbBwMap} (h : s.Inv)
    (hfind : t.bufferWrapperCache.find = s.bufferWrapperCache.find)
    (hsize : t.bufferWrapperCache.mSize = s.bufferWrapperCache.mSize)
    (hok : t.bufferWrapperCache.Ok)
    (hsettled : t.settled = s.settled)
    (hlast : lastTrue t.returns = lastTrue s.returns)
    (hmissed : ∀ key, t.call = .getting key ∨ (∃ value, t.call = .caching key value) →
      s.bufferWrapperCache.find key = none) : t.Inv where
  ok := hok
  missed := by
    intro key hkey
    rw [hfind]
    exact hmissed key hkey
  slots := by
    intro h0
    rw [hlast]
    exact h.slots (hsize ▸ h0)
  stored := by
    intro k value hk
    rw [hlast] at hk
    rw [current, hfind, hsettled]
    exact h.stored k value hk

theorem Cached.inv {s t : BdbBwMap} {key value : Buffer} {dirty : Bool} {ret : BdbReturn}
    (hc : Cached s t key value dirty ret) (h : s.Inv)
    (hret : ∀ k v, lastTrue (ret :: s.returns) k = some v →
      k = key ∧ v = value ∧ dirty = true ∨ lastTrue s.returns k = some v ∧
        (k = key → dirty = false ∧ s.bufferWrapperCache.find key = none)) : t.Inv where
  ok := hc.ok
  missed := by
    intro k hk
    rcases hc.call with hidle | ⟨e, r, hev, -⟩
    · rw [hidle] at hk
      rcases hk with hk | ⟨_, hk⟩ <;> cases hk
    · rw [hev] at hk
      rcases hk with hk | ⟨_, hk⟩ <;> cases hk
  slots := fun h0 => absurd (hc.size ▸ h0) hc.slots
  stored := by
    intro k v hk
    rw [hc.returns] at hk
    by_cases hkey : k = key
    · subst hkey
      rcases hret k v hk with ⟨-, rfl, hd⟩ | ⟨hlast, hclean⟩
      · rw [BdbBwMap.current, hc.find, hd]
      · obtain ⟨hd, hnone⟩ := hclean rfl
        have hcur := h.stored k v hlast
        rw [BdbBwMap.current, hnone] at hcur
        rw [BdbBwMap.current, hc.find, hd]
        exact hc.settled.trans hcur
    · rcases hret k v hk with ⟨heq, -⟩ | ⟨hlast, -⟩
      · exact absurd heq hkey
      · rw [hc.current k hkey]
        exact h.stored k v hlast

theorem lastTrue_write_true {log : List BdbReturn} {key value k v : Buffer}
    (h : lastTrue (.write key value true :: log) k = some v) :
    k = key ∧ v = value ∨ k ≠ key ∧ lastTrue log k = some v := by
  rw [lastTrue] at h
  split at h
  · next hk => exact .inl ⟨hk.symm, (Option.some.inj h).symm⟩
  · next hk => exact .inr ⟨Ne.symm hk, h⟩

theorem ne_evicting_of_eq {s : BdbBwMap} {c : BdbCall} (h : s.call = c)
    (hc : ∀ e r, c ≠ .evicting e r) (e : Buffer × Buffer) (r : BdbReturn) :
    s.call ≠ .evicting e r := h ▸ hc e r

/-- A call returns that acknowledges no write. -/
theorem Inv.doReturn {s : BdbBwMap} (h : s.Inv) (hcall : ∀ e r, s.call ≠ .evicting e r)
    {ret : BdbReturn} (hret : lastTrue (ret :: s.returns) = lastTrue s.returns) :
    (s.doReturn ret).Inv := by
  obtain ⟨hset, hreturns⟩ := doReturn_spec ret hcall
  refine h.keep rfl rfl h.ok hset (hreturns ▸ hret) ?_
  rintro key (hkey | ⟨_, hkey⟩) <;> cases hkey

theorem Inv.write {s : BdbBwMap} (h : s.Inv) (hidle : s.call = .idle) (key value : Buffer) :
    (s.write key value).Inv := by
  have hcall := ne_evicting_of_eq hidle nofun
  unfold BdbBwMap.write
  split
  · exact h.doReturn hcall rfl
  · rcases cacheWrite_spec h.ok hcall key value true (.write key value) with ⟨-, heq⟩ | hc
    · rw [heq]
      exact h.doReturn hcall rfl
    · refine hc.inv h ?_
      intro k v hk
      rcases lastTrue_write_true hk with ⟨hkey, hv⟩ | ⟨hne, hk⟩
      · exact .inl ⟨hkey, hv, rfl⟩
      · exact .inr ⟨hk, fun he => absurd he hne⟩

/-- The store after a lookup in the cache; only the order of eviction has changed. -/
def lookedUp (s : BdbBwMap) (key : Buffer) : BdbBwMap :=
  { s with bufferWrapperCache := (s.bufferWrapperCache.read CacheMtLRU.policy key).2 }

theorem find_lookedUp (s : BdbBwMap) (key : Buffer) :
    (s.lookedUp key).bufferWrapperCache.find = s.bufferWrapperCache.find :=
  funext fun k => CacheMt.find_read _ _ key k

theorem Inv.lookedUp {s : BdbBwMap} (h : s.Inv) (key : Buffer) : (s.lookedUp key).Inv := by
  refine h.keep (find_lookedUp s key) ?_ (h.ok.read key) rfl rfl h.missed
  unfold BdbBwMap.lookedUp CacheMt.read
  split <;> rfl

theorem read_cases (s : BdbBwMap) (key : Buffer) :
    (∃ e, s.bufferWrapperCache.find key = some e ∧
      s.read key = (s.lookedUp key).doReturn (.read key (some e.1))) ∨
    s.bufferWrapperCache.find key = none ∧
      s.read key = { s.lookedUp key with call := .getting key } := by
  unfold BdbBwMap.read BdbBwMap.lookedUp CacheMt.read
  cases hf : s.bufferWrapperCache.find key with
  | none => exact .inr ⟨rfl, rfl⟩
  | some e => exact .inl ⟨e, rfl, rfl⟩

theorem Inv.read {s : BdbBwMap} (h : s.Inv) (hidle : s.call = .idle) (key : Buffer) :
    (s.read key).Inv := by
  obtain ⟨e, -, heq⟩ | ⟨hnone, heq⟩ := read_cases s key
  · rw [heq]
    exact (h.lookedUp key).doReturn (ne_evicting_of_eq (s := s.lookedUp key) hidle nofun) rfl
  · rw [heq]
    refine (h.lookedUp key).keep rfl rfl (h.lookedUp key).ok ?_ ?_ ?_
    · simp [settled, pending, BdbBwMap.lookedUp, hidle]
    · simp [returns, BdbBwMap.lookedUp, hidle]
    · rintro k (hk | ⟨_, hk⟩)
      · cases hk
        rw [find_lookedUp]
        exact hnone
      · cases hk

/-- What the next step of a call does. -/
theorem resume_cases {s t : BdbBwMap} (h : s.resume = some t) :
    (∃ key, s.call = .getting key ∧ s.db key = none ∧ t = s.doReturn (.read key none)) ∨
    (∃ key value, s.call = .getting key ∧ s.db key = some value ∧
      t = { s with call := .caching key value }) ∨
    (∃ key value, s.call = .caching key value ∧
      t = s.cacheWrite key value false fun ok => .read key (if ok then some value else none)) ∨
    ∃ entry ret, s.call = .evicting entry ret ∧
      t = { s with writeQueue := s.writeQueue ++ [entry] }.doReturn ret := by
  unfold resume at h
  split at h
  · cases h
  · next key hc =>
    split at h
    · next hdb => exact .inl ⟨key, hc, hdb, (Option.some.inj h).symm⟩
    · next value hdb => exact .inr (.inl ⟨key, value, hc, hdb, (Option.some.inj h).symm⟩)
  · next key value hc => exact .inr (.inr (.inl ⟨key, value, hc, (Option.some.inj h).symm⟩))
  · next entry ret hc => exact .inr (.inr (.inr ⟨entry, ret, hc, (Option.some.inj h).symm⟩))

/-- Passing on the evicted entry ends the call. -/
theorem evicted_spec {s : BdbBwMap} {entry : Buffer × Buffer} {ret : BdbReturn}
    (hc : s.call = .evicting entry ret) :
    ({ s with writeQueue := s.writeQueue ++ [entry] }.doReturn ret).settled = s.settled ∧
    ({ s with writeQueue := s.writeQueue ++ [entry] }.doReturn ret).returns = s.returns := by
  simp [settled, pending, returns, BdbBwMap.doReturn, hc]

theorem Inv.resume {s t : BdbBwMap} (h : s.Inv) (hstep : s.resume = some t) : t.Inv := by
  obtain ⟨key, hc, -, rfl⟩ | ⟨key, value, hc, -, rfl⟩ | ⟨key, value, hc, rfl⟩ |
    ⟨entry, ret, hc, rfl⟩ := resume_cases hstep
  · exact h.doReturn (ne_evicting_of_eq hc nofun) rfl
  · refine h.keep rfl rfl h.ok ?_ ?_ ?_
    · simp [settled, pending, hc]
    · simp [returns, hc]
    · rintro k (hk | ⟨_, hk⟩)
      · cases hk
      · cases hk
        exact h.missed key (.inl hc)
  · have hcall := ne_evicting_of_eq hc nofun
    rcases cacheWrite_spec h.ok hcall key value false
      (fun ok => .read key (if ok then some value else none)) with ⟨-, heq⟩ | hcached
    · rw [heq]
      exact h.doReturn hcall rfl
    · refine hcached.inv h ?_
      intro k v hk
      exact .inr ⟨hk, fun _ => ⟨rfl, h.missed key (.inr ⟨value, hc⟩)⟩⟩
  · obtain ⟨hset, hret⟩ := evicted_spec hc
    refine h.keep rfl rfl h.ok hset (congrArg _ hret) ?_
    rintro k (hk | ⟨_, hk⟩) <;> cases hk

theorem Inv.writeExec {s t : BdbBwMap} (h : s.Inv) (hstep : s.writeExec = some t) : t.Inv := by
  obtain ⟨hset, hcache, hcall, hlog⟩ := writeExec_spec hstep
  refine h.keep (by rw [hcache]) (by rw [hcache]) (hcache ▸ h.ok) hset ?_ (hcall ▸ h.missed)
  rw [returns, returns, hcall, hlog]

theorem inv_step {s t : BdbBwMap} {a : Action} (h : s.Inv) (hstep : s.step a = some t) :
    t.Inv := by
  unfold step at hstep
  cases a with
  | write key value =>
    obtain ⟨hidle, ⟨⟩⟩ := Option.ite_none_right_eq_some.mp hstep
    exact h.write hidle key value
  | read key =>
    obtain ⟨hidle, ⟨⟩⟩ := Option.ite_none_right_eq_some.mp hstep
    exact h.read hidle key
  | resume => exact h.resume hstep
  | writeExec => exact h.writeExec hstep

end BdbBwMap

end BlobSeer
