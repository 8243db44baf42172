import BlobSeer.Provider.BdbBwMap

/-!
# What the persistent store returns

A read of the store looks into the cache and the database, and not into the queue between them; the
destructor empties the queue and not the cache. So a page can be read back unless it is on its way to
the database (`GetsSettled`), and is found by the next instance unless it is still in the cache
(`Flushed`).
-/

namespace BlobSeer

open Lib (Run exec)

/-! ## Reading back what was written -/

/-- Every read has returned the value of the last write of its key that returned true. -/
def ReadYourWrites : List BdbReturn → Prop
  | [] => True
  | .read key r :: log =>
    (∀ value, lastTrue log key = some value → r = some value) ∧ ReadYourWrites log
  | .write _ _ _ :: log => ReadYourWrites log

namespace BdbBwMap

/-- The key that a step looks up in the database. -/
def getKey (s : BdbBwMap) : Action → Option Buffer
  | .resume =>
    match s.call with
    | .getting key => some key
    | _ => none
  | _ => none

/-- No read asks the database for a key that has an entry on its way there. -/
def GetsSettled (s : BdbBwMap) (a : Action) : Prop :=
  ∀ key ∈ s.getKey a, key ∉ s.pending.map (·.1)

instance (s : BdbBwMap) (a : Action) : Decidable (s.GetsSettled a) :=
  inferInstanceAs (Decidable (∀ key ∈ s.getKey a, key ∉ s.pending.map (·.1)))

/-- Reads so far were right, and what a read may find is right too. -/
structure Own (s : BdbBwMap) : Prop where
  inv : s.Inv
  cached : ∀ k e value, s.bufferWrapperCache.find k = some e →
    lastTrue s.returns k = some value → e.1 = value
  caching : ∀ key v value, s.call = .caching key v → lastTrue s.returns key = some value → v = value
  reads : ReadYourWrites s.returns

theorem own_new (db : Buffer → Option Buffer) (cacheSize m : Nat) : (new db cacheSize m).Own :=
  ⟨inv_new db cacheSize m, fun _ _ _ _ h => (nomatch h), fun _ _ _ h => (nomatch h), trivial⟩

theorem Own.keep {s t : BdbBwMap} (h : s.Own) (hinv : t.Inv)
    (hfind : t.bufferWrapperCache.find = s.bufferWrapperCache.find)
    (hlast : lastTrue t.returns = lastTrue s.returns) (hreads : ReadYourWrites t.returns)
    (hcaching : ∀ key v value, t.call = .caching key v →
      lastTrue s.returns key = some value → v = value) : t.Own where
  inv := hinv
  cached := by
    rw [hfind, hlast]
    exact h.cached
  caching := by
    rw [hlast]
    exact hcaching
  reads := hreads

theorem Own.doReturn {s : BdbBwMap} (h : s.Own) (hcall : ∀ e r, s.call ≠ .evicting e r)
    {ret : BdbReturn} (hret : lastTrue (ret :: s.returns) = lastTrue s.returns)
    (hreads : ReadYourWrites (ret :: s.returns)) : (s.doReturn ret).Own := by
  have hreturns := (doReturn_spec ret hcall).2
  refine h.keep (h.inv.doReturn hcall hret) rfl (hreturns ▸ hret) (hreturns ▸ hreads) ?_
  intro _ _ _ hc
  cases hc

theorem Own.of_cached {s t : BdbBwMap} {key value : Buffer} {dirty : Bool} {ret : BdbReturn}
    (hc : Cached s t key value dirty ret) (h : s.Own) (hinv : t.Inv)
    (hkey : ∀ v, lastTrue (ret :: s.returns) key = some v → value = v)
    (hother : ∀ k, k ≠ key → lastTrue (ret :: s.returns) k = lastTrue s.returns k)
    (hreads : ReadYourWrites (ret :: s.returns)) : t.Own where
  inv := hinv
  cached := by
    intro k e v hf hlast
    rw [hc.returns] at hlast
    by_cases hk : k = key
    · subst hk
      rw [hc.find] at hf
      cases hf
      exact hkey v hlast
    · rw [hother k hk] at hlast
      exact h.cached k e v (hc.older k e hk hf) hlast
  caching := by
    intro k v w hcall
    rcases hc.call with hidle | ⟨e, r, hev, -⟩
    · rw [hidle] at hcall
      cases hcall
    · rw [hev] at hcall
      cases hcall
  reads := hc.returns ▸ hreads

theorem Own.write {s : BdbBwMap} (h : s.Own) (hidle : s.call = .idle) (key value : Buffer) :
    (s.write key value).Own := by
  have hcall := ne_evicting_of_eq hidle nofun
  have hinv := h.inv.write hidle key value
  unfold BdbBwMap.write at hinv ⊢
  by_cases hs : value.length > s.spaceLeft
  · rw [if_pos hs]
    exact h.doReturn hcall rfl h.reads
  · rw [if_neg hs] at hinv ⊢
    rcases cacheWrite_spec h.inv.ok hcall key value true (.write key value) with ⟨-, heq⟩ | hc
    · rw [heq]
      exact h.doReturn hcall rfl h.reads
    · refine h.of_cached hc hinv ?_ ?_ h.reads
      · intro v hv
        rcases lastTrue_write_true hv with ⟨-, hv⟩ | ⟨hne, -⟩
        · exact hv.symm
        · exact absurd rfl hne
      · intro k hk
        exact if_neg (Ne.symm hk)

theorem Own.read {s : BdbBwMap} (h : s.Own) (hidle : s.call = .idle) (key : Buffer) :
    (s.read key).Own := by
  have hinv := h.inv.read hidle key
  have hret : (s.lookedUp key).returns = s.returns := rfl
  have hl : (s.lookedUp key).Own :=
    h.keep (h.inv.lookedUp key) (find_lookedUp s key) rfl h.reads h.caching
  obtain ⟨e, hf, heq⟩ | ⟨hnone, heq⟩ := read_cases s key
  · rw [heq]
    refine hl.doReturn (ne_evicting_of_eq (s := s.lookedUp key) hidle nofun) rfl ⟨?_, h.reads⟩
    intro value hv
    exact congrArg some (h.cached key e value hf hv)
  · rw [heq] at hinv ⊢
    have hr : ({ s.lookedUp key with call := .getting key } : BdbBwMap).returns = s.returns := by
      simp [returns, BdbBwMap.lookedUp, hidle]
    refine hl.keep hinv rfl (congrArg _ hr) (hr ▸ h.reads) ?_
    intro _ _ _ hc
    cases hc

theorem Own.resume {s t : BdbBwMap} (h : s.Own) (hok : s.GetsSettled .resume)
    (hstep : s.resume = some t) : t.Own := by
  have hinv := h.inv.resume hstep
  -- the database is asked only for keys with nothing pending, whose last value it then has
  have hget : ∀ key value, s.call = .getting key → lastTrue s.returns key = some value →
      s.db key = some value := by
    intro key value hc hlast
    have hcur := h.inv.stored key value hlast
    rw [current, h.inv.missed key (.inl hc)] at hcur
    have hfree := hok key (by rw [getKey, hc]; rfl)
    exact (foldl_put_of_notMem _ _ hfree).symm.trans hcur
  obtain ⟨key, hc, hdb, rfl⟩ | ⟨key, value, hc, hdb, rfl⟩ | ⟨key, value, hc, rfl⟩ |
    ⟨entry, ret, hc, rfl⟩ := resume_cases hstep
  · refine h.doReturn (ne_evicting_of_eq hc (by rintro _ _ ⟨⟩)) rfl ⟨?_, h.reads⟩
    intro v hv
    exact hdb.symm.trans (hget key v hc hv)
  · have hr : ({ s with call := .caching key value } : BdbBwMap).returns = s.returns := by
      simp [returns, hc]
    refine h.keep hinv rfl (congrArg _ hr) (hr ▸ h.reads) ?_
    rintro _ _ v ⟨⟩ hv
    exact Option.some.inj (hdb.symm.trans (hget key v hc hv))
  · have hcall := ne_evicting_of_eq hc (by rintro _ _ ⟨⟩)
    have hval : ∀ v, lastTrue s.returns key = some v → value = v := fun v => h.caching key value v hc
    rcases cacheWrite_spec h.inv.ok hcall key value false
      (fun ok => .read key (if ok then some value else none)) with ⟨h0, heq⟩ | hcached
    · rw [heq]
      refine h.doReturn hcall rfl ⟨?_, h.reads⟩
      intro v hv
      rw [h.inv.slots h0] at hv
      cases hv
    · refine h.of_cached hcached hinv hval (fun _ _ => rfl) ⟨?_, h.reads⟩
      intro v hv
      exact congrArg some (hval v hv)
  · have hr := (evicted_spec hc).2
    refine h.keep hinv rfl (congrArg _ hr) (hr ▸ h.reads) ?_
    intro _ _ _ hc
    cases hc

theorem own_step {s t : BdbBwMap} {a : Action} (h : s.Own) (hok : s.GetsSettled a)
    (hstep : s.step a = some t) : t.Own := by
  have hinv := inv_step h.inv hstep
  unfold step at hstep
  cases a with
  | write key value =>
    obtain ⟨hidle, ⟨⟩⟩ := Option.ite_none_right_eq_some.mp hstep
    exact h.write hidle key value
  | read key =>
    obtain ⟨hidle, ⟨⟩⟩ := Option.ite_none_right_eq_some.mp hstep
    exact h.read hidle key
  | resume => exact h.resume hok hstep
  | writeExec =>
    obtain ⟨-, hcache, hcall, hlog⟩ := writeExec_spec hstep
    have hr : t.returns = s.returns := by rw [returns, returns, hcall, hlog]
    exact h.keep hinv (by rw [hcache]) (congrArg _ hr) (hr ▸ h.reads) (hcall ▸ h.caching)

theorem reads_log {s : BdbBwMap} (h : ReadYourWrites s.returns) : ReadYourWrites s.log := by
  unfold returns at h
  split at h
  · next ret _ =>
    cases ret with
    | write key value ok => exact h
    | read key r => exact h.2
  · exact h

/-- A call needs at most three more steps of its own. -/
def stepsLeft : BdbCall → Nat
  | .idle => 0
  | .evicting _ _ => 1
  | .caching _ _ => 2
  | .getting _ => 3

theorem call_cacheWrite (s : BdbBwMap) (key value : Buffer) (dirty : Bool)
    (ret : Bool → BdbReturn) : stepsLeft (s.cacheWrite key value dirty ret).call ≤ 1 := by
  unfold cacheWrite
  dsimp only
  split
  · exact Nat.le_refl 1
  · exact Nat.zero_le 1

theorem resume_progress {s : BdbBwMap} (h : s.call ≠ .idle) :
    ∃ t, s.step .resume = some t ∧ stepsLeft t.call < stepsLeft s.call := by
  unfold step resume
  cases hc : s.call with
  | idle => exact absurd hc h
  | getting key =>
    cases hdb : s.db key with
    | none => exact ⟨s.doReturn (.read key none), by simp [hdb], Nat.zero_lt_succ 2⟩
    | some value =>
      exact ⟨{ s with call := .caching key value }, by simp [hdb], Nat.lt_succ_self 2⟩
  | caching key value => exact ⟨_, rfl, Nat.lt_succ_of_le (call_cacheWrite s key value false _)⟩
  | evicting entry ret => exact ⟨_, rfl, Nat.zero_lt_one⟩

/-- Whatever it finds, a call returns. -/
theorem call_returns (ok : BdbBwMap → Action → Prop) (hok : ∀ s, ok s .resume) (s : BdbBwMap) :
    ∃ n ≤ stepsLeft s.call, ∃ t, Run step ok s (List.replicate n .resume) t ∧ t.call = .idle := by
  induction hn : stepsLeft s.call using Nat.strongRecOn generalizing s with
  | ind n ih =>
    by_cases hidle : s.call = .idle
    · exact ⟨0, Nat.zero_le n, s, .nil s, hidle⟩
    · obtain ⟨t, hstep, hlt⟩ := resume_progress hidle
      obtain ⟨k, hk, u, hrun, hu⟩ := ih (stepsLeft t.call) (hn ▸ hlt) t rfl
      exact ⟨k + 1, by omega, u, .cons (hok s) hstep hrun, hu⟩

theorem stepsLeft_le (c : BdbCall) : stepsLeft c ≤ 3 := by
  cases c <;> simp [stepsLeft]

/-- As long as no read asks the database for a key that has an entry on its way there, every read
returns what was written last. -/
theorem read_your_writes {db : Buffer → Option Buffer} {cacheSize m : Nat} {acts : List Action}
    {s : BdbBwMap} (h : Run step GetsSettled (new db cacheSize m) acts s) :
    ReadYourWrites s.log ∧
    ∃ n ≤ 3, ∃ t, Run step (fun _ _ => True) s (List.replicate n .resume) t ∧ t.call = .idle := by
  have hown : s.Own := h.inv (fun hs hok hstep => own_step hs hok hstep) (own_new db cacheSize m)
  refine ⟨reads_log hown.reads, ?_⟩
  obtain ⟨n, hn, t, hrun, ht⟩ := call_returns (fun _ _ => True) (fun _ => trivial) s
  exact ⟨n, Nat.le_trans hn (stepsLeft_le s.call), t, hrun, ht⟩

/-- One slot: the page of the first key is evicted, reaches the database, and is read back. -/
def evictedAndPut : List Action :=
  [.write [0] [7], .write [1] [8], .resume, .writeExec, .writeExec, .read [0], .resume, .resume,
    .resume]

theorem read_your_writes_evicted :
    ∃ s, Run step GetsSettled (new (fun _ => none) 1 100) evictedAndPut s ∧
      s.log = [.read [0] (some [7]), .write [1] [8] true, .write [0] [7] true] ∧
      ReadYourWrites s.log := by
  have hrun : Run step GetsSettled (new (fun _ => none) 1 100) evictedAndPut _ :=
    Run.of_isSome (new (fun _ => none) 1 100) (by decide +kernel)
  exact ⟨_, hrun, by decide +kernel, (read_your_writes hrun).1⟩

/-- The same before the thread has run: the page is in the queue, where the read does not look. -/
theorem read_misses_evicted :
    ¬ ∀ (db : Buffer → Option Buffer) (cacheSize m : Nat) (acts : List Action) (s : BdbBwMap),
      0 < cacheSize → Run step (fun _ _ => True) (new db cacheSize m) acts s →
      ReadYourWrites s.log := by
  intro h
  have hrun : Run step (fun _ _ => True) (new (fun _ => none) 1 100)
      [.write [0] [7], .write [1] [8], .resume, .read [0], .resume] _ :=
    Run.of_isSome (new (fun _ => none) 1 100) (by decide +kernel)
  have hreads := h _ _ _ _ _ Nat.zero_lt_one hrun
  have hlog : ((exec step (fun _ _ => True) (new (fun _ => none) 1 100)
      [.write [0] [7], .write [1] [8], .resume, .read [0], .resume]).getD
        (new (fun _ => none) 1 100)).log =
      [.read [0] none, .write [1] [8] true, .write [0] [7] true] := by decide +kernel
  rw [hlog] at hreads
  exact nomatch hreads.1 [7] (by decide)

/-! ## Restarting -/

/-- The database after the destructor. `process_writes` is interrupted and joined: a thread that is
waiting ends there, and any other one ends when it next waits, that is when the queue is empty. What
is left in the cache is dropped. -/
def destroy (s : BdbBwMap) : Buffer → Option Buffer :=
  match s.processWrites with
  | .waiting => s.db
  | .running => s.writeQueue.foldl put s.db
  | .holding entry => s.writeQueue.foldl put (put s.db entry)

/-- The value under a key has left the cache, and not into the queue of a thread that waits. -/
def Flushed (s : BdbBwMap) (key : Buffer) : Prop :=
  (∀ value, s.bufferWrapperCache.find key ≠ some (value, true)) ∧
    (s.processWrites = .waiting → key ∉ s.writeQueue.map (·.1))

theorem destroy_eq_settled {s : BdbBwMap} {key : Buffer} (hidle : s.call = .idle)
    (h : s.processWrites = .waiting → key ∉ s.writeQueue.map (·.1)) :
    s.destroy key = s.settled key := by
  unfold destroy settled pending
  cases hp : s.processWrites with
  | waiting =>
    have hq := h hp
    simp [hidle, foldl_put_of_notMem _ _ hq]
  | running => simp [hidle]
  | holding entry => simp [hidle]

/-- An instance on which nothing is written only copies from its database. -/
structure Copies (db : Buffer → Option Buffer) (s : BdbBwMap) : Prop where
  ok : s.bufferWrapperCache.Ok
  slots : s.bufferWrapperCache.mSize ≠ 0
  same : s.db = db
  queue : s.writeQueue = []
  thread : ∀ e, s.processWrites ≠ .holding e
  call : ∀ e r, s.call ≠ .evicting e r
  cached : ∀ k e, s.bufferWrapperCache.find k = some e → db k = some e.1 ∧ e.2 = false
  caching : ∀ key value, s.call = .caching key value → db key = some value
  reads : ∀ ret ∈ s.log, ∃ key, ret = .read key (db key)

/-- No call of `write`. -/
def Reads (_ : BdbBwMap) : Action → Prop
  | .write _ _ => False
  | _ => True

instance (s : BdbBwMap) : ∀ a, Decidable (s.Reads a)
  | .write _ _ => instDecidableFalse
  | .read _ => instDecidableTrue
  | .resume => instDecidableTrue
  | .writeExec => instDecidableTrue

theorem copies_new (db : Buffer → Option Buffer) {cacheSize : Nat} (m : Nat)
    (h : 0 < cacheSize) : Copies db (new db cacheSize m) where
  ok := (inv_new db cacheSize m).ok
  slots := Nat.ne_of_gt h
  same := rfl
  queue := rfl
  thread := nofun
  call := nofun
  cached := nofun
  caching := nofun
  reads := nofun

theorem cacheWrite_frame (s : BdbBwMap) (key value : Buffer) (dirty : Bool)
    (ret : Bool → BdbReturn) :
    (s.cacheWrite key value dirty ret).db = s.db ∧
    (s.cacheWrite key value dirty ret).writeQueue = s.writeQueue ∧
    (s.cacheWrite key value dirty ret).processWrites = s.processWrites := by
  unfold cacheWrite
  dsimp only
  split <;> exact ⟨rfl, rfl, rfl⟩

namespace Copies

variable {db : Buffer → Option Buffer} {s t : BdbBwMap}

theorem doReturn (h : Copies db s) (key : Buffer) :
    Copies db (s.doReturn (.read key (db key))) where
  ok := h.ok
  slots := h.slots
  same := h.same
  queue := h.queue
  thread := h.thread
  call := nofun
  cached := h.cached
  caching := nofun
  reads := by
    intro ret hret
    rcases List.mem_cons.mp hret with rfl | hret
    · exact ⟨key, rfl⟩
    · exact h.reads ret hret

theorem lookedUp (h : Copies db s) (key : Buffer) : Copies db (s.lookedUp key) :=
  { h with
    ok := h.ok.read key
    slots := by
      have hsize : (s.lookedUp key).bufferWrapperCache.mSize = s.bufferWrapperCache.mSize := by
        unfold BdbBwMap.lookedUp CacheMt.read
        split <;> rfl
      exact hsize ▸ h.slots
    cached := by
      rw [find_lookedUp]
      exact h.cached }

theorem read (h : Copies db s) (key : Buffer) : Copies db (s.read key) := by
  have hl := h.lookedUp key
  obtain ⟨e, hf, heq⟩ | ⟨hnone, heq⟩ := read_cases s key
  · rw [heq, ← (h.cached key e hf).1]
    exact hl.doReturn key
  · rw [heq]
    exact { hl with call := nofun, caching := nofun }

theorem resume (h : Copies db s) (hstep : s.resume = some t) : Copies db t := by
  obtain ⟨key, hc, hdb, rfl⟩ | ⟨key, value, hc, hdb, rfl⟩ | ⟨key, value, hc, rfl⟩ |
    ⟨entry, ret, hc, rfl⟩ := resume_cases hstep
  · rw [h.same] at hdb
    rw [← hdb]
    exact h.doReturn key
  · refine { h with call := nofun, caching := ?_ }
    rintro _ _ ⟨⟩
    exact h.same ▸ hdb
  · have hval := h.caching key value hc
    obtain ⟨hdb, hqueue, hthread⟩ := s.cacheWrite_frame key value false
      fun ok => .read key (if ok then some value else none)
    rcases cacheWrite_spec h.ok h.call key value false
      (fun ok => .read key (if ok then some value else none)) with ⟨h0, -⟩ | hcached
    · exact absurd h0 h.slots
    · have hidle : (s.cacheWrite key value false
          fun ok => .read key (if ok then some value else none)).call = .idle := by
        -- a dirty entry would have to be evicted, and there is none
        rcases hcached.call with hidle | ⟨e, r, -, hdirty⟩
        · exact hidle
        · exact nomatch (h.cached _ _ hdirty).2
      have hlog := hcached.returns
      rw [returns_eq_log (ne_evicting_of_eq hidle nofun), returns_eq_log h.call] at hlog
      refine ⟨hcached.ok, hcached.size ▸ h.slots, hdb.trans h.same, hqueue.trans h.queue,
        hthread ▸ h.thread, ne_evicting_of_eq hidle nofun, ?_, ?_, ?_⟩
      · intro k e hf
        by_cases hk : k = key
        · subst hk
          rw [hcached.find] at hf
          cases hf
          exact ⟨hval, rfl⟩
        · exact h.cached k e (hcached.older k e hk hf)
      · intro _ _ hcall
        rw [hidle] at hcall
        cases hcall
      · intro ret hret
        rw [hlog] at hret
        rcases List.mem_cons.mp hret with rfl | hret
        · exact ⟨key, by rw [hval]; rfl⟩
        · exact h.reads ret hret
  · exact absurd hc (h.call entry ret)

theorem writeExec (h : Copies db s) (hstep : s.writeExec = some t) : Copies db t := by
  unfold BdbBwMap.writeExec at hstep
  rw [h.queue] at hstep
  cases hp : s.processWrites with
  | holding e => exact absurd hp (h.thread e)
  | waiting =>
    rw [hp] at hstep
    cases hstep
  | running =>
    rw [hp] at hstep
    cases hstep
    exact { h with queue := rfl, thread := nofun }

theorem step {a : Action} (h : Copies db s) (hok : s.Reads a) (hstep : s.step a = some t) :
    Copies db t := by
  unfold BdbBwMap.step at hstep
  cases a with
  | write key value => cases hok
  | read key =>
    obtain ⟨-, ⟨⟩⟩ := Option.ite_none_right_eq_some.mp hstep
    exact h.read key
  | resume => exact h.resume hstep
  | writeExec => exact h.writeExec hstep

end Copies

/-- A value that has left the cache by the time of the destructor, and not into the queue of a thread
that waits, is what every read of a new instance on the same database returns. -/
theorem read_after_restart {db : Buffer → Option Buffer} {cacheSize m : Nat} {acts : List Action}
    {s : BdbBwMap} (h : Run BdbBwMap.step (fun _ _ => True) (new db cacheSize m) acts s)
    (hidle : s.call = .idle) {key value : Buffer} (hlast : lastTrue s.log key = some value)
    (hflushed : s.Flushed key) {cacheSize' m' : Nat} (hslots : 0 < cacheSize')
    {acts' : List Action} {t : BdbBwMap}
    (h' : Run BdbBwMap.step Reads (new s.destroy cacheSize' m') acts' t) :
    (∀ r, .read key r ∈ t.log → r = some value) ∧
    ∃ n ≤ 3, ∃ u, Run BdbBwMap.step Reads t (List.replicate n .resume) u ∧ u.call = .idle := by
  have hinv : s.Inv := h.inv (fun hs _ hstep => inv_step hs hstep) (inv_new db cacheSize m)
  have hstored := hinv.stored key value (by rw [returns, hidle]; exact hlast)
  have hdb : s.destroy key = some value := by
    rw [destroy_eq_settled hidle hflushed.2, ← current_eq_settled hflushed.1]
    exact hstored
  have hcopies : Copies s.destroy t :=
    h'.inv (fun hs hok hstep => hs.step hok hstep) (copies_new s.destroy m' hslots)
  refine ⟨?_, ?_⟩
  · intro r hr
    obtain ⟨k, hk⟩ := hcopies.reads _ hr
    cases hk
    exact hdb
  · obtain ⟨n, hn, u, hrun, hu⟩ := call_returns Reads (fun _ => trivial) t
    exact ⟨n, Nat.le_trans hn (stepsLeft_le t.call), u, hrun, hu⟩

/-- One slot: the first page is in the queue when the destructor runs, and the thread still puts
it. -/
theorem read_after_restart_evicted :
    ∃ s t, Run BdbBwMap.step (fun _ _ => True) (new (fun _ => none) 1 100)
        [.write [0] [7], .write [1] [8], .resume] s ∧
      Run BdbBwMap.step Reads (new s.destroy 1 100) [.read [0], .resume, .resume] t ∧
      .read [0] (some [7]) ∈ t.log ∧ ∀ r, .read [0] r ∈ t.log → r = some [7] := by
  have hrun : Run BdbBwMap.step (fun _ _ => True) (new (fun _ => none) 1 100)
      [.write [0] [7], .write [1] [8], .resume] _ :=
    Run.of_isSome (new (fun _ => none) 1 100) (by decide +kernel)
  generalize hs : (exec BdbBwMap.step (fun _ _ => True) (new (fun _ => none) 1 100)
    [.write [0] [7], .write [1] [8], .resume]).getD (new (fun _ => none) 1 100) = s at hrun
  have hrun' : Run BdbBwMap.step Reads (new s.destroy 1 100) [.read [0], .resume, .resume] _ :=
    Run.of_isSome (new (fun _ => none) 1 100) (by rw [← hs]; decide +kernel)
  have hfind : s.bufferWrapperCache.find [0] = none := by
    rw [← hs]
    decide +kernel
  have hthread : s.processWrites = .running := by
    rw [← hs]
    decide +kernel
  have hflushed : s.Flushed [0] := by
    refine ⟨fun v hv => ?_, fun hw => ?_⟩
    · exact nomatch hfind.symm.trans hv
    · exact nomatch hthread.symm.trans hw
  have hlast : lastTrue s.log [0] = some [7] := by
    rw [← hs]
    decide +kernel
  refine ⟨s, _, hrun, hrun', ?_, (read_after_restart hrun ?_ hlast hflushed Nat.zero_lt_one hrun').1⟩
  · rw [← hs]
    decide +kernel
  · rw [← hs]
    decide +kernel

/-- A page that is still in the cache when the destructor runs is lost. -/
theorem read_after_restart_cached :
    ¬ ∀ (db : Buffer → Option Buffer) (cacheSize m : Nat) (acts : List Action) (s : BdbBwMap),
      Run BdbBwMap.step (fun _ _ => True) (new db cacheSize m) acts s → s.call = .idle →
      ∀ key value, lastTrue s.log key = some value →
      ∀ (acts' : List Action) (t : BdbBwMap),
        Run BdbBwMap.step Reads (new s.destroy cacheSize m) acts' t →
        ∀ r, .read key r ∈ t.log → r = some value := by
  intro h
  have hrun : Run BdbBwMap.step (fun _ _ => True) (new (fun _ => none) 10 100)
      [.write [0] [7]] _ := Run.of_isSome (new (fun _ => none) 10 100) (by decide +kernel)
  have hrun' : Run BdbBwMap.step Reads (new (destroy ((exec BdbBwMap.step (fun _ _ => True)
      (new (fun _ => none) 10 100) [.write [0] [7]]).getD (new (fun _ => none) 10 100))) 10 100)
      [.read [0], .resume] _ :=
    Run.of_isSome (new (fun _ => none) 10 100) (by decide +kernel)
  have hlost := h _ _ _ _ _ hrun (by decide +kernel) [0] [7] (by decide +kernel) _ _ hrun' none
    (by decide +kernel)
  cases hlost

end BdbBwMap

end BlobSeer
