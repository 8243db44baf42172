import BlobSeer.PManager.Watchdog

/-!
# Providers that report themselves (`provider/pmgr_listener.cpp`)

A provider reports to the provider manager as soon as it starts, and again 5 seconds after each call
has come back, whether it was answered or not. It also reports at once when a write has used up its
space, so several calls may be on their way at the same time, and each one that comes back sets the
timer anew. The manager erases a provider that it has not heard of for 30 seconds.

`update_event` runs in the thread that serves the requests to the provider, and the other two functions
in that of the io service; nothing synchronises them, nor the `dispatch` of the one with what the
`rpc_client` does in the other. When two of them meet, nothing is known any more (`race`); that each of
them is one step apart from that is an assumption. The manager and the provider have one clock, in
microseconds.
-/

namespace BlobSeer

open Lib

/-- `PROVIDER_READ` and `PROVIDER_WRITE`. -/
def providerRead : Int := 1

def providerWrite : Int := 2

/-- A `PUBLISHER_UPDATE` that was dispatched at the time `sent`: whether the manager has carried it out,
and whether its callback was run. -/
structure PmgrCall where
  report : Report
  sent : Nat
  delivered : Bool := false
  returned : Bool := false
deriving DecidableEq, Repr

/-- A wait of `timeout_timer` that is over and whose handler was not run yet. -/
structure TimerHandler where
  aborted : Bool
  expiry : Nat
deriving DecidableEq, Repr

/-- `pmgr_listener`, with the time when its timer expires if it waits, its handlers that are due, and
all its calls. -/
structure PmgrListener where
  freeSpace : Nat
  nrReadPages : Nat := 0
  totalReadSize : Nat := 0
  timer : Option Nat := none
  handlers : List TimerHandler := []
  calls : List PmgrCall := []
deriving DecidableEq, Repr

/-- `UPDATE_TIMEOUT`. -/
def updateTimeout : Nat := 5 * 10 ^ 6

namespace PmgrListener

def timeoutCallback (l : PmgrListener) (now : Nat) (aborted : Bool) : PmgrListener :=
  if aborted then l
  else { l with calls := l.calls ++ [{
    report := ⟨l.freeSpace, l.nrReadPages, l.totalReadSize⟩
    sent := now }] }

/-- The constructor. -/
def new (freeSpace now : Nat) : PmgrListener :=
  ({ freeSpace := freeSpace } : PmgrListener).timeoutCallback now false

/-- `update_event`, for the free space and the size of the page. -/
def updateEvent (l : PmgrListener) (now : Nat) (name : Int) (free size : Nat) : PmgrListener :=
  if name = providerWrite then
    let l := { l with freeSpace := free }
    if l.freeSpace = 0 then l.timeoutCallback now false else l
  else if name = providerRead then
    { l with
      nrReadPages := u64 (l.nrReadPages + 1)
      totalReadSize := u64 (l.totalReadSize + size) }
  else l

/-- `provider_callback`. `expires_from_now` cancels a wait, but not a handler that is due already. -/
def providerCallback (l : PmgrListener) (now : Nat) : PmgrListener :=
  { l with
    nrReadPages := 0
    totalReadSize := 0
    handlers := l.handlers ++ (l.timer.map fun expiry => ⟨true, expiry⟩).toList
    timer := some (now + updateTimeout) }

/-- The timer expires. -/
def expire (l : PmgrListener) (now : Nat) : Option PmgrListener :=
  match l.timer with
  | some expiry =>
    if expiry ≤ now then
      some { l with timer := none, handlers := l.handlers ++ [⟨false, expiry⟩] }
    else none
  | none => none

def setCall (l : PmgrListener) (k : Nat) (f : PmgrCall → PmgrCall) : PmgrListener :=
  { l with calls := l.calls.modify k f }

end PmgrListener

/-- A provider and the manager. After a `fault` the behaviour is undefined. The rest are history
variables: the reports that the manager has carried out, when it did so last, and how many calls have come
back since then without being carried out. -/
structure Heartbeats where
  manager : AdvManager := .new
  listener : PmgrListener
  fault : Bool := false
  delivered : List Report := []
  last : Nat := 0
  lost : Nat := 0

/-- A page was written or read; `update_event` meets a function of the other thread; the timer expires,
and its handler is run; the manager carries a call out; the callback of a call is run; what else the
manager does, and time. -/
inductive HeartbeatEvent where
  | hook (name : Int) (free size : Nat)
  | race
  | expire
  | handler (k : Nat)
  | deliver (k : Nat)
  | callback (k : Nat)
  | manager (a : AdvAction)

namespace Heartbeats

def act (id : ProviderDesc) (s : Heartbeats) : HeartbeatEvent → Option Heartbeats
  | .hook name free size =>
    some { s with listener := s.listener.updateEvent s.manager.now name free size }
  | .race => some { s with fault := true }
  | .expire => (s.listener.expire s.manager.now).map fun l => { s with listener := l }
  | .handler k =>
    match s.listener.handlers[k]? with
    | some h =>
      let l := { s.listener with handlers := s.listener.handlers.eraseIdx k }
      some { s with listener := l.timeoutCallback s.manager.now h.aborted }
    | none => none
  | .deliver k =>
    match s.listener.calls[k]? with
    | some c =>
      if c.delivered then none
      else some { s with
        manager := s.manager.update id c.report
        listener := s.listener.setCall k fun c => { c with delivered := true }
        delivered := s.delivered ++ [c.report]
        last := s.manager.now
        lost := 0 }
    | none => none
  | .callback k =>
    match s.listener.calls[k]? with
    | some c =>
      if c.returned then none
      else some { s with
        listener := (s.listener.setCall k fun c => { c with returned := true }).providerCallback
          s.manager.now
        lost := if c.delivered then s.lost else s.lost + 1 }
    | none => none
  | .manager a => (s.manager.act a).map fun m => { s with manager := m }

def step (id : ProviderDesc) (s : Heartbeats) (e : HeartbeatEvent) : Option Heartbeats :=
  if s.fault ∨ s.manager.fault then none else s.act id e

/-- A provider that starts. -/
def start (freeSpace : Nat) : Heartbeats where
  listener := .new freeSpace 0

/-! ## In time -/

/-- How long a call may take from its dispatch to its callback, how late a handler of the timer may be,
and how many calls in a row may come back that the manager has not carried out. -/
structure Delays where
  call : Nat
  handler : Nat
  lost : Nat

variable (d : Delays)

/-- At the time `t`, no call and no handler takes longer than it may. -/
structure InTime (l : PmgrListener) (t : Nat) : Prop where
  timer : ∀ expiry ∈ l.timer, t ≤ expiry + d.handler
  handlers : ∀ h ∈ l.handlers, h.aborted = false → t ≤ h.expiry + d.handler
  calls : ∀ c ∈ l.calls, c.returned = false → t ≤ c.sent + d.call

instance (l : PmgrListener) (t : Nat) : Decidable (InTime d l t) :=
  decidable_of_iff ((∀ expiry ∈ l.timer, t ≤ expiry + d.handler) ∧
      (∀ h ∈ l.handlers, h.aborted = false → t ≤ h.expiry + d.handler) ∧
      ∀ c ∈ l.calls, c.returned = false → t ≤ c.sent + d.call)
    ⟨fun h => ⟨h.1, h.2.1, h.2.2⟩, fun h => ⟨h.timer, h.handlers, h.calls⟩⟩

/-- The time goes on, but not beyond what is in time; other providers have other ids; and the threads do
not meet. -/
def Prompt (id : ProviderDesc) (s : Heartbeats) : HeartbeatEvent → Prop
  | .race => False
  | .callback k => ∀ c ∈ s.listener.calls[k]?, c.delivered = true ∨ s.lost < d.lost
  | .manager (.clock t) => s.manager.now ≤ t ∧ InTime d s.listener t
  | .manager (.update other _) => other ≠ id
  | .manager a => s.manager.Ok a
  | _ => True

instance (id : ProviderDesc) (s : Heartbeats) (e : HeartbeatEvent) : Decidable (Prompt d id s e) :=
  match e with
  | .callback k =>
    inferInstanceAs (Decidable (∀ c ∈ s.listener.calls[k]?, c.delivered = true ∨ s.lost < d.lost))
  | .manager (.clock t) => inferInstanceAs (Decidable (s.manager.now ≤ t ∧ InTime d s.listener t))
  | .manager (.update other _) => inferInstanceAs (Decidable (other ≠ id))
  | .manager (.get order n r) => inferInstanceAs (Decidable (s.manager.Ok (.get order n r)))
  | .manager .overlap => inferInstanceAs (Decidable (s.manager.Ok .overlap))
  | .race => .isFalse fun h => h
  | .manager .watchdog | .hook .. | .expire | .handler _ | .deliver _ => .isTrue trivial

/-- From one report that the manager carries out to the time when the next one is sent. -/
def round : Nat := d.call + updateTimeout + d.handler

/-- The listener at the time `now`, when the manager has last carried out a report at the time `last`. -/
structure Timely (now last : Nat) (l : PmgrListener) : Prop where
  inTime : InTime d l now
  timer : ∀ expiry ∈ l.timer, expiry ≤ now + updateTimeout
  handlers : ∀ h ∈ l.handlers, h.aborted = false → h.expiry ≤ now
  calls : ∀ c ∈ l.calls, c.sent ≤ now ∧ (c.delivered = true → c.sent ≤ last)

/-- Something makes the listener go on, and does not come too late for the time `bound`: the timer, a
handler that is due, or a call that has not come back. -/
inductive Alive (bound : Nat) (l : PmgrListener) : Prop
  | timer (expiry : Nat) (hmem : expiry ∈ l.timer) (hle : expiry + d.handler ≤ bound)
  | handler (h : TimerHandler) (hmem : h ∈ l.handlers) (hrun : h.aborted = false)
      (hle : h.expiry + d.handler ≤ bound)
  | call (c : PmgrCall) (hmem : c ∈ l.calls) (hout : c.returned = false) (hle : c.sent ≤ bound)

section listener

variable {d} {now last bound : Nat} {l : PmgrListener}

/-- It is never later than the bound and the time of one call. -/
theorem Alive.now_le (h : Alive d bound l) (hin : InTime d l now) : now ≤ bound + d.call := by
  cases h with
  | timer expiry hmem hle =>
    have := hin.timer expiry hmem
    omega
  | handler x hmem hrun hle =>
    have := hin.handlers x hmem hrun
    omega
  | call c hmem hout hle =>
    have := hin.calls c hmem hout
    omega

/-! ### A report is sent -/

theorem mem_send {c : PmgrCall} (hc : c ∈ (l.timeoutCallback now false).calls) :
    c ∈ l.calls ∨ c.sent = now ∧ c.delivered = false := by
  rcases List.mem_append.mp hc with hold | hnew
  · exact .inl hold
  · rw [List.mem_singleton.mp hnew]
    exact .inr ⟨rfl, rfl⟩

theorem Timely.send (h : Timely d now last l) : Timely d now last (l.timeoutCallback now false) := by
  refine ⟨⟨h.inTime.timer, h.inTime.handlers, fun c hc hout => ?_⟩, h.timer, h.handlers, fun c hc => ?_⟩
  · rcases mem_send hc with hold | ⟨hsent, -⟩
    · exact h.inTime.calls c hold hout
    · omega
  · rcases mem_send hc with hold | ⟨hsent, hdelivered⟩
    · exact h.calls c hold
    · simp [hsent, hdelivered]

theorem Alive.send (h : Alive d bound l) (now : Nat) : Alive d bound (l.timeoutCallback now false) := by
  cases h with
  | timer expiry hmem hle => exact .timer expiry hmem hle
  | handler x hmem hrun hle => exact .handler x hmem hrun hle
  | call c hmem hout hle => exact .call c (List.mem_append_left _ hmem) hout hle

theorem Timely.updateEvent (h : Timely d now last l) (name : Int) (free size : Nat) :
    Timely d now last (l.updateEvent now name free size) := by
  have hfree : Timely d now last { l with freeSpace := free } :=
    ⟨⟨h.inTime.timer, h.inTime.handlers, h.inTime.calls⟩, h.timer, h.handlers, h.calls⟩
  rw [PmgrListener.updateEvent]
  dsimp only
  split
  · split
    · exact hfree.send
    · exact hfree
  · split
    · exact ⟨⟨h.inTime.timer, h.inTime.handlers, h.inTime.calls⟩, h.timer, h.handlers, h.calls⟩
    · exact h

/-- Other data of the listener changes. -/
theorem Alive.congr (h : Alive d bound l) {l' : PmgrListener} (htimer : l'.timer = l.timer)
    (hhandlers : l'.handlers = l.handlers) (hcalls : l'.calls = l.calls) : Alive d bound l' := by
  cases h with
  | timer expiry hmem hle => exact .timer expiry (htimer ▸ hmem) hle
  | handler x hmem hrun hle => exact .handler x (hhandlers ▸ hmem) hrun hle
  | call c hmem hout hle => exact .call c (hcalls ▸ hmem) hout hle

theorem Alive.updateEvent (h : Alive d bound l) (now : Nat) (name : Int) (free size : Nat) :
    Alive d bound (l.updateEvent now name free size) := by
  have hfree : Alive d bound { l with freeSpace := free } := h.congr rfl rfl rfl
  rw [PmgrListener.updateEvent]
  dsimp only
  split
  · split
    · exact hfree.send now
    · exact hfree
  · split
    · exact h.congr rfl rfl rfl
    · exact h

/-! ### The timer -/

theorem expire_cases {l' : PmgrListener} (hl : l.expire now = some l') :
    ∃ expiry ≤ now, l.timer = some expiry ∧
      l' = { l with timer := none, handlers := l.handlers ++ [⟨false, expiry⟩] } := by
  rw [PmgrListener.expire] at hl
  split at hl
  · next expiry htimer =>
    split at hl
    · next hdue =>
      cases hl
      exact ⟨expiry, hdue, htimer, rfl⟩
    · cases hl
  · cases hl

theorem Timely.expire (h : Timely d now last l) {l' : PmgrListener} (hl : l.expire now = some l') :
    Timely d now last l' := by
  obtain ⟨expiry, hdue, htimer, rfl⟩ := expire_cases hl
  have hold := h.inTime.timer expiry htimer
  refine ⟨⟨by simp, ?_, h.inTime.calls⟩, by simp, ?_, h.calls⟩
  · exact List.forall_mem_append.mpr ⟨h.inTime.handlers, List.forall_mem_singleton.mpr fun _ => hold⟩
  · exact List.forall_mem_append.mpr ⟨h.handlers, List.forall_mem_singleton.mpr fun _ => hdue⟩

theorem Alive.expire (h : Alive d bound l) {l' : PmgrListener} (hl : l.expire now = some l') :
    Alive d bound l' := by
  obtain ⟨expiry, hdue, htimer, rfl⟩ := expire_cases hl
  cases h with
  | timer e hmem hle =>
    rw [htimer] at hmem
    cases hmem
    exact .handler _ (List.mem_append_right _ (List.mem_singleton_self _)) rfl hle
  | handler x hmem hrun hle => exact .handler x (List.mem_append_left _ hmem) hrun hle
  | call c hmem hout hle => exact .call c hmem hout hle

/-- A handler leaves the queue. -/
theorem Timely.eraseHandler (h : Timely d now last l) (k : Nat) :
    Timely d now last { l with handlers := l.handlers.eraseIdx k } :=
  ⟨⟨h.inTime.timer, fun x hx => h.inTime.handlers x (List.mem_of_mem_eraseIdx hx), h.inTime.calls⟩,
    h.timer, fun x hx => h.handlers x (List.mem_of_mem_eraseIdx hx), h.calls⟩

/-- A handler that sends a report is as good as this report. -/
theorem Alive.runHandler (h : Alive d bound l) (hin : InTime d l now) {k : Nat} {x : TimerHandler}
    (hx : l.handlers[k]? = some x) : Alive d bound
      (({ l with handlers := l.handlers.eraseIdx k } : PmgrListener).timeoutCallback now x.aborted) := by
  by_cases hthis : x.aborted = false ∧ x.expiry + d.handler ≤ bound
  · -- the new call takes its place
    obtain ⟨hrun, hle⟩ := hthis
    have hnow := hin.handlers x (List.mem_of_getElem? hx) hrun
    rw [hrun]
    exact .call _ (List.mem_append_right _ (List.mem_singleton_self _)) rfl (hnow.trans hle)
  · have hrest : Alive d bound { l with handlers := l.handlers.eraseIdx k } := by
      cases h with
      | timer expiry hmem hle => exact .timer expiry hmem hle
      | handler y hmem hrun hle =>
        have hne : y ≠ x := by
          rintro rfl
          exact hthis ⟨hrun, hle⟩
        obtain ⟨i, hi⟩ := List.mem_iff_getElem?.mp hmem
        have hik : i ≠ k := by
          rintro rfl
          exact hne (Option.some.inj (hi.symm.trans hx))
        exact .handler y (List.mem_eraseIdx_iff_getElem?.mpr ⟨i, hik, hi⟩) hrun hle
      | call c hmem hout hle => exact .call c hmem hout hle
    cases x.aborted with
    | true => exact hrest
    | false => exact hrest.send now

theorem Timely.runHandler (h : Timely d now last l) (k : Nat) (x : TimerHandler) : Timely d now last
      (({ l with handlers := l.handlers.eraseIdx k } : PmgrListener).timeoutCallback now x.aborted) := by
  have herase := h.eraseHandler k
  cases haborted : x.aborted with
  | true => exact herase
  | false => exact herase.send

/-! ### Calls -/

theorem mem_setCall {k : Nat} {f : PmgrCall → PmgrCall} {c : PmgrCall}
    (hc : c ∈ (l.setCall k f).calls) : ∃ x ∈ l.calls, c = x ∨ c = f x := by
  obtain ⟨i, hi⟩ := List.mem_iff_getElem?.mp hc
  rw [PmgrListener.setCall, List.getElem?_modify] at hi
  obtain ⟨x, hx, rfl⟩ := Option.map_eq_some_iff.mp hi
  refine ⟨x, List.mem_of_getElem? hx, ?_⟩
  split
  · exact .inr rfl
  · exact .inl rfl

theorem setCall_mem (k : Nat) (f : PmgrCall → PmgrCall) {x : PmgrCall} (hx : x ∈ l.calls) :
    x ∈ (l.setCall k f).calls ∨ f x ∈ (l.setCall k f).calls := by
  obtain ⟨i, hi⟩ := List.mem_iff_getElem?.mp hx
  have hset : (l.setCall k f).calls[i]? = some (if k = i then f x else x) := by
    rw [PmgrListener.setCall, List.getElem?_modify, hi]
    rfl
  split at hset
  · exact .inr (List.mem_of_getElem? hset)
  · exact .inl (List.mem_of_getElem? hset)

/-- The manager carries a call out. -/
theorem Timely.deliver (h : Timely d now last l) (k : Nat) :
    Timely d now now (l.setCall k fun c => { c with delivered := true }) := by
  refine ⟨⟨h.inTime.timer, h.inTime.handlers, fun c hc hout => ?_⟩, h.timer, h.handlers, fun c hc => ?_⟩
  · obtain ⟨x, hx, rfl | rfl⟩ := mem_setCall hc
    · exact h.inTime.calls c hx hout
    · exact h.inTime.calls x hx hout
  · obtain ⟨x, hx, rfl | rfl⟩ := mem_setCall hc
    · exact ⟨(h.calls c hx).1, fun _ => (h.calls c hx).1⟩
    · exact ⟨(h.calls x hx).1, fun _ => (h.calls x hx).1⟩

/-- Whatever makes the listener go on comes soon after a report. -/
theorem Alive.deliver (h : Alive d bound l) (ht : Timely d now last l) (k : Nat) :
    Alive d (now + round d) (l.setCall k fun c => { c with delivered := true }) := by
  cases h with
  | timer expiry hmem hle =>
    refine .timer expiry hmem ?_
    have := ht.timer expiry hmem
    rw [round]
    omega
  | handler x hmem hrun hle =>
    refine .handler x hmem hrun ?_
    have := ht.handlers x hmem hrun
    rw [round]
    omega
  | call c hmem hout hle =>
    have hsent := (ht.calls c hmem).1.trans (Nat.le_add_right now (round d))
    rcases setCall_mem k (fun c => { c with delivered := true }) hmem with hsame | hset
    · exact .call c hsame hout hsent
    · exact .call _ hset hout hsent

/-- A call comes back. -/
theorem Timely.callback (h : Timely d now last l) (k : Nat) : Timely d now last
    ((l.setCall k fun c => { c with returned := true }).providerCallback now) := by
  refine ⟨⟨?_, ?_, fun c hc hout => ?_⟩, ?_, ?_, fun c hc => ?_⟩
  · intro expiry he
    cases he
    omega
  · refine List.forall_mem_append.mpr ⟨h.inTime.handlers, fun x hx hrun => ?_⟩
    obtain ⟨expiry, -, rfl⟩ := Option.map_eq_some_iff.mp (Option.mem_toList.mp hx)
    cases hrun
  · obtain ⟨x, hx, rfl | rfl⟩ := mem_setCall hc
    · exact h.inTime.calls c hx hout
    · cases hout
  · intro expiry he
    cases he
    exact Nat.le_refl _
  · refine List.forall_mem_append.mpr ⟨h.handlers, fun x hx hrun => ?_⟩
    obtain ⟨expiry, -, rfl⟩ := Option.map_eq_some_iff.mp (Option.mem_toList.mp hx)
    cases hrun
  · obtain ⟨x, hx, rfl | rfl⟩ := mem_setCall hc
    · exact h.calls c hx
    · exact h.calls x hx

theorem Alive.callback (hle : now + updateTimeout + d.handler ≤ bound) :
    Alive d bound (l.providerCallback now) :=
  .timer (now + updateTimeout) rfl hle

/-- The time goes on. -/
theorem Timely.clock (h : Timely d now last l) {t : Nat} (hle : now ≤ t) (hin : InTime d l t) :
    Timely d t last l := by
  refine ⟨hin, fun e he => ?_, fun x hx hrun => (h.handlers x hx hrun).trans hle, fun c hc => ?_⟩
  · exact (h.timer e he).trans (Nat.add_le_add_right hle _)
  · exact ⟨(h.calls c hc).1.trans hle, (h.calls c hc).2⟩

end listener

/-! ## The manager and the provider -/

/-- The latest time at which something still makes the listener go on. -/
def bound (s : Heartbeats) : Nat := s.last + (s.lost + 1) * round d

/-- The manager has the last report that it has carried out, until 30 seconds after it. -/
structure Inv (id : ProviderDesc) (s : Heartbeats) : Prop where
  timely : Timely d s.manager.now s.last s.listener
  alive : Alive d (s.bound d) s.listener
  last : s.last ≤ s.manager.now
  lost : s.lost ≤ d.lost
  held : s.manager.leases.held id =
    s.delivered.getLast?.map fun report => (report, s.last + watchdogTimeout)

variable {d} {id : ProviderDesc} {s t : Heartbeats}

/-- Reports come often enough. -/
theorem Inv.now_le (h : Inv d id s) : s.manager.now ≤ s.last + (d.lost + 1) * round d + d.call := by
  have hnow := h.alive.now_le h.timely.inTime
  have hlost : (s.lost + 1) * round d ≤ (d.lost + 1) * round d :=
    Nat.mul_le_mul_right _ (Nat.succ_le_succ h.lost)
  rw [bound] at hnow
  omega

/-- What else the manager does leaves the provider alone. -/
theorem Inv.manager (h : Inv d id s) (hd : (d.lost + 1) * round d + d.call ≤ watchdogTimeout)
    {a : AdvAction} (hok : Prompt d id s (.manager a)) {m : AdvManager}
    (hm : s.manager.act a = some m) : Inv d id { s with manager := m } := by
  cases a with
  | update other report =>
    have hleases := AdvManager.leases_act (a := .update other report) trivial hm
    cases hm
    refine ⟨h.timely, h.alive, h.last, h.lost, ?_⟩
    rw [hleases]
    exact (Function.update_of_ne (Ne.symm hok) _ _).trans h.held
  | get order n r =>
    have hleases := AdvManager.leases_act (a := .get order n r) hok hm
    obtain ⟨reply, -, rfl⟩ := Option.map_eq_some_iff.mp hm
    refine ⟨h.timely, h.alive, h.last, h.lost, ?_⟩
    rw [hleases]
    exact h.held
  | clock t =>
    cases hm
    exact ⟨h.timely.clock hok.1 hok.2, h.alive, h.last.trans hok.1, h.lost, h.held⟩
  | watchdog =>
    have hleases := AdvManager.leases_act (a := .watchdog) trivial hm
    have hnow : m.now = s.manager.now := by
      cases hm
      exact (s.manager.eraseLoop_entries (Nat.le_refl _)).2.2
    have hin : s.manager.now ≤ s.last + watchdogTimeout := by
      have := h.now_le
      omega
    refine ⟨hnow ▸ h.timely, h.alive, hnow ▸ h.last, h.lost, ?_⟩
    have hsweep : m.leases.held id =
        (s.manager.leases.held id).filter fun e => s.manager.now ≤ e.2 := by
      rw [hleases]
      rfl
    rw [hsweep, h.held]
    cases s.delivered.getLast? with
    | none => rfl
    | some report => simp [Option.filter, hin]
  | overlap => cases hok

theorem Inv.step (h : Inv d id s) (hd : (d.lost + 1) * round d + d.call ≤ watchdogTimeout)
    {e : HeartbeatEvent} (hok : Prompt d id s e) (hs : s.step id e = some t) : Inv d id t := by
  rw [Heartbeats.step] at hs
  split at hs
  · cases hs
  cases e with
  | race => cases hok
  | hook name free size =>
    cases hs
    exact ⟨h.timely.updateEvent name free size, h.alive.updateEvent _ name free size, h.last, h.lost,
      h.held⟩
  | expire =>
    obtain ⟨l, hl, rfl⟩ := Option.map_eq_some_iff.mp hs
    exact ⟨h.timely.expire hl, h.alive.expire hl, h.last, h.lost, h.held⟩
  | handler k =>
    rw [act] at hs
    split at hs
    · next x hx =>
      cases hs
      exact ⟨h.timely.runHandler k x, h.alive.runHandler h.timely.inTime hx, h.last, h.lost, h.held⟩
    · cases hs
  | deliver k =>
    rw [act] at hs
    split at hs
    · next c hc =>
      split at hs
      · cases hs
      · cases hs
        have hleases := AdvManager.leases_act (s := s.manager) (a := .update id c.report) trivial rfl
        refine ⟨h.timely.deliver k, ?_, Nat.le_refl _, Nat.zero_le _, ?_⟩
        · have halive := h.alive.deliver h.timely k
          rw [bound, Nat.zero_add, Nat.one_mul]
          exact halive
        · rw [hleases, List.getLast?_concat]
          exact Function.update_self ..
    · cases hs
  | callback k =>
    rw [act] at hs
    split at hs
    · next c hc =>
      split at hs
      · cases hs
      · next hout =>
        cases hs
        have hnow := h.alive.now_le h.timely.inTime
        have hmem := List.mem_of_getElem? hc
        have hsent := h.timely.inTime.calls c hmem (by simpa using hout)
        cases hdelivered : c.delivered with
        | true =>
          have hlast := (h.timely.calls c hmem).2 hdelivered
          have hround : round d ≤ (s.lost + 1) * round d := Nat.le_mul_of_pos_left _ (Nat.succ_pos _)
          refine ⟨h.timely.callback k, .callback ?_, h.last, h.lost, h.held⟩
          simp only [bound, if_true]
          rw [round] at hround ⊢
          omega
        | false =>
          have hlost : s.lost < d.lost := by
            have := hok c hc
            simpa [hdelivered] using this
          have hround : (s.lost + 1 + 1) * round d = (s.lost + 1) * round d + round d := Nat.succ_mul _ _
          refine ⟨h.timely.callback k, .callback ?_, h.last, hlost, h.held⟩
          simp only [bound, Bool.false_eq_true, if_false] at hnow ⊢
          rw [hround]
          rw [round] at hnow ⊢
          omega
    · cases hs
  | manager a =>
    obtain ⟨m, hm, rfl⟩ := Option.map_eq_some_iff.mp hs
    exact h.manager hd hok hm

theorem inv_start (d : Delays) (id : ProviderDesc) (freeSpace : Nat) :
    Inv d id (start freeSpace) := by
  have hnew : ∀ c ∈ (start freeSpace).listener.calls, c = ⟨⟨freeSpace, 0, 0⟩, 0, false, false⟩ :=
    fun c hc => List.mem_singleton.mp hc
  have hnone : ∀ expiry, expiry ∉ (start freeSpace).listener.timer := fun _ he => by cases he
  have hnil : ∀ h, h ∉ (start freeSpace).listener.handlers := fun _ hh => by cases hh
  refine ⟨⟨⟨?_, ?_, ?_⟩, ?_, ?_, ?_⟩, ?_, Nat.le_refl _, Nat.zero_le _, rfl⟩
  · exact fun expiry he => absurd he (hnone expiry)
  · exact fun h hh => absurd hh (hnil h)
  · exact fun _ _ _ => Nat.zero_le _
  · exact fun expiry he => absurd he (hnone expiry)
  · exact fun h hh => absurd hh (hnil h)
  · intro c hc
    rw [hnew c hc]
    exact ⟨Nat.zero_le _, fun _ => Nat.zero_le _⟩
  · exact .call _ (List.mem_singleton_self _) rfl (Nat.zero_le _)

/-- **Heartbeats.** When the threads do not meet, calls and handlers take no longer than they may, and not
too many calls in a row are lost, then a provider that the manager has heard of stays registered, with
what it has reported last; and the manager hears of it again and again. -/
theorem stays_registered (hd : (d.lost + 1) * round d + d.call ≤ watchdogTimeout)
    {freeSpace : Nat} {events : List HeartbeatEvent}
    (h : Run (Heartbeats.step id) (Prompt d id) (start freeSpace) events s) :
    s.manager.now ≤ s.last + (d.lost + 1) * round d + d.call ∧
      ∀ report ∈ s.delivered.getLast?, ∃ e ∈ s.manager.table.entries, e.id = id ∧ e.report = report := by
  have hinv : Inv d id s := h.inv (fun hs hok hstep => hs.step hd hok hstep) (inv_start d id freeSpace)
  refine ⟨hinv.now_le, fun report hreport => ?_⟩
  have hheld := hinv.held
  rw [hreport] at hheld
  exact AdvManager.mem_of_held hheld

/-- A call may take 2 seconds, a handler 1 second, and one call at a time may be lost. -/
def fewSeconds : Delays := ⟨2000000, 1000000, 1⟩

/-- The call that tells that the space is used up comes back without having been carried out, and is
carried out later. -/
def lostCall : List HeartbeatEvent :=
  [.manager (.clock 1000000), .deliver 0, .callback 0, .hook providerWrite 0 16,
    .manager (.clock 3000000), .callback 1, .handler 0, .manager (.clock 8000000), .expire, .handler 0,
    .deliver 1, .manager (.clock 9000000), .deliver 2, .manager .watchdog]

/-- The manager knows that the space is used up. -/
theorem stays_registered_lost_call :
    ∃ s, Run (Heartbeats.step {}) (Prompt fewSeconds {}) (start 64) lostCall s ∧
      s.delivered = [⟨64, 0, 0⟩, ⟨0, 0, 0⟩, ⟨0, 0, 0⟩] ∧
      ∃ e ∈ s.manager.table.entries, e.id = {} ∧ e.report = ⟨0, 0, 0⟩ := by
  have hrun : Run (Heartbeats.step {}) (Prompt fewSeconds {}) (start 64) lostCall _ := Run.of_exec rfl
  exact ⟨_, hrun, rfl, (stays_registered (by decide) hrun).2 ⟨0, 0, 0⟩ rfl⟩

end Heartbeats

end BlobSeer
