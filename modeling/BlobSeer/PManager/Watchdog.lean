import BlobSeer.Lib.Leases
import BlobSeer.Lib.Run
import BlobSeer.PManager.Allocation
import Mathlib.Data.List.MinMax

/-!
# Providers that report (`adv_manager::update`, `adv_manager::watchdog_exec`)

A report gives the entry of a provider a time stamp that lies 30 seconds ahead, and from time to time a
second thread erases the entries whose stamps are over. So an entry is a lease, which each report renews
(`AdvManager.leases`).

Both threads take `update_lock`, but it is a null lock: nothing keeps the watchdog from working on the
table during a call, for instance from erasing an entry between the `insert` and the `replace` of one
`update`. Such an overlap is an action of its own, after which nothing is known. That each call and each
round of the watchdog is one step apart from that is an assumption (`AdvManager.Ok`).
-/

namespace BlobSeer

open Lib

/-- What a provider reports about itself. -/
structure Report where
  free : Nat
  readPages : Nat
  readTotal : Nat
deriving DecidableEq, Repr

def TableEntry.report (e : TableEntry) : Report := ⟨e.info.free, e.info.readPages, e.info.readTotal⟩

/-- `time_index.erase`. -/
def AdvTable.erase (T : AdvTable) (id : ProviderDesc) : AdvTable where
  entries := T.entries.filter fun e => e.id ≠ id
  nodup := T.nodup.sublist (List.filter_sublist.map _)
  score_lt := fun e he => T.score_lt e (List.mem_of_mem_filter he)

/-- `adv_manager`, with the time stamps of the entries beside the table, and the time in microseconds.
After a `fault` the behaviour is undefined. -/
structure AdvManager where
  table : AdvTable
  timestamp : ProviderDesc → Nat
  now : Nat
  fault : Bool

/-- `WATCHDOG_TIMEOUT`. -/
def watchdogTimeout : Nat := 30 * 10 ^ 6

/-- Calls, and what happens in the other thread; `get` comes with the orders of its scans. In an
`overlap` both threads work on the table at once. -/
inductive AdvAction where
  | update (id : ProviderDesc) (report : Report)
  | get (order : ScanOrder) (n r : Nat)
  | clock (now : Nat)
  | watchdog
  | overlap

namespace AdvManager

theorem score_lt_nil : ∀ e ∈ ([] : List TableEntry), e.info.score < 2 ^ 64 := List.forall_mem_nil _

/-- The constructor. -/
def new : AdvManager := ⟨⟨[], List.nodup_nil, score_lt_nil⟩, fun _ => 0, 0, false⟩

def update (s : AdvManager) (id : ProviderDesc) (report : Report) : AdvManager :=
  { s with
    table := s.table.update id report.free report.readPages report.readTotal
    timestamp := Function.update s.timestamp id (s.now + watchdogTimeout) }

/-- `time_index.begin()`. -/
def timeBegin (s : AdvManager) : Option TableEntry :=
  s.table.entries.argmin fun e => s.timestamp e.id

/-- The loop of `watchdog_exec`, which always starts again at the beginning of the index. -/
def eraseLoop : Nat → AdvManager → AdvManager
  | 0, s => s
  | fuel + 1, s =>
    match s.timeBegin with
    | none => s
    | some e =>
      if s.timestamp e.id < s.now then eraseLoop fuel { s with table := s.table.erase e.id } else s

/-- A round of the watchdog. -/
def watchdog (s : AdvManager) : AdvManager := eraseLoop s.table.entries.length s

/-- What an action does; `none` for a `get` that does not end. -/
def act (s : AdvManager) : AdvAction → Option AdvManager
  | .update id report => some (s.update id report)
  | .get order n r => (s.table.get order n r).map fun reply => { s with table := reply.1 }
  | .clock now => some { s with now := now }
  | .watchdog => some s.watchdog
  | .overlap => some { s with fault := true }

def step (s : AdvManager) (a : AdvAction) : Option AdvManager := if s.fault then none else s.act a

/-- The counts have their types, and the threads are not at work on the table at once. -/
def Ok (_ : AdvManager) : AdvAction → Prop
  | .get _ n r => n < 2 ^ 32 ∧ r < 2 ^ 32
  | .overlap => False
  | _ => True

instance (s : AdvManager) (a : AdvAction) : Decidable (s.Ok a) :=
  match a with
  | .get _ n r => inferInstanceAs (Decidable (n < 2 ^ 32 ∧ r < 2 ^ 32))
  | .overlap => .isFalse id
  | .update .. | .clock _ | .watchdog => .isTrue trivial

theorem act_of_step {s t : AdvManager} {a : AdvAction} (h : s.step a = some t) : s.act a = some t := by
  rw [step] at h
  split at h
  · cases h
  · exact h

/-! ## Each call -/

theorem find_update (T : AdvTable) (id : ProviderDesc) (report : Report) (p : ProviderDesc) :
    ((T.update id report.free report.readPages report.readTotal).entries.find? fun e => e.id = p).map
        TableEntry.report =
      if p = id then some report else (T.entries.find? fun e => e.id = p).map TableEntry.report := by
  unfold AdvTable.update
  dsimp only
  split
  · next hmem =>
    dsimp only
    rw [List.find?_map, Option.map_map]
    have hsame : (fun e : TableEntry => decide (e.id = p)) ∘ (fun e : TableEntry => if e.id = id then
        { e with info := { e.info with
          free := report.free, readPages := report.readPages, readTotal := report.readTotal } }
        else e) = fun e => decide (e.id = p) := by
      funext e
      simp only [Function.comp]
      split <;> rfl
    rw [hsame]
    by_cases hp : p = id
    · subst hp
      obtain ⟨e, he, hid⟩ := List.mem_map.mp hmem
      have hfound : (T.entries.find? fun x => decide (x.id = p)).isSome = true :=
        List.find?_isSome.mpr ⟨e, he, by simp [hid]⟩
      obtain ⟨x, hx⟩ := Option.isSome_iff_exists.mp hfound
      have hxid : x.id = p := by simpa using List.find?_some hx
      simp [hx, hxid, TableEntry.report]
    · rw [if_neg hp]
      refine Option.map_congr fun e he => ?_
      have hid : e.id = p := by simpa using List.find?_some he
      have hne : ¬ e.id = id := fun h => hp (hid.symm.trans h)
      simp [hne]
  · next hmem =>
    dsimp only
    rw [if_pos rfl, List.find?_append]
    by_cases hp : p = id
    · subst hp
      have hnone : (T.entries.find? fun e => decide (e.id = p)) = none := by
        refine List.find?_eq_none.mpr fun e he hid => hmem ?_
        rw [← of_decide_eq_true hid]
        exact List.mem_map_of_mem he
      simp [hnone, TableEntry.report]
    · have hne : ¬ id = p := fun h => hp h.symm
      simp [hp, hne]

/-- What the loop erases is what is over. -/
theorem eraseLoop_entries : ∀ {fuel : Nat} {s : AdvManager}, s.table.entries.length ≤ fuel →
    (eraseLoop fuel s).table.entries =
      s.table.entries.filter (fun e => s.now ≤ s.timestamp e.id) ∧
    (eraseLoop fuel s).timestamp = s.timestamp ∧ (eraseLoop fuel s).now = s.now
  | 0, s, h => by
    have hnil := List.length_eq_zero_iff.mp (Nat.le_zero.mp h)
    simp [eraseLoop, hnil]
  | fuel + 1, s, h => by
    rw [eraseLoop]
    cases hbegin : s.timeBegin with
    | none =>
      have hnil := List.argmin_eq_none.mp hbegin
      simp [hnil]
    | some e =>
      have hmem := List.argmin_mem hbegin
      dsimp only
      split
      · next hlt =>
        have hshorter : (s.table.erase e.id).entries.length ≤ fuel := by
          have hlen : (s.table.erase e.id).entries.length < s.table.entries.length :=
            List.length_filter_lt_length_iff_exists.mpr ⟨e, hmem, by simp⟩
          omega
        have hrest := eraseLoop_entries (s := { s with table := s.table.erase e.id }) hshorter
        refine ⟨?_, hrest.2⟩
        rw [hrest.1, AdvTable.erase, List.filter_filter]
        refine List.filter_congr fun x _ => ?_
        by_cases hx : x.id = e.id
        · simp [hx, hlt]
        · simp [hx]
      · next hge =>
        refine ⟨(List.filter_eq_self.mpr fun x hx => ?_).symm, rfl, rfl⟩
        have hle := List.le_of_mem_argmin (f := fun e : TableEntry => s.timestamp e.id) hx hbegin
        simp only [decide_eq_true_eq]
        omega

theorem find_watchdog (s : AdvManager) (p : ProviderDesc) :
    (s.watchdog.table.entries.find? fun e => e.id = p) =
      (s.table.entries.find? fun e => e.id = p).filter fun _ => s.now ≤ s.timestamp p := by
  rw [watchdog, (eraseLoop_entries (Nat.le_refl _)).1, List.find?_filter]
  by_cases hle : s.now ≤ s.timestamp p
  · have hsame : (fun e : TableEntry => decide (decide (s.now ≤ s.timestamp e.id) = true ∧
        decide (e.id = p) = true)) = fun e => decide (e.id = p) := by
      funext e
      by_cases hid : e.id = p <;> simp [hid, hle]
    rw [hsame]
    cases s.table.entries.find? fun e => decide (e.id = p) with
    | none => rfl
    | some e => simp [Option.filter, hle]
  · have hnone : (fun e : TableEntry => decide (decide (s.now ≤ s.timestamp e.id) = true ∧
        decide (e.id = p) = true)) = fun _ => false := by
      funext e
      by_cases hid : e.id = p <;> simp [hid, hle]
    rw [hnone]
    simp [hle]

/-- What `get` does to the table, and what it returns when it succeeds. -/
theorem get_cases {order : ScanOrder} {T T' : AdvTable} {n r : Nat} {st : RpcReturn}
    {L : List ProviderDesc} (hr : r < 2 ^ 32) (h : T.get order n r = some (T', st, L)) :
    (∃ A, T' = T.bumpAll A) ∧
      (st = .ok → order.Lists → ∀ p ∈ L, p ∈ T.eligibleIds) := by
  by_cases hzero : n = 0
  · rw [AdvTable.get, if_pos hzero] at h
    cases h
    exact ⟨⟨[], rfl⟩, by simp⟩
  · by_cases hpos : 0 < (i32 r).toNat
    · obtain ⟨hr0, hr31⟩ := (i32_toNat_pos_iff hr).mp hpos
      obtain ⟨g, B, W, hout, hget⟩ := T.get_outcome order (Nat.pos_of_ne_zero hzero) hr0 hr31
      rw [hget] at h
      split at h
      · cases h
        exact ⟨⟨_, rfl⟩, by simp⟩
      · next hlen =>
        cases h
        exact ⟨⟨_, rfl⟩, fun _ hlists => AdvTable.rounds_eligible hlists hout.rounds⟩
    · have hnone : AdvState.getLoop order n r (n + 1) { table := T } = none :=
        AdvState.getLoop_eq_none (by omega) (Nat.pos_of_ne_zero hzero) (n + 1)
      rw [AdvTable.get, if_neg hzero, hnone] at h
      cases h

theorem find_bumpAll (T : AdvTable) (A : List ProviderDesc) (p : ProviderDesc) :
    ((T.bumpAll A).entries.find? fun e => e.id = p).map TableEntry.report =
      (T.entries.find? fun e => e.id = p).map TableEntry.report := by
  rw [T.bumpAll_entries, List.find?_map, Option.map_map]
  rfl

/-! ## Entries as leases -/

/-- The reports in the table, with their time stamps. -/
def leases (s : AdvManager) : Leases ProviderDesc Report where
  now := s.now
  held p := ((s.table.entries.find? fun e => e.id = p).map TableEntry.report).map
    fun report => (report, s.timestamp p)

end AdvManager

/-- What an action does to the leases; an allocation does nothing. -/
def AdvAction.lease : AdvAction → Option (LeaseAction ProviderDesc Report)
  | .update id report => some (.renew id report)
  | .get _ _ _ => none
  | .clock now => some (.clock now)
  | .watchdog => some .sweep
  | .overlap => none

namespace AdvManager

theorem leases_act {s t : AdvManager} {a : AdvAction} (hok : s.Ok a) (h : s.act a = some t) :
    t.leases = s.leases.run watchdogTimeout a.lease.toList := by
  cases a with
  | update id report =>
    cases h
    refine congrArg (Leases.mk s.now) (funext fun p => ?_)
    have hfind := find_update s.table id report p
    dsimp only [update]
    rw [hfind]
    by_cases hp : p = id
    · simp [hp, leases]
    · simp [hp, leases]
  | get order n r =>
    obtain ⟨⟨T', st, L⟩, hget, rfl⟩ := Option.map_eq_some_iff.mp h
    obtain ⟨⟨A, rfl⟩, -⟩ := get_cases hok.2 hget
    refine congrArg (Leases.mk s.now) (funext fun p => ?_)
    dsimp only
    rw [find_bumpAll]
  | clock now =>
    cases h
    rfl
  | watchdog =>
    cases h
    obtain ⟨-, hstamp, hnow⟩ := s.eraseLoop_entries (Nat.le_refl _)
    have hheld : s.watchdog.leases.held = (s.leases.step watchdogTimeout .sweep).held := by
      funext p
      have hfind := s.find_watchdog p
      have hstamp' : s.watchdog.timestamp = s.timestamp := hstamp
      simp only [leases, Leases.step, hfind, hstamp']
      cases s.table.entries.find? fun e => decide (e.id = p) with
      | none => rfl
      | some e => by_cases hle : s.now ≤ s.timestamp p <;> simp [Option.filter, hle]
    exact Leases.ext hnow hheld
  | overlap => cases hok

theorem leases_run {as : List AdvAction} {s t : AdvManager} (h : Run step Ok s as t) :
    t.leases = s.leases.run watchdogTimeout (as.filterMap AdvAction.lease) := by
  induction h with
  | nil => rfl
  | @cons s t u a as hok hstep _ ih =>
    have hsplit : (a :: as).filterMap AdvAction.lease =
        a.lease.toList ++ as.filterMap AdvAction.lease := by
      cases hl : a.lease <;> simp [hl]
    rw [ih, leases_act hok (act_of_step hstep), hsplit]
    exact List.foldl_append.symm

/-- The time after some actions. -/
def clockAfter (as : List AdvAction) : Nat := Leases.clockAfter 0 (as.filterMap AdvAction.lease)

/-- A round of the watchdog comes later than the deadline. -/
def Overdue (before after : List AdvAction) : Prop :=
  ∃ front rest, after = front ++ .watchdog :: rest ∧
    clockAfter before + watchdogTimeout < clockAfter (before ++ front)

theorem clockAfter_append (before front : List AdvAction) :
    clockAfter (before ++ front) =
      Leases.clockAfter (clockAfter before) (front.filterMap AdvAction.lease) := by
  rw [clockAfter, List.filterMap_append]
  exact List.foldl_append

/-- The sweeps are the rounds of the watchdog. -/
theorem inTime_iff (before after : List AdvAction) :
    Leases.InTime (clockAfter before) (clockAfter before + watchdogTimeout)
      (after.filterMap AdvAction.lease) ↔ ¬ Overdue before after := by
  constructor
  · rintro hin ⟨front, rest, rfl, hlt⟩
    rw [clockAfter_append] at hlt
    have hle := hin (front.filterMap AdvAction.lease) (rest.filterMap AdvAction.lease) (by
      rw [List.filterMap_append]
      rfl)
    omega
  · intro hnot front' rest' hsplit
    obtain ⟨front, rest, rfl, rfl, hrest⟩ := List.filterMap_eq_append_iff.mp hsplit
    obtain ⟨skipped, a, rest, rfl, hskipped, ha, -⟩ := List.filterMap_eq_cons_iff.mp hrest
    cases a with
    | watchdog =>
      by_contra hlt
      refine hnot ⟨front ++ skipped, rest, by rw [List.append_assoc], ?_⟩
      have hnone : skipped.filterMap AdvAction.lease = [] := List.filterMap_eq_nil_iff.mpr hskipped
      rw [clockAfter_append, List.filterMap_append, hnone, List.append_nil]
      omega
    | update id report => simp [AdvAction.lease] at ha
    | get order n r => simp [AdvAction.lease] at ha
    | clock now => simp [AdvAction.lease] at ha
    | overlap => simp [AdvAction.lease] at ha

theorem held_none_iff {s : AdvManager} {p : ProviderDesc} :
    s.leases.held p = none ↔ ¬ ∃ e ∈ s.table.entries, e.id = p := by
  simp [leases]

theorem held_of_mem {s : AdvManager} {e : TableEntry} (he : e ∈ s.table.entries) :
    s.leases.held e.id = some (e.report, s.timestamp e.id) := by
  have hfound : (s.table.entries.find? fun x => decide (x.id = e.id)).isSome = true :=
    List.find?_isSome.mpr ⟨e, he, by simp⟩
  obtain ⟨x, hx⟩ := Option.isSome_iff_exists.mp hfound
  have hid : x.id = e.id := by simpa using List.find?_some hx
  have hsame : x = e := AdvTable.eq_of_id (List.mem_of_find?_eq_some hx) he hid
  simp [leases, hx, hsame]

theorem mem_of_held {s : AdvManager} {p : ProviderDesc} {report : Report} {stamp : Nat}
    (h : s.leases.held p = some (report, stamp)) :
    ∃ e ∈ s.table.entries, e.id = p ∧ e.report = report := by
  obtain ⟨found, hfound, hpair⟩ := Option.map_eq_some_iff.mp h
  obtain ⟨e, he, rfl⟩ := Option.map_eq_some_iff.mp hfound
  cases hpair
  exact ⟨e, List.mem_of_find?_eq_some he, by simpa using List.find?_some he, rfl⟩

section registered

variable {p : ProviderDesc} {report : Report} {before after : List AdvAction} {s : AdvManager}

theorem not_renewed (hlast : ∀ report, .update p report ∉ after) (report : Report) :
    .renew p report ∉ after.filterMap AdvAction.lease := by
  intro hmem
  obtain ⟨a, ha, hlease⟩ := List.mem_filterMap.mp hmem
  cases a with
  | update id report' =>
    rw [AdvAction.lease, Option.some.injEq, LeaseAction.renew.injEq] at hlease
    obtain ⟨rfl, rfl⟩ := hlease
    exact hlast report' ha
  | get order n r => simp [AdvAction.lease] at hlease
  | clock now => simp [AdvAction.lease] at hlease
  | watchdog => simp [AdvAction.lease] at hlease
  | overlap => simp [AdvAction.lease] at hlease

/-- The lease of a provider after its last report. -/
theorem held_run (hrun : Run step Ok .new (before ++ .update p report :: after) s)
    (hlast : ∀ report, .update p report ∉ after) :
    (s.leases.held p = some (report, clockAfter before + watchdogTimeout) ↔ ¬ Overdue before after) ∧
      (s.leases.held p = none ↔ ¬ ¬ Overdue before after) := by
  have hleases : s.leases = new.leases.run watchdogTimeout
      (before.filterMap AdvAction.lease ++ .renew p report :: after.filterMap AdvAction.lease) := by
    rw [leases_run hrun, List.filterMap_append]
    rfl
  rw [hleases, ← inTime_iff]
  exact Leases.held_iff watchdogTimeout (not_renewed hlast)

/-- **Registered providers.** While no round of the watchdog overlaps with a call, a provider is
registered, with what it has reported last, unless a round of the watchdog came more than 30 seconds after
this report; and only a provider that is registered and has reported free space is allocated. -/
theorem registered_iff (hrun : Run step Ok .new (before ++ .update p report :: after) s)
    (hlast : ∀ report, .update p report ∉ after) :
    ((∃ e ∈ s.table.entries, e.id = p) ↔ ¬ Overdue before after) ∧
      (∀ e ∈ s.table.entries, e.id = p → e.report = report) ∧
      ∀ (order : ScanOrder) (n r : Nat) (T : AdvTable) (L : List ProviderDesc), order.Lists →
        r < 2 ^ 32 → s.table.get order n r = some (T, .ok, L) → p ∈ L →
        0 < report.free ∧ ¬ Overdue before after := by
  obtain ⟨hheld, hnone⟩ := held_run hrun hlast
  have hreg : (∃ e ∈ s.table.entries, e.id = p) ↔ ¬ Overdue before after := by
    rw [← not_iff_not, ← hnone, held_none_iff]
  have hreport : ∀ e ∈ s.table.entries, e.id = p → e.report = report := by
    rintro e he rfl
    have hlease := hheld.mpr (hreg.mp ⟨e, he, rfl⟩)
    rw [held_of_mem he, Option.some.injEq, Prod.mk.injEq] at hlease
    exact hlease.1
  refine ⟨hreg, hreport, fun order n r T L hlists hr hget hp => ?_⟩
  obtain ⟨e, he, hid⟩ := AdvTable.mem_eligibleIds.mp ((get_cases hr hget).2 rfl hlists p hp)
  obtain ⟨hmem, hfree⟩ := AdvTable.mem_eligible.mp he
  rw [← hreport e hmem hid]
  exact ⟨hfree, hreg.mp ⟨e, hmem, hid⟩⟩

end registered

/-- A provider reports at 0 and 25 seconds, and a round of the watchdog comes at 50 seconds. -/
theorem registered_iff_reports_twice :
    ∃ s, Run step Ok .new ([.update {} ⟨8, 0, 0⟩, .clock 25000000] ++ .update {} ⟨9, 1, 4⟩ ::
        [.clock 50000000, .watchdog, .get (fun _ l => l) 1 1]) s ∧
      (∃ e ∈ s.table.entries, e.id = {} ∧ e.report = ⟨9, 1, 4⟩ ∧ e.info.score = 1) ∧
      ¬ Overdue [.update {} ⟨8, 0, 0⟩, .clock 25000000]
        [.clock 50000000, .watchdog, .get (fun _ l => l) 1 1] := by
  have hrun : Run step Ok .new ([.update {} ⟨8, 0, 0⟩, .clock 25000000] ++ .update {} ⟨9, 1, 4⟩ ::
      [.clock 50000000, .watchdog, .get (fun _ l => l) 1 1]) _ :=
    Run.of_exec rfl
  obtain ⟨hreg, hreport, -⟩ := registered_iff hrun (by simp)
  have hmem : (⟨{}, ⟨1, 9, 1, 4⟩⟩ : TableEntry) ∈ [⟨{}, ⟨1, 9, 1, 4⟩⟩] := List.mem_singleton_self _
  exact ⟨_, hrun, ⟨_, hmem, rfl, hreport _ hmem rfl, rfl⟩, hreg.mp ⟨_, hmem, rfl⟩⟩

end AdvManager

end BlobSeer
