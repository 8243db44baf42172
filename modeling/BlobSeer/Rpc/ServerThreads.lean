import Mathlib.Data.List.Perm.Basic
import BlobSeer.Rpc.Server

/-!
# The threads of the server

A connection that is not over has one operation outstanding, or it is once in `task_queue`, or the
processor runs its callback: its `rpcinfo_t` is never in two hands (`Held.nodup`). Requests are taken
out in the order in which they were put in, and the processor never waits while there is one. It checks
the queue only once, though, so a wakeup without a notification makes it take the front of an empty
queue; apart from that, the server goes wrong only when it asks for the address of a sender whose
connection is gone.

`timer_table` has one entry for each connection that is open and not over, with the deadline of its
current request, and none for the sockets of those that are over.
-/

namespace BlobSeer

open Lib Rpc

namespace RpcServer

variable {lookup : UInt32 → Option CallbackKind} {s t : RpcServer} {hands : List Nat} {c : Nat}

/-- The connection in the hands of the processor. -/
def busy (s : RpcServer) : List Nat := if s.processor = .running then s.rpcData.toList else []

/-- The connections that are not over, once for each place where they are. -/
def owners (s : RpcServer) : List Nat := s.outstanding.map ServerOp.conn ++ (s.taskQueue ++ s.busy)

/-! ## Connections -/

@[simp] theorem conn_setConn_self (hc : c < s.conns.length) (f : RpcConnection → RpcConnection) :
    (s.setConn c f).conn c = f (s.conn c) := by
  rw [conn, conn, setConn, List.getD_eq_getElem?_getD, List.getD_eq_getElem?_getD,
    List.getElem?_modify_eq, List.getElem?_eq_getElem hc]
  rfl

theorem conn_setConn_ne {d : Nat} (hd : d ≠ c) (f : RpcConnection → RpcConnection) :
    (s.setConn c f).conn d = s.conn d := by
  rw [conn, conn, setConn, List.getD_eq_getElem?_getD, List.getD_eq_getElem?_getD,
    List.getElem?_modify_ne _ _ (Ne.symm hd)]

/-- What a change of one connection keeps, it keeps for all. -/
theorem conn_setConn_keep {α : Type} (p : RpcConnection → α) {f : RpcConnection → RpcConnection}
    (hf : ∀ x, p (f x) = p x) (d : Nat) : p ((s.setConn c f).conn d) = p (s.conn d) := by
  by_cases hd : d = c
  · subst hd
    rw [conn, conn, setConn, List.getD_eq_getElem?_getD, List.getD_eq_getElem?_getD,
      List.getElem?_modify_eq]
    cases s.conns[d]? with
    | none => rfl
    | some x => exact hf x
  · rw [conn_setConn_ne hd]

theorem conn_accept (s : RpcServer) (c : Nat) :
    conn { s with conns := s.conns ++ [({} : RpcConnection)] } c = s.conn c := by
  rw [conn, conn, List.getD_eq_getElem?_getD, List.getD_eq_getElem?_getD]
  rcases Nat.lt_or_ge c s.conns.length with hlt | hge
  · rw [List.getElem?_append_left hlt]
  · rw [List.getElem?_append_right hge, List.getElem?_eq_none hge]
    cases c - s.conns.length with
    | zero => rfl
    | succ n => rfl

theorem setConn_setConn (f g : RpcConnection → RpcConnection) :
    (s.setConn c f).setConn c g = s.setConn c fun x => g (f x) := by
  unfold setConn
  dsimp only
  rw [List.modify_modify_eq]
  rfl

@[simp] theorem length_setConn (f : RpcConnection → RpcConnection) :
    (s.setConn c f).conns.length = s.conns.length := List.length_modify _ _ _

@[simp] theorem owners_setConn (f : RpcConnection → RpcConnection) :
    (s.setConn c f).owners = s.owners := rfl

theorem owners_transfer (stage : RpcStage) : (s.transfer c stage).owners.Perm (c :: s.owners) := by
  rw [owners, transfer, List.map_append, List.append_assoc]
  exact List.perm_middle

theorem busy_enqueue : (s.enqueue c).busy = s.busy := by
  cases hp : s.processor with
  | waiting => simp [busy, enqueue, hp]
  | _ => simp [busy, enqueue, hp]

theorem owners_enqueue : (s.enqueue c).owners.Perm (c :: s.owners) := by
  rw [owners, owners, busy_enqueue]
  show (s.outstanding.map ServerOp.conn ++ ((s.taskQueue ++ [c]) ++ s.busy)).Perm _
  rw [List.append_assoc, List.singleton_append, ← List.append_assoc]
  refine List.perm_middle.trans ?_
  rw [List.append_assoc]

theorem addTimer_eq (d time : Nat) :
    s.addTimer d time = { s with timers := (s.addTimer d time).timers } := by
  unfold addTimer
  split
  · rfl
  · rfl

/-! ## Closing sockets -/

theorem foldl_close_eq (cs : List Nat) (s : RpcServer) :
    cs.foldl close s = { s with conns := (cs.foldl close s).conns } := by
  induction cs generalizing s with
  | nil => rfl
  | cons c cs ih => exact ih (s.close c)

theorem foldl_close_keep {α : Type} (p : RpcConnection → α)
    (hp : ∀ x : RpcConnection, p { x with isOpen := false } = p x) (cs : List Nat) (s : RpcServer)
    (d : Nat) : p ((cs.foldl close s).conn d) = p (s.conn d) := by
  induction cs generalizing s with
  | nil => rfl
  | cons c cs ih => exact (ih (s.close c)).trans (conn_setConn_keep p hp d)

theorem foldl_close_length (cs : List Nat) (s : RpcServer) :
    (cs.foldl close s).conns.length = s.conns.length := by
  induction cs generalizing s with
  | nil => rfl
  | cons c cs ih => exact (ih (s.close c)).trans (length_setConn _)

theorem foldl_close_isOpen (cs : List Nat) (s : RpcServer) (hcs : ∀ c ∈ cs, c < s.conns.length)
    (d : Nat) : ((cs.foldl close s).conn d).isOpen = true ↔ (s.conn d).isOpen = true ∧ d ∉ cs := by
  induction cs generalizing s with
  | nil => simp
  | cons c cs ih =>
    have hc : c < s.conns.length := hcs c List.mem_cons_self
    have hlen : (s.close c).conns.length = s.conns.length := length_setConn _
    rw [List.foldl_cons, ih (s.close c) fun x hx => hlen ▸ hcs x (List.mem_cons_of_mem _ hx)]
    by_cases hd : d = c
    · subst hd
      simp [close, hc]
    · simp [close, conn_setConn_ne hd, hd]

theorem watchdog_eq :
    s.watchdog = { s with conns := s.watchdog.conns, timers := s.watchdog.timers } := by
  unfold watchdog
  dsimp only
  rw [foldl_close_eq]

theorem watchdog_conn (c : Nat) :
    s.watchdog.conn c = { s.conn c with isOpen := (s.watchdog.conn c).isOpen } := by
  have hsame : ({ s.watchdog.conn c with isOpen := true } : RpcConnection) =
      { s.conn c with isOpen := true } :=
    foldl_close_keep (fun x => ({ x with isOpen := true } : RpcConnection)) (fun _ => rfl) _ _ c
  exact congrArg (fun x => ({ x with isOpen := (s.watchdog.conn c).isOpen } : RpcConnection)) hsame

theorem watchdog_length : s.watchdog.conns.length = s.conns.length := foldl_close_length _ _

/-! ## The timer table -/

theorem pairwise_orderedInsert {l : List (Nat × Nat)} (h : l.Pairwise fun e f => e.2 ≤ f.2)
    (e : Nat × Nat) : (l.orderedInsert (fun e f => e.2 < f.2) e).Pairwise fun e f => e.2 ≤ f.2 := by
  induction l with
  | nil => exact List.pairwise_singleton _ _
  | cons f l ih =>
    obtain ⟨hf, hl⟩ := List.pairwise_cons.mp h
    rw [List.orderedInsert_cons]
    split
    · next hlt =>
      refine List.pairwise_cons.mpr ⟨fun g hg => ?_, h⟩
      rcases List.mem_cons.mp hg with rfl | hg
      · exact Nat.le_of_lt hlt
      · exact (Nat.le_of_lt hlt).trans (hf g hg)
    · next hge =>
      refine List.pairwise_cons.mpr ⟨fun g hg => ?_, ih hl⟩
      rcases (List.mem_orderedInsert _).mp hg with rfl | hg
      · exact Nat.le_of_not_lt hge
      · exact hf g hg

/-- The expired timers come first. -/
theorem takeWhile_eq_filter {l : List (Nat × Nat)} (h : l.Pairwise fun e f => e.2 ≤ f.2) (now : Nat) :
    l.takeWhile (fun e => e.2 < now) = l.filter (fun e => e.2 < now) ∧
      l.dropWhile (fun e => e.2 < now) = l.filter (fun e => now ≤ e.2) := by
  induction l with
  | nil => exact ⟨rfl, rfl⟩
  | cons e l ih =>
    obtain ⟨he, hl⟩ := List.pairwise_cons.mp h
    by_cases hlt : e.2 < now
    · simp [hlt, ih hl]
    · have hle : ∀ f ∈ e :: l, now ≤ f.2 := by
        refine List.forall_mem_cons.mpr ⟨Nat.le_of_not_lt hlt, fun f hf => ?_⟩
        exact (Nat.le_of_not_lt hlt).trans (he f hf)
      refine ⟨?_, ?_⟩
      · rw [List.takeWhile_cons_of_neg (by simpa using hlt), eq_comm, List.filter_eq_nil_iff]
        intro f hf
        simpa using hle f hf
      · rw [List.dropWhile_cons_of_neg (by simpa using hlt), eq_comm, List.filter_eq_self]
        intro f hf
        simpa using hle f hf

theorem watchdog_timers (h : s.timers.Pairwise fun e f => e.2 ≤ f.2) :
    s.watchdog.timers = s.timers.filter fun e => s.now ≤ e.2 := by
  unfold RpcServer.watchdog
  dsimp only
  rw [foldl_close_eq]
  exact (takeWhile_eq_filter h s.now).2

/-- The table has the deadlines of the connections `live` whose sockets are open, and of no others. -/
structure Timed (live : List Nat) (s : RpcServer) : Prop where
  sorted : s.timers.Pairwise fun e f => e.2 ≤ f.2
  unique : (s.timers.map Prod.fst).Nodup
  entries : ∀ e ∈ s.timers, e.1 ∈ live ∧ e.2 = (s.conn e.1).began + timeout
  guarded : ∀ c ∈ live, (s.conn c).isOpen = true → c ∈ s.timers.map Prod.fst

namespace Timed

variable {live : List Nat}

theorem congr (h : Timed live s) {live' : List Nat} (hlive : ∀ c, c ∈ live' ↔ c ∈ live)
    (htimers : t.timers = s.timers) (hbegan : ∀ c, (t.conn c).began = (s.conn c).began)
    (hopen : ∀ c, (t.conn c).isOpen = (s.conn c).isOpen) : Timed live' t := by
  refine ⟨htimers ▸ h.sorted, htimers ▸ h.unique, fun e he => ?_, fun c hc ho => ?_⟩
  · rw [htimers] at he
    rw [hlive, hbegan]
    exact h.entries e he
  · rw [hopen] at ho
    rw [htimers]
    exact h.guarded c ((hlive c).mp hc) ho

/-- A connection that is over has no timer. -/
theorem cancel (h : Timed (c :: live) s) (hc : c ∉ live) : Timed live (s.cancelTimer c) := by
  refine ⟨h.sorted.filter _, h.unique.sublist (List.filter_sublist.map _), fun e he => ?_,
    fun d hd ho => ?_⟩
  · obtain ⟨he, hne⟩ := List.mem_filter.mp he
    obtain ⟨hmem, htime⟩ := h.entries e he
    exact ⟨(List.mem_cons.mp hmem).resolve_left (of_decide_eq_true hne), htime⟩
  · obtain ⟨e, he, rfl⟩ := List.mem_map.mp (h.guarded d (List.mem_cons_of_mem _ hd) ho)
    have hne : e.1 ≠ c := by
      rintro rfl
      exact hc hd
    exact List.mem_map.mpr ⟨e, List.mem_filter.mpr ⟨he, decide_eq_true hne⟩, rfl⟩

/-- The timer of a connection that has none yet. -/
theorem add (h : Timed live s) (hc : c ∉ live) (hlt : c < s.conns.length) :
    Timed (c :: live)
      ((s.setConn c fun x => { x with began := s.now }).addTimer c (s.now + timeout)) := by
  have hnone : c ∉ s.timers.map Prod.fst := by
    intro hmem
    obtain ⟨e, he, rfl⟩ := List.mem_map.mp hmem
    exact hc (h.entries e he).1
  have hopen : ∀ d, ((s.setConn c fun x => { x with began := s.now }).conn d).isOpen =
      (s.conn d).isOpen := conn_setConn_keep RpcConnection.isOpen fun _ => rfl
  have heq : (s.setConn c fun x => { x with began := s.now }).addTimer c (s.now + timeout) =
      { s.setConn c fun x => { x with began := s.now } with
        timers := s.timers.orderedInsert (fun e f => e.2 < f.2) (c, s.now + timeout) } := if_neg hnone
  rw [heq]
  refine ⟨pairwise_orderedInsert h.sorted _, ?_, fun e he => ?_, fun d hd ho => ?_⟩
  · have hperm := (s.timers.perm_orderedInsert (fun e f => e.2 < f.2) (c, s.now + timeout)).map
      Prod.fst
    exact hperm.nodup_iff.mpr (List.nodup_cons.mpr ⟨hnone, h.unique⟩)
  · rcases (List.mem_orderedInsert _).mp he with rfl | he
    · refine ⟨List.mem_cons_self, ?_⟩
      show s.now + timeout = ((s.setConn c fun x => { x with began := s.now }).conn c).began + timeout
      rw [conn_setConn_self hlt]
    · obtain ⟨hmem, htime⟩ := h.entries e he
      have hne : e.1 ≠ c := by
        rintro rfl
        exact hc hmem
      refine ⟨List.mem_cons_of_mem _ hmem, htime.trans ?_⟩
      show _ = ((s.setConn c fun x => { x with began := s.now }).conn e.1).began + timeout
      rw [conn_setConn_ne hne]
  · refine List.mem_map.mpr ?_
    by_cases hd' : d = c
    · exact ⟨(c, s.now + timeout), (List.mem_orderedInsert _).mpr (.inl rfl), hd'.symm⟩
    · have ho : (s.conn d).isOpen = true := (hopen d).symm.trans ho
      obtain ⟨e, he, hed⟩ := List.mem_map.mp (h.guarded d (List.mem_of_ne_of_mem hd' hd) ho)
      exact ⟨e, (List.mem_orderedInsert _).mpr (.inr he), hed⟩

/-- The watchdog closes the sockets whose deadlines are over, and takes their timers out. -/
theorem watchdog (h : Timed live s) (hvalid : ∀ c ∈ live, c < s.conns.length) :
    Timed live s.watchdog ∧ ∀ c, (s.watchdog.conn c).isOpen = true ↔
      (s.conn c).isOpen = true ∧ (c ∈ s.timers.map Prod.fst → s.now ≤ (s.conn c).began + timeout) := by
  obtain ⟨htake, -⟩ := takeWhile_eq_filter h.sorted s.now
  have hmem : ∀ c, c ∈ (s.timers.filter fun e => e.2 < s.now).map Prod.fst ↔
      c ∈ s.timers.map Prod.fst ∧ ¬ s.now ≤ (s.conn c).began + timeout := by
    intro c
    constructor
    · intro hc
      obtain ⟨e, he, rfl⟩ := List.mem_map.mp hc
      obtain ⟨he, hlt⟩ := List.mem_filter.mp he
      refine ⟨List.mem_map_of_mem he, ?_⟩
      rw [← (h.entries e he).2]
      simpa using hlt
    · rintro ⟨hc, hlt⟩
      obtain ⟨e, he, rfl⟩ := List.mem_map.mp hc
      rw [← (h.entries e he).2] at hlt
      exact List.mem_map_of_mem (List.mem_filter.mpr ⟨he, by simpa using hlt⟩)
  have hopen : ∀ c, (s.watchdog.conn c).isOpen = true ↔
      (s.conn c).isOpen = true ∧
        (c ∈ s.timers.map Prod.fst → s.now ≤ (s.conn c).began + timeout) := by
    intro c
    unfold RpcServer.watchdog
    dsimp only
    rw [htake, foldl_close_isOpen, hmem]
    · show _ ∧ ¬ (_ ∧ _) ↔ _
      rw [not_and_not_right]
      rfl
    · intro d hd
      obtain ⟨e, he, rfl⟩ := List.mem_map.mp hd
      exact hvalid _ (h.entries e (List.mem_filter.mp he).1).1
  have htimers := watchdog_timers h.sorted
  have hbegan : ∀ c, (s.watchdog.conn c).began = (s.conn c).began :=
    foldl_close_keep RpcConnection.began (fun _ => rfl) _ _
  refine ⟨⟨?_, ?_, fun e he => ?_, fun c hc ho => ?_⟩, hopen⟩
  · rw [htimers]
    exact h.sorted.filter _
  · rw [htimers]
    exact h.unique.sublist (List.filter_sublist.map _)
  · rw [htimers] at he
    rw [hbegan]
    exact h.entries e (List.mem_filter.mp he).1
  · obtain ⟨ho, hdeadline⟩ := (hopen c).mp ho
    have hmem := h.guarded c hc ho
    obtain ⟨e, he, rfl⟩ := List.mem_map.mp hmem
    rw [htimers]
    refine List.mem_map_of_mem (List.mem_filter.mpr ⟨he, ?_⟩)
    rw [(h.entries e he).2]
    exact decide_eq_true (hdeadline hmem)

end Timed

/-! ## Who has a connection -/

/-- The connections `hands` are in the hands of the handler that runs; the others that are not over are
in one place each. -/
structure Held (hands : List Nat) (s : RpcServer) : Prop where
  nodup : (hands ++ s.owners).Nodup
  valid : ∀ c ∈ hands ++ s.owners, c < s.conns.length
  running : s.processor = .running → ∃ c, s.rpcData = some c
  waits : s.processor = .waiting → s.taskQueue = []
  fifo : s.queued = s.taken ++ s.taskQueue
  timed : Timed (hands ++ s.owners) s

namespace Held

theorem nil : Held [] {} :=
  ⟨List.nodup_nil, List.forall_mem_nil _, nofun, fun _ => rfl, rfl,
    ⟨.nil, List.nodup_nil, List.forall_mem_nil _, List.forall_mem_nil _⟩⟩

/-- Connections go from one hand to another. -/
theorem move (h : Held hands s) {hands' : List Nat}
    (howners : (hands' ++ t.owners).Perm (hands ++ s.owners)) (hconns : t.conns = s.conns)
    (htimers : t.timers = s.timers) (hrunning : t.processor = .running → ∃ c, t.rpcData = some c)
    (hwaits : t.processor = .waiting → t.taskQueue = []) (hfifo : t.queued = t.taken ++ t.taskQueue) :
    Held hands' t := by
  have hconn : ∀ c, t.conn c = s.conn c := fun c => by rw [conn, conn, hconns]
  refine ⟨howners.nodup_iff.mpr h.nodup, fun c hc => ?_, hrunning, hwaits, hfifo, ?_⟩
  · rw [hconns]
    exact h.valid c (howners.mem_iff.mp hc)
  · exact h.timed.congr (fun c => howners.mem_iff) htimers (fun c => by rw [hconn])
      fun c => by rw [hconn]

theorem setConn (h : Held hands s) (c : Nat) {f : RpcConnection → RpcConnection}
    (hbegan : ∀ x, (f x).began = x.began) (hopen : ∀ x, (f x).isOpen = x.isOpen) :
    Held hands (s.setConn c f) := by
  refine ⟨h.nodup, fun d hd => ?_, h.running, h.waits, h.fifo, ?_⟩
  · rw [length_setConn]
    exact h.valid d hd
  · exact h.timed.congr (fun _ => Iff.rfl) rfl (conn_setConn_keep RpcConnection.began hbegan)
      (conn_setConn_keep RpcConnection.isOpen hopen)

theorem transfer (h : Held [c] s) (stage : RpcStage) : Held [] (s.transfer c stage) :=
  h.move (owners_transfer stage) rfl rfl h.running h.waits h.fifo

theorem enqueue (h : Held [c] s) : Held [] (s.enqueue c) := by
  refine h.move owners_enqueue rfl rfl (fun hp => ?_) (fun hp => ?_) ?_
  · refine h.running ?_
    unfold RpcServer.enqueue at hp
    dsimp only at hp
    split at hp
    · cases hp
    · exact hp
  · unfold RpcServer.enqueue at hp
    dsimp only at hp
    split at hp
    · cases hp
    · next hne => exact absurd hp hne
  · show s.queued ++ [c] = s.taken ++ (s.taskQueue ++ [c])
    rw [h.fifo, List.append_assoc]

/-- An operation completes. -/
theorem complete (h : Held [] s) {k : Nat} {op : ServerOp} (hop : s.outstanding[k]? = some op) :
    Held [op.conn] { s with outstanding := s.outstanding.eraseIdx k } := by
  refine h.move ?_ rfl rfl h.running h.waits h.fifo
  obtain ⟨hk, hget⟩ := List.getElem?_eq_some_iff.mp hop
  have hperm : (op.conn :: (s.outstanding.eraseIdx k).map ServerOp.conn).Perm
      (s.outstanding.map ServerOp.conn) := by
    have := (List.getElem_cons_eraseIdx_perm hk).map ServerOp.conn
    rwa [hget] at this
  exact hperm.append_right _

/-- The connection is over. -/
theorem leave (h : Held [c] s) : Held [] (s.cancelTimer c) := by
  obtain ⟨hc, hnodup⟩ := List.nodup_cons.mp h.nodup
  exact ⟨hnodup, fun d hd => h.valid d (List.mem_cons_of_mem _ hd), h.running, h.waits, h.fifo,
    h.timed.cancel hc⟩

/-- `handle_connection`, for a connection that nobody has. -/
theorem handleConnection (h : Held [] s) (hc : c ∉ s.owners) (hlt : c < s.conns.length) :
    Held [] (s.handleConnection c) := by
  have htimed := h.timed.add hc hlt
  obtain ⟨r, hr⟩ : ∃ r, r = (s.setConn c fun x => { x with began := s.now }).addTimer c
    (s.now + timeout) := ⟨_, rfl⟩
  have hframe := hr.trans (addTimer_eq _ _)
  have howners : r.owners = s.owners := by
    rw [hframe]
    rfl
  rw [← hr] at htimed hframe
  have hheld : Held [c] r := by
    refine ⟨?_, fun d hd => ?_, ?_, ?_, ?_, ?_⟩
    · rw [howners]
      exact List.nodup_cons.mpr ⟨hc, h.nodup⟩
    · have hlen : r.conns.length = s.conns.length := by
        rw [hframe]
        exact length_setConn _
      rw [howners] at hd
      rw [hlen]
      rcases List.mem_cons.mp hd with rfl | hd
      · exact hlt
      · exact h.valid d hd
    · rw [hframe]
      exact h.running
    · rw [hframe]
      exact h.waits
    · rw [hframe]
      exact h.fifo
    · rw [howners]
      exact htimed
  have heq : s.handleConnection c = r.transfer c .header := by
    rw [hr]
    rfl
  rw [heq]
  exact hheld.transfer .header

theorem handleParams (h : Held [c] s) (index : Nat) : Held [] (s.handleParams c index) := by
  unfold RpcServer.handleParams
  split
  · exact h.transfer _
  · exact h.enqueue

theorem handleAnswer (h : Held [c] s) (index : Nat) : Held [] (s.handleAnswer c index) := by
  unfold RpcServer.handleAnswer
  dsimp only
  split
  · refine transfer (setConn h c ?_ ?_) _
    · exact fun _ => rfl
    · exact fun _ => rfl
  · exact h.leave.handleConnection (List.nodup_cons.mp h.nodup).1 (h.valid c List.mem_cons_self)

theorem handle (h : Held [c] s) (lookup : UInt32 → Option CallbackKind) {stage : RpcStage}
    (ht : s.handle lookup c stage = some t) : Held [] t := by
  have hread : ∀ rest, Held [c] (s.read c rest) := fun _ => h.setConn c (fun _ => rfl) fun _ => rfl
  have hwrite : ∀ bytes, Held [c] (s.write c bytes) := fun _ => h.setConn c (fun _ => rfl) fun _ => rfl
  cases stage with
  | header =>
    obtain ⟨⟨header, rest⟩, -, rfl⟩ := Option.map_eq_some_iff.mp ht
    dsimp only
    unfold handleHeader
    split
    · refine handleParams (setConn (hread rest) c ?_ ?_) 0
      · exact fun _ => rfl
      · exact fun _ => rfl
    · refine leave (setConn (hread rest) c ?_ ?_)
      · exact fun _ => rfl
      · exact fun _ => rfl
  | paramSize index =>
    obtain ⟨⟨psize, rest⟩, -, rfl⟩ := Option.map_eq_some_iff.mp ht
    refine transfer (setConn (hread rest) c ?_ ?_) _
    · exact fun _ => rfl
    · exact fun _ => rfl
  | paramBuffer index =>
    obtain ⟨⟨buffer, rest⟩, -, rfl⟩ := Option.map_eq_some_iff.mp ht
    refine handleParams (setConn (hread rest) c ?_ ?_) _
    · exact fun _ => rfl
    · exact fun _ => rfl
  | answer =>
    cases ht
    exact (hwrite _).handleAnswer 0
  | answerSize index =>
    cases ht
    exact (hwrite _).transfer _
  | answerBuffer index =>
    cases ht
    exact (hwrite _).handleAnswer _

/-- The front of the queue goes to the processor, which has nothing else. -/
theorem dequeue (h : Held [] s) (hidle : s.busy = []) : Held [] s.dequeue := by
  unfold RpcServer.dequeue
  split
  · next c tasks htasks =>
    refine h.move ?_ rfl rfl (fun _ => ⟨c, rfl⟩) nofun ?_
    · rw [List.nil_append, List.nil_append, owners, owners, htasks, hidle, List.append_nil]
      exact List.perm_append_comm.append_left (s.outstanding.map ServerOp.conn)
    · show s.queued = s.taken ++ [c] ++ tasks
      rw [h.fifo, htasks, List.append_assoc]
      rfl
  · exact h.move (List.Perm.refl _) rfl rfl h.running h.waits h.fifo

theorem finish (h : Held [] s) (hrunning : s.processor = .running) (hc : s.rpcData = some c)
    (status : Int32) (result : List Rpc.Buffer) : Held [] (s.finish c status result) := by
  have hbusy : s.busy = [c] := by
    rw [busy, if_pos hrunning, hc]
    rfl
  have howners : s.owners = s.outstanding.map ServerOp.conn ++ (s.taskQueue ++ [c]) := by
    rw [owners, hbusy]
  have hfree : Held [c] { s with processor := .free } := by
    refine h.move ?_ rfl rfl nofun nofun h.fifo
    rw [List.nil_append, howners]
    show (c :: (s.outstanding.map ServerOp.conn ++ (s.taskQueue ++ []))).Perm _
    rw [List.append_nil, ← List.append_assoc]
    exact (List.perm_append_singleton c _).symm
  refine transfer (setConn hfree c ?_ ?_) .answer
  · exact fun _ => rfl
  · exact fun _ => rfl

/-- A new connection. -/
theorem accept (h : Held [] s) : Held [] { s with conns := s.conns ++ [({} : RpcConnection)] } := by
  refine ⟨h.nodup, fun c hc => ?_, h.running, h.waits, h.fifo, ?_⟩
  · rw [List.length_append]
    exact Nat.lt_add_right _ (h.valid c hc)
  · exact h.timed.congr (fun _ => Iff.rfl) rfl (fun c => by rw [conn_accept]) fun c => by rw [conn_accept]

theorem watchdog (h : Held [] s) : Held [] s.watchdog := by
  have htimed := (h.timed.watchdog h.valid).1
  have howners : s.watchdog.owners = s.owners := by
    rw [watchdog_eq]
    rfl
  refine ⟨?_, fun c hc => ?_, ?_, ?_, ?_, ?_⟩
  · rw [howners]
    exact h.nodup
  · rw [howners] at hc
    rw [watchdog_length]
    exact h.valid c hc
  · rw [watchdog_eq]
    exact h.running
  · rw [watchdog_eq]
    exact h.waits
  · rw [watchdog_eq]
    exact h.fifo
  · rw [howners]
    exact htimed

theorem step (h : Held [] s) {e : ServerEvent} (hstep : step lookup s e = some t) : Held [] t := by
  unfold RpcServer.step at hstep
  split at hstep
  · cases hstep
  cases e with
  | accept error =>
    cases hstep
    unfold handleAccept
    split
    · exact h
    · refine h.accept.handleConnection (fun hc => Nat.lt_irrefl _ (h.valid _ hc)) ?_
      rw [List.length_append]
      exact Nat.lt_succ_self _
  | receive c bytes =>
    simp only [Option.ite_none_right_eq_some, Option.some.injEq] at hstep
    obtain ⟨-, rfl⟩ := hstep
    refine setConn h c ?_ ?_
    · exact fun _ => rfl
    · exact fun _ => rfl
  | complete k =>
    dsimp only at hstep
    cases hop : s.outstanding[k]? with
    | none =>
      rw [hop] at hstep
      cases hstep
    | some op =>
      rw [hop] at hstep
      simp only [Option.ite_none_right_eq_some] at hstep
      exact (h.complete hop).handle lookup hstep.2
  | fail k n =>
    dsimp only at hstep
    cases hop : s.outstanding[k]? with
    | none =>
      rw [hop] at hstep
      cases hstep
    | some op =>
      rw [hop] at hstep
      cases hstep
      refine leave (setConn (h.complete hop) op.conn ?_ ?_)
      · exact fun _ => rfl
      · exact fun _ => rfl
  | take =>
    dsimp only at hstep
    cases hp : s.processor with
    | free =>
      rw [hp] at hstep
      dsimp only at hstep
      have hbusy : s.busy = [] := by
        rw [busy, if_neg (by rw [hp]; exact nofun)]
      split at hstep
      · next hempty =>
        cases hstep
        refine h.move ?_ rfl rfl nofun (fun _ => hempty) h.fifo
        rw [owners, owners, hbusy]
        exact List.Perm.refl _
      · cases hstep
        exact h.dequeue hbusy
    | woken =>
      rw [hp] at hstep
      cases hstep
      refine h.dequeue ?_
      rw [busy, if_neg (by rw [hp]; exact nofun)]
    | waiting =>
      rw [hp] at hstep
      cases hstep
    | running =>
      rw [hp] at hstep
      cases hstep
  | spurious =>
    simp only [Option.ite_none_right_eq_some, Option.some.injEq] at hstep
    obtain ⟨hp, rfl⟩ := hstep
    refine h.move ?_ rfl rfl nofun nofun h.fifo
    have hbusy : s.busy = [] := by
      rw [busy, if_neg (by rw [hp]; exact nofun)]
    rw [owners, owners, hbusy]
    exact List.Perm.refl _
  | finish status result =>
    dsimp only at hstep
    split at hstep
    · next hp hc =>
      split at hstep
      · cases hstep
      · cases hstep
        exact h.finish hp hc status result
    · cases hstep
  | throws =>
    dsimp only at hstep
    split at hstep
    · cases hstep
      exact h.move (List.Perm.refl _) rfl rfl h.running h.waits h.fifo
    · cases hstep
  | noEndpoint =>
    dsimp only at hstep
    split at hstep
    · split at hstep
      · cases hstep
        exact h.move (List.Perm.refl _) rfl rfl h.running h.waits h.fifo
      · cases hstep
    · cases hstep
  | clock now =>
    cases hstep
    exact h.move (List.Perm.refl _) rfl rfl h.running h.waits h.fifo
  | watchdog =>
    cases hstep
    exact h.watchdog

theorem run {events : List ServerEvent} (h : Run (RpcServer.step lookup) (fun _ _ => True) {} events s) :
    Held [] s := h.inv (fun hs _ hstep => hs.step hstep) .nil

end Held

/-- Every connection is in one hand, and requests go through the queue in order. The processor does not
wait when there is one, and the sockets of connections that are over are in no table. -/
structure Exclusive (s : RpcServer) : Prop where
  nodup : s.owners.Nodup
  fifo : s.queued = s.taken ++ s.taskQueue
  waits : s.processor = .waiting → s.taskQueue = []
  released : ∀ c ∈ s.timers.map Prod.fst, c ∈ s.owners

/-- **Ownership.** In every run the threads never have the same connection at once. -/
theorem exclusive {events : List ServerEvent}
    (h : Run (step lookup) (fun _ _ => True) {} events s) : s.Exclusive := by
  have hheld := Held.run h
  refine ⟨hheld.nodup, hheld.fifo, hheld.waits, fun c hc => ?_⟩
  obtain ⟨e, he, rfl⟩ := List.mem_map.mp hc
  exact (hheld.timed.entries e he).1

/-- While the second request is being processed and the first one is being read. -/
theorem exclusive_two_connections :
    ∃ s, Run (step lookupOne) (fun _ _ => True) {} (twoConnections.take 9) s ∧ s.Exclusive ∧
      s.owners = [0, 1] ∧ s.taken = [1] := by
  have h : Run (step lookupOne) (fun _ _ => True) {} (twoConnections.take 9) _ :=
    Run.of_isSome {} (by decide +kernel)
  exact ⟨_, h, exclusive h, by decide +kernel, by decide +kernel⟩

/-! ## Faults -/

/-- `wait` does not return by itself, no callback throws, and the addresses of senders can be had. -/
def Calm : ServerEvent → Prop
  | .spurious | .throws | .noEndpoint => False
  | _ => True

instance : DecidablePred Calm := fun e =>
  match e with
  | .spurious | .throws | .noEndpoint => .isFalse id
  | .accept _ | .receive _ _ | .complete _ | .fail _ _ | .take | .finish _ _ | .clock _ | .watchdog =>
    .isTrue trivial

/-- A processor that was woken up finds a request. -/
structure Awake (s : RpcServer) : Prop where
  woken : s.processor = .woken → s.taskQueue ≠ []
  defined : s.fault = false

namespace Awake

theorem enqueue (h : Awake s) (c : Nat) : Awake (s.enqueue c) :=
  ⟨fun _ => List.append_ne_nil_of_right_ne_nil _ (List.cons_ne_nil _ _), h.defined⟩

theorem handleConnection (h : Awake s) (c : Nat) : Awake (s.handleConnection c) := by
  have heq : Awake ((s.setConn c fun x => { x with began := s.now }).addTimer c (s.now + timeout)) := by
    rw [addTimer_eq]
    exact ⟨h.woken, h.defined⟩
  exact ⟨heq.woken, heq.defined⟩

theorem handleParams (h : Awake s) (c index : Nat) : Awake (s.handleParams c index) := by
  unfold RpcServer.handleParams
  split
  · exact ⟨h.woken, h.defined⟩
  · exact h.enqueue c

theorem handleAnswer (h : Awake s) (c index : Nat) : Awake (s.handleAnswer c index) := by
  unfold RpcServer.handleAnswer
  dsimp only
  split
  · exact ⟨h.woken, h.defined⟩
  · apply handleConnection
    exact ⟨h.woken, h.defined⟩

theorem handle (h : Awake s) {stage : RpcStage} (ht : s.handle lookup c stage = some t) : Awake t := by
  cases stage with
  | header =>
    obtain ⟨⟨header, rest⟩, -, rfl⟩ := Option.map_eq_some_iff.mp ht
    dsimp only
    unfold handleHeader
    split
    · apply handleParams
      exact ⟨h.woken, h.defined⟩
    · exact ⟨h.woken, h.defined⟩
  | paramSize index =>
    obtain ⟨⟨psize, rest⟩, -, rfl⟩ := Option.map_eq_some_iff.mp ht
    exact ⟨h.woken, h.defined⟩
  | paramBuffer index =>
    obtain ⟨⟨buffer, rest⟩, -, rfl⟩ := Option.map_eq_some_iff.mp ht
    apply handleParams
    exact ⟨h.woken, h.defined⟩
  | answer =>
    cases ht
    apply handleAnswer
    exact ⟨h.woken, h.defined⟩
  | answerSize index =>
    cases ht
    exact ⟨h.woken, h.defined⟩
  | answerBuffer index =>
    cases ht
    apply handleAnswer
    exact ⟨h.woken, h.defined⟩

theorem dequeue (h : Awake s) (hne : s.taskQueue ≠ []) : Awake s.dequeue := by
  unfold RpcServer.dequeue
  split
  · exact ⟨nofun, h.defined⟩
  · next hempty => exact absurd hempty hne

theorem step (h : Awake s) {e : ServerEvent} (he : Calm e) (hstep : step lookup s e = some t) :
    Awake t := by
  unfold RpcServer.step at hstep
  split at hstep
  · cases hstep
  cases e with
  | accept error =>
    cases hstep
    unfold handleAccept
    split
    · exact h
    · apply handleConnection
      exact ⟨h.woken, h.defined⟩
  | receive c bytes =>
    simp only [Option.ite_none_right_eq_some, Option.some.injEq] at hstep
    obtain ⟨-, rfl⟩ := hstep
    exact ⟨h.woken, h.defined⟩
  | complete k =>
    dsimp only at hstep
    split at hstep
    · split at hstep
      · have hframe : Awake { s with outstanding := s.outstanding.eraseIdx k } := ⟨h.woken, h.defined⟩
        exact hframe.handle hstep
      · cases hstep
    · cases hstep
  | fail k n =>
    dsimp only at hstep
    split at hstep
    · cases hstep
      exact ⟨h.woken, h.defined⟩
    · cases hstep
  | take =>
    dsimp only at hstep
    split at hstep
    · split at hstep
      · cases hstep
        exact ⟨nofun, h.defined⟩
      · next hne =>
        cases hstep
        exact h.dequeue hne
    · next hp =>
      cases hstep
      exact h.dequeue (h.woken hp)
    · cases hstep
  | spurious => cases he
  | finish status result =>
    dsimp only at hstep
    split at hstep
    · split at hstep
      · cases hstep
      · cases hstep
        exact ⟨nofun, h.defined⟩
    · cases hstep
  | throws => cases he
  | noEndpoint => cases he
  | clock now =>
    cases hstep
    exact ⟨h.woken, h.defined⟩
  | watchdog =>
    cases hstep
    rw [watchdog_eq]
    exact ⟨h.woken, h.defined⟩

end Awake

/-- Nothing goes wrong, and a request that waits is the next one for the processor as soon as it has no
other. -/
structure Serviced (lookup : UInt32 → Option CallbackKind) (s : RpcServer) : Prop where
  defined : s.fault = false
  next : ∀ c tasks, s.taskQueue = c :: tasks → s.processor ≠ .running →
    ∃ t, step lookup s .take = some t ∧ t.rpcData = some c ∧ t.processor = .running ∧
      t.taskQueue = tasks

/-- **The queue.** Without wakeups that nobody has caused, callbacks that throw and lost senders, the
processor never takes a request out of an empty queue, and never misses one. -/
theorem serviced {events : List ServerEvent} (h : Run (step lookup) (fun _ e => Calm e) {} events s) :
    s.Serviced lookup := by
  have hawake : Awake s := h.inv (fun hs he hstep => hs.step he hstep) ⟨nofun, rfl⟩
  have hheld := Held.run (h.mono fun _ _ _ => trivial)
  refine ⟨hawake.defined, fun c tasks htasks hp => ?_⟩
  have hne : s.taskQueue ≠ [] := by
    rw [htasks]
    exact List.cons_ne_nil _ _
  refine ⟨s.dequeue, ?_, ?_⟩
  · unfold step
    rw [if_neg (by rw [hawake.defined]; exact Bool.false_ne_true)]
    cases hprocessor : s.processor with
    | free => exact if_neg hne
    | waiting => exact absurd (hheld.waits hprocessor) hne
    | woken => rfl
    | running => exact absurd hprocessor hp
  · unfold dequeue
    rw [htasks]
    exact ⟨rfl, rfl, rfl⟩

/-- The processor, which has waited, takes the second request. -/
theorem serviced_two_connections :
    ∃ s, Run (step lookupOne) (fun _ e => Calm e) {} (twoConnections.take 8) s ∧
      s.Serviced lookupOne ∧ s.processor = .woken ∧ s.taskQueue = [1] := by
  have h : Run (step lookupOne) (fun _ e => Calm e) {} (twoConnections.take 8) _ :=
    Run.of_isSome {} (by decide +kernel)
  exact ⟨_, h, serviced h, by decide +kernel, by decide +kernel⟩

/-- A wakeup that nobody has caused is enough for a fault, and so is a callback that throws. -/
example : ((exec (step fun _ => none) (fun _ _ => True) {} [.take, .spurious, .take]).map
    RpcServer.fault) = some true := by decide

example : ((exec (step lookupOne) (fun _ _ => True) {} (twoConnections.take 9 ++ [.throws])).map
    RpcServer.fault) = some true := by decide +kernel

/-! ## Deadlines -/

/-- After a round of the watchdog, the open connections that are not over are those that were open and
have the rest of the 30 seconds left since their request began. Connections that are over stay as they
were, the table keeps exactly the timers that have not run out, and nothing else has changed: the
operations that are outstanding end by themselves. -/
structure Expires (s t : RpcServer) : Prop where
  isOpen : ∀ c, (t.conn c).isOpen = true ↔
    (s.conn c).isOpen = true ∧ (c ∈ s.owners → s.now ≤ (s.conn c).began + timeout)
  kept : ∀ c, t.conn c = { s.conn c with isOpen := (t.conn c).isOpen }
  timers : t.timers = s.timers.filter fun e => s.now ≤ (s.conn e.1).began + timeout
  frame : t = { s with conns := t.conns, timers := t.timers }

/-- **Deadlines.** In every run, a round of the watchdog closes exactly the connections whose current
request has taken too long. -/
theorem expires {events : List ServerEvent} (h : Run (step lookup) (fun _ _ => True) {} events s)
    (hstep : step lookup s .watchdog = some t) : s.Expires t := by
  have hheld := Held.run h
  have ht : t = s.watchdog := by
    unfold step at hstep
    split at hstep
    · cases hstep
    · cases hstep
      rfl
  subst ht
  refine ⟨fun c => ?_, fun c => ?_, ?_, watchdog_eq⟩
  · rw [(hheld.timed.watchdog hheld.valid).2 c]
    refine and_congr_right fun ho => ?_
    constructor
    · exact fun hdeadline hc => hdeadline (hheld.timed.guarded c hc ho)
    · intro hdeadline hc
      obtain ⟨e, he, rfl⟩ := List.mem_map.mp hc
      exact hdeadline (hheld.timed.entries e he).1
  · exact watchdog_conn c
  · rw [watchdog_timers hheld.timed.sorted]
    exact List.filter_congr fun e he => by rw [(hheld.timed.entries e he).2]

/-- The first request was read and answered, and the next one does not come. -/
theorem expires_two_connections :
    ∃ s t, Run (step lookupOne) (fun _ _ => True) {} (twoConnections ++ [.clock (6 + timeout)]) s ∧
      step lookupOne s .watchdog = some t ∧ s.Expires t ∧ (s.conn 0).isOpen = true ∧
      (t.conn 0).isOpen = false := by
  have h : Run (step lookupOne) (fun _ _ => True) {} (twoConnections ++ [.clock (6 + timeout)]) _ :=
    Run.of_isSome {} (by decide +kernel)
  exact ⟨_, _, h, eq_some_getD {} (by decide +kernel),
    expires h (eq_some_getD {} (by decide +kernel)), by decide +kernel, by decide +kernel⟩

end RpcServer

end BlobSeer
