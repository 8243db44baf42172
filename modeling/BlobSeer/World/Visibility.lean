import BlobSeer.World.Steps

/-!
# When acknowledged writes become visible

The version manager publishes in the order of the tickets. A write whose `exec_write` returned
`true` is therefore visible exactly when the publish of every smaller ticket has been accepted
(`acknowledged_visible_iff`): one client that stops between its ticket and its publish hides all
later writes of the blob for good, since no step takes a ticket back (`crash_hides_write`).
Nothing is assumed here about where the writes are.
-/

namespace BlobSeer

open Lib
open VManagement (assigned ticket)

namespace World

/-- Fewer than `2 ^ 32` tickets on every blob. -/
def FewTickets (w : World) : Action → Prop
  | .ticket range append _ => TicketsFit w.hist (.getTicket range append)
  | _ => True

instance (w : World) (a : Action) : Decidable (w.FewTickets a) :=
  match a with
  | .ticket range append _ => inferInstanceAs (Decidable (TicketsFit w.hist (.getTicket range append)))
  | .create .. | .clone .. | .put .. | .get .. | .wait .. | .publish .. | .stop .. => .isTrue trivial

/-- The tasks of a blob are its tickets in order, and a write that returned `true` has been
published. -/
structure Tracked (w : World) : Prop where
  run : ∃ reqs, Run VmHistory.step TicketsFit {} reqs w.hist
  count : ∀ id, (w.tasks id).length = (w.hist.issued id).length
  query : ∀ {id t : Nat} {T : Task}, (w.tasks id)[t]? = some T →
    T.query.id = id ∧ T.query.version = t + 1
  returned : ∀ {id t : Nat} {T : Task}, (w.tasks id)[t]? = some T →
    T.state = .returned true → t + 1 ∈ w.hist.published id

namespace Tracked

variable {w : World}

theorem empty : Tracked {} :=
  ⟨⟨[], .nil _⟩, fun _ => rfl, fun h => (by cases h), fun h => (by cases h)⟩

/-- A step that changes one task, and possibly the DHT. -/
theorem setTask (h : Tracked w) {id t : Nat} {T : Task} (hT : (w.tasks id)[t]? = some T)
    (T' : Task) (hk : T'.toTicket = T.toTicket)
    (hs : T'.state = .returned true → T.state = .returned true ∨ t + 1 ∈ w.hist.published id)
    (dht : Dht) : Tracked { w.setTask id t T' with dht := dht } := by
  refine ⟨h.run, fun i => ?_, fun {i n S} hS => ?_, fun {i n S} hS hret => ?_⟩
  · exact (setTask_length w id t T' i).trans (h.count i)
  · rcases tasks_set hT hS with ⟨rfl, rfl, rfl⟩ | ⟨hS, -⟩
    · rw [hk]
      exact h.query hT
    · exact h.query hS
  · rcases tasks_set hT hS with ⟨rfl, rfl, rfl⟩ | ⟨hS, -⟩
    · exact (hs hret).elim (h.returned hT) id
    · exact h.returned hS hret

/-- A call of the version manager that issues no ticket. -/
theorem setHist (h : Tracked w) {req : VmRequest} {hist : VmHistory} (hok : TicketsFit w.hist req)
    (hs : w.hist.step req = some hist) (hissued : hist.issued = w.hist.issued)
    (hpub : ∀ id v, v ∈ w.hist.published id → v ∈ hist.published id) :
    Tracked { w with hist := hist } := by
  obtain ⟨reqs, hrun⟩ := h.run
  refine ⟨⟨_, hrun.append (.single hok hs)⟩, fun id => ?_, h.query,
    fun hT hret => hpub _ _ (h.returned hT hret)⟩
  show _ = (hist.issued id).length
  rw [hissued]
  exact h.count id

/-- A ticket that is granted becomes the last task of its blob. -/
theorem ticket (h : Tracked w) {range : Query} {append : Bool} {adv : List ProviderDesc}
    (hok : w.FewTickets (.ticket range append adv)) {w' : World}
    (hs : w.takeTicket range append adv = some w') : Tracked w' := by
  obtain rfl | ⟨o, R, T, hist, ho, hstep, hT, hhist, rfl⟩ := takeTicket_cases hs
  · exact h
  obtain ⟨reqs, hrun⟩ := h.run
  have hw := (VmHistory.window hrun).obj ho
  have hticket : T.toTicket = ticketOf o range append adv R := by
    rw [hT]
    exact Task.start_toTicket _ _ _
  have hstate : T.state ≠ .returned true := by
    rw [hT]
    exact Task.start_state _ _ _
  have hquery : T.query.id = range.id ∧ T.query.version = (w.tasks range.id).length + 1 := by
    rw [hticket, ticketOf_query hw hok, h.count]
    exact ⟨VManagement.assigned_id _ _ _, rfl⟩
  have hfit : TicketsFit w.hist (.getTicket range append) := hok
  refine ⟨⟨_, hrun.append (.single hfit hstep)⟩, fun i => ?_, fun {i n S} hS => ?_,
    fun {i n S} hS hret => ?_⟩
  · show (Function.update w.tasks range.id _ i).length = (hist.issued i).length
    rw [hhist]
    by_cases hi : i = range.id
    · subst hi
      simp [h.count]
    · simp [Function.update_of_ne hi, h.count]
  · rcases tasks_ticket hS with hS | ⟨rfl, rfl, rfl⟩
    · exact h.query hS
    · exact hquery
  · show n + 1 ∈ hist.published i
    have hpub : hist.published = w.hist.published := by rw [hhist]
    rw [hpub]
    rcases tasks_ticket hS with hS | ⟨-, -, rfl⟩
    · exact h.returned hS hret
    · exact absurd hret hstate

end Tracked

/-- A publish request, in the history of the version manager. -/
theorem step_publish {h h' : VmHistory} {q : Query} (hs : h.step (.publish q) = some h') :
    h'.issued = h.issued ∧ (∀ id v, v ∈ h.published id → v ∈ h'.published id) ∧
      ((h.vm.publish q).2 = .ok → q.version ∈ h'.published q.id) := by
  simp only [VmHistory.step, VManagement.exec, Option.some.injEq] at hs
  subst hs
  refine ⟨rfl, fun id v hv => ?_, fun hok => ?_⟩
  · show v ∈ h.recordPublish (.publish q) (h.vm.publish q).2 id
    cases (h.vm.publish q).2 with
    | ok =>
      show v ∈ Function.update h.published q.id (q.version :: h.published q.id) id
      by_cases hi : id = q.id
      · subst hi
        rw [Function.update_self]
        exact List.mem_cons_of_mem _ hv
      · rw [Function.update_of_ne hi]
        exact hv
    | _ => exact hv
  · show q.version ∈ h.recordPublish (.publish q) (h.vm.publish q).2 q.id
    rw [hok]
    simp [VmHistory.recordPublish]

namespace Tracked

variable {w : World}

theorem publish (h : Tracked w) {id t : Nat} {T : Task} {outcome : RpcOutcome}
    (hT : (w.tasks id)[t]? = some T) {w' : World} (hs : w.publish id t outcome T = some w') :
    Tracked w' := by
  obtain ⟨hid, hversion⟩ := h.query hT
  have hfit : TicketsFit w.hist (.publish T.query) := trivial
  have hboth : ∀ {hist : VmHistory} (result : Bool),
      w.hist.step (.publish T.query) = some hist →
      (result = true → (w.hist.vm.publish T.query).2 = .ok) →
      Tracked { w.setTask id t { T with state := .returned result } with hist := hist } := by
    intro hist result hstep hresult
    obtain ⟨hissued, hmono, hown⟩ := step_publish hstep
    have hT1 : Tracked { w with hist := hist } := h.setHist hfit hstep hissued hmono
    refine hT1.setTask hT { T with state := .returned result } rfl (fun hret => .inr ?_) w.dht
    rw [ExecState.returned.injEq] at hret
    have hmem := hown (hresult hret)
    rwa [hid, hversion] at hmem
  obtain ⟨-, ⟨hist, result, hstep, hresult, rfl⟩ | ⟨-, rfl⟩⟩ := publish_cases hs
  · exact hboth result hstep hresult
  · exact h.setTask hT { T with state := .returned false } rfl (fun hr => by cases hr) w.dht

/-- One step. -/
theorem step (h : Tracked w) {a : Action} (hok : w.FewTickets a) {w' : World}
    (hs : w.step a = some w') : Tracked w' := by
  -- the calls of the version manager that make a blob
  have hnew : ∀ {req : VmRequest} {hist : VmHistory}, TicketsFit w.hist req →
      w.hist.recordTicket req = (fun _ => w.hist.issued) →
      w.hist.recordPublish req = (fun _ => w.hist.published) →
      w.hist.step req = some hist → Tracked { w with hist := hist } := by
    intro req hist hfit hissued hpub hstep
    refine h.setHist hfit hstep ?_ ?_ <;> unfold VmHistory.step at hstep <;> split at hstep
    · cases hstep
    · cases hstep
      rw [hissued]
    · cases hstep
    · cases hstep
      intro id v hv
      rw [hpub]
      exact hv
  cases a with
  | create ps rc =>
    obtain ⟨hist, hstep, rfl⟩ := step_create_hist hs
    have hfit : TicketsFit w.hist (.create ps rc) := trivial
    exact hnew hfit rfl rfl hstep
  | clone id version =>
    obtain ⟨hist, hstep, rfl⟩ := step_clone_hist hs
    have hfit : TicketsFit w.hist (.clone id version) := trivial
    exact hnew hfit rfl rfl hstep
  | ticket range append adv => exact h.ticket hok hs
  | put id t i outcome =>
    obtain ⟨T, hT, hs⟩ := step_put hs
    obtain ⟨k, v, -, rfl⟩ := endPut_cases hs
    exact h.setTask hT { T with writer := T.writer.endPut i outcome } rfl .inl _
  | get id t i =>
    obtain ⟨T, hT, -, hs⟩ := step_get hs
    obtain ⟨isLeft, q, -, rfl⟩ := endGet_cases hs
    exact h.setTask hT { T with writer := T.writer.endGet i isLeft q (w.dht q) } rfl .inl w.dht
  | wait id t =>
    obtain ⟨T, hT, -, hs⟩ := step_wait hs
    obtain ⟨writer, -, rfl⟩ := endWait_cases hs
    refine h.setTask hT { T with writer := writer }.settle (Task.settle_eq _).1 ?_ w.dht
    intro hr
    obtain hstate | hstate := Task.settle_state { T with writer := writer }
    · exact .inl (hstate.symm.trans hr)
    · rw [hstate] at hr
      cases hr
  | publish id t outcome =>
    obtain ⟨T, hT, -, hs⟩ := step_send hs
    exact h.publish hT hs
  | stop id t =>
    obtain ⟨T, hT, -, rfl⟩ := step_stop hs
    exact h.setTask hT { T with state := .stopped } rfl (fun hr => by cases hr) w.dht

end Tracked

end World

/-- **Acknowledged writes.** In every state of every run, with clients that stop or fail anywhere,
a version whose `exec_write` returned `true` has been published, and it is in `roots` exactly when
every smaller ticket of the blob has been published too; then `get_root(id, 0)` returns it or a
later version. -/
theorem acknowledged_visible_iff {w : World} {as : List Action}
    (hrun : Run World.step World.FewTickets {} as w) {id t : Nat} {o : ObjInfo}
    (ho : w.hist.vm.objHash id = some o) {T : Task} (hT : (w.tasks id)[t]? = some T)
    (hret : T.state = .returned true) :
    T.query.version ∈ w.hist.published id ∧
      (T.query.version < o.roots.length ↔
        ∀ v, 1 ≤ v → v < T.query.version → v ∈ w.hist.published id) ∧
      (T.query.version < o.roots.length →
        T.query.version ≤ (w.hist.vm.getRoot id 0).node.version) := by
  have h : World.Tracked w := hrun.inv (fun hs hok hstep => hs.step hok hstep) .empty
  obtain ⟨reqs, hvm⟩ := h.run
  have hw := (VmHistory.window hvm).obj ho
  obtain ⟨-, hversion⟩ := h.query hT
  have hpub := h.returned hT hret
  rw [hversion]
  refine ⟨hpub, ?_, ?_⟩
  · rw [hw.mem_roots_iff]
    constructor
    · exact fun hall v h1 h2 => hall v h1 (by omega)
    · intro hall v h1 h2
      rcases Nat.lt_or_ge v (t + 1) with hlt | hge
      · exact hall v h1 hlt
      · have e : v = t + 1 := by omega
        rw [e]
        exact hpub
  · intro hlt
    have hlast := o.lastRoot_eq hw.pending.roots_pos
    have hget : w.hist.vm.getRoot id 0 = o.lastRoot := by
      simp only [VManagement.getRoot, ho, VManagement.rootAt, true_or, if_true]
    rw [hget, hw.pending.rootVersion (by omega) hlast]
    omega

/-- A client takes the first ticket and stops; another one appends a page. -/
def crashedFirst : List Action :=
  [.create 1 1, .ticket ⟨1, 101, 0, 1⟩ false [⟨"a", "1"⟩], .stop 1 0,
    .ticket ⟨1, 102, 0, 1⟩ true [⟨"b", "1"⟩], .put 1 1 0 .acked, .put 1 1 0 .acked, .wait 1 1,
    .put 1 1 0 .acked, .wait 1 1, .publish 1 1 .answered]

/-- The append of `crashedFirst`: it is acknowledged, and it waits for ticket `1`. -/
theorem acknowledged_visible_crashed :
    ∃ w o T, Run World.step World.FewTickets {} crashedFirst w ∧
      w.hist.vm.objHash 1 = some o ∧ (w.tasks 1)[1]? = some T ∧ T.state = .returned true ∧
      (T.query.version < o.roots.length ↔
        ∀ v, 1 ≤ v → v < T.query.version → v ∈ w.hist.published 1) := by
  have hrun : Run World.step World.FewTickets {} crashedFirst _ :=
    Run.of_isSome {} (by decide +kernel)
  generalize hw : (exec World.step World.FewTickets {} crashedFirst).getD {} = w at hrun
  have hobj : (w.hist.vm.objHash 1).isSome = true := by
    rw [← hw]
    decide +kernel
  have htask : ∃ T ∈ (w.tasks 1)[1]?, T.state = .returned true := by
    rw [← hw]
    decide +kernel
  obtain ⟨o, ho⟩ := Option.isSome_iff_exists.1 hobj
  obtain ⟨T, hT, hret⟩ := htask
  exact ⟨w, o, T, hrun, ho, hT, hret, (acknowledged_visible_iff hrun ho hT hret).2.1⟩

/-- No `exec_write` is in progress, version `2` was acknowledged, and `get_root(1, 0)` still returns
version `0`. -/
theorem crash_hides_write :
    ∃ w o T, Run World.step World.FewTickets {} crashedFirst w ∧
      (∀ S ∈ w.tasks 1, S.state ≠ .running) ∧ w.hist.vm.objHash 1 = some o ∧
      (w.tasks 1)[1]? = some T ∧ T.state = .returned true ∧ T.query.version = 2 ∧
      ¬ T.query.version < o.roots.length ∧ (w.hist.vm.getRoot 1 0).node.version = 0 := by
  have hrun : Run World.step World.FewTickets {} crashedFirst _ :=
    Run.of_isSome {} (by decide +kernel)
  generalize hw : (exec World.step World.FewTickets {} crashedFirst).getD {} = w at hrun
  have hquiet : (∀ S ∈ w.tasks 1, S.state ≠ .running) ∧
      (w.hist.vm.getRoot 1 0).node.version = 0 := by
    rw [← hw]
    decide +kernel
  have htask : ∃ o ∈ w.hist.vm.objHash 1, ∃ T ∈ (w.tasks 1)[1]?, T.state = .returned true ∧
      T.query.version = 2 ∧ ¬ T.query.version < o.roots.length := by
    rw [← hw]
    decide +kernel
  obtain ⟨o, ho, T, hT, hret, hversion, hlt⟩ := htask
  exact ⟨w, o, T, hrun, hquiet.1, ho, hT, hret, hversion, hlt, hquiet.2⟩

end BlobSeer
