import BlobSeer.Client.ExecWrite
import BlobSeer.World.Leaves

/-!
# Writes from their first page to their publish

`Writers` puts the two halves of `exec_write` together: any number of writes that send their pages
(`Upload`), and the system of `World` which they enter with their tickets. Metadata only names pages
that were stored (`exec_write_stored`): a ticket is asked for only when every page has an
acknowledged replica, and the metadata of a write that returned `true` names its page keys and the
providers its pages were sent to.
-/

namespace BlobSeer

open Lib
open VManagement (assigned ticket newRoot publishObj retire)

/-! ## The page size and the replica count of a blob -/

/-- All roots of the blob, published or not, have the given page size and replica count. -/
structure ObjInfo.Uniform (ps rc : Nat) (o : ObjInfo) : Prop where
  nonempty : 0 < o.roots.length
  roots : ∀ r ∈ o.roots, r.pageSize = ps ∧ r.replicaCount = rc
  pending : ∀ e ∈ o.intervals, e.root.pageSize = ps ∧ e.root.replicaCount = rc

namespace ObjInfo.Uniform

variable {ps rc : Nat} {o : ObjInfo}

theorem last (h : Uniform ps rc o) : o.lastRoot.pageSize = ps ∧ o.lastRoot.replicaCount = rc :=
  h.roots _ (ObjInfo.lastRoot_mem h.nonempty)

theorem single (r : Root) (maxSize progressSize : Nat) : Uniform r.pageSize r.replicaCount
    { roots := [r], maxSize := maxSize, progressSize := progressSize } := by
  refine ⟨Nat.one_pos, ?_, fun _ he => absurd he List.not_mem_nil⟩
  intro r' hr'
  rw [List.mem_singleton.mp hr']
  exact ⟨rfl, rfl⟩

theorem ticket (h : Uniform ps rc o) (query : Query) (maxSize : Nat) :
    Uniform ps rc (VManagement.ticket o query maxSize) := by
  refine ⟨h.nonempty, h.roots, ?_⟩
  intro e he
  rcases IntervalList.mem_insert he with rfl | he
  · exact h.last
  · exact h.pending e he

theorem publish (h : Uniform ps rc o) (version : Nat) : Uniform ps rc (publishObj o version) := by
  have hcomplete : ∀ e ∈ o.intervals.complete version,
      e.root.pageSize = ps ∧ e.root.replicaCount = rc := by
    intro e he
    obtain ⟨x, hx, -, hroot, -⟩ := IntervalList.mem_complete he
    rw [hroot]
    exact h.pending x hx
  obtain ⟨h1, h2, h3⟩ := VManagement.retire_inv
    (P := fun roots l => 0 < roots.length ∧ (∀ r ∈ roots, r.pageSize = ps ∧ r.replicaCount = rc) ∧
      ∀ e ∈ l, e.root.pageSize = ps ∧ e.root.replicaCount = rc)
    (by
      rintro roots e l - ⟨h1, h2, h3⟩
      refine ⟨?_, ?_, fun e' he' => h3 e' (List.mem_cons_of_mem _ he')⟩
      · rw [List.length_append]
        exact Nat.add_pos_left h1 _
      · intro r hr
        rcases List.mem_append.mp hr with hr | hr
        · exact h2 r hr
        · rw [List.mem_singleton.mp hr]
          exact h3 e List.mem_cons_self)
    o.roots (o.intervals.complete version) ⟨h.nonempty, h.roots, hcomplete⟩
  exact ⟨h1, h2, h3⟩

end ObjInfo.Uniform

namespace VmHistory

/-- Every blob has one page size and one replica count. -/
theorem uniform {ok : VmHistory → VmRequest → Prop} {h : VmHistory} {reqs : List VmRequest}
    (hrun : Run step ok {} reqs h) : ObjInv (fun _ o _ _ => ∃ ps rc, o.Uniform ps rc) h := by
  refine objInv ?_ ?_ ?_ ?_ hrun
  · exact fun id ps rc => ⟨_, _, .single _ _ _⟩
  · exact fun _ _ _ _ => ⟨_, _, .single _ _ _⟩
  · rintro h query append o maxSize ⟨ps, rc, hu⟩ - - -
    exact ⟨ps, rc, hu.ticket _ _⟩
  · rintro id o issued published version ⟨ps, rc, hu⟩ -
    exact ⟨ps, rc, hu.publish _⟩

/-- The page size and the replica count of a blob do not change. -/
theorem uniform_step {h h' : VmHistory} {req : VmRequest} (hs : h.step req = some h') {id : Nat}
    (hid : id ≤ h.vm.objCount) {ps rc : Nat}
    (ho : ∃ o, h.vm.objHash id = some o ∧ o.Uniform ps rc) :
    ∃ o, h'.vm.objHash id = some o ∧ o.Uniform ps rc := by
  obtain ⟨p, hp, hu⟩ := ho
  have hadd : ∀ o, ∃ o', (h.vm.addObj o).objHash id = some o' ∧ o'.Uniform ps rc := by
    intro o
    have hne : id ≠ h.vm.objCount + 1 := by omega
    exact ⟨p, (Function.update_of_ne hne ..).trans hp, hu⟩
  have hset : ∀ {i : Nat} {o : ObjInfo}, (i = id → o.Uniform ps rc) →
      ∃ o', (h.vm.setObj i o).objHash id = some o' ∧ o'.Uniform ps rc := by
    intro i o hi
    by_cases he : id = i
    · subst he
      exact ⟨o, Function.update_self .., hi rfl⟩
    · exact ⟨p, (Function.update_of_ne he ..).trans hp, hu⟩
  obtain rfl | ⟨ps', rc', -, rfl⟩ | ⟨i, version, o, -, -, rfl⟩ |
    ⟨query, append, o, maxSize, -, ho, -, rfl⟩ | ⟨interval, o, -, ho, -, rfl⟩ := step_cases hs
  · exact ⟨p, hp, hu⟩
  · exact hadd _
  · exact hadd _
  · refine hset fun hi => ?_
    rw [hi, hp] at ho
    cases ho
    exact hu.ticket _ _
  · refine hset fun hi => ?_
    rw [hi, hp] at ho
    cases ho
    exact hu.publish _

end VmHistory

/-! ## What a step of the system leaves alone -/

namespace World

/-- The tasks of `w` are there in `w'`, with the same tickets. -/
def SameTicket (w w' : World) : Prop :=
  ∀ (id t : Nat) (T : Task), (w.tasks id)[t]? = some T →
    ∃ T', (w'.tasks id)[t]? = some T' ∧ T'.toTicket = T.toTicket

/-- A step of one task leaves the others alone. -/
theorem task_of_set {w w' : World} {id t : Nat} {T T' : Task} (hT : (w.tasks id)[t]? = some T)
    (htasks : w'.tasks = (w.setTask id t T').tasks) (hk : T'.toTicket = T.toTicket)
    (hstate : T.state ≠ .running → T'.state = T.state) {i n : Nat} {S : Task}
    (hS : (w.tasks i)[n]? = some S) :
    ∃ S', (w'.tasks i)[n]? = some S' ∧ S'.toTicket = S.toTicket ∧
      (S.state ≠ .running → S'.state = S.state) := by
  rw [htasks]
  by_cases hsame : i = id ∧ n = t
  · obtain ⟨rfl, rfl⟩ := hsame
    rw [hT] at hS
    cases hS
    exact ⟨T', tasks_set_self hT, hk, hstate⟩
  · exact ⟨S, tasks_set_other hS hsame, rfl, fun _ => rfl⟩

/-- What one step does to the tasks and to the version manager: it makes a blob, it asks for a ticket,
or it is the step of one task, which keeps its ticket and, once it is over, its state. -/
theorem step_cases {w w' : World} {a : Action} (hs : w.step a = some w') :
    (w'.tasks = w.tasks ∧ ∃ req, w.hist.step req = some w'.hist ∧ ∀ q, req ≠ .publish q) ∨
      (∃ range append adv, a = .ticket range append adv ∧ w.takeTicket range append adv = some w') ∨
      ∃ id t T T', (w.tasks id)[t]? = some T ∧ w'.tasks = (w.setTask id t T').tasks ∧
        T'.toTicket = T.toTicket ∧ (T.state ≠ .running → T'.state = T.state) ∧
        (w'.hist = w.hist ∨ ∃ outcome, a = .publish id t outcome ∧
          w.hist.step (.publish T.query) = some w'.hist) := by
  cases a with
  | create ps rc =>
    obtain ⟨hist, hstep, rfl⟩ := step_create_hist hs
    exact .inl ⟨rfl, _, hstep, nofun⟩
  | clone id version =>
    obtain ⟨hist, hstep, rfl⟩ := step_clone_hist hs
    exact .inl ⟨rfl, _, hstep, nofun⟩
  | ticket range append adv => exact .inr (.inl ⟨range, append, adv, rfl, hs⟩)
  | put id t i outcome =>
    obtain ⟨T, hT, hs⟩ := step_put hs
    obtain ⟨k, v, -, rfl⟩ := endPut_cases hs
    exact .inr (.inr ⟨id, t, T, _, hT, rfl, rfl, fun _ => rfl, .inl rfl⟩)
  | get id t i =>
    obtain ⟨T, hT, -, hs⟩ := step_get hs
    obtain ⟨isLeft, q, -, rfl⟩ := endGet_cases hs
    exact .inr (.inr ⟨id, t, T, _, hT, rfl, rfl, fun _ => rfl, .inl rfl⟩)
  | wait id t =>
    obtain ⟨T, hT, hrun, hs⟩ := step_wait hs
    obtain ⟨writer, -, rfl⟩ := endWait_cases hs
    exact .inr (.inr ⟨id, t, T, _, hT, rfl, (Task.settle_eq _).1, fun hne => absurd hrun hne,
      .inl rfl⟩)
  | publish id t outcome =>
    obtain ⟨T, hT, hrun, hs⟩ := step_send hs
    obtain ⟨-, ⟨hist, result, hstep, -, rfl⟩ | ⟨-, rfl⟩⟩ := publish_cases hs
    · exact .inr (.inr ⟨id, t, T, _, hT, rfl, rfl, fun hne => absurd hrun hne,
        .inr ⟨outcome, rfl, hstep⟩⟩)
    · exact .inr (.inr ⟨id, t, T, _, hT, rfl, rfl, fun hne => absurd hrun hne, .inl rfl⟩)
  | stop id t =>
    obtain ⟨T, hT, hrun, rfl⟩ := step_stop hs
    exact .inr (.inr ⟨id, t, T, _, hT, rfl, rfl, fun hne => absurd hrun hne, .inl rfl⟩)

/-- What becomes of a task in one step: it keeps its ticket, and an `exec_write` that is over stays
so. -/
theorem step_task {w w' : World} {a : Action} (hs : w.step a = some w') {i n : Nat} {S : Task}
    (hS : (w.tasks i)[n]? = some S) :
    ∃ S', (w'.tasks i)[n]? = some S' ∧ S'.toTicket = S.toTicket ∧
      (S.state ≠ .running → S'.state = S.state) := by
  obtain ⟨htasks, -⟩ | ⟨range, append, adv, -, hs⟩ | ⟨id, t, T, T', hT, htasks, hk, hstate, -⟩ :=
    step_cases hs
  · rw [htasks]
    exact ⟨S, hS, rfl, fun _ => rfl⟩
  · obtain rfl | ⟨o, R, T, hist, -, -, -, -, rfl⟩ := takeTicket_cases hs
    · exact ⟨S, hS, rfl, fun _ => rfl⟩
    · exact ⟨S, tasks_ticket_old hS, rfl, fun _ => rfl⟩
  · exact task_of_set hT htasks hk hstate hS

/-- Only a ticket makes a task. -/
theorem step_length {w w' : World} {a : Action} (hs : w.step a = some w')
    (hne : ∀ range append adv, a ≠ .ticket range append adv) (i : Nat) :
    (w'.tasks i).length = (w.tasks i).length := by
  obtain ⟨htasks, -⟩ | ⟨range, append, adv, rfl, -⟩ | ⟨id, t, T, T', -, htasks, -⟩ := step_cases hs
  · rw [htasks]
  · exact absurd rfl (hne range append adv)
  · rw [htasks]
    exact setTask_length ..

/-- A step is at most one call of the version manager. A publish is that of a task. -/
theorem step_hist {w w' : World} {a : Action} (hs : w.step a = some w') :
    w'.hist = w.hist ∨ ∃ req, w.hist.step req = some w'.hist ∧
      ∀ q, req = .publish q → ∃ id t outcome T, a = .publish id t outcome ∧
        (w.tasks id)[t]? = some T ∧ q = T.query := by
  obtain ⟨-, req, hstep, hne⟩ | ⟨range, append, adv, -, hs⟩ |
    ⟨id, t, T, T', hT, -, -, -, hhist | ⟨outcome, rfl, hstep⟩⟩ := step_cases hs
  · exact .inr ⟨req, hstep, fun q hq => absurd hq (hne q)⟩
  · obtain rfl | ⟨o, R, T, hist, -, hstep, -, -, rfl⟩ := takeTicket_cases hs
    · exact .inl rfl
    · exact .inr ⟨_, hstep, nofun⟩
  · exact .inl hhist
  · refine .inr ⟨_, hstep, ?_⟩
    rintro q ⟨⟩
    exact ⟨id, t, outcome, T, rfl, hT, rfl⟩

/-- A step is at most one call of the version manager, and keeps the tickets of the tasks. -/
theorem step_frame {w w' : World} {a : Action} (hs : w.step a = some w') :
    (w'.hist = w.hist ∨ ∃ req, w.hist.step req = some w'.hist) ∧ SameTicket w w' := by
  refine ⟨(step_hist hs).imp_right ?_, fun id t T hT => ?_⟩
  · rintro ⟨req, hstep, -⟩
    exact ⟨req, hstep⟩
  · obtain ⟨T', hT', hk, -⟩ := step_task hs hT
    exact ⟨T', hT', hk⟩

/-- The roots of a blob stay unless one of its tasks is published. -/
theorem step_roots_same {w w' : World} {a : Action} (h : w.Tracked) (hs : w.step a = some w')
    {id : Nat} (hne : ∀ t outcome, a ≠ .publish id t outcome) {o : ObjInfo}
    (ho : w.hist.vm.objHash id = some o) :
    ∃ o', w'.hist.vm.objHash id = some o' ∧ o'.roots = o.roots := by
  rcases step_hist hs with hhist | ⟨req, hstep, hpublish⟩
  · rw [hhist]
    exact ⟨o, ho, rfl⟩
  · obtain ⟨reqs, hreqs⟩ := h.run
    obtain ⟨o', ho', -, hroots | ⟨q, hq, hid⟩⟩ :=
      VmHistory.step_roots_cases hstep (VmHistory.window hreqs).next_none ho
    · exact ⟨o', ho', hroots⟩
    · obtain ⟨i, t, outcome, T, rfl, hT, rfl⟩ := hpublish q hq
      rw [(h.query hT).1] at hid
      exact absurd (hid ▸ rfl) (hne t outcome)

end World

/-! ## The two halves of `exec_write` -/

/-- The writes that have sent their pages, next to the system that the ticketed ones work in. -/
structure Writers where
  world : World := {}
  uploads : List Upload := []

/-- A write sends its pages, a provider replies to one, a write asks for its ticket, and everything
that happens in the system apart from that. Writes are named by their place in `uploads`. -/
inductive WriterAction where
  | execWrite (c : WriteCall)
  | reply (n i : Nat) (error : RpcReturn)
  | ticket (n : Nat) (beyond : Nat → Bool)
  | other (a : Action)

namespace Writers

/-- The ticket request of the `n`-th write. -/
def askTicket (s : Writers) (n : Nat) (u : Upload) : Option Writers :=
  (s.world.step (.ticket u.range u.append u.adv)).map fun w =>
    let t := (s.world.tasks u.id).length
    ⟨w, s.uploads.set n { u with
      requested := true
      task := if t < (w.tasks u.id).length then some t else none }⟩

def step (retryCount : Nat) (s : Writers) : WriterAction → Option Writers
  | .execWrite c => c.execWrite.map fun u => { s with uploads := s.uploads ++ [u] }
  | .reply n i error =>
    match s.uploads[n]? with
    | some u => (u.complete retryCount i error).map fun u => { s with uploads := s.uploads.set n u }
    | none => none
  | .ticket n beyond =>
    match s.uploads[n]? with
    | some u => if u.requested = false ∧ u.requestsTicket beyond = true then s.askTicket n u else none
    | none => none
  | .other (.ticket ..) => none
  | .other a => (s.world.step a).map fun w => { s with world := w }

/-- What one step does. -/
theorem step_cases {retryCount : Nat} {s s' : Writers} {a : WriterAction}
    (hs : s.step retryCount a = some s') :
    (∃ c u, a = .execWrite c ∧ c.execWrite = some u ∧
        s' = { s with uploads := s.uploads ++ [u] }) ∨
      (∃ n i error u u', a = .reply n i error ∧ s.uploads[n]? = some u ∧
        u.complete retryCount i error = some u' ∧ s' = { s with uploads := s.uploads.set n u' }) ∨
      (∃ n beyond u, a = .ticket n beyond ∧ s.uploads[n]? = some u ∧ u.requested = false ∧
        u.requestsTicket beyond = true ∧ s.askTicket n u = some s') ∨
      ∃ act w, a = .other act ∧ (∀ range append adv, act ≠ .ticket range append adv) ∧
        s.world.step act = some w ∧ s' = { s with world := w } := by
  cases a with
  | execWrite c =>
    simp only [step] at hs
    obtain ⟨u, hu, rfl⟩ := Option.map_eq_some_iff.mp hs
    exact .inl ⟨c, u, rfl, hu, rfl⟩
  | reply n i error =>
    simp only [step] at hs
    split at hs
    · next u hn =>
      obtain ⟨u', hu', rfl⟩ := Option.map_eq_some_iff.mp hs
      exact .inr (.inl ⟨n, i, error, u, u', rfl, hn, hu', rfl⟩)
    · cases hs
  | ticket n beyond =>
    simp only [step] at hs
    split at hs
    · next u hn =>
      split at hs
      · next hreq => exact .inr (.inr (.inl ⟨n, beyond, u, rfl, hn, hreq.1, hreq.2, hs⟩))
      · cases hs
    · cases hs
  | other act =>
    unfold step at hs
    split at hs
    · next heq => cases heq
    · next heq => cases heq
    · next heq => cases heq
    · cases hs
    · next act' hne heq =>
      cases heq
      obtain ⟨w, hw, rfl⟩ := Option.map_eq_some_iff.mp hs
      exact .inr (.inr (.inr ⟨act, w, rfl, hne, hw, rfl⟩))

/-- The handlers have the page size and the replica count of their blobs, and the page keys are of
their own. -/
def Ok (s : Writers) : WriterAction → Prop
  | .execWrite c => 0 < c.pageSize ∧ 0 < c.replicaCount ∧
    (s.world.hist.vm.getRoot c.id 0).pageSize = c.pageSize ∧
    (s.world.hist.vm.getRoot c.id 0).replicaCount = c.replicaCount
  | .ticket n _ => ∀ u ∈ s.uploads[n]?, s.world.Distinct (.ticket u.range u.append u.adv)
  | _ => True

instance (s : Writers) (a : WriterAction) : Decidable (s.Ok a) :=
  match a with
  | .execWrite _ => inferInstanceAs (Decidable (_ ∧ _))
  | .ticket n _ =>
    inferInstanceAs (Decidable
      (∀ u ∈ s.uploads[n]?, s.world.Distinct (.ticket u.range u.append u.adv)))
  | .reply .. | .other _ => .isTrue trivial

/-- The second half of a write, once it has its ticket. -/
def taskOf (s : Writers) (u : Upload) : Option Task :=
  match u.task with
  | some t => (s.world.tasks u.id)[t]?
  | none => none

/-- The ticket `K` is the one of the write `c`. -/
structure Holds (c : WriteCall) (K : Ticket) : Prop where
  id : K.query.id = c.id
  size : K.query.size = c.size
  pageVersion : K.pageVersion = c.rnd
  adv : K.adv = c.adv
  pageSize : K.pageSize = c.pageSize
  replicaCount : K.reply.stableRoot.replicaCount = c.replicaCount

structure Inv (retryCount : Nat) (s : Writers) : Prop where
  world : ∃ as, Run World.step World.Distinct {} as s.world
  upload : ∀ u ∈ s.uploads, u.Inv retryCount ∧ 0 < u.replicaCount
  blob : ∀ u ∈ s.uploads,
    ∃ o, s.world.hist.vm.objHash u.id = some o ∧ o.Uniform u.pageSize u.replicaCount
  task : ∀ u ∈ s.uploads, ∀ t, u.task = some t →
    ∃ T, (s.world.tasks u.id)[t]? = some T ∧ Holds u.toWriteCall T.toTicket

namespace Inv

variable {retryCount : Nat} {s : Writers}

theorem tracked (h : Inv retryCount s) : s.world.Tracked := by
  obtain ⟨as, hrun⟩ := h.world
  exact hrun.inv (fun hw hok hs => hw.step hok.fewTickets hs) .empty

/-- A step of the system keeps what is known of the writes. -/
theorem move (h : Inv retryCount s) {a : Action} {w : World} (hok : s.world.Distinct a)
    (hs : s.world.step a = some w) : Inv retryCount { s with world := w } := by
  obtain ⟨as, hrun⟩ := h.world
  obtain ⟨hhist, hsame⟩ := World.step_frame hs
  refine ⟨⟨_, hrun.append (.single hok hs)⟩, h.upload, ?_, ?_⟩
  · intro u hu
    have hblob := h.blob u hu
    show ∃ o, w.hist.vm.objHash u.id = some o ∧ _
    rcases hhist with hhist | ⟨req, hstep⟩
    · rw [hhist]
      exact hblob
    · obtain ⟨reqs, hreqs⟩ := h.tracked.run
      obtain ⟨o, ho, huniform⟩ := hblob
      exact VmHistory.uniform_step hstep ((VmHistory.uniform hreqs).id_le ho) ⟨o, ho, huniform⟩
  · intro u hu t ht
    obtain ⟨T, hT, hholds⟩ := h.task u hu t ht
    obtain ⟨T', hT', hk⟩ := hsame _ _ _ hT
    exact ⟨T', hT', hk ▸ hholds⟩

/-- One write is replaced by a later state of it. -/
theorem setUpload (h : Inv retryCount s) {n : Nat} {u u' : Upload} (hn : s.uploads[n]? = some u)
    (hcall : u'.toWriteCall = u.toWriteCall) (hinv : u'.Inv retryCount)
    (htask : ∀ t, u'.task = some t →
      ∃ T, (s.world.tasks u.id)[t]? = some T ∧ Holds u.toWriteCall T.toTicket) :
    Inv retryCount { s with uploads := s.uploads.set n u' } := by
  have hu := List.mem_of_getElem? hn
  refine ⟨h.world, ?_, ?_, ?_⟩
  · intro v hv
    rcases List.mem_or_eq_of_mem_set hv with hv | rfl
    · exact h.upload v hv
    · refine ⟨hinv, ?_⟩
      rw [hcall]
      exact (h.upload u hu).2
  · intro v hv
    rcases List.mem_or_eq_of_mem_set hv with hv | rfl
    · exact h.blob v hv
    · rw [hcall]
      exact h.blob u hu
  · intro v hv t ht
    rcases List.mem_or_eq_of_mem_set hv with hv | rfl
    · exact h.task v hv t ht
    · obtain ⟨T, hT, hholds⟩ := htask t ht
      rw [hcall]
      exact ⟨T, hT, hholds⟩

theorem execWrite (h : Inv retryCount s) {c : WriteCall} (hok : s.Ok (.execWrite c)) {u : Upload}
    (hu : c.execWrite = some u) : Inv retryCount { s with uploads := s.uploads ++ [u] } := by
  obtain ⟨hcall, htask, hinv⟩ : u.toWriteCall = c ∧ u.task = none ∧ u.Inv retryCount :=
    Upload.Inv.execWrite hu
  obtain ⟨hps, hrc, hsize, hcount⟩ := hok
  refine ⟨h.world, ?_, ?_, ?_⟩
  · intro v hv
    rcases List.mem_append.mp hv with hv | hv
    · exact h.upload v hv
    · rw [List.mem_singleton.mp hv, hcall]
      exact ⟨hinv, hrc⟩
  · intro v hv
    rcases List.mem_append.mp hv with hv | hv
    · exact h.blob v hv
    · rw [List.mem_singleton.mp hv, hcall]
      obtain ⟨reqs, hreqs⟩ := h.tracked.run
      -- the version manager knows the blob: the root it answers with has a page size
      cases ho : s.world.hist.vm.objHash c.id with
      | none =>
        rw [VManagement.getRoot, ho] at hsize
        exact absurd hsize hps.ne
      | some o =>
        obtain ⟨ps, rc, huniform⟩ := (VmHistory.uniform hreqs).obj ho
        rw [VManagement.getRoot, ho] at hsize hcount
        rw [← hsize, ← hcount]
        refine ⟨o, rfl, ?_⟩
        have hroot := VManagement.rootAt_mem huniform.nonempty 0
        rw [(huniform.roots _ hroot).1, (huniform.roots _ hroot).2]
        exact huniform
  · intro v hv t ht
    rcases List.mem_append.mp hv with hv | hv
    · exact h.task v hv t ht
    · rw [List.mem_singleton.mp hv, htask] at ht
      cases ht

/-- The task that a ticket request makes is the one of its write. -/
theorem holds (h : Inv retryCount s) {u : Upload} (hu : u ∈ s.uploads)
    (hok : s.world.Distinct (.ticket u.range u.append u.adv)) {w : World}
    (hw : s.world.step (.ticket u.range u.append u.adv) = some w)
    (hlt : (s.world.tasks u.id).length < (w.tasks u.id).length) :
    ∃ T, (w.tasks u.id)[(s.world.tasks u.id).length]? = some T ∧
      Holds u.toWriteCall T.toTicket := by
  obtain rfl | ⟨o, R, T, hist, ho, -, hT, -, rfl⟩ := World.takeTicket_cases hw
  · exact absurd hlt (Nat.lt_irrefl _)
  have hid : u.range.id = u.id := rfl
  obtain ⟨reqs, hreqs⟩ := h.tracked.run
  have hwindow := (VmHistory.window hreqs).obj ho
  have hquery := World.ticketOf_query hwindow hok.1 u.range u.append u.adv R
  have hticket : T.toTicket = World.ticketOf o u.range u.append u.adv R := by
    rw [hT]
    exact Task.start_toTicket _ _ _
  obtain ⟨p, hp, huniform⟩ := h.blob u hu
  rw [hid, hp] at ho
  cases ho
  refine ⟨T, ?_, ?_⟩
  · simp [hid]
  · rw [hticket]
    refine ⟨?_, ?_, rfl, rfl, huniform.last.1, huniform.last.2⟩
    · rw [hquery]
      exact VManagement.assigned_id ..
    · rw [hquery]
      exact VManagement.assigned_size ..

theorem askTicket (h : Inv retryCount s) {n : Nat} {u : Upload} (hn : s.uploads[n]? = some u)
    (hok : s.world.Distinct (.ticket u.range u.append u.adv)) {s' : Writers}
    (hs : s.askTicket n u = some s') : Inv retryCount s' := by
  obtain ⟨w, hw, rfl⟩ := Option.map_eq_some_iff.mp hs
  have hu := List.mem_of_getElem? hn
  have hinv := (h.upload u hu).1
  refine (h.move hok hw).setUpload hn rfl ?_ ?_
  · exact ⟨hinv.pageSize, hinv.aligned, hinv.counters, hinv.sent, hinv.all, hinv.flight,
      hinv.retries, hinv.once, hinv.attempts, hinv.acked, hinv.length, hinv.bits⟩
  · intro t ht
    dsimp only at ht
    split at ht
    · next hlt =>
      cases ht
      exact h.holds hu hok hw hlt
    · cases ht

theorem step (h : Inv retryCount s) {a : WriterAction} (hok : s.Ok a) {s' : Writers}
    (hs : s.step retryCount a = some s') : Inv retryCount s' := by
  obtain ⟨c, u, rfl, hu, rfl⟩ | ⟨n, i, error, u, u', rfl, hn, hu', rfl⟩ |
    ⟨n, beyond, u, rfl, hn, -, -, hs⟩ | ⟨act, w, rfl, hne, hw, rfl⟩ := step_cases hs
  · exact h.execWrite hok hu
  · have hu := List.mem_of_getElem? hn
    obtain ⟨hcall, htask, hinv⟩ := (h.upload u hu).1.complete hu'
    exact h.setUpload hn hcall hinv fun t ht => h.task u hu t (htask ▸ ht)
  · exact h.askTicket hn (hok u hn) hs
  · refine h.move ?_ hw
    cases act with
    | ticket range append adv => exact absurd rfl (hne range append adv)
    | _ => trivial

theorem empty : Inv retryCount {} :=
  ⟨⟨[], .nil _⟩, fun _ hu => absurd hu List.not_mem_nil, fun _ hu => absurd hu List.not_mem_nil,
    fun _ hu => absurd hu List.not_mem_nil⟩

end Inv

/-- The group of page `i` in the provider list, as `writeRecordLocations` takes it. -/
theorem replicas_eq {replicaCount i : Nat} {adv : List ProviderDesc}
    (hi : (i + 1) * replicaCount < 2 ^ 32) (hadv : (i + 1) * replicaCount ≤ adv.length) :
    replicas replicaCount adv i = (adv.drop (i * replicaCount)).take replicaCount := by
  have hnext : i * replicaCount + replicaCount = (i + 1) * replicaCount := (Nat.succ_mul ..).symm
  have hdef : replicas replicaCount adv i =
      (List.range' (i * replicaCount) replicaCount).map fun k => adv.getD k {} := by
    simp only [replicas]
    rw [u32_of_lt (n := i * replicaCount) (by omega), u32_of_lt (by omega),
      Nat.add_sub_cancel_left]
  rw [hdef]
  refine List.ext_getElem ?_ ?_
  · rw [List.length_map, List.length_range', List.length_take, List.length_drop]
    omega
  · intro n h1 h2
    rw [List.length_map, List.length_range'] at h1
    have hn : i * replicaCount + n < adv.length := by omega
    simp [hn]

/-- The leaf and the page key of page `i`, in the DHT of a write that returned `true`. -/
theorem Inv.leaf {retryCount : Nat} {s : Writers} (h : Inv retryCount s) {u : Upload}
    (hu : u ∈ s.uploads) {T : Task} (hT : s.taskOf u = some T) (hret : T.state = .returned true)
    {i : Nat} (hi : i < u.pages) :
    s.world.dht ⟨u.id, T.query.version, u64 (T.query.offset + i * u.pageSize), u.pageSize⟩ =
        some (.node { isLeaf := true, left := u.pageKey i }) ∧
      s.world.dht (u.pageKey i) =
        some (.providers ((u.adv.drop (i * u.replicaCount)).take u.replicaCount)) := by
  obtain ⟨hinv, hrc⟩ := h.upload u hu
  unfold taskOf at hT
  split at hT
  · next t ht =>
    obtain ⟨T', hT', hholds⟩ := h.task u hu t ht
    rw [hT] at hT'
    cases hT'
    obtain ⟨as, hrun⟩ := h.world
    have hleaves := World.leaves_of_returned hrun hT hret
    have hkey : T.keyAt i = u.pageKey i := by
      rw [Ticket.keyAt, WriteCall.pageKey, hholds.id, hholds.pageVersion, hholds.pageSize]
    have hpages : i < (T.query.size + T.pageSize - 1) / T.pageSize := by
      rw [hholds.size, hholds.pageSize]
      exact hi
    have hlt : i * u.pageSize < 2 ^ 64 := by
      have hsize := (Ticket.mul_lt_of_lt_pages hpages).2
      have hfit := (World.Leaves.of_run hrun).task hT |>.size
      rw [hholds.pageSize] at hsize
      omega
    have hnode := hleaves _ (Ticket.mem_leafEntries.mpr ⟨i, hpages, .inr rfl⟩)
    have hproviders := hleaves _ (Ticket.mem_leafEntries.mpr ⟨i, hpages, .inl rfl⟩)
    dsimp only at hnode hproviders
    rw [hkey] at hnode hproviders
    refine ⟨?_, ?_⟩
    · rw [leafOf] at hnode
      simp only [WriteCall.pageKey, u64_of_lt hlt] at hnode
      exact hnode
    · rw [hholds.replicaCount, hholds.adv, replicas_eq (hinv.counters i hi) ?_] at hproviders
      · exact hproviders
      · exact hinv.adv_length hrc hi
  · cases hT

/-- **Metadata only names pages that were stored.** In every run, and for every write in it: a replica
is sent at most `retryCount + 1` times, and only under the page keys of the write, each to the
providers of its group. A ticket is asked for only when some provider of every group has acknowledged
what it was sent; that is the page of the buffer if and only if a page has less than `2 ^ 32` bytes
(or there is none). And when the write has returned `true`, the leaves of the new version hold its
page keys, which the DHT maps to the providers that the pages were sent to. -/
theorem exec_write_stored {retryCount : Nat} {s : Writers} {as : List WriterAction}
    (hrun : Run (step retryCount) Ok {} as s) {u : Upload} (hu : u ∈ s.uploads) :
    (∀ k, u.attempts k ≤ retryCount + 1) ∧
    (∀ r ∈ u.sent, ∃ i < u.size / u.pageSize, Upload.Copy u.toWriteCall i r) ∧
    (∀ i < u.size / u.pageSize, ∀ k, i * u.replicaCount ≤ k → k < (i + 1) * u.replicaCount →
      ∃ r ∈ u.sent, r.k = k ∧ Upload.Copy u.toWriteCall i r) ∧
    (∀ beyond, u.requestsTicket beyond = true →
      (∀ i < u.size / u.pageSize, ∃ r ∈ u.acked, Upload.Copy u.toWriteCall i r) ∧
      ((∀ i < u.size / u.pageSize, ∃ r ∈ u.acked,
          Upload.Copy u.toWriteCall i r ∧ r.value = u.page i) ↔
        u.pageSize < 2 ^ 32 ∨ u.size = 0)) ∧
    (∀ T, s.taskOf u = some T → T.state = .returned true → ∀ i < u.size / u.pageSize,
      s.world.dht ⟨u.id, T.query.version, u64 (T.query.offset + i * u.pageSize), u.pageSize⟩ =
          some (.node { isLeaf := true, left := u.pageKey i }) ∧
        s.world.dht (u.pageKey i) =
          some (.providers ((u.adv.drop (i * u.replicaCount)).take u.replicaCount))) := by
  have h : Inv retryCount s := hrun.inv (fun hs hok hstep => hs.step hok hstep) .empty
  obtain ⟨hinv, hrc⟩ := h.upload u hu
  rw [← hinv.pages_eq]
  refine ⟨hinv.attempts, hinv.sent, ?_, ?_, ?_⟩
  · intro i hi k h1 h2
    have hmul : (i + 1) * u.replicaCount ≤ u.pages * u.replicaCount :=
      Nat.mul_le_mul_right _ hi
    obtain ⟨r, hr, rfl⟩ := hinv.all k (by omega)
    obtain ⟨j, -, hcopy⟩ := hinv.sent r hr
    exact ⟨r, hr, rfl, hcopy.page_eq h1 h2 ▸ hcopy⟩
  · intro beyond hreq
    exact ⟨fun i hi => hinv.stored hrc hreq hi, hinv.stores_pages_iff hrc hreq⟩
  · exact fun T hT hret i hi => h.leaf hu hT hret hi

/-- A write of two pages with two replicas each. The first provider fails twice and is given up, the
others acknowledge. -/
def twoPages : List WriterAction :=
  [.other (.create 4 2),
    .execWrite ⟨1, Root.make 1 0 4 0 2, 77, 0, 8, fun b => UInt8.ofNat b, false,
      [⟨"a", "1"⟩, ⟨"b", "1"⟩, ⟨"c", "1"⟩, ⟨"d", "1"⟩]⟩,
    .reply 0 0 (.transport 111), .reply 0 3 (.transport 111), .reply 0 0 .ok, .reply 0 0 .ok,
    .reply 0 0 .ok, .ticket 0 fun _ => false, .other (.put 1 0 0 .acked),
    .other (.put 1 0 0 .acked), .other (.put 1 0 0 .acked), .other (.put 1 0 0 .acked),
    .other (.wait 1 0), .other (.put 1 0 0 .acked), .other (.wait 1 0),
    .other (.publish 1 0 .answered)]

/-- The leaf of the second page after `twoPages`: replica `0` was sent twice, and the page key is
mapped to the last two providers. -/
theorem exec_write_stored_two_pages :
    ∃ s u, Run (step 1) Ok {} twoPages s ∧ u ∈ s.uploads ∧ u.attempts 0 = 2 ∧
      (∃ r ∈ u.acked, Upload.Copy u.toWriteCall 0 r ∧ r.value = u.page 0) ∧
      s.world.dht ⟨1, 1, 4, 4⟩ = some (.node { isLeaf := true, left := ⟨1, 77, 1, 4⟩ }) ∧
      s.world.dht ⟨1, 77, 1, 4⟩ = some (.providers [⟨"c", "1"⟩, ⟨"d", "1"⟩]) := by
  have hrun : Run (step 1) Ok {} twoPages _ := Run.of_isSome {} (by decide +kernel)
  generalize hs : (exec (step 1) Ok {} twoPages).getD {} = s at hrun
  have hwrite : ∃ u ∈ s.uploads[0]?, u.attempts 0 = 2 ∧
      u.requestsTicket (fun _ => false) = true ∧
      (u.id = 1 ∧ u.rnd = 77 ∧ u.pageSize = 4 ∧ u.replicaCount = 2 ∧ u.size = 8 ∧
        u.adv = [⟨"a", "1"⟩, ⟨"b", "1"⟩, ⟨"c", "1"⟩, ⟨"d", "1"⟩]) ∧
      ∃ T ∈ s.taskOf u, T.state = .returned true ∧ T.query = ⟨1, 1, 0, 8⟩ := by
    rw [← hs]
    decide +kernel
  obtain ⟨u, hu, hattempts, hreq, ⟨hid, hrnd, hps, hrc, hsize, hadv⟩, T, hT, hret, hquery⟩ := hwrite
  have hmem := List.mem_of_getElem? hu
  obtain ⟨-, -, -, hstored, hleaf⟩ := exec_write_stored hrun hmem
  have hpages : u.size / u.pageSize = 2 := by
    rw [hsize, hps]
  rw [hpages] at hstored hleaf
  obtain ⟨hnode, hproviders⟩ := hleaf T hT hret 1 (by decide)
  rw [WriteCall.pageKey, hid, hrnd, hps, hrc, hadv] at hproviders
  rw [WriteCall.pageKey, hid, hrnd, hps, hquery] at hnode
  have hpage := (hstored _ hreq).2.mpr (.inl (by rw [hps]; decide)) 0 (by decide)
  exact ⟨s, u, hrun, hmem, hattempts, hpage, hnode, hproviders⟩

/-- A write of one page of `2 ^ 32 + 1` bytes. -/
def hugePage : List WriterAction :=
  [.other (.create (2 ^ 32 + 1) 1),
    .execWrite ⟨1, Root.make 1 0 (2 ^ 32 + 1) 0 1, 77, 0, 2 ^ 32 + 1, fun b => UInt8.ofNat b, false,
      [⟨"a", "1"⟩]⟩,
    .reply 0 0 .ok, .ticket 0 fun _ => false]

/-- The write of a page of `2 ^ 32 + 1` bytes sends one byte, has that acknowledged and gets its
ticket. -/
theorem huge_page_not_stored :
    ∃ s u, Run (step 1) Ok {} hugePage s ∧ u ∈ s.uploads ∧ u.requested = true ∧
      u.size / u.pageSize = 1 ∧ ¬ ∃ r ∈ u.acked, r.value = u.page 0 := by
  have hrun : Run (step 1) Ok {} hugePage _ := Run.of_isSome {} (by decide +kernel)
  generalize hs : (exec (step 1) Ok {} hugePage).getD {} = s at hrun
  have hwrite : ∃ u ∈ s.uploads[0]?, u.requested = true ∧ u.size / u.pageSize = 1 ∧
      ∀ r ∈ u.acked, r.value.length ≠ u.pageSize := by
    rw [← hs]
    decide +kernel
  obtain ⟨u, hu, hrequested, hpages, hshort⟩ := hwrite
  refine ⟨s, u, hrun, List.mem_of_getElem? hu, hrequested, hpages, ?_⟩
  rintro ⟨r, hr, hvalue⟩
  refine hshort r hr ?_
  rw [hvalue, WriteCall.page_length]

end Writers

end BlobSeer
