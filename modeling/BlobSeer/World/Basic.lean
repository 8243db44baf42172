import BlobSeer.RangeQuery.Basic
import BlobSeer.VManager.Geometry

/-!
# The whole system

The version manager, the DHT, and the writes of any number of clients
(`object_handler::exec_write` in `client/object_handler.cpp`). A write becomes a `Task` when it
gets its ticket; before that it has only stored pages under random keys, and an `exec_write` that
fails there leaves no trace. The steps of the tasks interleave freely: a queued DHT put or get is
answered, a `wait` returns, the publish request is sent. A client may stop at any point, and its
queued puts may still arrive.

The DHT keeps what was put: `World.dht` is what a get returns. A put that is reported as failed
may or may not have stored its value, and a publish may be carried out although its reply is lost.
-/

namespace BlobSeer

open VManagement (assigned)

/-- Where an `exec_write` is: still running, over with its result, or stopped by a crash. -/
inductive ExecState where
  | running
  | returned (result : Bool)
  | stopped
deriving DecidableEq, Repr

/-- What an `exec_write` works with once it has its ticket: the reply of the version manager, the
random version of its page keys, and its providers. -/
structure Ticket where
  reply : VmgrReply
  pageVersion : Nat
  adv : List ProviderDesc
deriving DecidableEq, Repr

/-- `range`, once the ticket is there: the last key of the reply. -/
def Ticket.query (K : Ticket) : Query := K.reply.intervals.lastKey

/-- An `exec_write` that has its ticket. -/
structure Task extends Ticket where
  writer : Writer
  state : ExecState := .running
deriving DecidableEq, Repr

/-- The page keys that `exec_write` stores its pages under. -/
def pageKeys (id version pageSize size : Nat) : List Query :=
  (List.range ((size + pageSize - 1) / pageSize)).map fun i => ⟨id, version, i, pageSize⟩

namespace Task

/-- `exec_write` returns `false` when `writeRecordLocations` does. -/
def settle (T : Task) : Task :=
  if T.writer.stage = .done ∧ T.writer.result = false then { T with state := .returned false }
  else T

/-- The task of a write that has got `reply`, with `writeRecordLocations` at its first `wait`. A
client whose sibling loop does not end takes no further step. -/
def start (reply : VmgrReply) (range : Query) (adv : List ProviderDesc) : Task :=
  let keys := pageKeys range.id range.version reply.stableRoot.pageSize range.size
  match Writer.start reply keys adv with
  | none =>
    { reply, pageVersion := range.version, adv, writer := { stage := .leaves }, state := .stopped }
  | some writer => settle { reply, pageVersion := range.version, adv, writer }

end Task

structure World where
  hist : VmHistory := {}
  dht : Dht := fun _ => none
  tasks : Nat → List Task := fun _ => []

/-- The steps of the system. A task is named by its blob and its place among the blob's tickets
(counted from `0`), a queued request by its place in the queue. -/
inductive Action where
  | create (ps rc : Nat)
  | clone (id version : Nat)
  | ticket (range : Query) (append : Bool) (adv : List ProviderDesc)
  | put (id t i : Nat) (outcome : PutOutcome)
  | get (id t i : Nat)
  | wait (id t : Nat)
  | publish (id t : Nat) (outcome : RpcOutcome)
  | stop (id t : Nat)
deriving DecidableEq, Repr

namespace World

def setTask (w : World) (id t : Nat) (T : Task) : World :=
  { w with tasks := Function.update w.tasks id ((w.tasks id).set t T) }

/-- A ticket request of a client: the new task, when the version manager grants the ticket. -/
def takeTicket (w : World) (range : Query) (append : Bool) (adv : List ProviderDesc) :
    Option World :=
  match w.hist.vm.getTicket range append, w.hist.step (.getTicket range append) with
  | some (_, .ok, reply), some hist => some { w with
      hist := hist
      tasks := Function.update w.tasks range.id
        (w.tasks range.id ++ [Task.start reply range adv]) }
  | some _, some hist => some { w with hist := hist }
  | _, _ => none

/-- A queued put of a task ends. -/
def endPut (w : World) (id t i : Nat) (outcome : PutOutcome) (T : Task) : Option World :=
  match T.writer.puts[i]? with
  | some (k, v) => some
      { w.setTask id t { T with writer := T.writer.endPut i outcome } with
        dht := if outcome = .lost then w.dht else Function.update w.dht k (some v) }
  | none => none

/-- A queued get of a task is answered. -/
def endGet (w : World) (id t i : Nat) (T : Task) : Option World :=
  match T.writer.gets[i]? with
  | some (isLeft, q) =>
    some (w.setTask id t { T with writer := T.writer.endGet i isLeft q (w.dht q) })
  | none => none

/-- A `wait` of a task returns. -/
def endWait (w : World) (id t : Nat) (T : Task) : Option World :=
  match T.writer.endWait T.reply.rootSize with
  | some writer => some (w.setTask id t { T with writer := writer }.settle)
  | none => none

/-- The publish request of a task, after a `writeRecordLocations` that returned `true`. -/
def publish (w : World) (id t : Nat) (outcome : RpcOutcome) (T : Task) : Option World :=
  if T.writer.stage = .done ∧ T.writer.result = true then
    match outcome, w.hist.step (.publish T.query) with
    | .answered, some hist => some
        { w.setTask id t { T with
            state := .returned (decide ((w.hist.vm.publish T.query).2 = .ok)) } with hist := hist }
    | .replyLost, some hist =>
      some { w.setTask id t { T with state := .returned false } with hist := hist }
    | .undelivered, _ => some (w.setTask id t { T with state := .returned false })
    | _, none => none
  else none

def step (w : World) : Action → Option World
  | .create ps rc => (w.hist.step (.create ps rc)).map fun hist => { w with hist := hist }
  | .clone id version => (w.hist.step (.clone id version)).map fun hist => { w with hist := hist }
  | .ticket range append adv => w.takeTicket range append adv
  | .put id t i outcome =>
    match (w.tasks id)[t]? with
    | some T => w.endPut id t i outcome T
    | none => none
  | .get id t i =>
    match (w.tasks id)[t]? with
    | some T => if T.state = .running then w.endGet id t i T else none
    | none => none
  | .wait id t =>
    match (w.tasks id)[t]? with
    | some T => if T.state = .running then w.endWait id t T else none
    | none => none
  | .publish id t outcome =>
    match (w.tasks id)[t]? with
    | some T => if T.state = .running then w.publish id t outcome T else none
    | none => none
  | .stop id t =>
    match (w.tasks id)[t]? with
    | some T => if T.state = .running then some (w.setTask id t { T with state := .stopped })
      else none
    | none => none

/-! ## What one step does -/

section Cases

variable {w w' : World} {id t i : Nat} {T : Task}

theorem endPut_cases {outcome : PutOutcome} (hs : w.endPut id t i outcome T = some w') :
    ∃ k v, T.writer.puts[i]? = some (k, v) ∧
      w' = { w.setTask id t { T with writer := T.writer.endPut i outcome } with
        dht := if outcome = .lost then w.dht else Function.update w.dht k (some v) } := by
  unfold endPut at hs
  split at hs
  · next k v hput =>
    cases hs
    exact ⟨k, v, hput, rfl⟩
  · cases hs

theorem endGet_cases (hs : w.endGet id t i T = some w') :
    ∃ isLeft q, T.writer.gets[i]? = some (isLeft, q) ∧
      w' = w.setTask id t { T with writer := T.writer.endGet i isLeft q (w.dht q) } := by
  unfold endGet at hs
  split at hs
  · next isLeft q hget =>
    cases hs
    exact ⟨isLeft, q, hget, rfl⟩
  · cases hs

theorem endWait_cases (hs : w.endWait id t T = some w') :
    ∃ writer, T.writer.endWait T.reply.rootSize = some writer ∧
      w' = w.setTask id t { T with writer := writer }.settle := by
  unfold endWait at hs
  split at hs
  · next writer hwait =>
    cases hs
    exact ⟨writer, hwait, rfl⟩
  · cases hs

/-- The publish request is sent only after a `writeRecordLocations` that returned `true`, and is
carried out unless it is undelivered. -/
theorem publish_cases {outcome : RpcOutcome} (hs : w.publish id t outcome T = some w') :
    (T.writer.stage = .done ∧ T.writer.result = true) ∧
      ((∃ hist result, w.hist.step (.publish T.query) = some hist ∧
          (result = true → (w.hist.vm.publish T.query).2 = .ok) ∧
          w' = { w.setTask id t { T with state := .returned result } with hist := hist }) ∨
        outcome = .undelivered ∧ w' = w.setTask id t { T with state := .returned false }) := by
  unfold publish at hs
  split at hs
  · next hdone =>
    refine ⟨hdone, ?_⟩
    split at hs
    · next hist hstep =>
      cases hs
      exact .inl ⟨hist, _, hstep, of_decide_eq_true, rfl⟩
    · next hist hstep =>
      cases hs
      exact .inl ⟨hist, false, hstep, nofun, rfl⟩
    · cases hs
      exact .inr ⟨rfl, rfl⟩
    · cases hs
  · cases hs

theorem step_create_hist {ps rc : Nat} (hs : w.step (.create ps rc) = some w') :
    ∃ hist, w.hist.step (.create ps rc) = some hist ∧ w' = { w with hist := hist } := by
  simp only [step] at hs
  obtain ⟨hist, hstep, rfl⟩ := Option.map_eq_some_iff.mp hs
  exact ⟨hist, hstep, rfl⟩

theorem step_clone_hist {version : Nat} (hs : w.step (.clone id version) = some w') :
    ∃ hist, w.hist.step (.clone id version) = some hist ∧ w' = { w with hist := hist } := by
  simp only [step] at hs
  obtain ⟨hist, hstep, rfl⟩ := Option.map_eq_some_iff.mp hs
  exact ⟨hist, hstep, rfl⟩

theorem step_put {outcome : PutOutcome} (hs : w.step (.put id t i outcome) = some w') :
    ∃ T, (w.tasks id)[t]? = some T ∧ w.endPut id t i outcome T = some w' := by
  simp only [step] at hs
  split at hs
  · next T hT => exact ⟨T, hT, hs⟩
  · cases hs

/-- The other steps of a task are taken only while it runs. -/
theorem of_running {f : Task → Option World}
    (hs : (match (w.tasks id)[t]? with
      | some T => if T.state = .running then f T else none
      | none => none) = some w') :
    ∃ T, (w.tasks id)[t]? = some T ∧ T.state = .running ∧ f T = some w' := by
  split at hs
  · next T hT =>
    split at hs
    · next hrun => exact ⟨T, hT, hrun, hs⟩
    · cases hs
  · cases hs

theorem step_get (hs : w.step (.get id t i) = some w') :
    ∃ T, (w.tasks id)[t]? = some T ∧ T.state = .running ∧ w.endGet id t i T = some w' :=
  of_running hs

theorem step_wait (hs : w.step (.wait id t) = some w') :
    ∃ T, (w.tasks id)[t]? = some T ∧ T.state = .running ∧ w.endWait id t T = some w' :=
  of_running hs

theorem step_send {outcome : RpcOutcome} (hs : w.step (.publish id t outcome) = some w') :
    ∃ T, (w.tasks id)[t]? = some T ∧ T.state = .running ∧ w.publish id t outcome T = some w' :=
  of_running hs

theorem step_stop (hs : w.step (.stop id t) = some w') :
    ∃ T, (w.tasks id)[t]? = some T ∧ T.state = .running ∧
      w' = w.setTask id t { T with state := .stopped } := by
  obtain ⟨T, hT, hrun, hs⟩ := of_running hs
  exact ⟨T, hT, hrun, (Option.some.inj hs).symm⟩

end Cases

/-- The random version of the page keys is new on its blob, and is no ticket; nor is the ticket
that is given out now the page version of an earlier write. -/
def Fresh (w : World) (range : Query) : Prop :=
  ∀ o, w.hist.vm.objHash range.id = some o → range.version ≠ o.currentTicket ∧
    ∀ T ∈ w.tasks range.id, T.pageVersion ≠ range.version ∧ T.query.version ≠ range.version ∧
      T.pageVersion ≠ o.currentTicket

instance (w : World) (range : Query) : Decidable (w.Fresh range) := by
  unfold Fresh
  infer_instance

/-- The assumptions on a run: `TicketOk` tickets, with page keys of their own. -/
def Ok (seq : Nat → Bool) (w : World) : Action → Prop
  | .ticket range append _ => TicketOk seq w.hist (.getTicket range append) ∧ w.Fresh range
  | _ => True

instance (seq : Nat → Bool) (w : World) (a : Action) : Decidable (w.Ok seq a) :=
  match a with
  | .ticket .. => inferInstanceAs (Decidable (_ ∧ _))
  | .create .. | .clone .. | .put .. | .get .. | .wait .. | .publish .. | .stop .. => .isTrue trivial

end World

end BlobSeer
