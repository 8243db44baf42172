import Mathlib.Data.List.Sort
import BlobSeer.Lib.Run
import BlobSeer.Rpc.Dispatch
import BlobSeer.Rpc.Framing

/-!
# The server of requests (`rpc/rpc_server.hpp`, `rpc/rpc_timer.hpp`, `rpc/rpc_sync_socket.hpp`)

The handlers run in the thread of the io service. A request that was read is put into `task_queue`, a
second thread (`processor_exec`) takes it out, runs its callback and starts to write the answer, and
the handlers of the first thread go on from there. A third thread (`watchdog_exec`) closes the sockets
whose timers have run out.

A step is the completion of one asynchronous operation with its handler, or what one of the other
threads does under a lock: between the steps of one connection, those of all the others may happen.
Since every operation has the condition `transfer_all`, it ends without an error when all its bytes
were transferred, and only then.
-/

namespace BlobSeer

open Lib Rpc

/-- The alternatives of `callback_t` that a server registers: `rpcserver_callback_t`, and
`rpcserver_extcallback_t`, which is given the address of the sender. -/
inductive CallbackKind where
  | plain
  | ext
deriving DecidableEq, Repr

/-- A connection with its `rpcinfo_t`: `input` has been sent by the client and was not read. The rest
are history variables: all that the client has sent, all that was sent to it, the requests whose
callbacks have returned with what these have left, and the time of the last `handle_connection`. -/
structure RpcConnection where
  info : RpcInfo := { header := ⟨0, 0, 0⟩ }
  isOpen : Bool := true
  input : List UInt8 := []
  received : List UInt8 := []
  output : List UInt8 := []
  requests : List (UInt32 × List Rpc.Buffer) := []
  answers : List (Int32 × List Rpc.Buffer) := []
  began : Nat := 0
deriving DecidableEq

/-- An asynchronous read or write that has not completed; `started` is false when the socket was closed
before, and the operation can only fail. -/
structure ServerOp where
  conn : Nat
  stage : RpcStage
  started : Bool
deriving DecidableEq, Repr

/-- Where `processor_exec` is: before it takes the lock, waiting for `task_queue_cond`, woken up and
about to take the front of the queue, or in a callback. -/
inductive Processor where
  | free
  | waiting
  | woken
  | running
deriving DecidableEq, Repr

/-- `rpc_server`. Connections are numbered in the order in which they were accepted. `timers` is
`timer_table` in the order of its index by time, and `rpcData` the variable of `processor_exec`. After a
`fault` the program has ended, or its behaviour is undefined. The last two are history variables: the
connections whose requests were put into `task_queue`, and those whose requests were taken out. -/
structure RpcServer where
  conns : List RpcConnection := []
  timers : List (Nat × Nat) := []
  outstanding : List ServerOp := []
  taskQueue : List Nat := []
  processor : Processor := .free
  rpcData : Option Nat := none
  now : Nat := 0
  fault : Bool := false
  queued : List Nat := []
  taken : List Nat := []
deriving DecidableEq

namespace RpcServer

/-- `TIMEOUT`, in microseconds. -/
def timeout : Nat := 30 * 10 ^ 6

def conn (s : RpcServer) (c : Nat) : RpcConnection := s.conns.getD c {}

def setConn (s : RpcServer) (c : Nat) (f : RpcConnection → RpcConnection) : RpcServer :=
  { s with conns := s.conns.modify c f }

/-! ## Timers -/

/-- `add_timer`: the index by socket is unique, and a timer that is there stays as it is. -/
def addTimer (s : RpcServer) (c time : Nat) : RpcServer :=
  if c ∈ s.timers.map Prod.fst then s
  else { s with timers := s.timers.orderedInsert (fun e f => e.2 < f.2) (c, time) }

def cancelTimer (s : RpcServer) (c : Nat) : RpcServer :=
  { s with timers := s.timers.filter fun e => e.1 ≠ c }

def close (s : RpcServer) (c : Nat) : RpcServer := s.setConn c fun x => { x with isOpen := false }

/-- A round of `watchdog_exec`. -/
def watchdog (s : RpcServer) : RpcServer :=
  let expired := s.timers.takeWhile fun e => e.2 < s.now
  (expired.map Prod.fst).foldl close
    { s with timers := s.timers.dropWhile fun e => e.2 < s.now }

/-! ## The handlers -/

/-- `async_read` or `async_write` of `rpc_sync_socket`. -/
def transfer (s : RpcServer) (c : Nat) (stage : RpcStage) : RpcServer :=
  { s with outstanding := s.outstanding ++ [⟨c, stage, (s.conn c).isOpen⟩] }

def handleConnection (s : RpcServer) (c : Nat) : RpcServer :=
  let s := s.setConn c fun x => { x with began := s.now }
  (s.addTimer c (s.now + timeout)).transfer c .header

/-- `handle_accept`; the next connection has its number from the time when it is accepted. -/
def handleAccept (s : RpcServer) (error : Bool) : RpcServer :=
  if error then s
  else { s with conns := s.conns ++ [({} : RpcConnection)] }.handleConnection s.conns.length

/-- `task_queue.push_back` and `notify_one`, which has no effect unless the processor waits. -/
def enqueue (s : RpcServer) (c : Nat) : RpcServer :=
  { s with
    taskQueue := s.taskQueue ++ [c]
    queued := s.queued ++ [c]
    processor := if s.processor = .waiting then .woken else s.processor }

def handleParams (s : RpcServer) (c index : Nat) : RpcServer :=
  if index < (s.conn c).info.params.length then s.transfer c (.paramSize index) else s.enqueue c

/-- `handle_header` for a header that was read. -/
def handleHeader (s : RpcServer) (lookup : UInt32 → Option CallbackKind) (c : Nat) (header : Header) :
    RpcServer :=
  if (lookup header.name).isSome then
    (s.setConn c fun x => { x with info := { x.info with
      header := header
      params := resize x.info.params header.psize.toNat } }).handleParams c 0
  else (s.setConn c fun x => { x with info := { x.info with header := header } }).cancelTimer c

/-- The end of `handle_answer`. -/
def handleAnswer (s : RpcServer) (c index : Nat) : RpcServer :=
  let result := (s.conn c).info.result
  if index < result.length then
    (s.setConn c fun x =>
      { x with info := x.info.setPsize (result.getD index .empty).size }).transfer c (.answerSize index)
  else (s.cancelTimer c).handleConnection c

/-- What a write sends. -/
def written (x : RpcConnection) : RpcStage → List UInt8
  | .answer => x.info.header.bytes
  | .answerSize _ => u32Bytes x.info.header.psize
  | .answerBuffer index => (x.info.result.getD index .empty).content
  | _ => []

def read (s : RpcServer) (c : Nat) (rest : List UInt8) : RpcServer :=
  s.setConn c fun x => { x with input := rest }

def write (s : RpcServer) (c : Nat) (bytes : List UInt8) : RpcServer :=
  s.setConn c fun x => { x with output := x.output ++ bytes }

/-- An operation that has transferred all its bytes, with its handler. A read has not completed before
the client has sent enough. -/
def handle (s : RpcServer) (lookup : UInt32 → Option CallbackKind) (c : Nat) :
    RpcStage → Option RpcServer
  | .header => (readHeader (s.conn c).input).map fun (header, rest) =>
      (s.read c rest).handleHeader lookup c header
  | .paramSize index => (readSize (s.conn c).input).map fun (psize, rest) =>
      ((s.read c rest).setConn c fun x => { x with info := x.info.setPsize psize }).transfer c
        (.paramBuffer index)
  | .paramBuffer index =>
    (readBuffer (s.conn c).info.header.psize (s.conn c).input).map fun (buffer, rest) =>
      ((s.read c rest).setConn c fun x =>
        { x with info := { x.info with params := x.info.params.set index buffer } }).handleParams c
          (u32 (index + 1))
  | .answer => some ((s.write c (written (s.conn c) .answer)).handleAnswer c 0)
  | .answerSize index =>
    some ((s.write c (written (s.conn c) (.answerSize index))).transfer c (.answerBuffer index))
  | .answerBuffer index =>
    some ((s.write c (written (s.conn c) (.answerBuffer index))).handleAnswer c (u32 (index + 1)))

/-- The handler of an operation that has failed after `n` bytes: in each case it cancels the timer and
starts nothing. -/
def handleError (s : RpcServer) (c : Nat) (stage : RpcStage) (n : Nat) : RpcServer :=
  (s.write c ((written (s.conn c) stage).take n)).cancelTimer c

/-! ## The processor -/

/-- `front` and `pop_front`. -/
def dequeue (s : RpcServer) : RpcServer :=
  match s.taskQueue with
  | c :: tasks => { s with
      taskQueue := tasks
      rpcData := some c
      processor := .running
      taken := s.taken ++ [c] }
  | [] => { s with fault := true }

/-- The callback has returned. -/
def finish (s : RpcServer) (c : Nat) (status : Int32) (result : List Rpc.Buffer) : RpcServer :=
  ({ s with processor := .free }.setConn c fun x => { x with
    info := { x.info with
      result := result
      header := { x.info.header with status := status, psize := .ofNat result.length } }
    requests := x.requests ++ [(x.info.header.name, x.info.params)]
    answers := x.answers ++ [(status, result)] }).transfer c .answer

end RpcServer

/-- A connection is accepted, or could not be; the client of a connection sends something; an operation
completes or fails; the processor gets the lock; `wait` returns although nobody has called `notify_one`;
a callback returns, or throws; the address of a sender cannot be had; time; and the watchdog. -/
inductive ServerEvent where
  | accept (error : Bool)
  | receive (c : Nat) (bytes : List UInt8)
  | complete (k : Nat)
  | fail (k n : Nat)
  | take
  | spurious
  | finish (status : Int32) (result : List Rpc.Buffer)
  | throws
  | noEndpoint
  | clock (now : Nat)
  | watchdog
deriving DecidableEq

namespace RpcServer

/-- The callback of the request that the processor works on. -/
def callback (s : RpcServer) (lookup : UInt32 → Option CallbackKind) (c : Nat) : Option CallbackKind :=
  lookup (s.conn c).info.header.name

def step (lookup : UInt32 → Option CallbackKind) (s : RpcServer) (e : ServerEvent) :
    Option RpcServer :=
  if s.fault then none
  else
    match e with
    | .accept error => some (s.handleAccept error)
    | .receive c bytes =>
      if c < s.conns.length then
        some (s.setConn c fun x => { x with
          input := x.input ++ bytes
          received := x.received ++ bytes })
      else none
    | .complete k =>
      match s.outstanding[k]? with
      | some op =>
        if op.started then
          { s with outstanding := s.outstanding.eraseIdx k }.handle lookup op.conn op.stage
        else none
      | none => none
    | .fail k n =>
      match s.outstanding[k]? with
      | some op =>
        some ({ s with outstanding := s.outstanding.eraseIdx k }.handleError op.conn op.stage n)
      | none => none
    | .take =>
      match s.processor with
      | .free => if s.taskQueue = [] then some { s with processor := .waiting } else some s.dequeue
      | .woken => some s.dequeue
      | _ => none
    | .spurious => if s.processor = .waiting then some { s with processor := .woken } else none
    | .finish status result =>
      match s.processor, s.rpcData with
      | .running, some c =>
        if s.callback lookup c = some .ext ∧ ¬ (s.conn c).isOpen then none
        else some (s.finish c status result)
      | _, _ => none
    -- nothing in `processor_exec` catches what a callback throws
    | .throws =>
      match s.processor, s.rpcData with
      | .running, some _ => some { s with fault := true }
      | _, _ => none
    | .noEndpoint =>
      match s.processor, s.rpcData with
      | .running, some c =>
        if s.callback lookup c = some .ext then some { s with fault := true } else none
      | _, _ => none
    | .clock now => some { s with now := now }
    | .watchdog => some s.watchdog

/-! ## A run with two connections -/

/-- A server that knows the name `1`. -/
def lookupOne (name : UInt32) : Option CallbackKind := if name = 1 then some .plain else none

/-- The call of the first client, with one parameter. -/
def firstCall : Client.Call := ⟨1, [⟨[4], by decide⟩], []⟩

/-- The call of the second client, without parameters. -/
def secondCall : Client.Call := ⟨1, [], []⟩

/-- The first request begins first, and the second one is read to its end first. While its callback
runs, the first one comes into the queue; it gets a result, and the first connection waits for the next
request. -/
def twoConnections : List ServerEvent :=
  [.accept false, .accept false, .take, .receive 0 ((Client.stream [firstCall]).getD []),
    .receive 1 ((Client.stream [secondCall]).getD []), .complete 0, .complete 0, .clock 5, .take,
    .complete 0, .complete 0, .finish 0 [], .take, .complete 0, .finish 7 [⟨[8, 9], by decide⟩],
    .complete 1, .complete 1, .complete 1]

end RpcServer

end BlobSeer
