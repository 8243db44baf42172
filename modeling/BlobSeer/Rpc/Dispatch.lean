import BlobSeer.Common.CacheMt
import BlobSeer.Structures

/-!
# The requests of a client (`rpc/rpc_client.hpp`)

`dispatch` puts a request into `request_map`. As long as `waiting_count` is below `WAIT_LIMIT`,
requests are taken out of it, and a connection of its own is made for each one (`pending_map`). A
connection that has served its request takes another one for the same host, first from
`request_map`, then from `pending_map`; the connection that is still being made for the latter is
closed once it is there.

A step is the completion of one asynchronous operation, with everything that its handler does up to
the operations it starts. What goes over a connection is in `Rpc/Framing.lean`; here only the sizes
matter, since they decide about errors.
-/

namespace BlobSeer

/-- `string_pair_t`: a host and a service. -/
abbrev HostId := String × String

/-- A call of `dispatch`: the host, the number of parameters, and the sizes of the buffers that the
caller supplies for the results. -/
structure RpcCall where
  host : HostId
  params : Nat := 0
  result : List Nat := []
deriving DecidableEq, Repr

/-- `rpcinfo_t`. -/
structure RpcRequest extends RpcCall where
  status : Int := 0
  socket : Option Nat := none
deriving DecidableEq, Repr

/-- The reads and writes that a request goes through on its connection. -/
inductive RpcStage where
  | header
  | paramSize (index : Nat)
  | paramBuffer (index : Nat)
  | answer
  | answerSize (index : Nat)
  | answerBuffer (index : Nat)
deriving DecidableEq, Repr

/-- An asynchronous operation that has not completed. -/
inductive RpcOp where
  | resolve (id : Nat)
  | connect (socket id : Nat)
  | transfer (id : Nat) (stage : RpcStage)
deriving DecidableEq, Repr

/-- How an operation completes: its error code, and what a read has put into the header. -/
structure RpcCompletion where
  error : Nat := 0
  status : Int := 0
  psize : Nat := 0
deriving DecidableEq, Repr

/-- `rpc_client` with its `request_queue`, whose maps hold the ids of their requests; the id is the
place in `requests`, as long as the 32-bit `request_id` does not overflow. `picks` says which entry
`begin()` of an unordered map refers to, one number for each call. `undefined` is set by a step that
uses a null socket. `called` and `takeovers` are history variables: the callbacks that were run with
their status, and the number of requests that were taken from `pending_map` for a finished connection
since `run` was entered. -/
structure RpcClient where
  hostCache : CacheMt HostId Unit (CacheMtLRU HostId) := { policy := {}, mSize := 2 ^ 16 }
  waitingCount : Nat := 0
  requests : List RpcRequest := []
  requestMap : List Nat := []
  pendingMap : List Nat := []
  sockets : List Bool := []
  timers : List Nat := []
  outstanding : List RpcOp := []
  picks : List Nat := []
  undefined : Bool := false
  called : List (Nat × Int) := []
  takeovers : Nat := 0

namespace RpcClient

def waitLimit : Nat := 128

/-- The value of `boost::asio::error::invalid_argument`. -/
def invalidArgument : Nat := 22

def request (s : RpcClient) (id : Nat) : RpcRequest := s.requests.getD id { host := ("", "") }

/-! ## Sockets and timers -/

def isOpen (s : RpcClient) (socket : Nat) : Bool := s.sockets.getD socket false

def close (s : RpcClient) (socket : Nat) : RpcClient :=
  { s with sockets := s.sockets.set socket false }

def addTimer (s : RpcClient) (socket : Nat) : RpcClient :=
  { s with timers := if socket ∈ s.timers then s.timers else s.timers ++ [socket] }

/-- `cancel_timer`; there is no timer for a null socket. -/
def cancelTimer (s : RpcClient) : Option Nat → RpcClient
  | some socket => { s with timers := s.timers.erase socket }
  | none => s

/-- An `async_read` or `async_write` on the socket of the request. -/
def transfer (s : RpcClient) (id : Nat) (stage : RpcStage) : RpcClient :=
  match (s.request id).socket with
  | some _ => { s with outstanding := s.outstanding ++ [.transfer id stage] }
  | none => { s with undefined := true }

def setSocket (s : RpcClient) (id socket : Nat) : RpcClient :=
  { s with requests := s.requests.modify id fun r => { r with socket := some socket } }

/-! ## The request queue -/

def enqueue (s : RpcClient) (c : RpcCall) : RpcClient :=
  { s with
    requests := s.requests ++ [{ c with }]
    requestMap := s.requestMap.erase s.requests.length ++ [s.requests.length] }

def markPending (s : RpcClient) (id : Nat) : RpcClient :=
  { s with pendingMap := s.pendingMap.erase id ++ [id] }

/-- The entry that `begin()` refers to, when the entries are `ids`. -/
def pick (s : RpcClient) (ids : List Nat) : Option Nat × RpcClient :=
  match ids with
  | [] => (none, s)
  | id :: _ => (some (ids.getD (s.picks.headD 0 % ids.length) id), { s with picks := s.picks.tail })

def dequeueHost (s : RpcClient) (host : HostId) : Option Nat × RpcClient :=
  match s.pick (s.requestMap.filter fun id => (s.request id).host = host) with
  | (some id, s) => (some id, { s with requestMap := s.requestMap.erase id })
  | (none, s) => (none, s)

/-- `dequeue_pending` of a host. -/
def dequeuePendingHost (s : RpcClient) (host : HostId) : Option Nat × RpcClient :=
  match s.pick (s.pendingMap.filter fun id => (s.request id).host = host) with
  | (some id, s) => (some id, { s with pendingMap := s.pendingMap.erase id })
  | (none, s) => (none, s)

/-- `dequeue_pending` of a request: whether it was pending. -/
def dequeuePending (s : RpcClient) (id : Nat) : Bool × RpcClient :=
  (decide (id ∈ s.pendingMap), { s with pendingMap := s.pendingMap.erase id })

def dequeueAny (s : RpcClient) : Option Nat × RpcClient :=
  match s.pick s.requestMap with
  | (some id, s) => (some id, { s with requestMap := s.requestMap.erase id })
  | (none, s) => (none, s)

/-! ## The next request -/

/-- `handle_resolve` without an error: a socket is made, and `async_connect` opens it. -/
def startConnect (s : RpcClient) (id : Nat) : RpcClient :=
  { s.addTimer s.sockets.length with
    sockets := s.sockets ++ [true]
    outstanding := s.outstanding ++ [.connect s.sockets.length id] }

/-- `cached_resolver::dispatch`, for `handle_resolve`. -/
def resolve (s : RpcClient) (id : Nat) : RpcClient :=
  match s.hostCache.read CacheMtLRU.policy (s.request id).host with
  | (some _, cache) => { s with hostCache := cache }.startConnect id
  | (none, cache) => { s with
      hostCache := cache
      outstanding := s.outstanding ++ [.resolve id] }

/-- `handle_connect` for a request that is not pending, with the error `invalid_argument`. -/
def reuse (s : RpcClient) (socket id : Nat) : RpcClient :=
  ((s.setSocket id socket).addTimer socket).transfer id .header

/-- The open socket of a finished request goes to another one, or is closed. That request has just
left its map, so `handle_connect` does not find it in `pending_map`. -/
def serveNext (s : RpcClient) (socket : Nat) (host : HostId) : RpcClient :=
  match s.dequeueHost host with
  | (some id, s) => { s with waitingCount := u32 (s.waitingCount + 1) }.reuse socket id
  | (none, s) =>
    match s.dequeuePendingHost host with
    | (some id, s) =>
      { s with
        waitingCount := u32 (s.waitingCount + 1)
        takeovers := s.takeovers + 1 }.reuse socket id
    | (none, s) => s.close socket

/-- The loop of `handle_next_request`. Each round raises `waiting_count`, so it ends after
`WAIT_LIMIT` rounds. -/
def startLoop : Nat → RpcClient → RpcClient
  | 0, s => s
  | fuel + 1, s =>
    if s.waitingCount < waitLimit then
      match s.dequeueAny with
      | (some id, s) =>
        startLoop fuel
          ({ s.markPending id with waitingCount := u32 (s.waitingCount + 1) }.resolve id)
      | (none, s) => s
    else s

def handleNextRequest (s : RpcClient) (socket : Option Nat) (host : HostId) : RpcClient :=
  let s := match socket with
    | some socket => if s.isOpen socket then s.serveNext socket host else s
    | none => s
  startLoop waitLimit s

def dispatch (s : RpcClient) (c : RpcCall) : RpcClient := (s.enqueue c).handleNextRequest none c.host

/-! ## The handlers -/

/-- The callback of request `id` is run, and dispatches `calls`; then the socket is free. -/
def finish (s : RpcClient) (id : Nat) (calls : List RpcCall) : RpcClient :=
  let s := { s with called := s.called ++ [(id, (s.request id).status)] }
  let s := calls.foldl dispatch s
  s.handleNextRequest (s.request id).socket (s.request id).host

def handleCallback (s : RpcClient) (id error : Nat) (calls : List RpcCall) : RpcClient :=
  let s := { s with waitingCount := u32 (s.waitingCount + (2 ^ 32 - 1)) }
  let s := s.cancelTimer (s.request id).socket
  if error ≠ 0 then
    let s := { s with requests := s.requests.modify id fun r => { r with status := error } }
    match (s.request id).socket with
    | some socket => (s.close socket).finish id calls
    | none => { s with undefined := true }
  else s.finish id calls

def handleResolve (s : RpcClient) (id error : Nat) (calls : List RpcCall) : RpcClient :=
  if error ≠ 0 then
    match s.dequeuePending id with
    | (true, s) => s.handleCallback id error calls
    | (false, s) => s
  else s.startConnect id

def handleConnect (s : RpcClient) (socket id error : Nat) (calls : List RpcCall) : RpcClient :=
  match s.dequeuePending id with
  | (false, s) =>
    if error ≠ invalidArgument then (s.cancelTimer (some socket)).close socket
    else s.reuse socket id
  | (true, s) =>
    let s := s.setSocket id socket
    if error ≠ 0 then s.handleCallback id error calls
    else s.transfer id .header

def handleParams (s : RpcClient) (id index : Nat) : RpcClient :=
  if index < (s.request id).params then s.transfer id (.paramSize index)
  else s.transfer id .answer

/-- The end of `handle_answer`. -/
def handleAnswer (s : RpcClient) (id index : Nat) (calls : List RpcCall) : RpcClient :=
  if index < (s.request id).result.length then s.transfer id (.answerSize index)
  else s.handleCallback id 0 calls

/-- The handlers of the reads and writes of a request. -/
def handleTransfer (s : RpcClient) (id : Nat) (stage : RpcStage) (o : RpcCompletion)
    (calls : List RpcCall) : RpcClient :=
  match stage with
  | .header =>
    if o.error ≠ 0 then s.handleCallback id o.error calls else s.handleParams id 0
  | .paramSize index =>
    if o.error ≠ 0 then s.handleCallback id o.error calls else s.transfer id (.paramBuffer index)
  | .paramBuffer index =>
    if o.error ≠ 0 then s.handleCallback id invalidArgument calls
    else s.handleParams id (u32 (index + 1))
  | .answer =>
    if o.error ≠ 0 then s.handleCallback id invalidArgument calls
    else
      { s with requests := s.requests.modify id fun r => { r with
          status := o.status
          result := r.result.take o.psize ++ List.replicate (o.psize - r.result.length) 0 }
      }.handleAnswer id 0 calls
  | .answerSize index =>
    let size := (s.request id).result.getD index 0
    if o.error ≠ 0 then s.handleCallback id invalidArgument calls
    else if size ≠ 0 ∧ size ≠ o.psize then s.handleCallback id invalidArgument calls
    else
      { s with requests := s.requests.modify id fun r => { r with
          result := r.result.set index o.psize }
      }.transfer id (.answerBuffer index)
  | .answerBuffer index =>
    if o.error ≠ 0 then s.handleCallback id invalidArgument calls
    else s.handleAnswer id (u32 (index + 1)) calls

/-- The handler of an operation; `cached_resolver` notes a resolved host first. -/
def handle (s : RpcClient) (o : RpcCompletion) (calls : List RpcCall) : RpcOp → RpcClient
  | .resolve id =>
    let cache := if o.error ≠ 0 then s.hostCache
      else (s.hostCache.write CacheMtLRU.policy (s.request id).host () true).2.2
    { s with hostCache := cache }.handleResolve id o.error calls
  | .connect socket id => s.handleConnect socket id o.error calls
  | .transfer id stage => s.handleTransfer id stage o calls

/-- `run`, once the io service has nothing left to do: its result, and the state after it. -/
def run (s : RpcClient) : Bool × RpcClient :=
  (decide (s.waitingCount = 0), { s with
    waitingCount := 0
    requestMap := []
    pendingMap := []
    timers := []
    takeovers := 0 })

end RpcClient

/-! ## Runs -/

/-- A `dispatch` from outside of the callbacks, the completion of an operation (`calls` is what a
callback that it runs dispatches), a connection that the watchdog closes, and the return of `run`. -/
inductive RpcEvent where
  | dispatch (c : RpcCall)
  | complete (k : Nat) (o : RpcCompletion) (calls : List RpcCall)
  | watchdog (socket : Nat)
  | run
deriving DecidableEq, Repr

namespace RpcClient

def step (s : RpcClient) (e : RpcEvent) : Option RpcClient :=
  if s.undefined then none
  else
    match e with
    | .dispatch c => some (s.dispatch c)
    | .complete k o calls =>
      match s.outstanding[k]? with
      | some op => some ({ s with outstanding := s.outstanding.eraseIdx k }.handle o calls op)
      | none => none
    | .watchdog socket =>
      if socket ∈ s.timers then some ((s.close socket).cancelTimer (some socket)) else none
    | .run => if s.outstanding = [] then some s.run.2 else none

/-- The operations that the completion may be of: not a failed lookup of a host for a pending
request, and not a connection that ends with `invalid_argument` after its request was taken over. -/
def Harmless (s : RpcClient) (o : RpcCompletion) : RpcOp → Prop
  | .resolve id => o.error = 0 ∨ id ∉ s.pendingMap
  | .connect _ id => o.error ≠ invalidArgument ∨ id ∈ s.pendingMap
  | .transfer _ _ => True

instance (s : RpcClient) (o : RpcCompletion) (op : RpcOp) : Decidable (s.Harmless o op) :=
  match op with
  | .resolve _ => inferInstanceAs (Decidable (_ ∨ _))
  | .connect .. => inferInstanceAs (Decidable (_ ∨ _))
  | .transfer .. => .isTrue trivial

/-- Fewer than `2 ^ 32` requests, fewer than `WAIT_LIMIT` of them taken over since `run` was entered,
and only harmless completions. -/
def Ok (s : RpcClient) : RpcEvent → Prop
  | .dispatch _ => s.takeovers < waitLimit ∧ s.requests.length < 2 ^ 32
  | .complete k o calls => s.takeovers < waitLimit ∧ s.requests.length + calls.length ≤ 2 ^ 32 ∧
    ∀ op ∈ s.outstanding[k]?, s.Harmless o op
  | _ => True

instance (s : RpcClient) (e : RpcEvent) : Decidable (s.Ok e) :=
  match e with
  | .dispatch _ => inferInstanceAs (Decidable (_ ∧ _))
  | .complete .. => inferInstanceAs (Decidable (_ ∧ _))
  | .watchdog _ | .run => .isTrue trivial

/-- No step has used a null socket, no callback was run twice, and when nothing is outstanding both
maps are empty and every request was called back. -/
structure Completes (s : RpcClient) : Prop where
  defined : s.undefined = false
  once : (s.called.map Prod.fst).Nodup
  all : s.outstanding = [] → s.requestMap = [] ∧ s.pendingMap = [] ∧
    (s.called.map Prod.fst).Perm (List.range s.requests.length)

end RpcClient

end BlobSeer
