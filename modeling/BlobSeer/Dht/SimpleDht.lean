import BlobSeer.Structures
import BlobSeer.Provider.PageManager

/-!
# The DHT (`common/simple_dht.hpp`)

A pair is put on `replication` gateways; which ones, a hash of the key and the number of the replica
tells. `put` and `get` only queue requests, by gateway. `wait` sends the queued requests of every
gateway as one RPC for its gets and one for its puts, runs the callbacks of these RPCs, and starts
again while the callbacks queue more.

A `put_callback` is named here by the number of the call of `put` that it was given to, and so is
the counter `status` that the replicas of this put share. A `get_callback` is named by the number of
the call of `get`. The calls that are made to them are recorded, in order.

The RPC client is taken to run the callback of every RPC once; in which order the gateways handle
RPCs and the answers arrive, and which of them fail, is open.
-/

namespace BlobSeer

/-- The bound arguments of a `handle_get_callback`: replica, key and `get_callback`. -/
structure HandleGet where
  n : Nat
  key : Buffer
  callback : Nat
deriving DecidableEq, Repr

/-- `gateway_t`; the bound arguments of a `handle_put_callback` are given by the number of the
put. -/
structure Gateway where
  pendingGets : List Buffer := []
  pendingPuts : List Buffer := []
  getCallbacks : List HandleGet := []
  putCallbacks : List Nat := []
deriving DecidableEq, Repr

/-- A put is queued. -/
def Gateway.pushPut (g : Gateway) (key value : Buffer) (p : Nat) : Gateway :=
  { g with pendingPuts := g.pendingPuts ++ [key, value], putCallbacks := g.putCallbacks ++ [p] }

/-- A get is queued. -/
def Gateway.pushGet (g : Gateway) (h : HandleGet) : Gateway :=
  { g with pendingGets := g.pendingGets ++ [h.key], getCallbacks := g.getCallbacks ++ [h] }

/-- A call of `get`: its key, and the puts whose `put_callback` had been called with `ok` by then. -/
structure GetCall where
  key : Buffer
  acked : List Nat
deriving DecidableEq, Repr

/-- `simple_dht`, with the calls of its methods and of its callbacks. -/
structure SimpleDht where
  gateways : List Gateway
  replication : Nat
  status : List Nat := []
  puts : List (Buffer × Buffer) := []
  gets : List GetCall := []
  putResults : List (Nat × Int) := []
  getResults : List (Nat × Buffer) := []
deriving DecidableEq, Repr

namespace SimpleDht

/-- One round of the hash of `choose_gateway`. -/
def sdbm (hash : Nat) (k : UInt8) : Nat :=
  u32 (k.toNat + u32 (hash * 2 ^ 6) + u32 (hash * 2 ^ 16) + (2 ^ 32 - hash))

/-- `choose_gateway`, among `size` gateways. -/
def chooseGateway (size : Nat) (key : Buffer) (n : Nat) : Nat :=
  key.foldl sdbm (u32 n) % size

/-- `simple_dht::put`. -/
def put (d : SimpleDht) (key value : Buffer) : SimpleDht :=
  { d with
    gateways := (List.range d.replication).foldl
      (fun gateways i => gateways.modify (chooseGateway d.gateways.length key i)
        (·.pushPut key value d.puts.length))
      d.gateways
    status := d.status ++ [0]
    puts := d.puts ++ [(key, value)] }

/-- `simple_dht::get`, for one replica. -/
def getReplica (d : SimpleDht) (h : HandleGet) : SimpleDht :=
  { d with
    gateways := d.gateways.modify (chooseGateway d.gateways.length h.key h.n) (·.pushGet h) }

/-- The puts whose `put_callback` has been called with `ok`. -/
def ackedPuts (d : SimpleDht) : List Nat :=
  (d.putResults.filter fun r => r.2 = RpcStatus.ok).map Prod.fst

theorem mem_ackedPuts {d : SimpleDht} {p : Nat} :
    p ∈ d.ackedPuts ↔ (p, RpcStatus.ok) ∈ d.putResults := by
  constructor
  · intro h
    obtain ⟨r, hr, rfl⟩ := List.mem_map.mp h
    obtain ⟨hr, hok⟩ := List.mem_filter.mp hr
    rw [← of_decide_eq_true hok]
    exact hr
  · exact fun h => List.mem_map.mpr ⟨_, List.mem_filter.mpr ⟨h, decide_eq_true rfl⟩, rfl⟩

/-- `simple_dht::get`, called from outside. -/
def get (d : SimpleDht) (key : Buffer) : SimpleDht :=
  { d.getReplica ⟨0, key, d.gets.length⟩ with gets := d.gets ++ [⟨key, d.ackedPuts⟩] }

/-- The counter `status` after an answer: its upper half counts the answers, its lower half those
that were `ok`. -/
def nextStatus (status : Nat) (error : Int) : Nat :=
  u32 ((if error = RpcStatus.ok then u32 (status + 1) else status) + 2 ^ 16)

/-- What `put_callback` is called with, if it is called: all replicas have answered. -/
def putResult (d : SimpleDht) (p status : Nat) : List (Nat × Int) :=
  if status / 2 ^ 16 = d.replication then
    [(p, if status % 2 ^ 16 > 0 then RpcStatus.ok else RpcStatus.eobj)]
  else []

/-- `handle_put_callback`. -/
def handlePutCallback (d : SimpleDht) (p : Nat) (error : Int) : SimpleDht :=
  let status := nextStatus (d.status.getD p 0) error
  { d with
    status := d.status.set p status
    putResults := d.putResults ++ d.putResult p status }

/-- `handle_get_callback`. -/
def handleGetCallback (d : SimpleDht) (h : HandleGet) (error : Int) (val : Buffer) : SimpleDht :=
  if error = RpcStatus.ok ∨ error = RpcStatus.eobj then
    { d with getResults := d.getResults ++ [(h.callback, val)] }
  else if u32 (h.n + 1) = d.replication then
    { d with getResults := d.getResults ++ [(h.callback, [])] }
  else d.getReplica { h with n := u32 (h.n + 1) }

end SimpleDht

/-! ## RPCs -/

/-- The callbacks that an RPC is dispatched with. -/
inductive RpcCallbacks where
  | gets (callbacks : List HandleGet)
  | puts (callbacks : List Nat)
deriving DecidableEq, Repr

/-- The gets of an RPC. -/
def RpcCallbacks.getHandles : RpcCallbacks → List HandleGet
  | .gets l => l
  | .puts _ => []

/-- The puts of an RPC. -/
def RpcCallbacks.putNumbers : RpcCallbacks → List Nat
  | .gets _ => []
  | .puts l => l

/-- Where an RPC is: its gateway has not handled it yet, or has handled it and the answer is on its
way, or the answer will not arrive. -/
inductive RpcState where
  | sent
  | answered (status : Int) (result : List Buffer)
  | lost
deriving DecidableEq, Repr

/-- An RPC in flight: `PROVIDER_READ` for gets, `PROVIDER_WRITE` for puts. `held` records what its
gateway stored when it handled the RPC. -/
structure DhtRpc where
  gateway : Nat
  params : List Buffer
  callbacks : RpcCallbacks
  state : RpcState := .sent
  held : Buffer → Option Buffer := fun _ => none

/-- A call of one of the callbacks of an RPC. -/
inductive DhtCall where
  | put (p : Nat) (error : Int)
  | get (h : HandleGet) (error : Int) (val : Buffer)
deriving DecidableEq, Repr

/-- `handle_put_callbacks`. -/
def handlePutCallbacks (puts : List Nat) (error : Int) : List DhtCall :=
  puts.map fun p => .put p error

/-- `handle_get_callbacks`. -/
def handleGetCallbacks (gets : List HandleGet) (error : Int) (result : List Buffer) :
    List DhtCall :=
  if gets.length ≠ result.length then gets.map fun h => .get h error []
  else List.zipWith (fun h val => .get h error val) gets result

/-- The callback of an RPC. -/
def RpcCallbacks.handle (callbacks : RpcCallbacks) (error : Int) (result : List Buffer) :
    List DhtCall :=
  match callbacks with
  | .gets l => handleGetCallbacks l error result
  | .puts l => handlePutCallbacks l error

namespace Gateway

/-- The part of the loop of `wait` for the gets of gateway `i`. -/
def dispatchGets (g : Gateway) (i : Nat) : Gateway × List DhtRpc :=
  if g.pendingGets.length > 0 then
    ({ g with pendingGets := [], getCallbacks := [] },
      [{ gateway := i, params := g.pendingGets, callbacks := .gets g.getCallbacks }])
  else (g, [])

/-- The part of the loop of `wait` for the puts of gateway `i`. -/
def dispatchPuts (g : Gateway) (i : Nat) : Gateway × List DhtRpc :=
  if g.pendingPuts.length > 0 then
    ({ g with pendingPuts := [], putCallbacks := [] },
      [{ gateway := i, params := g.pendingPuts, callbacks := .puts g.putCallbacks }])
  else (g, [])

/-- One round of the loop of `wait` over the gateways. -/
def dispatch (g : Gateway) (i : Nat) : Gateway × List DhtRpc :=
  let (g, gets) := g.dispatchGets i
  let (g, puts) := g.dispatchPuts i
  (g, gets ++ puts)

end Gateway

/-- The loop of `wait` over the gateways, from gateway `i` on. -/
def dispatchAll : Nat → List Gateway → List Gateway × List DhtRpc
  | _, [] => ([], [])
  | i, g :: gateways =>
    let (g, rpcs) := g.dispatch i
    let (gateways, rest) := dispatchAll (i + 1) gateways
    (g :: gateways, rpcs ++ rest)

/-! ## The DHT with its gateways -/

/-- How the RPC for replica `n` of a get ended: the gateway, the status, and what the gateway stored
under the key of the get when it handled the RPC. -/
structure Attempt where
  n : Nat
  gateway : Nat
  status : Int
  held : Option Buffer
deriving DecidableEq, Repr

/-- The DHT, the stores of its gateways, the RPCs in flight and the callbacks that are still to be
called for an RPC that has ended. The other fields record what has happened: which gateway has
acknowledged which put, how the RPCs of each get ended, and, with their gateways, those of each
put. -/
structure DhtWorld (σ : Type) where
  dht : SimpleDht
  stores : Nat → σ
  flight : List DhtRpc := []
  calls : List DhtCall := []
  acked : List (Nat × Nat) := []
  attempts : Nat → List Attempt := fun _ => []
  putEnds : Nat → List (Nat × Int) := fun _ => []

/-- What happens: calls of `put` and `get` (by the user, or by a callback), a round of the loop of
`wait`, the life of an RPC, the call of a callback. `change` is what others do to the store of a
gateway, and what it loses. -/
inductive DhtAction (σ : Type) where
  | put (key value : Buffer)
  | get (key : Buffer)
  | dispatch
  | serve (i : Nat) (lost : Bool)
  | deliver (i : Nat)
  | fail (i : Nat) (code : Int) (result : List Buffer)
  | call
  | change (g : Nat) (store : σ)

namespace DhtWorld

variable {σ : Type}

/-- RPC `i` ends. -/
def finish (w : DhtWorld σ) (i : Nat) (rpc : DhtRpc) (error : Int) (result : List Buffer) :
    DhtWorld σ :=
  { w with
    flight := w.flight.eraseIdx i
    calls := rpc.callbacks.handle error result
    attempts := fun n => w.attempts n ++ (rpc.callbacks.getHandles.filter (·.callback = n)).map
      fun h => ⟨h.n, rpc.gateway, error, rpc.held h.key⟩
    putEnds := fun p => w.putEnds p ++ (rpc.callbacks.putNumbers.filter (· = p)).map
      fun _ => (rpc.gateway, error) }

/-- `wait` has returned: nothing is queued, in flight or to be called. -/
def Idle (w : DhtWorld σ) : Prop :=
  w.flight = [] ∧ w.calls = [] ∧ ∀ g ∈ w.dht.gateways, g.pendingGets = [] ∧ g.pendingPuts = []

instance (w : DhtWorld σ) : Decidable w.Idle :=
  inferInstanceAs (Decidable (_ ∧ _ ∧ _))

variable [Persistency σ]

/-- The gateway of RPC `i` handles it. -/
def serve (w : DhtWorld σ) (i : Nat) (rpc : DhtRpc) (lost : Bool) : DhtWorld σ :=
  let store := w.stores rpc.gateway
  match rpc.callbacks with
  | .gets _ =>
    let (status, result, store') := PageManager.readPage rpc.params store
    { w with
      stores := Function.update w.stores rpc.gateway store'
      flight := w.flight.set i
        { rpc with
          state := if lost then .lost else .answered status result
          held := Persistency.find store } }
  | .puts puts =>
    let (status, store') := PageManager.writePage rpc.params store
    { w with
      stores := Function.update w.stores rpc.gateway store'
      flight := w.flight.set i
        { rpc with
          state := if lost then .lost else .answered status []
          held := Persistency.find store }
      acked := if lost = false ∧ status = RpcStatus.ok then
          w.acked ++ puts.map fun p => (rpc.gateway, p)
        else w.acked }

/-- `wait` starts a round only when all RPCs of the last one have ended, and one callback runs at a
time. -/
def step (w : DhtWorld σ) : DhtAction σ → Option (DhtWorld σ)
  | .put key value => some { w with dht := w.dht.put key value }
  | .get key => some { w with dht := w.dht.get key }
  | .dispatch =>
    match w.flight, w.calls with
    | [], [] =>
      let (gateways, rpcs) := dispatchAll 0 w.dht.gateways
      some { w with dht := { w.dht with gateways := gateways }, flight := rpcs }
    | _, _ => none
  | .serve i lost =>
    match w.flight[i]? with
    | some rpc => if rpc.state = .sent then some (w.serve i rpc lost) else none
    | none => none
  | .deliver i =>
    match w.flight[i]?, w.calls with
    | some rpc, [] =>
      match rpc.state with
      | .answered status result => some (w.finish i rpc status result)
      | _ => none
    | _, _ => none
  | .fail i code result =>
    match w.flight[i]?, w.calls with
    | some rpc, [] =>
      match rpc.state with
      | .answered _ _ => none
      | _ => some (w.finish i rpc code result)
    | _, _ => none
  | .call =>
    match w.calls with
    | .put p error :: calls => some { w with dht := w.dht.handlePutCallback p error, calls := calls }
    | .get h error val :: calls =>
      some { w with dht := w.dht.handleGetCallback h error val, calls := calls }
    | [] => none
  | .change g store => some { w with stores := Function.update w.stores g store }

/-! ### What a step does -/

variable {w t : DhtWorld σ}

theorem step_dispatch (h : w.step .dispatch = some t) :
    w.flight = [] ∧ w.calls = [] ∧
      t = { w with
        dht := { w.dht with gateways := (dispatchAll 0 w.dht.gateways).1 }
        flight := (dispatchAll 0 w.dht.gateways).2 } := by
  simp only [step] at h
  split at h
  · simp only [Option.some.injEq] at h
    exact ⟨‹_›, ‹_›, h.symm⟩
  · cases h

theorem step_serve {i : Nat} {lost : Bool} (h : w.step (.serve i lost) = some t) :
    ∃ rpc, w.flight[i]? = some rpc ∧ rpc.state = .sent ∧ t = w.serve i rpc lost := by
  simp only [step] at h
  split at h
  · split at h
    · simp only [Option.some.injEq] at h
      exact ⟨_, ‹_›, ‹_›, h.symm⟩
    · cases h
  · cases h

theorem step_deliver {i : Nat} (h : w.step (.deliver i) = some t) :
    ∃ rpc status result, w.flight[i]? = some rpc ∧ w.calls = [] ∧
      rpc.state = .answered status result ∧ t = w.finish i rpc status result := by
  simp only [step] at h
  split at h
  · split at h
    · simp only [Option.some.injEq] at h
      exact ⟨_, _, _, ‹_›, ‹_›, ‹_›, h.symm⟩
    · cases h
  · cases h

theorem step_fail {i : Nat} {code : Int} {result : List Buffer}
    (h : w.step (.fail i code result) = some t) :
    ∃ rpc, w.flight[i]? = some rpc ∧ w.calls = [] ∧ t = w.finish i rpc code result := by
  simp only [step] at h
  split at h
  · split at h
    · cases h
    · simp only [Option.some.injEq] at h
      exact ⟨_, ‹_›, ‹_›, h.symm⟩
  · cases h

theorem step_call (h : w.step .call = some t) :
    (∃ p error calls, w.calls = .put p error :: calls ∧
      t = { w with dht := w.dht.handlePutCallback p error, calls := calls }) ∨
    ∃ hg error val calls, w.calls = .get hg error val :: calls ∧
      t = { w with dht := w.dht.handleGetCallback hg error val, calls := calls } := by
  simp only [step] at h
  split at h
  · simp only [Option.some.injEq] at h
    exact .inl ⟨_, _, _, ‹_›, h.symm⟩
  · simp only [Option.some.injEq] at h
    exact .inr ⟨_, _, _, _, ‹_›, h.symm⟩
  · cases h

end DhtWorld

/-! ### The loop of `wait` over the gateways -/

theorem length_dispatchAll : ∀ (i : Nat) (gateways : List Gateway),
    (dispatchAll i gateways).1.length = gateways.length
  | _, [] => rfl
  | i, _ :: gateways => congrArg Nat.succ (length_dispatchAll (i + 1) gateways)

theorem getElem?_dispatchAll : ∀ {i : Nat} {gateways : List Gateway} {j : Nat} {g : Gateway},
    (dispatchAll i gateways).1[j]? = some g →
      ∃ g', gateways[j]? = some g' ∧ g = (g'.dispatch (i + j)).1
  | i, g' :: gateways, 0, g, h => by
    simp only [dispatchAll, List.getElem?_cons_zero, Option.some.injEq] at h
    exact ⟨g', rfl, h.symm⟩
  | i, g' :: gateways, j + 1, g, h => by
    simp only [dispatchAll, List.getElem?_cons_succ] at h
    obtain ⟨g'', hg, heq⟩ := getElem?_dispatchAll h
    rw [Nat.add_assoc, Nat.add_comm 1 j] at heq
    exact ⟨g'', hg, heq⟩

theorem mem_dispatchAll : ∀ {i : Nat} {gateways : List Gateway} {rpc : DhtRpc},
    rpc ∈ (dispatchAll i gateways).2 →
      ∃ (j : Nat) (g : Gateway), gateways[j]? = some g ∧ rpc ∈ (g.dispatch (i + j)).2
  | i, [], rpc, h => by cases h
  | i, g :: gateways, rpc, h => by
    simp only [dispatchAll] at h
    rcases List.mem_append.mp h with h | h
    · exact ⟨0, g, rfl, h⟩
    · obtain ⟨j, g', hg, hmem⟩ := mem_dispatchAll h
      rw [Nat.add_assoc, Nat.add_comm 1 j] at hmem
      exact ⟨j + 1, g', hg, hmem⟩

/-- Items that every gateway hands over are handed over by the loop. -/
theorem flatMap_dispatchAll {β : Type} (f : Gateway → List β) (f' : DhtRpc → List β) :
    ∀ (i : Nat) (gateways : List Gateway),
      (∀ g ∈ gateways, ∀ j, (g.dispatch j).2.flatMap f' = f g ∧ f (g.dispatch j).1 = []) →
      (dispatchAll i gateways).2.flatMap f' = gateways.flatMap f ∧
        (dispatchAll i gateways).1.flatMap f = []
  | _, [], _ => ⟨rfl, rfl⟩
  | i, g :: gateways, h => by
    obtain ⟨h1, h2⟩ := flatMap_dispatchAll f f' (i + 1) gateways fun g' hg =>
      h g' (List.mem_cons_of_mem _ hg)
    obtain ⟨h3, h4⟩ := h g List.mem_cons_self i
    simp only [dispatchAll, List.flatMap_append, List.flatMap_cons, h1, h2, h3, h4,
      List.append_nil, and_self]

namespace Gateway

/-- Callbacks are queued together with the parameters of their requests. -/
structure Paired (g : Gateway) : Prop where
  gets : g.pendingGets = [] → g.getCallbacks = []
  puts : g.pendingPuts = [] → g.putCallbacks = []

variable {g : Gateway} (h : g.Paired) (i : Nat)

include h

/-- A round of the loop takes everything from a gateway. -/
theorem Paired.dispatch_fst : (g.dispatch i).1 = {} := by
  obtain ⟨pendingGets, pendingPuts, getCallbacks, putCallbacks⟩ := g
  obtain ⟨hgets, hputs⟩ := h
  simp only [dispatch, dispatchGets, dispatchPuts]
  cases pendingGets with
  | nil =>
    cases hgets rfl
    cases pendingPuts with
    | nil => cases hputs rfl; rfl
    | cons => rfl
  | cons =>
    cases pendingPuts with
    | nil => cases hputs rfl; rfl
    | cons => rfl

omit h in
theorem dispatch_snd : (g.dispatch i).2 =
    (if g.pendingGets.length > 0 then
      [{ gateway := i, params := g.pendingGets, callbacks := .gets g.getCallbacks }] else []) ++
    if g.pendingPuts.length > 0 then
      [{ gateway := i, params := g.pendingPuts, callbacks := .puts g.putCallbacks }] else [] := by
  simp only [dispatch, dispatchGets, dispatchPuts]
  split <;> split <;> rfl

theorem Paired.dispatch_gets {β : Type} (f : HandleGet → β) :
    ((g.dispatch i).2.flatMap fun rpc => rpc.callbacks.getHandles.map f) =
      g.getCallbacks.map f := by
  rw [dispatch_snd, List.flatMap_append]
  by_cases hg : g.pendingGets.length > 0
  · rw [if_pos hg]
    split <;> simp [RpcCallbacks.getHandles]
  · rw [if_neg hg, h.gets (List.eq_nil_of_length_eq_zero (by omega))]
    split <;> simp [RpcCallbacks.getHandles]

theorem Paired.dispatch_puts :
    ((g.dispatch i).2.flatMap fun rpc => rpc.callbacks.putNumbers) = g.putCallbacks := by
  rw [dispatch_snd, List.flatMap_append]
  by_cases hp : g.pendingPuts.length > 0
  · rw [if_pos hp]
    split <;> simp [RpcCallbacks.putNumbers]
  · rw [if_neg hp, h.puts (List.eq_nil_of_length_eq_zero (by omega))]
    split <;> simp [RpcCallbacks.putNumbers]

end Gateway

end BlobSeer
