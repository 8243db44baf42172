import BlobSeer.Lib.Run
import BlobSeer.Lib.Lists
import BlobSeer.Dht.SimpleDht

/-!
# The way of a request through the DHT

A request of a get waits at a gateway, is in flight, waits for its callback and comes back to the
next gateway until it has an answer. `Flow` says where the requests are and what is known of them
there: each get has one request or one result, and each put has one request for every replica, or
the end of its RPC.
-/

namespace BlobSeer

open Lib
open Persistency (find)
open PageManager (flatPairs)
open SimpleDht (chooseGateway)

/-! ## Attempts of a get -/

/-- A gateway has answered, with the value or without. -/
def Answered (status : Int) : Prop := status = RpcStatus.ok ∨ status = RpcStatus.eobj

instance (status : Int) : Decidable (Answered status) := inferInstanceAs (Decidable (_ ∨ _))

/-- The value of a get: what its key has at the first replica that has answered. -/
def firstAnswer (attempts : List Attempt) : Buffer :=
  match attempts.find? fun a => Answered a.status with
  | some a => a.held.getD []
  | none => []

/-- The replicas before `k` were asked, in order, and did not answer. -/
def Tried (size : Nat) (key : Buffer) (attempts : List Attempt) (k : Nat) : Prop :=
  (attempts.map fun a => (a.n, a.gateway)) =
      (List.range k).map (fun n => (n, chooseGateway size key n)) ∧
    ∀ a ∈ attempts, ¬ Answered a.status

/-- The replicas up to `a.n` were asked, in order, and only the last one may have answered. -/
structure Asked (size : Nat) (key : Buffer) (before : List Attempt) (a : Attempt) : Prop where
  tried : Tried size key before a.n
  gateway : a.gateway = chooseGateway size key a.n

/-- The attempts of a get that is over: the last one was answered, or it was the last replica. -/
def Finished (d : SimpleDht) (key : Buffer) (attempts : List Attempt) : Prop :=
  ∃ before a, attempts = before ++ [a] ∧ Asked d.gateways.length key before a ∧
    a.n < d.replication ∧ (Answered a.status ∨ a.n + 1 = d.replication)

theorem Asked.next {size : Nat} {key : Buffer} {before : List Attempt} {a : Attempt}
    (h : Asked size key before a) (ha : ¬ Answered a.status) :
    Tried size key (before ++ [a]) (a.n + 1) := by
  refine ⟨?_, fun b hb => ?_⟩
  · rw [List.map_append, h.tried.1, List.range_succ, List.map_append]
    simp only [List.map_cons, List.map_nil, h.gateway]
  · rcases List.mem_append.mp hb with hb | hb
    · exact h.tried.2 b hb
    · rw [List.mem_singleton.mp hb]
      exact ha

theorem firstAnswer_append {before : List Attempt} {a : Attempt}
    (h : ∀ b ∈ before, ¬ Answered b.status) :
    firstAnswer (before ++ [a]) = if Answered a.status then a.held.getD [] else [] := by
  have hnone : before.find? (fun a => Answered a.status) = none := by
    rw [List.find?_eq_none]
    intro b hb
    simpa using h b hb
  rw [firstAnswer, List.find?_append, hnone, Option.none_or]
  by_cases ha : Answered a.status
  · rw [List.find?_cons_of_pos (by simpa using ha), if_pos ha]
  · rw [List.find?_cons_of_neg (by simpa using ha), if_neg ha]
    rfl

/-! ## Where the requests are -/

/-- The gets whose callback a call is for. -/
def DhtCall.getNumbers : DhtCall → List Nat
  | .put _ _ => []
  | .get h _ _ => [h.callback]

/-- The answers for put `p` among calls. -/
def DhtCall.putErrors (p : Nat) : DhtCall → List Int
  | .put q error => if q = p then [error] else []
  | .get _ _ _ => []

/-- What a list of answers adds to the counter `status`. -/
def weight (errors : List Int) : Nat :=
  (errors.map fun e => 2 ^ 16 + if e = RpcStatus.ok then 1 else 0).sum

section Requests

variable (d : SimpleDht)

/-- Gateway `g` has one of the replicas of `key`. -/
def SimpleDht.Replica (key : Buffer) (g : Nat) : Prop :=
  ∃ j < d.replication, chooseGateway d.gateways.length key j = g

/-- The parameters of puts at gateway `g`, and their callbacks. -/
def PutsOk (g : Nat) (params : List Buffer) (callbacks : List Nat) : Prop :=
  ∃ es, params = flatPairs es ∧
    List.Forall₂ (fun p e => d.puts[p]? = some e ∧ d.Replica e.1 g) callbacks es

/-- Get number `n` is for `key`. -/
def SimpleDht.GetFor (n : Nat) (key : Buffer) : Prop := ∃ c, d.gets[n]? = some c ∧ c.key = key

variable (attempts : Nat → List Attempt)

/-- A request of a get on its way to gateway `g`. -/
structure Asking (g : Nat) (h : HandleGet) : Prop where
  get_for : d.GetFor h.callback h.key
  lt : h.n < d.replication
  gateway : chooseGateway d.gateways.length h.key h.n = g
  tried : Tried d.gateways.length h.key (attempts h.callback) h.n

/-- The parameters of gets at gateway `g`, and their callbacks. -/
def GetsOk (g : Nat) (params : List Buffer) (callbacks : List HandleGet) : Prop :=
  params = callbacks.map HandleGet.key ∧ ∀ h ∈ callbacks, Asking d attempts g h

/-- An RPC in flight. An answer to gets has what the gateway held under their keys. -/
def RpcOk (rpc : DhtRpc) : Prop :=
  match rpc.callbacks with
  | .puts l => PutsOk d rpc.gateway rpc.params l
  | .gets l => GetsOk d attempts rpc.gateway rpc.params l ∧ rpc.params ≠ [] ∧
      ∀ status result, rpc.state = .answered status result →
        Answered status ∧ result = l.map fun h => (rpc.held h.key).getD []

/-- A call of a callback of an RPC that has ended. -/
def CallOk : DhtCall → Prop
  | .put p _ => p < d.puts.length
  | .get h error val => d.GetFor h.callback h.key ∧ h.n < d.replication ∧
      ∃ before a, attempts h.callback = before ++ [a] ∧ a.n = h.n ∧ a.status = error ∧
        Asked d.gateways.length h.key before a ∧ (Answered error → val = a.held.getD [])

/-- The result of a get. -/
def ResultOk (e : Nat × Buffer) : Prop :=
  ∃ key, d.GetFor e.1 key ∧ Finished d key (attempts e.1) ∧ e.2 = firstAnswer (attempts e.1)

end Requests

/-- `d'` is `d` after more calls of `put` and `get`. -/
structure SimpleDht.Frame (d d' : SimpleDht) : Prop where
  size : d'.gateways.length = d.gateways.length
  replication : d'.replication = d.replication
  puts : ∀ (p : Nat) (e : Buffer × Buffer), d.puts[p]? = some e → d'.puts[p]? = some e
  gets : ∀ (n : Nat) (c : GetCall), d.gets[n]? = some c → d'.gets[n]? = some c

namespace SimpleDht.Frame

variable {d d' : SimpleDht} (f : d.Frame d') {attempts attempts' : Nat → List Attempt}

theorem refl (d : SimpleDht) : d.Frame d := ⟨rfl, rfl, fun _ _ h => h, fun _ _ h => h⟩

include f

theorem getFor {n : Nat} {key : Buffer} (h : d.GetFor n key) : d'.GetFor n key := by
  obtain ⟨c, hc, hkey⟩ := h
  exact ⟨c, f.gets n c hc, hkey⟩

theorem replica {key : Buffer} {g : Nat} (h : d.Replica key g) : d'.Replica key g := by
  rw [Replica, f.size, f.replication]
  exact h

theorem putsOk {g : Nat} {params : List Buffer} {callbacks : List Nat}
    (h : PutsOk d g params callbacks) : PutsOk d' g params callbacks := by
  obtain ⟨es, hparams, hes⟩ := h
  exact ⟨es, hparams, hes.imp fun p e hp => ⟨f.puts p e hp.1, f.replica hp.2⟩⟩

theorem asking {g : Nat} {h : HandleGet} (ha : attempts' h.callback = attempts h.callback)
    (hh : Asking d attempts g h) : Asking d' attempts' g h where
  get_for := f.getFor hh.get_for
  lt := by rw [f.replication]; exact hh.lt
  gateway := by rw [f.size]; exact hh.gateway
  tried := by rw [f.size, ha]; exact hh.tried

theorem getsOk {g : Nat} {params : List Buffer} {callbacks : List HandleGet}
    (ha : ∀ h ∈ callbacks, attempts' h.callback = attempts h.callback)
    (h : GetsOk d attempts g params callbacks) : GetsOk d' attempts' g params callbacks :=
  ⟨h.1, fun hg hmem => f.asking (ha hg hmem) (h.2 hg hmem)⟩

theorem rpcOk {rpc : DhtRpc}
    (ha : ∀ h ∈ rpc.callbacks.getHandles, attempts' h.callback = attempts h.callback)
    (h : RpcOk d attempts rpc) : RpcOk d' attempts' rpc := by
  unfold RpcOk at h ⊢
  cases hc : rpc.callbacks with
  | puts l =>
    simp only [hc] at h ⊢
    exact f.putsOk h
  | gets l =>
    simp only [hc, RpcCallbacks.getHandles] at ha h ⊢
    exact ⟨f.getsOk ha h.1, h.2⟩

theorem callOk {c : DhtCall} (ha : ∀ n ∈ c.getNumbers, attempts' n = attempts n)
    (h : CallOk d attempts c) : CallOk d' attempts' c := by
  cases c with
  | put p error =>
    have hp : d.puts[p]? = some (d.puts[p]) := List.getElem?_eq_getElem h
    exact (List.getElem?_eq_some_iff.mp (f.puts p _ hp)).1
  | get hg error val =>
    have hn := ha hg.callback (List.mem_singleton.mpr rfl)
    simp only [CallOk, f.size, f.replication, hn] at h ⊢
    exact ⟨f.getFor h.1, h.2⟩

theorem resultOk {e : Nat × Buffer} (ha : attempts' e.1 = attempts e.1)
    (h : ResultOk d attempts e) : ResultOk d' attempts' e := by
  obtain ⟨key, hkey, hfin, hval⟩ := h
  refine ⟨key, f.getFor hkey, ?_, by rw [ha]; exact hval⟩
  simp only [Finished, f.size, f.replication, ha] at hfin ⊢
  exact hfin

end SimpleDht.Frame

theorem PutsOk.push {d : SimpleDht} {g p : Nat} {params : List Buffer} {callbacks : List Nat}
    {e : Buffer × Buffer} (h : PutsOk d g params callbacks) (hp : d.puts[p]? = some e)
    (hg : d.Replica e.1 g) : PutsOk d g (params ++ [e.1, e.2]) (callbacks ++ [p]) := by
  obtain ⟨es, hparams, hes⟩ := h
  refine ⟨es ++ [e], ?_, ?_⟩
  · rw [hparams, flatPairs, flatPairs, List.flatMap_append]
    rfl
  · exact List.rel_append hes (.cons ⟨hp, hg⟩ .nil)

theorem GetsOk.push {d : SimpleDht} {attempts : Nat → List Attempt} {g : Nat}
    {params : List Buffer} {callbacks : List HandleGet} {h : HandleGet}
    (hok : GetsOk d attempts g params callbacks) (hh : Asking d attempts g h) :
    GetsOk d attempts g (params ++ [h.key]) (callbacks ++ [h]) := by
  refine ⟨?_, fun x hx => ?_⟩
  · rw [hok.1, List.map_append]
    rfl
  · rcases List.mem_append.mp hx with hx | hx
    · exact hok.2 x hx
    · rw [List.mem_singleton.mp hx]
      exact hh

/-- What is queued at a gateway. -/
def GatewayOk (d : SimpleDht) (attempts : Nat → List Attempt) (g : Nat) (gw : Gateway) : Prop :=
  GetsOk d attempts g gw.pendingGets gw.getCallbacks ∧ PutsOk d g gw.pendingPuts gw.putCallbacks

theorem PutsOk.callbacks_nil {d : SimpleDht} {g : Nat} {callbacks : List Nat}
    (h : PutsOk d g [] callbacks) : callbacks = [] := by
  obtain ⟨es, hparams, hes⟩ := h
  cases es with
  | nil => exact List.forall₂_nil_right_iff.mp hes
  | cons e es => cases hparams

theorem GatewayOk.paired {d : SimpleDht} {attempts : Nat → List Attempt} {g : Nat} {gw : Gateway}
    (h : GatewayOk d attempts g gw) : gw.Paired where
  gets hnil := by
    have hmap := h.1.1
    rw [hnil] at hmap
    exact List.map_eq_nil_iff.mp hmap.symm
  puts hnil := by
    have hputs := h.2
    rw [hnil] at hputs
    exact hputs.callbacks_nil

theorem SimpleDht.Frame.gatewayOk {d d' : SimpleDht} (f : d.Frame d')
    {attempts attempts' : Nat → List Attempt} {g : Nat} {gw : Gateway}
    (ha : ∀ h ∈ gw.getCallbacks, attempts' h.callback = attempts h.callback)
    (h : GatewayOk d attempts g gw) : GatewayOk d' attempts' g gw :=
  ⟨f.getsOk ha h.1, f.putsOk h.2⟩

theorem SimpleDht.frame_put (d : SimpleDht) (key value : Buffer) : d.Frame (d.put key value) where
  size := length_foldl_modify _ _ _ _
  replication := rfl
  puts _ _ hp := List.getElem?_append_left (List.getElem?_eq_some_iff.mp hp).1 ▸ hp
  gets _ _ h := h

theorem SimpleDht.frame_getReplica (d : SimpleDht) (h : HandleGet) : d.Frame (d.getReplica h) where
  size := List.length_modify _ _ _
  replication := rfl
  puts _ _ h := h
  gets _ _ h := h

theorem SimpleDht.frame_get (d : SimpleDht) (key : Buffer) : d.Frame (d.get key) where
  size := List.length_modify _ _ _
  replication := rfl
  puts _ _ h := h
  gets _ _ hc := List.getElem?_append_left (List.getElem?_eq_some_iff.mp hc).1 ▸ hc

theorem chooseGateway_lt {size : Nat} (h : 0 < size) (key : Buffer) (n : Nat) :
    chooseGateway size key n < size :=
  Nat.mod_lt _ h

namespace DhtWorld

variable {σ : Type}

/-- The gets with a request at a gateway. -/
def pendingGets (w : DhtWorld σ) : List Nat :=
  w.dht.gateways.flatMap fun g => g.getCallbacks.map HandleGet.callback

/-- The gets with a request in flight. -/
def flightGets (w : DhtWorld σ) : List Nat :=
  w.flight.flatMap fun rpc => rpc.callbacks.getHandles.map HandleGet.callback

/-- The gets with a request whose callback is to be called. -/
def callGets (w : DhtWorld σ) : List Nat := w.calls.flatMap DhtCall.getNumbers

/-- The gets with a result, once for each call of their callback. -/
def doneGets (w : DhtWorld σ) : List Nat := w.dht.getResults.map Prod.fst

structure Flow (w : DhtWorld σ) : Prop where
  size_pos : 0 < w.dht.gateways.length
  repl_pos : 0 < w.dht.replication
  repl_lt : w.dht.replication < 2 ^ 16
  gateways : ∀ (g : Nat) (gw : Gateway), w.dht.gateways[g]? = some gw →
    GatewayOk w.dht w.attempts g gw
  flight : ∀ rpc ∈ w.flight, RpcOk w.dht w.attempts rpc
  calls : ∀ c ∈ w.calls, CallOk w.dht w.attempts c
  results : ∀ e ∈ w.dht.getResults, ResultOk w.dht w.attempts e
  once : ∀ n, w.pendingGets.count n + w.flightGets.count n + w.callGets.count n +
    w.doneGets.count n = if n < w.dht.gets.length then 1 else 0
  fresh : ∀ n, w.dht.gets.length ≤ n → w.attempts n = []

/-- The state before any call. -/
structure Initial (w : DhtWorld σ) : Prop where
  size_pos : 0 < w.dht.gateways.length
  repl_pos : 0 < w.dht.replication
  repl_lt : w.dht.replication < 2 ^ 16
  dht : w.dht = { gateways := List.replicate w.dht.gateways.length {}
                  replication := w.dht.replication }
  flight : w.flight = []
  calls : w.calls = []
  acked : w.acked = []
  attempts : ∀ n, w.attempts n = []
  putEnds : ∀ p, w.putEnds p = []

/-- An RPC that fails has the code of a transport error as its status. It is not `ok`, and not
`eobj` either, which among the error numbers is `ENXIO`, no error of a connection. -/
def TransportErrors : DhtWorld σ → DhtAction σ → Prop
  | _, .fail _ code _ => code ≠ RpcStatus.ok ∧ code ≠ RpcStatus.eobj
  | _, _ => True

instance (w : DhtWorld σ) : ∀ a, Decidable (TransportErrors w a)
  | .fail _ code _ => inferInstanceAs (Decidable (code ≠ RpcStatus.ok ∧ code ≠ RpcStatus.eobj))
  | .put _ _ => .isTrue trivial
  | .get _ => .isTrue trivial
  | .dispatch => .isTrue trivial
  | .serve _ _ => .isTrue trivial
  | .deliver _ => .isTrue trivial
  | .call => .isTrue trivial
  | .change _ _ => .isTrue trivial

namespace Flow

theorem initial {w : DhtWorld σ} (h : w.Initial) : w.Flow := by
  have hgw : ∀ (g : Nat) (gw : Gateway), w.dht.gateways[g]? = some gw → gw = {} := by
    intro g gw hg
    rw [h.dht] at hg
    exact List.eq_of_mem_replicate (List.mem_of_getElem? hg)
  refine ⟨h.size_pos, h.repl_pos, h.repl_lt, fun g gw hg => ?_, ?_, ?_, ?_, ?_, fun n _ =>
    h.attempts n⟩
  · rw [hgw g gw hg]
    exact ⟨⟨rfl, nofun⟩, [], rfl, .nil⟩
  · rw [h.flight]
    exact nofun
  · rw [h.calls]
    exact nofun
  · rw [h.dht]
    exact nofun
  · have hpending : w.pendingGets = [] := by
      refine List.flatMap_eq_nil_iff.mpr fun gw hmem => ?_
      obtain ⟨g, hg⟩ := List.mem_iff_getElem?.mp hmem
      rw [hgw g gw hg]
      rfl
    intro n
    rw [hpending, flightGets, callGets, doneGets, h.flight, h.calls, h.dht]
    rfl

variable {w t : DhtWorld σ}

/-- The requests of an RPC in flight. -/
theorem asking (h : w.Flow) {rpc : DhtRpc} (hrpc : rpc ∈ w.flight) {x : HandleGet}
    (hx : x ∈ rpc.callbacks.getHandles) :
    Asking w.dht w.attempts rpc.gateway x ∧
      ∀ status result, rpc.state = .answered status result → Answered status := by
  have hok := h.flight rpc hrpc
  cases hcb : rpc.callbacks with
  | puts l =>
    rw [hcb] at hx
    cases hx
  | gets l =>
    rw [hcb] at hx
    rw [RpcOk, hcb] at hok
    exact ⟨hok.1.2 x hx, fun status result hstate => (hok.2.2 status result hstate).1⟩

/-- A step that does not touch the requests of gets. -/
theorem frame (h : w.Flow) (f : w.dht.Frame t.dht) (hg : ∀ (g : Nat) (gw : Gateway),
      t.dht.gateways[g]? = some gw → GatewayOk t.dht w.attempts g gw)
    (hp : t.pendingGets = w.pendingGets) (hgets : t.dht.gets = w.dht.gets)
    (hr : t.dht.getResults = w.dht.getResults) (ha : t.attempts = w.attempts)
    (hf : ∀ rpc ∈ t.flight, RpcOk t.dht w.attempts rpc) (hfl : t.flightGets = w.flightGets)
    (hc : ∀ c ∈ t.calls, c ∈ w.calls) (hcg : t.callGets = w.callGets) : t.Flow where
  size_pos := by rw [f.size]; exact h.size_pos
  repl_pos := by rw [f.replication]; exact h.repl_pos
  repl_lt := by rw [f.replication]; exact h.repl_lt
  gateways := by rw [ha]; exact hg
  flight := by rw [ha]; exact hf
  calls c hmem := by
    rw [ha]
    exact f.callOk (fun _ _ => rfl) (h.calls c (hc c hmem))
  results e hmem := by
    rw [ha]
    rw [hr] at hmem
    exact f.resultOk rfl (h.results e hmem)
  once := by
    rw [hp, hfl, hcg, doneGets, hr, hgets]
    exact h.once
  fresh := by rw [ha, hgets]; exact h.fresh

theorem put (h : w.Flow) (key value : Buffer) : Flow { w with dht := w.dht.put key value } := by
  have f := w.dht.frame_put key value
  refine h.frame f ?_ ?_ rfl rfl rfl (fun rpc hr => f.rpcOk (fun _ _ => rfl) (h.flight rpc hr)) rfl
    (fun _ hc => hc) rfl
  · have hp : (w.dht.put key value).puts[w.dht.puts.length]? = some (key, value) :=
      List.getElem?_concat_length
    refine forall_getElem?_foldl_modify _ _ (fun g gw hg => ?_) fun i hi gw hok => ?_
    · exact f.gatewayOk (fun _ _ => rfl) (h.gateways g gw hg)
    · refine ⟨hok.1, hok.2.push hp ⟨i, List.mem_range.mp hi, ?_⟩⟩
      rw [f.size]
  · exact flatMap_foldl_modify_eq (g := fun g => Gateway.pushPut g key value w.dht.puts.length)
      (fun _ => rfl) _ _ _

/-- A request is queued at its gateway. -/
theorem gateways_push (h : w.Flow) {d : SimpleDht} (f : w.dht.Frame d) {x : HandleGet}
    {attempts : Nat → List Attempt} (ha : attempts = w.attempts)
    (hx : Asking d attempts (chooseGateway w.dht.gateways.length x.key x.n) x) :
    ∀ (g : Nat) (gw : Gateway), (w.dht.getReplica x).gateways[g]? = some gw →
      GatewayOk d attempts g gw := by
  refine forall_getElem?_modify (fun g gw hg => ?_) fun gw hok => ⟨hok.1.push hx, hok.2⟩
  exact f.gatewayOk (fun _ _ => by rw [ha]) (h.gateways g gw hg)

theorem pendingGets_push (h : w.Flow) (x : HandleGet) :
    ((w.dht.getReplica x).gateways.flatMap fun g => g.getCallbacks.map HandleGet.callback).Perm
      (w.pendingGets ++ [x.callback]) :=
  flatMap_modify_perm (fun _ => List.map_append)
    (chooseGateway_lt h.size_pos x.key x.n)

theorem get (h : w.Flow) (key : Buffer) : Flow { w with dht := w.dht.get key } := by
  have f := w.dht.frame_get key
  have hnew : (w.dht.get key).gets[w.dht.gets.length]? = some ⟨key, w.dht.ackedPuts⟩ :=
    List.getElem?_concat_length
  have hlen : (w.dht.get key).gets.length = w.dht.gets.length + 1 := List.length_append
  refine ⟨by rw [f.size]; exact h.size_pos, h.repl_pos, h.repl_lt, ?_, ?_, ?_, ?_, ?_, ?_⟩
  · refine h.gateways_push f rfl ⟨⟨_, hnew, rfl⟩, h.repl_pos, ?_, ?_⟩
    · rw [f.size]
    · rw [h.fresh _ (Nat.le_refl _)]
      exact ⟨rfl, nofun⟩
  · exact fun rpc hr => f.rpcOk (fun _ _ => rfl) (h.flight rpc hr)
  · exact fun c hc => f.callOk (fun _ _ => rfl) (h.calls c hc)
  · exact fun e he => f.resultOk rfl (h.results e he)
  · intro n
    have hpending := (h.pendingGets_push ⟨0, key, w.dht.gets.length⟩).count_eq n
    have honce := h.once n
    rw [List.count_append, List.count_singleton] at hpending
    rw [hlen]
    refine (congrArg (· + w.flightGets.count n + w.callGets.count n + w.doneGets.count n)
      hpending).trans ?_
    dsimp only at hpending ⊢
    grind
  · intro n hn
    rw [hlen] at hn
    exact h.fresh n (by omega)

/-- A round of `wait`. -/
theorem dispatch (h : w.Flow) (hflight : w.flight = []) :
    Flow { w with
      dht := { w.dht with gateways := (dispatchAll 0 w.dht.gateways).1 }
      flight := (dispatchAll 0 w.dht.gateways).2 } := by
  have hpaired : ∀ g ∈ w.dht.gateways, g.Paired := by
    intro gw hmem
    obtain ⟨g, hg⟩ := List.mem_iff_getElem?.mp hmem
    exact (h.gateways g gw hg).paired
  have f : w.dht.Frame { w.dht with gateways := (dispatchAll 0 w.dht.gateways).1 } :=
    ⟨length_dispatchAll 0 _, rfl, fun _ _ h => h, fun _ _ h => h⟩
  obtain ⟨hto, hfrom⟩ := flatMap_dispatchAll (fun g => g.getCallbacks.map HandleGet.callback)
    (fun rpc => rpc.callbacks.getHandles.map HandleGet.callback) 0 w.dht.gateways
    fun g hg j => ⟨(hpaired g hg).dispatch_gets j _, by rw [(hpaired g hg).dispatch_fst j]; rfl⟩
  refine ⟨by rw [f.size]; exact h.size_pos, h.repl_pos, h.repl_lt, ?_, ?_, ?_, ?_, ?_, h.fresh⟩
  · intro g gw hg
    obtain ⟨gw', hgw, rfl⟩ := getElem?_dispatchAll hg
    rw [(h.gateways g gw' hgw).paired.dispatch_fst]
    exact ⟨⟨rfl, nofun⟩, [], rfl, .nil⟩
  · intro rpc hmem
    obtain ⟨g, gw, hgw, hrpc⟩ := mem_dispatchAll hmem
    have hok := f.gatewayOk (fun _ _ => rfl) (h.gateways g gw hgw)
    rw [Gateway.dispatch_snd, Nat.zero_add] at hrpc
    rcases List.mem_append.mp hrpc with hrpc | hrpc
    · split at hrpc
      · rw [List.mem_singleton.mp hrpc]
        exact ⟨hok.1, List.ne_nil_of_length_pos ‹_›, nofun⟩
      · cases hrpc
    · split at hrpc
      · rw [List.mem_singleton.mp hrpc]
        exact hok.2
      · cases hrpc
  · exact fun c hc => f.callOk (fun _ _ => rfl) (h.calls c hc)
  · exact fun e he => f.resultOk rfl (h.results e he)
  · intro n
    have honce := h.once n
    rw [flightGets, hflight, List.flatMap_nil, List.count_nil] at honce
    rw [pendingGets, hfrom, flightGets, hto, List.count_nil]
    exact (congrArg (· + w.callGets.count n + w.doneGets.count n) (Nat.add_comm _ _)).trans honce

/-- A gateway handles an RPC. -/
theorem serve [Persistency σ] (h : w.Flow) {i : Nat} {rpc : DhtRpc} (lost : Bool)
    (hrpc : w.flight[i]? = some rpc) : (w.serve i rpc lost).Flow := by
  have hok := h.flight rpc (List.mem_of_getElem? hrpc)
  have hset : ∀ {state held}, RpcOk w.dht w.attempts { rpc with state := state, held := held } →
      ∀ r ∈ w.flight.set i { rpc with state := state, held := held }, RpcOk w.dht w.attempts r := by
    intro state held hnew r hr
    rcases List.mem_or_eq_of_mem_set hr with hr | rfl
    · exact h.flight r hr
    · exact hnew
  unfold DhtWorld.serve
  split
  · rename_i l hl
    refine h.frame (.refl _) h.gateways rfl rfl rfl rfl (hset ?_) (flatMap_set_eq hrpc rfl)
      (fun _ hc => hc) rfl
    rw [RpcOk, hl] at hok
    rw [RpcOk, hl]
    refine ⟨hok.1, hok.2.1, fun status result heq => ?_⟩
    obtain ⟨hst, hres, -⟩ := PageManager.readPage_spec hok.2.1 (w.stores rpc.gateway)
    cases lost with
    | true => cases heq
    | false =>
      cases heq
      refine ⟨hst, hres.trans ?_⟩
      rw [hok.1.1, List.map_map]
      rfl
  · rename_i l hl
    refine h.frame (.refl _) h.gateways rfl rfl rfl rfl (hset ?_) (flatMap_set_eq hrpc rfl)
      (fun _ hc => hc) rfl
    rw [RpcOk, hl] at hok
    rw [RpcOk, hl]
    exact hok

/-- The calls for the gets of an RPC. -/
theorem mem_handleGetCallbacks {l : List HandleGet} {error : Int} {result : List Buffer}
    {c : DhtCall} (h : c ∈ handleGetCallbacks l error result) :
    ∃ hg ∈ l, ∃ val, c = .get hg error val ∧
      ∀ f : HandleGet → Buffer, result = l.map f → val = f hg := by
  rw [handleGetCallbacks] at h
  split at h
  · rename_i hne
    obtain ⟨hg, hmem, rfl⟩ := List.mem_map.mp h
    refine ⟨hg, hmem, _, rfl, fun f hf => absurd ?_ hne⟩
    rw [hf, List.length_map]
  · obtain ⟨j, hj, rfl⟩ := List.mem_iff_getElem.mp h
    rw [List.length_zipWith] at hj
    refine ⟨l[j], List.getElem_mem _, result[j], List.getElem_zipWith, fun f hf => ?_⟩
    subst hf
    exact List.getElem_map f

theorem getNumbers_handleGetCallbacks (l : List HandleGet) (error : Int) (result : List Buffer) :
    (handleGetCallbacks l error result).flatMap DhtCall.getNumbers =
      l.map HandleGet.callback := by
  rw [handleGetCallbacks]
  split
  · rw [List.flatMap_map, List.map_eq_flatMap]
    rfl
  · rename_i hlen
    induction l generalizing result with
    | nil => rfl
    | cons x l ih =>
      cases result with
      | nil => cases hlen (by simp)
      | cons r result =>
        rw [List.zipWith_cons_cons, List.flatMap_cons, ih result (by simpa using hlen)]
        rfl

theorem getNumbers_handle (callbacks : RpcCallbacks) (error : Int) (result : List Buffer) :
    (callbacks.handle error result).flatMap DhtCall.getNumbers =
      callbacks.getHandles.map HandleGet.callback := by
  cases callbacks with
  | gets l => exact getNumbers_handleGetCallbacks l error result
  | puts l =>
    rw [RpcCallbacks.handle, handlePutCallbacks, List.flatMap_map]
    exact List.flatMap_eq_nil_iff.mpr fun _ _ => rfl

section Finish

variable {i : Nat} {rpc : DhtRpc} {error : Int} {result : List Buffer}

theorem attempts_finish_of_notMem {n : Nat}
    (hn : n ∉ rpc.callbacks.getHandles.map HandleGet.callback) :
    (w.finish i rpc error result).attempts n = w.attempts n := by
  have hnil : (rpc.callbacks.getHandles.filter fun x => x.callback = n) = [] := by
    refine List.filter_eq_nil_iff.mpr fun x hx heq => hn ?_
    exact List.mem_map.mpr ⟨x, hx, by simpa using heq⟩
  simp only [DhtWorld.finish, hnil, List.map_nil, List.append_nil]

/-- An RPC that ends is the next attempt of each of its gets. -/
theorem attempts_finish_of_mem (hnd : (rpc.callbacks.getHandles.map HandleGet.callback).Nodup)
    {x : HandleGet} (hx : x ∈ rpc.callbacks.getHandles) :
    (w.finish i rpc error result).attempts x.callback =
      w.attempts x.callback ++ [⟨x.n, rpc.gateway, error, rpc.held x.key⟩] := by
  have hone := filter_map_eq_singleton hnd hx
  simp only [DhtWorld.finish, hone, List.map_cons, List.map_nil]

/-- The callbacks that an RPC calls when it ends. -/
theorem callOk_finish (hok : RpcOk w.dht w.attempts rpc)
    (hnd : (rpc.callbacks.getHandles.map HandleGet.callback).Nodup)
    (hans : ∀ l, rpc.callbacks = .gets l → Answered error →
      result = l.map fun x => (rpc.held x.key).getD [])
    {c : DhtCall} (hc : c ∈ rpc.callbacks.handle error result) :
    CallOk w.dht (w.finish i rpc error result).attempts c := by
  have hown : ∀ x ∈ rpc.callbacks.getHandles, (w.finish i rpc error result).attempts x.callback =
      w.attempts x.callback ++ [⟨x.n, rpc.gateway, error, rpc.held x.key⟩] :=
    fun x hx => attempts_finish_of_mem hnd hx
  cases hcb : rpc.callbacks with
  | puts l =>
    rw [RpcOk, hcb] at hok
    rw [hcb, RpcCallbacks.handle, handlePutCallbacks] at hc
    obtain ⟨p, hp, rfl⟩ := List.mem_map.mp hc
    obtain ⟨es, -, hes⟩ := hok
    obtain ⟨e, -, he⟩ := exists_mem_of_forall₂ hes hp
    exact (List.getElem?_eq_some_iff.mp he.1).1
  | gets l =>
    rw [RpcOk, hcb] at hok
    rw [hcb, RpcCallbacks.handle] at hc
    rw [hcb] at hown
    obtain ⟨x, hx, val, rfl, hval⟩ := mem_handleGetCallbacks hc
    have hask := hok.1.2 x hx
    refine ⟨hask.get_for, hask.lt, _, _, hown x hx, rfl, rfl, ⟨hask.tried, hask.gateway.symm⟩, ?_⟩
    exact fun ha => hval _ (hans l hcb ha)

theorem finish (h : w.Flow) (hrpc : w.flight[i]? = some rpc) (hcalls : w.calls = [])
    (hans : ∀ l, rpc.callbacks = .gets l → Answered error →
      result = l.map fun x => (rpc.held x.key).getD []) :
    (w.finish i rpc error result).Flow := by
  have hok := h.flight rpc (List.mem_of_getElem? hrpc)
  -- The gets of the RPC have no other request.
  have honce : ∀ n, w.pendingGets.count n + (rpc.callbacks.getHandles.map
      HandleGet.callback).count n + ((w.finish i rpc error result).flightGets).count n +
      w.doneGets.count n = if n < w.dht.gets.length then 1 else 0 := by
    intro n
    have hn := h.once n
    rw [callGets, hcalls, flightGets, (flatMap_eraseIdx_perm hrpc).count_eq n, List.count_append,
      List.flatMap_nil, List.count_nil, Nat.add_zero, ← Nat.add_assoc] at hn
    exact hn
  have hnd : (rpc.callbacks.getHandles.map HandleGet.callback).Nodup := by
    refine List.nodup_iff_count_le_one.mpr fun n => ?_
    have hn := honce n
    split at hn <;> omega
  have hfree : ∀ n, n ∈ w.pendingGets ∨ n ∈ (w.finish i rpc error result).flightGets ∨
      n ∈ w.doneGets ∨ w.dht.gets.length ≤ n →
      (w.finish i rpc error result).attempts n = w.attempts n := by
    intro n hn
    refine attempts_finish_of_notMem fun hmem => ?_
    have hcount := honce n
    have hpos := List.count_pos_iff.mpr hmem
    rcases hn with hn | hn | hn | hn
    · have := List.count_pos_iff.mpr hn
      split at hcount <;> omega
    · have := List.count_pos_iff.mpr hn
      split at hcount <;> omega
    · have := List.count_pos_iff.mpr hn
      split at hcount <;> omega
    · rw [if_neg (by omega)] at hcount
      omega
  refine ⟨h.size_pos, h.repl_pos, h.repl_lt, ?_, ?_, ?_, ?_, ?_, ?_⟩
  · intro g gw hg
    refine (SimpleDht.Frame.refl _).gatewayOk (fun x hx => hfree _ (.inl ?_)) (h.gateways g gw hg)
    exact List.mem_flatMap.mpr ⟨gw, List.mem_of_getElem? hg, List.mem_map_of_mem hx⟩
  · intro r hr
    refine (SimpleDht.Frame.refl _).rpcOk (fun x hx => hfree _ (.inr (.inl ?_)))
      (h.flight r (List.mem_of_mem_eraseIdx hr))
    exact List.mem_flatMap.mpr ⟨r, hr, List.mem_map_of_mem hx⟩
  · exact fun c hc => callOk_finish hok hnd hans hc
  · intro e he
    refine (SimpleDht.Frame.refl _).resultOk (hfree _ (.inr (.inr (.inl ?_)))) (h.results e he)
    exact List.mem_map_of_mem he
  · intro n
    have hcalls : (w.finish i rpc error result).callGets =
        rpc.callbacks.getHandles.map HandleGet.callback := getNumbers_handle _ _ _
    rw [hcalls, Nat.add_right_comm _ _ (List.count n (List.map _ _))]
    exact honce n
  · exact fun n hn => (hfree n (.inr (.inr (.inr hn)))).trans (h.fresh n hn)

end Finish

section Call

variable {x : HandleGet} {error : Int} {val : Buffer} {calls : List DhtCall}

theorem callGets_cons (hcalls : w.calls = .get x error val :: calls) (n : Nat) :
    w.callGets.count n = [x.callback].count n + (calls.flatMap DhtCall.getNumbers).count n := by
  rw [callGets, hcalls, List.flatMap_cons, List.count_append]
  rfl

/-- The callback of a get is called. -/
theorem result (h : w.Flow) (hcalls : w.calls = .get x error val :: calls) {v : Buffer}
    (hres : ResultOk w.dht w.attempts (x.callback, v)) :
    Flow { w with
      dht := { w.dht with getResults := w.dht.getResults ++ [(x.callback, v)] }
      calls := calls } := by
  have f : w.dht.Frame { w.dht with getResults := w.dht.getResults ++ [(x.callback, v)] } :=
    ⟨rfl, rfl, fun _ _ h => h, fun _ _ h => h⟩
  refine ⟨h.size_pos, h.repl_pos, h.repl_lt, ?_, ?_, ?_, ?_, ?_, h.fresh⟩
  · exact fun g gw hg => f.gatewayOk (fun _ _ => rfl) (h.gateways g gw hg)
  · exact fun rpc hr => f.rpcOk (fun _ _ => rfl) (h.flight rpc hr)
  · intro c hc
    refine f.callOk (fun _ _ => rfl) (h.calls c ?_)
    rw [hcalls]
    exact List.mem_cons_of_mem _ hc
  · intro e he
    rcases List.mem_append.mp he with he | he
    · exact f.resultOk rfl (h.results e he)
    · rw [List.mem_singleton.mp he]
      exact f.resultOk rfl hres
  · intro n
    have honce := h.once n
    rw [callGets_cons hcalls] at honce
    rw [← honce, doneGets, List.map_append, List.count_append]
    simp only [pendingGets, flightGets, callGets, doneGets, List.map_cons, List.map_nil]
    omega

/-- A request goes to the next replica. -/
theorem retry (h : w.Flow) (hcalls : w.calls = .get x error val :: calls) {y : HandleGet}
    (hcb : y.callback = x.callback)
    (hy : Asking w.dht w.attempts (chooseGateway w.dht.gateways.length y.key y.n) y) :
    Flow { w with dht := w.dht.getReplica y, calls := calls } := by
  have f := w.dht.frame_getReplica y
  refine ⟨by rw [f.size]; exact h.size_pos, h.repl_pos, h.repl_lt, ?_, ?_, ?_, ?_, ?_, h.fresh⟩
  · exact h.gateways_push f rfl (f.asking rfl hy)
  · exact fun rpc hr => f.rpcOk (fun _ _ => rfl) (h.flight rpc hr)
  · intro c hc
    refine f.callOk (fun _ _ => rfl) (h.calls c ?_)
    rw [hcalls]
    exact List.mem_cons_of_mem _ hc
  · exact fun e he => f.resultOk rfl (h.results e he)
  · intro n
    have honce := h.once n
    have hpending := (h.pendingGets_push y).count_eq n
    rw [callGets_cons hcalls] at honce
    rw [List.count_append, hcb] at hpending
    rw [pendingGets, hpending]
    refine Eq.trans ?_ honce
    simp only [flightGets, callGets, doneGets, SimpleDht.getReplica]
    omega

theorem callGet (h : w.Flow) (hcalls : w.calls = .get x error val :: calls) :
    Flow { w with dht := w.dht.handleGetCallback x error val, calls := calls } := by
  obtain ⟨hfor, hlt, before, a, hatt, han, hst, hask, hval⟩ :=
    h.calls (.get x error val) (by rw [hcalls]; exact List.mem_cons_self)
  have hfin : (Answered a.status ∨ a.n + 1 = w.dht.replication) →
      ResultOk w.dht w.attempts (x.callback, firstAnswer (w.attempts x.callback)) := fun hend =>
    ⟨x.key, hfor, ⟨before, a, hatt, hask, by rw [han]; exact hlt, hend⟩, rfl⟩
  have hfirst := firstAnswer_append (a := a) hask.tried.2
  rw [← hatt] at hfirst
  have hrepl := h.repl_lt
  rw [SimpleDht.handleGetCallback, u32_of_lt (by omega)]
  by_cases hans : error = RpcStatus.ok ∨ error = RpcStatus.eobj
  · rw [if_pos hans]
    have hans' : Answered a.status := by rw [hst]; exact hans
    rw [if_pos hans', ← hval hans] at hfirst
    refine h.result hcalls ?_
    rw [← hfirst]
    exact hfin (.inl hans')
  · rw [if_neg hans]
    have hans' : ¬ Answered a.status := by rw [hst]; exact hans
    rw [if_neg hans'] at hfirst
    split
    · rename_i hlast
      refine h.result hcalls ?_
      rw [← hfirst]
      exact hfin (.inr (by rw [han]; exact hlast))
    · rename_i hmore
      refine h.retry hcalls rfl ⟨hfor, ?_, rfl, ?_⟩
      · show x.n + 1 < w.dht.replication
        omega
      · show Tried _ x.key (w.attempts x.callback) (x.n + 1)
        rw [hatt, ← han]
        exact hask.next hans'

end Call

theorem callPut (h : w.Flow) {p : Nat} {error : Int} {calls : List DhtCall}
    (hcalls : w.calls = .put p error :: calls) :
    Flow { w with dht := w.dht.handlePutCallback p error, calls := calls } := by
  have f : w.dht.Frame (w.dht.handlePutCallback p error) :=
    ⟨rfl, rfl, fun _ _ h => h, fun _ _ h => h⟩
  refine h.frame f (fun g gw hg => f.gatewayOk (fun _ _ => rfl) (h.gateways g gw hg)) rfl rfl rfl rfl
    (fun rpc hr => f.rpcOk (fun _ _ => rfl) (h.flight rpc hr)) rfl ?_ ?_
  · rw [hcalls]
    exact fun c hc => List.mem_cons_of_mem _ hc
  · rw [callGets, callGets, hcalls]
    rfl

variable [Persistency σ]

theorem step {a : DhtAction σ} (h : w.Flow) (hok : TransportErrors w a)
    (hstep : w.step a = some t) : t.Flow := by
  cases a with
  | put key value =>
    cases hstep
    exact h.put key value
  | get key =>
    cases hstep
    exact h.get key
  | dispatch =>
    obtain ⟨hflight, -, rfl⟩ := step_dispatch hstep
    exact h.dispatch hflight
  | serve i lost =>
    obtain ⟨rpc, hrpc, -, rfl⟩ := step_serve hstep
    exact h.serve lost hrpc
  | deliver i =>
    obtain ⟨rpc, status, result, hrpc, hcalls, hstate, rfl⟩ := step_deliver hstep
    refine h.finish hrpc hcalls fun l hl _ => ?_
    have hrpcOk := h.flight rpc (List.mem_of_getElem? hrpc)
    rw [RpcOk, hl] at hrpcOk
    exact (hrpcOk.2.2 status result hstate).2
  | fail i code result =>
    obtain ⟨rpc, hrpc, hcalls, rfl⟩ := step_fail hstep
    refine h.finish hrpc hcalls fun l _ hans => ?_
    exact absurd hans (not_or.mpr hok)
  | call =>
    obtain ⟨p, error, calls, hcalls, rfl⟩ | ⟨x, error, val, calls, hcalls, rfl⟩ := step_call hstep
    · exact h.callPut hcalls
    · exact h.callGet hcalls
  | change g store =>
    cases hstep
    exact h.frame (.refl _) h.gateways rfl rfl rfl rfl h.flight rfl (fun _ hc => hc) rfl

end Flow

end DhtWorld

end BlobSeer
