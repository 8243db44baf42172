import BlobSeer.Dht.Flow

/-!
# Batched access is access key by key

`PutFlow` follows the replicas of a put: each of them is queued, in flight or has ended, and the
packed counter `status` has counted those that have ended and whose callback has run. Together with
`Flow` it says what the user of the DHT gets to see when `wait` returns: one call of every callback,
with what the RPCs of its own key had as their result (`batched_eq_keywise`).
-/

namespace BlobSeer

open Lib
open SimpleDht (chooseGateway nextStatus)

/-! ## The packed counter -/

section Weight

theorem weight_append (l l' : List Int) : weight (l ++ l') = weight l + weight l' := by
  rw [weight, List.map_append, List.sum_append]
  rfl

theorem weight_cons (e : Int) (l : List Int) :
    weight (e :: l) = (2 ^ 16 + if e = RpcStatus.ok then 1 else 0) + weight l :=
  rfl

theorem weight_eq (l : List Int) : weight l = 2 ^ 16 * l.length + l.count RpcStatus.ok := by
  induction l with
  | nil => rfl
  | cons e l ih =>
    rw [weight_cons, ih, List.length_cons, List.count_cons]
    by_cases h : e = RpcStatus.ok
    · rw [if_pos h, if_pos (by simpa using h)]
      omega
    · rw [if_neg h, if_neg (by simpa using h)]
      omega

theorem weight_lt {l : List Int} {r : Nat} (hl : l.length ≤ r) (hr : r < 2 ^ 16) :
    weight l < 2 ^ 16 * r + 2 ^ 16 := by
  have hcount : l.count RpcStatus.ok ≤ l.length := List.count_le_length
  rw [weight_eq]
  omega

/-- Neither half of the counter overflows. -/
theorem nextStatus_eq {status : Nat} (error : Int)
    (h : status + (2 ^ 16 + if error = RpcStatus.ok then 1 else 0) < 2 ^ 32) :
    nextStatus status error = status + (2 ^ 16 + if error = RpcStatus.ok then 1 else 0) := by
  rw [nextStatus]
  generalize 2 ^ 16 = unit at h ⊢
  by_cases hok : error = RpcStatus.ok
  · rw [if_pos hok] at h ⊢
    rw [if_pos hok, u32_of_lt (n := status + 1) (by omega), Nat.add_assoc, Nat.add_comm 1 unit]
    exact u32_of_lt h
  · rw [if_neg hok, Nat.add_zero] at h
    rw [if_neg hok, if_neg hok, Nat.add_zero]
    exact u32_of_lt h

end Weight

namespace DhtWorld

variable {σ : Type}

/-- The replicas of puts at a gateway. -/
def pendingPuts (w : DhtWorld σ) : List Nat := w.dht.gateways.flatMap Gateway.putCallbacks

/-- The replicas of puts in flight. -/
def flightPuts (w : DhtWorld σ) : List Nat := w.flight.flatMap fun rpc => rpc.callbacks.putNumbers

structure PutFlow (w : DhtWorld σ) : Prop where
  status_length : w.dht.status.length = w.dht.puts.length
  once : ∀ p, w.pendingPuts.count p + w.flightPuts.count p + (w.putEnds p).length =
    if p < w.dht.puts.length then w.dht.replication else 0
  ends : ∀ p, ∀ e ∈ w.putEnds p, ∃ kv, w.dht.puts[p]? = some kv ∧ w.dht.Replica kv.1 e.1
  status : ∀ p, w.dht.status.getD p 0 + weight (w.calls.flatMap (DhtCall.putErrors p)) =
    weight ((w.putEnds p).map Prod.snd)
  results : ∀ p, (w.dht.putResults.filter fun e => e.1 = p) =
    w.dht.putResult p (w.dht.status.getD p 0)

namespace PutFlow

variable {w t : DhtWorld σ}

theorem initial (h : w.Initial) : w.PutFlow := by
  have hpending : w.pendingPuts = [] := by
    refine List.flatMap_eq_nil_iff.mpr fun gw hmem => ?_
    rw [h.dht] at hmem
    rw [List.eq_of_mem_replicate hmem]
  have hrepl := h.repl_pos
  refine ⟨?_, fun p => ?_, fun p => ?_, fun p => ?_, fun p => ?_⟩
  · rw [h.dht]
    rfl
  · rw [hpending, flightPuts, h.flight, h.putEnds, h.dht]
    rfl
  · rw [h.putEnds]
    exact nofun
  · rw [h.putEnds, h.calls, h.dht]
    rfl
  · rw [SimpleDht.putResult, h.dht]
    dsimp only
    rw [if_neg (by simpa using Nat.ne_of_lt hrepl)]
    rfl

/-- A step that does not touch the replicas of puts. -/
theorem frame (h : w.PutFlow) (f : w.dht.Frame t.dht) (hputs : t.dht.puts = w.dht.puts)
    (hs : t.dht.status = w.dht.status) (hr : t.dht.putResults = w.dht.putResults)
    (hp : t.pendingPuts = w.pendingPuts) (hf : t.flightPuts = w.flightPuts)
    (he : t.putEnds = w.putEnds)
    (hc : ∀ p, t.calls.flatMap (DhtCall.putErrors p) = w.calls.flatMap (DhtCall.putErrors p)) :
    t.PutFlow where
  status_length := by rw [hs, hputs]; exact h.status_length
  once p := by rw [hp, hf, he, hputs, f.replication]; exact h.once p
  ends p e hmem := by
    rw [he] at hmem
    obtain ⟨kv, hkv, hrep⟩ := h.ends p e hmem
    exact ⟨kv, f.puts p kv hkv, f.replica hrep⟩
  status p := by rw [hs, hc, he]; exact h.status p
  results p := by
    rw [hr, hs, h.results p, SimpleDht.putResult, SimpleDht.putResult, f.replication]

theorem put (h : w.PutFlow) (hw : w.Flow) (key value : Buffer) :
    PutFlow { w with dht := w.dht.put key value } := by
  have f := w.dht.frame_put key value
  have hlen : (w.dht.put key value).puts.length = w.dht.puts.length + 1 := List.length_append
  have hstatus : ∀ p, (w.dht.put key value).status.getD p 0 = w.dht.status.getD p 0 := by
    intro p
    simp only [SimpleDht.put, List.getD_eq_getElem?_getD, List.getElem?_append]
    split
    · rfl
    · rename_i hge
      rw [List.getElem?_eq_none (Nat.le_of_not_lt hge)]
      cases hp : p - w.dht.status.length with
      | zero => rfl
      | succ n => rfl
  refine ⟨?_, fun p => ?_, fun p e he => ?_, fun p => ?_, fun p => ?_⟩
  · rw [hlen, ← h.status_length]
    exact List.length_append
  · have hpending := (flatMap_foldl_modify_perm (f := Gateway.putCallbacks)
      (g := fun g => g.pushPut key value w.dht.puts.length) (fun _ => rfl)
      (fun i => chooseGateway_lt hw.size_pos key i) (List.range w.dht.replication)
      w.dht.gateways rfl).count_eq p
    have honce := h.once p
    rw [List.count_append, List.length_range, List.count_replicate] at hpending
    rw [hlen]
    refine (congrArg (· + w.flightPuts.count p + (w.putEnds p).length) hpending).trans ?_
    change _ = if p < w.dht.puts.length + 1 then w.dht.replication else 0
    have hbeq : (w.dht.puts.length == p) = decide (w.dht.puts.length = p) := rfl
    rw [hbeq]
    change List.count p w.pendingPuts + _ + _ + _ = _
    grind
  · obtain ⟨kv, hkv, hrep⟩ := h.ends p e he
    exact ⟨kv, f.puts p kv hkv, f.replica hrep⟩
  · rw [hstatus]
    exact h.status p
  · rw [hstatus]
    exact h.results p

theorem pendingPuts_push (x : HandleGet) :
    (w.dht.getReplica x).gateways.flatMap Gateway.putCallbacks = w.pendingPuts :=
  flatMap_modify_eq (g := fun g => Gateway.pushGet g x) (fun _ => rfl) _ _

theorem dispatch (h : w.PutFlow) (hw : w.Flow) (hflight : w.flight = []) :
    PutFlow { w with
      dht := { w.dht with gateways := (dispatchAll 0 w.dht.gateways).1 }
      flight := (dispatchAll 0 w.dht.gateways).2 } := by
  have hpaired : ∀ g ∈ w.dht.gateways, g.Paired := by
    intro gw hmem
    obtain ⟨g, hg⟩ := List.mem_iff_getElem?.mp hmem
    exact (hw.gateways g gw hg).paired
  have f : w.dht.Frame { w.dht with gateways := (dispatchAll 0 w.dht.gateways).1 } :=
    ⟨length_dispatchAll 0 _, rfl, fun _ _ h => h, fun _ _ h => h⟩
  obtain ⟨hto, hfrom⟩ := flatMap_dispatchAll Gateway.putCallbacks
    (fun rpc => rpc.callbacks.putNumbers) 0 w.dht.gateways
    fun g hg j => ⟨(hpaired g hg).dispatch_puts j, by rw [(hpaired g hg).dispatch_fst j]⟩
  refine ⟨h.status_length, fun p => ?_, fun p e he => ?_, h.status, h.results⟩
  · have honce := h.once p
    rw [flightPuts, hflight, List.flatMap_nil, List.count_nil] at honce
    rw [pendingPuts, hfrom, flightPuts, hto, List.count_nil, Nat.add_comm 0]
    exact honce
  · obtain ⟨kv, hkv, hrep⟩ := h.ends p e he
    exact ⟨kv, hkv, f.replica hrep⟩

theorem putErrors_handle (p : Nat) (callbacks : RpcCallbacks) (error : Int)
    (result : List Buffer) :
    (callbacks.handle error result).flatMap (DhtCall.putErrors p) =
      (callbacks.putNumbers.filter fun q => q = p).map fun _ => error := by
  cases callbacks with
  | gets l =>
    refine List.flatMap_eq_nil_iff.mpr fun c hc => ?_
    obtain ⟨x, -, val, rfl, -⟩ := Flow.mem_handleGetCallbacks hc
    rfl
  | puts l =>
    rw [RpcCallbacks.handle, handlePutCallbacks, RpcCallbacks.putNumbers]
    induction l with
    | nil => rfl
    | cons q l ih =>
      rw [List.map_cons, List.flatMap_cons, ih, DhtCall.putErrors]
      by_cases hq : q = p
      · rw [if_pos hq, List.filter_cons_of_pos (by simpa using hq)]
        rfl
      · rw [if_neg hq, List.filter_cons_of_neg (by simpa using hq)]
        rfl

theorem finish {i : Nat} {rpc : DhtRpc} {error : Int} {result : List Buffer} (h : w.PutFlow)
    (hw : w.Flow) (hrpc : w.flight[i]? = some rpc) (hcalls : w.calls = []) :
    (w.finish i rpc error result).PutFlow := by
  refine ⟨h.status_length, fun p => ?_, fun p e he => ?_, fun p => ?_, h.results⟩
  · have honce := h.once p
    rw [flightPuts, (flatMap_eraseIdx_perm hrpc).count_eq p, List.count_append] at honce
    refine Eq.trans ?_ honce
    simp only [DhtWorld.finish, pendingPuts, flightPuts, List.length_append, List.length_map,
      List.count_eq_length_filter, beq_eq_decide]
    omega
  · rcases List.mem_append.mp he with he | he
    · exact h.ends p e he
    · obtain ⟨q, hq, rfl⟩ := List.mem_map.mp he
      obtain ⟨hmem, rfl⟩ : q ∈ rpc.callbacks.putNumbers ∧ q = p := by
        simpa using List.mem_filter.mp hq
      have hok := hw.flight rpc (List.mem_of_getElem? hrpc)
      cases hcb : rpc.callbacks with
      | gets l =>
        rw [hcb] at hmem
        cases hmem
      | puts l =>
        rw [hcb] at hmem
        rw [RpcOk, hcb] at hok
        obtain ⟨es, -, hes⟩ := hok
        obtain ⟨kv, -, hkv⟩ := exists_mem_of_forall₂ hes hmem
        exact ⟨kv, hkv⟩
  · have hstatus := h.status p
    rw [hcalls, List.flatMap_nil, weight, List.map_nil, List.sum_nil, Nat.add_zero] at hstatus
    simp only [DhtWorld.finish, putErrors_handle, List.map_append, weight_append, List.map_map]
    rw [hstatus]
    rfl

theorem putErrors_cons {p : Nat} {error : Int} {calls : List DhtCall}
    (hcalls : w.calls = .put p error :: calls) (q : Nat) :
    weight (w.calls.flatMap (DhtCall.putErrors q)) =
      (if p = q then 2 ^ 16 + if error = RpcStatus.ok then 1 else 0 else 0) +
        weight (calls.flatMap (DhtCall.putErrors q)) := by
  rw [hcalls, List.flatMap_cons, weight_append, DhtCall.putErrors]
  split <;> rfl

/-- The counter before one of the answers is counted. -/
theorem status_bound (h : w.PutFlow) (hw : w.Flow) {p : Nat} {error : Int} {calls : List DhtCall}
    (hcalls : w.calls = .put p error :: calls) :
    w.dht.status.getD p 0 / 2 ^ 16 < w.dht.replication ∧
      nextStatus (w.dht.status.getD p 0) error =
        w.dht.status.getD p 0 + (2 ^ 16 + if error = RpcStatus.ok then 1 else 0) := by
  have hp : p < w.dht.puts.length :=
    hw.calls (.put p error) (by rw [hcalls]; exact List.mem_cons_self)
  have honce := h.once p
  rw [if_pos hp] at honce
  have hlt := weight_lt (l := (w.putEnds p).map Prod.snd) (r := w.dht.replication)
    (by rw [List.length_map]; omega) hw.repl_lt
  have hrepl := hw.repl_lt
  have hstatus := h.status p
  rw [putErrors_cons hcalls p, if_pos rfl] at hstatus
  exact ⟨by omega, nextStatus_eq error (by omega)⟩

theorem filter_putResult (d : SimpleDht) (p q status : Nat) :
    ((d.putResult p status).filter fun e => e.1 = q) =
      if p = q then d.putResult p status else [] := by
  rw [SimpleDht.putResult]
  by_cases hstatus : status / 2 ^ 16 = d.replication
  · rw [if_pos hstatus]
    by_cases hq : p = q
    · rw [if_pos hq]
      exact List.filter_cons_of_pos (by simpa using hq)
    · rw [if_neg hq]
      exact List.filter_cons_of_neg (by simpa using hq)
  · rw [if_neg hstatus]
    split <;> rfl

theorem callPut (h : w.PutFlow) (hw : w.Flow) {p : Nat} {error : Int} {calls : List DhtCall}
    (hcalls : w.calls = .put p error :: calls) :
    PutFlow { w with dht := w.dht.handlePutCallback p error, calls := calls } := by
  have hp : p < w.dht.status.length := by
    rw [h.status_length]
    exact hw.calls (.put p error) (by rw [hcalls]; exact List.mem_cons_self)
  obtain ⟨hlt, hnext⟩ := h.status_bound hw hcalls
  have hget : ∀ q, (w.dht.handlePutCallback p error).status.getD q 0 =
      if p = q then nextStatus (w.dht.status.getD p 0) error else w.dht.status.getD q 0 := by
    intro q
    simp only [SimpleDht.handlePutCallback, List.getD_eq_getElem?_getD, List.getElem?_set, hp,
      if_true]
    split
    · exact Option.getD_some
    · rfl
  refine ⟨?_, h.once, h.ends, fun q => ?_, fun q => ?_⟩
  · rw [SimpleDht.handlePutCallback, List.length_set]
    exact h.status_length
  · have hstatus := h.status q
    rw [putErrors_cons hcalls q] at hstatus
    rw [← hstatus, hget q, hnext]
    split
    · rename_i hq
      subst hq
      dsimp only
      omega
    · dsimp only
      omega
  · have hres := h.results q
    rw [hget q]
    simp only [SimpleDht.handlePutCallback, List.filter_append, filter_putResult, hres]
    split
    · rename_i hq
      subst hq
      rw [SimpleDht.putResult, if_neg (Nat.ne_of_lt hlt), List.nil_append]
      rfl
    · rw [List.append_nil]
      rfl

variable [Persistency σ]

theorem step {a : DhtAction σ} (h : w.PutFlow) (hw : w.Flow) (hstep : w.step a = some t) :
    t.PutFlow := by
  cases a with
  | put key value =>
    cases hstep
    exact h.put hw key value
  | get key =>
    cases hstep
    refine h.frame (w.dht.frame_get key) rfl rfl rfl ?_ rfl rfl fun _ => rfl
    exact pendingPuts_push _
  | dispatch =>
    obtain ⟨hflight, -, rfl⟩ := step_dispatch hstep
    exact h.dispatch hw hflight
  | serve i lost =>
    obtain ⟨rpc, hrpc, -, rfl⟩ := step_serve hstep
    unfold DhtWorld.serve
    split
    · exact h.frame (.refl _) rfl rfl rfl rfl (flatMap_set_eq hrpc rfl) rfl fun _ => rfl
    · exact h.frame (.refl _) rfl rfl rfl rfl (flatMap_set_eq hrpc rfl) rfl fun _ => rfl
  | deliver i =>
    obtain ⟨rpc, status, result, hrpc, hcalls, -, rfl⟩ := step_deliver hstep
    exact h.finish hw hrpc hcalls
  | fail i code result =>
    obtain ⟨rpc, hrpc, hcalls, rfl⟩ := step_fail hstep
    exact h.finish hw hrpc hcalls
  | call =>
    obtain ⟨p, error, calls, hcalls, rfl⟩ | ⟨x, error, val, calls, hcalls, rfl⟩ := step_call hstep
    · exact h.callPut hw hcalls
    · have hc : ∀ p, calls.flatMap (DhtCall.putErrors p) =
          w.calls.flatMap (DhtCall.putErrors p) := by
        rw [hcalls]
        exact fun _ => rfl
      unfold SimpleDht.handleGetCallback
      split
      · exact h.frame ⟨rfl, rfl, fun _ _ h => h, fun _ _ h => h⟩ rfl rfl rfl rfl rfl rfl hc
      · split
        · exact h.frame ⟨rfl, rfl, fun _ _ h => h, fun _ _ h => h⟩ rfl rfl rfl rfl rfl rfl hc
        · exact h.frame (w.dht.frame_getReplica _) rfl rfl rfl (pendingPuts_push _) rfl rfl hc
  | change g store =>
    cases hstep
    exact h.frame (.refl _) rfl rfl rfl rfl rfl rfl fun _ => rfl

end PutFlow

section Run

variable {w t : DhtWorld σ}

theorem flow_run [Persistency σ] {as : List (DhtAction σ)} (hrun : Run step TransportErrors w as t)
    (h : w.Initial) :
    t.Flow ∧ t.PutFlow :=
  hrun.inv (P := fun w => w.Flow ∧ w.PutFlow)
    (fun h hok hstep => ⟨h.1.step hok hstep, h.2.step h.1 hstep⟩) ⟨.initial h, .initial h⟩

/-- When `wait` has returned, no gateway has a request. -/
theorem Flow.idle (h : t.Flow) (hidle : t.Idle) : t.pendingGets = [] ∧ t.pendingPuts = [] := by
  have hgw : ∀ g ∈ t.dht.gateways, g.getCallbacks = [] ∧ g.putCallbacks = [] := by
    intro gw hmem
    obtain ⟨g, hg⟩ := List.mem_iff_getElem?.mp hmem
    have hpaired := (h.gateways g gw hg).paired
    obtain ⟨hgets, hputs⟩ := hidle.2.2 gw hmem
    exact ⟨hpaired.gets hgets, hpaired.puts hputs⟩
  constructor
  · refine List.flatMap_eq_nil_iff.mpr fun gw hmem => ?_
    rw [(hgw gw hmem).1]
    rfl
  · exact List.flatMap_eq_nil_iff.mpr fun gw hmem => (hgw gw hmem).2

/-- When `wait` has returned, the callback of a get has been called once, with what the first
replica that answered has under its key. -/
theorem Flow.get_result (h : t.Flow) (hidle : t.Idle) {n : Nat} {c : GetCall}
    (hc : t.dht.gets[n]? = some c) :
    Finished t.dht c.key (t.attempts n) ∧
      (t.dht.getResults.filter fun e => e.1 = n) = [(n, firstAnswer (t.attempts n))] := by
  have honce := h.once n
  rw [(h.idle hidle).1, flightGets, hidle.1, callGets, hidle.2.1,
    if_pos (List.getElem?_eq_some_iff.mp hc).1] at honce
  have hlen : (t.dht.getResults.filter fun e => e.1 = n).length = 1 := by
    rw [← count_map_eq_length_filter]
    simpa [doneGets] using honce
  obtain ⟨e, he⟩ := List.length_eq_one_iff.mp hlen
  have hmem : e ∈ t.dht.getResults ∧ e.1 = n := by
    have : e ∈ t.dht.getResults.filter fun e => e.1 = n := by rw [he]; exact List.mem_singleton_self e
    simpa using List.mem_filter.mp this
  obtain ⟨key, ⟨c', hc', rfl⟩, hfin, hval⟩ := h.results e hmem.1
  rw [hmem.2] at hc' hfin hval
  rw [hc, Option.some.injEq] at hc'
  subst hc'
  refine ⟨hfin, ?_⟩
  rw [he, ← hval, ← hmem.2]

/-- When `wait` has returned, the callback of a put has been called once, with `ok` when one of
its replicas was stored. -/
theorem PutFlow.put_result (hw : t.Flow) (h : t.PutFlow) (hidle : t.Idle) {p : Nat}
    {kv : Buffer × Buffer} (hp : t.dht.puts[p]? = some kv) :
    (t.putEnds p).length = t.dht.replication ∧
      (∀ e ∈ t.putEnds p, t.dht.Replica kv.1 e.1) ∧
      (t.dht.putResults.filter fun e => e.1 = p) =
        [(p, if RpcStatus.ok ∈ (t.putEnds p).map Prod.snd then RpcStatus.ok
          else RpcStatus.eobj)] := by
  have honce := h.once p
  rw [(hw.idle hidle).2, flightPuts, hidle.1, if_pos (List.getElem?_eq_some_iff.mp hp).1] at honce
  have hlen : ((t.putEnds p).map Prod.snd).length = t.dht.replication := by
    rw [List.length_map]
    simpa using honce
  have hstatus := h.status p
  rw [hidle.2.1, List.flatMap_nil, weight, List.map_nil, List.sum_nil, Nat.add_zero, weight_eq,
    hlen] at hstatus
  have hcount : ((t.putEnds p).map Prod.snd).count RpcStatus.ok ≤ _ := List.count_le_length
  have hrepl := hw.repl_lt
  refine ⟨by rw [List.length_map] at hlen; exact hlen, fun e he => ?_, ?_⟩
  · obtain ⟨kv', hkv, hrep⟩ := h.ends p e he
    rw [hp, Option.some.injEq] at hkv
    subst hkv
    exact hrep
  · have hdiv : t.dht.status.getD p 0 / 2 ^ 16 = t.dht.replication := by omega
    have hmod : t.dht.status.getD p 0 % 2 ^ 16 =
        ((t.putEnds p).map Prod.snd).count RpcStatus.ok := by omega
    rw [h.results p, SimpleDht.putResult, if_pos hdiv, hmod]
    simp only [gt_iff_lt, List.count_pos_iff]

end Run

end DhtWorld

open DhtWorld

/-- When `wait` has returned, every callback has been called once. A get has what its own key has
at the first of its replicas, asked in order, whose RPC was answered; a put is `ok` when one of the
RPCs of its replicas was. What other keys shared an RPC does not matter. -/
theorem batched_eq_keywise {σ : Type} [Persistency σ] {w t : DhtWorld σ}
    {as : List (DhtAction σ)} (hinit : w.Initial) (hrun : Run step TransportErrors w as t)
    (hidle : t.Idle) :
    (∀ (p : Nat) (kv : Buffer × Buffer), t.dht.puts[p]? = some kv →
      (t.putEnds p).length = t.dht.replication ∧
      (∀ e ∈ t.putEnds p, t.dht.Replica kv.1 e.1) ∧
      (t.dht.putResults.filter fun e => e.1 = p) =
        [(p, if RpcStatus.ok ∈ (t.putEnds p).map Prod.snd then RpcStatus.ok
          else RpcStatus.eobj)]) ∧
    ∀ (n : Nat) (c : GetCall), t.dht.gets[n]? = some c →
      Finished t.dht c.key (t.attempts n) ∧
      (t.dht.getResults.filter fun e => e.1 = n) = [(n, firstAnswer (t.attempts n))] := by
  obtain ⟨hflow, hputs⟩ := flow_run hrun hinit
  exact ⟨fun p kv hp => hputs.put_result hflow hidle hp, fun n c hc => hflow.get_result hidle hc⟩

/-- One gateway with an empty store. -/
def oneGateway : DhtWorld NullBwMap where
  dht := { gateways := [{}], replication := 1 }
  stores _ := NullBwMap.new 8 100

/-- Two gets share an RPC; only the key of the first one has been put. -/
def twoGets : List (DhtAction NullBwMap) :=
  [.put [0] [7], .dispatch, .serve 0 false, .deliver 0, .call, .get [0], .get [1], .dispatch,
    .serve 0 false, .deliver 0, .call, .call]

theorem batched_eq_keywise_two_gets :
    ∃ t, Run step TransportErrors oneGateway twoGets t ∧ t.Idle ∧
      (t.dht.getResults.filter fun e => e.1 = 0) = [(0, [7])] ∧
      (t.dht.getResults.filter fun e => e.1 = 1) = [(1, [])] := by
  have hinit : oneGateway.Initial :=
    ⟨by decide, by decide, by decide, rfl, rfl, rfl, rfl, fun _ => rfl, fun _ => rfl⟩
  obtain ⟨t, ht, hidle, hget, hget', hfirst, hfirst'⟩ :
      ∃ t ∈ exec step TransportErrors oneGateway twoGets, t.Idle ∧
        t.dht.gets[0]? = some ⟨[0], [0]⟩ ∧ t.dht.gets[1]? = some ⟨[1], [0]⟩ ∧
        firstAnswer (t.attempts 0) = [7] ∧ firstAnswer (t.attempts 1) = [] := by
    decide +kernel
  have hrun : Run step TransportErrors oneGateway twoGets t := Run.of_exec ht
  have hgets := (batched_eq_keywise hinit hrun hidle).2
  refine ⟨t, hrun, hidle, ?_, ?_⟩
  · rw [(hgets 0 _ hget).2, hfirst]
  · rw [(hgets 1 _ hget').2, hfirst']

end BlobSeer
