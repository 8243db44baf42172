import BlobSeer.Dht.Batches

/-!
# Reading what has been put

A put is acknowledged when one gateway has stored the pair, and a get takes the answer of the first
gateway that it reaches. Keys are write-once: `val key` is the value that anybody ever stores under
`key`. A get of a key whose put was acknowledged before finds the value as long as the gateways that
acknowledged it can be reached and keep it (`Kept`), and no other gateway answers without having the
pair (`AnswersHold`).
-/

namespace BlobSeer

open Lib
open Persistency (find)
open PageManager (flatPairs)
open SimpleDht (chooseGateway)

/-- Put `p` is for `key`. -/
def SimpleDht.PutFor (d : SimpleDht) (p : Nat) (key : Buffer) : Prop :=
  d.puts[p]?.map Prod.fst = some key

instance (d : SimpleDht) (p : Nat) (key : Buffer) : Decidable (d.PutFor p key) :=
  inferInstanceAs (Decidable (_ = _))

theorem SimpleDht.Frame.putFor {d d' : SimpleDht} (f : d.Frame d') {p : Nat}
    {e : Buffer × Buffer} (hp : d.puts[p]? = some e) {key : Buffer} (h : d'.PutFor p key) :
    d.PutFor p key := by
  rw [SimpleDht.PutFor, f.puts p e hp] at h
  rw [SimpleDht.PutFor, hp]
  exact h

namespace DhtWorld

variable {σ : Type}

/-- The first gateway that has acknowledged put `p`. -/
def acker (w : DhtWorld σ) (p : Nat) : Option Nat :=
  (w.acked.find? fun a => a.2 = p).map Prod.fst

/-- An RPC answers a get with the value, or the get goes on without having passed the gateway that
acknowledged the put. -/
def AttemptOk (val : Buffer → Buffer) (w : DhtWorld σ) (key : Buffer) (p : Nat) (a : Attempt) :
    Prop :=
  if Answered a.status then a.held = some (val key)
  else ∃ g, w.acker p = some g ∧ g ≠ a.gateway

theorem acker_mem {w : DhtWorld σ} {p g : Nat} (h : w.acker p = some g) : (g, p) ∈ w.acked := by
  obtain ⟨a, ha, rfl⟩ := Option.map_eq_some_iff.mp h
  have hp : a.2 = p := by simpa using List.find?_some ha
  rw [← hp]
  exact List.mem_of_find?_eq_some ha

theorem acker_of_mem {w : DhtWorld σ} {p g : Nat} (h : (g, p) ∈ w.acked) :
    ∃ g', w.acker p = some g' := by
  have hsome : (w.acked.find? fun a => a.2 = p).isSome = true :=
    List.find?_isSome.mpr ⟨(g, p), h, by simp⟩
  obtain ⟨a, ha⟩ := Option.isSome_iff_exists.mp hsome
  exact ⟨a.1, by rw [acker, ha]; rfl⟩

theorem acker_append {w t : DhtWorld σ} {l : List (Nat × Nat)} (hl : t.acked = w.acked ++ l)
    {p g : Nat} (h : w.acker p = some g) : t.acker p = some g := by
  obtain ⟨a, ha, rfl⟩ := Option.map_eq_some_iff.mp h
  rw [acker, hl, List.find?_append, ha]
  rfl

variable [Persistency σ] (val : Buffer → Buffer) (w : DhtWorld σ)

/-- Keys are write-once, RPCs fail with the codes of transport errors, and a gateway that has
acknowledged a put keeps the pair and, once the put is acknowledged, answers gets of its key. -/
def Kept : DhtAction σ → Prop
  | .put key value => value = val key
  | .fail i code _ => (code ≠ RpcStatus.ok ∧ code ≠ RpcStatus.eobj) ∧
      ∀ rpc ∈ w.flight[i]?, ∀ h ∈ rpc.callbacks.getHandles, ∀ p ∈ w.dht.ackedPuts,
        w.dht.PutFor p h.key → (rpc.gateway, p) ∉ w.acked
  | .change g store => (∀ k v, find store k = some v → v = val k) ∧
      ∀ a ∈ w.acked, a.1 = g → ∀ e ∈ w.dht.puts[a.2]?, find store e.1 = find (w.stores g) e.1
  | _ => True

/-- A gateway that answers a get of a key whose put was acknowledged has the pair, also when it is
not one of those that acknowledged it. -/
def AnswersHold : DhtAction σ → Prop
  | .serve i false => ∀ rpc ∈ w.flight[i]?, ∀ h ∈ rpc.callbacks.getHandles,
      ∀ p ∈ w.dht.ackedPuts, w.dht.PutFor p h.key → (rpc.gateway, p) ∉ w.acked →
        (find (w.stores rpc.gateway) h.key).isSome = true
  | _ => True

structure Holds : Prop where
  puts : ∀ e ∈ w.dht.puts, e.2 = val e.1
  stores : ∀ g k v, find (w.stores g) k = some v → v = val k
  acked : ∀ a ∈ w.acked, ∃ e, w.dht.puts[a.2]? = some e ∧ w.dht.Replica e.1 a.1 ∧
    (find (w.stores a.1) e.1).isSome = true
  putEnds : ∀ p g, (g, RpcStatus.ok) ∈ w.putEnds p → (g, p) ∈ w.acked
  gets : ∀ c ∈ w.dht.gets, ∀ p ∈ c.acked, (p, RpcStatus.ok) ∈ w.dht.putResults
  flightPuts : ∀ rpc ∈ w.flight, ∀ result, rpc.state = .answered RpcStatus.ok result →
    ∀ p ∈ rpc.callbacks.putNumbers, (rpc.gateway, p) ∈ w.acked
  flightGets : ∀ rpc ∈ w.flight, ∀ status result, rpc.state = .answered status result →
    ∀ h ∈ rpc.callbacks.getHandles, ∀ c, w.dht.gets[h.callback]? = some c → ∀ p ∈ c.acked,
      w.dht.PutFor p c.key → rpc.held c.key = some (val c.key)
  attempts : ∀ (n : Nat) (c : GetCall), w.dht.gets[n]? = some c → ∀ p ∈ c.acked,
    w.dht.PutFor p c.key → ∀ a ∈ w.attempts n, w.AttemptOk val c.key p a

variable {val : Buffer → Buffer} {w t : DhtWorld σ}

omit [Persistency σ] in
/-- A put that is acknowledged has been acknowledged by a gateway. -/
theorem PutFlow.ok_mem_ends (h : w.PutFlow) (hw : w.Flow) {p : Nat}
    (hp : (p, RpcStatus.ok) ∈ w.dht.putResults) :
    RpcStatus.ok ∈ (w.putEnds p).map Prod.snd := by
  have hmem : (p, RpcStatus.ok) ∈ w.dht.putResult p (w.dht.status.getD p 0) := by
    rw [← h.results p]
    exact List.mem_filter.mpr ⟨hp, by simp⟩
  rw [SimpleDht.putResult] at hmem
  split at hmem
  · rename_i hdiv
    have hpos : w.dht.status.getD p 0 % 2 ^ 16 > 0 := by
      by_contra hzero
      rw [if_neg hzero, List.mem_singleton, Prod.mk.injEq] at hmem
      exact absurd hmem.2 (by decide)
    have honce := h.once p
    have hstatus := h.status p
    have hrepl := hw.repl_lt
    rw [weight_eq, weight_eq, List.length_map] at hstatus
    have hcount : ((w.putEnds p).map Prod.snd).count RpcStatus.ok ≤ (w.putEnds p).length := by
      have := List.count_le_length (a := RpcStatus.ok) (l := (w.putEnds p).map Prod.snd)
      rw [List.length_map] at this
      exact this
    have hlen : (w.putEnds p).length ≤ w.dht.replication := by
      split at honce <;> omega
    exact List.count_pos_iff.mp (by omega)
  · cases hmem

namespace Holds

theorem acked_of_result (h : w.Holds val) (hw : w.Flow) (hp : w.PutFlow) {p : Nat}
    (hr : (p, RpcStatus.ok) ∈ w.dht.putResults) : ∃ g, (g, p) ∈ w.acked := by
  obtain ⟨e, he, hok⟩ := List.mem_map.mp (hp.ok_mem_ends hw hr)
  refine ⟨e.1, h.putEnds p e.1 ?_⟩
  rw [← hok]
  exact he

/-- The puts that a get knows to be acknowledged are known and have an acknowledging gateway. -/
theorem known (h : w.Holds val) (hw : w.Flow) (hp : w.PutFlow) {n : Nat} {c : GetCall}
    (hc : w.dht.gets[n]? = some c) {p : Nat} (hmem : p ∈ c.acked) :
    ∃ g, w.acker p = some g ∧ (g, p) ∈ w.acked ∧ ∃ e, w.dht.puts[p]? = some e ∧
      w.dht.Replica e.1 g := by
  have hr := h.gets c (List.mem_of_getElem? hc) p hmem
  obtain ⟨g', hg'⟩ := h.acked_of_result hw hp hr
  obtain ⟨g, hg⟩ := acker_of_mem hg'
  have hack := acker_mem hg
  obtain ⟨e, he, hrep, -⟩ := h.acked (g, p) hack
  exact ⟨g, hg, hack, e, he, hrep⟩

/-- A step that touches neither stores nor the ends of RPCs. -/
theorem frame (h : w.Holds val) (hw : w.Flow) (hp : w.PutFlow) (f : w.dht.Frame t.dht)
    (hputs : ∀ e ∈ t.dht.puts, e.2 = val e.1) (hgets : t.dht.gets = w.dht.gets)
    (hres : w.dht.putResults ⊆ t.dht.putResults) (hstores : t.stores = w.stores)
    (hacked : t.acked = w.acked) (hatt : t.attempts = w.attempts) (hends : t.putEnds = w.putEnds)
    (hflight : ∀ rpc ∈ t.flight, rpc ∈ w.flight ∨ rpc.state = .sent) : t.Holds val where
  puts := hputs
  stores := by rw [hstores]; exact h.stores
  acked a ha := by
    rw [hacked] at ha
    obtain ⟨e, he, hrep, hfind⟩ := h.acked a ha
    exact ⟨e, f.puts _ _ he, f.replica hrep, by rw [hstores]; exact hfind⟩
  putEnds := by rw [hends, hacked]; exact h.putEnds
  gets := by
    rw [hgets]
    exact fun c hc p hmem => hres (h.gets c hc p hmem)
  flightPuts rpc hrpc result hstate := by
    rw [hacked]
    rcases hflight rpc hrpc with hrpc | hsent
    · exact h.flightPuts rpc hrpc result hstate
    · rw [hsent] at hstate
      cases hstate
  flightGets rpc hrpc status result hstate x hx c hc p hmem hfor := by
    rw [hgets] at hc
    obtain ⟨_, -, -, e, he, -⟩ := h.known hw hp hc hmem
    rcases hflight rpc hrpc with hrpc | hsent
    · exact h.flightGets rpc hrpc status result hstate x hx c hc p hmem (f.putFor he hfor)
    · rw [hsent] at hstate
      cases hstate
  attempts n c hc p hmem hfor a ha := by
    rw [hgets] at hc
    rw [hatt] at ha
    obtain ⟨_, -, -, e, he, -⟩ := h.known hw hp hc hmem
    have hok := h.attempts n c hc p hmem (f.putFor he hfor) a ha
    rw [AttemptOk, acker] at hok
    rw [AttemptOk, acker, hacked]
    exact hok

theorem put (h : w.Holds val) (hw : w.Flow) (hp : w.PutFlow) (key : Buffer) :
    Holds val { w with dht := w.dht.put key (val key) } := by
  refine h.frame hw hp (w.dht.frame_put key (val key)) (fun e he => ?_) rfl (fun _ h => h) rfl rfl rfl
    rfl fun _ h => .inl h
  rcases List.mem_append.mp he with he | he
  · exact h.puts e he
  · rw [List.mem_singleton.mp he]

theorem get (h : w.Holds val) (hw : w.Flow) (key : Buffer) :
    Holds val { w with dht := w.dht.get key } := by
  have f := w.dht.frame_get key
  have hold : ∀ n, n < w.dht.gets.length → (w.dht.get key).gets[n]? = w.dht.gets[n]? :=
    fun n hn => List.getElem?_append_left hn
  refine ⟨h.puts, h.stores, fun a ha => ?_, h.putEnds, fun c hc p hmem => ?_, h.flightPuts, ?_, ?_⟩
  · obtain ⟨e, he, hrep, hfind⟩ := h.acked a ha
    exact ⟨e, he, f.replica hrep, hfind⟩
  · rcases List.mem_append.mp hc with hc | hc
    · exact h.gets c hc p hmem
    · rw [List.mem_singleton.mp hc] at hmem
      exact SimpleDht.mem_ackedPuts.mp hmem
  · intro rpc hrpc status result hstate x hx c hc p hmem hfor
    obtain ⟨c', hc', -⟩ := (hw.asking hrpc hx).1.get_for
    rw [hold _ (List.getElem?_eq_some_iff.mp hc').1] at hc
    exact h.flightGets rpc hrpc status result hstate x hx c hc p hmem hfor
  · intro n c hc p hmem hfor a ha
    by_cases hlt : n < w.dht.gets.length
    · rw [hold _ hlt] at hc
      exact h.attempts n c hc p hmem hfor a ha
    · rw [hw.fresh n (Nat.le_of_not_lt hlt)] at ha
      cases ha

/-- Stores may change as long as acknowledged pairs stay. -/
theorem change (h : w.Holds val) {g : Nat} {store : σ}
    (hval : ∀ k v, find store k = some v → v = val k)
    (hkeep : ∀ a ∈ w.acked, a.1 = g → ∀ e ∈ w.dht.puts[a.2]?,
      find store e.1 = find (w.stores g) e.1) :
    Holds val { w with stores := Function.update w.stores g store } := by
  refine ⟨h.puts, fun g' k v hv => ?_, fun a ha => ?_, h.putEnds, h.gets, h.flightPuts,
    h.flightGets, h.attempts⟩
  · by_cases hg : g' = g
    · subst hg
      dsimp only at hv
      rw [Function.update_self] at hv
      exact hval k v hv
    · dsimp only at hv
      rw [Function.update_of_ne hg] at hv
      exact h.stores g' k v hv
  · obtain ⟨e, he, hrep, hfind⟩ := h.acked a ha
    refine ⟨e, he, hrep, ?_⟩
    dsimp only
    by_cases hg : a.1 = g
    · rw [hg, Function.update_self, hkeep a ha hg e he, ← hg]
      exact hfind
    · rw [Function.update_of_ne hg]
      exact hfind

/-- More acknowledgements. -/
theorem ack (h : w.Holds val) {l : List (Nat × Nat)}
    (hl : ∀ a ∈ l, ∃ e, w.dht.puts[a.2]? = some e ∧ w.dht.Replica e.1 a.1 ∧
      (find (w.stores a.1) e.1).isSome = true) :
    Holds val { w with acked := w.acked ++ l } := by
  refine ⟨h.puts, h.stores, fun a ha => ?_, fun p g hg => ?_, h.gets, ?_, h.flightGets, ?_⟩
  · rcases List.mem_append.mp ha with ha | ha
    · exact h.acked a ha
    · exact hl a ha
  · exact List.mem_append_left l (h.putEnds p g hg)
  · exact fun rpc hrpc result hstate p hp =>
      List.mem_append_left l (h.flightPuts rpc hrpc result hstate p hp)
  · intro n c hc p hmem hfor a ha
    have hok := h.attempts n c hc p hmem hfor a ha
    unfold AttemptOk at hok ⊢
    split
    · rw [if_pos ‹_›] at hok
      exact hok
    · rw [if_neg ‹_›] at hok
      obtain ⟨g, hg, hne⟩ := hok
      exact ⟨g, acker_append rfl hg, hne⟩

/-- The state of an RPC in flight changes. -/
theorem setFlight (h : w.Holds val) {i : Nat} {rpc : DhtRpc}
    (hputs : ∀ result, rpc.state = .answered RpcStatus.ok result →
      ∀ p ∈ rpc.callbacks.putNumbers, (rpc.gateway, p) ∈ w.acked)
    (hgets : ∀ status result, rpc.state = .answered status result →
      ∀ x ∈ rpc.callbacks.getHandles, ∀ c, w.dht.gets[x.callback]? = some c → ∀ p ∈ c.acked,
        w.dht.PutFor p c.key → rpc.held c.key = some (val c.key)) :
    Holds val { w with flight := w.flight.set i rpc } := by
  refine ⟨h.puts, h.stores, h.acked, h.putEnds, h.gets, fun r hr => ?_, fun r hr => ?_, h.attempts⟩
  · rcases List.mem_or_eq_of_mem_set hr with hr | rfl
    · exact h.flightPuts r hr
    · exact hputs
  · rcases List.mem_or_eq_of_mem_set hr with hr | rfl
    · exact h.flightGets r hr
    · exact hgets

/-- A gateway stores pairs. -/
theorem writePairs (h : w.Holds val) {g : Nat} {l : List Nat} {es : List (Buffer × Buffer)}
    (hes : List.Forall₂ (fun p e => w.dht.puts[p]? = some e ∧ w.dht.Replica e.1 g) l es) :
    Holds val { w with
      stores := Function.update w.stores g
        (PageManager.writePairs (flatPairs es) (w.stores g)).2 } := by
  have hval : ∀ e ∈ es, e.2 = val e.1 := by
    intro e he
    obtain ⟨p, -, hp⟩ := exists_mem_of_forall₂ hes.flip he
    exact h.puts e (List.mem_of_getElem? hp.1)
  refine h.change (fun k v hv => ?_) fun a ha hag e he => ?_
  · rcases PageManager.find_writePairs es (w.stores g) k with hk | ⟨e, he, rfl, hk⟩
    · rw [hk] at hv
      exact h.stores g k v hv
    · rw [hk, Option.some.injEq] at hv
      rw [← hv]
      exact hval e he
  · rcases PageManager.find_writePairs es (w.stores g) e.1 with hk | ⟨e', he', hkey, hk⟩
    · exact hk
    · obtain ⟨e'', he'', -, hfind⟩ := h.acked a ha
      obtain rfl : e'' = e := Option.some.inj (he''.symm.trans he)
      obtain ⟨v, hv⟩ := Option.isSome_iff_exists.mp hfind
      rw [hk, ← hag, hv, hval e' he', hkey, h.stores _ _ v hv]

theorem serve (h : w.Holds val) (hw : w.Flow) {i : Nat} {rpc : DhtRpc} {lost : Bool}
    (hrpc : w.flight[i]? = some rpc) (hok : w.AnswersHold (.serve i lost)) :
    Holds val (w.serve i rpc lost) := by
  have hrpcOk := hw.flight rpc (List.mem_of_getElem? hrpc)
  unfold DhtWorld.serve
  split
  · rename_i l hl
    rw [RpcOk, hl] at hrpcOk
    obtain ⟨-, -, hfind⟩ := PageManager.readPage_spec hrpcOk.2.1 (w.stores rpc.gateway)
    refine setFlight (h.change (fun k v hv => h.stores rpc.gateway k v ?_)
      fun a ha hag e he => hfind e.1) ?_ ?_
    · rw [← hfind k]
      exact hv
    · intro result _ p hp
      rw [hl] at hp
      cases hp
    · intro status result hstate x hx c hc p hmem hfor
      cases lost with
      | true => cases hstate
      | false =>
        obtain ⟨c', hc', hkey⟩ := (hw.asking (List.mem_of_getElem? hrpc) hx).1.get_for
        obtain rfl : c' = c := Option.some.inj (hc'.symm.trans hc)
        have hsome : (find (w.stores rpc.gateway) c'.key).isSome = true := by
          by_cases hack : (rpc.gateway, p) ∈ w.acked
          · obtain ⟨e, he, -, hfound⟩ := h.acked _ hack
            rw [SimpleDht.PutFor, he] at hfor
            rw [← Option.some.inj hfor]
            exact hfound
          · rw [hkey]
            have hp := SimpleDht.mem_ackedPuts.mpr (h.gets c' (List.mem_of_getElem? hc) p hmem)
            exact hok rpc hrpc x hx p hp (by rw [← hkey]; exact hfor) hack
        obtain ⟨v, hv⟩ := Option.isSome_iff_exists.mp hsome
        exact hv.trans (congrArg some (h.stores _ _ v hv))
  · rename_i l hl
    rw [RpcOk, hl] at hrpcOk
    obtain ⟨es, hparams, hes⟩ := hrpcOk
    have hstore := h.writePairs hes
    have hpage := PageManager.writePage_flatPairs es (w.stores rpc.gateway)
    rw [← hparams] at hpage hstore
    simp only [hpage]
    generalize hr : PageManager.writePairs rpc.params (w.stores rpc.gateway) = r at hstore ⊢
    obtain ⟨status, store⟩ := r
    by_cases hacked : lost = false ∧ status = RpcStatus.ok
    · simp only [if_pos hacked]
      refine setFlight (hstore.ack fun a ha => ?_) (fun result _ p hp => ?_) ?_
      · obtain ⟨p, hp, rfl⟩ := List.mem_map.mp ha
        obtain ⟨e, he, hpe, hrep⟩ := exists_mem_of_forall₂ hes hp
        have hstatus : (PageManager.writePairs (flatPairs es) (w.stores rpc.gateway)).1 =
            RpcStatus.ok := by
          rw [← hparams, hr]
          exact hacked.2
        obtain ⟨e', -, -, hfind⟩ :=
          PageManager.find_writePairs_ok es (w.stores rpc.gateway) hstatus he
        rw [← hparams, hr] at hfind
        refine ⟨e, hpe, hrep, ?_⟩
        dsimp only at hfind ⊢
        rw [Function.update_self, hfind]
        rfl
      · rw [hl] at hp
        exact List.mem_append_right _ (List.mem_map_of_mem hp)
      · intro _ _ _ x hx
        rw [hl] at hx
        cases hx
    · simp only [if_neg hacked]
      refine setFlight hstore (fun result hstate => absurd ?_ hacked) ?_
      · cases lost with
        | true => cases hstate
        | false =>
          cases hstate
          exact ⟨rfl, rfl⟩
      · intro _ _ _ x hx
        rw [hl] at hx
        cases hx

theorem finish (h : w.Holds val) (hw : w.Flow) {i : Nat} {rpc : DhtRpc} {error : Int}
    {result : List Buffer} (hrpc : w.flight[i]? = some rpc)
    (hputs : error = RpcStatus.ok → ∀ p ∈ rpc.callbacks.putNumbers, (rpc.gateway, p) ∈ w.acked)
    (hgets : ∀ x ∈ rpc.callbacks.getHandles, ∀ c, w.dht.gets[x.callback]? = some c →
      ∀ p ∈ c.acked, w.dht.PutFor p c.key →
        w.AttemptOk val c.key p ⟨x.n, rpc.gateway, error, rpc.held c.key⟩) :
    Holds val (w.finish i rpc error result) := by
  refine ⟨h.puts, h.stores, h.acked, fun p g hg => ?_, h.gets,
    fun r hr => h.flightPuts r (List.mem_of_mem_eraseIdx hr),
    fun r hr => h.flightGets r (List.mem_of_mem_eraseIdx hr), ?_⟩
  · rcases List.mem_append.mp hg with hg | hg
    · exact h.putEnds p g hg
    · obtain ⟨q, hq, heq⟩ := List.mem_map.mp hg
      obtain ⟨hmem, rfl⟩ : q ∈ rpc.callbacks.putNumbers ∧ q = p := by
        simpa using List.mem_filter.mp hq
      rw [Prod.mk.injEq] at heq
      rw [← heq.1]
      exact hputs heq.2 q hmem
  · intro n c hc p hmem hfor a ha
    rcases List.mem_append.mp ha with ha | ha
    · exact h.attempts n c hc p hmem hfor a ha
    · obtain ⟨x, hx, rfl⟩ := List.mem_map.mp ha
      obtain ⟨hmemx, rfl⟩ : x ∈ rpc.callbacks.getHandles ∧ x.callback = n := by
        simpa using List.mem_filter.mp hx
      obtain ⟨c', hc', hkey⟩ := (hw.asking (List.mem_of_getElem? hrpc) hmemx).1.get_for
      obtain rfl : c' = c := Option.some.inj (hc'.symm.trans hc)
      rw [← hkey]
      exact hgets x hmemx c' hc p hmem hfor

theorem initial (h : w.Initial) (hval : ∀ g k v, find (w.stores g) k = some v → v = val k) :
    w.Holds val where
  puts := by rw [h.dht]; exact nofun
  stores := hval
  acked := by rw [h.acked]; exact nofun
  putEnds p g hg := by
    rw [h.putEnds] at hg
    cases hg
  gets := by rw [h.dht]; exact nofun
  flightPuts := by rw [h.flight]; exact nofun
  flightGets := by rw [h.flight]; exact nofun
  attempts n c hc := by
    rw [h.dht] at hc
    cases hc

theorem step {a : DhtAction σ} (h : w.Holds val) (hw : w.Flow) (hp : w.PutFlow)
    (hkept : w.Kept val a) (hans : w.AnswersHold a) (hstep : w.step a = some t) :
    t.Holds val := by
  cases a with
  | put key value =>
    cases hstep
    rw [show value = val key from hkept]
    exact h.put hw hp key
  | get key =>
    cases hstep
    exact h.get hw key
  | dispatch =>
    obtain ⟨-, -, rfl⟩ := step_dispatch hstep
    refine h.frame hw hp ⟨length_dispatchAll 0 _, rfl, fun _ _ h => h, fun _ _ h => h⟩ h.puts rfl
      (fun _ h => h) rfl rfl rfl rfl fun rpc hmem => .inr ?_
    obtain ⟨j, g, -, hrpc⟩ := mem_dispatchAll hmem
    rw [Gateway.dispatch_snd] at hrpc
    rcases List.mem_append.mp hrpc with hrpc | hrpc
    · split at hrpc
      · rw [List.mem_singleton.mp hrpc]
      · cases hrpc
    · split at hrpc
      · rw [List.mem_singleton.mp hrpc]
      · cases hrpc
  | serve i lost =>
    obtain ⟨rpc, hrpc, -, rfl⟩ := step_serve hstep
    exact h.serve hw hrpc hans
  | deliver i =>
    obtain ⟨rpc, status, result, hrpc, -, hstate, rfl⟩ := step_deliver hstep
    have hmem := List.mem_of_getElem? hrpc
    refine h.finish hw hrpc (fun hok => h.flightPuts rpc hmem result (by rw [hstate, hok])) ?_
    intro x hx c hc p hmemp hfor
    have hanswered := (hw.asking hmem hx).2 status result hstate
    rw [AttemptOk, if_pos hanswered]
    exact h.flightGets rpc hmem status result hstate x hx c hc p hmemp hfor
  | fail i code result =>
    obtain ⟨rpc, hrpc, -, rfl⟩ := step_fail hstep
    refine h.finish hw hrpc (fun hok => absurd hok hkept.1.1) fun x hx c hc p hmem hfor => ?_
    have hcode : ¬ Answered code := not_or.mpr hkept.1
    rw [AttemptOk, if_neg hcode]
    obtain ⟨g, hg, hack, -⟩ := h.known hw hp hc hmem
    refine ⟨g, hg, ?_⟩
    rintro rfl
    obtain ⟨c', hc', hkey⟩ := (hw.asking (List.mem_of_getElem? hrpc) hx).1.get_for
    obtain rfl : c' = c := Option.some.inj (hc'.symm.trans hc)
    rw [hkey] at hfor
    have hacked := SimpleDht.mem_ackedPuts.mpr (h.gets c' (List.mem_of_getElem? hc) p hmem)
    exact hkept.2 rpc hrpc x hx p hacked hfor hack
  | call =>
    obtain ⟨p, error, calls, hcalls, rfl⟩ | ⟨x, error, v, calls, hcalls, rfl⟩ := step_call hstep
    · exact h.frame hw hp ⟨rfl, rfl, fun _ _ h => h, fun _ _ h => h⟩ h.puts rfl
        (List.subset_append_left _ _) rfl rfl rfl rfl fun _ h => .inl h
    · unfold SimpleDht.handleGetCallback
      split
      · exact h.frame hw hp ⟨rfl, rfl, fun _ _ h => h, fun _ _ h => h⟩ h.puts rfl (fun _ h => h)
          rfl rfl rfl rfl fun _ h => .inl h
      · split
        · exact h.frame hw hp ⟨rfl, rfl, fun _ _ h => h, fun _ _ h => h⟩ h.puts rfl (fun _ h => h)
            rfl rfl rfl rfl fun _ h => .inl h
        · exact h.frame hw hp (w.dht.frame_getReplica _) h.puts rfl (fun _ h => h) rfl rfl rfl rfl
            fun _ h => .inl h
  | change g store =>
    cases hstep
    exact h.change hkept.1 hkept.2

/-- A get that is over has found the value. -/
theorem firstAnswer_eq (h : w.Holds val) (hw : w.Flow) (hp : w.PutFlow) {n p : Nat} {c : GetCall}
    (hc : w.dht.gets[n]? = some c) (hmem : p ∈ c.acked) (hfor : w.dht.PutFor p c.key)
    (hfin : Finished w.dht c.key (w.attempts n)) : firstAnswer (w.attempts n) = val c.key := by
  have hok := h.attempts n c hc p hmem hfor
  obtain ⟨before, a, hatt, hask, -, hend⟩ := hfin
  rw [hatt] at hok
  rw [hatt, firstAnswer_append hask.tried.2]
  by_cases hans : Answered a.status
  · have hheld := hok a (List.mem_append_right _ (List.mem_singleton_self a))
    rw [AttemptOk, if_pos hans] at hheld
    rw [if_pos hans, hheld]
    rfl
  · -- All replicas were tried, so the gateway that acknowledged the put was one of them.
    exfalso
    have hlast := hend.resolve_left hans
    obtain ⟨hall, hnone⟩ := hask.next hans
    obtain ⟨g, hg, -, e, he, j, hj, hchoose⟩ := h.known hw hp hc hmem
    rw [SimpleDht.PutFor, he] at hfor
    rw [Option.some.inj hfor] at hchoose
    have hpair : (j, g) ∈ (before ++ [a]).map fun a => (a.n, a.gateway) := by
      rw [hall, ← hchoose]
      exact List.mem_map.mpr ⟨j, List.mem_range.mpr (by omega), rfl⟩
    obtain ⟨b, hb, hbg⟩ := List.mem_map.mp hpair
    have hbok := hok b hb
    rw [AttemptOk, if_neg (hnone b hb)] at hbok
    obtain ⟨g', hg', hne⟩ := hbok
    rw [hg, Option.some.injEq] at hg'
    exact hne (hg'.symm.trans (congrArg Prod.snd hbg).symm)

end Holds

/-- What others do to a store cannot be checked; everything else can. -/
noncomputable instance (val : Buffer → Buffer) (w : DhtWorld σ) : ∀ a, Decidable (w.Kept val a)
  | .put key value => inferInstanceAs (Decidable (value = val key))
  | .fail i code _ => inferInstanceAs (Decidable ((code ≠ RpcStatus.ok ∧ code ≠ RpcStatus.eobj) ∧
      ∀ rpc ∈ w.flight[i]?, ∀ h ∈ rpc.callbacks.getHandles, ∀ p ∈ w.dht.ackedPuts,
        w.dht.PutFor p h.key → (rpc.gateway, p) ∉ w.acked))
  | .change _ _ => Classical.propDecidable _
  | .get _ => .isTrue trivial
  | .dispatch => .isTrue trivial
  | .serve _ _ => .isTrue trivial
  | .deliver _ => .isTrue trivial
  | .call => .isTrue trivial

instance (w : DhtWorld σ) : ∀ a, Decidable (w.AnswersHold a)
  | .serve i false => inferInstanceAs (Decidable (∀ rpc ∈ w.flight[i]?,
      ∀ h ∈ rpc.callbacks.getHandles, ∀ p ∈ w.dht.ackedPuts, w.dht.PutFor p h.key →
        (rpc.gateway, p) ∉ w.acked → (find (w.stores rpc.gateway) h.key).isSome = true))
  | .serve _ true => .isTrue trivial
  | .put _ _ => .isTrue trivial
  | .get _ => .isTrue trivial
  | .dispatch => .isTrue trivial
  | .deliver _ => .isTrue trivial
  | .fail _ _ _ => .isTrue trivial
  | .call => .isTrue trivial
  | .change _ _ => .isTrue trivial

/-- The guard of the runs in which every acknowledged put can be read. -/
def Readable (val : Buffer → Buffer) (w : DhtWorld σ) (a : DhtAction σ) : Prop :=
  w.Kept val a ∧ w.AnswersHold a

noncomputable instance (w : DhtWorld σ) (a : DhtAction σ) : Decidable (w.Readable val a) :=
  inferInstanceAs (Decidable (_ ∧ _))

theorem Kept.transportErrors {a : DhtAction σ} (h : w.Kept val a) : TransportErrors w a := by
  cases a with
  | fail i code result => exact h.1
  | _ => trivial

theorem holds_run {as : List (DhtAction σ)} (hrun : Run step (Readable val) w as t)
    (hinit : w.Initial) (hval : ∀ g k v, find (w.stores g) k = some v → v = val k) :
    t.Flow ∧ t.PutFlow ∧ t.Holds val :=
  hrun.inv (P := fun w => w.Flow ∧ w.PutFlow ∧ w.Holds val)
    (fun h hok hstep => ⟨h.1.step hok.1.transportErrors hstep, h.2.1.step h.1 hstep,
      h.2.2.step h.1 h.2.1 hok.1 hok.2 hstep⟩)
    ⟨.initial hinit, .initial hinit, .initial hinit hval⟩

end DhtWorld

open DhtWorld

/-- A get that is called when the put of its key has been acknowledged finds the value, if the
gateways that acknowledged the put keep the pair and can be reached, and no gateway without the pair
answers. -/
theorem acknowledged_put_readable {σ : Type} [Persistency σ] {val : Buffer → Buffer}
    {w t : DhtWorld σ} (hinit : w.Initial)
    (hval : ∀ g k v, find (w.stores g) k = some v → v = val k) {as : List (DhtAction σ)}
    (hrun : Run step (Readable val) w as t) {p n : Nat} {c : GetCall} {value : Buffer}
    (hput : t.dht.puts[p]? = some (c.key, value)) (hget : t.dht.gets[n]? = some c)
    (hack : p ∈ c.acked) :
    (∀ v, (n, v) ∈ t.dht.getResults → v = value) ∧
      (t.Idle → (n, value) ∈ t.dht.getResults) := by
  obtain ⟨hflow, hputs, hholds⟩ := holds_run hrun hinit hval
  have hvalue : value = val c.key := hholds.puts _ (List.mem_of_getElem? hput)
  have hfor : t.dht.PutFor p c.key := by
    rw [SimpleDht.PutFor, hput]
    rfl
  have hfirst := hholds.firstAnswer_eq hflow hputs hget hack hfor
  constructor
  · intro v hv
    obtain ⟨key, ⟨c', hc', rfl⟩, hfin, heq⟩ := hflow.results (n, v) hv
    obtain rfl : c' = c := Option.some.inj (hc'.symm.trans hget)
    rw [hvalue, ← hfirst hfin]
    exact heq
  · intro hidle
    obtain ⟨hfin, hres⟩ := hflow.get_result hidle hget
    rw [hvalue, ← hfirst hfin]
    have hmem : (n, firstAnswer (t.attempts n)) ∈
        t.dht.getResults.filter fun e => e.1 = n := by
      rw [hres]
      exact List.mem_singleton_self _
    exact (List.mem_filter.mp hmem).1

/-! ### Two gateways -/

/-- Two gateways with empty stores, and two replicas of each pair. -/
def twoGateways : DhtWorld NullBwMap where
  dht := { gateways := [{}, {}], replication := 2 }
  stores _ := NullBwMap.new 8 100

/-- The first gateway is down during the put and the get. -/
def downThroughout : List (DhtAction NullBwMap) :=
  [.put [0] [7], .dispatch, .fail 0 111 [], .call, .serve 0 false, .deliver 0, .call,
    .get [0], .dispatch, .fail 0 111 [], .call, .dispatch, .serve 0 false, .deliver 0, .call]

/-- The first gateway is down during the put only. -/
def downDuringPut : List (DhtAction NullBwMap) :=
  [.put [0] [7], .dispatch, .fail 0 111 [], .call, .serve 0 false, .deliver 0, .call,
    .get [0], .dispatch, .serve 0 false, .deliver 0, .call]

theorem twoGateways_initial : twoGateways.Initial :=
  ⟨by decide, by decide, by decide, rfl, rfl, rfl, rfl, fun _ => rfl, fun _ => rfl⟩

/-- The get goes on to the second gateway, which has the pair. -/
theorem acknowledged_put_readable_second :
    ∃ t, Run step (Readable fun _ => [7]) twoGateways downThroughout t ∧ t.Idle ∧
      (0, [7]) ∈ t.dht.getResults := by
  have hrun : Run step (Readable fun _ => [7]) twoGateways downThroughout _ :=
    Run.of_isSome twoGateways (by decide +kernel)
  generalize ht : (exec step (Readable fun _ => [7]) twoGateways downThroughout).getD
    twoGateways = t at hrun
  have hidle : t.Idle := by
    rw [← ht]
    decide +kernel
  have hput : t.dht.puts[0]? = some ([0], [7]) := by
    rw [← ht]
    decide +kernel
  have hget : t.dht.gets[0]? = some ⟨[0], [0]⟩ := by
    rw [← ht]
    decide +kernel
  have hval : ∀ g k v, find (twoGateways.stores g) k = some v → v = [7] := by
    intro g k v hv
    cases hv
  exact ⟨t, hrun, hidle, (acknowledged_put_readable twoGateways_initial hval hrun hput hget
    List.mem_cons_self).2 hidle⟩

/-- The gateway that missed the put answers the get, and the get returns nothing although the
gateway that acknowledged the put could be reached. -/
theorem acknowledged_put_missed :
    ∃ t, Run step (Kept fun _ => [7]) twoGateways downDuringPut t ∧ t.Idle ∧
      t.dht.puts[0]? = some ([0], [7]) ∧ t.dht.gets[0]? = some ⟨[0], [0]⟩ ∧
      t.dht.getResults = [(0, [])] := by
  have hrun : Run step (Kept fun _ => [7]) twoGateways downDuringPut _ :=
    Run.of_isSome twoGateways (by decide +kernel)
  generalize ht : (exec step (Kept fun _ => [7]) twoGateways downDuringPut).getD
    twoGateways = t at hrun
  refine ⟨t, hrun, ?_⟩
  rw [← ht]
  decide +kernel

end BlobSeer
