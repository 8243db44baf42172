import BlobSeer.Rpc.ExactlyOnce

/-!
# The count of requests in flight (`rpc/rpc_client.hpp`)

`waiting_count` goes up when a request is taken from `request_map`, and down when its callback is run.
A connection that takes over a pending request raises it a second time for that request, and one that
takes a request from `request_map` does so without a look at `WAIT_LIMIT`. As long as neither happens
(`Gives`) and hosts are found, the count is the number of requests in flight, and then every operation
that makes a connection has its request in `pending_map` (`Tight`).
-/

namespace BlobSeer

open Lib

/-- The request whose connection the operation makes. -/
def RpcOp.setsUp : RpcOp → Option Nat
  | .resolve id => some id
  | .connect _ id => some id
  | .transfer _ _ => none

namespace RpcClient

/-- The requests that were taken from `request_map` and were not called back. -/
def inFlight (s : RpcClient) : List Nat :=
  (List.range s.requests.length).filter fun id => id ∉ s.requestMap ∧ id ∉ s.callbacks

/-- `waiting_count` is the number of requests in flight, within the limit; when all callbacks have run it
is `0`, and `run` returns true. -/
structure CountsInFlight (s : RpcClient) : Prop where
  defined : s.undefined = false
  count : s.waitingCount = s.inFlight.length
  limit : s.waitingCount ≤ waitLimit
  idle : (∀ id, id < s.requests.length → id ∈ s.callbacks) →
    s.waitingCount = 0 ∧ s.run.1 = true

/-! ## Which steps keep the count -/

/-- The ids do not overflow. -/
def Fits (s : RpcClient) : RpcEvent → Prop
  | .dispatch _ => s.requests.length < 2 ^ 32
  | .complete _ _ calls => s.requests.length + calls.length ≤ 2 ^ 32
  | _ => True

/-- `handle_answer` has resized the result. -/
def answered (s : RpcClient) (id : Nat) (o : RpcCompletion) : RpcClient :=
  { s with requests := s.requests.modify id fun r => { r with
      status := o.status
      result := r.result.take o.psize ++ List.replicate (o.psize - r.result.length) 0 } }

/-- When the read is the last one of the request and succeeds, the state in which the callback is
called. -/
def lastRead (s : RpcClient) (id : Nat) (stage : RpcStage) (o : RpcCompletion) : Option RpcClient :=
  match stage with
  | .answer =>
    if o.error = 0 ∧ ¬ 0 < ((s.answered id o).request id).result.length then some (s.answered id o)
    else none
  | .answerBuffer index =>
    if o.error = 0 ∧ ¬ u32 (index + 1) < (s.request id).result.length then some s else none
  | _ => none

/-- `handle_callback` without an error, up to `handle_next_request`. -/
def afterCallback (s : RpcClient) (id : Nat) (calls : List RpcCall) : RpcClient :=
  let s := { s with waitingCount := u32 (s.waitingCount + (2 ^ 32 - 1)) }
  let s := s.cancelTimer (s.request id).socket
  calls.foldl dispatch { s with called := s.called ++ [(id, (s.request id).status)] }

/-- The connection of request `id`, if it is open, finds a request of its host in `request_map` while the
count is below the limit, or finds none there and none in `pending_map` either. -/
def Gives (s : RpcClient) (id : Nat) : Prop :=
  ∀ socket ∈ (s.request id).socket, s.isOpen socket = true →
    if ∃ x ∈ s.requestMap, (s.request x).host = (s.request id).host then s.waitingCount < waitLimit
    else ∀ x ∈ s.pendingMap, (s.request x).host ≠ (s.request id).host

/-- The host is found, or the request, if it ends without an error, gives its connection away as in
`Gives`. -/
def SteadyOp (s : RpcClient) (o : RpcCompletion) (calls : List RpcCall) : RpcOp → Prop
  | .resolve _ => o.error = 0
  | .connect _ _ => True
  | .transfer id stage => ∀ t ∈ s.lastRead id stage o, (t.afterCallback id calls).Gives id

def Steady (s : RpcClient) : RpcEvent → Prop
  | .complete k o calls => ∀ op ∈ s.outstanding[k]?,
    { s with outstanding := s.outstanding.eraseIdx k }.SteadyOp o calls op
  | _ => True

instance (s : RpcClient) (e : RpcEvent) : Decidable (s.Fits e) :=
  match e with
  | .dispatch _ => inferInstanceAs (Decidable (s.requests.length < 2 ^ 32))
  | .complete _ _ calls => inferInstanceAs (Decidable (s.requests.length + calls.length ≤ 2 ^ 32))
  | .watchdog _ | .run => .isTrue trivial

instance (s : RpcClient) (id : Nat) : Decidable (s.Gives id) := by
  unfold Gives
  infer_instance

instance (s : RpcClient) (o : RpcCompletion) (calls : List RpcCall) (op : RpcOp) :
    Decidable (s.SteadyOp o calls op) :=
  match op with
  | .resolve _ => inferInstanceAs (Decidable (o.error = 0))
  | .connect .. => .isTrue trivial
  | .transfer id stage =>
    inferInstanceAs (Decidable (∀ t ∈ s.lastRead id stage o, (t.afterCallback id calls).Gives id))

instance (s : RpcClient) (e : RpcEvent) : Decidable (s.Steady e) :=
  match e with
  | .complete k o calls =>
    inferInstanceAs (Decidable (∀ op ∈ s.outstanding[k]?,
      { s with outstanding := s.outstanding.eraseIdx k }.SteadyOp o calls op))
  | .dispatch _ | .watchdog _ | .run => .isTrue trivial

/-! ## The requests in flight -/

theorem handleCallback_zero (s : RpcClient) (id : Nat) (calls : List RpcCall) :
    s.handleCallback id 0 calls = (s.afterCallback id calls).handleNextRequest
      ((s.afterCallback id calls).request id).socket
      ((s.afterCallback id calls).request id).host := by
  unfold handleCallback
  exact if_neg (not_not.mpr rfl)

/-- What is in flight is pending or on a connection. -/
theorem Core.length_inFlight {bound : Nat} {s : RpcClient} (h : Core [] bound s) :
    s.inFlight.length = s.serving.length + s.pendingMap.length := by
  have hperm : s.inFlight.Perm (s.serving ++ s.pendingMap) := by
    refine List.perm_iff_count.mpr fun x => ?_
    have hplaces := h.places x
    have hone := h.one_place x
    rw [List.count_nil] at hplaces hone
    rw [List.count_append]
    by_cases hx : x ∉ s.requestMap ∧ x ∉ s.callbacks
    · have hr := List.count_eq_zero.mpr hx.1
      have hc := List.count_eq_zero.mpr hx.2
      have hcount : s.inFlight.count x = (List.range s.requests.length).count x :=
        List.count_filter (decide_eq_true hx)
      omega
    · have hcount : s.inFlight.count x = 0 := by
        refine List.count_eq_zero.mpr fun hmem => hx ?_
        exact of_decide_eq_true (List.mem_filter.mp hmem).2
      have hpos : 0 < s.requestMap.count x + s.callbacks.count x := by
        by_contra hzero
        refine hx ⟨List.count_eq_zero.mp (by omega), List.count_eq_zero.mp (by omega)⟩
      omega
  rw [hperm.length_eq, List.length_append]

/-- The requests whose connections are being made. -/
def settingUp (s : RpcClient) : List Nat := s.outstanding.filterMap RpcOp.setsUp

/-- What holds besides as long as every step is steady. -/
structure Tight (s : RpcClient) : Prop where
  limit : s.waitingCount ≤ waitLimit
  takeovers : s.takeovers = 0
  setups : s.settingUp.Perm s.pendingMap
  fresh : ∀ id, id ∈ s.requestMap ∨ id ∈ s.pendingMap → (s.request id).socket = none
  sockets : ∀ id socket, (s.request id).socket = some socket → socket < s.sockets.length
  connecting : ∀ id socket, .connect socket id ∈ s.outstanding → socket < s.sockets.length

namespace Tight

variable {s : RpcClient}

theorem counts (h : Tight s) (hinv : Inv s) : s.CountsInFlight := by
  have hcount : s.waitingCount = s.inFlight.length := by
    have hwaiting := hinv.core.waiting
    rw [h.takeovers, List.length_nil] at hwaiting
    rw [hinv.core.length_inFlight]
    omega
  refine ⟨hinv.core.defined, hcount, h.limit, fun hall => ?_⟩
  have hempty : s.inFlight = [] := by
    refine List.eq_nil_iff_forall_not_mem.mpr fun id hid => ?_
    obtain ⟨hrange, hnot⟩ := List.mem_filter.mp hid
    exact (of_decide_eq_true hnot).2 (hall id (List.mem_range.mp hrange))
  have hzero : s.waitingCount = 0 := by
    rw [hcount, hempty]
    rfl
  exact ⟨hzero, decide_eq_true hzero⟩

/-- Sockets, timers and the count may change. -/
theorem keep (h : Tight s) {s' : RpcClient} (hlimit : s'.waitingCount ≤ waitLimit)
    (h1 : s'.requests = s.requests) (h2 : s'.requestMap = s.requestMap)
    (h3 : s'.pendingMap = s.pendingMap) (h4 : s'.outstanding = s.outstanding)
    (h5 : s'.sockets.length = s.sockets.length) (h6 : s'.takeovers = s.takeovers) : Tight s' := by
  refine ⟨hlimit, h6.trans h.takeovers, ?_, fun x hx => ?_, fun x k hk => ?_, fun x k hk => ?_⟩
  · rw [settingUp, h4, h3]
    exact h.setups
  · rw [h2, h3] at hx
    rw [request, h1]
    exact h.fresh x hx
  · rw [request, h1] at hk
    exact h5 ▸ h.sockets x k hk
  · exact h5 ▸ h.connecting x k (h4 ▸ hk)

/-! ### Dispatches -/

/-- A request that becomes pending, with the lookup of its host. -/
theorem startRound {bound : Nat} (h : Tight s) (hcore : Core [] bound s)
    (hlt : s.waitingCount < waitLimit) {id : Nat} (hid : id ∈ s.requestMap) (picks : List Nat) :
    Tight ({ ({ s with
        picks := picks
        requestMap := s.requestMap.erase id } : RpcClient).markPending id with
      waitingCount := u32 (s.waitingCount + 1) }.resolve id) := by
  have hnot : id ∉ s.pendingMap := by
    intro hp
    have hone := hcore.one_place id
    have := List.count_pos_iff.mpr hid
    have := List.count_pos_iff.mpr hp
    omega
  have hlimit : u32 (s.waitingCount + 1) ≤ waitLimit := (Nat.mod_le _ _).trans hlt
  -- everything but the lookup
  have hpend : ∀ {s' : RpcClient} (op : RpcOp), op.setsUp = some id →
      (∀ x k, op = .connect k x → k < s'.sockets.length) → s'.requests = s.requests →
      s'.requestMap = s.requestMap.erase id → s'.pendingMap = s.pendingMap.erase id ++ [id] →
      s'.outstanding = s.outstanding ++ [op] → s.sockets.length ≤ s'.sockets.length →
      s'.takeovers = s.takeovers → s'.waitingCount ≤ waitLimit → Tight s' := by
    intro s' op hop hconnect h1 h2 h3 h4 h5 h6 h7
    refine ⟨h7, h6.trans h.takeovers, ?_, fun x hx => ?_, fun x k hk => ?_, fun x k hk => ?_⟩
    · rw [settingUp, h4, h3, List.filterMap_append, List.filterMap_cons_some hop,
        List.erase_of_not_mem hnot]
      exact h.setups.append_right [id]
    · rw [request, h1]
      rw [h2, h3] at hx
      refine h.fresh x ?_
      rcases hx with hx | hx
      · exact .inl (List.mem_of_mem_erase hx)
      · rcases List.mem_append.mp hx with hx | hx
        · exact .inr (List.mem_of_mem_erase hx)
        · exact .inl (List.mem_singleton.mp hx ▸ hid)
    · rw [request, h1] at hk
      exact (h.sockets x k hk).trans_le h5
    · rw [h4] at hk
      rcases List.mem_append.mp hk with hk | hk
      · exact (h.connecting x k hk).trans_le h5
      · exact hconnect x k (List.mem_singleton.mp hk).symm
  unfold RpcClient.resolve
  split
  · have hlen : (s.sockets ++ [true]).length = s.sockets.length + 1 := List.length_append
    refine hpend (.connect s.sockets.length id) rfl ?_ rfl rfl rfl rfl ?_ rfl hlimit
    · rintro x k ⟨⟩
      exact Nat.lt_of_lt_of_eq (Nat.lt_succ_self _) hlen.symm
    · exact (Nat.le_succ _).trans_eq hlen.symm
  · exact hpend (.resolve id) rfl nofun rfl rfl rfl rfl (Nat.le_refl _) rfl hlimit

theorem startLoop {bound : Nat} (hbound : waitLimit ≤ bound) (fuel : Nat) (h : Tight s)
    (hcore : Core [] bound s) : Tight (RpcClient.startLoop fuel s) := by
  induction fuel generalizing s with
  | zero => exact h
  | succ fuel ih =>
    unfold RpcClient.startLoop
    split
    · next hlt =>
      obtain ⟨hnone, -⟩ | ⟨id, hid, hsome⟩ := s.dequeueAny_cases
      · rw [hnone]
        exact h
      · rw [hsome]
        exact ih (h.startRound hcore hlt hid s.picks.tail)
          (hcore.startRound hbound hlt hid s.picks.tail)
    · exact h

/-- A new request has no socket. -/
theorem enqueue (h : Tight s) (c : RpcCall) : Tight (s.enqueue c) := by
  have hsocket : ∀ x, ((s.enqueue c).request x).socket = (s.request x).socket := by
    intro x
    unfold request RpcClient.enqueue
    dsimp only
    rw [List.getD_eq_getElem?_getD, List.getD_eq_getElem?_getD]
    rcases Nat.lt_or_ge x s.requests.length with hlt | hge
    · rw [List.getElem?_append_left hlt]
    · rw [List.getElem?_append_right hge, List.getElem?_eq_none hge]
      cases x - s.requests.length with
      | zero => rfl
      | succ n => rfl
  refine ⟨h.limit, h.takeovers, h.setups, fun x hx => ?_, fun x k hk => ?_, h.connecting⟩
  · rw [hsocket]
    by_cases hlt : x < s.requests.length
    · refine h.fresh x (hx.imp_left fun hx => ?_)
      rcases List.mem_append.mp hx with hx | hx
      · exact List.mem_of_mem_erase hx
      · exact absurd (List.mem_singleton.mp hx) (Nat.ne_of_lt hlt)
    · rw [request, List.getD_eq_getElem?_getD, List.getElem?_eq_none (Nat.le_of_not_lt hlt)]
      rfl
  · exact h.sockets x k ((hsocket x).symm.trans hk)

theorem dispatch {bound : Nat} (hbound : waitLimit ≤ bound) (h : Tight s) (hcore : Core [] bound s)
    (c : RpcCall) : Tight (s.dispatch c) :=
  (h.enqueue c).startLoop hbound waitLimit (hcore.enqueue c)

theorem dispatchAll {bound : Nat} (hbound : waitLimit ≤ bound) (calls : List RpcCall) (h : Tight s)
    (hcore : Core [] bound s) : Tight (calls.foldl RpcClient.dispatch s) := by
  induction calls generalizing s with
  | nil => exact h
  | cons c calls ih => exact ih (h.dispatch hbound hcore c) (hcore.dispatch hbound c).1

/-! ### Connections -/

/-- A request keeps its socket. -/
theorem modify (h : Tight s) (id : Nat) {f : RpcRequest → RpcRequest}
    (hf : ∀ r, (f r).socket = r.socket) :
    Tight { s with requests := s.requests.modify id f } := by
  have hsocket : ∀ x, (request { s with requests := s.requests.modify id f } x).socket =
      (s.request x).socket := by
    intro x
    unfold request
    dsimp only
    rw [List.getD_eq_getElem?_getD, List.getD_eq_getElem?_getD, List.getElem?_modify]
    cases s.requests[x]? with
    | none => rfl
    | some r =>
      rw [Option.map_eq_map, Option.map_some, Option.getD_some, Option.getD_some]
      split
      · exact hf r
      · rfl
  refine ⟨h.limit, h.takeovers, h.setups, fun x hx => ?_, fun x k hk => ?_, h.connecting⟩
  · rw [hsocket]
    exact h.fresh x hx
  · exact h.sockets x k ((hsocket x).symm.trans hk)

theorem setSocket (h : Tight s) {id socket : Nat} (hnew : id ∉ s.requestMap ∧ id ∉ s.pendingMap)
    (hsocket : socket < s.sockets.length) : Tight (s.setSocket id socket) := by
  have hrequest : ∀ x, x ≠ id → (s.setSocket id socket).request x = s.request x := by
    intro x hne
    unfold request RpcClient.setSocket
    dsimp only
    rw [List.getD_eq_getElem?_getD, List.getD_eq_getElem?_getD,
      List.getElem?_modify_ne _ _ (Ne.symm hne)]
  refine ⟨h.limit, h.takeovers, h.setups, fun x hx => ?_, fun x k hk => ?_, h.connecting⟩
  · rw [hrequest x]
    · exact h.fresh x hx
    · rintro rfl
      exact hx.elim hnew.1 hnew.2
  · by_cases hx : x = id
    · unfold request RpcClient.setSocket at hk
      dsimp only at hk
      rw [hx, List.getD_eq_getElem?_getD, List.getElem?_modify_eq] at hk
      cases hr : s.requests[id]? with
      | none =>
        rw [hr] at hk
        cases hk
      | some r =>
        rw [hr] at hk
        exact Option.some.inj hk ▸ hsocket
    · rw [hrequest x hx] at hk
      exact h.sockets x k hk

theorem addTimer (h : Tight s) (socket : Nat) : Tight (s.addTimer socket) :=
  h.keep h.limit rfl rfl rfl rfl rfl rfl

theorem cancelTimer (h : Tight s) (socket : Nat) : Tight (s.cancelTimer (some socket)) :=
  h.keep h.limit rfl rfl rfl rfl rfl rfl

theorem close (h : Tight s) (socket : Nat) : Tight (s.close socket) :=
  h.keep h.limit rfl rfl rfl rfl List.length_set rfl

theorem transfer (h : Tight s) (id : Nat) (stage : RpcStage) : Tight (s.transfer id stage) := by
  unfold RpcClient.transfer
  split
  · refine ⟨h.limit, h.takeovers, ?_, h.fresh, h.sockets, fun x k hk => ?_⟩
    · rw [settingUp, List.filterMap_append, List.filterMap_cons_none rfl, List.filterMap_nil,
        List.append_nil]
      exact h.setups
    · rcases List.mem_append.mp hk with hk | hk
      · exact h.connecting x k hk
      · cases List.mem_singleton.mp hk
  · exact h.keep h.limit rfl rfl rfl rfl rfl rfl

/-- A free connection that gives fairly. -/
theorem serveNext (h : Tight s) (hcore : Core [] waitLimit s) {id socket : Nat}
    (hsocket : (s.request id).socket = some socket) (hopen : s.isOpen socket = true)
    (hgives : s.Gives id) : Tight (s.serveNext socket (s.request id).host) := by
  have hgives := hgives socket hsocket hopen
  unfold RpcClient.serveNext
  obtain ⟨hnone, hall⟩ | ⟨x, hx, hhost, hsome⟩ := s.dequeueHost_cases (s.request id).host
  · rw [if_neg (fun ⟨x, hx, hhost⟩ => hall x hx hhost)] at hgives
    rw [hnone]
    dsimp only
    obtain ⟨hnone, -⟩ | ⟨x, hx, hhost, -⟩ := s.dequeuePendingHost_cases (s.request id).host
    · rw [hnone]
      exact h.close socket
    · exact absurd hhost (hgives x hx)
  · rw [if_pos ⟨x, hx, hhost⟩] at hgives
    rw [hsome]
    have hone := hcore.one_place x
    have hcount := List.count_pos_iff.mpr hx
    have htake : Tight { s with
        picks := s.picks.tail
        requestMap := s.requestMap.erase x
        waitingCount := u32 (s.waitingCount + 1) } :=
      ⟨(Nat.mod_le _ _).trans hgives, h.takeovers, h.setups,
        fun y hy => h.fresh y (hy.imp_left List.mem_of_mem_erase), h.sockets, h.connecting⟩
    have hnew : x ∉ s.requestMap.erase x ∧ x ∉ s.pendingMap := by
      rw [← List.count_eq_zero, ← List.count_eq_zero, List.count_erase_self]
      omega
    have hset := htake.setSocket hnew (h.sockets id socket hsocket)
    exact (hset.addTimer socket).transfer x .header

theorem handleNextRequest (h : Tight s) (hcore : Core [] waitLimit s) {id : Nat}
    (hgives : s.Gives id) :
    Tight (s.handleNextRequest (s.request id).socket (s.request id).host) := by
  unfold RpcClient.handleNextRequest
  cases hsocket : (s.request id).socket with
  | none => exact h.startLoop (Nat.le_refl _) _ hcore
  | some socket =>
    dsimp only
    split
    · next hopen =>
      exact (h.serveNext hcore hsocket hopen hgives).startLoop (Nat.le_succ _) _
        (hcore.serveNext (by decide) socket _)
    · exact h.startLoop (Nat.le_refl _) _ hcore

/-! ### Callbacks -/

/-- The dispatches of a callback. -/
theorem called {id : Nat} (h : Tight s) (hcore : Core [id] (waitLimit + 1) s) (calls : List RpcCall) :
    Tight (calls.foldl RpcClient.dispatch { s with
        waitingCount := s.waitingCount - 1
        called := s.called ++ [(id, (s.request id).status)] }) ∧
      Core [] waitLimit (calls.foldl RpcClient.dispatch { s with
        waitingCount := s.waitingCount - 1
        called := s.called ++ [(id, (s.request id).status)] }) := by
  have hlimit : s.takeovers < waitLimit := h.takeovers ▸ waitLimit_pos
  have hcallback := hcore.callback hlimit (s.request id).status
  have hkeep : Tight { s with
      waitingCount := s.waitingCount - 1
      called := s.called ++ [(id, (s.request id).status)] } :=
    h.keep ((Nat.sub_le _ _).trans h.limit) rfl rfl rfl rfl rfl rfl
  exact ⟨hkeep.dispatchAll (Nat.le_refl _) calls hcallback,
    Core.dispatchAll (Nat.le_refl _) hcallback⟩

theorem afterCallback {id : Nat} (h : Tight s) (hwork : Core.AtWork id s) (calls : List RpcCall) :
    Tight (s.afterCallback id calls) ∧ Core [] waitLimit (s.afterCallback id calls) := by
  obtain ⟨socket, hsome⟩ := Option.ne_none_iff_exists'.mp hwork.socket
  unfold RpcClient.afterCallback
  rw [hwork.core.u32_pred]
  dsimp only [request] at hsome ⊢
  rw [hsome]
  exact (h.cancelTimer socket).called (hwork.core.cancelTimer (some socket)) calls

/-- A closed connection has nothing to give. -/
theorem gives_of_closed {id socket : Nat} {t : RpcClient} (h : Extends s t)
    (hid : id < s.requests.length) (hsocket : (s.request id).socket = some socket)
    (hlt : socket < s.sockets.length) (hclosed : s.isOpen socket = false) : t.Gives id := by
  intro k hk hopen
  rw [h.request hid, hsocket, Option.mem_some_iff] at hk
  rw [← hk, h.isOpen hlt, hclosed] at hopen
  cases hopen

theorem isOpen_close (s : RpcClient) (socket : Nat) : (s.close socket).isOpen socket = false := by
  unfold isOpen RpcClient.close
  dsimp only
  rw [List.getD_eq_getElem?_getD]
  rcases Nat.lt_or_ge socket s.sockets.length with hlt | hge
  · rw [List.getElem?_set_self hlt]
    rfl
  · rw [List.getElem?_eq_none (List.length_set.trans_le hge)]
    rfl

theorem handleCallback {id : Nat} (h : Tight s) (hwork : Core.AtWork id s) {error : Nat}
    {calls : List RpcCall} (hgives : error = 0 → (s.afterCallback id calls).Gives id) :
    Tight (s.handleCallback id error calls) := by
  by_cases herror : error = 0
  · obtain ⟨hafter, hcore⟩ := h.afterCallback hwork calls
    rw [herror, handleCallback_zero]
    exact hafter.handleNextRequest hcore (hgives herror)
  · obtain ⟨socket, hsome⟩ := Option.ne_none_iff_exists'.mp hwork.socket
    have hlt := hwork.core.lt_of_hand (List.mem_singleton_self id)
    unfold RpcClient.handleCallback
    rw [hwork.core.u32_pred, if_pos herror]
    dsimp only [request] at hsome ⊢
    rw [hsome]
    dsimp only [RpcClient.cancelTimer]
    rw [getD_modify hlt, hsome]
    have hstatus := (hwork.core.cancelTimer (some socket)).modify id
      (f := fun r => { r with status := error }) fun _ hr => hr
    have htight := (h.cancelTimer socket).modify id (f := fun r => { r with status := error })
      fun _ => rfl
    obtain ⟨hafter, hcore⟩ := (htight.close socket).called (hstatus.close socket) calls
    refine hafter.handleNextRequest hcore ?_
    refine gives_of_closed (Extends.dispatchAll calls _) ((List.length_modify ..).symm ▸ hlt) ?_ ?_
      (isOpen_close _ socket)
    · unfold request
      exact (getD_modify hlt _ _).symm ▸ hsome
    · exact List.length_set.symm ▸ h.sockets id socket hsome

/-! ### Reads and writes -/

theorem handleParams (h : Tight s) (id index : Nat) : Tight (s.handleParams id index) := by
  unfold RpcClient.handleParams
  split
  · exact h.transfer _ _
  · exact h.transfer _ _

theorem handleAnswer {id : Nat} (h : Tight s) (hwork : Core.AtWork id s) {index : Nat}
    {calls : List RpcCall}
    (hgives : ¬ index < (s.request id).result.length → (s.afterCallback id calls).Gives id) :
    Tight (s.handleAnswer id index calls) := by
  unfold RpcClient.handleAnswer
  split
  · exact h.transfer _ _
  · next hlast => exact h.handleCallback hwork fun _ => hgives hlast

theorem handleTransfer {id : Nat} (h : Tight s) (hwork : Core.AtWork id s) {stage : RpcStage}
    {o : RpcCompletion} {calls : List RpcCall} (hsteady : s.SteadyOp o calls (.transfer id stage)) :
    Tight (s.handleTransfer id stage o calls) := by
  have hinvalid : invalidArgument ≠ 0 := by decide
  unfold RpcClient.handleTransfer
  cases stage with
  | header =>
    dsimp only
    split
    · next herror => exact h.handleCallback hwork fun hzero => absurd hzero herror
    · exact h.handleParams _ _
  | paramSize index =>
    dsimp only
    split
    · next herror => exact h.handleCallback hwork fun hzero => absurd hzero herror
    · exact h.transfer _ _
  | paramBuffer index =>
    dsimp only
    split
    · exact h.handleCallback hwork fun hzero => absurd hzero hinvalid
    · exact h.handleParams _ _
  | answer =>
    dsimp only
    split
    · exact h.handleCallback hwork fun hzero => absurd hzero hinvalid
    · next herror =>
      have htight : Tight (s.answered id o) := h.modify id fun _ => rfl
      have hwork' : Core.AtWork id (s.answered id o) := hwork.modify fun _ hr => hr
      refine htight.handleAnswer hwork' fun hlast => hsteady _ ?_
      exact if_pos ⟨not_not.mp herror, hlast⟩
  | answerSize index =>
    dsimp only
    split
    · exact h.handleCallback hwork fun hzero => absurd hzero hinvalid
    · split
      · exact h.handleCallback hwork fun hzero => absurd hzero hinvalid
      · refine transfer (h.modify id ?_) id (.answerBuffer index)
        exact fun _ => rfl
  | answerBuffer index =>
    dsimp only
    split
    · exact h.handleCallback hwork fun hzero => absurd hzero hinvalid
    · next herror =>
      refine h.handleAnswer hwork fun hlast => hsteady _ ?_
      exact if_pos ⟨not_not.mp herror, hlast⟩

/-! ### Steps -/

theorem settingUp_eraseIdx {k : Nat} {op : RpcOp} (hk : s.outstanding[k]? = some op) :
    s.settingUp.Perm (op.setsUp.toList ++ (s.outstanding.eraseIdx k).filterMap RpcOp.setsUp) := by
  obtain ⟨hlt, rfl⟩ := List.getElem?_eq_some_iff.mp hk
  have hperm := (List.getElem_cons_eraseIdx_perm hlt).symm.filterMap RpcOp.setsUp
  refine hperm.trans ?_
  cases hsets : s.outstanding[k].setsUp with
  | none => rw [List.filterMap_cons_none hsets]; exact List.Perm.refl _
  | some id => rw [List.filterMap_cons_some hsets]; exact List.Perm.refl _

/-- The host of a request, or its connection, is waited for in `pending_map`. -/
theorem mem_pendingMap (h : Tight s) {k id : Nat} {op : RpcOp} (hk : s.outstanding[k]? = some op)
    (hop : op.setsUp = some id) : id ∈ s.pendingMap := by
  have hperm := (settingUp_eraseIdx hk).symm.trans h.setups
  rw [hop] at hperm
  exact hperm.mem_iff.mp List.mem_cons_self

/-- A read or write completes. -/
theorem takeTransfer (h : Tight s) {k id : Nat} {stage : RpcStage}
    (hk : s.outstanding[k]? = some (.transfer id stage)) :
    Tight { s with outstanding := s.outstanding.eraseIdx k } :=
  ⟨h.limit, h.takeovers, (settingUp_eraseIdx hk).symm.trans h.setups, h.fresh, h.sockets,
    fun x socket hx => h.connecting x socket (List.mem_of_mem_eraseIdx hx)⟩

/-- A host was looked up. -/
theorem resolved (h : Tight s) {k id : Nat} (hk : s.outstanding[k]? = some (.resolve id))
    (cache : CacheMt HostId Unit (CacheMtLRU HostId)) :
    Tight ({ s with outstanding := s.outstanding.eraseIdx k, hostCache := cache }.startConnect id) := by
  have hlen : (s.sockets ++ [true]).length = s.sockets.length + 1 := List.length_append
  have hlt : s.sockets.length < (s.sockets ++ [true]).length :=
    Nat.lt_of_lt_of_eq (Nat.lt_succ_self _) hlen.symm
  refine ⟨h.limit, h.takeovers, ?_, h.fresh, fun x socket hx => ?_, fun x socket hx => ?_⟩
  · refine List.Perm.trans ?_ ((settingUp_eraseIdx hk).symm.trans h.setups)
    show ((s.outstanding.eraseIdx k ++ [RpcOp.connect s.sockets.length id]).filterMap RpcOp.setsUp).Perm _
    rw [List.filterMap_append]
    exact List.perm_append_comm
  · exact (h.sockets x socket hx).trans hlt
  · rcases List.mem_append.mp hx with hx | hx
    · exact (h.connecting x socket (List.mem_of_mem_eraseIdx hx)).trans hlt
    · cases List.mem_singleton.mp hx
      exact hlt

/-- A connection for a pending request. -/
theorem connected (h : Tight s) (hinv : Inv s) {k id socket : Nat}
    (hk : s.outstanding[k]? = some (.connect socket id)) :
    Tight ({ s with
      outstanding := s.outstanding.eraseIdx k
      pendingMap := s.pendingMap.erase id }.setSocket id socket) := by
  have hid := h.mem_pendingMap hk rfl
  have hone := hinv.core.one_place id
  have hcount := List.count_pos_iff.mpr hid
  have htake : Tight { s with
      outstanding := s.outstanding.eraseIdx k
      pendingMap := s.pendingMap.erase id } := by
    refine ⟨h.limit, h.takeovers, ?_, fun x hx => ?_, h.sockets, fun x socket hx => ?_⟩
    · have hperm := (settingUp_eraseIdx hk).symm.trans h.setups
      exact List.Perm.cons_inv (hperm.trans (List.perm_cons_erase hid))
    · exact h.fresh x (hx.imp_right List.mem_of_mem_erase)
    · exact h.connecting x socket (List.mem_of_mem_eraseIdx hx)
  refine htake.setSocket ?_ (h.connecting id socket (List.mem_of_getElem? hk))
  show id ∉ s.requestMap ∧ id ∉ s.pendingMap.erase id
  rw [← List.count_eq_zero, ← List.count_eq_zero, List.count_erase_self]
  omega

theorem ok (h : Tight s) {e : RpcEvent} (hfits : s.Fits e) (hsteady : s.Steady e) : s.Ok e := by
  have hlimit : s.takeovers < waitLimit := h.takeovers ▸ waitLimit_pos
  cases e with
  | dispatch c => exact ⟨hlimit, hfits⟩
  | complete k o calls =>
    refine ⟨hlimit, hfits, fun op hk => ?_⟩
    cases op with
    | resolve id => exact .inl (hsteady _ hk)
    | connect socket id => exact .inr (h.mem_pendingMap hk rfl)
    | transfer id stage => trivial
  | watchdog socket => trivial
  | run => trivial

/-- A steady step. -/
theorem step (h : Tight s) (hinv : Inv s) {e : RpcEvent} (hsteady : s.Steady e) {s' : RpcClient}
    (hs : s.step e = some s') : Tight s' := by
  have hlimit : s.takeovers < waitLimit := h.takeovers ▸ waitLimit_pos
  unfold RpcClient.step at hs
  split at hs
  · cases hs
  cases e with
  | dispatch c =>
    cases hs
    exact h.dispatch (Nat.le_succ _) hinv.core c
  | complete k o calls =>
    dsimp only at hs
    split at hs
    · next op hk =>
      cases hs
      have hop := hsteady op hk
      cases op with
      | resolve id =>
        have herror : ¬ o.error ≠ 0 := not_not.mpr hop
        unfold handle handleResolve
        dsimp only
        rw [if_neg herror, if_neg herror]
        exact h.resolved hk _
      | connect socket id =>
        have hid := h.mem_pendingMap hk rfl
        have hwork := hinv.connected hlimit hk hid
        unfold handle handleConnect
        dsimp only [dequeuePending]
        rw [decide_eq_true hid]
        dsimp only
        split
        · next herror =>
          exact (h.connected hinv hk).handleCallback hwork fun hzero => absurd hzero herror
        · exact (h.connected hinv hk).transfer _ _
      | transfer id stage =>
        exact (h.takeTransfer hk).handleTransfer (hinv.takeTransfer hlimit hk) hop
    · cases hs
  | watchdog socket =>
    dsimp only at hs
    split at hs
    · cases hs
      exact (h.close socket).cancelTimer socket
    · cases hs
  | run =>
    dsimp only at hs
    split at hs
    · next hempty =>
      cases hs
      have hsetting : s.run.2.settingUp = [] := by
        show s.outstanding.filterMap RpcOp.setsUp = []
        rw [hempty]
        rfl
      refine ⟨Nat.zero_le _, rfl, ?_, fun x hx => ?_, h.sockets, h.connecting⟩
      · rw [hsetting]
        exact List.Perm.refl _
      · rcases hx with hx | hx
        · exact absurd hx List.not_mem_nil
        · exact absurd hx List.not_mem_nil
    · cases hs

end Tight

/-! ## Steps that lose count -/

theorem handleTransfer_of_lastRead {s t : RpcClient} {id : Nat} {stage : RpcStage} {o : RpcCompletion}
    (calls : List RpcCall) (ht : t ∈ s.lastRead id stage o) :
    s.handleTransfer id stage o calls = t.handleCallback id 0 calls := by
  unfold lastRead at ht
  split at ht
  · split at ht
    · next hlast =>
      cases ht
      have herror : ¬ o.error ≠ 0 := not_not.mpr hlast.1
      unfold handleTransfer
      dsimp only
      rw [if_neg herror]
      exact if_neg hlast.2
    · cases ht
  · split at ht
    · next hlast =>
      cases ht
      have herror : ¬ o.error ≠ 0 := not_not.mpr hlast.1
      unfold handleTransfer
      dsimp only
      rw [if_neg herror]
      exact if_neg hlast.2
    · cases ht
  · cases ht

/-- A request that has no socket. -/
theorem handleCallback_null (s : RpcClient) {id error : Nat} (hlt : id < s.requests.length)
    (hnone : (s.request id).socket = none) (herror : error ≠ 0) (calls : List RpcCall) :
    (s.handleCallback id error calls).undefined = true := by
  have hsocket : ((s.requests.modify id fun r => { r with status := error }).getD id
      { host := ("", "") }).socket = none := by
    rw [getD_modify hlt]
    exact hnone
  have hcancel : ∀ t : RpcClient, t.cancelTimer (s.request id).socket = t := by
    intro t
    rw [hnone]
    rfl
  have hrequest : ∀ n, ({ s with waitingCount := n } : RpcClient).request id = s.request id :=
    fun _ => rfl
  unfold handleCallback
  simp only [hrequest, hcancel, ne_eq, herror, not_false_eq_true, if_true]
  simp only [request, hsocket]

theorem reuse_frame (s : RpcClient) (socket id : Nat) :
    (s.reuse socket id).waitingCount = s.waitingCount ∧
      (s.reuse socket id).takeovers = s.takeovers := by
  unfold reuse transfer
  split
  · exact ⟨rfl, rfl⟩
  · exact ⟨rfl, rfl⟩

theorem startLoop_of_limit {s : RpcClient} (hlimit : waitLimit ≤ s.waitingCount) (fuel : Nat) :
    startLoop fuel s = s := by
  cases fuel with
  | zero => rfl
  | succ fuel =>
    unfold startLoop
    exact if_neg (Nat.not_lt.mpr hlimit)

namespace Tight

variable {s : RpcClient}

/-- A connection that does not give fairly makes the count exceed the limit, or counts a request
twice. -/
theorem gives_of_counts {id : Nat} (h : Tight s) (hcore : Core [] waitLimit s)
    (hcounts : (s.handleNextRequest (s.request id).socket (s.request id).host).CountsInFlight) :
    s.Gives id := by
  intro socket hsocket hopen
  have hserve := hcore.serveNext (by decide) socket (s.request id).host
  obtain ⟨hloop, -⟩ := Core.startLoop (Nat.le_succ _) waitLimit hserve
  have hnext : s.handleNextRequest (s.request id).socket (s.request id).host =
      RpcClient.startLoop waitLimit (s.serveNext socket (s.request id).host) := by
    unfold RpcClient.handleNextRequest
    rw [Option.mem_def.mp hsocket]
    exact congrArg (RpcClient.startLoop waitLimit) (if_pos hopen)
  rw [hnext] at hcounts
  obtain ⟨hnone, hall⟩ | ⟨x, hx, hhost, hsome⟩ := s.dequeueHost_cases (s.request id).host
  · rw [if_neg (fun ⟨x, hx, hhost⟩ => hall x hx hhost)]
    obtain ⟨-, hall⟩ | ⟨x, hx, hhost, hsome⟩ := s.dequeuePendingHost_cases (s.request id).host
    · exact hall
    · exfalso
      have htaken : (s.serveNext socket (s.request id).host).takeovers = 1 := by
        unfold RpcClient.serveNext
        rw [hnone]
        dsimp only
        rw [hsome]
        refine (reuse_frame _ socket x).2.trans ?_
        show s.takeovers + 1 = 1
        rw [h.takeovers]
      have hwaiting := hloop.waiting
      rw [(Extends.startLoop waitLimit _).takeovers, htaken, List.length_nil] at hwaiting
      have hcount := hcounts.count
      rw [hloop.length_inFlight] at hcount
      omega
  · rw [if_pos ⟨x, hx, hhost⟩]
    by_contra hge
    have hfull : s.waitingCount = waitLimit := Nat.le_antisymm h.limit (Nat.le_of_not_lt hge)
    have hcount : (s.serveNext socket (s.request id).host).waitingCount = waitLimit + 1 := by
      unfold RpcClient.serveNext
      rw [hsome]
      refine (reuse_frame _ socket x).1.trans ?_
      show u32 (s.waitingCount + 1) = waitLimit + 1
      rw [hfull]
      rfl
    have hlimit := hcounts.limit
    rw [startLoop_of_limit (hcount ▸ Nat.le_succ _), hcount] at hlimit
    exact Nat.not_succ_le_self _ hlimit

theorem answered {id : Nat} {stage : RpcStage} {o : RpcCompletion} {t : RpcClient} (h : Tight s)
    (hwork : Core.AtWork id s) (ht : t ∈ s.lastRead id stage o) : Tight t ∧ Core.AtWork id t := by
  unfold lastRead at ht
  split at ht
  · split at ht
    · cases ht
      exact ⟨h.modify id fun _ => rfl, hwork.modify fun _ hr => hr⟩
    · cases ht
  · split at ht
    · cases ht
      exact ⟨h, hwork⟩
    · cases ht
  · cases ht

theorem steady_of_counts (h : Tight s) (hinv : Inv s) {e : RpcEvent} {s' : RpcClient}
    (hs : s.step e = some s') (hcounts : s'.CountsInFlight) : s.Steady e := by
  have hlimit : s.takeovers < waitLimit := h.takeovers ▸ waitLimit_pos
  unfold RpcClient.step at hs
  split at hs
  · cases hs
  cases e with
  | dispatch c => trivial
  | complete k o calls =>
    intro op hk
    dsimp only at hs
    rw [hk] at hs
    cases hs
    cases op with
    | resolve id =>
      by_contra hfails
      have herror : o.error ≠ 0 := hfails
      have hid := h.mem_pendingMap hk rfl
      have hdefined := hcounts.defined
      have hlt : id < s.requests.length := by
        have hplaces := hinv.core.places id
        have hpos := List.count_pos_iff.mpr hid
        exact List.mem_range.mp (List.count_pos_iff.mp (by omega))
      unfold handle handleResolve at hdefined
      dsimp only [dequeuePending] at hdefined
      rw [if_pos herror, if_pos herror, decide_eq_true hid] at hdefined
      dsimp only at hdefined
      have hnull := handleCallback_null { s with
        outstanding := s.outstanding.eraseIdx k
        pendingMap := s.pendingMap.erase id } hlt (h.fresh id (.inr hid)) herror calls
      rw [hnull] at hdefined
      cases hdefined
    | connect socket id => trivial
    | transfer id stage =>
      intro t ht
      obtain ⟨htight, hwork⟩ := (h.takeTransfer hk).answered (hinv.takeTransfer hlimit hk) ht
      obtain ⟨hafter, hcore⟩ := htight.afterCallback hwork calls
      refine hafter.gives_of_counts hcore ?_
      rw [← handleCallback_zero, ← handleTransfer_of_lastRead calls ht]
      exact hcounts
  | watchdog socket => trivial
  | run => trivial

end Tight

theorem tight_initial (picks : List Nat) : Tight { picks := picks } where
  limit := Nat.zero_le _
  takeovers := rfl
  setups := List.Perm.refl _
  fresh _ h := h.elim (fun h => absurd h List.not_mem_nil) fun h => absurd h List.not_mem_nil
  sockets _ _ h := by cases h
  connecting _ _ h := absurd h List.not_mem_nil

/-- The count is that of the requests in flight after every step of a run exactly when every step of it
is steady. -/
theorem counts_in_flight_iff {picks : List Nat} {es : List RpcEvent} {s : RpcClient} :
    Run step (fun s e => s.Fits e ∧ ∀ s', s.step e = some s' → s'.CountsInFlight)
        { picks := picks } es s ↔
      Run step (fun s e => s.Fits e ∧ s.Steady e) { picks := picks } es s := by
  have hinit : Inv { picks := picks } ∧ Tight { picks := picks } :=
    ⟨inv_initial picks, tight_initial picks⟩
  refine Run.guard_iff (P := fun s => Inv s ∧ Tight s) (fun h hok hs => ?_) (fun h hs => ?_) hinit
  · exact ⟨h.1.step (h.2.ok hok.1 hok.2) hs, h.2.step h.1 hok.2 hs⟩
  · refine and_congr_right fun hfits => ⟨fun hcounts => ?_, fun hsteady t ht => ?_⟩
    · exact h.2.steady_of_counts h.1 hs (hcounts _ hs)
    · exact (h.2.step h.1 hsteady ht).counts (h.1.step (h.2.ok hfits hsteady) ht)

/-- The second of two requests to one host is taken over by the connection of the first. -/
theorem taken_over_counted_twice :
    ∃ s, Run step Fits {} takenOver s ∧ s.outstanding = [] ∧
      (∀ id, id < s.requests.length → id ∈ s.callbacks) ∧ s.waitingCount = 1 ∧ s.run.1 = false ∧
      ¬ s.CountsInFlight := by
  have hrun : Run step Fits {} takenOver _ := Run.of_isSome {} (by decide +kernel)
  generalize hs : (exec step Fits {} takenOver).getD {} = s at hrun
  have hall : ∀ id, id < s.requests.length → id ∈ s.callbacks := by
    rw [← hs]
    decide +kernel
  have hcount : s.waitingCount = 1 := by
    rw [← hs]
    decide +kernel
  refine ⟨s, hrun, ?_, hall, hcount, ?_, fun h => ?_⟩
  · rw [← hs]
    decide +kernel
  · rw [← hs]
    decide +kernel
  · rw [(h.idle hall).1] at hcount
    cases hcount

end RpcClient

end BlobSeer
