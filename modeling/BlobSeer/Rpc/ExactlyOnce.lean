import BlobSeer.Lib.Run
import BlobSeer.Rpc.Dispatch
import Mathlib.Data.List.Nodup
import Mathlib.Data.List.Perm.Basic

/-!
# Every dispatched request completes once

A request is in one place at a time: in `request_map`, in `pending_map`, on a connection, or called
back (`Core.places`). `waiting_count` counts the pending requests and those on a connection, and those
that were ever taken over, which it never gives up (`Core.waiting`). A request stays in `request_map`
only while the count is at its limit, so nothing is left there at the end as long as fewer than
`WAIT_LIMIT` requests were taken over.
-/

namespace BlobSeer

open Lib

/-- The request of a read or write. -/
def RpcOp.served : RpcOp → Option Nat
  | .transfer id _ => some id
  | _ => none

/-- The operation is part of making the connection of request `id`. -/
def RpcOp.SetsUp (id : Nat) : RpcOp → Prop
  | .resolve i => i = id
  | .connect _ i => i = id
  | .transfer _ _ => False

namespace RpcClient

theorem waitLimit_pos : 0 < waitLimit := by decide

/-- The requests on a connection. -/
def serving (s : RpcClient) : List Nat := s.outstanding.filterMap RpcOp.served

/-- The requests that were called back. -/
def callbacks (s : RpcClient) : List Nat := s.called.map Prod.fst

/-- What holds all through a handler; `hand` has the request that it is working on. -/
structure Core (hand : List Nat) (bound : Nat) (s : RpcClient) : Prop where
  places : ∀ x, hand.count x + s.requestMap.count x + s.pendingMap.count x + s.serving.count x +
    s.callbacks.count x = (List.range s.requests.length).count x
  setup : ∀ id ∈ s.pendingMap, ∃ op ∈ s.outstanding, op.SetsUp id
  socket : ∀ id ∈ s.serving, (s.request id).socket ≠ none
  waiting : s.waitingCount =
    s.takeovers + hand.length + s.serving.length + s.pendingMap.length
  bound : s.waitingCount ≤ bound
  room : 0 < hand.length + s.serving.length ∨ s.takeovers < waitLimit
  defined : s.undefined = false

namespace Core

variable {hand : List Nat} {bound : Nat} {s : RpcClient}

/-- A request is in one place only. -/
theorem one_place (h : Core hand bound s) (x : Nat) :
    hand.count x + s.requestMap.count x + s.pendingMap.count x + s.serving.count x +
      s.callbacks.count x ≤ 1 := by
  rw [h.places x]
  exact List.nodup_iff_count_le_one.mp List.nodup_range x

theorem not_pending (h : Core hand bound s) {id : Nat} (hid : id ∈ hand) : id ∉ s.pendingMap := by
  intro hp
  have := h.one_place id
  have := List.count_pos_iff.mpr hid
  have := List.count_pos_iff.mpr hp
  omega

theorem mono (h : Core hand bound s) {bound' : Nat} (hle : bound ≤ bound') : Core hand bound' s :=
  ⟨h.places, h.setup, h.socket, h.waiting, h.bound.trans hle, h.room, h.defined⟩

/-- A request that is changed keeps its socket. -/
theorem modify (h : Core hand bound s) (id : Nat) {f : RpcRequest → RpcRequest}
    (hf : ∀ r, r.socket ≠ none → (f r).socket ≠ none) :
    Core hand bound { s with requests := s.requests.modify id f } := by
  refine ⟨fun x => ?_, h.setup, fun x hx => ?_, h.waiting, h.bound, h.room, h.defined⟩
  · rw [List.length_modify]
    exact h.places x
  · have hx := h.socket x hx
    unfold request at hx ⊢
    dsimp only
    rw [List.getD_eq_getElem?_getD] at hx ⊢
    rw [List.getElem?_modify]
    cases hr : s.requests[x]? with
    | none =>
      rw [hr] at hx
      exact absurd rfl hx
    | some r =>
      rw [hr] at hx
      rw [Option.map_eq_map, Option.map_some, Option.getD_some]
      split
      · exact hf r hx
      · exact hx

end Core

theorem getD_modify {l : List RpcRequest} {id : Nat} (h : id < l.length)
    (f : RpcRequest → RpcRequest) (r : RpcRequest) : (l.modify id f).getD id r = f (l.getD id r) := by
  rw [List.getD_eq_getElem?_getD, List.getD_eq_getElem?_getD, List.getElem?_modify,
    List.getElem?_eq_getElem h]
  simp

/-! ## Moving a request -/

theorem count_erase_of_mem {l : List Nat} {id : Nat} (h : id ∈ l) (x : Nat) :
    [id].count x + (l.erase id).count x = l.count x := by
  rw [(List.perm_cons_erase h).count_eq x, ← List.count_append]
  rfl

/-- The entry that `begin()` refers to is in the map. -/
theorem pick_cases (s : RpcClient) (ids : List Nat) :
    s.pick ids = (none, s) ∧ ids = [] ∨
      ∃ id ∈ ids, s.pick ids = (some id, { s with picks := s.picks.tail }) := by
  cases ids with
  | nil => exact .inl ⟨rfl, rfl⟩
  | cons id l =>
    refine .inr ⟨_, ?_, rfl⟩
    have hlt : s.picks.headD 0 % (id :: l).length < (id :: l).length :=
      Nat.mod_lt _ (Nat.zero_lt_succ _)
    rw [List.getD_eq_getElem?_getD, List.getElem?_eq_getElem hlt]
    exact List.getElem_mem hlt

namespace Core

variable {hand : List Nat} {bound : Nat} {s : RpcClient}

/-- A request is taken out of `request_map`. -/
theorem takeRequest (h : Core [] bound s) {id : Nat} (hid : id ∈ s.requestMap) (picks : List Nat) :
    Core [id] (bound + 1) { s with
      picks := picks
      requestMap := s.requestMap.erase id
      waitingCount := s.waitingCount + 1 } := by
  refine ⟨fun x => ?_, h.setup, h.socket, ?_, Nat.succ_le_succ h.bound,
    .inl (Nat.add_pos_left Nat.one_pos _), h.defined⟩
  · have hcount := count_erase_of_mem hid x
    have hplaces := h.places x
    rw [List.count_nil] at hplaces
    show [id].count x + (s.requestMap.erase id).count x + s.pendingMap.count x +
      s.serving.count x + s.callbacks.count x = (List.range s.requests.length).count x
    omega
  · have hwaiting := h.waiting
    rw [List.length_nil] at hwaiting
    show s.waitingCount + 1 = s.takeovers + 1 + s.serving.length + s.pendingMap.length
    omega

/-- A request is taken out of `pending_map`, for a connection that is there. -/
theorem takeOver (h : Core [] bound s) {id : Nat} (hid : id ∈ s.pendingMap) (picks : List Nat) :
    Core [id] (bound + 1) { s with
      picks := picks
      pendingMap := s.pendingMap.erase id
      waitingCount := s.waitingCount + 1
      takeovers := s.takeovers + 1 } := by
  refine ⟨fun x => ?_, ?_, h.socket, ?_, Nat.succ_le_succ h.bound,
    .inl (Nat.add_pos_left Nat.one_pos _), h.defined⟩
  · have hcount := count_erase_of_mem hid x
    have hplaces := h.places x
    rw [List.count_nil] at hplaces
    show [id].count x + s.requestMap.count x + (s.pendingMap.erase id).count x +
      s.serving.count x + s.callbacks.count x = (List.range s.requests.length).count x
    omega
  · exact fun x hx => h.setup x (List.mem_of_mem_erase hx)
  · have hwaiting := h.waiting
    have hlen := (List.perm_cons_erase hid).length_eq
    rw [List.length_nil] at hwaiting
    rw [List.length_cons] at hlen
    show s.waitingCount + 1 = s.takeovers + 1 + 1 + s.serving.length + (s.pendingMap.erase id).length
    omega

/-- The request is put on its socket. -/
theorem transfer {id : Nat} (h : Core [id] bound s) {stage : RpcStage}
    (hsocket : (s.request id).socket ≠ none) : Core [] bound (s.transfer id stage) := by
  unfold RpcClient.transfer
  split
  case h_2 heq => exact absurd heq hsocket
  have hserving : { s with outstanding := s.outstanding ++ [RpcOp.transfer id stage] }.serving =
      s.serving ++ [id] := by
    unfold serving
    rw [List.filterMap_append]
    rfl
  refine ⟨fun x => ?_, fun x hx => ?_, fun x hx => ?_, ?_, h.bound, .inl ?_, h.defined⟩
  · have hplaces := h.places x
    rw [hserving, List.count_append, List.count_nil]
    dsimp only [callbacks] at hplaces ⊢
    omega
  · obtain ⟨op, hop, hsets⟩ := h.setup x hx
    exact ⟨op, List.mem_append_left _ hop, hsets⟩
  · rw [hserving] at hx
    rcases List.mem_append.mp hx with hx | hx
    · exact h.socket x hx
    · rw [List.mem_singleton.mp hx]
      exact hsocket
  · have hwaiting := h.waiting
    rw [hserving, List.length_append, List.length_singleton, List.length_nil]
    rw [List.length_singleton] at hwaiting
    dsimp only
    omega
  · rw [hserving, List.length_append, List.length_singleton]
    omega

theorem setSocket (h : Core hand bound s) (id socket : Nat) :
    Core hand bound (s.setSocket id socket) := h.modify id fun _ _ => nofun

theorem addTimer (h : Core hand bound s) (socket : Nat) : Core hand bound (s.addTimer socket) :=
  ⟨h.places, h.setup, h.socket, h.waiting, h.bound, h.room, h.defined⟩

theorem cancelTimer (h : Core hand bound s) (socket : Option Nat) :
    Core hand bound (s.cancelTimer socket) := by
  cases socket with
  | none => exact h
  | some socket => exact ⟨h.places, h.setup, h.socket, h.waiting, h.bound, h.room, h.defined⟩

theorem close (h : Core hand bound s) (socket : Nat) : Core hand bound (s.close socket) :=
  ⟨h.places, h.setup, h.socket, h.waiting, h.bound, h.room, h.defined⟩

/-- A request that becomes pending, with the lookup of its host. -/
theorem pend {id : Nat} (h : Core [id] bound s)
    (hroom : 0 < s.serving.length ∨ s.takeovers < waitLimit) :
    Core [] bound ((s.markPending id).resolve id) := by
  have hnot := h.not_pending (List.mem_singleton_self id)
  have herase : s.pendingMap.erase id = s.pendingMap := List.erase_of_not_mem hnot
  -- everything but the lookup
  have hpend : ∀ {s' : RpcClient} (op : RpcOp), op.served = none → op.SetsUp id →
      s'.requests = s.requests → s'.requestMap = s.requestMap →
      s'.pendingMap = s.pendingMap.erase id ++ [id] → s'.called = s.called →
      s'.outstanding = s.outstanding ++ [op] → s'.takeovers = s.takeovers →
      s'.waitingCount = s.waitingCount → s'.undefined = s.undefined → Core [] bound s' := by
    intro s' op hop hsets h1 h2 h3 h4 h5 h6 h7 h8
    have hserving : s'.serving = s.serving := by
      unfold serving
      rw [h5, List.filterMap_append, List.filterMap_cons_none hop, List.filterMap_nil,
        List.append_nil]
    rw [herase] at h3
    refine ⟨fun x => ?_, fun x hx => ?_, fun x hx => ?_, ?_, h7 ▸ h.bound, ?_,
      h8.trans h.defined⟩
    · have hplaces := h.places x
      unfold callbacks at hplaces ⊢
      rw [h1, h2, h3, h4, hserving, List.count_append, List.count_nil]
      omega
    · rw [h3] at hx
      rw [h5]
      rcases List.mem_append.mp hx with hx | hx
      · obtain ⟨op', hop', hsets'⟩ := h.setup x hx
        exact ⟨op', List.mem_append_left _ hop', hsets'⟩
      · rw [List.mem_singleton.mp hx]
        exact ⟨op, List.mem_append_right _ (List.mem_singleton_self op), hsets⟩
    · rw [hserving] at hx
      have hsocket := h.socket x hx
      unfold request at hsocket ⊢
      rw [h1]
      exact hsocket
    · have hwaiting := h.waiting
      rw [List.length_singleton] at hwaiting
      rw [h6, h7, h3, hserving, List.length_append, List.length_singleton, List.length_nil]
      omega
    · rw [h6, hserving, List.length_nil, Nat.zero_add]
      exact hroom
  unfold RpcClient.resolve
  split
  · exact hpend (.connect s.sockets.length id) rfl rfl rfl rfl rfl rfl rfl rfl rfl rfl
  · exact hpend (.resolve id) rfl rfl rfl rfl rfl rfl rfl rfl rfl rfl

/-- A callback is run. -/
theorem callback {id : Nat} (h : Core [id] bound s) (hlimit : s.takeovers < waitLimit)
    (status : Int) :
    Core [] (bound - 1) { s with
      waitingCount := s.waitingCount - 1
      called := s.called ++ [(id, status)] } := by
  have hwaiting := h.waiting
  rw [List.length_singleton] at hwaiting
  refine ⟨fun x => ?_, h.setup, h.socket, ?_, Nat.sub_le_sub_right h.bound 1, .inr hlimit, h.defined⟩
  · have hplaces := h.places x
    show [].count x + s.requestMap.count x + s.pendingMap.count x + s.serving.count x +
      ((s.called ++ [(id, status)]).map Prod.fst).count x = (List.range s.requests.length).count x
    rw [List.map_append, List.map_singleton, List.count_append, List.count_nil]
    dsimp only [callbacks] at hplaces ⊢
    omega
  · rw [List.length_nil]
    show s.waitingCount - 1 = s.takeovers + 0 + s.serving.length + s.pendingMap.length
    omega

/-- A new request. -/
theorem enqueue (h : Core [] bound s) (c : RpcCall) : Core [] bound (s.enqueue c) := by
  have hnew : (List.range s.requests.length).count s.requests.length = 0 :=
    List.count_eq_zero.mpr (by simp)
  have hplaces := h.places s.requests.length
  have hmem : s.requests.length ∉ s.requestMap := by
    rw [← List.count_eq_zero]
    omega
  have hserving : s.requests.length ∉ s.serving := by
    rw [← List.count_eq_zero]
    omega
  refine ⟨fun x => ?_, h.setup, fun x hx => ?_, h.waiting, h.bound, h.room, h.defined⟩
  · have hplaces := h.places x
    show [].count x + (s.requestMap.erase s.requests.length ++ [s.requests.length]).count x +
      s.pendingMap.count x + s.serving.count x + s.callbacks.count x =
        (List.range (s.requests ++ [_]).length).count x
    rw [List.erase_of_not_mem hmem, List.length_append, List.length_singleton, List.range_succ,
      List.count_append, List.count_append]
    omega
  · have hx' : x ∈ s.serving := hx
    have hsocket := h.socket x hx'
    have hne : x ≠ s.requests.length := fun he => hserving (he ▸ hx')
    unfold request at hsocket ⊢
    show ((s.requests ++ [_]).getD x _).socket ≠ none
    rw [List.getD_eq_getElem?_getD] at hsocket ⊢
    by_cases hlt : x < s.requests.length
    · rw [List.getElem?_append_left hlt]
      exact hsocket
    · rw [List.getElem?_eq_none (Nat.not_lt.mp hlt)] at hsocket
      exact absurd rfl hsocket

end Core

/-! ## The next request -/

theorem dequeueAny_cases (s : RpcClient) :
    s.dequeueAny = (none, s) ∧ s.requestMap = [] ∨
      ∃ id ∈ s.requestMap, s.dequeueAny =
        (some id, { s with picks := s.picks.tail, requestMap := s.requestMap.erase id }) := by
  unfold dequeueAny
  obtain ⟨hpick, hnil⟩ | ⟨id, hid, hpick⟩ := s.pick_cases s.requestMap
  · rw [hpick]
    exact .inl ⟨rfl, hnil⟩
  · rw [hpick]
    exact .inr ⟨id, hid, rfl⟩

theorem filter_eq_nil_host {s : RpcClient} {host : HostId} {ids : List Nat}
    (h : (ids.filter fun id => (s.request id).host = host) = []) :
    ∀ id ∈ ids, (s.request id).host ≠ host := by
  intro id hid heq
  rw [List.filter_eq_nil_iff] at h
  exact h id hid (decide_eq_true heq)

theorem dequeueHost_cases (s : RpcClient) (host : HostId) :
    (s.dequeueHost host = (none, s) ∧ ∀ id ∈ s.requestMap, (s.request id).host ≠ host) ∨
      ∃ id ∈ s.requestMap, (s.request id).host = host ∧ s.dequeueHost host =
        (some id, { s with picks := s.picks.tail, requestMap := s.requestMap.erase id }) := by
  unfold dequeueHost
  obtain ⟨hpick, hnil⟩ | ⟨id, hid, hpick⟩ :=
    s.pick_cases (s.requestMap.filter fun id => (s.request id).host = host)
  · rw [hpick]
    exact .inl ⟨rfl, filter_eq_nil_host hnil⟩
  · rw [hpick]
    obtain ⟨hid, hhost⟩ := List.mem_filter.mp hid
    exact .inr ⟨id, hid, of_decide_eq_true hhost, rfl⟩

theorem dequeuePendingHost_cases (s : RpcClient) (host : HostId) :
    (s.dequeuePendingHost host = (none, s) ∧ ∀ id ∈ s.pendingMap, (s.request id).host ≠ host) ∨
      ∃ id ∈ s.pendingMap, (s.request id).host = host ∧ s.dequeuePendingHost host =
        (some id, { s with picks := s.picks.tail, pendingMap := s.pendingMap.erase id }) := by
  unfold dequeuePendingHost
  obtain ⟨hpick, hnil⟩ | ⟨id, hid, hpick⟩ :=
    s.pick_cases (s.pendingMap.filter fun id => (s.request id).host = host)
  · rw [hpick]
    exact .inl ⟨rfl, filter_eq_nil_host hnil⟩
  · rw [hpick]
    obtain ⟨hid, hhost⟩ := List.mem_filter.mp hid
    exact .inr ⟨id, hid, of_decide_eq_true hhost, rfl⟩

/-- The loop has stopped: nothing is left, or the limit is reached. -/
def Drained (s : RpcClient) : Prop := s.requestMap = [] ∨ waitLimit ≤ s.waitingCount

namespace Core

variable {hand : List Nat} {bound : Nat} {s : RpcClient}

/-- One round of the loop. -/
theorem startRound (h : Core [] bound s) (hbound : waitLimit ≤ bound)
    (hlt : s.waitingCount < waitLimit) {id : Nat} (hid : id ∈ s.requestMap) (picks : List Nat) :
    Core [] bound ({ ({ s with
        picks := picks
        requestMap := s.requestMap.erase id } : RpcClient).markPending id with
      waitingCount := u32 (s.waitingCount + 1) }.resolve id) := by
  have hexact : Core [] s.waitingCount s :=
    ⟨h.places, h.setup, h.socket, h.waiting, Nat.le_refl _, h.room, h.defined⟩
  have hroom := h.room
  rw [List.length_nil, Nat.zero_add] at hroom
  have hpend := (hexact.takeRequest hid picks).pend hroom
  have hu : u32 (s.waitingCount + 1) = s.waitingCount + 1 := by
    unfold waitLimit at hlt
    exact u32_of_lt (by omega)
  rw [hu]
  exact hpend.mono (Nat.le_trans hlt hbound)

theorem startLoop (hbound : waitLimit ≤ bound) : ∀ (fuel : Nat) {s : RpcClient}, Core [] bound s →
    Core [] bound (startLoop fuel s) ∧
      (waitLimit ≤ s.waitingCount + fuel → Drained (RpcClient.startLoop fuel s)) := by
  intro fuel
  induction fuel with
  | zero => exact fun h => ⟨h, fun hle => .inr hle⟩
  | succ fuel ih =>
    intro s h
    unfold RpcClient.startLoop
    split
    · next hlt =>
      obtain ⟨hnone, hnil⟩ | ⟨id, hid, hsome⟩ := s.dequeueAny_cases
      · rw [hnone]
        exact ⟨h, fun _ => .inl hnil⟩
      · rw [hsome]
        dsimp only
        obtain ⟨hcore, hdrained⟩ := ih (h.startRound hbound hlt hid s.picks.tail)
        refine ⟨hcore, fun hle => hdrained ?_⟩
        have hu : u32 (s.waitingCount + 1) = s.waitingCount + 1 := by
          unfold waitLimit at hlt
          exact u32_of_lt (by omega)
        have hcount : ∀ s' : RpcClient, (s'.resolve id).waitingCount = s'.waitingCount := by
          intro s'
          unfold RpcClient.resolve
          split <;> rfl
        rw [hcount]
        dsimp only
        rw [hu]
        omega
    · next hge => exact ⟨h, fun _ => .inr (Nat.not_lt.mp hge)⟩

/-- A dispatch, also one from inside of a callback. -/
theorem dispatch (h : Core [] bound s) (hbound : waitLimit ≤ bound) (c : RpcCall) :
    Core [] bound (s.dispatch c) ∧ Drained (s.dispatch c) := by
  obtain ⟨hcore, hdrained⟩ := startLoop hbound waitLimit (h.enqueue c)
  exact ⟨hcore, hdrained (Nat.le_add_left _ _)⟩

theorem dispatchAll (hbound : waitLimit ≤ bound) : ∀ {calls : List RpcCall} {s : RpcClient},
    Core [] bound s → Core [] bound (calls.foldl RpcClient.dispatch s) := by
  intro calls
  induction calls with
  | nil => exact fun h => h
  | cons c calls ih => exact fun h => ih (h.dispatch hbound c).1

theorem reuse {id : Nat} (h : Core [id] bound s) (hid : id < s.requests.length) (socket : Nat) :
    Core [] bound (s.reuse socket id) := by
  refine ((h.setSocket id socket).addTimer socket).transfer ?_
  show ((s.requests.modify id _).getD id _).socket ≠ none
  rw [getD_modify hid]
  nofun

theorem lt_of_hand (h : Core hand bound s) {id : Nat} (hid : id ∈ hand) : id < s.requests.length := by
  have hcount := List.count_pos_iff.mpr hid
  have hplaces := h.places id
  exact List.mem_range.mp (List.count_pos_iff.mp (by omega))

/-- The open socket of a finished request. -/
theorem serveNext (h : Core [] bound s) (hbound : bound + 1 < 2 ^ 32) (socket : Nat) (host : HostId) :
    Core [] (bound + 1) (s.serveNext socket host) := by
  have hu : u32 (s.waitingCount + 1) = s.waitingCount + 1 := by
    have := h.bound
    exact u32_of_lt (by omega)
  unfold RpcClient.serveNext
  obtain ⟨hnone, -⟩ | ⟨id, hid, -, hsome⟩ := s.dequeueHost_cases host
  · rw [hnone]
    dsimp only
    obtain ⟨hnone, -⟩ | ⟨id, hid, -, hsome⟩ := s.dequeuePendingHost_cases host
    · rw [hnone]
      exact (h.close socket).mono (Nat.le_succ bound)
    · rw [hsome]
      dsimp only
      rw [hu]
      have hcore := h.takeOver hid s.picks.tail
      exact hcore.reuse (hcore.lt_of_hand (List.mem_singleton_self id)) socket
  · rw [hsome]
    dsimp only
    rw [hu]
    have hcore := h.takeRequest hid s.picks.tail
    exact hcore.reuse (hcore.lt_of_hand (List.mem_singleton_self id)) socket

end Core

/-! ## What a dispatch leaves -/

/-- `s'` is `s` after some dispatches: operations and requests were added, and the requests that wait
still do, in one of the maps. -/
structure Extends (s s' : RpcClient) : Prop where
  requests : s.requests <+: s'.requests
  sockets : s.sockets <+: s'.sockets
  outstanding : s.outstanding <+: s'.outstanding
  called : s'.called = s.called
  takeovers : s'.takeovers = s.takeovers
  undefined : s'.undefined = s.undefined
  waits : ∀ id, id ∈ s.requestMap ∨ id ∈ s.pendingMap → id ∈ s'.requestMap ∨ id ∈ s'.pendingMap

namespace Extends

theorem refl (s : RpcClient) : Extends s s :=
  ⟨List.prefix_rfl, List.prefix_rfl, List.prefix_rfl, rfl, rfl, rfl, fun _ h => h⟩

theorem trans {s₁ s₂ s₃ : RpcClient} (h : Extends s₁ s₂) (h' : Extends s₂ s₃) : Extends s₁ s₃ :=
  ⟨h.requests.trans h'.requests, h.sockets.trans h'.sockets, h.outstanding.trans h'.outstanding,
    h'.called.trans h.called, h'.takeovers.trans h.takeovers, h'.undefined.trans h.undefined,
    fun id hid => h'.waits id (h.waits id hid)⟩

theorem resolve (s : RpcClient) (id : Nat) : Extends s (s.resolve id) := by
  unfold RpcClient.resolve
  split
  · exact ⟨List.prefix_rfl, List.prefix_append _ _, List.prefix_append _ _, rfl, rfl, rfl,
      fun _ h => h⟩
  · exact ⟨List.prefix_rfl, List.prefix_rfl, List.prefix_append _ _, rfl, rfl, rfl, fun _ h => h⟩

/-- A request goes from `request_map` to `pending_map`. -/
theorem markPending (s : RpcClient) (id : Nat) (picks : List Nat) (n : Nat) :
    Extends s { ({ s with
        picks := picks
        requestMap := s.requestMap.erase id } : RpcClient).markPending id with waitingCount := n } := by
  refine ⟨List.prefix_rfl, List.prefix_rfl, List.prefix_rfl, rfl, rfl, rfl, fun x hx => ?_⟩
  show x ∈ s.requestMap.erase id ∨ x ∈ s.pendingMap.erase id ++ [id]
  by_cases heq : x = id
  · exact .inr (List.mem_append_right _ (List.mem_singleton.mpr heq))
  · rcases hx with hx | hx
    · exact .inl ((List.mem_erase_of_ne heq).mpr hx)
    · exact .inr (List.mem_append_left _ ((List.mem_erase_of_ne heq).mpr hx))

theorem startLoop (fuel : Nat) (s : RpcClient) : Extends s (startLoop fuel s) := by
  induction fuel generalizing s with
  | zero => exact refl s
  | succ fuel ih =>
    unfold RpcClient.startLoop
    split
    · obtain ⟨hnone, -⟩ | ⟨id, -, hsome⟩ := s.dequeueAny_cases
      · rw [hnone]
        exact refl s
      · rw [hsome]
        exact ((markPending s id _ _).trans (resolve _ id)).trans (ih _)
    · exact refl s

theorem enqueue (s : RpcClient) (c : RpcCall) : Extends s (s.enqueue c) := by
  refine ⟨List.prefix_append _ _, List.prefix_rfl, List.prefix_rfl, rfl, rfl, rfl, fun x hx => ?_⟩
  show x ∈ s.requestMap.erase s.requests.length ++ [s.requests.length] ∨ x ∈ s.pendingMap
  refine hx.imp_left fun hx => ?_
  by_cases heq : x = s.requests.length
  · exact List.mem_append_right _ (List.mem_singleton.mpr heq)
  · exact List.mem_append_left _ ((List.mem_erase_of_ne heq).mpr hx)

theorem dispatch (s : RpcClient) (c : RpcCall) : Extends s (s.dispatch c) :=
  (enqueue s c).trans (startLoop _ _)

theorem dispatchAll (calls : List RpcCall) (s : RpcClient) :
    Extends s (calls.foldl RpcClient.dispatch s) := by
  induction calls generalizing s with
  | nil => exact refl s
  | cons c calls ih => exact (dispatch s c).trans (ih _)

/-- A request is as it was. -/
theorem request {s s' : RpcClient} (h : Extends s s') {id : Nat} (hid : id < s.requests.length) :
    s'.request id = s.request id := by
  obtain ⟨l, hl⟩ := h.requests
  unfold RpcClient.request
  rw [← hl, List.getD_eq_getElem?_getD, List.getD_eq_getElem?_getD, List.getElem?_append_left hid]

theorem isOpen {s s' : RpcClient} (h : Extends s s') {socket : Nat}
    (hsocket : socket < s.sockets.length) : s'.isOpen socket = s.isOpen socket := by
  obtain ⟨l, hl⟩ := h.sockets
  unfold RpcClient.isOpen
  rw [← hl, List.getD_eq_getElem?_getD, List.getD_eq_getElem?_getD,
    List.getElem?_append_left hsocket]

end Extends

/-! ## The handlers -/

/-- What holds between two steps. A finished connection may be given to the next request after its
callback has filled the limit, so the count exceeds the limit by one. -/
structure Inv (s : RpcClient) : Prop where
  core : Core [] (waitLimit + 1) s
  drained : Drained s

namespace Core

variable {s : RpcClient} {id : Nat}

theorem handleNextRequest (h : Core [] waitLimit s) (socket : Option Nat) (host : HostId) :
    Inv (s.handleNextRequest socket host) := by
  have hserve : ∀ {s' : RpcClient}, Core [] (waitLimit + 1) s' →
      Inv (RpcClient.startLoop waitLimit s') := by
    intro s' hcore
    obtain ⟨hcore', hdrained⟩ := startLoop (Nat.le_succ _) waitLimit hcore
    exact ⟨hcore', hdrained (Nat.le_add_left _ _)⟩
  unfold RpcClient.handleNextRequest
  cases socket with
  | none => exact hserve (h.mono (Nat.le_succ _))
  | some socket =>
    dsimp only
    split
    · exact hserve (h.serveNext (by decide) socket host)
    · exact hserve (h.mono (Nat.le_succ _))

/-- The callback of the request in hand, and everything after it. -/
theorem finish (h : Core [id] (waitLimit + 1) s) (hlimit : s.takeovers < waitLimit)
    (calls : List RpcCall) :
    Inv ({ s with waitingCount := s.waitingCount - 1 }.finish id calls) :=
  (dispatchAll (Nat.le_refl _) (h.callback hlimit _)).handleNextRequest _ _

theorem u32_pred (h : Core [id] (waitLimit + 1) s) :
    u32 (s.waitingCount + (2 ^ 32 - 1)) = s.waitingCount - 1 := by
  have hwaiting := h.waiting
  have hbound := h.bound
  rw [List.length_singleton] at hwaiting
  have hadd : s.waitingCount + (2 ^ 32 - 1) = s.waitingCount - 1 + 2 ^ 32 := by omega
  unfold waitLimit at hbound
  rw [hadd, u32, Nat.add_mod_right, Nat.mod_eq_of_lt (by omega)]

theorem handleCallback (h : Core [id] (waitLimit + 1) s) (hsocket : (s.request id).socket ≠ none)
    (hlimit : s.takeovers < waitLimit) (error : Nat) (calls : List RpcCall) :
    Inv (s.handleCallback id error calls) := by
  obtain ⟨socket, hsome⟩ := Option.ne_none_iff_exists'.mp hsocket
  have hlt := h.lt_of_hand (List.mem_singleton_self id)
  have hcancel := h.cancelTimer (some socket)
  unfold RpcClient.handleCallback
  rw [h.u32_pred]
  dsimp only [request] at hsome ⊢
  rw [hsome]
  dsimp only [RpcClient.cancelTimer]
  split
  · rw [getD_modify hlt, hsome]
    have hstatus := hcancel.modify id (f := fun r => { r with status := error }) fun _ hr => hr
    exact (hstatus.close socket).finish hlimit calls
  · exact hcancel.finish hlimit calls

/-- The request in hand goes on to its next read or write. -/
theorem transfer_inv (h : Core [id] (waitLimit + 1) s) (hsocket : (s.request id).socket ≠ none)
    (hdrained : Drained s) (stage : RpcStage) : Inv (s.transfer id stage) := by
  refine ⟨h.transfer hsocket, ?_⟩
  unfold RpcClient.transfer
  split
  · exact hdrained
  · exact hdrained

/-- The request in hand, with its socket set and the queue drained. -/
structure AtWork (id : Nat) (s : RpcClient) : Prop where
  core : Core [id] (waitLimit + 1) s
  socket : (s.request id).socket ≠ none
  drained : Drained s
  limit : s.takeovers < waitLimit

end Core

namespace Core.AtWork

variable {s : RpcClient} {id : Nat}

theorem modify (h : AtWork id s) {f : RpcRequest → RpcRequest}
    (hf : ∀ r, r.socket ≠ none → (f r).socket ≠ none) :
    AtWork id { s with requests := s.requests.modify id f } := by
  refine ⟨h.core.modify id hf, ?_, h.drained, h.limit⟩
  have hsocket := h.socket
  dsimp only [request] at hsocket ⊢
  rw [getD_modify (h.core.lt_of_hand (List.mem_singleton_self id))]
  exact hf _ hsocket

theorem callback (h : AtWork id s) (error : Nat) (calls : List RpcCall) :
    Inv (s.handleCallback id error calls) := h.core.handleCallback h.socket h.limit error calls

theorem transfer (h : AtWork id s) (stage : RpcStage) : Inv (s.transfer id stage) :=
  h.core.transfer_inv h.socket h.drained stage

theorem handleParams (h : AtWork id s) (index : Nat) : Inv (s.handleParams id index) := by
  unfold RpcClient.handleParams
  split
  · exact h.transfer _
  · exact h.transfer _

theorem handleAnswer (h : AtWork id s) (index : Nat) (calls : List RpcCall) :
    Inv (s.handleAnswer id index calls) := by
  unfold RpcClient.handleAnswer
  split
  · exact h.transfer _
  · exact h.callback _ _

/-- Each read and write goes on to the next one, or to the callback. -/
theorem handleTransfer (h : AtWork id s) (stage : RpcStage) (o : RpcCompletion)
    (calls : List RpcCall) : Inv (s.handleTransfer id stage o calls) := by
  unfold RpcClient.handleTransfer
  cases stage with
  | header =>
    dsimp only
    split
    · exact h.callback _ _
    · exact h.handleParams _
  | paramSize index =>
    dsimp only
    split
    · exact h.callback _ _
    · exact h.transfer _
  | paramBuffer index =>
    dsimp only
    split
    · exact h.callback _ _
    · exact h.handleParams _
  | answer =>
    dsimp only
    split
    · exact h.callback _ _
    · refine handleAnswer (h.modify ?_) 0 calls
      exact fun _ hr => hr
  | answerSize index =>
    dsimp only
    split
    · exact h.callback _ _
    · split
      · exact h.callback _ _
      · refine transfer (h.modify ?_) (.answerBuffer index)
        exact fun _ hr => hr
  | answerBuffer index =>
    dsimp only
    split
    · exact h.callback _ _
    · exact h.handleAnswer _ _

end Core.AtWork

/-! ## The steps -/

theorem serving_eraseIdx {s : RpcClient} {k : Nat} {op : RpcOp} (hk : s.outstanding[k]? = some op) :
    s.serving.Perm (op.served.toList ++ (s.outstanding.eraseIdx k).filterMap RpcOp.served) := by
  obtain ⟨hlt, rfl⟩ := List.getElem?_eq_some_iff.mp hk
  have hperm := (List.getElem_cons_eraseIdx_perm hlt).symm.filterMap RpcOp.served
  refine hperm.trans ?_
  cases hserved : s.outstanding[k].served with
  | none => rw [List.filterMap_cons_none hserved]; exact List.Perm.refl _
  | some id => rw [List.filterMap_cons_some hserved]; exact List.Perm.refl _

namespace Inv

variable {s : RpcClient}

/-- A read or write completes. -/
theorem takeTransfer (h : Inv s) (hlimit : s.takeovers < waitLimit) {k id : Nat} {stage : RpcStage}
    (hk : s.outstanding[k]? = some (.transfer id stage)) :
    Core.AtWork id { s with outstanding := s.outstanding.eraseIdx k } := by
  have hperm := serving_eraseIdx hk
  have hserving : s.serving.Perm (id :: serving { s with
      outstanding := s.outstanding.eraseIdx k }) := hperm
  have hmem : id ∈ s.serving := hserving.mem_iff.mpr List.mem_cons_self
  refine ⟨⟨fun x => ?_, fun x hx => ?_, fun x hx => ?_, ?_, h.core.bound,
    .inl (Nat.add_pos_left Nat.one_pos _), h.core.defined⟩, h.core.socket id hmem, h.drained, hlimit⟩
  · have hplaces := h.core.places x
    have hcount := hserving.count_eq x
    rw [List.count_cons] at hcount
    rw [List.count_nil] at hplaces
    rw [List.count_singleton]
    dsimp only [callbacks] at hplaces ⊢
    omega
  · obtain ⟨op, hop, hsets⟩ := h.core.setup x hx
    refine ⟨op, ?_, hsets⟩
    obtain ⟨hlt, heq⟩ := List.getElem?_eq_some_iff.mp hk
    rcases List.mem_cons.mp ((List.getElem_cons_eraseIdx_perm hlt).mem_iff.mpr hop) with rfl | hop
    · rw [heq] at hsets
      exact hsets.elim
    · exact hop
  · exact h.core.socket x (hserving.mem_iff.mpr (List.mem_cons_of_mem _ hx))
  · have hwaiting := h.core.waiting
    have hlen := hserving.length_eq
    rw [List.length_cons] at hlen
    rw [List.length_nil] at hwaiting
    rw [List.length_singleton]
    dsimp only
    omega

/-- The operations of the connections that are being made are changed. -/
theorem changeSetup (h : Inv s) {ops : List RpcOp}
    (hserving : s.serving.Perm (ops.filterMap RpcOp.served))
    (hsetup : ∀ id ∈ s.pendingMap, ∃ op ∈ ops, op.SetsUp id) :
    Inv { s with outstanding := ops } := by
  refine ⟨⟨fun x => ?_, hsetup, fun x hx => ?_, ?_, h.core.bound, ?_, h.core.defined⟩, h.drained⟩
  · have hplaces := h.core.places x
    rw [hserving.count_eq x] at hplaces
    exact hplaces
  · exact h.core.socket x (hserving.mem_iff.mpr hx)
  · have hwaiting := h.core.waiting
    rw [hserving.length_eq] at hwaiting
    exact hwaiting
  · have hroom := h.core.room
    rw [hserving.length_eq] at hroom
    exact hroom

theorem setup_eraseIdx (h : Inv s) {k id : Nat} {op : RpcOp} (hk : s.outstanding[k]? = some op)
    (hop : op.SetsUp id) {x : Nat} (hx : x ∈ s.pendingMap) (hne : x ≠ id) :
    ∃ op' ∈ s.outstanding.eraseIdx k, op'.SetsUp x := by
  obtain ⟨op', hop', hsets⟩ := h.core.setup x hx
  refine ⟨op', ?_, hsets⟩
  obtain ⟨hlt, rfl⟩ := List.getElem?_eq_some_iff.mp hk
  rcases List.mem_cons.mp ((List.getElem_cons_eraseIdx_perm hlt).mem_iff.mpr hop') with rfl | hmem
  · refine absurd ?_ hne
    cases hkind : s.outstanding[k] with
    | resolve i =>
      rw [hkind] at hop hsets
      exact hsets.symm.trans hop
    | connect socket i =>
      rw [hkind] at hop hsets
      exact hsets.symm.trans hop
    | transfer i stage =>
      rw [hkind] at hop
      exact hop.elim
  · exact hmem

/-- The lookup of a host, or a connection, that nobody waits for any more. -/
theorem dropSetup (h : Inv s) {k id : Nat} {op : RpcOp} (hk : s.outstanding[k]? = some op)
    (hserved : op.served = none) (hop : op.SetsUp id) (hnot : id ∉ s.pendingMap) :
    Inv { s with outstanding := s.outstanding.eraseIdx k } := by
  have hserving := serving_eraseIdx hk
  rw [hserved] at hserving
  refine h.changeSetup hserving fun x hx => h.setup_eraseIdx hk hop hx ?_
  rintro rfl
  exact hnot hx

/-- A host that was looked up. -/
theorem resolved (h : Inv s) {k id : Nat} (hk : s.outstanding[k]? = some (.resolve id))
    (cache : CacheMt HostId Unit (CacheMtLRU HostId)) :
    Inv ({ s with outstanding := s.outstanding.eraseIdx k, hostCache := cache }.startConnect id) := by
  have hserving := serving_eraseIdx hk
  have hop : RpcOp.SetsUp id (.resolve id) := rfl
  have hchange : Inv { s with
      outstanding := s.outstanding.eraseIdx k ++ [.connect s.sockets.length id] } := by
    refine h.changeSetup ?_ fun x hx => ?_
    · rw [List.filterMap_append, List.filterMap_cons_none rfl, List.filterMap_nil, List.append_nil]
      exact hserving
    · by_cases hne : x = id
      · exact ⟨_, List.mem_append_right _ (List.mem_singleton_self _), hne.symm⟩
      · obtain ⟨op, hop, hsets⟩ := h.setup_eraseIdx hk hop hx hne
        exact ⟨op, List.mem_append_left _ hop, hsets⟩
  have hcore := hchange.core
  exact ⟨⟨hcore.places, hcore.setup, hcore.socket, hcore.waiting, hcore.bound, hcore.room,
    hcore.defined⟩, hchange.drained⟩

/-- A connection for a pending request. -/
theorem connected (h : Inv s) (hlimit : s.takeovers < waitLimit) {k id socket : Nat}
    (hk : s.outstanding[k]? = some (.connect socket id)) (hid : id ∈ s.pendingMap) :
    Core.AtWork id ({ s with
      outstanding := s.outstanding.eraseIdx k
      pendingMap := s.pendingMap.erase id }.setSocket id socket) := by
  have hserving : s.serving.Perm ((s.outstanding.eraseIdx k).filterMap RpcOp.served) :=
    serving_eraseIdx hk
  have hop : RpcOp.SetsUp id (.connect socket id) := rfl
  have hcore : Core [id] (waitLimit + 1) { s with
      outstanding := s.outstanding.eraseIdx k
      pendingMap := s.pendingMap.erase id } := by
    have hnodup : (s.pendingMap).count id ≤ 1 := by
      have := h.core.one_place id
      omega
    refine ⟨fun x => ?_, fun x hx => ?_, fun x hx => ?_, ?_, h.core.bound,
      .inl (Nat.add_pos_left Nat.one_pos _), h.core.defined⟩
    · have hplaces := h.core.places x
      have hcount := count_erase_of_mem hid x
      rw [hserving.count_eq x, List.count_nil] at hplaces
      dsimp only [serving, callbacks] at hplaces ⊢
      omega
    · refine h.setup_eraseIdx hk hop (List.mem_of_mem_erase hx) ?_
      rintro rfl
      have hpos := List.count_pos_iff.mpr hx
      rw [List.count_erase_self] at hpos
      omega
    · exact h.core.socket x (hserving.mem_iff.mpr hx)
    · have hwaiting := h.core.waiting
      have hlen := (List.perm_cons_erase hid).length_eq
      rw [hserving.length_eq, List.length_nil] at hwaiting
      rw [List.length_cons] at hlen
      rw [List.length_singleton]
      dsimp only [serving]
      omega
  have hlt := hcore.lt_of_hand (List.mem_singleton_self id)
  refine ⟨hcore.setSocket id socket, ?_, h.drained, hlimit⟩
  dsimp only [request, RpcClient.setSocket]
  rw [getD_modify hlt]
  nofun

theorem resolve (h : Inv s) {k id : Nat} (hk : s.outstanding[k]? = some (.resolve id))
    {o : RpcCompletion} (hok : o.error = 0 ∨ id ∉ s.pendingMap) (calls : List RpcCall) :
    Inv ({ s with outstanding := s.outstanding.eraseIdx k }.handle o calls (.resolve id)) := by
  unfold handle handleResolve
  dsimp only
  by_cases herror : o.error = 0
  · rw [if_neg (not_not.mpr herror), if_neg (not_not.mpr herror)]
    exact h.resolved hk _
  · have hnot := hok.resolve_left herror
    rw [if_pos herror, if_pos herror]
    dsimp only [dequeuePending]
    rw [decide_eq_false hnot]
    dsimp only
    rw [List.erase_of_not_mem hnot]
    exact h.dropSetup hk rfl rfl hnot

theorem connect (h : Inv s) (hlimit : s.takeovers < waitLimit) {k socket id : Nat}
    (hk : s.outstanding[k]? = some (.connect socket id)) {o : RpcCompletion}
    (hok : o.error ≠ invalidArgument ∨ id ∈ s.pendingMap) (calls : List RpcCall) :
    Inv ({ s with outstanding := s.outstanding.eraseIdx k }.handle o calls (.connect socket id)) := by
  unfold handle handleConnect
  dsimp only [dequeuePending]
  by_cases hid : id ∈ s.pendingMap
  · rw [decide_eq_true hid]
    dsimp only
    have hwork := h.connected hlimit hk hid
    split
    · exact hwork.callback _ _
    · exact hwork.transfer _
  · rw [decide_eq_false hid]
    dsimp only
    rw [if_pos (hok.resolve_right hid), List.erase_of_not_mem hid]
    have hop : RpcOp.SetsUp id (.connect socket id) := rfl
    have hdrop := h.dropSetup hk rfl hop hid
    have hcore := (hdrop.core.cancelTimer (some socket)).close socket
    exact ⟨hcore, hdrop.drained⟩

/-- Nothing is left when no operation is outstanding. -/
theorem quiet (h : Inv s) (hempty : s.outstanding = []) :
    s.serving = [] ∧ s.pendingMap = [] ∧ s.requestMap = [] := by
  have hserving : s.serving = [] := by
    rw [serving, hempty]
    rfl
  have hpending : s.pendingMap = [] := by
    refine List.eq_nil_iff_forall_not_mem.mpr fun id hid => ?_
    obtain ⟨op, hop, -⟩ := h.core.setup id hid
    rw [hempty] at hop
    exact absurd hop List.not_mem_nil
  refine ⟨hserving, hpending, h.drained.resolve_right ?_⟩
  have hwaiting := h.core.waiting
  have hroom := h.core.room
  rw [hserving, List.length_nil] at hroom
  rw [hserving, hpending, List.length_nil] at hwaiting
  omega

theorem completes (h : Inv s) : s.Completes := by
  refine ⟨h.core.defined, ?_, fun hempty => ?_⟩
  · refine List.nodup_iff_count_le_one.mpr fun x => ?_
    have hplaces := h.core.one_place x
    dsimp only [callbacks] at hplaces
    omega
  · obtain ⟨hserving, hpending, hrequests⟩ := h.quiet hempty
    refine ⟨hrequests, hpending, List.perm_iff_count.mpr fun x => ?_⟩
    have hplaces := h.core.places x
    rw [hserving, hpending, hrequests, List.count_nil] at hplaces
    dsimp only [callbacks] at hplaces
    omega

/-- `run` returns. -/
theorem run (h : Inv s) (hempty : s.outstanding = []) : Inv s.run.2 := by
  obtain ⟨hserving, hpending, hrequests⟩ := h.quiet hempty
  have hserving' : s.run.2.serving = [] := hserving
  refine ⟨⟨fun x => ?_, fun id hid => absurd hid List.not_mem_nil, fun x hx => ?_, ?_, Nat.zero_le _,
    .inr waitLimit_pos, h.core.defined⟩, .inl rfl⟩
  · have hplaces := h.core.places x
    rw [hpending, hrequests] at hplaces
    exact hplaces
  · rw [hserving'] at hx
    exact absurd hx List.not_mem_nil
  · rw [hserving']
    rfl

/-- Every step keeps the invariant. -/
theorem step (h : Inv s) {e : RpcEvent} (hok : s.Ok e) {s' : RpcClient} (hs : s.step e = some s') :
    Inv s' := by
  unfold RpcClient.step at hs
  split at hs
  · cases hs
  cases e with
  | dispatch c =>
    cases hs
    obtain ⟨hcore, hdrained⟩ := h.core.dispatch (Nat.le_succ _) c
    exact ⟨hcore, hdrained⟩
  | complete k o calls =>
    obtain ⟨hlimit, -, hharmless⟩ := hok
    dsimp only at hs
    split at hs
    · next op hk =>
      cases hs
      have hop := hharmless op hk
      cases op with
      | resolve id => exact h.resolve hk hop calls
      | connect socket id => exact h.connect hlimit hk hop calls
      | transfer id stage => exact (h.takeTransfer hlimit hk).handleTransfer stage o calls
    · cases hs
  | watchdog socket =>
    dsimp only at hs
    split at hs
    · cases hs
      exact ⟨(h.core.close socket).cancelTimer (some socket), h.drained⟩
    · cases hs
  | run =>
    dsimp only at hs
    split at hs
    · next hempty =>
      cases hs
      exact h.run hempty
    · cases hs

end Inv

theorem inv_initial (picks : List Nat) : Inv { picks := picks } := by
  refine ⟨⟨fun x => rfl, fun id hid => absurd hid List.not_mem_nil, fun id hid => ?_, rfl,
    Nat.zero_le _, .inr waitLimit_pos, rfl⟩, .inl rfl⟩
  exact absurd hid List.not_mem_nil

/-- **Every dispatched request completes once.** In every run in which no host lookup of a pending
request fails, no connection whose request was taken over ends with `invalid_argument`, and fewer
than `WAIT_LIMIT` requests are taken over before `run` returns: no null socket is used, no callback
is run twice, and when no operation is outstanding both maps are empty and every request was called
back. -/
theorem dispatch_completes {picks : List Nat} {es : List RpcEvent} {s : RpcClient}
    (hrun : Run step Ok { picks := picks } es s) : s.Completes :=
  (hrun.inv (fun h hok hs => h.step hok hs) (inv_initial picks) : Inv s).completes

/-- Two requests to one host. The second is taken over by the connection of the first, and its
callback dispatches a third; the connection of its own is closed when it is there. -/
def takenOver : List RpcEvent :=
  [.dispatch ⟨("a", "1"), 0, []⟩, .dispatch ⟨("a", "1"), 1, []⟩, .complete 0 {} [],
    .complete 1 {} [], .complete 1 {} [], .complete 1 {} [], .complete 0 {} [], .complete 0 {} [],
    .complete 0 {} [], .complete 0 {} [], .complete 0 { error := 104 } [⟨("b", "1"), 0, []⟩],
    .complete 0 {} [], .complete 0 {} [], .complete 0 {} [], .complete 0 { psize := 1 } [],
    .complete 0 { psize := 4 } [], .complete 0 {} []]

theorem dispatch_completes_taken_over :
    ∃ s, Run step Ok {} takenOver s ∧ s.takeovers = 1 ∧ s.outstanding = [] ∧
      s.requestMap = [] ∧ s.pendingMap = [] ∧ (s.called.map Prod.fst).Perm [0, 1, 2] := by
  have hrun : Run step Ok {} takenOver _ := Run.of_isSome {} (by decide +kernel)
  generalize hs : (exec step Ok {} takenOver).getD {} = s at hrun
  obtain ⟨hempty, htaken, hlen⟩ :
      s.outstanding = [] ∧ s.takeovers = 1 ∧ s.requests.length = 3 := by
    rw [← hs]
    decide +kernel
  obtain ⟨hrequests, hpending, hcalled⟩ := (dispatch_completes hrun).all hempty
  rw [hlen] at hcalled
  exact ⟨s, hrun, htaken, hempty, hrequests, hpending, hcalled⟩

/-- A request whose host is not found: `handle_callback` closes its socket, which was never set. The
callback is not run. -/
theorem resolve_failure_undefined :
    ∃ s, Run step (fun _ _ => True) {}
        [.dispatch ⟨("nowhere", "80"), 0, []⟩, .complete 0 { error := 1 } []] s ∧
      s.undefined = true ∧ s.called = [] ∧ s.outstanding = [] ∧ ¬ s.Completes := by
  have hrun : Run step (fun _ _ => True) {}
      [.dispatch ⟨("nowhere", "80"), 0, []⟩, .complete 0 { error := 1 } []] _ :=
    Run.of_isSome {} (by decide +kernel)
  generalize hs : (exec step (fun _ _ => True) {}
    [.dispatch ⟨("nowhere", "80"), 0, []⟩, .complete 0 { error := 1 } []]).getD {} = s at hrun
  obtain ⟨hundefined, hcalled, hempty⟩ :
      s.undefined = true ∧ s.called = [] ∧ s.outstanding = [] := by
    rw [← hs]
    decide +kernel
  refine ⟨s, hrun, hundefined, hcalled, hempty, fun h => ?_⟩
  rw [h.defined] at hundefined
  cases hundefined

/-! ## What the condition keeps out -/

/-- A connection that ends with `invalid_argument` after its request was taken over is not told
apart from one that is reused: the request is on a connection for a second time. -/
theorem invalid_argument_twice {s : RpcClient} (h : Inv s) {socket id : Nat}
    (hid : id ∈ s.serving ∨ id ∈ s.callbacks) (calls : List RpcCall) :
    (s.handleConnect socket id invalidArgument calls).serving.count id +
      (s.handleConnect socket id invalidArgument calls).callbacks.count id = 2 := by
  have hone := h.core.one_place id
  have hplace : s.serving.count id + s.callbacks.count id = 1 := by
    rcases hid with hid | hid
    · have := List.count_pos_iff.mpr hid
      omega
    · have := List.count_pos_iff.mpr hid
      omega
  have hnot : id ∉ s.pendingMap := by
    rw [← List.count_eq_zero]
    omega
  have hlt : id < s.requests.length := by
    have hplaces := h.core.places id
    exact List.mem_range.mp (List.count_pos_iff.mp (by omega))
  have hsocket : ((s.requests.modify id fun r => { r with socket := some socket }).getD id
      { host := ("", "") }).socket = some socket := by
    rw [getD_modify hlt]
  unfold handleConnect
  dsimp only [dequeuePending]
  rw [decide_eq_false hnot]
  dsimp only [reuse, setSocket, addTimer, transfer, request]
  rw [if_neg (not_not.mpr rfl), hsocket]
  show ((s.outstanding ++ [_]).filterMap RpcOp.served).count id + s.callbacks.count id = 2
  have hadd : (s.outstanding ++ [RpcOp.transfer id .header]).filterMap RpcOp.served =
      s.serving ++ [id] := by
    rw [List.filterMap_append]
    rfl
  rw [hadd, List.count_append, List.count_singleton_self]
  omega

/-- After `WAIT_LIMIT` requests were taken over, a request that is dispatched while no operation is
outstanding stays in `request_map`, and nothing is outstanding. -/
theorem dispatch_stuck {bound : Nat} {s : RpcClient} (h : Core [] bound s)
    (hempty : s.outstanding = []) (hlimit : waitLimit ≤ s.takeovers) (c : RpcCall) :
    (s.dispatch c).outstanding = [] ∧ s.requests.length ∈ (s.dispatch c).requestMap := by
  have hwaiting := h.waiting
  have hstop : ∀ {s' : RpcClient}, waitLimit ≤ s'.waitingCount → startLoop waitLimit s' = s' := by
    intro s' hle
    unfold waitLimit startLoop
    exact if_neg (Nat.not_lt.mpr hle)
  have hdispatch : s.dispatch c = s.enqueue c := by
    refine hstop ?_
    show waitLimit ≤ s.waitingCount
    omega
  rw [hdispatch]
  exact ⟨hempty, List.mem_append_right _ (List.mem_singleton_self _)⟩

end RpcClient

end BlobSeer
