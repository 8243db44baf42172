import BlobSeer.Client.Read
import BlobSeer.Client.Writers
import BlobSeer.World.Versions

/-!
# One handler on its own

The calls of one `object_handler` when nothing fails and there is no other client: `create`,
`get_latest`, and writes and appends that return `true`. A write is a part of a run of `Writers` in
which only its own requests are answered, in any order.

After a write `exec_write` sets the version of `latest_root` and nothing else. `grown` notes whether a
write since the last `create` or `get_latest` was an append or ended beyond `latest_root.current_size`.
-/

namespace BlobSeer

open Lib
open VManagement (assigned ticket newRoot publishObj grow)

/-! ## What the providers hold -/

/-- The last page that provider `p` has acknowledged under a key. -/
def Writers.page (s : Writers) (p : ProviderDesc) (key : Query) : Option (List UInt8) :=
  ((s.uploads.flatMap Upload.acked).reverse.find? fun r => decide (r.adv = p ∧ r.key = key)).map
    ProviderWrite.value

/-- `page_manager::read_page` for one page, and `read_partial_page`. -/
def Writers.answers (s : Writers) : Answers
  | p, false, [.key key] => s.page p key
  | p, true, [.key key, .num offset, .num size] =>
    match s.page p key with
    | some data => if data.length < u64 (offset + size) then none
      else some ((data.drop offset).take size)
    | none => none
  | _, _, _ => none

/-! ## The calls -/

structure Solo where
  writers : Writers := {}
  handler : ObjectHandler
  grown : Bool := false

/-- A call of the handler. `acts` is what happens during a write, from the first reply of a provider
to the reply to its publish. -/
inductive SoloCall where
  | create (ps rc : Nat)
  | getLatest (id : Nat)
  | write (offset size : Nat) (buffer : Nat → UInt8) (append : Bool) (rnd : Nat)
      (adv : List ProviderDesc) (acts : List WriterAction)

/-- The actions of write `n`, which becomes task `t` of blob `id`, when nothing fails. -/
def WriterAction.Own (n id t : Nat) : WriterAction → Bool
  | .reply m _ error => decide (m = n ∧ error = .ok)
  | .ticket m _ => decide (m = n)
  | .other (.put i k _ outcome) => decide (i = id ∧ k = t ∧ outcome = .acked)
  | .other (.get i k _) => decide (i = id ∧ k = t)
  | .other (.wait i k) => decide (i = id ∧ k = t)
  | .other (.publish i k outcome) => decide (i = id ∧ k = t ∧ outcome = .answered)
  | _ => false

namespace Solo

def vm (s : Solo) : VManagement := s.writers.world.hist.vm

/-- A call of `exec_write` on the handler. -/
def call (s : Solo) (offset size : Nat) (buffer : Nat → UInt8) (append : Bool) (rnd : Nat)
    (adv : List ProviderDesc) : WriteCall :=
  ⟨s.handler.id, s.handler.latestRoot, rnd, offset, size, buffer, append, adv⟩

/-- The task of the write that is made next, in a later state. -/
def taskIn (s : Solo) (w : Writers) : Option Task :=
  match w.uploads[s.writers.uploads.length]? with
  | some u => w.taskOf u
  | none => none

/-- The end of `exec_write`: `latest_root.node.version = range.version`. -/
def setVersion (h : ObjectHandler) (version : Nat) : ObjectHandler :=
  { h with latestRoot :=
    { h.latestRoot with node := { h.latestRoot.node with version := version } } }

/-- A write or append that returns `true`. -/
def execWrite (retryCount : Nat) (s : Solo) (c : WriteCall) (acts : List WriterAction) :
    Option Solo :=
  let own := WriterAction.Own s.writers.uploads.length c.id (s.writers.world.tasks c.id).length
  if acts.all own then
    match exec (Writers.step retryCount) (fun _ _ => True) s.writers (.execWrite c :: acts) with
    | none => none
    | some w =>
      match s.taskIn w with
      | none => none
      | some T =>
        if T.state = .returned true then some
          { writers := w
            handler := setVersion s.handler T.query.version
            grown := s.grown || c.append ||
              decide (c.offset + c.size > s.handler.latestRoot.currentSize) }
        else none
  else none

def step (retryCount : Nat) (s : Solo) : SoloCall → Option Solo
  | .create ps rc =>
    (s.writers.step retryCount (.other (.create ps rc))).map fun w =>
      { writers := w, handler := (s.handler.create s.vm .answered ps rc).2 }
  | .getLatest id => some
      { writers := s.writers, handler := (s.handler.getLatest s.vm .answered id).2 }
  | .write offset size buffer append rnd adv acts =>
    s.execWrite retryCount (s.call offset size buffer append rnd adv) acts

/-- The publisher gives out real providers and refuses to give out none, the page keys are of their
own, and the trees fit into 64 bits. -/
def Ok (s : Solo) : SoloCall → Prop
  | .write offset size buffer append rnd adv _ =>
    let c := s.call offset size buffer append rnd adv
    0 < c.replicaCount ∧ (∀ p ∈ adv, p.empty = false) ∧
      s.writers.world.Distinct (.ticket c.range append adv) ∧
      ∀ o ∈ s.vm.objHash c.id, FitsTree o.lastRoot.pageSize (assigned o c.range append).last
  | _ => True

instance (s : Solo) (call : SoloCall) : Decidable (s.Ok call) :=
  match call with
  | .write .. => inferInstanceAs (Decidable (_ ∧ _))
  | .create .. | .getLatest _ => .isTrue trivial

/-- Where a write starts: an append starts at `progress_size`. -/
def start (s : Solo) (offset : Nat) (append : Bool) : Nat :=
  match s.vm.objHash s.handler.id with
  | some o => (assigned o ⟨s.handler.id, 0, offset, 0⟩ append).offset
  | none => offset

/-- `latest_root` is the root that the version manager returns for `get_root(id, 0)`. -/
def InSync (s : Solo) : Prop := s.handler.latestRoot = s.vm.getRoot s.handler.id 0

/-- A `read` of the range, in whatever order the requests are answered and whichever providers are
picked, ends, returns `true` and leaves the bytes of `bytes` in the buffer. -/
def ReadsBack (s : Solo) (offset size : Nat) (bytes : Nat → UInt8) : Prop :=
  ∀ (rand : Nat → Nat → Nat) (sched : Nat → Nat) (buffer : Nat → UInt8),
    ∃ fuel0, ∀ fuel, fuel0 ≤ fuel → ∃ buffer',
      s.handler.readLatest s.writers.answers rand
        (readRecordLocations (fun _ => s.writers.world.dht) sched fuel) offset size buffer =
          some (.returned true buffer') ∧
      ∀ b < size, buffer' b = bytes b

/-- What holds after a call from `s` to `s'`: the handler has the latest root, and sees what it has
just written. -/
def Sees (s s' : Solo) : SoloCall → Prop
  | .write offset size buffer append _ _ _ =>
    s'.InSync ∧ s'.ReadsBack (s.start offset append) size buffer ∧
      s.start offset append + size ≤ s'.handler.sizeLatest
  | _ => s'.InSync

/-- Neither this call nor a write since the last `create` or `get_latest` is an append or ends beyond
`latest_root.current_size`, and a page that is written has less than `2 ^ 32` bytes. -/
def Within (s : Solo) : SoloCall → Prop
  | .write offset size _ append _ _ _ =>
    (s.grown = false ∧ append = false ∧ offset + size ≤ s.handler.latestRoot.currentSize) ∧
      s.handler.latestRoot.pageSize < 2 ^ 32
  | _ => True

end Solo

/-! ## During a write -/

/-- A step of the one task that is at work. -/
theorem World.step_own {w w' : World} {n id t : Nat} {a : Action}
    (hown : WriterAction.Own n id t (.other a) = true) (hs : w.step a = some w') :
    ∃ T T', (w.tasks id)[t]? = some T ∧ (w'.tasks id)[t]? = some T' ∧
      T'.toTicket = T.toTicket ∧
      (w'.hist = w.hist ∧
          (T'.state = T.state ∨ T.state = .running ∧ T'.state = .returned false) ∨
        T.state = .running ∧ T'.state ≠ .running ∧
          w.hist.step (.publish T.query) = some w'.hist) := by
  cases a with
  | put i k j outcome =>
    simp only [WriterAction.Own, decide_eq_true_eq] at hown
    obtain ⟨rfl, rfl, rfl⟩ := hown
    obtain ⟨T, hT, hs⟩ := step_put hs
    obtain ⟨k, v, -, rfl⟩ := endPut_cases hs
    exact ⟨T, _, hT, tasks_set_self hT, rfl, .inl ⟨rfl, .inl rfl⟩⟩
  | get i k j =>
    simp only [WriterAction.Own, decide_eq_true_eq] at hown
    obtain ⟨rfl, rfl⟩ := hown
    obtain ⟨T, hT, -, hs⟩ := step_get hs
    obtain ⟨isLeft, q, -, rfl⟩ := endGet_cases hs
    exact ⟨T, _, hT, tasks_set_self hT, rfl, .inl ⟨rfl, .inl rfl⟩⟩
  | wait i k =>
    simp only [WriterAction.Own, decide_eq_true_eq] at hown
    obtain ⟨rfl, rfl⟩ := hown
    obtain ⟨T, hT, hrun, hs⟩ := step_wait hs
    obtain ⟨writer, -, rfl⟩ := endWait_cases hs
    refine ⟨T, _, hT, tasks_set_self hT, (Task.settle_eq _).1, .inl ⟨rfl, ?_⟩⟩
    exact (Task.settle_state { T with writer := writer }).imp_right fun hstate => ⟨hrun, hstate⟩
  | publish i k outcome =>
    simp only [WriterAction.Own, decide_eq_true_eq] at hown
    obtain ⟨rfl, rfl, rfl⟩ := hown
    obtain ⟨T, hT, hrun, hs⟩ := step_send hs
    obtain ⟨-, ⟨hist, result, hstep, -, rfl⟩ | ⟨hsent, -⟩⟩ := publish_cases hs
    · exact ⟨T, _, hT, tasks_set_self hT, rfl, .inr ⟨hrun, nofun, hstep⟩⟩
    · cases hsent
  | _ => cases hown

/-- A task that has no page to write fails at once. -/
theorem Task.start_empty {reply : VmgrReply} {range : Query} (adv : List ProviderDesc)
    (hsize : range.size = 0) (hps : 0 < reply.stableRoot.pageSize) :
    (Task.start reply range adv).state = .returned false := by
  have hkeys : pageKeys range.id range.version reply.stableRoot.pageSize range.size = [] := by
    rw [pageKeys, hsize, Nat.zero_add, Nat.div_eq_of_lt (by omega)]
    rfl
  unfold Task.start
  dsimp only
  rw [hkeys]
  rfl

/-- How far the write `c` is, which was made in the world `w₀`: before its ticket request, without
a ticket after it, or with one. A ticket that was not published leaves the history as it is. -/
inductive Phase (w₀ : World) (c : WriteCall) (w : World) (u : Upload) : Prop where
  | waiting (requested : u.requested = false) (task : u.task = none) (world : w = w₀)
  | refused (requested : u.requested = true) (task : u.task = none)
  | granted {o : ObjInfo} {T : Task} {hist : VmHistory} (requested : u.requested = true)
      (all : u.inFlight = []) (task : u.task = some (w₀.tasks c.id).length)
      (obj : w₀.hist.vm.objHash c.id = some o)
      (ticket : w₀.hist.step (.getTicket c.range c.append) = some hist)
      (entry : (w.tasks c.id)[(w₀.tasks c.id).length]? = some T)
      (query : T.query = { assigned o c.range c.append with version := o.currentTicket })
      (size : c.size = 0 → T.state = .returned false)
      (publish : T.state ≠ .returned true ∧ w.hist = hist ∨
        T.state ≠ .running ∧ hist.step (.publish T.query) = some w.hist)

namespace Phase

variable {w₀ w : World} {c : WriteCall} {u : Upload}

/-- An acknowledgement. -/
theorem reply (h : Phase w₀ c w u) {retryCount i : Nat} {u' : Upload}
    (hs : u.complete retryCount i .ok = some u') : Phase w₀ c w u' := by
  unfold Upload.complete at hs
  split at hs
  · cases hs
  next r hr =>
  cases hs
  cases h with
  | waiting hreq htask hw => exact .waiting hreq htask hw
  | refused hreq htask => exact .refused hreq htask
  | granted hreq hall =>
    rw [hall] at hr
    cases hr

/-- The ticket request. -/
theorem ask {s s' : Writers} {n : Nat} (hcall : u.toWriteCall = c)
    (hflight : u.inFlight = []) (hinv : ∃ o, s.world.hist.vm.objHash c.id = some o ∧
      o.Uniform c.pageSize c.replicaCount) (hps : 0 < c.pageSize)
    (hwindow : VmHistory.ObjInv Window s.world.hist)
    (hok : s.world.Distinct (.ticket c.range c.append c.adv)) (hs : s.askTicket n u = some s') :
    ∃ u', s'.uploads = s.uploads.set n u' ∧ u'.toWriteCall = c ∧ u'.inFlight = [] ∧
      u'.sent = u.sent ∧ u'.acked = u.acked ∧ Phase s.world c s'.world u' := by
  obtain ⟨w', hw', rfl⟩ := Option.map_eq_some_iff.mp hs
  rw [hcall] at hw'
  refine ⟨_, rfl, hcall, hflight, rfl, rfl, ?_⟩
  have hid : u.id = c.id := congrArg WriteCall.id hcall
  dsimp only
  rw [hid]
  obtain rfl | ⟨o, R, T, hist, ho, hstep, hT, -, rfl⟩ := World.takeTicket_cases hw'
  · exact .refused rfl (if_neg (Nat.lt_irrefl _))
  have hrange : c.range.id = c.id := rfl
  have hquery := World.ticketOf_query (hwindow.obj ho) hok.1 c.range c.append c.adv R
  have hticket : T.toTicket = World.ticketOf o c.range c.append c.adv R := by
    rw [hT]
    exact Task.start_toTicket _ _ _
  have hcounter : o.currentTicket = (s.world.hist.issued c.id).length + 1 := by
    rw [(hwindow.obj ho).counter]
    exact u32_of_lt hok.1
  have hlast : (World.ticketOf o c.range c.append c.adv R).reply.stableRoot.pageSize =
      c.pageSize := by
    obtain ⟨o', ho', huniform⟩ := hinv
    rw [hrange, ho'] at ho
    cases ho
    exact huniform.last.1
  have hstart : T.state ≠ .returned true ∧ (c.size = 0 → T.state = .returned false) := by
    rw [hT]
    exact ⟨Task.start_state _ _ _, fun hsize => Task.start_empty _ hsize (hlast.symm ▸ hps)⟩
  refine .granted (T := T) rfl hflight ?_ ho hstep ?_ ?_ hstart.2 (.inl ⟨hstart.1, rfl⟩)
  · refine if_pos ?_
    dsimp only
    rw [hrange, Function.update_self, List.length_append]
    exact Nat.lt_succ_self _
  · dsimp only
    rw [hrange, Function.update_self]
    exact List.getElem?_concat_length
  · rw [hticket, hquery, hcounter]
    rfl

/-- The task of the write goes on. -/
theorem own (h : Phase w₀ c w u) {n : Nat} {a : Action}
    (hown : WriterAction.Own n c.id (w₀.tasks c.id).length (.other a) = true) {w' : World}
    (hs : w.step a = some w') : Phase w₀ c w' u := by
  obtain ⟨T, T', hT, hT', hk, hcases⟩ := World.step_own hown hs
  cases h with
  | waiting hreq htask hw =>
    rw [hw, List.getElem?_eq_none (Nat.le_refl _)] at hT
    cases hT
  | refused hreq htask => exact .refused hreq htask
  | granted hreq hall htask ho hticket hentry hquery hsize hpublish =>
    rw [hentry] at hT
    cases hT
    have hquery' : T'.query = T.query := congrArg Ticket.query hk
    refine .granted hreq hall htask ho hticket hT' (hquery'.trans hquery) ?_ ?_
    · intro h0
      have hfalse := hsize h0
      obtain ⟨-, hstate | ⟨-, hstate⟩⟩ | ⟨hrun, -⟩ := hcases
      · rw [hstate, hfalse]
      · exact hstate
      · rw [hfalse] at hrun
        cases hrun
    · obtain ⟨hhist, hstate | ⟨hrun, hstate⟩⟩ | ⟨hrun, hstate, hstep⟩ := hcases
      · rw [hhist, hstate, hquery']
        exact hpublish
      · obtain ⟨-, hold⟩ | ⟨hne, -⟩ := hpublish
        · refine .inl ⟨?_, hhist.trans hold⟩
          rw [hstate]
          nofun
        · exact absurd hrun hne
      · obtain ⟨-, hold⟩ | ⟨hne, -⟩ := hpublish
        · refine .inr ⟨hstate, ?_⟩
          rw [hquery', ← hold]
          exact hstep
        · exact absurd hrun hne

end Phase

/-- What holds during the write `c`, which was made in the state `s₀`. -/
structure During (retryCount : Nat) (s₀ : Writers) (c : WriteCall) (s : Writers) : Prop where
  inv : s.Inv retryCount
  world : 0 < c.size → ∃ base, World.Inv (fun _ => true) base s.world
  upload : ∃ u, s.uploads = s₀.uploads ++ [u] ∧ u.toWriteCall = c ∧
    (∀ r ∈ u.sent, r ∈ u.inFlight ∨ r ∈ u.acked) ∧ Phase s₀.world c s.world u

namespace During

variable {retryCount : Nat} {s₀ s : Writers} {c : WriteCall}

/-- The upload of the write. -/
theorem upload_at (h : During retryCount s₀ c s) : ∃ u, s.uploads[s₀.uploads.length]? = some u ∧
    (∀ u', s.uploads.set s₀.uploads.length u' = s₀.uploads ++ [u']) ∧ u.toWriteCall = c ∧
    (∀ r ∈ u.sent, r ∈ u.inFlight ∨ r ∈ u.acked) ∧ Phase s₀.world c s.world u := by
  obtain ⟨u, huploads, hcall, hclean, hphase⟩ := h.upload
  refine ⟨u, ?_, fun u' => ?_, hcall, hclean, hphase⟩
  · rw [huploads]
    exact List.getElem?_concat_length
  · rw [huploads]
    simp

/-- A provider acknowledges a page. -/
theorem reply (h : During retryCount s₀ c s) {i : Nat} {s' : Writers}
    (hs : s.step retryCount (.reply s₀.uploads.length i .ok) = some s') :
    During retryCount s₀ c s' := by
  obtain ⟨u, hn, hset, hcall, hclean, hphase⟩ := h.upload_at
  have hok : s.Ok (.reply s₀.uploads.length i .ok) := trivial
  have hinv := h.inv.step hok hs
  simp only [Writers.step, hn] at hs
  obtain ⟨u', hu', rfl⟩ := Option.map_eq_some_iff.mp hs
  have hu := List.mem_of_getElem? hn
  obtain ⟨hcall', -, -⟩ := (h.inv.upload u hu).1.complete hu'
  refine ⟨hinv, h.world, u', hset u', hcall'.trans hcall, ?_, hphase.reply hu'⟩
  unfold Upload.complete at hu'
  split at hu'
  · cases hu'
  next r hr =>
  cases hu'
  obtain ⟨hi, rfl⟩ := List.getElem?_eq_some_iff.mp hr
  intro r' hr'
  rcases hclean r' hr' with hr' | hr'
  · rw [← (List.getElem_cons_eraseIdx_perm hi).mem_iff] at hr'
    rcases List.mem_cons.mp hr' with rfl | hr'
    · exact .inr (List.mem_append_right _ (List.mem_singleton_self _))
    · exact .inl hr'
  · exact .inr (List.mem_append_left _ hr')

/-- The write asks for its ticket. -/
theorem ask (hd : s₀.world.Distinct (.ticket c.range c.append c.adv))
    (hplaced : 0 < c.size →
      s₀.world.Ok (fun _ => true) (.ticket c.range c.append c.adv))
    (h : During retryCount s₀ c s) {beyond : Nat → Bool} {s' : Writers}
    (hs : s.step retryCount (.ticket s₀.uploads.length beyond) = some s') :
    During retryCount s₀ c s' := by
  obtain ⟨u, hn, hset, hcall, hclean, hphase⟩ := h.upload_at
  have hstep := hs
  simp only [Writers.step, hn] at hs
  split at hs
  · next hreq =>
    cases hphase with
    | waiting _ _ hworld =>
      have hok : s.Ok (.ticket s₀.uploads.length beyond) := by
        intro u' hu'
        rw [hn] at hu'
        cases hu'
        rw [hworld, hcall]
        exact hd
      have hflight : u.inFlight = [] := by
        have hempty := hreq.2
        simp only [Upload.requestsTicket, Bool.and_eq_true] at hempty
        exact List.isEmpty_iff.mp hempty.1
      have hu := List.mem_of_getElem? hn
      have hblob := h.inv.blob u hu
      have hps := (h.inv.upload u hu).1.pageSize
      rw [hcall] at hblob hps
      obtain ⟨reqs, hreqs⟩ := h.inv.tracked.run
      rw [← hworld] at hd
      obtain ⟨u', huploads', hcall', hflight', hsent, hacked, hphase'⟩ :=
        Phase.ask hcall hflight hblob hps (VmHistory.window hreqs) hd hs
      rw [hworld] at hphase'
      refine ⟨h.inv.step hok hstep, ?_, u', huploads'.trans (hset u'), hcall', ?_, hphase'⟩
      · intro hsize
        obtain ⟨base, hbase⟩ := h.world hsize
        obtain ⟨w', hw', rfl⟩ := Option.map_eq_some_iff.mp hs
        rw [hcall] at hw'
        rw [hworld] at hbase hw'
        obtain ⟨base', hbase', -⟩ := World.inv_step hbase (hplaced hsize) hw'
        exact ⟨base', hbase'⟩
      · rw [hsent, hacked, hflight', ← hflight]
        exact hclean
    | refused hreq' => exact absurd (hreq.1.symm.trans hreq') Bool.false_ne_true
    | granted hreq' => exact absurd (hreq.1.symm.trans hreq') Bool.false_ne_true
  · cases hs

/-- The task of the write goes on. -/
theorem other (h : During retryCount s₀ c s) {a : Action}
    (hown : WriterAction.Own s₀.uploads.length c.id (s₀.world.tasks c.id).length (.other a) = true)
    {s' : Writers} (hs : s.step retryCount (.other a) = some s') :
    During retryCount s₀ c s' := by
  have hok : s.Ok (.other a) := trivial
  have hinv := h.inv.step hok hs
  obtain ⟨u, huploads, hcall, hclean, hphase⟩ := h.upload
  have hnot : ∀ range append adv, a ≠ .ticket range append adv := by
    rintro range append adv rfl
    cases hown
  unfold Writers.step at hs
  split at hs
  · next heq => cases heq
  · next heq => cases heq
  · next heq => cases heq
  · cases hs
  · next a' hne heq =>
    cases heq
    obtain ⟨w', hw', rfl⟩ := Option.map_eq_some_iff.mp hs
    refine ⟨hinv, ?_, u, huploads, hcall, hclean, hphase.own hown hw'⟩
    intro hsize
    obtain ⟨base, hbase⟩ := h.world hsize
    have hok : s.world.Ok (fun _ => true) a := by
      cases a with
      | ticket range append adv => exact absurd rfl (hnot range append adv)
      | _ => trivial
    obtain ⟨base', hbase', -⟩ := World.inv_step hbase hok hw'
    exact ⟨base', hbase'⟩

theorem step (hd : s₀.world.Distinct (.ticket c.range c.append c.adv))
    (hplaced : 0 < c.size →
      s₀.world.Ok (fun _ => true) (.ticket c.range c.append c.adv))
    (h : During retryCount s₀ c s) {a : WriterAction}
    (hown : a.Own s₀.uploads.length c.id (s₀.world.tasks c.id).length = true) {s' : Writers}
    (hs : s.step retryCount a = some s') : During retryCount s₀ c s' := by
  cases a with
  | execWrite c' => cases hown
  | reply m i error =>
    simp only [WriterAction.Own, decide_eq_true_eq] at hown
    obtain ⟨rfl, rfl⟩ := hown
    exact h.reply hs
  | ticket m beyond =>
    simp only [WriterAction.Own, decide_eq_true_eq] at hown
    subst hown
    exact h.ask hd hplaced hs
  | other a => exact h.other hown hs

end During

end BlobSeer
