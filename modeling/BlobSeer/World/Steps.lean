import BlobSeer.World.Invariant

/-!
# Every step keeps the invariant

The writer steps change one task and put at most one entry into the DHT (`Inv.move`). A publish
moves versions from the outstanding tickets to the roots, a new blob starts from the base map of
the root it is made with, and a ticket adds a task whose stable version is the latest root.
-/

namespace BlobSeer

open Lib
open VManagement (assigned grow ticket newRoot publishObj rootAt)

/-! ## What a longer list of tickets leaves alone -/

theorem snapshotAt_append (base : PageMap) {ks l : List Ticket} {v : Nat} (hv : v ≤ ks.length) :
    snapshotAt base (ks ++ l) v = snapshotAt base ks v := by
  rw [snapshotAt, snapshotAt, List.map_append, List.take_append_of_le_length (by simpa using hv)]

theorem ObjInfo.treeSize_of_isPrefix {o o' : ObjInfo} (h : o.allRoots <+: o'.allRoots) {v : Nat}
    (hv : v < o.allRoots.length) : o'.treeSize v = o.treeSize v := by
  have hget := List.getElem?_eq_getElem hv
  have hget' := getElem?_of_isPrefix h hget
  rw [ObjInfo.treeSize_eq hget, ObjInfo.treeSize_eq hget']

theorem TicketInfo.mono {id : Nat} {o o' : ObjInfo} {ks : List Ticket} {t : Nat} {K : Ticket}
    (h : TicketInfo id o ks t K) (hpos : 0 < o.roots.length) (hroots : o.roots <+: o'.roots)
    (hsize : o'.treeSize (t + 1) = o.treeSize (t + 1)) (ht : t ≤ ks.length) (l : List Ticket) :
    TicketInfo id o' (ks ++ l) t K where
  shape := h.shape
  id_eq := h.id_eq
  version := h.version
  pageSize := h.pageSize.trans (ObjInfo.pageSize_of_isPrefix hpos hroots).symm
  rootSize := h.rootSize.trans hsize.symm
  stable := getElem?_of_isPrefix hroots h.stable
  length := h.length
  outstanding := by
    rw [List.take_append_of_le_length ht]
    exact h.outstanding

theorem Task.settle_eq (T : Task) :
    T.settle.toTicket = T.toTicket ∧ T.settle.writer = T.writer := by
  unfold Task.settle
  split <;> exact ⟨rfl, rfl⟩

theorem Task.settle_state (T : Task) :
    T.settle.state = T.state ∨ T.settle.state = .returned false := by
  unfold Task.settle
  split
  · exact .inr rfl
  · exact .inl rfl

theorem Task.start_toTicket (reply : VmgrReply) (range : Query) (adv : List ProviderDesc) :
    (Task.start reply range adv).toTicket = { reply, pageVersion := range.version, adv } := by
  unfold Task.start
  dsimp only
  split
  · rfl
  · exact (Task.settle_eq _).1

/-- A write has not succeeded when it gets its ticket. -/
theorem Task.start_state (reply : VmgrReply) (range : Query) (adv : List ProviderDesc) :
    (Task.start reply range adv).state ≠ .returned true := by
  unfold Task.start
  dsimp only
  split
  · nofun
  · next writer _ =>
    obtain hstate | hstate :=
      Task.settle_state { reply, pageVersion := range.version, adv, writer }
    · rw [hstate]
      nofun
    · rw [hstate]
      nofun

theorem Ticket.Shape.of_fits {K : Ticket} (hid : 0 < K.query.id)
    (hv : K.pageVersion ≠ K.query.version) (hps : 0 < K.pageSize)
    (ho : K.pageSize ∣ K.query.offset) (hs : K.pageSize ∣ K.query.size) (hpos : 0 < K.query.size)
    (hlast : K.query.last ≤ K.reply.rootSize)
    (hR : ∃ m, K.reply.rootSize = K.pageSize * 2 ^ m ∧ K.reply.rootSize < 2 ^ 64) : K.Shape := by
  obtain ⟨m, hR, hlt⟩ := hR
  obtain ⟨hlayout, -⟩ := Ticket.Layout.of_fits hps ho hs hpos hlast hR hlt
  exact { hlayout with
    id_pos := hid
    version_ne := hv }

namespace World

variable {seq : Nat → Bool} {base : Nat → PageMap} {w : World}

/-- What never changes again: the entries of the DHT, the base maps and the published roots of the
blobs, and the tickets. -/
structure Evolves (base base' : Nat → PageMap) (w w' : World) : Prop where
  dht : DhtLe w.dht w'.dht
  base : ∀ {id : Nat} {o : ObjInfo}, w.hist.vm.objHash id = some o → base' id = base id
  roots : ∀ {id : Nat} {o : ObjInfo}, w.hist.vm.objHash id = some o →
    ∃ o', w'.hist.vm.objHash id = some o' ∧ o.roots <+: o'.roots
  tickets : ∀ id, w.tickets id <+: w'.tickets id

theorem Evolves.refl (base : Nat → PageMap) (w : World) : Evolves base base w w :=
  ⟨DhtLe.refl _, fun _ => rfl, fun ho => ⟨_, ho, List.prefix_refl _⟩, fun _ => List.prefix_refl _⟩

theorem Evolves.trans {base base' base'' : Nat → PageMap} {w w' w'' : World}
    (h : Evolves base base' w w') (h' : Evolves base' base'' w' w'') :
    Evolves base base'' w w'' := by
  refine ⟨fun k v hv => h'.dht k v (h.dht k v hv), ?_, ?_,
    fun id => (h.tickets id).trans (h'.tickets id)⟩
  · intro id o ho
    obtain ⟨o', ho', -⟩ := h.roots ho
    exact (h'.base ho').trans (h.base ho)
  · intro id o ho
    obtain ⟨o', ho', hp⟩ := h.roots ho
    obtain ⟨o'', ho'', hp'⟩ := h'.roots ho'
    exact ⟨o'', ho'', hp.trans hp'⟩

/-- A step of one writer evolves the world. -/
theorem Evolves.move {id t : Nat} {T T' : Task} {dht : Dht} (hT : (w.tasks id)[t]? = some T)
    (hk : T'.toTicket = T.toTicket) (hle : DhtLe w.dht dht) :
    Evolves base base w { w.setTask id t T' with dht := dht } := by
  refine ⟨hle, fun _ => rfl, fun ho => ⟨_, ho, List.prefix_refl _⟩, fun i => ?_⟩
  have htickets : World.tickets { w.setTask id t T' with dht := dht } i = w.tickets i :=
    tickets_set hT hk i
  exact htickets ▸ List.prefix_refl (w.tickets i)

/-! ## Steps of a writer -/

theorem Inv.put (h : Inv seq base w) {id t i : Nat} {T : Task} {outcome : PutOutcome}
    (hT : (w.tasks id)[t]? = some T) {w' : World} (hs : w.endPut id t i outcome T = some w') :
    Inv seq base w' ∧ Evolves base base w w' := by
  obtain ⟨k, v, hput, rfl⟩ := endPut_cases hs
  have hmem := List.mem_of_getElem? hput
  have hle : DhtLe w.dht
      (if outcome = .lost then w.dht else Function.update w.dht k (some v)) := by
    split
    · exact DhtLe.refl _
    · exact h.put_le hT hmem
  refine ⟨h.move hT rfl hle ?_ (fun he => he) ?_ ?_, .move hT rfl hle⟩
  · intro k' v' hv'
    split at hv'
    · exact .inl hv'
    · by_cases hk : k' = k
      · subst hk
        rw [Function.update_self] at hv'
        cases hv'
        exact .inr ((h.task hT).put_entry hmem)
      · rw [Function.update_of_ne hk] at hv'
        exact .inl hv'
  · refine (h.task hT).endPut hput hle fun ha => ?_
    rw [if_neg (by simp [ha]), Function.update_self]
  · -- a writer that is done has no puts left
    intro hd
    rw [(h.task hT).donePut hd.1] at hmem
    cases hmem

theorem Inv.get (h : Inv seq base w) {id t i : Nat} {T : Task} (hT : (w.tasks id)[t]? = some T)
    {w' : World} (hs : w.endGet id t i T = some w') :
    Inv seq base w' ∧ Evolves base base w w' := by
  obtain ⟨isLeft, q, hget, rfl⟩ := endGet_cases hs
  have hw := h.task hT
  have hstage : T.writer.stage = .leaves := by
    by_contra hne
    rw [hw.noGets hne] at hget
    cases hget
  obtain ⟨o, -, hi⟩ := h.blob_of_task hT
  refine ⟨h.move hT rfl (DhtLe.refl _) .inl ?_ ?_ ?_, .move hT rfl (DhtLe.refl _)⟩
  · rintro k v (he | ⟨hne, -⟩)
    · exact .inl he
    · exact absurd hstage hne
  · exact hw.endGet hi.shape h.noZero hget
  · intro hd
    rw [hstage] at hd
    cases hd.1

theorem Inv.wait (h : Inv seq base w) {id t : Nat} {T : Task} (hT : (w.tasks id)[t]? = some T)
    {w' : World} (hs : w.endWait id t T = some w') :
    Inv seq base w' ∧ Evolves base base w w' := by
  obtain ⟨writer, hwait, rfl⟩ := endWait_cases hs
  have hw := h.task hT
  obtain ⟨o, -, hi⟩ := h.blob_of_task hT
  obtain ⟨hticket, hwriter⟩ := Task.settle_eq { T with writer := writer }
  have hsib : writer.leftSiblings = T.writer.leftSiblings ∧
      writer.rightSiblings = T.writer.rightSiblings ∧ writer.stage ≠ .leaves ∧
      T.writer.stage ≠ .done := by
    obtain ⟨-, -, ⟨hst, -, ps, -, rfl⟩ | ⟨hst, -, rfl⟩ | ⟨hst, rfl⟩⟩ :=
      Writer.endWait_cases hwait
    · simp [hst]
    · simp [hst]
    · simp [hst]
  obtain ⟨hl, hr, hstage, hrun⟩ := hsib
  refine ⟨h.move hT hticket (DhtLe.refl _) .inl ?_ ?_ ?_, .move hT hticket (DhtLe.refl _)⟩
  · intro k v he
    unfold Task.Entry
    rw [hticket, hwriter]
    refine he.imp_right fun he => ⟨hstage, ?_⟩
    rw [hl, hr]
    exact he.2
  · rw [hwriter]
    exact hw.endWait hi.shape hwait
  · exact fun hd => absurd hd.1 hrun

/-! ## Publishing -/

theorem Inv.next_none (h : Inv seq base w) :
    w.hist.vm.objHash (w.hist.vm.objCount + 1) = none := by
  obtain ⟨reqs, hrun⟩ := h.run
  exact (Blob.objInv hrun).next_none

/-- A call of the version manager keeps the published roots. -/
theorem Inv.evolves_hist (h : Inv seq base w) {req : VmRequest} {hist : VmHistory}
    (hs : w.hist.step req = some hist) {base' : Nat → PageMap}
    (hbase : ∀ {id : Nat} {o : ObjInfo}, w.hist.vm.objHash id = some o → base' id = base id) :
    Evolves base base' w { w with hist := hist } :=
  ⟨DhtLe.refl _, hbase, fun ho => VmHistory.step_roots hs h.next_none ho,
    fun _ => List.prefix_refl _⟩

theorem Inv.publishStep (h : Inv seq base w) {id t : Nat} {T : Task}
    (hT : (w.tasks id)[t]? = some T)
    (hdone : T.writer.stage = .done ∧ T.writer.result = true) {hist : VmHistory}
    (hs : w.hist.step (.publish T.query) = some hist) : Inv seq base { w with hist := hist } ∧
      Evolves base base w { w with hist := hist } := by
  refine ⟨?_, h.evolves_hist hs (fun _ => rfl)⟩
  obtain ⟨reqs, hrun⟩ := h.run
  have hok : TicketOk seq w.hist (.publish T.query) := trivial
  have hrun' := hrun.append (.single hok hs)
  have hobj := Blob.objInv hrun'
  obtain ⟨ob, -, hi⟩ := h.blob_of_task hT
  obtain rfl | ⟨_, _, hreq, _⟩ | ⟨_, _, _, hreq, _⟩ | ⟨_, _, _, _, hreq, _⟩ |
    ⟨interval, o, hreq, ho, hc, rfl⟩ := VmHistory.step_cases hs
  · exact h
  · cases hreq
  · cases hreq
  · cases hreq
  cases hreq
  rw [hi.id_eq] at *
  have hpre := o.publishObj_isPrefix T.query.version
  have hb := h.blob ho
  have hpos := hb.blob.window.pending.roots_pos
  constructor
  · exact ⟨_, hrun'⟩
  · intro i o' ho'
    have hblob := hobj.obj ho'
    by_cases hii : i = id
    · subst hii
      simp only [VManagement.setObj, Function.update_self, Option.some.injEq] at ho'
      subst ho'
      refine ⟨hblob, hb.id_pos, hb.issued_eq, ?_, hb.seqTicket, ?_⟩
      · intro n K hK
        have hlt := (List.getElem?_eq_some_iff.1 hK).1
        have hinfo := (hb.info hK).mono hpos hpre (by
          rw [ObjInfo.treeSize, ObjInfo.treeSize, ObjInfo.publishObj_allRoots])
          (Nat.le_of_lt hlt) []
        rwa [List.append_nil] at hinfo
      · intro r hr
        rw [ObjInfo.pageSize_of_isPrefix hpos hpre]
        have hget := List.getElem?_eq_getElem hpos
        rw [getElem?_of_isPrefix hpre hget] at hr
        exact hb.base (hget.trans hr)
    · simp only [VManagement.setObj, Function.update_of_ne hii] at ho' hblob ⊢
      have hb := h.blob ho'
      exact ⟨hblob, hb.id_pos, hb.issued_eq, hb.info, hb.seqTicket, hb.base⟩
  · intro i hnone
    by_cases hii : i = id
    · subst hii
      simp [VManagement.setObj] at hnone
    · simp only [VManagement.setObj, Function.update_of_ne hii] at hnone
      exact h.noBlob hnone
  · exact h.fresh
  · exact h.owner
  · exact h.task
  · intro i n hpub
    by_cases hii : i = id
    · subst hii
      simp only [Function.update_self, List.mem_cons] at hpub
      rcases hpub with hpub | hpub
      · rw [hi.version, Nat.add_right_cancel_iff] at hpub
        subst hpub
        exact ⟨T, hT, hdone⟩
      · exact h.published hpub
    · simp only [Function.update_of_ne hii] at hpub
      exact h.published hpub

/-- A publish request of a write, however it ends. -/
theorem Inv.publish (h : Inv seq base w) {id t : Nat} {T : Task} {outcome : RpcOutcome}
    (hT : (w.tasks id)[t]? = some T) {w' : World} (hs : w.publish id t outcome T = some w') :
    Inv seq base w' ∧ Evolves base base w w' := by
  -- the state of the write first, then the call on the version manager
  have hstate : ∀ state, Inv seq base (w.setTask id t { T with state := state }) ∧
      Evolves base base w (w.setTask id t { T with state := state }) :=
    fun state => ⟨h.setState hT state, .move hT rfl (DhtLe.refl _)⟩
  have hboth : ∀ {hist : VmHistory} (state : ExecState),
      T.writer.stage = .done ∧ T.writer.result = true →
      w.hist.step (.publish T.query) = some hist →
      Inv seq base { w.setTask id t { T with state := state } with hist := hist } ∧
        Evolves base base w { w.setTask id t { T with state := state } with hist := hist } := by
    intro hist state hd hstep
    obtain ⟨h1, e1⟩ := hstate state
    have hT1 : ((w.setTask id t { T with state := state }).tasks id)[t]? =
        some { T with state := state } := tasks_set_self hT
    obtain ⟨h2, e2⟩ := h1.publishStep hT1 hd hstep
    exact ⟨h2, e1.trans e2⟩
  obtain ⟨hd, ⟨hist, result, hstep, -, rfl⟩ | ⟨-, rfl⟩⟩ := publish_cases hs
  · exact hboth _ hd hstep
  · exact hstate _

/-! ## New blobs -/

theorem Inv.addObj (h : Inv seq base w) {o : ObjInfo} {req : VmRequest}
    (hok : TicketOk seq w.hist req)
    (hs : w.hist.step req = some { w.hist with vm := w.hist.vm.addObj o }) {r : Root}
    (hr : o.roots = [r]) {m : PageMap} (hm : RootDenotes w.dht r.pageSize m r) :
    Inv seq (Function.update base (w.hist.vm.objCount + 1) m)
        { w with hist := { w.hist with vm := w.hist.vm.addObj o } } ∧
      Evolves base (Function.update base (w.hist.vm.objCount + 1) m) w
        { w with hist := { w.hist with vm := w.hist.vm.addObj o } } := by
  have hnone := h.next_none
  refine ⟨?_, h.evolves_hist hs fun {id o'} ho' => Function.update_of_ne ?_ _ _⟩
  swap
  · rintro rfl
    rw [hnone] at ho'
    cases ho'
  obtain ⟨reqs, hrun⟩ := h.run
  have hobj' := Blob.objInv (hrun.append (.single hok hs))
  have hobj := Blob.objInv hrun
  have hnil := h.noBlob hnone
  have hps : o.pageSize = r.pageSize := by
    rw [ObjInfo.pageSize, hr]
    rfl
  constructor
  · exact ⟨_, hrun.append (.single hok hs)⟩
  · intro i o' ho'
    have hblob := hobj'.obj ho'
    have hpos := hobj'.id_pos ho'
    by_cases hii : i = w.hist.vm.objCount + 1
    · subst hii
      have htickets : w.tickets (w.hist.vm.objCount + 1) = [] := by
        rw [tickets, hnil]
        rfl
      simp only [VManagement.addObj, Function.update_self, Option.some.injEq] at ho'
      subst ho'
      rw [Function.update_self]
      show BlobInv _ _ _ _ _ _ _ (w.tickets _)
      rw [htickets]
      refine ⟨hblob, hpos, (hobj.fresh hnone).1.symm, fun hK => by simp at hK,
        fun _ _ _ hK => by simp at hK, ?_⟩
      intro r' hr'
      rw [hr, List.getElem?_cons_zero, Option.some.injEq] at hr'
      subst hr'
      rw [hps]
      exact hm
    · simp only [VManagement.addObj, Function.update_of_ne hii] at ho'
      rw [Function.update_of_ne hii]
      have hb := h.blob ho'
      exact ⟨hblob, hb.id_pos, hb.issued_eq, hb.info, hb.seqTicket, hb.base⟩
  · intro i hi
    by_cases hii : i = w.hist.vm.objCount + 1
    · rw [hii]
      exact hnil
    · simp only [VManagement.addObj, Function.update_of_ne hii] at hi
      exact h.noBlob hi
  · exact h.fresh
  · exact h.owner
  · intro i n T hT
    have hii : i ≠ w.hist.vm.objCount + 1 := by
      intro e
      have hT : (w.tasks i)[n]? = some T := hT
      rw [e, hnil] at hT
      cases hT
    rw [Function.update_of_ne hii]
    exact h.task hT
  · exact h.published

/-! ## Tickets -/

/-- The ticket that a request gets. -/
def ticketOf (o : ObjInfo) (range : Query) (append : Bool) (adv : List ProviderDesc) (R : Nat) :
    Ticket where
  reply :=
    { intervals := (ticket o (assigned o range append) R).intervals
      rootSize := R
      stableRoot := o.lastRoot }
  pageVersion := range.version
  adv := adv

theorem takeTicket_cases {range : Query} {append : Bool} {adv : List ProviderDesc} {w' : World}
    (hs : w.takeTicket range append adv = some w') :
    w' = w ∨ ∃ o R T hist, w.hist.vm.objHash range.id = some o ∧
      w.hist.step (.getTicket range append) = some hist ∧
      T = Task.start (ticketOf o range append adv R).reply range adv ∧
      hist = { w.hist with
        vm := w.hist.vm.setObj range.id (ticket o (assigned o range append) R)
        issued := Function.update w.hist.issued range.id (w.hist.issued range.id ++
          [{ assigned o range append with version := o.currentTicket }]) } ∧
      w' = { w with
        hist := hist
        tasks := Function.update w.tasks range.id (w.tasks range.id ++ [T]) } := by
  unfold takeTicket at hs
  cases ho : w.hist.vm.objHash range.id with
  | none =>
    have hstep : w.hist.step (.getTicket range append) = some w.hist := by
      simp [VmHistory.step, VManagement.exec, VManagement.getTicket, ho, VmHistory.recordTicket,
        VmHistory.recordPublish]
    simp only [VManagement.getTicket, ho, hstep, Option.some.injEq] at hs
    exact .inl hs.symm
  | some o =>
    cases hg : grow (u64 ((assigned o range append).offset + (assigned o range append).size))
        o.maxSize with
    | none =>
      simp only [VManagement.getTicket, ho, hg] at hs
      cases hs
    | some R =>
      cases hstep : w.hist.step (.getTicket range append) with
      | none =>
        simp only [VManagement.getTicket, ho, hg, hstep] at hs
        cases hs
      | some hist =>
        obtain ⟨R', hg', hhist⟩ := VmHistory.step_getTicket ho hstep
        rw [hg] at hg'
        cases hg'
        simp only [VManagement.getTicket, ho, hg, hstep, Option.some.injEq] at hs
        exact .inr ⟨o, R, _, hist, rfl, rfl, rfl, hhist, hs.symm⟩

section ticketOf

variable {id : Nat} {o : ObjInfo} {issued : List Query} {published : List Nat}
  (hw : Window id o issued published) (hb : issued.length + 1 < 2 ^ 32) (range : Query)
  (append : Bool) (adv : List ProviderDesc) (R : Nat)

include hw hb

theorem ticketOf_query : (ticketOf o range append adv R).query =
    { assigned o range append with version := issued.length + 1 } := by
  show IntervalList.lastKey (ticket o (assigned o range append) R).intervals = _
  rw [hw.ticket_intervals hb, IntervalList.lastKey_append]

theorem ticketOf_length :
    (ticketOf o range append adv R).reply.intervals.length = o.intervals.length + 1 := by
  show (ticket o (assigned o range append) R).intervals.length = _
  rw [hw.ticket_intervals hb, List.length_append, List.length_singleton]

theorem ticketOf_stableVersion :
    (ticketOf o range append adv R).stableVersion = o.roots.length - 1 := by
  have hcount := hw.pending.count
  rw [Ticket.stableVersion, ticketOf_query hw hb, ticketOf_length hw hb]
  show issued.length + 1 - (o.intervals.length + 1) = _
  omega

theorem ticketOf_outstanding : (ticketOf o range append adv R).outstanding = o.intervals := by
  rw [Ticket.outstanding, ticketOf_query hw hb]
  show IntervalList.erase (ticket o (assigned o range append) R).intervals _ = _
  rw [hw.ticket_intervals hb, IntervalList.erase, List.filter_append,
    List.filter_cons_of_neg (by simp), List.filter_nil, List.append_nil, List.filter_eq_self]
  intro e he
  have := (hw.pending.version_mem he).2
  simp only [bne_iff_ne]
  omega

/-- The new ticket is for whole pages of the blob. -/
theorem ticketOf_shape (hid : 0 < id) (hrange : range.id = id) (hv : range.version ≠ o.currentTicket)
    (hps : o.lastRoot.pageSize = o.pageSize)
    (hg : Geometry (seq id) id (ticket o (assigned o range append) R)
      (issued ++ [{ assigned o range append with version := o.currentTicket }])) :
    (ticketOf o range append adv R).Shape := by
  have hq := ticketOf_query hw hb range append adv R
  have hlen := Geometry.allRoots_length hw
  have hroot : (ticket o (assigned o range append) R).allRoots[issued.length + 1]? =
      some (newRoot o (assigned o range append) R) := by
    rw [Geometry.ticket_allRoots hw hb, List.getElem?_append_right (by omega), hlen, Nat.sub_self]
    rfl
  obtain ⟨hpos, hoff, hsize, hsize0, hlast⟩ := hg.fits hroot (by
    rw [List.getElem?_append_right (Nat.le_refl _), Nat.sub_self]
    rfl)
  have hfit : (assigned o range append).offset + (assigned o range append).size ≤ R := hlast
  have hct : o.currentTicket = issued.length + 1 := by
    rw [hw.counter, u32_of_lt hb]
  have hKps : (ticketOf o range append adv R).pageSize =
      (ticket o (assigned o range append) R).pageSize := hps
  rw [← hKps] at hpos hoff hsize
  refine .of_fits ?_ ?_ hpos ?_ ?_ ?_ ?_ ?_
  · rw [hq]
    simpa [hrange] using hid
  · rw [hq]
    show range.version ≠ issued.length + 1
    rw [← hct]
    exact hv
  · rw [hq]
    exact hoff
  · rw [hq]
    exact hsize
  · rw [hq]
    exact hsize0
  · rw [hq]
    exact hlast
  · rcases hg.size (List.mem_of_getElem? hroot) with h0 | ⟨m, hm, hlt⟩
    · have h0 : R = 0 := h0
      have hpos : 0 < (assigned o range append).size := hsize0
      omega
    · rw [← hKps] at hm
      exact ⟨m, hm, hlt⟩

end ticketOf

/-- The task of a new ticket, and its invariant. -/
theorem ticketOf_start {o : ObjInfo} {range : Query} {append : Bool} {adv : List ProviderDesc}
    {R : Nat} {T : Task} (hshape : (ticketOf o range append adv R).Shape)
    (hid : (ticketOf o range append adv R).query.id = range.id)
    (hsize : (ticketOf o range append adv R).query.size = range.size) {dht : Dht} {m : PageMap}
    (hroot : RootDenotes dht (ticketOf o range append adv R).pageSize m o.lastRoot)
    (hT : T = Task.start (ticketOf o range append adv R).reply range adv) :
    T.toTicket = ticketOf o range append adv R ∧
      WriterInv dht m (ticketOf o range append adv R) T.writer := by
  obtain ⟨writer, hstart, -, -, hinv⟩ := WriterInv.start hshape hroot
  rw [hid, hsize] at hstart
  have hstart : Writer.start (ticketOf o range append adv R).reply
      (pageKeys range.id range.version (ticketOf o range append adv R).reply.stableRoot.pageSize
        range.size) adv = some writer := hstart
  simp only [Task.start, hstart] at hT
  obtain ⟨h1, h2⟩ := Task.settle_eq
    { toTicket := ticketOf o range append adv R, writer := writer }
  subst hT
  exact ⟨h1, h2 ▸ hinv⟩

theorem tasks_ticket_old {id i n : Nat} {S T : Task} (hS : (w.tasks i)[n]? = some S) :
    (Function.update w.tasks id (w.tasks id ++ [T]) i)[n]? = some S := by
  by_cases hi : i = id
  · subst hi
    obtain ⟨hlt, -⟩ := List.getElem?_eq_some_iff.mp hS
    rw [Function.update_self, List.getElem?_append_left hlt]
    exact hS
  · rw [Function.update_of_ne hi]
    exact hS

/-- The tasks after a ticket are the old ones and the new one. -/
theorem tasks_ticket {id i n : Nat} {S T : Task}
    (hS : (Function.update w.tasks id (w.tasks id ++ [T]) i)[n]? = some S) :
    (w.tasks i)[n]? = some S ∨ i = id ∧ n = (w.tasks id).length ∧ S = T := by
  by_cases hi : i = id
  · subst hi
    rw [Function.update_self] at hS
    exact (getElem?_concat hS).imp_right fun hS => ⟨rfl, hS⟩
  · rw [Function.update_of_ne hi] at hS
    exact .inl hS

/-- The place of a new ticket among the tickets of its blob. -/
theorem ticketOf_info {dht : Dht} {m : PageMap} {id : Nat} {o : ObjInfo} {issued : List Query}
    {published : List Nat} {ks : List Ticket} (hb : BlobInv seq dht m id o issued published ks)
    (hbound : issued.length + 1 < 2 ^ 32) {range : Query} {append : Bool}
    {adv : List ProviderDesc} {R : Nat} (hrange : range.id = id)
    (hshape : (ticketOf o range append adv R).Shape) :
    TicketInfo id (ticket o (assigned o range append) R) (ks ++ [ticketOf o range append adv R])
      ks.length (ticketOf o range append adv R) := by
  have hw := hb.blob.window
  have hq := ticketOf_query hw hbound range append adv R
  have hstable := ticketOf_stableVersion hw hbound range append adv R
  have hlen := hb.length_eq
  have hcount := hw.pending.count
  have hroots := hw.pending.roots_pos
  have hlast := o.lastRoot_eq hroots
  have hall := Geometry.allRoots_length hw
  constructor
  · exact hshape
  · rw [hq]
    simpa using hrange
  · rw [hq, hlen]
  · exact hb.blob.geometry.pageSize (ObjInfo.mem_allRoots (List.mem_of_getElem? hlast))
  · have hroot : (ticket o (assigned o range append) R).allRoots[ks.length + 1]? =
        some (newRoot o (assigned o range append) R) := by
      rw [Geometry.ticket_allRoots hw hbound, List.getElem?_append_right (by omega), hall, hlen,
        Nat.sub_self]
      rfl
    rw [ObjInfo.treeSize_eq hroot]
    rfl
  · rw [hstable]
    exact hlast
  · rw [ticketOf_length hw hbound, hstable]
    omega
  · rw [ticketOf_outstanding hw hbound, hstable, List.take_left', hw.pending.keys, ← hb.issued_eq,
      List.map_drop]
    rfl

/-- One ticket on a blob. -/
theorem ticketOf_blob {dht : Dht} {m : PageMap} {id : Nat} {o : ObjInfo} {issued : List Query}
    {published : List Nat} {ks : List Ticket} (hb : BlobInv seq dht m id o issued published ks)
    (hbound : issued.length + 1 < 2 ^ 32) {range : Query} {append : Bool}
    {adv : List ProviderDesc} {R : Nat} (hrange : range.id = id)
    (hplaced : Placed (seq id) o range append)
    (hshape : (ticketOf o range append adv R).Shape)
    (hblob : Blob seq id (ticket o (assigned o range append) R)
      (issued ++ [{ assigned o range append with version := o.currentTicket }]) published) :
    BlobInv seq dht m id (ticket o (assigned o range append) R)
      (issued ++ [{ assigned o range append with version := o.currentTicket }]) published
      (ks ++ [ticketOf o range append adv R]) := by
  have hw := hb.blob.window
  have hlen := hb.length_eq
  have hcount := hw.pending.count
  have hall := Geometry.allRoots_length hw
  have hpre : o.allRoots <+: (ticket o (assigned o range append) R).allRoots := by
    rw [Geometry.ticket_allRoots hw hbound]
    exact List.prefix_append _ _
  have hroots : o.roots <+: (ticket o (assigned o range append) R).roots := List.prefix_refl _
  refine ⟨hblob, hb.id_pos, ?_, ?_, ?_, hb.base⟩
  · rw [List.map_append, hb.issued_eq, List.map_singleton, ticketOf_query hw hbound, hw.counter,
      u32_of_lt hbound]
  · intro t K hK
    rcases getElem?_concat hK with hK | ⟨rfl, rfl⟩
    · have hlt := (List.getElem?_eq_some_iff.1 hK).1
      exact (hb.info hK).mono hw.pending.roots_pos hroots
        (ObjInfo.treeSize_of_isPrefix hpre (by omega)) (Nat.le_of_lt hlt) _
    · exact ticketOf_info hb hbound hrange hshape
  · intro hseq t K hK
    rcases getElem?_concat hK with hK | ⟨rfl, rfl⟩
    · exact hb.seqTicket hseq hK
    · have hnil := hplaced.2.2.2.2.2.1 hseq
      rw [hnil, List.length_nil] at hcount
      rw [ticketOf_stableVersion hw hbound]
      omega

/-- What a ticket for the task `T` changes: the blob `id` is now `o`, with one more ticket `q`. -/
structure NewTicket (w w' : World) (id : Nat) (o : ObjInfo) (q : Query) (T : Task) : Prop where
  obj : w'.hist.vm.objHash id = some o
  objOther : ∀ {i : Nat}, i ≠ id → w'.hist.vm.objHash i = w.hist.vm.objHash i
  issued : w'.hist.issued id = w.hist.issued id ++ [q]
  issuedOther : ∀ {i : Nat}, i ≠ id → w'.hist.issued i = w.hist.issued i
  published : w'.hist.published = w.hist.published
  dht : w'.dht = w.dht
  tasks : w'.tasks = Function.update w.tasks id (w.tasks id ++ [T])

namespace NewTicket

variable {w' : World} {id : Nat} {o : ObjInfo} {q : Query} {T : Task}

theorem tickets_self (hn : NewTicket w w' id o q T) :
    w'.tickets id = w.tickets id ++ [T.toTicket] := by
  rw [tickets, hn.tasks, Function.update_self, List.map_append, List.map_singleton]
  rfl

theorem tickets_other (hn : NewTicket w w' id o q T) {i : Nat} (hi : i ≠ id) :
    w'.tickets i = w.tickets i := by
  rw [tickets, hn.tasks, Function.update_of_ne hi]
  rfl

theorem evolves (h : Inv seq base w) (hn : NewTicket w w' id o q T) {req : VmRequest}
    (hs : w.hist.step req = some w'.hist) : Evolves base base w w' := by
  refine ⟨hn.dht ▸ DhtLe.refl _, fun _ => rfl, VmHistory.step_roots hs h.next_none, fun i => ?_⟩
  by_cases hi : i = id
  · rw [hi, hn.tickets_self]
    exact List.prefix_append _ _
  · exact hn.tickets_other hi ▸ List.prefix_refl (w.tickets i)

end NewTicket

/-- A new ticket keeps the invariant when it extends its blob and starts on a stable snapshot, with
versions that no ticket of the blob has. -/
theorem Inv.newTicket (h : Inv seq base w) {w' : World} {id : Nat} {o : ObjInfo} {q : Query}
    {T : Task} (hn : NewTicket w w' id o q T)
    (hrun : ∃ reqs, Run VmHistory.step (TicketOk seq) {} reqs w'.hist)
    (hblob : BlobInv seq w.dht (base id) id o (w.hist.issued id ++ [q]) (w.hist.published id)
      (w.tickets id ++ [T.toTicket]))
    (hnew : ∀ {n : Nat} {K : Ticket}, (w.tickets id)[n]? = some K →
      K.pageVersion ≠ T.pageVersion ∧ K.query.version ≠ T.pageVersion ∧
        K.pageVersion ≠ T.query.version)
    (hle : T.stableVersion ≤ (w.tickets id).length)
    (hwriter : WriterInv w.dht (snapshotAt (base id) (w.tickets id) T.stableVersion) T.toTicket
      T.writer) :
    Inv seq base w' := by
  obtain ⟨_, hrun⟩ := hrun
  constructor
  · exact ⟨_, hrun⟩
  · intro i o' ho'
    by_cases hi : i = id
    · subst hi
      rw [hn.obj] at ho'
      cases ho'
      rw [hn.tickets_self, hn.issued, hn.published, hn.dht]
      exact hblob
    · have hobj := (Blob.objInv hrun).obj ho'
      rw [hn.objOther hi] at ho'
      have hb := h.blob ho'
      rw [hn.tickets_other hi, hn.dht]
      exact ⟨hobj, hb.id_pos, hb.issued_eq.trans (hn.issuedOther hi).symm, hb.info, hb.seqTicket,
        hb.base⟩
  · intro i hnone
    by_cases hi : i = id
    · rw [hi, hn.obj] at hnone
      cases hnone
    · rw [hn.objOther hi] at hnone
      rw [hn.tasks, Function.update_of_ne hi]
      exact h.noBlob hnone
  · intro i n n' K K' hK hK' hne
    by_cases hi : i = id
    · subst hi
      rw [hn.tickets_self] at hK hK'
      rcases getElem?_concat hK with hK | ⟨rfl, rfl⟩ <;>
        rcases getElem?_concat hK' with hK' | ⟨rfl, rfl⟩
      · exact h.fresh hK hK' hne
      · exact ⟨(hnew hK).1, (hnew hK).2.2⟩
      · exact ⟨(hnew hK').1.symm, (hnew hK').2.1.symm⟩
      · exact (hne rfl).elim
    · rw [hn.tickets_other hi] at hK hK'
      exact h.fresh hK hK' hne
  · intro k v hv
    rw [hn.dht] at hv
    obtain ⟨n, S, hS, he⟩ := h.owner hv
    refine ⟨n, S, ?_, he⟩
    rw [hn.tasks]
    exact tasks_ticket_old hS
  · intro i n S hS
    rw [hn.tasks] at hS
    rw [hn.dht]
    rcases tasks_ticket hS with hold | ⟨rfl, -, rfl⟩
    · by_cases hi : i = id
      · subst hi
        -- the snapshot of an old ticket is below the new one
        obtain ⟨o, ho, hinfo⟩ := h.blob_of_task hold
        have hlt := (List.getElem?_eq_some_iff.1 (tickets_at hold)).1
        have hstable := hinfo.stable_le
        rw [hn.tickets_self, snapshotAt_append _ (by omega)]
        exact h.task hold
      · rw [hn.tickets_other hi]
        exact h.task hold
    · rw [hn.tickets_self, snapshotAt_append _ hle]
      exact hwriter
  · intro i n hpub
    rw [hn.published] at hpub
    obtain ⟨S, hS, hd⟩ := h.published hpub
    refine ⟨S, ?_, hd⟩
    rw [hn.tasks]
    exact tasks_ticket_old hS

theorem Inv.ticketStep (h : Inv seq base w) {range : Query} {append : Bool}
    {adv : List ProviderDesc} (hok : World.Ok seq w (.ticket range append adv)) {w' : World}
    (hs : w.takeTicket range append adv = some w') :
    Inv seq base w' ∧ Evolves base base w w' := by
  obtain rfl | ⟨o, R, T, hist, ho, hstep, hT, hhist, hw'⟩ := takeTicket_cases hs
  · exact ⟨h, .refl _ _⟩
  have hn : NewTicket w w' range.id (ticket o (assigned o range append) R)
      { assigned o range append with version := o.currentTicket } T := by
    subst hw' hhist
    constructor
    · exact Function.update_self ..
    · exact fun hi => Function.update_of_ne hi _ _
    · exact Function.update_self ..
    · exact fun hi => Function.update_of_ne hi _ _
    · rfl
    · rfl
    · rfl
  have hstep : w.hist.step (.getTicket range append) = some w'.hist := by
    rw [hw']
    exact hstep
  clear hw' hs hhist
  have hb := h.blob ho
  have hw := hb.blob.window
  have hbound : (w.hist.issued range.id).length + 1 < 2 ^ 32 := hok.1.1
  have hct : o.currentTicket = (w.hist.issued range.id).length + 1 := by
    rw [hw.counter, u32_of_lt hbound]
  have hlast := o.lastRoot_eq hw.pending.roots_pos
  have hps := hb.blob.geometry.pageSize (ObjInfo.mem_allRoots (List.mem_of_getElem? hlast))
  obtain ⟨hfresh, hold⟩ := hok.2 o ho
  obtain ⟨reqs, hrun⟩ := h.run
  have hrun' := hrun.append (.single hok.1 hstep)
  have hblob := (Blob.objInv hrun').obj hn.obj
  rw [hn.issued, hn.published] at hblob
  have hshape := ticketOf_shape hw hbound range append adv R hb.id_pos rfl hfresh hps
    hblob.geometry
  have hq := ticketOf_query hw hbound range append adv R
  have hstable := ticketOf_stableVersion hw hbound range append adv R
  obtain ⟨hticket, hwriter⟩ := ticketOf_start hshape (by rw [hq]; simp) (by rw [hq]; simp)
    (hps.symm ▸ h.root_denotes ho hlast) hT
  refine ⟨h.newTicket hn ⟨_, hrun'⟩ ?_ ?_ ?_ ?_, hn.evolves h hstep⟩
  · rw [hticket]
    exact ticketOf_blob hb hbound rfl (hok.1.2 o ho) hshape hblob
  · intro n K hK
    rw [tickets, List.getElem?_map, Option.map_eq_some_iff] at hK
    obtain ⟨S, hS, rfl⟩ := hK
    obtain ⟨hpage, hquery, hnext⟩ := hold S (List.mem_of_getElem? hS)
    rw [hticket, hq, ← hct]
    exact ⟨hpage, hquery, hnext⟩
  · have hcount := hw.pending.count
    have hlen := hb.length_eq
    rw [hticket, hstable]
    omega
  · rw [hticket, hstable]
    exact hwriter

/-! ## Runs -/

/-- **One step.** The invariant is kept, with a base map for the blob that the step may make. -/
theorem inv_step (h : Inv seq base w) {a : Action} (hok : World.Ok seq w a) {w' : World}
    (hs : w.step a = some w') : ∃ base', Inv seq base' w' ∧ Evolves base base' w w' := by
  cases a with
  | create ps rc =>
    obtain ⟨hist, hstep, rfl⟩ := step_create_hist hs
    have hhist : hist =
        { w.hist with vm := w.hist.vm.addObj (ObjInfo.new (w.hist.vm.objCount + 1) ps rc) } := by
      simp only [VmHistory.step, VManagement.exec, VManagement.create, Option.some.injEq] at hstep
      exact hstep.symm
    subst hhist
    have hok : TicketOk seq w.hist (.create ps rc) := trivial
    exact ⟨_, h.addObj hok hstep rfl (m := fun _ => none) ⟨rfl, .inl ⟨rfl, fun _ => rfl⟩⟩⟩
  | clone id version =>
    obtain ⟨hist, hstep, rfl⟩ := step_clone_hist hs
    obtain rfl | ⟨_, _, hreq, _⟩ | ⟨id', version', o, hreq, ho, rfl⟩ | ⟨_, _, _, _, hreq, _⟩ |
      ⟨_, _, hreq, _⟩ := VmHistory.step_cases hstep
    · exact ⟨base, h, .refl _ _⟩
    · cases hreq
    · cases hreq
      have hb := (h.blob ho).blob
      have hmem := VManagement.rootAt_mem hb.window.pending.roots_pos version
      obtain ⟨v, hv⟩ := List.mem_iff_getElem?.1 hmem
      have hd := h.root_denotes ho hv
      rw [← hb.geometry.pageSize (ObjInfo.mem_allRoots hmem)] at hd
      have hok : TicketOk seq w.hist (.clone id version) := trivial
      exact ⟨_, h.addObj hok hstep rfl hd⟩
    · cases hreq
    · cases hreq
  | ticket range append adv => exact ⟨base, h.ticketStep hok hs⟩
  | put id t i outcome =>
    obtain ⟨T, hT, hs⟩ := step_put hs
    exact ⟨base, h.put hT hs⟩
  | get id t i =>
    obtain ⟨T, hT, -, hs⟩ := step_get hs
    exact ⟨base, h.get hT hs⟩
  | wait id t =>
    obtain ⟨T, hT, -, hs⟩ := step_wait hs
    exact ⟨base, h.wait hT hs⟩
  | publish id t outcome =>
    obtain ⟨T, hT, -, hs⟩ := step_send hs
    exact ⟨base, h.publish hT hs⟩
  | stop id t =>
    obtain ⟨T, hT, -, rfl⟩ := step_stop hs
    exact ⟨base, h.setState hT _, .move hT rfl (DhtLe.refl _)⟩

/-- **Whole runs** keep the invariant, and everything that is published. -/
theorem inv_run (h : Inv seq base w) {as : List Action} {w' : World}
    (hrun : Run step (World.Ok seq) w as w') :
    ∃ base', Inv seq base' w' ∧ Evolves base base' w w' := by
  refine hrun.inv (P := fun v => ∃ base', Inv seq base' v ∧ Evolves base base' w v) ?_
    ⟨base, h, .refl _ _⟩
  rintro u v a ⟨base', hu, he⟩ hok hs
  obtain ⟨base'', hv, he'⟩ := inv_step hu hok hs
  exact ⟨base'', hv, he.trans he'⟩

end World

end BlobSeer
