import BlobSeer.Client.ReadPlan
import BlobSeer.Client.Solo

/-!
# A handler and its own writes

When there is no other client and nothing fails, `latest_root` is the root of the version manager
after `create` and `get_latest`, and as long as the writes since then stay within
`latest_root.current_size`: then the version is all that a write changes, and a read of the range
returns what was written (`Solo.Inv.write`). A write that appends, or ends beyond
`current_size`, leaves the old sizes in `latest_root`.
-/

namespace BlobSeer

open Lib
open VManagement (assigned ticket newRoot publishObj grow)

/-! ## What a write leaves behind -/

namespace VManagement

/-- A ticket that is published before another one is given out. -/
theorem publishObj_ticket {o : ObjInfo} (h : o.intervals = []) (query : Query) (maxSize : Nat) :
    publishObj (ticket o query maxSize) o.currentTicket =
      { ticket o query maxSize with
        roots := o.roots ++ [newRoot o query maxSize]
        intervals := [] } := by
  simp [publishObj, ticket, h, IntervalList.insert, IntervalList.complete, retire]

theorem lastRoot_publishObj_ticket {o : ObjInfo} (h : o.intervals = []) (query : Query)
    (maxSize : Nat) : (publishObj (ticket o query maxSize) o.currentTicket).lastRoot =
      newRoot o query maxSize := by
  rw [publishObj_ticket h, ObjInfo.lastRoot]
  simp

/-- The growth loop has nothing to do. -/
theorem grow_of_le {last maxSize : Nat} (h : last ≤ maxSize) : grow last maxSize = some maxSize := by
  rw [grow, growLoop, if_neg (Nat.not_lt.mpr h)]

end VManagement

/-- The write `c` was made in the state `s` and has returned `true` in the state `s'`, with nothing
else happening in between. -/
structure Wrote (retryCount : Nat) (s : Writers) (c : WriteCall) (s' : Writers) (T : Task) : Prop where
  inv : s'.Inv retryCount
  world : ∃ base, World.Inv (fun _ => true) base s'.world
  size : 0 < c.size
  upload : ∃ u, s'.uploads = s.uploads ++ [u] ∧ u.toWriteCall = c ∧
    u.task = some (s.world.tasks c.id).length ∧ ∀ r ∈ u.sent, r ∈ u.acked
  task : (s'.world.tasks c.id)[(s.world.tasks c.id).length]? = some T
  obj : ∃ o R, s.world.hist.vm.objHash c.id = some o ∧
    grow (u64 ((assigned o c.range c.append).offset + c.size)) o.maxSize = some R ∧
    T.query = { assigned o c.range c.append with version := o.currentTicket } ∧
    s'.world.hist.vm.objHash = Function.update s.world.hist.vm.objHash c.id
      (some (publishObj (ticket o (assigned o c.range c.append) R) o.currentTicket))

/-- A write has sent its pages. -/
theorem During.start {retryCount : Nat} {s s' : Writers} {c : WriteCall} (h : s.Inv retryCount)
    (hworld : ∃ base, World.Inv (fun _ => true) base s.world) (hok : s.Ok (.execWrite c))
    (hs : s.step retryCount (.execWrite c) = some s') : During retryCount s c s' := by
  have hinv := h.step hok hs
  simp only [Writers.step] at hs
  obtain ⟨u, hu, rfl⟩ := Option.map_eq_some_iff.mp hs
  obtain ⟨hcall, htask, -⟩ : u.toWriteCall = c ∧ u.task = none ∧ u.Inv retryCount :=
    Upload.Inv.execWrite hu
  obtain ⟨-, -, -, hrequested, hflight⟩ := WriteCall.execWrite_cases hu
  refine ⟨hinv, fun _ => hworld, u, rfl, hcall, fun r hr => .inl ?_, .waiting hrequested htask rfl⟩
  rw [hflight]
  exact hr

theorem During.wrote {retryCount : Nat} {s₀ s : Writers} {c : WriteCall}
    (h : During retryCount s₀ c s)
    (hempty : ∀ {o : ObjInfo}, s₀.world.hist.vm.objHash c.id = some o → o.intervals = []) {T : Task}
    (htask : ∃ u, s.uploads[s₀.uploads.length]? = some u ∧ s.taskOf u = some T)
    (hret : T.state = .returned true) : Wrote retryCount s₀ c s T := by
  obtain ⟨u, huploads, hcall, hclean, hphase⟩ := h.upload
  obtain ⟨u', hu', hT⟩ := htask
  rw [huploads, List.getElem?_concat_length] at hu'
  cases hu'
  unfold Writers.taskOf at hT
  cases hphase with
  | waiting _ htask =>
    rw [htask] at hT
    cases hT
  | refused _ htask =>
    rw [htask] at hT
    cases hT
  | @granted o T' hist _ hall htask ho hticket hentry hquery hsize hpublish =>
    have hid : u.id = c.id := congrArg WriteCall.id hcall
    simp only [htask, hid] at hT
    rw [hentry] at hT
    cases hT
    have hpos : 0 < c.size := by
      by_contra h0
      have hfalse := hsize (Nat.eq_zero_of_not_pos h0)
      rw [hret] at hfalse
      cases hfalse
    obtain ⟨hne, -⟩ | ⟨-, hstep⟩ := hpublish
    · exact absurd hret hne
    have hrange : c.range.id = c.id := rfl
    have hobj : s₀.world.hist.vm.objHash c.range.id = some o := ho
    obtain ⟨R, hgrow, rfl⟩ := VmHistory.step_getTicket hobj hticket
    have hassigned : (assigned o c.range c.append).size = c.size := VManagement.assigned_size ..
    rw [hassigned] at hgrow
    refine ⟨h.inv, h.world hpos, hpos, ⟨u, huploads, hcall, htask, ?_⟩, hentry, o, R, ho, hgrow,
      hquery, ?_⟩
    · intro r hr
      rcases hclean r hr with hr | hr
      · rw [hall] at hr
        exact absurd hr List.not_mem_nil
      · exact hr
    · have hqid : T.query.id = c.id := by
        rw [hquery]
        exact VManagement.assigned_id ..
      have hqversion : T.query.version = o.currentTicket := by
        rw [hquery]
      have hcontains : (ticket o (assigned o c.range c.append) R).intervals.contains
          o.currentTicket = true := by
        simp [ticket, hempty ho, IntervalList.insert, IntervalList.contains]
      have hobj : (s₀.world.hist.vm.setObj c.range.id
          (ticket o (assigned o c.range c.append) R)).objHash T.query.id =
            some (ticket o (assigned o c.range c.append) R) := by
        rw [hqid]
        exact Function.update_self ..
      simp only [VmHistory.step, VManagement.exec, VManagement.publish, hobj, hqversion, hcontains,
        if_true, Option.some.injEq] at hstep
      rw [← hstep]
      dsimp only [VManagement.setObj]
      rw [hqid, hrange, Function.update_idem]

/-! ## Reading it back -/

/-- A provider has the page that it has acknowledged last. -/
theorem Writers.page_eq {retryCount : Nat} {s : Writers} {us : List Upload} {u : Upload}
    (hs : s.uploads = us ++ [u]) (hu : u.Inv retryCount) (hacked : ∀ r ∈ u.sent, r ∈ u.acked)
    {i k : Nat} (hi : i < u.pages) (h1 : i * u.replicaCount ≤ k) (h2 : k < (i + 1) * u.replicaCount)
    {p : ProviderDesc} (hp : u.adv[k]? = some p) :
    s.page p (u.pageKey i) = some (u.pageBytes i) := by
  have hmul : (i + 1) * u.replicaCount ≤ u.pages * u.replicaCount := Nat.mul_le_mul_right _ hi
  obtain ⟨r, hr, rfl⟩ := hu.all k (by omega)
  obtain ⟨j, -, hcopy⟩ := hu.sent r hr
  cases hcopy.page_eq h1 h2
  have hadv : r.adv = p := Option.some.inj (hcopy.adv.symm.trans hp)
  have hfound : (u.acked.reverse.find? fun r => decide (r.adv = p ∧ r.key = u.pageKey i)).isSome =
      true := by
    rw [List.find?_isSome]
    exact ⟨r, List.mem_reverse.mpr (hacked r hr), decide_eq_true ⟨hadv, hcopy.key⟩⟩
  obtain ⟨r', hr'⟩ := Option.isSome_iff_exists.mp hfound
  have hmem := List.mem_reverse.mp (List.mem_of_find?_eq_some hr')
  have hkey := List.find?_some hr'
  rw [decide_eq_true_eq] at hkey
  obtain ⟨j', -, hcopy'⟩ := hu.sent r' (hu.acked r' hmem)
  have hj : j' = i := by
    have := hcopy'.key.symm.trans hkey.2
    simpa [WriteCall.pageKey] using this
  rw [Writers.page, hs, List.flatMap_append, List.flatMap_singleton, List.reverse_append,
    List.find?_append, hr', Option.some_or, Option.map_some, hcopy'.value, hj]

namespace Wrote

variable {retryCount : Nat} {s s' : Writers} {c : WriteCall} {T : Task}

/-- The upload of the write, and what its ticket holds of it. -/
theorem holds (h : Wrote retryCount s c s' T) : ∃ u, s'.uploads = s.uploads ++ [u] ∧
    u.toWriteCall = c ∧ u.Inv retryCount ∧ 0 < c.replicaCount ∧ (∀ r ∈ u.sent, r ∈ u.acked) ∧
    Writers.Holds c T.toTicket := by
  obtain ⟨u, huploads, rfl, htask, hacked⟩ := h.upload
  have hu : u ∈ s'.uploads := by
    rw [huploads]
    exact List.mem_append_right _ (List.mem_singleton_self u)
  obtain ⟨hinv, hrc⟩ := h.inv.upload u hu
  obtain ⟨T', hT', hholds⟩ := h.inv.task u hu _ htask
  rw [h.task] at hT'
  cases hT'
  exact ⟨u, huploads, rfl, hinv, hrc, hacked, hholds⟩

/-- Every provider of a page of the write has it. -/
theorem serves (h : Wrote retryCount s c s' T) (hadv : ∀ p ∈ c.adv, p.empty = false) {i : Nat}
    (hi : i < c.pages) : Serves s'.answers (T.page (T.first + i)) (c.pageBytes i) := by
  obtain ⟨u, huploads, rfl, hinv, hrc, hacked, hholds⟩ := h.holds
  have hkey : (T.page (T.first + i)).pageKey = u.pageKey i := by
    show T.pageKey _ = _
    rw [Ticket.pageKey, WriteCall.pageKey, hholds.id, hholds.pageVersion, hholds.pageSize,
      Nat.add_sub_cancel_left]
  have hlen := hinv.adv_length hrc hi
  have hproviders : (T.page (T.first + i)).providers =
      (u.adv.drop (i * u.replicaCount)).take u.replicaCount := by
    show replicas _ _ _ = _
    rw [Nat.add_sub_cancel_left, hholds.replicaCount, hholds.adv]
    exact Writers.replicas_eq (hinv.counters i hi) hlen
  rw [Nat.succ_mul] at hlen
  refine ⟨?_, ?_⟩
  · rw [hproviders]
    refine List.ne_nil_of_length_pos ?_
    rw [List.length_take, List.length_drop]
    omega
  · intro p hp
    rw [hproviders] at hp
    obtain ⟨n, hn⟩ := List.mem_iff_getElem?.mp hp
    rw [List.getElem?_take, List.getElem?_drop] at hn
    split at hn
    case isFalse => cases hn
    next hlt =>
    refine ⟨hadv p (List.mem_of_getElem? hn), ?_⟩
    rw [hkey]
    refine Writers.page_eq huploads hinv hacked hi (Nat.le_add_right _ n) ?_ hn
    rw [Nat.succ_mul]
    omega

/-- The new root, its pages, and where they are. -/
theorem newest (h : Wrote retryCount s c s' T) {base₀ : Nat → PageMap}
    (hw₀ : World.Inv (fun _ => true) base₀ s.world)
    (hempty : ∀ {o : ObjInfo}, s.world.hist.vm.objHash c.id = some o → o.intervals = []) {o : ObjInfo}
    (ho : s'.world.hist.vm.objHash c.id = some o) :
    o.roots[(s.world.tasks c.id).length + 1]? = some o.lastRoot := by
  obtain ⟨o₀, R, ho₀, -, -, hobj⟩ := h.obj
  rw [hobj, Function.update_self] at ho
  cases ho
  have hb := hw₀.blob ho₀
  have hlen : (s.world.tasks c.id).length + 1 = o₀.roots.length := by
    have h1 := hb.length_eq
    have h2 := hb.blob.window.pending.count
    rw [hempty ho₀, List.length_nil] at h2
    rw [World.tickets, List.length_map] at h1
    omega
  rw [VManagement.lastRoot_publishObj_ticket (hempty ho₀),
    VManagement.publishObj_ticket (hempty ho₀), hlen]
  exact List.getElem?_concat_length

/-- The range of a ticket is the pages of its write. -/
structure WholePages (c : WriteCall) (T : Task) : Prop where
  pageSize : T.pageSize = c.pageSize
  pos : 0 < c.pageSize
  offset : T.query.offset = T.first * c.pageSize
  size : c.size = c.pages * c.pageSize
  query : T.query.size = c.size
  last : T.final + 1 = T.first + c.pages
  pages : 0 < c.pages
  count : c.pages < 2 ^ 32
  bound : (T.first + c.pages) * c.pageSize < 2 ^ 64

theorem wholePages (h : Wrote retryCount s c s' T) : WholePages c T := by
  obtain ⟨base, hw⟩ := h.world
  obtain ⟨o, -, hinfo⟩ := hw.blob_of_task h.task
  obtain ⟨u, -, rfl, hinv, hrc, -, hholds⟩ := h.holds
  have hshape := hinfo.shape
  have hpos := hinv.pageSize
  have hsize : u.size = u.pages * u.pageSize := by
    rw [hinv.pages_eq]
    exact (Nat.div_mul_cancel (Nat.dvd_of_mod_eq_zero hinv.aligned)).symm
  have hlast : T.final + 1 = T.first + u.pages := by
    have hmul : (T.final + 1 - T.first) * u.pageSize = u.pages * u.pageSize := by
      rw [← hsize, ← hholds.size, hshape.size, hholds.pageSize]
    have := Nat.eq_of_mul_eq_mul_right hpos hmul
    have := hshape.le
    omega
  have hn : 0 < u.pages := by
    have := h.size
    rw [hsize] at this
    exact Nat.pos_of_mul_pos_right this
  refine ⟨hholds.pageSize, hpos, ?_, hsize, hholds.size, hlast, hn, ?_, ?_⟩
  · rw [hshape.offset, hholds.pageSize]
  · have hcounter := hinv.counters (u.pages - 1) (by omega)
    rw [Nat.sub_add_cancel hn] at hcounter
    have := Nat.le_mul_of_pos_right u.pages hrc
    omega
  · rw [← hlast, ← hholds.pageSize]
    exact hshape.layout.end_lt

/-- A buffer that has the bytes of every page of a write has those of its range. -/
theorem WholePages.bytes (h : WholePages c T) {buffer : Nat → UInt8}
    (hbytes : ∀ i < c.pages, ∀ b < c.pageSize,
      buffer (i * c.pageSize + b) = (c.page i).getD b 0) {b : Nat} (hb : b < c.size) :
    buffer b = c.buffer b := by
  have hmod : b / c.pageSize * c.pageSize + b % c.pageSize = b := Nat.div_add_mod' b _
  have hlt : b / c.pageSize < c.pages := by
    rw [h.size] at hb
    exact Nat.div_lt_of_lt_mul (Nat.mul_comm .. ▸ hb)
  have hbyte := hbytes _ hlt (b % c.pageSize) (Nat.mod_lt _ h.pos)
  rw [hmod, WriteCall.page, List.getD_eq_getElem?_getD, List.getElem?_map,
    List.getElem?_range (Nat.mod_lt _ h.pos), Option.map_some, Option.getD_some, hmod] at hbyte
  exact hbyte

/-- A read of pages of `2 ^ 32` bytes or more leaves some byte of the buffer as it is. -/
theorem WholePages.unread (h : WholePages c T) (hlong : 2 ^ 32 ≤ c.pageSize) {answers : Answers}
    {rand : Nat → Nat → Nat} {locate : Nat → Query → Root → Option (Bool × List RandomSelect)}
    {root : Root} (hps : root.pageSize = c.pageSize) {version : Nat} {buffer buffer' : Nat → UInt8}
    {result : Bool} (hread : readRoot answers rand locate root version T.query.offset c.size buffer =
      some (.returned result buffer')) : ∃ b < c.size, buffer' b = buffer b := by
  have hsize : 0 < c.size := by
    rw [h.size]
    exact Nat.mul_pos h.pages h.pos
  have hend : T.query.offset + c.size < 2 ^ 64 := by
    rw [h.offset, h.size, ← Nat.add_mul]
    exact h.bound
  have htouched : touchedPages c.pageSize T.query.offset c.size = c.pages := by
    rw [← leafCount_eq h.pos hsize hend, h.offset, h.size]
    exact leafCount_aligned h.pos h.bound
  have hn : touchedPages c.pageSize T.query.offset c.size < 2 ^ 32 := by
    rw [htouched]
    exact h.count
  have hfirst : wholePage c.pageSize 0 ∈ readPlan c.pageSize T.query.offset c.size := by
    rw [h.offset, h.size, readPlan_aligned h.pos h.pages h.bound h.count]
    exact List.mem_map.mpr ⟨0, List.mem_range.mpr h.pages, rfl⟩
  obtain ⟨b, hb, hfree⟩ := readPlan_unwritten h.pos hsize hend hn hfirst hlong
  exact ⟨b, hb, readRoot_frame hread (hps ▸ hfree)⟩

/-- A read of the range from the new root returns the bytes of the write. -/
theorem readsBack (h : Wrote retryCount s c s' T) (hshort : c.pageSize < 2 ^ 32)
    (hadv : ∀ p ∈ c.adv, p.empty = false)
    {o : ObjInfo} (ho : s'.world.hist.vm.objHash c.id = some o)
    (hroot : o.roots[(s.world.tasks c.id).length + 1]? = some o.lastRoot)
    (rand : Nat → Nat → Nat) (sched : Nat → Nat) (buffer : Nat → UInt8) :
    ∃ fuel0, ∀ fuel, fuel0 ≤ fuel → ∃ buffer',
      readRoot s'.answers rand (readRecordLocations (fun _ => s'.world.dht) sched fuel) o.lastRoot 0
        T.query.offset c.size buffer = some (.returned true buffer') ∧
      ∀ b < c.size, buffer' b = c.buffer b := by
  obtain ⟨base, hw⟩ := h.world
  obtain ⟨o', ho', hinfo⟩ := hw.blob_of_task h.task
  rw [ho] at ho'
  cases ho'
  have hb := hw.blob ho
  have hp := h.wholePages
  have hps : o.lastRoot.pageSize = c.pageSize := by
    rw [hw.pageSize_eq ho hroot, ← hinfo.pageSize, hp.pageSize]
  have hfits : (T.first + c.pages) * c.pageSize ≤ o.lastRoot.node.size := by
    have hissued := hb.issued_at (World.tickets_at h.task)
    have hlast := (hb.blob.geometry.fits (ObjInfo.allRoots_of_roots hroot) hissued).2.2.2.2
    rw [Nat.add_mul, ← hp.offset, ← hp.size, ← hp.query]
    exact hlast
  -- what the reader finds for the pages of the range
  have hpage : ∀ x, T.first ≤ x → x < T.first + c.pages →
      snapshotAt (base c.id) (s'.world.tickets c.id) ((s.world.tasks c.id).length + 1) x =
        some (T.page x) := by
    intro x h1 h2
    have := hp.last
    rw [BlobInv.snapshot_succ (World.tickets_at h.task)]
    exact Write.apply_of_covers (W := T.write) ⟨h1, by show x ≤ T.final; omega⟩ _
  let range : Query := ⟨o.lastRoot.node.id, o.lastRoot.node.version,
    T.first * o.lastRoot.pageSize, c.pages * o.lastRoot.pageSize⟩
  have hfirst : range.offset = T.first * o.lastRoot.pageSize := rfl
  have hlength : range.size = c.pages * o.lastRoot.pageSize := rfl
  obtain ⟨fuel0, hread⟩ := hw.read ho hroot hp.pages (by have := hp.count; omega)
    (fun x h1 h2 => by rw [hpage x h1 h2]; exact Option.some_ne_none _) (fun _ => DhtLe.refl _) sched
    hfirst hlength
  refine ⟨fuel0, fun fuel hfuel => ?_⟩
  let vadv := (List.range' T.first c.pages).map fun x =>
    (snapshotAt (base c.id) (s'.world.tickets c.id) ((s.world.tasks c.id).length + 1) x).getD {}
  have hvadv : ∀ i < c.pages, (c.page i).length = o.lastRoot.pageSize ∧
      Serves s'.answers (vadv.getD i {}) (c.page i) := by
    intro i hi
    have hleaf : vadv.getD i {} = T.page (T.first + i) := by
      rw [List.getD_eq_getElem?_getD, List.getElem?_map, List.getElem?_range' hi, Nat.one_mul,
        Option.map_some, Option.getD_some, hpage _ (by omega) (by omega), Option.getD_some]
    rw [hleaf, hps, ← WriteCall.pageBytes_eq_page hshort]
    exact ⟨(WriteCall.pageBytes_length c i).trans (u32_of_lt hshort), h.serves hadv hi⟩
  obtain ⟨buffer', hresult, hbytes⟩ : ∃ buffer', readRoot s'.answers rand
      (readRecordLocations (fun _ => s'.world.dht) sched fuel) o.lastRoot 0
      (T.first * o.lastRoot.pageSize) (c.pages * o.lastRoot.pageSize) buffer =
        some (.returned true buffer') ∧ ∀ i < c.pages, ∀ b < o.lastRoot.pageSize,
          buffer' (i * o.lastRoot.pageSize + b) = (c.page i).getD b 0 :=
    readRoot_aligned (hps ▸ hp.pos) (hps ▸ hshort) hp.pages (hps ▸ hp.bound) hp.count (hps ▸ hfits)
      (by simp) (hread fuel hfuel) hvadv buffer
  rw [hps, ← hp.offset, ← hp.size] at hresult
  rw [hps] at hbytes
  exact ⟨buffer', hresult, fun b hb => hp.bytes hbytes hb⟩

end Wrote

/-! ## Whole sessions -/

/-- A blob whose tickets are all published. -/
structure ObjInfo.Settled (id : Nat) (o : ObjInfo) : Prop where
  intervals : o.intervals = []
  progressSize : o.progressSize = o.lastRoot.currentSize
  id : o.lastRoot.node.id = id

/-- A ticket that is published before another one is given out leaves the blob settled. -/
theorem ObjInfo.Settled.write {id : Nat} {o : ObjInfo} (h : o.Settled id) {query : Query}
    (hid : query.id = id) (maxSize : Nat) :
    (publishObj (ticket o query maxSize) o.currentTicket).Settled id := by
  have hlast := VManagement.lastRoot_publishObj_ticket h.intervals query maxSize
  refine ⟨?_, ?_, ?_⟩
  · rw [VManagement.publishObj_ticket h.intervals]
  · rw [hlast, VManagement.publishObj_ticket h.intervals]
    dsimp only [ticket, newRoot]
    rw [h.progressSize]
  · rw [hlast]
    exact hid

namespace Solo

/-- The handler has the page size and the replica count of its blob, and its whole root unless a
write has grown the blob since: then it has too small a size. -/
structure Inv (retryCount : Nat) (s : Solo) : Prop where
  writers : s.writers.Inv retryCount
  world : ∃ base, World.Inv (fun _ => true) base s.writers.world
  settled : ∀ {id : Nat} {o : ObjInfo}, s.vm.objHash id = some o → o.Settled id
  pageSize : (s.vm.getRoot s.handler.id 0).pageSize = s.handler.latestRoot.pageSize
  replicaCount : (s.vm.getRoot s.handler.id 0).replicaCount = s.handler.latestRoot.replicaCount
  synced : s.grown = false → s.InSync
  stale : s.grown = true →
    s.handler.latestRoot.currentSize < (s.vm.getRoot s.handler.id 0).currentSize

/-- What a write that returns `true` is made of. -/
theorem execWrite_cases {retryCount : Nat} {s s' : Solo} {c : WriteCall} {acts : List WriterAction}
    (hs : s.execWrite retryCount c acts = some s') :
    ∃ w T, s.writers.step retryCount (.execWrite c) = some w ∧
      Run (Writers.step retryCount)
        (fun _ a => a.Own s.writers.uploads.length c.id (s.writers.world.tasks c.id).length = true)
        w acts s'.writers ∧
      s.taskIn s'.writers = some T ∧ T.state = .returned true ∧
      s'.handler = setVersion s.handler T.query.version ∧
      s'.grown = (s.grown || c.append ||
        decide (c.offset + c.size > s.handler.latestRoot.currentSize)) := by
  unfold execWrite at hs
  dsimp only at hs
  split at hs
  · next hown =>
    split at hs
    · cases hs
    next w' hexec =>
    split at hs
    · cases hs
    next T hT =>
    split at hs
    · next hret =>
      cases hs
      cases Run.of_exec hexec with
      | @cons _ w _ _ _ _ hstep hrun =>
        exact ⟨w, T, hstep, hrun.of_forall (List.all_eq_true.mp hown), hT, hret, rfl, rfl⟩
    · cases hs
  · cases hs

namespace Inv

variable {retryCount : Nat} {s s' : Solo}

theorem placed (h : Inv retryCount s) {c : WriteCall} {o : ObjInfo} (ho : s.vm.objHash c.id = some o)
    (hpageSize : (s.vm.getRoot c.id 0).pageSize = c.pageSize) {u : Upload} (hu : c.execWrite = some u)
    (hsize : 0 < c.size) (hfits : FitsTree o.lastRoot.pageSize (assigned o c.range c.append).last) :
    Placed true o c.range c.append := by
  obtain ⟨hps, hoffset, hmod, -⟩ := WriteCall.execWrite_cases hu
  obtain ⟨base, hbase⟩ := h.world
  have hblob := (hbase.blob ho).blob
  have hlast : o.lastRoot.pageSize = o.pageSize := hblob.geometry.pageSize
    (ObjInfo.mem_allRoots (ObjInfo.lastRoot_mem hblob.window.pending.roots_pos))
  have hops : o.pageSize = c.pageSize := by
    rw [← hlast, ← hpageSize, VManagement.getRoot_latest ho]
  rw [hlast] at hfits
  refine ⟨hops ▸ hps, hsize, ?_, hfits, fun _ => ?_, fun _ => (h.settled ho).intervals, nofun⟩
  · rw [hops]
    exact Nat.dvd_of_mod_eq_zero hmod
  · rw [hops]
    exact Nat.dvd_of_mod_eq_zero hoffset

/-- A write that returns `true`. -/
theorem wrote (h : Inv retryCount s) {offset size : Nat} {buffer : Nat → UInt8} {append : Bool}
    {rnd : Nat} {adv : List ProviderDesc} {acts : List WriterAction}
    (hok : s.Ok (.write offset size buffer append rnd adv acts))
    (hs : s.step retryCount (.write offset size buffer append rnd adv acts) = some s') :
    ∃ T, Wrote retryCount s.writers (s.call offset size buffer append rnd adv) s'.writers T ∧
      s'.handler = setVersion s.handler T.query.version ∧
      s'.grown = (s.grown || append || decide (offset + size > s.handler.latestRoot.currentSize)) := by
  simp only [step] at hs
  obtain ⟨w, T, hstep, hrun, hT, hret, hhandler, hgrown⟩ := execWrite_cases hs
  generalize hc : s.call offset size buffer append rnd adv = c at *
  obtain ⟨hrc, -, hdistinct, hfits⟩ : 0 < c.replicaCount ∧ _ ∧
      s.writers.world.Distinct (.ticket c.range append adv) ∧
      ∀ o ∈ s.vm.objHash c.id, FitsTree o.lastRoot.pageSize (assigned o c.range append).last := by
    subst hc
    exact hok
  have happend : c.append = append := by
    subst hc
    rfl
  have hadv : c.adv = adv := by
    subst hc
    rfl
  have hpageSize : (s.vm.getRoot c.id 0).pageSize = c.pageSize := by
    subst hc
    exact h.pageSize
  have hreplicaCount : (s.vm.getRoot c.id 0).replicaCount = c.replicaCount := by
    subst hc
    exact h.replicaCount
  rw [← happend, ← hadv] at hdistinct
  rw [← happend] at hfits
  have hps : 0 < c.pageSize := by
    have hu := hstep
    simp only [Writers.step] at hu
    obtain ⟨u, hu, -⟩ := Option.map_eq_some_iff.mp hu
    exact (WriteCall.execWrite_cases hu).1
  have hstart := During.start h.writers h.world ⟨hps, hrc, hpageSize, hreplicaCount⟩ hstep
  have hplaced : 0 < c.size →
      s.writers.world.Ok (fun _ => true) (.ticket c.range c.append c.adv) := by
    intro hsize
    refine ⟨⟨hdistinct.1, fun o ho => ?_⟩, hdistinct.2.1⟩
    simp only [Writers.step] at hstep
    obtain ⟨u, hu, -⟩ := Option.map_eq_some_iff.mp hstep
    exact h.placed ho hpageSize hu hsize (hfits o ho)
  have hduring : During retryCount s.writers c s'.writers :=
    hrun.inv (fun hd hown hstep => hd.step hdistinct hplaced hown hstep) hstart
  refine ⟨T, hduring.wrote (fun ho => (h.settled ho).intervals) ?_ hret, hhandler, ?_⟩
  · unfold taskIn at hT
    split at hT
    · next u' hu' => exact ⟨u', hu', hT⟩
    · cases hT
  · rw [hgrown]
    subst hc
    rfl

end Inv

theorem start_eq {s : Solo} {o : ObjInfo} (ho : s.vm.objHash s.handler.id = some o) (offset : Nat)
    (append : Bool) : s.start offset append = if append then o.progressSize else offset := by
  rw [start, ho]
  cases append <;> rfl

theorem start_write (s : Solo) (offset : Nat) : s.start offset false = offset := by
  unfold start
  split <;> rfl

/-- What a write makes of the blob of the handler. -/
structure Effect (s s' : Solo) (start size version : Nat) (o o' : ObjInfo) (R : Nat) : Prop where
  before : s.vm.objHash s.handler.id = some o
  after : s'.vm.objHash s.handler.id = some o'
  settled : o'.Settled s.handler.id
  root : o'.lastRoot = { o.lastRoot with
    node := { o.lastRoot.node with version := version, size := R }
    currentSize := max (start + size) o.lastRoot.currentSize }
  fits : start + size ≤ o.lastRoot.currentSize → R = o.lastRoot.node.size
  other : ∀ id, id ≠ s.handler.id → s'.vm.objHash id = s.vm.objHash id

namespace Inv

variable {retryCount : Nat} {s s' : Solo}

theorem effect (h : Inv retryCount s) {offset size : Nat} {buffer : Nat → UInt8} {append : Bool}
    {rnd : Nat} {adv : List ProviderDesc} {acts : List WriterAction}
    (hok : s.Ok (.write offset size buffer append rnd adv acts)) {T : Task}
    (hwrote : Wrote retryCount s.writers (s.call offset size buffer append rnd adv) s'.writers T) :
    T.query.offset = s.start offset append ∧
      ∃ o o' R, Effect s s' (s.start offset append) size T.query.version o o' R := by
  obtain ⟨o, R, ho, hgrow, hquery, hobj⟩ := hwrote.obj
  have hpos : 0 < size := hwrote.size
  have hid : s.vm.objHash s.handler.id = some o := ho
  have hsettled : o.Settled s.handler.id := h.settled ho
  have hfits := hok.2.2.2 o ho
  dsimp only [call, WriteCall.range] at ho hgrow hquery hobj hfits
  generalize hq : assigned o ⟨s.handler.id, rnd, offset, size⟩ append = q at *
  have hqid : q.id = s.handler.id := by
    rw [← hq]
    exact VManagement.assigned_id ..
  have hqsize : q.size = size := by
    rw [← hq]
    exact VManagement.assigned_size ..
  have hstart : q.offset = s.start offset append := by
    rw [start_eq hid, ← hq]
    cases append <;> rfl
  have hlast : u64 (q.offset + size) = s.start offset append + size := by
    obtain ⟨m, -, hle, hlt⟩ := hfits
    rw [Query.last, hqsize] at hle
    rw [u64_of_lt (Nat.lt_of_le_of_lt hle hlt), hstart]
  have hversion : T.query.version = o.currentTicket := by
    rw [hquery]
  refine ⟨by rw [hquery, ← hstart], o, _, R, hid, ?_, hsettled.write hqid R, ?_, ?_, ?_⟩
  · exact (congrFun hobj _).trans (Function.update_self ..)
  · rw [VManagement.lastRoot_publishObj_ticket hsettled.intervals, newRoot, hqsize, hlast, hqid,
      hversion, ← hsettled.id]
    congr 1
    split <;> omega
  · intro hle
    obtain ⟨base, hbase⟩ := h.world
    have hgeometry := (hbase.blob ho).blob.geometry
    have hwindow := (hbase.blob ho).blob.window
    have hmem := ObjInfo.lastRoot_mem hwindow.pending.roots_pos
    have hcurrent := (hgeometry.current (ObjInfo.mem_allRoots hmem)).2
    -- with nothing outstanding, the last root is the one of the last ticket
    have hcount := hwindow.pending.count
    rw [hsettled.intervals, List.length_nil] at hcount
    obtain ⟨r, hr, hmax⟩ := hgeometry.maxSize
    have hroot := ObjInfo.allRoots_of_roots (o.lastRoot_eq hwindow.pending.roots_pos)
    have hlen : o.roots.length - 1 = (s.writers.world.hist.issued s.handler.id).length := by
      omega
    rw [hlen, hr] at hroot
    cases hroot
    have hmaxSize : o.maxSize = o.lastRoot.node.size := by
      omega
    rw [hlast, VManagement.grow_of_le (by omega)] at hgrow
    cases hgrow
    exact hmaxSize
  · intro id hne
    exact (congrFun hobj id).trans (Function.update_of_ne hne ..)

theorem write (h : Inv retryCount s) {offset size : Nat} {buffer : Nat → UInt8} {append : Bool}
    {rnd : Nat} {adv : List ProviderDesc} {acts : List WriterAction}
    (hok : s.Ok (.write offset size buffer append rnd adv acts))
    (hs : s.step retryCount (.write offset size buffer append rnd adv acts) = some s') :
    Inv retryCount s' := by
  obtain ⟨T, hwrote, hhandler, hgrown⟩ := h.wrote hok hs
  obtain ⟨-, o, o', R, heffect⟩ := h.effect hok hwrote
  have hpos : 0 < size := hwrote.size
  have hid : s'.handler.id = s.handler.id := by
    rw [hhandler]
    rfl
  have hbefore := VManagement.getRoot_latest heffect.before
  have hafter := VManagement.getRoot_latest heffect.after
  have hroot := heffect.root
  have hlatest : s'.handler.latestRoot = { s.handler.latestRoot with
      node := { s.handler.latestRoot.node with version := T.query.version } } :=
    congrArg ObjectHandler.latestRoot hhandler
  refine ⟨hwrote.inv, hwrote.world, ?_, ?_, ?_, ?_, ?_⟩
  · intro id p hp
    by_cases hne : id = s.handler.id
    · rw [hne, heffect.after] at hp
      cases hp
      rw [hne]
      exact heffect.settled
    · rw [heffect.other id hne] at hp
      exact h.settled hp
  · rw [hid, hafter, hroot, hlatest]
    show o.lastRoot.pageSize = _
    rw [← hbefore]
    exact h.pageSize
  · rw [hid, hafter, hroot, hlatest]
    show o.lastRoot.replicaCount = _
    rw [← hbefore]
    exact h.replicaCount
  · intro hnot
    rw [hgrown, Bool.or_eq_false_iff, Bool.or_eq_false_iff, decide_eq_false_iff_not] at hnot
    obtain ⟨⟨hsync, rfl⟩, hle⟩ := hnot
    have hold : s.handler.latestRoot = o.lastRoot := (h.synced hsync).trans hbefore
    rw [start_write] at hroot
    have hfits := heffect.fits
    rw [start_write, ← hold] at hfits
    rw [InSync, hid, hafter, hroot, hlatest, ← hold, hfits (by omega), Nat.max_eq_right (by omega)]
  · intro hyes
    rw [hid, hafter, hroot, hlatest]
    show s.handler.latestRoot.currentSize < max _ _
    by_cases hsync : s.grown = false
    · have hold : s.handler.latestRoot = o.lastRoot := (h.synced hsync).trans hbefore
      rw [hgrown, hsync, Bool.false_or, Bool.or_eq_true, decide_eq_true_eq] at hyes
      rw [start_eq heffect.before, hold]
      rcases hyes with rfl | hlarge
      · rw [if_pos rfl, (h.settled heffect.before).progressSize]
        omega
      · rw [hold] at hlarge
        cases append with
        | true =>
          rw [if_pos rfl, (h.settled heffect.before).progressSize]
          omega
        | false =>
          rw [if_neg Bool.false_ne_true]
          omega
    · have hstale := h.stale (Bool.eq_true_of_not_eq_false hsync)
      rw [hbefore] at hstale
      omega

theorem create (h : Inv retryCount s) {ps rc : Nat}
    (hs : s.step retryCount (.create ps rc) = some s') : Inv retryCount s' := by
  simp only [step] at hs
  obtain ⟨w, hw, rfl⟩ := Option.map_eq_some_iff.mp hs
  have hok : s.writers.Ok (.other (.create ps rc)) := trivial
  have hwriters := h.writers.step hok hw
  simp only [Writers.step] at hw
  obtain ⟨world, hworld, rfl⟩ := Option.map_eq_some_iff.mp hw
  obtain ⟨base, hbase⟩ := h.world
  have hokw : s.writers.world.Ok (fun _ => true) (.create ps rc) := trivial
  obtain ⟨base', hbase', -⟩ := World.inv_step hbase hokw hworld
  have hvm : world.hist.vm = s.vm.addObj (ObjInfo.new (s.vm.objCount + 1) ps rc) := by
    simp only [World.step, VmHistory.step, VManagement.exec, VManagement.create, Option.map_some,
      Option.some.injEq] at hworld
    rw [← hworld]
    rfl
  have hnew : world.hist.vm.objHash (s.vm.objCount + 1) =
      some (ObjInfo.new (s.vm.objCount + 1) ps rc) := by
    rw [hvm]
    exact Function.update_self ..
  have hsync : (ObjInfo.new (s.vm.objCount + 1) ps rc).lastRoot =
      world.hist.vm.getRoot (s.vm.objCount + 1) 0 := (VManagement.getRoot_latest hnew).symm
  refine ⟨hwriters, ⟨base', hbase'⟩, ?_, congrArg Root.pageSize hsync.symm,
    congrArg Root.replicaCount hsync.symm, fun _ => hsync, ?_⟩
  · intro id o ho
    replace ho : world.hist.vm.objHash id = some o := ho
    by_cases hne : id = s.vm.objCount + 1
    · rw [hne, hnew] at ho
      cases ho
      rw [hne]
      exact ⟨rfl, rfl, rfl⟩
    · rw [hvm] at ho
      exact h.settled ((Function.update_of_ne hne ..).symm.trans ho)
  · rintro ⟨⟩

theorem getLatest (h : Inv retryCount s) {id : Nat}
    (hs : s.step retryCount (.getLatest id) = some s') : Inv retryCount s' := by
  simp only [step] at hs
  cases hs
  have hsync : ∀ handler : ObjectHandler,
      (handler.getLatest s.vm .answered id).2.latestRoot =
        s.vm.getRoot (handler.getLatest s.vm .answered id).2.id 0 := by
    intro handler
    unfold ObjectHandler.getLatest ObjectHandler.getRoot ObjectHandler.fetchRoot
    rfl
  exact ⟨h.writers, h.world, h.settled, congrArg Root.pageSize (hsync s.handler).symm,
    congrArg Root.replicaCount (hsync s.handler).symm, fun _ => hsync s.handler, nofun⟩

/-- Each call keeps the invariant. -/
theorem step (h : Inv retryCount s) {call : SoloCall} (hok : s.Ok call)
    (hs : s.step retryCount call = some s') : Inv retryCount s' := by
  cases call with
  | create ps rc => exact h.create hs
  | getLatest id => exact h.getLatest hs
  | write offset size buffer append rnd adv acts => exact h.write hok hs

theorem initial (id : Nat) : Inv retryCount { handler := { id := id } } :=
  ⟨.empty, ⟨_, World.inv_empty _⟩, nofun, rfl, rfl, fun _ => rfl, nofun⟩

end Inv

/-- **The handler sees its own last write, within the size that it knows.** In every session of
`create`, `get_latest` and successful writes and appends: after `create` and `get_latest`
`latest_root` is the root that the version manager returns for `get_root(id, 0)`. After a write it
is, and a read of the range returns the bytes just written and `get_size` includes them, exactly
when neither this write nor one since the last `create` or `get_latest` was an append or ended
beyond `latest_root.current_size`, and a page has less than `2 ^ 32` bytes. -/
theorem own_write_seen {retryCount id₀ : Nat} {calls : List SoloCall} {s s' : Solo} {call : SoloCall}
    (hrun : Run (step retryCount) Ok { handler := { id := id₀ } } calls s) (hok : s.Ok call)
    (hs : s.step retryCount call = some s') : s.Sees s' call ↔ s.Within call := by
  have h : Inv retryCount s := hrun.inv (fun h hok hs => h.step hok hs) (.initial id₀)
  have h' := h.step hok hs
  cases call with
  | create ps rc =>
    simp only [step] at hs
    obtain ⟨w, -, rfl⟩ := Option.map_eq_some_iff.mp hs
    exact iff_of_true (h'.synced rfl) trivial
  | getLatest id =>
    simp only [step] at hs
    cases hs
    exact iff_of_true (h'.synced rfl) trivial
  | write offset size buffer append rnd adv acts =>
    obtain ⟨T, hwrote, hhandler, hgrown⟩ := h.wrote hok hs
    obtain ⟨hoffset, o, o', R, heffect⟩ := h.effect hok hwrote
    have hid : s'.handler.id = s.handler.id := by
      rw [hhandler]
      rfl
    have hafter := VManagement.getRoot_latest heffect.after
    have hwithin : s'.grown = false ∧ s.handler.latestRoot.pageSize < 2 ^ 32 ↔
        s.Within (.write offset size buffer append rnd adv acts) := by
      rw [hgrown, Bool.or_eq_false_iff, Bool.or_eq_false_iff, decide_eq_false_iff_not, gt_iff_lt,
        Nat.not_lt]
      exact and_congr_left fun _ => and_assoc
    rw [← hwithin]
    constructor
    · rintro ⟨hsync, hread, -⟩
      refine ⟨?_, ?_⟩
      · by_contra hyes
        have hstale := h'.stale (Bool.eq_true_of_not_eq_false hyes)
        rw [hsync] at hstale
        exact absurd hstale (Nat.lt_irrefl _)
      · -- a buffer with other bytes everywhere keeps one of them
        by_contra hlong
        have hps : s'.handler.latestRoot.pageSize = s.handler.latestRoot.pageSize := by
          rw [hhandler]
          rfl
        obtain ⟨fuel0, hfuel⟩ := hread (fun _ _ => 0) (fun _ => 0) fun b => buffer b + 1
        obtain ⟨buffer', hresult, hbytes⟩ := hfuel fuel0 (Nat.le_refl _)
        rw [← hoffset] at hresult
        obtain ⟨b, hb, hsame⟩ := hwrote.wholePages.unread (Nat.not_lt.mp hlong) hps hresult
        rw [hbytes b hb] at hsame
        exact absurd hsame (by simp)
    · rintro ⟨hnot, hshort⟩
      have hsync := h'.synced hnot
      have hlatest : s'.handler.latestRoot = o'.lastRoot := by
        rw [hsync, hid]
        exact hafter
      obtain ⟨base, hbase⟩ := h.world
      have hroot := hwrote.newest hbase (fun ho => (h.settled ho).intervals) heffect.after
      refine ⟨hsync, ?_, ?_⟩
      · intro rand sched buffer₀
        have hread := hwrote.readsBack hshort hok.2.1 heffect.after hroot rand sched buffer₀
        rw [hoffset, ← hlatest] at hread
        exact hread
      · rw [ObjectHandler.sizeLatest, hlatest, heffect.root]
        exact Nat.le_max_left ..

/-- The write `n` of the first page, with one replica; `gets` nodes are looked up for it. -/
def onePage (n gets : Nat) (byte : UInt8) : SoloCall :=
  .write 0 4 (fun _ => byte) false (101 + n) [⟨"a", "1"⟩]
    ([.reply n 0 .ok, .ticket n fun _ => false] ++ List.replicate gets (.other (.get 1 n 0)) ++
      [.other (.put 1 n 0 .acked), .other (.put 1 n 0 .acked), .other (.wait 1 n),
        .other (.wait 1 n), .other (.publish 1 n .answered)])

/-- The first page is written, `get_latest` is called, and the page is written again. -/
theorem own_write_seen_rewrite :
    ∃ s s', Run (step 0) Ok { handler := { id := 0 } } [.create 4 1, onePage 0 0 7, .getLatest 0] s ∧
      s.step 0 (onePage 1 2 8) = some s' ∧ s'.InSync ∧ s'.ReadsBack 0 4 (fun _ => 8) ∧
      4 ≤ s'.handler.sizeLatest := by
  let s₀ : Solo := { handler := { id := 0 } }
  have hrun : Run (step 0) Ok s₀ [.create 4 1, onePage 0 0 7, .getLatest 0] _ :=
    Run.of_isSome s₀ (by decide +kernel)
  generalize hs : (exec (step 0) Ok s₀ [.create 4 1, onePage 0 0 7, .getLatest 0]).getD s₀ = s
    at hrun
  have hok : s.Ok (onePage 1 2 8) := by
    rw [← hs]
    decide +kernel
  have hsome : (s.step 0 (onePage 1 2 8)).isSome = true := by
    rw [← hs]
    decide +kernel
  have hwithin : (s.grown = false ∧ false = false ∧ 0 + 4 ≤ s.handler.latestRoot.currentSize) ∧
      s.handler.latestRoot.pageSize < 2 ^ 32 := by
    rw [← hs]
    decide +kernel
  obtain ⟨hsync, hread, hsize⟩ := (own_write_seen hrun hok (eq_some_getD s₀ hsome)).mpr hwithin
  have hstart : s.start 0 false = 0 := start_write s 0
  rw [hstart] at hread hsize
  exact ⟨s, _, hrun, eq_some_getD s₀ hsome, hsync, hread, hsize⟩

/-- The first write on a new blob: `latest_root` keeps the size `0`, `get_size` does not include the
page, and a read of it throws. -/
theorem first_write_not_seen :
    ∃ s s', Run (step 0) Ok { handler := { id := 0 } } [.create 4 1] s ∧ s.Ok (onePage 0 0 7) ∧
      s.step 0 (onePage 0 0 7) = some s' ∧ ¬ s'.InSync ∧ s'.handler.sizeLatest = 0 ∧
      ∀ rand locate buffer, s'.handler.readLatest s'.writers.answers rand locate 0 4 buffer =
        some (.threw "object_handler::read(): read attempt beyond maximal size") := by
  let s₀ : Solo := { handler := { id := 0 } }
  have hrun : Run (step 0) Ok s₀ [.create 4 1] _ := Run.of_isSome s₀ (by decide +kernel)
  generalize hs : (exec (step 0) Ok s₀ [.create 4 1]).getD s₀ = s at hrun
  have hok : s.Ok (onePage 0 0 7) := by
    rw [← hs]
    decide +kernel
  have hsome : (s.step 0 (onePage 0 0 7)).isSome = true := by
    rw [← hs]
    decide +kernel
  have hstep := eq_some_getD s₀ hsome
  generalize hs' : (s.step 0 (onePage 0 0 7)).getD s₀ = s' at hstep
  have hlatest : s'.handler.latestRoot = ⟨⟨1, 1, 0, 0⟩, 1, 0, 4⟩ := by
    rw [← hs', ← hs]
    decide +kernel
  have hserver : s'.vm.getRoot s'.handler.id 0 = ⟨⟨1, 1, 0, 4⟩, 1, 4, 4⟩ := by
    rw [← hs', ← hs]
    decide +kernel
  refine ⟨s, s', hrun, hok, hstep, ?_, congrArg Root.currentSize hlatest, ?_⟩
  · rw [InSync, hlatest, hserver]
    decide
  · intro rand locate buffer
    rw [ObjectHandler.readLatest, hlatest]
    rfl

end Solo

end BlobSeer
