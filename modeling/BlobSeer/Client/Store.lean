import BlobSeer.Client.Stored
import BlobSeer.Lib.VersionStore

/-!
# The system as a store of versions

What BlobSeer is for, in its own terms: a blob is a list of versions that never change, each of them
the one before with the bytes of one write over it, and a clone starts with a version of another blob.
That is a `VersionStore` of bytes, and every run of the system is one of its runs
(`refines_version_store`): a `create` and a `clone` make an object, the publishes commit the writes in
the order of their tickets, and all other steps (pages, tickets, tree nodes, failures and crashes)
change nothing. So a published byte is that of the last write that covers it (`published_byte`).
-/

namespace BlobSeer

open Lib
open VManagement (rootAt publishObj)

/-- The write `c`, with the ticket `K`, as an overwriting of bytes. -/
def WriteCall.bytes (c : WriteCall) (K : Ticket) : Write UInt8 :=
  ⟨K.query.offset, K.query.offset + K.query.size - 1, fun p => c.buffer (p - K.query.offset), K.far⟩

/-- A ticket covers the bytes of its pages. -/
theorem Ticket.Shape.covers_iff {K : Ticket} (hK : K.Shape) (c : WriteCall) (p : Nat) :
    (c.bytes K).Covers p ↔ K.Covers (p / K.pageSize) := by
  have hpos := hK.pageSize_pos
  have hend : K.query.offset + K.query.size = (K.final + 1) * K.pageSize := by
    rw [hK.offset, hK.size, ← Nat.add_mul]
    congr 1
    have := hK.le
    omega
  have hlow : K.first * K.pageSize ≤ p ↔ K.first ≤ p / K.pageSize :=
    (Nat.le_div_iff_mul_le hpos).symm
  have hhigh : p < (K.final + 1) * K.pageSize ↔ p / K.pageSize < K.final + 1 :=
    (Nat.div_lt_iff_lt_mul hpos).symm
  have hsize : 0 < (K.final + 1) * K.pageSize := Nat.mul_pos (Nat.succ_pos _) hpos
  show K.query.offset ≤ p ∧ p ≤ K.query.offset + K.query.size - 1 ↔ _
  rw [hend, hK.offset, hlow, Ticket.Covers]
  omega

namespace Writers

/-- The published versions of every blob. -/
def store (s : Writers) : VersionStore Nat UInt8 := fun id =>
  match s.world.hist.vm.objHash id with
  | some o => o.roots.map s.byteAt
  | none => []

theorem store_some {s : Writers} {id : Nat} {o : ObjInfo} (ho : s.world.hist.vm.objHash id = some o) :
    s.store id = o.roots.map s.byteAt := by
  rw [store, ho]

theorem store_none {s : Writers} {id : Nat} (ho : s.world.hist.vm.objHash id = none) :
    s.store id = [] := by
  rw [store, ho]

theorem store_at {s : Writers} {id : Nat} {o : ObjInfo} (ho : s.world.hist.vm.objHash id = some o)
    {v : Nat} {r : Root} (hr : o.roots[v]? = some r) : (s.store id)[v]? = some (s.byteAt r) := by
  rw [store_some ho, List.getElem?_map, hr]
  rfl

/-- `W` is what a write with ticket `t + 1` of the blob puts. -/
def Granted (s : Writers) (id t : Nat) (W : Write UInt8) : Prop :=
  ∃ u ∈ s.uploads, ∃ T, u.id = id ∧ u.task = some t ∧ (s.world.tasks id)[t]? = some T ∧
    W = u.bytes T.toTicket

/-- Tickets are not shared, so the write with a ticket is one. -/
theorem Backed.granted_unique {retryCount : Nat} {seq : Nat → Bool} {base : Nat → PageMap}
    {s : Writers} (h : Backed retryCount seq base s) {id t : Nat} {W W' : Write UInt8}
    (hW : s.Granted id t W) (hW' : s.Granted id t W') : W = W' := by
  obtain ⟨u, hu, T, rfl, ht, hT, rfl⟩ := hW
  obtain ⟨u', hu', T', hid, ht', hT', rfl⟩ := hW'
  rw [hT] at hT'
  cases hT'
  obtain ⟨S, hS, hholds⟩ := h.inv.task u hu t ht
  rw [hT] at hS
  cases hS
  obtain ⟨S, hS, hholds'⟩ := h.inv.task u' hu' t ht'
  rw [hid, hT] at hS
  cases hS
  obtain ⟨n, hn⟩ := List.mem_iff_getElem?.mp hu
  obtain ⟨m, hm⟩ := List.mem_iff_getElem?.mp hu'
  have hnm := h.linked.keys hn hm hid.symm (hholds.pageVersion.symm.trans hholds'.pageVersion)
  rw [hnm, hm] at hn
  cases hn
  rfl

theorem Granted.later {base base' : Nat → PageMap} {s s' : Writers} {id t : Nat} {W : Write UInt8}
    (h : s.Granted id t W) (hl : Leads base base' s s') : s'.Granted id t W := by
  obtain ⟨u, hu, T, hid, ht, hT, rfl⟩ := h
  obtain ⟨n, hn⟩ := List.mem_iff_getElem?.mp hu
  obtain ⟨u', hn', hlater⟩ := hl.upload hn
  obtain ⟨T', hT', hk, -⟩ := hl.task hT
  refine ⟨u', List.mem_of_getElem? hn', T', ?_, hlater.task t ht, hT', ?_⟩
  · rw [hlater.call]
    exact hid
  · rw [hlater.call, hk]

/-- A step is at most one call of the version manager. -/
theorem step_hist {retryCount : Nat} {s s' : Writers} {a : WriterAction}
    (hs : s.step retryCount a = some s') :
    s'.world.hist = s.world.hist ∨ ∃ req, s.world.hist.step req = some s'.world.hist := by
  obtain ⟨c, u, rfl, -, rfl⟩ | ⟨n, i, error, u, u', rfl, -, -, rfl⟩ |
    ⟨n, beyond, u, rfl, -, -, -, hs⟩ | ⟨act, w, rfl, -, hw, rfl⟩ := step_cases hs
  · exact .inl rfl
  · exact .inl rfl
  · obtain ⟨w, hw, rfl⟩ := Option.map_eq_some_iff.mp hs
    exact (World.step_frame hw).1
  · exact (World.step_frame hw).1

namespace Backed

variable {retryCount : Nat} {seq : Nat → Bool} {base base' : Nat → PageMap} {s s' : Writers}

/-- A byte of a page that the write has put. -/
theorem byte_of_covers (h : Backed retryCount seq base s) {u : Upload} (hu : u ∈ s.uploads) {t : Nat}
    (ht : u.task = some t) {T : Task} (hT : (s.world.tasks u.id)[t]? = some T) {p : Nat}
    (hc : T.Covers (p / T.pageSize)) :
    (s.pageOf (T.page (p / T.pageSize))).bind (·[p % T.pageSize]?) =
      some ((u.bytes T.toTicket).value p) := by
  obtain ⟨o, -, hinfo⟩ := h.world.blob_of_task hT
  have hshape := hinfo.shape
  have hpos := hshape.pageSize_pos
  obtain ⟨T', hT', hholds⟩ := h.inv.task u hu t ht
  rw [hT] at hT'
  cases hT'
  have hplace : (p / T.pageSize - T.first) * T.pageSize + p % T.pageSize = p - T.query.offset := by
    have hmul : T.first * T.pageSize ≤ p / T.pageSize * T.pageSize := Nat.mul_le_mul_right _ hc.1
    have hmod := Nat.div_add_mod' p T.pageSize
    rw [hshape.offset, Nat.sub_mul]
    omega
  rw [h.pageOf (h.leafOf_page hu ht hT hc.1 hc.2), Option.bind_some, WriteCall.page,
    ← hholds.pageSize, List.getElem?_map, List.getElem?_range (Nat.mod_lt _ hpos), Option.map_some,
    hplace]
  rfl

/-- A published version is the one before it with the write of its ticket over it. -/
theorem byteAt_succ (h : Backed retryCount seq base s) {id : Nat} {o : ObjInfo}
    (ho : s.world.hist.vm.objHash id = some o) {v : Nat} {r r' : Root} (hr : o.roots[v]? = some r)
    (hr' : o.roots[v + 1]? = some r') :
    ∃ W, s.Granted id v W ∧ s.byteAt r' = W.apply (s.byteAt r) := by
  have hb := h.world.blob ho
  obtain ⟨T, hT⟩ : ∃ T, (s.world.tasks id)[v]? = some T := by
    have hcount := hb.blob.window.pending.count
    have hlen := hb.length_eq
    have hlt := (List.getElem?_eq_some_iff.mp hr').1
    rw [World.tickets, List.length_map] at hlen
    exact ⟨_, List.getElem?_eq_getElem (by omega)⟩
  obtain ⟨u, hu, rfl, ht⟩ := h.linked.origin hT
  refine ⟨u.bytes T.toTicket, ⟨u, hu, T, rfl, ht, hT, rfl⟩, funext fun p => ?_⟩
  have hinfo := hb.info (World.tickets_at hT)
  have hsnap : snapshotAt (base u.id) (s.world.tickets u.id) (v + 1) = _ :=
    BlobInv.snapshot_succ (World.tickets_at hT)
  have hps : r.pageSize = T.pageSize := (h.world.pageSize_eq ho hr).trans hinfo.pageSize.symm
  have hps' : r'.pageSize = T.pageSize := (h.world.pageSize_eq ho hr').trans hinfo.pageSize.symm
  unfold byteAt
  rw [h.world.pageMap_eq ho hr, h.world.pageMap_eq ho hr', hps, hps', hsnap]
  by_cases hc : T.Covers (p / T.pageSize)
  · have hbyte := (hinfo.shape.covers_iff u.toWriteCall p).mpr hc
    have hpage : T.write.apply (snapshotAt (base u.id) (s.world.tickets u.id) v) (p / T.pageSize) =
        some (T.page (p / T.pageSize)) := Write.apply_of_covers (W := T.write) hc _
    rw [Write.apply_of_covers hbyte, hpage]
    exact h.byte_of_covers hu ht hT hc
  · have hbyte : ¬ (u.bytes T.toTicket).Covers p := fun hp =>
      hc ((hinfo.shape.covers_iff u.toWriteCall p).mp hp)
    cases hfar : T.far with
    | true =>
      have hpage : T.write.apply (snapshotAt (base u.id) (s.world.tickets u.id) v)
          (p / T.pageSize) = none := Write.apply_of_wipes (W := T.write) hc hfar _
      rw [Write.apply_of_wipes hbyte hfar, hpage]
    | false =>
      have hpage : T.write.apply (snapshotAt (base u.id) (s.world.tickets u.id) v)
          (p / T.pageSize) = snapshotAt (base u.id) (s.world.tickets u.id) v (p / T.pageSize) :=
        Write.apply_of_not_covers (W := T.write) hc hfar _
      rw [Write.apply_of_not_covers hbyte hfar, hpage]

/-! ### One step -/

/-- A blob whose roots a step leaves alone has the same versions. -/
theorem store_same (h : Backed retryCount seq base s) (h' : Backed retryCount seq base' s')
    (hl : Leads base base' s s') {id : Nat}
    (hsame : (s'.world.hist.vm.objHash id).map ObjInfo.roots =
      (s.world.hist.vm.objHash id).map ObjInfo.roots) : s'.store id = s.store id := by
  cases ho : s.world.hist.vm.objHash id with
  | none =>
    rw [ho, Option.map_none, Option.map_eq_none_iff] at hsame
    rw [store_none ho, store_none hsame]
  | some o =>
    rw [ho, Option.map_some, Option.map_eq_some_iff] at hsame
    obtain ⟨o', ho', hroots⟩ := hsame
    rw [store_some ho, store_some ho', hroots]
    refine List.map_congr_left fun r hr => ?_
    obtain ⟨v, hv⟩ := List.mem_iff_getElem?.mp hr
    exact funext fun p => h.byteAt_later h' hl ho hv p

/-- The other blobs, when one blob is made or changed. -/
theorem store_update (h : Backed retryCount seq base s) (h' : Backed retryCount seq base' s')
    (hl : Leads base base' s s') {i : Nat} {o : ObjInfo}
    (hobj : s'.world.hist.vm.objHash = Function.update s.world.hist.vm.objHash i (some o)) :
    s'.store = Function.update s.store i (o.roots.map s'.byteAt) := by
  funext id
  by_cases he : id = i
  · subst he
    rw [Function.update_self]
    refine store_some ?_
    rw [hobj, Function.update_self]
  · rw [Function.update_of_ne he]
    refine h.store_same h' hl ?_
    rw [hobj, Function.update_of_ne he]

/-- A blob that has no pages holds no bytes. -/
theorem byteAt_new (s : Writers) (id ps rc : Nat) : s.byteAt (Root.make id 0 ps 0 rc) = fun _ => none := by
  have hsize : (Root.make id 0 ps 0 rc).node.size = 0 := rfl
  funext p
  unfold byteAt pageMap
  rw [hsize, if_neg (Nat.not_lt_zero _)]

/-- The publishes of a blob, one commit for each root that they add. -/
theorem publishes (h : Backed retryCount seq base s) (h' : Backed retryCount seq base' s')
    (hl : Leads base base' s s') {id : Nat} {o o' : ObjInfo}
    (ho : s.world.hist.vm.objHash id = some o)
    (hobj : s'.world.hist.vm.objHash = Function.update s.world.hist.vm.objHash id (some o')) :
    ∃ ws : List (Write UInt8), VersionStore.Runs s.store (ws.map (StoreAction.commit id)) s'.store ∧
      ∀ k W, ws[k]? = some W → s'.Granted id (o.roots.length - 1 + k) W := by
  have ho' : s'.world.hist.vm.objHash id = some o' := by
    rw [hobj, Function.update_self]
  have hpos := (h.world.blob ho).blob.window.pending.roots_pos
  obtain ⟨new, hnew⟩ : o.roots <+: o'.roots := by
    obtain ⟨p, hp, hprefix⟩ := hl.world.roots ho
    rw [ho', Option.some.injEq] at hp
    rw [hp]
    exact hprefix
  -- the write of every new root
  have hstep : ∀ k < new.length, ∃ W, s'.Granted id (o.roots.length - 1 + k) W ∧
      ∃ m, (o'.roots.map s'.byteAt)[o.roots.length - 1 + k]? = some m ∧
        (o'.roots.map s'.byteAt)[o.roots.length + k]? = some (W.apply m) := by
    intro k hk
    have hlen : o'.roots.length = o.roots.length + new.length := by
      rw [← hnew, List.length_append]
    have hr := List.getElem?_eq_getElem (l := o'.roots) (i := o.roots.length - 1 + k) (by omega)
    have hr' := List.getElem?_eq_getElem (l := o'.roots) (i := o.roots.length - 1 + k + 1) (by omega)
    obtain ⟨W, hW, heq⟩ := h'.byteAt_succ ho' hr hr'
    have hsucc : o.roots.length - 1 + k + 1 = o.roots.length + k := by omega
    refine ⟨W, hW, s'.byteAt o'.roots[o.roots.length - 1 + k], ?_, ?_⟩
    · rw [List.getElem?_map, hr]
      rfl
    · rw [← hsucc, List.getElem?_map, hr', Option.map_some, heq]
  choose write hgranted hnext using hstep
  have hwrite : ∀ {k W}, (List.ofFn fun i : Fin new.length => write i i.isLt)[k]? = some W →
      ∃ hk, W = write k hk := by
    intro k W hW
    rw [List.getElem?_ofFn] at hW
    split at hW
    · next hk => exact ⟨hk, (Option.some.inj hW).symm⟩
    · cases hW
  refine ⟨List.ofFn fun i : Fin new.length => write i i.isLt, ?_, ?_⟩
  · have hold : o.roots.map s'.byteAt = s.store id := by
      rw [store_some ho]
      refine List.map_congr_left fun r hr => ?_
      obtain ⟨v, hv⟩ := List.mem_iff_getElem?.mp hr
      exact funext fun p => h.byteAt_later h' hl ho hv p
    have hlen : (new.map s'.byteAt).length =
        (List.ofFn fun i : Fin new.length => write i i.isLt).length := by simp
    have hrun := VersionStore.run_commits (rfl : s.store id = s.store id) hlen (fun k W hW => ?_) ?_
    · rw [← hold, ← List.map_append, hnew, ← h.store_update h' hl hobj] at hrun
      exact hrun
    · obtain ⟨hk, rfl⟩ := hwrite hW
      rw [← hold, ← List.map_append, hnew, List.length_map]
      exact hnext k hk
    · rw [← hold]
      exact List.ne_nil_of_length_pos (by rwa [List.length_map])
  · intro k W hW
    obtain ⟨hk, rfl⟩ := hwrite hW
    exact hgranted k hk

/-- What the abstract actions of one step are: clones of older blobs, and commits that go on with the
tickets of their blob. -/
structure Follows (s s' : Writers) (acts : List (StoreAction Nat UInt8)) : Prop where
  run : VersionStore.Runs s.store acts s'.store
  granted : ∀ id k W, (VersionStore.commits id acts)[k]? = some W →
    s'.Granted id ((s.store id).length - 1 + k) W
  clones : ∀ id src v, StoreAction.clone id src v ∈ acts → src < id

/-- Each step is a run of the store. -/
theorem step_store (h : Backed retryCount seq base s) (h' : Backed retryCount seq base' s')
    (hl : Leads base base' s s') {a : WriterAction} (hs : s.step retryCount a = some s') :
    ∃ acts, Follows s s' acts := by
  have hstay : s'.store = s.store → ∃ acts, Follows s s' acts := by
    intro hsame
    refine ⟨[], hsame ▸ .nil _, fun id k W hW => ?_, fun id src v hmem => ?_⟩
    · cases hW
    · cases hmem
  rcases step_hist hs with hhist | ⟨req, hreq⟩
  · refine hstay (funext fun id => h.store_same h' hl ?_)
    rw [hhist]
  obtain ⟨reqs, hreqs⟩ := h.inv.tracked.run
  have hnext : s.store (s.world.hist.vm.objCount + 1) = [] :=
    store_none (VmHistory.window hreqs).next_none
  obtain hhist | ⟨ps, rc, -, hhist⟩ | ⟨src, version, o, -, ho, hhist⟩ |
    ⟨query, append, o, maxSize, -, ho, -, hhist⟩ | ⟨interval, o, -, ho, -, hhist⟩ :=
      VmHistory.step_cases hreq
  · refine hstay (funext fun id => h.store_same h' hl ?_)
    rw [hhist]
  · have hobj : s'.world.hist.vm.objHash = Function.update s.world.hist.vm.objHash
        (s.world.hist.vm.objCount + 1) (some (ObjInfo.new (s.world.hist.vm.objCount + 1) ps rc)) := by
      rw [hhist]
      rfl
    refine ⟨[.create (s.world.hist.vm.objCount + 1)], .single trivial ?_, fun id k W hW => ?_,
      fun id src v hmem => ?_⟩
    · rw [h.store_update h' hl hobj, VersionStore.step_create hnext]
      refine congrArg (fun m => some (Function.update s.store _ [m])) ?_
      exact (byteAt_new s' _ ps rc).symm
    · cases hW
    · cases List.mem_singleton.mp hmem
  · have hobj : s'.world.hist.vm.objHash = Function.update s.world.hist.vm.objHash
        (s.world.hist.vm.objCount + 1) (some (ObjInfo.ofRoot (rootAt o version))) := by
      rw [hhist]
      rfl
    have hpos := (h.world.blob ho).blob.window.pending.roots_pos
    obtain ⟨v, hv⟩ := List.mem_iff_getElem?.mp (VManagement.rootAt_mem hpos version)
    refine ⟨[.clone (s.world.hist.vm.objCount + 1) src v], .single trivial ?_, fun id k W hW => ?_,
      fun id src v hmem => ?_⟩
    · rw [h.store_update h' hl hobj, VersionStore.step_clone hnext (store_at ho hv)]
      refine congrArg (fun m => some (Function.update s.store _ [m])) ?_
      exact (funext fun p => h.byteAt_later h' hl ho hv p).symm
    · cases hW
    · cases List.mem_singleton.mp hmem
      exact Nat.lt_succ_of_le ((VmHistory.uniform hreqs).id_le ho)
  · refine hstay (funext fun id => h.store_same h' hl ?_)
    rw [hhist]
    dsimp only [VManagement.setObj]
    by_cases he : id = query.id
    · rw [he, Function.update_self, ho]
      rfl
    · rw [Function.update_of_ne he]
  · have hobj : s'.world.hist.vm.objHash = Function.update s.world.hist.vm.objHash
        interval.id (some (publishObj o interval.version)) := by
      rw [hhist]
      rfl
    obtain ⟨ws, hrun, hgranted⟩ := h.publishes h' hl ho hobj
    refine ⟨_, hrun, fun id k W hW => ?_, fun id src v hmem => ?_⟩
    · by_cases he : interval.id = id
      · subst he
        rw [VersionStore.commits_self] at hW
        rw [store_some ho, List.length_map]
        exact hgranted k W hW
      · rw [VersionStore.commits_other he] at hW
        cases hW
    · obtain ⟨W, -, hW⟩ := List.mem_map.mp hmem
      cases hW

end Backed

/-! ## Whole runs -/

/-- The abstract actions so far: clones are of older blobs, and the commits on a blob are the writes
with its tickets, in order. -/
structure Committed (s : Writers) (acts : List (StoreAction Nat UInt8)) : Prop where
  histories : VersionStore.Histories s.store acts
  granted : ∀ id t W, (VersionStore.commits id acts)[t]? = some W → s.Granted id t W
  clones : ∀ id src v, StoreAction.clone id src v ∈ acts → src < id

/-- The system simulates the store. -/
theorem simulates_store (retryCount : Nat) (seq : Nat → Bool) :
    Simulates (Writers.step retryCount) (Writers.Sound seq) VersionStore.step (fun _ _ => True)
      (fun s => ∃ base, Backed retryCount seq base s) store Committed where
  inv := by
    rintro s s' a ⟨base, h⟩ hok hs
    obtain ⟨base', h', -⟩ := h.step hok hs
    exact ⟨base', h'⟩
  sim := by
    rintro s s' a acts ⟨base, h⟩ hgood hok hs
    obtain ⟨base', h', hl⟩ := h.step hok hs
    obtain ⟨new, hnew⟩ := h.step_store h' hl hs
    refine ⟨new, hnew.run, hgood.histories.run hnew.run, fun id t W hW => ?_, fun id src v hmem => ?_⟩
    · rw [VersionStore.commits_append] at hW
      have hlen := hgood.histories.length id
      rcases Nat.lt_or_ge t (VersionStore.commits id acts).length with hlt | hge
      · rw [List.getElem?_append_left hlt] at hW
        exact (hgood.granted id t W hW).later hl
      · rw [List.getElem?_append_right hge] at hW
        have hlast := hnew.granted id _ W hW
        rwa [← hlen, Nat.add_sub_cancel' hge] at hlast
    · exact (List.mem_append.mp hmem).elim (hgood.clones id src v) (hnew.clones id src v)

theorem committed_empty : Committed {} [] :=
  ⟨VersionStore.Histories.empty, fun _ _ _ hW => absurd hW (Option.some_ne_none _).symm,
    fun _ _ _ hmem => absurd hmem List.not_mem_nil⟩

/-- **The system is a store of versions.** Every run, of any number of clients with whatever failures
and crashes, is a run of the versioned store from the empty one. Commit `t` of a blob is the write with
ticket `t + 1`, and clones are of older blobs. What comes after the run goes on from the store that it
has reached. -/
theorem refines_version_store {retryCount : Nat} {seq : Nat → Bool} {s : Writers}
    {as : List WriterAction} (hrun : Run (Writers.step retryCount) (Writers.Sound seq) {} as s) :
    ∃ acts, VersionStore.Runs (fun _ => []) acts s.store ∧
      (∀ id t W, (VersionStore.commits id acts)[t]? = some W → s.Granted id t W) ∧
      (∀ id src v, StoreAction.clone id src v ∈ acts → src < id) ∧
      ∀ bs s', Run (Writers.step retryCount) (Writers.Sound seq) s bs s' →
        ∃ more, VersionStore.Runs s.store more s'.store ∧
          ∀ id t W, (VersionStore.commits id (acts ++ more))[t]? = some W → s'.Granted id t W := by
  have hsim := simulates_store retryCount seq
  have hinv := Backed.empty retryCount seq
  obtain ⟨acts, hacts, hgood⟩ := hsim.run hrun ⟨_, hinv⟩ committed_empty
  obtain ⟨base, h, -⟩ := hinv.run hrun
  refine ⟨acts, hacts, hgood.granted, hgood.clones, fun bs s' hbs => ?_⟩
  obtain ⟨more, hmore, hgood'⟩ := hsim.run hbs ⟨base, h⟩ hgood
  exact ⟨more, hmore, hgood'.granted⟩

/-- Two writes at the same time, the second one inside the first and published before it. Then version
`1` is cloned. -/
def concurrentWrites : List WriterAction :=
  [.other (.create 4 1),
    .execWrite ⟨1, Root.make 1 0 4 0 1, 71, 0, 8, fun _ => 1, false, [⟨"a", "1"⟩, ⟨"b", "1"⟩]⟩,
    .execWrite ⟨1, Root.make 1 0 4 0 1, 72, 4, 4, fun _ => 2, false, [⟨"c", "1"⟩]⟩,
    .reply 0 0 .ok, .reply 0 0 .ok, .reply 1 0 .ok, .ticket 0 fun _ => false,
    .ticket 1 fun _ => false, .other (.put 1 1 0 .acked), .other (.put 1 1 0 .acked),
    .other (.wait 1 1), .other (.put 1 1 0 .acked), .other (.wait 1 1),
    .other (.publish 1 1 .answered), .other (.put 1 0 0 .acked), .other (.put 1 0 0 .acked),
    .other (.put 1 0 0 .acked), .other (.put 1 0 0 .acked), .other (.wait 1 0),
    .other (.put 1 0 0 .acked), .other (.wait 1 0), .other (.publish 1 0 .answered),
    .other (.clone 1 1)]

/-- The store has two versions more, and the clone. -/
theorem refines_version_store_concurrent :
    ∃ s acts, Run (Writers.step 1) (Writers.Sound fun _ => false) {} concurrentWrites s ∧
      VersionStore.Runs (fun _ => []) acts s.store ∧ (s.store 1).length = 3 ∧
      (s.store 2).length = 1 := by
  have hrun : Run (Writers.step 1) (Writers.Sound fun _ => false) {} concurrentWrites _ :=
    Run.of_isSome {} (by decide +kernel)
  generalize hs : (exec (Writers.step 1) (Writers.Sound fun _ => false) {} concurrentWrites).getD {} = s
    at hrun
  have hlen : (s.store 1).length = 3 ∧ (s.store 2).length = 1 := by
    rw [← hs]
    decide +kernel
  obtain ⟨acts, hacts, -⟩ := refines_version_store hrun
  exact ⟨s, acts, hrun, hacts, hlen⟩

/-- Writes on a dense blob leave the bytes that they do not cover alone. -/
theorem Backed.granted_wipes {retryCount : Nat} {seq : Nat → Bool} {base : Nat → PageMap} {s : Writers}
    (h : Backed retryCount seq base s) {id t : Nat} (hseq : seq id = false) {W : Write UInt8}
    (hW : s.Granted id t W) : W.wipes = false := by
  obtain ⟨u, -, T, -, -, hT, rfl⟩ := hW
  cases ho : s.world.hist.vm.objHash id with
  | none =>
    rw [h.world.noBlob ho] at hT
    cases hT
  | some o => exact (h.world.blob ho).not_far hseq (World.tickets_at hT)

/-- What every version of a blob holds, from the first one on. -/
structure LastWriter (s : Writers) (id : Nat) (first : Nat → Option UInt8) (v : Nat) (r : Root)
    (p : Nat) : Prop where
  granted : ∀ t < v, ∃ W, s.Granted id t W
  byte : (∃ t W, t < v ∧ s.Granted id t W ∧ W.Covers p ∧ s.byteAt r p = some (W.value p) ∧
      ∀ t' W', t < t' → t' < v → s.Granted id t' W' → ¬ W'.Covers p) ∨
    (∀ t W, t < v → s.Granted id t W → ¬ W.Covers p) ∧ s.byteAt r p = first p

/-- **Published bytes.** In every run, and for every blob that is written densely: byte `p` of version `v`
is that of the write with the greatest ticket up to `v` that covers it. Where there is none it is that
of the first version, which is empty, or a version of the older blob that this one was cloned from. -/
theorem published_byte {retryCount : Nat} {seq : Nat → Bool} {s : Writers} {as : List WriterAction}
    (hrun : Run (Writers.step retryCount) (Writers.Sound seq) {} as s) {id : Nat} {o : ObjInfo}
    (ho : s.world.hist.vm.objHash id = some o) (hseq : seq id = false) :
    ∃ first, ((first = fun _ => none) ∨ ∃ src < id, ∃ (o' : ObjInfo) (k : Nat) (r' : Root),
        s.world.hist.vm.objHash src = some o' ∧ o'.roots[k]? = some r' ∧ first = s.byteAt r') ∧
      ∀ v r, o.roots[v]? = some r → ∀ p, LastWriter s id first v r p := by
  have hinv := Backed.empty retryCount seq
  obtain ⟨acts, hacts, hgood⟩ :=
    (simulates_store retryCount seq).run hrun ⟨_, hinv⟩ committed_empty
  obtain ⟨base, h, -⟩ := hinv.run hrun
  rw [List.nil_append] at hgood
  have hne : s.store id ≠ [] := by
    have hpos := (h.world.blob ho).blob.window.pending.roots_pos
    rw [store_some ho]
    exact List.ne_nil_of_length_pos (by rwa [List.length_map])
  obtain ⟨first, hhistory⟩ := VersionStore.history_of_run hacts hne
  refine ⟨first, hhistory.origin.imp And.right ?_, fun v r hr p => ⟨fun t ht => ?_, ?_⟩⟩
  · rintro ⟨src, k, hclone, hfirst⟩
    cases ho' : s.world.hist.vm.objHash src with
    | none =>
      rw [store_none ho'] at hfirst
      cases hfirst
    | some o' =>
      rw [store_some ho', List.getElem?_map, Option.map_eq_some_iff] at hfirst
      obtain ⟨r', hr', rfl⟩ := hfirst
      exact ⟨src, hgood.clones id src k hclone, o', k, r', ho', hr', rfl⟩
  · obtain ⟨W, hW⟩ := hhistory.exists_commit (store_at ho hr) ht
    exact ⟨W, hgood.granted id t W hW⟩
  -- the write with a ticket is the commit at its place
  have hcommit : ∀ {t W}, t < v → s.Granted id t W →
      (VersionStore.commits id acts)[t]? = some W := by
    intro t W ht hW
    obtain ⟨W', hW'⟩ := hhistory.exists_commit (store_at ho hr) ht
    rw [hW', h.granted_unique hW (hgood.granted id t W' hW')]
  have hwipes : ∀ W ∈ VersionStore.commits id acts, W.wipes = false := by
    intro W hW
    obtain ⟨t, ht⟩ := List.mem_iff_getElem?.mp hW
    exact h.granted_wipes hseq (hgood.granted id t W ht)
  rcases hhistory.cell_cases hwipes (store_at ho hr) p with
    ⟨t, W, htv, hW, hc, hbyte, hlast⟩ | ⟨hnone, hbyte⟩
  · exact .inl ⟨t, W, htv, hgood.granted id t W hW, hc, hbyte, fun t' W' h1 h2 hW' =>
      hlast t' W' h1 h2 (hcommit h2 hW')⟩
  · exact .inr ⟨fun t W htv hW => hnone t W htv (hcommit htv hW), hbyte⟩

/-- Version `2`: its first page is of the first write, and the second page of the second one. -/
theorem published_byte_concurrent :
    ∃ s o r first, Run (Writers.step 1) (Writers.Sound fun _ => false) {} concurrentWrites s ∧
      s.world.hist.vm.objHash 1 = some o ∧ o.roots[2]? = some r ∧
      s.byteAt r 0 = some 1 ∧ s.byteAt r 4 = some 2 ∧ ∀ p, LastWriter s 1 first 2 r p := by
  have hrun : Run (Writers.step 1) (Writers.Sound fun _ => false) {} concurrentWrites _ :=
    Run.of_isSome {} (by decide +kernel)
  generalize hs : (exec (Writers.step 1) (Writers.Sound fun _ => false) {} concurrentWrites).getD {} = s
    at hrun
  have hblob : ∃ o ∈ s.world.hist.vm.objHash 1, ∃ r ∈ o.roots[2]?,
      s.byteAt r 0 = some 1 ∧ s.byteAt r 4 = some 2 := by
    rw [← hs]
    decide +kernel
  obtain ⟨o, ho, r, hr, hbytes⟩ := hblob
  obtain ⟨first, -, hlast⟩ := published_byte hrun ho rfl
  exact ⟨s, o, r, first, hrun, ho, hr, hbytes.1, hbytes.2, hlast 2 r hr⟩

end Writers

end BlobSeer
