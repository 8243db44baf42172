import BlobSeer.Fuse.CloneCommit

/-!
# What the new blob holds after `clone_and_commit`

A page of the latest version of the new blob is the one of the mapping when it was marked, and else the
one of the version that the clone was made from (`Committer.Inv.byteAt_latest`).
-/

namespace BlobSeer

open Lib
open VManagement (rootAt)

/-- A version of the blob with this id is published. -/
def CommitAction.Publishes (id : Nat) : CommitAction → Prop
  | .other (.other (.publish i _ _)) => i = id
  | _ => False

namespace Committer

variable {retryCount : Nat} {seq : Nat → Bool} {id : Nat} {first : Root}
  {sends : List (Nat × List UInt8)} {base : Nat → PageMap} {s s' : Committer}

namespace Inv

/-- The task of a ticket on the new blob, when `commit` waits for nothing. -/
theorem ticket_origin (h : Inv retryCount seq id first sends base s) (hcurrent : s.current = none)
    {t : Nat} {T : Task} (hT : (s.writers.world.tasks id)[t]? = some T) :
    T.state = .returned true ∧ ∃ u ∈ s.writers.uploads, u.id = id ∧ u.task = some t ∧
      ∃ send ∈ sends, u.Carries send := by
  obtain ⟨u, hu, hid, ht⟩ := h.backed.linked.origin hT
  obtain ⟨n, hn⟩ := List.mem_iff_getElem?.mp hu
  obtain ⟨hcarries, hstate⟩ := h.own hn hid
  rw [hcurrent] at hstate
  obtain ⟨T', hT', hret⟩ := hstate.resolve_left nofun
  rw [Writers.taskOf, ht, hid] at hT'
  dsimp only at hT'
  rw [hT] at hT'
  cases hT'
  exact ⟨hret, u, hu, hid, ht, hcarries⟩

/-- All tickets of the new blob are published. -/
theorem latest_at (h : Inv retryCount seq id first sends base s) (hcurrent : s.current = none)
    {o : ObjInfo} (ho : s.writers.world.hist.vm.objHash id = some o) :
    o.roots[(s.writers.world.tickets id).length]? = some o.lastRoot := by
  have hb := h.backed.world.blob ho
  have hpending := hb.blob.window.pending
  have hcount := hpending.count
  have hlen := hb.length_eq
  have htasks : (s.writers.world.tickets id).length = (s.writers.world.tasks id).length :=
    List.length_map _
  have hall : ∀ v, 1 ≤ v → v ≤ (s.writers.world.tickets id).length →
      v ∈ s.writers.world.hist.published id := by
    intro v h1 h2
    have hT := List.getElem?_eq_getElem (show v - 1 < (s.writers.world.tasks id).length by omega)
    have hpub := h.backed.inv.tracked.returned hT (h.ticket_origin hcurrent hT).1
    rwa [Nat.sub_add_cancel h1] at hpub
  have hroots : (s.writers.world.tickets id).length < o.roots.length := by
    rw [hb.blob.window.mem_roots_iff]
    exact fun v h1 h2 => hall v h1 h2
  have hlast := o.lastRoot_eq hpending.roots_pos
  rwa [show o.roots.length - 1 = (s.writers.world.tickets id).length by omega] at hlast

/-- The pages of a ticket on the new blob are those of its write. -/
theorem ticket_range (h : Inv retryCount seq id first sends base s) (hps : 0 < first.pageSize)
    {u : Upload} (hu : u ∈ s.writers.uploads) (hid : u.id = id) {t : Nat} (ht : u.task = some t)
    {T : Task} (hT : (s.writers.world.tasks id)[t]? = some T) {send : Nat × List UInt8}
    (hc : u.Carries send) {i e : Nat} (hie : i < e) (hoffset : send.1 = i * first.pageSize)
    (hlength : send.2.length = (e - i) * first.pageSize) :
    u.pageSize = first.pageSize ∧ T.first = i ∧ T.final + 1 = e := by
  obtain ⟨o, ho, huniform⟩ := h.backed.inv.blob u hu
  have hpageSize : u.pageSize = first.pageSize := by
    rw [← (h.lastRoot (hid ▸ ho)).1]
    exact huniform.last.1.symm
  obtain ⟨T', hT', hholds⟩ := h.backed.inv.task u hu t ht
  have hstart := h.backed.starts u hu hc.append t ht T
  rw [hid] at hT' hstart
  rw [hT] at hT'
  cases hT'
  have hTps : T.pageSize = first.pageSize := hholds.pageSize.trans hpageSize
  have hend : i * first.pageSize + (e - i) * first.pageSize = e * first.pageSize := by
    rw [← Nat.add_mul, Nat.add_sub_cancel' (Nat.le_of_lt hie)]
  refine ⟨hpageSize, ?_, ?_⟩
  · rw [Ticket.first, hTps, hstart hT, hc.offset, hoffset]
    exact Nat.mul_div_cancel _ hps
  · rw [Ticket.final, Query.last, hTps, hstart hT, hholds.size, hc.offset, hc.size, hoffset, hlength,
      hend, Nat.mul_div_cancel _ hps]
    omega

/-- A run of pages that the mapping sends, as numbers of bytes. -/
theorem pageRun_bytes (m : LocalMirror UInt8) (i e : Nat) :
    (m.pageRun i e).1 = i * m.pageSize ∧ (m.pageRun i e).2.length = (e - i) * m.pageSize ∧
      ∀ b < (e - i) * m.pageSize, (m.pageRun i e).2.getD b 0 = m.mapping (i * m.pageSize + b) := by
  refine ⟨rfl, ?_, fun b hb => ?_⟩
  · rw [LocalMirror.pageRun, LocalMirror.bytesAt, List.length_map, List.length_range']
  · rw [LocalMirror.pageRun, LocalMirror.bytesAt, List.getD_eq_getElem?_getD, List.getElem?_map,
      List.getElem?_range' hb, Nat.one_mul]
    rfl

variable {m : LocalMirror UInt8} (hm : m.SendsPages sends) (hmps : m.pageSize = first.pageSize)
  (hps : 0 < first.pageSize)

include hm hmps hps

/-- The tickets on the new blob cover pages that were marked, and their leaves hold the mapping. -/
theorem ticket_mapping (h : Inv retryCount seq id first sends base s) (hcurrent : s.current = none)
    {t : Nat} {T : Task} (hT : (s.writers.world.tasks id)[t]? = some T) {p : Nat}
    (hc : T.Covers (p / first.pageSize)) :
    m.writtenMap (p / first.pageSize) = true ∧
      (s.writers.pageOf (T.page (p / first.pageSize))).bind (fun page => page[p % first.pageSize]?) =
        some (m.mapping p) := by
  obtain ⟨-, u, hu, hid, ht, send, hsend, hcarries⟩ := h.ticket_origin hcurrent hT
  obtain ⟨i, e, hie, -, hw, rfl⟩ := hm.runs send hsend
  obtain ⟨hoffset, hlength, hbytes⟩ := pageRun_bytes m i e
  rw [hmps] at hoffset hlength hbytes
  obtain ⟨hups, hfirst, hfinal⟩ := h.ticket_range hps hu hid ht hT hcarries hie hoffset hlength
  obtain ⟨h1, h2⟩ := hc
  have hT' : (s.writers.world.tasks u.id)[t]? = some T := by
    rw [hid]
    exact hT
  have hleaf := h.backed.leafOf_page hu ht hT' h1 h2
  refine ⟨hw _ (by omega) (by omega), ?_⟩
  rw [h.backed.pageOf hleaf, Option.bind_some, WriteCall.page, List.getElem?_map, hups]
  generalize hx : p / first.pageSize = x at *
  have hmod := Nat.mod_lt p hps
  have hdiv := Nat.div_add_mod' p first.pageSize
  rw [hx] at hdiv
  have hmul : i * first.pageSize + (x - i) * first.pageSize = x * first.pageSize := by
    rw [← Nat.add_mul, Nat.add_sub_cancel' (by omega)]
  have hlt : (x - i) * first.pageSize + p % first.pageSize < (e - i) * first.pageSize := by
    have hle : (x - i + 1) * first.pageSize ≤ (e - i) * first.pageSize :=
      Nat.mul_le_mul_right _ (by omega)
    rw [Nat.succ_mul] at hle
    omega
  rw [List.getElem?_range hmod, Option.map_some, hfirst, hcarries.buffer, hbytes _ hlt]
  exact congrArg (fun q => some (m.mapping q)) (by omega)

/-- Every page that was marked is covered by a ticket. -/
theorem covered (h : Inv retryCount seq id first sends base s) (htodo : s.todo = []) {x : Nat}
    (hx : x < m.pages) (hw : m.writtenMap x = true) :
    ∃ K ∈ s.writers.world.tickets id, K.Covers x := by
  obtain ⟨i, e, hix, hxe, hmem⟩ := hm.all x hx hw
  have hie : i < e := Nat.lt_of_le_of_lt hix hxe
  obtain ⟨hoffset, hlength, -⟩ := pageRun_bytes m i e
  rw [hmps] at hoffset hlength
  obtain hleft | ⟨u, hu, hid, hcarries, T, hT, -⟩ := h.done _ hmem
  · rw [htodo] at hleft
    exact absurd hleft List.not_mem_nil
  · unfold Writers.taskOf at hT
    split at hT
    · next t ht =>
      rw [hid] at hT
      obtain ⟨-, hfirst, hfinal⟩ := h.ticket_range hps hu hid ht hT hcarries hie hoffset hlength
      refine ⟨T.toTicket, List.mem_of_getElem? (World.tickets_at hT), ?_, ?_⟩
      · exact hfirst ▸ hix
      · omega
    · cases hT

/-- The bytes of the latest version of the new blob. -/
theorem byteAt_latest (h : Inv retryCount seq id first sends base s) (hseq : seq id = false)
    (hcurrent : s.current = none) (htodo : s.todo = []) {p : Nat} (hp : p / first.pageSize < m.pages) :
    s.writers.byteAt (s.writers.world.hist.vm.getRoot id 0) p =
      if m.writtenMap (p / first.pageSize) = true then some (m.mapping p)
      else s.writers.byteAt first p := by
  obtain ⟨o, ho, hfirst⟩ := h.obj
  have hlatest := h.latest_at hcurrent ho
  obtain ⟨hlast, -⟩ := h.lastRoot ho
  have hworld := h.backed.world
  have hlen : (s.writers.world.tickets id).length =
      ((s.writers.world.tickets id).map Ticket.pages).length :=
    (List.length_map _).symm
  have hmap := hworld.pageMap_eq ho hlatest
  rw [VManagement.getRoot_latest ho, Writers.byteAt, hlast, hmap]
  by_cases hw : m.writtenMap (p / first.pageSize) = true
  · rw [if_pos hw]
    -- the last ticket that covers the page decides it
    obtain ⟨K, hK, hc⟩ := h.covered hm hmps hps htodo hp hw
    have hversion : ∀ K ∈ s.writers.world.tickets id,
        K.query.version ≤ (s.writers.world.tickets id).length := by
      intro K hK
      obtain ⟨t, ht⟩ := List.mem_iff_getElem?.mp hK
      have hlt := (List.getElem?_eq_some_iff.mp ht).1
      have hver := ((hworld.blob ho).info ht).version
      omega
    obtain ⟨K', hK', -, hc', -, -, hsnap⟩ := hworld.latest ho hseq hlatest ⟨K, hK, hversion K hK, hc⟩
    obtain ⟨T, hT, rfl⟩ := List.mem_map.mp hK'
    obtain ⟨t, ht⟩ := List.mem_iff_getElem?.mp hT
    rw [hsnap]
    exact (h.ticket_mapping hm hmps hps hcurrent ht hc').2
  · rw [if_neg hw]
    have hskip : snapshotAt (base id) (s.writers.world.tickets id)
        (s.writers.world.tickets id).length (p / first.pageSize) =
        snapshotAt (base id) (s.writers.world.tickets id) 0 (p / first.pageSize) := by
      rw [hworld.snapshotAt_dense ho hseq, hworld.snapshotAt_dense ho hseq]
      refine overlay_skip (Nat.zero_le _) hlen.le fun k W _ _ hW => ?_
      rw [List.getElem?_map, Option.map_eq_some_iff] at hW
      obtain ⟨K, hK, rfl⟩ := hW
      refine ⟨fun hc => hw ?_, rfl⟩
      obtain ⟨T, hT, rfl⟩ := Option.map_eq_some_iff.mp ((List.getElem?_map ..).symm.trans hK)
      exact (h.ticket_mapping hm hmps hps hcurrent hT hc).1
    rw [hskip, ← hworld.pageMap_eq ho hfirst]
    rfl

end Inv

/-- The writes that the mapping asks for are whole pages of the blob. -/
theorem pieces_of_sendsPages {m : LocalMirror UInt8} {sends : List (Nat × List UInt8)}
    (hm : m.SendsPages sends) : Pieces m.pageSize m.blobSize sends := by
  intro send hsend
  obtain ⟨i, e, hie, he, -, rfl⟩ := hm.runs send hsend
  obtain ⟨hoffset, hlength, -⟩ := Inv.pageRun_bytes m i e
  refine ⟨Nat.pos_of_ne_zero fun hps => ?_, i, e, hie, ?_, hoffset, hlength⟩
  · rw [LocalMirror.pages, hps, Nat.div_zero] at he
    omega
  · exact (Nat.mul_le_mul_right _ he).trans (Nat.div_mul_le_self ..)

/-- A step of `commit` keeps the roots of every blob that is not published to. -/
theorem step_roots_same (h : s.writers.Inv retryCount) {a : CommitAction}
    (hs : s.step retryCount a = some s') {i : Nat} (hne : ¬ a.Publishes i) {o : ObjInfo}
    (ho : s.writers.world.hist.vm.objHash i = some o) :
    ∃ o', s'.writers.world.hist.vm.objHash i = some o' ∧ o'.roots = o.roots := by
  obtain ⟨rnd, adv, send, rest, w, rfl, -, -, hw, rfl⟩ | ⟨T, rfl, -, -, rfl⟩ |
    ⟨act, w, rfl, hw, rfl⟩ := step_cases hs
  · exact Writers.step_roots_same h hw nofun ho
  · exact ⟨o, ho, rfl⟩
  · refine Writers.step_roots_same h hw ?_ ho
    rintro t outcome rfl
    exact hne rfl

theorem Inv.roots_run {size : Nat} (hsize : size ≤ first.node.size)
    (hpieces : Pieces first.pageSize size sends) (hseq : seq id = false)
    (h : Inv retryCount seq id first sends base s) {acts : List CommitAction}
    (hrun : Run (Committer.step retryCount) (Committer.Ok seq) s acts s') {i : Nat}
    (hne : ∀ a ∈ acts, ¬ a.Publishes i) {o : ObjInfo}
    (ho : s.writers.world.hist.vm.objHash i = some o) :
    ∃ o', s'.writers.world.hist.vm.objHash i = some o' ∧ o'.roots = o.roots := by
  induction hrun generalizing base o with
  | nil => exact ⟨o, ho, rfl⟩
  | cons hok hstep _ ih =>
    obtain ⟨o₁, ho₁, hroots₁⟩ :=
      step_roots_same h.backed.inv hstep (hne _ List.mem_cons_self) ho
    obtain ⟨base', h', -⟩ := h.step hsize hpieces hseq hok hstep
    obtain ⟨o₂, ho₂, hroots₂⟩ := ih h' (fun a ha => hne a (List.mem_cons_of_mem _ ha)) ho₁
    exact ⟨o₂, ho₂, hroots₂.trans hroots₁⟩

/-- The latest version of the new blob is the one with this root, under the bytes written locally. -/
def ShowsOverlay (s : Writers) (root : Root) (locals : Nat → Option UInt8) (c : Committer) : Prop :=
  ∀ p < root.currentSize,
    c.writers.byteAt (c.writers.world.hist.vm.getRoot c.handler.id 0) p =
      (locals p).or (s.byteAt root p)

/-- The published versions of a blob are as before, but for those that others add. -/
def KeepsVersions (s : Writers) (id : Nat) (acts : List CommitAction) (c : Committer) : Prop :=
  ∀ o, s.world.hist.vm.objHash id = some o →
    ∃ o', c.writers.world.hist.vm.objHash id = some o' ∧ o.roots <+: o'.roots ∧
      ((∀ a ∈ acts, ¬ a.Publishes id) → o'.roots = o.roots) ∧
      ∀ r ∈ o.roots, ∀ p, c.writers.byteAt r p = s.byteAt r p

end Committer

/-- What there is at `p` before the clone: the byte of the mapping in a page that is marked, and else the
one of the version `latest`. -/
def clonedByte (s : Writers) (latest : Root) (m : LocalMirror UInt8) (p : Nat) : Option UInt8 :=
  if m.writtenMap (p / m.pageSize) = true then some (m.mapping p) else s.byteAt latest p

/-- `clone_and_commit` from its clone to its last write. -/
theorem cloneAndCommit_run {retryCount : Nat} {seq : Nat → Bool} {base : Nat → PageMap} {s : Writers}
    (hb : s.Backed retryCount seq base) {h : ObjectHandler} {o : ObjInfo}
    (ho : s.world.hist.vm.objHash h.id = some o) {v : Nat} {root : Root} (hv : o.roots[v]? = some root)
    {m : LocalMirror UInt8} (hblob : m.blobSize = root.currentSize) (hps : m.pageSize = root.pageSize)
    {c₁ c : Committer} {acts : List CommitAction} (hclone : cloneAndCommit retryCount s h m = some c₁)
    (hseq : seq c₁.handler.id = false)
    (hcommit : Run (Committer.step retryCount) (Committer.Ok seq) c₁ acts c) (htodo : c.todo = [])
    (hcurrent : c.current = none) :
    c.KeepsVersions s h.id acts ∧ ∀ p < root.currentSize,
      c.writers.byteAt (c.writers.world.hist.vm.getRoot c.handler.id 0) p =
        clonedByte s o.lastRoot m.land p := by
  obtain ⟨m', sends, base₁, hsends, hstep, h₁, hl₁⟩ := Committer.Inv.start hb ho hclone
  have hlast := o.lastRoot_eq (hb.world.blob ho).blob.window.pending.roots_pos
  obtain ⟨hdvd, hsame, hsize⟩ := hb.world.version_sizes ho hv
  rw [← hps] at hsame
  rw [← hps, ← hblob] at hdvd
  rw [← hblob] at hsize
  have hm : m.land.SendsPages sends := LocalMirror.sends_of_dvd (m := m.land) hdvd hsends
  have hpieces : Pieces m.pageSize m.blobSize sends :=
    Committer.pieces_of_sendsPages (m := m.land) hm
  rw [← hsame] at hpieces
  obtain ⟨base₂, h₂, hl₂⟩ := h₁.run hsize hpieces hseq hcommit
  have hl := hl₁.trans hl₂
  refine ⟨fun o' ho' => ?_, fun p hp => ?_⟩
  · rw [ho] at ho'
    cases ho'
    obtain ⟨o₂, ho₂, hprefix⟩ := hl.world.roots ho
    refine ⟨o₂, ho₂, hprefix, fun hne => ?_, fun r hr p => ?_⟩
    · obtain ⟨o₁, ho₁, hroots₁⟩ := Writers.step_roots_same hb.inv hstep nofun ho
      obtain ⟨o₂', ho₂', hroots₂⟩ := h₁.roots_run hsize hpieces hseq hcommit hne ho₁
      rw [ho₂] at ho₂'
      cases ho₂'
      exact hroots₂.trans hroots₁
    · obtain ⟨k, hk⟩ := List.mem_iff_getElem?.mp hr
      exact hb.byteAt_later h₂.backed hl ho hk p
  · have hpage : p / m.pageSize < m.pages :=
      Nat.div_lt_div_of_lt_of_dvd hdvd (hblob ▸ hp)
    have hpos : 0 < m.pageSize := Nat.pos_of_dvd_of_pos hdvd (by omega)
    rw [← hsame] at hpage hpos
    have hbyte := h₂.byteAt_latest hm hsame.symm hpos hseq hcurrent htodo hpage
    rw [h₂.handler.1, hbyte, hb.byteAt_later h₂.backed hl ho hlast, hsame]
    rfl

/-- The mirror `m` comes from a new mirror of the version with this root by reads and writes; the
writes have succeeded, and went to bytes that were not in flight. What the pages that were never written
would hold makes no difference: a remote read of one fails. -/
def MirrorOf (s : Writers) (root : Root) (m : MirrorState UInt8) : Prop :=
  ∃ file beyond acts, ∀ mirrored : Nat → UInt8,
    (∀ p b, s.byteAt root p = some b → mirrored p = b) →
      Run (MirrorState.step mirrored) (MirrorState.Succeeds mirrored)
        (.new root.currentSize root.pageSize file beyond) acts m

namespace MirrorOf

variable {s : Writers} {root : Root} {m : MirrorState UInt8}

/-- Some byte for the bytes that the version does not have. -/
theorem shows (h : MirrorOf s root m) (hps : 0 < root.pageSize)
    (hdvd : root.pageSize ∣ root.currentSize) (junk : UInt8) :
    m.Inv (fun p => (s.byteAt root p).getD junk) root.currentSize root.pageSize := by
  obtain ⟨file, beyond, acts, hrun⟩ := h
  refine MirrorState.inv_run (hrun _ fun p b hb => ?_) (MirrorState.inv_new hps hdvd)
  rw [hb, Option.getD_some]

/-- A valid byte is one that was written locally, or one that the version has. -/
theorem valid_byte (h : MirrorOf s root m) (hps : 0 < root.pageSize)
    (hdvd : root.pageSize ∣ root.currentSize) {p : Nat} (hv : m.mirror.Valid p) :
    some (m.mirror.land.mapping p) = (m.locals p).or (s.byteAt root p) := by
  have h0 := (h.shows hps hdvd 0).shows.land.valid p hv
  have h1 := (h.shows hps hdvd 1).shows.land.valid p hv
  cases hl : m.locals p with
  | some b =>
    rw [hl] at h0
    exact congrArg some h0
  | none =>
    rw [hl] at h0 h1
    cases hb : s.byteAt root p with
    | some b =>
      rw [hb] at h0
      exact congrArg some h0
    | none =>
      rw [hb] at h0 h1
      exact absurd (h0.symm.trans h1) (by decide)

end MirrorOf

/-- **`clone_and_commit`.** In every run, for every version of a blob and every mirror of it: after a
`clone_and_commit` that returns `true` the latest version of the new blob is the mirrored one under the
local writes, and the original has the versions that it had, exactly when the bytes that the clone is
made of are those that the mirror should show, once the requests in flight are answered. When the writes
have succeeded on bytes that were not in flight, and the pages that they marked are fully loaded, that is
so exactly when every other page is the same in the latest version of the original as in the mirrored
one. -/
theorem clone_and_commit_mirrored_iff {retryCount : Nat} {seq : Nat → Bool} {s : Writers}
    {as : List WriterAction} (hrun : Run (Writers.step retryCount) (Writers.Sound seq) {} as s)
    {h : ObjectHandler} {o : ObjInfo} (ho : s.world.hist.vm.objHash h.id = some o) {v : Nat}
    {root : Root} (hv : o.roots[v]? = some root) {m : MirrorState UInt8}
    (hblob : m.mirror.blobSize = root.currentSize) (hps : m.mirror.pageSize = root.pageSize)
    {c₁ c : Committer} {acts : List CommitAction}
    (hclone : cloneAndCommit retryCount s h m.mirror = some c₁) (hseq : seq c₁.handler.id = false)
    (hcommit : Run (Committer.step retryCount) (Committer.Ok seq) c₁ acts c) (htodo : c.todo = [])
    (hcurrent : c.current = none) :
    (c.ShowsOverlay s root m.locals ∧ c.KeepsVersions s h.id acts ↔
      ∀ p < root.currentSize,
        clonedByte s o.lastRoot m.mirror.land p = (m.locals p).or (s.byteAt root p)) ∧
    (MirrorOf s root m →
      (∀ i < m.mirror.pages, m.mirror.writtenMap i = true →
        m.mirror.chunkMap i = m.mirror.pageSize) →
      (c.ShowsOverlay s root m.locals ∧ c.KeepsVersions s h.id acts ↔
        ∀ p < root.currentSize, m.mirror.writtenMap (p / root.pageSize) = false →
          s.byteAt o.lastRoot p = s.byteAt root p)) := by
  obtain ⟨base, hb, -⟩ := (Writers.Backed.empty retryCount seq).run hrun
  obtain ⟨hkeeps, hbytes⟩ :=
    cloneAndCommit_run hb ho hv hblob hps hclone hseq hcommit htodo hcurrent
  have hiff : (c.ShowsOverlay s root m.locals ∧ c.KeepsVersions s h.id acts ↔
      ∀ p < root.currentSize,
        clonedByte s o.lastRoot m.mirror.land p = (m.locals p).or (s.byteAt root p)) := by
    refine (and_iff_left hkeeps).trans (forall₂_congr fun p hp => ?_)
    rw [hbytes p hp]
  refine ⟨hiff, fun hmirror hloaded => hiff.trans (forall₂_congr fun p hp => ?_)⟩
  obtain ⟨hdvd, -⟩ := hb.world.version_sizes ho hv
  have hpos : 0 < root.pageSize := Nat.pos_of_dvd_of_pos hdvd (by omega)
  have hinv := hmirror.shows hpos hdvd 0
  show (if m.mirror.writtenMap (p / m.mirror.pageSize) = true then some (m.mirror.land.mapping p)
    else s.byteAt o.lastRoot p) = _ ↔ _
  rw [hps]
  cases hw : m.mirror.writtenMap (p / root.pageSize) with
  | true =>
    -- a page that is fully loaded has what the mirror shows
    have hpage : p / root.pageSize < m.mirror.pages := by
      rw [LocalMirror.pages, hblob, hps]
      exact Nat.div_lt_div_of_lt_of_dvd hdvd hp
    have hvalid : m.mirror.Valid p := by
      rw [LocalMirror.Valid, hps, hloaded _ hpage hw, hps]
      exact Nat.mod_lt p hpos
    rw [if_pos rfl]
    refine iff_of_true (hmirror.valid_byte hpos hdvd hvalid) ?_
    rintro ⟨⟩
  | false =>
    have hlocal : m.locals p = none := by
      cases hl : m.locals p with
      | none => rfl
      | some b =>
        have hwritten := (hinv.shows.local_written p (by rw [hl]; rfl)).2
        rw [hps, hw] at hwritten
        cases hwritten
    rw [if_neg Bool.false_ne_true, hlocal, Option.none_or]
    exact ⟨fun he _ => he, fun he => he rfl⟩

/-- A blob of two pages, each byte of them one, and a second version in which those of the first page
are two. -/
def firstPageTwice : List WriterAction :=
  [.other (.create 4 1),
    .execWrite ⟨1, Root.make 1 0 4 0 1, 71, 0, 8, fun _ => 1, false, [⟨"a", "1"⟩, ⟨"b", "1"⟩]⟩,
    .reply 0 0 .ok, .reply 0 0 .ok, .ticket 0 fun _ => false, .other (.put 1 0 0 .acked),
    .other (.put 1 0 0 .acked), .other (.put 1 0 0 .acked), .other (.put 1 0 0 .acked),
    .other (.wait 1 0), .other (.put 1 0 0 .acked), .other (.wait 1 0),
    .other (.publish 1 0 .answered),
    .execWrite ⟨1, Root.make 1 0 4 0 1, 72, 0, 4, fun _ => 2, false, [⟨"a", "1"⟩]⟩,
    .reply 1 0 .ok, .ticket 1 fun _ => false, .other (.put 1 1 0 .acked),
    .other (.put 1 1 0 .acked), .other (.get 1 1 0), .other (.get 1 1 0), .other (.get 1 1 0),
    .other (.get 1 1 0), .other (.wait 1 1), .other (.put 1 1 0 .acked), .other (.wait 1 1),
    .other (.publish 1 1 .answered)]

/-- A mirror of two pages, one of which is written. -/
def onePageWritten (off : Nat) : MirrorState UInt8 :=
  ((MirrorState.new 8 4 (fun _ => 0) fun _ => false).step (fun _ => 0)
    (.write 4 off (fun _ => 9) fun _ => none)).getD (.new 8 4 (fun _ => 0) fun _ => false)

/-- The page is written to the clone. -/
def commitOnePage : List CommitAction :=
  [.write 81 [⟨"a", "1"⟩], .other (.reply 2 0 .ok), .other (.ticket 2 fun _ => false),
    .other (.other (.put 2 0 0 .acked)), .other (.other (.put 2 0 0 .acked)),
    .other (.other (.get 2 0 0)), .other (.other (.get 2 0 0)), .other (.other (.get 2 0 0)),
    .other (.other (.get 2 0 0)), .other (.other (.wait 2 0)), .other (.other (.put 2 0 0 .acked)),
    .other (.other (.wait 2 0)), .other (.other (.publish 2 0 .answered)), .returned]

theorem onePageWritten_mirrorOf {off : Nat} (hoff : off = 0 ∨ off = 4) {s : Writers} {root : Root}
    (hsize : root.currentSize = 8) (hps : root.pageSize = 4) :
    MirrorOf s root (onePageWritten off) := by
  refine ⟨fun _ => 0, fun _ => false, [.write 4 off (fun _ => 9) fun _ => none], fun mirrored _ => ?_⟩
  rw [hsize, hps]
  rcases hoff with rfl | rfl
  · exact .single ⟨rfl, fun _ _ _ => rfl⟩ rfl
  · exact .single ⟨rfl, fun _ _ _ => rfl⟩ rfl

theorem onePageWritten_loaded {off : Nat} (hoff : off = 0 ∨ off = 4) :
    (onePageWritten off).mirror.blobSize = 8 ∧ (onePageWritten off).mirror.pageSize = 4 ∧
      ∀ i < (onePageWritten off).mirror.pages, (onePageWritten off).mirror.writtenMap i = true →
        (onePageWritten off).mirror.chunkMap i = (onePageWritten off).mirror.pageSize := by
  rcases hoff with rfl | rfl
  · decide +kernel
  · decide +kernel

/-- The mirror shows version `1`, and is committed to a clone after version `2` was published. -/
theorem commitOnePage_run {off : Nat} (hoff : off = 0 ∨ off = 4) :
    ∃ s o root c₁ c, Run (Writers.step 1) (Writers.Sound fun _ => false) {} firstPageTwice s ∧
      s.world.hist.vm.objHash 1 = some o ∧ o.roots[1]? = some root ∧ root.currentSize = 8 ∧
      root.pageSize = 4 ∧ cloneAndCommit 1 s { id := 1 } (onePageWritten off).mirror = some c₁ ∧
      Run (Committer.step 1) (Committer.Ok fun _ => false) c₁ commitOnePage c ∧ c.todo = [] ∧
      c.current = none ∧ s.byteAt root 0 = some 1 ∧ s.byteAt o.lastRoot 0 = some 2 ∧
      (∀ p < 8, 4 ≤ p → s.byteAt o.lastRoot p = s.byteAt root p) ∧
      c.writers.byteAt (c.writers.world.hist.vm.getRoot c.handler.id 0) 0 =
        some (if off = 0 then 9 else 2) := by
  have hrun : Run (Writers.step 1) (Writers.Sound fun _ => false) {} firstPageTwice _ :=
    Run.of_isSome {} (by decide +kernel)
  generalize hs : (exec (Writers.step 1) (Writers.Sound fun _ => false) {} firstPageTwice).getD {} = s
    at hrun
  have hblob : ∃ o ∈ s.world.hist.vm.objHash 1, ∃ root ∈ o.roots[1]?, root.currentSize = 8 ∧
      root.pageSize = 4 ∧ s.byteAt root 0 = some 1 ∧ s.byteAt o.lastRoot 0 = some 2 ∧
      ∀ p < 8, 4 ≤ p → s.byteAt o.lastRoot p = s.byteAt root p := by
    rw [← hs]
    decide +kernel
  have hcommit : ∃ c₁ ∈ cloneAndCommit 1 s { id := 1 } (onePageWritten off).mirror,
      ∃ c ∈ exec (Committer.step 1) (Committer.Ok fun _ => false) c₁ commitOnePage,
        c.todo = [] ∧ c.current = none ∧
          c.writers.byteAt (c.writers.world.hist.vm.getRoot c.handler.id 0) 0 =
            some (if off = 0 then 9 else 2) := by
    rw [← hs]
    rcases hoff with rfl | rfl
    · decide +kernel
    · decide +kernel
  obtain ⟨o, ho, root, hv, hsize, hps, hfirst, hlast, hsame⟩ := hblob
  obtain ⟨c₁, hclone, c, hc, htodo, hcurrent, hbyte⟩ := hcommit
  exact ⟨s, o, root, c₁, c, hrun, ho, hv, hsize, hps, hclone, Run.of_exec hc, htodo, hcurrent, hfirst,
    hlast, hsame, hbyte⟩

/-- The page that differs is written, so the clone shows version `1` under it. -/
theorem clone_and_commit_mirrored_first_page :
    ∃ (s : Writers) (o : ObjInfo) (root : Root) (c : Committer),
      Run (Writers.step 1) (Writers.Sound fun _ => false) {} firstPageTwice s ∧
      s.world.hist.vm.objHash 1 = some o ∧ o.roots[1]? = some root ∧
      s.byteAt o.lastRoot 0 ≠ s.byteAt root 0 ∧
      c.ShowsOverlay s root (onePageWritten 0).locals ∧ c.KeepsVersions s 1 commitOnePage := by
  obtain ⟨s, o, root, c₁, c, hrun, ho, hv, hsize, hps, hclone, hcommit, htodo, hcurrent, hfirst, hlast,
    hsame, -⟩ := commitOnePage_run (.inl rfl)
  obtain ⟨hmblob, hmps, hloaded⟩ := onePageWritten_loaded (.inl rfl)
  have hiff := (clone_and_commit_mirrored_iff hrun ho hv (hmblob.trans hsize.symm)
    (hmps.trans hps.symm) hclone rfl hcommit htodo hcurrent).2
    (onePageWritten_mirrorOf (.inl rfl) hsize hps) hloaded
  refine ⟨s, o, root, c, hrun, ho, hv, by rw [hfirst, hlast]; decide, hiff.mpr fun p hp hw => ?_⟩
  rw [hsize] at hp
  rw [hps] at hw
  refine hsame p hp (Nat.le_of_not_lt fun hlt => ?_)
  rw [Nat.div_eq_of_lt hlt] at hw
  exact absurd hw (by decide +kernel)

/-- The page that differs is not written. The clone has the first page of version `2`. -/
theorem clone_takes_latest_version :
    ∃ s o root c₁ c, Run (Writers.step 1) (Writers.Sound fun _ => false) {} firstPageTwice s ∧
      s.world.hist.vm.objHash 1 = some o ∧ o.roots[1]? = some root ∧
      MirrorOf s root (onePageWritten 4) ∧
      (∀ i < (onePageWritten 4).mirror.pages, (onePageWritten 4).mirror.writtenMap i = true →
        (onePageWritten 4).mirror.chunkMap i = (onePageWritten 4).mirror.pageSize) ∧
      cloneAndCommit 1 s { id := 1 } (onePageWritten 4).mirror = some c₁ ∧
      Run (Committer.step 1) (Committer.Ok fun _ => false) c₁ commitOnePage c ∧ c.todo = [] ∧
      c.current = none ∧ ¬ c.ShowsOverlay s root (onePageWritten 4).locals := by
  obtain ⟨s, o, root, c₁, c, hrun, ho, hv, hsize, hps, hclone, hcommit, htodo, hcurrent, hfirst, -, -,
    hbyte⟩ := commitOnePage_run (.inr rfl)
  obtain ⟨-, -, hloaded⟩ := onePageWritten_loaded (.inr rfl)
  refine ⟨s, o, root, c₁, c, hrun, ho, hv, onePageWritten_mirrorOf (.inr rfl) hsize hps, hloaded,
    hclone, hcommit, htodo, hcurrent, fun hshows => ?_⟩
  have hlocal : (onePageWritten 4).locals 0 = none := by
    decide +kernel
  have h0 := hshows 0 (by omega)
  rw [hbyte, hlocal, hfirst] at h0
  exact absurd h0 (by decide)

end BlobSeer
