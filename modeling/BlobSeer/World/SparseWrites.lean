import BlobSeer.World.Versions

/-!
# Writes far beyond the tree

On a blob that is written one write at a time a write may start anywhere. The new tree keeps the
rest of the blob exactly when the write starts before twice the size of the stable tree, or when
there is no stable tree (`write_preserves_iff`). Otherwise the block that holds the stable tree
has a size between that of the stable tree and that of the new one; nobody makes its node, and
`search_list` finds no sibling of that size.
-/

namespace BlobSeer

open Lib

namespace World

/-- The write of a ticket against the versions before it: its tree holds the new pages, and
outside of the write everything that some earlier version wrote is as in the stable version.
`first` is version `0` of the blob. -/
def Preserves (w : World) (id : Nat) (first : Root) (K : Ticket) : Prop :=
  (∀ x, K.Covers x → pageMap w.dht K.tree x = some (K.page x)) ∧
    ∀ x, ¬ K.Covers x →
      (pageMap w.dht first x ≠ none ∨
        ∃ K' ∈ w.tickets id, K'.query.version < K.query.version ∧ K'.Covers x) →
      pageMap w.dht K.tree x = pageMap w.dht K.reply.stableRoot x

variable {seq : Nat → Bool} {base : Nat → PageMap} {w : World}

/-- The page maps of a complete write on a sequential blob, and of its stable version. -/
theorem Inv.sequential (h : Inv seq base w) {id t : Nat} (hseq : seq id = true) {T : Task}
    {o : ObjInfo} (ho : w.hist.vm.objHash id = some o) (hT : (w.tasks id)[t]? = some T)
    (hdone : T.writer.stage = .done ∧ T.writer.result = true) :
    pageMap w.dht T.tree = T.write.apply (snapshotAt (base id) (w.tickets id) t) ∧
      pageMap w.dht T.reply.stableRoot = snapshotAt (base id) (w.tickets id) t ∧
      o.roots[t]? = some T.reply.stableRoot := by
  have hb := h.blob ho
  have hK := tickets_at hT
  have hinfo := hb.info hK
  have hst := hb.seqTicket hseq hK
  have hroot : o.roots[t]? = some T.reply.stableRoot := by
    rw [← hinfo.stable, hst]
  have hlt := (List.getElem?_eq_some_iff.1 hroot).1
  refine ⟨?_, h.pageMap_eq ho hroot, hroot⟩
  have htree := hb.tree_denotes hK fun t' K' ht' hK' => by
    by_cases he : t' = t
    · subst he
      rw [hK] at hK'
      cases hK'
      exact ⟨T.writer, h.task hT, hdone⟩
    · exact h.complete ho hlt (by omega) hK'
  rw [← BlobInv.snapshot_succ hK]
  have hroot' : RootDenotes w.dht o.pageSize (snapshotAt (base id) (w.tickets id) (t + 1)) T.tree :=
    ⟨rfl, .inr ⟨_, htree⟩⟩
  exact hroot'.pageMap_eq hinfo.pageSize h.noZero

/-- A ticket of a sequential blob is far exactly when it starts at twice the stable tree or
later. -/
theorem Inv.far_iff (h : Inv seq base w) {id t : Nat} (hseq : seq id = true) {T : Task}
    (hT : (w.tasks id)[t]? = some T) :
    T.far = false ↔ T.reply.stableRoot.node.size = 0 ∨
      T.query.offset < 2 * T.reply.stableRoot.node.size := by
  obtain ⟨o, ho, hinfo⟩ := h.blob_of_task hT
  have hb := h.blob ho
  have hK := tickets_at hT
  have hst := hb.seqTicket hseq hK
  have hlen := hinfo.length
  obtain ⟨hsize, hpages, -⟩ := hb.stable_size hK
  have hps := hinfo.shape.pageSize_pos
  rw [hsize, hpages, hinfo.shape.offset, Ticket.far, decide_eq_false_iff_not]
  have hlt : T.first * T.pageSize < 2 * (T.pageSize * T.stablePages) ↔
      T.first < 2 * T.stablePages := by
    rw [show 2 * (T.pageSize * T.stablePages) = 2 * T.stablePages * T.pageSize by ring]
    exact Nat.mul_lt_mul_right hps
  rw [hlt, Nat.mul_eq_zero]
  omega

end World

/-- **Writes anywhere.** On a blob whose writes do not overlap in time, a write at any page-aligned
offset whose puts have all succeeded preserves the rest of the blob exactly when there is no stable
tree or the write starts before twice the size of the stable tree. -/
theorem write_preserves_iff {seq : Nat → Bool} {w : World} {as : List Action}
    (hrun : Run World.step (World.Ok seq) {} as w) {id t : Nat} (hseq : seq id = true)
    {o : ObjInfo} (ho : w.hist.vm.objHash id = some o) {first : Root}
    (hfirst : o.roots[0]? = some first) {T : Task} (hT : (w.tasks id)[t]? = some T)
    (hdone : T.writer.stage = .done ∧ T.writer.result = true) :
    w.Preserves id first T.toTicket ↔ T.reply.stableRoot.node.size = 0 ∨
      T.query.offset < 2 * T.reply.stableRoot.node.size := by
  obtain ⟨base, h, -⟩ := World.inv_run (World.inv_empty _) hrun
  obtain ⟨htree, hstable, hroot⟩ := h.sequential hseq ho hT hdone
  have hb := h.blob ho
  have hK := World.tickets_at hT
  have hinfo := hb.info hK
  rw [← h.far_iff hseq hT]
  unfold World.Preserves
  rw [htree, hstable]
  constructor
  · rintro ⟨-, hkeep⟩
    by_contra hfar
    have hfar : T.far = true := by simpa using hfar
    -- a page of the stable version that the write does not cover is gone
    have hlost : ∀ x, snapshotAt (base id) (w.tickets id) t x ≠ none → ¬ T.Covers x := by
      intro x hx hc
      obtain ⟨-, hpages, -⟩ := hb.stable_size hK
      rw [hb.seqTicket (by simpa using hseq) hK] at hpages
      rw [Ticket.far, decide_eq_true_eq] at hfar
      have hlt := (List.getElem?_eq_some_iff.1 hK).1
      refine hx (hb.support (by omega) ?_ (hinfo.pageSize ▸ hinfo.shape.pageSize_pos))
      rw [hpages, hinfo.pageSize, Nat.mul_comm]
      refine Nat.mul_le_mul_right _ ?_
      have := hc.1
      omega
    have hgone : ∀ x, snapshotAt (base id) (w.tickets id) t x ≠ none →
        ¬ (pageMap w.dht first x ≠ none ∨ ∃ K' ∈ w.tickets id,
          K'.query.version < T.query.version ∧ K'.Covers x) := by
      intro x hx hwritten
      have hc : ¬ T.write.Covers x := hlost x hx
      have heq := hkeep x hc hwritten
      rw [Write.apply_of_wipes hc hfar] at heq
      exact hx heq.symm
    cases t with
    | zero =>
      rw [hfirst] at hroot
      cases hroot
      obtain ⟨-, (⟨h0, -⟩ | ⟨M, hM⟩)⟩ := h.root_denotes ho hfirst
      · rw [Ticket.far, decide_eq_true_eq, Ticket.stablePages, h0, Nat.zero_div] at hfar
        omega
      · obtain ⟨x, hx⟩ := hM.nonempty
        refine hgone x hx (.inl ?_)
        rw [hstable]
        exact hx
    | succ t =>
      have hlt := (List.getElem?_eq_some_iff.1 hK).1
      have hK' := List.getElem?_eq_getElem (show t < (w.tickets id).length by omega)
      have hinfo' := hb.info hK'
      have hc : (w.tickets id)[t].write.Covers (w.tickets id)[t].first :=
        ⟨Nat.le_refl _, hinfo'.shape.le⟩
      refine hgone (w.tickets id)[t].first ?_
        (.inr ⟨_, List.mem_of_getElem? hK', ?_, hc⟩)
      · rw [BlobInv.snapshot_succ hK', Write.apply_of_covers hc]
        exact Option.some_ne_none _
      · rw [hinfo.version, hinfo'.version]
        omega
  · intro hfar
    refine ⟨fun x hc => ?_, fun x hc _ => ?_⟩
    · have hc : T.write.Covers x := hc
      exact Write.apply_of_covers hc _
    · have hc : ¬ T.write.Covers x := hc
      exact Write.apply_of_not_covers hc hfar _

/-- A write of page `0`, published, and then a write of page `offset`; the steps of the second
writer after its ticket are `steps`. -/
def secondWrite (offset : Nat) (steps : List Action) : List Action :=
  [.create 1 1, .ticket ⟨1, 101, 0, 1⟩ false [⟨"a", "1"⟩], .put 1 0 0 .acked, .put 1 0 0 .acked,
    .wait 1 0, .wait 1 0, .publish 1 0 .answered, .ticket ⟨1, 102, offset, 1⟩ false [⟨"b", "1"⟩]] ++
  steps

/-- The second write starts at page `1`, inside twice the stable tree. -/
theorem write_preserves_next_page :
    ∃ w o first T, Run World.step (World.Ok fun _ => true) {}
        (secondWrite 1 [.put 1 1 0 .acked, .put 1 1 0 .acked, .wait 1 1, .put 1 1 0 .acked,
          .wait 1 1]) w ∧
      w.hist.vm.objHash 1 = some o ∧ o.roots[0]? = some first ∧ (w.tasks 1)[1]? = some T ∧
      (T.reply.stableRoot.node.size = 0 ∨ T.query.offset < 2 * T.reply.stableRoot.node.size) ∧
      w.Preserves 1 first T.toTicket := by
  have hrun : Run World.step (World.Ok fun _ => true) {} (secondWrite 1 [.put 1 1 0 .acked,
    .put 1 1 0 .acked, .wait 1 1, .put 1 1 0 .acked, .wait 1 1]) _ :=
    Run.of_isSome {} (by decide +kernel)
  generalize hw : (exec World.step (World.Ok fun _ => true) {} _).getD {} = w at hrun
  have hroot : (w.hist.vm.objHash 1).bind (·.roots[0]?) = some ⟨⟨1, 0, 0, 0⟩, 1, 0, 1⟩ := by
    rw [← hw]
    decide +kernel
  have htask : ∃ T ∈ (w.tasks 1)[1]?, (T.writer.stage = .done ∧ T.writer.result = true) ∧
      (T.reply.stableRoot.node.size = 0 ∨ T.query.offset < 2 * T.reply.stableRoot.node.size) := by
    rw [← hw]
    decide +kernel
  obtain ⟨o, ho, hfirst⟩ := Option.bind_eq_some_iff.1 hroot
  obtain ⟨T, hT, hdone, hcond⟩ := htask
  exact ⟨w, o, _, T, hrun, ho, hfirst, hT, hcond,
    (write_preserves_iff hrun rfl ho hfirst hT hdone).2 hcond⟩

/-- The second write starts at page `2`: page `0` is gone from the new tree. -/
theorem far_write_loses_page :
    ∃ w o first T, Run World.step (World.Ok fun _ => true) {}
        (secondWrite 2 [.put 1 1 0 .acked, .put 1 1 0 .acked, .wait 1 1, .put 1 1 0 .acked,
          .put 1 1 0 .acked, .wait 1 1]) w ∧
      w.hist.vm.objHash 1 = some o ∧ o.roots[0]? = some first ∧ (w.tasks 1)[1]? = some T ∧
      T.writer.stage = .done ∧ T.writer.result = true ∧ ¬ w.Preserves 1 first T.toTicket := by
  have hrun : Run World.step (World.Ok fun _ => true) {} (secondWrite 2 [.put 1 1 0 .acked,
    .put 1 1 0 .acked, .wait 1 1, .put 1 1 0 .acked, .put 1 1 0 .acked, .wait 1 1]) _ :=
    Run.of_isSome {} (by decide +kernel)
  generalize hw : (exec World.step (World.Ok fun _ => true) {} _).getD {} = w at hrun
  have hroot : (w.hist.vm.objHash 1).bind (·.roots[0]?) = some ⟨⟨1, 0, 0, 0⟩, 1, 0, 1⟩ := by
    rw [← hw]
    decide +kernel
  have htask : ∃ T ∈ (w.tasks 1)[1]?, T.writer.stage = .done ∧ T.writer.result = true ∧
      ¬ T.Covers 0 ∧
      (∃ K' ∈ w.tickets 1, K'.query.version < T.query.version ∧ K'.Covers 0) ∧
      pageMap w.dht T.tree 0 ≠ pageMap w.dht T.reply.stableRoot 0 := by
    rw [← hw]
    decide +kernel
  obtain ⟨o, ho, hfirst⟩ := Option.bind_eq_some_iff.1 hroot
  obtain ⟨T, hT, hstage, hresult, hc, hwritten, hne⟩ := htask
  exact ⟨w, o, _, T, hrun, ho, hfirst, hT, hstage, hresult,
    fun h => hne (h.2 0 hc (.inr hwritten))⟩

end BlobSeer
