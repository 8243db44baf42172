import BlobSeer.RangeQuery.Reader
import BlobSeer.World.Steps

/-!
# Reading published versions

On densely written blobs a published version is the page map of its tickets: a read returns, for
every page, what the latest ticket that covers it has put, and never anything else for the rest of
the run (`snapshot_read`). A clone starts from the page map of the root it was made from and is
overlaid with its own tickets only (`clone_overlay`).
-/

namespace BlobSeer

open Lib
open VManagement (rootAt)

/-- The page map of a snapshot: every page, followed down from the root. -/
def pageMap (dht : Dht) (root : Root) : PageMap := fun x =>
  if x * root.pageSize < root.node.size then
    resolve dht (Nat.log2 (root.node.size / root.pageSize)) root.node x
  else none

theorem RootDenotes.pageMap_eq {dht : Dht} {ps : Nat} {m : PageMap} {r : Root}
    (h : RootDenotes dht ps m r) (hps : r.pageSize = ps) (hz : NoZero dht) : pageMap dht r = m := by
  funext x
  unfold pageMap
  rw [hps]
  obtain ⟨-, (⟨hs, hm⟩ | ⟨M, hM⟩)⟩ := h
  · rw [hs, if_neg (Nat.not_lt_zero _), hm]
  · have hlt : x * ps < ps * 2 ^ M ↔ x < 2 ^ M := by
      rw [Nat.mul_comm]
      exact Nat.mul_lt_mul_left hM.pageSize_pos
    rw [hM.size, Nat.mul_div_cancel_left _ hM.pageSize_pos, Nat.log2_two_pow]
    split
    · rename_i hx
      exact hM.denotes.resolve_eq hz x (Nat.div_eq_of_lt (hlt.1 hx))
    · rename_i hx
      refine (hM.support x ?_).symm
      rw [hlt] at hx
      omega

namespace Ticket

/-- The pages that a write covers. -/
def Covers (K : Ticket) (x : Nat) : Prop := K.first ≤ x ∧ x ≤ K.final

instance (K : Ticket) (x : Nat) : Decidable (K.Covers x) := by
  unfold Covers
  infer_instance

/-- The write as a plain overwriting of its pages. -/
def pages (K : Ticket) : Write RandomSelect := ⟨K.first, K.final, K.page, false⟩

end Ticket

/-- A run in which every ticket is an append or starts at most at `max_size`. -/
abbrev DenseRun : World → List Action → World → Prop :=
  Run World.step (World.Ok fun _ => false)

namespace World.Inv

variable {seq : Nat → Bool} {base : Nat → PageMap} {w : World}

theorem pageSize_eq (h : Inv seq base w) {id : Nat} {o : ObjInfo}
    (ho : w.hist.vm.objHash id = some o) {v : Nat} {r : Root} (hr : o.roots[v]? = some r) :
    r.pageSize = o.pageSize :=
  (h.blob ho).blob.geometry.pageSize (ObjInfo.mem_allRoots (List.mem_of_getElem? hr))

/-- The sizes of a version, next to those of the latest one. -/
theorem version_sizes (h : Inv seq base w) {id : Nat} {o : ObjInfo}
    (ho : w.hist.vm.objHash id = some o) {v : Nat} {root : Root} (hv : o.roots[v]? = some root) :
    root.pageSize ∣ root.currentSize ∧ o.lastRoot.pageSize = root.pageSize ∧
      root.currentSize ≤ o.lastRoot.node.size := by
  have hgeometry := (h.blob ho).blob.geometry
  have hlt := (List.getElem?_eq_some_iff.mp hv).1
  have hlast := o.lastRoot_eq (h.blob ho).blob.window.pending.roots_pos
  have hall := ObjInfo.allRoots_of_roots hv
  obtain ⟨hdvd, hle⟩ := hgeometry.current (List.mem_of_getElem? hall)
  have hps := h.pageSize_eq ho hv
  refine ⟨hps ▸ hdvd, (h.pageSize_eq ho hlast).trans hps.symm, hle.trans ?_⟩
  exact hgeometry.size_le hall (ObjInfo.allRoots_of_roots hlast) (by omega)

theorem pageMap_eq (h : Inv seq base w) {id : Nat} {o : ObjInfo}
    (ho : w.hist.vm.objHash id = some o) {v : Nat} {r : Root} (hr : o.roots[v]? = some r) :
    pageMap w.dht r = snapshotAt (base id) (w.tickets id) v :=
  (h.root_denotes ho hr).pageMap_eq (h.pageSize_eq ho hr) h.noZero

/-- A published root and its page map stay. -/
theorem pageMap_later (h : Inv seq base w) {base' : Nat → PageMap} {w' : World}
    (h' : Inv seq base' w') (he : Evolves base base' w w') {id : Nat} {o : ObjInfo}
    (ho : w.hist.vm.objHash id = some o) {v : Nat} {r : Root} (hr : o.roots[v]? = some r) :
    ∃ o', w'.hist.vm.objHash id = some o' ∧ o'.roots[v]? = some r ∧
      pageMap w'.dht r = pageMap w.dht r := by
  obtain ⟨o', ho', hp⟩ := he.roots ho
  have hr' := getElem?_of_isPrefix hp hr
  refine ⟨o', ho', hr', ?_⟩
  have hlen : v ≤ (w.tickets id).length := by
    have := (List.getElem?_eq_some_iff.1 hr).1
    have := (h.blob ho).length_eq
    have := (h.blob ho).blob.window.pending.count
    omega
  obtain ⟨l, hl⟩ := he.tickets id
  rw [h'.pageMap_eq ho' hr', h.pageMap_eq ho hr, he.base ho, ← hl, snapshotAt_append _ hlen]

/-- A read of pages that the version has, while anything may be put. -/
theorem read (h : Inv seq base w) {id : Nat} {o : ObjInfo} (ho : w.hist.vm.objHash id = some o)
    {v : Nat} {root : Root} (hr : o.roots[v]? = some root) {a n : Nat} (hn : 0 < n)
    (hn32 : n ≤ 2 ^ 32)
    (hw : ∀ x, a ≤ x → x < a + n → snapshotAt (base id) (w.tickets id) v x ≠ none)
    {dhts : Nat → Dht} (hle : ∀ k, DhtLe w.dht (dhts k)) (sched : Nat → Nat) {range : Query}
    (hoff : range.offset = a * root.pageSize) (hsize : range.size = n * root.pageSize) :
    ∃ fuel0, ∀ fuel, fuel0 ≤ fuel → readRecordLocations dhts sched fuel n range root =
      some (true, (List.range' a n).map fun x =>
        (snapshotAt (base id) (w.tickets id) v x).getD {}) := by
  have hps := h.pageSize_eq ho hr
  obtain ⟨-, (⟨-, hm⟩ | ⟨M, hM⟩)⟩ := h.root_denotes ho hr
  · exact absurd (hm a) (hw a (Nat.le_refl a) (by omega))
  · have hbM : a + n - 1 < 2 ^ M := by
      by_contra hge
      exact hw (a + n - 1) (by omega) (by omega) (hM.support _ (by omega))
    have hb : (a + n - 1 + 1) * o.pageSize < 2 ^ 64 := by
      refine Nat.lt_of_le_of_lt ?_ hM.bound
      rw [Nat.mul_comm o.pageSize]
      exact Nat.mul_le_mul_right _ hbM
    have hn' : a + n - 1 + 1 - a = n := by omega
    have hread := readRecordLocations_eq (b := a + n - 1) hM.pageSize_pos (by omega) hb (by omega)
      (fun x h1 h2 => hw x h1 (by omega)) (by rw [hoff, hps]) (by rw [hsize, hps, hn']) hle sched
      hM.denotes hps hM.bound hbM
    rw [hn'] at hread
    exact hread

/-- On a dense blob the writes of a version are plain overwritings. -/
theorem snapshotAt_dense (h : Inv seq base w) {id : Nat} {o : ObjInfo}
    (ho : w.hist.vm.objHash id = some o) (hseq : seq id = false) (v : Nat) :
    snapshotAt (base id) (w.tickets id) v =
      overlay (base id) (((w.tickets id).map Ticket.pages).take v) := by
  unfold snapshotAt
  congr 2
  refine List.map_congr_left fun K hK => ?_
  obtain ⟨t, ht⟩ := List.mem_iff_getElem?.1 hK
  rw [Ticket.write, Ticket.pages, (h.blob ho).not_far hseq ht]

/-- The latest ticket of a version that covers a page has put what the version holds there. -/
theorem latest (h : Inv seq base w) {id : Nat} {o : ObjInfo} (ho : w.hist.vm.objHash id = some o)
    (hseq : seq id = false) {v : Nat} {root : Root} (hr : o.roots[v]? = some root) {x : Nat}
    (hcov : ∃ K ∈ w.tickets id, K.query.version ≤ v ∧ K.Covers x) :
    ∃ K ∈ w.tickets id, K.query.version ≤ v ∧ K.Covers x ∧
      (∀ K' ∈ w.tickets id, K'.query.version ≤ v → K'.Covers x →
        K'.query.version ≤ K.query.version) ∧
      w.dht (K.page x).pageKey = some (.providers (K.page x).providers) ∧
      snapshotAt (base id) (w.tickets id) v x = some (K.page x) := by
  have hb := h.blob ho
  have hv := (List.getElem?_eq_some_iff.1 hr).1
  have hvlen : v ≤ (w.tickets id).length := by
    have := hb.length_eq
    have := hb.blob.window.pending.count
    omega
  obtain ⟨K0, hmem, hle, hc⟩ := hcov
  obtain ⟨t0, ht0⟩ := List.mem_iff_getElem?.1 hmem
  have hver0 := (hb.info ht0).version
  have hsome : ∃ k W, k < v ∧ ((w.tickets id).map Ticket.pages)[k]? = some W ∧ W.Covers x :=
    ⟨t0, K0.pages, by omega, by rw [List.getElem?_map, ht0]; rfl, hc⟩
  obtain ⟨t, W, htv, hW, hWc, hlast⟩ := exists_latest hsome
  rw [List.getElem?_map, Option.map_eq_some_iff] at hW
  obtain ⟨K, hK, rfl⟩ := hW
  have hver := (hb.info hK).version
  refine ⟨K, List.mem_of_getElem? hK, by omega, hWc, ?_, ?_, ?_⟩
  · intro K' hK' hle' hc'
    obtain ⟨t', ht'⟩ := List.mem_iff_getElem?.1 hK'
    have hver' := (hb.info ht').version
    by_contra hlt
    exact hlast t' K'.pages (by omega) (by omega) (by rw [List.getElem?_map, ht']; rfl) hc'
  · obtain ⟨left, right, hleaf, -⟩ := (h.complete ho hv htv hK).parts
    exact hleaf _ _ ⟨x, hWc.1, hWc.2, .inl ⟨rfl, rfl⟩⟩
  · rw [h.snapshotAt_dense ho hseq]
    refine overlay_latest (W := K.pages) ?_ hWc htv (by simpa using hvlen) ?_
    · rw [List.getElem?_map, hK]
      rfl
    · intro k' W' h1 h2 hW'
      refine ⟨hlast k' W' h1 h2 hW', ?_⟩
      rw [List.getElem?_map, Option.map_eq_some_iff] at hW'
      obtain ⟨K', -, rfl⟩ := hW'
      rfl

end World.Inv

/-- **Snapshot correctness.** In every run of any number of clients with dense, page-aligned
tickets, for every published version and every range whose pages are covered by tickets of that
version: the version stays published, and `readRecordLocations` on its root returns `true` (so no
node it follows is missing) with the page key and the providers that the greatest covering ticket
put for each page. The answer is the same in every state from then on, in whatever order the gets
are answered and whatever is put in between. -/
theorem snapshot_read {w : World} {as : List Action} (hrun : DenseRun {} as w) {id : Nat}
    {o : ObjInfo} (ho : w.hist.vm.objHash id = some o) {v : Nat} {root : Root}
    (hv : o.roots[v]? = some root) {a n : Nat} (hn : 0 < n) (hn32 : n ≤ 2 ^ 32)
    (hcov : ∀ x, a ≤ x → x < a + n → ∃ K ∈ w.tickets id, K.query.version ≤ v ∧ K.Covers x)
    {range : Query} (hoff : range.offset = a * root.pageSize)
    (hsize : range.size = n * root.pageSize) :
    ∃ leaves : List RandomSelect, leaves.length = n ∧
      (∀ i, i < n → ∃ K ∈ w.tickets id, K.query.version ≤ v ∧ K.Covers (a + i) ∧
        (∀ K' ∈ w.tickets id, K'.query.version ≤ v → K'.Covers (a + i) →
          K'.query.version ≤ K.query.version) ∧
        w.dht (K.page (a + i)).pageKey = some (.providers (K.page (a + i)).providers) ∧
        leaves[i]? = some (K.page (a + i))) ∧
      (∀ bs w', DenseRun w bs w' →
        ∃ o', w'.hist.vm.objHash id = some o' ∧ o'.roots[v]? = some root) ∧
      ∀ (later : Nat → World) (sched : Nat → Nat), (∀ k, ∃ bs, DenseRun w bs (later k)) →
        ∃ fuel0, ∀ fuel, fuel0 ≤ fuel →
          readRecordLocations (fun k => (later k).dht) sched fuel n range root =
            some (true, leaves) := by
  obtain ⟨base, h, -⟩ := World.inv_run (World.inv_empty _) hrun
  have hlatest := fun x h1 h2 => h.latest ho rfl hv (hcov x h1 h2)
  refine ⟨(List.range' a n).map fun x => (snapshotAt (base id) (w.tickets id) v x).getD {},
    by simp, ?_, ?_, ?_⟩
  · intro i hi
    obtain ⟨K, hK, hKv, hc, hmax, hdht, hsnap⟩ := hlatest (a + i) (by omega) (by omega)
    refine ⟨K, hK, hKv, hc, hmax, hdht, ?_⟩
    rw [List.getElem?_map, List.getElem?_range' hi, Option.map_some, Nat.one_mul, hsnap]
    rfl
  · intro bs w' hbs
    obtain ⟨base', -, he⟩ := World.inv_run h hbs
    obtain ⟨o', ho', hp⟩ := he.roots ho
    exact ⟨o', ho', getElem?_of_isPrefix hp hv⟩
  · intro later sched hlater
    refine h.read ho hv hn hn32 ?_ (fun k => ?_) sched hoff hsize
    · intro x h1 h2
      obtain ⟨K, -, -, -, -, -, hsnap⟩ := hlatest x h1 h2
      rw [hsnap]
      exact Option.some_ne_none _
    · obtain ⟨bs, hbs⟩ := hlater k
      obtain ⟨base', -, he⟩ := World.inv_run h hbs
      exact he.dht

/-- Two writes on one blob, the second one inside the first and published before it. -/
def overlappingWrites : List Action :=
  [.create 4 1, .ticket ⟨1, 101, 0, 8⟩ false [⟨"a", "1"⟩, ⟨"b", "1"⟩],
    .ticket ⟨1, 102, 4, 4⟩ false [⟨"c", "1"⟩],
    .put 1 1 0 .acked, .put 1 1 0 .acked, .wait 1 1, .put 1 1 0 .acked, .wait 1 1,
    .publish 1 1 .answered,
    .put 1 0 0 .acked, .put 1 0 0 .acked, .put 1 0 0 .acked, .put 1 0 0 .acked, .wait 1 0,
    .put 1 0 0 .acked, .wait 1 0, .publish 1 0 .answered]

/-- Both pages of version `2` are read. -/
theorem snapshot_read_overlapping :
    ∃ w o root, DenseRun {} overlappingWrites w ∧ w.hist.vm.objHash 1 = some o ∧
      o.roots[2]? = some root ∧ ∃ leaves, leaves.length = 2 ∧
        ∃ fuel0, ∀ fuel, fuel0 ≤ fuel →
          readRecordLocations (fun _ => w.dht) (fun _ => 0) fuel 2 ⟨1, 2, 0, 8⟩ root =
            some (true, leaves) := by
  have hrun : DenseRun {} overlappingWrites _ := Run.of_isSome {} (by decide +kernel)
  generalize hw : (exec World.step (World.Ok fun _ => false) {} overlappingWrites).getD {} = w
    at hrun
  have hroot : (w.hist.vm.objHash 1).bind (·.roots[2]?) = some ⟨⟨1, 2, 0, 8⟩, 1, 8, 4⟩ := by
    rw [← hw]
    decide +kernel
  have hcov : ∀ x < 2, ∃ K ∈ w.tickets 1, K.query.version ≤ 2 ∧ K.Covers x := by
    rw [← hw]
    decide +kernel
  obtain ⟨o, ho, hv⟩ := Option.bind_eq_some_iff.1 hroot
  have hoff : (⟨1, 2, 0, 8⟩ : Query).offset = 0 * 4 := rfl
  have hsize : (⟨1, 2, 0, 8⟩ : Query).size = 2 * 4 := rfl
  obtain ⟨leaves, hlen, -, -, hread⟩ := snapshot_read hrun ho hv (a := 0) (n := 2) (by decide)
    (by decide) (fun x _ hx => hcov x (by omega)) hoff hsize
  exact ⟨w, o, _, hrun, ho, hv, leaves, hlen,
    hread (fun _ => w) (fun _ => 0) fun _ => ⟨[], .nil w⟩⟩

/-! ## Clones -/

/-- The clone step, on a blob that exists. -/
theorem World.step_clone {w w' : World} {src version : Nat} {o : ObjInfo}
    (ho : w.hist.vm.objHash src = some o) (hs : w.step (.clone src version) = some w') :
    w' = { w with
        hist := { w.hist with vm := w.hist.vm.addObj (ObjInfo.ofRoot (rootAt o version)) } } ∧
      (w.hist.vm.clone src version).2.node.id = w.hist.vm.objCount + 1 := by
  simp only [World.step, VmHistory.step, VManagement.exec, VManagement.clone, ho, Option.map_some,
    Option.some.injEq] at hs
  refine ⟨hs.symm, ?_⟩
  simp only [VManagement.clone, ho]

/-- **Clones.** In every dense run, with clones of any blob at any published version: version `k`
of a clone, under the id that the clone request returned, is the page map of the root it was made
from, overlaid with the tickets `1..k` of the clone; a read of pages that are all written returns
these pages, whatever is put meanwhile. And no step changes a published root, of any blob, or its
page map. -/
theorem clone_overlay {w : World} {as : List Action} (hrun : DenseRun {} as w) :
    (∀ {src version c k : Nat} {o oc : ObjInfo} {w1 w2 : World} {bs : List Action} {root : Root},
      w.hist.vm.objHash src = some o → w.step (.clone src version) = some w1 →
      c = (w.hist.vm.clone src version).2.node.id → DenseRun w1 bs w2 →
      w2.hist.vm.objHash c = some oc → oc.roots[k]? = some root →
      pageMap w2.dht root = overlay (pageMap w.dht (rootAt o version))
        (((w2.tickets c).map Ticket.pages).take k) ∧
      ∀ {a n : Nat} {range : Query}, 0 < n → n ≤ 2 ^ 32 → range.offset = a * root.pageSize →
        range.size = n * root.pageSize →
        (∀ x, a ≤ x → x < a + n → overlay (pageMap w.dht (rootAt o version))
          (((w2.tickets c).map Ticket.pages).take k) x ≠ none) →
        ∀ (later : Nat → World) (sched : Nat → Nat), (∀ d, ∃ bs, DenseRun w2 bs (later d)) →
          ∃ fuel0, ∀ fuel, fuel0 ≤ fuel →
            readRecordLocations (fun d => (later d).dht) sched fuel n range root =
              some (true, (List.range' a n).map fun x =>
                (overlay (pageMap w.dht (rootAt o version))
                  (((w2.tickets c).map Ticket.pages).take k) x).getD {})) ∧
    ∀ {bs : List Action} {w2 : World}, DenseRun w bs w2 →
      ∀ {id v : Nat} {o : ObjInfo} {root : Root}, w.hist.vm.objHash id = some o →
        o.roots[v]? = some root → ∃ o', w2.hist.vm.objHash id = some o' ∧
          o'.roots[v]? = some root ∧ pageMap w2.dht root = pageMap w.dht root := by
  obtain ⟨base, h, -⟩ := World.inv_run (World.inv_empty _) hrun
  constructor
  · intro src version c k o oc w1 w2 bs root ho hclone hc hbs hoc hroot
    obtain ⟨hw1, hid⟩ := World.step_clone ho hclone
    rw [hid] at hc
    obtain ⟨base1, h1, -⟩ := World.inv_step h (a := .clone src version) trivial hclone
    -- the base map of the clone is the page map of its first root
    have hc1 : w1.hist.vm.objHash c = some (ObjInfo.ofRoot (rootAt o version)) := by
      rw [hw1, hc]
      exact Function.update_self ..
    have hbase1 : base1 c = pageMap w.dht (rootAt o version) := by
      have hmap := h1.pageMap_eq hc1 (v := 0) (r := rootAt o version) rfl
      rw [hw1] at hmap
      exact hmap.symm
    obtain ⟨base2, h2, he⟩ := World.inv_run h1 hbs
    have hsnap := h2.snapshotAt_dense hoc rfl k
    rw [he.base hc1, hbase1] at hsnap
    refine ⟨?_, ?_⟩
    · rw [h2.pageMap_eq hoc hroot, he.base hc1, hbase1]
      exact hsnap
    · intro a n range hn hn32 hoff hsize hw later sched hlater
      rw [← hsnap] at hw ⊢
      rw [← hbase1, ← he.base hc1] at hw ⊢
      refine h2.read hoc hroot hn hn32 hw (fun d => ?_) sched hoff hsize
      obtain ⟨bs', hbs'⟩ := hlater d
      obtain ⟨base', -, he'⟩ := World.inv_run h2 hbs'
      exact he'.dht
  · intro bs w2 hbs id v o root ho hroot
    obtain ⟨base2, h2, he⟩ := World.inv_run h hbs
    exact h.pageMap_later h2 he ho hroot

/-- A write on a clone. -/
def cloneWrite : List Action :=
  [.ticket ⟨2, 103, 4, 4⟩ false [⟨"d", "1"⟩], .get 2 0 0, .get 2 0 0, .get 2 0 0, .get 2 0 0,
    .put 2 0 0 .acked, .put 2 0 0 .acked, .wait 2 0, .put 2 0 0 .acked, .wait 2 0,
    .publish 2 0 .answered]

/-- Page `0` of the clone comes from version `1` of the original, page `1` from the clone. -/
theorem clone_overlay_write :
    ∃ w w1 w2 o oc root, DenseRun {} overlappingWrites w ∧ w.hist.vm.objHash 1 = some o ∧
      w.step (.clone 1 1) = some w1 ∧ DenseRun w1 cloneWrite w2 ∧
      w2.hist.vm.objHash 2 = some oc ∧ oc.roots[1]? = some root ∧
      pageMap w2.dht root = overlay (pageMap w.dht (rootAt o 1))
        (((w2.tickets 2).map Ticket.pages).take 1) := by
  have hrun : DenseRun {} overlappingWrites _ := Run.of_isSome {} (by decide +kernel)
  generalize hw : (exec World.step (World.Ok fun _ => false) {} overlappingWrites).getD {} = w
    at hrun
  have hsome : (w.step (.clone 1 1)).isSome = true := by
    rw [← hw]
    decide +kernel
  have hclone := eq_some_getD {} hsome
  generalize hw1 : (w.step (.clone 1 1)).getD {} = w1 at hclone
  have hsome2 : (exec World.step (World.Ok fun _ => false) w1 cloneWrite).isSome = true := by
    rw [← hw1, ← hw]
    decide +kernel
  have hbs : DenseRun w1 cloneWrite _ := Run.of_isSome {} hsome2
  generalize hw2 : (exec World.step (World.Ok fun _ => false) w1 cloneWrite).getD {} = w2 at hbs
  have hid : 2 = (w.hist.vm.clone 1 1).2.node.id := by
    rw [← hw]
    decide +kernel
  have hroot : (w2.hist.vm.objHash 2).bind (·.roots[1]?) = some ⟨⟨2, 1, 0, 8⟩, 1, 8, 4⟩ := by
    rw [← hw2, ← hw1, ← hw]
    decide +kernel
  have hobj : (w.hist.vm.objHash 1).isSome = true := by
    rw [← hw]
    decide +kernel
  obtain ⟨o, ho⟩ := Option.isSome_iff_exists.1 hobj
  obtain ⟨oc, hoc, hk⟩ := Option.bind_eq_some_iff.1 hroot
  exact ⟨w, w1, w2, o, oc, _, hrun, ho, hclone, hbs, hoc, hk,
    ((clone_overlay hrun).1 ho hclone hid hbs hoc hk).1⟩

end BlobSeer
