import BlobSeer.World.Task

/-!
# The snapshots of one blob

The page map of version `v` is the base map of the blob, overlaid with the tickets `1..v`
(`snapshotAt`). When the writes of all these tickets are complete, every node of theirs stands for
the page map of its version (`nodes_denote`), and so do the published roots (`root_denotes`).

A write takes the blocks it does not touch from its siblings. Where an outstanding ticket touches
the block, the latest one has the right node: that node exists, because on a densely written blob a
tree that outgrows a block does so with a ticket that starts inside it (`dense_touch`). Elsewhere
the stable tree is right. On a sequential blob nothing is outstanding, and the one block that is
lost is the stable tree itself, when the write starts beyond twice its size (`Ticket.far`).
-/

namespace BlobSeer

open Lib

/-- The page map after the first `v` tickets. -/
def snapshotAt (base : PageMap) (ks : List Ticket) (v : Nat) : PageMap :=
  overlay base ((ks.map Ticket.write).take v)

/-- The size of the tree of version `v`. -/
def ObjInfo.treeSize (o : ObjInfo) (v : Nat) : Nat := (o.allRoots.getD v {}).node.size

theorem ObjInfo.treeSize_eq {o : ObjInfo} {v : Nat} {r : Root} (h : o.allRoots[v]? = some r) :
    o.treeSize v = r.node.size := by
  rw [treeSize, List.getD_eq_getElem?_getD, h]
  rfl

/-- A ticket against the blob it was issued on; it is number `t` in the list `ks`. -/
structure TicketInfo (id : Nat) (o : ObjInfo) (ks : List Ticket) (t : Nat) (K : Ticket) :
    Prop where
  shape : K.Shape
  id_eq : K.query.id = id
  version : K.query.version = t + 1
  pageSize : K.pageSize = o.pageSize
  rootSize : K.reply.rootSize = o.treeSize (t + 1)
  stable : o.roots[K.stableVersion]? = some K.reply.stableRoot
  length : K.reply.intervals.length + K.stableVersion = t + 1
  outstanding : K.outstanding.map (·.key) = ((ks.take t).drop K.stableVersion).map Ticket.query

/-- The stable version of a ticket comes before the ticket. -/
theorem TicketInfo.stable_le {id : Nat} {o : ObjInfo} {ks : List Ticket} {t : Nat} {K : Ticket}
    (h : TicketInfo id o ks t K) : K.stableVersion ≤ t := by
  have hlen := h.length
  have hpos : 0 < K.reply.intervals.length := by
    by_contra h0
    have hq : K.query = {} := by
      rw [Ticket.query, List.length_eq_zero_iff.1 (Nat.eq_zero_of_not_pos h0)]
      rfl
    have hid := h.shape.id_pos
    rw [hq] at hid
    exact absurd hid (Nat.lt_irrefl 0)
  omega

/-- One blob with its tickets. -/
structure BlobInv (seq : Nat → Bool) (dht : Dht) (base : PageMap) (id : Nat) (o : ObjInfo)
    (issued : List Query) (published : List Nat) (ks : List Ticket) : Prop where
  blob : Blob seq id o issued published
  id_pos : 0 < id
  issued_eq : ks.map Ticket.query = issued
  info : ∀ {t K}, ks[t]? = some K → TicketInfo id o ks t K
  seqTicket : seq id = true → ∀ {t : Nat} {K : Ticket}, ks[t]? = some K → K.stableVersion = t
  base : ∀ {r}, o.roots[0]? = some r → RootDenotes dht o.pageSize base r

/-- A write all of whose puts are in the DHT. -/
def Complete (dht : Dht) (stable : PageMap) (K : Ticket) : Prop :=
  ∃ w, WriterInv dht stable K w ∧ w.stage = .done ∧ w.result = true

/-- The sibling lists of a complete write, and its entries. -/
theorem Complete.parts {dht : Dht} {stable : PageMap} {K : Ticket} (h : Complete dht stable K) :
    ∃ left right,
      (∀ k v, K.LeafEntry k v → dht k = some v) ∧
      (∀ k v, K.InnerEntry left right k v → dht k = some v) ∧
      (∀ i, i < K.levels → Relevant true K.first i →
        SiblingAt dht K.pageSize stable K.stablePages K.query.id K.outstanding K.first left 0 i) ∧
      (∀ i, i < K.levels → Relevant false K.final i →
        SiblingAt dht K.pageSize stable K.stablePages K.query.id K.outstanding K.final right 0 i) := by
  obtain ⟨w, hw, hs, hr⟩ := h
  have hgets : w.gets = [] := hw.noGets (by simp [hs])
  have hone : ∀ {isLeft : Bool} {p : Nat} {siblings : List Query},
      Side dht K.pageSize K.levels stable K.stablePages K.query.id K.outstanding isLeft p siblings
        (w.getsOf isLeft) → ∀ i, i < K.levels → Relevant isLeft p i →
        SiblingAt dht K.pageSize stable K.stablePages K.query.id K.outstanding p siblings 0 i := by
    rintro isLeft p siblings ⟨l, hl, hsib⟩
    have hnil : w.getsOf isLeft = [] := by
      rw [Writer.getsOf, hgets]
      rfl
    rcases hl with ⟨-, rfl⟩ | ⟨q, hq, -⟩
    · exact hsib
    · rw [hnil] at hq
      cases hq
  refine ⟨w.leftSiblings, w.rightSiblings, ?_, ?_, hone hw.left, hone hw.right⟩
  · intro k v he
    rcases hw.leafDone hr k v he with hd | ⟨hs', -⟩
    · exact hd
    · rw [hs] at hs'
      cases hs'
  · intro k v he
    rcases hw.innerDone hr (by simp [hs]) k v he with hd | ⟨hs', -⟩
    · exact hd
    · rw [hs] at hs'
      cases hs'

namespace BlobInv

variable {seq : Nat → Bool} {dht : Dht} {base : PageMap} {id : Nat} {o : ObjInfo}
  {issued : List Query} {published : List Nat} {ks : List Ticket}

theorem length_eq (h : BlobInv seq dht base id o issued published ks) :
    ks.length = issued.length := by
  rw [← h.issued_eq, List.length_map]

theorem issued_at (h : BlobInv seq dht base id o issued published ks) {t : Nat} {K : Ticket}
    (hK : ks[t]? = some K) : issued[t]? = some K.query := by
  rw [← h.issued_eq, List.getElem?_map, hK]
  rfl

theorem allRoots_at (h : BlobInv seq dht base id o issued published ks) {v : Nat}
    (hv : v ≤ ks.length) : ∃ r, o.allRoots[v]? = some r ∧ o.treeSize v = r.node.size := by
  have hlen := Geometry.allRoots_length h.blob.window
  have hlt : v < o.allRoots.length := by
    rw [hlen, ← h.length_eq]
    omega
  exact ⟨_, List.getElem?_eq_getElem hlt, ObjInfo.treeSize_eq (List.getElem?_eq_getElem hlt)⟩

theorem treeSize_le (h : BlobInv seq dht base id o issued published ks) {v v' : Nat}
    (hle : v ≤ v') (hv : v' ≤ ks.length) : o.treeSize v ≤ o.treeSize v' := by
  obtain ⟨r, hr, e⟩ := h.allRoots_at (v := v) (by omega)
  obtain ⟨r', hr', e'⟩ := h.allRoots_at hv
  rw [e, e']
  exact h.blob.geometry.size_le hr hr' hle

/-- The tree of a ticket, by its levels. -/
theorem treeSize_levels (h : BlobInv seq dht base id o issued published ks) {t : Nat} {K : Ticket}
    (hK : ks[t]? = some K) : o.treeSize (t + 1) = o.pageSize * 2 ^ K.levels := by
  have hi := h.info hK
  rw [← hi.rootSize, ← hi.pageSize, hi.shape.rootSize]

theorem stable_size (h : BlobInv seq dht base id o issued published ks) {t : Nat} {K : Ticket}
    (hK : ks[t]? = some K) :
    K.reply.stableRoot.node.size = o.treeSize K.stableVersion ∧
      o.treeSize K.stableVersion = K.pageSize * K.stablePages ∧
      (K.stablePages = 0 ∨ ∃ M, K.stablePages = 2 ^ M) := by
  have hi := h.info hK
  have hroot := ObjInfo.allRoots_of_roots hi.stable
  have e := ObjInfo.treeSize_eq hroot
  have hps := hi.shape.pageSize_pos
  rcases h.blob.geometry.size (List.mem_of_getElem? hroot) with h0 | ⟨M, hM, -⟩
  · refine ⟨e.symm, ?_, .inl ?_⟩
    · rw [e, Ticket.stablePages, h0, Nat.zero_div, Nat.mul_zero]
    · rw [Ticket.stablePages, h0, Nat.zero_div]
  · have hn : K.stablePages = 2 ^ M := by
      rw [Ticket.stablePages, hM, ← hi.pageSize, Nat.mul_div_cancel_left _ hps]
    refine ⟨e.symm, ?_, .inr ⟨M, hn⟩⟩
    rw [e, hM, hn, hi.pageSize]

/-! ## Dense blobs -/

/-- A densely written blob has no far tickets. -/
theorem not_far (h : BlobInv seq dht base id o issued published ks) (hseq : seq id = false)
    {t : Nat} {K : Ticket} (hK : ks[t]? = some K) : K.far = false := by
  have hi := h.info hK
  rw [Ticket.far, decide_eq_false_iff_not]
  rintro ⟨hone, hpos, hfar⟩
  have hst : K.stableVersion = t := by
    have := hi.length
    omega
  obtain ⟨-, hsize, -⟩ := h.stable_size hK
  rw [hst] at hsize
  obtain ⟨r, hr, e⟩ := h.allRoots_at (v := t) (by
    have := (List.getElem?_eq_some_iff.1 hK).1
    omega)
  have hps := hi.shape.pageSize_pos
  have hmul : 0 < K.pageSize * K.stablePages := Nat.mul_pos hps hpos
  rcases h.blob.geometry.dense hseq hr (h.issued_at hK) with h0 | hd
  · omega
  · have hle : 2 * K.stablePages * K.pageSize ≤ K.first * K.pageSize :=
      Nat.mul_le_mul_right _ hfar
    rw [hi.shape.offset, ← e, hsize] at hd
    have e2 : 2 * K.stablePages * K.pageSize = 2 * (K.pageSize * K.stablePages) := by ring
    omega

/-- A tree that outgrows a block does so with a ticket that starts inside the block. -/
theorem dense_touch (h : BlobInv seq dht base id o issued published ks) (hseq : seq id = false)
    {s t i : Nat} {K : Ticket} (hK : ks[t]? = some K) (hst : s ≤ t) (hpos : 0 < o.treeSize s)
    (hs : o.treeSize s < o.pageSize * 2 ^ i) (hfirst : 2 ^ i ≤ K.first) :
    ∃ d K', s ≤ d ∧ d < t ∧ ks[d]? = some K' ∧ Touches K'.first K'.final i 0 := by
  have hi := h.info hK
  have htlen := (List.getElem?_eq_some_iff.1 hK).1
  -- the ticket itself starts inside the tree before it
  have hbefore : o.pageSize * 2 ^ i ≤ o.treeSize t := by
    obtain ⟨r, hr, e⟩ := h.allRoots_at (v := t) (by omega)
    have hle := h.treeSize_le hst (by omega)
    rcases h.blob.geometry.dense hseq hr (h.issued_at hK) with h0 | hd
    · omega
    · rw [hi.shape.offset, hi.pageSize] at hd
      rw [e, Nat.mul_comm]
      exact (Nat.mul_le_mul_right _ hfirst).trans hd
  obtain ⟨d, hsd, hdt, hlt, -⟩ := exists_crossing hs hst hbefore
  have hKd := List.getElem?_eq_getElem (show d < ks.length by omega)
  have hid := h.info hKd
  refine ⟨d, _, hsd, hdt, hKd, ?_, Nat.zero_le _⟩
  obtain ⟨r, hr, e⟩ := h.allRoots_at (v := d) (by omega)
  have hle := h.treeSize_le hsd (by omega)
  rcases h.blob.geometry.dense hseq hr (h.issued_at hKd) with h0 | hd
  · omega
  · rw [hid.shape.offset, hid.pageSize, Nat.mul_comm] at hd
    have hlt' : ks[d].first < 2 ^ i := by
      refine Nat.lt_of_mul_lt_mul_left (a := o.pageSize) ?_
      omega
    rw [Nat.div_eq_of_lt hlt']

/-! ## Outstanding tickets -/

/-- The intersection test of `compute_sibling_versions` against a ticket. -/
theorem intersects_query (h : BlobInv seq dht base id o issued published ks) {t i j : Nat}
    {K : Ticket} (hK : ks[t]? = some K) (hj : (j + 1) * (o.pageSize * 2 ^ i) < 2 ^ 64) :
    (nodeAt 0 0 o.pageSize i j).intersects K.query = true ↔ Touches K.first K.final i j := by
  have hi := h.info hK
  have hs := hi.shape
  have hend := hs.layout.end_lt
  rw [hi.pageSize] at hend
  refine nodeAt_intersects_iff (hi.pageSize ▸ hs.pageSize_pos) hs.le ?_ ?_ hj hend
  · rw [hs.offset, hi.pageSize]
  · rw [hs.size, hi.pageSize]

/-- The `d`-th outstanding ticket of a reply. -/
theorem outstanding_at (h : BlobInv seq dht base id o issued published ks) {t d : Nat}
    {K : Ticket} (hK : ks[t]? = some K) {e : IntervalEntry} (he : K.outstanding[d]? = some e) :
    ∃ K', K.stableVersion + d < t ∧ ks[K.stableVersion + d]? = some K' ∧ e.key = K'.query := by
  have hk : (K.outstanding.map (·.key))[d]? = some e.key := by
    rw [List.getElem?_map, he]
    rfl
  rw [(h.info hK).outstanding, List.getElem?_map, Option.map_eq_some_iff] at hk
  obtain ⟨K', hK', hq⟩ := hk
  rw [List.getElem?_drop, List.getElem?_take] at hK'
  split at hK'
  · exact ⟨K', by assumption, hK', hq.symm⟩
  · cases hK'

theorem outstanding_mem (h : BlobInv seq dht base id o issued published ks) {t d : Nat}
    {K K' : Ticket} (hK : ks[t]? = some K) (hK' : ks[d]? = some K') (hs : K.stableVersion ≤ d)
    (hd : d < t) : ∃ e, K.outstanding[d - K.stableVersion]? = some e ∧ e.key = K'.query := by
  have hk : (K.outstanding.map (·.key))[d - K.stableVersion]? = some K'.query := by
    rw [(h.info hK).outstanding, List.getElem?_map, List.getElem?_drop, List.getElem?_take,
      if_pos (by omega), Nat.add_sub_cancel' hs, hK']
    rfl
  rw [List.getElem?_map, Option.map_eq_some_iff] at hk
  exact hk

theorem inFlight_some (h : BlobInv seq dht base id o issued published ks) {t i j v : Nat}
    {K : Ticket} (hK : ks[t]? = some K) (hj : (j + 1) * (o.pageSize * 2 ^ i) < 2 ^ 64)
    (hf : inFlight K.outstanding o.pageSize i j = some v) :
    ∃ d K', K.stableVersion ≤ d ∧ d < t ∧ ks[d]? = some K' ∧ v = d + 1 ∧
      Touches K'.first K'.final i j ∧
      ∀ d' K'', d < d' → d' < t → ks[d']? = some K'' → ¬ Touches K''.first K''.final i j := by
  obtain ⟨d, e, hd, hv, hint, hlater⟩ := latestTouching_some hf
  obtain ⟨K', hlt, hK', hq⟩ := h.outstanding_at hK hd
  rw [hq] at hv hint
  refine ⟨_, K', Nat.le_add_right _ d, hlt, hK', ?_, (h.intersects_query hK' hj).1 hint, ?_⟩
  · rw [← hv, (h.info hK').version]
  · intro d' K'' hdd' hd't hK'' ht
    obtain ⟨e', he', hq'⟩ := h.outstanding_mem hK hK'' (by omega) hd't
    have hno := hlater _ e' (by omega) he'
    rw [hq', (h.intersects_query hK'' hj).2 ht] at hno
    cases hno

theorem inFlight_none (h : BlobInv seq dht base id o issued published ks) {t i j : Nat}
    {K : Ticket} (hK : ks[t]? = some K) (hj : (j + 1) * (o.pageSize * 2 ^ i) < 2 ^ 64)
    (hf : inFlight K.outstanding o.pageSize i j = none) (d : Nat) (K' : Ticket)
    (hK' : ks[d]? = some K') (hs : K.stableVersion ≤ d) (hd : d < t) :
    ¬ Touches K'.first K'.final i j := by
  intro ht
  obtain ⟨e, he, hq⟩ := h.outstanding_mem hK hK' hs hd
  have hno := latestTouching_none hf e (List.mem_of_getElem? he)
  rw [hq, (h.intersects_query hK' hj).2 ht] at hno
  cases hno

/-! ## Page maps -/

theorem write_at {t : Nat} {K : Ticket} (hK : ks[t]? = some K) :
    (ks.map Ticket.write)[t]? = some K.write := by
  rw [List.getElem?_map, hK]
  rfl

theorem snapshot_succ {t : Nat} {K : Ticket} (hK : ks[t]? = some K) :
    snapshotAt base ks (t + 1) = K.write.apply (snapshotAt base ks t) :=
  overlay_take_succ (write_at hK)

/-- Tickets that do not touch a block leave its pages alone. -/
theorem snapshot_skip {s t i j x : Nat} (hst : s ≤ t) (ht : t ≤ ks.length) (hx : x / 2 ^ i = j)
    (hskip : ∀ d K, s ≤ d → d < t → ks[d]? = some K →
      ¬ Touches K.first K.final i j ∧ K.far = false) :
    snapshotAt base ks t x = snapshotAt base ks s x := by
  refine overlay_skip hst (by simpa using ht) fun d W hsd hdt hW => ?_
  rw [List.getElem?_map, Option.map_eq_some_iff] at hW
  obtain ⟨K, hK, rfl⟩ := hW
  obtain ⟨hno, hfar⟩ := hskip d K hsd hdt hK
  refine ⟨fun hc => hno ?_, hfar⟩
  rw [← hx]
  exact touches_of_mem i hc.1 hc.2

/-- No page lies beyond the tree of its version. -/
theorem support (h : BlobInv seq dht base id o issued published ks) {v x : Nat}
    (hv : v ≤ ks.length) (hx : o.treeSize v ≤ x * o.pageSize) (hps : 0 < o.pageSize) :
    snapshotAt base ks v x = none := by
  have hbase : ∀ y, x ≤ y → base y = none := by
    intro y hy
    obtain ⟨r, hr, e⟩ := h.allRoots_at (v := 0) (by omega)
    have hroots : o.roots[0]? = some r := by
      rw [ObjInfo.allRoots, List.getElem?_append_left h.blob.window.pending.roots_pos] at hr
      exact hr
    obtain ⟨-, (⟨-, hm⟩ | ⟨M, -, hM, -, -, hm, -⟩)⟩ := h.base hroots
    · exact hm y
    · refine hm y ?_
      have hle := h.treeSize_le (Nat.zero_le v) hv
      rw [e, hM] at hle
      have : o.pageSize * 2 ^ M ≤ o.pageSize * y := by
        rw [Nat.mul_comm _ y]
        exact hle.trans (hx.trans (Nat.mul_le_mul_right _ hy))
      exact Nat.le_of_mul_le_mul_left this hps
  refine overlay_support hbase (fun W hW => ?_) x (Nat.le_refl x)
  obtain ⟨d, hd⟩ := List.mem_iff_getElem?.1 hW
  rw [List.getElem?_take] at hd
  split at hd
  · rename_i hdv
    rw [List.getElem?_map, Option.map_eq_some_iff] at hd
    obtain ⟨K, hK, rfl⟩ := hd
    have hlt := (h.info hK).shape.final_lt
    have hle := h.treeSize_le (v := d + 1) (by omega) hv
    rw [h.treeSize_levels hK] at hle
    have : o.pageSize * 2 ^ K.levels ≤ o.pageSize * x := by
      rw [Nat.mul_comm _ x]
      exact hle.trans hx
    exact Nat.lt_of_lt_of_le hlt (Nat.le_of_mul_le_mul_left this hps)
  · cases hd

/-! ## The siblings of a complete write -/

/-- A block that a write needs a sibling for holds none of its pages. -/
theorem brother_not_covered {K : Ticket} {isLeft : Bool} {i x : Nat}
    (hrel : Relevant isLeft (if isLeft then K.first else K.final) i)
    (hx : x / 2 ^ i = brother ((if isLeft then K.first else K.final) / 2 ^ i)) :
    ¬ K.write.Covers x := by
  rintro ⟨h1, h2⟩
  have h1 : K.first ≤ x := h1
  have h2 : x ≤ K.final := h2
  have hd1 := Nat.div_le_div_right (c := 2 ^ i) h1
  have hd2 := Nat.div_le_div_right (c := 2 ^ i) h2
  cases isLeft with
  | true =>
    simp only [Relevant, if_true] at hrel hx
    rw [brother_odd hrel] at hx
    generalize K.first / 2 ^ i = j at *
    omega
  | false =>
    simp only [Relevant, Bool.false_eq_true, if_false] at hrel hx
    rw [brother_even hrel] at hx
    omega

/-- Block `0` is a sibling on the left only, of the block next to it. -/
theorem relevant_one {K : Ticket} {isLeft : Bool} {i : Nat}
    (hrel : Relevant isLeft (if isLeft then K.first else K.final) i)
    (hone : (if isLeft then K.first else K.final) / 2 ^ i = 1) :
    isLeft = true ∧ 2 ^ i ≤ K.first := by
  cases isLeft with
  | true =>
    simp only [if_true] at hone
    exact ⟨rfl, (Nat.one_le_div_iff (Nat.two_pow_pos i)).1 (by omega)⟩
  | false =>
    simp only [Relevant, Bool.false_eq_true, if_false] at hrel hone
    omega

section untouched

variable (h : BlobInv seq dht base id o issued published ks) {t i p : Nat} {K : Ticket}
  (hK : ks[t]? = some K)
  (hnone : ∀ d K', ks[d]? = some K' → K.stableVersion ≤ d → d < t →
    ¬ Touches K'.first K'.final i (brother (p / 2 ^ i)))

include h hK hnone

/-- The version before the write agrees with the stable one on a block that no outstanding ticket
touches. -/
theorem untouched_before {x : Nat} (hx : x / 2 ^ i = brother (p / 2 ^ i)) :
    snapshotAt base ks t x = snapshotAt base ks K.stableVersion x := by
  have htlen := (List.getElem?_eq_some_iff.1 hK).1
  have hsle := (h.info hK).stable_le
  cases hseq : seq id with
  | true => rw [h.seqTicket hseq hK]
  | false =>
    exact snapshot_skip hsle (by omega) hx
      fun d K' h1 h2 hK' => ⟨hnone d K' hK' h1 h2, h.not_far hseq hK'⟩

/-- A block that neither the tickets nor the stable tree have is wiped by the write. -/
theorem untouched_far (hfar : Far K.stablePages p i) (hfirst : 2 ^ i ≤ K.first) :
    K.far = true := by
  obtain ⟨hp1, hn0, hn⟩ := hfar
  obtain ⟨-, hszn, hpow⟩ := h.stable_size hK
  have hsle := (h.info hK).stable_le
  have hps : 0 < o.pageSize := (h.info hK).pageSize ▸ (h.info hK).shape.pageSize_pos
  cases hseq : seq id with
  | true =>
    have hst := h.seqTicket hseq hK
    have hlen := (h.info hK).length
    obtain ⟨M, hM⟩ := hpow.resolve_left (by omega)
    have hdouble : 2 * K.stablePages ≤ 2 ^ i := by
      rw [hM] at hn ⊢
      have hMi := (Nat.pow_lt_pow_iff_right (a := 2) (by omega)).1 hn
      rw [← Nat.pow_succ']
      exact Nat.pow_le_pow_right (by omega) hMi
    rw [Ticket.far, decide_eq_true_eq]
    exact ⟨by omega, hn0, by omega⟩
  | false =>
    -- the tickets since the stable version touch block 0 to come this far
    exfalso
    have hlt : o.treeSize K.stableVersion < o.pageSize * 2 ^ i := by
      rw [hszn, (h.info hK).pageSize]
      exact Nat.mul_lt_mul_of_pos_left hn hps
    have hpos : 0 < o.treeSize K.stableVersion := by
      rw [hszn, (h.info hK).pageSize]
      exact Nat.mul_pos hps hn0
    obtain ⟨d, K', h1, h2, hK', ht⟩ := h.dense_touch hseq hK hsle hpos hlt hfirst
    refine hnone d K' hK' h1 h2 ?_
    rw [hp1]
    exact ht

/-- A block that is in the stable tree, or beside it, is in the new version what it is in the
stable one. -/
theorem untouched_stable (hfar : ¬ Far K.stablePages p i) (hp : K.first ≤ p) {x : Nat}
    (hx : x / 2 ^ i = brother (p / 2 ^ i)) (hown : ¬ K.write.Covers x) :
    snapshotAt base ks (t + 1) x = snapshotAt base ks K.stableVersion x := by
  rw [← h.untouched_before hK hnone hx, snapshot_succ hK]
  cases hKfar : K.far with
  | false => exact Write.apply_of_not_covers hown hKfar _
  | true =>
    -- a far write keeps nothing, and the block is beyond the stable tree
    obtain ⟨-, hszn, hpow⟩ := h.stable_size hK
    have htlen := (List.getElem?_eq_some_iff.1 hK).1
    have hsle := (h.info hK).stable_le
    have hps : 0 < o.pageSize := (h.info hK).pageSize ▸ (h.info hK).shape.pageSize_pos
    rw [Write.apply_of_wipes hown hKfar, h.untouched_before hK hnone hx]
    rw [Ticket.far, decide_eq_true_eq] at hKfar
    obtain ⟨-, hn0, hn⟩ := hKfar
    refine (h.support (by omega) ?_ hps).symm
    rw [hszn, (h.info hK).pageSize, Nat.mul_comm]
    refine Nat.mul_le_mul_right _ ?_
    by_contra hxn
    obtain ⟨M, hM⟩ := hpow.resolve_left (by omega)
    rcases brother_in_stable (M := M) hx (by omega) with ⟨h1, -⟩ | ⟨h1, h2⟩
    · omega
    · have hle : 2 ^ i ≤ K.stablePages := by
        by_contra hgt
        exact hfar ⟨h2, hn0, by omega⟩
      have hlt : p < 2 * 2 ^ i :=
        (Nat.div_lt_iff_lt_mul (Nat.two_pow_pos i)).1 (show p / 2 ^ i < 2 by omega)
      omega

end untouched

section sibling

variable (h : BlobInv seq dht base id o issued published ks) {t i : Nat} {K : Ticket}
  (hK : ks[t]? = some K) (isLeft : Bool)
  (hrel : Relevant isLeft (if isLeft then K.first else K.final) i)

include h hK hrel

/-- The latest outstanding ticket that touches the block has a node there. -/
theorem sibling_outstanding (d : Nat) (K' : Ticket) (hK' : ks[d]? = some K')
    (hsd : K.stableVersion ≤ d) (hdt : d < t)
    (ht : Touches K'.first K'.final i (brother ((if isLeft then K.first else K.final) / 2 ^ i)))
    (hlater : ∀ d' K'', d < d' → d' < t → ks[d']? = some K'' → ¬ Touches K''.first K''.final i
      (brother ((if isLeft then K.first else K.final) / 2 ^ i))) :
    seq id = false ∧ i ≤ K'.levels := by
  have hseq : seq id = false := by
    by_contra hne
    have := h.seqTicket (by simpa using hne) hK
    omega
  refine ⟨hseq, ?_⟩
  by_contra hlt
  -- the ticket lies below the block, so the block is the first one
  have hs' := (h.info hK').shape
  have hpow : (2 : Nat) ^ K'.levels ≤ 2 ^ i := Nat.pow_le_pow_right (by omega) (by omega)
  have hzero : brother ((if isLeft then K.first else K.final) / 2 ^ i) = 0 := by
    have := ht.2
    rw [Nat.div_eq_of_lt (Nat.lt_of_lt_of_le hs'.final_lt hpow)] at this
    omega
  have hone : (if isLeft then K.first else K.final) / 2 ^ i = 1 := by
    generalize (if isLeft then K.first else K.final) / 2 ^ i = j at hzero
    unfold brother at hzero
    split at hzero <;> omega
  obtain ⟨-, hfirst⟩ := relevant_one hrel hone
  have hps : 0 < o.pageSize := (h.info hK).pageSize ▸ (h.info hK).shape.pageSize_pos
  have hsize := h.treeSize_levels hK'
  have hlevel : o.treeSize (d + 1) < o.pageSize * 2 ^ i := by
    rw [hsize]
    exact (span_lt_iff hps).2 (by omega)
  have hpos : 0 < o.treeSize (d + 1) := by
    rw [hsize]
    exact Nat.mul_pos hps (Nat.two_pow_pos _)
  obtain ⟨d', K'', hd1, hd2, hK'', ht''⟩ := h.dense_touch hseq hK (by omega) hpos hlevel hfirst
  rw [hzero] at hlater
  exact hlater d' K'' (by omega) hd2 hK'' ht''

/-- What the sibling list of a complete write holds is right for the version of the write. -/
theorem sibling_denotes (hi : i < K.levels) {siblings : List Query}
    (hsib : SiblingAt dht K.pageSize (snapshotAt base ks K.stableVersion) K.stablePages K.query.id
      K.outstanding (if isLeft then K.first else K.final) siblings 0 i)
    (ih : ∀ d K', d < t → ks[d]? = some K' → ∀ i j, i ≤ K'.levels →
      Touches K'.first K'.final i j →
      Denotes dht o.pageSize (snapshotAt base ks (d + 1)) i j (K'.node i j)) :
    Denotes dht o.pageSize (snapshotAt base ks (t + 1)) i
      (brother ((if isLeft then K.first else K.final) / 2 ^ i))
      (searchList siblings (brother ((if isLeft then K.first else K.final) / 2 ^ i) *
        (o.pageSize * 2 ^ i)) (o.pageSize * 2 ^ i)) := by
  have hinfo := h.info hK
  have hs := hinfo.shape
  have htlen := (List.getElem?_eq_some_iff.1 hK).1
  have hown := fun x => brother_not_covered (x := x) hrel
  have hps : 0 < o.pageSize := hinfo.pageSize ▸ hs.pageSize_pos
  have hone := relevant_one hrel
  have hpfirst : K.first ≤ if isLeft then K.first else K.final := by
    have := hs.le
    split <;> omega
  have hp : (if isLeft then K.first else K.final) < 2 ^ K.levels := by
    have := hs.le
    have := hs.final_lt
    split <;> omega
  have hstage := sibling_outstanding h hK isLeft hrel
  generalize (if isLeft then K.first else K.final) = p at *
  have hj : (brother (p / 2 ^ i) + 1) * (o.pageSize * 2 ^ i) < 2 ^ 64 := by
    have hb := hs.bound
    rw [hinfo.pageSize] at hb
    exact block_end_lt hb hi (brother_lt (by omega) (last_block_lt hi hp))
  unfold SiblingAt at hsib
  simp only [hinfo.pageSize, hinfo.id_eq] at hsib
  cases hf : inFlight K.outstanding o.pageSize i (brother (p / 2 ^ i)) with
  | some v =>
    rw [hf] at hsib
    simp only at hsib
    obtain ⟨d, K', hsd, hdt, hK', rfl, ht, hlater⟩ := h.inFlight_some hK hj hf
    obtain ⟨hseq, hlevel⟩ := hstage d K' hK' hsd hdt ht hlater
    have hi' := h.info hK'
    have hd := ih d K' hdt hK' i _ hlevel ht
    rw [hsib]
    rw [Ticket.node, hi'.id_eq, hi'.version, hi'.pageSize] at hd
    refine hd.congr fun x hx => ?_
    rw [snapshot_succ hK, Write.apply_of_not_covers (hown x hx) (h.not_far hseq hK)]
    exact snapshot_skip (by omega) (by omega) hx
      fun d' K'' h1 h2 hK'' => ⟨hlater d' K'' (by omega) h2 hK'', h.not_far hseq hK''⟩
  | none =>
    rw [hf] at hsib
    simp only at hsib
    obtain ⟨hempty, hdenotes⟩ := hsib
    have hnone := h.inFlight_none hK hj hf
    by_cases hfar : Far K.stablePages p i
    · -- neither source has the block: it is empty in the new version
      have hKfar := h.untouched_far hK hnone hfar (hone hfar.1).2
      rw [hempty (.inl hfar)]
      refine .hole (.inl rfl) fun x hx => ?_
      rw [snapshot_succ hK]
      exact Write.apply_of_wipes (hown x hx) hKfar _
    · exact (hdenotes hfar (Nat.zero_le _)).congr
        fun x hx => h.untouched_stable hK hnone hfar hpfirst hx (hown x hx)

end sibling

/-! ## Complete versions -/

/-- When the first `v` writes are complete, their nodes stand for the page maps of their
versions. The induction is on the ticket: siblings belong to smaller ones. -/
theorem nodes_denote (h : BlobInv seq dht base id o issued published ks) {v : Nat}
    (hcomplete : ∀ t K, t < v → ks[t]? = some K →
      Complete dht (snapshotAt base ks K.stableVersion) K) :
    ∀ {t : Nat} {K : Ticket}, t < v → ks[t]? = some K → ∀ i j, i ≤ K.levels →
      Touches K.first K.final i j →
      Denotes dht o.pageSize (snapshotAt base ks (t + 1)) i j (K.node i j) := by
  intro t
  induction t using Nat.strongRecOn with
  | _ t ih =>
    intro K htv hK i j hij ht
    have hinfo := h.info hK
    have hs := hinfo.shape
    obtain ⟨left, right, hleaf, hinner, hleft, hright⟩ := (hcomplete t K htv hK).parts
    have ih' : ∀ d K', d < t → ks[d]? = some K' → ∀ i j, i ≤ K'.levels →
        Touches K'.first K'.final i j →
        Denotes dht o.pageSize (snapshotAt base ks (d + 1)) i j (K'.node i j) :=
      fun d K' hd hK' => ih d hd (by omega) hK'
    have hleaf' : ∀ x, K.first ≤ x → x ≤ K.final → ∃ key l,
        dht (nodeAt K.query.id K.query.version o.pageSize 0 x) =
          some (.node { isLeaf := true, left := key }) ∧
        dht key = some (.providers l) ∧ snapshotAt base ks (t + 1) x = some ⟨key, l⟩ := by
      intro x hx1 hx2
      refine ⟨K.pageKey x, (K.page x).providers, ?_, ?_, ?_⟩
      · rw [← hinfo.pageSize]
        exact hleaf _ _ ⟨x, hx1, hx2, .inr ⟨rfl, rfl⟩⟩
      · exact hleaf _ _ ⟨x, hx1, hx2, .inl ⟨rfl, rfl⟩⟩
      · rw [snapshot_succ hK]
        exact Write.apply_of_covers ⟨hx1, hx2⟩ _
    have hinner' : ∀ i k, i < K.levels → Touches K.first K.final (i + 1) k →
        dht (nodeAt K.query.id K.query.version o.pageSize (i + 1) k) = some (.node
          (childNode left right K.query.id K.query.version o.pageSize K.first K.final i k)) := by
      intro i k hi hk
      rw [← hinfo.pageSize]
      exact hinner _ _ ⟨i, k, hi, hk, rfl, rfl⟩
    rw [Ticket.node, hinfo.pageSize]
    refine denotes_own hs.le hleaf' hinner' ?_ ?_ hij ht
    · intro i hi hodd
      have hd := sibling_denotes h hK true hodd hi (hleft i hi hodd) ih'
      simp only [if_true, brother_odd hodd] at hd
      exact hd
    · intro i hi heven
      have hd := sibling_denotes h hK false heven hi (hright i hi heven) ih'
      simp only [Bool.false_eq_true, if_false, brother_even heven] at hd
      exact hd

/-- The tree of a complete write stands for the page map of its version. -/
theorem tree_denotes (h : BlobInv seq dht base id o issued published ks) {t : Nat} {K : Ticket}
    (hK : ks[t]? = some K)
    (hcomplete : ∀ t' K', t' < t + 1 → ks[t']? = some K' →
      Complete dht (snapshotAt base ks K'.stableVersion) K') :
    TreeDenotes dht o.pageSize (snapshotAt base ks (t + 1)) K.levels K.tree := by
  have hlt := (List.getElem?_eq_some_iff.1 hK).1
  have hinfo := h.info hK
  have hs := hinfo.shape
  have hps : 0 < o.pageSize := hinfo.pageSize ▸ hs.pageSize_pos
  have hsize : K.tree.node.size = o.pageSize * 2 ^ K.levels := by
    rw [← hinfo.pageSize]
    exact hs.rootSize
  have hbound := hs.bound
  rw [hinfo.pageSize] at hbound
  have hnode : K.tree.node = K.node K.levels 0 := by
    rw [Ticket.node, nodeAt, Nat.zero_mul, ← hs.rootSize]
    rfl
  have htop : Touches K.first K.final K.levels 0 := by
    refine ⟨?_, Nat.zero_le _⟩
    rw [Nat.div_eq_of_lt (Nat.lt_of_le_of_lt hs.le hs.final_lt)]
  refine ⟨hps, hsize, hbound, ?_, ?_, ?_⟩
  · rw [hnode]
    exact h.nodes_denote hcomplete (Nat.lt_succ_self t) hK _ _ (Nat.le_refl _) htop
  · intro x hx
    refine h.support (by omega) ?_ hps
    rw [h.treeSize_levels hK, Nat.mul_comm]
    exact Nat.mul_le_mul_right _ hx
  · have hc : K.write.Covers K.first := ⟨Nat.le_refl _, hs.le⟩
    refine ⟨K.first, ?_⟩
    rw [snapshot_succ hK, Write.apply_of_covers hc]
    simp

/-- The root of a version whose writes are complete stands for the page map of the version. -/
theorem root_denotes (h : BlobInv seq dht base id o issued published ks) {v : Nat} {r : Root}
    (hv : o.roots[v]? = some r)
    (hcomplete : ∀ t K, t < v → ks[t]? = some K →
      Complete dht (snapshotAt base ks K.stableVersion) K) :
    RootDenotes dht o.pageSize (snapshotAt base ks v) r := by
  cases v with
  | zero => exact h.base hv
  | succ t =>
    have hlt := (List.getElem?_eq_some_iff.1 hv).1
    have hcount := h.blob.window.pending.count
    have hlen := h.length_eq
    have hK := List.getElem?_eq_getElem (show t < ks.length by omega)
    have hinfo := h.info hK
    have hall := ObjInfo.allRoots_of_roots hv
    have h3 := h.blob.geometry.offset (List.mem_of_getElem? hall)
    -- the root of version `t + 1` is the tree of ticket `t`
    have hnode : r.node = ks[t].tree.node := by
      have h1 := h.blob.geometry.own (Nat.succ_pos t) hall
      have h2 : r.node.version = t + 1 := h.blob.window.pending.rootVersion (Nat.succ_pos t) hv
      have h4 := hinfo.rootSize
      rw [ObjInfo.treeSize_eq hall] at h4
      rw [Ticket.tree, hinfo.id_eq, hinfo.version, h4, ← h1, ← h2, ← h3]
    exact ⟨h3, .inr ⟨_, (h.tree_denotes hK hcomplete).congr hnode⟩⟩

end BlobInv

end BlobSeer
