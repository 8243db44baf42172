import BlobSeer.RangeQuery.Walk

/-!
# Reads over holes, and gets that fail

A version may have pages that were never written, and any get may fail. `readRecordLocations` ends all
the same (`readRecordLocations_ends`), and when it returns `true` its leaves are the pages of the
version, with an empty leaf for each page that was never written. So failures of the DHT are never
answered with wrong pages.
-/

namespace BlobSeer

open Lib

/-! ## What an answer does when it may fail -/

/-- One answer fails the read, finds a node, or finds the providers of a page. -/
theorem Reader.answer_cases {r : Reader} {k : Nat} {req : ReadRequest}
    (hreq : r.pending[k]? = some req) (dht : Dht) (range : Query) (ps : Nat) :
    ((r.answer dht range ps k).result = false ∧
        (r.answer dht range ps k).pending = r.pending.eraseIdx k) ∨
      (∃ key offset node, req = .node key offset ∧ r.result = true ∧ dht key = some (.node node) ∧
        r.answer dht range ps k =
          { r with pending := r.pending.eraseIdx k ++ nodeRequests range ps offset node }) ∨
      ∃ key index l, req = .leaf key index ∧ r.result = true ∧ dht key = some (.providers l) ∧
        r.answer dht range ps k =
          { r with pending := r.pending.eraseIdx k, leaves := r.leaves.set index ⟨key, l⟩ } := by
  rcases Bool.eq_false_or_eq_true r.result with hr | hr
  · cases req with
    | node key offset =>
      cases hval : dht key with
      | none =>
        left
        simp [Reader.answer, hreq, Reader.readCallback, hr, hval, readNode]
      | some val =>
        cases val with
        | providers l =>
          left
          simp [Reader.answer, hreq, Reader.readCallback, hr, hval, readNode]
        | node node =>
          exact .inr (.inl ⟨key, offset, node, rfl, hr, hval, Reader.answer_node hr hreq hval⟩)
    | leaf key index =>
      cases hval : dht key with
      | none =>
        left
        simp [Reader.answer, hreq, Reader.leafCallback, hr, hval]
      | some val =>
        cases val with
        | node node =>
          left
          simp [Reader.answer, hreq, Reader.leafCallback, hr, hval]
        | providers l =>
          exact .inr (.inr ⟨key, index, l, rfl, hr, hval, Reader.answer_leaf hr hreq hval⟩)
  · left
    cases req with
    | node key offset => simp [Reader.answer, hreq, Reader.readCallback, hr]
    | leaf key index => simp [Reader.answer, hreq, Reader.leafCallback, hr]

theorem Reader.answer_length {r : Reader} {k : Nat} {req : ReadRequest}
    (hreq : r.pending[k]? = some req) (dht : Dht) (range : Query) (ps : Nat) :
    (r.answer dht range ps k).leaves.length = r.leaves.length :=
  (Reader.answer_pending hreq dht range ps).1

section holes

variable (dht : Dht) (ps : Nat) (m : PageMap) (a b : Nat)

/-- A queued get for a block that the range touches, or for a page of the range that is written. -/
inductive Sure : ReadRequest → Prop
  | node {id v i j : Nat} (hd : Denotes dht ps m i j (nodeAt id v ps i j)) (ht : Touches a b i j)
      (hend : (j + 1) * (ps * 2 ^ i) < 2 ^ 64) :
      Sure (.node (nodeAt id v ps i j) (j * (ps * 2 ^ i)))
  | leaf {x : Nat} {key : Query} {l : List ProviderDesc} (hax : a ≤ x) (hxb : x ≤ b)
      (hk : dht key = some (.providers l)) (hm : m x = some ⟨key, l⟩) : Sure (.leaf key (x - a))

/-- What holds while the gets are answered. Once one has failed, only the queue matters. -/
structure HoleInv (r : Reader) : Prop where
  length : r.leaves.length = b + 1 - a
  sure : ∀ req ∈ r.pending, Sure dht ps m a b req
  hole : r.result = true → ∀ x, a ≤ x → x ≤ b → m x = none → r.leaves[x - a]? = some {}
  served : r.result = true → ∀ x, a ≤ x → x ≤ b → m x ≠ none →
    r.leaves[x - a]? = some ((m x).getD {}) ∨ ∃ req ∈ r.pending, Covers ps a req x

variable {dht ps m a b} {range : Query} (hz : NoZero dht) (hps : 0 < ps) (hab : a ≤ b)
  (hb : (b + 1) * ps < 2 ^ 64) (hn : b - a < 2 ^ 32) (ho : range.offset = a * ps)
  (hs : range.size = (b + 1 - a) * ps)

include hps in
theorem Sure.weight_pos {req : ReadRequest} (h : Sure dht ps m a b req) : 0 < req.weight := by
  cases h with
  | @node id v i j _ _ _ =>
    have hsize := nodeAt_size_pos hps id v i j
    simp only [ReadRequest.weight]
    omega
  | leaf _ _ _ _ => exact Nat.one_pos

/-- A pointer is empty and its block a hole, or it points to a node of the block. -/
theorem Denotes.empty_or_node {i j : Nat} {p : Query} (hd : Denotes dht ps m i j p) :
    (p = {} ∧ ∀ x, x / 2 ^ i = j → m x = none) ∨ ∃ id v, p = nodeAt id v ps i j := by
  cases hd with
  | hole hp hm =>
    rcases hp with rfl | ⟨v, rfl⟩
    · exact .inl ⟨rfl, hm⟩
    · exact .inr ⟨0, v, rfl⟩
  | leaf _ _ _ => exact .inr ⟨_, _, rfl⟩
  | inner _ _ _ => exact .inr ⟨_, _, rfl⟩

include hps hab hb ho hs in
/-- The gets that one child of an inner node adds to the queue. -/
theorem sure_child {i j : Nat} {p : Query} (hd : Denotes dht ps m i j p)
    (hend : (j + 1) * (ps * 2 ^ i) < 2 ^ 64) :
    ∃ reqs : List ReadRequest,
      (if p.intersects range then [.node p p.offset] else []) = reqs ∧
      (∀ req ∈ reqs, Sure dht ps m a b req) ∧
      (∀ x, a ≤ x → x ≤ b → x / 2 ^ i = j → m x ≠ none → ∃ req ∈ reqs, Covers ps a req x) ∧
      (reqs.map ReadRequest.weight).sum ≤ 3 * (ps * 2 ^ i) - 1 := by
  rcases hd.empty_or_node with ⟨rfl, hm⟩ | ⟨id, v, rfl⟩
  · refine ⟨[], ?_, List.forall_mem_nil _, fun x _ _ hx hne => absurd (hm x hx) hne, Nat.zero_le _⟩
    rw [Query.not_intersects_of_size_zero rfl rfl]
    rfl
  · have hiff : (nodeAt id v ps i j).intersects range = true ↔ Touches a b i j :=
      nodeAt_intersects_iff hps hab ho hs hend hb
    by_cases ht : Touches a b i j
    · refine ⟨_, if_pos (hiff.mpr ht), fun req hreq => ?_, fun x _ _ hx _ => ?_, ?_⟩
      · rw [List.mem_singleton.mp hreq]
        exact .node hd ht hend
      · exact ⟨_, List.mem_singleton_self _, (covers_nodeAt hps).mpr hx⟩
      · simp [ReadRequest.weight, nodeAt]
    · refine ⟨[], if_neg fun h => ht (hiff.mp h), List.forall_mem_nil _, fun x hax hxb hx _ => ?_,
        Nat.zero_le _⟩
      exact absurd (hx ▸ touches_of_mem i hax hxb) ht

include hz hps hab hb hn ho hs in
/-- The gets that a node leads to: they lead to the same pages, and weigh less. -/
theorem Sure.requests {key : Query} {offset : Nat} (h : Sure dht ps m a b (.node key offset))
    {node : DhtNode} (hnode : dht key = some (.node node)) :
    (∀ req ∈ nodeRequests range ps offset node, Sure dht ps m a b req) ∧
      (∀ x, a ≤ x → x ≤ b → m x ≠ none → Covers ps a (.node key offset) x →
        ∃ req ∈ nodeRequests range ps offset node, Covers ps a req x) ∧
      ((nodeRequests range ps offset node).map ReadRequest.weight).sum <
        (ReadRequest.node key offset).weight := by
  cases h with
  | @node id v i j hd ht hend =>
    generalize hkey : nodeAt id v ps i j = key at hd hnode ⊢
    cases hd with
    | hole hp _ =>
      rw [hz key hp.id_eq] at hnode
      cases hnode
    | @leaf j id' v' page l hp hk hm =>
      rw [hp] at hnode
      cases hnode
      obtain ⟨x, hax, hxb, hx⟩ := ht.exists_mem hab
      rw [Nat.pow_zero, Nat.div_one] at hx
      subst hx
      have hidx := leaf_index (x := x) hps hn ho hax hxb (by
        rw [Nat.add_mul, Nat.pow_zero, Nat.mul_one] at hend
        omega)
      rw [nodeRequests, if_pos rfl, Nat.pow_zero, Nat.mul_one, hidx]
      refine ⟨fun req hreq => ?_, fun y hay hyb _ hy => ?_, ?_⟩
      · rw [List.mem_singleton.mp hreq]
        exact .leaf hax hxb hk hm
      · have hcovers : y / 2 ^ 0 = x := (covers_nodeAt hps).mp hy
        rw [Nat.pow_zero, Nat.div_one] at hcovers
        subst hcovers
        exact ⟨_, List.mem_singleton_self _, rfl⟩
      · simp only [ReadRequest.weight, List.map_cons, List.map_nil, List.sum_cons, List.sum_nil,
          nodeAt]
        omega
    | @inner i j id' v' l q hp hl hr =>
      rw [hp] at hnode
      cases hnode
      have hhalf : (j + 1) * (ps * 2 ^ (i + 1)) = (2 * j + 1 + 1) * (ps * 2 ^ i) := by
        rw [span_succ]
        ring
      have hmul : (2 * j + 1) * (ps * 2 ^ i) ≤ (2 * j + 1 + 1) * (ps * 2 ^ i) :=
        Nat.mul_le_mul_right _ (by omega)
      have hpos : 0 < ps * 2 ^ i := Nat.mul_pos hps (Nat.two_pow_pos i)
      obtain ⟨ls, hls, hlg, hlc, hlw⟩ := sure_child hps hab hb ho hs hl (by omega)
      obtain ⟨rs, hrs, hrg, hrc, hrw⟩ := sure_child hps hab hb ho hs hr (by omega)
      rw [nodeRequests, if_neg Bool.false_ne_true, hls, hrs]
      refine ⟨fun req hreq => ?_, fun y hay hyb hne hy => ?_, ?_⟩
      · exact (List.mem_append.mp hreq).elim (hlg req) (hrg req)
      · rw [covers_nodeAt hps, div_two_pow_succ] at hy
        rcases Nat.mod_two_eq_zero_or_one (y / 2 ^ i) with h2 | h2
        · obtain ⟨req, hreq, hc⟩ := hlc y hay hyb (by omega) hne
          exact ⟨req, List.mem_append_left _ hreq, hc⟩
        · obtain ⟨req, hreq, hc⟩ := hrc y hay hyb (by omega) hne
          exact ⟨req, List.mem_append_right _ hreq, hc⟩
      · have hparent : ReadRequest.weight (.node (nodeAt id' v' ps (i + 1) j)
            (j * (ps * 2 ^ (i + 1)))) = 3 * (2 * (ps * 2 ^ i)) - 1 := by
          simp only [ReadRequest.weight, nodeAt, span_succ]
        rw [hparent, List.map_append, List.sum_append]
        omega

/-- A page is served, or led to by the get answered now, or by one of the others. -/
theorem HoleInv.served_cases {r : Reader} (h : HoleInv dht ps m a b r) (hr : r.result = true) {k : Nat}
    {req : ReadRequest} (hreq : r.pending[k]? = some req) {x : Nat} (hax : a ≤ x) (hxb : x ≤ b)
    (hne : m x ≠ none) :
    r.leaves[x - a]? = some ((m x).getD {}) ∨ Covers ps a req x ∨
      ∃ req ∈ r.pending.eraseIdx k, Covers ps a req x := by
  obtain ⟨hk, rfl⟩ := List.getElem?_eq_some_iff.1 hreq
  rcases h.served hr x hax hxb hne with hx | ⟨req, hmem, hx⟩
  · exact .inl hx
  · rcases List.mem_cons.1 ((List.getElem_cons_eraseIdx_perm hk).mem_iff.2 hmem) with rfl | hmem
    · exact .inr (.inl hx)
    · exact .inr (.inr ⟨req, hmem, hx⟩)

/-- The providers of a page have been found. -/
theorem HoleInv.serve {r : Reader} (h : HoleInv dht ps m a b r) (hr : r.result = true) {k x : Nat}
    {key : Query} {l : List ProviderDesc} (hreq : r.pending[k]? = some (.leaf key (x - a)))
    (hax : a ≤ x) (hxb : x ≤ b) (hm : m x = some ⟨key, l⟩) :
    HoleInv dht ps m a b
      { r with pending := r.pending.eraseIdx k, leaves := r.leaves.set (x - a) ⟨key, l⟩ } := by
  have hplace : (r.leaves.set (x - a) ⟨key, l⟩)[x - a]? = some ((m x).getD {}) := by
    rw [List.getElem?_set_self (by rw [h.length]; omega), hm]
    rfl
  refine ⟨List.length_set.trans h.length, fun req hmem => h.sure _ (List.mem_of_mem_eraseIdx hmem),
    fun _ y hay hyb hnone => ?_, fun _ y hay hyb hne => ?_⟩
  · have hxy : x ≠ y := by
      rintro rfl
      rw [hm] at hnone
      cases hnone
    rw [List.getElem?_set_ne (by omega)]
    exact h.hole hr y hay hyb hnone
  · by_cases hxy : x = y
    · subst hxy
      exact .inl hplace
    · rcases h.served_cases hr hreq hay hyb hne with hy | hy | hy
      · refine .inl ?_
        rw [List.getElem?_set_ne (by omega)]
        exact hy
      · simp only [Covers] at hy
        omega
      · exact .inr hy

include hz hps hab hb hn ho hs in
/-- One answer keeps the invariant and lowers the weight. -/
theorem HoleInv.answer {r : Reader} (h : HoleInv dht ps m a b r) {d : Dht} (hle : DhtLe d dht)
    {k : Nat} (hk : k < r.pending.length) :
    HoleInv dht ps m a b (r.answer d range ps k) ∧ (r.answer d range ps k).weight < r.weight := by
  obtain ⟨req, hreq⟩ : ∃ req, r.pending[k]? = some req := ⟨_, List.getElem?_eq_getElem hk⟩
  have hsure := h.sure req (List.mem_of_getElem? hreq)
  have hlen := (Reader.answer_length hreq d range ps).trans h.length
  have hold : ∀ req ∈ r.pending.eraseIdx k, Sure dht ps m a b req := fun req hmem =>
    h.sure _ (List.mem_of_mem_eraseIdx hmem)
  have hweight := hsure.weight_pos hps
  rw [Reader.weight_eq hreq]
  obtain ⟨hfalse, hpending⟩ | ⟨key, offset, node, rfl, hr, hnode, heq⟩ |
    ⟨key, index, l, rfl, hr, hval, heq⟩ := Reader.answer_cases hreq d range ps
  · have hno : (r.answer d range ps k).result ≠ true := by
      rw [hfalse]
      exact Bool.false_ne_true
    refine ⟨⟨hlen, ?_, fun ht => absurd ht hno, fun ht => absurd ht hno⟩, ?_⟩
    · rw [hpending]
      exact hold
    · rw [Reader.weight, hpending]
      omega
  · obtain ⟨hnew, hcovers, hless⟩ := hsure.requests hz hps hab hb hn ho hs (hle _ _ hnode)
    rw [heq] at hlen ⊢
    refine ⟨⟨hlen, fun req hmem => (List.mem_append.mp hmem).elim (hold req) (hnew req), h.hole,
      fun _ x hax hxb hne => ?_⟩, ?_⟩
    · rcases h.served_cases hr hreq hax hxb hne with hx | hx | ⟨req, hmem, hx⟩
      · exact .inl hx
      · obtain ⟨req, hmem, hx⟩ := hcovers x hax hxb hne hx
        exact .inr ⟨req, List.mem_append_right _ hmem, hx⟩
      · exact .inr ⟨req, List.mem_append_left _ hmem, hx⟩
    · rw [Reader.weight, List.map_append, List.sum_append]
      omega
  · rw [heq]
    refine ⟨?_, Nat.lt_add_of_pos_left hweight⟩
    cases hsure with
    | leaf hax hxb hk hm =>
      rw [hle _ _ hval] at hk
      cases hk
      exact h.serve hr hreq hax hxb hm

/-! ## The whole read -/

variable {root : Root} {M : Nat} (hd : Denotes dht ps m M 0 root.node)
  (hsize : root.node.size = ps * 2 ^ M) (hM : ps * 2 ^ M < 2 ^ 64) (hbM : b < 2 ^ M)

include hps hab hd hsize hM hbM in
theorem HoleInv.start : HoleInv dht ps m a b (Reader.start root (b + 1 - a)) := by
  have ht : Touches a b M 0 := by
    refine ⟨?_, Nat.zero_le _⟩
    rw [Nat.div_eq_of_lt (by omega)]
  have hpos : 0 < ps * 2 ^ M := Nat.mul_pos hps (Nat.two_pow_pos M)
  obtain ⟨id, v, hnode⟩ : ∃ id v, root.node = nodeAt id v ps M 0 := by
    rcases hd.empty_or_node with ⟨hnil, -⟩ | hnode
    · rw [hnil] at hsize
      exact absurd hsize hpos.ne
    · exact hnode
  refine ⟨List.length_replicate, fun req hreq => ?_, fun _ x hax hxb _ => ?_,
    fun _ x hax hxb _ => .inr ⟨_, List.mem_singleton_self _, ?_⟩⟩
  · rw [Reader.start, List.mem_singleton] at hreq
    rw [hreq, hnode]
    rw [hnode] at hd
    have hsure : Sure dht ps m a b _ := .node hd ht (by omega)
    rw [Nat.zero_mul] at hsure
    exact hsure
  · exact (List.getElem?_replicate_of_lt (by omega)).trans rfl
  · rw [hnode, covers_nodeAt hps]
    exact Nat.div_eq_of_lt (by omega)

include hz hps hab hb hn ho hs in
/-- The queue is emptied, whatever the gets return. -/
theorem HoleInv.wait {dhts : Nat → Dht} (hle : ∀ n, DhtLe (dhts n) dht) (sched : Nat → Nat) :
    ∀ (fuel : Nat) {n : Nat} {r : Reader}, HoleInv dht ps m a b r → r.weight ≤ fuel →
      ∃ r', Reader.wait dhts sched range ps fuel n r = some r' ∧ HoleInv dht ps m a b r' ∧
        r'.pending = [] := by
  intro fuel
  induction fuel with
  | zero =>
    intro n r h hf
    have hempty : r.pending = [] := by
      by_contra hne
      have hpos := List.length_pos_of_ne_nil hne
      have := (h.answer hz hps hab hb hn ho hs (DhtLe.refl dht) hpos).2
      omega
    exact ⟨r, by simp [Reader.wait, hempty], h, hempty⟩
  | succ fuel ih =>
    intro n r h hf
    by_cases hempty : r.pending = []
    · exact ⟨r, by simp [Reader.wait, hempty], h, hempty⟩
    · have hpos := List.length_pos_of_ne_nil hempty
      obtain ⟨h', hlt⟩ := h.answer hz hps hab hb hn ho hs (hle n)
        (Nat.mod_lt (sched n) hpos)
      obtain ⟨r', hr', hinv, hp⟩ := ih (n := n + 1) h' (by omega)
      refine ⟨r', ?_, hinv, hp⟩
      unfold Reader.wait
      rw [if_neg (by simpa using hempty)]
      exact hr'

/-- More fuel changes nothing. -/
theorem Reader.wait_mono {dhts : Nat → Dht} {sched : Nat → Nat} :
    ∀ {fuel n : Nat} {r r' : Reader}, Reader.wait dhts sched range ps fuel n r = some r' →
      ∀ {fuel'}, fuel ≤ fuel' → Reader.wait dhts sched range ps fuel' n r = some r' := by
  intro fuel
  induction fuel with
  | zero =>
    intro n r r' h fuel' _
    unfold Reader.wait at h
    split at h
    · next hempty =>
      cases fuel' with
      | zero => rw [Reader.wait, if_pos hempty, h]
      | succ fuel' => rw [Reader.wait, if_pos hempty, h]
    · cases h
  | succ fuel ih =>
    intro n r r' h fuel' hle
    obtain ⟨fuel', rfl⟩ : ∃ k, fuel' = k + 1 := ⟨fuel' - 1, by omega⟩
    unfold Reader.wait at h ⊢
    split at h
    · next hempty => rw [if_pos hempty, h]
    · next hempty =>
      rw [if_neg hempty]
      exact ih h (by omega)

/-- The leaves of a walk that has ended and has not failed. -/
theorem HoleInv.leaves {r : Reader} (h : HoleInv dht ps m a b r) (hpending : r.pending = [])
    (hr : r.result = true) :
    r.leaves = (List.range' a (b + 1 - a)).map fun x => (m x).getD {} := by
  refine List.ext_getElem? fun i => ?_
  rcases Nat.lt_or_ge i (b + 1 - a) with hi | hi
  · have hsub : a + i - a = i := Nat.add_sub_cancel_left a i
    have hleaf : r.leaves[i]? = some ((m (a + i)).getD {}) := by
      cases hm : m (a + i) with
      | none =>
        have hx := h.hole hr (a + i) (by omega) (by omega) hm
        rwa [hsub] at hx
      | some leaf =>
        rcases h.served hr (a + i) (by omega) (by omega) (by rw [hm]; exact Option.some_ne_none _)
          with hx | ⟨req, hreq, -⟩
        · rwa [hsub, hm] at hx
        · rw [hpending] at hreq
          cases hreq
    rw [hleaf, List.getElem?_map, List.getElem?_range' hi, Option.map_some, Nat.one_mul]
  · rw [List.getElem?_eq_none (by rw [h.length]; exact hi),
      List.getElem?_eq_none (by simpa using hi)]

include hz hps hab hb hn ho hs hd hsize hM hbM

/-- **Lookups of any range.** Whatever gets fail, `readRecordLocations` ends. When it returns `true` it has
the leaf of every page of the range that is written, and an empty leaf for every page that is not. -/
theorem readRecordLocations_ends (hroot : root.pageSize = ps) {dhts : Nat → Dht}
    (hle : ∀ n, DhtLe (dhts n) dht) (sched : Nat → Nat) :
    ∃ fuel0 result leaves, (∀ fuel, fuel0 ≤ fuel →
        readRecordLocations dhts sched fuel (b + 1 - a) range root = some (result, leaves)) ∧
      (result = true → leaves = (List.range' a (b + 1 - a)).map fun x => (m x).getD {}) := by
  subst hroot
  have hstart := HoleInv.start hps hab hd hsize hM hbM
  obtain ⟨r, hr, hinv, hpending⟩ := hstart.wait hz hps hab hb hn ho hs hle sched _ (n := 0)
    (Nat.le_refl _)
  refine ⟨(Reader.start root (b + 1 - a)).weight, r.result, r.leaves, fun fuel hfuel => ?_,
    hinv.leaves hpending⟩
  have hwait := Reader.wait_mono hr hfuel
  unfold readRecordLocations
  exact congrArg (Option.map fun r => (r.result, r.leaves)) hwait

end holes

end BlobSeer
