import BlobSeer.Lib.Run
import BlobSeer.RangeQuery.Reader

/-!
# The states of a walk

`Reader.wait` answers the queued gets one after another. Here a walk is seen as a run of single answers
(`Walk`), each given by a state of the DHT from which entries may be missing, so that a statement about
all states of a walk also covers gets that fail.

A walk for a range of pages asks for no leaf outside the range (`walk_leaf_lt`). A walk for an empty
range at the start of a page goes down to that page and asks for its leaf all the same
(`Denotes.walk_down`).
-/

namespace BlobSeer

open Lib

/-- `readRecordLocations` before its `wait`. -/
def Reader.start (root : Root) (count : Nat) : Reader :=
  { leaves := List.replicate count {}, pending := [.node root.node 0] }

/-- One queued get is answered from a state of the DHT. -/
def Reader.step (range : Query) (pageSize : Nat) (r : Reader) (a : Dht × Nat) : Option Reader :=
  if a.2 < r.pending.length then some (r.answer a.1 range pageSize a.2) else none

/-- The answers of `dht`, or none. -/
abbrev AnsweredFrom (dht : Dht) (_ : Reader) (a : Dht × Nat) : Prop := DhtLe a.1 dht

/-- The states of `readRecordLocations`, on a vector of `count` leaves. -/
def Walk (dht : Dht) (range : Query) (root : Root) (count : Nat) (r : Reader) : Prop :=
  ∃ as, Run (Reader.step range root.pageSize) (AnsweredFrom dht) (Reader.start root count) as r

theorem Reader.step_eq {range : Query} {ps : Nat} {r r' : Reader} {a : Dht × Nat}
    (h : r.step range ps a = some r') :
    ∃ req, r.pending[a.2]? = some req ∧ r.answer a.1 range ps a.2 = r' := by
  unfold Reader.step at h
  split at h
  · next hlt =>
    cases h
    exact ⟨_, List.getElem?_eq_getElem hlt, rfl⟩
  · cases h

theorem Reader.step_single_eq {range : Query} {ps : Nat} {r r' : Reader} {req : ReadRequest}
    {a : Dht × Nat} (hpending : r.pending = [req]) (h : r.step range ps a = some r') :
    r.answer a.1 range ps 0 = r' := by
  obtain ⟨req', hreq, heq⟩ := Reader.step_eq h
  have hzero : a.2 = 0 := by
    have hlt := (List.getElem?_eq_some_iff.mp hreq).1
    rw [hpending] at hlt
    exact Nat.lt_one_iff.mp hlt
  rw [hzero] at heq
  exact heq

theorem Reader.step_nil {range : Query} {ps : Nat} {r r' : Reader} {a : Dht × Nat}
    (hpending : r.pending = []) : r.step range ps a ≠ some r' := by
  intro h
  obtain ⟨req, hreq, -⟩ := Reader.step_eq h
  rw [hpending] at hreq
  cases hreq

/-- One answer takes a get from the queue. What it adds to it comes from a node that was found. -/
theorem Reader.answer_pending {r : Reader} {k : Nat} {req : ReadRequest}
    (hreq : r.pending[k]? = some req) (dht : Dht) (range : Query) (ps : Nat) :
    (r.answer dht range ps k).leaves.length = r.leaves.length ∧
      ∃ new, (r.answer dht range ps k).pending = r.pending.eraseIdx k ++ new ∧
        (new = [] ∨ ∃ key offset node, req = .node key offset ∧ dht key = some (.node node) ∧
          new = nodeRequests range ps offset node) := by
  simp only [Reader.answer, hreq]
  cases req with
  | node key offset =>
    simp only [Reader.readCallback]
    split
    · cases hnode : readNode (dht key) with
      | none => exact ⟨rfl, [], (List.append_nil _).symm, .inl rfl⟩
      | some node =>
        have hfound : dht key = some (.node node) := by
          unfold readNode at hnode
          split at hnode
          · next heq =>
            cases hnode
            exact heq
          · cases hnode
        refine ⟨by dsimp only; split <;> rfl, nodeRequests range ps offset node, ?_,
          .inr ⟨key, offset, node, rfl, hfound, rfl⟩⟩
        dsimp only [nodeRequests]
        split
        · rfl
        · exact List.append_assoc _ _ _
    · exact ⟨rfl, [], (List.append_nil _).symm, .inl rfl⟩
  | leaf key index =>
    simp only [Reader.leafCallback]
    split
    · split
      · exact ⟨List.length_set, [], (List.append_nil _).symm, .inl rfl⟩
      · exact ⟨List.length_modify _ _ _, [], (List.append_nil _).symm, .inl rfl⟩
    · exact ⟨rfl, [], (List.append_nil _).symm, .inl rfl⟩

/-- The only queued get finds a node. -/
theorem Reader.step_single {r : Reader} {dht : Dht} {key : Query} {offset : Nat} {node : DhtNode}
    (hr : r.result = true) (hpending : r.pending = [.node key offset])
    (hnode : dht key = some (.node node)) (range : Query) (ps : Nat) :
    r.step range ps (dht, 0) = some { r with pending := nodeRequests range ps offset node } := by
  have hlt : 0 < r.pending.length := by
    rw [hpending]
    exact Nat.one_pos
  have hreq : r.pending[0]? = some (.node key offset) := by
    rw [hpending]
    rfl
  unfold Reader.step
  rw [if_pos hlt, Reader.answer_node hr hreq hnode, hpending]
  rfl

/-- `wait` performs a walk. -/
theorem Reader.wait_run {dht : Dht} {dhts : Nat → Dht} (hle : ∀ n, DhtLe (dhts n) dht)
    {sched : Nat → Nat} {range : Query} {ps fuel : Nat} :
    ∀ {n : Nat} {r r' : Reader}, Reader.wait dhts sched range ps fuel n r = some r' →
      ∃ as, Run (Reader.step range ps) (AnsweredFrom dht) r as r' ∧ r'.pending = [] := by
  induction fuel with
  | zero =>
    intro n r r' h
    unfold Reader.wait at h
    split at h
    · next hempty =>
      cases h
      exact ⟨[], .nil _, List.isEmpty_iff.mp hempty⟩
    · cases h
  | succ fuel ih =>
    intro n r r' h
    unfold Reader.wait at h
    split at h
    · next hempty =>
      cases h
      exact ⟨[], .nil _, List.isEmpty_iff.mp hempty⟩
    · next hne =>
      have hpos : 0 < r.pending.length := by
        apply List.length_pos_of_ne_nil
        intro hnil
        exact hne (List.isEmpty_iff.mpr hnil)
      obtain ⟨as, hrun, hnil⟩ := ih h
      refine ⟨(dhts n, sched n % r.pending.length) :: as, .cons (hle n) ?_ hrun, hnil⟩
      exact if_pos (Nat.mod_lt _ hpos)

/-- `readRecordLocations` returns the last state of a walk. -/
theorem readRecordLocations_walk {dht : Dht} {dhts : Nat → Dht} (hle : ∀ n, DhtLe (dhts n) dht)
    {sched : Nat → Nat} {fuel count : Nat} {range : Query} {root : Root} {result : Bool}
    {leaves : List RandomSelect}
    (h : readRecordLocations dhts sched fuel count range root = some (result, leaves)) :
    ∃ r, Walk dht range root count r ∧ r.pending = [] ∧ r.result = result ∧ r.leaves = leaves := by
  rw [readRecordLocations, Option.map_eq_some_iff] at h
  obtain ⟨r, hwait, hr⟩ := h
  obtain ⟨as, hrun, hnil⟩ := Reader.wait_run hle hwait
  cases hr
  exact ⟨r, ⟨as, hrun⟩, hnil, rfl, rfl⟩

/-! ## A range of pages -/

section pages

variable (dht : Dht) (ps : Nat) (m : PageMap) (a b : Nat)

/-- A queued get for a block that the range touches, or for the leaf of a page of the range. -/
inductive OnWay : ReadRequest → Prop
  | node {i j : Nat} {key : Query} (hd : Denotes dht ps m i j key) (ht : Touches a b i j)
      (hend : (j + 1) * (ps * 2 ^ i) < 2 ^ 64) : OnWay (.node key (j * (ps * 2 ^ i)))
  | leaf {key : Query} {index : Nat} (hlt : index < b + 1 - a) : OnWay (.leaf key index)

structure WalkInv (r : Reader) : Prop where
  length : r.leaves.length = b + 1 - a
  onWay : ∀ req ∈ r.pending, OnWay dht ps m a b req

variable {dht ps m a b} {range : Query} (hz : NoZero dht) (hps : 0 < ps) (hab : a ≤ b)
  (hb : (b + 1) * ps < 2 ^ 64) (ho : range.offset = a * ps) (hs : range.size = (b + 1 - a) * ps)

include hps hab hb ho hs in
/-- The get that a child of an inner node adds to the queue. -/
theorem onWay_child {i j : Nat} {p : Query} (hd : Denotes dht ps m i j p)
    (hend : (j + 1) * (ps * 2 ^ i) < 2 ^ 64) :
    ∀ req ∈ (if p.intersects range then [ReadRequest.node p p.offset] else []),
      OnWay dht ps m a b req := by
  intro req hreq
  split at hreq
  · next hint =>
    rw [List.mem_singleton] at hreq
    subst hreq
    have hnode : ∀ id v, p = nodeAt id v ps i j → OnWay dht ps m a b (.node p p.offset) := by
      rintro id v rfl
      exact .node hd ((nodeAt_intersects_iff hps hab ho hs hend hb).mp hint) hend
    cases hd with
    | hole hp _ =>
      rcases hp with rfl | ⟨v, rfl⟩
      · rw [Query.not_intersects_of_size_zero rfl rfl] at hint
        cases hint
      · exact hnode _ _ rfl
    | leaf _ _ _ => exact hnode _ _ rfl
    | inner _ _ _ => exact hnode _ _ rfl
  · cases hreq

include hps ho in
/-- The index that `read_callback` computes, as a 32-bit number, is not greater than the place of the
page in the range. -/
theorem leaf_index_le {x : Nat} (hax : a ≤ x) (hx : x * ps < 2 ^ 64) :
    u32 (sub64 (x * ps) range.offset / ps) ≤ x - a := by
  rw [ho, sub64_of_le (Nat.mul_le_mul_right _ hax) hx, ← Nat.sub_mul, Nat.mul_div_cancel _ hps]
  exact Nat.mod_le _ _

include hz hps hab hb ho hs in
/-- What a node on the way asks for is on the way. -/
theorem OnWay.requests {key : Query} {offset : Nat} (h : OnWay dht ps m a b (.node key offset))
    {d : Dht} (hle : DhtLe d dht) {node : DhtNode} (hnode : d key = some (.node node)) :
    ∀ req ∈ nodeRequests range ps offset node, OnWay dht ps m a b req := by
  have hfound := hle _ _ hnode
  cases h with
  | @node i j _ hd ht hend =>
    cases hd with
    | hole hp _ =>
      rw [hz key hp.id_eq] at hfound
      cases hfound
    | @leaf _ id v page l hp _ _ =>
      rw [hp] at hfound
      cases hfound
      obtain ⟨x, hax, hxb, hx⟩ := ht.exists_mem hab
      rw [Nat.pow_zero, Nat.div_one] at hx
      subst hx
      have hmul : x * ps ≤ (b + 1) * ps := Nat.mul_le_mul_right ps (Nat.le_succ_of_le hxb)
      have hlt : x * ps < 2 ^ 64 := Nat.lt_of_le_of_lt hmul hb
      intro req hreq
      rw [nodeRequests, if_pos rfl, List.mem_singleton, Nat.pow_zero, Nat.mul_one] at hreq
      subst hreq
      apply OnWay.leaf
      have hidx := leaf_index_le hps ho hax hlt
      omega
    | @inner i _ id v l q hp hl hr =>
      rw [hp] at hfound
      cases hfound
      have hhalf : (j + 1) * (ps * 2 ^ (i + 1)) = (2 * j + 1 + 1) * (ps * 2 ^ i) := by
        rw [span_succ]
        ring
      have hmul : (2 * j + 1) * (ps * 2 ^ i) ≤ (2 * j + 1 + 1) * (ps * 2 ^ i) :=
        Nat.mul_le_mul_right _ (Nat.le_succ _)
      intro req hreq
      rw [nodeRequests, if_neg Bool.false_ne_true, List.mem_append] at hreq
      rcases hreq with hreq | hreq
      · exact onWay_child hps hab hb ho hs hl (by omega) req hreq
      · exact onWay_child hps hab hb ho hs hr (by omega) req hreq

include hz hps hab hb ho hs in
theorem WalkInv.step {r r' : Reader} {e : Dht × Nat} (h : WalkInv dht ps m a b r)
    (hle : AnsweredFrom dht r e) (hstep : r.step range ps e = some r') : WalkInv dht ps m a b r' := by
  obtain ⟨req, hreq, rfl⟩ := Reader.step_eq hstep
  obtain ⟨hlen, new, hpending, hnew⟩ := Reader.answer_pending hreq e.1 range ps
  refine ⟨hlen.trans h.length, fun req' hreq' => ?_⟩
  rw [hpending, List.mem_append] at hreq'
  rcases hreq' with hold | hreq'
  · exact h.onWay _ (List.mem_of_mem_eraseIdx hold)
  · rcases hnew with rfl | ⟨key, offset, node, rfl, hnode, rfl⟩
    · cases hreq'
    · have hway := h.onWay _ (List.mem_of_getElem? hreq)
      exact hway.requests hz hps hab hb ho hs hle hnode _ hreq'

include hz hps hab hb ho hs in
/-- Every leaf that a walk asks for has its place among the leaves of the range. -/
theorem walk_leaf_lt {root : Root} {M : Nat} (hd : Denotes dht ps m M 0 root.node)
    (hroot : root.pageSize = ps) (hM : ps * 2 ^ M < 2 ^ 64) (hbM : b < 2 ^ M) {r : Reader}
    (h : Walk dht range root (b + 1 - a) r) :
    r.leaves.length = b + 1 - a ∧
      ∀ key index, ReadRequest.leaf key index ∈ r.pending → index < r.leaves.length := by
  subst hroot
  obtain ⟨as, hrun⟩ := h
  have htouch : Touches a b M 0 := by
    refine ⟨?_, Nat.zero_le _⟩
    rw [Nat.div_eq_of_lt (by omega)]
  have hstart : WalkInv dht root.pageSize m a b (Reader.start root (b + 1 - a)) := by
    refine ⟨List.length_replicate, fun req hreq => ?_⟩
    rw [Reader.start, List.mem_singleton] at hreq
    subst hreq
    have hway : OnWay dht root.pageSize m a b _ := .node hd htouch (by omega)
    rw [Nat.zero_mul] at hway
    exact hway
  have hinv : WalkInv dht root.pageSize m a b r :=
    hrun.inv (fun h hok hstep => h.step hz hps hab hb ho hs hok hstep) hstart
  refine ⟨hinv.length, fun key index hmem => ?_⟩
  rw [hinv.length]
  cases hinv.onWay _ hmem with
  | leaf hlt => exact hlt

end pages

/-! ## An empty range at the start of a page -/

section point

variable {dht : Dht} {ps : Nat} {m : PageMap} {a : Nat} {range : Query} (hps : 0 < ps)
  (ho : range.offset = a * ps) (hs : range.size = 0)

include hps ho hs in
/-- The block that holds the first byte of the page intersects the empty range. -/
theorem nodeAt_intersects_point_iff {id version i j : Nat} (hend : (j + 1) * (ps * 2 ^ i) < 2 ^ 64) :
    (nodeAt id version ps i j).intersects range = true ↔ a / 2 ^ i = j := by
  have hsum : j * (ps * 2 ^ i) + ps * 2 ^ i = (j + 1) * (ps * 2 ^ i) := (Nat.succ_mul _ _).symm
  have hle : j * (ps * 2 ^ i) ≤ a * ps ↔ j ≤ a / 2 ^ i := by
    have hmul : j * (ps * 2 ^ i) = j * 2 ^ i * ps := by ring
    rw [hmul, Nat.mul_le_mul_right_iff hps, Nat.le_div_iff_mul_le (Nat.two_pow_pos i)]
  have hlt := lt_block_iff (u := ps) (i := i) (j := j) (a := a) hps
  have hmod : u64 (a * ps) ≤ a * ps := Nat.mod_le _ _
  simp only [Query.intersects, nodeAt, ho, hs, hsum, u64_of_lt hend, Nat.add_zero]
  split
  · rw [decide_eq_true_eq]
    omega
  · rw [decide_eq_true_eq]
    omega

include hps ho hs in
theorem Denotes.intersects_point {i j : Nat} {p : Query} (hd : Denotes dht ps m i j p)
    (hend : (j + 1) * (ps * 2 ^ i) < 2 ^ 64) (h : p.intersects range = true) : a / 2 ^ i = j := by
  cases hd with
  | hole hp _ =>
    rcases hp with rfl | ⟨v, rfl⟩
    · rw [Query.not_intersects_of_size_zero rfl rfl] at h
      cases h
    · exact (nodeAt_intersects_point_iff hps ho hs hend).mp h
  | leaf _ _ _ => exact (nodeAt_intersects_point_iff hps ho hs hend).mp h
  | inner _ _ _ => exact (nodeAt_intersects_point_iff hps ho hs hend).mp h

include hps ho hs in
/-- The get that a child of an inner node adds to the queue, when the page is written. -/
theorem point_child (ha : m a ≠ none) {i j : Nat} {p : Query} (hd : Denotes dht ps m i j p)
    (hend : (j + 1) * (ps * 2 ^ i) < 2 ^ 64) :
    (if p.intersects range then [ReadRequest.node p p.offset] else []) =
      if a / 2 ^ i = j then [.node p (j * (ps * 2 ^ i))] else [] := by
  by_cases hj : a / 2 ^ i = j
  · have hnode : ∀ id v, p = nodeAt id v ps i j →
        (if p.intersects range then [ReadRequest.node p p.offset] else []) =
          [.node p (j * (ps * 2 ^ i))] := by
      rintro id v rfl
      exact if_pos ((nodeAt_intersects_point_iff hps ho hs hend).mpr hj)
    rw [if_pos hj]
    cases hd with
    | hole _ hm => exact absurd (hm a hj) ha
    | leaf _ _ _ => exact hnode _ _ rfl
    | inner _ _ _ => exact hnode _ _ rfl
  · rw [if_neg hj]
    apply if_neg
    intro hint
    exact hj (hd.intersects_point hps ho hs hend hint)

include hps ho hs in
/-- The walk goes down to the page and asks for its leaf. -/
theorem Denotes.walk_down (ha : m a ≠ none) {i j : Nat} {key : Query}
    (hd : Denotes dht ps m i j key) (hj : a / 2 ^ i = j) (hend : (j + 1) * (ps * 2 ^ i) < 2 ^ 64)
    {r : Reader} (hr : r.result = true) (hpending : r.pending = [.node key (j * (ps * 2 ^ i))]) :
    ∃ as r' key' index, Run (Reader.step range ps) (AnsweredFrom dht) r as r' ∧
      ReadRequest.leaf key' index ∈ r'.pending ∧ r'.leaves = r.leaves := by
  induction hd generalizing r with
  | hole _ hm => exact absurd (hm a hj) ha
  | @leaf j id v page l hp hk hm =>
    have hstep := Reader.step_single hr hpending hp range ps
    rw [nodeRequests, if_pos rfl] at hstep
    exact ⟨_, _, _, _, .single (DhtLe.refl dht) hstep, List.mem_singleton_self _, rfl⟩
  | @inner i j id v l q hp hl hq ihl ihq =>
    have hhalf : (j + 1) * (ps * 2 ^ (i + 1)) = (2 * j + 1 + 1) * (ps * 2 ^ i) := by
      rw [span_succ]
      ring
    have hmul : (2 * j + 1) * (ps * 2 ^ i) ≤ (2 * j + 1 + 1) * (ps * 2 ^ i) :=
      Nat.mul_le_mul_right _ (Nat.le_succ _)
    have hstep := Reader.step_single hr hpending hp range ps
    rw [nodeRequests, if_neg Bool.false_ne_true, point_child hps ho hs ha hl (by omega),
      point_child hps ho hs ha hq (by omega)] at hstep
    rw [div_two_pow_succ] at hj
    rcases Nat.mod_two_eq_zero_or_one (a / 2 ^ i) with h2 | h2
    · have hdown : a / 2 ^ i = 2 * j := by omega
      rw [if_pos hdown, if_neg (by omega), List.append_nil] at hstep
      obtain ⟨as, r', key', index, hrun, hleaf, hleaves⟩ :=
        ihl hdown (by omega) (r := { r with pending := [_] }) hr rfl
      exact ⟨_, r', key', index, .cons (DhtLe.refl dht) hstep hrun, hleaf, hleaves⟩
    · have hdown : a / 2 ^ i = 2 * j + 1 := by omega
      rw [if_neg (by omega), if_pos hdown, List.nil_append] at hstep
      obtain ⟨as, r', key', index, hrun, hleaf, hleaves⟩ :=
        ihq hdown (by omega) (r := { r with pending := [_] }) hr rfl
      exact ⟨_, r', key', index, .cons (DhtLe.refl dht) hstep hrun, hleaf, hleaves⟩

include hps ho hs in
/-- Behind the last page the root of a tree of more than one level asks for nothing. -/
theorem Denotes.requests_end {M : Nat} (ha : a = 2 ^ (M + 1)) (hM : ps * 2 ^ (M + 1) < 2 ^ 64)
    (hz : NoZero dht) {key : Query} (hd : Denotes dht ps m (M + 1) 0 key) {node : DhtNode}
    (hnode : dht key = some (.node node)) (offset : Nat) : nodeRequests range ps offset node = [] := by
  have hdouble : ps * 2 ^ (M + 1) = 2 * (ps * 2 ^ M) := span_succ ps M
  have hdiv : a / 2 ^ M = 2 := by
    rw [ha, Nat.pow_succ, Nat.mul_div_cancel_left _ (Nat.two_pow_pos M)]
  cases hd with
  | hole hp _ =>
    rw [hz key hp.id_eq] at hnode
    cases hnode
  | @inner _ _ id v l q hp hl hq =>
    rw [hp] at hnode
    cases hnode
    have hleft : ¬ l.intersects range = true := by
      intro hint
      have h := hl.intersects_point hps ho hs (by omega) hint
      omega
    have hright : ¬ q.intersects range = true := by
      intro hint
      have h := hq.intersects_point hps ho hs (by omega) hint
      omega
    rw [nodeRequests, if_neg Bool.false_ne_true, if_neg hleft, if_neg hright]
    rfl

end point

/-! ## Walks that end at the root -/

/-- When the root asks for nothing, no leaf is asked for. -/
theorem walk_root_only {dht : Dht} {range : Query} {root : Root} {count : Nat}
    (hroot : ∀ node, dht root.node = some (.node node) → nodeRequests range root.pageSize 0 node = [])
    {r : Reader} (h : Walk dht range root count r) :
    r.leaves.length = count ∧ (r.pending = [.node root.node 0] ∨ r.pending = []) := by
  obtain ⟨as, hrun⟩ := h
  refine Run.inv (P := fun r : Reader => r.leaves.length = count ∧
    (r.pending = [.node root.node 0] ∨ r.pending = [])) ?_ hrun ⟨List.length_replicate, .inl rfl⟩
  rintro s t e ⟨hcount, hpending | hpending⟩ hle hstep
  · have hreq : s.pending[0]? = some (.node root.node 0) := by
      rw [hpending]
      rfl
    obtain ⟨hlen, new, hnext, hnew⟩ := Reader.answer_pending hreq e.1 range root.pageSize
    rw [Reader.step_single_eq hpending hstep, hpending] at hnext
    rw [Reader.step_single_eq hpending hstep] at hlen
    refine ⟨hlen.trans hcount, .inr (hnext.trans ?_)⟩
    rcases hnew with rfl | ⟨key, offset, node, heq, hnode, rfl⟩
    · rfl
    · cases heq
      rw [hroot node (hle _ _ hnode)]
      rfl
  · exact absurd hstep (Reader.step_nil hpending)

/-- A walk fails when the root is not in the DHT. -/
theorem walk_no_root {dht : Dht} {range : Query} {root : Root} {count : Nat}
    (hroot : dht root.node = none) {r : Reader} (h : Walk dht range root count r) :
    r.pending = [.node root.node 0] ∨ r.result = false := by
  obtain ⟨as, hrun⟩ := h
  have hinv : r.pending = [.node root.node 0] ∨ r.result = false ∧ r.pending = [] := by
    refine Run.inv (P := fun r : Reader => r.pending = [.node root.node 0] ∨
      r.result = false ∧ r.pending = []) ?_ hrun (.inl rfl)
    rintro s t e (hpending | ⟨-, hpending⟩) hle hstep
    · have hnone : e.1 root.node = none := by
        by_contra hne
        obtain ⟨v, hv⟩ := Option.ne_none_iff_exists'.mp hne
        have hsome := hle _ _ hv
        rw [hroot] at hsome
        cases hsome
      right
      rw [← Reader.step_single_eq hpending hstep]
      simp only [Reader.answer, hpending, List.getElem?_cons_zero, Reader.readCallback, hnone,
        readNode, List.eraseIdx_cons_zero]
      split
      · exact ⟨rfl, rfl⟩
      · next hres => exact ⟨Bool.eq_false_iff.mpr hres, rfl⟩
    · exact absurd hstep (Reader.step_nil hpending)
  exact hinv.imp id And.left

end BlobSeer
