import BlobSeer.RangeQuery.Tree
import Mathlib.Data.List.Perm.Basic

/-!
# What a read returns

`readRecordLocations` answers its queued gets in any order, while other clients put into the DHT.
On a tree that stands for a page map, and for a range of pages that are all written, it ends, it
returns `true`, and its leaves are the pages of the map (`readRecordLocations_eq`).

The invariant: every queued get is on the way to a page of the range (`Good`), and every page of
the range is in the leaves or has a queued get that leads to it (`Covers`). Each answer lowers the
sum of the `weight`s, since a block weighs more than its two halves.
-/

namespace BlobSeer

open Lib

/-- The queued get leads to page `x`. -/
def Covers (ps a : Nat) : ReadRequest → Nat → Prop
  | .node key _, x => key.offset < (x + 1) * ps ∧ x * ps < key.offset + key.size
  | .leaf _ index, x => index = x - a

theorem covers_nodeAt {id version ps i j a x offset : Nat} (hps : 0 < ps) :
    Covers ps a (.node (nodeAt id version ps i j) offset) x ↔ x / 2 ^ i = j := by
  have hend : j * (ps * 2 ^ i) + ps * 2 ^ i = (j + 1) * (ps * 2 ^ i) := by
    rw [Nat.add_mul, Nat.one_mul]
  simp only [Covers, nodeAt, hend, block_lt_iff hps, lt_block_iff hps]
  omega

def ReadRequest.weight : ReadRequest → Nat
  | .node key _ => 3 * key.size - 1
  | .leaf _ _ => 1

def Reader.weight (r : Reader) : Nat := (r.pending.map ReadRequest.weight).sum

/-! ## What an answer does -/

/-- What `read_callback` asks for after it has found `node`. -/
def nodeRequests (range : Query) (ps offset : Nat) (node : DhtNode) : List ReadRequest :=
  if node.isLeaf then [.leaf node.left (u32 (sub64 offset range.offset / ps))]
  else
    (if node.left.intersects range then [.node node.left node.left.offset] else []) ++
      (if node.right.intersects range then [.node node.right node.right.offset] else [])

section answer

variable {r : Reader} {k : Nat} {key : Query} {dht : Dht} {range : Query} {ps : Nat}

theorem Reader.answer_node {offset : Nat} {node : DhtNode} (hr : r.result = true)
    (hreq : r.pending[k]? = some (.node key offset)) (hnode : dht key = some (.node node)) :
    r.answer dht range ps k =
      { r with pending := r.pending.eraseIdx k ++ nodeRequests range ps offset node } := by
  simp only [Reader.answer, hreq, Reader.readCallback, hr, if_true, hnode, readNode, nodeRequests]
  split
  · rfl
  · rw [List.append_assoc]

theorem Reader.answer_leaf {index : Nat} {l : List ProviderDesc} (hr : r.result = true)
    (hreq : r.pending[k]? = some (.leaf key index)) (hval : dht key = some (.providers l)) :
    r.answer dht range ps k =
      { r with pending := r.pending.eraseIdx k, leaves := r.leaves.set index ⟨key, l⟩ } := by
  simp only [Reader.answer, hreq, Reader.leafCallback, hr, if_true, hval]

end answer

section read

variable (d0 : Dht) (ps : Nat) (m : PageMap) (a b : Nat)

/-- A queued get on the way to a page of the range. -/
inductive Good : ReadRequest → Prop
  | node {i j : Nat} {key : Query} (hd : Denotes d0 ps m i j key) (ht : Touches a b i j)
      (hend : (j + 1) * (ps * 2 ^ i) < 2 ^ 64) : Good (.node key (j * (ps * 2 ^ i)))
  | leaf {x : Nat} {key : Query} {l : List ProviderDesc} (hax : a ≤ x) (hxb : x ≤ b)
      (hk : d0 key = some (.providers l)) (hm : m x = some ⟨key, l⟩) : Good (.leaf key (x - a))

structure ReadInv (r : Reader) : Prop where
  result : r.result = true
  length : r.leaves.length = b + 1 - a
  good : ∀ req ∈ r.pending, Good d0 ps m a b req
  served : ∀ x, a ≤ x → x ≤ b →
    r.leaves[x - a]? = some ((m x).getD {}) ∨ ∃ req ∈ r.pending, Covers ps a req x

variable {d0 ps m a b} (hps : 0 < ps) (hab : a ≤ b) (hb : (b + 1) * ps < 2 ^ 64)
  (hn : b - a < 2 ^ 32) (hw : ∀ x, a ≤ x → x ≤ b → m x ≠ none) {range : Query}
  (ho : range.offset = a * ps) (hs : range.size = (b + 1 - a) * ps)

include hab hw in
/-- A touched block holds a written page. -/
theorem touched_not_empty {i j : Nat} (ht : Touches a b i j)
    (hm : ∀ x, x / 2 ^ i = j → m x = none) : False := by
  obtain ⟨x, hax, hxb, hx⟩ := ht.exists_mem hab
  exact hw x hax hxb (hm x hx)

include hab hw in
theorem Denotes.eq_nodeAt {i j : Nat} {p : Query} (hd : Denotes d0 ps m i j p)
    (ht : Touches a b i j) : ∃ id v, p = nodeAt id v ps i j := by
  cases hd with
  | hole _ hm => exact (touched_not_empty hab hw ht hm).elim
  | leaf _ _ _ => exact ⟨_, _, rfl⟩
  | inner _ _ _ => exact ⟨_, _, rfl⟩

include hps hab hb hw ho hs in
/-- The reader descends into a child exactly when the range touches its block. -/
theorem Denotes.intersects_iff {i j : Nat} {p : Query} (hd : Denotes d0 ps m i j p)
    (hend : (j + 1) * (ps * 2 ^ i) < 2 ^ 64) : p.intersects range = true ↔ Touches a b i j := by
  cases hd with
  | hole hp hm =>
    rcases hp with rfl | ⟨v, rfl⟩
    · rw [Query.not_intersects_of_size_zero rfl rfl]
      exact ⟨fun h => (by cases h), fun ht => (touched_not_empty hab hw ht hm).elim⟩
    · exact nodeAt_intersects_iff hps hab ho hs hend hb
  | leaf _ _ _ => exact nodeAt_intersects_iff hps hab ho hs hend hb
  | inner _ _ _ => exact nodeAt_intersects_iff hps hab ho hs hend hb

/-! ## One answer -/

include hps hab hb hw ho hs in
/-- The gets that one child of an inner node adds to the queue. -/
theorem child_requests {i j : Nat} {p : Query} (hd : Denotes d0 ps m i j p)
    (hend : (j + 1) * (ps * 2 ^ i) < 2 ^ 64) :
    ∃ reqs : List ReadRequest,
      (if p.intersects range then [.node p p.offset] else []) = reqs ∧
      (∀ req ∈ reqs, Good d0 ps m a b req) ∧
      (∀ x, a ≤ x → x ≤ b → x / 2 ^ i = j → ∃ req ∈ reqs, Covers ps a req x) ∧
      (reqs.map ReadRequest.weight).sum ≤ 3 * (ps * 2 ^ i) - 1 := by
  have hiff := Denotes.intersects_iff hps hab hb hw ho hs hd hend
  by_cases ht : Touches a b i j
  · obtain ⟨id, v, rfl⟩ := hd.eq_nodeAt hab hw ht
    refine ⟨_, if_pos (hiff.2 ht), ?_, ?_, ?_⟩
    · intro req hreq
      rw [List.mem_singleton] at hreq
      subst hreq
      exact .node hd ht hend
    · intro x _ _ hx
      exact ⟨_, List.mem_singleton_self _, (covers_nodeAt hps).2 hx⟩
    · simp [ReadRequest.weight, nodeAt]
  · refine ⟨_, if_neg fun h => ht (hiff.1 h), by simp, ?_, by simp⟩
    intro x hax hxb hx
    exact absurd (hx ▸ touches_of_mem i hax hxb) ht

include hps hn ho in
/-- The leaf index that `read_callback` computes from the offset of a leaf. -/
theorem leaf_index {x : Nat} (hax : a ≤ x) (hxb : x ≤ b) (hx : x * ps < 2 ^ 64) :
    u32 (sub64 (x * ps) range.offset / ps) = x - a := by
  rw [ho, sub64_of_le (Nat.mul_le_mul_right _ hax) hx, ← Nat.sub_mul, Nat.mul_div_cancel _ hps]
  exact u32_of_lt (by omega)

/-- A page is served, or led to by the get answered now, or by one of the others. -/
theorem ReadInv.served_cases {r : Reader} (h : ReadInv d0 ps m a b r) {k : Nat} {req : ReadRequest}
    (hreq : r.pending[k]? = some req) {x : Nat} (hax : a ≤ x) (hxb : x ≤ b) :
    r.leaves[x - a]? = some ((m x).getD {}) ∨ Covers ps a req x ∨
      ∃ req ∈ r.pending.eraseIdx k, Covers ps a req x := by
  obtain ⟨hk, rfl⟩ := List.getElem?_eq_some_iff.1 hreq
  rcases h.served x hax hxb with hx | ⟨req, hmem, hx⟩
  · exact .inl hx
  · rcases List.mem_cons.1 ((List.getElem_cons_eraseIdx_perm hk).mem_iff.2 hmem) with rfl | hmem
    · exact .inr (.inl hx)
    · exact .inr (.inr ⟨req, hmem, hx⟩)

theorem Reader.weight_eq {r : Reader} {k : Nat} {req : ReadRequest}
    (hreq : r.pending[k]? = some req) :
    r.weight = req.weight + ((r.pending.eraseIdx k).map ReadRequest.weight).sum := by
  obtain ⟨hk, rfl⟩ := List.getElem?_eq_some_iff.1 hreq
  rw [Reader.weight, ← ((List.getElem_cons_eraseIdx_perm hk).map _).sum_nat, List.map_cons,
    List.sum_cons]

/-- A get that is replaced by others which lead to the same pages and weigh less. -/
theorem ReadInv.replace {r : Reader} (h : ReadInv d0 ps m a b r) {k : Nat} {req : ReadRequest}
    (hreq : r.pending[k]? = some req) {new : List ReadRequest}
    (hgood : ∀ req ∈ new, Good d0 ps m a b req)
    (hcovers : ∀ x, a ≤ x → x ≤ b → Covers ps a req x → ∃ req ∈ new, Covers ps a req x)
    (hweight : (new.map ReadRequest.weight).sum < req.weight) :
    ReadInv d0 ps m a b { r with pending := r.pending.eraseIdx k ++ new } ∧
      Reader.weight { r with pending := r.pending.eraseIdx k ++ new } < r.weight := by
  refine ⟨⟨h.result, h.length, fun req' hmem => ?_, fun x hax hxb => ?_⟩, ?_⟩
  · rcases List.mem_append.1 hmem with hmem | hmem
    · exact h.good _ (List.mem_of_mem_eraseIdx hmem)
    · exact hgood _ hmem
  · rcases h.served_cases hreq hax hxb with hx | hx | ⟨req', hmem, hx⟩
    · exact .inl hx
    · obtain ⟨req', hmem, hx⟩ := hcovers x hax hxb hx
      exact .inr ⟨req', List.mem_append_right _ hmem, hx⟩
    · exact .inr ⟨req', List.mem_append_left _ hmem, hx⟩
  · rw [Reader.weight_eq hreq, Reader.weight, List.map_append, List.sum_append]
    omega

include hps hab hb hn hw ho hs in
/-- The gets that a good node leads to. -/
theorem Good.requests {key : Query} {offset : Nat} (h : Good d0 ps m a b (.node key offset)) :
    ∃ node, d0 key = some (.node node) ∧
      (∀ req ∈ nodeRequests range ps offset node, Good d0 ps m a b req) ∧
      (∀ x, a ≤ x → x ≤ b → Covers ps a (.node key offset) x →
        ∃ req ∈ nodeRequests range ps offset node, Covers ps a req x) ∧
      ((nodeRequests range ps offset node).map ReadRequest.weight).sum <
        (ReadRequest.node key offset).weight := by
  cases h with
  | @node i j _ hd ht hend =>
    cases hd with
    | hole _ hm => exact (touched_not_empty hab hw ht hm).elim
    | @leaf j id v page l hp hkey hm =>
      obtain ⟨x, hax, hxb, hx⟩ := ht.exists_mem hab
      rw [Nat.pow_zero, Nat.div_one] at hx
      subst hx
      have hidx := leaf_index (x := x) hps hn ho hax hxb (by
        rw [Nat.add_mul, Nat.pow_zero, Nat.mul_one] at hend
        omega)
      refine ⟨_, hp, ?_⟩
      rw [nodeRequests, if_pos rfl, Nat.pow_zero, Nat.mul_one, hidx]
      refine ⟨fun req hreq => ?_, fun y hay hyb hy => ?_, ?_⟩
      · rw [List.mem_singleton] at hreq
        subst hreq
        exact .leaf hax hxb hkey hm
      · have hcovers : y / 2 ^ 0 = x := (covers_nodeAt hps).1 hy
        rw [Nat.pow_zero, Nat.div_one] at hcovers
        subst hcovers
        exact ⟨_, List.mem_singleton_self _, rfl⟩
      · simp only [ReadRequest.weight, List.map_cons, List.map_nil, List.sum_cons, List.sum_nil,
          nodeAt]
        omega
    | @inner i j id v l q hp hl hr =>
      have hhalf : (j + 1) * (ps * 2 ^ (i + 1)) = (2 * j + 1 + 1) * (ps * 2 ^ i) := by
        rw [span_succ]
        ring
      have hmul : (2 * j + 1) * (ps * 2 ^ i) ≤ (2 * j + 1 + 1) * (ps * 2 ^ i) :=
        Nat.mul_le_mul_right _ (by omega)
      have hpos : 0 < ps * 2 ^ i := Nat.mul_pos hps (Nat.two_pow_pos i)
      obtain ⟨ls, hls, hlg, hlc, hlw⟩ := child_requests hps hab hb hw ho hs hl (by omega)
      obtain ⟨rs, hrs, hrg, hrc, hrw⟩ := child_requests hps hab hb hw ho hs hr (by omega)
      refine ⟨_, hp, ?_⟩
      rw [nodeRequests, if_neg Bool.false_ne_true, hls, hrs]
      refine ⟨fun req hreq => ?_, fun y hay hyb hy => ?_, ?_⟩
      · rcases List.mem_append.1 hreq with hreq | hreq
        · exact hlg req hreq
        · exact hrg req hreq
      · rw [covers_nodeAt hps, div_two_pow_succ] at hy
        rcases Nat.mod_two_eq_zero_or_one (y / 2 ^ i) with h2 | h2
        · obtain ⟨req, hreq, hc⟩ := hlc y hay hyb (by omega)
          exact ⟨req, List.mem_append_left _ hreq, hc⟩
        · obtain ⟨req, hreq, hc⟩ := hrc y hay hyb (by omega)
          exact ⟨req, List.mem_append_right _ hreq, hc⟩
      · have hparent : ReadRequest.weight (.node (nodeAt id v ps (i + 1) j)
            (j * (ps * 2 ^ (i + 1)))) = 3 * (2 * (ps * 2 ^ i)) - 1 := by
          simp only [ReadRequest.weight, nodeAt, span_succ]
        rw [hparent, List.map_append, List.sum_append]
        omega

/-- A page whose providers have been found. -/
theorem ReadInv.serve {r : Reader} (h : ReadInv d0 ps m a b r) {k x : Nat} {key : Query}
    {l : List ProviderDesc} (hreq : r.pending[k]? = some (.leaf key (x - a))) (hax : a ≤ x)
    (hxb : x ≤ b) (hm : m x = some ⟨key, l⟩) :
    ReadInv d0 ps m a b
      { r with pending := r.pending.eraseIdx k, leaves := r.leaves.set (x - a) ⟨key, l⟩ } := by
  have hplace : (r.leaves.set (x - a) ⟨key, l⟩)[x - a]? = some ((m x).getD {}) := by
    rw [List.getElem?_set_self (by rw [h.length]; omega), hm]
    rfl
  refine ⟨h.result, List.length_set.trans h.length,
    fun req hmem => h.good _ (List.mem_of_mem_eraseIdx hmem), fun y hay hyb => ?_⟩
  by_cases hxy : x = y
  · subst hxy
    exact .inl hplace
  · rcases h.served_cases hreq hay hyb with hy | hy | hy
    · refine .inl ?_
      rw [List.getElem?_set_ne (by omega)]
      exact hy
    · simp only [Covers] at hy
      omega
    · exact .inr hy

include hps hab hb hn hw ho hs in
/-- One answer keeps the invariant and lowers the weight. -/
theorem ReadInv.answer {r : Reader} (h : ReadInv d0 ps m a b r) {dht : Dht} (hle : DhtLe d0 dht)
    {k : Nat} (hk : k < r.pending.length) :
    ReadInv d0 ps m a b (r.answer dht range ps k) ∧
      (r.answer dht range ps k).weight < r.weight := by
  obtain ⟨req, hreq⟩ : ∃ req, r.pending[k]? = some req := ⟨_, List.getElem?_eq_getElem hk⟩
  have hgood := h.good req (List.mem_of_getElem? hreq)
  cases req with
  | node key offset =>
    obtain ⟨node, hnode, hnew, hcovers, hweight⟩ := hgood.requests hps hab hb hn hw ho hs
    rw [Reader.answer_node h.result hreq (hle _ _ hnode)]
    exact h.replace hreq hnew hcovers hweight
  | leaf key index =>
    cases hgood with
    | leaf hax hxb hval hm =>
      rw [Reader.answer_leaf h.result hreq (hle _ _ hval), Reader.weight_eq hreq]
      exact ⟨h.serve hreq hax hxb hm, Nat.lt_add_of_pos_left Nat.one_pos⟩

/-! ## The whole read -/

include hps hab hb hn hw ho hs in
theorem ReadInv.wait {dhts : Nat → Dht} (hle : ∀ n, DhtLe d0 (dhts n)) (sched : Nat → Nat) :
    ∀ (fuel : Nat) {n : Nat} {r : Reader}, ReadInv d0 ps m a b r → r.weight ≤ fuel →
      ∃ r', Reader.wait dhts sched range ps fuel n r = some r' ∧ ReadInv d0 ps m a b r' ∧
        r'.pending = []
  | 0, n, r, h, hf => by
    have hempty : r.pending = [] := by
      by_contra hne
      have hpos := List.length_pos_of_ne_nil hne
      have := (h.answer hps hab hb hn hw ho hs (DhtLe.refl d0) hpos).2
      omega
    exact ⟨r, by simp [Reader.wait, hempty], h, hempty⟩
  | fuel + 1, n, r, h, hf => by
    by_cases hempty : r.pending = []
    · exact ⟨r, by simp [Reader.wait, hempty], h, hempty⟩
    · have hpos := List.length_pos_of_ne_nil hempty
      have hk : sched n % r.pending.length < r.pending.length := Nat.mod_lt _ hpos
      obtain ⟨h', hlt⟩ := h.answer hps hab hb hn hw ho hs (hle n) hk
      obtain ⟨r', hr', hinv, hp⟩ := ReadInv.wait hle sched fuel (n := n + 1) h' (by omega)
      refine ⟨r', ?_, hinv, hp⟩
      unfold Reader.wait
      rw [if_neg (by simpa using hempty)]
      exact hr'

include hps hab hb hn hw ho hs in
/-- A read of written pages returns what the tree stands for, in whatever order its gets are
answered and whatever is put meanwhile. -/
theorem readRecordLocations_eq {dhts : Nat → Dht} (hle : ∀ n, DhtLe d0 (dhts n))
    (sched : Nat → Nat) {root : Root} {M : Nat} (hd : Denotes d0 ps m M 0 root.node)
    (hroot : root.pageSize = ps) (hM : ps * 2 ^ M < 2 ^ 64) (hbM : b < 2 ^ M) :
    ∃ fuel0, ∀ fuel, fuel0 ≤ fuel →
      readRecordLocations dhts sched fuel (b + 1 - a) range root =
        some (true, (List.range' a (b + 1 - a)).map fun x => (m x).getD {}) := by
  have ht : Touches a b M 0 := by
    refine ⟨?_, Nat.zero_le _⟩
    rw [Nat.div_eq_of_lt (by omega)]
  obtain ⟨id, v, hnode⟩ := hd.eq_nodeAt hab hw ht
  have hinit : ReadInv d0 ps m a b
      { leaves := List.replicate (b + 1 - a) {}, pending := [.node root.node 0] } := by
    refine ⟨rfl, by simp, ?_, ?_⟩
    · intro req hreq
      simp only [List.mem_singleton] at hreq
      subst hreq
      have hg : Good d0 ps m a b _ := .node hd ht (by simpa using hM)
      rwa [Nat.zero_mul] at hg
    · intro x _ hxb
      refine .inr ⟨_, List.mem_singleton_self _, ?_⟩
      rw [hnode, covers_nodeAt hps]
      exact Nat.div_eq_of_lt (by omega)
  refine ⟨Reader.weight { leaves := List.replicate (b + 1 - a) {}, pending := [.node root.node 0] },
    fun fuel hfuel => ?_⟩
  obtain ⟨r', hr', hinv, hp⟩ := ReadInv.wait hps hab hb hn hw ho hs hle sched fuel (n := 0) hinit hfuel
  unfold readRecordLocations
  rw [hroot, hr', Option.map_some, hinv.result]
  refine congrArg (fun l => some (true, l)) (List.ext_getElem? fun i => ?_)
  rcases Nat.lt_or_ge i (b + 1 - a) with hi | hi
  · rcases hinv.served (a + i) (by omega) (by omega) with hx | ⟨req, hreq, -⟩
    · rw [show a + i - a = i by omega] at hx
      rw [hx, List.getElem?_map, List.getElem?_range' hi]
      simp
    · rw [hp] at hreq
      cases hreq
  · rw [List.getElem?_eq_none (by rw [hinv.length]; exact hi),
      List.getElem?_eq_none (by simpa using hi)]

end read

end BlobSeer
