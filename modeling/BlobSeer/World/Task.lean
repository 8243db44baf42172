import BlobSeer.Lib.Overlay
import BlobSeer.RangeQuery.Siblings
import BlobSeer.World.Basic
import Mathlib.Data.List.Perm.Basic

/-!
# One write, from its ticket to its last put

In terms of pages a ticket is a range `first..final`, a tree of `levels` levels and a new page key
for every page (`Ticket.write`). `Shape` says that the numbers of the reply are those of whole
pages in a tree that fits into 64 bits. `WriterInv` is the invariant of `writeRecordLocations`:
which entries are already in the DHT, which are still queued, and what the sibling lists hold; it
is kept by every step of the writer, and by everything that other clients put.
-/

namespace BlobSeer

open Lib

namespace Ticket

def pageSize (K : Ticket) : Nat := K.reply.stableRoot.pageSize

/-- The first page of the write. -/
def first (K : Ticket) : Nat := K.query.offset / K.pageSize

/-- The last page of the write. -/
def final (K : Ticket) : Nat := K.query.last / K.pageSize - 1

/-- The level of the root of the new tree. -/
def levels (K : Ticket) : Nat := Nat.log2 (K.reply.rootSize / K.pageSize)

/-- The key under which `exec_write` stored a page. -/
def pageKey (K : Ticket) (x : Nat) : Query :=
  ⟨K.query.id, K.pageVersion, x - K.first, K.pageSize⟩

/-- A page as the reader finds it: its key and its replicas. -/
def page (K : Ticket) (x : Nat) : RandomSelect :=
  ⟨K.pageKey x, replicas K.reply.stableRoot.replicaCount K.adv (x - K.first)⟩

/-- The version of the stable root in the reply. -/
def stableVersion (K : Ticket) : Nat := K.query.version - K.reply.intervals.length

/-- The pages of the stable tree. -/
def stablePages (K : Ticket) : Nat := K.reply.stableRoot.node.size / K.pageSize

/-- The tickets in the reply besides its own. -/
def outstanding (K : Ticket) : IntervalList := K.reply.intervals.erase K.query.version

/-- The write starts at twice the stable tree or later, and no outstanding ticket lies between. -/
def far (K : Ticket) : Bool :=
  decide (K.reply.intervals.length = 1 ∧ 0 < K.stablePages ∧ 2 * K.stablePages ≤ K.first)

/-- What the write does to the page map of its blob. -/
def write (K : Ticket) : Write RandomSelect := ⟨K.first, K.final, K.page, K.far⟩

/-- The node of the write at a block. -/
def node (K : Ticket) (i j : Nat) : Query := nodeAt K.query.id K.query.version K.pageSize i j

/-- The root of the tree that the write builds, as it will be published. -/
def tree (K : Ticket) : Root :=
  { K.reply.stableRoot with node := ⟨K.query.id, K.query.version, 0, K.reply.rootSize⟩ }

/-- A ticket for whole pages, in a tree that fits into 64 bits. -/
structure Shape (K : Ticket) : Prop where
  id_pos : 0 < K.query.id
  version_ne : K.pageVersion ≠ K.query.version
  pageSize_pos : 0 < K.pageSize
  offset : K.query.offset = K.first * K.pageSize
  size : K.query.size = (K.final + 1 - K.first) * K.pageSize
  le : K.first ≤ K.final
  rootSize : K.reply.rootSize = K.pageSize * 2 ^ K.levels
  bound : K.pageSize * 2 ^ K.levels < 2 ^ 64
  final_lt : K.final < 2 ^ K.levels

/-- The numbers of such a ticket, without its id and its page keys. -/
structure Layout (K : Ticket) : Prop where
  pageSize_pos : 0 < K.pageSize
  offset : K.query.offset = K.first * K.pageSize
  size : K.query.size = (K.final + 1 - K.first) * K.pageSize
  le : K.first ≤ K.final
  rootSize : K.reply.rootSize = K.pageSize * 2 ^ K.levels
  bound : K.pageSize * 2 ^ K.levels < 2 ^ 64
  final_lt : K.final < 2 ^ K.levels

theorem Shape.layout {K : Ticket} (hK : K.Shape) : K.Layout := { hK with }

theorem Layout.of_fits {K : Ticket} {m : Nat} (hps : 0 < K.pageSize)
    (ho : K.pageSize ∣ K.query.offset) (hs : K.pageSize ∣ K.query.size) (hpos : 0 < K.query.size)
    (hlast : K.query.last ≤ K.reply.rootSize) (hR : K.reply.rootSize = K.pageSize * 2 ^ m)
    (hlt : K.reply.rootSize < 2 ^ 64) : K.Layout ∧ K.levels = m := by
  obtain ⟨a, ha⟩ := ho
  obtain ⟨n, hn⟩ := hs
  have hn0 : 0 < n := by
    rcases Nat.eq_zero_or_pos n with rfl | h
    · rw [hn, Nat.mul_zero] at hpos
      exact absurd hpos (Nat.lt_irrefl 0)
    · exact h
  have hfirst : K.first = a := by
    rw [first, ha, Nat.mul_div_cancel_left _ hps]
  have hend : K.query.last = K.pageSize * (a + n) := by
    rw [Query.last, ha, hn, Nat.mul_add]
  have hfinal : K.final = a + n - 1 := by
    rw [final, hend, Nat.mul_div_cancel_left _ hps]
  have hlevels : K.levels = m := by
    rw [levels, hR, Nat.mul_div_cancel_left _ hps, Nat.log2_two_pow]
  refine ⟨⟨hps, ?_, ?_, by omega, ?_, ?_, ?_⟩, hlevels⟩
  · rw [ha, hfirst, Nat.mul_comm]
  · rw [hn, hfirst, hfinal, Nat.mul_comm, show a + n - 1 + 1 - a = n by omega]
  · rw [hR, hlevels]
  · rw [hlevels, ← hR]
    exact hlt
  · rw [hend, hR] at hlast
    have := Nat.le_of_mul_le_mul_left hlast hps
    rw [hfinal, hlevels]
    omega

/-! ## The entries of a write -/

/-- The entries put by the first loop: a page key and a leaf for each page. -/
def LeafEntry (K : Ticket) (k : Query) (v : DhtVal) : Prop :=
  ∃ x, K.first ≤ x ∧ x ≤ K.final ∧
    (k = K.pageKey x ∧ v = .providers (K.page x).providers ∨
      k = K.node 0 x ∧ v = .node { isLeaf := true, left := K.pageKey x })

/-- The entries put by the bottom-up loop, from the sibling lists. -/
def InnerEntry (K : Ticket) (left right : List Query) (k : Query) (v : DhtVal) : Prop :=
  ∃ i j, i < K.levels ∧ Touches K.first K.final (i + 1) j ∧ k = K.node (i + 1) j ∧
    v = .node (childNode left right K.query.id K.query.version K.pageSize K.first K.final i j)

theorem LeafEntry.key {K : Ticket} {k : Query} {v : DhtVal} (h : K.LeafEntry k v) :
    k.id = K.query.id ∧ (k.version = K.query.version ∨ k.version = K.pageVersion) := by
  obtain ⟨x, -, -, (⟨rfl, -⟩ | ⟨rfl, -⟩)⟩ := h
  · exact ⟨rfl, .inr rfl⟩
  · exact ⟨rfl, .inl rfl⟩

theorem InnerEntry.key {K : Ticket} {left right : List Query} {k : Query} {v : DhtVal}
    (h : K.InnerEntry left right k v) : k.id = K.query.id ∧ k.version = K.query.version := by
  obtain ⟨i, j, -, -, rfl, -⟩ := h
  exact ⟨rfl, rfl⟩

/-- The keys of one write are different from each other. -/
theorem LeafEntry.unique {K : Ticket} (hK : K.Shape) {k : Query} {v v' : DhtVal}
    (h : K.LeafEntry k v) (h' : K.LeafEntry k v') : v = v' := by
  obtain ⟨x, hx1, -, hx⟩ := h
  obtain ⟨y, hy1, -, hy⟩ := h'
  rcases hx with ⟨hkx, rfl⟩ | ⟨hkx, rfl⟩ <;> rcases hy with ⟨hky, rfl⟩ | ⟨hky, rfl⟩
  · have hxy : x - K.first = y - K.first := congrArg Query.offset (hkx.symm.trans hky)
    have e : x = y := by omega
    rw [e]
  · exact absurd (congrArg Query.version (hkx.symm.trans hky)) hK.version_ne
  · exact absurd (congrArg Query.version (hky.symm.trans hkx)) hK.version_ne
  · have e := (nodeAt_inj hK.pageSize_pos (hkx.symm.trans hky)).2.2.2
    rw [e]

theorem InnerEntry.unique {K : Ticket} (hK : K.Shape) {left right : List Query} {k : Query}
    {v v' : DhtVal} (h : K.InnerEntry left right k v) (h' : K.InnerEntry left right k v') :
    v = v' := by
  obtain ⟨i, j, -, -, hk, rfl⟩ := h
  obtain ⟨i', j', -, -, hk', rfl⟩ := h'
  obtain ⟨-, -, hi, hj⟩ := nodeAt_inj hK.pageSize_pos (hk.symm.trans hk')
  have hi' : i = i' := by omega
  rw [hi', hj]

theorem InnerEntry.not_leaf {K : Ticket} (hK : K.Shape) {left right : List Query} {k : Query}
    {v v' : DhtVal} (h : K.InnerEntry left right k v) (h' : K.LeafEntry k v') : False := by
  obtain ⟨i, j, -, -, hk, -⟩ := h
  obtain ⟨x, -, -, (⟨hx, -⟩ | ⟨hx, -⟩)⟩ := h'
  · exact hK.version_ne (congrArg Query.version (hx.symm.trans hk))
  · have := (nodeAt_inj hK.pageSize_pos (hk.symm.trans hx)).2.2.1
    omega

end Ticket

/-! ## The puts of the two loops -/

theorem mem_leafPuts {query : Query} {rc : Nat} {adv : List ProviderDesc} {e : Query × DhtVal} :
    ∀ {i : Nat} {keys : List Query}, e ∈ leafPuts query rc adv i keys ↔
      ∃ d key, keys[d]? = some key ∧ (e = (key, .providers (replicas rc adv (i + d))) ∨
        e = (leafOf query key, .node { isLeaf := true, left := key }))
  | i, [] => by simp [leafPuts]
  | i, key :: keys => by
    simp only [leafPuts, List.mem_cons, mem_leafPuts (i := i + 1)]
    constructor
    · rintro (h | h | ⟨d, key', hd, h⟩)
      · exact ⟨0, key, rfl, .inl h⟩
      · exact ⟨0, key, rfl, .inr h⟩
      · refine ⟨d + 1, key', hd, ?_⟩
        rwa [show i + (d + 1) = i + 1 + d by omega]
    · rintro ⟨d, key', hd, h⟩
      cases d with
      | zero =>
        rw [List.getElem?_cons_zero, Option.some.injEq] at hd
        subst hd
        rcases h with h | h
        · exact .inl h
        · exact .inr (.inl h)
      | succ d =>
        refine .inr (.inr ⟨d, key', hd, ?_⟩)
        rwa [show i + 1 + d = i + (d + 1) by omega]

namespace Ticket

theorem nodesAt_headD (K : Ticket) (hle : K.first ≤ K.final) :
    (nodesAt K.query.id K.query.version K.pageSize 0 K.first (K.final + 1 - K.first)).headD {} =
      K.node 0 K.first := by
  have e : K.final + 1 - K.first = K.final - K.first + 1 := by omega
  rw [e, nodesAt_succ]
  rfl

theorem nodesAt_getLastD (K : Ticket) (hle : K.first ≤ K.final) :
    (nodesAt K.query.id K.query.version K.pageSize 0 K.first (K.final + 1 - K.first)).getLastD {} =
      K.node 0 K.final := by
  have e : K.final + 1 - K.first = K.final - K.first + 1 := by omega
  rw [e, nodesAt, List.range'_concat, List.map_append, List.getLastD_eq_getLast?]
  simp only [List.map_cons, List.map_nil, List.getLast?_append, List.getLast?_singleton,
    Option.some_or, Option.getD_some, Nat.one_mul, Nat.add_sub_cancel' hle]
  rfl

variable {K : Ticket} (hK : K.Layout)

include hK

theorem Layout.end_lt : (K.final + 1) * K.pageSize < 2 ^ 64 := by
  refine Nat.lt_of_le_of_lt ?_ hK.bound
  rw [Nat.mul_comm K.pageSize]
  exact Nat.mul_le_mul_right _ hK.final_lt

theorem Layout.pageKeys_eq : pageKeys K.query.id K.pageVersion K.pageSize K.query.size =
    (List.range (K.final + 1 - K.first)).map
      fun i => ⟨K.query.id, K.pageVersion, i, K.pageSize⟩ := by
  have hps := hK.pageSize_pos
  unfold pageKeys
  rw [hK.size]
  congr 2
  rw [show (K.final + 1 - K.first) * K.pageSize + K.pageSize - 1 =
    K.pageSize - 1 + (K.final + 1 - K.first) * K.pageSize by omega, Nat.add_mul_div_right _ _ hps,
    Nat.div_eq_of_lt (by omega), Nat.zero_add]

/-- The leaf of the `i`-th page of the write. -/
theorem Layout.leafOf_eq {i : Nat} (hi : i < K.final + 1 - K.first) :
    leafOf K.query ⟨K.query.id, K.pageVersion, i, K.pageSize⟩ = K.node 0 (K.first + i) := by
  have hend := hK.end_lt
  have hle : (K.first + i) * K.pageSize ≤ (K.final + 1) * K.pageSize :=
    Nat.mul_le_mul_right _ (by omega)
  have hsum : (K.first + i) * K.pageSize = K.first * K.pageSize + i * K.pageSize := Nat.add_mul ..
  simp only [leafOf, node, nodeAt, Nat.pow_zero, Nat.mul_one, hK.offset]
  rw [u64_of_lt (show i * K.pageSize < 2 ^ 64 by omega), u64_of_lt (by omega), hsum]

theorem Layout.mem_leafPuts_iff {k : Query} {v : DhtVal} :
    (k, v) ∈ leafPuts K.query K.reply.stableRoot.replicaCount K.adv 0
      (pageKeys K.query.id K.pageVersion K.pageSize K.query.size) ↔ K.LeafEntry k v := by
  rw [mem_leafPuts, hK.pageKeys_eq]
  simp only [Nat.zero_add, Prod.mk.injEq]
  constructor
  · rintro ⟨d, key, hd, h⟩
    rw [List.getElem?_map, Option.map_eq_some_iff] at hd
    obtain ⟨i, hi, rfl⟩ := hd
    obtain ⟨hd, rfl⟩ := List.getElem?_eq_some_iff.1 hi
    rw [List.length_range] at hd
    rw [List.getElem_range] at h
    have hkey : K.pageKey (K.first + d) = ⟨K.query.id, K.pageVersion, d, K.pageSize⟩ := by
      rw [pageKey, Nat.add_sub_cancel_left]
    refine ⟨K.first + d, by omega, by omega, ?_⟩
    rcases h with ⟨rfl, rfl⟩ | ⟨rfl, rfl⟩
    · refine .inl ⟨hkey.symm, ?_⟩
      rw [page, Nat.add_sub_cancel_left]
    · refine .inr ⟨hK.leafOf_eq hd, ?_⟩
      rw [hkey]
  · rintro ⟨x, hx1, hx2, h⟩
    have hlt : x - K.first < K.final + 1 - K.first := by omega
    refine ⟨x - K.first, K.pageKey x, ?_, ?_⟩
    · rw [List.getElem?_map, List.getElem?_range hlt]
      rfl
    · rcases h with ⟨rfl, rfl⟩ | ⟨rfl, rfl⟩
      · exact .inl ⟨rfl, rfl⟩
      · refine .inr ⟨?_, rfl⟩
        have h := hK.leafOf_eq hlt
        rw [Nat.add_sub_cancel' hx1] at h
        exact h.symm

/-- The queue that the bottom-up loop starts from. -/
theorem Layout.deque_eq : (pageKeys K.query.id K.pageVersion K.pageSize K.query.size).map
      (leafOf K.query) =
    nodesAt K.query.id K.query.version K.pageSize 0 K.first (K.final + 1 - K.first) := by
  rw [hK.pageKeys_eq, List.map_map, nodesAt, List.range'_eq_map_range, List.map_map]
  refine List.map_congr_left fun i hi => ?_
  exact hK.leafOf_eq (List.mem_range.1 hi)

/-- The bottom-up loop ends, whatever the sibling lists hold. -/
theorem Layout.innerPuts_eq {w : Writer} (hdeque : w.deque =
    nodesAt K.query.id K.query.version K.pageSize 0 K.first (K.final + 1 - K.first)) :
    w.innerPuts K.reply.rootSize = some ((innerEntries w.leftSiblings w.rightSiblings K.query.id
      K.query.version K.pageSize K.first K.final 0 K.levels).map fun e => (e.1, .node e.2)) := by
  have hb := buildLoop_leaves K.query.id K.query.version w.leftSiblings w.rightSiblings
    hK.pageSize_pos hK.bound hK.le hK.final_lt
  rw [Writer.innerPuts, hK.rootSize, hdeque, hb]
  rfl

end Ticket

/-! ## The writer -/

/-- The queued gets of one side. -/
def Writer.getsOf (w : Writer) (isLeft : Bool) : List Query :=
  (w.gets.filter fun g => g.1 == isLeft).map (·.2)

/-- A `wait` returns only when nothing is queued, and never after the call is over. -/
theorem Writer.endWait_cases {w w' : Writer} {rootSize : Nat}
    (hw : w.endWait rootSize = some w') :
    w.puts = [] ∧ w.gets = [] ∧
      ((w.stage = .leaves ∧ w.result = true ∧ ∃ ps, w.innerPuts rootSize = some ps ∧
          w' = { w with stage := .inner, puts := ps }) ∨
        (w.stage = .leaves ∧ w.result = false ∧ w' = { w with stage := .inner }) ∨
        w.stage = .inner ∧ w' = { w with stage := .done }) := by
  unfold Writer.endWait at hw
  split at hw
  · next hempty =>
    simp only [Bool.and_eq_true, List.isEmpty_iff] at hempty
    refine ⟨hempty.1, hempty.2, ?_⟩
    cases hs : w.stage with
    | leaves =>
      simp only [hs] at hw
      cases hr : w.result with
      | true =>
        rw [hr, if_pos rfl] at hw
        obtain ⟨ps, hps, rfl⟩ := Option.map_eq_some_iff.mp hw
        exact .inl ⟨rfl, rfl, ps, hps, rfl⟩
      | false =>
        rw [hr, if_neg Bool.false_ne_true] at hw
        exact .inr (.inl ⟨rfl, rfl, (Option.some.inj hw).symm⟩)
    | inner =>
      simp only [hs, Option.some.injEq] at hw
      exact .inr (.inr ⟨rfl, hw.symm⟩)
    | done =>
      rw [hs] at hw
      cases hw
  · cases hw

/-- The invariant of `writeRecordLocations`; `stable` is the page map of the stable version. -/
structure WriterInv (dht : Dht) (stable : PageMap) (K : Ticket) (w : Writer) : Prop where
  deque : w.deque =
    nodesAt K.query.id K.query.version K.pageSize 0 K.first (K.final + 1 - K.first)
  left : Side dht K.pageSize K.levels stable K.stablePages K.query.id K.outstanding true K.first
    w.leftSiblings (w.getsOf true)
  right : Side dht K.pageSize K.levels stable K.stablePages K.query.id K.outstanding false K.final
    w.rightSiblings (w.getsOf false)
  leafPut : w.stage = .leaves → ∀ e ∈ w.puts, K.LeafEntry e.1 e.2
  innerPut : w.stage = .inner → ∀ e ∈ w.puts, K.InnerEntry w.leftSiblings w.rightSiblings e.1 e.2
  donePut : w.stage = .done → w.puts = []
  noGets : w.stage ≠ .leaves → w.gets = []
  leafDone : w.result = true → ∀ k v, K.LeafEntry k v →
    dht k = some v ∨ w.stage = .leaves ∧ (k, v) ∈ w.puts
  innerDone : w.result = true → w.stage ≠ .leaves →
    ∀ k v, K.InnerEntry w.leftSiblings w.rightSiblings k v →
      dht k = some v ∨ w.stage = .inner ∧ (k, v) ∈ w.puts

namespace WriterInv

variable {dht dht' : Dht} {stable : PageMap} {K : Ticket} {w : Writer}

theorem mono (h : WriterInv dht stable K w) (hle : DhtLe dht dht') :
    WriterInv dht' stable K w where
  deque := h.deque
  left := h.left.mono hle
  right := h.right.mono hle
  leafPut := h.leafPut
  innerPut := h.innerPut
  donePut := h.donePut
  noGets := h.noGets
  leafDone hr k v he := (h.leafDone hr k v he).imp_left (hle k v)
  innerDone hr hs k v he := (h.innerDone hr hs k v he).imp_left (hle k v)

/-- A queued put is an entry of the write. -/
theorem put_entry (h : WriterInv dht stable K w) {e : Query × DhtVal} (he : e ∈ w.puts) :
    K.LeafEntry e.1 e.2 ∨
      w.stage ≠ .leaves ∧ K.InnerEntry w.leftSiblings w.rightSiblings e.1 e.2 := by
  cases hs : w.stage with
  | leaves => exact .inl (h.leafPut hs e he)
  | inner => exact .inr ⟨by simp, h.innerPut hs e he⟩
  | done =>
    rw [h.donePut hs] at he
    cases he

/-- One put ends; an acknowledged one is in the DHT from then on. -/
theorem endPut (h : WriterInv dht stable K w) {i : Nat} {k : Query} {v : DhtVal}
    {outcome : PutOutcome} (hi : w.puts[i]? = some (k, v)) (hle : DhtLe dht dht')
    (hput : outcome = .acked → dht' k = some v) :
    WriterInv dht' stable K (w.endPut i outcome) := by
  obtain ⟨hlt, hget⟩ := List.getElem?_eq_some_iff.1 hi
  have hperm := List.getElem_cons_eraseIdx_perm hlt
  rw [hget] at hperm
  have hresult : (w.endPut i outcome).result = true → w.result = true ∧ outcome = .acked := by
    simp only [Writer.endPut, Bool.and_eq_true, decide_eq_true_eq]
    exact id
  -- the put that ends now is acknowledged, so only the others are still queued
  have hrest : ∀ {k' v'}, outcome = .acked → (k', v') ∈ w.puts →
      dht' k' = some v' ∨ (k', v') ∈ w.puts.eraseIdx i := by
    intro k' v' hacked hmem
    rcases List.mem_cons.1 (hperm.mem_iff.2 hmem) with he | he
    · cases he
      exact .inl (hput hacked)
    · exact .inr he
  constructor
  · exact h.deque
  · exact h.left.mono hle
  · exact h.right.mono hle
  · exact fun hs e he => h.leafPut hs e (List.mem_of_mem_eraseIdx he)
  · exact fun hs e he => h.innerPut hs e (List.mem_of_mem_eraseIdx he)
  · intro hs
    have he : (w.endPut i outcome).puts = w.puts.eraseIdx i := rfl
    rw [he, h.donePut hs]
    rfl
  · exact h.noGets
  · intro hr k' v' he
    obtain ⟨hr, hacked⟩ := hresult hr
    rcases h.leafDone hr k' v' he with hd | ⟨hs, hmem⟩
    · exact .inl (hle _ _ hd)
    · exact (hrest hacked hmem).imp_right fun hmem => ⟨hs, hmem⟩
  · intro hr hs k' v' he
    obtain ⟨hr, hacked⟩ := hresult hr
    rcases h.innerDone hr hs k' v' he with hd | ⟨hs, hmem⟩
    · exact .inl (hle _ _ hd)
    · exact (hrest hacked hmem).imp_right fun hmem => ⟨hs, hmem⟩

theorem perm_eq_of_short {l l' : List Query} (h : l.Perm l') (hl : l'.length ≤ 1) : l = l' := by
  match l', hl with
  | [], _ => exact h.eq_nil
  | [x], _ => exact List.perm_singleton.1 h

/-- The gets of the two sides when one of them is answered and leads to `next`. -/
theorem getsOf_answer {gets : List (Bool × Query)} {i : Nat} {isLeft : Bool} {q : Query}
    (hi : gets[i]? = some (isLeft, q)) (next : Option Query)
    (hone : ∀ b, ((gets.filter fun g => g.1 == b).map (·.2)).length ≤ 1) :
    (gets.filter fun g => g.1 == isLeft).map (·.2) = [q] ∧
    ((gets.eraseIdx i ++ (next.map fun q => (isLeft, q)).toList).filter
      fun g => g.1 == isLeft).map (·.2) = next.toList ∧
    ((gets.eraseIdx i ++ (next.map fun q => (isLeft, q)).toList).filter
      fun g => g.1 == !isLeft).map (·.2) = (gets.filter fun g => g.1 == !isLeft).map (·.2) := by
  obtain ⟨hlt, hget⟩ := List.getElem?_eq_some_iff.1 hi
  have hperm := List.getElem_cons_eraseIdx_perm hlt
  rw [hget] at hperm
  have hsame := (hperm.filter fun g => g.1 == isLeft).map (·.2)
  have hother := (hperm.filter fun g => g.1 == !isLeft).map (·.2)
  have hne : ((isLeft, q).1 == !isLeft) = false := by cases isLeft <;> rfl
  rw [List.filter_cons_of_pos (by simp), List.map_cons] at hsame
  rw [List.filter_cons_of_neg (by simp [hne])] at hother
  have hlen := hsame.length_eq
  have h1 := hone isLeft
  have hnil : ((gets.eraseIdx i).filter fun g => g.1 == isLeft).map (·.2) = [] := by
    rw [← List.length_eq_zero_iff]
    rw [List.length_cons] at hlen
    omega
  rw [hnil] at hsame
  refine ⟨List.singleton_perm.1 hsame |>.symm, ?_, ?_⟩
  · rw [List.filter_append, List.map_append, hnil]
    cases next <;> simp
  · have hnext : ((next.map fun q => (isLeft, q)).toList.filter fun g => g.1 == !isLeft) = [] := by
      cases next <;> cases isLeft <;> rfl
    rw [List.filter_append, hnext, List.append_nil]
    exact perm_eq_of_short hother (hone _)

theorem side_length {ps m n id p : Nat} {intervals : IntervalList} {isLeft : Bool}
    {siblings gets : List Query}
    (h : Side dht ps m stable n id intervals isLeft p siblings gets) : gets.length ≤ 1 := by
  obtain ⟨l, (⟨rfl, -⟩ | ⟨q, rfl, -⟩), -⟩ := h <;> simp

/-- One get is answered. -/
theorem endGet (hK : K.Shape) (hz : NoZero dht) (h : WriterInv dht stable K w) {i : Nat}
    {isLeft : Bool} {q : Query} (hi : w.gets[i]? = some (isLeft, q)) :
    WriterInv dht stable K (w.endGet i isLeft q (dht q)) := by
  have hhead : w.deque.headD {} = K.node 0 K.first := by
    rw [h.deque, K.nodesAt_headD hK.le]
  have hlast : w.deque.getLastD {} = K.node 0 K.final := by
    rw [h.deque, K.nodesAt_getLastD hK.le]
  have hend := hK.layout.end_lt
  have hfirst : (K.first + 1) * K.pageSize < 2 ^ 64 :=
    Nat.lt_of_le_of_lt (Nat.mul_le_mul_right _ (Nat.succ_le_succ hK.le)) hend
  have hone : ∀ b, ((w.gets.filter fun g => g.1 == b).map (·.2)).length ≤ 1 := by
    intro b
    cases b with
    | true => exact side_length h.left
    | false => exact side_length h.right
  have hstage : w.stage = .leaves := by
    by_contra hs
    rw [h.noGets hs] at hi
    cases hi
  have hstage' : (w.endGet i isLeft q (dht q)).stage = .leaves := hstage
  have hcommon : ∀ w' : Writer, w'.stage = .leaves → w'.deque = w.deque → w'.puts = w.puts →
      w'.result = w.result →
      Side dht K.pageSize K.levels stable K.stablePages K.query.id K.outstanding true K.first
        w'.leftSiblings (w'.getsOf true) →
      Side dht K.pageSize K.levels stable K.stablePages K.query.id K.outstanding false K.final
        w'.rightSiblings (w'.getsOf false) → WriterInv dht stable K w' := by
    intro w' h1 h2 h3 h4 h5 h6
    constructor
    · rw [h2]
      exact h.deque
    · exact h5
    · exact h6
    · rw [h3]
      exact fun _ => h.leafPut hstage
    · rw [h1]
      exact fun hs => by cases hs
    · rw [h1]
      exact fun hs => by cases hs
    · rw [h1]
      exact fun hs => absurd rfl hs
    · rw [h3, h4, h1]
      intro hr k v he
      have hd := h.leafDone hr k v he
      rwa [hstage] at hd
    · rw [h1]
      exact fun _ hs => absurd rfl hs
  cases isLeft with
  | true =>
    obtain ⟨hg, hnext, hother⟩ := getsOf_answer hi
      (siblingsCallback true (w.deque.headD {}) w.leftSiblings q (dht q)).2 hone
    have hside := h.left
    unfold Writer.getsOf at hside
    rw [hg] at hside
    have hstep := hside.step hK.pageSize_pos hz hhead hfirst
    refine hcommon _ hstage' rfl rfl rfl ?_ ?_
    · rw [← hnext] at hstep
      exact hstep
    · have hr := h.right
      unfold Writer.getsOf at hr
      rw [show false = !true from rfl, ← hother] at hr
      exact hr
  | false =>
    obtain ⟨hg, hnext, hother⟩ := getsOf_answer hi
      (siblingsCallback false (w.deque.getLastD {}) w.rightSiblings q (dht q)).2 hone
    have hside := h.right
    unfold Writer.getsOf at hside
    rw [hg] at hside
    have hstep := hside.step hK.pageSize_pos hz hlast hend
    refine hcommon _ hstage' rfl rfl rfl ?_ ?_
    · have hl := h.left
      unfold Writer.getsOf at hl
      rw [show true = !false from rfl, ← hother] at hl
      exact hl
    · rw [← hnext] at hstep
      exact hstep

/-- The bottom-up loop ends, with one put for every block that the write touches. -/
theorem innerPuts_eq (hK : K.Shape) (h : WriterInv dht stable K w) :
    ∃ ps, w.innerPuts K.reply.rootSize = some ps ∧ ∀ k v,
      (k, v) ∈ ps ↔ K.InnerEntry w.leftSiblings w.rightSiblings k v := by
  refine ⟨_, hK.layout.innerPuts_eq h.deque, ?_⟩
  intro k v
  simp only [List.mem_map, Prod.mk.injEq, mem_innerEntries]
  constructor
  · rintro ⟨e, ⟨i, j, hi, ht, rfl⟩, rfl, rfl⟩
    exact ⟨i, j, hi, ht, rfl, rfl⟩
  · rintro ⟨i, j, hi, ht, rfl, rfl⟩
    exact ⟨_, ⟨i, j, hi, ht, rfl⟩, rfl, rfl⟩

/-- One `wait` returns. -/
theorem endWait (hK : K.Shape) (h : WriterInv dht stable K w) {w' : Writer}
    (hw : w.endWait K.reply.rootSize = some w') : WriterInv dht stable K w' := by
  obtain ⟨hputs, hgets, ⟨-, hr, ps, hps, rfl⟩ | ⟨-, hr, rfl⟩ | ⟨hs, rfl⟩⟩ :=
    Writer.endWait_cases hw
  · have hleaf : ∀ k v, K.LeafEntry k v → dht k = some v := by
      intro k v he
      rcases h.leafDone hr k v he with hd | hd
      · exact hd
      · rw [hputs] at hd
        cases hd.2
    obtain ⟨ps', hps', hmem⟩ := innerPuts_eq hK h
    rw [hps] at hps'
    cases hps'
    refine ⟨h.deque, h.left, h.right, by simp, ?_, by simp, fun _ => hgets, ?_, ?_⟩
    · exact fun _ e he => (hmem e.1 e.2).1 he
    · exact fun _ k v he => .inl (hleaf k v he)
    · exact fun _ _ k v he => .inr ⟨rfl, (hmem k v).2 he⟩
  · have hr' : w.result ≠ true := by simp [hr]
    refine ⟨h.deque, h.left, h.right, by simp, ?_, by simp, fun _ => hgets, ?_, ?_⟩
    · intro _ e he
      rw [hputs] at he
      cases he
    · exact fun hres => absurd hres hr'
    · exact fun hres => absurd hres hr'
  · refine ⟨h.deque, h.left, h.right, by simp, by simp, fun _ => hputs, fun _ => hgets, ?_, ?_⟩
    · intro hr k v he
      refine (h.leafDone hr k v he).imp_right fun hd => ?_
      rw [hs] at hd
      cases hd.1
    · intro hr _ k v he
      refine (h.innerDone hr (by simp [hs]) k v he).imp_right fun hd => ?_
      rw [hputs] at hd
      cases hd.2

end WriterInv

/-! ## The start of a write -/

/-- A root with a tree of `M` levels for a page map that is not empty. -/
structure TreeDenotes (dht : Dht) (ps : Nat) (m : PageMap) (M : Nat) (r : Root) : Prop where
  pageSize_pos : 0 < ps
  size : r.node.size = ps * 2 ^ M
  bound : ps * 2 ^ M < 2 ^ 64
  denotes : Denotes dht ps m M 0 r.node
  support : ∀ x, 2 ^ M ≤ x → m x = none
  nonempty : ∃ x, m x ≠ none

theorem TreeDenotes.congr {dht : Dht} {ps : Nat} {m : PageMap} {M : Nat} {r r' : Root}
    (h : TreeDenotes dht ps m M r) (hr : r'.node = r.node) : TreeDenotes dht ps m M r' :=
  { h with
    size := hr ▸ h.size
    denotes := hr ▸ h.denotes }

/-- A root stands for a page map: it has no tree and the map is empty, or it has a tree for the
map. -/
def RootDenotes (dht : Dht) (ps : Nat) (m : PageMap) (r : Root) : Prop :=
  r.node.offset = 0 ∧ (r.node.size = 0 ∧ (∀ x, m x = none) ∨ ∃ M, TreeDenotes dht ps m M r)

theorem RootDenotes.mono {dht dht' : Dht} {ps : Nat} {m : PageMap} {r : Root}
    (h : RootDenotes dht ps m r) (hle : DhtLe dht dht') : RootDenotes dht' ps m r := by
  refine ⟨h.1, h.2.imp id ?_⟩
  rintro ⟨M, h⟩
  exact ⟨M, { h with denotes := h.denotes.mono hle }⟩

namespace Ticket

theorem leftEdge_eq (K : Ticket) : leftEdge K.query K.pageSize = K.node 0 K.first := by
  simp only [leftEdge, node, nodeAt, Nat.pow_zero, Nat.mul_one]
  rfl

variable {K : Ticket} (hK : K.Layout)

include hK

theorem Layout.last_eq : K.query.offset + K.query.size = (K.final + 1) * K.pageSize := by
  have hle := hK.le
  rw [hK.offset, hK.size, ← Nat.add_mul, Nat.add_sub_cancel' (by omega)]

theorem Layout.rightEdge_eq : rightEdge K.query K.pageSize = K.node 0 K.final := by
  have hend := hK.end_lt
  have hps := hK.pageSize_pos
  have hlast := hK.last_eq
  have hle : K.final * K.pageSize ≤ (K.final + 1) * K.pageSize := Nat.mul_le_mul_right _ (by omega)
  have hle' : K.final + 1 ≤ (K.final + 1) * K.pageSize := Nat.le_mul_of_pos_right _ hps
  have hdiv : sub64 (K.final + 1) 1 = K.final := by
    rw [sub64_of_le (by omega) (by omega), Nat.add_sub_cancel]
  simp only [rightEdge, node, nodeAt, Nat.pow_zero, Nat.mul_one]
  rw [hlast, u64_of_lt hend, Nat.mul_div_cancel _ hps, Nat.mul_mod_left, if_pos rfl, hdiv,
    u64_of_lt (by omega)]

/-- The stable tree intersects a page exactly when it holds the page. -/
theorem Layout.stable_intersects_iff {r : Query} {M x : Nat} (hx : x ≤ K.final)
    (ho : r.offset = 0) (hs : r.size = K.pageSize * 2 ^ M) (hM : K.pageSize * 2 ^ M < 2 ^ 64) :
    r.intersects (K.node 0 x) = true ↔ x < 2 ^ M := by
  have hr : r = nodeAt r.id r.version K.pageSize M 0 := by
    rw [nodeAt, Nat.zero_mul, ← ho, ← hs]
  have hend := hK.end_lt
  have hle : (x + 1) * K.pageSize ≤ (K.final + 1) * K.pageSize :=
    Nat.mul_le_mul_right _ (by omega)
  rw [hr, nodeAt_intersects_iff (a := x) (b := x) hK.pageSize_pos (Nat.le_refl x)]
  · have hpos := Nat.two_pow_pos M
    unfold Touches
    rw [show (x / 2 ^ M ≤ 0 ∧ 0 ≤ x / 2 ^ M) ↔ x / 2 ^ M = 0 by omega, Nat.div_eq_zero_iff]
    omega
  · rw [node, nodeAt, Nat.pow_zero, Nat.mul_one]
  · rw [node, nodeAt, Nat.pow_zero, Nat.mul_one, Nat.add_sub_cancel_left, Nat.one_mul]
  · rw [Nat.zero_add, Nat.one_mul]
    exact hM
  · omega

end Ticket

/-- The siblings of one side at the first `wait`: a stable tree that does not hold the page is
itself a left sibling. -/
def Ticket.startSiblings (K : Ticket) (isLeft : Bool) (x : Nat) : List Query :=
  let siblings := siblingsFrom K.outstanding K.query.id K.pageSize x 0 K.levels
  let stable := K.reply.stableRoot.node
  if !isLeft || stable.intersects (K.node 0 x) then siblings
  else if (searchList siblings stable.offset stable.size).empty then siblings ++ [stable]
  else siblings

theorem Side.start {dht : Dht} {stable : PageMap} {K : Ticket} (hK : K.Shape)
    (hroot : RootDenotes dht K.pageSize stable K.reply.stableRoot) {isLeft : Bool} {x : Nat}
    (hx : x ≤ K.final) :
    Side dht K.pageSize K.levels stable K.stablePages K.query.id K.outstanding isLeft x
      (K.startSiblings isLeft x)
      (if K.reply.stableRoot.node.intersects (K.node 0 x) then [K.reply.stableRoot.node]
        else []) := by
  have hps := hK.pageSize_pos
  unfold Ticket.startSiblings
  simp only
  obtain ⟨ho, (⟨hs, hm⟩ | ⟨M, -, hs, hM, hd, hm, -⟩)⟩ := hroot
  · have hi : K.reply.stableRoot.node.intersects (K.node 0 x) = false :=
      Query.not_intersects_of_size_zero ho hs
    rw [hi]
    refine .start_empty hps hm ?_ hs
    split
    · exact .inl rfl
    · split
      · exact .inr rfl
      · exact .inl rfl
  · have hn : K.stablePages = 2 ^ M := by
      rw [Ticket.stablePages, hs, Nat.mul_div_cancel_left _ hps]
    rw [← hn] at hm
    have hiff := hK.layout.stable_intersects_iff hx ho hs hM
    rw [← hn] at hiff
    rcases Nat.lt_or_ge x K.stablePages with hlt | hge
    · have hi := hiff.2 hlt
      rw [hi, Bool.or_true, if_pos rfl, if_pos rfl]
      exact .start_walk hps hn hlt hM hm hd ho hs
    · have hi : K.reply.stableRoot.node.intersects (K.node 0 x) = false := by
        rw [Bool.eq_false_iff]
        intro h
        have := hiff.1 h
        omega
      rw [hi]
      refine .start_beyond hps hn hge hm hd ho hs ?_
      cases isLeft with
      | true => simp
      | false => simp

theorem Ticket.Layout.start_eq {K : Ticket} (hK : K.Layout) :
    Writer.start K.reply (pageKeys K.query.id K.pageVersion K.pageSize K.query.size) K.adv = some {
      stage := .leaves
      deque := nodesAt K.query.id K.query.version K.pageSize 0 K.first (K.final + 1 - K.first)
      leftSiblings := K.startSiblings true K.first
      rightSiblings := K.startSiblings false K.final
      puts := leafPuts K.query K.reply.stableRoot.replicaCount K.adv 0
        (pageKeys K.query.id K.pageVersion K.pageSize K.query.size)
      gets := (if K.reply.stableRoot.node.intersects (K.node 0 K.first) then
          [(true, K.reply.stableRoot.node)] else []) ++
        (if K.reply.stableRoot.node.intersects (K.node 0 K.final) then
          [(false, K.reply.stableRoot.node)] else []) } := by
  have hps := hK.pageSize_pos
  have hle := hK.le
  have hkeys : (pageKeys K.query.id K.pageVersion K.pageSize K.query.size).isEmpty = false := by
    rw [hK.pageKeys_eq, List.isEmpty_eq_false_iff]
    intro he
    have := congrArg List.length he
    simp only [List.length_map, List.length_range, List.length_nil] at this
    omega
  have hl : computeSiblingVersions (leftEdge K.query K.pageSize) K.outstanding K.reply.rootSize =
      some (siblingsFrom K.outstanding K.query.id K.pageSize K.first 0 K.levels) := by
    rw [K.leftEdge_eq, hK.rootSize]
    exact computeSiblingVersions_eq _ _ _ hps hK.bound (Nat.lt_of_le_of_lt hle hK.final_lt)
  have hr : computeSiblingVersions (rightEdge K.query K.pageSize) K.outstanding K.reply.rootSize =
      some (siblingsFrom K.outstanding K.query.id K.pageSize K.final 0 K.levels) := by
    rw [hK.rightEdge_eq, hK.rootSize]
    exact computeSiblingVersions_eq _ _ _ hps hK.bound hK.final_lt
  have hdeque := hK.deque_eq
  have hhead := K.nodesAt_headD hle
  have hlast := K.nodesAt_getLastD hle
  have hq : K.reply.intervals.lastKey = K.query := rfl
  have hout : K.reply.intervals.erase K.query.version = K.outstanding := rfl
  have hpage : K.reply.stableRoot.pageSize = K.pageSize := rfl
  unfold Writer.start
  simp only [hkeys, hq, hout, hpage, hl, hr, hdeque, hhead, hlast]
  rfl

/-- A write starts with its invariant: everything is queued. -/
theorem WriterInv.start {dht : Dht} {stable : PageMap} {K : Ticket} (hK : K.Shape)
    (hroot : RootDenotes dht K.pageSize stable K.reply.stableRoot) :
    ∃ w, Writer.start K.reply (pageKeys K.query.id K.pageVersion K.pageSize K.query.size) K.adv =
      some w ∧ w.stage = .leaves ∧ w.result = true ∧ WriterInv dht stable K w := by
  refine ⟨_, hK.layout.start_eq, rfl, rfl, ?_⟩
  constructor
  · rfl
  · have h : Side _ _ _ _ _ _ _ true _ _ _ := Side.start hK hroot hK.le
    unfold Writer.getsOf
    rw [List.filter_append, List.map_append]
    cases hi : K.reply.stableRoot.node.intersects (K.node 0 K.first) <;>
      cases K.reply.stableRoot.node.intersects (K.node 0 K.final) <;> rw [hi] at h <;> exact h
  · have h : Side _ _ _ _ _ _ _ false _ _ _ := Side.start hK hroot (Nat.le_refl _)
    unfold Writer.getsOf
    rw [List.filter_append, List.map_append]
    cases hi : K.reply.stableRoot.node.intersects (K.node 0 K.final) <;>
      cases K.reply.stableRoot.node.intersects (K.node 0 K.first) <;> rw [hi] at h <;> exact h
  · exact fun _ e he => hK.layout.mem_leafPuts_iff.1 he
  · exact fun hs => by cases hs
  · exact fun hs => by cases hs
  · exact fun hs => absurd rfl hs
  · exact fun _ k v he => .inr ⟨rfl, hK.layout.mem_leafPuts_iff.2 he⟩
  · exact fun _ hs => absurd rfl hs

end BlobSeer
