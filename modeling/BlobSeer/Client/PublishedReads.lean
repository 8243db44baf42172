import BlobSeer.Client.Failover
import BlobSeer.Client.Guards
import BlobSeer.Client.Store
import BlobSeer.RangeQuery.Holes

/-!
# Reads of published versions, from the root to the bytes

`object_handler::read` in a system in which everything may happen at once: other clients write, gets
of the tree fail, calls of providers fail. A read of a published version always ends, and when it
returns `true` the buffer has the bytes that the version has had since it was published
(`read_published`). It returns `true` when all pages of the range are written and some provider that is
asked for each of them answers.
-/

namespace BlobSeer

open Lib

/-! ## The pages of a leaf -/

/-- The leaf of a page is in the DHT. -/
theorem Denotes.leaf_node {dht : Dht} {ps i j : Nat} {m : PageMap} {p : Query}
    (h : Denotes dht ps m i j p) {x : Nat} (hx : x / 2 ^ i = j) {leaf : RandomSelect}
    (hm : m x = some leaf) : ∃ id v, dht (nodeAt id v ps 0 x) =
      some (.node { isLeaf := true, left := leaf.pageKey }) := by
  induction h with
  | hole _ hnone =>
    rw [hnone x hx] at hm
    cases hm
  | @leaf j id v key l hp _ hleaf =>
    rw [Nat.pow_zero, Nat.div_one] at hx
    subst hx
    rw [hleaf] at hm
    cases hm
    exact ⟨id, v, hp⟩
  | @inner i j _ _ _ _ _ _ _ ihl ihr =>
    rw [div_two_pow_succ] at hx
    rcases Nat.mod_two_eq_zero_or_one (x / 2 ^ i) with h2 | h2
    · exact ihl (by omega)
    · exact ihr (by omega)

/-- The pages of a version have its page size. -/
theorem World.Inv.leaf_size {seq : Nat → Bool} {base : Nat → PageMap} {w : World} (h : Inv seq base w)
    {ps M : Nat} {m : PageMap} {root : Root} (hd : TreeDenotes w.dht ps m M root) {x : Nat}
    {leaf : RandomSelect} (hm : m x = some leaf) : leaf.pageKey.size = ps := by
  have hx : x / 2 ^ M = 0 := by
    apply Nat.div_eq_of_lt
    by_contra hge
    rw [hd.support x (Nat.not_lt.mp hge)] at hm
    cases hm
  obtain ⟨id, v, hnode⟩ := hd.denotes.leaf_node hx hm
  obtain ⟨t, T, hT, hentry⟩ := h.owner hnode
  rcases hentry with ⟨y, -, -, ⟨-, hval⟩ | ⟨hkey, hval⟩⟩ | ⟨-, i, j, -, -, -, hval⟩
  · cases hval
  · simp only [DhtVal.node.injEq, DhtNode.mk.injEq] at hval
    rw [hval.2.1]
    have hsize := congrArg Query.size hkey
    simp only [Ticket.node, nodeAt, Nat.pow_zero, Nat.mul_one] at hsize
    exact hsize.symm
  · simp [childNode] at hval

/-! ## How a read ends -/

section outcome

variable (R : Replicas) (rand : Nat → Nat → Nat)
  (locate : Nat → Query → Root → Option (Bool × List RandomSelect)) {root : Root}
  {version offset size : Nat} {vadv : List RandomSelect}
  (hps : 0 < root.pageSize) (hshort : root.pageSize < 2 ^ 32) (hsize : 0 < size)
  (hend : offset + size < 2 ^ 64) (hn : touchedPages root.pageSize offset size < 2 ^ 32)
  (hversion : version ≤ root.node.version) (hguard : offset + size ≤ root.node.size)
  (hvadv : vadv.length = leafCount root.pageSize offset size)
  (hlocate : locate (leafCount root.pageSize offset size)
    ⟨root.node.id, root.node.version, newOffset root.pageSize offset,
      u64 (leafCount root.pageSize offset size * root.pageSize)⟩ root = some (true, vadv))

include hps hshort hsize hend hn hversion hguard hvadv hlocate

/-- A read whose leaves are found returns `true` when every page is answered, and only then has all the
right bytes. -/
theorem readRoot_outcome (buffer : Nat → UInt8) :
    ∃ result buffer', readRoot R.answers rand locate root version offset size buffer =
        some (.returned result buffer') ∧
      (result = true ↔ ∀ r ∈ readPlan root.pageSize offset size,
        (askedProviders rand r (pageLeaf vadv r)).any
          (R.wouldAnswer r (pageLeaf vadv r).pageKey) = true) ∧
      (result = true → ∀ b < size, buffer' b = rightByte R root offset vadv b) := by
  have hparts : ShortParts root.pageSize offset size := .of_psize hshort
  have hright : ReadsRight R rand locate root version offset size vadv buffer ↔ _ :=
    readsRight_iff hps hsize hend hn hversion hguard hvadv hlocate hparts
  have hanswered : (∀ r ∈ readPlan root.pageSize offset size, PageAnswered R rand vadv r) ↔ _ :=
    forall₂_congr fun r hr => answered_iff hps hsize hend hn hparts hr
  rw [← hanswered]
  by_cases hall : ∀ r ∈ readPlan root.pageSize offset size, PageAnswered R rand vadv r
  · obtain ⟨buffer', hread, hbytes⟩ := hright.mpr hall
    exact ⟨true, buffer', hread, iff_of_true rfl hall, fun _ => hbytes⟩
  · suffices ∃ buffer', readRoot R.answers rand locate root version offset size buffer =
        some (.returned false buffer') by
      obtain ⟨buffer', hread⟩ := this
      exact ⟨false, buffer', hread, iff_of_false Bool.false_ne_true hall,
        fun h => absurd h Bool.false_ne_true⟩
    rw [readRoot_eq hps hsize hend hn hversion hguard hvadv hlocate]
    split
    · next hsent =>
      refine ⟨(runReads R.answers rand vadv (readPlan root.pageSize offset size) true buffer).2, ?_⟩
      congr 2
      rw [runReads_result, Bool.true_and, Bool.eq_false_iff]
      intro hfetched
      refine hall fun r hr => ?_
      have hsome := List.all_eq_true.mp hfetched r hr
      rw [plan_fetch hps hsize hend hn hr (hsent r hr)] at hsome
      split at hsome
      · next hany => exact hany
      · cases hsome
    · exact ⟨buffer, rfl⟩

end outcome

/-- A read whose leaves are not found returns `false`. -/
theorem readRoot_not_found {answers : Answers} {rand : Nat → Nat → Nat}
    {locate : Nat → Query → Root → Option (Bool × List RandomSelect)} {root : Root}
    {version offset size : Nat} {vadv : List RandomSelect} (hps : 0 < root.pageSize)
    (hend : offset + size < 2 ^ 64) (hversion : version ≤ root.node.version)
    (hguard : offset + size ≤ root.node.size)
    (hlocate : locate (leafCount root.pageSize offset size)
      ⟨root.node.id, root.node.version, newOffset root.pageSize offset,
        u64 (leafCount root.pageSize offset size * root.pageSize)⟩ root = some (false, vadv))
    (buffer : Nat → UInt8) :
    readRoot answers rand locate root version offset size buffer = some (.returned false buffer) := by
  unfold readRoot
  dsimp only
  rw [if_neg (Nat.not_lt.mpr hversion), if_neg hps.ne', u64_of_lt hend,
    if_neg (Nat.not_lt.mpr hguard), hlocate]

/-! ## What the providers answer -/

/-- The answers of the providers, when some of the calls fail in transport. -/
def Writers.failing (s : Writers) (fails : ProviderDesc → Bool → List ReadParam → Bool) : Answers :=
  fun p part params => if fails p part params then none else s.answers p part params

/-- A provider that is asked for the page answers with as many bytes as the request is for. -/
def Served (answers : Answers) (rand : Nat → Nat → Nat) (r : PageRead) (leaf : RandomSelect) : Prop :=
  ∃ p ∈ askedProviders rand r leaf, ∃ bytes,
    answers p r.part.isSome (r.params leaf.pageKey) = some bytes ∧ bytes.length = r.len

instance (answers : Answers) (rand : Nat → Nat → Nat) (r : PageRead) (leaf : RandomSelect) :
    Decidable (Served answers rand r leaf) :=
  decidable_of_iff (∃ p ∈ askedProviders rand r leaf,
    ∃ bytes ∈ answers p r.part.isSome (r.params leaf.pageKey), bytes.length = r.len) Iff.rfl

namespace Writers

/-- The page that was stored under a key. -/
def content (s : Writers) (key : Query) : List UInt8 :=
  (((s.uploads.flatMap Upload.acked).find? fun r => decide (r.key = key)).map
    ProviderWrite.value).getD []

def replicas (s : Writers) (fails : ProviderDesc → Bool → List ReadParam → Bool) : Replicas :=
  ⟨fun p key => (s.page p key).isSome, s.content, fails⟩

namespace Backed

variable {retryCount : Nat} {seq : Nat → Bool} {base base' : Nat → PageMap} {s s' : Writers}

/-- All copies under one key are of one page. -/
theorem acked_value (h : Backed retryCount seq base s) {r r' : ProviderWrite}
    (hr : r ∈ s.uploads.flatMap Upload.acked) (hr' : r' ∈ s.uploads.flatMap Upload.acked)
    (hkey : r.key = r'.key) : r.value = r'.value := by
  obtain ⟨u, hu, hacked⟩ := List.mem_flatMap.mp hr
  obtain ⟨u', hu', hacked'⟩ := List.mem_flatMap.mp hr'
  obtain ⟨hinv, -⟩ := h.inv.upload u hu
  obtain ⟨hinv', -⟩ := h.inv.upload u' hu'
  obtain ⟨i, -, hcopy⟩ := hinv.sent r (hinv.acked r hacked)
  obtain ⟨j, -, hcopy'⟩ := hinv'.sent r' (hinv'.acked r' hacked')
  have hsame : u.pageKey i = u'.pageKey j := (hcopy.key.symm.trans hkey).trans hcopy'.key
  simp only [WriteCall.pageKey, Query.mk.injEq] at hsame
  obtain ⟨n, hn⟩ := List.mem_iff_getElem?.mp hu
  obtain ⟨k, hk⟩ := List.mem_iff_getElem?.mp hu'
  have hnk := h.linked.keys hn hk hsame.1 hsame.2.1
  rw [hnk, hk] at hn
  cases hn
  rw [hcopy.value, hcopy'.value, hsame.2.2.1]

/-- What a provider has under a key is the content of the key. -/
theorem content_eq (h : Backed retryCount seq base s) {p : ProviderDesc} {key : Query}
    {page : List UInt8} (hpage : s.page p key = some page) : s.content key = page := by
  unfold Writers.page at hpage
  obtain ⟨r, hr, rfl⟩ := Option.map_eq_some_iff.mp hpage
  have hmem := List.mem_reverse.mp (List.mem_of_find?_eq_some hr)
  have hkey := List.find?_some hr
  rw [decide_eq_true_eq] at hkey
  have hsome : ((s.uploads.flatMap Upload.acked).find? fun r => decide (r.key = key)).isSome := by
    rw [List.find?_isSome]
    exact ⟨r, hmem, decide_eq_true hkey.2⟩
  obtain ⟨r', hr'⟩ := Option.isSome_iff_exists.mp hsome
  have hkey' := List.find?_some hr'
  rw [decide_eq_true_eq] at hkey'
  rw [content, hr', Option.map_some, Option.getD_some]
  exact h.acked_value (List.mem_of_find?_eq_some hr') hmem (hkey'.trans hkey.2.symm)

/-- The providers of the system are replicas of the pages that were stored. -/
theorem replicas_answers (h : Backed retryCount seq base s)
    (fails : ProviderDesc → Bool → List ReadParam → Bool) :
    (s.replicas fails).answers = s.failing fails := by
  funext p part params
  unfold Replicas.answers failing
  refine if_congr Iff.rfl rfl ?_
  cases part with
  | false =>
    rcases params with - | ⟨⟨key⟩ | ⟨n⟩, - | ⟨q, l⟩⟩
    · rfl
    · show (if (s.page p key).isSome = true then some (s.content key) else none) = s.page p key
      rcases Option.eq_none_or_eq_some (s.page p key) with hpage | ⟨page, hpage⟩
      · simp [hpage]
      · simp [hpage, h.content_eq hpage]
    · rfl
    · rfl
    · rfl
  | true =>
    rcases params with - | ⟨⟨key⟩ | ⟨n⟩, - | ⟨⟨key'⟩ | ⟨offset⟩, - | ⟨⟨key'⟩ | ⟨size⟩, - | ⟨q, l⟩⟩⟩⟩
    all_goals try rfl
    show (if (s.page p key).isSome = true ∧ ¬ (s.content key).length < u64 (offset + size) then
        some (((s.content key).drop offset).take size) else none) = s.answers p true
          [.key key, .num offset, .num size]
    unfold Writers.answers
    rcases Option.eq_none_or_eq_some (s.page p key) with hpage | ⟨page, hpage⟩
    · simp [hpage]
    · by_cases hlt : page.length < u64 (offset + size)
      · simp [hpage, h.content_eq hpage, hlt]
      · simp [hpage, h.content_eq hpage, hlt]

/-- The content of a leaf is the page that it leads to. -/
theorem content_leaf (h : Backed retryCount seq base s) {leaf : RandomSelect}
    (hleaf : s.world.dht leaf.pageKey = some (.providers leaf.providers)) :
    s.pageOf leaf = some (s.content leaf.pageKey) := by
  obtain ⟨u, i, hu⟩ := h.leafOf_dht hleaf
  have hpage := h.pageOf hu
  obtain ⟨p, -, hp⟩ := List.exists_of_findSome?_eq_some hpage
  rw [hpage, h.content_eq hp]

/-! ### The whole read -/

/-- A provider that would answer, in the words of the system. -/
theorem served_iff (h : Backed retryCount seq base s)
    (fails : ProviderDesc → Bool → List ReadParam → Bool) (rand : Nat → Nat → Nat) (r : PageRead)
    (leaf : RandomSelect) :
    (askedProviders rand r leaf).any ((s.replicas fails).wouldAnswer r leaf.pageKey) = true ↔
      Served (s.failing fails) rand r leaf := by
  rw [List.any_eq_true, Served]
  refine exists_congr fun p => and_congr_right fun _ => ?_
  rw [Replicas.wouldAnswer, h.replicas_answers, Option.any_eq_true]
  simp only [decide_eq_true_eq]

/-- Nothing can be asked for a page that is not written. -/
theorem not_served_hole {answers : Answers} {rand : Nat → Nat → Nat} {r : PageRead} :
    ¬ Served answers rand r {} := by
  rintro ⟨p, hp, -⟩
  have hmem := mem_of_mem_triedProviders (mem_tried_of_mem_asked hp)
  cases hmem

/-- The leaf of a request, when the leaves are the pages of the map. -/
theorem pageLeaf_range (m : PageMap) {a n : Nat} {r : PageRead} (hr : r.leaf < n) :
    pageLeaf ((List.range' a n).map fun x => (m x).getD {}) r = (m (a + r.leaf)).getD {} := by
  rw [pageLeaf, List.getD_eq_getElem?_getD, List.getElem?_map, List.getElem?_range' hr,
    Option.map_some, Option.getD_some, Nat.one_mul]

end Backed

/-- A byte of a version, as the content of its page. -/
theorem Backed.byteAt_content {retryCount : Nat} {seq : Nat → Bool} {base : Nat → PageMap}
    {s : Writers} (h : Backed retryCount seq base s) {ps M : Nat} {m : PageMap} {root : Root}
    (hd : TreeDenotes s.world.dht ps m M root) (hps : root.pageSize = ps) {p : Nat}
    {leaf : RandomSelect} (hleaf : pageMap s.world.dht root (p / ps) = some leaf)
    (hm : m (p / ps) = some leaf) :
    s.byteAt root p = some ((s.content leaf.pageKey).getD (p % ps) 0) := by
  have hdht := pageMap_leaf hleaf
  obtain ⟨u, i, hu⟩ := h.leafOf_dht hdht
  have hcontent : s.content leaf.pageKey = u.page i :=
    Option.some.inj ((h.content_leaf hdht).symm.trans (h.pageOf hu))
  have hsize : u.pageSize = ps := by
    have hkey := h.world.leaf_size hd hm
    rw [hu.key] at hkey
    exact hkey
  have hlt : p % ps < u.pageSize := by
    rw [hsize]
    exact Nat.mod_lt _ hd.pageSize_pos
  unfold byteAt
  rw [hps, hleaf]
  dsimp only
  rw [h.content_leaf hdht, Option.bind_some, hcontent, WriteCall.page, List.getElem?_map,
    List.getElem?_range hlt, List.getD_eq_getElem?_getD, List.getElem?_map, List.getElem?_range hlt]
  rfl

/-- The pages `offset / page_size .. b` that a read within a tree of `2 ^ M` pages touches, and its
requests for them. -/
structure PlannedRead (root : Root) (offset size M b : Nat) : Prop where
  ends : offset + size < 2 ^ 64
  first : offset / root.pageSize ≤ b
  last : b < 2 ^ M
  bound : (b + 1) * root.pageSize < 2 ^ 64
  count : leafCount root.pageSize offset size = b + 1 - offset / root.pageSize
  bytes : u64 (leafCount root.pageSize offset size * root.pageSize) =
    (b + 1 - offset / root.pageSize) * root.pageSize
  few : b - offset / root.pageSize < 2 ^ 32
  asked : ∀ i < leafCount root.pageSize offset size,
    ∃ r ∈ readPlan root.pageSize offset size, r.leaf = i
  leaf : ∀ r ∈ readPlan root.pageSize offset size, r.leaf < leafCount root.pageSize offset size

theorem plannedRead {dht : Dht} {m : PageMap} {root : Root} {M offset size : Nat}
    (hM : TreeDenotes dht root.pageSize m M root) (hsize : 0 < size)
    (hguard : offset + size ≤ root.node.size) (hn : touchedPages root.pageSize offset size < 2 ^ 32) :
    ∃ b, PlannedRead root offset size M b := by
  rw [hM.size] at hguard
  have hend : offset + size < 2 ^ 64 := Nat.lt_of_le_of_lt hguard hM.bound
  have htouched := leafCount_eq hM.pageSize_pos hsize hend
  obtain ⟨b, hab, hbM, hcount⟩ := pages_of_range hM.pageSize_pos hM.bound hguard
    fun hempty => absurd hempty.1 hsize.ne'
  have hb : (b + 1) * root.pageSize < 2 ^ 64 := by
    have hmul : (b + 1) * root.pageSize ≤ 2 ^ M * root.pageSize := Nat.mul_le_mul_right _ hbM
    rw [Nat.mul_comm (2 ^ M)] at hmul
    exact Nat.lt_of_le_of_lt hmul hM.bound
  refine ⟨b, hend, hab, hbM, hb, hcount, ?_, by omega, fun i hi => ?_, fun r hr => ?_⟩
  · rw [hcount]
    exact u64_of_lt (Nat.lt_of_le_of_lt (Nat.mul_le_mul_right _ (Nat.sub_le _ _)) hb)
  · have hmem : i ∈ (readPlan root.pageSize offset size).map PageRead.leaf := by
      rw [(readPlan_leaves hM.pageSize_pos hsize hend hn).mem_iff, List.mem_range, ← htouched]
      exact hi
    exact List.mem_map.mp hmem
  · rw [htouched]
    exact (readPlan_fits hM.pageSize_pos hsize hend hn hr).leaf

/-- The read is answered in full: every page is written, and a provider that is asked for it answers. -/
def AllServed (s₀ : Writers) (answers : Answers) (rand : Nat → Nat → Nat) (root : Root)
    (offset size : Nat) : Prop :=
  ∀ r ∈ readPlan root.pageSize offset size, ∃ leaf,
    pageMap s₀.world.dht root (offset / root.pageSize + r.leaf) = some leaf ∧
      Served answers rand r leaf

/-- What a read of the version with this root means, for the state `s₀` in which the version is there.
Its gets are answered from `dhts`. -/
structure ReadsVersion (s₀ : Writers) (answers : Answers) (rand : Nat → Nat → Nat) (dhts : Nat → Dht)
    (root : Root) (offset size : Nat) (result : Bool) (buffer : Nat → UInt8) : Prop where
  bytes : result = true → ∀ b < size, s₀.byteAt root (offset + b) = some (buffer b)
  served : result = true → AllServed s₀ answers rand root offset size
  succeeds : (∀ n, DhtLe s₀.world.dht (dhts n)) → AllServed s₀ answers rand root offset size →
    result = true

/-- A read that has found its leaves. -/
theorem Backed.readRoot_found {retryCount : Nat} {seq : Nat → Bool} {base : Nat → PageMap}
    {s : Writers} (h : Backed retryCount seq base s) {root : Root} (hshort : root.pageSize < 2 ^ 32)
    {M version offset size b : Nat}
    (hM : TreeDenotes s.world.dht root.pageSize (pageMap s.world.dht root) M root)
    (hversion : version ≤ root.node.version) (hsize : 0 < size)
    (hguard : offset + size ≤ root.node.size) (hn : touchedPages root.pageSize offset size < 2 ^ 32)
    (hplan : PlannedRead root offset size M b)
    (fails : ProviderDesc → Bool → List ReadParam → Bool) (rand : Nat → Nat → Nat)
    (buffer : Nat → UInt8) :
    ∃ result buffer', (∀ locate : Nat → Query → Root → Option (Bool × List RandomSelect),
        locate (leafCount root.pageSize offset size) ⟨root.node.id, root.node.version,
          newOffset root.pageSize offset,
          u64 (leafCount root.pageSize offset size * root.pageSize)⟩ root = some (true,
            (List.range' (offset / root.pageSize) (leafCount root.pageSize offset size)).map fun x =>
              (pageMap s.world.dht root x).getD {}) →
        readRoot (s.failing fails) rand locate root version offset size buffer =
          some (.returned result buffer')) ∧
      (result = true ↔ AllServed s (s.failing fails) rand root offset size) ∧
      (result = true → ∀ b < size, s.byteAt root (offset + b) = some (buffer' b)) := by
  have hpos := hM.pageSize_pos
  generalize hvadv : (List.range' (offset / root.pageSize) (leafCount root.pageSize offset size)).map
    (fun x => (pageMap s.world.dht root x).getD {}) = vadv
  have hlen : vadv.length = leafCount root.pageSize offset size := by
    rw [← hvadv, List.length_map, List.length_range']
  obtain ⟨result, buffer', hread, hresult, hbytes⟩ := readRoot_outcome (s.replicas fails) rand
    (fun _ _ _ => some (true, vadv)) hpos hshort hsize hplan.ends hn hversion hguard hlen rfl buffer
  -- a request that is served is for a page that is written
  have hserved : result = true ↔ AllServed s (s.failing fails) rand root offset size := by
    rw [hresult]
    refine forall₂_congr fun r hr => ?_
    rw [h.served_iff, ← hvadv, pageLeaf_range _ (hplan.leaf r hr)]
    cases hpage : pageMap s.world.dht root (offset / root.pageSize + r.leaf) with
    | none =>
      refine iff_of_false not_served_hole ?_
      rintro ⟨leaf, hleaf, -⟩
      cases hleaf
    | some leaf =>
      constructor
      · exact fun hs => ⟨leaf, rfl, hs⟩
      · rintro ⟨leaf', hleaf', hs⟩
        cases hleaf'
        exact hs
  refine ⟨result, buffer', fun locate hlocate => ?_, hserved, fun htrue b' hb' => ?_⟩
  · rw [← h.replicas_answers, readRoot_eq hpos hsize hplan.ends hn hversion hguard hlen hlocate]
    rw [readRoot_eq hpos hsize hplan.ends hn hversion hguard hlen rfl] at hread
    exact hread
  · have hfirst : offset / root.pageSize ≤ (offset + b') / root.pageSize :=
      Nat.div_le_div_right (Nat.le_add_right _ _)
    have hindex : (offset + b') / root.pageSize - offset / root.pageSize <
        leafCount root.pageSize offset size := by
      have hlast : (offset + b') / root.pageSize ≤ (offset + size - 1) / root.pageSize :=
        Nat.div_le_div_right (by omega)
      rw [leafCount_eq hpos hsize hplan.ends, touchedPages]
      omega
    obtain ⟨r, hr, hleaf⟩ := hplan.asked _ hindex
    obtain ⟨leaf, hpage, -⟩ := hserved.mp htrue r hr
    rw [hleaf, Nat.add_sub_cancel' hfirst] at hpage
    have hvadv_at : vadv.getD ((offset + b') / root.pageSize - offset / root.pageSize) {} = leaf := by
      have hrange := pageLeaf_range (pageMap s.world.dht root) (a := offset / root.pageSize)
        (hplan.leaf r hr)
      rw [hvadv, pageLeaf, hleaf, Nat.add_sub_cancel' hfirst, hpage] at hrange
      exact hrange
    rw [h.byteAt_content hM rfl hpage hpage, hbytes htrue b' hb', rightByte, hvadv_at]
    rfl

/-- **Reads of published versions.** In every run, for a version that is published in the state `s₀`
and a range within its tree: a read that is made at the same time as anything else, up to the state
`s`, with any of its gets and of its calls failing, ends with a result. When that is `true` the buffer
has the bytes of the version, every page of the range is written and has been answered for by a
provider. When no get fails, that is enough for it to be `true`. -/
theorem read_published {retryCount : Nat} {seq : Nat → Bool} {s₀ s : Writers}
    {as bs : List WriterAction} (hrun : Run (Writers.step retryCount) (Writers.Sound seq) {} as s₀)
    (hlater : Run (Writers.step retryCount) (Writers.Sound seq) s₀ bs s) {id : Nat} {o : ObjInfo}
    (ho : s₀.world.hist.vm.objHash id = some o) {v : Nat} {root : Root} (hr : o.roots[v]? = some root)
    (hshort : root.pageSize < 2 ^ 32) {version offset size : Nat} (hversion : version ≤ root.node.version)
    (hsize : 0 < size) (hguard : offset + size ≤ root.node.size)
    (hn : touchedPages root.pageSize offset size < 2 ^ 32) {dhts : Nat → Dht}
    (hle : ∀ n, DhtLe (dhts n) s.world.dht) (sched : Nat → Nat)
    (fails : ProviderDesc → Bool → List ReadParam → Bool) (rand : Nat → Nat → Nat)
    (buffer : Nat → UInt8) :
    ∃ fuel0 result buffer', (∀ fuel, fuel0 ≤ fuel →
        readRoot (s.failing fails) rand (readRecordLocations dhts sched fuel) root version offset size
          buffer = some (.returned result buffer')) ∧
      ReadsVersion s₀ (s.failing fails) rand dhts root offset size result buffer' := by
  obtain ⟨base₀, h₀, -⟩ := (Backed.empty retryCount seq).run hrun
  obtain ⟨base, h, hl⟩ := h₀.run hlater
  obtain ⟨o', ho', hr', hmap⟩ := h₀.world.pageMap_later h.world hl.world ho hr
  have hpages := h.world.pageMap_eq ho' hr'
  obtain ⟨-, (⟨hzero, -⟩ | ⟨M, hM⟩)⟩ := h.world.root_denotes ho' hr'
  · omega
  rw [← h.world.pageSize_eq ho' hr', ← hpages] at hM
  obtain ⟨b, hplan⟩ := plannedRead hM hsize hguard hn
  obtain ⟨range, hrange⟩ : ∃ range : Query, range = ⟨root.node.id, root.node.version,
      newOffset root.pageSize offset,
      u64 (leafCount root.pageSize offset size * root.pageSize)⟩ := ⟨_, rfl⟩
  have hoff : range.offset = newOffset root.pageSize offset := congrArg Query.offset hrange
  have hbytes : range.size = _ := (congrArg Query.size hrange).trans hplan.bytes
  obtain ⟨fuel0, found, leaves, hread, hleaves⟩ := readRecordLocations_ends h.world.noZero
    hM.pageSize_pos hplan.first hplan.bound hplan.few hoff hbytes hM.denotes hM.size hM.bound hplan.last
    rfl hle sched
  rw [← hplan.count] at hread hleaves
  have hsame : AllServed s₀ (s.failing fails) rand root offset size ↔
      AllServed s (s.failing fails) rand root offset size := by
    unfold AllServed
    rw [hmap]
  cases found with
  | false =>
    refine ⟨fuel0, false, buffer, fun fuel hfuel => readRoot_not_found hM.pageSize_pos hplan.ends hversion
      hguard (hrange ▸ hread fuel hfuel) buffer, fun h0 => absurd h0 Bool.false_ne_true,
      fun h0 => absurd h0 Bool.false_ne_true, fun hall hserved => ?_⟩
    -- the gets find every page when none of them fails
    have hwritten : ∀ x, offset / root.pageSize ≤ x →
        x < offset / root.pageSize + leafCount root.pageSize offset size →
        snapshotAt (base₀ id) (s₀.world.tickets id) v x ≠ none := by
      intro x h1 h2
      obtain ⟨r, hmem, hleaf⟩ := hplan.asked (x - offset / root.pageSize) (by omega)
      obtain ⟨leaf, hpage, -⟩ := hserved r hmem
      rw [hleaf, Nat.add_sub_cancel' h1, h₀.world.pageMap_eq ho hr] at hpage
      rw [hpage]
      exact Option.some_ne_none leaf
    have hcount := hplan.count
    have hfirst := hplan.first
    have hfew := hplan.few
    obtain ⟨fuel1, hread'⟩ := h₀.world.read ho hr (by omega) (by omega) hwritten hall sched
      hoff (hbytes.trans (congrArg (· * root.pageSize) hcount.symm))
    have h1 := hread (max fuel0 fuel1) (Nat.le_max_left _ _)
    rw [hread' (max fuel0 fuel1) (Nat.le_max_right _ _)] at h1
    cases h1
  | true =>
    obtain ⟨result, buffer', hresult, hserved, hbytes⟩ := h.readRoot_found hshort hM hversion hsize hguard
      hn hplan fails rand buffer
    refine ⟨fuel0, result, buffer', fun fuel hfuel => hresult _ ?_, fun htrue b' hb' => ?_,
      fun htrue => hsame.mpr (hserved.mp htrue), fun _ hall => hserved.mpr (hsame.mp hall)⟩
    · rw [← hrange, hread fuel hfuel, hleaves rfl]
    · rw [← hbytes htrue b' hb']
      exact (h₀.byteAt_later h hl ho hr _).symm

/-- Two bytes of each page of version `2`, which are of different writes. -/
theorem read_published_concurrent :
    ∃ s o root buffer', Run (Writers.step 1) (Writers.Sound fun _ => false) {} concurrentWrites s ∧
      s.world.hist.vm.objHash 1 = some o ∧ o.roots[2]? = some root ∧
      (∃ fuel0, ∀ fuel, fuel0 ≤ fuel → readRoot (s.failing fun _ _ _ => false) (fun _ _ => 0)
        (readRecordLocations (fun _ => s.world.dht) (fun _ => 0) fuel) root 2 2 4 (fun _ => 0) =
          some (.returned true buffer')) ∧
      buffer' 1 = 1 ∧ buffer' 2 = 2 := by
  have hrun : Run (Writers.step 1) (Writers.Sound fun _ => false) {} concurrentWrites _ :=
    Run.of_isSome {} (by decide +kernel)
  generalize hs : (exec (Writers.step 1) (Writers.Sound fun _ => false) {} concurrentWrites).getD {} = s
    at hrun
  have hblob : ∃ o ∈ s.world.hist.vm.objHash 1, ∃ root ∈ o.roots[2]?, 2 ≤ root.node.version ∧
      root.node.size = 8 ∧ root.pageSize = 4 ∧ s.byteAt root 3 = some 1 ∧ s.byteAt root 4 = some 2 ∧
      ∀ r ∈ readPlan root.pageSize 2 4, ∃ leaf ∈ pageMap s.world.dht root (2 / root.pageSize + r.leaf),
        Served (s.failing fun _ _ _ => false) (fun _ _ => 0) r leaf := by
    rw [← hs]
    decide +kernel
  obtain ⟨o, ho, root, hr, hversion, hnode, hps, hfirst, hsecond, hserved⟩ := hblob
  have htouched : touchedPages root.pageSize 2 4 < 2 ^ 32 := by
    rw [hps]
    decide
  have hshort : root.pageSize < 2 ^ 32 := by
    rw [hps]
    decide
  have hsize : 0 < 4 := by decide
  have hguard : 2 + 4 ≤ root.node.size := by
    rw [hnode]
    decide
  have hle : ∀ n, DhtLe ((fun _ => s.world.dht : Nat → Dht) n) s.world.dht := fun _ => DhtLe.refl _
  obtain ⟨fuel0, result, buffer', hread, hreads⟩ := read_published hrun (.nil s) ho hr hshort hversion
    hsize hguard htouched hle (fun _ => 0) (fun _ _ _ => false) (fun _ _ => 0) (fun _ => 0)
  have htrue : result = true := hreads.succeeds (fun _ => DhtLe.refl _) hserved
  have hbyte := hreads.bytes htrue
  have h1 := hbyte 1 (by decide)
  have h2 := hbyte 2 (by decide)
  rw [hfirst, Option.some.injEq] at h1
  rw [hsecond, Option.some.injEq] at h2
  rw [htrue] at hread
  exact ⟨s, o, root, buffer', hrun, ho, hr, ⟨fuel0, hread⟩, h1.symm, h2.symm⟩

end Writers

end BlobSeer
