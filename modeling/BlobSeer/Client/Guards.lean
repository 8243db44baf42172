import BlobSeer.Client.Locations
import BlobSeer.Client.ReadPlan
import BlobSeer.RangeQuery.Walk
import BlobSeer.World.Versions

/-!
# The guards of a read

`read` and `get_locations` check the version, the page size and the end of the range before they look up
any leaf. These checks are enough for the accesses to `vadv` and for the leaf indices of the walk,
unless the 64-bit sum of offset and size wraps around, or the range is empty and starts with a page
(`read_guards_iff`).

An empty range at the start of a page has no leaves. The walk goes down to that page nevertheless, since
`intersects` calls an empty range at the first byte of a node an intersection, and `read` takes the empty
range for one that ends inside a page, so it decrements `r` from `0`.
-/

namespace BlobSeer

open Lib

/-- The DHT holds the tree of a version, which need not have all pages. An empty version has none. -/
structure HoldsTree (dht : Dht) (root : Root) : Prop where
  noZero : NoZero dht
  denotes : ∃ m, RootDenotes dht root.pageSize m root
  empty : root.node.size = 0 → dht root.node = none

/-- What the checks are for, with the indices that are used on a vector of so many leaves. -/
structure Guarded (dht : Dht) (root : Root) (offset size : Nat) (indices : Nat → List Nat) : Prop where
  bound : offset + size ≤ root.node.size
  leaves : ∀ {r}, Walk dht (readRange root offset size) root (leafCount root.pageSize offset size) r →
    ∀ key index, ReadRequest.leaf key index ∈ r.pending → index < r.leaves.length
  vadv : ∀ {r}, Walk dht (readRange root offset size) root (leafCount root.pageSize offset size) r →
    r.pending = [] → r.result = true → ∀ i ∈ indices r.leaves.length, i < r.leaves.length

/-- The indices that `read` uses: `0`, the decremented `r`, and those from `l` to `r`. -/
def readIndices (psize offset size : Nat) : Nat → List Nat := fun _ =>
  (readPlan psize offset size).map PageRead.leaf

/-- The range is empty and starts with a page. -/
def EmptyAtPage (psize offset size : Nat) : Prop := size = 0 ∧ offset % psize = 0

instance (psize offset size : Nat) : Decidable (EmptyAtPage psize offset size) :=
  inferInstanceAs (Decidable (_ ∧ _))

/-! ## The checks -/

section checks

variable {rand : Nat → Nat → Nat}
  {locate : Nat → Query → Root → Option (Bool × List RandomSelect)} {root : Root}
  {version offset size : Nat}

/-- `get_locations` throws if and only if one of the checks fails. -/
theorem locationsRoot_threw_iff :
    (∃ what, locationsRoot rand locate root version offset size = some (.threw what)) ↔
      ¬ root.Passes version offset size := by
  unfold locationsRoot
  dsimp only
  refine Root.checks_iff (P := fun x => ∃ what, x = some (LocationsResult.threw what))
    ⟨_, rfl⟩ ⟨_, rfl⟩ ⟨_, rfl⟩ ?_
  rintro ⟨what, h⟩
  split at h
  · cases h
  · cases h
  · cases h

theorem dispatchReads_none {vadv : List RandomSelect} {plan : List PageRead}
    (h : dispatchReads rand vadv plan = none) : ∃ p ∈ plan, vadv.length ≤ p.leaf := by
  induction plan with
  | nil => cases h
  | cons p plan ih =>
    unfold dispatchReads at h
    split at h
    · next hnone => exact ⟨p, List.mem_cons_self, List.getElem?_eq_none_iff.mp hnone⟩
    · split at h
      · cases h
      · obtain ⟨p', hp', hlen⟩ := ih h
        exact ⟨p', List.mem_cons_of_mem _ hp', hlen⟩

/-- A read whose indices are guarded does not go past the end of the leaves. -/
theorem Guarded.defined {dht : Dht} (h : Guarded dht root offset size
      (readIndices root.pageSize offset size))
    {dhts : Nat → Dht} (hle : ∀ n, DhtLe (dhts n) dht) (sched : Nat → Nat) (fuel : Nat)
    (answers : Answers) (buffer : Nat → UInt8) :
    readRoot answers rand (readRecordLocations dhts sched fuel) root version offset size buffer ≠
      some .undefined := by
  intro hundef
  unfold readRoot at hundef
  dsimp only at hundef
  split at hundef
  · cases hundef
  split at hundef
  · cases hundef
  split at hundef
  · cases hundef
  split at hundef
  · cases hundef
  · cases hundef
  · next vadv hlocate =>
    split at hundef
    · next hnone =>
      obtain ⟨r, hwalk, hpending, hresult, rfl⟩ := readRecordLocations_walk hle hlocate
      obtain ⟨p, hp, hlen⟩ := dispatchReads_none hnone
      have hlt := h.vadv hwalk hpending hresult p.leaf (List.mem_map_of_mem hp)
      omega
    · cases hundef
    · cases hundef

end checks

/-! ## The number of leaves -/

section count

variable {psize offset size : Nat} (hps : 0 < psize)

include hps

/-- An empty range has one leaf, or none at the start of a page. -/
theorem leafCount_empty (hoffset : offset < 2 ^ 64) :
    leafCount psize offset 0 = if offset % psize = 0 then 0 else 1 := by
  have hnew : newOffset psize offset ≤ offset := Nat.div_mul_le_self offset psize
  have hsub : offset - newOffset psize offset = offset % psize := by
    have hdiv := Nat.div_add_mod' offset psize
    rw [newOffset]
    omega
  rw [leafCount, Nat.zero_add, Nat.add_zero, u64_of_lt hoffset, sub64_of_le hnew hoffset, hsub,
    Nat.div_eq_of_lt (Nat.mod_lt _ hps), Nat.zero_add]
  split <;> rfl

/-- The pages of a range inside a tree of `2 ^ M` pages. -/
theorem pages_of_range {M : Nat} (hM : psize * 2 ^ M < 2 ^ 64) (hbound : offset + size ≤ psize * 2 ^ M)
    (hrange : ¬ EmptyAtPage psize offset size) :
    ∃ b, offset / psize ≤ b ∧ b < 2 ^ M ∧
      leafCount psize offset size = b + 1 - offset / psize := by
  rcases Nat.eq_zero_or_pos size with rfl | hsize
  · -- the byte behind an unaligned empty range is in the tree
    have hmod : offset % psize ≠ 0 := fun hmod => hrange ⟨rfl, hmod⟩
    have hne : offset ≠ psize * 2 ^ M := by
      rintro rfl
      exact hmod (Nat.mul_mod_right _ _)
    refine ⟨offset / psize, Nat.le_refl _, Nat.div_lt_of_lt_mul (by omega), ?_⟩
    rw [leafCount_empty hps (by omega), if_neg hmod]
    omega
  · refine ⟨(offset + size - 1) / psize, Nat.div_le_div_right (by omega),
      Nat.div_lt_of_lt_mul (by omega), ?_⟩
    exact leafCount_eq hps hsize (by omega)

/-- `r` is only decremented when there is a leaf. -/
theorem count_pos_of_readsRight (hend : offset + size < 2 ^ 64)
    (hrange : ¬ EmptyAtPage psize offset size) (hright : readsRight psize offset size = true) :
    0 < u32 (leafCount psize offset size) := by
  rw [readsRight, decide_eq_true_eq] at hright
  rcases hright with ⟨-, hone⟩ | ⟨hmod, hlt⟩
  · exact Nat.zero_lt_of_lt hone
  · have hsize : 0 < size := by
      apply Nat.pos_of_ne_zero
      intro hzero
      exact hrange ⟨hzero, hmod⟩
    have hlast : (offset + size - 1) / psize = offset / psize := by
      have hdiv := Nat.div_add_mod' offset psize
      have hsum : offset + size - 1 = size - 1 + offset / psize * psize := by omega
      rw [hsum, Nat.add_mul_div_right _ _ hps, Nat.div_eq_of_lt (by omega), Nat.zero_add]
    rw [leafCount_eq hps hsize hend, touchedPages, hlast, Nat.add_sub_cancel_left]
    decide

omit hps in
/-- The whole pages end with `r`, which is not more than the number of leaves, though a 32-bit number. -/
theorem rightEnd_le (hpos : readsRight psize offset size = true →
      0 < u32 (leafCount psize offset size)) :
    rightEnd psize offset size ≤ leafCount psize offset size ∧
      (readsRight psize offset size = true →
        rightEnd psize offset size < leafCount psize offset size) := by
  have hle : u32 (leafCount psize offset size) ≤ leafCount psize offset size := Nat.mod_le _ _
  have hlt : u32 (leafCount psize offset size) < 2 ^ 32 := Nat.mod_lt _ (Nat.two_pow_pos 32)
  rw [rightEnd]
  split
  · next hright =>
    have hpos := hpos hright
    have hdec : u32 (u32 (leafCount psize offset size) + (2 ^ 32 - 1)) =
        u32 (leafCount psize offset size) - 1 := by
      generalize u32 (leafCount psize offset size) = c at hpos hlt
      unfold u32
      omega
    rw [hdec]
    omega
  · next hright => exact ⟨hle, fun h => absurd h hright⟩

/-- The indices that `read` uses are below the number of leaves. -/
theorem readPlan_lt (hend : offset + size < 2 ^ 64) (hrange : ¬ EmptyAtPage psize offset size)
    (hpos : 0 < leafCount psize offset size) :
    ∀ i ∈ (readPlan psize offset size).map PageRead.leaf, i < leafCount psize offset size := by
  obtain ⟨hle, hlt⟩ := rightEnd_le fun hright => count_pos_of_readsRight hps hend hrange hright
  intro i hi
  obtain ⟨p, hp, rfl⟩ := List.mem_map.mp hi
  rw [(readPlan_perm psize offset size).mem_iff, List.mem_append, List.mem_append] at hp
  obtain (hp | hp) | hp := hp
  · unfold leftReads at hp
    split at hp
    · cases List.mem_singleton.mp hp
      exact hpos
    · cases hp
  · obtain ⟨k, hk, rfl⟩ := List.mem_map.mp hp
    obtain ⟨hfirst, hlast⟩ := List.mem_range'_1.mp hk
    dsimp only
    omega
  · unfold rightReads at hp
    split at hp
    · next hright =>
      cases List.mem_singleton.mp hp
      exact hlt hright
    · cases hp

end count

/-! ## Where the checks are enough -/

section enough

variable {dht : Dht} {root : Root} {version offset size : Nat} {indices : Nat → List Nat}

/-- A range that has pages. -/
theorem HoldsTree.guarded (h : HoldsTree dht root) (hpass : root.Passes version offset size)
    (hend : offset + size < 2 ^ 64) (hrange : ¬ EmptyAtPage root.pageSize offset size)
    (hindices : 0 < leafCount root.pageSize offset size →
      ∀ i ∈ indices (leafCount root.pageSize offset size), i < leafCount root.pageSize offset size) :
    Guarded dht root offset size indices := by
  have hps := Nat.pos_of_ne_zero hpass.allocated
  have hbound := hpass.within
  rw [u64_of_lt hend] at hbound
  obtain ⟨m, -, (⟨hsize, -⟩ | ⟨M, hM⟩)⟩ := h.denotes
  · refine absurd ⟨by omega, ?_⟩ hrange
    have hzero : offset = 0 := by omega
    rw [hzero, Nat.zero_mod]
  · obtain ⟨b, hab, hbM, hcount⟩ := pages_of_range hps hM.bound (hM.size ▸ hbound) hrange
    have hb : (b + 1) * root.pageSize < 2 ^ 64 := by
      refine Nat.lt_of_le_of_lt ?_ hM.bound
      rw [Nat.mul_comm root.pageSize]
      exact Nat.mul_le_mul_right _ hbM
    have hsize : (readRange root offset size).size =
        (b + 1 - offset / root.pageSize) * root.pageSize := by
      rw [readRange, hcount]
      refine u64_of_lt (Nat.lt_of_le_of_lt ?_ hb)
      exact Nat.mul_le_mul_right _ (Nat.sub_le _ _)
    have hwalk := fun {r} (hr : Walk dht (readRange root offset size) root
        (leafCount root.pageSize offset size) r) =>
      walk_leaf_lt h.noZero hps hab hb rfl hsize hM.denotes rfl hM.bound hbM (hcount ▸ hr)
    refine ⟨hbound, fun hr => (hwalk hr).2, fun hr _ _ => ?_⟩
    rw [(hwalk hr).1, ← hcount]
    exact hindices (by omega)

/-- A version without a tree: the walk fails at once. -/
theorem HoldsTree.guarded_empty (h : HoldsTree dht root) (hbound : offset + size ≤ root.node.size)
    (hroot : root.node.size = 0) : Guarded dht root offset size indices := by
  have hnone := h.empty hroot
  refine ⟨hbound, fun hr key index hmem => ?_, fun hr hpending hresult => ?_⟩
  · have hnode : ∀ node, dht root.node = some (.node node) →
        nodeRequests (readRange root offset size) root.pageSize 0 node = [] := by
      intro node hsome
      rw [hnone] at hsome
      cases hsome
    rcases (walk_root_only hnode hr).2 with hpending | hpending
    · rw [hpending, List.mem_singleton] at hmem
      cases hmem
    · rw [hpending] at hmem
      cases hmem
  · rcases walk_no_root hnone hr with hstart | hfailed
    · rw [hpending] at hstart
      cases hstart
    · rw [hresult] at hfailed
      cases hfailed

end enough

/-! ## A tree with all pages -/

/-- The tree of a version all of whose pages are written. A page has the key of a node of size `0`. -/
def fullTree (root : Root) : Dht := fun key =>
  if key.id = root.node.id ∧ key.version = root.node.version then
    if key.size = 0 then some (.providers [])
    else if key.size = root.pageSize then
      some (.node { isLeaf := true, left :=
        { key with offset := key.offset / root.pageSize, size := 0 } })
    else some (.node ⟨false, { key with size := key.size / 2 },
      { key with offset := key.offset + key.size / 2, size := key.size / 2 }⟩)
  else none

/-- The pages of a full tree of `2 ^ M` pages. -/
def fullPages (root : Root) (M : Nat) : PageMap := fun x =>
  if x < 2 ^ M then some ⟨⟨root.node.id, root.node.version, x, 0⟩, []⟩ else none

theorem fullTree_denotes {root : Root} {M : Nat} (hps : 0 < root.pageSize) :
    ∀ {i j : Nat}, i ≤ M → j < 2 ^ (M - i) → Denotes (fullTree root) root.pageSize (fullPages root M) i j
      (nodeAt root.node.id root.node.version root.pageSize i j) := by
  intro i
  induction i with
  | zero =>
    intro j _ hj
    refine .leaf ?_ ?_ (if_pos hj)
    · simp only [fullTree, nodeAt, Nat.pow_zero, Nat.mul_one, and_self, if_true,
        Nat.mul_div_cancel _ hps]
      rw [if_neg hps.ne']
    · simp only [fullTree, and_self, if_true]
  | succ i ih =>
    intro j hi hj
    have hpos : 0 < root.pageSize * 2 ^ i := Nat.mul_pos hps (Nat.two_pow_pos i)
    have hne : ¬ 2 * (root.pageSize * 2 ^ i) = root.pageSize := by
      have hle : root.pageSize ≤ root.pageSize * 2 ^ i :=
        Nat.le_mul_of_pos_right _ (Nat.two_pow_pos i)
      omega
    have hhalf : 2 ^ (M - i) = 2 * 2 ^ (M - (i + 1)) := by
      rw [← Nat.pow_succ']
      congr 1
      omega
    refine .inner ?_ (ih (by omega) (j := 2 * j) (by omega)) (ih (by omega) (j := 2 * j + 1) (by omega))
    have hright : j * (2 * (root.pageSize * 2 ^ i)) + root.pageSize * 2 ^ i =
        (2 * j + 1) * (root.pageSize * 2 ^ i) := by ring
    have hleft : j * (2 * (root.pageSize * 2 ^ i)) = 2 * j * (root.pageSize * 2 ^ i) := by ring
    simp only [fullTree, nodeAt, span_succ, and_self, if_true, if_neg hne,
      Nat.mul_div_cancel_left _ Nat.two_pos]
    rw [if_neg (by omega), hright, hleft]

theorem fullTree_holds {root : Root} {M : Nat} (hps : 0 < root.pageSize) (hid : root.node.id ≠ 0)
    (hoffset : root.node.offset = 0) (hsize : root.node.size = root.pageSize * 2 ^ M)
    (hM : root.pageSize * 2 ^ M < 2 ^ 64) :
    TreeDenotes (fullTree root) root.pageSize (fullPages root M) M root ∧
      HoldsTree (fullTree root) root := by
  have hnode : root.node = nodeAt root.node.id root.node.version root.pageSize M 0 := by
    rw [nodeAt, Nat.zero_mul, ← hsize, ← hoffset]
  have hdenotes := fullTree_denotes (M := M) hps (Nat.le_refl M) (j := 0) (Nat.two_pow_pos _)
  rw [← hnode] at hdenotes
  have htree : TreeDenotes (fullTree root) root.pageSize (fullPages root M) M root :=
    ⟨hps, hsize, hM, hdenotes, fun x hx => if_neg (Nat.not_lt.mpr hx), 0, by
      rw [fullPages, if_pos (Nat.two_pow_pos M)]
      exact Option.some_ne_none _⟩
  refine ⟨htree, fun key hkey => ?_, ⟨_, hoffset, .inr ⟨M, htree⟩⟩, fun hzero => ?_⟩
  · apply if_neg
    rintro ⟨h, -⟩
    rw [hkey] at h
    exact hid h.symm
  · have hpos : 0 < root.pageSize * 2 ^ M := Nat.mul_pos hps (Nat.two_pow_pos M)
    omega

/-! ## Empty ranges at the start of a page -/

section empty

variable {dht : Dht} {root : Root} {m : PageMap} {M offset : Nat}

/-- The range is empty, and there is no leaf for it. -/
theorem emptyRange (hps : 0 < root.pageSize) (hoffset : offset < 2 ^ 64)
    (hmod : offset % root.pageSize = 0) :
    leafCount root.pageSize offset 0 = 0 ∧ (readRange root offset 0).size = 0 := by
  have hcount : leafCount root.pageSize offset 0 = 0 := by
    rw [leafCount_empty hps hoffset, if_pos hmod]
  refine ⟨hcount, ?_⟩
  rw [readRange, hcount, Nat.zero_mul]
  rfl

/-- The root of a tree is there. -/
theorem TreeDenotes.found (h : TreeDenotes dht root.pageSize m M root) :
    ∃ node, dht root.node = some (.node node) ∧ (node.isLeaf = true ↔ M = 0) := by
  obtain ⟨x, hx⟩ := h.nonempty
  have hlt : x < 2 ^ M := by
    by_contra hge
    exact hx (h.support x (Nat.not_lt.mp hge))
  have hdenotes := h.denotes
  generalize root.node = key at hdenotes
  cases hdenotes with
  | hole _ hm => exact absurd (hm x (Nat.div_eq_of_lt hlt)) hx
  | leaf hp _ _ => exact ⟨_, hp, iff_of_true rfl rfl⟩
  | inner hp _ _ => exact ⟨_, hp, iff_of_false Bool.false_ne_true (Nat.succ_ne_zero _)⟩

/-- The walk asks for a leaf, though there is none in `vadv`, if the page is written or the tree has one
page. -/
theorem empty_walk_leaf (h : TreeDenotes dht root.pageSize m M root)
    (hmod : offset % root.pageSize = 0) (hoffset : offset < 2 ^ 64)
    (hpage : m (offset / root.pageSize) ≠ none ∨ root.node.size = root.pageSize) :
    ∃ r, Walk dht (readRange root offset 0) root (leafCount root.pageSize offset 0) r ∧
      r.leaves = [] ∧ ∃ key index, ReadRequest.leaf key index ∈ r.pending := by
  have hps := h.pageSize_pos
  have hM := h.bound
  obtain ⟨hcount, hsize⟩ := emptyRange hps hoffset hmod
  rw [hcount]
  rcases hpage with ha | hone
  · have hlt : offset / root.pageSize < 2 ^ M := by
      by_contra hge
      exact ha (h.support _ (Nat.not_lt.mp hge))
    have hpending : (Reader.start root 0).pending =
        [.node root.node (0 * (root.pageSize * 2 ^ M))] := by
      rw [Nat.zero_mul]
      rfl
    have hoff : (readRange root offset 0).offset = offset / root.pageSize * root.pageSize := rfl
    obtain ⟨as, r, key, index, hrun, hleaf, hleaves⟩ :=
      h.denotes.walk_down hps hoff hsize ha (Nat.div_eq_of_lt hlt) (by omega)
        (r := Reader.start root 0) rfl hpending
    exact ⟨r, ⟨as, hrun⟩, hleaves, key, index, hleaf⟩
  · have hzero : M = 0 := by
      rw [h.size] at hone
      exact span_inj hps (hone.trans (Nat.mul_one _).symm)
    obtain ⟨node, hnode, hleaf⟩ := h.found
    have hstep := Reader.step_single (r := Reader.start root 0) rfl rfl hnode
      (readRange root offset 0) root.pageSize
    rw [nodeRequests, if_pos (hleaf.mpr hzero)] at hstep
    exact ⟨_, ⟨_, .single (DhtLe.refl dht) hstep⟩, rfl, _, _, List.mem_singleton_self _⟩

/-- An empty range behind the last page of more than one. -/
theorem empty_at_end (h : TreeDenotes dht root.pageSize m M root) (hz : NoZero dht)
    (hend : offset = root.node.size) (hlt : root.pageSize < root.node.size) :
    ∀ node, dht root.node = some (.node node) →
      nodeRequests (readRange root offset 0) root.pageSize 0 node = [] := by
  have hps := h.pageSize_pos
  obtain ⟨M, rfl⟩ : ∃ k, M = k + 1 := by
    refine ⟨M - 1, ?_⟩
    have hpos : M ≠ 0 := by
      rintro rfl
      rw [h.size, Nat.pow_zero, Nat.mul_one] at hlt
      exact Nat.lt_irrefl _ hlt
    omega
  have hbound := h.bound
  have hoffset : offset = root.pageSize * 2 ^ (M + 1) := hend.trans h.size
  have hdiv : offset / root.pageSize = 2 ^ (M + 1) := by
    rw [hoffset, Nat.mul_div_cancel_left _ hps]
  obtain ⟨-, hsize⟩ := emptyRange hps (by omega) (hoffset ▸ Nat.mul_mod_right _ _)
  intro node hnode
  exact h.denotes.requests_end hps rfl hsize hdiv hbound hz hnode 0

/-- `read` decrements `r` from `0`. -/
theorem exists_readIndex {psize : Nat} (hps : 0 < psize) (hmod : offset % psize = 0) (n : Nat) :
    ∃ i, i ∈ readIndices psize offset 0 n := by
  have hright : readsRight psize offset 0 = true := by
    rw [readsRight, decide_eq_true_eq]
    exact .inr ⟨hmod, hps⟩
  have hmem : ∃ p, p ∈ readPlan psize offset 0 := by
    simp only [(readPlan_perm psize offset 0).mem_iff, List.mem_append, rightReads, if_pos hright]
    exact ⟨_, .inr (List.mem_singleton_self _)⟩
  obtain ⟨p, hp⟩ := hmem
  exact ⟨p.leaf, List.mem_map_of_mem hp⟩

/-- Behind the last page of more than one, the walk of `read` succeeds without a leaf, and `r` is
decremented. -/
theorem TreeDenotes.not_guarded_at_end (h : TreeDenotes dht root.pageSize m M root) (hz : NoZero dht)
    (hmod : offset % root.pageSize = 0) (hend : offset = root.node.size)
    (hlt : root.pageSize < root.node.size) :
    ¬ Guarded dht root offset 0 (readIndices root.pageSize offset 0) := by
  intro hguard
  have hbound := h.bound
  rw [← h.size, ← hend] at hbound
  obtain ⟨hcount, -⟩ := emptyRange h.pageSize_pos hbound hmod
  obtain ⟨node, hnode, -⟩ := h.found
  have hstep := Reader.step_single (r := Reader.start root 0) rfl rfl hnode
    (readRange root offset 0) root.pageSize
  rw [empty_at_end h hz hend hlt node hnode] at hstep
  obtain ⟨i, hi⟩ := exists_readIndex h.pageSize_pos hmod 0
  have hvadv := hguard.vadv (r := { Reader.start root 0 with pending := [] })
  rw [hcount] at hvadv
  exact Nat.not_lt_zero i (hvadv ⟨_, .single (DhtLe.refl dht) hstep⟩ rfl rfl i hi)

/-- There `get_locations` finds no leaves to list. -/
theorem TreeDenotes.guarded_at_end (h : TreeDenotes dht root.pageSize m M root) (hz : NoZero dht)
    (hend : offset = root.node.size) (hlt : root.pageSize < root.node.size) :
    Guarded dht root offset 0 List.range := by
  refine ⟨Nat.le_of_eq hend, fun hr key index hmem => ?_, fun _ _ _ i hi => List.mem_range.mp hi⟩
  rcases (walk_root_only (empty_at_end h hz hend hlt) hr).2 with hpending | hpending
  · rw [hpending, List.mem_singleton] at hmem
    cases hmem
  · rw [hpending] at hmem
    cases hmem

end empty

/-! ## When the checks are enough -/

section guards

variable {root : Root} {version offset size : Nat} {indices : Nat → List Nat}

/-- What the tree of a version that is not empty looks like. -/
theorem HoldsTree.shape {dht : Dht} (h : HoldsTree dht root) (hsize : root.node.size ≠ 0) :
    0 < root.pageSize ∧ root.node.id ≠ 0 ∧ root.node.offset = 0 ∧
      ∃ M, root.node.size = root.pageSize * 2 ^ M ∧ root.pageSize * 2 ^ M < 2 ^ 64 := by
  obtain ⟨m, hoffset, (⟨hzero, -⟩ | ⟨M, hM⟩)⟩ := h.denotes
  · exact absurd hzero hsize
  refine ⟨hM.pageSize_pos, ?_, hoffset, M, hM.size, hM.bound⟩
  intro hid
  obtain ⟨node, hnode, -⟩ := hM.found
  rw [h.noZero root.node hid] at hnode
  cases hnode

theorem HoldsTree.size_lt {dht : Dht} (h : HoldsTree dht root) : root.node.size < 2 ^ 64 := by
  obtain ⟨m, -, (⟨hzero, -⟩ | ⟨M, hM⟩)⟩ := h.denotes
  · rw [hzero]
    exact Nat.two_pow_pos 64
  · rw [hM.size]
    exact hM.bound

/-- When the checks are enough for every tree, an empty range at the start of a page is behind the last of
several pages, or the version is empty. -/
theorem empty_range_of_guarded (hstored : ∃ dht, HoldsTree dht root)
    (h : ∀ dht, HoldsTree dht root → Guarded dht root offset size indices)
    (hempty : EmptyAtPage root.pageSize offset size) :
    root.node.size = 0 ∨ offset = root.node.size ∧ root.pageSize < root.node.size := by
  by_cases hzero : root.node.size = 0
  · exact .inl hzero
  obtain ⟨dht, hdht⟩ := hstored
  obtain ⟨hps, hid, hoff, M, hsize, hM⟩ := hdht.shape hzero
  obtain ⟨htree, hholds⟩ := fullTree_holds hps hid hoff hsize hM
  have hguard := h _ hholds
  obtain ⟨rfl, hmod⟩ := hempty
  have hbound : offset ≤ root.pageSize * 2 ^ M := hsize ▸ hguard.bound
  by_contra hno
  have hpage : fullPages root M (offset / root.pageSize) ≠ none ∨ root.node.size = root.pageSize := by
    by_cases hend : offset = root.node.size
    · right
      have hpow : root.pageSize * 1 ≤ root.pageSize * 2 ^ M :=
        Nat.mul_le_mul_left _ (Nat.two_pow_pos M)
      omega
    · left
      rw [fullPages, if_pos (Nat.div_lt_of_lt_mul (by omega))]
      exact Option.some_ne_none _
  obtain ⟨r, hwalk, hleaves, key, index, hleaf⟩ := empty_walk_leaf htree hmod (by omega) hpage
  have hlt := hguard.leaves hwalk key index hleaf
  rw [hleaves] at hlt
  cases hlt

/-- **The guards of a read.** For the root of any version, and all trees that the DHT may hold for it: when
the three checks are passed, they are enough for `read` if and only if the sum of offset and size does
not wrap around, and the range is not an empty one at the start of a page, except in an empty version.
The same holds for `get_locations`, except that it may also be given the empty range behind the last of
several pages. -/
theorem read_guards_iff (hstored : ∃ dht, HoldsTree dht root)
    (hpass : root.Passes version offset size) :
    ((∀ dht, HoldsTree dht root →
        Guarded dht root offset size (readIndices root.pageSize offset size)) ↔
      offset + size < 2 ^ 64 ∧ (EmptyAtPage root.pageSize offset size → root.node.size = 0)) ∧
    ((∀ dht, HoldsTree dht root → Guarded dht root offset size List.range) ↔
      offset + size < 2 ^ 64 ∧ (EmptyAtPage root.pageSize offset size →
        root.node.size = 0 ∨ offset = root.node.size ∧ root.pageSize < root.node.size)) := by
  have hps := Nat.pos_of_ne_zero hpass.allocated
  have hnowrap : ∀ {indices}, (∀ dht, HoldsTree dht root → Guarded dht root offset size indices) →
      offset + size < 2 ^ 64 := by
    intro indices h
    obtain ⟨dht, hdht⟩ := hstored
    exact Nat.lt_of_le_of_lt (h dht hdht).bound hdht.size_lt
  have hbound : offset + size < 2 ^ 64 → offset + size ≤ root.node.size := by
    intro hend
    have hwithin := hpass.within
    rw [u64_of_lt hend] at hwithin
    exact hwithin
  refine ⟨⟨fun h => ⟨hnowrap h, fun hempty => ?_⟩, ?_⟩,
    ⟨fun h => ⟨hnowrap h, empty_range_of_guarded hstored h⟩, ?_⟩⟩
  · -- `read`: behind the last page the walk succeeds, and `r` is decremented
    rcases empty_range_of_guarded hstored h hempty with hzero | ⟨hend, hlt⟩
    · exact hzero
    exfalso
    obtain ⟨dht, hdht⟩ := hstored
    obtain ⟨hps, hid, hoff, M, hsize, hM⟩ := hdht.shape (by omega)
    obtain ⟨htree, hholds⟩ := fullTree_holds hps hid hoff hsize hM
    obtain ⟨rfl, hmod⟩ := hempty
    exact htree.not_guarded_at_end hholds.noZero hmod hend hlt (h _ hholds)
  · rintro ⟨hend, hempty⟩ dht hdht
    by_cases hrange : EmptyAtPage root.pageSize offset size
    · exact hdht.guarded_empty (hbound hend) (hempty hrange)
    · exact hdht.guarded hpass hend hrange fun hpos => readPlan_lt hps hend hrange hpos
  · rintro ⟨hend, hempty⟩ dht hdht
    by_cases hrange : EmptyAtPage root.pageSize offset size
    · rcases hempty hrange with hzero | ⟨hlast, hlt⟩
      · exact hdht.guarded_empty (hbound hend) hzero
      · obtain ⟨m, -, (⟨hzero, -⟩ | ⟨M, hM⟩)⟩ := hdht.denotes
        · exact hdht.guarded_empty (hbound hend) hzero
        · obtain ⟨rfl, -⟩ := hrange
          exact hM.guarded_at_end hdht.noZero hlast hlt
    · exact hdht.guarded hpass hend hrange fun _ i hi => List.mem_range.mp hi

end guards

/-- Version `1` of a blob with pages of four bytes, after a write of two pages. -/
def twoPages : Root := ⟨⟨1, 1, 0, 8⟩, 1, 8, 4⟩

theorem twoPages_holds : TreeDenotes (fullTree twoPages) 4 (fullPages twoPages 1) 1 twoPages ∧
    HoldsTree (fullTree twoPages) twoPages :=
  fullTree_holds (by decide) (by decide) rfl rfl (by decide)

/-- A read of four bytes that is unaligned at both ends. -/
theorem read_guards_unaligned : Guarded (fullTree twoPages) twoPages 3 4 (readIndices 4 3 4) :=
  (@read_guards_iff twoPages 1 3 4 ⟨_, twoPages_holds.2⟩ ⟨by decide, by decide, by decide⟩).1.mpr
    (by decide) _ twoPages_holds.2

/-- The checks are passed by a range that ends at `2 ^ 64`, and by an empty range, whose walk asks for a
leaf although there is none. -/
theorem guards_too_weak : HoldsTree (fullTree twoPages) twoPages ∧
    (twoPages.Passes 1 (2 ^ 64 - 4) 4 ∧
      ¬ Guarded (fullTree twoPages) twoPages (2 ^ 64 - 4) 4 (readIndices 4 (2 ^ 64 - 4) 4)) ∧
    twoPages.Passes 1 4 0 ∧ ¬ Guarded (fullTree twoPages) twoPages 4 0 (readIndices 4 4 0) := by
  refine ⟨twoPages_holds.2, ⟨⟨by decide, by decide, by decide⟩, fun h => ?_⟩,
    ⟨by decide, by decide, by decide⟩, fun h => ?_⟩
  · exact absurd h.bound (by decide)
  · have hmod : 4 % twoPages.pageSize = 0 := rfl
    obtain ⟨r, hwalk, hleaves, key, index, hleaf⟩ :=
      empty_walk_leaf twoPages_holds.1 hmod (by decide) (.inl (by decide))
    have hlt := h.leaves hwalk key index hleaf
    rw [hleaves] at hlt
    cases hlt

/-! ## The trees of published versions -/

/-- No entry of a write has a key of size `0`. -/
theorem Task.Entry.size_pos {T : Task} (hT : T.Shape) {k : Query} {v : DhtVal} (h : T.Entry k v) :
    0 < k.size := by
  rcases h with ⟨x, -, -, (⟨rfl, -⟩ | ⟨rfl, -⟩)⟩ | ⟨-, i, j, -, -, rfl, -⟩
  · exact hT.pageSize_pos
  · exact nodeAt_size_pos hT.pageSize_pos _ _ _ _
  · exact nodeAt_size_pos hT.pageSize_pos _ _ _ _

/-- In every run the DHT holds the trees of all published versions. -/
theorem World.Inv.holdsTree {seq : Nat → Bool} {base : Nat → PageMap} {w : World}
    (h : Inv seq base w) {id : Nat} {o : ObjInfo} (ho : w.hist.vm.objHash id = some o) {v : Nat}
    {root : Root} (hr : o.roots[v]? = some root) : HoldsTree w.dht root where
  noZero := h.noZero
  denotes := ⟨_, h.pageSize_eq ho hr ▸ h.root_denotes ho hr⟩
  empty := fun hzero => by
    by_contra hne
    obtain ⟨val, hval⟩ := Option.ne_none_iff_exists'.mp hne
    obtain ⟨t, T, hT, hentry⟩ := h.owner hval
    obtain ⟨o', -, hinfo⟩ := h.blob_of_task hT
    have hpos := hentry.size_pos hinfo.shape
    rw [hzero] at hpos
    exact Nat.lt_irrefl 0 hpos

end BlobSeer
