import BlobSeer.Lib.Dyadic
import BlobSeer.RangeQuery.Basic

/-!
# Tree positions as dyadic blocks

A node of level `i` covers `2 ^ i` pages, so its position is a dyadic block of pages (`nodeAt`).
In these terms the parent, the brother and the intersection tests of the source are halving,
`brother` and `Touches`, as long as the root stays below `2 ^ 64`, so that no 64-bit sum wraps.
-/

namespace BlobSeer

open Lib

/-- The node of a version at block `j` of level `i`, over pages of `ps` bytes. -/
def nodeAt (id version ps i j : Nat) : Query := ⟨id, version, j * (ps * 2 ^ i), ps * 2 ^ i⟩

/-- `n` neighbouring nodes of one level. -/
def nodesAt (id version ps i j n : Nat) : List Query :=
  (List.range' j n).map (nodeAt id version ps i)

theorem nodesAt_succ (id version ps i j n : Nat) :
    nodesAt id version ps i j (n + 1) =
      nodeAt id version ps i j :: nodesAt id version ps i (j + 1) n := rfl

section nodeAt

variable {id version ps i j : Nat} (hps : 0 < ps)

include hps

theorem nodeAt_size_pos (id version i j : Nat) : 0 < (nodeAt id version ps i j).size :=
  Nat.mul_pos hps (Nat.two_pow_pos i)

theorem nodeAt_inj {id' version' i' j' : Nat}
    (h : nodeAt id version ps i j = nodeAt id' version' ps i' j') :
    id = id' ∧ version = version' ∧ i = i' ∧ j = j' := by
  simp only [nodeAt, Query.mk.injEq] at h
  obtain ⟨h1, h2, h3, h4⟩ := h
  have hi := span_inj hps h4
  subst hi
  exact ⟨h1, h2, rfl, block_inj hps h3⟩

theorem getParent_nodeAt (hs : ps * 2 ^ (i + 1) < 2 ^ 64) (ho : j * (ps * 2 ^ i) < 2 ^ 64) :
    (nodeAt id version ps i j).getParent =
      (nodeAt id version ps (i + 1) (j / 2), if j % 2 = 0 then .leftChild else .rightChild) := by
  have hpos : 0 < ps * 2 ^ i := Nat.mul_pos hps (Nat.two_pow_pos i)
  have hsize : u64 (2 * (ps * 2 ^ i)) = 2 * (ps * 2 ^ i) := by
    rw [span_succ] at hs
    exact u64_of_lt hs
  simp only [Query.getParent, nodeAt, hsize, block_mod, span_succ]
  rcases Nat.mod_two_eq_zero_or_one j with hj | hj
  · rw [hj, if_pos (Nat.zero_mul _), if_pos rfl, ← block_half _ hj]
  · have hle : ps * 2 ^ i ≤ j * (ps * 2 ^ i) := Nat.le_mul_of_pos_left _ (by omega)
    have hsub : j * (ps * 2 ^ i) - ps * 2 ^ i = j / 2 * (2 * (ps * 2 ^ i)) := by
      have e : j = j / 2 * 2 + 1 := by omega
      nth_rewrite 1 [e]
      rw [Nat.add_mul, Nat.one_mul, Nat.add_sub_cancel, Nat.mul_assoc]
    rw [hj, if_neg (by omega), if_neg (by omega), sub64_of_le hle ho, hsub]

end nodeAt

section bounds

variable {ps m i : Nat}

variable (hps : 0 < ps) (hR : ps * 2 ^ m < 2 ^ 64) (hi : i < m)

include hR hi

theorem block_end_lt {j : Nat} (hj : j < 2 ^ (m - i)) : (j + 1) * (ps * 2 ^ i) < 2 ^ 64 := by
  refine Nat.lt_of_le_of_lt ?_ hR
  have e : ps * 2 ^ m = 2 ^ (m - i) * (ps * 2 ^ i) := by
    rw [← Nat.mul_assoc, Nat.mul_comm (2 ^ (m - i)), Nat.mul_assoc, ← Nat.pow_add,
      Nat.sub_add_cancel (Nat.le_of_lt hi)]
  rw [e]
  exact Nat.mul_le_mul_right _ hj

include hps

theorem span_succ_lt : ps * 2 ^ (i + 1) < 2 ^ 64 :=
  Nat.lt_of_le_of_lt ((span_le_iff hps).2 hi) hR

theorem getParent_block (id version : Nat) {j : Nat} (hj : j < 2 ^ (m - i)) :
    (nodeAt id version ps i j).getParent =
      (nodeAt id version ps (i + 1) (j / 2), if j % 2 = 0 then .leftChild else .rightChild) := by
  have hlt := block_end_lt hR hi hj
  rw [Nat.add_mul, Nat.one_mul] at hlt
  exact getParent_nodeAt hps (span_succ_lt hps hR hi) (by omega)

theorem brotherAndParent_block (id version : Nat) {j : Nat} (hj : j < 2 ^ (m - i)) :
    brotherAndParent (nodeAt id version ps i j) =
      (nodeAt id version ps i (brother j), nodeAt id version ps (i + 1) (j / 2)) := by
  have hlt := block_end_lt hR hi hj
  have hpos : 0 < ps * 2 ^ i := Nat.mul_pos hps (Nat.two_pow_pos i)
  have hsize : u64 (2 * (ps * 2 ^ i)) = 2 * (ps * 2 ^ i) := by
    have hs := span_succ_lt hps hR hi
    rw [span_succ] at hs
    exact u64_of_lt hs
  rw [Nat.add_mul, Nat.one_mul] at hlt
  simp only [brotherAndParent, nodeAt, hsize, block_mod, span_succ]
  rcases Nat.mod_two_eq_zero_or_one j with hm | hm
  · rw [hm, if_pos (Nat.zero_mul _), u64_of_lt hlt, brother_even hm, Nat.add_mul, Nat.one_mul,
      ← block_half _ hm]
  · have hle : ps * 2 ^ i ≤ j * (ps * 2 ^ i) := Nat.le_mul_of_pos_left _ (by omega)
    have e : j - 1 = j / 2 * 2 := by omega
    have hsub : j * (ps * 2 ^ i) - ps * 2 ^ i = (j - 1) * (ps * 2 ^ i) := by
      rw [Nat.sub_mul, Nat.one_mul]
    rw [hm, if_neg (by omega), sub64_of_le hle (by omega), hsub, brother_odd hm]
    rw [e, Nat.mul_assoc]

end bounds

/-! ## Intersections -/

theorem Query.intersects_iff {q r : Query} (hq : 0 < q.size) (hr : 0 < r.size)
    (hql : q.offset + q.size < 2 ^ 64) (hrl : r.offset + r.size < 2 ^ 64) :
    q.intersects r = true ↔ q.offset < r.offset + r.size ∧ r.offset < q.offset + q.size := by
  unfold intersects
  rw [u64_of_lt hql, u64_of_lt hrl]
  split <;> simp only [decide_eq_true_eq] <;> omega

theorem Query.not_intersects_of_size_zero {q r : Query} (ho : q.offset = 0) (hs : q.size = 0) :
    q.intersects r = false := by
  simp [intersects, ho, hs, u64]

/-- A block intersects the range of the pages `a..b` when it is touched. -/
theorem nodeAt_intersects_iff {id version ps i j a b : Nat} {range : Query} (hps : 0 < ps)
    (hab : a ≤ b) (ho : range.offset = a * ps) (hs : range.size = (b + 1 - a) * ps)
    (hj : (j + 1) * (ps * 2 ^ i) < 2 ^ 64) (hb : (b + 1) * ps < 2 ^ 64) :
    (nodeAt id version ps i j).intersects range = true ↔ Touches a b i j := by
  have hpos := nodeAt_size_pos hps id version i j
  have hend : range.offset + range.size = (b + 1) * ps := by
    rw [ho, hs, ← Nat.add_mul, Nat.add_sub_cancel' (by omega)]
  have hend' : (nodeAt id version ps i j).offset + (nodeAt id version ps i j).size =
      (j + 1) * (ps * 2 ^ i) := by
    rw [Nat.add_mul, Nat.one_mul]
    rfl
  have hrpos : 0 < range.size := by
    rw [hs]
    exact Nat.mul_pos (by omega) hps
  rw [Query.intersects_iff hpos hrpos (by omega) (by omega), hend, hend', ho]
  show j * (ps * 2 ^ i) < _ ∧ _ ↔ _
  rw [block_lt_iff hps, lt_block_iff hps, Touches]
  exact And.comm

end BlobSeer
