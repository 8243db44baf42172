import BlobSeer.RangeQuery.Blocks

/-!
# The inner nodes of a write

The bottom-up loop of `writeRecordLocations` starts from the leaves `a..b` of a write and makes
one inner node for every block of every level that the write touches, up to the root
(`buildLoop_leaves`). A child that the write touches is its own node; the other children are what
`search_list` finds among the siblings of that side (`childNode`). The invariant of the loop is the
shape of its queue: the rest of one level, and behind it the nodes of the next level that are
already made.
-/

namespace BlobSeer

open Lib

/-- The inner node at block `k` of level `i + 1`. -/
def childNode (left right : List Query) (id version ps a b i k : Nat) : DhtNode where
  isLeaf := false
  left := if a / 2 ^ i ≤ 2 * k then nodeAt id version ps i (2 * k)
    else searchList left (2 * k * (ps * 2 ^ i)) (ps * 2 ^ i)
  right := if 2 * k + 1 ≤ b / 2 ^ i then nodeAt id version ps i (2 * k + 1)
    else searchList right ((2 * k + 1) * (ps * 2 ^ i)) (ps * 2 ^ i)

/-- The puts for `n` neighbouring blocks of level `i + 1`. -/
def levelEntries (left right : List Query) (id version ps a b i k n : Nat) :
    List (Query × DhtNode) :=
  (List.range' k n).map fun k =>
    (nodeAt id version ps (i + 1) k, childNode left right id version ps a b i k)

theorem levelEntries_succ (left right : List Query) (id version ps a b i k n : Nat) :
    levelEntries left right id version ps a b i k (n + 1) =
      (nodeAt id version ps (i + 1) k, childNode left right id version ps a b i k) ::
        levelEntries left right id version ps a b i (k + 1) n := rfl

/-- The puts for all touched blocks of the levels `i + 1 .. i + d`. -/
def innerEntries (left right : List Query) (id version ps a b i d : Nat) :
    List (Query × DhtNode) :=
  (List.range' i d).flatMap fun i => levelEntries left right id version ps a b i (a / 2 ^ (i + 1))
    (b / 2 ^ (i + 1) + 1 - a / 2 ^ (i + 1))

theorem innerEntries_succ (left right : List Query) (id version ps a b i d : Nat) :
    innerEntries left right id version ps a b i (d + 1) =
      levelEntries left right id version ps a b i (a / 2 ^ (i + 1))
        (b / 2 ^ (i + 1) + 1 - a / 2 ^ (i + 1)) ++
      innerEntries left right id version ps a b (i + 1) d := rfl

theorem mem_innerEntries {left right : List Query} {id version ps a b m : Nat}
    {e : Query × DhtNode} :
    e ∈ innerEntries left right id version ps a b 0 m ↔
      ∃ i k, i < m ∧ Touches a b (i + 1) k ∧
        e = (nodeAt id version ps (i + 1) k, childNode left right id version ps a b i k) := by
  simp only [innerEntries, levelEntries, List.mem_flatMap, List.mem_map, List.mem_range'_1, Touches]
  constructor
  · rintro ⟨i, ⟨-, hi⟩, k, ⟨hk1, hk2⟩, rfl⟩
    exact ⟨i, k, by omega, ⟨hk1, by omega⟩, rfl⟩
  · rintro ⟨i, k, hi, ⟨hk1, hk2⟩, rfl⟩
    exact ⟨i, ⟨by omega, by omega⟩, k, ⟨hk1, by omega⟩, rfl⟩

/-! ## One round -/

section round

variable (id version : Nat) {ps m i : Nat} (left right : List Query)

/-- The next node of the queue is not paired with `first` when their parents differ. -/
theorem pairUp_alone {rootSize : Nat} {first : Query} {rest : List Query}
    (h : ∀ next, rest.head? = some next → next.size ≠ rootSize →
      next.getParent.2 = .rightChild → first.getParent.1 ≠ next.getParent.1) :
    pairUp rootSize left right first rest =
      ((pairUp rootSize left right first []).1, rest) := by
  cases rest with
  | nil => rfl
  | cons next rest =>
    refine if_neg ?_
    rintro ⟨h1, h2, h3⟩
    exact h next rfl h1 h2 h3

variable (hps : 0 < ps) (hR : ps * 2 ^ m < 2 ^ 64) (hi : i < m)

include hps hR hi

/-- A node of the next level has its parent two levels up. -/
theorem parent_ne_of_size {first next : Query} (hf : first.getParent.1.size = ps * 2 ^ (i + 1))
    (hn : next.size = ps * 2 ^ (i + 1)) (hne : next.size ≠ ps * 2 ^ m) :
    first.getParent.1 ≠ next.getParent.1 := by
  intro he
  have him : i + 1 < m := by
    rcases Nat.lt_or_ge (i + 1) m with h | h
    · exact h
    · have e : i + 1 = m := by omega
      rw [e] at hn
      exact absurd hn hne
  have hs : next.getParent.1.size = ps * 2 ^ (i + 2) := by
    have hlt := span_succ_lt hps hR him
    have hu : u64 (2 * next.size) = ps * 2 ^ (i + 2) := by
      rw [hn, ← span_succ]
      exact u64_of_lt hlt
    simp only [Query.getParent]
    split <;> exact hu
  rw [← he, hf] at hs
  have := span_inj hps hs
  omega

/-- Two halves of a block at the front of the queue are paired. -/
theorem pairUp_halves {k : Nat} (hk : 2 * k + 1 < 2 ^ (m - i)) (rest : List Query) :
    pairUp (ps * 2 ^ m) left right (nodeAt id version ps i (2 * k))
        (nodeAt id version ps i (2 * k + 1) :: rest) =
      ((nodeAt id version ps (i + 1) k,
        ⟨false, nodeAt id version ps i (2 * k), nodeAt id version ps i (2 * k + 1)⟩), rest) := by
  have h1 := getParent_block hps hR hi id version (j := 2 * k) (by omega)
  have h2 := getParent_block hps hR hi id version hk
  have e1 : 2 * k / 2 = k := by omega
  have e2 : (2 * k + 1) / 2 = k := by omega
  rw [e1] at h1
  rw [e2, if_neg (by omega)] at h2
  have hne : (nodeAt id version ps i (2 * k + 1)).size ≠ ps * 2 ^ m := by
    intro he
    have := span_inj hps he
    omega
  simp only [pairUp, h1, h2]
  rw [if_pos ⟨hne, trivial, trivial⟩]

/-- A left half without its brother takes the right sibling. -/
theorem pairUp_left {k : Nat} (hk : 2 * k < 2 ^ (m - i)) {rest : List Query}
    (hrest : ∀ q ∈ rest, q.size = ps * 2 ^ (i + 1)) :
    pairUp (ps * 2 ^ m) left right (nodeAt id version ps i (2 * k)) rest =
      ((nodeAt id version ps (i + 1) k, ⟨false, nodeAt id version ps i (2 * k),
        searchList right ((2 * k + 1) * (ps * 2 ^ i)) (ps * 2 ^ i)⟩), rest) := by
  have h1 := getParent_block hps hR hi id version hk
  have e1 : 2 * k / 2 = k := by omega
  rw [e1, if_pos (by omega)] at h1
  have hlt := block_end_lt hR hi hk
  have hoff : u64 (2 * k * (ps * 2 ^ i) + ps * 2 ^ i) = (2 * k + 1) * (ps * 2 ^ i) := by
    rw [Nat.add_mul, Nat.one_mul] at hlt ⊢
    exact u64_of_lt hlt
  rw [pairUp_alone]
  · simp only [pairUp, h1]
    simp only [nodeAt, hoff]
  · intro next hnext hne _
    have hmem : next ∈ rest := List.mem_of_mem_head? hnext
    exact parent_ne_of_size hps hR hi (by rw [h1]; rfl) (hrest next hmem) hne

/-- A right half at the front takes the left sibling: its own left brother is never queued. -/
theorem pairUp_right (acc : List Query) {k n : Nat} (hk : 2 * k + 1 < 2 ^ (m - i))
    (hn : n = 0 ∨ 2 * k + 2 < 2 ^ (m - i)) (hacc : ∀ q ∈ acc, q.size = ps * 2 ^ (i + 1)) :
    pairUp (ps * 2 ^ m) left right (nodeAt id version ps i (2 * k + 1))
        (nodesAt id version ps i (2 * k + 2) n ++ acc) =
      ((nodeAt id version ps (i + 1) k,
        ⟨false, searchList left (2 * k * (ps * 2 ^ i)) (ps * 2 ^ i),
          nodeAt id version ps i (2 * k + 1)⟩),
        nodesAt id version ps i (2 * k + 2) n ++ acc) := by
  have h1 := getParent_block hps hR hi id version hk
  have e1 : (2 * k + 1) / 2 = k := by omega
  rw [e1, if_neg (by omega)] at h1
  have hlt := block_end_lt hR hi hk
  have hoff : sub64 ((2 * k + 1) * (ps * 2 ^ i)) (ps * 2 ^ i) = 2 * k * (ps * 2 ^ i) := by
    rw [Nat.add_mul, Nat.one_mul, Nat.add_mul, Nat.one_mul] at hlt
    rw [Nat.add_mul, Nat.one_mul, sub64_of_le (by omega) (by omega), Nat.add_sub_cancel]
  rw [pairUp_alone]
  · simp only [pairUp, h1]
    simp only [nodeAt, hoff]
  · intro next hnext hne hpos
    rcases hn with rfl | hn
    · have hmem : next ∈ acc := List.mem_of_mem_head? hnext
      exact parent_ne_of_size hps hR hi (by rw [h1]; rfl) (hacc next hmem) hne
    · cases n with
      | zero =>
        have hmem : next ∈ acc := List.mem_of_mem_head? hnext
        exact parent_ne_of_size hps hR hi (by rw [h1]; rfl) (hacc next hmem) hne
      | succ n =>
        -- the next node of the level is a left half
        rw [nodesAt_succ, List.cons_append, List.head?_cons, Option.some.injEq] at hnext
        subst hnext
        rw [getParent_block hps hR hi id version hn, if_pos (by omega)] at hpos
        cases hpos

end round

/-! ## One level, and the whole loop -/

theorem buildLoop_mono {rootSize : Nat} {left right : List Query} :
    ∀ {fuel fuel' : Nat} {deque : List Query} {entries : List (Query × DhtNode)},
      buildLoop rootSize left right fuel deque = some entries → fuel ≤ fuel' →
      buildLoop rootSize left right fuel' deque = some entries
  | 0, _, _, _, h, _ => by cases h
  | fuel + 1, 0, _, _, _, hle => by omega
  | fuel + 1, fuel' + 1, [], _, h, _ => h
  | fuel + 1, fuel' + 1, first :: rest, entries, h, hle => by
    unfold buildLoop at h ⊢
    split
    · rename_i hs
      rw [if_pos hs] at h
      exact buildLoop_mono h (by omega)
    · rename_i hs
      rw [if_neg hs] at h
      simp only at h ⊢
      cases hb : buildLoop rootSize left right fuel ((pairUp rootSize left right first rest).2 ++
          [(pairUp rootSize left right first rest).1.1]) with
      | none => rw [hb] at h; cases h
      | some es =>
        rw [hb] at h
        rw [buildLoop_mono hb (by omega)]
        exact h

/-- One round of the loop. -/
theorem buildLoop_round {rootSize fuel : Nat} {left right : List Query} {first : Query}
    {rest rest' : List Query} {e : Query × DhtNode} {entries : List (Query × DhtNode)}
    (hs : first.size ≠ rootSize) (hp : pairUp rootSize left right first rest = (e, rest'))
    (h : buildLoop rootSize left right fuel (rest' ++ [e.1]) = some entries) :
    buildLoop rootSize left right (fuel + 1) (first :: rest) = some (e :: entries) := by
  unfold buildLoop
  rw [if_neg hs, hp]
  simp only [h]

section level

variable (id version : Nat) {ps m i a b : Nat} (left right : List Query)
  (hps : 0 < ps) (hR : ps * 2 ^ m < 2 ^ 64) (hi : i < m) (hab : a ≤ b) (hb : b < 2 ^ m)

include hps hi in
theorem nodeAt_size_ne (j : Nat) : (nodeAt id version ps i j).size ≠ ps * 2 ^ m := by
  intro he
  have := span_inj hps he
  omega

include hi hb in
theorem last_block_lt : b / 2 ^ i < 2 ^ (m - i) := by
  rw [Nat.div_lt_iff_lt_mul (Nat.two_pow_pos i), ← Nat.pow_add,
    Nat.sub_add_cancel (Nat.le_of_lt hi)]
  exact hb

include hps hR hi hb

/-- From an even block on: the blocks of the level are taken in pairs. The induction is on the
number of parents that are still to be made. -/
theorem buildLoop_pairs :
    ∀ (acc : List Query) {n k fuel : Nat} {entries : List (Query × DhtNode)},
      n = b / 2 ^ (i + 1) + 1 - k → a / 2 ^ i ≤ 2 * k →
      (∀ q ∈ acc, q.size = ps * 2 ^ (i + 1)) →
      buildLoop (ps * 2 ^ m) left right fuel (acc ++ nodesAt id version ps (i + 1) k n) =
        some entries →
      buildLoop (ps * 2 ^ m) left right (fuel + n)
          (nodesAt id version ps i (2 * k) (b / 2 ^ i + 1 - 2 * k) ++ acc) =
        some (levelEntries left right id version ps a b i k n ++ entries)
  | acc, 0, k, fuel, entries, hn, _, _, h => by
    rw [div_two_pow_succ] at hn
    have e : b / 2 ^ i + 1 - 2 * k = 0 := by omega
    rw [e]
    simpa [nodesAt, levelEntries] using h
  | acc, n + 1, k, fuel, entries, hn, hk, hacc, h => by
    have hlast := last_block_lt hi hb
    have hsucc := div_two_pow_succ b i
    have hacc' : ∀ q ∈ acc ++ [nodeAt id version ps (i + 1) k], q.size = ps * 2 ^ (i + 1) := by
      intro q hq
      rcases List.mem_append.1 hq with hq | hq
      · exact hacc q hq
      · rw [List.mem_singleton] at hq
        rw [hq]
        rfl
    have h' : buildLoop (ps * 2 ^ m) left right fuel
        ((acc ++ [nodeAt id version ps (i + 1) k]) ++ nodesAt id version ps (i + 1) (k + 1) n) =
        some entries := by
      rw [List.append_assoc]
      exact h
    have ih := buildLoop_pairs _ (n := n) (k := k + 1) (by omega) (by omega) hacc' h'
    rcases Nat.lt_or_ge (2 * k) (b / 2 ^ i) with hlt | hge
    · -- both halves of block `k` are queued
      have e : b / 2 ^ i + 1 - 2 * k = (b / 2 ^ i + 1 - 2 * (k + 1)) + 1 + 1 := by omega
      have hp := pairUp_halves id version left right
        hps hR hi (k := k) (by omega)
        (nodesAt id version ps i (2 * (k + 1)) (b / 2 ^ i + 1 - 2 * (k + 1)) ++ acc)
      have hr := buildLoop_round (nodeAt_size_ne id version hps hi _) hp
        (by rw [List.append_assoc]; exact ih)
      have hle : 2 * k + 1 ≤ b / 2 ^ i := by omega
      rw [e, nodesAt_succ, nodesAt_succ, levelEntries_succ, childNode, if_pos hk, if_pos hle]
      exact hr
    · -- block `k` ends with a left half
      have e : b / 2 ^ i + 1 - 2 * k = 0 + 1 := by omega
      have e' : b / 2 ^ i + 1 - 2 * (k + 1) = 0 := by omega
      have hp := pairUp_left id version left right
        hps hR hi (k := k) (by omega) hacc
      rw [e'] at ih
      have hr := buildLoop_round (nodeAt_size_ne id version hps hi _) hp ih
      have hnot : ¬ 2 * k + 1 ≤ b / 2 ^ i := by omega
      rw [e, nodesAt_succ, levelEntries_succ, childNode, if_pos hk, if_neg hnot]
      exact hr

include hab

/-- One level of the loop. -/
theorem buildLoop_level {fuel : Nat} {entries : List (Query × DhtNode)}
    (h : buildLoop (ps * 2 ^ m) left right fuel (nodesAt id version ps (i + 1) (a / 2 ^ (i + 1))
      (b / 2 ^ (i + 1) + 1 - a / 2 ^ (i + 1))) = some entries) :
    buildLoop (ps * 2 ^ m) left right (fuel + (b / 2 ^ (i + 1) + 1 - a / 2 ^ (i + 1)))
        (nodesAt id version ps i (a / 2 ^ i) (b / 2 ^ i + 1 - a / 2 ^ i)) =
      some (levelEntries left right id version ps a b i (a / 2 ^ (i + 1))
        (b / 2 ^ (i + 1) + 1 - a / 2 ^ (i + 1)) ++ entries) := by
  have hlast := last_block_lt hi hb
  have hd := Nat.div_le_div_right (c := 2 ^ i) hab
  have ha := div_two_pow_succ a i
  have hbs := div_two_pow_succ b i
  rcases Nat.mod_two_eq_zero_or_one (a / 2 ^ i) with hm | hm
  · have e : a / 2 ^ i = 2 * (a / 2 ^ (i + 1)) := by omega
    have hp := buildLoop_pairs id version left right hps hR hi hb [] (a := a)
      (k := a / 2 ^ (i + 1)) rfl (Nat.le_of_eq e) (by simp) (by simpa using h)
    rw [List.append_nil] at hp
    rw [e]
    exact hp
  · -- the first block is a right half
    have e : a / 2 ^ i = 2 * (a / 2 ^ (i + 1)) + 1 := by omega
    obtain ⟨n, hn⟩ : ∃ n, b / 2 ^ (i + 1) + 1 - a / 2 ^ (i + 1) = n + 1 :=
      ⟨b / 2 ^ (i + 1) - a / 2 ^ (i + 1), by omega⟩
    rw [hn] at h ⊢
    have hp := buildLoop_pairs id version left right hps hR hi hb
      [nodeAt id version ps (i + 1) (a / 2 ^ (i + 1))] (a := a) (n := n)
      (k := a / 2 ^ (i + 1) + 1) (by omega) (by omega) (by simp [nodeAt]) h
    have hc : b / 2 ^ i + 1 - a / 2 ^ i = b / 2 ^ i + 1 - 2 * (a / 2 ^ (i + 1) + 1) + 1 := by omega
    have hr := pairUp_right id version left right hps hR hi [] (k := a / 2 ^ (i + 1))
      (n := b / 2 ^ i + 1 - 2 * (a / 2 ^ (i + 1) + 1)) (by omega) (by omega) (by simp)
    rw [List.append_nil] at hr
    have hround := buildLoop_round (nodeAt_size_ne id version hps hi _) hr hp
    have hnot : ¬ a / 2 ^ i ≤ 2 * (a / 2 ^ (i + 1)) := by omega
    have hle : 2 * (a / 2 ^ (i + 1)) + 1 ≤ b / 2 ^ i := by omega
    rw [hc, levelEntries_succ, childNode, if_neg hnot, if_pos hle, e, nodesAt_succ]
    exact hround

end level

theorem level_count_le {a b : Nat} (hab : a ≤ b) (i : Nat) :
    b / 2 ^ i + 1 - a / 2 ^ i ≤ b + 1 - a := by
  have h : b / 2 ^ i ≤ a / 2 ^ i + (b - a) := by
    rw [← Nat.add_mul_div_right _ _ (Nat.two_pow_pos i)]
    refine Nat.div_le_div_right ?_
    have := Nat.le_mul_of_pos_right (b - a) (Nat.two_pow_pos i)
    omega
  omega

section whole

variable (id version : Nat) {ps m a b : Nat} (left right : List Query)
  (hps : 0 < ps) (hR : ps * 2 ^ m < 2 ^ 64) (hab : a ≤ b) (hb : b < 2 ^ m)

include hps hR hab hb

/-- From level `i` on. The induction is on the levels that are left below the root. -/
theorem buildLoop_levels :
    ∀ {d i : Nat}, i + d = m →
      buildLoop (ps * 2 ^ m) left right (d * (b + 1 - a) + 2)
          (nodesAt id version ps i (a / 2 ^ i) (b / 2 ^ i + 1 - a / 2 ^ i)) =
        some (innerEntries left right id version ps a b i d)
  | 0, i, hd => by
    have e : i = m := by omega
    subst e
    have ha0 : a / 2 ^ i = 0 := Nat.div_eq_of_lt (by omega)
    have hb0 : b / 2 ^ i = 0 := Nat.div_eq_of_lt hb
    rw [ha0, hb0]
    simp [nodesAt, nodeAt, buildLoop, innerEntries]
  | d + 1, i, hd => by
    have ih := buildLoop_levels (d := d) (i := i + 1) (by omega)
    have h := buildLoop_level id version left right (i := i) hps hR (by omega) hab hb ih
    rw [innerEntries_succ]
    refine buildLoop_mono h ?_
    have := level_count_le hab (i + 1)
    rw [Nat.add_mul]
    omega

omit hab hb in
theorem levels_lt : m < 64 := by
  have h : 2 ^ m < 2 ^ 64 :=
    Nat.lt_of_le_of_lt (Nat.le_mul_of_pos_left _ hps) hR
  exact (Nat.pow_lt_pow_iff_right (by omega)).1 h

/-- The loop ends within its fuel, and its puts are the nodes of the touched blocks. -/
theorem buildLoop_leaves :
    buildLoop (ps * 2 ^ m) left right (buildFuel (nodesAt id version ps 0 a (b + 1 - a)))
        (nodesAt id version ps 0 a (b + 1 - a)) =
      some (innerEntries left right id version ps a b 0 m) := by
  have hm := levels_lt hps hR
  have h := buildLoop_levels id version left right hps hR hab hb (d := m) (i := 0) (by omega)
  simp only [Nat.pow_zero, Nat.div_one] at h
  refine buildLoop_mono h ?_
  have hlen : (nodesAt id version ps 0 a (b + 1 - a)).length = b + 1 - a := by simp [nodesAt]
  have := Nat.mul_le_mul_right (b + 1 - a) (show m ≤ 65 by omega)
  simp only [buildFuel, hlen, Nat.mul_add]
  omega

end whole

end BlobSeer
