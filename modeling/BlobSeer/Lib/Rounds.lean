import Mathlib.Algebra.BigOperators.Group.Finset.Piecewise
import Mathlib.Algebra.Order.BigOperators.Group.Finset
import Mathlib.Data.List.Nodup

/-!
# Picks in rounds

Elements are picked one after another, in rounds of `r`. `Rounds r P g B W` says that `g` rounds are
complete, with the picks `B`, and that the picks of the current round are `W`, where each pick obeyed
the rule `P`.

With rules that pick an element once in a round and at most `c x` times in all, `q` rounds are possible
only if the sum of the smaller ones of `q` and `c x` is at least `q * r` (`Rounds.le_capacity`). When
each pick takes one of the elements that can still be picked most often, that is also enough
(`Rounds.exists_pick`).
-/

namespace BlobSeer.Lib

variable {α : Type}

inductive Rounds (r : Nat) (P : List α → List α → α → Prop) : Nat → List α → List α → Prop
  | nil : Rounds r P 0 [] []
  | pick {g : Nat} {B W : List α} {p : α} (h : Rounds r P g B W) (hlt : W.length < r)
      (hp : P B W p) : Rounds r P g B (W ++ [p])
  | round {g : Nat} {B W : List α} (h : Rounds r P g B W) (hlen : W.length = r) :
      Rounds r P (g + 1) (B ++ W) []

namespace Rounds

variable {r g : Nat} {P : List α → List α → α → Prop} {B W : List α}

theorem length (h : Rounds r P g B W) : B.length = g * r ∧ W.length ≤ r := by
  induction h with
  | nil => exact ⟨(Nat.zero_mul r).symm, Nat.zero_le r⟩
  | pick _ hlt _ ih =>
    refine ⟨ih.1, ?_⟩
    rw [List.length_append, List.length_singleton]
    exact hlt
  | round _ hlen ih =>
    refine ⟨?_, Nat.zero_le r⟩
    rw [List.length_append, ih.1, hlen, Nat.succ_mul]

/-- Another rule that the picks obey, for rounds of at most `N` picks in all. -/
theorem imp {P' : List α → List α → α → Prop} {N : Nat}
    (hP : ∀ {g B W p}, Rounds r P g B W → W.length < r → (B ++ W).length < N → P B W p → P' B W p)
    (h : Rounds r P g B W) : (B ++ W).length ≤ N → Rounds r P' g B W := by
  induction h with
  | nil => exact fun _ => .nil
  | pick h hlt hp ih =>
    intro hle
    rw [← List.append_assoc, List.length_append, List.length_singleton] at hle
    exact (ih (Nat.le_of_succ_le hle)).pick hlt (hP h hlt hle hp)
  | round _ hlen ih =>
    intro hle
    rw [List.append_nil] at hle
    exact (ih hle).round hlen

/-- What holds of each pick, for all of them. -/
theorem forall_mem {Q : α → Prop} (hQ : ∀ B W p, P B W p → Q p) (h : Rounds r P g B W) :
    ∀ x ∈ B ++ W, Q x := by
  induction h with
  | nil => exact fun _ hx => absurd hx List.not_mem_nil
  | pick _ _ hp ih =>
    intro x hx
    rw [← List.append_assoc] at hx
    rcases List.mem_append.mp hx with hx | hx
    · exact ih x hx
    · rw [List.mem_singleton.mp hx]
      exact hQ _ _ _ hp
  | round _ _ ih =>
    rw [List.append_nil]
    exact ih

/-- Each pick obeyed the rule when it was made. -/
theorem of_prefix (h : Rounds r P g B W) {B' W' : List α} {p : α}
    (hpre : B' ++ W' ++ [p] <+: B ++ W) (hdvd : r ∣ B'.length) (hlt : W'.length < r) :
    P B' W' p := by
  induction h with
  | nil =>
    have hlen := hpre.length_le
    rw [List.length_append, List.length_singleton] at hlen
    cases hlen
  | @pick g B W q h hltW hp ih =>
    rw [← List.append_assoc] at hpre
    rcases List.prefix_concat_iff.mp hpre with heq | hpre
    · -- this is the last pick, so the complete rounds are the same
      obtain ⟨hsame, hlast⟩ := List.append_inj' heq rfl
      cases hlast
      have hlen : B'.length = B.length := by
        obtain ⟨k, hk⟩ := hdvd
        have hsum := congrArg List.length hsame
        rw [List.length_append, List.length_append, h.length.1, hk] at hsum
        have hdiv : (r * k + W'.length) / r = (g * r + W.length) / r := congrArg (· / r) hsum
        have hr : 0 < r := Nat.zero_lt_of_lt hlt
        rw [Nat.mul_add_div hr, Nat.mul_comm g, Nat.mul_add_div hr, Nat.div_eq_of_lt hlt,
          Nat.div_eq_of_lt hltW] at hdiv
        rw [hk, h.length.1, Nat.mul_comm]
        exact congrArg (· * r) hdiv
      obtain ⟨rfl, rfl⟩ := List.append_inj hsame hlen
      exact hp
    · exact ih hpre
  | round _ _ ih =>
    rw [List.append_nil] at hpre
    exact ih hpre

/-! ## Different elements in a round -/

section nodup

variable (hP : ∀ {B W : List α} {p : α}, P B W p → p ∉ W)

include hP

theorem nodup (h : Rounds r P g B W) : W.Nodup := by
  induction h with
  | nil => exact List.nodup_nil
  | pick _ _ hp ih => exact ih.append (List.nodup_singleton _) (List.disjoint_singleton.mpr (hP hp))
  | round => exact List.nodup_nil

/-- The `k`-th round, complete or not. -/
theorem nodup_block (h : Rounds r P g B W) :
    ∀ k, (((B ++ W).drop (k * r)).take r).Nodup := by
  induction h with
  | nil =>
    intro k
    rw [List.append_nil, List.drop_nil, List.take_nil]
    exact List.nodup_nil
  | @pick g B W p h hlt hp ih =>
    intro k
    have hnodup := (h.pick hlt hp).nodup hP
    obtain ⟨hB, -⟩ := h.length
    obtain ⟨-, hW⟩ := (h.pick hlt hp).length
    rcases Nat.lt_trichotomy k g with hk | rfl | hk
    · -- an earlier round
      have hle : k * r + r ≤ B.length := by
        rw [hB, ← Nat.succ_mul]
        exact Nat.mul_le_mul_right r hk
      have hold := ih k
      rw [List.drop_append_of_le_length (by omega), List.take_append_of_le_length
        (by rw [List.length_drop]; omega)] at hold ⊢
      exact hold
    · rw [← hB, List.drop_left, List.take_of_length_le hW]
      exact hnodup
    · have hle : B.length + r ≤ k * r := by
        rw [hB, ← Nat.succ_mul]
        exact Nat.mul_le_mul_right r hk
      rw [List.drop_of_length_le, List.take_nil]
      · exact List.nodup_nil
      · rw [List.length_append]
        omega
  | round _ _ ih =>
    rw [List.append_nil]
    exact ih

variable [DecidableEq α]

/-- An element is picked at most once in a round. -/
theorem count_le (h : Rounds r P g B W) (x : α) : B.count x ≤ g := by
  induction h with
  | nil => exact Nat.zero_le 0
  | pick _ _ _ ih => exact ih
  | round h _ ih =>
    rw [List.count_append]
    exact Nat.add_le_add ih (List.nodup_iff_count_le_one.mp (h.nodup hP) x)

/-- With at most `q` rounds of picks an element is picked at most `q` times. -/
theorem count_append_le (h : Rounds r P g B W) {q : Nat} (hle : (B ++ W).length ≤ q * r) (x : α) :
    (B ++ W).count x ≤ q := by
  have hB := h.count_le hP x
  have hW := List.nodup_iff_count_le_one.mp (h.nodup hP) x
  obtain ⟨hlen, hr⟩ := h.length
  rw [List.length_append, hlen] at hle
  rw [List.count_append]
  rcases Nat.eq_zero_or_pos W.length with hzero | hpos
  · have hnil : W.count x = 0 := by
      rw [List.eq_nil_of_length_eq_zero hzero]
      rfl
    have hgq : g ≤ q ∨ B.count x = 0 := by
      rcases Nat.eq_zero_or_pos r with rfl | hr
      · have hBnil : B = [] := List.eq_nil_of_length_eq_zero hlen
        exact .inr (by rw [hBnil]; rfl)
      · exact .inl (Nat.le_of_mul_le_mul_right (by omega) hr)
    omega
  · have hgq : g < q := Nat.lt_of_mul_lt_mul_right (a := r) (by omega)
    omega

end nodup

/-! ## Capacities -/

section capacity

variable [DecidableEq α] {s : Finset α} {c : α → Nat}

/-- The pick is new in its round and can be picked once more. -/
structure Within (s : Finset α) (c : α → Nat) (B W : List α) (p : α) : Prop where
  mem : p ∈ s
  fresh : p ∉ W
  count_lt : (B ++ W).count p < c p

/-- The pick is one of the new elements that can still be picked most often. -/
structure Largest (s : Finset α) (c : α → Nat) (B W : List α) (p : α) : Prop where
  mem : p ∈ s
  fresh : p ∉ W
  largest : ∀ x ∈ s, x ∉ W → c x - (B ++ W).count x ≤ c p - (B ++ W).count p

/-- Complete rounds need capacity. -/
theorem le_capacity (hP : ∀ {B W p}, P B W p → Within s c B W p) (h : Rounds r P g B W) :
    g * r ≤ ∑ x ∈ s, min g (c x) := by
  have hcount : ∀ x, (B ++ W).count x ≤ c x := by
    intro x
    induction h with
    | nil => exact Nat.zero_le _
    | @pick g B W p _ _ hp ih =>
      rw [← List.append_assoc, List.count_append, List.count_singleton]
      split
      · next heq =>
        have hlt := (hP hp).count_lt
        rw [beq_iff_eq.mp heq] at hlt
        exact hlt
      · exact ih
    | round _ _ ih =>
      rw [List.append_nil]
      exact ih
  have hmem : ∀ x ∈ (B : Multiset α), x ∈ s := fun x hx =>
    h.forall_mem (Q := (· ∈ s)) (fun _ _ _ hp => (hP hp).mem) x
      (List.mem_append_left _ (Multiset.mem_coe.mp hx))
  have hsum := Multiset.sum_count_eq_card hmem
  rw [Multiset.coe_card, h.length.1] at hsum
  rw [← hsum]
  refine Finset.sum_le_sum fun x _ => ?_
  rw [Multiset.coe_count]
  refine le_min (h.count_le (fun hp => (hP hp).fresh) x) (Nat.le_trans ?_ (hcount x))
  rw [List.count_append]
  exact Nat.le_add_right _ _

/-- One round that takes the `r` elements of largest capacity leaves enough for the others. -/
theorem sum_round {T : Finset α} {q : Nat} (hT : T ⊆ s)
    (htop : ∀ a ∈ T, ∀ x ∈ s, x ∉ T → c x ≤ c a)
    (h : (q + 1) * T.card ≤ ∑ x ∈ s, min (q + 1) (c x)) :
    q * T.card ≤ ∑ x ∈ s, min q (c x - if x ∈ T then 1 else 0) := by
  by_cases hbig : ∃ b ∈ s, b ∉ T ∧ q < c b
  · -- then all elements of the round can be picked in all other rounds too
    obtain ⟨b, hb, hbT, hlt⟩ := hbig
    calc q * T.card = ∑ x ∈ T, q := by rw [Finset.sum_const_nat fun _ _ => rfl, Nat.mul_comm]
      _ ≤ ∑ x ∈ T, min q (c x - if x ∈ T then 1 else 0) := by
        refine Finset.sum_le_sum fun a ha => ?_
        have hle := htop a ha b hb hbT
        rw [if_pos ha]
        omega
      _ ≤ ∑ x ∈ s, min q (c x - if x ∈ T then 1 else 0) :=
        Finset.sum_le_sum_of_subset hT
  · -- the others are not bounded by the number of rounds
    have hle : ∑ x ∈ s, min (q + 1) (c x) ≤
        ∑ x ∈ s, (min q (c x - if x ∈ T then 1 else 0) + if x ∈ T then 1 else 0) := by
      refine Finset.sum_le_sum fun x hx => ?_
      split
      · omega
      · next hxT =>
        have hle : c x ≤ q := by
          by_contra hlt
          exact hbig ⟨x, hx, hxT, Nat.not_le.mp hlt⟩
        omega
    rw [Finset.sum_add_distrib, Finset.sum_ite_mem, Finset.inter_eq_right.mpr hT,
      Finset.sum_const_nat fun _ _ => rfl, Nat.mul_one] at hle
    rw [Nat.succ_mul] at h
    omega

section largest

variable (hP : ∀ {B W : List α} {p : α}, P B W p → Largest s c B W p)

include hP

theorem mem_current (h : Rounds r P g B W) : ∀ x ∈ W, x ∈ s := fun x hx =>
  h.forall_mem (Q := (· ∈ s)) (fun _ _ _ hp => (hP hp).mem) x (List.mem_append_right _ hx)

/-- The elements of the current round could be picked most often before it. -/
theorem largest_current (h : Rounds r P g B W) :
    ∀ a ∈ W, ∀ x ∈ s, x ∉ W → c x - B.count x ≤ c a - B.count a := by
  induction h with
  | nil => exact fun _ ha => absurd ha List.not_mem_nil
  | @pick g B W p _ _ hp ih =>
    intro a ha x hx hxW
    have hxW : x ∉ W := fun h => hxW (List.mem_append_left _ h)
    rcases List.mem_append.mp ha with ha | ha
    · exact ih a ha x hx hxW
    · have hle := (hP hp).largest x hx hxW
      rw [List.count_append, List.count_eq_zero_of_not_mem hxW, List.count_append,
        List.count_eq_zero_of_not_mem (hP hp).fresh] at hle
      rw [List.mem_singleton.mp ha]
      exact hle
  | round => exact fun _ ha => absurd ha List.not_mem_nil

/-- What is left of the capacities is enough for the rounds to come. -/
theorem le_rest (h : Rounds r P g B W) :
    ∀ {q : Nat}, (g + q) * r ≤ ∑ x ∈ s, min (g + q) (c x) →
      q * r ≤ ∑ x ∈ s, min q (c x - B.count x) := by
  induction h with
  | nil =>
    intro q hq
    rw [Nat.zero_add] at hq
    exact hq
  | pick _ _ _ ih => exact ih
  | @round g B W h hlen ih =>
    intro q hq
    rw [Nat.add_assoc, Nat.add_comm 1] at hq
    have hnodup := h.nodup fun hp => (hP hp).fresh
    have hcard : W.toFinset.card = r := by
      rw [List.toFinset_card_of_nodup hnodup, hlen]
    have hround := sum_round (T := W.toFinset) (q := q) (c := fun x => c x - B.count x)
      (fun x hx => h.mem_current hP x (List.mem_toFinset.mp hx))
      (fun a ha x hx hxW => h.largest_current hP a (List.mem_toFinset.mp ha) x hx
        fun hmem => hxW (List.mem_toFinset.mpr hmem))
      (by
        rw [hcard]
        exact ih hq)
    rw [hcard] at hround
    refine hround.trans (Nat.le_of_eq (Finset.sum_congr rfl fun x _ => ?_))
    have hone : W.count x = if x ∈ W then 1 else 0 := by
      split
      · next hx => exact List.count_eq_one_of_mem hnodup hx
      · next hx => exact List.count_eq_zero_of_not_mem hx
    simp only [List.mem_toFinset]
    rw [List.count_append, hone, Nat.sub_sub]

/-- While the capacities were enough for more rounds, there is an element to pick. -/
theorem exists_pick (h : Rounds r P g B W) (hlt : W.length < r) {q : Nat} (hg : g < q)
    (hq : q * r ≤ ∑ x ∈ s, min q (c x)) : ∃ x ∈ s, x ∉ W ∧ (B ++ W).count x < c x := by
  by_contra hno
  obtain ⟨k, rfl⟩ : ∃ k, q = g + (k + 1) := ⟨q - g - 1, by omega⟩
  have hrest := h.le_rest hP hq
  have hzero : ∀ x ∈ s, x ∉ W → c x - B.count x = 0 := by
    intro x hx hxW
    by_contra hpos
    refine hno ⟨x, hx, hxW, ?_⟩
    rw [List.count_append, List.count_eq_zero_of_not_mem hxW]
    omega
  -- only the elements of the round have something left
  have hle : ∑ x ∈ s, min (k + 1) (c x - B.count x) ≤ (k + 1) * W.length := by
    calc ∑ x ∈ s, min (k + 1) (c x - B.count x)
        ≤ ∑ x ∈ s, if x ∈ W.toFinset then k + 1 else 0 := by
          refine Finset.sum_le_sum fun x hx => ?_
          split
          · exact Nat.min_le_left _ _
          · next hxW =>
            rw [hzero x hx fun hmem => hxW (List.mem_toFinset.mpr hmem), Nat.min_zero]
      _ = ∑ x ∈ s ∩ W.toFinset, (k + 1) := Finset.sum_ite_mem _ _ _
      _ = (s ∩ W.toFinset).card * (k + 1) := Finset.sum_const_nat fun _ _ => rfl
      _ ≤ (k + 1) * W.length := by
        rw [Nat.mul_comm]
        exact Nat.mul_le_mul_left _
          ((Finset.card_le_card Finset.inter_subset_right).trans (List.toFinset_card_le W))
  have hmul : (k + 1) * W.length < (k + 1) * r := Nat.mul_lt_mul_of_pos_left hlt (Nat.succ_pos k)
  omega

end largest

end capacity

end Rounds

end BlobSeer.Lib
