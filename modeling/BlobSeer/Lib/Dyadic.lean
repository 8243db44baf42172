import Mathlib.Algebra.Order.Group.Nat
import Mathlib.Data.Nat.Log
import Mathlib.Data.Int.ModEq
import Mathlib.Tactic.Ring
import Mathlib.Data.Nat.Prime.Basic

/-!
# Dyadic blocks

The block of level `i` and index `j` consists of the cells `x` with `x / 2 ^ i = j`. A block of
level `i + 1` is made of the two blocks `2 * j` and `2 * j + 1` below it, which are brothers. A
nonempty range of cells `a..b` touches the blocks of level `i` from `a / 2 ^ i` to `b / 2 ^ i`.
Measured in units of size `u`, the block starts at `j * (u * 2 ^ i)`.

At the end, numbers modulo a power of two: for an odd number whose square is `1` plus `2 ^ k` times an odd
number, the powers are all the numbers that are `1` or the number itself modulo `2 ^ k`.
-/

namespace BlobSeer.Lib

theorem div_two_pow_succ (x i : Nat) : x / 2 ^ (i + 1) = x / 2 ^ i / 2 := by
  rw [Nat.pow_succ, Nat.div_div_eq_div_mul]

theorem div_two_pow_add (x i k : Nat) : x / 2 ^ (i + k) = x / 2 ^ i / 2 ^ k := by
  rw [Nat.pow_add, Nat.div_div_eq_div_mul]

/-! ## Brothers -/

/-- The other half of the block above. -/
def brother (j : Nat) : Nat := if j % 2 = 0 then j + 1 else j - 1

theorem brother_even {j : Nat} (h : j % 2 = 0) : brother j = j + 1 := if_pos h

theorem brother_odd {j : Nat} (h : j % 2 = 1) : brother j = j - 1 := if_neg (by omega)

theorem brother_div_two (j : Nat) : brother j / 2 = j / 2 := by
  unfold brother
  split <;> omega

theorem brother_lt {j k : Nat} (hk : 0 < k) (hj : j < 2 ^ k) : brother j < 2 ^ k := by
  obtain ⟨d, rfl⟩ : ∃ d, k = d + 1 := ⟨k - 1, by omega⟩
  have h := brother_div_two j
  rw [Nat.pow_succ] at hj ⊢
  omega

/-- What lies in the brother of a block on the path to `p` lies in no block of the path below. -/
theorem brother_block {p x i k : Nat} (hik : i < k) (hx : x / 2 ^ i = brother (p / 2 ^ i)) :
    x / 2 ^ k = p / 2 ^ k := by
  obtain ⟨d, rfl⟩ : ∃ d, k = i + 1 + d := ⟨k - (i + 1), by omega⟩
  have h1 : x / 2 ^ (i + 1) = p / 2 ^ (i + 1) := by
    rw [div_two_pow_succ, hx, brother_div_two, ← div_two_pow_succ]
  rw [div_two_pow_add, h1, ← div_two_pow_add]

/-! ## Ranges of cells -/

/-- The cells `a..b` meet block `j` of level `i`. -/
def Touches (a b i j : Nat) : Prop := a / 2 ^ i ≤ j ∧ j ≤ b / 2 ^ i

instance (a b i j : Nat) : Decidable (Touches a b i j) := inferInstanceAs (Decidable (_ ∧ _))

theorem touches_of_mem {a b x : Nat} (i : Nat) (ha : a ≤ x) (hb : x ≤ b) :
    Touches a b i (x / 2 ^ i) :=
  ⟨Nat.div_le_div_right ha, Nat.div_le_div_right hb⟩

theorem Touches.exists_mem {a b i j : Nat} (hab : a ≤ b) (h : Touches a b i j) :
    ∃ x, a ≤ x ∧ x ≤ b ∧ x / 2 ^ i = j := by
  have hpos : 0 < 2 ^ i := Nat.two_pow_pos i
  obtain ⟨h1, h2⟩ := h
  have hb : j * 2 ^ i ≤ b := (Nat.le_div_iff_mul_le hpos).1 h2
  rcases Nat.lt_or_ge a (j * 2 ^ i) with hlt | hge
  · exact ⟨j * 2 ^ i, by omega, hb, Nat.mul_div_cancel _ hpos⟩
  · refine ⟨a, Nat.le_refl _, hab, Nat.le_antisymm h1 ?_⟩
    exact (Nat.le_div_iff_mul_le hpos).2 hge

/-- The left half of a touched block is touched, or its right half is the first touched one. -/
theorem Touches.left_half {a b i j : Nat} (hab : a ≤ b) (h : Touches a b (i + 1) j) :
    Touches a b i (2 * j) ∨ a / 2 ^ i = 2 * j + 1 := by
  have hd := Nat.div_le_div_right (c := 2 ^ i) hab
  obtain ⟨h1, h2⟩ := h
  rw [div_two_pow_succ] at h1 h2
  unfold Touches
  omega

/-- The right half of a touched block is touched, or its left half is the last touched one. -/
theorem Touches.right_half {a b i j : Nat} (hab : a ≤ b) (h : Touches a b (i + 1) j) :
    Touches a b i (2 * j + 1) ∨ b / 2 ^ i = 2 * j := by
  have hd := Nat.div_le_div_right (c := 2 ^ i) hab
  obtain ⟨h1, h2⟩ := h
  rw [div_two_pow_succ] at h1 h2
  unfold Touches
  omega

/-! ## Blocks in units -/

theorem block_mod (j s : Nat) : j * s % (2 * s) = j % 2 * s := Nat.mul_mod_mul_right s j 2

theorem block_half {j : Nat} (s : Nat) (h : j % 2 = 0) : j * s = j / 2 * (2 * s) := by
  rw [← Nat.mul_assoc, Nat.div_mul_cancel (Nat.dvd_of_mod_eq_zero h)]

theorem block_lt_iff {u i j b : Nat} (hu : 0 < u) :
    j * (u * 2 ^ i) < (b + 1) * u ↔ j ≤ b / 2 ^ i := by
  have e : j * (u * 2 ^ i) = j * 2 ^ i * u := by ring
  rw [e, Nat.mul_lt_mul_right hu, Nat.lt_succ_iff, ← Nat.le_div_iff_mul_le (Nat.two_pow_pos i)]

theorem lt_block_iff {u i j a : Nat} (hu : 0 < u) :
    a * u < (j + 1) * (u * 2 ^ i) ↔ a / 2 ^ i ≤ j := by
  have e : (j + 1) * (u * 2 ^ i) = (j + 1) * 2 ^ i * u := by ring
  rw [e, Nat.mul_lt_mul_right hu, ← Nat.div_lt_iff_lt_mul (Nat.two_pow_pos i), Nat.lt_succ_iff]

/-- Blocks of one size start at different places. -/
theorem block_inj {u i j k : Nat} (hu : 0 < u) (h : j * (u * 2 ^ i) = k * (u * 2 ^ i)) : j = k :=
  Nat.eq_of_mul_eq_mul_right (Nat.mul_pos hu (Nat.two_pow_pos i)) h

/-- The sizes of the levels are different. -/
theorem span_inj {u i k : Nat} (hu : 0 < u) (h : u * 2 ^ i = u * 2 ^ k) : i = k :=
  Nat.pow_right_injective (Nat.le_refl 2) (Nat.eq_of_mul_eq_mul_left hu h)

theorem span_lt_iff {u i k : Nat} (hu : 0 < u) : u * 2 ^ i < u * 2 ^ k ↔ i < k := by
  rw [Nat.mul_lt_mul_left hu]
  exact Nat.pow_lt_pow_iff_right (by omega)

theorem span_le_iff {u i k : Nat} (hu : 0 < u) : u * 2 ^ i ≤ u * 2 ^ k ↔ i ≤ k := by
  rw [Nat.mul_le_mul_left_iff hu]
  exact Nat.pow_le_pow_iff_right (by omega)

theorem span_succ (u i : Nat) : u * 2 ^ (i + 1) = 2 * (u * 2 ^ i) := by
  rw [Nat.pow_succ]
  ring

/-- A sequence that passes a bound passes it in one step. -/
theorem exists_crossing {f : Nat → Nat} {s bound : Nat} (hs : f s < bound) :
    ∀ {t : Nat}, s ≤ t → bound ≤ f t → ∃ d, s ≤ d ∧ d < t ∧ f d < bound ∧ bound ≤ f (d + 1)
  | 0, hst, ht => by
    have e : s = 0 := by omega
    rw [e] at hs
    omega
  | t + 1, hst, ht => by
    rcases Nat.lt_or_ge (f t) bound with hlt | hge
    · by_cases e : s = t + 1
      · rw [e] at hs
        omega
      · exact ⟨t, by omega, by omega, hlt, ht⟩
    · have hst' : s ≤ t := by
        by_contra h
        have e : s = t + 1 := by omega
        rw [e] at hs
        omega
      obtain ⟨d, h1, h2, h3⟩ := exists_crossing hs hst' hge
      exact ⟨d, h1, by omega, h3⟩

/-- Doubling a number over and over, modulo a power of two, never gives it back. -/
theorem two_pow_mul_mod_ne {m : Nat} (hm : 0 < m) (n j : Nat) : 2 ^ (j + 1) * m % 2 ^ n ≠ m := by
  intro h
  have hlt : m < 2 ^ n := by
    rw [← h]
    exact Nat.mod_lt _ (Nat.two_pow_pos n)
  have hdvd : 2 ^ n ∣ (2 ^ (j + 1) - 1) * m := by
    rw [Nat.sub_mul, Nat.one_mul]
    refine Nat.dvd_of_mod_eq_zero (Nat.sub_mod_eq_zero_of_mod_eq ?_)
    rw [h, Nat.mod_eq_of_lt hlt]
  have hodd : Odd (2 ^ (j + 1) - 1) := by
    have hpos := Nat.two_pow_pos j
    exact ⟨2 ^ j - 1, by omega⟩
  have hcop : Nat.Coprime (2 ^ n) (2 ^ (j + 1) - 1) :=
    Nat.Coprime.pow_left n (Nat.coprime_two_left.mpr hodd)
  exact absurd (Nat.le_of_dvd hm (hcop.dvd_of_dvd_mul_left hdvd)) (Nat.not_le.mpr hlt)

/-! ## Powers modulo a power of two -/

section powers

variable {a : ℤ} {k : ℕ}

/-- Squaring again moves the lowest bit up by one. -/
theorem pow_two_pow_eq (hk : 2 ≤ k) (ha : ∃ o, a ^ 2 = 1 + 2 ^ k * (2 * o + 1)) (n : ℕ) :
    ∃ o, a ^ 2 ^ (n + 1) = 1 + 2 ^ (k + n) * (2 * o + 1) := by
  induction n with
  | zero => exact ha
  | succ n ih =>
    obtain ⟨o, ho⟩ := ih
    obtain ⟨j, rfl⟩ : ∃ j, k = j + 2 := ⟨k - 2, by omega⟩
    refine ⟨o + 2 ^ (j + n) * (2 * o + 1) ^ 2, ?_⟩
    rw [pow_succ 2 (n + 1), pow_mul, ho]
    ring

/-- The powers modulo `2 ^ (k + n)`, by induction on `n`: a power that is right modulo `2 ^ (k + n)` is
right modulo twice as much, or becomes right with `2 ^ (n + 1)` more factors. -/
theorem exists_pow_modEq (hk : 2 ≤ k) (ha : ∃ o, a ^ 2 = 1 + 2 ^ k * (2 * o + 1)) (n : ℕ) {x : ℤ}
    (hodd : x % 2 = 1) (hx : 1 ≡ x [ZMOD 2 ^ k] ∨ a ≡ x [ZMOD 2 ^ k]) :
    ∃ l, l < 2 ^ (n + 1) ∧ a ^ l ≡ x [ZMOD 2 ^ (k + n)] := by
  induction n with
  | zero =>
    rcases hx with hx | hx
    · exact ⟨0, by decide, by simpa using hx⟩
    · exact ⟨1, by decide, by simpa using hx⟩
  | succ n ih =>
    obtain ⟨l, hl, hmod⟩ := ih
    obtain ⟨e, he⟩ := hmod.symm.dvd
    obtain ⟨o, ho⟩ := pow_two_pow_eq hk ha n
    rcases Int.emod_two_eq e with heven | hone
    · refine ⟨l, hl.trans (Nat.pow_lt_pow_right (by decide) (by omega)), ?_⟩
      obtain ⟨f, rfl⟩ : ∃ f, e = 2 * f := ⟨e / 2, by omega⟩
      refine (Int.modEq_iff_dvd.mpr ⟨f, ?_⟩).symm
      rw [he]
      ring
    · refine ⟨l + 2 ^ (n + 1), ?_, ?_⟩
      · rw [pow_succ 2 (n + 1)]
        omega
      · obtain ⟨f, rfl⟩ : ∃ f, e = 2 * f + 1 := ⟨e / 2, by omega⟩
        obtain ⟨y, rfl⟩ : ∃ y, x = 2 * y + 1 := ⟨x / 2, by omega⟩
        obtain ⟨j, rfl⟩ : ∃ j, k = j + 1 := ⟨k - 1, by omega⟩
        have hpow : a ^ l = 2 * y + 1 + 2 ^ (j + 1 + n) * (2 * f + 1) := by
          rw [← he]
          ring
        refine (Int.modEq_iff_dvd.mpr
          ⟨f + 1 + 2 * y * o + y + o + 2 ^ (j + n) * (2 * f + 1) * (2 * o + 1), ?_⟩).symm
        rw [pow_add, ho, hpow]
        ring

end powers

end BlobSeer.Lib
