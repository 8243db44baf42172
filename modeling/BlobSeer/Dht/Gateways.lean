import Mathlib.Data.Int.GCD
import Mathlib.Data.Nat.Prime.Basic
import Mathlib.Tactic.Ring
import Mathlib.Tactic.LinearCombination
import BlobSeer.Lib.Dyadic
import BlobSeer.Dht.SimpleDht

/-!
# The gateways of a key (`common/simple_dht.hpp`)

The replica number is the seed of the hash in `choose_gateway`, so the hashes of one key are a sequence
of equal strides modulo `2 ^ 32`, and the stride is a power of `65599` that only depends on the length
of the key. Modulo the number of gateways two of them may be the same.
-/

namespace BlobSeer.SimpleDht

open Lib (pow_two_pow_eq exists_pow_modEq)

/-- What the bytes of a key make of the hash, without the seed and without the 32 bits. -/
def digest (key : Buffer) : Nat := key.foldl (fun hash k => 65599 * hash + k.toNat) 0

/-- The first `r` replicas of a key go to different gateways. -/
def Distinct (size : Nat) (key : Buffer) (r : Nat) : Prop :=
  ∀ i j, i < j → j < r → chooseGateway size key i ≠ chooseGateway size key j

/-! ## The hash -/

theorem sdbm_eq {hash : Nat} (h : hash < 2 ^ 32) (k : UInt8) :
    sdbm hash k = (65599 * hash + k.toNat) % 2 ^ 32 := by
  unfold sdbm u32
  omega

theorem foldl_sdbm (key : Buffer) (n : Nat) :
    key.foldl sdbm (n % 2 ^ 32) =
      key.foldl (fun hash k => 65599 * hash + k.toNat) n % 2 ^ 32 := by
  induction key generalizing n with
  | nil => rfl
  | cons k key ih =>
    have hmod : (65599 * (n % 2 ^ 32) + k.toNat) % 2 ^ 32 = (65599 * n + k.toNat) % 2 ^ 32 := by
      omega
    rw [List.foldl_cons, List.foldl_cons, sdbm_eq (Nat.mod_lt _ (by decide)), hmod, ih]

theorem foldl_digest (key : Buffer) (n : Nat) :
    key.foldl (fun hash k => 65599 * hash + k.toNat) n = n * 65599 ^ key.length + digest key := by
  unfold digest
  induction key generalizing n with
  | nil => simp
  | cons k key ih =>
    rw [List.foldl_cons, List.foldl_cons, ih, ih (65599 * 0 + k.toNat), List.length_cons, pow_succ]
    ring

theorem digest_append (key key' : Buffer) :
    digest (key ++ key') = digest key * 65599 ^ key'.length + digest key' := by
  rw [digest, List.foldl_append, foldl_digest]
  rfl

theorem digest_zeros (l : Nat) : digest (List.replicate l 0) = 0 := by
  induction l with
  | zero => rfl
  | succ l ih => exact ih

theorem chooseGateway_eq (size : Nat) (key : Buffer) (n : Nat) :
    chooseGateway size key n = (n * 65599 ^ key.length + digest key) % 2 ^ 32 % size := by
  rw [chooseGateway, u32, foldl_sdbm, foldl_digest]

/-! ## Strides -/

/-- Two hashes that are `stride` apart, the first one at `start`, go to one gateway. -/
def Meet (size start stride : Nat) : Prop :=
  if start + stride < 2 ^ 32 then size ∣ stride else size ∣ 2 ^ 32 - stride

theorem meet_iff {size start stride : Nat} (hstart : start < 2 ^ 32) (hstride : stride < 2 ^ 32) :
    start % size = (start + stride) % 2 ^ 32 % size ↔ Meet size start stride := by
  unfold Meet
  split
  · rename_i hlt
    rw [Nat.mod_eq_of_lt hlt]
    have h := Nat.modEq_iff_dvd' (n := size) (Nat.le_add_right start stride)
    rw [Nat.add_sub_cancel_left] at h
    exact h
  · rename_i hge
    have hwrap : (start + stride) % 2 ^ 32 = start + stride - 2 ^ 32 := by omega
    have h := Nat.modEq_iff_dvd' (n := size) (show start + stride - 2 ^ 32 ≤ start by omega)
    rw [show start - (start + stride - 2 ^ 32) = 2 ^ 32 - stride by omega] at h
    rw [hwrap]
    exact eq_comm.trans h

/-- For one key: which replicas meet. -/
theorem distinct_iff (size : Nat) (key : Buffer) (r : Nat) :
    Distinct size key r ↔ ∀ i d, 0 < d → i + d < r →
      ¬ Meet size ((i * 65599 ^ key.length + digest key) % 2 ^ 32)
        (d * 65599 ^ key.length % 2 ^ 32) := by
  have hstep : ∀ i d, chooseGateway size key (i + d) =
      ((i * 65599 ^ key.length + digest key) % 2 ^ 32 + d * 65599 ^ key.length % 2 ^ 32) %
        2 ^ 32 % size := by
    intro i d
    rw [chooseGateway_eq, ← Nat.add_mod, Nat.add_mul, Nat.add_right_comm]
  have hmeet : ∀ i d, chooseGateway size key i = chooseGateway size key (i + d) ↔
      Meet size ((i * 65599 ^ key.length + digest key) % 2 ^ 32)
        (d * 65599 ^ key.length % 2 ^ 32) := by
    intro i d
    rw [← meet_iff (Nat.mod_lt _ (by decide)) (Nat.mod_lt _ (by decide)), hstep, chooseGateway_eq]
  constructor
  · intro h i d hd hlt hm
    exact h i (i + d) (Nat.lt_add_of_pos_right hd) hlt ((hmeet i d).mpr hm)
  · intro h i j hij hlt heq
    obtain ⟨d, rfl⟩ := Nat.exists_eq_add_of_lt hij
    exact h i (d + 1) (Nat.succ_pos d) hlt ((hmeet i (d + 1)).mp heq)

/-- Strides are `1` or `63` modulo `128`. -/
theorem stride_mod (l : Nat) :
    65599 ^ l ≡ 1 [MOD 128] ∨ 65599 ^ l ≡ 63 [MOD 128] := by
  induction l with
  | zero => exact .inl rfl
  | succ l ih =>
    rw [pow_succ]
    rcases ih with ih | ih
    · exact .inr (ih.mul_right 65599)
    · exact .inl (ih.mul_right 65599)

/-! ## All keys -/

/-- No multiple of `size` below `2 ^ 32` can be the distance of two of the first `r` replicas. The
distance of two replicas whose numbers differ by `d` is `1`, `63`, `65` or `127` times `d`, up to
multiples of `128 * d` and of `2 ^ 32`. -/
def SeedsApart (size r : Nat) : Prop :=
  ∀ d c u, 0 < d → d < r → 0 < c → c * size < 2 ^ 32 → u ∈ [1, 63, 65, 127] →
    ¬ c * size ≡ u * d [MOD Nat.gcd (128 * d) (2 ^ 32)]

/-- A distance modulo `2 ^ 32` is a distance modulo what a stride keeps. -/
theorem stride_modEq {d l : Nat} {x : ℤ} (h : (d * 65599 ^ l : ℤ) ≡ x [ZMOD 2 ^ 32]) :
    x ≡ d [ZMOD Nat.gcd (128 * d) (2 ^ 32)] ∨ x ≡ 63 * d [ZMOD Nat.gcd (128 * d) (2 ^ 32)] := by
  have hword : ((Nat.gcd (128 * d) (2 ^ 32) : ℕ) : ℤ) ∣ 2 ^ 32 := by
    exact_mod_cast Nat.gcd_dvd_right (128 * d) (2 ^ 32)
  have hstride : ((Nat.gcd (128 * d) (2 ^ 32) : ℕ) : ℤ) ∣ 128 * d := by
    exact_mod_cast Nat.gcd_dvd_left (128 * d) (2 ^ 32)
  have hx := (h.of_dvd hword).symm
  have hkeep : ∀ u : ℕ, 65599 ^ l ≡ u [MOD 128] →
      (d * 65599 ^ l : ℤ) ≡ u * d [ZMOD Nat.gcd (128 * d) (2 ^ 32)] := by
    intro u hu
    have hint : (65599 ^ l : ℤ) ≡ u [ZMOD 128] := by
      exact_mod_cast (Int.natCast_modEq_iff (n := 128)).mpr hu
    refine Int.ModEq.of_dvd hstride ?_
    have hmul := hint.mul_right' (c := (d : ℤ))
    rwa [mul_comm (65599 ^ l : ℤ)] at hmul
  rcases stride_mod l with hu | hu
  · left
    simpa using hx.trans (hkeep 1 hu)
  · right
    exact hx.trans (hkeep 63 hu)

/-- The stride is odd, so no two hashes of fewer than `2 ^ 32` replicas are the same. -/
theorem stride_ne_zero {d l : Nat} (hd : 0 < d) (hlt : d < 2 ^ 32) : ¬ 2 ^ 32 ∣ d * 65599 ^ l := by
  intro h
  have hcop : Nat.Coprime (2 ^ 32) (65599 ^ l) := Nat.Coprime.pow _ _ (by decide)
  have hle := Nat.le_of_dvd hd (hcop.dvd_of_dvd_mul_right h)
  omega

theorem SeedsApart.distinct {size r : Nat} (h : SeedsApart size r) (hr : r ≤ 2 ^ 32)
    (key : Buffer) : Distinct size key r := by
  intro i j hij hj heq
  obtain ⟨d, hd, rfl⟩ : ∃ d, 0 < d ∧ j = i + d := ⟨j - i, by omega, by omega⟩
  rw [chooseGateway_eq, chooseGateway_eq] at heq
  have hstride : ((i + d) * 65599 ^ key.length + digest key) % 2 ^ 32 =
      ((i * 65599 ^ key.length + digest key) % 2 ^ 32 + d * 65599 ^ key.length) % 2 ^ 32 := by
    rw [Nat.mod_add_mod, Nat.add_mul, Nat.add_right_comm]
  have hzero := stride_ne_zero (l := key.length) hd (by omega)
  rw [hstride] at heq
  have ha : (i * 65599 ^ key.length + digest key) % 2 ^ 32 < 2 ^ 32 := Nat.mod_lt _ (by decide)
  generalize (i * 65599 ^ key.length + digest key) % 2 ^ 32 = a at heq ha
  have hb : (a + d * 65599 ^ key.length) % 2 ^ 32 < 2 ^ 32 := Nat.mod_lt _ (by decide)
  have hdist : (d * 65599 ^ key.length : ℤ) ≡
      ((a + d * 65599 ^ key.length) % 2 ^ 32 : ℕ) - a [ZMOD 2 ^ 32] := by
    have hmod := (Int.mod_modEq (a + d * 65599 ^ key.length : ℤ) (2 ^ 32)).symm.sub_right (a : ℤ)
    rw [add_sub_cancel_left] at hmod
    exact_mod_cast hmod
  have hsame : (a + d * 65599 ^ key.length) % 2 ^ 32 ≠ a := by
    intro hba
    rw [hba, sub_self] at hdist
    refine hzero ?_
    exact_mod_cast Int.modEq_zero_iff_dvd.mp hdist
  generalize (a + d * 65599 ^ key.length) % 2 ^ 32 = b at heq hb hdist hsame
  have hwhole : ((Nat.gcd (128 * d) (2 ^ 32) : ℕ) : ℤ) ∣ 128 * d := by
    exact_mod_cast Nat.gcd_dvd_left (128 * d) (2 ^ 32)
  rcases Nat.lt_or_ge a b with hlt | hge
  · obtain ⟨c, hc⟩ := (Nat.modEq_iff_dvd' (Nat.le_of_lt hlt)).mp heq
    have hpos : 0 < c := Nat.pos_of_ne_zero fun h0 => by rw [h0] at hc; omega
    have hx : (b : ℤ) - a = c * size := by
      have : b = a + c * size := by rw [Nat.mul_comm c]; omega
      rw [this]
      push_cast
      ring
    rw [hx] at hdist
    have hsmall : c * size < 2 ^ 32 := by rw [Nat.mul_comm, ← hc]; omega
    rcases stride_modEq hdist with hu | hu
    · refine h d c 1 hd (by omega) hpos hsmall (by decide) ?_
      exact Int.natCast_modEq_iff.mp (by push_cast; simpa using hu)
    · refine h d c 63 hd (by omega) hpos hsmall (by decide) ?_
      exact Int.natCast_modEq_iff.mp (by push_cast; exact hu)
  · obtain ⟨c, hc⟩ := (Nat.modEq_iff_dvd' hge).mp heq.symm
    have hpos : 0 < c := Nat.pos_of_ne_zero fun h0 => by rw [h0] at hc; omega
    have hx : (b : ℤ) - a = -(c * size) := by
      have : a = b + c * size := by rw [Nat.mul_comm c]; omega
      rw [this]
      push_cast
      ring
    rw [hx] at hdist
    have hsmall : c * size < 2 ^ 32 := by rw [Nat.mul_comm, ← hc]; omega
    have hneg : ∀ u v : ℤ, u + v = 128 → -(c * size : ℤ) ≡ u * d [ZMOD Nat.gcd (128 * d) (2 ^ 32)] →
        (c * size : ℤ) ≡ v * d [ZMOD Nat.gcd (128 * d) (2 ^ 32)] := by
      intro u v huv hu
      have hmod := hu.neg
      rw [neg_neg] at hmod
      refine hmod.trans (Int.modEq_iff_dvd.mpr ?_)
      rw [sub_neg_eq_add, ← add_mul, add_comm v, huv]
      exact hwhole
    rcases stride_modEq hdist with hu | hu
    · refine h d c 127 hd (by omega) hpos hsmall (by decide) ?_
      exact Int.natCast_modEq_iff.mp (by push_cast; exact hneg 1 127 (by norm_num) (by simpa using hu))
    · refine h d c 65 hd (by omega) hpos hsmall (by decide) ?_
      exact Int.natCast_modEq_iff.mp (by push_cast; exact hneg 63 65 (by norm_num) hu)

/-! ## Keys that meet -/

/-- Every residue that is `1` or `63` modulo `128` is a stride. -/
theorem exists_stride {x : ℤ} (hx : x ≡ 1 [ZMOD 128] ∨ x ≡ 63 [ZMOD 128]) :
    ∃ l, l < 2 ^ 26 ∧ (65599 : ℤ) ^ l ≡ x [ZMOD 2 ^ 32] := by
  refine exists_pow_modEq (k := 7) (by decide) ⟨16809487, by norm_num⟩ 25 ?_ ?_
  · rcases hx with hx | hx
    · have := hx.of_dvd (show (2 : ℤ) ∣ 128 by decide)
      exact this
    · have := hx.of_dvd (show (2 : ℤ) ∣ 128 by decide)
      exact this
  · rcases hx with hx | hx
    · exact .inl hx.symm
    · exact .inr ((show (65599 : ℤ) ≡ 63 [ZMOD 2 ^ 7] by decide).trans hx.symm)

/-- After `2 ^ 26` more bytes the stride is the same again. -/
theorem stride_period (l : Nat) : (65599 : ℤ) ^ (l + 2 ^ 26) ≡ 65599 ^ l [ZMOD 2 ^ 32] := by
  obtain ⟨o, ho⟩ := pow_two_pow_eq (a := 65599) (k := 7) (by decide) ⟨16809487, by norm_num⟩ 25
  rw [pow_add, ho]
  refine (Int.modEq_iff_dvd.mpr ⟨65599 ^ l * (2 * o + 1), ?_⟩).symm
  ring

/-- A distance that the condition does not exclude is the distance of two replicas for some stride. -/
theorem exists_stride_of_modEq {d : Nat} {x u : ℤ} (hu : u = 1 ∨ u = 63)
    (h : x ≡ u * d [ZMOD Nat.gcd (128 * d) (2 ^ 32)]) :
    ∃ l, l < 2 ^ 26 ∧ (d * 65599 ^ l : ℤ) ≡ x [ZMOD 2 ^ 32] := by
  obtain ⟨q, hq⟩ := h.symm.dvd
  rw [Nat.gcd_eq_gcd_ab] at hq
  have hm : u + 128 * (Nat.gcdA (128 * d) (2 ^ 32) * q) ≡ u [ZMOD 128] :=
    (Int.modEq_iff_dvd.mpr ⟨Nat.gcdA (128 * d) (2 ^ 32) * q, by ring⟩).symm
  obtain ⟨l, hl, hmod⟩ := exists_stride (x := u + 128 * (Nat.gcdA (128 * d) (2 ^ 32) * q))
    (by rcases hu with rfl | rfl <;> simp only [hm, true_or, or_true])
  refine ⟨l, hl, (hmod.mul_left (d : ℤ)).trans (Int.modEq_iff_dvd.mpr
    ⟨Nat.gcdB (128 * d) (2 ^ 32) * q, ?_⟩)⟩
  push_cast at hq
  linear_combination hq

/-- The hash of replica `d` of a key, when its stride is `x` for `d` replicas. -/
theorem chooseGateway_of_stride {size d : Nat} {key : Buffer} (x : ℤ) (hash : Nat)
    (hlt : hash < 2 ^ 32) (hx : (d * 65599 ^ key.length : ℤ) ≡ x [ZMOD 2 ^ 32])
    (hhash : (hash : ℤ) = x + (digest key % 2 ^ 32 : ℕ)) :
    chooseGateway size key d = hash % size := by
  rw [chooseGateway_eq]
  congr 1
  have hmod : ((d * 65599 ^ key.length + digest key : ℕ) : ℤ) ≡ hash [ZMOD (2 ^ 32 : ℕ)] := by
    rw [hhash]
    push_cast
    exact hx.add (Int.mod_modEq _ _).symm
  have hnat := Int.natCast_modEq_iff.mp hmod
  rw [Nat.ModEq, Nat.mod_eq_of_lt hlt] at hnat
  exact hnat

theorem chooseGateway_zero (size : Nat) (key : Buffer) :
    chooseGateway size key 0 = digest key % 2 ^ 32 % size := by
  rw [chooseGateway_eq, Nat.zero_mul, Nat.zero_add]

/-- A key of zeros starts at the hash `0`, and no hash wraps before the one that is a multiple of the
number of gateways. -/
theorem meet_of_zeros {size d c l : Nat} (hsmall : c * size < 2 ^ 32)
    (h : (d * 65599 ^ l : ℤ) ≡ c * size [ZMOD 2 ^ 32]) :
    chooseGateway size (List.replicate l 0) 0 = chooseGateway size (List.replicate l 0) d := by
  have hdigest : digest (List.replicate l 0) % 2 ^ 32 = 0 := by rw [digest_zeros, Nat.zero_mod]
  rw [chooseGateway_zero, hdigest, Nat.zero_mod,
    chooseGateway_of_stride (c * size) (c * size) hsmall (by simpa using h)
      (by rw [hdigest]; push_cast; ring), Nat.mul_mod_left]

/-- One byte `127` at the right place of a key of zeros makes the hash start at `2 ^ 32 - 1`: the
inverse of `-127` is `1` modulo `128`. -/
theorem exists_key_from_last (l : Nat) : ∃ key : Buffer, key.length = l + 2 ^ 26 ∧
    digest key % 2 ^ 32 = 2 ^ 32 - 1 := by
  obtain ⟨p, hp, hmod⟩ := exists_stride (x := 270549121) (.inl (by decide))
  refine ⟨List.replicate (l + 2 ^ 26 - 1 - p) 0 ++ 127 :: List.replicate p 0, ?_, ?_⟩
  · rw [List.length_append, List.length_cons, List.length_replicate, List.length_replicate]
    omega
  · have hdigest : digest (127 :: List.replicate p 0) = 127 * 65599 ^ p := by
      have happend := digest_append [127] (List.replicate p 0)
      rw [digest_zeros, List.length_replicate] at happend
      exact happend
    rw [digest_append, digest_zeros, Nat.zero_mul, Nat.zero_add, hdigest]
    have hlast : ((127 * 65599 ^ p : ℕ) : ℤ) ≡ (2 ^ 32 - 1 : ℕ) [ZMOD (2 ^ 32 : ℕ)] := by
      push_cast
      exact (hmod.mul_left 127).trans (by decide)
    exact Int.natCast_modEq_iff.mp hlast

theorem meet_of_last {size d c l : Nat} (hpos : 0 < c * size) (hsmall : c * size < 2 ^ 32)
    (h : (d * 65599 ^ l : ℤ) ≡ -(c * size) [ZMOD 2 ^ 32]) :
    ∃ key : Buffer, key.length = l + 2 ^ 26 ∧ chooseGateway size key 0 = chooseGateway size key d := by
  obtain ⟨key, hlen, hdigest⟩ := exists_key_from_last l
  refine ⟨key, hlen, ?_⟩
  have hstride : (d * 65599 ^ key.length : ℤ) ≡ -(c * size) [ZMOD 2 ^ 32] := by
    rw [hlen]
    exact ((stride_period l).mul_left (d : ℤ)).trans h
  rw [chooseGateway_zero, hdigest,
    chooseGateway_of_stride _ (2 ^ 32 - 1 - c * size) (by omega) hstride
      (by rw [hdigest]; omega)]
  have hsplit : 2 ^ 32 - 1 = 2 ^ 32 - 1 - c * size + c * size := by omega
  conv_lhs => rw [hsplit]
  exact Nat.add_mul_mod_self_right _ _ _

/-- Where the condition fails, some key has two replicas on one gateway. -/
theorem seedsApart_of_distinct {size r : Nat} (hr : r ≤ 2 ^ 32)
    (h : ∀ key : Buffer, key.length < 2 ^ 32 → Distinct size key r) : SeedsApart size r := by
  intro d c u hd hdr hc hsmall hu hmod
  have hint : (c * size : ℤ) ≡ u * d [ZMOD Nat.gcd (128 * d) (2 ^ 32)] := by
    exact_mod_cast Int.natCast_modEq_iff.mpr hmod
  have hdirect : ∀ v : ℤ, v = 1 ∨ v = 63 → (u : ℤ) = v → False := by
    intro v hv huv
    rw [huv] at hint
    obtain ⟨l, hl, hmeet⟩ := exists_stride_of_modEq hv hint
    refine h (List.replicate l 0) ?_ 0 d hd hdr (meet_of_zeros hsmall hmeet)
    rw [List.length_replicate]
    omega
  have hwhole : ((Nat.gcd (128 * d) (2 ^ 32) : ℕ) : ℤ) ∣ 128 * d := by
    exact_mod_cast Nat.gcd_dvd_left (128 * d) (2 ^ 32)
  have hwrapped : ∀ v : ℤ, v = 1 ∨ v = 63 → (u : ℤ) = 128 - v → False := by
    intro v hv huv
    have hneg : -(c * size : ℤ) ≡ v * d [ZMOD Nat.gcd (128 * d) (2 ^ 32)] := by
      refine hint.neg.trans (Int.modEq_iff_dvd.mpr ?_)
      rw [huv]
      have : v * d - -((128 - v) * d) = 128 * (d : ℤ) := by ring
      rw [this]
      exact hwhole
    obtain ⟨l, hl, hmeet⟩ := exists_stride_of_modEq hv hneg
    rcases Nat.eq_zero_or_pos (c * size) with hzero | hpos
    · have hdvd : 2 ^ 32 ∣ d * 65599 ^ l := by
        rw [show ((c : ℤ) * size) = 0 by exact_mod_cast hzero, neg_zero] at hmeet
        exact_mod_cast Int.modEq_zero_iff_dvd.mp hmeet
      exact stride_ne_zero hd (by omega) hdvd
    · obtain ⟨key, hlen, hkey⟩ := meet_of_last hpos hsmall hmeet
      exact h key (by omega) 0 d hd hdr hkey
  simp only [List.mem_cons, List.not_mem_nil, or_false] at hu
  rcases hu with rfl | rfl | rfl | rfl
  · exact hdirect 1 (.inl rfl) rfl
  · exact hdirect 63 (.inr rfl) rfl
  · exact hwrapped 63 (.inr rfl) rfl
  · exact hwrapped 1 (.inl rfl) rfl

/-! ## When the replicas are on different gateways -/

/-- The largest power of two that divides the number of gateways is enough gateways, for every key. -/
theorem distinct_of_le_gcd {size r : Nat} (hr : r ≤ Nat.gcd size (2 ^ 32)) (key : Buffer) :
    Distinct size key r := by
  intro i j hij hj heq
  rw [chooseGateway_eq, chooseGateway_eq] at heq
  have hword : Nat.gcd size (2 ^ 32) ∣ 2 ^ 32 := Nat.gcd_dvd_right _ _
  have hmod : i * 65599 ^ key.length + digest key ≡ j * 65599 ^ key.length + digest key
      [MOD Nat.gcd size (2 ^ 32)] := by
    have h := Nat.ModEq.of_dvd (Nat.gcd_dvd_left size (2 ^ 32)) (a := _) (b := _) heq
    exact ((Nat.mod_modEq _ _).symm.of_dvd hword).trans (h.trans ((Nat.mod_modEq _ _).of_dvd hword))
  have hcop : Nat.gcd (Nat.gcd size (2 ^ 32)) (65599 ^ key.length) = 1 :=
    Nat.Coprime.coprime_dvd_left hword (Nat.Coprime.pow_right _ (by decide))
  have hij' := Nat.ModEq.cancel_right_of_coprime hcop (Nat.ModEq.add_right_cancel' _ hmod)
  rw [Nat.ModEq, Nat.mod_eq_of_lt (by omega), Nat.mod_eq_of_lt (by omega)] at hij'
  omega

/-- Which gateways the replicas of one key share, and which numbers of gateways and replicas are safe
for all keys. -/
theorem choose_gateway_distinct (size r : Nat) (hr : r ≤ 2 ^ 32) :
    (∀ key, Distinct size key r ↔ ∀ i d, 0 < d → i + d < r →
      ¬ Meet size ((i * 65599 ^ key.length + digest key) % 2 ^ 32)
        (d * 65599 ^ key.length % 2 ^ 32)) ∧
    ((∀ key : Buffer, key.length < 2 ^ 32 → Distinct size key r) ↔ SeedsApart size r) :=
  ⟨fun key => distinct_iff size key r,
    seedsApart_of_distinct hr, fun h key _ => h.distinct hr key⟩

/-- Up to `2 ^ 25` gateways no more than that power of two is safe. -/
theorem distinct_iff_le_gcd {size r : Nat} (hsize : 0 < size) (hmany : size ≤ 2 ^ 25) (hr : r ≤ 2 ^ 32) :
    (∀ key : Buffer, key.length < 2 ^ 32 → Distinct size key r) ↔ r ≤ Nat.gcd size (2 ^ 32) := by
  refine ⟨fun h => Nat.le_of_not_lt fun hlt => ?_, fun h key _ => distinct_of_le_gcd h key⟩
  have hapart := seedsApart_of_distinct hr h
  obtain ⟨q, hq⟩ := Nat.gcd_dvd_left size (2 ^ 32)
  obtain ⟨s, -, hs⟩ := (Nat.dvd_prime_pow Nat.prime_two).mp (Nat.gcd_dvd_right size (2 ^ 32))
  have hle : Nat.gcd size (2 ^ 32) ≤ 2 ^ 25 := (Nat.gcd_le_left _ hsize).trans hmany
  have hpos : 0 < Nat.gcd size (2 ^ 32) := Nat.gcd_pos_of_pos_left _ hsize
  have hodd : ¬ 2 ∣ q := by
    rintro ⟨e, rfl⟩
    have hexp : s < 32 := by
      rw [hs] at hle
      have := (Nat.pow_le_pow_iff_right (by decide : 1 < 2)).mp hle
      omega
    have hword : 2 * Nat.gcd size (2 ^ 32) ∣ 2 ^ 32 := by
      rw [hs, ← pow_succ']
      exact Nat.pow_dvd_pow 2 hexp
    have hdvd : 2 * Nat.gcd size (2 ^ 32) ∣ size := ⟨e, hq.trans (by ring)⟩
    have := Nat.le_of_dvd hpos (Nat.dvd_gcd hdvd hword)
    omega
  have hcop : Nat.Coprime q 128 := by
    rw [show 128 = 2 ^ 7 by rfl]
    exact Nat.Coprime.pow_right 7 ((Nat.Prime.coprime_iff_not_dvd Nat.prime_two).mpr hodd).symm
  obtain ⟨c, hc128, hone⟩ := Nat.exists_mul_mod_eq_one_of_coprime hcop (by decide)
  have hc : 0 < c := Nat.pos_of_ne_zero fun h0 => by
    rw [h0, Nat.mul_zero] at hone
    exact absurd hone (by decide)
  refine hapart (Nat.gcd size (2 ^ 32)) c 1 hpos hlt hc ?_ (by decide) ?_
  · have := Nat.mul_le_mul (Nat.le_of_lt_succ hc128) hmany
    omega
  · refine Nat.ModEq.of_dvd (Nat.gcd_dvd_left _ _) ?_
    have hmul : c * size = q * c * Nat.gcd size (2 ^ 32) := by
      exact (congrArg (c * ·) hq).trans (by ring)
    rw [hmul]
    exact Nat.ModEq.mul_right' _ hone

theorem choose_gateway_distinct_two : Distinct 2 [7] 2 := by
  refine (choose_gateway_distinct 2 2 (by decide)).2.mpr ?_ [7] (by decide)
  intro d c u hd hd2 hc hsmall hu hmod
  obtain rfl : d = 1 := by omega
  have hparity := hmod.of_dvd (show 2 ∣ Nat.gcd (128 * 1) (2 ^ 32) by decide)
  simp only [List.mem_cons, List.not_mem_nil, or_false] at hu
  rw [Nat.ModEq] at hparity
  omega

/-- Two replicas of the key of two zeros on the same one of three gateways. -/
theorem choose_gateway_meets : ¬ Distinct 3 [0, 0] 2 := by
  intro h
  exact h 0 1 (by decide) (by decide) (by decide)

end BlobSeer.SimpleDht
