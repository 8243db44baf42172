import Mathlib.Data.List.Basic

/-!
# Pieces that lie one after another

A piece has a place and a length. `Tiles start len a l b` says that the pieces of `l` lie one after
another from `a` up to `b`; then every position in between is in exactly one of them, and no piece
reaches beyond (`Tiles.countP_eq`). Since that is a count, it holds for the pieces in any order.
-/

namespace BlobSeer.Lib

variable {α : Type} (start len : α → Nat)

/-- The pieces lie one after another from `a` up to `b`. -/
def Tiles : Nat → List α → Nat → Prop
  | a, [], b => a = b
  | a, x :: l, b => start x = a ∧ Tiles (a + len x) l b

/-- The position is in the piece. -/
def holdsAt (p : Nat) (x : α) : Bool := decide (start x ≤ p ∧ p < start x + len x)

variable {start len}

theorem holdsAt_iff {p : Nat} {x : α} :
    holdsAt start len p x = true ↔ start x ≤ p ∧ p < start x + len x := by
  rw [holdsAt, decide_eq_true_eq]

namespace Tiles

theorem le {b : Nat} : ∀ {a : Nat} {l : List α}, Tiles start len a l b → a ≤ b
  | _, [], h => Nat.le_of_eq h
  | _, _ :: _, h => Nat.le_trans (Nat.le_add_right _ _) (le h.2)

theorem mem {b : Nat} {x : α} :
    ∀ {a : Nat} {l : List α}, Tiles start len a l b → x ∈ l → a ≤ start x ∧ start x + len x ≤ b
  | _, _ :: _, h, hx => by
    have hle := le h.2
    rcases List.mem_cons.mp hx with rfl | hx
    · have := h.1
      omega
    · have := mem h.2 hx
      omega

theorem append {b c : Nat} {l' : List α} (h' : Tiles start len b l' c) :
    ∀ {a : Nat} {l : List α}, Tiles start len a l b → Tiles start len a (l ++ l') c
  | _, [], h => by
    subst h
    exact h'
  | _, _ :: _, h => ⟨h.1, append h' h.2⟩

theorem single {x : α} {a b : Nat} (hstart : start x = a) (hend : a + len x = b) :
    Tiles start len a [x] b :=
  ⟨hstart, hend⟩

/-- Blocks of one width. -/
theorem blocks {f : Nat → α} {w : Nat} :
    ∀ {n i a : Nat}, (∀ j < n, start (f (i + j)) = a + j * w ∧ len (f (i + j)) = w) →
      Tiles start len a ((List.range' i n).map f) (a + n * w)
  | 0, i, a, _ => by
    rw [Nat.zero_mul]
    rfl
  | n + 1, i, a, h => by
    obtain ⟨hstart, hlen⟩ := h 0 (Nat.succ_pos n)
    rw [Nat.add_zero] at hstart hlen
    rw [Nat.zero_mul, Nat.add_zero] at hstart
    have hrest : Tiles start len (a + w) ((List.range' (i + 1) n).map f) (a + w + n * w) := by
      refine blocks fun j hj => ?_
      obtain ⟨hs, hl⟩ := h (j + 1) (Nat.succ_lt_succ hj)
      rw [Nat.add_assoc, Nat.add_comm 1 j]
      refine ⟨?_, hl⟩
      rw [hs, Nat.succ_mul, Nat.add_comm (j * w), Nat.add_assoc]
    rw [List.range'_succ, List.map_cons, Nat.succ_mul, Nat.add_comm (n * w), ← Nat.add_assoc]
    refine ⟨hstart, ?_⟩
    rw [hlen]
    exact hrest

/-- Every position is in exactly one piece, and none outside. -/
theorem countP_eq {b p : Nat} :
    ∀ {a : Nat} {l : List α}, Tiles start len a l b →
      l.countP (holdsAt start len p) = if a ≤ p ∧ p < b then 1 else 0
  | a, [], h => by
    have h : a = b := h
    rw [List.countP_nil, if_neg (by omega)]
  | a, x :: l, h => by
    have hle := le h.2
    rw [List.countP_cons, countP_eq h.2, ← h.1]
    simp only [holdsAt_iff]
    have hx := h.1
    split
    · rw [if_neg (by omega), if_pos (by omega)]
    · split
      · rw [if_pos (by omega)]
      · rw [if_neg (by omega)]

end Tiles

/-- What is counted once is there, and nothing else is. -/
theorem exists_filter_eq_singleton {q : α → Bool} {l : List α} (h : l.countP q = 1) :
    ∃ x ∈ l, q x = true ∧ l.filter q = [x] := by
  rw [List.countP_eq_length_filter] at h
  obtain ⟨x, hx⟩ := List.length_eq_one_iff.mp h
  have hmem : x ∈ l.filter q := by
    rw [hx]
    exact List.mem_singleton_self x
  obtain ⟨hl, hq⟩ := List.mem_filter.mp hmem
  exact ⟨x, hl, hq, hx⟩

end BlobSeer.Lib
