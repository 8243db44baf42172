import BlobSeer.PManager.AdvManager
import Mathlib.Order.Defs.Unbundled
import Mathlib.Data.Set.Defs

/-!
# The order of the info index (`score_entry::operator<`)

The comment on `operator<` puts the provider with the lowest score first, as long as it has free
space. The code tests the scores before it asks whether the other provider is full. It is still a
strict partial order (`ScoreEntry.lt_irrefl`, `ScoreEntry.lt_trans`), but a full provider is
incomparable to those with free space and a higher score, which need not be incomparable to each
other.
-/

namespace BlobSeer

namespace ScoreEntry

/-- The order in three parts: between full entries, from free to full, and between free entries. -/
theorem lt_iff (a b : ScoreEntry) : a.lt b = true ↔
    (a.free = 0 ∧ b.free = 0 ∧ a.score < b.score) ∨
    (0 < a.free ∧ b.free = 0 ∧ a.score ≤ b.score) ∨
    (0 < a.free ∧ 0 < b.free ∧ (a.score < b.score ∨ a.score = b.score ∧ b.free < a.free)) := by
  unfold lt
  split
  · rw [decide_eq_true_iff]
    omega
  · split
    · simp only [Bool.false_eq_true, false_iff]
      omega
    · split
      · simp only [true_iff]
        omega
      · rw [decide_eq_true_iff]
        omega

theorem lt_irrefl (a : ScoreEntry) : ¬ a.lt a = true := by
  rw [lt_iff]
  omega

theorem lt_trans {a b c : ScoreEntry} (hab : a.lt b = true) (hbc : b.lt c = true) :
    a.lt c = true := by
  rw [lt_iff] at hab hbc ⊢
  omega

theorem lt_full_iff {a b : ScoreEntry} (ha : 0 < a.free) (hb : b.free = 0) :
    a.lt b = true ↔ a.score ≤ b.score := by
  rw [lt_iff]
  omega

theorem lt_free_iff {a b : ScoreEntry} (ha : 0 < a.free) (hb : 0 < b.free) :
    a.lt b = true ↔ a.score < b.score ∨ a.score = b.score ∧ b.free < a.free := by
  rw [lt_iff]
  omega

/-- The four counters are 64 bits wide. -/
def Fits (a : ScoreEntry) : Prop :=
  a.score < 2 ^ 64 ∧ a.free < 2 ^ 64 ∧ a.readPages < 2 ^ 64 ∧ a.readTotal < 2 ^ 64

end ScoreEntry

/-- What the ordered index and the comment on `operator<` ask for, on a set of entries. -/
structure ScoreOrder (S : Set ScoreEntry) : Prop where
  weak : IsStrictWeakOrder S fun a b => a.1.lt b.1 = true
  free_first : ∀ a ∈ S, ∀ b ∈ S, 0 < a.free → b.free = 0 → a.lt b = true
  by_score : ∀ a ∈ S, ∀ b ∈ S, 0 < a.free → 0 < b.free →
    (a.lt b = true ↔ a.score < b.score ∨ a.score = b.score ∧ b.free < a.free)

/-- No full entry of the set has a lower score than one with free space. -/
def FullLast (S : Set ScoreEntry) : Prop :=
  ∀ a ∈ S, ∀ b ∈ S, 0 < a.free → b.free = 0 → a.score ≤ b.score

namespace FullLast

variable {S : Set ScoreEntry} (hS : FullLast S) {a b c : ScoreEntry} (ha : a ∈ S) (hb : b ∈ S)

include hS ha hb

/-- Where the full entries have the highest scores, only equal entries are incomparable. -/
theorem incomp_iff : (¬ a.lt b = true ∧ ¬ b.lt a = true) ↔
    (a.free = 0 ∧ b.free = 0 ∨ a.free = b.free) ∧ a.score = b.score := by
  have hab := hS a ha b hb
  have hba := hS b hb a ha
  rw [ScoreEntry.lt_iff, ScoreEntry.lt_iff]
  omega

theorem incomp_trans (hc : c ∈ S) (hab : ¬ a.lt b = true ∧ ¬ b.lt a = true)
    (hbc : ¬ b.lt c = true ∧ ¬ c.lt b = true) : ¬ a.lt c = true ∧ ¬ c.lt a = true := by
  rw [hS.incomp_iff ha hb] at hab
  rw [hS.incomp_iff hb hc] at hbc
  rw [hS.incomp_iff ha hc]
  omega

end FullLast

/-- **The providers are ordered as the index and the comment ask**, on a set of entries, if and only
if no full entry of the set has a lower score than one with free space. -/
theorem scoreOrder_iff (S : Set ScoreEntry) : ScoreOrder S ↔ FullLast S := by
  constructor
  · intro h a ha b hb hfree hfull
    exact (ScoreEntry.lt_full_iff hfree hfull).mp (h.free_first a ha b hb hfree hfull)
  · intro hS
    refine ⟨?_, ?_, ?_⟩
    · exact {
        irrefl := fun a => a.1.lt_irrefl
        trans := fun _ _ _ => ScoreEntry.lt_trans
        incomp_trans := fun a b c => hS.incomp_trans a.2 b.2 c.2 }
    · intro a ha b hb hfree hfull
      exact (ScoreEntry.lt_full_iff hfree hfull).mpr (hS a ha b hb hfree hfull)
    · intro a _ b _ ha hb
      exact ScoreEntry.lt_free_iff ha hb

/-- Two providers with free space and scores `1` and `2`, and a full one with score `0`: the full
one is incomparable to both, but the other two are not incomparable. -/
theorem not_scoreOrder :
    ¬ ScoreOrder {a | a.Fits} ∧
    ¬ IsStrictWeakOrder {a : ScoreEntry // a.Fits} (fun a b => a.1.lt b.1 = true) ∧
    ScoreEntry.lt { score := 1, free := 1 } { score := 0, free := 0 } = false := by
  have hweak : ¬ IsStrictWeakOrder {a : ScoreEntry // a.Fits} fun a b => a.1.lt b.1 = true := by
    intro h
    have hincomp := h.incomp_trans
      ⟨{ score := 1, free := 1 }, by unfold ScoreEntry.Fits; decide⟩
      ⟨{ score := 0, free := 0 }, by unfold ScoreEntry.Fits; decide⟩
      ⟨{ score := 2, free := 1 }, by unfold ScoreEntry.Fits; decide⟩ (by decide) (by decide)
    exact hincomp.1 (by decide)
  exact ⟨fun h => hweak h.weak, hweak, by decide⟩

end BlobSeer
