import Mathlib.Data.List.Basic

/-!
# Overlays of writes

A map over cells, changed by a list of writes: each write sets a range of cells, and the last write
that covers a cell decides it. A write that `wipes` also forgets the cells it does not cover.
-/

namespace BlobSeer.Lib

universe u

variable {α : Type u}

/-- A write of the cells `first..final`. -/
structure Write (α : Type u) where
  first : Nat
  final : Nat
  value : Nat → α
  wipes : Bool := false

namespace Write

def Covers (W : Write α) (x : Nat) : Prop := W.first ≤ x ∧ x ≤ W.final

instance (W : Write α) (x : Nat) : Decidable (W.Covers x) := inferInstanceAs (Decidable (_ ∧ _))

def apply (W : Write α) (m : Nat → Option α) : Nat → Option α := fun x =>
  if W.Covers x then some (W.value x) else if W.wipes then none else m x

theorem apply_of_covers {W : Write α} {x : Nat} (h : W.Covers x) (m : Nat → Option α) :
    W.apply m x = some (W.value x) := if_pos h

theorem apply_of_not_covers {W : Write α} {x : Nat} (h : ¬ W.Covers x) (hw : W.wipes = false)
    (m : Nat → Option α) : W.apply m x = m x := by
  unfold apply
  rw [if_neg h, hw]
  rfl

theorem apply_of_wipes {W : Write α} {x : Nat} (h : ¬ W.Covers x) (hw : W.wipes = true)
    (m : Nat → Option α) : W.apply m x = none := by
  unfold apply
  rw [if_neg h, if_pos hw]

end Write

/-- The map after the writes, in order. -/
def overlay (base : Nat → Option α) (ws : List (Write α)) : Nat → Option α :=
  ws.foldl (fun m W => W.apply m) base

theorem overlay_take_succ {base : Nat → Option α} {ws : List (Write α)} {t : Nat} {W : Write α}
    (h : ws[t]? = some W) :
    overlay base (ws.take (t + 1)) = W.apply (overlay base (ws.take t)) := by
  unfold overlay
  rw [List.take_add_one, h, Option.toList_some, List.foldl_append]
  rfl

/-- Writes that neither cover a cell nor wipe leave it alone. -/
theorem overlay_skip {base : Nat → Option α} {ws : List (Write α)} {s x : Nat} :
    ∀ {t : Nat}, s ≤ t → t ≤ ws.length →
      (∀ k W, s ≤ k → k < t → ws[k]? = some W → ¬ W.Covers x ∧ W.wipes = false) →
      overlay base (ws.take t) x = overlay base (ws.take s) x
  | 0, hst, _, _ => by
    have e : s = 0 := by omega
    rw [e]
  | t + 1, hst, hlen, h => by
    by_cases he : s = t + 1
    · rw [he]
    · have hW := List.getElem?_eq_getElem (show t < ws.length by omega)
      obtain ⟨hc, hw⟩ := h t _ (by omega) (by omega) hW
      rw [overlay_take_succ hW, Write.apply_of_not_covers hc hw]
      exact overlay_skip (by omega) (by omega) fun k W h1 h2 => h k W h1 (by omega)

/-- The last write that covers a cell decides it. -/
theorem overlay_latest {base : Nat → Option α} {ws : List (Write α)} {k t x : Nat} {W : Write α}
    (hk : ws[k]? = some W) (hc : W.Covers x) (hkt : k < t) (ht : t ≤ ws.length)
    (hlater : ∀ k' W', k < k' → k' < t → ws[k']? = some W' → ¬ W'.Covers x ∧ W'.wipes = false) :
    overlay base (ws.take t) x = some (W.value x) := by
  rw [overlay_skip (s := k + 1) hkt ht fun k' W' h1 h2 => hlater k' W' h1 h2,
    overlay_take_succ hk, Write.apply_of_covers hc]

/-- Some write covers the cell, so there is a last one. -/
theorem exists_latest {ws : List (Write α)} {x : Nat} :
    ∀ {t : Nat}, (∃ k W, k < t ∧ ws[k]? = some W ∧ W.Covers x) →
      ∃ k W, k < t ∧ ws[k]? = some W ∧ W.Covers x ∧
        ∀ k' W', k < k' → k' < t → ws[k']? = some W' → ¬ W'.Covers x
  | 0, ⟨_, _, h, _⟩ => by omega
  | t + 1, ⟨k, W, hk, hW, hc⟩ => by
    by_cases hlast : ∃ W', ws[t]? = some W' ∧ W'.Covers x
    · obtain ⟨W', hW', hc'⟩ := hlast
      exact ⟨t, W', by omega, hW', hc', fun k' _ h1 h2 => by omega⟩
    · have hkt : k < t := by
        by_contra hge
        have e : k = t := by omega
        exact hlast ⟨W, e ▸ hW, hc⟩
      obtain ⟨k0, W0, h1, h2, h3, h4⟩ := exists_latest (t := t) ⟨k, W, hkt, hW, hc⟩
      refine ⟨k0, W0, by omega, h2, h3, fun k' W' hk' hlt hW' hc' => ?_⟩
      by_cases e : k' = t
      · exact hlast ⟨W', e ▸ hW', hc'⟩
      · exact h4 k' W' hk' (by omega) hW' hc'

/-- Cells beyond the base and beyond every write stay empty. -/
theorem overlay_support {base : Nat → Option α} {n : Nat} (hbase : ∀ x, n ≤ x → base x = none)
    {ws : List (Write α)} (hws : ∀ W ∈ ws, W.final < n) :
    ∀ x, n ≤ x → overlay base ws x = none := by
  induction ws generalizing base with
  | nil => exact hbase
  | cons W ws ih =>
    refine ih ?_ fun W' h => hws W' (List.mem_cons_of_mem _ h)
    intro x hx
    have hlt := hws W List.mem_cons_self
    have hc : ¬ W.Covers x := fun h => by
      have := h.2
      omega
    cases hw : W.wipes with
    | true => exact Write.apply_of_wipes hc hw base
    | false => exact (Write.apply_of_not_covers hc hw base).trans (hbase x hx)

end BlobSeer.Lib
