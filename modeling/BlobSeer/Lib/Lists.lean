import Mathlib.Data.List.Nodup
import Mathlib.Data.List.Perm.Basic
import Mathlib.Data.List.Forall2

/-!
# Lists of containers

Facts about lists whose elements hold items of their own (`l.flatMap f` are all the items): what
happens to the items when one element is changed in place or removed.
-/

namespace BlobSeer.Lib

variable {α β : Type}

/-- The elements of a list with one more at its end. -/
theorem getElem?_concat {l : List α} {x y : α} {n : Nat} (h : (l ++ [x])[n]? = some y) :
    l[n]? = some y ∨ n = l.length ∧ y = x := by
  rw [List.getElem?_append] at h
  split at h
  · exact .inl h
  · rw [List.getElem?_singleton] at h
    split at h
    · cases h
      exact .inr ⟨by omega, rfl⟩
    · cases h

/-- A property of every element, by position, survives a change in place that keeps it. -/
theorem forall_getElem?_modify {P : Nat → α → Prop} {l : List α} {i : Nat} {f : α → α}
    (h : ∀ (j : Nat) (a : α), l[j]? = some a → P j a) (hf : ∀ a, P i a → P i (f a)) :
    ∀ (j : Nat) (a : α), (l.modify i f)[j]? = some a → P j a := by
  intro j a hj
  rw [List.getElem?_modify] at hj
  obtain ⟨b, hb, rfl⟩ := Option.map_eq_some_iff.mp hj
  have hP := h j b hb
  split
  · subst i
    exact hf b hP
  · exact hP

/-- A property of every element, by position, survives changes in place that keep it. -/
theorem forall_getElem?_foldl_modify {P : Nat → α → Prop} {f : α → α} {pos : Nat → Nat}
    (is : List Nat) (l : List α) (h : ∀ (j : Nat) (a : α), l[j]? = some a → P j a)
    (hf : ∀ i ∈ is, ∀ a, P (pos i) a → P (pos i) (f a)) :
    ∀ (j : Nat) (a : α), (is.foldl (fun l i => l.modify (pos i) f) l)[j]? = some a → P j a := by
  induction is generalizing l with
  | nil => exact h
  | cons i is ih =>
    refine ih (l.modify (pos i) f) (forall_getElem?_modify h (hf i List.mem_cons_self)) ?_
    exact fun k hk => hf k (List.mem_cons_of_mem i hk)

theorem length_foldl_modify (f : α → α) (pos : Nat → Nat) (is : List Nat) (l : List α) :
    (is.foldl (fun l i => l.modify (pos i) f) l).length = l.length := by
  induction is generalizing l with
  | nil => rfl
  | cons i is ih => rw [List.foldl_cons, ih, List.length_modify]

/-- Changing an element so that it holds more items adds these items. -/
theorem flatMap_modify_perm {f : α → List β} {g : α → α} {extra : List β}
    (hg : ∀ a, f (g a) = f a ++ extra) :
    ∀ {l : List α} {i : Nat}, i < l.length →
      ((l.modify i g).flatMap f).Perm (l.flatMap f ++ extra)
  | a :: l, 0, _ => by
    rw [List.modify_zero_cons, List.flatMap_cons, List.flatMap_cons, hg, List.append_assoc,
      List.append_assoc]
    exact List.perm_append_comm.append_left (f a)
  | a :: l, i + 1, h => by
    rw [List.modify_succ_cons, List.flatMap_cons, List.flatMap_cons, List.append_assoc]
    exact (flatMap_modify_perm hg (Nat.lt_of_succ_lt_succ h)).append_left (f a)

/-- Changing an element without touching its items. -/
theorem flatMap_modify_eq {f : α → List β} {g : α → α} (hg : ∀ a, f (g a) = f a) :
    ∀ (l : List α) (i : Nat), (l.modify i g).flatMap f = l.flatMap f
  | [], _ => by rw [List.modify_nil]
  | a :: l, 0 => by rw [List.modify_zero_cons, List.flatMap_cons, List.flatMap_cons, hg]
  | a :: l, i + 1 => by
    rw [List.modify_succ_cons, List.flatMap_cons, List.flatMap_cons, flatMap_modify_eq hg l i]

theorem flatMap_foldl_modify_eq {f : α → List β} {g : α → α} (hg : ∀ a, f (g a) = f a)
    (pos : Nat → Nat) (is : List Nat) (l : List α) :
    (is.foldl (fun l i => l.modify (pos i) g) l).flatMap f = l.flatMap f := by
  induction is generalizing l with
  | nil => rfl
  | cons i is ih => rw [List.foldl_cons, ih, flatMap_modify_eq hg]

/-- Every change adds one item. -/
theorem flatMap_foldl_modify_perm {f : α → List β} {g : α → α} {b : β}
    (hg : ∀ a, f (g a) = f a ++ [b]) {pos : Nat → Nat} {n : Nat} (hpos : ∀ i, pos i < n)
    (is : List Nat) (l : List α) (hl : l.length = n) :
    ((is.foldl (fun l i => l.modify (pos i) g) l).flatMap f).Perm
      (l.flatMap f ++ List.replicate is.length b) := by
  induction is generalizing l with
  | nil =>
    rw [List.foldl_nil, List.length_nil, List.replicate_zero, List.append_nil]
  | cons i is ih =>
    rw [List.foldl_cons, List.length_cons, List.replicate_succ]
    refine (ih (l.modify (pos i) g) (by rw [List.length_modify, hl])).trans ?_
    have hperm := flatMap_modify_perm hg (l := l) (i := pos i) (by rw [hl]; exact hpos i)
    rw [List.append_cons]
    exact hperm.append_right _

theorem flatMap_set_eq {f : α → List β} {b : α} :
    ∀ {l : List α} {i : Nat} {a : α}, l[i]? = some a → f b = f a →
      (l.set i b).flatMap f = l.flatMap f
  | x :: l, 0, a, h, hf => by
    rw [List.getElem?_cons_zero, Option.some.injEq] at h
    rw [List.set_cons_zero, List.flatMap_cons, List.flatMap_cons, hf, h]
  | x :: l, i + 1, a, h, hf => by
    rw [List.getElem?_cons_succ] at h
    rw [List.set_cons_succ, List.flatMap_cons, List.flatMap_cons, flatMap_set_eq h hf]

/-- Removing an element removes its items. -/
theorem flatMap_eraseIdx_perm {f : α → List β} :
    ∀ {l : List α} {i : Nat} {a : α}, l[i]? = some a →
      (l.flatMap f).Perm (f a ++ (l.eraseIdx i).flatMap f)
  | x :: l, 0, a, h => by
    rw [List.getElem?_cons_zero, Option.some.injEq] at h
    rw [List.eraseIdx_cons_zero, List.flatMap_cons, h]
  | x :: l, i + 1, a, h => by
    rw [List.getElem?_cons_succ] at h
    rw [List.eraseIdx_cons_succ, List.flatMap_cons, List.flatMap_cons]
    refine ((flatMap_eraseIdx_perm h).append_left (f x)).trans ?_
    rw [← List.append_assoc, ← List.append_assoc]
    exact List.perm_append_comm.append_right _

theorem count_map_eq_length_filter [DecidableEq β] (f : α → β) (b : β) (l : List α) :
    (l.map f).count b = (l.filter fun a => f a = b).length := by
  rw [List.count_eq_length_filter, List.filter_map, List.length_map]
  rfl

theorem exists_mem_of_forall₂ {R : α → β → Prop} :
    ∀ {l : List α} {l' : List β} {a : α}, List.Forall₂ R l l' → a ∈ l → ∃ b ∈ l', R a b
  | _, _, _, .cons hr hs, ha => by
    rcases List.mem_cons.mp ha with rfl | ha
    · exact ⟨_, List.mem_cons_self, hr⟩
    · obtain ⟨b, hb, hab⟩ := exists_mem_of_forall₂ hs ha
      exact ⟨b, List.mem_cons_of_mem _ hb, hab⟩

/-- Where `f` tells the elements apart, one element has the value of `f` that `a` has. -/
theorem filter_map_eq_singleton [DecidableEq β] {f : α → β} :
    ∀ {l : List α} {a : α}, (l.map f).Nodup → a ∈ l → (l.filter fun x => f x = f a) = [a]
  | x :: l, a, hnd, ha => by
    rw [List.map_cons, List.nodup_cons] at hnd
    rcases List.mem_cons.mp ha with rfl | ha
    · rw [List.filter_cons_of_pos (by simp), List.filter_eq_nil_iff.mpr]
      intro y hy heq
      exact hnd.1 (List.mem_map.mpr ⟨y, hy, by simpa using heq⟩)
    · rw [List.filter_cons_of_neg, filter_map_eq_singleton hnd.2 ha]
      intro heq
      exact hnd.1 (List.mem_map.mpr ⟨a, ha, by simpa using Eq.symm (of_decide_eq_true heq)⟩)

end BlobSeer.Lib
