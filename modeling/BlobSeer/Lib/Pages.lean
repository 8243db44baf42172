import Mathlib.Data.List.Basic

/-!
# Reading a growing list in pages

The items of a list lie one behind the other in a buffer, each with the position behind it as its
cookie. A reader asks for some bytes from a position on, takes the items that are complete there, and
goes on at the cookie of the last one. The list may grow at its end from one page to the next. What the
reader has is always the beginning of the list, without a gap and without an item twice (`ReadsPrefix`),
and it has the whole list when a page that has room for an item brings none (`ReadsPrefix.done`).
-/

namespace BlobSeer.Lib

universe u

variable {α : Type u} (size : α → Nat)

/-- The items from position `pos` on, with the positions behind them. -/
def layout : Nat → List α → List (α × Nat)
  | _, [] => []
  | pos, a :: l => (a, pos + size a) :: layout (pos + size a) l

/-- The bytes of all items. -/
def extent : List α → Nat
  | [] => 0
  | a :: l => size a + extent l

@[simp] theorem extent_nil : extent size ([] : List α) = 0 := rfl

@[simp] theorem extent_cons (a : α) (l : List α) : extent size (a :: l) = size a + extent size l := rfl

@[simp] theorem extent_append (l l' : List α) :
    extent size (l ++ l') = extent size l + extent size l' := by
  induction l with
  | nil => simp
  | cons a l ih => simp [ih, Nat.add_assoc]

@[simp] theorem map_layout (pos : Nat) (l : List α) : (layout size pos l).map (·.1) = l := by
  induction l generalizing pos with
  | nil => rfl
  | cons a l ih => simp [layout, ih]

theorem layout_append (pos : Nat) (l l' : List α) :
    layout size pos (l ++ l') = layout size pos l ++ layout size (pos + extent size l) l' := by
  induction l generalizing pos with
  | nil => simp [layout]
  | cons a l ih => simp [layout, ih, Nat.add_assoc]

/-- The items that lie in the bytes from `start` to `stop`. -/
def complete (start stop : Nat) (buf : List (α × Nat)) : List (α × Nat) :=
  buf.filter fun e => start ≤ e.2 - size e.1 ∧ e.2 ≤ stop

/-- What a reader has, and where it goes on. -/
structure PageReader (α : Type u) where
  off : Nat := 0
  got : List α := []

/-- The reader takes the items of a page. -/
def PageReader.take (r : PageReader α) (page : List (α × Nat)) : PageReader α where
  off := (page.getLast?.map (·.2)).getD r.off
  got := r.got ++ page.map (·.1)

variable {size}

theorem le_of_mem_layout {pos : Nat} {l : List α} {e : α × Nat} (he : e ∈ layout size pos l) :
    pos + size e.1 ≤ e.2 ∧ e.2 ≤ pos + extent size l := by
  induction l generalizing pos with
  | nil => cases he
  | cons a l ih =>
    rw [extent_cons]
    rcases List.mem_cons.mp he with rfl | he
    · simp
    · have := ih he
      omega

/-- Items that end behind `stop` are not in the page. -/
theorem complete_behind {pos start stop : Nat} {a : α} {l : List α} (h : stop < pos + size a) :
    complete size start stop (layout size pos (a :: l)) = [] := by
  refine List.filter_eq_nil_iff.mpr fun e he => ?_
  rcases List.mem_cons.mp he with rfl | he
  · simp only [decide_eq_true_eq]
    omega
  · have := le_of_mem_layout he
    simp only [decide_eq_true_eq]
    omega

/-- A page that starts with an item has the items that fit, up to the first one that does not. -/
theorem complete_eq_take (size : α → Nat) (start stop : Nat) (l : List α) {pos : Nat} (h : start ≤ pos) :
    ∃ k, complete size start stop (layout size pos l) = layout size pos (l.take k) ∧
      (k = 0 → ∀ a ∈ l.head?, stop < pos + size a) := by
  induction l generalizing pos with
  | nil => exact ⟨0, rfl, by simp⟩
  | cons a l ih =>
    by_cases hfit : pos + size a ≤ stop
    · obtain ⟨k, hk, -⟩ := ih (by omega : start ≤ pos + size a)
      refine ⟨k + 1, ?_, by simp⟩
      rw [layout, complete, List.filter_cons_of_pos (by simp [h, hfit]), List.take_succ_cons, layout,
        ← hk, complete]
    · refine ⟨0, ?_, ?_⟩
      · rw [complete_behind (by omega)]
        rfl
      · simp only [List.head?_cons, Option.mem_def, Option.some.injEq, forall_eq']
        omega

section reader

variable (hpos : ∀ a, 0 < size a)

include hpos in
/-- Items that end at `start` or before are not in the page. -/
theorem complete_before {pos start stop : Nat} {l : List α} (h : pos + extent size l ≤ start) :
    complete size start stop (layout size pos l) = [] := by
  refine List.filter_eq_nil_iff.mpr fun e he => ?_
  have hmem := le_of_mem_layout he
  have := hpos e.1
  simp only [decide_eq_true_eq]
  omega

/-- What the reader has is the beginning of the list, and it goes on behind it. -/
structure ReadsPrefix (size : α → Nat) (l : List α) (r : PageReader α) : Prop where
  isPrefix : r.got <+: l
  off : r.off = extent size r.got

namespace ReadsPrefix

variable {l l' : List α} {r : PageReader α}

theorem start (l : List α) : ReadsPrefix size l {} := ⟨List.nil_prefix, rfl⟩

/-- The list grows. -/
theorem grow (h : ReadsPrefix size l r) (hl : l <+: l') : ReadsPrefix size l' r :=
  ⟨h.isPrefix.trans hl, h.off⟩

include hpos in
/-- A page brings the items that follow, up to one that does not fit. -/
theorem page (h : ReadsPrefix size l r) (stop : Nat) :
    ∃ rest k, l = r.got ++ rest ∧
      complete size r.off stop (layout size 0 l) = layout size r.off (rest.take k) ∧
      (k = 0 → ∀ a ∈ rest.head?, stop < r.off + size a) := by
  obtain ⟨rest, rfl⟩ := h.isPrefix
  obtain ⟨k, hk, hstop⟩ := complete_eq_take size r.off stop rest (Nat.le_refl r.off)
  refine ⟨rest, k, rfl, ?_, hstop⟩
  have hbefore : complete size r.off stop (layout size 0 r.got) = [] :=
    complete_before hpos (by simp [h.off])
  rw [layout_append, complete, List.filter_append, ← complete, ← complete, hbefore, List.nil_append,
    Nat.zero_add, ← h.off, hk]

theorem getLast_layout (pos : Nat) (l : List α) :
    ((layout size pos l).getLast?.map (·.2)).getD pos = pos + extent size l := by
  induction l generalizing pos with
  | nil => rfl
  | cons a l ih =>
    have hlast := ih (pos + size a)
    rw [extent_cons, ← Nat.add_assoc, ← hlast, layout, List.getLast?_cons]
    cases (layout size (pos + size a) l).getLast? <;> rfl

include hpos in
/-- A page leaves the reader with the beginning of the list. -/
theorem take (h : ReadsPrefix size l r) (stop : Nat) :
    ReadsPrefix size l (r.take (complete size r.off stop (layout size 0 l))) := by
  obtain ⟨rest, k, hl, hpage, -⟩ := h.page hpos stop
  rw [hpage]
  refine ⟨?_, ?_⟩
  · rw [PageReader.take, map_layout, hl]
    exact List.prefix_append_right_inj _ |>.mpr (List.take_prefix k rest)
  · rw [PageReader.take, map_layout, getLast_layout, extent_append, h.off]

include hpos in
/-- A page without items that has room for any of them is read behind the last one. -/
theorem done (h : ReadsPrefix size l r) {stop : Nat} (hroom : ∀ a ∈ l, r.off + size a ≤ stop)
    (hempty : complete size r.off stop (layout size 0 l) = []) : r.got = l := by
  obtain ⟨rest, k, hl, hpage, hstop⟩ := h.page hpos stop
  cases rest with
  | nil => rw [hl, List.append_nil]
  | cons a rest =>
    have hk : k = 0 := by
      cases k with
      | zero => rfl
      | succ k =>
        rw [hempty, List.take_succ_cons, layout] at hpage
        cases hpage
    have hlt := hstop hk a rfl
    have hle := hroom a (by rw [hl]; exact List.mem_append_right _ List.mem_cons_self)
    omega

end ReadsPrefix

end reader

end BlobSeer.Lib
