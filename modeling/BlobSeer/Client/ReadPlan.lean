import BlobSeer.Client.Read
import BlobSeer.Lib.Tiles

/-!
# The plan of a read

`read` derives its requests from four quantities (`left_part`, `right_part`, `l` and `r`) by divisions
and remainders. In the order left end, whole pages, right end the requests lie one after another in
the buffer, from `0` to `size` (`readPlan_tiles`), and each of them asks for the bytes that belong
at its place (`Fits`). The answer to a request goes into a `buffer_wrapper`, whose size has 32 bits.
So every byte of the buffer is written once, with the right byte of the right page, when the range
has less than `2 ^ 32` bytes of each page, and only then (`read_plan_covers`).
-/

namespace BlobSeer

open Lib

/-- The first byte of the page that a request asks for. -/
def PageRead.first (r : PageRead) : Nat :=
  match r.part with
  | none => 0
  | some (offset, _) => offset

/-- The request asks for the byte at position `b` of the buffer. -/
def PageRead.asks (b : Nat) (r : PageRead) : Bool := holdsAt PageRead.dest PageRead.len b r

/-- The answer to the request writes position `b` of the buffer. -/
def PageRead.writes (b : Nat) (r : PageRead) : Bool := holdsAt PageRead.dest PageRead.bufferSize b r

theorem PageRead.asks_of_writes {b : Nat} {r : PageRead} (h : r.writes b = true) :
    r.asks b = true := by
  obtain ⟨hge, hlt⟩ := holdsAt_iff.mp h
  have hle : r.bufferSize ≤ r.len := Nat.mod_le _ _
  exact holdsAt_iff.mpr ⟨hge, by omega⟩

theorem PageRead.writes_of_asks {b : Nat} {r : PageRead} (hshort : r.len < 2 ^ 32)
    (h : r.asks b = true) : r.writes b = true := by
  rw [PageRead.writes, holdsAt_iff, PageRead.bufferSize, u32_of_lt hshort]
  exact holdsAt_iff.mp h

/-- The pages that hold the bytes from `offset` to `offset + size`. -/
def touchedPages (psize offset size : Nat) : Nat :=
  (offset + size - 1) / psize + 1 - offset / psize

/-- The bytes of page `k` of the blob that are in the range. -/
def pagePart (psize offset size k : Nat) : Nat :=
  min ((k + 1) * psize) (offset + size) - max (k * psize) offset

/-- The range has less than `2 ^ 32` bytes of each page. -/
def ShortParts (psize offset size : Nat) : Prop :=
  ∀ i < touchedPages psize offset size, pagePart psize offset size (offset / psize + i) < 2 ^ 32

instance (psize offset size : Nat) : Decidable (ShortParts psize offset size) :=
  inferInstanceAs (Decidable (∀ i < _, _))

theorem ShortParts.of_psize {psize offset size : Nat} (h : psize < 2 ^ 32) :
    ShortParts psize offset size := by
  intro i _
  have hsucc : (offset / psize + i + 1) * psize = (offset / psize + i) * psize + psize :=
    Nat.succ_mul ..
  rw [pagePart]
  omega

/-- The request asks for the bytes of its page that belong at its place in the buffer. -/
structure PageRead.Fits (psize offset size : Nat) (r : PageRead) : Prop where
  place : offset + r.dest = (offset / psize + r.leaf) * psize + r.first
  within : r.first + r.len ≤ psize
  pos : 0 < r.len
  leaf : r.leaf < touchedPages psize offset size
  part : r.part = none ∧ r.len = psize ∨ r.part = some (r.first, r.len)

/-- A byte that a request writes, as a place in the blob. -/
theorem PageRead.Fits.source {psize offset size : Nat} {r : PageRead}
    (h : r.Fits psize offset size) {b : Nat} (hb : r.asks b = true) :
    offset / psize + r.leaf = (offset + b) / psize ∧
      r.first + (b - r.dest) = (offset + b) % psize := by
  obtain ⟨hge, hlt⟩ := holdsAt_iff.mp hb
  have hplace := h.place
  have hwithin := h.within
  have hlt : r.first + (b - r.dest) < psize := by omega
  have hpos : 0 < psize := Nat.zero_lt_of_lt hlt
  have hsum : offset + b = r.first + (b - r.dest) + (offset / psize + r.leaf) * psize := by omega
  rw [hsum, Nat.add_mul_div_right _ _ hpos, Nat.div_eq_of_lt hlt, Nat.add_mul_mod_self_right,
    Nat.mod_eq_of_lt hlt, Nat.zero_add]
  exact ⟨rfl, rfl⟩

/-! ## What a read leaves alone -/

section frame

variable {answers : Answers} {rand : Nat → Nat → Nat} {r : PageRead}

theorem fetchLoop_length (last : ReadParam) {bytes : List UInt8} :
    ∀ {fuel : Nat} {adv : ProviderDesc} {leaf : RandomSelect} {params : List ReadParam},
      fetchLoop answers rand r last fuel adv leaf params = some bytes → bytes.length ≤ r.bufferSize
  | fuel + 1, adv, leaf, params, h => by
    rw [fetchLoop] at h
    split at h
    · cases h
      exact List.length_take_le ..
    · dsimp only at h
      split at h
      · cases h
      · exact fetchLoop_length last h

/-- No answer is longer than its buffer. -/
theorem fetch_length_le {leaf : RandomSelect} {bytes : List UInt8}
    (h : fetch answers rand r leaf = some bytes) : bytes.length ≤ r.bufferSize :=
  fetchLoop_length _ h

/-- A position that no request writes keeps its byte. -/
theorem runReads_frame {vadv : List RandomSelect} {b : Nat} :
    ∀ {plan : List PageRead} {result : Bool} {buffer : Nat → UInt8},
      (∀ r ∈ plan, r.writes b = false) →
        (runReads answers rand vadv plan result buffer).2 b = buffer b
  | [], _, _, _ => rfl
  | r :: plan, result, buffer, hfree => by
    have hrest := fun r' hr' => hfree r' (List.mem_cons_of_mem r hr')
    rw [runReads]
    cases hfetch : fetch answers rand r (vadv.getD r.leaf {}) with
    | none => exact runReads_frame hrest
    | some bytes =>
      have hlen := fetch_length_le hfetch
      have hr := Bool.eq_false_iff.mp (hfree r List.mem_cons_self)
      rw [PageRead.writes, ne_eq, holdsAt_iff] at hr
      dsimp only
      rw [runReads_frame hrest, place, if_neg (by omega)]

/-- The same for the whole read. -/
theorem readRoot_frame {locate : Nat → Query → Root → Option (Bool × List RandomSelect)} {root : Root}
    {version offset size : Nat} {buffer buffer' : Nat → UInt8} {result : Bool}
    (h : readRoot answers rand locate root version offset size buffer =
      some (.returned result buffer')) {b : Nat}
    (hfree : ∀ r ∈ readPlan root.pageSize offset size, r.writes b = false) : buffer' b = buffer b := by
  unfold readRoot at h
  dsimp only at h
  split at h
  · cases h
  split at h
  · cases h
  split at h
  · cases h
  split at h
  · cases h
  · cases h
    rfl
  split at h
  · cases h
  · cases h
    rfl
  · injection h with h
    injection h with _ hbuffer
    rw [← hbuffer]
    exact runReads_frame hfree

end frame

/-! ## The three parts of the plan -/

section parts

variable (psize offset size : Nat)

def leftReads : List PageRead :=
  if offset % psize ≠ 0 then
    let len := if leftPart psize offset < size then leftPart psize offset else size
    [{ leaf := 0, part := some (psize - leftPart psize offset, len), dest := 0, len := len }]
  else []

def rightReads : List PageRead :=
  if readsRight psize offset size then
    let r := rightEnd psize offset size
    let len := rightPart psize offset size
    [{ leaf := r, part := some (0, len), dest := leafDest psize offset r, len := len }]
  else []

def wholeReads : List PageRead :=
  (List.range' (leftCount psize offset)
      (rightEnd psize offset size - leftCount psize offset)).map fun i =>
    { leaf := i, part := none, dest := leafDest psize offset i, len := psize }

theorem readPlan_perm : (readPlan psize offset size).Perm
    (leftReads psize offset size ++ wholeReads psize offset size ++
      rightReads psize offset size) := by
  have hplan : readPlan psize offset size = leftReads psize offset size ++
      rightReads psize offset size ++ wholeReads psize offset size := rfl
  rw [hplan, List.append_assoc, List.append_assoc]
  exact List.perm_append_comm.append_left _

end parts

section cover

variable {psize offset size : Nat} (hps : 0 < psize) (hsize : 0 < size)
  (hend : offset + size < 2 ^ 64)

include hps hsize in
theorem touchedPages_eq : touchedPages psize offset size =
    (offset + size) / psize - offset / psize + if (offset + size) % psize = 0 then 0 else 1 := by
  have hdiv := Nat.div_add_mod (offset + size) psize
  have hmod := Nat.mod_lt (offset + size) hps
  have hle : offset / psize ≤ (offset + size) / psize := Nat.div_le_div_right (Nat.le_add_right _ _)
  rw [touchedPages]
  generalize (offset + size) % psize = y at hdiv hmod ⊢
  generalize (offset + size) / psize = e at hdiv hle ⊢
  split
  · next hy =>
    -- the range ends with a page, so its last byte is in page `e - 1`
    obtain ⟨d, rfl⟩ : ∃ d, e = d + 1 := ⟨e - 1, by
      have hne : e ≠ 0 := by
        rintro rfl
        omega
      omega⟩
    have hlast : (offset + size - 1) / psize = d := by
      rw [Nat.mul_succ] at hdiv
      rw [show offset + size - 1 = psize - 1 + psize * d by omega, Nat.add_mul_div_left _ _ hps,
        Nat.div_eq_of_lt (by omega), Nat.zero_add]
    rw [hlast]
    omega
  · next hy =>
    have hlast : (offset + size - 1) / psize = e := by
      rw [show offset + size - 1 = y - 1 + psize * e by omega, Nat.add_mul_div_left _ _ hps,
        Nat.div_eq_of_lt (by omega), Nat.zero_add]
    rw [hlast]
    omega

include hps hsize hend in
/-- `vadv` has a leaf for every page that the range touches. -/
theorem leafCount_eq : leafCount psize offset size = touchedPages psize offset size := by
  have hnew : newOffset psize offset ≤ offset := Nat.div_mul_le_self offset psize
  have hcomm : size + offset = offset + size := Nat.add_comm size offset
  have hle : (offset + size) / psize ≤ offset + size := Nat.div_le_self _ _
  rw [touchedPages_eq hps hsize, leafCount, hcomm, u64_of_lt hend,
    sub64_of_le (by omega) hend, newOffset, Nat.mul_comm (offset / psize), Nat.sub_mul_div]
  refine u64_of_lt ?_
  -- the count is at most the number of bytes
  have hdiv := Nat.div_add_mod (offset + size) psize
  have hmul : (offset + size) / psize ≤ psize * ((offset + size) / psize) :=
    Nat.le_mul_of_pos_left _ hps
  have hsub := Nat.sub_le ((offset + size) / psize) (offset / psize)
  split
  · omega
  · omega

/-- The quotients and remainders that the plan is made of. -/
structure Span (psize offset size a x e y : Nat) : Prop where
  offset_eq : offset = a * psize + x
  end_eq : offset + size = e * psize + y
  first_lt : x < psize
  last_lt : y < psize
  le : a ≤ e
  div : offset / psize = a
  mod : offset % psize = x
  endMod : u64 (offset + size) % psize = y
  count : leafCount psize offset size = e - a + if y = 0 then 0 else 1
  touched : touchedPages psize offset size = e - a + if y = 0 then 0 else 1

include hps hsize hend in
theorem span : Span psize offset size (offset / psize) (offset % psize) ((offset + size) / psize)
    ((offset + size) % psize) where
  offset_eq := (Nat.div_add_mod' offset psize).symm
  end_eq := (Nat.div_add_mod' (offset + size) psize).symm
  first_lt := Nat.mod_lt _ hps
  last_lt := Nat.mod_lt _ hps
  le := Nat.div_le_div_right (Nat.le_add_right _ _)
  div := rfl
  mod := rfl
  endMod := by rw [u64_of_lt hend]
  count := (leafCount_eq hps hsize hend).trans (touchedPages_eq hps hsize)
  touched := touchedPages_eq hps hsize

end cover

namespace Span

variable {psize offset size a x e y : Nat} (s : Span psize offset size a x e y)
  (hsize : 0 < size)

include s

theorem size_eq : size + x = (e - a) * psize + y := by
  have hle : a * psize ≤ e * psize := Nat.mul_le_mul_right _ s.le
  have h1 := s.offset_eq
  have h2 := s.end_eq
  rw [Nat.sub_mul]
  omega

theorem leftCount_eq : leftCount psize offset = if x = 0 then 0 else 1 := by
  rw [leftCount, s.mod, ite_not]

theorem leftPart_eq : leftPart psize offset = if x = 0 then 0 else psize - x := by
  have hlt := s.first_lt
  rw [leftPart, s.mod]
  split
  · next h0 => rw [h0, Nat.sub_zero, Nat.mod_self]
  · exact Nat.mod_eq_of_lt (by omega)

theorem rightPart_eq : rightPart psize offset size = y := s.endMod

variable (hn : touchedPages psize offset size < 2 ^ 32)

include hsize hn

/-- The last page is read in part when the range does not end with it, unless it is the page that
was read for the left end. -/
theorem readsRight_iff : readsRight psize offset size = true ↔
    y ≠ 0 ∧ leftCount psize offset < touchedPages psize offset size := by
  have hsum := s.size_eq
  have hlast := s.last_lt
  rw [readsRight, decide_eq_true_eq, s.endMod, s.mod, s.leftCount_eq, s.count, ← s.touched,
    u32_of_lt hn, s.touched]
  by_cases hx : x = 0
  · rw [if_pos hx]
    rcases Nat.eq_zero_or_pos (e - a) with hd | hd
    · -- a range inside one page that starts with the page
      rw [hd, Nat.zero_mul] at hsum
      split <;> omega
    · have hmul : psize ≤ (e - a) * psize := Nat.le_mul_of_pos_left _ hd
      split <;> omega
  · rw [if_neg hx]
    omega

/-- Where the whole pages end. -/
theorem rightEnd_eq (hl : leftCount psize offset < touchedPages psize offset size) :
    rightEnd psize offset size = e - a := by
  have hiff := s.readsRight_iff hsize hn
  have htouched := s.touched
  rw [rightEnd, s.count, ← s.touched, u32_of_lt hn]
  split
  · next hright =>
    rw [if_neg (hiff.mp hright).1] at htouched
    rw [htouched, Nat.add_assoc, Nat.add_comm 1, Nat.sub_add_cancel (by decide), u32,
      Nat.add_mod_right]
    exact Nat.mod_eq_of_lt (by omega)
  · next hright =>
    have hy : y = 0 := by
      by_contra hne
      exact hright (hiff.mpr ⟨hne, hl⟩)
    rw [htouched, if_pos hy, Nat.add_zero]

omit hsize in
theorem leafDest_eq {i : Nat} (hl : leftCount psize offset ≤ i)
    (hi : i ≤ touchedPages psize offset size) :
    leafDest psize offset i =
      leftPart psize offset + (i - leftCount psize offset) * psize := by
  have hone : leftCount psize offset ≤ 1 := by
    rw [s.leftCount_eq]
    split <;> omega
  have hsub : i + 2 ^ 32 - leftCount psize offset = i - leftCount psize offset + 2 ^ 32 := by omega
  rw [leafDest, hsub, u32, Nat.add_mod_right, Nat.mod_eq_of_lt (by omega)]

/-! ### The parts lie one after another -/

omit hsize hn in
/-- A range that goes on behind its left end ends with the right part. -/
theorem parts_size (hl : leftCount psize offset < touchedPages psize offset size) :
    leftCount psize offset ≤ e - a ∧
      leftPart psize offset + (e - a - leftCount psize offset) * psize + y = size := by
  have hsum := s.size_eq
  have hfirst := s.first_lt
  rw [s.touched, s.leftCount_eq] at hl
  rw [s.leftCount_eq, s.leftPart_eq]
  split
  · next hx =>
    rw [Nat.sub_zero]
    omega
  · next hx =>
    rw [if_neg hx] at hl
    obtain ⟨d, hd⟩ : ∃ d, e - a = d + 1 := by
      refine ⟨e - a - 1, ?_⟩
      split at hl <;> omega
    rw [hd, Nat.succ_mul] at hsum
    rw [hd, Nat.add_sub_cancel]
    omega

omit hsize hn in
theorem leftReads_tiles (hl : leftCount psize offset < touchedPages psize offset size) :
    Tiles PageRead.dest PageRead.len 0 (leftReads psize offset size) (leftPart psize offset) := by
  obtain ⟨hle, hparts⟩ := s.parts_size hl
  rw [leftReads, s.mod]
  split
  · next hx =>
    have hlt : leftPart psize offset < size := by
      rw [s.touched, s.leftCount_eq, if_neg hx] at hl
      rw [s.leftCount_eq, if_neg hx] at hle hparts
      -- a second page is touched: there are whole pages, or a part of the last one
      rcases Nat.eq_or_lt_of_le hle with hd | hd
      · rw [← hd, Nat.sub_self, Nat.zero_mul] at hparts
        split at hl <;> omega
      · have hfirst := s.first_lt
        have hmul : psize ≤ (e - a - 1) * psize := Nat.le_mul_of_pos_left _ (by omega)
        omega
    rw [if_pos hlt]
    exact Tiles.single rfl (Nat.zero_add _)
  · next hx =>
    rw [s.leftPart_eq, if_pos (Decidable.not_not.mp hx)]
    rfl

theorem wholeReads_tiles (hl : leftCount psize offset < touchedPages psize offset size) :
    Tiles PageRead.dest PageRead.len (leftPart psize offset) (wholeReads psize offset size)
      (leftPart psize offset + (e - a - leftCount psize offset) * psize) := by
  obtain ⟨hle, -⟩ := s.parts_size hl
  have htouched := s.touched
  rw [wholeReads, s.rightEnd_eq hsize hn hl]
  refine Tiles.blocks fun j hj => ⟨?_, rfl⟩
  have hdest := s.leafDest_eq hn (i := leftCount psize offset + j) (Nat.le_add_right _ _) (by omega)
  rw [Nat.add_sub_cancel_left] at hdest
  exact hdest

theorem rightReads_tiles (hl : leftCount psize offset < touchedPages psize offset size) :
    Tiles PageRead.dest PageRead.len
      (leftPart psize offset + (e - a - leftCount psize offset) * psize)
      (rightReads psize offset size) size := by
  obtain ⟨hle, hparts⟩ := s.parts_size hl
  have hiff := s.readsRight_iff hsize hn
  have htouched := s.touched
  rw [rightReads]
  split
  · rw [s.rightEnd_eq hsize hn hl, s.rightPart_eq]
    dsimp only
    rw [s.leafDest_eq hn hle (by omega)]
    exact Tiles.single rfl hparts
  · next hright =>
    have hy : y = 0 := by
      by_contra hne
      exact hright (hiff.mpr ⟨hne, hl⟩)
    rw [hy] at hparts
    exact hparts

/-- A range inside one page is read with one request. -/
theorem single_page (hl : ¬ leftCount psize offset < touchedPages psize offset size) :
    Tiles PageRead.dest PageRead.len 0 (leftReads psize offset size) size ∧
      wholeReads psize offset size = [] ∧ rightReads psize offset size = [] := by
  have hsum := s.size_eq
  have hiff := s.readsRight_iff hsize hn
  have hright : ¬ readsRight psize offset size = true := fun h => hl (hiff.mp h).2
  have hlast := s.last_lt
  have htouched := s.touched
  rw [s.leftCount_eq] at hl
  have hx : x ≠ 0 := by
    intro hx
    rw [if_pos hx, s.touched] at hl
    have hd : e - a = 0 := by omega
    rw [hd, Nat.zero_mul] at hsum
    split at hl <;> omega
  rw [if_neg hx, s.touched] at hl
  refine ⟨?_, ?_, ?_⟩
  · have hle : size ≤ leftPart psize offset := by
      rw [s.leftPart_eq, if_neg hx]
      have hd : e - a = 0 ∨ e - a = 1 ∧ y = 0 := by
        split at hl <;> omega
      rcases hd with hd | ⟨hd, hy⟩
      · rw [hd, Nat.zero_mul] at hsum
        omega
      · rw [hd, Nat.one_mul] at hsum
        omega
    rw [leftReads, s.mod, if_pos hx, if_neg (Nat.not_lt.mpr hle)]
    exact Tiles.single rfl (Nat.zero_add _)
  · have hle : rightEnd psize offset size ≤ leftCount psize offset := by
      rw [rightEnd, if_neg hright, s.count, ← s.touched, u32_of_lt hn, s.leftCount_eq, if_neg hx,
        s.touched]
      omega
    rw [wholeReads, Nat.sub_eq_zero_of_le hle]
    rfl
  · exact if_neg hright

/-! ### Each request asks for the right bytes -/

omit hsize hn in
/-- Where a page behind the left end starts in the blob. -/
theorem place_eq {i : Nat} (hi : leftCount psize offset ≤ i) :
    offset + (leftPart psize offset + (i - leftCount psize offset) * psize) = (a + i) * psize := by
  have hoff := s.offset_eq
  have hlt := s.first_lt
  rw [s.leftCount_eq] at hi
  rw [s.leftPart_eq, s.leftCount_eq, Nat.add_mul]
  split
  · next hx =>
    rw [Nat.sub_zero]
    omega
  · next hx =>
    rw [if_neg hx] at hi
    obtain ⟨j, rfl⟩ : ∃ j, i = j + 1 := ⟨i - 1, by omega⟩
    rw [Nat.add_sub_cancel, Nat.succ_mul]
    omega

omit hn in
theorem touched_pos : 0 < touchedPages psize offset size := by
  have hsum := s.size_eq
  rw [s.touched]
  split
  · next hy =>
    rw [hy, Nat.add_zero] at hsum
    rcases Nat.eq_zero_or_pos (e - a) with hd | hd
    · rw [hd, Nat.zero_mul] at hsum
      omega
    · exact hd
  · exact Nat.succ_pos _

omit hn in
theorem leftReads_fits {r : PageRead} (hr : r ∈ leftReads psize offset size) :
    r.Fits psize offset size := by
  rw [leftReads, s.mod] at hr
  split at hr
  · next hx =>
    rw [List.mem_singleton] at hr
    subst hr
    have hlt := s.first_lt
    have hpart := s.leftPart_eq
    rw [if_neg hx] at hpart
    have hfirst : psize - leftPart psize offset = x := by omega
    refine ⟨?_, ?_, ?_, s.touched_pos hsize, .inr rfl⟩
    · dsimp only [PageRead.first]
      rw [s.div, hfirst, Nat.add_zero, Nat.add_zero]
      exact s.offset_eq
    · dsimp only [PageRead.first]
      split <;> omega
    · dsimp only
      split <;> omega
  · cases hr

theorem wholeReads_fits {r : PageRead} (hr : r ∈ wholeReads psize offset size) :
    r.Fits psize offset size := by
  by_cases hl : leftCount psize offset < touchedPages psize offset size
  · have htouched := s.touched
    rw [wholeReads, s.rightEnd_eq hsize hn hl] at hr
    obtain ⟨i, hi, rfl⟩ := List.mem_map.mp hr
    obtain ⟨hge, hlt⟩ := List.mem_range'_1.mp hi
    refine ⟨?_, ?_, Nat.zero_lt_of_lt s.first_lt, ?_, .inl ⟨rfl, rfl⟩⟩
    · dsimp only [PageRead.first]
      rw [s.leafDest_eq hn hge (by omega), s.place_eq hge, s.div, Nat.add_zero]
    · exact Nat.le_of_eq (Nat.zero_add _)
    · dsimp only
      omega
  · rw [(s.single_page hsize hn hl).2.1] at hr
    cases hr

theorem rightReads_fits {r : PageRead} (hr : r ∈ rightReads psize offset size) :
    r.Fits psize offset size := by
  rw [rightReads] at hr
  split at hr
  · next hright =>
    obtain ⟨hy, hl⟩ := (s.readsRight_iff hsize hn).mp hright
    obtain ⟨hle, -⟩ := s.parts_size hl
    have htouched := s.touched
    rw [if_neg hy] at htouched
    rw [s.rightEnd_eq hsize hn hl, s.rightPart_eq, List.mem_singleton] at hr
    subst hr
    have hlast := s.last_lt
    refine ⟨?_, ?_, Nat.pos_of_ne_zero hy, ?_, .inr rfl⟩
    · dsimp only [PageRead.first]
      rw [s.leafDest_eq hn hle (by omega), s.place_eq hle, s.div, Nat.add_zero]
    · dsimp only [PageRead.first]
      omega
    · dsimp only
      omega
  · cases hr

/-! ### A request for each page -/

theorem parts_leaves : (leftReads psize offset size ++ wholeReads psize offset size ++
    rightReads psize offset size).map PageRead.leaf =
      List.range (touchedPages psize offset size) := by
  have hleft : (leftReads psize offset size).map PageRead.leaf =
      List.range' 0 (leftCount psize offset) := by
    rw [s.leftCount_eq, leftReads, s.mod]
    by_cases hx : x = 0
    · rw [if_neg (Decidable.not_not.mpr hx), if_pos hx]
      rfl
    · rw [if_pos hx, if_neg hx]
      rfl
  have hwhole : (wholeReads psize offset size).map PageRead.leaf =
      List.range' (leftCount psize offset)
        (rightEnd psize offset size - leftCount psize offset) := by
    rw [wholeReads, List.map_map]
    exact List.map_id' _
  have htouched := s.touched
  have hpos := s.touched_pos hsize
  rw [List.map_append, List.map_append, hleft, hwhole, List.range_eq_range']
  by_cases hl : leftCount psize offset < touchedPages psize offset size
  · obtain ⟨hle, -⟩ := s.parts_size hl
    have hright : (rightReads psize offset size).map PageRead.leaf =
        List.range' (e - a) (touchedPages psize offset size - (e - a)) := by
      have hiff := s.readsRight_iff hsize hn
      rw [rightReads]
      split
      · next hr =>
        rw [if_neg (hiff.mp hr).1] at htouched
        rw [s.rightEnd_eq hsize hn hl, htouched, Nat.add_sub_cancel_left]
        rfl
      · next hr =>
        have hy : y = 0 := by
          by_contra hne
          exact hr (hiff.mpr ⟨hne, hl⟩)
        rw [htouched, if_pos hy, Nat.add_zero, Nat.sub_self]
        rfl
    have hfront := List.range'_append_1 (s := 0) (m := leftCount psize offset)
      (n := e - a - leftCount psize offset)
    rw [Nat.zero_add, Nat.add_sub_cancel' hle] at hfront
    have hall := List.range'_append_1 (s := 0) (m := e - a)
      (n := touchedPages psize offset size - (e - a))
    rw [Nat.zero_add, Nat.add_sub_cancel' (by omega)] at hall
    rw [hright, s.rightEnd_eq hsize hn hl, hfront, hall]
  · obtain ⟨-, hwhole', hright⟩ := s.single_page hsize hn hl
    rw [← hwhole, hwhole', hright, List.map_nil, List.append_nil, List.append_nil]
    rw [s.leftCount_eq] at hl ⊢
    have hone : touchedPages psize offset size = if x = 0 then 0 else 1 := by
      split at hl
      · omega
      · next hx =>
        rw [if_neg hx]
        omega
    rw [hone]

end Span

/-- The requests, in the order left end, whole pages, right end, lie one after another in the
buffer. -/
theorem readPlan_tiles {psize offset size : Nat} (hps : 0 < psize) (hsize : 0 < size)
    (hend : offset + size < 2 ^ 64) (hn : touchedPages psize offset size < 2 ^ 32) :
    Tiles PageRead.dest PageRead.len 0
      (leftReads psize offset size ++ wholeReads psize offset size ++
        rightReads psize offset size) size := by
  have s := span hps hsize hend
  by_cases hl : leftCount psize offset < touchedPages psize offset size
  · have hleft := s.leftReads_tiles hl
    have hwhole := s.wholeReads_tiles hsize hn hl
    exact (s.rightReads_tiles hsize hn hl).append (hwhole.append hleft)
  · obtain ⟨hleft, hwhole, hright⟩ := s.single_page hsize hn hl
    rw [hwhole, hright, List.append_nil, List.append_nil]
    exact hleft

theorem readPlan_fits {psize offset size : Nat} (hps : 0 < psize) (hsize : 0 < size)
    (hend : offset + size < 2 ^ 64) (hn : touchedPages psize offset size < 2 ^ 32) {r : PageRead}
    (hr : r ∈ readPlan psize offset size) : r.Fits psize offset size := by
  have s := span hps hsize hend
  rw [(readPlan_perm psize offset size).mem_iff, List.mem_append, List.mem_append] at hr
  obtain (hr | hr) | hr := hr
  · exact s.leftReads_fits hsize hr
  · exact s.wholeReads_fits hsize hn hr
  · exact s.rightReads_fits hsize hn hr

/-- There is one request for each page that the range touches. -/
theorem readPlan_leaves {psize offset size : Nat} (hps : 0 < psize) (hsize : 0 < size)
    (hend : offset + size < 2 ^ 64) (hn : touchedPages psize offset size < 2 ^ 32) :
    ((readPlan psize offset size).map PageRead.leaf).Perm
      (List.range (touchedPages psize offset size)) := by
  have s := span hps hsize hend
  rw [← s.parts_leaves hsize hn]
  exact (readPlan_perm psize offset size).map _

/-- How many requests ask for a position of the buffer. -/
theorem readPlan_countP {psize offset size : Nat} (hps : 0 < psize) (hsize : 0 < size)
    (hend : offset + size < 2 ^ 64) (hn : touchedPages psize offset size < 2 ^ 32) (b : Nat) :
    (readPlan psize offset size).countP (PageRead.asks b) = if b < size then 1 else 0 := by
  rw [(readPlan_perm psize offset size).countP_eq]
  have hcount := (readPlan_tiles hps hsize hend hn).countP_eq (p := b)
  simp only [Nat.zero_le, true_and] at hcount
  exact hcount

section bounds

variable {psize offset size : Nat} (hps : 0 < psize) (hsize : 0 < size)
  (hend : offset + size < 2 ^ 64) (hn : touchedPages psize offset size < 2 ^ 32)

include hps hsize hend hn

/-- A request asks for bytes of the range only. -/
theorem readPlan_end {r : PageRead} (hr : r ∈ readPlan psize offset size) :
    r.dest + r.len ≤ size :=
  ((readPlan_tiles hps hsize hend hn).mem ((readPlan_perm psize offset size).mem_iff.mp hr)).2

/-- Two requests for a page are the same. -/
theorem readPlan_leaf_inj {r r' : PageRead} (hr : r ∈ readPlan psize offset size)
    (hr' : r' ∈ readPlan psize offset size) (h : r.leaf = r'.leaf) : r = r' := by
  have hnodup : ((readPlan psize offset size).map PageRead.leaf).Nodup :=
    (readPlan_leaves hps hsize hend hn).nodup_iff.mpr List.nodup_range
  exact List.inj_on_of_nodup_map hnodup hr hr' h

/-- One request asks for a position of the buffer. -/
theorem readPlan_asks {b : Nat} (hb : b < size) : ∃ r ∈ readPlan psize offset size,
    r.asks b = true ∧ (readPlan psize offset size).filter (PageRead.asks b) = [r] := by
  have hone := readPlan_countP hps hsize hend hn b
  rw [if_pos hb] at hone
  exact exists_filter_eq_singleton hone

/-- No other request writes where one request writes. -/
theorem readPlan_writes {r : PageRead} (hr : r ∈ readPlan psize offset size) {b : Nat}
    (hwrites : r.writes b = true) :
    (readPlan psize offset size).filter (PageRead.writes b) = [r] := by
  have hasks := PageRead.asks_of_writes hwrites
  have hlast := readPlan_end hps hsize hend hn hr
  have hlt := (holdsAt_iff.mp hasks).2
  obtain ⟨r', -, -, hone⟩ := readPlan_asks hps hsize hend hn (b := b) (by omega)
  have hsame : (readPlan psize offset size).filter (PageRead.writes b) =
      ((readPlan psize offset size).filter (PageRead.asks b)).filter (PageRead.writes b) := by
    rw [List.filter_filter]
    refine List.filter_congr fun x _ => ?_
    cases hx : x.writes b with
    | true => rw [PageRead.asks_of_writes hx, Bool.and_self]
    | false => rw [Bool.false_and]
  have heq : r = r' := List.mem_singleton.mp (hone ▸ List.mem_filter.mpr ⟨hr, hasks⟩)
  rw [hsame, hone, ← heq, List.filter_cons_of_pos hwrites, List.filter_nil]

/-- The last byte of a request for `2 ^ 32` bytes or more is written by no request. -/
theorem readPlan_unwritten {r : PageRead} (hr : r ∈ readPlan psize offset size)
    (hlong : 2 ^ 32 ≤ r.len) :
    ∃ b < size, ∀ r' ∈ readPlan psize offset size, r'.writes b = false := by
  have hbuffer : r.bufferSize < 2 ^ 32 := Nat.mod_lt _ (by decide)
  have hlast := readPlan_end hps hsize hend hn hr
  have hasks : r.asks (r.dest + r.len - 1) = true := holdsAt_iff.mpr ⟨by omega, by omega⟩
  obtain ⟨r₀, -, -, hone⟩ := readPlan_asks hps hsize hend hn (b := r.dest + r.len - 1) (by omega)
  have heq : ∀ x ∈ readPlan psize offset size, x.asks (r.dest + r.len - 1) = true → x = r₀ :=
    fun x hx h => List.mem_singleton.mp (hone ▸ List.mem_filter.mpr ⟨hx, h⟩)
  refine ⟨r.dest + r.len - 1, by omega, fun r' hr' => Bool.eq_false_iff.mpr fun hwrites => ?_⟩
  rw [heq r' hr' (PageRead.asks_of_writes hwrites), ← heq r hr hasks] at hwrites
  have hlt := (holdsAt_iff.mp hwrites).2
  omega

/-- What a request asks for is the part of its page that is in the range. -/
theorem readPlan_len {r : PageRead} (hr : r ∈ readPlan psize offset size) :
    r.len = pagePart psize offset size (offset / psize + r.leaf) := by
  have hfits := readPlan_fits hps hsize hend hn hr
  have hplace := hfits.place
  have hwithin := hfits.within
  have hpos := hfits.pos
  have hlast := readPlan_end hps hsize hend hn hr
  have hpage : (offset / psize + r.leaf + 1) * psize = (offset / psize + r.leaf) * psize + psize :=
    Nat.succ_mul ..
  have hsame : ∀ b < size, (offset + b) / psize = offset / psize + r.leaf → r.asks b = true := by
    intro b hb hdiv
    obtain ⟨r', hr', hasks, -⟩ := readPlan_asks hps hsize hend hn hb
    obtain ⟨hleaf, -⟩ := (readPlan_fits hps hsize hend hn hr').source hasks
    rw [readPlan_leaf_inj hps hsize hend hn hr hr' (by omega)]
    exact hasks
  have hin : ∀ b, (offset / psize + r.leaf) * psize ≤ offset + b →
      offset + b < (offset / psize + r.leaf + 1) * psize →
      (offset + b) / psize = offset / psize + r.leaf :=
    fun b hge hlt => Nat.div_eq_of_lt_le hge hlt
  refine Nat.le_antisymm ?_ ?_
  · rw [pagePart]
    omega
  · -- the first and the last byte of the part are asked for by the request
    by_contra hlt
    rw [pagePart] at hlt
    have hfirst := hsame (max ((offset / psize + r.leaf) * psize) offset - offset) (by omega)
      (hin _ (by omega) (by omega))
    have hlast := hsame (min ((offset / psize + r.leaf + 1) * psize) (offset + size) - 1 - offset)
      (by omega) (hin _ (by omega) (by omega))
    have hge := (holdsAt_iff.mp hfirst).1
    have hle := (holdsAt_iff.mp hlast).2
    omega

/-- The range is short when every request asks for less than `2 ^ 32` bytes. -/
theorem shortParts_iff : ShortParts psize offset size ↔
    ∀ r ∈ readPlan psize offset size, r.len < 2 ^ 32 := by
  constructor
  · intro h r hr
    rw [readPlan_len hps hsize hend hn hr]
    exact h r.leaf (readPlan_fits hps hsize hend hn hr).leaf
  · intro h i hi
    have hmem := (readPlan_leaves hps hsize hend hn).mem_iff.mpr (List.mem_range.mpr hi)
    obtain ⟨r, hr, rfl⟩ := List.mem_map.mp hmem
    rw [← readPlan_len hps hsize hend hn hr]
    exact h r hr

end bounds

/-- The requests write the buffer as they should. There is a leaf for each page that the range
touches. Every byte of the buffer is written by exactly one request, which takes it from page
`(offset + b) / psize` at position `(offset + b) % psize`; nothing is written beyond `size`. -/
structure PlanCovers (psize offset size : Nat) : Prop where
  leaves : leafCount psize offset size = touchedPages psize offset size
  request : ∀ r ∈ readPlan psize offset size, r.leaf < leafCount psize offset size ∧
    (r.part = none ∧ r.len = psize ∨ r.part = some (r.first, r.len))
  once : ∀ b < size, ∃ r, (readPlan psize offset size).filter (PageRead.writes b) = [r] ∧
    offset / psize + r.leaf = (offset + b) / psize ∧
    r.first + (b - r.dest) = (offset + b) % psize
  beyond : ∀ b, size ≤ b → ∀ r ∈ readPlan psize offset size, r.writes b = false

/-- **The plan covers the range once** if and only if the range has less than `2 ^ 32` bytes of each
page. -/
theorem read_plan_covers {psize offset size : Nat} (hps : 0 < psize) (hsize : 0 < size)
    (hend : offset + size < 2 ^ 64) (hn : touchedPages psize offset size < 2 ^ 32) :
    PlanCovers psize offset size ↔ ShortParts psize offset size := by
  rw [shortParts_iff hps hsize hend hn]
  constructor
  · intro h r hr
    by_contra hlong
    obtain ⟨b, hb, hnone⟩ := readPlan_unwritten hps hsize hend hn hr (Nat.not_lt.mp hlong)
    obtain ⟨r', hfilter, -⟩ := h.once b hb
    obtain ⟨hr', hwrites⟩ := List.mem_filter.mp (hfilter ▸ List.mem_singleton_self r')
    rw [hnone r' hr'] at hwrites
    cases hwrites
  · intro hshort
    have hcount := leafCount_eq hps hsize hend
    refine ⟨hcount, fun r hr => ?_, fun b hb => ?_, fun b hb r hr => ?_⟩
    · have hfits := readPlan_fits hps hsize hend hn hr
      exact ⟨hcount ▸ hfits.leaf, hfits.part⟩
    · obtain ⟨r, hr, hasks, -⟩ := readPlan_asks hps hsize hend hn hb
      have hwrites := PageRead.writes_of_asks (hshort r hr) hasks
      exact ⟨r, readPlan_writes hps hsize hend hn hr hwrites,
        (readPlan_fits hps hsize hend hn hr).source hasks⟩
    · have hlast := readPlan_end hps hsize hend hn hr
      refine Bool.eq_false_iff.mpr fun hwrites => ?_
      have hlt := (holdsAt_iff.mp (PageRead.asks_of_writes hwrites)).2
      omega

/-- A read that is unaligned at both ends, over three pages of four bytes. -/
theorem read_plan_covers_unaligned : PlanCovers 4 3 6 :=
  (read_plan_covers (by decide) (by decide) (by decide) (by decide)).mpr (by decide)

/-- The request for a page of `2 ^ 32 + 1` bytes writes one byte. -/
theorem huge_page_not_covered : ¬ PlanCovers (2 ^ 32 + 1) 0 (2 ^ 32 + 1) := by
  intro h
  obtain ⟨r, hfilter, -⟩ := h.once 1 (by decide)
  have hnone : (readPlan (2 ^ 32 + 1) 0 (2 ^ 32 + 1)).filter (PageRead.writes 1) = [] := by decide
  rw [hnone] at hfilter
  cases hfilter

end BlobSeer
