import BlobSeer.Fuse.Commit

/-!
# The mirror as an overlay

Over every sequence of reads and writes a mirror shows the mirrored version under the bytes written
last, no remote read touches a byte that was written locally, and `written_map` marks the pages that
some write touched, as long as no write goes to bytes that a failed read has left in flight. Such a byte
is replaced by the one of the version when the late answer arrives (`late_answer_overwrites`).
-/

namespace BlobSeer

open Lib (Run exec)

namespace MirrorState

variable {β : Type} {mirrored : Nat → β}

/-- A write has bytes to write. -/
def Sized : MirrorAction β → Prop
  | .write size _ _ _ => 0 < size
  | _ => True

instance : ∀ a : MirrorAction β, Decidable (Sized a)
  | .write size _ _ _ => inferInstanceAs (Decidable (0 < size))
  | .read .. | .run | .reopen _ => .isTrue trivial

/-- No write fails, and all have bytes to write. -/
def ReturnsSized (mirrored : Nat → β) (s : MirrorState β) (a : MirrorAction β) : Prop :=
  s.ReturnsSize mirrored a ∧ Sized a

instance (mirrored : Nat → β) (s : MirrorState β) (a : MirrorAction β) :
    Decidable (s.ReturnsSized mirrored a) :=
  inferInstanceAs (Decidable (_ ∧ _))

/-- Besides, writes go to bytes that are not in flight, and the buffer of a page can have its size. -/
structure SucceedsSized (mirrored : Nat → β) (s : MirrorState β) (a : MirrorAction β) : Prop where
  page_lt : s.mirror.pageSize < 2 ^ 32
  succeeds : s.Succeeds mirrored a
  sized : Sized a

instance (mirrored : Nat → β) (s : MirrorState β) (a : MirrorAction β) :
    Decidable (s.SucceedsSized mirrored a) :=
  decidable_of_iff (s.mirror.pageSize < 2 ^ 32 ∧ s.Succeeds mirrored a ∧ Sized a)
    ⟨fun h => ⟨h.1, h.2.1, h.2.2⟩, fun h => ⟨h.page_lt, h.succeeds, h.sized⟩⟩

/-- Page `i` holds some of the bytes of a write. -/
def Touches (pageSize i : Nat) : MirrorAction β → Prop
  | .write size off _ _ => ∃ p, off ≤ p ∧ p < off + size ∧ p / pageSize = i
  | .read .. | .run | .reopen _ => False

/-- The pages that the marking loop of a write goes over. -/
theorem touches_write {pageSize size off i : Nat} (hps : 0 < pageSize) (hsize : 0 < size)
    (buf : Nat → β) (remote : Nat → Option (FailedRead β)) :
    Touches pageSize i (.write size off buf remote) ↔
      off / pageSize ≤ i ∧ i * pageSize < off + size := by
  constructor
  · rintro ⟨p, hlo, hhi, rfl⟩
    exact ⟨Nat.div_le_div_right hlo, Nat.lt_of_le_of_lt (Nat.div_mul_le_self p pageSize) hhi⟩
  · rintro ⟨hlo, hhi⟩
    have hoff : off < (i + 1) * pageSize :=
      (Nat.div_lt_iff_lt_mul hps).mp (Nat.lt_succ_of_le hlo)
    refine ⟨max off (i * pageSize), Nat.le_max_left _ _, by omega, ?_⟩
    refine Nat.div_eq_of_lt_le (Nat.le_max_right _ _) ?_
    rw [Nat.succ_mul] at hoff ⊢
    omega

theorem writtenMap_step {blobSize pageSize : Nat} {s t : MirrorState β} {a : MirrorAction β}
    (h : Inv mirrored blobSize pageSize s) (hok : s.SucceedsSized mirrored a)
    (hstep : s.step mirrored a = some t) {i : Nat} (hi : i < blobSize / pageSize) :
    t.mirror.writtenMap i = true ↔ s.mirror.writtenMap i = true ∨ Touches pageSize i a := by
  cases a with
  | read size off remote =>
    obtain ⟨n, m', heq, -, hl, -⟩ := h.shows.read remote size off
    simp only [step, heq, Option.map_some, Option.some.injEq] at hstep
    rw [← hstep, hl.written, Touches, or_false]
  | write size off buf remote =>
    obtain ⟨n, m', heq, -, -, -, hw⟩ := h.shows.write remote size off buf
    simp only [step, heq, Option.map_some, Option.some.injEq] at hstep
    have hpos : 0 < size := hok.sized
    have hn : n = size := by
      have hsize := hok.succeeds.1
      simp only [ReturnsSize, heq, Option.map_some, Option.some.injEq] at hsize
      exact hsize
    rw [← hstep, hw hn hpos, h.page_size, touches_write (h.page_size ▸ h.shows.page_pos) hpos]
    split
    · next ht => simp [ht]
    · next ht => simp [ht]
  | run =>
    simp only [step, Option.some.injEq] at hstep
    rw [← hstep, Touches, or_false]
    rfl
  | reopen beyond =>
    simp only [step, Option.some.injEq] at hstep
    have hin : i < s.mirror.land.blobSize / s.mirror.land.pageSize := by
      show i < s.mirror.blobSize / s.mirror.pageSize
      rw [h.blob_size, h.page_size]
      exact hi
    rw [← hstep, Touches, or_false, LocalMirror.new]
    simp only [if_pos hin]
    rfl

theorem writtenMap_run {blobSize pageSize : Nat} {s t : MirrorState β} {as : List (MirrorAction β)}
    (hrun : Run (step mirrored) (SucceedsSized mirrored) s as t)
    (h : Inv mirrored blobSize pageSize s) {i : Nat} (hi : i < blobSize / pageSize) :
    t.mirror.writtenMap i = true ↔
      s.mirror.writtenMap i = true ∨ ∃ a ∈ as, Touches pageSize i a := by
  induction hrun with
  | nil => simp
  | cons hok hstep _ ih =>
    rw [ih (inv_step h hok.succeeds hstep), writtenMap_step h hok hstep hi, or_assoc,
      List.exists_mem_cons_iff]

end MirrorState

open MirrorState

/-- After any reads, and successful writes of bytes that are not in flight: a read ends and gives the
bytes written last over the mirrored version; neither a read, whatever becomes of its remote reads, nor
such a write changes a byte that was written locally before; and the pages marked are those of the
writes. -/
theorem mirror_overlay {β : Type} {blobSize pageSize : Nat} (hps : 0 < pageSize)
    (hdvd : pageSize ∣ blobSize) {mirrored file : Nat → β} {beyond : Nat → Bool}
    {as : List (MirrorAction β)} {s : MirrorState β}
    (hrun : Run (step mirrored) (SucceedsSized mirrored) (.new blobSize pageSize file beyond) as s) :
    (∀ size off remote, ∃ n m', s.mirror.read mirrored remote size off = some (n, m') ∧
      (∀ p, off ≤ p → p < off + n → m'.mapping p = (s.locals p).getD (mirrored p)) ∧
      ∀ p b, s.locals p = some b → m'.mapping p = b) ∧
    (∀ size off buf remote, ∃ n m', s.mirror.write mirrored remote size off buf = some (n, m') ∧
      (n = size → s.mirror.NotInFlight off size →
        ∀ p b, LocalMirror.written s.locals off size buf p = some b → m'.mapping p = b)) ∧
    ∀ i, i < blobSize / pageSize →
      (s.mirror.writtenMap i = true ↔ ∃ a ∈ as, Touches pageSize i a) := by
  have hnew : Inv mirrored blobSize pageSize (.new blobSize pageSize file beyond) :=
    inv_new hps hdvd
  have hinv := inv_run (hrun.mono fun _ _ h => h.succeeds) hnew
  refine ⟨?_, ?_, ?_⟩
  · intro size off remote
    obtain ⟨n, m', heq, hs, -, hv⟩ := hinv.shows.read remote size off
    refine ⟨n, m', heq, hv, ?_⟩
    intro p b hb
    rw [hs.valid p (hs.local_valid p (by rw [hb]; rfl)), hb, Option.getD_some]
  · intro size off buf remote
    obtain ⟨n, m', heq, -, -, hs, -⟩ := hinv.shows.write remote size off buf
    refine ⟨n, m', heq, ?_⟩
    intro hn hfree p b hb
    have hs := hs hn hfree
    rw [hs.valid p (hs.local_valid p (by rw [hb]; rfl)), hb, Option.getD_some]
  · intro i hi
    rw [writtenMap_run hrun hnew hi]
    refine or_iff_right ?_
    rw [new, LocalMirror.new]
    simp [hi]

/-- One byte of the page is written, a read of the page fails, and another one succeeds. -/
def writeThenReads : List (MirrorAction Nat) :=
  [.write 1 2 (fun _ => 2) (fun _ => none), .read 4 0 fun _ => some ⟨fun _ => 9, fun _ => false⟩,
    .read 4 0 fun _ => none]

theorem mirror_overlay_read_page :
    ∃ s, Run (step fun _ => 1) (SucceedsSized fun _ => 1) zeroFile writeThenReads s ∧
      s.locals 2 = some 2 ∧ s.mirror.mapping 3 = 1 ∧
      (∀ i, i < 4 / 4 → (s.mirror.writtenMap i = true ↔ ∃ a ∈ writeThenReads, Touches 4 i a)) ∧
      ∀ size off remote, ∃ n m', s.mirror.read (fun _ => 1) remote size off = some (n, m') ∧
        (∀ p, off ≤ p → p < off + n → m'.mapping p = (s.locals p).getD 1) ∧
        ∀ p b, s.locals p = some b → m'.mapping p = b := by
  have hrun : Run (step fun _ => 1) (SucceedsSized fun _ => 1) zeroFile writeThenReads _ :=
    Run.of_isSome zeroFile (by decide +kernel)
  obtain ⟨hread, -, hwritten⟩ := mirror_overlay (by decide) (by decide) hrun
  exact ⟨_, hrun, by decide +kernel, by decide +kernel, hwritten, hread⟩

/-- A blob of four pages of four bytes, each of them one, whose third page was never written; the
temporary file is all zeros. -/
def sparseFile : MirrorState Nat := .new 16 4 (fun _ => 0) fun _ => false

/-- A read of the blob fails at the third page, when it has asked for the first two. Then the first page
is written, and the second one is read. -/
def writeInFlight : List (MirrorAction Nat) :=
  [.read 16 0 fun _ => some ⟨fun _ => 0, fun p => decide (p < 8)⟩,
    .write 4 0 (fun _ => 7) fun _ => none, .read 4 4 fun _ => none]

/-- The late answer for the first page replaces the bytes that were written. -/
theorem late_answer_overwrites :
    ∃ s m', Run (step fun _ => 1) (ReturnsSized fun _ => 1) sparseFile writeInFlight s ∧
      s.mirror.read (fun _ => 1) (fun _ => none) 4 0 = some (4, m') ∧ s.locals 0 = some 7 ∧
      m'.mapping 0 = 1 := by
  have hrun : Run (step fun _ => 1) (ReturnsSized fun _ => 1) sparseFile writeInFlight _ :=
    Run.of_isSome sparseFile (by decide +kernel)
  refine ⟨_, _, hrun, Lib.eq_some_getD (4, sparseFile.mirror) ?_, ?_, ?_⟩
  · decide +kernel
  · decide +kernel
  · decide +kernel

end BlobSeer
