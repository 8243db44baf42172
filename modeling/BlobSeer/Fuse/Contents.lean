import BlobSeer.Fuse.LocalMirror

/-!
# What a mirror shows

`Shows mirrored locals m` relates a mirror to the bytes that were written to it (`locals`) and to
the version that it mirrors: the first `chunk_map[i]` bytes of page `i` are right, and every byte
written locally is among them, in a page that `written_map` marks. The bytes that are in flight are
those of the version, and none of them was written locally. Reads keep it (`Shows.read`), and so do
writes of bytes that are not in flight (`Shows.write`), whatever stands behind the valid bytes of a
page.
-/

namespace BlobSeer

namespace LocalMirror

variable {β : Type} {mirrored : Nat → β} {locals : Nat → Option β} {m : LocalMirror β}

/-- Position `p` is among the valid bytes of its page. -/
def Valid (m : LocalMirror β) (p : Nat) : Prop := p % m.pageSize < m.chunkMap (p / m.pageSize)

theorem valid_iff {m : LocalMirror β} {i p : Nat} (hlo : i * m.pageSize ≤ p)
    (hhi : p < (i + 1) * m.pageSize) : m.Valid p ↔ p < i * m.pageSize + m.chunkMap i := by
  have hi : p / m.pageSize = i := Nat.div_eq_of_lt_le hlo hhi
  have hdiv := Nat.div_add_mod' p m.pageSize
  rw [hi] at hdiv
  rw [Valid, hi]
  omega

theorem lt_pages_iff {m : LocalMirror β} (hps : 0 < m.pageSize)
    (hblob : m.pages * m.pageSize = m.blobSize) {i : Nat} :
    i < m.pages ↔ i * m.pageSize < m.blobSize := by
  rw [← hblob]
  exact (Nat.mul_lt_mul_right hps).symm

/-- The mirror with the pages from `index` to `j` loaded. -/
def loadPages (m : LocalMirror β) (index j : Nat) : LocalMirror β :=
  { m with chunkMap := splice m.chunkMap index (j - index) fun _ => m.pageSize }

theorem valid_loadPages {m : LocalMirror β} (hps : 0 < m.pageSize) {index j p : Nat}
    (hlo : index * m.pageSize ≤ p) (hhi : p < j * m.pageSize) : (m.loadPages index j).Valid p := by
  have hi : index ≤ p / m.pageSize := (Nat.le_div_iff_mul_le hps).mpr hlo
  have hj : p / m.pageSize < j := (Nat.div_lt_iff_lt_mul hps).mpr hhi
  have hchunk : splice m.chunkMap index (j - index) (fun _ => m.pageSize) (p / m.pageSize) =
      m.pageSize :=
    splice_in hi (by omega)
  exact Nat.lt_of_lt_of_eq (Nat.mod_lt p hps) hchunk.symm

/-- A blob of whole pages, of each of which at most all bytes are valid. -/
structure Shape (m : LocalMirror β) : Prop where
  page_pos : 0 < m.pageSize
  blob_size : m.pages * m.pageSize = m.blobSize
  chunk_le : ∀ i, m.chunkMap i ≤ m.pageSize

theorem Shape.lt_pages (h : m.Shape) {i : Nat} : i < m.pages ↔ i * m.pageSize < m.blobSize :=
  lt_pages_iff h.page_pos h.blob_size

structure Shows (mirrored : Nat → β) (locals : Nat → Option β) (m : LocalMirror β) : Prop
    extends m.Shape where
  valid : ∀ p, m.Valid p → m.mapping p = (locals p).getD (mirrored p)
  local_valid : ∀ p, (locals p).isSome = true → m.Valid p
  local_written : ∀ p, (locals p).isSome = true →
    p < m.blobSize ∧ m.writtenMap (p / m.pageSize) = true
  in_flight : ∀ p b, m.inFlight p = some b → locals p = none ∧ b = mirrored p

/-- A mirror without an index file has nothing loaded and nothing written. -/
theorem Shows.new {blobSize pageSize : Nat} {file : Nat → β} {beyond : Nat → Bool}
    (hps : 0 < pageSize) (hdvd : pageSize ∣ blobSize) :
    Shows mirrored (fun _ => none) (LocalMirror.new blobSize pageSize file none beyond) where
  page_pos := hps
  blob_size := Nat.div_mul_cancel hdvd
  chunk_le _ := Nat.zero_le _
  valid _ h := absurd h (Nat.not_lt_zero _)
  local_valid _ h := by cases h
  local_written _ h := by cases h
  in_flight _ _ h := by cases h

namespace Shows

theorem local_none (h : Shows mirrored locals m) {p : Nat} (hp : ¬ m.Valid p) :
    locals p = none := by
  cases hl : locals p with
  | none => rfl
  | some b => exact absurd (h.local_valid p (by rw [hl]; rfl)) hp

/-- Bytes that are not valid may change to anything. -/
theorem overwrite (h : Shows mirrored locals m) {mapping : Nat → β} {inFlight : Nat → Option β}
    (hv : ∀ p, m.Valid p → mapping p = m.mapping p)
    (hq : ∀ p b, inFlight p = some b → locals p = none ∧ b = mirrored p) :
    Shows mirrored locals { m with mapping := mapping, inFlight := inFlight } where
  page_pos := h.page_pos
  blob_size := h.blob_size
  chunk_le := h.chunk_le
  valid p hp := (hv p hp).trans (h.valid p hp)
  local_valid := h.local_valid
  local_written := h.local_written
  in_flight := hq

/-- An answer that arrives late does not change a valid byte. -/
theorem landed (h : Shows mirrored locals m) {p : Nat} (hp : m.Valid p) :
    m.land.mapping p = m.mapping p := by
  show (m.inFlight p).getD (m.mapping p) = m.mapping p
  cases hq : m.inFlight p with
  | none => rfl
  | some b =>
    obtain ⟨hlocal, rfl⟩ := h.in_flight p b hq
    rw [h.valid p hp, hlocal]
    rfl

theorem land (h : Shows mirrored locals m) : Shows mirrored locals m.land :=
  h.overwrite (fun _ => h.landed) fun _ _ => nofun

/-- More bytes of a page become valid when they are those of the mirrored version. -/
theorem load (h : Shows mirrored locals m) {chunkMap : Nat → Nat}
    (hle : ∀ i, m.chunkMap i ≤ chunkMap i) (hps : ∀ i, chunkMap i ≤ m.pageSize)
    (hm : ∀ p, ¬ m.Valid p → p % m.pageSize < chunkMap (p / m.pageSize) →
      m.mapping p = mirrored p) :
    Shows mirrored locals { m with chunkMap := chunkMap } where
  page_pos := h.page_pos
  blob_size := h.blob_size
  chunk_le := hps
  valid p hp := by
    by_cases hv : m.Valid p
    · exact h.valid p hv
    · rw [h.local_none hv]
      exact hm p hv hp
  local_valid p hp := Nat.lt_of_lt_of_le (h.local_valid p hp) (hle _)
  local_written := h.local_written
  in_flight := h.in_flight

/-- A mirror that is closed and opened again is as before. -/
theorem reopen (h : Shows mirrored locals m) (beyond : Nat → Bool) :
    Shows mirrored locals
      (LocalMirror.new m.blobSize m.pageSize m.mapping (some m.close) beyond) where
  page_pos := h.page_pos
  blob_size := h.blob_size
  chunk_le := h.chunk_le
  valid := h.valid
  local_valid := h.local_valid
  local_written p hp := by
    obtain ⟨hlt, hw⟩ := h.local_written p hp
    refine ⟨hlt, ?_⟩
    have hi : p / m.pageSize < m.blobSize / m.pageSize :=
      Nat.div_lt_div_of_lt_of_dvd (Dvd.intro_left _ h.blob_size) hlt
    exact (if_pos hi).trans hw
  in_flight _ _ hq := by cases hq

end Shows

/-! ### `read` -/

/-- The remote read is extended to the end of a page, over pages that have nothing loaded. -/
theorem Shape.extendRead (h : m.Shape) {last : Nat} (hlast : last ≤ m.blobSize)
    (readOff fuel k readSize : Nat) (hk : readOff + readSize = k * m.pageSize) (hpages : k ≤ m.pages)
    (hfuel : m.pages < fuel + k) :
    ∃ j size, m.extendRead last readOff fuel readSize = some size ∧
      readOff + size = j * m.pageSize ∧ k ≤ j ∧ j ≤ m.pages ∧
      (∀ i, k ≤ i → i < j → m.chunkMap i = 0) ∧
      (k * m.pageSize < last → m.chunkMap k = 0 → k < j) := by
  induction fuel generalizing k readSize with
  | zero => omega
  | succ fuel ih =>
    have hdiv : (readOff + readSize) / m.pageSize = k := by
      rw [hk]
      exact Nat.mul_div_cancel k h.page_pos
    rw [LocalMirror.extendRead, hdiv, hk]
    by_cases hc : k * m.pageSize < last ∧ m.chunkMap k = 0
    · have hlt : k < m.pages := h.lt_pages.mpr (by omega)
      obtain ⟨j, size, heq, hend, hkj, hj, hz, -⟩ := ih (k + 1) (readSize + m.pageSize)
        (by rw [Nat.succ_mul]; omega) hlt (by omega)
      refine ⟨j, size, ?_, hend, by omega, hj, fun i hi hij => ?_, fun _ _ => hkj⟩
      · rw [if_pos hc]
        exact heq
      · obtain rfl | hlt' := Nat.eq_or_lt_of_le hi
        · exact hc.2
        · exact hz i hlt' hij
    · refine ⟨k, readSize, if_neg hc, hk, Nat.le_refl k, hpages, fun i hi hij => by omega, ?_⟩
      exact fun h1 h2 => absurd ⟨h1, h2⟩ hc

/-- The remote read at a page that has too few valid bytes goes to the end of a later page, over
pages that have nothing loaded. -/
theorem Shape.extendRead_page (h : m.Shape) {last index : Nat}
    (hlast : last ≤ m.blobSize) (hindex : index * m.pageSize < last) :
    ∃ j size, m.extendRead last (index * m.pageSize + m.chunkMap index) (m.pages + 1)
        (if 0 < m.chunkMap index then m.pageSize - m.chunkMap index else 0) = some size ∧
      index * m.pageSize + m.chunkMap index + size = j * m.pageSize ∧ index < j ∧ j ≤ m.pages ∧
      ∀ i, index < i → i < j → m.chunkMap i = 0 := by
  have hle := h.chunk_le index
  have hlt : index < m.pages := h.lt_pages.mpr (by omega)
  by_cases hpos : 0 < m.chunkMap index
  · rw [if_pos hpos]
    obtain ⟨j, size, heq, hend, hj, hjp, hz, -⟩ := h.extendRead hlast
      (index * m.pageSize + m.chunkMap index) (m.pages + 1) (index + 1)
      (m.pageSize - m.chunkMap index) (by rw [Nat.succ_mul]; omega) hlt (by omega)
    exact ⟨j, size, heq, hend, hj, hjp, hz⟩
  · rw [if_neg hpos]
    obtain ⟨j, size, heq, hend, -, hjp, hz, hj⟩ := h.extendRead hlast
      (index * m.pageSize + m.chunkMap index) (m.pages + 1) index 0 (by omega) (Nat.le_of_lt hlt)
      (by omega)
    exact ⟨j, size, heq, hend, hj hindex (by omega), hjp, fun i hi => hz i (Nat.le_of_lt hi)⟩

theorem Shape.le_loadPages (h : m.Shape) (index j i : Nat) :
    m.chunkMap i ≤ (m.loadPages index j).chunkMap i ∧
      (m.loadPages index j).chunkMap i ≤ m.pageSize := by
  have hle := h.chunk_le i
  simp only [LocalMirror.loadPages, splice]
  split
  · exact ⟨hle, Nat.le_refl _⟩
  · exact ⟨Nat.le_refl _, hle⟩

namespace Shows

/-- The bytes of a remote read are not valid before it. -/
theorem not_valid_of_fetch (h : Shows mirrored locals m) {index j p : Nat}
    (hz : ∀ i, index < i → i < j → m.chunkMap i = 0)
    (hlo : index * m.pageSize + m.chunkMap index ≤ p) (hhi : p < j * m.pageSize) :
    ¬ m.Valid p := by
  have hdiv := Nat.div_add_mod' p m.pageSize
  have hi : index ≤ p / m.pageSize := (Nat.le_div_iff_mul_le h.page_pos).mpr (by omega)
  have hj : p / m.pageSize < j := (Nat.div_lt_iff_lt_mul h.page_pos).mpr hhi
  obtain heq | hlt := Nat.eq_or_lt_of_le hi
  · rw [← heq] at hdiv
    rw [Valid, ← heq]
    omega
  · rw [Valid, hz _ hlt hj]
    omega

/-- A remote read that succeeded makes the pages from `index` to `j` valid. -/
theorem loadPages (h : Shows mirrored locals m) (index j : Nat)
    (hm : ∀ p, index * m.pageSize + m.chunkMap index ≤ p → p < j * m.pageSize →
      m.mapping p = mirrored p) :
    Shows mirrored locals (m.loadPages index j) := by
  refine h.load (fun i => (h.le_loadPages index j i).1) (fun i => (h.le_loadPages index j i).2)
    fun p hv hp => ?_
  have hdiv := Nat.div_add_mod' p m.pageSize
  by_cases hr : index ≤ p / m.pageSize ∧ p / m.pageSize < index + (j - index)
  · have hj : p / m.pageSize < j := by omega
    refine hm p ?_ ((Nat.div_lt_iff_lt_mul h.page_pos).mp hj)
    obtain heq | hlt := Nat.eq_or_lt_of_le hr.1
    · rw [Valid, ← heq] at hv
      rw [← heq] at hdiv
      omega
    · have hmul : (index + 1) * m.pageSize ≤ p / m.pageSize * m.pageSize :=
        Nat.mul_le_mul_right _ hlt
      have hchunk := h.chunk_le index
      rw [Nat.succ_mul] at hmul
      omega
  · rw [splice_out hr] at hp
    exact absurd hp hv

end Shows

/-- The marking loop ends at page `j`, the end of the remote read. -/
theorem markLoaded_eq (j fuel index : Nat) (m : LocalMirror β) (hps : 0 < m.pageSize)
    (hij : index ≤ j) (hfuel : j < fuel + index) :
    markLoaded (j * m.pageSize) fuel index m = some (j, m.loadPages index j) := by
  induction fuel generalizing index m with
  | zero => omega
  | succ fuel ih =>
    rw [markLoaded]
    by_cases hlt : index < j
    · rw [if_pos ((Nat.mul_lt_mul_right hps).mpr hlt)]
      refine (ih (index + 1) { m with chunkMap := Function.update m.chunkMap index m.pageSize }
        hps hlt (by omega)).trans ?_
      refine congrArg (fun c => some (j, { m with chunkMap := c })) ?_
      funext i
      simp only [splice, Function.update_apply]
      grind
    · have heq : index = j := by omega
      subst heq
      rw [if_neg (Nat.lt_irrefl _)]
      refine congrArg (fun c => some (index, { m with chunkMap := c })) ?_
      funext i
      exact (splice_out (by omega)).symm

/-- `m'` is `m` after remote reads: more of each page may be valid. -/
structure Loads (m m' : LocalMirror β) : Prop where
  blob_size : m'.blobSize = m.blobSize
  page_size : m'.pageSize = m.pageSize
  chunk_le : ∀ i, m.chunkMap i ≤ m'.chunkMap i
  written : m'.writtenMap = m.writtenMap

namespace Loads

theorem refl (m : LocalMirror β) : Loads m m := ⟨rfl, rfl, fun _ => Nat.le_refl _, rfl⟩

theorem trans {m₁ m₂ m₃ : LocalMirror β} (h : Loads m₁ m₂) (h' : Loads m₂ m₃) : Loads m₁ m₃ :=
  ⟨h'.blob_size.trans h.blob_size, h'.page_size.trans h.page_size,
    fun i => Nat.le_trans (h.chunk_le i) (h'.chunk_le i), h'.written.trans h.written⟩

theorem valid {m m' : LocalMirror β} (h : Loads m m') {p : Nat} (hp : m.Valid p) : m'.Valid p := by
  rw [Valid, h.page_size]
  exact Nat.lt_of_lt_of_le hp (h.chunk_le _)

end Loads

theorem leave_some {mirrored : Nat → β} {failed : FailedRead β} {off size pageSize p : Nat} {b : β}
    (h : leave mirrored failed off size pageSize p = some b) :
    (off ≤ p ∧ p < off + size) ∧ b = mirrored p := by
  unfold leave at h
  split at h
  · next hr => exact ⟨⟨hr.1, hr.2.1⟩, (Option.some.inj h).symm⟩
  · cases h

/-- A read within a page leaves nothing. -/
theorem leave_page {mirrored : Nat → β} {failed : FailedRead β} {off size pageSize index : Nat}
    (hlo : index * pageSize ≤ off) (hhi : off + size ≤ (index + 1) * pageSize) :
    leave mirrored failed off size pageSize = fun _ => none := by
  funext p
  refine if_neg fun hr => ?_
  have hlt : (off + size - 1) / pageSize < index + 1 := by
    refine Nat.div_lt_of_lt_mul ?_
    rw [Nat.mul_comm]
    omega
  have hpos : 0 < pageSize := by
    refine Nat.pos_of_ne_zero fun h0 => ?_
    rw [h0] at hhi
    omega
  have hle : index ≤ off / pageSize := (Nat.le_div_iff_mul_le hpos).mpr hlo
  omega

theorem fetch_cases (m : LocalMirror β) (mirrored : Nat → β) (remote : Nat → Option (FailedRead β))
    (off size : Nat) :
    ∃ ok src q, m.fetch mirrored remote off size =
        (ok, { m with mapping := splice m.land.mapping off size src, inFlight := q }) ∧
      (ok = true → src = mirrored) ∧
      (q = (fun _ => none) ∨ ∃ failed, q = leave mirrored failed off size m.pageSize) := by
  rw [fetch]
  cases remote off with
  | none => exact ⟨true, mirrored, _, rfl, fun _ => rfl, .inl rfl⟩
  | some failed => exact ⟨false, failed.junk, _, rfl, nofun, .inr ⟨failed, rfl⟩⟩

/-- The remote read itself, of bytes that are not valid. -/
theorem Shows.fetch (h : Shows mirrored locals m) (remote : Nat → Option (FailedRead β))
    (off size : Nat) (hnv : ∀ p, off ≤ p → p < off + size → ¬ m.Valid p) :
    ∃ ok mapping q, m.fetch mirrored remote off size =
        (ok, { m with mapping := mapping, inFlight := q }) ∧
      Shows mirrored locals { m with mapping := mapping, inFlight := q } ∧
      (ok = true → ∀ p, off ≤ p → p < off + size → mapping p = mirrored p) := by
  obtain ⟨ok, src, q, heq, hsrc, hq⟩ := fetch_cases m mirrored remote off size
  refine ⟨ok, _, q, heq, h.overwrite (fun p hp => ?_) (fun p b hb => ?_), fun hok p hlo hhi => ?_⟩
  · exact (splice_out fun hr => hnv p hr.1 hr.2 hp).trans (h.landed hp)
  · obtain rfl | ⟨failed, rfl⟩ := hq
    · cases hb
    · obtain ⟨hr, rfl⟩ := leave_some hb
      exact ⟨h.local_none (hnv p hr.1 hr.2), rfl⟩
  · rw [splice_in hlo hhi, hsrc hok]

/-- One round of the loop, at a page that has too few valid bytes. -/
theorem readLoop_load {m : LocalMirror β} (hps : 0 < m.pageSize) {mirrored g : Nat → β}
    {q : Nat → Option β}
    {remote : Nat → Option (FailedRead β)} {last index j size : Nat} {ok : Bool} (fuel : Nat)
    (hlt : index * m.pageSize < last)
    (hchunk : m.chunkMap index < min m.pageSize (last - index * m.pageSize))
    (hsize : m.extendRead last (index * m.pageSize + m.chunkMap index) (m.pages + 1)
      (if 0 < m.chunkMap index then m.pageSize - m.chunkMap index else 0) = some size)
    (hend : index * m.pageSize + m.chunkMap index + size = j * m.pageSize) (hij : index ≤ j)
    (hjp : j ≤ m.pages)
    (hfetch : m.fetch mirrored remote (index * m.pageSize + m.chunkMap index) size =
      (ok, { m with mapping := g, inFlight := q })) :
    readLoop mirrored remote last (fuel + 1) index m =
      if ok then
        readLoop mirrored remote last fuel j
          ({ m with mapping := g, inFlight := q }.loadPages index j)
      else some (false, { m with mapping := g, inFlight := q }) := by
  have hmark : markLoaded (j * m.pageSize) ({ m with mapping := g, inFlight := q }.pages + 1) index
      { m with mapping := g, inFlight := q } =
        some (j, { m with mapping := g, inFlight := q }.loadPages index j) :=
    markLoaded_eq j (m.pages + 1) index _ hps hij (by omega)
  rw [readLoop, if_pos hlt]
  simp only [if_pos hchunk, hsize, hfetch, hend, hmark]

theorem readLoop_skip {m : LocalMirror β} {mirrored : Nat → β} {remote : Nat → Option (FailedRead β)}
    {last index : Nat} (fuel : Nat) (hlt : index * m.pageSize < last)
    (hchunk : ¬ m.chunkMap index < min m.pageSize (last - index * m.pageSize)) :
    readLoop mirrored remote last (fuel + 1) index m =
      readLoop mirrored remote last fuel (index + 1) m := by
  rw [readLoop, if_pos hlt]
  simp only [if_neg hchunk]

theorem readLoop_end {m : LocalMirror β} {mirrored : Nat → β} {remote : Nat → Option (FailedRead β)}
    {last index : Nat} (fuel : Nat) (hle : ¬ index * m.pageSize < last) :
    readLoop mirrored remote last (fuel + 1) index m = some (true, m) := by
  rw [readLoop, if_neg hle]

theorem Shows.readLoop (h : Shows mirrored locals m) (remote : Nat → Option (FailedRead β))
    {last : Nat} (hlast : last ≤ m.blobSize) (fuel index : Nat) (hindex : index ≤ m.pages)
    (hfuel : m.pages < fuel + index) :
    ∃ ok m', LocalMirror.readLoop mirrored remote last fuel index m = some (ok, m') ∧
      Shows mirrored locals m' ∧ Loads m m' ∧
      (ok = true → ∀ p, index * m.pageSize ≤ p → p < last → m'.Valid p) := by
  induction fuel generalizing index m with
  | zero => omega
  | succ fuel ih =>
    by_cases hlt : index * m.pageSize < last
    · have hpages : index < m.pages := h.lt_pages.mpr (by omega)
      by_cases hchunk : m.chunkMap index < min m.pageSize (last - index * m.pageSize)
      · obtain ⟨j, size, hsize, hend, hj, hjp, hz⟩ := h.extendRead_page hlast hlt
        obtain ⟨ok, mapping, q, hfetch, hs, hm⟩ := h.fetch remote
          (index * m.pageSize + m.chunkMap index) size
          fun p hlo hhi => h.not_valid_of_fetch hz hlo (by omega)
        rw [readLoop_load h.page_pos fuel hlt hchunk hsize hend (Nat.le_of_lt hj) hjp hfetch]
        cases ok with
        | false => exact ⟨false, _, rfl, hs, ⟨rfl, rfl, fun _ => Nat.le_refl _, rfl⟩, nofun⟩
        | true =>
          have hs' := hs.loadPages index j fun p hlo hhi => hm rfl p hlo (hend ▸ hhi)
          have hl : Loads m ({ m with mapping := mapping, inFlight := q }.loadPages index j) :=
            ⟨rfl, rfl, fun i => (h.le_loadPages index j i).1, rfl⟩
          obtain ⟨ok, m', heq, hs₂, hl₂, hv⟩ := ih hs' hlast j hjp (by
            simp only [LocalMirror.loadPages, LocalMirror.pages] at hfuel ⊢
            omega)
          refine ⟨ok, m', heq, hs₂, hl.trans hl₂, fun hok p hlo hhi => ?_⟩
          by_cases hp : p < j * m.pageSize
          · exact hl₂.valid (valid_loadPages h.page_pos hlo hp)
          · exact hv hok p (Nat.le_of_not_lt hp) hhi
      · rw [readLoop_skip fuel hlt hchunk]
        obtain ⟨ok, m', heq, hs, hl, hv⟩ := ih h hlast (index + 1) hpages (by omega)
        refine ⟨ok, m', heq, hs, hl, fun hok p hlo hhi => ?_⟩
        by_cases hp : p < (index + 1) * m.pageSize
        · refine hl.valid ((valid_iff hlo hp).mpr ?_)
          rw [Nat.succ_mul] at hp
          omega
        · exact hv hok p (by omega) hhi
    · rw [readLoop_end fuel hlt]
      exact ⟨true, m, rfl, h, .refl m, fun _ p hlo hhi => by omega⟩

/-- `read` ends, and when it returns bytes, these are the bytes that the mirror shows. -/
theorem Shows.read (h : Shows mirrored locals m) (remote : Nat → Option (FailedRead β))
    (size off : Nat) :
    ∃ n m', m.read mirrored remote size off = some (n, m') ∧ Shows mirrored locals m' ∧
      Loads m m' ∧
      ∀ p, off ≤ p → p < off + n → m'.mapping p = (locals p).getD (mirrored p) := by
  rw [LocalMirror.read]
  by_cases hoff : off ≥ m.blobSize
  · rw [if_pos hoff]
    exact ⟨0, m, rfl, h, .refl m, fun p hlo hhi => by omega⟩
  · rw [if_neg hoff]
    generalize hsize : (if off + size > m.blobSize then m.blobSize - off else size) = n
    have hlast : off + n ≤ m.blobSize := by
      rw [← hsize]
      split <;> omega
    have hindex : off / m.pageSize * m.pageSize ≤ off := Nat.div_mul_le_self off m.pageSize
    generalize off / m.pageSize = index at hindex ⊢
    have hpages : index < m.pages := h.lt_pages.mpr (by omega)
    obtain ⟨ok, m', heq, hs, hl, hv⟩ := h.readLoop remote hlast (m.pages + 1) index
      (Nat.le_of_lt hpages) (by omega)
    refine ⟨if ok then n else 0, m', by simp only [heq, Option.map_some], hs, hl, ?_⟩
    intro p hlo hhi
    cases ok with
    | false => exact absurd hhi (by simpa using hlo)
    | true => exact hs.valid p (hv rfl p (by omega) hhi)

/-! ### `write` -/

/-- The mirror after the marking loop of a `write` that ends at `last`. -/
def markPages (m : LocalMirror β) (index last : Nat) : LocalMirror β :=
  { m with
    chunkMap := fun i =>
      if index ≤ i ∧ i * m.pageSize < last then
        max (m.chunkMap i) (min m.pageSize (last - i * m.pageSize))
      else m.chunkMap i
    writtenMap := fun i => if index ≤ i ∧ i * m.pageSize < last then true else m.writtenMap i }

/-- From page `index` on, the bytes before `last` become valid. -/
theorem valid_markPages {m : LocalMirror β} (hps : 0 < m.pageSize) {index last p : Nat} :
    (m.markPages index last).Valid p ↔ m.Valid p ∨ (index * m.pageSize ≤ p ∧ p < last) := by
  have hdiv := Nat.div_add_mod' p m.pageSize
  have hmod := Nat.mod_lt p hps
  rw [← Nat.le_div_iff_mul_le hps]
  simp only [Valid, markPages]
  generalize p / m.pageSize = i at *
  split <;> omega

/-- One round of the loop. -/
def markPage (m : LocalMirror β) (index last : Nat) : LocalMirror β :=
  let gap := min m.pageSize (last - index * m.pageSize)
  { m with
    chunkMap := if m.chunkMap index < gap then Function.update m.chunkMap index gap else m.chunkMap
    writtenMap := Function.update m.writtenMap index true }

theorem markPages_succ {m : LocalMirror β} {index last : Nat} (hlt : index * m.pageSize < last) :
    (m.markPage index last).markPages (index + 1) last = m.markPages index last := by
  simp only [markPages, markPage, LocalMirror.mk.injEq, true_and, and_true]
  refine ⟨funext fun i => ?_, funext fun i => ?_⟩
  · rw [ite_apply, Function.update_apply]
    grind
  · rw [Function.update_apply]
    grind

theorem markWritten_eq (last pages fuel index : Nat) (m : LocalMirror β)
    (hlast : last ≤ pages * m.pageSize) (hindex : index ≤ pages) (hfuel : pages < fuel + index) :
    markWritten last fuel index m = some (m.markPages index last) := by
  induction fuel generalizing index m with
  | zero => omega
  | succ fuel ih =>
    rw [markWritten]
    by_cases hlt : index * m.pageSize < last
    · have hpages : index < pages := Nat.lt_of_mul_lt_mul_right (Nat.lt_of_lt_of_le hlt hlast)
      rw [if_pos hlt]
      refine (ih (index + 1) (markPage m index last) hlast hpages (by omega)).trans ?_
      rw [markPages_succ hlt]
    · have hout : ∀ i, ¬ (index ≤ i ∧ i * m.pageSize < last) := by
        intro i hi
        have := Nat.mul_le_mul_right m.pageSize hi.1
        omega
      rw [if_neg hlt, markPages]
      simp only [if_neg (hout _)]

/-- The bytes written locally after a `write`. -/
def written (locals : Nat → Option β) (off size : Nat) (buf : Nat → β) : Nat → Option β :=
  splice locals off size fun p => some (buf (p - off))

theorem written_zero (locals : Nat → Option β) (off : Nat) (buf : Nat → β) :
    written locals off 0 buf = locals := by
  funext p
  exact splice_out (by omega)

/-- None of the bytes from `off` on is in flight. -/
def NotInFlight (m : LocalMirror β) (off size : Nat) : Prop :=
  ∀ p < off + size, off ≤ p → m.inFlight p = none

instance (m : LocalMirror β) (off size : Nat) : Decidable (m.NotInFlight off size) :=
  inferInstanceAs (Decidable (∀ p < off + size, off ≤ p → m.inFlight p = none))

/-- A `write` in the page `index`: its bytes and the gap before them are in the mapping, and its
pages are marked. -/
theorem Shows.put (h : Shows mirrored locals m) {off size index : Nat} {buf mapping : Nat → β}
    {q : Nat → Option β} (hblob : off + size ≤ m.blobSize) (hlo : index * m.pageSize ≤ off)
    (hhi : off < (index + 1) * m.pageSize)
    (hbuf : ∀ p, off ≤ p → p < off + size → mapping p = buf (p - off))
    (hgap : ∀ p, index * m.pageSize + m.chunkMap index ≤ p → p < off → mapping p = mirrored p)
    (hkeep : ∀ p, ¬ (off ≤ p ∧ p < off + size) → m.Valid p → mapping p = m.mapping p)
    (hfree : m.NotInFlight off size) (hq : ∀ p b, q p = some b → m.inFlight p = some b) :
    Shows mirrored (written locals off size buf)
      ({ m with mapping := mapping, inFlight := q }.markPages index (off + size)) := by
  have hvalid : ∀ p, ({ m with mapping := mapping, inFlight := q }.markPages index
      (off + size)).Valid p ↔ m.Valid p ∨ (index * m.pageSize ≤ p ∧ p < off + size) :=
    fun p => valid_markPages h.page_pos
  refine ⟨⟨h.page_pos, h.blob_size, fun i => ?_⟩, fun p hp => ?_, fun p hp => ?_, fun p hp => ?_,
    fun p b hb => ?_⟩
  · have hle := h.chunk_le i
    simp only [markPages]
    split <;> omega
  · by_cases hr : off ≤ p ∧ p < off + size
    · rw [written, splice_in hr.1 hr.2]
      exact hbuf p hr.1 hr.2
    · rw [written, splice_out hr]
      by_cases hv : m.Valid p
      · exact (hkeep p hr hv).trans (h.valid p hv)
      · -- Besides the bytes of the write only those of the gap become valid.
        obtain hp | ⟨hp, hlast⟩ := (hvalid p).mp hp
        · exact absurd hp hv
        · rw [valid_iff hp (by omega)] at hv
          rw [h.local_none ((valid_iff hp (by omega)).not.mpr hv)]
          exact hgap p (by omega) (by omega)
  · by_cases hr : off ≤ p ∧ p < off + size
    · exact (hvalid p).mpr (.inr ⟨by omega, hr.2⟩)
    · rw [written, splice_out hr] at hp
      exact (hvalid p).mpr (.inl (h.local_valid p hp))
  · by_cases hr : off ≤ p ∧ p < off + size
    · refine ⟨Nat.lt_of_lt_of_le hr.2 hblob, if_pos ⟨?_, ?_⟩⟩
      · exact (Nat.le_div_iff_mul_le h.page_pos).mpr (Nat.le_trans hlo hr.1)
      · exact Nat.lt_of_le_of_lt (Nat.div_mul_le_self p m.pageSize) hr.2
    · rw [written, splice_out hr] at hp
      obtain ⟨hlt, hw⟩ := h.local_written p hp
      refine ⟨hlt, ?_⟩
      simp only [markPages]
      split
      · rfl
      · exact hw
  · have hold := hq p b hb
    obtain ⟨hlocal, hbyte⟩ := h.in_flight p b hold
    refine ⟨(splice_out fun hr => ?_).trans hlocal, hbyte⟩
    rw [hfree p hr.2 hr.1] at hold
    cases hold

/-- `memcpy` and the remote read of the gap before its bytes. -/
theorem Shows.fill_gap (h : Shows mirrored locals m) (remote : Nat → Option (FailedRead β))
    {off index : Nat} (size : Nat) (src : Nat → β) (hhi : off < (index + 1) * m.pageSize) :
    ∃ ok mapping q,
      (if index * m.pageSize + m.chunkMap index < off then
        LocalMirror.fetch mirrored remote (index * m.pageSize + m.chunkMap index)
          (off - (index * m.pageSize + m.chunkMap index))
          { m with mapping := splice m.mapping off size src }
      else (true, { m with mapping := splice m.mapping off size src })) =
        (ok, { m with mapping := mapping, inFlight := q }) ∧
      (m.NotInFlight off size → ∀ p, off ≤ p → p < off + size → mapping p = src p) ∧
      (∀ p, ¬ (off ≤ p ∧ p < off + size) → m.Valid p → mapping p = m.mapping p) ∧
      (ok = true → ∀ p, index * m.pageSize + m.chunkMap index ≤ p → p < off →
        mapping p = mirrored p) ∧
      ∀ p b, q p = some b → m.inFlight p = some b := by
  by_cases hgap : index * m.pageSize + m.chunkMap index < off
  · rw [if_pos hgap]
    obtain ⟨ok, bytes, q, heq, hbytes, hq⟩ := fetch_cases
      { m with mapping := splice m.mapping off size src } mirrored remote
      (index * m.pageSize + m.chunkMap index) (off - (index * m.pageSize + m.chunkMap index))
    refine ⟨ok, _, q, heq, fun hfree p h1 h2 => ?_, fun p hr hv => ?_, fun hok p h1 h2 => ?_,
      fun p b hb => ?_⟩
    · have hland : (m.inFlight p).getD (splice m.mapping off size src p) = src p := by
        rw [hfree p h2 h1, splice_in h1 h2]
        rfl
      exact (splice_out (by omega)).trans hland
    · have hland : (m.inFlight p).getD (splice m.mapping off size src p) = m.mapping p := by
        rw [splice_out hr]
        exact h.landed hv
      refine (splice_out fun hp => ?_).trans hland
      rw [valid_iff (i := index) (by omega) (by omega)] at hv
      omega
    · rw [splice_in h1 (by omega), hbytes hok]
    · obtain rfl | ⟨failed, rfl⟩ := hq
      · cases hb
      · rw [leave_page (Nat.le_add_right _ _) (by omega)] at hb
        cases hb
  · rw [if_neg hgap]
    refine ⟨true, _, m.inFlight, rfl, fun _ p h1 h2 => splice_in h1 h2,
      fun p hr _ => splice_out hr, fun _ p h1 h2 => by omega, fun _ _ hb => hb⟩

/-- `write` ends; when it returns `size`, the mirror shows the bytes written, unless they are in flight,
and their pages are marked. -/
theorem Shows.write (h : Shows mirrored locals m) (remote : Nat → Option (FailedRead β))
    (size off : Nat) (buf : Nat → β) :
    ∃ n m', m.write mirrored remote size off buf = some (n, m') ∧
      m'.blobSize = m.blobSize ∧ m'.pageSize = m.pageSize ∧
      (n = size → m.NotInFlight off size → Shows mirrored (written locals off size buf) m') ∧
      (n = size → 0 < size → ∀ i, m'.writtenMap i =
        if off / m.pageSize ≤ i ∧ i * m.pageSize < off + size then true else m.writtenMap i) := by
  rw [LocalMirror.write]
  by_cases hoff : off + size > m.blobSize
  · rw [if_pos hoff]
    refine ⟨0, m, rfl, rfl, rfl, fun hn _ => ?_, fun hn hpos => by omega⟩
    rw [← hn, written_zero]
    exact h
  · rw [if_neg hoff]
    dsimp only
    have hlo : off / m.pageSize * m.pageSize ≤ off := Nat.div_mul_le_self off m.pageSize
    have hhi : off < (off / m.pageSize + 1) * m.pageSize :=
      (Nat.div_lt_iff_lt_mul h.page_pos).mp (Nat.lt_succ_self _)
    generalize off / m.pageSize = index at hlo hhi ⊢
    obtain ⟨ok, mapping, q, heq, hbuf, hkeep, hgap, hq⟩ :=
      h.fill_gap remote size (fun p => buf (p - off)) hhi
    simp only [heq]
    cases ok with
    | false =>
      refine ⟨0, _, rfl, rfl, rfl, fun hn _ => ?_, fun hn hpos => by omega⟩
      rw [← hn, written_zero]
      exact h.overwrite (fun p hv => hkeep p (by omega) hv) fun p b hb => h.in_flight p b (hq p b hb)
    | true =>
      have hpages : index ≤ m.pages := Nat.le_of_mul_le_mul_right
        (by rw [h.blob_size]; omega : index * m.pageSize ≤ m.pages * m.pageSize) h.page_pos
      have hmark : markWritten (off + size) ({ m with mapping := mapping, inFlight := q }.pages + 1)
          index { m with mapping := mapping, inFlight := q } =
            some ({ m with mapping := mapping, inFlight := q }.markPages index (off + size)) :=
        markWritten_eq (off + size) m.pages (m.pages + 1) index _ (by rw [h.blob_size]; omega)
          hpages (by omega)
      refine ⟨size, { m with mapping := mapping, inFlight := q }.markPages index (off + size), ?_,
        rfl, rfl, fun _ hfree => h.put (by omega) hlo hhi (hbuf hfree) (hgap rfl) hkeep hfree hq,
        fun _ _ _ => rfl⟩
      rw [if_pos rfl, hmark]
      rfl

end LocalMirror

end BlobSeer
