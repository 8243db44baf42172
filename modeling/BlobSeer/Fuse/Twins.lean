import BlobSeer.Fuse.Sends

/-!
# Mirrors that differ in their mappings

Two mirrors with the same maps and the same requests in flight show the same to every later call when
their mappings agree on all bytes but the first ones of the pages that have nothing loaded
(`Sound.outcomes_twin`): such a byte is read from remote, or written, before anything shows it. The bytes
behind the valid ones of any other page may be sent by `commit`.
-/

namespace BlobSeer

open Lib (Run)

variable {β : Type}

/-- The calls on a mirror. The io service may also run for a request that does not concern the mirror, and
the mirror may be closed and opened again when nothing is in flight. -/
inductive MirrorCall (β : Type) where
  | read (size off : Nat) (remote : Nat → Option (FailedRead β))
  | write (size off : Nat) (buf : Nat → β) (remote : Nat → Option (FailedRead β))
  | commit (remote : Nat → Bool)
  | run
  | reopen (beyond : Nat → Bool)

/-- What a call shows: the bytes of a read, the count of a write, the writes of a commit. -/
inductive MirrorOutcome (β : Type) where
  | bytes (bytes : List β)
  | count (n : Nat)
  | sent (ok : Bool) (sends : List (Nat × List β))
  | ran
  | opened
deriving DecidableEq

namespace LocalMirror

/-- One call; `none` for a commit that does not end. -/
def call (mirrored : Nat → β) (m : LocalMirror β) :
    MirrorCall β → Option (MirrorOutcome β × LocalMirror β)
  | .read size off remote =>
    (m.read mirrored remote size off).map fun (n, m) => (.bytes (m.bytesAt off n), m)
  | .write size off buf remote =>
    (m.write mirrored remote size off buf).map fun (n, m) => (.count n, m)
  | .commit remote => (m.sends remote).map fun (ok, m, sends) => (.sent ok sends, m)
  | .run => some (.ran, m.land)
  | .reopen beyond =>
    let m := m.land
    some (.opened, .new m.blobSize m.pageSize m.mapping (some m.close) beyond)

section

variable {m m' : LocalMirror β} {mirrored : Nat → β}

theorem call_read {remote : Nat → Option (FailedRead β)} {size off n : Nat}
    (h : m.read mirrored remote size off = some (n, m')) :
    m.call mirrored (.read size off remote) = some (.bytes (m'.bytesAt off n), m') :=
  congrArg (Option.map _) h

theorem call_write {remote : Nat → Option (FailedRead β)} {size off n : Nat} {buf : Nat → β}
    (h : m.write mirrored remote size off buf = some (n, m')) :
    m.call mirrored (.write size off buf remote) = some (.count n, m') :=
  congrArg (Option.map _) h

theorem call_commit {remote : Nat → Bool} {ok : Bool} {sends : List (Nat × List β)}
    (h : m.sends remote = some (ok, m', sends)) :
    m.call mirrored (.commit remote) = some (.sent ok sends, m') :=
  congrArg (Option.map _) h

end

/-- The mirror after a call. -/
def callStep (mirrored : Nat → β) (m : LocalMirror β) (c : MirrorCall β) : Option (LocalMirror β) :=
  (m.call mirrored c).map Prod.snd

/-- What a sequence of calls shows, up to the first one that does not end. -/
def outcomes (mirrored : Nat → β) : LocalMirror β → List (MirrorCall β) →
    List (Option (MirrorOutcome β))
  | _, [] => []
  | m, c :: cs =>
    match m.call mirrored c with
    | none => [none]
    | some (o, m) => some o :: outcomes mirrored m cs

/-! ## Mirrors and their mappings -/

/-- What holds of the containers of a mirror, whatever its bytes are. -/
structure Sound (m : LocalMirror β) : Prop extends m.Shape where
  written_chunk : ∀ i, i < m.pages → m.writtenMap i = true → 0 < m.chunkMap i
  flight_lt : ∀ p b, m.inFlight p = some b → p < m.blobSize

/-- The first byte of a page that has nothing loaded. -/
def Hidden (m : LocalMirror β) (p : Nat) : Prop := p % m.pageSize = 0 ∧ ¬ m.Valid p

instance (m : LocalMirror β) (p : Nat) : Decidable (m.Hidden p) :=
  inferInstanceAs (Decidable (_ ∧ ¬ _ < _))

/-- The same mirror with other bytes. -/
def withMapping (m : LocalMirror β) (f : Nat → β) : LocalMirror β := { m with mapping := f }

/-- The same mirror with other requests in flight. -/
def withInFlight (m : LocalMirror β) (q : Nat → Option β) : LocalMirror β := { m with inFlight := q }

/-- The bytes `f` after the answers to the requests that are in flight. -/
def landOn (m : LocalMirror β) (f : Nat → β) : Nat → β := fun p => (m.inFlight p).getD (f p)

/-- The bytes `f` are those of the mirror, except for hidden ones. -/
def Agrees (m : LocalMirror β) (f : Nat → β) : Prop := ∀ p, ¬ m.Hidden p → f p = m.mapping p

theorem Sound.new {blobSize pageSize : Nat} (hps : 0 < pageSize) (hdvd : pageSize ∣ blobSize)
    (file : Nat → β) (beyond : Nat → Bool) : (new blobSize pageSize file none beyond).Sound where
  page_pos := hps
  blob_size := Nat.div_mul_cancel hdvd
  chunk_le _ := Nat.zero_le _
  written_chunk i hi hw := by
    simp only [LocalMirror.new, if_pos (show i < blobSize / pageSize from hi)] at hw
    cases hw
  flight_lt _ _ hq := by cases hq

theorem not_hidden_of_valid {m : LocalMirror β} {p : Nat} (h : m.Valid p) : ¬ m.Hidden p :=
  fun hidden => hidden.2 h

theorem extendRead_withMapping (m : LocalMirror β) (f : Nat → β) (last readOff fuel size : Nat) :
    (m.withMapping f).extendRead last readOff fuel size = m.extendRead last readOff fuel size := by
  induction fuel generalizing size with
  | zero => rfl
  | succ fuel ih =>
    rw [extendRead, extendRead]
    split
    · rw [if_pos ‹_›]
      exact ih _
    · rw [if_neg ‹_›]

theorem findStop_withMapping (m : LocalMirror β) (f : Nat → β) (fuel stop : Nat) :
    (m.withMapping f).findStop fuel stop = m.findStop fuel stop := by
  induction fuel generalizing stop with
  | zero => rfl
  | succ fuel ih =>
    rw [findStop, findStop]
    split
    · rw [if_pos ‹_›]
      exact ih _
    · rw [if_neg ‹_›]

/-- A remote read ends the same for both. -/
theorem fetch_withMapping (m : LocalMirror β) (f : Nat → β) (mirrored : Nat → β)
    (remote : Nat → Option (FailedRead β)) (off size : Nat) :
    ∃ ok src q, m.fetch mirrored remote off size =
        (ok, (m.withInFlight q).withMapping (splice (m.landOn m.mapping) off size src)) ∧
      (m.withMapping f).fetch mirrored remote off size =
        (ok, (m.withInFlight q).withMapping (splice (m.landOn f) off size src)) ∧
      (q = (fun _ => none) ∨ ∃ failed, q = leave mirrored failed off size m.pageSize) := by
  unfold fetch
  cases remote off with
  | none => exact ⟨true, mirrored, _, rfl, rfl, .inl rfl⟩
  | some failed => exact ⟨false, failed.junk, _, rfl, rfl, .inr ⟨failed, rfl⟩⟩

theorem Agrees.land {m : LocalMirror β} {f : Nat → β} (h : m.Agrees f) :
    m.land.Agrees (m.landOn f) := by
  intro p hp
  show (m.inFlight p).getD (f p) = (m.inFlight p).getD (m.mapping p)
  rw [h p hp]

theorem Agrees.splice {m : LocalMirror β} {f : Nat → β} (h : m.Agrees f) (off size : Nat)
    (src : Nat → β) :
    (m.withMapping (BlobSeer.splice m.mapping off size src)).Agrees
      (BlobSeer.splice f off size src) := by
  intro p hp
  show BlobSeer.splice f off size src p = BlobSeer.splice m.mapping off size src p
  by_cases hr : off ≤ p ∧ p < off + size
  · rw [splice_in hr.1 hr.2, splice_in hr.1 hr.2]
  · rw [splice_out hr, splice_out hr]
    exact h p hp

/-- The bytes of a remote read agree. -/
theorem Agrees.fetch {m : LocalMirror β} {f : Nat → β} (h : m.Agrees f) (off size : Nat)
    (src : Nat → β) (q : Nat → Option β) :
    ((m.withInFlight q).withMapping (BlobSeer.splice (m.landOn m.mapping) off size src)).Agrees
      (BlobSeer.splice (m.landOn f) off size src) :=
  h.land.splice off size src

theorem Sound.withMapping {m : LocalMirror β} (h : m.Sound) (f : Nat → β) :
    (m.withMapping f).Sound :=
  ⟨⟨h.page_pos, h.blob_size, h.chunk_le⟩, h.written_chunk, h.flight_lt⟩

theorem Sound.withInFlight {m : LocalMirror β} (h : m.Sound) {q : Nat → Option β}
    (hq : ∀ p b, q p = some b → p < m.blobSize) : (m.withInFlight q).Sound :=
  ⟨⟨h.page_pos, h.blob_size, h.chunk_le⟩, h.written_chunk, hq⟩

theorem Sound.land {m : LocalMirror β} (h : m.Sound) : m.land.Sound :=
  ⟨⟨h.page_pos, h.blob_size, h.chunk_le⟩, h.written_chunk, fun _ _ => nofun⟩

/-- The requests of a remote read are for pages of the blob. -/
theorem Sound.fetch {m : LocalMirror β} (h : m.Sound) {mirrored : Nat → β} {off size : Nat}
    {q : Nat → Option β} (hend : off + size ≤ m.blobSize)
    (hq : q = (fun _ => none) ∨ ∃ failed, q = leave mirrored failed off size m.pageSize) :
    (m.withInFlight q).Sound := by
  refine h.withInFlight fun p b hb => ?_
  obtain rfl | ⟨failed, rfl⟩ := hq
  · cases hb
  · exact Nat.lt_of_lt_of_le (leave_some hb).1.2 hend

theorem Sound.loadPages {m : LocalMirror β} (h : m.Sound) (index j : Nat) :
    (m.loadPages index j).Sound where
  page_pos := h.page_pos
  blob_size := h.blob_size
  chunk_le i := (h.le_loadPages index j i).2
  written_chunk i hi hw := Nat.lt_of_lt_of_le (h.written_chunk i hi hw)
    (h.le_loadPages index j i).1
  flight_lt := h.flight_lt

/-- The bytes that become valid agree too. -/
theorem Agrees.reveal {m m' : LocalMirror β} {f : Nat → β} (h : m.Agrees f)
    (hps : m'.pageSize = m.pageSize) (hmap : m'.mapping = m.mapping)
    (hnew : ∀ p, m'.Valid p → m.Valid p ∨ f p = m.mapping p) : m'.Agrees f := by
  intro p hp
  rw [hmap]
  by_cases hidden : m.Hidden p
  · have hv : m'.Valid p := by
      by_contra hv
      exact hp ⟨hps ▸ hidden.1, hv⟩
    exact (hnew p hv).resolve_left hidden.2
  · exact h p hidden

theorem of_valid_loadPages {m : LocalMirror β} (hps : 0 < m.pageSize) {index j p : Nat}
    (h : (m.loadPages index j).Valid p) :
    m.Valid p ∨ (index * m.pageSize ≤ p ∧ p < j * m.pageSize) := by
  rw [← Nat.le_div_iff_mul_le hps, ← Nat.div_lt_iff_lt_mul hps]
  by_cases hr : index ≤ p / m.pageSize ∧ p / m.pageSize < index + (j - index)
  · exact .inr (by omega)
  · have hchunk : splice m.chunkMap index (j - index) (fun _ => m.pageSize) (p / m.pageSize) =
        m.chunkMap (p / m.pageSize) :=
      splice_out hr
    exact .inl (Nat.lt_of_lt_of_eq h hchunk)

theorem Sound.before_or_valid {m : LocalMirror β} (hs : m.Sound) {index p : Nat}
    (hlo : index * m.pageSize ≤ p) (hp : p < index * m.pageSize + m.chunkMap index) : m.Valid p := by
  have hle := hs.chunk_le index
  exact (valid_iff hlo (by rw [Nat.succ_mul]; omega)).mpr hp

/-- The bytes of a remote read become valid. -/
theorem Agrees.loadPages {m : LocalMirror β} {f : Nat → β} (h : m.Agrees f) (hs : m.Sound)
    {index j size : Nat} (src : Nat → β) (q : Nat → Option β)
    (hend : index * m.pageSize + m.chunkMap index + size = j * m.pageSize) :
    (((m.withInFlight q).withMapping (BlobSeer.splice (m.landOn m.mapping)
        (index * m.pageSize + m.chunkMap index) size src)).loadPages index j).Agrees
      (BlobSeer.splice (m.landOn f) (index * m.pageSize + m.chunkMap index) size src) := by
  refine (h.fetch _ size src q).reveal rfl rfl fun p hv => ?_
  rcases of_valid_loadPages (m := (m.withInFlight q).withMapping _) hs.page_pos hv with
    hv | ⟨hlo, hhi⟩
  · exact .inl hv
  · by_cases hp : p < index * m.pageSize + m.chunkMap index
    · exact .inl (hs.before_or_valid hlo hp)
    · refine .inr ?_
      have hhi' : p < index * m.pageSize + m.chunkMap index + size := hend ▸ hhi
      exact (splice_in (Nat.le_of_not_lt hp) hhi').trans
        (splice_in (Nat.le_of_not_lt hp) hhi').symm

/-! ## `read` -/

/-- Both mirrors go through the same pages. -/
theorem Sound.readLoop_twin {m : LocalMirror β} (hs : m.Sound) {f : Nat → β} (h : m.Agrees f)
    (mirrored : Nat → β) (remote : Nat → Option (FailedRead β)) {last : Nat} (hlast : last ≤ m.blobSize)
    (fuel index : Nat) (hindex : index ≤ m.pages) (hfuel : m.pages < fuel + index) :
    ∃ ok m' f', readLoop mirrored remote last fuel index m = some (ok, m') ∧
      readLoop mirrored remote last fuel index (m.withMapping f) = some (ok, m'.withMapping f') ∧
      m'.Sound ∧ m'.Agrees f' ∧ Loads m m' ∧
      (ok = true → ∀ p, index * m.pageSize ≤ p → p < last → m'.Valid p) := by
  induction fuel generalizing index m f with
  | zero => omega
  | succ fuel ih =>
    by_cases hlt : index * m.pageSize < last
    · have hpages : index < m.pages := (lt_pages_iff hs.page_pos hs.blob_size).mpr (by omega)
      by_cases hchunk : m.chunkMap index < min m.pageSize (last - index * m.pageSize)
      · obtain ⟨j, size, hsize, hend, hj, hjp, -⟩ := hs.extendRead_page hlast hlt
        obtain ⟨ok, src, q, hfetch, hfetch', hq⟩ := fetch_withMapping m f mirrored remote
          (index * m.pageSize + m.chunkMap index) size
        have hle : index * m.pageSize + m.chunkMap index + size ≤ m.blobSize := by
          rw [hend, ← hs.blob_size]
          exact Nat.mul_le_mul_right _ hjp
        have hs₁ := hs.fetch hle hq
        have hround := readLoop_load hs.page_pos fuel hlt hchunk hsize hend (Nat.le_of_lt hj) hjp
          hfetch
        have hround' := readLoop_load (m := m.withMapping f) hs.page_pos fuel hlt hchunk
          ((extendRead_withMapping m f _ _ _ _).trans hsize) hend (Nat.le_of_lt hj) hjp hfetch'
        rw [hround, hround']
        cases ok with
        | false =>
          exact ⟨false, _, _, rfl, rfl, hs₁.withMapping _, h.fetch _ _ src q,
            ⟨rfl, rfl, fun _ => Nat.le_refl _, rfl⟩, nofun⟩
        | true =>
          obtain ⟨ok, m', f', heq, heq', hs', h', hl, hv⟩ := ih
            ((hs₁.withMapping _).loadPages index j) (h.loadPages hs src q hend) hlast j hjp
            (show m.pages < fuel + j by omega)
          refine ⟨ok, m', f', heq, heq', hs', h', ?_, fun hok p hlo hhi => ?_⟩
          · have hload (g : Nat → β) :
                Loads m (((m.withInFlight q).withMapping g).loadPages index j) :=
              ⟨rfl, rfl, fun i => (hs.le_loadPages index j i).1, rfl⟩
            exact (hload _).trans hl
          · by_cases hp : p < j * m.pageSize
            · exact hl.valid (valid_loadPages hs.page_pos hlo hp)
            · exact hv hok p (Nat.le_of_not_lt hp) hhi
      · rw [readLoop_skip fuel hlt hchunk, readLoop_skip (m := m.withMapping f) fuel hlt hchunk]
        obtain ⟨ok, m', f', heq, heq', hs', h', hl, hv⟩ := ih hs h hlast (index + 1) hpages (by omega)
        refine ⟨ok, m', f', heq, heq', hs', h', hl, fun hok p hlo hhi => ?_⟩
        by_cases hp : p < (index + 1) * m.pageSize
        · refine hl.valid ((valid_iff hlo hp).mpr ?_)
          rw [Nat.succ_mul] at hp
          omega
        · exact hv hok p (by omega) hhi
    · rw [readLoop_end fuel hlt, readLoop_end (m := m.withMapping f) fuel hlt]
      exact ⟨true, m, f, rfl, rfl, hs, h, .refl m, fun _ p hlo hhi => by omega⟩

/-- The bytes of a range that has nothing hidden. -/
theorem Agrees.bytesAt {m : LocalMirror β} {f : Nat → β} (h : m.Agrees f) {off size : Nat}
    (hv : ∀ p, off ≤ p → p < off + size → ¬ m.Hidden p) :
    (m.withMapping f).bytesAt off size = m.bytesAt off size := by
  refine List.map_congr_left fun p hp => h p ?_
  rw [List.mem_range'_1] at hp
  exact hv p hp.1 hp.2

/-- Both mirrors return the same bytes. -/
theorem Sound.read_twin {m : LocalMirror β} (hs : m.Sound) {f : Nat → β} (h : m.Agrees f)
    (mirrored : Nat → β) (remote : Nat → Option (FailedRead β)) (size off : Nat) :
    ∃ n m' f', m.read mirrored remote size off = some (n, m') ∧
      (m.withMapping f).read mirrored remote size off = some (n, m'.withMapping f') ∧
      m'.Sound ∧ m'.Agrees f' ∧ Loads m m' ∧ ∀ p, off ≤ p → p < off + n → ¬ m'.Hidden p := by
  rw [LocalMirror.read, LocalMirror.read]
  by_cases hoff : off ≥ m.blobSize
  · rw [if_pos hoff, if_pos (show off ≥ (m.withMapping f).blobSize from hoff)]
    exact ⟨0, m, f, rfl, rfl, hs, h, .refl m, fun p hlo hhi => by omega⟩
  · rw [if_neg hoff, if_neg (show ¬ off ≥ (m.withMapping f).blobSize from hoff)]
    have hclip : (if off + size > (m.withMapping f).blobSize then (m.withMapping f).blobSize - off
        else size) = if off + size > m.blobSize then m.blobSize - off else size := rfl
    rw [hclip]
    generalize hsize : (if off + size > m.blobSize then m.blobSize - off else size) = n
    have hlast : off + n ≤ m.blobSize := by
      rw [← hsize]
      split <;> omega
    have hlo : off / m.pageSize * m.pageSize ≤ off := Nat.div_mul_le_self off m.pageSize
    have hpages : off / m.pageSize < m.pages :=
      (lt_pages_iff hs.page_pos hs.blob_size).mpr (by omega)
    obtain ⟨ok, m', f', heq, heq', hs', h', hl, hv⟩ := hs.readLoop_twin h mirrored remote hlast
      (m.pages + 1) (off / m.pageSize) (Nat.le_of_lt hpages) (Nat.lt_add_right _ (Nat.lt_succ_self _))
    refine ⟨if ok then n else 0, m', f', congrArg (Option.map _) heq, congrArg (Option.map _) heq',
      hs', h', hl, ?_⟩
    · cases ok with
      | false => exact fun p hlo hhi => absurd hlo (Nat.not_le.mpr hhi)
      | true => exact fun p hlo' hhi => not_hidden_of_valid (hv rfl p (hlo.trans hlo') hhi)

/-! ## `write` -/

theorem Sound.markPages {m : LocalMirror β} (hs : m.Sound) (index last : Nat) :
    (m.markPages index last).Sound where
  page_pos := hs.page_pos
  blob_size := hs.blob_size
  chunk_le i := by
    have hle := hs.chunk_le i
    simp only [LocalMirror.markPages]
    split <;> omega
  written_chunk i hi hw := by
    have hps := hs.page_pos
    simp only [LocalMirror.markPages] at hw ⊢
    split at hw
    · rw [if_pos ‹_›]
      omega
    · rw [if_neg ‹_›]
      exact hs.written_chunk i hi hw
  flight_lt := hs.flight_lt

/-- Where the bytes that `write` reads from remote begin. -/
def gapOff (m : LocalMirror β) (off : Nat) : Nat :=
  off / m.pageSize * m.pageSize + m.chunkMap (off / m.pageSize)

/-- The mirror when `write` has filled the gap in front of its bytes; `false` when the remote read
failed. -/
def fill (mirrored : Nat → β) (remote : Nat → Option (FailedRead β)) (size off : Nat) (src : Nat → β)
    (m : LocalMirror β) : Bool × LocalMirror β :=
  let m' := m.withMapping (splice m.mapping off size src)
  if m.gapOff off < off then m'.fetch mirrored remote (m.gapOff off) (off - m.gapOff off)
  else (true, m')

theorem Sound.write_eq {m : LocalMirror β} (hs : m.Sound) (mirrored : Nat → β)
    (remote : Nat → Option (FailedRead β)) {size off : Nat} (buf : Nat → β)
    (hin : off + size ≤ m.blobSize) {ok : Bool} {g : Nat → β} {q : Nat → Option β}
    (hfill : m.fill mirrored remote size off (fun p => buf (p - off)) =
      (ok, (m.withInFlight q).withMapping g)) :
    m.write mirrored remote size off buf =
      if ok then some (size, ((m.withInFlight q).withMapping g).markPages (off / m.pageSize)
        (off + size))
      else some (0, (m.withInFlight q).withMapping g) := by
  have hpages : off / m.pageSize ≤ m.pages := Nat.div_le_div_right (Nat.le_of_add_right_le hin)
  have hmark : markWritten (off + size) (m.pages + 1) (off / m.pageSize)
      ((m.withInFlight q).withMapping g) =
        some (((m.withInFlight q).withMapping g).markPages (off / m.pageSize) (off + size)) :=
    markWritten_eq (off + size) m.pages (m.pages + 1) _ ((m.withInFlight q).withMapping g)
      (hin.trans_eq hs.blob_size.symm) hpages (Nat.lt_add_right _ (Nat.lt_succ_self _))
  have heq : m.write mirrored remote size off buf =
      if (m.fill mirrored remote size off (fun p => buf (p - off))).1 then
        (markWritten (off + size)
          ((m.fill mirrored remote size off (fun p => buf (p - off))).2.pages + 1) (off / m.pageSize)
          (m.fill mirrored remote size off (fun p => buf (p - off))).2).map fun m => (size, m)
      else some (0, (m.fill mirrored remote size off (fun p => buf (p - off))).2) := by
    rw [LocalMirror.write, if_neg (Nat.not_lt.mpr hin)]
    rfl
  rw [heq, hfill]
  cases ok with
  | false => rfl
  | true => exact congrArg (Option.map _) hmark

/-- The gap lies within a page. -/
theorem gap_page {m : LocalMirror β} (hps : 0 < m.pageSize) {off : Nat} (hgap : m.gapOff off < off) :
    m.gapOff off + (off - m.gapOff off) ≤ (off / m.pageSize + 1) * m.pageSize := by
  have hhi : off < (off / m.pageSize + 1) * m.pageSize :=
    (Nat.div_lt_iff_lt_mul hps).mp (Nat.lt_succ_self _)
  omega

/-- Both mirrors fill the gap the same, and both have nothing more in flight. -/
theorem Agrees.fill {m : LocalMirror β} {f : Nat → β} (h : m.Agrees f) (hps : 0 < m.pageSize)
    (mirrored : Nat → β) (remote : Nat → Option (FailedRead β)) (size off : Nat) (src : Nat → β) :
    ∃ ok g g' q, m.fill mirrored remote size off src = (ok, (m.withInFlight q).withMapping g) ∧
      (m.withMapping f).fill mirrored remote size off src =
        (ok, (m.withInFlight q).withMapping g') ∧
      ((m.withInFlight q).withMapping g).Agrees g' ∧
      (∀ p, m.gapOff off ≤ p → p < off + size → g' p = g p) ∧
      (q = (fun _ => none) ∨ q = m.inFlight) := by
  have hcopy := h.splice off size src
  by_cases hgap : m.gapOff off < off
  · obtain ⟨ok, bytes, q, hfetch, hfetch', hq⟩ :=
      fetch_withMapping (m.withMapping (BlobSeer.splice m.mapping off size src))
        (BlobSeer.splice f off size src) mirrored remote (m.gapOff off) (off - m.gapOff off)
    refine ⟨ok, _, _, q, (if_pos hgap).trans hfetch, (if_pos hgap).trans hfetch',
      hcopy.fetch _ _ bytes q, fun p hlo hhi => ?_, .inl ?_⟩
    · by_cases hp : p < m.gapOff off + (off - m.gapOff off)
      · exact (splice_in hlo hp).trans (splice_in hlo hp).symm
      · have hout : ¬ (m.gapOff off ≤ p ∧ p < m.gapOff off + (off - m.gapOff off)) := fun hr => hp hr.2
        rw [splice_out hout, splice_out hout]
        show (m.inFlight p).getD (BlobSeer.splice f off size src p) =
          (m.inFlight p).getD (BlobSeer.splice m.mapping off size src p)
        rw [splice_in (by omega) hhi, splice_in (by omega) hhi]
    · obtain rfl | ⟨failed, rfl⟩ := hq
      · rfl
      · exact leave_page (Nat.le_add_right _ _) (gap_page hps hgap)
  · refine ⟨true, _, _, m.inFlight, if_neg hgap, if_neg hgap, hcopy, fun p hlo hhi => ?_, .inr rfl⟩
    rw [splice_in (by omega) hhi, splice_in (by omega) hhi]

/-- Both mirrors return the same count. -/
theorem Sound.write_twin {m : LocalMirror β} (hs : m.Sound) {f : Nat → β} (h : m.Agrees f)
    (mirrored : Nat → β) (remote : Nat → Option (FailedRead β)) (size off : Nat) (buf : Nat → β) :
    ∃ n m' f', m.write mirrored remote size off buf = some (n, m') ∧
      (m.withMapping f).write mirrored remote size off buf = some (n, m'.withMapping f') ∧
      m'.Sound ∧ m'.Agrees f' := by
  by_cases hin : off + size ≤ m.blobSize
  · obtain ⟨ok, g, g', q, hfill, hfill', hg, hnew, hq⟩ :=
      h.fill hs.page_pos mirrored remote size off fun p => buf (p - off)
    have hs₁ : (m.withInFlight q).Sound := by
      refine hs.withInFlight fun p b hb => ?_
      obtain rfl | rfl := hq
      · cases hb
      · exact hs.flight_lt p b hb
    rw [hs.write_eq mirrored remote buf hin hfill,
      (hs.withMapping f).write_eq mirrored remote buf hin hfill']
    cases ok with
    | false => exact ⟨0, _, g', rfl, rfl, hs₁.withMapping g, hg⟩
    | true =>
      refine ⟨size, _, g', rfl, rfl, (hs₁.withMapping g).markPages _ _, hg.reveal rfl rfl ?_⟩
      intro p hv
      rcases (valid_markPages (m := (m.withInFlight q).withMapping g) hs.page_pos).mp hv with
        hv | ⟨hlo, hhi⟩
      · exact .inl hv
      · by_cases hp : p < m.gapOff off
        · exact .inl (hs.before_or_valid hlo hp)
        · exact .inr (hnew p (Nat.le_of_not_lt hp) hhi)
  · have hout : off + size > m.blobSize := Nat.lt_of_not_le hin
    rw [LocalMirror.write, LocalMirror.write, if_pos hout,
      if_pos (show off + size > (m.withMapping f).blobSize from hout)]
    exact ⟨0, m, f, rfl, rfl, hs, h⟩

/-! ## `commit` -/

theorem Sound.unmark {m : LocalMirror β} (hs : m.Sound) {w : Nat → Bool}
    (hw : ∀ i, w i = true → m.writtenMap i = true) : Sound { m with writtenMap := w } :=
  ⟨⟨hs.page_pos, hs.blob_size, hs.chunk_le⟩, fun i hi h => hs.written_chunk i hi (hw i h),
    hs.flight_lt⟩

theorem Sound.clearPages {m : LocalMirror β} (hs : m.Sound) (index stop : Nat) :
    (m.clearPages index stop).Sound :=
  hs.unmark fun _ hi => clearPages_unmarks hi

theorem Sound.not_hidden {m : LocalMirror β} (hs : m.Sound) {p : Nat}
    (hp : p / m.pageSize < m.pages) (hw : m.writtenMap (p / m.pageSize) = true) :
    ¬ m.Hidden p := by
  rintro ⟨hstart, hv⟩
  refine hv ?_
  rw [Valid, hstart]
  exact hs.written_chunk _ hp hw

/-- A run of written pages has nothing hidden. -/
theorem Sound.bytesAt_run {m : LocalMirror β} (hs : m.Sound) {f : Nat → β} (h : m.Agrees f)
    {index e : Nat} (hie : index < e) (he : e ≤ m.pages)
    (hw : ∀ i, index ≤ i → i < e → m.writtenMap i = true) :
    (m.withMapping f).bytesAt (index * m.pageSize) ((e - index) * m.pageSize) =
      m.bytesAt (index * m.pageSize) ((e - index) * m.pageSize) := by
  refine h.bytesAt fun p hlo hhi => ?_
  rw [← Nat.add_mul, Nat.add_sub_cancel' (Nat.le_of_lt hie), ← Nat.div_lt_iff_lt_mul hs.page_pos]
    at hhi
  rw [← Nat.le_div_iff_mul_le hs.page_pos] at hlo
  exact hs.not_hidden (hhi.trans_le he) (hw _ hlo hhi)

/-- After a run that starts at page `0` this page is not marked. -/
theorem clearPages_begun {m : LocalMirror β} {index e : Nat}
    (hbegun : index = 0 ∨ m.writtenMap 0 = false) (hie : index < e) (he : e ≤ 2 ^ 32)
    (hpos : e = 2 ^ 32 → 0 < index) : (m.clearPages index (u32 e)).writtenMap 0 = false := by
  by_cases hin : index ≤ 0 ∧ 0 < u32 e
  · exact clearPages_in hin.1 hin.2
  · rw [clearPages_out hin]
    rcases hbegun with rfl | h0
    · rw [u32_of_lt (by omega)] at hin
      omega
    · exact h0

/-- Both mirrors send the same. -/
theorem Sound.sendLoop_twin {m : LocalMirror β} (hs : m.Sound) {f : Nat → β} (h : m.Agrees f)
    (remote : Nat → Bool) (fuel : Nat) {index : Nat} (h32 : index < 2 ^ 32)
    (hbegun : index = 0 ∨ m.writtenMap 0 = false) :
    (sendLoop remote fuel index m = none ∧ sendLoop remote fuel index (m.withMapping f) = none) ∨
      ∃ ok m' f' sends, sendLoop remote fuel index m = some (ok, m', sends) ∧
        sendLoop remote fuel index (m.withMapping f) = some (ok, m'.withMapping f', sends) ∧
        m'.Sound ∧ m'.Agrees f' := by
  have hu32 : ∀ n, u32 n < 2 ^ 32 := fun n => Nat.mod_lt n (Nat.two_pow_pos 32)
  induction fuel generalizing index m f with
  | zero => exact .inl ⟨rfl, rfl⟩
  | succ fuel ih =>
    by_cases hlt : index * m.pageSize < m.blobSize
    · have hpages : index < m.pages := hs.lt_pages.mpr hlt
      cases hw : m.writtenMap index with
      | false =>
        rw [sendLoop_unwritten remote fuel hlt hw,
          sendLoop_unwritten (m := m.withMapping f) remote fuel hlt hw]
        refine ih hs h (hu32 _) (.inr ?_)
        rcases hbegun with rfl | h0
        · exact hw
        · exact h0
      | true =>
        have hfind : (m.withMapping f).findStop ((m.withMapping f).pages + 1) (u32 (index + 1)) =
            m.findStop (m.pages + 1) (u32 (index + 1)) :=
          findStop_withMapping m f _ _
        rw [sendLoop_written remote fuel hlt hw,
          sendLoop_written (m := m.withMapping f) remote fuel hlt hw, hfind]
        cases hstop : m.findStop (m.pages + 1) (u32 (index + 1)) with
        | none => exact .inl ⟨rfl, rfl⟩
        | some stop =>
          obtain ⟨e, hie, hep, he32, rfl, hws, -, hpos⟩ := findStop_run hs.page_pos hs.blob_size
            hbegun (m.pages + 1) (Nat.lt_succ_self index) hpages h32
            (fun i hi hi' => Nat.le_antisymm hi (Nat.le_of_lt_succ hi') ▸ hw) hstop
          -- both send what they have once the requests in flight are answered
          have hbytes := hs.land.bytesAt_run h.land hie hep hws
          have hrest := ih (hs.land.clearPages index (u32 e)) h.land (hu32 (u32 e + 1))
            (.inr (clearPages_begun (m := m.land) hbegun hie he32 hpos))
          simp only [Option.bind_some, u32_run hie he32 hpos]
          have hsend : (index * (m.withMapping f).pageSize, (m.withMapping f).land.bytesAt
              (index * (m.withMapping f).pageSize) ((e - index) * (m.withMapping f).pageSize)) =
                (index * m.pageSize,
                  m.land.bytesAt (index * m.pageSize) ((e - index) * m.pageSize)) :=
            congrArg (Prod.mk _) hbytes
          rw [hsend]
          cases hr : remote (index * m.pageSize) with
          | false =>
            have hr' : ¬ remote (index * (m.withMapping f).pageSize) = true :=
              ne_true_of_eq_false hr
            rw [if_neg Bool.false_ne_true, if_neg hr']
            exact .inr ⟨false, m.land, _, _, rfl, rfl, hs.land, h.land⟩
          | true =>
            have hr' : remote (index * (m.withMapping f).pageSize) = true := hr
            rw [if_pos rfl, if_pos hr']
            refine hrest.imp (fun hnone => ?_) ?_
            · exact ⟨congrArg (Option.map _) hnone.1, congrArg (Option.map _) hnone.2⟩
            · rintro ⟨ok, m', f', sends, heq, heq', hs', h'⟩
              exact ⟨ok, m', f', _, congrArg (Option.map _) heq, congrArg (Option.map _) heq', hs', h'⟩
    · rw [sendLoop_end remote fuel hlt, sendLoop_end (m := m.withMapping f) remote fuel hlt]
      exact .inr ⟨true, m, f, [], rfl, rfl, hs, h⟩

/-! ## Any calls -/

theorem Sound.reopen {m : LocalMirror β} (hs : m.Sound) (f : Nat → β) (beyond : Nat → Bool) :
    (LocalMirror.new m.blobSize m.pageSize f (some m.close) beyond).Sound :=
  ⟨⟨hs.page_pos, hs.blob_size, hs.chunk_le⟩,
    fun i hi hw => hs.written_chunk i hi ((if_pos hi).symm.trans hw), fun _ _ => nofun⟩

/-- Both mirrors answer a call the same, and they still agree. -/
theorem Sound.call_twin {m : LocalMirror β} (hs : m.Sound) {f : Nat → β} (h : m.Agrees f)
    (mirrored : Nat → β) (c : MirrorCall β) :
    (m.call mirrored c = none ∧ (m.withMapping f).call mirrored c = none) ∨
      ∃ o m' f', m.call mirrored c = some (o, m') ∧
        (m.withMapping f).call mirrored c = some (o, m'.withMapping f') ∧ m'.Sound ∧
        m'.Agrees f' := by
  cases c with
  | read size off remote =>
    obtain ⟨n, m', f', heq, heq', hs', h', -, hv⟩ := hs.read_twin h mirrored remote size off
    exact .inr ⟨_, m', f', call_read heq, h'.bytesAt hv ▸ call_read heq', hs', h'⟩
  | write size off buf remote =>
    obtain ⟨n, m', f', heq, heq', hs', h'⟩ := hs.write_twin h mirrored remote size off buf
    exact .inr ⟨_, m', f', call_write heq, call_write heq', hs', h'⟩
  | commit remote =>
    rcases hs.sendLoop_twin h remote (2 * m.pages + 3) (Nat.two_pow_pos 32) (.inl rfl) with
      ⟨heq, heq'⟩ | ⟨ok, m', f', sends, heq, heq', hs', h'⟩
    · exact .inl ⟨congrArg (Option.map _) heq, congrArg (Option.map _) heq'⟩
    · exact .inr ⟨_, m', f', call_commit heq, call_commit heq', hs', h'⟩
  | run => exact .inr ⟨.ran, m.land, _, rfl, rfl, hs.land, h.land⟩
  | reopen beyond => exact .inr ⟨.opened, _, _, rfl, rfl, hs.land.reopen _ beyond, h.land⟩

theorem Sound.outcomes_twin {m : LocalMirror β} (hs : m.Sound) {f : Nat → β} (h : m.Agrees f)
    (mirrored : Nat → β) (later : List (MirrorCall β)) :
    (m.withMapping f).outcomes mirrored later = m.outcomes mirrored later := by
  induction later generalizing m f with
  | nil => rfl
  | cons c later ih =>
    rw [outcomes, outcomes]
    rcases hs.call_twin h mirrored c with ⟨heq, heq'⟩ | ⟨o, m', f', heq, heq', hs', h'⟩
    · rw [heq, heq']
    · rw [heq, heq']
      exact congrArg (List.cons (some o)) (ih hs' h')

theorem Sound.callStep {m m' : LocalMirror β} (hs : m.Sound) {mirrored : Nat → β}
    {c : MirrorCall β} (hstep : m.callStep mirrored c = some m') : m'.Sound := by
  obtain ⟨⟨o, _⟩, hcall, rfl⟩ := Option.map_eq_some_iff.mp hstep
  rcases hs.call_twin (f := m.mapping) (fun _ _ => rfl) mirrored c with
    ⟨hnone, -⟩ | ⟨o', m', -, heq, -, hs', -⟩
  · rw [hnone] at hcall
    cases hcall
  · rw [hcall] at heq
    cases heq
    exact hs'

theorem sound_run {blobSize pageSize : Nat} (hps : 0 < pageSize) (hdvd : pageSize ∣ blobSize)
    {mirrored file : Nat → β} {beyond : Nat → Bool} {ok : LocalMirror β → MirrorCall β → Prop}
    {calls : List (MirrorCall β)} {m : LocalMirror β}
    (hrun : Run (callStep mirrored) ok (new blobSize pageSize file none beyond) calls m) : m.Sound :=
  hrun.inv (fun hs _ hstep => hs.callStep hstep) (.new hps hdvd file beyond)

end LocalMirror

end BlobSeer
