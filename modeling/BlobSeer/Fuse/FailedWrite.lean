import BlobSeer.Fuse.Twins

/-!
# A write that fails (`bindings/blob-fuse/local_mirror.hpp`)

`write` copies its bytes into the mapping before it reads the gap in front of them, so a write that
fails for that read leaves them there, and leaves in the gap what the read left. The read also runs the
io service, so what was in flight is in the mapping then. Every byte of the blob but the hidden ones is
shown to some later calls (`Sound.agrees_of_outcomes`), and every byte in flight
(`Sound.flight_of_outcomes`), so nobody notices the write exactly when nothing was in flight and the bytes
that it leaves are those that were there.
-/

namespace BlobSeer

open Lib (Run exec)

variable {β : Type}

namespace LocalMirror

/-! ## What later calls can tell -/

theorem outcomes_cons {m m' : LocalMirror β} {mirrored : Nat → β} {c : MirrorCall β}
    {o : MirrorOutcome β} (h : m.call mirrored c = some (o, m')) (later : List (MirrorCall β)) :
    m.outcomes mirrored (c :: later) = some o :: m'.outcomes mirrored later := by
  rw [outcomes, h]

/-- A valid byte is read without a remote read. -/
theorem Sound.read_valid {m : LocalMirror β} (hs : m.Sound) (mirrored : Nat → β)
    (remote : Nat → Option (FailedRead β)) {p : Nat} (hp : p < m.blobSize) (hv : m.Valid p) :
    m.read mirrored remote 1 p = some (1, m) := by
  have hlo : p / m.pageSize * m.pageSize ≤ p := Nat.div_mul_le_self p m.pageSize
  have hhi : p < (p / m.pageSize + 1) * m.pageSize :=
    (Nat.div_lt_iff_lt_mul hs.page_pos).mp (Nat.lt_succ_self _)
  have hpages : p / m.pageSize < m.pages :=
    (lt_pages_iff hs.page_pos hs.blob_size).mpr (Nat.lt_of_le_of_lt hlo hp)
  obtain ⟨k, hk⟩ := Nat.exists_eq_add_of_lt hpages
  have hchunk : ¬ m.chunkMap (p / m.pageSize) <
      min m.pageSize (p + 1 - p / m.pageSize * m.pageSize) := by
    rw [valid_iff hlo hhi] at hv
    omega
  have hloop : readLoop mirrored remote (p + 1) (m.pages + 1) (p / m.pageSize) m = some (true, m) := by
    rw [hk, Nat.add_assoc, readLoop_skip _ (Nat.lt_succ_of_le hlo) hchunk,
      readLoop_end _ (Nat.not_lt.mpr hhi)]
  rw [LocalMirror.read, if_neg (Nat.not_le.mpr hp), if_neg (Nat.not_lt.mpr hp)]
  exact congrArg (Option.map _) hloop

/-- `commit` sends the pages that are written. -/
theorem Sound.sends_written {m : LocalMirror β} (hs : m.Sound) (hpages : m.pages + 1 < 2 ^ 32)
    (latest : Nat → β) {p : Nat} (hp : p < m.blobSize)
    (hw : m.writtenMap (p / m.pageSize) = true) :
    ∃ m' sends, m.sends (fun _ => true) = some (true, m', sends) ∧
      sends.foldl place latest p = m.land.mapping p := by
  have hremote : ∀ off : Nat, (fun _ => true) off = true := fun _ => rfl
  obtain ⟨m', latest', hcommit⟩ := commit_returns latest hs.page_pos hs.blob_size hpages hremote
  have hpub := commit_publish hs.page_pos hs.blob_size hcommit p hp
  rw [commit, commitLoop_eq_sendLoop] at hcommit
  obtain ⟨⟨ok, m'', sends⟩, heq, hr⟩ := Option.map_eq_some_iff.mp hcommit
  cases hr
  exact ⟨m', sends, heq, hpub.trans (if_pos hw)⟩

/-- A write of one byte, which ends up under the one that is in flight. -/
theorem Sound.write_byte {m : LocalMirror β} (hs : m.Sound) (mirrored : Nat → β) (b : β) {p : Nat}
    (hp : p < m.blobSize) :
    ∃ m', m.write mirrored (fun _ => none) 1 p (fun _ => b) = some (1, m') ∧ m'.Sound ∧
      m'.blobSize = m.blobSize ∧ m'.Valid p ∧ m'.land.mapping p = (m.inFlight p).getD b := by
  have hlo : p / m.pageSize * m.pageSize ≤ p := Nat.div_mul_le_self p m.pageSize
  have hcopy : splice m.mapping p 1 (fun _ => b) p = b := splice_in (Nat.le_refl p) (Nat.lt_succ_self p)
  obtain ⟨g, q, hfill, hq, hbyte⟩ : ∃ g q, m.fill mirrored (fun _ => none) 1 p (fun _ => b) =
      (true, (m.withInFlight q).withMapping g) ∧ (q = (fun _ => none) ∨ q = m.inFlight) ∧
      (q p).getD (g p) = (m.inFlight p).getD b := by
    by_cases hgap : m.gapOff p < p
    · refine ⟨_, fun _ => none, if_pos hgap, .inl rfl, ?_⟩
      have hout : ¬ (m.gapOff p ≤ p ∧ p < m.gapOff p + (p - m.gapOff p)) := by omega
      refine (splice_out hout).trans ?_
      exact congrArg (Option.getD (m.inFlight p)) hcopy
    · exact ⟨_, m.inFlight, if_neg hgap, .inr rfl, congrArg (Option.getD (m.inFlight p)) hcopy⟩
  have hs₁ : (m.withInFlight q).Sound := by
    refine hs.withInFlight fun p' b' hb => ?_
    obtain rfl | rfl := hq
    · cases hb
    · exact hs.flight_lt p' b' hb
  refine ⟨_, (hs.write_eq mirrored _ _ hp hfill).trans (if_pos rfl),
    (hs₁.withMapping g).markPages _ _, rfl, ?_, hbyte⟩
  exact (valid_markPages (m := (m.withInFlight q).withMapping g) hs.page_pos).mpr
    (.inr ⟨hlo, Nat.lt_succ_self p⟩)

/-- A write of the first byte of a page. -/
theorem Sound.write_first {m : LocalMirror β} (hs : m.Sound) (mirrored : Nat → β)
    (remote : Nat → Option (FailedRead β)) (buf : Nat → β) {i : Nat} (hi : i < m.pages) :
    ∃ m', m.write mirrored remote 1 (i * m.pageSize) buf = some (1, m') ∧ m'.Sound ∧
      m'.pages = m.pages ∧ m'.blobSize = m.blobSize ∧ m'.pageSize = m.pageSize ∧
      m'.writtenMap i = true ∧ ∀ p, p ≠ i * m.pageSize → m'.land.mapping p = m.land.mapping p := by
  have hdiv : i * m.pageSize / m.pageSize = i := Nat.mul_div_cancel i hs.page_pos
  have hgap : ¬ m.gapOff (i * m.pageSize) < i * m.pageSize := by
    rw [gapOff, hdiv]
    omega
  have hin : i * m.pageSize + 1 ≤ m.blobSize := (lt_pages_iff hs.page_pos hs.blob_size).mp hi
  refine ⟨_, hs.write_eq (q := m.inFlight) mirrored remote buf hin (if_neg hgap),
    (hs.withMapping _).markPages _ _, rfl, rfl, rfl, ?_, fun p hp => ?_⟩
  · rw [hdiv]
    exact if_pos ⟨Nat.le_refl i, Nat.lt_succ_self _⟩
  · have hout : ¬ (i * m.pageSize ≤ p ∧ p < i * m.pageSize + 1) := by omega
    have hkeep : splice m.mapping (i * m.pageSize) 1 (fun p => buf (p - i * m.pageSize)) p =
        m.mapping p :=
      splice_out hout
    exact congrArg (Option.getD (m.inFlight p)) hkeep

/-- A read of one byte. -/
def probeRead (p : Nat) : List (MirrorCall β) := [.read 1 p fun _ => none]

/-- A write of the first byte of page `i`, and a commit. -/
def probeCommit (m : LocalMirror β) (i : Nat) (buf : Nat → β) : List (MirrorCall β) :=
  [.write 1 (i * m.pageSize) buf fun _ => none, .commit fun _ => true]

/-- A write of one byte, which is read when nothing is in flight any more. -/
def probeWrite (p : Nat) (b : β) : List (MirrorCall β) :=
  [.write 1 p (fun _ => b) fun _ => none, .run, .read 1 p fun _ => none]

theorem Sound.outcomes_probeWrite {m : LocalMirror β} (hs : m.Sound) (mirrored : Nat → β) {p : Nat}
    (hp : p < m.blobSize) (b : β) :
    m.outcomes mirrored (probeWrite p b) =
      [some (.count 1), some .ran, some (.bytes [(m.inFlight p).getD b])] := by
  obtain ⟨m', hwrite, hs', hblob, hv, hbyte⟩ := hs.write_byte mirrored b hp
  have hrun : m'.call mirrored .run = some (.ran, m'.land) := rfl
  have hread := hs'.land.read_valid mirrored (fun _ => none) (hblob.symm ▸ hp : p < m'.blobSize) hv
  rw [probeWrite, outcomes_cons (call_write hwrite), outcomes_cons hrun,
    outcomes_cons (call_read hread), outcomes, ← hbyte]
  rfl

/-- Mirrors that no later calls tell apart have the same bytes in flight. -/
theorem Sound.flight_of_outcomes [Nontrivial β] {m m₁ : LocalMirror β} (hs : m.Sound)
    (hs₁ : m₁.Sound) (hblob : m₁.blobSize = m.blobSize) {mirrored : Nat → β}
    (hsame : ∀ later, m₁.outcomes mirrored later = m.outcomes mirrored later) (p : Nat) :
    m₁.inFlight p = m.inFlight p := by
  by_cases hp : p < m.blobSize
  · have hget : ∀ b, (m₁.inFlight p).getD b = (m.inFlight p).getD b := by
      intro b
      have heq := hsame (probeWrite p b)
      rw [hs.outcomes_probeWrite mirrored hp, hs₁.outcomes_probeWrite mirrored (hblob.symm ▸ hp)] at heq
      simpa using heq
    obtain ⟨b, b', hne⟩ := exists_pair_ne β
    have h1 := hget b
    have h2 := hget b'
    cases hq : m.inFlight p with
    | none =>
      cases hq₁ : m₁.inFlight p with
      | none => rfl
      | some c =>
        rw [hq, hq₁] at h1 h2
        exact absurd (h1.symm.trans h2) hne
    | some c =>
      cases hq₁ : m₁.inFlight p with
      | none =>
        rw [hq, hq₁] at h1 h2
        exact absurd (h1.trans h2.symm) hne
      | some c₁ =>
        rw [hq, hq₁] at h1
        exact congrArg some h1
  · have hnone : ∀ {x : LocalMirror β}, x.Sound → x.blobSize = m.blobSize → x.inFlight p = none := by
      intro x hx hsize
      cases hq : x.inFlight p with
      | none => rfl
      | some c => exact absurd (hsize ▸ hx.flight_lt p c hq) hp
    rw [hnone hs rfl, hnone hs₁ hblob]

theorem Sound.outcomes_probeRead {m : LocalMirror β} (hs : m.Sound) (mirrored : Nat → β) {p : Nat}
    (hp : p < m.blobSize) (hv : m.Valid p) :
    m.outcomes mirrored (probeRead p) = [some (.bytes [m.mapping p])] :=
  outcomes_cons (call_read (hs.read_valid mirrored _ hp hv)) []

theorem Sound.outcomes_probeCommit {m : LocalMirror β} (hs : m.Sound)
    (hpages : m.pages + 1 < 2 ^ 32) (mirrored : Nat → β) {p : Nat} (hp : p < m.blobSize)
    (hne : p % m.pageSize ≠ 0) :
    ∃ sends, m.outcomes mirrored (m.probeCommit (p / m.pageSize) mirrored) =
        [some (.count 1), some (.sent true sends)] ∧
      sends.foldl place mirrored p = m.land.mapping p := by
  have hpage : p / m.pageSize < m.pages := (lt_pages_iff hs.page_pos hs.blob_size).mpr
    (Nat.lt_of_le_of_lt (Nat.div_mul_le_self p m.pageSize) hp)
  obtain ⟨m₁, hwrite, hs₁, hpages₁, hblob₁, hps₁, hw₁, hmap₁⟩ :=
    hs.write_first mirrored (fun _ => none) mirrored hpage
  obtain ⟨m₂, sends, hsends, hbyte⟩ := hs₁.sends_written (hpages₁ ▸ hpages) mirrored
    (hblob₁ ▸ hp) (hps₁ ▸ hw₁)
  refine ⟨sends, ?_, hbyte.trans (hmap₁ p fun heq => hne ?_)⟩
  · rw [probeCommit, outcomes_cons (call_write hwrite), outcomes_cons (call_commit hsends), outcomes]
  · rw [heq]
    exact Nat.mul_mod_left _ _

/-- Twins that no later calls tell apart agree when nothing is in flight. -/
theorem Sound.agrees_of_outcomes {m : LocalMirror β} (hs : m.Sound) {f mirrored : Nat → β}
    (hpages : m.pages + 1 < 2 ^ 32) (hq : ∀ p, m.inFlight p = none)
    (hsame : ∀ later, (m.withMapping f).outcomes mirrored later = m.outcomes mirrored later)
    {p : Nat} (hp : p < m.blobSize) (hidden : ¬ m.Hidden p) : f p = m.mapping p := by
  by_cases hv : m.Valid p
  · have heq := hsame (probeRead p)
    rw [hs.outcomes_probeRead mirrored hp hv,
      (hs.withMapping f).outcomes_probeRead mirrored hp hv] at heq
    injection heq with heq
    injection heq with heq
    injection heq with heq
    injection heq
  · -- the byte is sent with the rest of its page once the first byte of the page is written
    have hne : p % m.pageSize ≠ 0 := fun hstart => hidden ⟨hstart, hv⟩
    obtain ⟨sends, hsends, hbyte⟩ := hs.outcomes_probeCommit hpages mirrored hp hne
    obtain ⟨sends', hsends', hbyte'⟩ :=
      (hs.withMapping f).outcomes_probeCommit hpages mirrored hp hne
    have heq := hsends'.symm.trans ((hsame _).trans hsends)
    simp only [List.cons.injEq, Option.some.injEq, MirrorOutcome.sent.injEq, and_true, true_and]
      at heq
    rw [heq, hbyte] at hbyte'
    have hland : (m.inFlight p).getD (m.mapping p) = (m.inFlight p).getD (f p) := hbyte'
    rw [hq p] at hland
    exact hland.symm

/-! ## The write -/

/-- The write leaves the bytes that were there, but for hidden ones: it lies beyond the end of the
blob, or nothing is in flight, and it copies these bytes, and so does the remote read that fails. (And
the buffer of a page can have its size.) -/
def LeavesBytes (m : LocalMirror β) (size off : Nat) (buf : Nat → β)
    (remote : Nat → Option (FailedRead β)) : Prop :=
  m.blobSize < off + size ∨
    (m.pageSize < 2 ^ 32 ∧ (∀ p, m.inFlight p = none) ∧
      (∀ p, off ≤ p → p < off + size → ¬ m.Hidden p → buf (p - off) = m.mapping p) ∧
      ∀ failed, remote (m.gapOff off) = some failed →
        ∀ p, m.gapOff off ≤ p → p < off → ¬ m.Hidden p → failed.junk p = m.mapping p)

/-- The mapping after a write whose gap could not be read. -/
def failedMapping (m : LocalMirror β) (size off : Nat) (buf : Nat → β) (junk : Nat → β) : Nat → β :=
  splice (m.landOn (splice m.mapping off size fun p => buf (p - off))) (m.gapOff off)
    (off - m.gapOff off) junk

/-- A write that is not beyond the end of the blob only fails for a remote read. -/
theorem Sound.write_failed {m m₁ : LocalMirror β} (hs : m.Sound) {mirrored : Nat → β}
    {remote : Nat → Option (FailedRead β)} {size off : Nat} {buf : Nat → β} (hsize : 0 < size)
    (hin : off + size ≤ m.blobSize)
    (hfail : m.write mirrored remote size off buf = some (0, m₁)) :
    m.gapOff off < off ∧ ∃ failed, remote (m.gapOff off) = some failed ∧
      m₁ = (m.withInFlight fun _ => none).withMapping (m.failedMapping size off buf failed.junk) := by
  by_cases hgap : m.gapOff off < off
  · refine ⟨hgap, ?_⟩
    cases hremote : remote (m.gapOff off) with
    | none =>
      have hfill : m.fill mirrored remote size off (fun p => buf (p - off)) =
          (true, (m.withInFlight fun _ => none).withMapping
            (m.failedMapping size off buf mirrored)) := by
        rw [fill, if_pos hgap, LocalMirror.fetch, hremote]
        rfl
      rw [hs.write_eq mirrored remote buf hin hfill] at hfail
      cases hfail
      exact absurd hsize (Nat.lt_irrefl 0)
    | some failed =>
      have hnone : leave mirrored failed (m.gapOff off) (off - m.gapOff off) m.pageSize =
          fun _ => none :=
        leave_page (Nat.le_add_right _ _) (gap_page hs.page_pos hgap)
      have hfill : m.fill mirrored remote size off (fun p => buf (p - off)) =
          (false, (m.withInFlight fun _ => none).withMapping
            (m.failedMapping size off buf failed.junk)) := by
        rw [← hnone, fill, if_pos hgap, LocalMirror.fetch, hremote]
        rfl
      rw [hs.write_eq mirrored remote buf hin hfill] at hfail
      cases hfail
      exact ⟨failed, rfl, rfl⟩
  · rw [hs.write_eq (q := m.inFlight) mirrored remote buf hin (if_neg hgap)] at hfail
    cases hfail
    exact absurd hsize (Nat.lt_irrefl 0)

/-- When nothing is in flight, the mirror after the write is a twin of the one before it. -/
theorem Sound.failed_agrees {m m₁ : LocalMirror β} (hs : m.Sound) {mirrored : Nat → β}
    {remote : Nat → Option (FailedRead β)} {size off : Nat} {buf : Nat → β} (hsize : 0 < size)
    (hin : off + size ≤ m.blobSize) (hq : ∀ p, m.inFlight p = none)
    (hfail : m.write mirrored remote size off buf = some (0, m₁)) :
    m₁ = m.withMapping m₁.mapping ∧
      (m.LeavesBytes size off buf remote → m.Agrees m₁.mapping) ∧
      (m.pageSize < 2 ^ 32 → (∀ p, p < m.blobSize → ¬ m.Hidden p → m₁.mapping p = m.mapping p) →
        m.LeavesBytes size off buf remote) := by
  obtain ⟨hgap, failed, hremote, rfl⟩ := hs.write_failed hsize hin hfail
  have hsame : (m.withInFlight fun _ => none) = m := by
    rw [LocalMirror.withInFlight, ← funext hq]
  have hland : ∀ f : Nat → β, m.landOn f = f := by
    intro f
    funext p
    rw [landOn, hq p]
    rfl
  have hjunk : ∀ p, m.gapOff off ≤ p → p < off →
      m.failedMapping size off buf failed.junk p = failed.junk p :=
    fun p hlo hhi => splice_in hlo (by omega)
  have hbuf : ∀ p, off ≤ p → p < off + size →
      m.failedMapping size off buf failed.junk p = buf (p - off) := by
    intro p hlo hhi
    rw [failedMapping, hland]
    exact (splice_out (by omega)).trans (splice_in hlo hhi)
  refine ⟨by rw [hsame]; rfl, fun hleaves p hidden => ?_,
    fun hshort h => .inr ⟨hshort, hq, fun p hlo hhi hidden => ?_, ?_⟩⟩
  · obtain ⟨-, -, hcopy, hgapBytes⟩ := hleaves.resolve_left (Nat.not_lt.mpr hin)
    by_cases hp : m.gapOff off ≤ p ∧ p < off
    · exact (hjunk p hp.1 hp.2).trans (hgapBytes failed hremote p hp.1 hp.2 hidden)
    · by_cases hp' : off ≤ p ∧ p < off + size
      · exact (hbuf p hp'.1 hp'.2).trans (hcopy p hp'.1 hp'.2 hidden)
      · show m.failedMapping size off buf failed.junk p = m.mapping p
        rw [failedMapping, hland]
        exact (splice_out (by omega)).trans (splice_out hp')
  · exact (hbuf p hlo hhi).symm.trans (h p (by omega) hidden)
  · intro failed' hremote' p hlo hhi hidden
    rw [hremote] at hremote'
    cases hremote'
    exact (hjunk p hlo hhi).symm.trans (h p (by omega) hidden)

theorem write_beyond {m m₁ : LocalMirror β} {mirrored : Nat → β}
    {remote : Nat → Option (FailedRead β)} {size off n : Nat} {buf : Nat → β}
    (hout : m.blobSize < off + size) (h : m.write mirrored remote size off buf = some (n, m₁)) :
    m₁ = m := by
  rw [write, if_pos hout] at h
  cases h
  rfl

end LocalMirror

open LocalMirror

/-- After any calls, a write that fails goes unnoticed by all later calls exactly when nothing is in
flight and it leaves the bytes that were there, on a blob that `commit` gets to the end of, with pages of
less than `2 ^ 32` bytes. -/
theorem failed_write_unnoticed_iff {blobSize pageSize : Nat} (hps : 0 < pageSize)
    (hdvd : pageSize ∣ blobSize) {mirrored file : Nat → β} {beyond : Nat → Bool}
    {calls : List (MirrorCall β)} {m m₁ : LocalMirror β}
    (hrun : Run (callStep mirrored) (fun _ _ => True) (new blobSize pageSize file none beyond) calls m)
    {size off : Nat} {buf : Nat → β} {remote : Nat → Option (FailedRead β)} (hsize : 0 < size)
    (hfail : m.write mirrored remote size off buf = some (0, m₁)) :
    (m.LeavesBytes size off buf remote →
      ∀ later, m₁.outcomes mirrored later = m.outcomes mirrored later) ∧
    (Nontrivial β → m.pages + 1 < 2 ^ 32 → m.pageSize < 2 ^ 32 →
      (∀ later, m₁.outcomes mirrored later = m.outcomes mirrored later) →
        m.LeavesBytes size off buf remote) := by
  have hs : m.Sound := sound_run hps hdvd hrun
  refine ⟨fun h later => ?_, fun hβ hpages hshort hsame => ?_⟩
  · by_cases hout : m.blobSize < off + size
    · rw [write_beyond hout hfail]
    · obtain ⟨hm₁, hagrees, -⟩ := hs.failed_agrees hsize (Nat.le_of_not_lt hout)
        (h.resolve_left hout).2.1 hfail
      rw [hm₁]
      exact hs.outcomes_twin (hagrees h) mirrored later
  · by_cases hout : m.blobSize < off + size
    · exact .inl hout
    · have hin := Nat.le_of_not_lt hout
      obtain ⟨-, failed, -, hm₁⟩ := hs.write_failed hsize hin hfail
      have hs₁ : m₁.Sound := by
        rw [hm₁]
        exact (hs.withInFlight fun _ _ hb => by cases hb).withMapping _
      have hq : ∀ p, m.inFlight p = none := by
        intro p
        have hflight := hs.flight_of_outcomes hs₁ (by rw [hm₁]; rfl) hsame p
        rw [← hflight, hm₁]
        rfl
      obtain ⟨htwin, -, hleaves⟩ := hs.failed_agrees hsize hin hq hfail
      refine hleaves hshort fun p hp hidden => ?_
      rw [htwin] at hsame
      exact hs.agrees_of_outcomes hpages hq hsame hp hidden

/-- A blob of two pages of four bytes, each of them one; the temporary file is all zeros. -/
def twoPageMirror : LocalMirror Nat := .new 8 4 (fun _ => 0) none fun _ => false

/-- The second page is loaded. -/
def loadSecond : List (MirrorCall Nat) := [.read 4 4 fun _ => none]

/-- The write ends in the second page, whose bytes are replaced though it fails in the first one: a
read shows them. -/
theorem failed_write_shown :
    ∃ m m₁, Run (callStep fun _ => 1) (fun _ _ => True) twoPageMirror loadSecond m ∧
      m.write (fun _ => 1) (fun _ => some ⟨fun _ => 9, fun _ => false⟩) 3 2 (fun _ => 7) =
        some (0, m₁) ∧
      ¬ (m₁.outcomes (fun _ => 1) [.read 1 4 fun _ => none] =
        m.outcomes (fun _ => 1) [.read 1 4 fun _ => none]) ∧
      ¬ (m₁.outcomes (fun _ => 1) [.write 1 0 (fun _ => 2) fun _ => none, .commit fun _ => true] =
        m.outcomes (fun _ => 1) [.write 1 0 (fun _ => 2) fun _ => none, .commit fun _ => true]) := by
  have hrun : Run (callStep fun _ => 1) (fun _ _ => True) twoPageMirror loadSecond _ :=
    Run.of_isSome twoPageMirror (by decide +kernel)
  refine ⟨_, _, hrun, Lib.eq_some_getD (0, twoPageMirror) (by decide +kernel), ?_, ?_⟩
  · decide +kernel
  · decide +kernel

/-- A write of the bytes that are there. -/
theorem failed_write_unnoticed_same_bytes :
    ∃ m m₁, Run (callStep fun _ => 1) (fun _ _ => True) twoPageMirror loadSecond m ∧
      m.write (fun _ => 1) (fun _ => some ⟨fun _ => 0, fun _ => false⟩) 3 2
        (fun q => if q < 2 then 0 else 1) = some (0, m₁) ∧
      ∀ later, m₁.outcomes (fun _ => 1) later = m.outcomes (fun _ => 1) later := by
  have hrun : Run (callStep fun _ => 1) (fun _ _ => True) twoPageMirror loadSecond _ :=
    Run.of_isSome twoPageMirror (by decide +kernel)
  generalize hm : (exec (callStep fun _ => 1) (fun _ _ => True) twoPageMirror loadSecond).getD
    twoPageMirror = m at hrun
  have hbytes : ∀ p, p < 5 → m.mapping p = if p < 4 then 0 else 1 := by
    rw [← hm]
    decide +kernel
  have hquiet : m.pageSize < 2 ^ 32 ∧ ∀ p, m.inFlight p = none := by
    rw [← hm]
    exact ⟨by decide +kernel, fun _ => rfl⟩
  obtain ⟨m₁, hfail⟩ : ∃ m₁, m.write (fun _ => 1) (fun _ => some ⟨fun _ => 0, fun _ => false⟩) 3 2
      (fun q => if q < 2 then 0 else 1) = some (0, m₁) := by
    rw [← hm]
    exact ⟨_, Lib.eq_some_getD (0, twoPageMirror) (by decide +kernel)⟩
  refine ⟨m, m₁, hrun, hfail, ?_⟩
  refine (failed_write_unnoticed_iff (by decide) (by decide) hrun (by decide) hfail).1
    (.inr ⟨hquiet.1, hquiet.2, fun p hlo hhi _ => ?_, fun failed hjunk p _ hp _ => ?_⟩)
  · rw [hbytes p hhi]
    show (if p - 2 < 2 then 0 else 1) = _
    split <;> split <;> omega
  · cases hjunk
    rw [hbytes p (by omega), if_pos (by omega)]

end BlobSeer
