import BlobSeer.Fuse.Twins

/-!
# Which places a mirror accesses (`bindings/blob-fuse/local_mirror.hpp`)

The accesses of `read`, `write` and `commit` to `chunk_map`, `written_map` and the mapping, along the
loops of the model. Two of them may be out of range: `write` looks at the page of its offset before it
knows that it has a byte to write there, and the inner loop of `commit` looks at `written_map[stop]`
before it compares `stop` with the end. Accesses to one place that follow each other are listed once.
-/

namespace BlobSeer

open Lib (Run exec)

/-- An access to a container of a mirror. -/
inductive Access where
  | chunk (i : Nat)
  | written (i : Nat)
  | bytes (off size : Nat)
deriving DecidableEq

namespace Access

/-- Within a mirror of `pages` pages and `blobSize` bytes. -/
def InRange (pages blobSize : Nat) : Access → Prop
  | .chunk i => i < pages
  | .written i => i < pages
  | .bytes off size => ∀ p, off ≤ p → p < off + size → p < blobSize

theorem InRange.bytes {pages blobSize off size : Nat} (h : off + size ≤ blobSize) :
    (Access.bytes off size).InRange pages blobSize :=
  fun _ _ hp => Nat.lt_of_lt_of_le hp h

end Access

namespace LocalMirror

variable {β : Type}

/-! ## `read` -/

def extendReadAccesses (m : LocalMirror β) (last readOff : Nat) : Nat → Nat → List Access
  | 0, _ => []
  | fuel + 1, readSize =>
    if readOff + readSize < last then
      .chunk ((readOff + readSize) / m.pageSize) ::
        if m.chunkMap ((readOff + readSize) / m.pageSize) = 0 then
          extendReadAccesses m last readOff fuel (readSize + m.pageSize)
        else []
    else []

def markLoadedAccesses (pageSize last : Nat) : Nat → Nat → List Access
  | 0, _ => []
  | fuel + 1, index =>
    if index * pageSize < last then .chunk index :: markLoadedAccesses pageSize last fuel (index + 1)
    else []

def readLoopAccesses (mirrored : Nat → β) (remote : Nat → Option (FailedRead β)) (last : Nat) :
    Nat → Nat → LocalMirror β → List Access
  | 0, _, _ => []
  | fuel + 1, index, m =>
    if index * m.pageSize < last then
      let chunk := m.chunkMap index
      .chunk index ::
        if chunk < min m.pageSize (last - index * m.pageSize) then
          let readOff := index * m.pageSize + chunk
          let readSize := if 0 < chunk then m.pageSize - chunk else 0
          m.extendReadAccesses last readOff (m.pages + 1) readSize ++
            match extendRead m last readOff (m.pages + 1) readSize with
            | none => []
            | some readSize =>
              let (ok, m) := m.fetch mirrored remote readOff readSize
              .bytes readOff readSize ::
                if ok then
                  markLoadedAccesses m.pageSize (readOff + readSize) (m.pages + 1) index ++
                    match markLoaded (readOff + readSize) (m.pages + 1) index m with
                    | none => []
                    | some (index, m) => readLoopAccesses mirrored remote last fuel index m
                else []
        else readLoopAccesses mirrored remote last fuel (index + 1) m
    else []

/-- The bytes that `read` returns are accesses too. -/
def readAccesses (m : LocalMirror β) (mirrored : Nat → β) (remote : Nat → Option (FailedRead β))
    (size off : Nat) : List Access :=
  if off ≥ m.blobSize then []
  else
    let size := if off + size > m.blobSize then m.blobSize - off else size
    readLoopAccesses mirrored remote (off + size) (m.pages + 1) (off / m.pageSize) m ++
      [.bytes off size]

/-! ## `write` -/

def markWrittenAccesses (pageSize last : Nat) : Nat → Nat → List Access
  | 0, _ => []
  | fuel + 1, index =>
    if index * pageSize < last then
      .chunk index :: .written index :: markWrittenAccesses pageSize last fuel (index + 1)
    else []

def writeAccesses (m : LocalMirror β) (mirrored : Nat → β) (remote : Nat → Option (FailedRead β))
    (size off : Nat) : List Access :=
  if off + size > m.blobSize then []
  else
    let index := off / m.pageSize
    let gapOff := index * m.pageSize + m.chunkMap index
    let ok := if gapOff < off then (m.fetch mirrored remote gapOff (off - gapOff)).1 else true
    .bytes off size :: .chunk index ::
      ((if gapOff < off then [.bytes gapOff (off - gapOff)] else []) ++
        if ok then markWrittenAccesses m.pageSize (off + size) (m.pages + 1) index else [])

/-! ## `commit` -/

def findStopAccesses (m : LocalMirror β) : Nat → Nat → List Access
  | 0, _ => []
  | fuel + 1, stop =>
    .written stop ::
      if m.writtenMap stop = true ∧ stop * m.pageSize < m.blobSize then
        findStopAccesses m fuel (u32 (stop + 1))
      else []

def commitAccesses (remote : Nat → Bool) : Nat → Nat → LocalMirror β → List Access
  | 0, _, _ => []
  | fuel + 1, index, m =>
    if index * m.pageSize < m.blobSize then
      .written index ::
        if m.writtenMap index then
          m.findStopAccesses (m.pages + 1) (u32 (index + 1)) ++
            match findStop m (m.pages + 1) (u32 (index + 1)) with
            | none => []
            | some stop =>
              .bytes (index * m.pageSize) (u32 (stop + 2 ^ 32 - index) * m.pageSize) ::
                if remote (index * m.pageSize) then
                  (List.range' index (stop - index)).map .written ++
                    commitAccesses remote fuel (u32 (stop + 1))
                      { m with writtenMap := splice m.writtenMap index (stop - index) fun _ => false }
                else []
        else commitAccesses remote fuel (u32 (index + 1)) m
    else []

/-- All accesses of a call are in range, those of a `commit` for as long as it takes, and those of the
late answers when the io service runs. -/
def InRange (mirrored : Nat → β) (m : LocalMirror β) : MirrorCall β → Prop
  | .read size off remote =>
    ∀ a ∈ m.readAccesses mirrored remote size off, a.InRange m.pages m.blobSize
  | .write size off _ remote =>
    ∀ a ∈ m.writeAccesses mirrored remote size off, a.InRange m.pages m.blobSize
  | .commit remote =>
    ∀ fuel, ∀ a ∈ commitAccesses remote fuel 0 m, a.InRange m.pages m.blobSize
  | .run => ∀ p b, m.inFlight p = some b → p < m.blobSize
  | .reopen _ => True

theorem forall_mem_guard {α : Type} {P : α → Prop} {c : Prop} [Decidable c] {l : List α}
    (h : ∀ a ∈ l, P a) : ∀ a ∈ (if c then l else []), P a := by
  split
  · exact h
  · exact List.forall_mem_nil _

/-! ## Reads -/

theorem Sound.div_lt_pages {m : LocalMirror β} (hs : m.Sound) {p : Nat} (hp : p < m.blobSize) :
    p / m.pageSize < m.pages :=
  (Nat.div_lt_iff_lt_mul hs.page_pos).mpr (hs.blob_size ▸ hp)

theorem Sound.extendReadAccesses {m : LocalMirror β} (hs : m.Sound) {last : Nat}
    (hlast : last ≤ m.blobSize) (readOff fuel readSize : Nat) :
    ∀ a ∈ m.extendReadAccesses last readOff fuel readSize, a.InRange m.pages m.blobSize := by
  induction fuel generalizing readSize with
  | zero => exact List.forall_mem_nil _
  | succ fuel ih =>
    rw [LocalMirror.extendReadAccesses]
    split
    · rename_i hlt
      refine List.forall_mem_cons.mpr ⟨hs.div_lt_pages (hlt.trans_le hlast), ?_⟩
      split
      · exact ih _
      · exact List.forall_mem_nil _
    · exact List.forall_mem_nil _

theorem markLoadedAccesses_inRange {pageSize j pages blobSize : Nat} (hj : j ≤ pages)
    (fuel index : Nat) :
    ∀ a ∈ markLoadedAccesses pageSize (j * pageSize) fuel index, a.InRange pages blobSize := by
  induction fuel generalizing index with
  | zero => exact List.forall_mem_nil _
  | succ fuel ih =>
    rw [markLoadedAccesses]
    split
    · rename_i hlt
      exact List.forall_mem_cons.mpr ⟨(Nat.lt_of_mul_lt_mul_right hlt).trans_le hj, ih _⟩
    · exact List.forall_mem_nil _

theorem Sound.readLoopAccesses {m : LocalMirror β} (hs : m.Sound) (mirrored : Nat → β)
    (remote : Nat → Option (FailedRead β)) {last : Nat} (hlast : last ≤ m.blobSize) (fuel index : Nat) :
    ∀ a ∈ readLoopAccesses mirrored remote last fuel index m, a.InRange m.pages m.blobSize := by
  induction fuel generalizing index m with
  | zero => exact List.forall_mem_nil _
  | succ fuel ih =>
    rw [LocalMirror.readLoopAccesses]
    split
    · rename_i hlt
      have hpages : index < m.pages := (lt_pages_iff hs.page_pos hs.blob_size).mpr (by omega)
      refine List.forall_mem_cons.mpr ⟨hpages, ?_⟩
      split
      · obtain ⟨j, size, hsize, hend, hj, hjp, -⟩ := hs.extendRead_page hlast hlt
        obtain ⟨ok, src, q, hfetch, -, hq⟩ := fetch_cases m mirrored remote
          (index * m.pageSize + m.chunkMap index) size
        have hle : index * m.pageSize + m.chunkMap index + size ≤ m.blobSize := by
          rw [hend, ← hs.blob_size]
          exact Nat.mul_le_mul_right _ hjp
        refine List.forall_mem_append.mpr ⟨hs.extendReadAccesses hlast _ _ _, ?_⟩
        simp only [hsize, hfetch, hend]
        refine List.forall_mem_cons.mpr ⟨.bytes hle, ?_⟩
        split
        · refine List.forall_mem_append.mpr ⟨markLoadedAccesses_inRange hjp _ _, ?_⟩
          have hmark (g : Nat → β) :
              markLoaded (j * m.pageSize) ({ m with mapping := g, inFlight := q }.pages + 1) index
                { m with mapping := g, inFlight := q } =
                  some (j, { m with mapping := g, inFlight := q }.loadPages index j) :=
            markLoaded_eq j (m.pages + 1) index _ hs.page_pos (Nat.le_of_lt hj) (by omega)
          rw [hmark]
          have hs' := (hs.fetch hle hq).withMapping
            (splice m.land.mapping (index * m.pageSize + m.chunkMap index) size src)
          exact ih (hs'.loadPages index j) hlast j
        · exact List.forall_mem_nil _
      · exact ih hs hlast _
    · exact List.forall_mem_nil _

theorem Sound.readAccesses {m : LocalMirror β} (hs : m.Sound) (mirrored : Nat → β)
    (remote : Nat → Option (FailedRead β)) (size off : Nat) :
    ∀ a ∈ m.readAccesses mirrored remote size off, a.InRange m.pages m.blobSize := by
  rw [LocalMirror.readAccesses]
  split
  · exact List.forall_mem_nil _
  · rename_i hoff
    dsimp only
    generalize hsize : (if off + size > m.blobSize then m.blobSize - off else size) = n
    have hlast : off + n ≤ m.blobSize := by
      rw [← hsize]
      split <;> omega
    refine List.forall_mem_append.mpr ⟨hs.readLoopAccesses mirrored remote hlast _ _, ?_⟩
    exact List.forall_mem_singleton.mpr (.bytes hlast)

/-! ## Writes -/

theorem Sound.markWrittenAccesses {m : LocalMirror β} (hs : m.Sound) {last : Nat}
    (hlast : last ≤ m.blobSize) (fuel index : Nat) :
    ∀ a ∈ markWrittenAccesses m.pageSize last fuel index, a.InRange m.pages m.blobSize := by
  induction fuel generalizing index with
  | zero => exact List.forall_mem_nil _
  | succ fuel ih =>
    rw [LocalMirror.markWrittenAccesses]
    split
    · rename_i hlt
      have hpages : index < m.pages :=
        (lt_pages_iff hs.page_pos hs.blob_size).mpr (hlt.trans_le hlast)
      exact List.forall_mem_cons.mpr ⟨hpages, List.forall_mem_cons.mpr ⟨hpages, ih _⟩⟩
    · exact List.forall_mem_nil _

/-- A write looks at a page of the blob unless it is empty and at the end. -/
theorem Sound.writeAccesses_iff {m : LocalMirror β} (hs : m.Sound) (mirrored : Nat → β)
    (remote : Nat → Option (FailedRead β)) (size off : Nat) :
    (∀ a ∈ m.writeAccesses mirrored remote size off, a.InRange m.pages m.blobSize) ↔
      ¬ (off = m.blobSize ∧ size = 0) := by
  rw [writeAccesses]
  split
  · exact ⟨fun _ => by omega, fun _ => List.forall_mem_nil _⟩
  · rename_i hin
    have hlast : off + size ≤ m.blobSize := Nat.le_of_not_lt hin
    rw [List.forall_mem_cons, List.forall_mem_cons, List.forall_mem_append]
    constructor
    · rintro ⟨-, hchunk, -⟩ ⟨rfl, -⟩
      exact absurd hchunk (Nat.lt_irrefl _)
    · intro hend
      refine ⟨.bytes hlast, hs.div_lt_pages (by omega), ?_, ?_⟩
      · split
        · exact List.forall_mem_singleton.mpr (.bytes (by omega))
        · exact List.forall_mem_nil _
      · exact forall_mem_guard (hs.markWrittenAccesses hlast _ _)

/-! ## Commits -/

/-- A run of written pages starts at page `i`. -/
def RunStart (m : LocalMirror β) (i : Nat) : Prop :=
  m.writtenMap i = true ∧ (i = 0 ∨ m.writtenMap (i - 1) = false)

/-- `commit` gets past every run of written pages that starts at `index` or later, but for one that
goes to the end. -/
def SendsRuns (m : LocalMirror β) (remote : Nat → Bool) (index : Nat) : Prop :=
  ∀ i, index ≤ i → m.RunStart i → (∃ j, i < j ∧ j < m.pages ∧ m.writtenMap j = false) →
    remote (i * m.pageSize) = true

/-- `commit` gets to a run of written pages that goes to the end, within the range of its counters. -/
def Overruns (m : LocalMirror β) (remote : Nat → Bool) : Prop :=
  m.pages < 2 ^ 32 ∧ 0 < m.pages ∧ m.writtenMap (m.pages - 1) = true ∧ m.SendsRuns remote 0

section Search

variable {m : LocalMirror β}

/-- The counter does not get to the end of a blob of so many pages. -/
theorem findStopAccesses_far (hpages : 2 ^ 32 ≤ m.pages) (fuel : Nat) {stop : Nat}
    (hstop : stop < 2 ^ 32) :
    ∀ a ∈ m.findStopAccesses fuel stop, a.InRange m.pages m.blobSize := by
  induction fuel generalizing stop with
  | zero => exact List.forall_mem_nil _
  | succ fuel ih =>
    rw [findStopAccesses]
    refine List.forall_mem_cons.mpr ⟨hstop.trans_le hpages, ?_⟩
    exact forall_mem_guard (ih (Nat.mod_lt _ (Nat.two_pow_pos 32)))

/-- The search ends at a page that is not written. -/
theorem findStopAccesses_before {j : Nat} (hj : j < m.pages) (hw : m.writtenMap j = false)
    (hpages : m.pages < 2 ^ 32) (fuel : Nat) {k : Nat} (hk : k ≤ j) :
    (∀ a ∈ m.findStopAccesses fuel (u32 k), a.InRange m.pages m.blobSize) ∧
      ∀ stop, m.findStop fuel (u32 k) = some stop → stop ≤ j := by
  have hu32 : u32 k = k := u32_of_lt (by omega)
  rw [hu32]
  induction fuel generalizing k with
  | zero => exact ⟨List.forall_mem_nil _, nofun⟩
  | succ fuel ih =>
    rw [findStopAccesses, findStop]
    by_cases hc : m.writtenMap k = true ∧ k * m.pageSize < m.blobSize
    · have hlt : k < j := by
        refine Nat.lt_of_le_of_ne hk fun heq => ?_
        rw [heq, hw] at hc
        cases hc.1
      have hnext : u32 (k + 1) = k + 1 := u32_of_lt (by omega)
      rw [if_pos hc, if_pos hc, hnext]
      obtain ⟨hacc, hstop⟩ := ih hlt hnext
      exact ⟨List.forall_mem_cons.mpr ⟨hk.trans_lt hj, hacc⟩, hstop⟩
    · rw [if_neg hc, if_neg hc]
      refine ⟨List.forall_mem_singleton.mpr (hk.trans_lt hj), fun stop heq => ?_⟩
      cases heq
      exact hk

/-- The search looks at the place behind the last page when it gets there. -/
theorem written_pages_mem (hps : 0 < m.pageSize) (hblob : m.pages * m.pageSize = m.blobSize)
    (hpages : m.pages < 2 ^ 32) (fuel : Nat) {k : Nat} (hk : k ≤ m.pages)
    (hw : ∀ i, k ≤ i → i < m.pages → m.writtenMap i = true) (hfuel : m.pages < fuel + k) :
    .written m.pages ∈ m.findStopAccesses fuel k := by
  induction fuel generalizing k with
  | zero => omega
  | succ fuel ih =>
    rw [findStopAccesses]
    rcases Nat.eq_or_lt_of_le hk with rfl | hlt
    · exact List.mem_cons_self
    · rw [if_pos ⟨hw k (Nat.le_refl k) hlt, (lt_pages_iff hps hblob).mp hlt⟩, u32_of_lt (by omega)]
      exact List.mem_cons_of_mem _ (ih hlt (fun i hi => hw i (Nat.le_of_succ_le hi)) (by omega))

end Search

/-- One round of `commit` at a page that is marked. -/
theorem Sound.commitAccesses_round {m : LocalMirror β} (hs : m.Sound) {remote : Nat → Bool}
    {fuel index : Nat} (hlt : index < m.pages) (hw : m.writtenMap index = true)
    (h32 : index < 2 ^ 32) (hbegun : index = 0 ∨ m.writtenMap 0 = false)
    (hfind : ∀ a ∈ m.findStopAccesses (m.pages + 1) (u32 (index + 1)),
      a.InRange m.pages m.blobSize)
    (hrest : ∀ stop, m.findStop (m.pages + 1) (u32 (index + 1)) = some stop →
      (m.clearPages index stop).writtenMap 0 = false → remote (index * m.pageSize) = true →
      ∀ a ∈ commitAccesses remote fuel (u32 (stop + 1)) (m.clearPages index stop),
        a.InRange m.pages m.blobSize) :
    ∀ a ∈ commitAccesses remote (fuel + 1) index m, a.InRange m.pages m.blobSize := by
  rw [commitAccesses, if_pos ((lt_pages_iff hs.page_pos hs.blob_size).mp hlt), if_pos hw]
  refine List.forall_mem_cons.mpr ⟨hlt, List.forall_mem_append.mpr ⟨hfind, ?_⟩⟩
  cases hstop : m.findStop (m.pages + 1) (u32 (index + 1)) with
  | none => exact List.forall_mem_nil _
  | some stop =>
    obtain ⟨e, hie, hep, he32, rfl, -, -, hpos⟩ := findStop_run hs.page_pos hs.blob_size hbegun
      (m.pages + 1) (Nat.lt_succ_self index) hlt h32
      (fun i hi hi' => Nat.le_antisymm hi (Nat.le_of_lt_succ hi') ▸ hw) hstop
    simp only [u32_run hie he32 hpos]
    refine List.forall_mem_cons.mpr ⟨.bytes ?_, ?_⟩
    · rw [← Nat.add_mul, Nat.add_sub_cancel' (Nat.le_of_lt hie), ← hs.blob_size]
      exact Nat.mul_le_mul_right _ hep
    · split
      · rename_i hremote
        refine List.forall_mem_append.mpr ⟨?_, hrest _ hstop (clearPages_begun hbegun hie he32 hpos)
          hremote⟩
        rw [List.forall_mem_map]
        intro i hi
        rw [List.mem_range'_1] at hi
        have hle : u32 e ≤ e := Nat.mod_le _ _
        exact show i < m.pages by omega
      · exact List.forall_mem_nil _

theorem commitAccesses_end {m : LocalMirror β} {remote : Nat → Bool} {fuel index : Nat}
    (hle : ¬ index * m.pageSize < m.blobSize) : commitAccesses remote (fuel + 1) index m = [] := by
  rw [commitAccesses, if_neg hle]

theorem commitAccesses_unwritten {m : LocalMirror β} {remote : Nat → Bool} {fuel index : Nat}
    (hlt : index * m.pageSize < m.blobSize) (hw : m.writtenMap index = false) :
    commitAccesses remote (fuel + 1) index m =
      .written index :: commitAccesses remote fuel (u32 (index + 1)) m := by
  rw [commitAccesses, if_pos hlt, hw]
  rfl

theorem clearPages_after (m : LocalMirror β) (index stop k : Nat) (hk : stop ≤ k) :
    (m.clearPages index stop).writtenMap k = m.writtenMap k :=
  clearPages_out (by omega)

/-- No run of written pages goes to the end, or the counter does not. -/
theorem Sound.commitAccesses_clear {m : LocalMirror β} (hs : m.Sound) {remote : Nat → Bool}
    (hclear : 2 ^ 32 ≤ m.pages ∨ (m.pages < 2 ^ 32 ∧ m.writtenMap (m.pages - 1) = false))
    (fuel : Nat) {index : Nat} (h32 : index < 2 ^ 32)
    (hbegun : index = 0 ∨ m.writtenMap 0 = false) :
    ∀ a ∈ commitAccesses remote fuel index m, a.InRange m.pages m.blobSize := by
  have hu32 : ∀ n, u32 n < 2 ^ 32 := fun n => Nat.mod_lt n (Nat.two_pow_pos 32)
  induction fuel generalizing index m with
  | zero => exact List.forall_mem_nil _
  | succ fuel ih =>
    by_cases hlt : index * m.pageSize < m.blobSize
    · have hpages : index < m.pages := (lt_pages_iff hs.page_pos hs.blob_size).mpr hlt
      cases hw : m.writtenMap index with
      | false =>
        have hw0 : m.writtenMap 0 = false := by
          rcases hbegun with rfl | h0
          · exact hw
          · exact h0
        rw [commitAccesses_unwritten hlt hw]
        exact List.forall_mem_cons.mpr ⟨hpages, ih hs hclear (hu32 _) (.inr hw0)⟩
      | true =>
        refine hs.commitAccesses_round hpages hw h32 hbegun ?_ fun stop _ h0 _ =>
          ih (hs.clearPages index stop) (hclear.imp_right fun h => ⟨h.1, ?_⟩) (hu32 _) (.inr h0)
        · rcases hclear with hfar | ⟨hnear, hlast⟩
          · exact findStopAccesses_far hfar _ (hu32 _)
          · have hne : index ≠ m.pages - 1 := by
              rintro rfl
              rw [hw] at hlast
              cases hlast
            exact (findStopAccesses_before (by omega) hlast hnear _ (by omega)).1
        · by_contra hmarked
          have hkept := clearPages_unmarks (Bool.eq_true_of_not_eq_false hmarked)
          exact absurd (h.2.symm.trans hkept) nofun
    · rw [commitAccesses_end hlt]
      exact List.forall_mem_nil _

/-- A remote write fails before the loop gets to the end. -/
theorem Sound.commitAccesses_failing {m : LocalMirror β} (hs : m.Sound) {remote : Nat → Bool}
    (hpages : m.pages < 2 ^ 32) {i j : Nat} (hstart : m.RunStart i) (hij : i < j) (hj : j < m.pages)
    (hwj : m.writtenMap j = false) (hremote : remote (i * m.pageSize) = false) (fuel : Nat)
    {index : Nat} (hindex : index ≤ i) (hbegun : index = 0 ∨ m.writtenMap 0 = false) :
    ∀ a ∈ commitAccesses remote fuel index m, a.InRange m.pages m.blobSize := by
  induction fuel generalizing index m with
  | zero => exact List.forall_mem_nil _
  | succ fuel ih =>
    have hlt : index < m.pages := by omega
    cases hw : m.writtenMap index with
    | false =>
      have hw0 : m.writtenMap 0 = false := by
        rcases hbegun with rfl | h0
        · exact hw
        · exact h0
      have hne : index ≠ i := by
        rintro rfl
        exact absurd hstart.1 (Bool.eq_false_iff.mp hw)
      rw [commitAccesses_unwritten ((lt_pages_iff hs.page_pos hs.blob_size).mp hlt) hw,
        u32_of_lt (by omega)]
      exact List.forall_mem_cons.mpr
        ⟨hlt, ih hs hpages hstart hj hwj hremote (by omega) (.inr hw0)⟩
    | true =>
      rcases Nat.eq_or_lt_of_le hindex with rfl | hlt'
      · refine hs.commitAccesses_round hlt hw (by omega) hbegun
          (findStopAccesses_before hj hwj hpages _ hij).1 fun _ _ _ hr => ?_
        rw [hremote] at hr
        cases hr
      · -- the run that starts here ends before the one that fails
        have hbefore : m.writtenMap (i - 1) = false := hstart.2.resolve_left (by omega)
        have hne : index ≠ i - 1 := by
          rintro rfl
          rw [hw] at hbefore
          cases hbefore
        obtain ⟨hfind, hstop⟩ :=
          findStopAccesses_before (m := m) (j := i - 1) (by omega) hbefore hpages (m.pages + 1)
            (k := index + 1) (by omega)
        refine hs.commitAccesses_round hlt hw (by omega) hbegun hfind fun stop heq h0 _ => ?_
        have hle := hstop stop heq
        have hkeep := m.clearPages_after index stop
        rw [u32_of_lt (by omega)]
        exact ih (hs.clearPages index stop) hpages
          ⟨(hkeep i (by omega)).trans hstart.1, .inr ((hkeep (i - 1) hle).trans hbefore)⟩ hj
          ((hkeep j (by omega)).trans hwj) hremote (by omega) (.inr h0)

/-- The loop gets to a run of written pages that goes to the end. -/
theorem overrun_reached {remote : Nat → Bool} (fuel index : Nat) (m : LocalMirror β)
    (hps : 0 < m.pageSize) (hblob : m.pages * m.pageSize = m.blobSize) (hpages : m.pages < 2 ^ 32)
    (hlt : index < m.pages) (hlast : m.writtenMap (m.pages - 1) = true)
    (hstart : index = 0 ∨ m.writtenMap (index - 1) = false) (hsends : m.SendsRuns remote index)
    (hfuel : m.pages ≤ fuel + index) : .written m.pages ∈ commitAccesses remote fuel index m := by
  induction fuel generalizing index m with
  | zero => omega
  | succ fuel ih =>
    have hindex := (lt_pages_iff hps hblob).mp hlt
    cases hw : m.writtenMap index with
    | false =>
      have hne : index ≠ m.pages - 1 := by
        rintro rfl
        rw [hw] at hlast
        cases hlast
      rw [commitAccesses_unwritten hindex hw, u32_of_lt (by omega)]
      refine List.mem_cons_of_mem _ (ih (index + 1) m hps hblob hpages (by omega) hlast (.inr hw)
        (fun i hi => hsends i (Nat.le_of_succ_le hi)) (by omega))
    | true =>
      obtain ⟨e, heq, hie, hep, hws, hend⟩ :=
        findStop_spec hps hblob hpages (m.pages + 1) (index + 1) hlt (by omega)
      rw [commitAccesses, if_pos hindex, if_pos hw, u32_of_lt (by omega)]
      refine List.mem_cons_of_mem _ (List.mem_append.mpr ?_)
      rcases Nat.eq_or_lt_of_le hep with rfl | hep'
      · exact .inl (written_pages_mem hps hblob hpages _ hlt hws (by omega))
      · have hwe := hend hep'
        have hne : e ≠ m.pages - 1 := by
          rintro rfl
          rw [hwe] at hlast
          cases hlast
        have hremote := hsends index (Nat.le_refl _) ⟨hw, hstart⟩ ⟨e, hie, hep', hwe⟩
        have hkeep := m.clearPages_after index e
        have hrest := ih (e + 1) (m.clearPages index e) hps hblob hpages (show e + 1 < m.pages by omega)
          ((hkeep (m.pages - 1) (by omega)).trans hlast) (.inr ((hkeep e (Nat.le_refl e)).trans hwe))
          (fun i hi hrun hj => ?_) (show m.pages ≤ _ by omega)
        · refine .inr ?_
          simp only [heq, hremote, if_true, u32_of_lt (show e + 1 < 2 ^ 32 by omega)]
          exact List.mem_cons_of_mem _ (List.mem_append_right _ hrest)
        · obtain ⟨j, hij, hjp, hwj⟩ := hj
          rw [RunStart, hkeep i (by omega), hkeep (i - 1) (by omega)] at hrun
          exact hsends i (by omega) hrun ⟨j, hij, hjp, (hkeep j (by omega)).symm.trans hwj⟩

theorem Sound.commitAccesses_iff {m : LocalMirror β} (hs : m.Sound) (remote : Nat → Bool) :
    (∀ fuel, ∀ a ∈ commitAccesses remote fuel 0 m, a.InRange m.pages m.blobSize) ↔
      ¬ m.Overruns remote := by
  constructor
  · rintro h ⟨hnear, hpos, hlast, hsends⟩
    have hmem := overrun_reached m.pages 0 m hs.page_pos hs.blob_size hnear hpos hlast (.inl rfl)
      hsends (Nat.le_refl _)
    exact absurd (h _ _ hmem) (Nat.lt_irrefl m.pages)
  · intro h fuel
    rcases Nat.lt_or_ge m.pages (2 ^ 32) with hnear | hfar
    · rcases Nat.eq_zero_or_pos m.pages with hzero | hpos
      · have hempty : ¬ 0 * m.pageSize < m.blobSize := by
          rw [← hs.blob_size, hzero]
          exact Nat.lt_irrefl _
        cases fuel with
        | zero => exact List.forall_mem_nil _
        | succ fuel =>
          rw [commitAccesses_end hempty]
          exact List.forall_mem_nil _
      · cases hlast : m.writtenMap (m.pages - 1) with
        | false =>
          exact hs.commitAccesses_clear (.inr ⟨hnear, hlast⟩) fuel (Nat.two_pow_pos 32) (.inl rfl)
        | true =>
          have hfails : ¬ m.SendsRuns remote 0 := fun hsends => h ⟨hnear, hpos, hlast, hsends⟩
          simp only [SendsRuns, not_forall] at hfails
          obtain ⟨i, -, hstart, ⟨j, hij, hj, hwj⟩, hremote⟩ := hfails
          exact hs.commitAccesses_failing hnear hstart hij hj hwj (Bool.eq_false_iff.mpr hremote) fuel
            (Nat.zero_le i) (.inl rfl)
    · exact hs.commitAccesses_clear (.inl hfar) fuel (Nat.two_pow_pos 32) (.inl rfl)

/-! ## Any calls -/

/-- An empty write is not at the end of the blob, and a commit does not get to a run of written pages
that goes to the end. -/
def StaysClear (m : LocalMirror β) : MirrorCall β → Prop
  | .read .. => True
  | .write size off _ _ => ¬ (off = m.blobSize ∧ size = 0)
  | .commit remote => ¬ m.Overruns remote
  | .run => True
  | .reopen _ => True

theorem Sound.inRange_iff {m : LocalMirror β} (hs : m.Sound) (mirrored : Nat → β)
    (c : MirrorCall β) : m.InRange mirrored c ↔ m.StaysClear c := by
  cases c with
  | read size off remote =>
    exact iff_of_true (hs.readAccesses mirrored remote size off) trivial
  | write size off buf remote => exact hs.writeAccesses_iff mirrored remote size off
  | commit remote => exact hs.commitAccesses_iff remote
  | run => exact iff_of_true hs.flight_lt trivial
  | reopen beyond => exact Iff.rfl

end LocalMirror

open LocalMirror

/-- After any calls, the next one has its accesses in range exactly when it stays clear; and so have all
calls of a run exactly when all of them do. -/
theorem indexes_in_range_iff {β : Type} {blobSize pageSize : Nat} (hps : 0 < pageSize)
    (hdvd : pageSize ∣ blobSize) {mirrored file : Nat → β} {beyond : Nat → Bool}
    {calls : List (MirrorCall β)} {m : LocalMirror β}
    (hrun : Run (callStep mirrored) (fun _ _ => True) (new blobSize pageSize file none beyond)
      calls m) :
    (∀ c, m.InRange mirrored c ↔ m.StaysClear c) ∧
      (Run (callStep mirrored) (InRange mirrored) (new blobSize pageSize file none beyond) calls m ↔
        Run (callStep mirrored) StaysClear (new blobSize pageSize file none beyond) calls m) := by
  refine ⟨(sound_run hps hdvd hrun).inRange_iff mirrored, ?_⟩
  have hnew : (new blobSize pageSize file none beyond).Sound := .new hps hdvd file beyond
  exact Run.guard_iff (fun hs _ hstep => Sound.callStep hs hstep)
    (fun hs _ => Sound.inRange_iff hs mirrored _) hnew

/-- The last page is written and committed, and an empty write comes to the end. -/
theorem last_page_out_of_range :
    ∃ m, Run (callStep fun _ => 1) (fun _ _ => True) (new 8 4 (fun _ => 0) none fun _ => false)
        [.write 4 4 (fun _ => 2) fun _ => none] m ∧
      ¬ m.InRange (fun _ => 1) (.commit fun _ => true) ∧
      ¬ m.InRange (fun _ => 1) (.write 0 8 (fun _ => 2) fun _ => none) := by
  have hrun : Run (callStep fun _ => 1) (fun _ _ => True) (new 8 4 (fun _ => 0) none fun _ => false)
      [.write 4 4 (fun _ => 2) fun _ => none] _ :=
    Run.of_isSome (new 8 4 (fun _ => 0) none fun _ => false) (by decide +kernel)
  refine ⟨_, hrun, fun h => ?_, fun h => ?_⟩
  · exact absurd (h 2 (.written 2) (by decide +kernel)) (by decide +kernel : ¬ 2 < _)
  · exact absurd (h (.chunk 2) (by decide +kernel)) (by decide +kernel : ¬ 2 < _)

/-- The first page is written. -/
theorem indexes_in_range_first_page :
    ∃ m, Run (callStep fun _ => 1) (fun _ _ => True) (new 8 4 (fun _ => 0) none fun _ => false)
        [.write 4 0 (fun _ => 2) fun _ => none] m ∧
      m.writtenMap 0 = true ∧ m.InRange (fun _ => 1) (.commit fun _ => true) := by
  have hrun : Run (callStep fun _ => 1) (fun _ _ => True) (new 8 4 (fun _ => 0) none fun _ => false)
      [.write 4 0 (fun _ => 2) fun _ => none] _ :=
    Run.of_isSome (new 8 4 (fun _ => 0) none fun _ => false) (by decide +kernel)
  refine ⟨_, hrun, by decide +kernel, ?_⟩
  refine ((indexes_in_range_iff (by decide) (by decide) hrun).1 (.commit fun _ => true)).mpr ?_
  rintro ⟨-, -, hlast, -⟩
  exact absurd hlast (by decide +kernel)

end BlobSeer
