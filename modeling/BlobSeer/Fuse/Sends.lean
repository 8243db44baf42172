import BlobSeer.Fuse.Commit

/-!
# What `commit` sends

`sendLoop` is the loop of `commit` with a list of its calls of `blob->write`, and `commitLoop` is what
becomes of the latest version when they are carried out. Every call sends a run of written pages that
lies within the blob, also where the 32-bit counters of the loop wrap around (`findStop_run`).
-/

namespace BlobSeer

namespace LocalMirror

variable {β : Type}

/-- The bytes of the mapping from `off` on. -/
def bytesAt (m : LocalMirror β) (off size : Nat) : List β := (List.range' off size).map m.mapping

/-- The latest version after a `blob->write`. -/
def place (latest : Nat → β) (send : Nat × List β) : Nat → β := fun p =>
  if p < send.1 then latest p else send.2.getD (p - send.1) (latest p)

theorem place_bytesAt (m : LocalMirror β) (latest : Nat → β) (off size : Nat) :
    place latest (off, m.bytesAt off size) = splice latest off size m.mapping := by
  funext p
  rw [place]
  by_cases hlo : p < off
  · rw [if_pos hlo, splice_out (by omega)]
  · rw [if_neg hlo, List.getD_eq_getElem?_getD, bytesAt, List.getElem?_map]
    by_cases hhi : p < off + size
    · have hat : (List.range' off size)[p - off]? = some p := by
        rw [List.getElem?_range' (by omega)]
        exact congrArg some (by omega)
      rw [hat, splice_in (Nat.le_of_not_lt hlo) hhi]
      rfl
    · rw [List.getElem?_eq_none (by rw [List.length_range']; omega), splice_out (by omega)]
      rfl

/-- The loop of `commit`, with the writes that it asks for; the last one of them has failed when it
returns `false`. -/
def sendLoop (remote : Nat → Bool) :
    Nat → Nat → LocalMirror β → Option (Bool × LocalMirror β × List (Nat × List β))
  | 0, _, _ => none
  | fuel + 1, index, m =>
    if index * m.pageSize < m.blobSize then
      if m.writtenMap index then
        match findStop m (m.pages + 1) (u32 (index + 1)) with
        | none => none
        | some stop =>
          let size := u32 (stop + 2 ^ 32 - index) * m.pageSize
          let m := m.land
          let send := (index * m.pageSize, m.bytesAt (index * m.pageSize) size)
          if remote (index * m.pageSize) then
            (sendLoop remote fuel (u32 (stop + 1))
              { m with writtenMap := splice m.writtenMap index (stop - index) fun _ => false }).map
              fun (ok, m, sends) => (ok, m, send :: sends)
          else some (false, m, [send])
      else sendLoop remote fuel (u32 (index + 1)) m
    else some (true, m, [])

/-- `local_mirror_t::commit`. -/
def sends (m : LocalMirror β) (remote : Nat → Bool) :
    Option (Bool × LocalMirror β × List (Nat × List β)) :=
  sendLoop remote (2 * m.pages + 3) 0 m

/-! One round of the loop. -/

section Round

variable {m : LocalMirror β} {index : Nat} (remote : Nat → Bool) (fuel : Nat)

theorem sendLoop_end (hle : ¬ index * m.pageSize < m.blobSize) :
    sendLoop remote (fuel + 1) index m = some (true, m, []) := by
  rw [sendLoop, if_neg hle]

theorem sendLoop_unwritten (hlt : index * m.pageSize < m.blobSize) (hw : m.writtenMap index = false) :
    sendLoop remote (fuel + 1) index m = sendLoop remote fuel (u32 (index + 1)) m := by
  rw [sendLoop, if_pos hlt, hw]
  rfl

theorem sendLoop_written (hlt : index * m.pageSize < m.blobSize) (hw : m.writtenMap index = true) :
    sendLoop remote (fuel + 1) index m =
      (m.findStop (m.pages + 1) (u32 (index + 1))).bind fun stop =>
        let size := u32 (stop + 2 ^ 32 - index) * m.pageSize
        let send := (index * m.pageSize, m.land.bytesAt (index * m.pageSize) size)
        if remote (index * m.pageSize) then
          (sendLoop remote fuel (u32 (stop + 1)) (m.land.clearPages index stop)).map
            fun (ok, m, sends) => (ok, m, send :: sends)
        else some (false, m.land, [send]) := by
  rw [sendLoop, if_pos hlt, if_pos hw]
  cases m.findStop (m.pages + 1) (u32 (index + 1)) with
  | none => rfl
  | some stop => rfl

end Round

/-- The writes that have been carried out. -/
def carriedOut (ok : Bool) (sends : List (Nat × List β)) : List (Nat × List β) :=
  if ok then sends else sends.dropLast

theorem sendLoop_failed {remote : Nat → Bool} (fuel index : Nat) (m : LocalMirror β)
    {m' : LocalMirror β} {sends : List (Nat × List β)}
    (h : sendLoop remote fuel index m = some (false, m', sends)) : sends ≠ [] := by
  induction fuel generalizing index m sends with
  | zero => cases h
  | succ fuel ih =>
    rw [sendLoop] at h
    split at h
    · split at h
      · split at h
        · cases h
        · simp only at h
          split at h
          · obtain ⟨⟨_, _, rest⟩, -, heq⟩ := Option.map_eq_some_iff.mp h
            cases heq
            exact List.cons_ne_nil _ _
          · cases h
            exact List.cons_ne_nil _ _
      · exact ih _ _ h
    · cases h

theorem carriedOut_cons (ok : Bool) (send : Nat × List β) {sends : List (Nat × List β)}
    (h : ok = false → sends ≠ []) :
    carriedOut ok (send :: sends) = send :: carriedOut ok sends := by
  cases ok with
  | true => rfl
  | false => exact List.dropLast_cons_of_ne_nil (h rfl)

/-- The list accounts for all that `commit` does. -/
theorem commitLoop_eq_sendLoop (remote : Nat → Bool) (fuel index : Nat) (m : LocalMirror β)
    (latest : Nat → β) :
    commitLoop remote fuel index m latest = (sendLoop remote fuel index m).map
      fun (ok, m, sends) => (ok, m, (carriedOut ok sends).foldl place latest) := by
  induction fuel generalizing index m latest with
  | zero => rfl
  | succ fuel ih =>
    rw [commitLoop, sendLoop]
    split
    · split
      · cases findStop m (m.pages + 1) (u32 (index + 1)) with
        | none => rfl
        | some stop =>
          simp only
          split
          · rw [ih, Option.map_map, ← place_bytesAt]
            cases hrest : sendLoop remote fuel (u32 (stop + 1)) { m.land with
                writtenMap := splice m.land.writtenMap index (stop - index) fun _ => false } with
            | none => rfl
            | some r =>
              obtain ⟨ok, m', sends⟩ := r
              have hne : ok = false → sends ≠ [] := by
                rintro rfl
                exact sendLoop_failed _ _ _ hrest
              simp only [Option.map_some, Function.comp_apply, carriedOut_cons ok _ hne,
                List.foldl_cons]
          · rfl
      · exact ih _ _ _
    · rfl

/-! ## The runs of written pages -/

section Runs

variable {m : LocalMirror β} (hps : 0 < m.pageSize) (hblob : m.pages * m.pageSize = m.blobSize)

include hps hblob in
/-- The search goes round and round when all the pages that it can count are written. -/
theorem findStop_all_written (hpages : 2 ^ 32 ≤ m.pages)
    (hw : ∀ i, i < 2 ^ 32 → m.writtenMap i = true) (fuel : Nat) {stop : Nat} (hstop : stop < 2 ^ 32) :
    m.findStop fuel stop = none := by
  induction fuel generalizing stop with
  | zero => rfl
  | succ fuel ih =>
    have hlt : stop * m.pageSize < m.blobSize := (lt_pages_iff hps hblob).mp (by omega)
    rw [findStop, if_pos ⟨hw stop hstop, hlt⟩]
    exact ih (Nat.mod_lt _ (Nat.two_pow_pos 32))

include hps hblob in
/-- The search from page `k` on, of a run that starts at `index`, in a loop that has done page `0`. It
ends at page `e`, or behind page `2 ^ 32 - 1`, where the counter becomes `0`. -/
theorem findStop_run {index : Nat} (hbegun : index = 0 ∨ m.writtenMap 0 = false) (fuel : Nat)
    {k stop : Nat} (hik : index < k) (hkp : k ≤ m.pages) (hk32 : k ≤ 2 ^ 32)
    (hw : ∀ i, index ≤ i → i < k → m.writtenMap i = true)
    (h : m.findStop fuel (u32 k) = some stop) :
    ∃ e, k ≤ e ∧ e ≤ m.pages ∧ e ≤ 2 ^ 32 ∧ stop = u32 e ∧
      (∀ i, index ≤ i → i < e → m.writtenMap i = true) ∧
      (e < m.pages → e < 2 ^ 32 → m.writtenMap e = false) ∧ (e = 2 ^ 32 → 0 < index) := by
  induction fuel generalizing k with
  | zero => cases h
  | succ fuel ih =>
    rcases Nat.lt_or_eq_of_le hk32 with hlt | rfl
    · rw [u32_of_lt hlt, findStop] at h
      split at h
      · rename_i hc
        have hkp' : k < m.pages := (lt_pages_iff hps hblob).mpr hc.2
        obtain ⟨e, hke, hrest⟩ := ih (Nat.lt_succ_of_lt hik) hkp' hlt (fun i hi hik' => by
          rcases Nat.lt_succ_iff_lt_or_eq.mp hik' with hik' | rfl
          · exact hw i hi hik'
          · exact hc.1) h
        exact ⟨e, Nat.le_of_succ_le hke, hrest⟩
      · rename_i hc
        have heq : stop = u32 k := (Option.some.inj h).symm.trans (u32_of_lt hlt).symm
        refine ⟨k, Nat.le_refl k, hkp, hk32, heq, hw, fun hp _ => ?_,
          fun h32 => absurd h32 (Nat.ne_of_lt hlt)⟩
        cases hwk : m.writtenMap k with
        | false => rfl
        | true => exact absurd ⟨hwk, (lt_pages_iff hps hblob).mp hp⟩ hc
    · have hzero : u32 (2 ^ 32) = 0 := by decide
      rcases Nat.eq_zero_or_pos index with rfl | hpos
      · rw [hzero, findStop_all_written hps hblob hkp (fun i hi => hw i (Nat.zero_le i) hi) _
          (Nat.two_pow_pos 32)] at h
        cases h
      · have hw0 : m.writtenMap 0 = false := hbegun.resolve_left (Nat.ne_of_gt hpos)
        rw [hzero, findStop, if_neg (fun hc => by rw [hw0] at hc; cases hc.1)] at h
        cases h
        exact ⟨2 ^ 32, Nat.le_refl _, hkp, Nat.le_refl _, hzero.symm, hw, fun _ hlt =>
          absurd hlt (Nat.lt_irrefl _), fun _ => hpos⟩

/-- The number of pages that is computed from the counters of a run. -/
theorem u32_run {index e : Nat} (hlt : index < e) (he : e ≤ 2 ^ 32) (hpos : e = 2 ^ 32 → 0 < index) :
    u32 (u32 e + 2 ^ 32 - index) = e - index := by
  unfold u32
  rcases Nat.lt_or_eq_of_le he with he | rfl
  · rw [Nat.mod_eq_of_lt he]
    omega
  · have := hpos rfl
    rw [Nat.mod_self]
    omega

end Runs

/-! ## What a `commit` that succeeds has sent -/

/-- The write of the pages from `i` to `e`. -/
def pageRun (m : LocalMirror β) (i e : Nat) : Nat × List β :=
  (i * m.pageSize, m.bytesAt (i * m.pageSize) ((e - i) * m.pageSize))

/-- The writes are runs of written pages, and every written page is in one of them. -/
structure SendsPages (m : LocalMirror β) (sends : List (Nat × List β)) : Prop where
  runs : ∀ send ∈ sends, ∃ i e, i < e ∧ e ≤ m.pages ∧
    (∀ j, i ≤ j → j < e → m.writtenMap j = true) ∧ send = m.pageRun i e
  all : ∀ j < m.pages, m.writtenMap j = true → ∃ i e, i ≤ j ∧ j < e ∧ m.pageRun i e ∈ sends

/-- The runs of the pages that a round leaves, after those that it sends. -/
theorem SendsPages.cons {m : LocalMirror β} {index stop : Nat} {sends : List (Nat × List β)}
    (h : (m.clearPages index stop).SendsPages sends) (hlt : index < stop) (hle : stop ≤ m.pages)
    (hw : ∀ j, index ≤ j → j < stop → m.writtenMap j = true) :
    m.SendsPages (m.pageRun index stop :: sends) := by
  refine ⟨fun send hs => ?_, fun j hj hwj => ?_⟩
  · rcases List.mem_cons.mp hs with rfl | hs
    · exact ⟨index, stop, hlt, hle, hw, rfl⟩
    · obtain ⟨i, e, hie, he, hws, rfl⟩ := h.runs send hs
      exact ⟨i, e, hie, he, fun j h1 h2 => clearPages_unmarks (hws j h1 h2), rfl⟩
  · by_cases hin : index ≤ j ∧ j < stop
    · exact ⟨index, stop, hin.1, hin.2, List.mem_cons_self⟩
    · have hkeep : (m.clearPages index stop).writtenMap j = true := (clearPages_out hin).trans hwj
      obtain ⟨i, e, hij, hje, hmem⟩ := h.all j hj hkeep
      exact ⟨i, e, hij, hje, List.mem_cons_of_mem _ hmem⟩

theorem sendLoop_sendsPages {remote : Nat → Bool} (fuel index : Nat) (m : LocalMirror β)
    {m' : LocalMirror β} {sends : List (Nat × List β)} (hps : 0 < m.pageSize)
    (hblob : m.pages * m.pageSize = m.blobSize) (hpages : m.pages < 2 ^ 32)
    (hdone : ∀ i, i < index → i < m.pages → m.writtenMap i = false)
    (h : sendLoop remote fuel index m = some (true, m', sends)) : m.land.SendsPages sends := by
  induction fuel generalizing index m sends with
  | zero => cases h
  | succ fuel ih =>
    by_cases hlt : index < m.pages
    · have hindex := (lt_pages_iff hps hblob).mp hlt
      cases hw : m.writtenMap index with
      | true =>
        obtain ⟨stop, heq, his, hle, hws, hend⟩ :=
          findStop_spec hps hblob hpages (m.pages + 1) (index + 1) hlt (by omega)
        have hrun : ∀ j, index ≤ j → j < stop → m.writtenMap j = true := by
          intro j h1 h2
          rcases Nat.eq_or_lt_of_le h1 with rfl | h1
          · exact hw
          · exact hws j h1 h2
        have hsize : u32 (stop + 2 ^ 32 - index) = stop - index := by
          rw [u32]
          omega
        rw [sendLoop_written remote fuel hindex hw, u32_of_lt (by omega), heq, Option.bind_some] at h
        dsimp only at h
        rw [hsize] at h
        split at h
        · obtain ⟨⟨ok, m'', rest⟩, hrest, hcons⟩ := Option.map_eq_some_iff.mp h
          cases hcons
          have hround := ih _ (m.land.clearPages index stop) hps hblob hpages
            (clearPages_done (m := m.land) hdone hend) hrest
          rw [land_clearPages] at hround
          exact hround.cons his hle hrun
        · cases h
      | false =>
        rw [sendLoop_unwritten remote fuel hindex hw, u32_of_lt (by omega)] at h
        refine ih (index + 1) m hps hblob hpages (fun i hi hip => ?_) h
        rcases Nat.eq_or_lt_of_le (Nat.le_of_lt_succ hi) with rfl | hlt'
        · exact hw
        · exact hdone i hlt' hip
    · rw [sendLoop_end remote fuel fun hc => hlt ((lt_pages_iff hps hblob).mpr hc)] at h
      cases h
      refine ⟨fun _ hs => absurd hs List.not_mem_nil, fun j hj hwj => ?_⟩
      have hunmarked := hdone j (Nat.lt_of_lt_of_le hj (Nat.le_of_not_lt hlt)) hj
      exact absurd (hunmarked.symm.trans hwj) Bool.false_ne_true

/-- A `commit` that succeeds has written all pages that were marked, with the bytes that were in
flight. -/
theorem sends_sendsPages {m m' : LocalMirror β} {remote : Nat → Bool} {sends : List (Nat × List β)}
    (hps : 0 < m.pageSize) (hblob : m.pages * m.pageSize = m.blobSize)
    (h : m.sends remote = some (true, m', sends)) : m.land.SendsPages sends := by
  have hcommit : commitLoop remote (2 * m.pages + 3) 0 m m.mapping =
      some (true, m', (carriedOut true sends).foldl place m.mapping) := by
    rw [commitLoop_eq_sendLoop, show sendLoop remote (2 * m.pages + 3) 0 m = _ from h]
    rfl
  have hpages := commitLoop_pages_lt _ 0 m _ hps hblob (Nat.two_pow_pos 32) hcommit
  exact sendLoop_sendsPages _ 0 m hps hblob hpages (fun i hi => absurd hi (Nat.not_lt_zero i)) h

/-- Also on a blob without pages. -/
theorem sends_of_dvd {m m' : LocalMirror β} {remote : Nat → Bool} {sends : List (Nat × List β)}
    (hdvd : m.pageSize ∣ m.blobSize) (h : m.sends remote = some (true, m', sends)) :
    m.land.SendsPages sends := by
  rcases Nat.eq_zero_or_pos m.pageSize with hps | hps
  · have hblob : m.blobSize = 0 := by
      rw [hps] at hdvd
      exact Nat.zero_dvd.mp hdvd
    rw [LocalMirror.sends, sendLoop_end remote _ (by rw [hblob]; exact Nat.not_lt_zero _)] at h
    cases h
    refine ⟨fun _ hs => absurd hs List.not_mem_nil, fun j hj => ?_⟩
    rw [pages, show m.land.pageSize = 0 from hps, Nat.div_zero] at hj
    exact absurd hj (Nat.not_lt_zero j)
  · exact sends_sendsPages hps (Nat.div_mul_cancel hdvd) h

end LocalMirror

end BlobSeer
