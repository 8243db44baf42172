import BlobSeer.Lib.Lists
import BlobSeer.RangeQuery.Blocks
import BlobSeer.VManager.Sizes

/-!
# The trees that the version manager promises

`allRoots` lists the roots of a blob by version, published or only prepared; it only ever grows at
its end. When every ticket asks for whole pages and fits into a tree of 64 bits, every tree has a
power of two of pages, the trees do not shrink, and each ticket fits into its own tree
(`Geometry`). On a blob that is written densely, where a write starts at most at `max_size`, a
ticket also starts at most at the end of the tree before it.
-/

namespace BlobSeer

open Lib (Run getElem?_concat span_succ span_lt_iff span_le_iff)
open VManagement (rootAt grow growLoop newRoot ticket assigned publishObj retire)

/-- The roots of a blob by version: the published ones, then those of the outstanding tickets. -/
def ObjInfo.allRoots (o : ObjInfo) : List Root := o.roots ++ o.intervals.map (·.root)

/-- The page size of a blob, which all its roots share. -/
def ObjInfo.pageSize (o : ObjInfo) : Nat := (o.roots.headD {}).pageSize

theorem VManagement.retire_allRoots (roots : List Root) (l : IntervalList) :
    (retire roots l).1 ++ (retire roots l).2.map (·.root) = roots ++ l.map (·.root) :=
  VManagement.retire_inv (P := fun rs l' => rs ++ l'.map (·.root) = roots ++ l.map (·.root))
    (by
      intro rs e l' _ h
      rw [← h]
      simp)
    _ _ rfl

theorem VManagement.retire_isPrefix (roots : List Root) (l : IntervalList) :
    roots <+: (retire roots l).1 :=
  VManagement.retire_inv (P := fun rs _ => roots <+: rs)
    (fun _ h => h.trans (List.prefix_append _ _)) _ _ (List.prefix_refl _)

namespace ObjInfo

@[simp] theorem publishObj_allRoots (o : ObjInfo) (v : Nat) :
    (publishObj o v).allRoots = o.allRoots := by
  have hc : (o.intervals.complete v).map (·.root) = o.intervals.map (·.root) := by
    simp only [IntervalList.complete, List.map_map]
    refine List.map_congr_left fun e _ => ?_
    simp only [Function.comp]
    split <;> rfl
  have h := VManagement.retire_allRoots o.roots (o.intervals.complete v)
  rw [hc] at h
  exact h

theorem publishObj_isPrefix (o : ObjInfo) (v : Nat) : o.roots <+: (publishObj o v).roots :=
  VManagement.retire_isPrefix _ _

theorem pageSize_of_isPrefix {o o' : ObjInfo} (hpos : 0 < o.roots.length)
    (h : o.roots <+: o'.roots) : o'.pageSize = o.pageSize := by
  obtain ⟨l, hl⟩ := h
  obtain ⟨r, rs, hr⟩ := List.exists_cons_of_length_pos hpos
  rw [pageSize, pageSize, ← hl, hr]
  rfl

theorem lastRoot_eq (o : ObjInfo) (hpos : 0 < o.roots.length) :
    o.roots[o.roots.length - 1]? = some o.lastRoot := by
  have hne : o.roots ≠ [] := List.ne_nil_of_length_pos hpos
  rw [lastRoot, ← List.getLast?_eq_getElem?, List.getLast?_eq_some_getLast hne]
  rfl

theorem allRoots_of_roots {o : ObjInfo} {t : Nat} {r : Root} (h : o.roots[t]? = some r) :
    o.allRoots[t]? = some r := by
  obtain ⟨ht, -⟩ := List.getElem?_eq_some_iff.1 h
  rw [allRoots, List.getElem?_append_left ht, h]

theorem mem_allRoots {o : ObjInfo} {r : Root} (h : r ∈ o.roots) : r ∈ o.allRoots :=
  List.mem_append_left _ h

end ObjInfo

theorem getElem?_of_isPrefix {α : Type} {l l' : List α} (h : l <+: l') {n : Nat} {x : α}
    (hx : l[n]? = some x) : l'[n]? = some x := by
  obtain ⟨r, rfl⟩ := h
  rw [List.getElem?_append_left (List.getElem?_eq_some_iff.1 hx).1, hx]

/-- Published roots stay where they are, and only a publish adds one. -/
theorem VmHistory.step_roots_cases {h h' : VmHistory} {req : VmRequest} (hs : h.step req = some h')
    (hnext : h.vm.objHash (h.vm.objCount + 1) = none) {id : Nat} {o : ObjInfo}
    (ho : h.vm.objHash id = some o) :
    ∃ o', h'.vm.objHash id = some o' ∧ o.roots <+: o'.roots ∧
      (o'.roots = o.roots ∨ ∃ q, req = .publish q ∧ q.id = id) := by
  have hnew : ∀ p, ∃ o', (h.vm.addObj p).objHash id = some o' ∧ o.roots <+: o'.roots ∧
      (o'.roots = o.roots ∨ ∃ q, req = .publish q ∧ q.id = id) := by
    intro p
    have hne : id ≠ h.vm.objCount + 1 := by
      rintro rfl
      rw [hnext] at ho
      cases ho
    exact ⟨o, (Function.update_of_ne hne _ _).trans ho, List.prefix_refl _, .inl rfl⟩
  -- a change of one blob whose roots only grow
  have hset : ∀ {i : Nat} {p p' : ObjInfo}, h.vm.objHash i = some p → p.roots <+: p'.roots →
      (i = id → p'.roots = p.roots ∨ ∃ q, req = .publish q ∧ q.id = id) →
      ∃ o', (h.vm.setObj i p').objHash id = some o' ∧ o.roots <+: o'.roots ∧
        (o'.roots = o.roots ∨ ∃ q, req = .publish q ∧ q.id = id) := by
    intro i p p' hp hle hcases
    by_cases he : id = i
    · subst he
      rw [ho] at hp
      cases hp
      exact ⟨p', Function.update_self .., hle, hcases rfl⟩
    · exact ⟨o, (Function.update_of_ne he _ _).trans ho, List.prefix_refl _, .inl rfl⟩
  obtain rfl | ⟨ps, rc, -, rfl⟩ | ⟨i, version, p, -, hp, rfl⟩ |
    ⟨query, append, p, maxSize, -, hp, -, rfl⟩ | ⟨interval, p, hreq, hp, -, rfl⟩ := step_cases hs
  · exact ⟨o, ho, List.prefix_refl _, .inl rfl⟩
  · exact hnew _
  · exact hnew _
  · exact hset hp (List.prefix_refl _) fun _ => .inl rfl
  · exact hset hp (p.publishObj_isPrefix _) fun he => .inr ⟨interval, hreq, he⟩

theorem VmHistory.step_roots {h h' : VmHistory} {req : VmRequest} (hs : h.step req = some h')
    (hnext : h.vm.objHash (h.vm.objCount + 1) = none) {id : Nat} {o : ObjInfo}
    (ho : h.vm.objHash id = some o) :
    ∃ o', h'.vm.objHash id = some o' ∧ o.roots <+: o'.roots := by
  obtain ⟨o', ho', hp, -⟩ := step_roots_cases hs hnext ho
  exact ⟨o', ho', hp⟩

/-! ## Growth -/

/-- A range that ends at `last` fits into a tree of less than `2 ^ 64` bytes. -/
def FitsTree (ps last : Nat) : Prop := ∃ m < 64, last ≤ ps * 2 ^ m ∧ ps * 2 ^ m < 2 ^ 64

instance (ps last : Nat) : Decidable (FitsTree ps last) := by
  unfold FitsTree
  infer_instance

/-- A growth loop that ends has doubled the size until the range fits. -/
theorem VManagement.growLoop_eq {ps last : Nat} (hlast : FitsTree ps last) :
    ∀ {fuel m R : Nat}, growLoop fuel last (ps * 2 ^ m) = some R →
      ∃ m', m ≤ m' ∧ R = ps * 2 ^ m' ∧ last ≤ R ∧ (m' = m ∨ R < 2 ^ 64)
  | 0, _, _, h => by cases h
  | fuel + 1, m, R, h => by
    unfold growLoop at h
    split at h
    · rename_i hgt
      have hlt : ps * 2 ^ (m + 1) < 2 ^ 64 := by
        obtain ⟨M, -, hM, hM64⟩ := hlast
        have hps : 0 < ps := by
          rcases Nat.eq_zero_or_pos ps with rfl | hps
          · omega
          · exact hps
        have hmM := (span_lt_iff hps).1 (show ps * 2 ^ m < ps * 2 ^ M by omega)
        exact Nat.lt_of_le_of_lt ((span_le_iff hps).2 hmM) hM64
      have e : u64 (ps * 2 ^ m * 2) = ps * 2 ^ (m + 1) := by
        rw [span_succ, Nat.mul_comm 2] at *
        exact u64_of_lt hlt
      rw [e] at h
      obtain ⟨m', hm, hR, hle, hor⟩ := growLoop_eq hlast h
      refine ⟨m', by omega, hR, hle, .inr ?_⟩
      rcases hor with rfl | hor
      · omega
      · exact hor
    · cases h
      exact ⟨m, Nat.le_refl _, rfl, by omega, .inl rfl⟩

/-- The loop does not leave size `0`. -/
theorem VManagement.growLoop_zero {last : Nat} (hpos : 0 < last) :
    ∀ fuel, growLoop fuel last 0 = none
  | 0 => rfl
  | fuel + 1 => by
    unfold growLoop
    rw [if_pos hpos]
    exact growLoop_zero hpos fuel

/-! ## Page-aligned tickets -/

/-- A ticket for whole pages, and where it may be placed: on a sequential blob anywhere, when
nothing is outstanding; on any other blob at most at `max_size`, if it is not an append. -/
def Placed (seq : Bool) (o : ObjInfo) (query : Query) (append : Bool) : Prop :=
  0 < o.pageSize ∧ 0 < query.size ∧ o.pageSize ∣ query.size ∧
    FitsTree o.pageSize (assigned o query append).last ∧
    (append = false → o.pageSize ∣ query.offset) ∧
    (seq = true → o.intervals = []) ∧
    (seq = false → append = false → query.offset ≤ o.maxSize)

instance (seq : Bool) (o : ObjInfo) (query : Query) (append : Bool) :
    Decidable (Placed seq o query append) := by
  unfold Placed
  infer_instance

/-- Fewer than `2 ^ 32` tickets on each blob, and every ticket is `Placed`; `seq` tells which
blobs are written one write at a time. -/
def TicketOk (seq : Nat → Bool) (h : VmHistory) : VmRequest → Prop
  | .getTicket query append =>
    (h.issued query.id).length + 1 < 2 ^ 32 ∧
      ∀ o, h.vm.objHash query.id = some o → Placed (seq query.id) o query append
  | _ => True

instance (seq : Nat → Bool) (h : VmHistory) (req : VmRequest) : Decidable (TicketOk seq h req) :=
  match req with
  | .getTicket .. => inferInstanceAs (Decidable (_ ∧ _))
  | .getRoot .. | .clone .. | .publish _ | .create .. | .getObjcount => .isTrue trivial

/-! ## The shape of the trees -/

/-- The trees of a blob against the tickets issued on it. -/
structure Geometry (seq : Bool) (id : Nat) (o : ObjInfo) (issued : List Query) : Prop where
  pageSize : ∀ {r}, r ∈ o.allRoots → r.pageSize = o.pageSize
  offset : ∀ {r}, r ∈ o.allRoots → r.node.offset = 0
  size : ∀ {r}, r ∈ o.allRoots →
    r.node.size = 0 ∨ ∃ m, r.node.size = o.pageSize * 2 ^ m ∧ r.node.size < 2 ^ 64
  current : ∀ {r}, r ∈ o.allRoots → o.pageSize ∣ r.currentSize ∧ r.currentSize ≤ r.node.size
  own : ∀ {t r}, 1 ≤ t → o.allRoots[t]? = some r → r.node.id = id
  fits : ∀ {t r q}, o.allRoots[t + 1]? = some r → issued[t]? = some q →
    0 < o.pageSize ∧ o.pageSize ∣ q.offset ∧ o.pageSize ∣ q.size ∧ 0 < q.size ∧
      q.last ≤ r.node.size
  mono : ∀ {t r r'}, o.allRoots[t]? = some r → o.allRoots[t + 1]? = some r' →
    r.node.size ≤ r'.node.size
  dense : seq = false → ∀ {t : Nat} {r : Root} {q : Query}, o.allRoots[t]? = some r →
    issued[t]? = some q → r.node.size = 0 ∨ q.offset ≤ r.node.size
  maxSize : ∃ r, o.allRoots[issued.length]? = some r ∧
    (r.node.size = o.maxSize ∨ r.node.size = 0 ∧ o.maxSize = o.pageSize)
  progress : o.pageSize ∣ o.progressSize ∧ o.progressSize ≤ o.maxSize

namespace Geometry

variable {seq : Bool} {id : Nat} {o : ObjInfo} {issued : List Query} {published : List Nat}

/-- A blob with one root and no tickets. -/
theorem single {r : Root} {maxSize : Nat} (ho : r.node.offset = 0)
    (hs : r.node.size = 0 ∨ ∃ m, r.node.size = r.pageSize * 2 ^ m ∧ r.node.size < 2 ^ 64)
    (hc : r.pageSize ∣ r.currentSize ∧ r.currentSize ≤ r.node.size)
    (hm : r.node.size = maxSize ∨ r.node.size = 0 ∧ maxSize = r.pageSize) :
    Geometry seq id { roots := [r], maxSize := maxSize, progressSize := r.currentSize } [] := by
  have hall : ObjInfo.allRoots
      { roots := [r], maxSize := maxSize, progressSize := r.currentSize } = [r] := rfl
  have hps : ObjInfo.pageSize
      { roots := [r], maxSize := maxSize, progressSize := r.currentSize } = r.pageSize := rfl
  constructor
  · intro r' hr'
    rw [hall, List.mem_singleton] at hr'
    rw [hr', hps]
  · intro r' hr'
    rw [hall, List.mem_singleton] at hr'
    rw [hr', ho]
  · intro r' hr'
    rw [hall, List.mem_singleton] at hr'
    rw [hr', hps]
    exact hs
  · intro r' hr'
    rw [hall, List.mem_singleton] at hr'
    rw [hr', hps]
    exact hc
  · intro t r' ht hr'
    rw [hall, List.getElem?_eq_none (by simpa using ht)] at hr'
    cases hr'
  · intro t r' q _ hq
    simp at hq
  · intro t r1 r2 _ h2
    rw [hall, List.getElem?_eq_none (by simp)] at h2
    cases h2
  · intro _ t r' q _ hq
    simp at hq
  · exact ⟨r, rfl, hm⟩
  · refine ⟨hc.1, ?_⟩
    have := hc.2
    show r.currentSize ≤ maxSize
    omega

theorem publish_step (h : Geometry seq id o issued) (hpos : 0 < o.roots.length) (v : Nat) :
    Geometry seq id (publishObj o v) issued := by
  have hall := ObjInfo.publishObj_allRoots o v
  have hps := ObjInfo.pageSize_of_isPrefix hpos (o.publishObj_isPrefix v)
  constructor <;> simp only [hall, hps]
  · exact h.pageSize
  · exact h.offset
  · exact h.size
  · exact h.current
  · exact h.own
  · exact h.fits
  · exact h.mono
  · exact h.dense
  · exact h.maxSize
  · exact h.progress

/-- Trees do not shrink. -/
theorem size_le (h : Geometry seq id o issued) {t t' : Nat} {r r' : Root}
    (hr : o.allRoots[t]? = some r) (hr' : o.allRoots[t']? = some r') (hle : t ≤ t') :
    r.node.size ≤ r'.node.size := by
  induction t' generalizing r' with
  | zero =>
    have e : t = 0 := by omega
    rw [e, hr'] at hr
    cases hr
    exact Nat.le_refl _
  | succ t' ih =>
    by_cases he : t = t' + 1
    · rw [he, hr'] at hr
      cases hr
      exact Nat.le_refl _
    · have hlt : t' < o.allRoots.length := by
        have := (List.getElem?_eq_some_iff.1 hr').1
        omega
      have hmid := List.getElem?_eq_getElem hlt
      exact (ih hmid (by omega)).trans (h.mono hmid hr')

/-- The growth of a ticket: the new tree holds the ticket and the trees before it. -/
theorem grow_eq (h : Geometry seq id o issued) {last R : Nat}
    (hpos : 0 < last) (hlast : FitsTree o.pageSize last) (hg : grow last o.maxSize = some R)
    (hle : o.pageSize ≤ last) :
    ∃ m, R = o.pageSize * 2 ^ m ∧ R < 2 ^ 64 ∧ last ≤ R ∧ o.maxSize ≤ R := by
  have key : ∀ m0, o.maxSize = o.pageSize * 2 ^ m0 → o.maxSize < 2 ^ 64 →
      ∃ m, R = o.pageSize * 2 ^ m ∧ R < 2 ^ 64 ∧ last ≤ R ∧ o.maxSize ≤ R := by
    intro m0 hm0 hlt
    rw [hm0, grow] at hg
    obtain ⟨m, hm, hR, hle, hor⟩ := VManagement.growLoop_eq hlast hg
    refine ⟨m, hR, ?_, hle, ?_⟩
    · rcases hor with rfl | hor
      · rw [hR, ← hm0]
        exact hlt
      · exact hor
    · rw [hm0, hR]
      exact Nat.mul_le_mul_left _ (Nat.pow_le_pow_right (by omega) hm)
  obtain ⟨r, hr, hor⟩ := h.maxSize
  rcases hor with hmax | ⟨-, hmax⟩
  · rcases h.size (List.mem_of_getElem? hr) with h0 | ⟨m0, hm0, hlt⟩
    · rw [← hmax, h0, grow, VManagement.growLoop_zero hpos] at hg
      cases hg
    · exact key m0 (by omega) (by omega)
  · obtain ⟨m, -, hm, hm64⟩ := hlast
    exact key 0 (by simpa using hmax) (by omega)

theorem assigned_offset (h : Geometry seq id o issued) {query : Query} {append : Bool}
    (hok : Placed seq o query append) : o.pageSize ∣ (assigned o query append).offset ∧
      (seq = false → (assigned o query append).offset ≤ o.maxSize) := by
  obtain ⟨-, -, -, -, h1, -, h2⟩ := hok
  cases append with
  | true => exact ⟨h.progress.1, fun _ => h.progress.2⟩
  | false => exact ⟨h1 rfl, fun hs => h2 hs rfl⟩

/-- The roots by version after a ticket. -/
theorem ticket_allRoots (hw : Window id o issued published) (hb : issued.length + 1 < 2 ^ 32)
    (query : Query) (R : Nat) :
    (ticket o query R).allRoots = o.allRoots ++ [newRoot o query R] := by
  have hi := hw.ticket_intervals hb query R
  show o.roots ++ (ticket o query R).intervals.map (·.root) = _
  rw [hi]
  simp [ObjInfo.allRoots]

theorem allRoots_length (hw : Window id o issued published) :
    o.allRoots.length = issued.length + 1 := by
  rw [ObjInfo.allRoots, List.length_append, List.length_map]
  exact hw.pending.count

/-- A root that may come after those of the blob, for a ticket `q`. -/
structure Next (seq : Bool) (id : Nat) (o : ObjInfo) (q : Query) (r : Root) : Prop where
  pageSize : r.pageSize = o.pageSize
  offset : r.node.offset = 0
  size : ∃ m, r.node.size = o.pageSize * 2 ^ m ∧ r.node.size < 2 ^ 64
  current : o.pageSize ∣ r.currentSize ∧ r.currentSize ≤ r.node.size
  own : r.node.id = id
  fits : 0 < o.pageSize ∧ o.pageSize ∣ q.offset ∧ o.pageSize ∣ q.size ∧ 0 < q.size ∧
    q.last ≤ r.node.size
  larger : o.maxSize ≤ r.node.size
  dense : seq = false → q.offset ≤ o.maxSize

/-- The last root is not larger than `max_size`. -/
theorem last_le_maxSize (h : Geometry seq id o issued) {r : Root}
    (hr : o.allRoots[issued.length]? = some r) : r.node.size ≤ o.maxSize := by
  obtain ⟨r', hr', hor⟩ := h.maxSize
  rw [hr] at hr'
  cases hr'
  omega

/-- The trees of a blob with one more ticket and one more root. -/
theorem append (h : Geometry seq id o issued) (hlen : o.allRoots.length = issued.length + 1)
    {q : Query} {r : Root} (hnext : Next seq id o q r) {o' : ObjInfo}
    (hall : o'.allRoots = o.allRoots ++ [r]) (hps : o'.pageSize = o.pageSize)
    (hmax : o'.maxSize = r.node.size)
    (hprogress : o.pageSize ∣ o'.progressSize ∧ o'.progressSize ≤ o'.maxSize) :
    Geometry seq id o' (issued ++ [q]) := by
  have hmem : ∀ {r'}, r' ∈ o.allRoots ++ [r] → r' ∈ o.allRoots ∨ r' = r := fun hr' =>
    (List.mem_append.1 hr').imp_right List.mem_singleton.1
  constructor
  · intro r' hr'
    rw [hps]
    rcases hmem (hall ▸ hr') with hr' | rfl
    · exact h.pageSize hr'
    · exact hnext.pageSize
  · intro r' hr'
    rcases hmem (hall ▸ hr') with hr' | rfl
    · exact h.offset hr'
    · exact hnext.offset
  · intro r' hr'
    rw [hps]
    rcases hmem (hall ▸ hr') with hr' | rfl
    · exact h.size hr'
    · exact .inr hnext.size
  · intro r' hr'
    rw [hps]
    rcases hmem (hall ▸ hr') with hr' | rfl
    · exact h.current hr'
    · exact hnext.current
  · intro t r' ht hr'
    rcases getElem?_concat (hall ▸ hr') with hr' | ⟨-, rfl⟩
    · exact h.own ht hr'
    · exact hnext.own
  · intro t r' p hr' hp
    rw [hps]
    rcases getElem?_concat hp with hp | ⟨ht, rfl⟩
    · have hlt := (List.getElem?_eq_some_iff.1 hp).1
      rcases getElem?_concat (hall ▸ hr') with hr' | ⟨hlast, -⟩
      · exact h.fits hr' hp
      · omega
    · rcases getElem?_concat (hall ▸ hr') with hr' | ⟨-, rfl⟩
      · have hlt := (List.getElem?_eq_some_iff.1 hr').1
        omega
      · exact hnext.fits
  · intro t r1 r2 hr1 hr2
    rw [hall] at hr1
    rcases getElem?_concat (hall ▸ hr2) with hr2 | ⟨ht, rfl⟩
    · have hlt := (List.getElem?_eq_some_iff.1 hr2).1
      rw [List.getElem?_append_left (by omega)] at hr1
      exact h.mono hr1 hr2
    · rw [List.getElem?_append_left (by omega)] at hr1
      have hlast : t = issued.length := by omega
      rw [hlast] at hr1
      exact (h.last_le_maxSize hr1).trans hnext.larger
  · intro hseq t r' p hr' hp
    rw [hall] at hr'
    rcases getElem?_concat hp with hp | ⟨rfl, rfl⟩
    · have hlt := (List.getElem?_eq_some_iff.1 hp).1
      rw [List.getElem?_append_left (by omega)] at hr'
      exact h.dense hseq hr' hp
    · rw [List.getElem?_append_left (by omega)] at hr'
      obtain ⟨r1, hr1, hor⟩ := h.maxSize
      rw [hr'] at hr1
      cases hr1
      have hoff := hnext.dense hseq
      omega
  · refine ⟨r, ?_, .inl hmax.symm⟩
    rw [hall, List.length_append, List.length_singleton, ← hlen]
    exact List.getElem?_concat_length
  · rw [hps]
    exact hprogress

/-- A new root holds the bytes that were there before. -/
theorem current_le (hw : Window id o issued published) (h : Geometry seq id o issued) :
    o.lastRoot.currentSize ≤ o.maxSize := by
  have hroots := hw.pending.roots_pos
  have hidx := ObjInfo.allRoots_of_roots (o.lastRoot_eq hroots)
  obtain ⟨r', hr', -⟩ := h.maxSize
  have hcount := hw.pending.count
  have hmono := h.size_le hidx hr' (by omega)
  have hlast := h.last_le_maxSize hr'
  have hcur := (h.current (ObjInfo.mem_allRoots (o.lastRoot_mem hroots))).2
  omega

theorem ticket_step (hw : Window id o issued published) (h : Geometry seq id o issued)
    (hb : issued.length + 1 < 2 ^ 32) {query : Query} {append : Bool} {R version : Nat}
    (hid : query.id = id) (hok : Placed seq o query append)
    (hg : grow (u64 ((assigned o query append).offset + (assigned o query append).size))
      o.maxSize = some R) :
    Geometry seq id (ticket o (assigned o query append) R)
      (issued ++ [{ assigned o query append with version := version }]) := by
  obtain ⟨hoff, hdense⟩ := h.assigned_offset hok
  have hqid : (assigned o query append).id = id := by rw [VManagement.assigned_id, hid]
  have hqsize := VManagement.assigned_size o query append
  obtain ⟨hps, hsize, hdvd, hlast, -, -, -⟩ := hok
  generalize assigned o query append = q at *
  rw [← hqsize] at hsize hdvd
  have hu : u64 (q.offset + q.size) = q.last := by
    obtain ⟨m, -, hm, hm64⟩ := hlast
    exact u64_of_lt (Nat.lt_of_le_of_lt hm hm64)
  rw [hu] at hg
  have hmem : o.lastRoot ∈ o.allRoots := ObjInfo.mem_allRoots (o.lastRoot_mem hw.pending.roots_pos)
  have hge : q.size ≤ q.last := Nat.le_add_left _ _
  have hpsle : o.pageSize ≤ q.last := (Nat.le_of_dvd hsize hdvd).trans hge
  obtain ⟨m, hR, hR64, hlastR, hmaxR⟩ := h.grow_eq (by omega) hlast hg hpsle
  have hlastdvd : o.pageSize ∣ q.last := Nat.dvd_add hoff hdvd
  have hcurrent : o.pageSize ∣ (newRoot o q R).currentSize ∧ (newRoot o q R).currentSize ≤ R := by
    have hnew : (newRoot o q R).currentSize =
        if q.last > o.lastRoot.currentSize then q.last else o.lastRoot.currentSize := by
      simp only [newRoot, hu]
    rw [hnew]
    split
    · exact ⟨hlastdvd, hlastR⟩
    · exact ⟨(h.current hmem).1, (current_le hw h).trans hmaxR⟩
  have hnext : Next seq id o { q with version := version } (newRoot o q R) :=
    { pageSize := (h.pageSize hmem :)
      offset := (h.offset hmem :)
      size := ⟨m, hR, hR64⟩
      current := hcurrent
      own := hqid
      fits := ⟨hps, hoff, hdvd, hsize, hlastR⟩
      larger := hmaxR
      dense := hdense }
  refine h.append (allRoots_length hw) hnext (ticket_allRoots hw hb q R) rfl rfl ?_
  have hprogress : (ticket o q R).progressSize =
      if q.last > o.lastRoot.currentSize then q.last else o.progressSize := by
    simp only [ticket, hu]
  rw [hprogress]
  split
  · exact ⟨hlastdvd, hlastR⟩
  · exact ⟨h.progress.1, h.progress.2.trans hmaxR⟩

end Geometry

/-- The invariant of every blob in every run of page-aligned tickets. -/
structure Blob (seq : Nat → Bool) (id : Nat) (o : ObjInfo) (issued : List Query)
    (published : List Nat) : Prop where
  window : Window id o issued published
  geometry : Geometry (seq id) id o issued

theorem Blob.objInv {seq : Nat → Bool} {h : VmHistory} {reqs : List VmRequest}
    (hrun : Run VmHistory.step (TicketOk seq) {} reqs h) : VmHistory.ObjInv (Blob seq) h := by
  refine VmHistory.objInv (P := Blob seq) ?_ ?_ ?_ ?_ hrun
  · intro id ps rc
    exact ⟨Window.single _ _ _ _,
      Geometry.single rfl (.inl rfl) ⟨Nat.dvd_zero _, Nat.le_refl _⟩ (.inr ⟨rfl, rfl⟩)⟩
  · intro id o issued published newId version hb _
    have hmem := ObjInfo.mem_allRoots
      (VManagement.rootAt_mem hb.window.pending.roots_pos version)
    have hps := hb.geometry.pageSize hmem
    refine ⟨Window.single _ _ _ _, Geometry.single (hb.geometry.offset hmem) ?_ ?_ (.inl rfl)⟩
    · rw [hps]
      exact hb.geometry.size hmem
    · rw [hps]
      exact hb.geometry.current hmem
  · intro h query append o maxSize hb hok ho hg
    exact ⟨hb.window.ticket_step hok.1 (VManagement.assigned_id _ _ _) _,
      hb.geometry.ticket_step hb.window hok.1 rfl (hok.2 o ho) hg⟩
  · intro id o issued published version hb hc
    exact ⟨hb.window.publish_step hc,
      hb.geometry.publish_step hb.window.pending.roots_pos version⟩

end BlobSeer
