import BlobSeer.VManager.Geometry

/-!
# The growth of a tree

`get_ticket` doubles `max_size` until the request fits. The loop ends because `max_size` is the page
size times a power of two (`growLoop_least`); the only other value it can have is `0`, after a clone
of a blob with no data, and from `0` the loop does not get anywhere (`growth_iff`).
-/

namespace BlobSeer

open Lib (Run span_succ span_le_iff)
open VManagement (rootAt grow growLoop newRoot ticket assigned publishObj)

/-! ## The loop -/

/-- The sizes that a tree of pages of `ps` bytes may have. -/
def IsSpan (ps size : Nat) : Prop := ∃ k, size = ps * 2 ^ k

/-- `size` is the least span that is at least `old` and `last`. -/
structure LeastSpan (ps old last size : Nat) : Prop where
  span : IsSpan ps size
  old_le : old ≤ size
  last_le : last ≤ size
  least : ∀ size', IsSpan ps size' → old ≤ size' → last ≤ size' → size ≤ size'

/-- From a span the loop gets to the least one that is large enough. The size is below `2 ^ 63` when it
is doubled, so it stays below `2 ^ 64`. -/
theorem VManagement.growLoop_least {ps last : Nat} (hlast : last ≤ 2 ^ 63) :
    ∀ {fuel k : Nat}, last ≤ ps * 2 ^ (k + fuel) →
      ∃ size, growLoop (fuel + 1) last (ps * 2 ^ k) = some size ∧
        LeastSpan ps (ps * 2 ^ k) last size
  | fuel, k, hfuel => by
    rw [growLoop]
    by_cases hgt : last > ps * 2 ^ k
    · obtain ⟨fuel, rfl⟩ : ∃ n, fuel = n + 1 := by
        refine ⟨fuel - 1, ?_⟩
        rcases Nat.eq_zero_or_pos fuel with rfl | hpos
        · exact absurd hfuel (Nat.not_le.mpr hgt)
        · omega
      have hdouble : u64 (ps * 2 ^ k * 2) = ps * 2 ^ (k + 1) := by
        rw [span_succ, Nat.mul_comm 2]
        exact u64_of_lt (by omega)
      have hfuel' : last ≤ ps * 2 ^ (k + 1 + fuel) := by
        rw [Nat.add_assoc, Nat.add_comm 1]
        exact hfuel
      obtain ⟨size, hsize, hleast⟩ := growLoop_least hlast hfuel'
      rw [if_pos hgt, hdouble]
      refine ⟨size, hsize, hleast.span, ?_, hleast.last_le, ?_⟩
      · have hstep := span_succ ps k
        have hle := hleast.old_le
        omega
      · rintro size' ⟨j, rfl⟩ hold hlast'
        refine hleast.least _ ⟨j, rfl⟩ ?_ hlast'
        -- a span that holds the range is beyond the old one
        have hps : 0 < ps := by
          rcases Nat.eq_zero_or_pos ps with rfl | hps
          · omega
          · exact hps
        have hlt : k < j := by
          by_contra hge
          have hle := (span_le_iff hps).mpr (Nat.not_lt.mp hge)
          omega
        exact (span_le_iff hps).mpr hlt
    · rw [if_neg hgt]
      exact ⟨_, rfl, ⟨k, rfl⟩, Nat.le_refl _, Nat.not_lt.mp hgt, fun _ _ hold _ => hold⟩

/-- The loop ends, at the least span, exactly when it does not start at `0`. -/
theorem VManagement.grow_least_iff {ps maxSize last : Nat} (hps : 0 < ps)
    (hmax : maxSize = 0 ∨ IsSpan ps maxSize) (hlast : last ≤ 2 ^ 63) :
    (∃ size, grow last maxSize = some size ∧ LeastSpan ps maxSize last size) ↔ 0 < maxSize := by
  have hpow : ∀ k, 0 < ps * 2 ^ k := fun k => Nat.mul_pos hps (Nat.two_pow_pos k)
  constructor
  · rintro ⟨size, hgrow, hleast⟩
    by_contra hzero
    have hzero : maxSize = 0 := by omega
    subst hzero
    obtain ⟨k, hk⟩ := hleast.span
    rcases Nat.eq_zero_or_pos last with rfl | hpos
    · cases hgrow
      exact absurd hk (hpow k).ne
    · rw [grow, VManagement.growLoop_zero hpos] at hgrow
      cases hgrow
  · intro hpos
    obtain ⟨k, rfl⟩ := hmax.resolve_left hpos.ne'
    refine growLoop_least hlast ?_
    have hge : 1 * 2 ^ 64 ≤ ps * 2 ^ (k + 64) := by
      rw [Nat.pow_add, ← Nat.mul_assoc]
      exact Nat.mul_le_mul_right _ (hpow k)
    omega

/-! ## The shape of a tree -/

/-- What the sizes of a blob are like, for tickets up to `2 ^ 63`. -/
structure Shape (o : ObjInfo) : Prop where
  pageSize : ∀ {r}, r ∈ o.allRoots → r.pageSize = o.pageSize
  maxSize : o.maxSize = 0 ∨ IsSpan o.pageSize o.maxSize
  size : ∀ {r}, r ∈ o.allRoots → r.node.size = 0 ∨ IsSpan o.pageSize r.node.size
  size_le : ∀ {r}, r ∈ o.allRoots → r.node.size ≤ o.maxSize
  current : ∀ {r}, r ∈ o.allRoots → r.currentSize ≤ r.node.size
  sorted : o.allRoots.Pairwise fun r r' => r.node.size ≤ r'.node.size

namespace Shape

variable {o : ObjInfo}

/-- A blob with one root and no tickets. -/
theorem single {r : Root} {maxSize progressSize : Nat}
    (hmax : maxSize = 0 ∨ IsSpan r.pageSize maxSize)
    (hsize : r.node.size = 0 ∨ IsSpan r.pageSize r.node.size) (hle : r.node.size ≤ maxSize)
    (hcurrent : r.currentSize ≤ r.node.size) :
    Shape { roots := [r], maxSize := maxSize, progressSize := progressSize } := by
  have hone : ∀ {r'}, r' ∈ ObjInfo.allRoots
      { roots := [r], maxSize := maxSize, progressSize := progressSize } → r' = r :=
    fun h => List.mem_singleton.mp h
  refine ⟨fun h => ?_, hmax, fun h => ?_, fun h => ?_, fun h => ?_, List.pairwise_singleton _ r⟩
  · rw [hone h]
    rfl
  · rw [hone h]
    exact hsize
  · rw [hone h]
    exact hle
  · rw [hone h]
    exact hcurrent

theorem new (id ps rc : Nat) : Shape (ObjInfo.new id ps rc) :=
  single (.inr ⟨0, (Nat.mul_one ps).symm⟩) (.inl rfl) (Nat.zero_le _) (Nat.le_refl _)

/-- A clone takes its size from the root that it starts from. -/
theorem ofRoot (h : Shape o) {r : Root} (hr : r ∈ o.roots) : Shape (ObjInfo.ofRoot r) := by
  have hmem := ObjInfo.mem_allRoots hr
  have hsize := h.size hmem
  rw [← h.pageSize hmem] at hsize
  exact single hsize hsize (Nat.le_refl _) (h.current hmem)

theorem publish (h : Shape o) (hpos : 0 < o.roots.length) (v : Nat) : Shape (publishObj o v) := by
  have hall := ObjInfo.publishObj_allRoots o v
  have hps := ObjInfo.pageSize_of_isPrefix hpos (o.publishObj_isPrefix v)
  constructor
  · rw [hall, hps]
    exact h.pageSize
  · rw [hps]
    exact h.maxSize
  · rw [hall, hps]
    exact h.size
  · rw [hall]
    exact h.size_le
  · rw [hall]
    exact h.current
  · rw [hall]
    exact h.sorted

/-- The new size of a ticket for a range that ends at most at `2 ^ 63`. -/
theorem grow (h : Shape o) {last size : Nat} (hlast : last ≤ 2 ^ 63)
    (hgrow : VManagement.grow last o.maxSize = some size) :
    (size = 0 ∨ IsSpan o.pageSize size) ∧ o.maxSize ≤ size ∧ last ≤ size := by
  rcases Nat.eq_zero_or_pos o.maxSize with hzero | hpos
  · rw [hzero] at hgrow ⊢
    rcases Nat.eq_zero_or_pos last with rfl | hpos
    · cases hgrow
      exact ⟨.inl rfl, Nat.le_refl _, Nat.le_refl _⟩
    · rw [VManagement.grow, VManagement.growLoop_zero hpos] at hgrow
      cases hgrow
  · have hps : 0 < o.pageSize := by
      obtain ⟨k, hk⟩ := h.maxSize.resolve_left hpos.ne'
      rcases Nat.eq_zero_or_pos o.pageSize with hps | hps
      · rw [hps, Nat.zero_mul] at hk
        omega
      · exact hps
    obtain ⟨size', hgrow', hleast⟩ :=
      (VManagement.grow_least_iff hps h.maxSize hlast).mpr hpos
    rw [hgrow'] at hgrow
    cases hgrow
    exact ⟨.inr hleast.span, hleast.old_le, hleast.last_le⟩

theorem ticket {id : Nat} {issued : List Query} {published : List Nat} (h : Shape o)
    (hw : Window id o issued published) (hb : issued.length + 1 < 2 ^ 32) {query : Query}
    {size : Nat} (hlast : query.last ≤ 2 ^ 63)
    (hgrow : VManagement.grow (u64 (query.offset + query.size)) o.maxSize = some size) :
    Shape (VManagement.ticket o query size) := by
  have hu : u64 (query.offset + query.size) = query.last :=
    u64_of_lt (Nat.lt_of_le_of_lt hlast (by decide))
  rw [hu] at hgrow
  obtain ⟨hspan, hmax, hle⟩ := h.grow hlast hgrow
  have hall := Geometry.ticket_allRoots hw hb query size
  have hmem : o.lastRoot ∈ o.allRoots := ObjInfo.mem_allRoots (o.lastRoot_mem hw.pending.roots_pos)
  have hcases : ∀ {r}, r ∈ (VManagement.ticket o query size).allRoots →
      r ∈ o.allRoots ∨ r = newRoot o query size := by
    intro r hr
    rw [hall] at hr
    rcases List.mem_append.mp hr with hr | hr
    · exact .inl hr
    · exact .inr (List.mem_singleton.mp hr)
  constructor
  · intro r hr
    rcases hcases hr with hr | rfl
    · exact h.pageSize hr
    · exact (h.pageSize hmem :)
  · exact hspan
  · intro r hr
    rcases hcases hr with hr | rfl
    · exact h.size hr
    · exact hspan
  · intro r hr
    rcases hcases hr with hr | rfl
    · exact (h.size_le hr).trans hmax
    · exact Nat.le_refl _
  · intro r hr
    rcases hcases hr with hr | rfl
    · exact h.current hr
    · -- the current size is that of the latest root, or the end of the range
      have hcurrent := (h.current hmem).trans ((h.size_le hmem).trans hmax)
      show (if u64 (query.offset + query.size) > o.lastRoot.currentSize then
        u64 (query.offset + query.size) else o.lastRoot.currentSize) ≤ size
      rw [hu]
      split
      · exact hle
      · exact hcurrent
  · rw [hall]
    refine List.pairwise_append.mpr ⟨h.sorted, List.pairwise_singleton _ _, fun r hr r' hr' => ?_⟩
    rw [List.mem_singleton.mp hr']
    exact (h.size_le hr).trans hmax

end Shape

/-! ## Runs -/

/-- Fewer than `2 ^ 32` tickets on every blob, for ranges that end at most at `2 ^ 63`. -/
def GrowthSafe (h : VmHistory) : VmRequest → Prop
  | .getTicket query append => TicketsFit h (.getTicket query append) ∧
      ∀ o ∈ h.vm.objHash query.id, (assigned o query append).last ≤ 2 ^ 63
  | _ => True

instance (h : VmHistory) (req : VmRequest) : Decidable (GrowthSafe h req) :=
  match req with
  | .getTicket .. => inferInstanceAs (Decidable (_ ∧ _))
  | .getRoot .. | .clone .. | .publish _ | .create .. | .getObjcount => .isTrue trivial

namespace VmHistory

/-- Every blob of every run has its shape. -/
theorem shape {h : VmHistory} {reqs : List VmRequest} (hrun : Run step GrowthSafe {} reqs h) :
    ObjInv (fun id o issued published => Window id o issued published ∧ Shape o) h := by
  refine objInv ?_ ?_ ?_ ?_ hrun
  · exact fun id ps rc => ⟨Window.single _ _ _ _, .new id ps rc⟩
  · intro id o issued published newId version h _
    exact ⟨Window.single _ _ _ _, h.2.ofRoot (VManagement.rootAt_mem h.1.pending.roots_pos version)⟩
  · rintro h query append o maxSize ⟨hw, hshape⟩ ⟨hb, hlast⟩ ho hgrow
    exact ⟨hw.ticket_step hb (VManagement.assigned_id _ _ _) _, hshape.ticket hw hb (hlast o ho) hgrow⟩
  · intro id o issued published version h hc
    exact ⟨h.1.publish_step hc, h.2.publish h.1.pending.roots_pos version⟩

theorem ticket_maxSize_le {h : VmHistory} {reqs : List VmRequest}
    (hrun : Run step GrowthSafe {} reqs h) {query : Query} {append : Bool}
    (hok : GrowthSafe h (.getTicket query append)) {o : ObjInfo}
    (ho : h.vm.objHash query.id = some o) {maxSize : Nat}
    (hgrow : grow (u64 ((assigned o query append).offset + (assigned o query append).size))
      o.maxSize = some maxSize) : o.maxSize ≤ maxSize := by
  have hlast := hok.2 o ho
  have hu : u64 ((assigned o query append).offset + (assigned o query append).size) =
      (assigned o query append).last := u64_of_lt (Nat.lt_of_le_of_lt hlast (by decide))
  rw [hu] at hgrow
  exact (((shape hrun).obj ho).2.grow hlast hgrow).2.1

/-- `max_size` never decreases. -/
theorem step_maxSize {h h' : VmHistory} {reqs : List VmRequest} {req : VmRequest}
    (hrun : Run step GrowthSafe {} reqs h) (hok : GrowthSafe h req) (hs : h.step req = some h')
    {id : Nat} {o : ObjInfo} (ho : h.vm.objHash id = some o) :
    ∃ o', h'.vm.objHash id = some o' ∧ o.maxSize ≤ o'.maxSize := by
  have hinv := shape hrun
  have hnew : ∀ p, (h.vm.addObj p).objHash id = some o := by
    intro p
    have hne : id ≠ h.vm.objCount + 1 := by
      have := hinv.id_le ho
      omega
    exact (Function.update_of_ne hne _ _).trans ho
  have hset : ∀ {i : Nat} {p p' : ObjInfo}, h.vm.objHash i = some p → p.maxSize ≤ p'.maxSize →
      ∃ o', (h.vm.setObj i p').objHash id = some o' ∧ o.maxSize ≤ o'.maxSize := by
    intro i p p' hp hle
    by_cases he : id = i
    · subst he
      rw [ho] at hp
      cases hp
      exact ⟨p', Function.update_self .., hle⟩
    · exact ⟨o, (Function.update_of_ne he _ _).trans ho, Nat.le_refl _⟩
  obtain rfl | ⟨ps, rc, -, rfl⟩ | ⟨i, version, p, -, hp, rfl⟩ |
    ⟨query, append, p, maxSize, rfl, hp, hgrow, rfl⟩ | ⟨interval, p, -, hp, -, rfl⟩ := step_cases hs
  · exact ⟨o, ho, Nat.le_refl _⟩
  · exact ⟨o, hnew _, Nat.le_refl _⟩
  · exact ⟨o, hnew _, Nat.le_refl _⟩
  · exact hset hp (ticket_maxSize_le hrun hok hp hgrow)
  · exact hset hp (Nat.le_refl _)

theorem run_maxSize {h h' : VmHistory} {reqs reqs' : List VmRequest}
    (hrun : Run step GrowthSafe {} reqs h) (hrun' : Run step GrowthSafe h reqs' h') {id : Nat}
    {o : ObjInfo} (ho : h.vm.objHash id = some o) :
    ∃ o', h'.vm.objHash id = some o' ∧ o.maxSize ≤ o'.maxSize := by
  induction hrun' generalizing reqs o with
  | nil => exact ⟨o, ho, Nat.le_refl _⟩
  | cons hok hs _ ih =>
    obtain ⟨o₁, ho₁, hle₁⟩ := step_maxSize hrun hok hs ho
    obtain ⟨o₂, ho₂, hle₂⟩ := ih (hrun.append (.single hok hs)) ho₁
    exact ⟨o₂, ho₂, hle₁.trans hle₂⟩

/-- Moreover, clones are made of roots with data only. -/
def WrittenClones (h : VmHistory) (req : VmRequest) : Prop :=
  GrowthSafe h req ∧ ∀ id version, req = .clone id version →
    ∀ o ∈ h.vm.objHash id, 0 < (rootAt o version).node.size

/-- The blobs with a page size have trees of some size. -/
structure TreesPos (h : VmHistory) : Prop where
  run : ∃ reqs, Run step GrowthSafe {} reqs h
  pos : ∀ {id o}, h.vm.objHash id = some o → 0 < o.pageSize → 0 < o.maxSize

theorem TreesPos.step {h h' : VmHistory} {req : VmRequest} (ht : TreesPos h)
    (hok : WrittenClones h req) (hs : h.step req = some h') : TreesPos h' := by
  obtain ⟨reqs, hrun⟩ := ht.run
  have hinv := shape hrun
  have hadd : ∀ {p : ObjInfo}, (0 < p.pageSize → 0 < p.maxSize) → ∀ {i o},
      (h.vm.addObj p).objHash i = some o → 0 < o.pageSize → 0 < o.maxSize := by
    intro p hp i o ho
    by_cases hi : i = h.vm.objCount + 1
    · subst hi
      have ho := (Function.update_self ..).symm.trans ho
      cases ho
      exact hp
    · exact ht.pos ((Function.update_of_ne hi ..).symm.trans ho)
  have hset : ∀ {i : Nat} {p p' : ObjInfo}, h.vm.objHash i = some p → p'.pageSize = p.pageSize →
      p.maxSize ≤ p'.maxSize → ∀ {j o}, (h.vm.setObj i p').objHash j = some o →
        0 < o.pageSize → 0 < o.maxSize := by
    intro i p p' hp hps hle j o ho hpos
    by_cases hj : j = i
    · subst hj
      have ho := (Function.update_self ..).symm.trans ho
      cases ho
      rw [hps] at hpos
      exact Nat.lt_of_lt_of_le (ht.pos hp hpos) hle
    · exact ht.pos ((Function.update_of_ne hj ..).symm.trans ho) hpos
  refine ⟨⟨_, hrun.append (.single hok.1 hs)⟩, ?_⟩
  obtain rfl | ⟨ps, rc, -, rfl⟩ | ⟨i, version, p, rfl, hp, rfl⟩ |
    ⟨query, append, p, maxSize, rfl, hp, hgrow, rfl⟩ | ⟨interval, p, -, hp, -, rfl⟩ := step_cases hs
  · exact ht.pos
  · exact hadd id
  · exact hadd fun _ => hok.2 i version rfl p hp
  · have hps : (ticket p (assigned p query append) maxSize).pageSize = p.pageSize := rfl
    intro i o ho
    exact hset hp hps (ticket_maxSize_le hrun hok.1 hp hgrow) ho
  · exact hset hp (ObjInfo.pageSize_of_isPrefix (hinv.obj hp).1.pending.roots_pos
      (p.publishObj_isPrefix interval.version)) (Nat.le_refl _)

theorem treesPos {h : VmHistory} {reqs : List VmRequest}
    (hrun : Run step WrittenClones {} reqs h) : TreesPos h :=
  hrun.inv (fun ht hok hs => ht.step hok hs) ⟨⟨[], .nil _⟩, fun ho => by cases ho⟩

end VmHistory

/-! ## The law -/

/-- A ticket request is answered, with the least tree that holds the old one and the range. -/
def GrowsRight (h : VmHistory) (o : ObjInfo) (query : Query) (append : Bool) : Prop :=
  ∃ h' o', h.step (.getTicket query append) = some h' ∧ h'.vm.objHash query.id = some o' ∧
    LeastSpan o.pageSize o.maxSize (assigned o query append).last o'.maxSize

theorem growsRight_iff {h : VmHistory} {o : ObjInfo} {query : Query} {append : Bool}
    (ho : h.vm.objHash query.id = some o) (hlast : (assigned o query append).last ≤ 2 ^ 63) :
    GrowsRight h o query append ↔ ∃ size,
      grow (assigned o query append).last o.maxSize = some size ∧
        LeastSpan o.pageSize o.maxSize (assigned o query append).last size := by
  have hu : u64 ((assigned o query append).offset + (assigned o query append).size) =
      (assigned o query append).last := u64_of_lt (Nat.lt_of_le_of_lt hlast (by decide))
  constructor
  · rintro ⟨h', o', hs, ho', hleast⟩
    obtain ⟨size, hgrow, rfl⟩ := VmHistory.step_getTicket ho hs
    rw [hu] at hgrow
    have hset : (h.vm.setObj query.id (ticket o (assigned o query append) size)).objHash query.id =
        some (ticket o (assigned o query append) size) := Function.update_self ..
    have ho' := hset.symm.trans ho'
    cases ho'
    exact ⟨size, hgrow, hleast⟩
  · rintro ⟨size, hgrow, hleast⟩
    rw [← hu] at hgrow
    have hs : h.step (.getTicket query append) = some { h with
        vm := h.vm.setObj query.id (ticket o (assigned o query append) size)
        issued := Function.update h.issued query.id (h.issued query.id ++
          [{ assigned o query append with version := o.currentTicket }]) } := by
      rw [VmHistory.step, VManagement.exec, VManagement.getTicket, ho]
      dsimp only
      rw [hgrow]
      dsimp only
      rw [VmHistory.recordTicket, ho]
      rfl
    exact ⟨_, _, hs, Function.update_self .., hleast⟩

/-- **Tree growth.** In every run with fewer than `2 ^ 32` tickets on each blob and no range beyond
`2 ^ 63`, on every blob with a page size: a request is answered, with the least tree that holds it, if
and only if `max_size` is not `0`; `max_size` never decreases; the sizes of the roots never decrease,
and each root has at most as many bytes as its tree. While only roots with data are cloned, `max_size`
is not `0`. -/
theorem growth_iff {h : VmHistory} {reqs : List VmRequest}
    (hrun : Run VmHistory.step GrowthSafe {} reqs h) {id : Nat} {o : ObjInfo}
    (ho : h.vm.objHash id = some o) (hps : 0 < o.pageSize) :
    (∀ query append, query.id = id → (assigned o query append).last ≤ 2 ^ 63 →
      (GrowsRight h o query append ↔ 0 < o.maxSize)) ∧
    (∀ reqs' h', Run VmHistory.step GrowthSafe h reqs' h' →
      ∃ o', h'.vm.objHash id = some o' ∧ o.maxSize ≤ o'.maxSize) ∧
    (o.roots.Pairwise fun r r' => r.node.size ≤ r'.node.size) ∧
    (∀ r ∈ o.roots, r.currentSize ≤ r.node.size) ∧
    (Run VmHistory.step VmHistory.WrittenClones {} reqs h → 0 < o.maxSize) := by
  have hshape := ((VmHistory.shape hrun).obj ho).2
  refine ⟨?_, ?_, ?_, ?_, ?_⟩
  · rintro query append rfl hlast
    rw [growsRight_iff ho hlast]
    exact VManagement.grow_least_iff hps hshape.maxSize hlast
  · exact fun reqs' h' hrun' => VmHistory.run_maxSize hrun hrun' ho
  · exact hshape.sorted.sublist (List.sublist_append_left _ _)
  · exact fun r hr => hshape.current (ObjInfo.mem_allRoots hr)
  · exact fun hrun' => (VmHistory.treesPos hrun').pos ho hps

/-- A blob of pages of three bytes. -/
theorem growth_three_bytes :
    ∃ h o, Run VmHistory.step GrowthSafe {} [.create 3 1, .getTicket ⟨1, 9, 6, 3⟩ false] h ∧
      h.vm.objHash 1 = some o ∧ o.maxSize = 12 ∧ GrowsRight h o ⟨1, 9, 12, 3⟩ false := by
  obtain ⟨h, o, hrun, ho, hmax, hps⟩ : ∃ h o, Run VmHistory.step GrowthSafe {}
      [.create 3 1, .getTicket ⟨1, 9, 6, 3⟩ false] h ∧ h.vm.objHash 1 = some o ∧
      o.maxSize = 12 ∧ o.pageSize = 3 := ⟨_, _, Run.of_exec rfl, rfl, rfl, rfl⟩
  obtain ⟨hgrow, -⟩ := growth_iff hrun ho (hps ▸ (by decide))
  have hend : 12 + 3 ≤ 2 ^ 63 := by decide
  have hpos : 0 < o.maxSize := by
    rw [hmax]
    decide
  exact ⟨h, o, hrun, ho, hmax, (hgrow ⟨1, 9, 12, 3⟩ false rfl hend).mpr hpos⟩

/-- The version manager does not come back from the first request on a clone of an empty blob. -/
theorem empty_clone_hangs :
    ∃ h o, Run VmHistory.step GrowthSafe {} [.create 4 1, .clone 1 0] h ∧
      h.vm.objHash 2 = some o ∧ o.pageSize = 4 ∧ h.step (.getTicket ⟨2, 9, 0, 4⟩ false) = none ∧
      ¬ GrowsRight h o ⟨2, 9, 0, 4⟩ false := by
  obtain ⟨h, o, hrun, ho, hps, hnone⟩ : ∃ h o, Run VmHistory.step GrowthSafe {}
      [.create 4 1, .clone 1 0] h ∧ h.vm.objHash 2 = some o ∧ o.pageSize = 4 ∧
      h.step (.getTicket ⟨2, 9, 0, 4⟩ false) = none := ⟨_, _, Run.of_exec rfl, rfl, rfl, rfl⟩
  refine ⟨h, o, hrun, ho, hps, hnone, ?_⟩
  rintro ⟨h', o', hs, -⟩
  rw [hnone] at hs
  cases hs

end BlobSeer
