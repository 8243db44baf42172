import BlobSeer.VManager.Window

/-!
# Where appends land, and the sizes of published versions

`get_ticket` keeps two sizes: `progress_size`, where the next append starts, and the
`current_size` of the root it prepares. Both are computed from the latest *published* root, not
from the tickets that are still outstanding. A write whose end lies between the published size
and `progress_size` therefore moves `progress_size` back, and a small write that overtakes an
outstanding larger one is published with too small a size.

`AppendSafe` and `SizeSafe` say when neither happens; under them the two sizes are the running
maxima they are meant to be.
-/

namespace BlobSeer

open Lib (Run getElem?_concat)
open VManagement (rootAt grow newRoot ticket assigned publishObj retire)

/-- The first byte after a range, as an unbounded number. -/
def Query.last (q : Query) : Nat := q.offset + q.size

/-- The largest of a base size and the ends of some tickets. -/
def maxEnd (base : Nat) : List Query → Nat
  | [] => base
  | q :: l => max q.last (maxEnd base l)

theorem maxEnd_append (base : Nat) (l : List Query) (q : Query) :
    maxEnd base (l ++ [q]) = max (maxEnd base l) q.last := by
  induction l with
  | nil => exact Nat.max_comm _ _
  | cons x l ih =>
    simp only [List.cons_append, maxEnd, ih]
    exact (Nat.max_assoc ..).symm

theorem maxEnd_le_iff {base m : Nat} {l : List Query} :
    maxEnd base l ≤ m ↔ base ≤ m ∧ ∀ q ∈ l, q.last ≤ m := by
  induction l with
  | nil => simp [maxEnd]
  | cons x l ih =>
    simp only [maxEnd, Nat.max_le, ih, List.mem_cons, forall_eq_or_imp]
    exact ⟨fun ⟨a, b, c⟩ => ⟨b, a, c⟩, fun ⟨b, a, c⟩ => ⟨a, b, c⟩⟩

theorem le_maxEnd {base : Nat} {l : List Query} :
    base ≤ maxEnd base l ∧ ∀ q ∈ l, q.last ≤ maxEnd base l :=
  maxEnd_le_iff.1 (Nat.le_refl _)

theorem maxEnd_mem (base : Nat) (l : List Query) :
    maxEnd base l = base ∨ ∃ q ∈ l, maxEnd base l = q.last := by
  induction l with
  | nil => exact .inl rfl
  | cons x l ih =>
    simp only [maxEnd]
    rcases Nat.le_total x.last (maxEnd base l) with hle | hle
    · rw [Nat.max_eq_right hle]
      obtain h | ⟨q, hq, h⟩ := ih
      · exact .inl h
      · exact .inr ⟨q, List.mem_cons_of_mem _ hq, h⟩
    · rw [Nat.max_eq_left hle]
      exact .inr ⟨x, List.mem_cons_self, rfl⟩

/-- The size a blob starts with: `0` for a new blob, the size of the cloned root for a clone. -/
def ObjInfo.baseSize (o : ObjInfo) : Nat := (o.roots.headD {}).currentSize

theorem ObjInfo.lastRoot_mem {o : ObjInfo} (h : 0 < o.roots.length) : o.lastRoot ∈ o.roots := by
  have hne : o.roots ≠ [] := List.ne_nil_of_length_pos h
  rw [lastRoot, List.getLast?_eq_some_getLast hne]
  exact List.getLast_mem hne

theorem VManagement.rootAt_mem {o : ObjInfo} (h : 0 < o.roots.length) (version : Nat) :
    rootAt o version ∈ o.roots := by
  unfold rootAt
  split
  · exact ObjInfo.lastRoot_mem h
  · rename_i hv
    have hlt : version < o.roots.length := by omega
    rw [List.getD_eq_getElem?_getD, List.getElem?_eq_getElem hlt]
    exact List.getElem_mem hlt

/-! ## Appends -/

/-- Every ticket ends below `2 ^ 64`, and its end is not strictly between the size of the latest
published root and `progress_size`. -/
def AppendSafe (h : VmHistory) : VmRequest → Prop
  | .getTicket query append =>
    match h.vm.objHash query.id with
    | none => True
    | some o =>
      (assigned o query append).last < 2 ^ 64 ∧
        ((assigned o query append).last ≤ o.lastRoot.currentSize ∨
          o.progressSize ≤ (assigned o query append).last)
  | _ => True

/-- `progress_size` is the running maximum, and no root is larger. -/
structure Progress (o : ObjInfo) (issued : List Query) : Prop where
  roots_pos : 0 < o.roots.length
  progress : o.progressSize = maxEnd o.baseSize issued
  roots_le : ∀ {r}, r ∈ o.roots → r.currentSize ≤ o.progressSize
  intervals_le : ∀ {e}, e ∈ o.intervals → e.root.currentSize ≤ o.progressSize

namespace Progress

variable {o : ObjInfo} {issued : List Query}

theorem single (r : Root) (maxSize : Nat) :
    Progress { roots := [r], maxSize := maxSize, progressSize := r.currentSize } [] :=
  ⟨by simp, rfl, by simp, by simp⟩

theorem ticket_step (h : Progress o issued) {query : Query} (hlast : query.last < 2 ^ 64)
    (hsafe : query.last ≤ o.lastRoot.currentSize ∨ o.progressSize ≤ query.last)
    (maxSize version : Nat) :
    Progress (ticket o query maxSize) (issued ++ [{ query with version := version }]) := by
  have hu : u64 (query.offset + query.size) = query.last := u64_of_lt hlast
  have hroot : o.lastRoot.currentSize ≤ o.progressSize := h.roots_le (o.lastRoot_mem h.roots_pos)
  have hp : (ticket o query maxSize).progressSize = max o.progressSize query.last := by
    show (if u64 (query.offset + query.size) > o.lastRoot.currentSize then
      u64 (query.offset + query.size) else o.progressSize) = _
    rw [hu]
    split <;> omega
  have hsize : (newRoot o query maxSize).currentSize ≤ max o.progressSize query.last := by
    show (if u64 (query.offset + query.size) > o.lastRoot.currentSize then
      u64 (query.offset + query.size) else o.lastRoot.currentSize) ≤ _
    rw [hu]
    split <;> omega
  refine ⟨h.roots_pos, ?_, fun hr => ?_, fun {e} he => ?_⟩
  · rw [hp, h.progress, maxEnd_append]
    rfl
  · exact hp ▸ (h.roots_le hr).trans (Nat.le_max_left _ _)
  · rw [hp]
    rcases IntervalList.mem_insert he with rfl | he
    · exact hsize
    · exact (h.intervals_le he).trans (Nat.le_max_left _ _)

theorem publish_step (h : Progress o issued) (version : Nat) :
    Progress (publishObj o version) issued := by
  have hc : ∀ {e}, e ∈ o.intervals.complete version → e.root.currentSize ≤ o.progressSize := by
    intro e he
    obtain ⟨x, hx, -, hr, -⟩ := IntervalList.mem_complete he
    rw [hr]
    exact h.intervals_le hx
  -- the loop only moves roots from the outstanding entries behind the published ones
  have key := VManagement.retire_inv
    (P := fun rs l => 0 < rs.length ∧ rs.headD {} = o.roots.headD {} ∧
      (∀ r ∈ rs, r.currentSize ≤ o.progressSize) ∧
      ∀ e ∈ l, e.root.currentSize ≤ o.progressSize)
    (by
      rintro rs e l - ⟨h1, h2, h3, h4⟩
      refine ⟨by simp, ?_, ?_, fun x hx => h4 x (List.mem_cons_of_mem _ hx)⟩
      · obtain ⟨a, b, rfl⟩ := List.exists_cons_of_length_pos h1
        exact h2
      · intro r hr
        rcases List.mem_append.1 hr with hr | hr
        · exact h3 r hr
        · rw [List.mem_singleton] at hr
          exact hr ▸ h4 e List.mem_cons_self)
    o.roots (o.intervals.complete version) ⟨h.roots_pos, rfl, fun r => h.roots_le, fun e => hc⟩
  obtain ⟨h1, h2, h3, h4⟩ := key
  refine ⟨h1, ?_, fun {r} => h3 r, fun {e} => h4 e⟩
  show o.progressSize = maxEnd ((retire o.roots (o.intervals.complete version)).1.headD {}).currentSize _
  rw [h2]
  exact h.progress

end Progress

theorem VmHistory.progress {h : VmHistory} {reqs : List VmRequest}
    (hrun : Run VmHistory.step AppendSafe {} reqs h) :
    VmHistory.ObjInv (fun _ o issued _ => Progress o issued) h :=
  VmHistory.objInv (P := fun _ o issued _ => Progress o issued)
    (fun _ _ _ => Progress.single _ _) (fun _ _ _ _ => Progress.single _ _)
    (fun hp hok ho _ => by
      simp only [AppendSafe, ho] at hok
      exact hp.ticket_step hok.1 hok.2 _ _)
    (fun hp _ => hp.publish_step _) hrun

/-- **Appends land after every ticket.** In every run whose tickets are `AppendSafe`, an append is
given the largest end of all tickets issued before it (or the base size), published or not. So
it overlaps none of them, and there is no gap before it. -/
theorem append_offset {h h' : VmHistory} {reqs : List VmRequest} {o : ObjInfo} (query : Query)
    (hrun : Run VmHistory.step AppendSafe {} reqs h) (ho : h.vm.objHash query.id = some o)
    (hs : h.step (.getTicket query true) = some h') :
    ∃ q, h'.issued query.id = h.issued query.id ++ [q] ∧
      q.offset = maxEnd o.baseSize (h.issued query.id) ∧
      (∀ p ∈ h.issued query.id, p.last ≤ q.offset) ∧
      (q.offset = o.baseSize ∨ ∃ p ∈ h.issued query.id, p.last = q.offset) := by
  have hp := (VmHistory.progress hrun).obj ho
  have hq : (assigned o query true).offset = maxEnd o.baseSize (h.issued query.id) := hp.progress
  refine ⟨{ assigned o query true with version := o.currentTicket }, ?_, hq, ?_, ?_⟩
  · obtain ⟨maxSize, -, rfl⟩ := VmHistory.step_getTicket ho hs
    simp
  · intro p hmem
    simp only [hq]
    exact le_maxEnd.2 p hmem
  · simp only [hq]
    obtain h1 | ⟨p, hm, h1⟩ := maxEnd_mem o.baseSize (h.issued query.id)
    · exact .inl h1
    · exact .inr ⟨p, hm, h1.symm⟩

/-- A write, an append behind it and a rewrite of the whole range: a third client appends after
them. -/
theorem append_offset_three_tickets :
    ∃ h h' q, Run VmHistory.step AppendSafe {}
        [.create 4 1, .getTicket ⟨1, 7, 0, 8⟩ false, .getTicket ⟨1, 8, 0, 4⟩ true,
          .getTicket ⟨1, 9, 0, 12⟩ false] h ∧
      h.step (.getTicket ⟨1, 5, 0, 4⟩ true) = some h' ∧ h'.issued 1 = h.issued 1 ++ [q] ∧
      q.offset = 12 := by
  have hrun : Run VmHistory.step AppendSafe {}
      [.create 4 1, .getTicket ⟨1, 7, 0, 8⟩ false, .getTicket ⟨1, 8, 0, 4⟩ true,
        .getTicket ⟨1, 9, 0, 12⟩ false] _ :=
    .cons trivial rfl (.cons ⟨by decide, by decide⟩ rfl (.cons ⟨by decide, by decide⟩ rfl
      (.cons ⟨by decide, by decide⟩ rfl (.nil _))))
  obtain ⟨q, hq, ho, -⟩ := append_offset ⟨1, 5, 0, 4⟩ hrun rfl rfl
  exact ⟨_, _, q, hrun, rfl, hq, ho⟩

/-- A short write that gets its ticket while a longer one is outstanding moves `progress_size`
back: the next append is given offset 4, inside the range of the first ticket. -/
theorem append_overlaps_ticket :
    ∃ h o, Run VmHistory.step (fun _ _ => True) {}
        [.create 4 1, .getTicket ⟨1, 7, 0, 8⟩ false, .getTicket ⟨1, 8, 0, 4⟩ false] h ∧
      h.vm.objHash 1 = some o ∧ maxEnd o.baseSize (h.issued 1) = 8 ∧
      (assigned o ⟨1, 9, 0, 4⟩ true).offset = 4 :=
  ⟨_, _, .cons trivial rfl (.cons trivial rfl (.cons trivial rfl (.nil _))), rfl, rfl, rfl⟩

/-! ## Sizes of published versions -/

/-- Fewer than `2 ^ 32` tickets, each of which ends below `2 ^ 64`, and no outstanding ticket
ends after both the new one and the latest published size. -/
def SizeSafe (h : VmHistory) (req : VmRequest) : Prop :=
  TicketsFit h req ∧ match req with
    | .getTicket query append =>
      match h.vm.objHash query.id with
      | none => True
      | some o =>
        (assigned o query append).last < 2 ^ 64 ∧ ∀ e ∈ o.intervals,
          e.key.last ≤ max o.lastRoot.currentSize (assigned o query append).last
    | _ => True

/-- The sizes of the published and of the prepared roots are running maxima. -/
structure RootSizes (base : Nat) (roots : List Root) (intervals : IntervalList)
    (issued : List Query) : Prop where
  root : ∀ {k r}, roots[k]? = some r → r.currentSize = maxEnd base (issued.take k)
  interval : ∀ {k e}, intervals[k]? = some e →
    e.root.currentSize = maxEnd base (issued.take (roots.length + k))

namespace RootSizes

variable {base : Nat} {roots : List Root} {intervals : IntervalList} {issued : List Query}

theorem single (r : Root) : RootSizes r.currentSize [r] [] [] := by
  refine ⟨fun {k r'} hr => ?_, fun he => (by simp at he)⟩
  rw [List.getElem?_singleton] at hr
  split at hr
  · cases hr
    simp [maxEnd]
  · cases hr

theorem retire_step {e : IntervalEntry} {l : IntervalList}
    (h : RootSizes base roots (e :: l) issued) :
    RootSizes base (roots ++ [e.root]) l issued := by
  refine ⟨fun {k r} hr => ?_, fun {k x} hx => ?_⟩
  · rcases getElem?_concat hr with hr | ⟨rfl, rfl⟩
    · exact h.root hr
    · exact h.interval (k := 0) rfl
  · have hk : (roots ++ [e.root]).length + k = roots.length + (k + 1) := by simp; omega
    rw [hk]
    exact h.interval (by simpa using hx)

theorem complete (h : RootSizes base roots intervals issued) (v : Nat) :
    RootSizes base roots (intervals.complete v) issued := by
  refine ⟨h.root, fun {k e} he => ?_⟩
  rw [IntervalList.complete, List.getElem?_map] at he
  cases hx : intervals[k]? with
  | none => rw [hx] at he; cases he
  | some x =>
    rw [hx, Option.map_some, Option.some.injEq] at he
    have hr : e.root = x.root := by rw [← he]; split <;> rfl
    rw [hr]
    exact h.interval hx

/-- A ticket that ends no earlier than what is outstanding prepares a root of the right size. -/
theorem ticket_step {id : Nat} {o : ObjInfo} {published : List Nat}
    (hw : Window id o issued published) (h : RootSizes base o.roots o.intervals issued)
    (hb : issued.length + 1 < 2 ^ 32) {query : Query} (hlast : query.last < 2 ^ 64)
    (hsafe : ∀ e ∈ o.intervals, e.key.last ≤ max o.lastRoot.currentSize query.last)
    (maxSize version : Nat) :
    RootSizes base o.roots (ticket o query maxSize).intervals
      (issued ++ [{ query with version := version }]) := by
  have hp := hw.pending
  have hcount := hp.count
  have hpos := hp.roots_pos
  have htake : ∀ {k}, k ≤ issued.length →
      (issued ++ [{ query with version := version }]).take k = issued.take k :=
    fun hk => List.take_append_of_le_length hk
  have hlr : o.roots[o.roots.length - 1]? = some o.lastRoot := by
    have hne : o.roots ≠ [] := List.ne_nil_of_length_pos hpos
    rw [ObjInfo.lastRoot, ← List.getLast?_eq_getElem?, List.getLast?_eq_some_getLast hne]
    rfl
  have hroot := h.root hlr
  have hnew : (newRoot o query maxSize).currentSize = max o.lastRoot.currentSize query.last := by
    show (if u64 (query.offset + query.size) > o.lastRoot.currentSize then
      u64 (query.offset + query.size) else o.lastRoot.currentSize) = _
    rw [show u64 (query.offset + query.size) = query.last from u64_of_lt hlast]
    split <;> omega
  -- the outstanding tickets do not raise the maximum above the new size
  have hmax : maxEnd base issued ≤ max o.lastRoot.currentSize query.last := by
    refine maxEnd_le_iff.2 ⟨?_, fun q hq => ?_⟩
    · rw [hroot]
      exact le_maxEnd.1.trans (Nat.le_max_left _ _)
    · rw [← List.take_append_drop (o.roots.length - 1) issued, ← hp.keys] at hq
      rcases List.mem_append.1 hq with hq | hq
      · rw [hroot]
        exact (le_maxEnd.2 q hq).trans (Nat.le_max_left _ _)
      · obtain ⟨e, he, rfl⟩ := List.mem_map.1 hq
        exact hsafe e he
  have hle : o.lastRoot.currentSize ≤ maxEnd base issued := by
    rw [hroot]
    exact maxEnd_le_iff.2 ⟨le_maxEnd.1, fun q hq => le_maxEnd.2 q (List.mem_of_mem_take hq)⟩
  rw [hw.ticket_intervals hb]
  refine ⟨fun {k r} hr => ?_, fun {k e} he => ?_⟩
  · obtain ⟨hk, -⟩ := List.getElem?_eq_some_iff.1 hr
    rw [htake (by omega)]
    exact h.root hr
  · rcases getElem?_concat he with he | ⟨rfl, rfl⟩
    · obtain ⟨hk, -⟩ := List.getElem?_eq_some_iff.1 he
      rw [htake (by omega)]
      exact h.interval he
    · rw [List.take_of_length_le (by simp; omega), maxEnd_append, hnew]
      show _ = max _ query.last
      omega

end RootSizes

theorem VmHistory.rootSizes {h : VmHistory} {reqs : List VmRequest}
    (hrun : Run VmHistory.step SizeSafe {} reqs h) :
    VmHistory.ObjInv (fun id o issued published => Window id o issued published ∧
      RootSizes o.baseSize o.roots o.intervals issued) h := by
  refine VmHistory.objInv (P := fun id o issued published => Window id o issued published ∧
      RootSizes o.baseSize o.roots o.intervals issued)
    (fun _ _ _ => ⟨Window.single _ _ _ _, .single _⟩)
    (fun _ _ _ _ => ⟨Window.single _ _ _ _, .single _⟩) ?_ ?_ hrun
  · rintro h query append o maxSize ⟨hw, hs⟩ ⟨hfit, hok⟩ ho -
    simp only [ho] at hok
    exact ⟨hw.ticket_step hfit (VManagement.assigned_id _ _ _) _,
      RootSizes.ticket_step hw hs hfit hok.1 hok.2 _ _⟩
  · rintro id o issued published version ⟨hw, hs⟩ hc
    refine ⟨hw.publish_step hc, ?_⟩
    obtain ⟨a, l, hr⟩ := List.exists_cons_of_length_pos hw.pending.roots_pos
    -- the loop keeps the first root, and with it the base size
    have key := VManagement.retire_inv
      (P := fun rs l => rs.headD {} = o.roots.headD {} ∧ rs ≠ [] ∧
        RootSizes o.baseSize rs l issued)
      (by
        rintro rs e l - ⟨h1, h2, h3⟩
        obtain ⟨x, xs, rfl⟩ := List.exists_cons_of_ne_nil h2
        exact ⟨h1, by simp, h3.retire_step⟩)
      o.roots (o.intervals.complete version) ⟨rfl, by simp [hr], hs.complete version⟩
    have hbase : (publishObj o version).baseSize = o.baseSize := by
      show ((retire o.roots (o.intervals.complete version)).1.headD {}).currentSize = _
      rw [key.1]
      rfl
    rw [hbase]
    exact key.2.2

/-- **Published sizes lose no data.** In every run whose tickets are `SizeSafe`, the size of
published version `k` is the largest of the base size and the ends of tickets `1..k`. So sizes
do not shrink from one version to the next, and the size the version manager answers for
version `v` covers every ticket up to `v`. -/
theorem root_sizes {h : VmHistory} {reqs : List VmRequest} {id : Nat} {o : ObjInfo}
    (hrun : Run VmHistory.step SizeSafe {} reqs h) (ho : h.vm.objHash id = some o) :
    (∀ k r, o.roots[k]? = some r → r.currentSize = maxEnd o.baseSize ((h.issued id).take k)) ∧
    (∀ (j k : Nat) (r r' : Root), j ≤ k → o.roots[j]? = some r → o.roots[k]? = some r' →
      r.currentSize ≤ r'.currentSize) ∧
    (∀ v, 1 ≤ v → v < o.roots.length → ∀ q ∈ (h.issued id).take v,
      q.last ≤ (h.vm.getRoot id v).currentSize) := by
  obtain ⟨hw, hs⟩ := (VmHistory.rootSizes hrun).obj ho
  refine ⟨fun k r => hs.root, fun j k r r' hjk hr hr' => ?_, fun v hv hlt q hq => ?_⟩
  · rw [hs.root hr, hs.root hr']
    refine maxEnd_le_iff.2 ⟨le_maxEnd.1, fun q hq => le_maxEnd.2 q ?_⟩
    exact (List.take_sublist_take_left hjk).subset hq
  · have hroot : h.vm.getRoot id v = o.roots[v] := by
      simp only [VManagement.getRoot, ho, rootAt]
      rw [if_neg (by omega), List.getD_eq_getElem?_getD, List.getElem?_eq_getElem hlt]
      rfl
    rw [hroot, hs.root (List.getElem?_eq_getElem hlt)]
    exact le_maxEnd.2 q hq

/-- A long write overtaken by a longer append; both are published in the other order. -/
theorem root_sizes_overtaken :
    ∃ h o, Run VmHistory.step SizeSafe {}
        [.create 4 1, .getTicket ⟨1, 7, 0, 8⟩ false, .getTicket ⟨1, 8, 0, 4⟩ true,
          .publish ⟨1, 2, 0, 0⟩, .publish ⟨1, 1, 0, 0⟩] h ∧
      h.vm.objHash 1 = some o ∧
      ∀ k r, o.roots[k]? = some r → r.currentSize = maxEnd 0 ((h.issued 1).take k) := by
  have hrun : Run VmHistory.step SizeSafe {}
      [.create 4 1, .getTicket ⟨1, 7, 0, 8⟩ false, .getTicket ⟨1, 8, 0, 4⟩ true,
        .publish ⟨1, 2, 0, 0⟩, .publish ⟨1, 1, 0, 0⟩] _ :=
    .cons ⟨trivial, trivial⟩ rfl (.cons ⟨by decide, by decide, by decide⟩ rfl
      (.cons ⟨by decide, by decide, by decide⟩ rfl (.cons ⟨trivial, trivial⟩ rfl
        (.cons ⟨trivial, trivial⟩ rfl (.nil _)))))
  exact ⟨_, _, hrun, rfl, (root_sizes hrun rfl).1⟩

/-- A short write that gets its ticket while a longer one is outstanding: version 2 is published
with size 4, although ticket 1 wrote up to byte 8. -/
theorem published_size_shrinks :
    ∃ h o r, Run VmHistory.step (fun _ _ => True) {}
        [.create 4 1, .getTicket ⟨1, 7, 0, 8⟩ false, .getTicket ⟨1, 8, 0, 4⟩ false,
          .publish ⟨1, 1, 0, 0⟩, .publish ⟨1, 2, 0, 0⟩] h ∧
      h.vm.objHash 1 = some o ∧ o.roots[2]? = some r ∧ r.currentSize = 4 ∧
      maxEnd o.baseSize ((h.issued 1).take 2) = 8 :=
  ⟨_, _, _, .cons trivial rfl (.cons trivial rfl (.cons trivial rfl (.cons trivial rfl
    (.cons trivial rfl (.nil _))))), rfl, rfl, rfl, rfl⟩

end BlobSeer
