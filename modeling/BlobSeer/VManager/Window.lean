import BlobSeer.Lib.Lists
import BlobSeer.VManager.History

/-!
# The window of outstanding tickets

For every blob the published versions and the outstanding tickets follow each other without a
gap: the entries of `intervals` are the last tickets issued, in order, the versions in `roots`
are the ones before them, and the first outstanding entry is never completed. A reply to
`get_ticket` therefore ends with the ticket it allocated.

`current_ticket` is a 32-bit counter that starts at 1, so it is the number of tickets plus one
modulo `2 ^ 32`: after `2 ^ 32 - 1` tickets it is back at `0`.
-/

namespace BlobSeer

open Lib (Run getElem?_concat)
open VManagement (rootAt grow newRoot ticket assigned publishObj retire)

/-- The published roots and the outstanding entries of a blob, against its history. -/
structure Pending (id : Nat) (roots : List Root) (intervals : IntervalList) (issued : List Query)
    (published : List Nat) : Prop where
  roots_pos : 0 < roots.length
  count : roots.length + intervals.length = issued.length + 1
  keys : intervals.map (·.key) = issued.drop (roots.length - 1)
  issued_eq : ∀ {k q}, issued[k]? = some q → q.id = id ∧ q.version = k + 1
  rootVersion : ∀ {k r}, 1 ≤ k → roots[k]? = some r → r.node.version = k
  intervalRoot : ∀ {e}, e ∈ intervals → e.root.node.version = e.key.version
  completed : ∀ {e}, e ∈ intervals → (e.completed = true ↔ e.key.version ∈ published)
  retired : ∀ {k}, 1 ≤ k → k < roots.length → k ∈ published
  bounded : ∀ {k}, k ∈ published → 1 ≤ k ∧ k ≤ issued.length

namespace Pending

variable {id : Nat} {roots : List Root} {intervals : IntervalList} {issued : List Query}
  {published : List Nat}

/-- The `k`-th outstanding entry carries the `k`-th version after the roots. -/
theorem version_at (h : Pending id roots intervals issued published) {k : Nat} {e : IntervalEntry}
    (he : intervals[k]? = some e) : e.key.version = roots.length + k := by
  have hk : issued[roots.length - 1 + k]? = some e.key := by
    rw [← List.getElem?_drop, ← h.keys, List.getElem?_map, he]
    rfl
  have := (h.issued_eq hk).2
  have := h.roots_pos
  omega

/-- The outstanding versions are consecutive. -/
theorem versions (h : Pending id roots intervals issued published) :
    intervals.map (·.key.version) = List.range' roots.length intervals.length := by
  apply List.ext_getElem?
  intro k
  rw [List.getElem?_map]
  cases he : intervals[k]? with
  | none =>
    have hk := List.getElem?_eq_none_iff.1 he
    rw [List.getElem?_eq_none (by simpa using hk)]
    rfl
  | some e =>
    obtain ⟨hk, -⟩ := List.getElem?_eq_some_iff.1 he
    rw [List.getElem?_range' hk]
    simp [h.version_at he]

/-- Outstanding versions lie between the roots and the next ticket. -/
theorem version_mem (h : Pending id roots intervals issued published) {e : IntervalEntry}
    (he : e ∈ intervals) :
    roots.length ≤ e.key.version ∧ e.key.version ≤ issued.length := by
  obtain ⟨k, hk, rfl⟩ := List.getElem_of_mem he
  have := h.version_at (List.getElem?_eq_getElem hk)
  have := h.count
  omega

/-- One round of the retirement loop. -/
theorem retire_step {e : IntervalEntry} {l : IntervalList} (hc : e.completed = true)
    (h : Pending id roots (e :: l) issued published) :
    Pending id (roots ++ [e.root]) l issued published := by
  have hp := h.roots_pos
  have hv : e.key.version = roots.length := h.version_at (k := 0) rfl
  have hmem : roots.length ∈ published := hv ▸ (h.completed List.mem_cons_self).1 hc
  refine ⟨by simp, ?_, ?_, h.issued_eq, ?_, fun he => h.intervalRoot (List.mem_cons_of_mem _ he),
    fun he => h.completed (List.mem_cons_of_mem _ he), ?_, h.bounded⟩
  · have := h.count
    simp only [List.length_append, List.length_cons, List.length_nil] at this ⊢
    omega
  · have hk := congrArg List.tail h.keys
    rw [List.tail_drop] at hk
    have e1 : roots.length - 1 + 1 = (roots ++ [e.root]).length - 1 := by simp; omega
    rwa [e1] at hk
  · intro k r hk hr
    rcases getElem?_concat hr with hr | ⟨rfl, rfl⟩
    · exact h.rootVersion hk hr
    · rw [h.intervalRoot List.mem_cons_self, hv]
  · intro k hk hlt
    simp only [List.length_append, List.length_cons, List.length_nil] at hlt
    by_cases he : k = roots.length
    · exact he ▸ hmem
    · exact h.retired hk (by omega)

/-- The mark set by an accepted publish. -/
theorem complete (h : Pending id roots intervals issued published) {v : Nat}
    (hv : intervals.contains v = true) :
    Pending id roots (intervals.complete v) issued (v :: published) := by
  refine ⟨h.roots_pos, by simpa using h.count, ?_, h.issued_eq, h.rootVersion, ?_, ?_, ?_, ?_⟩
  · rw [← h.keys, IntervalList.complete, List.map_map]
    refine List.map_congr_left fun e _ => ?_
    simp only [Function.comp]
    split <;> rfl
  · intro e he
    obtain ⟨x, hx, hk, hr, -⟩ := IntervalList.mem_complete he
    rw [hk, hr]
    exact h.intervalRoot hx
  · intro e he
    obtain ⟨x, hx, hk, -, hc⟩ := IntervalList.mem_complete he
    rw [hc, hk, h.completed hx, List.mem_cons]
  · intro k hk hlt
    exact List.mem_cons_of_mem _ (h.retired hk hlt)
  · intro k hk
    rcases List.mem_cons.1 hk with rfl | hk
    · obtain ⟨e, he, rfl⟩ := List.mem_map.1 (IntervalList.contains_iff.1 hv)
      have := h.version_mem he
      have := h.roots_pos
      omega
    · exact h.bounded hk

end Pending

/-- The window invariant of one blob. -/
structure Window (id : Nat) (o : ObjInfo) (issued : List Query) (published : List Nat) : Prop where
  pending : Pending id o.roots o.intervals issued published
  counter : o.currentTicket = u32 (issued.length + 1)
  bound : issued.length < 2 ^ 32
  first : ∀ {e}, o.intervals.head? = some e → e.completed = false

namespace Window

variable {id : Nat} {o : ObjInfo} {issued : List Query} {published : List Nat}

/-- A blob with one root and no tickets yet. -/
theorem single (id : Nat) (r : Root) (maxSize progressSize : Nat) :
    Window id { roots := [r], maxSize := maxSize, progressSize := progressSize } [] [] := by
  refine ⟨⟨by simp, by simp, by simp, by simp, ?_, by simp, by simp, ?_, by simp⟩, ?_, by simp,
    by simp⟩
  · intro k r' hk hr
    rw [List.getElem?_eq_none (by simpa using hk)] at hr
    cases hr
  · intro k hk hlt
    simp only [List.length_cons, List.length_nil] at hlt
    omega
  · simp [u32]

/-- The next ticket is above every outstanding one, so its entry goes to the end of the map. -/
theorem ticket_intervals (h : Window id o issued published) (hb : issued.length + 1 < 2 ^ 32)
    (query : Query) (maxSize : Nat) :
    (ticket o query maxSize).intervals = o.intervals ++
      [⟨{ query with version := issued.length + 1 }, newRoot o query maxSize, false⟩] := by
  have ht : o.currentTicket = issued.length + 1 := by rw [h.counter, u32_of_lt hb]
  simp only [VManagement.ticket, ht]
  rw [IntervalList.insert_last]
  intro x hx
  have := (h.pending.version_mem hx).2
  simp only
  omega

/-- One ticket keeps the window. -/
theorem ticket_step (h : Window id o issued published) (hb : issued.length + 1 < 2 ^ 32)
    {query : Query} (hid : query.id = id) (maxSize : Nat) :
    Window id (VManagement.ticket o query maxSize)
      (issued ++ [{ query with version := o.currentTicket }]) published := by
  have hi := h.ticket_intervals hb query maxSize
  have ht : o.currentTicket = issued.length + 1 := by rw [h.counter, u32_of_lt hb]
  have hp := h.pending
  have hcount := hp.count
  have hpos := hp.roots_pos
  have hroots : (VManagement.ticket o query maxSize).roots = o.roots := rfl
  rw [ht]
  refine ⟨⟨?_, ?_, ?_, ?_, ?_, ?_, ?_, ?_, ?_⟩, ?_, ?_, ?_⟩
  · exact hpos
  · rw [hi, hroots]
    simp only [List.length_append, List.length_cons, List.length_nil]
    omega
  · rw [hi, hroots, List.map_append, hp.keys, List.drop_append_of_le_length (by omega)]
    rfl
  · intro k q hq
    rcases getElem?_concat hq with hq | ⟨rfl, rfl⟩
    · exact hp.issued_eq hq
    · exact ⟨hid, rfl⟩
  · exact hp.rootVersion
  · intro e he
    rw [hi] at he
    rcases List.mem_append.1 he with he | he
    · exact hp.intervalRoot he
    · rw [List.mem_singleton] at he
      subst he
      exact ht
  · intro e he
    rw [hi] at he
    rcases List.mem_append.1 he with he | he
    · exact hp.completed he
    · rw [List.mem_singleton] at he
      subst he
      refine ⟨fun h => (by cases h), fun h => ?_⟩
      have := (hp.bounded h).2
      simp only at this
      omega
  · exact hp.retired
  · intro k hk
    have := hp.bounded hk
    simp only [List.length_append, List.length_cons, List.length_nil]
    omega
  · show u32 (o.currentTicket + 1) = _
    rw [ht, List.length_append]
    rfl
  · simpa using hb
  · intro e he
    rw [hi, List.head?_append] at he
    cases hh : o.intervals.head? with
    | none =>
      simp only [hh, Option.none_or, List.head?_cons, Option.some.injEq] at he
      subst he
      rfl
    | some x =>
      simp only [hh, Option.some_or, Option.some.injEq] at he
      subst he
      exact h.first hh

/-- One accepted publish keeps the window. -/
theorem publish_step (h : Window id o issued published) {v : Nat}
    (hv : o.intervals.contains v = true) :
    Window id (publishObj o v) issued (v :: published) :=
  ⟨VManagement.retire_inv (P := fun rs l => Pending id rs l issued (v :: published))
      Pending.retire_step _ _ (h.pending.complete hv),
    h.counter, h.bound, VManagement.retire_head⟩

/-- A version is in `roots` exactly when it and all smaller tickets have been published. -/
theorem mem_roots_iff (h : Window id o issued published) {k : Nat} :
    k < o.roots.length ↔ ∀ j, 1 ≤ j → j ≤ k → j ∈ published := by
  have hp := h.pending
  have hpos := hp.roots_pos
  have hcount := hp.count
  refine ⟨fun hlt j hj hjk => hp.retired hj (by omega), fun hall => ?_⟩
  by_contra hlt
  have hmem : o.roots.length ∈ published := hall _ hpos (by omega)
  -- the first version after the roots is outstanding, and its entry is not completed
  have hlen : 0 < o.intervals.length := by
    have := (hp.bounded hmem).2
    omega
  obtain ⟨e, l, he⟩ := List.exists_cons_of_length_pos hlen
  have hv : e.key.version = o.roots.length := hp.version_at (k := 0) (by rw [he]; rfl)
  have hc := (hp.completed (e := e) (by rw [he]; exact List.mem_cons_self)).2 (hv ▸ hmem)
  rw [h.first (e := e) (by rw [he]; rfl)] at hc
  cases hc

end Window

/-- Fewer than `2 ^ 32` tickets are issued on every blob. -/
def TicketsFit (h : VmHistory) : VmRequest → Prop
  | .getTicket query _ => (h.issued query.id).length + 1 < 2 ^ 32
  | _ => True

instance (h : VmHistory) (req : VmRequest) : Decidable (TicketsFit h req) :=
  match req with
  | .getTicket query _ =>
    inferInstanceAs (Decidable ((h.issued query.id).length + 1 < 2 ^ 32))
  | .getRoot .. | .clone .. | .publish _ | .create .. | .getObjcount => .isTrue trivial

/-- Every blob of every run satisfies the window invariant. -/
theorem VmHistory.window {h : VmHistory} {reqs : List VmRequest}
    (hrun : Run VmHistory.step TicketsFit {} reqs h) : VmHistory.ObjInv Window h :=
  VmHistory.objInv (P := Window) (fun _ _ _ => Window.single _ _ _ _)
    (fun _ _ _ _ => Window.single _ _ _ _)
    (fun hw hok _ _ => hw.ticket_step hok (VManagement.assigned_id _ _ _) _)
    (fun hw hc => hw.publish_step hc) hrun

/-- **The ticket window.** In every run with fewer than `2 ^ 32` tickets on each blob: the
outstanding entries carry the versions after the published ones, without a gap up to the next
ticket, which `current_ticket` holds modulo `2 ^ 32`; version `k` is stored at `roots[k]`; the
first outstanding entry is not completed; a version is in `roots` exactly when it and all
smaller ones have been published; the reply to a ticket request lists the outstanding tickets
and then the new one; and a refused publish changes nothing. -/
theorem ticket_window {h : VmHistory} {reqs : List VmRequest}
    (hrun : Run VmHistory.step TicketsFit {} reqs h) :
    (∀ id o, h.vm.objHash id = some o →
      o.currentTicket = u32 (o.roots.length + o.intervals.length) ∧
      ((h.issued id).length + 1 < 2 ^ 32 →
        o.roots.length + o.intervals.length = o.currentTicket) ∧
      o.intervals.map (·.key.version) = List.range' o.roots.length o.intervals.length ∧
      (∀ k r, 1 ≤ k → o.roots[k]? = some r → r.node.version = k) ∧
      (∀ e, o.intervals.head? = some e → e.completed = false) ∧
      (∀ k, k < o.roots.length ↔ ∀ j, 1 ≤ j → j ≤ k → j ∈ h.published id)) ∧
    (∀ query append vm r, TicketsFit h (.getTicket query append) →
      h.vm.getTicket query append = some (vm, .ok, r) →
      ∃ o, h.vm.objHash query.id = some o ∧
        r.intervals.lastKey.version = o.currentTicket ∧
        (∀ e ∈ r.intervals, e.key.version ≤ o.currentTicket) ∧
        r.intervals.map (·.key) =
          (h.issued query.id).drop (o.roots.length - 1) ++ [r.intervals.lastKey]) ∧
    (∀ interval vm, h.vm.publish interval = (vm, .eobj) → vm = h.vm) := by
  have hw := VmHistory.window hrun
  refine ⟨fun id o ho => ?_, fun query append vm r hok hr => ?_, fun interval vm hp => ?_⟩
  · have h := hw.obj ho
    have hc := h.counter
    rw [← h.pending.count] at hc
    refine ⟨hc, fun hb => ?_, h.pending.versions, fun k r => h.pending.rootVersion,
      fun e => h.first, fun k => h.mem_roots_iff⟩
    rw [hc, u32_of_lt (by rw [h.pending.count]; exact hb)]
  · unfold VManagement.getTicket at hr
    cases ho : h.vm.objHash query.id with
    | none => simp only [ho, Option.some.injEq, Prod.mk.injEq, reduceCtorEq, false_and,
        and_false] at hr
    | some o =>
      have h' := hw.obj ho
      have hb : (h.issued query.id).length + 1 < 2 ^ 32 := hok
      have ht : o.currentTicket = (h.issued query.id).length + 1 := by
        rw [h'.counter, u32_of_lt hb]
      simp only [ho] at hr
      split at hr
      · cases hr
      · rename_i maxSize hg
        simp only [Option.some.injEq, Prod.mk.injEq, true_and] at hr
        obtain ⟨-, rfl⟩ := hr
        have hi := h'.ticket_intervals hb (assigned o query append) maxSize
        refine ⟨o, rfl, ?_, fun e he => ?_, ?_⟩
        · rw [hi, IntervalList.lastKey_append, ht]
        · rw [hi] at he
          rcases List.mem_append.1 he with he | he
          · have := (h'.pending.version_mem he).2
            omega
          · rw [List.mem_singleton] at he
            rw [he, ht]
        · rw [hi, IntervalList.lastKey_append, List.map_append, h'.pending.keys]
          rfl
  · unfold VManagement.publish at hp
    split at hp
    · exact (Prod.mk.inj hp).1.symm
    · split at hp
      · cases (Prod.mk.inj hp).2
      · exact (Prod.mk.inj hp).1.symm

/-- Two tickets on one blob, the second one published first. -/
theorem ticket_window_late_publish :
    ∃ h, Run VmHistory.step TicketsFit {}
        [.create 4 1, .getTicket ⟨1, 9, 0, 4⟩ false, .getTicket ⟨1, 8, 0, 4⟩ true,
          .publish ⟨1, 2, 0, 0⟩] h ∧
      ∀ k, k < 1 ↔ ∀ j, 1 ≤ j → j ≤ k → j ∈ h.published 1 := by
  have hrun : Run VmHistory.step TicketsFit {}
      [.create 4 1, .getTicket ⟨1, 9, 0, 4⟩ false, .getTicket ⟨1, 8, 0, 4⟩ true,
        .publish ⟨1, 2, 0, 0⟩] _ := Run.of_exec rfl
  exact ⟨_, hrun, ((ticket_window hrun).1 1 _ rfl).2.2.2.2.2⟩

/-! ## The counter wraps around -/

/-- A run that does nothing but take tickets on one small blob. -/
theorem tickets_only (n : Nat) (hn : n < 2 ^ 32) :
    ∃ h o, Run VmHistory.step TicketsFit {}
        (.create 1 1 :: List.replicate n (.getTicket ⟨1, 0, 0, 1⟩ false)) h ∧
      h.vm.objHash 1 = some o ∧ o.maxSize = 1 ∧ o.roots.length = 1 ∧
      (h.issued 1).length = n := by
  induction n with
  | zero =>
    exact ⟨_, _, .cons trivial rfl (.nil _), rfl, rfl, rfl, rfl⟩
  | succ n ih =>
    obtain ⟨h, o, hrun, ho, hm, hr, hl⟩ := ih (by omega)
    have hg : grow (u64 ((assigned o ⟨1, 0, 0, 1⟩ false).offset +
        (assigned o ⟨1, 0, 0, 1⟩ false).size)) o.maxSize = some 1 := by
      rw [hm]; rfl
    have hs : h.step (.getTicket ⟨1, 0, 0, 1⟩ false) = some { h with
        vm := h.vm.setObj 1 (ticket o (assigned o ⟨1, 0, 0, 1⟩ false) 1)
        issued := Function.update h.issued 1 (h.issued 1 ++
          [{ assigned o ⟨1, 0, 0, 1⟩ false with version := o.currentTicket }]) } := by
      simp only [VmHistory.step, VManagement.exec, VManagement.getTicket, VmHistory.recordTicket,
        ho, hg]
      rfl
    rw [List.replicate_succ', ← List.cons_append]
    refine ⟨_, ticket o (assigned o ⟨1, 0, 0, 1⟩ false) 1,
      hrun.append (Run.single (show (h.issued 1).length + 1 < 2 ^ 32 by omega) hs), ?_, rfl, hr, ?_⟩
    · simp [VManagement.setObj]
    · simp [hl]

/-- After `2 ^ 32 - 1` tickets `current_ticket` is `0`, and no longer the number of published
and outstanding versions. -/
theorem current_ticket_wraps :
    ∃ reqs h o, Run VmHistory.step TicketsFit {} reqs h ∧ (h.issued 1).length < 2 ^ 32 ∧
      h.vm.objHash 1 = some o ∧ o.roots.length + o.intervals.length ≠ o.currentTicket := by
  obtain ⟨h, o, hrun, ho, -, -, hl⟩ := tickets_only (2 ^ 32 - 1) (by omega)
  have hw := (VmHistory.window hrun).obj ho
  refine ⟨_, h, o, hrun, by omega, ho, ?_⟩
  rw [hw.pending.count, hw.counter, hl]
  unfold u32
  omega

end BlobSeer
