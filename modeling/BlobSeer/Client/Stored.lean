import BlobSeer.Client.Solo

/-!
# What the published versions hold

A byte of a version is found through its tree, in the page that the providers of the leaf have under
its key. In every run of any number of writes whose page keys are of their own, a leaf of a published
version belongs to a write that has got its ticket, so its page was stored (`Writers.Backed.pageOf`),
and no later write changes it (`Writers.Backed.byteAt_later`).
-/

namespace BlobSeer

open Lib

/-- A leaf that the pointers lead to is in the DHT. -/
theorem resolve_leaf {dht : Dht} {leaf : RandomSelect} {x : Nat} (i : Nat) {p : Query}
    (h : resolve dht i p x = some leaf) : dht leaf.pageKey = some (.providers leaf.providers) := by
  induction i generalizing p with
  | zero =>
    rw [resolve] at h
    split at h
    · split at h
      · split at h
        · next hl =>
          cases h
          exact hl
        · cases h
      · cases h
    · cases h
  | succ i ih =>
    rw [resolve] at h
    split at h
    · split at h
      · cases h
      · split at h
        · exact ih h
        · exact ih h
    · cases h

theorem pageMap_leaf {dht : Dht} {root : Root} {x : Nat} {leaf : RandomSelect}
    (h : pageMap dht root x = some leaf) : dht leaf.pageKey = some (.providers leaf.providers) := by
  unfold pageMap at h
  split at h
  · exact resolve_leaf _ h
  · cases h

/-- A later state of the write `u`. -/
structure Upload.Later (u u' : Upload) : Prop where
  call : u'.toWriteCall = u.toWriteCall
  task : ∀ t, u.task = some t → u'.task = some t

theorem Upload.complete_requested {u u' : Upload} {retryCount i : Nat} {error : RpcReturn}
    (h : u.complete retryCount i error = some u') : u'.requested = u.requested := by
  unfold Upload.complete at h
  split at h
  · cases h
  · cases h
    unfold Upload.rpcWriteCallback
    dsimp only
    split
    · rfl
    · split
      · rfl
      · rfl

theorem Upload.Later.refl (u : Upload) : Later u u := ⟨rfl, fun _ h => h⟩

namespace Writers

/-- The page of a leaf, as the first of its providers that has one under its key. -/
def pageOf (s : Writers) (leaf : RandomSelect) : Option (List UInt8) :=
  leaf.providers.findSome? fun p => s.page p leaf.pageKey

/-- Byte `p` of the version with this root; a page that was never written has no bytes. -/
def byteAt (s : Writers) (root : Root) (p : Nat) : Option UInt8 :=
  match pageMap s.world.dht root (p / root.pageSize) with
  | some leaf => (s.pageOf leaf).bind fun page => page[p % root.pageSize]?
  | none => none

/-- The assumptions on a run: those of `Ok`, pages of less than `2 ^ 32` bytes, page keys that no other
write uses, and tickets for whole pages, which on a blob that is not `seq` start at most at
`max_size`. -/
def Sound (seq : Nat → Bool) (s : Writers) : WriterAction → Prop
  | .execWrite c => s.Ok (.execWrite c) ∧ c.pageSize < 2 ^ 32 ∧
    ∀ u ∈ s.uploads, ¬ (u.id = c.id ∧ u.rnd = c.rnd)
  | .ticket n beyond => s.Ok (.ticket n beyond) ∧
    ∀ u ∈ s.uploads[n]?, TicketOk seq s.world.hist (.getTicket u.range u.append)
  | _ => True

instance (seq : Nat → Bool) (s : Writers) (a : WriterAction) : Decidable (s.Sound seq a) :=
  match a with
  | .execWrite _ => inferInstanceAs (Decidable (_ ∧ _))
  | .ticket .. => inferInstanceAs (Decidable (_ ∧ _))
  | .reply .. | .other _ => .isTrue trivial

theorem Sound.ok {seq : Nat → Bool} {s : Writers} {a : WriterAction} (h : s.Sound seq a) : s.Ok a := by
  cases a with
  | execWrite c => exact h.1
  | ticket n beyond => exact h.1
  | reply n i error => trivial
  | other a => trivial

/-- Where the tasks and the page keys come from. -/
structure Linked (s : Writers) : Prop where
  origin : ∀ {id t : Nat} {T : Task}, (s.world.tasks id)[t]? = some T →
    ∃ u ∈ s.uploads, u.id = id ∧ u.task = some t
  keys : ∀ {n m : Nat} {u u' : Upload}, s.uploads[n]? = some u → s.uploads[m]? = some u' →
    u.id = u'.id → u.rnd = u'.rnd → n = m
  waiting : ∀ u ∈ s.uploads, u.requested = false → u.task = none
  stored : ∀ u ∈ s.uploads, u.requested = true →
    u.inFlight = [] ∧ ∀ i < u.pages, ∃ r ∈ u.acked, Upload.Copy u.toWriteCall i r

namespace Linked

variable {retryCount : Nat} {s : Writers}

theorem empty : Linked {} where
  origin h := by cases h
  keys h := by cases h
  waiting _ h := absurd h List.not_mem_nil
  stored _ h := absurd h List.not_mem_nil

theorem requested_of_task (h : Linked s) {u : Upload} (hu : u ∈ s.uploads) {t : Nat}
    (ht : u.task = some t) : u.requested = true := by
  cases hreq : u.requested with
  | true => rfl
  | false =>
    rw [h.waiting u hu hreq] at ht
    cases ht

theorem execWrite (h : Linked s) {c : WriteCall} {u : Upload} (hu : c.execWrite = some u)
    (hnew : ∀ u ∈ s.uploads, ¬ (u.id = c.id ∧ u.rnd = c.rnd)) :
    Linked { s with uploads := s.uploads ++ [u] } := by
  obtain ⟨hcall, htask, -⟩ : u.toWriteCall = c ∧ u.task = none ∧ u.Inv 0 :=
    Upload.Inv.execWrite hu
  obtain ⟨-, -, -, hreq, -⟩ := WriteCall.execWrite_cases hu
  have hne : ∀ {n : Nat} {v : Upload}, s.uploads[n]? = some v → u.id = v.id → u.rnd = v.rnd →
      False := by
    intro n v hn hid hrnd
    refine hnew v (List.mem_of_getElem? hn) ⟨?_, ?_⟩
    · rw [← hid, ← hcall]
    · rw [← hrnd, ← hcall]
  refine ⟨fun hT => ?_, fun hn hm hid hrnd => ?_, fun v hv => ?_, fun v hv hreq' => ?_⟩
  · obtain ⟨v, hv, hrest⟩ := h.origin hT
    exact ⟨v, List.mem_append_left _ hv, hrest⟩
  · rcases getElem?_concat hn with hn' | ⟨hn', hv⟩
    · rcases getElem?_concat hm with hm' | ⟨-, hv'⟩
      · exact h.keys hn' hm' hid hrnd
      · rw [hv'] at hid hrnd
        exact (hne hn' hid.symm hrnd.symm).elim
    · rcases getElem?_concat hm with hm' | ⟨hm', -⟩
      · rw [hv] at hid hrnd
        exact (hne hm' hid hrnd).elim
      · rw [hn', hm']
  · rcases List.mem_append.mp hv with hv | hv
    · exact h.waiting v hv
    · rw [List.mem_singleton.mp hv]
      exact fun _ => htask
  · rcases List.mem_append.mp hv with hv | hv
    · exact h.stored v hv hreq'
    · rw [List.mem_singleton.mp hv, hreq] at hreq'
      cases hreq'

/-- One write is replaced by a later state of it. -/
theorem set (h : Linked s) {n : Nat} {u u' : Upload} (hn : s.uploads[n]? = some u)
    (hcall : u'.toWriteCall = u.toWriteCall) {w : World}
    (horigin : ∀ {id t : Nat} {T : Task}, (w.tasks id)[t]? = some T →
      (∃ v ∈ s.uploads, v.id = id ∧ v.task = some t ∧ v ≠ u) ∨ u'.id = id ∧ u'.task = some t)
    (hwaiting : u'.requested = false → u'.task = none)
    (hstored : u'.requested = true →
      u'.inFlight = [] ∧ ∀ i < u'.pages, ∃ r ∈ u'.acked, Upload.Copy u'.toWriteCall i r) :
    Linked ⟨w, s.uploads.set n u'⟩ := by
  have hlt := (List.getElem?_eq_some_iff.mp hn).1
  have hself : (s.uploads.set n u')[n]? = some u' := by
    rw [List.getElem?_set, if_pos rfl, if_pos hlt]
  -- the call of a write is the same before and after
  have hold : ∀ {m : Nat} {v : Upload}, (s.uploads.set n u')[m]? = some v →
      ∃ v₀, s.uploads[m]? = some v₀ ∧ v.toWriteCall = v₀.toWriteCall := by
    intro m v hm
    by_cases he : n = m
    · subst he
      rw [hself] at hm
      cases hm
      exact ⟨u, hn, hcall⟩
    · rw [List.getElem?_set_ne he] at hm
      exact ⟨v, hm, rfl⟩
  refine ⟨fun hT => ?_, fun hm hk hid hrnd => ?_, fun v hv => ?_, fun v hv => ?_⟩
  · rcases horigin hT with ⟨v, hv, hid, ht, hne⟩ | ⟨hid, ht⟩
    · obtain ⟨m, hm⟩ := List.mem_iff_getElem?.mp hv
      refine ⟨v, List.mem_iff_getElem?.mpr ⟨m, ?_⟩, hid, ht⟩
      have hnm : n ≠ m := by
        rintro rfl
        rw [hn] at hm
        exact hne (Option.some.inj hm).symm
      exact (List.getElem?_set_ne hnm).trans hm
    · exact ⟨u', List.mem_of_getElem? hself, hid, ht⟩
  · obtain ⟨v₀, hm₀, hv⟩ := hold hm
    obtain ⟨v₁, hk₁, hv'⟩ := hold hk
    rw [hv, hv'] at hid hrnd
    exact h.keys hm₀ hk₁ hid hrnd
  · rcases List.mem_or_eq_of_mem_set hv with hv | rfl
    · exact h.waiting v hv
    · exact hwaiting
  · rcases List.mem_or_eq_of_mem_set hv with hv | rfl
    · exact h.stored v hv
    · exact hstored

/-- A reply is only awaited before the ticket request. -/
theorem reply (h : Linked s) {n i : Nat} {error : RpcReturn} {u u' : Upload}
    (hn : s.uploads[n]? = some u) (hinv : u.Inv retryCount)
    (hu' : u.complete retryCount i error = some u') :
    Linked { s with uploads := s.uploads.set n u' } := by
  have hu := List.mem_of_getElem? hn
  obtain ⟨hcall, htask, -⟩ := hinv.complete hu'
  have hreq : u.requested = false := by
    cases hreq : u.requested with
    | false => rfl
    | true =>
      unfold Upload.complete at hu'
      rw [(h.stored u hu hreq).1] at hu'
      cases hu'
  have hnone := h.waiting u hu hreq
  refine h.set hn hcall (fun hT => .inl ?_) (fun _ => htask.trans hnone) fun hreq' => ?_
  · obtain ⟨v, hv, hid, ht⟩ := h.origin hT
    refine ⟨v, hv, hid, ht, ?_⟩
    rintro rfl
    rw [hnone] at ht
    cases ht
  · rw [Upload.complete_requested hu', hreq] at hreq'
    cases hreq'

/-- A ticket makes the task of its write. -/
theorem askTicket (h : Linked s) {n : Nat} {beyond : Nat → Bool} {u : Upload}
    (hn : s.uploads[n]? = some u) (hinv : u.Inv retryCount) (hrc : 0 < u.replicaCount)
    (hwait : u.requested = false) (hreq : u.requestsTicket beyond = true) {s' : Writers}
    (hs : s.askTicket n u = some s') : Linked s' := by
  obtain ⟨w, hw, rfl⟩ := Option.map_eq_some_iff.mp hs
  have hu := List.mem_of_getElem? hn
  have hold : ∀ {id t : Nat} {T : Task}, (s.world.tasks id)[t]? = some T →
      ∃ v ∈ s.uploads, v.id = id ∧ v.task = some t ∧ v ≠ u := by
    intro id t T hT
    obtain ⟨v, hv, hid, ht⟩ := h.origin hT
    refine ⟨v, hv, hid, ht, ?_⟩
    rintro rfl
    rw [h.waiting v hv hwait] at ht
    cases ht
  refine h.set hn ?_ (fun hT => ?_) nofun fun _ => ⟨?_, fun i hi => hinv.stored hrc hreq hi⟩
  · rfl
  · obtain rfl | ⟨o, R, T, hist, -, -, -, -, rfl⟩ := World.takeTicket_cases hw
    · exact .inl (hold hT)
    · rcases World.tasks_ticket hT with hT | ⟨rfl, rfl, -⟩
      · exact .inl (hold hT)
      · refine .inr ⟨rfl, if_pos ?_⟩
        show _ < (Function.update s.world.tasks u.range.id (s.world.tasks u.range.id ++ [T])
          u.range.id).length
        rw [Function.update_self, List.length_append]
        exact Nat.lt_succ_self _
  · simp only [Upload.requestsTicket, Bool.and_eq_true] at hreq
    exact List.isEmpty_iff.mp hreq.1

theorem step (h : Linked s) (hinv : s.Inv retryCount) {seq : Nat → Bool} {a : WriterAction}
    (hok : s.Sound seq a) {s' : Writers} (hs : s.step retryCount a = some s') : Linked s' := by
  obtain ⟨c, u, rfl, hu, rfl⟩ | ⟨n, i, error, u, u', rfl, hn, hu', rfl⟩ |
    ⟨n, beyond, u, rfl, hn, hwait, hreq, hs⟩ | ⟨act, w, rfl, hne, hw, rfl⟩ := step_cases hs
  · exact h.execWrite hu hok.2.2
  · exact h.reply hn (hinv.upload u (List.mem_of_getElem? hn)).1 hu'
  · obtain ⟨hu, hrc⟩ := hinv.upload u (List.mem_of_getElem? hn)
    exact h.askTicket hn hu hrc hwait hreq hs
  · refine ⟨fun {id t T} hT => ?_, h.keys, h.waiting, h.stored⟩
    have hlt := (List.getElem?_eq_some_iff.mp hT).1
    rw [World.step_length hw hne] at hlt
    exact h.origin (List.getElem?_eq_getElem hlt)

end Linked

/-- A write that is no append gets the range that it asks for. -/
def Starts (s : Writers) : Prop :=
  ∀ u ∈ s.uploads, u.append = false → ∀ t, u.task = some t →
    ∀ T, (s.world.tasks u.id)[t]? = some T → T.query.offset = u.offset

theorem Starts.askTicket {retryCount : Nat} {s : Writers} (h : Starts s) (hinv : s.Inv retryCount)
    {n : Nat} {u : Upload} (hn : s.uploads[n]? = some u)
    (hok : s.world.Distinct (.ticket u.range u.append u.adv)) {s' : Writers}
    (hs : s.askTicket n u = some s') : Starts s' := by
  obtain ⟨w, hw, rfl⟩ := Option.map_eq_some_iff.mp hs
  have hu := List.mem_of_getElem? hn
  intro v hv happend t ht T hT
  obtain rfl | ⟨o, R, T', hist, ho, -, hT', -, rfl⟩ := World.takeTicket_cases hw
  · rcases List.mem_or_eq_of_mem_set hv with hv | rfl
    · exact h v hv happend t ht T hT
    · dsimp only at ht
      rw [if_neg (Nat.lt_irrefl _)] at ht
      cases ht
  · rcases World.tasks_ticket hT with hold | ⟨hid, rfl, rfl⟩
    · rcases List.mem_or_eq_of_mem_set hv with hv | rfl
      · exact h v hv happend t ht T hold
      · dsimp only at ht
        split at ht
        · cases ht
          rw [List.getElem?_eq_none (Nat.le_refl _)] at hold
          cases hold
        · cases ht
    · rcases List.mem_or_eq_of_mem_set hv with hv | rfl
      · obtain ⟨S, hS, -⟩ := hinv.task v hv _ ht
        rw [hid, List.getElem?_eq_none (Nat.le_refl _)] at hS
        cases hS
      · obtain ⟨reqs, hreqs⟩ := hinv.tracked.run
        have hquery := World.ticketOf_query ((VmHistory.window hreqs).obj ho) hok.1 u.range u.append
          u.adv R
        have hticket : T.toTicket = World.ticketOf o u.range u.append u.adv R := by
          rw [hT']
          exact Task.start_toTicket _ _ _
        have happend' : u.append = false := happend
        rw [hticket, hquery, happend']
        rfl

theorem Starts.step {retryCount : Nat} {s : Writers} (h : Starts s) (hinv : s.Inv retryCount)
    {a : WriterAction} (hok : s.Ok a) {s' : Writers} (hs : s.step retryCount a = some s') :
    Starts s' := by
  obtain ⟨c, u, rfl, hu, rfl⟩ | ⟨n, i, error, u, u', rfl, hn, hu', rfl⟩ |
    ⟨n, beyond, u, rfl, hn, -, -, hs⟩ | ⟨act, w, rfl, -, hw, rfl⟩ := step_cases hs
  · intro v hv happend t ht
    rcases List.mem_append.mp hv with hv | hv
    · exact h v hv happend t ht
    · obtain ⟨-, htask, -⟩ : u.toWriteCall = c ∧ u.task = none ∧ u.Inv 0 :=
        Upload.Inv.execWrite hu
      rw [List.mem_singleton.mp hv, htask] at ht
      cases ht
  · obtain ⟨hcall, htask, -⟩ := (hinv.upload u (List.mem_of_getElem? hn)).1.complete hu'
    intro v hv happend t ht
    rcases List.mem_or_eq_of_mem_set hv with hv | rfl
    · exact h v hv happend t ht
    · rw [hcall] at happend ⊢
      exact h u (List.mem_of_getElem? hn) happend t (htask ▸ ht)
  · exact h.askTicket hinv hn (hok u hn) hs
  · intro v hv happend t ht T hT
    obtain ⟨S, hS, -⟩ := hinv.task v hv t ht
    obtain ⟨S', hS', hk, -⟩ := World.step_task hw hS
    rw [show (w.tasks v.id)[t]? = some T from hT] at hS'
    cases hS'
    rw [Ticket.query, hk]
    exact h v hv happend t ht S hS

/-- The pages of all writes have less than `2 ^ 32` bytes. -/
theorem short_step {retryCount : Nat} {s s' : Writers} (h : ∀ u ∈ s.uploads, u.pageSize < 2 ^ 32)
    (hinv : s.Inv retryCount) {seq : Nat → Bool} {a : WriterAction} (hok : s.Sound seq a)
    (hs : s.step retryCount a = some s') : ∀ u ∈ s'.uploads, u.pageSize < 2 ^ 32 := by
  obtain ⟨c, u, rfl, hu, rfl⟩ | ⟨n, i, error, u, u', rfl, hn, hu', rfl⟩ |
    ⟨n, beyond, u, rfl, hn, -, -, hs⟩ | ⟨act, w, rfl, -, hw, rfl⟩ := step_cases hs
  · intro v hv
    rcases List.mem_append.mp hv with hv | hv
    · exact h v hv
    · obtain ⟨hcall, -⟩ : u.toWriteCall = c ∧ u.task = none ∧ u.Inv 0 := Upload.Inv.execWrite hu
      rw [List.mem_singleton.mp hv, hcall]
      exact hok.2.1
  · have hmem := List.mem_of_getElem? hn
    obtain ⟨hcall, -⟩ := (hinv.upload u hmem).1.complete hu'
    intro v hv
    rcases List.mem_or_eq_of_mem_set hv with hv | rfl
    · exact h v hv
    · rw [hcall]
      exact h u hmem
  · obtain ⟨w, -, rfl⟩ := Option.map_eq_some_iff.mp hs
    intro v hv
    rcases List.mem_or_eq_of_mem_set hv with hv | rfl
    · exact h v hv
    · exact h u (List.mem_of_getElem? hn)
  · exact h

/-- The writes after a step are those before it and the one that it makes. -/
theorem step_new {retryCount : Nat} {s s' : Writers} {a : WriterAction}
    (hs : s.step retryCount a = some s') {n : Nat} {u : Upload} (hn : s'.uploads[n]? = some u)
    (hlen : s.uploads.length ≤ n) : ∃ c, a = .execWrite c ∧ u.toWriteCall = c := by
  have hlt := (List.getElem?_eq_some_iff.mp hn).1
  obtain ⟨c, v, rfl, hv, rfl⟩ | ⟨m, i, error, v, v', rfl, -, -, rfl⟩ |
    ⟨m, beyond, v, rfl, -, -, -, hs⟩ | ⟨act, w, rfl, -, -, rfl⟩ := step_cases hs
  · obtain ⟨hcall, -⟩ : v.toWriteCall = c ∧ v.task = none ∧ v.Inv 0 := Upload.Inv.execWrite hv
    rcases getElem?_concat hn with hold | ⟨-, rfl⟩
    · exact absurd (List.getElem?_eq_some_iff.mp hold).1 (Nat.not_lt.mpr hlen)
    · exact ⟨c, rfl, hcall⟩
  · rw [List.length_set] at hlt
    omega
  · obtain ⟨w, -, rfl⟩ := Option.map_eq_some_iff.mp hs
    rw [List.length_set] at hlt
    omega
  · exact absurd hlt (Nat.not_lt.mpr hlen)

/-- The roots of a blob stay unless one of its tasks is published. -/
theorem step_roots_same {retryCount : Nat} {s s' : Writers} (h : s.Inv retryCount)
    {a : WriterAction} (hs : s.step retryCount a = some s') {id : Nat}
    (hne : ∀ t outcome, a ≠ .other (.publish id t outcome)) {o : ObjInfo}
    (ho : s.world.hist.vm.objHash id = some o) :
    ∃ o', s'.world.hist.vm.objHash id = some o' ∧ o'.roots = o.roots := by
  obtain ⟨c, u, rfl, hu, rfl⟩ | ⟨n, i, error, u, u', rfl, hn, hu', rfl⟩ |
    ⟨n, beyond, u, rfl, hn, -, -, hs⟩ | ⟨act, w, rfl, -, hw, rfl⟩ := step_cases hs
  · exact ⟨o, ho, rfl⟩
  · exact ⟨o, ho, rfl⟩
  · obtain ⟨w, hw, rfl⟩ := Option.map_eq_some_iff.mp hs
    exact World.step_roots_same h.tracked hw nofun ho
  · exact World.step_roots_same h.tracked hw (fun t outcome he => hne t outcome (he ▸ rfl)) ho

/-- What holds in every state of a run. -/
structure Backed (retryCount : Nat) (seq : Nat → Bool) (base : Nat → PageMap) (s : Writers) :
    Prop where
  inv : s.Inv retryCount
  world : World.Inv seq base s.world
  linked : s.Linked
  starts : s.Starts
  short : ∀ u ∈ s.uploads, u.pageSize < 2 ^ 32

/-- `s'` comes after `s`: the writes of `s` are there, and the system has evolved. -/
structure Leads (base base' : Nat → PageMap) (s s' : Writers) : Prop where
  upload : ∀ {n : Nat} {u : Upload}, s.uploads[n]? = some u →
    ∃ u', s'.uploads[n]? = some u' ∧ u.Later u'
  world : World.Evolves base base' s.world s'.world
  task : ∀ {id t : Nat} {T : Task}, (s.world.tasks id)[t]? = some T →
    ∃ T', (s'.world.tasks id)[t]? = some T' ∧ T'.toTicket = T.toTicket ∧
      (T.state ≠ .running → T'.state = T.state)

theorem Leads.refl (base : Nat → PageMap) (s : Writers) : Leads base base s s :=
  ⟨fun hn => ⟨_, hn, .refl _⟩, .refl _ _, fun hT => ⟨_, hT, rfl, fun _ => rfl⟩⟩

theorem Leads.trans {base base' base'' : Nat → PageMap} {s s' s'' : Writers}
    (h : Leads base base' s s') (h' : Leads base' base'' s' s'') : Leads base base'' s s'' := by
  refine ⟨fun hn => ?_, h.world.trans h'.world, fun hT => ?_⟩
  · obtain ⟨u', hn', hu⟩ := h.upload hn
    obtain ⟨u'', hn'', hu'⟩ := h'.upload hn'
    exact ⟨u'', hn'', hu'.call.trans hu.call, fun t ht => hu'.task t (hu.task t ht)⟩
  · obtain ⟨T', hT', hk, hstate⟩ := h.task hT
    obtain ⟨T'', hT'', hk', hstate'⟩ := h'.task hT'
    refine ⟨T'', hT'', hk'.trans hk, fun hne => ?_⟩
    have hsame := hstate hne
    rw [hstate' (hsame ▸ hne), hsame]

namespace Backed

variable {retryCount : Nat} {seq : Nat → Bool} {base base' : Nat → PageMap} {s s' : Writers}

theorem empty (retryCount : Nat) (seq : Nat → Bool) :
    Backed retryCount seq (fun _ _ => none) {} :=
  ⟨.empty, World.inv_empty seq, .empty, fun _ hu => absurd hu List.not_mem_nil,
    fun _ hu => absurd hu List.not_mem_nil⟩

/-- A write that is replaced by a later state of it. -/
theorem set_later {n : Nat} {u u' : Upload} (hn : s.uploads[n]? = some u) (hu : u.Later u') {m : Nat}
    {v : Upload} (hm : s.uploads[m]? = some v) :
    ∃ v', (s.uploads.set n u')[m]? = some v' ∧ v.Later v' := by
  by_cases he : n = m
  · subst he
    rw [hn] at hm
    cases hm
    have hlt := (List.getElem?_eq_some_iff.mp hn).1
    exact ⟨u', by rw [List.getElem?_set, if_pos rfl, if_pos hlt], hu⟩
  · exact ⟨v, (List.getElem?_set_ne he).trans hm, .refl v⟩

/-- A step of the system within a step of the writes. -/
theorem step_world (h : World.Inv seq base s.world) {a : Action} {w : World}
    (hok : s.world.Ok seq a) (hs : s.world.step a = some w) (uploads : List Upload)
    (hup : ∀ {n : Nat} {u : Upload}, s.uploads[n]? = some u →
      ∃ u', uploads[n]? = some u' ∧ u.Later u') :
    ∃ base', World.Inv seq base' w ∧ Leads base base' s ⟨w, uploads⟩ := by
  obtain ⟨base', h', he⟩ := World.inv_step h hok hs
  exact ⟨base', h', hup, he, fun hT => World.step_task hs hT⟩

theorem step (h : Backed retryCount seq base s) {a : WriterAction} (hok : s.Sound seq a)
    (hs : s.step retryCount a = some s') :
    ∃ base', Backed retryCount seq base' s' ∧ Leads base base' s s' := by
  have hinv := h.inv.step hok.ok hs
  have hlinked := h.linked.step h.inv hok hs
  have hstarts := h.starts.step h.inv hok.ok hs
  have hshort := short_step h.short h.inv hok hs
  obtain ⟨c, u, rfl, hu, rfl⟩ | ⟨n, i, error, u, u', rfl, hn, hu', rfl⟩ |
    ⟨n, beyond, u, rfl, hn, hwait, -, hs⟩ | ⟨act, w, rfl, hne, hw, rfl⟩ := step_cases hs
  · refine ⟨base, ⟨hinv, h.world, hlinked, hstarts, hshort⟩, fun {n v} hn => ⟨v, ?_, .refl v⟩, .refl _ _,
      fun hT => ⟨_, hT, rfl, fun _ => rfl⟩⟩
    exact (List.getElem?_append_left (List.getElem?_eq_some_iff.mp hn).1).trans hn
  · obtain ⟨hcall, htask, -⟩ := (h.inv.upload u (List.mem_of_getElem? hn)).1.complete hu'
    exact ⟨base, ⟨hinv, h.world, hlinked, hstarts, hshort⟩,
      set_later hn ⟨hcall, fun t ht => htask.trans ht⟩, .refl _ _, fun hT => ⟨_, hT, rfl, fun _ => rfl⟩⟩
  · obtain ⟨w, hw, rfl⟩ := Option.map_eq_some_iff.mp hs
    have htask := h.linked.waiting u (List.mem_of_getElem? hn) hwait
    have hticket : s.world.Ok seq (.ticket u.range u.append u.adv) :=
      ⟨hok.2 u hn, (hok.1 u hn).2.1⟩
    have hlater : ∀ task, u.Later { u with requested := true, task := task } := by
      refine fun task => ⟨rfl, fun t ht => ?_⟩
      rw [htask] at ht
      cases ht
    obtain ⟨base', hw', hl⟩ := step_world h.world hticket hw _ (set_later hn (hlater _))
    exact ⟨base', ⟨hinv, hw', hlinked, hstarts, hshort⟩, hl⟩
  · have hact : s.world.Ok seq act := by
      cases act with
      | ticket range append adv => exact absurd rfl (hne range append adv)
      | _ => trivial
    obtain ⟨base', hw', hl⟩ := step_world h.world hact hw s.uploads fun hn => ⟨_, hn, .refl _⟩
    exact ⟨base', ⟨hinv, hw', hlinked, hstarts, hshort⟩, hl⟩

theorem run (h : Backed retryCount seq base s) {as : List WriterAction}
    (hrun : Run (Writers.step retryCount) (Writers.Sound seq) s as s') :
    ∃ base', Backed retryCount seq base' s' ∧ Leads base base' s s' := by
  refine hrun.inv (P := fun t => ∃ base', Backed retryCount seq base' t ∧ Leads base base' s t) ?_
    ⟨base, h, .refl _ _⟩
  rintro t t' a ⟨base', ht, hl⟩ hok hs
  obtain ⟨base'', ht', hl'⟩ := ht.step hok hs
  exact ⟨base'', ht', hl.trans hl'⟩

/-! ### The pages of the leaves -/

/-- Page `i` of the write `u`, which has got its ticket, is the one of the leaf. -/
structure LeafOf (s : Writers) (leaf : RandomSelect) (u : Upload) (i : Nat) : Prop where
  mem : u ∈ s.uploads
  requested : u.requested = true
  lt : i < u.pages
  key : leaf.pageKey = u.pageKey i
  providers : leaf.providers = (u.adv.drop (i * u.replicaCount)).take u.replicaCount

/-- The leaves of a task are those of its write. -/
theorem leafOf_page (h : Backed retryCount seq base s) {u : Upload} (hu : u ∈ s.uploads) {t : Nat}
    (ht : u.task = some t) {T : Task} (hT : (s.world.tasks u.id)[t]? = some T) {x : Nat}
    (h1 : T.first ≤ x) (h2 : x ≤ T.final) : LeafOf s (T.page x) u (x - T.first) := by
  obtain ⟨T', hT', hholds⟩ := h.inv.task u hu t ht
  rw [hT] at hT'
  cases hT'
  obtain ⟨hinv, hrc⟩ := h.inv.upload u hu
  obtain ⟨o, -, hinfo⟩ := h.world.blob_of_task hT
  have hpages : u.pages = T.final + 1 - T.first := by
    rw [hinv.pages_eq, ← hholds.size, hinfo.shape.size, hholds.pageSize]
    exact Nat.mul_div_cancel _ hinv.pageSize
  have hlt : x - T.first < u.pages := by
    omega
  refine ⟨hu, h.linked.requested_of_task hu ht, hlt, ?_, ?_⟩
  · show T.pageKey x = _
    rw [Ticket.pageKey, WriteCall.pageKey, hholds.id, hholds.pageVersion, hholds.pageSize]
  · show replicas _ _ _ = _
    rw [hholds.replicaCount, hholds.adv]
    exact replicas_eq (hinv.counters _ hlt) (hinv.adv_length hrc hlt)

/-- Every leaf in the DHT is one of some write. -/
theorem leafOf_dht (h : Backed retryCount seq base s) {leaf : RandomSelect}
    (hleaf : s.world.dht leaf.pageKey = some (.providers leaf.providers)) :
    ∃ u i, LeafOf s leaf u i := by
  obtain ⟨t, T, hT, hentry⟩ := h.world.owner hleaf
  obtain ⟨u, hu, hid, ht⟩ := h.linked.origin hT
  rw [← hid] at hT
  rcases hentry with ⟨x, h1, h2, ⟨hkey, hproviders⟩ | ⟨-, hnode⟩⟩ | ⟨-, i, j, -, -, -, hnode⟩
  · have hpage := h.leafOf_page hu ht hT h1 h2
    have heq : leaf = T.page x := by
      cases leaf
      cases hproviders
      cases hkey
      rfl
    exact ⟨u, x - T.first, heq ▸ hpage⟩
  · cases hnode
  · cases hnode

/-- What a provider has under the key of a page is that page. -/
theorem page_eq (h : Backed retryCount seq base s) {u : Upload} (hu : u ∈ s.uploads) {i : Nat}
    {p : ProviderDesc} {page : List UInt8} (hpage : s.page p (u.pageKey i) = some page) :
    page = u.page i := by
  unfold Writers.page at hpage
  obtain ⟨r, hr, rfl⟩ := Option.map_eq_some_iff.mp hpage
  have hkey := List.find?_some hr
  rw [decide_eq_true_eq] at hkey
  obtain ⟨v, hv, hacked⟩ := List.mem_flatMap.mp (List.mem_reverse.mp (List.mem_of_find?_eq_some hr))
  obtain ⟨hinv, -⟩ := h.inv.upload v hv
  obtain ⟨j, -, hcopy⟩ := hinv.sent r (hinv.acked r hacked)
  have hsame : v.pageKey j = u.pageKey i := hcopy.key.symm.trans hkey.2
  simp only [WriteCall.pageKey, Query.mk.injEq] at hsame
  obtain ⟨n, hn⟩ := List.mem_iff_getElem?.mp hv
  obtain ⟨m, hm⟩ := List.mem_iff_getElem?.mp hu
  -- page keys are not shared, so it is the same write
  have hnm := h.linked.keys hn hm hsame.1 hsame.2.1
  rw [hnm, hm] at hn
  cases hn
  rw [hcopy.value, hsame.2.2.1, WriteCall.pageBytes_eq_page (h.short u hu)]

/-- The page of a leaf. -/
theorem pageOf (h : Backed retryCount seq base s) {leaf : RandomSelect} {u : Upload} {i : Nat}
    (hl : LeafOf s leaf u i) : s.pageOf leaf = some (u.page i) := by
  have hsome : (leaf.providers.findSome? fun p => s.page p leaf.pageKey).isSome := by
    -- some provider has acknowledged it before the ticket
    obtain ⟨r, hr, hcopy⟩ := (h.linked.stored u hl.mem hl.requested).2 i hl.lt
    rw [List.findSome?_isSome_iff]
    refine ⟨r.adv, ?_, ?_⟩
    · rw [hl.providers, List.mem_iff_getElem?]
      refine ⟨r.k - i * u.replicaCount, ?_⟩
      have hlower := hcopy.lower
      have hupper := hcopy.upper
      rw [Nat.succ_mul] at hupper
      rw [List.getElem?_take, if_pos (by omega), List.getElem?_drop, Nat.add_sub_cancel' hlower]
      exact hcopy.adv
    · rw [Writers.page, Option.isSome_map, List.find?_isSome]
      refine ⟨r, List.mem_reverse.mpr (List.mem_flatMap.mpr ⟨u, hl.mem, hr⟩), decide_eq_true ⟨rfl, ?_⟩⟩
      rw [hl.key]
      exact hcopy.key
  obtain ⟨page, hpage⟩ := Option.isSome_iff_exists.mp hsome
  obtain ⟨p, -, hp⟩ := List.exists_of_findSome?_eq_some hpage
  rw [hl.key] at hp
  rw [Writers.pageOf, hpage, h.page_eq hl.mem hp]

/-- The page of a leaf stays. -/
theorem pageOf_later (h : Backed retryCount seq base s) (h' : Backed retryCount seq base' s')
    (hl : Leads base base' s s') {leaf : RandomSelect}
    (hleaf : s.world.dht leaf.pageKey = some (.providers leaf.providers)) :
    s'.pageOf leaf = s.pageOf leaf := by
  obtain ⟨u, i, hu⟩ := h.leafOf_dht hleaf
  obtain ⟨u', i', hu'⟩ := h'.leafOf_dht (hl.world.dht _ _ hleaf)
  obtain ⟨n, hn⟩ := List.mem_iff_getElem?.mp hu.mem
  obtain ⟨m, hm⟩ := List.mem_iff_getElem?.mp hu'.mem
  obtain ⟨v, hv, hlater⟩ := hl.upload hn
  have hsame : u'.pageKey i' = v.pageKey i := by
    rw [← hu'.key, hu.key, WriteCall.pageKey, WriteCall.pageKey, hlater.call]
  simp only [WriteCall.pageKey, Query.mk.injEq] at hsame
  have hnm := h'.linked.keys hm hv hsame.1 hsame.2.1
  rw [hnm, hv] at hm
  cases hm
  rw [h'.pageOf hu', h.pageOf hu, hsame.2.2.1, hlater.call]

/-- The bytes of a published version stay. -/
theorem byteAt_later (h : Backed retryCount seq base s) (h' : Backed retryCount seq base' s')
    (hl : Leads base base' s s') {id : Nat} {o : ObjInfo} (ho : s.world.hist.vm.objHash id = some o)
    {v : Nat} {r : Root} (hr : o.roots[v]? = some r) (p : Nat) : s'.byteAt r p = s.byteAt r p := by
  obtain ⟨-, -, -, hmap⟩ := h.world.pageMap_later h'.world hl.world ho hr
  unfold byteAt
  rw [hmap]
  cases hleaf : pageMap s.world.dht r (p / r.pageSize) with
  | none => rfl
  | some leaf =>
    dsimp only
    rw [h.pageOf_later h' hl (pageMap_leaf hleaf)]

end Backed

end Writers

end BlobSeer
