import BlobSeer.Client.Stored
import BlobSeer.Fuse.Sends

/-!
# `clone_and_commit`

`clone_and_commit` asks for a clone of the blob without naming a version, so the new blob starts from
the version that is the latest one then, whatever version the mirror shows. `commit` writes the marked
pages to the new blob, one run of pages after the other, while the other clients go on with their
blobs. Each `blob->write` is an `exec_write` of the system of `Writers`.
-/

namespace BlobSeer

open Lib
open VManagement (assigned rootAt)

/-- `commit` on the handler of the new blob: the writes that it has still to make, and the place of the
one that it waits for among the writes of the system. -/
structure Committer where
  writers : Writers
  handler : ObjectHandler
  todo : List (Nat × List UInt8)
  current : Option Nat := none

/-- `blob->write` is called, with the random version of its page keys and the providers that it is
given; it returns `true`; and whatever else happens in the system. -/
inductive CommitAction where
  | write (rnd : Nat) (adv : List ProviderDesc)
  | returned
  | other (a : WriterAction)

namespace Committer

/-- The `exec_write` of a piece of the mapping. -/
def call (s : Committer) (send : Nat × List UInt8) (rnd : Nat) (adv : List ProviderDesc) : WriteCall :=
  ⟨s.handler.id, s.handler.latestRoot, rnd, send.1, send.2.length, fun b => send.2.getD b 0, false,
    adv⟩

/-- The task of the write that `commit` waits for. -/
def awaited (s : Committer) : Option Task :=
  match s.current with
  | some n => s.writers.uploads[n]?.bind s.writers.taskOf
  | none => none

def step (retryCount : Nat) (s : Committer) : CommitAction → Option Committer
  | .write rnd adv =>
    match s.current, s.todo with
    | none, send :: _ =>
      (s.writers.step retryCount (.execWrite (s.call send rnd adv))).map fun w =>
        { s with writers := w, current := some s.writers.uploads.length }
    | _, _ => none
  | .returned =>
    match s.awaited with
    | some T =>
      if T.state = .returned true then some
        { s with
          handler := Solo.setVersion s.handler T.query.version
          todo := s.todo.tail
          current := none }
      else none
    | none => none
  | .other a => (s.writers.step retryCount a).map fun w => { s with writers := w }

/-- What one step does. -/
theorem step_cases {retryCount : Nat} {s s' : Committer} {a : CommitAction}
    (hs : s.step retryCount a = some s') :
    (∃ rnd adv send rest w, a = .write rnd adv ∧ s.current = none ∧ s.todo = send :: rest ∧
        s.writers.step retryCount (.execWrite (s.call send rnd adv)) = some w ∧
        s' = { s with writers := w, current := some s.writers.uploads.length }) ∨
      (∃ T, a = .returned ∧ s.awaited = some T ∧ T.state = .returned true ∧ s' = { s with
        handler := Solo.setVersion s.handler T.query.version
        todo := s.todo.tail
        current := none }) ∨
      ∃ act w, a = .other act ∧ s.writers.step retryCount act = some w ∧
        s' = { s with writers := w } := by
  cases a with
  | write rnd adv =>
    simp only [step] at hs
    split at hs
    · next hcurrent htodo =>
      obtain ⟨w, hw, rfl⟩ := Option.map_eq_some_iff.mp hs
      exact .inl ⟨rnd, adv, _, _, w, rfl, hcurrent, htodo, hw, rfl⟩
    · cases hs
  | returned =>
    simp only [step] at hs
    split at hs
    · next T hT =>
      split at hs
      · next hret =>
        cases hs
        exact .inr (.inl ⟨T, rfl, hT, hret, rfl⟩)
      · cases hs
    · cases hs
  | other act =>
    obtain ⟨w, hw, rfl⟩ := Option.map_eq_some_iff.mp hs
    exact .inr (.inr ⟨act, w, rfl, hw, rfl⟩)

/-- The assumptions on a run: nobody else writes to the new blob, the others are `Sound`, the pages of
`commit` have a size that their buffers can have, and its page keys are of their own. -/
def Ok (seq : Nat → Bool) (s : Committer) : CommitAction → Prop
  | .write rnd _ => 0 < s.handler.latestRoot.replicaCount ∧
    s.handler.latestRoot.pageSize < 2 ^ 32 ∧
    ∀ u ∈ s.writers.uploads, ¬ (u.id = s.handler.id ∧ u.rnd = rnd)
  | .returned => True
  | .other (.execWrite c) => c.id ≠ s.handler.id ∧ s.writers.Sound seq (.execWrite c)
  | .other (.ticket n beyond) => s.writers.Ok (.ticket n beyond) ∧
    ∀ u ∈ s.writers.uploads[n]?, u.id ≠ s.handler.id →
      TicketOk seq s.writers.world.hist (.getTicket u.range u.append)
  | .other _ => True

instance (seq : Nat → Bool) (s : Committer) (a : CommitAction) : Decidable (s.Ok seq a) :=
  match a with
  | .write .. => inferInstanceAs (Decidable (_ ∧ _))
  | .other (.execWrite _) => inferInstanceAs (Decidable (_ ∧ _))
  | .other (.ticket ..) => inferInstanceAs (Decidable (_ ∧ _))
  | .returned | .other (.reply ..) | .other (.other _) => .isTrue trivial

end Committer

/-- `clone_and_commit` up to its first `blob->write`, when `clone` returns `true` and the temporary
file can be renamed. `clone` runs the io service. -/
def cloneAndCommit (retryCount : Nat) (s : Writers) (h : ObjectHandler) (m : LocalMirror UInt8) :
    Option Committer :=
  match s.step retryCount (.other (.clone (h.cloneSource 0) 0)),
      h.clone s.world.hist.vm .answered 0 0, m.land.sends fun _ => true with
  | some w, (true, h), some (true, _, sends) => some { writers := w, handler := h, todo := sends }
  | _, _, _ => none

/-- The write `c` is `blob->write` of a piece of the mapping. -/
structure WriteCall.Carries (c : WriteCall) (send : Nat × List UInt8) : Prop where
  offset : c.offset = send.1
  size : c.size = send.2.length
  buffer : ∀ b, c.buffer b = send.2.getD b 0
  append : c.append = false

/-- The `exec_write` of `u` has returned `true`. -/
def Writers.Acknowledged (s : Writers) (u : Upload) : Prop :=
  ∃ T, s.taskOf u = some T ∧ T.state = .returned true

/-- Whole pages within the first `size` bytes. -/
def Pieces (ps size : Nat) (sends : List (Nat × List UInt8)) : Prop :=
  ∀ send ∈ sends, 0 < ps ∧
    ∃ i e, i < e ∧ e * ps ≤ size ∧ send.1 = i * ps ∧ send.2.length = (e - i) * ps

namespace Committer

variable {retryCount : Nat} {seq : Nat → Bool} {id : Nat} {first : Root}
  {sends : List (Nat × List UInt8)} {base : Nat → PageMap} {s s' : Committer}

/-- What `commit` has done: `first` is the first root of the new blob. -/
structure Inv (retryCount : Nat) (seq : Nat → Bool) (id : Nat) (first : Root)
    (sends : List (Nat × List UInt8)) (base : Nat → PageMap) (s : Committer) : Prop where
  backed : s.writers.Backed retryCount seq base
  obj : ∃ o, s.writers.world.hist.vm.objHash id = some o ∧ o.roots[0]? = some first
  handler : s.handler.id = id ∧ s.handler.latestRoot.pageSize = first.pageSize ∧
    s.handler.latestRoot.replicaCount = first.replicaCount
  todo : ∀ send ∈ s.todo, send ∈ sends
  done : ∀ send ∈ sends, send ∈ s.todo ∨
    ∃ u ∈ s.writers.uploads, u.id = id ∧ u.Carries send ∧ s.writers.Acknowledged u
  own : ∀ {n : Nat} {u : Upload}, s.writers.uploads[n]? = some u → u.id = id →
    (∃ send ∈ sends, u.Carries send) ∧ (s.current = some n ∨ s.writers.Acknowledged u)
  current : ∀ n, s.current = some n → ∃ u send rest, s.writers.uploads[n]? = some u ∧ u.id = id ∧
    s.todo = send :: rest ∧ u.Carries send

/-- A write that has returned stays so. -/
theorem acknowledged_later {s s' : Writers} {base' : Nat → PageMap} (hl : s.Leads base base' s')
    {u u' : Upload} (hu : u.Later u') (h : s.Acknowledged u) : s'.Acknowledged u' := by
  obtain ⟨T, hT, hret⟩ := h
  unfold Writers.taskOf at hT
  split at hT
  · next t ht =>
    obtain ⟨T', hT', -, hstate⟩ := hl.task hT
    have hid : u'.id = u.id := congrArg WriteCall.id hu.call
    refine ⟨T', ?_, ?_⟩
    · rw [Writers.taskOf, hu.task t ht, hid]
      exact hT'
    · rw [hstate (by rw [hret]; nofun), hret]
  · cases hT

namespace Inv

/-- The roots of the new blob have the page size and the replica count of the first one. -/
theorem lastRoot (h : Inv retryCount seq id first sends base s) {o : ObjInfo}
    (ho : s.writers.world.hist.vm.objHash id = some o) :
    o.lastRoot.pageSize = first.pageSize ∧ o.lastRoot.replicaCount = first.replicaCount := by
  obtain ⟨reqs, hreqs⟩ := h.backed.inv.tracked.run
  obtain ⟨ps, rc, huniform⟩ := (VmHistory.uniform hreqs).obj ho
  obtain ⟨o', ho', hfirst⟩ := h.obj
  rw [ho] at ho'
  cases ho'
  obtain ⟨hps, hrc⟩ := huniform.roots first (List.mem_of_getElem? hfirst)
  rw [hps, hrc]
  exact huniform.last

/-- `blob->write` is called on a handler that has the page size and the replica count of its blob. -/
theorem sound_write (h : Inv retryCount seq id first sends base s) {send : Nat × List UInt8}
    {rnd : Nat} {adv : List ProviderDesc} (hok : s.Ok seq (.write rnd adv)) {w : Writers}
    (hw : s.writers.step retryCount (.execWrite (s.call send rnd adv)) = some w) :
    s.writers.Sound seq (.execWrite (s.call send rnd adv)) := by
  obtain ⟨hid, hps, hrc⟩ := h.handler
  obtain ⟨o, ho, -⟩ := h.obj
  have hlast := h.lastRoot ho
  have hcall : (s.call send rnd adv).id = id := hid
  have hroot : s.writers.world.hist.vm.getRoot (s.call send rnd adv).id 0 = o.lastRoot := by
    rw [hcall]
    exact VManagement.getRoot_latest ho
  refine ⟨⟨?_, hok.1, ?_, ?_⟩, hok.2.1, hok.2.2⟩
  · simp only [Writers.step] at hw
    obtain ⟨u, hu, -⟩ := Option.map_eq_some_iff.mp hw
    exact (WriteCall.execWrite_cases hu).1
  · rw [hroot, hlast.1]
    exact hps.symm
  · rw [hroot, hlast.2]
    exact hrc.symm

section Tickets

variable {size : Nat} (hsize : size ≤ first.node.size) (hpieces : Pieces first.pageSize size sends)
  (hseq : seq id = false)

include hsize hpieces hseq

/-- A write of `commit` starts within the first tree of the new blob. -/
theorem placed (h : Inv retryCount seq id first sends base s) {o : ObjInfo}
    (ho : s.writers.world.hist.vm.objHash id = some o) {c : WriteCall} {send : Nat × List UInt8}
    (hsend : send ∈ sends) (hc : c.Carries send) : Placed (seq id) o c.range c.append := by
  obtain ⟨hps, i, e, hie, he, hoffset, hlength⟩ := hpieces send hsend
  obtain ⟨o', ho', hfirst⟩ := h.obj
  rw [ho] at ho'
  cases ho'
  have hgeometry := (h.backed.world.blob ho).blob.geometry
  have hall := ObjInfo.allRoots_of_roots hfirst
  have hmem := List.mem_of_getElem? hall
  have hsame := hgeometry.pageSize hmem
  have hmul : i * first.pageSize + (e - i) * first.pageSize = e * first.pageSize := by
    rw [← Nat.add_mul, Nat.add_sub_cancel' (Nat.le_of_lt hie)]
  have hpos : 0 < (e - i) * first.pageSize := Nat.mul_pos (Nat.sub_pos_of_lt hie) hps
  have hrange : c.range.offset = i * first.pageSize ∧ c.range.size = (e - i) * first.pageSize :=
    ⟨hc.offset.trans hoffset, hc.size.trans hlength⟩
  rw [hc.append, hseq, Placed, ← hsame, hrange.2]
  refine ⟨hps, hpos, ⟨e - i, Nat.mul_comm ..⟩, ?_, fun _ => ?_, nofun, fun _ _ => ?_⟩
  · -- the first tree holds the range
    obtain h0 | ⟨m, hm, hlt⟩ := hgeometry.size hmem
    · omega
    · rw [← hsame] at hm
      have hpow : 2 ^ m < 2 ^ 64 :=
        Nat.lt_of_le_of_lt (Nat.le_mul_of_pos_left _ hps) (hm ▸ hlt)
      refine ⟨m, (Nat.pow_lt_pow_iff_right (by decide)).mp hpow, ?_, hm ▸ hlt⟩
      show c.range.offset + c.range.size ≤ _
      rw [hrange.1, hrange.2, hmul, ← hm]
      omega
  · rw [hrange.1]
    exact ⟨i, Nat.mul_comm ..⟩
  · obtain ⟨r, hr, hmax⟩ := hgeometry.maxSize
    have hle := hgeometry.size_le hall hr (Nat.zero_le _)
    rw [hrange.1]
    omega

theorem sound_ticket (h : Inv retryCount seq id first sends base s) {n : Nat} {beyond : Nat → Bool}
    (hok : s.Ok seq (.other (.ticket n beyond))) : s.writers.Sound seq (.ticket n beyond) := by
  refine ⟨hok.1, fun u hu => ?_⟩
  by_cases hid : u.id = id
  · obtain ⟨⟨send, hsend, hc⟩, -⟩ := h.own hu hid
    refine ⟨(hok.1 u hu).1, fun o ho => ?_⟩
    have hrange : u.range.id = id := hid
    rw [hrange] at ho ⊢
    exact h.placed hsize hpieces hseq ho hsend hc
  · exact hok.2 u hu (h.handler.1.symm ▸ hid)

/-- What happens in the system while `commit` is at work. -/
theorem sound_other (h : Inv retryCount seq id first sends base s) {a : WriterAction}
    (hok : s.Ok seq (.other a)) : s.writers.Sound seq a := by
  cases a with
  | execWrite c => exact hok.2
  | ticket n beyond => exact h.sound_ticket hsize hpieces hseq hok
  | reply n i error => trivial
  | other a => trivial

end Tickets

/-- A step of the system in which `todo` and `current` stay. -/
theorem keep (h : Inv retryCount seq id first sends base s) {w : Writers} {base' : Nat → PageMap}
    (hb : w.Backed retryCount seq base') (hl : s.writers.Leads base base' w)
    (hnew : ∀ {n : Nat} {u : Upload}, w.uploads[n]? = some u → s.writers.uploads.length ≤ n →
      u.id ≠ id) :
    Inv retryCount seq id first sends base' { s with writers := w } := by
  obtain ⟨o, ho, hfirst⟩ := h.obj
  obtain ⟨o', ho', hprefix⟩ := hl.world.roots ho
  refine ⟨hb, ⟨o', ho', getElem?_of_isPrefix hprefix hfirst⟩, h.handler, h.todo, fun send hs => ?_,
    fun {n u} hn hid => ?_, fun n hcurrent => ?_⟩
  · refine (h.done send hs).imp_right ?_
    rintro ⟨u, hu, hid, hc, hret⟩
    obtain ⟨n, hn⟩ := List.mem_iff_getElem?.mp hu
    obtain ⟨u', hn', hlater⟩ := hl.upload hn
    refine ⟨u', List.mem_of_getElem? hn', (congrArg WriteCall.id hlater.call).trans hid, ?_,
      acknowledged_later hl hlater hret⟩
    rw [hlater.call]
    exact hc
  · by_cases hlt : n < s.writers.uploads.length
    · have hold := List.getElem?_eq_getElem hlt
      obtain ⟨u', hn', hlater⟩ := hl.upload hold
      rw [show w.uploads[n]? = some u from hn] at hn'
      cases hn'
      rw [hlater.call] at hid ⊢
      obtain ⟨hcarries, hstate⟩ := h.own hold hid
      exact ⟨hcarries, hstate.imp_right fun hret => acknowledged_later hl hlater hret⟩
    · exact absurd hid (hnew hn (Nat.le_of_not_lt hlt))
  · obtain ⟨u, send, rest, hn, hid, htodo, hc⟩ := h.current n hcurrent
    obtain ⟨u', hn', hlater⟩ := hl.upload hn
    refine ⟨u', send, rest, hn', (congrArg WriteCall.id hlater.call).trans hid, htodo, ?_⟩
    rw [hlater.call]
    exact hc

/-- `blob->write` is called. -/
theorem write (h : Inv retryCount seq id first sends base s) {send : Nat × List UInt8}
    {rest : List (Nat × List UInt8)} (hcurrent : s.current = none) (htodo : s.todo = send :: rest)
    {rnd : Nat} {adv : List ProviderDesc} (hok : s.Ok seq (.write rnd adv)) {w : Writers}
    (hw : s.writers.step retryCount (.execWrite (s.call send rnd adv)) = some w) :
    ∃ base', Inv retryCount seq id first sends base'
        { s with writers := w, current := some s.writers.uploads.length } ∧
      s.writers.Leads base base' w := by
  obtain ⟨base', hb, hl⟩ := h.backed.step (h.sound_write hok hw) hw
  obtain ⟨hid, -⟩ := h.handler
  have hsend : send ∈ sends := h.todo send (htodo ▸ List.mem_cons_self)
  have hcarries : (s.call send rnd adv).Carries send := ⟨rfl, rfl, fun _ => rfl, rfl⟩
  simp only [Writers.step] at hw
  obtain ⟨u, hu, rfl⟩ := Option.map_eq_some_iff.mp hw
  obtain ⟨hcall, -⟩ : u.toWriteCall = s.call send rnd adv ∧ u.task = none ∧ u.Inv 0 :=
    Upload.Inv.execWrite hu
  have hsame : ∀ {n : Nat} {v : Upload}, s.writers.uploads[n]? = some v →
      (s.writers.uploads ++ [u])[n]? = some v := fun hn =>
    (List.getElem?_append_left (List.getElem?_eq_some_iff.mp hn).1).trans hn
  refine ⟨base', ⟨hb, ?_, h.handler, h.todo, fun send' hs => ?_, fun {n v} hn hv => ?_, ?_⟩, hl⟩
  · exact h.obj
  · refine (h.done send' hs).imp_right ?_
    rintro ⟨v, hv, hvid, hc, hret⟩
    exact ⟨v, List.mem_append_left _ hv, hvid, hc, hret⟩
  · rcases getElem?_concat hn with hold | ⟨rfl, rfl⟩
    · obtain ⟨hc, hstate⟩ := h.own hold hv
      rw [hcurrent] at hstate
      rcases hstate with hnow | hret
      · cases hnow
      · exact ⟨hc, .inr hret⟩
    · refine ⟨⟨send, hsend, ?_⟩, .inl rfl⟩
      rw [hcall]
      exact hcarries
  · rintro n ⟨⟩
    refine ⟨u, send, rest, List.getElem?_concat_length, ?_, htodo, ?_⟩
    · rw [hcall]
      exact hid
    · rw [hcall]
      exact hcarries

/-- `blob->write` returns `true`. -/
theorem returned (h : Inv retryCount seq id first sends base s) {T : Task}
    (hT : s.awaited = some T) (hret : T.state = .returned true) :
    Inv retryCount seq id first sends base { s with
      handler := Solo.setVersion s.handler T.query.version
      todo := s.todo.tail
      current := none } := by
  unfold awaited at hT
  split at hT
  · next n hcurrent =>
    obtain ⟨u, send, rest, hn, hid, htodo, hc⟩ := h.current n hcurrent
    rw [hn] at hT
    have hu : s.writers.Acknowledged u := ⟨T, hT, hret⟩
    refine ⟨h.backed, h.obj, h.handler, fun send' hs => h.todo send' (List.mem_of_mem_tail hs),
      fun send' hs => ?_, fun {m v} hm hv => ?_, nofun⟩
    · rcases h.done send' hs with hleft | hdone
      · rw [htodo] at hleft
        rcases List.mem_cons.mp hleft with rfl | hleft
        · exact .inr ⟨u, List.mem_of_getElem? hn, hid, hc, hu⟩
        · refine .inl ?_
          show send' ∈ s.todo.tail
          rw [htodo]
          exact hleft
      · exact .inr hdone
    · obtain ⟨hcarries, hstate⟩ := h.own hm hv
      refine ⟨hcarries, .inr (hstate.elim (fun he => ?_) fun hack => hack)⟩
      rw [hcurrent] at he
      cases he
      rw [hn] at hm
      cases hm
      exact hu
  · cases hT

section Run

variable {size : Nat} (hsize : size ≤ first.node.size) (hpieces : Pieces first.pageSize size sends)
  (hseq : seq id = false)

include hsize hpieces hseq

theorem step (h : Inv retryCount seq id first sends base s) {a : CommitAction} (hok : s.Ok seq a)
    (hs : s.step retryCount a = some s') :
    ∃ base', Inv retryCount seq id first sends base' s' ∧ s.writers.Leads base base' s'.writers := by
  obtain ⟨rnd, adv, send, rest, w, rfl, hcurrent, htodo, hw, rfl⟩ | ⟨T, rfl, hT, hret, rfl⟩ |
    ⟨act, w, rfl, hw, rfl⟩ := step_cases hs
  · exact h.write hcurrent htodo hok hw
  · exact ⟨base, h.returned hT hret, .refl _ _⟩
  · obtain ⟨base', hb, hl⟩ := h.backed.step (h.sound_other hsize hpieces hseq hok) hw
    refine ⟨base', h.keep hb hl fun hn hlen hid => ?_, hl⟩
    obtain ⟨c, rfl, hcall⟩ := Writers.step_new hw hn hlen
    have hne : c.id ≠ s.handler.id := hok.1
    rw [← hcall, hid, h.handler.1] at hne
    exact hne rfl

theorem run (h : Inv retryCount seq id first sends base s) {as : List CommitAction}
    (hrun : Run (Committer.step retryCount) (Committer.Ok seq) s as s') :
    ∃ base', Inv retryCount seq id first sends base' s' ∧ s.writers.Leads base base' s'.writers := by
  refine hrun.inv (P := fun t => ∃ base', Inv retryCount seq id first sends base' t ∧
    s.writers.Leads base base' t.writers) ?_ ⟨base, h, .refl _ _⟩
  rintro t t' a ⟨base', ht, hl⟩ hok hs
  obtain ⟨base'', ht', hl'⟩ := ht.step hsize hpieces hseq hok hs
  exact ⟨base'', ht', hl.trans hl'⟩

end Run

/-- The state at the first `blob->write`: the new blob has one version, the latest one of the
original. -/
theorem start {s : Writers} {h : ObjectHandler} {m : LocalMirror UInt8} {c : Committer}
    (hb : s.Backed retryCount seq base) {o : ObjInfo} (ho : s.world.hist.vm.objHash h.id = some o)
    (hc : cloneAndCommit retryCount s h m = some c) :
    ∃ m' sends base', m.land.sends (fun _ => true) = some (true, m', sends) ∧
      s.step retryCount (.other (.clone (h.cloneSource 0) 0)) = some c.writers ∧
      Inv retryCount seq c.handler.id o.lastRoot sends base' c ∧ s.Leads base base' c.writers := by
  unfold cloneAndCommit at hc
  split at hc
  · next w h' m' sends hw hclone hsends =>
    cases hc
    obtain ⟨base', hb', hl⟩ := hb.step (a := .other (.clone (h.cloneSource 0) 0)) trivial hw
    have hsource : h.cloneSource 0 = h.id := if_pos rfl
    have hroot : rootAt o 0 = o.lastRoot := if_pos (.inl rfl)
    rw [← hsource] at ho
    have hstep := hw
    simp only [Writers.step] at hw
    obtain ⟨w', hw', rfl⟩ := Option.map_eq_some_iff.mp hw
    obtain ⟨rfl, -⟩ := World.step_clone ho hw'
    obtain ⟨rfl, -⟩ := ObjectHandler.clone_of_true ho hclone
    rw [hroot] at *
    refine ⟨m', sends, base', hsends, hstep, ⟨hb', ⟨_, Function.update_self .., rfl⟩, ⟨rfl, rfl, rfl⟩,
      fun _ hs => hs, fun _ hs => .inl hs, fun {n u} hn hid => ?_, ?_⟩, hl⟩
    · -- no write was ever made to the new blob
      obtain ⟨o', ho', -⟩ := hb.inv.blob u (List.mem_of_getElem? hn)
      have hnone := hb.world.next_none
      rw [show u.id = s.world.hist.vm.objCount + 1 from hid, hnone] at ho'
      cases ho'
    · rintro _ ⟨⟩
  · cases hc

end Inv

end Committer

end BlobSeer
