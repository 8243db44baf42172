import BlobSeer.Client.Solo

/-!
# Changing the blob of a handler (`object_handler::create`, `get_latest` and `clone`)

`id` is the blob that is written to, `latest_root.node.id` the blob whose tree is read. After a clone
they differ: the reply of the version manager carries the new id in place of the id of the tree, and
the client puts its own old id there. That is the tree's id only if the handler was on the blob that
made the tree (`clone_reads_snapshot_iff`).

`create` and `get_latest` set `id` also when the call has failed: `create` from `latest_root`, which is
still the old one, and `get_latest` before the call. So a failed call leaves the handler on its blob
only if `id` was going to stay the same (`failed_call_keeps_handler`).
-/

namespace BlobSeer

open Lib
open VManagement (rootAt)

/-! ## Clones -/

/-- The handler is on the newest blob and reads the snapshot that this blob starts from. -/
structure ObjectHandler.ReadsFirstRoot (h : ObjectHandler) (vm : VManagement) : Prop where
  id : h.id = vm.objCount
  root : ∃ o r, vm.objHash h.id = some o ∧ o.roots[0]? = some r ∧ h.latestRoot.node = r.node ∧
    ∀ answers rand locate offset size buffer,
      h.readLatest answers rand locate offset size buffer =
        readRoot answers rand locate r 0 offset size buffer

/-- **A handler that cloned.** After a `clone` that returns `true` the handler reads the cloned
snapshot if and only if it was on the blob whose tree the snapshot is. -/
theorem clone_reads_snapshot_iff {h h' : ObjectHandler} {vm : VManagement} {reply : RootReply}
    {id version : Nat} {o : ObjInfo} (ho : vm.objHash (h.cloneSource id) = some o)
    (hclone : h.clone vm reply id version = (true, h')) :
    h'.ReadsFirstRoot (vm.clone (h.cloneSource id) version).1 ↔
      h.id = (rootAt o version).node.id := by
  obtain ⟨rfl, hvm⟩ := ObjectHandler.clone_of_true ho hclone
  have hnew : (vm.addObj (ObjInfo.ofRoot (rootAt o version))).objHash (vm.objCount + 1) =
      some (ObjInfo.ofRoot (rootAt o version)) := Function.update_self ..
  rw [hvm]
  constructor
  · rintro ⟨-, o', r, ho', hr, hnode, -⟩
    rw [hnew, Option.some.injEq] at ho'
    subst ho'
    cases hr
    exact congrArg Query.id hnode
  · intro hid
    refine ⟨rfl, _, _, hnew, rfl, ?_, fun answers rand locate offset size buffer => ?_⟩
    · rw [hid]
    · rw [ObjectHandler.readLatest, hid]

/-- One blob with a published version, next to a second blob. -/
def publishedBlob : List VmRequest :=
  [.create 4 1, .getTicket ⟨1, 9, 0, 4⟩ false, .publish ⟨1, 1, 0, 0⟩, .create 4 1]

/-- The handler of the blob clones it. -/
theorem clone_reads_snapshot_own :
    ∃ s h', Run VmHistory.step TicketsFit {} publishedBlob s ∧
      ({ id := 1 } : ObjectHandler).clone s.vm .answered 0 0 = (true, h') ∧
      h'.ReadsFirstRoot (s.vm.clone 1 0).1 := by
  obtain ⟨s, hrun, o, ho, hnode, h', hclone⟩ :
      ∃ s, Run VmHistory.step TicketsFit {} publishedBlob s ∧
        ∃ o, s.vm.objHash 1 = some o ∧ 1 = (rootAt o 0).node.id ∧
          ∃ h', ({ id := 1 } : ObjectHandler).clone s.vm .answered 0 0 = (true, h') :=
    ⟨_, Run.of_exec rfl, _, rfl, rfl, _, rfl⟩
  exact ⟨s, h', hrun, hclone, (clone_reads_snapshot_iff ho hclone).mpr hnode⟩

/-- A handler on the second blob clones the first one, and then takes the tree to be its own. -/
theorem clone_takes_own_id :
    ∃ s h', Run VmHistory.step TicketsFit {} publishedBlob s ∧
      ({ id := 2 } : ObjectHandler).clone s.vm .answered 1 0 = (true, h') ∧
      0 < (s.vm.getRoot 1 0).node.size ∧ ¬ h'.ReadsFirstRoot (s.vm.clone 1 0).1 := by
  have hrun : Run VmHistory.step TicketsFit {} publishedBlob _ := Run.of_exec rfl
  refine ⟨_, _, hrun, rfl, by decide, ?_⟩
  rintro ⟨-, o, r, ho, hr, hnode, -⟩
  cases ho
  cases hr
  cases hnode

/-! ## Calls of one handler -/

/-- A call that changes what the handler points at. `wrote` is the end of a `write` or `append` that
returned `true`, `other` any call on the version manager. -/
inductive HandlerCall where
  | create (ps rc : Nat) (reply : RootReply)
  | clone (id version : Nat) (reply : RootReply)
  | getLatest (id : Nat) (reply : RootReply)
  | wrote (version : Nat)
  | other (req : VmRequest)
deriving DecidableEq, Repr

/-- The call gets a failing reply. -/
def HandlerCall.fails : HandlerCall → Bool
  | .create _ _ reply => reply.fails
  | .clone _ _ reply => reply.fails
  | .getLatest _ reply => reply.fails
  | _ => false

namespace Session

/-- The result of a call and the handler after it. -/
def callHandler (s : Session) : HandlerCall → Bool × ObjectHandler
  | .create ps rc reply => s.handler.create s.hist.vm reply ps rc
  | .clone id version reply => s.handler.clone s.hist.vm reply id version
  | .getLatest id reply => s.handler.getLatest s.hist.vm reply id
  | .wrote version => (true, Solo.setVersion s.handler version)
  | .other _ => (true, s.handler)

/-- What the version manager carries out. -/
def callServer (s : Session) : HandlerCall → Option VmHistory
  | .create ps rc reply => if reply.executed then s.hist.step (.create ps rc) else some s.hist
  | .clone id version reply =>
    if reply.executed then s.hist.step (.clone (s.handler.cloneSource id) version)
    else some s.hist
  | .other req => s.hist.step req
  | _ => some s.hist

def stepCall (s : Session) (c : HandlerCall) : Option Session :=
  (s.callServer c).map fun hist => ⟨hist, (s.callHandler c).2⟩

/-- The call returned `false` and the handler points where it did. -/
def Unharmed (s : Session) (c : HandlerCall) : Prop :=
  (s.callHandler c).1 = false ∧ (s.callHandler c).2.id = s.handler.id ∧
    (s.callHandler c).2.latestRoot = s.handler.latestRoot

/-- A `create` or `get_latest` is answered, or it would not change `id` anyway and nothing of the
reply was decoded. -/
def Careful (s : Session) : HandlerCall → Prop
  | .create _ _ reply => reply = .answered ∨ s.handler.id = s.handler.latestRoot.node.id ∧
      reply.output s.handler.latestRoot = s.handler.latestRoot
  | .getLatest id reply => reply = .answered ∨ (id = 0 ∨ id = s.handler.id) ∧
      reply.output s.handler.latestRoot = s.handler.latestRoot
  | _ => True

instance (s : Session) (c : HandlerCall) : Decidable (s.Careful c) :=
  match c with
  | .create .. => inferInstanceAs (Decidable (_ ∨ _))
  | .getLatest .. => inferInstanceAs (Decidable (_ ∨ _))
  | .clone .. | .wrote _ | .other _ => .isTrue trivial

/-- A failing call does no harm exactly when it is careful. -/
theorem unharmed_iff {s : Session} {c : HandlerCall} (hfails : c.fails = true) :
    s.Unharmed c ↔ s.Careful c := by
  cases c with
  | create ps rc reply =>
    have hne : reply ≠ .answered := by
      rintro rfl
      cases hfails
    have hget := RootReply.getSerialized_of_fails hfails (s.hist.vm.create ps rc).2
      s.handler.latestRoot
    rw [Unharmed, callHandler, ObjectHandler.create, hget, Careful, or_iff_right hne]
    dsimp only
    constructor
    · rintro ⟨-, hid, hroot⟩
      rw [hroot] at hid
      exact ⟨hid.symm, hroot⟩
    · rintro ⟨hid, hroot⟩
      rw [hroot]
      exact ⟨rfl, hid.symm, rfl⟩
  | clone id version reply =>
    have hget := RootReply.getSerialized_of_fails hfails
      (s.hist.vm.clone (s.handler.cloneSource id) version).2 (Root.make 0 0 0 0 0)
    rw [Unharmed, callHandler, ObjectHandler.clone, hget]
    dsimp only
    rw [if_neg fun h => Bool.false_ne_true h.1]
    exact iff_of_true ⟨rfl, rfl, rfl⟩ trivial
  | getLatest id reply =>
    have hne : reply ≠ .answered := by
      rintro rfl
      cases hfails
    rw [Unharmed, callHandler, ObjectHandler.getLatest, Careful, or_iff_right hne]
    dsimp only
    rw [ObjectHandler.getRoot_zero]
    by_cases hid : id = 0
    · rw [if_neg (not_not_intro hid), RootReply.getSerialized_of_fails hfails]
      exact ⟨fun h => ⟨.inl hid, h.2.2⟩, fun h => ⟨rfl, rfl, h.2⟩⟩
    · rw [if_pos hid, RootReply.getSerialized_of_fails hfails]
      exact ⟨fun h => ⟨.inr h.2.1, h.2.2⟩, fun h => ⟨rfl, h.1.resolve_left hid, h.2⟩⟩
  | wrote version => cases hfails
  | other req => cases hfails

end Session

/-! ## One blob at a time -/

namespace Session

/-- What a write sends fits the blob it is for: the page size and the replica count in `latest_root`
are those of blob `id`. With a page size of `0` a write throws. -/
def OneBlob (s : Session) : Prop :=
  s.handler.latestRoot.pageSize ≠ 0 → ∃ o, s.hist.vm.objHash s.handler.id = some o ∧
    o.Uniform s.handler.latestRoot.pageSize s.handler.latestRoot.replicaCount

/-- The version manager is in a state that it can reach. -/
structure HandlerInv (s : Session) : Prop where
  run : ∃ reqs, Run VmHistory.step (fun _ _ => True) {} reqs s.hist
  oneBlob : s.OneBlob

namespace HandlerInv

variable {s : Session}

theorem empty (id0 : Nat) : HandlerInv { handler := { id := id0 } } :=
  ⟨⟨[], .nil _⟩, fun h => absurd rfl h⟩

/-- A request to the version manager leaves the blob of the handler as it is. -/
theorem setHist (h : HandlerInv s) {hist : VmHistory} {req : VmRequest}
    (hs : hist = s.hist ∨ s.hist.step req = some hist) : HandlerInv { s with hist := hist } := by
  rcases hs with rfl | hs
  · exact h
  obtain ⟨reqs, hrun⟩ := h.run
  refine ⟨⟨_, hrun.append (.single trivial hs)⟩, fun hps => ?_⟩
  obtain ⟨o, ho, hu⟩ := h.oneBlob hps
  exact VmHistory.uniform_step hs ((VmHistory.uniform hrun).id_le ho) ⟨o, ho, hu⟩

/-- A handler that goes on with what it had. -/
theorem setHandler (h : HandlerInv s) {handler : ObjectHandler}
    (hid : handler.id = s.handler.id)
    (hps : handler.latestRoot.pageSize = s.handler.latestRoot.pageSize)
    (hrc : handler.latestRoot.replicaCount = s.handler.latestRoot.replicaCount) :
    HandlerInv { s with handler := handler } := by
  refine ⟨h.run, fun hne => ?_⟩
  rw [hps] at hne
  rw [hid, hps, hrc]
  exact h.oneBlob hne

end HandlerInv

/-- The requests that a call sends are requests of a run of the version manager. -/
theorem callServer_step {s : Session} {c : HandlerCall} {hist : VmHistory}
    (hs : s.callServer c = some hist) : ∃ req, hist = s.hist ∨ s.hist.step req = some hist := by
  cases c with
  | create ps rc reply =>
    refine ⟨.create ps rc, ?_⟩
    rw [callServer] at hs
    split at hs
    · exact .inr hs
    · exact .inl (Option.some.inj hs).symm
  | clone id version reply =>
    refine ⟨.clone (s.handler.cloneSource id) version, ?_⟩
    rw [callServer] at hs
    split at hs
    · exact .inr hs
    · exact .inl (Option.some.inj hs).symm
  | getLatest id reply => exact ⟨.getObjcount, .inl (Option.some.inj hs).symm⟩
  | wrote version => exact ⟨.getObjcount, .inl (Option.some.inj hs).symm⟩
  | other req => exact ⟨req, .inr hs⟩

/-- What a handler points at after a call: what it pointed at before, up to the version of
`latest_root`, or the root in an answer. -/
theorem callHandler_cases {s : Session} {c : HandlerCall} (hok : s.Careful c)
    (hroots : ∀ {i o}, s.hist.vm.objHash i = some o → 0 < o.roots.length) {hist : VmHistory}
    (hs : s.callServer c = some hist) :
    ((s.callHandler c).2.id = s.handler.id ∧
      (s.callHandler c).2.latestRoot.pageSize = s.handler.latestRoot.pageSize ∧
      (s.callHandler c).2.latestRoot.replicaCount = s.handler.latestRoot.replicaCount) ∨
    (s.callHandler c).2.latestRoot.pageSize = 0 ∨
    ∃ o r, hist.vm.objHash (s.callHandler c).2.id = some o ∧ r ∈ o.roots ∧
      (s.callHandler c).2.latestRoot.pageSize = r.pageSize ∧
      (s.callHandler c).2.latestRoot.replicaCount = r.replicaCount := by
  cases c with
  | create ps rc reply =>
    by_cases hne : reply = .answered
    · subst hne
      refine .inr (.inr ?_)
      cases hs
      exact ⟨_, _, Function.update_self .., List.mem_singleton_self _, rfl, rfl⟩
    · obtain ⟨hid, hroot⟩ := Or.resolve_left hok hne
      have hget := RootReply.getSerialized_output hne (s.hist.vm.create ps rc).2
        s.handler.latestRoot
      rw [hroot] at hget
      rw [callHandler, ObjectHandler.create]
      dsimp only
      rw [hget]
      exact .inl ⟨hid.symm, rfl, rfl⟩
  | clone id version reply =>
    cases reply with
    | answered =>
      have hs : s.hist.step (.clone (s.handler.cloneSource id) version) = some hist := hs
      cases ho : s.hist.vm.objHash (s.handler.cloneSource id) with
      | none =>
        rw [callHandler, ObjectHandler.clone, VManagement.clone, ho]
        exact .inl ⟨rfl, rfl, rfl⟩
      | some o =>
        refine .inr (.inr ?_)
        rw [VmHistory.step, VManagement.exec, VManagement.clone, ho] at hs
        cases hs
        rw [callHandler, ObjectHandler.clone, VManagement.clone, ho]
        exact ⟨_, _, Function.update_self .., List.mem_singleton_self _, rfl, rfl⟩
    | failed executed => exact .inl ⟨rfl, rfl, rfl⟩
    | undecodable left => exact .inl ⟨rfl, rfl, rfl⟩
    | emptyBuffer => exact .inl ⟨rfl, rfl, rfl⟩
  | getLatest id reply =>
    rw [callHandler, ObjectHandler.getLatest]
    dsimp only
    rw [ObjectHandler.getRoot_zero]
    by_cases hne : reply = .answered
    · subst hne
      generalize (if id ≠ 0 then { s.handler with id := id } else s.handler) = h
      cases hs
      rw [VManagement.getRoot, RootReply.getSerialized]
      cases ho : s.hist.vm.objHash h.id with
      | none => exact .inr (.inl rfl)
      | some o =>
        exact .inr (.inr ⟨o, _, rfl, VManagement.rootAt_mem (hroots ho) 0, rfl, rfl⟩)
    · obtain ⟨hid, hroot⟩ := Or.resolve_left hok hne
      have hsame : (if id ≠ 0 then { s.handler with id := id } else s.handler) = s.handler := by
        rcases hid with rfl | rfl
        · rfl
        · split <;> rfl
      rw [hsame, RootReply.getSerialized_output hne, hroot]
      exact .inl ⟨rfl, rfl, rfl⟩
  | wrote version => exact .inl ⟨rfl, rfl, rfl⟩
  | other req => exact .inl ⟨rfl, rfl, rfl⟩

theorem HandlerInv.step {s s' : Session} (h : HandlerInv s) {c : HandlerCall} (hok : s.Careful c)
    (hs : s.stepCall c = some s') : HandlerInv s' := by
  obtain ⟨hist, hserver, rfl⟩ := Option.map_eq_some_iff.mp hs
  obtain ⟨req, hreq⟩ := callServer_step hserver
  have hhist := h.setHist hreq
  obtain ⟨reqs, hrun⟩ := h.run
  have hroots : ∀ {i o}, s.hist.vm.objHash i = some o → 0 < o.roots.length := by
    intro i o ho
    obtain ⟨_, _, hu⟩ := (VmHistory.uniform hrun).obj ho
    exact hu.nonempty
  rcases callHandler_cases hok hroots hserver with
    ⟨hid, hps, hrc⟩ | hzero | ⟨o, r, ho, hr, hps, hrc⟩
  · exact hhist.setHandler hid hps hrc
  · exact ⟨hhist.run, fun hne => absurd hzero hne⟩
  · refine ⟨hhist.run, fun _ => ⟨o, ho, ?_⟩⟩
    obtain ⟨reqs', hrun'⟩ := hhist.run
    obtain ⟨ps, rc, hu⟩ := (VmHistory.uniform hrun').obj ho
    obtain ⟨hrps, hrrc⟩ := hu.roots r hr
    rw [hps, hrc, hrps, hrrc]
    exact hu

end Session

/-- **A call that fails.** In any state the handler stays on its blob, with its `latest_root`, exactly
when the call is careful; and in every run of careful calls, what a write sends fits the blob it is
for. -/
theorem failed_call_keeps_handler (s : Session) :
    (∀ c : HandlerCall, c.fails = true → (s.Unharmed c ↔ s.Careful c)) ∧
    ∀ (id0 : Nat) (calls : List HandlerCall),
      Run Session.stepCall Session.Careful { handler := { id := id0 } } calls s → s.OneBlob := by
  refine ⟨fun c hfails => Session.unharmed_iff hfails, fun id0 calls hrun => ?_⟩
  have hinv : Session.HandlerInv s := hrun.inv (fun h hok hs => h.step hok hs) (.empty id0)
  exact hinv.oneBlob

/-- Two blobs of different page sizes, and a clone of the first one made from the second one. -/
def cloneFromOther : List HandlerCall :=
  [.create 4 1 .answered, .create 8 2 .answered, .clone 1 0 .answered]

/-- A failed `clone` leaves the handler on the clone. -/
theorem failed_call_keeps_handler_clone :
    ∃ s, Run Session.stepCall Session.Careful { handler := { id := 0 } } cloneFromOther s ∧
      s.handler.id = 3 ∧ s.OneBlob ∧ s.Unharmed (.clone 2 0 (.failed false)) := by
  obtain ⟨s, hrun, hid⟩ : ∃ s, Run Session.stepCall Session.Careful { handler := { id := 0 } }
      cloneFromOther s ∧ s.handler.id = 3 := ⟨_, Run.of_exec rfl, rfl⟩
  obtain ⟨hfails, hone⟩ := failed_call_keeps_handler s
  exact ⟨s, hrun, hid, hone 0 cloneFromOther hrun,
    (hfails (.clone 2 0 (.failed false)) rfl).mpr trivial⟩

/-- A failed `create` takes the handler to the second blob, with the page size of the first one. -/
theorem failed_create_mixes_blobs :
    ∃ s s', Run Session.stepCall Session.Careful { handler := { id := 0 } } cloneFromOther s ∧
      s.stepCall (.create 4 1 (.failed false)) = some s' ∧
      ¬ s.Unharmed (.create 4 1 (.failed false)) ∧ s'.handler.id = 2 ∧
      s'.handler.latestRoot.pageSize = 4 ∧ ¬ s'.OneBlob := by
  refine ⟨_, _, Run.of_exec rfl, rfl, ?_, rfl, rfl, ?_⟩
  · rintro ⟨-, hid, -⟩
    cases hid
  · intro hone
    obtain ⟨o, ho, hu⟩ := hone (by decide)
    cases ho
    exact absurd hu.last.1 (by decide)

end BlobSeer
