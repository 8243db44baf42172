import BlobSeer.Common.CacheMt
import BlobSeer.VManager.Geometry

/-!
# The client's handle on a blob (`client/object_handler.cpp`)

The part of `object_handler` that names a blob and a version: `id`, `latest_root` and the version
cache behind `get_root`. `read`, `get_locations` and `get_size` ask `get_root` for the root of an
explicit version; their own checks on the root come after it.

The version cache is filled under the version found in the reply, whichever blob the handler is on, and
it is kept when the handler goes to another blob. A root under a version number other than `0` is that
version of the blob whose id is in its node. So a published version is looked up rightly exactly when
the cached root, if there is one, is of a tree of the selected blob (`get_root_own_iff`).
-/

namespace BlobSeer

open Lib
open VManagement (rootAt)

/-! ## Replies -/

/-- How a call whose result is a root ends for the client: with a root; in transport, with an error
status or with a wrong number of results, carried out or not; with bytes that cannot be decoded and
leave something in the output; or with an empty buffer, on which `getValue` throws. -/
inductive RootReply where
  | answered
  | failed (executed : Bool)
  | undecodable (left : Root)
  | emptyBuffer
deriving DecidableEq, Repr

namespace RootReply

/-- The version manager has carried out the request. -/
def executed : RootReply → Bool
  | .failed executed => executed
  | _ => true

/-- The failing outcomes. -/
def fails : RootReply → Bool
  | .failed _ => true
  | .undecodable _ => true
  | _ => false

/-- What the output argument holds after a call that is not answered. -/
def output (old : Root) : RootReply → Root
  | .undecodable left => left
  | _ => old

/-- `rpc_get_serialized`: the result, and the output argument. `rpc_client::run` drops the exception
for an empty buffer, which leaves `true` in the result. -/
def getSerialized (reply : RootReply) (answer old : Root) : Bool × Root :=
  match reply with
  | .answered => (true, answer)
  | .emptyBuffer => (true, old)
  | reply => (false, reply.output old)

/-- The outcomes of a call that the rest of the client is modelled with. -/
def ofOutcome : RpcOutcome → RootReply
  | .answered => .answered
  | .replyLost => .failed true
  | .undelivered => .failed false

theorem getSerialized_of_fails {reply : RootReply} (h : reply.fails = true) (answer old : Root) :
    reply.getSerialized answer old = (false, reply.output old) := by
  cases reply with
  | answered => cases h
  | emptyBuffer => cases h
  | failed executed => rfl
  | undecodable left => rfl

theorem getSerialized_output {reply : RootReply} (h : reply ≠ .answered) (answer old : Root) :
    (reply.getSerialized answer old).2 = reply.output old := by
  cases reply with
  | answered => exact absurd rfl h
  | emptyBuffer => rfl
  | failed executed => rfl
  | undecodable left => rfl

theorem getSerialized_ofOutcome (rpc : RpcOutcome) (answer old : Root) :
    (ofOutcome rpc).getSerialized answer old =
      if rpc = .answered then (true, answer) else (false, old) := by
  cases rpc <;> rfl

end RootReply

instance : Coe RpcOutcome RootReply := ⟨RootReply.ofOutcome⟩

/-! ## The handler -/

/-- The members of `object_handler` that matter here; `id` is not set by the constructor. -/
structure ObjectHandler where
  id : Nat
  latestRoot : Root := Root.make 0 0 0 0 0
  versionCache : CacheMt Nat Root (CacheMtLRU Nat) := { policy := {} }

namespace ObjectHandler

/-- The part of `get_root` that asks the version manager. -/
def fetchRoot (h : ObjectHandler) (vm : VManagement) (reply : RootReply) (version : Nat)
    (root : Root) : Bool × Root × ObjectHandler :=
  let (result, root) := reply.getSerialized (vm.getRoot h.id version) root
  (result, root, if result = true ∧ version ≠ 0 then { h with
    versionCache :=
      (h.versionCache.write CacheMtLRU.policy root.node.version root true).2.2 } else h)

/-- `object_handler::get_root`; `root` is what the output argument holds before the call. -/
def getRoot (h : ObjectHandler) (vm : VManagement) (reply : RootReply) (version : Nat)
    (root : Root) : Bool × Root × ObjectHandler :=
  if version = 0 then h.fetchRoot vm reply version root
  else
    match h.versionCache.read CacheMtLRU.policy version with
    | (some root, cache) => (true, root, { h with versionCache := cache })
    | (none, cache) => { h with versionCache := cache }.fetchRoot vm reply version root

/-- `object_handler::create`. -/
def create (h : ObjectHandler) (vm : VManagement) (reply : RootReply) (ps rc : Nat) :
    Bool × ObjectHandler :=
  let (result, latestRoot) := reply.getSerialized (vm.create ps rc).2 h.latestRoot
  (result, { h with latestRoot := latestRoot, id := latestRoot.node.id })

/-- `object_handler::get_latest`. -/
def getLatest (h : ObjectHandler) (vm : VManagement) (reply : RootReply) (id : Nat) :
    Bool × ObjectHandler :=
  let h := if id ≠ 0 then { h with id := id } else h
  let (result, latestRoot, h) := h.getRoot vm reply 0 h.latestRoot
  (result, { h with latestRoot := latestRoot })

/-- The blob that `clone` asks for: `0` stands for the current one. -/
def cloneSource (h : ObjectHandler) (id : Nat) : Nat := if id = 0 then h.id else id

/-- `object_handler::clone`: the tree keeps the id of the old blob, the handler takes the new
one. -/
def clone (h : ObjectHandler) (vm : VManagement) (reply : RootReply) (id version : Nat) :
    Bool × ObjectHandler :=
  let (result, cloneRoot) :=
    reply.getSerialized (vm.clone (h.cloneSource id) version).2 (Root.make 0 0 0 0 0)
  if result = true ∧ cloneRoot.empty = false then
    (true, { h with
      latestRoot := { cloneRoot with node := { cloneRoot.node with id := h.id } }
      id := cloneRoot.node.id })
  else (false, h)

end ObjectHandler

/-! ## The blob of a root -/

namespace VmHistory

/-- The root is published as version `v` of blob `id`. -/
def HasRoot (h : VmHistory) (id v : Nat) (r : Root) : Prop :=
  ∃ o, h.vm.objHash id = some o ∧ o.roots[v]? = some r

/-- All roots of a blob but the first one, published or not, have its id. -/
structure OwnRoots (id : Nat) (o : ObjInfo) : Prop where
  nonempty : 0 < o.roots.length
  roots : ∀ {k r}, 1 ≤ k → o.roots[k]? = some r → r.node.id = id
  pending : ∀ e ∈ o.intervals, e.root.node.id = id

namespace OwnRoots

variable {id : Nat} {o : ObjInfo}

theorem single (id : Nat) (r : Root) (maxSize progressSize : Nat) :
    OwnRoots id { roots := [r], maxSize := maxSize, progressSize := progressSize } := by
  refine ⟨Nat.one_pos, fun hk hr => ?_, fun _ he => absurd he List.not_mem_nil⟩
  rw [List.getElem?_eq_none (by simpa using hk)] at hr
  cases hr

theorem ticket (h : OwnRoots id o) {query : Query} (hid : query.id = id) (maxSize : Nat) :
    OwnRoots id (VManagement.ticket o query maxSize) := by
  refine ⟨h.nonempty, h.roots, fun e he => ?_⟩
  rcases IntervalList.mem_insert he with rfl | he
  · exact hid
  · exact h.pending e he

theorem publish (h : OwnRoots id o) (version : Nat) :
    OwnRoots id (VManagement.publishObj o version) := by
  have hcomplete : ∀ e ∈ o.intervals.complete version, e.root.node.id = id := by
    intro e he
    obtain ⟨x, hx, -, hroot, -⟩ := IntervalList.mem_complete he
    rw [hroot]
    exact h.pending x hx
  obtain ⟨h1, h2, h3⟩ := VManagement.retire_inv
    (P := fun roots l => 0 < roots.length ∧
      (∀ {k r}, 1 ≤ k → roots[k]? = some r → r.node.id = id) ∧ ∀ e ∈ l, e.root.node.id = id)
    (by
      rintro roots e l - ⟨h1, h2, h3⟩
      refine ⟨?_, fun {k r} hk hr => ?_, fun e' he' => h3 e' (List.mem_cons_of_mem _ he')⟩
      · rw [List.length_append]
        exact Nat.add_pos_left h1 _
      · rcases getElem?_concat hr with hr | ⟨-, rfl⟩
        · exact h2 hk hr
        · exact h3 e List.mem_cons_self)
    o.roots (o.intervals.complete version) ⟨h.nonempty, h.roots, hcomplete⟩
  exact ⟨h1, h2, h3⟩

end OwnRoots

variable {h : VmHistory} {reqs : List VmRequest}

theorem ownRoots {ok : VmHistory → VmRequest → Prop} (hrun : Run step ok {} reqs h) :
    ObjInv (fun id o _ _ => OwnRoots id o) h := by
  refine objInv ?_ ?_ ?_ ?_ hrun
  · exact fun id ps rc => .single _ _ _ _
  · exact fun _ _ _ _ => .single _ _ _ _
  · rintro h query append o maxSize ho - - -
    exact ho.ticket (VManagement.assigned_id ..) _
  · rintro id o issued published version ho -
    exact ho.publish _

/-- Version `v ≥ 1` of a blob names the blob and itself. -/
theorem HasRoot.node (hrun : Run step TicketsFit {} reqs h) {id v : Nat} {r : Root}
    (hr : h.HasRoot id v r) (hv : v ≠ 0) : r.node.id = id ∧ r.node.version = v := by
  obtain ⟨o, ho, hr⟩ := hr
  exact ⟨((ownRoots hrun).obj ho).roots (Nat.pos_of_ne_zero hv) hr,
    ((window hrun).obj ho).pending.rootVersion (Nat.pos_of_ne_zero hv) hr⟩

theorem HasRoot.step (hrun : Run step TicketsFit {} reqs h) {h' : VmHistory} {req : VmRequest}
    (hs : h.step req = some h') {id v : Nat} {r : Root} (hr : h.HasRoot id v r) :
    h'.HasRoot id v r := by
  obtain ⟨o, ho, hr⟩ := hr
  obtain ⟨o', ho', hp⟩ := step_roots hs (window hrun).next_none ho
  exact ⟨o', ho', getElem?_of_isPrefix hp hr⟩

/-- The first root of a blob has version `0`, or it is a version of the blob that it was cloned
from. -/
def FirstRoots (h : VmHistory) : Prop :=
  ∀ (id : Nat) (r : Root), h.HasRoot id 0 r → r.node.version ≠ 0 →
    h.HasRoot r.node.id r.node.version r

/-- A published root is the version of its number on the blob that its node names. -/
theorem FirstRoots.hasRoot (hfirst : FirstRoots h) (hrun : Run step TicketsFit {} reqs h) {id v : Nat}
    {r : Root} (hr : h.HasRoot id v r) (hversion : r.node.version ≠ 0) :
    h.HasRoot r.node.id r.node.version r := by
  by_cases hv : v = 0
  · subst hv
    exact hfirst _ _ hr hversion
  · obtain ⟨hid, heq⟩ := hr.node hrun hv
    rw [hid, heq]
    exact hr

theorem FirstRoots.step (hfirst : FirstRoots h) (hrun : Run step TicketsFit {} reqs h)
    {h' : VmHistory} {req : VmRequest} (hs : h.step req = some h') : FirstRoots h' := by
  have hw := window hrun
  -- the first root of a blob that was there before is the same
  have hold : ∀ {id : Nat} {o : ObjInfo} {r : Root}, h.vm.objHash id = some o → h'.HasRoot id 0 r →
      r.node.version ≠ 0 → h'.HasRoot r.node.id r.node.version r := by
    rintro id o r ho ⟨o', ho', hr⟩ hversion
    obtain ⟨p, hp, hprefix⟩ := step_roots hs hw.next_none ho
    rw [ho', Option.some.injEq] at hp
    subst hp
    have hpos := (hw.obj ho).pending.roots_pos
    have hsame := getElem?_of_isPrefix hprefix (List.getElem?_eq_getElem hpos)
    rw [hr] at hsame
    cases hsame
    exact (hfirst _ _ ⟨o, ho, List.getElem?_eq_getElem hpos⟩ hversion).step hrun hs
  intro id r hr hversion
  cases ho : h.vm.objHash id with
  | some o => exact hold ho hr hversion
  | none =>
    obtain ⟨o', ho', hr'⟩ := hr
    -- only a new blob is there after the step and not before it
    have hadd : ∀ {p : ObjInfo}, (h.vm.addObj p).objHash id = some o' → o' = p := by
      intro p hp
      by_cases he : id = h.vm.objCount + 1
      · rw [he, VManagement.addObj] at hp
        dsimp only at hp
        rw [Function.update_self] at hp
        exact (Option.some.inj hp).symm
      · rw [VManagement.addObj] at hp
        dsimp only at hp
        rw [Function.update_of_ne he, ho] at hp
        cases hp
    have hset : ∀ {i : Nat} {p q : ObjInfo}, h.vm.objHash i = some q →
        (h.vm.setObj i p).objHash id ≠ some o' := by
      intro i p q hq hp
      have he : id ≠ i := by
        rintro rfl
        rw [hq] at ho
        cases ho
      rw [VManagement.setObj] at hp
      dsimp only at hp
      rw [Function.update_of_ne he, ho] at hp
      cases hp
    obtain rfl | ⟨ps, rc, -, rfl⟩ | ⟨src, version, o, -, hsrc, rfl⟩ |
      ⟨query, append, o, maxSize, -, hq, -, rfl⟩ | ⟨interval, o, -, hq, -, rfl⟩ := step_cases hs
    · rw [ho] at ho'
      cases ho'
    · -- a new blob starts with version `0`
      cases hadd ho'
      cases hr'
      exact absurd rfl hversion
    · -- a clone starts with a root of the blob that it is made from
      cases hadd ho'
      cases hr'
      have hpos := (hw.obj hsrc).pending.roots_pos
      obtain ⟨k, hk⟩ := List.mem_iff_getElem?.mp (VManagement.rootAt_mem hpos version)
      exact (hfirst.hasRoot hrun ⟨o, hsrc, hk⟩ hversion).step hrun hs
    · exact absurd ho' (hset hq)
    · exact absurd ho' (hset hq)

theorem firstRoots (hrun : Run step TicketsFit {} reqs h) : FirstRoots h := by
  have hinv : (∃ reqs, Run step TicketsFit {} reqs h) ∧ FirstRoots h := by
    refine hrun.inv (P := fun h => (∃ reqs, Run step TicketsFit {} reqs h) ∧ FirstRoots h) ?_
      ⟨⟨[], .nil _⟩, ?_⟩
    · rintro h h' req ⟨⟨reqs, hreqs⟩, hfirst⟩ hok hs
      exact ⟨⟨_, hreqs.append (.single hok hs)⟩, hfirst.step hreqs hs⟩
    · rintro id r ⟨o, ho, -⟩
      cases ho
  exact hinv.2

end VmHistory

/-! ## A session of one handler -/

/-- One handler next to the version manager. -/
structure Session where
  hist : VmHistory := {}
  handler : ObjectHandler

/-- The calls on the handler, with the fate of their request, and the calls of everyone else on the
version manager. `getRoot` stands for a `read`, `get_locations` or `get_size` of an explicit
version. -/
inductive ClientAction where
  | create (ps rc : Nat) (rpc : RpcOutcome)
  | clone (id version : Nat) (rpc : RpcOutcome)
  | getLatest (id : Nat) (rpc : RpcOutcome)
  | getRoot (version : Nat) (rpc : RpcOutcome)
  | other (req : VmRequest)
deriving DecidableEq, Repr

namespace Session

/-- A request is carried out unless it was not delivered. -/
def send (hist : VmHistory) (rpc : RpcOutcome) (req : VmRequest) : Option VmHistory :=
  if rpc = .undelivered then some hist else hist.step req

def step (s : Session) : ClientAction → Option Session
  | .create ps rc rpc => (send s.hist rpc (.create ps rc)).map fun hist =>
      ⟨hist, (s.handler.create s.hist.vm rpc ps rc).2⟩
  | .clone id version rpc =>
    (send s.hist rpc (.clone (s.handler.cloneSource id) version)).map fun hist =>
      ⟨hist, (s.handler.clone s.hist.vm rpc id version).2⟩
  | .getLatest id rpc => some { s with handler := (s.handler.getLatest s.hist.vm rpc id).2 }
  | .getRoot version rpc => some { s with
      handler := (s.handler.getRoot s.hist.vm rpc version (Root.make 0 0 0 0 0)).2.2 }
  | .other req => (s.hist.step req).map fun hist => { s with hist := hist }

/-- Fewer than `2 ^ 32` tickets on every blob. -/
def FewTickets (s : Session) : ClientAction → Prop
  | .other req => TicketsFit s.hist req
  | _ => True

instance (s : Session) (a : ClientAction) : Decidable (s.FewTickets a) :=
  match a with
  | .other req => inferInstanceAs (Decidable (TicketsFit s.hist req))
  | .create .. | .clone .. | .getLatest .. | .getRoot .. => .isTrue trivial

/-- Each root in the version cache is the version of its number on the blob that its node names. -/
structure CacheInv (s : Session) : Prop where
  run : ∃ reqs, Run VmHistory.step TicketsFit {} reqs s.hist
  cache : ∀ {k : Nat} {e : Root × Bool}, k ≠ 0 → s.handler.versionCache.find k = some e →
    s.hist.HasRoot e.1.node.id k e.1

/-- When `get_root(v)` returns `true`, its root is the published version `v` of the selected blob. -/
def AnswersOwn (s : Session) (v : Nat) : Prop :=
  ∀ (rpc : RpcOutcome) (root root' : Root) (h' : ObjectHandler),
    s.handler.getRoot s.hist.vm rpc v root = (true, root', h') →
      s.hist.HasRoot s.handler.id v root'

end Session

/-! ## What `get_root` yields -/

/-- The place of the answer to a version number among the roots. -/
theorem VManagement.rootAt_eq {o : ObjInfo} (hpos : 0 < o.roots.length) (version : Nat) :
    o.roots[if version = 0 ∨ version ≥ o.roots.length then o.roots.length - 1 else version]? =
      some (rootAt o version) := by
  unfold rootAt
  split
  · exact o.lastRoot_eq hpos
  · rename_i h
    have hlt : version < o.roots.length := by omega
    rw [List.getElem?_eq_getElem hlt, List.getD_eq_getElem?_getD, List.getElem?_eq_getElem hlt]
    rfl

theorem VManagement.getRoot_latest {vm : VManagement} {id : Nat} {o : ObjInfo}
    (ho : vm.objHash id = some o) : vm.getRoot id 0 = o.lastRoot := by
  rw [getRoot, ho]
  exact if_pos (.inl rfl)

namespace ObjectHandler

variable (h : ObjectHandler) (vm : VManagement) (rpc : RpcOutcome)

theorem fetchRoot_eq (version : Nat) (root : Root) : h.fetchRoot vm rpc version root =
    if rpc = .answered then (true, vm.getRoot h.id version, if version = 0 then h else { h with
      versionCache := (h.versionCache.write CacheMtLRU.policy
        (vm.getRoot h.id version).node.version (vm.getRoot h.id version) true).2.2 })
    else (false, root, h) := by
  cases rpc with
  | answered =>
    show (true, _, _) = _
    rw [if_pos rfl]
    by_cases hv : version = 0
    · rw [if_pos hv, if_neg fun hc => hc.2 hv]
    · rw [if_neg hv, if_pos ⟨rfl, hv⟩]
  | replyLost => rfl
  | undelivered => rfl

theorem fetchRoot_find (version : Nat) (root : Root) {k : Nat} {e : Root × Bool}
    (hk : (h.fetchRoot vm rpc version root).2.2.versionCache.find k = some e) :
    h.versionCache.find k = some e ∨
      k = (vm.getRoot h.id version).node.version ∧ e.1 = vm.getRoot h.id version := by
  rw [fetchRoot_eq] at hk
  split at hk
  · simp only at hk
    split at hk
    · exact .inl hk
    · rcases CacheMt.find_write _ _ hk with hk | ⟨-, hk⟩
      · exact .inr hk
      · exact .inl hk
  · exact .inl hk

/-- A lookup adds at most the answer of the version manager to the cache. -/
theorem getRoot_find (version : Nat) (root : Root) {k : Nat} {e : Root × Bool}
    (hk : (h.getRoot vm rpc version root).2.2.versionCache.find k = some e) :
    h.versionCache.find k = some e ∨
      k = (vm.getRoot h.id version).node.version ∧ e.1 = vm.getRoot h.id version := by
  have hread := CacheMt.find_read CacheMtLRU.policy h.versionCache version k
  unfold getRoot at hk
  split at hk
  · exact h.fetchRoot_find vm rpc version root hk
  · split at hk
    · rename_i r cache hc
      rw [hc] at hread
      exact .inl (hread.symm.trans hk)
    · rename_i cache hc
      rw [hc] at hread
      rcases fetchRoot_find _ vm rpc version root hk with hk | hk
      · exact .inl (hread.symm.trans hk)
      · exact .inr hk

/-- A lookup of an explicit version is answered from the cache or by the version manager. -/
theorem getRoot_true {version : Nat} (hv : version ≠ 0) {root root' : Root} {h' : ObjectHandler}
    (hget : h.getRoot vm rpc version root = (true, root', h')) :
    (∃ d, h.versionCache.find version = some (root', d)) ∨ root' = vm.getRoot h.id version := by
  have hread := CacheMt.read_eq_find CacheMtLRU.policy h.versionCache version
  unfold getRoot at hget
  rw [if_neg hv] at hget
  split at hget
  · rename_i r cache hc
    rw [hc] at hread
    obtain ⟨e, he, hr⟩ := Option.map_eq_some_iff.1 hread.symm
    simp only [Prod.mk.injEq, true_and] at hget
    refine .inl ⟨e.2, ?_⟩
    rw [he, ← hget.1, ← hr]
  · rw [fetchRoot_eq] at hget
    split at hget
    · simp only [Prod.mk.injEq, true_and] at hget
      exact .inr hget.1.symm
    · cases hget

/-- A cached version is answered from the cache. -/
theorem getRoot_cached {version : Nat} (hv : version ≠ 0) {e : Root × Bool}
    (he : h.versionCache.find version = some e) (root : Root) :
    ∃ h', h.getRoot vm rpc version root = (true, e.1, h') := by
  have hread := CacheMt.read_eq_find CacheMtLRU.policy h.versionCache version
  rw [he, Option.map_some] at hread
  unfold getRoot
  rw [if_neg hv]
  generalize h.versionCache.read CacheMtLRU.policy version = answer at hread
  obtain ⟨found, cache⟩ := answer
  cases hread
  exact ⟨_, rfl⟩

/-- Any other version is asked for. -/
theorem getRoot_asked {version : Nat} (hv : version ≠ 0)
    (hnone : h.versionCache.find version = none) (root : Root) :
    ∃ h', h.getRoot vm .answered version root = (true, vm.getRoot h.id version, h') := by
  have hread := CacheMt.read_eq_find CacheMtLRU.policy h.versionCache version
  rw [hnone, Option.map_none] at hread
  unfold getRoot
  rw [if_neg hv]
  generalize h.versionCache.read CacheMtLRU.policy version = answer at hread
  obtain ⟨found, cache⟩ := answer
  cases hread
  exact ⟨_, rfl⟩

variable (reply : RootReply)

/-- A lookup of the latest version does not touch the cache. -/
theorem getRoot_zero (root : Root) : h.getRoot vm reply 0 root =
    ((reply.getSerialized (vm.getRoot h.id 0) root).1,
      (reply.getSerialized (vm.getRoot h.id 0) root).2, h) := by
  rw [getRoot, if_pos rfl, fetchRoot]
  dsimp only
  rw [if_neg fun hc => hc.2 rfl]

theorem getLatest_cache (id : Nat) : (h.getLatest vm reply id).2.versionCache = h.versionCache := by
  unfold getLatest
  dsimp only
  rw [getRoot_zero]
  split <;> rfl

theorem clone_cache (id version : Nat) :
    (h.clone vm reply id version).2.versionCache = h.versionCache := by
  unfold clone
  dsimp only
  split <;> rfl

/-- What `clone` makes of an answer. -/
theorem clone_of_true {h h' : ObjectHandler} {vm : VManagement} {reply : RootReply}
    {id version : Nat} {o : ObjInfo} (ho : vm.objHash (h.cloneSource id) = some o)
    (hclone : h.clone vm reply id version = (true, h')) :
    h' = { h with
      id := vm.objCount + 1
      latestRoot := { rootAt o version with node := { (rootAt o version).node with id := h.id } } } ∧
      (vm.clone (h.cloneSource id) version).1 = vm.addObj (ObjInfo.ofRoot (rootAt o version)) := by
  have hserver : vm.clone (h.cloneSource id) version =
      (vm.addObj (ObjInfo.ofRoot (rootAt o version)), { rootAt o version with
        node := { (rootAt o version).node with id := vm.objCount + 1 } }) := by
    rw [VManagement.clone, ho]
  cases reply with
  | answered =>
    rw [clone, hserver] at hclone
    exact ⟨(Prod.mk.inj hclone).2.symm, congrArg Prod.fst hserver⟩
  | failed executed => cases hclone
  | undecodable left => cases hclone
  | emptyBuffer => cases hclone

end ObjectHandler

namespace Session.CacheInv

variable {s : Session}

theorem empty (id0 : Nat) : CacheInv { handler := { id := id0 } } :=
  ⟨⟨[], .nil _⟩, fun _ h => by cases h⟩

/-- The answer of the version manager, when it goes into the cache under a number other than
`0`. -/
theorem answer (h : CacheInv s) {id version : Nat}
    (hk : (s.hist.vm.getRoot id version).node.version ≠ 0) :
    s.hist.HasRoot (s.hist.vm.getRoot id version).node.id
      (s.hist.vm.getRoot id version).node.version (s.hist.vm.getRoot id version) := by
  obtain ⟨reqs, hrun⟩ := h.run
  unfold VManagement.getRoot at hk ⊢
  cases ho : s.hist.vm.objHash id with
  | none =>
    rw [ho] at hk
    exact absurd rfl hk
  | some o =>
    simp only [ho] at hk ⊢
    have hat := VManagement.rootAt_eq ((VmHistory.window hrun).obj ho).pending.roots_pos version
    exact (VmHistory.firstRoots hrun).hasRoot hrun ⟨o, ho, hat⟩ hk

/-- A call of the version manager keeps the cache right. -/
theorem setHist (h : CacheInv s) {req : VmRequest} {hist : VmHistory}
    (hok : TicketsFit s.hist req) (hs : s.hist.step req = some hist) {handler : ObjectHandler}
    (hc : handler.versionCache = s.handler.versionCache) : CacheInv ⟨hist, handler⟩ := by
  obtain ⟨reqs, hrun⟩ := h.run
  refine ⟨⟨_, hrun.append (.single hok hs)⟩, fun hk he => ?_⟩
  rw [hc] at he
  exact (h.cache hk he).step hrun hs

theorem send (h : CacheInv s) {rpc : RpcOutcome} {req : VmRequest} {hist : VmHistory}
    (hok : TicketsFit s.hist req) (hs : Session.send s.hist rpc req = some hist)
    {handler : ObjectHandler} (hc : handler.versionCache = s.handler.versionCache) :
    CacheInv ⟨hist, handler⟩ := by
  unfold Session.send at hs
  split at hs
  · cases hs
    refine ⟨h.run, fun hk he => ?_⟩
    rw [hc] at he
    exact h.cache hk he
  · exact h.setHist hok hs hc

theorem step (h : CacheInv s) {a : ClientAction} (hok : s.FewTickets a) {s' : Session}
    (hs : s.step a = some s') : CacheInv s' := by
  cases a with
  | create ps rc rpc =>
    obtain ⟨hist, hsend, rfl⟩ := Option.map_eq_some_iff.1 hs
    have hfit : TicketsFit s.hist (.create ps rc) := trivial
    exact h.send hfit hsend rfl
  | clone src version rpc =>
    obtain ⟨hist, hsend, rfl⟩ := Option.map_eq_some_iff.1 hs
    have hfit : TicketsFit s.hist (.clone (s.handler.cloneSource src) version) := trivial
    exact h.send hfit hsend (s.handler.clone_cache s.hist.vm rpc src version)
  | getLatest i rpc =>
    cases hs
    refine ⟨h.run, fun hk he => h.cache hk ?_⟩
    rw [← he, ObjectHandler.getLatest_cache]
  | getRoot version rpc =>
    cases hs
    refine ⟨h.run, fun hk he => ?_⟩
    rcases s.handler.getRoot_find s.hist.vm rpc version _ he with hold | ⟨rfl, hroot⟩
    · exact h.cache hk hold
    · rw [hroot]
      exact h.answer hk
  | other req =>
    obtain ⟨hist, hstep, rfl⟩ := Option.map_eq_some_iff.1 hs
    exact h.setHist hok hstep rfl

end Session.CacheInv

/-- **The version cache.** In every state that a handler can reach, with any calls of other clients on
the version manager in between: whenever `get_root(v)` with `v ≠ 0` returns `true` its root is the
published version `v` of the selected blob, if and only if version `v` of it is published and the root
that is cached under `v`, if there is one, is of a tree of this blob. -/
theorem get_root_own_iff {id0 : Nat} {s : Session} {as : List ClientAction}
    (hrun : Run Session.step Session.FewTickets { handler := { id := id0 } } as s) {v : Nat}
    (hv : v ≠ 0) :
    s.AnswersOwn v ↔ (∃ o, s.hist.vm.objHash s.handler.id = some o ∧ v < o.roots.length) ∧
      ∀ e, s.handler.versionCache.find v = some e → e.1.node.id = s.handler.id := by
  have h : Session.CacheInv s := hrun.inv (fun hs hok hstep => hs.step hok hstep) (.empty id0)
  obtain ⟨reqs, hvm⟩ := h.run
  have hpublished : ∀ {r : Root}, s.hist.HasRoot s.handler.id v r →
      ∃ o, s.hist.vm.objHash s.handler.id = some o ∧ v < o.roots.length := by
    rintro r ⟨o, ho, hr⟩
    exact ⟨o, ho, (List.getElem?_eq_some_iff.mp hr).1⟩
  constructor
  · intro hown
    cases hfind : s.handler.versionCache.find v with
    | none =>
      obtain ⟨h', hget⟩ := s.handler.getRoot_asked s.hist.vm hv hfind {}
      exact ⟨hpublished (hown .answered _ _ _ hget), nofun⟩
    | some e =>
      obtain ⟨h', hget⟩ := s.handler.getRoot_cached s.hist.vm .answered hv hfind {}
      have hroot := hown .answered _ _ _ hget
      refine ⟨hpublished hroot, fun e' he' => ?_⟩
      cases he'
      exact (hroot.node hvm hv).1
  · rintro ⟨⟨o, ho, hlt⟩, hcached⟩ rpc root root' h' hget
    rcases s.handler.getRoot_true s.hist.vm rpc hv hget with ⟨d, hd⟩ | rfl
    · have hroot := h.cache hv hd
      rw [hcached _ hd] at hroot
      exact hroot
    · refine ⟨o, ho, ?_⟩
      have hat := VManagement.rootAt_eq (Nat.zero_lt_of_lt hlt) v
      rw [if_neg (by omega)] at hat
      rw [VManagement.getRoot, ho]
      exact hat

/-- A handler makes a blob, another client publishes a version of it, and the handler looks it
up. -/
def lookupFirst : List ClientAction :=
  [.create 1 1 .answered, .other (.getTicket ⟨1, 0, 0, 1⟩ false), .other (.publish ⟨1, 1, 0, 0⟩),
    .getRoot 1 .answered]

/-- After the lookup version `1` is answered rightly. -/
theorem get_root_own_cached :
    ∃ s, Run Session.step Session.FewTickets { handler := { id := 0 } } lookupFirst s ∧
      (s.handler.versionCache.find 1).isSome = true ∧ s.AnswersOwn 1 := by
  have hrun : Run Session.step Session.FewTickets { handler := { id := 0 } } lookupFirst _ :=
    Run.of_isSome { handler := { id := 0 } } (by decide +kernel)
  generalize hs : (exec Session.step Session.FewTickets { handler := { id := 0 } }
    lookupFirst).getD { handler := { id := 0 } } = s at hrun
  have hcached : (∃ o ∈ s.hist.vm.objHash s.handler.id, 1 < o.roots.length) ∧
      (s.handler.versionCache.find 1).isSome = true ∧
      ∀ e ∈ s.handler.versionCache.find 1, e.1.node.id = s.handler.id := by
    rw [← hs]
    decide +kernel
  exact ⟨s, hrun, hcached.2.1, (get_root_own_iff hrun (by decide)).mpr ⟨hcached.1, hcached.2.2⟩⟩

/-- After `lookupFirst` the handler makes a second blob, whose version `1` another client publishes. The
cache still answers with the root of the first blob. -/
theorem get_root_other_blob :
    ∃ s o root h', Run Session.step Session.FewTickets { handler := { id := 0 } }
        (lookupFirst ++ [.create 1 1 .answered, .other (.getTicket ⟨2, 0, 0, 1⟩ false),
          .other (.publish ⟨2, 1, 0, 0⟩)]) s ∧
      s.handler.id = 2 ∧ s.hist.vm.objHash 2 = some o ∧ 1 < o.roots.length ∧
      s.handler.getRoot s.hist.vm RpcOutcome.answered 1 {} = (true, root, h') ∧
      o.roots[1]? ≠ some root ∧ root.node.id = 1 := by
  have hrun : Run Session.step Session.FewTickets { handler := { id := 0 } }
    (lookupFirst ++ [.create 1 1 .answered, .other (.getTicket ⟨2, 0, 0, 1⟩ false),
      .other (.publish ⟨2, 1, 0, 0⟩)]) _ :=
    Run.of_isSome { handler := { id := 0 } } (by decide +kernel)
  generalize hs : (exec Session.step Session.FewTickets { handler := { id := 0 } } _).getD
    { handler := { id := 0 } } = s at hrun
  have hfacts : s.handler.id = 2 ∧ ∃ o ∈ s.hist.vm.objHash 2, 1 < o.roots.length ∧
      (s.handler.getRoot s.hist.vm RpcOutcome.answered 1 {}).1 = true ∧
      o.roots[1]? ≠ some (s.handler.getRoot s.hist.vm RpcOutcome.answered 1 {}).2.1 ∧
      (s.handler.getRoot s.hist.vm RpcOutcome.answered 1 {}).2.1.node.id = 1 := by
    rw [← hs]
    decide +kernel
  obtain ⟨hid, o, ho, hlen, htrue, hne, hroot⟩ := hfacts
  exact ⟨s, o, _, _, hrun, hid, ho, hlen, Prod.ext htrue rfl, hne, hroot⟩

end BlobSeer
