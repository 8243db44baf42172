import BlobSeer.Structures
import Mathlib.Logic.Function.Basic

/-!
# The version manager (`vmanager/vmanagement.cpp`)

The six remote procedures, after the decoding of their arguments. All of them run one after
another in one thread (`mgr_lock` is a null lock), so each one is a step of `VManagement`.

`get_ticket` grows the tree by a `while` loop in 64-bit arithmetic. A request for which the
loop does not end gives `none` (`growLoop`): after 64 doublings the size is `0` and stays `0`,
so running out of the 65 rounds of fuel means that the loop never ends.
-/

namespace BlobSeer

/-- `vmanagement`: the blobs by id, and how many were made (`obj_count`, a signed counter whose
overflow is undefined and not modelled). -/
structure VManagement where
  objHash : Nat → Option ObjInfo := fun _ => none
  objCount : Nat := 0

namespace VManagement

/-- `obj_hash.insert` of a new blob under the next id. -/
def addObj (s : VManagement) (o : ObjInfo) : VManagement :=
  ⟨Function.update s.objHash (s.objCount + 1) (some o), s.objCount + 1⟩

/-- The state of blob `id` is changed in place. -/
def setObj (s : VManagement) (id : Nat) (o : ObjInfo) : VManagement :=
  { s with objHash := Function.update s.objHash id (some o) }

/-- The answer to a version number: the root of that version, or the last one when the version
is `0` or not published yet. -/
def rootAt (o : ObjInfo) (version : Nat) : Root :=
  if version = 0 ∨ version ≥ o.roots.length then o.lastRoot
  else o.roots.getD version {}

/-- `vmanagement::get_root`. -/
def getRoot (s : VManagement) (id version : Nat) : Root :=
  match s.objHash id with
  | some o => rootAt o version
  | none => Root.make 0 0 0 0 0

/-- `vmanagement::create`: the new blob's first root. -/
def create (s : VManagement) (ps rc : Nat) : VManagement × Root :=
  let obj := ObjInfo.new (s.objCount + 1) ps rc
  (s.addObj obj, obj.lastRoot)

/-- `vmanagement::clone`: the reply carries the new id in place of the id of the tree. -/
def clone (s : VManagement) (id version : Nat) : VManagement × Root :=
  match s.objHash id with
  | some o =>
    let root := rootAt o version
    (s.addObj (ObjInfo.ofRoot root), { root with node := { root.node with id := s.objCount + 1 } })
  | none => (s, Root.make 0 0 0 0 0)

/-- The growth loop of `get_ticket`: `while (end > max_size) max_size <<= 1`. -/
def growLoop : Nat → Nat → Nat → Option Nat
  | 0, _, _ => none
  | fuel + 1, last, maxSize =>
    if last > maxSize then growLoop fuel last (u64 (maxSize * 2)) else some maxSize

def grow (last maxSize : Nat) : Option Nat := growLoop 65 last maxSize

/-- The `new_root` of `get_ticket`: a copy of the latest published root, under the new ticket. -/
def newRoot (o : ObjInfo) (query : Query) (maxSize : Nat) : Root :=
  let last := u64 (query.offset + query.size)
  { o.lastRoot with
    node := { o.lastRoot.node with id := query.id, version := o.currentTicket, size := maxSize }
    currentSize := if last > o.lastRoot.currentSize then last else o.lastRoot.currentSize }

/-- The part of `get_ticket` that works on one blob, once `max_size` has grown. -/
def ticket (o : ObjInfo) (query : Query) (maxSize : Nat) : ObjInfo :=
  let last := u64 (query.offset + query.size)
  { o with
    intervals := o.intervals.insert
      ⟨{ query with version := o.currentTicket }, newRoot o query maxSize, false⟩
    currentTicket := u32 (o.currentTicket + 1)
    maxSize := maxSize
    progressSize := if last > o.lastRoot.currentSize then last else o.progressSize }

/-- The range a ticket is given: an append starts at `progress_size`. -/
def assigned (o : ObjInfo) (query : Query) (append : Bool) : Query :=
  if append then { query with offset := o.progressSize } else query

@[simp] theorem assigned_id (o : ObjInfo) (query : Query) (append : Bool) :
    (assigned o query append).id = query.id := by
  unfold assigned
  split <;> rfl

@[simp] theorem assigned_size (o : ObjInfo) (query : Query) (append : Bool) :
    (assigned o query append).size = query.size := by
  unfold assigned
  split <;> rfl

/-- `vmanagement::get_ticket`: `none` when the growth loop does not end. -/
def getTicket (s : VManagement) (query : Query) (append : Bool) :
    Option (VManagement × RpcReturn × VmgrReply) :=
  match s.objHash query.id with
  | none => some (s, .eobj, {})
  | some o =>
    let range := assigned o query append
    match grow (u64 (range.offset + range.size)) o.maxSize with
    | none => none
    | some maxSize =>
      let o' := ticket o range maxSize
      some (s.setObj query.id o', .ok,
        { intervals := o'.intervals, rootSize := maxSize, stableRoot := o.lastRoot })

/-- The loop of `publish`: completed entries leave the front of the list and become roots. -/
def retire : List Root → IntervalList → List Root × IntervalList
  | roots, [] => (roots, [])
  | roots, e :: l => if e.completed then retire (roots ++ [e.root]) l else (roots, e :: l)

/-- The part of `publish` that works on one blob: mark the entry, then retire what is ready. -/
def publishObj (o : ObjInfo) (version : Nat) : ObjInfo :=
  let (roots, intervals) := retire o.roots (o.intervals.complete version)
  { o with roots := roots, intervals := intervals }

/-- `vmanagement::publish`. -/
def publish (s : VManagement) (interval : Query) : VManagement × RpcReturn :=
  match s.objHash interval.id with
  | none => (s, .eobj)
  | some o =>
    if o.intervals.contains interval.version then
      (s.setObj interval.id (publishObj o interval.version), .ok)
    else (s, .eobj)

end VManagement

/-! ## The retirement loop -/

/-- What holds before the loop and is kept by every round holds after it. -/
theorem VManagement.retire_inv {P : List Root → IntervalList → Prop}
    (hP : ∀ {roots e l}, e.completed = true → P roots (e :: l) → P (roots ++ [e.root]) l) :
    ∀ (roots : List Root) (l : IntervalList), P roots l → P (retire roots l).1 (retire roots l).2
  | _, [], h => h
  | roots, e :: l, h => by
    unfold retire
    split
    · rename_i hc
      exact retire_inv hP _ _ (hP hc h)
    · exact h

/-- The loop stops at an entry that is not completed. -/
theorem VManagement.retire_head :
    ∀ {roots : List Root} {l : IntervalList} {e : IntervalEntry},
      (retire roots l).2.head? = some e → e.completed = false
  | _, [], _, h => by simp [retire] at h
  | roots, x :: l, e, h => by
    unfold retire at h
    split at h
    · exact retire_head h
    · rename_i hc
      simp only [List.head?_cons, Option.some.injEq] at h
      subst h
      simpa using hc

/-! ## Requests -/

/-- A call of the version manager, with its decoded arguments. -/
inductive VmRequest where
  | getRoot (id version : Nat)
  | clone (id version : Nat)
  | getTicket (query : Query) (append : Bool)
  | publish (interval : Query)
  | create (ps rc : Nat)
  | getObjcount
deriving DecidableEq, Repr

/-- How a call ends for its client: answered, carried out without an answer, or not carried out. -/
inductive RpcOutcome where
  | answered | replyLost | undelivered
deriving DecidableEq, Repr

/-- What a call sends back besides its status. -/
inductive VmResult where
  | none
  | root (r : Root)
  | reply (r : VmgrReply)
  | count (n : Nat)
deriving DecidableEq, Repr

/-- One call on the version manager; `none` only for a ticket whose growth loop does not end. -/
def VManagement.exec (s : VManagement) : VmRequest → Option (VManagement × RpcReturn × VmResult)
  | .getRoot id version => some (s, .ok, .root (s.getRoot id version))
  | .clone id version => let (s', r) := s.clone id version; some (s', .ok, .root r)
  | .getTicket query append =>
    match s.getTicket query append with
    | some (s', .ok, r) => some (s', .ok, .reply r)
    | some (s', st, _) => some (s', st, .none)
    | none => none
  | .publish interval => let (s', st) := s.publish interval; some (s', st, .none)
  | .create ps rc => let (s', r) := s.create ps rc; some (s', .ok, .root r)
  | .getObjcount => some (s, .ok, .count s.objCount)

end BlobSeer
