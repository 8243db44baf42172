import Mathlib.Logic.Function.Iterate
import BlobSeer.VManager.Basic

/-!
# Requests as they come off the wire (`vmanager/vmanagement.cpp`)

The handlers of the version manager, in front of the procedures of `VManagement`: each one counts its
parameters, decodes them one after another, and answers `earg` when something is wrong. `processor_exec`
calls a handler with nothing around it that catches an exception.
-/

namespace BlobSeer

open VManagement (assigned)

/-- What the archives make of the types that requests carry. -/
structure VmArchive where
  word32 : Archive UInt32
  word64 : Archive UInt64
  query : Archive Query
  flag : Archive Bool

/-- How a handler ends: with an exception, never (`none`), or with a state, a status and a result. -/
abbrev VmReturn := Except String (Option (VManagement × RpcReturn × VmResult))

namespace VmHandler

/-! ## The handlers -/

section Decode

variable {α β : Type}

/-- A request of one parameter; `none` is a wrong argument. -/
def decodeOne (a : Archive α) (request : α → VmRequest) (params : List Buffer) :
    Except String (Option VmRequest) := do
  match params with
  | [p] =>
    match ← p.getValue a with
    | none => pure none
    | some x => pure (some (request x))
  | _ => pure none

/-- A request of two parameters; the second one is not looked at when the first one is wrong. -/
def decodeTwo (a : Archive α) (b : Archive β) (request : α → β → VmRequest)
    (params : List Buffer) : Except String (Option VmRequest) := do
  match params with
  | [p, q] =>
    match ← p.getValue a with
    | none => pure none
    | some x =>
      match ← q.getValue b with
      | none => pure none
      | some y => pure (some (request x y))
  | _ => pure none

end Decode

/-- The request is carried out, or answered by `earg`. -/
def answer (s : VManagement) (request : Except String (Option VmRequest)) : VmReturn := do
  match ← request with
  | none => pure (some (s, .earg, .none))
  | some request => pure (s.exec request)

variable (ar : VmArchive) (params : List Buffer) (s : VManagement)

/-- `vmanagement::get_root`. -/
def getRoot : VmReturn :=
  answer s <| decodeTwo ar.word32 ar.word32 (fun id version => .getRoot id.toNat version.toNat) params

/-- `vmanagement::clone`. -/
def clone : VmReturn :=
  answer s <| decodeTwo ar.word32 ar.word32 (fun id version => .clone id.toNat version.toNat) params

/-- `vmanagement::get_ticket`. -/
def getTicket : VmReturn := answer s <| decodeTwo ar.query ar.flag .getTicket params

/-- `vmanagement::publish`. -/
def publish : VmReturn := answer s <| decodeOne ar.query .publish params

/-- `vmanagement::create`. -/
def create : VmReturn :=
  answer s <| decodeTwo ar.word64 ar.word32 (fun ps rc => .create ps.toNat rc.toNat) params

/-- `vmanagement::get_objcount`. -/
def getObjcount : VmReturn :=
  answer s (.ok (if params.length ≠ 0 then none else some .getObjcount))

end VmHandler

/-- The procedures that the version manager registers with its server. -/
inductive VmRpc where
  | getRoot | clone | getTicket | publish | create | getObjcount
deriving DecidableEq, Repr

/-- The call of `processor_exec`. -/
def VmRpc.handle (ar : VmArchive) (params : List Buffer) (s : VManagement) : VmRpc → VmReturn
  | .getRoot => VmHandler.getRoot ar params s
  | .clone => VmHandler.clone ar params s
  | .getTicket => VmHandler.getTicket ar params s
  | .publish => VmHandler.publish ar params s
  | .create => VmHandler.create ar params s
  | .getObjcount => VmHandler.getObjcount params s

/-! ## What is asked of them -/

/-- The handler returns a status, and when that is not `ok` the blobs are as before. -/
def Withstands (s : VManagement) (r : VmReturn) : Prop :=
  ∃ s' status result, r = .ok (some (s', status, result)) ∧ (status ≠ .ok → s' = s)

/-- The first parameter is empty, or it decodes and the second one is empty. -/
def ReadsEmpty {α : Type} (a : Archive α) (params : List Buffer) : Prop :=
  ∃ p q, params = [p, q] ∧ (p = [] ∨ (a p).isSome ∧ q = [])

/-- A handler is led to decode an empty buffer. -/
def VmRpc.ReadsEmpty (ar : VmArchive) (params : List Buffer) : VmRpc → Prop
  | .getRoot => BlobSeer.ReadsEmpty ar.word32 params
  | .clone => BlobSeer.ReadsEmpty ar.word32 params
  | .getTicket => BlobSeer.ReadsEmpty ar.query params
  | .publish => params = [[]]
  | .create => BlobSeer.ReadsEmpty ar.word64 params
  | .getObjcount => False

/-- Doubling `max_size` in 64 bits reaches the end of the range in the end. -/
def Reaches (last maxSize : Nat) : Prop := ∃ k, last ≤ (fun size => u64 (size * 2))^[k] maxSize

/-- The range of a ticket can be reached. -/
def VManagement.TicketReaches (s : VManagement) : VmRequest → Prop
  | .getTicket query append => ∀ o, s.objHash query.id = some o →
      Reaches (u64 ((assigned o query append).offset + (assigned o query append).size)) o.maxSize
  | _ => True

/-- The range of the ticket that a handler is asked for can be reached. -/
def VmRpc.TicketReaches (ar : VmArchive) (params : List Buffer) (s : VManagement) : VmRpc → Prop
  | .getTicket => ∀ p q query append, params = [p, q] → ar.query p = some query →
      ar.flag q = some append → s.TicketReaches (.getTicket query append)
  | _ => True

/-! ## The growth loop ends -/

theorem iterate_double (maxSize k : Nat) :
    (fun size => u64 (size * 2))^[k + 1] maxSize = u64 (maxSize * 2 ^ (k + 1)) := by
  induction k with
  | zero => rfl
  | succ k ih =>
    rw [Function.iterate_succ_apply', ih, u64, u64, u64, Nat.mod_mul_mod, pow_succ 2 (k + 1),
      Nat.mul_assoc]

theorem growLoop_isSome (last : Nat) :
    ∀ fuel maxSize, (VManagement.growLoop fuel last maxSize).isSome ↔
      ∃ k, k < fuel ∧ last ≤ (fun size => u64 (size * 2))^[k] maxSize
  | 0, maxSize => by simp [VManagement.growLoop]
  | fuel + 1, maxSize => by
    rw [VManagement.growLoop]
    split
    · rename_i hgt
      rw [growLoop_isSome last fuel]
      constructor
      · rintro ⟨k, hk, hlast⟩
        exact ⟨k + 1, Nat.succ_lt_succ hk, hlast⟩
      · rintro ⟨k, hk, hlast⟩
        cases k with
        | zero => exact absurd hlast (Nat.not_le.mpr hgt)
        | succ k => exact ⟨k, Nat.lt_of_succ_lt_succ hk, hlast⟩
    · rename_i hle
      exact iff_of_true rfl ⟨0, Nat.succ_pos _, Nat.not_lt.mp hle⟩

/-- After 64 doublings the size is `0`, and a loop that has not ended by then goes on forever. -/
theorem grow_isSome (last maxSize : Nat) :
    (VManagement.grow last maxSize).isSome ↔ Reaches last maxSize := by
  rw [VManagement.grow, growLoop_isSome]
  constructor
  · rintro ⟨k, -, hlast⟩
    exact ⟨k, hlast⟩
  · rintro ⟨k, hlast⟩
    rcases Nat.lt_or_ge k 65 with hk | hk
    · exact ⟨k, hk, hlast⟩
    · obtain ⟨j, rfl⟩ : ∃ j, k = j + 64 + 1 := ⟨k - 65, by omega⟩
      rw [iterate_double, u64, Nat.add_right_comm, pow_add, ← Nat.mul_assoc,
        Nat.mul_mod_left] at hlast
      exact ⟨0, by decide, hlast.trans (Nat.zero_le _)⟩

/-! ## The handlers return -/

section Withstands

variable {s : VManagement}

theorem withstands_ok (s s' : VManagement) (result : VmResult) :
    Withstands s (.ok (some (s', .ok, result))) :=
  ⟨s', .ok, result, rfl, fun h => absurd rfl h⟩

theorem withstands_same (s : VManagement) (status : RpcReturn) (result : VmResult) :
    Withstands s (.ok (some (s, status, result))) :=
  ⟨s, status, result, rfl, fun _ => rfl⟩

/-- A procedure of the version manager withstands its request, unless the growth loop does not end. -/
theorem exec_withstands (request : VmRequest) :
    Withstands s (.ok (s.exec request)) ↔ s.TicketReaches request := by
  cases request with
  | getRoot id version => exact iff_of_true (withstands_same s .ok _) trivial
  | getObjcount => exact iff_of_true (withstands_same s .ok _) trivial
  | create ps rc => exact iff_of_true (withstands_ok s _ _) trivial
  | clone id version => exact iff_of_true (withstands_ok s _ _) trivial
  | publish interval =>
    refine iff_of_true ?_ trivial
    simp only [VManagement.exec, VManagement.publish]
    split
    · exact withstands_same s .eobj _
    · split
      · exact withstands_ok s _ _
      · exact withstands_same s .eobj _
  | getTicket query append =>
    simp only [VManagement.exec, VManagement.getTicket, VManagement.TicketReaches]
    cases ho : s.objHash query.id with
    | none => exact iff_of_true (withstands_same s .eobj _) fun o h => nomatch h
    | some o =>
      have hgrow := grow_isSome
        (u64 ((assigned o query append).offset + (assigned o query append).size)) o.maxSize
      simp only [Option.some.injEq, forall_eq']
      rw [← hgrow]
      cases hg : VManagement.grow
        (u64 ((assigned o query append).offset + (assigned o query append).size)) o.maxSize with
      | none => exact iff_of_false (fun ⟨_, _, _, h, _⟩ => nomatch h) Bool.false_ne_true
      | some maxSize => exact iff_of_true (withstands_ok s _ _) rfl

variable {α β : Type} {a : Archive α} {b : Archive β} {params : List Buffer}

theorem answer_error (s : VManagement) (what : String) :
    ¬ Withstands s (VmHandler.answer s (.error what)) :=
  fun ⟨_, _, _, h, _⟩ => nomatch h

/-- An empty parameter is decoded; or the request is wrong; or both parameters decode. -/
theorem decodeTwo_cases (a : Archive α) (b : Archive β) (request : α → β → VmRequest)
    (params : List Buffer) :
    (ReadsEmpty a params ∧ ∃ what, VmHandler.decodeTwo a b request params = .error what) ∨
    (¬ ReadsEmpty a params ∧ (∀ p q x y, params = [p, q] → a p = some x → b q ≠ some y) ∧
      VmHandler.decodeTwo a b request params = .ok none) ∨
    ¬ ReadsEmpty a params ∧ ∃ p q x y, params = [p, q] ∧ a p = some x ∧ b q = some y ∧
      VmHandler.decodeTwo a b request params = .ok (some (request x y)) := by
  match params with
  | [p, q] =>
    by_cases hp : p = []
    · subst hp
      exact .inl ⟨⟨[], q, rfl, .inl rfl⟩, _, rfl⟩
    cases hx : a p with
    | none =>
      refine .inr (.inl ⟨?_, ?_, ?_⟩)
      · rintro ⟨_, _, ⟨⟩, h | ⟨h, -⟩⟩
        · exact hp h
        · rw [hx] at h
          cases h
      · rintro _ _ x y ⟨⟩ h
        rw [hx] at h
        cases h
      · simp only [VmHandler.decodeTwo, Buffer.getValue_of_ne_nil a hp, hx]
        rfl
    | some x =>
      by_cases hq : q = []
      · subst hq
        refine .inl ⟨⟨p, [], rfl, .inr ⟨by rw [hx]; rfl, rfl⟩⟩,
          "Trying to get value from empty buffer", ?_⟩
        simp only [VmHandler.decodeTwo, Buffer.getValue_of_ne_nil a hp, hx]
        rfl
      have hne : ¬ ReadsEmpty a [p, q] := by
        rintro ⟨_, _, ⟨⟩, h | ⟨-, h⟩⟩
        · exact hp h
        · exact hq h
      cases hy : b q with
      | none =>
        refine .inr (.inl ⟨hne, ?_, ?_⟩)
        · rintro _ _ x y ⟨⟩ - h
          rw [hy] at h
          cases h
        · simp only [VmHandler.decodeTwo, Buffer.getValue_of_ne_nil a hp,
            Buffer.getValue_of_ne_nil b hq, hx, hy]
          rfl
      | some y =>
        refine .inr (.inr ⟨hne, p, q, x, y, rfl, hx, hy, ?_⟩)
        simp only [VmHandler.decodeTwo, Buffer.getValue_of_ne_nil a hp,
          Buffer.getValue_of_ne_nil b hq, hx, hy]
        rfl
  | [] => exact .inr (.inl ⟨fun ⟨_, _, h, _⟩ => (nomatch h), fun _ _ _ _ h => (nomatch h), rfl⟩)
  | [_] => exact .inr (.inl ⟨fun ⟨_, _, h, _⟩ => (nomatch h), fun _ _ _ _ h => (nomatch h), rfl⟩)
  | _ :: _ :: _ :: _ =>
    exact .inr (.inl ⟨fun ⟨_, _, h, _⟩ => (nomatch h), fun _ _ _ _ h => (nomatch h), rfl⟩)

theorem withstands_two (request : α → β → VmRequest) :
    Withstands s (VmHandler.answer s (VmHandler.decodeTwo a b request params)) ↔
      ¬ ReadsEmpty a params ∧ ∀ p q x y, params = [p, q] → a p = some x → b q = some y →
        s.TicketReaches (request x y) := by
  obtain ⟨hempty, what, heq⟩ | ⟨hne, hwrong, heq⟩ | ⟨hne, p, q, x, y, rfl, hx, hy, heq⟩ :=
    decodeTwo_cases a b request params
  · rw [heq]
    exact iff_of_false (answer_error s what) fun h => h.1 hempty
  · rw [heq]
    refine iff_of_true (withstands_same s .earg .none) ⟨hne, fun p q x y hp hx hy => ?_⟩
    exact absurd hy (hwrong p q x y hp hx)
  · rw [heq]
    refine (exec_withstands (request x y)).trans ⟨fun h => ⟨hne, ?_⟩, fun h => h.2 p q x y rfl hx hy⟩
    rintro _ _ x' y' ⟨⟩ hx' hy'
    rw [hx] at hx'
    rw [hy] at hy'
    cases hx'
    cases hy'
    exact h

theorem withstands_two_of_reaches (request : α → β → VmRequest)
    (hreach : ∀ x y, s.TicketReaches (request x y)) :
    Withstands s (VmHandler.answer s (VmHandler.decodeTwo a b request params)) ↔
      ¬ ReadsEmpty a params := by
  rw [withstands_two]
  exact and_iff_left fun _ _ x y _ _ _ => hreach x y

theorem withstands_one (request : α → VmRequest) (hreach : ∀ x, s.TicketReaches (request x)) :
    Withstands s (VmHandler.answer s (VmHandler.decodeOne a request params)) ↔ params ≠ [[]] := by
  match params with
  | [p] =>
    by_cases hp : p = []
    · subst hp
      exact iff_of_false (answer_error s _) fun h => h rfl
    · refine iff_of_true ?_ (fun h => hp (List.cons.inj h).1)
      simp only [VmHandler.decodeOne, Buffer.getValue_of_ne_nil a hp]
      cases hx : a p with
      | none => exact withstands_same s .earg .none
      | some x => exact (exec_withstands (request x)).mpr (hreach x)
  | [] => exact iff_of_true (withstands_same s .earg .none) nofun
  | _ :: _ :: _ => exact iff_of_true (withstands_same s .earg .none) nofun

end Withstands

/-- A request brings the version manager down only by an empty buffer that is decoded, or by a ticket
for a range that its tree cannot reach. -/
theorem handle_withstands (ar : VmArchive) (rpc : VmRpc) (params : List Buffer) (s : VManagement) :
    Withstands s (rpc.handle ar params s) ↔
      ¬ rpc.ReadsEmpty ar params ∧ rpc.TicketReaches ar params s := by
  have hno : ∀ {P : Prop}, P ↔ P ∧ True := (and_true _).symm.to_iff
  cases rpc with
  | getRoot =>
    refine (withstands_two_of_reaches _ ?_).trans hno
    exact fun _ _ => trivial
  | clone =>
    refine (withstands_two_of_reaches _ ?_).trans hno
    exact fun _ _ => trivial
  | getTicket => exact withstands_two _
  | publish =>
    refine (withstands_one _ ?_).trans hno
    exact fun _ => trivial
  | create =>
    refine (withstands_two_of_reaches _ ?_).trans hno
    exact fun _ _ => trivial
  | getObjcount =>
    refine iff_of_true ?_ ⟨not_false, trivial⟩
    simp only [VmRpc.handle, VmHandler.getObjcount]
    split
    · exact withstands_same s .earg .none
    · exact withstands_same s .ok _

/-- One empty parameter, and the exception of `getValue` leaves the handler. -/
theorem getRoot_throws :
    ¬ Withstands {} (VmRpc.getRoot.handle ⟨fun _ => none, fun _ => none, fun _ => none, fun _ => none⟩
      [[], [0]] {}) :=
  answer_error {} _

end BlobSeer
