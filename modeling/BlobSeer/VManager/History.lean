import BlobSeer.Lib.Run
import BlobSeer.VManager.Basic

/-!
# Runs of the version manager, with their history

`VmHistory` adds two history variables to the version manager: the tickets issued on each blob,
in the order in which they were issued and with the ranges they were given, and the versions
whose publish was accepted. `VmHistory.objInv` turns an invariant of one blob into an
invariant of every run: it is enough to look at a new blob, a clone, one ticket and one publish.
-/

namespace BlobSeer

open Lib (Run)
open VManagement (rootAt grow ticket assigned publishObj)

structure VmHistory where
  vm : VManagement := {}
  issued : Nat → List Query := fun _ => []
  published : Nat → List Nat := fun _ => []

namespace VmHistory

/-- The tickets issued on each blob, after a call with the given status. -/
def recordTicket (h : VmHistory) : VmRequest → RpcReturn → Nat → List Query
  | .getTicket query append, .ok =>
    match h.vm.objHash query.id with
    | some o => Function.update h.issued query.id (h.issued query.id ++
        [{ assigned o query append with version := o.currentTicket }])
    | none => h.issued
  | _, _ => h.issued

/-- The versions published on each blob, after a call with the given status. -/
def recordPublish (h : VmHistory) : VmRequest → RpcReturn → Nat → List Nat
  | .publish interval, .ok =>
    Function.update h.published interval.id (interval.version :: h.published interval.id)
  | _, _ => h.published

def step (h : VmHistory) (req : VmRequest) : Option VmHistory :=
  match h.vm.exec req with
  | none => none
  | some (vm, st, _) =>
    some { vm := vm, issued := h.recordTicket req st, published := h.recordPublish req st }

/-- A ticket request on an existing blob is answered when the growth loop ends. -/
theorem step_getTicket {h h' : VmHistory} {query : Query} {append : Bool} {o : ObjInfo}
    (ho : h.vm.objHash query.id = some o) (hs : h.step (.getTicket query append) = some h') :
    ∃ maxSize, grow (u64 ((assigned o query append).offset + (assigned o query append).size))
        o.maxSize = some maxSize ∧
      h' = { h with
        vm := h.vm.setObj query.id (ticket o (assigned o query append) maxSize)
        issued := Function.update h.issued query.id (h.issued query.id ++
          [{ assigned o query append with version := o.currentTicket }]) } := by
  simp only [step, VManagement.exec, VManagement.getTicket, ho] at hs
  cases hg : grow (u64 ((assigned o query append).offset + (assigned o query append).size))
      o.maxSize with
  | none => simp only [hg] at hs; cases hs
  | some maxSize =>
    simp only [hg, recordTicket, ho, Option.some.injEq] at hs
    exact ⟨maxSize, rfl, hs.symm⟩

/-- What one call does to the version manager and to its history. -/
theorem step_cases {h h' : VmHistory} {req : VmRequest} (hs : h.step req = some h') :
    h' = h ∨
    (∃ ps rc, req = .create ps rc ∧
      h' = { h with vm := h.vm.addObj (ObjInfo.new (h.vm.objCount + 1) ps rc) }) ∨
    (∃ id version o, req = .clone id version ∧ h.vm.objHash id = some o ∧
      h' = { h with vm := h.vm.addObj (ObjInfo.ofRoot (rootAt o version)) }) ∨
    (∃ query append o maxSize, req = .getTicket query append ∧ h.vm.objHash query.id = some o ∧
      grow (u64 ((assigned o query append).offset + (assigned o query append).size)) o.maxSize =
        some maxSize ∧
      h' = { h with
        vm := h.vm.setObj query.id (ticket o (assigned o query append) maxSize)
        issued := Function.update h.issued query.id (h.issued query.id ++
          [{ assigned o query append with version := o.currentTicket }]) }) ∨
    (∃ interval o, req = .publish interval ∧ h.vm.objHash interval.id = some o ∧
      o.intervals.contains interval.version = true ∧
      h' = { h with
        vm := h.vm.setObj interval.id (publishObj o interval.version)
        published := Function.update h.published interval.id
          (interval.version :: h.published interval.id) }) := by
  cases req with
  | getRoot id version =>
    simp only [step, VManagement.exec, Option.some.injEq] at hs
    exact .inl hs.symm
  | getObjcount =>
    simp only [step, VManagement.exec, Option.some.injEq] at hs
    exact .inl hs.symm
  | create ps rc =>
    simp only [step, VManagement.exec, VManagement.create, Option.some.injEq] at hs
    exact .inr (.inl ⟨ps, rc, rfl, hs.symm⟩)
  | clone id version =>
    simp only [step, VManagement.exec, VManagement.clone] at hs
    cases ho : h.vm.objHash id with
    | none =>
      simp only [ho, Option.some.injEq] at hs
      exact .inl hs.symm
    | some o =>
      simp only [ho, Option.some.injEq] at hs
      exact .inr (.inr (.inl ⟨id, version, o, rfl, ho, hs.symm⟩))
  | getTicket query append =>
    cases ho : h.vm.objHash query.id with
    | none =>
      simp only [step, VManagement.exec, VManagement.getTicket, ho, Option.some.injEq] at hs
      exact .inl hs.symm
    | some o =>
      obtain ⟨maxSize, hg, rfl⟩ := step_getTicket ho hs
      exact .inr (.inr (.inr (.inl ⟨query, append, o, maxSize, rfl, ho, hg, rfl⟩)))
  | publish interval =>
    simp only [step, VManagement.exec, VManagement.publish] at hs
    cases ho : h.vm.objHash interval.id with
    | none =>
      simp only [ho, Option.some.injEq] at hs
      exact .inl hs.symm
    | some o =>
      simp only [ho] at hs
      by_cases hc : o.intervals.contains interval.version = true
      · simp only [hc, if_true, Option.some.injEq] at hs
        exact .inr (.inr (.inr (.inr ⟨interval, o, rfl, ho, hc, hs.symm⟩)))
      · simp only [hc, Bool.false_eq_true, if_false, Option.some.injEq] at hs
        exact .inl hs.symm

/-! ## Invariants of one blob -/

/-- Every blob satisfies `P`, ids are given out in order, and a blob that is not there has no
history. -/
structure ObjInv (P : Nat → ObjInfo → List Query → List Nat → Prop) (h : VmHistory) : Prop where
  obj : ∀ {id o}, h.vm.objHash id = some o → P id o (h.issued id) (h.published id)
  id_pos : ∀ {id o}, h.vm.objHash id = some o → 1 ≤ id
  id_le : ∀ {id o}, h.vm.objHash id = some o → id ≤ h.vm.objCount
  fresh : ∀ {id}, h.vm.objHash id = none → h.issued id = [] ∧ h.published id = []

namespace ObjInv

variable {P : Nat → ObjInfo → List Query → List Nat → Prop} {h : VmHistory}

theorem empty : ObjInv P {} :=
  ⟨fun h => (by cases h), fun h => (by cases h), fun h => (by cases h), fun _ => ⟨rfl, rfl⟩⟩

/-- The next id is not taken. -/
theorem next_none (hi : ObjInv P h) : h.vm.objHash (h.vm.objCount + 1) = none := by
  cases ho : h.vm.objHash (h.vm.objCount + 1) with
  | none => rfl
  | some o => exact absurd (hi.id_le ho) (by omega)

/-- A blob made under the next id. -/
theorem addObj (hi : ObjInv P h) {o : ObjInfo} (hP : P (h.vm.objCount + 1) o [] []) :
    ObjInv P { h with vm := h.vm.addObj o } := by
  have hf := hi.fresh hi.next_none
  refine ⟨fun {i p} hp => ?_, fun {i p} hp => ?_, fun {i p} hp => ?_, fun {i} hp => ?_⟩ <;>
    by_cases he : i = h.vm.objCount + 1
  · subst he
    simp only [VManagement.addObj, Function.update_self, Option.some.injEq] at hp
    subst hp
    simpa only [hf.1, hf.2] using hP
  · simp only [VManagement.addObj, Function.update_of_ne he] at hp
    exact hi.obj hp
  · omega
  · simp only [VManagement.addObj, Function.update_of_ne he] at hp
    exact hi.id_pos hp
  · simp [VManagement.addObj, he]
  · simp only [VManagement.addObj, Function.update_of_ne he] at hp
    exact Nat.le_succ_of_le (hi.id_le hp)
  · simp [VManagement.addObj, he] at hp
  · simp only [VManagement.addObj, Function.update_of_ne he] at hp
    exact hi.fresh hp

/-- A change of one blob, with a change of its history only. -/
theorem setObj (hi : ObjInv P h) {id : Nat} {o o' : ObjInfo} {issued : List Query}
    {published : List Nat} (ho : h.vm.objHash id = some o) (hP : P id o' issued published) :
    ObjInv P ⟨h.vm.setObj id o', Function.update h.issued id issued,
      Function.update h.published id published⟩ := by
  refine ⟨fun {i p} hp => ?_, fun {i p} hp => ?_, fun {i p} hp => ?_, fun {i} hp => ?_⟩ <;>
    by_cases he : i = id
  · subst he
    simp only [VManagement.setObj, Function.update_self, Option.some.injEq] at hp ⊢
    subst hp
    exact hP
  · simp only [VManagement.setObj, Function.update_of_ne he] at hp ⊢
    exact hi.obj hp
  · rw [he]; exact hi.id_pos ho
  · simp only [VManagement.setObj, Function.update_of_ne he] at hp
    exact hi.id_pos hp
  · rw [he]; exact hi.id_le ho
  · simp only [VManagement.setObj, Function.update_of_ne he] at hp
    exact hi.id_le hp
  · simp [VManagement.setObj, he] at hp
  · simp only [VManagement.setObj, Function.update_of_ne he] at hp ⊢
    exact hi.fresh hp

end ObjInv

section objInv

variable {P : Nat → ObjInfo → List Query → List Nat → Prop} {ok : VmHistory → VmRequest → Prop}
  (hnew : ∀ id ps rc, P id (ObjInfo.new id ps rc) [] [])
  (hclone : ∀ {id o issued published} newId version, P id o issued published → id < newId →
    P newId (ObjInfo.ofRoot (rootAt o version)) [] [])
  (hticket : ∀ {h : VmHistory} {query append o maxSize},
    P query.id o (h.issued query.id) (h.published query.id) → ok h (.getTicket query append) →
    h.vm.objHash query.id = some o →
    grow (u64 ((assigned o query append).offset + (assigned o query append).size)) o.maxSize =
      some maxSize →
    P query.id (ticket o (assigned o query append) maxSize) (h.issued query.id ++
      [{ assigned o query append with version := o.currentTicket }]) (h.published query.id))
  (hpublish : ∀ {id o issued published version}, P id o issued published →
    o.intervals.contains version = true →
    P id (publishObj o version) issued (version :: published))

include hnew hclone hticket hpublish

/-- One call keeps an invariant of every blob. -/
theorem ObjInv.step {h h' : VmHistory} {req : VmRequest} (hi : ObjInv P h) (hok : ok h req)
    (hs : h.step req = some h') : ObjInv P h' := by
  obtain rfl | ⟨ps, rc, -, rfl⟩ | ⟨id, version, o, -, ho, rfl⟩ |
    ⟨query, append, o, maxSize, rfl, ho, hg, rfl⟩ | ⟨interval, o, -, ho, hc, rfl⟩ := step_cases hs
  · exact hi
  · exact hi.addObj (hnew _ _ _)
  · exact hi.addObj (hclone _ _ (hi.obj ho) (Nat.lt_succ_of_le (hi.id_le ho)))
  · simpa only [Function.update_eq_self] using hi.setObj ho (hticket (hi.obj ho) hok ho hg)
  · simpa only [Function.update_eq_self] using hi.setObj ho (hpublish (hi.obj ho) hc)

/-- The invariant rule for runs of the version manager. -/
theorem objInv {h : VmHistory} {reqs : List VmRequest} (hrun : Run step ok {} reqs h) :
    ObjInv P h :=
  hrun.inv (fun hi hok hs => hi.step hnew hclone hticket hpublish hok hs) .empty

end objInv

end VmHistory

end BlobSeer
