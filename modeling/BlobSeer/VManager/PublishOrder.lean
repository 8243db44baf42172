import Mathlib.Data.List.Perm.Basic
import BlobSeer.VManager.Basic

/-!
# The order of publish requests

A publish marks one entry and then retires the completed entries at the front. When it is done has no
influence on what a later publish finds: retiring, marking another entry and retiring again is the
same as setting both marks and retiring once (`retire_complete`), and marks can be set in any order.
-/

namespace BlobSeer

namespace IntervalList

theorem complete_of_not_contains {l : IntervalList} {v : Nat} (h : ¬ l.contains v = true) :
    l.complete v = l := by
  rw [contains_iff] at h
  refine (List.map_congr_left ?_).trans (List.map_id l)
  intro e he
  have hne : e.key.version ≠ v := by
    rintro rfl
    exact h (List.mem_map_of_mem he)
  rw [if_neg hne, id]

theorem complete_comm (l : IntervalList) (v w : Nat) :
    (l.complete v).complete w = (l.complete w).complete v := by
  rw [complete, complete, complete, complete, List.map_map, List.map_map]
  refine List.map_congr_left ?_
  intro e _
  simp only [Function.comp]
  split <;> split <;> simp_all

@[simp] theorem complete_contains (l : IntervalList) (v w : Nat) :
    (l.complete v).contains w = l.contains w := by
  rw [Bool.eq_iff_iff, contains_iff, contains_iff, complete_versions]

end IntervalList

namespace VManagement

/-- Marking an entry that is still there after a retirement, and retiring again, comes to the same as
marking it before; an entry that was retired was completed anyway. -/
theorem retire_complete (v : Nat) : ∀ (roots : List Root) (l : IntervalList),
    (if (retire roots l).2.contains v = true
      then retire (retire roots l).1 ((retire roots l).2.complete v)
      else retire roots l) = retire roots (l.complete v)
  | roots, [] => by
    rw [retire, if_neg (by simp [IntervalList.contains])]
    rfl
  | roots, e :: l => by
    by_cases hc : e.completed = true
    · have hl : retire roots (e :: l) = retire (roots ++ [e.root]) l := by
        rw [retire, if_pos hc]
      have hr : retire roots (IntervalList.complete (e :: l) v) =
          retire (roots ++ [e.root]) (IntervalList.complete l v) := by
        rw [IntervalList.complete, List.map_cons, retire]
        split <;> rfl
      rw [hl, hr]
      exact retire_complete v (roots ++ [e.root]) l
    · have hl : retire roots (e :: l) = (roots, e :: l) := by rw [retire, if_neg hc]
      rw [hl]
      split
      · rfl
      · next hv =>
        rw [IntervalList.complete_of_not_contains hv, hl]

/-- `publish` on one blob, with its check that the ticket is there. -/
def publishAt (o : ObjInfo) (version : Nat) : ObjInfo :=
  if o.intervals.contains version = true then publishObj o version else o

/-- A publish after an accepted one. -/
theorem publishAt_publishObj (o : ObjInfo) (v w : Nat) :
    publishAt (publishObj o v) w =
      { o with
        roots := (retire o.roots ((o.intervals.complete v).complete w)).1
        intervals := (retire o.roots ((o.intervals.complete v).complete w)).2 } := by
  rw [← retire_complete]
  unfold publishAt publishObj
  dsimp only
  split <;> rfl

theorem publishAt_comm (o : ObjInfo) (v w : Nat) :
    publishAt (publishAt o v) w = publishAt (publishAt o w) v := by
  by_cases hv : o.intervals.contains v = true
  · have ev : publishAt o v = publishObj o v := if_pos hv
    by_cases hw : o.intervals.contains w = true
    · have ew : publishAt o w = publishObj o w := if_pos hw
      rw [ev, ew, publishAt_publishObj, publishAt_publishObj, IntervalList.complete_comm]
    · have ew : publishAt o w = o := if_neg hw
      have hskip : (o.intervals.complete v).complete w = o.intervals.complete v :=
        IntervalList.complete_of_not_contains (by simpa using hw)
      rw [ew, ev, publishAt_publishObj, hskip]
      rfl
  · have ev : publishAt o v = o := if_neg hv
    by_cases hw : o.intervals.contains w = true
    · have ew : publishAt o w = publishObj o w := if_pos hw
      have hskip : (o.intervals.complete w).complete v = o.intervals.complete w :=
        IntervalList.complete_of_not_contains (by simpa using hv)
      rw [ev, ew, publishAt_publishObj, hskip]
      rfl
    · have ew : publishAt o w = o := if_neg hw
      rw [ev, ew, ev]

/-- `publish` changes one blob, and one that is not there stays so. -/
theorem publish_eq (s : VManagement) (interval : Query) :
    (s.publish interval).1 =
      { s with
        objHash := Function.update s.objHash interval.id
          ((s.objHash interval.id).map (publishAt · interval.version)) } := by
  have hkeep : ∀ o, s.objHash interval.id = o →
      s = { s with objHash := Function.update s.objHash interval.id o } := by
    rintro o rfl
    rw [Function.update_eq_self]
  unfold publish
  cases ho : s.objHash interval.id with
  | none => exact hkeep none ho
  | some o =>
    simp only [publishAt, Option.map_some]
    split
    · rfl
    · exact hkeep (some o) ho

theorem publish_comm (s : VManagement) (a b : Query) :
    ((s.publish a).1.publish b).1 = ((s.publish b).1.publish a).1 := by
  rw [publish_eq, publish_eq, publish_eq, publish_eq]
  by_cases hid : a.id = b.id
  · simp only [hid, Function.update_self, Function.update_idem, Option.map_map]
    congr 3
    funext o
    exact publishAt_comm o a.version b.version
  · simp only [Function.update_of_ne hid, Function.update_of_ne (Ne.symm hid)]
    rw [Function.update_comm hid]

/-- The version manager after a list of publish requests. -/
def publishAll (s : VManagement) (intervals : List Query) : VManagement :=
  intervals.foldl (fun s interval => (s.publish interval).1) s

/-- Publish requests may come in any order. -/
theorem publish_order (s : VManagement) {intervals intervals' : List Query}
    (h : intervals.Perm intervals') :
    (s.publishAll intervals).objHash = (s.publishAll intervals').objHash := by
  have : RightCommutative fun (s : VManagement) interval => (s.publish interval).1 :=
    ⟨publish_comm⟩
  rw [publishAll, publishAll, h.foldl_eq]

/-- Two blobs, with two tickets on the first and one on the second. -/
def threeTickets : VManagement :=
  [⟨1, 0, 0, 4⟩, ⟨1, 0, 4, 4⟩, ⟨2, 0, 0, 4⟩].foldl
    (fun s query => ((s.getTicket query false).map (·.1)).getD s)
    ((({} : VManagement).create 4 1).1.create 4 1).1

theorem publish_order_three_tickets :
    (threeTickets.publishAll [⟨1, 2, 0, 0⟩, ⟨2, 1, 0, 0⟩, ⟨1, 1, 0, 0⟩, ⟨1, 2, 0, 0⟩]).objHash =
      (threeTickets.publishAll [⟨1, 1, 0, 0⟩, ⟨1, 2, 0, 0⟩, ⟨1, 2, 0, 0⟩, ⟨2, 1, 0, 0⟩]).objHash ∧
    ((threeTickets.publishAll [⟨1, 1, 0, 0⟩, ⟨1, 2, 0, 0⟩, ⟨1, 2, 0, 0⟩, ⟨2, 1, 0, 0⟩]).objHash
      1).map (·.roots.length) = some 3 :=
  ⟨publish_order threeTickets (by decide), by decide +kernel⟩

end VManagement

end BlobSeer
