import Mathlib.Logic.Function.Basic
import Mathlib.Data.List.Basic

/-!
# Leases

Keys are held for a fixed term from their last renewal on. Nothing happens to a lease when its term is
over: it goes with the first sweep after that. So a key that was renewed is held unless there was a sweep
later than its deadline since its last renewal (`held_iff`).
-/

namespace BlobSeer.Lib

universe u v

/-- The time, and what is held until when. -/
@[ext]
structure Leases (κ : Type u) (β : Type v) where
  now : Nat := 0
  held : κ → Option (β × Nat) := fun _ => none

inductive LeaseAction (κ : Type u) (β : Type v) where
  | renew (k : κ) (b : β)
  | clock (t : Nat)
  | sweep

namespace Leases

variable {κ : Type u} {β : Type v} [DecidableEq κ] (term : Nat)

def step (s : Leases κ β) : LeaseAction κ β → Leases κ β
  | .renew k b => { s with held := Function.update s.held k (some (b, s.now + term)) }
  | .clock t => { s with now := t }
  | .sweep => { s with held := fun k => (s.held k).filter fun e => s.now ≤ e.2 }

def run (s : Leases κ β) (as : List (LeaseAction κ β)) : Leases κ β := as.foldl (step term) s

omit [DecidableEq κ] in
/-- The time after some actions. -/
def clockAfter (now : Nat) (as : List (LeaseAction κ β)) : Nat :=
  as.foldl (fun now a => if let .clock t := a then t else now) now

variable {s : Leases κ β} {k : κ}

theorem now_step (a : LeaseAction κ β) : (s.step term a).now = clockAfter s.now [a] := by
  cases a <;> rfl

theorem now_run (as : List (LeaseAction κ β)) : (s.run term as).now = clockAfter s.now as := by
  induction as generalizing s with
  | nil => rfl
  | cons a as ih =>
    have hnext : ((s.step term a).run term as).now = _ := ih
    rw [now_step] at hnext
    exact hnext

/-- Only a renewal makes a key held. -/
theorem not_held {as : List (LeaseAction κ β)} (h : s.held k = none) (hno : ∀ b, .renew k b ∉ as) :
    (s.run term as).held k = none := by
  induction as generalizing s with
  | nil => exact h
  | cons a as ih =>
    suffices hstep : (s.step term a).held k = none from
      ih hstep fun b hb => hno b (List.mem_cons_of_mem _ hb)
    cases a with
    | renew k' b =>
      have hne : k ≠ k' := by
        rintro rfl
        exact hno b List.mem_cons_self
      simp [step, hne, h]
    | clock t => exact h
    | sweep => simp [step, h]

/-- No sweep comes later than the deadline. -/
def InTime (now deadline : Nat) (as : List (LeaseAction κ β)) : Prop :=
  ∀ front rest, as = front ++ .sweep :: rest → clockAfter now front ≤ deadline

omit [DecidableEq κ] in
theorem inTime_cons {now deadline : Nat} {a : LeaseAction κ β} {as : List (LeaseAction κ β)} :
    InTime now deadline (a :: as) ↔
      (a = .sweep → now ≤ deadline) ∧ InTime (clockAfter now [a]) deadline as := by
  constructor
  · intro h
    refine ⟨fun ha => h [] as (by rw [ha]; rfl), fun front rest has => ?_⟩
    exact h (a :: front) rest (by rw [has]; rfl)
  · rintro ⟨hfirst, hrest⟩ front rest has
    cases front with
    | nil =>
      rw [List.nil_append, List.cons.injEq] at has
      exact hfirst has.1
    | cons a' front =>
      rw [List.cons_append, List.cons.injEq] at has
      obtain ⟨rfl, has⟩ := has
      exact hrest front rest has

/-- A key that is not renewed stays held as long as the sweeps are in time. -/
theorem held_run_iff {b : β} {deadline : Nat} {as : List (LeaseAction κ β)}
    (h : s.held k = some (b, deadline)) (hno : ∀ b, .renew k b ∉ as) :
    ((s.run term as).held k = some (b, deadline) ↔ InTime s.now deadline as) ∧
      ((s.run term as).held k = none ↔ ¬ InTime s.now deadline as) := by
  induction as generalizing s with
  | nil =>
    have hin : InTime s.now deadline ([] : List (LeaseAction κ β)) := by
      intro front rest has
      simp at has
    simp [run, h, hin]
  | cons a as ih =>
    have hno' : ∀ b, .renew k b ∉ as := fun b hb => hno b (List.mem_cons_of_mem _ hb)
    rw [inTime_cons]
    by_cases hlate : a = .sweep ∧ deadline < s.now
    · -- the sweep takes the key away
      obtain ⟨rfl, hlt⟩ := hlate
      have hgone : (s.step term .sweep).held k = none := by
        simp [step, h, hlt]
      have hrun : s.run term (.sweep :: as) = (s.step term .sweep).run term as := rfl
      have hnone := not_held term hgone hno'
      have hnot : ¬ s.now ≤ deadline := Nat.not_le.mpr hlt
      simp [hrun, hnone, hnot]
    · have hkeep : (s.step term a).held k = some (b, deadline) := by
        cases a with
        | renew k' b' =>
          have hne : k ≠ k' := by
            rintro rfl
            exact hno b' List.mem_cons_self
          simp [step, hne, h]
        | clock t => exact h
        | sweep =>
          have hle : s.now ≤ deadline := Nat.not_lt.mp fun hlt => hlate ⟨rfl, hlt⟩
          simp [step, h, hle]
      have hfirst : a = .sweep → s.now ≤ deadline := fun ha => Nat.not_lt.mp fun hlt => hlate ⟨ha, hlt⟩
      have hrest := ih hkeep hno'
      rw [now_step] at hrest
      rw [and_iff_right hfirst]
      exact hrest

/-- **Leases.** A key is held from its last renewal on, until a sweep comes that is later than the
deadline. -/
theorem held_iff {b : β} {before after : List (LeaseAction κ β)} (hno : ∀ b, .renew k b ∉ after) :
    ((s.run term (before ++ .renew k b :: after)).held k =
        some (b, clockAfter s.now before + term) ↔
      InTime (clockAfter s.now before) (clockAfter s.now before + term) after) ∧
    ((s.run term (before ++ .renew k b :: after)).held k = none ↔
      ¬ InTime (clockAfter s.now before) (clockAfter s.now before + term) after) := by
  have hsplit : s.run term (before ++ .renew k b :: after) =
      ((s.run term before).step term (.renew k b)).run term after := List.foldl_append
  have hheld : ((s.run term before).step term (.renew k b)).held k =
      some (b, (s.run term before).now + term) := Function.update_self ..
  rw [hsplit, ← now_run term]
  exact held_run_iff term hheld hno

end Leases

end BlobSeer.Lib
