import Mathlib.Logic.Basic
import Mathlib.Data.List.Basic

/-!
# Guarded runs of a partial step function

A system is a state type with a partial step function (`none` where an action is not possible)
and a guard, the assumption under which actions are considered. `Run step ok s as t` performs
the actions `as` from `s`, each one allowed by the guard in the state where it is taken.
Invariants pass from one step to whole runs (`Run.inv`). One that speaks about the actions too passes
to them by `Run.inv_trace`.

An implementation simulates a specification when each of its steps is a run of the specification between
the abstract states; then so is each of its runs, and what the abstract trace has to do with the state
that is reached is carried along (`Simulates.run`).
-/

namespace BlobSeer.Lib

universe u v u' v'

variable {σ : Type u} {α : Type v} {step : σ → α → Option σ} {ok : σ → α → Prop}

/-- The actions `as`, each allowed by `ok` where it is taken, lead from `s` to the last state. -/
inductive Run (step : σ → α → Option σ) (ok : σ → α → Prop) : σ → List α → σ → Prop
  | nil (s : σ) : Run step ok s [] s
  | cons {s t u : σ} {a : α} {as : List α} (hok : ok s a) (hstep : step s a = some t)
      (hrun : Run step ok t as u) : Run step ok s (a :: as) u

/-- An invariant kept by every allowed step is kept by every run. -/
theorem Run.inv {P : σ → Prop}
    (hP : ∀ {s t a}, P s → ok s a → step s a = some t → P t)
    {s t : σ} {as : List α} (h : Run step ok s as t) (hs : P s) : P t := by
  induction h with
  | nil => exact hs
  | cons hok hstep _ ih => exact ih (hP hs hok hstep)

theorem Run.append {s t u : σ} {as bs : List α} (h : Run step ok s as t)
    (h' : Run step ok t bs u) : Run step ok s (as ++ bs) u := by
  induction h with
  | nil => exact h'
  | cons hok hstep _ ih => exact .cons hok hstep (ih h')

theorem Run.single {s t : σ} {a : α} (hok : ok s a) (hstep : step s a = some t) :
    Run step ok s [a] t :=
  .cons hok hstep (.nil t)

/-- A weaker guard allows more runs. -/
theorem Run.mono {ok' : σ → α → Prop} (hok : ∀ s a, ok s a → ok' s a)
    {s t : σ} {as : List α} (h : Run step ok s as t) : Run step ok' s as t := by
  induction h with
  | nil => exact .nil _
  | cons h1 h2 _ ih => exact .cons (hok _ _ h1) h2 ih

/-- Guards that agree where an invariant holds allow the same runs. -/
theorem Run.guard_iff {ok' : σ → α → Prop} {P : σ → Prop}
    (hP : ∀ {s t a}, P s → ok' s a → step s a = some t → P t)
    (hok : ∀ {s t a}, P s → step s a = some t → (ok s a ↔ ok' s a)) {s t : σ} {as : List α}
    (hs : P s) : Run step ok s as t ↔ Run step ok' s as t := by
  constructor
  · intro h
    induction h with
    | nil => exact .nil _
    | cons h1 h2 _ ih =>
      have h1 := (hok hs h2).mp h1
      exact .cons h1 h2 (ih (hP hs h1 h2))
  · intro h
    induction h with
    | nil => exact .nil _
    | cons h1 h2 _ ih => exact .cons ((hok hs h2).mpr h1) h2 (ih (hP hs h1 h2))

/-- A property of all actions of a run may go into its guard. -/
theorem Run.of_forall {p : α → Prop} {s t : σ} {as : List α} (h : Run step ok s as t)
    (hp : ∀ a ∈ as, p a) : Run step (fun _ a => p a) s as t := by
  induction h with
  | nil => exact .nil _
  | cons _ hstep _ ih =>
    exact .cons (hp _ List.mem_cons_self) hstep (ih fun a ha => hp a (List.mem_cons_of_mem _ ha))

/-! ## Running a list of actions -/

/-- Performs the actions one after another, and stops at one that is not allowed or not
possible. -/
def exec (step : σ → α → Option σ) (ok : σ → α → Prop) [∀ s a, Decidable (ok s a)] :
    σ → List α → Option σ
  | s, [] => some s
  | s, a :: as =>
    if ok s a then
      match step s a with
      | some t => exec step ok t as
      | none => none
    else none

theorem Run.of_exec [∀ s a, Decidable (ok s a)] :
    ∀ {as : List α} {s t : σ}, exec step ok s as = some t → Run step ok s as t
  | [], s, t, h => by
    simp only [exec, Option.some.injEq] at h
    subst h
    exact .nil s
  | a :: as, s, t, h => by
    simp only [exec] at h
    split at h
    · rename_i hok
      cases hs : step s a with
      | none => rw [hs] at h; cases h
      | some u =>
        rw [hs] at h
        exact .cons hok hs (Run.of_exec h)
    · cases h

theorem eq_some_getD {o : Option σ} (d : σ) (h : o.isSome = true) : o = some (o.getD d) := by
  cases o with
  | none => cases h
  | some s => rfl

/-- A list of actions that can be performed is a run. -/
theorem Run.of_isSome [∀ s a, Decidable (ok s a)] {as : List α} {s : σ} (d : σ)
    (h : (exec step ok s as).isSome = true) : Run step ok s as ((exec step ok s as).getD d) :=
  Run.of_exec (eq_some_getD d h)

/-! ## Traces and simulations -/

/-- An invariant of states and of the actions that have led to them. -/
theorem Run.inv_trace {P : σ → List α → Prop}
    (hP : ∀ {s t : σ} {a : α} {as : List α}, P s as → ok s a → step s a = some t → P t (as ++ [a]))
    {s t : σ} {as : List α} (h : Run step ok s as t) :
    ∀ {before : List α}, P s before → P t (before ++ as) := by
  induction h with
  | nil =>
    intro before hs
    rw [List.append_nil]
    exact hs
  | cons hok hstep _ ih =>
    intro before hs
    have hnext := ih (hP hs hok hstep)
    rw [List.append_assoc] at hnext
    exact hnext

variable {τ : Type u'} {β : Type v'} {spec : τ → β → Option τ} {allowed : τ → β → Prop}

/-- What an implementation has to show: its invariant, and for each step the abstract actions, with
`good` for all abstract actions so far. -/
structure Simulates (step : σ → α → Option σ) (ok : σ → α → Prop) (spec : τ → β → Option τ)
    (allowed : τ → β → Prop) (I : σ → Prop) (abs : σ → τ) (good : σ → List β → Prop) : Prop where
  inv : ∀ {s t : σ} {a : α}, I s → ok s a → step s a = some t → I t
  sim : ∀ {s t : σ} {a : α} {bs : List β}, I s → good s bs → ok s a → step s a = some t →
    ∃ cs, Run spec allowed (abs s) cs (abs t) ∧ good t (bs ++ cs)

/-- Each run of the implementation is a run of the specification. -/
theorem Simulates.run {I : σ → Prop} {abs : σ → τ} {good : σ → List β → Prop}
    (h : Simulates step ok spec allowed I abs good) {s t : σ} {as : List α}
    (hrun : Run step ok s as t) :
    ∀ {bs : List β}, I s → good s bs →
      ∃ cs, Run spec allowed (abs s) cs (abs t) ∧ good t (bs ++ cs) := by
  induction hrun with
  | nil s =>
    intro bs _ hgood
    refine ⟨[], .nil _, ?_⟩
    rw [List.append_nil]
    exact hgood
  | cons hok hstep _ ih =>
    intro bs hinv hgood
    obtain ⟨cs, hcs, hgood⟩ := h.sim hinv hgood hok hstep
    obtain ⟨ds, hds, hgood⟩ := ih (h.inv hinv hok hstep) hgood
    refine ⟨cs ++ ds, hcs.append hds, ?_⟩
    rw [← List.append_assoc]
    exact hgood

end BlobSeer.Lib
