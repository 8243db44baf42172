import BlobSeer.Lib.Overlay
import BlobSeer.Lib.Run
import Mathlib.Logic.Function.Basic

/-!
# Stores of versions

A versioned store keeps for each object the list of its versions, each of them a map of cells. A new
object has one empty version, a clone starts with a version of another object, and a commit appends
the last version with one write over it. Nothing is ever removed or changed (`prefix_of_step`). So a version
is its first version overlaid with the commits up to it (`version_eq`), and a cell of it is decided
by the last commit that covers the cell (`cell_cases`).
-/

namespace BlobSeer.Lib

universe u v

/-- The versions of every object; an object that does not exist has none. -/
abbrev VersionStore (κ : Type u) (α : Type v) := κ → List (Nat → Option α)

inductive StoreAction (κ : Type u) (α : Type v) where
  | create (id : κ)
  | clone (id src : κ) (version : Nat)
  | commit (id : κ) (write : Write α)

namespace VersionStore

variable {κ : Type u} {α : Type v}

/-! ## Versions as overlays -/

/-- Where an object comes from, and the versions it has after its commits `ws`. -/
structure History (as : List (StoreAction κ α)) (s : VersionStore κ α) (id : κ)
    (first : Nat → Option α) (ws : List (Write α)) : Prop where
  versions : s id = (List.range (ws.length + 1)).map fun v => overlay first (ws.take v)
  origin : (.create id ∈ as ∧ first = fun _ => none) ∨
    ∃ src v, .clone id src v ∈ as ∧ (s src)[v]? = some first

/-- The versions with one more commit. -/
theorem versions_concat (first : Nat → Option α) (ws : List (Write α)) (W : Write α) :
    ((List.range (ws.length + 1)).map fun v => overlay first (ws.take v)) ++
        [W.apply (overlay first ws)] =
      (List.range ((ws ++ [W]).length + 1)).map fun v => overlay first ((ws ++ [W]).take v) := by
  rw [List.length_append, List.length_singleton, List.range_succ (n := ws.length + 1), List.map_append,
    List.map_singleton]
  congr 1
  · refine List.map_congr_left fun v hv => ?_
    have hle := List.mem_range.mp hv
    rw [List.take_append_of_le_length (by omega)]
  · rw [List.take_of_length_le (by simp)]
    unfold overlay
    rw [List.foldl_append]
    rfl

namespace History

variable {s : VersionStore κ α} {as : List (StoreAction κ α)} {id : κ} {first : Nat → Option α}
  {ws : List (Write α)}

theorem last (h : History as s id first ws) : (s id).getLast? = some (overlay first ws) := by
  rw [h.versions, List.range_succ, List.map_append, List.map_singleton, List.getLast?_concat,
    List.take_length]

/-- A version is the first one, overlaid with the commits up to it. -/
theorem version_eq (h : History as s id first ws) {v : Nat} {m : Nat → Option α}
    (hv : (s id)[v]? = some m) : v ≤ ws.length ∧ m = overlay first (ws.take v) := by
  rw [h.versions, List.getElem?_map, Option.map_eq_some_iff] at hv
  obtain ⟨v', hv', rfl⟩ := hv
  obtain ⟨hlt, rfl⟩ := List.getElem?_eq_some_iff.mp hv'
  rw [List.length_range] at hlt
  rw [List.getElem_range]
  exact ⟨Nat.le_of_lt_succ hlt, rfl⟩

/-- There is a commit for every version but the first. -/
theorem exists_commit (h : History as s id first ws) {v : Nat} {m : Nat → Option α}
    (hv : (s id)[v]? = some m) {k : Nat} (hk : k < v) : ∃ W, ws[k]? = some W :=
  ⟨_, List.getElem?_eq_getElem (Nat.lt_of_lt_of_le hk (h.version_eq hv).1)⟩

/-- When no write wipes, a cell holds what the last commit that covers it has put, and what the first
version has there when none does. -/
theorem cell_cases (h : History as s id first ws) (hwipes : ∀ W ∈ ws, W.wipes = false) {v : Nat}
    {m : Nat → Option α} (hv : (s id)[v]? = some m) (x : Nat) :
    (∃ k W, k < v ∧ ws[k]? = some W ∧ W.Covers x ∧ m x = some (W.value x) ∧
        ∀ k' W', k < k' → k' < v → ws[k']? = some W' → ¬ W'.Covers x) ∨
      (∀ k W, k < v → ws[k]? = some W → ¬ W.Covers x) ∧ m x = first x := by
  obtain ⟨hle, rfl⟩ := h.version_eq hv
  by_cases hcov : ∃ k W, k < v ∧ ws[k]? = some W ∧ W.Covers x
  · obtain ⟨k, W, hk, hW, hc, hlast⟩ := exists_latest hcov
    refine .inl ⟨k, W, hk, hW, hc, ?_, hlast⟩
    exact overlay_latest hW hc hk hle fun k' W' h1 h2 hW' =>
      ⟨hlast k' W' h1 h2 hW', hwipes W' (List.mem_of_getElem? hW')⟩
  · have hnone : ∀ k W, k < v → ws[k]? = some W → ¬ W.Covers x := fun k W hk hW hc =>
      hcov ⟨k, W, hk, hW, hc⟩
    refine .inr ⟨hnone, ?_⟩
    exact overlay_skip (s := 0) (Nat.zero_le v) hle fun k W _ hk hW =>
      ⟨hnone k W hk hW, hwipes W (List.mem_of_getElem? hW)⟩

end History

/-! ## Steps -/

variable [DecidableEq κ]

def step (s : VersionStore κ α) : StoreAction κ α → Option (VersionStore κ α)
  | .create id =>
    match s id with
    | [] => some (Function.update s id [fun _ => none])
    | _ :: _ => none
  | .clone id src version =>
    match s id, (s src)[version]? with
    | [], some m => some (Function.update s id [m])
    | _, _ => none
  | .commit id write =>
    match (s id).getLast? with
    | some m => some (Function.update s id (s id ++ [write.apply m]))
    | none => none

/-- Runs without a guard. -/
abbrev Runs : VersionStore κ α → List (StoreAction κ α) → VersionStore κ α → Prop :=
  Run step fun _ _ => True

variable {s s' : VersionStore κ α} {id : κ}

theorem step_create (h : s id = []) :
    s.step (.create id) = some (Function.update s id [fun _ => none]) := by
  simp only [step, h]

theorem step_clone {src : κ} {version : Nat} {m : Nat → Option α} (h : s id = [])
    (hm : (s src)[version]? = some m) :
    s.step (.clone id src version) = some (Function.update s id [m]) := by
  simp only [step, h, hm]

theorem step_commit {m : Nat → Option α} (W : Write α) (h : (s id).getLast? = some m) :
    s.step (.commit id W) = some (Function.update s id (s id ++ [W.apply m])) := by
  simp only [step, h]

/-- What one action does. -/
theorem step_cases {a : StoreAction κ α} (hs : s.step a = some s') :
    (∃ id, a = .create id ∧ s id = [] ∧ s' = Function.update s id [fun _ => none]) ∨
      (∃ id src version m, a = .clone id src version ∧ s id = [] ∧ (s src)[version]? = some m ∧
        s' = Function.update s id [m]) ∨
      ∃ id W m, a = .commit id W ∧ (s id).getLast? = some m ∧
        s' = Function.update s id (s id ++ [W.apply m]) := by
  cases a with
  | create id =>
    simp only [step] at hs
    split at hs
    · next hnil =>
      cases hs
      exact .inl ⟨id, rfl, hnil, rfl⟩
    · cases hs
  | clone id src version =>
    simp only [step] at hs
    split at hs
    · next m hnil hm =>
      cases hs
      exact .inr (.inl ⟨id, src, version, m, rfl, hnil, hm, rfl⟩)
    · cases hs
  | commit id W =>
    simp only [step] at hs
    split at hs
    · next m hlast =>
      cases hs
      exact .inr (.inr ⟨id, W, m, rfl, hlast, rfl⟩)
    · cases hs

/-! ## Versions stay -/

theorem prefix_of_update {id' : κ} {l : List (Nat → Option α)} (h : s id' <+: l) (id : κ) :
    s id <+: Function.update s id' l id := by
  by_cases he : id = id'
  · subst he
    rw [Function.update_self]
    exact h
  · simp [Function.update_of_ne he]

theorem prefix_of_step {a : StoreAction κ α} (hs : s.step a = some s') (id : κ) : s id <+: s' id := by
  obtain ⟨id', -, hnil, rfl⟩ | ⟨id', src, version, m, -, hnil, -, rfl⟩ | ⟨id', W, m, -, -, rfl⟩ :=
    step_cases hs
  · refine prefix_of_update ?_ id
    rw [hnil]
    exact List.nil_prefix
  · refine prefix_of_update ?_ id
    rw [hnil]
    exact List.nil_prefix
  · exact prefix_of_update (List.prefix_append _ _) id

/-- A version stays what it is. -/
theorem version_of_step {a : StoreAction κ α} (hs : s.step a = some s') {v : Nat}
    {m : Nat → Option α} (h : (s id)[v]? = some m) : (s' id)[v]? = some m := by
  obtain ⟨l, hl⟩ := prefix_of_step hs id
  rw [← hl, List.getElem?_append_left (List.getElem?_eq_some_iff.mp h).1]
  exact h

/-! ## The commits of a run -/

/-- The write that an action commits on the object. -/
def commit? (id : κ) : StoreAction κ α → Option (Write α)
  | .commit id' W => if id' = id then some W else none
  | _ => none

/-- The commits of an object, in order. -/
def commits (id : κ) (as : List (StoreAction κ α)) : List (Write α) := as.filterMap (commit? id)

theorem commits_append (id : κ) (as bs : List (StoreAction κ α)) :
    commits id (as ++ bs) = commits id as ++ commits id bs :=
  List.filterMap_append

theorem commits_self (id : κ) (ws : List (Write α)) :
    commits id (ws.map (StoreAction.commit id)) = ws := by
  simp [commits, List.filterMap_map, Function.comp_def, commit?]

theorem commits_other {id id' : κ} (hne : id' ≠ id) (ws : List (Write α)) :
    commits id (ws.map (StoreAction.commit id')) = [] := by
  simp [commits, commit?, hne]

/-- An object that an action does not make or commit keeps its history. -/
theorem History.mono {as : List (StoreAction κ α)} {first : Nat → Option α} {ws : List (Write α)}
    (h : History as s id first ws) {a : StoreAction κ α} (hs : s.step a = some s')
    (hsame : s' id = s id) : History (as ++ [a]) s' id first ws := by
  refine ⟨hsame.trans h.versions, h.origin.imp ?_ ?_⟩
  · rintro ⟨hmem, hfirst⟩
    exact ⟨List.mem_append_left _ hmem, hfirst⟩
  · rintro ⟨src, v, hmem, hfirst⟩
    exact ⟨src, v, List.mem_append_left _ hmem,
      version_of_step hs hfirst⟩

/-- The history of every object that exists; the others have no commits. -/
def Histories (s : VersionStore κ α) (as : List (StoreAction κ α)) : Prop :=
  ∀ id, (s id = [] → commits id as = []) ∧
    (s id ≠ [] → ∃ first, History as s id first (commits id as))

theorem Histories.step (h : Histories s as) {a : StoreAction κ α} (hs : s.step a = some s') :
    Histories s' (as ++ [a]) := by
  intro id
  obtain ⟨hnone, hsome⟩ := h id
  -- a new object, with its first version
  have hnew : ∀ {first}, s id = [] → commits id [a] = [] → s' id = [first] →
      (.create id ∈ as ++ [a] ∧ first = (fun _ => none) ∨
        ∃ src v, .clone id src v ∈ as ++ [a] ∧ (s' src)[v]? = some first) →
      ∃ first, History (as ++ [a]) s' id first (commits id (as ++ [a])) := by
    intro first hnil hcommit hfirst horigin
    rw [commits_append, hnone hnil, hcommit]
    exact ⟨first, hfirst, horigin⟩
  -- an object that another action is about
  have hother : commits id [a] = [] → s' id = s id →
      (s' id = [] → commits id (as ++ [a]) = []) ∧
        (s' id ≠ [] → ∃ first, History (as ++ [a]) s' id first (commits id (as ++ [a]))) := by
    intro hcommit hsame
    rw [commits_append, hcommit, List.append_nil, hsame]
    refine ⟨hnone, fun hne => ?_⟩
    obtain ⟨first, hfirst⟩ := hsome hne
    exact ⟨first, hfirst.mono hs hsame⟩
  obtain ⟨id', rfl, hnil, rfl⟩ | ⟨id', src, version, m, rfl, hnil, hm, rfl⟩ |
    ⟨id', W, m, rfl, hlast, rfl⟩ := step_cases hs
  · by_cases he : id = id'
    · subst he
      refine ⟨fun h0 => ?_, fun _ => hnew hnil rfl (Function.update_self ..) (.inl ⟨?_, rfl⟩)⟩
      · rw [Function.update_self] at h0
        cases h0
      · exact List.mem_append_right _ (List.mem_singleton_self _)
    · exact hother rfl (Function.update_of_ne he ..)
  · by_cases he : id = id'
    · subst he
      refine ⟨fun h0 => ?_, fun _ => hnew hnil rfl (Function.update_self ..)
        (.inr ⟨src, version, ?_, ?_⟩)⟩
      · rw [Function.update_self] at h0
        cases h0
      · exact List.mem_append_right _ (List.mem_singleton_self _)
      · exact version_of_step hs hm
    · exact hother rfl (Function.update_of_ne he ..)
  · by_cases he : id = id'
    · subst he
      have hne : s id ≠ [] := by
        intro h0
        rw [h0] at hlast
        cases hlast
      refine ⟨fun h0 => ?_, fun _ => ?_⟩
      · rw [Function.update_self] at h0
        exact absurd (List.append_eq_nil_iff.mp h0).1 hne
      · obtain ⟨first, hfirst⟩ := hsome hne
        have hcommits : commits id (as ++ [.commit id W]) = commits id as ++ [W] := by
          rw [commits_append]
          simp [commits, commit?]
        rw [hcommits]
        refine ⟨first, ?_, hfirst.origin.imp ?_ ?_⟩
        · rw [Function.update_self, ← versions_concat, ← hfirst.versions]
          rw [hfirst.last, Option.some.injEq] at hlast
          rw [hlast]
        · rintro ⟨hmem, h0⟩
          exact ⟨List.mem_append_left _ hmem, h0⟩
        · rintro ⟨src, v, hmem, h0⟩
          exact ⟨src, v, List.mem_append_left _ hmem, version_of_step hs h0⟩
    · refine hother ?_ (Function.update_of_ne he ..)
      simp [commits, commit?, Ne.symm he]

theorem Histories.empty : Histories (fun _ => [] : VersionStore κ α) [] := fun _ =>
  ⟨fun _ => rfl, fun h => absurd rfl h⟩

theorem Histories.run {as bs : List (StoreAction κ α)} (h : Histories s as) (hrun : Runs s bs s') :
    Histories s' (as ++ bs) :=
  hrun.inv_trace (P := Histories) (fun h _ hs => h.step hs) h

/-- Each commit makes one version. -/
theorem Histories.length {as : List (StoreAction κ α)} (h : Histories s as) (id : κ) :
    (commits id as).length = (s id).length - 1 := by
  by_cases hid : s id = []
  · rw [(h id).1 hid, hid]
    rfl
  · obtain ⟨first, hfirst⟩ := (h id).2 hid
    rw [hfirst.versions, List.length_map, List.length_range, Nat.add_sub_cancel]

/-- The versions of an object are its first one, overlaid with more and more of its commits. -/
theorem history_of_run {as : List (StoreAction κ α)} (hrun : Runs (fun _ => []) as s)
    (hid : s id ≠ []) : ∃ first, History as s id first (commits id as) :=
  ((Histories.empty.run hrun) id).2 hid

/-! ## Several commits in a row -/

/-- Versions that are each the one before with a write over it are made by commits. -/
theorem run_commits {l : List (Nat → Option α)} (hl : s id = l) :
    ∀ {new : List (Nat → Option α)} {ws : List (Write α)}, new.length = ws.length →
      (∀ k W, ws[k]? = some W → ∃ m, (l ++ new)[l.length - 1 + k]? = some m ∧
        (l ++ new)[l.length + k]? = some (W.apply m)) → l ≠ [] →
      Runs s (ws.map (StoreAction.commit id)) (Function.update s id (l ++ new)) := by
  intro new
  induction new generalizing l s with
  | nil =>
    intro ws hlen _ _
    rw [List.length_eq_zero_iff.mp hlen.symm, List.append_nil, ← hl, Function.update_eq_self]
    exact .nil s
  | cons m new ih =>
    intro ws hlen hnext hne
    cases ws with
    | nil => cases hlen
    | cons W ws =>
      have hpos := List.length_pos_of_ne_nil hne
      obtain ⟨m₀, hm₀, hm⟩ := hnext 0 W rfl
      rw [Nat.add_zero, List.getElem?_append_left (by omega)] at hm₀
      rw [Nat.add_zero, List.getElem?_append_right (Nat.le_refl _), Nat.sub_self,
        List.getElem?_cons_zero, Option.some.injEq] at hm
      have hlast : (s id).getLast? = some m₀ := by
        rw [hl, List.getLast?_eq_getElem?]
        exact hm₀
      refine .cons trivial (step_commit W hlast) ?_
      rw [← hm, hl]
      have hrest := ih (l := l ++ [m]) (s := Function.update s id (l ++ [m]))
        (Function.update_self ..) (Nat.succ.inj hlen : new.length = ws.length) (fun k W' hW' => ?_) (by simp)
      · rw [Function.update_idem, List.append_assoc] at hrest
        exact hrest
      · obtain ⟨m', h1, h2⟩ := hnext (k + 1) W' hW'
        have e1 : (l ++ [m]).length - 1 + k = l.length - 1 + (k + 1) := by
          rw [List.length_append, List.length_singleton]
          omega
        have e2 : (l ++ [m]).length + k = l.length + (k + 1) := by
          rw [List.length_append, List.length_singleton]
          omega
        rw [List.append_assoc, e1, e2]
        exact ⟨m', h1, h2⟩

end VersionStore

end BlobSeer.Lib
