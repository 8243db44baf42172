import BlobSeer.Lib.Lists
import BlobSeer.RangeQuery.Tree
import Mathlib.Data.List.Induction

/-!
# The siblings of a write

On its way from the first (or last) page `p` of a write up to the root, the tree builder needs the
brother of every block that is a right (or left) half. It looks them up in a list that is filled
from two sources: `compute_sibling_versions` enters the latest outstanding ticket that touches the
brother, and the walk down the stable tree enters the brothers it passes, where no ticket was
found. `Side` is the invariant of one such list while the walk is going on, with the get that is
queued for it.

There is one place where neither source has an answer: when the stable tree is smaller than the
brother of the block that holds `p`, only the stable root itself is entered, and nothing makes the
nodes between that root and the brother (`Far`).
-/

namespace BlobSeer

open Lib

/-! ## `search_list` -/

theorem Query.empty_iff {q : Query} : q.empty = true ↔ q = {} := by
  cases q
  simp [empty]

theorem nodeAt_not_empty {id version ps i j : Nat} (hps : 0 < ps) :
    (nodeAt id version ps i j).empty = false := by
  rw [Bool.eq_false_iff]
  intro h
  have hpos := nodeAt_size_pos hps id version i j
  rw [Query.empty_iff.1 h] at hpos
  exact absurd hpos (Nat.lt_irrefl 0)

theorem searchList_concat_ne {l : List Query} {q : Query} {o s : Nat}
    (h : ¬ (q.offset = o ∧ q.size = s)) : searchList (l ++ [q]) o s = searchList l o s := by
  unfold searchList
  rw [List.find?_append, List.find?_singleton, if_neg (by simpa using h), Option.or_none]

/-- A sibling at a position where none was found is found from then on. -/
theorem searchList_concat {l : List Query} {q : Query} {o s : Nat} (hs : 0 < s)
    (he : searchList l o s = {}) (ho : q.offset = o) (hq : q.size = s) :
    searchList (l ++ [q]) o s = q := by
  unfold searchList at he ⊢
  rw [List.find?_append]
  cases h : l.find? fun q => decide (q.offset = o ∧ q.size = s) with
  | none => simp [ho, hq]
  | some r =>
    -- an entry that was found has a size
    have hr := List.find?_some h
    simp only [decide_eq_true_eq] at hr
    rw [h, Option.getD_some] at he
    rw [he] at hr
    exact absurd hr.2 (by simp only; omega)

/-! ## `compute_sibling_versions` -/

theorem latestTouching_some {q : Query} {v : Nat} {intervals : IntervalList}
    (h : latestTouching intervals q = some v) :
    ∃ (d : Nat) (e : IntervalEntry), intervals[d]? = some e ∧ e.key.version = v ∧
      q.intersects e.key = true ∧ ∀ (d' : Nat) (e' : IntervalEntry), d < d' →
        intervals[d']? = some e' → q.intersects e'.key = false := by
  induction intervals using List.reverseRecOn with
  | nil => cases h
  | append_singleton l x ih =>
    have hx : (l ++ [x])[l.length]? = some x := by simp
    unfold latestTouching at h ih
    rw [List.reverse_append, List.reverse_singleton, List.singleton_append, List.find?_cons] at h
    cases hq : q.intersects x.key with
    | true =>
      rw [hq] at h
      cases h
      refine ⟨l.length, x, hx, rfl, hq, fun d' e' hd he => ?_⟩
      rw [List.getElem?_eq_none (by simp; omega)] at he
      cases he
    | false =>
      rw [hq] at h
      obtain ⟨d, e, hd, hv, he, hlater⟩ := ih h
      have hlt := (List.getElem?_eq_some_iff.1 hd).1
      refine ⟨d, e, by rw [List.getElem?_append_left hlt]; exact hd, hv, he, fun d' e' hd' he' => ?_⟩
      rcases getElem?_concat he' with he' | ⟨-, rfl⟩
      · exact hlater d' e' hd' he'
      · exact hq

theorem latestTouching_none {q : Query} {intervals : IntervalList}
    (h : latestTouching intervals q = none) : ∀ e ∈ intervals, q.intersects e.key = false := by
  intro e he
  rw [latestTouching, Option.map_eq_none_iff, List.find?_eq_none] at h
  simpa using h e (List.mem_reverse.2 he)

/-- The latest outstanding ticket that touches a block. -/
def inFlight (intervals : IntervalList) (ps i j : Nat) : Option Nat :=
  latestTouching intervals (nodeAt 0 0 ps i j)

/-- Whose node it is does not matter. -/
theorem latestTouching_nodeAt (intervals : IntervalList) (id version ps i j : Nat) :
    latestTouching intervals (nodeAt id version ps i j) = inFlight intervals ps i j := rfl

/-- The siblings that the outstanding tickets give for the path from page `p`, from level `i` on. -/
def siblingsFrom (intervals : IntervalList) (id ps p i d : Nat) : List Query :=
  (List.range' i d).filterMap fun l => (inFlight intervals ps l (brother (p / 2 ^ l))).map
    fun v => nodeAt id v ps l (brother (p / 2 ^ l))

theorem siblingsFrom_succ (intervals : IntervalList) (id ps p i d : Nat) :
    siblingsFrom intervals id ps p i (d + 1) =
      ((inFlight intervals ps i (brother (p / 2 ^ i))).map
        fun v => nodeAt id v ps i (brother (p / 2 ^ i))).toList ++
      siblingsFrom intervals id ps p (i + 1) d := by
  unfold siblingsFrom
  rw [List.range'_succ, List.filterMap_cons]
  cases inFlight intervals ps i (brother (p / 2 ^ i)) <;> rfl

section siblingLoop

variable (intervals : IntervalList) (id version : Nat) {ps m p : Nat} (hps : 0 < ps)

theorem siblingLoop_eq (hps : 0 < ps) (hR : ps * 2 ^ m < 2 ^ 64) (hp : p < 2 ^ m) :
    ∀ (fuel : Nat) {d i : Nat}, i + d = m → d < fuel →
      siblingLoop intervals (ps * 2 ^ m) fuel (nodeAt id version ps i (p / 2 ^ i)) =
        some (siblingsFrom intervals id ps p i d)
  | 0, _, _, _, hf => by omega
  | fuel + 1, 0, i, hd, _ => by
    have e : i = m := by omega
    subst e
    simp [siblingLoop, nodeAt, siblingsFrom]
  | fuel + 1, d + 1, i, hd, hf => by
    have hi : i < m := by omega
    have hj : p / 2 ^ i < 2 ^ (m - i) := last_block_lt hi hp
    have ih := siblingLoop_eq hps hR hp fuel (d := d) (i := i + 1) (by omega) (by omega)
    have hlt : (nodeAt id version ps i (p / 2 ^ i)).size < ps * 2 ^ m := (span_lt_iff hps).2 hi
    rw [div_two_pow_succ] at ih
    unfold siblingLoop
    rw [if_pos hlt, brotherAndParent_block hps hR hi id version hj, siblingsFrom_succ]
    simp only [ih, latestTouching_nodeAt]
    cases inFlight intervals ps i (brother (p / 2 ^ i)) <;> rfl

theorem computeSiblingVersions_eq (hps : 0 < ps) (hR : ps * 2 ^ m < 2 ^ 64) (hp : p < 2 ^ m) :
    computeSiblingVersions (nodeAt id version ps 0 p) intervals (ps * 2 ^ m) =
      some (siblingsFrom intervals id ps p 0 m) := by
  have hm := levels_lt hps hR
  have h := siblingLoop_eq intervals id version hps hR hp 65 (d := m) (i := 0) (by omega)
    (by omega)
  rwa [Nat.pow_zero, Nat.div_one] at h

include hps

/-- The entries of the levels above do not hide a position. -/
theorem find_siblingsFrom_above {i j l d : Nat} (hil : i < l) :
    ((siblingsFrom intervals id ps p l d).find? fun q =>
      decide (q.offset = j * (ps * 2 ^ i) ∧ q.size = ps * 2 ^ i)) = none := by
  rw [List.find?_eq_none]
  intro q hq hmatch
  simp only [siblingsFrom, List.mem_filterMap, List.mem_range'_1, Option.map_eq_some_iff] at hq
  obtain ⟨k, ⟨hk, -⟩, v, -, rfl⟩ := hq
  have := span_inj hps (of_decide_eq_true hmatch).2
  omega

theorem find_siblingsFrom :
    ∀ {d i l : Nat}, i ≤ l → l < i + d →
      ((siblingsFrom intervals id ps p i d).find? fun q => decide
        (q.offset = brother (p / 2 ^ l) * (ps * 2 ^ l) ∧ q.size = ps * 2 ^ l)) =
        (inFlight intervals ps l (brother (p / 2 ^ l))).map
          fun v => nodeAt id v ps l (brother (p / 2 ^ l))
  | 0, i, l, h1, h2 => by omega
  | d + 1, i, l, h1, h2 => by
    rw [siblingsFrom_succ, List.find?_append]
    rcases Nat.lt_or_ge i l with hlt | hge
    · rw [find_siblingsFrom (i := i + 1) (by omega) (by omega)]
      cases inFlight intervals ps i (brother (p / 2 ^ i)) with
      | none => rfl
      | some v =>
        have hne : ¬ ps * 2 ^ i = ps * 2 ^ l := fun he => by
          have := span_inj hps he
          omega
        simp [nodeAt, hne]
    · have e : l = i := by omega
      subst e
      rw [find_siblingsFrom_above intervals id hps (by omega), Option.or_none]
      cases inFlight intervals ps l (brother (p / 2 ^ l)) <;> simp [nodeAt]

theorem searchList_siblingsFrom {i : Nat} (hi : i < m) :
    searchList (siblingsFrom intervals id ps p 0 m) (brother (p / 2 ^ i) * (ps * 2 ^ i))
        (ps * 2 ^ i) =
      ((inFlight intervals ps i (brother (p / 2 ^ i))).map
        fun v => nodeAt id v ps i (brother (p / 2 ^ i))).getD {} := by
  unfold searchList
  rw [find_siblingsFrom intervals id hps (by omega) (by omega)]

end siblingLoop

/-! ## One side of a write -/

/-- The levels at which the builder looks for a brother of the path from page `p`. -/
def Relevant (isLeft : Bool) (p i : Nat) : Prop :=
  if isLeft then p / 2 ^ i % 2 = 1 else p / 2 ^ i % 2 = 0

/-- The block that holds page `p` has the brother `0`, and the stable tree of `n` pages is smaller
than that. -/
def Far (n p i : Nat) : Prop := p / 2 ^ i = 1 ∧ 0 < n ∧ n < 2 ^ i

instance (n p i : Nat) : Decidable (Far n p i) := inferInstanceAs (Decidable (_ ∧ _ ∧ _))

/-- What the sibling list holds for the brother at level `i`, once the walk is down to level `l`. -/
def SiblingAt (dht : Dht) (ps : Nat) (stable : PageMap) (n id : Nat) (intervals : IntervalList)
    (p : Nat) (siblings : List Query) (l i : Nat) : Prop :=
  let j := brother (p / 2 ^ i)
  let e := searchList siblings (j * (ps * 2 ^ i)) (ps * 2 ^ i)
  match inFlight intervals ps i j with
  | some v => e = nodeAt id v ps i j
  | none => (Far n p i ∨ i < l → e = {}) ∧ (¬ Far n p i → l ≤ i → Denotes dht ps stable i j e)

/-- A get of the walk: the pointer to the block of level `l` in the stable tree that holds `p`. -/
structure WalkGet (dht : Dht) (ps : Nat) (stable : PageMap) (n p l : Nat) (q : Query) : Prop where
  denotes : Denotes dht ps stable l (p / 2 ^ l) q
  offset : q.offset = p / 2 ^ l * (ps * 2 ^ l)
  size : q.size = ps * 2 ^ l
  inTree : p < n ∧ ∃ M, n = 2 ^ M ∧ l ≤ M ∧ ps * 2 ^ M < 2 ^ 64

/-- The sibling list of one side, with the get that is queued for it. -/
def Side (dht : Dht) (ps m : Nat) (stable : PageMap) (n id : Nat) (intervals : IntervalList)
    (isLeft : Bool) (p : Nat) (siblings gets : List Query) : Prop :=
  ∃ l, (gets = [] ∧ l = 0 ∨ ∃ q, gets = [q] ∧ WalkGet dht ps stable n p l q) ∧
    ∀ i, i < m → Relevant isLeft p i →
      SiblingAt dht ps stable n id intervals p siblings l i

section side

variable {dht dht' : Dht} {ps m n id p : Nat} {stable : PageMap} {intervals : IntervalList}
  {isLeft : Bool} {siblings gets : List Query}

theorem SiblingAt.mono {l i : Nat}
    (h : SiblingAt dht ps stable n id intervals p siblings l i) (hle : DhtLe dht dht') :
    SiblingAt dht' ps stable n id intervals p siblings l i := by
  unfold SiblingAt at h ⊢
  simp only at h ⊢
  cases hf : inFlight intervals ps i (brother (p / 2 ^ i)) with
  | some v =>
    rw [hf] at h
    exact h
  | none =>
    rw [hf] at h
    exact ⟨h.1, fun h1 h2 => (h.2 h1 h2).mono hle⟩

theorem Side.mono (h : Side dht ps m stable n id intervals isLeft p siblings gets)
    (hle : DhtLe dht dht') : Side dht' ps m stable n id intervals isLeft p siblings gets := by
  obtain ⟨l, hg, hsib⟩ := h
  refine ⟨l, ?_, fun i hi hr => (hsib i hi hr).mono hle⟩
  rcases hg with hg | ⟨q, hq, hw⟩
  · exact .inl hg
  · exact .inr ⟨q, hq, hw.denotes.mono hle, hw.offset, hw.size, hw.inTree⟩

/-- Where no ticket is in flight, a list without an entry is right over an empty block. -/
theorem SiblingAt.of_empty {l i : Nat}
    (he : searchList siblings (brother (p / 2 ^ i) * (ps * 2 ^ i)) (ps * 2 ^ i) =
      ((inFlight intervals ps i (brother (p / 2 ^ i))).map
        fun v => nodeAt id v ps i (brother (p / 2 ^ i))).getD {})
    (hm : ¬ Far n p i → l ≤ i → ∀ x, x / 2 ^ i = brother (p / 2 ^ i) → stable x = none) :
    SiblingAt dht ps stable n id intervals p siblings l i := by
  unfold SiblingAt
  simp only
  cases hf : inFlight intervals ps i (brother (p / 2 ^ i)) with
  | some v =>
    rw [hf] at he
    exact he
  | none =>
    rw [hf] at he
    simp only [Option.map_none, Option.getD_none] at he
    rw [he]
    exact ⟨fun _ => rfl, fun h1 h2 => .hole (.inl rfl) (hm h1 h2)⟩

/-! ## The start of the walk -/

variable (hps : 0 < ps)

/-- A brother that meets the stable tree has `p` in the tree, or is block `0`. -/
theorem brother_in_stable {M i x : Nat} (hx : x / 2 ^ i = brother (p / 2 ^ i)) (hxM : x < 2 ^ M) :
    p < 2 ^ M ∧ i < M ∨ M ≤ i ∧ p / 2 ^ i = 1 := by
  rcases Nat.lt_or_ge i M with hi | hi
  · have h := brother_block hi hx
    rw [Nat.div_eq_of_lt hxM] at h
    have hp := (Nat.div_eq_zero_iff.1 h.symm).resolve_left (by have := Nat.two_pow_pos M; omega)
    exact .inl ⟨hp, hi⟩
  · have hle : (2 : Nat) ^ M ≤ 2 ^ i := Nat.pow_le_pow_right (by omega) hi
    rw [Nat.div_eq_of_lt (by omega)] at hx
    refine .inr ⟨hi, ?_⟩
    generalize p / 2 ^ i = j at hx ⊢
    unfold brother at hx
    split at hx <;> omega

include hps

/-- Nothing is published yet: the root of size `0` that a new blob starts with is never found. -/
theorem Side.start_empty {q : Query} (hstable : ∀ x, stable x = none)
    (hsib : siblings = siblingsFrom intervals id ps p 0 m ∨
      siblings = siblingsFrom intervals id ps p 0 m ++ [q]) (hq : q.size = 0) :
    Side dht ps m stable n id intervals isLeft p siblings [] := by
  refine ⟨0, .inl ⟨rfl, rfl⟩, fun i hi _ => ?_⟩
  have hpos : 0 < ps * 2 ^ i := Nat.mul_pos hps (Nat.two_pow_pos i)
  have hs := searchList_siblingsFrom intervals id (p := p) hps hi
  refine .of_empty ?_ fun _ _ x _ => hstable x
  rcases hsib with rfl | rfl
  · exact hs
  · rw [searchList_concat_ne (by omega)]
    exact hs

/-- The page is in the stable tree: the walk starts at its root. -/
theorem Side.start_walk {M : Nat} {q : Query} (hn : n = 2 ^ M) (hp : p < n)
    (hM : ps * 2 ^ M < 2 ^ 64) (hstable : ∀ x, n ≤ x → stable x = none)
    (hd : Denotes dht ps stable M 0 q) (hoff : q.offset = 0) (hsize : q.size = ps * 2 ^ M) :
    Side dht ps m stable n id intervals isLeft p (siblingsFrom intervals id ps p 0 m) [q] := by
  subst hn
  have hp0 : p / 2 ^ M = 0 := Nat.div_eq_of_lt hp
  refine ⟨M, .inr ⟨q, rfl, ?_⟩, fun i hi _ => ?_⟩
  · refine ⟨by rw [hp0]; exact hd, by rw [hp0, Nat.zero_mul]; exact hoff, hsize, hp, M, rfl,
      Nat.le_refl _, hM⟩
  · refine .of_empty (searchList_siblingsFrom intervals id hps hi) fun _ hMi x hx => hstable x ?_
    by_contra hlt
    have hle : (2 : Nat) ^ M ≤ 2 ^ i := Nat.pow_le_pow_right (by omega) hMi
    rcases brother_in_stable (M := M) hx (by omega) with h | h
    · omega
    · rw [Nat.div_eq_of_lt (by omega)] at h
      omega

/-- The page is beyond the stable tree: on the left, the stable root is a sibling. -/
theorem Side.start_beyond {M : Nat} {q : Query} (hn : n = 2 ^ M) (hp : n ≤ p)
    (hstable : ∀ x, n ≤ x → stable x = none) (hd : Denotes dht ps stable M 0 q)
    (hoff : q.offset = 0) (hsize : q.size = ps * 2 ^ M)
    (hsib : siblings = if isLeft ∧ (searchList (siblingsFrom intervals id ps p 0 m)
        q.offset q.size).empty then siblingsFrom intervals id ps p 0 m ++ [q]
      else siblingsFrom intervals id ps p 0 m) :
    Side dht ps m stable n id intervals isLeft p siblings [] := by
  subst hn
  refine ⟨0, .inl ⟨rfl, rfl⟩, fun i hi hrel => ?_⟩
  have hpos : 0 < ps * 2 ^ i := Nat.mul_pos hps (Nat.two_pow_pos i)
  have hs := searchList_siblingsFrom intervals id (p := p) hps hi
  -- the entry of the stable root is at block `0` of level `M`
  have hne : ¬ (i = M ∧ brother (p / 2 ^ i) = 0) →
      searchList siblings (brother (p / 2 ^ i) * (ps * 2 ^ i)) (ps * 2 ^ i) =
        searchList (siblingsFrom intervals id ps p 0 m)
          (brother (p / 2 ^ i) * (ps * 2 ^ i)) (ps * 2 ^ i) := by
    intro hne
    rw [hsib]
    split
    · refine searchList_concat_ne ?_
      rintro ⟨h1, h2⟩
      rw [hsize] at h2
      have hi := span_inj hps h2
      refine hne ⟨hi.symm, ?_⟩
      rw [hoff] at h1
      rcases Nat.mul_eq_zero.1 h1.symm with h | h
      · exact h
      · omega
    · rfl
  by_cases hat : i = M ∧ brother (p / 2 ^ i) = 0
  · obtain ⟨rfl, hb⟩ := hat
    have hone : p / 2 ^ i = 1 := by
      have hge : 1 ≤ p / 2 ^ i := (Nat.one_le_div_iff (Nat.two_pow_pos i)).2 hp
      unfold brother at hb
      split at hb <;> omega
    have hleft : isLeft = true := by
      unfold Relevant at hrel
      split at hrel
      · assumption
      · omega
    unfold SiblingAt
    simp only
    rw [hb, Nat.zero_mul] at hs ⊢
    rw [hsib, hoff, hsize]
    cases hf : inFlight intervals ps i 0 with
    | some v =>
      rw [hf] at hs
      simp only [Option.map_some, Option.getD_some] at hs
      rw [hs, nodeAt_not_empty hps, if_neg (by simp), hs]
    | none =>
      rw [hf] at hs
      simp only [Option.map_none, Option.getD_none] at hs
      have hq := searchList_concat hpos hs hoff hsize
      rw [hs, if_pos ⟨hleft, rfl⟩, hq]
      refine ⟨?_, fun _ _ => hd⟩
      rintro (h | h)
      · exact absurd h.2.2 (by omega)
      · omega
  · refine .of_empty ((hne hat).trans hs) fun hfar _ x hx => hstable x ?_
    by_contra hlt
    rcases brother_in_stable (M := M) hx (by omega) with h | ⟨h1, h2⟩
    · omega
    · rcases Nat.lt_or_ge M i with hMi | hMi
      · exact hfar ⟨h2, Nat.two_pow_pos M, Nat.pow_lt_pow_right (by omega) hMi⟩
      · refine hat ⟨by omega, ?_⟩
        rw [h2]
        rfl

/-! ## One step of the walk -/

omit hps in
/-- The walk ends at a hole: every block below it is empty. -/
theorem Side.walk_end {l : Nat} (hl : l = 0 ∨ ∀ x, x / 2 ^ l = p / 2 ^ l → stable x = none)
    (hsib : ∀ i, i < m → Relevant isLeft p i →
      SiblingAt dht ps stable n id intervals p siblings l i) :
    Side dht ps m stable n id intervals isLeft p siblings [] := by
  refine ⟨0, .inl ⟨rfl, rfl⟩, fun i hi hr => ?_⟩
  have h := hsib i hi hr
  unfold SiblingAt at h ⊢
  simp only at h ⊢
  cases hf : inFlight intervals ps i (brother (p / 2 ^ i)) with
  | some v =>
    rw [hf] at h
    exact h
  | none =>
    rw [hf] at h
    refine ⟨fun hor => h.1 (.inl (hor.resolve_right (Nat.not_lt_zero i))), fun hfar _ => ?_⟩
    rcases Nat.lt_or_ge i l with hlt | hge
    · rw [h.1 (.inr hlt)]
      refine .hole (.inl rfl) fun x hx => ?_
      rcases hl with hl | hl
      · omega
      · exact hl x (brother_block hlt hx)
    · exact h.2 hfar hge

/-- The list while the walk goes from level `l + 1` to level `l`: the brother that it passes is
entered unless a ticket is in flight there. -/
theorem SiblingAt.step {l : Nat} {q : Query}
    (hq : Denotes dht ps stable l (brother (p / 2 ^ l)) q)
    (hoff : q.offset = brother (p / 2 ^ l) * (ps * 2 ^ l)) (hsize : q.size = ps * 2 ^ l)
    (hpn : p < n) {siblings' : List Query}
    (hsib' : siblings' = if (searchList siblings q.offset q.size).empty then siblings ++ [q]
      else siblings) {i : Nat}
    (h : SiblingAt dht ps stable n id intervals p siblings (l + 1) i) :
    SiblingAt dht ps stable n id intervals p siblings' l i := by
  have hpos : 0 < ps * 2 ^ i := Nat.mul_pos hps (Nat.two_pow_pos i)
  have hother : i ≠ l →
      searchList siblings' (brother (p / 2 ^ i) * (ps * 2 ^ i)) (ps * 2 ^ i) =
        searchList siblings (brother (p / 2 ^ i) * (ps * 2 ^ i)) (ps * 2 ^ i) := by
    intro hne
    rw [hsib']
    split
    · refine searchList_concat_ne fun ⟨_, h2⟩ => hne ?_
      rw [hsize] at h2
      exact (span_inj hps h2).symm
    · rfl
  unfold SiblingAt at h ⊢
  simp only at h ⊢
  by_cases hil : i = l
  · subst hil
    cases hf : inFlight intervals ps i (brother (p / 2 ^ i)) with
    | some v =>
      rw [hf] at h
      simp only at h ⊢
      rw [hsib', hoff, hsize, h, nodeAt_not_empty hps, if_neg (by simp)]
      exact h
    | none =>
      rw [hf] at h
      simp only at h ⊢
      have he := h.1 (.inr (Nat.lt_succ_self i))
      have hc := searchList_concat hpos he hoff hsize
      have hfar : ¬ Far n p i := fun ⟨h1, _, h3⟩ => by
        have : 2 ^ i ≤ p := (Nat.one_le_div_iff (Nat.two_pow_pos i)).1 (by omega)
        omega
      rw [hsib', hoff, hsize, he, if_pos (Query.empty_iff.2 rfl), hc]
      exact ⟨fun hor => absurd hor (by simp [hfar]), fun _ _ => hq⟩
  · rw [hother hil]
    cases hf : inFlight intervals ps i (brother (p / 2 ^ i)) with
    | some v =>
      rw [hf] at h
      exact h
    | none =>
      rw [hf] at h
      simp only at h ⊢
      refine ⟨fun hor => h.1 ?_, fun hfar hle => h.2 hfar (by omega)⟩
      rcases hor with hor | hor
      · exact .inl hor
      · exact .inr (by omega)

omit hps in
/-- A level at which the walk turns to the side of its own list needs no brother. -/
theorem SiblingAt.skip {l i : Nat} (hrel : Relevant isLeft p i)
    (hnot : ¬ Relevant isLeft p l)
    (h : SiblingAt dht ps stable n id intervals p siblings (l + 1) i) :
    SiblingAt dht ps stable n id intervals p siblings l i := by
  have hil : i ≠ l := fun he => hnot (he ▸ hrel)
  unfold SiblingAt at h ⊢
  simp only at h ⊢
  cases hf : inFlight intervals ps i (brother (p / 2 ^ i)) with
  | some v =>
    rw [hf] at h
    exact h
  | none =>
    rw [hf] at h
    refine ⟨fun hor => h.1 ?_, fun hfar hle => h.2 hfar (by omega)⟩
    rcases hor with hor | hor
    · exact .inl hor
    · exact .inr (by omega)

/-- What the callback does at an inner node of the stable tree. -/
theorem siblingsCallback_inner {i j : Nat} {q l r target : Query}
    (hoff : q.offset = j * (ps * 2 ^ (i + 1))) (hsize : q.size = ps * 2 ^ (i + 1))
    (hend : (j + 1) * (ps * 2 ^ (i + 1)) < 2 ^ 64) :
    siblingsCallback isLeft target siblings q (some (.node ⟨false, l, r⟩)) =
      if (nodeAt l.id l.version ps i (2 * j)).intersects target then
        (if !isLeft && (searchList siblings ((2 * j + 1) * (ps * 2 ^ i)) (ps * 2 ^ i)).empty then
            siblings ++ [nodeAt r.id r.version ps i (2 * j + 1)] else siblings,
          some (nodeAt l.id l.version ps i (2 * j)))
      else
        (if isLeft && (searchList siblings (2 * j * (ps * 2 ^ i)) (ps * 2 ^ i)).empty then
            siblings ++ [nodeAt l.id l.version ps i (2 * j)] else siblings,
          some (nodeAt r.id r.version ps i (2 * j + 1))) := by
  have hpos : 0 < ps * 2 ^ i := Nat.mul_pos hps (Nat.two_pow_pos i)
  have hhalf : ps * 2 ^ (i + 1) / 2 = ps * 2 ^ i := by
    rw [span_succ]
    omega
  have e0 : j * (ps * 2 ^ (i + 1)) = 2 * j * (ps * 2 ^ i) := by
    rw [span_succ]
    ring
  have e1 : u64 (2 * j * (ps * 2 ^ i) + ps * 2 ^ i) = (2 * j + 1) * (ps * 2 ^ i) := by
    rw [Nat.add_mul (2 * j), Nat.one_mul]
    refine u64_of_lt ?_
    rw [Nat.add_mul, e0, Nat.one_mul, span_succ] at hend
    omega
  simp only [siblingsCallback, readNode, hoff, hsize, hhalf, e0, e1, Bool.false_eq_true, if_false]
  rfl

/-- One answer of the walk keeps the invariant of its side. -/
theorem Side.step {target q : Query} {tid tversion : Nat} (hz : NoZero dht)
    (htarget : target = nodeAt tid tversion ps 0 p) (hp64 : (p + 1) * ps < 2 ^ 64)
    (h : Side dht ps m stable n id intervals isLeft p siblings [q]) :
    Side dht ps m stable n id intervals isLeft p
      (siblingsCallback isLeft target siblings q (dht q)).1
      (siblingsCallback isLeft target siblings q (dht q)).2.toList := by
  obtain ⟨l, hg, hsib⟩ := h
  obtain ⟨q', hq', hw⟩ : ∃ q', [q] = [q'] ∧ WalkGet dht ps stable n p l q' := by
    rcases hg with ⟨hg, -⟩ | hg
    · cases hg
    · exact hg
  cases hq'
  obtain ⟨hd, hoff, hsize, hpn, M, hn, hlM, hM⟩ := hw
  generalize hj : p / 2 ^ l = j at hd hoff
  cases hd with
  | hole hp hm =>
    have hnone := hz q hp.id_eq
    simp only [hnone, siblingsCallback, readNode]
    exact .walk_end (.inr fun x hx => hm x (hx.trans hj)) hsib
  | leaf hp _ _ =>
    simp only [hp, siblingsCallback, readNode, if_true]
    exact .walk_end (.inl rfl) hsib
  | @inner i j qid qv l r hp hl hr =>
    have hlt : j < 2 ^ (M - (i + 1)) := by
      rw [← hj, Nat.div_lt_iff_lt_mul (Nat.two_pow_pos _), ← Nat.pow_add, Nat.sub_add_cancel hlM]
      omega
    have hend : (j + 1) * (ps * 2 ^ (i + 1)) < 2 ^ 64 := by
      rcases Nat.lt_or_ge (i + 1) M with hi | hi
      · exact block_end_lt hM hi hlt
      · have e : i + 1 = M := by omega
        rw [e, Nat.sub_self, Nat.pow_zero] at hlt
        rw [e, Nat.lt_one_iff.1 hlt, Nat.zero_add, Nat.one_mul]
        exact hM
    have hturn : (nodeAt l.id l.version ps i (2 * j)).intersects target = true ↔
        p / 2 ^ i = 2 * j := by
      rw [nodeAt_intersects_iff (a := p) (b := p) hps (Nat.le_refl p)]
      · unfold Touches
        omega
      · rw [htarget, nodeAt, Nat.pow_zero, Nat.mul_one]
      · rw [htarget, nodeAt, Nat.pow_zero, Nat.mul_one, Nat.add_sub_cancel_left, Nat.one_mul]
      · rw [span_succ] at hend
        have e : (j + 1) * (2 * (ps * 2 ^ i)) = (2 * j + 1) * (ps * 2 ^ i) + ps * 2 ^ i := by ring
        omega
      · exact hp64
    rw [hp, siblingsCallback_inner hps hoff hsize hend]
    rw [div_two_pow_succ] at hj
    have hinTree : ∃ M, n = 2 ^ M ∧ i ≤ M ∧ ps * 2 ^ M < 2 ^ 64 := ⟨M, hn, by omega, hM⟩
    by_cases hleft : p / 2 ^ i = 2 * j
    · -- the walk turns left; the right half is a sibling on the right side
      have hb : brother (p / 2 ^ i) = 2 * j + 1 := by
        rw [hleft]
        exact brother_even (by omega)
      rw [if_pos (hturn.2 hleft)]
      refine ⟨i, .inr ⟨_, rfl, ?_, ?_, rfl, hpn, hinTree⟩, fun k hk hrel => ?_⟩
      · rw [hleft]
        exact hl.placed
      · rw [hleft]
        rfl
      · cases isLeft with
        | true =>
          exact (hsib k hk hrel).skip hrel (by simp [Relevant, hleft])
        | false =>
          have hr' := hr.placed
          rw [← hb] at hr'
          refine SiblingAt.step hps hr' rfl rfl hpn ?_ (hsib k hk hrel)
          rw [hb]
          rfl
    · -- the walk turns right; the left half is a sibling on the left side
      have hright : p / 2 ^ i = 2 * j + 1 := by omega
      have hb : brother (p / 2 ^ i) = 2 * j := by
        rw [hright, brother_odd (by omega), Nat.add_sub_cancel]
      rw [if_neg fun h => hleft (hturn.1 h)]
      refine ⟨i, .inr ⟨_, rfl, ?_, ?_, rfl, hpn, hinTree⟩, fun k hk hrel => ?_⟩
      · rw [hright]
        exact hr.placed
      · rw [hright]
        rfl
      · cases isLeft with
        | true =>
          have hl' := hl.placed
          rw [← hb] at hl'
          refine SiblingAt.step hps hl' rfl rfl hpn ?_ (hsib k hk hrel)
          rw [hb]
          rfl
        | false =>
          exact (hsib k hk hrel).skip hrel (by simp [Relevant, hright])

end side

end BlobSeer
