import BlobSeer.Lib.Rounds
import BlobSeer.PManager.AdvManager

/-!
# Groups of replicas

The results of `get` come in groups, one for each page. As long as there are fewer than `2 ^ 31`
results, or groups of one, the backward loop over them looks at those of the current group
(`alreadyAllocated_iff`), so
the loops of `get` make picks in rounds of different providers (`getLoop_rounds`), and each pick raises
one score by one (`AdvTable.bumpAll_entries`).
-/

namespace BlobSeer

open Lib (Rounds)

/-! ## The backward loop -/

theorem allocatedLoop_iff {advList : List ProviderDesc} {id : ProviderDesc} {stop : Int} :
    ∀ {fuel k : Nat}, k ≤ fuel → (allocatedLoop advList id stop (fuel + 1) ((k : Int) - 1) = true ↔
      ∃ j < k, stop < j ∧ advList.getD j {} = id)
  | fuel, 0, _ => by
    rw [allocatedLoop, if_neg (by omega)]
    refine iff_of_false Bool.false_ne_true ?_
    rintro ⟨j, hj, -⟩
    exact Nat.not_lt_zero j hj
  | fuel + 1, k + 1, hk => by
    have hj : ((k + 1 : Nat) : Int) - 1 = k := by omega
    rw [allocatedLoop, hj]
    split
    · next hcond =>
      rw [Int.toNat_natCast]
      split
      · next heq => exact iff_of_true rfl ⟨k, Nat.lt_succ_self k, hcond.1, heq.symm⟩
      · next hne =>
        rw [allocatedLoop_iff (Nat.le_of_succ_le_succ hk)]
        constructor
        · rintro ⟨j, hj, hrest⟩
          exact ⟨j, Nat.lt_succ_of_lt hj, hrest⟩
        · rintro ⟨j, hj, hstop, hid⟩
          have hjk : j ≠ k := by
            rintro rfl
            exact hne hid.symm
          exact ⟨j, by omega, hstop, hid⟩
    · next hcond =>
      refine iff_of_false Bool.false_ne_true ?_
      rintro ⟨j, hj, hstop, -⟩
      omega

/-- The loop looks at the last `i` results. -/
theorem alreadyAllocated_iff {B W : List ProviderDesc} (hsees : (B ++ W).length < 2 ^ 31 ∨ W = [])
    {id : ProviderDesc} : alreadyAllocated (B ++ W) W.length id = true ↔ id ∈ W := by
  rcases hsees with hlt | rfl
  swap
  · -- for the first replica the loop ends at once, whatever the cast makes of the size
    rw [alreadyAllocated, allocatedLoop, if_neg (by rw [List.length_nil]; omega)]
    exact iff_of_false Bool.false_ne_true List.not_mem_nil
  have hlen : (B ++ W).length = B.length + W.length := List.length_append
  rw [alreadyAllocated, i32_of_lt hlt, allocatedLoop_iff (Nat.le_refl _), List.mem_iff_getElem]
  constructor
  · rintro ⟨j, hj, hstop, rfl⟩
    refine ⟨j - B.length, by omega, ?_⟩
    rw [List.getD_eq_getElem?_getD, List.getElem?_append_right (by omega),
      List.getElem?_eq_getElem (by omega)]
    rfl
  · rintro ⟨k, hk, rfl⟩
    refine ⟨B.length + k, by omega, by omega, ?_⟩
    rw [List.getD_eq_getElem?_getD, List.getElem?_append_right (Nat.le_add_right _ _),
      Nat.add_sub_cancel_left, List.getElem?_eq_getElem hk]
    rfl

/-! ## The scan -/

theorem scan_eq_some {taken : ProviderDesc → Bool} {e : TableEntry} :
    ∀ {l : List TableEntry}, scan taken l = some e →
      ∃ front rest, l = front ++ e :: rest ∧ 0 < e.info.free ∧ taken e.id = false ∧
        ∀ x ∈ front, 0 < x.info.free ∧ taken x.id = true
  | x :: l, h => by
    rw [scan] at h
    split at h
    · next hfree =>
      split at h
      · next htaken =>
        obtain ⟨front, rest, rfl, h1, h2, h3⟩ := scan_eq_some h
        exact ⟨x :: front, rest, rfl, h1, h2, List.forall_mem_cons.mpr ⟨⟨hfree, htaken⟩, h3⟩⟩
      · next htaken =>
        cases h
        exact ⟨[], l, rfl, hfree, Bool.eq_false_iff.mpr htaken, fun _ h => absurd h List.not_mem_nil⟩
    · cases h

/-- A scan that finds nothing ends with the list or at an entry without free space. -/
theorem scan_eq_none {taken : ProviderDesc → Bool} :
    ∀ {l : List TableEntry}, scan taken l = none →
      ∃ front rest, l = front ++ rest ∧ (∀ x ∈ front, 0 < x.info.free ∧ taken x.id = true) ∧
        ∀ x ∈ rest.head?, x.info.free = 0
  | [], _ => ⟨[], [], rfl, fun _ h => absurd h List.not_mem_nil, fun _ h => by cases h⟩
  | x :: l, h => by
    rw [scan] at h
    split at h
    · next hfree =>
      split at h
      · next htaken =>
        obtain ⟨front, rest, rfl, h1, h2⟩ := scan_eq_none h
        exact ⟨x :: front, rest, rfl, List.forall_mem_cons.mpr ⟨⟨hfree, htaken⟩, h1⟩, h2⟩
      · cases h
    · next hfree =>
      refine ⟨[], x :: l, rfl, fun _ h => absurd h List.not_mem_nil, fun y hy => ?_⟩
      cases hy
      exact Nat.eq_zero_of_not_pos hfree

/-! ## The scores -/

namespace AdvTable

/-- The table after some allocations. -/
def bumpAll (T : AdvTable) (L : List ProviderDesc) : AdvTable := L.foldl bump T

theorem bumpAll_append (T : AdvTable) (L : List ProviderDesc) (id : ProviderDesc) :
    T.bumpAll (L ++ [id]) = (T.bumpAll L).bump id := List.foldl_concat ..

/-- Each score grows by the number of times that its provider is allocated, as a 64-bit counter; nothing
else changes. -/
theorem bumpAll_entries (T : AdvTable) (L : List ProviderDesc) :
    (T.bumpAll L).entries = T.entries.map fun e => e.raise (L.count e.id) := by
  induction L using List.reverseRecOn with
  | nil =>
    have hsame : ∀ e ∈ T.entries, e.raise (([] : List ProviderDesc).count e.id) = e := by
      intro e he
      rw [List.count_nil, TableEntry.raise, Nat.add_zero, u64_of_lt (T.score_lt e he)]
    exact ((List.map_congr_left hsame).trans (List.map_id' _)).symm
  | append_singleton L id ih =>
    have hbump : ((T.bumpAll L).bump id).entries = (T.bumpAll L).entries.map fun e =>
        if e.id = id then e.raise 1 else e := rfl
    rw [bumpAll_append, hbump, ih, List.map_map]
    refine List.map_congr_left fun e _ => ?_
    dsimp only [Function.comp]
    rw [TableEntry.raise_id, List.count_append, List.count_singleton]
    by_cases he : e.id = id
    · rw [if_pos he, if_pos (beq_iff_eq.mpr he.symm), TableEntry.raise_raise]
    · rw [if_neg he, if_neg (fun h => he (beq_iff_eq.mp h).symm), Nat.add_zero]

end AdvTable

/-! ## The loops -/

/-- The state of the loops after the results `L`. -/
def AdvTable.after (T : AdvTable) (L : List ProviderDesc) : AdvState := ⟨T.bumpAll L, L⟩

/-- The next result of `get`, after complete groups `B` and the results `W` of the current one. -/
def AdvTable.Picks (order : ScanOrder) (T : AdvTable) (B W : List ProviderDesc)
    (p : ProviderDesc) : Prop :=
  ∃ e, (T.after (B ++ W)).pick order W.length = some e ∧ e.id = p

/-- The results of `get` when its loops have ended: complete groups for all pages, or nothing was found
for the next replica of a page that is still missing. -/
structure Outcome (order : ScanOrder) (T : AdvTable) (n r g : Nat) (B W : List ProviderDesc) :
    Prop where
  rounds : Rounds r (T.Picks order) g B W
  started : 0 < g → (g - 1) * r < n
  ended : (n ≤ B.length ∧ W = []) ∨
    (B.length < n ∧ W.length < r ∧ (T.after (B ++ W)).pick order W.length = none)

namespace AdvState

variable {order : ScanOrder} {T : AdvTable} {n r g : Nat}

/-- The loop over a group goes on with its picks, up to the last one or up to a scan that finds
nothing. -/
theorem fillGroup_rounds : ∀ {m : Nat} {B W : List ProviderDesc} {found : Bool} {s : AdvState},
    Rounds r (T.Picks order) g B W → W.length + m = r →
    (T.after (B ++ W)).fillGroup order m W.length = (found, s) →
      ∃ W', s = T.after (B ++ W') ∧ Rounds r (T.Picks order) g B W' ∧
        (found = true ∧ W'.length = r ∨
          found = false ∧ W'.length < r ∧ s.pick order W'.length = none)
  | 0, B, W, found, s, hrounds, hlen, h => by
    cases h
    exact ⟨W, rfl, hrounds, .inl ⟨rfl, hlen⟩⟩
  | m + 1, B, W, found, s, hrounds, hlen, h => by
    rw [fillGroup] at h
    split at h
    · next hnone =>
      cases h
      exact ⟨W, rfl, hrounds, .inr ⟨rfl, by omega, hnone⟩⟩
    · next e he =>
      have hnext := hrounds.pick (by omega) ⟨e, he, rfl⟩
      have hstate : (T.after (B ++ W)).allocate e.id = T.after (B ++ (W ++ [e.id])) := by
        rw [← List.append_assoc, AdvTable.after, AdvTable.after, AdvTable.bumpAll_append]
        rfl
      have hW : (W ++ [e.id]).length = W.length + 1 := List.length_append
      rw [hstate, ← hW] at h
      exact fillGroup_rounds hnext (by omega) h

/-- The loops of `get` make picks in rounds. -/
theorem getLoop_rounds (hr : r < 2 ^ 31) :
    ∀ {fuel g : Nat} {B : List ProviderDesc} {s : AdvState}, Rounds r (T.Picks order) g B [] →
      (0 < g → (g - 1) * r < n) → getLoop order n r fuel (T.after B) = some s →
        ∃ g' B' W', s = T.after (B' ++ W') ∧ Outcome order T n r g' B' W'
  | fuel + 1, g, B, s, hrounds, hstarted, h => by
    rw [getLoop] at h
    by_cases hlt : (T.after B).advList.length < n
    · have hm : (i32 r).toNat = r := by rw [i32_of_lt hr, Int.toNat_natCast]
      rw [if_pos hlt, hm] at h
      obtain ⟨found, s', hs⟩ : ∃ found s', (T.after (B ++ [])).fillGroup order r 0 = (found, s') :=
        ⟨_, _, rfl⟩
      obtain ⟨W', rfl, hrounds', hend⟩ := fillGroup_rounds hrounds (Nat.zero_add r) hs
      rw [List.append_nil] at hs
      rw [hs] at h
      rcases hend with ⟨rfl, hfull⟩ | ⟨rfl, hW, hpick⟩
      · refine getLoop_rounds hr (hrounds'.round hfull) (fun _ => ?_) h
        rw [Nat.add_sub_cancel, ← hrounds.length.1]
        exact hlt
      · cases h
        exact ⟨g, B, W', rfl, hrounds', hstarted, .inr ⟨hlt, hW, hpick⟩⟩
    · rw [if_neg hlt] at h
      cases h
      refine ⟨g, B, [], ?_, hrounds, hstarted, .inl ⟨Nat.not_lt.mp hlt, rfl⟩⟩
      rw [List.append_nil]

end AdvState

/-- What `get` answers, in terms of its rounds. -/
theorem AdvTable.get_outcome (order : ScanOrder) (T : AdvTable) {n r : Nat} (hn : 0 < n)
    (hr0 : 0 < r) (hr : r < 2 ^ 31) :
    ∃ g B W, Outcome order T n r g B W ∧ T.get order n r =
      if (B ++ W).length ≠ n then some (T.bumpAll (B ++ W), .eres, [])
      else some (T.bumpAll (B ++ W), .ok, B ++ W) := by
  have hpos : 0 < (i32 r).toNat := (i32_toNat_pos_iff (by omega)).mpr ⟨hr0, hr⟩
  have hsome : (AdvState.getLoop order n r (n + 1) (T.after [])).isSome = true :=
    AdvState.getLoop_isSome hpos (Nat.le_add_left n _)
  obtain ⟨s, hs⟩ := Option.isSome_iff_exists.mp hsome
  obtain ⟨g, B, W, rfl, hout⟩ := AdvState.getLoop_rounds hr .nil (fun h => by cases h) hs
  refine ⟨g, B, W, hout, ?_⟩
  rw [AdvTable.get, if_neg hn.ne']
  have hs' : AdvState.getLoop order n r (n + 1) { table := T } = some (T.after (B ++ W)) := hs
  rw [hs']
  rfl

/-! ## The groups -/

/-- What a scan finds is in the table. -/
theorem AdvTable.pick_mem {order : ScanOrder} (hlists : order.Lists) {T : AdvTable}
    {L : List ProviderDesc} {i : Nat} {e : TableEntry} (h : (T.after L).pick order i = some e) :
    e ∈ (T.bumpAll L).entries ∧ 0 < e.info.free ∧ alreadyAllocated L i e.id = false := by
  obtain ⟨front, rest, hscan, hfree, htaken, -⟩ := scan_eq_some h
  have hmem : e ∈ order L.length (T.bumpAll L).entries := by
    refine hscan ▸ ?_
    exact List.mem_append_right _ List.mem_cons_self
  exact ⟨(hlists _ _).mem_iff.mp hmem, hfree, htaken⟩

/-- A pick is a registered provider with free space. -/
theorem AdvTable.Picks.registered {order : ScanOrder} {T : AdvTable} (hlists : order.Lists)
    {B W : List ProviderDesc} {p : ProviderDesc} (h : T.Picks order B W p) :
    ∃ e ∈ T.entries, e.id = p ∧ 0 < e.info.free := by
  obtain ⟨e, he, rfl⟩ := h
  obtain ⟨hmem, hfree, -⟩ := AdvTable.pick_mem hlists he
  rw [AdvTable.bumpAll_entries] at hmem
  obtain ⟨x, hx, rfl⟩ := List.mem_map.mp hmem
  exact ⟨x, hx, rfl, hfree⟩

/-- A pick is not in the group yet. -/
theorem AdvTable.Picks.fresh {order : ScanOrder} {T : AdvTable} (hlists : order.Lists)
    {B W : List ProviderDesc} {p : ProviderDesc} (hsees : (B ++ W).length < 2 ^ 31 ∨ W = [])
    (h : T.Picks order B W p) : p ∉ W := by
  obtain ⟨e, he, rfl⟩ := h
  intro hin
  exact Bool.eq_false_iff.mp (AdvTable.pick_mem hlists he).2.2 ((alreadyAllocated_iff hsees).mpr hin)

/-- **Groups of replicas.** If `get` returns `ok` for `n` results in groups of `r`, it returns `n` results;
those of one group are different providers, all registered and with free space; each score has grown
by the number of results for its provider, as a 64-bit counter, and nothing else has changed. If `r`
does not divide `n`, the last group is not complete because nothing was found for its next replica. -/
theorem get_groups {order : ScanOrder} {T T' : AdvTable} {n r : Nat} {L : List ProviderDesc}
    (hlists : order.Lists) (hr0 : 1 ≤ r) (hr : r < 2 ^ 31) (hn0 : 1 ≤ n) (hn : n < 2 ^ 31)
    (hget : T.get order n r = some (T', .ok, L)) :
    L.length = n ∧ (∀ g, ((L.drop (g * r)).take r).Nodup) ∧
      (∀ p ∈ L, ∃ e ∈ T.entries, e.id = p ∧ 0 < e.info.free) ∧
      T'.entries = (T.entries.map fun e => e.raise (L.count e.id)) ∧
      (¬ r ∣ n → AdvState.pick order ⟨T', L⟩ (n % r) = none) := by
  obtain ⟨g, B, W, hout, hanswer⟩ := AdvTable.get_outcome order T hn0 hr0 hr
  rw [hanswer] at hget
  split at hget
  · cases hget
  · next hlen =>
    have hlen := Decidable.not_not.mp hlen
    cases hget
    have hrounds := hout.rounds.imp (N := n) (fun _ _ hlt hp =>
      AdvTable.Picks.fresh hlists (.inl (hlt.trans hn)) hp) (Nat.le_of_eq hlen)
    refine ⟨hlen, hrounds.nodup_block fun hp => hp, ?_, T.bumpAll_entries _, fun hdvd => ?_⟩
    · exact hout.rounds.forall_mem fun _ _ _ hp => hp.registered hlists
    · obtain ⟨hB, hW⟩ := hrounds.length
      rw [List.length_append, hB] at hlen
      rcases hout.ended with ⟨-, rfl⟩ | ⟨-, hlt, hpick⟩
      · exact absurd (Dvd.intro_left g hlen) hdvd
      · have hmod : n % r = W.length := by
          rw [← hlen, Nat.mul_add_mod_self_right, Nat.mod_eq_of_lt hlt]
        rw [hmod]
        exact hpick

/-- Two groups of two replicas. -/
theorem get_groups_two : ∃ T' L, twoEntries.get (fun _ l => l) 4 2 = some (T', .ok, L) ∧
    L.length = 4 ∧ ((L.drop (1 * 2)).take 2).Nodup := by
  obtain ⟨T', L, hget⟩ : ∃ T' L, twoEntries.get (fun _ l => l) 4 2 = some (T', .ok, L) :=
    ⟨_, _, rfl⟩
  obtain ⟨hlen, hgroups, -⟩ := get_groups (fun _ _ => .refl _) (by decide) (by decide) (by decide)
    (by decide) hget
  exact ⟨T', L, hget, hlen, hgroups 1⟩

/-- One result in groups of two replicas: with one provider the group stays incomplete, and that is
enough. -/
theorem get_incomplete_group :
    ∃ T' L, (({} : AdvTable).update ⟨"a", "1"⟩ 5 0 0).get (fun _ l => l) 1 2 = some (T', .ok, L) ∧
      L.length = 1 ∧ ¬ 2 ∣ 1 := by
  exact ⟨_, _, rfl, rfl, by decide⟩

end BlobSeer
