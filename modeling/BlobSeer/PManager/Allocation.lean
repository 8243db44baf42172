import BlobSeer.PManager.Groups
import Mathlib.Data.List.Sort

/-!
# When an allocation succeeds

The scan of `get` ends at the first entry without free space. `ScoreEntry.lt` puts such an entry after
those with free space whose scores are not higher than its own, but not after the others: neither of
the two is less. So the index may list a full provider first, and then `get` gives up although there are
enough providers (`get_gives_up`).

`get` takes one of the providers with the least score each time, so it succeeds for every index if and
only if the eligible providers can take all results before one of them would pass the score of a full
provider (`allocates_iff`).
-/

namespace BlobSeer

open Lib (Rounds)

/-- The entries of the providers with free space. -/
def AdvTable.eligible (T : AdvTable) : List TableEntry := T.entries.filter (0 < ·.info.free)

/-- No entry is less than one that is listed before it. -/
structure ScanOrder.Sorted (order : ScanOrder) : Prop where
  lists : order.Lists
  sorted : ∀ k l, (order k l).Pairwise fun a b => b.info.lt a.info = false

/-- What `get` is for. It succeeds whenever there are enough providers with free space for a group, and
each provider that it takes, after complete groups `B` and the results `W` of the current one, has the
least score of those that are not in the group yet. -/
structure AllocatesFairly (order : ScanOrder) (T : AdvTable) (n r : Nat) : Prop where
  ok_iff : (∃ T' L, T.get order n r = some (T', .ok, L)) ↔ r ≤ T.eligible.length
  least : ∀ {s B W p}, AdvState.getLoop order n r (n + 1) { table := T } = some s →
    B ++ W ++ [p] <+: s.advList → r ∣ B.length → W.length < r →
      ∀ e ∈ (T.bumpAll (B ++ W)).entries, e.id = p →
        ∀ x ∈ (T.bumpAll (B ++ W)).entries, 0 < x.info.free → x.id ∉ W →
          e.info.score ≤ x.info.score

namespace AdvTable

/-! ## Scores by provider -/

theorem mem_eligible {T : AdvTable} {e : TableEntry} :
    e ∈ T.eligible ↔ e ∈ T.entries ∧ 0 < e.info.free := by
  rw [eligible, List.mem_filter, decide_eq_true_iff]

theorem eq_of_id {T : AdvTable} {e x : TableEntry} (he : e ∈ T.entries) (hx : x ∈ T.entries)
    (hid : e.id = x.id) : e = x :=
  List.inj_on_of_nodup_map T.nodup he hx hid

def scoreOf (T : AdvTable) (p : ProviderDesc) : Nat :=
  ((T.entries.find? (·.id = p)).map (·.info.score)).getD 0

theorem scoreOf_id {T : AdvTable} {e : TableEntry} (he : e ∈ T.entries) :
    T.scoreOf e.id = e.info.score := by
  obtain ⟨x, hx⟩ := Option.isSome_iff_exists.mp
    (List.find?_isSome (p := (·.id = e.id)).mpr ⟨e, he, decide_eq_true rfl⟩)
  have hid := List.find?_some hx
  simp only [decide_eq_true_eq] at hid
  rw [scoreOf, hx, eq_of_id (List.mem_of_find?_eq_some hx) he hid]
  rfl

def eligibleIds (T : AdvTable) : Finset ProviderDesc := (T.eligible.map TableEntry.id).toFinset

theorem mem_eligibleIds {T : AdvTable} {p : ProviderDesc} :
    p ∈ T.eligibleIds ↔ ∃ e ∈ T.eligible, e.id = p := by
  rw [eligibleIds, List.mem_toFinset, List.mem_map]

theorem nodup_eligible (T : AdvTable) : (T.eligible.map TableEntry.id).Nodup :=
  T.nodup.sublist (List.filter_sublist.map _)

theorem sum_eligibleIds (T : AdvTable) (f : Nat → Nat) :
    ∑ p ∈ T.eligibleIds, f (T.scoreOf p) = (T.eligible.map fun e => f e.info.score).sum := by
  rw [eligibleIds, List.sum_toFinset _ T.nodup_eligible, List.map_map]
  refine congrArg List.sum (List.map_congr_left fun e he => ?_)
  exact congrArg f (scoreOf_id (mem_eligible.mp he).1)

/-! ## Scores after some allocations -/

section scores

variable {T : AdvTable} {n : Nat} {L : List ProviderDesc}

/-- The entry of an eligible provider, after at most `n` allocations of it. -/
theorem raise_score (hscore : ∀ e ∈ T.eligible, e.info.score + n < 2 ^ 64)
    (hcount : ∀ p, L.count p ≤ n) {e : TableEntry} (he : e ∈ T.eligible) :
    (e.raise (L.count e.id)).info.score = T.scoreOf e.id + L.count e.id := by
  have hle := hcount e.id
  have hlt := hscore e he
  rw [scoreOf_id (mem_eligible.mp he).1]
  exact u64_of_lt (by omega)

theorem mem_bumpAll {x : TableEntry} : x ∈ (T.bumpAll L).entries ↔
    ∃ e ∈ T.entries, e.raise (L.count e.id) = x := by
  rw [bumpAll_entries, List.mem_map]

/-- The entry of a full provider, when only eligible providers have been taken. -/
theorem raise_full (hL : ∀ p ∈ L, p ∈ T.eligibleIds) {F : TableEntry} (hF : F ∈ T.entries)
    (hfull : F.info.free = 0) : F.raise (L.count F.id) = F := by
  have hcount : L.count F.id = 0 := by
    refine List.count_eq_zero_of_not_mem fun hmem => ?_
    obtain ⟨e, he, hid⟩ := mem_eligibleIds.mp (hL _ hmem)
    obtain ⟨hmem, hfree⟩ := mem_eligible.mp he
    rw [eq_of_id hmem hF hid, hfull] at hfree
    exact Nat.lt_irrefl 0 hfree
  rw [hcount, TableEntry.raise, Nat.add_zero, u64_of_lt (T.score_lt F hF)]

end scores

/-! ## What a scan finds -/

/-- An entry that is not listed behind the one found is in the group already, and has free space. -/
theorem pick_before {order : ScanOrder} {R : TableEntry → TableEntry → Prop} (hlists : order.Lists)
    (hR : ∀ k l, (order k l).Pairwise R) {T : AdvTable} {B W : List ProviderDesc} {e : TableEntry}
    (hsees : (B ++ W).length < 2 ^ 31 ∨ W = [])
    (h : (T.after (B ++ W)).pick order W.length = some e) :
    ∀ x ∈ (T.bumpAll (B ++ W)).entries, x = e ∨ R e x ∨ 0 < x.info.free ∧ x.id ∈ W := by
  intro x hx
  obtain ⟨front, rest, hscan, -, -, hfront⟩ := scan_eq_some h
  have hpairs := hR (B ++ W).length (T.bumpAll (B ++ W)).entries
  have hmem := (hlists (B ++ W).length (T.bumpAll (B ++ W)).entries).mem_iff.mpr hx
  have hscan : order (B ++ W).length (T.bumpAll (B ++ W)).entries = front ++ e :: rest := hscan
  rw [hscan] at hpairs hmem
  rcases List.mem_append.mp hmem with hmem | hmem
  · obtain ⟨hfree, htaken⟩ := hfront x hmem
    exact .inr (.inr ⟨hfree, (alreadyAllocated_iff hsees).mp htaken⟩)
  · rcases List.mem_cons.mp hmem with rfl | hmem
    · exact .inl rfl
    · exact .inr (.inl ((List.pairwise_cons.mp (List.pairwise_append.mp hpairs).2.1).1 x hmem))

/-- An entry with free space is not less than the one found, or is in the group already. -/
theorem pick_least {order : ScanOrder} {T : AdvTable} {B W : List ProviderDesc} {e : TableEntry}
    (horder : order.Sorted) (hsees : (B ++ W).length < 2 ^ 31 ∨ W = [])
    (h : (T.after (B ++ W)).pick order W.length = some e) :
    ∀ x ∈ (T.bumpAll (B ++ W)).entries, 0 < x.info.free → x.id ∉ W →
      e.info.score ≤ x.info.score := by
  intro x hx hfree hxW
  have hfound := (pick_mem horder.lists h).2.1
  rcases pick_before horder.lists horder.sorted hsees h x hx with rfl | hless | ⟨-, hmem⟩
  · exact Nat.le_refl _
  · by_contra hlt
    rw [ScoreEntry.lt, if_neg (by omega), if_neg (by omega), if_pos (by omega)] at hless
    cases hless
  · exact absurd hmem hxW

/-- A scan that finds nothing, although there is an eligible provider that is not in the group, has met a
full provider, whose score is less than that of each such provider. -/
theorem pick_none {order : ScanOrder} {T : AdvTable} {B W : List ProviderDesc}
    (horder : order.Sorted) (hsees : (B ++ W).length < 2 ^ 31 ∨ W = [])
    (h : (T.after (B ++ W)).pick order W.length = none)
    (hleft : ∃ e ∈ (T.bumpAll (B ++ W)).entries, 0 < e.info.free ∧ e.id ∉ W) :
    ∃ F ∈ (T.bumpAll (B ++ W)).entries, F.info.free = 0 ∧
      ∀ x ∈ (T.bumpAll (B ++ W)).entries, 0 < x.info.free → x.id ∉ W →
        F.info.score < x.info.score := by
  obtain ⟨front, rest, hscan, hfront, hrest⟩ := scan_eq_none h
  have hsorted := horder.sorted (B ++ W).length (T.bumpAll (B ++ W)).entries
  have hmem := fun {x} => (horder.lists (B ++ W).length (T.bumpAll (B ++ W)).entries).mem_iff (a := x)
  have hscan : order (B ++ W).length (T.bumpAll (B ++ W)).entries = front ++ rest := hscan
  rw [hscan] at hsorted hmem
  -- those that are not in the group come after the end of the scan
  have hafter : ∀ x ∈ (T.bumpAll (B ++ W)).entries, x.id ∉ W → x ∈ rest := by
    intro x hx hxW
    rcases List.mem_append.mp (hmem.mpr hx) with hx | hx
    · exact absurd ((alreadyAllocated_iff hsees).mp (hfront x hx).2) hxW
    · exact hx
  cases rest with
  | nil =>
    obtain ⟨e, he, -, heW⟩ := hleft
    exact absurd (hafter e he heW) List.not_mem_nil
  | cons F rest =>
    have hfull : F.info.free = 0 := hrest F rfl
    refine ⟨F, hmem.mp (List.mem_append_right _ List.mem_cons_self), hfull, fun x hx hfree hxW => ?_⟩
    rcases List.mem_cons.mp (hafter x hx hxW) with rfl | hx
    · rw [hfull] at hfree
      exact absurd hfree (Nat.lt_irrefl 0)
    · have hless := (List.pairwise_cons.mp (List.pairwise_append.mp hsorted).2.1).1 x hx
      by_contra hle
      rw [ScoreEntry.lt, if_neg (by omega), if_neg (by omega), if_pos (.inl hfull)] at hless
      cases hless

/-! ## The picks -/

section picks

variable {order : ScanOrder} {T : AdvTable} {n : Nat} {B W : List ProviderDesc} {p : ProviderDesc}

/-- A pick is an eligible provider. -/
theorem Picks.eligible (hlists : order.Lists) (h : T.Picks order B W p) : p ∈ T.eligibleIds := by
  obtain ⟨e, he, hid, hfree⟩ := h.registered hlists
  exact mem_eligibleIds.mpr ⟨e, mem_eligible.mpr ⟨he, hfree⟩, hid⟩

/-- The score of a pick. -/
theorem Picks.score (hlists : order.Lists) (hscore : ∀ e ∈ T.eligible, e.info.score + n < 2 ^ 64)
    (hcount : ∀ p, (B ++ W).count p ≤ n) (h : T.Picks order B W p) :
    ∃ e, (T.after (B ++ W)).pick order W.length = some e ∧
      e.info.score = T.scoreOf p + (B ++ W).count p := by
  have hp := h.eligible hlists
  obtain ⟨x, hx, rfl⟩ := mem_eligibleIds.mp hp
  obtain ⟨e, he, hid⟩ := h
  obtain ⟨y, hy, rfl⟩ := mem_bumpAll.mp (pick_mem hlists he).1
  have hyx : y = x := eq_of_id hy (mem_eligible.mp hx).1 hid
  subst hyx
  exact ⟨_, he, raise_score hscore hcount hx⟩

/-- A pick is one of those that can be picked most often before they pass a score `b`. -/
theorem Picks.largest (horder : order.Sorted) (hsees : (B ++ W).length < 2 ^ 31 ∨ W = [])
    (hscore : ∀ e ∈ T.eligible, e.info.score + n < 2 ^ 64) (hcount : ∀ p, (B ++ W).count p ≤ n)
    (h : T.Picks order B W p) (b : Nat) :
    Rounds.Largest T.eligibleIds (fun p => b + 1 - T.scoreOf p) B W p := by
  obtain ⟨e, he, hescore⟩ := h.score horder.lists hscore hcount
  refine ⟨h.eligible horder.lists, h.fresh horder.lists hsees, fun x hx hxW => ?_⟩
  obtain ⟨y, hy, rfl⟩ := mem_eligibleIds.mp hx
  have hleast := pick_least horder hsees he _
    (mem_bumpAll.mpr ⟨y, (mem_eligible.mp hy).1, rfl⟩) (mem_eligible.mp hy).2 hxW
  rw [hescore, raise_score hscore hcount hy] at hleast
  omega

end picks

end AdvTable

/-- The backward loop sees the current group: there are fewer than `2 ^ 31` results, or groups of one. -/
theorem sees_group {n r : Nat} {B W : List ProviderDesc} (hn : n < 2 ^ 31 ∨ r = 1)
    (hW : W.length < r) (hlt : (B ++ W).length < n) : (B ++ W).length < 2 ^ 31 ∨ W = [] := by
  rcases hn with hn | rfl
  · exact .inl (hlt.trans hn)
  · exact .inr (List.eq_nil_of_length_eq_zero (Nat.lt_one_iff.mp hW))

/-- A provider gets at most one result in each of `n / r` groups. -/
theorem AdvTable.rounds_count {order : ScanOrder} {T : AdvTable} {n r g : Nat}
    {B W : List ProviderDesc} (hlists : order.Lists) (hn : n < 2 ^ 31 ∨ r = 1) (hdvd : r ∣ n)
    (hrounds : Rounds r (T.Picks order) g B W) (hle : (B ++ W).length ≤ n) (p : ProviderDesc) :
    (B ++ W).count p ≤ n / r := by
  have hfresh : Rounds r (fun _ W p => p ∉ W) g B W :=
    hrounds.imp (fun _ hW hlt hp => hp.fresh hlists (sees_group hn hW hlt)) hle
  refine hfresh.count_append_le id ?_ p
  rw [Nat.div_mul_cancel hdvd]
  exact hle

/-! ## Enough room below the full providers -/

/-- All picks of a run are eligible. -/
theorem AdvTable.rounds_eligible {order : ScanOrder} {T : AdvTable} {r g : Nat}
    {B W : List ProviderDesc} (hlists : order.Lists) (hrounds : Rounds r (T.Picks order) g B W) :
    ∀ p ∈ B ++ W, p ∈ T.eligibleIds :=
  hrounds.forall_mem fun _ _ _ hp => hp.eligible hlists

/-- No more results than asked for, when they come in complete groups. -/
theorem Outcome.length_le {order : ScanOrder} {T : AdvTable} {n r g : Nat}
    {B W : List ProviderDesc} (h : Outcome order T n r g B W) (hdvd : r ∣ n) :
    (B ++ W).length ≤ n := by
  obtain ⟨q, rfl⟩ := hdvd
  have hB := h.rounds.length.1
  rw [Nat.mul_comm] at hB
  rw [List.length_append]
  rcases h.ended with ⟨-, rfl⟩ | ⟨hlt, hW, -⟩
  · rcases Nat.eq_zero_or_pos g with rfl | hpos
    · rw [hB]
      exact Nat.zero_le _
    · have hlt := h.started hpos
      rw [Nat.mul_comm] at hlt
      have hgq : g ≤ q := Nat.le_of_pred_lt (Nat.lt_of_mul_lt_mul_left hlt)
      rw [hB]
      exact Nat.mul_le_mul_left r hgq
  · rw [hB] at hlt ⊢
    have hgq : g + 1 ≤ q := Nat.lt_of_mul_lt_mul_left hlt
    have hle := Nat.mul_le_mul_left r hgq
    rw [Nat.mul_succ] at hle
    omega

/-- `get` succeeds when its loops do not end early. -/
theorem Outcome.ok_iff {order : ScanOrder} {T : AdvTable} {n r g : Nat} {B W : List ProviderDesc}
    (h : Outcome order T n r g B W) (hdvd : r ∣ n) : (B ++ W).length = n ↔ n ≤ B.length := by
  have hle := h.length_le hdvd
  rw [List.length_append] at hle ⊢
  constructor
  · intro heq
    rcases h.ended with ⟨hn, -⟩ | ⟨-, hW, -⟩
    · exact hn
    · have hrW : r ∣ W.length := by
        rw [← heq, h.rounds.length.1] at hdvd
        exact (Nat.dvd_add_right (Nat.dvd_mul_left r g)).mp hdvd
      have hzero := Nat.eq_zero_of_dvd_of_lt hrW hW
      omega
  · intro hn
    omega

/-- What the eligible providers can take, in `n / r` groups, before one of them would pass the score of
`F`. -/
def AdvTable.room (T : AdvTable) (n r : Nat) (F : TableEntry) : Nat :=
  (T.eligible.map fun e => min (n / r) (F.info.score + 1 - e.info.score)).sum

theorem AdvTable.room_eq {T : AdvTable} {n r : Nat} {F : TableEntry} :
    ∑ p ∈ T.eligibleIds, min (n / r) (F.info.score + 1 - T.scoreOf p) = T.room n r F :=
  T.sum_eligibleIds fun score => min (n / r) (F.info.score + 1 - score)

/-- With enough room the scans do not meet a full provider too early. -/
theorem Outcome.ok_of_room {order : ScanOrder} {T : AdvTable} {n r g : Nat}
    {B W : List ProviderDesc} (horder : order.Sorted) (hn : n < 2 ^ 31 ∨ r = 1)
    (hscore : ∀ e ∈ T.eligible, e.info.score + n / r < 2 ^ 64) (h : Outcome order T n r g B W)
    (hdvd : r ∣ n) (henough : r ≤ T.eligible.length)
    (hroom : ∀ F ∈ T.entries, F.info.free = 0 → n ≤ T.room n r F) : n ≤ B.length := by
  rcases h.ended with ⟨hn, -⟩ | ⟨hlt, hW, hnone⟩
  · exact hn
  exfalso
  have hle := h.length_le hdvd
  have hless : (B ++ W).length < n := by
    refine Nat.lt_of_le_of_ne hle fun heq => ?_
    exact absurd ((h.ok_iff hdvd).mp heq) (Nat.not_le.mpr hlt)
  have hleft : ∃ e ∈ (T.bumpAll (B ++ W)).entries, 0 < e.info.free ∧ e.id ∉ W := by
    by_contra hno
    have hsub : T.eligible.map TableEntry.id ⊆ W := by
      intro p hp
      obtain ⟨e, he, rfl⟩ := List.mem_map.mp hp
      obtain ⟨hmem, hfree⟩ := AdvTable.mem_eligible.mp he
      by_contra heW
      exact hno ⟨_, AdvTable.mem_bumpAll.mpr ⟨e, hmem, rfl⟩, hfree, heW⟩
    have hcard := (T.nodup_eligible.subperm hsub).length_le
    rw [List.length_map] at hcard
    omega
  obtain ⟨F', hF', hfull, habove⟩ :=
    AdvTable.pick_none horder (sees_group hn hW hless) hnone hleft
  obtain ⟨F, hF, rfl⟩ := AdvTable.mem_bumpAll.mp hF'
  rw [AdvTable.raise_full (AdvTable.rounds_eligible horder.lists h.rounds) hF hfull] at habove
  -- but there is room for one more result
  have hrounds := h.rounds.imp (N := n) (fun hrounds hW hlt hp =>
    hp.largest horder (sees_group hn hW hlt) hscore
      (AdvTable.rounds_count horder.lists hn hdvd hrounds hlt.le) F.info.score) hle
  have hcount := AdvTable.rounds_count horder.lists hn hdvd h.rounds hle
  obtain ⟨q, rfl⟩ := hdvd
  have hr : 0 < r := Nat.zero_lt_of_lt hW
  have hq : r * q / r = q := Nat.mul_div_cancel_left q hr
  have hgq : g < q := by
    rw [h.rounds.length.1, Nat.mul_comm] at hlt
    exact Nat.lt_of_mul_lt_mul_left hlt
  have hsum := hroom F hF hfull
  rw [← AdvTable.room_eq, hq, Nat.mul_comm r] at hsum
  obtain ⟨p, hp, hpW, hroom⟩ := hrounds.exists_pick id hW hgq hsum
  obtain ⟨e, he, rfl⟩ := AdvTable.mem_eligibleIds.mp hp
  have habove := habove _ (AdvTable.mem_bumpAll.mpr ⟨e, (AdvTable.mem_eligible.mp he).1, rfl⟩)
    (AdvTable.mem_eligible.mp he).2 hpW
  rw [AdvTable.raise_score hscore hcount he] at habove
  omega

/-! ## The index that lists full providers as early as it may -/

/-- The entries by score, and by free space where the scores are equal. -/
def ScoreEntry.Before (a b : ScoreEntry) : Prop :=
  a.score < b.score ∨ a.score = b.score ∧ b.free ≤ a.free

instance : DecidableRel fun a b : TableEntry => a.info.Before b.info :=
  fun _ _ => inferInstanceAs (Decidable (_ ∨ _))

def byScore : ScanOrder := fun _ l => l.insertionSort fun a b => a.info.Before b.info

theorem byScore_pairwise (k : Nat) (l : List TableEntry) :
    (byScore k l).Pairwise fun a b => a.info.Before b.info := by
  have htotal : Std.Total fun a b : TableEntry => a.info.Before b.info :=
    ⟨fun a b => by simp only [ScoreEntry.Before]; omega⟩
  have htrans : IsTrans TableEntry fun a b => a.info.Before b.info :=
    ⟨fun a b c => by simp only [ScoreEntry.Before]; omega⟩
  exact List.pairwise_insertionSort _ l

theorem byScore_sorted : ScanOrder.Sorted byScore where
  lists := fun _ l => List.perm_insertionSort _ l
  sorted := fun k l => (byScore_pairwise k l).imp fun {a b} h => by
    rw [ScoreEntry.Before] at h
    rw [ScoreEntry.lt]
    split
    · exact decide_eq_false (by omega)
    · split
      · rfl
      · split
        · omega
        · exact decide_eq_false (by omega)

/-- A scan of this index does not pass a full provider. -/
theorem AdvTable.pick_below {T : AdvTable} {B W : List ProviderDesc} {e F : TableEntry}
    (hsees : (B ++ W).length < 2 ^ 31 ∨ W = [])
    (h : (T.after (B ++ W)).pick byScore W.length = some e)
    (hF : F ∈ (T.bumpAll (B ++ W)).entries) (hfull : F.info.free = 0) :
    e.info.score ≤ F.info.score := by
  rcases pick_before byScore_sorted.lists byScore_pairwise hsees h F hF with rfl | hbefore | ⟨hfree, -⟩
  · exact Nat.le_refl _
  · rw [ScoreEntry.Before] at hbefore
    omega
  · omega

/-- With this index each pick has room below a full provider. -/
theorem AdvTable.Picks.within {T : AdvTable} {n : Nat} {B W : List ProviderDesc}
    {p : ProviderDesc} {F : TableEntry} (hsees : (B ++ W).length < 2 ^ 31 ∨ W = [])
    (hscore : ∀ e ∈ T.eligible, e.info.score + n < 2 ^ 64) (hcount : ∀ p, (B ++ W).count p ≤ n)
    (hL : ∀ p ∈ B ++ W, p ∈ T.eligibleIds) (hF : F ∈ T.entries) (hfull : F.info.free = 0)
    (h : T.Picks byScore B W p) :
    Rounds.Within T.eligibleIds (fun p => F.info.score + 1 - T.scoreOf p) B W p := by
  obtain ⟨e, he, hescore⟩ := h.score byScore_sorted.lists hscore hcount
  have hle := AdvTable.pick_below hsees he
    (AdvTable.mem_bumpAll.mpr ⟨F, hF, AdvTable.raise_full hL hF hfull⟩) hfull
  exact ⟨h.eligible byScore_sorted.lists, h.fresh byScore_sorted.lists hsees, by omega⟩

/-- If `get` succeeds with this index, there is enough room below each full provider. -/
theorem Outcome.room_of_ok {T : AdvTable} {n r g : Nat} {B W : List ProviderDesc} (hr : 0 < r)
    (hn : n < 2 ^ 31 ∨ r = 1) (hscore : ∀ e ∈ T.eligible, e.info.score + n / r < 2 ^ 64)
    (h : Outcome byScore T n r g B W) (hdvd : r ∣ n) (hok : n ≤ B.length) {F : TableEntry}
    (hF : F ∈ T.entries) (hfull : F.info.free = 0) : n ≤ T.room n r F := by
  have hle := h.length_le hdvd
  have hrounds := h.rounds.imp (N := n) (fun hrounds hW hlt hp => hp.within (sees_group hn hW hlt)
    hscore (AdvTable.rounds_count byScore_sorted.lists hn hdvd hrounds hlt.le)
    (AdvTable.rounds_eligible byScore_sorted.lists hrounds) hF hfull) hle
  have hB : B.length = n := by
    rw [List.length_append] at hle
    omega
  have hg : n / r = g := by
    rw [← hB, h.rounds.length.1, Nat.mul_div_cancel g hr]
  have hsum := hrounds.le_capacity id
  rw [← hrounds.length.1, hB] at hsum
  rw [← AdvTable.room_eq, hg]
  exact hsum

/-! ## What `get` answers -/

/-- A group is not larger than the inner loop can count. -/
theorem group_lt {n r : Nat} (hdvd : r ∣ n) (hpos : 0 < n) (hn : n < 2 ^ 31 ∨ r = 1) : r < 2 ^ 31 := by
  rcases hn with hn | rfl
  · exact Nat.lt_of_le_of_lt (Nat.le_of_dvd hpos hdvd) hn
  · decide

/-- `get` succeeds if and only if its loops do not end early. -/
theorem AdvTable.get_ok_iff (order : ScanOrder) (T : AdvTable) {n r : Nat} (hr : 1 ≤ r)
    (hdvd : r ∣ n) (hn0 : n ≠ 0) (hn : n < 2 ^ 31 ∨ r = 1) :
    ∃ g B W, Outcome order T n r g B W ∧
      ((∃ T' L, T.get order n r = some (T', .ok, L)) ↔ n ≤ B.length) := by
  have hpos := Nat.pos_of_ne_zero hn0
  obtain ⟨g, B, W, hout, hget⟩ :=
    T.get_outcome order hpos hr (group_lt hdvd hpos hn)
  refine ⟨g, B, W, hout, ?_⟩
  rw [← hout.ok_iff hdvd, hget]
  split
  · next hne =>
    refine iff_of_false ?_ hne
    rintro ⟨T', L, h⟩
    cases h
  · next heq => exact iff_of_true ⟨_, _, rfl⟩ (Decidable.not_not.mp heq)

/-- There are enough providers when `get` succeeds. -/
theorem Outcome.le_eligible {order : ScanOrder} {T : AdvTable} {n r g : Nat}
    {B W : List ProviderDesc} (hlists : order.Lists) (hn0 : n ≠ 0) (hn : n < 2 ^ 31 ∨ r = 1)
    (h : Outcome order T n r g B W) (hdvd : r ∣ n) (hok : n ≤ B.length) :
    r ≤ T.eligible.length := by
  have hle := h.length_le hdvd
  have hrounds := h.rounds.imp (N := n)
    (fun _ hW hlt hp => hp.fresh hlists (sees_group hn hW hlt)) hle
  -- the first group
  have hnodup := hrounds.nodup_block id 0
  rw [Nat.zero_mul, List.drop_zero] at hnodup
  have hsub : (B ++ W).take r ⊆ T.eligible.map TableEntry.id := by
    intro p hp
    obtain ⟨e, he, rfl⟩ := AdvTable.mem_eligibleIds.mp
      (AdvTable.rounds_eligible hlists h.rounds p (List.mem_of_mem_take hp))
    exact List.mem_map_of_mem he
  have hcard := (hnodup.subperm hsub).length_le
  have hrn := Nat.le_of_dvd (Nat.pos_of_ne_zero hn0) hdvd
  rw [List.length_map, List.length_take, List.length_append] at hcard
  omega

/-- The providers that `get` takes always have the least score. -/
theorem AdvTable.least {order : ScanOrder} {T : AdvTable} {n r : Nat} (horder : order.Sorted)
    (hdvd : r ∣ n) (hn : n < 2 ^ 31 ∨ r = 1) {s : AdvState} {B W : List ProviderDesc}
    {p : ProviderDesc} (hs : AdvState.getLoop order n r (n + 1) { table := T } = some s)
    (hpre : B ++ W ++ [p] <+: s.advList) (hB : r ∣ B.length) (hW : W.length < r)
    {e : TableEntry} (he : e ∈ (T.bumpAll (B ++ W)).entries) (hid : e.id = p) :
    ∀ x ∈ (T.bumpAll (B ++ W)).entries, 0 < x.info.free → x.id ∉ W →
      e.info.score ≤ x.info.score := by
  have hlen := hpre.length_le
  rw [List.length_append, List.length_singleton] at hlen
  rcases Nat.eq_zero_or_pos n with rfl | hpos
  · cases hs
    cases hlen
  have hs : AdvState.getLoop order n r (n + 1) (T.after []) = some s := hs
  obtain ⟨g, B', W', rfl, hout⟩ :=
    AdvState.getLoop_rounds (group_lt hdvd hpos hn) .nil (fun h => by cases h) hs
  have hle : (T.after (B' ++ W')).advList.length ≤ n := hout.length_le hdvd
  obtain ⟨e', he', rfl⟩ := hout.rounds.of_prefix hpre hB hW
  have hsame := eq_of_id he (pick_mem horder.lists he').1 hid
  subst hsame
  exact pick_least horder (sees_group hn hW (by omega)) he'

/-- **When an allocation succeeds.** For every index that lists no entry before a smaller one, `get`
succeeds exactly when there are enough providers with free space for a group, and takes those with the
least scores, if and only if there are too few, or at least one provider is asked for and there is enough
room below the score of each full provider. -/
theorem allocates_iff {T : AdvTable} {n r : Nat} (hr : 1 ≤ r) (hdvd : r ∣ n)
    (hn : n < 2 ^ 31 ∨ r = 1) (hscore : ∀ e ∈ T.eligible, e.info.score + n / r < 2 ^ 64) :
    (∀ order : ScanOrder, order.Sorted → AllocatesFairly order T n r) ↔
      T.eligible.length < r ∨
        n ≠ 0 ∧ ∀ F ∈ T.entries, F.info.free = 0 → n ≤ T.room n r F := by
  constructor
  · intro h
    have hok := (h byScore byScore_sorted).ok_iff
    by_cases hlt : T.eligible.length < r
    · exact .inl hlt
    obtain ⟨T', L, hget⟩ := hok.mpr (Nat.not_lt.mp hlt)
    have hn0 : n ≠ 0 := by
      rintro rfl
      cases hget
    obtain ⟨g, B, W, hout, hiff⟩ :=
      T.get_ok_iff byScore hr hdvd hn0 hn
    have hB := hiff.mp ⟨T', L, hget⟩
    exact .inr ⟨hn0, fun F hF hfull => hout.room_of_ok hr hn hscore hdvd hB hF hfull⟩
  · intro hcond order horder
    refine ⟨?_, fun hs hpre hB hW e he hid =>
      AdvTable.least horder hdvd hn hs hpre hB hW he hid⟩
    by_cases hn0 : n = 0
    · subst hn0
      have hlt := hcond.resolve_right fun h => h.1 rfl
      refine iff_of_false ?_ (Nat.not_le.mpr hlt)
      rintro ⟨T', L, h⟩
      cases h
    obtain ⟨g, B, W, hout, hiff⟩ := T.get_ok_iff order hr hdvd hn0 hn
    rw [hiff]
    refine ⟨hout.le_eligible horder.lists hn0 hn hdvd, fun henough => ?_⟩
    have hroom := (hcond.resolve_left (Nat.not_lt.mpr henough)).2
    exact hout.ok_of_room horder hn hscore hdvd henough hroom

/-- Two providers with room for two results, below the score of a full one. -/
theorem allocates_two : AllocatesFairly byScore (twoEntries.update ⟨"c", "1"⟩ 0 0 0) 2 2 :=
  (allocates_iff (by decide) (by decide) (by decide) (by decide)).mpr (by decide) byScore
    byScore_sorted

/-- The first of two providers is taken, then the second one reports that it is full. Its score is less, so
the index may list it first, and `get` gives up although the first provider still has free space. -/
theorem get_gives_up : ∃ T, twoEntries.get byScore 1 1 = some (T, .ok, [⟨"a", "1"⟩]) ∧
    byScore.Sorted ∧ (T.update ⟨"b", "1"⟩ 0 0 0).eligible.length = 1 ∧
      ¬ AllocatesFairly byScore (T.update ⟨"b", "1"⟩ 0 0 0) 1 1 := by
  obtain ⟨T, hT, hone, hget⟩ : ∃ T, twoEntries.get byScore 1 1 = some (T, .ok, [⟨"a", "1"⟩]) ∧
      (T.update ⟨"b", "1"⟩ 0 0 0).eligible.length = 1 ∧
        ∃ T', (T.update ⟨"b", "1"⟩ 0 0 0).get byScore 1 1 = some (T', .eres, []) :=
    ⟨_, rfl, rfl, _, rfl⟩
  refine ⟨T, hT, byScore_sorted, hone, fun h => ?_⟩
  obtain ⟨T', L, hok⟩ := h.ok_iff.mpr (Nat.le_of_eq hone.symm)
  obtain ⟨T'', heres⟩ := hget
  rw [heres] at hok
  cases hok

end BlobSeer
