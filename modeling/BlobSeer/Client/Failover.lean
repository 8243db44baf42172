import BlobSeer.Client.ReadPlan
import BlobSeer.Client.Locations
import Mathlib.Data.List.Perm.Basic

/-!
# Replicas of pages that fail (`object_handler::rpc_provider_callback`)

When a provider fails, `rpc_provider_callback` asks the next one. It is bound to the last parameter
of the first request only: for a whole page that is the page key and the next request is the same;
for a part of a page it is the size, and every provider refuses a `PROVIDER_READ_PARTIAL` with one
parameter. So a partial read gets one try (`pageCalls_part`), while a whole page is found when one of
its providers has it (`fetch_replicas`).
-/

namespace BlobSeer

open Lib

/-! ## What the providers answer -/

/-- The providers behind the page lists: which of them hold a page, the bytes of each page, and which
calls fail in transport. -/
structure Replicas where
  holds : ProviderDesc → Query → Bool
  content : Query → List UInt8
  fails : ProviderDesc → Bool → List ReadParam → Bool

namespace Replicas

variable (R : Replicas)

/-- `page_manager::read_page`, for one key. -/
def readPage (p : ProviderDesc) : List ReadParam → Option (List UInt8)
  | [.key q] => if R.holds p q then some (R.content q) else none
  | _ => none

/-- `page_manager::read_partial_page`. -/
def readPartialPage (p : ProviderDesc) : List ReadParam → Option (List UInt8)
  | [.key q, .num offset, .num size] =>
    if R.holds p q = true ∧ ¬ (R.content q).length < u64 (offset + size) then
      some (((R.content q).drop offset).take size)
    else none
  | _ => none

def answers : Answers := fun p part params =>
  if R.fails p part params then none
  else if part then R.readPartialPage p params
  else R.readPage p params

/-- The provider would answer the request for this page with as many bytes as it asks for. -/
def wouldAnswer (r : PageRead) (q : Query) (p : ProviderDesc) : Bool :=
  (R.answers p r.part.isSome (r.params q)).any fun bytes => decide (bytes.length = r.len)

end Replicas

/-! ## The calls for one page -/

/-- A call of a provider. -/
structure PageCall where
  provider : ProviderDesc
  part : Bool
  params : List ReadParam
deriving DecidableEq, Repr

/-- What the client makes of the answer to one call. -/
def reply (answers : Answers) (r : PageRead) (params : List ReadParam) (adv : ProviderDesc) :
    Option (List UInt8) :=
  (answers adv r.part.isSome params).filter fun bytes =>
    decide (r.bufferSize = 0 ∨ bytes.length = r.bufferSize)

/-- The provider answers the request, and the client takes the answer. -/
def Replicas.accepted (R : Replicas) (r : PageRead) (q : Query) (p : ProviderDesc) : Bool :=
  (reply R.answers r (r.params q) p).isSome

section calls

variable (answers : Answers) (rand : Nat → Nat → Nat)

/-- The calls that `fetchLoop` makes. -/
def callsLoop (r : PageRead) (last : ReadParam) : Nat → ProviderDesc → RandomSelect →
    List ReadParam → List PageCall
  | 0, _, _, _ => []
  | fuel + 1, adv, leaf, params =>
    ⟨adv, r.part.isSome, params⟩ ::
      match reply answers r params adv with
      | some _ => []
      | none =>
        let (adv, leaf) := leaf.tryNext (rand r.leaf leaf.providers.length)
        if adv.empty then [] else callsLoop r last fuel adv leaf [last]

/-- All calls for one page, made by `read` and by `rpc_provider_callback`. -/
def pageCalls (r : PageRead) (leaf : RandomSelect) : List PageCall :=
  let params := r.params leaf.pageKey
  let (adv, rest) := leaf.tryNext (rand r.leaf leaf.providers.length)
  callsLoop answers rand r (params.getLastD (.num 0)) (leaf.providers.length + 1) adv rest params

end calls

/-- The providers that are tried for a page if all of them fail: an empty description ends the
search. -/
def triedProviders (rand : Nat → Nat → Nat) (r : PageRead) (leaf : RandomSelect) :
    List ProviderDesc :=
  leaf.drain (rand r.leaf) (leaf.providers.length + 1)

/-! ## The order in which providers are picked -/

section drain

variable {leaf : RandomSelect} {rand : Nat → Nat}

theorem RandomSelect.tryNext_providers (rnd : Nat) :
    (leaf.tryNext rnd).1.empty = false →
      leaf.providers.Perm ((leaf.tryNext rnd).1 :: (leaf.tryNext rnd).2.providers) := by
  unfold RandomSelect.tryNext
  split
  · intro h
    cases h
  · next hne =>
    intro _
    have hlt := Nat.mod_lt rnd (Nat.pos_of_ne_zero hne)
    dsimp only
    rw [List.getD_eq_getElem?_getD, List.getElem?_eq_getElem hlt]
    exact (List.getElem_cons_eraseIdx_perm hlt).symm

theorem RandomSelect.mem_of_mem_drain {p : ProviderDesc} :
    ∀ {fuel : Nat} {leaf : RandomSelect}, p ∈ leaf.drain rand fuel → p ∈ leaf.providers
  | 0, _, h => by cases h
  | fuel + 1, leaf, h => by
    rw [RandomSelect.drain] at h
    dsimp only at h
    split at h
    · cases h
    · next hne =>
      have hperm := RandomSelect.tryNext_providers _ (Bool.eq_false_iff.mpr hne)
      rcases List.mem_cons.mp h with rfl | h
      · exact hperm.mem_iff.mpr List.mem_cons_self
      · exact hperm.mem_iff.mpr (List.mem_cons_of_mem _ (mem_of_mem_drain h))

/-- Without empty descriptions all providers are tried. -/
theorem RandomSelect.drain_perm :
    ∀ {fuel : Nat} {leaf : RandomSelect}, leaf.providers.length < fuel →
      (∀ p ∈ leaf.providers, p.empty = false) → (leaf.drain rand fuel).Perm leaf.providers
  | fuel + 1, leaf, hfuel, hall => by
    rw [RandomSelect.drain]
    dsimp only
    by_cases hnil : leaf.providers = []
    · have hempty : (leaf.tryNext (rand leaf.providers.length)).1.empty = true := by
        rw [RandomSelect.tryNext, if_pos (List.length_eq_zero_iff.mpr hnil)]
        rfl
      rw [if_pos hempty, hnil]
    · have hne := hall _ (tryNext_mem hnil (rand leaf.providers.length))
      have hperm := RandomSelect.tryNext_providers _ hne
      have hlen := hperm.length_eq
      rw [List.length_cons] at hlen
      rw [if_neg (Bool.eq_false_iff.mp hne)]
      refine .trans (.cons _ (drain_perm (by omega) fun p hp => ?_)) hperm.symm
      exact hall p (hperm.mem_iff.mpr (List.mem_cons_of_mem _ hp))

/-- More fuel than there are providers changes nothing. -/
theorem RandomSelect.drain_succ : ∀ {fuel : Nat} {leaf : RandomSelect},
    leaf.providers.length < fuel → leaf.drain rand (fuel + 1) = leaf.drain rand fuel
  | fuel + 1, leaf, hfuel => by
    rw [RandomSelect.drain]
    conv_rhs => rw [RandomSelect.drain]
    dsimp only
    split
    · rfl
    · next hne =>
      have hlen := (RandomSelect.tryNext_providers _ (Bool.eq_false_iff.mpr hne)).length_eq
      rw [List.length_cons] at hlen
      rw [drain_succ (by omega)]

variable {rand : Nat → Nat → Nat} {r : PageRead}

theorem triedProviders_eq : triedProviders rand r leaf =
    if (leaf.tryNext (rand r.leaf leaf.providers.length)).1.empty then []
    else (leaf.tryNext (rand r.leaf leaf.providers.length)).1 ::
      (leaf.tryNext (rand r.leaf leaf.providers.length)).2.drain (rand r.leaf)
        (leaf.providers.length + 1) := by
  rw [triedProviders, RandomSelect.drain]
  dsimp only
  split
  · rfl
  · next hne =>
    have hlen := (RandomSelect.tryNext_providers _ (Bool.eq_false_iff.mpr hne)).length_eq
    rw [List.length_cons] at hlen
    rw [RandomSelect.drain_succ (by omega)]

theorem mem_of_mem_triedProviders {p : ProviderDesc} (hp : p ∈ triedProviders rand r leaf) :
    p ∈ leaf.providers :=
  RandomSelect.mem_of_mem_drain hp

end drain

/-! ## One page -/

section page

variable {answers : Answers} {rand : Nat → Nat → Nat} {r : PageRead} {leaf : RandomSelect}

/-- The first provider gets the request, the others get its last parameter. -/
theorem fetchLoop_eq (last : ReadParam) : ∀ {fuel : Nat} {adv : ProviderDesc}
    {leaf : RandomSelect} {params : List ReadParam}, leaf.providers.length < fuel →
      fetchLoop answers rand r last fuel adv leaf params =
        ((reply answers r params adv).or
          ((leaf.drain (rand r.leaf) fuel).findSome? (reply answers r [last]))).map
            (List.take r.bufferSize)
  | fuel + 1, adv, leaf, params, hfuel => by
    rw [fetchLoop, RandomSelect.drain, reply]
    dsimp only
    split
    · next bytes hbytes => rw [hbytes, Option.some_or, Option.map_some]
    · next hnone =>
      rw [hnone, Option.none_or]
      split
      · rfl
      · next hne =>
        have hlen := (RandomSelect.tryNext_providers _ (Bool.eq_false_iff.mpr hne)).length_eq
        rw [List.length_cons] at hlen
        rw [fetchLoop_eq last (by omega), List.findSome?_cons]
        cases reply answers r [last]
            (leaf.tryNext (rand r.leaf leaf.providers.length)).1 with
        | none => rw [Option.none_or]
        | some bytes => rw [Option.some_or]

/-- A page with a provider to try: the first of them gets the request, the others its last
parameter. -/
theorem fetch_eq {adv : ProviderDesc} {rest : List ProviderDesc}
    (htried : triedProviders rand r leaf = adv :: rest) :
    fetch answers rand r leaf =
      ((reply answers r (r.params leaf.pageKey) adv).or
        (rest.findSome? (reply answers r [(r.params leaf.pageKey).getLastD (.num 0)]))).map
          (List.take r.bufferSize) := by
  rw [triedProviders_eq] at htried
  split at htried
  · cases htried
  · next hne =>
    have hlen := (RandomSelect.tryNext_providers _ (Bool.eq_false_iff.mpr hne)).length_eq
    rw [List.length_cons] at hlen
    have hrest : (leaf.tryNext (rand r.leaf leaf.providers.length)).2.providers.length <
        leaf.providers.length + 1 := by omega
    obtain ⟨rfl, rfl⟩ := List.cons.inj htried
    exact fetchLoop_eq _ hrest

theorem fetch_length {bytes : List UInt8} (htried : triedProviders rand r leaf ≠ [])
    (h : fetch answers rand r leaf = some bytes) : bytes.length = r.bufferSize := by
  obtain ⟨adv, rest, hcons⟩ := List.exists_cons_of_ne_nil htried
  have hreply : ∀ {params : List ReadParam} {p : ProviderDesc} {bytes : List UInt8},
      reply answers r params p = some bytes →
        (bytes.take r.bufferSize).length = r.bufferSize := by
    intro params p bytes h
    have hlen := of_decide_eq_true (Option.filter_eq_some_iff.mp h).2
    rw [List.length_take]
    omega
  rw [fetch_eq hcons, Option.map_eq_some_iff] at h
  obtain ⟨full, hfull, rfl⟩ := h
  rcases Option.or_eq_some_iff.mp hfull with h | ⟨-, h⟩
  · exact hreply h
  · obtain ⟨p, -, h⟩ := List.exists_of_findSome?_eq_some h
    exact hreply h

/-! ### Whole pages and parts of pages -/

variable {R : Replicas}

/-- The bytes that a request asks for. -/
def Replicas.bytes (R : Replicas) (r : PageRead) (q : Query) : List UInt8 :=
  ((R.content q).drop r.first).take r.len

/-- An answer that the client takes has the bytes asked for, as many of them as the buffer can
hold. -/
theorem reply_params {q : Query} {p : ProviderDesc}
    (hpart : r.part = none ∨ r.part = some (r.first, r.len)) :
    (reply R.answers r (r.params q) p).map (List.take r.bufferSize) =
      if R.accepted r q p then some ((R.bytes r q).take r.bufferSize) else none := by
  have hle : min r.bufferSize r.len = r.bufferSize := Nat.min_eq_left (Nat.mod_le _ _)
  rw [Replicas.accepted]
  cases hreply : reply R.answers r (r.params q) p with
  | none => rfl
  | some bytes =>
    rw [Option.map_some, Option.isSome_some, if_pos rfl, Replicas.bytes, List.take_take, hle]
    refine congrArg some ?_
    have hanswer := (Option.filter_eq_some_iff.mp hreply).1
    unfold Replicas.answers at hanswer
    split at hanswer
    · cases hanswer
    · rcases hpart with hpart | hpart
      · rw [hpart, PageRead.params, hpart, Option.isSome_none, if_neg Bool.false_ne_true,
          Replicas.readPage] at hanswer
        split at hanswer
        · cases hanswer
          rw [PageRead.first, hpart, List.drop_zero]
        · cases hanswer
      · rw [hpart, PageRead.params, hpart, Option.isSome_some, if_pos rfl,
          Replicas.readPartialPage] at hanswer
        split at hanswer
        · cases hanswer
          rw [List.take_take, hle]
        · cases hanswer

/-- The answer to a request for less than `2 ^ 32` bytes is taken when it has as many bytes. -/
theorem accepted_eq (hlen : 0 < r.len) (hshort : r.len < 2 ^ 32) (q : Query) (p : ProviderDesc) :
    R.accepted r q p = R.wouldAnswer r q p := by
  have hdecide : (fun bytes : List UInt8 =>
      decide (r.bufferSize = 0 ∨ bytes.length = r.bufferSize)) =
      fun bytes => decide (bytes.length = r.len) := by
    funext bytes
    rw [PageRead.bufferSize, u32_of_lt hshort, decide_eq_decide]
    omega
  rw [Replicas.accepted, reply, Option.isSome_filter, hdecide]
  rfl

/-- A `PROVIDER_READ_PARTIAL` with one parameter is refused. -/
theorem reply_last (hpart : r.part ≠ none) (last : ReadParam) (p : ProviderDesc) :
    reply R.answers r [last] p = none := by
  have hsome := Option.isSome_iff_ne_none.mpr hpart
  have hnone : R.answers p r.part.isSome [last] = none := by
    unfold Replicas.answers
    split
    · rfl
    · cases last <;> rfl
  rw [reply, hnone]
  rfl

/-- The providers that are asked for what the request is about. -/
def askedProviders (rand : Nat → Nat → Nat) (r : PageRead) (leaf : RandomSelect) :
    List ProviderDesc :=
  match r.part with
  | none => triedProviders rand r leaf
  | some _ => (triedProviders rand r leaf).take 1

theorem mem_tried_of_mem_asked {p : ProviderDesc} (hp : p ∈ askedProviders rand r leaf) :
    p ∈ triedProviders rand r leaf := by
  rw [askedProviders] at hp
  split at hp
  · exact hp
  · exact List.mem_of_mem_take hp

theorem fetch_asked (R : Replicas) (htried : triedProviders rand r leaf ≠ []) :
    fetch R.answers rand r leaf =
      ((askedProviders rand r leaf).findSome? (reply R.answers r (r.params leaf.pageKey))).map
        (List.take r.bufferSize) := by
  obtain ⟨adv, rest, hcons⟩ := List.exists_cons_of_ne_nil htried
  rw [fetch_eq hcons, askedProviders, hcons]
  refine congrArg _ ?_
  cases hpart : r.part with
  | none =>
    rw [PageRead.params, hpart, List.findSome?_cons]
    cases reply R.answers r [.key leaf.pageKey] adv with
    | none => exact Option.none_or
    | some bytes => exact Option.some_or
  | some part =>
    have hne : r.part ≠ none := by
      rw [hpart]
      exact Option.some_ne_none part
    have hrest : ∀ last, rest.findSome? (reply R.answers r [last]) = none := fun last =>
      List.findSome?_eq_none_iff.mpr fun p _ => reply_last hne last p
    rw [hrest, Option.or_none]
    dsimp only
    rw [List.take_succ_cons, List.take_zero, List.findSome?_singleton]

/-- A page is fetched when the client takes the answer of one of the providers that are asked for
it. -/
theorem fetch_replicas (hpart : r.part = none ∨ r.part = some (r.first, r.len))
    (htried : triedProviders rand r leaf ≠ []) :
    fetch R.answers rand r leaf =
      if (askedProviders rand r leaf).any (R.accepted r leaf.pageKey) then
        some ((R.bytes r leaf.pageKey).take r.bufferSize)
      else none := by
  rw [fetch_asked R htried]
  induction askedProviders rand r leaf with
  | nil => rfl
  | cons p l ih =>
    have hreply := reply_params (R := R) (q := leaf.pageKey) (p := p) hpart
    rw [List.findSome?_cons, List.any_cons]
    rw [Replicas.accepted] at hreply ⊢
    cases h : reply R.answers r (r.params leaf.pageKey) p with
    | none => exact ih
    | some bytes =>
      rw [h] at hreply
      exact hreply

/-! ### The calls -/

theorem callsLoop_part (last : ReadParam) : ∀ {fuel : Nat} {adv : ProviderDesc}
    {leaf : RandomSelect} {params : List ReadParam},
      ∀ c ∈ callsLoop answers rand r last fuel adv leaf params,
        c.part = r.part.isSome ∧ (c.params = params ∨ c.params = [last])
  | 0, _, _, _, _, hc => by cases hc
  | fuel + 1, adv, leaf, params, c, hc => by
    rw [callsLoop] at hc
    rcases List.mem_cons.mp hc with rfl | hc
    · exact ⟨rfl, .inl rfl⟩
    · split at hc
      · cases hc
      · dsimp only at hc
        split at hc
        · cases hc
        · obtain ⟨hpart, hparams⟩ := callsLoop_part last c hc
          exact ⟨hpart, .inr (or_self_iff.mp hparams)⟩

/-- The call is the first request for the page again. -/
def PageCall.Repeats (r : PageRead) (q : Query) (c : PageCall) : Prop :=
  c.part = r.part.isSome ∧ c.params = r.params q

/-- The next providers get the same request for a whole page. -/
theorem pageCalls_whole (hpart : r.part = none) :
    ∀ c ∈ pageCalls answers rand r leaf, c.Repeats r leaf.pageKey := by
  intro c hc
  have hparams : r.params leaf.pageKey = [.key leaf.pageKey] := by
    rw [PageRead.params, hpart]
  rw [pageCalls, hparams] at hc
  obtain ⟨h1, h2⟩ := callsLoop_part _ c hc
  exact ⟨h1, (or_self_iff.mp h2).trans hparams.symm⟩

/-- For a part of a page they get another request, so there must be no second one. -/
theorem pageCalls_part {part : Nat × Nat} (hpart : r.part = some part) {adv : ProviderDesc}
    {rest : List ProviderDesc} (htried : triedProviders rand r leaf = adv :: rest) :
    (∀ c ∈ pageCalls answers rand r leaf, c.Repeats r leaf.pageKey) ↔
      (reply answers r (r.params leaf.pageKey) adv).isSome = true ∨ rest = [] := by
  rw [triedProviders_eq] at htried
  split at htried
  · cases htried
  next hne =>
  have hlen := (RandomSelect.tryNext_providers _ (Bool.eq_false_iff.mpr hne)).length_eq
  rw [List.length_cons] at hlen
  obtain ⟨rfl, rfl⟩ := List.cons.inj htried
  rw [pageCalls]
  dsimp only
  generalize leaf.tryNext (rand r.leaf leaf.providers.length) = picked at hlen ⊢
  rw [callsLoop, RandomSelect.drain]
  dsimp only
  cases reply answers r (r.params leaf.pageKey) picked.1 with
  | some bytes =>
    refine iff_of_true (fun c hc => ?_) (.inl rfl)
    rw [List.mem_singleton.mp hc]
    exact ⟨rfl, rfl⟩
  | none =>
    dsimp only
    split
    · refine iff_of_true (fun c hc => ?_) (.inr rfl)
      rw [List.mem_singleton.mp hc]
      exact ⟨rfl, rfl⟩
    · refine iff_of_false (fun h => ?_) (fun h => ?_)
      · rw [hlen, callsLoop] at h
        have hsecond := (h _ (List.mem_cons_of_mem _ List.mem_cons_self)).2
        rw [PageRead.params, hpart] at hsecond
        cases hsecond
      · rcases h with h | h
        · cases h
        · cases h

end page

/-! ## The whole read -/

section read

variable {answers : Answers} {rand : Nat → Nat → Nat} {vadv : List RandomSelect}

/-- The leaf of a request. -/
def pageLeaf (vadv : List RandomSelect) (r : PageRead) : RandomSelect := vadv.getD r.leaf {}

theorem dispatchReads_eq : ∀ {plan : List PageRead}, (∀ r ∈ plan, r.leaf < vadv.length) →
    dispatchReads rand vadv plan =
      some (plan.all fun r => (triedProviders rand r (pageLeaf vadv r)).isEmpty = false)
  | [], _ => rfl
  | r :: plan, h => by
    have hlt := h r List.mem_cons_self
    have hget : vadv[r.leaf]? = some (pageLeaf vadv r) := by
      rw [pageLeaf, List.getD_eq_getElem?_getD, List.getElem?_eq_getElem hlt]
      rfl
    rw [dispatchReads, hget, List.all_cons, triedProviders_eq]
    dsimp only
    split
    · rfl
    · exact dispatchReads_eq fun r' hr' => h r' (List.mem_cons_of_mem _ hr')

/-- All pages must be fetched. -/
theorem runReads_result : ∀ {plan : List PageRead} {result : Bool} {buffer : Nat → UInt8},
    (runReads answers rand vadv plan result buffer).1 =
      (result && plan.all fun r => (fetch answers rand r (pageLeaf vadv r)).isSome)
  | [], result, _ => (Bool.and_true result).symm
  | r :: plan, result, buffer => by
    rw [runReads, List.all_cons, pageLeaf]
    cases fetch answers rand r (vadv.getD r.leaf {}) with
    | none =>
      rw [Option.isSome_none, Bool.false_and, Bool.and_false]
      exact runReads_result.trans (Bool.false_and _)
    | some bytes => exact runReads_result

/-- A position that one request writes gets its byte from the answer to that request. -/
theorem runReads_byte {b : Nat} {r₀ : PageRead} {bytes₀ : List UInt8}
    (hfetch₀ : fetch answers rand r₀ (pageLeaf vadv r₀) = some bytes₀)
    (hlen₀ : bytes₀.length = r₀.bufferSize) :
    ∀ {plan : List PageRead} {result : Bool} {buffer : Nat → UInt8},
      plan.filter (PageRead.writes b) = [r₀] →
        (runReads answers rand vadv plan result buffer).2 b = bytes₀.getD (b - r₀.dest) 0
  | r :: plan, result, buffer, hone => by
    rw [runReads]
    cases hwrites : r.writes b with
    | true =>
      rw [List.filter_cons, if_pos hwrites] at hone
      obtain ⟨rfl, hnil⟩ := List.cons.inj hone
      have hfree : ∀ r' ∈ plan, r'.writes b = false := fun r' hr' =>
        Bool.eq_false_iff.mpr (List.filter_eq_nil_iff.mp hnil r' hr')
      rw [PageRead.writes, holdsAt_iff, ← hlen₀] at hwrites
      rw [pageLeaf] at hfetch₀
      rw [hfetch₀]
      dsimp only
      rw [runReads_frame hfree, place, if_pos hwrites]
    | false =>
      rw [List.filter_cons, if_neg (Bool.eq_false_iff.mp hwrites)] at hone
      cases fetch answers rand r (vadv.getD r.leaf {}) with
      | none => exact runReads_byte hfetch₀ hlen₀ hone
      | some bytes => exact runReads_byte hfetch₀ hlen₀ hone

end read

/-! ## The law of failover -/

section law

variable (R : Replicas) (rand : Nat → Nat → Nat)
  (locate : Nat → Query → Root → Option (Bool × List RandomSelect)) (root : Root)
  (version offset size : Nat) (vadv : List RandomSelect)

/-- The byte of the blob that belongs at a place of the buffer. -/
def rightByte (b : Nat) : UInt8 :=
  let psize := root.pageSize
  let leaf := vadv.getD ((offset + b) / psize - offset / psize) {}
  (R.content leaf.pageKey).getD ((offset + b) % psize) 0

/-- The read returns `true` with the right bytes. -/
def ReadsRight (buffer : Nat → UInt8) : Prop :=
  ∃ buffer', readRoot R.answers rand locate root version offset size buffer =
      some (.returned true buffer') ∧
    ∀ b < size, buffer' b = rightByte R root offset vadv b

/-- A provider of the page would answer the request for it. -/
def Available (r : PageRead) : Prop :=
  ∃ p ∈ (pageLeaf vadv r).providers, R.wouldAnswer r (pageLeaf vadv r).pageKey p = true

/-- Failover as one expects it. There is one request for each touched page (`readPlan_leaves`). -/
structure FailsOver : Prop where
  served : ∀ buffer, ReadsRight R rand locate root version offset size vadv buffer ↔
    ∀ r ∈ readPlan root.pageSize offset size, Available R vadv r
  retries : dispatchReads rand vadv (readPlan root.pageSize offset size) = some true →
    ∀ r ∈ readPlan root.pageSize offset size,
      ∀ c ∈ pageCalls R.answers rand r (pageLeaf vadv r), c.Repeats r (pageLeaf vadv r).pageKey

/-- The client takes the answer of a provider that is asked for the page. -/
def PageAnswered (r : PageRead) : Prop :=
  (askedProviders rand r (pageLeaf vadv r)).any (R.accepted r (pageLeaf vadv r).pageKey) = true

/-- The range has less than `2 ^ 32` bytes of each page, or the read fails as it should. No provider
that would answer is behind an empty description, unless some page has no such provider at all; and
when every page has a provider to try, each part of a page has no second one or the answer of the
first one is taken. -/
structure NoSecondTry : Prop where
  short : ShortParts root.pageSize offset size ∨
    (∃ r ∈ readPlan root.pageSize offset size, ¬ Available R vadv r) ∧
      ∃ r ∈ readPlan root.pageSize offset size, ¬ PageAnswered R rand vadv r
  reached : (∀ r ∈ readPlan root.pageSize offset size, Available R vadv r) →
    ∀ r ∈ readPlan root.pageSize offset size,
      ∃ p ∈ triedProviders rand r (pageLeaf vadv r),
        R.wouldAnswer r (pageLeaf vadv r).pageKey p = true
  first : (∀ r ∈ readPlan root.pageSize offset size,
      triedProviders rand r (pageLeaf vadv r) ≠ []) →
    ∀ r ∈ readPlan root.pageSize offset size, r.part ≠ none →
      (triedProviders rand r (pageLeaf vadv r)).length = 1 ∨
        ∃ p ∈ (triedProviders rand r (pageLeaf vadv r)).head?,
          R.accepted r (pageLeaf vadv r).pageKey p = true

end law

section iff

variable {R : Replicas} {rand : Nat → Nat → Nat}
  {locate : Nat → Query → Root → Option (Bool × List RandomSelect)} {root : Root}
  {version offset size : Nat} {vadv : List RandomSelect}
  (hps : 0 < root.pageSize) (hsize : 0 < size) (hend : offset + size < 2 ^ 64)
  (hn : touchedPages root.pageSize offset size < 2 ^ 32)

/-- A part of a page is asked for once exactly when there is no second provider or the answer of the
first one is taken. -/
theorem plan_calls {r : PageRead} (hne : r.part ≠ none)
    (htried : triedProviders rand r (pageLeaf vadv r) ≠ []) :
    (∀ c ∈ pageCalls R.answers rand r (pageLeaf vadv r),
        c.Repeats r (pageLeaf vadv r).pageKey) ↔
      (triedProviders rand r (pageLeaf vadv r)).length = 1 ∨
        ∃ p ∈ (triedProviders rand r (pageLeaf vadv r)).head?,
          R.accepted r (pageLeaf vadv r).pageKey p = true := by
  obtain ⟨part, hpart⟩ := Option.ne_none_iff_exists'.mp hne
  obtain ⟨adv, rest, hcons⟩ := List.exists_cons_of_ne_nil htried
  rw [pageCalls_part hpart hcons, hcons, List.head?_cons, List.length_cons]
  constructor
  · rintro (hreply | rfl)
    · exact .inr ⟨adv, rfl, hreply⟩
    · exact .inl rfl
  · rintro (hone | ⟨p, hp, hanswer⟩)
    · exact .inr (List.length_eq_zero_iff.mp (Nat.succ.inj hone))
    · rw [← Option.mem_some.mp hp] at hanswer
      exact .inl hanswer

include hps hsize hend hn

theorem plan_part {r : PageRead} (hr : r ∈ readPlan root.pageSize offset size) :
    r.part = none ∨ r.part = some (r.first, r.len) :=
  (readPlan_fits hps hsize hend hn hr).part.imp And.left id

variable (rand) in
theorem plan_dispatch (hvadv : vadv.length = leafCount root.pageSize offset size) :
    dispatchReads rand vadv (readPlan root.pageSize offset size) =
      some (decide (∀ r ∈ readPlan root.pageSize offset size,
        triedProviders rand r (pageLeaf vadv r) ≠ [])) := by
  rw [dispatchReads_eq fun r hr => ?_]
  · rw [Option.some.injEq, Bool.eq_iff_iff, List.all_eq_true, decide_eq_true_eq]
    refine forall₂_congr fun r _ => ?_
    rw [decide_eq_true_eq, Bool.eq_false_iff, ne_eq, List.isEmpty_iff]
  · rw [hvadv, leafCount_eq hps hsize hend]
    exact (readPlan_fits hps hsize hend hn hr).leaf

/-- What a request that is answered puts into the buffer. -/
theorem plan_byte {r : PageRead} (hr : r ∈ readPlan root.pageSize offset size) {b : Nat}
    (hb : r.writes b = true) :
    ((R.bytes r (pageLeaf vadv r).pageKey).take r.bufferSize).getD (b - r.dest) 0 =
      rightByte R root offset vadv b := by
  have hasks := PageRead.asks_of_writes hb
  obtain ⟨hpage, hplace⟩ := (readPlan_fits hps hsize hend hn hr).source hasks
  obtain ⟨hge, hlt⟩ := holdsAt_iff.mp hb
  have hlen := (holdsAt_iff.mp hasks).2
  have hleaf : (offset + b) / root.pageSize - offset / root.pageSize = r.leaf := by omega
  rw [rightByte, hleaf, ← hplace, pageLeaf, Replicas.bytes, List.getD_eq_getElem?_getD,
    List.getElem?_take_of_lt (by omega), List.getElem?_take_of_lt (by omega), List.getElem?_drop,
    ← List.getD_eq_getElem?_getD]

theorem plan_fetch {r : PageRead} (hr : r ∈ readPlan root.pageSize offset size)
    (htried : triedProviders rand r (pageLeaf vadv r) ≠ []) :
    fetch R.answers rand r (pageLeaf vadv r) =
      if (askedProviders rand r (pageLeaf vadv r)).any
          (R.accepted r (pageLeaf vadv r).pageKey) then
        some ((R.bytes r (pageLeaf vadv r).pageKey).take r.bufferSize)
      else none :=
  fetch_replicas (plan_part hps hsize hend hn hr) htried

/-- The buffer after all requests are answered. -/
theorem plan_runs (hall : ∀ r ∈ readPlan root.pageSize offset size, PageAnswered R rand vadv r)
    (buffer : Nat → UInt8) (b : Nat) :
    (runReads R.answers rand vadv (readPlan root.pageSize offset size) true buffer).2 b =
      if (readPlan root.pageSize offset size).any (PageRead.writes b) then
        rightByte R root offset vadv b
      else buffer b := by
  split
  · next hany =>
    obtain ⟨r, hr, hwrites⟩ := List.any_eq_true.mp hany
    have hanswered := hall r hr
    rw [PageAnswered] at hanswered
    obtain ⟨p, hp, -⟩ := List.any_eq_true.mp hanswered
    have htried : triedProviders rand r (pageLeaf vadv r) ≠ [] :=
      List.ne_nil_of_mem (mem_tried_of_mem_asked hp)
    have hfetch := plan_fetch (R := R) hps hsize hend hn hr htried
    rw [if_pos hanswered] at hfetch
    rw [runReads_byte hfetch (fetch_length htried hfetch)
      (readPlan_writes hps hsize hend hn hr hwrites)]
    exact plan_byte hps hsize hend hn hr hwrites
  · next hany =>
    refine runReads_frame fun r hr => Bool.eq_false_iff.mpr fun hwrites => ?_
    exact hany (List.any_eq_true.mpr ⟨r, hr, hwrites⟩)

/-- When the range has less than `2 ^ 32` bytes of each page, the answers that are taken are those
that have the bytes asked for. -/
theorem answered_iff (hshort : ShortParts root.pageSize offset size) {r : PageRead}
    (hr : r ∈ readPlan root.pageSize offset size) :
    PageAnswered R rand vadv r ↔
      (askedProviders rand r (pageLeaf vadv r)).any
        (R.wouldAnswer r (pageLeaf vadv r).pageKey) = true := by
  have hlen := (shortParts_iff hps hsize hend hn).mp hshort r hr
  have heq : R.accepted r (pageLeaf vadv r).pageKey = R.wouldAnswer r (pageLeaf vadv r).pageKey :=
    funext (accepted_eq (readPlan_fits hps hsize hend hn hr).pos hlen _)
  rw [PageAnswered, heq]

/-- A provider that is asked answers, when no second try is needed. -/
theorem NoSecondTry.answered (h : NoSecondTry R rand root offset size vadv)
    (hshort : ShortParts root.pageSize offset size)
    (havail : ∀ r ∈ readPlan root.pageSize offset size, Available R vadv r) {r : PageRead}
    (hr : r ∈ readPlan root.pageSize offset size) : PageAnswered R rand vadv r := by
  have hreached := h.reached havail
  have hsent : ∀ r ∈ readPlan root.pageSize offset size,
      triedProviders rand r (pageLeaf vadv r) ≠ [] := fun r hr =>
    List.ne_nil_of_mem (hreached r hr).choose_spec.1
  obtain ⟨p, hp, hanswer⟩ := hreached r hr
  have haccepted : R.accepted r (pageLeaf vadv r).pageKey p = true := by
    rw [accepted_eq (readPlan_fits hps hsize hend hn hr).pos
      ((shortParts_iff hps hsize hend hn).mp hshort r hr)]
    exact hanswer
  rw [PageAnswered, List.any_eq_true, askedProviders]
  cases hpart : r.part with
  | none => exact ⟨p, hp, haccepted⟩
  | some part =>
    have hne : r.part ≠ none := by
      rw [hpart]
      exact Option.some_ne_none part
    rcases h.first hsent r hr hne with hone | ⟨adv, hadv, hfirst⟩
    · refine ⟨p, ?_, haccepted⟩
      dsimp only
      rw [List.take_of_length_le (Nat.le_of_eq hone)]
      exact hp
    · obtain ⟨rest, hcons⟩ := List.head?_eq_some_iff.mp hadv
      rw [hcons]
      exact ⟨adv, List.mem_cons_self, hfirst⟩

variable (hversion : version ≤ root.node.version) (hguard : offset + size ≤ root.node.size)
  (hvadv : vadv.length = leafCount root.pageSize offset size)
  (hlocate : locate (leafCount root.pageSize offset size)
    ⟨root.node.id, root.node.version, newOffset root.pageSize offset,
      u64 (leafCount root.pageSize offset size * root.pageSize)⟩ root = some (true, vadv))

include hversion hguard hvadv hlocate

/-- A read that gets past its checks. -/
theorem readRoot_eq {answers : Answers} {buffer : Nat → UInt8} :
    readRoot answers rand locate root version offset size buffer =
      if ∀ r ∈ readPlan root.pageSize offset size, triedProviders rand r (pageLeaf vadv r) ≠ [] then
        some (.returned
          (runReads answers rand vadv (readPlan root.pageSize offset size) true buffer).1
          (runReads answers rand vadv (readPlan root.pageSize offset size) true buffer).2)
      else some (.returned false buffer) := by
  unfold readRoot
  dsimp only
  rw [if_neg (Nat.not_lt.mpr hversion), if_neg hps.ne', u64_of_lt hend,
    if_neg (Nat.not_lt.mpr hguard), hlocate]
  dsimp only
  rw [plan_dispatch rand hps hsize hend hn hvadv]
  by_cases hsent : ∀ r ∈ readPlan root.pageSize offset size,
      triedProviders rand r (pageLeaf vadv r) ≠ []
  · rw [decide_eq_true hsent, if_pos hsent]
  · rw [decide_eq_false hsent, if_neg hsent]

/-- A read returns `true` when the client takes an answer for each page; the bytes that no request
writes must be right before. -/
theorem readsRight_iff_written {buffer : Nat → UInt8} :
    ReadsRight R rand locate root version offset size vadv buffer ↔
      (∀ r ∈ readPlan root.pageSize offset size, PageAnswered R rand vadv r) ∧
      ∀ b < size, (readPlan root.pageSize offset size).any (PageRead.writes b) = true ∨
        buffer b = rightByte R root offset vadv b := by
  rw [ReadsRight, readRoot_eq hps hsize hend hn hversion hguard hvadv hlocate]
  by_cases hsent : ∀ r ∈ readPlan root.pageSize offset size,
      triedProviders rand r (pageLeaf vadv r) ≠ []
  · have hresult : (runReads R.answers rand vadv (readPlan root.pageSize offset size) true
        buffer).1 = true ↔ ∀ r ∈ readPlan root.pageSize offset size, PageAnswered R rand vadv r := by
      rw [runReads_result, Bool.true_and, List.all_eq_true]
      refine forall₂_congr fun r hr => ?_
      rw [plan_fetch hps hsize hend hn hr (hsent r hr), PageAnswered]
      cases (askedProviders rand r (pageLeaf vadv r)).any _ with
      | true => rfl
      | false => rfl
    rw [if_pos hsent]
    constructor
    · rintro ⟨buffer', h, hbytes⟩
      injection h with h
      injection h with h hbuffer
      have hall := hresult.mp h
      refine ⟨hall, fun b hb => or_iff_not_imp_left.mpr fun hany => ?_⟩
      have hbyte := plan_runs (R := R) hps hsize hend hn hall buffer b
      rw [if_neg hany, hbuffer] at hbyte
      exact hbyte.symm.trans (hbytes b hb)
    · rintro ⟨hall, hbytes⟩
      refine ⟨_, by rw [hresult.mpr hall], fun b hb => ?_⟩
      rw [plan_runs hps hsize hend hn hall]
      split
      · rfl
      · next hany => exact (hbytes b hb).resolve_left hany
  · rw [if_neg hsent]
    refine iff_of_false ?_ fun h => hsent fun r hr hnil => ?_
    · rintro ⟨buffer', h, -⟩
      injection h with h
      injection h with h _
      cases h
    · obtain ⟨p, hp, -⟩ := List.any_eq_true.mp (h.1 r hr)
      rw [askedProviders, hnil] at hp
      split at hp <;> cases hp

/-- A read of less than `2 ^ 32` bytes of each page returns `true` when each page has a provider that
answers among those that are asked for it; then the bytes are right. -/
theorem readsRight_iff (hshort : ShortParts root.pageSize offset size) {buffer : Nat → UInt8} :
    ReadsRight R rand locate root version offset size vadv buffer ↔
      ∀ r ∈ readPlan root.pageSize offset size, PageAnswered R rand vadv r := by
  rw [readsRight_iff_written hps hsize hend hn hversion hguard hvadv hlocate]
  refine and_iff_left fun b hb => .inl ?_
  obtain ⟨r, hr, hasks, -⟩ := readPlan_asks hps hsize hend hn hb
  exact List.any_eq_true.mpr ⟨r, hr, PageRead.writes_of_asks
    ((shortParts_iff hps hsize hend hn).mp hshort r hr) hasks⟩

/-- A read of `2 ^ 32` bytes of a page can leave a wrong byte in the buffer. -/
theorem exists_not_readsRight (hlong : ¬ ShortParts root.pageSize offset size) :
    ∃ buffer, ¬ ReadsRight R rand locate root version offset size vadv buffer := by
  rw [shortParts_iff hps hsize hend hn] at hlong
  push Not at hlong
  obtain ⟨r, hr, hlong⟩ := hlong
  obtain ⟨b, hb, hnone⟩ := readPlan_unwritten hps hsize hend hn hr hlong
  refine ⟨fun b => rightByte R root offset vadv b + 1, fun h => ?_⟩
  rw [readsRight_iff_written hps hsize hend hn hversion hguard hvadv hlocate] at h
  rcases h.2 b hb with hany | hbyte
  · obtain ⟨r', hr', hwrites⟩ := List.any_eq_true.mp hany
    rw [hnone r' hr'] at hwrites
    cases hwrites
  · exact absurd hbyte (by simp)

/-- **Replica failover.** For a read that gets past its checks: it returns `true` with the right bytes
exactly when each touched page has a provider that would answer, and all requests for a page are the
same, if and only if no second provider is needed for a part of a page, and the buffers are large
enough or the read fails as it should. -/
theorem fails_over_iff : FailsOver R rand locate root version offset size vadv ↔
    NoSecondTry R rand root offset size vadv := by
  have hdispatch : dispatchReads rand vadv (readPlan root.pageSize offset size) = some true ↔
      ∀ r ∈ readPlan root.pageSize offset size,
        triedProviders rand r (pageLeaf vadv r) ≠ [] := by
    rw [plan_dispatch rand hps hsize hend hn hvadv, Option.some.injEq, decide_eq_true_eq]
  constructor
  · intro h
    -- with a long part, neither the providers nor the client may have an answer for every page
    have hnot : ¬ ShortParts root.pageSize offset size →
        ¬ ∀ r ∈ readPlan root.pageSize offset size, Available R vadv r := by
      intro hlong havail
      obtain ⟨buffer, hwrong⟩ :
          ∃ buffer, ¬ ReadsRight R rand locate root version offset size vadv buffer :=
        exists_not_readsRight hps hsize hend hn hversion hguard hvadv hlocate hlong
      exact hwrong ((h.served buffer).mpr havail)
    refine ⟨or_iff_not_imp_left.mpr fun hlong => ⟨?_, ?_⟩, fun havail r hr => ?_,
      fun hsent r hr hne => ?_⟩
    · have hsome := hnot hlong
      push Not at hsome
      exact hsome
    · by_contra hall
      push Not at hall
      refine hnot hlong ((h.served (rightByte R root offset vadv)).mp ?_)
      rw [readsRight_iff_written hps hsize hend hn hversion hguard hvadv hlocate]
      exact ⟨hall, fun _ _ => .inr rfl⟩
    · have hshort : ShortParts root.pageSize offset size := by
        by_contra hlong
        exact hnot hlong havail
      have hright := (h.served fun _ => 0).mpr havail
      rw [readsRight_iff hps hsize hend hn hversion hguard hvadv hlocate hshort] at hright
      have hasked := (answered_iff hps hsize hend hn hshort hr).mp (hright r hr)
      obtain ⟨p, hp, hanswer⟩ := List.any_eq_true.mp hasked
      exact ⟨p, mem_tried_of_mem_asked hp, hanswer⟩
    · exact (plan_calls hne (hsent r hr)).mp
        (h.retries (hdispatch.mpr hsent) r hr)
  · intro h
    refine ⟨fun buffer => ?_, fun hsent r hr => ?_⟩
    · rcases h.short with hshort | ⟨⟨r, hr, havail⟩, r', hr', hanswered⟩
      · rw [readsRight_iff hps hsize hend hn hversion hguard hvadv hlocate hshort]
        refine ⟨fun hall r hr => ?_, fun havail r hr =>
          h.answered hps hsize hend hn hshort havail hr⟩
        have hasked := (answered_iff hps hsize hend hn hshort hr).mp (hall r hr)
        obtain ⟨p, hp, hanswer⟩ := List.any_eq_true.mp hasked
        exact ⟨p, mem_of_mem_triedProviders (mem_tried_of_mem_asked hp), hanswer⟩
      · rw [readsRight_iff_written hps hsize hend hn hversion hguard hvadv hlocate]
        exact iff_of_false (fun hall => hanswered (hall.1 r' hr')) fun hall => havail (hall r hr)
    · have hsent := hdispatch.mp hsent
      by_cases hpart : r.part = none
      · exact pageCalls_whole hpart
      · exact (plan_calls hpart (hsent r hr)).mpr (h.first hsent r hr hpart)

end iff

/-! ### A part of a page on two providers -/

/-- Two providers that hold every page of four bytes; calls of the first one fail. -/
def twoReplicas : Replicas where
  holds _ _ := true
  content _ := [10, 11, 12, 13]
  fails p _ _ := decide (p.host = "a")

/-- One page, on both providers. -/
def twoProviders : List RandomSelect := [⟨⟨1, 1, 0, 4⟩, [⟨"a", "1"⟩, ⟨"b", "1"⟩]⟩]

def onePageRoot : Root := Root.make 1 1 4 4 2

/-- A whole page is read from the second provider when the first one fails. -/
theorem fails_over_whole : FailsOver twoReplicas (fun _ _ => 0)
    (fun _ _ _ => some (true, twoProviders)) onePageRoot 1 0 4 twoProviders := by
  refine (fails_over_iff (by decide) (by decide) (by decide) (by decide) (by decide) (by decide)
    (by decide) rfl).mpr ⟨.inl (by decide), fun _ => by decide, fun _ => by decide⟩

/-- The second provider would answer for the part of the page, but it is asked with one parameter. -/
theorem part_not_failed_over : ¬ FailsOver twoReplicas (fun _ _ => 0)
    (fun _ _ _ => some (true, twoProviders)) onePageRoot 1 1 2 twoProviders := by
  intro h
  have hcalls := h.retries (by decide) ⟨0, some (1, 2), 0, 2⟩ (by decide) ⟨⟨"b", "1"⟩, true, [.num 2]⟩
    (by decide)
  exact absurd hcalls.2 (by decide)

end BlobSeer
