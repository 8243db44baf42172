import BlobSeer.Client.Read
import BlobSeer.Rpc.ExactlyOnce

/-!
# What a read leaves in flight (`object_handler::read`)

The requests of a read are given to `direct_rpc` one after another, and wait there until `run`. A page
that has no provider makes `read` return at once, without `run`: the requests dispatched before stay
queued or pending, with references to the locals of this call in their callbacks.

The state of `direct_rpc` that `read` starts with is arbitrary: earlier reads may have left requests
there. What a callback dispatches, `rpc_provider_callback` for the next provider, is arbitrary too.
-/

namespace BlobSeer

open Lib (Run exec)

/-- `dispatch` of a request to the provider `adv`. -/
def PageRead.call (r : PageRead) (key : Query) (adv : ProviderDesc) : RpcCall :=
  { host := (adv.host, adv.service), params := (r.params key).length, result := [r.len] }

/-- The provider that the request `r` goes to first; `none` when its leaf does not exist. -/
def PageRead.provider (rand : Nat → Nat → Nat) (vadv : List RandomSelect) (r : PageRead) :
    Option ProviderDesc :=
  vadv[r.leaf]?.map fun leaf => (leaf.tryNext (rand r.leaf leaf.providers.length)).1

section sends

variable (rand : Nat → Nat → Nat)

/-- The requests of a read as they are dispatched; the result is that of `dispatchReads`. -/
def sendReads (vadv : List RandomSelect) : List PageRead → RpcClient → Option Bool × RpcClient
  | [], s => (some true, s)
  | r :: plan, s =>
    match vadv[r.leaf]? with
    | none => (none, s)
    | some leaf =>
      let adv := (leaf.tryNext (rand r.leaf leaf.providers.length)).1
      if adv.empty then (some false, s)
      else sendReads vadv plan (s.dispatch (r.call leaf.pageKey adv))

/-- What becomes of `direct_rpc` in a read: it returns, or it goes on to `run`. -/
inductive ReadSends where
  | threw
  | undefined
  | returned (s : RpcClient)
  | runs (s : RpcClient)

/-- `object_handler::read` up to `run`, once `query_root` is there. -/
def readSends (locate : Nat → Query → Root → Option (Bool × List RandomSelect)) (queryRoot : Root)
    (version offset size : Nat) (s : RpcClient) : Option ReadSends :=
  let psize := queryRoot.pageSize
  if queryRoot.node.version < version then some .threw
  else if psize = 0 then some .threw
  else if u64 (offset + size) > queryRoot.node.size then some .threw
  else
    match locate (leafCount psize offset size) (readRange queryRoot offset size) queryRoot with
    | none => none
    | some (false, _) => some (.returned s)
    | some (true, vadv) =>
      match sendReads rand vadv (readPlan psize offset size) s with
      | (none, _) => some .undefined
      | (some false, s) => some (.returned s)
      | (some true, s) => some (.runs s)

/-- Events of the io service while `run` is at work. -/
def RpcEvent.Drives : RpcEvent → Prop
  | .complete .. => True
  | .watchdog _ => True
  | .dispatch _ => False
  | .run => False

instance : ∀ e : RpcEvent, Decidable e.Drives
  | .complete .. => .isTrue trivial
  | .watchdog _ => .isTrue trivial
  | .dispatch _ => .isFalse id
  | .run => .isFalse id

/-- A read that starts with `direct_rpc` in state `s` returns with it in the last state. -/
inductive ReadReturns (locate : Nat → Query → Root → Option (Bool × List RandomSelect))
    (queryRoot : Root) (version offset size : Nat) (s : RpcClient) : RpcClient → Prop
  | early {t : RpcClient}
      (h : readSends rand locate queryRoot version offset size s = some (.returned t)) :
      ReadReturns locate queryRoot version offset size s t
  | ran {t u v : RpcClient} {es : List RpcEvent}
      (h : readSends rand locate queryRoot version offset size s = some (.runs t))
      (hrun : Run RpcClient.step (fun _ e => e.Drives) t es u) (hend : u.step .run = some v) :
      ReadReturns locate queryRoot version offset size s v

end sends

/-- None of the requests dispatched between the two states is queued, pending or on a connection. -/
def LeavesNothing (s t : RpcClient) : Prop :=
  ∀ id, s.requests.length ≤ id → id < t.requests.length →
    id ∉ t.requestMap ∧ id ∉ t.pendingMap ∧ id ∉ t.serving

/-- Every page of the plan has a provider, or the first one that is asked for has none. -/
def NoneOrAll (rand : Nat → Nat → Nat) (vadv : List RandomSelect) (plan : List PageRead) : Prop :=
  (∀ r ∈ plan, ∀ adv ∈ r.provider rand vadv, adv.empty = false) ∨
    ∀ r ∈ plan.head?, ∀ adv ∈ r.provider rand vadv, adv.empty = true

section returns

variable {rand : Nat → Nat → Nat} {vadv : List RandomSelect}

theorem sendReads_fst (plan : List PageRead) (s : RpcClient) :
    (sendReads rand vadv plan s).1 = dispatchReads rand vadv plan := by
  induction plan generalizing s with
  | nil => rfl
  | cons r plan ih =>
    rw [sendReads, dispatchReads]
    cases vadv[r.leaf]? with
    | none => rfl
    | some leaf =>
      dsimp only
      split
      · rfl
      · exact ih _

/-- What is dispatched waits until `run`. -/
theorem sendReads_extends (plan : List PageRead) (s : RpcClient) :
    RpcClient.Extends s (sendReads rand vadv plan s).2 := by
  induction plan generalizing s with
  | nil => exact .refl s
  | cons r plan ih =>
    rw [sendReads]
    cases vadv[r.leaf]? with
    | none => exact .refl s
    | some leaf =>
      dsimp only
      split
      · exact .refl s
      · exact (RpcClient.Extends.dispatch s _).trans (ih _)

theorem dispatch_waits (s : RpcClient) (c : RpcCall) :
    s.requests.length < (s.dispatch c).requests.length ∧
      (s.requests.length ∈ (s.dispatch c).requestMap ∨
        s.requests.length ∈ (s.dispatch c).pendingMap) := by
  have hloop := RpcClient.Extends.startLoop RpcClient.waitLimit (s.enqueue c)
  have hlen : (s.enqueue c).requests.length = s.requests.length + 1 := List.length_append
  have hmem : s.requests.length ∈ (s.enqueue c).requestMap :=
    List.mem_append_right _ (List.mem_singleton_self _)
  exact ⟨Nat.lt_of_lt_of_le (hlen ▸ Nat.lt_succ_self _) hloop.requests.length_le,
    hloop.waits _ (.inl hmem)⟩

theorem provider_of_leaf {r : PageRead} {leaf : RandomSelect} (h : vadv[r.leaf]? = some leaf) :
    r.provider rand vadv = some (leaf.tryNext (rand r.leaf leaf.providers.length)).1 := by
  rw [PageRead.provider, h]
  rfl

/-- All requests were dispatched, or one of them has no provider. -/
theorem sendReads_providers {plan : List PageRead} {s t : RpcClient} {ok : Bool}
    (h : sendReads rand vadv plan s = (some ok, t)) :
    ok = true ↔ ∀ r ∈ plan, ∀ adv ∈ r.provider rand vadv, adv.empty = false := by
  induction plan generalizing s with
  | nil =>
    cases h
    exact iff_of_true rfl fun r hr => absurd hr List.not_mem_nil
  | cons r plan ih =>
    rw [sendReads] at h
    cases hleaf : vadv[r.leaf]? with
    | none =>
      rw [hleaf] at h
      cases h
    | some leaf =>
      rw [hleaf] at h
      dsimp only at h
      rw [List.forall_mem_cons, provider_of_leaf hleaf]
      split at h
      · next hempty =>
        cases h
        refine iff_of_false Bool.false_ne_true fun hall => ?_
        rw [hall.1 _ rfl] at hempty
        cases hempty
      · next hempty =>
        rw [ih h]
        refine (and_iff_right ?_).symm
        rintro adv ⟨⟩
        exact Bool.eq_false_iff.mpr hempty

/-- A read that returns before `run` leaves the first request there, if it was dispatched. -/
theorem sendReads_leaves {plan : List PageRead} {s t : RpcClient}
    (h : sendReads rand vadv plan s = (some false, t)) :
    LeavesNothing s t ↔ ∀ r ∈ plan.head?, ∀ adv ∈ r.provider rand vadv, adv.empty = true := by
  cases plan with
  | nil => cases h
  | cons r plan =>
    rw [sendReads] at h
    cases hleaf : vadv[r.leaf]? with
    | none =>
      rw [hleaf] at h
      cases h
    | some leaf =>
      rw [hleaf] at h
      dsimp only at h
      split at h
      · next hempty =>
        cases h
        refine iff_of_true (fun id hlo hhi => absurd hlo (Nat.not_le.mpr hhi)) ?_
        rintro _ ⟨⟩ adv hadv
        rw [provider_of_leaf hleaf] at hadv
        cases hadv
        exact hempty
      · next hempty =>
        have hext : RpcClient.Extends _ t :=
          (congrArg Prod.snd h) ▸ sendReads_extends plan (s.dispatch (r.call leaf.pageKey _))
        obtain ⟨hlt, hwaits⟩ := dispatch_waits s (r.call leaf.pageKey
          (leaf.tryNext (rand r.leaf leaf.providers.length)).1)
        refine iff_of_false (fun hnothing => ?_) fun hall => hempty ?_
        · obtain ⟨hqueued, hpending, -⟩ := hnothing s.requests.length (Nat.le_refl _)
            (hlt.trans_le hext.requests.length_le)
          exact (hext.waits _ hwaits).elim hqueued hpending
        · exact hall r rfl _ (provider_of_leaf hleaf)

/-- After `run` nothing is left. -/
theorem run_leaves_nothing {s u v : RpcClient} (hend : u.step .run = some v) : LeavesNothing s v := by
  unfold RpcClient.step at hend
  split at hend
  · cases hend
  · dsimp only at hend
    split at hend
    · next hempty =>
      cases hend
      refine fun id _ _ => ⟨List.not_mem_nil, List.not_mem_nil, ?_⟩
      show id ∉ u.outstanding.filterMap RpcOp.served
      rw [hempty]
      exact List.not_mem_nil
    · cases hend

end returns

section read

variable {rand : Nat → Nat → Nat}
  {locate : Nat → Query → Root → Option (Bool × List RandomSelect)} {queryRoot : Root}
  {version offset size : Nat} {s t : RpcClient}

theorem readSends_returned
    (h : readSends rand locate queryRoot version offset size s = some (.returned t)) :
    (∃ vadv, locate (leafCount queryRoot.pageSize offset size) (readRange queryRoot offset size)
        queryRoot = some (false, vadv) ∧ t = s) ∨
      ∃ vadv, locate (leafCount queryRoot.pageSize offset size) (readRange queryRoot offset size)
          queryRoot = some (true, vadv) ∧
        sendReads rand vadv (readPlan queryRoot.pageSize offset size) s = (some false, t) := by
  unfold readSends at h
  dsimp only at h
  split at h
  · cases h
  split at h
  · cases h
  split at h
  · cases h
  split at h
  · cases h
  · next vadv hlocate =>
    cases h
    exact .inl ⟨vadv, hlocate, rfl⟩
  · next vadv hlocate =>
    refine .inr ⟨vadv, hlocate, ?_⟩
    split at h
    · cases h
    · next hsends =>
      cases h
      exact hsends
    · cases h

theorem readSends_runs
    (h : readSends rand locate queryRoot version offset size s = some (.runs t)) :
    ∃ vadv, locate (leafCount queryRoot.pageSize offset size) (readRange queryRoot offset size)
        queryRoot = some (true, vadv) ∧
      sendReads rand vadv (readPlan queryRoot.pageSize offset size) s = (some true, t) := by
  unfold readSends at h
  dsimp only at h
  split at h
  · cases h
  split at h
  · cases h
  split at h
  · cases h
  split at h
  · cases h
  · cases h
  · next vadv hlocate =>
    refine ⟨vadv, hlocate, ?_⟩
    split at h
    · cases h
    · cases h
    · next hsends =>
      cases h
      exact hsends

/-- It is `read` that returns at once when `readSends` does, and with `false`. -/
theorem readRoot_of_returned (answers : Answers) (buffer : Nat → UInt8)
    (h : readSends rand locate queryRoot version offset size s = some (.returned t)) :
    readRoot answers rand locate queryRoot version offset size buffer =
      some (.returned false buffer) := by
  have hcases := readSends_returned h
  unfold readSends at h
  unfold readRoot
  dsimp only at h ⊢
  split at h
  · cases h
  split at h
  · cases h
  split at h
  · cases h
  next hversion hpsize hsize =>
  rw [if_neg hversion, if_neg hpsize, if_neg hsize]
  rcases hcases with ⟨vadv, hlocate, -⟩ | ⟨vadv, hlocate, hsends⟩
  · rw [readRange] at hlocate
    rw [hlocate]
  · rw [readRange] at hlocate
    rw [hlocate]
    dsimp only
    rw [← sendReads_fst _ s, hsends]

end read

/-- When a read returns, nothing that it dispatched is left in `direct_rpc` exactly when every page has a
provider, or the first one that is asked for has none. -/
theorem read_leaves_nothing_iff {rand : Nat → Nat → Nat}
    {locate : Nat → Query → Root → Option (Bool × List RandomSelect)} {queryRoot : Root}
    {version offset size : Nat} {s t : RpcClient}
    (h : ReadReturns rand locate queryRoot version offset size s t) :
    LeavesNothing s t ↔
      ∀ vadv, locate (leafCount queryRoot.pageSize offset size) (readRange queryRoot offset size)
          queryRoot = some (true, vadv) →
        NoneOrAll rand vadv (readPlan queryRoot.pageSize offset size) := by
  cases h with
  | early h =>
    rcases readSends_returned h with ⟨vadv, hlocate, rfl⟩ | ⟨vadv, hlocate, hsends⟩
    · refine iff_of_true (fun id hlo hhi => absurd hlo (Nat.not_le.mpr hhi)) fun vadv' hlocate' => ?_
      rw [hlocate] at hlocate'
      cases hlocate'
    · have hsome := (not_congr (sendReads_providers hsends)).mp Bool.false_ne_true
      rw [sendReads_leaves hsends, hlocate]
      constructor
      · rintro hfirst _ ⟨⟩
        exact .inr hfirst
      · intro hall
        exact (hall vadv rfl).resolve_left hsome
  | ran h hrun hend =>
    obtain ⟨vadv, hlocate, hsends⟩ := readSends_runs h
    refine iff_of_true (run_leaves_nothing hend) fun vadv' hlocate' => ?_
    rw [hlocate] at hlocate'
    cases hlocate'
    exact .inl ((sendReads_providers hsends).mp rfl)

/-- A blob of four pages of four bytes, of which the first one and then the last one were written. -/
def holeRoot : Root := ⟨⟨1, 2, 0, 16⟩, 1, 16, 4⟩

def holeLeaves : List RandomSelect :=
  [{ pageKey := ⟨1, 7, 0, 4⟩, providers := [⟨"a", "1"⟩] }, {}, {},
    { pageKey := ⟨1, 9, 0, 4⟩, providers := [⟨"b", "1"⟩] }]

/-- The leaves of the first pages. -/
def holeLocate : Nat → Query → Root → Option (Bool × List RandomSelect) :=
  fun count _ _ => some (true, holeLeaves.take count)

/-- A read of the whole blob returns `false`, and the request for the first page stays in
`pending_map`. -/
theorem hole_leaves_request :
    ∃ t, ReadReturns (fun _ _ => 0) holeLocate holeRoot 0 0 16 {} t ∧
      (∀ answers buffer, readRoot answers (fun _ _ => 0) holeLocate holeRoot 0 0 16 buffer =
        some (.returned false buffer)) ∧ ¬ LeavesNothing {} t := by
  have hsends : readSends (fun _ _ => 0) holeLocate holeRoot 0 0 16 {} = some (.returned _) := rfl
  refine ⟨_, .early hsends, fun answers buffer => readRoot_of_returned answers buffer hsends,
    fun h => ?_⟩
  exact absurd (h 0 (Nat.le_refl 0) (by decide +kernel)).2.1 (by decide +kernel)

/-- The request for the first page alone is answered: its connection, the request and the answer. -/
def firstPageAnswered : List RpcEvent :=
  [.complete 0 {} [], .complete 0 {} [], .complete 0 {} [], .complete 0 {} [], .complete 0 {} [],
    .complete 0 { psize := 1 } [], .complete 0 { psize := 4 } [], .complete 0 {} []]

def firstPageSent : RpcClient :=
  ({} : RpcClient).dispatch { host := ("a", "1"), params := 1, result := [4] }

theorem read_leaves_nothing_first_page :
    ∃ t, ReadReturns (fun _ _ => 0) holeLocate holeRoot 0 0 4 {} t ∧
      t.requests.length = 1 ∧ t.called = [(0, 0)] ∧ LeavesNothing {} t := by
  have hsends : readSends (fun _ _ => 0) holeLocate holeRoot 0 0 4 {} =
      some (.runs firstPageSent) := rfl
  have hrun : ((exec RpcClient.step (fun _ e => e.Drives) firstPageSent firstPageAnswered).bind
      (·.step .run)).map (fun t => (t.requests.length, t.called)) = some (1, [(0, 0)]) := by
    decide +kernel
  obtain ⟨t, hbind, hfields⟩ := Option.map_eq_some_iff.mp hrun
  obtain ⟨u, hexec, hend⟩ := Option.bind_eq_some_iff.mp hbind
  have hreturns := ReadReturns.ran hsends (Run.of_exec hexec) hend
  refine ⟨t, hreturns, congrArg Prod.fst hfields, congrArg Prod.snd hfields, ?_⟩
  refine (read_leaves_nothing_iff hreturns).mpr fun vadv hvadv => .inl ?_
  cases hvadv
  decide +kernel

end BlobSeer
