import BlobSeer.Client.Handler
import Mathlib.Data.List.Nodup
import Mathlib.Data.List.Perm.Basic

/-!
# The pages of a write (`object_handler::exec_write`, up to its ticket)

`exec_write` asks the publisher for providers, sends every page to `replica_count` of them, and
asks for a ticket once it has found an acknowledged replica for every page. The replies arrive in
any order; `rpc_write_callback` notes the reply and sends a failed page again, up to `retry_count`
times.

The bit of replica `k` in `page_results` is only ever set by a provider that has acknowledged the
page `k / replica_count` (`Upload.Inv`). The check loop of `exec_write` walks over the bits with
counters of its own; when it lets the write pass, every page has such a bit
(`Upload.Inv.stored`).
-/

namespace BlobSeer

/-- A call of `exec_write`: its arguments, the members of the handler that it reads, the random
version of its page keys, and the providers that the publisher has returned. -/
structure WriteCall where
  id : Nat
  latestRoot : Root
  rnd : Nat
  offset : Nat
  size : Nat
  buffer : Nat → UInt8
  append : Bool
  adv : List ProviderDesc

namespace WriteCall

def pageSize (c : WriteCall) : Nat := c.latestRoot.pageSize

def replicaCount (c : WriteCall) : Nat := c.latestRoot.replicaCount

/-- `range`, before the ticket. -/
def range (c : WriteCall) : Query := ⟨c.id, c.rnd, c.offset, c.size⟩

/-- The rounds of the page loop, `i * page_size < size`. -/
def pages (c : WriteCall) : Nat := (c.size + c.pageSize - 1) / c.pageSize

def pageKey (c : WriteCall) (i : Nat) : Query := ⟨c.id, c.rnd, i, c.pageSize⟩

/-- Page `i` of the buffer: `page_size` bytes from `buffer + i * page_size` on. -/
def page (c : WriteCall) (i : Nat) : List UInt8 :=
  (List.range c.pageSize).map fun b => c.buffer (i * c.pageSize + b)

/-- The buffer that is sent for page `i`. The size of a `buffer_wrapper` is an `unsigned int`. -/
def pageBytes (c : WriteCall) (i : Nat) : List UInt8 :=
  (List.range (u32 c.pageSize)).map fun b => c.buffer (i * c.pageSize + b)

theorem page_length (c : WriteCall) (i : Nat) : (c.page i).length = c.pageSize := by
  rw [page, List.length_map, List.length_range]

theorem pageBytes_length (c : WriteCall) (i : Nat) : (c.pageBytes i).length = u32 c.pageSize := by
  rw [pageBytes, List.length_map, List.length_range]

theorem pageBytes_eq_page {c : WriteCall} (h : c.pageSize < 2 ^ 32) (i : Nat) :
    c.pageBytes i = c.page i := by
  rw [pageBytes, page, u32_of_lt h]

/-- A page of `2 ^ 32` bytes or more is cut short. -/
theorem pageBytes_eq_page_iff {c : WriteCall} {i : Nat} :
    c.pageBytes i = c.page i ↔ c.pageSize < 2 ^ 32 := by
  refine ⟨fun h => ?_, fun h => pageBytes_eq_page h i⟩
  have hlen := congrArg List.length h
  rw [pageBytes_length, page_length] at hlen
  rw [← hlen]
  exact Nat.mod_lt _ (by decide)

end WriteCall

/-- A `PROVIDER_WRITE` with what is bound to its callback. -/
structure ProviderWrite where
  adv : ProviderDesc
  key : Query
  value : List UInt8
  k : Nat
  retries : Nat := 0
deriving DecidableEq, Repr

namespace WriteCall

/-- The requests for the replicas `k`, `k + 1`, … of page `i`; `none` when `adv` has no such
entry. -/
def replicaLoop (c : WriteCall) (i : Nat) : Nat → Nat → Option (List ProviderWrite)
  | 0, _ => some []
  | n + 1, k =>
    match c.adv[k]?, c.replicaLoop i n (k + 1) with
    | some adv, some reqs =>
      some ({ adv := adv, key := c.pageKey i, value := c.pageBytes i, k := k } :: reqs)
    | _, _ => none

/-- The replicas of page `i`. The counter has 32 bits and its bound `j + replica_count` has 64: the
loop does not end when the bound is `2 ^ 32` or more. -/
def writePage (c : WriteCall) (i : Nat) : Option (List ProviderWrite) :=
  let j := i * c.replicaCount
  if j + c.replicaCount < 2 ^ 32 then c.replicaLoop i c.replicaCount j else none

/-- The page loop, for `n` pages from page `i` on. -/
def pageLoop (c : WriteCall) : Nat → Nat → Option (List ProviderWrite)
  | 0, _ => some []
  | n + 1, i =>
    match c.writePage i, c.pageLoop n (i + 1) with
    | some reqs, some reqs' => some (reqs ++ reqs')
    | _, _ => none

end WriteCall

/-- An `exec_write` that has sent its pages. `sent` and `acked` are history variables: every request
so far, and those that a provider has acknowledged. `task` is the place of its ticket among those of
the blob, once it is granted. -/
structure Upload extends WriteCall where
  pageResults : List Bool
  inFlight : List ProviderWrite
  sent : List ProviderWrite
  acked : List ProviderWrite := []
  requested : Bool := false
  task : Option Nat := none

/-- `exec_write` up to the `run` that waits for the providers. It does not get there (`none`) when it
throws on an unallocated object, when the assertion on the alignment fails, or when there are not
enough providers. -/
def WriteCall.execWrite (c : WriteCall) : Option Upload :=
  if c.pageSize = 0 then none
  else if ¬ (c.offset % c.pageSize = 0 ∧ c.size % c.pageSize = 0) then none
  else if c.adv.length < u64 (c.size / c.pageSize * c.replicaCount) then none
  else
    (c.pageLoop c.pages 0).map fun reqs =>
      { c with
        pageResults := List.replicate c.adv.length false
        inFlight := reqs
        sent := reqs }

namespace Upload

/-- `rpc_write_callback`, for the request `r` that came back with `error`. -/
def rpcWriteCallback (u : Upload) (retryCount : Nat) (r : ProviderWrite) (error : RpcReturn) :
    Upload :=
  let u := { u with pageResults := u.pageResults.set r.k (decide (error = .ok)) }
  if error = .ok then u
  else if r.retries = retryCount then u
  else
    let r := { r with retries := r.retries + 1 }
    { u with
      inFlight := u.inFlight ++ [r]
      sent := u.sent ++ [r] }

/-- The `i`-th request in flight comes back. -/
def complete (u : Upload) (retryCount i : Nat) (error : RpcReturn) : Option Upload :=
  match u.inFlight[i]? with
  | none => none
  | some r =>
    let u := { u with
      inFlight := u.inFlight.eraseIdx i
      acked := if error = RpcReturn.ok then u.acked ++ [r] else u.acked }
    some (u.rpcWriteCallback retryCount r error)

/-- How often replica `k` was sent to its provider. -/
def attempts (u : Upload) (k : Nat) : Nat := (u.sent.map ProviderWrite.k).count k

/-- The bits that the check loop reads. A provider list that is not made of whole groups lets it read
past the end of the bitset; `beyond` is what it finds there. -/
def bit (u : Upload) (beyond : Nat → Bool) (k : Nat) : Bool := u.pageResults.getD k (beyond k)

/-- The inner check loop runs from `i` to the 32-bit `i + replica_count` without meeting a set bit. -/
def noReplica (bit : Nat → Bool) (replicaCount i : Nat) : Bool :=
  let last := u32 (i + replicaCount)
  decide (i ≤ last) && (List.range' i (last - i)).all fun k => !bit k

/-- The outer check loop, with its 32-bit counter; `none` when it has not ended after all rounds of
the fuel. -/
def checkLoop (bit : Nat → Bool) (replicaCount advSize : Nat) : Nat → Nat → Option Bool
  | 0, _ => none
  | fuel + 1, i =>
    if i < advSize then
      if noReplica bit replicaCount i then some false
      else checkLoop bit replicaCount advSize fuel (u32 (i + replicaCount))
    else some true

/-- Whether `exec_write` goes on to ask for a ticket: `run` has returned, since no request is left,
and the check loop has found a replica for every page. After `2 ^ 32` rounds the counter has met
one of its values again, and the loop never ends. -/
def requestsTicket (u : Upload) (beyond : Nat → Bool) : Bool :=
  u.inFlight.isEmpty &&
    decide (checkLoop (u.bit beyond) u.replicaCount u.adv.length (2 ^ 32 + 1) 0 = some true)

/-- The request `r` carries page `i` to one of its replicas. -/
structure Copy (c : WriteCall) (i : Nat) (r : ProviderWrite) : Prop where
  lower : i * c.replicaCount ≤ r.k
  upper : r.k < (i + 1) * c.replicaCount
  adv : c.adv[r.k]? = some r.adv
  key : r.key = c.pageKey i
  value : r.value = c.pageBytes i

end Upload

/-- What `exec_write` has checked and sent when it waits for the providers. -/
theorem WriteCall.execWrite_cases {c : WriteCall} {u : Upload} (h : c.execWrite = some u) :
    0 < c.pageSize ∧ c.offset % c.pageSize = 0 ∧ c.size % c.pageSize = 0 ∧
      u.requested = false ∧ u.inFlight = u.sent := by
  unfold execWrite at h
  split at h
  · cases h
  next hps =>
  split at h
  · cases h
  next haligned =>
  split at h
  · cases h
  obtain ⟨reqs, -, rfl⟩ := Option.map_eq_some_iff.mp h
  obtain ⟨hoffset, hsize⟩ := Decidable.not_not.mp haligned
  exact ⟨Nat.pos_of_ne_zero hps, hoffset, hsize, rfl, rfl⟩

/-! ## What the page loop sends -/

namespace WriteCall

variable {c : WriteCall}

theorem replicaLoop_spec (i : Nat) : ∀ {n k : Nat} {reqs : List ProviderWrite},
    c.replicaLoop i n k = some reqs → reqs.map ProviderWrite.k = List.range' k n ∧
      ∀ r ∈ reqs, r.retries = 0 ∧ c.adv[r.k]? = some r.adv ∧ r.key = c.pageKey i ∧
        r.value = c.pageBytes i := by
  intro n
  induction n with
  | zero =>
    intro k reqs h
    cases h
    exact ⟨rfl, fun _ hr => absurd hr List.not_mem_nil⟩
  | succ n ih =>
    intro k reqs h
    rw [replicaLoop] at h
    split at h
    · next adv reqs' hadv hrest =>
      cases h
      obtain ⟨hks, hreqs⟩ := ih hrest
      refine ⟨?_, ?_⟩
      · rw [List.map_cons, hks, List.range'_succ]
      · intro r hr
        rcases List.mem_cons.mp hr with rfl | hr
        · exact ⟨rfl, hadv, rfl, rfl⟩
        · exact hreqs r hr
    · cases h

theorem writePage_spec {i : Nat} {reqs : List ProviderWrite} (h : c.writePage i = some reqs) :
    (i + 1) * c.replicaCount < 2 ^ 32 ∧
      reqs.map ProviderWrite.k = List.range' (i * c.replicaCount) c.replicaCount ∧
      ∀ r ∈ reqs, r.retries = 0 ∧ Upload.Copy c i r := by
  unfold writePage at h
  dsimp only at h
  split at h
  · next hlt =>
    obtain ⟨hks, hreqs⟩ := replicaLoop_spec i h
    rw [← Nat.succ_mul] at hlt
    refine ⟨hlt, hks, ?_⟩
    intro r hr
    obtain ⟨hretries, hadv, hkey, hvalue⟩ := hreqs r hr
    have hk : r.k ∈ List.range' (i * c.replicaCount) c.replicaCount := by
      rw [← hks]
      exact List.mem_map_of_mem hr
    rw [List.mem_range'_1, ← Nat.succ_mul] at hk
    exact ⟨hretries, hk.1, hk.2, hadv, hkey, hvalue⟩
  · cases h

theorem pageLoop_spec : ∀ {n i : Nat} {reqs : List ProviderWrite}, c.pageLoop n i = some reqs →
    (∀ j, i ≤ j → j < i + n → (j + 1) * c.replicaCount < 2 ^ 32) ∧
      reqs.map ProviderWrite.k = List.range' (i * c.replicaCount) (n * c.replicaCount) ∧
      ∀ r ∈ reqs, r.retries = 0 ∧ ∃ j, i ≤ j ∧ j < i + n ∧ Upload.Copy c j r := by
  intro n
  induction n with
  | zero =>
    intro i reqs h
    cases h
    refine ⟨fun j h1 h2 => by omega, ?_, fun _ hr => absurd hr List.not_mem_nil⟩
    rw [Nat.zero_mul]
    rfl
  | succ n ih =>
    intro i reqs h
    rw [pageLoop] at h
    split at h
    · next page rest hpage hrest =>
      cases h
      obtain ⟨hlt, hks, hcopy⟩ := writePage_spec hpage
      obtain ⟨hlt', hks', hcopy'⟩ := ih hrest
      refine ⟨?_, ?_, ?_⟩
      · intro j h1 h2
        rcases Nat.eq_or_lt_of_le h1 with rfl | h1
        · exact hlt
        · exact hlt' j h1 (by omega)
      · rw [List.map_append, hks, hks', Nat.succ_mul i, List.range'_append_1, Nat.succ_mul n,
          Nat.add_comm c.replicaCount]
      · intro r hr
        rcases List.mem_append.mp hr with hr | hr
        · exact ⟨(hcopy r hr).1, i, Nat.le_refl i, by omega, (hcopy r hr).2⟩
        · obtain ⟨hretries, j, h1, h2, hj⟩ := hcopy' r hr
          exact ⟨hretries, j, by omega, by omega, hj⟩
    · cases h

end WriteCall

/-! ## The replies -/

namespace Upload

/-- The state of the page writes: whose requests are in flight, and what a set bit stands for. -/
structure Inv (retryCount : Nat) (u : Upload) : Prop where
  pageSize : 0 < u.pageSize
  aligned : u.size % u.pageSize = 0
  counters : ∀ i < u.pages, (i + 1) * u.replicaCount < 2 ^ 32
  sent : ∀ r ∈ u.sent, ∃ i < u.pages, Copy u.toWriteCall i r
  all : ∀ k < u.pages * u.replicaCount, ∃ r ∈ u.sent, r.k = k
  flight : ∀ r ∈ u.inFlight, r ∈ u.sent
  retries : ∀ r ∈ u.inFlight, r.retries ≤ retryCount ∧ u.attempts r.k = r.retries + 1
  once : (u.inFlight.map ProviderWrite.k).Nodup
  attempts : ∀ k, u.attempts k ≤ retryCount + 1
  acked : ∀ r ∈ u.acked, r ∈ u.sent
  length : u.pageResults.length = u.adv.length
  bits : ∀ k, u.pageResults[k]? = some true → ∃ r ∈ u.acked, r.k = k

namespace Inv

variable {retryCount : Nat} {u : Upload}

theorem execWrite {c : WriteCall} (h : c.execWrite = some u) :
    u.toWriteCall = c ∧ u.task = none ∧ Inv retryCount u := by
  unfold WriteCall.execWrite at h
  split at h
  · cases h
  next hps =>
  split at h
  · cases h
  next haligned =>
  split at h
  · cases h
  obtain ⟨reqs, hreqs, rfl⟩ := Option.map_eq_some_iff.mp h
  obtain ⟨hlt, hks, hcopy⟩ := WriteCall.pageLoop_spec hreqs
  rw [Nat.zero_mul] at hks
  have hnodup : (reqs.map ProviderWrite.k).Nodup := by
    rw [hks]
    exact List.nodup_range'
  refine ⟨rfl, rfl, Nat.pos_of_ne_zero hps, ?_, ?_, ?_, ?_, fun _ hr => hr, ?_, hnodup, ?_, ?_, ?_,
    ?_⟩
  · exact (Decidable.not_not.mp haligned).2
  · exact fun i hi => hlt i (Nat.zero_le i) (by rw [Nat.zero_add]; exact hi)
  · intro r hr
    obtain ⟨-, i, -, hi, hr⟩ := hcopy r hr
    rw [Nat.zero_add] at hi
    exact ⟨i, hi, hr⟩
  · intro k hk
    have hmem : k ∈ reqs.map ProviderWrite.k := by
      rw [hks, List.mem_range'_1]
      exact ⟨Nat.zero_le k, by rw [Nat.zero_add]; exact hk⟩
    obtain ⟨r, hr, hrk⟩ := List.mem_map.mp hmem
    exact ⟨r, hr, hrk⟩
  · intro r hr
    rw [(hcopy r hr).1]
    exact ⟨Nat.zero_le _, List.count_eq_one_of_mem hnodup (List.mem_map_of_mem hr)⟩
  · intro k
    exact (List.nodup_iff_count_le_one.mp hnodup k).trans (Nat.le_add_left 1 retryCount)
  · exact fun _ hr => absurd hr List.not_mem_nil
  · exact List.length_replicate
  · intro k hk
    exact absurd (List.eq_of_mem_replicate (List.mem_of_getElem? hk)) (by decide)

/-- The request that comes back is the only one in flight for its replica. -/
theorem taken (h : Inv retryCount u) {i : Nat} {r : ProviderWrite} (hr : u.inFlight[i]? = some r) :
    r ∈ u.inFlight ∧ (∀ r' ∈ u.inFlight.eraseIdx i, r' ∈ u.inFlight ∧ r'.k ≠ r.k) ∧
      ((u.inFlight.eraseIdx i).map ProviderWrite.k).Nodup := by
  obtain ⟨hi, rfl⟩ := List.getElem?_eq_some_iff.mp hr
  have hperm := List.getElem_cons_eraseIdx_perm hi
  have hnodup := (hperm.map ProviderWrite.k).nodup_iff.mpr h.once
  rw [List.map_cons, List.nodup_cons] at hnodup
  refine ⟨List.getElem_mem hi, ?_, hnodup.2⟩
  intro r' hr'
  refine ⟨List.mem_of_mem_eraseIdx hr', fun hk => hnodup.1 ?_⟩
  rw [← hk]
  exact List.mem_map_of_mem hr'

/-- A bit is set by a reply only, for the replica of its request. -/
theorem set_bits (h : Inv retryCount u) {r : ProviderWrite} {ok : Bool} {acked : List ProviderWrite}
    (hsub : ∀ r' ∈ u.acked, r' ∈ acked) (hok : ok = true → r ∈ acked) (k : Nat)
    (hk : (u.pageResults.set r.k ok)[k]? = some true) : ∃ r' ∈ acked, r'.k = k := by
  rw [List.getElem?_set] at hk
  split at hk
  · next hrk =>
    split at hk
    · exact ⟨r, hok (Option.some.inj hk), hrk⟩
    · cases hk
  · obtain ⟨r', hr', hrk⟩ := h.bits k hk
    exact ⟨r', hsub r' hr', hrk⟩

/-- The reply of a provider, whatever it is. -/
theorem complete (h : Inv retryCount u) {i : Nat} {error : RpcReturn} {u' : Upload}
    (hs : u.complete retryCount i error = some u') :
    u'.toWriteCall = u.toWriteCall ∧ u'.task = u.task ∧ Inv retryCount u' := by
  unfold Upload.complete at hs
  split at hs
  · cases hs
  next r hr =>
  cases hs
  obtain ⟨hmem, hrest, hnodup⟩ := h.taken hr
  obtain ⟨hle, hattempts⟩ := h.retries r hmem
  have hsent := h.flight r hmem
  have hretries : ∀ r' ∈ u.inFlight.eraseIdx i,
      r'.retries ≤ retryCount ∧ u.attempts r'.k = r'.retries + 1 :=
    fun r' hr' => h.retries r' (hrest r' hr').1
  have hflight : ∀ r' ∈ u.inFlight.eraseIdx i, r' ∈ u.sent :=
    fun r' hr' => h.flight r' (hrest r' hr').1
  unfold rpcWriteCallback
  dsimp only
  by_cases hok : error = .ok
  · subst hok
    refine ⟨rfl, rfl, h.pageSize, h.aligned, h.counters, h.sent, h.all, hflight, hretries, hnodup,
      h.attempts, ?_, List.length_set.trans h.length, ?_⟩
    · intro r' hr'
      rcases List.mem_append.mp hr' with hr' | hr'
      · exact h.acked r' hr'
      · rw [List.mem_singleton.mp hr']
        exact hsent
    · exact h.set_bits (fun r' hr' => List.mem_append_left _ hr')
        fun _ => List.mem_append_right _ (List.mem_singleton_self r)
  · have hbits : ∀ k, (u.pageResults.set r.k (decide (error = .ok)))[k]? = some true →
        ∃ r' ∈ u.acked, r'.k = k :=
      h.set_bits (fun _ hr' => hr') fun hd => absurd (of_decide_eq_true hd) hok
    rw [if_neg hok, if_neg hok]
    split
    · exact ⟨rfl, rfl, h.pageSize, h.aligned, h.counters, h.sent, h.all, hflight, hretries, hnodup,
        h.attempts, h.acked, List.length_set.trans h.length, hbits⟩
    · next hretry =>
      -- the replica goes out once more, and nothing else is in flight for it
      have hnew : ∀ k, ((u.sent ++ [{ r with retries := r.retries + 1 }]).map
          ProviderWrite.k).count k = u.attempts k + if r.k = k then 1 else 0 := by
        intro k
        rw [List.map_append, List.count_append, List.map_singleton, List.count_singleton, Upload.attempts]
        simp only [beq_iff_eq]
      refine ⟨rfl, rfl, h.pageSize, h.aligned, h.counters, ?_, ?_, ?_, ?_, ?_, ?_, ?_,
        List.length_set.trans h.length, hbits⟩
      · intro r' hr'
        rcases List.mem_append.mp hr' with hr' | hr'
        · exact h.sent r' hr'
        · obtain ⟨j, hj, hcopy⟩ := h.sent r hsent
          rw [List.mem_singleton.mp hr']
          exact ⟨j, hj, hcopy.lower, hcopy.upper, hcopy.adv, hcopy.key, hcopy.value⟩
      · intro k hk
        obtain ⟨r', hr', hrk⟩ := h.all k hk
        exact ⟨r', List.mem_append_left _ hr', hrk⟩
      · intro r' hr'
        rcases List.mem_append.mp hr' with hr' | hr'
        · exact List.mem_append_left _ (hflight r' hr')
        · exact List.mem_append_right _ hr'
      · intro r' hr'
        rcases List.mem_append.mp hr' with hr' | hr'
        · have hne := (hrest r' hr').2
          refine ⟨(hretries r' hr').1, (hnew r'.k).trans ?_⟩
          rw [if_neg (Ne.symm hne)]
          exact (hretries r' hr').2
        · rw [List.mem_singleton.mp hr']
          refine ⟨by show r.retries + 1 ≤ retryCount; omega, (hnew r.k).trans ?_⟩
          rw [if_pos rfl, hattempts]
      · rw [List.map_append, List.map_singleton]
        refine List.nodup_append'.mpr ⟨hnodup, List.nodup_singleton _, ?_⟩
        rintro k hk hk'
        obtain ⟨r', hr', hrk⟩ := List.mem_map.mp hk
        exact (hrest r' hr').2 (hrk.trans (List.mem_singleton.mp hk'))
      · intro k
        refine (hnew k).trans_le ?_
        split
        · next hk =>
          rw [← hk, hattempts]
          omega
        · exact h.attempts k
      · exact fun r' hr' => List.mem_append_left _ (h.acked r' hr')

end Inv

/-! ## The check before the ticket -/

/-- The inner check loop has met a set bit of the group, when its end does not wrap around. -/
theorem exists_bit {bit : Nat → Bool} {replicaCount i : Nat} (hi : i + replicaCount < 2 ^ 32)
    (h : ¬ noReplica bit replicaCount i = true) :
    ∃ k, i ≤ k ∧ k < i + replicaCount ∧ bit k = true := by
  simp only [noReplica, u32_of_lt hi, Bool.and_eq_true, decide_eq_true_eq, List.all_eq_true,
    List.mem_range'_1, Bool.not_eq_true', not_and, not_forall] at h
  obtain ⟨k, ⟨h1, h2⟩, hk⟩ := h (Nat.le_add_right i replicaCount)
  exact ⟨k, h1, by omega, Bool.eq_true_of_not_eq_false hk⟩

/-- A check loop that ends with success has met a set bit in every whole group it has walked over. -/
theorem checkLoop_group {bit : Nat → Bool} {replicaCount advSize g : Nat}
    (hrc : 0 < replicaCount) (hsize : (g + 1) * replicaCount ≤ advSize)
    (hg : (g + 1) * replicaCount < 2 ^ 32) : ∀ {fuel j : Nat}, j ≤ g →
      checkLoop bit replicaCount advSize fuel (j * replicaCount) = some true →
      ∃ k, g * replicaCount ≤ k ∧ k < (g + 1) * replicaCount ∧ bit k = true := by
  intro fuel
  induction fuel with
  | zero =>
    intro j _ h
    cases h
  | succ fuel ih =>
    intro j hj h
    have hmul : (j + 1) * replicaCount ≤ (g + 1) * replicaCount :=
      Nat.mul_le_mul_right _ (Nat.succ_le_succ hj)
    have hnext : j * replicaCount + replicaCount = (j + 1) * replicaCount := (Nat.succ_mul ..).symm
    rw [checkLoop, if_pos (by omega)] at h
    split at h
    · cases h
    · next hbit =>
      rcases Nat.eq_or_lt_of_le hj with rfl | hlt
      · rw [Nat.succ_mul]
        exact exists_bit (by omega) hbit
      · rw [hnext, u32_of_lt (by omega)] at h
        exact ih hlt h

/-- The groups of replicas do not overlap. -/
theorem Copy.page_eq {c : WriteCall} {i j : Nat} {r : ProviderWrite} (h : Copy c j r)
    (h1 : i * c.replicaCount ≤ r.k) (h2 : r.k < (i + 1) * c.replicaCount) : j = i := by
  have hlo := Nat.lt_of_mul_lt_mul_right (h.lower.trans_lt h2)
  have hhi := Nat.lt_of_mul_lt_mul_right (h1.trans_lt h.upper)
  omega

namespace Inv

variable {retryCount : Nat} {u : Upload}

theorem pages_eq (h : Inv retryCount u) : u.pages = u.size / u.pageSize := by
  obtain ⟨n, hn⟩ := Nat.dvd_of_mod_eq_zero h.aligned
  have hps := h.pageSize
  rw [WriteCall.pages, hn, Nat.mul_div_cancel_left n hps]
  refine Nat.div_eq_of_lt_le ?_ ?_
  · rw [Nat.mul_comm n]
    omega
  · rw [Nat.succ_mul, Nat.mul_comm n]
    omega

/-- The list has a provider for every replica of every page. -/
theorem adv_length (h : Inv retryCount u) (hrc : 0 < u.replicaCount) {i : Nat} (hi : i < u.pages) :
    (i + 1) * u.replicaCount ≤ u.adv.length := by
  have hmul : (i + 1) * u.replicaCount ≤ u.pages * u.replicaCount := Nat.mul_le_mul_right _ hi
  have hpos : 0 < (i + 1) * u.replicaCount := Nat.mul_pos (Nat.succ_pos i) hrc
  -- the last replica of the page was sent to a provider of the list
  obtain ⟨r, hr, hk⟩ := h.all ((i + 1) * u.replicaCount - 1) (by omega)
  obtain ⟨j, -, hcopy⟩ := h.sent r hr
  have hlt := (List.getElem?_eq_some_iff.mp hcopy.adv).1
  omega

/-- A write that asks for its ticket has an acknowledged replica of every page. -/
theorem stored (h : Inv retryCount u) (hrc : 0 < u.replicaCount) {beyond : Nat → Bool}
    (hreq : u.requestsTicket beyond = true) {i : Nat} (hi : i < u.pages) :
    ∃ r ∈ u.acked, Copy u.toWriteCall i r := by
  simp only [requestsTicket, Bool.and_eq_true, decide_eq_true_eq] at hreq
  have hadv := h.adv_length hrc hi
  have hcheck := hreq.2
  rw [← Nat.zero_mul u.replicaCount] at hcheck
  obtain ⟨k, h1, h2, hbit⟩ :=
    checkLoop_group hrc hadv (h.counters i hi) (Nat.zero_le i) hcheck
  have hlen : k < u.pageResults.length := by
    rw [h.length]
    omega
  have hset : u.pageResults[k]? = some true := by
    rw [bit, List.getD_eq_getElem?_getD, List.getElem?_eq_getElem hlen] at hbit
    rw [List.getElem?_eq_getElem hlen]
    exact congrArg some hbit
  obtain ⟨r, hr, rfl⟩ := h.bits k hset
  obtain ⟨j, hj, hcopy⟩ := h.sent r (h.acked r hr)
  exact ⟨r, hr, hcopy.page_eq h1 h2 ▸ hcopy⟩

/-- The acknowledged replicas hold the pages of the buffer when a page has less than `2 ^ 32` bytes. -/
theorem stores_pages_iff (h : Inv retryCount u) (hrc : 0 < u.replicaCount) {beyond : Nat → Bool}
    (hreq : u.requestsTicket beyond = true) :
    (∀ i < u.pages, ∃ r ∈ u.acked, Copy u.toWriteCall i r ∧ r.value = u.page i) ↔
      u.pageSize < 2 ^ 32 ∨ u.size = 0 := by
  constructor
  · intro hall
    by_cases hsize : u.size = 0
    · exact .inr hsize
    · -- the first page
      have hpages : 0 < u.pages := by
        have := h.pageSize
        exact Nat.div_pos (by omega) h.pageSize
      obtain ⟨r, -, hcopy, hvalue⟩ := hall 0 hpages
      exact .inl (WriteCall.pageBytes_eq_page_iff.mp (hcopy.value.symm.trans hvalue))
  · rintro (hps | hsize) i hi
    · obtain ⟨r, hr, hcopy⟩ := h.stored hrc hreq hi
      exact ⟨r, hr, hcopy, hcopy.value.trans (WriteCall.pageBytes_eq_page hps i)⟩
    · rw [h.pages_eq, hsize, Nat.zero_div] at hi
      exact absurd hi (Nat.not_lt_zero i)

end Inv

end Upload

end BlobSeer
