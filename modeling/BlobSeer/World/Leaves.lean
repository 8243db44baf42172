import BlobSeer.World.Visibility

/-!
# The leaves of a write

Whatever the writes of a system are, and wherever they start: the keys of different writes differ,
and the inner nodes of a write have other keys than its leaves. So the page keys and the leaves of a
write whose `exec_write` returned `true` are in the DHT as the write has put them
(`World.leaves_of_returned`). Nothing is assumed here about the shape of the trees.
-/

namespace BlobSeer

open Lib
open VManagement (assigned ticket)

/-! ## The keys of one write -/

/-- The size of a page doubled once or more, in 64 bits. -/
def Doubled (ps size : Nat) : Prop := ∃ j, size = u64 (2 ^ (j + 1) * ps)

theorem Doubled.ne {ps size : Nat} (h : Doubled ps size) (hps : 0 < ps) : size ≠ ps := by
  obtain ⟨j, rfl⟩ := h
  exact two_pow_mul_mod_ne hps 64 j

theorem getParent_eq (q : Query) : q.getParent.1 =
    ⟨q.id, q.version, if q.offset % u64 (2 * q.size) = 0 then q.offset else sub64 q.offset q.size,
      u64 (2 * q.size)⟩ := by
  simp only [Query.getParent]
  split
  · rfl
  · rfl

theorem Doubled.parent {ps : Nat} {q : Query} (h : q.size = ps ∨ Doubled ps q.size) :
    Doubled ps q.getParent.1.size := by
  rw [getParent_eq]
  rcases h with h | ⟨j, h⟩
  · exact ⟨0, by rw [h, Nat.zero_add, Nat.pow_one]⟩
  · refine ⟨j + 1, ?_⟩
    rw [h, u64, u64, u64, Nat.mul_mod_mod, ← Nat.mul_assoc, ← Nat.pow_succ']

/-- The put of a round of the bottom-up loop is the one of the parent, and no node is added to the
queue by the pairing. -/
theorem pairUp_spec (rootSize : Nat) (left right : List Query) (first : Query)
    (rest : List Query) :
    (pairUp rootSize left right first rest).1.1 = first.getParent.1 ∧
      ∀ q ∈ (pairUp rootSize left right first rest).2, q ∈ rest := by
  unfold pairUp
  dsimp only
  split
  · exact ⟨rfl, fun _ hq => hq⟩
  · split
    · exact ⟨rfl, fun _ hq => List.mem_cons_of_mem _ hq⟩
    · exact ⟨rfl, fun _ hq => hq⟩

/-- The inner nodes that the bottom-up loop puts. -/
theorem buildLoop_keys (ps id version : Nat) {rootSize : Nat} {left right : List Query} :
    ∀ (fuel : Nat) (queue : List Query) (entries : List (Query × DhtNode)),
      (∀ q ∈ queue, (q.id = id ∧ q.version = version) ∧ (q.size = ps ∨ Doubled ps q.size)) →
      buildLoop rootSize left right fuel queue = some entries →
      ∀ e ∈ entries, (e.1.id = id ∧ e.1.version = version) ∧ Doubled ps e.1.size := by
  intro fuel
  induction fuel with
  | zero =>
    intro queue entries _ h
    cases h
  | succ fuel ih =>
    intro queue entries hq h
    cases queue with
    | nil =>
      cases h
      exact fun _ he => absurd he List.not_mem_nil
    | cons first rest =>
      have hfirst := hq first List.mem_cons_self
      have hrest : ∀ q ∈ rest, _ := fun q hm => hq q (List.mem_cons_of_mem _ hm)
      rw [buildLoop] at h
      split at h
      · exact ih rest entries hrest h
      · obtain ⟨hkey, hsub⟩ := pairUp_spec rootSize left right first rest
        have hparent : first.getParent.1.id = id ∧ first.getParent.1.version = version := by
          rw [getParent_eq]
          exact hfirst.1
        dsimp only at h
        split at h
        · cases h
        · next entries' hloop =>
          cases h
          intro e he
          rcases List.mem_cons.mp he with rfl | he
          · rw [hkey]
            exact ⟨hparent, Doubled.parent hfirst.2⟩
          · refine ih _ _ ?_ hloop e he
            intro q hqm
            rcases List.mem_append.mp hqm with hqm | hqm
            · exact hrest q (hsub q hqm)
            · rw [List.mem_singleton.mp hqm, hkey]
              exact ⟨hparent, .inr (Doubled.parent hfirst.2)⟩

namespace Ticket

/-- The puts of the first loop of the write: its page keys and its leaves. -/
def leafEntries (K : Ticket) : List (Query × DhtVal) :=
  leafPuts K.query K.reply.stableRoot.replicaCount K.adv 0
    (pageKeys K.query.id K.pageVersion K.pageSize K.query.size)

/-- The key of the `i`-th page of the write. -/
def keyAt (K : Ticket) (i : Nat) : Query := ⟨K.query.id, K.pageVersion, i, K.pageSize⟩

theorem mem_leafEntries {K : Ticket} {e : Query × DhtVal} :
    e ∈ K.leafEntries ↔ ∃ i, i < (K.query.size + K.pageSize - 1) / K.pageSize ∧
      (e = (K.keyAt i, .providers (replicas K.reply.stableRoot.replicaCount K.adv i)) ∨
        e = (leafOf K.query (K.keyAt i), .node { isLeaf := true, left := K.keyAt i })) := by
  rw [leafEntries, mem_leafPuts]
  simp only [pageKeys, List.getElem?_map, Option.map_eq_some_iff, Nat.zero_add]
  constructor
  · rintro ⟨d, key, ⟨i, hi, rfl⟩, he⟩
    obtain ⟨hd, rfl⟩ := List.getElem?_eq_some_iff.mp hi
    rw [List.length_range] at hd
    rw [List.getElem_range] at he
    exact ⟨d, hd, he⟩
  · rintro ⟨i, hi, he⟩
    exact ⟨i, K.keyAt i, ⟨i, List.getElem?_range hi, rfl⟩, he⟩

/-- The pages start inside the write. -/
theorem mul_lt_of_lt_pages {size ps i : Nat} (hi : i < (size + ps - 1) / ps) :
    0 < ps ∧ i * ps < size := by
  have hps : 0 < ps := by
    rcases Nat.eq_zero_or_pos ps with h | h
    · rw [h, Nat.div_zero] at hi
      cases hi
    · exact h
  have hle : (i + 1) * ps ≤ size + ps - 1 := (Nat.le_div_iff_mul_le hps).mp hi
  rw [Nat.succ_mul] at hle
  exact ⟨hps, by omega⟩

theorem leafEntries_key {K : Ticket} {e : Query × DhtVal} (he : e ∈ K.leafEntries) :
    e.1.id = K.query.id ∧ (e.1.version = K.pageVersion ∨ e.1.version = K.query.version) ∧
      e.1.size = K.pageSize := by
  obtain ⟨i, -, (rfl | rfl)⟩ := mem_leafEntries.mp he
  · exact ⟨rfl, .inl rfl, rfl⟩
  · exact ⟨rfl, .inr rfl, rfl⟩

theorem u64_add_cancel {o a b : Nat} (ha : a < 2 ^ 64) (hb : b < 2 ^ 64)
    (h : u64 (o + u64 a) = u64 (o + u64 b)) : a = b := by
  rw [u64_of_lt ha, u64_of_lt hb] at h
  unfold u64 at h
  omega

/-- The first loop puts only one value under each key. -/
theorem leafEntries_unique {K : Ticket} (hown : K.pageVersion ≠ K.query.version)
    (hsize : K.query.size < 2 ^ 64) {e e' : Query × DhtVal} (he : e ∈ K.leafEntries)
    (he' : e' ∈ K.leafEntries) (hkey : e.1 = e'.1) : e = e' := by
  obtain ⟨i, hi, he⟩ := mem_leafEntries.mp he
  obtain ⟨j, hj, he'⟩ := mem_leafEntries.mp he'
  obtain ⟨hps, hilt⟩ := mul_lt_of_lt_pages hi
  have hjlt := (mul_lt_of_lt_pages hj).2
  rcases he with rfl | rfl <;> rcases he' with rfl | rfl
  · have hij : i = j := congrArg Query.offset hkey
    rw [hij]
  · exact absurd (congrArg Query.version hkey) hown
  · exact absurd (congrArg Query.version hkey).symm hown
  · have hoff := congrArg Query.offset hkey
    have hmul : i * K.pageSize = j * K.pageSize :=
      u64_add_cancel (by omega) (by omega) hoff
    have hij : i = j := Nat.eq_of_mul_eq_mul_right hps hmul
    rw [hij]

end Ticket

/-! ## One task -/

/-- The leaves of a task are queued or in the DHT, as long as no put was reported as failed. -/
structure TaskLeaves (dht : Dht) (T : Task) : Prop where
  own : T.pageVersion ≠ T.query.version
  size : T.query.size < 2 ^ 64
  deque : ∀ q ∈ T.writer.deque, (q.id = T.query.id ∧ q.version = T.query.version) ∧
    q.size = T.pageSize ∧ 0 < T.pageSize
  leafPut : T.writer.stage = .leaves → ∀ e ∈ T.writer.puts, e ∈ T.leafEntries
  innerPut : T.writer.stage ≠ .leaves → ∀ e ∈ T.writer.puts,
    (e.1.id = T.query.id ∧ e.1.version = T.query.version) ∧ e.1.size ≠ T.pageSize
  donePut : T.writer.stage = .done → T.writer.puts = []
  placed : T.state ≠ .stopped → T.writer.result = true → ∀ e ∈ T.leafEntries,
    dht e.1 = some e.2 ∨ T.writer.stage = .leaves ∧ e ∈ T.writer.puts
  returned : T.state = .returned true → T.writer.stage = .done ∧ T.writer.result = true

namespace TaskLeaves

variable {dht dht' : Dht} {T : Task}

theorem mono (h : TaskLeaves dht T)
    (hle : ∀ e ∈ T.leafEntries, dht e.1 = some e.2 → dht' e.1 = some e.2) : TaskLeaves dht' T :=
  { h with placed := fun hs hr e he => (h.placed hs hr e he).imp_left (hle e he) }

/-- The id and the versions under which a task puts. -/
theorem put_key (h : TaskLeaves dht T) {e : Query × DhtVal} (he : e ∈ T.writer.puts) :
    e.1.id = T.query.id ∧ (e.1.version = T.pageVersion ∨ e.1.version = T.query.version) := by
  by_cases hs : T.writer.stage = .leaves
  · have hkey := Ticket.leafEntries_key (h.leafPut hs e he)
    exact ⟨hkey.1, hkey.2.1⟩
  · have hkey := (h.innerPut hs e he).1
    exact ⟨hkey.1, .inr hkey.2⟩

/-- A put of the task does not overwrite one of its leaves. -/
theorem put_keeps (h : TaskLeaves dht T) {k : Query} {v : DhtVal} (hput : (k, v) ∈ T.writer.puts) :
    ∀ e ∈ T.leafEntries, dht e.1 = some e.2 → Function.update dht k (some v) e.1 = some e.2 := by
  intro e he hd
  by_cases hk : e.1 = k
  · rw [hk, Function.update_self]
    by_cases hs : T.writer.stage = .leaves
    · rw [Ticket.leafEntries_unique h.own h.size he (h.leafPut hs _ hput) hk]
    · -- an inner node has another size than a leaf, and another version than a page key
      obtain ⟨⟨-, hversion⟩, hsize⟩ := h.innerPut hs _ hput
      rw [← hk] at hsize
      exact absurd (Ticket.leafEntries_key he).2.2 hsize
  · rw [Function.update_of_ne hk]
    exact hd

theorem endPut (h : TaskLeaves dht T) {i : Nat} {k : Query} {v : DhtVal} {outcome : PutOutcome}
    (hi : T.writer.puts[i]? = some (k, v)) :
    TaskLeaves (if outcome = .lost then dht else Function.update dht k (some v))
      { T with writer := T.writer.endPut i outcome } := by
  have hmem : (k, v) ∈ T.writer.puts := List.mem_of_getElem? hi
  have hnotDone : T.writer.stage ≠ .done := by
    intro hs
    rw [h.donePut hs] at hmem
    cases hmem
  refine ⟨h.own, h.size, h.deque, ?_, ?_, fun hs => absurd hs hnotDone, ?_, ?_⟩
  · exact fun hs e he => h.leafPut hs e (List.mem_of_mem_eraseIdx he)
  · exact fun hs e he => h.innerPut hs e (List.mem_of_mem_eraseIdx he)
  · intro hs hr e he
    simp only [Writer.endPut, Bool.and_eq_true, decide_eq_true_eq] at hr
    have hout : outcome ≠ .lost := by
      rw [hr.2]
      rintro ⟨⟩
    rw [if_neg hout]
    rcases h.placed hs hr.1 e he with hd | ⟨hstage, hq⟩
    · exact .inl (h.put_keeps hmem e he hd)
    · obtain ⟨hlt, hget⟩ := List.getElem?_eq_some_iff.mp hi
      have hperm := List.getElem_cons_eraseIdx_perm hlt
      rw [hget] at hperm
      rcases List.mem_cons.mp (hperm.mem_iff.mpr hq) with rfl | hq
      · exact .inl (Function.update_self ..)
      · exact .inr ⟨hstage, hq⟩
  · exact fun hret => absurd (h.returned hret).1 hnotDone

theorem endGet (h : TaskLeaves dht T) (i : Nat) (isLeft : Bool) (parent : Query)
    (val : Option DhtVal) :
    TaskLeaves dht { T with writer := T.writer.endGet i isLeft parent val } :=
  ⟨h.own, h.size, h.deque, h.leafPut, h.innerPut, h.donePut, h.placed, h.returned⟩

/-- Another state of the same `exec_write`; to return `true` it has to be over with success. -/
theorem setState (h : TaskLeaves dht T) (state : ExecState)
    (hstopped : state ≠ .stopped → T.state ≠ .stopped)
    (hret : state = .returned true → T.writer.stage = .done ∧ T.writer.result = true) :
    TaskLeaves dht { T with state := state } :=
  ⟨h.own, h.size, h.deque, h.leafPut, h.innerPut, h.donePut, fun hs => h.placed (hstopped hs), hret⟩

theorem settle (h : TaskLeaves dht T) (hs : T.state = .running) : TaskLeaves dht T.settle := by
  unfold Task.settle
  split
  · exact h.setState _ (fun _ => by rw [hs]; exact nofun) nofun
  · exact h

/-- The inner nodes have the version of the write and are larger than a page. -/
theorem innerPuts_key (h : TaskLeaves dht T) {rootSize : Nat} {puts : List (Query × DhtVal)}
    (hinner : T.writer.innerPuts rootSize = some puts) {e : Query × DhtVal} (he : e ∈ puts) :
    (e.1.id = T.query.id ∧ e.1.version = T.query.version) ∧ e.1.size ≠ T.pageSize := by
  obtain ⟨entries, hloop, rfl⟩ := Option.map_eq_some_iff.mp hinner
  obtain ⟨entry, hentry, rfl⟩ := List.mem_map.mp he
  have hps : 0 < T.pageSize := by
    cases hd : T.writer.deque with
    | nil =>
      rw [hd] at hloop
      cases hloop
      cases hentry
    | cons q rest => exact (h.deque q (by rw [hd]; exact List.mem_cons_self)).2.2
  have hkeys := buildLoop_keys T.pageSize T.query.id T.query.version
    _ _ _ (fun q hq => ⟨(h.deque q hq).1, .inl (h.deque q hq).2.1⟩) hloop entry hentry
  exact ⟨hkeys.1, hkeys.2.ne hps⟩

theorem endWait (h : TaskLeaves dht T) (hstate : T.state = .running) {rootSize : Nat}
    {writer : Writer} (hw : T.writer.endWait rootSize = some writer) :
    TaskLeaves dht { T with writer := writer } := by
  have hrunning : ∀ result, T.state ≠ .returned result := by
    rw [hstate]
    rintro _ ⟨⟩
  obtain ⟨hputs, -, hcases⟩ := Writer.endWait_cases hw
  -- nothing is queued, so every leaf is in the DHT
  have hplaced : T.state ≠ .stopped → T.writer.result = true → ∀ e ∈ T.leafEntries,
      dht e.1 = some e.2 := by
    intro hs hr e he
    rcases h.placed hs hr e he with hd | ⟨-, hq⟩
    · exact hd
    · rw [hputs] at hq
      cases hq
  obtain ⟨-, -, puts, hinner, rfl⟩ | ⟨-, -, rfl⟩ | ⟨-, rfl⟩ := hcases
  · refine ⟨h.own, h.size, h.deque, nofun, ?_, nofun, ?_, fun hret => absurd hret (hrunning _)⟩
    · exact fun _ e he => h.innerPuts_key hinner he
    · exact fun hs hr e he => .inl (hplaced hs hr e he)
  · refine ⟨h.own, h.size, h.deque, nofun, ?_, nofun, ?_, fun hret => absurd hret (hrunning _)⟩
    · intro _ e he
      rw [hputs] at he
      cases he
    · exact fun hs hr e he => .inl (hplaced hs hr e he)
  · refine ⟨h.own, h.size, h.deque, nofun, ?_, fun _ => hputs, ?_,
      fun hret => absurd hret (hrunning _)⟩
    · intro _ e he
      rw [hputs] at he
      cases he
    · exact fun hs hr e he => .inl (hplaced hs hr e he)

end TaskLeaves

/-! ## All tasks -/

namespace World

structure Leaves (w : World) : Prop where
  tracked : Tracked w
  fresh : ∀ {id t t' : Nat} {T T' : Task}, (w.tasks id)[t]? = some T →
    (w.tasks id)[t']? = some T' → t ≠ t' →
    T.pageVersion ≠ T'.pageVersion ∧ T.pageVersion ≠ T'.query.version
  task : ∀ {id t : Nat} {T : Task}, (w.tasks id)[t]? = some T → TaskLeaves w.dht T

/-- Fewer than `2 ^ 32` tickets on every blob, page keys of their own, and 64-bit sizes. -/
def Distinct (w : World) : Action → Prop
  | .ticket range append adv =>
    w.FewTickets (.ticket range append adv) ∧ w.Fresh range ∧ range.size < 2 ^ 64
  | _ => True

instance (w : World) (a : Action) : Decidable (w.Distinct a) :=
  match a with
  | .ticket .. => inferInstanceAs (Decidable (_ ∧ _))
  | .create .. | .clone .. | .put .. | .get .. | .wait .. | .publish .. | .stop .. => .isTrue trivial

theorem Distinct.fewTickets {w : World} {a : Action} (h : w.Distinct a) : w.FewTickets a := by
  cases a with
  | ticket range append adv => exact h.1
  | _ => trivial

namespace Leaves

variable {w : World}

theorem empty : Leaves {} :=
  ⟨.empty, fun h => (by cases h), fun h => (by cases h)⟩

/-- A step of one task that keeps the leaves of the others. -/
theorem move (h : Leaves w) {id t : Nat} {T T' : Task} {dht : Dht} {hist : VmHistory}
    (hT : (w.tasks id)[t]? = some T) (hk : T'.toTicket = T.toTicket)
    (hw : Tracked { w.setTask id t T' with dht := dht, hist := hist })
    (hinv : TaskLeaves dht T')
    (hle : ∀ {i n : Nat} {S : Task}, (w.tasks i)[n]? = some S → ¬ (i = id ∧ n = t) →
      ∀ e ∈ S.leafEntries, w.dht e.1 = some e.2 → dht e.1 = some e.2) :
    Leaves { w.setTask id t T' with dht := dht, hist := hist } := by
  refine ⟨hw, ?_, ?_⟩
  · intro i n n' S S' hS hS' hne
    rcases tasks_set hT hS with ⟨rfl, rfl, rfl⟩ | ⟨hold, -⟩
    · rcases tasks_set hT hS' with ⟨-, rfl, -⟩ | ⟨hS', -⟩
      · exact absurd rfl hne
      · rw [hk]
        exact h.fresh hT hS' hne
    · rcases tasks_set hT hS' with ⟨rfl, rfl, rfl⟩ | ⟨hS', -⟩
      · rw [hk]
        exact h.fresh hold hT hne
      · exact h.fresh hold hS' hne
  · intro i n S hS
    rcases tasks_set hT hS with ⟨rfl, rfl, rfl⟩ | ⟨hS, hold⟩
    · exact hinv
    · exact (h.task hS).mono (hle hS hold)

/-- Two tasks put under different keys. -/
theorem key_ne (h : Leaves w) {id t i n : Nat} {T S : Task} (hT : (w.tasks id)[t]? = some T)
    (hS : (w.tasks i)[n]? = some S) (hne : ¬ (i = id ∧ n = t)) {e f : Query × DhtVal}
    (he : e ∈ T.writer.puts) (hf : f ∈ S.leafEntries) : f.1 ≠ e.1 := by
  intro heq
  obtain ⟨heid, hev⟩ := (h.task hT).put_key he
  obtain ⟨hfid, hfv, -⟩ := Ticket.leafEntries_key hf
  obtain ⟨hTid, hTv⟩ := h.tracked.query hT
  obtain ⟨hSid, hSv⟩ := h.tracked.query hS
  have hid : i = id := by
    rw [← hSid, ← hfid, heq, heid, hTid]
  subst hid
  have hnt : n ≠ t := fun e => hne ⟨rfl, e⟩
  have h1 := h.fresh hT hS (Ne.symm hnt)
  have h2 := h.fresh hS hT hnt
  rw [heq] at hfv
  rcases hev with hev | hev <;> rcases hfv with hfv | hfv
  · exact h1.1 (hev.symm.trans hfv)
  · exact h1.2 (hev.symm.trans hfv)
  · exact h2.2 (hfv.symm.trans hev)
  · have hv : T.query.version = S.query.version := hev.symm.trans hfv
    rw [hTv, hSv] at hv
    omega

theorem put (h : Leaves w) {id t i : Nat} {outcome : PutOutcome} {T : Task} {w' : World}
    (hT : (w.tasks id)[t]? = some T) (hw : Tracked w')
    (hs : w.endPut id t i outcome T = some w') : Leaves w' := by
  obtain ⟨k, v, hi, rfl⟩ := endPut_cases hs
  refine h.move hT rfl hw ((h.task hT).endPut hi) ?_
  intro j n S hS hne e he hd
  split
  · exact hd
  · have hkey := h.key_ne hT hS hne (List.mem_of_getElem? hi) he
    rw [Function.update_of_ne hkey]
    exact hd

end Leaves

end World

/-- What `writeRecordLocations` has queued when it first waits. -/
theorem Writer.start_cases {reply : VmgrReply} {keys : List Query} {adv : List ProviderDesc}
    {writer : Writer} (h : Writer.start reply keys adv = some writer) :
    writer = { stage := .done, result := false } ∨
    writer.stage = .leaves ∧ writer.deque = keys.map (leafOf reply.intervals.lastKey) ∧
      writer.puts = leafPuts reply.intervals.lastKey reply.stableRoot.replicaCount adv 0 keys := by
  unfold Writer.start at h
  split at h
  · exact .inl (Option.some.inj h).symm
  · dsimp only at h
    split at h
    · cases h
      exact .inr ⟨rfl, rfl, rfl⟩
    · cases h

/-- A task that stops before it has queued anything. -/
theorem TaskLeaves.stopped {K : Ticket} {dht : Dht} {writer : Writer} {state : ExecState}
    (hown : K.pageVersion ≠ K.query.version) (hsize : K.query.size < 2 ^ 64)
    (hwriter : writer = { stage := .leaves }) (hstate : state = .stopped) :
    TaskLeaves dht { K with writer := writer, state := state } := by
  subst hwriter hstate
  refine ⟨hown, hsize, ?_, ?_, ?_, ?_, fun hs => absurd rfl hs, ?_⟩
  · rintro _ ⟨⟩
  · rintro _ _ ⟨⟩
  · exact fun hs => absurd rfl hs
  · rintro ⟨⟩
  · rintro ⟨⟩

/-- A task that has just got its ticket. -/
theorem TaskLeaves.start {K : Ticket} {dht : Dht} {writer : Writer} {state : ExecState}
    (hown : K.pageVersion ≠ K.query.version) (hsize : K.query.size < 2 ^ 64)
    (hstate : state = .running)
    (hw : Writer.start K.reply (pageKeys K.query.id K.pageVersion K.pageSize K.query.size) K.adv =
      some writer) : TaskLeaves dht { K with writer := writer, state := state } := by
  have hret : state ≠ .returned true := by
    rw [hstate]
    exact nofun
  rcases Writer.start_cases hw with rfl | ⟨hstage, hdeque, hputs⟩
  · exact ⟨hown, hsize, nofun, nofun, nofun, fun _ => rfl, nofun, fun h => absurd h hret⟩
  · refine ⟨hown, hsize, ?_, ?_, ?_, ?_, ?_, fun h => absurd h hret⟩
    · intro q hq
      rw [hdeque] at hq
      obtain ⟨key, hkey, rfl⟩ := List.mem_map.mp hq
      obtain ⟨i, hi, rfl⟩ := List.mem_map.mp hkey
      exact ⟨⟨rfl, rfl⟩, rfl, (Ticket.mul_lt_of_lt_pages (List.mem_range.mp hi)).1⟩
    · intro _ e he
      rw [hputs] at he
      exact he
    · exact fun hs => absurd hstage hs
    · intro hs
      exact nomatch hstage.symm.trans hs
    · intro _ _ e he
      refine .inr ⟨hstage, ?_⟩
      rw [hputs]
      exact he

namespace World

namespace Leaves

variable {w : World}

theorem ticket (h : Leaves w) {range : Query} {append : Bool} {adv : List ProviderDesc}
    {w' : World} (hok : w.Distinct (.ticket range append adv)) (hw' : Tracked w')
    (hs : w.takeTicket range append adv = some w') : Leaves w' := by
  obtain rfl | ⟨o, R, T, hist, ho, hstep, hT, hhist, rfl⟩ := takeTicket_cases hs
  · exact h
  obtain ⟨hfit, hfresh, hsize⟩ := hok
  obtain ⟨reqs, hrun⟩ := h.tracked.run
  have hw := (VmHistory.window hrun).obj ho
  have hq := ticketOf_query hw hfit range append adv R
  obtain ⟨hver, hold⟩ := hfresh o ho
  have hct : o.currentTicket = (w.hist.issued range.id).length + 1 := by
    rw [hw.counter, u32_of_lt hfit]
  have hown : range.version ≠ (ticketOf o range append adv R).query.version := by
    rw [hq, ← hct]
    exact hver
  have hlt : (ticketOf o range append adv R).query.size < 2 ^ 64 := by
    rw [hq]
    simpa using hsize
  obtain ⟨hticket, hleaves⟩ : T.toTicket = ticketOf o range append adv R ∧ TaskLeaves w.dht T := by
    have hkeys : pageKeys range.id range.version (ticketOf o range append adv R).reply.stableRoot.pageSize
        range.size = pageKeys (ticketOf o range append adv R).query.id
          (ticketOf o range append adv R).pageVersion (ticketOf o range append adv R).pageSize
          (ticketOf o range append adv R).query.size := by
      rw [hq]
      simp only [VManagement.assigned_id, VManagement.assigned_size]
      rfl
    rw [hT, Task.start, hkeys]
    cases hstart : Writer.start (ticketOf o range append adv R).reply _ adv with
    | none =>
      exact ⟨rfl, .stopped hown hlt rfl rfl⟩
    | some writer =>
      refine ⟨(Task.settle_eq _).1, ?_⟩
      exact (TaskLeaves.start hown hlt rfl hstart).settle rfl
  refine ⟨hw', ?_, ?_⟩
  · intro i n n' S S' hS hS' hne
    rcases tasks_ticket hS with hearlier | ⟨rfl, rfl, rfl⟩
    · rcases tasks_ticket hS' with hS' | ⟨rfl, rfl, rfl⟩
      · exact h.fresh hearlier hS' hne
      · obtain ⟨h1, -, h3⟩ := hold S (List.mem_of_getElem? hearlier)
        rw [hticket, hq, ← hct]
        exact ⟨h1, h3⟩
    · rcases tasks_ticket hS' with hS' | ⟨-, rfl, -⟩
      · obtain ⟨h1, h2, -⟩ := hold S' (List.mem_of_getElem? hS')
        rw [hticket]
        exact ⟨Ne.symm h1, Ne.symm h2⟩
      · exact absurd rfl hne
  · intro i n S hS
    rcases tasks_ticket hS with hS | ⟨-, -, rfl⟩
    · exact h.task hS
    · exact hleaves

theorem publish (h : Leaves w) {id t : Nat} {T : Task} {outcome : RpcOutcome} {w' : World}
    (hT : (w.tasks id)[t]? = some T) (hstate : T.state = .running) (hw : Tracked w')
    (hs : w.publish id t outcome T = some w') : Leaves w' := by
  have hstopped : T.state ≠ .stopped := by
    rw [hstate]
    exact nofun
  obtain ⟨hdone, ⟨hist, result, -, -, rfl⟩ | ⟨-, rfl⟩⟩ := publish_cases hs
  · have hset := (h.task hT).setState (.returned result) (fun _ => hstopped) fun _ => hdone
    exact h.move hT rfl hw hset fun _ _ _ _ hd => hd
  · have hset := (h.task hT).setState (.returned false) (fun _ => hstopped) fun _ => hdone
    exact h.move hT rfl hw hset fun _ _ _ _ hd => hd

theorem step (h : Leaves w) {a : Action} (hok : w.Distinct a) {w' : World}
    (hs : w.step a = some w') : Leaves w' := by
  have hw := h.tracked.step hok.fewTickets hs
  cases a with
  | create ps rc =>
    obtain ⟨hist, -, rfl⟩ := step_create_hist hs
    exact ⟨hw, h.fresh, h.task⟩
  | clone id version =>
    obtain ⟨hist, -, rfl⟩ := step_clone_hist hs
    exact ⟨hw, h.fresh, h.task⟩
  | ticket range append adv => exact h.ticket hok hw hs
  | put id t i outcome =>
    obtain ⟨T, hT, hs⟩ := step_put hs
    exact h.put hT hw hs
  | get id t i =>
    obtain ⟨T, hT, -, hs⟩ := step_get hs
    obtain ⟨isLeft, q, -, rfl⟩ := endGet_cases hs
    exact h.move hT rfl hw ((h.task hT).endGet i isLeft q (w.dht q)) fun _ _ _ _ hd => hd
  | wait id t =>
    obtain ⟨T, hT, hstate, hs⟩ := step_wait hs
    obtain ⟨writer, hwait, rfl⟩ := endWait_cases hs
    exact h.move hT (Task.settle_eq _).1 hw (((h.task hT).endWait hstate hwait).settle hstate)
      fun _ _ _ _ hd => hd
  | publish id t outcome =>
    obtain ⟨T, hT, hstate, hs⟩ := step_send hs
    exact h.publish hT hstate hw hs
  | stop id t =>
    obtain ⟨T, hT, -, rfl⟩ := step_stop hs
    refine h.move hT rfl hw ?_ fun _ _ _ _ hd => hd
    exact (h.task hT).setState _ (fun hne => absurd rfl hne) nofun

theorem of_run {as : List Action} (hrun : Run World.step World.Distinct {} as w) : Leaves w :=
  hrun.inv (fun hs hok hstep => hs.step hok hstep) .empty

end Leaves

/-- **The leaves of a write.** The page keys and the leaves of a write that returned `true` are in
the DHT. -/
theorem leaves_of_returned {w : World} {as : List Action}
    (hrun : Run World.step World.Distinct {} as w) {id t : Nat} {T : Task}
    (hT : (w.tasks id)[t]? = some T) (hret : T.state = .returned true) :
    ∀ e ∈ T.leafEntries, w.dht e.1 = some e.2 := by
  have h := Leaves.of_run hrun
  obtain ⟨hstage, hresult⟩ := (h.task hT).returned hret
  intro e he
  rcases (h.task hT).placed (by rw [hret]; exact nofun) hresult e he with hd | ⟨hs, -⟩
  · exact hd
  · exact nomatch hs.symm.trans hstage

end World

end BlobSeer
