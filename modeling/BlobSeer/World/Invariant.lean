import BlobSeer.World.Snapshot

/-!
# The invariant of the whole system

`World.Inv` holds in every state of every run of page-aligned tickets (`World.inv_step`): every
blob has its tickets (`BlobInv`), every entry of the DHT was put by one write and its key belongs
to no other (`owner`), every writer has its invariant, and a version is published only after its
write is complete. Two consequences carry the results about snapshots: DHT keys are never
overwritten (`World.Inv.put_le`), and every published root stands for the page map of its version
(`World.Inv.root_denotes`).
-/

namespace BlobSeer

open Lib
open VManagement (assigned grow ticket newRoot publishObj rootAt)

/-- The entries of a write that are or may be in the DHT. -/
def Task.Entry (T : Task) (k : Query) (v : DhtVal) : Prop :=
  T.LeafEntry k v ∨
    T.writer.stage ≠ .leaves ∧ T.InnerEntry T.writer.leftSiblings T.writer.rightSiblings k v

theorem Task.Entry.key {T : Task} {k : Query} {v : DhtVal} (h : T.Entry k v) :
    k.id = T.query.id ∧ (k.version = T.query.version ∨ k.version = T.pageVersion) := by
  rcases h with h | ⟨-, h⟩
  · exact h.key
  · exact ⟨h.key.1, .inl h.key.2⟩

theorem Task.Entry.unique {T : Task} (hs : T.Shape) {k : Query} {v v' : DhtVal}
    (h : T.Entry k v) (h' : T.Entry k v') : v = v' := by
  rcases h with h | ⟨-, h⟩ <;> rcases h' with h' | ⟨-, h'⟩
  · exact h.unique hs h'
  · exact (h'.not_leaf hs h).elim
  · exact (h.not_leaf hs h').elim
  · exact h.unique hs h'

namespace World

/-- The tickets of a blob, in order. -/
def tickets (w : World) (id : Nat) : List Ticket := (w.tasks id).map Task.toTicket

structure Inv (seq : Nat → Bool) (base : Nat → PageMap) (w : World) : Prop where
  run : ∃ reqs, Run VmHistory.step (TicketOk seq) {} reqs w.hist
  blob : ∀ {id : Nat} {o : ObjInfo}, w.hist.vm.objHash id = some o →
    BlobInv seq w.dht (base id) id o (w.hist.issued id) (w.hist.published id) (w.tickets id)
  noBlob : ∀ {id : Nat}, w.hist.vm.objHash id = none → w.tasks id = []
  fresh : ∀ {id t t' : Nat} {K K' : Ticket}, (w.tickets id)[t]? = some K →
    (w.tickets id)[t']? = some K' → t ≠ t' →
    K.pageVersion ≠ K'.pageVersion ∧ K.pageVersion ≠ K'.query.version
  owner : ∀ {k : Query} {v : DhtVal}, w.dht k = some v →
    ∃ (t : Nat) (T : Task), (w.tasks k.id)[t]? = some T ∧ T.Entry k v
  task : ∀ {id t : Nat} {T : Task}, (w.tasks id)[t]? = some T →
    WriterInv w.dht (snapshotAt (base id) (w.tickets id) T.stableVersion) T.toTicket T.writer
  published : ∀ {id t : Nat}, t + 1 ∈ w.hist.published id →
    ∃ T : Task, (w.tasks id)[t]? = some T ∧ T.writer.stage = .done ∧ T.writer.result = true

theorem tickets_at {w : World} {id t : Nat} {T : Task} (h : (w.tasks id)[t]? = some T) :
    (w.tickets id)[t]? = some T.toTicket := by
  rw [tickets, List.getElem?_map, h]
  rfl

theorem inv_empty (seq : Nat → Bool) : Inv seq (fun _ _ => none) {} where
  run := ⟨[], .nil _⟩
  blob h := by cases h
  noBlob _ := rfl
  fresh h := by cases h
  owner h := by cases h
  task h := by cases h
  published h := by cases h

namespace Inv

variable {seq : Nat → Bool} {base : Nat → PageMap} {w : World}

/-- A task belongs to a blob. -/
theorem blob_of_task (h : Inv seq base w) {id t : Nat} {T : Task}
    (hT : (w.tasks id)[t]? = some T) : ∃ o, w.hist.vm.objHash id = some o ∧
      TicketInfo id o (w.tickets id) t T.toTicket := by
  cases ho : w.hist.vm.objHash id with
  | none =>
    rw [h.noBlob ho] at hT
    cases hT
  | some o => exact ⟨o, rfl, (h.blob ho).info (tickets_at hT)⟩

theorem noZero (h : Inv seq base w) : NoZero w.dht := by
  intro k hk
  by_contra hne
  obtain ⟨v, hv⟩ := Option.ne_none_iff_exists'.1 hne
  obtain ⟨t, T, hT, -⟩ := h.owner hv
  obtain ⟨o, ho, -⟩ := h.blob_of_task hT
  have := (h.blob ho).id_pos
  omega

/-- Two writes have no key in common. -/
theorem entry_task (h : Inv seq base w) {id t t' : Nat} {T T' : Task}
    (hT : (w.tasks id)[t]? = some T) (hT' : (w.tasks id)[t']? = some T') {k : Query}
    {v v' : DhtVal} (he : T.Entry k v) (he' : T'.Entry k v') : t = t' := by
  by_contra hne
  obtain ⟨o, -, hi⟩ := h.blob_of_task hT
  obtain ⟨o', -, hi'⟩ := h.blob_of_task hT'
  have hf := h.fresh (tickets_at hT) (tickets_at hT') hne
  have hf' := h.fresh (tickets_at hT') (tickets_at hT) (Ne.symm hne)
  have hv : T.query.version ≠ T'.query.version := by
    rw [hi.version, hi'.version]
    omega
  rcases he.key.2 with h1 | h1 <;> rcases he'.key.2 with h2 | h2
  · exact hv (h1.symm.trans h2)
  · exact hf'.2 (h2.symm.trans h1)
  · exact hf.2 (h1.symm.trans h2)
  · exact hf.1 (h1.symm.trans h2)

/-- A queued put does not overwrite anything. -/
theorem put_le (h : Inv seq base w) {id t : Nat} {T : Task} (hT : (w.tasks id)[t]? = some T)
    {k : Query} {v : DhtVal} (hput : (k, v) ∈ T.writer.puts) :
    DhtLe w.dht (Function.update w.dht k (some v)) := by
  intro k' v' hv'
  by_cases hk : k' = k
  · subst hk
    rw [Function.update_self]
    obtain ⟨t', T', hT', he'⟩ := h.owner hv'
    have he : T.Entry k' v := (h.task hT).put_entry hput
    obtain ⟨o, -, hi⟩ := h.blob_of_task hT
    rw [he.key.1, hi.id_eq] at hT'
    have htt := h.entry_task hT hT' he he'
    subst htt
    rw [hT] at hT'
    cases hT'
    rw [he.unique hi.shape he']
  · rw [Function.update_of_ne hk]
    exact hv'

/-- The writes of the tickets below a published version are complete. -/
theorem complete (h : Inv seq base w) {id : Nat} {o : ObjInfo}
    (ho : w.hist.vm.objHash id = some o) {v : Nat} (hv : v < o.roots.length) {t : Nat} {K : Ticket}
    (ht : t < v) (hK : (w.tickets id)[t]? = some K) :
    Complete w.dht (snapshotAt (base id) (w.tickets id) K.stableVersion) K := by
  have hpub := (h.blob ho).blob.window.pending.retired (k := t + 1) (by omega) (by omega)
  obtain ⟨T, hT, hs, hr⟩ := h.published hpub
  have hK' := tickets_at hT
  rw [hK] at hK'
  cases hK'
  exact ⟨T.writer, h.task hT, hs, hr⟩

/-- Every published root stands for the page map of its version. -/
theorem root_denotes (h : Inv seq base w) {id : Nat} {o : ObjInfo}
    (ho : w.hist.vm.objHash id = some o) {v : Nat} {r : Root} (hr : o.roots[v]? = some r) :
    RootDenotes w.dht o.pageSize (snapshotAt (base id) (w.tickets id) v) r :=
  (h.blob ho).root_denotes hr fun _ _ ht hK =>
    h.complete ho (List.getElem?_eq_some_iff.1 hr).1 ht hK

end Inv

/-! ## Steps of a writer -/

theorem tickets_set {w : World} {id t : Nat} {T T' : Task} (hT : (w.tasks id)[t]? = some T)
    (hk : T'.toTicket = T.toTicket) (i : Nat) :
    (Function.update w.tasks id ((w.tasks id).set t T') i).map Task.toTicket = w.tickets i := by
  by_cases hi : i = id
  · subst hi
    obtain ⟨hlt, hget⟩ := List.getElem?_eq_some_iff.1 hT
    rw [Function.update_self, List.map_set, hk, tickets]
    refine List.ext_getElem? fun n => ?_
    rw [List.getElem?_set]
    split
    · rename_i hn
      subst hn
      rw [if_pos (by simpa using hlt), List.getElem?_map, hT]
      rfl
    · rfl
  · rw [Function.update_of_ne hi]
    rfl

theorem tasks_set {w : World} {id t i n : Nat} {T T' S : Task} (hT : (w.tasks id)[t]? = some T)
    (hS : (Function.update w.tasks id ((w.tasks id).set t T') i)[n]? = some S) :
    i = id ∧ n = t ∧ S = T' ∨ (w.tasks i)[n]? = some S ∧ ¬ (i = id ∧ n = t) := by
  by_cases hi : i = id
  · subst hi
    rw [Function.update_self, List.getElem?_set] at hS
    split at hS
    · rename_i hn
      split at hS
      · cases hS
        exact .inl ⟨rfl, hn.symm, rfl⟩
      · cases hS
    · rename_i hn
      exact .inr ⟨hS, fun h => hn h.2.symm⟩
  · rw [Function.update_of_ne hi] at hS
    exact .inr ⟨hS, fun h => hi h.1⟩

theorem setTask_length (w : World) (id t : Nat) (T : Task) (i : Nat) :
    ((w.setTask id t T).tasks i).length = (w.tasks i).length := by
  show (Function.update w.tasks id _ i).length = _
  by_cases hi : i = id
  · subst hi
    rw [Function.update_self, List.length_set]
  · rw [Function.update_of_ne hi]

theorem tasks_set_self {w : World} {id t : Nat} {T T' : Task} (hT : (w.tasks id)[t]? = some T) :
    (Function.update w.tasks id ((w.tasks id).set t T') id)[t]? = some T' := by
  have hlt := (List.getElem?_eq_some_iff.1 hT).1
  rw [Function.update_self, List.getElem?_set, if_pos rfl, if_pos hlt]

theorem tasks_set_other {w : World} {id t i n : Nat} {T' S : Task} (hS : (w.tasks i)[n]? = some S)
    (hne : ¬ (i = id ∧ n = t)) :
    (Function.update w.tasks id ((w.tasks id).set t T') i)[n]? = some S := by
  by_cases hi : i = id
  · subst hi
    rw [Function.update_self, List.getElem?_set, if_neg fun h => hne ⟨rfl, h.symm⟩]
    exact hS
  · rw [Function.update_of_ne hi]
    exact hS

/-- A step of one writer: its ticket stays, its entries stay, and what is new in the DHT is one of
them. -/
theorem Inv.move {seq : Nat → Bool} {base : Nat → PageMap} {w : World} (h : Inv seq base w)
    {id t : Nat} {T T' : Task} {dht : Dht} (hT : (w.tasks id)[t]? = some T)
    (hk : T'.toTicket = T.toTicket) (hle : DhtLe w.dht dht)
    (hnew : ∀ {k v}, dht k = some v → w.dht k = some v ∨ T'.Entry k v)
    (hentry : ∀ {k v}, T.Entry k v → T'.Entry k v)
    (hinv : WriterInv dht (snapshotAt (base id) (w.tickets id) T.stableVersion) T.toTicket
      T'.writer)
    (hdone : T.writer.stage = .done ∧ T.writer.result = true →
      T'.writer.stage = .done ∧ T'.writer.result = true) :
    Inv seq base { w.setTask id t T' with dht := dht } := by
  have htickets : ∀ i, World.tickets { w.setTask id t T' with dht := dht } i = w.tickets i :=
    tickets_set hT hk
  obtain ⟨o, -, hi⟩ := h.blob_of_task hT
  constructor
  · exact h.run
  · intro i o ho
    have hb := h.blob ho
    rw [htickets]
    exact ⟨hb.blob, hb.id_pos, hb.issued_eq, hb.info, hb.seqTicket,
      fun hr => (hb.base hr).mono hle⟩
  · intro i ho
    have hnil := h.noBlob ho
    have hi : i ≠ id := fun e => by
      rw [← e, hnil] at hT
      cases hT
    exact (Function.update_of_ne hi _ _).trans hnil
  · intro i n n' K K' hK hK'
    rw [htickets] at hK hK'
    exact h.fresh hK hK'
  · intro k v hv
    rcases hnew hv with hv | he
    · obtain ⟨n, S, hS, he⟩ := h.owner hv
      by_cases hsame : k.id = id ∧ n = t
      · obtain ⟨h1, h2⟩ := hsame
        rw [h1, h2, hT] at hS
        cases hS
        refine ⟨t, T', ?_, hentry he⟩
        rw [h1]
        exact tasks_set_self hT
      · exact ⟨n, S, tasks_set_other hS hsame, he⟩
    · refine ⟨t, T', ?_, he⟩
      rw [he.key.1, hk, hi.id_eq]
      exact tasks_set_self hT
  · intro i n S hS
    rw [htickets]
    rcases tasks_set hT hS with ⟨rfl, rfl, rfl⟩ | ⟨hS, -⟩
    · rw [hk]
      exact hinv
    · exact (h.task hS).mono hle
  · intro i n hpub
    obtain ⟨S, hS, hd⟩ := h.published hpub
    by_cases hsame : i = id ∧ n = t
    · obtain ⟨rfl, rfl⟩ := hsame
      rw [hT] at hS
      cases hS
      exact ⟨T', tasks_set_self hT, hdone hd⟩
    · exact ⟨S, tasks_set_other hS hsame, hd⟩

/-- A step that changes nothing but the state of an `exec_write`. -/
theorem Inv.setState {seq : Nat → Bool} {base : Nat → PageMap} {w : World} (h : Inv seq base w)
    {id t : Nat} {T : Task} (hT : (w.tasks id)[t]? = some T) (state : ExecState) :
    Inv seq base (w.setTask id t { T with state := state }) :=
  h.move hT rfl (DhtLe.refl _) .inl (fun he => he) (h.task hT) (fun hd => hd)

end World

end BlobSeer
