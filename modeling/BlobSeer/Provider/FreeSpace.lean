import Mathlib.Algebra.Order.BigOperators.Group.Finset
import BlobSeer.Provider.NullStore

/-!
# The free space of a provider (`null_bw_map.cpp`, `bdb_bw_map.cpp`)

Both stores count down `space_left` by the size of every value they take, and neither looks at what
the value replaces. Over the calls that have returned, this is one ledger for the two of them. The
count is right in the whole run of a store exactly when no write that would fit replaces anything that
takes up space.
-/

namespace BlobSeer

open Lib (Run exec)

/-- The size of the value of a key. -/
def currentSize (log : List BdbReturn) (key : Buffer) : Nat :=
  ((lastTrue log key).getD []).length

/-- The space that the values of all keys take up. -/
def used (log : List BdbReturn) : Nat := ∑ key ∈ acceptedKeys log, currentSize log key

theorem currentSize_of_notMem {log : List BdbReturn} {key : Buffer} (h : key ∉ acceptedKeys log) :
    currentSize log key = 0 := by
  have hnone : lastTrue log key = none := by
    rw [mem_acceptedKeys] at h
    exact Option.eq_none_iff_forall_ne_some.mpr fun v hv => h ⟨v, hv⟩
  rw [currentSize, hnone]
  rfl

theorem currentSize_le_used (log : List BdbReturn) (key : Buffer) :
    currentSize log key ≤ used log := by
  by_cases hkey : key ∈ acceptedKeys log
  · exact Finset.single_le_sum (fun _ _ => Nat.zero_le _) hkey
  · rw [currentSize_of_notMem hkey]
    exact Nat.zero_le _

theorem currentSize_write (log : List BdbReturn) (key value k : Buffer) :
    currentSize (.write key value true :: log) k =
      if k = key then value.length else currentSize log k := by
  rw [currentSize, lastTrue]
  by_cases hk : k = key
  · rw [if_pos hk.symm, if_pos hk]
    rfl
  · rw [if_neg (Ne.symm hk), if_neg hk]
    rfl

/-- A value that is written takes the place of the one before it. -/
theorem used_write (log : List BdbReturn) (key value : Buffer) :
    used (.write key value true :: log) + currentSize log key = used log + value.length := by
  have hsame : ∑ k ∈ (acceptedKeys log).erase key, currentSize (.write key value true :: log) k =
      ∑ k ∈ (acceptedKeys log).erase key, currentSize log k := by
    refine Finset.sum_congr rfl fun k hk => ?_
    rw [currentSize_write, if_neg (Finset.ne_of_mem_erase hk)]
  have hnew : used (.write key value true :: log) =
      value.length + ∑ k ∈ (acceptedKeys log).erase key, currentSize log k := by
    rw [used, acceptedKeys, ← Finset.insert_erase (Finset.mem_insert_self key (acceptedKeys log)),
      Finset.erase_insert_eq_erase, Finset.sum_insert (Finset.notMem_erase _ _), hsame,
      currentSize_write, if_pos rfl]
  by_cases hkey : key ∈ acceptedKeys log
  · have hold := Finset.add_sum_erase _ (currentSize log) hkey
    rw [hnew, used, ← hold]
    omega
  · rw [hnew, currentSize_of_notMem hkey, Finset.erase_eq_of_notMem hkey, used]
    omega

/-! ## The ledger -/

/-- Every write that was refused would have made the store exceed `m`. -/
def RefusedRightly (m : Nat) : List BdbReturn → Prop
  | [] => True
  | .write key value false :: log =>
    m < used log - currentSize log key + value.length ∧ RefusedRightly m log
  | _ :: log => RefusedRightly m log

/-- No write that fits in `m` replaces a value of some size, and there are slots when one is made. -/
def NeverReplaces (m : Nat) (slots : Prop) : List BdbReturn → Prop
  | [] => True
  | .write key value _ :: log =>
    (used log - currentSize log key + value.length ≤ m → currentSize log key = 0 ∧ slots) ∧
      NeverReplaces m slots log
  | .read _ _ :: log => NeverReplaces m slots log

/-- What a store says is free, and the calls that have returned. -/
structure Ledger where
  free : Nat
  log : List BdbReturn

namespace Ledger

variable {m : Nat} {slots : Prop} {l l' : Ledger}

/-- The free space is exact, and no write was refused without need. -/
def Accounted (m : Nat) (l : Ledger) : Prop := l.free + used l.log = m ∧ RefusedRightly m l.log

/-- What one step of a store does to its ledger. -/
inductive Posts (slots : Prop) : Ledger → Ledger → Prop
  | none (l : Ledger) : Posts slots l l
  | read (l : Ledger) (key : Buffer) (value : Option Buffer) :
    Posts slots l ⟨l.free, .read key value :: l.log⟩
  | accept (l : Ledger) (key value : Buffer) (hfits : value.length ≤ l.free) (hslots : slots) :
    Posts slots l ⟨l.free - value.length, .write key value true :: l.log⟩
  | refuse (l : Ledger) (key value : Buffer) (h : l.free < value.length ∨ ¬ slots) :
    Posts slots l ⟨l.free, .write key value false :: l.log⟩

theorem Posts.neverReplaces (h : Posts slots l l') (hl : NeverReplaces m slots l'.log) :
    NeverReplaces m slots l.log := by
  cases h with
  | none => exact hl
  | read key value => exact hl
  | accept key value hfits hslots => exact hl.2
  | refuse key value h => exact hl.2

/-- The ledger stays right through a step exactly when the write of that step replaces nothing. -/
theorem Posts.accounted_iff (h : Posts slots l l') (hl : Accounted m l)
    (hnever : NeverReplaces m slots l.log) : Accounted m l' ↔ NeverReplaces m slots l'.log := by
  obtain ⟨hfree, hrefused⟩ := hl
  cases h with
  | none => exact iff_of_true ⟨hfree, hrefused⟩ hnever
  | read key value => exact iff_of_true ⟨hfree, hrefused⟩ hnever
  | accept key value hfits hslots =>
    have hused := used_write l.log key value
    have hcur := currentSize_le_used l.log key
    constructor
    · rintro ⟨hfree', -⟩
      simp only at hfree'
      exact ⟨fun _ => ⟨by omega, hslots⟩, hnever⟩
    · rintro ⟨hzero, -⟩
      have := (hzero (by omega)).1
      exact ⟨by simp only; omega, hrefused⟩
  | refuse key value h =>
    have hcur := currentSize_le_used l.log key
    constructor
    · rintro ⟨-, hexceeds, -⟩
      exact ⟨fun hfits => absurd hfits (Nat.not_le.mpr hexceeds), hnever⟩
    · rintro ⟨hzero, -⟩
      refine ⟨hfree, Nat.lt_of_not_le fun hfits => ?_, hrefused⟩
      obtain ⟨hcur0, hslots⟩ := hzero hfits
      rcases h with hlt | hno
      · omega
      · exact hno hslots

end Ledger

/-! ## Runs -/

section Runs

variable {σ α : Type} (step : σ → α → Option σ) (ledger : σ → Ledger)

/-- The ledger is right in every state of a run. -/
def AlwaysAccounted (m : Nat) (s : σ) (as : List α) : Prop :=
  ∀ bs t, bs <+: as → Run step (fun _ _ => True) s bs t → (ledger t).Accounted m

variable {step ledger} {m : Nat} {slots : Prop} {Inv : σ → Prop}

theorem neverReplaces_of_run
    (hposts : ∀ {s t a}, Inv s → step s a = some t → Inv t ∧ (ledger s).Posts slots (ledger t))
    {s t : σ} {as : List α} (hrun : Run step (fun _ _ => True) s as t) (hs : Inv s)
    (ht : NeverReplaces m slots (ledger t).log) : NeverReplaces m slots (ledger s).log := by
  induction hrun with
  | nil s => exact ht
  | cons hok hstep hrun ih =>
    obtain ⟨hinv, hpost⟩ := hposts hs hstep
    exact hpost.neverReplaces (ih hinv ht)

theorem alwaysAccounted_iff
    (hposts : ∀ {s t a}, Inv s → step s a = some t → Inv t ∧ (ledger s).Posts slots (ledger t))
    {s t : σ} {as : List α} (hrun : Run step (fun _ _ => True) s as t) (hs : Inv s)
    (hacc : (ledger s).Accounted m) (hnever : NeverReplaces m slots (ledger s).log) :
    AlwaysAccounted step ledger m s as ↔ NeverReplaces m slots (ledger t).log := by
  induction hrun with
  | nil s =>
    refine iff_of_true (fun bs t hbs hrun => ?_) hnever
    rw [List.prefix_nil] at hbs
    subst hbs
    cases hrun
    exact hacc
  | @cons s u t a as hok hstep hrun ih =>
    obtain ⟨hinv, hpost⟩ := hposts hs hstep
    have hiff := hpost.accounted_iff hacc hnever
    constructor
    · intro hall
      have hu : (ledger u).Accounted m :=
        hall [a] u (List.prefix_append _ _) (.single trivial hstep)
      refine (ih hinv hu (hiff.mp hu)).mp fun bs t hbs hbs' => ?_
      exact hall (a :: bs) t ((List.prefix_cons_inj a).mpr hbs) (.cons trivial hstep hbs')
    · intro hend bs v hbs hrun'
      have hu : NeverReplaces m slots (ledger u).log := neverReplaces_of_run hposts hrun hinv hend
      cases hrun' with
      | nil => exact hacc
      | cons hok' hstep' hrun' =>
        obtain ⟨rfl, hpre⟩ := List.cons_prefix_cons.mp hbs
        rw [hstep] at hstep'
        cases hstep'
        exact (ih hinv (hiff.mpr hu) hu).mpr hend _ _ hpre hrun'

end Runs

/-! ## The two stores -/

/-- What `get_free` says, and the calls. -/
def NullBwMap.Raw.ledger (s : NullBwMap.Raw) : Ledger := ⟨s.getFree, s.log⟩

theorem NullBwMap.Raw.posts {s t : NullBwMap.Raw} {call : NullBwMap.Raw.Call}
    (h : s.step call = some t) : s.ledger.Posts True t.ledger := by
  cases call with
  | read key =>
    cases h
    exact .read s.ledger key (s.read key).1
  | write key value =>
    cases h
    unfold write
    split
    · exact .refuse s.ledger key value (.inl ‹_›)
    · exact .accept s.ledger key value (Nat.not_lt.mp ‹_›) trivial

namespace BdbBwMap

/-- `bdb_bw_map::get_free`. -/
def getFree (s : BdbBwMap) : Nat := s.spaceLeft

/-- What `get_free` says, and the calls that have returned. -/
def ledger (s : BdbBwMap) : Ledger := ⟨s.getFree, s.log⟩

/-- A call that has still to pass on an evicted entry has stored its value, which fits. -/
structure Counts (slots : Prop) (s : BdbBwMap) : Prop where
  ok : s.bufferWrapperCache.Ok
  slots_iff : slots ↔ s.bufferWrapperCache.mSize ≠ 0
  evicting : ∀ entry ret, s.call = .evicting entry ret →
    (∃ key value, ret = .write key value true ∧ value.length ≤ s.spaceLeft ∧ slots) ∨
      ∃ key value, ret = .read key value

variable {slots : Prop} {s t : BdbBwMap}

/-- The cache takes the entry if it has any slots; the call returns, or has still to pass on an
evicted entry. -/
theorem cacheWrite_cases (hok : s.bufferWrapperCache.Ok) (key value : Buffer) (dirty : Bool)
    (ret : Bool → BdbReturn) :
    ∃ ok cache, cache.Ok ∧ cache.mSize = s.bufferWrapperCache.mSize ∧
      (ok = true ↔ s.bufferWrapperCache.mSize ≠ 0) ∧
      (s.cacheWrite key value dirty ret =
          { s with bufferWrapperCache := cache }.doReturn (ret ok) ∨
        ok = true ∧ ∃ entry, s.cacheWrite key value dirty ret =
          { s with bufferWrapperCache := cache, call := .evicting entry (ret ok) }) := by
  have hwrite := hok.write key value dirty
  unfold cacheWrite
  obtain ⟨h0, -, hw⟩ | ⟨hroom, hw⟩ | ⟨ek, ks, hks, -, hfull, hw⟩ :=
    hok.write_cases key value dirty
  · rw [hw] at hwrite ⊢
    exact ⟨false, _, hwrite, rfl, by simp [h0], .inl rfl⟩
  · rw [hw] at hwrite ⊢
    have hslots : s.bufferWrapperCache.mSize ≠ 0 := by
      rcases hroom with hmem | hlt
      · exact hok.mSize_ne_zero hmem
      · omega
    exact ⟨true, _, hwrite, rfl, by simp [hslots], .inl rfl⟩
  · rw [hw] at hwrite ⊢
    have hek : ek ∈ s.bufferWrapperCache.keys :=
      (hok.same ek).mp (by rw [hks]; exact List.mem_cons_self)
    have hslots : s.bufferWrapperCache.mSize ≠ 0 := hok.mSize_ne_zero hek
    cases hd : s.bufferWrapperCache.dirtyEntry ek with
    | none => exact ⟨true, _, hwrite, rfl, by simp [hslots], .inl rfl⟩
    | some entry => exact ⟨true, _, hwrite, rfl, by simp [hslots], .inr ⟨rfl, entry, rfl⟩⟩

theorem Counts.idle (h : s.Counts slots) (ht : t.bufferWrapperCache.Ok)
    (hsize : t.bufferWrapperCache.mSize = s.bufferWrapperCache.mSize)
    (hcall : ∀ entry ret, t.call ≠ .evicting entry ret) : t.Counts slots where
  ok := ht
  slots_iff := hsize ▸ h.slots_iff
  evicting entry ret hev := absurd hev (hcall entry ret)

theorem Counts.write (h : s.Counts slots) (key value : Buffer) :
    (s.write key value).Counts slots ∧ s.ledger.Posts slots (s.write key value).ledger := by
  unfold BdbBwMap.write
  split
  · exact ⟨h.idle h.ok rfl nofun, .refuse s.ledger key value (.inl ‹_›)⟩
  · rename_i hfits
    obtain ⟨ok, cache, hcache, hsize, hok, heq | ⟨rfl, entry, heq⟩⟩ :=
      cacheWrite_cases h.ok key value true (.write key value)
    · rw [heq]
      refine ⟨h.idle hcache hsize nofun, ?_⟩
      cases ok with
      | false =>
        have hno : ¬ slots := fun hs => absurd (hok.mpr (h.slots_iff.mp hs)) Bool.false_ne_true
        exact .refuse s.ledger key value (.inr hno)
      | true =>
        exact .accept s.ledger key value (Nat.not_lt.mp hfits) (h.slots_iff.mpr (hok.mp rfl))
    · rw [heq]
      refine ⟨⟨hcache, hsize ▸ h.slots_iff, ?_⟩, .none s.ledger⟩
      rintro _ _ ⟨⟩
      exact .inl ⟨key, value, rfl, Nat.not_lt.mp hfits, h.slots_iff.mpr (hok.mp rfl)⟩

theorem Counts.read (h : s.Counts slots) (key : Buffer) :
    (s.read key).Counts slots ∧ s.ledger.Posts slots (s.read key).ledger := by
  have hsize : (s.bufferWrapperCache.read CacheMtLRU.policy key).2.mSize =
      s.bufferWrapperCache.mSize := by
    unfold CacheMt.read
    split <;> rfl
  obtain ⟨e, -, heq⟩ | ⟨-, heq⟩ := read_cases s key
  · rw [heq]
    refine ⟨h.idle (h.ok.read key) hsize ?_, .read s.ledger key (some e.1)⟩
    rintro _ _ ⟨⟩
  · rw [heq]
    refine ⟨h.idle (h.ok.read key) hsize ?_, .none s.ledger⟩
    rintro _ _ ⟨⟩

theorem Counts.resume (h : s.Counts slots) (hstep : s.resume = some t) :
    t.Counts slots ∧ s.ledger.Posts slots t.ledger := by
  obtain ⟨key, hc, -, rfl⟩ | ⟨key, value, hc, -, rfl⟩ | ⟨key, value, hc, rfl⟩ |
    ⟨entry, ret, hc, rfl⟩ := resume_cases hstep
  · exact ⟨h.idle h.ok rfl nofun, .read s.ledger key none⟩
  · exact ⟨h.idle h.ok rfl nofun, .none s.ledger⟩
  · obtain ⟨ok, cache, hcache, hsize, -, heq | ⟨-, entry, heq⟩⟩ := cacheWrite_cases h.ok key value
      false fun ok => .read key (if ok then some value else none)
    · rw [heq]
      exact ⟨h.idle hcache hsize nofun, .read s.ledger key _⟩
    · rw [heq]
      refine ⟨⟨hcache, hsize ▸ h.slots_iff, ?_⟩, .none s.ledger⟩
      rintro _ _ ⟨⟩
      exact .inr ⟨key, _, rfl⟩
  · refine ⟨h.idle h.ok rfl nofun, ?_⟩
    rcases h.evicting entry ret hc with ⟨key, value, rfl, hfits, hslots⟩ | ⟨key, value, rfl⟩
    · exact .accept s.ledger key value hfits hslots
    · exact .read s.ledger key value

theorem spaceLeft_writeExec (h : s.writeExec = some t) : t.spaceLeft = s.spaceLeft := by
  unfold writeExec at h
  split at h <;> cases h <;> rfl

theorem Counts.writeExec (h : s.Counts slots) (hstep : s.writeExec = some t) :
    t.Counts slots ∧ s.ledger.Posts slots t.ledger := by
  obtain ⟨-, hcache, hcall, hlog⟩ := writeExec_spec hstep
  have hspace := spaceLeft_writeExec hstep
  refine ⟨⟨hcache ▸ h.ok, hcache ▸ h.slots_iff, ?_⟩, ?_⟩
  · rw [hcall, hspace]
    exact h.evicting
  · have hledger : t.ledger = s.ledger := by
      rw [ledger, ledger, getFree, getFree, hspace, hlog]
    rw [hledger]
    exact .none s.ledger

theorem Counts.step {a : Action} (h : s.Counts slots) (hstep : s.step a = some t) :
    t.Counts slots ∧ s.ledger.Posts slots t.ledger := by
  unfold BdbBwMap.step at hstep
  cases a with
  | write key value =>
    obtain ⟨-, ⟨⟩⟩ := Option.ite_none_right_eq_some.mp hstep
    exact h.write key value
  | read key =>
    obtain ⟨-, ⟨⟩⟩ := Option.ite_none_right_eq_some.mp hstep
    exact h.read key
  | resume => exact h.resume hstep
  | writeExec => exact h.writeExec hstep

end BdbBwMap

/-- In every run of either store the free space is exact and no write is refused without need, up to
the first write that would fit in place of a value of some size, or that the persistent store refuses
because its cache has no slots. -/
theorem space_accounting (m cacheSize : Nat) :
    (∀ calls s, Run NullBwMap.Raw.step (fun _ _ => True) (.new cacheSize m) calls s →
      (AlwaysAccounted NullBwMap.Raw.step NullBwMap.Raw.ledger m (.new cacheSize m) calls ↔
        NeverReplaces m True s.log)) ∧
    ∀ db actions s, Run BdbBwMap.step (fun _ _ => True) (.new db (u32 cacheSize) m) actions s →
      (AlwaysAccounted BdbBwMap.step BdbBwMap.ledger m (.new db (u32 cacheSize) m) actions ↔
        NeverReplaces m (u32 cacheSize ≠ 0) s.log) := by
  have hempty : Ledger.Accounted m ⟨m, []⟩ := ⟨rfl, trivial⟩
  constructor
  · intro calls s hrun
    have hposts : ∀ {s t : NullBwMap.Raw} {a}, True → s.step a = some t →
        True ∧ s.ledger.Posts True t.ledger := fun _ hstep => ⟨trivial, NullBwMap.Raw.posts hstep⟩
    exact alwaysAccounted_iff hposts hrun trivial hempty trivial
  · intro db actions s hrun
    have hcounts : (BdbBwMap.new db (u32 cacheSize) m).Counts (u32 cacheSize ≠ 0) :=
      ⟨(BdbBwMap.inv_new db (u32 cacheSize) m).ok, Iff.rfl, nofun⟩
    exact alwaysAccounted_iff (fun h hstep => h.step hstep) hrun hcounts hempty trivial

/-- Two pages in either store; the second one does not fit any more. -/
theorem space_accounting_once :
    AlwaysAccounted NullBwMap.Raw.step NullBwMap.Raw.ledger 4 (.new 1 4)
        [.write [1] [5, 6, 7], .write [2] [8, 9]] ∧
      AlwaysAccounted BdbBwMap.step BdbBwMap.ledger 4 (.new (fun _ => none) (u32 1) 4)
        [.write [1] [5, 6, 7], .write [2] [8, 9]] := by
  refine ⟨((space_accounting 4 1).1 _ _ (.cons trivial rfl (.cons trivial rfl (.nil _)))).mpr ?_,
    ((space_accounting 4 1).2 _ _ _ (.cons trivial rfl (.cons trivial rfl (.nil _)))).mpr ?_⟩
  · exact ⟨fun hfits => absurd hfits (by decide), fun _ => ⟨by decide, trivial⟩, trivial⟩
  · exact ⟨fun hfits => absurd hfits (by decide), fun _ => ⟨by decide, by decide⟩, trivial⟩

/-! ## A page that is written twice -/

/-- The same page, put twice, is counted twice. -/
theorem space_accounting_twice :
    ¬ AlwaysAccounted NullBwMap.Raw.step NullBwMap.Raw.ledger 10 (.new 1 10)
      [.write [1] [5, 6, 7], .write [1] [5, 6, 7]] := by
  intro h
  have hrun : Run NullBwMap.Raw.step (fun _ _ => True) (.new 1 10)
      [.write [1] [5, 6, 7], .write [1] [5, 6, 7]] _ :=
    .cons trivial rfl (.cons trivial rfl (.nil _))
  have hexact := (h _ _ (List.prefix_refl _) hrun).1
  exact absurd hexact (by decide)

end BlobSeer
