import BlobSeer.Client.Handler
import BlobSeer.RangeQuery.Basic

/-!
# Reading a range (`object_handler::read`)

`read` looks up the leaves of the pages that the range touches, and sends a request for each page:
a partial one for an unaligned left end, a partial one for an unaligned right end, and whole pages in
between. A request goes to a random provider of the page; `rpc_provider_callback` tries the next one
when it fails. The answers go directly into the caller's buffer.
-/

namespace BlobSeer

/-- A parameter of a request to a provider, before it is serialized. -/
inductive ReadParam where
  | key (q : Query)
  | num (n : Nat)
deriving DecidableEq, Repr

/-- A request of `read`: the leaf it is for, the offset and the size of a `PROVIDER_READ_PARTIAL`
(`none` for a `PROVIDER_READ`), where in the buffer the answer goes, and the size with which the
`buffer_wrapper` for the answer is made. -/
structure PageRead where
  leaf : Nat
  part : Option (Nat × Nat)
  dest : Nat
  len : Nat
deriving DecidableEq, Repr

/-- `size()` of the `buffer_wrapper` for the answer, an `unsigned int`. -/
def PageRead.bufferSize (r : PageRead) : Nat := u32 r.len

/-- `read_params` of the first request for a page. -/
def PageRead.params (r : PageRead) (key : Query) : List ReadParam :=
  match r.part with
  | none => [.key key]
  | some (offset, size) => [.key key, .num offset, .num size]

/-! ## The plan -/

section plan

variable (psize offset size : Nat)

/-- `new_offset`: the start of the first page. -/
def newOffset : Nat := offset / psize * psize

/-- `nbr_vadv`: the number of pages. -/
def leafCount : Nat :=
  u64 (sub64 (u64 (size + offset)) (newOffset psize offset) / psize +
    if u64 (offset + size) % psize = 0 then 0 else 1)

def leftPart : Nat := (psize - offset % psize) % psize

def rightPart : Nat := u64 (offset + size) % psize

/-- `l` after the unaligned left end. -/
def leftCount : Nat := if offset % psize ≠ 0 then 1 else 0

/-- Whether the last page is read in part. -/
def readsRight : Bool :=
  let r := u32 (leafCount psize offset size)
  decide ((u64 (offset + size) % psize ≠ 0 ∧ r > 1) ∨ (offset % psize = 0 ∧ size < psize))

/-- `r` after the unaligned right end: a 32-bit counter. -/
def rightEnd : Nat :=
  let r := u32 (leafCount psize offset size)
  if readsRight psize offset size then u32 (r + (2 ^ 32 - 1)) else r

/-- The place of leaf `i` in the buffer. -/
def leafDest (i : Nat) : Nat :=
  leftPart psize offset + u32 (i + 2 ^ 32 - leftCount psize offset) * psize

/-- The requests of a read, in the order in which they are made. -/
def readPlan : List PageRead :=
  (if offset % psize ≠ 0 then
    let len := if leftPart psize offset < size then leftPart psize offset else size
    [{ leaf := 0, part := some (psize - leftPart psize offset, len), dest := 0, len := len }]
  else []) ++
  (if readsRight psize offset size then
    let r := rightEnd psize offset size
    let len := rightPart psize offset size
    [{ leaf := r, part := some (0, len), dest := leafDest psize offset r, len := len }]
  else []) ++
  (List.range' (leftCount psize offset)
      (rightEnd psize offset size - leftCount psize offset)).map fun i =>
    { leaf := i, part := none, dest := leafDest psize offset i, len := psize }

end plan

/-- `range`, the pages of a read. -/
def readRange (root : Root) (offset size : Nat) : Query :=
  ⟨root.node.id, root.node.version, newOffset root.pageSize offset,
    u64 (leafCount root.pageSize offset size * root.pageSize)⟩

/-! ## The requests -/

/-- `provider_desc::empty`. -/
def ProviderDesc.empty (p : ProviderDesc) : Bool := decide (p.host = "" ∧ p.service = "")

/-- `random_select::try_next`, when `rand` returns `rnd`. -/
def RandomSelect.tryNext (leaf : RandomSelect) (rnd : Nat) : ProviderDesc × RandomSelect :=
  if leaf.providers.length = 0 then ({}, leaf)
  else
    let i := rnd % leaf.providers.length
    (leaf.providers.getD i {}, { leaf with providers := leaf.providers.eraseIdx i })

section read

/-- What a provider answers to a request, `true` for a partial one: its only result, unless it
fails. -/
abbrev Answers := ProviderDesc → Bool → List ReadParam → Option (List UInt8)

variable (answers : Answers) (rand : Nat → Nat → Nat)

/-- The request `r` at `adv` with the given parameters, and what `rpc_provider_callback` does when it
fails: the next providers get the last parameter of the first request. An answer that does not have
the size of the buffer is a failure. -/
def fetchLoop (r : PageRead) (last : ReadParam) : Nat → ProviderDesc → RandomSelect →
    List ReadParam → Option (List UInt8)
  | 0, _, _, _ => none
  | fuel + 1, adv, leaf, params =>
    match (answers adv r.part.isSome params).filter fun bytes =>
      decide (r.bufferSize = 0 ∨ bytes.length = r.bufferSize) with
    | some bytes => some (bytes.take r.bufferSize)
    | none =>
      let (adv, leaf) := leaf.tryNext (rand r.leaf leaf.providers.length)
      if adv.empty then none else fetchLoop r last fuel adv leaf [last]

/-- All requests for one page: `none` when no provider is left. -/
def fetch (r : PageRead) (leaf : RandomSelect) : Option (List UInt8) :=
  let params := r.params leaf.pageKey
  let (adv, rest) := leaf.tryNext (rand r.leaf leaf.providers.length)
  fetchLoop answers rand r (params.getLastD (.num 0)) (leaf.providers.length + 1) adv rest params

/-- The bytes go to their place in the buffer. -/
def place (buffer : Nat → UInt8) (dest : Nat) (bytes : List UInt8) : Nat → UInt8 := fun b =>
  if dest ≤ b ∧ b < dest + bytes.length then bytes.getD (b - dest) 0 else buffer b

/-- Whether all requests are sent: not when a page has no provider. `none` when the leaf of a request
does not exist. -/
def dispatchReads (vadv : List RandomSelect) : List PageRead → Option Bool
  | [] => some true
  | r :: plan =>
    match vadv[r.leaf]? with
    | none => none
    | some leaf =>
      if (leaf.tryNext (rand r.leaf leaf.providers.length)).1.empty then some false
      else dispatchReads vadv plan

/-- `run`: `result` and the buffer after all requests are answered. -/
def runReads (vadv : List RandomSelect) : List PageRead → Bool → (Nat → UInt8) →
    Bool × (Nat → UInt8)
  | [], result, buffer => (result, buffer)
  | r :: plan, result, buffer =>
    match fetch answers rand r (vadv.getD r.leaf {}) with
    | some bytes => runReads vadv plan result (place buffer r.dest bytes)
    | none => runReads vadv plan false buffer

/-- How a `read` ends: with an exception, past the end of the leaves, or with its result. -/
inductive ReadResult where
  | threw (what : String)
  | undefined
  | returned (result : Bool) (buffer : Nat → UInt8)

/-- `object_handler::read`, once `query_root` is there. `locate` is `readRecordLocations`, for the
number of leaves and the range; `none` when that does not end. -/
def readRoot (locate : Nat → Query → Root → Option (Bool × List RandomSelect)) (queryRoot : Root)
    (version offset size : Nat) (buffer : Nat → UInt8) : Option ReadResult :=
  let psize := queryRoot.pageSize
  if queryRoot.node.version < version then
    some (.threw ("object_handler::read(): read attempt on a version higher than latest available " ++
      "version"))
  else if psize = 0 then
    some (.threw "object_handler::read(): read attempt on unallocated/uninitialized object")
  else if u64 (offset + size) > queryRoot.node.size then
    some (.threw "object_handler::read(): read attempt beyond maximal size")
  else
    let count := leafCount psize offset size
    let range : Query :=
      ⟨queryRoot.node.id, queryRoot.node.version, newOffset psize offset, u64 (count * psize)⟩
    match locate count range queryRoot with
    | none => none
    | some (false, _) => some (.returned false buffer)
    | some (true, vadv) =>
      let plan := readPlan psize offset size
      match dispatchReads rand vadv plan with
      | none => some .undefined
      | some false => some (.returned false buffer)
      | some true =>
        let (result, buffer) := runReads answers rand vadv plan true buffer
        some (.returned result buffer)

/-- `object_handler::read` of the latest version. -/
def ObjectHandler.readLatest (h : ObjectHandler)
    (locate : Nat → Query → Root → Option (Bool × List RandomSelect)) (offset size : Nat)
    (buffer : Nat → UInt8) : Option ReadResult :=
  readRoot answers rand locate h.latestRoot 0 offset size buffer

end read

/-- `object_handler::get_size` of the latest version. -/
def ObjectHandler.sizeLatest (h : ObjectHandler) : Nat := h.latestRoot.currentSize

/-! ## The checks on the root -/

/-- The three checks on the root that `read` and `get_locations` make. -/
structure Root.Passes (root : Root) (version offset size : Nat) : Prop where
  version : version ≤ root.node.version
  allocated : root.pageSize ≠ 0
  within : u64 (offset + size) ≤ root.node.size

instance (root : Root) (version offset size : Nat) : Decidable (root.Passes version offset size) :=
  decidable_of_iff (version ≤ root.node.version ∧ root.pageSize ≠ 0 ∧
      u64 (offset + size) ≤ root.node.size)
    ⟨fun h => ⟨h.1, h.2.1, h.2.2⟩, fun h => ⟨h.version, h.allocated, h.within⟩⟩

section checks

variable {rand : Nat → Nat → Nat}
  {locate : Nat → Query → Root → Option (Bool × List RandomSelect)} {root : Root}
  {version offset size : Nat}

/-- What holds of the three exceptions and of nothing else shows that a check fails. -/
theorem Root.checks_iff {α : Type} {P : α → Prop} {a b c rest : α} (ha : P a) (hb : P b) (hc : P c)
    (hrest : ¬ P rest) :
    P (if root.node.version < version then a
      else if root.pageSize = 0 then b
      else if u64 (offset + size) > root.node.size then c else rest) ↔
        ¬ root.Passes version offset size := by
  by_cases hversion : root.node.version < version
  · rw [if_pos hversion]
    exact iff_of_true ha fun h => Nat.not_lt.mpr h.version hversion
  rw [if_neg hversion]
  by_cases hps : root.pageSize = 0
  · rw [if_pos hps]
    exact iff_of_true hb fun h => h.allocated hps
  rw [if_neg hps]
  by_cases hend : u64 (offset + size) > root.node.size
  · rw [if_pos hend]
    exact iff_of_true hc fun h => Nat.not_lt.mpr h.within hend
  rw [if_neg hend]
  exact iff_of_false hrest fun h => h ⟨Nat.not_lt.mp hversion, hps, Nat.not_lt.mp hend⟩

end checks

/-! ## Aligned reads -/

section aligned

variable {psize a n : Nat} (hps : 0 < psize) (hn : 0 < n) (hend : (a + n) * psize < 2 ^ 64)
  (hn32 : n < 2 ^ 32)

include hps

theorem newOffset_aligned : newOffset psize (a * psize) = a * psize := by
  rw [newOffset, Nat.mul_div_cancel _ hps]

include hend

theorem leafCount_aligned : leafCount psize (a * psize) (n * psize) = n := by
  have hadd : n * psize + a * psize = (a + n) * psize := by
    rw [Nat.add_mul, Nat.add_comm]
  have hle : a * psize ≤ (a + n) * psize := Nat.mul_le_mul_right _ (Nat.le_add_right a n)
  have hsub : (a + n) * psize - a * psize = n * psize := by
    rw [← Nat.sub_mul, Nat.add_sub_cancel_left]
  have hlt : n < 2 ^ 64 := by
    have hmul : n * 1 ≤ (a + n) * psize := Nat.mul_le_mul (Nat.le_add_left n a) hps
    omega
  rw [leafCount, newOffset_aligned hps, Nat.add_comm (a * psize), hadd, u64_of_lt hend,
    sub64_of_le hle hend, hsub, Nat.mul_div_cancel _ hps, Nat.mul_mod_left, if_pos rfl, Nat.add_zero,
    u64_of_lt hlt]

include hn hn32

/-- An aligned read asks for its pages one after another. -/
theorem readPlan_aligned : readPlan psize (a * psize) (n * psize) =
    (List.range n).map fun i => { leaf := i, part := none, dest := i * psize, len := psize } := by
  have hmod : a * psize % psize = 0 := Nat.mul_mod_left a psize
  have hleft : leftCount psize (a * psize) = 0 := if_neg (Decidable.not_not.mpr hmod)
  have hpart : leftPart psize (a * psize) = 0 := by
    rw [leftPart, hmod, Nat.sub_zero, Nat.mod_self]
  have hcount := leafCount_aligned hps hend
  have hsum : u64 (a * psize + n * psize) % psize = 0 := by
    rw [← Nat.add_mul, u64_of_lt hend]
    exact Nat.mul_mod_left _ _
  have hge : psize ≤ n * psize := Nat.le_mul_of_pos_left psize hn
  have hright : readsRight psize (a * psize) (n * psize) = false := by
    rw [readsRight, decide_eq_false_iff_not]
    rintro (⟨h, -⟩ | ⟨-, h⟩)
    · exact h hsum
    · exact absurd h (Nat.not_lt.mpr hge)
  have hend' : rightEnd psize (a * psize) (n * psize) = n := by
    rw [rightEnd, hright, hcount, u32_of_lt hn32]
    rfl
  rw [readPlan, if_neg (Decidable.not_not.mpr hmod), hright, hleft, hend', List.range_eq_range']
  refine List.map_congr_left fun i hi => ?_
  have hilt : i < 2 ^ 32 := by
    have := (List.mem_range'_1.mp hi).2
    omega
  have hdest : leafDest psize (a * psize) i = i * psize := by
    rw [leafDest, hpart, hleft, Nat.sub_zero, Nat.zero_add, u32, Nat.add_mod_right,
      Nat.mod_eq_of_lt hilt]
  rw [hdest]

end aligned

section whole

variable {answers : Answers} {rand : Nat → Nat → Nat} {psize : Nat}

/-- The request for a whole page. -/
def wholePage (psize i : Nat) : PageRead :=
  { leaf := i, part := none, dest := i * psize, len := psize }

theorem tryNext_mem {leaf : RandomSelect} (h : leaf.providers ≠ []) (rnd : Nat) :
    (leaf.tryNext rnd).1 ∈ leaf.providers := by
  have hpos : 0 < leaf.providers.length := List.length_pos_of_ne_nil h
  have hlt := Nat.mod_lt rnd hpos
  rw [RandomSelect.tryNext, if_neg hpos.ne']
  show leaf.providers.getD _ {} ∈ _
  rw [List.getD_eq_getElem?_getD, List.getElem?_eq_getElem hlt]
  exact List.getElem_mem hlt

/-- Every provider of the leaf has the page. -/
def Serves (answers : Answers) (leaf : RandomSelect) (bytes : List UInt8) : Prop :=
  leaf.providers ≠ [] ∧ ∀ p ∈ leaf.providers, p.empty = false ∧
    answers p false [.key leaf.pageKey] = some bytes

theorem fetch_whole {leaf : RandomSelect} {bytes : List UInt8} (h : Serves answers leaf bytes)
    (hlen : bytes.length = psize) (hps : psize < 2 ^ 32) (i : Nat) :
    fetch answers rand (wholePage psize i) leaf = some bytes := by
  have hmem := tryNext_mem h.1 (rand i leaf.providers.length)
  unfold fetch
  dsimp only [wholePage, PageRead.params]
  rw [fetchLoop, Option.isSome_none, (h.2 _ hmem).2, PageRead.bufferSize, u32_of_lt hps,
    Option.filter_some, if_pos (decide_eq_true (.inr hlen))]
  simp [← hlen]

theorem dispatchReads_whole {vadv : List RandomSelect} {n : Nat} (hlen : vadv.length = n)
    {bytes : Nat → List UInt8} (h : ∀ i < n, Serves answers (vadv.getD i {}) (bytes i)) :
    ∀ {l : List Nat}, (∀ i ∈ l, i < n) →
      dispatchReads rand vadv (l.map (wholePage psize)) = some true := by
  intro l
  induction l with
  | nil => exact fun _ => rfl
  | cons i l ih =>
    intro hl
    have hi := hl i List.mem_cons_self
    have hget : vadv[i]? = some (vadv.getD i {}) := by
      rw [List.getD_eq_getElem?_getD, List.getElem?_eq_getElem (hlen ▸ hi)]
      rfl
    have hmem := tryNext_mem (h i hi).1 (rand i (vadv.getD i {}).providers.length)
    have hempty : ¬ ((vadv.getD i {}).tryNext
        (rand i (vadv.getD i {}).providers.length)).1.empty = true := by
      rw [((h i hi).2 _ hmem).1]
      exact Bool.false_ne_true
    have hleaf : (wholePage psize i).leaf = i := rfl
    rw [List.map_cons, dispatchReads, hleaf, hget]
    dsimp only
    rw [if_neg hempty]
    exact ih fun j hj => hl j (List.mem_cons_of_mem _ hj)

/-- The pages are put one after another into the buffer. -/
theorem runReads_whole (hps : psize < 2 ^ 32) (rand : Nat → Nat → Nat) {vadv : List RandomSelect}
    {bytes : Nat → List UInt8} :
    ∀ {m i : Nat} (buffer : Nat → UInt8),
      (∀ j, i ≤ j → j < i + m → (bytes j).length = psize ∧
        Serves answers (vadv.getD j {}) (bytes j)) →
      ∃ buffer', runReads answers rand vadv ((List.range' i m).map (wholePage psize)) true buffer =
          (true, buffer') ∧
        (∀ b < i * psize, buffer' b = buffer b) ∧
        ∀ j, i ≤ j → j < i + m → ∀ b < psize, buffer' (j * psize + b) = (bytes j).getD b 0 := by
  intro m
  induction m with
  | zero => exact fun buffer _ => ⟨buffer, rfl, fun _ _ => rfl, fun j h1 h2 => by omega⟩
  | succ m ih =>
    intro i buffer h
    obtain ⟨hlen, hserves⟩ := h i (Nat.le_refl i) (by omega)
    obtain ⟨buffer', hrun, hbelow, hpages⟩ := ih (i := i + 1) (place buffer (i * psize) (bytes i))
      fun j h1 h2 => h j (by omega) (by omega)
    refine ⟨buffer', ?_, ?_, ?_⟩
    · rw [List.range'_succ, List.map_cons, runReads]
      have hfetch : fetch answers rand (wholePage psize i) (vadv.getD i {}) = some (bytes i) :=
        fetch_whole hserves hlen hps i
      dsimp only [wholePage] at hfetch ⊢
      rw [hfetch]
      exact hrun
    · intro b hb
      have hlt : b < (i + 1) * psize := by
        rw [Nat.succ_mul]
        omega
      rw [hbelow b hlt, place, if_neg (by omega)]
    · intro j h1 h2 b hb
      rcases Nat.eq_or_lt_of_le h1 with rfl | h1
      · have hlt : i * psize + b < (i + 1) * psize := by
          rw [Nat.succ_mul]
          omega
        rw [hbelow _ hlt, place, if_pos (by omega), Nat.add_sub_cancel_left]
      · exact hpages j h1 (by omega) b hb

/-- A read of whole pages that are all there returns them. -/
theorem readRoot_aligned {locate : Nat → Query → Root → Option (Bool × List RandomSelect)}
    {root : Root} {a n : Nat} (hps : 0 < root.pageSize) (hps32 : root.pageSize < 2 ^ 32) (hn : 0 < n)
    (hend : (a + n) * root.pageSize < 2 ^ 64) (hn32 : n < 2 ^ 32)
    (hsize : (a + n) * root.pageSize ≤ root.node.size) {vadv : List RandomSelect}
    (hvadv : vadv.length = n)
    (hlocate : locate n ⟨root.node.id, root.node.version, a * root.pageSize, n * root.pageSize⟩ root =
      some (true, vadv)) {bytes : Nat → List UInt8}
    (hbytes : ∀ i < n, (bytes i).length = root.pageSize ∧
      Serves answers (vadv.getD i {}) (bytes i)) (buffer : Nat → UInt8) :
    ∃ buffer', readRoot answers rand locate root 0 (a * root.pageSize) (n * root.pageSize) buffer =
        some (.returned true buffer') ∧
      ∀ i < n, ∀ b < root.pageSize, buffer' (i * root.pageSize + b) = (bytes i).getD b 0 := by
  have hplan : readPlan root.pageSize (a * root.pageSize) (n * root.pageSize) =
      (List.range' 0 n).map (wholePage root.pageSize) := by
    rw [readPlan_aligned hps hn hend hn32, List.range_eq_range']
    rfl
  have hall : ∀ j, 0 ≤ j → j < 0 + n → (bytes j).length = root.pageSize ∧
      Serves answers (vadv.getD j {}) (bytes j) := by
    intro j _ hj
    exact hbytes j (by omega)
  obtain ⟨buffer', hrun, -, hpages⟩ := runReads_whole hps32 rand buffer hall
  have hdispatch : dispatchReads rand vadv ((List.range' 0 n).map (wholePage root.pageSize)) =
      some true := by
    refine dispatchReads_whole hvadv (fun i hi => (hbytes i hi).2) fun i hi => ?_
    have hlt := (List.mem_range'_1.mp hi).2
    omega
  refine ⟨buffer', ?_, fun i hi => hpages i (Nat.zero_le i) (by omega)⟩
  have hcount := leafCount_aligned hps hend
  have hmul : n * root.pageSize ≤ (a + n) * root.pageSize :=
    Nat.mul_le_mul_right _ (Nat.le_add_left n a)
  unfold readRoot
  dsimp only
  rw [if_neg (Nat.not_lt_zero _), if_neg hps.ne', ← Nat.add_mul, u64_of_lt hend,
    if_neg (Nat.not_lt.mpr hsize), hcount, newOffset_aligned hps, u64_of_lt (by omega), hlocate]
  dsimp only
  rw [hplan, hdispatch]
  dsimp only
  rw [hrun]

end whole

end BlobSeer
