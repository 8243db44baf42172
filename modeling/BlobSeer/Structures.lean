import Mathlib.Data.List.Basic
import Mathlib.Tactic.Ring

/-!
# The shared data (`common/structures.hpp`, `common/buffer_wrapper.hpp`)

`Query` is `metadata::query_t`: a range of a blob at a version, the key of every tree node in
the DHT and also the key of a page. `Root`, `DhtNode`, `ObjInfo` and `VmgrReply` follow the
source's classes field by field. Machine integers are `Nat` with the reduction written out
(`u32`, `u64`) wherever the source computes with them.

`std::map<query_t, root_flag_t>` orders its keys by `query_t::operator<`, which compares
versions only; `IntervalList` keeps its entries in that order.

A buffer carries a serialized value. `getValue` gets the value back through a `boost` archive, which
is not part of the repository: what an archive makes of the bytes of a buffer is a parameter.
-/

namespace BlobSeer

/-- The value kept in a 32-bit unsigned integer. -/
def u32 (n : Nat) : Nat := n % 2 ^ 32

/-- The value kept in a 64-bit unsigned integer. -/
def u64 (n : Nat) : Nat := n % 2 ^ 64

/-- The 64-bit difference, which wraps around below zero. -/
def sub64 (a b : Nat) : Nat := u64 (a + 2 ^ 64 - b)

theorem u32_of_lt {n : Nat} (h : n < 2 ^ 32) : u32 n = n := Nat.mod_eq_of_lt h

theorem u64_of_lt {n : Nat} (h : n < 2 ^ 64) : u64 n = n := Nat.mod_eq_of_lt h

theorem sub64_of_le {a b : Nat} (h : b ≤ a) (ha : a < 2 ^ 64) : sub64 a b = a - b := by
  have e : a + 2 ^ 64 - b = a - b + 2 ^ 64 := by omega
  rw [sub64, u64, e, Nat.add_mod_right]
  exact Nat.mod_eq_of_lt (by omega)

/-- `metadata::provider_desc`. -/
structure ProviderDesc where
  host : String := ""
  service : String := ""
deriving DecidableEq, Repr, Inhabited

/-- `metadata::query_t`; the default value is the one of its default constructor. -/
structure Query where
  id : Nat := 0
  version : Nat := 0
  offset : Nat := 0
  size : Nat := 0
deriving DecidableEq, Repr, Inhabited

/-- The three answers of `query_t::getParent` (`metadata::ROOT` only marks a node whose two
children are both at hand). -/
inductive Position where
  | root | leftChild | rightChild
deriving DecidableEq, Repr

namespace Query

/-- `query_t::intersects`, with the 64-bit sums of the source. -/
def intersects (q second : Query) : Bool :=
  if q.offset ≤ second.offset then decide (second.offset < u64 (q.offset + q.size))
  else decide (q.offset < u64 (second.offset + second.size))

/-- `query_t::empty`. -/
def empty (q : Query) : Bool :=
  decide (q.id = 0 ∧ q.version = 0 ∧ q.offset = 0 ∧ q.size = 0)

/-- `query_t::getParent`: the parent position and the side on which `q` hangs below it. -/
def getParent (q : Query) : Query × Position :=
  let size := u64 (2 * q.size)
  if q.offset % size = 0 then (⟨q.id, q.version, q.offset, size⟩, .leftChild)
  else (⟨q.id, q.version, sub64 q.offset q.size, size⟩, .rightChild)

end Query

/-- `metadata::root_t`. -/
structure Root where
  node : Query := {}
  replicaCount : Nat := 0
  currentSize : Nat := 0
  pageSize : Nat := 0
deriving DecidableEq, Repr, Inhabited

/-- The five-argument constructor of `root_t`. -/
def Root.make (id version pageSize maxSize replicaCount : Nat) : Root :=
  ⟨⟨id, version, 0, maxSize⟩, replicaCount, 0, pageSize⟩

/-- `root_t::empty`. -/
def Root.empty (r : Root) : Bool := decide (r.node.id = 0)

/-- `metadata::dhtnode_t`. -/
structure DhtNode where
  isLeaf : Bool
  left : Query := {}
  right : Query := {}
deriving DecidableEq, Repr, Inhabited

/-- An entry of `obj_info::interval_list_t`: the ticketed range, the root to publish for it, and
the mark set by `publish`. -/
structure IntervalEntry where
  key : Query
  root : Root
  completed : Bool := false
deriving DecidableEq, Repr, Inhabited

abbrev IntervalList := List IntervalEntry

namespace IntervalList

/-- `std::map::insert`: in key order, and without effect when an equivalent key is there. -/
def insert (e : IntervalEntry) : IntervalList → IntervalList
  | [] => [e]
  | x :: l =>
    if e.key.version < x.key.version then e :: x :: l
    else if x.key.version < e.key.version then x :: insert e l
    else x :: l

/-- Whether `std::map::find` meets the key of version `v`. -/
def contains (l : IntervalList) (v : Nat) : Bool := l.any fun e => e.key.version == v

/-- Marks the entry found under version `v` as completed. -/
def complete (l : IntervalList) (v : Nat) : IntervalList :=
  l.map fun e => if e.key.version = v then { e with completed := true } else e

/-- `std::map::erase` by key. -/
def erase (l : IntervalList) (v : Nat) : IntervalList := l.filter fun e => e.key.version != v

/-- The key `rbegin()` points at. -/
def lastKey (l : IntervalList) : Query := (l.getLast?.map (·.key)).getD {}

/-- An entry whose version is above all the others goes to the end. -/
theorem insert_last {e : IntervalEntry} :
    ∀ {l : IntervalList}, (∀ x ∈ l, x.key.version < e.key.version) → insert e l = l ++ [e]
  | [], _ => rfl
  | x :: l, h => by
    have hx := h x List.mem_cons_self
    have ih := insert_last (l := l) fun y hy => h y (List.mem_cons_of_mem _ hy)
    simp only [insert, Nat.not_lt.2 (Nat.le_of_lt hx), hx, if_true, if_false, ih,
      List.cons_append]

theorem mem_insert {e x : IntervalEntry} :
    ∀ {l : IntervalList}, x ∈ insert e l → x = e ∨ x ∈ l
  | [], h => by simpa [insert] using h
  | y :: l, h => by
    unfold insert at h
    split at h
    · simpa using h
    · split at h
      · rcases List.mem_cons.1 h with rfl | h
        · exact .inr List.mem_cons_self
        · rcases mem_insert h with h | h
          · exact .inl h
          · exact .inr (List.mem_cons_of_mem _ h)
      · exact .inr h

@[simp] theorem lastKey_append (l : IntervalList) (e : IntervalEntry) :
    lastKey (l ++ [e]) = e.key := by
  simp [lastKey]

theorem contains_iff {l : IntervalList} {v : Nat} :
    l.contains v = true ↔ v ∈ l.map (·.key.version) := by
  simp [contains]

@[simp] theorem complete_versions (l : IntervalList) (v : Nat) :
    (l.complete v).map (·.key.version) = l.map (·.key.version) := by
  simp only [complete, List.map_map]
  refine List.map_congr_left fun e _ => ?_
  simp only [Function.comp]
  split <;> rfl

theorem mem_complete {l : IntervalList} {v : Nat} {e : IntervalEntry} (he : e ∈ l.complete v) :
    ∃ x ∈ l, e.key = x.key ∧ e.root = x.root ∧
      (e.completed = true ↔ x.key.version = v ∨ x.completed = true) := by
  obtain ⟨x, hx, rfl⟩ := List.mem_map.1 he
  refine ⟨x, hx, ?_⟩
  split
  · rename_i hxv
    exact ⟨rfl, rfl, by simp [hxv]⟩
  · rename_i hxv
    exact ⟨rfl, rfl, by simp [hxv]⟩

@[simp] theorem complete_length (l : IntervalList) (v : Nat) :
    (l.complete v).length = l.length := by
  simp [complete]

end IntervalList

/-- `obj_info`: what the version manager keeps for one blob. -/
structure ObjInfo where
  roots : List Root
  intervals : IntervalList := []
  currentTicket : Nat := 1
  maxSize : Nat
  progressSize : Nat
deriving DecidableEq, Repr

namespace ObjInfo

/-- The constructor for a new blob. -/
def new (id ps rc : Nat) : ObjInfo :=
  { roots := [Root.make id 0 ps 0 rc], maxSize := ps, progressSize := 0 }

/-- The constructor for a clone that starts from `root`. -/
def ofRoot (root : Root) : ObjInfo :=
  { roots := [root], maxSize := root.node.size, progressSize := root.currentSize }

/-- `roots.back()`. -/
def lastRoot (o : ObjInfo) : Root := o.roots.getLast?.getD {}

end ObjInfo

/-- `vmgr_reply`: the answer of the version manager to a ticket request. -/
structure VmgrReply where
  intervals : IntervalList := []
  rootSize : Nat := 0
  stableRoot : Root := {}
deriving DecidableEq, Repr

/-- `vmgr_reply::search_list`: the first sibling at the position, or the empty query. -/
def searchList (siblings : List Query) (offset size : Nat) : Query :=
  (siblings.find? fun q => decide (q.offset = offset ∧ q.size = size)).getD {}

/-- The status codes of `rpcstatus`, and the transport errors an RPC may end with instead. -/
inductive RpcReturn where
  | ok | earg | eres | eobj
  | transport (code : Int)
deriving DecidableEq, Repr

/-! ## Buffers -/

/-- `buffer_wrapper`; `buffer_wrapper()` is the empty one. -/
abbrev Buffer := List UInt8

/-- `binary_iarchive`: the value that is read from some bytes, or `none` where the reader throws a
`std::exception`. -/
abbrev Archive (α : Type) := Buffer → Option α

/-- `buffer_wrapper::getValue` with `serialize` set, as every caller sets it. An empty buffer throws
before the `try` block is entered; what the archive throws is caught, and is `false` to the caller. -/
def Buffer.getValue {α : Type} (archive : Archive α) (b : Buffer) : Except String (Option α) :=
  if b.length = 0 then throw "Trying to get value from empty buffer" else pure (archive b)

namespace Buffer

theorem getValue_of_ne_nil {α : Type} (archive : Archive α) {b : Buffer} (hb : b ≠ []) :
    getValue archive b = .ok (archive b) :=
  if_neg fun h => hb (List.length_eq_zero_iff.mp h)

end Buffer

end BlobSeer
