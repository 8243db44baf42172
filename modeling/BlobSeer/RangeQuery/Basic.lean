import BlobSeer.Structures
import Mathlib.Logic.Function.Basic

/-!
# Writing and reading the metadata of a version (`client/range_query.cpp`)

A version of a blob is a binary tree of DHT entries over its pages. `writeRecordLocations` puts
the entries of one write: first the page keys and the leaves, then, level by level, the inner
nodes above them. A child that the write does not touch is taken over from another version, by
id and version only: from a ticket that is still in flight (`computeSiblingVersions`), or from
the stable tree, which the writer walks down towards its first and last page
(`siblingsCallback`). `readRecordLocations` walks a tree down to the pages of a range.

DHT operations are asynchronous: `put` and `get` only queue a request, and `wait` runs the
queued requests, and those that their callbacks queue, in an order that is not determined.
`Writer` and `Reader` hold the requests that are still queued; one step answers one of them.
-/

namespace BlobSeer

/-- What is stored in the DHT: the providers of a page, or a tree node. -/
inductive DhtVal where
  | providers (l : List ProviderDesc)
  | node (n : DhtNode)
deriving DecidableEq, Repr

/-- The DHT, by (serialized) key. Pages and tree nodes share one key space. -/
abbrev Dht := Query → Option DhtVal

/-- `read_node`: an empty buffer, or one that holds no node, is refused. -/
def readNode : Option DhtVal → Option DhtNode
  | some (.node n) => some n
  | _ => none

/-! ## Siblings -/

/-- `siblings_callback`: the siblings collected so far, and the child to descend to. -/
def siblingsCallback (isLeft : Bool) (target : Query) (siblings : List Query) (parent : Query)
    (val : Option DhtVal) : List Query × Option Query :=
  match readNode val with
  | none => (siblings, none)
  | some node =>
    if node.isLeaf then (siblings, none)
    else
      let half := parent.size / 2
      let left := { node.left with offset := parent.offset, size := half }
      let right := { node.right with offset := u64 (parent.offset + half), size := half }
      if left.intersects target then
        (if !isLeft && (searchList siblings right.offset right.size).empty then siblings ++ [right]
          else siblings, some left)
      else
        (if isLeft && (searchList siblings left.offset left.size).empty then siblings ++ [left]
          else siblings, some right)

/-- The direct sibling of a position, and their parent (the first half of the loop body of
`compute_sibling_versions`). -/
def brotherAndParent (current : Query) : Query × Query :=
  let size := u64 (2 * current.size)
  if current.offset % size = 0 then
    ({ current with offset := u64 (current.offset + current.size) }, { current with size := size })
  else
    let offset := sub64 current.offset current.size
    ({ current with offset := offset }, { current with offset := offset, size := size })

/-- The version of the last interval, in ticket order, that a position intersects. -/
def latestTouching (intervals : IntervalList) (q : Query) : Option Nat :=
  (intervals.reverse.find? fun e => q.intersects e.key).map (·.key.version)

/-- The loop of `compute_sibling_versions`, from a position up to the root; `none` when 65 rounds
do not reach the root. -/
def siblingLoop (intervals : IntervalList) (rootSize : Nat) : Nat → Query → Option (List Query)
  | 0, _ => none
  | fuel + 1, current =>
    if current.size < rootSize then
      let (brother, parent) := brotherAndParent current
      match siblingLoop intervals rootSize fuel parent with
      | none => none
      | some rest =>
        match latestTouching intervals brother with
        | some v => some ({ brother with version := v } :: rest)
        | none => some rest
    else some []

/-- `compute_sibling_versions`. -/
def computeSiblingVersions (edge : Query) (intervals : IntervalList) (rootSize : Nat) :
    Option (List Query) :=
  siblingLoop intervals rootSize 65 edge

/-! ## The entries of a write -/

/-- The replicas of page `i` in the provider list; the counters of the source are 32 bits wide. -/
def replicas (replicaCount : Nat) (providerList : List ProviderDesc) (i : Nat) :
    List ProviderDesc :=
  let j := u32 (i * replicaCount)
  (List.range' j (u32 (j + replicaCount) - j)).map fun k => providerList.getD k {}

/-- The leaf position of a page key of the write. -/
def leafOf (query key : Query) : Query :=
  { key with version := query.version, offset := u64 (query.offset + u64 (key.offset * key.size)) }

/-- The puts of the first loop of `writeRecordLocations`: a page key and a leaf for each page. -/
def leafPuts (query : Query) (replicaCount : Nat) (providerList : List ProviderDesc) :
    Nat → List Query → List (Query × DhtVal)
  | _, [] => []
  | i, key :: keys =>
    (key, .providers (replicas replicaCount providerList i)) ::
      (leafOf query key, .node { isLeaf := true, left := key }) ::
      leafPuts query replicaCount providerList (i + 1) keys

/-- The position of the leftmost leaf of a write. -/
def leftEdge (query : Query) (pageSize : Nat) : Query :=
  ⟨query.id, query.version, query.offset / pageSize * pageSize, pageSize⟩

/-- The position of the rightmost leaf of a write. -/
def rightEdge (query : Query) (pageSize : Nat) : Query :=
  let last := u64 (query.offset + query.size)
  ⟨query.id, query.version,
    u64 (sub64 (last / pageSize) (if last % pageSize = 0 then 1 else 0) * pageSize), pageSize⟩

/-- One round of the bottom-up loop for the node `first` at the front of the queue: the put of
its parent, and the rest of the queue without the node it was paired with. -/
def pairUp (rootSize : Nat) (left right : List Query) (first : Query) (rest : List Query) :
    (Query × DhtNode) × List Query :=
  let parent := first.getParent.1
  let alone : DhtNode :=
    match first.getParent.2 with
    | .leftChild => ⟨false, first, searchList right (u64 (first.offset + first.size)) first.size⟩
    | .rightChild => ⟨false, searchList left (sub64 first.offset first.size) first.size, first⟩
    | .root => ⟨false, first, {}⟩
  match rest with
  | [] => ((parent, alone), [])
  | next :: rest' =>
    if next.size ≠ rootSize ∧ next.getParent.2 = .rightChild ∧ parent = next.getParent.1 then
      ((parent, ⟨false, first, next⟩), rest')
    else ((parent, alone), next :: rest')

/-- The bottom-up loop of `writeRecordLocations`: the puts of the inner nodes, in order. -/
def buildLoop (rootSize : Nat) (left right : List Query) :
    Nat → List Query → Option (List (Query × DhtNode))
  | 0, _ => none
  | _ + 1, [] => some []
  | fuel + 1, first :: rest =>
    if first.size = rootSize then buildLoop rootSize left right fuel rest
    else
      let (entry, rest') := pairUp rootSize left right first rest
      match buildLoop rootSize left right fuel (rest' ++ [entry.1]) with
      | none => none
      | some entries => some (entry :: entries)

/-- Rounds that are enough for a queue of leaves: each of at most 64 levels takes no more rounds
than there are leaves. -/
def buildFuel (leaves : List Query) : Nat := 65 * (leaves.length + 1)

/-! ## `writeRecordLocations` -/

inductive Stage where
  | leaves | inner | done
deriving DecidableEq, Repr

/-- A call of `writeRecordLocations` in progress. -/
structure Writer where
  stage : Stage
  result : Bool := true
  deque : List Query := []
  leftSiblings : List Query := []
  rightSiblings : List Query := []
  puts : List (Query × DhtVal) := []
  gets : List (Bool × Query) := []
deriving DecidableEq, Repr

/-- How a DHT put ends: acknowledged, or reported as failed with or without its value stored. -/
inductive PutOutcome where
  | acked | lost | stored
deriving DecidableEq, Repr

namespace Writer

/-- `writeRecordLocations` up to its first `wait`; `none` when a sibling loop does not end. -/
def start (reply : VmgrReply) (nodeDeque : List Query) (providerList : List ProviderDesc) :
    Option Writer :=
  if nodeDeque.isEmpty then some { stage := .done, result := false }
  else
    let query := reply.intervals.lastKey
    let deque := nodeDeque.map (leafOf query)
    let intervals := reply.intervals.erase query.version
    let ps := reply.stableRoot.pageSize
    let stable := reply.stableRoot.node
    match computeSiblingVersions (leftEdge query ps) intervals reply.rootSize,
        computeSiblingVersions (rightEdge query ps) intervals reply.rootSize with
    | some ls, some rs =>
      let front := deque.headD {}
      let back := deque.getLastD {}
      some {
        stage := .leaves
        deque := deque
        leftSiblings :=
          if stable.intersects front then ls
          else if (searchList ls stable.offset stable.size).empty then ls ++ [stable] else ls
        rightSiblings := rs
        puts := leafPuts query reply.stableRoot.replicaCount providerList 0 nodeDeque
        gets := (if stable.intersects front then [(true, stable)] else []) ++
          (if stable.intersects back then [(false, stable)] else []) }
    | _, _ => none

/-- The puts of the inner nodes, once the siblings are known. -/
def innerPuts (w : Writer) (rootSize : Nat) : Option (List (Query × DhtVal)) :=
  (buildLoop rootSize w.leftSiblings w.rightSiblings (buildFuel w.deque) w.deque).map
    fun entries => entries.map fun e => (e.1, .node e.2)

/-- The `i`-th queued put ends. -/
def endPut (w : Writer) (i : Nat) (outcome : PutOutcome) : Writer :=
  { w with puts := w.puts.eraseIdx i, result := w.result && decide (outcome = .acked) }

/-- The `i`-th queued get is answered with `val`: `siblings_callback` runs. -/
def endGet (w : Writer) (i : Nat) (isLeft : Bool) (parent : Query) (val : Option DhtVal) : Writer :=
  let target := if isLeft then w.deque.headD {} else w.deque.getLastD {}
  let siblings := if isLeft then w.leftSiblings else w.rightSiblings
  let (siblings, next) := siblingsCallback isLeft target siblings parent val
  { w with
    leftSiblings := if isLeft then siblings else w.leftSiblings
    rightSiblings := if isLeft then w.rightSiblings else siblings
    gets := w.gets.eraseIdx i ++ (next.map fun q => (isLeft, q)).toList }

/-- `wait` returns, once nothing is queued: after the leaves the inner nodes are put, unless a put
failed; after the inner nodes the call is over. -/
def endWait (w : Writer) (rootSize : Nat) : Option Writer :=
  if w.puts.isEmpty && w.gets.isEmpty then
    match w.stage with
    | .leaves =>
      if w.result then (w.innerPuts rootSize).map fun ps => { w with stage := .inner, puts := ps }
      else some { w with stage := .inner }
    | .inner => some { w with stage := .done }
    | .done => none
  else none

end Writer

/-! ## `readRecordLocations` -/

/-- `random_select`: the key of a page and the providers that hold it. -/
structure RandomSelect where
  pageKey : Query := {}
  providers : List ProviderDesc := []
deriving DecidableEq, Repr, Inhabited

/-- A queued get of the reader, with what its callback is bound to: a node at an offset, or the
providers of the page at an index. -/
inductive ReadRequest where
  | node (key : Query) (offset : Nat)
  | leaf (key : Query) (index : Nat)
deriving DecidableEq, Repr

def ReadRequest.key : ReadRequest → Query
  | .node key _ => key
  | .leaf key _ => key

/-- A call of `readRecordLocations` in progress. -/
structure Reader where
  result : Bool := true
  leaves : List RandomSelect
  pending : List ReadRequest
deriving DecidableEq, Repr

namespace Reader

/-- `leaf_callback`, with `random_select::set_providers`. -/
def leafCallback (r : Reader) (key : Query) (index : Nat) (val : Option DhtVal) : Reader :=
  if r.result then
    match val with
    | some (.providers l) => { r with leaves := r.leaves.set index ⟨key, l⟩ }
    | _ => { r with
        leaves := r.leaves.modify index fun leaf => { leaf with pageKey := key }
        result := false }
  else r

/-- `read_callback`, with `read_pnode`. -/
def readCallback (r : Reader) (range : Query) (pageSize offset : Nat) (val : Option DhtVal) :
    Reader :=
  if r.result then
    match readNode val with
    | none => { r with result := false }
    | some node =>
      if node.isLeaf then
        { r with pending := r.pending ++
            [.leaf node.left (u32 (sub64 offset range.offset / pageSize))] }
      else
        { r with pending := r.pending ++
            (if node.left.intersects range then [.node node.left node.left.offset] else []) ++
            (if node.right.intersects range then [.node node.right node.right.offset] else []) }
  else r

/-- The `i`-th queued get is answered from `dht`. -/
def answer (r : Reader) (dht : Dht) (range : Query) (pageSize i : Nat) : Reader :=
  match r.pending[i]? with
  | none => r
  | some req =>
    let r' := { r with pending := r.pending.eraseIdx i }
    match req with
    | .node key offset => r'.readCallback range pageSize offset (dht key)
    | .leaf key index => r'.leafCallback key index (dht key)

/-- `wait`: step `n` answers the queued get number `sched n` from the DHT as it is then; `none`
when `fuel` steps are not enough. -/
def wait (dhts : Nat → Dht) (sched : Nat → Nat) (range : Query) (pageSize : Nat) :
    Nat → Nat → Reader → Option Reader
  | 0, _, r => if r.pending.isEmpty then some r else none
  | fuel + 1, n, r =>
    if r.pending.isEmpty then some r
    else wait dhts sched range pageSize fuel (n + 1)
      (r.answer (dhts n) range pageSize (sched n % r.pending.length))

end Reader

/-- `readRecordLocations` on a vector of `count` leaves: its result, and the leaves. -/
def readRecordLocations (dhts : Nat → Dht) (sched : Nat → Nat) (fuel count : Nat) (range : Query)
    (root : Root) : Option (Bool × List RandomSelect) :=
  (Reader.wait dhts sched range root.pageSize fuel 0
    { leaves := List.replicate count {}, pending := [.node root.node 0] }).map
    fun r => (r.result, r.leaves)

end BlobSeer
