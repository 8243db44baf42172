import BlobSeer.Lib.Run
import BlobSeer.World.Task

/-!
# The tree nodes of one write

`writeRecordLocations` puts a leaf for every page of the ticket and then, level by level, the inner
nodes above them. Together these are the positions that intersect the range, each once, and the root
comes last (`builds_tree_iff`). The gets of the first `wait` may be answered in any order and with
anything: they only decide what the sibling lists hold.

The loop over the leaves counts in 32 bits (`leafLoop`). From `2 ^ 32` pages on its index never gets
to the end of the queue.
-/

namespace BlobSeer

open Lib

/-! ## The loop over the leaves -/

/-- The first loop of `writeRecordLocations` from its counters `i` and `j` on: the puts, and the
queue with the leaves in it; `none` when `fuel` rounds are not enough. -/
def leafLoop (query : Query) (replicaCount : Nat) (providerList : List ProviderDesc) :
    Nat → Nat → Nat → List Query → Option (List (Query × DhtVal) × List Query)
  | 0, _, _, _ => none
  | fuel + 1, i, j, deque =>
    if i < deque.length then
      let key := deque.getD i {}
      let leaf := leafOf query key
      let providers :=
        (List.range' j (u32 (j + replicaCount) - j)).map fun k => providerList.getD k {}
      match leafLoop query replicaCount providerList fuel (u32 (i + 1)) (u32 (j + replicaCount))
          (deque.set i leaf) with
      | none => none
      | some (puts, deque) =>
        some ((key, .providers providers) ::
          (leaf, .node { isLeaf := true, left := key }) :: puts, deque)
    else some ([], deque)

section leafLoop

variable (query : Query) (replicaCount : Nat) (providerList : List ProviderDesc)

/-- The loop when the leaves of some pages are in the queue already. The induction is on the keys
that are left. -/
theorem leafLoop_append (keys : List Query) :
    ∀ (leaves : List Query) (fuel : Nat), leaves.length + keys.length < 2 ^ 32 →
      leafLoop query replicaCount providerList (keys.length + 1 + fuel) leaves.length
          (u32 (leaves.length * replicaCount)) (leaves ++ keys) =
        some (leafPuts query replicaCount providerList leaves.length keys,
          leaves ++ keys.map (leafOf query)) := by
  induction keys with
  | nil =>
    intro leaves fuel _
    rw [List.length_nil, Nat.zero_add, Nat.add_comm 1, leafLoop, List.append_nil,
      if_neg (Nat.lt_irrefl _)]
    simp [leafPuts]
  | cons key keys ih =>
    intro leaves fuel hlen
    rw [List.length_cons] at hlen
    have hlength : (leaves ++ [leafOf query key]).length = leaves.length + 1 := by simp
    have hi : u32 (leaves.length + 1) = leaves.length + 1 := u32_of_lt (by omega)
    have hj : u32 (u32 (leaves.length * replicaCount) + replicaCount) =
        u32 ((leaves.length + 1) * replicaCount) := by
      rw [Nat.add_mul, Nat.one_mul]
      exact Nat.mod_add_mod _ _ _
    have hlt : leaves.length < (leaves ++ key :: keys).length := by simp
    have hget : (leaves ++ key :: keys).getD leaves.length {} = key := by simp
    have hset : (leaves ++ key :: keys).set leaves.length (leafOf query key) =
        leaves ++ [leafOf query key] ++ keys := by simp
    have ih := ih (leaves ++ [leafOf query key]) fuel (by omega)
    rw [hlength] at ih
    rw [List.length_cons, Nat.add_right_comm _ 1 fuel, leafLoop, if_pos hlt]
    dsimp only
    rw [hget, hset, hi, hj, ih]
    simp [leafPuts, replicas, hj]

/-- With fewer than `2 ^ 32` pages the loop ends after one round for each of them. -/
theorem leafLoop_eq {keys : List Query} (hlen : keys.length < 2 ^ 32) :
    leafLoop query replicaCount providerList (keys.length + 1) 0 0 keys =
      some (leafPuts query replicaCount providerList 0 keys, keys.map (leafOf query)) := by
  have h := leafLoop_append query replicaCount providerList keys [] 0
    (by rw [List.length_nil, Nat.zero_add]; exact hlen)
  rw [List.length_nil, Nat.zero_mul] at h
  exact h

/-- The index wraps around before it gets to the end of `2 ^ 32` pages or more. -/
theorem leafLoop_none (fuel : Nat) :
    ∀ {i j : Nat} {deque : List Query}, 2 ^ 32 ≤ deque.length → i < 2 ^ 32 →
      leafLoop query replicaCount providerList fuel i j deque = none := by
  induction fuel with
  | zero => exact fun _ _ => rfl
  | succ fuel ih =>
    intro i j deque hlen hi
    have hnext : u32 (i + 1) < 2 ^ 32 := Nat.mod_lt _ (Nat.two_pow_pos 32)
    rw [leafLoop, if_pos (by omega)]
    dsimp only
    rw [ih (by rw [List.length_set]; exact hlen) hnext]

end leafLoop

/-! ## The nodes among the puts -/

/-- The tree nodes among some puts. -/
def nodePuts (puts : List (Query × DhtVal)) : List (Query × DhtNode) :=
  puts.filterMap fun e =>
    match e.2 with
    | .node n => some (e.1, n)
    | .providers _ => none

theorem mem_nodePuts {puts : List (Query × DhtVal)} {q : Query} {n : DhtNode} :
    (q, n) ∈ nodePuts puts ↔ (q, .node n) ∈ puts := by
  rw [nodePuts, List.mem_filterMap]
  constructor
  · rintro ⟨⟨q', v⟩, he, h⟩
    cases v with
    | providers l => cases h
    | node n' =>
      cases h
      exact he
  · intro h
    exact ⟨_, h, rfl⟩

theorem nodePuts_append (puts puts' : List (Query × DhtVal)) :
    nodePuts (puts ++ puts') = nodePuts puts ++ nodePuts puts' := List.filterMap_append

theorem nodePuts_leafPuts (query : Query) (rc : Nat) (adv : List ProviderDesc)
    (keys : List Query) :
    ∀ i : Nat, nodePuts (leafPuts query rc adv i keys) =
      keys.map fun key => (leafOf query key, { isLeaf := true, left := key }) := by
  induction keys with
  | nil => exact fun _ => rfl
  | cons key keys ih =>
    intro i
    have ih := ih (i + 1)
    rw [nodePuts] at ih
    rw [nodePuts, leafPuts, List.map_cons, ← ih]
    rfl

theorem nodePuts_map_node (entries : List (Query × DhtNode)) :
    nodePuts (entries.map fun e => (e.1, .node e.2)) = entries := by
  rw [nodePuts, List.filterMap_map]
  exact List.filterMap_some

/-- The positions of level `i` that the pages `a..b` touch. -/
def levelNodes (id version ps a b i : Nat) : List Query :=
  nodesAt id version ps i (a / 2 ^ i) (b / 2 ^ i + 1 - a / 2 ^ i)

/-- The positions up to level `m` that the pages `a..b` touch. -/
def touchedNodes (id version ps a b m : Nat) : List Query :=
  (List.range' 0 (m + 1)).flatMap (levelNodes id version ps a b)

section touchedNodes

variable {id version ps a b m : Nat}

theorem mem_levelNodes {i : Nat} {q : Query} :
    q ∈ levelNodes id version ps a b i ↔ ∃ j, Touches a b i j ∧ q = nodeAt id version ps i j := by
  simp only [levelNodes, nodesAt, List.mem_map, List.mem_range'_1, Touches]
  constructor
  · rintro ⟨j, ⟨h1, h2⟩, rfl⟩
    exact ⟨j, ⟨h1, by omega⟩, rfl⟩
  · rintro ⟨j, ⟨h1, h2⟩, rfl⟩
    exact ⟨j, ⟨h1, by omega⟩, rfl⟩

theorem mem_touchedNodes {q : Query} : q ∈ touchedNodes id version ps a b m ↔
    ∃ i j, i ≤ m ∧ Touches a b i j ∧ q = nodeAt id version ps i j := by
  simp only [touchedNodes, List.mem_flatMap, List.mem_range'_1, mem_levelNodes]
  constructor
  · rintro ⟨i, ⟨-, hi⟩, j, hj⟩
    exact ⟨i, j, by omega, hj⟩
  · rintro ⟨i, j, hi, hj⟩
    exact ⟨i, ⟨Nat.zero_le i, by omega⟩, j, hj⟩

/-- Different blocks have different positions. -/
theorem touchedNodes_nodup (hps : 0 < ps) : (touchedNodes id version ps a b m).Nodup := by
  refine List.nodup_flatMap.mpr ⟨?_, ?_⟩
  · intro i _
    refine List.Nodup.map_on ?_ (List.nodup_range' 1)
    intro j _ j' _ he
    exact (nodeAt_inj hps he).2.2.2
  · refine (List.nodup_range' 1).imp ?_
    intro i i' hne q hq hq'
    obtain ⟨j, -, rfl⟩ := mem_levelNodes.mp hq
    obtain ⟨j', -, he⟩ := mem_levelNodes.mp hq'
    exact hne (nodeAt_inj hps he).2.2.1

/-- The leaves and the keys of the inner nodes are the touched positions. -/
theorem levelNodes_append_innerEntries (left right : List Query) :
    levelNodes id version ps a b 0 ++
        (innerEntries left right id version ps a b 0 m).map (·.1) =
      touchedNodes id version ps a b m := by
  have hlevel : ∀ i, (levelEntries left right id version ps a b i (a / 2 ^ (i + 1))
      (b / 2 ^ (i + 1) + 1 - a / 2 ^ (i + 1))).map (·.1) =
      levelNodes id version ps a b (i + 1) := by
    intro i
    rw [levelEntries, List.map_map]
    rfl
  have hshift : List.range' 1 m = (List.range' 0 m).map (1 + ·) :=
    (List.map_add_range' 0 m 1).symm
  rw [touchedNodes, List.range'_succ, List.flatMap_cons, innerEntries, List.map_flatMap,
    Nat.zero_add, hshift, List.flatMap_map]
  simp only [hlevel, Nat.add_comm 1]

end touchedNodes

/-! ## What is asked of the builder -/

/-- Two ranges have a byte in common. -/
def Query.Meets (q range : Query) : Prop :=
  q.offset < range.offset + range.size ∧ range.offset < q.offset + q.size

instance (q range : Query) : Decidable (q.Meets range) := inferInstanceAs (Decidable (_ ∧ _))

/-- A child is at its half of the parent, or it is the empty query. -/
def Query.AtOrEmpty (q half : Query) : Prop :=
  q = {} ∨ q.offset = half.offset ∧ q.size = half.size

theorem searchList_atOrEmpty (siblings : List Query) (q : Query) :
    (searchList siblings q.offset q.size).AtOrEmpty q := by
  unfold searchList
  cases hfind : siblings.find? fun s => decide (s.offset = q.offset ∧ s.size = q.size) with
  | none => exact .inl rfl
  | some s =>
    have hmatch := List.find?_some hfind
    exact .inr (of_decide_eq_true hmatch)

namespace Ticket

/-- `node_deque` as `exec_write` passes it on. -/
def keys (K : Ticket) : List Query := pageKeys K.query.id K.pageVersion K.pageSize K.query.size

/-- The child at block `j` of level `i`: a node of the ticket, or what `search_list` finds. -/
def child (K : Ticket) (siblings : List Query) (i j : Nat) : Query :=
  if (K.node i j).Meets K.query then K.node i j
  else searchList siblings (K.node i j).offset (K.node i j).size

theorem child_atOrEmpty (K : Ticket) (siblings : List Query) (i j : Nat) :
    (K.child siblings i j).AtOrEmpty (K.node i j) := by
  unfold child
  split
  · exact .inr ⟨rfl, rfl⟩
  · exact searchList_atOrEmpty siblings (K.node i j)

/-- The puts of a write with these sibling lists: one node for each position up to level `k` that
meets the range, the root as the last one, and nothing else besides the page keys. -/
structure TouchedNodes (K : Ticket) (k : Nat) (left right : List Query)
    (puts : List (Query × DhtVal)) : Prop where
  once : ((nodePuts puts).map (·.1)).Nodup
  touched : ∀ q, q ∈ (nodePuts puts).map (·.1) ↔
    ∃ i j, i ≤ k ∧ (K.node i j).Meets K.query ∧ q = K.node i j
  pages : ∀ q l, (q, .providers l) ∈ puts → q ∈ K.keys
  root : ∃ n, puts.getLast? =
    some (⟨K.query.id, K.query.version, 0, K.reply.rootSize⟩, .node n)
  leaf : ∀ j n, (K.node 0 j, .node n) ∈ puts → n = { isLeaf := true, left := K.pageKey j }
  inner : ∀ i j n, (K.node (i + 1) j, .node n) ∈ puts →
    n = { isLeaf := false, left := K.child left i (2 * j), right := K.child right i (2 * j + 1) }
  halves : ∀ i j n, (K.node (i + 1) j, .node n) ∈ puts →
    n.left.AtOrEmpty (K.node i (2 * j)) ∧ n.right.AtOrEmpty (K.node i (2 * j + 1))

end Ticket

/-- What can happen in the first `wait` of a write whose puts all succeed: a put is acknowledged, or
a get is answered with any value. -/
inductive WriterStep where
  | put (i : Nat)
  | get (i : Nat) (val : Option DhtVal)

/-- One answer of the DHT. -/
def Writer.answer (w : Writer) : WriterStep → Option Writer
  | .put i => if i < w.puts.length then some (w.endPut i .acked) else none
  | .get i val => (w.gets[i]?).map fun g => w.endGet i g.1 g.2 val

/-- The loops of `writeRecordLocations` end, and when nothing is queued any more the two stages have
put the touched nodes. -/
def Ticket.BuildsTree (K : Ticket) (k : Nat) : Prop :=
  ∃ fuel w, leafLoop K.query K.reply.stableRoot.replicaCount K.adv fuel 0 0 K.keys =
      some (w.puts, w.deque) ∧
    Writer.start K.reply K.keys K.adv = some w ∧
    ∀ steps w', Run Writer.answer (fun _ _ => True) w steps w' → w'.puts = [] → w'.gets = [] →
      ∃ w'', w'.endWait K.reply.rootSize = some w'' ∧ w''.stage = .inner ∧
        K.TouchedNodes k w'.leftSiblings w'.rightSiblings (w.puts ++ w''.puts)

/-! ## The puts of both loops -/

namespace Ticket

/-- The puts of the bottom-up loop. -/
def innerPuts (K : Ticket) (left right : List Query) : List (Query × DhtNode) :=
  innerEntries left right K.query.id K.query.version K.pageSize K.first K.final 0 K.levels

/-- The puts of the two loops. -/
def treePuts (K : Ticket) (left right : List Query) : List (Query × DhtVal) :=
  leafPuts K.query K.reply.stableRoot.replicaCount K.adv 0 K.keys ++
    (K.innerPuts left right).map fun e => (e.1, .node e.2)

theorem nodePuts_treePuts (K : Ticket) (left right : List Query) :
    nodePuts (K.treePuts left right) =
      (K.keys.map fun key => (leafOf K.query key, { isLeaf := true, left := key })) ++
        K.innerPuts left right := by
  rw [treePuts, nodePuts_append, nodePuts_leafPuts, nodePuts_map_node]

variable {K : Ticket} (hK : K.Layout)

include hK

theorem Layout.meets_iff (i j : Nat) :
    (K.node i j).Meets K.query ↔ Touches K.first K.final i j := by
  have hps := hK.pageSize_pos
  have hend : (K.node i j).offset + (K.node i j).size = (j + 1) * (K.pageSize * 2 ^ i) := by
    rw [Nat.add_mul, Nat.one_mul]
    rfl
  rw [Query.Meets, hK.last_eq, hend, hK.offset]
  show j * (K.pageSize * 2 ^ i) < _ ∧ _ ↔ _
  rw [block_lt_iff hps, lt_block_iff hps, Touches]
  exact And.comm

/-- The halves of a touched position. -/
theorem Layout.childNode_eq (left right : List Query) {i j : Nat}
    (hj : Touches K.first K.final (i + 1) j) :
    childNode left right K.query.id K.query.version K.pageSize K.first K.final i j =
      { isLeaf := false, left := K.child left i (2 * j),
        right := K.child right i (2 * j + 1) } := by
  obtain ⟨h1, h2⟩ := hj
  rw [div_two_pow_succ] at h1 h2
  have hleft : (K.node i (2 * j)).Meets K.query ↔ K.first / 2 ^ i ≤ 2 * j := by
    rw [hK.meets_iff, Touches]
    omega
  have hright : (K.node i (2 * j + 1)).Meets K.query ↔ 2 * j + 1 ≤ K.final / 2 ^ i := by
    rw [hK.meets_iff, Touches]
    omega
  simp only [childNode, child, hleft, hright]
  rfl

/-- A put of the first loop is of a page of the ticket. -/
theorem Layout.mem_leafNodes {q : Query} {n : DhtNode}
    (h : (q, n) ∈ K.keys.map fun key => (leafOf K.query key, { isLeaf := true, left := key })) :
    ∃ x, q = K.node 0 x ∧ n = { isLeaf := true, left := K.pageKey x } := by
  obtain ⟨key, hkey, he⟩ := List.mem_map.mp h
  rw [keys, hK.pageKeys_eq] at hkey
  obtain ⟨i, hi, rfl⟩ := List.mem_map.mp hkey
  rw [hK.leafOf_eq (List.mem_range.mp hi), Prod.mk.injEq] at he
  refine ⟨K.first + i, he.1.symm, ?_⟩
  rw [pageKey, Nat.add_sub_cancel_left]
  exact he.2.symm

/-- The positions of the nodes are the touched ones. -/
theorem Layout.nodePuts_keys (left right : List Query) :
    (nodePuts (K.treePuts left right)).map (·.1) =
      touchedNodes K.query.id K.query.version K.pageSize K.first K.final K.levels := by
  have hleaves : (K.keys.map fun key =>
      (leafOf K.query key, ({ isLeaf := true, left := key } : DhtNode))).map (·.1) =
      levelNodes K.query.id K.query.version K.pageSize K.first K.final 0 := by
    rw [List.map_map, levelNodes, Nat.pow_zero, Nat.div_one, Nat.div_one, ← hK.deque_eq]
    rfl
  rw [nodePuts_treePuts, List.map_append, hleaves]
  exact levelNodes_append_innerEntries left right

/-- The last put is the one of the root, which is a leaf in a tree of one page. -/
theorem Layout.treePuts_getLast? (left right : List Query) :
    ∃ n, (K.treePuts left right).getLast? =
      some (⟨K.query.id, K.query.version, 0, K.reply.rootSize⟩, .node n) := by
  have hle := hK.le
  have hlt := hK.final_lt
  have hroot : (⟨K.query.id, K.query.version, 0, K.reply.rootSize⟩ : Query) =
      K.node K.levels 0 := by
    rw [node, nodeAt, Nat.zero_mul, hK.rootSize]
  rw [hroot, treePuts]
  cases hlevels : K.levels with
  | zero =>
    have hone : K.final + 1 - K.first = 0 + 1 := by
      rw [hlevels] at hlt
      omega
    have hleaf := hK.leafOf_eq (i := 0) (by omega)
    have hkeys : K.keys = [⟨K.query.id, K.pageVersion, 0, K.pageSize⟩] := by
      rw [keys, hK.pageKeys_eq, hone]
      rfl
    have hinner : K.innerPuts left right = [] := by
      rw [innerPuts, hlevels]
      rfl
    have hfirst : K.first = 0 := by
      rw [hlevels] at hlt
      omega
    rw [hinner, List.map_nil, List.append_nil, hkeys]
    simp only [leafPuts, hleaf, hfirst]
    exact ⟨_, rfl⟩
  | succ m =>
    have hzero : ∀ {x : Nat}, x ≤ K.final → x / 2 ^ (m + 1) = 0 := by
      intro x hx
      rw [hlevels] at hlt
      exact Nat.div_eq_of_lt (by omega)
    have hinner : K.innerPuts left right =
        innerEntries left right K.query.id K.query.version K.pageSize K.first K.final 0 m ++
          [(K.node (m + 1) 0, childNode left right K.query.id K.query.version K.pageSize K.first
            K.final m 0)] := by
      rw [innerPuts, hlevels, innerEntries, List.range'_concat, List.flatMap_append]
      simp [hzero hle, hzero (Nat.le_refl K.final), levelEntries, innerEntries, node]
    rw [hinner, List.map_append, ← List.append_assoc]
    exact ⟨_, List.getLast?_concat⟩

/-- Both loops together put the touched nodes. -/
theorem Layout.touchedNodes (left right : List Query) :
    K.TouchedNodes K.levels left right (K.treePuts left right) := by
  have hps := hK.pageSize_pos
  have hkeys := hK.nodePuts_keys left right
  have hcases : ∀ {q n}, (q, .node n) ∈ K.treePuts left right →
      (∃ x, q = K.node 0 x ∧ n = { isLeaf := true, left := K.pageKey x }) ∨
      ∃ i j, Touches K.first K.final (i + 1) j ∧ q = K.node (i + 1) j ∧
        n = { isLeaf := false, left := K.child left i (2 * j),
              right := K.child right i (2 * j + 1) } := by
    intro q n h
    rw [← mem_nodePuts, nodePuts_treePuts, List.mem_append] at h
    rcases h with h | h
    · exact .inl (hK.mem_leafNodes h)
    · obtain ⟨i, j, -, hj, he⟩ := mem_innerEntries.mp h
      rw [Prod.mk.injEq, hK.childNode_eq left right hj] at he
      exact .inr ⟨i, j, hj, he⟩
  have hinner : ∀ i j n, (K.node (i + 1) j, .node n) ∈ K.treePuts left right →
      n = { isLeaf := false, left := K.child left i (2 * j),
            right := K.child right i (2 * j + 1) } := by
    intro i j n h
    rcases hcases h with ⟨x, hq, -⟩ | ⟨i', j', -, hq, hn⟩
    · have hlevel := (nodeAt_inj hps hq).2.2.1
      omega
    · obtain ⟨-, -, hi, hj⟩ := nodeAt_inj hps hq
      have hi' : i = i' := by omega
      rw [hn, hi', hj]
  refine ⟨?_, ?_, ?_, hK.treePuts_getLast? left right, ?_, hinner, ?_⟩
  · rw [hkeys]
    exact touchedNodes_nodup hps
  · intro q
    rw [hkeys, mem_touchedNodes]
    simp only [hK.meets_iff]
    rfl
  · intro q l h
    rcases List.mem_append.mp h with h | h
    · obtain ⟨d, key, hd, he⟩ := mem_leafPuts.mp h
      rcases he with he | he
      · cases he
        exact List.mem_of_getElem? hd
      · cases he
    · obtain ⟨e, -, he⟩ := List.mem_map.mp h
      cases he
  · intro j n h
    rcases hcases h with ⟨x, hq, hn⟩ | ⟨i, j', -, hq, -⟩
    · have hx := (nodeAt_inj hps hq).2.2.2
      rw [hn, hx]
    · have hlevel := (nodeAt_inj hps hq).2.2.1
      omega
  · intro i j n h
    rw [hinner i j n h]
    exact ⟨K.child_atOrEmpty left i (2 * j), K.child_atOrEmpty right i (2 * j + 1)⟩

theorem Layout.keys_length : K.keys.length = K.query.size / K.pageSize := by
  rw [keys, hK.pageKeys_eq, List.length_map, List.length_range, hK.size,
    Nat.mul_div_cancel _ hK.pageSize_pos]

end Ticket

/-! ## The whole call -/

/-- The answers of the first `wait` change nothing but what is queued and the sibling lists. -/
theorem Writer.answer_eq {w w' : Writer} {a : WriterStep} (h : w.answer a = some w') :
    w'.stage = w.stage ∧ w'.result = w.result ∧ w'.deque = w.deque := by
  cases a with
  | put i =>
    rw [answer] at h
    split at h
    · cases h
      exact ⟨rfl, Bool.and_true _, rfl⟩
    · cases h
  | get i val =>
    obtain ⟨g, -, rfl⟩ := Option.map_eq_some_iff.mp h
    exact ⟨rfl, rfl, rfl⟩

/-- Where the first `wait` returns after its puts have succeeded, the inner nodes are put. -/
theorem Ticket.Layout.endWait_eq {K : Ticket} (hK : K.Layout) {w : Writer}
    (hstage : w.stage = .leaves) (hresult : w.result = true)
    (hdeque : w.deque =
      nodesAt K.query.id K.query.version K.pageSize 0 K.first (K.final + 1 - K.first))
    (hputs : w.puts = []) (hgets : w.gets = []) :
    w.endWait K.reply.rootSize = some { w with
      stage := .inner
      puts := (K.innerPuts w.leftSiblings w.rightSiblings).map fun e => (e.1, .node e.2) } := by
  have hinner : w.innerPuts K.reply.rootSize =
      some ((K.innerPuts w.leftSiblings w.rightSiblings).map fun e => (e.1, .node e.2)) :=
    hK.innerPuts_eq hdeque
  rw [Writer.endWait, hputs, hgets, hstage, hresult, hinner]
  rfl

/-- **The builder writes exactly the touched nodes**, for a ticket of whole pages within a tree of
`k` levels, whatever the DHT answers, if and only if the ticket has fewer than `2 ^ 32` pages. -/
theorem builds_tree_iff {K : Ticket} {k : Nat} (hps : 0 < K.pageSize)
    (hoffset : K.pageSize ∣ K.query.offset) (hsize : K.pageSize ∣ K.query.size)
    (hpos : 0 < K.query.size) (hle : K.query.offset + K.query.size ≤ K.reply.rootSize)
    (hroot : K.reply.rootSize = K.pageSize * 2 ^ k) (hlt : K.reply.rootSize < 2 ^ 64) :
    K.BuildsTree k ↔ K.query.size / K.pageSize < 2 ^ 32 := by
  obtain ⟨hK, hlevels⟩ := Ticket.Layout.of_fits hps hoffset hsize hpos hle hroot hlt
  rw [← hK.keys_length]
  constructor
  · rintro ⟨fuel, w, hloop, -⟩
    by_contra hmany
    rw [leafLoop_none _ _ _ fuel (Nat.not_lt.mp hmany) (Nat.two_pow_pos 32)] at hloop
    cases hloop
  · intro hfew
    refine ⟨K.keys.length + 1, _, ?_, hK.start_eq, ?_⟩
    · rw [leafLoop_eq _ _ _ hfew, Ticket.keys, hK.deque_eq]
    · intro steps w' hrun hputs hgets
      obtain ⟨hstage, hresult, hdeque⟩ := hrun.inv
        (P := fun w => w.stage = .leaves ∧ w.result = true ∧ w.deque =
          nodesAt K.query.id K.query.version K.pageSize 0 K.first (K.final + 1 - K.first))
        (fun ⟨h1, h2, h3⟩ _ hstep => by
          obtain ⟨e1, e2, e3⟩ := Writer.answer_eq hstep
          exact ⟨e1.trans h1, e2.trans h2, e3.trans h3⟩)
        ⟨rfl, rfl, rfl⟩
      refine ⟨_, hK.endWait_eq hstage hresult hdeque hputs hgets, rfl, ?_⟩
      exact hlevels ▸ hK.touchedNodes w'.leftSiblings w'.rightSiblings

/-- The first write to a blob with pages of one byte. -/
def firstWrite (pages rootSize : Nat) : Ticket where
  reply := {
    intervals := [{ key := ⟨1, 1, 0, pages⟩, root := {} }]
    rootSize := rootSize
    stableRoot := Root.make 1 0 1 0 1 }
  pageVersion := 2
  adv := []

/-- Three pages in a tree of four. -/
theorem builds_tree_three : (firstWrite 3 4).BuildsTree 2 :=
  (builds_tree_iff (by decide) (by decide) (by decide) (by decide) (by decide) (by decide)
    (by decide)).mpr (by decide)

/-- With `2 ^ 32` pages the first loop never ends. With three pages in a tree of four, `search_list`
finds nothing for the page behind them, and the child there is the empty query. -/
theorem builds_tree_limits :
    ¬ (firstWrite (2 ^ 32) (2 ^ 32)).BuildsTree 32 ∧
    ∃ w, Writer.start (firstWrite 3 4).reply (firstWrite 3 4).keys [] = some w ∧ w.gets = [] ∧
      w.innerPuts 4 = some [(⟨1, 1, 0, 2⟩, .node ⟨false, ⟨1, 1, 0, 1⟩, ⟨1, 1, 1, 1⟩⟩),
        (⟨1, 1, 2, 2⟩, .node ⟨false, ⟨1, 1, 2, 1⟩, {}⟩),
        (⟨1, 1, 0, 4⟩, .node ⟨false, ⟨1, 1, 0, 2⟩, ⟨1, 1, 2, 2⟩⟩)] := by
  constructor
  · rintro ⟨fuel, w, hloop, -⟩
    have hlen : (firstWrite (2 ^ 32) (2 ^ 32)).keys.length = 2 ^ 32 := by
      rw [Ticket.keys, pageKeys, List.length_map, List.length_range]
      rfl
    rw [leafLoop_none _ _ _ fuel (Nat.le_of_eq hlen.symm) (Nat.two_pow_pos 32)] at hloop
    cases hloop
  · exact ⟨_, rfl, rfl, rfl⟩

end BlobSeer
