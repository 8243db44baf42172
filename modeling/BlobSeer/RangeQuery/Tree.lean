import BlobSeer.RangeQuery.Builder

/-!
# What a tree means

A snapshot of a blob is a `PageMap`: for each page index the page key and the providers, or
nothing for a page that was never written. `Denotes dht ps m i j p` says that the node pointer
`p` stands for `m` on block `j` of level `i`: it is a hole over an empty block, or it names a node
that is in the DHT and whose children stand for `m` on the two halves. Since keys are never
overwritten, a denotation survives every later put (`Denotes.mono`).

`denotes_own` is the meaning of the nodes that one write puts: its own pages, and what its
siblings stand for elsewhere.
-/

namespace BlobSeer

open Lib

/-- A snapshot, by page index. -/
abbrev PageMap := Nat → Option RandomSelect

/-- Later states of a DHT whose keys are written once. -/
def DhtLe (d d' : Dht) : Prop := ∀ k v, d k = some v → d' k = some v

theorem DhtLe.refl (d : Dht) : DhtLe d d := fun _ _ h => h

/-- A pointer that leads nowhere: no sibling was found, or the sibling was a hole itself. -/
def Hole (ps i j : Nat) (p : Query) : Prop := p = {} ∨ ∃ v, p = nodeAt 0 v ps i j

theorem Hole.id_eq {ps i j : Nat} {p : Query} (h : Hole ps i j p) : p.id = 0 := by
  rcases h with rfl | ⟨v, rfl⟩ <;> rfl

/-- The pointer `p` stands for the page map `m` on block `j` of level `i`. -/
inductive Denotes (dht : Dht) (ps : Nat) (m : PageMap) : Nat → Nat → Query → Prop
  | hole {i j : Nat} {p : Query} (hp : Hole ps i j p) (hm : ∀ x, x / 2 ^ i = j → m x = none) :
      Denotes dht ps m i j p
  | leaf {j id v : Nat} {key : Query} {l : List ProviderDesc}
      (hp : dht (nodeAt id v ps 0 j) = some (.node { isLeaf := true, left := key }))
      (hk : dht key = some (.providers l)) (hm : m j = some ⟨key, l⟩) :
      Denotes dht ps m 0 j (nodeAt id v ps 0 j)
  | inner {i j id v : Nat} {l r : Query}
      (hp : dht (nodeAt id v ps (i + 1) j) = some (.node ⟨false, l, r⟩))
      (hl : Denotes dht ps m i (2 * j) l) (hr : Denotes dht ps m i (2 * j + 1) r) :
      Denotes dht ps m (i + 1) j (nodeAt id v ps (i + 1) j)

namespace Denotes

variable {dht dht' : Dht} {ps i j : Nat} {m m' : PageMap} {p : Query}

theorem mono (h : Denotes dht ps m i j p) (hle : DhtLe dht dht') : Denotes dht' ps m i j p := by
  induction h with
  | hole hp hm => exact .hole hp hm
  | leaf hp hk hm => exact .leaf (hle _ _ hp) (hle _ _ hk) hm
  | inner hp _ _ ihl ihr => exact .inner (hle _ _ hp) ihl ihr

/-- Only the pages of the block matter. -/
theorem congr (h : Denotes dht ps m i j p) (hm : ∀ x, x / 2 ^ i = j → m' x = m x) :
    Denotes dht ps m' i j p := by
  induction h with
  | hole hp h0 => exact .hole hp fun x hx => (hm x hx).trans (h0 x hx)
  | @leaf j id v key l hp hk h0 =>
    refine .leaf hp hk ?_
    rw [hm j (by simp), h0]
  | @inner i j id v l r hp _ _ ihl ihr =>
    refine .inner hp (ihl fun x hx => hm x ?_) (ihr fun x hx => hm x ?_)
    · rw [div_two_pow_succ]
      omega
    · rw [div_two_pow_succ]
      omega

/-- A pointer with the geometry of its block, as the walks through a tree make it. -/
theorem placed (h : Denotes dht ps m i j p) :
    Denotes dht ps m i j { p with offset := j * (ps * 2 ^ i), size := ps * 2 ^ i } := by
  cases h with
  | hole hp hm =>
    refine .hole (.inr ⟨p.version, ?_⟩) hm
    simp only [nodeAt, hp.id_eq]
  | leaf hp hk hm => exact .leaf hp hk hm
  | inner hp hl hr => exact .inner hp hl hr

end Denotes

/-! ## Looking up one page -/

/-- The page that the pointers lead to from a node of level `i`, with the turns given by the
binary digits of the page index. -/
def resolve (dht : Dht) : Nat → Query → Nat → Option RandomSelect
  | 0, p, _ =>
    match readNode (dht p) with
    | some node =>
      if node.isLeaf then
        match dht node.left with
        | some (.providers l) => some ⟨node.left, l⟩
        | _ => none
      else none
    | none => none
  | i + 1, p, x =>
    match readNode (dht p) with
    | some node =>
      if node.isLeaf then none
      else if x / 2 ^ i % 2 = 0 then resolve dht i node.left x
      else resolve dht i node.right x
    | none => none

/-- No node has the id `0`. -/
def NoZero (dht : Dht) : Prop := ∀ k : Query, k.id = 0 → dht k = none

theorem Denotes.resolve_eq {dht : Dht} {ps i j : Nat} {m : PageMap} {p : Query}
    (h : Denotes dht ps m i j p) (hz : NoZero dht) :
    ∀ x, x / 2 ^ i = j → resolve dht i p x = m x := by
  induction h with
  | @hole i j p hp hm =>
    intro x hx
    have hnone := hz p hp.id_eq
    rw [hm x hx]
    cases i <;> simp [resolve, hnone, readNode]
  | leaf hp hk hm =>
    intro x hx
    rw [Nat.pow_zero, Nat.div_one] at hx
    subst hx
    simp [resolve, hp, hk, hm, readNode]
  | @inner i j id v l r hp _ _ ihl ihr =>
    intro x hx
    rw [div_two_pow_succ] at hx
    simp only [resolve, hp, readNode, Bool.false_eq_true, if_false]
    split
    · exact ihl x (by omega)
    · exact ihr x (by omega)

/-! ## The nodes of one write -/

section own

variable {dht : Dht} {id version ps a b m : Nat} {left right : List Query} {snapshot : PageMap}
  (hab : a ≤ b)
  (hleaf : ∀ x, a ≤ x → x ≤ b → ∃ key l,
    dht (nodeAt id version ps 0 x) = some (.node { isLeaf := true, left := key }) ∧
    dht key = some (.providers l) ∧ snapshot x = some ⟨key, l⟩)
  (hinner : ∀ i k, i < m → Touches a b (i + 1) k →
    dht (nodeAt id version ps (i + 1) k) =
      some (.node (childNode left right id version ps a b i k)))
  (hleft : ∀ i, i < m → a / 2 ^ i % 2 = 1 → Denotes dht ps snapshot i (a / 2 ^ i - 1)
    (searchList left ((a / 2 ^ i - 1) * (ps * 2 ^ i)) (ps * 2 ^ i)))
  (hright : ∀ i, i < m → b / 2 ^ i % 2 = 0 → Denotes dht ps snapshot i (b / 2 ^ i + 1)
    (searchList right ((b / 2 ^ i + 1) * (ps * 2 ^ i)) (ps * 2 ^ i)))

include hab hleaf hinner hleft hright

/-- Every node of a write stands for the snapshot on its block, when its leaves and its siblings
do. -/
theorem denotes_own :
    ∀ {i j : Nat}, i ≤ m → Touches a b i j →
      Denotes dht ps snapshot i j (nodeAt id version ps i j)
  | 0, j, _, ht => by
    obtain ⟨x, hax, hxb, hx⟩ := ht.exists_mem hab
    rw [Nat.pow_zero, Nat.div_one] at hx
    subst hx
    obtain ⟨key, l, h1, h2, h3⟩ := hleaf x hax hxb
    exact .leaf h1 h2 h3
  | i + 1, j, hi, ht => by
    have hl := ht.left_half hab
    have hr := ht.right_half hab
    refine .inner (hinner i j (by omega) ht) ?_ ?_
    · rcases hl with hl | hl
      · rw [if_pos hl.1]
        exact denotes_own (by omega) hl
      · have h := hleft i (by omega) (by omega)
        rw [if_neg (by omega)]
        rwa [hl, Nat.add_sub_cancel] at h
    · rcases hr with hr | hr
      · rw [if_pos hr.2]
        exact denotes_own (by omega) hr
      · have h := hright i (by omega) (by omega)
        rw [if_neg (by omega)]
        rwa [hr] at h

end own

end BlobSeer
