import BlobSeer.Provider.PageManager
import Mathlib.Data.List.GetD

/-!
# Partial reads of a page (`provider/page_manager.hpp`)

`read_partial_page` gives back a part of a page as a buffer that points into the page itself. The
request names the part by a 64-bit offset and a 64-bit size, of which nothing is known. Where the
pointer leaves the page, the reply is made of whatever lies there in memory.
-/

namespace BlobSeer.PageManager

open Persistency (find)

/-- The byte at a displacement from the start of a page; `memory` holds what is not in the page. -/
def peek (memory : UInt64 → UInt8) (page : Buffer) (i : UInt64) : UInt8 :=
  page.getD i.toNat (memory i)

/-- `buffer_wrapper(data.get() + offset, size, true)`: the size is kept in an `unsigned int`, and
the pointer goes on from `offset` byte by byte. -/
def view (memory : UInt64 → UInt8) (page : Buffer) (offset size : UInt64) : Buffer :=
  (List.range size.toUInt32.toNat).map fun i => peek memory page (offset + UInt64.ofNat i)

variable {σ : Type} [Persistency σ]

/-- `read_partial_page`. -/
def readPartialPage (archive : Archive UInt64) (memory : UInt64 → UInt8) (params : List Buffer)
    (s : σ) : Except String (Int × List Buffer × σ) := do
  match params with
  | [key, p1, p2] =>
    match ← p1.getValue archive with
    | none => pure (RpcStatus.earg, [], s)
    | some offset =>
      match ← p2.getValue archive with
      | none => pure (RpcStatus.earg, [], s)
      | some size =>
        match Persistency.read s key with
        | (none, s) => pure (RpcStatus.eobj, [], s)
        | (some data, s) =>
          if data.length < (offset + size).toNat then pure (RpcStatus.eobj, [], s)
          else pure (RpcStatus.ok, [view memory data offset size], s)
  | _ => pure (RpcStatus.earg, [], s)

/-- What is asked of a partial read: it succeeds when the part lies in the page, and only then, and
its one result is that part. -/
def StaysInside (page : Buffer) (offset size : UInt64)
    (reply : Except String (Int × List Buffer × σ)) : Prop :=
  ∃ status result s, reply = .ok (status, result, s) ∧
    (status = RpcStatus.ok ↔ offset.toNat + size.toNat ≤ page.length) ∧
    result = if status = RpcStatus.ok then [(page.drop offset.toNat).take size.toNat] else []

/-! ## What is read -/

section Reads

variable {archive : Archive UInt64} {memory : UInt64 → UInt8} {s : σ} {key p1 p2 page : Buffer}
  {offset size : UInt64}

/-- A request that decodes, for a page that is stored. -/
theorem readPartialPage_eq (h1 : p1.getValue archive = .ok (some offset))
    (h2 : p2.getValue archive = .ok (some size)) (hpage : find s key = some page) :
    readPartialPage archive memory [key, p1, p2] s =
      if page.length < (offset + size).toNat then
        .ok (RpcStatus.eobj, [], (Persistency.read s key).2)
      else .ok (RpcStatus.ok, [view memory page offset size], (Persistency.read s key).2) := by
  have hread : Persistency.read s key = (some page, (Persistency.read s key).2) :=
    Prod.ext hpage rfl
  simp only [readPartialPage, h1, h2]
  rw [hread]
  rfl

theorem peek_of_lt {i : UInt64} (hi : i.toNat < page.length) :
    peek memory page i = page[i.toNat] :=
  List.getD_eq_getElem _ _ hi

/-- A part that lies in the page is read as it is there. -/
theorem view_eq (hlen : page.length < 2 ^ 32) (h : offset.toNat + size.toNat ≤ page.length) :
    view memory page offset size = (page.drop offset.toNat).take size.toNat := by
  have hsize : size.toUInt32.toNat = size.toNat := by
    rw [UInt64.toNat_toUInt32]
    exact Nat.mod_eq_of_lt (by omega)
  refine List.ext_getElem ?_ fun i hi hi' => ?_
  · simp only [view, List.length_map, List.length_range, List.length_take, List.length_drop, hsize]
    omega
  · simp only [view, List.length_map, List.length_range, hsize] at hi
    have hat : (offset + UInt64.ofNat i).toNat = offset.toNat + i := by
      rw [UInt64.toNat_add, UInt64.toNat_ofNat', Nat.mod_eq_of_lt (a := i) (by omega)]
      exact Nat.mod_eq_of_lt (by omega)
    simp only [view, List.getElem_map, List.getElem_range, List.getElem_take, List.getElem_drop]
    rw [peek_of_lt (by omega)]
    simp only [hat]

/-- The bound is tested on the sum of 64 bits; it is the sum of the two numbers when that fits, and
a sum that wraps is always too large for the page. -/
theorem readPartialPage_staysInside (h1 : p1.getValue archive = .ok (some offset))
    (h2 : p2.getValue archive = .ok (some size)) (hpage : find s key = some page)
    (hlen : page.length < 2 ^ 32) :
    StaysInside page offset size (readPartialPage archive memory [key, p1, p2] s) ↔
      offset.toNat + size.toNat < 2 ^ 64 ∨
        page.length < (offset.toNat + size.toNat) % 2 ^ 64 := by
  rw [readPartialPage_eq h1 h2 hpage, UInt64.toNat_add]
  constructor
  · rintro ⟨status, result, s', hreply, hok, -⟩
    rcases Nat.lt_or_ge (offset.toNat + size.toNat) (2 ^ 64) with hfits | hwraps
    · exact .inl hfits
    refine .inr (Nat.lt_of_not_le fun hle => ?_)
    rw [if_neg (Nat.not_lt.mpr hle)] at hreply
    cases hreply
    have := hok.mp rfl
    omega
  · intro h
    split
    · rename_i hlt
      refine ⟨_, _, _, rfl, ⟨fun hok => absurd hok (by decide), fun hle => ?_⟩, rfl⟩
      rw [Nat.mod_eq_of_lt (by omega)] at hlt
      omega
    · rename_i hlt
      rcases h with hfits | hgt
      · rw [Nat.mod_eq_of_lt hfits] at hlt
        refine ⟨_, _, _, rfl, ⟨fun _ => Nat.le_of_not_lt hlt, fun _ => rfl⟩, ?_⟩
        rw [if_pos rfl, view_eq hlen (Nat.le_of_not_lt hlt)]
      · exact absurd hgt hlt

end Reads

/-! ## A sum that wraps -/

/-- An archive without a header: the eight bytes of a number, the lowest one first. -/
def bareWord : Archive UInt64 := fun b =>
  if b.length = 8 then some (b.foldr (fun x n => n * 256 + x.toUInt64) 0) else none

/-- A provider that holds one page of three bytes, under the key `[7]`. -/
def onePage : NullBwMap := ((NullBwMap.new 1 10).write [7] [1, 2, 3]).2

theorem find_onePage : find onePage [7] = some [1, 2, 3] := by decide

/-- Two bytes from the middle of the page. -/
theorem readPartialPage_staysInside_middle :
    StaysInside [1, 2, 3] 1 2
      (readPartialPage bareWord (fun _ => 0)
        [[7], [1, 0, 0, 0, 0, 0, 0, 0], [2, 0, 0, 0, 0, 0, 0, 0]] onePage) :=
  (readPartialPage_staysInside (by decide) (by decide) find_onePage (by decide)).mpr (by decide)

/-- Two bytes from the last offset there is: the sum wraps to `1`, and the reply starts with the
byte in front of the page. -/
theorem readPartialPage_wraps :
    ¬ StaysInside [1, 2, 3] (UInt64.ofNat (2 ^ 64 - 1)) 2
      (readPartialPage bareWord (fun _ => 0)
        [[7], [255, 255, 255, 255, 255, 255, 255, 255], [2, 0, 0, 0, 0, 0, 0, 0]] onePage) := by
  have hlast : Buffer.getValue bareWord [255, 255, 255, 255, 255, 255, 255, 255] =
      .ok (some (UInt64.ofNat (2 ^ 64 - 1))) := by decide
  have htwo : Buffer.getValue bareWord [2, 0, 0, 0, 0, 0, 0, 0] = .ok (some 2) := by decide
  rw [readPartialPage_eq hlast htwo find_onePage]
  rintro ⟨status, result, s, hreply, hok, -⟩
  rw [if_neg (by decide)] at hreply
  cases hreply
  exact absurd (hok.mp rfl) (by decide)

end BlobSeer.PageManager
