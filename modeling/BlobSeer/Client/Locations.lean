import BlobSeer.Client.Read

/-!
# Page locations, and versions that are not there (`object_handler::get_locations`)

`get_locations` makes the same three checks as `read`, looks up the same leaves and then lists all
providers of each page. The first check is how a reader finds out that a version is not published:
the version manager answers with its latest root, and the version in the root is compared with the
one that was asked for (`tells_published_iff`).
-/

namespace BlobSeer

open Lib
open VManagement (rootAt)

/-- `page_location_t`. -/
structure PageLocation where
  provider : ProviderDesc
  offset : Nat
  size : Nat
deriving DecidableEq, Repr

/-- How a `get_locations` ends. -/
inductive LocationsResult where
  | threw (what : String)
  | returned (result : Bool) (loc : List PageLocation)
deriving DecidableEq, Repr

/-- The inner loop: `try_next` until it returns an empty provider. -/
def RandomSelect.drain (rand : Nat → Nat) : Nat → RandomSelect → List ProviderDesc
  | 0, _ => []
  | fuel + 1, leaf =>
    let (adv, leaf) := leaf.tryNext (rand leaf.providers.length)
    if adv.empty then [] else adv :: drain rand fuel leaf

/-- The loop over the leaves. Each `try_next` drops a provider, so the inner loop ends. -/
def pageLocations (rand : Nat → Nat → Nat) (pageSize : Nat) (vadv : List RandomSelect) :
    List PageLocation :=
  (List.range vadv.length).flatMap fun i =>
    let leaf := vadv.getD i {}
    (leaf.drain (rand i) (leaf.providers.length + 1)).map fun adv =>
      ⟨adv, u64 (i * pageSize), pageSize⟩

/-- `object_handler::get_locations`, once `query_root` is there and with nothing in `loc`. -/
def locationsRoot (rand : Nat → Nat → Nat)
    (locate : Nat → Query → Root → Option (Bool × List RandomSelect)) (queryRoot : Root)
    (version offset size : Nat) : Option LocationsResult :=
  let psize := queryRoot.pageSize
  if queryRoot.node.version < version then
    some (.threw ("object_handler::get_locations(): requested version higher than latest " ++
      "available version"))
  else if psize = 0 then
    some (.threw ("object_handler::get_locations(): read attempt on unallocated/uninitialized " ++
      "object"))
  else if u64 (offset + size) > queryRoot.node.size then
    some (.threw "object_handler::get_locations(): read attempt beyond maximal size")
  else
    let count := leafCount psize offset size
    let range : Query :=
      ⟨queryRoot.node.id, queryRoot.node.version, newOffset psize offset, u64 (count * psize)⟩
    match locate count range queryRoot with
    | none => none
    | some (false, _) => some (.returned false [])
    | some (true, vadv) => some (.returned true (pageLocations rand psize vadv))

/-! ## The version check -/

/-- The exception of `read` for a version that is not there. -/
def readTooHigh : ReadResult :=
  .threw "object_handler::read(): read attempt on a version higher than latest available version"

/-- The exception of `get_locations` for a version that is not there. -/
def locationsTooHigh : LocationsResult :=
  .threw "object_handler::get_locations(): requested version higher than latest available version"

section check

variable {rand : Nat → Nat → Nat}
  {locate : Nat → Query → Root → Option (Bool × List RandomSelect)} {root : Root}
  {version offset size : Nat}

theorem readRoot_tooHigh_iff {answers : Answers} {buffer : Nat → UInt8} :
    readRoot answers rand locate root version offset size buffer = some readTooHigh ↔
      root.node.version < version := by
  constructor
  · intro h
    by_contra hle
    unfold readRoot at h
    dsimp only at h
    rw [if_neg hle] at h
    split at h
    · simp [readTooHigh] at h
    split at h
    · simp [readTooHigh] at h
    split at h
    · cases h
    · cases h
    split at h
    · cases h
    · cases h
    · cases h
  · intro h
    unfold readRoot
    dsimp only
    rw [if_pos h]
    rfl

theorem locationsRoot_tooHigh_iff :
    locationsRoot rand locate root version offset size = some locationsTooHigh ↔
      root.node.version < version := by
  constructor
  · intro h
    by_contra hle
    unfold locationsRoot at h
    dsimp only at h
    rw [if_neg hle] at h
    split at h
    · simp [locationsTooHigh] at h
    split at h
    · simp [locationsTooHigh] at h
    split at h
    · cases h
    · cases h
    · cases h
  · intro h
    unfold locationsRoot
    dsimp only
    rw [if_pos h]
    rfl

end check

/-- Version `v` of a blob has been published: its publish and those of all smaller tickets have been
accepted. -/
def VmHistory.Published (h : VmHistory) (id v : Nat) : Prop :=
  ∀ j, 1 ≤ j → j ≤ v → j ∈ h.published id

/-- A reader can tell whether version `v` is published: the root that it gets has version `v`, or
a smaller one, and the checks of `read` and `get_locations` go by that. -/
structure TellsPublished (h : VmHistory) (id v : Nat) : Prop where
  eq_iff : (h.vm.getRoot id v).node.version = v ↔ h.Published id v
  lt : ¬ h.Published id v → (h.vm.getRoot id v).node.version < v
  read : ∀ answers rand locate offset size buffer,
    readRoot answers rand locate (h.vm.getRoot id v) v offset size buffer = some readTooHigh ↔
      ¬ h.Published id v
  getLocations : ∀ rand locate offset size,
    locationsRoot rand locate (h.vm.getRoot id v) v offset size = some locationsTooHigh ↔
      ¬ h.Published id v

/-- The version of the root that a request for version `v` is answered with. -/
theorem VmHistory.getRoot_version {h : VmHistory} {id : Nat} {o : ObjInfo}
    (hw : Window id o (h.issued id) (h.published id)) (ho : h.vm.objHash id = some o)
    {first : Root} (hfirst : o.roots[0]? = some first) {v : Nat} (hv : 1 ≤ v) :
    (h.Published id v ∧ (h.vm.getRoot id v).node.version = v) ∨
      (¬ h.Published id v ∧ o.roots.length ≤ v ∧ (h.vm.getRoot id v).node.version =
        if o.roots.length = 1 then first.node.version else o.roots.length - 1) := by
  have hpos := hw.pending.roots_pos
  have hat := VManagement.rootAt_eq hpos v
  have hroot : h.vm.getRoot id v = rootAt o v := by
    rw [VManagement.getRoot, ho]
  rw [hroot]
  rcases Nat.lt_or_ge v o.roots.length with hlt | hge
  · refine .inl ⟨hw.mem_roots_iff.mp hlt, ?_⟩
    rw [if_neg (by omega)] at hat
    exact hw.pending.rootVersion hv hat
  · refine .inr ⟨fun hpub => absurd (hw.mem_roots_iff.mpr hpub) (Nat.not_lt.mpr hge), hge, ?_⟩
    rw [if_pos (.inr hge)] at hat
    split
    · next hone =>
      rw [hone, Nat.sub_self, hfirst, Option.some.injEq] at hat
      rw [hat]
    · next hne => exact hw.pending.rootVersion (by omega) hat

/-- **Unpublished versions.** In every run with fewer than `2 ^ 32` tickets on each blob, a reader
can tell whether version `v` is published if and only if something has been published on the blob,
or the version of the blob's first root (that of the cloned version, for a clone) is below `v`. -/
theorem tells_published_iff {h : VmHistory} {reqs : List VmRequest}
    (hrun : Run VmHistory.step TicketsFit {} reqs h) {id : Nat} {o : ObjInfo}
    (ho : h.vm.objHash id = some o) {first : Root} (hfirst : o.roots[0]? = some first) {v : Nat}
    (hv : 1 ≤ v) :
    TellsPublished h id v ↔ 1 < o.roots.length ∨ first.node.version < v := by
  have hw := (VmHistory.window hrun).obj ho
  have hpos := hw.pending.roots_pos
  have hcases := VmHistory.getRoot_version hw ho hfirst hv
  constructor
  · intro ht
    by_contra hcond
    obtain ⟨hone, hle⟩ := not_or.mp hcond
    obtain ⟨hpub, -⟩ | ⟨hpub, -, hversion⟩ := hcases
    · exact hone (Nat.lt_of_le_of_lt hv (hw.mem_roots_iff.mpr hpub))
    · have hlt := ht.lt hpub
      rw [hversion, if_pos (by omega)] at hlt
      exact hle hlt
  · intro hcond
    have hlt : ¬ h.Published id v → (h.vm.getRoot id v).node.version < v := by
      intro hnot
      obtain ⟨hpub, -⟩ | ⟨-, hge, hversion⟩ := hcases
      · exact absurd hpub hnot
      · rw [hversion]
        split
        · exact hcond.resolve_left (by omega)
        · omega
    have heq : h.Published id v → (h.vm.getRoot id v).node.version = v := by
      intro hpub
      obtain ⟨-, hversion⟩ | ⟨hnot, -⟩ := hcases
      · exact hversion
      · exact absurd hpub hnot
    have hiff : (h.vm.getRoot id v).node.version < v ↔ ¬ h.Published id v :=
      ⟨fun h1 h2 => absurd (heq h2) (Nat.ne_of_lt h1), hlt⟩
    refine ⟨⟨fun h1 => ?_, heq⟩, hlt, ?_, ?_⟩
    · by_contra hnot
      exact absurd h1 (Nat.ne_of_lt (hlt hnot))
    · intro answers rand locate offset size buffer
      exact readRoot_tooHigh_iff.trans hiff
    · intro rand locate offset size
      exact locationsRoot_tooHigh_iff.trans hiff

/-- A clone of version `1`, with a version of its own. -/
theorem tells_published_clone :
    ∃ h, Run VmHistory.step TicketsFit {}
        [.create 4 1, .getTicket ⟨1, 9, 0, 4⟩ false, .publish ⟨1, 1, 0, 0⟩, .clone 1 1,
          .getTicket ⟨2, 8, 0, 4⟩ false, .publish ⟨2, 1, 0, 0⟩] h ∧ TellsPublished h 2 2 := by
  have hrun : Run VmHistory.step TicketsFit {}
      [.create 4 1, .getTicket ⟨1, 9, 0, 4⟩ false, .publish ⟨1, 1, 0, 0⟩, .clone 1 1,
        .getTicket ⟨2, 8, 0, 4⟩ false, .publish ⟨2, 1, 0, 0⟩] _ := Run.of_exec rfl
  exact ⟨_, hrun, (tells_published_iff hrun rfl rfl (by decide)).mpr (.inl (by decide))⟩

/-- A fresh clone of version `1`: its version `1` is not published, but a request for it is answered
with a root of version `1`. -/
theorem clone_hides_unpublished :
    ∃ h, Run VmHistory.step TicketsFit {}
        [.create 4 1, .getTicket ⟨1, 9, 0, 4⟩ false, .publish ⟨1, 1, 0, 0⟩, .clone 1 1] h ∧
      ¬ h.Published 2 1 ∧ (h.vm.getRoot 2 1).node.version = 1 ∧ ¬ TellsPublished h 2 1 := by
  obtain ⟨h, hrun, hpub, hversion⟩ : ∃ h, Run VmHistory.step TicketsFit {}
      [.create 4 1, .getTicket ⟨1, 9, 0, 4⟩ false, .publish ⟨1, 1, 0, 0⟩, .clone 1 1] h ∧
      h.published 2 = [] ∧ (h.vm.getRoot 2 1).node.version = 1 := ⟨_, Run.of_exec rfl, rfl, rfl⟩
  have hnot : ¬ h.Published 2 1 := by
    intro hall
    have hmem := hall 1 (Nat.le_refl 1) (Nat.le_refl 1)
    rw [hpub] at hmem
    cases hmem
  exact ⟨h, hrun, hnot, hversion, fun ht => hnot (ht.eq_iff.mp hversion)⟩

end BlobSeer
