import BlobSeer.Lib.Run
import BlobSeer.Structures

/-!
# The local mirror of a FUSE file (`bindings/blob-fuse/local_mirror.hpp`)

A mirror maps a temporary file that holds a copy of one version of a blob. `chunk_map[i]` says how
many bytes of page `i`, from its start, are valid in the mapping: bytes of the version, or bytes
that were written locally. A page is fetched when a read needs more of it; a write fetches only the
gap between the valid bytes and its own.

Bytes, `chunk_map` and `written_map` are functions of the position; past the end of `written_map`
stands whatever is in memory there (`commit` looks one place beyond the end). The bytes of the
mirrored version are `mirrored`. Positions are below `2 ^ 63`, as offsets of files are, and the sizes
of FUSE requests are 32-bit, so sums of an offset and a size do not wrap around. The pages of a version
have less than `2 ^ 32` bytes, so a remote read that returns `true` has filled its buffer.

A remote read that fails may have changed its buffer. When it fails since a page has no provider, it
does not wait for the requests that it has sent for other pages: their answers go into the mapping
when the io service of the handler runs the next time (`land`), which any further `blob->read`,
`blob->write` or `blob->clone` does before it gets to the mapping. One of them that fails then uses
variables of the read that are gone; this is left out.
-/

namespace BlobSeer

variable {β : Type}

/-- `memcpy` into the bytes from `off` on; the source is indexed by the position it is copied to. -/
def splice (dst : Nat → β) (off size : Nat) (src : Nat → β) : Nat → β := fun p =>
  if off ≤ p ∧ p < off + size then src p else dst p

theorem splice_in {dst src : Nat → β} {off size p : Nat} (h : off ≤ p) (h' : p < off + size) :
    splice dst off size src p = src p :=
  if_pos ⟨h, h'⟩

theorem splice_out {dst src : Nat → β} {off size p : Nat} (h : ¬ (off ≤ p ∧ p < off + size)) :
    splice dst off size src p = dst p :=
  if_neg h

/-- `local_mirror_t`. -/
structure LocalMirror (β : Type) where
  blobSize : Nat
  pageSize : Nat
  mapping : Nat → β
  chunkMap : Nat → Nat
  writtenMap : Nat → Bool
  /-- The bytes that requests of failed remote reads have still to put into the mapping. -/
  inFlight : Nat → Option β

/-- How a `blob->read` fails: the bytes that are in its buffer then, and where the answers to the
requests that it does not wait for belong. -/
structure FailedRead (β : Type) where
  junk : Nat → β
  left : Nat → Bool := fun _ => false

namespace LocalMirror

/-- The number of pages, the length of the two vectors. -/
def pages (m : LocalMirror β) : Nat := m.blobSize / m.pageSize

/-- What the index file `local_name.idx` holds: `chunk_map` and `written_map`. -/
structure Index where
  chunkMap : Nat → Nat
  writtenMap : Nat → Bool

/-- The constructor: `file` is what the temporary file holds, `idx` the index file that an earlier
mirror of the same version left, if there is one, and `beyond` what stands behind the end of
`written_map`. -/
def new (blobSize pageSize : Nat) (file : Nat → β) (idx : Option Index) (beyond : Nat → Bool) :
    LocalMirror β where
  blobSize := blobSize
  pageSize := pageSize
  mapping := file
  chunkMap := match idx with
    | none => fun _ => 0
    | some idx => idx.chunkMap
  writtenMap i :=
    if i < blobSize / pageSize then
      match idx with
      | none => false
      | some idx => idx.writtenMap i
    else beyond i
  inFlight _ := none

/-- The destructor: the index file it leaves. -/
def close (m : LocalMirror β) : Index := ⟨m.chunkMap, m.writtenMap⟩

/-- The io service runs, and all requests that are in flight are answered. -/
def land (m : LocalMirror β) : LocalMirror β :=
  { m with mapping := fun p => (m.inFlight p).getD (m.mapping p), inFlight := fun _ => none }

/-- The requests that a failed `blob->read(off, size, ..)` has not waited for. A read of one page sends
only one, and waits for it. -/
def leave (mirrored : Nat → β) (failed : FailedRead β) (off size pageSize : Nat) :
    Nat → Option β := fun p =>
  if off ≤ p ∧ p < off + size ∧ off / pageSize < (off + size - 1) / pageSize ∧ failed.left p = true
  then some (mirrored p)
  else none

/-- `blob->read(off, size, mapping + off, version)`; `remote off` tells how it ends. Looking for the
pages runs the io service. -/
def fetch (mirrored : Nat → β) (remote : Nat → Option (FailedRead β)) (off size : Nat)
    (m : LocalMirror β) : Bool × LocalMirror β :=
  let m := m.land
  match remote off with
  | none => (true, { m with mapping := splice m.mapping off size mirrored })
  | some failed => (false, { m with
      mapping := splice m.mapping off size failed.junk
      inFlight := leave mirrored failed off size m.pageSize })

/-! ## `read` -/

/-- The loop that extends a remote read over the following pages that are not loaded. -/
def extendRead (m : LocalMirror β) (last readOff : Nat) : Nat → Nat → Option Nat
  | 0, _ => none
  | fuel + 1, readSize =>
    if readOff + readSize < last ∧ m.chunkMap ((readOff + readSize) / m.pageSize) = 0 then
      extendRead m last readOff fuel (readSize + m.pageSize)
    else some readSize

/-- The loop that marks the pages of a remote read; it goes on to the page after them. -/
def markLoaded (last : Nat) : Nat → Nat → LocalMirror β → Option (Nat × LocalMirror β)
  | 0, _, _ => none
  | fuel + 1, index, m =>
    if index * m.pageSize < last then
      markLoaded last fuel (index + 1)
        { m with chunkMap := Function.update m.chunkMap index m.pageSize }
    else some (index, m)

/-- The loop of `read` over the pages up to `last`; `false` when a remote read failed. -/
def readLoop (mirrored : Nat → β) (remote : Nat → Option (FailedRead β)) (last : Nat) :
    Nat → Nat → LocalMirror β → Option (Bool × LocalMirror β)
  | 0, _, _ => none
  | fuel + 1, index, m =>
    if index * m.pageSize < last then
      let chunk := m.chunkMap index
      if chunk < min m.pageSize (last - index * m.pageSize) then
        let readOff := index * m.pageSize + chunk
        match extendRead m last readOff (m.pages + 1) (if 0 < chunk then m.pageSize - chunk else 0)
            with
        | none => none
        | some readSize =>
          let (ok, m) := m.fetch mirrored remote readOff readSize
          if ok then
            match markLoaded (readOff + readSize) (m.pages + 1) index m with
            | none => none
            | some (index, m) => readLoop mirrored remote last fuel index m
          else some (false, m)
      else readLoop mirrored remote last fuel (index + 1) m
    else some (true, m)

/-- `local_mirror_t::read`: the number of bytes it returns. -/
def read (m : LocalMirror β) (mirrored : Nat → β) (remote : Nat → Option (FailedRead β))
    (size off : Nat) : Option (Nat × LocalMirror β) :=
  if off ≥ m.blobSize then some (0, m)
  else
    let size := if off + size > m.blobSize then m.blobSize - off else size
    (readLoop mirrored remote (off + size) (m.pages + 1) (off / m.pageSize) m).map
      fun (ok, m) => (if ok then size else 0, m)

/-! ## `write` -/

/-- The loop of `write` that records what it has written. -/
def markWritten (last : Nat) : Nat → Nat → LocalMirror β → Option (LocalMirror β)
  | 0, _, _ => none
  | fuel + 1, index, m =>
    if index * m.pageSize < last then
      let gap := min m.pageSize (last - index * m.pageSize)
      markWritten last fuel (index + 1) { m with
        chunkMap := if m.chunkMap index < gap then Function.update m.chunkMap index gap
          else m.chunkMap
        writtenMap := Function.update m.writtenMap index true }
    else some m

/-- `local_mirror_t::write`: the number of bytes it returns. -/
def write (m : LocalMirror β) (mirrored : Nat → β) (remote : Nat → Option (FailedRead β))
    (size off : Nat) (buf : Nat → β) : Option (Nat × LocalMirror β) :=
  if off + size > m.blobSize then some (0, m)
  else
    let m := { m with mapping := splice m.mapping off size fun p => buf (p - off) }
    let index := off / m.pageSize
    let gapOff := index * m.pageSize + m.chunkMap index
    let (ok, m) := if gapOff < off then m.fetch mirrored remote gapOff (off - gapOff) else (true, m)
    if ok then (markWritten (off + size) (m.pages + 1) index m).map fun m => (size, m)
    else some (0, m)

/-! ## `commit` -/

/-- The loop that looks for the end of a run of written pages. -/
def findStop (m : LocalMirror β) : Nat → Nat → Option Nat
  | 0, _ => none
  | fuel + 1, stop =>
    if m.writtenMap stop = true ∧ stop * m.pageSize < m.blobSize then
      findStop m fuel (u32 (stop + 1))
    else some stop

/-- The loop of `commit`, with the bytes of the latest version of the blob; `remote off` tells
whether the `blob->write` at `off` succeeds, which runs the io service before it sends anything. The
counters are 32-bit. -/
def commitLoop (remote : Nat → Bool) :
    Nat → Nat → LocalMirror β → (Nat → β) → Option (Bool × LocalMirror β × (Nat → β))
  | 0, _, _, _ => none
  | fuel + 1, index, m, latest =>
    if index * m.pageSize < m.blobSize then
      if m.writtenMap index then
        match findStop m (m.pages + 1) (u32 (index + 1)) with
        | none => none
        | some stop =>
          let size := u32 (stop + 2 ^ 32 - index) * m.pageSize
          let m := m.land
          if remote (index * m.pageSize) then
            commitLoop remote fuel (u32 (stop + 1))
              { m with writtenMap := splice m.writtenMap index (stop - index) fun _ => false }
              (splice latest (index * m.pageSize) size m.mapping)
          else some (false, m, latest)
      else commitLoop remote fuel (u32 (index + 1)) m latest
    else some (true, m, latest)

/-- `local_mirror_t::commit`. -/
def commit (m : LocalMirror β) (remote : Nat → Bool) (latest : Nat → β) :
    Option (Bool × LocalMirror β × (Nat → β)) :=
  commitLoop remote (2 * m.pages + 3) 0 m latest

end LocalMirror

end BlobSeer
