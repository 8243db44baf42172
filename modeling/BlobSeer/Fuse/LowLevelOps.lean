import BlobSeer.Client.Read
import BlobSeer.Fuse.ObjectPool
import BlobSeer.Lib.Pages

/-!
# The file system (`blob-fuse/low_level_ops.cpp`)

Every blob is a directory below the root, and every version of a blob is a file in its directory. An
inode number holds the id of the blob in its upper and the version in its lower half: version `0` stands
for the directory, and `1` is the root.

`main.cpp` runs one loop that works through one request after another. An operation makes up to two
calls to the version manager, which may serve other clients in between. What libfuse makes of a name
in a directory is a parameter (`entrySize`); of the reply to `readdir` the entries that are complete in
it are kept. The bytes of an open file are in `Fuse/LocalMirror.lean`; here an open file is what its
constructor takes from the handler.
-/

namespace BlobSeer

open Lib

namespace ObjectHandler

/-- `get_objcount`. -/
def getObjcount (vm : VManagement) (rpc : RpcOutcome) : Int :=
  if rpc = .answered then vm.objCount else -1

/-- `get_version`. -/
def getVersion (h : ObjectHandler) : Nat := h.latestRoot.node.version

/-- `get_page_size`. -/
def getPageSize (h : ObjectHandler) : Nat := h.latestRoot.pageSize

/-- `get_size`. -/
def getSize (h : ObjectHandler) (vm : VManagement) (rpc : RpcOutcome) (version : Nat) :
    Nat × ObjectHandler :=
  if version = 0 then (h.latestRoot.currentSize, h)
  else
    let (result, sroot, h) := h.getRoot vm rpc version (Root.make 0 0 0 0 0)
    (if result then sroot.currentSize else 0, h)

end ObjectHandler

/-! ## Inodes and names -/

/-- `ino_id`. -/
def inoId (ino : Nat) : Nat := ino / 2 ^ 32

/-- `ino_version`. -/
def inoVersion (ino : Nat) : Nat := ino % 2 ^ 32

/-- `build_ino`. -/
def buildIno (id version : Nat) : Nat := u64 (id * 2 ^ 32 + version)

/-- The characters that `isspace` accepts. -/
def isSpace (c : Char) : Bool :=
  c = ' ' || c = '\t' || c = '\n' || c = '\r' || c.toNat = 11 || c.toNat = 12

/-- The sign in front of a number, and the rest. -/
def scanSign : List Char → Bool × List Char
  | '-' :: s => (true, s)
  | '+' :: s => (false, s)
  | s => (false, s)

/-- `%d` of `sscanf`. A number that does not fit into an `int` is undefined behaviour. -/
def scanInt (s : List Char) : Option Int :=
  let (negative, s) := scanSign (s.dropWhile isSpace)
  let digits := s.takeWhile Char.isDigit
  if digits = [] then none
  else if negative then some (-(Nat.ofDigitChars 10 digits 0 : Int))
  else some (Nat.ofDigitChars 10 digits 0)

/-- `sscanf(name, "..%d", &x) == 1` for an unsigned `x`, and the value of `x`. What stands behind the
number does not matter. -/
def scanName (lit name : List Char) : Option Nat :=
  if lit.isPrefixOf name then
    (scanInt (name.drop lit.length)).map fun n => (n % 2 ^ 32).toNat
  else none

/-- A number behind a text, as an `ostringstream` prints them. -/
def printName (lit : List Char) (n : Nat) : List Char := lit ++ Nat.toDigits 10 n

def blobPrefix : List Char := ['b', 'l', 'o', 'b', '-']

def versionPrefix : List Char := ['v', 'e', 'r', 's', 'i', 'o', 'n', '-']

/-- The id and the version that `blob_ll_lookup` takes from a name; `none` for `ENOENT`. -/
def lookupName (parent : Nat) (name : List Char) : Option (Nat × Nat) :=
  if parent = 1 then (scanName blobPrefix name).map fun id => (id, 0)
  else if inoId parent ≠ 0 ∧ inoVersion parent = 0 then
    (scanName versionPrefix name).map fun ver => (inoId parent, ver)
  else if inoId parent ≠ 0 ∧ inoVersion parent ≠ 0 then none
  else some (inoId parent, 0)

/-! ## Replies -/

/-- The error numbers that the operations reply. -/
inductive Errno where
  | ok | eperm | enoent | eio | enotdir | eisdir | emfile | eproto
deriving DecidableEq, Repr

/-- The fields of `struct stat` that are set. -/
structure Stat where
  ino : Nat := 0
  mode : Nat := 0
  nlink : Nat := 0
  size : Nat := 0
deriving DecidableEq, Repr

def sIfdir : Nat := 0x4000

def sIfreg : Nat := 0x8000

/-- `FUSE_SET_ATTR_SIZE`. -/
def setAttrSize : Nat := 8

structure DirEntry where
  name : List Char
  ino : Nat
deriving DecidableEq, Repr

/-- A reply; the page of a directory is the entries that are complete in it, with their offsets. -/
inductive FuseReply where
  | err (errno : Errno)
  | attr (stbuf : Stat)
  | entry (ino : Nat) (attr : Stat)
  | buf (page : List (DirEntry × Nat))
  | opened (fh : Nat)
  | none
deriving DecidableEq, Repr

/-! ## Directory buffers -/

/-- `struct dirbuf`: the entries with their offsets in place of the bytes. -/
structure DirBuf where
  p : List (DirEntry × Nat) := []
  size : Nat := 0

section dirbuf

variable (entrySize : List Char → Nat)

/-- The bytes of an entry. -/
abbrev dirSize (e : DirEntry) : Nat := entrySize e.name

/-- `dirbuf_add`: the offset of an entry is the position behind it. -/
def dirbufAdd (b : DirBuf) (e : DirEntry) : DirBuf :=
  let size := b.size + dirSize entrySize e
  { p := b.p ++ [(e, size)], size := size }

/-- `reply_buf_limited`. -/
def replyBufLimited (b : DirBuf) (off maxsize : Nat) : List (DirEntry × Nat) :=
  if off < b.size then
    complete (dirSize entrySize) off (off + min (b.size - off) maxsize) b.p
  else []

end dirbuf

/-- The entries that `blob_ll_readdir` adds, in turn. -/
def readdirEntries (ino nlink : Nat) : List DirEntry :=
  [⟨['.'], ino⟩, ⟨['.', '.'], 1⟩] ++ (List.range' 2 (nlink - 2)).map fun i =>
    if ino = 1 then ⟨printName blobPrefix (i - 1), buildIno (i - 1) 0⟩
    else ⟨printName versionPrefix (i - 1), buildIno (inoId ino) (i - 1)⟩

/-! ## Operations -/

/-- The version manager as it is when it gets a call, and how the call ends. -/
structure VmAnswer where
  vm : VManagement
  rpc : RpcOutcome

/-- What a file takes from its handler when it is opened: the object itself, its id (which goes into
the name of the local file), and the size of the version in bytes and in pages. -/
structure OpenFile where
  blob : Nat
  id : Nat
  version : Nat
  blobSize : Nat
  pages : Nat
deriving DecidableEq, Repr

/-- The process: the objects of the pool are pointers to handlers, and `files` is what `fi->fh` points
to. A division by zero, or an exception that nothing catches, ends it. -/
structure BlobFs where
  pool : ObjectPool Nat := .make (fun i => i) ObjectPool.defaultPoolSize
  handlers : Nat → ObjectHandler
  files : List (Option OpenFile) := []
  crashed : Bool := false

namespace BlobFs

def setHandler (fs : BlobFs) (p : Nat) (h : ObjectHandler) : BlobFs :=
  { fs with handlers := Function.update fs.handlers p h }

@[simp] theorem setHandler_self (fs : BlobFs) (p : Nat) (h : ObjectHandler) :
    (fs.setHandler p h).handlers p = h := by
  simp [setHandler]

/-- `oh_pool->release`. -/
def releaseObject (fs : BlobFs) (p : Nat) : BlobFs :=
  match fs.pool.release p with
  | some pool => { fs with pool := pool }
  | none => { fs with crashed := true }

/-- `blob_stat`, with the handler that it got. -/
def statWith (h : ObjectHandler) (first second : VmAnswer) (ino : Nat) (stbuf : Stat) :
    Errno × Stat × ObjectHandler :=
  if ino = 1 then
    let noObj := ObjectHandler.getObjcount first.vm first.rpc
    if noObj ≠ -1 then
      (.ok, { stbuf with mode := sIfdir ||| 0o755, nlink := (noObj + 2).toNat }, h)
    else (.eproto, stbuf, h)
  else if inoId ino ≠ 0 then
    let (result, h) := h.getLatest first.vm first.rpc (inoId ino)
    if result then
      if inoVersion ino = 0 then
        -- the sum has 32 bits
        (.ok, { stbuf with mode := sIfdir ||| 0o755, nlink := u32 (h.getVersion + 2) }, h)
      else
        let (size, h) := h.getSize second.vm second.rpc (inoVersion ino)
        (.ok, { stbuf with size := size, mode := sIfreg ||| 0o666, nlink := 1 }, h)
    else (.eproto, stbuf, h)
  else (.eproto, stbuf, h)

/-- `blob_stat`. -/
def blobStat (fs : BlobFs) (first second : VmAnswer) (ino : Nat) (stbuf : Stat) :
    Errno × Stat × BlobFs :=
  let stbuf := { stbuf with ino := ino }
  match fs.pool.acquire with
  | (none, pool) => (.emfile, stbuf, { fs with pool := pool })
  | (some p, pool) =>
    let (result, stbuf, h) := statWith (fs.handlers p) first second ino stbuf
    (result, stbuf, ({ fs with pool := pool }.setHandler p h).releaseObject p)

/-- `blob_ll_getattr`. -/
def getattr (fs : BlobFs) (first second : VmAnswer) (ino : Nat) : FuseReply × BlobFs :=
  let (result, stbuf, fs) := fs.blobStat first second ino {}
  (if result ≠ .ok then .err .enoent else .attr stbuf, fs)

/-- `blob_ll_setattr`. -/
def setattr (ino : Nat) (attr : Stat) (toSet : Nat) : FuseReply :=
  if inoId ino = 0 ∨ inoVersion ino = 0 ∨ toSet &&& setAttrSize ≠ 0 then .err .eperm else .attr attr

/-- `blob_ll_lookup`: what `blob_stat` returns is ignored. -/
def lookup (fs : BlobFs) (first second : VmAnswer) (parent : Nat) (name : List Char) :
    FuseReply × BlobFs :=
  match lookupName parent name with
  | none => (.err .enoent, fs)
  | some (id, ver) =>
    let ino := buildIno id ver
    let (_, attr, fs) := fs.blobStat first second ino {}
    (.entry ino attr, fs)

/-- `blob_ll_readdir`. -/
def readdir (entrySize : List Char → Nat) (fs : BlobFs) (first second : VmAnswer) (ino size off : Nat) :
    FuseReply × BlobFs :=
  let (result, stbuf, fs) := fs.blobStat first second ino {}
  if result ≠ .ok then (.err result, fs)
  else if stbuf.mode &&& sIfdir = 0 then (.err .enotdir, fs)
  else
    let b := (readdirEntries ino stbuf.nlink).foldl (dirbufAdd entrySize) {}
    (.buf (replyBufLimited entrySize b off size), fs)

/-- `blob_ll_open`; `mirrored` says whether the constructor of the mirror gets its local file. The
number of pages is found before that, by a division that fails for a page size of `0`. -/
def openFile (fs : BlobFs) (first second : VmAnswer) (mirrored : Bool) (ino : Nat) :
    FuseReply × BlobFs :=
  if inoId ino = 0 ∨ inoVersion ino = 0 then (.err .eisdir, fs)
  else
    match fs.pool.acquire with
    | (none, pool) => (.err .emfile, { fs with pool := pool })
    | (some p, pool) =>
      let (result, h) := (fs.handlers p).getLatest first.vm first.rpc (inoId ino)
      let fs := { fs with pool := pool }.setHandler p h
      if result then
        let (blobSize, h) := h.getSize second.vm second.rpc (inoVersion ino)
        let fs := fs.setHandler p h
        if h.getPageSize = 0 then (.none, { fs with crashed := true })
        else if mirrored then
          (.opened fs.files.length, { fs with files := fs.files ++
            [some ⟨p, h.id, inoVersion ino, blobSize, blobSize / h.getPageSize⟩] })
        else (.err .eio, fs.releaseObject p)
      else (.err .eio, fs.releaseObject p)

/-- `blob_ll_release`, which replies nothing. -/
def release (fs : BlobFs) (fh : Nat) : BlobFs :=
  match fs.files[fh]? with
  | some (some lm) => { fs with files := fs.files.set fh none }.releaseObject lm.blob
  | _ => fs

/-- `blob->read(offset, size, ..)` in a mirror, up to the checks on the root: nothing in
`blob_ll_read` and `blob_ll_write` catches their exceptions. -/
def remoteRead (fs : BlobFs) (first : VmAnswer) (lm : OpenFile) (offset size : Nat) : BlobFs :=
  let (found, queryRoot, h) :=
    (fs.handlers lm.blob).getRoot first.vm first.rpc lm.version (Root.make 0 0 0 0 0)
  let fs := fs.setHandler lm.blob h
  if found = true ∧ ¬ queryRoot.Passes lm.version offset size then { fs with crashed := true }
  else fs

end BlobFs

/-! ## Runs -/

/-- A request of the kernel; `remoteRead` stands for one `blob->read` that a mirror makes for a `read`
or a `write`. -/
inductive FuseRequest where
  | getattr (ino : Nat)
  | setattr (ino : Nat) (attr : Stat) (toSet : Nat)
  | lookup (parent : Nat) (name : List Char)
  | readdir (ino size off : Nat)
  | openFile (mirrored : Bool) (ino : Nat)
  | release (fh : Nat)
  | remoteRead (fh offset size : Nat)
deriving DecidableEq, Repr

/-- How the calls of one operation end, and what other clients call between them. -/
structure FuseCalls where
  first : RpcOutcome := .answered
  between : List VmRequest := []
  second : RpcOutcome := .answered

/-- The process next to the version manager. -/
structure FuseSystem where
  hist : VmHistory := {}
  fs : BlobFs

namespace BlobFs

/-- The reply to a request, and what it leaves. -/
def reply (entrySize : List Char → Nat) (fs : BlobFs) (first second : VmAnswer) :
    FuseRequest → FuseReply × BlobFs
  | .getattr ino => fs.getattr first second ino
  | .setattr ino attr toSet => (setattr ino attr toSet, fs)
  | .lookup parent name => fs.lookup first second parent name
  | .readdir ino size off => fs.readdir entrySize first second ino size off
  | .openFile mirrored ino => fs.openFile first second mirrored ino
  | .release fh => (.none, fs.release fh)
  | .remoteRead fh offset size =>
    match fs.files[fh]? with
    | some (some lm) => (.none, fs.remoteRead first lm offset size)
    | _ => (.none, fs)

end BlobFs

namespace FuseSystem

/-- The version manager serves the other clients of an operation. -/
def serve (hist : VmHistory) (between : List VmRequest) : Option VmHistory :=
  exec VmHistory.step TicketsFit hist between

/-- One request with its reply; `none` when the process is gone. -/
def handle (entrySize : List Char → Nat) (s : FuseSystem) (req : FuseRequest) (calls : FuseCalls) :
    Option (FuseReply × FuseSystem) :=
  if s.fs.crashed then none
  else
    match serve s.hist calls.between with
    | none => none
    | some hist =>
      let (reply, fs) := s.fs.reply entrySize ⟨s.hist.vm, calls.first⟩ ⟨hist.vm, calls.second⟩ req
      some (reply, ⟨hist, fs⟩)

end FuseSystem

/-- A call of another client, or a request of the kernel. -/
inductive FuseAction where
  | other (req : VmRequest)
  | request (req : FuseRequest) (calls : FuseCalls)

namespace FuseSystem

def step (entrySize : List Char → Nat) (s : FuseSystem) : FuseAction → Option FuseSystem
  | .other req => (s.hist.step req).map fun hist => { s with hist := hist }
  | .request req calls => (s.handle entrySize req calls).map (·.2)

/-- Fewer than `2 ^ 32` tickets on every blob; `serve` asks for it itself. -/
def Fits (s : FuseSystem) : FuseAction → Prop
  | .other req => TicketsFit s.hist req
  | .request _ _ => True

instance (s : FuseSystem) (a : FuseAction) : Decidable (s.Fits a) :=
  match a with
  | .other req => inferInstanceAs (Decidable (TicketsFit s.hist req))
  | .request _ _ => .isTrue trivial

/-- The bytes of a directory entry as libfuse lays it out: a head of 24 bytes and the name, filled up to
eight bytes. -/
def direntSize (name : List Char) : Nat := (24 + name.length + 7) / 8 * 8

theorem direntSize_pos (name : List Char) : 0 < direntSize name := by
  unfold direntSize
  omega

/-- A file of the first blob is opened, and then the directory of the second one is looked at. -/
def twoBlobs : List FuseAction :=
  [.other (.create 4 1), .other (.create 8 1), .request (.openFile true (buildIno 1 1)) {},
    .request (.getattr (buildIno 2 0)) {}]

/-- The second blob is a clone of the first version of the first one. -/
def clonedVersion : List FuseAction :=
  [.other (.create 4 1), .other (.getTicket ⟨1, 0, 0, 4⟩ false), .other (.publish ⟨1, 1, 0, 4⟩),
    .other (.clone 1 1)]

/-- The process when it starts. -/
def mount : FuseSystem := ⟨{}, { handlers := fun _ => { id := 0 } }⟩

end FuseSystem

end BlobSeer
