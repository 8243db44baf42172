import BlobSeer.Fuse.LowLevelOps
import BlobSeer.Lib.Run

/-!
# One handler for all files

No object of the pool is ever marked as in use, so every request gets the same handler (`Shared`), and
all files that are open share it. A request that names a blob puts the handler on this blob and leaves it
there, so a read that a mirror makes later goes to whichever blob was named last
(`open_files_share_handler`).
-/

namespace BlobSeer

open Lib

/-! ## The blob of a handler -/

theorem ObjectHandler.fetchRoot_id (h : ObjectHandler) (vm : VManagement) (reply : RootReply)
    (version : Nat) (root : Root) : (h.fetchRoot vm reply version root).2.2.id = h.id := by
  unfold fetchRoot
  dsimp only
  split <;> rfl

theorem ObjectHandler.getRoot_id (h : ObjectHandler) (vm : VManagement) (reply : RootReply)
    (version : Nat) (root : Root) : (h.getRoot vm reply version root).2.2.id = h.id := by
  unfold getRoot
  split
  · exact h.fetchRoot_id vm reply version root
  · split
    · rfl
    · exact fetchRoot_id _ vm reply version root

/-- `get_latest` always takes over the id. -/
theorem ObjectHandler.getLatest_id (h : ObjectHandler) (vm : VManagement) (rpc : RpcOutcome) {id : Nat}
    (hid : id ≠ 0) : (h.getLatest vm rpc id).2.id = id := by
  rw [getLatest, if_pos hid]
  exact getRoot_id _ vm rpc 0 _

theorem ObjectHandler.getLatest_fst (h : ObjectHandler) (vm : VManagement) (rpc : RpcOutcome) (id : Nat) :
    (h.getLatest vm rpc id).1 = decide (rpc = .answered) := by
  unfold getLatest
  dsimp only
  rw [getRoot_zero, RootReply.getSerialized_ofOutcome]
  by_cases hrpc : rpc = .answered <;> simp [hrpc]

theorem ObjectHandler.getLatest_root (h : ObjectHandler) (vm : VManagement) {id : Nat} (hid : id ≠ 0) :
    (h.getLatest vm RpcOutcome.answered id).2.latestRoot = vm.getRoot id 0 := by
  unfold getLatest
  dsimp only
  rw [getRoot_zero, if_pos hid]
  rfl

theorem ObjectHandler.getSize_id (h : ObjectHandler) (vm : VManagement) (rpc : RpcOutcome)
    (version : Nat) : (h.getSize vm rpc version).2.id = h.id := by
  unfold getSize
  split
  · rfl
  · exact h.getRoot_id vm (.ofOutcome rpc) version _

/-! ## The pool -/

namespace BlobFs

/-- The process has been started, and no request was handled. -/
structure Mounted (fs : BlobFs) : Prop where
  pool : ∃ gen poolSize, 0 < poolSize ∧
    fs.pool.objectMap.Perm (ObjectPool.make gen poolSize).objectMap
  files : fs.files = []
  running : fs.crashed = false

/-- Nothing is marked in the pool, its first object is `p`, and all open files have this one. The files
are versions and not directories. -/
structure Shared (p : Nat) (fs : BlobFs) : Prop where
  unmarked : fs.pool.Unmarked
  first : fs.pool.objects.head? = some p
  files : ∀ lm, some lm ∈ fs.files → lm.blob = p ∧ lm.version ≠ 0

namespace Shared

variable {p : Nat} {fs : BlobFs}

theorem of_mounted (h : fs.Mounted) : ∃ p, Shared p fs := by
  obtain ⟨gen, poolSize, hpos, hperm⟩ := h.pool
  have hne : fs.pool.objectMap ≠ [] := by
    intro hnil
    rw [hnil] at hperm
    have := (ObjectPool.make_eq_nil_iff gen poolSize).mp hperm.nil_eq.symm
    omega
  obtain ⟨e, l, he⟩ := List.exists_cons_of_ne_nil hne
  refine ⟨e.1, fun e he => ObjectPool.make_unmarked gen poolSize e (hperm.mem_iff.mp he), ?_, ?_⟩
  · rw [ObjectPool.objects, he]
    rfl
  · rw [h.files]
    exact fun _ hmem => absurd hmem List.not_mem_nil

/-- `acquire` returns the first object, and leaves the pool alone. -/
theorem acquire (h : Shared p fs) : fs.pool.acquire = (some p, fs.pool) :=
  Prod.ext (h.unmarked.acquire_eq.trans h.first) rfl

theorem setHandler (h : Shared p fs) (q : Nat) (x : ObjectHandler) : Shared p (fs.setHandler q x) :=
  ⟨h.unmarked, h.first, h.files⟩

/-- `release` leaves everything alone. -/
theorem releaseObject (h : Shared p fs) : fs.releaseObject p = fs := by
  have hmem : p ∈ fs.pool.objects := List.mem_of_mem_head? h.first
  rw [BlobFs.releaseObject, h.unmarked.release_eq hmem]

theorem blobStat (h : Shared p fs) (first second : VmAnswer) (ino : Nat) (stbuf : Stat) :
    fs.blobStat first second ino stbuf =
      ((statWith (fs.handlers p) first second ino { stbuf with ino := ino }).1,
        (statWith (fs.handlers p) first second ino { stbuf with ino := ino }).2.1,
        fs.setHandler p (statWith (fs.handlers p) first second ino { stbuf with ino := ino }).2.2) := by
  rw [BlobFs.blobStat, h.acquire]
  exact congrArg (_, _, ·) (h.setHandler p _).releaseObject

end Shared

end BlobFs

/-! ## Requests -/

/-- The blob that a request for an inode names. -/
def inoBlob (ino : Nat) : Option Nat := if inoId ino ≠ 0 then some (inoId ino) else none

/-- The blob that a request names. -/
def FuseRequest.blob : FuseRequest → Option Nat
  | .getattr ino | .readdir ino _ _ => inoBlob ino
  | .lookup parent name =>
    (lookupName parent name).bind fun e => inoBlob (buildIno e.1 e.2)
  | .openFile _ ino => if inoVersion ino = 0 then none else inoBlob ino
  | .setattr .. | .release _ | .remoteRead .. => none

def FuseAction.blob : FuseAction → Option Nat
  | .other _ => none
  | .request req _ => req.blob

namespace BlobFs

theorem statWith_id (h : ObjectHandler) (first second : VmAnswer) (ino : Nat) (stbuf : Stat) :
    (statWith h first second ino stbuf).2.2.id = (inoBlob ino).getD h.id := by
  unfold statWith inoBlob
  by_cases hroot : ino = 1
  · have hid : ¬ inoId ino ≠ 0 := by
      rw [hroot]
      simp [inoId]
    rw [if_pos hroot, if_neg hid]
    dsimp only
    split <;> rfl
  · rw [if_neg hroot]
    by_cases hid : inoId ino ≠ 0
    · have hlatest := h.getLatest_id first.vm first.rpc hid
      rw [if_pos hid, if_pos hid]
      dsimp only
      split
      · split
        · exact hlatest
        · exact (ObjectHandler.getSize_id _ second.vm second.rpc _).trans hlatest
      · exact hlatest
    · rw [if_neg hid, if_neg hid]
      rfl

/-- What a request that names `named` leaves: the pool as it was, the shared handler on this blob, and
no file that was opened without a name. -/
structure Keeps (p : Nat) (fs : BlobFs) (named : Option Nat) (fs' : BlobFs) : Prop where
  shared : Shared p fs'
  id : (fs'.handlers p).id = named.getD (fs.handlers p).id
  files : ∀ lm, some lm ∈ fs'.files → some lm ∈ fs.files ∨ named.isSome = true

namespace Shared

variable {p : Nat} {fs : BlobFs}

theorem keeps (h : Shared p fs) : Keeps p fs none fs := ⟨h, rfl, fun _ hlm => .inl hlm⟩

theorem keeps_setHandler (h : Shared p fs) {named : Option Nat} {x : ObjectHandler}
    (hx : x.id = named.getD (fs.handlers p).id) : Keeps p fs named (fs.setHandler p x) := by
  refine ⟨h.setHandler p x, ?_, fun _ hlm => .inl hlm⟩
  rw [setHandler_self]
  exact hx

theorem keeps_stat (h : Shared p fs) (first second : VmAnswer) (ino : Nat) (stbuf : Stat) :
    Keeps p fs (inoBlob ino) (fs.blobStat first second ino stbuf).2.2 := by
  rw [h.blobStat]
  apply h.keeps_setHandler
  apply statWith_id

theorem keeps_lookup (h : Shared p fs) (first second : VmAnswer) (parent : Nat) (name : List Char) :
    Keeps p fs (FuseRequest.lookup parent name).blob (fs.lookup first second parent name).2 := by
  rw [BlobFs.lookup, FuseRequest.blob]
  cases hname : lookupName parent name with
  | none => exact h.keeps
  | some pair =>
    obtain ⟨id, ver⟩ := pair
    have hstat := h.keeps_stat first second (buildIno id ver) {}
    rw [Option.bind_some]
    dsimp only
    generalize fs.blobStat first second (buildIno id ver) {} = stat at hstat ⊢
    exact hstat

theorem keeps_readdir (h : Shared p fs) (entrySize : List Char → Nat) (first second : VmAnswer)
    (ino size off : Nat) :
    Keeps p fs (inoBlob ino) (fs.readdir entrySize first second ino size off).2 := by
  have hstat := h.keeps_stat first second ino {}
  rw [BlobFs.readdir]
  dsimp only
  split
  · exact hstat
  · split
    · exact hstat
    · exact hstat

theorem keeps_open (h : Shared p fs) (first second : VmAnswer) (mirrored : Bool) (ino : Nat) :
    Keeps p fs (FuseRequest.openFile mirrored ino).blob
      (fs.openFile first second mirrored ino).2 := by
  rw [BlobFs.openFile, FuseRequest.blob, inoBlob]
  by_cases hdir : inoId ino = 0 ∨ inoVersion ino = 0
  · rw [if_pos hdir]
    rcases hdir with hid | hver
    · simpa [hid] using h.keeps
    · simpa [hver] using h.keeps
  · obtain ⟨hid, hver⟩ := not_or.mp hdir
    rw [if_neg hdir, if_neg hver, if_pos hid, h.acquire]
    dsimp only
    have hlatest := (fs.handlers p).getLatest_id first.vm first.rpc hid
    generalize (fs.handlers p).getLatest first.vm first.rpc (inoId ino) = latest at hlatest
    have hset := h.setHandler p latest.2
    have hkeeps : Keeps p fs (some (inoId ino)) (fs.setHandler p latest.2) := h.keeps_setHandler hlatest
    split
    · have hsize := (latest.2.getSize_id second.vm second.rpc (inoVersion ino)).trans hlatest
      generalize latest.2.getSize second.vm second.rpc (inoVersion ino) = sized at hsize
      have hkeeps' : Keeps p fs (some (inoId ino)) ((fs.setHandler p latest.2).setHandler p sized.2) :=
        ⟨hset.setHandler p sized.2, by simpa using hsize, fun _ hlm => .inl hlm⟩
      split
      · exact ⟨⟨h.unmarked, h.first, h.files⟩, hkeeps'.id, hkeeps'.files⟩
      · split
        · refine ⟨⟨h.unmarked, h.first, fun lm hlm => ?_⟩, hkeeps'.id, fun _ _ => .inr rfl⟩
          rcases List.mem_append.mp hlm with hlm | hlm
          · exact h.files lm hlm
          · rw [List.mem_singleton, Option.some.injEq] at hlm
            rw [hlm]
            exact ⟨rfl, hver⟩
        · rw [hkeeps'.shared.releaseObject]
          exact hkeeps'
    · rw [hset.releaseObject]
      exact hkeeps

theorem keeps_release (h : Shared p fs) (fh : Nat) : Keeps p fs none (fs.release fh) := by
  rw [BlobFs.release]
  split
  · next lm hlm =>
    have hsub : ∀ x, some x ∈ fs.files.set fh none → some x ∈ fs.files := by
      intro x hx
      rcases List.mem_or_eq_of_mem_set hx with hx | hx
      · exact hx
      · cases hx
    have hset : Shared p { fs with files := fs.files.set fh none } :=
      ⟨h.unmarked, h.first, fun x hx => h.files x (hsub x hx)⟩
    rw [(h.files lm (List.mem_of_getElem? hlm)).1, hset.releaseObject]
    exact ⟨hset, rfl, fun x hx => .inl (hsub x hx)⟩
  · exact h.keeps

theorem keeps_remoteRead (h : Shared p fs) (first : VmAnswer) {lm : OpenFile}
    (hlm : some lm ∈ fs.files) (offset size : Nat) :
    Keeps p fs none (fs.remoteRead first lm offset size) := by
  have hset : Keeps p fs none (fs.setHandler p _) := h.keeps_setHandler
    ((fs.handlers p).getRoot_id first.vm first.rpc lm.version (Root.make 0 0 0 0 0))
  rw [BlobFs.remoteRead, (h.files lm hlm).1]
  dsimp only
  split
  · exact ⟨⟨hset.shared.unmarked, hset.shared.first, hset.shared.files⟩, hset.id, hset.files⟩
  · exact hset

/-- Every request. -/
theorem reply (h : Shared p fs) (entrySize : List Char → Nat) (first second : VmAnswer)
    (req : FuseRequest) : Keeps p fs req.blob (fs.reply entrySize first second req).2 := by
  cases req with
  | getattr ino => exact h.keeps_stat first second ino {}
  | setattr ino attr toSet => exact h.keeps
  | lookup parent name => exact h.keeps_lookup first second parent name
  | readdir ino size off => exact h.keeps_readdir entrySize first second ino size off
  | openFile mirrored ino => exact h.keeps_open first second mirrored ino
  | release fh => exact h.keeps_release fh
  | remoteRead fh offset size =>
    unfold BlobFs.reply
    dsimp only
    split
    · next lm hlm => exact h.keeps_remoteRead first (List.mem_of_getElem? hlm) offset size
    · exact h.keeps

end Shared

end BlobFs

/-! ## The end of the process -/

namespace BlobFs.Shared

variable {p : Nat} {fs : BlobFs}

end BlobFs.Shared

/-! ## Runs -/

namespace FuseSystem

/-- The blob that was named last. -/
def lastNamed (as : List FuseAction) : Option Nat := (as.filterMap FuseAction.blob).getLast?

theorem handle_cases {entrySize : List Char → Nat} {s : FuseSystem} {req : FuseRequest}
    {calls : FuseCalls} {r : FuseReply} {t : FuseSystem}
    (h : s.handle entrySize req calls = some (r, t)) :
    s.fs.crashed = false ∧ ∃ hist, serve s.hist calls.between = some hist ∧ t.hist = hist ∧
      (r, t.fs) = s.fs.reply entrySize ⟨s.hist.vm, calls.first⟩ ⟨hist.vm, calls.second⟩ req := by
  unfold handle at h
  split at h
  · cases h
  · next hcrashed =>
    split at h
    · cases h
    · next hist hserve =>
      simp only [Option.some.injEq, Prod.mk.injEq] at h
      obtain ⟨rfl, rfl⟩ := h
      exact ⟨by simpa using hcrashed, hist, hserve, rfl, rfl⟩

theorem handle_keeps {entrySize : List Char → Nat} {p : Nat} {s t : FuseSystem} {req : FuseRequest}
    {calls : FuseCalls} {r : FuseReply} (h : s.fs.Shared p)
    (hr : s.handle entrySize req calls = some (r, t)) : s.fs.Keeps p req.blob t.fs := by
  obtain ⟨-, hist, -, -, hreply⟩ := handle_cases hr
  have hkeeps := h.reply entrySize ⟨s.hist.vm, calls.first⟩ ⟨hist.vm, calls.second⟩ req
  rw [← hreply] at hkeeps
  exact hkeeps

theorem step_shared {entrySize : List Char → Nat} {p : Nat} {s t : FuseSystem} {a : FuseAction}
    (h : s.fs.Shared p) (hs : s.step entrySize a = some t) : t.fs.Shared p := by
  cases a with
  | other req =>
    obtain ⟨hist, -, rfl⟩ := Option.map_eq_some_iff.mp hs
    exact h
  | request req calls =>
    obtain ⟨⟨r, t'⟩, hhandle, rfl⟩ := Option.map_eq_some_iff.mp hs
    exact (handle_keeps h hhandle).shared

/-- The handler of the open files is on the blob that was named last. -/
structure OnNamed (p : Nat) (s : FuseSystem) (as : List FuseAction) : Prop where
  shared : s.fs.Shared p
  id : ∀ id ∈ lastNamed as, (s.fs.handlers p).id = id
  named : ∀ lm, some lm ∈ s.fs.files → (lastNamed as).isSome = true

theorem lastNamed_append (as : List FuseAction) (a : FuseAction) :
    lastNamed (as ++ [a]) = a.blob.or (lastNamed as) := by
  cases hblob : a.blob with
  | none => simp [lastNamed, hblob]
  | some id => simp [lastNamed, hblob]

theorem OnNamed.step {entrySize : List Char → Nat} {p : Nat} {s t : FuseSystem} {as : List FuseAction}
    {a : FuseAction} (h : OnNamed p s as) (hs : s.step entrySize a = some t) :
    OnNamed p t (as ++ [a]) := by
  cases a with
  | other req =>
    obtain ⟨hist, -, rfl⟩ := Option.map_eq_some_iff.mp hs
    refine ⟨h.shared, ?_, ?_⟩
    · rw [lastNamed_append]
      exact h.id
    · rw [lastNamed_append]
      exact h.named
  | request req calls =>
    obtain ⟨⟨r, t'⟩, hhandle, rfl⟩ := Option.map_eq_some_iff.mp hs
    have hkeeps := handle_keeps h.shared hhandle
    refine ⟨hkeeps.shared, ?_, ?_⟩
    · rw [lastNamed_append, hkeeps.id, FuseAction.blob]
      cases hblob : req.blob with
      | none => exact h.id
      | some id => simp
    · rw [lastNamed_append, FuseAction.blob]
      intro lm hlm
      rcases hkeeps.files lm hlm with hlm | hnamed
      · simp [h.named lm hlm]
      · simp [hnamed]

theorem onNamed_run {entrySize : List Char → Nat} {start : BlobFs} (hstart : start.Mounted)
    {as : List FuseAction} {s : FuseSystem} (hrun : Run (step entrySize) Fits ⟨{}, start⟩ as s) :
    ∃ p, OnNamed p s as := by
  obtain ⟨p, hp⟩ := BlobFs.Shared.of_mounted hstart
  refine ⟨p, ?_⟩
  have hnone : OnNamed p ⟨{}, start⟩ [] := by
    refine ⟨hp, ?_, ?_⟩
    · simp [lastNamed]
    · rw [hstart.files]
      simp
  exact hrun.inv_trace (P := OnNamed p) (fun h _ hs => h.step hs) hnone

/-- **One handler.** All files that are open have the same handler, and it is on the blob that was named
last, by whatever request: the root that one of these files reads of its version is a root of this blob,
or one that is in the cache of the handler. -/
theorem open_files_share_handler {entrySize : List Char → Nat} {start : BlobFs} (hstart : start.Mounted)
    {as : List FuseAction} {s : FuseSystem} (hrun : Run (step entrySize) Fits ⟨{}, start⟩ as s) :
    ∃ p, ∀ (fh : Nat) (lm : OpenFile), s.fs.files[fh]? = some (some lm) → lm.blob = p ∧
      ∃ id, lastNamed as = some id ∧ (s.fs.handlers p).id = id ∧
        ∀ (vm : VManagement) (rpc : RpcOutcome) (root root' : Root) (h' : ObjectHandler),
          (s.fs.handlers lm.blob).getRoot vm rpc lm.version root = (true, root', h') →
          (∃ d, (s.fs.handlers p).versionCache.find lm.version = some (root', d)) ∨
            root' = vm.getRoot id lm.version := by
  obtain ⟨p, h⟩ := onNamed_run hstart hrun
  refine ⟨p, fun fh lm hlm => ?_⟩
  have hmem := List.mem_of_getElem? hlm
  obtain ⟨hblob, hversion⟩ := h.shared.files lm hmem
  obtain ⟨id, hid⟩ := Option.isSome_iff_exists.mp (h.named lm hmem)
  refine ⟨hblob, id, hid, h.id id hid, fun vm rpc root root' h' hget => ?_⟩
  rw [hblob] at hget
  have hroot := ObjectHandler.getRoot_true _ vm rpc hversion hget
  rw [h.id id hid] at hroot
  exact hroot

theorem mount_mounted : mount.fs.Mounted :=
  ⟨⟨fun i => i, ObjectPool.defaultPoolSize, by simp [ObjectPool.defaultPoolSize], .refl _⟩, rfl, rfl⟩

/-- The file belongs to the first blob, and reads from the second one. -/
theorem open_files_share_handler_two_blobs :
    ∃ s lm, Run (step direntSize) Fits mount twoBlobs s ∧ s.fs.files[0]? = some (some lm) ∧ lm.id = 1 ∧
      (s.fs.handlers lm.blob).id = 2 := by
  have hrun : Run (step direntSize) Fits mount twoBlobs _ := Run.of_isSome mount (by decide +kernel)
  generalize hs : (exec (step direntSize) Fits mount twoBlobs).getD mount = s at hrun
  have hfile : ∃ lm, s.fs.files[0]? = some (some lm) ∧ lm.id = 1 := by
    rw [← hs]
    exact ⟨⟨0, 1, 1, 0, 0⟩, by decide +kernel, rfl⟩
  obtain ⟨lm, hlm, hid⟩ := hfile
  obtain ⟨p, hshare⟩ := open_files_share_handler mount_mounted hrun
  obtain ⟨hblob, id, hlast, hhandler, -⟩ := hshare 0 lm hlm
  have hnamed : lastNamed twoBlobs = some 2 := by decide +kernel
  rw [hnamed, Option.some.injEq] at hlast
  exact ⟨s, lm, hrun, hlm, hid, by rw [hblob, hhandler, hlast]⟩

end FuseSystem

end BlobSeer
