import BlobSeer.Fuse.SharedHandler
import Mathlib.Data.List.TakeWhile

/-!
# What the file system shows

No object of the pool is ever marked, so every operation gets the same handler (`Shared`).
-/

namespace BlobSeer

open Lib

/-! ## Names -/

theorem inoId_buildIno {id version : Nat} (hid : id < 2 ^ 32) (hv : version < 2 ^ 32) :
    inoId (buildIno id version) = id := by
  unfold inoId buildIno u64
  omega

theorem inoVersion_buildIno (id : Nat) {version : Nat} (hv : version < 2 ^ 32) :
    inoVersion (buildIno id version) = version := by
  unfold inoVersion buildIno u64
  omega

theorem isDigit_toNat {c : Char} (hc : c.isDigit = true) : 48 ≤ c.toNat := by
  simp only [Char.isDigit, Bool.and_eq_true, decide_eq_true_eq] at hc
  exact UInt32.le_iff_toNat_le.mp hc.1

theorem not_isSpace_of_isDigit {c : Char} (hc : c.isDigit = true) : isSpace c = false := by
  have hle := isDigit_toNat hc
  have hne : ∀ {d : Char}, d.toNat < 48 → c ≠ d := by
    rintro d hd rfl
    omega
  have h11 : c.toNat ≠ 11 := by omega
  have h12 : c.toNat ≠ 12 := by omega
  have h1 : c ≠ ' ' := hne (by simp)
  have h2 : c ≠ '\t' := hne (by simp)
  have h3 : c ≠ '\n' := hne (by simp)
  have h4 : c ≠ '\r' := hne (by simp)
  simp [isSpace, h1, h2, h3, h4, h11, h12]

theorem scanSign_of_isDigit {c : Char} (hc : c.isDigit = true) (s : List Char) :
    scanSign (c :: s) = (false, c :: s) := by
  have hle := isDigit_toNat hc
  unfold scanSign
  split
  · next h =>
    rw [List.cons.injEq] at h
    rw [h.1] at hle
    simp at hle
  · next h =>
    rw [List.cons.injEq] at h
    rw [h.1] at hle
    simp at hle
  · rfl

/-- A printed number is scanned as itself. -/
theorem scanInt_toDigits (n : Nat) : scanInt (Nat.toDigits 10 n) = some (n : Int) := by
  have hdigit : ∀ c ∈ Nat.toDigits 10 n, c.isDigit = true := fun c hc =>
    Nat.isDigit_of_mem_toDigits (by simp) (by simp) hc
  have hvalue : Nat.ofDigitChars 10 (Nat.toDigits 10 n) 0 = n := Nat.ofDigitChars_ten_toDigits
  cases hd : Nat.toDigits 10 n with
  | nil => exact absurd hd Nat.toDigits_ne_nil
  | cons c cs =>
    rw [hd] at hdigit hvalue
    have hc := hdigit c List.mem_cons_self
    have htake : (c :: cs).takeWhile Char.isDigit = c :: cs := List.takeWhile_eq_self_iff.mpr hdigit
    rw [scanInt, List.dropWhile_cons_of_neg (by simp [not_isSpace_of_isDigit hc]), scanSign_of_isDigit hc]
    simp [htake, hvalue]

theorem scanName_printName (lit : List Char) {n : Nat} (hn : n < 2 ^ 31) :
    scanName lit (printName lit n) = some n := by
  have hpre : lit.isPrefixOf (printName lit n) = true :=
    List.isPrefixOf_iff_prefix.mpr (List.prefix_append _ _)
  have hcut : ((n : Int) % 2 ^ 32).toNat = n := by omega
  rw [scanName, if_pos hpre, printName, List.drop_left, scanInt_toDigits, Option.map_some, hcut]

theorem printName_inj (lit : List Char) {m n : Nat} (h : printName lit m = printName lit n) : m = n := by
  have hscan := congrArg (fun name => scanInt (name.drop lit.length)) h
  simpa [printName, scanInt_toDigits] using hscan

theorem printName_ne_dots {lit : List Char} {c : Char} (hc : c ∈ lit.head?) (hne : c ≠ '.') (n : Nat) :
    printName lit n ≠ ['.'] ∧ printName lit n ≠ ['.', '.'] := by
  cases lit with
  | nil => cases hc
  | cons d l =>
    rw [List.head?_cons, Option.mem_def, Option.some.injEq] at hc
    simp [printName, hc, hne]

theorem lookupName_blob {id : Nat} (hid : id < 2 ^ 31) :
    lookupName 1 (printName blobPrefix id) = some (id, 0) := by
  simp [lookupName, scanName_printName blobPrefix hid]

theorem lookupName_version {id ver : Nat} (hid : 0 < id) (hid32 : id < 2 ^ 32) (hver : ver < 2 ^ 31) :
    lookupName (buildIno id 0) (printName versionPrefix ver) = some (id, ver) := by
  have h1 : buildIno id 0 ≠ 1 := by
    unfold buildIno u64
    omega
  have h2 := inoId_buildIno hid32 (show 0 < 2 ^ 32 by simp)
  have h3 := inoVersion_buildIno id (show 0 < 2 ^ 32 by simp)
  rw [lookupName, if_neg h1, if_pos ⟨by omega, h3⟩, scanName_printName versionPrefix hver, h2]
  rfl

/-! ## Directory buffers -/

section dirbuf

variable {entrySize : List Char → Nat}

/-- The buffer is the entries one behind the other. -/
theorem foldl_dirbufAdd (l : List DirEntry) (b : DirBuf) :
    l.foldl (dirbufAdd entrySize) b =
      ⟨b.p ++ layout (dirSize entrySize) b.size l, b.size + extent (dirSize entrySize) l⟩ := by
  induction l generalizing b with
  | nil => simp [layout]
  | cons e l ih => simp [ih, dirbufAdd, layout, Nat.add_assoc]

/-- Only the entries count that lie in the requested bytes. -/
theorem replyBufLimited_eq (hpos : ∀ name, 0 < entrySize name) (l : List DirEntry) (off maxsize : Nat) :
    replyBufLimited entrySize (l.foldl (dirbufAdd entrySize) {}) off maxsize =
      complete (dirSize entrySize) off (off + maxsize) (layout (dirSize entrySize) 0 l) := by
  have hsize : ∀ e, 0 < dirSize entrySize e := fun e => hpos e.name
  rw [foldl_dirbufAdd, replyBufLimited]
  simp only [Nat.zero_add, List.nil_append]
  split
  · refine List.filter_congr fun e he => ?_
    have hle := (le_of_mem_layout he).2
    have hiff : e.2 ≤ off + min (extent (dirSize entrySize) l - off) maxsize ↔ e.2 ≤ off + maxsize := by
      omega
    exact decide_eq_decide.mpr (and_congr_right fun _ => hiff)
  · exact (complete_before hsize (by omega)).symm

end dirbuf

/-! ## Directories -/

/-- The root, or the directory of a blob. -/
def IsDir (ino : Nat) : Prop := ino = 1 ∨ inoId ino ≠ 0 ∧ inoVersion ino = 0

instance (ino : Nat) : Decidable (IsDir ino) :=
  inferInstanceAs (Decidable (ino = 1 ∨ inoId ino ≠ 0 ∧ inoVersion ino = 0))

/-- The links that `blob_stat` counts for a directory. -/
def dirLinks (vm : VManagement) (ino : Nat) : Nat :=
  if ino = 1 then vm.objCount + 2 else u32 ((vm.getRoot (inoId ino) 0).node.version + 2)

/-- The entries of a directory. -/
def dirEntries (vm : VManagement) (ino : Nat) : List DirEntry := readdirEntries ino (dirLinks vm ino)

theorem isDir_root : IsDir 1 := .inl rfl

theorem isDir_blob {id : Nat} (hid : 0 < id) (hid32 : id < 2 ^ 32) : IsDir (buildIno id 0) := by
  refine .inr ⟨?_, inoVersion_buildIno id (by simp)⟩
  rw [inoId_buildIno hid32 (by simp)]
  omega

theorem buildIno_ne_one {id : Nat} (hid : 0 < id) (hid32 : id < 2 ^ 32) (ver : Nat) (hver : ver < 2 ^ 32) :
    buildIno id ver ≠ 1 := by
  unfold buildIno u64
  omega

namespace BlobFs

theorem statWith_root (h : ObjectHandler) (first second : VmAnswer) (stbuf : Stat) :
    statWith h first second 1 stbuf = if first.rpc = .answered then
      (.ok, { stbuf with mode := sIfdir ||| 0o755, nlink := first.vm.objCount + 2 }, h)
    else (.eproto, stbuf, h) := by
  unfold statWith ObjectHandler.getObjcount
  by_cases hrpc : first.rpc = .answered
  · have hne : (first.vm.objCount : Int) ≠ -1 := by omega
    have hlinks : ((first.vm.objCount : Int) + 2).toNat = first.vm.objCount + 2 := by omega
    simp [hrpc, hne, hlinks]
  · simp [hrpc]

/-- What `blob_stat` finds out about a directory. -/
theorem statWith_dir {ino : Nat} (hdir : IsDir ino) (h : ObjectHandler) (first second : VmAnswer)
    (stbuf : Stat) : ∃ h', statWith h first second ino stbuf = if first.rpc = .answered then
      (.ok, { stbuf with mode := sIfdir ||| 0o755, nlink := dirLinks first.vm ino }, h')
    else (.eproto, stbuf, h') := by
  by_cases hroot : ino = 1
  · subst hroot
    exact ⟨h, statWith_root h first second stbuf⟩
  · obtain ⟨hid, hver⟩ := hdir.resolve_left hroot
    refine ⟨(h.getLatest first.vm first.rpc (inoId ino)).2, ?_⟩
    rw [statWith, if_neg hroot, if_pos hid]
    dsimp only
    rw [ObjectHandler.getLatest_fst]
    by_cases hrpc : first.rpc = .answered
    · rw [if_pos (by simp [hrpc]), if_pos hver, if_pos hrpc, hrpc, ObjectHandler.getVersion,
        ObjectHandler.getLatest_root h first.vm hid, dirLinks, if_neg hroot]
    · rw [if_neg (by simp [hrpc]), if_neg hrpc]

/-- A page of a directory has the entries that lie in it, and only a call that is not answered fails. -/
theorem Shared.readdir {p : Nat} {fs : BlobFs} (h : Shared p fs) {entrySize : List Char → Nat}
    (hpos : ∀ name, 0 < entrySize name) {ino : Nat} (hdir : IsDir ino) (first second : VmAnswer)
    (size off : Nat) :
    (fs.readdir entrySize first second ino size off).1 = if first.rpc = .answered then
      .buf (complete (dirSize entrySize) off (off + size)
        (layout (dirSize entrySize) 0 (dirEntries first.vm ino)))
    else .err .eproto := by
  obtain ⟨h', hstat⟩ := statWith_dir hdir (fs.handlers p) first second { ino := ino }
  rw [BlobFs.readdir, h.blobStat, hstat]
  by_cases hrpc : first.rpc = .answered
  · rw [if_pos hrpc, if_pos hrpc]
    simp only [ne_eq, not_true_eq_false, if_false]
    rw [if_neg (by simp [sIfdir])]
    exact congrArg FuseReply.buf (replyBufLimited_eq hpos _ off size)
  · rw [if_neg hrpc, if_neg hrpc]
    simp

end BlobFs

/-! ## Blobs and versions -/

/-- The blobs are those with the ids that were given out. -/
theorem VmHistory.exists_iff {h : VmHistory} {reqs : List VmRequest}
    (hrun : Run VmHistory.step TicketsFit {} reqs h) (id : Nat) :
    (∃ o, h.vm.objHash id = some o) ↔ 1 ≤ id ∧ id ≤ h.vm.objCount := by
  have hall : ∀ id, (∃ o, h.vm.objHash id = some o) ↔ 1 ≤ id ∧ id ≤ h.vm.objCount := by
    refine hrun.inv (P := fun h => ∀ id, (∃ o, h.vm.objHash id = some o) ↔ 1 ≤ id ∧ id ≤ h.vm.objCount)
      ?_ (by simp; omega)
    intro s t a h _ hs id
    have hadd : ∀ o : ObjInfo, (∃ o', (s.vm.addObj o).objHash id = some o') ↔
        1 ≤ id ∧ id ≤ (s.vm.addObj o).objCount := by
      intro o
      by_cases hid : id = s.vm.objCount + 1
      · simp [VManagement.addObj, hid]
      · simp only [VManagement.addObj, Function.update_of_ne hid, h id]
        omega
    have hset : ∀ {i : Nat} {o o' : ObjInfo}, s.vm.objHash i = some o →
        ((∃ o'', (s.vm.setObj i o').objHash id = some o'') ↔ 1 ≤ id ∧ id ≤ (s.vm.setObj i o').objCount) := by
      intro i o o' ho
      by_cases hid : id = i
      · have := (h i).mp ⟨o, ho⟩
        simpa [VManagement.setObj, hid] using this
      · simpa only [VManagement.setObj, Function.update_of_ne hid] using h id
    obtain rfl | ⟨ps, rc, -, rfl⟩ | ⟨i, version, o, -, ho, rfl⟩ |
      ⟨query, append, o, maxSize, -, ho, -, rfl⟩ | ⟨interval, o, -, ho, -, rfl⟩ := VmHistory.step_cases hs
    · exact h id
    · exact hadd _
    · exact hadd _
    · exact hset ho
    · exact hset ho
  exact hall id

/-- The latest root has the number of its version, except for the first root of a clone. -/
theorem Window.lastRoot_version {id : Nat} {o : ObjInfo} {issued : List Query} {published : List Nat}
    (hw : Window id o issued published)
    (h : 2 ≤ o.roots.length ∨ ∃ r, o.roots[0]? = some r ∧ r.node.version = 0) :
    o.lastRoot.node.version = o.roots.length - 1 := by
  have hlast := o.lastRoot_eq hw.pending.roots_pos
  by_cases hlen : 2 ≤ o.roots.length
  · exact hw.pending.rootVersion (by omega) hlast
  · obtain ⟨r, hr, hzero⟩ := h.resolve_left hlen
    have hone : o.roots.length - 1 = 0 := by omega
    rw [hone, hr, Option.some.injEq] at hlast
    rw [← hlast, hzero, hone]

/-! ## Listings -/

/-- The names of the entries below a directory. -/
def childName (ino : Nat) : Nat → List Char := printName (if ino = 1 then blobPrefix else versionPrefix)

/-- The inodes of the entries below a directory. -/
def childIno (ino n : Nat) : Nat := if ino = 1 then buildIno n 0 else buildIno (inoId ino) n

theorem readdirEntries_eq (ino nlink : Nat) :
    readdirEntries ino nlink = ⟨['.'], ino⟩ :: ⟨['.', '.'], 1⟩ ::
      (List.range' 1 (nlink - 2)).map fun n => ⟨childName ino n, childIno ino n⟩ := by
  have hshift : List.range' 2 (nlink - 2) = (List.range' 1 (nlink - 2)).map (1 + ·) :=
    (List.map_add_range' 1 (nlink - 2) 1).symm
  rw [readdirEntries, hshift, List.map_map]
  refine congrArg (_ :: _ :: ·) (List.map_congr_left fun n _ => ?_)
  by_cases hroot : ino = 1 <;> simp [childName, childIno, hroot]

theorem mem_readdirEntries {ino nlink : Nat} {e : DirEntry} :
    e ∈ readdirEntries ino nlink ↔ e = ⟨['.'], ino⟩ ∨ e = ⟨['.', '.'], 1⟩ ∨
      ∃ n, (1 ≤ n ∧ n + 2 ≤ nlink) ∧ e = ⟨childName ino n, childIno ino n⟩ := by
  rw [readdirEntries_eq, List.mem_cons, List.mem_cons, List.mem_map]
  refine or_congr_right (or_congr_right (exists_congr fun n => ?_))
  rw [List.mem_range'_1, eq_comm]
  refine and_congr_left fun _ => ?_
  omega

theorem childName_ne_dots (ino n : Nat) : childName ino n ≠ ['.'] ∧ childName ino n ≠ ['.', '.'] := by
  unfold childName
  split
  · exact printName_ne_dots (c := 'b') (by simp [blobPrefix]) (by simp) n
  · exact printName_ne_dots (c := 'v') (by simp [versionPrefix]) (by simp) n

theorem nodup_readdirEntries (ino nlink : Nat) :
    ((readdirEntries ino nlink).map DirEntry.name).Nodup := by
  rw [readdirEntries_eq]
  simp only [List.map_cons, List.map_map, List.nodup_cons, List.mem_cons, List.mem_map,
    Function.comp_apply, not_or, not_exists, not_and]
  refine ⟨⟨by simp, fun n _ => (childName_ne_dots ino n).1⟩,
    fun n _ => (childName_ne_dots ino n).2, ?_⟩
  exact List.Nodup.map (fun m n h => printName_inj _ h) (List.nodup_range' 1)

namespace FuseSystem

/-- Everyone who reads the directory in one page that is large enough gets these entries. -/
def Lists (entrySize : List Char → Nat) (s : FuseSystem) (ino : Nat) (l : List DirEntry) : Prop :=
  ∀ (size : Nat) (calls : FuseCalls) (r : FuseReply) (t : FuseSystem),
    extent (dirSize entrySize) l ≤ size → calls.first = .answered →
    s.handle entrySize (.readdir ino size 0) calls = some (r, t) →
    r = .buf (layout (dirSize entrySize) 0 l)

/-- The name leads from one inode to the other, whatever becomes of the calls. -/
def Resolves (entrySize : List Char → Nat) (s : FuseSystem) (parent : Nat) (name : List Char)
    (ino : Nat) : Prop :=
  ∀ (calls : FuseCalls) (r : FuseReply) (t : FuseSystem),
    s.handle entrySize (.lookup parent name) calls = some (r, t) → ∃ attr, r = .entry ino attr

/-- The directory shows one entry for each number of `member`, besides itself and the root. -/
structure Shows (entrySize : List Char → Nat) (s : FuseSystem) (ino : Nat) (member : Nat → Prop) :
    Prop where
  lists : ∃ l, s.Lists entrySize ino l ∧ (l.map DirEntry.name).Nodup ∧
    ∀ e, e ∈ l ↔ e = ⟨['.'], ino⟩ ∨ e = ⟨['.', '.'], 1⟩ ∨
      ∃ n, member n ∧ e = ⟨childName ino n, childIno ino n⟩
  resolves : ∀ n, member n → s.Resolves entrySize ino (childName ino n) (childIno ino n)

variable {entrySize : List Char → Nat} {p : Nat} {s : FuseSystem}

theorem resolves_of_lookupName {parent id ver : Nat} {name : List Char}
    (h : lookupName parent name = some (id, ver)) :
    s.Resolves entrySize parent name (buildIno id ver) := by
  intro calls r t hr
  obtain ⟨-, hist, -, -, hreply⟩ := handle_cases hr
  rw [BlobFs.reply, BlobFs.lookup, h] at hreply
  exact ⟨_, congrArg Prod.fst hreply⟩

/-- A page that has room for all entries is the whole listing. -/
theorem complete_all {entrySize : List Char → Nat} {l : List DirEntry} {size : Nat}
    (hsize : extent (dirSize entrySize) l ≤ size) :
    complete (dirSize entrySize) 0 (0 + size) (layout (dirSize entrySize) 0 l) =
      layout (dirSize entrySize) 0 l := by
  refine List.filter_eq_self.mpr fun e he => ?_
  have := (le_of_mem_layout he).2
  simp only [decide_eq_true_eq]
  omega

theorem lists_dirEntries (h : s.fs.Shared p) (hpos : ∀ name, 0 < entrySize name) {ino : Nat}
    (hdir : IsDir ino) : s.Lists entrySize ino (dirEntries s.hist.vm ino) := by
  intro size calls r t hsize hfirst hr
  obtain ⟨-, hist, -, -, hreply⟩ := handle_cases hr
  have hpage := h.readdir hpos hdir ⟨s.hist.vm, calls.first⟩ ⟨hist.vm, calls.second⟩ size 0
  rw [if_pos hfirst, complete_all hsize] at hpage
  exact (congrArg Prod.fst hreply).trans hpage

/-- A directory shows the numbers from `1` on that its links count. -/
theorem shows_of_links (h : s.fs.Shared p) (hpos : ∀ name, 0 < entrySize name) {ino : Nat}
    (hdir : IsDir ino) (hlinks : dirLinks s.hist.vm ino ≤ 2 ^ 31) (hino : inoId ino < 2 ^ 32)
    {member : Nat → Prop} (hmember : ∀ n, member n ↔ 1 ≤ n ∧ n + 2 ≤ dirLinks s.hist.vm ino) :
    s.Shows entrySize ino member := by
  refine ⟨⟨_, lists_dirEntries h hpos hdir, nodup_readdirEntries _ _, fun e => ?_⟩, fun n hn => ?_⟩
  · rw [dirEntries, mem_readdirEntries]
    refine or_congr_right (or_congr_right (exists_congr fun n => ?_))
    rw [hmember]
  · have hlt : n < 2 ^ 31 := by
      have := (hmember n).mp hn
      omega
    by_cases hroot : ino = 1
    · rw [childName, childIno, if_pos hroot, if_pos hroot, hroot]
      exact resolves_of_lookupName (lookupName_blob hlt)
    · obtain ⟨hid, hver⟩ := hdir.resolve_left hroot
      have hbuild : buildIno (inoId ino) 0 = ino := by
        unfold buildIno u64 inoId inoVersion at *
        omega
      have hname := lookupName_version (Nat.pos_of_ne_zero hid) hino hlt
      rw [hbuild] at hname
      rw [childName, childIno, if_neg hroot, if_neg hroot]
      exact resolves_of_lookupName hname

theorem hist_run {s t : FuseSystem} {as : List FuseAction} (hrun : Run (step entrySize) Fits s as t) :
    ∃ reqs, Run VmHistory.step TicketsFit s.hist reqs t.hist := by
  induction hrun with
  | nil s => exact ⟨[], .nil _⟩
  | @cons s t u a as hok hs _ ih =>
    obtain ⟨reqs, hreqs⟩ := ih
    cases a with
    | other req =>
      obtain ⟨hist, hstep, rfl⟩ := Option.map_eq_some_iff.mp hs
      exact ⟨req :: reqs, .cons hok hstep hreqs⟩
    | request req calls =>
      obtain ⟨⟨r, t'⟩, hhandle, rfl⟩ := Option.map_eq_some_iff.mp hs
      obtain ⟨-, hist, hserve, rfl, -⟩ := handle_cases hhandle
      exact ⟨_, (Run.of_exec hserve).append hreqs⟩

/-- A request that no other client comes between is handled while the process is there. -/
theorem handle_alone (entrySize : List Char → Nat) (hrunning : s.fs.crashed = false)
    (req : FuseRequest) : ∃ r t, s.handle entrySize req {} = some (r, t) := by
  simp [handle, hrunning, serve, exec]

/-- Two listings of one directory are the same. -/
theorem Lists.unique (hrunning : s.fs.crashed = false) {ino : Nat} {l l' : List DirEntry}
    (h : s.Lists entrySize ino l) (h' : s.Lists entrySize ino l') : l = l' := by
  obtain ⟨r, t, hr⟩ := handle_alone entrySize hrunning
    (.readdir ino (max (extent (dirSize entrySize) l) (extent (dirSize entrySize) l')) 0)
  have heq := (h _ {} r t (Nat.le_max_left _ _) rfl hr).symm.trans (h' _ {} r t (Nat.le_max_right _ _) rfl hr)
  rw [FuseReply.buf.injEq] at heq
  simpa using congrArg (List.map (·.1)) heq

/-- Two sets of numbers that a directory shows are the same. -/
theorem Shows.unique (hrunning : s.fs.crashed = false) {ino : Nat} {member member' : Nat → Prop}
    (h : s.Shows entrySize ino member) (h' : s.Shows entrySize ino member') (n : Nat) (hn : member n) :
    member' n := by
  obtain ⟨l, hl, -, hmem⟩ := h.lists
  obtain ⟨l', hl', -, hmem'⟩ := h'.lists
  obtain rfl := hl.unique hrunning hl'
  have hin : (⟨childName ino n, childIno ino n⟩ : DirEntry) ∈ l := (hmem _).mpr (.inr (.inr ⟨n, hn, rfl⟩))
  rcases (hmem' _).mp hin with heq | heq | ⟨m, hm, heq⟩
  · exact absurd (DirEntry.mk.inj heq).1 (childName_ne_dots ino n).1
  · exact absurd (DirEntry.mk.inj heq).1 (childName_ne_dots ino n).2
  · rw [DirEntry.mk.injEq] at heq
    exact printName_inj _ heq.1 ▸ hm

/-! ## What is shown -/

section shown

variable (hpos : ∀ name, 0 < entrySize name) {start : BlobFs} (hstart : start.Mounted)
  {as : List FuseAction} (hrun : Run (step entrySize) Fits ⟨{}, start⟩ as s)

include hpos hstart hrun

/-- **The tree of directories.** The root shows the blobs that exist, each under its own name and inode,
and every name leads to its inode. The directory of a blob shows the versions of the blob that are
published if the blob was not cloned from a later version, or once a version of its own is published;
until then a clone shows versions that it does not have. -/
theorem directories_show_blobs (hrunning : s.fs.crashed = false)
    (hcount : s.hist.vm.objCount + 2 < 2 ^ 31) :
    s.Shows entrySize 1 (fun id => ∃ o, s.hist.vm.objHash id = some o) ∧
      ∀ id o, s.hist.vm.objHash id = some o → o.lastRoot.node.version + 2 < 2 ^ 31 →
        (s.Shows entrySize (buildIno id 0) (fun v => 1 ≤ v ∧ v < o.roots.length) ↔
          2 ≤ o.roots.length ∨ ∃ r, o.roots[0]? = some r ∧ r.node.version = 0) := by
  obtain ⟨p, hp⟩ := onNamed_run hstart hrun
  obtain ⟨reqs, hreqs⟩ := hist_run hrun
  have hexists := VmHistory.exists_iff hreqs
  have hinv := VmHistory.window hreqs
  refine ⟨shows_of_links hp.shared hpos isDir_root ?_ ?_ fun id => ?_, fun id o ho hversion => ?_⟩
  · simp only [dirLinks, if_true]
    omega
  · simp [inoId]
  · rw [hexists id]
    simp [dirLinks]
  · obtain ⟨hid, hle⟩ := (hexists id).mp ⟨o, ho⟩
    have hid32 : id < 2 ^ 32 := by omega
    have hdir := isDir_blob hid hid32
    have hroot := buildIno_ne_one hid hid32 0 (by simp)
    have hino : inoId (buildIno id 0) = id := inoId_buildIno hid32 (by simp)
    have hlinks : dirLinks s.hist.vm (buildIno id 0) = o.lastRoot.node.version + 2 := by
      rw [dirLinks, if_neg hroot, hino, VManagement.getRoot_latest ho, u32]
      omega
    have hshows : s.Shows entrySize (buildIno id 0) (fun v => 1 ≤ v ∧ v ≤ o.lastRoot.node.version) := by
      refine shows_of_links hp.shared hpos hdir ?_ (hino.symm ▸ hid32) fun v => ?_
      · omega
      · rw [hlinks]
        omega
    have hpos' := (hinv.obj ho).pending.roots_pos
    have hlast := o.lastRoot_eq hpos'
    constructor
    · intro h
      refine or_iff_not_imp_left.mpr fun hlen => ⟨o.lastRoot, ?_, ?_⟩
      · have hone : o.roots.length - 1 = 0 := by omega
        rw [← hone]
        exact hlast
      · by_contra hne
        have := hshows.unique hrunning h 1 ⟨Nat.le_refl 1, Nat.pos_of_ne_zero hne⟩
        omega
    · intro h
      have hversion' := (hinv.obj ho).lastRoot_version h
      have hsame : (fun v => 1 ≤ v ∧ v ≤ o.lastRoot.node.version) =
          fun v => 1 ≤ v ∧ v < o.roots.length := by
        funext v
        rw [hversion', eq_iff_iff]
        omega
      exact hsame ▸ hshows

end shown

/-- Both blobs are shown, and the first version of the clone is shown although the clone has none. -/
theorem directories_show_blobs_cloned :
    ∃ s, Run (step direntSize) Fits mount clonedVersion s ∧
      s.Shows direntSize 1 (fun id => ∃ o, s.hist.vm.objHash id = some o) ∧
      ∃ o, s.hist.vm.objHash 2 = some o ∧ o.roots.length = 1 ∧
        ¬ s.Shows direntSize (buildIno 2 0) (fun v => 1 ≤ v ∧ v < o.roots.length) := by
  have hrun : Run (step direntSize) Fits mount clonedVersion _ := Run.of_isSome mount (by decide +kernel)
  generalize hs : (exec (step direntSize) Fits mount clonedVersion).getD mount = s at hrun
  have hfacts : s.fs.crashed = false ∧ s.hist.vm.objCount + 2 < 2 ^ 31 ∧
      ∃ o ∈ s.hist.vm.objHash 2, o.lastRoot.node.version + 2 < 2 ^ 31 ∧ o.roots.length = 1 ∧
        ∀ r ∈ o.roots[0]?, r.node.version ≠ 0 := by
    rw [← hs]
    decide +kernel
  obtain ⟨hrunning, hcount, o, ho, hversion, hlen, hfirst⟩ := hfacts
  obtain ⟨hroot, hblob⟩ := directories_show_blobs direntSize_pos mount_mounted hrun hrunning hcount
  refine ⟨s, hrun, hroot, o, ho, hlen, fun hshows => ?_⟩
  rcases (hblob 2 o ho hversion).mp hshows with htwo | ⟨r, hr, hzero⟩
  · omega
  · exact hfirst r hr hzero

end FuseSystem

end BlobSeer
