import BlobSeer.Fuse.Namespace

/-!
# Reading a directory in pages

The kernel reads a directory by one `readdir` after another, each of them from the offset of the last
entry that it has, while other requests are handled and other clients work on the version manager. Each
`readdir` builds the whole listing anew. Since the listing of the root, and that of a blob with versions
of its own, only grows at its end, the pages together are always the beginning of the listing as it is
then (`readdir_session`).
-/

namespace BlobSeer

open Lib
open FuseSystem (direntSize direntSize_pos)

/-- The listing of the directory only ever grew: the root, or a blob that was not cloned from a later
version. The number of links has 32 bits. -/
def Grows (hist : VmHistory) (dir : Nat) : Prop :=
  dir = 1 ∨ (∀ o, hist.vm.objHash (inoId dir) = some o → ∃ r, o.roots[0]? = some r ∧ r.node.version = 0) ∧
    (hist.vm.getRoot (inoId dir) 0).node.version + 2 < 2 ^ 32

theorem readdirEntries_prefix (ino : Nat) {m n : Nat} (h : m ≤ n) :
    readdirEntries ino m <+: readdirEntries ino n := by
  have hrange : List.range' 1 (m - 2) <+: List.range' 1 (n - 2) := by
    obtain ⟨k, hk⟩ := Nat.exists_eq_add_of_le (Nat.sub_le_sub_right h 2)
    rw [hk]
    exact ⟨_, List.range'_append_1⟩
  rw [readdirEntries_eq, readdirEntries_eq, List.cons_prefix_cons, List.cons_prefix_cons]
  exact ⟨rfl, rfl, hrange.map _⟩

theorem VmHistory.objCount_step {h h' : VmHistory} {req : VmRequest} (hs : h.step req = some h') :
    h.vm.objCount ≤ h'.vm.objCount := by
  obtain rfl | ⟨ps, rc, -, rfl⟩ | ⟨i, version, o, -, -, rfl⟩ |
    ⟨query, append, o, maxSize, -, -, -, rfl⟩ | ⟨interval, o, -, -, -, rfl⟩ := step_cases hs
  · exact Nat.le_refl _
  · exact Nat.le_succ _
  · exact Nat.le_succ _
  · exact Nat.le_refl _
  · exact Nat.le_refl _

namespace Grows

variable {h h' : VmHistory} {reqs : List VmRequest} {dir : Nat}

/-- One call on the version manager only adds entries. -/
theorem step {req : VmRequest} (hrun : Run VmHistory.step TicketsFit {} reqs h) (hok : TicketsFit h req)
    (hs : h.step req = some h') (hg : Grows h' dir) :
    Grows h dir ∧ dirLinks h.vm dir ≤ dirLinks h'.vm dir := by
  by_cases hroot : dir = 1
  · refine ⟨.inl hroot, ?_⟩
    rw [dirLinks, dirLinks, if_pos hroot, if_pos hroot]
    exact Nat.add_le_add_right (VmHistory.objCount_step hs) 2
  · obtain ⟨hown, hbound⟩ := hg.resolve_left hroot
    have hinv := VmHistory.window hrun
    have hinv' := VmHistory.window (hrun.append (.single hok hs))
    have hown₀ : ∀ o, h.vm.objHash (inoId dir) = some o →
        ∃ r, o.roots[0]? = some r ∧ r.node.version = 0 := by
      intro o ho
      obtain ⟨o', ho', hprefix⟩ := VmHistory.step_roots hs hinv.next_none ho
      obtain ⟨r, hr, hzero⟩ := hown o' ho'
      have hfirst := List.getElem?_eq_getElem (hinv.obj ho).pending.roots_pos
      rw [getElem?_of_isPrefix hprefix hfirst, Option.some.injEq] at hr
      exact ⟨_, hfirst, hr ▸ hzero⟩
    have hle : (h.vm.getRoot (inoId dir) 0).node.version ≤ (h'.vm.getRoot (inoId dir) 0).node.version := by
      cases ho : h.vm.objHash (inoId dir) with
      | none => simp [VManagement.getRoot, ho, Root.make]
      | some o =>
        obtain ⟨o', ho', hprefix⟩ := VmHistory.step_roots hs hinv.next_none ho
        rw [VManagement.getRoot_latest ho, VManagement.getRoot_latest ho',
          (hinv.obj ho).lastRoot_version (.inr (hown₀ o ho)),
          (hinv'.obj ho').lastRoot_version (.inr (hown o' ho'))]
        exact Nat.sub_le_sub_right hprefix.length_le 1
    refine ⟨.inr ⟨hown₀, by omega⟩, ?_⟩
    rw [dirLinks, dirLinks, if_neg hroot, if_neg hroot, u32, u32, Nat.mod_eq_of_lt (by omega),
      Nat.mod_eq_of_lt hbound]
    exact Nat.add_le_add_right hle 2

theorem run (hreach : Run VmHistory.step TicketsFit {} reqs h) {more : List VmRequest}
    (hrun : Run VmHistory.step TicketsFit h more h') (hg : Grows h' dir) :
    Grows h dir ∧ dirEntries h.vm dir <+: dirEntries h'.vm dir := by
  suffices hlinks : Grows h dir ∧ dirLinks h.vm dir ≤ dirLinks h'.vm dir from
    ⟨hlinks.1, readdirEntries_prefix dir hlinks.2⟩
  induction hrun generalizing reqs with
  | nil => exact ⟨hg, Nat.le_refl _⟩
  | cons hok hs _ ih =>
    obtain ⟨hnext, hle⟩ := ih (hreach.append (.single hok hs)) hg
    obtain ⟨hfirst, hle'⟩ := step hreach hok hs hnext
    exact ⟨hfirst, hle'.trans hle⟩

end Grows

/-! ## A session -/

/-- The file system with one reader of a directory. -/
structure DirSession where
  sys : FuseSystem
  reader : PageReader DirEntry := {}

/-- Anything that happens besides, or the next page for the reader. -/
inductive DirEvent where
  | act (a : FuseAction)
  | page (size : Nat) (calls : FuseCalls)

namespace DirSession

/-- A reply without a page leaves the reader where it is. -/
def step (entrySize : List Char → Nat) (dir : Nat) (s : DirSession) : DirEvent → Option DirSession
  | .act a => (s.sys.step entrySize a).map fun sys => { s with sys := sys }
  | .page size calls =>
    match s.sys.handle entrySize (.readdir dir size s.reader.off) calls with
    | some (.buf page, sys) => some ⟨sys, s.reader.take page⟩
    | some (_, sys) => some { s with sys := sys }
    | none => none

def Fits (s : DirSession) : DirEvent → Prop
  | .act a => s.sys.Fits a
  | .page _ _ => True

instance (s : DirSession) (e : DirEvent) : Decidable (s.Fits e) :=
  match e with
  | .act a => inferInstanceAs (Decidable (s.sys.Fits a))
  | .page _ _ => .isTrue trivial

/-- The reader has the beginning of the listing, if the listing only ever grew. -/
structure Inv (entrySize : List Char → Nat) (dir p : Nat) (s : DirSession) : Prop where
  hist : ∃ reqs, Run VmHistory.step TicketsFit {} reqs s.sys.hist
  shared : s.sys.fs.Shared p
  reader : Grows s.sys.hist dir →
    ReadsPrefix (dirSize entrySize) (dirEntries s.sys.hist.vm dir) s.reader

variable {entrySize : List Char → Nat} {dir p : Nat} {s t : DirSession}

/-- The file system goes on, and the reader has what it has of the listing before. -/
theorem Inv.sys (h : Inv entrySize dir p s) {sys : FuseSystem} {more : List VmRequest}
    (hmore : Run VmHistory.step TicketsFit s.sys.hist more sys.hist) (hshared : sys.fs.Shared p)
    {reader : PageReader DirEntry} (hreader : Grows s.sys.hist dir →
      ReadsPrefix (dirSize entrySize) (dirEntries s.sys.hist.vm dir) reader) :
    Inv entrySize dir p ⟨sys, reader⟩ := by
  obtain ⟨reqs, hreqs⟩ := h.hist
  refine ⟨⟨_, hreqs.append hmore⟩, hshared, fun hg => ?_⟩
  obtain ⟨hbefore, hprefix⟩ := hg.run hreqs hmore
  exact (hreader hbefore).grow hprefix

/-- A page has the entries that lie in it; only a call that is not answered fails. -/
theorem page_eq (hshared : s.sys.fs.Shared p) (hpos : ∀ name, 0 < entrySize name) (hdir : IsDir dir)
    {size off : Nat} {calls : FuseCalls} {r : FuseReply} {sys : FuseSystem}
    (hr : s.sys.handle entrySize (.readdir dir size off) calls = some (r, sys)) :
    r = if calls.first = .answered then
      .buf (complete (dirSize entrySize) off (off + size)
        (layout (dirSize entrySize) 0 (dirEntries s.sys.hist.vm dir)))
    else .err .eproto := by
  obtain ⟨-, hist, -, -, hreply⟩ := FuseSystem.handle_cases hr
  exact (congrArg Prod.fst hreply).trans
    (hshared.readdir hpos hdir ⟨s.sys.hist.vm, calls.first⟩ ⟨hist.vm, calls.second⟩ size off)

theorem Inv.step (hpos : ∀ name, 0 < entrySize name) (hdir : IsDir dir) (h : Inv entrySize dir p s)
    {e : DirEvent} (hok : s.Fits e) (hs : s.step entrySize dir e = some t) : Inv entrySize dir p t := by
  cases e with
  | act a =>
    obtain ⟨sys, hsys, rfl⟩ := Option.map_eq_some_iff.mp hs
    obtain ⟨more, hmore⟩ := FuseSystem.hist_run (.cons hok hsys (.nil sys))
    exact h.sys hmore (FuseSystem.step_shared h.shared hsys) h.reader
  | page size calls =>
    have hsize : ∀ e, 0 < dirSize entrySize e := fun e => hpos e.name
    -- the reply, and what the other clients did meanwhile
    cases hr : s.sys.handle entrySize (.readdir dir size s.reader.off) calls with
    | none =>
      rw [DirSession.step, hr] at hs
      cases hs
    | some reply =>
      obtain ⟨r, sys⟩ := reply
      obtain ⟨-, hist, hserve, hhist, -⟩ := FuseSystem.handle_cases hr
      have hmore := Run.of_exec hserve
      rw [← hhist] at hmore
      have hshared := (FuseSystem.handle_keeps h.shared hr).shared
      have hpage := page_eq h.shared hpos hdir hr
      rw [DirSession.step, hr] at hs
      by_cases hfirst : calls.first = .answered
      · rw [if_pos hfirst] at hpage
        rw [hpage] at hs
        cases hs
        exact h.sys hmore hshared fun hg => (h.reader hg).take hsize (s.reader.off + size)
      · rw [if_neg hfirst] at hpage
        rw [hpage] at hs
        cases hs
        exact h.sys hmore hshared h.reader

/-- **A session.** Whatever else happens between the pages, the reader has the beginning of the listing
as it is now, every entry once and none left out, if the listing only ever grew; and it has all of it
when a page that has room for an entry comes without one. -/
theorem readdir_session (hpos : ∀ name, 0 < entrySize name) (hdir : IsDir dir) {start : BlobFs}
    (hstart : start.Mounted) {events : List DirEvent}
    (hrun : Run (DirSession.step entrySize dir) Fits ⟨⟨{}, start⟩, {}⟩ events s)
    (hg : Grows s.sys.hist dir) :
    s.sys.Lists entrySize dir (dirEntries s.sys.hist.vm dir) ∧
      s.reader.got <+: dirEntries s.sys.hist.vm dir ∧
      ∀ (size : Nat) (calls : FuseCalls) (sys : FuseSystem),
        (∀ e ∈ dirEntries s.sys.hist.vm dir, entrySize e.name ≤ size) →
        s.sys.handle entrySize (.readdir dir size s.reader.off) calls = some (.buf [], sys) →
        s.reader.got = dirEntries s.sys.hist.vm dir := by
  obtain ⟨p, hp⟩ := BlobFs.Shared.of_mounted hstart
  have hinv : Inv entrySize dir p s := by
    refine hrun.inv (P := Inv entrySize dir p) (fun h hok hs => h.step hpos hdir hok hs)
      ⟨⟨[], .nil _⟩, hp, fun _ => ReadsPrefix.start _⟩
  have hconsistent := hinv.reader hg
  refine ⟨FuseSystem.lists_dirEntries hinv.shared hpos hdir, hconsistent.isPrefix,
    fun size calls sys hroom hr => ?_⟩
  have hpage := page_eq hinv.shared hpos hdir hr
  split at hpage
  · rw [FuseReply.buf.injEq] at hpage
    exact hconsistent.done (fun e => hpos e.name) (fun e he => Nat.add_le_add_left (hroom e he) _)
      hpage.symm
  · cases hpage

/-- The second blob is made between two pages of the root. -/
def rootWhileGrowing : List DirEvent :=
  [.act (.other (.create 4 1)), .page 64 {}, .act (.other (.create 4 1)), .page 64 {}]

/-- The reader has both blobs. -/
theorem readdir_session_growing :
    ∃ s, Run (DirSession.step direntSize 1) Fits ⟨FuseSystem.mount, {}⟩ rootWhileGrowing s ∧
      s.reader.got = dirEntries s.sys.hist.vm 1 ∧
      s.reader.got.map DirEntry.name = [['.'], ['.', '.'], printName blobPrefix 1, printName blobPrefix 2] := by
  have hrun : Run (DirSession.step direntSize 1) Fits ⟨FuseSystem.mount, {}⟩ rootWhileGrowing _ :=
    Run.of_isSome ⟨FuseSystem.mount, {}⟩ (by decide +kernel)
  generalize hs : (exec (DirSession.step direntSize 1) Fits ⟨FuseSystem.mount, {}⟩
    rootWhileGrowing).getD ⟨FuseSystem.mount, {}⟩ = s at hrun
  have hfacts : (∀ e ∈ dirEntries s.sys.hist.vm 1, direntSize e.name ≤ 64) ∧
      ((s.sys.handle direntSize (.readdir 1 64 s.reader.off) {}).map (·.1)) = some (.buf []) ∧
      s.reader.got.map DirEntry.name =
        [['.'], ['.', '.'], printName blobPrefix 1, printName blobPrefix 2] := by
    rw [← hs]
    decide +kernel
  obtain ⟨hroom, hlast, hnames⟩ := hfacts
  obtain ⟨⟨r, sys⟩, hr, hreply⟩ := Option.map_eq_some_iff.mp hlast
  have hsession := readdir_session direntSize_pos isDir_root FuseSystem.mount_mounted hrun (.inl rfl)
  refine ⟨s, hrun, hsession.2.2 64 {} sys hroom ?_, hnames⟩
  rw [hr, ← hreply]

end DirSession

end BlobSeer
