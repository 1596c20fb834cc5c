import Dreamos64.Sys.Logging
import Mathlib.Data.List.FinRange

/-!
# Dreamos64 — the virtual file system

`vnode.c` and the opening of files of `vfs.c`: the table of mountpoints, the cache of
vnodes with the index of the next free one, `vfs_lookup` and `vfs_open`. What a file
system does is a parameter: a mountpoint may or may not have an `open` and a `lookup`
operation, and `lookup` may change the vnode it is given.

`vfs_open` has no `return` after a failed lookup. It then gives no value: the `none` of
`vfsOpen`. And the path is logged, twice in one message, on the way to the file system.

* `vfsOpen_free`, `vfsOpen_inv` — a call returns exactly if a vnode is free and the messages fit;
  it then uses the vnode up, and returns its index or nothing.
* `vfs_open_honest` — a call is honest and atomic exactly if it opens the file: no failing call
  is.
-/

namespace Dreamos64

open Machine

/-! ## `vnode.h`, `vfs.h` -/

def mountpointsMax : Nat := 5
def openedfilesMax : Nat := 5
def vnodeOpenedMax : Nat := 5

/-- `EOPEN_ERROR` of `vfs_errors.h`. -/
def eopenError : Int := -1

inductive VnodeTypes where
  | none
  | regularFile
  | dir
  | bad
  deriving DecidableEq, Repr

/-- A `vnode_t`; `vfs_root` is an index into the table of mountpoints. -/
structure Vnode where
  size     : Int
  refcount : Int
  vType    : VnodeTypes
  vfsRoot  : Option (Fin mountpointsMax)
  vData    : Option Nat
  deriving DecidableEq, Repr

structure FsFileOperations where
  openFile : Option (CharPtr → Int → Int)

/-- `lookup` gets the path, the flags and a vnode, and returns its error code and the
vnode as it left it. -/
structure VnodeOps where
  lookup : Option (CharPtr → Int → Vnode → Int × Vnode)

structure Mountpoint where
  mountpoint      : CString
  vnodeOperations : VnodeOps
  fileOperations  : FsFileOperations

structure Vfs where
  mountpoints : Fin mountpointsMax → Mountpoint
  vnodeCache  : Fin vnodeOpenedMax → Vnode
  vnodeIndex  : Nat

/-! ## `vnode.c` -/

/-- `vnode_clear`; `vfs_root` stays. -/
def vnodeClear (vnode : Vnode) : Vnode :=
  { vnode with size := 0, refcount := 0, vType := .none, vData := none }

/-- `vnode_get_next_free`: the index of the vnode, which is cleared. -/
def vnodeGetNextFree (s : Vfs) : Option (Fin vnodeOpenedMax × Vfs) :=
  -- the index only grows: a closed file's place is not used again
  if h : s.vnodeIndex < openedfilesMax then
    let id : Fin vnodeOpenedMax := ⟨s.vnodeIndex, h⟩
    let cache := Function.update s.vnodeCache id (vnodeClear (s.vnodeCache id))
    some (id, { s with vnodeCache := cache, vnodeIndex := s.vnodeIndex + 1 })
  else none

/-! ## `vfs.c` -/

/-- One turn of the search for the longest mountpoint that the path starts with. -/
def longerMountpoint (mountpoints : Fin mountpointsMax → Mountpoint) (path : CString)
    (last : Fin mountpointsMax × Nat) (i : Fin mountpointsMax) : Fin mountpointsMax × Nat :=
  let mountpoint := (mountpoints i).mountpoint
  let result := strncmp path.bytes mountpoint.bytes mountpoint.strlen
  -- an unused mountpoint has an empty name
  if mountpoint.bytes 0 ≠ 0 ∧ result = 0 ∧ mountpoint.strlen > last.2 then (i, mountpoint.strlen)
  else last

/-- `vfs_get_mountpoint_id`; the search starts at index 1. -/
def vfsGetMountpointId (mountpoints : Fin mountpointsMax → Mountpoint) (path : CString) :
    Fin mountpointsMax :=
  if path.strlen = 0 then ⟨0, by decide⟩
  else
    ((List.finRange mountpointsMax).tail.foldl (longerMountpoint mountpoints path)
      (⟨0, by decide⟩, 0)).1

/-- The length of `(vfs_get_relative_path): Removing prefix: %s (len: %d) from absolute path: %s
it should be: %s`. -/
def relativePathMessage (rootPrefix absolutePath : CString) : Nat :=
  86 + rootPrefix.strlen + loggedDigits rootPrefix.strlen + absolutePath.strlen +
    loggedLength (absolutePath.bytes.add rootPrefix.strlen)

/-- `vfs_get_relative_path`. -/
def vfsGetRelativePath (rootPrefix absolutePath : CString) : Exec CharPtr := do
  loglinef .verbose (relativePathMessage rootPrefix absolutePath)
  .ok (absolutePath.bytes.add rootPrefix.strlen)

/-- The part of `vfs_lookup` that asks the file system. -/
def askFileSystem (s : Vfs) (mountpointId : Fin mountpointsMax) (relativePath : CharPtr)
    (flags : Int) (vnode : Vnode) : Int × Vnode :=
  let mountpoint := s.mountpoints mountpointId
  match mountpoint.fileOperations.openFile, mountpoint.vnodeOperations.lookup with
  | none, _ => (eopenError, vnode)
  | some _, none => (eopenError, vnode)
  | some openFile, some lookup =>
    -- one character further than `open` starts
    let (errorCode, vnode) := lookup (relativePath.add 1) flags vnode
    let vnode := if errorCode = 0 then { vnode with vfsRoot := some mountpointId } else vnode
    -- the file is opened whatever the lookup said
    let driverFd := openFile relativePath flags
    if driverFd < 0 then (eopenError, vnode)
    else if s.vnodeIndex > openedfilesMax then (eopenError, vnode)
    else (0, { vnode with refcount := vnode.refcount + 1 })

/-- The part of `vfs_lookup` before that, with its messages
`(vfs_lookup):  --- mountpoint id for file: %s` and `(vfs_lookup):  --- relative path is: %s`. -/
def findRelativePath (mountpoint path : CString) : Exec CharPtr := do
  loglinef .verbose (43 + mountpoint.strlen)
  let relativePath ← vfsGetRelativePath mountpoint path
  loglinef .verbose (37 + loggedLength relativePath)
  .ok relativePath

/-- `vfs_lookup`: its result, and the vnode. -/
def vfsLookup (s : Vfs) (path : CString) (flags : Int) (vnode : Vnode) : Exec (Int × Vnode) := do
  let mountpointId := vfsGetMountpointId s.mountpoints path
  let relativePath ← findRelativePath (s.mountpoints mountpointId).mountpoint path
  .ok (askFileSystem s mountpointId relativePath flags vnode)

/-- `vfs_open`: the value returned, if there is one, and the state after. -/
def vfsOpen (s : Vfs) (path : CString) (flags : Int) : Exec (Option Int × Vfs) := do
  -- `(vfs_open): Try to open file: %s`
  loglinef .verbose (30 + path.strlen)
  match vnodeGetNextFree s with
  -- the message is `Fatal`, and the `return` behind it is not reached
  | none => .error .halted
  | some (vnodeId, s) =>
    let (result, vnode) ← vfsLookup s path flags (s.vnodeCache vnodeId)
    let s := { s with vnodeCache := Function.update s.vnodeCache vnodeId vnode }
    -- there is no `return` for the other results
    .ok (if result = 0 then some (vnodeId.val : Int) else none, s)

/-- `ustar_open`. A path whose messages have fitted in `vfs_lookup` fits into its message too. -/
def ustarOpen : CharPtr → Int → Int := fun _ _ => 3

/-- `vfs_init`, with the `lookup` of the archive driver. -/
def vfsInit (ustarLookup : CharPtr → Int → Vnode → Int × Vnode) : Vfs where
  mountpoints i :=
    match i.val with
    | 0 => ⟨.ofChars ['/'], ⟨none⟩, ⟨none⟩⟩
    | 1 => ⟨.ofChars ['/', 'h', 'o', 'm', 'e', '/', 'm', 'o', 'u', 'n', 't'], ⟨none⟩, ⟨none⟩⟩
    | 2 => ⟨.ofChars ['/', 'u', 's', 'r'], ⟨none⟩, ⟨none⟩⟩
    | 3 => ⟨.ofChars ['/', 'e', 'x', 't', 'e', 'r', 'n', 'a', 'l'], ⟨some ustarLookup⟩,
        ⟨some ustarOpen⟩⟩
    | _ => ⟨.ofChars [], ⟨none⟩, ⟨none⟩⟩
  vnodeCache _ := ⟨0, 0, .none, none, none⟩
  vnodeIndex := 0

/-! ## What a call does -/

section Open

variable (s : Vfs) (path : CString) (flags : Int)

/-- The mountpoint of a path. -/
def Vfs.mountpointOf : Mountpoint := s.mountpoints (vfsGetMountpointId s.mountpoints path)

/-- The path as the mountpoint's `open` gets it. -/
def Vfs.relativePath : CharPtr := path.bytes.add (s.mountpointOf path).mountpoint.strlen

/-- The message of `vfs_get_relative_path` fits into the buffer of `loglinef`. The other messages
about a path are shorter. -/
def Vfs.MessageFits : Prop :=
  relativePathMessage (s.mountpointOf path).mountpoint path < formatBufferLen

instance : Decidable (s.MessageFits path) := inferInstanceAs (Decidable (_ < _))

/-- The vnode that the mountpoint's `lookup` gets: the next free one, cleared, or one
that is all zero when none is left. -/
def Vfs.nextVnode : Vnode :=
  if h : s.vnodeIndex < openedfilesMax then vnodeClear (s.vnodeCache ⟨s.vnodeIndex, h⟩)
  else ⟨0, 0, .none, none, none⟩

/-- The mountpoint provides both operations, and its `open` succeeds. -/
def Vfs.DriverOpens : Prop :=
  (s.mountpointOf path).vnodeOperations.lookup ≠ none ∧
    ∃ openFile, (s.mountpointOf path).fileOperations.openFile = some openFile ∧
      0 ≤ openFile (s.relativePath path) flags

/-- The mountpoint provides both operations, the file exists and opening it succeeds. -/
def Vfs.FileOpens : Prop :=
  ∃ openFile lookup, (s.mountpointOf path).fileOperations.openFile = some openFile ∧
    (s.mountpointOf path).vnodeOperations.lookup = some lookup ∧
    (lookup ((s.relativePath path).add 1) flags s.nextVnode).1 = 0 ∧
    0 ≤ openFile (s.relativePath path) flags

/-- A call that returned `result` and left `t`: it gave a descriptor exactly if the file can be
opened, and otherwise `EOPEN_ERROR`, with the vnodes as they were. -/
structure Vfs.HonestResult (result : Option Int) (t : Vfs) : Prop where
  descriptor : (∃ fd, result = some fd ∧ 0 ≤ fd) ↔ s.FileOpens path flags
  error      : ¬ s.FileOpens path flags → result = some eopenError
  cache      : ¬ s.FileOpens path flags → t.vnodeCache = s.vnodeCache
  index      : ¬ s.FileOpens path flags → t.vnodeIndex = s.vnodeIndex

/-- The call returns, and so. -/
def Vfs.OpenHonest : Prop :=
  ∃ result t, vfsOpen s path flags = .ok (result, t) ∧ s.HonestResult path flags result t

variable {s path flags}

/-- The file system is asked exactly if the message about the path fits. -/
theorem findRelativePath_eq_ok {relativePath : CharPtr} :
    findRelativePath (s.mountpointOf path).mountpoint path = .ok relativePath ↔
      s.MessageFits path ∧ relativePath = s.relativePath path := by
  constructor
  · intro h
    obtain ⟨_, -, h⟩ := bind_inv h
    obtain ⟨_, hpath, h⟩ := bind_inv h
    obtain ⟨_, -, h⟩ := bind_inv h
    obtain ⟨_, hlog, hpath⟩ := bind_inv hpath
    cases hpath
    cases h
    exact ⟨loglinef_inv hlog, rfl⟩
  · rintro ⟨hfits, rfl⟩
    have hmessage := hfits
    unfold Vfs.MessageFits relativePathMessage at hmessage
    unfold findRelativePath vfsGetRelativePath
    rw [loglinef_fits (by omega), ok_bind, loglinef_fits hfits, ok_bind, ok_bind,
      loglinef_fits (by omega), ok_bind]
    rfl

theorem vfsLookup_eq (hfits : s.MessageFits path) (flags : Int) (vnode : Vnode) :
    vfsLookup s path flags vnode = .ok (askFileSystem s (vfsGetMountpointId s.mountpoints path)
      (s.relativePath path) flags vnode) :=
  congrArg (· >>= _) (findRelativePath_eq_ok.mpr ⟨hfits, rfl⟩)

theorem vfsLookup_inv {vnode : Vnode} {result : Int × Vnode}
    (h : vfsLookup s path flags vnode = .ok result) : s.MessageFits path := by
  obtain ⟨relativePath, hpath, -⟩ := bind_inv h
  exact (findRelativePath_eq_ok.mp hpath).1

/-- The result of the lookup does not depend on what the file system's `lookup` says. -/
theorem askFileSystem_zero_iff (hindex : s.vnodeIndex ≤ openedfilesMax) (vnode : Vnode) :
    (askFileSystem s (vfsGetMountpointId s.mountpoints path) (s.relativePath path) flags
      vnode).1 = 0 ↔ s.DriverOpens path flags := by
  have herror : ¬ eopenError = 0 := by decide
  unfold askFileSystem Vfs.DriverOpens Vfs.mountpointOf
  dsimp only
  cases hopen : (s.mountpoints (vfsGetMountpointId s.mountpoints path)).fileOperations.openFile with
  | none => exact iff_of_false herror fun h => nomatch h.2.choose_spec.1
  | some openFile =>
    cases hlookup :
      (s.mountpoints (vfsGetMountpointId s.mountpoints path)).vnodeOperations.lookup with
    | none => exact iff_of_false herror fun h => h.1 rfl
    | some lookup =>
      dsimp only
      by_cases hfd : openFile (s.relativePath path) flags < 0
      · rw [if_pos hfd]
        refine iff_of_false herror ?_
        rintro ⟨-, openFile', heq, hpos⟩
        cases heq
        omega
      · rw [if_neg hfd, if_neg (by omega)]
        exact iff_of_true rfl ⟨nofun, openFile, rfl, by omega⟩

/-- What a call that returns does: the next vnode is used up, and its index returned exactly if
the file system opens the file. -/
structure Vfs.Opened (s : Vfs) (path : CString) (flags : Int) (result : Option Int) (t : Vfs) :
    Prop where
  free        : s.vnodeIndex < openedfilesMax
  fits        : s.MessageFits path
  result      : result = some (s.vnodeIndex : Int) ∧ s.DriverOpens path flags ∨
    result = none ∧ ¬ s.DriverOpens path flags
  index       : t.vnodeIndex = s.vnodeIndex + 1
  mountpoints : t.mountpoints = s.mountpoints
  cache       : t.vnodeCache = Function.update s.vnodeCache ⟨s.vnodeIndex, free⟩
    (askFileSystem { s with vnodeIndex := s.vnodeIndex + 1 }
      (vfsGetMountpointId s.mountpoints path) (s.relativePath path) flags s.nextVnode).2

/-- With a vnode free and a path that is not too long the call returns. -/
theorem vfsOpen_free (hfree : s.vnodeIndex < openedfilesMax) (hfits : s.MessageFits path)
    (flags : Int) : ∃ result t, vfsOpen s path flags = .ok (result, t) ∧
      s.Opened path flags result t := by
  have hshort : 30 + path.strlen < formatBufferLen := by
    unfold Vfs.MessageFits relativePathMessage at hfits
    omega
  let id : Fin vnodeOpenedMax := ⟨s.vnodeIndex, hfree⟩
  let next : Vfs := ⟨s.mountpoints,
    Function.update s.vnodeCache id (vnodeClear (s.vnodeCache id)), s.vnodeIndex + 1⟩
  have hvnode : next.vnodeCache id = s.nextVnode := by
    rw [Vfs.nextVnode, dif_pos hfree]
    exact Function.update_self _ _ _
  obtain ⟨answer, hanswer⟩ : ∃ answer, answer = askFileSystem next
    (vfsGetMountpointId s.mountpoints path) (s.relativePath path) flags s.nextVnode := ⟨_, rfl⟩
  have hlookup : vfsLookup next path flags (next.vnodeCache id) = .ok answer := by
    rw [hvnode, hanswer]
    exact vfsLookup_eq (s := next) hfits flags s.nextVnode
  have hzero : answer.1 = 0 ↔ s.DriverOpens path flags := by
    rw [hanswer]
    exact askFileSystem_zero_iff (s := next) hfree s.nextVnode
  refine ⟨if answer.1 = 0 then some (s.vnodeIndex : Int) else none,
    { next with vnodeCache := Function.update next.vnodeCache id answer.2 }, ?_, hfree, hfits, ?_,
    rfl, rfl, ?_⟩
  · unfold vfsOpen vnodeGetNextFree
    rw [loglinef_fits hshort, ok_bind, dif_pos hfree]
    exact congrArg (· >>= _) hlookup
  · by_cases hopens : s.DriverOpens path flags
    · rw [if_pos (hzero.mpr hopens)]
      exact .inl ⟨rfl, hopens⟩
    · rw [if_neg fun h => hopens (hzero.mp h)]
      exact .inr ⟨rfl, hopens⟩
  · rw [hanswer]
    exact Function.update_idem _ _ _

theorem vfsOpen_inv {result : Option Int} {t : Vfs} (h : vfsOpen s path flags = .ok (result, t)) :
    s.Opened path flags result t := by
  obtain ⟨hfree, hfits⟩ : s.vnodeIndex < openedfilesMax ∧ s.MessageFits path := by
    obtain ⟨_, -, h⟩ := bind_inv h
    by_cases hfree : s.vnodeIndex < openedfilesMax
    · unfold vnodeGetNextFree at h
      rw [dif_pos hfree] at h
      obtain ⟨_, hlookup, -⟩ := bind_inv h
      have hfits := vfsLookup_inv hlookup
      exact ⟨hfree, hfits⟩
    · unfold vnodeGetNextFree at h
      rw [dif_neg hfree] at h
      cases h
  obtain ⟨result', t', hrun, hopened⟩ := vfsOpen_free hfree hfits flags
  cases h.symm.trans hrun
  exact hopened

theorem vfsOpen_full (hfits : s.MessageFits path) (h : ¬ s.vnodeIndex < openedfilesMax)
    (flags : Int) : vfsOpen s path flags = .error .halted := by
  unfold Vfs.MessageFits relativePathMessage at hfits
  unfold vfsOpen vnodeGetNextFree
  rw [loglinef_fits (by omega), ok_bind, dif_neg h]

theorem Vfs.MessageFits.congr {t : Vfs} (h : s.MessageFits path)
    (hsame : t.mountpoints = s.mountpoints) : t.MessageFits path := by
  unfold Vfs.MessageFits Vfs.mountpointOf at *
  rw [hsame]
  exact h

theorem Vfs.FileOpens.driverOpens (h : s.FileOpens path flags) : s.DriverOpens path flags := by
  obtain ⟨openFile, lookup, hopen, hlookup, -, hfd⟩ := h
  exact ⟨ne_of_eq_of_ne hlookup nofun, openFile, hopen, hfd⟩

/-- **Opening files.** A call is honest and atomic exactly if a vnode is free, the message about
the path fits into the log's buffer, and the file can be opened. With no vnode free the kernel
halts; with one free every call uses it up, and none returns `EOPEN_ERROR`. -/
theorem vfs_open_honest :
    s.OpenHonest path flags ↔
      s.vnodeIndex < openedfilesMax ∧ s.MessageFits path ∧ s.FileOpens path flags := by
  constructor
  · rintro ⟨result, t, hrun, hhonest⟩
    have hopened := vfsOpen_inv hrun
    refine ⟨hopened.free, hopened.fits, ?_⟩
    by_contra hopens
    have hsame := hhonest.index hopens
    have hused := hopened.index
    omega
  · rintro ⟨hfree, hfits, hopens⟩
    obtain ⟨result, t, hrun, hopened⟩ := vfsOpen_free hfree hfits flags
    obtain ⟨hresult, -⟩ := hopened.result.resolve_right fun h => h.2 hopens.driverOpens
    refine ⟨result, t, hrun, ⟨fun _ => hopens, fun _ => ⟨_, hresult, by omega⟩⟩, ?_, ?_, ?_⟩
    all_goals exact fun hnot => absurd hopens hnot

/-- A file that the archive does not have is opened as descriptor 0, and a file on a
mountpoint without operations makes the call return nothing and takes a vnode. -/
theorem vfs_open_missing_file :
    let s := vfsInit fun _ _ vnode => (-1, vnode)
    let missing := CString.ofChars ['/', 'e', 'x', 't', 'e', 'r', 'n', 'a', 'l', '/', 'x']
    let unmounted := CString.ofChars ['/', 'u', 's', 'r', '/', 'x']
    (¬ s.FileOpens missing 0 ∧ ∃ t, vfsOpen s missing 0 = .ok (some 0, t)) ∧
      (¬ s.FileOpens unmounted 0 ∧ ∃ t, vfsOpen s unmounted 0 = .ok (none, t) ∧
        t.vnodeIndex = 1) := by
  intro s missing unmounted
  have hmissing : vfsGetMountpointId s.mountpoints missing = ⟨3, by decide⟩ := by decide +kernel
  have hunmounted : vfsGetMountpointId s.mountpoints unmounted = ⟨2, by decide⟩ := by
    decide +kernel
  refine ⟨⟨?_, ?_⟩, ?_, ?_⟩
  · rintro ⟨openFile, lookup, -, hlookup, hfound, -⟩
    unfold Vfs.mountpointOf at hlookup
    rw [hmissing] at hlookup
    injection hlookup with hlookup
    rw [← hlookup] at hfound
    exact absurd hfound (by decide)
  · obtain ⟨t, hrun, -⟩ : ∃ t, vfsOpen s missing 0 = .ok (some 0, t) ∧ True := by decide +kernel
    exact ⟨t, hrun⟩
  · rintro ⟨openFile, lookup, hopen, -⟩
    unfold Vfs.mountpointOf at hopen
    rw [hunmounted] at hopen
    cases hopen
  · decide +kernel

end Open

end Dreamos64
