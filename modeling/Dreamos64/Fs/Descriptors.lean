import Dreamos64.Fs.Vfs
import Dreamos64.Lib.Run

/-!
# Dreamos64 — file descriptors over time

`vfs_read` and `vfs_close` of `vfs.c`, and `read` and `close` of `unistd.c`, which use a
descriptor as an index into the cache of vnodes. With `vfs_open` they make up a system whose
runs are sequences of calls. The `close` and `read` operations of the file systems are
parameters, as `open` and `lookup` are.

Next to the file system a `FileState` has what the caller can know: for every descriptor, how
often a call returned it and how often closing it returned 0.

* `descriptors_recycled` — a vnode is never given out again: every `vfs_open` of a file that
  exists succeeds exactly if there are at most `OPENEDFILES_MAX` of them, with paths that are not
  too long for the log;
* `refcounts_sound`      — the calls return and the reference counts are what the caller expects
  exactly if each call is one that the state allows: in particular, no descriptor is closed that
  is not open.
-/

namespace Dreamos64

open Machine

/-! ## `vfs.c`, `unistd.c` -/

/-- The `close` and the `read` of a mountpoint's `file_operations`. `close` may change the
vnode; `read` gives its result and the bytes it put into the buffer. -/
structure FileDriver where
  close : Option (Vnode → Int × Vnode)
  read  : Option (Vnode → Int → Nat → Int × List (BitVec 8))

section Calls

variable (drivers : Fin mountpointsMax → FileDriver)

/-- The operation that `vfs_close` calls with a vnode, if it calls one. -/
def closeOperation (vnode : Vnode) : Option (Vnode → Int × Vnode) :=
  match vnode.vfsRoot with
  | some mountpoint => (drivers mountpoint).close
  | none => none

/-- `vfs_close`: its result, and the vnode. -/
def vfsClose (vnode : Vnode) : Int × Vnode :=
  -- the file system is asked before anything is looked at
  let vnode :=
    match closeOperation drivers vnode with
    | some close => (close vnode).2
    | none => vnode
  let vnode := { vnode with refcount := vnode.refcount - 1 }
  (0, if vnode.refcount = 0 then vnodeClear vnode else vnode)

/-- `vfs_read`; an `int`, whatever the file system returns. -/
def vfsRead (vnode : Vnode) (nbytes : Nat) : Exec (Int × List (BitVec 8)) :=
  match vnode.vfsRoot with
  | none => .ok (0, [])
  | some mountpoint =>
    -- a vnode without data reads nothing; a `read` that is NULL is called all the same
    if vnode.vData.isSome then
      match (drivers mountpoint).read with
      | none => .error .nullPointer
      | some read =>
        let (bytesRead, bytes) := read vnode 0 nbytes
        .ok (bytesRead.bmod (2 ^ 32), bytes)
    else .ok (0, [])

/-- The vnode of a descriptor. -/
def vnodeId (fildes : Int) : Option (Fin vnodeOpenedMax) :=
  if h : 0 ≤ fildes ∧ fildes < openedfilesMax then
    some ⟨fildes.toNat, by have hmax : openedfilesMax = vnodeOpenedMax := rfl; omega⟩
  else none

/-- A vnode of the cache is replaced. -/
def Vfs.setVnode (s : Vfs) (id : Fin vnodeOpenedMax) (vnode : Vnode) : Vfs :=
  { s with vnodeCache := Function.update s.vnodeCache id vnode }

@[simp] theorem Vfs.setVnode_vnodeCache (s : Vfs) (id : Fin vnodeOpenedMax) (vnode : Vnode) :
    (s.setVnode id vnode).vnodeCache = Function.update s.vnodeCache id vnode := rfl

@[simp] theorem Vfs.setVnode_vnodeIndex (s : Vfs) (id : Fin vnodeOpenedMax) (vnode : Vnode) :
    (s.setVnode id vnode).vnodeIndex = s.vnodeIndex := rfl

/-- `close`. -/
def close (s : Vfs) (fildes : Int) : Int × Vfs :=
  match vnodeId fildes with
  | some id =>
    -- the result of `vfs_close` is dropped
    let (_, vnode) := vfsClose drivers (s.vnodeCache id)
    (0, s.setVnode id vnode)
  | none => (-1, s)

/-- `read`, with a copy of the vnode. -/
def read (s : Vfs) (fildes : Int) (nbytes : Nat) : Exec (Int × List (BitVec 8)) :=
  match vnodeId fildes with
  | some id => vfsRead drivers (s.vnodeCache id) nbytes
  | none => .ok (-1, [])

end Calls

/-! ## The system -/

/-- A call. `leftover` is what the caller of `open` gets when `vfs_open` runs off its end: the
value that happens to be in the register. -/
inductive FileCall where
  | openFile (path : CString) (flags leftover : Int)
  | read (fildes : Int) (nbytes : Nat)
  | close (fildes : Int)

def FileCall.isOpen : FileCall → Bool
  | .openFile .. => true
  | _ => false

/-- The file system, and for each descriptor the opens that returned it minus the closes of it
that returned 0. -/
structure FileState where
  vfs     : Vfs
  balance : Int → Int

/-- A descriptor that was opened more often than it was closed. -/
def FileState.IsOpen (s : FileState) (fildes : Int) : Prop := 0 < s.balance fildes

section System

variable (drivers : Fin mountpointsMax → FileDriver)

def fileExec (s : FileState) : FileCall → Exec FileState
  | .openFile path flags leftover => do
    let (result, vfs) ← vfsOpen s.vfs path flags
    let fd := result.getD leftover
    if 0 ≤ fd then .ok ⟨vfs, Function.update s.balance fd (s.balance fd + 1)⟩
    else .ok ⟨vfs, s.balance⟩
  | .read fildes nbytes => do
    let _ ← read drivers s.vfs fildes nbytes
    .ok s
  | .close fildes =>
    let (result, vfs) := close drivers s.vfs fildes
    if result = 0 then .ok ⟨vfs, Function.update s.balance fildes (s.balance fildes - 1)⟩
    else .ok ⟨vfs, s.balance⟩

def fileStep (s : FileState) (call : FileCall) (t : FileState) : Prop :=
  fileExec drivers s call = .ok t

/-- Nothing opened yet. -/
def Vfs.start (s : Vfs) : FileState := ⟨s, fun _ => 0⟩

end System

section Steps

variable {drivers : Fin mountpointsMax → FileDriver} {s t : FileState} {path : CString}
  {flags leftover fildes : Int} {nbytes : Nat}

theorem vnodeId_eq_some {id : Fin vnodeOpenedMax} : vnodeId fildes = some id ↔ fildes = id := by
  have hmax : openedfilesMax = vnodeOpenedMax := rfl
  unfold vnodeId
  split_ifs with h
  · simp only [Option.some.injEq, Fin.ext_iff]
    omega
  · refine iff_of_false nofun ?_
    rintro rfl
    have := id.isLt
    omega

/-- What opening a file does to the vnodes, and what the caller takes it for. -/
theorem openFile_step (h : fileStep drivers s (.openFile path flags leftover) t) :
    ∃ result : Option Int, s.vfs.Opened path flags result t.vfs ∧
      t.balance = if 0 ≤ result.getD leftover then
          Function.update s.balance (result.getD leftover) (s.balance (result.getD leftover) + 1)
        else s.balance := by
  obtain ⟨⟨result, vfs⟩, hopen, h⟩ := bind_inv h
  refine ⟨result, ?_⟩
  dsimp only at h
  split_ifs at h with hfd
  · cases h
    exact ⟨vfsOpen_inv hopen, (if_pos hfd).symm⟩
  · cases h
    exact ⟨vfsOpen_inv hopen, (if_neg hfd).symm⟩

/-- An open returns as `vfs_open` does. -/
theorem exists_openFile_step (drivers : Fin mountpointsMax → FileDriver) {result : Option Int}
    {vfs : Vfs} (h : vfsOpen s.vfs path flags = .ok (result, vfs)) (leftover : Int) :
    ∃ t, fileStep drivers s (.openFile path flags leftover) t := by
  unfold fileStep fileExec
  dsimp only
  rw [h, ok_bind]
  dsimp only
  split_ifs
  · exact ⟨_, rfl⟩
  · exact ⟨_, rfl⟩

/-- A close returns. -/
theorem exists_close_step (drivers : Fin mountpointsMax → FileDriver) (s : FileState)
    (fildes : Int) : ∃ t, fileStep drivers s (.close fildes) t := by
  unfold fileStep fileExec
  dsimp only
  split_ifs
  · exact ⟨_, rfl⟩
  · exact ⟨_, rfl⟩

theorem read_step (h : fileStep drivers s (.read fildes nbytes) t) : t = s := by
  obtain ⟨_, -, h⟩ := bind_inv h
  exact (Except.ok.inj h).symm

/-- Closing changes one vnode and returns 0, or does nothing. -/
theorem close_step (h : fileStep drivers s (.close fildes) t) :
    (vnodeId fildes = none ∧ t = s) ∨
      ∃ id : Fin vnodeOpenedMax, fildes = id ∧
        t.vfs = s.vfs.setVnode id (vfsClose drivers (s.vfs.vnodeCache id)).2 ∧
        t.balance = Function.update s.balance fildes (s.balance fildes - 1) := by
  unfold fileStep fileExec close at h
  cases hid : vnodeId fildes with
  | none =>
    simp only [hid] at h
    rw [if_neg (by decide)] at h
    cases h
    exact .inl ⟨rfl, rfl⟩
  | some id =>
    simp only [hid, if_true] at h
    cases h
    exact .inr ⟨id, vnodeId_eq_some.mp hid, rfl, rfl⟩

end Steps

/-! ## Descriptors are not used again -/

/-- The index counts the opens, and no descriptor from the index on is open. -/
structure Indexed (calls : List FileCall) (s : FileState) : Prop where
  count  : s.vfs.vnodeIndex = calls.countP FileCall.isOpen
  unused : ∀ fildes : Int, s.vfs.vnodeIndex ≤ fildes → ¬ s.IsOpen fildes

section Recycling

variable {drivers : Fin mountpointsMax → FileDriver} {vfs : Vfs} {s t u : FileState}
  {calls before : List FileCall} {call : FileCall}

/-- A call keeps the index, if it does not leave it to chance what an open returns. -/
theorem Indexed.next (hs : Indexed calls s)
    (hopens : ∀ path flags leftover, call = .openFile path flags leftover →
      s.vfs.DriverOpens path flags) (h : fileStep drivers s call t) :
    Indexed (calls ++ [call]) t := by
  have hcount := hs.count
  cases call with
  | openFile path flags leftover =>
    have hcalls : (calls ++ [FileCall.openFile path flags leftover]).countP FileCall.isOpen =
        calls.countP FileCall.isOpen + 1 := by
      rw [List.countP_append]
      rfl
    obtain ⟨result, hopened, hbalance⟩ := openFile_step h
    obtain ⟨hresult, -⟩ := hopened.result.resolve_right fun h => h.2 (hopens _ _ _ rfl)
    have hindex := hopened.index
    refine ⟨by omega, fun fildes hle => ?_⟩
    -- the descriptor that was opened is below the index now
    rw [hresult, Option.getD_some, if_pos (by omega)] at hbalance
    unfold FileState.IsOpen
    rw [hbalance, Function.update_of_ne (by omega)]
    exact hs.unused fildes (by omega)
  | read fildes nbytes =>
    rw [read_step h]
    refine ⟨?_, hs.unused⟩
    rw [List.countP_append]
    exact hcount
  | close fildes =>
    have hcalls : (calls ++ [FileCall.close fildes]).countP FileCall.isOpen =
        calls.countP FileCall.isOpen := by
      rw [List.countP_append]
      rfl
    rcases close_step h with ⟨-, rfl⟩ | ⟨id, hid, hvfs, hbalance⟩
    · exact ⟨by omega, hs.unused⟩
    · have hindex : t.vfs.vnodeIndex = s.vfs.vnodeIndex := by
        rw [hvfs, Vfs.setVnode_vnodeIndex]
      refine ⟨by omega, fun fd hle => ?_⟩
      have hclosed := hs.unused fd (by omega)
      unfold FileState.IsOpen at *
      rw [hbalance]
      by_cases hfd : fd = fildes
      · rw [hfd, Function.update_self]
        rw [hfd] at hclosed
        omega
      · rw [Function.update_of_ne hfd]
        exact hclosed

theorem run_indexed (hindex : vfs.vnodeIndex = 0)
    (hopens : ∀ before path flags leftover u, before ++ [.openFile path flags leftover] <+: calls →
      Run (fileStep drivers) vfs.start before u → u.vfs.FileOpens path flags)
    (hrun : Run (fileStep drivers) vfs.start before u) (hpre : before <+: calls) :
    Indexed before u := by
  refine hrun.trace (fun is t => is <+: calls → Indexed is t)
    (fun _ => ⟨hindex, fun fildes _ => ?_⟩) (fun {is t v call} hrun ih hstep hpre => ?_) hpre
  · exact Int.lt_irrefl 0
  · refine (ih ((List.prefix_append _ _).trans hpre)).next ?_ hstep
    rintro path flags leftover rfl
    exact (hopens is path flags leftover t hpre hrun).driverOpens

theorem fileStep_mountpoints (h : fileStep drivers s call t) :
    t.vfs.mountpoints = s.vfs.mountpoints := by
  cases call with
  | openFile path flags leftover =>
    obtain ⟨result, hopened, -⟩ := openFile_step h
    exact hopened.mountpoints
  | read fildes nbytes => rw [read_step h]
  | close fildes =>
    rcases close_step h with ⟨-, rfl⟩ | ⟨id, -, hvfs, -⟩
    · rfl
    · rw [hvfs]
      rfl

theorem run_mountpoints (hrun : Run (fileStep drivers) vfs.start calls s) :
    s.vfs.mountpoints = vfs.mountpoints :=
  hrun.inv (fun t => t.vfs.mountpoints = vfs.mountpoints) rfl fun ht h =>
    (fileStep_mountpoints h).trans ht

/-- Calls that have returned: each open found a vnode, and its messages fitted. -/
theorem run_fits (hindex : vfs.vnodeIndex ≤ openedfilesMax)
    (hrun : Run (fileStep drivers) vfs.start calls s) :
    s.vfs.vnodeIndex ≤ openedfilesMax ∧
      ∀ path flags leftover, .openFile path flags leftover ∈ calls → vfs.MessageFits path := by
  refine hrun.trace (fun is t => t.vfs.vnodeIndex ≤ openedfilesMax ∧ ∀ path flags leftover,
    .openFile path flags leftover ∈ is → vfs.MessageFits path) ⟨hindex, nofun⟩ ?_
  rintro is t u call hrun ⟨hle, hfits⟩ hstep
  refine ⟨?_, fun path flags leftover hin => ?_⟩
  · cases call with
    | openFile path flags leftover =>
      obtain ⟨result, hopened, -⟩ := openFile_step hstep
      exact hopened.index.trans_le hopened.free
    | read fildes nbytes => rwa [read_step hstep]
    | close fildes =>
      rcases close_step hstep with ⟨-, rfl⟩ | ⟨id, -, hvfs, -⟩
      · exact hle
      · rwa [hvfs, Vfs.setVnode_vnodeIndex]
  · rcases List.mem_append.mp hin with hin | hin
    · exact hfits path flags leftover hin
    · cases List.mem_singleton.mp hin
      obtain ⟨result, hopened, -⟩ := openFile_step hstep
      exact hopened.fits.congr (run_mountpoints hrun).symm

/-- The call returns a descriptor that is not open. -/
def OpensAnew (s : FileState) (path : CString) (flags : Int) : Prop :=
  ∃ fd t, vfsOpen s.vfs path flags = .ok (some fd, t) ∧ 0 ≤ fd ∧ ¬ s.IsOpen fd

/-- It does so exactly if there is a vnode left and the message about the path fits. -/
theorem opensAnew_iff {path : CString} {flags : Int} (hs : Indexed calls s)
    (hexists : s.vfs.FileOpens path flags) :
    OpensAnew s path flags ↔ s.vfs.vnodeIndex < openedfilesMax ∧ s.vfs.MessageFits path := by
  constructor
  · rintro ⟨fd, t, hrun, -⟩
    have hopened := vfsOpen_inv hrun
    exact ⟨hopened.free, hopened.fits⟩
  · rintro ⟨hfree, hfits⟩
    obtain ⟨result, t, hrun, hopened⟩ := vfsOpen_free hfree hfits flags
    obtain ⟨rfl, -⟩ := hopened.result.resolve_right fun h => h.2 hexists.driverOpens
    exact ⟨_, t, hrun, by omega, hs.unused _ le_rfl⟩

/-- **Descriptors are not recycled.** In a sequence of opens of files that exist and closes,
every open returns a descriptor that is not open exactly if the sequence has at most
`OPENEDFILES_MAX` opens, however many descriptors are open at a time, and the message about each
path fits into the log's buffer. -/
theorem descriptors_recycled (drivers : Fin mountpointsMax → FileDriver) (vfs : Vfs)
    (hindex : vfs.vnodeIndex = 0) (calls : List FileCall)
    (hreads : ∀ fildes nbytes, .read fildes nbytes ∉ calls)
    (hexists : ∀ before path flags leftover u,
      before ++ [.openFile path flags leftover] <+: calls →
        Run (fileStep drivers) vfs.start before u → u.vfs.FileOpens path flags) :
    (∀ before path flags leftover u, before ++ [.openFile path flags leftover] <+: calls →
      Run (fileStep drivers) vfs.start before u → OpensAnew u path flags) ↔
      calls.countP FileCall.isOpen ≤ openedfilesMax ∧
        ∀ path flags leftover, .openFile path flags leftover ∈ calls → vfs.MessageFits path := by
  constructor
  · intro hopens
    -- so every call returns
    obtain ⟨s, hrun⟩ : ∃ s, Run (fileStep drivers) vfs.start calls s := by
      refine Run.of_steps fun before call u hpre hrun => ?_
      cases call with
      | openFile path flags leftover =>
        obtain ⟨fd, t, hopen, -⟩ := hopens before path flags leftover u hpre hrun
        exact exists_openFile_step _ hopen leftover
      | read fildes nbytes =>
        exact absurd (hpre.subset (List.mem_append_right _ List.mem_cons_self))
          (hreads fildes nbytes)
      | close fildes => exact exists_close_step drivers u fildes
    obtain ⟨hle, hfits⟩ := run_fits (hindex.trans_le (Nat.zero_le _)) hrun
    rw [(run_indexed hindex hexists hrun (List.prefix_refl calls)).count] at hle
    exact ⟨hle, hfits⟩
  · rintro ⟨hfew, hfits⟩ before path flags leftover u hpre hrun
    have hu := run_indexed hindex hexists hrun ((List.prefix_append _ _).trans hpre)
    have hin : FileCall.openFile path flags leftover ∈ calls :=
      hpre.subset (List.mem_append_right _ List.mem_cons_self)
    refine (opensAnew_iff hu (hexists before path flags leftover u hpre hrun)).mpr
      ⟨?_, (hfits path flags leftover hin).congr (run_mountpoints hrun)⟩
    have hcount := hu.count
    have hle : (before ++ [FileCall.openFile path flags leftover]).countP FileCall.isOpen ≤ _ :=
      hpre.sublist.countP_le
    rw [List.countP_append] at hle
    have hone : [FileCall.openFile path flags leftover].countP FileCall.isOpen = 1 := rfl
    omega

-- An archive in which every file is found, and its driver.

def exampleLookup : CharPtr → Int → Vnode → Int × Vnode :=
  fun _ _ vnode => (0, { vnode with vData := some 0x1000 })

def exampleArchive : Vfs := vfsInit exampleLookup

def exampleDrivers : Fin mountpointsMax → FileDriver := fun _ =>
  ⟨some fun vnode => (0, vnode), some fun _ _ _ => (0, [])⟩

def examplePath : CString := .ofChars ['/', 'e', 'x', 't', 'e', 'r', 'n', 'a', 'l', '/', 'x']

theorem examplePath_opens (hs : s.vfs.mountpoints = exampleArchive.mountpoints) :
    s.vfs.FileOpens examplePath 0 := by
  have hid : vfsGetMountpointId exampleArchive.mountpoints examplePath = ⟨3, by decide⟩ := by
    decide +kernel
  have hmountpoint : s.vfs.mountpointOf examplePath =
      exampleArchive.mountpoints ⟨3, by decide⟩ := by
    unfold Vfs.mountpointOf
    rw [hs, hid]
  refine ⟨ustarOpen, exampleLookup, ?_, ?_, rfl, Int.natCast_nonneg 3⟩
  · rw [hmountpoint]
    rfl
  · rw [hmountpoint]
    rfl

theorem examplePath_fits (hs : s.vfs.mountpoints = exampleArchive.mountpoints) :
    s.vfs.MessageFits examplePath := by
  have hfits : exampleArchive.MessageFits examplePath := by decide +kernel
  exact hfits.congr hs

/-- The open of the example returns the next index. -/
theorem examplePath_step (hrun : Run (fileStep exampleDrivers) exampleArchive.start calls s)
    (hfree : s.vfs.vnodeIndex < openedfilesMax) (leftover : Int) :
    ∃ t, fileStep exampleDrivers s (.openFile examplePath 0 leftover) t ∧
      t.vfs.vnodeIndex = s.vfs.vnodeIndex + 1 ∧
      t.balance = Function.update s.balance s.vfs.vnodeIndex
        (s.balance s.vfs.vnodeIndex + 1) := by
  have hsame := run_mountpoints hrun
  obtain ⟨result, vfs, hopen, -⟩ := vfsOpen_free hfree (examplePath_fits hsame) 0
  obtain ⟨t, hstep⟩ := exists_openFile_step exampleDrivers hopen leftover
  obtain ⟨result', hopened, hbalance⟩ := openFile_step hstep
  obtain ⟨rfl, -⟩ := hopened.result.resolve_right fun h =>
    h.2 (examplePath_opens hsame).driverOpens
  rw [Option.getD_some, if_pos (by omega)] at hbalance
  exact ⟨t, hstep, hopened.index, hbalance⟩

/-- A file is opened, closed and opened again. -/
theorem descriptors_recycled_twice :
    ∃ u, Run (fileStep exampleDrivers) exampleArchive.start
        [.openFile examplePath 0 0, .close 0] u ∧ OpensAnew u examplePath 0 := by
  have hcalls : ∀ path flags leftover, FileCall.openFile path flags leftover ∈
      [FileCall.openFile examplePath 0 0, .close 0, .openFile examplePath 0 0] →
      path = examplePath ∧ flags = 0 := by
    simp +contextual
  have hopens := (descriptors_recycled exampleDrivers exampleArchive rfl
    [.openFile examplePath 0 0, .close 0, .openFile examplePath 0 0] (by simp) ?_).mpr
    ⟨by decide, fun path flags leftover hin => ?_⟩
  · exact (Run.exists_run (fun _ _ _ h => h) (P := fun _ => True) (by decide +kernel)).imp
      fun u hu => ⟨hu.1, hopens _ _ _ _ u (List.prefix_refl _) hu.1⟩
  · intro before path flags leftover u hpre hrun
    obtain ⟨rfl, rfl⟩ := hcalls path flags leftover
      (hpre.subset (List.mem_append_right _ List.mem_cons_self))
    exact examplePath_opens (run_mountpoints hrun)
  · rw [(hcalls path flags leftover hin).1]
    exact examplePath_fits (s := exampleArchive.start) rfl

/-- Files that are opened and closed one after the other. -/
def churn : Nat → List FileCall
  | 0 => []
  | n + 1 => churn n ++ [.openFile examplePath 0 0] ++ [.close n]

theorem churn_run {n : Nat} (hn : n ≤ openedfilesMax) :
    ∃ s, Run (fileStep exampleDrivers) exampleArchive.start (churn n) s ∧
      s.vfs.vnodeIndex = n ∧ ∀ fildes, ¬ s.IsOpen fildes := by
  -- each round takes the next index and leaves no descriptor open
  induction n with
  | zero => exact ⟨_, .start, rfl, fun _ => Int.lt_irrefl 0⟩
  | succ n ih =>
    obtain ⟨s, hrun, hindex, hclosed⟩ := ih (by omega)
    obtain ⟨t, hopen, hnext, hopenBalance⟩ := examplePath_step hrun (by omega) 0
    obtain ⟨u, hclose⟩ := exists_close_step exampleDrivers t n
    obtain ⟨hsame, hclosedBalance⟩ : u.vfs.vnodeIndex = t.vfs.vnodeIndex ∧
        u.balance = Function.update t.balance n (t.balance n - 1) := by
      rcases close_step hclose with ⟨hnone, -⟩ | ⟨id, -, huvfs, hbalance⟩
      · have hid : vnodeId n = some ⟨n, Nat.lt_of_succ_le hn⟩ := vnodeId_eq_some.mpr rfl
        rw [hid] at hnone
        cases hnone
      · exact ⟨by rw [huvfs, Vfs.setVnode_vnodeIndex], hbalance⟩
    refine ⟨u, (hrun.extend hopen).extend hclose, ?_, fun fildes => ?_⟩
    · omega
    · unfold FileState.IsOpen at *
      rw [hclosedBalance]
      by_cases hfd : fildes = n
      · rw [hfd, Function.update_self, hopenBalance, hindex, Function.update_self]
        have hn := hclosed n
        omega
      · rw [Function.update_of_ne hfd, hopenBalance, hindex, Function.update_of_ne hfd]
        exact hclosed fildes

/-- Five files were opened and closed, and none is open: the sixth open halts the kernel. -/
theorem descriptors_exhausted :
    ∃ u, Run (fileStep exampleDrivers) exampleArchive.start (churn 5) u ∧
      (∀ fildes, ¬ u.IsOpen fildes) ∧ u.vfs.FileOpens examplePath 0 ∧
      vfsOpen u.vfs examplePath 0 = .error .halted ∧ ¬ OpensAnew u examplePath 0 := by
  obtain ⟨u, hrun, hindex, hclosed⟩ := churn_run (n := 5) le_rfl
  have hsame := run_mountpoints hrun
  have hfull : ¬ u.vfs.vnodeIndex < openedfilesMax := by
    rw [hindex]
    decide
  have hhalts := vfsOpen_full (examplePath_fits hsame) hfull 0
  refine ⟨u, hrun, hclosed, examplePath_opens hsame, hhalts, ?_⟩
  rintro ⟨fd, t, hopen, -⟩
  rw [hhalts] at hopen
  cases hopen

end Recycling

/-! ## Reference counts -/

/-- No operation of a file system touches the count of the vnode it gets. -/
structure KeepsRefcounts (drivers : Fin mountpointsMax → FileDriver) (s : Vfs) : Prop where
  lookup : ∀ i lookup, (s.mountpoints i).vnodeOperations.lookup = some lookup →
    ∀ path flags vnode, (lookup path flags vnode).2.refcount = vnode.refcount
  close  : ∀ i close, (drivers i).close = some close →
    ∀ vnode, (close vnode).2.refcount = vnode.refcount

/-- Every count is what the caller expects, and so never negative. -/
def RefcountsSound (s : FileState) : Prop :=
  ∀ id : Fin vnodeOpenedMax,
    0 ≤ (s.vfs.vnodeCache id).refcount ∧ (s.vfs.vnodeCache id).refcount = s.balance id

/-- The file system is asked to close only what is open, and closing anything else gives -1
and has no effect. -/
structure ClosesSoundly (drivers : Fin mountpointsMax → FileDriver) (s : FileState)
    (fildes : Int) : Prop where
  invoked : ∀ id : Fin vnodeOpenedMax, fildes = id →
    (closeOperation drivers (s.vfs.vnodeCache id)).isSome → s.IsOpen fildes
  unopened : ¬ s.IsOpen fildes → close drivers s.vfs fildes = (-1, s.vfs)

/-- The call can be made: an open finds a vnode, a log that its path fits into, and a file system
that opens the file, or else the caller does not take what it gets for a descriptor; a read finds
a `read` operation where there is data; and only what is open is closed. -/
def FileState.Allows (drivers : Fin mountpointsMax → FileDriver) (s : FileState) : FileCall → Prop
  | .openFile path flags leftover => s.vfs.vnodeIndex < openedfilesMax ∧ s.vfs.MessageFits path ∧
      (s.vfs.DriverOpens path flags ∨ vnodeId leftover = none)
  | .read fildes _ => ∀ id mountpoint, vnodeId fildes = some id →
      (s.vfs.vnodeCache id).vfsRoot = some mountpoint → (s.vfs.vnodeCache id).vData.isSome →
        (drivers mountpoint).read ≠ none
  | .close fildes => vnodeId fildes ≠ none → s.IsOpen fildes

/-- What a step relies on: vnodes that were not given out yet have no count. -/
structure Balanced (s : FileState) : Prop where
  sound  : RefcountsSound s
  unused : ∀ id : Fin vnodeOpenedMax, s.vfs.vnodeIndex ≤ id → s.balance id = 0

section Refcounts

variable {drivers : Fin mountpointsMax → FileDriver} {vfs : Vfs} {s t u : FileState}
  {calls before : List FileCall} {call : FileCall} {path : CString} {flags fildes : Int}

/-- A lookup raises the count if it succeeds. -/
theorem askFileSystem_refcount {v : Vfs} (hkeeps : KeepsRefcounts drivers v)
    (mountpointId : Fin mountpointsMax) (relativePath : CharPtr) (flags : Int) (vnode : Vnode) :
    ((askFileSystem v mountpointId relativePath flags vnode).1 = 0 ∧
      (askFileSystem v mountpointId relativePath flags vnode).2.refcount = vnode.refcount + 1) ∨
    ((askFileSystem v mountpointId relativePath flags vnode).1 ≠ 0 ∧
      (askFileSystem v mountpointId relativePath flags vnode).2.refcount = vnode.refcount) := by
  have herror : eopenError ≠ 0 := by decide
  unfold askFileSystem
  dsimp only
  split
  · exact .inr ⟨herror, rfl⟩
  · exact .inr ⟨herror, rfl⟩
  · next openFile lookup hopen hlookup =>
    have hkept := hkeeps.lookup _ lookup hlookup
    split_ifs
    all_goals first
      | exact .inr ⟨herror, hkept _ _ _⟩
      | exact .inl ⟨rfl, congrArg (· + 1) (hkept _ _ _)⟩

/-- Opening replaces one vnode, by one with count 1 if its index is returned and 0
otherwise. -/
theorem opened_refcount {v w : Vfs} {result : Option Int} (hkeeps : KeepsRefcounts drivers v)
    (hopened : v.Opened path flags result w) (id : Fin vnodeOpenedMax) :
    (w.vnodeCache id).refcount = if id.val = v.vnodeIndex then (if result.isSome then 1 else 0)
      else (v.vnodeCache id).refcount := by
  have hzero : v.nextVnode.refcount = 0 := by
    rw [Vfs.nextVnode, dif_pos hopened.free]
    rfl
  rw [hopened.cache]
  by_cases hid : id.val = v.vnodeIndex
  · obtain rfl : id = ⟨v.vnodeIndex, hopened.free⟩ := Fin.ext hid
    have hresult := @askFileSystem_zero_iff { v with vnodeIndex := v.vnodeIndex + 1 } path flags
      hopened.free v.nextVnode
    have hcount := askFileSystem_refcount (v := { v with vnodeIndex := v.vnodeIndex + 1 })
      ⟨hkeeps.lookup, hkeeps.close⟩ (vfsGetMountpointId v.mountpoints path) (v.relativePath path)
      flags v.nextVnode
    rw [hzero] at hcount
    rw [if_pos rfl, Function.update_self]
    rcases hopened.result with ⟨rfl, hopens⟩ | ⟨rfl, hopens⟩
    · exact (hcount.resolve_right fun h => h.1 (hresult.mpr hopens)).2
    · exact (hcount.resolve_left fun h => hopens (hresult.mp h.1)).2
  · rw [if_neg hid, Function.update_of_ne fun heq => hid (congrArg Fin.val heq)]

/-- Closing takes one off. -/
theorem vfsClose_refcount {v : Vfs} (hkeeps : KeepsRefcounts drivers v) (vnode : Vnode) :
    (vfsClose drivers vnode).2.refcount = vnode.refcount - 1 := by
  have hclear : ∀ x : Vnode, (if x.refcount = 0 then vnodeClear x else x).refcount =
      x.refcount := by
    intro x
    split_ifs with hzero
    · exact hzero.symm
    · rfl
  unfold vfsClose
  cases hop : closeOperation drivers vnode with
  | none => exact hclear { vnode with refcount := vnode.refcount - 1 }
  | some close =>
    obtain ⟨i, hi⟩ : ∃ i, (drivers i).close = some close := by
      unfold closeOperation at hop
      split at hop
      · exact ⟨_, hop⟩
      · cases hop
    exact (hclear { (close vnode).2 with refcount := (close vnode).2.refcount - 1 }).trans
      (congrArg (· - 1) (hkeeps.close i close hi vnode))

/-- The descriptor of a vnode, and that of an open that went through. -/
theorem balance_openFile {result : Option Int} {leftover : Int}
    (hopened : s.vfs.Opened path flags result t.vfs)
    (hallowed : s.vfs.DriverOpens path flags ∨ vnodeId leftover = none)
    (hbalance : t.balance = if 0 ≤ result.getD leftover then
        Function.update s.balance (result.getD leftover) (s.balance (result.getD leftover) + 1)
      else s.balance) (id : Fin vnodeOpenedMax) :
    t.balance id = if id.val = s.vfs.vnodeIndex ∧ result.isSome then s.balance id + 1
      else s.balance id := by
  rw [hbalance]
  rcases hopened.result with ⟨rfl, -⟩ | ⟨rfl, hopens⟩
  · rw [Option.getD_some, if_pos (by omega)]
    by_cases hid : id.val = s.vfs.vnodeIndex
    · rw [if_pos ⟨hid, rfl⟩, ← hid, Function.update_self]
    · rw [if_neg fun h => hid h.1, Function.update_of_ne (by omega)]
  · -- what the caller gets is no descriptor
    have hnone := hallowed.resolve_left hopens
    have hne : (id : Int) ≠ leftover := fun heq => by
      rw [vnodeId_eq_some.mpr heq.symm] at hnone
      cases hnone
    have hisNone : ¬ (id.val = s.vfs.vnodeIndex ∧ (none : Option Int).isSome) :=
      fun h => nomatch h.2
    rw [Option.getD_none, if_neg hisNone]
    split_ifs
    · exact Function.update_of_ne hne _ _
    · rfl

/-- **What a call does to the counts**, if the state allows it. -/
theorem Balanced.next (hkeeps : KeepsRefcounts drivers s.vfs) (hs : Balanced s)
    (hallowed : s.Allows drivers call) (h : fileStep drivers s call t) : Balanced t := by
  cases call with
  | openFile path flags leftover =>
    obtain ⟨result, hopened, hbalance⟩ := openFile_step h
    have hindex := hopened.index
    have hcounts := opened_refcount hkeeps hopened
    have hbalances := balance_openFile hopened hallowed.2.2 hbalance
    refine ⟨fun id => ?_, fun id hle => ?_⟩
    · rw [hcounts, hbalances]
      by_cases hid : id.val = s.vfs.vnodeIndex
      · have hunused := hs.unused id (Nat.le_of_eq hid.symm)
        rw [if_pos hid, hunused]
        cases result with
        | some fd => exact ⟨Int.one_pos.le, (if_pos ⟨hid, rfl⟩).symm⟩
        | none => exact ⟨le_rfl, (if_neg fun h => nomatch h.2).symm⟩
      · rw [if_neg hid, if_neg fun h => hid h.1]
        exact hs.sound id
    · rw [hbalances, if_neg (by omega)]
      exact hs.unused id (by omega)
  | read fildes nbytes => exact read_step h ▸ hs
  | close fildes =>
    rcases close_step h with ⟨-, rfl⟩ | ⟨id, rfl, hvfs, hbalance⟩
    · exact hs
    · have hpos : 0 < s.balance id := hallowed (by rw [vnodeId_eq_some.mpr rfl]; nofun)
      refine ⟨fun id' => ?_, fun id' hle => ?_⟩
      · rw [hvfs, hbalance, Vfs.setVnode_vnodeCache]
        by_cases hid : id' = id
        · rw [hid, Function.update_self, Function.update_self, vfsClose_refcount hkeeps]
          have hcount := (hs.sound id).2
          omega
        · rw [Function.update_of_ne hid, Function.update_of_ne (by omega)]
          exact hs.sound id'
      · rw [hvfs, Vfs.setVnode_vnodeIndex] at hle
        have hunused := hs.unused id' hle
        rw [hbalance, Function.update_of_ne (fun heq => by rw [heq] at hunused; omega)]
        exact hunused

/-- A read returns unless it follows a `read` that is NULL. -/
theorem read_returns_iff {nbytes : Nat} :
    (∃ t, fileStep drivers s (.read fildes nbytes) t) ↔ s.Allows drivers (.read fildes nbytes) := by
  unfold fileStep fileExec read FileState.Allows vfsRead
  constructor
  · rintro ⟨t, h⟩ id mountpoint hid hroot hdata hread
    simp [hid, hroot, hdata, hread] at h
  · intro h
    cases hid : vnodeId fildes with
    | none => exact ⟨s, by simp [hid]⟩
    | some id =>
      cases hroot : (s.vfs.vnodeCache id).vfsRoot with
      | none => exact ⟨s, by simp [hid, hroot]⟩
      | some mountpoint =>
        by_cases hdata : (s.vfs.vnodeCache id).vData.isSome = true
        · obtain ⟨read, hread⟩ := Option.ne_none_iff_exists'.mp (h id mountpoint hid hroot hdata)
          exact ⟨s, by simp [hid, hroot, hdata, hread]⟩
        · exact ⟨s, by simp [hid, hroot, hdata]⟩

/-- A call that the state allows returns. -/
theorem exists_step_of_allows (h : s.Allows drivers call) : ∃ t, fileStep drivers s call t := by
  cases call with
  | openFile path flags leftover =>
    obtain ⟨result, t, hopen, -⟩ := vfsOpen_free h.1 h.2.1 flags
    exact exists_openFile_step _ hopen leftover
  | read fildes nbytes => exact read_returns_iff.mpr h
  | close fildes => exact exists_close_step drivers s fildes

/-- The state in which a call of a run was made. -/
theorem step_of_run (hrun : Run (fileStep drivers) vfs.start calls s)
    (hpre : before ++ [call] <+: calls) (hbefore : Run (fileStep drivers) vfs.start before u) :
    ∃ t, fileStep drivers u call t := by
  obtain ⟨rest, rfl⟩ := hpre
  have hfold := hrun.foldlM_eq (f := fileExec drivers) fun _ _ _ h => h
  rw [List.append_assoc, List.foldlM_append,
    hbefore.foldlM_eq (f := fileExec drivers) fun _ _ _ h => h, ok_bind] at hfold
  obtain ⟨t, hstep, -⟩ := bind_inv hfold
  exact ⟨t, hstep⟩

/-- An open that leaves sound counts was allowed. -/
theorem allows_of_sound {leftover : Int} (hkeeps : KeepsRefcounts drivers s.vfs)
    (hs : RefcountsSound s) (ht : RefcountsSound t)
    (hstep : fileStep drivers s (.openFile path flags leftover) t) :
    s.Allows drivers (.openFile path flags leftover) := by
  obtain ⟨result, hopened, hbalance⟩ := openFile_step hstep
  refine ⟨hopened.free, hopened.fits, ?_⟩
  by_contra hnot
  rw [not_or] at hnot
  obtain ⟨id, hid⟩ := Option.ne_none_iff_exists'.mp hnot.2
  obtain rfl := vnodeId_eq_some.mp hid
  -- the caller counts an open of the descriptor, and the vnodes have none
  obtain ⟨rfl, -⟩ := hopened.result.resolve_left fun h => hnot.1 h.2
  rw [Option.getD_none, if_pos (by omega)] at hbalance
  have hbefore := hs id
  have hafter := ht id
  rw [hbalance, Function.update_self, opened_refcount hkeeps hopened] at hafter
  split_ifs at hafter
  · rename_i hsome
    cases hsome
  · omega
  · omega

/-- A descriptor in range that is not open is closed all the same. -/
theorem closesSoundly_iff :
    ClosesSoundly drivers s fildes ↔ (vnodeId fildes ≠ none → s.IsOpen fildes) := by
  constructor
  · intro hsound hid
    by_contra hclosed
    have hresult := hsound.unopened hclosed
    unfold close at hresult
    cases hfd : vnodeId fildes with
    | none => exact hid hfd
    | some id =>
      rw [hfd] at hresult
      exact absurd (congrArg Prod.fst hresult) (show (0 : Int) ≠ -1 by decide)
  · intro hopen
    refine ⟨fun id hid _ => hopen ?_, fun hclosed => ?_⟩
    · rw [vnodeId_eq_some.mpr hid]
      nofun
    · unfold close
      rw [not_ne_iff.mp fun hid => hclosed (hopen hid)]

/-- **Reference counts are sound** along a sequence of calls, all of which return, and so is
every close, exactly if each call is one that the state allows: an open finds a vnode and a file
system that opens the file, a path is not too long for the log, and no descriptor in range is
closed that is not open. -/
theorem refcounts_sound (drivers : Fin mountpointsMax → FileDriver) (vfs : Vfs)
    (hkeeps : KeepsRefcounts drivers vfs)
    (hcache : ∀ id, (vfs.vnodeCache id).refcount = 0) (calls : List FileCall) :
    ((∃ s, Run (fileStep drivers) vfs.start calls s) ∧
      ∀ before u, before <+: calls → Run (fileStep drivers) vfs.start before u →
        RefcountsSound u ∧
          ∀ fildes, before ++ [.close fildes] <+: calls → ClosesSoundly drivers u fildes) ↔
      ∀ before call u, before ++ [call] <+: calls → Run (fileStep drivers) vfs.start before u →
        u.Allows drivers call := by
  have hkept {is : List FileCall} {t : FileState} (hrun : Run (fileStep drivers) vfs.start is t) :
      KeepsRefcounts drivers t.vfs := by
    refine ⟨?_, hkeeps.close⟩
    rw [run_mountpoints hrun]
    exact hkeeps.lookup
  constructor
  · rintro ⟨⟨s, hall⟩, hsound⟩ before call u hpre hrun
    obtain ⟨t, hstep⟩ := step_of_run hall hpre hrun
    obtain ⟨hu, hcloses⟩ := hsound before u ((List.prefix_append _ _).trans hpre) hrun
    cases call with
    | openFile path flags leftover =>
      exact allows_of_sound (hkept hrun) hu (hsound _ t hpre (hrun.extend hstep)).1 hstep
    | read fildes nbytes => exact read_returns_iff.mp ⟨t, hstep⟩
    | close fildes => exact closesSoundly_iff.mp (hcloses fildes hpre)
  · intro hallowed
    have hall : ∃ u, Run (fileStep drivers) vfs.start calls u := Run.of_steps
      fun before call u hpre hrun => exists_step_of_allows (hallowed before call u hpre hrun)
    refine ⟨hall, fun before u hbefore hrun => ⟨?_, ?_⟩⟩
    · refine Balanced.sound (hrun.trace (fun is t => is <+: calls → Balanced t) (fun _ => ?_) ?_
        hbefore)
      · refine ⟨fun id => ?_, fun id _ => rfl⟩
        have hzero : (vfs.start.vfs.vnodeCache id).refcount = 0 := hcache id
        exact ⟨le_of_eq hzero.symm, hzero⟩
      · intro is t v call hrun ih hstep hpre
        exact (ih ((List.prefix_append _ _).trans hpre)).next (hkept hrun)
          (hallowed is call t hpre hrun) hstep
    · intro fildes hpre
      exact closesSoundly_iff.mpr (hallowed before (.close fildes) u hpre hrun)

theorem exampleArchive_keeps : KeepsRefcounts exampleDrivers exampleArchive := by
  refine ⟨fun i lookup hlookup path flags vnode => ?_, fun i close hclose vnode => ?_⟩
  · have hlookup' : lookup = exampleLookup := by
      unfold exampleArchive vfsInit at hlookup
      dsimp only at hlookup
      -- only the archive has a `lookup`
      split at hlookup
      all_goals first
        | exact (Option.some.inj hlookup).symm
        | cases hlookup
    rw [hlookup']
    rfl
  · injection hclose with hclose
    rw [← hclose]

/-- A file is opened and closed. -/
theorem refcounts_sound_openClose :
    ∃ u t, Run (fileStep exampleDrivers) exampleArchive.start [.openFile examplePath 0 0] u ∧
      ClosesSoundly exampleDrivers u 0 ∧
      Run (fileStep exampleDrivers) exampleArchive.start [.openFile examplePath 0 0, .close 0] t ∧
      RefcountsSound t := by
  obtain ⟨u, hopen, hisOpen, t, hclose, -⟩ : ∃ u,
      fileExec exampleDrivers exampleArchive.start (.openFile examplePath 0 0) = .ok u ∧
      0 < u.balance 0 ∧ ∃ t, fileExec exampleDrivers u (.close 0) = .ok t ∧ True := by
    decide +kernel
  have hrun : Run (fileStep exampleDrivers) exampleArchive.start [.openFile examplePath 0 0] u :=
    Run.start.extend hopen
  have hrun' := hrun.extend hclose
  have hsound := (refcounts_sound exampleDrivers exampleArchive exampleArchive_keeps
    (fun _ => rfl) [.openFile examplePath 0 0, .close 0]).mpr ?_
  · exact ⟨u, t, hrun, (hsound.2 _ u (by simp) hrun).2 0 (List.prefix_refl _), hrun',
      (hsound.2 _ t (List.prefix_refl _) hrun').1⟩
  · intro before call v hpre hv
    rcases before with _ | ⟨first, _ | ⟨second, before⟩⟩
    · obtain ⟨rfl, -⟩ := List.cons_prefix_cons.mp hpre
      rw [hv.eq_of_nil]
      exact ⟨by decide, examplePath_fits (s := exampleArchive.start) rfl,
        .inl (examplePath_opens (s := exampleArchive.start) rfl).driverOpens⟩
    · -- the close comes after the open
      obtain ⟨rfl, hrest⟩ := List.cons_prefix_cons.mp hpre
      obtain ⟨rfl, -⟩ := List.cons_prefix_cons.mp hrest
      obtain rfl := hrun.det (f := fileExec exampleDrivers) (fun _ _ _ h => h) hv
      exact fun _ => hisOpen
    · simp at hpre

/-- The first call closes descriptor 0: it succeeds, and the count is -1. -/
theorem refcounts_negative :
    close exampleDrivers exampleArchive 0 = (0, exampleArchive.setVnode ⟨0, by decide⟩
      ⟨0, -1, .none, none, none⟩) ∧
    ¬ ClosesSoundly exampleDrivers exampleArchive.start 0 ∧
    ∃ u, Run (fileStep exampleDrivers) exampleArchive.start [.close 0] u ∧ ¬ RefcountsSound u := by
  refine ⟨rfl, fun hsound => ?_, ?_⟩
  · exact absurd (closesSoundly_iff.mp hsound nofun) (Int.lt_irrefl 0)
  · obtain ⟨u, hstep⟩ := exists_close_step exampleDrivers exampleArchive.start 0
    refine ⟨u, Run.start.extend hstep, fun hsound => ?_⟩
    rcases close_step hstep with ⟨hnone, -⟩ | ⟨id, hid, hvfs, -⟩
    · cases hnone
    · obtain rfl : id = ⟨0, by decide⟩ := Fin.ext (Int.ofNat_inj.mp hid.symm)
      have hneg := (hsound ⟨0, by decide⟩).1
      rw [hvfs, Vfs.setVnode_vnodeCache, Function.update_self,
        vfsClose_refcount exampleArchive_keeps] at hneg
      exact absurd hneg (by decide)

end Refcounts

end Dreamos64
