import Dreamos64.Fs.Descriptors

/-!
# Dreamos64 — mountpoints and paths

Which mountpoint a path belongs to, what the file system mounted there is asked for, and how
file systems get into the table (`vfs_register`). The paths are compared with their
mountpoints as lists of characters; `strncmp` compares bytes, so a mountpoint may end in the
middle of a name of the path.

* `vfsGetMountpointId_spec`         — the longest mountpoint that the path begins with;
* `vfs_get_mountpoint_id_resolves`  — it is the right one exactly if it ends where a name of
  the path ends;
* `vfs_lookup_relative_path`        — the file system gets the right path exactly if the path is
  not too long for the log, and the file system is not mounted at the root and the path goes on,
  or nothing but NULs is left;
* `vfs_register_safe`               — exactly the second call of `vfs_register` is safe.
-/

namespace Dreamos64

open Machine

/-! ## The mountpoint of a path -/

/-- The character between the names of a path. -/
def separator : UInt8 := '/'.toNat.toUInt8

section Paths

variable (mountpoints : Fin mountpointsMax → Mountpoint) (path : CString)

/-- The path begins with the name of a mountpoint; an unused one has no name. -/
def BeginsWith (i : Fin mountpointsMax) : Prop :=
  (mountpoints i).mountpoint.chars ≠ [] ∧ (mountpoints i).mountpoint.chars <+: path.chars

/-- The path is that of a mountpoint, or goes on with a separator. -/
def AtOrBelow (i : Fin mountpointsMax) : Prop :=
  (mountpoints i).mountpoint.chars ≠ [] ∧
    (path.chars = (mountpoints i).mountpoint.chars ∨
      (mountpoints i).mountpoint.chars ++ [separator] <+: path.chars)

/-- `i` is the longest mountpoint that the path is at or below, or the first one if there is
none. -/
def Resolves (i : Fin mountpointsMax) : Prop :=
  (AtOrBelow mountpoints path i ∧ ∀ j, AtOrBelow mountpoints path j →
      (mountpoints j).mountpoint.strlen ≤ (mountpoints i).mountpoint.strlen) ∨
    (i.val = 0 ∧ ∀ j, ¬ AtOrBelow mountpoints path j)

/-- `i` is a longest one of the mountpoints, the first left out, that the path begins with. -/
def LongestPrefix (i : Fin mountpointsMax) : Prop :=
  i.val ≠ 0 ∧ BeginsWith mountpoints path i ∧ ∀ j, j.val ≠ 0 → BeginsWith mountpoints path j →
    (mountpoints j).mountpoint.strlen ≤ (mountpoints i).mountpoint.strlen

instance (i : Fin mountpointsMax) : Decidable (BeginsWith mountpoints path i) :=
  inferInstanceAs (Decidable (_ ∧ _))

instance (i : Fin mountpointsMax) : Decidable (AtOrBelow mountpoints path i) :=
  inferInstanceAs (Decidable (_ ∧ _))

instance (i : Fin mountpointsMax) : Decidable (Resolves mountpoints path i) :=
  inferInstanceAs (Decidable (_ ∨ _))

variable {mountpoints path}

theorem AtOrBelow.beginsWith {i : Fin mountpointsMax} (h : AtOrBelow mountpoints path i) :
    BeginsWith mountpoints path i := by
  obtain ⟨hne, heq | hprefix⟩ := h
  · exact ⟨hne, heq ▸ List.prefix_rfl⟩
  · exact ⟨hne, (List.prefix_append _ _).trans hprefix⟩

/-- Two mountpoints of one length that a path begins with have one name. -/
theorem BeginsWith.chars_eq {i j : Fin mountpointsMax} (hi : BeginsWith mountpoints path i)
    (hj : BeginsWith mountpoints path j)
    (hlength : (mountpoints i).mountpoint.strlen = (mountpoints j).mountpoint.strlen) :
    (mountpoints i).mountpoint.chars = (mountpoints j).mountpoint.chars := by
  rw [← CString.length_chars, ← CString.length_chars] at hlength
  exact (List.prefix_of_prefix_length_le hi.2 hj.2 (Nat.le_of_eq hlength)).eq_of_length hlength

/-- One turn of the search, in terms of names. -/
theorem longerMountpoint_eq (last : Fin mountpointsMax × Nat) (i : Fin mountpointsMax) :
    longerMountpoint mountpoints path last i =
      if BeginsWith mountpoints path i ∧ last.2 < (mountpoints i).mountpoint.strlen then
        (i, (mountpoints i).mountpoint.strlen)
      else last := by
  unfold longerMountpoint BeginsWith
  simp only [ne_eq, ← CString.chars_eq_nil, strncmp_prefix, gt_iff_lt, and_assoc]

/-- The search over a part of the table: it keeps the best so far, or finds a longer one; and
none it looked at is longer than what it has. -/
theorem longerMountpoint_foldl (mountpoints : Fin mountpointsMax → Mountpoint) (path : CString)
    (is : List (Fin mountpointsMax)) (last : Fin mountpointsMax × Nat) :
    let best := is.foldl (longerMountpoint mountpoints path) last
    (best = last ∨ best.1 ∈ is ∧ BeginsWith mountpoints path best.1 ∧
        best.2 = (mountpoints best.1).mountpoint.strlen) ∧
      last.2 ≤ best.2 ∧ ∀ i ∈ is, BeginsWith mountpoints path i →
        (mountpoints i).mountpoint.strlen ≤ best.2 := by
  -- on the entries that are left; the best so far is arbitrary
  induction is generalizing last with
  | nil => exact ⟨.inl rfl, Nat.le_refl _, fun i hi => absurd hi List.not_mem_nil⟩
  | cons i is ih =>
    rw [List.foldl_cons, longerMountpoint_eq]
    split_ifs with hlonger
    -- this entry is longer: from here on it is the one to beat
    · obtain ⟨hbest, hle, hall⟩ := ih (i, (mountpoints i).mountpoint.strlen)
      dsimp only at hle ⊢
      refine ⟨.inr ?_, by omega, fun j hj hbegins => ?_⟩
      · rcases hbest with hsame | ⟨hmem, hbest⟩
        · rw [hsame]
          exact ⟨List.mem_cons_self, hlonger.1, rfl⟩
        · exact ⟨List.mem_cons_of_mem _ hmem, hbest⟩
      · rcases List.mem_cons.mp hj with rfl | hj
        · exact hle
        · exact hall j hj hbegins
    · obtain ⟨hbest, hle, hall⟩ := ih last
      refine ⟨hbest.imp_right fun h => ⟨List.mem_cons_of_mem _ h.1, h.2⟩, hle,
        fun j hj hbegins => ?_⟩
      rcases List.mem_cons.mp hj with rfl | hj
      · -- it was not longer than the best before
        have : ¬ last.2 < (mountpoints j).mountpoint.strlen := fun h => hlonger ⟨hbegins, h⟩
        omega
      · exact hall j hj hbegins

theorem mem_tail_finRange (i : Fin mountpointsMax) :
    i ∈ (List.finRange mountpointsMax).tail ↔ i.val ≠ 0 := by
  revert i
  decide

/-- **The search.** It finds a longest mountpoint of those that the path begins with, and the
first one if there is none. -/
theorem vfsGetMountpointId_spec (mountpoints : Fin mountpointsMax → Mountpoint) (path : CString) :
    let i := vfsGetMountpointId mountpoints path
    (i.val = 0 ∧ ∀ j, j.val ≠ 0 → ¬ BeginsWith mountpoints path j) ∨
      LongestPrefix mountpoints path i := by
  intro i
  have hi : i = vfsGetMountpointId mountpoints path := rfl
  unfold vfsGetMountpointId at hi
  split_ifs at hi with hempty
  · -- no name is at the beginning of the empty path
    refine .inl ⟨by rw [hi], fun j _ hbegins => hbegins.1 ?_⟩
    have hchars : path.chars = [] := List.length_eq_zero_iff.mp (path.length_chars.trans hempty)
    exact List.prefix_nil.mp (hchars ▸ hbegins.2)
  · obtain ⟨hbest, -, hall⟩ := longerMountpoint_foldl mountpoints path
      (List.finRange mountpointsMax).tail (⟨0, by decide⟩, 0)
    rw [← hi] at hbest
    -- nothing is longer than 0, so a search that kept its start has met no prefix
    rcases hbest with hnone | ⟨hmem, hbegins, hlength⟩
    · refine .inl ⟨by rw [hi, hnone], fun j hj hbegins => hbegins.1 ?_⟩
      have hzero := hall j ((mem_tail_finRange j).mpr hj) hbegins
      rw [hnone, ← CString.length_chars] at hzero
      exact List.length_eq_zero_iff.mp (Nat.le_zero.mp hzero)
    · refine .inr ⟨(mem_tail_finRange i).mp hmem, hbegins, fun j hj hj' => ?_⟩
      rw [← hlength]
      exact hall j ((mem_tail_finRange j).mpr hj) hj'

/-- **Mountpoint resolution.** The mountpoint is the right one exactly if each longest one
that the path begins with, the first entry left out, ends where a name of the path ends; and
is no shorter than the first entry, which is not looked at. (A first entry `/` never is
longer.) -/
theorem vfs_get_mountpoint_id_resolves (mountpoints : Fin mountpointsMax → Mountpoint)
    (path : CString) :
    Resolves mountpoints path (vfsGetMountpointId mountpoints path) ↔
      ∀ i, LongestPrefix mountpoints path i → AtOrBelow mountpoints path i ∧
        ∀ first, first.val = 0 → AtOrBelow mountpoints path first →
          (mountpoints first).mountpoint.strlen ≤ (mountpoints i).mountpoint.strlen := by
  have hspec := vfsGetMountpointId_spec mountpoints path
  generalize vfsGetMountpointId mountpoints path = id at hspec ⊢
  constructor
  · intro hresolves i hi
    rcases hspec with ⟨-, hnone⟩ | ⟨hid, hbegins, hlongest⟩
    · exact absurd hi.2.1 (hnone i hi.1)
    · -- both are longest, so they have one name
      have hlength := Nat.le_antisymm (hi.2.2 id hid hbegins) (hlongest i hi.1 hi.2.1)
      have hchars := hbegins.chars_eq hi.2.1 hlength
      rcases hresolves with ⟨hbelow, hall⟩ | ⟨hzero, -⟩
      · unfold AtOrBelow at hbelow ⊢
        rw [← hchars, ← hlength]
        exact ⟨hbelow, fun first _ hfirst => hall first hfirst⟩
      · exact absurd hzero hid
  · intro hends
    rcases hspec with ⟨hid, hnone⟩ | hlongest
    · by_cases hsome : ∃ j, AtOrBelow mountpoints path j
      · -- what the path is below can only be the first entry
        obtain ⟨j, hj⟩ := hsome
        have hfirst : ∀ k, AtOrBelow mountpoints path k → k = id := fun k hk => by
          by_contra hne
          exact hnone k (fun hzero => hne (Fin.ext (hzero.trans hid.symm))) hk.beginsWith
        refine .inl ⟨hfirst j hj ▸ hj, fun k hk => ?_⟩
        rw [hfirst k hk]
      · exact .inr ⟨hid, fun j hj => hsome ⟨j, hj⟩⟩
    · obtain ⟨hbelow, hfirst⟩ := hends id hlongest
      refine .inl ⟨hbelow, fun j hj => ?_⟩
      by_cases hzero : j.val = 0
      · exact hfirst j hzero hj
      · exact hlongest.2.2 j hzero hj.beginsWith

/-- `/usrlocal/x` is given to the file system mounted at `/usr`. -/
theorem vfs_get_mountpoint_id_usrlocal :
    let mountpoints := (vfsInit fun _ _ vnode => (-1, vnode)).mountpoints
    let path := CString.ofChars ['/', 'u', 's', 'r', 'l', 'o', 'c', 'a', 'l', '/', 'x']
    vfsGetMountpointId mountpoints path = ⟨2, by decide⟩ ∧
      Resolves mountpoints path ⟨0, by decide⟩ ∧ ¬ Resolves mountpoints path ⟨2, by decide⟩ := by
  decide +kernel

end Paths

/-! ## What the file system is asked for -/

/-- The path within a file system of a path that was resolved to its mountpoint: nothing for
the mountpoint itself, what follows the mountpoint and a separator, and for the root, whose
name is the separator, what follows it. -/
inductive DriverPath : List UInt8 → List UInt8 → List UInt8 → Prop
  | itself (mountpoint : List UInt8) : DriverPath mountpoint mountpoint []
  | root (rest : List UInt8) : DriverPath [separator] (separator :: rest) rest
  | below {mountpoint : List UInt8} (rest : List UInt8) (hroot : mountpoint ≠ [separator]) :
      DriverPath mountpoint (mountpoint ++ separator :: rest) rest

section Lookup

variable (s : Vfs) (path : CString) (flags : Int)

/-- What `vfs_lookup` passes to the `lookup` operation, if it gets there: see
`vfsLookup_passes`. -/
def Vfs.lookupPath : Exec CharPtr := do
  let relativePath ← findRelativePath (s.mountpointOf path).mountpoint path
  .ok (relativePath.add 1)

/-- What `vfs_lookup` does after the call of `lookup`. -/
def afterLookup (openFile : CharPtr → Int → Int) (errorCode : Int) (vnode : Vnode) : Int × Vnode :=
  let vnode :=
    if errorCode = 0 then { vnode with vfsRoot := some (vfsGetMountpointId s.mountpoints path) }
    else vnode
  if openFile (s.relativePath path) flags < 0 then (eopenError, vnode)
  else if s.vnodeIndex > openedfilesMax then (eopenError, vnode)
  else (0, { vnode with refcount := vnode.refcount + 1 })

variable {s path flags}

/-- It is the string behind the mountpoint and one more character, if the message about the path
fits. -/
theorem lookupPath_eq_ok {driverPath : CharPtr} : s.lookupPath path = .ok driverPath ↔
    s.MessageFits path ∧ driverPath = (s.relativePath path).add 1 := by
  constructor
  · intro h
    obtain ⟨relativePath, hpath, h⟩ := bind_inv h
    obtain ⟨hfits, rfl⟩ := findRelativePath_eq_ok.mp hpath
    exact ⟨hfits, (Except.ok.inj h).symm⟩
  · rintro ⟨hfits, rfl⟩
    exact congrArg (· >>= _) (findRelativePath_eq_ok.mpr ⟨hfits, rfl⟩)

theorem vfsLookup_passes {vnode : Vnode} {openFile : CharPtr → Int → Int} {driverPath : CharPtr}
    {lookup : CharPtr → Int → Vnode → Int × Vnode}
    (hopen : (s.mountpointOf path).fileOperations.openFile = some openFile)
    (hlookup : (s.mountpointOf path).vnodeOperations.lookup = some lookup)
    (hpath : s.lookupPath path = .ok driverPath) :
    vfsLookup s path flags vnode = .ok (afterLookup s path flags openFile
      (lookup driverPath flags vnode).1 (lookup driverPath flags vnode).2) := by
  obtain ⟨hfits, rfl⟩ := lookupPath_eq_ok.mp hpath
  unfold Vfs.mountpointOf at hopen hlookup
  rw [vfsLookup_eq hfits, askFileSystem]
  dsimp only
  rw [hopen, hlookup]
  rfl

/-- What is read one character behind the mountpoint is how the path continues, unless the
mountpoint is the root, or nothing is known of what follows the path. -/
theorem reads_driverPath_iff (path : CString) (mountpoint : List UInt8) :
    (∃ rest, DriverPath mountpoint path.chars rest ∧
        Reads (path.bytes.add (mountpoint.length + 1)) rest) ↔
      (mountpoint ≠ [separator] ∧ mountpoint ++ [separator] <+: path.chars) ∨
        (path.chars = mountpoint ∧ path.bytes (path.strlen + 1) = 0) := by
  have hstrlen := path.length_chars
  constructor
  · rintro ⟨rest, hrest, hreads⟩
    -- by the way the path continues its mountpoint
    generalize hchars : path.chars = chars at hrest hstrlen
    cases hrest with
    | itself =>
      rw [reads_nil] at hreads
      rw [← hstrlen]
      exact .inr ⟨rfl, hreads⟩
    | root =>
      -- the first character of the path is lost, so there cannot have been one
      cases rest with
      | nil =>
        rw [reads_nil] at hreads
        rw [← hstrlen]
        exact .inr ⟨rfl, hreads⟩
      | cons c rest =>
        have hsplit : path.chars = [separator, c] ++ rest := hchars
        have hless := path.reads_add hsplit
        have hlength := congrArg List.length (hreads.unique hless)
        rw [List.length_cons] at hlength
        omega
    | below _ hroot =>
      refine .inl ⟨hroot, ?_⟩
      rw [List.append_cons mountpoint separator rest]
      exact List.prefix_append _ _
  · rintro (⟨hroot, rest, hrest⟩ | ⟨hsame, hnul⟩)
    -- behind the mountpoint and the separator the rest is read as it is
    · have hreads := path.reads_add hrest.symm
      rw [List.length_append] at hreads
      refine ⟨rest, ?_, hreads⟩
      rw [← hrest, List.append_assoc]
      exact .below rest hroot
    · refine ⟨[], hsame ▸ .itself _, ?_⟩
      rw [reads_nil, ← hsame, hstrlen]
      exact hnul

/-- **Relative paths.** The file system is asked for the right path exactly if the message about
the path fits into the log's buffer, and the file system is mounted elsewhere than at the root and
the path goes on after a separator, or the path is that of the mountpoint and another NUL follows
its own. -/
theorem vfs_lookup_relative_path (s : Vfs) (path : CString) :
    (∃ driverPath rest, s.lookupPath path = .ok driverPath ∧
        DriverPath (s.mountpointOf path).mountpoint.chars path.chars rest ∧
        Reads driverPath rest) ↔
      s.MessageFits path ∧
        (((s.mountpointOf path).mountpoint.chars ≠ [separator] ∧
            (s.mountpointOf path).mountpoint.chars ++ [separator] <+: path.chars) ∨
          (path.chars = (s.mountpointOf path).mountpoint.chars ∧
            path.bytes (path.strlen + 1) = 0)) := by
  have hpointer : (s.relativePath path).add 1 =
      path.bytes.add ((s.mountpointOf path).mountpoint.chars.length + 1) := by
    funext i
    rw [CString.length_chars]
    exact congrArg path.bytes (Nat.add_assoc _ _ _).symm
  rw [← reads_driverPath_iff, ← hpointer]
  constructor
  · rintro ⟨driverPath, rest, hpath, hrest⟩
    obtain ⟨hfits, rfl⟩ := lookupPath_eq_ok.mp hpath
    exact ⟨hfits, rest, hrest⟩
  · rintro ⟨hfits, rest, hrest⟩
    exact ⟨_, rest, lookupPath_eq_ok.mpr ⟨hfits, rfl⟩, hrest⟩

/-- On a root with operations `/ab` is looked up as `b`, and `/external` as what the memory
after it happens to have. -/
theorem vfs_lookup_wrong_path :
    let table := vfsInit fun _ _ vnode => (-1, vnode)
    let root := CString.ofChars ['/', 'a', 'b']
    let mountpoint := CString.ofBytes
      ((CString.ofChars ['/', 'e', 'x', 't', 'e', 'r', 'n', 'a', 'l']).chars ++ [0, 120])
    (DriverPath (table.mountpointOf root).mountpoint.chars root.chars [97, 98] ∧
        ∃ driverPath, table.lookupPath root = .ok driverPath ∧ Reads driverPath [98]) ∧
      DriverPath (table.mountpointOf mountpoint).mountpoint.chars mountpoint.chars [] ∧
        ∃ driverPath, table.lookupPath mountpoint = .ok driverPath ∧ Reads driverPath [120] := by
  intro table root mountpoint
  have hroot : (table.mountpointOf root).mountpoint.chars = [separator] := by decide +kernel
  have hpath : root.chars = separator :: [97, 98] := by decide +kernel
  have hmount : (table.mountpointOf mountpoint).mountpoint.chars = mountpoint.chars := by
    decide +kernel
  refine ⟨⟨?_, ?_⟩, ?_, ?_⟩
  · rw [hroot, hpath]
    exact .root _
  · exact ⟨_, lookupPath_eq_ok.mpr ⟨by decide +kernel, rfl⟩, .cons (by decide)
      (by decide +kernel) ((reads_nil _).mpr (by decide +kernel))⟩
  · rw [hmount]
    exact .itself _
  · exact ⟨_, lookupPath_eq_ok.mpr ⟨by decide +kernel, rfl⟩, .cons (by decide)
      (by decide +kernel) ((reads_nil _).mpr (by decide +kernel))⟩

end Lookup

/-! ## Registering file systems -/

def filesystemNameLen : Nat := 32
def maxMountpointLen : Nat := 64

/-- The string in `dest` after `strcpy(dest, src)`: what follows the NUL is the old content. -/
def CString.strcpy (dest src : CString) : CString where
  bytes := fun i => if i ≤ src.strlen then src.bytes i else dest.bytes i
  size := src.strlen
  terminated := ⟨src.strlen, Nat.le_refl _, by rw [if_pos (Nat.le_refl _), src.strlen_spec.1]⟩

theorem CString.strcpy_chars (dest src : CString) : (dest.strcpy src).chars = src.chars := by
  -- the NUL is copied too, so what follows it is not read
  refine (dest.strcpy src).reads.unique (src.reads.congr fun i hi => ?_)
  rw [src.length_chars] at hi
  exact if_pos hi

/-- The table of mountpoints with the fields that opening a file does not use: the names of the
file systems and their other operations, and the index of the entry to use next. -/
structure MountTable where
  vfs             : Vfs
  names           : Fin mountpointsMax → CString
  drivers         : Fin mountpointsMax → FileDriver
  mountpointIndex : Nat

/-- The arguments of `vfs_register`, with the `file_operations` in the two parts that the model
has them in. -/
structure Registration where
  fileSystemName : CString
  mountpoint     : CString
  fileOperations : FsFileOperations
  driver         : FileDriver

/-- The strings fit into their fields, with their NULs. -/
def Registration.Fits (r : Registration) : Prop :=
  r.fileSystemName.strlen < filesystemNameLen ∧ r.mountpoint.strlen < maxMountpointLen

instance Registration.instDecidableFits (r : Registration) : Decidable r.Fits :=
  inferInstanceAs (Decidable (_ ∧ _))

/-- `vfs_init`, for the whole table. The index is that of the last entry it fills. -/
def vfsInitTable (ustarLookup : CharPtr → Int → Vnode → Int × Vnode) (ustar : FileDriver) :
    MountTable where
  vfs := vfsInit ustarLookup
  names := fun i =>
    match i.val with
    | 0 | 1 | 2 => .ofChars ['A', 'r', 'r', 'a', 'y', 'F', 'S']
    | 3 => .ofChars ['u', 's', 't', 'a', 'r']
    | _ => .ofChars []
  drivers := fun i => if i.val = 3 then ustar else ⟨none, none⟩
  mountpointIndex := 3

/-- Entry `i` after it was given to a file system; its `lookup` stays. -/
def MountTable.register (s : MountTable) (r : Registration) (i : Fin mountpointsMax) :
    MountTable :=
  let entry := s.vfs.mountpoints i
  let entry := { entry with
    mountpoint := entry.mountpoint.strcpy r.mountpoint, fileOperations := r.fileOperations }
  { vfs := { s.vfs with mountpoints := Function.update s.vfs.mountpoints i entry }
    names := Function.update s.names i ((s.names i).strcpy r.fileSystemName)
    drivers := Function.update s.drivers i r.driver
    mountpointIndex := s.mountpointIndex + 1 }

/-- `vfs_register`. -/
def vfsRegister (s : MountTable) (r : Registration) : Exec (Int × MountTable) :=
  if s.mountpointIndex > mountpointsMax then .ok (-1, s)
  else if h : s.mountpointIndex < mountpointsMax then
    if r.Fits then .ok (0, s.register r ⟨s.mountpointIndex, h⟩)
    -- `strcpy` writes past the end of its field
    else .error .outOfBounds
  -- the index may be that of no entry
  else .error .outOfBounds

section Register

variable {s t : MountTable} {r : Registration} {i : Fin mountpointsMax}

/-- There is a mountpoint in the entry. -/
def MountTable.Present (s : MountTable) (i : Fin mountpointsMax) : Prop :=
  (s.vfs.mountpoints i).mountpoint.chars ≠ []

instance : Decidable (s.Present i) := inferInstanceAs (Decidable (_ ≠ _))

/-- The entry is the same in both tables. -/
structure MountTable.SameEntry (s t : MountTable) (i : Fin mountpointsMax) : Prop where
  mountpoint : t.vfs.mountpoints i = s.vfs.mountpoints i
  name       : t.names i = s.names i
  driver     : t.drivers i = s.drivers i

/-- The entry is that of a file system which was registered. -/
structure MountTable.Holds (t : MountTable) (r : Registration) (i : Fin mountpointsMax) : Prop where
  mountpoint     : (t.vfs.mountpoints i).mountpoint.chars = r.mountpoint.chars
  fileOperations : (t.vfs.mountpoints i).fileOperations = r.fileOperations
  name           : (t.names i).chars = r.fileSystemName.chars
  driver         : t.drivers i = r.driver

/-- A safe call returns; if it returns 0, what was present is still there and the new file
system has an entry that was free; if no entry is free it returns -1 and changes nothing. -/
def RegisterSafe (s : MountTable) (r : Registration) : Prop :=
  ∃ result t, vfsRegister s r = .ok (result, t) ∧
    (result = 0 → (∀ j, s.Present j → s.SameEntry t j) ∧ ∃ i, ¬ s.Present i ∧ t.Holds r i) ∧
    ((∀ i, s.Present i) → result = -1 ∧ t = s)

/-- A call of `vfs_register` that returns, with strings that fit. -/
def registerStep (s : MountTable) (r : Registration) (t : MountTable) : Prop :=
  r.Fits ∧ ∃ result, vfsRegister s r = .ok (result, t)

theorem MountTable.register_holds (s : MountTable) (r : Registration) (i : Fin mountpointsMax) :
    (s.register r i).Holds r i where
  mountpoint := by
    unfold MountTable.register
    dsimp only
    rw [Function.update_self]
    exact CString.strcpy_chars _ _
  fileOperations := by
    unfold MountTable.register
    dsimp only
    rw [Function.update_self]
  name := by
    unfold MountTable.register
    dsimp only
    rw [Function.update_self]
    exact CString.strcpy_chars _ _
  driver := Function.update_self _ _ _

theorem MountTable.register_same {j : Fin mountpointsMax} (hne : j ≠ i) :
    s.SameEntry (s.register r i) j where
  mountpoint := Function.update_of_ne hne _ _
  name := Function.update_of_ne hne _ _
  driver := Function.update_of_ne hne _ _

theorem vfsRegister_in (hfits : r.Fits) (hi : s.mountpointIndex = i.val) :
    vfsRegister s r = .ok (0, s.register r i) := by
  have hlt : s.mountpointIndex < mountpointsMax := hi ▸ i.isLt
  unfold vfsRegister
  rw [if_neg (by omega), dif_pos hlt, if_pos hfits]
  congr

theorem vfsRegister_past (hi : s.mountpointIndex = mountpointsMax) :
    vfsRegister s r = .error .outOfBounds := by
  unfold vfsRegister
  rw [if_neg (by omega), dif_neg (by omega)]

/-- A call that would use an entry already taken is not safe: either that entry is changed, or
the new file system is nowhere else. -/
theorem not_registerSafe_taken (hfits : r.Fits) (hi : s.mountpointIndex = i.val)
    (hpresent : s.Present i) : ¬ RegisterSafe s r := by
  rintro ⟨result, t, hcall, hzero, -⟩
  rw [vfsRegister_in hfits hi] at hcall
  cases hcall
  -- `j` is the entry that the new file system would have to be in
  obtain ⟨hsame, j, hfree, hholds⟩ := hzero rfl
  have hne : j ≠ i := fun h => hfree (h ▸ hpresent)
  have hother := (MountTable.register_same (r := r) (s := s) hne).mountpoint
  have hmountpoint := hholds.mountpoint
  have htaken := (s.register_holds r i).mountpoint
  -- the name registered is that of a free entry, so empty; but entry `i` still has its own
  rw [hother] at hmountpoint
  rw [(hsame i hpresent).mountpoint, ← hmountpoint] at htaken
  exact hpresent (htaken.trans (not_not.mp hfree))

theorem registerSafe_free (hfits : r.Fits) (hi : s.mountpointIndex = i.val)
    (hfree : ¬ s.Present i) : RegisterSafe s r := by
  refine ⟨0, _, vfsRegister_in hfits hi, fun _ => ⟨fun j hj => ?_, i, hfree, s.register_holds r i⟩,
    fun hall => absurd (hall i) hfree⟩
  exact MountTable.register_same fun h => hfree (h ▸ hj)

/-- What the calls so far say about the index, and about the two entries it can be of. -/
structure RegisterInv (calls : List Registration) (s : MountTable) : Prop where
  index : s.mountpointIndex = 3 + calls.length
  bound : s.mountpointIndex ≤ mountpointsMax
  third : calls = [] → ∀ i : Fin mountpointsMax, i.val = 3 → s.Present i
  free  : ∀ i : Fin mountpointsMax, 3 + calls.length ≤ i.val → 3 < i.val → ¬ s.Present i

theorem RegisterInv.step {calls : List Registration} (h : RegisterInv calls s)
    (hcall : registerStep s r t) : RegisterInv (calls ++ [r]) t := by
  obtain ⟨hfits, result, hcall⟩ := hcall
  have hlength : (calls ++ [r]).length = calls.length + 1 := List.length_append
  -- with the index at the end of the table a call does not return
  rcases Nat.lt_or_eq_of_le h.bound with hlt | hpast
  · rw [vfsRegister_in (i := ⟨s.mountpointIndex, hlt⟩) hfits rfl] at hcall
    cases hcall
    have hindex := h.index
    refine ⟨?_, hlt, fun hnil => absurd hnil (List.append_ne_nil_of_right_ne_nil _
      (List.cons_ne_nil _ _)), fun i hi hgt => ?_⟩
    · rw [hlength, ← Nat.add_assoc, ← hindex]
      rfl
    · -- the entry was free before, and is not the one that was taken
      have hne : i ≠ ⟨s.mountpointIndex, hlt⟩ := fun heq => by
        have hval : i.val = s.mountpointIndex := congrArg Fin.val heq
        omega
      have hsame := (MountTable.register_same (r := r) (s := s) hne).mountpoint
      unfold MountTable.Present
      rw [hsame]
      exact h.free i (by omega) hgt
  · rw [vfsRegister_past hpast] at hcall
    cases hcall

theorem RegisterInv.run {ustarLookup : CharPtr → Int → Vnode → Int × Vnode} {ustar : FileDriver}
    {calls : List Registration}
    (hrun : Run registerStep (vfsInitTable ustarLookup ustar) calls s) : RegisterInv calls s := by
  have hthird : (CString.ofChars ['/', 'e', 'x', 't', 'e', 'r', 'n', 'a', 'l']).chars ≠ [] := by
    decide +kernel
  -- `vfs_init` fills the entries up to 3 and leaves 4 empty
  have hfourth : ¬ (CString.ofChars []).chars ≠ [] := by decide +kernel
  refine hrun.trace RegisterInv ⟨rfl, (by decide : 3 ≤ 5), fun _ i hi => ?_, fun i _ hi => ?_⟩
    fun _ h hlast => h.step hlast
  · have hthree : i = ⟨3, by decide⟩ := Fin.ext hi
    subst hthree
    exact hthird
  · have hlt : i.val < 5 := i.isLt
    have hfour : i = ⟨4, by decide⟩ := Fin.ext (Nat.le_antisymm (Nat.le_of_lt_succ hlt) hi)
    subst hfour
    exact hfourth

/-- **Registering file systems.** After `vfs_init` and any calls of `vfs_register`, another call
is safe exactly if there was one call before it. The first one takes the entry of `/external`,
and the third one writes past the end of the table. -/
theorem vfs_register_safe {ustarLookup : CharPtr → Int → Vnode → Int × Vnode} {ustar : FileDriver}
    {calls : List Registration} {s : MountTable}
    (hrun : Run registerStep (vfsInitTable ustarLookup ustar) calls s) (r : Registration)
    (hfits : r.Fits) : RegisterSafe s r ↔ calls.length = 1 := by
  have hinv := RegisterInv.run hrun
  have hindex := hinv.index
  have hbound := hinv.bound
  have hmax : mountpointsMax = 5 := rfl
  -- the index is 3, 4 or 5: an entry taken, the free one, and none
  rcases (by omega : calls.length = 0 ∨ calls.length = 1 ∨ calls.length = 2) with h | h | h
  · -- the entry that `vfs_init` filled last
    have hpresent := hinv.third (List.length_eq_zero_iff.mp h) ⟨3, by decide⟩ rfl
    exact iff_of_false (not_registerSafe_taken hfits (hindex.trans (by rw [h])) hpresent) (by omega)
  · have hfree := hinv.free ⟨4, by decide⟩ (by rw [h]) (by decide)
    exact iff_of_true (registerSafe_free hfits (hindex.trans (by rw [h])) hfree) h
  · refine iff_of_false ?_ (by omega)
    rintro ⟨result, t, hcall, -⟩
    rw [vfsRegister_past (by omega)] at hcall
    cases hcall

/-- A file system to register. -/
def someRegistration : Registration where
  fileSystemName := .ofChars ['f', 's']
  mountpoint := .ofChars ['/', 'm']
  fileOperations := ⟨none⟩
  driver := ⟨none, none⟩

/-- `vfs_init`, with an archive driver that finds nothing. -/
def initialTable : MountTable := vfsInitTable (fun _ _ vnode => (-1, vnode)) ⟨none, none⟩

/-- The second of two calls is safe. -/
theorem vfs_register_safe_second :
    ∃ s, Run registerStep initialTable [someRegistration] s ∧ RegisterSafe s someRegistration := by
  have hfits : someRegistration.Fits := by decide +kernel
  have hcall := vfsRegister_in (s := initialTable) (i := ⟨3, by decide⟩) hfits rfl
  have hstep : registerStep initialTable someRegistration _ := ⟨hfits, 0, hcall⟩
  have hrun : Run registerStep initialTable [someRegistration] _ := Run.start.extend hstep
  exact ⟨_, hrun, (vfs_register_safe hrun someRegistration hfits).mpr rfl⟩

/-- The first call takes the entry of `/external`, though the next one is free; the third writes
past the end of the table. -/
theorem vfs_register_overwrites :
    (∃ t, vfsRegister initialTable someRegistration = .ok (0, t) ∧
        initialTable.Present ⟨3, by decide⟩ ∧ ¬ initialTable.Present ⟨4, by decide⟩ ∧
        ¬ initialTable.SameEntry t ⟨3, by decide⟩) ∧
      ∃ s, Run registerStep initialTable [someRegistration, someRegistration] s ∧
        vfsRegister s someRegistration = .error .outOfBounds := by
  have hfits : someRegistration.Fits := by decide +kernel
  have hfirst := vfsRegister_in (s := initialTable) (i := ⟨3, by decide⟩) hfits rfl
  have hsecond := vfsRegister_in (i := ⟨4, by decide⟩) (r := someRegistration) hfits
    (rfl : (initialTable.register someRegistration ⟨3, by decide⟩).mountpointIndex = 4)
  refine ⟨⟨_, hfirst, by decide +kernel, by decide +kernel, fun hsame => ?_⟩, _,
    (Run.start.extend ⟨hfits, 0, hfirst⟩).extend ⟨hfits, 0, hsecond⟩, vfsRegister_past rfl⟩
  have hholds := (initialTable.register_holds someRegistration ⟨3, by decide⟩).mountpoint
  rw [hsame.mountpoint] at hholds
  exact absurd hholds (by decide +kernel)

end Register

end Dreamos64
