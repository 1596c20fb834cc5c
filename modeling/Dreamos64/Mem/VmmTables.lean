import Dreamos64.Arch.PageSupply
import Dreamos64.Mem.Vmm

/-!
# Dreamos64 — the virtual memory manager on page tables

`vmm_alloc_at` again, with what `Vmm` keeps apart: every call of
`map_phys_to_virt_addr_hh` changes the tables, and the frames come from the supply that the
mapper's own tables come from. Containers are still found at their addresses.

* `VmmTables.vmmAllocAt_refines` — what such a run does to the ledger is a run of `Vmm`, for
  the frames that it was given;
* `VmmTables.vmmAlloc_of`        — what a call does to the tables is `backPage` for each page;
* `VmmTables.vmmAlloc_inv`       — what a call returns, whatever became of its pages.
-/

namespace Dreamos64

open Machine

/-- A manager and the memory in which its tables lie. What `pmm_alloc_frame` will return,
also to `pmm_prepare_new_pagetable`, is `vm.freeTables`; `vmm.frames` plays no part. -/
structure VmmTables where
  vmm : Vmm
  vm  : Vm

namespace VmmTables

/-- `pmm_alloc_frame`; 0 is NULL. -/
def allocFrame (s : VmmTables) : Nat × VmmTables :=
  ((newPagetable s.vm).1, { s with vm := (newPagetable s.vm).2 })

/-- `map_phys_to_virt_addr_hh` in the manager's root. Its result is not looked at. -/
def map (m : PageMode) (s : VmmTables) (physicalAddress address flags : Nat) : Exec VmmTables := do
  let root := s.vmm.info.rootTableHhdm
  let (_, vm) ← mapPhysToVirtAddrHh m s.vm physicalAddress address flags root
  .ok { vmm := s.vmm.map physicalAddress address flags root, vm := vm }

/-- Where the next container goes. -/
def newContainer (m : PageMode) (s : VmmTables) : Nat := Dreamos64.newContainer m s.vmm

/-- The first block of `vmm_alloc_at`. -/
def ensureContainer (m : PageMode) (s : VmmTables) : Exec VmmTables :=
  if s.vmm.info.vmmItemsPerPage ≤ s.vmm.info.vmmCurIndex then
    let new := s.newContainer m
    let (frame, s) := s.allocFrame
    -- the only frame that is checked; the message is `Fatal`
    if frame = 0 then .error .halted
    else do
      let s ← s.map m frame new (vmmFlagsPresent ||| vmmFlagsWriteEnable)
      .ok { s with vmm := enterContainer s.vmm new }
  else .ok s

/-- The loop that backs the pages with frames. -/
def mapPages (m : PageMode) (address flags requiredPages : Nat) (s : VmmTables) :
    Exec VmmTables :=
  (List.range requiredPages).foldlM (fun s i =>
    let (frame, s) := s.allocFrame
    s.map m frame ((address + i * pageSizeInBytes m) % 2 ^ 64)
      (vmParseFlags flags ||| vmmFlagsPresent ||| vmmFlagsWriteEnable)) s

/-- Frames for a range, unless only its addresses are asked for. -/
def backRange (m : PageMode) (address flags requiredPages : Nat) (s : VmmTables) :
    Exec VmmTables :=
  if isAddressOnly flags then .ok s else s.mapPages m address flags requiredPages

/-- `vmm_alloc_at`. -/
def vmmAllocAt (m : PageMode) (baseAddress size flags : Nat) (s : VmmTables) :
    Exec (Option Nat × VmmTables) :=
  if size = 0 then .ok (none, s)
  else do
    let s ← s.ensureContainer m
    let newSize := alignValueToPage m size
    let address ← addressToReturn m baseAddress s.vmm
    -- `vmm_root` ends here
    if vmmRootLength m ≤ s.vmm.info.vmmCurIndex then .error .outOfBounds
    else
      -- the range is recorded before there is anything behind it
      let s := { s with vmm := recordItem s.vmm ⟨address, newSize, flags⟩ }
      -- a range of the lower half is a task's
      let flags := if isAddressHigherHalf address then flags else flags ||| vmmFlagsUserLevel
      let s ← s.backRange m address flags (getNumberOfPagesFromSize m size)
      .ok (some (handedOut address flags), { s with vmm := countItem s.vmm })

/-- `vmm_alloc`. -/
def vmmAlloc (m : PageMode) (size flags : Nat) (s : VmmTables) : Exec (Option Nat × VmmTables) :=
  s.vmmAllocAt m 0 size flags

/-! ## The ledger -/

/-- The manager with the frames that its calls will be given. -/
def withFrames (s : Vmm) (frames : List Nat) : Vmm := { s with frames := frames }

section Ledger

variable {m : PageMode} {s s' : VmmTables} {address flags n : Nat}

theorem map_inv {pa : Nat} (h : s.map m pa address flags = .ok s') :
    s'.vmm = s.vmm.map pa address flags s.vmm.info.rootTableHhdm := by
  obtain ⟨⟨ret, vm⟩, -, h⟩ := bind_inv h
  cases h
  rfl

/-- The first block, for the frame that it is given. -/
theorem ensureContainer_refines (h : s.ensureContainer m = .ok s') :
    ∃ frames, ∀ rest, Dreamos64.ensureContainer m (withFrames s.vmm (frames ++ rest)) =
      .ok (withFrames s'.vmm rest) := by
  unfold ensureContainer at h
  unfold Dreamos64.ensureContainer
  by_cases hfull : s.vmm.info.vmmItemsPerPage ≤ s.vmm.info.vmmCurIndex
  · rw [if_pos hfull] at h
    dsimp only at h
    split_ifs at h with hnull
    obtain ⟨u, hmap, h⟩ := bind_inv h
    cases h
    -- the same writes on both sides, after the same mapping
    refine ⟨[s.allocFrame.1], fun rest => ?_⟩
    rw [if_pos (by exact hfull), map_inv hmap]
    rfl
  · rw [if_neg hfull] at h
    cases h
    refine ⟨[], fun rest => ?_⟩
    rw [if_neg (by exact hfull)]
    rfl

/-- The loop, for the frames that it is given; 0 is among them when there is none left. -/
theorem mapPages_refines (h : s.mapPages m address flags n = .ok s') :
    ∃ frames, Dreamos64.mapPages m address flags n (withFrames s.vmm frames) =
      withFrames s'.vmm [] := by
  unfold mapPages at h
  unfold Dreamos64.mapPages
  generalize List.range n = pages at h ⊢
  -- on the pages that are left; each takes one frame from the front
  induction pages generalizing s with
  | nil =>
    cases h
    exact ⟨[], rfl⟩
  | cons i pages ih =>
    rw [List.foldlM_cons] at h
    obtain ⟨u, hmap, h⟩ := bind_inv h
    obtain ⟨frames, hrest⟩ := ih h
    refine ⟨s.allocFrame.1 :: frames, ?_⟩
    rw [map_inv hmap] at hrest
    exact hrest

theorem backRange_refines (h : s.backRange m address flags n = .ok s') :
    ∃ frames, (if isAddressOnly flags then withFrames s.vmm frames
      else Dreamos64.mapPages m address flags n (withFrames s.vmm frames)) =
        withFrames s'.vmm [] := by
  unfold backRange at h
  by_cases honly : isAddressOnly flags = true
  · rw [if_pos honly] at h
    cases h
    exact ⟨[], by rw [if_pos honly]⟩
  · rw [if_neg honly] at h
    obtain ⟨frames, hframes⟩ := mapPages_refines h
    exact ⟨frames, by rw [if_neg honly, hframes]⟩

/-- **The ledger.** What a call does to the manager's own state, and what it returns, is what
the call of `Vmm` does with the same frames. -/
theorem vmmAllocAt_refines {baseAddress size : Nat} {ret : Option Nat}
    (h : s.vmmAllocAt m baseAddress size flags = .ok (ret, s')) :
    ∃ frames left, Dreamos64.vmmAllocAt m baseAddress size flags (withFrames s.vmm frames) =
      .ok (ret, withFrames s'.vmm left) := by
  unfold vmmAllocAt at h
  by_cases hsize : size = 0
  · rw [if_pos hsize] at h
    cases h
    exact ⟨[], [], if_pos hsize⟩
  rw [if_neg hsize] at h
  obtain ⟨u, hcontainer, h⟩ := bind_inv h
  obtain ⟨first, hfirst⟩ := ensureContainer_refines hcontainer
  obtain ⟨address, haddress, h⟩ := bind_inv h
  dsimp only at h
  by_cases hindex : vmmRootLength m ≤ u.vmm.info.vmmCurIndex
  · rw [if_pos hindex] at h
    cases h
  rw [if_neg hindex] at h
  obtain ⟨w, hpages, h⟩ := bind_inv h
  cases h
  obtain ⟨rest, hrest⟩ := backRange_refines hpages
  -- the frame of the container comes before those of the range
  refine ⟨first ++ rest, [], ?_⟩
  rw [vmmAllocAt_some flags hsize (hfirst rest) haddress hindex, handedOut_flags]
  rw [isAddressOnly_flags] at hrest
  exact congrArg (fun v => Except.ok (some _, countItem v)) hrest

end Ledger

/-! ## The tables -/

/-- `vmm_alloc_at` needs another container. -/
def isFull (s : VmmTables) : Prop := s.vmm.info.vmmItemsPerPage ≤ s.vmm.info.vmmCurIndex

instance (s : VmmTables) : Decidable s.isFull := inferInstanceAs (Decidable (_ ≤ _))

/-- The page that the first block maps, with its flags. -/
def containerPages (m : PageMode) (s : VmmTables) : List (Nat × Nat) :=
  if s.isFull then [(s.newContainer m, vmmFlagsPresent ||| vmmFlagsWriteEnable)] else []

/-- The flags of the pages of a range, as they get to the mapper. -/
def archFlags (address flags : Nat) : Nat :=
  vmParseFlags (if isAddressHigherHalf address then flags else flags ||| vmmFlagsUserLevel) |||
    vmmFlagsPresent ||| vmmFlagsWriteEnable

/-- The pages that the loop maps. -/
def rangePages (m : PageMode) (address flags n : Nat) : List (Nat × Nat) :=
  (List.range n).map fun i => ((address + i * pageSizeInBytes m) % 2 ^ 64, flags)

section Tables

variable {m : PageMode} {s s' : VmmTables} {address flags n size : Nat} {vm : Vm}

/-- A frame and a mapping are `backPage` on the tables, and nothing to the ledger. -/
theorem back_of (hback : backPage m s.vmm.info.rootTableHhdm s.vm (address, flags) = .ok vm) :
    ∃ u, s.allocFrame.2.map m s.allocFrame.1 address flags = .ok u ∧ u.vm = vm ∧
      u.vmm.info = s.vmm.info := by
  obtain ⟨⟨ret, vm'⟩, hmap, h⟩ := bind_inv hback
  cases h
  refine ⟨⟨s.vmm.map s.allocFrame.1 address flags s.vmm.info.rootTableHhdm, vm⟩, ?_, rfl, rfl⟩
  unfold map
  dsimp only
  -- taking a frame leaves the root pointer alone
  have hmap' : mapPhysToVirtAddrHh m s.allocFrame.2.vm s.allocFrame.1 address flags
      s.allocFrame.2.vmm.info.rootTableHhdm = .ok (ret, vm) := hmap
  rw [hmap', ok_bind]
  rfl

/-- **The loop on the tables.** -/
theorem mapPages_of (hback : (rangePages m address
      (vmParseFlags flags ||| vmmFlagsPresent ||| vmmFlagsWriteEnable) n).foldlM
      (backPage m s.vmm.info.rootTableHhdm) s.vm = .ok vm) :
    ∃ u, s.mapPages m address flags n = .ok u ∧ u.vm = vm ∧ u.vmm.info = s.vmm.info := by
  unfold rangePages at hback
  unfold mapPages
  rw [List.foldlM_map] at hback
  generalize List.range n = pages at hback ⊢
  -- on the pages that are left; the root pointer stays, so each finds the same root
  induction pages generalizing s with
  | nil =>
    cases hback
    exact ⟨s, rfl, rfl, rfl⟩
  | cons i pages ih =>
    rw [List.foldlM_cons] at hback
    obtain ⟨vm₁, hfirst, hback⟩ := bind_inv hback
    obtain ⟨u, hrun, rfl, hinfo⟩ := back_of hfirst
    rw [← hinfo] at hback
    obtain ⟨w, hrest, hvm, hinfo'⟩ := ih hback
    refine ⟨w, ?_, hvm, hinfo'.trans hinfo⟩
    rw [List.foldlM_cons]
    exact (congrArg (· >>= _) hrun).trans hrest

/-- The loop does not touch what the manager knows. -/
theorem mapPages_info (h : s.mapPages m address flags n = .ok s') :
    s'.vmm.info = s.vmm.info := by
  unfold mapPages at h
  generalize List.range n = pages at h
  -- each page only adds to `maps`
  induction pages generalizing s with
  | nil =>
    cases h
    rfl
  | cons i pages ih =>
    rw [List.foldlM_cons] at h
    obtain ⟨u, hmap, h⟩ := bind_inv h
    rw [ih h, map_inv hmap]
    rfl

theorem backRange_info (h : s.backRange m address flags n = .ok s') :
    s'.vmm.info = s.vmm.info := by
  unfold backRange at h
  by_cases honly : isAddressOnly flags = true
  · rw [if_pos honly] at h
    cases h
    rfl
  · rw [if_neg honly] at h
    exact mapPages_info h

/-- NULL means that there is no frame left. -/
theorem allocFrame_zero_iff (hnull : 0 ∉ s.vm.freeTables) :
    s.allocFrame.1 = 0 ↔ s.vm.freeTables = [] := by
  unfold allocFrame newPagetable
  cases hfree : s.vm.freeTables with
  | nil => exact iff_of_true rfl rfl
  | cons t rest =>
    rw [hfree] at hnull
    exact iff_of_false (fun h => hnull (h ▸ List.mem_cons_self)) (List.cons_ne_nil t rest)

/-- The first block on the tables, when there is a frame for the container. -/
theorem ensureContainer_of (hframe : ¬ (s.isFull ∧ s.allocFrame.1 = 0))
    (hback : (s.containerPages m).foldlM (backPage m s.vmm.info.rootTableHhdm) s.vm = .ok vm) :
    ∃ u, s.ensureContainer m = .ok u ∧ u.vm = vm ∧
      u.vmm.info.rootTableHhdm = s.vmm.info.rootTableHhdm ∧
      u.vmm.info.nextAvailableAddress = s.vmm.info.nextAvailableAddress ∧
      (u.vmm.info.vmmCurIndex = 0 ∨ u.vmm.info.vmmCurIndex < s.vmm.info.vmmItemsPerPage) := by
  unfold containerPages at hback
  unfold ensureContainer
  by_cases hfull : s.isFull
  · rw [if_pos hfull] at hback
    rw [if_pos (by exact hfull)]
    dsimp only
    rw [if_neg fun hzero => hframe ⟨hfull, hzero⟩]
    -- one page, that of the container
    rw [List.foldlM_cons] at hback
    obtain ⟨vm₁, hfirst, hback⟩ := bind_inv hback
    cases hback
    obtain ⟨u, hrun, hvm, hinfo⟩ := back_of hfirst
    rw [hrun, ok_bind]
    -- entering it changes the index and the container, but neither the root nor the bump pointer
    refine ⟨_, rfl, hvm, ?_, ?_, Or.inl rfl⟩
    · show u.vmm.info.rootTableHhdm = _
      rw [hinfo]
    · show u.vmm.info.nextAvailableAddress = _
      rw [hinfo]
  · rw [if_neg hfull] at hback
    cases hback
    rw [if_neg (by exact hfull)]
    exact ⟨s, rfl, rfl, rfl, rfl, Or.inr (Nat.lt_of_not_le hfull)⟩

/-- What the first block changes: nothing, or there is one more container. -/
theorem ensureContainer_info {u : VmmTables} (h : s.ensureContainer m = .ok u) :
    u.vmm.info.nextAvailableAddress = s.vmm.info.nextAvailableAddress ∧
      (u.vmm.info = s.vmm.info ∨
        u.vmm.info.vmmNumberOfContainers = s.vmm.info.vmmNumberOfContainers + 1) := by
  unfold ensureContainer at h
  by_cases hfull : s.isFull
  · rw [if_pos (by exact hfull)] at h
    dsimp only at h
    by_cases hzero : s.allocFrame.1 = 0
    · rw [if_pos hzero] at h
      cases h
    rw [if_neg hzero] at h
    obtain ⟨w, hmap, h⟩ := bind_inv h
    cases h
    have hinfo : w.vmm.info = s.vmm.info := by
      rw [map_inv hmap]
      rfl
    refine ⟨?_, Or.inr ?_⟩
    · show w.vmm.info.nextAvailableAddress = _
      rw [hinfo]
    · show w.vmm.info.vmmNumberOfContainers + 1 = _
      rw [hinfo]
  · rw [if_neg (by exact hfull)] at h
    cases h
    exact ⟨rfl, Or.inl rfl⟩

/-- The manager with the range of a call recorded. -/
def recorded (m : PageMode) (size flags : Nat) (s : VmmTables) : VmmTables :=
  let item : VmmItem := ⟨s.vmm.info.nextAvailableAddress, alignValueToPage m size, flags⟩
  { s with vmm := recordItem s.vmm item }

/-- What is left to do after the first block. -/
theorem vmmAlloc_some {u : VmmTables} (hsize : size ≠ 0)
    (hfirst : s.ensureContainer m = .ok u) :
    s.vmmAlloc m size flags =
      if vmmRootLength m ≤ u.vmm.info.vmmCurIndex then .error .outOfBounds
      else (do
        let w ← (u.recorded m size flags).backRange m u.vmm.info.nextAvailableAddress
          (if isAddressHigherHalf u.vmm.info.nextAvailableAddress then flags
            else flags ||| vmmFlagsUserLevel) (getNumberOfPagesFromSize m size)
        .ok (some (handedOut u.vmm.info.nextAvailableAddress flags),
          { w with vmm := countItem w.vmm })) := by
  -- no base address is asked for
  have haddress : addressToReturn m 0 u.vmm = .ok u.vmm.info.nextAvailableAddress :=
    if_neg fun h => h.1 rfl
  unfold vmmAlloc vmmAllocAt
  rw [if_neg hsize, hfirst, ok_bind]
  dsimp only
  rw [haddress, ok_bind, handedOut_flags]
  rfl

/-- **A call on the tables.** The pages that it backs, one after the other. -/
theorem vmmAlloc_of (hsize : size ≠ 0) (honly : isAddressOnly flags = false)
    (hframe : ¬ (s.isFull ∧ s.allocFrame.1 = 0))
    (hitems : s.vmm.info.vmmItemsPerPage = vmmRootLength m)
    (hback : (s.containerPages m ++ rangePages m s.vmm.info.nextAvailableAddress
      (archFlags s.vmm.info.nextAvailableAddress flags) (getNumberOfPagesFromSize m size)).foldlM
      (backPage m s.vmm.info.rootTableHhdm) s.vm = .ok vm) :
    ∃ u, s.vmmAlloc m size flags =
      .ok (some (handedOut s.vmm.info.nextAvailableAddress flags), u) ∧ u.vm = vm := by
  rw [List.foldlM_append] at hback
  obtain ⟨vm₁, hfirst, hback⟩ := bind_inv hback
  obtain ⟨u, hcontainer, rfl, hroot, hnext, hindex⟩ := ensureContainer_of hframe hfirst
  -- a new container is empty, and the old one was not full
  have hroom : ¬ vmmRootLength m ≤ u.vmm.info.vmmCurIndex := by
    have hpos : 0 < vmmRootLength m := by cases m <;> decide
    omega
  rw [← hroot] at hback
  obtain ⟨w, hrun, hvm, -⟩ := mapPages_of (s := u.recorded m size flags) hback
  rw [vmmAlloc_some hsize hcontainer, if_neg hroom, hnext, backRange, isAddressOnly_flags, honly,
    if_neg Bool.false_ne_true, hrun, ok_bind]
  exact ⟨_, rfl, hvm⟩

/-- **What a call returns**, whatever became of its pages. The ledger has changed. -/
theorem vmmAlloc_inv {ret : Option Nat} (hsize : size ≠ 0)
    (hrun : s.vmmAlloc m size flags = .ok (ret, s')) :
    ret = some (handedOut s.vmm.info.nextAvailableAddress flags) ∧ s'.vmm.info ≠ s.vmm.info := by
  obtain ⟨u, hfirst⟩ : ∃ u, s.ensureContainer m = .ok u := by
    unfold vmmAlloc vmmAllocAt at hrun
    rw [if_neg hsize] at hrun
    obtain ⟨u, hfirst, -⟩ := bind_inv hrun
    exact ⟨u, hfirst⟩
  obtain ⟨hnext, hchanged⟩ := ensureContainer_info hfirst
  rw [vmmAlloc_some hsize hfirst] at hrun
  by_cases hindex : vmmRootLength m ≤ u.vmm.info.vmmCurIndex
  · rw [if_pos hindex] at hrun
    cases hrun
  rw [if_neg hindex] at hrun
  obtain ⟨w, hback, hrun⟩ := bind_inv hrun
  cases hrun
  refine ⟨by rw [hnext], fun hsame => ?_⟩
  have hinfo : w.vmm.info = (u.recorded m size flags).vmm.info := backRange_info hback
  -- the index of the next item, or the number of containers, has gone up
  have hcount : u.vmm.info.vmmCurIndex + 1 = s.vmm.info.vmmCurIndex := by
    have h := congrArg VmmInfo.vmmCurIndex hsame
    change w.vmm.info.vmmCurIndex + 1 = _ at h
    rwa [hinfo] at h
  have hnumber : u.vmm.info.vmmNumberOfContainers = s.vmm.info.vmmNumberOfContainers := by
    have h := congrArg VmmInfo.vmmNumberOfContainers hsame
    change w.vmm.info.vmmNumberOfContainers = _ at h
    rwa [hinfo] at h
  rcases hchanged with hkept | hmore
  · rw [hkept] at hcount
    omega
  · omega

end Tables

end VmmTables

end Dreamos64
