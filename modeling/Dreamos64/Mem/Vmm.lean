import Dreamos64.Arch.PageTable

/-!
# Dreamos64 — the virtual memory manager

`vmm_init`, `vmm_alloc_at` and `vmm_alloc` of `vmm.c` on one `VmmInfo`. Addresses
are handed out from a bump pointer and recorded in `VmmContainer`s, pages of the
kernel's address space that are linked in a list; `Vmm.container` is the memory
seen as containers, indexed by the address a container starts at.

The two things the manager calls are kept apart from its own state: `frames` lists
what `pmm_alloc_frame` will return, and then NULL, and `maps` collects the calls of
`map_phys_to_virt_addr_hh`. The code reads no result of them but the NULL that it
checks for when it needs a container.
-/

namespace Dreamos64

open Machine

-- constants of `vmm.h` and `thread.h`

def vmKernelMemoryPadding : PageMode → Nat := pageSizeInBytes
def vmmReservedSpaceSize : Nat := 0x14200000000
def threadDefaultStackSize : Nat := 0x10000

/-- `VmmItem`. -/
structure VmmItem where
  base  : Nat
  size  : Nat
  flags : Nat
  deriving DecidableEq, Repr

def sizeofVmmItem : Nat := 24

/-- The number of items in `vmm_root`. -/
def vmmRootLength (m : PageMode) : Nat := pageSizeInBytes m / sizeofVmmItem - 1

/-- `VmmContainer`. -/
structure VmmContainer where
  vmmRoot           : Nat → VmmItem
  vmmItemsAvailable : Nat
  next              : Option Nat

def sizeofVmmContainer (m : PageMode) : Nat := vmmRootLength m * sizeofVmmItem + 16

/-- `VmmInfo`, with the fields of its `status`. -/
structure VmmInfo where
  vmmDataStart          : Nat
  vmmSpaceStart         : Nat
  startOfVmmSpace       : Nat
  rootTableHhdm         : Option Nat
  vmmItemsPerPage       : Nat
  vmmCurIndex           : Nat
  nextAvailableAddress  : Nat
  vmmNumberOfContainers : Nat
  endOfVmmData          : Nat
  vmmContainerRoot      : Nat
  vmmCurContainer       : Nat
  deriving DecidableEq, Repr

inductive VmmLevel where
  | user
  | supervisor
  deriving DecidableEq, Repr

/-- A call of `map_phys_to_virt_addr_hh`. -/
structure VmmMapping where
  physicalAddress : Nat
  address         : Nat
  flags           : Nat
  root            : Option Nat
  deriving DecidableEq, Repr

structure Vmm where
  info      : VmmInfo
  container : Nat → VmmContainer
  frames    : List Nat
  maps      : List VmmMapping

namespace Vmm

/-- Assign to the container at `a`. -/
def write (s : Vmm) (a : Nat) (f : VmmContainer → VmmContainer) : Vmm :=
  { s with container := Function.update s.container a (f (s.container a)) }

/-- `pmm_alloc_frame`; 0 is NULL. -/
def allocFrame (s : Vmm) : Nat × Vmm :=
  match s.frames with
  | [] => (0, s)
  | frame :: rest => (frame, { s with frames := rest })

def map (s : Vmm) (physicalAddress address flags : Nat) (root : Option Nat) : Vmm :=
  { s with maps := s.maps ++ [⟨physicalAddress, address, flags, root⟩] }

end Vmm

/-- Where `vmm_init` puts the first container. -/
def vmmDataStart (m : PageMode) (memorySizeInBytes : Nat) : Nat :=
  alignValueToPage m
    ((higherHalfDirectMapBase m + memorySizeInBytes + vmKernelMemoryPadding m) % 2 ^ 64)

/-- Where `vmm_init` lets the space begin that addresses are handed out from. -/
def startOfSpace (m : PageMode) (dataStart : Nat) : VmmLevel → Nat
  | .supervisor => (dataStart + vmmReservedSpaceSize + vmKernelMemoryPadding m) % 2 ^ 64
  | .user => vmKernelMemoryPadding m

/-- `vmm_init`. `root` is the table it maps its first container in: that of
`kernel_settings` for the kernel's own `VmmInfo`, `root_table_hhdm` for a task's. -/
def vmmInit (m : PageMode) (level : VmmLevel) (memorySizeInBytes : Nat) (root : Option Nat)
    (s : Vmm) : Vmm :=
  let dataStart := alignValueToPage m
    ((higherHalfDirectMapBase m + memorySizeInBytes + vmKernelMemoryPadding m) % 2 ^ 64)
  let spaceStart := startOfSpace m dataStart level
  let s := { s with info := { s.info with
    vmmDataStart := dataStart
    vmmContainerRoot := dataStart
    -- computed from the global `vmm_container_root`, which nothing sets
    endOfVmmData := vmmReservedSpaceSize
    vmmSpaceStart := spaceStart
    startOfVmmSpace := spaceStart
    nextAvailableAddress := spaceStart
    vmmItemsPerPage := pageSizeInBytes m / sizeofVmmItem - 1
    vmmCurIndex := 0 } }
  match s.frames with
  | [] => s
  | vmmRootPhys :: rest =>
    let s := { s with frames := rest }
    -- mapped first: the writes below go through `vmm_container_root`
    let s := s.map vmmRootPhys dataStart (vmmFlagsPresent ||| vmmFlagsWriteEnable) root
    let s := s.write dataStart fun c =>
      { c with next := none, vmmItemsAvailable := s.info.vmmItemsPerPage }
    { s with info := { s.info with vmmNumberOfContainers := 1, vmmCurContainer := dataStart } }

/-- Where `vmm_alloc_at` puts the next container: two pages behind the current one, so that the
page between them is skipped. -/
def newContainer (m : PageMode) (s : Vmm) : Nat :=
  alignValueToPage m
    ((s.info.vmmCurContainer + sizeofVmmContainer m + pageSizeInBytes m) % 2 ^ 64)

/-- The writes that make the container at `new` the current one. -/
def enterContainer (s : Vmm) (new : Nat) : Vmm :=
  let cur := s.info.vmmCurContainer
  let s := s.write new fun c =>
    { c with next := none, vmmItemsAvailable := s.info.vmmItemsPerPage }
  let s := s.write cur fun c => { c with next := some new }
  { s with info := { s.info with
    vmmCurIndex := 0
    vmmCurContainer := new
    vmmNumberOfContainers := s.info.vmmNumberOfContainers + 1 } }

/-- The first block of `vmm_alloc_at`: another container when the current one is full. That there
is no frame for it is `Fatal`, and the `return NULL` behind that message is not reached. -/
def ensureContainer (m : PageMode) (s : Vmm) : Exec Vmm :=
  if s.info.vmmItemsPerPage ≤ s.info.vmmCurIndex then
    match s.frames with
    | [] => .error .halted
    | frame :: rest =>
      let new := newContainer m s
      let s := { s with frames := rest }
      .ok (enterContainer
        (s.map frame new (vmmFlagsPresent ||| vmmFlagsWriteEnable) s.info.rootTableHhdm) new)
  else .ok s

/-- Where the range of a call begins. A base address that is not above the bump pointer is
ignored; one that is above it and not on a page boundary is `Fatal`. -/
def addressToReturn (m : PageMode) (baseAddress : Nat) (s : Vmm) : Exec Nat :=
  if baseAddress ≠ 0 ∧ s.info.nextAvailableAddress < baseAddress then
    if isAddressAligned baseAddress (pageSizeInBytes m) then .ok baseAddress
    else .error .halted
  else .ok s.info.nextAvailableAddress

/-- The item at `vmm_cur_index`, and the bump pointer behind it. -/
def recordItem (s : Vmm) (item : VmmItem) : Vmm :=
  let s := s.write s.info.vmmCurContainer fun c =>
    { c with
      vmmRoot := Function.update c.vmmRoot s.info.vmmCurIndex item
      vmmItemsAvailable := (c.vmmItemsAvailable + 2 ^ 64 - 1) % 2 ^ 64 }
  { s with info := { s.info with nextAvailableAddress := (item.base + item.size) % 2 ^ 64 } }

/-- The loop that backs the pages with frames. It does not look at what
`pmm_alloc_frame` returns. -/
def mapPages (m : PageMode) (address flags requiredPages : Nat) (s : Vmm) : Vmm :=
  (List.range requiredPages).foldl (fun s i =>
    let (frame, s) := s.allocFrame
    s.map frame ((address + i * pageSizeInBytes m) % 2 ^ 64)
      (vmParseFlags flags ||| vmmFlagsPresent ||| vmmFlagsWriteEnable) s.info.rootTableHhdm) s

def isAddressOnly (flags : Nat) : Bool := flags &&& vmmFlagsAddressOnly ≠ 0

def isAddressStack (flags : Nat) : Bool := flags &&& vmmFlagsStack ≠ 0

/-- The address that is returned for a range. A stack grows down from its end. -/
def handedOut (address flags : Nat) : Nat :=
  if isAddressStack flags then (address + threadDefaultStackSize) % 2 ^ 64 else address

/-- `vmm_cur_index++`. -/
def countItem (s : Vmm) : Vmm :=
  { s with info := { s.info with vmmCurIndex := s.info.vmmCurIndex + 1 } }

/-- `vmm_alloc_at`: the address (or NULL) and the manager afterwards. -/
def vmmAllocAt (m : PageMode) (baseAddress size flags : Nat) (s : Vmm) :
    Exec (Option Nat × Vmm) :=
  if size = 0 then .ok (none, s)
  else do
    let s ← ensureContainer m s
    let newSize := alignValueToPage m size
    let address ← addressToReturn m baseAddress s
    -- `vmm_root` ends here
    if vmmRootLength m ≤ s.info.vmmCurIndex then .error .outOfBounds
    else
      let s := recordItem s ⟨address, newSize, flags⟩
      -- the item keeps the flags of the call, without the user bit
      let flags := if isAddressHigherHalf address then flags else flags ||| vmmFlagsUserLevel
      let s := if isAddressOnly flags then s
        else mapPages m address flags (getNumberOfPagesFromSize m size) s
      .ok (some (handedOut address flags), countItem s)

/-- `vmm_alloc`. -/
def vmmAlloc (m : PageMode) (size flags : Nat) (s : Vmm) : Exec (Option Nat × Vmm) :=
  vmmAllocAt m 0 size flags s

section Calls

variable {m : PageMode} {s u : Vmm} {address baseAddress size : Nat}

/-- The user bit of a range in the lower half leaves the other flags as they are. -/
theorem userFlags_and (address flags : Nat) {bit : Nat} (hbit : vmmFlagsUserLevel &&& bit = 0) :
    (if isAddressHigherHalf address then flags else flags ||| vmmFlagsUserLevel) &&& bit =
      flags &&& bit := by
  split_ifs
  · rfl
  · rw [Nat.and_or_distrib_right, hbit, Nat.or_zero]

theorem isAddressOnly_flags (address flags : Nat) :
    isAddressOnly (if isAddressHigherHalf address then flags else flags ||| vmmFlagsUserLevel) =
      isAddressOnly flags := by
  rw [isAddressOnly, isAddressOnly, userFlags_and address flags rfl]

theorem handedOut_flags (address flags : Nat) :
    handedOut address (if isAddressHigherHalf address then flags else flags ||| vmmFlagsUserLevel) =
      handedOut address flags := by
  rw [handedOut, handedOut, isAddressStack, isAddressStack, userFlags_and address flags rfl]

/-- A call for no bytes returns NULL. -/
theorem vmmAllocAt_zero (hsize : size = 0) (flags : Nat) :
    vmmAllocAt m baseAddress size flags s = .ok (none, s) := if_pos hsize

/-- What is left to do once there is a container, and an address. -/
theorem vmmAllocAt_some (flags : Nat) (hsize : size ≠ 0) (hfirst : ensureContainer m s = .ok u)
    (haddress : addressToReturn m baseAddress u = .ok address)
    (hindex : ¬ vmmRootLength m ≤ u.info.vmmCurIndex) :
    vmmAllocAt m baseAddress size flags s = .ok (some (handedOut address flags),
      countItem (if isAddressOnly flags then recordItem u ⟨address, alignValueToPage m size, flags⟩
        else mapPages m address
          (if isAddressHigherHalf address then flags else flags ||| vmmFlagsUserLevel)
          (getNumberOfPagesFromSize m size)
          (recordItem u ⟨address, alignValueToPage m size, flags⟩))) := by
  unfold vmmAllocAt
  rw [if_neg hsize, hfirst, ok_bind]
  dsimp only
  rw [haddress, ok_bind, if_neg hindex, isAddressOnly_flags, handedOut_flags]

theorem addressToReturn_eq
    (haligned : s.info.nextAvailableAddress < baseAddress → pageSizeInBytes m ∣ baseAddress) :
    addressToReturn m baseAddress s = .ok (max baseAddress s.info.nextAvailableAddress) := by
  unfold addressToReturn
  by_cases habove : baseAddress ≠ 0 ∧ s.info.nextAvailableAddress < baseAddress
  · have hmod : isAddressAligned baseAddress (pageSizeInBytes m) = true :=
      decide_eq_true (Nat.mod_eq_zero_of_dvd (haligned habove.2))
    rw [if_pos habove, if_pos hmod, Nat.max_eq_left (Nat.le_of_lt habove.2)]
  · rw [if_neg habove, Nat.max_eq_right (by omega)]

end Calls

end Dreamos64
