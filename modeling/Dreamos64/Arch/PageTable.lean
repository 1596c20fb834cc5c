import Dreamos64.Lib.Exec
import Dreamos64.Mem.VmmUtil
import Mathlib.Data.List.FinRange

/-!
# Dreamos64 — page tables through the direct map

`vmm_mapping.c`, with the helpers of `vm.c`, `hh_direct_map.c` and `task.c` that
it rests on. Page tables lie in physical memory and are reached through the
higher half direct map: a C pointer is `none` for NULL, or a virtual address,
and following one below the direct map is stuck like following NULL.

Physical memory is a word for every byte address. Addresses stay below
`2 ^ 64`, so pointer arithmetic does not wrap.
-/

namespace Dreamos64

open Machine

/-! ## Constants of `vm.h` and `vmm.h` -/

def presentBit : Nat := 1
def writeBit : Nat := 0b10
def hugepageBit : Nat := 0b10000000
def vmmFlagsPresent : Nat := 1
def vmmFlagsWriteEnable : Nat := 2
def vmmFlagsUserLevel : Nat := 4
def vmmFlagsAddressOnly : Nat := 128
def vmmFlagsStack : Nat := 256
/-- All of `paging_flags_t`. -/
def vmmFlagsAll : Nat :=
  vmmFlagsPresent ||| vmmFlagsWriteEnable ||| vmmFlagsUserLevel ||| vmmFlagsAddressOnly |||
    vmmFlagsStack
abbrev vmPagesPerTable : Nat := 0x200
def vmPageTableBaseAddressMask : Nat := 0xFFFFFFF000
def mmioHigherHalfAddressOffset : Nat := 0xFFFF800000000000
def mmioReservedSpaceSize : Nat := 0x280000000
def higherHalfAddressOffset : Nat := mmioHigherHalfAddressOffset + mmioReservedSpaceSize

/-- `higherHalfDirectMapBase`, as `main.c` sets it: the offset and one page of
padding (`VM_KERNEL_MEMORY_PADDING`). Nothing below depends on its value, which
is kept out of unification. -/
@[irreducible] def higherHalfDirectMapBase (m : PageMode) : Nat :=
  higherHalfAddressOffset + pageSizeInBytes m

/-- A table has entries, so that a numeral can be an index. -/
instance neZero_entries : NeZero 512 := ⟨by decide⟩

/-- Bits `shift .. shift + 8` of an address. -/
def entryIndex (shift address : Nat) : Fin 512 :=
  ⟨address >>> shift % 512, Nat.mod_lt _ (by decide)⟩

/-- `PML4_ENTRY`, `PDPR_ENTRY`, `PD_ENTRY`, `PT_ENTRY`. -/
def pml4Entry : Nat → Fin 512 := entryIndex 39
def pdprEntry : Nat → Fin 512 := entryIndex 30
def pdEntry : Nat → Fin 512 := entryIndex 21
def ptEntry : Nat → Fin 512 := entryIndex 12

/-! ## Memory -/

/-- What the functions below read and write. -/
structure Vm where
  /-- the `uint64_t` at a physical byte address -/
  memory              : Nat → Nat
  memorySizeInBytes   : Nat
  /-- what `pmm_prepare_new_pagetable` will return, in order; then NULL -/
  freeTables          : List Nat
  /-- `kernel_settings.paging.hhdm_page_root_address` -/
  hhdmPageRootAddress : Option Nat

/-- `hhdm_get_variable`. -/
def hhdmGetVariable (m : PageMode) (s : Vm) (physAddress : Nat) : Option Nat :=
  if physAddress < s.memorySizeInBytes then some (physAddress + higherHalfDirectMapBase m) else none

/-- The physical address behind `table[i]`. -/
def wordAt (m : PageMode) (table : Option Nat) (i : Fin 512) : Exec Nat :=
  match table with
  | none => .error .nullPointer
  | some v =>
    if higherHalfDirectMapBase m ≤ v then .ok (v - higherHalfDirectMapBase m + 8 * i)
    else .error .nullPointer

/-- Reading `table[i]`. -/
def load (m : PageMode) (s : Vm) (table : Option Nat) (i : Fin 512) : Exec Nat := do
  let a ← wordAt m table i
  .ok (s.memory a)

/-- Writing `table[i]`. -/
def store (m : PageMode) (s : Vm) (table : Option Nat) (i : Fin 512) (value : Nat) : Exec Vm := do
  let a ← wordAt m table i
  .ok { s with memory := Function.update s.memory a value }

/-- `pmm_prepare_new_pagetable`, seen from the mapper. -/
def newPagetable (s : Vm) : Nat × Vm :=
  match s.freeTables with
  | [] => (0, s)
  | table :: rest => (table, { s with freeTables := rest })

/-- `clean_new_table`. -/
def cleanNewTable (m : PageMode) (s : Vm) (tableToClean : Option Nat) : Exec Vm :=
  (List.finRange vmPagesPerTable).foldlM (fun s i => store m s tableToClean i 0) s

/-- `is_address_higher_half`. -/
def isAddressHigherHalf (address : Nat) : Bool := address.testBit 62

/-! ## Mapping -/

/-- The block that `map_phys_to_virt_addr_hh` repeats at every level: follow
entry `e` of `table`, after giving it a new table if it is not present. -/
def tableFor (m : PageMode) (s : Vm) (table : Option Nat) (e : Fin 512) (userModeStatus : Nat) :
    Exec (Option Nat × Vm) := do
  let value ← load m s table e
  if value &&& presentBit = 0 then
    let (newTable, s) := newPagetable s
    let s ← store m s table e (newTable ||| userModeStatus ||| writeBit ||| presentBit)
    -- the new table is cleaned through the direct map, after it is linked
    let newTableHhdm := hhdmGetVariable m s newTable
    let s ← cleanNewTable m s newTableHhdm
    .ok (newTableHhdm, s)
  else .ok (hhdmGetVariable m s (value &&& vmPageTableBaseAddressMask), s)

/-- `map_phys_to_virt_addr_hh`: `address`, or 0 for NULL. -/
def mapPhysToVirtAddrHh (m : PageMode) (s : Vm) (physicalAddress address flags : Nat)
    (pml4Root : Option Nat) : Exec (Nat × Vm) := do
  -- an address of the lower half is a task's
  let userModeStatus := if isAddressHigherHalf address then 0 else vmmFlagsUserLevel
  let flags := if isAddressHigherHalf address then flags else flags ||| vmmFlagsUserLevel
  -- a NULL root stands for the kernel's own
  let pml4Root := pml4Root.or s.hhdmPageRootAddress
  if pml4Root.isNone then .ok (0, s)
  else
    -- the two levels that both page sizes have
    let (pdprRoot, s) ← tableFor m s pml4Root (pml4Entry address) userModeStatus
    let (pdRoot, s) ← tableFor m s pdprRoot (pdprEntry address) userModeStatus
    match m with
    | .large =>
      let value ← load m s pdRoot (pdEntry address)
      if value &&& presentBit = 0 then
        -- a 2 MiB page ends the walk at the page directory
        let s ← store m s pdRoot (pdEntry address)
          (physicalAddress ||| hugepageBit ||| flags ||| userModeStatus)
        .ok (address, s)
      else .ok (0, s)
    | .small =>
      let (ptTable, s) ← tableFor m s pdRoot (pdEntry address) userModeStatus
      let value ← load m s ptTable (ptEntry address)
      if value &&& presentBit = 0 then
        -- here the user bit comes with `flags` alone
        let s ← store m s ptTable (ptEntry address) (physicalAddress ||| flags)
        .ok (address, s)
      else .ok (0, s)

/-- `unmap_vaddress_hh`. -/
def unmapVaddressHh (m : PageMode) (s : Vm) (address : Nat) (pml4Root : Option Nat) :
    Exec (Int × Vm) := do
  -- unlike the mapper, this one does not fall back on the kernel's root
  if pml4Root.isNone ∨ address = 0 then .ok (-1, s)
  else
    let pml4Value ← load m s pml4Root (pml4Entry address)
    if pml4Value &&& presentBit = 0 then .ok (-1, s)
    else
      let pdprTable := hhdmGetVariable m s (pml4Value &&& vmPageTableBaseAddressMask)
      let pdprValue ← load m s pdprTable (pdprEntry address)
      if pdprValue &&& presentBit = 0 then .ok (-1, s)
      else
        let pdTable := hhdmGetVariable m s (pdprValue &&& vmPageTableBaseAddressMask)
        let pdValue ← load m s pdTable (pdEntry address)
        if pdValue &&& presentBit = 0 then .ok (-1, s)
        else
          match m with
          | .large =>
            -- only the page's entry is cleared: the tables above it stay
            let s ← store m s pdTable (pdEntry address) 0
            .ok (0, s)
          | .small =>
            let ptTable := hhdmGetVariable m s (pdValue &&& vmPageTableBaseAddressMask)
            let ptValue ← load m s ptTable (ptEntry address)
            if ptValue &&& presentBit = 0 then .ok (-1, s)
            else
              let s ← store m s ptTable (ptEntry address) 0
              .ok (0, s)

/-! ## Walking -/

structure VmWalkResults where
  level     : Nat
  pte       : Option Nat
  completed : Bool
  deriving DecidableEq, Repr

/-- `vm_walk_table`. -/
def vmWalkTable (m : PageMode) (s : Vm) (virtualAddress : Nat) (rootTableHhdm : Option Nat) :
    Exec VmWalkResults := do
  let pml4Value ← load m s rootTableHhdm (pml4Entry virtualAddress)
  -- `level` says how far the walk came
  if pml4Value &&& presentBit = 0 then .ok ⟨0, none, false⟩
  else
    let pdprAddr := hhdmGetVariable m s (pml4Value &&& vmPageTableBaseAddressMask)
    let pdprValue ← load m s pdprAddr (pdprEntry virtualAddress)
    if pdprValue &&& presentBit = 0 then .ok ⟨1, none, false⟩
    else
      let pdAddr := hhdmGetVariable m s (pdprValue &&& vmPageTableBaseAddressMask)
      let pdValue ← load m s pdAddr (pdEntry virtualAddress)
      if pdValue &&& presentBit = 0 then .ok ⟨2, none, false⟩
      else
        match m with
        | .large => .ok ⟨2, hhdmGetVariable m s (pdValue &&& vmPageTableBaseAddressMask), true⟩
        | .small =>
          let ptAddr := hhdmGetVariable m s (pdValue &&& vmPageTableBaseAddressMask)
          let tableEntryValue ← load m s ptAddr (ptEntry virtualAddress)
          if tableEntryValue &&& presentBit = 0 then .ok ⟨3, none, false⟩
          else
            .ok ⟨3, hhdmGetVariable m s (tableEntryValue &&& vmPageTableBaseAddressMask), true⟩

/-! ## A task's root table -/

/-- The value `prepare_virtual_memory_environment` gives entry `i` of the root at
`vmRootPageTable`. -/
def taskRootEntry (p4Table : Fin 512 → Nat) (vmRootPageTable : Nat) (i : Fin 512) : Nat :=
  if i.val ≤ 255 then 0
  else if i.val = 510 then vmRootPageTable ||| vmmFlagsPresent ||| vmmFlagsWriteEnable
  else p4Table i

/-- `prepare_virtual_memory_environment`: the lower half empty, the root itself
at entry 510, and the kernel's entries for the rest of the higher half. -/
def prepareVirtualMemoryEnvironment (m : PageMode) (s : Vm) (p4Table : Fin 512 → Nat)
    (vmRootPageTable : Nat) : Exec Vm :=
  let vmRootVaddress := hhdmGetVariable m s vmRootPageTable
  (List.finRange vmPagesPerTable).foldlM
    (fun s i => store m s vmRootVaddress i (taskRootEntry p4Table vmRootPageTable i)) s

end Dreamos64
