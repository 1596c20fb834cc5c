import Dreamos64.Arch.PageTree
import Dreamos64.Mem.Mmap

/-!
# Dreamos64 — page tables through themselves

`map_phys_to_virt_addr`, `unmap_vaddress` and `is_phyisical_address_mapped` of
`vmm_mapping.c`, and the loop of `hh_direct_map.c` that builds the direct map. Entry 510 of the root
points to the root, so an address made of 510s and the indices of a path is the
address of the table at its end. Which word such an address stands for is up to
the processor's walk, which goes through the very tables that are being changed.

`walk` is that walk: four levels, an entry with bit 7 being a page (in the root
the bit is reserved). CR3 is given by the frame of the root. A walk that meets
an absent entry is stuck like following NULL. `boot.s` sets the bit of CR0 that
holds the kernel to read-only pages, so a store is stuck where an entry on the way
is not writable.
-/

namespace Dreamos64

open Machine TableTree

/-! ## The processor's walk -/

/-- The frame that an entry refers to, bits 12 to 51. -/
def hwFrame (value : Nat) : Nat := value / 4096 % 2 ^ 40

/-- The table that an entry links: it is present and bit 7 is clear. -/
def hwTable (value : Nat) : Option Nat :=
  if value % 2 = 1 ∧ value / 128 % 2 = 0 then some (hwFrame value) else none

/-- `WRITE_BIT` is set. -/
def isWritable (value : Nat) : Bool := value.testBit 1

/-- The byte behind `address` in the page of `2 ^ shift` bytes that an entry maps. -/
def pageByte (shift value address : Nat) : Nat :=
  2 ^ shift * (value / 2 ^ shift % 2 ^ (52 - shift)) + address % 2 ^ shift

structure Translation where
  physical : Nat
  writable : Bool
  deriving DecidableEq, Repr

/-- The walk from a table at a level, 3 being the root's and 0 the page tables'. -/
def walk (s : Vm) (address : Nat) : Nat → Nat → Option Translation
  | 0, table =>
    let value := s.entry table (ptEntry address)
    if value % 2 = 0 then none else some ⟨pageByte 12 value address, isWritable value⟩
  | level + 1, table =>
    let shift := 12 + 9 * (level + 1)
    let value := s.entry table (entryIndex shift address)
    if value % 2 = 0 then none
    else if value / 128 % 2 = 1 then
      if level = 2 then none else some ⟨pageByte shift value address, isWritable value⟩
    else
      (walk s address level (hwFrame value)).map fun t =>
        { t with writable := isWritable value && t.writable }

/-- What an address is translated to, from the root in frame `r`. -/
def translate (s : Vm) (r address : Nat) : Option Translation := walk s address 3 r

/-! ## Pointers to tables -/

/-- The physical address behind a pointer. -/
def resolve (s : Vm) (r address : Nat) : Exec Nat :=
  match translate s r address with
  | none => .error .nullPointer
  | some t => .ok t.physical

/-- Reading `table[i]`. -/
def loadVirtual (s : Vm) (r table : Nat) (i : Fin 512) : Exec Nat := do
  let a ← resolve s r (table + 8 * i)
  .ok (s.memory a)

/-- Writing `table[i]`. -/
def storeVirtual (s : Vm) (r table : Nat) (i : Fin 512) (value : Nat) : Exec Vm :=
  match translate s r (table + 8 * i) with
  | none => .error .nullPointer
  | some t =>
    if t.writable then .ok { s with memory := Function.update s.memory t.physical value }
    else .error .readOnly

/-- `clean_new_table`. -/
def cleanNewTableVirtual (s : Vm) (r tableToClean : Nat) : Exec Vm :=
  (List.finRange vmPagesPerTable).foldlM (fun s i => storeVirtual s r tableToClean i 0) s

def signExtension : Nat := 0xFFFF000000000000

/-- `ENTRIES_TO_ADDRESS`. -/
def entriesToAddress (pml4 pdpr pd pt : Nat) : Nat :=
  pml4 <<< 39 ||| pdpr <<< 30 ||| pd <<< 21 ||| pt <<< 12

/-- `SIGN_EXTENSION | ENTRIES_TO_ADDRESS(..)`. -/
def recursiveAddress (pml4 pdpr pd pt : Fin 512) : Nat :=
  signExtension ||| entriesToAddress pml4 pdpr pd pt

/-! ## The mapper -/

/-- The block that `map_phys_to_virt_addr` repeats at every level: give entry `e`
of `table` a new table if it is not present. `next` is the address at which the
table behind that entry then is. -/
def ensureTable (s : Vm) (r table : Nat) (e : Fin 512) (next userModeStatus : Nat) : Exec Vm := do
  let value ← loadVirtual s r table e
  if value &&& presentBit = 0 then
    let (newTable, s) := newPagetable s
    let s ← storeVirtual s r table e (newTable ||| userModeStatus ||| writeBit ||| presentBit)
    cleanNewTableVirtual s r next
  else .ok s

/-- The last step of `map_phys_to_virt_addr`: write an entry that is not present. -/
def ensureEntry (s : Vm) (r table : Nat) (e : Fin 512) (value : Nat) : Exec Vm := do
  let old ← loadVirtual s r table e
  if old &&& presentBit = 0 then storeVirtual s r table e value else .ok s

/-- `map_phys_to_virt_addr`. -/
def mapPhysToVirtAddr (m : PageMode) (s : Vm) (r physicalAddress address flags : Nat) :
    Exec (Nat × Vm) := do
  let userModeStatus := if isAddressHigherHalf address then 0 else vmmFlagsUserLevel
  let flags := if isAddressHigherHalf address then flags else flags ||| vmmFlagsUserLevel
  let pml4Table := recursiveAddress 510 510 510 510
  let pdprTable := recursiveAddress 510 510 510 (pml4Entry address)
  let pdTable := recursiveAddress 510 510 (pml4Entry address) (pdprEntry address)
  let s ← ensureTable s r pml4Table (pml4Entry address) pdprTable userModeStatus
  let s ← ensureTable s r pdprTable (pdprEntry address) pdTable userModeStatus
  match m with
  | .large =>
    let s ← ensureEntry s r pdTable (pdEntry address)
      (physicalAddress ||| hugepageBit ||| flags ||| userModeStatus)
    .ok (address, s)
  | .small =>
    let ptTable := recursiveAddress 510 (pml4Entry address) (pdprEntry address) (pdEntry address)
    let s ← ensureTable s r pdTable (pdEntry address) ptTable userModeStatus
    let s ← ensureEntry s r ptTable (ptEntry address) (physicalAddress ||| flags)
    .ok (address, s)

/-! ## The unmapper -/

/-- `unmap_vaddress`: its result, the address that it gives `invalidate_page_table`
and the memory after it. -/
def unmapVaddress (m : PageMode) (s : Vm) (r address : Nat) : Exec (Int × Option Nat × Vm) := do
  let pml4E := pml4Entry address
  let pdprE := pdprEntry address
  let pdE := pdEntry address
  let pml4Value ← loadVirtual s r (recursiveAddress 510 510 510 510) pml4E
  if pml4Value &&& presentBit = 0 then .ok (-1, none, s)
  else
    let pdprValue ← loadVirtual s r (recursiveAddress 510 510 510 pml4E) pdprE
    if pdprValue &&& presentBit = 0 then .ok (-1, none, s)
    else
      let pdTable := recursiveAddress 510 510 pml4E pdprE
      let pdValue ← loadVirtual s r pdTable pdE
      if pdValue &&& presentBit = 0 then .ok (-1, none, s)
      else
        match m with
        | .large =>
          let s ← storeVirtual s r pdTable pdE 0
          -- the table, not the page that was in it
          .ok (0, some pdTable, s)
        | .small =>
          let ptTable := recursiveAddress 510 pml4E pdprE pdE
          let ptValue ← loadVirtual s r ptTable (ptEntry address)
          if ptValue &&& presentBit = 0 then .ok (-1, none, s)
          else
            let s ← storeVirtual s r ptTable (ptEntry address) 0
            .ok (0, some address, s)

/-! ## The direct map -/

inductive PhysAddressStatus where
  | notMapped
  | mapped
  | mismatch
  deriving DecidableEq, Repr

/-- `ALIGN_PHYSADDRESS`. -/
def alignPhysaddress (m : PageMode) (address : Nat) : Nat :=
  address / pageSizeInBytes m * pageSizeInBytes m

/-- `is_phyisical_address_mapped`. -/
def isPhyisicalAddressMapped (m : PageMode) (s : Vm) (r physicalAddress virtualAddress : Nat) :
    Exec PhysAddressStatus := do
  let pml4E := pml4Entry virtualAddress
  let pdprE := pdprEntry virtualAddress
  let pdE := pdEntry virtualAddress
  let pml4Value ← loadVirtual s r (recursiveAddress 510 510 510 510) pml4E
  if pml4Value &&& presentBit = 0 then .ok .notMapped
  else
    let pdprValue ← loadVirtual s r (recursiveAddress 510 510 510 pml4E) pdprE
    if pdprValue &&& presentBit = 0 then .ok .notMapped
    else
      let pdValue ← loadVirtual s r (recursiveAddress 510 510 pml4E pdprE) pdE
      if pdValue &&& presentBit = 0 then .ok .notMapped
      else
        match m with
        | .large =>
          if alignPhysaddress m pdValue = alignPhysaddress m physicalAddress then .ok .mapped
          else .ok .mismatch
        | .small =>
          let ptValue ← loadVirtual s r (recursiveAddress 510 pml4E pdprE pdE)
            (ptEntry virtualAddress)
          if ptValue &&& presentBit = 0 then .ok .notMapped
          else if alignPhysaddress m ptValue = alignPhysaddress m physicalAddress then .ok .mapped
          else .ok .mismatch

/-- `_HIGHER_HALF_KERNEL_MEM_START`. -/
def higherHalfKernelMemStart : Nat := 0xFFFFFFFF80000000

/-- One turn of the loop of `hhdm_map_physical_memory`, with its two counters. -/
def hhdmBody (m : PageMode) (r upperAddressToMap : Nat) :
    Nat × Nat × Vm → Exec (LoopStep (Nat × Nat × Vm) Vm)
  | (addressToMap, virtualAddress, s) =>
    if addressToMap < upperAddressToMap then do
      let (_, s) ← mapPhysToVirtAddr m s r addressToMap virtualAddress
        (vmmFlagsPresent ||| vmmFlagsWriteEnable)
      .ok (.next ((addressToMap + pageSizeInBytes m) % 2 ^ 64,
        (virtualAddress + pageSizeInBytes m) % 2 ^ 64, s))
    else .ok (.done s)

/-- `hhdm_map_physical_memory`: `end_of_mapped_memory` and the memory after it. -/
def Vm.hhdmMapPhysicalMemory (m : PageMode) (fuel : Nat) (s : Vm) (r : Nat) (mmap : Mmap)
    (endOfMappedMemory : Nat) : Exec (Nat × Vm) := do
  let endOfMappedPhysicalMemory :=
    (endOfMappedMemory + 2 ^ 64 - higherHalfKernelMemStart) % 2 ^ 64
  let status ← isPhyisicalAddressMapped m s r endOfMappedPhysicalMemory endOfMappedPhysicalMemory
  let endOfMappedMemory :=
    if status = .notMapped then endOfMappedMemory
    else (endOfMappedMemory + pageSizeInBytes m) % 2 ^ 64
  let s ← loop (hhdmBody m r mmap.upperAddressToMap) fuel (0, higherHalfDirectMapBase m, s)
  .ok (endOfMappedMemory, s)

end Dreamos64
