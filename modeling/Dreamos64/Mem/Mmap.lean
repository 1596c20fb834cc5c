import Dreamos64.Lib.Exec

/-!
# Dreamos64 — the boot loader's memory map

The parts of `mmap.c` that only read: parsing the multiboot memory map, finding
room for the frame bitmap, and the test that early page tables are placed by.
Addresses and lengths are `uint64_t` and wrap at `2 ^ 64`.
-/

namespace Dreamos64

open Machine

/-- `multiboot_memory_map_t`. -/
structure MmapEntry where
  addr : Nat
  len  : Nat
  type : Nat
  deriving DecidableEq, Repr, Inhabited

/-- `_MMAP_AVAILABLE`. -/
def mmapAvailable : Nat := 1

/-- The globals that `_mmap_parse` fills in. -/
structure Mmap where
  mmapEntries          : List MmapEntry
  mmapLastAvailableItem : Nat
  mmapPhysMemoryAvail  : Nat
  deriving DecidableEq, Repr

/-- `_mmap_parse`. -/
def mmapParse (entries : List MmapEntry) : Mmap :=
  entries.zipIdx.foldl
    (fun p (e, i) =>
      if e.type = mmapAvailable then
        { p with mmapPhysMemoryAvail := (p.mmapPhysMemoryAvail + e.len) % 2 ^ 64
                 mmapLastAvailableItem := i }
      else p)
    { mmapEntries := entries, mmapLastAvailableItem := 0, mmapPhysMemoryAvail := 0 }

/-- `upper_address_to_map`: the end of the last available entry. -/
def Mmap.upperAddressToMap (p : Mmap) : Nat :=
  let last := p.mmapEntries.getD p.mmapLastAvailableItem default
  (last.addr + last.len) % 2 ^ 64

/-- What the boot loader left in memory: the extent of its tags and its modules. -/
structure Multiboot where
  multibootTagStart : Nat
  multibootTagEnd   : Nat
  modules           : List (Nat × Nat)
  deriving DecidableEq, Repr

/-- `_is_address_in_multiboot`. -/
def isAddressInMultiboot (mb : Multiboot) (address : Nat) : Bool :=
  mb.modules.any fun (modStart, modEnd) => modStart ≤ address ∧ address ≤ modEnd

/-- `_mmap_is_address_in_available_space`. Only the first available entry that
ends late enough is looked at. -/
def mmapIsAddressInAvailableSpace (mb : Multiboot) (entries : List MmapEntry)
    (address upperLimit : Nat) : Bool :=
  let limit := (address + upperLimit) % 2 ^ 64
  -- inside the tags, or across one of their ends
  if address > mb.multibootTagStart ∧ limit < mb.multibootTagEnd then false
  else if limit > mb.multibootTagStart ∧ address < mb.multibootTagEnd then false
  else
    -- where the entry begins does not matter
    match entries.find? fun e => (e.addr + e.len) % 2 ^ 64 > limit ∧ e.type = mmapAvailable with
    | none => false
    | some _ => !isAddressInMultiboot mb address

/-- `_mmap_determine_bitmap_region`: the first place above `lowerLimit` in an
available entry with room for `bytesNeeded` bytes. Without one the code logs a
fatal message, which stops the machine. -/
def mmapDetermineBitmapRegion (lowerLimit bytesNeeded : Nat) : List MmapEntry → Exec Nat
  | [] => .error .halted
  | e :: rest =>
    if e.type ≠ mmapAvailable then mmapDetermineBitmapRegion lowerLimit bytesNeeded rest
    else if (e.addr + e.len) % 2 ^ 64 < lowerLimit then
      mmapDetermineBitmapRegion lowerLimit bytesNeeded rest
    else
      -- what of the entry lies above `lowerLimit`
      let entryOffset := if lowerLimit > e.addr then lowerLimit - e.addr else 0
      let actualAvailableSpace := (e.len + 2 ^ 64 - entryOffset) % 2 ^ 64
      if actualAvailableSpace ≥ bytesNeeded then .ok ((e.addr + entryOffset) % 2 ^ 64)
      else mmapDetermineBitmapRegion lowerLimit bytesNeeded rest

end Dreamos64
