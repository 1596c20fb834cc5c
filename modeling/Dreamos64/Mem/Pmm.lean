import Dreamos64.Mem.Bitmap

/-!
# Dreamos64 — the physical memory manager

`pmm.c`, and `_mmap_setup` of `mmap.c`, which calls back into it. Allocation and
release act on the globals of `bitmap.c`; `pmm_setup` also reads the memory map.
NULL is the address 0, which is also the address of frame 0. `used_frames` is a
`uint32_t`. The spinlock is not modelled: every operation runs alone.
-/

namespace Dreamos64

open Machine

/-- `pmm_check_frame_availability`. -/
def pmmCheckFrameAvailability (b : Bitmap) : Bool := b.usedFrames < b.bitmapSize

/-- `used_frames += n` and `used_frames--` in a `uint32_t`. -/
def Bitmap.addUsed (b : Bitmap) (n : Nat) : Bitmap :=
  { b with usedFrames := (b.usedFrames + n) % 2 ^ 32 }

def Bitmap.dropUsed (b : Bitmap) : Bitmap :=
  { b with usedFrames := (b.usedFrames + 2 ^ 32 - 1) % 2 ^ 32 }

/-- A search result as the callers keep it, in a `uint64_t`. -/
def asUint64 (frame : Int) : Nat := (frame % 2 ^ 64).toNat

/-- `pmm_alloc_frame`: the address, or 0. -/
def pmmAllocFrame (m : PageMode) (fuel : Nat) (b : Bitmap) : Exec (Nat × Bitmap) :=
  if !pmmCheckFrameAvailability b then .ok (0, b)
  else do
    -- a search that fails gives -1, which is a large `uint64_t`
    let frame := asUint64 (← bitmapRequestFrame fuel b)
    if frame > 0 then
      let b ← bitmapSetBit frame b
      .ok (frame * pageSizeInBytes m % 2 ^ 64, b.addUsed 1)
    else .ok (0, b)

/-- The loop of `pmm_alloc_area`: set `n` bits from `location` on. -/
def setBits (location : Nat) : Nat → Bitmap → Exec Bitmap
  | 0, b => .ok b
  | n + 1, b => do
    let b ← bitmapSetBit (location % 2 ^ 64) b
    setBits (location + 1) n b

/-- `pmm_alloc_area`. The result of the search is not checked. -/
def pmmAllocArea (m : PageMode) (fuel size : Nat) (b : Bitmap) : Exec (Nat × Bitmap) :=
  let requestedFrames := getNumberOfPagesFromSize m size
  if !pmmCheckFrameAvailability b then .ok (0, b)
  else do
    -- `//TODO: Add error check` stands here in the source
    let frames := asUint64 (← bitmapRequestFrames fuel requestedFrames b)
    let b ← setBits frames requestedFrames b
    .ok (frames * pageSizeInBytes m % 2 ^ 64, b.addUsed requestedFrames)

/-- `pmm_free_frame`. -/
def pmmFreeFrame (m : PageMode) (address : Nat) (b : Bitmap) : Exec Bitmap := do
  let b ← bitmapFreeBit (address / pageSizeInBytes m) b
  .ok b.dropUsed

/-- `number_of_frames` of `pmm_reserve_area` and `pmm_free_area`, a `uint32_t`. -/
def areaFrames (m : PageMode) (size : Nat) : Nat :=
  if size % pageSizeInBytes m ≠ 0 then (size / pageSizeInBytes m % 2 ^ 32 + 1) % 2 ^ 32
  else size / pageSizeInBytes m % 2 ^ 32

/-- The loop of `pmm_reserve_area`: it moves on only from a bit it sets. -/
def reserveBits : Nat → Nat → Bitmap → Exec Bitmap
  | 0, _, b => .ok b
  | n + 1, location, b => do
    -- `location++` is in the branch of a clear bit only
    if !(← bitmapTestBit location b) then
      let b ← bitmapSetBit location b
      reserveBits n (location + 1) (b.addUsed 1)
    else reserveBits n location b

/-- `pmm_reserve_area`. -/
def pmmReserveArea (m : PageMode) (startingAddress size : Nat) (b : Bitmap) : Exec Bitmap :=
  reserveBits (areaFrames m size) (startingAddress / pageSizeInBytes m) b

/-- The loop of `pmm_free_area`: `location` stays where it is. -/
def freeBits (location : Nat) : Nat → Bitmap → Exec Bitmap
  | 0, b => .ok b
  | n + 1, b => do
    let b ← bitmapFreeBit location b
    freeBits location n b.dropUsed

/-- The check of `pmm_free_area`: the area starts in one of the first
`count_physical_reserved` entries of the memory map. -/
def isReservedStart (entries : List MmapEntry) (countPhysicalReserved startingAddress : Nat) :
    Bool :=
  (entries.take countPhysicalReserved).any fun e =>
    e.addr ≤ startingAddress ∧ startingAddress < (e.addr + e.len) % 2 ^ 64

/-- `pmm_free_area`. -/
def pmmFreeArea (m : PageMode) (entries : List MmapEntry) (countPhysicalReserved : Nat)
    (startingAddress size : Nat) (b : Bitmap) : Exec Bitmap :=
  if isReservedStart entries countPhysicalReserved startingAddress then .ok b
  else freeBits (startingAddress / pageSizeInBytes m) (areaFrames m size) b

/-! ## Setup -/

/-- Everything `pmm_setup` reads and writes. -/
structure Pmm where
  bitmap                : Bitmap
  mmap                  : Mmap
  multiboot             : Multiboot
  memorySizeInBytes     : Nat
  countPhysicalReserved : Nat
  anonPhysicalMemoryLoc : Nat
  pmmInitialized        : Bool
  deriving DecidableEq, Repr

def pageDirSize : Nat := 0x1000

/-- The loop of `pmm_prepare_new_pagetable` before the bitmap exists. Every turn
moves up by `PAGE_DIR_SIZE` and only below `memory_size_in_bytes`. -/
def skipUnavailableBody (s : Pmm) (anon : Nat) : Exec (LoopStep Nat Nat) :=
  if !mmapIsAddressInAvailableSpace s.multiboot s.mmap.mmapEntries anon pageDirSize ∧
      anon < s.memorySizeInBytes then
    .ok (.next (anon + pageDirSize))
  else .ok (.done anon)

/-- `pmm_prepare_new_pagetable`. -/
def pmmPrepareNewPagetable (m : PageMode) (fuel : Nat) (s : Pmm) : Exec (Nat × Pmm) :=
  if !s.pmmInitialized then do
    -- the address returned is the one before the last addition
    let anon ← loop (skipUnavailableBody s) (s.memorySizeInBytes / pageDirSize + 2)
      s.anonPhysicalMemoryLoc
    .ok (anon, { s with anonPhysicalMemoryLoc := (anon + pageDirSize) % 2 ^ 64 })
  else do
    let (frame, b) ← pmmAllocFrame m fuel s.bitmap
    .ok (frame, { s with bitmap := b })

/-- `hhdm_map_physical_memory`, seen from the memory manager: the page tables it
asks for. How many these are depends on the tables the boot code left. -/
def hhdmMapPhysicalMemory (m : PageMode) : Nat → Pmm → Exec Pmm
  | 0, s => .ok s
  | tables + 1, s => do
    let (_, s) ← pmmPrepareNewPagetable m 0 s
    hhdmMapPhysicalMemory m tables s

/-- The loop of `_mmap_setup` over the entries. -/
def reserveEntries (m : PageMode) (upperAddressToMap : Nat) :
    List MmapEntry → Bitmap × Nat → Exec (Bitmap × Nat)
  | [], s => .ok s
  | e :: rest, (b, count) =>
    -- `count_physical_reserved` is a `uint8_t`
    if e.addr < upperAddressToMap ∧ e.type > 1 then do
      let b ← pmmReserveArea m e.addr e.len b
      reserveEntries m upperAddressToMap rest (b, (count + 1) % 2 ^ 8)
    else reserveEntries m upperAddressToMap rest (b, count)

/-- `_mmap_setup`. -/
def mmapSetup (m : PageMode) (s : Pmm) : Exec Pmm :=
  -- the entries are reserved only if some frame is taken already
  if s.bitmap.usedFrames > 0 then do
    let (b, count) ← reserveEntries m s.mmap.upperAddressToMap s.mmap.mmapEntries (s.bitmap, 0)
    .ok { s with bitmap := b, countPhysicalReserved := count }
  else .ok { s with countPhysicalReserved := 0 }

/-- `pmm_setup`. `&_kernel_physical_end + PAGE_SIZE_IN_BYTES` is arithmetic on a
`uint64_t *`, hence the factor 8. -/
def pmmSetup (m : PageMode) (kernelPhysicalEnd tables : Nat) (s : Pmm) : Exec Pmm := do
  let anon := alignUp ((kernelPhysicalEnd + 8 * pageSizeInBytes m) % 2 ^ 64) (pageSizeInBytes m)
  let s ← hhdmMapPhysicalMemory m tables { s with anonPhysicalMemoryLoc := anon }
  -- the early tables end at `anon_physical_memory_loc`, and the bitmap goes behind them
  let b ← initializeBitmap m s.mmap.mmapEntries s.memorySizeInBytes s.mmap.mmapPhysMemoryAvail
    ((s.anonPhysicalMemoryLoc + pageSizeInBytes m) % 2 ^ 64) s.bitmap
  -- the bitmap's own frames
  let (bitmapStartAddr, bitmapLength) := bitmapGetRegion b
  let b ← pmmReserveArea m bitmapStartAddr bitmapLength b
  let s ← mmapSetup m { s with bitmap := b }
  .ok { s with pmmInitialized := true }

/-- The globals before `pmm_setup`, after `_mmap_parse`. `memory_size_in_bytes`
is computed from the boot loader's `mem_upper` in 32 bits. -/
def bootPmm (entries : List MmapEntry) (multiboot : Multiboot) (memUpper : Nat) : Pmm where
  bitmap := { memoryMap := [], numberOfEntries := 0, bitmapSize := 0, usedFrames := 0
              memoryMapPhysAddr := 0 }
  mmap := mmapParse entries
  multiboot := multiboot
  memorySizeInBytes := (memUpper + 1024) * 1024 % 2 ^ 32
  countPhysicalReserved := 0
  anonPhysicalMemoryLoc := 0
  pmmInitialized := false

end Dreamos64
