import Dreamos64.Lib.BitRows
import Dreamos64.Mem.Mmap
import Dreamos64.Mem.VmmUtil

/-!
# Dreamos64 — the frame bitmap

`bitmap.c`: one bit per physical frame, 64 to a row, set when the frame is in
use. `memoryMap` is the array the global points to; an access past its last row
is an error. The two searches count rows in a `uint16_t`, which wraps before it
can reach a `number_of_entries` above 65535; they are loops with fuel.

A row equal to `BITMAP_ENTRY_FULL` is skipped by both searches. The constant has
fifteen `f`s, so the row that is skipped is one whose four highest frames are
free.
-/

namespace Dreamos64

open Machine

/-- The globals of `bitmap.c`. -/
structure Bitmap where
  memoryMap         : List (BitVec 64)
  numberOfEntries   : Nat
  bitmapSize        : Nat
  usedFrames        : Nat
  memoryMapPhysAddr : Nat
  deriving DecidableEq, Repr

def bitmapEntryFull : BitVec 64 := 0xfffffffffffffff#64

def bitmapRowBits : Nat := 64

/-- Both searches count rows in a `uint16_t`. -/
def nextRow (row : Nat) : Nat := (row + 1) % 2 ^ 16

/-- The test `(memory_map[row] & (ONE_64B << column)) == 0`. -/
def columnFree (bits : BitVec 64) (column : Nat) : Bool :=
  bits &&& 1#64 <<< column = 0#64

/-- One turn of the row loop of `_bitmap_request_frame`. -/
def requestFrameBody (b : Bitmap) (row : Nat) : Exec (LoopStep Nat Int) :=
  if row < b.numberOfEntries then
    match b.memoryMap[row]? with
    | none => .error .outOfBounds
    | some bits =>
      if bits ≠ bitmapEntryFull then
        -- `BITMAP_ENTRY_FULL` has 60 bits, so a row that is full may get here too
        match (List.range bitmapRowBits).find? (columnFree bits) with
        | some column => .ok (.done (row * bitmapRowBits + column : Nat))
        | none => .ok (.next (nextRow row))
      else .ok (.next (nextRow row))
  else .ok (.done (-1))

/-- `_bitmap_request_frame`. -/
def bitmapRequestFrame (fuel : Nat) (b : Bitmap) : Exec Int :=
  loop (requestFrameBody b) fuel 0

/-- The locals of `_bitmap_request_frames` that survive a row. -/
structure FrameSearch where
  adjacentsFound : Nat
  startRow       : Nat
  startColumn    : Nat
  deriving DecidableEq, Repr

/-- The column loop of `_bitmap_request_frames`. -/
def scanColumns (numberOfFrames row : Nat) (bits : BitVec 64) :
    List Nat → FrameSearch → LoopStep FrameSearch Int
  | [], s => .next s
  | column :: columns, s =>
    if columnFree bits column then
      -- the first column of a run is kept until the run breaks
      let s := if s.adjacentsFound = 0 then { s with startRow := row, startColumn := column } else s
      let s := { s with adjacentsFound := (s.adjacentsFound + 1) % 2 ^ 64 }
      if s.adjacentsFound = numberOfFrames then
        .done (s.startRow * bitmapRowBits + s.startColumn : Nat)
      else scanColumns numberOfFrames row bits columns s
    else scanColumns numberOfFrames row bits columns { s with adjacentsFound := 0 }

/-- One turn of the row loop of `_bitmap_request_frames`. -/
def requestFramesBody (b : Bitmap) (numberOfFrames : Nat) :
    Nat × FrameSearch → Exec (LoopStep (Nat × FrameSearch) Int)
  | (row, s) =>
    if row < b.numberOfEntries then
      match b.memoryMap[row]? with
      | none => .error .outOfBounds
      | some bits =>
        if bits ≠ bitmapEntryFull then
          match scanColumns numberOfFrames row bits (List.range bitmapRowBits) s with
          | .done frame => .ok (.done frame)
          | .next s => .ok (.next (nextRow row, s))
        -- a skipped row leaves `adjacents_found` as it is
        else .ok (.next (nextRow row, s))
    else .ok (.done (-1))

/-- `_bitmap_request_frames`. -/
def bitmapRequestFrames (fuel numberOfFrames : Nat) (b : Bitmap) : Exec Int :=
  loop (requestFramesBody b numberOfFrames) fuel
    (0, { adjacentsFound := 0, startRow := 0, startColumn := 0 })

-- `_bitmap_set_bit`, `_bitmap_free_bit` and `_bitmap_test_bit`

def bitmapSetBit (location : Nat) (b : Bitmap) : Exec Bitmap :=
  if location / bitmapRowBits < b.memoryMap.length then
    .ok { b with memoryMap := BitRows.set b.memoryMap location }
  else .error .outOfBounds

def bitmapFreeBit (location : Nat) (b : Bitmap) : Exec Bitmap :=
  if location / bitmapRowBits < b.memoryMap.length then
    .ok { b with memoryMap := BitRows.clear b.memoryMap location }
  else .error .outOfBounds

def bitmapTestBit (location : Nat) (b : Bitmap) : Exec Bool :=
  if location / bitmapRowBits < b.memoryMap.length then
    .ok (BitRows.test b.memoryMap location)
  else .error .outOfBounds

/-- `_compute_kernel_entries`. -/
def computeKernelEntries (m : PageMode) (endOfKernelArea : Nat) : Nat :=
  let kernelEntries := endOfKernelArea / pageSizeInBytes m % 2 ^ 32
  let kernelModEntries := endOfKernelArea % 2 ^ 32 % pageSizeInBytes m
  -- one entry more than the kernel needs
  if kernelModEntries ≠ 0 then (kernelEntries + 2) % 2 ^ 32 else (kernelEntries + 1) % 2 ^ 32

/-- The rows after the three loops of `_initialize_bitmap`: full below the row of
`kernelEntries`, that row filled up to it, zero above. -/
def initialRows (numberOfEntries kernelEntries : Nat) : List (BitVec 64) :=
  let numberOfBitmapRows := kernelEntries / bitmapRowBits
  (List.range numberOfEntries).map fun j =>
    if j < numberOfBitmapRows then ~~~0#64
    else if j = numberOfBitmapRows then
      ~~~(~~~0#64 <<< (kernelEntries - numberOfBitmapRows * bitmapRowBits))
    else 0#64

/-- `_initialize_bitmap`. The address of the region is kept in a local variable
that hides the global `memory_map_phys_addr`, so the global does not change. -/
def initializeBitmap (m : PageMode) (entries : List MmapEntry)
    (memorySizeInBytes memorySize endOfReservedArea : Nat) (b : Bitmap) : Exec Bitmap := do
  let bitmapSize := (memorySize / pageSizeInBytes m + 1) % 2 ^ 32
  let numberOfEntries := bitmapSize / 64 + 1
  let memoryMapPhysAddr ←
    mmapDetermineBitmapRegion endOfReservedArea (bitmapSize / 8 + 1) entries
  -- `hhdm_get_variable` gives NULL for an address it does not cover
  if memorySizeInBytes ≤ memoryMapPhysAddr then .error .nullPointer
  else
    let kernelEntries := computeKernelEntries m endOfReservedArea
    if numberOfEntries ≤ kernelEntries / bitmapRowBits then .error .outOfBounds
    else .ok { b with
      memoryMap := initialRows numberOfEntries kernelEntries
      numberOfEntries := numberOfEntries
      bitmapSize := bitmapSize
      usedFrames := kernelEntries }

/-- `_bitmap_get_region` for `ADDRESS_TYPE_PHYSICAL`: base address and length. -/
def bitmapGetRegion (b : Bitmap) : Nat × Nat :=
  (b.memoryMapPhysAddr, b.bitmapSize / 8 + 1)

end Dreamos64
