import Dreamos64.Lib.Exec
import Dreamos64.Mem.VmmUtil

/-!
# Dreamos64 — the kernel heap

`kheap.c`: a doubly linked list of headers, each in front of the bytes it
describes. `KHeap.node` is the memory seen as headers, indexed by the address a
header starts at; `none` is the NULL pointer, and addresses and sizes wrap at
`2 ^ 64` wherever the source computes them in `uint64_t`.

`vmm_alloc` is the only thing the heap calls. Its results are an input of the
model: `vmmRegions` lists the regions it will hand out, in order, and an empty
list makes it return NULL, which `expand_heap` follows without a check. A call
that returns from a heap with no regions left has therefore not entered
`expand_heap`.
-/

namespace Dreamos64

open Machine

/-- `KHeapMemoryNode`. -/
structure KHeapMemoryNode where
  size   : Nat
  isFree : Bool
  next   : Option Nat
  prev   : Option Nat
  deriving DecidableEq, Repr

-- `sizeof(KHeapMemoryNode)` and the constants of `kheap.h`

def sizeofKHeapMemoryNode : Nat := 32

def heapAllocAlignment : Nat := 0x10

def kheapMinimumAllocableSize : Nat := 0x20

def mergeRight : Nat := 0b01

def mergeLeft : Nat := 0b10

/-- The globals of `kheap.c`, the memory they point into, and the answers
`vmm_alloc` still has to give. -/
structure KHeap where
  node            : Nat → KHeapMemoryNode
  kernelHeapStart : Nat
  kernelHeapEnd   : Nat
  vmmRegions      : List Nat

namespace KHeap

/-- Assign to the node at `a`. -/
def write (h : KHeap) (a : Nat) (f : KHeapMemoryNode → KHeapMemoryNode) : KHeap :=
  { h with node := Function.update h.node a (f (h.node a)) }

-- `a->size = ...`, `a->is_free = ...`, `a->next = ...`, `a->prev = ...`

@[simp] def setSize (h : KHeap) (a : Nat) (size : Nat) : KHeap :=
  h.write a fun n => { n with size := size }

@[simp] def setIsFree (h : KHeap) (a : Nat) (isFree : Bool) : KHeap :=
  h.write a fun n => { n with isFree := isFree }

@[simp] def setNext (h : KHeap) (a : Nat) (next : Option Nat) : KHeap :=
  h.write a fun n => { n with next := next }

@[simp] def setPrev (h : KHeap) (a : Nat) (prev : Option Nat) : KHeap :=
  h.write a fun n => { n with prev := prev }

end KHeap

/-- `initialize_kheap`: one free node at the start of a fresh region. -/
def initializeKheap (m : PageMode) (h : KHeap) : Exec KHeap :=
  match h.vmmRegions with
  | [] => .error .nullPointer
  | start :: rest =>
    let h := { h with kernelHeapStart := start, kernelHeapEnd := start, vmmRegions := rest }
    -- the size does not subtract the header
    let h := h.setSize start (pageSizeInBytes m)
    let h := h.setIsFree start true
    let h := h.setNext start none
    .ok (h.setPrev start none)

def align (size : Nat) : Nat :=
  (size / heapAllocAlignment + 1) * heapAllocAlignment % 2 ^ 64

def computeKheapEnd (h : KHeap) : Nat :=
  (h.kernelHeapEnd + (h.node h.kernelHeapEnd).size + sizeofKHeapMemoryNode) % 2 ^ 64

/-- `can_merge`: bit 0 says that the node can absorb its successor, bit 1 that
its predecessor can absorb it. -/
def canMerge (h : KHeap) (cur : Nat) : Nat :=
  let left := match (h.node cur).prev with
    | none => 0
    | some p =>
      if (h.node p).isFree ∧ (p + sizeofKHeapMemoryNode + (h.node p).size) % 2 ^ 64 = cur
      then mergeLeft else 0
  let right := match (h.node cur).next with
    | none => 0
    | some n =>
      if (h.node n).isFree ∧ (cur + sizeofKHeapMemoryNode + (h.node cur).size) % 2 ^ 64 = n
      then mergeRight else 0
  left ||| right

def mergeMemoryNodes (h : KHeap) (left right : Option Nat) : KHeap :=
  match left, right with
  | some l, some r =>
    if (l + (h.node l).size + sizeofKHeapMemoryNode) % 2 ^ 64 = r then
      -- 1. sum the sizes
      let h := h.setSize l (((h.node l).size + (h.node r).size + sizeofKHeapMemoryNode) % 2 ^ 64)
      -- 2. skip the right node
      let h := h.setNext l (h.node r).next
      -- 3. and link the node after it back to the left one
      match (h.node r).next with
      | none => h
      | some n => h.setPrev n (some l)
    else h
  | _, _ => h

/-- `create_kheap_node`: split `cur` after `size` payload bytes. The header is stored wherever
it falls; on a heap of which only the regions are mapped, `HeapUse.kmalloc` says when that
faults. -/
def createKheapNode (h : KHeap) (cur : Nat) (size : Nat) : KHeap :=
  -- the header of the new node lies behind the payload of `cur`
  let new := (cur + sizeofKHeapMemoryNode + size) % 2 ^ 64
  let h := h.setIsFree new true
  let h := h.setSize new
    (((h.node cur).size + 2 ^ 64 - (size + sizeofKHeapMemoryNode) % 2 ^ 64) % 2 ^ 64)
  let h := h.setPrev new (some cur)
  let h := h.setNext new (h.node cur).next
  let h := match (h.node cur).next with
    | none => h
    | some n => h.setPrev n (some new)
  let h := h.setNext cur (some new)
  -- the new node is the last one if `cur` was
  if cur = h.kernelHeapEnd then { h with kernelHeapEnd := new } else h

/-- `expand_heap`. -/
def expandHeap (m : PageMode) (h : KHeap) (requiredSize : Nat) : Exec KHeap :=
  let numberOfPages := getNumberOfPagesFromSize m requiredSize
  match h.vmmRegions with
  | [] => .error .nullPointer
  | newTail :: rest =>
    let h := { h with vmmRegions := rest }
    let h := h.setNext newTail none
    let h := h.setPrev newTail (some h.kernelHeapEnd)
    let h := h.setSize newTail (pageSizeInBytes m * numberOfPages % 2 ^ 64)
    let h := h.setIsFree newTail true
    let h := h.setNext h.kernelHeapEnd (some newTail)
    let h := { h with kernelHeapEnd := newTail }
    -- `kernel_heap_end` is not moved back when the new tail is absorbed
    if canMerge h newTail &&& mergeLeft ≠ 0 then
      .ok (mergeMemoryNodes h (h.node newTail).prev (some newTail))
    else .ok h

/-- One turn of the `while` loop of `kmalloc`; the loop state is the heap and
`current_node`. -/
def kmallocBody (m : PageMode) (size : Nat) :
    KHeap × Option Nat → Exec (LoopStep (KHeap × Option Nat) (Option Nat × KHeap))
  | (h, none) => .ok (.done (none, h))
  | (h, some cur) =>
    let realSize := align ((size + sizeofKHeapMemoryNode) % 2 ^ 64)
    if (h.node cur).isFree ∧ realSize ≤ (h.node cur).size then
      let h :=
        -- a rest that is too small stays with the payload
        if (h.node cur).size - realSize > kheapMinimumAllocableSize then
          ((createKheapNode h cur realSize).setIsFree cur false).setSize cur realSize
        else h.setIsFree cur false
      .ok (.done (some ((cur + sizeofKHeapMemoryNode) % 2 ^ 64), h))
    else if cur = h.kernelHeapEnd then do
      let h ← expandHeap m h realSize
      -- step back, so that the next node looked at is the one just added
      match (h.node cur).prev with
      | some p => .ok (.next (h, (h.node p).next))
      | none => .ok (.next (h, (h.node cur).next))
    else .ok (.next (h, (h.node cur).next))

/-- `kmalloc`: the payload address (or NULL) and the heap afterwards. -/
def kmalloc (m : PageMode) (fuel size : Nat) (h : KHeap) : Exec (Option Nat × KHeap) :=
  if size = 0 then .ok (none, h)
  else loop (kmallocBody m size) fuel (h, some h.kernelHeapStart)

/-- What `kfree` does with the node it was looking for. -/
def releaseNode (h : KHeap) (cur : Nat) : KHeap :=
  let h := h.setIsFree cur true
  -- decided once, before either merge
  let availableMerges := canMerge h cur
  let h := if availableMerges &&& mergeRight ≠ 0 then
    mergeMemoryNodes h (some cur) (h.node cur).next else h
  if availableMerges &&& mergeLeft ≠ 0 then
    mergeMemoryNodes h (h.node cur).prev (some cur) else h

/-- One turn of the `while` loop of `kfree`. -/
def kfreeBody (h : KHeap) (ptr : Nat) :
    Option Nat → Exec (LoopStep (Option Nat) KHeap)
  | none => .ok (.done h)
  | some cur =>
    if (cur + sizeofKHeapMemoryNode) % 2 ^ 64 = ptr then .ok (.done (releaseNode h cur))
    else .ok (.next (h.node cur).next)

/-- `kfree`. -/
def kfree (fuel ptr : Nat) (h : KHeap) : Exec KHeap :=
  if ptr = 0 then .ok h
  -- a payload of the last node lies above `kernel_heap_end`, and is not looked for
  else if ptr < h.kernelHeapStart ∨ ptr > h.kernelHeapEnd then .ok h
  else loop (kfreeBody h ptr) fuel (some h.kernelHeapStart)

end Dreamos64
