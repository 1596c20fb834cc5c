import Dreamos64.Lib.Run
import Dreamos64.Lib.Tiling
import Dreamos64.Mem.KHeapSearch
import Mathlib.Order.CompletePartialOrder

/-!
# Dreamos64 — the heap's representation invariant

The list of `kheap.c` is a doubly linked list whose nodes also tile a range of
addresses. `HeapInv base limit h l` says both about the nodes `l`: they form a
chain with back links, and their extents (header and payload) lie end to end
from `base` to `limit`. `create_kheap_node` cuts one extent in two,
`merge_memory_nodes` joins two neighbours; everything `kmalloc` and `kfree` do
is one of these or a change of `is_free`.

* `HeapInv.split`, `HeapInv.merge` — the two edits keep the invariant;
* `kmalloc_inv`, `kfree_inv`       — so do the calls built from them;
* `heap_representation`            — and so every state of a run has it.

Nothing here depends on `kernel_heap_end`. That matters: a merge that absorbs
the last node leaves `kernel_heap_end` pointing into the middle of a payload.
-/

namespace Dreamos64

open Machine Links Blocks

open KHeap

/-! ## The invariant -/

/-- The nodes `l` are the list from `kernel_heap_start`, doubly linked, and tile
`[base, limit)`. -/
structure HeapInv (base limit : Nat) (h : KHeap) (l : List Nat) : Prop where
  chain  : Chain h.nextOf (some h.kernelHeapStart) l
  paired : Paired h.nextOf h.prevOf l
  first  : h.prevOf h.kernelHeapStart = none
  tiling : Tiling h.extent base l limit
  bound  : limit ≤ 2 ^ 64

namespace HeapInv

variable {base limit : Nat} {h : KHeap} {l l₁ l₂ : List Nat} {cur : Nat} {size : Nat}

theorem linked (hi : HeapInv base limit h l) : Linked h l := ⟨hi.chain, hi.paired, hi.first⟩

/-- A change of `is_free` is invisible to the invariant. -/
theorem setIsFree (hi : HeapInv base limit h l) (a : Nat) (b : Bool) :
    HeapInv base limit (h.setIsFree a b) l := by
  obtain ⟨hchain, hpaired, hfirst⟩ := hi.linked.setIsFree a b
  have hext : (h.setIsFree a b).extent = h.extent := by
    funext x
    simp only [extent, payloadSize, KHeap.setIsFree, write_node]
    split <;> rfl
  exact ⟨hchain, hpaired, hfirst, by rw [hext]; exact hi.tiling, hi.bound⟩

/-- The header of a split lies strictly inside the extent of `cur`, so it does not
wrap and is no node yet. -/
theorem split_fresh (hi : HeapInv base limit h l) (hcur : cur ∈ l)
    (hsize : size + sizeofKHeapMemoryNode ≤ h.payloadSize cur) :
    (cur + sizeofKHeapMemoryNode + size) % 2 ^ 64 = cur + sizeofKHeapMemoryNode + size ∧
      cur + sizeofKHeapMemoryNode + size ∉ l := by
  obtain ⟨-, hend⟩ := hi.tiling.mem_range hcur
  have hbound := hi.bound
  have hpos : 0 < sizeofKHeapMemoryNode := by decide
  unfold extent at hend
  refine ⟨Nat.mod_eq_of_lt (by omega), fun hmem => ?_⟩
  have := hi.tiling.apart hcur hmem (by omega)
  unfold extent at this
  omega

/-- **Splitting keeps the invariant.** The node `cur` is cut after `size`
payload bytes, leaving room for at least a header behind them. -/
theorem split (hi : HeapInv base limit h (l₁ ++ cur :: l₂))
    (hsize : size + sizeofKHeapMemoryNode ≤ h.payloadSize cur) :
    HeapInv base limit (splitNode h cur size)
      (l₁ ++ cur :: (cur + sizeofKHeapMemoryNode + size) :: l₂) := by
  have hcur : cur ∈ l₁ ++ cur :: l₂ := by simp
  obtain ⟨-, hend⟩ := hi.tiling.mem_range hcur
  have hbound := hi.bound
  obtain ⟨hmod, hfresh⟩ := hi.split_fresh hcur hsize
  obtain ⟨new, hnew⟩ : ∃ new : Nat, new = cur + sizeofKHeapMemoryNode + size := ⟨_, rfl⟩
  replace hmod := hmod.trans hnew.symm
  rw [← hnew] at hfresh ⊢
  have hpos : 0 < sizeofKHeapMemoryNode := by decide
  unfold extent at hend
  obtain ⟨hchain, hpaired, hfirst⟩ := hi.linked.split hmod hfresh
  obtain ⟨hsc, hsn, hold⟩ := hi.linked.split_sizes hmod hfresh hsize (by omega)
  refine ⟨hchain, hpaired, hfirst, ?_, hbound⟩
  -- where the first of the two nodes ends the second begins
  have hcut : new = cur + (splitNode h cur size).extent cur := by
    rw [extent, hsc]
    omega
  rw [hcut]
  refine hi.tiling.split ?_ fun y hy => by rw [extent, extent, hold y hy]
  rw [← hcut, extent, extent, extent, hsc, hsn]
  omega

section

variable {x y : Nat} (hi : HeapInv base limit h (l₁ ++ x :: y :: l₂))

include hi

/-- A node begins where the one before it ends, and both are below `2 ^ 64`. -/
theorem touching :
    y = x + sizeofKHeapMemoryNode + h.payloadSize x ∧
      y + sizeofKHeapMemoryNode + h.payloadSize y ≤ 2 ^ 64 := by
  have hy : y ∈ l₁ ++ x :: y :: l₂ := by simp
  have hnext := hi.tiling.next_eq
  obtain ⟨-, hend⟩ := hi.tiling.mem_range hy
  have hbound := hi.bound
  unfold extent at hnext hend
  omega

/-- So they are neighbours for the check of `merge_memory_nodes`. -/
theorem adjacent : (x + h.payloadSize x + sizeofKHeapMemoryNode) % 2 ^ 64 = y := by
  obtain ⟨hnext, hend⟩ := hi.touching
  have hpos : 0 < sizeofKHeapMemoryNode := by decide
  rw [Nat.mod_eq_of_lt (by omega)]
  omega

/-- **Merging keeps the invariant.** The node `y` disappears into the node
`x` before it. -/
theorem merge :
    HeapInv base limit (mergeMemoryNodes h (some x) (some y)) (l₁ ++ x :: l₂) := by
  obtain ⟨hnext, hend⟩ := hi.touching
  have hpos : 0 < sizeofKHeapMemoryNode := by decide
  have hadj := hi.adjacent
  obtain ⟨hchain, hpaired, hfirst⟩ := hi.linked.merge hadj
  obtain ⟨hsx, hold⟩ := hi.linked.merge_sizes hadj (by omega)
  refine ⟨hchain, hpaired, hfirst, hi.tiling.join ?_ fun z hz => ?_, hi.bound⟩
  · rw [extent, extent, extent, hsx]
    omega
  · rw [extent, extent, hold z hz]

end

/-- The node that `kmalloc` takes is cut in two, or taken whole. -/
theorem take {real x : Nat} (hi : HeapInv base limit h (l₁ ++ x :: l₂)) :
    HeapInv base limit (takeNode h real x) (l₁ ++ x :: (leftover h real x ++ l₂)) := by
  unfold takeNode leftover
  split_ifs with hsplits
  · exact hi.split (Nat.le_of_lt hsplits.room)
  · exact hi.setIsFree x false

end HeapInv

/-! ## The calls -/

section Calls

variable {base limit : Nat} {h h' : KHeap} {l : List Nat} {m : PageMode}
  {fuel size ptr : Nat} {p : Option Nat}

/-- **`kmalloc` keeps the invariant**, unless it enters `expand_heap`. -/
theorem kmalloc_inv (hi : HeapInv base limit h l)
    (hk : kmalloc m fuel size h = .ok (p, h')) (hexp : h'.vmmRegions = h.vmmRegions) :
    ∃ l', HeapInv base limit h' l' := by
  rcases kmalloc_stays hi.linked hk hexp with rfl | ⟨l₁, c, l₂, rfl, -, rfl⟩
  · exact ⟨l, hi⟩
  · exact ⟨_, hi.take⟩

/-- **`kfree` keeps the invariant**, whatever pointer it is given. -/
theorem kfree_inv (hi : HeapInv base limit h l) (hk : kfree fuel ptr h = .ok h') :
    ∃ l', HeapInv base limit h' l' := by
  rcases kfree_cases hi.linked hk with ⟨rfl, -⟩ | ⟨-, -, x, hx, -, rfl⟩
  · exact ⟨l, hi⟩
  · exact releaseNode_keeps HeapInv.linked (fun hg _ => hg.merge) (hi.setIsFree x true) hx

end Calls

/-! ## Runs -/

/-- What a client can ask of the heap. -/
inductive HeapCall where
  | kmalloc (size : Nat)
  | kfree (ptr : Nat)
  deriving DecidableEq, Repr

/-- A call that returns. A `kmalloc` that enters `expand_heap` takes a region
from `vmm_alloc`; the step keeps to calls that do not. -/
def heapStep (m : PageMode) (h : KHeap) : HeapCall → KHeap → Prop
  | .kmalloc size, h' =>
    h'.vmmRegions = h.vmmRegions ∧ ∃ fuel p, kmalloc m fuel size h = .ok (p, h')
  | .kfree ptr, h' => ∃ fuel, kfree fuel ptr h = .ok h'

/-- A heap made of one free node, which fits into the address space. -/
structure SingleFreeNode (h : KHeap) : Prop where
  isFree : (h.node h.kernelHeapStart).isFree = true
  next   : h.nextOf h.kernelHeapStart = none
  prev   : h.prevOf h.kernelHeapStart = none
  fits   : h.kernelHeapStart + h.extent h.kernelHeapStart ≤ 2 ^ 64
  atEnd  : h.kernelHeapEnd = h.kernelHeapStart

/-- `initialize_kheap` makes such a heap of the region it gets. -/
theorem initializeKheap_singleFreeNode {m : PageMode} {h h' : KHeap} {start : Nat}
    {rest : List Nat} (hr : h.vmmRegions = start :: rest)
    (hfits : start + (sizeofKHeapMemoryNode + pageSizeInBytes m) ≤ 2 ^ 64)
    (hinit : initializeKheap m h = .ok h') : SingleFreeNode h' := by
  unfold initializeKheap at hinit
  rw [hr] at hinit
  cases hinit
  constructor
  case fits => simpa [extent, payloadSize, write] using hfits
  all_goals simp [nextOf, prevOf, write]

theorem SingleFreeNode.inv {h : KHeap} (hs : SingleFreeNode h) :
    HeapInv h.kernelHeapStart (h.kernelHeapStart + h.extent h.kernelHeapStart) h
      [h.kernelHeapStart] where
  chain  := ⟨rfl, hs.next⟩
  paired := by
    intro x hx y hy
    rw [List.mem_singleton.mp hx, hs.next] at hy
    simp at hy
  first  := hs.prev
  tiling := ⟨rfl, rfl⟩
  bound  := hs.fits

/-- Every state of a run has the invariant, over the range the run began with. -/
theorem run_heapInv {m : PageMode} {h₀ h : KHeap} {calls : List HeapCall}
    (hs : SingleFreeNode h₀) (hrun : Run (heapStep m) h₀ calls h) :
    ∃ l, HeapInv h₀.kernelHeapStart (h₀.kernelHeapStart + h₀.extent h₀.kernelHeapStart) h l := by
  refine hrun.inv (fun g => ∃ l, HeapInv _ _ g l) ⟨_, hs.inv⟩ ?_
  -- a call keeps the range, because it takes no region
  rintro g g' (size | ptr) ⟨l, hi⟩ hstep
  · obtain ⟨hexp, fuel, p, hk⟩ := hstep
    exact kmalloc_inv hi hk hexp
  · obtain ⟨fuel, hk⟩ := hstep
    exact kfree_inv hi hk

/-- **The representation invariant of the heap.** In every state reached from
one free node, the list from `kernel_heap_start` is finite and acyclic, doubly
linked, sorted and gap-free; the bytes it accounts for are those it began with;
and no payload meets another node's payload or header. -/
theorem heap_representation (m : PageMode) (h₀ h : KHeap) (calls : List HeapCall)
    (hs : SingleFreeNode h₀) (hrun : Run (heapStep m) h₀ calls h) :
    ∃ l : List Nat,
      Chain h.nextOf (some h.kernelHeapStart) l ∧ l.Nodup ∧ l.Pairwise (· < ·) ∧
      (∀ x ∈ l, ∀ y, h.nextOf x = some y →
        h.prevOf y = some x ∧ y = x + sizeofKHeapMemoryNode + h.payloadSize x) ∧
      (l.map fun x => h.payloadSize x + sizeofKHeapMemoryNode).sum =
        h₀.payloadSize h₀.kernelHeapStart + sizeofKHeapMemoryNode ∧
      ∀ x ∈ l, ∀ y ∈ l, x ≠ y →
        Disjoint (h.payload x) (h.payload y) ∧ Disjoint (h.payload x) (header y) := by
  obtain ⟨l, hi⟩ := run_heapInv hs hrun
  have hpos : 0 < sizeofKHeapMemoryNode := by decide
  refine ⟨l, hi.chain, hi.chain.nodup, ?_, ?_, ?_, ?_⟩
  · refine hi.tiling.pairwise.imp fun hxy => ?_
    unfold extent at hxy
    omega
  · intro x hx y hy
    refine ⟨hi.paired x hx y hy, ?_⟩
    -- a successor is the next tile, so it starts where the payload stops
    obtain ⟨l₁, l₂, rfl⟩ := hi.linked.split_at_next hx hy
    have hadj := hi.tiling.next_eq
    unfold extent at hadj
    omega
  · have hsum := hi.tiling.sum_eq
    have hext : h.extent = fun x => h.payloadSize x + sizeofKHeapMemoryNode := by
      funext x
      unfold extent
      omega
    rw [hext] at hsum
    unfold extent at hsum
    omega
  · intro x hx y hy hne
    have hapart := hi.tiling.apart hx hy hne
    unfold extent at hapart
    unfold payload header
    constructor <;> refine Set.disjoint_left.mpr fun a ha ha' => ?_
    · obtain ⟨ha, hax⟩ := ha
      obtain ⟨ha', hay⟩ := ha'
      omega
    · obtain ⟨ha, hax⟩ := ha
      obtain ⟨ha', hay⟩ := ha'
      omega

/-- A heap of one 4 KiB node at `0x1000`. -/
def smallHeap : KHeap where
  node            := fun _ => { size := 0x1000, isFree := true, next := none, prev := none }
  kernelHeapStart := 0x1000
  kernelHeapEnd   := 0x1000
  vmmRegions      := []

theorem heap_representation_smallHeap :
    ∃ h l, Run (heapStep .small) smallHeap [.kmalloc 100, .kfree 0x1020] h ∧
      Chain h.nextOf (some h.kernelHeapStart) l := by
  have hs : SingleFreeNode smallHeap := by constructor <;> decide
  obtain ⟨p, h₁, hk, hreg, h, hf, -⟩ : ∃ p h₁,
      kmalloc .small 1 100 smallHeap = .ok (p, h₁) ∧ h₁.vmmRegions = smallHeap.vmmRegions ∧
      ∃ h, kfree 1 0x1020 h₁ = .ok h ∧ True := by decide +kernel
  have hrun : Run (heapStep .small) smallHeap [.kmalloc 100, .kfree 0x1020] h :=
    .extend (.extend .start ⟨hreg, 1, p, hk⟩) ⟨_, hf⟩
  obtain ⟨l, hl, -⟩ := heap_representation .small smallHeap h _ hs hrun
  exact ⟨h, l, hrun, hl⟩

end Dreamos64
