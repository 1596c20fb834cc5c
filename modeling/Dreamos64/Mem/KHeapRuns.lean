import Dreamos64.Mem.KHeapCalls
import Dreamos64.Mem.KHeapInvariant

/-!
# Dreamos64 — the heap in use

Sequences of `kmalloc` and `kfree` from `initialize_kheap`, on as many regions as
`vmm_alloc` gives. Each of the three results needs that no call puts a header
across the end of a region (`Roomy`): the size of a region is recorded with the
header of its first node, so the last node of a region is 32 bytes too large, and
`kmalloc` splits a node that leaves 48 bytes.

* `heap_contained`        — headers and payloads stay inside the regions;
* `kernel_heap_end_last`  — `kernel_heap_end` is the last node, as long as `kfree`
  is not asked to merge it away (`KeepsTail`);
* `kfree_releases_iff`    — `kfree` releases exactly the pointers that pass its range
  check, as long as no expansion cuts the list (`KeepsList`).

Each comes with a run in which it fails.
-/

namespace Dreamos64

open Machine Links Blocks KHeap

/-- A heap in use: the regions it has from `vmm_alloc`, and the pointers handed out
and not passed to `kfree` since. -/
structure HeapUse where
  heap    : KHeap
  regions : List HeapRegion
  live    : List Nat

/-- A call that returns. The regions it takes are as large as asked for, in whole
pages, and apart from the others. -/
def callStep (m : PageMode) (s : HeapUse) : HeapCall → HeapUse → Prop
  | .kmalloc size, t => ∃ fuel p taken, kmalloc m fuel size s.heap = .ok (p, t.heap) ∧
      s.heap.vmmRegions = taken ++ t.heap.vmmRegions ∧
      t.regions = s.regions ++ taken.map (⟨·, wholePages m (realSize size)⟩) ∧
      VmmFresh m t.regions ∧ t.live = p.toList ++ s.live
  | .kfree ptr, t => ∃ fuel, kfree fuel ptr s.heap = .ok t.heap ∧
      t.regions = s.regions ∧ t.live = s.live.filter (· ≠ ptr)

/-- The heap that `initialize_kheap` makes. -/
def Initialized (m : PageMode) (s : HeapUse) : Prop :=
  ∃ h start rest, h.vmmRegions = start :: rest ∧ initializeKheap m h = .ok s.heap ∧
    s.regions = [⟨start, pageSizeInBytes m⟩] ∧ VmmFresh m s.regions ∧ s.live = []

-- Conditions on a call and the heap before it

/-- No header across the end of a region. -/
def Roomy (m : PageMode) (s : HeapUse) : HeapCall → Prop
  | .kmalloc size => size ≠ 0 → RoomFor m s.regions s.heap size
  | .kfree _ => True

/-- A search that ends at `kernel_heap_end` has seen the whole list. -/
def KeepsList (s : HeapUse) : HeapCall → Prop
  | .kmalloc size => size ≠ 0 → Reaches s.heap (realSize size) s.heap.kernelHeapEnd →
      ¬ fits s.heap (realSize size) s.heap.kernelHeapEnd →
      s.heap.nextOf s.heap.kernelHeapEnd = none
  | .kfree _ => True

/-- The node to be freed is not followed directly by `kernel_heap_end`, free. -/
def KeepsTail (s : HeapUse) : HeapCall → Prop
  | .kmalloc _ => True
  | .kfree ptr => ∀ l x, Seg s.heap.nextOf (some s.heap.kernelHeapStart) l (some x) →
      x + sizeofKHeapMemoryNode = ptr → s.heap.kernelHeapStart ≤ ptr →
      s.heap.nextOf x = some s.heap.kernelHeapEnd →
      (s.heap.node s.heap.kernelHeapEnd).isFree = true → ¬ touches s.heap x s.heap.kernelHeapEnd

/-- Calls that meet a condition. -/
def guarded (m : PageMode) (ok : HeapUse → HeapCall → Prop) (s : HeapUse) (call : HeapCall)
    (t : HeapUse) : Prop :=
  callStep m s call t ∧ Roomy m s call ∧ ok s call

section Steps

variable {m : PageMode} {s t s₀ : HeapUse} {call : HeapCall} {calls : List HeapCall}
  {segs : List Segment} {ok : HeapUse → HeapCall → Prop}

/-! ## The start and one call -/

theorem Initialized.segments (hi : Initialized m s) :
    ∃ r, HeapSegments m s.regions s.heap [⟨r, [s.heap.kernelHeapStart]⟩] ∧
      s.heap.kernelHeapEnd = s.heap.kernelHeapStart := by
  obtain ⟨h, start, rest, hr, hinit, hregions, hfresh, -⟩ := hi
  unfold initializeKheap at hinit
  rw [hr] at hinit
  simp only [Except.ok.injEq] at hinit
  -- the first node is the only one, and takes all of the first page
  have hnode : s.heap.node start =
      { size := pageSizeInBytes m, isFree := true, next := none, prev := none } := by
    rw [← hinit]
    simp
  have hstart : s.heap.kernelHeapStart = start ∧ s.heap.kernelHeapEnd = start := by
    rw [← hinit]
    exact ⟨rfl, rfl⟩
  obtain ⟨hstart, hend⟩ := hstart
  -- one segment with one node
  refine ⟨⟨start, pageSizeInBytes m⟩, ⟨⟨?_, ?_, ?_⟩, ?_, hfresh, ?_, ?_⟩, by rw [hstart, hend]⟩
  · simp [nodesOf, hstart, nextOf, hnode]
  · intro x hx y hy
    simp only [nodesOf, List.flatMap_cons, List.flatMap_nil, List.append_nil,
      List.mem_singleton] at hx
    rw [hx, hstart, nextOf, hnode] at hy
    cases hy
  · rw [hstart, prevOf, hnode]
  · simp [hregions]
  · intro g hg
    rw [List.mem_singleton.1 hg]
    refine ⟨_, Or.inl rfl, hstart, ?_⟩
    rw [tiling_nil, hstart, extent, payloadSize, hnode]
    unfold HeapRegion.stop
    simp only
    omega
  · intro g hg x hx
    rw [List.mem_singleton.1 hg] at hx ⊢
    rw [List.mem_singleton.1 hx, hstart]
    unfold HeapRegion.stop sizeofKHeapMemoryNode
    cases m <;> simp only [pageSizeInBytes] <;> omega

/-- **What a call does**: nothing, take a node (with another region or not), or release
one. -/
theorem callStep_cases (hs : HeapSegments m s.regions s.heap segs) (hstep : callStep m s call t)
    (hroom : Roomy m s call) :
    (t.heap = s.heap ∧ t.regions = s.regions ∧ ∀ p ∈ t.live, p ∈ s.live) ∨
    (∃ size c segs', call = .kmalloc size ∧ size ≠ 0 ∧
      t.live = (c + sizeofKHeapMemoryNode) :: s.live ∧
      ((t.regions = s.regions ∧ Takes s.heap segs (realSize size) c t.heap segs') ∨
        ∃ q g segs₁, t.regions = s.regions ++ [q] ∧
          Reaches s.heap (realSize size) s.heap.kernelHeapEnd ∧
          ¬ fits s.heap (realSize size) s.heap.kernelHeapEnd ∧
          Expands m s.regions s.heap segs q g segs₁ ∧
          Takes g segs₁ (realSize size) c t.heap segs')) ∨
    (∃ x segs', call = .kfree (x + sizeofKHeapMemoryNode) ∧
      s.heap.kernelHeapStart ≤ x + sizeofKHeapMemoryNode ∧
      x + sizeofKHeapMemoryNode ≤ s.heap.kernelHeapEnd ∧ t.regions = s.regions ∧
      t.live = s.live.filter (· ≠ x + sizeofKHeapMemoryNode) ∧
      Releases s.heap segs x t.heap segs') := by
  cases call with
  | kmalloc size =>
    obtain ⟨fuel, p, taken, hk, htaken, hregions, hfresh, hlive⟩ := hstep
    -- `kmalloc(0)` returns before it looks at the heap
    by_cases hsize : size = 0
    · rw [kmalloc, if_pos hsize] at hk
      injection hk with hk
      obtain ⟨rfl, hheap⟩ := Prod.mk.inj hk
      have hnil : taken = [] := by simpa [hheap] using htaken
      subst hnil
      refine Or.inl ⟨hheap.symm, by simpa using hregions, fun p hp => ?_⟩
      rw [hlive] at hp
      exact hp
    rw [hregions] at hfresh
    rcases kmalloc_spec hs hsize hk htaken hfresh (hroom hsize) with
      ⟨rfl, hheap, rfl⟩ | ⟨c, segs', rfl, hcases⟩
    · refine Or.inl ⟨hheap, by simpa using hregions, fun p hp => ?_⟩
      rw [hlive] at hp
      exact hp
    · refine Or.inr (Or.inl ⟨size, c, segs', rfl, hsize, hlive, ?_⟩)
      rcases hcases with ⟨rfl, ht⟩ | ⟨new, g, segs₁, rfl, hreach, hfit, he, ht⟩
      · exact Or.inl ⟨by simpa using hregions, ht⟩
      · exact Or.inr ⟨_, g, segs₁, hregions, hreach, hfit, he, ht⟩
  | kfree ptr =>
    obtain ⟨fuel, hk, hregions, hlive⟩ := hstep
    rcases kfree_cases hs.linked hk with ⟨hheap, -⟩ | ⟨hlow, hhigh, x, hx, hptr, hheap⟩
    · refine Or.inl ⟨hheap, hregions, fun p hp => ?_⟩
      rw [hlive] at hp
      exact List.mem_of_mem_filter hp
    -- `kfree` compares wrapped addresses, but no header is so near the top
    · rw [hs.nowrap hx] at hptr
      subst hptr
      obtain ⟨segs', hr⟩ := releaseNode_releases hs hx
      exact Or.inr (Or.inr ⟨x, segs', rfl, hlow, hhigh, hregions, hlive, hheap ▸ hr⟩)

/-- Every call leaves segments, and writes no header outside of them. -/
theorem callStep_segments (hs : HeapSegments m s.regions s.heap segs)
    (hstep : callStep m s call t) (hroom : Roomy m s call) :
    ∃ segs', HeapSegments m t.regions t.heap segs' ∧ ∀ a, t.heap.node a ≠ s.heap.node a →
      a ∈ nodesOf segs ∨ a ∈ nodesOf segs' := by
  rcases callStep_cases hs hstep hroom with ⟨hheap, hregions, -⟩ |
    ⟨size, c, segs', -, -, -, hcases⟩ | ⟨x, segs', -, -, -, hregions, -, hr⟩
  · rw [hheap, hregions]
    exact ⟨segs, hs, fun a hne => absurd rfl hne⟩
  · rcases hcases with ⟨hregions, ht⟩ | ⟨q, g, segs₁, hregions, -, -, he, ht⟩
    · rw [hregions]
      exact ⟨segs', ht.segments hs, fun a hne => Or.inr (ht.frame hs hne)⟩
    · rw [hregions]
      have hs₁ := he.segments hs
      refine ⟨segs', ht.segments hs₁, fun a hne => Or.inr ?_⟩
      by_cases hsame : t.heap.node a = g.node a
      · exact ht.mem (he.frame hs (hsame ▸ hne))
      · exact ht.frame hs₁ hsame
  · rw [hregions]
    exact ⟨segs', hr.segments hs, fun a hne => Or.inl (hr.frame hs hne)⟩

theorem run_segments (hi : Initialized m s₀) (hrun : Run (guarded m ok) s₀ calls s) :
    ∃ segs, HeapSegments m s.regions s.heap segs := by
  refine hrun.inv (fun s => ∃ segs, HeapSegments m s.regions s.heap segs) ?_ ?_
  · obtain ⟨r, hs, -⟩ := hi.segments
    exact ⟨_, hs⟩
  · rintro s t call ⟨segs, hs⟩ ⟨hstep, hroom, -⟩
    obtain ⟨segs', hs', -⟩ := callStep_segments hs hstep hroom
    exact ⟨segs', hs'⟩

end Steps

/-- The heap of the 2 MiB build on a region at `0x200000`. -/
def smallUse : HeapUse where
  heap    :=
    { node            := fun a => { size := if a = 0x200000 then 0x200000 else 0
                                    isFree := a = 0x200000, next := none, prev := none }
      kernelHeapStart := 0x200000
      kernelHeapEnd   := 0x200000
      vmmRegions      := [] }
  regions := [⟨0x200000, 0x200000⟩]
  live    := []

theorem smallUse_fresh : VmmFresh .large smallUse.regions where
  start := by decide
  bytes := by decide
  stop  := by decide
  apart := by decide

/-- It is what `initialize_kheap` makes, whatever regions are to come. -/
theorem smallUse_rest (rest : List Nat) : Initialized .large
    { smallUse with heap := { smallUse.heap with vmmRegions := rest } } := by
  refine ⟨{ node := fun _ => ⟨0, false, none, none⟩, kernelHeapStart := 0, kernelHeapEnd := 0
            vmmRegions := 0x200000 :: rest }, 0x200000, rest, rfl, ?_, rfl, smallUse_fresh, rfl⟩
  unfold initializeKheap smallUse
  simp only [KHeap.setSize, KHeap.setIsFree, KHeap.setNext, KHeap.setPrev, write]
  congr
  funext a
  by_cases ha : a = 0x200000
  · simp [ha, pageSizeInBytes]
  · simp [ha]

theorem smallUse_initialized : Initialized .large smallUse := smallUse_rest []

/-- A first call that is served from the first node. -/
theorem smallUse_call (size : Nat) (hfit : fits smallUse.heap (realSize size) 0x200000)
    (hroom : ¬ Cramped 0x200000 (realSize size)) :
    Roomy .large smallUse (.kmalloc size) ∧ KeepsList smallUse (.kmalloc size) := by
  have honly {c : Nat} (hreach : Reaches smallUse.heap (realSize size) c) : c = 0x200000 := by
    obtain ⟨l, hseg, hpass⟩ := hreach
    cases l with
    | nil => exact (Option.some.inj hseg).symm
    | cons x l =>
      obtain ⟨hx, -⟩ := seg_cons.1 hseg
      have hx' : 0x200000 = x := Option.some.inj hx
      exact absurd (hx' ▸ hfit) (hpass x List.mem_cons_self).1
  refine ⟨fun _ c hreach => ?_, fun _ _ hno => absurd hfit hno⟩
  rw [honly hreach]
  exact ⟨fun _ _ => hroom, fun hno => absurd hfit hno⟩

theorem smallUse_kmalloc (size fuel : Nat) (p : Nat) (h : KHeap)
    (hk : kmalloc .large fuel size smallUse.heap = .ok (some p, h)) (hv : h.vmmRegions = []) :
    callStep .large smallUse (.kmalloc size) ⟨h, smallUse.regions, [p]⟩ :=
  ⟨fuel, some p, [], hk, hv.symm, by simp, smallUse_fresh, rfl⟩

/-! ## Containment -/

section Containment

variable {m : PageMode} {regions : List HeapRegion} {h : KHeap} {segs : List Segment} {x : Nat}

theorem HeapSegments.contained (hs : HeapSegments m regions h segs) (hx : x ∈ nodesOf segs) :
    Contained regions x sizeofKHeapMemoryNode := by
  obtain ⟨A, r, k₁, k₂, B, rfl⟩ := locate hx
  obtain ⟨hlow, hhigh, -⟩ := hs.range (x := x) (by simp)
  exact ⟨r, hs.mem_regions, hlow, hhigh⟩

theorem Contained.append {a size : Nat} (hc : Contained regions a size) (more : List HeapRegion) :
    Contained (regions ++ more) a size := by
  obtain ⟨r, hr, hin⟩ := hc
  exact ⟨r, List.mem_append_left _ hr, hin⟩

/-- `kmalloc` looks for more than a header and the bytes asked for. -/
theorem lt_realSize {size : Nat} (hsize : size < 2 ^ 32) :
    sizeofKHeapMemoryNode + size < realSize size := by
  unfold realSize align sizeofKHeapMemoryNode heapAllocAlignment
  omega

/-- The bytes handed out lie in the region of their node. -/
theorem Takes.contained {h' : KHeap} {segs' : List Segment} {c size : Nat}
    (ht : Takes h segs (realSize size) c h' segs') (hs : HeapSegments m regions h segs)
    (hsize : size < 2 ^ 32) : Contained regions (c + sizeofKHeapMemoryNode) size := by
  have hreal := lt_realSize hsize
  have hfit := ht.fit.2
  obtain ⟨A, r, k₁, k₂, B, rfl, -, -⟩ := ht.place
  obtain ⟨hlow, -, hpayload⟩ := hs.range (x := c) (by simp)
  unfold payloadSize at hpayload
  exact ⟨r, hs.mem_regions, by omega, by omega⟩

/-- **Containment.** In every state reached, every header of the list lies inside a
region, and a further call writes only such headers and hands out only such bytes. -/
theorem heap_contained (m : PageMode) (s₀ s : HeapUse) (calls : List HeapCall)
    (hi : Initialized m s₀) (hrun : Run (guarded m fun _ _ => True) s₀ calls s) :
    (∃ l, Chain s.heap.nextOf (some s.heap.kernelHeapStart) l ∧
      ∀ x ∈ l, Contained s.regions x sizeofKHeapMemoryNode) ∧
    ∀ call t, callStep m s call t → Roomy m s call →
      (∀ a, t.heap.node a ≠ s.heap.node a → Contained t.regions a sizeofKHeapMemoryNode) ∧
      ∀ size p fuel, call = .kmalloc size → size < 2 ^ 32 →
        kmalloc m fuel size s.heap = .ok (some p, t.heap) → Contained t.regions p size := by
  obtain ⟨segs, hs⟩ := run_segments hi hrun
  refine ⟨⟨_, hs.linked.chain, fun x hx => hs.contained hx⟩, fun call t hstep hroom => ⟨?_, ?_⟩⟩
  · intro a hne
    obtain ⟨segs', hs', hframe⟩ := callStep_segments hs hstep hroom
    -- a header that changes is one of the old heap, or one of the new
    rcases hframe a hne with ha | ha
    · obtain ⟨more, hmore⟩ : ∃ more, t.regions = s.regions ++ more := by
        cases call with
        | kmalloc size =>
          obtain ⟨-, -, taken, -, -, hregions, -⟩ := hstep
          exact ⟨_, hregions⟩
        | kfree ptr =>
          obtain ⟨-, -, hregions, -⟩ := hstep
          exact ⟨[], by simpa using hregions⟩
      rw [hmore]
      exact (hs.contained ha).append more
    · exact hs'.contained ha
  · rintro size p fuel rfl hsize hk
    obtain ⟨fuel', p', taken, hk', htaken, hregions, hfresh, -⟩ := hstep
    by_cases hzero : size = 0
    · rw [kmalloc, if_pos hzero] at hk
      cases hk
    rw [hregions] at hfresh ⊢
    rcases kmalloc_spec hs hzero hk htaken hfresh (hroom hzero) with
      ⟨hnone, -, -⟩ | ⟨c, segs', hp, hcases⟩
    · cases hnone
    · obtain rfl := Option.some.inj hp
      rcases hcases with ⟨rfl, ht⟩ | ⟨new, g, segs₁, rfl, -, -, he, ht⟩
      · simpa using ht.contained hs hsize
      · exact ht.contained (he.segments hs) hsize

end Containment

theorem heap_contained_smallUse :
    ∃ t, Run (guarded .large fun _ _ => True) smallUse [.kmalloc 100] t ∧
      Contained t.regions 0x200020 100 := by
  obtain ⟨h, hk, hv⟩ : ∃ h, kmalloc .large 1 100 smallUse.heap = .ok (some 0x200020, h) ∧
    h.vmmRegions = [] := ⟨_, rfl, rfl⟩
  have hstep := smallUse_kmalloc 100 1 _ h hk hv
  have hroom := (smallUse_call 100 (by decide) (by decide)).1
  have hin := (heap_contained .large smallUse smallUse [] smallUse_initialized .start).2 _ _ hstep
    hroom
  exact ⟨_, .extend .start ⟨hstep, hroom, trivial⟩, hin.2 100 _ 1 rfl (by decide) hk⟩

/-- `kmalloc` leaves 48 bytes of the region: the header behind the bytes handed out
ends 16 bytes behind the region. -/
theorem header_outside_region :
    ∃ t, Initialized .large smallUse ∧ callStep .large smallUse (.kmalloc 2097056) t ∧
      t.heap.node 0x3ffff0 ≠ smallUse.heap.node 0x3ffff0 ∧
      ¬ Contained t.regions 0x3ffff0 sizeofKHeapMemoryNode := by
  obtain ⟨h, hk, hv, hnode⟩ : ∃ h, kmalloc .large 1 2097056 smallUse.heap =
    .ok (some 0x200020, h) ∧ h.vmmRegions = [] ∧ (h.node 0x3ffff0).isFree = true :=
    ⟨_, rfl, rfl, rfl⟩
  refine ⟨_, smallUse_initialized, smallUse_kmalloc 2097056 1 _ h hk hv, fun heq => ?_, ?_⟩
  · have hsame := congrArg KHeapMemoryNode.isFree heq
    rw [hnode] at hsame
    exact absurd hsame (by decide)
  · rintro ⟨r, hr, hin⟩
    rw [List.mem_singleton.1 hr] at hin
    exact absurd hin (by decide)

/-! ## The tail -/

/-- `kernel_heap_end` is the last node of the list. -/
def TailLast (h : KHeap) : Prop :=
  h.nextOf h.kernelHeapEnd = none ∧
    ∃ l, Chain h.nextOf (some h.kernelHeapStart) (l ++ [h.kernelHeapEnd])

theorem tailLast_of_getLast {m : PageMode} {regions : List HeapRegion} {h : KHeap}
    {segs : List Segment} (hs : HeapSegments m regions h segs)
    (hlast : (nodesOf segs).getLast? = some h.kernelHeapEnd) : TailLast h := by
  obtain ⟨l, hl⟩ := List.getLast?_eq_some_iff.1 hlast
  have hchain := hs.linked.chain
  rw [hl] at hchain
  exact ⟨hchain.next_eq, l, hchain⟩

/-- **The tail pointer.** In every run that does not merge the tail away,
`kernel_heap_end` is the last node of the list. -/
theorem kernel_heap_end_last (m : PageMode) (s₀ s : HeapUse) (calls : List HeapCall)
    (hi : Initialized m s₀) (hrun : Run (guarded m KeepsTail) s₀ calls s) : TailLast s.heap := by
  obtain ⟨segs, hs, hlast⟩ : ∃ segs, HeapSegments m s.regions s.heap segs ∧
      (nodesOf segs).getLast? = some s.heap.kernelHeapEnd := by
    refine hrun.inv (fun s => ∃ segs, HeapSegments m s.regions s.heap segs ∧
      (nodesOf segs).getLast? = some s.heap.kernelHeapEnd) ?_ ?_
    · obtain ⟨r, hs, hend⟩ := hi.segments
      exact ⟨_, hs, by simp [nodesOf, hend]⟩
    · rintro s t call ⟨segs, hs, hlast⟩ ⟨hstep, hroom, hkeeps⟩
      rcases callStep_cases hs hstep hroom with ⟨hheap, hregions, -⟩ |
        ⟨size, c, segs', -, -, -, hcases⟩ | ⟨x, segs', rfl, hlow, hhigh, hregions, -, hr⟩
      · rw [hheap, hregions]
        exact ⟨segs, hs, hlast⟩
      · rcases hcases with ⟨hregions, ht⟩ | ⟨q, g, segs₁, hregions, -, -, he, ht⟩
        · rw [hregions]
          exact ⟨segs', ht.segments hs, ht.getLast hs hlast⟩
        · rw [hregions]
          have hs₁ := he.segments hs
          exact ⟨segs', ht.segments hs₁, ht.getLast hs₁ he.getLast⟩
      · rw [hregions]
        -- the range check of `kfree` refuses the tail itself
        have hpos : 0 < sizeofKHeapMemoryNode := by decide
        refine ⟨segs', hr.segments hs, hr.getLast hs hlast (by omega) ?_⟩
        obtain ⟨l₁, l₂, hl⟩ := List.append_of_mem hr.mem
        have hchain := hs.linked.chain
        rw [hl] at hchain
        exact hkeeps l₁ x (chain_split.1 hchain).1 rfl hlow
  exact tailLast_of_getLast hs hlast

theorem kernel_heap_end_last_smallUse :
    ∃ t, Run (guarded .large KeepsTail) smallUse [.kmalloc 100] t ∧ TailLast t.heap := by
  obtain ⟨h, hk, hv⟩ : ∃ h, kmalloc .large 1 100 smallUse.heap = .ok (some 0x200020, h) ∧
    h.vmmRegions = [] := ⟨_, rfl, rfl⟩
  have hroom := (smallUse_call 100 (by decide) (by decide)).1
  have hrun : Run (guarded .large KeepsTail) smallUse [.kmalloc 100] _ :=
    .extend .start ⟨smallUse_kmalloc 100 1 _ h hk hv, hroom, trivial⟩
  exact ⟨_, hrun, kernel_heap_end_last .large smallUse _ _ smallUse_initialized hrun⟩

/-- A heap whose list is its first node. -/
theorem single_list {h : KHeap} {l : List Nat} (hnext : h.nextOf h.kernelHeapStart = none)
    (hl : Chain h.nextOf (some h.kernelHeapStart) l) : l = [h.kernelHeapStart] :=
  hl.unique ⟨rfl, hnext⟩

/-- `kfree` merges the only allocation with the tail behind it, and `kernel_heap_end`
stays where the tail was. -/
theorem tail_merged_away :
    ∃ t, Initialized .large smallUse ∧
      Run (callStep .large) smallUse [.kmalloc 100, .kfree 0x200020] t ∧ ¬ TailLast t.heap := by
  obtain ⟨h, hk, hv, g, hf, hnext, hstart, hend⟩ : ∃ h,
      kmalloc .large 1 100 smallUse.heap = .ok (some 0x200020, h) ∧ h.vmmRegions = [] ∧
      ∃ g, kfree 1 0x200020 h = .ok g ∧ g.nextOf 0x200000 = none ∧
        g.kernelHeapStart = 0x200000 ∧ g.kernelHeapEnd = 0x2000b0 := by decide +kernel
  have hrun : Run (callStep .large) smallUse [.kmalloc 100, .kfree 0x200020] ⟨g, _, _⟩ :=
    .extend (.extend .start (smallUse_kmalloc 100 1 _ h hk hv)) ⟨1, hf, rfl, rfl⟩
  refine ⟨_, smallUse_initialized, hrun, ?_⟩
  rintro ⟨-, l, hl⟩
  have hone := single_list (h := g) (by rw [hstart]; exact hnext) hl
  cases l with
  | nil =>
    rw [List.nil_append, hstart, hend] at hone
    exact absurd hone (by decide)
  | cons x l => simp at hone

/-! ## Effective frees -/

/-- `z` is the node of the list that contains the address `a`: of those in front of
it, the last one, and it reaches that far. -/
def NodeAt (h : KHeap) (a z : Nat) : Prop :=
  ∃ l, Chain h.nextOf (some h.kernelHeapStart) l ∧ z ∈ l ∧ z ≤ a ∧ a < z + h.extent z ∧
    ∀ w ∈ l, w ≤ a → w ≤ z

theorem NodeAt.unique {h : KHeap} {a z w : Nat} (hz : NodeAt h a z)
    (hw : NodeAt h a w) : z = w := by
  obtain ⟨l, hl, hzl, hza, -, hzmax⟩ := hz
  obtain ⟨k, hk, hwk, hwa, -, hwmax⟩ := hw
  obtain rfl := hl.unique hk
  exact Nat.le_antisymm (hwmax z hzl hza) (hzmax w hwk hwa)

theorem HeapSegments.nodeAt {m : PageMode} {regions : List HeapRegion} {h : KHeap}
    {A B : List Segment} {r : HeapRegion} {k : List Nat} {a z : Nat}
    (hs : HeapSegments m regions h (A ++ ⟨r, k⟩ :: B)) (hz : z ∈ k) (hza : z ≤ a)
    (ha : a < z + h.extent z) (hstop : a < r.stop) : NodeAt h a z := by
  refine ⟨_, hs.linked.chain, ?_, hza, ha, fun w hw hwa => ?_⟩
  · rw [nodesOf_middle]
    simp [hz]
  have hpos : 0 < sizeofKHeapMemoryNode := by decide
  have hlow := (hs.range hz).1
  by_contra hlt
  -- `w` would lie between the two, in the same region
  rw [nodesOf_middle, List.mem_append, List.mem_append] at hw
  rcases hw with hw | hw | hw
  · obtain ⟨g, hg, hwg⟩ := List.mem_flatMap.1 hw
    have hapart := hs.apart.1 g hg
    have hin := hs.inside g (List.mem_append_left _ hg) w hwg
    obtain ⟨e, -, htile⟩ := hs.tiled g (List.mem_append_left _ hg)
    have hstart := (htile.mem_range hwg).1
    omega
  · obtain ⟨e, -, htile⟩ := hs.tiled ⟨r, k⟩ (by simp)
    have hapart := htile.apart hz hw (by omega)
    omega
  · obtain ⟨g, hg, hwg⟩ := List.mem_flatMap.1 hw
    have hg' : g ∈ A ++ ⟨r, k⟩ :: B := List.mem_append_right _ (List.mem_cons_of_mem _ hg)
    have hapart := hs.apart.2 g hg
    have hin := hs.inside g hg' w hwg
    obtain ⟨e, -, htile⟩ := hs.tiled g hg'
    have hstart := (htile.mem_range hwg).1
    omega

/-- Every pointer handed out and not freed is the payload of a node in use. -/
theorem run_live {m : PageMode} {s₀ s : HeapUse} {calls : List HeapCall} (hi : Initialized m s₀)
    (hrun : Run (guarded m KeepsList) s₀ calls s) :
    ∃ segs, HeapSegments m s.regions s.heap segs ∧ ∀ p ∈ s.live, ∃ x ∈ nodesOf segs,
      p = x + sizeofKHeapMemoryNode ∧ (s.heap.node x).isFree = false := by
  refine hrun.inv (fun s => ∃ segs, HeapSegments m s.regions s.heap segs ∧ ∀ p ∈ s.live,
    ∃ x ∈ nodesOf segs, p = x + sizeofKHeapMemoryNode ∧ (s.heap.node x).isFree = false) ?_ ?_
  · obtain ⟨r, hs, -⟩ := hi.segments
    obtain ⟨-, -, -, -, -, -, -, hlive⟩ := hi
    refine ⟨_, hs, ?_⟩
    rw [hlive]
    simp
  rintro s t call ⟨segs, hs, hlive⟩ ⟨hstep, hroom, hkeeps⟩
  -- the nodes in use stay in use when another one is taken
  have htakes {g : KHeap} {segs₁ segs' : List Segment} {regions : List HeapRegion} {real c : Nat}
      (hs₁ : HeapSegments m regions g segs₁) (ht : Takes g segs₁ real c t.heap segs')
      (hg : ∀ p ∈ s.live, ∃ x ∈ nodesOf segs₁, p = x + sizeofKHeapMemoryNode ∧
        (g.node x).isFree = false) (htlive : t.live = (c + sizeofKHeapMemoryNode) :: s.live) :
      ∀ p ∈ t.live, ∃ x ∈ nodesOf segs', p = x + sizeofKHeapMemoryNode ∧
        (t.heap.node x).isFree = false := by
    intro p hp
    rw [htlive, List.mem_cons] at hp
    rcases hp with rfl | hp
    · refine ⟨c, ht.taken_mem.2, rfl, ?_⟩
      rw [ht.isFree hs₁ ht.taken_mem.1, if_pos rfl]
    · obtain ⟨x, hx, hpx, hused⟩ := hg p hp
      refine ⟨x, ht.mem hx, hpx, ?_⟩
      rw [ht.isFree hs₁ hx]
      split_ifs
      · rfl
      · exact hused
  rcases callStep_cases hs hstep hroom with ⟨hheap, hregions, hsub⟩ |
    ⟨size, c, segs', rfl, hsize, htlive, hcases⟩ | ⟨x, segs', -, -, -, hregions, htlive, hr⟩
  · rw [hheap, hregions]
    exact ⟨segs, hs, fun p hp => hlive p (hsub p hp)⟩
  · rcases hcases with ⟨hregions, ht⟩ | ⟨q, g, segs₁, hregions, hreach, hfit, he, ht⟩
    · rw [hregions]
      exact ⟨segs', ht.segments hs, htakes hs ht hlive htlive⟩
    · rw [hregions]
      have hs₁ := he.segments hs
      refine ⟨segs', ht.segments hs₁, htakes hs₁ ht (fun p hp => ?_) htlive⟩
      obtain ⟨x, hx, hpx, hused⟩ := hlive p hp
      refine ⟨x, he.mem hs (hkeeps hsize hreach hfit) hx, hpx, ?_⟩
      rw [he.isFree hs hx]
      exact hused
  · rw [hregions]
    refine ⟨segs', hr.segments hs, fun p hp => ?_⟩
    rw [htlive, List.mem_filter] at hp
    obtain ⟨y, hy, rfl, hused⟩ := hlive p hp.1
    have hyx : y ≠ x := by
      rintro rfl
      simp at hp
    obtain ⟨hmem, hused'⟩ := hr.keeps hs hy hyx hused
    exact ⟨y, hmem, rfl, hused'⟩

/-- **`kfree` is effective exactly within its range check.** In every run that does not
cut the list, `kfree` returns for every pointer in use, and the node with that
address is free afterwards if and only if the pointer lies between
`kernel_heap_start` and `kernel_heap_end`. -/
theorem kfree_releases_iff (m : PageMode) (s₀ s : HeapUse) (calls : List HeapCall)
    (hi : Initialized m s₀) (hrun : Run (guarded m KeepsList) s₀ calls s) (p : Nat)
    (hp : p ∈ s.live) :
    ∃ fuel h', kfree fuel p s.heap = .ok h' ∧
      ((∃ z, NodeAt h' (p - sizeofKHeapMemoryNode) z ∧ (h'.node z).isFree = true) ↔
        s.heap.kernelHeapStart ≤ p ∧ p ≤ s.heap.kernelHeapEnd) := by
  obtain ⟨segs, hs, hlive⟩ := run_live hi hrun
  obtain ⟨x, hx, rfl, hused⟩ := hlive p hp
  obtain ⟨h', hk⟩ := hs.linked.kfree_returns (x + sizeofKHeapMemoryNode)
  refine ⟨_, h', hk, ?_⟩
  have hpos : 0 < sizeofKHeapMemoryNode := by decide
  have hnowrap {y : Nat} (hy : y ∈ nodesOf segs) :
      (y + sizeofKHeapMemoryNode) % 2 ^ 64 = y + sizeofKHeapMemoryNode := by
    obtain ⟨A, r, k₁, k₂, B, rfl⟩ := locate hy
    have hin := (hs.range (x := y) (by simp)).2.1
    exact Nat.mod_eq_of_lt (Nat.lt_of_le_of_lt hin (hs.fresh.stop r hs.mem_regions))
  rw [Nat.add_sub_cancel]
  rcases kfree_cases hs.linked hk with ⟨rfl, hwhy⟩ | ⟨hlow, hhigh, y, hy, hptr, rfl⟩
  · -- the heap is as before, and the node still in use
    have hout : ¬ (s.heap.kernelHeapStart ≤ x + sizeofKHeapMemoryNode ∧
        x + sizeofKHeapMemoryNode ≤ s.heap.kernelHeapEnd) := by
      rintro ⟨hlow, hhigh⟩
      rcases hwhy with hzero | hlt | hgt | hnode
      · omega
      · omega
      · omega
      · exact hnode x hx (hnowrap hx)
    refine iff_of_false ?_ hout
    rintro ⟨z, hz, hfree⟩
    obtain ⟨A, r, k₁, k₂, B, rfl⟩ := locate hx
    have hin := (hs.range (x := x) (by simp)).2.1
    have hself : NodeAt s.heap x x := hs.nodeAt (k := k₁ ++ x :: k₂) (by simp) (Nat.le_refl x)
      (by unfold extent; omega) (by omega)
    rw [hz.unique hself, hused] at hfree
    cases hfree
  · obtain rfl : y = x := by
      have heq := (hnowrap hy).symm.trans hptr
      omega
    refine iff_of_true ?_ ⟨hlow, hhigh⟩
    obtain ⟨segs', hr⟩ := releaseNode_releases hs hx
    obtain ⟨A, r, k, B, z, rfl, hz, hzy, hyz, hstop, hfree⟩ := hr.covered hs
    exact ⟨z, (hr.segments hs).nodeAt hz hzy hyz hstop, hfree⟩

theorem kfree_releases_iff_smallUse :
    ∃ t fuel h' z, Run (guarded .large KeepsList) smallUse [.kmalloc 100] t ∧
      kfree fuel 0x200020 t.heap = .ok h' ∧ NodeAt h' 0x200000 z ∧ (h'.node z).isFree = true := by
  obtain ⟨h, hk, hv, hstart, hend⟩ : ∃ h,
      kmalloc .large 1 100 smallUse.heap = .ok (some 0x200020, h) ∧ h.vmmRegions = [] ∧
      h.kernelHeapStart = 0x200000 ∧ h.kernelHeapEnd = 0x2000b0 := ⟨_, rfl, rfl, rfl, rfl⟩
  have hcall := smallUse_call 100 (by decide) (by decide)
  have hrun : Run (guarded .large KeepsList) smallUse [.kmalloc 100] _ :=
    .extend .start ⟨smallUse_kmalloc 100 1 _ h hk hv, hcall⟩
  obtain ⟨fuel, h', hf, hiff⟩ := kfree_releases_iff .large smallUse _ _ smallUse_initialized hrun
    0x200020 (by simp)
  obtain ⟨z, hz, hfree⟩ := hiff.2 (by rw [hstart, hend]; decide)
  exact ⟨_, fuel, h', z, hrun, hf, hz, hfree⟩

/-- The only allocation takes the tail whole: its payload lies behind
`kernel_heap_end`, and `kfree` does nothing. -/
theorem tail_never_freed :
    ∃ t h', Initialized .large smallUse ∧ Run (callStep .large) smallUse [.kmalloc 2097104] t ∧
      0x200020 ∈ t.live ∧ kfree 0 0x200020 t.heap = .ok h' ∧
      ¬ ∃ z, NodeAt h' (0x200020 - sizeofKHeapMemoryNode) z ∧ (h'.node z).isFree = true := by
  obtain ⟨h, hk, hv, h', hf, hnext, hstart, hused⟩ : ∃ h,
      kmalloc .large 1 2097104 smallUse.heap = .ok (some 0x200020, h) ∧ h.vmmRegions = [] ∧
      ∃ h', kfree 0 0x200020 h = .ok h' ∧ h'.nextOf 0x200000 = none ∧
        h'.kernelHeapStart = 0x200000 ∧ (h'.node 0x200000).isFree = false := by decide +kernel
  refine ⟨_, h', smallUse_initialized, .extend .start (smallUse_kmalloc 2097104 1 _ h hk hv),
    by simp, hf, ?_⟩
  rintro ⟨z, ⟨l, hl, hz, -⟩, hfree⟩
  rw [single_list (by rw [hstart]; exact hnext) hl, List.mem_singleton] at hz
  rw [hz, hstart, hused] at hfree
  cases hfree

end Dreamos64
