import Dreamos64.Mem.KHeapRuns
import Mathlib.Data.List.Pairwise

/-!
# Dreamos64 — `kmalloc` is first-fit and expands at most once

What `kmalloc` returns in the states of `KHeapRuns` in which `kernel_heap_end` is the last
node. Nothing but the regions is mapped, so the call can fault: `create_kheap_node` stores
a header behind the payload, and the last node of a region is recorded 32 bytes too large
(`HeapUse.kmalloc`). Apart from that a search that steps back and forth over the old tail
finds the region that `expand_heap` has added at once: a region never begins where the tail
ends, so it is never merged.

* `header_inside_iff` — the header lies in a region, or what is left of the node is cramped;
* `kmalloc_first_fit` — what `kmalloc` returns, and exactly when it does.
-/

namespace Dreamos64

open Machine Links KHeap

/-! ## The call on mapped memory -/

instance (regions : List HeapRegion) (a size : Nat) : Decidable (Contained regions a size) :=
  inferInstanceAs (Decidable (∃ r ∈ regions, _))

/-- The heap after a call of `kmalloc` that gave `r`. The regions it took are as large as
asked for, in whole pages. -/
def HeapUse.after (m : PageMode) (s : HeapUse) (size : Nat) (r : Option Nat × KHeap) : HeapUse :=
  let taken := s.heap.vmmRegions.take (s.heap.vmmRegions.length - r.2.vmmRegions.length)
  { heap    := r.2
    regions := s.regions ++ taken.map (⟨·, wholePages m (realSize size)⟩)
    live    := r.1.toList ++ s.live }

/-- The header behind the payload `p`, if there is one, lies in a region. -/
def HeapUse.HeaderInside (t : HeapUse) (p : Nat) : Prop :=
  ∀ n ∈ (t.heap.nextOf (p - sizeofKHeapMemoryNode)).toList,
    Contained t.regions n sizeofKHeapMemoryNode

instance (t : HeapUse) (p : Nat) : Decidable (t.HeaderInside p) :=
  inferInstanceAs (Decidable (∀ n ∈ Option.toList _, _))

/-- `kmalloc` where nothing but the regions is mapped. `create_kheap_node` stores the
header of a new node behind the payload that is handed out; the store faults if the header
does not lie in a region. All other headers that the call writes are in the list already, or
at the start of the region it takes. -/
def HeapUse.kmalloc (m : PageMode) (fuel size : Nat) (s : HeapUse) :
    Exec (Option Nat × HeapUse) := do
  let r ← Dreamos64.kmalloc m fuel size s.heap
  if ∀ p ∈ r.1.toList, (s.after m size r).HeaderInside p then .ok (r.1, s.after m size r)
  else .error .outOfBounds

section Call

variable {m : PageMode} {s : HeapUse} {size fuel p : Nat} {h : KHeap}

/-- The call returns if the header is stored inside, and then with what the search gives. -/
theorem HeapUse.kmalloc_iff (hsize : size ≠ 0)
    (hk : Dreamos64.kmalloc m fuel size s.heap = .ok (some p, h)) (regions : List HeapRegion) :
    (∃ fuel t, s.kmalloc m fuel size = .ok (some p, t) ∧ t.regions = regions) ↔
      (s.after m size (some p, h)).regions = regions ∧
        (s.after m size (some p, h)).HeaderInside p := by
  constructor
  · rintro ⟨fuel', t, hrun, hregions⟩
    obtain ⟨r, hr, hrun⟩ := bind_inv hrun
    -- more fuel finds the same node
    obtain rfl : r = (some p, h) := by
      rw [Dreamos64.kmalloc, if_neg hsize] at hr hk
      exact loop_det hr hk
    split_ifs at hrun with hinside
    cases hrun
    exact ⟨hregions, hinside p (by simp)⟩
  · rintro ⟨hregions, hinside⟩
    refine ⟨fuel, s.after m size (some p, h), ?_, hregions⟩
    rw [HeapUse.kmalloc, hk, ok_bind, if_pos (by simpa using hinside)]

end Call

/-! ## The header behind the payload -/

section Header

variable {m : PageMode} {regions : List HeapRegion} {h : KHeap} {segs : List Segment}
  {r q : HeapRegion} {a c real : Nat}

/-- Regions that meet are the same. -/
theorem VmmFresh.eq_of_meet (hfresh : VmmFresh m regions) (hr : r ∈ regions) (hq : q ∈ regions)
    (hrq : r.start < q.stop) (hqr : q.start < r.stop) : r = q := by
  by_contra hne
  have hsymm : Std.Symm fun r q : HeapRegion => r.stop ≤ q.start ∨ q.stop ≤ r.start :=
    ⟨fun _ _ => Or.symm⟩
  have hapart := hfresh.apart.forall hr hq hne
  omega

/-- A node that is split leads on to the header of the rest. -/
theorem takeNode_next (hsplits : splits h real c) :
    (takeNode h real c).nextOf c = some ((c + sizeofKHeapMemoryNode + real) % 2 ^ 64) := by
  unfold takeNode
  rw [if_pos hsplits]
  simp only [nextOf, splitNode, createKheapNode]
  split_ifs <;> simp

/-- **Where the header goes.** The node taken leads on to a header in a region, unless it is
the last one of its region and what is left of it is cramped. -/
theorem header_inside_iff (hs : HeapSegments m regions h segs) (hc : c ∈ nodesOf segs)
    (hfit : fits h real c) (hreal : 0 < real) :
    (∀ n ∈ ((takeNode h real c).nextOf c).toList, Contained regions n sizeofKHeapMemoryNode) ↔
      ((∃ q ∈ regions, c + h.payloadSize c = q.stop) → ¬ Cramped (h.payloadSize c) real) := by
  obtain ⟨A, r, k₁, k₂, B, rfl⟩ := locate hc
  have hr := hs.mem_regions
  constructor
  · rintro hinside ⟨q, hq, hstop⟩ hcramped
    obtain ⟨hlow, -, hpayload⟩ := hs.range (x := c) (by simp)
    have hsize : real ≤ h.payloadSize c := hfit.2
    have hbytes := (hs.fresh.bytes q hq).2
    have hnowrap := hs.fresh.stop r hr
    have hqstart : q.start < q.stop := Nat.lt_add_of_pos_right hbytes
    obtain rfl := hs.fresh.eq_of_meet hr hq (by omega) (by omega)
    -- the header starts in the region, and does not end there
    unfold Cramped kheapMinimumAllocableSize at hcramped
    rw [takeNode_next hcramped.1] at hinside
    unfold sizeofKHeapMemoryNode at *
    obtain ⟨q, hq, hstart, hend⟩ := hinside _ (Option.mem_toList.2 rfl)
    rw [Nat.mod_eq_of_lt (by omega)] at hstart hend
    obtain rfl := hs.fresh.eq_of_meet hr hq (by omega) (by omega)
    omega
  · intro hroom n hn
    rw [Option.mem_toList] at hn
    have hs' := hs.take fun hstop => hroom ⟨r, hr, hstop⟩
    refine hs'.contained (hs'.linked.chain.next_mem ?_ hn)
    rw [nodesOf_at]
    simp

end Header

/-- Up to `2 ^ 40` bytes `real_size` does not wrap. -/
theorem realSize_eq {size : Nat} (hsize : size ≤ 2 ^ 40) :
    realSize size = align (size + sizeofKHeapMemoryNode) := by
  unfold realSize sizeofKHeapMemoryNode
  rw [Nat.mod_eq_of_lt (by omega)]

section Calls

variable {m : PageMode} {s : HeapUse} {segs : List Segment} {l₁ l₂ : List Nat} {size c new : Nat}
  {rest : List Nat}

/-- The first node that fits is taken, and no region. -/
theorem HeapUse.kmalloc_fits_iff (hs : HeapSegments m s.regions s.heap segs) (hsize : size ≠ 0)
    (hreal : 0 < realSize size) (hl : nodesOf segs = l₁ ++ c :: l₂)
    (hpass : ∀ x ∈ l₁, ¬ fits s.heap (realSize size) x ∧ x ≠ s.heap.kernelHeapEnd)
    (hfit : fits s.heap (realSize size) c) :
    (∃ fuel t, s.kmalloc m fuel size = .ok (some (c + sizeofKHeapMemoryNode), t) ∧
        t.regions = s.regions) ↔
      ((∃ r ∈ s.regions, c + s.heap.payloadSize c = r.stop) →
        ¬ Cramped (s.heap.payloadSize c) (realSize size)) := by
  have hc : c ∈ nodesOf segs := by simp [hl]
  have hlinked := hs.linked
  rw [hl] at hlinked
  have hk := Dreamos64.kmalloc_fits (m := m) hlinked hsize hpass hfit
  rw [hs.nowrap hc] at hk
  rw [HeapUse.kmalloc_iff hsize hk, ← header_inside_iff hs hc hfit hreal]
  simp [HeapUse.after, HeapUse.HeaderInside, takeNode_vmmRegions]

/-- If the last node does not fit either, the region that `expand_heap` adds is taken. -/
theorem HeapUse.kmalloc_grows_iff (hs : HeapSegments m s.regions s.heap segs) (hsize : size ≠ 0)
    (hreal : 0 < realSize size) (hl : nodesOf segs = l₁ ++ s.heap.kernelHeapEnd :: l₂)
    (hpass : ∀ x ∈ l₁, ¬ fits s.heap (realSize size) x ∧ x ≠ s.heap.kernelHeapEnd)
    (hfit : ¬ fits s.heap (realSize size) s.heap.kernelHeapEnd)
    (hr : s.heap.vmmRegions = new :: rest)
    (hfresh : VmmFresh m (s.regions ++ [⟨new, wholePages m (realSize size)⟩])) :
    (∃ fuel t, s.kmalloc m fuel size = .ok (some (new + sizeofKHeapMemoryNode), t) ∧
        t.regions = s.regions ++ [⟨new, wholePages m (realSize size)⟩]) ↔
      ¬ Cramped (wholePages m (realSize size)) (realSize size) := by
  have hend : s.heap.kernelHeapEnd ∈ nodesOf segs := by simp [hl]
  have hlinked := hs.linked
  have hnew := hs.start_not_mem hfresh
  rw [hl] at hlinked hnew
  have hk := Dreamos64.kmalloc_grows hlinked hsize hpass hfit hnew
    (expandHeap_region hs hend hr hfresh).2 (le_wholePages m _)
  -- the region is a segment of one node, that ends with it
  obtain ⟨A, r, k₁, k₂, B, rfl⟩ := locate hend
  have he : Expands m s.regions s.heap _ ⟨new, wholePages m (realSize size)⟩ _ _ :=
    ⟨hfresh, ⟨rest, rfl⟩, A, r, k₁, k₂, B, rfl, rfl⟩
  have hs₁ := he.segments hs
  have hmem : new ∈ nodesOf (A ++ ⟨r, k₁ ++ [s.heap.kernelHeapEnd]⟩ ::
      [⟨⟨new, wholePages m (realSize size)⟩, [new]⟩]) := by simp [nodesOf]
  have hnode := he.node hs new
  rw [if_pos rfl] at hnode
  have hfit₁ : fits (expandNode s.heap new rest (wholePages m (realSize size)))
      (realSize size) new := by
    rw [fits, hnode]
    exact ⟨rfl, le_wholePages m _⟩
  have hinside := header_inside_iff hs₁ hmem hfit₁ hreal
  rw [payloadSize, hnode] at hinside
  rw [hs₁.nowrap hmem] at hk
  have hregions : (s.after m size (some (new + sizeofKHeapMemoryNode),
      takeNode (expandNode s.heap new rest (wholePages m (realSize size))) (realSize size)
        new)).regions = s.regions ++ [⟨new, wholePages m (realSize size)⟩] := by
    simp [HeapUse.after, takeNode_vmmRegions, expandNode, hr]
  rw [HeapUse.kmalloc_iff hsize hk, HeapUse.HeaderInside, hregions, Nat.add_sub_cancel]
  simp only [true_and]
  exact hinside.trans
    (forall_prop_of_true ⟨⟨new, wholePages m (realSize size)⟩, by simp, rfl⟩)

end Calls

/-- **`kmalloc` is first-fit and expands at most once.** In every state reached from
`initialize_kheap` in which `kernel_heap_end` is the last node, and for every size up to
`2 ^ 40`: `kmalloc` returns with the payload of the first node in the list that fits and
without a region from `vmm_alloc`; or, if none fits, with the payload of the next region,
the only one that it takes. It faults instead if what it takes is at the end of a region and
cramped. -/
theorem kmalloc_first_fit (m : PageMode) (s₀ s : HeapUse) (calls : List HeapCall)
    (hi : Initialized m s₀) (hrun : Run (guarded m fun _ _ => True) s₀ calls s)
    (htail : TailLast s.heap) (size : Nat) (hpos : 0 < size) (hsize : size ≤ 2 ^ 40) :
    ∃ l, Chain s.heap.nextOf (some s.heap.kernelHeapStart) l ∧
      (∀ l₁ c l₂, l = l₁ ++ c :: l₂ →
        (∀ x ∈ l₁, ¬ fits s.heap (align (size + sizeofKHeapMemoryNode)) x) →
        fits s.heap (align (size + sizeofKHeapMemoryNode)) c →
        ((∃ fuel t, s.kmalloc m fuel size = .ok (some (c + sizeofKHeapMemoryNode), t) ∧
            t.regions = s.regions) ↔
          ((∃ r ∈ s.regions, c + s.heap.payloadSize c = r.stop) →
            ¬ Cramped (s.heap.payloadSize c) (align (size + sizeofKHeapMemoryNode))))) ∧
      ((∀ x ∈ l, ¬ fits s.heap (align (size + sizeofKHeapMemoryNode)) x) →
        ∀ new rest bytes, s.heap.vmmRegions = new :: rest →
          bytes = wholePages m (align (size + sizeofKHeapMemoryNode)) →
          VmmFresh m (s.regions ++ [⟨new, bytes⟩]) →
          ((∃ fuel t, s.kmalloc m fuel size = .ok (some (new + sizeofKHeapMemoryNode), t) ∧
              t.regions = s.regions ++ [⟨new, bytes⟩]) ↔
            ¬ Cramped bytes (align (size + sizeofKHeapMemoryNode)))) := by
  obtain ⟨segs, hs⟩ := run_segments hi hrun
  obtain ⟨hlast, l₀, hl₀⟩ := htail
  have hl := hs.linked.chain.unique hl₀
  have hreal : 0 < realSize size := by
    rw [realSize_eq hsize]
    unfold align heapAllocAlignment sizeofKHeapMemoryNode
    omega
  -- a node in front of another one is not `kernel_heap_end`
  have hbefore {l₁ l₂ : List Nat} {c : Nat} (hc : nodesOf segs = l₁ ++ c :: l₂) (x : Nat)
      (hx : x ∈ l₁) : x ≠ s.heap.kernelHeapEnd := by
    rintro rfl
    obtain ⟨k₁, k₂, rfl⟩ := List.append_of_mem hx
    have hchain := hs.linked.chain
    rw [hc, List.append_assoc, List.cons_append] at hchain
    have hnext := hchain.next_eq
    rw [hlast] at hnext
    simp at hnext
  rw [← realSize_eq hsize]
  refine ⟨nodesOf segs, hs.linked.chain, fun l₁ c l₂ hc hpass hfit => ?_, ?_⟩
  · exact HeapUse.kmalloc_fits_iff hs (by omega) hreal hc
      (fun x hx => ⟨hpass x hx, hbefore hc x hx⟩) hfit
  · rintro hpass new rest bytes hr rfl hfresh
    rw [hl] at hpass
    exact HeapUse.kmalloc_grows_iff hs (by omega) hreal hl
      (fun x hx => ⟨hpass x (by simp [hx]), hbefore hl x hx⟩) (hpass _ (by simp)) hr hfresh

/-- The heap of `smallUse` with one more region to come, right behind the first. -/
def growingUse : HeapUse :=
  { smallUse with heap := { smallUse.heap with vmmRegions := [0x400000] } }

/-- 100 bytes come from the first node, 2 MiB from the second region. -/
theorem kmalloc_first_fit_growingUse :
    (∃ fuel t, growingUse.kmalloc .large fuel 100 = .ok (some 0x200020, t) ∧
      t.regions = growingUse.regions) ∧
    ∃ fuel t, growingUse.kmalloc .large fuel 0x200000 = .ok (some 0x400020, t) ∧
      t.regions = [⟨0x200000, 0x200000⟩, ⟨0x400000, 0x400000⟩] := by
  have hone : Chain growingUse.heap.nextOf (some 0x200000) [0x200000] := by
    simp [growingUse, smallUse, nextOf]
  have htail : TailLast growingUse.heap := ⟨rfl, [], hone⟩
  constructor
  · obtain ⟨l, hl, hfirst, -⟩ := kmalloc_first_fit .large _ growingUse []
      (smallUse_rest [0x400000]) .start htail 100 (by decide) (by decide)
    exact (hfirst [] 0x200000 [] (hl.unique hone) (by simp) (by decide)).2 fun _ => by decide
  · obtain ⟨l, hl, -, hgrows⟩ := kmalloc_first_fit .large _ growingUse []
      (smallUse_rest [0x400000]) .start htail 0x200000 (by decide) (by decide)
    obtain rfl := hl.unique hone
    exact (hgrows (by decide) 0x400000 [] 0x400000 rfl (by decide)
      ⟨by decide, by decide, by decide, by decide⟩).2 (by decide)

/-- 48 bytes of the only node are left, and the header that goes there ends 16 bytes behind
the region: a call that fits is not served. -/
theorem kmalloc_first_fit_faults :
    Initialized .large smallUse ∧ TailLast smallUse.heap ∧
      fits smallUse.heap (align (2097056 + sizeofKHeapMemoryNode)) smallUse.heap.kernelHeapStart ∧
      ∀ fuel, smallUse.kmalloc .large (fuel + 1) 2097056 = .error .outOfBounds :=
  ⟨smallUse_initialized, ⟨rfl, [], by simp [smallUse, nextOf]⟩, by decide, fun _ => rfl⟩

end Dreamos64
