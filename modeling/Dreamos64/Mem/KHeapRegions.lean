import Dreamos64.Lib.Run
import Dreamos64.Lib.Tiling
import Dreamos64.Mem.KHeapEdits

/-!
# Dreamos64 — a heap of several regions

`expand_heap` asks `vmm_alloc` for another region when no node is large enough,
so the list runs through one region after the other. `HeapSegments` says how:
the nodes of a region lie end to end from its start, and every header lies
inside its region.

Both `initialize_kheap` and `expand_heap` record the whole region as the size of
its first node, although the layout rule of `create_kheap_node` and
`merge_memory_nodes` does not count the header. The nodes of a region therefore
reach 32 bytes past its end. That is harmless for payloads, which `kmalloc` makes
32 bytes too small, but not for a header that is put there.

* `HeapSegments.split`  — a node is split, with the new header inside the region;
* `HeapSegments.merge`  — neighbours in one region become one node;
* `HeapSegments.expand` — a region is added;
* `HeapSegments.neighbours` — nodes that touch lie in one region.

Headers inside pairwise disjoint regions, end to end, do not overlap, so reading
memory as headers by address is accurate for these heaps.
-/

namespace Dreamos64

open Machine Links Blocks KHeap

/-! ## Regions -/

/-- A region that `vmm_alloc` handed out. -/
structure HeapRegion where
  start : Nat
  bytes : Nat
  deriving DecidableEq, Repr

def HeapRegion.stop (r : HeapRegion) : Nat := r.start + r.bytes

/-- What the heap relies on: regions of whole pages, not at NULL, that end inside
the address space and do not overlap. -/
structure VmmFresh (m : PageMode) (regions : List HeapRegion) : Prop where
  start : ∀ r ∈ regions, pageSizeInBytes m ∣ r.start ∧ 0 < r.start
  bytes : ∀ r ∈ regions, pageSizeInBytes m ∣ r.bytes ∧ 0 < r.bytes
  stop  : ∀ r ∈ regions, r.stop < 2 ^ 64
  apart : regions.Pairwise fun r q => r.stop ≤ q.start ∨ q.stop ≤ r.start

/-- A region with the nodes that the list has in it. -/
structure Segment where
  region : HeapRegion
  nodes  : List Nat

/-- The nodes of all segments, in list order. -/
def nodesOf (segs : List Segment) : List Nat := segs.flatMap Segment.nodes

/-- The list runs through the segments. The nodes of one lie end to end and reach
the end of the region plus the size of a header, unless the list was cut. -/
structure HeapSegments (m : PageMode) (regions : List HeapRegion) (h : KHeap)
    (segs : List Segment) : Prop where
  linked : Linked h (nodesOf segs)
  known  : (segs.map Segment.region).Sublist regions
  fresh  : VmmFresh m regions
  tiled  : ∀ g ∈ segs, ∃ e, (e = g.region.stop + sizeofKHeapMemoryNode ∨
    e + sizeofKHeapMemoryNode ≤ g.region.stop) ∧ Tiling h.extent g.region.start g.nodes e
  inside : ∀ g ∈ segs, ∀ x ∈ g.nodes, x + sizeofKHeapMemoryNode ≤ g.region.stop

/-- `p` has its bytes in one of the regions. -/
def Contained (regions : List HeapRegion) (a size : Nat) : Prop :=
  ∃ r ∈ regions, r.start ≤ a ∧ a + size ≤ r.stop

section Arithmetic

variable {m : PageMode} {regions : List HeapRegion} {r : HeapRegion}

/-- No page boundary lies one header behind another one. -/
theorem stop_add_header_ne (hr : pageSizeInBytes m ∣ r.start ∧ 0 < r.start)
    (hb : pageSizeInBytes m ∣ r.bytes ∧ 0 < r.bytes) {a : Nat} (ha : pageSizeInBytes m ∣ a) :
    r.stop + sizeofKHeapMemoryNode ≠ a := by
  obtain ⟨⟨i, hi⟩, -⟩ := hr
  obtain ⟨⟨j, hj⟩, -⟩ := hb
  obtain ⟨k, rfl⟩ := ha
  unfold HeapRegion.stop sizeofKHeapMemoryNode
  rw [hi, hj]
  cases m <;> simp only [pageSizeInBytes] <;> omega

/-- A region leaves room for a header behind it in the address space. -/
theorem VmmFresh.stop_add_header_lt (hf : VmmFresh m regions) (hr : r ∈ regions) :
    r.stop + sizeofKHeapMemoryNode < 2 ^ 64 := by
  have hlt := hf.stop r hr
  obtain ⟨⟨i, hi⟩, -⟩ := hf.start r hr
  obtain ⟨⟨j, hj⟩, -⟩ := hf.bytes r hr
  unfold HeapRegion.stop sizeofKHeapMemoryNode at *
  rw [hi, hj] at hlt ⊢
  cases m <;> simp only [pageSizeInBytes] at hlt ⊢ <;> omega

theorem VmmFresh.sublist {regions' : List HeapRegion} (hf : VmmFresh m regions)
    (hsub : regions'.Sublist regions) : VmmFresh m regions' where
  start r hr := hf.start r (hsub.subset hr)
  bytes r hr := hf.bytes r (hsub.subset hr)
  stop r hr := hf.stop r (hsub.subset hr)
  apart := hf.apart.sublist hsub

/-- The size `expand_heap` records is that of the region. -/
theorem region_pages {new n : Nat} (hf : VmmFresh m regions)
    (hr : (⟨new, wholePages m n⟩ : HeapRegion) ∈ regions) :
    pageSizeInBytes m * getNumberOfPagesFromSize m n % 2 ^ 64 = wholePages m n := by
  have hlt := hf.stop _ hr
  obtain ⟨⟨i, hi⟩, hpos⟩ := hf.start _ hr
  have hle := le_wholePages m n
  unfold HeapRegion.stop at hlt
  simp only at hi hlt hpos
  rw [hi] at hlt hpos
  have hnowrap : n + pageSizeInBytes m - 1 < 2 ^ 64 := by
    have hone : 1 ≤ i := by
      rcases Nat.eq_zero_or_pos i with rfl | h
      · simp at hpos
      · exact h
    have hpage : pageSizeInBytes m ≤ pageSizeInBytes m * i := Nat.le_mul_of_pos_right _ hone
    omega
  rw [page_mul_pages hnowrap]
  exact Nat.mod_eq_of_lt (by omega)

end Arithmetic

/-! ## Segments -/

section Segments

variable {m : PageMode} {regions : List HeapRegion} {h h' : KHeap} {segs A B : List Segment}
  {r : HeapRegion} {k k' k₁ k₂ : List Nat} {cur size x y : Nat}

theorem nodesOf_middle (A B : List Segment) (r : HeapRegion) (k : List Nat) :
    nodesOf (A ++ ⟨r, k⟩ :: B) = nodesOf A ++ (k ++ nodesOf B) := by
  simp [nodesOf]

theorem nodesOf_at (A B : List Segment) (r : HeapRegion) (k₁ k₂ : List Nat) (x : Nat) :
    nodesOf (A ++ ⟨r, k₁ ++ x :: k₂⟩ :: B) = (nodesOf A ++ k₁) ++ x :: (k₂ ++ nodesOf B) := by
  simp [nodesOf]

/-- The place of a node in its segment. -/
theorem locate (hx : x ∈ nodesOf segs) :
    ∃ A r k₁ k₂ B, segs = A ++ ⟨r, k₁ ++ x :: k₂⟩ :: B := by
  obtain ⟨⟨r, k⟩, hg, hxk⟩ := List.mem_flatMap.1 hx
  obtain ⟨A, B, rfl⟩ := List.append_of_mem hg
  obtain ⟨k₁, k₂, hk⟩ := List.append_of_mem hxk
  obtain rfl : k = k₁ ++ x :: k₂ := hk
  exact ⟨A, r, k₁, k₂, B, rfl⟩

namespace HeapSegments

section

variable (hs : HeapSegments m regions h (A ++ ⟨r, k⟩ :: B))

include hs

theorem mem_regions : r ∈ regions :=
  hs.known.subset (by simp)

/-- A node lies in its region, its payload in the region and a header behind it. -/
theorem range (hx : x ∈ k) :
    r.start ≤ x ∧ x + sizeofKHeapMemoryNode ≤ r.stop ∧ x + h.payloadSize x ≤ r.stop := by
  have hg : (⟨r, k⟩ : Segment) ∈ A ++ ⟨r, k⟩ :: B := by simp
  obtain ⟨e, he, htile⟩ := hs.tiled _ hg
  obtain ⟨hstart, hend⟩ := htile.mem_range hx
  refine ⟨hstart, hs.inside _ hg x hx, ?_⟩
  unfold extent at hend
  simp only at he
  omega

/-- The regions of the segments do not meet. -/
theorem apart :
    (∀ g ∈ A, g.region.stop ≤ r.start ∨ r.stop ≤ g.region.start) ∧
      ∀ g ∈ B, r.stop ≤ g.region.start ∨ g.region.stop ≤ r.start := by
  have hapart : ((A ++ ⟨r, k⟩ :: B).map Segment.region).Pairwise
      fun r q => r.stop ≤ q.start ∨ q.stop ≤ r.start := hs.fresh.apart.sublist hs.known
  simp only [List.map_append, List.map_cons, List.pairwise_append, List.pairwise_cons,
    List.mem_map] at hapart
  obtain ⟨-, ⟨hB, -⟩, hA⟩ := hapart
  exact ⟨fun g hg => hA g.region ⟨g, hg, rfl⟩ r List.mem_cons_self,
    fun g hg => hB g.region ⟨g, hg, rfl⟩⟩

/-- An address with room for a header in one region is no node of the others. -/
theorem not_mem_others (hx : r.start ≤ x) (hx' : x + sizeofKHeapMemoryNode ≤ r.stop) :
    x ∉ nodesOf A ∧ x ∉ nodesOf B := by
  have hpos : 0 < sizeofKHeapMemoryNode := by decide
  obtain ⟨hA, hB⟩ := hs.apart
  have hclash {g : Segment} (hg : g ∈ A ++ ⟨r, k⟩ :: B) (hxg : x ∈ g.nodes)
      (hapart : g.region.stop ≤ r.start ∨ r.stop ≤ g.region.start) : False := by
    obtain ⟨e, -, htile⟩ := hs.tiled g hg
    have hlow := (htile.mem_range hxg).1
    have hhigh := hs.inside g hg x hxg
    omega
  constructor
  · intro hmem
    obtain ⟨g, hg, hxg⟩ := List.mem_flatMap.1 hmem
    exact hclash (List.mem_append_left _ hg) hxg (hA g hg)
  · intro hmem
    obtain ⟨g, hg, hxg⟩ := List.mem_flatMap.1 hmem
    exact hclash (List.mem_append_right _ (List.mem_cons_of_mem _ hg)) hxg (hB g hg).symm

/-- The rule for an edit within one segment. -/
theorem replace (hlinked : Linked h' (nodesOf (A ++ ⟨r, k'⟩ :: B)))
    (htile : ∀ e, Tiling h.extent r.start k e → Tiling h'.extent r.start k' e)
    (hinside : ∀ x ∈ k', x + sizeofKHeapMemoryNode ≤ r.stop)
    (hsame : ∀ x, x ∈ nodesOf A ∨ x ∈ nodesOf B → h'.payloadSize x = h.payloadSize x) :
    HeapSegments m regions h' (A ++ ⟨r, k'⟩ :: B) := by
  have hother {g : Segment} (hg : g ∈ A ++ B) : g ∈ A ++ ⟨r, k⟩ :: B ∧
      ∀ x ∈ g.nodes, h'.extent x = h.extent x := by
    rw [List.mem_append] at hg ⊢
    refine ⟨hg.imp_right (List.mem_cons_of_mem _), fun x hx => ?_⟩
    rw [extent, extent, hsame x (hg.imp (fun hg => List.mem_flatMap.2 ⟨g, hg, hx⟩)
      (fun hg => List.mem_flatMap.2 ⟨g, hg, hx⟩))]
  have hcases {g : Segment} (hg : g ∈ A ++ ⟨r, k'⟩ :: B) : g = ⟨r, k'⟩ ∨ g ∈ A ++ B := by
    simp only [List.mem_append, List.mem_cons] at hg ⊢
    tauto
  refine ⟨hlinked, ?_, hs.fresh, fun g hg => ?_, fun g hg => ?_⟩
  · simpa using hs.known
  · rcases hcases hg with rfl | hg
    · obtain ⟨e, he, htiled⟩ := hs.tiled ⟨r, k⟩ (by simp)
      exact ⟨e, he, htile e htiled⟩
    · obtain ⟨hg', hext⟩ := hother hg
      obtain ⟨e, he, htiled⟩ := hs.tiled g hg'
      exact ⟨e, he, htiled.congr hext⟩
  · rcases hcases hg with rfl | hg
    · exact hinside
    · exact hs.inside g (hother hg).1

end

theorem setIsFree (hs : HeapSegments m regions h segs) (a : Nat) (b : Bool) :
    HeapSegments m regions (h.setIsFree a b) segs := by
  have hext : (h.setIsFree a b).extent = h.extent := by
    funext x
    simp only [extent, payloadSize, KHeap.setIsFree, write_node]
    split <;> rfl
  exact ⟨hs.linked.setIsFree a b, hs.known, hs.fresh, by rw [hext]; exact hs.tiled, hs.inside⟩

/-- A split that keeps the new header inside the region. -/
theorem split_fresh (hs : HeapSegments m regions h (A ++ ⟨r, k₁ ++ cur :: k₂⟩ :: B))
    (hsize : size + sizeofKHeapMemoryNode ≤ h.payloadSize cur)
    (hinside : cur + sizeofKHeapMemoryNode + size + sizeofKHeapMemoryNode ≤ r.stop) :
    (cur + sizeofKHeapMemoryNode + size) % 2 ^ 64 = cur + sizeofKHeapMemoryNode + size ∧
      cur + sizeofKHeapMemoryNode + size ∉ nodesOf (A ++ ⟨r, k₁ ++ cur :: k₂⟩ :: B) := by
  have hpos : 0 < sizeofKHeapMemoryNode := by decide
  have hcur : cur ∈ k₁ ++ cur :: k₂ := by simp
  obtain ⟨hstart, -, -⟩ := hs.range hcur
  have hstop := hs.fresh.stop r hs.mem_regions
  refine ⟨Nat.mod_eq_of_lt (by omega), ?_⟩
  obtain ⟨hA, hB⟩ := hs.not_mem_others (x := cur + sizeofKHeapMemoryNode + size) (by omega) hinside
  rw [nodesOf_middle, List.mem_append, List.mem_append, not_or, not_or]
  refine ⟨hA, fun hmem => ?_, hB⟩
  -- it lies inside the extent of `cur`
  obtain ⟨e, -, htile⟩ := hs.tiled ⟨r, k₁ ++ cur :: k₂⟩ (by simp)
  have hapart := htile.apart hcur hmem (by omega)
  unfold extent at hapart
  omega

theorem split (hs : HeapSegments m regions h (A ++ ⟨r, k₁ ++ cur :: k₂⟩ :: B))
    (hsize : size + sizeofKHeapMemoryNode ≤ h.payloadSize cur)
    (hinside : cur + sizeofKHeapMemoryNode + size + sizeofKHeapMemoryNode ≤ r.stop) :
    HeapSegments m regions (splitNode h cur size)
      (A ++ ⟨r, k₁ ++ cur :: (cur + sizeofKHeapMemoryNode + size) :: k₂⟩ :: B) := by
  obtain ⟨hmod, hfresh⟩ := hs.split_fresh hsize hinside
  have hlinked := hs.linked
  have hstop := hs.fresh.stop r hs.mem_regions
  have hcur := (hs.range (x := cur) (by simp)).2.2
  rw [nodesOf_at] at hlinked hfresh
  obtain ⟨hsc, hsn, hold⟩ := hlinked.split_sizes hmod hfresh hsize (by omega)
  have hsplit := hlinked.split hmod hfresh
  -- the second header stays a name, so that `omega` does not unfold its address
  obtain ⟨new, hnew⟩ : ∃ new, new = cur + sizeofKHeapMemoryNode + size := ⟨_, rfl⟩
  rw [← hnew] at hsn hsplit ⊢
  refine hs.replace ?_ (fun e htile => ?_) (fun z hz => ?_) fun z hz => hold z ?_
  · rw [nodesOf_at]
    exact hsplit
  -- the two nodes together take the place of the one that was cut
  · have hcut : new = cur + (splitNode h cur size).extent cur := by
      rw [extent, hsc]
      omega
    rw [hcut]
    refine htile.split ?_ fun z hz => ?_
    · rw [← hcut, extent, extent, extent, hsc, hsn]
      omega
    · rw [extent, extent, hold z]
      simp only [List.mem_append] at hz ⊢
      tauto
  · simp only [List.mem_append, List.mem_cons] at hz
    rcases hz with hz | rfl | rfl | hz
    · exact (hs.range (by simp [hz])).2.1
    · exact (hs.range (by simp)).2.1
    · omega
    · exact (hs.range (by simp [hz])).2.1
  · simp only [List.mem_append]
    tauto

section

variable (hs : HeapSegments m regions h (A ++ ⟨r, k₁ ++ x :: y :: k₂⟩ :: B))

include hs

theorem merge_adj : (x + h.payloadSize x + sizeofKHeapMemoryNode) % 2 ^ 64 = y := by
  obtain ⟨e, -, htile⟩ := hs.tiled ⟨r, k₁ ++ x :: y :: k₂⟩ (by simp)
  have hnext := htile.next_eq
  have hy := (hs.range (x := y) (by simp)).2.1
  have hstop := hs.fresh.stop r hs.mem_regions
  unfold extent at hnext
  rw [Nat.mod_eq_of_lt (by omega)]
  omega

/-- A merge of neighbours in one region. -/
theorem merge :
    HeapSegments m regions (mergeMemoryNodes h (some x) (some y))
      (A ++ ⟨r, k₁ ++ x :: k₂⟩ :: B) := by
  have hadj := hs.merge_adj
  have hlinked := hs.linked
  rw [nodesOf_at, List.cons_append] at hlinked
  have hx := hs.range (x := x) (by simp)
  have hy := hs.range (x := y) (by simp)
  have hstop := hs.fresh.stop r hs.mem_regions
  obtain ⟨e, -, htile⟩ := hs.tiled ⟨r, k₁ ++ x :: y :: k₂⟩ (by simp)
  have hnext := htile.next_eq
  unfold extent at hnext
  obtain ⟨hsx, hold⟩ := hlinked.merge_sizes hadj (by omega)
  refine hs.replace ?_ (fun e htile => htile.join ?_ fun z hz => ?_) (fun z hz => ?_)
    fun z hz => hold z ?_
  · rw [nodesOf_at]
    exact hlinked.merge hadj
  · rw [extent, extent, extent, hsx]
    omega
  · rw [extent, extent, hold z]
    simp only [List.mem_append] at hz ⊢
    tauto
  · refine (hs.range ?_).2.1
    simp only [List.mem_append, List.mem_cons] at hz ⊢
    tauto
  · simp only [List.mem_append]
    tauto

end

theorem head_start (hs : HeapSegments m regions h segs) (hsub : ∀ g ∈ B, g ∈ segs)
    (hy : (nodesOf B).head? = some y) : ∃ g ∈ B, y = g.region.start := by
  induction B with
  | nil => simp [nodesOf] at hy
  | cons g B ih =>
    obtain ⟨e, -, htile⟩ := hs.tiled g (hsub g List.mem_cons_self)
    cases hk : g.nodes with
    | nil =>
      have htail : (nodesOf B).head? = some y := by simpa [nodesOf, hk] using hy
      obtain ⟨q, hq, hstart⟩ := ih (fun q hq => hsub q (List.mem_cons_of_mem _ hq)) htail
      exact ⟨q, List.mem_cons_of_mem _ hq, hstart⟩
    | cons z k =>
      obtain rfl : z = y := by simpa [nodesOf, hk] using hy
      rw [hk] at htile
      exact ⟨g, List.mem_cons_self, htile.1⟩

/-- The last node of a segment does not touch another region: it ends one header
behind a page boundary, or inside its own region. -/
theorem last_apart {q : HeapRegion} (hs : HeapSegments m regions h (A ++ ⟨r, k₁ ++ [x]⟩ :: B))
    (hq : pageSizeInBytes m ∣ q.start) (hbytes : 0 < q.bytes)
    (hapart : r.stop ≤ q.start ∨ q.stop ≤ r.start) :
    (x + sizeofKHeapMemoryNode + h.payloadSize x) % 2 ^ 64 ≠ q.start := by
  have hr := hs.mem_regions
  obtain ⟨e, he, htile⟩ := hs.tiled ⟨r, k₁ ++ [x]⟩ (by simp)
  obtain ⟨a, -, hxa, hend⟩ := tiling_append.mp htile
  rw [tiling_nil] at hend
  obtain ⟨hlow, -, -⟩ := hs.range (x := x) (by simp)
  have hroom := hs.fresh.stop_add_header_lt hr
  have hpos : 0 < sizeofKHeapMemoryNode := by decide
  unfold extent at hend
  simp only at he
  rw [Nat.mod_eq_of_lt (by omega)]
  rcases he with he | he
  · have hne := stop_add_header_ne (hs.fresh.start r hr) (hs.fresh.bytes r hr) hq
    omega
  · unfold HeapRegion.stop at hapart he
    omega

/-- **Neighbours that touch are in one region.** The nodes of a region end one header
behind a page boundary, and no region starts there. -/
theorem neighbours {l₁ l₂ : List Nat} (hs : HeapSegments m regions h segs)
    (hl : nodesOf segs = l₁ ++ x :: y :: l₂)
    (hadj : (x + sizeofKHeapMemoryNode + h.payloadSize x) % 2 ^ 64 = y) :
    ∃ A r k₁ k₂ B, segs = A ++ ⟨r, k₁ ++ x :: y :: k₂⟩ :: B ∧ l₁ = nodesOf A ++ k₁ ∧
      l₂ = k₂ ++ nodesOf B := by
  have hx : x ∈ nodesOf segs := by
    rw [hl]
    simp
  obtain ⟨A, r, k₁, k₂, B, rfl⟩ := locate hx
  have hnd := hs.linked.chain.nodup
  rw [nodesOf_at] at hl hnd
  have hcut : l₁ = nodesOf A ++ k₁ ∧ y :: l₂ = k₂ ++ nodesOf B := by
    have hleft := not_mem_of_nodup_middle hnd
    have hright := not_mem_of_nodup_middle (hl ▸ hnd)
    rw [List.mem_append, not_or] at hleft hright
    have heq := (List.append_cons_inj_of_notMem hright.1 hright.2).1 hl.symm
    exact ⟨heq.1, heq.2.2⟩
  obtain ⟨hl₁, hl₂⟩ := hcut
  cases k₂ with
  | cons z k₂ =>
    obtain ⟨rfl, rfl⟩ := List.cons.inj hl₂
    exact ⟨A, r, k₁, k₂, B, rfl, hl₁, rfl⟩
  | nil =>
    -- `x` is the last node of its segment, and `y` the first of another one
    exfalso
    have hsub : ∀ g ∈ B, g ∈ A ++ ⟨r, k₁ ++ [x]⟩ :: B := fun g hg =>
      List.mem_append_right _ (List.mem_cons_of_mem _ hg)
    have hy : (nodesOf B).head? = some y := by
      rw [List.nil_append] at hl₂
      rw [← hl₂]
      rfl
    obtain ⟨g, hg, hstart⟩ := hs.head_start hsub hy
    have hgr : g.region ∈ regions := hs.known.subset (List.mem_map_of_mem (hsub g hg))
    exact hs.last_apart (hs.fresh.start _ hgr).1 (hs.fresh.bytes _ hgr).2 (hs.apart.2 g hg)
      (hadj.trans hstart)

/-- No header is so near the top that the address of its payload wraps. -/
theorem nowrap (hs : HeapSegments m regions h segs) (hx : x ∈ nodesOf segs) :
    (x + sizeofKHeapMemoryNode) % 2 ^ 64 = x + sizeofKHeapMemoryNode := by
  obtain ⟨A, r, k₁, k₂, B, rfl⟩ := locate hx
  have hin := (hs.range (x := x) (by simp)).2.1
  exact Nat.mod_eq_of_lt (Nat.lt_of_le_of_lt hin (hs.fresh.stop r hs.mem_regions))

/-- A region that does not meet the others has no node at its start. -/
theorem start_not_mem {q : HeapRegion} (hs : HeapSegments m regions h segs)
    (hfresh : VmmFresh m (regions ++ [q])) : q.start ∉ nodesOf segs := by
  intro hmem
  obtain ⟨A, r, k₁, k₂, B, rfl⟩ := locate hmem
  obtain ⟨hlow, hhigh, -⟩ := hs.range (x := q.start) (by simp)
  have hapart := (List.pairwise_append.1 hfresh.apart).2.2 r hs.mem_regions q (by simp)
  have hbytes := (hfresh.bytes q (by simp)).2
  unfold HeapRegion.stop sizeofKHeapMemoryNode at *
  omega

/-- **Expansion.** The list is cut behind `kernel_heap_end`, if it went on there, and
continues with the new region. -/
theorem expand {q : HeapRegion} (rest : List Nat)
    (hs : HeapSegments m regions h (A ++ ⟨r, k₁ ++ h.kernelHeapEnd :: k₂⟩ :: B))
    (hfresh : VmmFresh m (regions ++ [q])) :
    HeapSegments m (regions ++ [q]) (expandNode h q.start rest q.bytes)
      (A ++ ⟨r, k₁ ++ [h.kernelHeapEnd]⟩ :: [⟨q, [q.start]⟩]) := by
  have hnew := hs.start_not_mem hfresh
  have hlinked := hs.linked
  have hmem : h.kernelHeapEnd ∈ nodesOf (A ++ ⟨r, k₁ ++ h.kernelHeapEnd :: k₂⟩ :: B) := by
    rw [nodesOf_at]
    simp
  have hend : h.kernelHeapEnd ≠ q.start := fun e => hnew (e ▸ hmem)
  have hsz (b : Nat) (hb : b ≠ q.start) :
      (expandNode h q.start rest q.bytes).extent b = h.extent b := by
    rw [extent, extent, payloadSize, payloadSize, expandNode_node rest q.bytes hend, if_neg hb]
    split_ifs <;> rfl
  have hold {g : Segment} (hg : g ∈ A ++ ⟨r, k₁ ++ h.kernelHeapEnd :: k₂⟩ :: B) {x : Nat}
      (hx : x ∈ g.nodes) : x ≠ q.start := fun e => hnew (e ▸ List.mem_flatMap.2 ⟨g, hg, hx⟩)
  refine ⟨?_, ?_, hfresh, fun g hg => ?_, fun g hg => ?_⟩
  · rw [nodesOf_at] at hlinked hnew
    have happend := hlinked.expand rest q.bytes hnew
    simpa [nodesOf] using happend
  · have hknown := hs.known
    simp only [List.map_append, List.map_cons, List.map_nil] at hknown ⊢
    have hfront : (A.map Segment.region ++ [r]).Sublist regions := by
      refine List.Sublist.trans ?_ hknown
      exact (List.Sublist.refl _).append (by simp)
    simpa using hfront.append (List.Sublist.refl [q])
  · simp only [List.mem_append, List.mem_cons, List.not_mem_nil, or_false] at hg
    rcases hg with hg | rfl | rfl
    · have hg' : g ∈ A ++ ⟨r, k₁ ++ h.kernelHeapEnd :: k₂⟩ :: B := List.mem_append_left _ hg
      obtain ⟨e, he, htile⟩ := hs.tiled g hg'
      exact ⟨e, he, htile.congr fun x hx => hsz x (hold hg' hx)⟩
    · -- the segment of `kernel_heap_end` ends with it
      have hg' : (⟨r, k₁ ++ h.kernelHeapEnd :: k₂⟩ : Segment) ∈
          A ++ ⟨r, k₁ ++ h.kernelHeapEnd :: k₂⟩ :: B := by simp
      obtain ⟨e, he, htile⟩ := hs.tiled _ hg'
      obtain ⟨a, hfront, rfl, hback⟩ := tiling_append.mp htile
      refine ⟨_, ?_, tiling_append.mpr ⟨_, hfront.congr fun x hx => hsz x (hold hg' ?_), rfl, rfl⟩⟩
      · rw [hsz _ hend]
        cases k₂ with
        | nil =>
          rw [tiling_nil] at hback
          rw [hback]
          exact he
        | cons y k₂ =>
          have hy := (hs.range (x := y) (by simp)).2.1
          rw [hback.1] at hy
          exact Or.inr hy
      · exact List.mem_append_left _ hx
    · refine ⟨_, Or.inl rfl, rfl, ?_⟩
      rw [tiling_nil, extent, payloadSize, expandNode_node rest q.bytes hend, if_pos rfl]
      unfold HeapRegion.stop
      simp only
      omega
  · simp only [List.mem_append, List.mem_cons, List.not_mem_nil, or_false] at hg
    rcases hg with hg | rfl | rfl
    · exact hs.inside g (List.mem_append_left _ hg)
    · intro x hx
      refine (hs.range ?_).2.1
      simp only [List.mem_append, List.mem_cons, List.not_mem_nil, or_false] at hx ⊢
      tauto
    · intro x hx
      obtain ⟨⟨j, hj⟩, hpos⟩ := hfresh.bytes q (by simp)
      rw [List.mem_singleton.1 hx]
      unfold HeapRegion.stop sizeofKHeapMemoryNode
      rw [hj] at hpos ⊢
      cases m <;> simp only [pageSizeInBytes] at hpos ⊢ <;> omega

end HeapSegments

end Segments

end Dreamos64
