import Dreamos64.Mem.KHeapRegions
import Dreamos64.Mem.KHeapSearch

/-!
# Dreamos64 — `kmalloc` and `kfree` on several regions

What the two calls do to a heap with `HeapSegments`. A call is made of four edits,
each a relation between the heap before and after: a node is taken (`Takes`), a
region is added (`Expands`), a node disappears into the one before it (`Absorbs`),
a node is freed and merged with its neighbours (`Releases`). For each there is a
lemma that it leaves segments, one that it writes headers of the list only, one
about the nodes that stay, and one about the last node.

* `kmalloc_spec`          — `kmalloc` takes a node, after `expand_heap` or not;
* `releaseNode_releases`  — `kfree` releases the node it finds.
-/

namespace Dreamos64

open Machine Links Blocks KHeap

/-! ## The search on segments -/

section Regions

variable {m : PageMode} {regions : List HeapRegion} {h : KHeap} {segs : List Segment}
  {size c fuel : Nat}

/-- A region that is handed out does not begin where the payload of a node ends. -/
theorem region_apart {q : HeapRegion} (hs : HeapSegments m regions h segs)
    (hfresh : VmmFresh m (regions ++ [q])) (hmem : c ∈ nodesOf segs) :
    (c + sizeofKHeapMemoryNode + h.payloadSize c) % 2 ^ 64 ≠ q.start := by
  have hnew := hs.start_not_mem hfresh
  obtain ⟨A, r, k₁, k₂, B, rfl⟩ := locate hmem
  cases k₂ with
  | cons y k₂ =>
    -- the payload of an inner node ends at the next one
    intro he
    rw [Nat.add_right_comm, hs.merge_adj] at he
    refine hnew (he ▸ ?_)
    rw [nodesOf_at]
    simp
  | nil =>
    have hq : q ∈ regions ++ [q] := by simp
    have hmeet := (List.pairwise_append.1 hfresh.apart).2.2 r hs.mem_regions q (by simp)
    exact hs.last_apart (hfresh.start q hq).1 (hfresh.bytes q hq).2 hmeet

/-- `expand_heap` with a region that is handed out appends it. -/
theorem expandHeap_region {new : Nat} {rest : List Nat} (hs : HeapSegments m regions h segs)
    (hmem : h.kernelHeapEnd ∈ nodesOf segs) (hr : h.vmmRegions = new :: rest)
    (hfresh : VmmFresh m (regions ++ [⟨new, wholePages m size⟩])) :
    h.kernelHeapEnd ≠ new ∧
      expandHeap m h size = .ok (expandNode h new rest (wholePages m size)) := by
  have hne : h.kernelHeapEnd ≠ new := fun e => hs.start_not_mem hfresh (e ▸ hmem)
  have hregion : (⟨new, wholePages m size⟩ : HeapRegion) ∈
      regions ++ [⟨new, wholePages m size⟩] := by simp
  refine ⟨hne, ?_⟩
  rw [expandHeap_apart hr hne (region_apart hs hfresh hmem), region_pages hfresh hregion]

/-- `kmalloc_cases`, with the regions that the call takes. -/
theorem HeapSegments.kmalloc_cases {h' : KHeap} {p : Option Nat} {taken : List Nat}
    (hs : HeapSegments m regions h segs) (hsize : size ≠ 0)
    (hk : kmalloc m fuel size h = .ok (p, h')) (htaken : h.vmmRegions = taken ++ h'.vmmRegions)
    (hfresh : VmmFresh m (regions ++ taken.map (⟨·, wholePages m (realSize size)⟩))) :
    (p = none ∧ h' = h ∧ taken = []) ∨
    (∃ l₁ c l₂, nodesOf segs = l₁ ++ c :: l₂ ∧
      (∀ x ∈ l₁, ¬ fits h (realSize size) x ∧ x ≠ h.kernelHeapEnd) ∧
      fits h (realSize size) c ∧ p = some ((c + sizeofKHeapMemoryNode) % 2 ^ 64) ∧
      h' = takeNode h (realSize size) c ∧ taken = []) ∨
    (∃ l₁ l₂ new rest, nodesOf segs = l₁ ++ h.kernelHeapEnd :: l₂ ∧
      (∀ x ∈ l₁, ¬ fits h (realSize size) x ∧ x ≠ h.kernelHeapEnd) ∧
      ¬ fits h (realSize size) h.kernelHeapEnd ∧ h.vmmRegions = new :: rest ∧
      p = some ((new + sizeofKHeapMemoryNode) % 2 ^ 64) ∧ h' = takeNode (expandNode h new rest
        (wholePages m (realSize size))) (realSize size) new ∧ taken = [new]) := by
  have happend (hne : h'.vmmRegions ≠ h.vmmRegions) (hmem : h.kernelHeapEnd ∈ nodesOf segs)
      (new : Nat) (rest : List Nat) (hr : h.vmmRegions = new :: rest) :
      new ∉ nodesOf segs ∧ expandHeap m h (realSize size) =
        .ok (expandNode h new rest (wholePages m (realSize size))) := by
    -- the region that the manager hands out is the one that `taken` records
    cases taken with
    | nil => exact absurd htaken.symm hne
    | cons new' more =>
      obtain rfl : new' = new := by
        rw [hr] at htaken
        exact (List.cons.inj htaken).1.symm
      have hfresh' : VmmFresh m (regions ++ [⟨new', wholePages m (realSize size)⟩]) :=
        hfresh.sublist ((List.Sublist.refl regions).append (by simp))
      exact ⟨hs.start_not_mem hfresh', (expandHeap_region hs hmem hr hfresh').2⟩
  have hnone (hregions : h'.vmmRegions = h.vmmRegions) : taken = [] := by
    rw [hregions] at htaken
    simpa using htaken
  rcases Dreamos64.kmalloc_cases hs.linked hsize hk happend with ⟨rfl, rfl⟩ |
    ⟨l₁, c, l₂, hl, hpass, hfit, hp, rfl⟩ | ⟨l₁, l₂, new, rest, hl, hpass, hfit, hr, hp, rfl⟩
  · exact Or.inl ⟨rfl, rfl, hnone rfl⟩
  · exact Or.inr (Or.inl ⟨l₁, c, l₂, hl, hpass, hfit, hp, rfl, hnone (takeNode_vmmRegions h _ c)⟩)
  · refine Or.inr (Or.inr ⟨l₁, l₂, new, rest, hl, hpass, hfit, hr, hp, rfl, ?_⟩)
    rw [hr, takeNode_vmmRegions] at htaken
    have hone : [new] ++ rest = taken ++ rest := htaken
    exact (List.append_cancel_right hone).symm

end Regions

/-! ## The node taken -/

/-- What is left of `n` bytes is enough for a node, but not for a node with as much
again behind its header. -/
def Cramped (n real : Nat) : Prop :=
  kheapMinimumAllocableSize < n - real ∧ n - real < 2 * sizeofKHeapMemoryNode

instance (n real : Nat) : Decidable (Cramped n real) := inferInstanceAs (Decidable (_ ∧ _))

section Take

variable {m : PageMode} {regions : List HeapRegion} {h : KHeap} {A B : List Segment}
  {r : HeapRegion} {k₁ k₂ : List Nat} {real c b : Nat}

section

variable (hs : HeapSegments m regions h (A ++ ⟨r, k₁ ++ c :: k₂⟩ :: B))

include hs

/-- The header behind the bytes taken stays inside the region, unless the node taken
is the last one of its region and what is left of it is cramped. -/
theorem HeapSegments.room (hroom : c + h.payloadSize c = r.stop → ¬ Cramped (h.payloadSize c) real)
    (hsplits : splits h real c) :
    real + sizeofKHeapMemoryNode ≤ h.payloadSize c ∧
      c + sizeofKHeapMemoryNode + real + sizeofKHeapMemoryNode ≤ r.stop := by
  obtain ⟨e, he, htile⟩ := hs.tiled ⟨r, k₁ ++ c :: k₂⟩ (by simp)
  have hc := (hs.range (x := c) (by simp)).2.2
  unfold splits Cramped kheapMinimumAllocableSize sizeofKHeapMemoryNode at *
  unfold payloadSize at *
  refine ⟨by omega, ?_⟩
  cases k₂ with
  | cons y k₂ =>
    -- the header of the node behind is inside
    have hy := (hs.range (x := y) (by simp)).2.1
    have hnext := htile.next_eq
    unfold extent payloadSize sizeofKHeapMemoryNode at *
    omega
  | nil =>
    obtain ⟨a, -, -, hend⟩ := tiling_append.mp htile
    rw [tiling_nil] at hend
    unfold extent payloadSize sizeofKHeapMemoryNode at *
    simp only at he
    omega

theorem HeapSegments.take
    (hroom : c + h.payloadSize c = r.stop → ¬ Cramped (h.payloadSize c) real) :
    HeapSegments m regions (takeNode h real c)
      (A ++ ⟨r, k₁ ++ c :: (leftover h real c ++ k₂)⟩ :: B) := by
  unfold takeNode leftover
  split_ifs with hsplits
  · obtain ⟨hsize, hinside⟩ := hs.room hroom hsplits
    exact hs.split hsize hinside
  · exact hs.setIsFree c false

/-- The headers after a node was taken. -/
theorem HeapSegments.take_node
    (hroom : c + h.payloadSize c = r.stop → ¬ Cramped (h.payloadSize c) real)
    (hb : b ∉ leftover h real c) :
    (((takeNode h real c).node b).isFree = if b = c then false else (h.node b).isFree) ∧
      ((takeNode h real c).node b ≠ h.node b →
        b ∈ nodesOf (A ++ ⟨r, k₁ ++ c :: k₂⟩ :: B)) := by
  have hmem : c ∈ nodesOf (A ++ ⟨r, k₁ ++ c :: k₂⟩ :: B) := by
    rw [nodesOf_at]
    simp
  unfold takeNode leftover at *
  split_ifs at hb ⊢ with hsplits hbc hbc
  · obtain ⟨hsize, hinside⟩ := hs.room hroom hsplits
    obtain ⟨hmod, hfresh⟩ := hs.split_fresh hsize hinside
    subst hbc
    rw [hs.linked.split_node hmem hmod hfresh, if_pos rfl]
    exact ⟨rfl, fun _ => hmem⟩
  · obtain ⟨hsize, hinside⟩ := hs.room hroom hsplits
    obtain ⟨hmod, hfresh⟩ := hs.split_fresh hsize hinside
    rw [hs.linked.split_node hmem hmod hfresh, if_neg hbc, if_neg (by simpa using hb)]
    split_ifs with hnext
    · exact ⟨rfl, fun _ => hs.linked.chain.next_mem hmem hnext⟩
    · exact ⟨rfl, fun hne => absurd rfl hne⟩
  · subst hbc
    simp [hmem]
  · simp [hbc]

end

end Take

/-- The node `c` has been taken; if a header was put behind it, there was room. -/
structure Takes (h : KHeap) (segs : List Segment) (real c : Nat) (h' : KHeap)
    (segs' : List Segment) : Prop where
  fit   : fits h real c
  heap  : h' = takeNode h real c
  place : ∃ A r k₁ k₂ B, segs = A ++ ⟨r, k₁ ++ c :: k₂⟩ :: B ∧
    segs' = A ++ ⟨r, k₁ ++ c :: (leftover h real c ++ k₂)⟩ :: B ∧
    (c + h.payloadSize c = r.stop → ¬ Cramped (h.payloadSize c) real)

namespace Takes

variable {m : PageMode} {regions : List HeapRegion} {h h' : KHeap} {segs segs' : List Segment}
  {real c b : Nat}

variable (ht : Takes h segs real c h' segs')

include ht

theorem nodes :
    ∃ l₁ l₂, nodesOf segs = l₁ ++ c :: l₂ ∧
      nodesOf segs' = l₁ ++ c :: (leftover h real c ++ l₂) := by
  obtain ⟨A, r, k₁, k₂, B, rfl, rfl, -⟩ := ht.place
  refine ⟨nodesOf A ++ k₁, k₂ ++ nodesOf B, nodesOf_at .., ?_⟩
  rw [nodesOf_at, List.append_assoc (leftover h real c)]

theorem mem (hb : b ∈ nodesOf segs) : b ∈ nodesOf segs' := by
  obtain ⟨l₁, l₂, hl, hl'⟩ := ht.nodes
  rw [hl] at hb
  rw [hl']
  simp only [List.mem_append, List.mem_cons] at hb ⊢
  tauto

theorem taken_mem : c ∈ nodesOf segs ∧ c ∈ nodesOf segs' := by
  obtain ⟨l₁, l₂, hl, hl'⟩ := ht.nodes
  rw [hl, hl']
  simp

variable (hs : HeapSegments m regions h segs)

include hs

theorem segments :
    HeapSegments m regions h' segs' := by
  obtain ⟨A, r, k₁, k₂, B, rfl, rfl, hroom⟩ := ht.place
  rw [ht.heap]
  exact hs.take hroom

/-- The node left over is new. -/
theorem leftover_fresh (hb : b ∈ nodesOf segs) : b ∉ leftover h real c := by
  obtain ⟨A, r, k₁, k₂, B, rfl, -, hroom⟩ := ht.place
  intro hleft
  unfold leftover at hleft
  split_ifs at hleft with hsplits
  · obtain ⟨hsize, hinside⟩ := hs.room hroom hsplits
    rw [List.mem_singleton.1 hleft] at hb
    exact (hs.split_fresh hsize hinside).2 hb
  · cases hleft

theorem isFree (hb : b ∈ nodesOf segs) :
    (h'.node b).isFree = if b = c then false else (h.node b).isFree := by
  have hfresh := ht.leftover_fresh hs hb
  obtain ⟨A, r, k₁, k₂, B, rfl, -, hroom⟩ := ht.place
  rw [ht.heap]
  exact (hs.take_node hroom hfresh).1

/-- Only headers of the list are written. -/
theorem frame (hne : h'.node b ≠ h.node b) : b ∈ nodesOf segs' := by
  by_cases hleft : b ∈ leftover h real c
  · obtain ⟨l₁, l₂, -, hl'⟩ := ht.nodes
    rw [hl']
    simp [hleft]
  · refine ht.mem ?_
    obtain ⟨A, r, k₁, k₂, B, rfl, -, hroom⟩ := ht.place
    rw [ht.heap] at hne
    exact (hs.take_node hroom hleft).2 hne

/-- A split of the tail makes the node left over the tail. -/
theorem getLast (hlast : (nodesOf segs).getLast? = some h.kernelHeapEnd) :
    (nodesOf segs').getLast? = some h'.kernelHeapEnd := by
  obtain ⟨l₁, l₂, hl, hl'⟩ := ht.nodes
  have hnd := hs.linked.chain.nodup
  rw [hl] at hlast hnd
  rw [hl', ht.heap]
  rcases List.eq_nil_or_concat l₂ with rfl | ⟨l₂, z, rfl⟩
  · -- the node taken is the tail
    have hend : c = h.kernelHeapEnd := by simpa using hlast
    unfold takeNode leftover
    split_ifs with hsplits
    · obtain ⟨A, r, k₁, k₂, B, rfl, -, hroom⟩ := ht.place
      obtain ⟨hsize, hinside⟩ := hs.room hroom hsplits
      rw [(splitNode_globals h c real).2.1, if_pos hend, (hs.split_fresh hsize hinside).1]
      simp
    · simpa using hend
  · have hz : z = h.kernelHeapEnd := by
      simp only [List.concat_eq_append, ← List.cons_append, ← List.append_assoc,
        List.getLast?_concat] at hlast
      exact Option.some.inj hlast
    have hcz : c ≠ h.kernelHeapEnd := by
      rintro rfl
      exact not_mem_of_nodup_middle hnd (by simp [hz])
    have hend : (takeNode h real c).kernelHeapEnd = h.kernelHeapEnd := by
      unfold takeNode
      split_ifs
      · rw [(splitNode_globals h c real).2.1, if_neg hcz]
      · rfl
    rw [hend, ← hz]
    simp only [List.concat_eq_append, ← List.cons_append, ← List.append_assoc,
      List.getLast?_concat]

end Takes

/-! ## The region added -/

/-- The list has been cut behind `kernel_heap_end`, if it went on there, and goes on at
the region `q`. -/
structure Expands (m : PageMode) (regions : List HeapRegion) (h : KHeap) (segs : List Segment)
    (q : HeapRegion) (h' : KHeap) (segs' : List Segment) : Prop where
  fresh : VmmFresh m (regions ++ [q])
  heap  : ∃ rest, h' = expandNode h q.start rest q.bytes
  place : ∃ A r k₁ k₂ B, segs = A ++ ⟨r, k₁ ++ h.kernelHeapEnd :: k₂⟩ :: B ∧
    segs' = A ++ ⟨r, k₁ ++ [h.kernelHeapEnd]⟩ :: [⟨q, [q.start]⟩]

namespace Expands

variable {m : PageMode} {regions : List HeapRegion} {h h' : KHeap} {segs segs' : List Segment}
  {q : HeapRegion} {b : Nat}

variable (he : Expands m regions h segs q h' segs')

include he

theorem nodes :
    ∃ l₁ l₂, nodesOf segs = l₁ ++ h.kernelHeapEnd :: l₂ ∧
      nodesOf segs' = l₁ ++ [h.kernelHeapEnd, q.start] := by
  obtain ⟨A, r, k₁, k₂, B, rfl, rfl⟩ := he.place
  exact ⟨nodesOf A ++ k₁, k₂ ++ nodesOf B, nodesOf_at .., by simp [nodesOf]⟩

theorem getLast :
    (nodesOf segs').getLast? = some h'.kernelHeapEnd := by
  obtain ⟨l₁, l₂, -, hl'⟩ := he.nodes
  obtain ⟨rest, rfl⟩ := he.heap
  rw [hl']
  simp [expandNode]

variable (hs : HeapSegments m regions h segs)

include hs

theorem segments : HeapSegments m (regions ++ [q]) h' segs' := by
  obtain ⟨A, r, k₁, k₂, B, rfl, rfl⟩ := he.place
  obtain ⟨rest, rfl⟩ := he.heap
  exact hs.expand rest he.fresh

theorem node (b : Nat) : h'.node b =
      if b = q.start then
        { size := q.bytes, isFree := true, next := none, prev := some h.kernelHeapEnd }
      else if b = h.kernelHeapEnd then { h.node b with next := some q.start }
      else h.node b := by
  have hnew := hs.start_not_mem he.fresh
  obtain ⟨l₁, l₂, hl, -⟩ := he.nodes
  obtain ⟨rest, rfl⟩ := he.heap
  refine expandNode_node rest q.bytes (fun e => hnew ?_) b
  rw [hl, ← e]
  simp

theorem isFree (hb : b ∈ nodesOf segs) : (h'.node b).isFree = (h.node b).isFree := by
  have hne : b ≠ q.start := fun e => hs.start_not_mem he.fresh (e ▸ hb)
  rw [he.node hs, if_neg hne]
  split_ifs <;> rfl

theorem frame (hne : h'.node b ≠ h.node b) : b ∈ nodesOf segs' := by
  obtain ⟨l₁, l₂, -, hl'⟩ := he.nodes
  rw [he.node hs] at hne
  rw [hl']
  split_ifs at hne with hnew hend
  · simp [hnew]
  · simp [hend]
  · exact absurd rfl hne

/-- Nothing is cut off if `kernel_heap_end` was the last node. -/
theorem mem (hlast : h.nextOf h.kernelHeapEnd = none) (hb : b ∈ nodesOf segs) :
    b ∈ nodesOf segs' := by
  obtain ⟨l₁, l₂, hl, hl'⟩ := he.nodes
  have hchain := hs.linked.chain
  rw [hl] at hchain hb
  rw [hchain.next_eq, List.head?_eq_none_iff] at hlast
  subst hlast
  rw [hl']
  simp only [List.mem_append, List.mem_cons] at hb ⊢
  tauto

/-- The new region is one node, from which the call goes on. -/
theorem takes {real : Nat}
    (hreal : real ≤ q.bytes) (hroom : ¬ Cramped q.bytes real) :
    ∃ segs'', Takes h' segs' real q.start (takeNode h' real q.start) segs'' := by
  have hnode := he.node hs q.start
  rw [if_pos rfl] at hnode
  obtain ⟨A, r, k₁, k₂, B, -, hsegs'⟩ := he.place
  refine ⟨_, ?_, rfl, A ++ [⟨r, k₁ ++ [h.kernelHeapEnd]⟩], q, [], [], [], ?_, rfl, fun _ => ?_⟩
  · unfold fits
    rw [hnode]
    exact ⟨rfl, hreal⟩
  · simp [hsegs']
  · rw [payloadSize, hnode]
    exact hroom

end Expands

/-! ## The whole call -/

section Spec

variable {m : PageMode} {regions : List HeapRegion} {h h' : KHeap} {segs : List Segment}
  {size fuel : Nat} {p : Option Nat} {taken : List Nat}

/-- The search for `real` bytes gets as far as the node `c`. -/
def Reaches (h : KHeap) (real c : Nat) : Prop :=
  ∃ l, Seg h.nextOf (some h.kernelHeapStart) l (some c) ∧
    ∀ x ∈ l, ¬ fits h real x ∧ x ≠ h.kernelHeapEnd

/-- A call of `kmalloc` with room for the header it may have to write. If the node
found is the last one of its region, or is the whole of a new region, then what is
left of it is not cramped. -/
def RoomFor (m : PageMode) (regions : List HeapRegion) (h : KHeap) (size : Nat) : Prop :=
  ∀ c, Reaches h (realSize size) c →
    (fits h (realSize size) c → (∃ r ∈ regions, c + h.payloadSize c = r.stop) →
      ¬ Cramped (h.payloadSize c) (realSize size)) ∧
    (¬ fits h (realSize size) c → c = h.kernelHeapEnd →
      ¬ Cramped (wholePages m (realSize size)) (realSize size))

/-- **What `kmalloc` does.** Nothing, or it takes a node, of the heap as it is or with
another region. -/
theorem kmalloc_spec (hs : HeapSegments m regions h segs) (hsize : size ≠ 0)
    (hk : kmalloc m fuel size h = .ok (p, h')) (htaken : h.vmmRegions = taken ++ h'.vmmRegions)
    (hfresh : VmmFresh m (regions ++ taken.map (⟨·, wholePages m (realSize size)⟩)))
    (hroom : RoomFor m regions h size) :
    (p = none ∧ h' = h ∧ taken = []) ∨
    ∃ c segs', p = some (c + sizeofKHeapMemoryNode) ∧
      ((taken = [] ∧ Takes h segs (realSize size) c h' segs') ∨
        ∃ new g segs₁, taken = [new] ∧ Reaches h (realSize size) h.kernelHeapEnd ∧
          ¬ fits h (realSize size) h.kernelHeapEnd ∧
          Expands m regions h segs ⟨new, wholePages m (realSize size)⟩ g segs₁ ∧
          Takes g segs₁ (realSize size) c h' segs') := by
  have hreach {l₁ l₂ : List Nat} {c : Nat} (hl : nodesOf segs = l₁ ++ c :: l₂)
      (hpass : ∀ x ∈ l₁, ¬ fits h (realSize size) x ∧ x ≠ h.kernelHeapEnd) :
      Reaches h (realSize size) c := by
    have hchain := hs.linked.chain
    rw [hl] at hchain
    exact ⟨l₁, (chain_split.1 hchain).1, hpass⟩
  -- no memory, a node that fits, or the last node passed and a region appended
  rcases hs.kmalloc_cases hsize hk htaken hfresh with hnone |
    ⟨l₁, c, l₂, hl, hpass, hfit, hp, hh', hnil⟩ |
    ⟨l₁, l₂, new, rest, hl, hpass, hfit, -, hp, hh', hnew⟩
  · exact Or.inl hnone
  · have hmem : c ∈ nodesOf segs := by
      rw [hl]
      simp
    rw [hs.nowrap hmem] at hp
    obtain ⟨A, r, k₁, k₂, B, rfl⟩ := locate hmem
    have ht : Takes h _ (realSize size) c h' _ := ⟨hfit, hh', A, r, k₁, k₂, B, rfl, rfl,
      fun hstop => (hroom c (hreach hl hpass)).1 hfit ⟨r, hs.mem_regions, hstop⟩⟩
    exact Or.inr ⟨c, _, hp, Or.inl ⟨hnil, ht⟩⟩
  · have hmem : h.kernelHeapEnd ∈ nodesOf segs := by
      rw [hl]
      simp
    subst hnew
    obtain ⟨A, r, k₁, k₂, B, rfl⟩ := locate hmem
    have he : Expands m regions h _ ⟨new, wholePages m (realSize size)⟩ _ _ :=
      ⟨hfresh, ⟨rest, rfl⟩, A, r, k₁, k₂, B, rfl, rfl⟩
    obtain ⟨segs', ht⟩ := he.takes hs (le_wholePages m _) ((hroom _ (hreach hl hpass)).2 hfit rfl)
    rw [(he.segments hs).nowrap ht.taken_mem.1] at hp
    rw [hh']
    exact Or.inr ⟨new, segs', hp, Or.inr ⟨new, _, _, rfl, hreach hl hpass, hfit, he, ht⟩⟩

end Spec

/-! ## The node released -/

section Release

variable {m : PageMode} {regions : List HeapRegion} {h h' : KHeap} {segs segs' : List Segment}
  {x y b c : Nat}

/-- The node `x` ends where `y` starts. -/
def touches (h : KHeap) (x y : Nat) : Prop :=
  (x + sizeofKHeapMemoryNode + h.payloadSize x) % 2 ^ 64 = y

/-- The two bits of `can_merge` do not mix. -/
theorem merge_bits (P Q : Prop) [Decidable P] [Decidable Q] :
    (((if P then mergeLeft else 0) ||| (if Q then mergeRight else 0)) &&& mergeRight ≠ 0 ↔ Q) ∧
      (((if P then mergeLeft else 0) ||| (if Q then mergeRight else 0)) &&& mergeLeft ≠ 0 ↔ P) := by
  by_cases hP : P <;> by_cases hQ : Q <;> simp [hP, hQ, mergeLeft, mergeRight]

open Classical in
theorem canMerge_eq (h : KHeap) (c : Nat) :
    canMerge h c =
      (if ∃ p, h.prevOf c = some p ∧ (h.node p).isFree = true ∧ touches h p c
        then mergeLeft else 0) |||
      (if ∃ n, h.nextOf c = some n ∧ (h.node n).isFree = true ∧ touches h c n
        then mergeRight else 0) := by
  refine congrArg₂ (· ||| ·) ?_ ?_
  · cases hp : (h.node c).prev with
    | none => simp [prevOf, hp]
    | some p => simp [prevOf, hp, touches, payloadSize]
  · cases hn : (h.node c).next with
    | none => simp [nextOf, hn]
    | some n => simp only [nextOf, hn, Option.some.injEq, exists_eq_left', touches, payloadSize]

theorem canMerge_right (h : KHeap) (c : Nat) : canMerge h c &&& mergeRight ≠ 0 ↔
    ∃ n, h.nextOf c = some n ∧ (h.node n).isFree = true ∧ touches h c n := by
  classical
  rw [canMerge_eq]
  exact (merge_bits _ _).1

theorem canMerge_left (h : KHeap) (c : Nat) : canMerge h c &&& mergeLeft ≠ 0 ↔
    ∃ p, h.prevOf c = some p ∧ (h.node p).isFree = true ∧ touches h p c := by
  classical
  rw [canMerge_eq]
  exact (merge_bits _ _).2

/-- The free node `y` has disappeared into the free node `x` before it. -/
structure Absorbs (h : KHeap) (segs : List Segment) (x y : Nat) (h' : KHeap)
    (segs' : List Segment) : Prop where
  left  : (h.node x).isFree = true
  right : (h.node y).isFree = true
  heap  : h' = mergeMemoryNodes h (some x) (some y)
  place : ∃ A r k₁ k₂ B, segs = A ++ ⟨r, k₁ ++ x :: y :: k₂⟩ :: B ∧
    segs' = A ++ ⟨r, k₁ ++ x :: k₂⟩ :: B

namespace Absorbs

variable (ha : Absorbs h segs x y h' segs')

include ha

theorem nodes :
    ∃ l₁ l₂, nodesOf segs = l₁ ++ x :: y :: l₂ ∧ nodesOf segs' = l₁ ++ x :: l₂ := by
  obtain ⟨A, r, k₁, k₂, B, rfl, rfl⟩ := ha.place
  refine ⟨nodesOf A ++ k₁, k₂ ++ nodesOf B, ?_, ?_⟩
  · rw [nodesOf_at, List.cons_append]
  · rw [nodesOf_at]

theorem isFree (b : Nat) :
    (h'.node b).isFree = (h.node b).isFree := by
  rw [ha.heap]
  exact mergeMemoryNodes_isFree h _ _ b

/-- A node that is not free is not absorbed. -/
theorem mem (hb : b ∈ nodesOf segs) (hby : b ≠ y) :
    b ∈ nodesOf segs' := by
  obtain ⟨l₁, l₂, hl, hl'⟩ := ha.nodes
  rw [hl] at hb
  rw [hl']
  simp only [List.mem_append, List.mem_cons] at hb ⊢
  tauto

theorem subset (hb : b ∈ nodesOf segs') : b ∈ nodesOf segs := by
  obtain ⟨l₁, l₂, hl, hl'⟩ := ha.nodes
  rw [hl'] at hb
  rw [hl]
  simp only [List.mem_append, List.mem_cons] at hb ⊢
  tauto

theorem getLast (hlast : (nodesOf segs).getLast? = some b)
    (hby : b ≠ y) : (nodesOf segs').getLast? = some b := by
  obtain ⟨l₁, l₂, hl, hl'⟩ := ha.nodes
  rw [hl] at hlast
  rw [hl']
  rcases List.eq_nil_or_concat l₂ with rfl | ⟨l₂, z, rfl⟩
  · exact absurd (by simpa using hlast.symm) hby
  · simp only [List.concat_eq_append, ← List.cons_append, ← List.append_assoc,
      List.getLast?_concat] at hlast ⊢
    exact hlast

variable (hs : HeapSegments m regions h segs)

include hs

theorem segments :
    HeapSegments m regions h' segs' := by
  obtain ⟨A, r, k₁, k₂, B, rfl, rfl⟩ := ha.place
  rw [ha.heap]
  exact hs.merge

theorem node (b : Nat) :
    h'.node b = if b = x then
        { h.node x with
          size := (h.payloadSize x + h.payloadSize y + sizeofKHeapMemoryNode) % 2 ^ 64
          next := h.nextOf y }
      else if h.nextOf y = some b then { h.node b with prev := some x }
      else h.node b := by
  obtain ⟨A, r, k₁, k₂, B, rfl, -⟩ := ha.place
  have hlinked := hs.linked
  rw [nodesOf_at, List.cons_append] at hlinked
  rw [ha.heap]
  exact hlinked.merge_node hs.merge_adj b

/-- Only headers of the list are written. -/
theorem frame (hne : h'.node b ≠ h.node b) : b ∈ nodesOf segs := by
  obtain ⟨l₁, l₂, hl, -⟩ := ha.nodes
  rw [ha.node hs] at hne
  split_ifs at hne with hbx hnext
  · rw [hl, hbx]
    simp
  · refine hs.linked.chain.next_mem ?_ hnext
    rw [hl]
    simp
  · exact absurd rfl hne

end Absorbs

/-- The node `x` has become free, has absorbed the node behind it or not, and has
disappeared into the one before it or not. -/
structure Releases (h : KHeap) (segs : List Segment) (x : Nat) (h' : KHeap)
    (segs' : List Segment) : Prop where
  mem   : x ∈ nodesOf segs
  edits : ∃ g segs₁,
    ((g = h.setIsFree x true ∧ segs₁ = segs) ∨
      ∃ y, Absorbs (h.setIsFree x true) segs x y g segs₁) ∧
    ((h' = g ∧ segs' = segs₁) ∨ ∃ p, Absorbs g segs₁ p x h' segs')

/-- **How a node is released.** -/
theorem releaseNode_releases (hs : HeapSegments m regions h segs) (hx : x ∈ nodesOf segs) :
    ∃ segs', Releases h segs x (releaseNode h x) segs' := by
  have hs₁ := hs.setIsFree x true
  have hcode : releaseNode h x =
      (let h₁ := h.setIsFree x true
       let h₂ := if canMerge h₁ x &&& mergeRight ≠ 0 then
          mergeMemoryNodes h₁ (some x) (h₁.nextOf x) else h₁
       if canMerge h₁ x &&& mergeLeft ≠ 0 then mergeMemoryNodes h₂ (h₂.prevOf x) (some x)
       else h₂) := rfl
  obtain ⟨h₁, hh₁⟩ : ∃ h₁, h₁ = h.setIsFree x true := ⟨_, rfl⟩
  have hfree : (h₁.node x).isFree = true := by
    rw [hh₁]
    simp
  rw [← hh₁] at hs₁ hcode
  rw [hcode]
  simp only
  have hright : ∃ segs₁, HeapSegments m regions (if canMerge h₁ x &&& mergeRight ≠ 0 then
        mergeMemoryNodes h₁ (some x) (h₁.nextOf x) else h₁) segs₁ ∧
      (((if canMerge h₁ x &&& mergeRight ≠ 0 then
        mergeMemoryNodes h₁ (some x) (h₁.nextOf x) else h₁) = h₁ ∧ segs₁ = segs) ∨
        ∃ y, Absorbs h₁ segs x y (if canMerge h₁ x &&& mergeRight ≠ 0 then
          mergeMemoryNodes h₁ (some x) (h₁.nextOf x) else h₁) segs₁) := by
    split_ifs with hmerge
    · obtain ⟨n, hn, hnfree, hadj⟩ := (canMerge_right h₁ x).1 hmerge
      obtain ⟨l₁, l₂, hl⟩ := hs₁.linked.split_at_next hx hn
      obtain ⟨A, r, k₁, k₂, B, hsegs, -, -⟩ := hs₁.neighbours hl hadj
      have ha : Absorbs h₁ segs x n (mergeMemoryNodes h₁ (some x) (h₁.nextOf x))
          (A ++ ⟨r, k₁ ++ x :: k₂⟩ :: B) :=
        ⟨hfree, hnfree, by rw [hn], A, r, k₁, k₂, B, hsegs, rfl⟩
      exact ⟨_, ha.segments hs₁, Or.inr ⟨n, ha⟩⟩
    · exact ⟨segs, hs₁, Or.inl ⟨rfl, rfl⟩⟩
  obtain ⟨segs₁, hs₂, hstep⟩ := hright
  obtain ⟨g, hg⟩ : ∃ g, g = if canMerge h₁ x &&& mergeRight ≠ 0 then
    mergeMemoryNodes h₁ (some x) (h₁.nextOf x) else h₁ := ⟨_, rfl⟩
  rw [← hg] at hs₂ hstep ⊢
  -- what the left merge reads was not written by the right one
  have hsame : x ∈ nodesOf segs₁ ∧ g.prevOf x = h₁.prevOf x ∧ ∀ p, h₁.prevOf x = some p →
      g.payloadSize p = h₁.payloadSize p ∧ (g.node p).isFree = (h₁.node p).isFree := by
    rcases hstep with ⟨rfl, rfl⟩ | ⟨y, ha⟩
    · exact ⟨hx, rfl, fun _ _ => ⟨rfl, rfl⟩⟩
    · refine ⟨ha.mem hx ?_, ?_, fun p hp => ⟨?_, ha.isFree p⟩⟩
      · obtain ⟨l₁, l₂, hl, -⟩ := ha.nodes
        have hlinked := hs₁.linked
        rw [hl] at hlinked
        exact hlinked.no_way_back.1
      · rw [prevOf, ha.node hs₁, if_pos rfl]
        rfl
      · obtain ⟨l₁, l₂, hl⟩ := hs₁.linked.split_at_prev hx hp
        have hlinked := hs₁.linked
        rw [hl] at hlinked
        rw [payloadSize, ha.node hs₁, if_neg hlinked.no_way_back.1]
        split_ifs <;> rfl
  obtain ⟨hx₁, hprev, hsame⟩ := hsame
  split_ifs with hmerge
  · obtain ⟨p, hp, hpfree, hadj⟩ := (canMerge_left h₁ x).1 hmerge
    obtain ⟨hsize, hfree'⟩ := hsame p hp
    have hp' : g.prevOf x = some p := hprev.trans hp
    obtain ⟨l₁, l₂, hl⟩ := hs₂.linked.split_at_prev hx₁ hp'
    obtain ⟨A, r, k₁, k₂, B, hsegs, -, -⟩ := hs₂.neighbours hl (by rw [hsize]; exact hadj)
    refine ⟨A ++ ⟨r, k₁ ++ p :: k₂⟩ :: B, hx, g, segs₁, hh₁ ▸ hstep, Or.inr ⟨p, ?_⟩⟩
    have hxfree : (g.node x).isFree = true := by
      rcases hstep with ⟨rfl, -⟩ | ⟨y, ha⟩
      · exact hfree
      · rw [ha.isFree]
        exact hfree
    exact ⟨hfree'.trans hpfree, hxfree, by rw [hp'], A, r, k₁, k₂, B, hsegs, rfl⟩
  · exact ⟨segs₁, hx, g, segs₁, hh₁ ▸ hstep, Or.inl ⟨rfl, rfl⟩⟩

namespace Releases

variable (hr : Releases h segs x h' segs') (hs : HeapSegments m regions h segs)

include hr hs

/-- The rule for what a release does: the flag, then at most two merges. -/
theorem rule (P : KHeap → List Segment → Prop)
    (hflag : P (h.setIsFree x true) segs)
    (hright : ∀ {y g segs₁}, Absorbs (h.setIsFree x true) segs x y g segs₁ → P g segs₁)
    (hleft : ∀ {p g segs₁}, HeapSegments m regions g segs₁ → P g segs₁ →
      Absorbs g segs₁ p x h' segs' → P h' segs') : P h' segs' := by
  have hs₁ := hs.setIsFree x true
  obtain ⟨g, segs₁, hfirst, hsecond⟩ := hr.edits
  have hg : HeapSegments m regions g segs₁ ∧ P g segs₁ := by
    rcases hfirst with ⟨rfl, rfl⟩ | ⟨y, ha⟩
    · exact ⟨hs₁, hflag⟩
    · exact ⟨ha.segments hs₁, hright ha⟩
  rcases hsecond with ⟨rfl, rfl⟩ | ⟨p, ha⟩
  · exact hg.2
  · exact hleft hg.1 hg.2 ha

theorem segments :
    HeapSegments m regions h' segs' :=
  hr.rule hs (HeapSegments m regions) (hs.setIsFree x true)
    (fun ha => ha.segments (hs.setIsFree x true)) fun hg _ ha => ha.segments hg

/-- Only headers of the list are written. -/
theorem frame (hne : h'.node b ≠ h.node b) : b ∈ nodesOf segs := by
  have hs₁ := hs.setIsFree x true
  have hflag : (h.setIsFree x true).node b ≠ h.node b → b ∈ nodesOf segs := by
    intro hne
    by_cases hbx : b = x
    · exact hbx ▸ hr.mem
    · simp [hbx] at hne
  have hall := hr.rule hs
    (fun g segs₁ => (g.node b ≠ h.node b → b ∈ nodesOf segs) ∧
      ∀ z ∈ nodesOf segs₁, z ∈ nodesOf segs)
    ⟨hflag, fun _ hz => hz⟩ ?_ ?_
  · exact hall.1 hne
  · intro y g segs₁ ha
    refine ⟨fun hne => ?_, fun z hz => ha.subset hz⟩
    by_cases hsame : g.node b = (h.setIsFree x true).node b
    · exact hflag (hsame ▸ hne)
    · exact ha.frame hs₁ hsame
  · intro p g segs₁ hg hbefore ha
    refine ⟨fun hne => ?_, fun z hz => hbefore.2 z (ha.subset hz)⟩
    by_cases hsame : h'.node b = g.node b
    · exact hbefore.1 (hsame ▸ hne)
    · exact hbefore.2 b (ha.frame hg hsame)

/-- A node in use other than the one released stays. -/
theorem keeps (hb : b ∈ nodesOf segs) (hbx : b ≠ x) (hused : (h.node b).isFree = false) :
    b ∈ nodesOf segs' ∧ (h'.node b).isFree = false := by
  have hflag : ((h.setIsFree x true).node b).isFree = false := by
    simpa [hbx] using hused
  refine hr.rule hs (fun g segs₁ => b ∈ nodesOf segs₁ ∧ (g.node b).isFree = false)
    ⟨hb, hflag⟩ ?_ ?_
  · intro y g segs₁ ha
    refine ⟨ha.mem hb ?_, (ha.isFree b).trans hflag⟩
    rintro rfl
    rw [ha.right] at hflag
    cases hflag
  · intro p g segs₁ hg hbefore ha
    exact ⟨ha.mem hbefore.1 hbx, (ha.isFree b).trans hbefore.2⟩

/-- Afterwards a free node covers the header of the node released. -/
theorem covered :
    ∃ A r k B z, segs' = A ++ ⟨r, k⟩ :: B ∧ z ∈ k ∧ z ≤ x ∧ x < z + h'.extent z ∧ x < r.stop ∧
      (h'.node z).isFree = true := by
  have hpos : 0 < sizeofKHeapMemoryNode := by decide
  -- until the merge to the left it is the node itself
  have hself {g : KHeap} {segs₁ : List Segment} (hg : HeapSegments m regions g segs₁)
      (hx : x ∈ nodesOf segs₁) (hfree : (g.node x).isFree = true) :
      ∃ A r k B z, segs₁ = A ++ ⟨r, k⟩ :: B ∧ z ∈ k ∧ z ≤ x ∧ x < z + g.extent z ∧ x < r.stop ∧
        (g.node z).isFree = true := by
    obtain ⟨A, r, k₁, k₂, B, rfl⟩ := locate hx
    have hin := (hg.range (x := x) (by simp)).2.1
    refine ⟨A, r, _, B, x, rfl, by simp, Nat.le_refl x, ?_, by omega, hfree⟩
    unfold extent
    omega
  have hs₁ := hs.setIsFree x true
  have hflag : ((h.setIsFree x true).node x).isFree = true := by simp
  refine hr.rule hs (fun g segs₁ => ∃ A r k B z, segs₁ = A ++ ⟨r, k⟩ :: B ∧ z ∈ k ∧ z ≤ x ∧
    x < z + g.extent z ∧ x < r.stop ∧ (g.node z).isFree = true) (hself hs₁ hr.mem hflag) ?_ ?_
  · intro y g segs₁ ha
    obtain ⟨l₁, l₂, -, hl'⟩ := ha.nodes
    refine hself (ha.segments hs₁) ?_ ((ha.isFree x).trans hflag)
    rw [hl']
    simp
  · intro p g segs₁ hg _ ha
    obtain ⟨A, r, k₁, k₂, B, rfl, rfl⟩ := ha.place
    obtain ⟨e, -, htile⟩ := hg.tiled ⟨r, k₁ ++ p :: x :: k₂⟩ (by simp)
    have hnext := htile.next_eq
    have hx := hg.range (x := x) (by simp)
    have hstop := hg.fresh.stop r hg.mem_regions
    have hsize : h'.payloadSize p = g.payloadSize p + g.payloadSize x + sizeofKHeapMemoryNode := by
      rw [payloadSize, ha.node hg, if_pos rfl]
      unfold extent at hnext
      exact Nat.mod_eq_of_lt (by omega)
    refine ⟨A, r, _, B, p, rfl, by simp, by omega, ?_, by omega, (ha.isFree p).trans ha.left⟩
    unfold extent at hnext ⊢
    omega

/-- The tail stays the tail, unless it is absorbed. -/
theorem getLast (hlast : (nodesOf segs).getLast? = some h.kernelHeapEnd) (hx : x ≠ h.kernelHeapEnd)
    (hkept : h.nextOf x = some h.kernelHeapEnd → (h.node h.kernelHeapEnd).isFree = true →
      ¬ touches h x h.kernelHeapEnd) :
    (nodesOf segs').getLast? = some h'.kernelHeapEnd := by
  have hs₁ := hs.setIsFree x true
  refine hr.rule hs (fun g segs₁ => (nodesOf segs₁).getLast? = some g.kernelHeapEnd ∧
    g.kernelHeapEnd = h.kernelHeapEnd) ⟨hlast, rfl⟩ ?_ ?_ |>.1
  · intro y g segs₁ ha
    have hend : g.kernelHeapEnd = h.kernelHeapEnd := by
      rw [ha.heap]
      exact (mergeMemoryNodes_globals _ _ _).2.1
    rw [hend]
    refine ⟨ha.getLast hlast ?_, rfl⟩
    rintro rfl
    obtain ⟨A, r, k₁, k₂, B, rfl, -⟩ := ha.place
    have hchain := hs.linked.chain
    have hadj := hs.merge_adj
    have hfree := ha.right
    simp only [nodesOf_at, List.cons_append] at hchain
    simp only [KHeap.setIsFree, write_node, if_neg hx.symm] at hfree
    rw [Nat.add_right_comm] at hadj
    exact hkept hchain.next_eq hfree hadj
  · intro p g segs₁ hg hbefore ha
    have hend : h'.kernelHeapEnd = g.kernelHeapEnd := by
      rw [ha.heap]
      exact (mergeMemoryNodes_globals _ _ _).2.1
    rw [hend]
    refine ⟨ha.getLast hbefore.1 ?_, hbefore.2⟩
    rw [hbefore.2]
    exact hx.symm

end Releases

end Release

end Dreamos64
