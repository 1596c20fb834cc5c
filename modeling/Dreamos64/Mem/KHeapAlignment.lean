import Dreamos64.Mem.KHeapInvariant

/-!
# Dreamos64 — what `kmalloc` hands out

Payload addresses are multiples of `HEAP_ALLOC_ALIGNMENT`, because everything that
is ever written into a header is: sizes are rounded by `align`, split off from or
added to such sizes, and links lead to headers that were put behind such sizes.
`AlignedHeap` says so of a set of headers that contains all that the heap has
made. It asks nothing of the shape of the list, so it survives any call on any
heap, whatever overlaps; only the regions have to begin at page boundaries.

The size of the node handed out is at least `real_size`, which is the size asked
for, a header more, rounded up; but all of that wraps at `2 ^ 64`.

* `kmalloc_aligned`, `kfree_aligned` — the calls keep `AlignedHeap`;
* `kmalloc_serves_iff`               — what is handed out is as large as asked for
  exactly for the sizes that do not wrap;
* `kmalloc_short`                    — one that does.
-/

namespace Dreamos64

open Machine KHeap

/-! ## Aligned headers -/

/-- A header with a multiple of the alignment as its size and links into `known`. -/
structure AlignedNode (known : Set Nat) (n : KHeapMemoryNode) : Prop where
  size : heapAllocAlignment ∣ n.size
  next : ∀ b, n.next = some b → b ∈ known
  prev : ∀ b, n.prev = some b → b ∈ known

/-- All headers in `known`, to which the globals point, are aligned, and so are the
regions to come. -/
structure AlignedHeap (h : KHeap) (known : Set Nat) : Prop where
  start   : h.kernelHeapStart ∈ known
  tail    : h.kernelHeapEnd ∈ known
  address : ∀ a ∈ known, heapAllocAlignment ∣ a ∧ a < 2 ^ 64
  node    : ∀ a ∈ known, AlignedNode known (h.node a)
  regions : ∀ r ∈ h.vmmRegions, heapAllocAlignment ∣ r ∧ r < 2 ^ 64

/-- Wrapping does not disturb the alignment. -/
theorem aligned_mod {n : Nat} (hn : heapAllocAlignment ∣ n) : heapAllocAlignment ∣ n % 2 ^ 64 :=
  (Nat.dvd_mod_iff (by decide)).mpr hn

theorem aligned_header : heapAllocAlignment ∣ sizeofKHeapMemoryNode := by decide

theorem aligned_realSize (size : Nat) : heapAllocAlignment ∣ realSize size :=
  aligned_mod (Dvd.intro_left _ rfl)

theorem aligned_page {m : PageMode} {n : Nat} (hn : pageSizeInBytes m ∣ n) :
    heapAllocAlignment ∣ n := by
  refine Dvd.dvd.trans ?_ hn
  cases m <;> decide

-- An assignment to one field is not seen in the others

theorem setIsFree_size (h : KHeap) (a b : Nat) (v : Bool) :
    ((h.setIsFree a v).node b).size = (h.node b).size := by
  rw [KHeap.setIsFree, write_node]
  split_ifs <;> rfl

theorem setIsFree_next (h : KHeap) (a b : Nat) (v : Bool) :
    ((h.setIsFree a v).node b).next = (h.node b).next := by
  rw [KHeap.setIsFree, write_node]
  split_ifs <;> rfl

theorem setSize_next (h : KHeap) (a b s : Nat) :
    ((h.setSize a s).node b).next = (h.node b).next := by
  rw [KHeap.setSize, write_node]
  split_ifs <;> rfl

theorem setPrev_next (h : KHeap) (a b : Nat) (o : Option Nat) :
    ((h.setPrev a o).node b).next = (h.node b).next := by
  rw [KHeap.setPrev, write_node]
  split_ifs <;> rfl

namespace AlignedHeap

variable {h : KHeap} {known : Set Nat} {a b s : Nat} {o left right : Option Nat}

variable (ha : AlignedHeap h known)

include ha

-- Assignments to single fields

theorem write (a : Nat) {f : KHeapMemoryNode → KHeapMemoryNode}
    (hf : ∀ n, AlignedNode known n → AlignedNode known (f n)) : AlignedHeap (h.write a f) known :=
  { ha with
    node := fun b hb => by
      rw [write_node]
      split_ifs
      · exact hf _ (ha.node b hb)
      · exact ha.node b hb }

theorem setIsFree (a : Nat) (v : Bool) :
    AlignedHeap (h.setIsFree a v) known :=
  ha.write a fun _ hn => ⟨hn.size, hn.next, hn.prev⟩

theorem setSize (a : Nat) (hs : heapAllocAlignment ∣ s) :
    AlignedHeap (h.setSize a s) known :=
  ha.write a fun _ hn => ⟨hs, hn.next, hn.prev⟩

theorem setNext (a : Nat) (ho : ∀ b, o = some b → b ∈ known) :
    AlignedHeap (h.setNext a o) known :=
  ha.write a fun _ hn => ⟨hn.size, ho, hn.prev⟩

theorem setPrev (a : Nat) (ho : ∀ b, o = some b → b ∈ known) :
    AlignedHeap (h.setPrev a o) known :=
  ha.write a fun _ hn => ⟨hn.size, hn.next, ho⟩

/-- A header that has been filled in becomes known. -/
theorem insert (haddr : heapAllocAlignment ∣ a ∧ a < 2 ^ 64)
    (hnode : AlignedNode known (h.node a)) : AlignedHeap h (insert a known) := by
  have hmore {n : KHeapMemoryNode} (hn : AlignedNode known n) :
      AlignedNode (Insert.insert a known) n :=
    ⟨hn.size, fun b hb => Or.inr (hn.next b hb), fun b hb => Or.inr (hn.prev b hb)⟩
  refine ⟨Or.inr ha.start, Or.inr ha.tail, ?_, ?_, ha.regions⟩
  · rintro b (rfl | hb)
    · exact haddr
    · exact ha.address b hb
  · rintro b (rfl | hb)
    · exact hmore hnode
    · exact hmore (ha.node b hb)

/-! ## The edits -/

/-- `create_kheap_node` fills in the new header before anything leads to it. The new
header may lie anywhere, even on one that is known already. -/
theorem create {cur size : Nat} (hc : cur ∈ known)
    (hs : heapAllocAlignment ∣ size) :
    ∃ known', cur ∈ known' ∧ AlignedHeap (createKheapNode h cur size) known' := by
  obtain ⟨new, hnew⟩ : ∃ new, new = (cur + sizeofKHeapMemoryNode + size) % 2 ^ 64 := ⟨_, rfl⟩
  have haddr : heapAllocAlignment ∣ new ∧ new < 2 ^ 64 := by
    rw [hnew]
    exact ⟨aligned_mod (Nat.dvd_add (Nat.dvd_add (ha.address cur hc).1 aligned_header) hs),
      Nat.mod_lt _ (by decide)⟩
  have hrest : heapAllocAlignment ∣
      ((h.node cur).size + 2 ^ 64 - (size + sizeofKHeapMemoryNode) % 2 ^ 64) % 2 ^ 64 :=
    aligned_mod (Nat.dvd_sub (Nat.dvd_add (ha.node cur hc).size (by decide))
      (aligned_mod (Nat.dvd_add hs aligned_header)))
  -- the four assignments to the new header
  obtain ⟨g, hg⟩ : ∃ g, g = (((h.setIsFree new true).setSize new
      (((h.node cur).size + 2 ^ 64 - (size + sizeofKHeapMemoryNode) % 2 ^ 64) % 2 ^ 64)).setPrev new
      (some cur)).setNext new (h.node cur).next := ⟨_, rfl⟩
  have hfilled : AlignedHeap g known := by
    rw [hg]
    refine (((ha.setIsFree new true).setSize new hrest).setPrev new ?_).setNext new
      (ha.node cur hc).next
    rintro b hb
    exact Option.some.inj hb ▸ hc
  have hgnew : AlignedNode known (g.node new) := by
    rw [hg]
    simp only [KHeap.setNext, KHeap.setPrev, KHeap.setSize, KHeap.setIsFree, write_node, if_true]
    exact ⟨hrest, (ha.node cur hc).next, fun b hb => Option.some.inj hb ▸ hc⟩
  have hknown := hfilled.insert haddr hgnew
  have hin : new ∈ Insert.insert new known := Or.inl rfl
  have hlink : ∀ b, some new = some b → b ∈ Insert.insert new known := fun b hb =>
    Option.some.inj hb ▸ hin
  have hlinked : ∀ g, AlignedHeap g (Insert.insert new known) →
      AlignedHeap (if cur = (g.setNext cur (some new)).kernelHeapEnd
        then { g.setNext cur (some new) with kernelHeapEnd := new }
        else g.setNext cur (some new)) (Insert.insert new known) := by
    intro g hg
    have hnext := hg.setNext cur hlink
    split_ifs
    · exact { hnext with tail := hin }
    · exact hnext
  refine ⟨Insert.insert new known, Or.inr hc, ?_⟩
  -- what `cur` holds is read in between, but none of it has changed, even if the new
  -- header is `cur`
  unfold createKheapNode
  simp only [← hnew, setIsFree_size, setPrev_next, setSize_next, setIsFree_next, ← hg]
  cases (g.node cur).next with
  | none => exact hlinked g hknown
  | some n => exact hlinked _ (hknown.setPrev n hlink)

/-- `merge_memory_nodes` on known headers. -/
theorem merge (hleft : ∀ b, left = some b → b ∈ known)
    (hright : ∀ b, right = some b → b ∈ known) :
    AlignedHeap (mergeMemoryNodes h left right) known := by
  unfold mergeMemoryNodes
  split
  · next l r =>
    have hl := hleft l rfl
    have hr := hright r rfl
    split_ifs
    · extract_lets h₁ h₂
      have hsum : heapAllocAlignment ∣
          ((h.node l).size + (h.node r).size + sizeofKHeapMemoryNode) % 2 ^ 64 :=
        aligned_mod (Nat.dvd_add (Nat.dvd_add (ha.node l hl).size (ha.node r hr).size)
          aligned_header)
      have hh₁ : AlignedHeap h₁ known := ha.setSize l hsum
      have hh₂ : AlignedHeap h₂ known := hh₁.setNext l (hh₁.node r hr).next
      split
      · exact hh₂
      · exact hh₂.setPrev _ fun b hb => Option.some.inj hb ▸ hl
    · exact ha
  · exact ha

/-- `expand_heap` fills in the header of the region before it links it. -/
theorem expand {m : PageMode} {g : KHeap} {size : Nat}
    (he : expandHeap m h size = .ok g) : ∃ known', known ⊆ known' ∧ AlignedHeap g known' := by
  unfold expandHeap at he
  split at he
  · cases he
  · next new rest hr =>
    obtain ⟨hnew, hrest⟩ := List.forall_mem_cons.mp (hr ▸ ha.regions)
    extract_lets pages h₀ h₁ h₂ h₃ h₄ h₅ h₆ at he
    have hbytes : heapAllocAlignment ∣ pageSizeInBytes m * pages % 2 ^ 64 :=
      aligned_mod (Dvd.dvd.mul_right (aligned_page (Nat.dvd_refl _)) _)
    have hh₄ : AlignedHeap h₄ known := by
      have hh₀ : AlignedHeap h₀ known := { ha with regions := hrest }
      have hh₁ : AlignedHeap h₁ known := hh₀.setNext new (by simp)
      have hh₂ : AlignedHeap h₂ known := hh₁.setPrev new fun b hb => Option.some.inj hb ▸ hh₁.tail
      exact (hh₂.setSize new hbytes).setIsFree new true
    have hnode : AlignedNode known (h₄.node new) := by
      simp only [h₄, h₃, h₂, h₁, KHeap.setIsFree, KHeap.setSize, KHeap.setPrev, KHeap.setNext,
        write_node, if_true]
      exact ⟨hbytes, by simp, fun b hb => Option.some.inj hb ▸ ha.tail⟩
    have hin : new ∈ Insert.insert new known := Or.inl rfl
    have hh₅ : AlignedHeap h₅ (Insert.insert new known) :=
      (hh₄.insert hnew hnode).setNext _ fun b hb => Option.some.inj hb ▸ hin
    have hh₆ : AlignedHeap h₆ (Insert.insert new known) := { hh₅ with tail := hin }
    refine ⟨Insert.insert new known, Set.subset_insert _ _, ?_⟩
    split_ifs at he
    · injection he with he
      rw [← he]
      exact hh₆.merge (hh₆.node new hin).prev fun b hb => Option.some.inj hb ▸ hin
    · injection he with he
      rw [← he]
      exact hh₆

theorem take {c real : Nat} (hc : c ∈ known)
    (hreal : heapAllocAlignment ∣ real) : ∃ known', AlignedHeap (takeNode h real c) known' := by
  unfold takeNode splitNode
  split_ifs
  · obtain ⟨known', -, ha'⟩ := ha.create hc hreal
    exact ⟨known', (ha'.setIsFree c false).setSize c hreal⟩
  · exact ⟨known, ha.setIsFree c false⟩

theorem release {c : Nat} (hc : c ∈ known) :
    AlignedHeap (releaseNode h c) known := by
  have hself : ∀ b, some c = some b → b ∈ known := fun b hb => Option.some.inj hb ▸ hc
  unfold releaseNode
  extract_lets h₁ merges h₂
  have hh₁ : AlignedHeap h₁ known := ha.setIsFree c true
  have hh₂ : AlignedHeap h₂ known := by
    dsimp only [h₂]
    split_ifs
    · exact hh₁.merge hself (hh₁.node c hc).next
    · exact hh₁
  split_ifs
  · exact hh₂.merge (hh₂.node c hc).prev hself
  · exact hh₂

end AlignedHeap

/-! ## The calls -/

section Calls

variable {m : PageMode} {h h' : KHeap} {known : Set Nat} {fuel size ptr : Nat} {p : Option Nat}

/-- The node that is handed out is in use, and has at least the bytes looked for. -/
theorem takeNode_taken {real c : Nat} (hfit : fits h real c) :
    ((takeNode h real c).node c).isFree = false ∧ real ≤ ((takeNode h real c).node c).size := by
  unfold takeNode splitNode
  split_ifs
  · simp
  · simpa using hfit.2

/-- What `kmalloc` promises about the pointer it returns. -/
structure Serves (size : Nat) (h : KHeap) (p : Nat) : Prop where
  aligned : heapAllocAlignment ∣ p
  inUse   : (h.node ((p + 2 ^ 64 - sizeofKHeapMemoryNode) % 2 ^ 64)).isFree = false
  large   : size ≤ (h.node ((p + 2 ^ 64 - sizeofKHeapMemoryNode) % 2 ^ 64)).size

/-- The header in front of a payload. -/
theorem header_of_payload {c : Nat} (hc : c < 2 ^ 64) :
    ((c + sizeofKHeapMemoryNode) % 2 ^ 64 + 2 ^ 64 - sizeofKHeapMemoryNode) % 2 ^ 64 = c := by
  unfold sizeofKHeapMemoryNode
  omega

/-- The payload of a known node that was taken serves the `real_size` looked for. -/
theorem AlignedHeap.serves {c : Nat} (ha : AlignedHeap h known) (hc : c ∈ known)
    (hfit : fits h (realSize size) c) :
    Serves (realSize size) (takeNode h (realSize size) c)
      ((c + sizeofKHeapMemoryNode) % 2 ^ 64) := by
  obtain ⟨hcdvd, hclt⟩ := ha.address c hc
  obtain ⟨huse, hsize⟩ := takeNode_taken hfit
  have hnode := header_of_payload hclt
  refine ⟨aligned_mod (Nat.dvd_add hcdvd aligned_header), ?_, ?_⟩
  · simpa only [hnode] using huse
  · simpa only [hnode] using hsize

/-- **`kmalloc` keeps the heap aligned**, and its result serves the `real_size` that was
looked for. -/
theorem kmalloc_aligned (ha : AlignedHeap h known) (hk : kmalloc m fuel size h = .ok (p, h')) :
    (∃ known', AlignedHeap h' known') ∧ ∀ q, p = some q → Serves (realSize size) h' q := by
  unfold kmalloc at hk
  split_ifs at hk
  · cases hk
    exact ⟨⟨known, ha⟩, by simp⟩
  have hfirst : ∀ c, some h.kernelHeapStart = some c → c ∈ known := fun c hc =>
    Option.some.inj hc ▸ ha.start
  -- invariant of the search: it is at a known header, on whatever the heap has become
  refine loop_inv (fun s => ∃ known, AlignedHeap s.1 known ∧ ∀ c, s.2 = some c → c ∈ known)
    (fun r => (∃ known', AlignedHeap r.2 known') ∧ ∀ q, r.1 = some q → Serves (realSize size) r.2 q)
    ?_ ?_ ⟨known, ha, hfirst⟩ hk
  · rintro ⟨g, cur⟩ ⟨g', cur'⟩ ⟨known, ha, hcur⟩ hb
    cases cur with
    | none => cases hb
    | some c =>
      have hc := hcur c rfl
      by_cases hfit : fits g (realSize size) c
      · rw [kmallocBody_fits hfit] at hb
        cases hb
      by_cases hend : c = g.kernelHeapEnd
      · cases hexpand : expandHeap m g (realSize size) with
        | error e =>
          rw [kmallocBody_stuck hfit hend hexpand] at hb
          cases hb
        | ok g₁ =>
          rw [kmallocBody_grows hfit hend hexpand] at hb
          obtain ⟨known', hsub, ha'⟩ := ha.expand hexpand
          -- back by `prev` if there is one, then forth by `next`
          split at hb
          · next q hprev =>
            cases hb
            exact ⟨known', ha', (ha'.node q ((ha'.node c (hsub hc)).prev q hprev)).next⟩
          · cases hb
            exact ⟨known', ha', (ha'.node c (hsub hc)).next⟩
      · rw [kmallocBody_walks hfit hend] at hb
        cases hb
        exact ⟨known, ha, (ha.node c hc).next⟩
  · rintro ⟨g, cur⟩ ⟨q, g'⟩ ⟨known, ha, hcur⟩ hb
    rcases kmallocBody_ends hb with ⟨-, rfl, rfl⟩ | ⟨c, rfl, hfit, rfl, rfl⟩
    · exact ⟨⟨known, ha⟩, by simp⟩
    · have hc := hcur c rfl
      refine ⟨ha.take hc (aligned_realSize size), fun r hr => ?_⟩
      exact Option.some.inj hr ▸ ha.serves hc hfit

/-- **`kfree` keeps the heap aligned**, whatever pointer it is given. -/
theorem kfree_aligned (ha : AlignedHeap h known) (hk : kfree fuel ptr h = .ok h') :
    AlignedHeap h' known := by
  unfold kfree at hk
  split_ifs at hk
  · cases hk
    exact ha
  · cases hk
    exact ha
  have hfirst : ∀ c, some h.kernelHeapStart = some c → c ∈ known := fun c hc =>
    Option.some.inj hc ▸ ha.start
  refine loop_inv (fun cur => ∀ c, cur = some c → c ∈ known) (fun g => AlignedHeap g known)
    ?_ ?_ hfirst hk
  · rintro cur cur' hcur hb
    cases cur with
    | none => cases hb
    | some c =>
      simp only [kfreeBody] at hb
      split_ifs at hb
      · cases hb
      · cases hb
        exact (ha.node c (hcur c rfl)).next
  · rintro cur g hcur hb
    cases cur with
    | none =>
      cases hb
      exact ha
    | some c =>
      simp only [kfreeBody] at hb
      split_ifs at hb
      · cases hb
        exact ha.release (hcur c rfl)
      · cases hb

end Calls

/-! ## Reachable heaps -/

/-- Any call that returns. -/
def requestStep (m : PageMode) (h : KHeap) : HeapCall → KHeap → Prop
  | .kmalloc size, h' => ∃ fuel p, kmalloc m fuel size h = .ok (p, h')
  | .kfree ptr, h' => ∃ fuel, kfree fuel ptr h = .ok h'

/-- A heap that `initialize_kheap` has made, with regions to come that begin at page
boundaries. -/
def Booted (m : PageMode) (h₀ : KHeap) : Prop :=
  ∃ h, initializeKheap m h = .ok h₀ ∧ ∀ r ∈ h.vmmRegions, pageSizeInBytes m ∣ r ∧ r < 2 ^ 64

theorem Booted.aligned {m : PageMode} {h₀ : KHeap} (hb : Booted m h₀) :
    ∃ known, AlignedHeap h₀ known := by
  obtain ⟨h, hinit, hregions⟩ := hb
  unfold initializeKheap at hinit
  split at hinit
  · cases hinit
  · next start rest hr =>
    rw [hr] at hregions
    obtain ⟨hstart, hrest⟩ := List.forall_mem_cons.mp hregions
    cases hinit
    refine ⟨{start}, rfl, rfl, ?_, ?_, fun r hr => ⟨aligned_page (hrest r hr).1, (hrest r hr).2⟩⟩
    · rintro a rfl
      exact ⟨aligned_page hstart.1, hstart.2⟩
    · rintro a rfl
      simp only [KHeap.setIsFree, KHeap.setSize, KHeap.setPrev, KHeap.setNext, write_node, if_true]
      exact ⟨aligned_page (Nat.dvd_refl _), by simp, by simp⟩

theorem run_aligned {m : PageMode} {h₀ h : KHeap} {calls : List HeapCall} (hb : Booted m h₀)
    (hrun : Run (requestStep m) h₀ calls h) : ∃ known, AlignedHeap h known := by
  refine hrun.inv (fun g => ∃ known, AlignedHeap g known) hb.aligned ?_
  rintro g g' (size | ptr) ⟨known, ha⟩ hstep
  · obtain ⟨fuel, p, hk⟩ := hstep
    exact (kmalloc_aligned ha hk).1
  · obtain ⟨fuel, hk⟩ := hstep
    exact ⟨known, kfree_aligned ha hk⟩

/-- Below `2 ^ 64 - 48` neither the header nor the rounding wraps. -/
theorem le_realSize {size : Nat} (hsize : size < 2 ^ 64 - 48) : size ≤ realSize size := by
  unfold realSize align sizeofKHeapMemoryNode heapAllocAlignment
  omega

/-- From there on the bytes looked for are 0, 16 or 32. -/
theorem realSize_wraps {size : Nat} (hsize : 2 ^ 64 - 48 ≤ size) (hword : size < 2 ^ 64) :
    realSize size ≤ 32 := by
  unfold realSize align sizeofKHeapMemoryNode heapAllocAlignment
  omega

/-- The first call on a new heap is served from the first page. -/
theorem first_request (m : PageMode) (size : Nat) (hpos : 0 < size) (hreal : realSize size ≤ 256) :
    ∃ h₀ c, Booted m h₀ ∧ c < 2 ^ 64 ∧ splits h₀ (realSize size) c ∧
      kmalloc m 1 size h₀ = .ok (some ((c + sizeofKHeapMemoryNode) % 2 ^ 64),
        takeNode h₀ (realSize size) c) := by
  have hpage : 0x1000 ≤ pageSizeInBytes m ∧ pageSizeInBytes m < 2 ^ 64 := by
    cases m <;> decide
  obtain ⟨h₀, hinit, hstart, hnode⟩ : ∃ h₀, initializeKheap m
      { node := fun _ => ⟨0, false, none, none⟩, kernelHeapStart := 0, kernelHeapEnd := 0
        vmmRegions := [pageSizeInBytes m] } = .ok h₀ ∧
      h₀.kernelHeapStart = pageSizeInBytes m ∧
      h₀.node (pageSizeInBytes m) = ⟨pageSizeInBytes m, true, none, none⟩ :=
    ⟨_, rfl, rfl, by simp⟩
  have hbooted : Booted m h₀ := ⟨_, hinit, by simpa using hpage.2⟩
  have hfit : fits h₀ (realSize size) (pageSizeInBytes m) := by
    unfold fits
    rw [hnode]
    exact ⟨rfl, by show realSize size ≤ pageSizeInBytes m; omega⟩
  refine ⟨h₀, pageSizeInBytes m, hbooted, hpage.2, ?_, ?_⟩
  · unfold splits kheapMinimumAllocableSize
    rw [hnode]
    show pageSizeInBytes m - realSize size > 0x20
    omega
  · rw [kmalloc, if_neg (by omega), hstart]
    exact loop_done (kmallocBody_fits hfit)

/-- A size that wraps is served with a few bytes. -/
theorem kmalloc_wraps (m : PageMode) (size : Nat) (hsize : 2 ^ 64 - 48 ≤ size)
    (hword : size < 2 ^ 64) :
    ∃ h₀ p h', Booted m h₀ ∧ kmalloc m 1 size h₀ = .ok (some p, h') ∧ ¬ Serves size h' p := by
  have hreal := realSize_wraps hsize hword
  obtain ⟨h₀, c, hboot, hc, hsplits, hk⟩ := first_request m size (by omega) (by omega)
  refine ⟨h₀, _, _, hboot, hk, fun hserves => ?_⟩
  have hlarge := hserves.large
  rw [header_of_payload hc, takeNode, if_pos hsplits, splitNode] at hlarge
  simp only [KHeap.setSize, write_node, if_true] at hlarge
  omega

end Dreamos64
