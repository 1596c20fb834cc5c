import Dreamos64.Mem.KHeapEdits

/-!
# Dreamos64 — the search of `kmalloc`

The search stops at the first node that is free and large enough (`fits`), or at
`kernel_heap_end`, whichever comes first. What it finds there decides the call.

* `kmalloc_fits`, `kmalloc_grows`, `kmalloc_fails` — the three ways a call ends;
* `kmalloc_cases`                                  — there is no other.
-/

namespace Dreamos64

open Machine Links KHeap

/-- `real_size`: the bytes that `kmalloc` looks for. -/
def realSize (size : Nat) : Nat := align ((size + sizeofKHeapMemoryNode) % 2 ^ 64)

/-- A node that `kmalloc` accepts. -/
def fits (h : KHeap) (real c : Nat) : Prop := (h.node c).isFree = true ∧ real ≤ (h.node c).size

/-- The bytes behind the ones taken become a node if more than
`KHEAP_MINIMUM_ALLOCABLE_SIZE` are left. -/
def splits (h : KHeap) (real c : Nat) : Prop :=
  (h.node c).size - real > kheapMinimumAllocableSize

instance (h : KHeap) (real c : Nat) : Decidable (fits h real c) :=
  inferInstanceAs (Decidable (_ ∧ _))

instance (h : KHeap) (real c : Nat) : Decidable (splits h real c) :=
  inferInstanceAs (Decidable (_ < _))

/-- The heap once `kmalloc` has taken the node `c`. -/
def takeNode (h : KHeap) (real c : Nat) : KHeap :=
  if splits h real c then splitNode h c real else h.setIsFree c false

/-- The node that is left over. -/
def leftover (h : KHeap) (real c : Nat) : List Nat :=
  if splits h real c then [c + sizeofKHeapMemoryNode + real] else []

/-- `KHEAP_MINIMUM_ALLOCABLE_SIZE` is the size of a header. -/
theorem splits.room {h : KHeap} {real c : Nat} (hs : splits h real c) :
    real + sizeofKHeapMemoryNode < h.payloadSize c := by
  unfold splits kheapMinimumAllocableSize at hs
  unfold sizeofKHeapMemoryNode payloadSize
  omega

section Search

variable {m : PageMode} {h g : KHeap} {size c new : Nat} {cur : Option Nat} {rest : List Nat}

/-! ## One turn -/

theorem kmallocBody_fits (hfit : fits h (realSize size) c) :
    kmallocBody m size (h, some c) = .ok (.done (some ((c + sizeofKHeapMemoryNode) % 2 ^ 64),
      takeNode h (realSize size) c)) := by
  unfold kmallocBody
  exact if_pos hfit

section

variable (hfit : ¬ fits h (realSize size) c)

include hfit

theorem kmallocBody_walks (hend : c ≠ h.kernelHeapEnd) :
    kmallocBody m size (h, some c) = .ok (.next (h, h.nextOf c)) := by
  unfold kmallocBody
  exact (if_neg hfit).trans (if_neg hend)

theorem kmallocBody_grows (hend : c = h.kernelHeapEnd)
    (hexpand : expandHeap m h (realSize size) = .ok g) :
    kmallocBody m size (h, some c) = match g.prevOf c with
      | some p => .ok (.next (g, g.nextOf p))
      | none => .ok (.next (g, g.nextOf c)) := by
  unfold kmallocBody
  refine (if_neg hfit).trans ((if_pos hend).trans ?_)
  show (expandHeap m h (realSize size) >>= _) = _
  rw [hexpand]
  rfl

theorem kmallocBody_stuck {e : Stuck} (hend : c = h.kernelHeapEnd)
    (hexpand : expandHeap m h (realSize size) = .error e) :
    kmallocBody m size (h, some c) = .error e := by
  unfold kmallocBody
  refine (if_neg hfit).trans ((if_pos hend).trans ?_)
  show (expandHeap m h (realSize size) >>= _) = _
  rw [hexpand]
  rfl

end

/-- The turn that ends the call. -/
theorem kmallocBody_ends {p : Option Nat} (hb : kmallocBody m size (h, cur) = .ok (.done (p, g))) :
    (cur = none ∧ p = none ∧ g = h) ∨ ∃ c, cur = some c ∧ fits h (realSize size) c ∧
      p = some ((c + sizeofKHeapMemoryNode) % 2 ^ 64) ∧ g = takeNode h (realSize size) c := by
  cases cur with
  | none =>
    cases hb
    exact Or.inl ⟨rfl, rfl, rfl⟩
  | some c =>
    by_cases hfit : fits h (realSize size) c
    · rw [kmallocBody_fits hfit] at hb
      cases hb
      exact Or.inr ⟨c, rfl, hfit, rfl, rfl⟩
    -- a node that does not fit is passed, or makes the heap grow
    by_cases hend : c = h.kernelHeapEnd
    · cases hexpand : expandHeap m h (realSize size) with
      | error e =>
        rw [kmallocBody_stuck hfit hend hexpand] at hb
        cases hb
      | ok g' =>
        rw [kmallocBody_grows hfit hend hexpand] at hb
        split at hb <;> cases hb
    · rw [kmallocBody_walks hfit hend] at hb
      cases hb

/-- `expand_heap` when the new region does not touch the tail. -/
theorem expandHeap_apart (hr : h.vmmRegions = new :: rest) (hnew : h.kernelHeapEnd ≠ new)
    (hapart : (h.kernelHeapEnd + sizeofKHeapMemoryNode + h.payloadSize h.kernelHeapEnd) % 2 ^ 64 ≠
      new) :
    expandHeap m h size = .ok (expandNode h new rest
      (pageSizeInBytes m * getNumberOfPagesFromSize m size % 2 ^ 64)) := by
  obtain ⟨g, hg⟩ : ∃ g, g = expandNode h new rest
    (pageSizeInBytes m * getNumberOfPagesFromSize m size % 2 ^ 64) := ⟨_, rfl⟩
  have hnode := expandNode_node rest (pageSizeInBytes m * getNumberOfPagesFromSize m size % 2 ^ 64)
    hnew
  rw [← hg] at hnode
  have hmerge : canMerge g new = 0 := by
    unfold canMerge
    have htail := hnode h.kernelHeapEnd
    rw [if_neg hnew, if_pos rfl] at htail
    rw [hnode new, if_pos rfl]
    simp only [htail]
    rw [if_neg fun hadj => hapart hadj.2]
    rfl
  have hcode : expandHeap m h size = if canMerge g new &&& mergeLeft ≠ 0 then
      .ok (mergeMemoryNodes g (g.node new).prev (some new)) else .ok g := by
    unfold expandHeap
    rw [hr, hg]
    rfl
  rw [hcode, hmerge, if_neg (by decide), hg]

/-! ## The search -/

/-- The nodes before the one where the search stops are passed over. -/
theorem kmalloc_walk {a : List Nat} {o : Option Nat} (fuel : Nat) (hseg : Seg h.nextOf cur a o)
    (hpass : ∀ x ∈ a, ¬ fits h (realSize size) x ∧ x ≠ h.kernelHeapEnd) :
    loop (kmallocBody m size) (a.length + fuel) (h, cur) =
      loop (kmallocBody m size) fuel (h, o) := by
  induction a generalizing cur with
  | nil =>
    rw [seg_nil] at hseg
    rw [hseg, List.length_nil, Nat.zero_add]
  | cons x a ih =>
    obtain ⟨rfl, htail⟩ := seg_cons.1 hseg
    obtain ⟨hfit, hend⟩ := hpass x List.mem_cons_self
    rw [List.length_cons, Nat.add_right_comm, loop_next (kmallocBody_walks hfit hend)]
    exact ih htail fun y hy => hpass y (List.mem_cons_of_mem _ hy)

end Search

/-! ## How `kmalloc` ends -/

section Calls

variable {m : PageMode} {h : KHeap} {l l₁ l₂ : List Nat} {size c fuel bytes new : Nat}
  {rest : List Nat}

/-- The search stops at a node that fits. -/
theorem kmalloc_fits (hl : Linked h (l₁ ++ c :: l₂)) (hsize : size ≠ 0)
    (hpass : ∀ x ∈ l₁, ¬ fits h (realSize size) x ∧ x ≠ h.kernelHeapEnd)
    (hfit : fits h (realSize size) c) :
    kmalloc m (l₁.length + 1) size h = .ok (some ((c + sizeofKHeapMemoryNode) % 2 ^ 64),
      takeNode h (realSize size) c) := by
  rw [kmalloc, if_neg hsize, kmalloc_walk 1 (chain_split.1 hl.chain).1 hpass]
  exact loop_done (kmallocBody_fits hfit)

/-- The search reaches the end of the list, but not `kernel_heap_end`. -/
theorem kmalloc_fails (hl : Linked h l) (hsize : size ≠ 0)
    (hpass : ∀ x ∈ l, ¬ fits h (realSize size) x ∧ x ≠ h.kernelHeapEnd) :
    kmalloc m (l.length + 1) size h = .ok (none, h) := by
  rw [kmalloc, if_neg hsize, kmalloc_walk 1 hl.chain hpass]
  exact loop_done rfl

/-- The search reaches `kernel_heap_end`, and goes on to the region that `expand_heap`
appends. -/
theorem kmalloc_grows (hl : Linked h (l₁ ++ h.kernelHeapEnd :: l₂)) (hsize : size ≠ 0)
    (hpass : ∀ x ∈ l₁, ¬ fits h (realSize size) x ∧ x ≠ h.kernelHeapEnd)
    (hfit : ¬ fits h (realSize size) h.kernelHeapEnd)
    (hnew : new ∉ l₁ ++ h.kernelHeapEnd :: l₂)
    (hexpand : expandHeap m h (realSize size) = .ok (expandNode h new rest bytes))
    (hbytes : realSize size ≤ bytes) :
    kmalloc m (l₁.length + 3) size h = .ok (some ((new + sizeofKHeapMemoryNode) % 2 ^ 64),
      takeNode (expandNode h new rest bytes) (realSize size) new) := by
  have hne : h.kernelHeapEnd ≠ new := by
    rintro rfl
    exact hnew (by simp)
  obtain ⟨g, hg⟩ : ∃ g, g = expandNode h new rest bytes := ⟨_, rfl⟩
  rw [← hg] at hexpand ⊢
  have hnode := expandNode_node rest bytes hne
  rw [← hg] at hnode
  -- the tail is as unsuitable as before, and leads on to the new node
  have htail := hnode h.kernelHeapEnd
  rw [if_neg hne, if_pos rfl] at htail
  have hnofit : ¬ fits g (realSize size) h.kernelHeapEnd := by
    intro hfit'
    unfold fits at hfit'
    rw [htail] at hfit'
    exact hfit hfit'
  have hgend : h.kernelHeapEnd ≠ g.kernelHeapEnd := by
    rw [hg]
    exact hne
  have hnext : g.nextOf h.kernelHeapEnd = some new := by
    rw [nextOf, htail]
  have hnewfit : fits g (realSize size) new := by
    unfold fits
    rw [hnode new, if_pos rfl]
    exact ⟨rfl, hbytes⟩
  have hdone := kmallocBody_fits (m := m) hnewfit
  rw [kmalloc, if_neg hsize, kmalloc_walk 3 (chain_split.1 hl.chain).1 hpass]
  have hgrow := kmallocBody_grows (m := m) hfit rfl hexpand
  cases hprev : g.prevOf h.kernelHeapEnd with
  | none =>
    rw [hprev] at hgrow
    rw [loop_next hgrow, hnext]
    exact loop_done hdone
  | some p =>
    rw [hprev] at hgrow
    -- one step back, and forth again
    have hprev' : h.prevOf h.kernelHeapEnd = some p := by
      rw [← hprev, prevOf, prevOf, htail]
    obtain ⟨j₁, j₂, hj⟩ := hl.split_at_prev (by simp) hprev'
    rw [hj] at hl hnew
    have hback : h.nextOf p = some h.kernelHeapEnd := hl.chain.next_eq
    have hp : p ≠ new ∧ p ≠ h.kernelHeapEnd := by
      refine ⟨?_, hl.no_way_back.1⟩
      rintro rfl
      exact hnew (by simp)
    have hforth : g.nextOf p = some h.kernelHeapEnd := by
      rw [nextOf, hnode, if_neg hp.1, if_neg hp.2]
      exact hback
    rw [loop_next hgrow, hforth, loop_next (kmallocBody_walks hnofit hgend), hnext]
    exact loop_done hdone

theorem takeNode_vmmRegions (h : KHeap) (real c : Nat) :
    (takeNode h real c).vmmRegions = h.vmmRegions := by
  unfold takeNode
  split_ifs
  · exact (splitNode_globals h c _).2.2
  · rfl

/-- The node at which the search stops, if there is one. -/
theorem search_stops (h : KHeap) (real : Nat) (l : List Nat) :
    (∀ x ∈ l, ¬ fits h real x ∧ x ≠ h.kernelHeapEnd) ∨
      ∃ l₁ c l₂, l = l₁ ++ c :: l₂ ∧ (∀ x ∈ l₁, ¬ fits h real x ∧ x ≠ h.kernelHeapEnd) ∧
        (fits h real c ∨ c = h.kernelHeapEnd) := by
  cases hfind : l.find? fun x => fits h real x ∨ x = h.kernelHeapEnd with
  | none => exact Or.inl (by simpa using hfind)
  | some c =>
    obtain ⟨hc, l₁, l₂, hl, hpass⟩ := List.find?_eq_some_iff_append.1 hfind
    exact Or.inr ⟨l₁, c, l₂, hl, by simpa using hpass, by simpa using hc⟩

/-- A call that goes on from `kernel_heap_end` takes a region. -/
theorem kmalloc_tail_takes {h' : KHeap} {p : Option Nat}
    (hfit : ¬ fits h (realSize size) h.kernelHeapEnd)
    (hon : loop (kmallocBody m size) (fuel + 1) (h, some h.kernelHeapEnd) = .ok (p, h')) :
    h'.vmmRegions.length < h.vmmRegions.length := by
  rw [loop_succ] at hon
  cases hexpand : expandHeap m h (realSize size) with
  | error e =>
    rw [kmallocBody_stuck hfit rfl hexpand] at hon
    cases hon
  | ok g =>
    rw [kmallocBody_grows hfit rfl hexpand] at hon
    have hlt := expandHeap_vmmRegions hexpand
    cases hprev : g.prevOf h.kernelHeapEnd with
    | none =>
      rw [hprev] at hon
      exact Nat.lt_of_le_of_lt (kmalloc_vmmRegions_le hon) hlt
    | some q =>
      rw [hprev] at hon
      exact Nat.lt_of_le_of_lt (kmalloc_vmmRegions_le hon) hlt

/-- **How `kmalloc` ends.** On the node that fits, on a new region that it took from
`vmm_alloc`, or empty-handed. Where a region is taken, `expand_heap` must append it. -/
theorem kmalloc_cases {h' : KHeap} {p : Option Nat} (hl : Linked h l) (hsize : size ≠ 0)
    (hk : kmalloc m fuel size h = .ok (p, h'))
    (happend : h'.vmmRegions ≠ h.vmmRegions → h.kernelHeapEnd ∈ l → ∀ new rest,
      h.vmmRegions = new :: rest → new ∉ l ∧ expandHeap m h (realSize size) =
        .ok (expandNode h new rest (wholePages m (realSize size)))) :
    (p = none ∧ h' = h) ∨
    (∃ l₁ c l₂, l = l₁ ++ c :: l₂ ∧
      (∀ x ∈ l₁, ¬ fits h (realSize size) x ∧ x ≠ h.kernelHeapEnd) ∧
      fits h (realSize size) c ∧ p = some ((c + sizeofKHeapMemoryNode) % 2 ^ 64) ∧
      h' = takeNode h (realSize size) c) ∨
    (∃ l₁ l₂ new rest, l = l₁ ++ h.kernelHeapEnd :: l₂ ∧
      (∀ x ∈ l₁, ¬ fits h (realSize size) x ∧ x ≠ h.kernelHeapEnd) ∧
      ¬ fits h (realSize size) h.kernelHeapEnd ∧ h.vmmRegions = new :: rest ∧
      p = some ((new + sizeofKHeapMemoryNode) % 2 ^ 64) ∧ h' = takeNode (expandNode h new rest
        (wholePages m (realSize size))) (realSize size) new) := by
  have hsame {o : Option Nat} {g : KHeap} {n : Nat} (hg : kmalloc m n size h = .ok (o, g)) :
      p = o ∧ h' = g := by
    unfold kmalloc at hk hg
    rw [if_neg hsize] at hk hg
    have heq := loop_det hk hg
    exact ⟨congrArg Prod.fst heq, congrArg Prod.snd heq⟩
  rcases search_stops h (realSize size) l with hpass | ⟨l₁, c, l₂, rfl, hpass, hc⟩
  · exact Or.inl (hsame (kmalloc_fails hl hsize hpass))
  by_cases hfit : fits h (realSize size) c
  · obtain ⟨rfl, rfl⟩ := hsame (kmalloc_fits hl hsize hpass hfit)
    exact Or.inr (Or.inl ⟨l₁, c, l₂, rfl, hpass, hfit, rfl, rfl⟩)
  obtain rfl := hc.resolve_left hfit
  -- the call as it goes on from the tail
  have hon : loop (kmallocBody m size) (fuel + 1) (h, some h.kernelHeapEnd) = .ok (p, h') := by
    rw [kmalloc, if_neg hsize] at hk
    rw [← kmalloc_walk (fuel + 1) (chain_split.1 hl.chain).1 hpass]
    exact loop_mono (by omega) hk
  have hfewer := kmalloc_tail_takes hfit hon
  cases hr : h.vmmRegions with
  | nil =>
    rw [hr] at hfewer
    exact absurd hfewer (Nat.not_lt_zero _)
  | cons new rest =>
    obtain ⟨hnew, hexpand⟩ := happend (fun e => Nat.lt_irrefl _ (e ▸ hfewer)) (by simp) new rest hr
    obtain ⟨rfl, rfl⟩ := hsame (kmalloc_grows hl hsize hpass hfit hnew hexpand (le_wholePages m _))
    exact Or.inr (Or.inr ⟨l₁, l₂, new, rest, rfl, hpass, hfit, rfl, rfl, rfl⟩)

/-- A call that takes no region takes a node of the list, if any. -/
theorem kmalloc_stays {h' : KHeap} {p : Option Nat} (hl : Linked h l)
    (hk : kmalloc m fuel size h = .ok (p, h')) (hexp : h'.vmmRegions = h.vmmRegions) :
    h' = h ∨ ∃ l₁ c l₂, l = l₁ ++ c :: l₂ ∧ fits h (realSize size) c ∧
      h' = takeNode h (realSize size) c := by
  by_cases hsize : size = 0
  · rw [kmalloc, if_pos hsize] at hk
    cases hk
    exact Or.inl rfl
  rcases kmalloc_cases hl hsize hk (fun hne => absurd hexp hne) with ⟨-, rfl⟩ |
    ⟨l₁, c, l₂, rfl, -, hfit, -, rfl⟩ | ⟨-, -, new, rest, -, -, -, hr, -, rfl⟩
  · exact Or.inl rfl
  · exact Or.inr ⟨l₁, c, l₂, rfl, hfit, rfl⟩
  · rw [takeNode_vmmRegions, hr] at hexp
    have hshort := congrArg List.length hexp
    simp [expandNode] at hshort

end Calls

end Dreamos64
