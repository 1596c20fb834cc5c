import Dreamos64.Lib.Links
import Dreamos64.Mem.KHeap
import Mathlib.Order.Interval.Set.Disjoint

/-!
# Dreamos64 — the edits of the heap list

`create_kheap_node` puts a header behind another one, `merge_memory_nodes` takes
the one behind out again, and `expand_heap` puts one at the end. For each of
them this module says what the fields of every header are afterwards
(`splitNode_node`, `mergeMemoryNodes_node`, `expandNode_node`), and that
the list stays doubly linked (`Linked`).

Where the headers lie in memory is not this module's business, except that a new
one must not fall on a node of the list.
-/

namespace Dreamos64

open Machine Links

namespace KHeap

-- what the invariant reads of a node

def nextOf (h : KHeap) (a : Nat) : Option Nat := (h.node a).next

def prevOf (h : KHeap) (a : Nat) : Option Nat := (h.node a).prev

def payloadSize (h : KHeap) (a : Nat) : Nat := (h.node a).size

/-- The bytes a node takes up: its header and its payload. -/
def extent (h : KHeap) (a : Nat) : Nat := sizeofKHeapMemoryNode + h.payloadSize a

/-- The bytes `[node, node + header)`. -/
def header (a : Nat) : Set Nat := Set.Ico a (a + sizeofKHeapMemoryNode)

/-- The bytes `[node + header, node + header + size)`. -/
def payload (h : KHeap) (a : Nat) : Set Nat :=
  Set.Ico (a + sizeofKHeapMemoryNode) (a + sizeofKHeapMemoryNode + h.payloadSize a)

@[simp] theorem write_node (h : KHeap) (a b : Nat) (f : KHeapMemoryNode → KHeapMemoryNode) :
    (h.write a f).node b = if b = a then f (h.node b) else h.node b := by
  by_cases hb : b = a
  · subst hb
    simp [write]
  · simp [write, hb]

@[simp] theorem write_kernelHeapStart (h : KHeap) (a : Nat)
    (f : KHeapMemoryNode → KHeapMemoryNode) :
    (h.write a f).kernelHeapStart = h.kernelHeapStart := rfl

@[simp] theorem write_kernelHeapEnd (h : KHeap) (a : Nat)
    (f : KHeapMemoryNode → KHeapMemoryNode) :
    (h.write a f).kernelHeapEnd = h.kernelHeapEnd := rfl

@[simp] theorem write_vmmRegions (h : KHeap) (a : Nat)
    (f : KHeapMemoryNode → KHeapMemoryNode) :
    (h.write a f).vmmRegions = h.vmmRegions := rfl

end KHeap

open KHeap

/-! ## The two edits, as functions of the address -/

section Split

variable {h : KHeap} {cur : Nat} {new size : Nat}

/-- The heap after `kmalloc` has split `cur` and taken its first half. -/
def splitNode (h : KHeap) (cur : Nat) (size : Nat) : KHeap :=
  ((createKheapNode h cur size).setIsFree cur false).setSize cur size

/-- The headers after a split. `cur` must not be its own successor, and the new
header must not fall on `cur` or on its successor. -/
theorem splitNode_node (hnew : (cur + sizeofKHeapMemoryNode + size) % 2 ^ 64 = new)
    (hne : new ≠ cur) (hnext : h.nextOf cur ≠ some new) (hself : h.nextOf cur ≠ some cur)
    (b : Nat) :
    (splitNode h cur size).node b =
      if b = cur then { h.node cur with size := size, isFree := false, next := some new }
      else if b = new then
        { size := (h.payloadSize cur + 2 ^ 64 - (size + sizeofKHeapMemoryNode) % 2 ^ 64) % 2 ^ 64
          isFree := true, next := h.nextOf cur, prev := some cur }
      else if h.nextOf cur = some b then { h.node b with prev := some new }
      else h.node b := by
  unfold splitNode createKheapNode
  unfold nextOf payloadSize at *
  -- moving `kernel_heap_end` touches no node
  simp only [hnew, KHeap.setIsFree, setSize, setPrev, setNext, write_node, apply_ite KHeap.node,
    ite_self, if_neg hne.symm]
  cases hx : (h.node cur).next with
  | none =>
    by_cases hbc : b = cur
    · simp [hbc, hne.symm]
    by_cases hbn : b = new <;> simp [hbc, hbn, hne]
  | some n =>
    have hnc : cur ≠ n := fun e => hself (e ▸ hx)
    have hnn : new ≠ n := fun e => hnext (e ▸ hx)
    by_cases hbc : b = cur
    · simp [hbc, hne.symm, hnc]
    by_cases hbn : b = new
    · simp [hbn, hne, hnn]
    by_cases hbx : b = n
    · simp [hbx, hnn.symm, hnc.symm]
    · simp [hbc, hbn, hbx, Ne.symm hbx]

/-- Of the globals, a split moves `kernel_heap_end` if that was the node split. -/
theorem createKheapNode_globals (h : KHeap) (cur size : Nat) :
    (createKheapNode h cur size).kernelHeapStart = h.kernelHeapStart ∧
    (createKheapNode h cur size).kernelHeapEnd =
      (if cur = h.kernelHeapEnd then (cur + sizeofKHeapMemoryNode + size) % 2 ^ 64
        else h.kernelHeapEnd) ∧
    (createKheapNode h cur size).vmmRegions = h.vmmRegions := by
  unfold createKheapNode
  extract_lets new h₁ h₂ h₃ h₄ h₅ h₆
  have hglobals : h₅.kernelHeapStart = h.kernelHeapStart ∧ h₅.kernelHeapEnd = h.kernelHeapEnd ∧
      h₅.vmmRegions = h.vmmRegions := by
    dsimp only [h₅]
    split <;> exact ⟨rfl, rfl, rfl⟩
  obtain ⟨hstart, hend, hregions⟩ := hglobals
  have hend₆ : h₆.kernelHeapEnd = h.kernelHeapEnd := hend
  rw [hend₆]
  split_ifs
  · exact ⟨hstart, rfl, hregions⟩
  · exact ⟨hstart, hend, hregions⟩

theorem splitNode_globals (h : KHeap) (cur size : Nat) :
    (splitNode h cur size).kernelHeapStart = h.kernelHeapStart ∧
    (splitNode h cur size).kernelHeapEnd =
      (if cur = h.kernelHeapEnd then (cur + sizeofKHeapMemoryNode + size) % 2 ^ 64
        else h.kernelHeapEnd) ∧
    (splitNode h cur size).vmmRegions = h.vmmRegions :=
  createKheapNode_globals h cur size

end Split

section Merge

variable {h : KHeap} {left right : Nat}

/-- The headers after a merge of neighbours. -/
theorem mergeMemoryNodes_node
    (hadj : (left + h.payloadSize left + sizeofKHeapMemoryNode) % 2 ^ 64 = right)
    (hne : left ≠ right) (hback : h.nextOf right ≠ some left) (b : Nat) :
    (mergeMemoryNodes h (some left) (some right)).node b =
      if b = left then
        { h.node left with
          size := (h.payloadSize left + h.payloadSize right + sizeofKHeapMemoryNode) % 2 ^ 64
          next := h.nextOf right }
      else if h.nextOf right = some b then { h.node b with prev := some left }
      else h.node b := by
  unfold mergeMemoryNodes
  unfold nextOf payloadSize at *
  simp only [hadj, setSize, setNext, setPrev, write_node, if_neg hne.symm, if_true]
  cases hx : (h.node right).next with
  | none => by_cases hbl : b = left <;> simp [hbl]
  | some n =>
    have hnl : left ≠ n := fun e => hback (e ▸ hx)
    by_cases hbl : b = left
    · simp [hbl, hnl]
    by_cases hbn : b = n
    · simp [hbn, hnl.symm]
    · simp [hbl, hbn, Ne.symm hbn]

/-- A merge writes nodes only. -/
theorem mergeMemoryNodes_globals (h : KHeap) (left right : Option Nat) :
    (mergeMemoryNodes h left right).kernelHeapStart = h.kernelHeapStart ∧
    (mergeMemoryNodes h left right).kernelHeapEnd = h.kernelHeapEnd ∧
    (mergeMemoryNodes h left right).vmmRegions = h.vmmRegions := by
  unfold mergeMemoryNodes
  split
  · split_ifs
    · simp only
      split <;> simp
    · simp
  · simp

theorem mergeMemoryNodes_isFree (h : KHeap) (left right : Option Nat) (b : Nat) :
    ((mergeMemoryNodes h left right).node b).isFree = (h.node b).isFree := by
  unfold mergeMemoryNodes
  split
  · split_ifs
    · dsimp only
      split
      · simp only [setNext, setSize, write_node]
        split_ifs <;> rfl
      · simp only [setNext, setSize, setPrev, write_node]
        split_ifs <;> rfl
    · rfl
  · rfl

end Merge

section Expand

variable {h : KHeap} {new : Nat}

/-- The heap after `expand_heap` has put a region behind `kernel_heap_end`, before
it looks for a merge. -/
def expandNode (h : KHeap) (new : Nat) (rest : List Nat) (bytes : Nat) : KHeap :=
  let h := { h with vmmRegions := rest }
  let h := h.setNext new none
  let h := h.setPrev new (some h.kernelHeapEnd)
  let h := h.setSize new bytes
  let h := h.setIsFree new true
  let h := h.setNext h.kernelHeapEnd (some new)
  { h with kernelHeapEnd := new }

/-- The headers after an expansion. -/
theorem expandNode_node (rest : List Nat) (bytes : Nat) (hend : h.kernelHeapEnd ≠ new) (b : Nat) :
    (expandNode h new rest bytes).node b =
      if b = new then { size := bytes, isFree := true, next := none, prev := some h.kernelHeapEnd }
      else if b = h.kernelHeapEnd then { h.node b with next := some new }
      else h.node b := by
  unfold expandNode
  simp only [KHeap.setIsFree, setSize, setPrev, setNext, write_node, write_kernelHeapEnd]
  by_cases hbn : b = new
  · subst hbn
    simp [hend.symm]
  · simp only [hbn, if_false]

end Expand

/-! ## Doubly linked lists -/

/-- The nodes `l` are the list from `kernel_heap_start`, doubly linked. -/
structure Linked (h : KHeap) (l : List Nat) : Prop where
  chain  : Chain h.nextOf (some h.kernelHeapStart) l
  paired : Paired h.nextOf h.prevOf l
  first  : h.prevOf h.kernelHeapStart = none

namespace Linked

variable {h : KHeap} {l l₁ l₂ : List Nat} {cur new size x y : Nat}

section

variable (hl : Linked h l)

include hl

theorem start_mem : h.kernelHeapStart ∈ l :=
  List.mem_of_mem_head? hl.chain.head_eq.symm

/-- A node is never its own successor, nor linked back to by the first one. -/
theorem next_ne (hc : cur ∈ l) :
    h.nextOf cur ≠ some cur ∧ h.nextOf cur ≠ some h.kernelHeapStart := by
  constructor
  · intro hself
    obtain ⟨l₁, l₂, rfl⟩ := List.append_of_mem hc
    have hnd := hl.chain.nodup
    rw [hl.chain.next_eq] at hself
    simp [List.nodup_append, List.mem_of_mem_head? hself] at hnd
  · intro hstart
    have hprev := hl.paired cur hc _ hstart
    rw [hl.first] at hprev
    simp at hprev

/-- The node after `cur`, seen from the list. -/
theorem split_at_next (hc : cur ∈ l) {n : Nat} (hn : h.nextOf cur = some n) :
    ∃ l₁ l₂, l = l₁ ++ cur :: n :: l₂ := by
  obtain ⟨l₁, l₂, rfl⟩ := List.append_of_mem hc
  rw [hl.chain.next_eq] at hn
  obtain ⟨l₃, rfl⟩ := List.head?_eq_some_iff.mp hn
  exact ⟨l₁, l₃, rfl⟩

/-- The node before `cur`: back links lead to it, and the first node has none. -/
theorem split_at_prev (hc : cur ∈ l) {p : Nat} (hp : h.prevOf cur = some p) :
    ∃ l₁ l₂, l = l₁ ++ p :: cur :: l₂ := by
  obtain ⟨l₁, l₂, rfl⟩ := List.append_of_mem hc
  rcases List.eq_nil_or_concat l₁ with rfl | ⟨l₁, q, rfl⟩
  · have hstart : h.kernelHeapStart = cur := Option.some.inj hl.chain.1
    have hfirst := hl.first
    rw [hstart, hp] at hfirst
    simp at hfirst
  · have hsplit : l₁.concat q ++ cur :: l₂ = l₁ ++ q :: cur :: l₂ := by simp
    rw [hsplit] at hl ⊢
    have hback := hl.paired q (by simp) cur hl.chain.next_eq
    obtain rfl : p = q := Option.some.inj (hp.symm.trans hback)
    exact ⟨l₁, l₂, rfl⟩

/-- A change of `is_free` is invisible to the list. -/
theorem setIsFree (a : Nat) (b : Bool) : Linked (h.setIsFree a b) l := by
  have hnext : (h.setIsFree a b).nextOf = h.nextOf := by
    funext x
    simp only [nextOf, KHeap.setIsFree, write_node]
    split <;> rfl
  have hprev : (h.setIsFree a b).prevOf = h.prevOf := by
    funext x
    simp only [prevOf, KHeap.setIsFree, write_node]
    split <;> rfl
  exact ⟨by rw [hnext]; exact hl.chain, by rw [hnext, hprev]; exact hl.paired,
    by rw [hprev]; exact hl.first⟩

/-- The headers after a split of a list node, where no header was. -/
theorem split_node (hc : cur ∈ l) (hnew : (cur + sizeofKHeapMemoryNode + size) % 2 ^ 64 = new)
    (hfresh : new ∉ l) (b : Nat) :
    (splitNode h cur size).node b =
      if b = cur then { h.node cur with size := size, isFree := false, next := some new }
      else if b = new then
        { size := (h.payloadSize cur + 2 ^ 64 - (size + sizeofKHeapMemoryNode) % 2 ^ 64) % 2 ^ 64
          isFree := true, next := h.nextOf cur, prev := some cur }
      else if h.nextOf cur = some b then { h.node b with prev := some new }
      else h.node b := by
  refine splitNode_node hnew ?_ (fun e => hfresh (hl.chain.next_mem hc e)) (hl.next_ne hc).1 b
  rintro rfl
  exact hfresh hc

end

/-- The sizes after a split: the two nodes share what the one had. -/
theorem split_sizes (hl : Linked h (l₁ ++ cur :: l₂))
    (hnew : (cur + sizeofKHeapMemoryNode + size) % 2 ^ 64 = new) (hfresh : new ∉ l₁ ++ cur :: l₂)
    (hsize : size + sizeofKHeapMemoryNode ≤ h.payloadSize cur)
    (hlt : h.payloadSize cur < 2 ^ 64) :
    (splitNode h cur size).payloadSize cur = size ∧
      (splitNode h cur size).payloadSize new = h.payloadSize cur - (size + sizeofKHeapMemoryNode) ∧
      ∀ b ∈ l₁ ++ l₂, (splitNode h cur size).payloadSize b = h.payloadSize b := by
  have hcur : cur ∈ l₁ ++ cur :: l₂ := by simp
  have hnode := hl.split_node hcur hnew hfresh
  have hne : new ≠ cur := fun e => hfresh (e ▸ hcur)
  have hout := not_mem_of_nodup_middle hl.chain.nodup
  refine ⟨by rw [payloadSize, hnode, if_pos rfl], ?_, fun b hb => ?_⟩
  · rw [payloadSize, hnode, if_neg hne, if_pos rfl]
    show (h.payloadSize cur + 2 ^ 64 - (size + sizeofKHeapMemoryNode) % 2 ^ 64) % 2 ^ 64 = _
    omega
  · have hbc : b ≠ cur := fun e => hout (e ▸ hb)
    have hbn : b ≠ new := by
      rintro rfl
      simp only [List.mem_append, List.mem_cons] at hb hfresh
      tauto
    rw [payloadSize, hnode, if_neg hbc, if_neg hbn]
    split_ifs <;> rfl

theorem split (hl : Linked h (l₁ ++ cur :: l₂))
    (hnew : (cur + sizeofKHeapMemoryNode + size) % 2 ^ 64 = new)
    (hfresh : new ∉ l₁ ++ cur :: l₂) : Linked (splitNode h cur size) (l₁ ++ cur :: new :: l₂) := by
  have hcur : cur ∈ l₁ ++ cur :: l₂ := by simp
  have hnode := hl.split_node hcur hnew hfresh
  have hne : new ≠ cur := fun e => hfresh (e ▸ hcur)
  have hnx (b : Nat) : (splitNode h cur size).nextOf b =
      if b = cur then some new else if b = new then h.nextOf cur else h.nextOf b := by
    rw [nextOf, hnode]
    split_ifs <;> rfl
  have hpv (b : Nat) : (splitNode h cur size).prevOf b =
      if b = new then some cur else if h.nextOf cur = some b then some new else h.prevOf b := by
    rw [prevOf, hnode]
    split_ifs with hbc hbn hnb <;> simp_all [prevOf, (hl.next_ne hcur).1]
  refine ⟨?_, ?_, ?_⟩
  · rw [(splitNode_globals h cur size).1]
    refine hl.chain.insert hfresh ?_ ?_ ?_
    · simp [hnx]
    · simp [hnx, hne]
    -- the old successor of `cur` now looks back at the new node
    · intro z hzc hzn
      simp [hnx, hzc, hzn]
  · refine hl.paired.insert hl.chain ?_ ?_ ?_ hfresh ?_ ?_ ?_
    · simp [hnx]
    · simp [hnx, hne]
    · intro z hzc hzn
      simp [hnx, hzc, hzn]
    · simp [hpv]
    · intro z hz
      have hzn : z ≠ new := by
        rintro rfl
        exact hfresh (hl.chain.next_mem hcur hz)
      simp [hpv, hz, hzn]
    · intro z hzn hz
      simp [hpv, hz, hzn]
  · have hsn : h.kernelHeapStart ≠ new := fun e => hfresh (e ▸ hl.start_mem)
    rw [(splitNode_globals h cur size).1, hpv]
    simp [hsn, (hl.next_ne hcur).2, hl.first]

section

variable (hl : Linked h (l₁ ++ x :: y :: l₂))

include hl

/-- Two neighbours are different, and the second does not lead back. -/
theorem no_way_back : x ≠ y ∧ h.nextOf y ≠ some x := by
  have hchain := hl.chain
  have hnd := hchain.nodup
  simp only [List.nodup_append, List.nodup_cons, List.mem_cons, not_or] at hnd
  rw [List.append_cons] at hchain
  refine ⟨hnd.2.1.1.1, fun hback => hnd.2.1.1.2 ?_⟩
  exact List.mem_of_mem_head? (hchain.next_eq ▸ hback)

/-- The headers after the node `y` has disappeared into the node `x` before it. -/
theorem merge_node (hadj : (x + h.payloadSize x + sizeofKHeapMemoryNode) % 2 ^ 64 = y) (b : Nat) :
    (mergeMemoryNodes h (some x) (some y)).node b =
      if b = x then
        { h.node x with
          size := (h.payloadSize x + h.payloadSize y + sizeofKHeapMemoryNode) % 2 ^ 64
          next := h.nextOf y }
      else if h.nextOf y = some b then { h.node b with prev := some x }
      else h.node b := by
  obtain ⟨hne, hback⟩ := hl.no_way_back
  exact mergeMemoryNodes_node hadj hne hback b

/-- The sizes after a merge: the left node grows by the right one and its header. -/
theorem merge_sizes (hadj : (x + h.payloadSize x + sizeofKHeapMemoryNode) % 2 ^ 64 = y)
    (hlt : h.payloadSize x + h.payloadSize y + sizeofKHeapMemoryNode < 2 ^ 64) :
    (mergeMemoryNodes h (some x) (some y)).payloadSize x =
        h.payloadSize x + h.payloadSize y + sizeofKHeapMemoryNode ∧
      ∀ b ∈ l₁ ++ l₂,
        (mergeMemoryNodes h (some x) (some y)).payloadSize b = h.payloadSize b := by
  have hnode := hl.merge_node hadj
  refine ⟨?_, fun b hb => ?_⟩
  · rw [payloadSize, hnode, if_pos rfl]
    exact Nat.mod_eq_of_lt hlt
  · have hbx : b ≠ x := by
      rintro rfl
      have hout := not_mem_of_nodup_middle hl.chain.nodup
      simp only [List.mem_append, List.mem_cons] at hb hout
      tauto
    rw [payloadSize, hnode, if_neg hbx]
    split_ifs <;> rfl

theorem merge (hadj : (x + h.payloadSize x + sizeofKHeapMemoryNode) % 2 ^ 64 = y) :
    Linked (mergeMemoryNodes h (some x) (some y)) (l₁ ++ x :: l₂) := by
  have hy : y ∈ l₁ ++ x :: y :: l₂ := by simp
  have hnode := hl.merge_node hadj
  have hnx (b : Nat) : (mergeMemoryNodes h (some x) (some y)).nextOf b =
      if b = x then h.nextOf y else h.nextOf b := by
    rw [nextOf, hnode]
    split_ifs <;> rfl
  obtain ⟨-, hback⟩ := hl.no_way_back
  have hpv (b : Nat) : (mergeMemoryNodes h (some x) (some y)).prevOf b =
      if h.nextOf y = some b then some x else h.prevOf b := by
    rw [prevOf, hnode]
    split_ifs with hbx hnb <;> simp_all [prevOf]
  refine ⟨?_, ?_, ?_⟩
  · rw [(mergeMemoryNodes_globals h (some x) (some y)).1]
    refine hl.chain.unlink ?_ ?_
    · simp [hnx]
    · intro z _ hzx
      simp [hnx, hzx]
  · refine hl.paired.unlink hl.chain ?_ ?_ ?_ ?_
    · simp [hnx]
    · intro z _ hzx
      simp [hnx, hzx]
    · intro z hz
      simp [hpv, hz]
    · intro z hz
      simp [hpv, hz]
  · rw [(mergeMemoryNodes_globals h (some x) (some y)).1, hpv]
    simp [(hl.next_ne hy).2, hl.first]

end

/-- The list is cut behind `kernel_heap_end` and goes on at the new region. -/
theorem expand (rest : List Nat) (bytes : Nat) (hl : Linked h (l₁ ++ h.kernelHeapEnd :: l₂))
    (hfresh : new ∉ l₁ ++ h.kernelHeapEnd :: l₂) :
    Linked (expandNode h new rest bytes) (l₁ ++ [h.kernelHeapEnd, new]) := by
  have hend : h.kernelHeapEnd ≠ new := fun e => hfresh (e ▸ by simp)
  have hnode := expandNode_node rest bytes hend
  have hold {x : Nat} (hx : x ∈ l₁) : x ≠ h.kernelHeapEnd ∧ x ≠ new := by
    refine ⟨fun e => ?_, fun e => hfresh (e ▸ List.mem_append_left _ hx)⟩
    have hout := not_mem_of_nodup_middle hl.chain.nodup
    exact hout (List.mem_append_left _ (e ▸ hx))
  have hnx (b : Nat) : (expandNode h new rest bytes).nextOf b =
      if b = new then none else if b = h.kernelHeapEnd then some new else h.nextOf b := by
    rw [nextOf, hnode]
    split_ifs <;> rfl
  have hpv (b : Nat) : (expandNode h new rest bytes).prevOf b =
      if b = new then some h.kernelHeapEnd else h.prevOf b := by
    rw [prevOf, hnode]
    split_ifs <;> rfl
  obtain ⟨hseg, -⟩ := chain_split.mp hl.chain
  refine ⟨chain_split.mpr ⟨hseg.congr fun x hx => ?_, ?_⟩, ?_, ?_⟩
  · simp [hnx, hold hx]
  · simp [hnx, hend]
  · intro x hx y hy
    rw [hnx] at hy
    rw [hpv]
    simp only [List.mem_append, List.mem_cons, List.not_mem_nil, or_false] at hx
    rcases hx with hx | rfl | rfl
    -- before the old end nothing is rewritten
    · obtain ⟨hxe, hxn⟩ := hold hx
      rw [if_neg hxn, if_neg hxe] at hy
      have hxl : x ∈ l₁ ++ h.kernelHeapEnd :: l₂ := List.mem_append_left _ hx
      have hyn : y ≠ new := fun e => hfresh (e ▸ hl.chain.next_mem hxl hy)
      rw [if_neg hyn]
      exact hl.paired x hxl y hy
    · rw [if_neg hend, if_pos rfl] at hy
      rw [if_pos (Option.some.inj hy).symm]
    · rw [if_pos rfl] at hy
      cases hy
  · have hstart : h.kernelHeapStart ≠ new := fun e => hfresh (e ▸ hl.start_mem)
    show (expandNode h new rest bytes).prevOf h.kernelHeapStart = none
    rw [hpv, if_neg hstart]
    exact hl.first

end Linked

/-! ## The turns of `kmalloc` -/

section Turns

variable {h h' : KHeap} {m : PageMode} {fuel size : Nat} {p : Option Nat}

/-- `expand_heap` takes a region from `vmm_alloc`: afterwards one less is left. -/
theorem expandHeap_vmmRegions (he : expandHeap m h size = .ok h') :
    h'.vmmRegions.length < h.vmmRegions.length := by
  unfold expandHeap at he
  split at he
  · simp at he
  · next start rest hr =>
    dsimp only at he
    rw [hr]
    split_ifs at he
    · injection he with he
      rw [← he, (mergeMemoryNodes_globals _ _ _).2.2]
      simp
    · injection he with he
      rw [← he]
      simp

/-- A turn of `kmalloc`'s loop that goes around may take a region, in `expand_heap`. -/
theorem kmallocBody_next {g g' : KHeap} {c c' : Option Nat}
    (hb : kmallocBody m size (g, c) = .ok (.next (g', c'))) :
    g'.vmmRegions.length ≤ g.vmmRegions.length := by
  cases c with
  | none => simp [kmallocBody] at hb
  | some x =>
    simp only [kmallocBody] at hb
    split_ifs at hb
    · cases hb
    · cases hb
    · -- the end of the heap
      obtain ⟨e, he, hb⟩ := bind_inv hb
      have hlt := expandHeap_vmmRegions he
      split at hb <;> cases hb <;> exact Nat.le_of_lt hlt
    · cases hb
      exact Nat.le_refl _

theorem kmallocBody_done {g g' : KHeap} {c : Option Nat}
    (hb : kmallocBody m size (g, c) = .ok (.done (p, g'))) : g'.vmmRegions = g.vmmRegions := by
  cases c with
  | none =>
    cases hb
    rfl
  | some x =>
    simp only [kmallocBody] at hb
    split_ifs at hb
    · cases hb
      exact (splitNode_globals _ _ _).2.2
    · cases hb
      rfl
    · obtain ⟨e, he, hb⟩ := bind_inv hb
      split at hb <;> cases hb
    · cases hb

/-- Along the search the regions left only get fewer. -/
theorem kmalloc_vmmRegions_le {c : Option Nat}
    (hk : loop (kmallocBody m size) fuel (h, c) = .ok (p, h')) :
    h'.vmmRegions.length ≤ h.vmmRegions.length := by
  refine loop_inv (fun s => s.1.vmmRegions.length ≤ h.vmmRegions.length)
    (fun r => r.2.vmmRegions.length ≤ h.vmmRegions.length) ?_ ?_ (Nat.le_refl _) hk
  · rintro ⟨g, c⟩ ⟨g', c'⟩ hle hb
    exact Nat.le_trans (kmallocBody_next hb) hle
  · rintro ⟨g, c⟩ ⟨q, g'⟩ hle hb
    show g'.vmmRegions.length ≤ _
    rw [kmallocBody_done hb]
    exact hle

end Turns

/-! ## The search of `kfree` -/

section Search

variable {h h' : KHeap} {l : List Nat} {fuel ptr : Nat}

/-- `kfree` refuses the pointer, finds no node for it, or releases the node. -/
theorem kfree_cases (hl : Linked h l) (hk : kfree fuel ptr h = .ok h') :
    (h' = h ∧ (ptr = 0 ∨ ptr < h.kernelHeapStart ∨ ptr > h.kernelHeapEnd ∨
        ∀ x ∈ l, (x + sizeofKHeapMemoryNode) % 2 ^ 64 ≠ ptr)) ∨
    (h.kernelHeapStart ≤ ptr ∧ ptr ≤ h.kernelHeapEnd ∧
      ∃ x ∈ l, (x + sizeofKHeapMemoryNode) % 2 ^ 64 = ptr ∧ h' = releaseNode h x) := by
  unfold kfree at hk
  split_ifs at hk with hnull hrange
  · cases hk
    exact Or.inl ⟨rfl, Or.inl hnull⟩
  · cases hk
    exact Or.inl ⟨rfl, Or.inr (hrange.imp_right Or.inl)⟩
  · rw [not_or, Nat.not_lt, Nat.not_lt] at hrange
    -- the nodes seen so far have other payloads, the rest is still linked
    refine loop_inv
      (fun c => ∃ a b, l = a ++ b ∧ Chain h.nextOf c b ∧
        ∀ x ∈ a, (x + sizeofKHeapMemoryNode) % 2 ^ 64 ≠ ptr)
      (fun g => (g = h ∧ (ptr = 0 ∨ ptr < h.kernelHeapStart ∨ ptr > h.kernelHeapEnd ∨
          ∀ x ∈ l, (x + sizeofKHeapMemoryNode) % 2 ^ 64 ≠ ptr)) ∨
        (h.kernelHeapStart ≤ ptr ∧ ptr ≤ h.kernelHeapEnd ∧
          ∃ x ∈ l, (x + sizeofKHeapMemoryNode) % 2 ^ 64 = ptr ∧ g = releaseNode h x))
      ?_ ?_ ⟨[], l, rfl, hl.chain, by simp⟩ hk
    · rintro c c' ⟨a, b, rfl, hb, hseen⟩ hbody
      cases b with
      | nil =>
        rw [chain_nil] at hb
        subst hb
        cases hbody
      | cons x b =>
        obtain ⟨rfl, htail⟩ := chain_cons.mp hb
        simp only [kfreeBody] at hbody
        split_ifs at hbody with hx
        · cases hbody
        · cases hbody
          refine ⟨a ++ [x], b, by simp, htail, fun y hy => ?_⟩
          rcases List.mem_append.1 hy with hy | hy
          · exact hseen y hy
          · rw [List.mem_singleton.1 hy]
            exact hx
    · rintro c g ⟨a, b, rfl, hb, hseen⟩ hbody
      cases b with
      | nil =>
        rw [chain_nil] at hb
        subst hb
        cases hbody
        refine Or.inl ⟨rfl, Or.inr (Or.inr (Or.inr fun x hx => hseen x ?_))⟩
        simpa using hx
      | cons x b =>
        obtain ⟨rfl, -⟩ := chain_cons.mp hb
        simp only [kfreeBody] at hbody
        split_ifs at hbody with hx
        · cases hbody
          exact Or.inr ⟨hrange.1, hrange.2, x, by simp, hx, rfl⟩
        · cases hbody

/-- What `kfree` does to the node it finds keeps whatever the flag and the merges of
neighbours keep, whichever of the two merges happen. -/
theorem releaseNode_keeps {P : KHeap → List Nat → Prop} {c : Nat}
    (hlinked : ∀ {h l}, P h l → Linked h l)
    (hmerge : ∀ {h l₁ x y l₂}, P h (l₁ ++ x :: y :: l₂) →
      (x + h.payloadSize x + sizeofKHeapMemoryNode) % 2 ^ 64 = y →
      P (mergeMemoryNodes h (some x) (some y)) (l₁ ++ x :: l₂))
    (hflag : P (h.setIsFree c true) l) (hc : c ∈ l) : ∃ l', P (releaseNode h c) l' := by
  -- nodes that do not touch are left as they are
  have hpair {g : KHeap} {l₁ l₂ : List Nat} {x y : Nat} (hg : P g (l₁ ++ x :: y :: l₂)) :
      ∃ l', P (mergeMemoryNodes g (some x) (some y)) l' ∧ x ∈ l' := by
    by_cases hadj : (x + g.payloadSize x + sizeofKHeapMemoryNode) % 2 ^ 64 = y
    · exact ⟨_, hmerge hg hadj, by simp⟩
    · have hsame : mergeMemoryNodes g (some x) (some y) = g := if_neg hadj
      exact ⟨_, hsame.symm ▸ hg, by simp⟩
  unfold releaseNode
  extract_lets h₁ merges h₂
  -- the right merge, if there is one, keeps the node in the list
  have hright : ∃ l', P h₂ l' ∧ c ∈ l' := by
    dsimp only [h₂]
    split_ifs
    · cases hn : (h₁.node c).next with
      | none => exact ⟨l, hflag, hc⟩
      | some n =>
        obtain ⟨l₁, l₂, rfl⟩ := (hlinked hflag).split_at_next hc hn
        exact hpair hflag
    · exact ⟨l, hflag, hc⟩
  obtain ⟨l', hl', hc'⟩ := hright
  split_ifs
  · cases hp : (h₂.node c).prev with
    | none => exact ⟨l', hl'⟩
    | some p =>
      obtain ⟨l₁, l₂, rfl⟩ := (hlinked hl').split_at_prev hc' hp
      exact (hpair hl').imp fun _ => And.left
  · exact ⟨l', hl'⟩

/-- `kfree` returns: its search ends at the latest with the list. -/
theorem Linked.kfree_returns (hl : Linked h l) (ptr : Nat) :
    ∃ h', kfree (l.length + 1) ptr h = .ok h' := by
  unfold kfree
  split_ifs
  · exact ⟨h, rfl⟩
  · exact ⟨h, rfl⟩
  -- the turns left are the nodes from the current one on
  have hloop : ∃ h', loop (kfreeBody h ptr) (l.length + 1) (some h.kernelHeapStart) = .ok h' ∧
      True := by
    refine loop_total (fun n c => ∃ k, Chain h.nextOf c k ∧ k.length = n) (fun _ => True) ?_
      ⟨l, hl.chain, rfl⟩ (Nat.lt_succ_self _)
    rintro n c ⟨k, hk, rfl⟩
    cases k with
    | nil =>
      rw [chain_nil] at hk
      subst hk
      exact Or.inr ⟨_, rfl, trivial⟩
    | cons x k =>
      obtain ⟨rfl, htail⟩ := chain_cons.mp hk
      simp only [kfreeBody]
      split_ifs
      · exact Or.inr ⟨_, rfl, trivial⟩
      · exact Or.inl ⟨_, rfl, k.length, by simp, k, htail, rfl⟩
  exact hloop.imp fun _ => And.left

end Search

end Dreamos64
