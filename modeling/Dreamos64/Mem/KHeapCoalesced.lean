import Dreamos64.Mem.KHeapInvariant
import Dreamos64.Mem.KHeapCalls
import Mathlib.Data.List.Chain

/-!
# Dreamos64 — the heap stays coalesced

In a heap of one region the nodes tile it (`HeapInv`), so two neighbours always
touch and `can_merge` is decided by `is_free` alone. `kfree` therefore leaves no
free node next to the one it releases. `kmalloc` makes a free node behind the one
it takes; that its successor is in use is the invariant itself, for the node taken
was free.

* `HeapInv.take_coalesced`, `HeapInv.release_coalesced` — the two edits;
* `heap_coalesced`                                      — every state of a run.
-/

namespace Dreamos64

open Machine Links Blocks KHeap

/-- No node of the list and its successor are both free. -/
def Coalesced (h : KHeap) (l : List Nat) : Prop :=
  l.IsChain fun x y => ¬ ((h.node x).isFree = true ∧ (h.node y).isFree = true)

section Lists

variable {h h' : KHeap} {l l₁ l₂ : List Nat} {x : Nat}

/-- Fewer free nodes, fewer free neighbours. -/
theorem Coalesced.mono (hc : Coalesced h l)
    (hfree : ∀ b ∈ l, (h'.node b).isFree = true → (h.node b).isFree = true) : Coalesced h' l :=
  List.IsChain.imp_of_mem_imp
    (fun a b ha hb hnot hboth => hnot ⟨hfree a ha hboth.1, hfree b hb hboth.2⟩) hc

/-- Cut at a node: both sides are coalesced, and it is not free next to a free one. -/
theorem coalesced_middle : Coalesced h (l₁ ++ x :: l₂) ↔
    Coalesced h l₁ ∧ Coalesced h l₂ ∧
    (∀ p ∈ l₁.getLast?, ¬ ((h.node p).isFree = true ∧ (h.node x).isFree = true)) ∧
    ∀ n ∈ l₂.head?, ¬ ((h.node x).isFree = true ∧ (h.node n).isFree = true) := by
  unfold Coalesced
  rw [List.isChain_append, List.isChain_cons]
  simp only [List.head?_cons, Option.mem_some_iff, forall_eq']
  tauto

/-- A list that begins with a node in use can be put behind any other. -/
theorem Coalesced.append (h₁ : Coalesced h l₁) (h₂ : Coalesced h l₂)
    (hhead : ∀ n ∈ l₂.head?, (h.node n).isFree = false) : Coalesced h (l₁ ++ l₂) := by
  refine List.IsChain.append h₁ h₂ fun p _ n hn hboth => ?_
  rw [hhead n hn] at hboth
  exact absurd hboth.2 (by simp)

end Lists

section Edits

variable {base limit : Nat} {h : KHeap} {l l₁ l₂ : List Nat} {x real : Nat}

/-- The node in front of a node of the list is the one that its `prev` names. -/
theorem Linked.prev_eq (hl : Linked h (l₁ ++ x :: l₂)) : h.prevOf x = l₁.getLast? := by
  rcases List.eq_nil_or_concat l₁ with rfl | ⟨l₀, p, rfl⟩
  · have hstart : h.kernelHeapStart = x := Option.some.inj hl.chain.1
    rw [← hstart]
    exact hl.first
  · rw [List.concat_eq_append, List.append_assoc] at hl
    rw [List.concat_eq_append, List.getLast?_concat]
    exact hl.paired p (by simp) x hl.chain.next_eq

/-! ## A node is taken -/

/-- `kmalloc` puts the rest of a free node between that node, now in use, and its
successor, which was in use before. -/
theorem HeapInv.take_coalesced (hi : HeapInv base limit h (l₁ ++ x :: l₂))
    (hc : Coalesced h (l₁ ++ x :: l₂)) (hfree : (h.node x).isFree = true) :
    Coalesced (takeNode h real x) (l₁ ++ x :: (leftover h real x ++ l₂)) := by
  unfold takeNode leftover
  split_ifs with hsplits
  · obtain ⟨hmod, hnew⟩ := hi.split_fresh (by simp) (Nat.le_of_lt hsplits.room)
    have hnode := hi.linked.split_node (by simp) hmod hnew
    have hx : ((splitNode h x real).node x).isFree = false := by rw [hnode, if_pos rfl]
    -- of the nodes there were, none has become free
    have hold : ∀ b ∈ l₁ ++ x :: l₂, ((splitNode h x real).node b).isFree = true →
        (h.node b).isFree = true := by
      intro b hb
      rw [hnode]
      split_ifs with hbx hbnew
      · simp
      · exact absurd (hbnew ▸ hb) hnew
      · exact id
      · exact id
    obtain ⟨h₁, h₂, -, hright⟩ := coalesced_middle.mp hc
    have h₁' : Coalesced (splitNode h x real) l₁ := h₁.mono fun b hb => hold b (by simp [hb])
    have h₂' : Coalesced (splitNode h x real) l₂ := h₂.mono fun b hb => hold b (by simp [hb])
    refine coalesced_middle.mpr ⟨h₁', ?_, by simp [hx], by simp [hx]⟩
    refine List.IsChain.cons h₂' fun n hn hboth => hright n hn ⟨hfree, hold n ?_ hboth.2⟩
    exact List.mem_append_right _ (List.mem_cons_of_mem _ (List.mem_of_mem_head? hn))
  · refine hc.mono fun b _ hb => ?_
    rw [KHeap.setIsFree, write_node] at hb
    split_ifs at hb
    exact hb

/-! ## A node is released -/

/-- Neighbours touch, so a free successor can be absorbed. -/
theorem HeapInv.canMerge_right (hi : HeapInv base limit h (l₁ ++ x :: l₂)) :
    canMerge h x &&& mergeRight ≠ 0 ↔ ∃ n, l₂.head? = some n ∧ (h.node n).isFree = true := by
  rw [Dreamos64.canMerge_right, show h.nextOf x = l₂.head? from hi.chain.next_eq]
  refine exists_congr fun n => and_congr_right fun hn => and_iff_left ?_
  obtain ⟨l₃, rfl⟩ := List.head?_eq_some_iff.mp hn
  unfold touches
  rw [Nat.add_right_comm]
  exact hi.adjacent

theorem HeapInv.canMerge_left (hi : HeapInv base limit h (l₁ ++ x :: l₂)) :
    canMerge h x &&& mergeLeft ≠ 0 ↔ ∃ p, l₁.getLast? = some p ∧ (h.node p).isFree = true := by
  rw [Dreamos64.canMerge_left, hi.linked.prev_eq]
  refine exists_congr fun p => and_congr_right fun hp => and_iff_left ?_
  obtain ⟨l₀, rfl⟩ := List.getLast?_eq_some_iff.mp hp
  rw [List.append_assoc] at hi
  unfold touches
  rw [Nat.add_right_comm]
  exact hi.adjacent

/-- The right merge: whether it happens or not, what follows the released node then
begins with a node in use. -/
theorem HeapInv.right_merge (hi : HeapInv base limit h (l₁ ++ x :: l₂)) (hc : Coalesced h l₂) :
    ∃ g k, g = (if canMerge h x &&& mergeRight ≠ 0 then
        mergeMemoryNodes h (some x) (h.node x).next else h) ∧
      HeapInv base limit g (l₁ ++ x :: k) ∧ (∀ b, (g.node b).isFree = (h.node b).isFree) ∧
      Coalesced h k ∧ ∀ n ∈ k.head?, (h.node n).isFree = false := by
  have hnext : (h.node x).next = l₂.head? := hi.chain.next_eq
  by_cases hmerge : canMerge h x &&& mergeRight ≠ 0
  · obtain ⟨n, hn, hfree⟩ := hi.canMerge_right.mp hmerge
    obtain ⟨k, rfl⟩ := List.head?_eq_some_iff.mp hn
    rw [if_pos hmerge, hnext, hn]
    obtain ⟨hhead, hk⟩ := List.isChain_cons.mp hc
    refine ⟨_, k, rfl, hi.merge, mergeMemoryNodes_isFree h _ _, hk, fun z hz => ?_⟩
    -- the node absorbed was free, so its successor is not
    exact Bool.eq_false_iff.mpr fun hz' => hhead z hz ⟨hfree, hz'⟩
  · rw [if_neg hmerge]
    refine ⟨_, l₂, rfl, hi, fun _ => rfl, hc, fun z hz => ?_⟩
    exact Bool.eq_false_iff.mpr fun hz' => hmerge (hi.canMerge_right.mpr ⟨z, hz, hz'⟩)

/-- **`kfree` leaves no free neighbours.** Both merges are decided before the first is
made; the right one does not touch what the left one reads. -/
theorem HeapInv.release_coalesced (hi : HeapInv base limit h l) (hc : Coalesced h l)
    (hx : x ∈ l) :
    ∃ l', HeapInv base limit (releaseNode h x) l' ∧ Coalesced (releaseNode h x) l' := by
  obtain ⟨l₁, l₂, rfl⟩ := List.append_of_mem hx
  have hout := not_mem_of_nodup_middle hi.chain.nodup
  have hi₁ := hi.setIsFree x true
  unfold releaseNode
  extract_lets h₁ merges h₂
  -- the other nodes are as free as they were
  have hsame : ∀ b, b ≠ x → (h₁.node b).isFree = (h.node b).isFree := fun b hb => by
    simp [h₁, write_node, hb]
  obtain ⟨hc₁, hc₂, -, -⟩ := coalesced_middle.mp hc
  have hfront : Coalesced h₁ l₁ := hc₁.mono fun b hb hfree =>
    hsame b (fun e => hout (by simp [← e, hb])) ▸ hfree
  have hback : Coalesced h₁ l₂ := hc₂.mono fun b hb hfree =>
    hsame b (fun e => hout (by simp [← e, hb])) ▸ hfree
  obtain ⟨g, k, hg, hig, hgfree, hk, hhead⟩ := hi₁.right_merge hback
  obtain rfl : g = h₂ := hg
  have hfront' : Coalesced h₂ l₁ := hfront.mono fun b _ => by rw [hgfree]; exact id
  have hk' : Coalesced h₂ k := hk.mono fun b _ => by rw [hgfree]; exact id
  have hhead' : ∀ n ∈ k.head?, (h₂.node n).isFree = false := fun n hn => by
    rw [hgfree]
    exact hhead n hn
  have hprev : (h₂.node x).prev = l₁.getLast? := hig.linked.prev_eq
  split_ifs with hmerge
  · -- the node disappears into the free one before it
    obtain ⟨p, hp, -⟩ := hi₁.canMerge_left.mp hmerge
    rw [hprev, hp]
    obtain ⟨l₀, rfl⟩ := List.getLast?_eq_some_iff.mp hp
    rw [List.append_assoc] at hig
    refine ⟨l₀ ++ p :: k, hig.merge, ?_⟩
    have hall := hfront'.append hk' hhead'
    rw [List.append_assoc] at hall
    exact hall.mono fun b _ => by rw [mergeMemoryNodes_isFree]; exact id
  · refine ⟨_, hig, coalesced_middle.mpr ⟨hfront', hk', fun p hp hboth => ?_, fun n hn hboth => ?_⟩⟩
    · rw [hgfree p] at hboth
      exact hmerge (hi₁.canMerge_left.mpr ⟨p, hp, hboth.1⟩)
    · rw [hhead' n hn] at hboth
      exact absurd hboth.2 (by simp)

end Edits

/-! ## Runs -/

/-- A call keeps the heap tiled and coalesced. -/
theorem heapStep_coalesced {m : PageMode} {base limit : Nat} {h h' : KHeap} {l : List Nat}
    {call : HeapCall} (hi : HeapInv base limit h l) (hc : Coalesced h l)
    (hstep : heapStep m h call h') :
    ∃ l', HeapInv base limit h' l' ∧ Coalesced h' l' := by
  cases call with
  | kmalloc size =>
    obtain ⟨hexp, fuel, p, hk⟩ := hstep
    rcases kmalloc_stays hi.linked hk hexp with rfl | ⟨l₁, c, l₂, rfl, hfit, rfl⟩
    · exact ⟨l, hi, hc⟩
    · exact ⟨_, hi.take, hi.take_coalesced hc hfit.1⟩
  | kfree ptr =>
    obtain ⟨fuel, hk⟩ := hstep
    rcases kfree_cases hi.linked hk with ⟨rfl, -⟩ | ⟨-, -, x, hx, -, rfl⟩
    · exact ⟨l, hi, hc⟩
    · exact hi.release_coalesced hc hx

/-- **The heap stays coalesced.** In every state reached from one free node by calls
with any arguments that do not enter `expand_heap`, no node of the list and its
successor are both free. -/
theorem heap_coalesced (m : PageMode) (h₀ h : KHeap) (calls : List HeapCall)
    (hs : SingleFreeNode h₀) (hrun : Run (heapStep m) h₀ calls h) :
    ∃ l, Chain h.nextOf (some h.kernelHeapStart) l ∧
      ∀ x ∈ l, ∀ y, h.nextOf x = some y →
        ¬ ((h.node x).isFree = true ∧ (h.node y).isFree = true) := by
  obtain ⟨l, hi, hc⟩ : ∃ l, HeapInv h₀.kernelHeapStart
      (h₀.kernelHeapStart + h₀.extent h₀.kernelHeapStart) h l ∧ Coalesced h l := by
    refine hrun.inv (fun g => ∃ l, HeapInv _ _ g l ∧ Coalesced g l)
      ⟨_, hs.inv, List.isChain_singleton _⟩ ?_
    rintro g g' call ⟨l, hi, hc⟩ hstep
    exact heapStep_coalesced hi hc hstep
  refine ⟨l, hi.chain, fun x hx y hy => ?_⟩
  obtain ⟨l₁, l₂, rfl⟩ := hi.linked.split_at_next hx hy
  exact (coalesced_middle.mp hc).2.2.2 y (by simp)

/-- An allocation that is released twice. -/
theorem heap_coalesced_smallHeap :
    ∃ h l, Run (heapStep .small) smallHeap [.kmalloc 100, .kfree 0x1020, .kfree 0x1020] h ∧
      Chain h.nextOf (some h.kernelHeapStart) l ∧ ∀ x ∈ l, ∀ y, h.nextOf x = some y →
        ¬ ((h.node x).isFree = true ∧ (h.node y).isFree = true) := by
  have hs : SingleFreeNode smallHeap := by constructor <;> decide
  obtain ⟨p, h₁, hk, hreg, h₂, hf₂, h, hf, -⟩ : ∃ p h₁,
      kmalloc .small 1 100 smallHeap = .ok (p, h₁) ∧ h₁.vmmRegions = smallHeap.vmmRegions ∧
      ∃ h₂, kfree 1 0x1020 h₁ = .ok h₂ ∧ ∃ h, kfree 1 0x1020 h₂ = .ok h ∧ True := by decide +kernel
  have hrun : Run (heapStep .small) smallHeap [.kmalloc 100, .kfree 0x1020, .kfree 0x1020] h :=
    .extend (.extend (.extend .start ⟨hreg, 1, p, hk⟩) ⟨_, hf₂⟩) ⟨_, hf⟩
  obtain ⟨l, hl, hall⟩ := heap_coalesced .small smallHeap h _ hs hrun
  exact ⟨h, l, hrun, hl, hall⟩

end Dreamos64
