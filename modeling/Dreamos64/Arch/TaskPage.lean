import Dreamos64.Arch.HardwareTree

/-!
# Dreamos64 — reading a task's pages through the direct map

`vm_walk_table` for an address that is mapped in a task, in either build.

* `TaskPage.physicalOf_eq` — where the processor's walk leads.
* `TaskPage.vmWalkTable_eq` — what `vm_walk_table` returns for the same address: the
  frame of its page, without the offset in the page.
-/

namespace Dreamos64

open Machine TableTree

/-- The physical address that an address of the task is translated to. -/
def physicalOf (s : Vm) (r address : Nat) : Option Nat :=
  (translate s r address).map Translation.physical

/-- The address is in a page of the build's size, behind tables that the direct map
reaches. -/
structure TaskPage (m : PageMode) (s : Vm) (r va : Nat) : Prop where
  limit   : s.memorySizeInBytes ≤ 2 ^ 40
  there   : (descend hwTable s.entry r (pathTo va (pageDepth m))).isSome = true
  tables  : ∀ d ≤ pageDepth m, ∀ n, descend hwTable s.entry r (pathTo va d) = some n →
    4096 * n < s.memorySizeInBytes
  present : s.pageSlot m r va % 2 = 1
  huge    : m = .large → s.pageSlot m r va / 128 % 2 = 1

section Walk

variable {m : PageMode} {s : Vm} {r va a n d : Nat}

/-- Where the walk leads does not depend on which links are writable. -/
theorem physicalOf_pathTo (hd : d ≤ 3) (hn : descend hwTable s.entry r (pathTo a d) = some n) :
    physicalOf s r a = (walkFrom s r a d).map Translation.physical := by
  induction d generalizing n with
  | zero => rfl
  | succ d ih =>
    obtain ⟨u, hu⟩ := descend_initial hn (Nat.le_succ d)
    obtain ⟨v, hv⟩ := link_initial hn (Nat.lt_succ_self d)
    rw [ih (by omega) hu, walkFrom_link (by omega) hv, Option.map_map]
    rfl

theorem TaskPage.physicalOf_eq (h : TaskPage m s r va) :
    physicalOf s r va = some (pageByte (39 - 9 * pageDepth m) (s.pageSlot m r va) va) := by
  obtain ⟨n, hn⟩ := Option.isSome_iff_exists.mp h.there
  rw [physicalOf_pathTo (pageDepth_le m) hn, walkFrom_page h.present h.huge]
  rfl

/-- `hhdm_get_variable` of a link's frame is the table behind it. -/
theorem TaskPage.table (h : TaskPage m s r va) {u : Nat} (hd : d + 1 ≤ pageDepth m)
    (hn : descend hwTable s.entry r (pathTo va d) = some n)
    (hu : descend hwTable s.entry r (pathTo va (d + 1)) = some u) :
    s.entry n (indexAt va d) &&& presentBit ≠ 0 ∧
      hhdmGetVariable m s (s.entry n (indexAt va d) &&& vmPageTableBaseAddressMask) =
        tablePtr m u := by
  have hbelow := h.tables (d + 1) hd u hu
  rw [descend_pathTo_succ hn] at hu
  obtain ⟨hpresent, -, rfl⟩ := hwTable_present hu
  exact ⟨by rw [and_presentBit]; omega, hhdmGetVariable_hwFrame h.limit hbelow⟩

/-- `vm_walk_table` returns the frame of the page that holds the address, not the
address in it. -/
theorem TaskPage.vmWalkTable_eq (h : TaskPage m s r va) :
    vmWalkTable m s va (tablePtr m r) = .ok ⟨pageDepth m,
      hhdmGetVariable m s (s.pageSlot m r va &&& vmPageTableBaseAddressMask), true⟩ := by
  obtain ⟨n, hn⟩ := Option.isSome_iff_exists.mp h.there
  have hinitial : ∀ d ≤ pageDepth m, ∃ u, descend hwTable s.entry r (pathTo va d) = some u :=
    fun d hd => descend_initial hn hd
  have hslot : s.pageSlot m r va = s.entry n (indexAt va (pageDepth m)) := slot_of_descend hn
  have hpresent : ¬ s.pageSlot m r va &&& presentBit = 0 := by
    have := h.present
    rw [and_presentBit]
    omega
  obtain ⟨u₁, hu₁⟩ := hinitial 1 (by cases m <;> decide)
  obtain ⟨u₂, hu₂⟩ := hinitial 2 (by cases m <;> decide)
  -- the two levels that both page sizes have, then the last one for each
  obtain ⟨hp₀, ht₀⟩ := h.table (d := 0) (by cases m <;> decide) (descend_nil) hu₁
  obtain ⟨hp₁, ht₁⟩ := h.table (d := 1) (by cases m <;> decide) hu₁ hu₂
  have e₀ : indexAt va 0 = pml4Entry va := rfl
  have e₁ : indexAt va 1 = pdprEntry va := rfl
  rw [e₀] at hp₀ ht₀
  rw [e₁] at hp₁ ht₁
  unfold vmWalkTable
  simp only [load_tablePtr, ok_bind, if_neg hp₀, ht₀, if_neg hp₁, ht₁]
  cases m with
  | large =>
    obtain rfl : n = u₂ := Option.some.inj (hn.symm.trans hu₂)
    rw [hslot] at hpresent ⊢
    have e₂ : indexAt va (pageDepth .large) = pdEntry va := rfl
    rw [e₂] at hpresent ⊢
    rw [if_neg hpresent]
    rfl
  | small =>
    obtain ⟨hp₂, ht₂⟩ := h.table (d := 2) (by decide) hu₂ hn
    have e₂ : indexAt va 2 = pdEntry va := rfl
    rw [e₂] at hp₂ ht₂
    rw [hslot] at hpresent ⊢
    have e₃ : indexAt va (pageDepth .small) = ptEntry va := rfl
    rw [e₃] at hpresent ⊢
    simp only [load_tablePtr, ok_bind, if_neg hp₂, ht₂, if_neg hpresent]
    rfl

end Walk

end Dreamos64
