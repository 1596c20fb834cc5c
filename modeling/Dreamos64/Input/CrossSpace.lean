import Dreamos64.Input.SysRead

/-!
# Dreamos64 — addresses of another space

`vm_copy_from_different_space` for any address of a task, mapped or not. The processor
and `vm_walk_table` stop at the same entry; where the walk comes to a page, the processor
adds the offset of the address in the page and the function does not.

* `BuildTables.outcome`     — the address is in a page of the task, or neither the processor
  nor the walk finds one;
* `copy_from_space_iff`     — the result is the byte that the address stands for exactly
  if the address is where the entry of its page points.
-/

namespace Dreamos64

open Machine TableTree

/-- The tables on the way to an address are those of the build: they are reached through
the direct map, and what is present in them is a link or, at the end, a page of the build's
size. -/
structure BuildTables (m : PageMode) (s : Vm) (r va : Nat) : Prop where
  limit  : s.memorySizeInBytes ≤ 2 ^ 40
  tables : ∀ d ≤ pageDepth m, ∀ n, descend hwTable s.entry r (pathTo va d) = some n →
    4096 * n < s.memorySizeInBytes
  links  : ∀ d < pageDepth m, ∀ n, descend hwTable s.entry r (pathTo va d) = some n →
    s.entry n (indexAt va d) % 2 = 1 → s.entry n (indexAt va d) / 128 % 2 = 0
  huge   : m = .large → s.pageSlot m r va % 2 = 1 → s.pageSlot m r va / 128 % 2 = 1

section Outcome

variable {m : PageMode} {s : Vm} {r va d n : Nat}

/-- A present entry above the pages is a link to a table, for the processor and for the
code. -/
theorem BuildTables.next (h : BuildTables m s r va) (hd : d < pageDepth m)
    (hn : descend hwTable s.entry r (pathTo va d) = some n)
    (hpresent : s.entry n (indexAt va d) % 2 = 1) :
    ∃ u, descend hwTable s.entry r (pathTo va (d + 1)) = some u ∧
      hhdmGetVariable m s (s.entry n (indexAt va d) &&& vmPageTableBaseAddressMask) =
        tablePtr m u := by
  have hnext : descend hwTable s.entry r (pathTo va (d + 1)) =
      some (hwFrame (s.entry n (indexAt va d))) := by
    rw [descend_pathTo_succ hn, hwTable, if_pos ⟨hpresent, h.links d hd n hn hpresent⟩]
  exact ⟨_, hnext, hhdmGetVariable_hwFrame h.limit (h.tables (d + 1) hd _ hnext)⟩

/-- At an entry that is not present the processor faults, and no page is behind it. -/
theorem absent_at (hd : d ≤ pageDepth m) (hn : descend hwTable s.entry r (pathTo va d) = some n)
    (habsent : s.entry n (indexAt va d) % 2 = 0) :
    s.pageSlot m r va % 2 = 0 ∧ physicalOf s r va = none := by
  have hthree := hd.trans (pageDepth_le m)
  have hslot : s.hwSlot r (pathTo va d) (indexAt va d) = s.entry n (indexAt va d) :=
    slot_of_descend hn
  rw [← hslot] at habsent
  constructor
  · rcases Nat.lt_or_eq_of_le hd with hlt | rfl
    · -- a page that is present has present slots above it
      by_contra hpage
      have := path_present (Nat.mod_two_ne_zero.mp hpage) hlt
      omega
    · exact habsent
  · rw [physicalOf_pathTo hthree hn, walkFrom_absent hthree habsent, Option.map_none]

/-- **A walk.** It ends in a page, or where the processor faults. -/
theorem BuildTables.outcome (h : BuildTables m s r va) :
    TaskPage m s r va ∨ s.pageSlot m r va % 2 = 0 ∧ physicalOf s r va = none ∧
      ∃ level, vmWalkTable m s va (tablePtr m r) = .ok ⟨level, none, false⟩ := by
  have hdepth : 2 ≤ pageDepth m := by cases m <;> decide
  unfold vmWalkTable
  simp only [load_tablePtr, ok_bind, and_presentBit]
  have hroot : descend hwTable s.entry r (pathTo va 0) = some r := descend_nil
  -- level by level: the first entry that is not present ends both walks
  by_cases h₀ : s.entry r (pml4Entry va) % 2 = 0
  · obtain ⟨hslot, hphys⟩ := absent_at (m := m) (Nat.zero_le _) hroot h₀
    exact Or.inr ⟨hslot, hphys, 0, by rw [if_pos h₀]⟩
  obtain ⟨u₁, hu₁, ht₁⟩ := h.next (d := 0) (by omega) hroot (Nat.mod_two_ne_zero.mp h₀)
  have e₀ : indexAt va 0 = pml4Entry va := rfl
  rw [e₀] at ht₁
  simp only [if_neg h₀, ht₁, load_tablePtr, ok_bind]
  by_cases h₁ : s.entry u₁ (pdprEntry va) % 2 = 0
  · obtain ⟨hslot, hphys⟩ := absent_at (m := m) (by omega) hu₁ h₁
    exact Or.inr ⟨hslot, hphys, 1, by rw [if_pos h₁]⟩
  obtain ⟨u₂, hu₂, ht₂⟩ := h.next (d := 1) (by omega) hu₁ (Nat.mod_two_ne_zero.mp h₁)
  have e₁ : indexAt va 1 = pdprEntry va := rfl
  rw [e₁] at ht₂
  simp only [if_neg h₁, ht₂, load_tablePtr, ok_bind]
  by_cases h₂ : s.entry u₂ (pdEntry va) % 2 = 0
  · obtain ⟨hslot, hphys⟩ := absent_at (m := m) hdepth hu₂ h₂
    exact Or.inr ⟨hslot, hphys, 2, by rw [if_pos h₂]⟩
  simp only [if_neg h₂]
  cases m with
  | large =>
    have hpresent : s.pageSlot .large r va % 2 = 1 := by
      rw [show s.pageSlot .large r va = s.entry u₂ (pdEntry va) from slot_of_descend hu₂]
      exact Nat.mod_two_ne_zero.mp h₂
    exact Or.inl ⟨h.limit, Option.isSome_iff_exists.mpr ⟨u₂, hu₂⟩, h.tables, hpresent,
      fun _ => h.huge rfl hpresent⟩
  | small =>
    obtain ⟨u₃, hu₃, ht₃⟩ := h.next (d := 2) (by decide) hu₂ (Nat.mod_two_ne_zero.mp h₂)
    have e₂ : indexAt va 2 = pdEntry va := rfl
    rw [e₂] at ht₃
    simp only [ht₃, load_tablePtr, ok_bind]
    by_cases h₃ : s.entry u₃ (ptEntry va) % 2 = 0
    · obtain ⟨hslot, hphys⟩ := absent_at (m := .small) (Nat.le_refl 3) hu₃ h₃
      exact Or.inr ⟨hslot, hphys, 3, by rw [if_pos h₃]⟩
    · have hpresent : s.pageSlot .small r va % 2 = 1 := by
        rw [show s.pageSlot .small r va = s.entry u₃ (ptEntry va) from slot_of_descend hu₃]
        exact Nat.mod_two_ne_zero.mp h₃
      exact Or.inl ⟨h.limit, Option.isSome_iff_exists.mpr ⟨u₃, hu₃⟩, h.tables, hpresent,
        fun hm => nomatch hm⟩

end Outcome

/-! ## The translation -/

/-- The byte that an address of the task stands for, at its address in the direct map; 0 is
returned where there is none. -/
def spaceByte (m : PageMode) (s : Vm) (r va : Nat) : Option Nat :=
  (physicalOf s r va).map (· + higherHalfDirectMapBase m)

/-- The base of the frame that the entry of a page holds. -/
def frameBase (m : PageMode) (value : Nat) : Nat := pageByte (39 - 9 * pageDepth m) value 0

section Translation

variable {m : PageMode} {s : Vm} {r va : Nat}

/-- The frame of the page, and the offset of the address in it. -/
theorem TaskPage.spaceByte_eq (h : TaskPage m s r va) :
    spaceByte m s r va = some (higherHalfDirectMapBase m + frameBase m (s.pageSlot m r va) +
      va % pageSizeInBytes m) := by
  rw [spaceByte, h.physicalOf_eq, Option.map_some, Option.some.injEq]
  unfold frameBase pageByte
  have hsize : 2 ^ (39 - 9 * pageDepth m) = pageSizeInBytes m := by cases m <;> rfl
  rw [hsize, Nat.zero_mod]
  omega

/-- The frame is in memory, so bits 40 to 51 of the entry are clear, and what the code takes
from it differs from the base of the frame by the bits below the frame's. -/
theorem walkedFrame_eq (hlimit : s.memorySizeInBytes ≤ 2 ^ 40)
    (hframe : frameBase m (s.pageSlot m r va) < s.memorySizeInBytes) :
    walkedFrame m s r va = frameBase m (s.pageSlot m r va) +
      4096 * (s.pageSlot m r va / 4096 % (pageSizeInBytes m / 4096)) := by
  have hlt : frameBase m (s.pageSlot m r va) < 2 ^ 40 := Nat.lt_of_lt_of_le hframe hlimit
  rw [walkedFrame, and_mask]
  unfold frameBase pageByte at *
  generalize s.pageSlot m r va = value at hlt ⊢
  cases m with
  | large =>
    have hlt' : 2 ^ 21 * (value / 2 ^ 21 % 2 ^ 31) + 0 % 2 ^ 21 < 2 ^ 40 := hlt
    show _ = 2 ^ 21 * (value / 2 ^ 21 % 2 ^ 31) + 0 % 2 ^ 21 + 4096 * (value / 4096 % 512)
    omega
  | small =>
    have hlt' : 2 ^ 12 * (value / 2 ^ 12 % 2 ^ 40) + 0 % 2 ^ 12 < 2 ^ 40 := hlt
    show _ = 2 ^ 12 * (value / 2 ^ 12 % 2 ^ 40) + 0 % 2 ^ 12 + 4096 * (value / 4096 % 1)
    omega

theorem TaskPage.copy_eq (h : TaskPage m s r va) :
    vmCopyFromDifferentSpace m s va (tablePtr m r) =
      .ok (if walkedFrame m s r va < s.memorySizeInBytes then
        some (walkedFrame m s r va + higherHalfDirectMapBase m) else none) := by
  rw [vmCopyFromDifferentSpace, h.vmWalkTable_eq, ok_bind]
  rfl

/-- **Cross-space translation.** For a page in memory the result is the byte that the
address stands for exactly if the address is where the entry of its page points. In the
entries that the kernel writes these bits are clear, so it is at the start of its page. -/
theorem copy_from_space_iff (m : PageMode) (s : Vm) (r va : Nat) (h : BuildTables m s r va)
    (hframe : s.pageSlot m r va % 2 = 1 →
      frameBase m (s.pageSlot m r va) < s.memorySizeInBytes) :
    vmCopyFromDifferentSpace m s va (tablePtr m r) = .ok (spaceByte m s r va) ↔
      (s.pageSlot m r va % 2 = 1 →
        va % pageSizeInBytes m =
            4096 * (s.pageSlot m r va / 4096 % (pageSizeInBytes m / 4096)) ∧
          walkedFrame m s r va < s.memorySizeInBytes) := by
  rcases h.outcome with hpage | ⟨hslot, hphys, level, hwalk⟩
  · have hbase := hframe hpage.present
    rw [hpage.copy_eq, hpage.spaceByte_eq, walkedFrame_eq hpage.limit hbase, Except.ok.injEq]
    split_ifs with hmemory
    · rw [Option.some.injEq]
      constructor
      · intro heq _
        exact ⟨by omega, hmemory⟩
      · intro hcond
        have := (hcond hpage.present).1
        omega
    · -- the walk itself gives up on a frame outside of memory
      refine iff_of_false (by simp) fun hcond => hmemory (hcond hpage.present).2
  · refine iff_of_true ?_ fun hpresent => by omega
    rw [vmCopyFromDifferentSpace, hwalk, ok_bind, spaceByte, hphys, Option.map_none]

theorem readerSpace_tables {a : Nat} (ha : a < 32) : BuildTables .large readerSpace 1 a := by
  have hpage := readerSpace_page ha
  refine ⟨hpage.limit, hpage.tables, ?_, fun _ _ => hpage.huge rfl⟩
  intro d hd n hn hpresent
  -- on the way to the page every entry is followed, so none is a page itself
  obtain ⟨t, ht⟩ := Option.isSome_iff_exists.mp hpage.there
  obtain ⟨u, hu⟩ := descend_initial ht (Nat.succ_le_of_lt hd)
  rw [Nat.succ_eq_add_one, descend_pathTo_succ hn] at hu
  exact (hwTable_present hu).2.1

theorem copy_from_space_page_start :
    vmCopyFromDifferentSpace .large readerSpace 0 (tablePtr .large 1) =
        .ok (spaceByte .large readerSpace 1 0) ∧
      physicalOf readerSpace 1 0 = some 0x400000 := by
  refine ⟨(copy_from_space_iff .large readerSpace 1 0 (readerSpace_tables (by decide)) ?_).mpr ?_,
    by decide +kernel⟩
  · intro _
    decide +kernel
  · intro _
    exact ⟨by decide +kernel, by decide +kernel⟩

/-- The address 0x10 stands for the byte at 0x400010; what is returned is the byte at
0x400000. -/
theorem copy_from_space_drops_offset :
    vmCopyFromDifferentSpace .large readerSpace 0x10 (tablePtr .large 1) =
        .ok (some (0x400000 + higherHalfDirectMapBase .large)) ∧
      spaceByte .large readerSpace 1 0x10 =
        some (0x400010 + higherHalfDirectMapBase .large) ∧
      vmCopyFromDifferentSpace .large readerSpace 0x10 (tablePtr .large 1) ≠
        .ok (spaceByte .large readerSpace 1 0x10) := by
  decide +kernel

end Translation

end Dreamos64
