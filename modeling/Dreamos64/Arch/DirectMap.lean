import Dreamos64.Arch.PageRequests
import Dreamos64.Arch.UserSupervisor

/-!
# Dreamos64 — coverage of the direct map

`hhdm_map_physical_memory` maps page after page of the window that begins at
`higherHalfDirectMapBase`, up to the end of the last available entry of the
memory map. The window starts empty; tables for it may be there already, if they
are its own (`Owned`).

* `hhdmLoop_mapPages` — the loop is a call of the mapper for each page;
* `WindowEmpty.requests` — which finds the pages unmapped and leaves them mapped;
* `hhdm_covers`      — every physical address below the end is then translated
  from its address in the window, present and writable, and addresses outside the
  window are translated as before, except under entry 510;
* `hhdm_changes_outside` — what the exceptions are needed for.
-/

namespace Dreamos64

open Machine TableTree

/-! ## The window -/

/-- Page `k` of the direct map. -/
def windowPage (m : PageMode) (k : Nat) : Nat :=
  higherHalfDirectMapBase m + k * pageSizeInBytes m

/-- The number of pages that hold the physical addresses below `upper`. -/
def windowPages (m : PageMode) (upper : Nat) : Nat :=
  (upper + pageSizeInBytes m - 1) / pageSizeInBytes m

/-- The paths to the tables of the first `n` pages. -/
def InWindow (m : PageMode) (n : Nat) (p : List (Fin 512)) : Prop :=
  ∃ k < n, ∃ d ≤ pageDepth m, p = pathTo (windowPage m k) d

/-- The slot of page `k`. -/
def Vm.windowSlot (s : Vm) (m : PageMode) (r k : Nat) : Nat :=
  s.hwSlot r (pathTo (windowPage m k) (pageDepth m)) (indexAt (windowPage m k) (pageDepth m))

theorem windowPage_eq (m : PageMode) (k : Nat) :
    windowPage m k = 0xFFFF800280000000 + pageSizeInBytes m + k * pageSizeInBytes m := by
  unfold windowPage higherHalfDirectMapBase
  rfl

section Window

variable {m : PageMode} {n j k : Nat}

theorem windowPage_root (hk : k * pageSizeInBytes m < 2 ^ 46) :
    indexAt (windowPage m k) 0 ≠ 510 := by
  intro h
  have hval : windowPage m k >>> 39 % 512 = 510 := congrArg Fin.val h
  rw [Nat.shiftRight_eq_div_pow, windowPage_eq] at hval
  cases m <;> simp only [pageSizeInBytes] at hk hval <;> omega

theorem windowPage_inj (hj : j * pageSizeInBytes m < 2 ^ 46) (hk : k * pageSizeInBytes m < 2 ^ 46)
    (h : SamePage m (windowPage m j) (windowPage m k)) : j = k := by
  rw [samePage_iff, windowPage_eq, windowPage_eq] at h
  cases m <;> simp only [pageSizeInBytes] at hj hk h <;> omega

theorem samePage_offset (hk : k * pageSizeInBytes m < 2 ^ 46) {offset : Nat}
    (hoffset : offset < pageSizeInBytes m) :
    SamePage m (windowPage m k + offset) (windowPage m k) := by
  rw [samePage_iff, windowPage_eq]
  cases m <;> simp only [pageSizeInBytes] at hk hoffset ⊢ <;> omega

end Window

/-! ## The loop -/

/-- The calls of the mapper for `n` pages from page `k` on. -/
def windowRequests (m : PageMode) (k n : Nat) : List PageRequest :=
  (List.range' k n).map fun k => ⟨k * pageSizeInBytes m, windowPage m k⟩

section Pages

variable {m : PageMode} {r k : Nat} {s : Vm}

theorem lt_windowPages {upper : Nat} :
    k < windowPages m upper ↔ k * pageSizeInBytes m < upper := by
  unfold windowPages
  cases m <;> simp only [pageSizeInBytes] <;> omega

theorem hhdmBody_next {upper ret : Nat} {s' : Vm} (hupper : upper < 2 ^ 46)
    (hk : k * pageSizeInBytes m < upper)
    (hrun : mapPhysToVirtAddr m s r (k * pageSizeInBytes m) (windowPage m k)
      (vmmFlagsPresent ||| vmmFlagsWriteEnable) = .ok (ret, s')) :
    hhdmBody m r upper (k * pageSizeInBytes m, windowPage m k, s) =
      .ok (.next ((k + 1) * pageSizeInBytes m, windowPage m (k + 1), s')) := by
  have hcounter : (k * pageSizeInBytes m + pageSizeInBytes m) % 2 ^ 64 =
      (k + 1) * pageSizeInBytes m := by
    cases m <;> simp only [pageSizeInBytes] at hk ⊢ <;> omega
  have haddress : (windowPage m k + pageSizeInBytes m) % 2 ^ 64 = windowPage m (k + 1) := by
    rw [windowPage_eq, windowPage_eq]
    cases m <;> simp only [pageSizeInBytes] at hk ⊢ <;> omega
  simp only [hhdmBody, if_pos hk, hrun, ok_bind, hcounter, haddress]

/-- **The loop is a call for each page.** -/
theorem hhdmLoop_mapPages {upper left fuel : Nat} {s' : Vm} (hupper : upper < 2 ^ 46)
    (hleft : k + left = windowPages m upper) (hfuel : left < fuel)
    (hrun : s.mapPages m r (windowRequests m k left) = .ok s') :
    loop (hhdmBody m r upper) fuel (k * pageSizeInBytes m, windowPage m k, s) = .ok s' := by
  -- on the pages that are left; both counters of the loop follow from `k`
  induction left generalizing k s fuel with
  | zero =>
    obtain ⟨fuel, rfl⟩ : ∃ n, fuel = n + 1 := ⟨fuel - 1, by omega⟩
    have hend : ¬ k * pageSizeInBytes m < upper := fun hmore => by
      have := lt_windowPages.mpr hmore
      omega
    obtain rfl := Except.ok.inj hrun
    exact loop_done (if_neg hend)
  | succ left ih =>
    obtain ⟨fuel, rfl⟩ : ∃ n, fuel = n + 1 := ⟨fuel - 1, by omega⟩
    unfold Vm.mapPages windowRequests at hrun
    rw [List.range'_succ, List.map_cons, List.foldlM_cons] at hrun
    obtain ⟨s₁, hcall, hrest⟩ := bind_inv hrun
    obtain ⟨⟨ret, s₂⟩, hmap, hs₂⟩ := bind_inv hcall
    obtain rfl := Except.ok.inj hs₂
    rw [loop_next (hhdmBody_next hupper (lt_windowPages.mp (by omega)) hmap)]
    exact ih (by omega) (by omega) hrest

end Pages

/-! ## The test before the loop -/

section Test

variable {s : Vm} {r t₁ : Nat} {a b c d : Fin 512}

/-- A recursive address is resolved when the entries on the way are present; one
with bit 7 ends the walk early. -/
theorem resolve_returns (h₁ : hwTable (s.entry r a) = some t₁) (h₂ : s.entry t₁ b % 2 = 1)
    (h₃ : ∀ t₂, hwTable (s.entry t₁ b) = some t₂ → s.entry t₂ c % 2 = 1)
    (h₄ : ∀ t₂ t₃, hwTable (s.entry t₁ b) = some t₂ → hwTable (s.entry t₂ c) = some t₃ →
      s.entry t₃ d % 2 = 1) (j : Fin 512) :
    ∃ x, resolve s r (recursiveAddress a b c d + 8 * j) = .ok x := by
  obtain ⟨v, hv⟩ : ∃ v, v = recursiveAddress a b c d + 8 * j := ⟨_, rfl⟩
  obtain ⟨hia, hib, hic, hid, -⟩ := recursiveAddress_indices hv
  rw [← hv]
  -- one level at a time: the entry is a large page, and the walk ends, or a table
  have hwalk : ∃ x, walk s v 2 t₁ = some x := by
    by_cases hpage₂ : s.entry t₁ b / 128 % 2 = 1
    · exact ⟨_, by simp only [walk, hib, h₂, hpage₂]; rfl⟩
    · have ht₂ : hwTable (s.entry t₁ b) = some (hwFrame (s.entry t₁ b)) :=
        if_pos ⟨h₂, by omega⟩
      have hc' := h₃ _ ht₂
      rw [walk_table hib ht₂]
      by_cases hpage₃ : s.entry (hwFrame (s.entry t₁ b)) c / 128 % 2 = 1
      · exact ⟨_, by simp only [walk, hic, hc', hpage₃]; rfl⟩
      · have ht₃ : hwTable (s.entry (hwFrame (s.entry t₁ b)) c) =
            some (hwFrame (s.entry (hwFrame (s.entry t₁ b)) c)) := if_pos ⟨hc', by omega⟩
        have hd' := h₄ _ _ ht₂ ht₃
        rw [walk_table hic ht₃]
        exact ⟨_, by simp only [walk, hid, hd']; rfl⟩
  obtain ⟨x, hx⟩ := hwalk
  refine ⟨x.physical, ?_⟩
  unfold resolve translate
  rw [walk_table hia h₁, hx]
  rfl

/-- `is_phyisical_address_mapped` returns: it only follows entries that it has
found present. -/
theorem isPhyisicalAddressMapped_returns (m : PageMode) (physicalAddress virtualAddress : Nat)
    (hself : hwTable (s.entry r 510) = some r) :
    ∃ status, isPhyisicalAddressMapped m s r physicalAddress virtualAddress = .ok status := by
  obtain ⟨va, rfl⟩ : ∃ va, va = virtualAddress := ⟨_, rfl⟩
  have hpresent := (hwTable_present hself).1
  have hroot : loadVirtual s r (recursiveAddress 510 510 510 510) (pml4Entry va) =
      .ok (s.entry r (pml4Entry va)) :=
    loadVirtual_table (p := []) hself (by simp) (Or.inl ⟨rfl, rfl⟩)
  unfold isPhyisicalAddressMapped
  dsimp only
  rw [hroot, ok_bind, and_presentBit]
  by_cases hpml4 : s.entry r (pml4Entry va) % 2 = 0
  · exact ⟨_, if_pos hpml4⟩
  rw [if_neg hpml4]
  have hpdpr : loadVirtual s r (recursiveAddress 510 510 510 (pml4Entry va)) (pdprEntry va) =
      .ok (s.entry (hwFrame (s.entry r (pml4Entry va))) (pdprEntry va)) :=
    loadVirtual_table (p := [pml4Entry va]) hself (by simp)
      (Or.inr ⟨[], _, r, rfl, rfl, by omega, rfl⟩)
  rw [hpdpr, ok_bind, and_presentBit]
  by_cases hpdprE : s.entry (hwFrame (s.entry r (pml4Entry va))) (pdprEntry va) % 2 = 0
  · exact ⟨_, if_pos hpdprE⟩
  rw [if_neg hpdprE]
  -- from here on an entry further up may have bit 7
  have hsecond : ∀ t₂, hwTable (s.entry r (pml4Entry va)) = some t₂ →
      s.entry t₂ (pdprEntry va) % 2 = 1 := by
    intro t₂ ht₂
    rw [← (hwTable_present ht₂).2.2]
    omega
  obtain ⟨x, hx⟩ := resolve_returns (c := pml4Entry va) (d := pdprEntry va) hself hpresent
    (fun t₂ ht₂ => by rw [hself] at ht₂; cases ht₂; omega)
    (fun t₂ t₃ ht₂ ht₃ => by rw [hself] at ht₂; cases ht₂; exact hsecond t₃ ht₃) (pdEntry va)
  rw [loadVirtual, hx, ok_bind, ok_bind, and_presentBit]
  by_cases hpdE : s.memory x % 2 = 0
  · exact ⟨_, if_pos hpdE⟩
  rw [if_neg hpdE]
  cases m with
  | large =>
    dsimp only
    split_ifs <;> exact ⟨_, rfl⟩
  | small =>
    have hthird : ∀ t₂ t₃, hwTable (s.entry r (pml4Entry va)) = some t₂ →
        hwTable (s.entry t₂ (pdprEntry va)) = some t₃ → s.entry t₃ (pdEntry va) % 2 = 1 := by
      intro t₂ t₃ ht₂ ht₃
      unfold resolve at hx
      rw [translate_recursive hself hself ht₂ (hsecond t₂ ht₂) (pdEntry va)] at hx
      cases hx
      rw [← (hwTable_present ht₃).2.2]
      have hne : ¬ s.entry (hwFrame (s.entry t₂ (pdprEntry va))) (pdEntry va) % 2 = 0 := hpdE
      omega
    obtain ⟨y, hy⟩ := resolve_returns hself (by omega) hsecond hthird (ptEntry va)
    dsimp only
    rw [loadVirtual, hy, ok_bind, ok_bind]
    split_ifs <;> exact ⟨_, rfl⟩

end Test

/-! ## Coverage -/

/-- Tables in which the first `n` pages of the window are not mapped: entry 510 is
in place and writable, there are fresh frames for all tables that may be needed, and
tables on the window's paths that exist already are its own. -/
structure WindowEmpty (m : PageMode) (s : Vm) (r n : Nat) : Prop where
  tables : HwTables s r
  owned  : Owned (InWindow m n) s r
  supply : pageDepth m * n ≤ s.freeTables.length
  vacant : ∀ k < n, s.windowSlot m r k % 2 = 0

/-- **The calls for an empty window** map its pages. -/
theorem WindowEmpty.requests {m : PageMode} {s : Vm} {r n : Nat} (h : WindowEmpty m s r n)
    (hn : ∀ k < n, k * pageSizeInBytes m < 2 ^ 46) :
    ∃ s', s.mapPages m r (windowRequests m 0 n) = .ok s' ∧
      (∀ k < n, ∀ offset < pageSizeInBytes m, translate s' r (windowPage m k + offset) =
        some ⟨k * pageSizeInBytes m + offset, true⟩) ∧
      ∀ a, indexAt a 0 ≠ 510 → (∀ k < n, ¬ SamePage m a (windowPage m k)) →
        translate s' r a = translate s r a := by
  have hmem : ∀ q ∈ windowRequests m 0 n,
      ∃ k < n, q = ⟨k * pageSizeInBytes m, windowPage m k⟩ := by
    intro q hq
    obtain ⟨k, hk, rfl⟩ := List.mem_map.mp hq
    rw [List.mem_range'_1] at hk
    exact ⟨k, by omega, rfl⟩
  have hroot : ∀ q ∈ windowRequests m 0 n, indexAt q.address 0 ≠ 510 := by
    intro q hq
    obtain ⟨k, hk, rfl⟩ := hmem q hq
    exact windowPage_root (hn k hk)
  have hvacant : PagesVacant m s r (windowRequests m 0 n) := by
    refine ⟨h.tables, h.owned.mono fun p hp => ?_, hroot, ?_, fun q hq => ?_⟩
    · obtain ⟨q, hq, d, hd, rfl⟩ := hp
      obtain ⟨k, hk, rfl⟩ := hmem q hq
      exact ⟨k, hk, d, hd, rfl⟩
    · rw [windowRequests, List.length_map, List.length_range']
      exact h.supply
    · obtain ⟨k, hk, rfl⟩ := hmem q hq
      exact h.vacant k hk
  have hready := hvacant.ready (fun q hq => by
      obtain ⟨k, hk, rfl⟩ := hmem q hq
      exact Nat.lt_trans (hn k hk) (by decide)) (by
      rw [windowRequests, List.pairwise_map]
      refine List.Pairwise.imp_of_mem (fun {j k} hj hk hlt hsame => ?_) List.pairwise_lt_range'
      rw [List.mem_range'_1] at hj hk
      have := windowPage_inj (hn k (by omega)) (hn j (by omega)) hsame
      omega)
  obtain ⟨s', hrun, hmapped, hother⟩ := mapPages_spec (region_onWay hroot) hready
  refine ⟨s', hrun, fun k hk offset hoffset => ?_, fun a ha hout => hother a ha fun q hq => ?_⟩
  · have hq : (⟨k * pageSizeInBytes m, windowPage m k⟩ : PageRequest) ∈ windowRequests m 0 n :=
      List.mem_map.mpr ⟨k, List.mem_range'_1.mpr (by omega), rfl⟩
    rw [hmapped _ hq _ (samePage_offset (hn k hk) hoffset), windowPage_eq]
    congr 2
    cases m <;> simp only [pageSizeInBytes] at hoffset ⊢ <;> omega
  · obtain ⟨k, hk, rfl⟩ := hmem q hq
    exact hout k hk

/-- An address outside the window is in none of its pages. -/
theorem not_samePage_window {m : PageMode} {upper a k : Nat} (hupper : upper < 2 ^ 46)
    (ha : Canonical a) (hk : k * pageSizeInBytes m < upper)
    (hout : ¬ (higherHalfDirectMapBase m ≤ a ∧
      a < higherHalfDirectMapBase m + wholePages m upper)) :
    ¬ SamePage m a (windowPage m k) := by
  intro hsame
  have hbase := windowPage_eq m 0
  rw [windowPage, Nat.zero_mul, Nat.add_zero, Nat.add_zero] at hbase
  rw [samePage_iff, windowPage_eq] at hsame
  rw [hbase] at hout
  unfold Canonical at ha
  unfold wholePages at hout
  cases m <;> simp only [pageSizeInBytes] at hk hsame hout <;> omega

/-- **Coverage of the direct map.** From tables in which the window is empty, for
either page size and any memory map whose last available entry ends below
`2 ^ 46`. -/
theorem hhdm_covers (m : PageMode) (entries : List MmapEntry) (s : Vm)
    (r endOfMappedMemory fuel : Nat) (hupper : (mmapParse entries).upperAddressToMap < 2 ^ 46)
    (hempty : WindowEmpty m s r (windowPages m (mmapParse entries).upperAddressToMap))
    (hfuel : windowPages m (mmapParse entries).upperAddressToMap < fuel) :
    ∃ e s', s.hhdmMapPhysicalMemory m fuel r (mmapParse entries) endOfMappedMemory = .ok (e, s') ∧
      (∀ pa < (mmapParse entries).upperAddressToMap,
        translate s' r (higherHalfDirectMapBase m + pa) = some ⟨pa, true⟩) ∧
      ∀ a, Canonical a → pml4Entry a ≠ 510 →
        ¬ (higherHalfDirectMapBase m ≤ a ∧ a < higherHalfDirectMapBase m +
          wholePages m (mmapParse entries).upperAddressToMap) →
        translate s' r a = translate s r a := by
  obtain ⟨upper, hU⟩ : ∃ upper, upper = (mmapParse entries).upperAddressToMap := ⟨_, rfl⟩
  unfold Vm.hhdmMapPhysicalMemory
  rw [← hU] at hupper hempty hfuel ⊢
  obtain ⟨status, hstatus⟩ := isPhyisicalAddressMapped_returns m
    ((endOfMappedMemory + 2 ^ 64 - higherHalfKernelMemStart) % 2 ^ 64)
    ((endOfMappedMemory + 2 ^ 64 - higherHalfKernelMemStart) % 2 ^ 64) hempty.tables.self.link
  obtain ⟨s', hcalls, hmapped, hother⟩ := hempty.requests fun k hk =>
    (lt_windowPages.mp hk).trans hupper
  have hloop := hhdmLoop_mapPages hupper (Nat.zero_add _) hfuel hcalls
  rw [windowPage, Nat.zero_mul, Nat.add_zero] at hloop
  dsimp only
  rw [hstatus, ok_bind, hloop, ok_bind]
  refine ⟨_, s', rfl, fun pa hpa => ?_, fun a ha hroot hout => ?_⟩
  · -- `pa` is a byte of page `pa / PAGE_SIZE_IN_BYTES`
    have hP := pageSizeInBytes_pos m
    have hsplit : pa / pageSizeInBytes m * pageSizeInBytes m + pa % pageSizeInBytes m = pa := by
      rw [Nat.mul_comm]
      exact Nat.div_add_mod pa _
    have hpage : pa / pageSizeInBytes m < windowPages m upper :=
      lt_windowPages.mpr (by omega)
    have hbyte := hmapped _ hpage _ (Nat.mod_lt pa hP)
    rwa [windowPage, Nat.add_assoc, hsplit] at hbyte
  · refine hother a hroot fun k hk => ?_
    exact not_samePage_window hupper ha (lt_windowPages.mp hk) hout

/-! ## A memory of one frame -/

/-- A memory map with a single available frame. -/
def oneFrame : List MmapEntry := [⟨0, 0x1000, 1⟩]

theorem upperAddressToMap_oneFrame : (mmapParse oneFrame).upperAddressToMap = 0x1000 := by decide

theorem recursiveSpace_windowEmpty : WindowEmpty .large recursiveSpace 1 1 := by
  have hok := recursiveSpace_rootOk .large
  have hn : ∀ k < 1, k * pageSizeInBytes .large < 2 ^ 46 := fun k hk => by
    obtain rfl : k = 0 := by omega
    decide
  refine ⟨hok.tables, hok.owned.mono fun p hp => ?_, by decide, fun k hk => ?_⟩
  · obtain ⟨k, hk, d, hd, rfl⟩ := hp
    exact tablePath_pathTo hd (windowPage_root (hn k hk))
  · obtain rfl : k = 0 := by omega
    decide +kernel

theorem hhdm_covers_recursiveSpace :
    windowPages .large (mmapParse oneFrame).upperAddressToMap = 1 ∧
    ∃ e s', recursiveSpace.hhdmMapPhysicalMemory .large 2 1 (mmapParse oneFrame)
        0xFFFFFFFF80400000 = .ok (e, s') ∧
      (∀ pa < (mmapParse oneFrame).upperAddressToMap,
        translate s' 1 (higherHalfDirectMapBase .large + pa) = some ⟨pa, true⟩) ∧
      ∀ a, Canonical a → pml4Entry a ≠ 510 →
        ¬ (higherHalfDirectMapBase .large ≤ a ∧ a < higherHalfDirectMapBase .large +
          wholePages .large (mmapParse oneFrame).upperAddressToMap) →
        translate s' 1 a = translate recursiveSpace 1 a := by
  have hpages : windowPages .large (mmapParse oneFrame).upperAddressToMap = 1 := by decide
  refine ⟨hpages, hhdm_covers .large oneFrame recursiveSpace 1 _ 2 (by decide) ?_ ?_⟩
  · rw [hpages]
    exact recursiveSpace_windowEmpty
  · rw [hpages]
    decide

/-- On this map the loop maps one page. -/
theorem hhdm_oneFrame {s : Vm} (endOfMappedMemory : Nat) (h : RecursiveTables s 1)
    (hway : WritableWay s 1 (windowPage .large 0)) (hsupply : 2 ≤ s.freeTables.length) :
    ∃ e, s.hhdmMapPhysicalMemory .large 2 1 (mmapParse oneFrame) endOfMappedMemory =
      .ok (e, s.mapPage 1 0 (higherHalfDirectMapBase .large) 3) := by
  obtain ⟨status, hstatus⟩ := isPhyisicalAddressMapped_returns .large
    ((endOfMappedMemory + 2 ^ 64 - higherHalfKernelMemStart) % 2 ^ 64)
    ((endOfMappedMemory + 2 ^ 64 - higherHalfKernelMemStart) % 2 ^ 64) h.self.link
  have hmissing : tablesMissing s 1 (windowPage .large 0) ≤ s.freeTables.length := by
    unfold tablesMissing
    split_ifs <;> omega
  have hrun := mapPhysToVirtAddr_mapPage h hmissing hway (0 * pageSizeInBytes .large)
    (vmmFlagsPresent ||| vmmFlagsWriteEnable)
  have hpage : windowPage .large 0 = higherHalfDirectMapBase .large := by
    rw [windowPage, Nat.zero_mul, Nat.add_zero]
  have hfirst := hhdmBody_next (by decide : 0x1000 < 2 ^ 46)
    (by decide : 0 * pageSizeInBytes .large < 0x1000) hrun
  have hlast : ∀ va s', hhdmBody .large 1 0x1000 ((0 + 1) * pageSizeInBytes .large, va, s') =
      .ok (.done s') := fun va s' => by
    rw [hhdmBody, if_neg (by decide)]
  rw [hpage, Nat.zero_mul] at hfirst
  unfold Vm.hhdmMapPhysicalMemory
  dsimp only
  rw [upperAddressToMap_oneFrame, hstatus, ok_bind, loop_next hfirst, loop_done (hlast _ _),
    ok_bind]
  exact ⟨_, rfl⟩

/-- **What the exceptions are needed for.** One frame of memory, and a window that
is empty:
* a page maps `PAGE_SIZE_IN_BYTES` bytes, so addresses after the end are mapped;
* the new tables appear under entry 510;
* where entry 0 links the same table as the window's entry, the page appears in
  the lower half;
* behind a link without `WRITE_BIT` the mapper cannot store the entry that is missing. -/
theorem hhdm_changes_outside :
    (mmapParse oneFrame).upperAddressToMap = 0x1000 ∧
    (∃ e s', recursiveSpace.hhdmMapPhysicalMemory .large 2 1 (mmapParse oneFrame)
        0xFFFFFFFF80400000 = .ok (e, s') ∧ recursiveSpace.windowSlot .large 1 0 = 0 ∧
      translate recursiveSpace 1 0xFFFF800280201000 = none ∧
      translate s' 1 0xFFFF800280201000 = some ⟨0x1000, true⟩ ∧
      translate recursiveSpace 1 (recursiveAddress 510 510 510 256) = none ∧
      translate s' 1 (recursiveAddress 510 510 510 256) = some ⟨0x2000, true⟩) ∧
    (∃ e s', (linkedSpace 0x4003 0x4003).hhdmMapPhysicalMemory .large 2 1 (mmapParse oneFrame)
        0xFFFFFFFF80400000 = .ok (e, s') ∧
      (linkedSpace 0x4003 0x4003).windowSlot .large 1 0 = 0 ∧
      translate (linkedSpace 0x4003 0x4003) 1 0x280200000 = none ∧
      translate s' 1 0x280200000 = some ⟨0, true⟩) ∧
    (linkedSpace 0x4003 0x4001).windowSlot .large 1 0 = 0 ∧
    (linkedSpace 0x4003 0x4001).hhdmMapPhysicalMemory .large 2 1 (mmapParse oneFrame)
      0xFFFFFFFF80400000 = .error .readOnly := by
  have hwrite : LinksLow 0x4003 := fun _ => by decide
  obtain ⟨e₁, h₁⟩ := hhdm_oneFrame 0xFFFFFFFF80400000 recursiveSpace_tables
    ⟨by decide +kernel, by decide +kernel⟩ (by decide)
  obtain ⟨e₂, h₂⟩ := hhdm_oneFrame 0xFFFFFFFF80400000 (linkedSpace_tables hwrite hwrite)
    ⟨by decide +kernel, by decide +kernel⟩ (by decide)
  exact ⟨by decide, ⟨e₁, _, h₁, by decide +kernel⟩, ⟨e₂, _, h₂, by decide +kernel⟩,
    by decide +kernel, by decide +kernel⟩

end Dreamos64
