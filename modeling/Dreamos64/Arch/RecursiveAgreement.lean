import Dreamos64.Arch.MapperAgreement

/-!
# Dreamos64 — unmapping and looking up through the two views of the tables

`unmap_vaddress` and `is_phyisical_address_mapped` go through recursive addresses,
`unmap_vaddress_hh` and `vm_walk_table` through the direct map. On a root that maps
itself the four read the same three slots of a page.

* `SelfMapped.follow`     — either way to a table leads to the same frame;
* `unmappers_agree_iff`   — the two unmappers give the same code and leave the same
  memory, but only the one of the direct map invalidates the page it removed;
* `lookups_agree_iff`     — the two lookups give the same verdict, except for a page
  of the asked frame whose entry has one of the bits 52 to 63 set.
-/

namespace Dreamos64

open Machine TableTree

/-! ## Reaching a table both ways -/

/-- A root with its entry 510 in place and all tables below `memory_size_in_bytes`.
Bit 7 of a root entry is reserved. Whether the entries are writable is left open: a store
through one that is not is a fault. -/
structure SelfMapped (s : Vm) (r : Nat) : Prop where
  self     : hwTable (s.entry r 510) = some r
  reserved : ∀ i, s.entry r i % 2 = 1 → s.entry r i / 128 % 2 = 0
  limit    : s.memorySizeInBytes ≤ 2 ^ 40
  below    : ∀ n, IsPageTable s r n → 4096 * n < s.memorySizeInBytes

/-- The frame `t` is what the entry `value` refers to, through the direct map and at
the recursive address of the path `p`. -/
structure BothReach (s : Vm) (r value : Nat) (p : List (Fin 512)) (t : Nat) : Prop where
  direct : hhdmGetVariable .large s (value &&& vmPageTableBaseAddressMask) = tablePtr .large t
  load   : ∀ i, loadVirtual s r (tableAddress p) i = .ok (s.entry t i)
  store  : ∀ i v, storeVirtual s r (tableAddress p) i v = .ok (s.setEntry t i v) ∨
    storeVirtual s r (tableAddress p) i v = .error .readOnly

section Lookup

variable {s : Vm} {r va t : Nat} {q : List (Fin 512)} {i : Fin 512}

theorem SelfMapped.bothReach (h : SelfMapped s r) (hq : q.length ≤ 1)
    (ht : descend hwTable s.entry r q = some t) (hpresent : s.entry t i % 2 = 1) :
    tableOf (s.entry t i) = some (hwFrame (s.entry t i)) ∧
      BothReach s r (s.entry t i) (q ++ [i]) (hwFrame (s.entry t i)) := by
  have hreach : Reached s r (q ++ [i]) (hwFrame (s.entry t i)) :=
    Or.inr ⟨q, i, t, rfl, ht, hpresent, rfl⟩
  have hlen : (q ++ [i]).length ≤ 2 := by
    rw [List.length_append, List.length_singleton]
    omega
  have hlt := h.below _ ⟨q ++ [i], hlen, hreach⟩
  refine ⟨by rw [tableOf, if_pos hpresent, hwFrame_below h.limit hlt],
    ⟨hhdmGetVariable_hwFrame h.limit hlt, ?_, ?_⟩⟩
  · intro j
    exact loadVirtual_table h.self (by omega) hreach
  · intro j v
    exact storeVirtual_cases h.self (by omega) hreach v

/-- **The two ways to the tables of a page.** Wherever a slot is present, the recursive
address and the direct map lead to the same next table. -/
theorem SelfMapped.follow (h : SelfMapped s r) (va : Nat) (hpml4 : s.pml4Slot r va % 2 = 1) :
    ∃ pdpr, BothReach s r (s.pml4Slot r va) [pml4Entry va] pdpr ∧
      s.entry pdpr (pdprEntry va) = s.pdprSlot r va ∧
      (s.pdprSlot r va % 2 = 1 →
        ∃ pd, BothReach s r (s.pdprSlot r va) [pml4Entry va, pdprEntry va] pd ∧
          s.entry pd (pdEntry va) = s.pdSlot r va) := by
  obtain ⟨htable, hboth⟩ := h.bothReach (q := []) (Nat.zero_le 1) rfl hpml4
  have hdescend : descend tableOf s.entry r [pml4Entry va] =
      some (hwFrame (s.pml4Slot r va)) := by
    rw [descend, show s.entry r (pml4Entry va) = s.pml4Slot r va from rfl] at *
    rw [htable]
    rfl
  have hentry : s.entry (hwFrame (s.pml4Slot r va)) (pdprEntry va) = s.pdprSlot r va :=
    (slot_of_descend hdescend).symm
  refine ⟨_, hboth, hentry, fun hpdpr => ?_⟩
  -- the root's entry is a link for the processor too, because its bit 7 is reserved
  have hlink : descend hwTable s.entry r [pml4Entry va] = some (hwFrame (s.pml4Slot r va)) := by
    rw [descend, hwTable, if_pos ⟨hpml4, h.reserved _ hpml4⟩]
    rfl
  obtain ⟨htable', hboth'⟩ := h.bothReach (q := [pml4Entry va]) (i := pdprEntry va) le_rfl hlink
    (by rw [hentry]; exact hpdpr)
  rw [hentry] at htable' hboth'
  refine ⟨_, hboth', (slot_of_descend ?_).symm⟩
  rw [show [pml4Entry va, pdprEntry va] = [pml4Entry va] ++ [pdprEntry va] from rfl,
    descend_concat, hdescend, Option.bind_some, hentry, htable']

theorem SelfMapped.load_root (h : SelfMapped s r) :
    loadVirtual s r (recursiveAddress 510 510 510 510) i = .ok (s.entry r i) :=
  loadVirtual_table (p := []) h.self (Nat.zero_le 3) (Or.inl ⟨rfl, rfl⟩)

/-! ## Unmapping -/

/-- `unmap_vaddress_hh` with the address that it gives `invalidate_page_table`. -/
def unmapVaddressHhTlb (m : PageMode) (s : Vm) (address : Nat) (pml4Root : Option Nat) :
    Exec (Int × Option Nat × Vm) := do
  let (code, s) ← unmapVaddressHh m s address pml4Root
  -- both builds invalidate the page on the two ways out that return 0, and only there
  .ok (code, if code = 0 then some address else none, s)

/-- The two unmappers on one address: the same slots decide, and the same entry is
cleared, unless it is behind a read-only one. -/
theorem SelfMapped.unmappers (h : SelfMapped s r) (hnull : va ≠ 0) :
    (s.pdSlot r va % 2 = 0 ∧ unmapVaddress .large s r va = .ok (-1, none, s) ∧
      unmapVaddressHhTlb .large s va (tablePtr .large r) = .ok (-1, none, s)) ∨
    (s.pdSlot r va % 2 = 1 ∧ ∃ s',
      (unmapVaddress .large s r va =
          .ok (0, some (tableAddress [pml4Entry va, pdprEntry va]), s') ∨
        unmapVaddress .large s r va = .error .readOnly) ∧
      unmapVaddressHhTlb .large s va (tablePtr .large r) = .ok (0, some va, s')) := by
  have hargs : ¬ ((tablePtr .large r).isNone = true ∨ va = 0) := by simp [hnull]
  simp only [unmapVaddress, unmapVaddressHhTlb, unmapVaddressHh, h.load_root, load_tablePtr,
    ok_bind, and_presentBit, entry_root]
  rw [if_neg hargs]
  by_cases hpml4 : s.pml4Slot r va % 2 = 0
  · refine Or.inl ⟨pdSlot_absent (Or.inl hpml4), by rw [if_pos hpml4], by rw [if_pos hpml4]; rfl⟩
  · rw [if_neg hpml4, if_neg hpml4]
    obtain ⟨pdpr, hboth, hentry, hnext⟩ := h.follow va (by omega)
    have hload := hboth.load (pdprEntry va)
    rw [tableAddress] at hload
    simp only [hboth.direct, hload, load_tablePtr, ok_bind, hentry]
    by_cases hpdpr : s.pdprSlot r va % 2 = 0
    · refine Or.inl ⟨pdSlot_absent (Or.inr hpdpr), by rw [if_pos hpdpr], by rw [if_pos hpdpr]; rfl⟩
    · rw [if_neg hpdpr, if_neg hpdpr]
      obtain ⟨pd, hboth, hentry⟩ := hnext (by omega)
      have hload := hboth.load (pdEntry va)
      have hstore := hboth.store (pdEntry va) 0
      rw [tableAddress] at hload hstore
      simp only [hboth.direct, hload, load_tablePtr, store_tablePtr, ok_bind, hentry]
      by_cases hleaf : s.pdSlot r va % 2 = 0
      · exact Or.inl ⟨hleaf, by rw [if_pos hleaf], by rw [if_pos hleaf]; rfl⟩
      · refine Or.inr ⟨by omega, s.setEntry pd (pdEntry va) 0, ?_, ?_⟩
        · rw [if_neg hleaf]
          refine hstore.imp (fun hstore => ?_) fun hstore => ?_
          · rw [hstore]
            rfl
          · rw [hstore]
            rfl
        · rw [if_neg hleaf]
          rfl

/-- `invalidate_page_table` drops the entry of the page that its argument is in. -/
def Invalidates (tlb : Option Nat) (va : Nat) : Prop :=
  ∃ a, tlb = some a ∧ a / pageSizeInBytes .large = va / pageSizeInBytes .large

/-- The recursive addresses of the tables of `va` lie in the pages of root entry 510. -/
theorem not_invalidates_table (hva : pml4Entry va ≠ 510) (a b : Fin 512) :
    ¬ Invalidates (some (tableAddress [a, b])) va := by
  rintro ⟨c, hc, hpage⟩
  cases hc
  have ha := a.isLt
  have hb := b.isLt
  have hpage' : tableAddress [a, b] / 2 ^ 21 = va / 2 ^ 21 := hpage
  rw [tableAddress, recursiveAddress_eq] at hpage'
  have h510 : ((510 : Fin 512) : Nat) = 510 := rfl
  rw [h510] at hpage'
  exact hva (entryIndex_eq (by rw [h510]; omega))

/-- Both unmappers return the same code and leave the same memory, and when they
succeed both have invalidated the page of `va`. -/
def UnmappersAgree (s : Vm) (r va : Nat) : Prop :=
  ∃ code tlb tlbHh s', unmapVaddress .large s r va = .ok (code, tlb, s') ∧
    unmapVaddressHhTlb .large s va (tablePtr .large r) = .ok (code, tlbHh, s') ∧
    (code = 0 → Invalidates tlb va ∧ Invalidates tlbHh va)

theorem not_unmappersAgree (hva : pml4Entry va ≠ 510) {a b : Fin 512} {s' : Vm}
    (hrun : unmapVaddress .large s r va = .ok (0, some (tableAddress [a, b]), s') ∨
      unmapVaddress .large s r va = .error .readOnly) :
    ¬ UnmappersAgree s r va := by
  rintro ⟨code, tlb, tlbHh, s'', hrun', -, hok⟩
  rcases hrun with hrun | hrun
  · rw [hrun] at hrun'
    cases hrun'
    exact not_invalidates_table hva a b (hok rfl).1
  · rw [hrun] at hrun'
    cases hrun'

/-- **Unmapping.** The unmappers agree exactly on the addresses that are not mapped:
`unmap_vaddress` clears the same entry as `unmap_vaddress_hh`, but invalidates the page
through which it reached the table, so that the translation of `va` may stay cached. -/
theorem unmappers_agree_iff (s : Vm) (r va : Nat) (h : SelfMapped s r)
    (hva : pml4Entry va ≠ 510) (hnull : va ≠ 0) :
    UnmappersAgree s r va ↔ s.pdSlot r va % 2 = 0 := by
  rcases h.unmappers hnull with ⟨habsent, hrun, hrunHh⟩ | ⟨hpresent, s', hrun, hrunHh⟩
  · refine iff_of_true ⟨-1, none, none, s, hrun, hrunHh, fun hcode => ?_⟩ habsent
    exact absurd hcode (by decide)
  · exact iff_of_false (not_unmappersAgree hva hrun) (by omega)

/-- Page tables with one page, at 0x200000, and the entry `leaf` for it. -/
def pageSpace (leaf : Nat) : Vm where
  memory              := fun a =>
    if a = 4096 + 8 * 510 then 0x1003
    else if a = 4096 then 0x2003
    else if a = 4096 * 2 then 0x3003
    else if a = 4096 * 3 + 8 then leaf
    else 0
  memorySizeInBytes   := 2 ^ 30
  freeTables          := []
  hhdmPageRootAddress := none

theorem pageSpace_frame {leaf : Nat} (hleaf : 4096 * hwFrame leaf < 2 ^ 30) (n : Nat)
    (i : Fin 512) : 4096 * hwFrame ((pageSpace leaf).entry n i) < 2 ^ 30 := by
  simp only [Vm.entry, pageSpace]
  split_ifs
  · decide
  · decide
  · decide
  · exact hleaf
  · decide

theorem pageSpace_selfMapped {leaf : Nat} (hleaf : 4096 * hwFrame leaf < 2 ^ 30) :
    SelfMapped (pageSpace leaf) 1 where
  self := by
    show hwTable 0x1003 = some 1
    decide
  reserved := fun i _ => by
    have hi := i.isLt
    simp only [Vm.entry, pageSpace]
    split_ifs with _ _ _ h
    · rfl
    · rfl
    · rfl
    -- the page's entry is not in the root
    · omega
    · rfl
  limit := Nat.pow_le_pow_right (by decide) (by decide)
  below := fun n hn => by
    obtain ⟨p, -, ⟨-, rfl⟩ | ⟨q, i, u, -, -, -, rfl⟩⟩ := hn
    · show 4096 * 1 < 2 ^ 30
      decide
    · exact pageSpace_frame hleaf u i

theorem unmappers_agree_next_page :
    (pageSpace 0x200083).pdSlot 1 0x400000 % 2 = 0 ∧
      UnmappersAgree (pageSpace 0x200083) 1 0x400000 :=
  ⟨rfl, (unmappers_agree_iff _ 1 0x400000 (pageSpace_selfMapped (by decide)) (by decide)
    (by decide)).mpr rfl⟩

/-- The page at 0x200000 is removed by both, but what `unmap_vaddress` invalidates is the
page of its page directory. -/
theorem unmap_keeps_cached_page :
    (∃ s', unmapVaddress .large (pageSpace 0x200083) 1 0x200000 =
        .ok (0, some 0xFFFFFF7F80000000, s') ∧
      unmapVaddressHhTlb .large (pageSpace 0x200083) 0x200000 (tablePtr .large 1) =
        .ok (0, some 0x200000, s')) ∧
    ¬ UnmappersAgree (pageSpace 0x200083) 1 0x200000 := by
  have hself : SelfMapped (pageSpace 0x200083) 1 := pageSpace_selfMapped (by decide)
  -- its entries are writable, so the call returns
  obtain ⟨result, hreturns, -⟩ : ∃ result, unmapVaddress .large (pageSpace 0x200083) 1 0x200000 =
    .ok result ∧ True := by decide +kernel
  rcases hself.unmappers (by decide : 0x200000 ≠ 0) with
    ⟨habsent, -⟩ | ⟨-, s', hrun, hrunHh⟩
  · exact absurd habsent (by decide)
  · refine ⟨⟨s', hrun.resolve_right fun hfault => ?_, hrunHh⟩, not_unmappersAgree (by decide) hrun⟩
    rw [hreturns] at hfault
    cases hfault

/-! ## Looking up -/

/-- What the end of a walk says about a frame: nothing is mapped, or the page is at the
direct map's address of the 2 MiB frame with `physicalAddress`, or elsewhere. -/
def walkVerdict (w : VmWalkResults) (physicalAddress : Nat) : PhysAddressStatus :=
  if w.completed = false then .notMapped
  else if w.pte = some (alignPhysaddress .large physicalAddress + higherHalfDirectMapBase .large)
  then .mapped
  else .mismatch

theorem SelfMapped.lookups (h : SelfMapped s r) (pa va : Nat) :
    (s.pdSlot r va % 2 = 0 ∧ isPhyisicalAddressMapped .large s r pa va = .ok .notMapped ∧
      ∃ level, vmWalkTable .large s va (tablePtr .large r) = .ok ⟨level, none, false⟩) ∨
    (s.pdSlot r va % 2 = 1 ∧
      isPhyisicalAddressMapped .large s r pa va =
        (if alignPhysaddress .large (s.pdSlot r va) = alignPhysaddress .large pa
          then .ok .mapped else .ok .mismatch) ∧
      vmWalkTable .large s va (tablePtr .large r) =
        .ok ⟨2, hhdmGetVariable .large s
          (s.pdSlot r va &&& vmPageTableBaseAddressMask), true⟩) := by
  simp only [isPhyisicalAddressMapped, vmWalkTable, h.load_root, load_tablePtr, ok_bind,
    and_presentBit, entry_root]
  by_cases hpml4 : s.pml4Slot r va % 2 = 0
  · exact Or.inl ⟨pdSlot_absent (Or.inl hpml4), by rw [if_pos hpml4], 0, by rw [if_pos hpml4]⟩
  · rw [if_neg hpml4, if_neg hpml4]
    obtain ⟨pdpr, hboth, hentry, hnext⟩ := h.follow va (by omega)
    have hload := hboth.load (pdprEntry va)
    rw [tableAddress] at hload
    simp only [hboth.direct, hload, load_tablePtr, ok_bind, hentry]
    by_cases hpdpr : s.pdprSlot r va % 2 = 0
    · exact Or.inl ⟨pdSlot_absent (Or.inr hpdpr), by rw [if_pos hpdpr], 1, by rw [if_pos hpdpr]⟩
    · rw [if_neg hpdpr, if_neg hpdpr]
      obtain ⟨pd, hboth, hentry⟩ := hnext (by omega)
      have hload := hboth.load (pdEntry va)
      rw [tableAddress] at hload
      simp only [hboth.direct, hload, load_tablePtr, ok_bind, hentry]
      by_cases hleaf : s.pdSlot r va % 2 = 0
      · exact Or.inl ⟨hleaf, by rw [if_pos hleaf], 2, by rw [if_pos hleaf]⟩
      · exact Or.inr ⟨by omega, by rw [if_neg hleaf], by rw [if_neg hleaf]⟩

/-- A page of a frame that is aligned to 2 MiB and below `memory_size_in_bytes`. -/
def LargeFrame (s : Vm) (value : Nat) : Prop :=
  hwFrame value % 512 = 0 ∧ 4096 * hwFrame value < s.memorySizeInBytes

/-- The part of an entry that `ALIGN_PHYSADDRESS` keeps: the frame, and the bits above it. -/
theorem alignPhysaddress_entry {value : Nat} (hlimit : s.memorySizeInBytes ≤ 2 ^ 40)
    (hframe : LargeFrame s value) :
    alignPhysaddress .large value = 2 ^ 52 * (value / 2 ^ 52) + 4096 * hwFrame value := by
  obtain ⟨haligned, hlt⟩ := hframe
  show value / 0x200000 * 0x200000 = _
  unfold hwFrame at *
  omega

/-- The address of the frame that the walk ends at. -/
theorem hhdmGetVariable_entry {value : Nat} (hlimit : s.memorySizeInBytes ≤ 2 ^ 40)
    (hframe : LargeFrame s value) :
    hhdmGetVariable .large s (value &&& vmPageTableBaseAddressMask) =
      some (4096 * hwFrame value + higherHalfDirectMapBase .large) := by
  rw [hhdmGetVariable_hwFrame hlimit hframe.2, tablePtr]

/-- `is_phyisical_address_mapped` gives the verdict that the end of `vm_walk_table` gives. -/
def LookupsAgree (s : Vm) (r pa va : Nat) : Prop :=
  ∃ w, vmWalkTable .large s va (tablePtr .large r) = .ok w ∧
    isPhyisicalAddressMapped .large s r pa va = .ok (walkVerdict w pa)

theorem walkVerdict_frame (f pa : Nat) :
    walkVerdict ⟨2, some (f + higherHalfDirectMapBase .large), true⟩ pa =
      if f = alignPhysaddress .large pa then .mapped else .mismatch := by
  simp [walkVerdict]

/-- For a page that is there, the lookups compare with the frame of `pa` what each of
them takes for the page's frame. -/
theorem SelfMapped.lookupsAgree {pa : Nat} (h : SelfMapped s r) (hpresent : s.pdSlot r va % 2 = 1)
    (hframe : LargeFrame s (s.pdSlot r va)) :
    LookupsAgree s r pa va ↔
      (alignPhysaddress .large (s.pdSlot r va) = alignPhysaddress .large pa ↔
        4096 * hwFrame (s.pdSlot r va) = alignPhysaddress .large pa) := by
  rcases h.lookups pa va with ⟨habsent, -⟩ | ⟨-, hrun, hwalk⟩
  · omega
  rw [hhdmGetVariable_entry h.limit hframe] at hwalk
  constructor
  · rintro ⟨w, hw, hst⟩
    rw [hwalk] at hw
    cases hw
    rw [hrun, walkVerdict_frame] at hst
    -- equal verdicts: both comparisons hold, or neither
    split_ifs at hst with h₁ h₂ h₂
    · exact iff_of_true h₁ h₂
    · cases hst
    · cases hst
    · exact iff_of_false h₁ h₂
  · intro hiff
    refine ⟨_, hwalk, ?_⟩
    rw [hrun, walkVerdict_frame, if_congr hiff rfl rfl]
    split_ifs <;> rfl

/-- **Looking up.** The lookups agree unless the page is the asked one and its entry has
one of the bits 52 to 63 set: `ALIGN_PHYSADDRESS` takes them for a part of the frame, and
the answer is a mismatch. -/
theorem lookups_agree_iff (s : Vm) (r pa va : Nat) (h : SelfMapped s r)
    (hframe : s.pdSlot r va % 2 = 1 → LargeFrame s (s.pdSlot r va))
    (hpa : pa < s.memorySizeInBytes) :
    LookupsAgree s r pa va ↔
      (s.pdSlot r va % 2 = 1 → 4096 * hwFrame (s.pdSlot r va) = alignPhysaddress .large pa →
        s.pdSlot r va / 2 ^ 52 = 0) := by
  rcases h.lookups pa va with ⟨habsent, hrun, level, hwalk⟩ | ⟨hpresent, hrun, hwalk⟩
  · exact iff_of_true ⟨_, hwalk, hrun⟩ fun hpresent => by omega
  have halign := alignPhysaddress_entry h.limit (hframe hpresent)
  have hlimit := h.limit
  -- the frame of `pa` has no bits above 40, so it only meets an entry that has none above 52
  have hsmall : alignPhysaddress .large pa < 2 ^ 40 := by
    have hle : pa / 0x200000 * 0x200000 ≤ pa := Nat.div_mul_le_self _ _
    show pa / 0x200000 * 0x200000 < _
    omega
  rw [h.lookupsAgree hpresent (hframe hpresent), halign]
  constructor
  · intro hiff _ heq
    have := hiff.mpr heq
    omega
  · intro hbits
    constructor
    · intro heq
      omega
    · intro heq
      have := hbits hpresent heq
      omega

theorem lookups_agree_asked_page :
    (pageSpace 0x200083).pdSlot 1 0x200000 = 0x200083 ∧
      LookupsAgree (pageSpace 0x200083) 1 0x234567 0x200000 :=
  ⟨rfl, (lookups_agree_iff _ 1 0x234567 0x200000 (pageSpace_selfMapped (by decide))
    (fun _ => ⟨rfl, by decide⟩) (by decide)).mpr fun _ _ => rfl⟩

/-- With bit 52 in the entry of the page, which is free for software, the walk still ends at
the frame, and the lookup reports a mismatch. -/
theorem lookup_takes_attribute_for_frame :
    isPhyisicalAddressMapped .large (pageSpace 0x10000000200083) 1 0x200000 0x200000 =
        .ok .mismatch ∧
      vmWalkTable .large (pageSpace 0x10000000200083) 0x200000 (tablePtr .large 1) =
        .ok ⟨2, some (0x200000 + higherHalfDirectMapBase .large), true⟩ ∧
      ¬ LookupsAgree (pageSpace 0x10000000200083) 1 0x200000 0x200000 := by
  have hself : SelfMapped (pageSpace 0x10000000200083) 1 := pageSpace_selfMapped (by decide)
  have hframe : LargeFrame (pageSpace 0x10000000200083) 0x10000000200083 := ⟨rfl, by decide⟩
  have hslot : (pageSpace 0x10000000200083).pdSlot 1 0x200000 = 0x10000000200083 := rfl
  refine ⟨by decide +kernel, by decide +kernel, ?_⟩
  rw [hself.lookupsAgree (by rw [hslot]) (by rw [hslot]; exact hframe), hslot]
  decide

end Lookup

end Dreamos64
