import Dreamos64.Arch.HigherHalf
import Dreamos64.Arch.PageRequests

/-!
# Dreamos64 — the root table of ACPI

`parse_RSDT` and `parse_RSDTv2` of `acpi.c` map the root table before they read its entries: the
page of its header first, which holds the length, and then as many more as the length asks for.
They do not look at where in its first page the table begins, and copy the header when only that
page is mapped.

* `parseRsdt`, `parseRsdtv2`  — the pages that are mapped, if the header can be read;
* `rootTable_covered_iff`     — when they hold the whole table;
* `rootTable_translated`      — what that means for the page tables;
* `root_table_mapped_iff`     — both functions.
-/

namespace Dreamos64

open Machine

/-! ## `acpi.c` -/

/-- `ensure_address_in_higher_half(address, VM_TYPE_MMIO)`. -/
def mmioAddress (m : PageMode) (address : UInt64) : Nat :=
  (ensureAddressInHigherHalf m address vmTypeMmio).toNat

def sizeofACPISDTHeader : Nat := 36

/-- `header = root->header`: of the pages of the table only the one where it begins is mapped
yet. -/
def readHeader (m : PageMode) (address : UInt64) : Exec Unit :=
  if mmioAddress m address % pageSizeInBytes m + sizeofACPISDTHeader ≤ pageSizeInBytes m then .ok ()
  else .error .nullPointer

/-- The calls of `map_phys_to_virt_addr` for a table at `address`. `align` is what is done to the
physical address of the pages after the first one. -/
def rootTableRequests (m : PageMode) (align : UInt64 → Nat) (address : UInt64)
    (length : UInt32) : List PageRequest :=
  let requiredExtraPages := length.toNat / pageSizeInBytes m + 1
  ⟨alignPhysaddress m address.toNat, mmioAddress m address⟩ ::
    (List.range' 1 (requiredExtraPages - 1)).map fun j =>
      let newPhysicalAddress := address + (j * pageSizeInBytes m).toUInt64
      ⟨align newPhysicalAddress, mmioAddress m newPhysicalAddress⟩

/-- The pages that `parse_RSDT` maps before it reads the entries. -/
def parseRsdt (m : PageMode) (rsdtAddress length : UInt32) : Exec (List PageRequest) := do
  readHeader m rsdtAddress.toUInt64
  .ok (rootTableRequests m (fun address => alignPhysaddress m address.toNat) rsdtAddress.toUInt64
    length)

/-- The pages that `parse_RSDTv2` maps before it reads the entries. The physical addresses of the
later ones are not aligned. -/
def parseRsdtv2 (m : PageMode) (xsdtAddress : UInt64) (length : UInt32) :
    Exec (List PageRequest) := do
  readHeader m xsdtAddress
  .ok (rootTableRequests m UInt64.toNat xsdtAddress length)

/-! ## Addresses -/

section Addresses

variable {m : PageMode} {address : UInt64}

/-- Addresses below `2 ^ 47` are relocated, if only by wrapping. -/
theorem mmioAddress_eq (h : address.toNat < 2 ^ 47) :
    mmioAddress m address = (address.toNat + (2 ^ 64 - 2 ^ 47) + pageSizeInBytes m) % 2 ^ 64 := by
  have hstart : windowStart m vmTypeMmio = 2 ^ 64 - 2 ^ 47 + pageSizeInBytes m := by
    cases m <;> decide
  rw [mmioAddress, toNat_ensureAddressInHigherHalf (Or.inr rfl), hstart, if_neg (by omega),
    Nat.add_assoc]

/-- The header lies in the page where it begins. -/
theorem readHeader_iff (h : address.toNat < 2 ^ 47) : readHeader m address = .ok () ↔
    address.toNat % pageSizeInBytes m + sizeofACPISDTHeader ≤ pageSizeInBytes m := by
  have hmod : mmioAddress m address % pageSizeInBytes m = address.toNat % pageSizeInBytes m := by
    rw [mmioAddress_eq h]
    cases m <;> simp only [pageSizeInBytes] <;> omega
  rw [readHeader, hmod]
  split_ifs with hfits <;> simp [hfits]

theorem toNat_add_offset (address : UInt64) {i : Nat} (h : address.toNat + i < 2 ^ 64) :
    (address + i.toUInt64).toNat = address.toNat + i := by
  have hi : i.toUInt64.toNat = i := Nat.mod_eq_of_lt (by omega)
  rw [UInt64.toNat_add, hi, Nat.mod_eq_of_lt h]

/-- The relocated address of a byte of the table. -/
theorem mmioAddress_add {i : Nat} (h : address.toNat + i < 2 ^ 47) :
    mmioAddress m (address + i.toUInt64) =
      (address.toNat + i + (2 ^ 64 - 2 ^ 47) + pageSizeInBytes m) % 2 ^ 64 := by
  have hadd := toNat_add_offset address (i := i) (by omega)
  rw [mmioAddress_eq (by omega), hadd]

end Addresses

/-! ## Pages -/

/-- A later page is mapped to the frame of its address, aligned or not. -/
def KeepsFrame (m : PageMode) (align : UInt64 → Nat) : Prop :=
  ∀ address, align address / pageSizeInBytes m = address.toNat / pageSizeInBytes m

/-- A table from its first to its last byte: each has its address in the MMIO window, in a page
that is mapped to the frame of the byte. -/
def CoversTable (m : PageMode) (requests : List PageRequest) (address : UInt64)
    (length : Nat) : Prop :=
  ∀ i < length, mmioHigherHalfAddressOffset ≤ mmioAddress m (address + i.toUInt64) ∧
    ∃ q ∈ requests,
      q.address / pageSizeInBytes m = mmioAddress m (address + i.toUInt64) / pageSizeInBytes m ∧
      q.physicalAddress / pageSizeInBytes m = (address.toNat + i) / pageSizeInBytes m

/-- The table does not reach beyond the pages that its length alone asks for, nor beyond the
addresses that can be relocated without wrapping. -/
def FitsPages (m : PageMode) (address : UInt64) (length : Nat) : Prop :=
  length = 0 ∨ address.toNat % pageSizeInBytes m + length % pageSizeInBytes m ≤ pageSizeInBytes m ∧
    address.toNat + length + pageSizeInBytes m ≤ 2 ^ 47

section Pages

variable {m : PageMode} {align : UInt64 → Nat} {address : UInt64} {length : UInt32}

theorem keepsFrame_alignPhysaddress (m : PageMode) :
    KeepsFrame m fun address => alignPhysaddress m address.toNat := by
  intro address
  exact Nat.mul_div_cancel _ (pageSizeInBytes_pos m)

theorem keepsFrame_toNat (m : PageMode) : KeepsFrame m UInt64.toNat := fun _ => rfl

/-- The page number `j` of the table is among those that are mapped. -/
structure IsPage (m : PageMode) (address : UInt64) (j : Nat) (q : PageRequest) : Prop where
  virtual  : q.address = mmioAddress m (address + (j * pageSizeInBytes m).toUInt64)
  physical : q.physicalAddress / pageSizeInBytes m =
    (address + (j * pageSizeInBytes m).toUInt64).toNat / pageSizeInBytes m

theorem isPage_first (m : PageMode) (address : UInt64) :
    IsPage m address 0 ⟨alignPhysaddress m address.toNat, mmioAddress m address⟩ := by
  have hzero : address + (0 * pageSizeInBytes m).toUInt64 = address := by
    rw [Nat.zero_mul]
    exact UInt64.add_zero address
  refine ⟨by rw [hzero], ?_⟩
  rw [hzero]
  exact keepsFrame_alignPhysaddress m address

/-- The first page, and one more for each page of the length. -/
theorem mem_rootTableRequests (halign : KeepsFrame m align) {q : PageRequest}
    (hq : q ∈ rootTableRequests m align address length) :
    ∃ j ≤ length.toNat / pageSizeInBytes m, IsPage m address j q := by
  rcases List.mem_cons.mp hq with rfl | hq
  · exact ⟨0, Nat.zero_le _, isPage_first m address⟩
  · obtain ⟨j, hj, rfl⟩ := List.mem_map.mp hq
    rw [List.mem_range'_1] at hj
    exact ⟨j, by omega, rfl, halign _⟩

theorem exists_rootTableRequest (address : UInt64) (halign : KeepsFrame m align) {j : Nat}
    (hj : j ≤ length.toNat / pageSizeInBytes m) :
    ∃ q ∈ rootTableRequests m align address length, IsPage m address j q := by
  rcases Nat.eq_zero_or_pos j with rfl | hpos
  · exact ⟨_, List.mem_cons_self, isPage_first m address⟩
  · refine ⟨_, List.mem_cons_of_mem _ (List.mem_map.mpr ⟨j, ?_, rfl⟩), rfl, halign _⟩
    rw [List.mem_range'_1]
    omega

/-- The address of a page does not leave the range of the table. -/
theorem page_le {j : Nat} (hj : j ≤ length.toNat / pageSizeInBytes m) :
    j * pageSizeInBytes m ≤ length.toNat :=
  (Nat.mul_le_mul_right _ hj).trans (Nat.div_mul_le_self _ _)

variable (hend : address.toNat + length.toNat < 2 ^ 47)

include hend

theorem IsPage.address_eq {j : Nat} {q : PageRequest} (h : IsPage m address j q)
    (hj : j ≤ length.toNat / pageSizeInBytes m) :
    q.address = (address.toNat + j * pageSizeInBytes m + (2 ^ 64 - 2 ^ 47) + pageSizeInBytes m) %
      2 ^ 64 := by
  have hle := page_le hj
  rw [h.virtual, mmioAddress_add (by omega)]

theorem IsPage.frame_eq {j : Nat} {q : PageRequest} (h : IsPage m address j q)
    (hj : j ≤ length.toNat / pageSizeInBytes m) :
    q.physicalAddress / pageSizeInBytes m = address.toNat / pageSizeInBytes m + j := by
  have hle := page_le hj
  rw [h.physical, toNat_add_offset address (by omega),
    Nat.add_mul_div_right _ _ (pageSizeInBytes_pos m)]

/-- Two pages of a table are apart. -/
theorem IsPage.apart {j k : Nat} {q q' : PageRequest} (h : IsPage m address j q)
    (h' : IsPage m address k q') (hj : j ≤ length.toNat / pageSizeInBytes m)
    (hk : k ≤ length.toNat / pageSizeInBytes m) (hne : j ≠ k) :
    ¬ SamePage m q'.address q.address := by
  have hlength := length.toNat_lt
  rw [samePage_iff, h.address_eq hend hj, h'.address_eq hend hk]
  cases m <;> simp only [pageSizeInBytes] at hj hk ⊢ <;> omega

variable (halign : KeepsFrame m align)

include halign

/-- **The pages hold the table** if what it begins with in its first page, and what is left of
its length after whole pages, fit into one page. -/
theorem rootTable_covered_iff :
    CoversTable m (rootTableRequests m align address length) address length.toNat ↔
      FitsPages m address length.toNat := by
  have hoffset : mmioHigherHalfAddressOffset = 2 ^ 64 - 2 ^ 47 := by decide
  constructor
  · intro h
    rcases Nat.eq_zero_or_pos length.toNat with hzero | hpos
    · exact Or.inl hzero
    -- the last byte is in a page that was mapped
    obtain ⟨hwindow, q, hq, -, hframe⟩ := h (length.toNat - 1) (by omega)
    obtain ⟨j, hj, hpage⟩ := mem_rootTableRequests halign hq
    rw [hpage.frame_eq hend hj] at hframe
    rw [hoffset, mmioAddress_add (by omega)] at hwindow
    refine Or.inr ⟨?_, ?_⟩
    · cases m <;> simp only [pageSizeInBytes] at hframe hj ⊢ <;> omega
    · cases m <;> simp only [pageSizeInBytes] at hwindow ⊢ <;> omega
  · intro hfits i hi
    obtain ⟨hpages, hwindow⟩ := hfits.resolve_left (by omega)
    rw [hoffset, mmioAddress_add (by omega)]
    -- the page that the byte is in
    have hj : (address.toNat % pageSizeInBytes m + i) / pageSizeInBytes m ≤
        length.toNat / pageSizeInBytes m := by
      cases m <;> simp only [pageSizeInBytes] at hpages ⊢ <;> omega
    obtain ⟨q, hq, hpage⟩ := exists_rootTableRequest address halign hj
    refine ⟨?_, q, hq, ?_, ?_⟩
    · cases m <;> simp only [pageSizeInBytes] at hwindow ⊢ <;> omega
    · rw [hpage.address_eq hend hj]
      cases m <;> simp only [pageSizeInBytes] at hwindow ⊢ <;> omega
    · rw [hpage.frame_eq hend hj]
      cases m <;> simp only [pageSizeInBytes] <;> omega

/-! ## Page tables -/

theorem rootTableRequests_apart :
    (rootTableRequests m align address length).Pairwise
      fun q q' => ¬ SamePage m q'.address q.address := by
  refine List.pairwise_cons.mpr ⟨fun q hq => ?_, ?_⟩
  · obtain ⟨j, hj, rfl⟩ := List.mem_map.mp hq
    rw [List.mem_range'_1] at hj
    exact (isPage_first m address).apart hend (k := j) ⟨rfl, halign _⟩ (Nat.zero_le _) (by omega)
      (by omega)
  · rw [List.pairwise_map]
    refine List.Pairwise.imp_of_mem (fun {j k} hj hk hlt => ?_) List.pairwise_lt_range'
    rw [List.mem_range'_1] at hj hk
    exact IsPage.apart hend (j := j) (k := k) ⟨rfl, halign _⟩ ⟨rfl, halign _⟩ (by omega) (by omega)
      (Nat.ne_of_lt hlt)

theorem rootTableRequests_physical {q : PageRequest}
    (hq : q ∈ rootTableRequests m align address length) : q.physicalAddress < 2 ^ 52 := by
  obtain ⟨j, hj, hpage⟩ := mem_rootTableRequests halign hq
  have hframe := hpage.frame_eq hend hj
  have hle := page_le hj
  cases m <;> simp only [pageSizeInBytes] at hframe hle <;> omega

/-- **After the calls** the bytes of a table that fits are where they should be. -/
theorem rootTable_translated {s : Vm} {r : Nat} (hfits : FitsPages m address length.toNat)
    (h : PagesVacant m s r (rootTableRequests m align address length)) :
    ∃ s', s.mapPages m r (rootTableRequests m align address length) = .ok s' ∧
      ∀ i < length.toNat, translate s' r (mmioAddress m (address + i.toUInt64)) =
        some ⟨address.toNat + i, true⟩ := by
  obtain ⟨s', hrun, hmapped, -⟩ := mapPages_spec (region_onWay h.root)
    (h.ready (fun q => rootTableRequests_physical hend halign)
      (rootTableRequests_apart hend halign))
  refine ⟨s', hrun, fun i hi => ?_⟩
  obtain ⟨-, q, hq, hvirtual, hframe⟩ := (rootTable_covered_iff hend halign).mpr hfits i hi
  have hsame : SamePage m (mmioAddress m (address + i.toUInt64)) q.address := by
    rw [samePage_iff]
    rw [mmioAddress_add (by omega)] at hvirtual ⊢
    cases m <;> simp only [pageSizeInBytes] at hvirtual ⊢ <;> omega
  rw [hmapped q hq _ hsame, hframe, mmioAddress_add (by omega)]
  congr 2
  cases m <;> simp only [pageSizeInBytes] <;> omega

end Pages

/-- The root table is mapped: the header can be read, the pages hold every byte of the table, and
the calls for them, made on page tables in which none of the pages is mapped yet, lead to a
translation of every byte. -/
def MapsTable (m : PageMode) (parse : Exec (List PageRequest)) (address : UInt64)
    (length : Nat) : Prop :=
  ∃ requests, parse = .ok requests ∧ CoversTable m requests address length ∧
    ∀ s r, PagesVacant m s r requests → ∃ s', s.mapPages m r requests = .ok s' ∧
      ∀ i < length, translate s' r (mmioAddress m (address + i.toUInt64)) =
        some ⟨address.toNat + i, true⟩

theorem rootTable_mapped_iff {m : PageMode} {align : UInt64 → Nat} {address : UInt64}
    {length : UInt32} (halign : KeepsFrame m align)
    (hend : address.toNat + length.toNat < 2 ^ 47) :
    MapsTable m (readHeader m address >>= fun _ => .ok (rootTableRequests m align address length))
        address length.toNat ↔
      address.toNat % pageSizeInBytes m + sizeofACPISDTHeader ≤ pageSizeInBytes m ∧
        FitsPages m address length.toNat := by
  rw [← readHeader_iff (by omega)]
  constructor
  · rintro ⟨requests, hparse, hcovers, -⟩
    obtain ⟨_, hheader, hrequests⟩ := bind_inv hparse
    cases hrequests
    exact ⟨hheader, (rootTable_covered_iff hend halign).mp hcovers⟩
  · rintro ⟨hheader, hfits⟩
    refine ⟨_, by rw [hheader, ok_bind], (rootTable_covered_iff hend halign).mpr hfits, ?_⟩
    exact fun s r h => rootTable_translated hend halign hfits h

theorem recursiveSpace_pagesVacant :
    PagesVacant .large recursiveSpace 1 [⟨0, 0xFFFF800000201000⟩] := by
  have hok := recursiveSpace_rootOk .large
  have hroot : ∀ q ∈ [(⟨0, 0xFFFF800000201000⟩ : PageRequest)], indexAt q.address 0 ≠ 510 := by
    intro q hq
    obtain rfl := List.mem_singleton.mp hq
    decide
  refine ⟨hok.tables, hok.owned.mono fun p hp => ?_, hroot, by decide, fun q hq => ?_⟩
  · obtain ⟨q, hq, d, hd, rfl⟩ := hp
    exact tablePath_pathTo hd (hroot q hq)
  · obtain rfl := List.mem_singleton.mp hq
    decide +kernel

end Dreamos64
