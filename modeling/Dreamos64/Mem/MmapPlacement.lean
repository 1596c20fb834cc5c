import Dreamos64.Mem.Mmap
import Mathlib.Data.Set.Lattice
import Mathlib.Order.CompletePartialOrder
import Mathlib.Order.Interval.Set.LinearOrder
import Mathlib.Order.MinMax

/-!
# Dreamos64 — choosing memory by the boot loader's map

Before the frame bitmap exists the kernel takes memory by looking at the map:
once for the bitmap itself, and once for every early page table.

* `bitmap_region_first_fit` — the bitmap goes to the lowest address at or above
  the limit in the first available entry with room for it;
* `available_space_iff`     — the test for page tables compares where entries
  end and where modules are relative to the first byte, so all it accepts is
  free memory exactly when the map has no holes around the tags (`WindowFree`);
* `hole_is_available`       — a range between two entries that it accepts.
-/

namespace Dreamos64

open Machine

/-- The bytes of a memory map entry. -/
def MmapEntry.bytes (e : MmapEntry) : Set Nat := Set.Ico e.addr (e.addr + e.len)

theorem ico_subset_bytes {e : MmapEntry} {first n : Nat} (hn : 1 ≤ n) :
    Set.Ico first (first + n) ⊆ e.bytes ↔ e.addr ≤ first ∧ first + n ≤ e.addr + e.len :=
  Set.Ico_subset_Ico_iff (by omega)

/-! ## The bitmap -/

section Placement

variable {lowerLimit bytesNeeded : Nat} {e : MmapEntry} {entries : List MmapEntry}

/-- Where `bytesNeeded` bytes at or above `lowerLimit` can start in an available
entry. -/
def placesIn (lowerLimit bytesNeeded : Nat) (e : MmapEntry) : Set Nat :=
  {r | e.type = mmapAvailable ∧ lowerLimit ≤ r ∧ Set.Ico r (r + bytesNeeded) ⊆ e.bytes}

/-- Whether the entry has such a place, in the terms of the code: the lowest
candidate is the later of the entry's start and the limit. -/
def hasRoom (lowerLimit bytesNeeded : Nat) (e : MmapEntry) : Bool :=
  e.type = mmapAvailable ∧ max e.addr lowerLimit + bytesNeeded ≤ e.addr + e.len

theorem hasRoom_iff : hasRoom lowerLimit bytesNeeded e = true ↔
    e.type = mmapAvailable ∧ max e.addr lowerLimit + bytesNeeded ≤ e.addr + e.len := by
  simp [hasRoom]

theorem isLeast_placesIn (hpos : 1 ≤ bytesNeeded) (h : hasRoom lowerLimit bytesNeeded e = true) :
    IsLeast (placesIn lowerLimit bytesNeeded e) (max e.addr lowerLimit) := by
  obtain ⟨htype, hfits⟩ := hasRoom_iff.mp h
  refine ⟨⟨htype, le_max_right _ _, (ico_subset_bytes hpos).mpr ⟨le_max_left _ _, hfits⟩⟩, ?_⟩
  rintro r ⟨-, hlimit, hin⟩
  exact max_le ((ico_subset_bytes hpos).mp hin).1 hlimit

theorem hasRoom_of_placesIn (hpos : 1 ≤ bytesNeeded)
    (h : (placesIn lowerLimit bytesNeeded e).Nonempty) :
    hasRoom lowerLimit bytesNeeded e = true := by
  obtain ⟨r, htype, hlimit, hin⟩ := h
  obtain ⟨hstart, hstop⟩ := (ico_subset_bytes hpos).mp hin
  refine hasRoom_iff.mpr ⟨htype, ?_⟩
  have hmax : max e.addr lowerLimit ≤ r := max_le hstart hlimit
  omega

/-- The loop is a search for the first entry with room. -/
theorem mmapDetermineBitmapRegion_eq (hpos : 1 ≤ bytesNeeded)
    (hwords : ∀ e ∈ entries, e.addr + e.len < 2 ^ 64) :
    mmapDetermineBitmapRegion lowerLimit bytesNeeded entries =
      match entries.find? (hasRoom lowerLimit bytesNeeded) with
      | some e => .ok (max e.addr lowerLimit)
      | none => .error .halted := by
  induction entries with
  | nil => rfl
  | cons e rest ih =>
    have hword : e.addr + e.len < 2 ^ 64 := hwords e List.mem_cons_self
    specialize ih fun e' h => hwords e' (List.mem_cons_of_mem _ h)
    have hoffset : (if lowerLimit > e.addr then lowerLimit - e.addr else 0) =
        max e.addr lowerLimit - e.addr := by
      split_ifs <;> omega
    unfold mmapDetermineBitmapRegion
    simp only [hoffset, Nat.mod_eq_of_lt hword, List.find?_cons]
    by_cases hroom : hasRoom lowerLimit bytesNeeded e = true
    · obtain ⟨htype, hfits⟩ := hasRoom_iff.mp hroom
      -- the limit is not above the entry, so what is left of it does not wrap
      rw [if_neg (by simpa using htype), if_neg (by omega), if_pos (by omega), hroom]
      congr 1
      omega
    · -- not available, below the limit, or too short
      have hskip := mt hasRoom_iff.mpr hroom
      rw [Bool.eq_false_iff.mpr hroom, ← ih]
      split_ifs with htype hlow hspace
      · rfl
      · rfl
      · exact absurd ⟨by simpa using htype, by omega⟩ hskip
      · rfl

/-- `_mmap_determine_bitmap_region` returns exactly when an available entry has
room at or above the limit, and then the lowest address in the first such entry;
otherwise it reaches its fatal branch. -/
theorem bitmap_region_first_fit (entries : List MmapEntry) (lowerLimit bytesNeeded : Nat)
    (hwords : ∀ e ∈ entries, e.addr + e.len < 2 ^ 64) (hpos : 1 ≤ bytesNeeded) :
    (mmapDetermineBitmapRegion lowerLimit bytesNeeded entries = .error .halted ↔
      ∀ e ∈ entries, placesIn lowerLimit bytesNeeded e = ∅) ∧
    ((∃ e ∈ entries, (placesIn lowerLimit bytesNeeded e).Nonempty) →
      ∃ r before e after,
        mmapDetermineBitmapRegion lowerLimit bytesNeeded entries = .ok r ∧
        entries = before ++ e :: after ∧
        (∀ e' ∈ before, placesIn lowerLimit bytesNeeded e' = ∅) ∧
        IsLeast (placesIn lowerLimit bytesNeeded e) r) := by
  have hempty : ∀ e, ¬ hasRoom lowerLimit bytesNeeded e = true →
      placesIn lowerLimit bytesNeeded e = ∅ := fun e h =>
    Set.not_nonempty_iff_eq_empty.mp (mt (hasRoom_of_placesIn hpos) h)
  -- the loop is a search for the first entry with room
  rw [mmapDetermineBitmapRegion_eq hpos hwords]
  cases hfind : entries.find? (hasRoom lowerLimit bytesNeeded) with
  | none =>
    have hnone := List.find?_eq_none.mp hfind
    refine ⟨⟨fun _ e he => hempty e (hnone e he), fun _ => rfl⟩, ?_⟩
    rintro ⟨e, he, hplace⟩
    exact absurd (hasRoom_of_placesIn hpos hplace) (hnone e he)
  | some e =>
    obtain ⟨hroom, before, after, heq, hbefore⟩ := List.find?_eq_some_iff_append.mp hfind
    have hleast := isLeast_placesIn hpos hroom
    constructor
    · constructor
      · intro h
        cases h
      intro h
      have hin : e ∈ entries := List.mem_of_find?_eq_some hfind
      exact absurd hleast.1 (by simp [h e hin])
    · intro _
      refine ⟨_, before, e, after, rfl, heq, fun e' he' => hempty e' ?_, hleast⟩
      simpa using hbefore e' he'

/-- The bitmap of a machine with 128 MiB goes behind the kernel in the second
available entry. -/
theorem bitmap_region_first_fit_pc :
    ∃ r before e after,
      mmapDetermineBitmapRegion 0x1202000 0x1001
        [⟨0, 0x9fc00, 1⟩, ⟨0x9fc00, 0x60400, 2⟩, ⟨0x100000, 0x7ee0000, 1⟩] = .ok r ∧
      [⟨0, 0x9fc00, 1⟩, ⟨0x9fc00, 0x60400, 2⟩, ⟨0x100000, 0x7ee0000, 1⟩] =
        before ++ e :: after ∧
      (∀ e' ∈ before, placesIn 0x1202000 0x1001 e' = ∅) ∧
      IsLeast (placesIn 0x1202000 0x1001 e) r :=
  (bitmap_region_first_fit _ _ _ (by decide) (by decide)).2
    ⟨⟨0x100000, 0x7ee0000, 1⟩, by simp,
      ⟨0x1202000, rfl, le_rfl, (ico_subset_bytes (by decide)).mpr (by decide)⟩⟩

end Placement

/-! ## Early page tables -/

section Available

variable {mb : Multiboot} {entries : List MmapEntry} {address length : Nat}

/-- The range is in one available entry and meets neither the boot loader's tags
nor a module. A module includes its last byte, as `_is_address_in_multiboot` reads
it. -/
structure FreeRange (mb : Multiboot) (entries : List MmapEntry) (address length : Nat) :
    Prop where
  available : ∃ e ∈ entries, e.type = mmapAvailable ∧
    Set.Ico address (address + length) ⊆ e.bytes
  tags : Disjoint (Set.Ico address (address + length))
    (Set.Ico mb.multibootTagStart mb.multibootTagEnd)
  modules : ∀ md ∈ mb.modules, Disjoint (Set.Ico address (address + length)) (Set.Icc md.1 md.2)

/-- The largest end of an available entry, as the code adds it up. -/
def mmapTop (entries : List MmapEntry) : Nat :=
  entries.foldr
    (fun e top => if e.type = mmapAvailable then max ((e.addr + e.len) % 2 ^ 64) top else top) 0

theorem lt_mmapTop {x : Nat} :
    x < mmapTop entries ↔
      ∃ e ∈ entries, e.type = mmapAvailable ∧ x < (e.addr + e.len) % 2 ^ 64 := by
  induction entries with
  | nil => simp [mmapTop]
  | cons e entries ih =>
    have hcons : mmapTop (e :: entries) = if e.type = mmapAvailable
        then max ((e.addr + e.len) % 2 ^ 64) (mmapTop entries) else mmapTop entries := rfl
    rw [hcons]
    simp only [List.mem_cons, exists_eq_or_imp]
    split_ifs with htype
    · rw [lt_max_iff, ih, and_iff_right htype]
    · rw [ih, or_iff_right fun h => htype h.1]

theorem mmapTop_lt (entries : List MmapEntry) : mmapTop entries < 2 ^ 64 := by
  by_contra hge
  obtain ⟨e, -, -, hlt⟩ := lt_mmapTop.mp (Nat.lt_of_lt_of_le (by decide : 2 ^ 64 - 1 < 2 ^ 64)
    (Nat.le_of_not_lt hge))
  omega

/-- The address is in a module, as `_is_address_in_multiboot` compares. -/
def InModule (mb : Multiboot) (address : Nat) : Prop :=
  ∃ md ∈ mb.modules, md.1 ≤ address ∧ address ≤ md.2

theorem isAddressInMultiboot_iff :
    isAddressInMultiboot mb address = true ↔ InModule mb address := by
  simp [isAddressInMultiboot, InModule]

/-- **What the test accepts**, of the ranges that do not wrap: those that do not meet the tags,
end below the end of some available entry, and do not begin in a module. -/
theorem available_space_true_iff (hrange : address + length < 2 ^ 64) :
    mmapIsAddressInAvailableSpace mb entries address length = true ↔
      ¬ (mb.multibootTagStart < address ∧ address + length < mb.multibootTagEnd) ∧
      ¬ (mb.multibootTagStart < address + length ∧ address < mb.multibootTagEnd) ∧
      address + length < mmapTop entries ∧ ¬ InModule mb address := by
  unfold mmapIsAddressInAvailableSpace
  simp only [Nat.mod_eq_of_lt hrange]
  split_ifs with hinside hacross
  · exact iff_of_false nofun fun h => h.1 hinside
  · exact iff_of_false nofun fun h => h.2.1 hacross
  · rw [and_iff_right hinside, and_iff_right hacross, lt_mmapTop, ← isAddressInMultiboot_iff]
    split
    · next hnone =>
      refine iff_of_false nofun ?_
      rintro ⟨⟨e, he, htype, hlt⟩, -⟩
      exact List.find?_eq_none.mp hnone e he (decide_eq_true ⟨hlt, htype⟩)
    · next e hsome =>
      have hfound := List.find?_some hsome
      simp only [decide_eq_true_eq] at hfound
      rw [and_iff_right ⟨e, List.mem_of_find?_eq_some hsome, hfound.2, hfound.1⟩,
        Bool.not_eq_true', Bool.not_eq_true]

/-- From the first of its bytes on that is in no module, a window lies in one available entry
and holds no module. -/
def WindowFree (mb : Multiboot) (entries : List MmapEntry) (first last : Nat) : Prop :=
  ∀ a, first ≤ a → a < last → ¬ InModule mb a →
    (∃ e ∈ entries, e.type = mmapAvailable ∧ Set.Ico a last ⊆ e.bytes) ∧
      ∀ md ∈ mb.modules, Disjoint (Set.Ico a last) (Set.Icc md.1 md.2)

/-- A range in a window that begins in no module. -/
theorem WindowFree.range {first last : Nat} (h : WindowFree mb entries first last)
    (hfirst : first ≤ address) (hpos : 0 < length) (hlast : address + length ≤ last)
    (hmodule : ¬ InModule mb address)
    (htags : address + length ≤ mb.multibootTagStart ∨ mb.multibootTagEnd ≤ address) :
    FreeRange mb entries address length := by
  obtain ⟨⟨e, he, htype, hin⟩, hapart⟩ := h address hfirst (by omega) hmodule
  have hsub : Set.Ico address (address + length) ⊆ Set.Ico address last :=
    Set.Ico_subset_Ico_right hlast
  refine ⟨⟨e, he, htype, hsub.trans hin⟩, ?_, fun md hmd => (hapart md hmd).mono_left hsub⟩
  rw [Set.disjoint_left]
  rintro x ⟨hlo, hhi⟩ ⟨hstart, hend⟩
  omega

/-- **Early allocation.** For every memory map, tags and modules: whatever range is accepted, and
does not pass the end of the address space, is free exactly if there is nothing but one available
entry, and modules in front, below the tags, and again above them up to the end of the last
available entry. -/
theorem available_space_iff (mb : Multiboot) (entries : List MmapEntry) :
    (∀ address length, address + length < 2 ^ 64 →
        mmapIsAddressInAvailableSpace mb entries address length = true →
        FreeRange mb entries address length) ↔
      WindowFree mb entries 0 (min mb.multibootTagStart (mmapTop entries - 1)) ∧
        WindowFree mb entries mb.multibootTagEnd (mmapTop entries - 1) := by
  have htop := mmapTop_lt entries
  constructor
  · -- a window is accepted from each of its bytes on that is in no module
    intro hall
    have hwindow : ∀ a last, a < last → last < mmapTop entries → ¬ InModule mb a →
        (last ≤ mb.multibootTagStart ∨ mb.multibootTagEnd ≤ a) →
        FreeRange mb entries a (last - a) := fun a last ha hlast hmodule hapart =>
      hall a (last - a) (by omega)
        ((available_space_true_iff (by omega)).mpr ⟨by omega, by omega, by omega, hmodule⟩)
    constructor
    · intro a _ ha hmodule
      have hfree := hwindow a _ ha (by omega) hmodule (.inl (by omega))
      have hsum : a + (min mb.multibootTagStart (mmapTop entries - 1) - a) =
          min mb.multibootTagStart (mmapTop entries - 1) := by omega
      obtain ⟨havailable, -, hmodules⟩ := hfree
      rw [hsum] at havailable hmodules
      exact ⟨havailable, hmodules⟩
    · intro a hend ha hmodule
      have hfree := hwindow a _ ha (by omega) hmodule (.inr hend)
      have hsum : a + (mmapTop entries - 1 - a) = mmapTop entries - 1 := by omega
      obtain ⟨havailable, -, hmodules⟩ := hfree
      rw [hsum] at havailable hmodules
      exact ⟨havailable, hmodules⟩
  · rintro ⟨hbelow, habove⟩ address length hrange haccepted
    obtain ⟨-, hacross, hend, hmodule⟩ := (available_space_true_iff hrange).mp haccepted
    rcases Nat.eq_zero_or_pos length with rfl | hpos
    · -- an empty range is in any entry
      obtain ⟨e, he, htype, -⟩ := lt_mmapTop.mp hend
      exact ⟨⟨e, he, htype, by simp⟩, by simp, by simp⟩
    · by_cases hfront : address < mb.multibootTagEnd
      · exact hbelow.range (Nat.zero_le _) hpos (by omega) hmodule (.inl (by omega))
      · exact habove.range (by omega) hpos (by omega) hmodule (.inr (by omega))

/-- A machine whose whole memory is available, with tags in it. -/
theorem available_space_iff_whole :
    ∀ address length, address + length < 2 ^ 64 →
      mmapIsAddressInAvailableSpace ⟨0x9500, 0xa000, []⟩ [⟨0, 0x8000000, 1⟩] address length = true →
      FreeRange ⟨0x9500, 0xa000, []⟩ [⟨0, 0x8000000, 1⟩] address length := by
  have htop : mmapTop [⟨0, 0x8000000, 1⟩] = 0x8000000 := by decide
  have hin : ∀ a last, last ≤ 0x8000000 → Set.Ico a last ⊆ MmapEntry.bytes ⟨0, 0x8000000, 1⟩ :=
    fun a last hlast x hx => ⟨Nat.zero_le x, Nat.lt_of_lt_of_le hx.2 (by omega)⟩
  refine (available_space_iff _ _).mpr ⟨fun a _ _ _ => ?_, fun a _ _ _ => ?_⟩
  · exact ⟨⟨_, List.mem_singleton_self _, rfl, hin a _ (by omega)⟩, by simp⟩
  · exact ⟨⟨_, List.mem_singleton_self _, rfl, hin a _ (by omega)⟩, by simp⟩

/-- On a machine with 128 MiB the page at `0xa0000` passes, because the entry above the
hole ends late enough. No available entry holds any byte of it. -/
theorem hole_is_available :
    mmapIsAddressInAvailableSpace ⟨0x9500, 0xa000, []⟩
      [⟨0, 0x9fc00, 1⟩, ⟨0x9fc00, 0x60400, 2⟩, ⟨0x100000, 0x7ee0000, 1⟩] 0xa0000 0x1000 = true ∧
    ¬ FreeRange ⟨0x9500, 0xa000, []⟩
      [⟨0, 0x9fc00, 1⟩, ⟨0x9fc00, 0x60400, 2⟩, ⟨0x100000, 0x7ee0000, 1⟩] 0xa0000 0x1000 := by
  refine ⟨by decide, fun h => ?_⟩
  obtain ⟨e, he, htype, hin⟩ := h.available
  have hbounds := (ico_subset_bytes (by decide)).mp hin
  simp only [List.mem_cons, List.not_mem_nil, or_false] at he
  rcases he with rfl | rfl | rfl
  · exact absurd hbounds (by decide)
  · exact absurd htype (by decide)
  · exact absurd hbounds (by decide)

end Available

end Dreamos64
