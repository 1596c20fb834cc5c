import Dreamos64.Arch.Madt
import Dreamos64.Arch.UserSupervisor

/-!
# Dreamos64 — addresses moved to the higher half

`ensure_address_in_higher_half` of `vm.c` adds an offset and a page of padding to an address,
unless the address is above their sum: then it is taken for one that was moved before. The sum
itself is the image of address 0, and is not above itself.

* `toNat_ensureAddressInHigherHalf` — what is returned, for every address;
* `higher_half_relocation_iff`      — which physical addresses are moved once and for all.
-/

namespace Dreamos64

/-- Where the image of address 0 is: the offset of the type and the padding. -/
def windowStart (m : PageMode) (type : UInt8) : Nat :=
  (if type = vmTypeMemory then higherHalfAddressOffset else mmioHigherHalfAddressOffset) +
    pageSizeInBytes m

/-- A physical address and its image, among the physical addresses below `2 ^ 46`. -/
structure Relocated (m : PageMode) (type : UInt8) (address : UInt64) : Prop where
  canonical : Canonical (ensureAddressInHigherHalf m address type).toNat
  higher    : isAddressHigherHalf (ensureAddressInHigherHalf m address type).toNat = true
  offset    : (ensureAddressInHigherHalf m address type).toNat % pageSizeInBytes m =
    address.toNat % pageSizeInBytes m
  injective : ∀ other : UInt64, other.toNat < 2 ^ 46 →
    ensureAddressInHigherHalf m other type = ensureAddressInHigherHalf m address type →
    other = address
  again     : ensureAddressInHigherHalf m (ensureAddressInHigherHalf m address type) type =
    ensureAddressInHigherHalf m address type

section Relocation

variable {m : PageMode} {type : UInt8} {address : UInt64}

/-- The images of all physical addresses fit between the window's start and the end of the
address space. -/
theorem windowStart_bounds (m : PageMode) (type : UInt8) :
    2 ^ 64 - 2 ^ 47 ≤ windowStart m type ∧ windowStart m type + 2 ^ 46 ≤ 2 ^ 64 ∧
      windowStart m type % pageSizeInBytes m = 0 := by
  unfold windowStart
  split_ifs <;> cases m <;> decide

variable (htype : type = vmTypeMemory ∨ type = vmTypeMmio)

include htype

/-- For a type that is known, both branches are about the window's start. -/
theorem ensureAddressInHigherHalf_eq (address : UInt64) :
    ensureAddressInHigherHalf m address type =
      if address > (windowStart m type).toUInt64 then address
      else address + (windowStart m type).toUInt64 := by
  have hsum (a b : Nat) : (a + b).toUInt64 = a.toUInt64 + b.toUInt64 := UInt64.ofNat_add a b
  unfold ensureAddressInHigherHalf windowStart
  dsimp only
  rcases htype with rfl | rfl
  · rw [if_pos rfl, if_pos rfl, hsum, UInt64.add_assoc]
  · have hmmio : vmTypeMmio ≠ vmTypeMemory := by decide
    rw [if_neg hmmio, if_pos rfl, if_neg hmmio, hsum, UInt64.add_assoc]

/-- **What is returned**, for every address. -/
theorem toNat_ensureAddressInHigherHalf (address : UInt64) :
    (ensureAddressInHigherHalf m address type).toNat =
      if windowStart m type < address.toNat then address.toNat
      else (address.toNat + windowStart m type) % 2 ^ 64 := by
  obtain ⟨-, hfits, -⟩ := windowStart_bounds m type
  have hstart : (windowStart m type).toUInt64.toNat = windowStart m type :=
    Nat.mod_eq_of_lt (by omega)
  rw [ensureAddressInHigherHalf_eq htype]
  by_cases habove : windowStart m type < address.toNat
  · rw [if_pos habove, if_pos (UInt64.lt_iff_toNat_lt.mpr (by rwa [hstart]))]
  · rw [if_neg habove, if_neg, UInt64.toNat_add, hstart]
    rw [gt_iff_lt, UInt64.lt_iff_toNat_lt, hstart]
    exact habove

/-- A physical address is moved without wrapping. -/
theorem toNat_relocated (haddress : address.toNat < 2 ^ 46) :
    (ensureAddressInHigherHalf m address type).toNat = address.toNat + windowStart m type := by
  obtain ⟨hlow, hfits, -⟩ := windowStart_bounds m type
  rw [toNat_ensureAddressInHigherHalf htype, if_neg (by omega), Nat.mod_eq_of_lt (by omega)]

end Relocation

/-- **Relocation.** A physical address has an image in the higher half, with the offset in its
page, that no other one has and that is not moved again, if and only if it is not 0: the image of
0 is not above the bound that it is compared with, and is moved a second time. -/
theorem higher_half_relocation_iff (m : PageMode) (type : UInt8)
    (htype : type = vmTypeMemory ∨ type = vmTypeMmio) (address : UInt64)
    (haddress : address.toNat < 2 ^ 46) : Relocated m type address ↔ address ≠ 0 := by
  obtain ⟨hlow, hfits, hpage⟩ := windowStart_bounds m type
  have himage := toNat_relocated (m := m) htype haddress
  have hagain := toNat_ensureAddressInHigherHalf (m := m) htype
    (ensureAddressInHigherHalf m address type)
  rw [himage] at hagain
  constructor
  · rintro hmoved rfl
    have hsame := congrArg UInt64.toNat hmoved.again
    rw [himage, hagain, UInt64.toNat_zero, if_neg (by omega)] at hsame
    omega
  · intro hne
    have hpos : 0 < address.toNat := Nat.pos_of_ne_zero fun h => hne (UInt64.toNat_inj.mp h)
    have hcanonical : Canonical (ensureAddressInHigherHalf m address type).toNat :=
      Or.inr ⟨by omega, by omega⟩
    refine ⟨hcanonical, (higherHalf_iff hcanonical).mpr ?_, ?_, fun other hother heq => ?_, ?_⟩
    · unfold LowerHalf
      omega
    · rw [himage, Nat.add_mod, hpage, Nat.add_zero, Nat.mod_mod]
    · have hsum := congrArg UInt64.toNat heq
      rw [himage, toNat_relocated htype hother] at hsum
      exact UInt64.toNat_inj.mp (by omega)
    · refine UInt64.toNat_inj.mp ?_
      rw [hagain, himage, if_pos (by omega)]

theorem higher_half_relocation_mmio :
    Relocated .large vmTypeMmio 0x100000 ∧
      ensureAddressInHigherHalf .large 0x100000 vmTypeMmio = 0xffff800000300000 :=
  ⟨(higher_half_relocation_iff .large vmTypeMmio (Or.inr rfl) 0x100000 (by decide)).mpr
    (by decide), by decide⟩

/-- Address 0 is moved to the bound itself, and from there to an address that is not canonical. -/
theorem address_zero_relocated_twice :
    ensureAddressInHigherHalf .large 0 vmTypeMmio = 0xffff800000200000 ∧
      ensureAddressInHigherHalf .large (ensureAddressInHigherHalf .large 0 vmTypeMmio)
        vmTypeMmio = 0xffff000000400000 ∧
      ensureAddressInHigherHalf .large 0 vmTypeMemory = 0xffff800280200000 ∧
      ensureAddressInHigherHalf .large (ensureAddressInHigherHalf .large 0 vmTypeMemory)
        vmTypeMemory = 0xffff000500400000 := by
  decide

end Dreamos64
