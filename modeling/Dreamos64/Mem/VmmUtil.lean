import Mathlib.Algebra.GroupWithZero.Nat
import Mathlib.Tactic.Common

/-!
# Dreamos64 — page size and page arithmetic

`vmm_util.c` and the page-size switch of `bitmap.h`. The kernel is compiled
with one fixed page size, chosen by `SMALL_PAGES`; `PageMode` keeps both
builds. `size_t` arithmetic wraps at `2 ^ 64`.
-/

namespace Dreamos64

/-- `SMALL_PAGES`: `0` selects 2 MiB pages, `1` selects 4 KiB pages. -/
inductive PageMode where
  | large
  | small
  deriving DecidableEq, Repr

/-- `PAGE_SIZE_IN_BYTES`. -/
def pageSizeInBytes : PageMode → Nat
  | .large => 0x200000
  | .small => 0x1000

/-- `align_value_to_page`. -/
def alignValueToPage (m : PageMode) (value : Nat) : Nat :=
  (value + pageSizeInBytes m - 1) % 2 ^ 64 / pageSizeInBytes m * pageSizeInBytes m

/-- `get_number_of_pages_from_size`. -/
def getNumberOfPagesFromSize (m : PageMode) (length : Nat) : Nat :=
  alignValueToPage m length / pageSizeInBytes m

/-- `align_up`. -/
def alignUp (value alignment : Nat) : Nat :=
  (value + alignment - 1) % 2 ^ 64 / alignment * alignment

/-- `is_address_aligned`. -/
def isAddressAligned (value alignment : Nat) : Bool := value % alignment = 0

/-- `vm_parse_flags`: the flags without `VMM_FLAGS_ADDRESS_ONLY`. -/
def vmParseFlags (flags : Nat) : Nat := flags &&& (2 ^ 64 - 1 - 1 <<< 7)

theorem pageSizeInBytes_pos (m : PageMode) : 0 < pageSizeInBytes m := by
  cases m <;> decide

/-- `n` bytes rounded up to whole pages. -/
def wholePages (m : PageMode) (n : Nat) : Nat :=
  (n + pageSizeInBytes m - 1) / pageSizeInBytes m * pageSizeInBytes m

theorem le_wholePages (m : PageMode) (n : Nat) : n ≤ wholePages m n := by
  unfold wholePages
  cases m <;> simp only [pageSizeInBytes] <;> omega

/-- `align_value_to_page` where it does not wrap. -/
theorem alignValueToPage_eq {m : PageMode} {n : Nat} (hn : n + pageSizeInBytes m - 1 < 2 ^ 64) :
    alignValueToPage m n = wholePages m n := by
  rw [alignValueToPage, Nat.mod_eq_of_lt hn, wholePages]

/-- The pages of `n` bytes, where counting them does not wrap. -/
theorem page_mul_pages {m : PageMode} {n : Nat} (hn : n + pageSizeInBytes m - 1 < 2 ^ 64) :
    pageSizeInBytes m * getNumberOfPagesFromSize m n = wholePages m n := by
  rw [getNumberOfPagesFromSize, alignValueToPage_eq hn, wholePages,
    Nat.mul_div_cancel _ (pageSizeInBytes_pos m), Nat.mul_comm]

end Dreamos64
