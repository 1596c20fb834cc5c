import Dreamos64.Mem.FrameAccounting

/-!
# Dreamos64 — the bitmap as `_initialize_bitmap` leaves it

The rows are written by three pieces of code: a loop that zeroes all of them, a loop that
fills the first ones, and a shift for the row in between. `initializeRows` is these, on
whatever the memory held before.

The bytes that are set aside for the rows are computed apart from the number of rows.

* `initializeRows_eq`       — the three pieces give the rows of `initialRows`;
* `initialize_bitmap_exact` — the bits that are set are those of the reserved frames;
* `bitmap_region_fits`      — the region has room for the rows exactly if the number of
  frames leaves 56 or more in its last row.
-/

namespace Dreamos64

open Machine

/-! ## The rows -/

/-- `memory_map[i] = value`. -/
def storeRow (rows : List (BitVec 64)) (i : Nat) (value : BitVec 64) :
    Exec (List (BitVec 64)) :=
  if i < rows.length then .ok (rows.set i value) else .error .outOfBounds

/-- `count` turns of a loop that stores `value` into each row from `i` on. -/
def fillRows (value : BitVec 64) : Nat → Nat → List (BitVec 64) → Exec (List (BitVec 64))
  | 0, _, rows => .ok rows
  | count + 1, i, rows => do
    let rows ← storeRow rows i value
    fillRows value count (i + 1) rows

/-- What `_initialize_bitmap` does to the rows. -/
def initializeRows (numberOfEntries kernelEntries : Nat) (rows : List (BitVec 64)) :
    Exec (List (BitVec 64)) := do
  let rows ← fillRows 0#64 numberOfEntries 0 rows
  let numberOfBitmapRows := kernelEntries / bitmapRowBits
  let rows ← fillRows (~~~0#64) numberOfBitmapRows 0 rows
  storeRow rows numberOfBitmapRows
    (~~~(~~~0#64 <<< (kernelEntries - numberOfBitmapRows * bitmapRowBits)))

/-- The bytes that `_initialize_bitmap` asks `_mmap_determine_bitmap_region` for. -/
def bitmapRequest (m : PageMode) (memorySize : Nat) : Nat :=
  (memorySize / pageSizeInBytes m + 1) % 2 ^ 32 / 8 + 1

section Rows

variable {rows : List (BitVec 64)}

/-- A loop that stays inside the rows changes those it goes over. -/
theorem fillRows_spec (value : BitVec 64) (count : Nat) {i : Nat} (hfit : i + count ≤ rows.length) :
    ∃ rows', fillRows value count i rows = .ok rows' ∧ rows'.length = rows.length ∧
      ∀ j, rows'[j]? = if i ≤ j ∧ j < i + count then some value else rows[j]? := by
  -- the row at `i`, then the rows after it
  induction count generalizing i rows with
  | zero =>
    refine ⟨rows, rfl, rfl, fun j => ?_⟩
    rw [if_neg (by omega)]
  | succ count ih =>
    have hi : i < rows.length := by omega
    have hfit' : i + 1 + count ≤ (rows.set i value).length := by
      rw [List.length_set]
      omega
    obtain ⟨rows', hfill, hlen, hrows'⟩ := ih hfit'
    refine ⟨rows', ?_, by rw [hlen, List.length_set], fun j => ?_⟩
    · rw [fillRows, storeRow, if_pos hi, ok_bind, hfill]
    · -- the row at `i` is stored first and not touched again
      rw [hrows', List.getElem?_set]
      by_cases hj : i = j
      · subst hj
        rw [if_neg (by omega), if_pos rfl, if_pos hi, if_pos (by omega)]
      · rw [if_neg hj]
        by_cases hin : i + 1 ≤ j ∧ j < i + 1 + count
        · rw [if_pos hin, if_pos (by omega)]
        · rw [if_neg hin, if_neg (by omega)]

/-- **The loops meet at the row boundary.** -/
theorem initializeRows_eq {numberOfEntries kernelEntries : Nat}
    (hlen : rows.length = numberOfEntries)
    (hfit : kernelEntries / bitmapRowBits < numberOfEntries) :
    initializeRows numberOfEntries kernelEntries rows =
      .ok (initialRows numberOfEntries kernelEntries) := by
  -- the two loops, and then the row where the kernel ends
  obtain ⟨zeroed, hzero, hzlen, hzrows⟩ := fillRows_spec 0#64 numberOfEntries (i := 0)
    (show 0 + numberOfEntries ≤ rows.length by omega)
  obtain ⟨filled, hfill, hflen, hfrows⟩ := fillRows_spec (~~~0#64) (kernelEntries / bitmapRowBits)
    (i := 0) (show 0 + kernelEntries / bitmapRowBits ≤ zeroed.length by omega)
  unfold initializeRows
  rw [hzero, ok_bind]
  dsimp only
  rw [hfill, ok_bind, storeRow, if_pos (by omega)]
  refine congrArg Except.ok (List.ext_getElem? fun j => ?_)
  rw [List.getElem?_set, hfrows, hzrows]
  unfold initialRows
  rw [List.getElem?_map]
  by_cases hj : j < numberOfEntries
  · rw [List.getElem?_range hj]
    -- below the row where the kernel ends, that row, and above it
    by_cases hlow : j < kernelEntries / bitmapRowBits
    · rw [if_neg (by omega), if_pos (by omega)]
      exact congrArg some (if_pos hlow).symm
    · by_cases heq : kernelEntries / bitmapRowBits = j
      · rw [if_pos heq, if_pos (by omega)]
        refine congrArg some ?_
        dsimp only
        rw [if_neg hlow, if_pos heq.symm]
      · rw [if_neg heq, if_neg (by omega), if_pos (by omega)]
        refine congrArg some ?_
        dsimp only
        rw [if_neg hlow, if_neg fun h => heq h.symm]
  · rw [if_neg (by omega), if_neg (by omega), if_neg (by omega),
      List.getElem?_eq_none (by omega), List.getElem?_eq_none (by simpa using hj)]
    rfl

end Rows

/-! ## The whole function -/

section Whole

variable {m : PageMode} {memorySize top : Nat}

/-- Below `2 ^ 43` nothing is lost in the narrower variables. -/
theorem computeKernelEntries_eq (htop : top < 2 ^ 43) :
    computeKernelEntries m top = top / pageSizeInBytes m +
      if top % pageSizeInBytes m = 0 then 1 else 2 := by
  have hmod : top % 2 ^ 32 % pageSizeInBytes m = top % pageSizeInBytes m := by
    refine Nat.mod_mod_of_dvd _ ?_
    cases m <;> decide
  have hdiv : top / pageSizeInBytes m < 2 ^ 31 := by
    cases m <;> simp only [pageSizeInBytes] <;> omega
  unfold computeKernelEntries
  dsimp only
  rw [hmod]
  generalize top / pageSizeInBytes m = frames at hdiv ⊢
  by_cases hzero : top % pageSizeInBytes m = 0
  · rw [if_neg (not_not.mpr hzero), if_pos hzero]
    omega
  · rw [if_pos hzero, if_neg hzero]
    omega

/-- The frame of a byte below the end of the reserved area is reserved. -/
theorem frame_lt_computeKernelEntries (htop : top < 2 ^ 43) {a : Nat} (ha : a < top) :
    a / pageSizeInBytes m < computeKernelEntries m top := by
  rw [computeKernelEntries_eq htop]
  have hle : a / pageSizeInBytes m ≤ top / pageSizeInBytes m :=
    Nat.div_le_div_right (Nat.le_of_lt ha)
  split_ifs <;> omega

/-- **Initialisation is exact.** With a region for the bitmap that the direct map covers,
`_initialize_bitmap` returns. The rows are those that its loops write over any memory, the
bits that are set are the reserved frames, and they cover everything below the end of
the reserved area. -/
theorem initialize_bitmap_exact (m : PageMode) (memorySize top : Nat) (entries : List MmapEntry)
    (memorySizeInBytes region : Nat) (b : Bitmap) (htop : top < 2 ^ 43)
    (hfit : computeKernelEntries m top < 64 * entriesFor m memorySize)
    (hregion : mmapDetermineBitmapRegion top (bitmapRequest m memorySize) entries = .ok region)
    (hcovered : region < memorySizeInBytes) :
    ∃ b', initializeBitmap m entries memorySizeInBytes memorySize top b = .ok b' ∧
      b'.numberOfEntries = entriesFor m memorySize ∧
      (∀ rows : List (BitVec 64), rows.length = b'.numberOfEntries →
        initializeRows b'.numberOfEntries (computeKernelEntries m top) rows = .ok b'.memoryMap) ∧
      (∀ i < 64 * b'.numberOfEntries,
        (BitRows.test b'.memoryMap i = true ↔ i < computeKernelEntries m top)) ∧
      b'.usedFrames = computeKernelEntries m top ∧
      ∀ a < top, BitRows.test b'.memoryMap (a / pageSizeInBytes m) = true := by
  have hrow : computeKernelEntries m top / bitmapRowBits < entriesFor m memorySize := by
    unfold bitmapRowBits
    omega
  have hinit : initializeBitmap m entries memorySizeInBytes memorySize top b = .ok { b with
      memoryMap := initialRows (entriesFor m memorySize) (computeKernelEntries m top)
      numberOfEntries := entriesFor m memorySize
      bitmapSize := (memorySize / pageSizeInBytes m + 1) % 2 ^ 32
      usedFrames := computeKernelEntries m top } := by
    unfold bitmapRequest at hregion
    unfold initializeBitmap
    dsimp only
    rw [hregion, ok_bind, if_neg (Nat.not_le.mpr hcovered)]
    exact if_neg (Nat.not_le.mpr hrow)
  have htest (i : Nat) : BitRows.test (initialRows (entriesFor m memorySize)
      (computeKernelEntries m top)) i = true ↔ i < computeKernelEntries m top := by
    rw [initialRows_test hrow, decide_eq_true_eq]
  refine ⟨_, hinit, rfl, fun rows hlen => initializeRows_eq hlen hrow, fun i _ => htest i, rfl, ?_⟩
  intro a ha
  exact (htest _).mpr (frame_lt_computeKernelEntries htop ha)

/-- 4 MiB of memory, and the first 2 MiB reserved. -/
theorem initialize_bitmap_exact_small :
    ∃ b', initializeBitmap .large [⟨0, 0x400000, 1⟩] 0x400000 0x400000 0x200000
        ⟨[], 0, 0, 0, 0⟩ = .ok b' ∧
      b'.usedFrames = 2 ∧ BitRows.test b'.memoryMap 1 = true ∧
      BitRows.test b'.memoryMap 2 = false := by
  obtain ⟨b', hinit, hentries, -, htest, hused, -⟩ :=
    initialize_bitmap_exact .large 0x400000 0x200000 [⟨0, 0x400000, 1⟩] 0x400000 0x200000
      ⟨[], 0, 0, 0, 0⟩ (by decide) (by decide) (by decide) (by decide)
  have hkernel : computeKernelEntries .large 0x200000 = 2 := by decide
  have hrows : b'.numberOfEntries = 1 := hentries.trans (by decide)
  rw [hkernel, hrows] at htest
  refine ⟨b', hinit, hused.trans hkernel, (htest 1 (by decide)).mpr (by decide), ?_⟩
  exact Bool.eq_false_iff.mpr fun h => absurd ((htest 2 (by decide)).mp h) (by decide)

/-- The rows fit into what is asked for, and into what is reported so that it can be
reserved. -/
structure RegionFits (m : PageMode) (memorySize : Nat) : Prop where
  requested : 8 * entriesFor m memorySize ≤ bitmapRequest m memorySize
  reported  : ∀ {entries memorySizeInBytes top b b'},
    initializeBitmap m entries memorySizeInBytes memorySize top b = .ok b' →
      8 * b'.numberOfEntries ≤ (bitmapGetRegion b').2

/-- **The region has room for the rows** exactly if 56 or more of the frames are in the
last row. -/
theorem bitmap_region_fits (m : PageMode) (memorySize : Nat) :
    RegionFits m memorySize ↔ 56 ≤ (memorySize / pageSizeInBytes m + 1) % 64 := by
  have harith : 8 * entriesFor m memorySize ≤ bitmapRequest m memorySize ↔
      56 ≤ (memorySize / pageSizeInBytes m + 1) % 64 := by
    unfold entriesFor bitmapRequest
    omega
  constructor
  · intro h
    exact harith.mp h.requested
  · intro h
    refine ⟨harith.mpr h, fun hinit => ?_⟩
    obtain ⟨-, rfl⟩ := initializeBitmap_ok hinit
    exact harith.mpr h

/-- 4 MiB of memory: 3 frames, one row of 8 bytes, and 1 byte for it. -/
theorem bitmap_region_short : ¬ RegionFits .large 0x400000 := by
  intro h
  exact absurd h.requested (by decide)

end Whole

end Dreamos64
