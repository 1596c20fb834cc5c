import Dreamos64.Mem.Pmm
import Mathlib.Data.Finset.Interval
import Mathlib.Order.Interval.Finset.Nat

/-!
# Dreamos64 — what the memory manager does to the set of used frames

`Bitmap.used` is the abstract state: the set of frames whose bit is set. Each
operation is described once, by what it does to that set and to the counter
`used_frames`; everything later is about sets.

* `bitmapRequestFrame_spec`  — the frame found is not in use;
* `bitmapRequestFrames_spec` — the frames found are not in use, unless the run
  is `Spanned`: it crosses the start of a row that the search skips, or the
  65536 rows that a `uint16_t` can count;
* `pmmAllocFrame_spec`, `pmmAllocArea_spec`, `reserveBits_spec`,
  `bitmapFreeBit_spec` — the operations.
-/

namespace Dreamos64

open Machine

/-- The frames that are marked in use. -/
def Bitmap.used (b : Bitmap) : Finset Nat := BitRows.ones b.memoryMap

theorem mem_used {b : Bitmap} {f : Nat} : f ∈ b.used ↔ BitRows.test b.memoryMap f = true :=
  BitRows.mem_ones (by decide)

/-- The frames a `uint16_t` row counter can reach. -/
def searchLimit : Nat := 2 ^ 16 * bitmapRowBits

/-! ## Reading a row -/

section Rows

variable {rows : List (BitVec 64)} {bits : BitVec 64} {row column : Nat}

theorem columnFree_iff (hc : column < bitmapRowBits) :
    columnFree bits column = true ↔ bits.getLsbD column = false := by
  unfold bitmapRowBits at hc
  unfold columnFree
  rw [decide_eq_true_eq, ← BitVec.twoPow_eq]
  constructor
  · intro hzero
    have hbit := congrArg (fun v => BitVec.getLsbD v column) hzero
    simpa [hc] using hbit
  · intro hbit
    refine BitVec.eq_of_getLsbD_eq fun i hi => ?_
    rw [BitVec.getLsbD_and, BitVec.getLsbD_twoPow]
    by_cases hic : column = i
    · simp [← hic, hbit]
    · simp [hic]

/-- A column of a row is a frame. -/
theorem test_row (hrow : rows[row]? = some bits) (hc : column < bitmapRowBits) :
    BitRows.test rows (row * bitmapRowBits + column) = bits.getLsbD column := by
  unfold bitmapRowBits at *
  have hdiv : (row * 64 + column) / 64 = row := by omega
  have hmod : (row * 64 + column) % 64 = column := by omega
  unfold BitRows.test
  rw [hdiv, hmod, List.getD_eq_getElem?_getD, hrow]
  rfl

end Rows

/-! ## The searches -/

section Search

variable {b : Bitmap} {fuel n : Nat}

/-- **`_bitmap_request_frame` finds a free frame** in a row that it does not skip, or
gives -1. -/
theorem bitmapRequestFrame_found {frame : Int} (h : bitmapRequestFrame fuel b = .ok frame) :
    frame = -1 ∨ ∃ f : Nat, frame = f ∧ f < searchLimit ∧ f ∉ b.used ∧
      b.memoryMap[f / bitmapRowBits]? ≠ some bitmapEntryFull := by
  -- the row counter is a `uint16_t`, which bounds the frames that can be found
  refine loop_inv (fun row => row < 2 ^ 16)
    (fun frame : Int => frame = -1 ∨ ∃ f : Nat, frame = f ∧ f < searchLimit ∧ f ∉ b.used ∧
      b.memoryMap[f / bitmapRowBits]? ≠ some bitmapEntryFull) ?_ ?_ (by decide) h
  · intro row row' hrow hbody
    unfold requestFrameBody at hbody
    split_ifs at hbody
    · split at hbody
      · cases hbody
      · split_ifs at hbody
        · split at hbody <;> cases hbody
          exact Nat.mod_lt _ (by decide)
        · cases hbody
          exact Nat.mod_lt _ (by decide)
    · cases hbody
  · intro row frame hrow hbody
    unfold requestFrameBody at hbody
    split_ifs at hbody
    · split at hbody
      · cases hbody
      · next bits hbits =>
        split_ifs at hbody with hfull
        · split at hbody <;> cases hbody
          next column hfind =>
          have hcol : column < bitmapRowBits :=
            List.mem_range.mp (List.mem_of_find?_eq_some hfind)
          have hfree := (columnFree_iff hcol).mp (List.find?_some hfind)
          refine Or.inr ⟨_, rfl, ?_, ?_, ?_⟩
          · unfold searchLimit
            unfold bitmapRowBits at *
            omega
          · rw [mem_used, test_row hbits hcol, hfree]
            decide
          · have hdiv : (row * bitmapRowBits + column) / bitmapRowBits = row := by
              unfold bitmapRowBits at *
              omega
            rw [hdiv, hbits]
            exact fun heq => hfull (Option.some.inj heq)
        · cases hbody
    · cases hbody
      exact Or.inl rfl

theorem bitmapRequestFrame_spec {frame : Int} (h : bitmapRequestFrame fuel b = .ok frame) :
    frame = -1 ∨ ∃ f : Nat, frame = f ∧ f < searchLimit ∧ f ∉ b.used :=
  (bitmapRequestFrame_found h).imp_right fun ⟨f, hf, hlt, hfree, _⟩ => ⟨f, hf, hlt, hfree⟩

/-- The run of `n` frames from `start` crosses the start of a row that the
search skips, or leaves the rows it can count. -/
def Spanned (b : Bitmap) (start n : Nat) : Prop :=
  (∃ row, b.memoryMap[row]? = some bitmapEntryFull ∧
    start < row * bitmapRowBits ∧ row * bitmapRowBits < start + n) ∨
  searchLimit < start + n

theorem Spanned.mono {start k : Nat} (hs : Spanned b start n) (hk : n ≤ k) :
    Spanned b start k := by
  rcases hs with ⟨row, hrow, hlo, hhi⟩ | hs
  · exact Or.inl ⟨row, hrow, hlo, by omega⟩
  · exact Or.inr (by omega)

/-- The frame `start_row * BITMAP_ROW_BITS + start_column`. -/
def FrameSearch.start (s : FrameSearch) : Nat := s.startRow * bitmapRowBits + s.startColumn

/-- What the search for `n` frames knows when it is about to look at frame
`pos`: the frames it has counted end there and are free, or they already cross
something the search has not looked at. -/
structure SearchInv (b : Bitmap) (n pos : Nat) (s : FrameSearch) : Prop where
  fewer : s.adjacentsFound < n
  below : 0 < s.adjacentsFound → s.start < searchLimit
  run   : 0 < s.adjacentsFound →
    (s.start + s.adjacentsFound = pos ∧ ∀ f, s.start ≤ f → f < pos → f ∉ b.used) ∨
    Spanned b s.start (s.adjacentsFound + 1)

/-- What the search promises of the frame it returns. -/
def Found (b : Bitmap) (n : Nat) (frame : Int) : Prop :=
  ∃ start : Nat, frame = start ∧ start < searchLimit ∧
    ((∀ f, start ≤ f → f < start + n → f ∉ b.used) ∨ Spanned b start n)

/-- A frame in use starts the count again. -/
theorem SearchInv.reset {pos pos' : Nat} {s : FrameSearch} (hs : SearchInv b n pos s) :
    SearchInv b n pos' { s with adjacentsFound := 0 } where
  fewer := Nat.lt_of_le_of_lt (Nat.zero_le _) hs.fewer
  below := fun hpos => absurd hpos (Nat.lt_irrefl 0)
  run   := fun hpos => absurd hpos (Nat.lt_irrefl 0)

/-- The search state after counting the free frame at `row`, `column`. -/
def FrameSearch.advance (s : FrameSearch) (row column : Nat) : FrameSearch :=
  { (if s.adjacentsFound = 0 then { s with startRow := row, startColumn := column } else s) with
    adjacentsFound := s.adjacentsFound + 1 }

theorem FrameSearch.start_advance (s : FrameSearch) (row column : Nat) :
    (s.advance row column).start =
      if s.adjacentsFound = 0 then row * bitmapRowBits + column else s.start := by
  unfold FrameSearch.advance FrameSearch.start
  split_ifs <;> rfl

/-- A free frame extends the run, or begins one. -/
theorem SearchInv.advance {s : FrameSearch} {row column : Nat} (hrow : row < 2 ^ 16)
    (hc : column < bitmapRowBits) (hs : SearchInv b n (row * bitmapRowBits + column) s)
    (hfree : row * bitmapRowBits + column ∉ b.used) :
    (s.advance row column).start < searchLimit ∧
      (((s.advance row column).start + (s.adjacentsFound + 1) = row * bitmapRowBits + column + 1 ∧
        ∀ f, (s.advance row column).start ≤ f → f < row * bitmapRowBits + column + 1 →
          f ∉ b.used) ∨
      Spanned b (s.advance row column).start (s.adjacentsFound + 1)) := by
  rw [FrameSearch.start_advance]
  by_cases hzero : s.adjacentsFound = 0
  · rw [if_pos hzero, hzero]
    refine ⟨?_, Or.inl ⟨rfl, fun f hlo hhi => ?_⟩⟩
    · unfold searchLimit
      unfold bitmapRowBits at *
      omega
    · obtain rfl : f = row * bitmapRowBits + column := by omega
      exact hfree
  · have hpos : 0 < s.adjacentsFound := Nat.pos_of_ne_zero hzero
    rw [if_neg hzero]
    refine ⟨hs.below hpos, ?_⟩
    rcases hs.run hpos with ⟨hend, hclear⟩ | hspan
    · refine Or.inl ⟨by omega, fun f hlo hhi => ?_⟩
      by_cases hf : f = row * bitmapRowBits + column
      · exact hf ▸ hfree
      · exact hclear f hlo (by omega)
    · exact Or.inr hspan

/-- With that, the frame where the run starts is free, whatever lies behind it. -/
structure Searching (b : Bitmap) (n pos : Nat) (s : FrameSearch) : Prop extends
    SearchInv b n pos s where
  start : 0 < s.adjacentsFound → s.start ∉ b.used

/-- The column loop at a free frame. -/
theorem scanColumns_free {row column : Nat} {bits : BitVec 64} {columns : List Nat}
    {s : FrameSearch} (hcol : columnFree bits column = true)
    (hfits : s.adjacentsFound + 1 < 2 ^ 64) :
    scanColumns n row bits (column :: columns) s =
      if s.adjacentsFound + 1 = n then .done ((s.advance row column).start : Nat)
      else scanColumns n row bits columns (s.advance row column) := by
  have hmod : (s.adjacentsFound + 1) % 2 ^ 64 = s.adjacentsFound + 1 := Nat.mod_eq_of_lt hfits
  rw [scanColumns, if_pos hcol]
  unfold FrameSearch.advance FrameSearch.start
  by_cases hzero : s.adjacentsFound = 0
  · simp [hzero]
  · simp only [hzero, if_false, hmod]

/-- **The column loop.** From `column` to the end of the row. -/
theorem scanColumns_spec {row : Nat} {bits : BitVec 64} (hn : n < 2 ^ 64) (hrow : row < 2 ^ 16)
    (hbits : b.memoryMap[row]? = some bits) (left column : Nat)
    (hleft : column + left = bitmapRowBits) (s : FrameSearch)
    (hs : Searching b n (row * bitmapRowBits + column) s) :
    match scanColumns n row bits (List.range' column left) s with
    | .next s' => Searching b n ((row + 1) * bitmapRowBits) s'
    | .done frame => Found b n frame ∧ ∃ start : Nat, frame = start ∧ start ∉ b.used := by
  -- on the columns that are left; `Searching` says what is known of the run so far
  induction left generalizing column s with
  | zero =>
    have hend : (row + 1) * bitmapRowBits = row * bitmapRowBits + column := by
      rw [Nat.add_mul, Nat.one_mul]
      omega
    rw [hend]
    exact hs
  | succ left ih =>
    have hc : column < bitmapRowBits := by omega
    rw [List.range'_succ]
    by_cases hcol : columnFree bits column = true
    · have hfree : row * bitmapRowBits + column ∉ b.used := by
        rw [mem_used, test_row hbits hc, (columnFree_iff hc).mp hcol]
        decide
      obtain ⟨hlt, hrun⟩ := hs.advance hrow hc hfree
      have hstart : (s.advance row column).start ∉ b.used := by
        rw [FrameSearch.start_advance]
        split_ifs with hzero
        · exact hfree
        · exact hs.start (Nat.pos_of_ne_zero hzero)
      have hfewer := hs.fewer
      rw [scanColumns_free hcol (by omega)]
      by_cases hdone : s.adjacentsFound + 1 = n
      · rw [if_pos hdone]
        rw [hdone] at hrun
        refine ⟨⟨_, rfl, hlt, hrun.imp_left fun ⟨hend, hclear⟩ f hlo hhi => ?_⟩, _, rfl, hstart⟩
        exact hclear f hlo (by omega)
      · rw [if_neg hdone]
        have hadj : (s.advance row column).adjacentsFound = s.adjacentsFound + 1 := rfl
        refine ih (column + 1) (by omega) _ ⟨⟨by omega, fun _ => hlt, fun _ => ?_⟩, fun _ => hstart⟩
        rw [hadj]
        exact hrun.imp_right fun hspan => hspan.mono (by omega)
    · rw [scanColumns, if_neg hcol]
      exact ih (column + 1) (by omega) _ ⟨hs.reset, fun hpos => absurd hpos (Nat.lt_irrefl 0)⟩

/-- The column loop over a whole row. -/
theorem scanRow_spec {row : Nat} {bits : BitVec 64} (hn : n < 2 ^ 64) (hrow : row < 2 ^ 16)
    (hbits : b.memoryMap[row]? = some bits) (s : FrameSearch)
    (hs : Searching b n (row * bitmapRowBits) s) :
    match scanColumns n row bits (List.range bitmapRowBits) s with
    | .next s' => Searching b n ((row + 1) * bitmapRowBits) s'
    | .done frame => Found b n frame ∧ ∃ start : Nat, frame = start ∧ start ∉ b.used := by
  rw [List.range_eq_range']
  exact scanColumns_spec hn hrow hbits bitmapRowBits 0 (Nat.zero_add _) s hs

/-- A skipped row, and the step from the last row a `uint16_t` can count to row
0: an unfinished run becomes one that spans what was not looked at. -/
theorem SearchInv.skip {pos pos' : Nat} {s : FrameSearch} (hs : SearchInv b n pos s)
    (hgap : (∃ row, b.memoryMap[row]? = some bitmapEntryFull ∧ pos = row * bitmapRowBits) ∨
      pos = searchLimit) : SearchInv b n pos' s := by
  refine ⟨hs.fewer, hs.below, fun hpos => Or.inr ?_⟩
  rcases hs.run hpos with ⟨hend, -⟩ | hspan
  · rcases hgap with ⟨row, hrow, rfl⟩ | rfl
    · exact Or.inl ⟨row, hrow, by omega, by omega⟩
    · exact Or.inr (by omega)
  · exact hspan

/-- From the end of a row to the row the loop looks at next. -/
theorem SearchInv.nextRow {row : Nat} {s : FrameSearch} (hrow : row < 2 ^ 16)
    (hs : SearchInv b n ((row + 1) * bitmapRowBits) s) :
    SearchInv b n (nextRow row * bitmapRowBits) s := by
  unfold Dreamos64.nextRow
  by_cases hlast : row + 1 = 2 ^ 16
  · exact hs.skip (Or.inr (by rw [hlast]; rfl))
  · rw [Nat.mod_eq_of_lt (by omega)]
    exact hs

/-- One turn of the row loop. -/
theorem requestFramesBody_spec {row : Nat} {s : FrameSearch}
    {r : LoopStep (Nat × FrameSearch) Int} (hn : n < 2 ^ 64) (hrow : row < 2 ^ 16)
    (hs : Searching b n (row * bitmapRowBits) s) (hbody : requestFramesBody b n (row, s) = .ok r) :
    match r with
    | .next (row', s') => row' < 2 ^ 16 ∧ Searching b n (row' * bitmapRowBits) s'
    | .done frame => frame = -1 ∨
      Found b n frame ∧ ∃ start : Nat, frame = start ∧ start ∉ b.used := by
  have hnext : nextRow row < 2 ^ 16 := Nat.mod_lt _ (by decide)
  simp only [requestFramesBody] at hbody
  split_ifs at hbody
  · split at hbody
    · cases hbody
    · next bits hbits =>
      split_ifs at hbody with hfull
      · have hscan := scanRow_spec hn hrow hbits s hs
        split at hbody <;> next hres =>
          cases hbody
          rw [hres] at hscan
          first
          | exact Or.inr hscan
          | exact ⟨hnext, hscan.nextRow hrow, hscan.start⟩
      · cases hbody
        have hfull : bits = bitmapEntryFull := not_not.mp hfull
        exact ⟨hnext, hs.skip (Or.inl ⟨row, hfull ▸ hbits, rfl⟩), hs.start⟩
  · cases hbody
    exact Or.inl rfl

/-- **`_bitmap_request_frames` finds free frames**, gives -1, or returns a run
that is `Spanned`, but starts with a free frame. -/
theorem bitmapRequestFrames_spec {frame : Int} (hpos : 0 < n) (hn : n < 2 ^ 64)
    (h : bitmapRequestFrames fuel n b = .ok frame) :
    frame = -1 ∨ Found b n frame ∧ ∃ start : Nat, frame = start ∧ start ∉ b.used := by
  refine loop_inv
    (fun rs : Nat × FrameSearch => rs.1 < 2 ^ 16 ∧ Searching b n (rs.1 * bitmapRowBits) rs.2)
    (fun frame => frame = -1 ∨ Found b n frame ∧ ∃ start : Nat, frame = start ∧ start ∉ b.used)
    ?_ ?_ ⟨by decide, ?_⟩ h
  · rintro ⟨row, s⟩ ⟨row', s'⟩ ⟨hrow, hs⟩ hbody
    exact requestFramesBody_spec hn hrow hs hbody
  · rintro ⟨row, s⟩ frame ⟨hrow, hs⟩ hbody
    exact requestFramesBody_spec hn hrow hs hbody
  · -- nothing is counted yet
    have hnone {P : Prop} (h0 : 0 < 0) : P := absurd h0 (Nat.lt_irrefl 0)
    exact ⟨⟨hpos, hnone, hnone⟩, hnone⟩

end Search

/-! ## The operations -/

/-- Everything but the bits and the counter. -/
structure SameShape (b b' : Bitmap) : Prop where
  rows    : b'.memoryMap.length = b.memoryMap.length
  entries : b'.numberOfEntries = b.numberOfEntries
  size    : b'.bitmapSize = b.bitmapSize
  region  : b'.memoryMapPhysAddr = b.memoryMapPhysAddr

theorem SameShape.refl (b : Bitmap) : SameShape b b := ⟨rfl, rfl, rfl, rfl⟩

theorem SameShape.trans {b₁ b₂ b₃ : Bitmap} (h : SameShape b₁ b₂) (h' : SameShape b₂ b₃) :
    SameShape b₁ b₃ :=
  ⟨h'.rows.trans h.rows, h'.entries.trans h.entries, h'.size.trans h.size,
    h'.region.trans h.region⟩

/-- What an operation does: the set of used frames and the counter afterwards. -/
structure Becomes (b b' : Bitmap) (frames : Finset Nat) (counter : Nat) : Prop where
  used  : b'.used = frames
  count : b'.usedFrames = counter
  shape : SameShape b b'

theorem Becomes.addUsed {b b' : Bitmap} {frames : Finset Nat} {counter : Nat}
    (h : Becomes b b' frames counter) (n : Nat) :
    Becomes b (b'.addUsed n) frames ((counter + n) % 2 ^ 32) where
  used  := h.used
  count := by rw [← h.count, Bitmap.addUsed]
  shape := ⟨h.shape.rows, h.shape.entries, h.shape.size, h.shape.region⟩

theorem Becomes.dropUsed {b b' : Bitmap} {frames : Finset Nat} {counter : Nat}
    (h : Becomes b b' frames counter) :
    Becomes b b'.dropUsed frames ((counter + 2 ^ 32 - 1) % 2 ^ 32) := by
  have hused : b'.dropUsed.used = b'.used := by
    unfold Bitmap.used Bitmap.dropUsed
    rfl
  have hshape : SameShape b' b'.dropUsed := by
    unfold Bitmap.dropUsed
    constructor <;> rfl
  refine ⟨hused.trans h.used, ?_, h.shape.trans hshape⟩
  rw [← h.count, Bitmap.dropUsed]

section Operations

variable {m : PageMode} {b b' : Bitmap} {fuel n location a size : Nat}

theorem bitmapSetBit_spec (h : bitmapSetBit location b = .ok b') :
    Becomes b b' (insert location b.used) b.usedFrames := by
  unfold bitmapSetBit at h
  split_ifs at h with hrow
  cases h
  exact ⟨BitRows.ones_set (by decide) hrow, rfl, BitRows.length_set, rfl, rfl, rfl⟩

theorem bitmapFreeBit_spec (h : bitmapFreeBit location b = .ok b') :
    Becomes b b' (b.used.erase location) b.usedFrames := by
  unfold bitmapFreeBit at h
  split_ifs at h with hrow
  cases h
  exact ⟨BitRows.ones_clear (by decide) hrow, rfl, BitRows.length_clear, rfl, rfl, rfl⟩

theorem bitmapTestBit_spec {v : Bool} (h : bitmapTestBit location b = .ok v) :
    v = true ↔ location ∈ b.used := by
  unfold bitmapTestBit at h
  split_ifs at h
  cases h
  exact mem_used.symm

/-- Marking a frame and then the `n` frames after it. -/
theorem insert_union_Ico (frames : Finset Nat) (location n : Nat) :
    insert location frames ∪ Finset.Ico (location + 1) (location + 1 + n) =
      frames ∪ Finset.Ico location (location + (n + 1)) := by
  ext f
  simp only [Finset.mem_union, Finset.mem_insert, Finset.mem_Ico]
  by_cases hf : f = location
  · simp [hf]
  · have hrange : location + 1 ≤ f ∧ f < location + 1 + n ↔
        location ≤ f ∧ f < location + (n + 1) := by omega
    simp only [hf, false_or, hrange]

/-- The loop of `pmm_alloc_area` marks the frames it is told to. -/
theorem setBits_spec (hfits : location + n ≤ 2 ^ 64) (h : setBits location n b = .ok b') :
    Becomes b b' (b.used ∪ Finset.Ico location (location + n)) b.usedFrames := by
  -- the bit at `location`, then the bits after it
  induction n generalizing location b with
  | zero =>
    cases h
    exact ⟨by simp, rfl, .refl _⟩
  | succ n ih =>
    obtain ⟨b₁, hset, h⟩ := bind_inv h
    rw [Nat.mod_eq_of_lt (by omega)] at hset
    have h₁ := bitmapSetBit_spec hset
    have h₂ := ih (by omega) h
    refine ⟨?_, h₂.count.trans h₁.count, h₁.shape.trans h₂.shape⟩
    rw [h₂.used, h₁.used, insert_union_Ico]

/-- The bitmap and its counter are never larger than a `uint32_t` can count. -/
structure Sized (b : Bitmap) : Prop where
  rows    : b.memoryMap.length ≤ 2 ^ 26
  counter : b.usedFrames < 2 ^ 32

theorem Becomes.sized {frames : Finset Nat} {counter : Nat} (h : Becomes b b' frames counter)
    (hsized : Sized b) (hcounter : counter < 2 ^ 32) : Sized b' :=
  ⟨h.shape.rows.trans_le hsized.rows, h.count.trans_lt hcounter⟩

/-- The bit that -1 stands for is not in the bitmap. -/
theorem not_setBit_minusOne (hsized : Sized b) : bitmapSetBit (asUint64 (-1)) b ≠ .ok b' := by
  intro h
  unfold bitmapSetBit at h
  split_ifs at h with hrow
  have hrow' : asUint64 (-1) / bitmapRowBits = 2 ^ 58 - 1 := by decide
  have hrows := hsized.rows
  omega

theorem asUint64_natCast {f : Nat} (hf : f < 2 ^ 64) : asUint64 (f : Int) = f := by
  unfold asUint64
  omega

/-- The address of a frame that the searches can return. -/
theorem frame_address {f : Nat} (hf : f < searchLimit) :
    f * pageSizeInBytes m % 2 ^ 64 = f * pageSizeInBytes m := by
  have hlimit : searchLimit = 2 ^ 22 := by decide
  refine Nat.mod_eq_of_lt ?_
  cases m <;> simp only [pageSizeInBytes] <;> omega

/-- **`pmm_alloc_frame`** fails without effect or takes a frame that was free. -/
theorem pmmAllocFrame_spec (hsized : Sized b) (h : pmmAllocFrame m fuel b = .ok (a, b')) :
    (a = 0 ∧ b' = b) ∨ ∃ f, 0 < f ∧ f ∉ b.used ∧ a = f * pageSizeInBytes m ∧
      Becomes b b' (insert f b.used) ((b.usedFrames + 1) % 2 ^ 32) := by
  unfold pmmAllocFrame at h
  split_ifs at h
  · cases h
    exact Or.inl ⟨rfl, rfl⟩
  obtain ⟨frame, hreq, h⟩ := bind_inv h
  simp only at h
  split_ifs at h with hpos
  · obtain ⟨b₁, hset, h⟩ := bind_inv h
    cases h
    rcases bitmapRequestFrame_spec hreq with rfl | ⟨f, rfl, hlim, hfree⟩
    · exact absurd hset (not_setBit_minusOne hsized)
    have hlimit : searchLimit = 2 ^ 22 := by decide
    rw [asUint64_natCast (by omega)] at hset hpos ⊢
    exact Or.inr ⟨f, hpos, hfree, frame_address hlim, (bitmapSetBit_spec hset).addUsed 1⟩
  · cases h
    exact Or.inl ⟨rfl, rfl⟩

theorem getNumberOfPagesFromSize_lt (m : PageMode) (size : Nat) :
    getNumberOfPagesFromSize m size < 2 ^ 53 := by
  unfold getNumberOfPagesFromSize alignValueToPage
  cases m <;> simp only [pageSizeInBytes] <;> omega

/-- **`pmm_alloc_area`** fails without effect or takes the frames it asked for;
they were free unless their run is `Spanned`. -/
theorem pmmAllocArea_spec (hsized : Sized b) (h : pmmAllocArea m fuel size b = .ok (a, b')) :
    (a = 0 ∧ b' = b) ∨ ∃ start,
      (0 < getNumberOfPagesFromSize m size → a = start * pageSizeInBytes m ∧
        pmmCheckFrameAvailability b = true ∧
        bitmapRequestFrames fuel (getNumberOfPagesFromSize m size) b = .ok (start : Nat) ∧
        ((∀ f, start ≤ f → f < start + getNumberOfPagesFromSize m size → f ∉ b.used) ∨
          Spanned b start (getNumberOfPagesFromSize m size))) ∧
      Becomes b b' (b.used ∪ Finset.Ico start (start + getNumberOfPagesFromSize m size))
        ((b.usedFrames + getNumberOfPagesFromSize m size) % 2 ^ 32) := by
  unfold pmmAllocArea at h
  have hpages := getNumberOfPagesFromSize_lt m size
  generalize getNumberOfPagesFromSize m size = pages at h hpages ⊢
  simp only at h
  split_ifs at h with havail
  · cases h
    exact Or.inl ⟨rfl, rfl⟩
  obtain ⟨frame, hreq, h⟩ := bind_inv h
  obtain ⟨b₁, hset, h⟩ := bind_inv h
  cases h
  right
  rcases Nat.eq_zero_or_pos pages with rfl | hpos
  · cases hset
    have h₁ : Becomes b b (b.used ∪ Finset.Ico 0 (0 + 0)) b.usedFrames := ⟨by simp, rfl, .refl b⟩
    exact ⟨0, fun h0 => absurd h0 (Nat.lt_irrefl 0), h₁.addUsed 0⟩
  rcases bitmapRequestFrames_spec hpos (by omega) hreq with
    rfl | ⟨⟨start, rfl, hlim, hfound⟩, -⟩
  · -- the first bit to be set is out of bounds
    obtain ⟨k, rfl⟩ : ∃ k, pages = k + 1 := ⟨pages - 1, by omega⟩
    obtain ⟨b₂, hfirst, -⟩ := bind_inv hset
    rw [Nat.mod_eq_of_lt (by decide)] at hfirst
    exact absurd hfirst (not_setBit_minusOne hsized)
  have hlimit : searchLimit = 2 ^ 22 := by decide
  rw [asUint64_natCast (by omega)] at hset ⊢
  exact ⟨start, fun _ => ⟨frame_address hlim, by simpa using havail, hreq, hfound⟩,
    (setBits_spec (by omega) hset).addUsed _⟩

/-- **`pmm_reserve_area`** marks the frames from its start up to the first one
that is already in use, and goes no further. -/
theorem reserveBits_spec (hcount : b.usedFrames < 2 ^ 32)
    (h : reserveBits n location b = .ok b') :
    ∃ k ≤ n, (∀ f, location ≤ f → f < location + k → f ∉ b.used) ∧
      (k < n → location + k ∈ b.used) ∧
      Becomes b b' (b.used ∪ Finset.Ico location (location + k))
        ((b.usedFrames + k) % 2 ^ 32) := by
  -- the turns after a bit that is set all look at that bit again
  induction n generalizing location b with
  | zero =>
    cases h
    refine ⟨0, le_rfl, by omega, by omega, by simp, ?_, .refl _⟩
    rw [Nat.add_zero, Nat.mod_eq_of_lt hcount]
  | succ n ih =>
    obtain ⟨v, htest, h⟩ := bind_inv h
    have hv := bitmapTestBit_spec htest
    cases v with
    | true =>
      -- stuck here for the remaining turns
      obtain ⟨k, hk, hclear, hstop, hbec⟩ := ih hcount h
      have hused : location ∈ b.used := hv.mp rfl
      obtain rfl : k = 0 := by
        by_contra hne
        exact hclear location le_rfl (by omega) hused
      exact ⟨0, Nat.zero_le _, hclear, fun _ => hused, hbec⟩
    | false =>
      have hfree : location ∉ b.used := fun hin => Bool.false_ne_true (hv.mpr hin)
      obtain ⟨b₁, hset, h⟩ := bind_inv h
      have h₁ := (bitmapSetBit_spec hset).addUsed 1
      obtain ⟨k, hk, hclear, hstop, hbec⟩ := ih (h₁.count ▸ Nat.mod_lt _ (by decide)) h
      rw [h₁.used, h₁.count] at hbec
      rw [h₁.used] at hclear hstop
      refine ⟨k + 1, by omega, fun f hlo hhi hin => ?_, fun hlt => ?_, ?_, ?_, ?_⟩
      · by_cases hf : f = location
        · exact hfree (hf ▸ hin)
        · exact hclear f (by omega) (by omega) (Finset.mem_insert_of_mem hin)
      · have hin := Finset.mem_insert.mp (hstop (by omega))
        rw [show location + (k + 1) = location + 1 + k by omega]
        exact hin.resolve_left (by omega)
      · rw [hbec.used, insert_union_Ico]
      · rw [hbec.count]
        omega
      · exact h₁.shape.trans hbec.shape

/-- The loop of `pmm_free_area` frees one frame, however often it turns, and every turn takes
one off the count. -/
theorem freeBits_spec (h : freeBits location (n + 1) b = .ok b') :
    Becomes b b' (b.used.erase location) ((b.usedFrames + (2 ^ 32 - 1) * (n + 1)) % 2 ^ 32) := by
  -- every turn clears the same bit and lowers the count
  induction n generalizing b with
  | zero =>
    obtain ⟨b₁, hbit, h⟩ := bind_inv h
    cases h
    have h₁ := (bitmapFreeBit_spec hbit).dropUsed
    refine ⟨h₁.used, h₁.count.trans ?_, h₁.shape⟩
    omega
  | succ n ih =>
    obtain ⟨b₁, hbit, h⟩ := bind_inv h
    have h₁ := (bitmapFreeBit_spec hbit).dropUsed
    have h₂ := ih h
    refine ⟨?_, ?_, h₁.shape.trans h₂.shape⟩
    · rw [h₂.used, h₁.used, Finset.erase_idem]
    · rw [h₂.count, h₁.count]
      omega

end Operations

/-! ## Setup -/

section Setup

variable {m : PageMode} {b b' : Bitmap} {entries : List MmapEntry}
  {memorySizeInBytes memorySize top : Nat}

/-- `number_of_entries` for a memory size. -/
def entriesFor (m : PageMode) (memorySize : Nat) : Nat :=
  (memorySize / pageSizeInBytes m + 1) % 2 ^ 32 / 64 + 1

/-- When `_initialize_bitmap` returns, and what it leaves. -/
theorem initializeBitmap_ok
    (h : initializeBitmap m entries memorySizeInBytes memorySize top b = .ok b') :
    computeKernelEntries m top / bitmapRowBits < entriesFor m memorySize ∧
    b' = { b with
      memoryMap := initialRows (entriesFor m memorySize) (computeKernelEntries m top)
      numberOfEntries := entriesFor m memorySize
      bitmapSize := (memorySize / pageSizeInBytes m + 1) % 2 ^ 32
      usedFrames := computeKernelEntries m top } := by
  unfold initializeBitmap at h
  obtain ⟨region, -, h⟩ := bind_inv h
  dsimp only at h
  split_ifs at h with hnull hrow
  cases h
  exact ⟨Nat.lt_of_not_le hrow, rfl⟩

theorem initialRows_length (n k : Nat) : (initialRows n k).length = n := by
  simp [initialRows]

theorem computeKernelEntries_lt (m : PageMode) (top : Nat) :
    computeKernelEntries m top < 2 ^ 32 := by
  unfold computeKernelEntries
  dsimp only
  split_ifs <;> exact Nat.mod_lt _ (by decide)

theorem initializeBitmap_sized
    (h : initializeBitmap m entries memorySizeInBytes memorySize top b = .ok b') : Sized b' := by
  obtain ⟨-, rfl⟩ := initializeBitmap_ok h
  refine ⟨?_, computeKernelEntries_lt m top⟩
  unfold entriesFor
  rw [initialRows_length]
  omega

theorem reserveBits_sized {n location : Nat} (hb : Sized b)
    (h : reserveBits n location b = .ok b') : Sized b' := by
  obtain ⟨k, -, -, -, hbec⟩ := reserveBits_spec hb.counter h
  exact hbec.sized hb (Nat.mod_lt _ (by decide))

theorem reserveEntries_sized {upper count : Nat} {r : Bitmap × Nat} (hb : Sized b)
    (h : reserveEntries m upper entries (b, count) = .ok r) : Sized r.1 := by
  induction entries generalizing b count with
  | nil =>
    cases h
    exact hb
  | cons e rest ih =>
    unfold reserveEntries at h
    split_ifs at h
    · obtain ⟨b₁, hres, h⟩ := bind_inv h
      exact ih (reserveBits_sized hb hres) h
    · exact ih hb h

/-- `pmm_setup` leaves a bitmap that a `uint32_t` can count. -/
theorem pmmSetup_sized {kernelPhysicalEnd tables : Nat} {s s' : Pmm}
    (h : pmmSetup m kernelPhysicalEnd tables s = .ok s') : Sized s'.bitmap := by
  unfold pmmSetup at h
  obtain ⟨s₁, -, h⟩ := bind_inv h
  obtain ⟨b₁, hinit, h⟩ := bind_inv h
  obtain ⟨b₂, hres, h⟩ := bind_inv h
  obtain ⟨s₂, hsetup, h⟩ := bind_inv h
  cases h
  have hb₂ := reserveBits_sized (initializeBitmap_sized hinit) hres
  unfold mmapSetup at hsetup
  split_ifs at hsetup
  · obtain ⟨r, hentries, hsetup⟩ := bind_inv hsetup
    cases hsetup
    exact reserveEntries_sized hb₂ hentries
  · cases hsetup
    exact hb₂

end Setup

end Dreamos64
