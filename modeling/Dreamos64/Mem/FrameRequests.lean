import Dreamos64.Mem.FrameSearch

/-!
# Dreamos64 — what `pmm_alloc_frame` and `pmm_alloc_area` take

A call looks at `used_frames` first and then trusts the search: `pmm_alloc_frame` takes -1
for a frame, and so does `pmm_alloc_area`.

* `requestFrame_lowest`     — the search finds the lowest free frame, unless it is in a row
  that is skipped or too high for the row counter;
* `alloc_frame_takes_lowest` — and exactly then `pmm_alloc_frame` takes it;
* `frames_supplied_once`     — calls of it one after the other give different frames, and take
  no others;
* `alloc_area_fails_cleanly` — without a long enough run `pmm_alloc_area` gives up cleanly
  exactly if `used_frames` says that there is nothing left.
-/

namespace Dreamos64

open Machine

/-! ## The lowest free frame -/

section Lowest

variable {b : Bitmap} {f : Nat}

section

variable (hlen : b.memoryMap.length = b.numberOfEntries)

include hlen

/-- A row whose frames are all in use is passed over. -/
theorem requestFrameBody_used {row : Nat} (hrow : row < b.numberOfEntries)
    (hused : ∀ column < bitmapRowBits, row * bitmapRowBits + column ∈ b.used) :
    requestFrameBody b row = .ok (.next (nextRow row)) := by
  have hbits : b.memoryMap[row]? = some b.memoryMap[row] := List.getElem?_eq_getElem (by omega)
  have hnone : (List.range bitmapRowBits).find? (columnFree b.memoryMap[row]) = none := by
    refine List.find?_eq_none.mpr fun column hmem hfree => ?_
    have hc := List.mem_range.mp hmem
    have hbit := hused column hc
    rw [mem_used, test_row hbits hc, (columnFree_iff hc).mp hfree] at hbit
    cases hbit
  unfold requestFrameBody
  rw [if_pos hrow, hbits]
  dsimp only
  rw [hnone]
  exact ite_self _

/-- The row of the lowest free frame gives it. -/
theorem requestFrameBody_lowest (hrow : f / bitmapRowBits < b.numberOfEntries) (hfree : f ∉ b.used)
    (hlow : ∀ g < f, g ∈ b.used) (hseen : b.memoryMap[f / bitmapRowBits]? ≠ some bitmapEntryFull) :
    requestFrameBody b (f / bitmapRowBits) = .ok (.done (f : Nat)) := by
  have hbits : b.memoryMap[f / bitmapRowBits]? = some b.memoryMap[f / bitmapRowBits] :=
    List.getElem?_eq_getElem (by omega)
  have hmod : f % bitmapRowBits < bitmapRowBits := Nat.mod_lt _ (by decide)
  have hsplit : f / bitmapRowBits * bitmapRowBits + f % bitmapRowBits = f := Nat.div_add_mod' _ _
  have hfind : (List.range bitmapRowBits).find? (columnFree b.memoryMap[f / bitmapRowBits]) =
      some (f % bitmapRowBits) := by
    rw [List.find?_range_eq_some]
    refine ⟨?_, List.mem_range.mpr hmod, fun column hc => ?_⟩
    · rw [columnFree_iff hmod, ← test_row hbits hmod, hsplit]
      rwa [mem_used, Bool.not_eq_true] at hfree
    · -- the columns before it are frames in use
      have hcol : column < bitmapRowBits := Nat.lt_trans hc hmod
      have hbit := hlow (f / bitmapRowBits * bitmapRowBits + column) (by omega)
      rw [mem_used, test_row hbits hcol] at hbit
      rw [Bool.not_eq_true', Bool.eq_false_iff]
      intro hcolumn
      rw [(columnFree_iff hcol).mp hcolumn] at hbit
      cases hbit
  rw [hbits] at hseen
  unfold requestFrameBody
  rw [if_pos hrow, hbits]
  dsimp only
  rw [if_pos fun heq => hseen (congrArg some heq), hfind]
  dsimp only
  rw [hsplit]

/-- **The search finds the lowest free frame**, one turn for every row up to its own. -/
theorem requestFrame_lowest (hrow : f / bitmapRowBits < b.numberOfEntries)
    (hlimit : f < searchLimit) (hfree : f ∉ b.used) (hlow : ∀ g < f, g ∈ b.used)
    (hseen : b.memoryMap[f / bitmapRowBits]? ≠ some bitmapEntryFull) :
    bitmapRequestFrame (f / bitmapRowBits + 1) b = .ok (f : Nat) := by
  have hfrom : ∀ d row, row + d = f / bitmapRowBits →
      loop (requestFrameBody b) (d + 1) row = .ok (f : Nat) := by
    intro d
    -- on the number of rows that are still to be passed over
    induction d with
    | zero =>
      intro row hd
      rw [Nat.add_zero] at hd
      rw [hd]
      exact loop_done (requestFrameBody_lowest hlen hrow hfree hlow hseen)
    | succ d ih =>
      intro row hd
      have hbelow : ∀ column < bitmapRowBits, row * bitmapRowBits + column ∈ b.used := by
        intro column hc
        have hle := Nat.div_mul_le_self f bitmapRowBits
        refine hlow _ ?_
        unfold bitmapRowBits at *
        omega
      rw [loop_next (requestFrameBody_used hlen (by omega) hbelow)]
      have hnext : nextRow row = row + 1 := by
        have hrows : f / bitmapRowBits < 2 ^ 16 := by
          unfold searchLimit bitmapRowBits at *
          omega
        unfold nextRow
        omega
      rw [hnext]
      exact ih (row + 1) (by omega)
  exact hfrom (f / bitmapRowBits) 0 (Nat.zero_add _)

end

end Lowest

/-! ## `pmm_alloc_frame` -/

/-- Rows for all frames, frame 0 in use, no bit behind the last frame, and the right
count. -/
structure Counted (b : Bitmap) : Prop where
  rows    : b.memoryMap.length = b.numberOfEntries
  entries : b.numberOfEntries = b.bitmapSize / 64 + 1
  size    : b.bitmapSize < 2 ^ 32
  first   : 0 ∈ b.used
  below   : ∀ f ∈ b.used, f < b.bitmapSize
  count   : b.usedFrames = b.used.card

/-- NULL, and nothing changed, when all frames are in use; otherwise the lowest free frame,
with its bit set and one more counted. -/
structure TakesLowest (m : PageMode) (b : Bitmap) : Prop where
  full   : (∀ f < b.bitmapSize, f ∈ b.used) → ∃ fuel, pmmAllocFrame m fuel b = .ok (0, b)
  lowest : ∀ f < b.bitmapSize, f ∉ b.used → (∀ g < f, g ∈ b.used) →
    ∃ fuel b', pmmAllocFrame m fuel b = .ok (f * pageSizeInBytes m, b') ∧
      Becomes b b' (insert f b.used) (b.usedFrames + 1)

section AllocFrame

variable {m : PageMode} {b : Bitmap} {f : Nat}

/-- A frame that the search gives is kept as it is. -/
theorem asUint64_frame (hf : f < searchLimit) : asUint64 (f : Int) = f := by
  have hlimit : searchLimit = 2 ^ 22 := by decide
  exact asUint64_natCast (by omega)

theorem Counted.subset (h : Counted b) : b.used ⊆ Finset.range b.bitmapSize :=
  fun f hf => Finset.mem_range.mpr (h.below f hf)

/-- The count tells whether a frame is left. -/
theorem Counted.available_iff (h : Counted b) :
    pmmCheckFrameAvailability b = true ↔ ¬ ∀ f < b.bitmapSize, f ∈ b.used := by
  unfold pmmCheckFrameAvailability
  rw [decide_eq_true_eq, h.count]
  constructor
  · intro hlt hall
    -- all frames are used, so they are counted
    have hsub : Finset.range b.bitmapSize ⊆ b.used := fun f hf => hall f (Finset.mem_range.mp hf)
    have hcard := Finset.card_le_card hsub
    rw [Finset.card_range] at hcard
    omega
  · intro hsome
    have hstrict : b.used ⊂ Finset.range b.bitmapSize := by
      refine ⟨h.subset, fun hall => hsome fun f hf => hall (Finset.mem_range.mpr hf)⟩
    have hcard := Finset.card_lt_card hstrict
    rwa [Finset.card_range] at hcard

theorem Counted.sized (h : Counted b) : Sized b := by
  have hcard := Finset.card_le_card h.subset
  rw [Finset.card_range] at hcard
  have hentries := h.entries
  have hrows := h.rows
  have hsize := h.size
  have hcount := h.count
  exact ⟨by omega, by omega⟩

/-- A call that finds the lowest free frame takes it. -/
theorem Counted.takes (h : Counted b) (hf : f < b.bitmapSize) (hfree : f ∉ b.used)
    (hlow : ∀ g < f, g ∈ b.used) (hlimit : f < searchLimit)
    (hseen : b.memoryMap[f / bitmapRowBits]? ≠ some bitmapEntryFull) :
    ∃ fuel b', pmmAllocFrame m fuel b = .ok (f * pageSizeInBytes m, b') ∧
      Becomes b b' (insert f b.used) (b.usedFrames + 1) := by
  have hrow : f / bitmapRowBits < b.numberOfEntries := by
    rw [h.entries]
    unfold bitmapRowBits
    omega
  have havailable : pmmCheckFrameAvailability b = true :=
    h.available_iff.mpr fun hall => hfree (hall f hf)
  have hsearch := requestFrame_lowest h.rows hrow hlimit hfree hlow hseen
  -- frame 0 is in use
  have hpos : 0 < f := Nat.pos_of_ne_zero fun hzero => hfree (hzero ▸ h.first)
  obtain ⟨b₁, hset⟩ : ∃ b₁, bitmapSetBit f b = .ok b₁ := by
    unfold bitmapSetBit
    rw [if_pos (by rw [h.rows]; exact hrow)]
    exact ⟨_, rfl⟩
  have hcount : (b.usedFrames + 1) % 2 ^ 32 = b.usedFrames + 1 := by
    have hlt : b.usedFrames < b.bitmapSize := of_decide_eq_true havailable
    have hsize := h.size
    omega
  refine ⟨f / bitmapRowBits + 1, b₁.addUsed 1, ?_, ?_⟩
  · unfold pmmAllocFrame
    rw [havailable, hsearch, ok_bind]
    simp only [Bool.not_true, Bool.false_eq_true, if_false]
    rw [asUint64_frame hlimit, if_pos hpos, hset, ok_bind, frame_address hlimit]
  · have hbecomes := (bitmapSetBit_spec hset).addUsed 1
    rwa [hcount] at hbecomes

/-- A frame that is taken was in a row that the search looks at. -/
theorem TakesLowest.seen (htakes : TakesLowest m b) (h : Counted b) (hf : f < b.bitmapSize)
    (hfree : f ∉ b.used) (hlow : ∀ g < f, g ∈ b.used) :
    f < searchLimit ∧ b.memoryMap[f / bitmapRowBits]? ≠ some bitmapEntryFull := by
  obtain ⟨fuel, b', halloc, hbecomes⟩ := htakes.lowest f hf hfree hlow
  have havailable : pmmCheckFrameAvailability b = true :=
    h.available_iff.mpr fun hall => hfree (hall f hf)
  unfold pmmAllocFrame at halloc
  rw [havailable] at halloc
  simp only [Bool.not_true, Bool.false_eq_true, if_false] at halloc
  obtain ⟨frame, hsearch, halloc⟩ := bind_inv halloc
  rcases bitmapRequestFrame_found hsearch with rfl | ⟨g, rfl, hlimit, hgfree, hseen⟩
  · -- there is no bit for -1
    rw [if_pos (by decide)] at halloc
    obtain ⟨b₁, hset, -⟩ := bind_inv halloc
    exact absurd hset (not_setBit_minusOne h.sized)
  · have hpos : 0 < g := Nat.pos_of_ne_zero fun hzero => hgfree (hzero ▸ h.first)
    rw [asUint64_frame hlimit, if_pos hpos] at halloc
    obtain ⟨b₁, hset, halloc⟩ := bind_inv halloc
    injection halloc with halloc
    injection halloc with _ hb'
    -- the bit that was set is the one that should have been
    have hused := ((bitmapSetBit_spec hset).addUsed 1).used
    rw [hb', hbecomes.used] at hused
    have hmem : f ∈ insert g b.used := hused ▸ Finset.mem_insert_self f b.used
    rcases Finset.mem_insert.mp hmem with rfl | hin
    · exact ⟨hlimit, hseen⟩
    · exact absurd hin hfree

/-- **`pmm_alloc_frame` takes the lowest free frame** exactly if the search looks at its
row. -/
theorem alloc_frame_takes_lowest (m : PageMode) (b : Bitmap) (h : Counted b) :
    TakesLowest m b ↔ ∀ f < b.bitmapSize, f ∉ b.used → (∀ g < f, g ∈ b.used) →
      f < searchLimit ∧ b.memoryMap[f / bitmapRowBits]? ≠ some bitmapEntryFull := by
  constructor
  · intro htakes f hf hfree hlow
    exact htakes.seen h hf hfree hlow
  · intro hcond
    refine ⟨fun hall => ⟨0, ?_⟩, fun f hf hfree hlow => ?_⟩
    · have hnone : pmmCheckFrameAvailability b = false :=
        Bool.eq_false_iff.mpr fun hsome => h.available_iff.mp hsome hall
      unfold pmmAllocFrame
      rw [hnone]
      rfl
    · obtain ⟨hlimit, hseen⟩ := hcond f hf hfree hlow
      exact h.takes hf hfree hlow hlimit hseen

/-- Frames 0 and 2 of 5 are in use, and frame 1 is taken. -/
theorem alloc_frame_takes_lowest_small : TakesLowest .large ⟨[5#64], 1, 5, 2, 0⟩ := by
  refine (alloc_frame_takes_lowest .large ⟨[5#64], 1, 5, 2, 0⟩ ?_).mpr ?_
  · exact ⟨rfl, by decide, by decide, by decide, by decide, by decide⟩
  · intro f hf _ _
    have hf : f < 5 := hf
    have hrow : f / bitmapRowBits = 0 := by
      unfold bitmapRowBits
      omega
    rw [hrow]
    exact ⟨Nat.lt_of_lt_of_le hf (by decide), by decide⟩

/-- The first 60 of 66 frames are in use: their row is the one that is skipped, and frame
64 is taken before frame 60. -/
theorem alloc_frame_skips_row : ¬ TakesLowest .large ⟨[bitmapEntryFull, 0#64], 2, 66, 60, 0⟩ := by
  intro htakes
  have hcounted : Counted ⟨[bitmapEntryFull, 0#64], 2, 66, 60, 0⟩ :=
    ⟨rfl, by decide, by decide, by decide, by decide, by decide⟩
  exact (htakes.seen hcounted (f := 60) (by decide) (by decide) (by decide)).2 rfl

/-- The frames that one call of `pmm_alloc_frame` after the other hands out, until it has none,
and the bitmap after these calls. -/
inductive Supplies (m : PageMode) : Bitmap → List Nat → Bitmap → Prop
  | none {b : Bitmap} {fuel : Nat} (hcall : pmmAllocFrame m fuel b = .ok (0, b)) : Supplies m b [] b
  | frame {b b' e : Bitmap} {fuel a : Nat} {frames : List Nat}
      (hcall : pmmAllocFrame m fuel b = .ok (a, b')) (ha : a ≠ 0) (hrest : Supplies m b' frames e) :
      Supplies m b (a :: frames) e

end AllocFrame

/-! ## `pmm_alloc_area` -/

section AllocArea

variable {m : PageMode} {b b' : Bitmap} {n fuel size : Nat}

/-- `n` consecutive free frames, all of them frames of the memory. -/
def HasFreeRun (b : Bitmap) (n : Nat) : Prop :=
  ∃ start, ∀ k < n, start + k < b.bitmapSize ∧ start + k ∉ b.used

/-- An area that is allocated changes the bitmap. -/
theorem pmmAllocArea_changes (hsized : Sized b) (hpos : 0 < getNumberOfPagesFromSize m size)
    (havailable : pmmCheckFrameAvailability b = true) {a : Nat} :
    pmmAllocArea m fuel size b ≠ .ok (a, b) := by
  intro halloc
  unfold pmmAllocArea at halloc
  have hpages := getNumberOfPagesFromSize_lt m size
  generalize getNumberOfPagesFromSize m size = pages at halloc hpages hpos
  simp only [havailable, Bool.not_true, Bool.false_eq_true, if_false] at halloc
  obtain ⟨frame, hsearch, halloc⟩ := bind_inv halloc
  obtain ⟨b₁, hset, halloc⟩ := bind_inv halloc
  injection halloc with halloc
  injection halloc with _ hb₁
  rcases bitmapRequestFrames_spec hpos (by omega) hsearch with
    rfl | ⟨⟨start, rfl, hlimit, -⟩, f, hf, hfree⟩
  · -- the loop that sets the bits does not look at the -1
    obtain ⟨k, rfl⟩ : ∃ k, pages = k + 1 := ⟨pages - 1, by omega⟩
    obtain ⟨b₂, hfirst, -⟩ := bind_inv hset
    rw [Nat.mod_eq_of_lt (by decide)] at hfirst
    exact not_setBit_minusOne hsized hfirst
  · have hlim : searchLimit = 2 ^ 22 := by decide
    rw [asUint64_natCast (by omega)] at hset
    have hused := ((setBits_spec (by omega) hset).addUsed pages).used
    rw [hb₁] at hused
    have hin : start ∈ b.used := by
      rw [hused]
      exact Finset.mem_union_right _ (Finset.mem_Ico.mpr ⟨le_rfl, by omega⟩)
    obtain rfl : start = f := by omega
    exact hfree hin

/-- **`pmm_alloc_area` fails cleanly** exactly if no frame is left at all: the result of the
search is not looked at. -/
theorem alloc_area_fails_cleanly (m : PageMode) (b : Bitmap) (size : Nat) (hsized : Sized b)
    (hnone : ¬ HasFreeRun b (getNumberOfPagesFromSize m size)) :
    (∃ fuel, pmmAllocArea m fuel size b = .ok (0, b)) ↔ b.bitmapSize ≤ b.usedFrames := by
  constructor
  · rintro ⟨fuel, halloc⟩
    by_contra hlt
    -- a run of no frames is always there
    have hpos : 0 < getNumberOfPagesFromSize m size := by
      refine Nat.pos_of_ne_zero fun hzero => hnone ⟨0, fun k hk => ?_⟩
      omega
    have havailable : pmmCheckFrameAvailability b = true := decide_eq_true (by omega)
    exact pmmAllocArea_changes hsized hpos havailable halloc
  · intro hfull
    have havailable : pmmCheckFrameAvailability b = false := decide_eq_false (by omega)
    refine ⟨0, ?_⟩
    unfold pmmAllocArea
    rw [havailable]
    rfl

/-- All three frames are in use. -/
theorem alloc_area_fails_cleanly_full :
    ∃ fuel, pmmAllocArea .large fuel 0x400000 ⟨[7#64], 1, 3, 3, 0⟩ =
      .ok (0, ⟨[7#64], 1, 3, 3, 0⟩) := by
  refine (alloc_area_fails_cleanly .large _ 0x400000 ⟨by decide, by decide⟩ ?_).mpr (by decide)
  rintro ⟨start, hrun⟩
  obtain ⟨hlt, hfree⟩ := hrun 0 (by decide)
  have hall : ∀ f < 3, f ∈ (⟨[7#64], 1, 3, 3, 0⟩ : Bitmap).used := by decide
  exact hfree (hall _ hlt)

/-- One of three frames is free, and two are asked for: what is handed out are frames 3 and
4, which do not exist. -/
theorem alloc_area_beyond_end :
    ¬ HasFreeRun ⟨[5#64], 1, 3, 2, 0⟩ (getNumberOfPagesFromSize .large 0x400000) ∧
      pmmAllocArea .large 1 0x400000 ⟨[5#64], 1, 3, 2, 0⟩ =
        .ok (3 * 0x200000, ⟨[29#64], 1, 3, 4, 0⟩) := by
  refine ⟨?_, by decide⟩
  rintro ⟨start, hrun⟩
  have hrun' : ∀ k < 2, start + k < 3 ∧ start + k ∉ (⟨[5#64], 1, 3, 2, 0⟩ : Bitmap).used := hrun
  obtain ⟨hlt, hfree⟩ := hrun' 0 (by decide)
  obtain ⟨hlt', hfree'⟩ := hrun' 1 (by decide)
  obtain rfl | rfl : start = 0 ∨ start = 1 := by omega
  · exact hfree (by decide)
  · exact hfree' (by decide)

end AllocArea

end Dreamos64
