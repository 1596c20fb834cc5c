import Dreamos64.Mem.BootReservation

/-!
# Dreamos64 — reserving and freeing an area

`pmm_reserve_area` and `pmm_free_area` against the frames that the area overlaps. Both round
the size up to pages without looking at where in its frame the area begins, and both loops
count down pages whether or not they have moved on to the next frame.

* `reserve_area_marks` — a reservation marks the whole area exactly if no free frame of it
  comes after one in use, and the rounding leaves none out;
* `free_area_clears`   — what has to hold of the memory map and of the area for
  `pmm_free_area` to clear the area and nothing else.
-/

namespace Dreamos64

open Machine

/-! ## The frames of an area -/

/-- The frames that overlap `[start, start + size)`. -/
def overlapping (m : PageMode) (start size : Nat) : Finset Nat :=
  (Finset.Ico start (start + size)).image (· / pageSizeInBytes m)

/-- The pages that hold `size` bytes. -/
def pagesIn (m : PageMode) (size : Nat) : Nat :=
  (size + pageSizeInBytes m - 1) / pageSizeInBytes m

/-- Rows for every frame, and both counts in a `uint32_t`. -/
structure WellSized (b : Bitmap) : Prop where
  rows    : b.bitmapSize ≤ bitmapRowBits * b.memoryMap.length
  size    : b.bitmapSize < 2 ^ 32
  counter : b.usedFrames < 2 ^ 32

section Overlap

variable {m : PageMode} {b : Bitmap} {start size : Nat}

theorem areaFrames_eq (m : PageMode) (size : Nat) :
    areaFrames m size = pagesIn m size % 2 ^ 32 := by
  unfold areaFrames pagesIn
  by_cases hrest : size % pageSizeInBytes m = 0
  · rw [if_neg (not_not.mpr hrest)]
    cases m <;> simp only [pageSizeInBytes] at * <;> omega
  · rw [if_pos hrest]
    cases m <;> simp only [pageSizeInBytes] at * <;> omega

theorem overlapping_zero (m : PageMode) (start : Nat) : overlapping m start 0 = ∅ := by
  unfold overlapping
  simp

/-- The frames of an area follow each other, and they are as many as its pages or one more. -/
theorem overlapping_eq (m : PageMode) (start size : Nat) :
    ∃ c, overlapping m start size =
        Finset.Ico (start / pageSizeInBytes m) (start / pageSizeInBytes m + c) ∧
      pagesIn m size ≤ c ∧ c ≤ pagesIn m size + 1 ∧
      (0 < size → (start + size - 1) / pageSizeInBytes m + 1 = start / pageSizeInBytes m + c) ∧
      (size = 0 → c = 0) := by
  rcases Nat.eq_zero_or_pos size with rfl | hpos
  · refine ⟨0, ?_, ?_, by omega, by omega, fun _ => rfl⟩
    · rw [overlapping_zero, Nat.add_zero, Finset.Ico_self]
    · cases m <;> simp [pagesIn, pageSizeInBytes]
  · refine ⟨(start + size - 1) / pageSizeInBytes m + 1 - start / pageSizeInBytes m, ?_, ?_, ?_, ?_,
      by omega⟩
    · ext f
      unfold overlapping
      rw [Finset.mem_image, Finset.mem_Ico]
      constructor
      · rintro ⟨address, hin, rfl⟩
        rw [Finset.mem_Ico] at hin
        have hlo := Nat.div_le_div_right (c := pageSizeInBytes m) hin.1
        have hhi := Nat.div_le_div_right (c := pageSizeInBytes m)
          (show address ≤ start + size - 1 by omega)
        omega
      · rintro ⟨hlo, hhi⟩
        -- the first address of the area that is in the frame
        refine ⟨max start (f * pageSizeInBytes m), ?_, ?_⟩
        · rw [Finset.mem_Ico]
          cases m <;> simp only [pageSizeInBytes] at * <;> omega
        · cases m <;> simp only [pageSizeInBytes] at * <;> omega
    · unfold pagesIn
      cases m <;> simp only [pageSizeInBytes] <;> omega
    · unfold pagesIn
      cases m <;> simp only [pageSizeInBytes] <;> omega
    · intro _
      have hle := Nat.div_le_div_right (c := pageSizeInBytes m)
        (show start ≤ start + size - 1 by omega)
      omega

/-- An area inside the memory has few enough pages for the loops to count. -/
theorem areaFrames_within (hb : WellSized b)
    (harea : start + size ≤ b.bitmapSize * pageSizeInBytes m) :
    areaFrames m size = pagesIn m size := by
  have hsize := hb.size
  rw [areaFrames_eq]
  refine Nat.mod_eq_of_lt ?_
  unfold pagesIn
  cases m <;> simp only [pageSizeInBytes] at * <;> omega

/-- All its frames have a bit. -/
theorem overlapping_within {c : Nat} (hb : WellSized b)
    (harea : start + size ≤ b.bitmapSize * pageSizeInBytes m)
    (hlast : 0 < size →
      (start + size - 1) / pageSizeInBytes m + 1 = start / pageSizeInBytes m + c)
    (hzero : size = 0 → c = 0) :
    start / pageSizeInBytes m + c ≤ bitmapRowBits * b.memoryMap.length := by
  have hrows := hb.rows
  rcases Nat.eq_zero_or_pos size with hsize | hsize
  · have hle : start / pageSizeInBytes m ≤ b.bitmapSize := by
      cases m <;> simp only [pageSizeInBytes] at * <;> omega
    have hc := hzero hsize
    omega
  · have hlt : (start + size - 1) / pageSizeInBytes m < b.bitmapSize := by
      cases m <;> simp only [pageSizeInBytes] at * <;> omega
    have hc := hlast hsize
    omega

end Overlap

/-! ## `pmm_reserve_area` -/

/-- The call marks the frames of the area and no others, and counts those that are new. -/
def ReservesArea (m : PageMode) (b : Bitmap) (start size : Nat) : Prop :=
  ∃ b', pmmReserveArea m start size b = .ok b' ∧
    Becomes b b' (b.used ∪ overlapping m start size)
      ((b.usedFrames + (overlapping m start size \ b.used).card) % 2 ^ 32)

section Reserve

variable {m : PageMode} {b : Bitmap} {used : Finset Nat} {first n c k start size : Nat}

/-- Marking the `k` free frames that `c` frames begin with marks all of them, if the others
are in use. -/
theorem union_Ico_eq_iff (used : Finset Nat) (first : Nat) (hk : k ≤ c) :
    used ∪ Finset.Ico first (first + k) = used ∪ Finset.Ico first (first + c) ↔
      ∀ f, first + k ≤ f → f < first + c → f ∈ used := by
  constructor
  · intro heq f hlo hhi
    have hin : f ∈ used ∪ Finset.Ico first (first + k) := by
      rw [heq]
      exact Finset.mem_union_right _ (Finset.mem_Ico.mpr ⟨by omega, hhi⟩)
    rcases Finset.mem_union.mp hin with hused | hrange
    · exact hused
    · rw [Finset.mem_Ico] at hrange
      omega
  · intro hall
    ext f
    simp only [Finset.mem_union, Finset.mem_Ico]
    constructor
    · rintro (hused | hrange)
      · exact .inl hused
      · exact .inr (by omega)
    · rintro (hused | hrange)
      · exact .inl hused
      · by_cases hf : f < first + k
        · exact .inr ⟨hrange.1, hf⟩
        · exact .inl (hall f (by omega) hrange.2)

/-- The frames behind the point where a reservation of `n` frames stops are in use exactly
if no free frame follows one in use, and the last of `n + 1` frames is in use. -/
theorem rest_used_iff (hk : k ≤ n) (hc : c ≤ n + 1)
    (hclear : ∀ f, first ≤ f → f < first + k → f ∉ used) (hstop : k < n → first + k ∈ used) :
    (∀ f, first + k ≤ f → f < first + c → f ∈ used) ↔
      (∀ f, first ≤ f → f < first + c → ∀ g, f < g → g < first + c → f ∈ used → g ∈ used) ∧
        (c ≤ n ∨ first + n ∈ used) := by
  constructor
  · intro hrest
    refine ⟨fun f hlo _ g hfg hg hf => ?_, ?_⟩
    · have hbehind : first + k ≤ f := by
        by_contra hlt
        exact hclear f hlo (by omega) hf
      exact hrest g (by omega) hg
    · by_cases hle : c ≤ n
      · exact .inl hle
      · exact .inr (hrest _ (by omega) (by omega))
  · rintro ⟨hordered, hlast⟩ f hlo hhi
    rcases Nat.lt_or_ge k n with hlt | hge
    · -- the loop stopped at a frame in use
      rcases Nat.eq_or_lt_of_le hlo with rfl | hgt
      · exact hstop hlt
      · exact hordered (first + k) (by omega) (by omega) f hgt hhi (hstop hlt)
    · -- it went through all pages
      obtain rfl : f = first + n := by omega
      rcases hlast with hle | hlast
      · omega
      · exact hlast

/-- **`pmm_reserve_area` reserves the whole area** exactly if no free frame of the area comes
after a frame in use, and it has no more frames than its size has pages, or its last frame is
in use already. -/
theorem reserve_area_marks (m : PageMode) (b : Bitmap) (start size : Nat) (hb : WellSized b)
    (harea : start + size ≤ b.bitmapSize * pageSizeInBytes m) :
    ReservesArea m b start size ↔
      (∀ f ∈ overlapping m start size, ∀ g ∈ overlapping m start size,
        f < g → f ∈ b.used → g ∈ b.used) ∧
      ((overlapping m start size).card ≤ pagesIn m size ∨
        (start + size - 1) / pageSizeInBytes m ∈ b.used) := by
  obtain ⟨c, hover, hpages, hc, hlast, hzero⟩ := overlapping_eq m start size
  have hframes := areaFrames_within hb harea
  have hrows := overlapping_within hb harea hlast hzero
  have hfits : start / pageSizeInBytes m + areaFrames m size ≤
      bitmapRowBits * b.memoryMap.length := by omega
  obtain ⟨b', hcall⟩ := reserveBits_returns hfits
  obtain ⟨k, hk, hclear, hstop, hbecomes⟩ := reserveBits_spec hb.counter hcall
  rw [hframes] at hk hstop
  have hmarked := union_Ico_eq_iff b.used (start / pageSizeInBytes m) (show k ≤ c by omega)
  rw [rest_used_iff hk hc hclear hstop] at hmarked
  -- the last frame, when there is one more frame than pages
  have hend : (c ≤ pagesIn m size ∨ start / pageSizeInBytes m + pagesIn m size ∈ b.used) ↔
      (c ≤ pagesIn m size ∨ (start + size - 1) / pageSizeInBytes m ∈ b.used) := by
    by_cases hle : c ≤ pagesIn m size
    · exact iff_of_true (.inl hle) (.inl hle)
    · have heq : (start + size - 1) / pageSizeInBytes m =
          start / pageSizeInBytes m + pagesIn m size := by omega
      rw [heq]
  rw [hend] at hmarked
  rw [hover, Nat.card_Ico, Nat.add_sub_cancel_left]
  simp only [Finset.mem_Ico]
  constructor
  · rintro ⟨b'', hcall', hb''⟩
    obtain rfl : b' = b'' := Except.ok.inj (hcall.symm.trans hcall')
    rw [hover] at hb''
    obtain ⟨hordered, hfits⟩ := hmarked.mp (hbecomes.used.symm.trans hb''.used)
    exact ⟨fun f hf g hg hlt hused => hordered f hf.1 hf.2 g hlt hg.2 hused, hfits⟩
  · rintro ⟨hordered, hfits⟩
    have hsame := hmarked.mpr ⟨fun f hlo hhi g hlt hg hused =>
      hordered f ⟨hlo, hhi⟩ g ⟨by omega, hg⟩ hlt hused, hfits⟩
    have hdisjoint : Disjoint (Finset.Ico (start / pageSizeInBytes m)
        (start / pageSizeInBytes m + k)) b.used := by
      refine Finset.disjoint_left.mpr fun f hf => ?_
      rw [Finset.mem_Ico] at hf
      exact hclear f hf.1 hf.2
    have hcount : (Finset.Ico (start / pageSizeInBytes m) (start / pageSizeInBytes m + c) \
        b.used).card = k := by
      rw [← Finset.union_sdiff_left, ← hsame, Finset.union_sdiff_left,
        Finset.sdiff_eq_self_of_disjoint hdisjoint, Nat.card_Ico, Nat.add_sub_cancel_left]
    refine ⟨b', hcall, ?_⟩
    rw [hover, hcount, ← hsame]
    exact hbecomes

/-- Three free frames. -/
theorem reserve_area_marks_free : ReservesArea .large ⟨[1#64], 1, 40, 1, 0⟩ 0x200000 0x600000 := by
  have hover : overlapping .large 0x200000 0x600000 = Finset.Ico 1 4 := by
    obtain ⟨c, hover, -, -, hlast, -⟩ := overlapping_eq .large 0x200000 0x600000
    have hc := hlast (by decide)
    simp only [pageSizeInBytes] at hover hc
    obtain rfl : c = 3 := by omega
    exact hover
  refine (reserve_area_marks .large _ 0x200000 0x600000 ⟨by decide, by decide, by decide⟩
    (by decide)).mpr ⟨?_, .inl ?_⟩
  · rw [hover]
    decide
  · rw [hover]
    decide

/-- The first of two frames is in use, and the second is not reached. -/
theorem reserve_area_stuck : ¬ ReservesArea .large ⟨[2#64], 1, 40, 1, 0⟩ 0x200000 0x400000 := by
  rintro ⟨b', hcall, hb'⟩
  have hsame : pmmReserveArea .large 0x200000 0x400000 ⟨[2#64], 1, 40, 1, 0⟩ =
      .ok ⟨[2#64], 1, 40, 1, 0⟩ := by decide
  obtain rfl := Except.ok.inj (hsame.symm.trans hcall)
  have hin : 2 ∈ overlapping .large 0x200000 0x400000 := by
    refine Finset.mem_image.mpr ⟨0x400000, ?_, by decide⟩
    rw [Finset.mem_Ico]
    decide
  have hused : 2 ∈ (⟨[2#64], 1, 40, 1, 0⟩ : Bitmap).used := by
    rw [hb'.used]
    exact Finset.mem_union_right _ hin
  exact absurd hused (by decide)

end Reserve

/-! ## `pmm_free_area` -/

/-- The address is in an entry of the memory map that is not available. -/
def ReservedAt (entries : List MmapEntry) (start : Nat) : Prop :=
  ∃ e ∈ entries, e.type > 1 ∧ e.addr ≤ start ∧ start < e.addr + e.len

/-- The address is in one of the first `count_physical_reserved` entries, whatever these
are. -/
def Refused (entries : List MmapEntry) (countPhysicalReserved start : Nat) : Prop :=
  ∃ e ∈ entries.take countPhysicalReserved, e.addr ≤ start ∧ start < (e.addr + e.len) % 2 ^ 64

/-- What `pmm_free_area` is for: nothing is freed that is reserved, and of anything else the
area and nothing more. So it takes back what `pmm_reserve_area` has done to an area of free
frames. -/
structure FreesArea (m : PageMode) (entries : List MmapEntry) (countPhysicalReserved : Nat)
    (b : Bitmap) (start size : Nat) : Prop where
  reserved : ReservedAt entries start →
    pmmFreeArea m entries countPhysicalReserved start size b = .ok b
  freed    : ¬ ReservedAt entries start → start + size ≤ b.bitmapSize * pageSizeInBytes m →
    ∃ b', pmmFreeArea m entries countPhysicalReserved start size b = .ok b' ∧
      Becomes b b' (b.used \ overlapping m start size)
        ((b.usedFrames + 2 ^ 32 - (overlapping m start size).card) % 2 ^ 32)
  restored : ¬ ReservedAt entries start → start + size ≤ b.bitmapSize * pageSizeInBytes m →
    pageSizeInBytes m ∣ start → pageSizeInBytes m ∣ size →
    Disjoint (overlapping m start size) b.used →
    ∃ b₁ b₂, pmmReserveArea m start size b = .ok b₁ ∧
      pmmFreeArea m entries countPhysicalReserved start size b₁ = .ok b₂ ∧
      Becomes b b₂ b.used b.usedFrames

section Free

variable {m : PageMode} {entries : List MmapEntry} {countPhysicalReserved : Nat} {b b' : Bitmap}
  {start size : Nat}

theorem isReservedStart_iff :
    isReservedStart entries countPhysicalReserved start = true ↔
      Refused entries countPhysicalReserved start := by
  unfold isReservedStart Refused
  simp only [List.any_eq_true, decide_eq_true_eq]

theorem pmmFreeArea_refused (h : Refused entries countPhysicalReserved start) :
    pmmFreeArea m entries countPhysicalReserved start size b = .ok b :=
  if_pos (isReservedStart_iff.mpr h)

theorem pmmFreeArea_zero (hzero : areaFrames m size = 0) :
    pmmFreeArea m entries countPhysicalReserved start size b = .ok b := by
  unfold pmmFreeArea
  rw [hzero]
  exact ite_self _

/-- Of an area that is not refused the first frame is freed, and all its pages are taken off
the count. -/
theorem pmmFreeArea_spec (h : ¬ Refused entries countPhysicalReserved start)
    (hpos : 0 < areaFrames m size)
    (hfree : pmmFreeArea m entries countPhysicalReserved start size b = .ok b') :
    Becomes b b' (b.used.erase (start / pageSizeInBytes m))
      ((b.usedFrames + (2 ^ 32 - 1) * areaFrames m size) % 2 ^ 32) := by
  unfold pmmFreeArea at hfree
  rw [if_neg fun hguard => h (isReservedStart_iff.mp hguard)] at hfree
  obtain ⟨n, hn⟩ := Nat.exists_eq_succ_of_ne_zero hpos.ne'
  rw [hn] at hfree ⊢
  exact freeBits_spec hfree

/-- It returns if that frame has a bit. -/
theorem pmmFreeArea_returns
    (hrow : start / pageSizeInBytes m < bitmapRowBits * b.memoryMap.length) :
    ∃ b', pmmFreeArea m entries countPhysicalReserved start size b = .ok b' := by
  unfold pmmFreeArea
  split_ifs
  · exact ⟨b, rfl⟩
  · generalize areaFrames m size = n
    induction n generalizing b with
    | zero => exact ⟨b, rfl⟩
    | succ n ih =>
      have hdiv : start / pageSizeInBytes m / bitmapRowBits < b.memoryMap.length := by
        generalize start / pageSizeInBytes m = location at *
        unfold bitmapRowBits at *
        omega
      unfold freeBits bitmapFreeBit
      rw [if_pos hdiv, ok_bind]
      refine ih ?_
      show _ < bitmapRowBits * (BitRows.clear b.memoryMap _).length
      rwa [BitRows.length_clear]

/-- Nothing changes if the address is refused or the loop does not turn; any turn is
counted. -/
theorem pmmFreeArea_unchanged_iff :
    pmmFreeArea m entries countPhysicalReserved start size b = .ok b ↔
      Refused entries countPhysicalReserved start ∨ pagesIn m size % 2 ^ 32 = 0 := by
  rw [← areaFrames_eq]
  constructor
  · intro hfree
    by_contra hnot
    obtain ⟨hrefused, hpages⟩ := not_or.mp hnot
    have hcount := (pmmFreeArea_spec hrefused (Nat.pos_of_ne_zero hpages) hfree).count
    have hlt : areaFrames m size < 2 ^ 32 := by
      rw [areaFrames_eq]
      exact Nat.mod_lt _ (by decide)
    omega
  · rintro (hrefused | hzero)
    · exact pmmFreeArea_refused hrefused
    · exact pmmFreeArea_zero hzero

/-- When the area and nothing else is freed. -/
theorem pmmFreeArea_freed_iff (hb : WellSized b) (hpos : 0 < size)
    (harea : start + size ≤ b.bitmapSize * pageSizeInBytes m) :
    (∃ b', pmmFreeArea m entries countPhysicalReserved start size b = .ok b' ∧
      Becomes b b' (b.used \ overlapping m start size)
        ((b.usedFrames + 2 ^ 32 - (overlapping m start size).card) % 2 ^ 32)) ↔
      ¬ Refused entries countPhysicalReserved start ∧
        (overlapping m start size).card ≤ pagesIn m size ∧
        ∀ f ∈ overlapping m start size, f ≠ start / pageSizeInBytes m → f ∉ b.used := by
  obtain ⟨c, hover, hpages, hc, hlast, -⟩ := overlapping_eq m start size
  have hframes := areaFrames_within hb harea
  have hpagespos : 0 < pagesIn m size := by
    unfold pagesIn
    cases m <;> simp only [pageSizeInBytes] <;> omega
  have hcounter := hb.counter
  -- the frames of the area can be counted in 32 bits
  have hfew : c < 2 ^ 32 := by
    have hsize := hb.size
    have hend := hlast hpos
    cases m <;> simp only [pageSizeInBytes] at * <;> omega
  have hrow : start / pageSizeInBytes m < bitmapRowBits * b.memoryMap.length := by
    have hrows := overlapping_within hb harea hlast (by omega)
    omega
  rw [hover, Nat.card_Ico, Nat.add_sub_cancel_left]
  constructor
  · rintro ⟨b', hfree, hb'⟩
    have hcount := hb'.count
    have hrefused : ¬ Refused entries countPhysicalReserved start := by
      intro hrefused
      obtain rfl := Except.ok.inj ((pmmFreeArea_refused hrefused).symm.trans hfree)
      omega
    have hspec := pmmFreeArea_spec hrefused (by omega) hfree
    refine ⟨hrefused, ?_, fun f hf hne hin => ?_⟩
    · rw [hspec.count, hframes] at hcount
      omega
    · have hkept : f ∈ b.used.erase (start / pageSizeInBytes m) := Finset.mem_erase.mpr ⟨hne, hin⟩
      rw [← hspec.used, hb'.used] at hkept
      exact (Finset.mem_sdiff.mp hkept).2 hf
  · rintro ⟨hrefused, hle, hclear⟩
    obtain ⟨b', hfree⟩ : ∃ b', pmmFreeArea m entries countPhysicalReserved start size b = .ok b' :=
      pmmFreeArea_returns hrow
    have hspec := pmmFreeArea_spec hrefused (by omega) hfree
    refine ⟨b', hfree, hspec.used.trans ?_, ?_, hspec.shape⟩
    · ext f
      rw [Finset.mem_erase, Finset.mem_sdiff, and_comm]
      refine and_congr_right fun hin => ?_
      constructor
      · intro hne hf
        exact hclear f hf hne hin
      · rintro hout rfl
        exact hout (Finset.mem_Ico.mpr ⟨le_rfl, by omega⟩)
    · rw [hspec.count, hframes]
      omega

/-- A reservation of free frames marks them all. -/
theorem pmmReserveArea_free (hcounter : b.usedFrames < 2 ^ 32)
    (hrows : start / pageSizeInBytes m + areaFrames m size ≤ bitmapRowBits * b.memoryMap.length)
    (hfree : ∀ f, start / pageSizeInBytes m ≤ f →
      f < start / pageSizeInBytes m + areaFrames m size → f ∉ b.used) :
    ∃ b', pmmReserveArea m start size b = .ok b' ∧
      Becomes b b' (b.used ∪ Finset.Ico (start / pageSizeInBytes m)
        (start / pageSizeInBytes m + areaFrames m size))
        ((b.usedFrames + areaFrames m size) % 2 ^ 32) := by
  obtain ⟨b', hcall⟩ := reserveBits_returns hrows
  obtain ⟨k, hk, -, hstop, hbecomes⟩ := reserveBits_spec hcounter hcall
  obtain rfl : k = areaFrames m size := by
    by_contra hne
    exact hfree _ (by omega) (by omega) (hstop (by omega))
  exact ⟨b', hcall, hbecomes⟩

/-- When freeing takes back a reservation of free frames. -/
theorem pmmFreeArea_restores_iff (hb : WellSized b) (hpos : 0 < size)
    (harea : start + size ≤ b.bitmapSize * pageSizeInBytes m)
    (hstart : pageSizeInBytes m ∣ start) (hsize : pageSizeInBytes m ∣ size)
    (hdisjoint : Disjoint (overlapping m start size) b.used)
    (hrefused : ¬ Refused entries countPhysicalReserved start) :
    (∃ b₁ b₂, pmmReserveArea m start size b = .ok b₁ ∧
      pmmFreeArea m entries countPhysicalReserved start size b₁ = .ok b₂ ∧
      Becomes b b₂ b.used b.usedFrames) ↔ size ≤ pageSizeInBytes m := by
  obtain ⟨c, hover, hpages, hc, hlast, -⟩ := overlapping_eq m start size
  have hframes := areaFrames_within hb harea
  -- an aligned area has as many frames as pages
  have hcpages : c = pagesIn m size ∧ (size ≤ pageSizeInBytes m ↔ c ≤ 1) ∧ 0 < c := by
    have hend := hlast hpos
    obtain ⟨i, rfl⟩ := hstart
    obtain ⟨j, rfl⟩ := hsize
    unfold pagesIn
    cases m <;> simp only [pageSizeInBytes] at * <;> omega
  obtain ⟨hcount, hone, hcpos⟩ := hcpages
  have hrows := overlapping_within hb harea hlast (by omega)
  have hcounter := hb.counter
  rw [hover] at hdisjoint
  have hclear : ∀ f, start / pageSizeInBytes m ≤ f → f < start / pageSizeInBytes m + c →
      f ∉ b.used := fun f hlo hhi =>
    Finset.disjoint_left.mp hdisjoint (Finset.mem_Ico.mpr ⟨hlo, hhi⟩)
  rw [← hcount] at hframes
  obtain ⟨b₁, hreserve, hb₁⟩ := pmmReserveArea_free hcounter (by rwa [hframes]) (by rwa [hframes])
  obtain ⟨b₂, hfree⟩ : ∃ b₂, pmmFreeArea m entries countPhysicalReserved start size b₁ = .ok b₂ :=
    pmmFreeArea_returns (by rw [hb₁.shape.rows]; omega)
  have hb₂ := pmmFreeArea_spec hrefused (by omega) hfree
  rw [hb₁.used, hb₁.count, hframes] at hb₂
  rw [hone]
  constructor
  · rintro ⟨b₁', b₂', hreserve', hfree', hb'⟩
    obtain rfl := Except.ok.inj (hreserve.symm.trans hreserve')
    obtain rfl := Except.ok.inj (hfree.symm.trans hfree')
    by_contra hmany
    -- the second frame is still marked
    have hin : start / pageSizeInBytes m + 1 ∈ b₂.used := by
      rw [hb₂.used, Finset.mem_erase, Finset.mem_union, Finset.mem_Ico]
      exact ⟨by omega, .inr ⟨by omega, by omega⟩⟩
    rw [hb'.used] at hin
    exact hclear _ (by omega) (by omega) hin
  · intro hle
    obtain rfl : c = 1 := by omega
    refine ⟨b₁, b₂, hreserve, hfree, hb₂.used.trans ?_, hb₂.count.trans ?_,
      hb₁.shape.trans hb₂.shape⟩
    · rw [Nat.Ico_succ_singleton, Finset.union_comm, ← Finset.insert_eq,
        Finset.erase_insert (hclear _ le_rfl (by omega))]
    · omega

/-- **`pmm_free_area` frees what it should** exactly under these conditions. An address that
is reserved must be refused, or the number of pages be 0 in 32 bits. Any other must not be
refused, the area must have no more frames than its size has pages, and only the first of
them may be in use. To take back a reservation it must be of one frame at most. -/
theorem free_area_clears (m : PageMode) (entries : List MmapEntry) (countPhysicalReserved : Nat)
    (b : Bitmap) (start size : Nat) (hb : WellSized b) :
    FreesArea m entries countPhysicalReserved b start size ↔
      (ReservedAt entries start →
        Refused entries countPhysicalReserved start ∨ pagesIn m size % 2 ^ 32 = 0) ∧
      (¬ ReservedAt entries start → start + size ≤ b.bitmapSize * pageSizeInBytes m →
        0 < size → ¬ Refused entries countPhysicalReserved start ∧
          (overlapping m start size).card ≤ pagesIn m size ∧
          ∀ f ∈ overlapping m start size, f ≠ start / pageSizeInBytes m → f ∉ b.used) ∧
      (¬ ReservedAt entries start → start + size ≤ b.bitmapSize * pageSizeInBytes m →
        pageSizeInBytes m ∣ start → pageSizeInBytes m ∣ size →
        Disjoint (overlapping m start size) b.used → size ≤ pageSizeInBytes m) := by
  have hzero : areaFrames m 0 = 0 := by
    cases m <;> rfl
  constructor
  · intro hfrees
    refine ⟨fun hat => ?_, fun hnot harea hpos => ?_, fun hnot harea hstart hsize hdisjoint => ?_⟩
    · exact pmmFreeArea_unchanged_iff.mp (hfrees.reserved hat)
    · exact (pmmFreeArea_freed_iff hb hpos harea).mp (hfrees.freed hnot harea)
    · rcases Nat.eq_zero_or_pos size with rfl | hpos
      · exact Nat.zero_le _
      · have hrefused := ((pmmFreeArea_freed_iff hb hpos harea).mp (hfrees.freed hnot harea)).1
        exact (pmmFreeArea_restores_iff hb hpos harea hstart hsize hdisjoint hrefused).mp
          (hfrees.restored hnot harea hstart hsize hdisjoint)
  · rintro ⟨hreserved, hfreed, hrestored⟩
    refine ⟨fun hat => ?_, fun hnot harea => ?_, fun hnot harea hstart hsize hdisjoint => ?_⟩
    · exact pmmFreeArea_unchanged_iff.mpr (hreserved hat)
    · rcases Nat.eq_zero_or_pos size with rfl | hpos
      · -- no frames, no turns
        refine ⟨b, pmmFreeArea_zero hzero, ?_, ?_, .refl b⟩
        · rw [overlapping_zero, Finset.sdiff_empty]
        · have hcounter := hb.counter
          rw [overlapping_zero, Finset.card_empty]
          omega
      · exact (pmmFreeArea_freed_iff hb hpos harea).mpr (hfreed hnot harea hpos)
    · rcases Nat.eq_zero_or_pos size with rfl | hpos
      · refine ⟨b, b, ?_, pmmFreeArea_zero hzero, rfl, rfl, .refl b⟩
        unfold pmmReserveArea
        rw [hzero]
        rfl
      · exact (pmmFreeArea_restores_iff hb hpos harea hstart hsize hdisjoint
          (hfreed hnot harea hpos).1).mpr (hrestored hnot harea hstart hsize hdisjoint)

/-- One frame that is in use, in available memory. -/
theorem free_area_clears_frame :
    FreesArea .large [⟨0, 0x5000000, 1⟩] 0 ⟨[3#64], 1, 40, 2, 0⟩ 0x200000 0x200000 := by
  have hover : overlapping .large 0x200000 0x200000 = {1} := by
    obtain ⟨c, hover, -, -, hlast, -⟩ := overlapping_eq .large 0x200000 0x200000
    have hc := hlast (by decide)
    simp only [pageSizeInBytes] at hover hc
    obtain rfl : c = 1 := by omega
    exact hover
  refine (free_area_clears .large _ 0 _ 0x200000 0x200000 ⟨by decide, by decide, by decide⟩).mpr
    ⟨?_, ?_, ?_⟩
  · rintro ⟨e, he, htype, -⟩
    rw [List.mem_singleton.mp he] at htype
    exact absurd htype (by decide)
  · intro _ _ _
    rw [hover]
    refine ⟨?_, by decide, ?_⟩
    · rintro ⟨e, he, -⟩
      exact absurd he List.not_mem_nil
    · intro f hf hne
      exact absurd (Finset.mem_singleton.mp hf) hne
  · intro _ _ _ _ _
    decide

/-- After `pmm_setup` with 512 MiB: the third entry of the memory map is reserved, but only
two entries are looked at; and of two frames of available memory one stays marked. -/
theorem free_area_goes_wrong :
    ∃ s, pmmSetup .large 0x200000 2 (bootPmm plainMap exampleTags 0x7fb80) = .ok s ∧
      ¬ FreesArea .large s.mmap.mmapEntries s.countPhysicalReserved s.bitmap 0xf0000 0x10000 ∧
      ¬ FreesArea .large s.mmap.mmapEntries s.countPhysicalReserved s.bitmap 0x200000 0x400000 := by
  obtain ⟨s, hsetup, hentries, hsize, hbios, hsecond⟩ : ∃ s,
      pmmSetup .large 0x200000 2 (bootPmm plainMap exampleTags 0x7fb80) = .ok s ∧
      s.mmap.mmapEntries = plainMap ∧ 0x600000 ≤ s.bitmap.bitmapSize * 0x200000 ∧
      pmmFreeArea .large plainMap s.countPhysicalReserved 0xf0000 0x10000 s.bitmap ≠
        .ok s.bitmap ∧
      ∃ b', pmmFreeArea .large plainMap s.countPhysicalReserved 0x200000 0x400000 s.bitmap =
        .ok b' ∧ BitRows.test b'.memoryMap 2 = true := by decide +kernel
  refine ⟨s, hsetup, fun hfrees => ?_, fun hfrees => ?_⟩
  · rw [hentries] at hfrees
    exact hbios (hfrees.reserved ⟨⟨0xf0000, 0x10000, 2⟩, by decide, by decide,
      by decide, by decide⟩)
  · rw [hentries] at hfrees
    have hfree : ¬ ReservedAt plainMap 0x200000 := by
      unfold ReservedAt
      decide
    obtain ⟨b', hcall, hb'⟩ := hfrees.freed hfree hsize
    obtain ⟨b, hcall', htest⟩ := hsecond
    cases hcall.symm.trans hcall'
    have hin : 2 ∈ b'.used := mem_used.mpr htest
    rw [hb'.used, Finset.mem_sdiff] at hin
    refine hin.2 (Finset.mem_image.mpr ⟨0x400000, ?_, by decide⟩)
    rw [Finset.mem_Ico]
    decide

end Free

end Dreamos64
