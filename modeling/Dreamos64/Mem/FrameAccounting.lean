import Dreamos64.Mem.FrameOwnership

/-!
# Dreamos64 — the counter of used frames

`used_frames` is what `pmm_check_frame_availability` looks at; the bitmap is what
the searches look at. The two are updated separately, so that they agree is an
invariant of runs.

* `initializeBitmap_used`  — the frames in use after `_initialize_bitmap`;
* `Effect.accounted`       — a call of the abstract system keeps the counter
  right, up to the wrap of a `uint32_t`;
* `used_frames_accurate`   — so the counter is right along every careful run;
* `used_frames_drift`      — and wrong after one call of `pmm_free_area` on an
  area of two frames.
-/

namespace Dreamos64

open Machine

/-! ## The initial state -/

/-- The row that `_initialize_bitmap` fills in part. -/
theorem getLsbD_partialRow {k column : Nat} (hc : column < 64) :
    (~~~(~~~0#64 <<< k)).getLsbD column = decide (column < k) := by
  rw [BitVec.getLsbD_not, BitVec.getLsbD_shiftLeft, BitVec.getLsbD_not]
  by_cases hlt : column < k
  · simp [hc, hlt]
  · have hsub : column - k < 64 := by omega
    simp [hc, hlt, hsub]

/-- The rows of `_initialize_bitmap` hold a prefix of the frames. -/
theorem initialRows_test {n k : Nat} (hk : k / bitmapRowBits < n) (i : Nat) :
    BitRows.test (initialRows n k) i = decide (i < k) := by
  unfold bitmapRowBits at hk
  have hmod : i % 64 < 64 := Nat.mod_lt i (by decide)
  unfold BitRows.test initialRows bitmapRowBits
  by_cases hrow : i / 64 < n
  · rw [List.getD_eq_getElem?_getD, List.getElem?_map, List.getElem?_range hrow]
    simp only [Option.map_some, Option.getD_some]
    split_ifs with hfull hpart
    · -- a full row
      have hlt : i < k := by omega
      rw [BitVec.getLsbD_not, decide_eq_true hlt]
      simp [hmod]
    · rw [getLsbD_partialRow hmod]
      congr 1
      exact propext (by omega)
    · have hge : ¬ i < k := by omega
      simp [hge]
  · have hge : ¬ i < k := by omega
    rw [List.getD_eq_getElem?_getD, List.getElem?_eq_none (by simp; omega)]
    simp [hge]

/-- **After `_initialize_bitmap`** the frames in use are those below
`kernel_entries`. -/
theorem initializeBitmap_used {m : PageMode} {entries : List MmapEntry}
    {memorySizeInBytes memorySize top : Nat} {b b' : Bitmap}
    (h : initializeBitmap m entries memorySizeInBytes memorySize top b = .ok b') :
    b'.used = Finset.range (computeKernelEntries m top) ∧
      b'.usedFrames = computeKernelEntries m top := by
  obtain ⟨hrow, rfl⟩ := initializeBitmap_ok h
  refine ⟨?_, rfl⟩
  ext i
  rw [mem_used, initialRows_test hrow, Finset.mem_range, decide_eq_true_eq]

/-! ## The invariant -/

/-- The counter is the number of used frames, as far as a `uint32_t` can tell. -/
structure Accounted (s : FrameState) : Prop extends Exclusive s where
  counted : s.bitmap.usedFrames = s.bitmap.used.card % 2 ^ 32

theorem Effect.accounted {s s' : FrameState} (he : Effect s s') (hs : Accounted s) :
    Accounted s' := by
  refine ⟨he.exclusive hs.toExclusive, ?_⟩
  have hcounted := hs.counted
  cases he with
  | take l hnodup hfree hheld hb =>
    have hdisj : Disjoint s.bitmap.used l.toFinset :=
      Finset.disjoint_right.mpr fun f hf => hfree f (List.mem_toFinset.mp hf)
    rw [hb.count, hb.used, Finset.card_union_of_disjoint hdisj,
      List.toFinset_card_of_nodup hnodup]
    omega
  | refuse owner l hheld hb =>
    rw [hb]
    exact hcounted
  | free owner f howner hheld hb =>
    -- the frame is held, so its bit was set and the count goes down by one
    have hheld' : f ∈ s.held.flatten := by
      rw [List.getD_eq_getElem?_getD] at howner
      cases hg : s.held[owner]? with
      | none => simp [hg] at howner
      | some l =>
        rw [hg] at howner
        exact List.mem_flatten.mpr ⟨l, List.mem_of_getElem? hg, howner⟩
    have hused := hs.marked f hheld'
    have hpos : 0 < s.bitmap.used.card := Finset.card_pos.mpr ⟨f, hused⟩
    rw [hb.count, hb.used, Finset.card_erase_of_mem hused]
    omega

/-! ## Runs from `_initialize_bitmap` -/

/-- **Frame accounting.** From the state left by `_initialize_bitmap`, in every
run of careful calls, `used_frames` is the number of set bits, for a bitmap whose
bits a `uint32_t` can count. -/
theorem used_frames_accurate (m : PageMode) (entries : List MmapEntry)
    (memorySizeInBytes memorySize top countPhysicalReserved : Nat) (b b₀ : Bitmap)
    (calls : List PmmCall) (s : FrameState)
    (hinit : initializeBitmap m entries memorySizeInBytes memorySize top b = .ok b₀)
    (hbits : bitmapRowBits * b₀.numberOfEntries < 2 ^ 32)
    (hrun : Run (carefulStep m entries countPhysicalReserved)
      { bitmap := b₀, held := [] } calls s) :
    s.bitmap.usedFrames = s.bitmap.used.card := by
  have hsized := initializeBitmap_sized hinit
  obtain ⟨hused, hcount⟩ := initializeBitmap_used hinit
  have hrows : b₀.memoryMap.length = b₀.numberOfEntries := by
    obtain ⟨-, rfl⟩ := initializeBitmap_ok hinit
    exact initialRows_length _ _
  have hstart : Accounted { bitmap := b₀, held := [] } := by
    refine ⟨⟨hsized, by simp, by simp⟩, ?_⟩
    show b₀.usedFrames = b₀.used.card % 2 ^ 32
    rw [hused, Finset.card_range, hcount]
    exact (Nat.mod_eq_of_lt (computeKernelEntries_lt m top)).symm
  -- the number of rows never changes, so the count never reaches the wrap
  have hinv := hrun.inv
    (fun s => Accounted s ∧ s.bitmap.memoryMap.length = b₀.numberOfEntries)
    ⟨hstart, hrows⟩ ?_
  · obtain ⟨hacc, hlen⟩ := hinv
    have hcard : s.bitmap.used.card ≤ 64 * s.bitmap.memoryMap.length := BitRows.card_ones_le
    rw [hacc.counted, Nat.mod_eq_of_lt]
    unfold bitmapRowBits at hbits
    omega
  · rintro t u c ⟨hacc, hlen⟩ hstep
    have heff := carefulStep_effect hacc.sized hstep
    refine ⟨heff.accounted hacc, ?_⟩
    cases heff with
    | take l _ _ _ hb => exact hb.shape.rows.trans hlen
    | refuse owner l _ hb => exact hb ▸ hlen
    | free owner f _ _ hb => exact hb.shape.rows.trans hlen

/-- The run of `exampleState`, seen from `_initialize_bitmap`. -/
theorem initializeBitmap_exampleBoot :
    initializeBitmap .large exampleBoot.mmap.mmapEntries exampleBoot.memorySizeInBytes
      exampleBoot.mmap.mmapPhysMemoryAvail 0x1402000 exampleBoot.bitmap =
      .ok (exampleState 0xfff#64 12 []).bitmap := by
  decide +kernel

theorem used_frames_accurate_exampleBoot :
    Run (carefulStep .large exampleBoot.mmap.mmapEntries 0) (exampleState 0xfff#64 12 [])
        [.allocArea (3 * 0x200000), .freeArea 0 (13 * 0x200000) 0x200000]
        (exampleState 0x5fff#64 14 [[12, 14]]) ∧
      (exampleState 0x5fff#64 14 [[12, 14]]).bitmap.usedFrames =
        (exampleState 0x5fff#64 14 [[12, 14]]).bitmap.used.card := by
  have h₁ : carefulStep .large exampleBoot.mmap.mmapEntries 0 (exampleState 0xfff#64 12 [])
      (.allocArea (3 * 0x200000)) (exampleState 0x7fff#64 15 [[12, 13, 14]]) :=
    ⟨unspanned_exampleSetup, rfl, 1, by decide +kernel⟩
  have h₂ : carefulStep .large exampleBoot.mmap.mmapEntries 0
      (exampleState 0x7fff#64 15 [[12, 13, 14]]) (.freeArea 0 (13 * 0x200000) 0x200000)
      (exampleState 0x5fff#64 14 [[12, 14]]) :=
    ⟨Or.inl (by decide), by decide +kernel, 1, by decide +kernel⟩
  have hrun := Run.extend (Run.extend Run.start h₁) h₂
  exact ⟨hrun, used_frames_accurate .large _ _ _ 0x1402000 0 _ _ _ _
    initializeBitmap_exampleBoot (by decide) hrun⟩

/-- **The counter drifts.** An area of two frames is taken and given back;
`pmm_free_area` counts two frames down but clears one bit, twice. -/
theorem used_frames_drift :
    ∃ b₀ s, initializeBitmap .large exampleBoot.mmap.mmapEntries exampleBoot.memorySizeInBytes
        exampleBoot.mmap.mmapPhysMemoryAvail 0x1402000 exampleBoot.bitmap = .ok b₀ ∧
      Run (pmmStep .large exampleBoot.mmap.mmapEntries 0) { bitmap := b₀, held := [] }
        [.allocArea (2 * 0x200000), .freeArea 0 (12 * 0x200000) (2 * 0x200000)] s ∧
      s.bitmap.usedFrames = 12 ∧ s.bitmap.used.card = 13 := by
  exact ⟨exampleState 0xfff#64 12 [] |>.bitmap, (exists_pmmRun 1 (by decide +kernel)).imp
    fun s hs => ⟨initializeBitmap_exampleBoot, hs⟩⟩

end Dreamos64
