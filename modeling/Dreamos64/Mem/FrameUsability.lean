import Dreamos64.Arch.PageTable
import Dreamos64.Mem.BootReservation

/-!
# Dreamos64 — whether an allocated frame is memory

The bitmap is sized from the sum of the available lengths, rounded up to whole
rows; the direct map ends with the last available entry; `hhdm_get_variable`
goes by the boot loader's `mem_upper`. A frame that `pmm_setup` leaves free is
handed out, whatever it is.

* `pmmSetup_used`            — the frames that `pmm_setup` leaves in use, for any
  memory map: no order of the entries is assumed;
* `Kept`, `gaplessStep_kept` — no call of a client frees one of these;
* `allocated_frames_usable`  — so allocated frames are usable when all the bitmap
  leaves free are;
* `allocated_frame_unusable` — two machines on which they are not.
-/

namespace Dreamos64

open Machine

/-! ## What `pmm_setup` leaves in use -/

/-- The number of frames, of `n` from `first` on, before one that is in use. -/
def freeRun (used : Finset Nat) (first : Nat) : Nat → Nat
  | 0 => 0
  | n + 1 => if first ∈ used then 0 else freeRun used (first + 1) n + 1

/-- The frames in use after areas are reserved one by one. -/
def markAreas (used : Finset Nat) (areas : List (Nat × Nat)) : Finset Nat :=
  areas.foldl (fun used a => used ∪ Finset.Ico a.1 (a.1 + freeRun used a.1 a.2)) used

/-- The frames in use after `pmm_setup`, for a memory map and the end of the
early page tables. -/
def setupUsed (m : PageMode) (mmap : Mmap) (anon : Nat) : Finset Nat :=
  markAreas (Finset.range (setupKernelEntries m anon)) (setupAreas m mmap)

theorem freeRun_eq {used : Finset Nat} {first n k : Nat} (hk : k ≤ n)
    (hclear : ∀ f, first ≤ f → f < first + k → f ∉ used) (hstop : k < n → first + k ∈ used) :
    freeRun used first n = k := by
  induction n generalizing first k with
  | zero => exact (Nat.le_zero.mp hk).symm
  | succ n ih =>
    unfold freeRun
    cases k with
    | zero => exact if_pos (hstop (Nat.succ_pos n))
    | succ k =>
      rw [if_neg (hclear first le_rfl (by omega))]
      have hrest : freeRun used (first + 1) n = k := by
        refine ih (by omega) (fun f hlo hhi => hclear f (by omega) (by omega)) fun hlt => ?_
        have hin := hstop (by omega)
        rwa [Nat.add_right_comm, Nat.add_assoc]
      rw [hrest]

theorem reserveAreas_used {areas : List (Nat × Nat)} {b b' : Bitmap}
    (hcount : b.usedFrames < 2 ^ 32) (h : reserveAreas areas b = .ok b') :
    b'.used = markAreas b.used areas ∧ SameShape b b' := by
  -- an area is marked up to the first frame that is in use
  induction areas generalizing b with
  | nil =>
    cases h
    exact ⟨rfl, .refl _⟩
  | cons a rest ih =>
    obtain ⟨first, n⟩ := a
    obtain ⟨b₁, hres, h⟩ := bind_inv h
    obtain ⟨k, hk, hclear, hstop, hb₁⟩ := reserveBits_spec hcount hres
    obtain ⟨hused, hshape⟩ := ih (hb₁.count ▸ Nat.mod_lt _ (by decide)) h
    refine ⟨?_, hb₁.shape.trans hshape⟩
    rw [hused, hb₁.used]
    unfold markAreas
    rw [List.foldl_cons, freeRun_eq hk hclear hstop]

/-- **After `pmm_setup`**, if it returns. -/
theorem pmmSetup_used {m : PageMode} {kernelPhysicalEnd tables : Nat} {boot early s : Pmm}
    (hphys : early.bitmap.memoryMapPhysAddr = 0)
    (hearly : hhdmMapPhysicalMemory m tables (earlyPmm m kernelPhysicalEnd boot) = .ok early)
    (hsetup : pmmSetup m kernelPhysicalEnd tables boot = .ok s) :
    s.bitmap.used = setupUsed m early.mmap early.anonPhysicalMemoryLoc ∧
      s.bitmap.memoryMap.length = setupRows m early.mmap := by
  -- that it returned says where the bitmap was put, and that the kernel fits in it
  obtain ⟨region, hregion, hmapped, hfits⟩ : ∃ region,
      mmapDetermineBitmapRegion (setupTop m early.anonPhysicalMemoryLoc)
        (setupBitmapSize m early.mmap / 8 + 1) early.mmap.mmapEntries = .ok region ∧
      region < early.memorySizeInBytes ∧
      setupKernelEntries m early.anonPhysicalMemoryLoc / bitmapRowBits <
        setupRows m early.mmap := by
    unfold pmmSetup at hsetup
    dsimp only at hsetup
    rw [hearly, ok_bind] at hsetup
    obtain ⟨b, hinit, -⟩ := bind_inv hsetup
    have hfits := (initializeBitmap_ok hinit).1
    unfold initializeBitmap at hinit
    obtain ⟨region, hregion, hinit⟩ := bind_inv hinit
    dsimp only at hinit
    split_ifs at hinit with hnull
    exact ⟨region, hregion, Nat.lt_of_not_le hnull, hfits⟩
  obtain ⟨count, heq⟩ := pmmSetup_eq hphys hregion hmapped hfits hearly
  rw [heq] at hsetup
  obtain ⟨b, hres, hsetup⟩ := bind_inv hsetup
  cases hsetup
  have hrange : (setupBitmap m early).used =
      Finset.range (setupKernelEntries m early.anonPhysicalMemoryLoc) := by
    ext f
    rw [mem_used, Finset.mem_range]
    show BitRows.test (initialRows _ _) f = true ↔ _
    rw [initialRows_test hfits, decide_eq_true_eq]
  obtain ⟨hused, hshape⟩ := reserveAreas_used (computeKernelEntries_lt _ _) hres
  rw [hrange] at hused
  exact ⟨hused, hshape.rows.trans (initialRows_length _ _)⟩

/-! ## Clients keep these in use -/

section Clients

variable {m : PageMode} {entries : List MmapEntry} {countPhysicalReserved : Nat}
  {s s' : FrameState} {marked : Finset Nat} {rows : Nat}

/-- A permitted call that returns; an area it finds has no gap. -/
def gaplessStep (m : PageMode) (entries : List MmapEntry) (countPhysicalReserved : Nat)
    (s : FrameState) (c : PmmCall) (s' : FrameState) : Prop :=
  (∀ size, c = .allocArea size → Unspanned m s.bitmap size) ∧
    pmmStep m entries countPhysicalReserved s c s'

/-- The frames `marked` are in use and belong to nobody. -/
structure Kept (marked : Finset Nat) (rows : Nat) (s : FrameState) : Prop where
  sized  : Sized s.bitmap
  rows   : s.bitmap.memoryMap.length = rows
  used   : marked ⊆ s.bitmap.used
  nobody : ∀ f ∈ s.held.flatten, f ∉ marked

/-- What an owner holds is held. -/
theorem mem_flatten_of_owner {held : List (List Nat)} {owner f : Nat}
    (h : f ∈ held.getD owner []) : f ∈ held.flatten := by
  rw [List.getD_eq_getElem?_getD] at h
  cases hget : held[owner]? with
  | none => simp [hget] at h
  | some l =>
    rw [hget] at h
    exact List.mem_flatten.mpr ⟨l, List.mem_of_getElem? hget, h⟩

theorem Effect.kept (he : Effect s s') (hs : Kept marked rows s) : Kept marked rows s' := by
  have hsized := he.sized hs.sized
  cases he with
  | take l _ hfree hheld hb =>
    refine ⟨hsized, hb.shape.rows.trans hs.rows, ?_, ?_⟩
    · rw [hb.used]
      exact hs.used.trans Finset.subset_union_left
    · intro f hf
      rcases hheld with hheld | hheld
      · exact hs.nobody f (hheld ▸ hf)
      · rw [hheld, List.flatten_append, List.flatten_singleton, List.mem_append] at hf
        exact hf.elim (hs.nobody f) fun hl hin => hfree f hl (hs.used hin)
  | refuse owner l hheld hb =>
    refine ⟨hsized, hb ▸ hs.rows, hb ▸ hs.used, fun f hf => ?_⟩
    exact hs.nobody f ((giveUp_sublist owner l s.held).subset (hheld ▸ hf))
  | free owner g howner hheld hb =>
    refine ⟨hsized, hb.shape.rows.trans hs.rows, ?_, fun f hf => ?_⟩
    · rw [hb.used]
      exact Finset.subset_erase.mpr ⟨hs.used, hs.nobody g (mem_flatten_of_owner howner)⟩
    · exact hs.nobody f ((giveUp_sublist owner [g] s.held).subset (hheld ▸ hf))

theorem freeArea_kept {owner startingAddress size fuel : Nat} (hs : Kept marked rows s)
    (howner : permitted m s (.freeArea owner startingAddress size))
    (h : pmmExec m entries countPhysicalReserved fuel s (.freeArea owner startingAddress size) =
      .ok s') : Kept marked rows s' := by
  obtain ⟨b, hfree, h⟩ := bind_inv h
  cases h
  have hheld : ∀ f ∈ (giveUp owner (areaOf m startingAddress size) s.held).flatten, f ∉ marked :=
    fun f hf => hs.nobody f ((giveUp_sublist owner _ s.held).subset hf)
  unfold pmmFreeArea at hfree
  split_ifs at hfree
  · cases hfree
    exact ⟨hs.sized, hs.rows, hs.used, hheld⟩
  · rcases Nat.eq_zero_or_pos (areaFrames m size) with hn | hn
    · rw [hn] at hfree
      cases hfree
      exact ⟨hs.sized, hs.rows, hs.used, hheld⟩
    · -- the one frame it frees is the first of the area
      have hfirst : startingAddress / pageSizeInBytes m ∈ areaOf m startingAddress size :=
        List.mem_range'_1.mpr ⟨le_rfl, by omega⟩
      have hin := List.all_eq_true.mp howner _ hfirst
      have hnot := hs.nobody _ (mem_flatten_of_owner (List.contains_iff_mem.mp hin))
      obtain ⟨n, hn⟩ := Nat.exists_eq_succ_of_ne_zero hn.ne'
      rw [hn] at hfree
      have hb := freeBits_spec hfree
      refine ⟨hb.sized hs.sized (Nat.mod_lt _ (by decide)), hb.shape.rows.trans hs.rows, ?_, hheld⟩
      rw [hb.used]
      exact Finset.subset_erase.mpr ⟨hs.used, hnot⟩

/-- **No call frees a frame that `pmm_setup` left in use.** -/
theorem gaplessStep_kept {c : PmmCall} (hs : Kept marked rows s)
    (h : gaplessStep m entries countPhysicalReserved s c s') : Kept marked rows s' := by
  obtain ⟨hspan, hperm, fuel, h⟩ := h
  cases c with
  | allocFrame => exact (allocFrame_effect hs.sized h).kept hs
  | allocArea size => exact (allocArea_effect hs.sized (hspan size rfl) h).kept hs
  | reserveArea startingAddress size => exact (reserveArea_effect hs.sized h).kept hs
  | freeFrame owner address => exact (freeFrame_effect hperm h).kept hs
  | freeArea owner startingAddress size => exact freeArea_kept hs hperm h

theorem run_kept {b : Bitmap} {calls : List PmmCall} (hb : Sized b)
    (hrows : b.memoryMap.length = rows) (hused : b.used = marked)
    (hrun : Run (gaplessStep m entries countPhysicalReserved) { bitmap := b, held := [] } calls s) :
    Kept marked rows s := by
  refine hrun.inv (Kept marked rows) ⟨hb, hrows, ?_, by simp⟩ fun hs hstep =>
    gaplessStep_kept hs hstep
  exact fun f hf => hused.symm ▸ hf

/-- A frame that `pmm_alloc_frame` returns is one of the bitmap, and not `marked`. -/
theorem Kept.allocFrame {fuel a : Nat} {b' : Bitmap} (hs : Kept marked rows s)
    (h : pmmAllocFrame m fuel s.bitmap = .ok (a, b')) (hne : a ≠ 0) :
    ∃ f, f ∉ marked ∧ f < bitmapRowBits * rows ∧ a = f * pageSizeInBytes m := by
  rcases pmmAllocFrame_spec hs.sized h with ⟨rfl, -⟩ | ⟨f, -, hfree, rfl, hb⟩
  · exact absurd rfl hne
  · refine ⟨f, fun hin => hfree (hs.used hin), ?_, rfl⟩
    have hin : f ∈ b'.used := by
      rw [hb.used]
      exact Finset.mem_insert_self f _
    have hrow := BitRows.lt_of_test (mem_used.mp hin)
    rw [hb.shape.rows, hs.rows] at hrow
    unfold bitmapRowBits
    omega

end Clients

/-! ## Usable frames -/

/-- The frame at `a` lies in one available entry. -/
def InAvailable (m : PageMode) (entries : List MmapEntry) (a : Nat) : Prop :=
  ∃ e ∈ entries, e.type = mmapAvailable ∧ e.addr ≤ a ∧ a + pageSizeInBytes m ≤ e.addr + e.len

instance (m : PageMode) (entries : List MmapEntry) (a : Nat) :
    Decidable (InAvailable m entries a) :=
  inferInstanceAs (Decidable (∃ e ∈ entries, _))

/-- `pmm_alloc_frame` only gives out memory: an available frame that
`hhdm_get_variable` has an address for. -/
def AllocUsable (m : PageMode) (entries : List MmapEntry) (memorySizeInBytes : Nat)
    (b : Bitmap) : Prop :=
  ∀ fuel a b', pmmAllocFrame m fuel b = .ok (a, b') → a ≠ 0 →
    InAvailable m entries a ∧
    ∀ vm : Vm, vm.memorySizeInBytes = memorySizeInBytes → hhdmGetVariable m vm a ≠ none

/-- The memory map has no gap where it matters: every frame of the bitmap's rows
that `pmm_setup` does not mark is available and begins below
`memory_size_in_bytes`. -/
def Backed (m : PageMode) (mmap : Mmap) (memorySizeInBytes anon : Nat) : Prop :=
  ∀ f < bitmapRowBits * setupRows m mmap, f ∉ setupUsed m mmap anon →
    InAvailable m mmap.mmapEntries (f * pageSizeInBytes m) ∧
      f * pageSizeInBytes m < memorySizeInBytes

/-- **Allocated frames are usable**, on a machine that is `Backed`, in every state
that clients reach after `pmm_setup` whose areas are found without a gap. -/
theorem allocated_frames_usable (m : PageMode) (entries : List MmapEntry) (multiboot : Multiboot)
    (memUpper kernelPhysicalEnd tables : Nat) (early s₀ : Pmm) (calls : List PmmCall)
    (s : FrameState)
    (hearly : hhdmMapPhysicalMemory m tables { bootPmm entries multiboot memUpper with
      anonPhysicalMemoryLoc := alignUp ((kernelPhysicalEnd + 8 * pageSizeInBytes m) % 2 ^ 64)
        (pageSizeInBytes m) } = .ok early)
    (hbacked : Backed m (mmapParse entries) ((memUpper + 1024) * 1024 % 2 ^ 32)
      early.anonPhysicalMemoryLoc)
    (hsetup : pmmSetup m kernelPhysicalEnd tables (bootPmm entries multiboot memUpper) = .ok s₀)
    (hrun : Run (gaplessStep m s₀.mmap.mmapEntries s₀.countPhysicalReserved)
      { bitmap := s₀.bitmap, held := [] } calls s) :
    AllocUsable m entries ((memUpper + 1024) * 1024 % 2 ^ 32) s.bitmap := by
  -- the early page tables change nothing but where they end
  obtain ⟨anon, hanon⟩ := hhdmMapPhysicalMemory_ok m tables
    (earlyPmm m kernelPhysicalEnd (bootPmm entries multiboot memUpper)) rfl
  have hstate : early = { bootPmm entries multiboot memUpper with anonPhysicalMemoryLoc := anon } :=
    Except.ok.inj (hearly.symm.trans hanon)
  have hmmap : early.mmap = mmapParse entries := congrArg Pmm.mmap hstate
  have hphys : early.bitmap.memoryMapPhysAddr = 0 :=
    congrArg (fun s : Pmm => s.bitmap.memoryMapPhysAddr) hstate
  obtain ⟨hused, hrows⟩ := pmmSetup_used hphys hearly hsetup
  rw [hmmap] at hused hrows
  have hkept := run_kept (pmmSetup_sized hsetup) hrows hused hrun
  intro fuel a b' halloc hne
  obtain ⟨f, hfree, hlt, rfl⟩ := hkept.allocFrame halloc hne
  obtain ⟨havail, hbelow⟩ := hbacked f hlt hfree
  rw [mmapParse_entries] at havail
  refine ⟨havail, fun vm hvm => ?_⟩
  rw [← hvm] at hbelow
  unfold hhdmGetVariable
  rw [if_pos hbelow]
  exact Option.some_ne_none _

/-- 200 MiB, unusable memory up to the last frame of the bitmap's two rows, and
20 MiB further up. -/
def coveredMap : List MmapEntry :=
  lowEntries ++ [{ addr := 0x100000, len := 0xc700000, type := 1 },
    { addr := 0xc800000, len := 0x3800000, type := 2 },
    { addr := 0x19000000, len := 0x1400000, type := 1 }]

/-- What `pmm_setup` makes of it. -/
def coveredSetup : Pmm :=
  { bootPmm coveredMap exampleTags 0x31c00 with
    bitmap := { memoryMap := [0xfff#64, 0xfffffff000000000#64], numberOfEntries := 2
                bitmapSize := 110, usedFrames := 40, memoryMapPhysAddr := 0 }
    countPhysicalReserved := 3
    anonPhysicalMemoryLoc := 0x1202000
    pmmInitialized := true }

theorem backed_coveredMap : Backed .large (mmapParse coveredMap) 0xc800000 0x1202000 := by
  have hrows : setupRows .large (mmapParse coveredMap) = 2 := by decide +kernel
  unfold Backed
  rw [hrows]
  decide +kernel

theorem allocated_frames_usable_coveredMap :
    Run (gaplessStep .large coveredSetup.mmap.mmapEntries 3)
        { bitmap := coveredSetup.bitmap, held := [] } [.allocFrame]
        { bitmap := { coveredSetup.bitmap with
            memoryMap := [0x1fff#64, 0xfffffff000000000#64], usedFrames := 41 }
          held := [[12]] } ∧
      AllocUsable .large coveredMap 0xc800000 { coveredSetup.bitmap with
        memoryMap := [0x1fff#64, 0xfffffff000000000#64], usedFrames := 41 } := by
  have hstep : gaplessStep .large coveredSetup.mmap.mmapEntries 3
      { bitmap := coveredSetup.bitmap, held := [] } .allocFrame
      { bitmap := { coveredSetup.bitmap with
          memoryMap := [0x1fff#64, 0xfffffff000000000#64], usedFrames := 41 }
        held := [[12]] } := by
    refine ⟨fun size h => ?_, rfl, 1, by decide +kernel⟩
    cases h
  have hrun := Run.extend Run.start hstep
  refine ⟨hrun, ?_⟩
  exact allocated_frames_usable .large coveredMap exampleTags 0x31c00 0x200000 2
    { bootPmm coveredMap exampleTags 0x31c00 with anonPhysicalMemoryLoc := 0x1202000 }
    coveredSetup _ _ (by decide +kernel) backed_coveredMap (by decide +kernel) hrun

/-! ## Machines on which they are not -/

theorem not_allocUsable {m : PageMode} {entries : List MmapEntry}
    {memorySizeInBytes fuel a : Nat} {b b' : Bitmap} (h : pmmAllocFrame m fuel b = .ok (a, b'))
    (hne : a ≠ 0) (hout : ¬ InAvailable m entries a) :
    ¬ AllocUsable m entries memorySizeInBytes b :=
  fun husable => hout (husable fuel a b' h hne).1

/-- 6 GiB, the upper half of them above 4 GiB. -/
def sixGibMap : List MmapEntry :=
  lowEntries ++ [{ addr := 0x100000, len := 0xbfee0000, type := 1 },
    { addr := 0xbffe0000, len := 0x20000, type := 2 },
    { addr := 0xfeffc000, len := 0x4000, type := 2 },
    { addr := 0xfffc0000, len := 0x40000, type := 2 },
    { addr := 0x100000000, len := 0xc0000000, type := 1 }]

/-- **`pmm_alloc_frame` returns what is not memory.** On 512 MiB without a hole,
four areas fill the rows of the bitmap to sixty frames each, which both searches
then skip; the next frame is 256, the first of the row that only pads the bitmap.
On 6 GiB the frames between the two halves of memory have no entry, so nobody
reserves them; once the lower half is taken, the next frame is one of these. -/
theorem allocated_frame_unusable :
    (∃ s, Run (pmmStep .large exampleSetup.mmap.mmapEntries exampleSetup.countPhysicalReserved)
        { bitmap := exampleSetup.bitmap, held := [] }
        [.allocArea (48 * 0x200000), .allocArea (60 * 0x200000), .allocArea (60 * 0x200000),
          .allocArea (60 * 0x200000)] s ∧
      ¬ AllocUsable .large exampleBoot.mmap.mmapEntries exampleBoot.memorySizeInBytes s.bitmap) ∧
    ∃ s₀ s, pmmSetup .large 0x200000 9 (bootPmm sixGibMap exampleTags 0x2ffb80) = .ok s₀ ∧
      Run (pmmStep .large s₀.mmap.mmapEntries s₀.countPhysicalReserved)
        { bitmap := s₀.bitmap, held := [] } [.allocArea (1523 * 0x200000)] s ∧
      ¬ AllocUsable .large sixGibMap s₀.memorySizeInBytes s.bitmap := by
  constructor
  -- the bitmap has rows for more than the memory
  · refine (exists_pmmRun 5 (P := fun s => ∃ b', pmmAllocFrame .large 5 s.bitmap =
      .ok (0x20000000, b') ∧ True) (by decide +kernel)).imp fun s hs => ⟨hs.1, ?_⟩
    obtain ⟨b', halloc, -⟩ := hs.2
    exact not_allocUsable halloc (by decide) (by decide +kernel)
  · obtain ⟨s₀, hsetup, hcalls⟩ : ∃ s₀,
        pmmSetup .large 0x200000 9 (bootPmm sixGibMap exampleTags 0x2ffb80) = .ok s₀ ∧
        ∃ s, [PmmCall.allocArea (1523 * 0x200000)].foldlM (fun s c => if permitted .large s c then
            pmmExec .large s₀.mmap.mmapEntries s₀.countPhysicalReserved 25 s c
          else .error .halted) ⟨s₀.bitmap, []⟩ = .ok s ∧
        ∃ b', pmmAllocFrame .large 25 s.bitmap = .ok (0xc0000000, b') ∧ True := by decide +kernel
    obtain ⟨s, hrun, b', halloc, -⟩ := exists_pmmRun 25 hcalls
    exact ⟨s₀, s, hsetup, hrun, not_allocUsable halloc (by decide) (by decide +kernel)⟩

end Dreamos64
