import Dreamos64.Mem.FrameAccounting

/-!
# Dreamos64 — what `pmm_setup` reserves

`pmm_setup` fills a prefix of the bitmap and then reserves areas one after the
other: the bitmap's own (at the address the global `memory_map_phys_addr` holds,
which is 0) and the unusable entries of the memory map, in order. A reservation
moves on only from a bit it sets, so one that begins in a frame that is already
marked does nothing. `marks` says which areas are reserved in the end:

* `reserveAreas_outcome` — reserving sorted areas marks exactly `marks`, or runs
  out of the bitmap;
* `setup_outcome`        — the same for `pmm_setup` as a whole;
* `boot_reservation_iff` — so `pmm_setup` reserves all it should exactly when
  `ReservationCovers` holds of its input;
* `boot_reservation_fails` — machines for which it does not.
-/

namespace Dreamos64

open Machine

/-! ## One area -/

section Area

variable {b : Bitmap} {n location : Nat}

/-- A reservation that begins in a used frame stays there. -/
theorem reserveBits_stuck (hused : location ∈ b.used) : reserveBits n location b = .ok b := by
  have hrow := BitRows.lt_of_test (mem_used.mp hused)
  induction n with
  | zero => rfl
  | succ n ih =>
    unfold reserveBits bitmapTestBit bitmapRowBits
    rw [if_pos hrow, mem_used.mp hused]
    exact ih

/-- One turn of a reservation at a free frame of the bitmap. -/
theorem reserveBits_free (hfree : location ∉ b.used)
    (hrow : location < bitmapRowBits * b.memoryMap.length) :
    ∃ b₁, Becomes b b₁ (insert location b.used) ((b.usedFrames + 1) % 2 ^ 32) ∧
      reserveBits (n + 1) location b = reserveBits n (location + 1) b₁ := by
  have hdiv : location / bitmapRowBits < b.memoryMap.length := by
    unfold bitmapRowBits at *
    omega
  have htest : BitRows.test b.memoryMap location = false := by
    rw [mem_used] at hfree
    simpa using hfree
  have hset : bitmapSetBit location b =
      .ok { b with memoryMap := BitRows.set b.memoryMap location } :=
    if_pos hdiv
  refine ⟨_, (bitmapSetBit_spec hset).addUsed 1, ?_⟩
  conv_lhs => unfold reserveBits
  unfold bitmapTestBit
  rw [if_pos hdiv, htest, ok_bind]
  simp only [Bool.not_false, if_true]
  rw [hset, ok_bind]

/-- A reservation inside the bitmap returns. -/
theorem reserveBits_returns (hfits : location + n ≤ bitmapRowBits * b.memoryMap.length) :
    ∃ b', reserveBits n location b = .ok b' := by
  induction n generalizing location b with
  | zero => exact ⟨b, rfl⟩
  | succ n ih =>
    by_cases hused : location ∈ b.used
    · exact ⟨b, reserveBits_stuck hused⟩
    · obtain ⟨b₁, hb₁, heq⟩ := reserveBits_free (n := n) hused (by omega)
      rw [heq]
      exact ih (by rw [hb₁.shape.rows]; omega)

/-- A reservation of free frames that leaves the bitmap does not. -/
theorem reserveBits_leaves (hpos : 0 < n) (hfree : ∀ f, location ≤ f → f ∉ b.used)
    (hout : bitmapRowBits * b.memoryMap.length < location + n) :
    reserveBits n location b = .error .outOfBounds := by
  induction n generalizing location b with
  | zero => omega
  | succ n ih =>
    by_cases hrow : location < bitmapRowBits * b.memoryMap.length
    · obtain ⟨b₁, hb₁, heq⟩ := reserveBits_free (n := n) (hfree location le_rfl) hrow
      rw [heq]
      refine ih (by omega) (fun f hlo hin => ?_) (by rw [hb₁.shape.rows]; omega)
      rw [hb₁.used, Finset.mem_insert] at hin
      exact hin.elim (by omega) (hfree f (by omega))
    · have hdiv : ¬ location / bitmapRowBits < b.memoryMap.length := by
        unfold bitmapRowBits at *
        omega
      unfold reserveBits bitmapTestBit
      rw [if_neg hdiv, error_bind]

end Area

/-! ## Areas in order -/

/-- `pmm_reserve_area` on areas given by their first frame and their number of
frames. -/
def reserveAreas : List (Nat × Nat) → Bitmap → Exec Bitmap
  | [], b => .ok b
  | (first, n) :: rest, b => do
    let b ← reserveBits n first b
    reserveAreas rest b

/-- The areas that are reserved when all frames below `top` are in use: an area
that begins below `top` is passed over, any other moves `top` to its end. -/
def marks : Nat → List (Nat × Nat) → List (Nat × Nat)
  | _, [] => []
  | top, (first, n) :: rest =>
    if first < top then marks top rest else (first, n) :: marks (first + n) rest

/-- A frame of one of the areas. -/
def InAreas (areas : List (Nat × Nat)) (f : Nat) : Prop :=
  ∃ a ∈ areas, a.1 ≤ f ∧ f < a.1 + a.2

/-- No reserved area leaves a bitmap of `rows` rows. -/
def AreasFit (rows : Nat) (areas : List (Nat × Nat)) : Prop :=
  ∀ a ∈ areas, a.2 = 0 ∨ a.1 + a.2 ≤ bitmapRowBits * rows

theorem areasFit_cons {rows : Nat} {a : Nat × Nat} {areas : List (Nat × Nat)} :
    AreasFit rows (a :: areas) ↔
      (a.2 = 0 ∨ a.1 + a.2 ≤ bitmapRowBits * rows) ∧ AreasFit rows areas := by
  unfold AreasFit
  exact List.forall_mem_cons

theorem inAreas_cons {a : Nat × Nat} {areas : List (Nat × Nat)} {f : Nat} :
    InAreas (a :: areas) f ↔ (a.1 ≤ f ∧ f < a.1 + a.2) ∨ InAreas areas f := by
  simp [InAreas]

/-- What becomes of a bitmap when areas are reserved: all of `marked` is added, or
some of it is not in the bitmap. -/
def ReserveOutcome (b : Bitmap) (marked : List (Nat × Nat)) (r : Exec Bitmap) : Prop :=
  (AreasFit b.memoryMap.length marked ∧ ∃ b', r = .ok b' ∧ SameShape b b' ∧
    ∀ f, f ∈ b'.used ↔ f ∈ b.used ∨ InAreas marked f) ∨
  (¬ AreasFit b.memoryMap.length marked ∧ r = .error .outOfBounds)

/-- An area above all used frames, followed by the rest. -/
theorem reserveOutcome_cons {b b' : Bitmap} {first n counter : Nat} {marked : List (Nat × Nat)}
    {r : Exec Bitmap} (hb : Becomes b b' (b.used ∪ Finset.Ico first (first + n)) counter)
    (hfits : n = 0 ∨ first + n ≤ bitmapRowBits * b.memoryMap.length)
    (hrest : ReserveOutcome b' marked r) : ReserveOutcome b ((first, n) :: marked) r := by
  unfold ReserveOutcome at *
  rw [hb.shape.rows, hb.used] at hrest
  rw [areasFit_cons]
  refine hrest.imp ?_ ?_
  · rintro ⟨hfit, c, rfl, hshape, hused⟩
    refine ⟨⟨hfits, hfit⟩, c, rfl, hb.shape.trans hshape, fun f => ?_⟩
    rw [hused, inAreas_cons, Finset.mem_union, Finset.mem_Ico, or_assoc]
  · rintro ⟨hfit, rfl⟩
    exact ⟨fun h => hfit h.2, rfl⟩

/-- **Reserving areas in order.** Above `low` the frames in use are those below
`top`; the areas begin above `low` and are sorted. -/
theorem reserveAreas_outcome {areas : List (Nat × Nat)} {b : Bitmap} {low top : Nat}
    (hcount : b.usedFrames < 2 ^ 32) (hsorted : areas.Pairwise fun a a' => a.1 ≤ a'.1)
    (hlow : ∀ a ∈ areas, low ≤ a.1) (htop : ∀ f, low ≤ f → (f ∈ b.used ↔ f < top)) :
    ReserveOutcome b (marks top areas) (reserveAreas areas b) := by
  -- the areas are sorted, so an area meets only frames that are taken up to some `top`
  induction areas generalizing b low top with
  | nil =>
    refine Or.inl ⟨by simp [AreasFit, marks], b, rfl, .refl b, fun f => ?_⟩
    simp [InAreas, marks]
  | cons a rest ih =>
    obtain ⟨first, n⟩ := a
    obtain ⟨hfirst, hrest⟩ := List.pairwise_cons.mp hsorted
    have hlo : low ≤ first := hlow _ List.mem_cons_self
    unfold marks reserveAreas
    split_ifs with hbelow
    · -- it begins in a used frame: nothing happens
      have hused : first ∈ b.used := (htop first hlo).mpr hbelow
      rw [reserveBits_stuck hused, ok_bind]
      exact ih hcount hrest (fun a ha => hlow a (List.mem_cons_of_mem _ ha)) htop
    · have hfree : ∀ f, first ≤ f → f ∉ b.used := fun f hf hin => by
        have := (htop f (by omega)).mp hin
        omega
      by_cases hfits : n = 0 ∨ first + n ≤ bitmapRowBits * b.memoryMap.length
      · obtain ⟨b₁, hres⟩ : ∃ b₁, reserveBits n first b = .ok b₁ := by
          rcases hfits with rfl | hfits
          · exact ⟨b, rfl⟩
          · exact reserveBits_returns hfits
        obtain ⟨k, hk, -, hstop, hb₁⟩ := reserveBits_spec hcount hres
        obtain rfl : k = n := by
          by_contra hne
          exact hfree (first + k) (by omega) (hstop (by omega))
        rw [hres, ok_bind]
        refine reserveOutcome_cons hb₁ hfits (ih ?_ hrest hfirst fun f hf => ?_)
        · rw [hb₁.count]
          exact Nat.mod_lt _ (by decide)
        · rw [hb₁.used, Finset.mem_union, Finset.mem_Ico]
          have := hfree f hf
          tauto
      · obtain ⟨hpos, hout⟩ := not_or.mp hfits
        refine Or.inr ⟨fun hfit => hfits (areasFit_cons.mp hfit).1, ?_⟩
        rw [reserveBits_leaves (Nat.pos_of_ne_zero hpos) hfree (by omega), error_bind]

/-! ## Early page tables -/

/-- The search for room for an early page table ends: it moves up, and only
below `memory_size_in_bytes`. -/
theorem skipUnavailable_returns (s : Pmm) (anon : Nat) :
    ∃ anon', loop (skipUnavailableBody s) (s.memorySizeInBytes / pageDirSize + 2) anon =
      .ok anon' := by
  have hloop : ∃ anon', loop (skipUnavailableBody s) (s.memorySizeInBytes / pageDirSize + 2) anon =
      .ok anon' ∧ True := by
    -- every turn moves `PAGE_DIR_SIZE` closer to the end of memory
    refine loop_total (fun n a => s.memorySizeInBytes ≤ a + n * pageDirSize) (fun _ => True) ?_
      (?_ : s.memorySizeInBytes ≤ anon + (s.memorySizeInBytes / pageDirSize + 1) * pageDirSize)
      (Nat.lt_succ_self _)
    · intro n a hn
      unfold skipUnavailableBody
      split_ifs with hgo
      · obtain ⟨-, hlt⟩ := hgo
        obtain ⟨k, rfl⟩ : ∃ k, n = k + 1 := ⟨n - 1, by
          have : n ≠ 0 := by
            rintro rfl
            omega
          omega⟩
        refine Or.inl ⟨_, rfl, k, Nat.lt_succ_self k, ?_⟩
        rw [Nat.add_mul] at hn
        omega
      · exact Or.inr ⟨_, rfl, trivial⟩
    · unfold pageDirSize
      omega
  exact hloop.imp fun _ => And.left

/-- `hhdm_map_physical_memory` returns; it moves `anon_physical_memory_loc` and
changes nothing else. -/
theorem hhdmMapPhysicalMemory_ok (m : PageMode) (tables : Nat) (s : Pmm)
    (hinit : s.pmmInitialized = false) :
    ∃ anon, hhdmMapPhysicalMemory m tables s = .ok { s with anonPhysicalMemoryLoc := anon } := by
  induction tables generalizing s with
  | zero => exact ⟨s.anonPhysicalMemoryLoc, rfl⟩
  | succ tables ih =>
    obtain ⟨a, ha⟩ := skipUnavailable_returns s s.anonPhysicalMemoryLoc
    obtain ⟨anon, hanon⟩ := ih { s with anonPhysicalMemoryLoc := (a + pageDirSize) % 2 ^ 64 } hinit
    refine ⟨anon, ?_⟩
    unfold hhdmMapPhysicalMemory pmmPrepareNewPagetable
    rw [if_pos (by simp [hinit]), ha, ok_bind, ok_bind]
    exact hanon

/-! ## The whole of `pmm_setup` -/

/-- The entries that `_mmap_setup` reserves, as areas of frames. -/
def reservedAreas (m : PageMode) (upperAddressToMap : Nat) (entries : List MmapEntry) :
    List (Nat × Nat) :=
  (entries.filter fun e => e.addr < upperAddressToMap ∧ e.type > 1).map fun e =>
    (e.addr / pageSizeInBytes m, areaFrames m e.len)

theorem reserveEntries_eq (m : PageMode) (upper : Nat) (entries : List MmapEntry) (count : Nat) :
    ∃ count', ∀ b, reserveEntries m upper entries (b, count) =
      (reserveAreas (reservedAreas m upper entries) b >>= fun b => .ok (b, count')) := by
  induction entries generalizing count with
  | nil => exact ⟨count, fun b => rfl⟩
  | cons e rest ih =>
    unfold reserveEntries
    by_cases he : e.addr < upper ∧ e.type > 1
    · obtain ⟨count', hrest⟩ := ih ((count + 1) % 2 ^ 8)
      refine ⟨count', fun b => ?_⟩
      have hareas : reservedAreas m upper (e :: rest) =
          (e.addr / pageSizeInBytes m, areaFrames m e.len) :: reservedAreas m upper rest := by
        simp [reservedAreas, he]
      rw [if_pos he, hareas, reserveAreas]
      unfold pmmReserveArea
      cases reserveBits (areaFrames m e.len) (e.addr / pageSizeInBytes m) b with
      | error err => rfl
      | ok b₁ => exact hrest b₁
    · obtain ⟨count', hrest⟩ := ih count
      refine ⟨count', fun b => ?_⟩
      have hareas : reservedAreas m upper (e :: rest) = reservedAreas m upper rest := by
        simp [reservedAreas, he]
      rw [if_neg he, hareas]
      exact hrest b

-- the quantities `_initialize_bitmap` computes, as functions of the memory map
-- and of `anon_physical_memory_loc`

def setupTop (m : PageMode) (anon : Nat) : Nat := (anon + pageSizeInBytes m) % 2 ^ 64

def setupBitmapSize (m : PageMode) (mmap : Mmap) : Nat :=
  (mmap.mmapPhysMemoryAvail / pageSizeInBytes m + 1) % 2 ^ 32

def setupRows (m : PageMode) (mmap : Mmap) : Nat := entriesFor m mmap.mmapPhysMemoryAvail

def setupKernelEntries (m : PageMode) (anon : Nat) : Nat :=
  computeKernelEntries m (setupTop m anon)

/-- What `pmm_setup` reserves, in order. The bitmap's own area is taken to begin
at address 0. -/
def setupAreas (m : PageMode) (mmap : Mmap) : List (Nat × Nat) :=
  (0, areaFrames m (setupBitmapSize m mmap / 8 + 1)) ::
    reservedAreas m mmap.upperAddressToMap mmap.mmapEntries

/-- The bitmap that `_initialize_bitmap` leaves. -/
def setupBitmap (m : PageMode) (s : Pmm) : Bitmap :=
  { s.bitmap with
    memoryMap := initialRows (setupRows m s.mmap) (setupKernelEntries m s.anonPhysicalMemoryLoc)
    numberOfEntries := setupRows m s.mmap
    bitmapSize := setupBitmapSize m s.mmap
    usedFrames := setupKernelEntries m s.anonPhysicalMemoryLoc }

theorem areaFrames_bounds (m : PageMode) {size : Nat} (hpos : 0 < size) (hsize : size < 2 ^ 32) :
    0 < areaFrames m size ∧ areaFrames m size < 2 ^ 32 := by
  unfold areaFrames
  by_cases hmod : size % pageSizeInBytes m ≠ 0
  · rw [if_pos hmod]
    cases m <;> simp only [pageSizeInBytes] at hmod ⊢ <;> omega
  · rw [if_neg hmod]
    cases m <;> simp only [pageSizeInBytes] at hmod ⊢ <;> omega

/-- After the first reservation something is in use, so `_mmap_setup` goes on:
frame 0 was in use before, or is reserved now. -/
theorem usedFrames_pos {b b' : Bitmap} {n k : Nat} (hn : 0 < n) (hn' : n < 2 ^ 32)
    (hused : b.used = Finset.range k) (hcount : b.usedFrames = k) (hk : k < 2 ^ 32)
    (h : reserveBits n 0 b = .ok b') : 0 < b'.usedFrames := by
  rcases Nat.eq_zero_or_pos k with rfl | hpos
  · obtain ⟨j, hj, -, hstop, hb'⟩ := reserveBits_spec (by omega) h
    obtain rfl : j = n := by
      by_contra hne
      have := hstop (by omega)
      rw [hused] at this
      simp at this
    rw [hb'.count, hcount, Nat.zero_add, Nat.mod_eq_of_lt hn']
    exact hn
  · have hzero : 0 ∈ b.used := by
      rw [hused]
      exact Finset.mem_range.mpr hpos
    rw [reserveBits_stuck hzero] at h
    cases h
    omega

/-- The state of `pmm_setup` when it calls `hhdm_map_physical_memory`. -/
abbrev earlyPmm (m : PageMode) (kernelPhysicalEnd : Nat) (boot : Pmm) : Pmm :=
  { boot with
    anonPhysicalMemoryLoc :=
      alignUp ((kernelPhysicalEnd + 8 * pageSizeInBytes m) % 2 ^ 64) (pageSizeInBytes m) }

/-- **`pmm_setup` is a series of reservations**, once the early page tables are
placed and the bitmap has found its region. -/
theorem pmmSetup_eq {m : PageMode} {s : Pmm} {region : Nat}
    (hphys : s.bitmap.memoryMapPhysAddr = 0)
    (hregion : mmapDetermineBitmapRegion (setupTop m s.anonPhysicalMemoryLoc)
      (setupBitmapSize m s.mmap / 8 + 1) s.mmap.mmapEntries = .ok region)
    (hmapped : region < s.memorySizeInBytes)
    (hfits : setupKernelEntries m s.anonPhysicalMemoryLoc / bitmapRowBits < setupRows m s.mmap)
    {kernelPhysicalEnd tables : Nat} {boot : Pmm}
    (hearly : hhdmMapPhysicalMemory m tables (earlyPmm m kernelPhysicalEnd boot) = .ok s) :
    ∃ count, pmmSetup m kernelPhysicalEnd tables boot =
      (reserveAreas (setupAreas m s.mmap) (setupBitmap m s) >>= fun b =>
        .ok { s with bitmap := b, countPhysicalReserved := count, pmmInitialized := true }) := by
  have hinit : initializeBitmap m s.mmap.mmapEntries s.memorySizeInBytes
      s.mmap.mmapPhysMemoryAvail ((s.anonPhysicalMemoryLoc + pageSizeInBytes m) % 2 ^ 64)
      s.bitmap = .ok (setupBitmap m s) := by
    unfold initializeBitmap
    unfold setupTop setupBitmapSize at hregion
    dsimp only
    rw [hregion, ok_bind, if_neg (Nat.not_le.mpr hmapped)]
    exact if_neg (Nat.not_le.mpr hfits)
  obtain ⟨count, hentries⟩ :=
    reserveEntries_eq m s.mmap.upperAddressToMap s.mmap.mmapEntries 0
  refine ⟨count, ?_⟩
  have hused : (setupBitmap m s).used =
      Finset.range (setupKernelEntries m s.anonPhysicalMemoryLoc) := (initializeBitmap_used hinit).1
  unfold pmmSetup setupAreas reserveAreas
  dsimp only
  rw [hearly, ok_bind, hinit, ok_bind]
  unfold bitmapGetRegion pmmReserveArea
  have hstart : (setupBitmap m s).memoryMapPhysAddr / pageSizeInBytes m = 0 := by
    show s.bitmap.memoryMapPhysAddr / pageSizeInBytes m = 0
    rw [hphys, Nat.zero_div]
  have hlength : (setupBitmap m s).bitmapSize = setupBitmapSize m s.mmap := rfl
  dsimp only
  rw [hstart, hlength]
  -- the bitmap reserves its own frames first; the count it leaves opens `mmap_setup`
  cases hfirst : reserveBits (areaFrames m (setupBitmapSize m s.mmap / 8 + 1)) 0
      (setupBitmap m s) with
  | error e => rfl
  | ok b =>
    have hsize : setupBitmapSize m s.mmap < 2 ^ 32 := Nat.mod_lt _ (by decide)
    obtain ⟨hn, hn'⟩ := areaFrames_bounds m (Nat.succ_pos (setupBitmapSize m s.mmap / 8))
      (by omega)
    have hpos := usedFrames_pos hn hn' hused rfl (computeKernelEntries_lt _ _) hfirst
    rw [ok_bind, ok_bind]
    unfold mmapSetup
    rw [if_pos hpos, hentries]
    cases reserveAreas (reservedAreas m s.mmap.upperAddressToMap s.mmap.mmapEntries) b with
    | error e => rfl
    | ok b' => rfl

/-! ## What should be reserved, and when it is -/

/-- The aim of `pmm_setup`: it touches no bit outside the bitmap, and when it
returns every frame is in use that holds a byte below
`anon_physical_memory_loc`, a byte of the bitmap, or a byte of an unusable entry
that begins below the end of the last available one. -/
def BootReserved (m : PageMode) (kernelPhysicalEnd tables : Nat) (boot : Pmm) : Prop :=
  pmmSetup m kernelPhysicalEnd tables boot ≠ .error .outOfBounds ∧
  ∀ s, pmmSetup m kernelPhysicalEnd tables boot = .ok s →
    (∀ a < s.anonPhysicalMemoryLoc, a / pageSizeInBytes m ∈ s.bitmap.used) ∧
    (∀ region, mmapDetermineBitmapRegion (setupTop m s.anonPhysicalMemoryLoc)
        (s.bitmap.bitmapSize / 8 + 1) s.mmap.mmapEntries = .ok region →
      ∀ a, region ≤ a → a < region + 8 * s.bitmap.numberOfEntries →
        a / pageSizeInBytes m ∈ s.bitmap.used) ∧
    (∀ e ∈ s.mmap.mmapEntries, e.type > 1 → e.addr < s.mmap.upperAddressToMap →
      ∀ a, e.addr ≤ a → a < e.addr + e.len → a / pageSizeInBytes m ∈ s.bitmap.used)

/-- The frames that `pmm_setup` marks in the end. -/
def SetupMarks (m : PageMode) (mmap : Mmap) (anon f : Nat) : Prop :=
  f < setupKernelEntries m anon ∨
    InAreas (marks (setupKernelEntries m anon) (setupAreas m mmap)) f

/-- The input is one that `pmm_setup` handles: the kernel's frames and the areas
that get reserved lie in the bitmap, and what should be reserved is. -/
structure ReservationCovers (m : PageMode) (mmap : Mmap) (anon region : Nat) : Prop where
  kernel  : setupKernelEntries m anon < bitmapRowBits * setupRows m mmap
  areas   : AreasFit (setupRows m mmap) (marks (setupKernelEntries m anon) (setupAreas m mmap))
  below   : ∀ a < anon, SetupMarks m mmap anon (a / pageSizeInBytes m)
  bitmap  : ∀ a, region ≤ a → a < region + 8 * setupRows m mmap →
    SetupMarks m mmap anon (a / pageSizeInBytes m)
  entries : ∀ e ∈ mmap.mmapEntries, e.type > 1 → e.addr < mmap.upperAddressToMap →
    ∀ a, e.addr ≤ a → a < e.addr + e.len → SetupMarks m mmap anon (a / pageSizeInBytes m)

/-- Sorted entries give sorted areas. -/
theorem setupAreas_sorted {m : PageMode} {mmap : Mmap}
    (hsorted : mmap.mmapEntries.Pairwise fun e e' => e.addr + e.len ≤ e'.addr) :
    (setupAreas m mmap).Pairwise fun a a' => a.1 ≤ a'.1 := by
  refine List.pairwise_cons.mpr ⟨fun a _ => Nat.zero_le _, ?_⟩
  unfold reservedAreas
  rw [List.pairwise_map]
  refine (hsorted.sublist List.filter_sublist).imp fun {e e'} hle => ?_
  exact Nat.div_le_div_right (by omega)

/-- **The outcome of `pmm_setup`** on a sorted memory map. -/
theorem pmmSetup_outcome {m : PageMode} {s : Pmm} {region : Nat}
    (hphys : s.bitmap.memoryMapPhysAddr = 0)
    (hsorted : s.mmap.mmapEntries.Pairwise fun e e' => e.addr + e.len ≤ e'.addr)
    (hregion : mmapDetermineBitmapRegion (setupTop m s.anonPhysicalMemoryLoc)
      (setupBitmapSize m s.mmap / 8 + 1) s.mmap.mmapEntries = .ok region)
    (hmapped : region < s.memorySizeInBytes)
    {kernelPhysicalEnd tables : Nat} {boot : Pmm}
    (hearly : hhdmMapPhysicalMemory m tables (earlyPmm m kernelPhysicalEnd boot) = .ok s) :
    BootReserved m kernelPhysicalEnd tables boot ↔
      ReservationCovers m s.mmap s.anonPhysicalMemoryLoc region := by
  have hdiv : setupKernelEntries m s.anonPhysicalMemoryLoc < bitmapRowBits * setupRows m s.mmap ↔
      setupKernelEntries m s.anonPhysicalMemoryLoc / bitmapRowBits < setupRows m s.mmap := by
    unfold bitmapRowBits
    omega
  by_cases hfits : setupKernelEntries m s.anonPhysicalMemoryLoc / bitmapRowBits < setupRows m s.mmap
  · obtain ⟨count, heq⟩ := pmmSetup_eq hphys hregion hmapped hfits hearly
    have hused : (setupBitmap m s).used =
        Finset.range (setupKernelEntries m s.anonPhysicalMemoryLoc) := by
      ext f
      rw [mem_used, Finset.mem_range]
      show BitRows.test (initialRows _ _) f = true ↔ _
      rw [initialRows_test hfits, decide_eq_true_eq]
    have hrows : (setupBitmap m s).memoryMap.length = setupRows m s.mmap := initialRows_length _ _
    have hout :=
      reserveAreas_outcome (computeKernelEntries_lt _ _) (setupAreas_sorted (m := m) hsorted)
        (fun a _ => Nat.zero_le a.1) fun f _ => by rw [hused, Finset.mem_range]
    unfold ReserveOutcome at hout
    rw [hrows, hused] at hout
    unfold BootReserved
    rcases hout with ⟨hareas, b, hres, hshape, hb⟩ | ⟨hareas, hres⟩
    · rw [heq, hres, ok_bind]
      have hmark : ∀ f, f ∈ b.used ↔ SetupMarks m s.mmap s.anonPhysicalMemoryLoc f := by
        intro f
        rw [hb, Finset.mem_range]
        rfl
      have hsize : b.bitmapSize = setupBitmapSize m s.mmap := hshape.size
      have hentries : b.numberOfEntries = setupRows m s.mmap := hshape.entries
      constructor
      · rintro ⟨-, hall⟩
        obtain ⟨hbelow, hbitmap, hunusable⟩ := hall _ rfl
        simp only [hmark, hsize, hentries] at hbelow hbitmap hunusable
        exact ⟨hdiv.mpr hfits, hareas, hbelow, hbitmap region hregion, hunusable⟩
      · intro hcov
        refine ⟨by simp, fun t ht => ?_⟩
        cases ht
        simp only [hmark, hsize, hentries]
        refine ⟨hcov.below, fun region' hregion' => ?_, hcov.entries⟩
        rw [hregion] at hregion'
        cases hregion'
        exact hcov.bitmap
    · rw [heq, hres, error_bind]
      exact ⟨fun h => absurd rfl h.1, fun hcov => absurd hcov.areas hareas⟩
  · -- the row of `kernel_entries` is already out of bounds
    have herr : pmmSetup m kernelPhysicalEnd tables boot = .error .outOfBounds := by
      unfold pmmSetup
      dsimp only
      rw [hearly, ok_bind]
      unfold initializeBitmap
      unfold setupTop setupBitmapSize at hregion
      dsimp only
      rw [hregion, ok_bind, if_neg (Nat.not_le.mpr hmapped)]
      exact congrArg (· >>= _) (if_pos (Nat.le_of_not_lt hfits))
    unfold BootReserved
    rw [herr]
    exact ⟨fun h => absurd rfl h.1, fun hcov => absurd (hdiv.mp hcov.kernel) hfits⟩

theorem mmapParse_entries (entries : List MmapEntry) :
    (mmapParse entries).mmapEntries = entries := by
  unfold mmapParse
  -- the fold only touches the other two fields
  refine List.foldlRecOn (motive := fun p : Mmap => p.mmapEntries = entries) _ _ rfl ?_
  rintro p hp ⟨e, i⟩ -
  dsimp only
  split_ifs
  · exact hp
  · exact hp

/-- The only way for the bitmap not to find room is the fatal message. -/
theorem mmapDetermineBitmapRegion_error {lowerLimit bytesNeeded : Nat} {entries : List MmapEntry}
    {e : Stuck} (h : mmapDetermineBitmapRegion lowerLimit bytesNeeded entries = .error e) :
    e = .halted := by
  induction entries with
  | nil =>
    cases h
    rfl
  | cons x rest ih =>
    unfold mmapDetermineBitmapRegion at h
    dsimp only at h
    split_ifs at h <;> exact ih h

/-- Without a mapped place for the bitmap the machine stops, or faults on the NULL
`memory_map`. -/
theorem pmmSetup_stops {m : PageMode} {s : Pmm} {kernelPhysicalEnd tables : Nat} {boot : Pmm}
    (hearly : hhdmMapPhysicalMemory m tables (earlyPmm m kernelPhysicalEnd boot) = .ok s)
    (hplaced : ¬ ∃ region, mmapDetermineBitmapRegion (setupTop m s.anonPhysicalMemoryLoc)
      (setupBitmapSize m s.mmap / 8 + 1) s.mmap.mmapEntries = .ok region ∧
      region < s.memorySizeInBytes) :
    ∃ e, e ≠ .outOfBounds ∧ pmmSetup m kernelPhysicalEnd tables boot = .error e := by
  unfold pmmSetup
  dsimp only
  rw [hearly, ok_bind]
  unfold initializeBitmap
  unfold setupTop setupBitmapSize at hplaced
  dsimp only
  cases hdet : mmapDetermineBitmapRegion
      ((s.anonPhysicalMemoryLoc + pageSizeInBytes m) % 2 ^ 64)
      ((s.mmap.mmapPhysMemoryAvail / pageSizeInBytes m + 1) % 2 ^ 32 / 8 + 1)
      s.mmap.mmapEntries with
  | error e =>
    refine ⟨e, ?_, rfl⟩
    rw [mmapDetermineBitmapRegion_error hdet]
    decide
  | ok region =>
    have hnull : s.memorySizeInBytes ≤ region := by
      by_contra hlt
      exact hplaced ⟨region, hdet, by omega⟩
    refine ⟨.nullPointer, by decide, ?_⟩
    rw [ok_bind, if_pos hnull]
    rfl

/-- **Boot-time reservation.** On a sorted memory map `pmm_setup` reserves all it
should exactly when its input is one that `ReservationCovers`, for the place the
early page tables end at and the region the bitmap is put in (if it finds one,
and in mapped memory). -/
theorem boot_reservation_iff (m : PageMode) (entries : List MmapEntry) (multiboot : Multiboot)
    (memUpper kernelPhysicalEnd tables : Nat)
    (hsorted : entries.Pairwise fun e e' => e.addr + e.len ≤ e'.addr) :
    BootReserved m kernelPhysicalEnd tables (bootPmm entries multiboot memUpper) ↔
      ∀ s region, hhdmMapPhysicalMemory m tables { bootPmm entries multiboot memUpper with
          anonPhysicalMemoryLoc :=
            alignUp ((kernelPhysicalEnd + 8 * pageSizeInBytes m) % 2 ^ 64) (pageSizeInBytes m) } =
          .ok s →
        mmapDetermineBitmapRegion (setupTop m s.anonPhysicalMemoryLoc)
          (setupBitmapSize m s.mmap / 8 + 1) s.mmap.mmapEntries = .ok region →
        region < s.memorySizeInBytes →
        ReservationCovers m s.mmap s.anonPhysicalMemoryLoc region := by
  obtain ⟨anon, hearly⟩ := hhdmMapPhysicalMemory_ok m tables
    (earlyPmm m kernelPhysicalEnd (bootPmm entries multiboot memUpper)) rfl
  dsimp only at hearly
  rw [hearly]
  generalize hs : ({ bootPmm entries multiboot memUpper with
    anonPhysicalMemoryLoc := anon } : Pmm) = s at hearly
  have hphys : s.bitmap.memoryMapPhysAddr = 0 := by
    rw [← hs]
    rfl
  have hsorted' : s.mmap.mmapEntries.Pairwise fun e e' => e.addr + e.len ≤ e'.addr := by
    rw [← hs]
    show (mmapParse entries).mmapEntries.Pairwise _
    rw [mmapParse_entries]
    exact hsorted
  -- set up stops before the first reservation when the bitmap has no mapped place
  by_cases hplaced : ∃ region, mmapDetermineBitmapRegion (setupTop m s.anonPhysicalMemoryLoc)
      (setupBitmapSize m s.mmap / 8 + 1) s.mmap.mmapEntries = .ok region ∧
      region < s.memorySizeInBytes
  · obtain ⟨region, hregion, hmapped⟩ := hplaced
    rw [pmmSetup_outcome hphys hsorted' hregion hmapped hearly]
    constructor
    · intro hcov t region' ht hregion' _
      cases ht
      rw [hregion] at hregion'
      cases hregion'
      exact hcov
    · exact fun h => h s region rfl hregion hmapped
  · obtain ⟨e, hne, herr⟩ := pmmSetup_stops hearly hplaced
    unfold BootReserved
    rw [herr]
    constructor
    · intro _ t region ht hregion hmapped
      cases ht
      exact absurd ⟨region, hregion, hmapped⟩ hplaced
    · exact fun _ => ⟨fun h => hne (Except.error.inj h), fun t ht => by cases ht⟩

/-- The entries below 1 MiB, as boot loaders report them. -/
def lowEntries : List MmapEntry :=
  [{ addr := 0, len := 0x9fc00, type := 1 }, { addr := 0x9fc00, len := 0x400, type := 2 },
    { addr := 0xf0000, len := 0x10000, type := 2 }]

def exampleTags : Multiboot :=
  { multibootTagStart := 0x9500, multibootTagEnd := 0xa000, modules := [] }

/-- 512 MiB of memory without a hole. -/
def plainMap : List MmapEntry :=
  lowEntries ++ [{ addr := 0x100000, len := 0x1fee0000, type := 1 }]

theorem boot_reservation_plainMap :
    BootReserved .large 0x200000 2 (bootPmm plainMap exampleTags 0x7fb80) := by
  refine (boot_reservation_iff .large plainMap exampleTags 0x7fb80 0x200000 2
    (by decide)).mpr ?_
  intro s region hearly hregion _
  have hanon : hhdmMapPhysicalMemory .large 2 { bootPmm plainMap exampleTags 0x7fb80 with
      anonPhysicalMemoryLoc := alignUp ((0x200000 + 8 * pageSizeInBytes .large) % 2 ^ 64)
        (pageSizeInBytes .large) } = .ok { bootPmm plainMap exampleTags 0x7fb80 with
      anonPhysicalMemoryLoc := 0x1202000 } := by decide +kernel
  rw [hanon] at hearly
  cases hearly
  have hplace : mmapDetermineBitmapRegion (setupTop .large 0x1202000)
      (setupBitmapSize .large (mmapParse plainMap) / 8 + 1) (mmapParse plainMap).mmapEntries =
      .ok 0x1402000 := by decide +kernel
  obtain rfl : 0x1402000 = region := Except.ok.inj (hplace.symm.trans hregion)
  show ReservationCovers .large (mmapParse plainMap) 0x1202000 0x1402000
  -- twelve frames are marked; all that matters lies in them
  have hkernel : setupKernelEntries .large 0x1202000 = 12 := by decide
  have hrows : setupRows .large (mmapParse plainMap) = 5 := by decide +kernel
  have hbelow : ∀ a < 12 * 0x200000,
      SetupMarks .large (mmapParse plainMap) 0x1202000 (a / pageSizeInBytes .large) := by
    intro a ha
    refine Or.inl ?_
    rw [hkernel]
    show a / 0x200000 < 12
    omega
  refine ⟨?_, ?_, ?_, ?_, ?_⟩
  · rw [hkernel, hrows]
    decide
  · have hmarks : marks 12 (setupAreas .large (mmapParse plainMap)) = [] := by decide +kernel
    rw [hkernel, hmarks]
    simp [AreasFit]
  · exact fun a ha => hbelow a (Nat.lt_of_lt_of_le ha (by decide))
  · intro a _ ha
    refine hbelow a (Nat.lt_of_lt_of_le ha ?_)
    rw [hrows]
    decide
  · intro e he htype _ a _ ha
    have hentries : ∀ e ∈ (mmapParse plainMap).mmapEntries, e.type > 1 →
        e.addr + e.len ≤ 12 * 0x200000 := by decide +kernel
    exact hbelow a (Nat.lt_of_lt_of_le ha (hentries e he htype))

/-! ## Machines for which it fails -/

/-- 160 MiB without a hole. -/
def smallPagesMap : List MmapEntry :=
  lowEntries ++ [{ addr := 0x100000, len := 0x9ee0000, type := 1 }]

/-- An unusable entry that begins in the last frame marked for the kernel. -/
def adjacentMap : List MmapEntry :=
  lowEntries ++ [{ addr := 0x100000, len := 0x1500000, type := 1 },
    { addr := 0x1600000, len := 0x800000, type := 2 },
    { addr := 0x1e00000, len := 0x1e200000, type := 1 }]

/-- 512 MiB around a hole that ends at 4 GiB. -/
def holeMap : List MmapEntry :=
  lowEntries ++ [{ addr := 0x100000, len := 0xff00000, type := 1 },
    { addr := 0xe0000000, len := 0x10000000, type := 2 },
    { addr := 0x100000000, len := 0x10000000, type := 1 }]

/-- **`pmm_setup` does not reserve all it should.** With 4 KiB pages the second
page of the bitmap is left free: what is reserved for it begins at address 0. An
unusable entry that begins in a marked frame is not reserved at all. One that
lies above the memory the bitmap was sized for is looked up outside it. -/
theorem boot_reservation_fails :
    (smallPagesMap.Pairwise (fun e e' => e.addr + e.len ≤ e'.addr) ∧
      ¬ BootReserved .small 0x200000 82 (bootPmm smallPagesMap exampleTags 0x27b80)) ∧
    (adjacentMap.Pairwise (fun e e' => e.addr + e.len ≤ e'.addr) ∧
      ¬ BootReserved .large 0x200000 2 (bootPmm adjacentMap exampleTags 0x7fb80)) ∧
    (holeMap.Pairwise (fun e e' => e.addr + e.len ≤ e'.addr) ∧
      pmmSetup .large 0x200000 6 (bootPmm holeMap exampleTags 0x3fc00) =
        .error .outOfBounds) := by
  refine ⟨⟨by decide, ?_⟩, ⟨by decide, ?_⟩, by decide, by decide +kernel⟩
  -- the second page of the bitmap is free
  · rintro ⟨-, hall⟩
    obtain ⟨s, hs, hrows, hfree, region, hregion, rfl⟩ : ∃ s,
        pmmSetup .small 0x200000 82 (bootPmm smallPagesMap exampleTags 0x27b80) = .ok s ∧
        s.bitmap.numberOfEntries = 639 ∧ BitRows.test s.bitmap.memoryMap 604 = false ∧
        ∃ region, mmapDetermineBitmapRegion (setupTop .small s.anonPhysicalMemoryLoc)
          (s.bitmap.bitmapSize / 8 + 1) s.mmap.mmapEntries = .ok region ∧ 0x25b000 = region := by
      decide +kernel
    have hused := (hall s hs).2.1 0x25b000 hregion 0x25c000 (by decide) (by rw [hrows]; decide)
    exact Bool.false_ne_true (hfree.symm.trans (mem_used.mp hused))
  · rintro ⟨-, hall⟩
    obtain ⟨s, hs, hmap, hfree⟩ : ∃ s,
        pmmSetup .large 0x200000 2 (bootPmm adjacentMap exampleTags 0x7fb80) = .ok s ∧
        s.mmap = mmapParse adjacentMap ∧ BitRows.test s.bitmap.memoryMap 12 = false := by
      decide +kernel
    have hcovered := (hall s hs).2.2
    rw [hmap] at hcovered
    have hused := hcovered { addr := 0x1600000, len := 0x800000, type := 2 } (by decide +kernel)
      (by decide) (by decide +kernel) 0x1800000 (by decide) (by decide)
    exact Bool.false_ne_true (hfree.symm.trans (mem_used.mp hused))

end Dreamos64
