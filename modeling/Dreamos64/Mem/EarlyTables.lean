import Dreamos64.Mem.FrameUsability

/-!
# Dreamos64 — the page tables made before the bitmap

Until `pmm_setup` is done `pmm_prepare_new_pagetable` takes 4 KiB after 4 KiB from
`anon_physical_memory_loc` on, passing over what is not available. `_initialize_bitmap` then
marks all frames up to where that has come, in frames of 2 MiB or 4 KiB.

* `earlyPagetables_spec`  — the tables follow each other, and all end below the final
  `anon_physical_memory_loc`;
* `early_tables_reserved` — so their frames are in use after `pmm_setup`, and stay out of
  what `pmm_alloc_frame` returns.
-/

namespace Dreamos64

open Machine

/-- The addresses that `pmm_prepare_new_pagetable` returns when `hhdm_map_physical_memory`
asks for a number of tables. -/
def earlyPagetables (m : PageMode) : Nat → Pmm → Exec (List Nat × Pmm)
  | 0, s => .ok ([], s)
  | tables + 1, s => do
    let (address, s) ← pmmPrepareNewPagetable m 0 s
    let (addresses, s) ← earlyPagetables m tables s
    .ok (address :: addresses, s)

section Early

variable {m : PageMode} {s t : Pmm} {tables : Nat} {addresses : List Nat}

theorem hhdmMapPhysicalMemory_eq (m : PageMode) (tables : Nat) (s : Pmm) :
    hhdmMapPhysicalMemory m tables s =
      (earlyPagetables m tables s >>= fun r => .ok r.2) := by
  induction tables generalizing s with
  | zero => rfl
  | succ tables ih =>
    unfold hhdmMapPhysicalMemory earlyPagetables
    cases pmmPrepareNewPagetable m 0 s with
    | error e => rfl
    | ok r =>
      obtain ⟨address, s'⟩ := r
      rw [ok_bind, ok_bind]
      dsimp only
      rw [ih]
      cases earlyPagetables m tables s' with
      | error e => rfl
      | ok r => rfl

/-- A table is taken at or above `anon_physical_memory_loc`, which moves behind it. -/
theorem prepareEarly (hinit : s.pmmInitialized = false) :
    ∃ address, s.anonPhysicalMemoryLoc ≤ address ∧ pmmPrepareNewPagetable m 0 s =
      .ok (address, { s with anonPhysicalMemoryLoc := (address + pageDirSize) % 2 ^ 64 }) := by
  obtain ⟨address, hskip⟩ := skipUnavailable_returns s s.anonPhysicalMemoryLoc
  refine ⟨address, ?_, ?_⟩
  · -- every turn of the loop goes up
    refine loop_inv (fun a => s.anonPhysicalMemoryLoc ≤ a) (fun a => s.anonPhysicalMemoryLoc ≤ a)
      ?_ ?_ le_rfl hskip
    · intro a a' ha hbody
      unfold skipUnavailableBody at hbody
      split_ifs at hbody
      · cases hbody
        omega
      · cases hbody
    · intro a a' ha hbody
      unfold skipUnavailableBody at hbody
      split_ifs at hbody
      · cases hbody
      · cases hbody
        exact ha
  · unfold pmmPrepareNewPagetable
    rw [if_pos (by simp [hinit]), hskip, ok_bind]

theorem earlyPagetables_returns (m : PageMode) (tables : Nat) (s : Pmm)
    (hinit : s.pmmInitialized = false) :
    ∃ addresses t, earlyPagetables m tables s = .ok (addresses, t) ∧ addresses.length = tables := by
  induction tables generalizing s with
  | zero => exact ⟨[], s, rfl, rfl⟩
  | succ tables ih =>
    obtain ⟨address, -, hfirst⟩ := prepareEarly (m := m) hinit
    obtain ⟨addresses, t, hrest, hlength⟩ := ih
      { s with anonPhysicalMemoryLoc := (address + pageDirSize) % 2 ^ 64 } hinit
    refine ⟨address :: addresses, t, ?_, by rw [List.length_cons, hlength]⟩
    unfold earlyPagetables
    rw [hfirst, ok_bind]
    dsimp only
    rw [hrest, ok_bind]

/-- **The early tables follow each other**, if they do not reach the end of the address
space. -/
theorem earlyPagetables_spec (hinit : s.pmmInitialized = false)
    (h : earlyPagetables m tables s = .ok (addresses, t))
    (hspace : ∀ a ∈ addresses, a + pageDirSize < 2 ^ 64) :
    s.anonPhysicalMemoryLoc ≤ t.anonPhysicalMemoryLoc ∧
      addresses.Pairwise (fun a a' => a + pageDirSize ≤ a') ∧
      (∀ a ∈ addresses, s.anonPhysicalMemoryLoc ≤ a ∧ a + pageDirSize ≤ t.anonPhysicalMemoryLoc) ∧
      (addresses ≠ [] → ∃ a ∈ addresses, t.anonPhysicalMemoryLoc = a + pageDirSize) := by
  -- the first table lies below what is left for the others
  induction tables generalizing s addresses with
  | zero =>
    cases h
    exact ⟨le_rfl, List.Pairwise.nil, by simp, fun hne => absurd rfl hne⟩
  | succ tables ih =>
    obtain ⟨address, hle, hfirst⟩ := prepareEarly (m := m) hinit
    unfold earlyPagetables at h
    rw [hfirst, ok_bind] at h
    dsimp only at h
    obtain ⟨⟨rest, t'⟩, hrest, h⟩ := bind_inv h
    injection h with h
    injection h with hcons ht
    subst hcons ht
    have haddress := hspace address List.mem_cons_self
    rw [Nat.mod_eq_of_lt haddress] at hrest
    obtain ⟨hup, hpairs, hbounds, hlast⟩ := ih
      (s := { s with anonPhysicalMemoryLoc := address + pageDirSize }) hinit hrest
      fun a ha => hspace a (List.mem_cons_of_mem _ ha)
    dsimp only at hup hbounds ⊢
    refine ⟨by omega, List.pairwise_cons.mpr ⟨fun a ha => (hbounds a ha).1, hpairs⟩, ?_, ?_⟩
    · intro a ha
      rcases List.mem_cons.mp ha with rfl | ha
      · exact ⟨hle, hup⟩
      · have hbound := hbounds a ha
        exact ⟨by omega, hbound.2⟩
    · intro _
      by_cases hrestnil : rest = []
      · -- it is the last one
        obtain rfl : tables = 0 := by
          obtain ⟨addresses, t'', hrest', hlength⟩ := earlyPagetables_returns m tables
            { s with anonPhysicalMemoryLoc := address + pageDirSize } hinit
          rw [hrest] at hrest'
          cases hrest'
          rw [← hlength, hrestnil, List.length_nil]
        cases hrest
        exact ⟨address, List.mem_cons_self, rfl⟩
      · obtain ⟨a, ha, heq⟩ := hlast hrestnil
        exact ⟨a, List.mem_cons_of_mem _ ha, heq⟩

end Early

/-! ## The tables and the bitmap -/

section Reserved

variable {m : PageMode} {anon : Nat}

/-- What is marked for the kernel stays marked. -/
theorem subset_markAreas (used : Finset Nat) (areas : List (Nat × Nat)) :
    used ⊆ markAreas used areas := by
  induction areas generalizing used with
  | nil => exact Finset.Subset.refl used
  | cons a areas ih => exact Finset.subset_union_left.trans (ih _)

/-- `kernel_entries` reaches beyond `anon_physical_memory_loc`, if it fits in 32 bits. -/
theorem lt_setupKernelEntries (hfits : (anon + pageSizeInBytes m) / pageSizeInBytes m + 2 < 2 ^ 32)
    {x : Nat} (hx : x < anon) : x / pageSizeInBytes m < setupKernelEntries m anon := by
  unfold setupKernelEntries setupTop computeKernelEntries
  dsimp only
  split_ifs
  · cases m <;> simp only [pageSizeInBytes] at * <;> omega
  · cases m <;> simp only [pageSizeInBytes] at * <;> omega

/-- A run without areas finds none with a gap. -/
theorem framesOnly_gapless {entries : List MmapEntry} {count : Nat} {s t : FrameState}
    {calls : List PmmCall} (hcalls : ∀ size, .allocArea size ∉ calls)
    (hrun : Run (pmmStep m entries count) s calls t) :
    Run (gaplessStep m entries count) s calls t := by
  refine hrun.trace (fun is t => (∀ size, .allocArea size ∉ is) →
    Run (gaplessStep m entries count) s is t) (fun _ => .start) ?_ hcalls
  intro is t u call _ ih hstep his
  refine (ih fun size hin => his size (List.mem_append_left _ hin)).extend ⟨?_, hstep⟩
  rintro size rfl
  exact absurd (List.mem_append_right _ List.mem_cons_self) (his size)

/-- A byte of one of the tables. -/
def InTables (addresses : List Nat) (x : Nat) : Prop :=
  ∃ a ∈ addresses, a ≤ x ∧ x < a + pageDirSize

/-- After `pmm_setup` the frames of the tables are in use, and no sequence of allocations of
frames and of frees of frames that are held leads to one that is returned. -/
def TablesKept (m : PageMode) (addresses : List Nat) (s : Pmm) : Prop :=
  (∀ x, InTables addresses x → x / pageSizeInBytes m ∈ s.bitmap.used) ∧
  ∀ calls t, (∀ call ∈ calls, call = .allocFrame ∨ ∃ owner a, call = .freeFrame owner a) →
    Run (pmmStep m s.mmap.mmapEntries s.countPhysicalReserved)
      { bitmap := s.bitmap, held := [] } calls t →
    ∀ fuel a b', pmmAllocFrame m fuel t.bitmap = .ok (a, b') → a ≠ 0 →
      ∀ x, InTables addresses x → ¬ (a ≤ x ∧ x < a + pageSizeInBytes m)

/-- **Early page tables are not handed out again.** Any number of tables can be asked for.
They are blocks that do not overlap, at or above the first `anon_physical_memory_loc`, unless
they reach the end of the address space; and if the bitmap has bits for all frames up to two
behind them, they are kept. -/
theorem early_tables_reserved (m : PageMode) (entries : List MmapEntry) (multiboot : Multiboot)
    (memUpper kernelPhysicalEnd tables : Nat) :
    ∃ addresses early, addresses.length = tables ∧
      earlyPagetables m tables { bootPmm entries multiboot memUpper with
        anonPhysicalMemoryLoc := alignUp ((kernelPhysicalEnd + 8 * pageSizeInBytes m) % 2 ^ 64)
          (pageSizeInBytes m) } = .ok (addresses, early) ∧
      ((∀ a ∈ addresses, a + pageDirSize < 2 ^ 64) →
        addresses.Pairwise (fun a a' => a + pageDirSize ≤ a') ∧
        ∀ a ∈ addresses,
          alignUp ((kernelPhysicalEnd + 8 * pageSizeInBytes m) % 2 ^ 64) (pageSizeInBytes m) ≤ a) ∧
      ((∀ a ∈ addresses, (a + pageDirSize + pageSizeInBytes m) / pageSizeInBytes m + 2 ≤
          setupBitmapSize m (mmapParse entries)) →
        ∀ s, pmmSetup m kernelPhysicalEnd tables (bootPmm entries multiboot memUpper) = .ok s →
          TablesKept m addresses s) := by
  obtain ⟨addresses, early, htables, hlength⟩ := earlyPagetables_returns m tables
    (earlyPmm m kernelPhysicalEnd (bootPmm entries multiboot memUpper)) rfl
  refine ⟨addresses, early, hlength, htables, fun hspace => ?_, fun hfits s hsetup => ?_⟩
  · obtain ⟨-, hpairs, hbounds, -⟩ := earlyPagetables_spec rfl htables hspace
    exact ⟨hpairs, fun a ha => (hbounds a ha).1⟩
  · -- a bitmap of 32 bits reaches nowhere near the end of the address space
    have hsize : setupBitmapSize m (mmapParse entries) < 2 ^ 32 := Nat.mod_lt _ (by decide)
    have hspace : ∀ a ∈ addresses, a + pageDirSize < 2 ^ 64 := by
      intro a ha
      have hfit := hfits a ha
      cases m <;> simp only [pageSizeInBytes] at hfit <;> omega
    obtain ⟨-, -, hbounds, hlast⟩ := earlyPagetables_spec rfl htables hspace
    have hearly := hhdmMapPhysicalMemory_eq m tables
      (earlyPmm m kernelPhysicalEnd (bootPmm entries multiboot memUpper))
    rw [htables, ok_bind] at hearly
    obtain ⟨anon, hanon⟩ := hhdmMapPhysicalMemory_ok m tables
      (earlyPmm m kernelPhysicalEnd (bootPmm entries multiboot memUpper)) rfl
    have hstate := Except.ok.inj (hearly.symm.trans hanon)
    dsimp only at hstate
    have hmmap : early.mmap = mmapParse entries := congrArg Pmm.mmap hstate
    have hphys : early.bitmap.memoryMapPhysAddr = 0 :=
      congrArg (fun s : Pmm => s.bitmap.memoryMapPhysAddr) hstate
    obtain ⟨hused, hrows⟩ := pmmSetup_used hphys hearly hsetup
    -- the frames of the tables are below `kernel_entries`
    have hmarked : ∀ x, InTables addresses x → x / pageSizeInBytes m ∈ s.bitmap.used := by
      rintro x ⟨a, ha, -, hx⟩
      obtain ⟨b, hb, hend⟩ := hlast (List.ne_nil_of_mem ha)
      have hbound := (hbounds a ha).2
      have hfit := hfits b hb
      rw [hused]
      refine subset_markAreas _ _ (Finset.mem_range.mpr (lt_setupKernelEntries ?_ (by omega)))
      rw [hend]
      omega
    refine ⟨hmarked, fun calls t hcalls hrun fuel a b' halloc hne x hx hin => ?_⟩
    have hgapless := framesOnly_gapless (fun size hmem => by
      rcases hcalls _ hmem with h | ⟨owner, a, h⟩ <;> cases h) hrun
    have hkept := run_kept (pmmSetup_sized hsetup) hrows rfl hgapless
    obtain ⟨f, hfree, -, rfl⟩ := hkept.allocFrame halloc hne
    -- the frame that is returned is the one of the byte
    have hframe : x / pageSizeInBytes m = f := by
      cases m <;> simp only [pageSizeInBytes] at * <;> omega
    exact hfree (hframe ▸ hmarked x hx)

/-- Two tables on the machine with 512 MiB. -/
theorem early_tables_reserved_plainMap :
    ∃ s, pmmSetup .large 0x200000 2 (bootPmm plainMap exampleTags 0x7fb80) = .ok s ∧
      TablesKept .large [0x1200000, 0x1201000] s := by
  obtain ⟨addresses, early, -, htables, -, hkept⟩ :=
    early_tables_reserved .large plainMap exampleTags 0x7fb80 0x200000 2
  obtain ⟨early', hcomputed, -⟩ : ∃ early', earlyPagetables .large 2
      { bootPmm plainMap exampleTags 0x7fb80 with
        anonPhysicalMemoryLoc := alignUp ((0x200000 + 8 * pageSizeInBytes .large) % 2 ^ 64)
          (pageSizeInBytes .large) } = .ok ([0x1200000, 0x1201000], early') ∧ True := by
    decide +kernel
  cases htables.symm.trans hcomputed
  obtain ⟨s, hsetup, -⟩ : ∃ s, pmmSetup .large 0x200000 2 (bootPmm plainMap exampleTags 0x7fb80) =
    .ok s ∧ True := by decide +kernel
  exact ⟨s, hsetup, hkept (by decide +kernel) s hsetup⟩

end Reserved

end Dreamos64
