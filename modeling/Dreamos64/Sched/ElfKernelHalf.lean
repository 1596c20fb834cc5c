import Dreamos64.Sched.ElfPages
import Dreamos64.Sched.KernelHalf

/-!
# Dreamos64 — an ELF image and the kernel's half

`create_task_from_elf` maps the pages that the program headers ask for and does not look
at their addresses. The tables under entries 256 to 511 of a task's root are the kernel's,
so a page there is mapped for everybody.

* `kernelHalfKept_iff_slots` — the kernel's half is kept if its slots are;
* `Placed.below`, `Placed.again` — a page below the kernel's half changes none of them, and
  neither does a page that is mapped already;
* `elf_keeps_kernel_half`    — so the loop leaves the kernel's half alone exactly if every
  page is one of these two kinds;
* `elf_maps_kernel_page`     — an image that maps a page of its own there.
-/

namespace Dreamos64

open Machine TableTree

/-! ## The tables shared with the kernel -/

/-- No entry that is reached through entries 256 to 511 of the root in frame `n` has
changed. Entry 510 itself is among them, but not what it leads to, which is the root. -/
def KernelHalfKept (s s' : Vm) (n : Nat) : Prop :=
  ∀ q j t, TablePath 3 q → 256 ≤ (topOf q j).val → descend hwTable s.entry n q = some t →
    s'.entry t j = s.entry t j

section Slots

variable {s s' : Vm} {n : Nat}

theorem topOf_concat (q : List (Fin 512)) (i j : Fin 512) : topOf (q ++ [i]) j = topOf q i := by
  cases q with
  | nil => rfl
  | cons a q => rfl

theorem topOf_pathTo (va d : Nat) : topOf (pathTo va d) (indexAt va d) = pml4Entry va := by
  induction d with
  | zero => rfl
  | succ d ih => rw [pathTo, topOf_concat, ih]

theorem KernelHalfKept.descend_eq (h : KernelHalfKept s s' n) {q : List (Fin 512)} {j : Fin 512}
    (hq : TablePath 3 q) (htop : 256 ≤ (topOf q j).val) :
    descend hwTable s'.entry n q = descend hwTable s.entry n q := by
  induction q using List.reverseRecOn generalizing j with
  | nil => rfl
  | append_singleton q i ih =>
    rw [topOf_concat] at htop
    have hq' := tablePath_closed 3 q i hq
    rw [descend_concat, descend_concat, ih hq' htop]
    cases ht : descend hwTable s.entry n q with
    | none => rfl
    | some t => rw [Option.bind_some, Option.bind_some, h q i t hq' htop ht]

/-- The tables are the same if all slots are. -/
theorem kernelHalfKept_iff_slots : KernelHalfKept s s' n ↔
    ∀ q j, TablePath 3 q → 256 ≤ (topOf q j).val → s'.hwSlot n q j = s.hwSlot n q j := by
  constructor
  · intro h q j hq htop
    have hdesc := h.descend_eq hq htop
    cases ht : descend hwTable s.entry n q with
    | none => rw [Vm.hwSlot, Vm.hwSlot, slot_of_none ht, slot_of_none (hdesc.trans ht)]
    | some t =>
      rw [Vm.hwSlot, Vm.hwSlot, slot_of_descend ht, slot_of_descend (hdesc.trans ht)]
      exact h q j t hq htop ht
  · intro h q j t hq htop ht
    have hdesc : descend hwTable s'.entry n q = some t := by
      rw [← ht]
      -- the table at a path is what the slot before it leads to
      cases q using List.reverseRecOn with
      | nil => rfl
      | append_singleton q i =>
        rw [topOf_concat] at htop
        have hslot := h q i (tablePath_closed 3 q i hq) htop
        rw [Vm.hwSlot, Vm.hwSlot] at hslot
        rw [descend_slot hwTable_zero, descend_slot hwTable_zero, hslot]
    have hslot := h q j hq htop
    rwa [Vm.hwSlot, Vm.hwSlot, slot_of_descend ht, slot_of_descend hdesc] at hslot

end Slots

/-! ## Pages that change nothing there -/

section Placed

variable {m : PageMode} {s s' : Vm} {n : Nat} {p : Placement}

/-- A page below only changes slots below. -/
theorem Placed.below (h : Placed m s s' n p) (hlow : (pml4Entry p.virtual).val < 256)
    {q : List (Fin 512)} {j : Fin 512} (hq : TablePath 3 q) (htop : 256 ≤ (topOf q j).val) :
    s'.hwSlot n q j = s.hwSlot n q j := by
  have hout : ∀ d, ¬ (q = pathTo p.virtual d ∧ j = indexAt p.virtual d) := by
    rintro d ⟨rfl, rfl⟩
    rw [topOf_pathTo] at htop
    omega
  refine (h.mapped.slots q j hq (hout _)).resolve_right ?_
  rintro ⟨⟨e, -, hat⟩, -⟩
  exact hout e hat

/-- A page that is mapped already changes no slot at all. -/
theorem Placed.again (h : Placed m s s' n p) (hpage : s.pageSlot m n p.virtual % 2 = 1)
    {q : List (Fin 512)} {j : Fin 512} (hq : TablePath 3 q) :
    s'.hwSlot n q j = s.hwSlot n q j :=
  h.mapped.again hpage hq

end Placed

/-! ## All pages -/

/-- The page is below the kernel's half, or mapped in it already. -/
def Harmless (m : PageMode) (s : Vm) (n : Nat) (p : Placement) : Prop :=
  (pml4Entry p.virtual).val < 256 ∨
    pml4Entry p.virtual ≠ 510 ∧ s.pageSlot m n p.virtual % 2 = 1

section Run

variable {m : PageMode} {s u : Vm} {n : Nat} {ps : List Placement}

section

variable (hrun : Run (placedStep m n) s ps u)

include hrun

/-- A slot that is present stays through any of them. -/
theorem slot_present_of_run {q : List (Fin 512)} {j : Fin 512} (hq : TablePath 3 q)
    (hpresent : s.hwSlot n q j % 2 = 1) : u.hwSlot n q j = s.hwSlot n q j := by
  refine hrun.inv (fun u => u.hwSlot n q j = s.hwSlot n q j) rfl ?_
  intro t t' p ht (hstep : Placed m t t' n p)
  rw [hstep.present hq (ht ▸ hpresent), ht]

/-- **Harmless pages** keep the kernel's half. -/
theorem kernelHalfKept_of_run (hps : ∀ p ∈ ps, Harmless m s n p) : KernelHalfKept s u n := by
  rw [kernelHalfKept_iff_slots]
  -- each page changes nothing above, or is mapped already
  refine hrun.trace (fun ps u => (∀ p ∈ ps, Harmless m s n p) → ∀ q j, TablePath 3 q →
    256 ≤ (topOf q j).val → u.hwSlot n q j = s.hwSlot n q j) (fun _ _ _ _ _ => rfl) ?_ hps
  intro before t t' p hbefore ih (hstep : Placed m t t' n p) hps q j hq htop
  rw [← ih (fun p hp => hps p (List.mem_append_left _ hp)) q j hq htop]
  rcases hps p (List.mem_append_right _ (List.mem_singleton_self p)) with hlow | ⟨h510, hpage⟩
  · exact hstep.below hlow hq htop
  · refine hstep.again ?_ hq
    -- it was mapped when the loop began, and still is
    have hkept : t.pageSlot m n p.virtual = s.pageSlot m n p.virtual :=
      slot_present_of_run hbefore (tablePath_pathTo (pageDepth_le m) h510) hpage
    rw [hkept]
    exact hpage

/-- After the loop every page of the list is mapped. -/
theorem pageSlot_of_run (hps : ∀ p ∈ ps, pml4Entry p.virtual ≠ 510 ∧ p.flags % 2 = 1) :
    ∀ p ∈ ps, u.pageSlot m n p.virtual % 2 = 1 := by
  -- a present entry is never written again
  induction hrun with
  | start => exact fun p hp => absurd hp List.not_mem_nil
  | @extend before t t' p _ hstep ih =>
    have hplaced : Placed m t t' n p := hstep
    intro o ho
    obtain ⟨h510, hflags⟩ := hps o ho
    rcases List.mem_append.mp ho with hold | hnew
    · have hpage := ih (fun p hp => hps p (List.mem_append_left _ hp)) o hold
      have hkept : t'.pageSlot m n o.virtual = t.pageSlot m n o.virtual :=
        hplaced.present (tablePath_pathTo (pageDepth_le m) h510) hpage
      rw [hkept]
      exact hpage
    · obtain rfl := List.mem_singleton.mp hnew
      exact hplaced.pageSlot_present hflags

end

end Run

/-! ## From the call on -/

section Created

variable {m : PageMode} {r n elfHeader : Nat} {s : Loader} {vm : Vm}

section

variable (h : TaskCreated s.vm vm r n)

include h

theorem TaskCreated.outside {f : Nat} (hok : RootOk m s.vm r) (hf : OutsideTables s.vm r f) :
    OutsideTables vm n f := by
  refine ⟨fun ht => ?_, fun hmem => hf.2 (h.supply.subset hmem)⟩
  rcases h.isTable_cases hok ht with rfl | hold
  · exact hf.2 h.taken
  · exact hf.1 hold

/-- Creating a task leaves the headers alone. -/
theorem TaskCreated.headers (himage : ImageOk m s r elfHeader) :
    ∀ a, s.vm.HeaderByte m elfHeader a → vm.byte a = s.vm.byte a :=
  fun a ha => byte_congr (h.frame _ (himage.headers _ ⟨a, ha, rfl⟩).2)

/-- So the pages are those that they ask for before the call. -/
theorem TaskCreated.placements (himage : ImageOk m s r elfHeader) :
    Loader.placements { s with vm := vm } m elfHeader = s.placements m elfHeader := by
  obtain ⟨-, -, hheaders⟩ := headers_congr (h.headers himage)
  unfold Loader.placements
  dsimp only
  rw [hheaders]

theorem TaskCreated.image (hok : RootOk m s.vm r) (himage : ImageOk m s r elfHeader) :
    ImageOk m { s with vm := vm } n elfHeader := by
  obtain ⟨hbyte, -, -⟩ := headers_congr (h.headers himage)
  have hframe : vm.HeaderFrame m elfHeader = s.vm.HeaderFrame m elfHeader := by
    unfold Vm.HeaderFrame
    rw [hbyte]
  refine ⟨fun f hf => h.outside hok (himage.headers f (hframe ▸ hf)), fun p hp f hf => ?_⟩
  rw [h.placements himage] at hp
  obtain ⟨hout, hheader⟩ := himage.copies p hp f hf
  refine ⟨h.outside hok hout, ?_⟩
  show ¬ vm.HeaderFrame m elfHeader f
  rw [hframe]
  exact hheader

/-- A page of the kernel's half is mapped in the new task if the kernel has it. -/
theorem TaskCreated.pageSlot {va : Nat} (hok : RootOk m s.vm r) (h510 : pml4Entry va ≠ 510)
    (hhigh : 256 ≤ (pml4Entry va).val) : vm.pageSlot m n va = s.vm.pageSlot m r va := by
  have htop := topOf_pathTo va (pageDepth m)
  have hslot := h.slot_eq hok (p := pathTo va (pageDepth m)) (i := indexAt va (pageDepth m))
    (by rw [length_pathTo]; exact pageDepth_le m) (by rw [htop]; exact h510)
  rw [htop, if_neg (by omega)] at hslot
  exact hslot

end

end Created

/-- **When loading an image leaves the kernel's half alone.** It does if every page that
the headers ask for is below it, or is a page that the kernel has mapped already. Unless
a page is in slot 510, where the root is taken for a table of pages, these are the only
images for which it does. -/
theorem elf_keeps_kernel_half (m : PageMode) (r elfHeader root : Nat) (s s' : Loader) (vm : Vm)
    (hok : RootOk m s.vm r) (hsupply : TaskSupply m s.vm) (himage : ImageOk m s r elfHeader)
    (hcreate : createTaskSpace m s.vm r = .ok (root, vm))
    (hframes : FramesSuffice m (root / 4096) vm (s.placements m elfHeader))
    (hrun : loadPhdrs m (hhdmGetVariable m vm root) elfHeader { s with vm := vm } = .ok s') :
    ((∀ p ∈ s.placements m elfHeader, Harmless m s.vm r p) →
      KernelHalfKept vm s'.vm (root / 4096)) ∧
    ((∀ p ∈ s.placements m elfHeader, pml4Entry p.virtual ≠ 510) →
      KernelHalfKept vm s'.vm (root / 4096) →
      ∀ p ∈ s.placements m elfHeader, Harmless m s.vm r p) := by
  have hr := hok.tables.not_free ⟨[], tablePath_nil 3, rfl⟩
  obtain ⟨n, vm', hcreate', htask⟩ := createTaskSpace_spec hok.freeFrames hr hsupply
  cases hcreate.symm.trans hcreate'
  have hnew := htask.task hok
  have hplace := htask.placements himage
  rw [Nat.mul_div_cancel_left n (by decide)] at hframes ⊢
  have hptr : hhdmGetVariable m vm (4096 * n) = tablePtr m n :=
    hhdmGetVariable_table (hnew.below.tables n ⟨[], tablePath_nil 3, rfl⟩)
  rw [hptr] at hrun
  -- outside slot 510 the loop is a run of the mapper
  have hplaced : (∀ p ∈ s.placements m elfHeader, pml4Entry p.virtual ≠ 510) →
      Run (placedStep m n) vm (s.placements m elfHeader) s'.vm := by
    intro hslot
    rw [← hplace] at hslot hframes ⊢
    exact (loadPhdrs_run hnew (htask.image hok himage) hslot hframes hrun).2.1
  constructor
  · intro hps
    refine kernelHalfKept_of_run (hplaced fun p hp h510 => ?_) fun p hp => ?_
    · rcases hps p hp with hlow | ⟨hne, -⟩
      · rw [h510] at hlow
        exact absurd hlow (by decide)
      · exact hne h510
    · rcases Nat.lt_or_ge (pml4Entry p.virtual).val 256 with hlow | hhigh
      · exact Or.inl hlow
      · obtain ⟨hne, hpage⟩ := (hps p hp).resolve_left (by omega)
        refine Or.inr ⟨hne, ?_⟩
        rw [htask.pageSlot hok hne hhigh]
        exact hpage
  · intro hslot hkept p hp
    rcases Nat.lt_or_ge (pml4Entry p.virtual).val 256 with hlow | hhigh
    · exact Or.inl hlow
    · refine Or.inr ⟨hslot p hp, ?_⟩
      have hmapped := pageSlot_of_run (hplaced hslot)
        (fun p hp => ⟨hslot p hp, placements_present p hp⟩) p hp
      -- a kept slot that is present at the end was present at the start
      have hpage : s'.vm.pageSlot m n p.virtual = vm.pageSlot m n p.virtual :=
        kernelHalfKept_iff_slots.mp hkept _ _ (tablePath_pathTo (pageDepth_le m) (hslot p hp))
          (by rw [topOf_pathTo]; exact hhigh)
      rw [← htask.pageSlot hok (hslot p hp) hhigh, ← hpage]
      exact hmapped

/-! ## An image of one page -/

/-- The words of an ELF image at 2 MiB: its header, and one program header that asks for a
page at `vaddr`. -/
def elfWords (vaddr : Nat) : List (Nat × Nat) :=
  [(0x200000, 0x00010102464C457F), (0x200010, 0x1003E0002), (0x200020, 64),
    (0x200030, 0x0038004000000000), (0x200038, 1), (0x200040, 0x600000001), (0x200050, vaddr),
    (0x200060, 120), (0x200068, 120), (0x200070, 0x200000)]

/-- `kernelSpace` with that image in memory. -/
def imageSpace (vaddr : Nat) : Vm :=
  { kernelSpace with
    memory := fun a => ((elfWords vaddr).lookup a).getD (kernelSpace.memory a) }

def elfPointer : Nat := 0x200000 + higherHalfDirectMapBase .large

/-- The kernel maps a page of its own at the start of its half, and then creates a task and
loads the image. -/
def elfRun (vaddr : Nat) : Exec (Vm × Nat × Vm × Loader) := do
  let (_, s) ← mapPhysToVirtAddrHh .large (imageSpace vaddr) 0 0xFFFF800000000000 3
    (tablePtr .large 1)
  let (root, vm) ← createTaskSpace .large s 1
  let s' ← loadPhdrs .large (hhdmGetVariable .large vm root) elfPointer ⟨vm, []⟩
  .ok (s, root, vm, s')

theorem elfWords_lookup {vaddr a : Nat} (ha : a < 0x200000) : (elfWords vaddr).lookup a = none := by
  refine List.lookup_eq_none_iff.mpr fun w hw => ?_
  have hle : 0x200000 ≤ w.1 := by
    simp only [elfWords, List.mem_cons, List.not_mem_nil, or_false] at hw
    rcases hw with rfl | rfl | rfl | rfl | rfl | rfl | rfl | rfl | rfl | rfl <;> exact by simp
  rw [bne_iff_ne]
  omega

/-- The image is in no table of the kernel. -/
theorem imageSpace_same (vaddr : Nat) {n : Nat}
    (hn : IsTable hwTable kernelSpace.entry 1 (TablePath 3) n) (i : Fin 512) :
    (imageSpace vaddr).entry n i = kernelSpace.entry n i := by
  obtain ⟨q, hq, hn⟩ := hn
  obtain ⟨-, rfl⟩ := recursiveSpace_descend hq.2 hn
  have hi := i.isLt
  show ((elfWords vaddr).lookup (4096 * 1 + 8 * i.val)).getD _ = _
  rw [elfWords_lookup (by omega), Option.getD_none]
  rfl

theorem imageSpace_rootOk (vaddr : Nat) : RootOk .large (imageSpace vaddr) 1 :=
  kernelSpace_rootOk.same rfl List.suffix_rfl fun _ hn => imageSpace_same vaddr hn

/-- The headers of the image ask for the page `p`. -/
def AsksFor (vaddr : Nat) (p : Placement) : Prop :=
  (imageSpace vaddr).phdrEntries .large elfPointer = 1 ∧
    (imageSpace vaddr).phdrAt .large elfPointer 0 = 0x200040 ∧
    Loader.placements ⟨imageSpace vaddr, []⟩ .large elfPointer = [p] ∧ p.copy = none ∧
    pml4Entry p.virtual ≠ 510

instance (vaddr : Nat) (p : Placement) : Decidable (AsksFor vaddr p) := by
  unfold AsksFor
  infer_instance

/-- What the example runs are checked for by computation. -/
def elfFacts (s : Vm) (root : Nat) (vm : Vm) : Prop :=
  root = 0x4000 ∧ s.freeTables.length = 6 ∧ s.freeTables.head? = some 0x4000 ∧
    s.entry 4 (pml4Entry (vmmDataStart .large s.memorySizeInBytes)) % 2 = 0 ∧
    vm.freeTables.length = 2

instance (s : Vm) (root : Nat) (vm : Vm) : Decidable (elfFacts s root vm) := by
  unfold elfFacts
  infer_instance

theorem physOf_elfPointer (k : Nat) : physOf .large (elfPointer + k) = 0x200000 + k := by
  unfold physOf elfPointer
  omega

theorem AsksFor.headerFrame {vaddr f : Nat} {p : Placement} (h : AsksFor vaddr p)
    (hf : (imageSpace vaddr).HeaderFrame .large elfPointer f) : f = 0x200 := by
  obtain ⟨hentries, hat, -⟩ := h
  obtain ⟨a, ha, rfl⟩ := hf
  rcases ha with ⟨k, hk, rfl⟩ | ⟨k, hk, rfl⟩ | ⟨i, hi, k, hk, rfl⟩
  · rw [physOf_elfPointer]
    omega
  · rw [physOf_elfPointer]
    omega
  · obtain rfl : i = 0 := by omega
    rw [hat]
    unfold sizeofElf64Phdr at hk
    omega

/-- From frame 10 on there are no tables of the kernel and no free frames. -/
theorem imageSpace_outside (vaddr : Nat) {f : Nat} (hf : 10 ≤ f) :
    OutsideTables (imageSpace vaddr) 1 f := by
  refine ⟨?_, fun hfree => ?_⟩
  · rintro ⟨q, hq, ht⟩
    have hsame : descend hwTable (imageSpace vaddr).entry 1 q =
        descend hwTable kernelSpace.entry 1 q :=
      descend_same (tablePath_closed 3) (fun n hn => imageSpace_same vaddr hn) hq
    have htable := (recursiveSpace_descend hq.2 (hsame ▸ ht)).2
    omega
  · have hlow : ∀ t ∈ kernelSpace.freeTables, t < 4096 * 10 := by decide
    have := hlow _ hfree
    omega

/-- The hypotheses of `elf_keeps_kernel_half` in these runs. -/
theorem elfRun_spec {vaddr root : Nat} {p : Placement} {s vm : Vm} {s' : Loader}
    (hasks : AsksFor vaddr p) (hrun : elfRun vaddr = .ok (s, root, vm, s'))
    (hfacts : elfFacts s root vm) :
    RootOk .large s 1 ∧ TaskSupply .large s ∧ ImageOk .large ⟨s, []⟩ 1 elfPointer ∧
      createTaskSpace .large s 1 = .ok (root, vm) ∧
      Loader.placements ⟨s, []⟩ .large elfPointer = [p] ∧
      FramesSuffice .large (root / 4096) vm [p] ∧
      loadPhdrs .large (hhdmGetVariable .large vm root) elfPointer ⟨vm, []⟩ = .ok s' := by
  obtain ⟨rfl, hlen, hhead, hstale, hleft⟩ := hfacts
  unfold elfRun at hrun
  obtain ⟨⟨ret, s₁⟩, hmap, hrun⟩ := bind_inv hrun
  obtain ⟨⟨root₁, vm₁⟩, hcreate, hrun⟩ := bind_inv hrun
  obtain ⟨s₂, hload, hrun⟩ := bind_inv hrun
  cases hrun
  obtain ⟨s₃, ret₃, -, hmap₃, hstep⟩ := (imageSpace_rootOk vaddr).map 0 3
    (by decide : indexAt 0xFFFF800000000000 0 ≠ 510)
    (fun e _ _ => (Nat.sub_le 2 e).trans (by decide : 2 ≤ kernelSpace.freeTables.length))
  cases hmap.symm.trans hmap₃
  have hok : RootOk .large s 1 := (imageSpace_rootOk vaddr).step hstep
  have hout : OutsideTables s 1 0x200 := by
    obtain ⟨htable, hfree⟩ := imageSpace_outside vaddr (by decide : 10 ≤ 0x200)
    refine ⟨fun ht => ?_, fun hmem => hfree (hstep.confined.supply.subset hmem)⟩
    exact (hstep.confined.tables 0x200 ht).elim htable hfree
  -- the kernel's page has left the image as it was
  have hsame : ∀ a, (imageSpace vaddr).HeaderByte .large elfPointer a →
      s.byte a = (imageSpace vaddr).byte a := by
    intro a ha
    have hframe : a / 4096 = 0x200 := hasks.headerFrame ⟨a, ha, rfl⟩
    obtain ⟨htable, hfree⟩ := imageSpace_outside vaddr (by decide : 10 ≤ 0x200)
    refine byte_congr ?_
    rw [hframe]
    exact hstep.confined.frame 0x200 htable hfree
  obtain ⟨hbyte, -, hheaders⟩ := headers_congr hsame
  have hframe : ∀ f, s.HeaderFrame .large elfPointer f → f = 0x200 := by
    rintro f ⟨a, ha, rfl⟩
    exact hasks.headerFrame ⟨a, hbyte ▸ ha, rfl⟩
  obtain ⟨-, -, hplace, hcopy, -⟩ := hasks
  have hplaces : Loader.placements ⟨s, []⟩ .large elfPointer = [p] := by
    rw [← hplace]
    unfold Loader.placements
    dsimp only
    rw [hheaders]
  have himage : ImageOk .large ⟨s, []⟩ 1 elfPointer := by
    refine ⟨fun f hf => hframe f hf ▸ hout, fun o ho f hf => ?_⟩
    obtain ⟨source, count, hsome, -⟩ := hf
    rw [hplaces, List.mem_singleton] at ho
    rw [ho, hcopy] at hsome
    cases hsome
  have hsupply : TaskSupply .large s := by
    refine ⟨hlen ▸ by decide, fun t ht => ?_⟩
    rw [hhead] at ht
    cases ht
    exact hstale
  have hframes : FramesSuffice .large 4 vm [p] :=
    ⟨fun e _ _ => (Nat.sub_le 2 e).trans hleft.ge, fun _ _ => trivial⟩
  exact ⟨hok, hsupply, himage, hcreate, hplaces, hframes, hload⟩

/-- A page in the lower half. -/
theorem elf_keeps_kernel_half_lower :
    ∃ s root vm s', elfRun 0x400000 = .ok (s, root, vm, s') ∧
      (∀ p ∈ Loader.placements ⟨s, []⟩ .large elfPointer, Harmless .large s 1 p) ∧
      KernelHalfKept vm s'.vm (root / 4096) ∧
      translate s'.vm 4 0x400000 = some ⟨0x200000, true⟩ := by
  obtain ⟨⟨s, root, vm, s'⟩, hrun, hfacts, htranslate⟩ : ∃ x, elfRun 0x400000 = .ok x ∧
      elfFacts x.1 x.2.1 x.2.2.1 ∧ translate x.2.2.2.vm 4 0x400000 = some ⟨0x200000, true⟩ := by
    decide +kernel
  obtain ⟨hok, hsupply, himage, hcreate, hplaces, hframes, hload⟩ :=
    elfRun_spec (p := ⟨0x400000, 0x200000, 7, none⟩) (by decide +kernel) hrun hfacts
  have hharmless : ∀ p ∈ Loader.placements ⟨s, []⟩ .large elfPointer, Harmless .large s 1 p := by
    intro p hp
    rw [hplaces, List.mem_singleton] at hp
    rw [hp]
    exact Or.inl (by decide)
  rw [← hplaces] at hframes
  exact ⟨s, root, vm, s', hrun, hharmless,
    (elf_keeps_kernel_half .large 1 elfPointer root ⟨s, []⟩ s'
    vm hok hsupply himage hcreate hframes hload).1 hharmless, htranslate⟩

/-- **An image that maps a page for the kernel.** Its page is in a gigabyte of the kernel's
half that was empty, behind a table that all tasks share: afterwards the kernel's own root
translates the address to the image. -/
theorem elf_maps_kernel_page :
    ∃ s root vm s', elfRun 0xFFFF800040000000 = .ok (s, root, vm, s') ∧
      RootOk .large s 1 ∧ TaskSupply .large s ∧ ImageOk .large ⟨s, []⟩ 1 elfPointer ∧
      FramesSuffice .large (root / 4096) vm (Loader.placements ⟨s, []⟩ .large elfPointer) ∧
      parseSectionHeader .large (imageSpace 0xFFFF800040000000) elfPointer .elf = .ok true ∧
      ¬ KernelHalfKept vm s'.vm (root / 4096) ∧
      translate vm 1 0xFFFF800040000000 = none ∧
      translate s'.vm 1 0xFFFF800040000000 = some ⟨0x200000, true⟩ := by
  obtain ⟨⟨s, root, vm, s'⟩, hrun, hfacts, htable, hbefore, hafter, hnone, htranslate⟩ : ∃ x,
      elfRun 0xFFFF800040000000 = .ok x ∧ elfFacts x.1 x.2.1 x.2.2.1 ∧
      descend hwTable x.2.2.1.entry 4 [256] = some 2 ∧ x.2.2.1.entry 2 1 = 0 ∧
      x.2.2.2.vm.entry 2 1 = 0x8003 ∧ translate x.2.2.1 1 0xFFFF800040000000 = none ∧
      translate x.2.2.2.vm 1 0xFFFF800040000000 = some ⟨0x200000, true⟩ := by decide +kernel
  obtain ⟨hok, hsupply, himage, -, hplaces, hframes, -⟩ :=
    elfRun_spec (p := ⟨0xFFFF800040000000, 0x200000, 7, none⟩) (by decide +kernel) hrun hfacts
  have hroot : root = 0x4000 := hfacts.1
  rw [← hplaces] at hframes
  refine ⟨s, root, vm, s', hrun, hok, hsupply, himage, hframes, by decide +kernel, fun hkept => ?_,
    hnone, htranslate⟩
  rw [hroot] at hkept
  have hentry := hkept [256] 1 2 ⟨by decide, by decide⟩ (by decide) htable
  exact absurd (hafter.symm.trans (hentry.trans hbefore)) (by decide)

end Dreamos64
