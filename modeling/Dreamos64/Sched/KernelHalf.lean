import Dreamos64.Sched.CreateTask

/-!
# Dreamos64 — the kernel's half of every address space

A task's root gets a copy of the kernel's root entries 256 to 511 when the task is
created, and only then. Tables further down are shared, so later mappings show up
in every task as long as they hang from an entry that was copied. A mapping that
fills a root entry of the kernel does not reach the tasks that exist by then.

* `SpacesOk`     — the kernel's tables are in order, no task's root is among them,
  and the roots agree;
* `exec_spacesOk` — every call keeps this if, while there are tasks, it finds the
  kernel's root entry for its address present (`CallOk`);
* `kernel_half_shared` — so after any such calls every kernel address is translated
  alike in all address spaces;
* `kernel_mapping_lost` — a mapping that a task does not see.
-/

namespace Dreamos64

open Machine TableTree

/-! ## The system -/

/-- Memory, and the frames that hold the roots of tasks. -/
structure Spaces where
  vm    : Vm
  tasks : List Nat

inductive SpaceCall where
  | createTask
  | map (physicalAddress address flags : Nat)
  | mapHh (physicalAddress address flags : Nat)

/-- A task is created, or the kernel maps a page: through CR3, which holds the
kernel's root, or through a NULL root, which stands for it. -/
def Spaces.exec (m : PageMode) (r : Nat) (S : Spaces) : SpaceCall → Exec Spaces
  | .createTask => do
    let (vmRootPageTable, vm) ← createTaskSpace m S.vm r
    .ok ⟨vm, vmRootPageTable / 4096 :: S.tasks⟩
  | .map physicalAddress address flags => do
    let (_, vm) ← mapPhysToVirtAddr m S.vm r physicalAddress address flags
    .ok { S with vm := vm }
  | .mapHh physicalAddress address flags => do
    let (_, vm) ← mapPhysToVirtAddrHh m S.vm physicalAddress address flags none
    .ok { S with vm := vm }

/-- The kernel may map `address`: it is not under entry 510, there are frames for
its tables, and if there are tasks they have the root entry too. -/
structure MapOk (m : PageMode) (r : Nat) (S : Spaces) (address : Nat) : Prop where
  outside : pml4Entry address ≠ 510
  frames  : FramesFor S.vm r address (pageDepth m)
  copied  : S.tasks ≠ [] → 256 ≤ (pml4Entry address).val →
    S.vm.entry r (pml4Entry address) % 2 = 1

/-- What the state has to be like before a call. -/
def CallOk (m : PageMode) (r : Nat) (S : Spaces) : SpaceCall → Prop
  | .createTask => TaskSupply m S.vm
  | .map _ address _ => MapOk m r S address
  | .mapHh _ address _ => MapOk m r S address

def spaceStep (m : PageMode) (r : Nat) (S : Spaces) (c : SpaceCall) (S' : Spaces) : Prop :=
  CallOk m r S c ∧ S.exec m r c = .ok S'

/-! ## The invariant -/

/-- The roots agree on the kernel's half, entry 510 apart. -/
def Agree (s : Vm) (r t : Nat) : Prop :=
  ∀ i : Fin 512, 256 ≤ i.val → i ≠ 510 → s.entry t i = s.entry r i

structure SpacesOk (m : PageMode) (r : Nat) (S : Spaces) : Prop where
  kernel  : RootOk m S.vm r
  pointer : S.vm.hhdmPageRootAddress = tablePtr m r
  apart   : ∀ t ∈ S.tasks, ¬ IsTable hwTable S.vm.entry r (TablePath 3) t ∧
    4096 * t ∉ S.vm.freeTables
  agree   : ∀ t ∈ S.tasks, Agree S.vm r t

section Steps

variable {m : PageMode} {r : Nat} {S S' : Spaces}

/-- With the kernel's pointer in place a NULL root is the kernel's. -/
theorem mapPhysToVirtAddrHh_none {s : Vm} {pa va flags : Nat}
    (hpointer : s.hhdmPageRootAddress = tablePtr m r) :
    mapPhysToVirtAddrHh m s pa va flags none =
      mapPhysToVirtAddrHh m s pa va flags (tablePtr m r) := by
  have hroot : (tablePtr m r).or s.hhdmPageRootAddress = tablePtr m r := by
    rw [tablePtr, Option.some_or]
  unfold mapPhysToVirtAddrHh
  rw [hroot, Option.none_or, hpointer]

/-- A mapping leaves the kernel's root entries above alone, and those of tasks. -/
theorem SpacesOk.mapped {vm : Vm} {va v : Nat} (h : SpacesOk m r S) (hcall : MapOk m r S va)
    (hstep : MapStep m (TablePath (pageDepth m)) S.vm vm r va v) :
    SpacesOk m r { S with vm := vm } where
  kernel := h.kernel.step hstep
  pointer := hstep.confined.pointer.trans h.pointer
  apart := fun t ht => by
    obtain ⟨htable, hfree⟩ := h.apart t ht
    refine ⟨fun hu => ?_, fun hu => hfree (hstep.confined.supply.subset hu)⟩
    exact (hstep.confined.tables t hu).elim htable hfree
  agree := fun t ht i hi h510 => by
    obtain ⟨htable, hfree⟩ := h.apart t ht
    have hdepth : pageDepth m ≠ 0 := by cases m <;> decide
    -- the root's slot `i` is not the page's, and was not filled on the way
    have hroot : vm.entry r i = S.vm.entry r i := by
      refine ((hstep.mapped.slots [] i (tablePath_nil 3) ?_).resolve_right ?_ : _)
      · rintro ⟨hpath, -⟩
        exact hdepth (pathTo_length_eq (a := va) (b := va) (d := 0) hpath).symm
      · rintro ⟨⟨e, -, hpath, rfl⟩, habsent, -⟩
        obtain rfl : e = 0 := (pathTo_length_eq (a := va) (b := va) (d := 0) hpath).symm
        have hpresent := hcall.copied (List.ne_nil_of_mem ht) hi
        have hslot : S.vm.entry r (pml4Entry va) % 2 = 0 := habsent
        omega
    show vm.entry t i = vm.entry r i
    rw [hstep.confined.frame t htable hfree i, hroot]
    exact h.agree t ht i hi h510

/-- A new task's root agrees with the kernel's. -/
theorem SpacesOk.created {vm : Vm} {n : Nat} (h : SpacesOk m r S)
    (hstep : TaskCreated S.vm vm r n) : SpacesOk m r ⟨vm, n :: S.tasks⟩ where
  kernel := hstep.kernel h.kernel
  pointer := hstep.pointer.trans h.pointer
  apart := fun t ht => by
    have hdesc : ∀ p, TablePath 3 p → descend hwTable vm.entry r p =
        descend hwTable S.vm.entry r p := fun p hp => descend_same (tablePath_closed 3)
      (fun u hu => hstep.frame u (h.kernel.tables.not_free hu)) hp
    rcases List.mem_cons.mp ht with rfl | ht
    · refine ⟨?_, hstep.gone⟩
      rintro ⟨p, hp, hu⟩
      exact h.kernel.tables.not_free ⟨p, hp, hdesc p hp ▸ hu⟩ hstep.taken
    · obtain ⟨htable, hfree⟩ := h.apart t ht
      refine ⟨?_, fun hu => hfree (hstep.supply.subset hu)⟩
      rintro ⟨p, hp, hu⟩
      exact htable ⟨p, hp, hdesc p hp ▸ hu⟩
  agree := fun t ht i hi h510 => by
    have hroot : vm.entry r i = S.vm.entry r i :=
      hstep.frame r (h.kernel.tables.not_free ⟨[], tablePath_nil 3, rfl⟩) i
    show vm.entry t i = vm.entry r i
    rcases List.mem_cons.mp ht with rfl | ht
    · have h510' : i.val ≠ 510 := fun e => h510 (Fin.ext e)
      rw [hstep.root, taskRootEntry, if_neg (by omega), if_neg h510', hroot]
    · rw [hstep.frame t (h.apart t ht).2 i, hroot]
      exact h.agree t ht i hi h510

/-- **Every call returns**, and keeps the invariant. -/
theorem exec_spacesOk (h : SpacesOk m r S) {c : SpaceCall} (hcall : CallOk m r S c) :
    ∃ S', S.exec m r c = .ok S' ∧ SpacesOk m r S' := by
  cases c with
  | createTask =>
    have hr := h.kernel.tables.not_free ⟨[], tablePath_nil 3, rfl⟩
    obtain ⟨n, vm, hrun, hstep⟩ := createTaskSpace_spec h.kernel.freeFrames hr hcall
    refine ⟨⟨vm, n :: S.tasks⟩, ?_, h.created hstep⟩
    simp only [Spaces.exec, hrun, ok_bind, Nat.mul_div_cancel_left n (by decide : 0 < 4096)]
  | map pa va flags =>
    obtain ⟨vm, ret, hrun, -, hstep⟩ := h.kernel.map pa flags hcall.outside hcall.frames
    exact ⟨{ S with vm := vm }, by simp only [Spaces.exec, hrun, ok_bind], h.mapped hcall hstep⟩
  | mapHh pa va flags =>
    obtain ⟨vm, ret, -, hrun, hstep⟩ := h.kernel.map pa flags hcall.outside hcall.frames
    refine ⟨{ S with vm := vm }, ?_, h.mapped hcall hstep⟩
    simp only [Spaces.exec, mapPhysToVirtAddrHh_none h.pointer, hrun, ok_bind]

theorem run_spacesOk {calls : List SpaceCall} (h : SpacesOk m r S)
    (hrun : Run (spaceStep m r) S calls S') : SpacesOk m r S' := by
  refine hrun.inv (SpacesOk m r) h ?_
  -- `exec` has one result, so it is the one of `exec_spacesOk`
  rintro T U c hT ⟨hcall, hexec⟩
  obtain ⟨U', hexec', hU'⟩ := exec_spacesOk hT hcall
  cases hexec.symm.trans hexec'
  exact hU'

/-- A walk looks at one entry of the root. -/
theorem translate_congr {s : Vm} {t a : Nat}
    (h : s.entry t (pml4Entry a) = s.entry r (pml4Entry a)) :
    translate s t a = translate s r a := by
  have hwalk : ∀ root, translate s root a = walk s a (3 - 0) root := fun _ => rfl
  have hindex : indexAt a 0 = pml4Entry a := rfl
  rw [hwalk, hwalk, walk_at (Nat.zero_le 2), walk_at (Nat.zero_le 2), hindex, h]

end Steps

/-- **The kernel's half is shared.** From kernel tables in order and no tasks, after
any calls of which each finds its state as it should be, all roots agree on the
kernel's half, so a kernel address is translated alike everywhere; and every such
call returns. -/
theorem kernel_half_shared (m : PageMode) (r : Nat) (vm : Vm) (hok : RootOk m vm r)
    (hpointer : vm.hhdmPageRootAddress = tablePtr m r) (calls : List SpaceCall) (S : Spaces)
    (hrun : Run (spaceStep m r) ⟨vm, []⟩ calls S) :
    (∀ t ∈ S.tasks, (∀ i : Fin 512, 256 ≤ i.val → i ≠ 510 → S.vm.entry t i = S.vm.entry r i) ∧
      ∀ a, 256 ≤ (pml4Entry a).val → pml4Entry a ≠ 510 →
        translate S.vm t a = translate S.vm r a) ∧
    ∀ c, CallOk m r S c → ∃ S', S.exec m r c = .ok S' := by
  have hstart : SpacesOk m r ⟨vm, []⟩ :=
    ⟨hok, hpointer, fun t ht => absurd ht List.not_mem_nil, fun t ht => absurd ht List.not_mem_nil⟩
  have h := run_spacesOk hstart hrun
  refine ⟨fun t ht => ⟨h.agree t ht, fun a ha h510 => ?_⟩, fun c hc => ?_⟩
  · exact translate_congr (h.agree t ht _ ha h510)
  · obtain ⟨S', hexec, -⟩ := exec_spacesOk h hc
    exact ⟨S', hexec⟩

/-! ## A kernel with eight frames -/

/-- A kernel root that holds nothing but its entry 510, and eight free frames. -/
def kernelSpace : Vm :=
  { recursiveSpace with
    freeTables := [0x2000, 0x3000, 0x4000, 0x5000, 0x6000, 0x7000, 0x8000, 0x9000]
    hhdmPageRootAddress := tablePtr .large 1 }

theorem kernelSpace_rootOk : RootOk .large kernelSpace 1 := by
  have hframes : ∀ t ∈ kernelSpace.freeTables, t = 4096 * (t / 4096) ∧ t / 4096 ≠ 1 ∧
      t < 2 ^ 30 := by
    decide
  exact rootOk_recursive rfl rfl (by decide) fun t ht => ⟨t / 4096, hframes t ht⟩

/-- A page mapped before the task was created, and one after it under the same root
entry. -/
theorem kernel_half_shared_kernelSpace :
    ∃ S, Run (spaceStep .large 1) ⟨kernelSpace, []⟩ [.mapHh 0x200000 0xFFFF800000000000 3,
        .createTask, .mapHh 0x400000 0xFFFF800040000000 3] S ∧ S.tasks = [4] ∧
      translate S.vm 1 0xFFFF800040000000 = some ⟨0x400000, true⟩ ∧
      translate S.vm 4 0xFFFF800040000000 = some ⟨0x400000, true⟩ := by
  obtain ⟨S₁, h₁, hlen₁, hhead, hstale, S₂, h₂, hlen₂, hpresent, S, h₃, htasks, htranslate⟩ : ∃ S₁,
      Spaces.exec .large 1 ⟨kernelSpace, []⟩ (.mapHh 0x200000 0xFFFF800000000000 3) = .ok S₁ ∧
      S₁.vm.freeTables.length = 6 ∧ S₁.vm.freeTables.head? = some 0x4000 ∧
      S₁.vm.entry 4 (pml4Entry (vmmDataStart .large S₁.vm.memorySizeInBytes)) % 2 = 0 ∧
      ∃ S₂, S₁.exec .large 1 .createTask = .ok S₂ ∧ S₂.vm.freeTables.length = 2 ∧
        S₂.vm.entry 1 (pml4Entry 0xFFFF800040000000) % 2 = 1 ∧
        ∃ S, S₂.exec .large 1 (.mapHh 0x400000 0xFFFF800040000000 3) = .ok S ∧ S.tasks = [4] ∧
          translate S.vm 1 0xFFFF800040000000 = some ⟨0x400000, true⟩ := by
    decide +kernel
  have hfirst : MapOk .large 1 ⟨kernelSpace, []⟩ 0xFFFF800000000000 :=
    ⟨by decide, fun e _ _ => (Nat.sub_le 2 e).trans (by decide), fun h => absurd rfl h⟩
  have hcreate : TaskSupply .large S₁.vm := by
    refine ⟨by rw [hlen₁]; decide, fun root hroot => ?_⟩
    rw [hhead] at hroot
    cases hroot
    exact hstale
  have hsecond : MapOk .large 1 S₂ 0xFFFF800040000000 :=
    ⟨by decide, fun e _ _ => (Nat.sub_le 2 e).trans hlen₂.ge, fun _ _ => hpresent⟩
  have hrun : Run (spaceStep .large 1) ⟨kernelSpace, []⟩ [.mapHh 0x200000 0xFFFF800000000000 3,
      .createTask, .mapHh 0x400000 0xFFFF800040000000 3] S :=
    Run.extend (Run.extend (Run.extend Run.start ⟨hfirst, h₁⟩) ⟨hcreate, h₂⟩) ⟨hsecond, h₃⟩
  obtain ⟨hshared, -⟩ := kernel_half_shared .large 1 kernelSpace kernelSpace_rootOk rfl _ S hrun
  refine ⟨S, hrun, htasks, htranslate, ?_⟩
  rw [(hshared 4 (by simp [htasks])).2 _ (by decide) (by decide), htranslate]

/-- **A mapping that a task does not see.** The page is mapped after the task was
created, under a root entry that the kernel did not have. -/
theorem kernel_mapping_lost :
    RootOk .large kernelSpace 1 ∧ kernelSpace.hhdmPageRootAddress = tablePtr .large 1 ∧
    ∃ S, [SpaceCall.createTask, .mapHh 0x200000 0xFFFF900000000000 3].foldlM (Spaces.exec .large 1)
        ⟨kernelSpace, []⟩ = .ok S ∧ S.tasks = [2] ∧ S.vm.entry 1 288 = 0x6003 ∧
      S.vm.entry 2 288 = 0 ∧ translate S.vm 1 0xFFFF900000000000 = some ⟨0x200000, true⟩ ∧
      translate S.vm 2 0xFFFF900000000000 = none := by
  exact ⟨kernelSpace_rootOk, rfl, by decide +kernel⟩

end Dreamos64
