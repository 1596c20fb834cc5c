import Dreamos64.Arch.HardwareTree
import Dreamos64.Arch.UserSupervisor
import Dreamos64.Mem.Vmm

/-!
# Dreamos64 — a new task's address space

`create_task` of `task.c` and `prepare_virtual_memory_environment`, as far as page
tables go. After boot `pmm_prepare_new_pagetable` is `pmm_alloc_frame`, so roots,
containers and tables all come out of the same supply.

`create_task` takes a frame for the root and calls `vmm_init`, which maps its first
container in that root before anything has been written there: whatever the frame
held before is taken for entries. `prepare_virtual_memory_environment` fills the
root afterwards.

* `createTaskSpace_spec` — if the entry that `vmm_init` looks at is not present,
  only frames of the supply change, and the root is as it should be;
* `TaskCreated.kernel`   — the kernel's tables are still in order;
* `TaskCreated.task`     — and so are the new root's: above they are the kernel's,
  below there are none.
-/

namespace Dreamos64

open Machine TableTree

/-! ## The model -/

/-- `vmm_init`, as far as it changes the tables: it maps one page, if there is a frame for it. -/
def vmmInitSpace (m : PageMode) (s : Vm) (rootTableHh : Option Nat) : Exec Vm :=
  match s.freeTables with
  | [] => .ok s
  | vmmRootPhys :: rest => do
    -- the address is in the higher half, where the new root has no entries yet
    let (_, s) ← mapPhysToVirtAddrHh m { s with freeTables := rest } vmmRootPhys
      (vmmDataStart m s.memorySizeInBytes) (vmmFlagsPresent ||| vmmFlagsWriteEnable) rootTableHh
    .ok s

/-- `create_task`: `vm_root_page_table`, and memory after it. -/
def createTask (m : PageMode) (s : Vm) : Exec (Nat × Vm) := do
  let (vmRootPageTable, s) := newPagetable s
  let s ← vmmInitSpace m s (hhdmGetVariable m s vmRootPageTable)
  .ok (vmRootPageTable, s)

/-- `create_task` and `prepare_virtual_memory_environment`, while the kernel's
`p4_table` is in frame `r`. -/
def createTaskSpace (m : PageMode) (s : Vm) (r : Nat) : Exec (Nat × Vm) := do
  let (vmRootPageTable, s) ← createTask m s
  -- this overwrites what `vmm_init` has just put into the root
  let s ← prepareVirtualMemoryEnvironment m s (s.entry r) vmRootPageTable
  .ok (vmRootPageTable, s)

/-! ## A root that is not filled yet -/

/-- The frames of the supply are aligned, distinct, and reached by the direct map. -/
structure FreeFrames (s : Vm) : Prop where
  limit   : s.memorySizeInBytes ≤ 2 ^ 40
  nodup   : s.freeTables.Nodup
  aligned : ∀ t ∈ s.freeTables, ∃ n, t = 4096 * n ∧ t < s.memorySizeInBytes

/-- Apart from table `n`, only frames of the supply have changed. -/
structure OnlyFresh (s s' : Vm) (n : Nat) : Prop where
  size    : s'.memorySizeInBytes = s.memorySizeInBytes
  pointer : s'.hhdmPageRootAddress = s.hhdmPageRootAddress
  supply  : s'.freeTables <:+ s.freeTables
  frame   : ∀ u, u ≠ n → 4096 * u ∉ s.freeTables → ∀ j, s'.entry u j = s.entry u j

theorem FreeFrames.step {s s' : Vm} {n : Nat} (h : FreeFrames s) (hs : OnlyFresh s s' n) :
    FreeFrames s' where
  limit := hs.size ▸ h.limit
  nodup := h.nodup.sublist hs.supply.sublist
  aligned := fun t ht => hs.size ▸ h.aligned t (hs.supply.subset ht)

section Fresh

variable {m : PageMode} {s : Vm} {n va : Nat}

/-- Below an entry that is not present the mapper only sees tables that it has
just made. -/
theorem hhPath_fresh (hok : FreeFrames s) (hn : 4096 * n ∉ s.freeTables)
    (habsent : s.entry n (indexAt va 0) % 2 = 0) {d : Nat} (hd : d ≤ s.freeTables.length) :
    ∃ t s', hhPath m s (tablePtr m n) va d = .ok (tablePtr m t, s') ∧ OnlyFresh s s' n ∧
      s'.freeTables = s.freeTables.drop d ∧ (t = n ∨ 4096 * t ∈ s.freeTables) ∧
      4096 * t ∉ s'.freeTables ∧ s'.entry t (indexAt va d) % 2 = 0 := by
  induction d with
  | zero =>
    exact ⟨n, s, rfl, ⟨rfl, rfl, List.suffix_rfl, fun _ _ _ _ => rfl⟩, rfl, Or.inl rfl, hn, habsent⟩
  | succ d ih =>
    obtain ⟨t, s₁, hrun, hfresh, hrest, ht, hout, habsent₁⟩ := ih (by omega)
    have hok₁ := hok.step hfresh
    have huser := userModeStatus_cases va
    -- the frame that comes next
    obtain ⟨a, rest, hfree⟩ : ∃ a rest, s₁.freeTables = a :: rest := by
      refine List.exists_cons_of_ne_nil fun hempty => ?_
      have hlen := congrArg List.length hrest
      rw [hempty, List.length_drop, List.length_nil] at hlen
      omega
    have hmem : a ∈ s.freeTables := hfresh.supply.subset (by simp [hfree])
    obtain ⟨k, rfl, hlt⟩ := hok₁.aligned a (by simp [hfree])
    have htk : t ≠ k := fun e => hout (by simp [hfree, e])
    have hkn : k ≠ n := fun e => hn (e ▸ hmem)
    have hk : k < 2 ^ 40 := by
      have := hok₁.limit
      omega
    obtain ⟨s₂, hs₂⟩ : ∃ s₂, s₂ = s₁.ensure t (indexAt va d) (userModeStatus va) := ⟨_, rfl⟩
    obtain ⟨hsize, hpointer, hrest₁⟩ : s₂.memorySizeInBytes = s₁.memorySizeInBytes ∧
        s₂.hhdmPageRootAddress = s₁.hhdmPageRootAddress ∧ s₂.freeTables = rest :=
      hs₂ ▸ ensure_rest habsent₁ hfree
    have hentry : ∀ u j, s₂.entry u j = if u = k then 0
        else if u = t ∧ j = indexAt va d then linkValue (4096 * k) (userModeStatus va)
        else s₁.entry u j := hs₂ ▸ entry_ensure habsent₁ hfree
    have hframe : hwFrame (s₂.entry t (indexAt va d)) = k := by
      rw [hentry, if_neg htk, if_pos ⟨rfl, rfl⟩]
      exact (hwTable_present (hwTable_linkValue huser hk)).2.2
    have hnodup := hok₁.nodup
    rw [hfree, List.nodup_cons] at hnodup
    refine ⟨k, s₂, ?_, ⟨hsize.trans hfresh.size, hpointer.trans hfresh.pointer, ?_, ?_⟩, ?_,
      Or.inr hmem, hrest₁ ▸ hnodup.1, ?_⟩
    · rw [hhPath, hrun, ok_bind]
      dsimp only
      rw [tableFor_eq hok₁.limit (fun hpresent => by omega) huser
        fun _ => ⟨k, rest, hfree, hlt, htk⟩, ← hs₂, hframe]
    · rw [hrest₁]
      exact (List.suffix_cons _ _).trans (hfree ▸ hfresh.supply)
    · intro u hun hu j
      have huk : u ≠ k := fun e => hu (e ▸ hmem)
      have hut : ¬ (u = t ∧ j = indexAt va d) := by
        rintro ⟨rfl, -⟩
        exact ht.elim hun hu
      rw [hentry, if_neg huk, if_neg hut, hfresh.frame u hun hu j]
    · rw [hrest₁, ← List.drop_drop, ← hrest, hfree]
      rfl
    · rw [hentry, if_pos rfl]

/-- Mapping a page in a root whose entry for it is not present. -/
theorem mapPhysToVirtAddrHh_fresh (pa flags : Nat) (hok : FreeFrames s)
    (hn : 4096 * n ∉ s.freeTables) (habsent : s.entry n (indexAt va 0) % 2 = 0)
    (hlen : pageDepth m ≤ s.freeTables.length) :
    ∃ ret s', mapPhysToVirtAddrHh m s pa va flags (tablePtr m n) = .ok (ret, s') ∧
      OnlyFresh s s' n := by
  obtain ⟨t, s₁, hrun, hfresh, -, ht, -, habsent₁⟩ := hhPath_fresh (m := m) hok hn habsent hlen
  refine ⟨va, s₁.setEntry t (indexAt va (pageDepth m)) (pageValue m pa va flags), ?_,
    hfresh.size, hfresh.pointer, hfresh.supply, fun u hun hu j => ?_⟩
  · rw [mapPhysToVirtAddrHh_eq, hrun, ok_bind]
    simp only [hhEntry, load_tablePtr, store_tablePtr, ok_bind, and_presentBit]
    rw [if_pos habsent₁]
  · have hut : ¬ (u = t ∧ j = indexAt va (pageDepth m)) := by
      rintro ⟨rfl, -⟩
      exact ht.elim hun hu
    rw [entry_setEntry, if_neg hut, hfresh.frame u hun hu j]

end Fresh

/-! ## A new task -/

/-- There are frames for the root, the container and the container's tables, and
what the root's frame held before has no entry for the container. -/
structure TaskSupply (m : PageMode) (s : Vm) : Prop where
  enough : pageDepth m + 2 ≤ s.freeTables.length
  stale  : ∀ root ∈ s.freeTables.head?,
    s.entry (root / 4096) (pml4Entry (vmmDataStart m s.memorySizeInBytes)) % 2 = 0

/-- What creating a task does, with its root in frame `n`. -/
structure TaskCreated (s s' : Vm) (r n : Nat) : Prop where
  taken   : 4096 * n ∈ s.freeTables
  gone    : 4096 * n ∉ s'.freeTables
  size    : s'.memorySizeInBytes = s.memorySizeInBytes
  pointer : s'.hhdmPageRootAddress = s.hhdmPageRootAddress
  supply  : s'.freeTables <:+ s.freeTables
  frame   : ∀ u, 4096 * u ∉ s.freeTables → ∀ j, s'.entry u j = s.entry u j
  root    : ∀ i, s'.entry n i = taskRootEntry (s.entry r) (4096 * n) i

section Task

variable {m : PageMode} {s s' : Vm} {r n : Nat}

theorem RootOk.freeFrames (h : RootOk m s r) : FreeFrames s where
  limit := h.below.limit
  nodup := h.tables.nodup
  aligned := fun t ht => by
    obtain ⟨n, rfl, -, -⟩ := h.tables.fresh t ht
    exact ⟨n, rfl, h.below.supply _ ht⟩

theorem prepare_returns (p4Table : Fin 512 → Nat) (hlt : 4096 * n < s.memorySizeInBytes) :
    ∃ s', prepareVirtualMemoryEnvironment m s p4Table (4096 * n) = .ok s' := by
  obtain ⟨memory, hrun, -⟩ := foldlM_store (m := m) (n := n) (taskRootEntry p4Table (4096 * n))
    (List.finRange vmPagesPerTable) s
  refine ⟨{ s with memory := memory }, ?_⟩
  rw [prepareVirtualMemoryEnvironment, hhdmGetVariable_table hlt]
  exact hrun

/-- **Creating a task** touches frames of the supply only. -/
theorem createTaskSpace_spec (hok : FreeFrames s) (hr : 4096 * r ∉ s.freeTables)
    (hsupply : TaskSupply m s) :
    ∃ n s', createTaskSpace m s r = .ok (4096 * n, s') ∧ TaskCreated s s' r n := by
  obtain ⟨a, b, rest, hfree⟩ : ∃ a b rest, s.freeTables = a :: b :: rest := by
    have henough := hsupply.enough
    match hs : s.freeTables with
    | [] => simp [hs] at henough
    | [a] => simp [hs] at henough
    | a :: b :: rest => exact ⟨a, b, rest, rfl⟩
  obtain ⟨n, rfl, hlt⟩ := hok.aligned a (by simp [hfree])
  have hnodup := hok.nodup
  rw [hfree, List.nodup_cons, List.nodup_cons] at hnodup
  obtain ⟨hn, hb, hrest⟩ := hnodup
  have hmem : 4096 * n ∈ s.freeTables := by simp [hfree]
  -- `vmm_init` maps its container once both frames are taken
  obtain ⟨s₁, hs₁⟩ : ∃ s₁ : Vm, s₁ = { s with freeTables := rest } := ⟨_, rfl⟩
  have hfree₁ : s₁.freeTables = rest := by rw [hs₁]
  have hrest₁ : ∀ t ∈ s₁.freeTables, t ∈ s.freeTables := by
    intro t ht
    rw [hfree₁] at ht
    simp [hfree, ht]
  have hok₁ : FreeFrames s₁ := by
    refine ⟨hs₁ ▸ hok.limit, hs₁ ▸ hrest, fun t ht => ?_⟩
    rw [show s₁.memorySizeInBytes = s.memorySizeInBytes by rw [hs₁]]
    exact hok.aligned t (hrest₁ t ht)
  have hentry₁ : s₁.entry = s.entry := by
    rw [hs₁]
    rfl
  have hstale := hsupply.stale (4096 * n) (by rw [hfree]; rfl)
  rw [Nat.mul_div_cancel_left n (by decide), ← hentry₁] at hstale
  obtain ⟨ret, s₂, hmap, hfresh⟩ := mapPhysToVirtAddrHh_fresh (m := m) b
    (vmmFlagsPresent ||| vmmFlagsWriteEnable) hok₁
    (fun h => hn (by rw [hfree₁] at h; simp [h])) hstale
    (by
      have henough := hsupply.enough
      rw [hfree, List.length_cons, List.length_cons] at henough
      rw [hfree₁]
      omega)
  have hsize₂ : s₂.memorySizeInBytes = s.memorySizeInBytes := by rw [hfresh.size, hs₁]
  have hframe₂ : ∀ u, 4096 * u ∉ s.freeTables → ∀ j, s₂.entry u j = s.entry u j := by
    intro u hu j
    have hun : u ≠ n := fun e => hu (e ▸ hmem)
    rw [hfresh.frame u hun (fun h => hu (hrest₁ _ h)) j, hentry₁]
  have hp4 : s₂.entry r = s.entry r := funext (hframe₂ r hr)
  obtain ⟨s', hprep⟩ := prepare_returns (m := m) (s := s₂) (s.entry r) (hsize₂ ▸ hlt)
  obtain ⟨⟨memory, hs'⟩, hentry⟩ := prepare_entry hprep
  have hcreate : createTask m s = .ok (4096 * n, s₂) := by
    unfold createTask vmmInitSpace
    rw [newPagetable_cons hfree]
    dsimp only
    rw [hhdmGetVariable_table (n := n) (by exact hlt), ← hs₁]
    simp only [hmap, ok_bind]
  have hfree' : s'.freeTables <:+ rest := by
    rw [hs', ← hfree₁]
    exact hfresh.supply
  refine ⟨n, s', ?_, hmem, fun h => hn (by simp [hfree'.subset h]), ?_, ?_, ?_, ?_, ?_⟩
  · rw [createTaskSpace, hcreate, ok_bind]
    dsimp only
    rw [hp4, hprep, ok_bind]
  · rw [hs']
    exact hsize₂
  · rw [hs']
    exact hfresh.pointer.trans (by rw [hs₁])
  · rw [hfree]
    exact hfree'.trans ((List.suffix_cons _ _).trans (List.suffix_cons _ _))
  · intro u hu j
    have hun : u ≠ n := fun e => hu (e ▸ hmem)
    rw [hentry, if_neg hun, hframe₂ u hu j]
  · intro i
    rw [hentry, if_pos rfl]

theorem TaskCreated.kernel (h : TaskCreated s s' r n) (hok : RootOk m s r) : RootOk m s' r :=
  hok.same h.size h.supply fun u hu => h.frame u (hok.tables.not_free hu)

/-! ## The tables of the new root -/

/-- Above, the new root leads where the kernel's does; below, nowhere. -/
theorem TaskCreated.descend_eq (h : TaskCreated s s' r n) (hok : RootOk m s r) {i : Fin 512}
    {p : List (Fin 512)} (hp : TablePath 3 (i :: p)) :
    descend hwTable s'.entry n (i :: p) =
      if i.val < 256 then none else descend hwTable s.entry r (i :: p) := by
  have h510 : i.val ≠ 510 := fun e => hp.2 (congrArg some (Fin.ext e))
  have hroot := h.root i
  unfold taskRootEntry at hroot
  by_cases hlow : i.val < 256
  · rw [if_pos (by omega)] at hroot
    rw [if_pos hlow, descend, hroot, hwTable_zero, Option.bind_none]
  · rw [if_neg (by omega), if_neg h510] at hroot
    have hsame : s'.entry r i = s.entry r i :=
      h.frame r (hok.tables.not_free ⟨[], tablePath_nil 3, rfl⟩) i
    have hkernel : descend hwTable s'.entry r (i :: p) =
        descend hwTable s.entry r (i :: p) :=
      descend_same (tablePath_closed 3) (fun u hu => h.frame u (hok.tables.not_free hu)) hp
    rw [if_neg hlow, ← hkernel, descend, descend, hroot, hsame]

theorem TaskCreated.isTable_cases (h : TaskCreated s s' r n) (hok : RootOk m s r) {u : Nat}
    (hu : IsTable hwTable s'.entry n (TablePath 3) u) :
    u = n ∨ IsTable hwTable s.entry r (TablePath 3) u := by
  obtain ⟨p, hp, hu⟩ := hu
  cases p with
  | nil => exact Or.inl (Option.some.inj hu).symm
  | cons i p =>
    rw [h.descend_eq hok hp] at hu
    split_ifs at hu
    exact Or.inr ⟨i :: p, hp, hu⟩

/-- The slots of the new root. -/
theorem TaskCreated.slot_eq (h : TaskCreated s s' r n) (hok : RootOk m s r) {p : List (Fin 512)}
    {i : Fin 512} (hp : p.length ≤ 3) (htop : topOf p i ≠ 510) :
    s'.hwSlot n p i = if (topOf p i).val < 256 then 0 else s.hwSlot r p i := by
  cases p with
  | nil =>
    have h510 : i.val ≠ 510 := fun e => htop (Fin.ext e)
    have hroot : s'.hwSlot n [] i = taskRootEntry (s.entry r) (4096 * n) i := h.root i
    rw [hroot, taskRootEntry]
    show _ = if i.val < 256 then 0 else s.entry r i
    split_ifs <;> first | rfl | omega
  | cons k p =>
    have hP : TablePath 3 (k :: p) := ⟨hp, fun e => htop (Option.some.inj e)⟩
    have hdesc := h.descend_eq hok hP
    show _ = if k.val < 256 then 0 else _
    by_cases hlow : k.val < 256
    · rw [if_pos hlow] at hdesc ⊢
      exact slot_of_none hdesc
    · rw [if_neg hlow] at hdesc ⊢
      cases hu : descend hwTable s.entry r (k :: p) with
      | none => rw [Vm.hwSlot, Vm.hwSlot, slot_of_none hu, slot_of_none (hdesc.trans hu)]
      | some u =>
        rw [Vm.hwSlot, Vm.hwSlot, slot_of_descend hu, slot_of_descend (hdesc.trans hu),
          h.frame u (hok.tables.not_free ⟨_, hP, hu⟩)]

/-- **The new root is in order.** -/
theorem TaskCreated.task (h : TaskCreated s s' r n) (hok : RootOk m s r) : RootOk m s' n := by
  obtain ⟨n', hn', hlt, hnew⟩ := hok.tables.fresh _ h.taken
  obtain rfl : n = n' := by omega
  have hself : s'.entry n 510 = linkValue (4096 * n) 0 := by
    rw [h.root, taskRootEntry, if_neg (by decide), if_pos (by decide), linkValue, Nat.or_zero,
      Nat.or_assoc, Nat.or_assoc]
    rfl
  have hpaths := (region_tablePath m).paths
  refine ⟨⟨?_, hok.tables.nodup.sublist h.supply.sublist, fun t ht => ?_⟩,
    ⟨fun p hp q t hq ht ht' => ?_, fun p i hp hpresent => ?_⟩, ⟨?_, fun u hu => ?_, fun t ht => ?_⟩⟩
  · exact ⟨hself ▸ hwTable_linkValue (Or.inl rfl) hlt, hself ▸ isWritable_linkValue _ _⟩
  · obtain ⟨k, rfl, hk, hfresh⟩ := hok.tables.fresh t (h.supply.subset ht)
    refine ⟨k, rfl, hk, fun hu => ?_⟩
    rcases h.isTable_cases hok hu with rfl | hold
    · exact h.gone ht
    · exact hfresh hold
  · -- the root is none of the kernel's tables, which are apart
    cases p with
    | nil =>
      cases q with
      | nil => rfl
      | cons j q =>
        cases ht
        rw [h.descend_eq hok hq] at ht'
        split_ifs at ht'
        exact absurd ⟨j :: q, hq, ht'⟩ hnew
    | cons i p =>
      have hP := hpaths _ hp
      rw [h.descend_eq hok hP] at ht
      split_ifs at ht
      cases q with
      | nil =>
        cases ht'
        exact absurd ⟨i :: p, hP, ht⟩ hnew
      | cons j q =>
        rw [h.descend_eq hok hq] at ht'
        split_ifs at ht'
        exact hok.owned.sole (i :: p) hp (j :: q) t hq ht ht'
  · have htop : topOf p i ≠ 510 := by
      intro e
      refine hp.2 ?_
      cases p with
      | nil => exact congrArg some e
      | cons k p => exact congrArg some e
    rw [h.slot_eq hok (hpaths p (tablePath_closed _ p i hp)).1 htop] at hpresent ⊢
    by_cases hlow : (topOf p i).val < 256
    · rw [if_pos hlow] at hpresent
      exact absurd hpresent (by decide)
    · rw [if_neg hlow] at hpresent ⊢
      exact hok.owned.links p i hp hpresent
  · rw [h.size]
    exact hok.below.limit
  · rw [h.size]
    rcases h.isTable_cases hok hu with rfl | hold
    · exact hok.below.supply _ h.taken
    · exact hok.below.tables u hold
  · rw [h.size]
    exact hok.below.supply t (h.supply.subset ht)

end Task

end Dreamos64
