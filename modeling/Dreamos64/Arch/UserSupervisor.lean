import Dreamos64.Arch.PageMap

/-!
# Dreamos64 — user pages and kernel pages

The processor lets user code touch a page when the user bit is set in every
entry of its walk. `map_phys_to_virt_addr_hh` never looks at the user bits of
the tables it reuses, so separation of the two halves is an invariant of the
whole tree (`Separated`):

* no entry of the upper half of the root has the user bit;
* every present entry under the lower half of the root has it, at every level.

`prepare_virtual_memory_environment` establishes it, every mapping keeps it, and
`user_supervisor_separation` reads off what user code can reach. Mappings inside
the recursive slot 510, and a memory manager that has run out of frames, break it
(`user_page_unreachable`).
-/

namespace Dreamos64

open Machine TableTree

/-! ## The two halves -/

/-- Bits 48 to 63 repeat bit 47. -/
def Canonical (va : Nat) : Prop := va < 2 ^ 47 ∨ 2 ^ 64 - 2 ^ 47 ≤ va ∧ va < 2 ^ 64

def LowerHalf (va : Nat) : Prop := va < 2 ^ 47

theorem higherHalf_iff {va : Nat} (hva : Canonical va) :
    isAddressHigherHalf va = true ↔ ¬ LowerHalf va := by
  rw [isAddressHigherHalf, Nat.testBit_eq_decide_div_mod_eq, decide_eq_true_iff, LowerHalf]
  unfold Canonical at hva
  omega

theorem pml4Entry_lt {va : Nat} (hva : Canonical va) : (pml4Entry va).val < 256 ↔ LowerHalf va := by
  rw [LowerHalf, show (pml4Entry va).val = va >>> 39 % 512 from rfl, Nat.shiftRight_eq_div_pow]
  unfold Canonical at hva
  omega

theorem lowerHalf_pml4Entry_ne {va : Nat} (hva : LowerHalf va) : pml4Entry va ≠ 510 := by
  intro h
  have hlt := (pml4Entry_lt (Or.inl hva)).2 hva
  rw [h] at hlt
  exact absurd hlt (by decide)

/-! ## What user code can reach -/

/-- The user bit (`VMM_FLAGS_USER_LEVEL`) of a present entry. -/
def grantsUser (value : Nat) : Bool := decide (value % 2 = 1) && value.testBit 2

/-- The processor's rule for a 2 MiB page: the user bit at all three levels. -/
def userAccessible (s : Vm) (va : Nat) (root : Option Nat) : Exec Bool := do
  let pml4Value ← load .large s root (pml4Entry va)
  if !grantsUser pml4Value then .ok false
  else
    let pdprTable := hhdmGetVariable .large s (pml4Value &&& vmPageTableBaseAddressMask)
    let pdprValue ← load .large s pdprTable (pdprEntry va)
    if !grantsUser pdprValue then .ok false
    else
      let pdTable := hhdmGetVariable .large s (pdprValue &&& vmPageTableBaseAddressMask)
      let pdValue ← load .large s pdTable (pdEntry va)
      .ok (grantsUser pdValue)

/-- A call of `map_phys_to_virt_addr_hh`. -/
structure MapRequest where
  pa    : Nat
  va    : Nat
  flags : Nat

/-- A mapping of a canonical address outside the recursive slot, with any flags
that contain PRESENT, while the memory manager has frames for new tables. -/
def userMapStep (r : Nat) (s : Vm) (c : MapRequest) (t : Vm) : Prop :=
  Canonical c.va ∧ pml4Entry c.va ≠ 510 ∧ c.flags &&& vmmFlagsPresent = vmmFlagsPresent ∧
    Supplied s r c.va ∧
    ∃ ret, mapPhysToVirtAddrHh .large s c.pa c.va c.flags (tablePtr .large r) = .ok (ret, t)

/-! ## The invariant -/

/-- The root entry that a slot lies under. -/
def topOf : List (Fin 512) → Fin 512 → Fin 512
  | [], i => i
  | a :: _, _ => a

structure Separated (s : Vm) (r : Nat) : Prop where
  kernel : ∀ i : Fin 512, 256 ≤ i.val → (s.slot r [] i).testBit 2 = false
  user   : ∀ q j, TablePath 2 q → (topOf q j).val < 256 → s.slot r q j % 2 = 1 →
    (s.slot r q j).testBit 2 = true

section

variable {s s' : Vm} {r pa va flags : Nat}

/-- The address of a table has no flag bits. -/
theorem testBit_table {table : Nat} (h : 4096 ∣ table) : table.testBit 2 = false := by
  obtain ⟨k, rfl⟩ := h
  rw [show 4096 * k = k * 2 ^ 12 by omega, Nat.testBit_mul_two_pow]
  rfl

theorem testBit_linkValue {newTable user : Nat} (h : 4096 ∣ newTable) :
    (linkValue newTable user).testBit 2 = user.testBit 2 := by
  simp only [linkValue, Nat.testBit_or, testBit_table h, Bool.false_or]
  rw [show writeBit.testBit 2 = false from rfl, show presentBit.testBit 2 = false from rfl,
    Bool.or_false, Bool.or_false]

theorem testBit_userModeStatus (va : Nat) :
    (userModeStatus va).testBit 2 = !isAddressHigherHalf va := by
  unfold userModeStatus
  cases isAddressHigherHalf va <;> rfl

/-- A page of the lower half gets the user bit whatever the flags are. -/
theorem testBit_leafValue (h : isAddressHigherHalf va = false) :
    (leafValue pa va flags).testBit 2 = true := by
  rw [leafValue, Nat.testBit_or, testBit_userModeStatus, h]
  exact Bool.or_true _

/-- Slots on the way to a lower-half page have the user bit after they were
filled, and slots on the way to a higher-half page do not get it. -/
theorem Filled.testBit {before after : Nat} (h : Filled va before after) :
    after = before ∨ after.testBit 2 = !isAddressHigherHalf va := by
  rcases h with ⟨-, heq⟩ | ⟨-, newTable, hdvd, rfl⟩
  · exact Or.inl heq
  · exact Or.inr ((testBit_linkValue hdvd).trans (testBit_userModeStatus va))

/-- **Every mapping keeps the halves apart.** -/
theorem Mapped.separated (h : Mapped s s' r pa va flags) (hcanon : Canonical va)
    (hsep : Separated s r) : Separated s' r := by
  have hhigher := higherHalf_iff hcanon
  have hindex := pml4Entry_lt hcanon
  constructor
  · intro i hi
    by_cases hsame : i = pml4Entry va
    · -- the root entry of a higher-half page: never linked with the user bit
      subst hsame
      have hbit : isAddressHigherHalf va = true := hhigher.2 fun hlow => by
        have := hindex.2 hlow
        omega
      rcases h.pml4.testBit with heq | hnew
      · rw [show s'.slot r [] (pml4Entry va) = s.slot r [] (pml4Entry va) from heq]
        exact hsep.kernel _ hi
      · rw [hbit] at hnew
        exact hnew
    · rw [h.other [] i (tablePath_nil 2) (by simp [hsame]) (by simp) (by simp)]
      exact hsep.kernel i hi
  · intro q j hq htop hpresent
    -- a slot on the way to the page was kept or got the user bit
    have hway {q : List (Fin 512)} {j : Fin 512} (hq : TablePath 2 q)
        (htop : (topOf q j).val < 256) (hlower : isAddressHigherHalf va = false)
        (hf : Filled va (s.slot r q j) (s'.slot r q j)) (hpresent : s'.slot r q j % 2 = 1) :
        (s'.slot r q j).testBit 2 = true := by
      rcases hf.testBit with heq | hnew
      · rw [heq] at hpresent ⊢
        exact hsep.user q j hq htop hpresent
      · rw [hnew, hlower]
        rfl
    have hlower (h : (pml4Entry va).val < 256) : isAddressHigherHalf va = false := by
      rw [← Bool.not_eq_true, hhigher, not_not]
      exact hindex.1 h
    by_cases hpml4 : q = [] ∧ j = pml4Entry va
    · obtain ⟨rfl, rfl⟩ := hpml4
      exact hway hq htop (hlower htop) h.pml4 hpresent
    by_cases hpdpr : q = [pml4Entry va] ∧ j = pdprEntry va
    · obtain ⟨rfl, rfl⟩ := hpdpr
      exact hway hq htop (hlower htop) h.pdpr hpresent
    by_cases hpd : q = [pml4Entry va, pdprEntry va] ∧ j = pdEntry va
    · obtain ⟨rfl, rfl⟩ := hpd
      rw [show s'.slot r _ _ = leafValue pa va flags from h.leaf]
      exact testBit_leafValue (hlower htop)
    rw [h.other q j hq hpml4 hpdpr hpd] at hpresent ⊢
    exact hsep.user q j hq htop hpresent

/-- `prepare_virtual_memory_environment` writes the root and nothing else. -/
theorem prepare_entry {m : PageMode} {s₀ s₁ : Vm} {p4Table : Fin 512 → Nat}
    (hprep : prepareVirtualMemoryEnvironment m s₀ p4Table (4096 * r) = .ok s₁) :
    (∃ memory, s₁ = { s₀ with memory := memory }) ∧
    ∀ u i, s₁.entry u i = if u = r then taskRootEntry p4Table (4096 * r) i else s₀.entry u i := by
  by_cases hlt : 4096 * r < s₀.memorySizeInBytes
  · simp only [prepareVirtualMemoryEnvironment, hhdmGetVariable_table hlt] at hprep
    obtain ⟨memory, hrun, hentry⟩ := foldlM_store (m := m) (n := r)
      (taskRootEntry p4Table (4096 * r)) (List.finRange vmPagesPerTable) s₀
    cases hrun.symm.trans hprep
    refine ⟨⟨memory, rfl⟩, fun u i => ?_⟩
    rw [hentry]
    simp only [List.mem_finRange, and_true]
  · -- a root outside physical memory has no pointer to write through
    have hnull : hhdmGetVariable m s₀ (4096 * r) = none := if_neg hlt
    simp only [prepareVirtualMemoryEnvironment, hnull] at hprep
    rw [show List.finRange vmPagesPerTable = 0 :: (List.finRange 511).map Fin.succ from
      List.finRange_succ, List.foldlM_cons] at hprep
    obtain ⟨_, hstore, -⟩ := bind_inv hprep
    simp [store, wordAt] at hstore

/-- A task's fresh root has the halves apart. -/
theorem prepare_separated {s₀ s₁ : Vm} {p4Table : Fin 512 → Nat}
    (hprep : prepareVirtualMemoryEnvironment .large s₀ p4Table (4096 * r) = .ok s₁)
    (hkernel : ∀ i : Fin 512, 256 ≤ i.val → (p4Table i).testBit 2 = false) : Separated s₁ r := by
  have hzero {i : Fin 512} (hi : i.val < 256) : s₁.entry r i = 0 := by
    rw [(prepare_entry hprep).2, if_pos rfl, taskRootEntry, if_pos (by omega)]
  constructor
  · intro i hi
    rw [show s₁.slot r [] i = s₁.entry r i from rfl, (prepare_entry hprep).2, if_pos rfl,
      taskRootEntry, if_neg (by omega)]
    split_ifs with h510
    · rw [Nat.testBit_or, Nat.testBit_or, testBit_table ⟨r, rfl⟩]
      rfl
    · exact hkernel i hi
  · intro q j hq htop hpresent
    -- the lower half is empty
    have hslot : s₁.slot r q j = 0 := by
      cases q with
      | nil => exact hzero htop
      | cons a q =>
        refine slot_of_none ?_
        rw [descend, hzero (show a.val < 256 from htop)]
        rfl
    rw [hslot] at hpresent
    exact absurd hpresent (by decide)

/-! ## What user code reaches -/

theorem grantsUser_of {v : Nat} (hpresent : v % 2 = 1) (hbit : v.testBit 2 = true) :
    grantsUser v = true := by
  rw [grantsUser, hbit, decide_eq_true hpresent]
  rfl

/-- No page of the upper half is open to user code, in slot 510 or elsewhere. -/
theorem Separated.higher (hsep : Separated s r) (hva : 256 ≤ (pml4Entry va).val) :
    userAccessible s va (tablePtr .large r) = .ok false := by
  have hdenied : grantsUser (s.pml4Slot r va) = false := by
    rw [grantsUser, show (s.pml4Slot r va).testBit 2 = false from hsep.kernel _ hva, Bool.and_false]
  rw [userAccessible, load_tablePtr, ok_bind, entry_root, hdenied]
  rfl

/-- Every mapped page of the lower half is. -/
theorem Separated.lower (hsep : Separated s r) (hok : TreeOk 2 s r) (hva : LowerHalf va)
    (hpresent : s.pdSlot r va % 2 = 1) :
    userAccessible s va (tablePtr .large r) = .ok true := by
  have h510 := lowerHalf_pml4Entry_ne hva
  have htop : (pml4Entry va).val < 256 := (pml4Entry_lt (Or.inl hva)).2 hva
  obtain ⟨hpdpr, hpml4⟩ := pdSlot_present hpresent
  have hgrant₄ := grantsUser_of hpml4 (hsep.user [] _ (tablePath_nil 2) htop hpml4)
  have hgrant₃ := grantsUser_of hpdpr (hsep.user _ _ (tablePath_one h510) htop hpdpr)
  have hgrant₂ := grantsUser_of hpresent (hsep.user _ _ (tablePath_two h510 _) htop hpresent)
  obtain ⟨pdpr, hptr₃, hentry₃, hnext⟩ := follow_two hok h510 hpml4
  obtain ⟨pd, hptr₂, hentry₂, -⟩ := hnext hpdpr
  simp only [userAccessible, load_tablePtr, ok_bind, entry_root, hptr₃, hentry₃, hptr₂, hentry₂,
    show grantsUser (s.pml4Slot r va) = true from hgrant₄,
    show grantsUser (s.pdprSlot r va) = true from hgrant₃,
    show grantsUser (s.pdSlot r va) = true from hgrant₂, Bool.not_true, Bool.false_eq_true,
    if_false]

end

/-- Along a run of mappings the tree stays in order and the halves stay apart. -/
theorem userMapRun_separated {r : Nat} {s₁ s : Vm} {requests : List MapRequest}
    (hsep : Separated s₁ r) (hok : TreeOk 2 s₁ r) (hrun : Run (userMapStep r) s₁ requests s) :
    Separated s r ∧ TreeOk 2 s r := by
  refine hrun.inv (fun s => Separated s r ∧ TreeOk 2 s r) ⟨hsep, hok⟩ ?_
  rintro t u c ⟨hsep, hok⟩ ⟨hcanon, h510, -, hsupply, ret, hexec⟩
  rcases mapPhysToVirtAddrHh_spec c.pa c.flags hok h510 (hsupply _ (vmWalkTable_eq hok h510)) with
    ⟨-, hrefused⟩ | ⟨u', hmap, hok', hmapped⟩
  · cases hexec.symm.trans hrefused
    exact ⟨hsep, hok⟩
  · cases hexec.symm.trans hmap
    exact ⟨hmapped.separated hcanon hsep, hok'⟩

/-- **User/supervisor separation.** From a root that
`prepare_virtual_memory_environment` prepared, with kernel entries that lack the
user bit, after every run of mappings a mapped page is open to user code exactly
when its address is in the lower half. -/
theorem user_supervisor_separation {r : Nat} {s₀ s₁ s : Vm} {p4Table : Fin 512 → Nat}
    {requests : List MapRequest}
    (hprep : prepareVirtualMemoryEnvironment .large s₀ p4Table (4096 * r) = .ok s₁)
    (hkernel : ∀ i : Fin 512, 256 ≤ i.val → (p4Table i).testBit 2 = false)
    (hok : TreeOk 2 s₁ r) (hrun : Run (userMapStep r) s₁ requests s) {va : Nat}
    (hva : Canonical va) {w : VmWalkResults}
    (hw : vmWalkTable .large s va (tablePtr .large r) = .ok w) (hcompleted : w.completed = true) :
    ∃ accessible, userAccessible s va (tablePtr .large r) = .ok accessible ∧
      (accessible = true ↔ LowerHalf va) := by
  obtain ⟨hsep, hok⟩ := userMapRun_separated (prepare_separated hprep hkernel) hok hrun
  by_cases hlow : LowerHalf va
  · have hpresent : s.pdSlot r va % 2 = 1 := by
      by_contra habsent
      cases hw.symm.trans (vmWalkTable_eq hok (lowerHalf_pml4Entry_ne hlow))
      rw [(walkOf_absent (by omega)).1] at hcompleted
      exact absurd hcompleted (by decide)
    exact ⟨true, hsep.lower hok hlow hpresent, by simp [hlow]⟩
  · have hindex := pml4Entry_lt hva
    exact ⟨false, hsep.higher (Nat.le_of_not_lt fun h => hlow (hindex.1 h)), by simp [hlow]⟩

/-! ## A task in an empty memory -/

/-- A task root in frame 1 of `emptySpace`, with no kernel entries. -/
def emptyTask : Exec Vm := prepareVirtualMemoryEnvironment .large emptySpace (fun _ => 0) (4096 * 1)

theorem emptyTask_treeOk {s₁ : Vm} (h : emptyTask = .ok s₁) : TreeOk 2 s₁ 1 := by
  obtain ⟨⟨memory, rfl⟩, hentry⟩ := prepare_entry h
  refine treeOk_of_bare (fun p t hp ht => ?_) emptySpace_frames
  cases p with
  | nil => exact ⟨rfl, (Option.some.inj ht).symm⟩
  | cons i p =>
    -- outside slot 510 the new root leads nowhere
    have hroot : taskRootEntry (fun _ => 0) (4096 * 1) i = 0 := by
      have h510 : i.val ≠ 510 := fun h => hp.2 (congrArg some (Fin.ext h))
      rw [taskRootEntry, if_neg h510]
      exact ite_self 0
    rw [descend, hentry, if_pos rfl, hroot] at ht
    cases ht

/-- A user page and a kernel page that was asked for with the user flag. -/
theorem user_supervisor_separation_emptyTask :
    ∃ s₁ s, emptyTask = .ok s₁ ∧
      Run (userMapStep 1) s₁
        [⟨0x200000, 0x40000000, 1⟩, ⟨0x400000, 0xFFFF800000000000, 5⟩] s ∧
      userAccessible s 0x40000000 (tablePtr .large 1) = .ok true ∧
      userAccessible s 0xFFFF800000000000 (tablePtr .large 1) = .ok false := by
  obtain ⟨s₁, htask, hfree₁, ret, s₂, hmap₁, hfree₂, ret', s, hmap₂, ⟨w, hw, hc⟩, w', hw', hc'⟩ :
      ∃ s₁, emptyTask = .ok s₁ ∧ s₁.freeTables.length = 4 ∧
      ∃ ret s₂, mapPhysToVirtAddrHh .large s₁ 0x200000 0x40000000 1 (tablePtr .large 1) =
        .ok (ret, s₂) ∧ s₂.freeTables.length = 2 ∧
      ∃ ret' s, mapPhysToVirtAddrHh .large s₂ 0x400000 0xFFFF800000000000 5 (tablePtr .large 1) =
        .ok (ret', s) ∧
      (∃ w, vmWalkTable .large s 0x40000000 (tablePtr .large 1) = .ok w ∧ w.completed = true) ∧
      ∃ w, vmWalkTable .large s 0xFFFF800000000000 (tablePtr .large 1) = .ok w ∧
        w.completed = true := by decide +kernel
  have hlow : Canonical 0x40000000 := Or.inl (by decide)
  have hhigh : Canonical 0xFFFF800000000000 := Or.inr (by decide)
  have hrun : Run (userMapStep 1) s₁
      [⟨0x200000, 0x40000000, 1⟩, ⟨0x400000, 0xFFFF800000000000, 5⟩] s :=
    Run.extend (Run.extend Run.start
      ⟨hlow, by decide, by decide, fun _ _ => by omega, ret, hmap₁⟩)
      ⟨hhigh, by decide, by decide, fun _ _ => by omega, ret', hmap₂⟩
  obtain ⟨b, hb, hiff⟩ := user_supervisor_separation htask (fun _ _ => rfl)
    (emptyTask_treeOk htask) hrun hlow hw hc
  obtain ⟨b', hb', hiff'⟩ := user_supervisor_separation htask (fun _ _ => rfl)
    (emptyTask_treeOk htask) hrun hhigh hw' hc'
  have hb₁ : b = true := hiff.2 (by unfold LowerHalf; decide)
  have hb₂ : b' = false := by
    rw [← Bool.not_eq_true, hiff']
    unfold LowerHalf
    decide
  exact ⟨s₁, s, htask, hrun, hb₁ ▸ hb, hb₂ ▸ hb'⟩

/-- Mappings one after the other, whatever the addresses and the supply. -/
def mapAll (r : Nat) (s : Vm) (requests : List MapRequest) : Exec Vm :=
  requests.foldlM (fun s c => do
    let (_, s) ← mapPhysToVirtAddrHh .large s c.pa c.va c.flags (tablePtr .large r)
    .ok s) s

/-- A page that a run maps and that user code cannot reach, from the run itself. -/
theorem unreachable_of_run {task : Exec Vm} {requests : List MapRequest} {va : Nat}
    (h : ∃ s₁, task = .ok s₁ ∧ ∃ s, mapAll 1 s₁ requests = .ok s ∧
      ∃ w, vmWalkTable .large s va (tablePtr .large 1) = .ok w ∧ w.completed = true ∧
        userAccessible s va (tablePtr .large 1) = .ok false) :
    ∃ s₁ s w, task = .ok s₁ ∧ mapAll 1 s₁ requests = .ok s ∧
      vmWalkTable .large s va (tablePtr .large 1) = .ok w ∧ w.completed = true ∧
      userAccessible s va (tablePtr .large 1) = .ok false := by
  obtain ⟨s₁, htask, s, hmaps, w, hw⟩ := h
  exact ⟨s₁, s, w, htask, hmaps, hw⟩

/-- **The user bit is lost** when a call maps into the recursive slot, and when
the memory manager is out of frames.

Slot 510 makes the root its own table: mapping `0xFFFFFF0000000000` fills entry 0
of the root without the user bit, and the user page `0x40000000` is then mapped
under it. Without frames every new table is the frame at address 0, which the
tables of both halves then share: the entry written for the kernel page
`0xFFFF800000200000` is an entry of the walk of `0x40200000`. -/
theorem user_page_unreachable :
    (Canonical 0xFFFFFF0000000000 ∧ LowerHalf 0x40000000 ∧
      ∃ s₁ s w, emptyTask = .ok s₁ ∧
        mapAll 1 s₁ [⟨0x200000, 0xFFFFFF0000000000, 1⟩, ⟨0x400000, 0x40000000, 1⟩] = .ok s ∧
        vmWalkTable .large s 0x40000000 (tablePtr .large 1) = .ok w ∧ w.completed = true ∧
        userAccessible s 0x40000000 (tablePtr .large 1) = .ok false) ∧
    (Canonical 0xFFFF800000200000 ∧ LowerHalf 0x40200000 ∧
      ∃ s₁ s w, prepareVirtualMemoryEnvironment .large { emptySpace with freeTables := [] }
          (fun _ => 0) (4096 * 1) = .ok s₁ ∧
        mapAll 1 s₁ [⟨0x200000, 0x40200000, 1⟩, ⟨0, 0xFFFF800000200000, 1⟩] = .ok s ∧
        vmWalkTable .large s 0x40200000 (tablePtr .large 1) = .ok w ∧ w.completed = true ∧
        userAccessible s 0x40200000 (tablePtr .large 1) = .ok false) := by
  have hlow : LowerHalf 0x40000000 := by
    unfold LowerHalf
    decide
  have hlow' : LowerHalf 0x40200000 := by
    unfold LowerHalf
    decide
  exact ⟨⟨Or.inr (by decide), hlow, unreachable_of_run (by decide +kernel)⟩,
    Or.inr (by decide), hlow', unreachable_of_run (by decide +kernel)⟩

end Dreamos64
