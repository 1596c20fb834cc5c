import Dreamos64.Lib.Run
import Dreamos64.Arch.PageTree

/-!
# Dreamos64 — page tables implement a partial map (2 MiB pages)

The abstract view of one address space is a partial map from pages to the
pointers that `vm_walk_table` gives for them. A mapping call adds a page that is
not there, an unmapping call removes one (`MapCall.replay`), and neither does
anything to the others.

* `mapCall_refines` — every permitted call returns, keeps the tree in order and
  does to the walks what `MapCall.replay` does to the map;
* `page_tables_partial_map` — so every walk after a run of calls is what the
  history of calls says.

`level` is the one part of a walk that a call for another page can change: it
counts tables, and a mapping adds tables (`walk_level_changes`).
-/

namespace Dreamos64

open Machine TableTree

/-! ## Calls -/

/-- The three indices that name a 2 MiB page. -/
def pageOf (va : Nat) : Fin 512 × Fin 512 × Fin 512 := (pml4Entry va, pdprEntry va, pdEntry va)

inductive MapCall where
  | map (pa va flags : Nat)
  | unmap (va : Nat)
  deriving DecidableEq, Repr

def MapCall.address : MapCall → Nat
  | .map _ va _ => va
  | .unmap va => va

/-- One call on the root in frame `r`: what it returns, and the memory after. -/
def MapCall.exec (r : Nat) (s : Vm) : MapCall → Exec (Int × Vm)
  | .map pa va flags => do
    let (address, s) ← mapPhysToVirtAddrHh .large s pa va flags (tablePtr .large r)
    .ok (address, s)
  | .unmap va => unmapVaddressHh .large s va (tablePtr .large r)

/-- `pmm_prepare_new_pagetable` has a frame for every table that mapping `va`
creates: two, less the tables that a walk finds. -/
def Supplied (s : Vm) (r va : Nat) : Prop :=
  ∀ w, vmWalkTable .large s va (tablePtr .large r) = .ok w → 2 ≤ w.level + s.freeTables.length

/-- The calls considered. -/
def MapCall.Permitted (r : Nat) (s : Vm) : MapCall → Prop
  | .map pa va flags => pml4Entry va ≠ 510 ∧ 0x200000 ∣ pa ∧ pa < s.memorySizeInBytes ∧
      flags ||| vmmFlagsAll = vmmFlagsAll ∧ flags &&& vmmFlagsPresent = vmmFlagsPresent ∧
      Supplied s r va
  | .unmap va => pml4Entry va ≠ 510 ∧ va ≠ 0

def mapStep (r : Nat) (s : Vm) (call : MapCall) (t : Vm) : Prop :=
  call.Permitted r s ∧ ∃ ret, call.exec r s = .ok (ret, t)

/-! ## The abstract map -/

/-- What an address space says about an address: the pointer a walk returns, if
it completes. -/
def mappingOf (s : Vm) (r va : Nat) : Option (Option Nat) := do
  let w ← (vmWalkTable .large s va (tablePtr .large r)).toOption
  if w.completed then some w.pte else none

/-- What a call does to the map: a page that is mapped stays as it is. -/
def MapCall.replay (M : Nat → Option (Option Nat)) (call : MapCall) (va : Nat) :
    Option (Option Nat) :=
  if pageOf va = pageOf call.address then
    match call with
    | .map pa _ _ => (M va).or (some (some (pa + higherHalfDirectMapBase .large)))
    | .unmap _ => none
  else M va

/-- A call looks at its own address only. -/
theorem replay_congr {M M' : Nat → Option (Option Nat)} {va : Nat} (call : MapCall)
    (h : M va = M' va) : call.replay M va = call.replay M' va := by
  simp only [MapCall.replay, h]

/-- What a call leaves of the walk of another page. -/
def Unaffected : MapCall → VmWalkResults → VmWalkResults → Prop
  | .map .., w, w' => w'.completed = w.completed ∧ w'.pte = w.pte ∧ w.level ≤ w'.level ∧
      (w.completed = true → w' = w)
  | .unmap _, w, w' => w' = w

section

variable {s s' : Vm} {r pa va va' flags : Nat}

/-! ## Walks and slots -/

theorem walkOf_present (h : s.pdSlot r va % 2 = 1) : walkOf s r va =
    ⟨2, hhdmGetVariable .large s (s.pdSlot r va &&& vmPageTableBaseAddressMask), true⟩ := by
  obtain ⟨hpdpr, hpml4⟩ := pdSlot_present h
  rw [walkOf, if_neg (by omega), if_neg (by omega), if_neg (by omega)]

theorem walkOf_absent (h : s.pdSlot r va % 2 = 0) :
    (walkOf s r va).completed = false ∧ (walkOf s r va).pte = none := by
  unfold walkOf
  split_ifs
  all_goals exact ⟨rfl, rfl⟩

theorem mappingOf_eq (hok : TreeOk 2 s r) (hva : pml4Entry va ≠ 510) :
    mappingOf s r va = if s.pdSlot r va % 2 = 1 then
      some (hhdmGetVariable .large s (s.pdSlot r va &&& vmPageTableBaseAddressMask)) else none := by
  have hwalk : mappingOf s r va =
      if (walkOf s r va).completed then some (walkOf s r va).pte else none := by
    rw [mappingOf, vmWalkTable_eq hok hva]
    rfl
  rw [hwalk]
  by_cases h : s.pdSlot r va % 2 = 1
  · rw [walkOf_present h, if_pos h, if_pos rfl]
  · rw [(walkOf_absent (by omega)).1, if_neg h, if_neg (by simp)]

/-- The walk and the map say the same. -/
theorem walkOf_mappingOf (hok : TreeOk 2 s r) (hva : pml4Entry va ≠ 510) :
    ((walkOf s r va).completed = true ↔ (mappingOf s r va).isSome) ∧
    ((walkOf s r va).completed = true → mappingOf s r va = some (walkOf s r va).pte) := by
  rw [mappingOf_eq hok hva]
  by_cases h : s.pdSlot r va % 2 = 1
  · rw [walkOf_present h, if_pos h]
    simp
  · rw [(walkOf_absent (by omega)).1, if_neg h]
    simp

/-- Addresses of one page have the same slot. -/
theorem pdSlot_congr (h : pageOf va' = pageOf va) : s.pdSlot r va' = s.pdSlot r va := by
  simp only [pageOf, Prod.mk.injEq] at h
  rw [Vm.pdSlot, Vm.pdSlot, h.1, h.2.1, h.2.2]

theorem pdSlot_ne (h : pageOf va' ≠ pageOf va) :
    ¬ ([pml4Entry va', pdprEntry va'] = [pml4Entry va, pdprEntry va] ∧
      pdEntry va' = pdEntry va) := by
  rintro ⟨hpath, hpd⟩
  simp only [List.cons.injEq, and_true] at hpath
  exact h (by rw [pageOf, pageOf, hpath.1, hpath.2, hpd])

/-! ## The entry written -/

/-- The entry of a mapping is present and leads to the frame. -/
theorem leafValue_frame (va : Nat) (hpa : 0x200000 ∣ pa) (hlt : pa < 2 ^ 40)
    (hflags : flags ||| vmmFlagsAll = vmmFlagsAll)
    (hpresent : flags &&& vmmFlagsPresent = vmmFlagsPresent) :
    leafValue pa va flags % 2 = 1 ∧
    leafValue pa va flags &&& vmPageTableBaseAddressMask = pa := by
  obtain ⟨k, rfl⟩ := hpa
  obtain ⟨low, hlow⟩ : ∃ low, low = hugepageBit |||
      (if isAddressHigherHalf va then flags else flags ||| vmmFlagsUserLevel) |||
        userModeStatus va := ⟨_, rfl⟩
  have hflags4096 : flags < 4096 := by
    have hle : flags ≤ flags ||| vmmFlagsAll := Nat.left_le_or
    rw [hflags] at hle
    exact Nat.lt_of_le_of_lt hle (by decide)
  have hlow4096 : low < 2 ^ 12 := by
    rw [hlow]
    refine or_lt_4096 (or_lt_4096 (by decide) ?_) (userModeStatus_lt va)
    split
    · exact hflags4096
    · exact or_lt_4096 hflags4096 (by decide)
  -- the frame's bits and the flags do not overlap
  have hsum : leafValue (0x200000 * k) va flags = 4096 * (512 * k) + low := by
    rw [show 0x200000 * k = 2 ^ 12 * (512 * k) by omega]
    rw [leafValue, Nat.or_assoc, Nat.or_assoc, ← Nat.or_assoc hugepageBit, ← hlow]
    exact or_low (512 * k) 12 low hlow4096
  have hodd : low % 2 = 1 := by
    have hbit : flags.testBit 0 = true := by
      rw [show vmmFlagsPresent = 1 from rfl, Nat.and_one_is_mod] at hpresent
      simpa [Nat.testBit_zero] using hpresent
    have hlowbit : low.testBit 0 = true := by
      rw [hlow, Nat.testBit_or, Nat.testBit_or]
      split
      · rw [hbit, Bool.or_true, Bool.true_or]
      · rw [Nat.testBit_or, hbit, Bool.true_or, Bool.or_true, Bool.true_or]
    simpa [Nat.testBit_zero] using hlowbit
  rw [hsum, and_mask]
  omega

/-! ## One call -/

/-- A mapping changes the map at its page only. -/
theorem Mapped.replay (h : Mapped s s' r pa va flags) (hok : TreeOk 2 s r) (hok' : TreeOk 2 s' r)
    (hperm : (MapCall.map pa va flags).Permitted r s) (hva' : pml4Entry va' ≠ 510) :
    mappingOf s' r va' = (MapCall.map pa va flags).replay (mappingOf s r) va' := by
  obtain ⟨hva, hpa, hlt, hflags, hpresent, -⟩ := hperm
  rw [MapCall.replay, mappingOf_eq hok hva', mappingOf_eq hok' hva']
  by_cases hpage : pageOf va' = pageOf va
  · rw [if_pos (show pageOf va' = pageOf (MapCall.map pa va flags).address from hpage),
      pdSlot_congr hpage, pdSlot_congr hpage, h.leaf]
    obtain ⟨hodd, hframe⟩ := leafValue_frame va hpa (by have := hok.limit; omega) hflags
      hpresent
    have habsent := h.absent
    rw [if_pos hodd, hframe, if_neg (by omega), hhdmGetVariable, h.size, if_pos hlt]
    rfl
  · rw [if_neg (show ¬ pageOf va' = pageOf (MapCall.map pa va flags).address from hpage)]
    have hslot : s'.pdSlot r va' = s.pdSlot r va' :=
      h.other _ _ (tablePath_two hva' _) (by simp) (by simp) (pdSlot_ne hpage)
    rw [hslot, hhdmGetVariable, hhdmGetVariable, h.size]

/-- Tables are only added. -/
theorem Mapped.level_le (h : Mapped s s' r pa va flags) (hva' : pml4Entry va' ≠ 510) :
    (walkOf s r va').level ≤ (walkOf s' r va').level := by
  have hfilled {before after : Nat} (hf : Filled va before after) (hb : ¬ before % 2 = 0) :
      ¬ after % 2 = 0 := by
    rcases hf with ⟨-, rfl⟩ | ⟨hzero, -⟩
    · exact hb
    · exact absurd hzero hb
  have hpml4 : ¬ s.pml4Slot r va' % 2 = 0 → ¬ s'.pml4Slot r va' % 2 = 0 := by
    by_cases hsame : pml4Entry va' = pml4Entry va
    · rw [Vm.pml4Slot, Vm.pml4Slot, hsame]
      exact hfilled h.pml4
    · rw [Vm.pml4Slot, Vm.pml4Slot,
        h.other [] _ (tablePath_nil 2) (by simp [hsame]) (by simp) (by simp)]
      exact id
  have hpdpr : ¬ s.pdprSlot r va' % 2 = 0 → ¬ s'.pdprSlot r va' % 2 = 0 := by
    by_cases hsame : pml4Entry va' = pml4Entry va ∧ pdprEntry va' = pdprEntry va
    · rw [Vm.pdprSlot, Vm.pdprSlot, hsame.1, hsame.2]
      exact hfilled h.pdpr
    · rw [Vm.pdprSlot, Vm.pdprSlot,
        h.other _ _ (tablePath_one hva') (by simp) (by simpa using hsame) (by simp)]
      exact id
  rw [walkOf_level, walkOf_level]
  split_ifs <;> omega

theorem Mapped.unaffected (h : Mapped s s' r pa va flags) (hva' : pml4Entry va' ≠ 510)
    (hpage : pageOf va' ≠ pageOf va) :
    Unaffected (.map pa va flags) (walkOf s r va') (walkOf s' r va') := by
  have hslot : s'.pdSlot r va' = s.pdSlot r va' :=
    h.other _ _ (tablePath_two hva' _) (by simp) (by simp) (pdSlot_ne hpage)
  have hlevel := h.level_le hva'
  by_cases hpresent : s.pdSlot r va' % 2 = 1
  · have hsame : walkOf s' r va' = walkOf s r va' := by
      rw [walkOf_present hpresent, walkOf_present (hslot ▸ hpresent), hslot, hhdmGetVariable,
        hhdmGetVariable, h.size]
    rw [hsame]
    exact ⟨rfl, rfl, le_refl _, fun _ => rfl⟩
  · obtain ⟨hc, hpte⟩ := walkOf_absent (s := s) (r := r) (by omega : s.pdSlot r va' % 2 = 0)
    obtain ⟨hc', hpte'⟩ := walkOf_absent (s := s') (r := r) (by omega : s'.pdSlot r va' % 2 = 0)
    exact ⟨hc'.trans hc.symm, hpte'.trans hpte.symm, hlevel, fun h => by simp [hc] at h⟩

theorem Unmapped.replay (h : Unmapped s s' r va) (hok : TreeOk 2 s r) (hok' : TreeOk 2 s' r)
    (hva' : pml4Entry va' ≠ 510) :
    mappingOf s' r va' = (MapCall.unmap va).replay (mappingOf s r) va' := by
  rw [MapCall.replay, mappingOf_eq hok hva', mappingOf_eq hok' hva']
  by_cases hpage : pageOf va' = pageOf va
  · have hslot : s'.pdSlot r va' = 0 := by
      simp only [pageOf, Prod.mk.injEq] at hpage
      rw [Vm.pdSlot, h.slots _ _ (tablePath_two hva' _), if_pos (by simp [hpage])]
    rw [if_pos (show pageOf va' = pageOf (MapCall.unmap va).address from hpage), hslot,
      if_neg (by omega)]
  · have hslot : s'.pdSlot r va' = s.pdSlot r va' := by
      rw [Vm.pdSlot, h.slots _ _ (tablePath_two hva' _), if_neg (pdSlot_ne hpage), Vm.pdSlot]
    rw [if_neg (show ¬ pageOf va' = pageOf (MapCall.unmap va).address from hpage), hslot,
      hhdmGetVariable, hhdmGetVariable, h.size]

theorem Unmapped.unaffected (h : Unmapped s s' r va) (hva' : pml4Entry va' ≠ 510)
    (hpage : pageOf va' ≠ pageOf va) :
    Unaffected (.unmap va) (walkOf s r va') (walkOf s' r va') := by
  have hslots {q : List (Fin 512)} {j : Fin 512} (hq : TablePath 2 q)
      (hne : ¬ (q = [pml4Entry va, pdprEntry va] ∧ j = pdEntry va)) :
      s'.slot r q j = s.slot r q j := by
    rw [h.slots q j hq, if_neg hne]
  have hpml4 : s'.pml4Slot r va' = s.pml4Slot r va' := hslots (tablePath_nil 2) (by simp)
  have hpdpr : s'.pdprSlot r va' = s.pdprSlot r va' := hslots (tablePath_one hva') (by simp)
  have hpd : s'.pdSlot r va' = s.pdSlot r va' :=
    hslots (tablePath_two hva' _) (pdSlot_ne hpage)
  show walkOf s' r va' = walkOf s r va'
  simp only [walkOf, hpml4, hpdpr, hpd, hhdmGetVariable, h.size]

end

/-- What one call does, in terms of walks. -/
structure CallOutcome (r : Nat) (s : Vm) (call : MapCall) (ret : Int) (t : Vm) : Prop where
  tree       : TreeOk 2 t r
  replays    : ∀ va, pml4Entry va ≠ 510 → mappingOf t r va = call.replay (mappingOf s r) va
  unaffected : ∀ va, pml4Entry va ≠ 510 → pageOf va ≠ pageOf call.address →
    Unaffected call (walkOf s r va) (walkOf t r va)
  refused    : match call with
    | .map _ va _ => (walkOf s r va).completed = true → ret = 0 ∧ t = s
    | .unmap va => (walkOf s r va).completed = false → ret = -1 ∧ t = s

theorem mapCall_refines {r : Nat} {s : Vm} {call : MapCall} (hok : TreeOk 2 s r)
    (hperm : call.Permitted r s) :
    ∃ ret t, call.exec r s = .ok (ret, t) ∧ CallOutcome r s call ret t := by
  cases call with
  | map pa va flags =>
    have hva := hperm.1
    have hsupply := hperm.2.2.2.2.2 _ (vmWalkTable_eq hok hva)
    rcases mapPhysToVirtAddrHh_spec pa flags hok hva hsupply with
      ⟨hpresent, hrun⟩ | ⟨t, hrun, hok', hmapped⟩
    · -- refused: the map has the page, and keeps it
      refine ⟨0, s, by simp only [MapCall.exec, hrun, ok_bind]; rfl, hok, ?_, ?_,
        fun _ => ⟨rfl, rfl⟩⟩
      · intro va' hva'
        rw [MapCall.replay, mappingOf_eq hok hva']
        split_ifs with hodd hpage hpage
        · rfl
        · rfl
        · exact absurd (pdSlot_congr (s := s) (r := r) hpage ▸ hpresent) hodd
        · rfl
      · intro va' hva' hpage
        exact ⟨rfl, rfl, le_refl _, fun _ => rfl⟩
    · refine ⟨va, t, by simp only [MapCall.exec, hrun, ok_bind], hok', ?_, ?_, ?_⟩
      · intro va' hva'
        exact hmapped.replay hok hok' hperm hva'
      · intro va' hva' hpage
        exact hmapped.unaffected hva' hpage
      · intro hcompleted
        rw [(walkOf_absent hmapped.absent).1] at hcompleted
        exact absurd hcompleted (by simp)
  | unmap va =>
    obtain ⟨hva, hnull⟩ := hperm
    rcases unmapVaddressHh_spec hok hva hnull with ⟨habsent, hrun⟩ | ⟨t, hpresent, hrun, hok', h⟩
    · refine ⟨-1, s, hrun, hok, ?_, fun _ _ _ => rfl, fun _ => ⟨rfl, rfl⟩⟩
      intro va' hva'
      rw [MapCall.replay, mappingOf_eq hok hva']
      split_ifs with hodd hpage hpage
      · exact absurd (pdSlot_congr (s := s) (r := r) hpage ▸ habsent) (by omega)
      · rfl
      · rfl
      · rfl
    · refine ⟨0, t, hrun, hok', ?_, ?_, ?_⟩
      · intro va' hva'
        exact h.replay hok hok' hva'
      · intro va' hva' hpage
        exact h.unaffected hva' hpage
      · intro hincomplete
        rw [walkOf_present hpresent] at hincomplete
        exact absurd hincomplete (by simp)

/-! ## Runs -/

/-- Along a run the tree stays in order and the walks follow the calls. -/
theorem mapRun_replay {r : Nat} {s₀ s : Vm} {calls : List MapCall} (hok : TreeOk 2 s₀ r)
    (hrun : Run (mapStep r) s₀ calls s) :
    TreeOk 2 s r ∧ ∀ va, pml4Entry va ≠ 510 →
      mappingOf s r va = calls.foldl MapCall.replay (mappingOf s₀ r) va := by
  refine hrun.trace (fun calls s => TreeOk 2 s r ∧ ∀ va, pml4Entry va ≠ 510 →
    mappingOf s r va = calls.foldl MapCall.replay (mappingOf s₀ r) va)
    ⟨hok, fun _ _ => by rw [List.foldl_nil]⟩ ?_
  -- the call does what `mapCall_refines` says, because exec is a function
  rintro calls t u call - ⟨hok, hreplay⟩ ⟨hperm, ret, hexec⟩
  obtain ⟨ret', u', hexec', hout⟩ := mapCall_refines hok hperm
  cases hexec.symm.trans hexec'
  refine ⟨hout.tree, fun va hva => ?_⟩
  rw [hout.replays va hva, List.foldl_append, List.foldl_cons, List.foldl_nil]
  exact replay_congr call (hreplay va hva)

/-- **The page tables are a partial map.** After every run of permitted calls:

* a walk completes exactly for the pages that the calls so far leave mapped, and
  its pointer is the one of the call that mapped the page;
* every permitted call returns. A call for another page leaves whether a walk
  completes and its pointer as they are, and all of the walk of a mapped page;
  an unmapping leaves all of every other walk;
* mapping a mapped page returns NULL and unmapping an unmapped one returns -1,
  and both leave the whole memory unchanged. -/
theorem page_tables_partial_map {r : Nat} {s₀ s : Vm} {calls : List MapCall}
    (hok : TreeOk 2 s₀ r) (hrun : Run (mapStep r) s₀ calls s) :
    (∀ va, pml4Entry va ≠ 510 →
      ∃ w, vmWalkTable .large s va (tablePtr .large r) = .ok w ∧
        (w.completed = true ↔ (calls.foldl MapCall.replay (mappingOf s₀ r) va).isSome) ∧
        (w.completed = true →
          calls.foldl MapCall.replay (mappingOf s₀ r) va = some w.pte)) ∧
    ∀ call, MapCall.Permitted r s call → ∃ ret t, call.exec r s = .ok (ret, t) ∧
      (∀ va, pml4Entry va ≠ 510 → pageOf va ≠ pageOf call.address →
        ∃ w w', vmWalkTable .large s va (tablePtr .large r) = .ok w ∧
          vmWalkTable .large t va (tablePtr .large r) = .ok w' ∧ Unaffected call w w') ∧
      ∀ w, vmWalkTable .large s call.address (tablePtr .large r) = .ok w →
        match call with
        | .map .. => w.completed = true → ret = 0 ∧ t = s
        | .unmap _ => w.completed = false → ret = -1 ∧ t = s := by
  obtain ⟨hok, hreplay⟩ := mapRun_replay hok hrun
  constructor
  · intro va hva
    obtain ⟨hiff, hpte⟩ := walkOf_mappingOf hok hva
    rw [hreplay va hva] at hiff hpte
    exact ⟨_, vmWalkTable_eq hok hva, hiff, hpte⟩
  · intro call hperm
    obtain ⟨ret, t, hexec, hout⟩ := mapCall_refines hok hperm
    refine ⟨ret, t, hexec, ?_, ?_⟩
    · intro va hva hpage
      exact ⟨_, _, vmWalkTable_eq hok hva, vmWalkTable_eq hout.tree hva,
        hout.unaffected va hva hpage⟩
    · intro w hw
      have hrefused := hout.refused
      -- the walk is a function, so `w` is the one that the call has made
      cases call with
      | map pa va flags =>
        cases hw.symm.trans (vmWalkTable_eq hok hperm.1)
        exact hrefused
      | unmap va =>
        cases hw.symm.trans (vmWalkTable_eq hok hperm.1)
        exact hrefused

/-! ## An empty address space -/

/-- 16 MiB of memory, all zero, with frames 2 to 5 for tables. -/
def emptySpace : Vm where
  memory := fun _ => 0
  memorySizeInBytes := 0x1000000
  freeTables := [0x2000, 0x3000, 0x4000, 0x5000]
  hhdmPageRootAddress := none

/-- The frames of a root and of the supply, which are not the same. -/
def FramesApart (s : Vm) (r : Nat) : Prop :=
  4096 * r < s.memorySizeInBytes ∧ s.memorySizeInBytes ≤ 2 ^ 40 ∧ s.freeTables.Nodup ∧
    ∀ t ∈ s.freeTables, t % 4096 = 0 ∧ t < s.memorySizeInBytes ∧ t ≠ 4096 * r

/-- A root that leads nowhere is in order if the frames are. -/
theorem treeOk_of_bare {s : Vm} {r : Nat}
    (hbare : ∀ p t, TablePath 2 p → descend tableOf s.entry r p = some t → p = [] ∧ t = r)
    (hframes : FramesApart s r) : TreeOk 2 s r := by
  obtain ⟨hroot, hlimit, hnodup, hfree⟩ := hframes
  refine ⟨fun p q t hP hQ hp hq => ?_, ?_, hlimit, hnodup, fun t ht => ?_⟩
  · rw [(hbare p t hP hp).1, (hbare q t hQ hq).1]
  · rintro n ⟨p, hP, hp⟩
    rw [(hbare p n hP hp).2]
    exact hroot
  · obtain ⟨haligned, hlt, hne⟩ := hfree t ht
    refine ⟨t / 4096, by omega, hlt, ?_⟩
    rintro ⟨p, hP, hp⟩
    have := (hbare p _ hP hp).2
    omega

theorem emptySpace_frames : FramesApart emptySpace 1 := by
  unfold FramesApart
  decide

theorem emptySpace_treeOk : TreeOk 2 emptySpace 1 := by
  refine treeOk_of_bare (fun p t _ h => ?_) emptySpace_frames
  cases p with
  | nil => exact ⟨rfl, (Option.some.inj h).symm⟩
  | cons i p => exact absurd h (by simp [descend, Vm.entry, emptySpace, tableOf])

/-- The page that was mapped is found, the one after it is not. -/
theorem page_tables_partial_map_emptySpace :
    ∃ s, Run (mapStep 1) emptySpace [.map 0x200000 0x40000000 3] s ∧
      (∃ w, vmWalkTable .large s 0x40000000 (tablePtr .large 1) = .ok w ∧ w.completed = true ∧
        w.pte = some (0x200000 + higherHalfDirectMapBase .large)) ∧
      ∃ w, vmWalkTable .large s 0x40200000 (tablePtr .large 1) = .ok w ∧ w.completed = false := by
  have hva : pml4Entry 0x40000000 ≠ 510 := by decide
  have hperm : (MapCall.map 0x200000 0x40000000 3).Permitted 1 emptySpace :=
    ⟨hva, by decide, by decide, by decide, by decide, fun w _ => by simp [emptySpace]⟩
  obtain ⟨ret, s, hexec, -⟩ := mapCall_refines emptySpace_treeOk hperm
  have hrun : Run (mapStep 1) emptySpace [.map 0x200000 0x40000000 3] s :=
    Run.extend Run.start ⟨hperm, ret, hexec⟩
  obtain ⟨hwalks, -⟩ := page_tables_partial_map emptySpace_treeOk hrun
  have hmapped : [MapCall.map 0x200000 0x40000000 3].foldl MapCall.replay (mappingOf emptySpace 1)
      0x40000000 = some (some (0x200000 + higherHalfDirectMapBase .large)) := by decide +kernel
  have hfree : [MapCall.map 0x200000 0x40000000 3].foldl MapCall.replay (mappingOf emptySpace 1)
      0x40200000 = none := by decide +kernel
  obtain ⟨w, hw, hiff, hpte⟩ := hwalks 0x40000000 hva
  obtain ⟨w', hw', hiff', -⟩ := hwalks 0x40200000 (by decide)
  rw [hmapped] at hiff hpte
  rw [hfree] at hiff'
  have hcompleted : w.completed = true := hiff.2 rfl
  refine ⟨s, hrun, ⟨w, hw, hcompleted, (Option.some.inj (hpte hcompleted)).symm⟩, w', hw', ?_⟩
  simpa using hiff'

/-- **The level of a walk is not a matter of its own page.** Before anything is
mapped the walk of `0x40200000` stops at the root; after the page before it has
been mapped it stops two tables further down. -/
theorem walk_level_changes :
    (MapCall.map 0x200000 0x40000000 3).Permitted 1 emptySpace ∧
    TreeOk 2 emptySpace 1 ∧ pageOf 0x40200000 ≠ pageOf 0x40000000 ∧
    vmWalkTable .large emptySpace 0x40200000 (tablePtr .large 1) = .ok ⟨0, none, false⟩ ∧
    ∃ s, (MapCall.map 0x200000 0x40000000 3).exec 1 emptySpace = .ok (0x40000000, s) ∧
      vmWalkTable .large s 0x40200000 (tablePtr .large 1) = .ok ⟨2, none, false⟩ := by
  exact ⟨⟨by decide, by decide, by decide, by decide, by decide, fun w _ => by simp [emptySpace]⟩,
    emptySpace_treeOk, by decide, by decide +kernel, by decide +kernel⟩

end Dreamos64
