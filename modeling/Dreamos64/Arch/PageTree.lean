import Dreamos64.Arch.PageTable
import Dreamos64.Lib.TableTree

/-!
# Dreamos64 — page tables as a tree

The tables of one root form a tree in the sense of `TableTree`: a table is its
frame number, and an entry with the present bit leads to the frame in bits
12 to 39. Entry 510 of the root points back to the root and is left out.

`TreeOk` is what the mapping code relies on: different paths lead to different
tables, every table is below `memory_size_in_bytes`, and the frames that
`pmm_prepare_new_pagetable` has left are aligned, below it and not in the tree.
Under it the functions of the mapper are functions of the slots of the tree:

* `tableFor_spec` — a level of the mapper follows its slot, or fills it;
* `vmWalkTable_eq` — the walk reads three slots;
* `mapPhysToVirtAddrHh_spec` / `unmapVaddressHh_spec` — what the two change.
-/

namespace Dreamos64

open Machine TableTree

/-! ## Tables and entries -/

/-- Entry `i` of the table in frame `n`. -/
def Vm.entry (s : Vm) (n : Nat) (i : Fin 512) : Nat := s.memory (4096 * n + 8 * i)

/-- The table that an entry leads to. -/
def tableOf (value : Nat) : Option Nat :=
  if value % 2 = 1 then some (value / 4096 % 2 ^ 28) else none

/-- The direct map's pointer to the table in frame `n`. -/
def tablePtr (m : PageMode) (n : Nat) : Option Nat := some (4096 * n + higherHalfDirectMapBase m)

/-- Paths to tables at most `d` levels below the root, not through entry 510. -/
def TablePath (d : Nat) (p : List (Fin 512)) : Prop := p.length ≤ d ∧ p.head? ≠ some 510

def Vm.slot (s : Vm) (r : Nat) : List (Fin 512) → Fin 512 → Nat :=
  TableTree.slot tableOf 0 s.entry r

structure TreeOk (d : Nat) (s : Vm) (r : Nat) : Prop where
  separate : Separate tableOf s.entry r (TablePath d)
  below    : ∀ n, IsTable tableOf s.entry r (TablePath d) n → 4096 * n < s.memorySizeInBytes
  limit    : s.memorySizeInBytes ≤ 2 ^ 40
  nodup    : s.freeTables.Nodup
  fresh    : ∀ t ∈ s.freeTables, ∃ n, t = 4096 * n ∧ t < s.memorySizeInBytes ∧
    ¬ IsTable tableOf s.entry r (TablePath d) n

theorem tableOf_zero : tableOf 0 = none := rfl

theorem tablePath_closed (d : Nat) : Closed (TablePath d) := by
  rintro p i ⟨hlen, hhead⟩
  refine ⟨by simp at hlen; omega, fun h => hhead ?_⟩
  rw [List.head?_append, h]
  rfl

theorem tablePath_nil (d : Nat) : TablePath d [] := ⟨Nat.zero_le d, by simp⟩

/-! ## Bits of an entry -/

theorem and_presentBit (v : Nat) : v &&& presentBit = v % 2 := Nat.and_one_is_mod v

/-- The mask selects the frame. -/
theorem and_mask (v : Nat) : v &&& vmPageTableBaseAddressMask = 4096 * (v / 4096 % 2 ^ 28) := by
  have hmask : vmPageTableBaseAddressMask = (2 ^ 28 - 1) * 2 ^ 12 := rfl
  rw [show 4096 = 2 ^ 12 from rfl, Nat.mul_comm, hmask]
  apply Nat.eq_of_testBit_eq
  intro i
  rw [Nat.testBit_and, Nat.testBit_mul_two_pow, Nat.testBit_mul_two_pow, Nat.testBit_mod_two_pow,
    Nat.testBit_div_two_pow, Nat.testBit_two_pow_sub_one]
  by_cases h : 12 ≤ i
  · simp [h, Bool.and_comm]
  · simp [h]

/-- An aligned address and bits below the alignment do not meet. -/
theorem or_low (a k low : Nat) (hlow : low < 2 ^ k) : 2 ^ k * a ||| low = 2 ^ k * a + low :=
  (Nat.two_pow_add_eq_or_of_lt hlow a).symm

theorem or_lt_4096 {a b : Nat} (ha : a < 4096) (hb : b < 4096) : a ||| b < 4096 :=
  Nat.or_lt_two_pow (n := 12) ha hb

/-- The value `map_phys_to_virt_addr_hh` links a table with. -/
def linkValue (newTable userModeStatus : Nat) : Nat :=
  newTable ||| userModeStatus ||| writeBit ||| presentBit

theorem linkValue_eq {n user : Nat} (huser : user < 4096) :
    linkValue (4096 * n) user = 4096 * n + (user ||| writeBit ||| presentBit) := by
  have hlow : user ||| writeBit ||| presentBit < 2 ^ 12 :=
    or_lt_4096 (or_lt_4096 huser (by decide)) (by decide)
  rw [linkValue, Nat.or_assoc, Nat.or_assoc, ← Nat.or_assoc user]
  exact or_low n 12 _ hlow

theorem or_presentBit_mod (v : Nat) : (v ||| presentBit) % 2 = 1 := by
  have h : (v ||| presentBit).testBit 0 = true := by
    rw [Nat.testBit_or]
    simp [presentBit]
  simpa [Nat.testBit_zero] using h

theorem tableOf_linkValue {n user : Nat} (huser : user < 4096) (hn : n < 2 ^ 28) :
    tableOf (linkValue (4096 * n) user) = some n := by
  have hlow : user ||| writeBit ||| presentBit < 4096 :=
    or_lt_4096 (or_lt_4096 huser (by decide)) (by decide)
  have hpresent : linkValue (4096 * n) user % 2 = 1 := or_presentBit_mod _
  rw [tableOf, if_pos hpresent, linkValue_eq huser]
  congr 1
  omega

theorem tableOf_absent {v : Nat} (h : v % 2 = 0) : tableOf v = none := by
  rw [tableOf, if_neg (by omega)]

/-! ## Loads and stores -/

section Memory

variable {m : PageMode} {s : Vm} {n u : Nat} {i j : Fin 512} {v : Nat}

theorem wordAt_tablePtr (m : PageMode) (n : Nat) (i : Fin 512) :
    wordAt m (tablePtr m n) i = .ok (4096 * n + 8 * i) := by
  simp only [wordAt, tablePtr]
  rw [if_pos (Nat.le_add_left _ _), Nat.add_sub_cancel]

@[simp] theorem tablePtr_isNone : (tablePtr m n).isNone = false := by
  simp only [tablePtr, Option.isNone_some]

@[simp] theorem load_tablePtr : load m s (tablePtr m n) i = .ok (s.entry n i) := by
  simp [load, wordAt_tablePtr, Vm.entry]

theorem hhdmGetVariable_table (h : 4096 * n < s.memorySizeInBytes) :
    hhdmGetVariable m s (4096 * n) = tablePtr m n := by
  rw [hhdmGetVariable, if_pos h, tablePtr]

/-- Entry `i` of frame `n` overwritten. -/
def Vm.setEntry (s : Vm) (n : Nat) (i : Fin 512) (v : Nat) : Vm :=
  { s with memory := Function.update s.memory (4096 * n + 8 * i) v }

@[simp] theorem store_tablePtr : store m s (tablePtr m n) i v = .ok (s.setEntry n i v) := by
  simp [store, wordAt_tablePtr, Vm.setEntry]

theorem entry_setEntry :
    (s.setEntry n i v).entry u j = if u = n ∧ j = i then v else s.entry u j := by
  have hi := i.isLt
  have hj := j.isLt
  have haddr : 4096 * u + 8 * j.val = 4096 * n + 8 * i.val ↔ u = n ∧ j = i := by
    rw [Fin.ext_iff]
    omega
  simp only [Vm.entry, Vm.setEntry, Function.update_apply, haddr]

/-- A loop that stores one value per entry writes those entries. -/
theorem foldlM_store (f : Fin 512 → Nat) (l : List (Fin 512)) (s : Vm) :
    ∃ memory, l.foldlM (fun s i => store m s (tablePtr m n) i (f i)) s =
        .ok { s with memory := memory } ∧
      ∀ u j, ({ s with memory := memory } : Vm).entry u j =
        if u = n ∧ j ∈ l then f j else s.entry u j := by
  induction l generalizing s with
  | nil => exact ⟨s.memory, rfl, fun u j => by simp⟩
  | cons i l ih =>
    obtain ⟨memory, hrun, hentry⟩ := ih (s.setEntry n i (f i))
    refine ⟨memory, ?_, ?_⟩
    · rw [List.foldlM_cons, store_tablePtr, ok_bind, hrun]
      rfl
    · intro u j
      rw [show ({ s with memory := memory } : Vm).entry u j =
        ({ s.setEntry n i (f i) with memory := memory } : Vm).entry u j from rfl, hentry,
        entry_setEntry]
      by_cases hj : j = i
      · subst hj
        simp
        tauto
      · simp [hj]

/-- `clean_new_table` blanks a table and touches nothing else. -/
theorem cleanNewTable_spec (m : PageMode) (s : Vm) (n : Nat) :
    ∃ memory, cleanNewTable m s (tablePtr m n) = .ok { s with memory := memory } ∧
      ∀ u j, ({ s with memory := memory } : Vm).entry u j = if u = n then 0 else s.entry u j := by
  obtain ⟨memory, hrun, hentry⟩ := foldlM_store (m := m) (n := n) (fun _ => 0)
    (List.finRange vmPagesPerTable) s
  refine ⟨memory, hrun, fun u j => ?_⟩
  rw [hentry]
  simp only [List.mem_finRange, and_true]

end Memory

/-! ## One level of the mapper -/

section Level

variable {d : Nat} {m : PageMode} {s : Vm} {r t n user va : Nat} {p : List (Fin 512)} {i : Fin 512}

theorem TreeOk.table_lt (hok : TreeOk d s r) (hp : TablePath d p)
    (ht : descend tableOf s.entry r p = some t) : 4096 * t < s.memorySizeInBytes :=
  hok.below t ⟨p, hp, ht⟩

/-- A present slot is followed, and the pointer the code computes is the next
table's. -/
theorem follow_slot (hok : TreeOk d s r) (hp : TablePath d (p ++ [i]))
    (hpresent : s.slot r p i % 2 = 1) :
    ∃ n, descend tableOf s.entry r (p ++ [i]) = some n ∧
      hhdmGetVariable m s (s.slot r p i &&& vmPageTableBaseAddressMask) = tablePtr m n := by
  have hn : descend tableOf s.entry r (p ++ [i]) = some (s.slot r p i / 4096 % 2 ^ 28) := by
    rw [descend_slot tableOf_zero]
    exact if_pos hpresent
  refine ⟨_, hn, ?_⟩
  rw [and_mask]
  exact hhdmGetVariable_table (hok.table_lt hp hn)

/-- The memory after a new table was linked at entry `i` of `t` and cleaned. -/
theorem links_clean {s' : Vm} (htn : t ≠ n) (huser : user < 4096) (hn : n < 2 ^ 28)
    (hclean : ∀ u j, s'.entry u j =
      if u = n then 0 else (s.setEntry t i (linkValue (4096 * n) user)).entry u j) :
    Links tableOf 0 s.entry s'.entry t i n (linkValue (4096 * n) user) where
  here := by rw [hclean, if_neg htn, entry_setEntry, if_pos ⟨rfl, rfl⟩]
  below := tableOf_linkValue huser hn
  blank := fun j => by rw [hclean, if_pos rfl]
  other := fun u j hun hui => by rw [hclean, if_neg hun, entry_setEntry, if_neg hui]

/-- Linking the first frame of the supply keeps the tree in order. -/
theorem TreeOk.link {s' : Vm} {rest : List Nat} {v : Nat} (hok : TreeOk d s r)
    (hfree : s.freeTables = 4096 * n :: rest) (hp : TablePath d p)
    (ht : descend tableOf s.entry r p = some t) (hnone : tableOf (s.entry t i) = none)
    (hfresh : ¬ IsTable tableOf s.entry r (TablePath d) n)
    (hl : Links tableOf 0 s.entry s'.entry t i n v)
    (hsize : s'.memorySizeInBytes = s.memorySizeInBytes) (hrest : s'.freeTables = rest) :
    TreeOk d s' r := by
  have hnodup := hok.nodup
  rw [hfree, List.nodup_cons] at hnodup
  have htables {u : Nat} (hu : IsTable tableOf s'.entry r (TablePath d) u) :
      u = n ∨ IsTable tableOf s.entry r (TablePath d) u :=
    isTable_link tableOf_zero (tablePath_closed d) (hok.separate.sole hp) ht hnone hfresh hl hu
  refine ⟨?_, ?_, hsize ▸ hok.limit, hrest ▸ hnodup.2, ?_⟩
  · exact Separate.link tableOf_zero (tablePath_closed d) (hok.separate.sole hp) ht hnone hfresh hl
      hok.separate
  · intro u hu
    rw [hsize]
    rcases htables hu with rfl | hold
    · obtain ⟨n', hn', hlt, -⟩ := hok.fresh (4096 * u) (by simp [hfree])
      exact hlt
    · exact hok.below u hold
  · intro t' ht'
    rw [hrest] at ht'
    obtain ⟨n', rfl, hlt, hnew⟩ := hok.fresh t' (by simp [hfree, ht'])
    refine ⟨n', rfl, hsize ▸ hlt, fun hu => ?_⟩
    rcases htables hu with rfl | hold
    · exact hnodup.1 ht'
    · exact hnew hold

/-- `user_mode_status`. -/
def userModeStatus (va : Nat) : Nat := if isAddressHigherHalf va then 0 else vmmFlagsUserLevel

theorem userModeStatus_lt (va : Nat) : userModeStatus va < 4096 := by
  unfold userModeStatus
  split <;> decide

/-- A slot on the way to a page, before and after: kept if it was present,
otherwise linked to a new table. -/
def Filled (va before after : Nat) : Prop :=
  before % 2 = 1 ∧ after = before ∨
    before % 2 = 0 ∧ ∃ newTable, 4096 ∣ newTable ∧ after = linkValue newTable (userModeStatus va)

/-- What the block of one level does to the tree, at the slot `p`, `i`. -/
structure LevelStep (d : Nat) (s s' : Vm) (r : Nat) (p : List (Fin 512)) (i : Fin 512) (va : Nat) :
    Prop where
  size   : s'.memorySizeInBytes = s.memorySizeInBytes
  supply : s.slot r p i % 2 = 0 → s.freeTables.length = s'.freeTables.length + 1
  kept   : s.slot r p i % 2 = 1 → s' = s
  filled : Filled va (s.slot r p i) (s'.slot r p i)
  other  : ∀ q j, TablePath d q → ¬ (q = p ∧ j = i) → s'.slot r q j = s.slot r q j

theorem LevelStep.refl (hpresent : s.slot r p i % 2 = 1) : LevelStep d s s r p i va :=
  ⟨rfl, fun h => by omega, fun _ => rfl, Or.inl ⟨hpresent, rfl⟩, fun _ _ _ _ => rfl⟩

/-- **One level.** The block leaves the tree as it is when the slot is present;
otherwise it links one fresh table there. Either way it returns the pointer to
the table at `p ++ [i]`. -/
theorem tableFor_spec (va : Nat) (hok : TreeOk d s r) (hp : TablePath d (p ++ [i]))
    (ht : descend tableOf s.entry r p = some t)
    (hsupply : s.slot r p i % 2 = 0 → s.freeTables ≠ []) :
    ∃ n s', tableFor m s (tablePtr m t) i (userModeStatus va) = .ok (tablePtr m n, s') ∧
      TreeOk d s' r ∧ descend tableOf s'.entry r (p ++ [i]) = some n ∧
      LevelStep d s s' r p i va := by
  have hslot : s.slot r p i = s.entry t i := slot_of_descend ht
  have hPp := tablePath_closed d p i hp
  simp only [tableFor, load_tablePtr, ok_bind, and_presentBit, ← hslot]
  by_cases hpresent : s.slot r p i % 2 = 1
  · obtain ⟨n, hn, hptr⟩ := follow_slot (m := m) hok hp hpresent
    exact ⟨n, s, by rw [if_neg (by omega), hptr], hok, hn, LevelStep.refl hpresent⟩
  · have habsent : s.slot r p i % 2 = 0 := by omega
    rw [if_pos habsent]
    -- the next frame of the supply, which is fresh
    obtain ⟨t', rest, hfree⟩ := List.exists_cons_of_ne_nil (hsupply habsent)
    obtain ⟨n, rfl, hlt, hfresh⟩ := hok.fresh t' (by simp [hfree])
    have hn28 : n < 2 ^ 28 := by
      have := hok.limit
      omega
    have htn : t ≠ n := fun e => hfresh ⟨p, hPp, e ▸ ht⟩
    have hnone : tableOf (s.entry t i) = none := tableOf_absent (hslot ▸ habsent)
    simp only [newPagetable, hfree, store_tablePtr, ok_bind]
    rw [hhdmGetVariable_table (m := m) (n := n) (by exact hlt)]
    obtain ⟨memory, hrun, hclean⟩ := cleanNewTable_spec m
      (({ s with freeTables := rest } : Vm).setEntry
      t i (linkValue (4096 * n) (userModeStatus va))) n
    obtain ⟨s', hs'⟩ : ∃ s' : Vm, s' = ⟨memory, s.memorySizeInBytes, rest,
      s.hhdmPageRootAddress⟩ := ⟨_, rfl⟩
    have hl : Links tableOf 0 s.entry s'.entry t i n
      (linkValue (4096 * n) (userModeStatus va)) := by
      refine links_clean htn (userModeStatus_lt va) hn28 fun u j => ?_
      rw [hs']
      exact hclean u j
    have hdesc := descend_link tableOf_zero (tablePath_closed d) (hok.separate.sole hPp) ht hnone
      hfresh hl hp
    have hslots {q : List (Fin 512)} (hq : TablePath d q) (j : Fin 512) : s'.slot r q j =
        if q = p ∧ j = i then linkValue (4096 * n) (userModeStatus va) else s.slot r q j :=
      slot_link tableOf_zero (tablePath_closed d) (hok.separate.sole hPp) ht hnone hfresh hl hq
    refine ⟨n, s', ?_, ?_, hdesc.1 rfl, ?_⟩
    · change (cleanNewTable m (Vm.setEntry { s with freeTables := rest } t i
        (linkValue (4096 * n) (userModeStatus va))) (tablePtr m n) >>=
          fun s => .ok (tablePtr m n, s)) = _
      rw [hrun, hs']
      rfl
    · exact hok.link hfree hPp ht hnone hfresh hl (by rw [hs']) (by rw [hs'])
    · refine ⟨by rw [hs'], fun _ => by rw [hs', hfree, List.length_cons], fun h => by omega, ?_, ?_⟩
      · exact Or.inr ⟨habsent, 4096 * n, ⟨n, rfl⟩, by rw [hslots hPp, if_pos ⟨rfl, rfl⟩]⟩
      · intro q j hq hne
        rw [hslots hq, if_neg hne]

end Level

/-! ## The 2 MiB walk -/

section Large

variable {s : Vm} {r : Nat} {pa va flags : Nat}

/-- The slots of a page, from the root to the entry that maps it. -/
def Vm.pml4Slot (s : Vm) (r va : Nat) : Nat := s.slot r [] (pml4Entry va)
def Vm.pdprSlot (s : Vm) (r va : Nat) : Nat := s.slot r [pml4Entry va] (pdprEntry va)
def Vm.pdSlot (s : Vm) (r va : Nat) : Nat := s.slot r [pml4Entry va, pdprEntry va] (pdEntry va)

/-- The result of a walk, read off the slots. -/
def walkOf (s : Vm) (r va : Nat) : VmWalkResults :=
  if s.pml4Slot r va % 2 = 0 then ⟨0, none, false⟩
  else if s.pdprSlot r va % 2 = 0 then ⟨1, none, false⟩
  else if s.pdSlot r va % 2 = 0 then ⟨2, none, false⟩
  else ⟨2, hhdmGetVariable .large s (s.pdSlot r va &&& vmPageTableBaseAddressMask), true⟩

theorem tablePath_one (hva : pml4Entry va ≠ 510) : TablePath 2 [pml4Entry va] :=
  ⟨by simp, by simpa using hva⟩

theorem tablePath_two (hva : pml4Entry va ≠ 510) (i : Fin 512) : TablePath 2 [pml4Entry va, i] :=
  ⟨by simp, by simpa using hva⟩

/-- Below a slot that is not present there is nothing. -/
theorem slot_parent_present {p : List (Fin 512)} {i j : Fin 512}
    (h : s.slot r (p ++ [i]) j % 2 = 1) : s.slot r p i % 2 = 1 := by
  by_contra habsent
  have hnone : descend tableOf s.entry r (p ++ [i]) = none := by
    rw [descend_slot tableOf_zero]
    exact tableOf_absent (by change s.slot r p i % 2 = 0; omega)
  rw [show s.slot r (p ++ [i]) j = 0 from slot_of_none hnone] at h
  omega

theorem pdSlot_present (h : s.pdSlot r va % 2 = 1) :
    s.pdprSlot r va % 2 = 1 ∧ s.pml4Slot r va % 2 = 1 := by
  have hpdpr := slot_parent_present (p := [pml4Entry va]) h
  exact ⟨hpdpr, slot_parent_present (p := []) hpdpr⟩

theorem pdSlot_absent (h : s.pml4Slot r va % 2 = 0 ∨ s.pdprSlot r va % 2 = 0) :
    s.pdSlot r va % 2 = 0 := by
  by_contra hpd
  obtain ⟨hpdpr, hpml4⟩ := pdSlot_present (s := s) (r := r) (by omega : s.pdSlot r va % 2 = 1)
  omega

/-- A present page directory slot is read in two steps from the root. -/
theorem follow_two (hok : TreeOk 2 s r) (hva : pml4Entry va ≠ 510)
    (hpml4 : s.pml4Slot r va % 2 = 1) :
    ∃ pdpr, hhdmGetVariable .large s (s.pml4Slot r va &&& vmPageTableBaseAddressMask) =
        tablePtr .large pdpr ∧ s.entry pdpr (pdprEntry va) = s.pdprSlot r va ∧
      (s.pdprSlot r va % 2 = 1 →
        ∃ pd, hhdmGetVariable .large s (s.pdprSlot r va &&& vmPageTableBaseAddressMask) =
            tablePtr .large pd ∧ s.entry pd (pdEntry va) = s.pdSlot r va ∧
          descend tableOf s.entry r [pml4Entry va, pdprEntry va] = some pd) := by
  obtain ⟨pdpr, hpdpr, hptr⟩ := follow_slot (m := .large) (p := []) hok (tablePath_one hva) hpml4
  refine ⟨pdpr, hptr, (slot_of_descend hpdpr).symm, fun hpresent => ?_⟩
  obtain ⟨pd, hpd, hptr⟩ := follow_slot (m := .large) (p := [pml4Entry va]) hok
    (tablePath_two hva _) hpresent
  exact ⟨pd, hptr, (slot_of_descend hpd).symm, hpd⟩

theorem entry_root (s : Vm) (r va : Nat) : s.entry r (pml4Entry va) = s.pml4Slot r va := rfl

/-- **`vm_walk_table` reads the three slots of the page.** -/
theorem vmWalkTable_eq (hok : TreeOk 2 s r) (hva : pml4Entry va ≠ 510) :
    vmWalkTable .large s va (tablePtr .large r) = .ok (walkOf s r va) := by
  simp only [vmWalkTable, walkOf, load_tablePtr, ok_bind, and_presentBit, entry_root]
  by_cases hpml4 : s.pml4Slot r va % 2 = 0
  · rw [if_pos hpml4, if_pos hpml4]
  · rw [if_neg hpml4, if_neg hpml4]
    obtain ⟨pdpr, hptr, hentry, hnext⟩ := follow_two hok hva (by omega)
    simp only [hptr, load_tablePtr, ok_bind, hentry]
    by_cases hpdpr : s.pdprSlot r va % 2 = 0
    · rw [if_pos hpdpr, if_pos hpdpr]
    · rw [if_neg hpdpr, if_neg hpdpr]
      obtain ⟨pd, hptr, hentry, -⟩ := hnext (by omega)
      simp only [hptr, load_tablePtr, ok_bind, hentry]
      split_ifs <;> rfl

/-! ## The 2 MiB mapper -/

/-- The entry that maps a page. -/
def leafValue (pa va flags : Nat) : Nat :=
  pa ||| hugepageBit ||| (if isAddressHigherHalf va then flags else flags ||| vmmFlagsUserLevel) |||
    userModeStatus va

/-- What a successful mapping does to the slots. -/
structure Mapped (s s' : Vm) (r pa va flags : Nat) : Prop where
  absent : s.pdSlot r va % 2 = 0
  size   : s'.memorySizeInBytes = s.memorySizeInBytes
  pml4   : Filled va (s.pml4Slot r va) (s'.pml4Slot r va)
  pdpr   : Filled va (s.pdprSlot r va) (s'.pdprSlot r va)
  leaf   : s'.pdSlot r va = leafValue pa va flags
  other  : ∀ q j, TablePath 2 q → ¬ (q = [] ∧ j = pml4Entry va) →
    ¬ (q = [pml4Entry va] ∧ j = pdprEntry va) →
    ¬ (q = [pml4Entry va, pdprEntry va] ∧ j = pdEntry va) → s'.slot r q j = s.slot r q j

/-- Writing a page directory entry keeps the tree in order and changes its slot. -/
theorem setEntry_leaf {pd v : Nat} (hok : TreeOk 2 s r) (hva : pml4Entry va ≠ 510)
    (hpd : descend tableOf s.entry r [pml4Entry va, pdprEntry va] = some pd) :
    TreeOk 2 (s.setEntry pd (pdEntry va) v) r ∧
    ∀ q j, TablePath 2 q → (s.setEntry pd (pdEntry va) v).slot r q j =
      if q = [pml4Entry va, pdprEntry va] ∧ j = pdEntry va then v else s.slot r q j := by
  have hw : Writes s.entry (s.setEntry pd (pdEntry va) v).entry pd (pdEntry va) v :=
    ⟨by rw [entry_setEntry, if_pos ⟨rfl, rfl⟩], fun u j h => by rw [entry_setEntry, if_neg h]⟩
  have hrim : TablePath 2 ([pml4Entry va, pdprEntry va] ++ [pdEntry va]) →
      tableOf v = tableOf (s.entry pd (pdEntry va)) := fun h => absurd h.1 (by simp)
  have hsole := hok.separate.sole (tablePath_two hva (pdprEntry va))
  have hc := tablePath_closed 2
  refine ⟨⟨Separate.write hc hsole hpd hrim hw hok.separate, fun n hn => ?_, hok.limit, hok.nodup,
    ?_⟩, ?_⟩
  · exact hok.below n (isTable_write hc hsole hpd hrim hw hn)
  · intro t ht
    obtain ⟨n, rfl, hlt, hnew⟩ := hok.fresh t ht
    exact ⟨n, rfl, hlt, fun h => hnew (isTable_write hc hsole hpd hrim hw h)⟩
  · intro q j hq
    exact slot_write hc hsole hpd hrim hw hq

/-- The level of a walk counts the tables below the root that are there. -/
theorem walkOf_level (s : Vm) (r va : Nat) :
    (walkOf s r va).level =
      if s.pml4Slot r va % 2 = 0 then 0 else if s.pdprSlot r va % 2 = 0 then 1 else 2 := by
  unfold walkOf
  split_ifs <;> rfl

/-- The two upper levels of the mapper, one after the other. -/
theorem tableFor_two (hok : TreeOk 2 s r) (hva : pml4Entry va ≠ 510)
    (hsupply : 2 ≤ (walkOf s r va).level + s.freeTables.length) :
    ∃ pdpr pd s₁ s₂,
      tableFor .large s (tablePtr .large r) (pml4Entry va) (userModeStatus va) =
        .ok (tablePtr .large pdpr, s₁) ∧
      tableFor .large s₁ (tablePtr .large pdpr) (pdprEntry va) (userModeStatus va) =
        .ok (tablePtr .large pd, s₂) ∧
      TreeOk 2 s₂ r ∧ descend tableOf s₂.entry r [pml4Entry va, pdprEntry va] = some pd ∧
      LevelStep 2 s s₁ r [] (pml4Entry va) va ∧
      LevelStep 2 s₁ s₂ r [pml4Entry va] (pdprEntry va) va := by
  have hlevel := walkOf_level s r va
  obtain ⟨pdpr, s₁, hrun₁, hok₁, hdesc₁, hstep₁⟩ := tableFor_spec (m := .large) (p := []) va hok
    (tablePath_one hva) (descend_nil (t := r)) (fun habsent hempty => by
      rw [if_pos (show s.pml4Slot r va % 2 = 0 from habsent)] at hlevel
      rw [hlevel, hempty] at hsupply
      simp at hsupply)
  -- a table is left for the second level whether or not the first took one
  have hsupply₁ : s₁.slot r [pml4Entry va] (pdprEntry va) % 2 = 0 → s₁.freeTables ≠ [] := by
    intro habsent hempty
    by_cases hpml4 : s.pml4Slot r va % 2 = 0
    · have hspent := hstep₁.supply hpml4
      rw [if_pos hpml4] at hlevel
      rw [hempty, List.length_nil] at hspent
      omega
    · obtain rfl := hstep₁.kept (by change s.pml4Slot r va % 2 = 1; omega)
      rw [if_neg hpml4, if_pos (show s₁.pdprSlot r va % 2 = 0 from habsent)] at hlevel
      rw [hlevel, hempty] at hsupply
      simp at hsupply
  obtain ⟨pd, s₂, hrun₂, hok₂, hdesc₂, hstep₂⟩ := tableFor_spec (m := .large)
    (p := [pml4Entry va]) va hok₁ (tablePath_two hva (pdprEntry va)) hdesc₁ hsupply₁
  exact ⟨pdpr, pd, s₁, s₂, hrun₁, hrun₂, hok₂, hdesc₂, hstep₁, hstep₂⟩

/-- The mapper after its two upper levels. -/
theorem mapPhysToVirtAddrHh_large {root pdprRoot pdRoot : Option Nat} {s₁ s₂ : Vm} {value : Nat}
    (hroot : root.isNone = false)
    (hrun₁ : tableFor .large s root (pml4Entry va) (userModeStatus va) = .ok (pdprRoot, s₁))
    (hrun₂ : tableFor .large s₁ pdprRoot (pdprEntry va) (userModeStatus va) = .ok (pdRoot, s₂))
    (hload : load .large s₂ pdRoot (pdEntry va) = .ok value) :
    mapPhysToVirtAddrHh .large s pa va flags root =
      if value % 2 = 0 then do
        let s ← store .large s₂ pdRoot (pdEntry va) (leafValue pa va flags)
        .ok (va, s)
      else .ok (0, s₂) := by
  obtain ⟨root, rfl⟩ := Option.isSome_iff_exists.1 (Option.isNone_eq_false_iff.1 hroot)
  rw [userModeStatus] at hrun₁ hrun₂
  simp only [mapPhysToVirtAddrHh, Option.some_or, hroot, Bool.false_eq_true, if_false, hrun₁, hrun₂,
    ok_bind, hload, and_presentBit, leafValue, userModeStatus]

/-- **`map_phys_to_virt_addr_hh`.** A page that is mapped is refused and nothing
is written; otherwise the page's entry is written, under tables that are linked
where they were missing, and no other slot changes. -/
theorem mapPhysToVirtAddrHh_spec (pa flags : Nat) (hok : TreeOk 2 s r)
    (hva : pml4Entry va ≠ 510) (hsupply : 2 ≤ (walkOf s r va).level + s.freeTables.length) :
    (s.pdSlot r va % 2 = 1 ∧
      mapPhysToVirtAddrHh .large s pa va flags (tablePtr .large r) = .ok (0, s)) ∨
    ∃ s', mapPhysToVirtAddrHh .large s pa va flags (tablePtr .large r) = .ok (va, s') ∧
      TreeOk 2 s' r ∧ Mapped s s' r pa va flags := by
  obtain ⟨pdpr, pd, s₁, s₂, hrun₁, hrun₂, hok₂, hpd, hstep₁, hstep₂⟩ := tableFor_two hok hva hsupply
  have hother {q : List (Fin 512)} {j : Fin 512} (hq : TablePath 2 q)
      (hpml4 : ¬ (q = [] ∧ j = pml4Entry va))
      (hpdpr : ¬ (q = [pml4Entry va] ∧ j = pdprEntry va)) : s₂.slot r q j = s.slot r q j :=
    (hstep₂.other q j hq hpdpr).trans (hstep₁.other q j hq hpml4)
  have hentry : s₂.entry pd (pdEntry va) = s.pdSlot r va :=
    (slot_of_descend hpd).symm.trans (hother (tablePath_two hva _) (by simp) (by simp))
  have hrun : mapPhysToVirtAddrHh .large s pa va flags (tablePtr .large r) =
      if s.pdSlot r va % 2 = 0 then
        .ok (va, s₂.setEntry pd (pdEntry va) (leafValue pa va flags))
      else .ok (0, s₂) := by
    rw [mapPhysToVirtAddrHh_large tablePtr_isNone hrun₁ hrun₂ load_tablePtr, hentry,
      store_tablePtr, ok_bind]
  by_cases habsent : s.pdSlot r va % 2 = 0
  · rw [if_pos habsent] at hrun
    obtain ⟨hok', hslots⟩ := setEntry_leaf (v := leafValue pa va flags) hok₂ hva hpd
    refine Or.inr ⟨_, hrun, hok', habsent, hstep₂.size.trans hstep₁.size, ?_, ?_, ?_, ?_⟩
    · have hfilled := hstep₁.filled
      rw [← hstep₂.other [] _ (tablePath_nil 2) (by simp)] at hfilled
      rwa [Vm.pml4Slot, Vm.pml4Slot, hslots [] _ (tablePath_nil 2), if_neg (by simp)]
    · have hfilled := hstep₂.filled
      rw [hstep₁.other _ _ (tablePath_one hva) (by simp)] at hfilled
      rwa [Vm.pdprSlot, Vm.pdprSlot, hslots _ _ (tablePath_one hva), if_neg (by simp)]
    · rw [Vm.pdSlot, hslots _ _ (tablePath_two hva _), if_pos ⟨rfl, rfl⟩]
    · intro q j hq hpml4 hpdpr hpd'
      rw [hslots q j hq, if_neg hpd']
      exact hother hq hpml4 hpdpr
  · -- the page is mapped, so both tables were there and nothing was linked
    have hpresent : s.pdSlot r va % 2 = 1 := by omega
    obtain ⟨hpdpr, hpml4⟩ := pdSlot_present hpresent
    obtain rfl := hstep₁.kept hpml4
    obtain rfl := hstep₂.kept hpdpr
    rw [if_neg habsent] at hrun
    exact Or.inl ⟨hpresent, hrun⟩

/-- What a successful unmapping does to the slots. -/
structure Unmapped (s s' : Vm) (r va : Nat) : Prop where
  size  : s'.memorySizeInBytes = s.memorySizeInBytes
  slots : ∀ q j, TablePath 2 q → s'.slot r q j =
    if q = [pml4Entry va, pdprEntry va] ∧ j = pdEntry va then 0 else s.slot r q j

/-- **`unmap_vaddress_hh`.** A page that is not mapped is refused and nothing is
written; otherwise its entry is cleared and no other slot changes. -/
theorem unmapVaddressHh_spec (hok : TreeOk 2 s r) (hva : pml4Entry va ≠ 510) (hnull : va ≠ 0) :
    (s.pdSlot r va % 2 = 0 ∧ unmapVaddressHh .large s va (tablePtr .large r) = .ok (-1, s)) ∨
    ∃ s', s.pdSlot r va % 2 = 1 ∧
      unmapVaddressHh .large s va (tablePtr .large r) = .ok (0, s') ∧
      TreeOk 2 s' r ∧ Unmapped s s' r va := by
  have hargs : ¬ ((tablePtr .large r).isNone = true ∨ va = 0) := by simp [hnull]
  simp only [unmapVaddressHh, load_tablePtr, ok_bind, and_presentBit, entry_root]
  rw [if_neg hargs]
  by_cases hpml4 : s.pml4Slot r va % 2 = 0
  · exact Or.inl ⟨pdSlot_absent (Or.inl hpml4), by rw [if_pos hpml4]⟩
  · rw [if_neg hpml4]
    obtain ⟨pdpr, hptr, hentry, hnext⟩ := follow_two hok hva (by omega)
    simp only [hptr, load_tablePtr, ok_bind, hentry]
    by_cases hpdpr : s.pdprSlot r va % 2 = 0
    · exact Or.inl ⟨pdSlot_absent (Or.inr hpdpr), by rw [if_pos hpdpr]⟩
    · rw [if_neg hpdpr]
      obtain ⟨pd, hptr, hentry, hpd⟩ := hnext (by omega)
      simp only [hptr, load_tablePtr, ok_bind, hentry]
      by_cases hleaf : s.pdSlot r va % 2 = 0
      · exact Or.inl ⟨hleaf, by rw [if_pos hleaf]⟩
      · rw [if_neg hleaf]
        obtain ⟨hok', hslots⟩ := setEntry_leaf (v := 0) hok hva hpd
        exact Or.inr ⟨_, by omega, by rw [store_tablePtr, ok_bind], hok', rfl, hslots⟩

end Large

end Dreamos64
