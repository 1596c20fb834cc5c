import Dreamos64.Arch.Recursive

/-!
# Dreamos64 — the two mappers agree

Both mappers do the same to memory, level by level: they follow a present entry,
or link a new table and blank it. `Vm.ensure` is that effect as a function of the
table's frame. What differs is how a table is reached.

* `translate_table` — the recursive address of a path is translated to the table at
  its end, in every memory in which the entries on the way are there, and for a
  store if they are writable;
* `ensureTable_eq` — so a block of `map_phys_to_virt_addr` is `Vm.ensure`, also
  while it blanks the table it has just linked;
* `tableFor_eq`    — and so is a block of `map_phys_to_virt_addr_hh`;
* `mappers_agree`  — hence the two leave the same memory, for any tables with the
  root's entry 510 in place: nothing is assumed about tables being shared.
-/

namespace Dreamos64

open Machine TableTree

/-! ## Recursive addresses -/

theorem recursiveAddress_eq (a b c d : Fin 512) : recursiveAddress a b c d =
    65535 * 2 ^ 48 + a * 2 ^ 39 + b * 2 ^ 30 + c * 2 ^ 21 + d * 2 ^ 12 := by
  have ha := a.isLt
  have hb := b.isLt
  have hc := c.isLt
  have hd := d.isLt
  -- the five fields occupy different bits, so the ors are sums
  have hcd : c.val <<< 21 ||| d.val <<< 12 = c * 2 ^ 21 + d * 2 ^ 12 := by
    rw [Nat.shiftLeft_eq, Nat.shiftLeft_eq, Nat.mul_comm]
    exact or_low _ 21 _ (by omega)
  have hbcd : b.val <<< 30 ||| (c.val <<< 21 ||| d.val <<< 12) =
      b * 2 ^ 30 + (c * 2 ^ 21 + d * 2 ^ 12) := by
    rw [hcd, Nat.shiftLeft_eq, Nat.mul_comm]
    exact or_low _ 30 _ (by omega)
  have habcd : a.val <<< 39 ||| (b.val <<< 30 ||| (c.val <<< 21 ||| d.val <<< 12)) =
      a * 2 ^ 39 + (b * 2 ^ 30 + (c * 2 ^ 21 + d * 2 ^ 12)) := by
    rw [hbcd, Nat.shiftLeft_eq, Nat.mul_comm]
    exact or_low _ 39 _ (by omega)
  have hsign : signExtension = 2 ^ 48 * 65535 := rfl
  rw [recursiveAddress, entriesToAddress, Nat.or_assoc, Nat.or_assoc, habcd, hsign,
    or_low _ 48 _ (by omega)]
  omega

theorem entryIndex_eq {shift address : Nat} {i : Fin 512} (h : address / 2 ^ shift % 512 = i) :
    entryIndex shift address = i := by
  apply Fin.ext
  rw [← h, ← Nat.shiftRight_eq_div_pow]
  rfl

section Walk

variable {s : Vm} {r : Nat}

/-- One level of the walk through a link. -/
theorem walk_table {address level table next : Nat} {i : Fin 512}
    (hi : entryIndex (12 + 9 * (level + 1)) address = i)
    (h : hwTable (s.entry table i) = some next) :
    walk s address (level + 1) table = (walk s address level next).map fun t =>
      { t with writable := isWritable (s.entry table i) && t.writable } := by
  unfold hwTable at h
  split_ifs at h with hlink
  cases h
  simp only [walk, hi]
  rw [if_neg (by omega), if_neg (by omega)]

/-- The indices of a recursive address, and the offset of the entry in the table. -/
theorem recursiveAddress_indices {a b c d j : Fin 512} {v : Nat}
    (hv : v = recursiveAddress a b c d + 8 * j) :
    entryIndex (12 + 9 * (2 + 1)) v = a ∧ entryIndex (12 + 9 * (1 + 1)) v = b ∧
      entryIndex (12 + 9 * (0 + 1)) v = c ∧ ptEntry v = d ∧ v % 4096 = 8 * j := by
  have ha := a.isLt
  have hb := b.isLt
  have hc := c.isLt
  have hd := d.isLt
  have hj := j.isLt
  rw [recursiveAddress_eq] at hv
  exact ⟨entryIndex_eq (by omega), entryIndex_eq (by omega), entryIndex_eq (by omega),
    entryIndex_eq (by omega), by omega⟩

/-- The way of a recursive address: four entries, all of which must be writable for a store. -/
theorem translate_recursive {a b c d : Fin 512} {t₁ t₂ t₃ : Nat}
    (h₁ : hwTable (s.entry r a) = some t₁) (h₂ : hwTable (s.entry t₁ b) = some t₂)
    (h₃ : hwTable (s.entry t₂ c) = some t₃) (h₄ : s.entry t₃ d % 2 = 1) (j : Fin 512) :
    translate s r (recursiveAddress a b c d + 8 * j) =
      some ⟨4096 * hwFrame (s.entry t₃ d) + 8 * j, isWritable (s.entry r a) &&
        (isWritable (s.entry t₁ b) &&
          (isWritable (s.entry t₂ c) && isWritable (s.entry t₃ d)))⟩ := by
  obtain ⟨v, hv⟩ : ∃ v, v = recursiveAddress a b c d + 8 * j := ⟨_, rfl⟩
  obtain ⟨ha, hb, hc, hpt, hoffset⟩ := recursiveAddress_indices hv
  have hbyte : pageByte 12 (s.entry t₃ d) v = 4096 * hwFrame (s.entry t₃ d) + 8 * j := by
    unfold pageByte hwFrame
    omega
  unfold translate
  rw [← hv, walk_table ha h₁, walk_table hb h₂, walk_table hc h₃]
  simp [walk, hpt, h₄, hbyte]

end Walk

/-! ## The table at the end of a path -/

/-- The recursive address of the table at the end of a path. -/
def tableAddress : List (Fin 512) → Nat
  | [] => recursiveAddress 510 510 510 510
  | [a] => recursiveAddress 510 510 510 a
  | [a, b] => recursiveAddress 510 510 a b
  | a :: b :: c :: _ => recursiveAddress 510 a b c

/-- The table in frame `t` is the root, or what the last entry of the path refers
to. Only the entries before the last one have to be links. -/
def Reached (s : Vm) (r : Nat) (p : List (Fin 512)) (t : Nat) : Prop :=
  (p = [] ∧ t = r) ∨ ∃ q i u, p = q ++ [i] ∧ descend hwTable s.entry r q = some u ∧
    s.entry u i % 2 = 1 ∧ hwFrame (s.entry u i) = t

theorem hwTable_present {value t : Nat} (h : hwTable value = some t) :
    value % 2 = 1 ∧ value / 128 % 2 = 0 ∧ hwFrame value = t := by
  unfold hwTable at h
  split_ifs at h with hlink
  cases h
  exact ⟨hlink.1, hlink.2, rfl⟩

theorem hwTable_zero : hwTable 0 = none := rfl

/-- Entry 510 links the root to itself, and is writable. -/
structure SelfLinked (s : Vm) (r : Nat) : Prop where
  link     : hwTable (s.entry r 510) = some r
  writable : isWritable (s.entry r 510) = true

theorem SelfLinked.congr {s s' : Vm} {r : Nat} (h : SelfLinked s r)
    (heq : s'.entry r 510 = s.entry r 510) : SelfLinked s' r :=
  ⟨heq ▸ h.link, heq ▸ h.writable⟩

/-- All entries of a path from the table in frame `t` are writable. -/
def WritablePath (entry : Nat → Fin 512 → Nat) : Nat → List (Fin 512) → Prop
  | _, [] => True
  | t, i :: p => isWritable (entry t i) = true ∧
      ∀ u, hwTable (entry t i) = some u → WritablePath entry u p

section Reached

variable {s s' : Vm} {r t n user : Nat} {p q : List (Fin 512)} {i j : Fin 512}

theorem reached_of_descend (h : descend hwTable s.entry r p = some t) : Reached s r p t := by
  induction p using List.reverseRecOn with
  | nil => exact Or.inl ⟨rfl, (Option.some.inj h).symm⟩
  | append_singleton q i _ =>
    rw [descend_concat] at h
    obtain ⟨u, hu, h⟩ := Option.bind_eq_some_iff.mp h
    obtain ⟨hpresent, -, hframe⟩ := hwTable_present h
    exact Or.inr ⟨q, i, u, rfl, hu, hpresent, hframe⟩

theorem WritablePath.concat (h : WritablePath s.entry r q)
    (hq : descend hwTable s.entry r q = some t) (hi : isWritable (s.entry t i) = true) :
    WritablePath s.entry r (q ++ [i]) := by
  induction q generalizing r with
  | nil =>
    cases hq
    exact ⟨hi, fun _ _ => trivial⟩
  | cons j q ih =>
    obtain ⟨u, hu, hq⟩ := Option.bind_eq_some_iff.mp hq
    refine ⟨h.1, fun v hv => ?_⟩
    cases hu.symm.trans hv
    exact ih (h.2 u hu) hq

section Table

variable (hself : hwTable (s.entry r 510) = some r) (hp : p.length ≤ 3) (hreach : Reached s r p t)

include hself hp hreach

/-- **Recursive addresses.** With entry 510 in place, the recursive address of a
path leads to the words of the table at its end; to write there, entry 510 and the
entries of the path have to be writable. -/
theorem translate_table (j : Fin 512) :
    ∃ w, translate s r (tableAddress p + 8 * j) = some ⟨4096 * t + 8 * j, w⟩ ∧
      (SelfLinked s r → WritablePath s.entry r p → w = true) := by
  obtain ⟨hpresent, -, hframe⟩ := hwTable_present hself
  rcases hreach with ⟨rfl, rfl⟩ | ⟨q, i, u, rfl, hq, hpres, rfl⟩
  · have hroot := translate_recursive hself hself hself hpresent j
    rw [hframe] at hroot
    exact ⟨_, hroot, fun hlinked _ => by simp [hlinked.writable]⟩
  · rw [List.length_append, List.length_singleton] at hp
    match q, hp, hq with
    | [], _, hq =>
      cases hq
      exact ⟨_, translate_recursive hself hself hself hpres j, fun hlinked hway => by
        simp [hlinked.writable, hway.1]⟩
    | [a], _, hq =>
      obtain ⟨t₁, h₁, hq⟩ := Option.bind_eq_some_iff.mp hq
      cases hq
      exact ⟨_, translate_recursive hself hself h₁ hpres j, fun hlinked hway => by
        simp [hlinked.writable, hway.1, (hway.2 _ h₁).1]⟩
    | [a, b], _, hq =>
      obtain ⟨t₁, h₁, hq⟩ := Option.bind_eq_some_iff.mp hq
      obtain ⟨t₂, h₂, hq⟩ := Option.bind_eq_some_iff.mp hq
      cases hq
      exact ⟨_, translate_recursive hself h₁ h₂ hpres j, fun hlinked hway => by
        simp [hlinked.writable, hway.1, (hway.2 _ h₁).1, ((hway.2 _ h₁).2 _ h₂).1]⟩

theorem loadVirtual_table : loadVirtual s r (tableAddress p) i = .ok (s.entry t i) := by
  obtain ⟨w, htranslate, -⟩ := translate_table hself hp hreach i
  unfold loadVirtual resolve
  rw [htranslate]
  rfl

/-- A store writes the entry, or meets a read-only one on the way. -/
theorem storeVirtual_cases (v : Nat) :
    storeVirtual s r (tableAddress p) i v = .ok (s.setEntry t i v) ∨
      storeVirtual s r (tableAddress p) i v = .error .readOnly := by
  obtain ⟨w, htranslate, -⟩ := translate_table hself hp hreach i
  unfold storeVirtual
  rw [htranslate]
  cases w with
  | true => exact Or.inl rfl
  | false => exact Or.inr rfl

end Table

theorem storeVirtual_table {v : Nat} (hself : SelfLinked s r) (hp : p.length ≤ 3)
    (hreach : Reached s r p t) (hway : WritablePath s.entry r p) :
    storeVirtual s r (tableAddress p) i v = .ok (s.setEntry t i v) := by
  obtain ⟨w, htranslate, hw⟩ := translate_table hself.link hp hreach i
  unfold storeVirtual
  rw [htranslate, hw hself hway]
  rfl

/-- A path is still there, and writable, when no present entry changed, other than in a table
that is not on the way. -/
theorem WritablePath.keeps (h : WritablePath s.entry r q)
    (hq : descend hwTable s.entry r q = some t)
    (hkeep : ∀ u j, u ≠ n → s.entry u j % 2 = 1 → s'.entry u j = s.entry u j)
    (hnew : ∀ p, p.length ≤ q.length → descend hwTable s.entry r p ≠ some n) :
    descend hwTable s'.entry r q = some t ∧ WritablePath s'.entry r q := by
  induction q generalizing r with
  | nil => exact ⟨hq, trivial⟩
  | cons i q ih =>
    obtain ⟨u, hu, hq⟩ := Option.bind_eq_some_iff.mp hq
    have hsame : s'.entry r i = s.entry r i :=
      hkeep r i (fun e => hnew [] (Nat.zero_le _) (e ▸ rfl)) (hwTable_present hu).1
    obtain ⟨hrest, hway⟩ := ih (h.2 u hu) hq fun p hp hto =>
      hnew (i :: p) (Nat.succ_le_succ hp) (by rw [descend, hu]; exact hto)
    refine ⟨by rw [descend, hsame, hu]; exact hrest, hsame ▸ h.1, fun v hv => ?_⟩
    rw [hsame, hu] at hv
    cases hv
    exact hway

/-! ## The effect of a block -/

/-- A table blanked entry by entry. -/
def Vm.clean (s : Vm) (n : Nat) : Vm :=
  (List.finRange vmPagesPerTable).foldl (fun s i => s.setEntry n i 0) s

/-- Entry `i` of table `t` gets a new blank table if it is not present. -/
def Vm.ensure (s : Vm) (t : Nat) (i : Fin 512) (user : Nat) : Vm :=
  if s.entry t i % 2 = 1 then s
  else
    ((newPagetable s).2.setEntry t i (linkValue (newPagetable s).1 user)).clean
      ((newPagetable s).1 / 4096)

/-- Entry `i` of table `t` is written if it is not present. -/
def Vm.ensureValue (s : Vm) (t : Nat) (i : Fin 512) (value : Nat) : Vm :=
  if s.entry t i % 2 = 1 then s else s.setEntry t i value

theorem entry_foldl_setEntry (l : List (Fin 512)) (s : Vm) (n u : Nat) (j : Fin 512) :
    (l.foldl (fun s i => s.setEntry n i 0) s).entry u j =
      if u = n ∧ j ∈ l then 0 else s.entry u j := by
  induction l generalizing s with
  | nil => simp
  | cons i l ih =>
    rw [List.foldl_cons, ih, entry_setEntry]
    by_cases hj : j = i <;> by_cases hu : u = n <;> simp [hj, hu]

theorem entry_clean (s : Vm) (n u : Nat) (j : Fin 512) :
    (s.clean n).entry u j = if u = n then 0 else s.entry u j := by
  unfold Vm.clean
  rw [entry_foldl_setEntry]
  simp only [List.mem_finRange, and_true]

theorem foldl_setEntry_other (l : List (Fin 512)) (s : Vm) (n : Nat) :
    (l.foldl (fun s i => s.setEntry n i 0) s).memorySizeInBytes = s.memorySizeInBytes ∧
      (l.foldl (fun s i => s.setEntry n i 0) s).hhdmPageRootAddress = s.hhdmPageRootAddress ∧
      (l.foldl (fun s i => s.setEntry n i 0) s).freeTables = s.freeTables := by
  induction l generalizing s with
  | nil => exact ⟨rfl, rfl, rfl⟩
  | cons i l ih => exact ih (s.setEntry n i 0)

/-- The first frame of the supply, or NULL. -/
theorem newPagetable_headD (s : Vm) :
    newPagetable s = (s.freeTables.headD 0, { s with freeTables := s.freeTables.tail }) := by
  obtain ⟨memory, size, frames, root⟩ := s
  cases frames with
  | nil => rfl
  | cons frame rest => rfl

theorem newPagetable_cons {a : Nat} {rest : List Nat} (hfree : s.freeTables = a :: rest) :
    newPagetable s = (a, { s with freeTables := rest }) := by
  rw [newPagetable_headD, hfree, List.headD_cons, List.tail_cons]

theorem ensure_present (h : s.entry t i % 2 = 1) : s.ensure t i user = s := if_pos h

theorem ensure_absent {rest : List Nat} (h : s.entry t i % 2 = 0)
    (hfree : s.freeTables = 4096 * n :: rest) : s.ensure t i user =
      (({ s with freeTables := rest } : Vm).setEntry t i (linkValue (4096 * n) user)).clean n := by
  have hdiv : 4096 * n / 4096 = n := Nat.mul_div_cancel_left n (by decide)
  unfold Vm.ensure
  rw [if_neg (by omega), newPagetable_cons hfree, hdiv]

theorem ensure_rest {rest : List Nat} (h : s.entry t i % 2 = 0)
    (hfree : s.freeTables = 4096 * n :: rest) :
    (s.ensure t i user).memorySizeInBytes = s.memorySizeInBytes ∧
      (s.ensure t i user).hhdmPageRootAddress = s.hhdmPageRootAddress ∧
      (s.ensure t i user).freeTables = rest := by
  rw [ensure_absent h hfree]
  exact foldl_setEntry_other _ _ n

/-- The entries after a new table was linked. -/
theorem entry_ensure {rest : List Nat} (h : s.entry t i % 2 = 0)
    (hfree : s.freeTables = 4096 * n :: rest) (u : Nat) (j : Fin 512) :
    (s.ensure t i user).entry u j = if u = n then 0
      else if u = t ∧ j = i then linkValue (4096 * n) user else s.entry u j := by
  rw [ensure_absent h hfree, entry_clean, entry_setEntry]
  rfl

theorem hwTable_linkValue (huser : user = 0 ∨ user = vmmFlagsUserLevel) (hn : n < 2 ^ 40) :
    hwTable (linkValue (4096 * n) user) = some n := by
  obtain ⟨low, hlow, hodd, hvalue⟩ : ∃ low, low < 128 ∧ low % 2 = 1 ∧
      linkValue (4096 * n) user = 4096 * n + low := by
    rcases huser with rfl | rfl
    · exact ⟨_, by decide, by decide, linkValue_eq (by decide)⟩
    · exact ⟨_, by decide, by decide, linkValue_eq (by decide)⟩
  rw [hvalue, hwTable, hwFrame, if_pos (by omega)]
  congr 1
  omega

theorem isWritable_linkValue (newTable user : Nat) :
    isWritable (linkValue newTable user) = true := by
  have hbit : writeBit.testBit 1 = true := by decide
  unfold isWritable linkValue
  rw [Nat.testBit_or, Nat.testBit_or, hbit, Bool.or_true, Bool.true_or]

theorem userModeStatus_cases (va : Nat) :
    userModeStatus va = 0 ∨ userModeStatus va = vmmFlagsUserLevel := by
  unfold userModeStatus
  split
  · exact Or.inl rfl
  · exact Or.inr rfl

/-! ## A block through recursive addresses -/

theorem foldlM_storeVirtual {next : Nat} (l : List (Fin 512))
    (h : ∀ s' : Vm, (∀ u j, u ≠ n → s'.entry u j = s.entry u j) → ∀ i,
      storeVirtual s' r next i 0 = .ok (s'.setEntry n i 0)) :
    l.foldlM (fun s i => storeVirtual s r next i 0) s =
      .ok (l.foldl (fun s i => s.setEntry n i 0) s) := by
  -- the hypothesis is about every state that differs in table `n` only, so it survives each store
  induction l generalizing s with
  | nil => rfl
  | cons i l ih =>
    rw [List.foldlM_cons, h s (fun _ _ _ => rfl) i, ok_bind, List.foldl_cons]
    refine ih fun s' hs' => h s' fun u j hu => ?_
    rw [hs' u j hu, entry_setEntry, if_neg fun e => hu e.1]

/-- The frame `n` comes next, and no path as short as `q` leads to it. -/
def NextFrame (s : Vm) (r n : Nat) (q : List (Fin 512)) : Prop :=
  n < 2 ^ 40 ∧ (∃ rest, s.freeTables = 4096 * n :: rest) ∧
    ∀ p, p.length ≤ q.length → descend hwTable s.entry r p ≠ some n

/-- Writing an absent entry and filling the new table keeps every present entry
elsewhere. -/
theorem keeps_of_absent {v : Nat} (habsent : s.entry t i % 2 = 0)
    (hs' : ∀ u j, u ≠ n → s'.entry u j = if u = t ∧ j = i then v else s.entry u j) (u : Nat)
    (j : Fin 512) (hu : u ≠ n) (hpresent : s.entry u j % 2 = 1) :
    s'.entry u j = s.entry u j := by
  rw [hs' u j hu, if_neg]
  rintro ⟨rfl, rfl⟩
  omega

theorem ensure_keeps (user : Nat) {rest : List Nat} (habsent : s.entry t i % 2 = 0)
    (hfree : s.freeTables = 4096 * n :: rest) (u : Nat) (j : Fin 512) (hu : u ≠ n)
    (hpresent : s.entry u j % 2 = 1) : (s.ensure t i user).entry u j = s.entry u j :=
  keeps_of_absent habsent (fun u j hu => by rw [entry_ensure habsent hfree, if_neg hu]) u j hu
    hpresent

theorem SelfLinked.keeps (h : SelfLinked s r) (hrn : r ≠ n)
    (hkeep : ∀ u j, u ≠ n → s.entry u j % 2 = 1 → s'.entry u j = s.entry u j) :
    SelfLinked s' r :=
  h.congr (hkeep r 510 hrn (hwTable_present h.link).1)

/-- A block of `map_phys_to_virt_addr` at the table of a path. -/
theorem ensureTable_eq (hself : SelfLinked s r) (hq : q.length ≤ 2)
    (ht : descend hwTable s.entry r q = some t) (hway : WritablePath s.entry r q)
    (huser : user = 0 ∨ user = vmmFlagsUserLevel)
    (hsupply : s.entry t i % 2 = 0 → ∃ n, NextFrame s r n q) :
    ensureTable s r (tableAddress q) i (tableAddress (q ++ [i])) user =
      .ok (s.ensure t i user) := by
  unfold ensureTable
  rw [loadVirtual_table hself.link (by omega) (reached_of_descend ht), ok_bind, and_presentBit]
  by_cases habsent : s.entry t i % 2 = 0
  · obtain ⟨n, hn, ⟨rest, hfree⟩, hnew⟩ := hsupply habsent
    have hrn : r ≠ n := fun e => hnew [] (Nat.zero_le _) (e ▸ rfl)
    have htn : t ≠ n := fun e => hnew q le_rfl (e ▸ ht)
    rw [if_pos habsent, newPagetable_cons hfree, ensure_absent habsent hfree]
    -- `s` with a shorter supply has the same entries
    have hstore : storeVirtual { s with freeTables := rest } r (tableAddress q) i
        (linkValue (4096 * n) user) = .ok (({ s with freeTables := rest } : Vm).setEntry t i
          (linkValue (4096 * n) user)) :=
      storeVirtual_table (s := { s with freeTables := rest }) ⟨hself.link, hself.writable⟩
        (by omega) (reached_of_descend ht) hway
    show (storeVirtual { s with freeTables := rest } r (tableAddress q) i
      (linkValue (4096 * n) user) >>= fun s => cleanNewTableVirtual s r _) = _
    rw [hstore, ok_bind]
    refine foldlM_storeVirtual _ fun s' hs' => ?_
    have hentry : ∀ u j, u ≠ n → s'.entry u j =
        if u = t ∧ j = i then linkValue (4096 * n) user else s.entry u j := by
      intro u j hu
      rw [hs' u j hu, entry_setEntry]
      rfl
    have hkeep := keeps_of_absent habsent hentry
    have hlink : s'.entry t i = linkValue (4096 * n) user := by
      rw [hentry t i htn, if_pos ⟨rfl, rfl⟩]
    obtain ⟨hpresent, -, hframe⟩ := hwTable_present (hwTable_linkValue huser hn)
    intro j
    obtain ⟨ht', hway'⟩ := hway.keeps ht hkeep hnew
    exact storeVirtual_table (hself.keeps hrn hkeep) (by simp; omega)
      (Or.inr ⟨q, i, t, rfl, ht', hlink ▸ hpresent, hlink ▸ hframe⟩)
      (hway'.concat ht' (hlink ▸ isWritable_linkValue _ _))
  · rw [if_neg habsent, ensure_present (by omega)]

/-- What a block leaves: entry 510 and the way to the table are still there, and the entry is
present, and writable if it was when it was there. -/
theorem ensure_reached (hself : SelfLinked s r) (ht : descend hwTable s.entry r q = some t)
    (hway : WritablePath s.entry r q) (huser : user = 0 ∨ user = vmmFlagsUserLevel)
    (hwrite : s.entry t i % 2 = 1 → isWritable (s.entry t i) = true)
    (hsupply : s.entry t i % 2 = 0 → ∃ n, NextFrame s r n q) :
    SelfLinked (s.ensure t i user) r ∧
      Reached (s.ensure t i user) r (q ++ [i]) (hwFrame ((s.ensure t i user).entry t i)) ∧
      WritablePath (s.ensure t i user).entry r (q ++ [i]) := by
  by_cases habsent : s.entry t i % 2 = 0
  · obtain ⟨n, hn, ⟨rest, hfree⟩, hnew⟩ := hsupply habsent
    have hrn : r ≠ n := fun e => hnew [] (Nat.zero_le _) (e ▸ rfl)
    have htn : t ≠ n := fun e => hnew q le_rfl (e ▸ ht)
    have hkeep := ensure_keeps user habsent hfree
    have hlink : (s.ensure t i user).entry t i = linkValue (4096 * n) user := by
      rw [entry_ensure habsent hfree, if_neg htn, if_pos ⟨rfl, rfl⟩]
    have hpresent := (hwTable_present (hwTable_linkValue huser hn)).1
    obtain ⟨ht', hway'⟩ := hway.keeps ht hkeep hnew
    exact ⟨hself.keeps hrn hkeep, Or.inr ⟨q, i, t, rfl, ht', hlink ▸ hpresent, rfl⟩,
      hway'.concat ht' (hlink ▸ isWritable_linkValue _ _)⟩
  · rw [ensure_present (by omega)]
    exact ⟨hself, Or.inr ⟨q, i, t, rfl, ht, by omega, rfl⟩, hway.concat ht (hwrite (by omega))⟩

/-- The last step of `map_phys_to_virt_addr`. -/
theorem ensureEntry_eq {v : Nat} (hself : SelfLinked s r) (hp : p.length ≤ 3)
    (hreach : Reached s r p t) (hway : WritablePath s.entry r p) :
    ensureEntry s r (tableAddress p) i v = .ok (s.ensureValue t i v) := by
  unfold ensureEntry Vm.ensureValue
  rw [loadVirtual_table hself.link hp hreach, ok_bind, and_presentBit,
    storeVirtual_table hself hp hreach hway]
  by_cases habsent : s.entry t i % 2 = 0
  · rw [if_pos habsent, if_neg (by omega)]
  · rw [if_neg habsent, if_pos (by omega)]

/-! ## A block through the direct map -/

theorem cleanNewTable_eq (m : PageMode) (s : Vm) (n : Nat) :
    cleanNewTable m s (tablePtr m n) = .ok (s.clean n) := by
  unfold cleanNewTable Vm.clean
  generalize List.finRange vmPagesPerTable = l
  induction l generalizing s with
  | nil => rfl
  | cons i l ih => rw [List.foldlM_cons, store_tablePtr, ok_bind, ih, List.foldl_cons]

/-- The code's mask keeps 40 bits of an address and the processor 52: for a frame in memory
it makes no difference. -/
theorem hwFrame_below {value : Nat} (hlimit : s.memorySizeInBytes ≤ 2 ^ 40)
    (hlt : 4096 * hwFrame value < s.memorySizeInBytes) : value / 4096 % 2 ^ 28 = hwFrame value := by
  unfold hwFrame at hlt ⊢
  omega

theorem hhdmGetVariable_hwFrame {m : PageMode} {value : Nat}
    (hlimit : s.memorySizeInBytes ≤ 2 ^ 40) (hlt : 4096 * hwFrame value < s.memorySizeInBytes) :
    hhdmGetVariable m s (value &&& vmPageTableBaseAddressMask) = tablePtr m (hwFrame value) := by
  rw [and_mask, hwFrame_below hlimit hlt, hhdmGetVariable_table hlt]

/-- A block of `map_phys_to_virt_addr_hh`. -/
theorem tableFor_eq {m : PageMode} (hlimit : s.memorySizeInBytes ≤ 2 ^ 40)
    (hbelow : s.entry t i % 2 = 1 → 4096 * hwFrame (s.entry t i) < s.memorySizeInBytes)
    (huser : user = 0 ∨ user = vmmFlagsUserLevel)
    (hsupply : s.entry t i % 2 = 0 → ∃ n rest, s.freeTables = 4096 * n :: rest ∧
      4096 * n < s.memorySizeInBytes ∧ t ≠ n) :
    tableFor m s (tablePtr m t) i user =
      .ok (tablePtr m (hwFrame ((s.ensure t i user).entry t i)), s.ensure t i user) := by
  unfold tableFor
  rw [load_tablePtr, ok_bind, and_presentBit]
  by_cases habsent : s.entry t i % 2 = 0
  · obtain ⟨n, rest, hfree, hlt, htn⟩ := hsupply habsent
    have hframe : hwFrame ((s.ensure t i user).entry t i) = n := by
      rw [entry_ensure habsent hfree, if_neg htn, if_pos ⟨rfl, rfl⟩]
      exact (hwTable_present (hwTable_linkValue huser (by omega))).2.2
    rw [hframe, if_pos habsent, newPagetable_cons hfree, ensure_absent habsent hfree]
    dsimp only
    rw [store_tablePtr, ok_bind, hhdmGetVariable_table (m := m) (n := n) (by exact hlt),
      cleanNewTable_eq, ok_bind]
    rfl
  · rw [if_neg habsent, ensure_present (by omega),
      hhdmGetVariable_hwFrame hlimit (hbelow (by omega))]

end Reached

/-! ## Agreement -/

/-- The frames of the tables of the 2 MiB build: the root, and what the present
entries of the root and of the tables it links refer to. -/
def IsPageTable (s : Vm) (r n : Nat) : Prop :=
  ∃ p : List (Fin 512), p.length ≤ 2 ∧ Reached s r p n

/-- A root with its entry 510 in place and writable, all tables below
`memory_size_in_bytes`, and a supply of fresh frames below it. Bit 7 of a root entry is
reserved. -/
structure RecursiveTables (s : Vm) (r : Nat) : Prop where
  self     : SelfLinked s r
  reserved : ∀ i, s.entry r i % 2 = 1 → s.entry r i / 128 % 2 = 0
  limit    : s.memorySizeInBytes ≤ 2 ^ 40
  below    : ∀ n, IsPageTable s r n → 4096 * n < s.memorySizeInBytes
  nodup    : s.freeTables.Nodup
  fresh    : ∀ t ∈ s.freeTables, ∃ n, t = 4096 * n ∧ t < s.memorySizeInBytes ∧
    ¬ IsPageTable s r n

/-- The tables on the way to the page of `va` that are not there yet. -/
def tablesMissing (s : Vm) (r va : Nat) : Nat :=
  if s.entry r (pml4Entry va) % 2 = 0 then 2
  else if s.entry (hwFrame (s.entry r (pml4Entry va))) (pdprEntry va) % 2 = 0 then 1
  else 0

/-- The entries on the way to the page of `va` are writable, as far as they are there. -/
structure WritableWay (s : Vm) (r va : Nat) : Prop where
  pml4 : s.entry r (pml4Entry va) % 2 = 1 → isWritable (s.entry r (pml4Entry va)) = true
  pdpr : s.entry r (pml4Entry va) % 2 = 1 →
    s.entry (hwFrame (s.entry r (pml4Entry va))) (pdprEntry va) % 2 = 1 →
    isWritable (s.entry (hwFrame (s.entry r (pml4Entry va))) (pdprEntry va)) = true

section Agreement

variable {s : Vm} {r va user : Nat} {rest : List Nat}

/-- The first frame of the supply is new to every short path. -/
theorem RecursiveTables.next {a : Nat} (h : RecursiveTables s r)
    (hfree : s.freeTables = a :: rest) (q : List (Fin 512)) (hq : q.length ≤ 1) :
    ∃ n, a = 4096 * n ∧ NextFrame s r n q ∧ 4096 * n < s.memorySizeInBytes := by
  obtain ⟨n, rfl, hlt, hnew⟩ := h.fresh a (by simp [hfree])
  have hlimit := h.limit
  refine ⟨n, rfl, ⟨by omega, ⟨rest, hfree⟩, fun p hp hdesc => ?_⟩, hlt⟩
  exact hnew ⟨p, by omega, reached_of_descend hdesc⟩

/-- What both mappers leave in the 2 MiB build. -/
def Vm.mapPage (s : Vm) (r pa va flags : Nat) : Vm :=
  let s₁ := s.ensure r (pml4Entry va) (userModeStatus va)
  let t₁ := hwFrame (s₁.entry r (pml4Entry va))
  let s₂ := s₁.ensure t₁ (pdprEntry va) (userModeStatus va)
  let t₂ := hwFrame (s₂.entry t₁ (pdprEntry va))
  s₂.ensureValue t₂ (pdEntry va) (leafValue pa va flags)

theorem mapPhysToVirtAddr_eq_large (s : Vm) (r pa va flags : Nat) :
    mapPhysToVirtAddr .large s r pa va flags = (do
      let s ← ensureTable s r (tableAddress []) (pml4Entry va) (tableAddress [pml4Entry va])
        (userModeStatus va)
      let s ← ensureTable s r (tableAddress [pml4Entry va]) (pdprEntry va)
        (tableAddress [pml4Entry va, pdprEntry va]) (userModeStatus va)
      let s ← ensureEntry s r (tableAddress [pml4Entry va, pdprEntry va]) (pdEntry va)
        (leafValue pa va flags)
      .ok (va, s)) := rfl

variable (h : RecursiveTables s r) (hsupply : tablesMissing s r va ≤ s.freeTables.length)

include h hsupply

/-- A block at the root. -/
theorem RecursiveTables.first (habsent : s.entry r (pml4Entry va) % 2 = 0) :
    ∃ n, NextFrame s r n [] ∧ 4096 * n < s.memorySizeInBytes := by
  unfold tablesMissing at hsupply
  rw [if_pos habsent] at hsupply
  cases hfree : s.freeTables with
  | nil => simp [hfree] at hsupply
  | cons a rest =>
    obtain ⟨n, -, hnext, hlt⟩ := h.next hfree [] (by simp)
    exact ⟨n, hnext, hlt⟩

/-- The table behind the root's entry after its block. -/
theorem RecursiveTables.descend_first (huser : user = 0 ∨ user = vmmFlagsUserLevel) :
    descend hwTable (s.ensure r (pml4Entry va) user).entry r [pml4Entry va] =
      some (hwFrame ((s.ensure r (pml4Entry va) user).entry r (pml4Entry va))) := by
  obtain ⟨v, hv⟩ : ∃ v, v = (s.ensure r (pml4Entry va) user).entry r (pml4Entry va) := ⟨_, rfl⟩
  have hlink : hwTable v = some (hwFrame v) := by
    by_cases habsent : s.entry r (pml4Entry va) % 2 = 0
    · obtain ⟨n, ⟨hn, ⟨rest, hfree⟩, hnew⟩, -⟩ := h.first hsupply habsent
      have hrn : r ≠ n := fun e => hnew [] le_rfl (e ▸ rfl)
      rw [entry_ensure habsent hfree, if_neg hrn, if_pos ⟨rfl, rfl⟩] at hv
      have htable := hwTable_linkValue huser hn
      rw [hv, htable, (hwTable_present htable).2.2]
    · rw [ensure_present (by omega)] at hv
      rw [hv, hwTable, if_pos ⟨by omega, h.reserved _ (by omega)⟩]
  rw [← hv]
  show (hwTable ((s.ensure r (pml4Entry va) user).entry r (pml4Entry va))).bind some = _
  rw [← hv, hlink, Option.bind_some]

/-- The block at the second level finds its table below `memory_size_in_bytes`, or
a frame that is new. -/
theorem RecursiveTables.second (huser : user = 0 ∨ user = vmmFlagsUserLevel) {s₁ : Vm} {t₁ : Nat}
    (hs₁ : s₁ = s.ensure r (pml4Entry va) user) (ht₁ : t₁ = hwFrame (s₁.entry r (pml4Entry va))) :
    s₁.memorySizeInBytes = s.memorySizeInBytes ∧
    (s₁.entry t₁ (pdprEntry va) % 2 = 1 →
      4096 * hwFrame (s₁.entry t₁ (pdprEntry va)) < s.memorySizeInBytes) ∧
    (s₁.entry t₁ (pdprEntry va) % 2 = 0 →
      ∃ n, NextFrame s₁ r n [pml4Entry va] ∧ 4096 * n < s.memorySizeInBytes) ∧
    (WritableWay s r va → s₁.entry t₁ (pdprEntry va) % 2 = 1 →
      isWritable (s₁.entry t₁ (pdprEntry va)) = true) := by
  have hdesc := h.descend_first hsupply huser
  rw [← hs₁, ← ht₁] at hdesc
  by_cases habsent : s.entry r (pml4Entry va) % 2 = 0
  · -- a new table, which is blank
    obtain ⟨n, ⟨hn, ⟨rest, hfree⟩, hnew⟩, hlt⟩ := h.first hsupply habsent
    have hrn : r ≠ n := fun e => hnew [] le_rfl (e ▸ rfl)
    have hentry : ∀ u j, s₁.entry u j = if u = n then 0
        else if u = r ∧ j = pml4Entry va then linkValue (4096 * n) user else s.entry u j := by
      intro u j
      rw [hs₁]
      exact entry_ensure habsent hfree u j
    have htable : t₁ = n := by
      rw [ht₁, hentry, if_neg hrn, if_pos ⟨rfl, rfl⟩]
      exact (hwTable_present (hwTable_linkValue huser hn)).2.2
    obtain ⟨hsize, -, hrest⟩ : s₁.memorySizeInBytes = s.memorySizeInBytes ∧
        s₁.hhdmPageRootAddress = s.hhdmPageRootAddress ∧ s₁.freeTables = rest :=
      hs₁ ▸ ensure_rest habsent hfree
    have hblank : s₁.entry t₁ (pdprEntry va) = 0 := by rw [hentry, if_pos htable]
    rw [hblank]
    refine ⟨hsize, fun hpresent => absurd hpresent (by decide), fun _ => ?_,
      fun _ hpresent => absurd hpresent (by decide)⟩
    · -- the frame after it
      unfold tablesMissing at hsupply
      rw [if_pos habsent, hfree] at hsupply
      cases hrest' : rest with
      | nil => simp [hrest'] at hsupply
      | cons a rest' =>
        obtain ⟨n', rfl, hlt', hfresh⟩ := h.fresh a (by simp [hfree, hrest'])
        have hne : n ≠ n' := by
          have hnodup := h.nodup
          rw [hfree, hrest', List.nodup_cons] at hnodup
          rintro rfl
          exact hnodup.1 List.mem_cons_self
        have hlimit := h.limit
        refine ⟨n', ⟨by omega, ⟨rest', hrest.trans hrest'⟩, fun p hp hto => ?_⟩, hlt'⟩
        match p, hp with
        | [], _ => exact hfresh ⟨[], by simp, Or.inl ⟨rfl, (Option.some.inj hto).symm⟩⟩
        | [j], _ =>
          by_cases hj : j = pml4Entry va
          · rw [hj, hdesc, htable] at hto
            exact hne (Option.some.inj hto)
          · have hsame : descend hwTable s.entry r [j] = some n' := by
              rw [← hto]
              simp only [descend, hentry, if_neg hrn, hj, and_false, if_false]
            exact hfresh ⟨[j], by simp, reached_of_descend hsame⟩
  · have hsame : s₁ = s := by rw [hs₁, ensure_present (by omega)]
    rw [hsame] at hdesc ht₁ ⊢
    refine ⟨rfl, fun hpresent => ?_, fun hmissing => ?_, fun hway hpresent => ?_⟩
    · exact h.below _ ⟨[pml4Entry va, pdprEntry va], by simp, Or.inr ⟨[pml4Entry va], pdprEntry va,
        t₁, rfl, hdesc, hpresent, rfl⟩⟩
    · unfold tablesMissing at hsupply
      rw [if_neg habsent, ← ht₁, if_pos hmissing] at hsupply
      cases hfree : s.freeTables with
      | nil => simp [hfree] at hsupply
      | cons a rest =>
        obtain ⟨n, -, hnext, hlt⟩ := h.next hfree [pml4Entry va] (by simp)
        exact ⟨n, hnext, hlt⟩
    · rw [ht₁] at hpresent ⊢
      exact hway.pdpr (by omega) hpresent

theorem mapPhysToVirtAddr_mapPage (hway : WritableWay s r va) (pa flags : Nat) :
    mapPhysToVirtAddr .large s r pa va flags = .ok (va, s.mapPage r pa va flags) := by
  have huser := userModeStatus_cases va
  have hfirst : s.entry r (pml4Entry va) % 2 = 0 → ∃ n, NextFrame s r n [] := fun habsent =>
    (h.first hsupply habsent).imp fun _ hn => hn.1
  have hdesc₁ := h.descend_first hsupply huser
  obtain ⟨hself₁, -, hway₁⟩ := ensure_reached (q := []) h.self rfl trivial huser hway.pml4 hfirst
  obtain ⟨s₁, hs₁⟩ : ∃ s₁, s₁ = s.ensure r (pml4Entry va) (userModeStatus va) := ⟨_, rfl⟩
  obtain ⟨t₁, ht₁⟩ : ∃ t₁, t₁ = hwFrame (s₁.entry r (pml4Entry va)) := ⟨_, rfl⟩
  rw [← hs₁] at hdesc₁ hself₁ hway₁
  rw [← ht₁] at hdesc₁
  obtain ⟨-, -, hsecond, hwrite⟩ := h.second hsupply huser hs₁ ht₁
  have hsecond' : s₁.entry t₁ (pdprEntry va) % 2 = 0 → ∃ n, NextFrame s₁ r n [pml4Entry va] :=
    fun habsent => (hsecond habsent).imp fun _ hn => hn.1
  obtain ⟨hself₂, hreach₂, hway₂⟩ :=
    ensure_reached hself₁ hdesc₁ hway₁ huser (hwrite hway) hsecond'
  have hrun₁ : ensureTable s r (tableAddress []) (pml4Entry va) (tableAddress [pml4Entry va])
      (userModeStatus va) = .ok s₁ :=
    hs₁ ▸ ensureTable_eq (q := []) h.self (by simp) rfl trivial huser hfirst
  have hrun₂ : ensureTable s₁ r (tableAddress [pml4Entry va]) (pdprEntry va)
      (tableAddress [pml4Entry va, pdprEntry va]) (userModeStatus va) =
        .ok (s₁.ensure t₁ (pdprEntry va) (userModeStatus va)) :=
    ensureTable_eq hself₁ (by simp) hdesc₁ hway₁ huser hsecond'
  rw [mapPhysToVirtAddr_eq_large, hrun₁, ok_bind, hrun₂, ok_bind,
    ensureEntry_eq (p := [pml4Entry va, pdprEntry va]) hself₂ (by simp) hreach₂ hway₂, ok_bind]
  unfold Vm.mapPage
  rw [← hs₁]
  dsimp only
  rw [← ht₁]

theorem mapPhysToVirtAddrHh_mapPage (pa flags : Nat) :
    ∃ ret, mapPhysToVirtAddrHh .large s pa va flags (tablePtr .large r) =
      .ok (ret, s.mapPage r pa va flags) := by
  have huser := userModeStatus_cases va
  obtain ⟨s₁, hs₁⟩ : ∃ s₁, s₁ = s.ensure r (pml4Entry va) (userModeStatus va) := ⟨_, rfl⟩
  obtain ⟨t₁, ht₁⟩ : ∃ t₁, t₁ = hwFrame (s₁.entry r (pml4Entry va)) := ⟨_, rfl⟩
  obtain ⟨hsize, hbelow, hsecond, -⟩ := h.second hsupply huser hs₁ ht₁
  have hrun₁ : tableFor .large s (tablePtr .large r) (pml4Entry va) (userModeStatus va) =
      .ok (tablePtr .large t₁, s₁) := by
    rw [ht₁, hs₁]
    refine tableFor_eq h.limit (fun hpresent => ?_) huser fun habsent => ?_
    · exact h.below _ ⟨[pml4Entry va], by simp, Or.inr ⟨[], _, r, rfl, rfl, hpresent, rfl⟩⟩
    · obtain ⟨n, ⟨-, ⟨rest, hfree⟩, hnew⟩, hlt⟩ := h.first hsupply habsent
      exact ⟨n, rest, hfree, hlt, fun e => hnew [] le_rfl (e ▸ rfl)⟩
  have hrun₂ := tableFor_eq (m := .large) (hsize.trans_le h.limit)
    (fun hpresent => hsize.symm ▸ hbelow hpresent) huser fun habsent => by
      obtain ⟨n, ⟨-, ⟨rest, hfree⟩, hnew⟩, hlt⟩ := hsecond habsent
      have hdesc := h.descend_first hsupply huser
      rw [← hs₁, ← ht₁] at hdesc
      exact ⟨n, rest, hfree, hsize.symm ▸ hlt, fun e => hnew [pml4Entry va] le_rfl (e ▸ hdesc)⟩
  have hrun : mapPhysToVirtAddrHh .large s pa va flags (tablePtr .large r) = _ :=
    mapPhysToVirtAddrHh_large tablePtr_isNone hrun₁ hrun₂ load_tablePtr
  unfold Vm.mapPage Vm.ensureValue
  rw [← hs₁]
  dsimp only
  rw [← ht₁, hrun, store_tablePtr, ok_bind]
  split_ifs with habsent hpresent hpresent
  · omega
  · exact ⟨va, rfl⟩
  · exact ⟨0, rfl⟩
  · omega

end Agreement

/-- **The two mappers agree.** In the 2 MiB build they return, have taken the same
frames and leave the same memory, if the entries on the way are writable. -/
theorem mappers_agree (s : Vm) (r pa va flags : Nat) (h : RecursiveTables s r)
    (hway : WritableWay s r va) (hsupply : tablesMissing s r va ≤ s.freeTables.length) :
    ∃ s' ret, mapPhysToVirtAddr .large s r pa va flags = .ok (va, s') ∧
      mapPhysToVirtAddrHh .large s pa va flags (tablePtr .large r) = .ok (ret, s') := by
  obtain ⟨ret, hret⟩ := mapPhysToVirtAddrHh_mapPage h hsupply pa flags
  exact ⟨_, ret, mapPhysToVirtAddr_mapPage h hsupply hway pa flags, hret⟩

/-- A root in frame 1 that holds nothing but its entry 510, and two free frames. -/
def recursiveSpace : Vm where
  memory              := fun a => if a = 4096 + 8 * 510 then 0x1003 else 0
  memorySizeInBytes   := 2 ^ 30
  freeTables          := [0x2000, 0x3000]
  hhdmPageRootAddress := none

theorem recursiveSpace_entry (n : Nat) (i : Fin 512) :
    recursiveSpace.entry n i = if n = 1 ∧ i = 510 then 0x1003 else 0 := by
  have hi := i.isLt
  have haddr : 4096 * n + 8 * i.val = 4096 + 8 * 510 ↔ n = 1 ∧ i = 510 := by
    rw [Fin.ext_iff]
    show _ ↔ n = 1 ∧ i.val = 510
    omega
  simp only [Vm.entry, recursiveSpace, haddr]

/-- A present entry links frame 1 or frame 4. -/
def LinksLow (value : Nat) : Prop :=
  value % 2 = 1 → value / 128 % 2 = 0 ∧ (hwFrame value = 1 ∨ hwFrame value = 4)

theorem recursiveSpace_links (n : Nat) (i : Fin 512) : LinksLow (recursiveSpace.entry n i) := by
  rw [recursiveSpace_entry]
  split_ifs
  · exact fun _ => by decide
  · exact fun h => nomatch h

/-- Two free frames, and no table but frames 1 and 4. -/
theorem recursiveTables_of_links {s : Vm} (hself : SelfLinked s 1)
    (hlinks : ∀ n i, LinksLow (s.entry n i)) (hsize : s.memorySizeInBytes = 2 ^ 30)
    (hfree : s.freeTables = [0x2000, 0x3000]) : RecursiveTables s 1 := by
  have htable : ∀ n, IsPageTable s 1 n → n = 1 ∨ n = 4 := by
    rintro n ⟨p, -, ⟨-, hroot⟩ | ⟨q, i, u, -, -, hpresent, rfl⟩⟩
    · exact Or.inl hroot
    · exact (hlinks u i hpresent).2
  refine ⟨hself, fun i h => (hlinks 1 i h).1, hsize ▸ by decide, fun n hn => ?_, hfree ▸ by decide,
    fun t ht => ?_⟩
  · have := htable n hn
    omega
  · refine ⟨t / 4096, ?_, ?_, fun hn => ?_⟩
    all_goals
      simp only [hfree, List.mem_cons, List.not_mem_nil, or_false] at ht
    · omega
    · omega
    · have := htable _ hn
      omega

theorem recursiveSpace_descend {p : List (Fin 512)} {t : Nat} (hp : p.head? ≠ some 510)
    (h : descend hwTable recursiveSpace.entry 1 p = some t) : p = [] ∧ t = 1 := by
  cases p with
  | nil => exact ⟨rfl, (Option.some.inj h).symm⟩
  | cons i p =>
    have hi : i ≠ 510 := fun e => hp (congrArg some e)
    rw [descend, recursiveSpace_entry, if_neg (fun hat => hi hat.2), hwTable_zero] at h
    cases h

theorem recursiveSpace_tables : RecursiveTables recursiveSpace 1 :=
  recursiveTables_of_links ⟨by decide, by decide⟩ recursiveSpace_links rfl rfl

theorem mappers_agree_recursiveSpace :
    tablesMissing recursiveSpace 1 0xFFFF800280200000 = 2 ∧
    ∃ s' ret, mapPhysToVirtAddr .large recursiveSpace 1 0x200000 0xFFFF800280200000 3 =
        .ok (0xFFFF800280200000, s') ∧
      mapPhysToVirtAddrHh .large recursiveSpace 0x200000 0xFFFF800280200000 3
        (tablePtr .large 1) = .ok (ret, s') := by
  have hmissing : tablesMissing recursiveSpace 1 0xFFFF800280200000 = 2 := by
    unfold tablesMissing
    rw [recursiveSpace_entry]
    decide
  have habsent : recursiveSpace.entry 1 (pml4Entry 0xFFFF800280200000) % 2 = 0 := by
    rw [recursiveSpace_entry]
    decide
  refine ⟨hmissing, mappers_agree recursiveSpace 1 _ _ _ recursiveSpace_tables
    ⟨fun h => by omega, fun h => by omega⟩ ?_⟩
  rw [hmissing]
  decide

/-- The root of `recursiveSpace`, with links to the table in frame 4 in entries 0
and 256, the second of which is that of the direct map. -/
def linkedSpace (lower window : Nat) : Vm :=
  { recursiveSpace with
    memory := fun a =>
      if a = 4096 then lower else if a = 4096 + 8 * 256 then window else recursiveSpace.memory a }

theorem linkedSpace_entry (lower window n : Nat) (i : Fin 512) :
    (linkedSpace lower window).entry n i =
      if n = 1 ∧ i = 0 then lower else if n = 1 ∧ i = 256 then window
      else recursiveSpace.entry n i := by
  have hi := i.isLt
  have hlower : 4096 * n + 8 * i.val = 4096 ↔ n = 1 ∧ i = 0 := by
    rw [Fin.ext_iff]
    show _ ↔ n = 1 ∧ i.val = 0
    omega
  have hwindow : 4096 * n + 8 * i.val = 4096 + 8 * 256 ↔ n = 1 ∧ i = 256 := by
    rw [Fin.ext_iff]
    show _ ↔ n = 1 ∧ i.val = 256
    omega
  simp only [Vm.entry, linkedSpace, hlower, hwindow]

theorem linkedSpace_tables {lower window : Nat} (hlower : LinksLow lower)
    (hwindow : LinksLow window) : RecursiveTables (linkedSpace lower window) 1 := by
  have hentry := linkedSpace_entry lower window
  refine recursiveTables_of_links (recursiveSpace_tables.self.congr ?_) (fun n i => ?_) rfl rfl
  · rw [hentry, if_neg (by decide), if_neg (by decide)]
  · rw [hentry]
    split_ifs
    · exact hlower
    · exact hwindow
    · exact recursiveSpace_links n i

/-- Behind a link without `WRITE_BIT`, `map_phys_to_virt_addr` cannot store the entry that is
missing, and `map_phys_to_virt_addr_hh` can. -/
theorem mappers_differ_read_only :
    RecursiveTables (linkedSpace 0x4003 0x4001) 1 ∧
    tablesMissing (linkedSpace 0x4003 0x4001) 1 0xFFFF800280200000 = 1 ∧
    mapPhysToVirtAddr .large (linkedSpace 0x4003 0x4001) 1 0x200000 0xFFFF800280200000 3 =
      .error .readOnly ∧
    ∃ ret s', mapPhysToVirtAddrHh .large (linkedSpace 0x4003 0x4001) 0x200000 0xFFFF800280200000 3
      (tablePtr .large 1) = .ok (ret, s') := by
  have htables : RecursiveTables (linkedSpace 0x4003 0x4001) 1 :=
    linkedSpace_tables (fun _ => by decide) fun _ => by decide
  have hmissing : tablesMissing (linkedSpace 0x4003 0x4001) 1 0xFFFF800280200000 = 1 := by
    decide +kernel
  obtain ⟨ret, hret⟩ := mapPhysToVirtAddrHh_mapPage htables
    (by rw [hmissing]; decide : tablesMissing _ 1 0xFFFF800280200000 ≤ _) 0x200000 3
  exact ⟨htables, hmissing, by decide +kernel, ret, _, hret⟩

end Dreamos64
