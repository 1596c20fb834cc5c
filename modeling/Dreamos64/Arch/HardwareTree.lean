import Dreamos64.Arch.MapperAgreement

/-!
# Dreamos64 — mapping a page, seen by the processor

The processor's walk sees the tables of a root as a tree too, but not the one of
`PageTree`: an entry with bit 7 is a page and leads nowhere, and a table may be
anywhere in memory. Both page sizes are treated at once: `pathTo a d` is the path
of an address to its table at depth `d`, and the entry that maps a page is the
one at depth `pageDepth m`.

`map_phys_to_virt_addr` edits only tables that its page's path leads to. `Owned`
says of a set of such paths what makes these edits local: no other path leads to
these tables, and the entries on the way are writable links.

* `walkFrom_at`, `Extended.translate_eq` — the walk reads slots, and does not see new links;
* `Confined` — outside these tables and the supply of frames nothing changes;
* `ensure_blockStep`, `ensureValue_spec` — a block of the mapper, and its last step;
* `mapPage_spec` — what mapping a page does, by either mapper: the slots on its way,
  and its own if that was not present;
* `RootOk.map`, `RootOk.same` — a root whose tables are all in order stays so;
* `translate_mapped` — the page is then translated to its frame;
* `translate_other`  — and every other address as before.
-/

namespace Dreamos64

open Machine TableTree

/-! ## Paths of an address -/

/-- The index of an address in its table at depth `d`; the root is at depth 0. -/
def indexAt (a d : Nat) : Fin 512 := entryIndex (39 - 9 * d) a

/-- The path of an address to its table at depth `d`. -/
def pathTo (a : Nat) : Nat → List (Fin 512)
  | 0 => []
  | d + 1 => pathTo a d ++ [indexAt a d]

/-- The depth of the entries that map pages. -/
def pageDepth : PageMode → Nat
  | .large => 2
  | .small => 3

theorem pageDepth_le (m : PageMode) : pageDepth m ≤ 3 := by
  cases m <;> decide

@[simp] theorem length_pathTo (a d : Nat) : (pathTo a d).length = d := by
  induction d with
  | zero => rfl
  | succ d ih => rw [pathTo, List.length_append, ih, List.length_singleton]

theorem pathTo_length_eq {a b d e : Nat} (h : pathTo a d = pathTo b e) : d = e := by
  have hlen := congrArg List.length h
  rwa [length_pathTo, length_pathTo] at hlen

theorem head_pathTo (a d : Nat) : (pathTo a (d + 1)).head? = some (indexAt a 0) := by
  induction d with
  | zero => rfl
  | succ d ih => rw [pathTo, List.head?_append, ih, Option.some_or]

theorem tablePath_pathTo {a d n : Nat} (hd : d ≤ n) (ha : indexAt a 0 ≠ 510) :
    TablePath n (pathTo a d) := by
  refine ⟨by rw [length_pathTo]; exact hd, ?_⟩
  cases d with
  | zero => simp [pathTo]
  | succ d =>
    rw [head_pathTo]
    exact fun h => ha (Option.some.inj h)

/-! ## The walk along a path -/

/-- Entry `i` of the table at a path, as the processor follows it. -/
def Vm.hwSlot (s : Vm) (r : Nat) : List (Fin 512) → Fin 512 → Nat :=
  TableTree.slot hwTable 0 s.entry r

section Walk

variable {s s' : Vm} {r a t u d : Nat}

/-- A level of the walk, by the depth of its table. -/
theorem walk_at (hd : d ≤ 2) (s : Vm) (a t : Nat) :
    walk s a (3 - d) t =
      if s.entry t (indexAt a d) % 2 = 0 then none
      else if s.entry t (indexAt a d) / 128 % 2 = 1 then
        if d = 0 then none
        else some ⟨pageByte (39 - 9 * d) (s.entry t (indexAt a d)) a,
          isWritable (s.entry t (indexAt a d))⟩
      else (walk s a (3 - (d + 1)) (hwFrame (s.entry t (indexAt a d)))).map fun x =>
        { x with writable := isWritable (s.entry t (indexAt a d)) && x.writable } := by
  obtain ⟨k, hk, hd'⟩ : ∃ k, 3 - d = k + 1 ∧ 3 - (d + 1) = k := ⟨2 - d, by omega, by omega⟩
  have hshift : 12 + 9 * (k + 1) = 39 - 9 * d := by omega
  have hroot : k = 2 ↔ d = 0 := by omega
  rw [hk, hd']
  simp only [walk, hshift, hroot]
  rfl

/-- The walk of an address from its table at depth `d` on, if that table is there. -/
def walkFrom (s : Vm) (r a d : Nat) : Option Translation :=
  (descend hwTable s.entry r (pathTo a d)).bind (walk s a (3 - d))

/-- **The walk reads slots**: where there is no table, the slot is 0 and not present. -/
theorem walkFrom_at (hd : d ≤ 2) (s : Vm) (r a : Nat) :
    walkFrom s r a d =
      if s.hwSlot r (pathTo a d) (indexAt a d) % 2 = 0 then none
      else if s.hwSlot r (pathTo a d) (indexAt a d) / 128 % 2 = 1 then
        if d = 0 then none
        else some ⟨pageByte (39 - 9 * d) (s.hwSlot r (pathTo a d) (indexAt a d)) a,
          isWritable (s.hwSlot r (pathTo a d) (indexAt a d))⟩
      else (walkFrom s r a (d + 1)).map fun x =>
        { x with writable := isWritable (s.hwSlot r (pathTo a d) (indexAt a d)) &&
          x.writable } := by
  unfold walkFrom Vm.hwSlot
  cases ht : descend hwTable s.entry r (pathTo a d) with
  | none =>
    rw [slot_of_none ht]
    rfl
  | some t =>
    rw [slot_of_descend ht, Option.bind_some, walk_at hd]
    split_ifs with hpresent hpage hroot
    · rfl
    · rfl
    · rfl
    · rw [pathTo, descend_concat, ht, Option.bind_some, hwTable, if_pos ⟨by omega, by omega⟩,
        Option.bind_some]

theorem walkFrom_three (s : Vm) (r a : Nat) :
    walkFrom s r a 3 =
      if s.hwSlot r (pathTo a 3) (indexAt a 3) % 2 = 0 then none
      else some ⟨pageByte 12 (s.hwSlot r (pathTo a 3) (indexAt a 3)) a,
        isWritable (s.hwSlot r (pathTo a 3) (indexAt a 3))⟩ := by
  unfold walkFrom Vm.hwSlot
  cases ht : descend hwTable s.entry r (pathTo a 3) with
  | none =>
    rw [slot_of_none ht]
    rfl
  | some t =>
    rw [slot_of_descend ht]
    rfl

theorem walkFrom_absent (hd : d ≤ 3) (h : s.hwSlot r (pathTo a d) (indexAt a d) % 2 = 0) :
    walkFrom s r a d = none := by
  rcases Nat.lt_or_eq_of_le hd with hlt | rfl
  · rw [walkFrom_at (Nat.le_of_lt_succ hlt), if_pos h]
  · rw [walkFrom_three, if_pos h]

theorem walkFrom_link (hd : d ≤ 2) (h : hwTable (s.hwSlot r (pathTo a d) (indexAt a d)) = some u) :
    walkFrom s r a d = (walkFrom s r a (d + 1)).map fun x =>
      { x with writable := isWritable (s.hwSlot r (pathTo a d) (indexAt a d)) && x.writable } := by
  obtain ⟨hpresent, hlink, -⟩ := hwTable_present h
  rw [walkFrom_at hd, if_neg (by omega), if_neg (by omega)]

section

variable (ht : descend hwTable s.entry r (pathTo a d) = some t)

include ht

theorem descend_pathTo_succ :
    descend hwTable s.entry r (pathTo a (d + 1)) = hwTable (s.entry t (indexAt a d)) := by
  rw [pathTo, descend_concat, ht, Option.bind_some]

theorem descend_initial {e : Nat} (he : e ≤ d) :
    ∃ u, descend hwTable s.entry r (pathTo a e) = some u := by
  induction d generalizing t with
  | zero => exact ⟨t, by rwa [Nat.le_zero.mp he]⟩
  | succ d ih =>
    rcases Nat.lt_or_eq_of_le he with he | rfl
    · rw [pathTo, descend_concat] at ht
      obtain ⟨u, hu, -⟩ := Option.bind_eq_some_iff.mp ht
      exact ih hu (Nat.le_of_lt_succ he)
    · exact ⟨t, ht⟩

/-- On the way to a table there are links. -/
theorem link_initial {e : Nat} (he : e < d) :
    ∃ u, hwTable (s.hwSlot r (pathTo a e) (indexAt a e)) = some u := by
  obtain ⟨u, hu⟩ := descend_initial ht (Nat.succ_le_of_lt he)
  rw [pathTo, descend_slot hwTable_zero] at hu
  exact ⟨u, hu⟩

end

/-- Through links that are all writable the walk goes to the table of the path. -/
theorem translate_pathTo (hd : d ≤ 3) (ht : descend hwTable s.entry r (pathTo a d) = some t)
    (hwrite : ∀ e < d, isWritable (s.hwSlot r (pathTo a e) (indexAt a e)) = true) :
    translate s r a = walkFrom s r a d := by
  -- down the path: writable links leave the accumulated rights as they are
  induction d generalizing t with
  | zero => rfl
  | succ d ih =>
    obtain ⟨u, hu⟩ := descend_initial ht (Nat.le_succ d)
    obtain ⟨v, hv⟩ := link_initial ht (Nat.lt_succ_self d)
    rw [ih (by omega) hu fun e he => hwrite e (by omega), walkFrom_link (by omega) hv,
      hwrite d (Nat.lt_succ_self d)]
    simp only [Bool.true_and, Option.map_id']

/-- What may happen to the slots on the way of an address without changing its
translation: an entry that was not present may have become a link, if it is not
the last one. -/
def Extended (s s' : Vm) (r a : Nat) : Prop :=
  ∀ d ≤ 3, s'.hwSlot r (pathTo a d) (indexAt a d) = s.hwSlot r (pathTo a d) (indexAt a d) ∨
    d ≤ 2 ∧ s.hwSlot r (pathTo a d) (indexAt a d) % 2 = 0 ∧
      (hwTable (s'.hwSlot r (pathTo a d) (indexAt a d))).isSome = true

/-- **Such changes are invisible** to the walk of the address. -/
theorem Extended.walkFrom_eq (h : Extended s s' r a) {n : Nat} (hd : d + n = 3) :
    walkFrom s' r a d = walkFrom s r a d := by
  -- on the levels that are left: the slot is the same, or a link where there was nothing
  induction n generalizing d with
  | zero =>
    obtain rfl : d = 3 := hd
    have hsame := (h 3 le_rfl).resolve_right fun hlink => by omega
    rw [walkFrom_three, walkFrom_three, hsame]
  | succ n ih =>
    have hd2 : d ≤ 2 := by omega
    have hnext : walkFrom s' r a (d + 1) = walkFrom s r a (d + 1) := ih (by omega)
    rcases h d (by omega) with hsame | ⟨-, habsent, hlink⟩
    · rw [walkFrom_at hd2 s', walkFrom_at hd2 s, hsame, hnext]
    · -- behind the new link there is nothing, as there was no table before
      obtain ⟨u, hu⟩ := Option.isSome_iff_exists.mp hlink
      have hnone : descend hwTable s.entry r (pathTo a (d + 1)) = none := by
        rw [pathTo, descend_slot hwTable_zero]
        exact if_neg fun hpresent => absurd (habsent.symm.trans hpresent.1) (by decide)
      rw [walkFrom_link hd2 hu, hnext, walkFrom_absent (by omega) habsent, walkFrom, hnone]
      rfl

theorem Extended.translate_eq (h : Extended s s' r a) : translate s' r a = translate s r a :=
  h.walkFrom_eq (Nat.zero_add 3)

end Walk

/-! ## Tables in order -/

/-- Entry 510 is in place and writable, and the frames that `pmm_prepare_new_pagetable`
has left are aligned, distinct, and no tables of the root. -/
structure HwTables (s : Vm) (r : Nat) : Prop where
  self  : SelfLinked s r
  nodup : s.freeTables.Nodup
  fresh : ∀ t ∈ s.freeTables, ∃ n, t = 4096 * n ∧ n < 2 ^ 40 ∧
    ¬ IsTable hwTable s.entry r (TablePath 3) n

/-- A set of table paths that contains the way to each of its members. -/
structure Region (Own : List (Fin 512) → Prop) : Prop where
  closed : Closed Own
  paths  : ∀ p, Own p → TablePath 3 p

/-- The tables at the paths of a region, as far as they are there, are reached by
these paths only, and the entries on the way to them are writable links. -/
structure Owned (Own : List (Fin 512) → Prop) (s : Vm) (r : Nat) : Prop where
  sole  : ∀ p, Own p → Sole hwTable s.entry r (TablePath 3) p
  links : ∀ p i, Own (p ++ [i]) → s.hwSlot r p i % 2 = 1 →
    (hwTable (s.hwSlot r p i)).isSome = true ∧ isWritable (s.hwSlot r p i) = true

/-- The direct map reaches the tables of the root and the frames for new ones, and
an entry's mask does not cut off their addresses. -/
structure Below (s : Vm) (r : Nat) : Prop where
  limit  : s.memorySizeInBytes ≤ 2 ^ 40
  tables : ∀ n, IsTable hwTable s.entry r (TablePath 3) n → 4096 * n < s.memorySizeInBytes
  supply : ∀ t ∈ s.freeTables, t < s.memorySizeInBytes

/-- What changes is confined to the tables of the root and the frames of the
supply, and no present entry is among it. -/
structure Confined (s s' : Vm) (r : Nat) : Prop where
  size    : s'.memorySizeInBytes = s.memorySizeInBytes
  pointer : s'.hhdmPageRootAddress = s.hhdmPageRootAddress
  supply  : s'.freeTables <:+ s.freeTables
  frame   : ∀ u, ¬ IsTable hwTable s.entry r (TablePath 3) u → 4096 * u ∉ s.freeTables →
    ∀ j, s'.entry u j = s.entry u j
  keeps   : ∀ u j, 4096 * u ∉ s.freeTables → s.entry u j % 2 = 1 → s'.entry u j = s.entry u j
  tables  : ∀ u, IsTable hwTable s'.entry r (TablePath 3) u →
    IsTable hwTable s.entry r (TablePath 3) u ∨ 4096 * u ∈ s.freeTables

theorem Confined.refl (s : Vm) (r : Nat) : Confined s s r :=
  ⟨rfl, rfl, List.suffix_rfl, fun _ _ _ _ => rfl, fun _ _ _ _ => rfl, fun _ h => Or.inl h⟩

theorem Confined.trans {s s' s'' : Vm} {r : Nat} (h : Confined s s' r) (h' : Confined s' s'' r) :
    Confined s s'' r where
  size := h'.size.trans h.size
  pointer := h'.pointer.trans h.pointer
  supply := h'.supply.trans h.supply
  frame := fun u htable hfree j => by
    -- `u` has not become a table in between: new tables come out of the supply
    have htable' : ¬ IsTable hwTable s'.entry r (TablePath 3) u := fun hu =>
      (h.tables u hu).elim htable hfree
    rw [h'.frame u htable' (fun hmem => hfree (h.supply.subset hmem)) j, h.frame u htable hfree j]
  keeps := fun u j hfree hpresent => by
    have hfirst := h.keeps u j hfree hpresent
    rw [h'.keeps u j (fun hmem => hfree (h.supply.subset hmem)) (hfirst ▸ hpresent), hfirst]
  tables := fun u hu => by
    rcases h'.tables u hu with hu | hu
    · exact h.tables u hu
    · exact Or.inr (h.supply.subset hu)

theorem Below.step {s s' : Vm} {r : Nat} (h : Below s r) (hc : Confined s s' r) : Below s' r where
  limit := hc.size ▸ h.limit
  tables := fun n hn => by
    rw [hc.size]
    rcases hc.tables n hn with hold | hnew
    · exact h.tables n hold
    · exact h.supply _ hnew
  supply := fun t ht => by
    rw [hc.size]
    exact h.supply t (hc.supply.subset ht)

theorem Owned.mono {Own Own' : List (Fin 512) → Prop} {s : Vm} {r : Nat} (h : Owned Own s r)
    (hsub : ∀ p, Own' p → Own p) : Owned Own' s r :=
  ⟨fun p hp => h.sole p (hsub p hp), fun p i hp => h.links p i (hsub _ hp)⟩

section Tables

variable {s s' : Vm} {r t n user : Nat} {p : List (Fin 512)} {i : Fin 512}
  {Own : List (Fin 512) → Prop}

/-- Entry 510 leads around in a circle, so it leads to no further tables. -/
theorem HwTables.isTable (h : HwTables s r) (hp : p.length ≤ 3)
    (hdesc : descend hwTable s.entry r p = some t) :
    IsTable hwTable s.entry r (TablePath 3) t := by
  induction p with
  | nil => exact ⟨[], tablePath_nil 3, hdesc⟩
  | cons i p ih =>
    by_cases hi : i = 510
    · have hcircle : descend hwTable s.entry r (i :: p) = descend hwTable s.entry r p := by
        rw [hi, descend, h.self.link, Option.bind_some]
      exact ih (Nat.le_of_succ_le hp) (hcircle ▸ hdesc)
    · exact ⟨i :: p, ⟨hp, fun e => hi (Option.some.inj e)⟩, hdesc⟩

/-- The next frame of the supply. -/
theorem HwTables.next (h : HwTables s r) (hsupply : s.freeTables ≠ []) :
    ∃ n rest, s.freeTables = 4096 * n :: rest ∧ n < 2 ^ 40 ∧
      ¬ IsTable hwTable s.entry r (TablePath 3) n ∧
      ∀ q : List (Fin 512), q.length ≤ 3 → NextFrame s r n q := by
  obtain ⟨a, rest, hfree⟩ := List.exists_cons_of_ne_nil hsupply
  obtain ⟨n, rfl, hn, hnew⟩ := h.fresh a (by simp [hfree])
  refine ⟨n, rest, hfree, hn, hnew, fun q hq => ⟨hn, ⟨rest, hfree⟩, fun p hp hdesc => ?_⟩⟩
  exact hnew (h.isTable (hp.trans hq) hdesc)

theorem HwTables.not_free (h : HwTables s r) (ht : IsTable hwTable s.entry r (TablePath 3) t) :
    4096 * t ∉ s.freeTables := by
  intro hfree
  obtain ⟨n, hn, -, hnew⟩ := h.fresh _ hfree
  obtain rfl : t = n := by omega
  exact hnew ht

theorem Owned.follow (h : Owned Own s r) (hp : Own (p ++ [i]))
    (ht : descend hwTable s.entry r p = some t) (hpresent : s.entry t i % 2 = 1) :
    ∃ n, hwTable (s.entry t i) = some n := by
  have hslot : s.hwSlot r p i = s.entry t i := slot_of_descend ht
  obtain ⟨hlink, -⟩ := h.links p i hp (hslot ▸ hpresent)
  rw [hslot] at hlink
  exact Option.isSome_iff_exists.mp hlink

/-- The way to a table of a region is writable. -/
theorem Owned.writablePath (h : Owned Own s r) (hclosed : Closed Own) (hp : Own p)
    (ht : descend hwTable s.entry r p = some t) : WritablePath s.entry r p := by
  induction p using List.reverseRecOn generalizing t with
  | nil => trivial
  | append_singleton q i ih =>
    rw [descend_concat] at ht
    obtain ⟨u, hu, hlink⟩ := Option.bind_eq_some_iff.mp ht
    have hslot : s.hwSlot r q i = s.entry u i := slot_of_descend hu
    obtain ⟨-, hwrite⟩ := h.links q i hp (hslot ▸ (hwTable_present hlink).1)
    exact (ih (hclosed q i hp) hu).concat hu (hslot ▸ hwrite)

/-- A new table, in terms of the tree. -/
theorem links_ensure {rest : List Nat} (habsent : s.entry t i % 2 = 0)
    (hfree : s.freeTables = 4096 * n :: rest) (hn : n < 2 ^ 40) (htn : t ≠ n)
    (huser : user = 0 ∨ user = vmmFlagsUserLevel) :
    Links hwTable 0 s.entry (s.ensure t i user).entry t i n (linkValue (4096 * n) user) where
  here := by rw [entry_ensure habsent hfree, if_neg htn, if_pos ⟨rfl, rfl⟩]
  below := hwTable_linkValue huser hn
  blank := fun j => by rw [entry_ensure habsent hfree, if_pos rfl]
  other := fun u j hu hne => by rw [entry_ensure habsent hfree, if_neg hu, if_neg hne]

/-- What a block of the mappers does at entry `i` of the table `t` at path `p`. -/
structure BlockStep (Own : List (Fin 512) → Prop) (s s' : Vm) (r : Nat) (p : List (Fin 512))
    (i : Fin 512) (t : Nat) : Prop where
  tables   : HwTables s' r
  owned    : Owned Own s' r
  confined : Confined s s' r
  there    : descend hwTable s'.entry r (p ++ [i]) = some (hwFrame (s'.entry t i))
  supply   : s.freeTables.length ≤ s'.freeTables.length + 1
  kept     : s.hwSlot r p i % 2 = 1 → s' = s
  slots    : ∀ q j, TablePath 3 q → s'.hwSlot r q j = s.hwSlot r q j ∨
    (q = p ∧ j = i) ∧ s.hwSlot r q j % 2 = 0 ∧ (hwTable (s'.hwSlot r q j)).isSome = true

theorem ensureValue_freeTables (s : Vm) (t : Nat) (i : Fin 512) (v : Nat) :
    (s.ensureValue t i v).freeTables = s.freeTables := by
  unfold Vm.ensureValue
  split_ifs <;> rfl

variable (hreg : Region Own) (hok : HwTables s r) (hown : Owned Own s r)

include hreg hok hown

/-- **A block of the mappers** follows a link of the region, or makes one. -/
theorem ensure_blockStep (hp : Own (p ++ [i])) (ht : descend hwTable s.entry r p = some t)
    (huser : user = 0 ∨ user = vmmFlagsUserLevel)
    (hsupply : s.hwSlot r p i % 2 = 0 → s.freeTables ≠ []) :
    BlockStep Own s (s.ensure t i user) r p i t := by
  have hslot : s.hwSlot r p i = s.entry t i := slot_of_descend ht
  by_cases habsent : s.entry t i % 2 = 0
  · obtain ⟨n, rest, hfree, hn, hnew, hnext⟩ := hok.next (hsupply (hslot ▸ habsent))
    have hPp := hreg.paths _ (hreg.closed p i hp)
    have htn : t ≠ n := fun e => hnew ⟨p, hPp, e ▸ ht⟩
    have hl : Links hwTable 0 s.entry (s.ensure t i user).entry t i n _ :=
      links_ensure habsent hfree hn htn huser
    have hsole := hown.sole p (hreg.closed p i hp)
    have hnone : hwTable (s.entry t i) = none := if_neg (by omega)
    have hc := tablePath_closed 3
    have hslots : ∀ q j, TablePath 3 q → (s.ensure t i user).hwSlot r q j =
        if q = p ∧ j = i then linkValue (4096 * n) user else s.hwSlot r q j := fun q j hq =>
      slot_link hwTable_zero hc hsole ht hnone hnew hl hq
    have htables : ∀ u, IsTable hwTable (s.ensure t i user).entry r (TablePath 3) u →
        u = n ∨ IsTable hwTable s.entry r (TablePath 3) u := fun u hu =>
      isTable_link hwTable_zero hc hsole ht hnone hnew hl hu
    have hself : SelfLinked (s.ensure t i user) r :=
      hok.self.keeps (fun e => hnew ⟨[], tablePath_nil 3, e ▸ rfl⟩) (ensure_keeps _ habsent hfree)
    obtain ⟨hsize, hpointer, hrest⟩ : (s.ensure t i user).memorySizeInBytes = _ ∧
        (s.ensure t i user).hhdmPageRootAddress = _ ∧ (s.ensure t i user).freeTables = rest :=
      ensure_rest habsent hfree
    have hnodup := hok.nodup
    rw [hfree, List.nodup_cons] at hnodup
    have hmem : 4096 * n ∈ s.freeTables := by simp [hfree]
    refine ⟨⟨hself, hrest ▸ hnodup.2, ?_⟩, ⟨?_, ?_⟩, ⟨hsize, hpointer, ?_, ?_, ?_, ?_⟩, ?_, ?_,
      fun hpresent => ?_, ?_⟩
    · -- the frames that are left are still fresh
      intro t' ht'
      rw [hrest] at ht'
      obtain ⟨n', rfl, hn', hnew'⟩ := hok.fresh t' (by simp [hfree, ht'])
      refine ⟨n', rfl, hn', fun htable => ?_⟩
      rcases htables n' htable with rfl | hold
      · exact hnodup.1 ht'
      · exact hnew' hold
    · intro p' hp'
      exact Sole.link hwTable_zero hc hsole ht hnone hnew hl (hreg.paths p' hp')
        (Or.inr (hown.sole p' hp'))
    · intro q j hq hpresent
      rw [hslots q j (hreg.paths _ (hreg.closed q j hq))] at hpresent ⊢
      split_ifs at hpresent ⊢
      · rw [hwTable_linkValue huser hn]
        exact ⟨rfl, isWritable_linkValue _ _⟩
      · exact hown.links q j hq hpresent
    · rw [hrest, hfree]
      exact List.suffix_cons _ _
    · intro u htable hout j
      have hun : u ≠ n := fun e => hout (e ▸ hmem)
      have hut : ¬ (u = t ∧ j = i) := fun e => htable ⟨p, hPp, e.1 ▸ ht⟩
      rw [entry_ensure habsent hfree, if_neg hun, if_neg hut]
    · intro u j hout hpresent
      have hun : u ≠ n := fun e => hout (e ▸ hmem)
      have hut : ¬ (u = t ∧ j = i) := by
        rintro ⟨rfl, rfl⟩
        omega
      rw [entry_ensure habsent hfree, if_neg hun, if_neg hut]
    · intro u hu
      exact (htables u hu).symm.imp_right fun e : u = n => e ▸ hmem
    · have hframe : hwFrame ((s.ensure t i user).entry t i) = n := by
        rw [hl.here]
        exact (hwTable_present hl.below).2.2
      rw [hframe]
      exact (descend_link hwTable_zero hc hsole ht hnone hnew hl (hreg.paths _ hp)).1 rfl
    · rw [hrest, hfree, List.length_cons]
    · rw [hslot] at hpresent
      omega
    · intro q j hq
      rw [hslots q j hq]
      split_ifs with hat
      · obtain ⟨rfl, rfl⟩ := hat
        rw [hslot, hwTable_linkValue huser hn]
        exact Or.inr ⟨⟨rfl, rfl⟩, habsent, rfl⟩
      · exact Or.inl rfl
  · have hpresent : s.entry t i % 2 = 1 := by omega
    rw [ensure_present hpresent]
    obtain ⟨n, hn⟩ := hown.follow hp ht hpresent
    refine ⟨hok, hown, Confined.refl s r, ?_, Nat.le_succ _, fun _ => rfl, fun q j _ => Or.inl rfl⟩
    rw [descend_concat, ht, Option.bind_some, hn, (hwTable_present hn).2.2]

/-- The block of `map_phys_to_virt_addr_hh` reaches the table too. -/
theorem tableFor_block {m : PageMode} (hbelow : Below s r) (hp : Own (p ++ [i]))
    (ht : descend hwTable s.entry r p = some t) (huser : user = 0 ∨ user = vmmFlagsUserLevel)
    (hsupply : s.hwSlot r p i % 2 = 0 → s.freeTables ≠ []) :
    tableFor m s (tablePtr m t) i user =
      .ok (tablePtr m (hwFrame ((s.ensure t i user).entry t i)), s.ensure t i user) := by
  have hslot : s.hwSlot r p i = s.entry t i := slot_of_descend ht
  refine tableFor_eq hbelow.limit (fun hpresent => ?_) huser fun habsent => ?_
  · obtain ⟨n, hn⟩ := hown.follow hp ht hpresent
    rw [(hwTable_present hn).2.2]
    refine hbelow.tables n ⟨p ++ [i], hreg.paths _ hp, ?_⟩
    rw [descend_concat, ht, Option.bind_some, hn]
  · obtain ⟨n, rest, hfree, -, hnew, -⟩ := hok.next (hsupply (hslot ▸ habsent))
    have htn : t ≠ n := fun e => hnew ⟨p, hreg.paths _ (hreg.closed p i hp), e ▸ ht⟩
    exact ⟨n, rest, hfree, hbelow.supply _ (by simp [hfree]), htn⟩

/-- And so does that of `map_phys_to_virt_addr`. -/
theorem ensureTable_block (hp : Own (p ++ [i])) (ht : descend hwTable s.entry r p = some t)
    (huser : user = 0 ∨ user = vmmFlagsUserLevel)
    (hsupply : s.hwSlot r p i % 2 = 0 → s.freeTables ≠ []) :
    ensureTable s r (tableAddress p) i (tableAddress (p ++ [i])) user =
      .ok (s.ensure t i user) := by
  have hslot : s.hwSlot r p i = s.entry t i := slot_of_descend ht
  have hlen := (hreg.paths _ hp).1
  rw [List.length_append, List.length_singleton] at hlen
  refine ensureTable_eq hok.self (by omega) ht
    (hown.writablePath hreg.closed (hreg.closed p i hp) ht) huser fun habsent => ?_
  obtain ⟨n, -, -, -, -, hnext⟩ := hok.next (hsupply (hslot ▸ habsent))
  exact ⟨n, hnext p (by omega)⟩

/-- **The last step of the mappers** writes the slot of a page if it is not
present; where a table could hang from that slot, the new entry is a page too. -/
theorem ensureValue_spec {v : Nat} (hp : Own p) (hleaf : ¬ Own (p ++ [i]))
    (ht : descend hwTable s.entry r p = some t)
    (hpage : p.length ≤ 2 → hwTable v = none) :
    HwTables (s.ensureValue t i v) r ∧ Owned Own (s.ensureValue t i v) r ∧
    Confined s (s.ensureValue t i v) r ∧
    (∀ q, TablePath 3 q → descend hwTable (s.ensureValue t i v).entry r q =
      descend hwTable s.entry r q) ∧
    ∀ q j, TablePath 3 q → (s.ensureValue t i v).hwSlot r q j =
      if q = p ∧ j = i ∧ s.hwSlot r p i % 2 = 0 then v else s.hwSlot r q j := by
  have hslot : s.hwSlot r p i = s.entry t i := slot_of_descend ht
  by_cases hpresent : s.entry t i % 2 = 1
  · have hvalue : s.ensureValue t i v = s := if_pos hpresent
    rw [hvalue]
    refine ⟨hok, hown, Confined.refl s r, fun _ _ => rfl, fun q j _ => ?_⟩
    rw [if_neg fun hat => by
      rw [hslot] at hat
      omega]
  have habsent : s.entry t i % 2 = 0 := by omega
  have hvalue : s.ensureValue t i v = s.setEntry t i v := if_neg hpresent
  rw [hvalue]
  have hw : Writes s.entry (s.setEntry t i v).entry t i v :=
    ⟨by rw [entry_setEntry, if_pos ⟨rfl, rfl⟩], fun u j h => by rw [entry_setEntry, if_neg h]⟩
  have hnone : hwTable (s.entry t i) = none := if_neg (by omega)
  have hrim : TablePath 3 (p ++ [i]) → hwTable v = hwTable (s.entry t i) := by
    rintro ⟨hlen, -⟩
    rw [List.length_append, List.length_singleton] at hlen
    rw [hpage (by omega), hnone]
  have hc := tablePath_closed 3
  have hsole := hown.sole p hp
  have hslots : ∀ q j, TablePath 3 q → (s.setEntry t i v).hwSlot r q j =
      if q = p ∧ j = i then v else s.hwSlot r q j := fun q j hq => slot_write hc hsole ht hrim hw hq
  refine ⟨⟨?_, hok.nodup, ?_⟩, ⟨?_, ?_⟩, ⟨rfl, rfl, List.suffix_rfl, ?_, ?_, ?_⟩,
    fun q hq => descend_write hc hsole ht hrim hw hq, ?_⟩
  · -- the slot that was written was not present, so it is not the root's entry 510
    refine hok.self.congr ?_
    rw [entry_setEntry, if_neg]
    rintro ⟨rfl, rfl⟩
    rw [hok.self.link] at hnone
    cases hnone
  · intro t' ht'
    obtain ⟨n, rfl, hn, hnew⟩ := hok.fresh t' ht'
    exact ⟨n, rfl, hn, fun h => hnew (isTable_write hc hsole ht hrim hw h)⟩
  · intro p' hp'
    exact Sole.write hc hsole ht hrim hw (hreg.paths p' hp') (hown.sole p' hp')
  · intro q j hq hpresent
    have hne : ¬ (q = p ∧ j = i) := by
      rintro ⟨rfl, rfl⟩
      exact hleaf hq
    rw [hslots q j (hreg.paths _ (hreg.closed q j hq)), if_neg hne] at hpresent ⊢
    exact hown.links q j hq hpresent
  · intro u htable _ j
    have hut : ¬ (u = t ∧ j = i) := fun e => htable ⟨p, hreg.paths p hp, e.1 ▸ ht⟩
    rw [entry_setEntry, if_neg hut]
  · intro u j _ hpresent
    rw [entry_setEntry, if_neg]
    rintro ⟨rfl, rfl⟩
    omega
  · exact fun u hu => Or.inl (isTable_write hc hsole ht hrim hw hu)
  · intro q j hq
    rw [hslots q j hq, hslot]
    simp only [habsent, and_true]

end Tables

/-! ## Mapping a page -/

/-- The entry that maps a page. -/
def pageValue (m : PageMode) (pa va flags : Nat) : Nat :=
  match m with
  | .large => leafValue pa va flags
  | .small => pa ||| if isAddressHigherHalf va then flags else flags ||| vmmFlagsUserLevel

/-- A 2 MiB page is no link, whatever its flags are. -/
theorem hwTable_pageValue (pa va flags : Nat) : hwTable (pageValue .large pa va flags) = none := by
  have hbit : (pageValue .large pa va flags).testBit 7 = true := by
    have hhuge : hugepageBit.testBit 7 = true := by decide
    simp only [pageValue, leafValue, Nat.testBit_or, hhuge, Bool.or_true, Bool.true_or]
  rw [Nat.testBit_eq_decide_div_mod_eq, decide_eq_true_iff] at hbit
  exact if_neg (by omega)

theorem pageValue_present {m : PageMode} (pa va : Nat) {flags : Nat} (hflags : flags % 2 = 1) :
    pageValue m pa va flags % 2 = 1 := by
  have hbit : flags.testBit 0 = true := by
    rw [Nat.testBit_zero, decide_eq_true_iff]
    exact hflags
  have hvalue : (pageValue m pa va flags).testBit 0 = true := by
    unfold pageValue leafValue
    cases m <;> split_ifs <;> simp only [Nat.testBit_or, hbit, Bool.or_true, Bool.true_or]
  rwa [Nat.testBit_zero, decide_eq_true_iff] at hvalue

/-- A 2 MiB page is marked as one. -/
theorem pageValue_huge (pa va flags : Nat) : pageValue .large pa va flags / 128 % 2 = 1 := by
  have hhuge : hugepageBit.testBit 7 = true := by decide
  have hbit : (pageValue .large pa va flags).testBit 7 = true := by
    simp only [pageValue, leafValue, Nat.testBit_or, hhuge, Bool.or_true, Bool.true_or]
  rwa [Nat.testBit_eq_decide_div_mod_eq, decide_eq_true_iff] at hbit

theorem hwFrame_or (v w : Nat) : hwFrame (v ||| w) = hwFrame v ||| hwFrame w := by
  apply Nat.eq_of_testBit_eq
  intro i
  simp only [hwFrame, show 4096 = 2 ^ 12 from rfl, Nat.testBit_or, Nat.testBit_mod_two_pow,
    Nat.testBit_div_two_pow, Bool.and_or_distrib_left]

theorem hwFrame_and (v w : Nat) : hwFrame (v &&& w) = hwFrame v &&& hwFrame w := by
  apply Nat.eq_of_testBit_eq
  intro i
  simp only [hwFrame, show 4096 = 2 ^ 12 from rfl, Nat.testBit_and, Nat.testBit_mod_two_pow,
    Nat.testBit_div_two_pow]
  cases decide (i < 40) <;> simp

/-- The user bit is no bit of an address. -/
theorem hwFrame_userFlags (address : Nat) {flags : Nat} (hflags : hwFrame flags = 0) :
    hwFrame (if isAddressHigherHalf address then flags else flags ||| vmmFlagsUserLevel) = 0 := by
  have huser : hwFrame vmmFlagsUserLevel = 0 := rfl
  split_ifs
  · exact hflags
  · rw [hwFrame_or, hflags, huser, Nat.or_zero]

/-- Flags without address bits leave the frame alone. -/
theorem hwFrame_pageValue (m : PageMode) (pa va : Nat) {flags : Nat} (hflags : hwFrame flags = 0) :
    hwFrame (pageValue m pa va flags) = hwFrame pa := by
  have hhuge : hwFrame hugepageBit = 0 := rfl
  have hmode : hwFrame (userModeStatus va) = 0 := by
    rcases userModeStatus_cases va with h | h <;> rw [h] <;> rfl
  have hboth := hwFrame_userFlags va hflags
  cases m with
  | large => simp only [pageValue, leafValue, hwFrame_or, hhuge, hboth, hmode, Nat.or_zero]
  | small => simp only [pageValue, hwFrame_or, hboth, Nat.or_zero]

/-- A page with such flags is at the frame of its address, whose lower bits do not count. -/
theorem pageByte_pageValue_frame {m : PageMode} {pa va flags : Nat} (hpa : pa < 2 ^ 52)
    (hflags : hwFrame flags = 0) (v : Nat) :
    pageByte (39 - 9 * pageDepth m) (pageValue m pa va flags) v =
      pa / pageSizeInBytes m * pageSizeInBytes m + v % pageSizeInBytes m := by
  have hframe := hwFrame_pageValue m pa va hflags
  generalize pageValue m pa va flags = value at hframe ⊢
  unfold hwFrame at hframe
  cases m with
  | large =>
    show 2 ^ 21 * (value / 2 ^ 21 % 2 ^ 31) + v % 2 ^ 21 = pa / 2 ^ 21 * 2 ^ 21 + v % 2 ^ 21
    omega
  | small =>
    show 2 ^ 12 * (value / 2 ^ 12 % 2 ^ 40) + v % 2 ^ 12 = pa / 2 ^ 12 * 2 ^ 12 + v % 2 ^ 12
    omega

theorem pageByte_pageValue {m : PageMode} {pa va flags : Nat}
    (haligned : pa % pageSizeInBytes m = 0) (hpa : pa < 2 ^ 52) (hflags : hwFrame flags = 0)
    (v : Nat) :
    pageByte (39 - 9 * pageDepth m) (pageValue m pa va flags) v = pa + v % pageSizeInBytes m := by
  rw [pageByte_pageValue_frame hpa hflags, Nat.div_mul_cancel (Nat.dvd_of_mod_eq_zero haligned)]

/-- A block of `map_phys_to_virt_addr`, by its depth. -/
def ensureAt (s : Vm) (r va d : Nat) : Exec Vm :=
  ensureTable s r (tableAddress (pathTo va d)) (indexAt va d) (tableAddress (pathTo va (d + 1)))
    (userModeStatus va)

/-- Its first `d` blocks. -/
def ensurePath (s : Vm) (r va : Nat) : Nat → Exec Vm
  | 0 => .ok s
  | d + 1 => do
    let s ← ensurePath s r va d
    ensureAt s r va d

/-- `map_phys_to_virt_addr`, block by block. -/
theorem mapPhysToVirtAddr_eq (m : PageMode) (s : Vm) (r pa va flags : Nat) :
    mapPhysToVirtAddr m s r pa va flags = (do
      let s ← ensurePath s r va (pageDepth m)
      let s ← ensureEntry s r (tableAddress (pathTo va (pageDepth m)))
        (indexAt va (pageDepth m)) (pageValue m pa va flags)
      .ok (va, s)) := by
  cases m with
  | large =>
    simp only [pageDepth, ensurePath, ok_bind, bind_assoc]
    rfl
  | small =>
    simp only [pageDepth, ensurePath, ok_bind, bind_assoc]
    rfl

/-- The first `d` blocks of `map_phys_to_virt_addr_hh`. -/
def hhPath (m : PageMode) (s : Vm) (root : Option Nat) (va : Nat) : Nat → Exec (Option Nat × Vm)
  | 0 => .ok (root, s)
  | d + 1 => do
    let (table, s) ← hhPath m s root va d
    tableFor m s table (indexAt va d) (userModeStatus va)

/-- Its last step. -/
def hhEntry (m : PageMode) (s : Vm) (table : Option Nat) (pa va flags : Nat) : Exec (Nat × Vm) := do
  let value ← load m s table (indexAt va (pageDepth m))
  if value &&& presentBit = 0 then
    let s ← store m s table (indexAt va (pageDepth m)) (pageValue m pa va flags)
    .ok (va, s)
  else .ok (0, s)

/-- `map_phys_to_virt_addr_hh`, block by block. -/
theorem mapPhysToVirtAddrHh_eq (m : PageMode) (s : Vm) (n pa va flags : Nat) :
    mapPhysToVirtAddrHh m s pa va flags (tablePtr m n) = (do
      let (table, s) ← hhPath m s (tablePtr m n) va (pageDepth m)
      hhEntry m s table pa va flags) := by
  have hroot : (tablePtr m n).or s.hhdmPageRootAddress = tablePtr m n := by
    rw [tablePtr, Option.some_or]
  unfold mapPhysToVirtAddrHh
  dsimp only
  rw [hroot, tablePtr_isNone, if_neg Bool.false_ne_true]
  generalize tablePtr m n = root
  cases m with
  | large =>
    simp only [pageDepth, hhPath, ok_bind, bind_assoc]
    rfl
  | small =>
    simp only [pageDepth, hhPath, ok_bind, bind_assoc]
    rfl

section Page

variable {m : PageMode} {s s' : Vm} {r pa va flags v a d : Nat} {Own : List (Fin 512) → Prop}

/-- There is a frame for every table that has to be made on the way to the table
of `va` at depth `d`. -/
def FramesFor (s : Vm) (r va d : Nat) : Prop :=
  ∀ e < d, s.hwSlot r (pathTo va e) (indexAt va e) % 2 = 0 → d - e ≤ s.freeTables.length

/-- What the first `d` blocks do. -/
structure PathStep (Own : List (Fin 512) → Prop) (s s' : Vm) (r va d : Nat) : Prop where
  tables   : HwTables s' r
  owned    : Owned Own s' r
  confined : Confined s s' r
  supply   : ∃ e ≤ d, s.freeTables.length ≤ s'.freeTables.length + (d - e) ∧
    (e < d → s.hwSlot r (pathTo va e) (indexAt va e) % 2 = 0)
  slots    : ∀ q j, TablePath 3 q → s'.hwSlot r q j = s.hwSlot r q j ∨
    (∃ e < d, q = pathTo va e ∧ j = indexAt va e) ∧ s.hwSlot r q j % 2 = 0 ∧
      (hwTable (s'.hwSlot r q j)).isSome = true

/-- The slots at depth `d` and below are not touched by the first `d` blocks. -/
theorem PathStep.slot_eq (h : PathStep Own s s' r va d) (hd : TablePath 3 (pathTo va d))
    (j : Fin 512) : s'.hwSlot r (pathTo va d) j = s.hwSlot r (pathTo va d) j := by
  rcases h.slots _ j hd with hsame | ⟨⟨e, he, hpath, -⟩, -⟩
  · exact hsame
  · exact absurd (pathTo_length_eq hpath) (by omega)

/-- The supply was enough from the first absent slot on, so there is a frame left for the
table at an absent slot. -/
theorem PathStep.left (h : PathStep Own s s' r va d) (hsupply : FramesFor s r va (d + 1))
    (habsent : s.hwSlot r (pathTo va d) (indexAt va d) % 2 = 0) : s'.freeTables ≠ [] := by
  intro hempty
  obtain ⟨e, he, hused, hfirst⟩ := h.supply
  rw [hempty, List.length_nil] at hused
  rcases Nat.lt_or_ge e d with hlt | hge
  · have := hsupply e (by omega) (hfirst hlt)
    omega
  · have := hsupply d (by omega) habsent
    omega

/-- **The way to a table**, by either mapper. -/
theorem ensurePath_spec (m : PageMode) (hreg : Region Own) (hok : HwTables s r)
    (hown : Owned Own s r) (hva : ∀ e ≤ d, Own (pathTo va e)) (hd : d ≤ 3)
    (hsupply : FramesFor s r va d) :
    ∃ s' t, ensurePath s r va d = .ok s' ∧
      (Below s r → hhPath m s (tablePtr m r) va d = .ok (tablePtr m t, s')) ∧
      descend hwTable s'.entry r (pathTo va d) = some t ∧ PathStep Own s s' r va d := by
  -- one block of the mapper for each level
  induction d with
  | zero =>
    exact ⟨s, r, rfl, fun _ => rfl, rfl, hok, hown, Confined.refl s r,
      ⟨0, le_rfl, le_rfl, fun h => absurd h (Nat.lt_irrefl 0)⟩, fun q j _ => Or.inl rfl⟩
  | succ d ih =>
    obtain ⟨s₁, t, hrun, hhrun, ht, h₁⟩ := ih (fun e he => hva e (by omega)) (by omega)
      fun e he habsent => by
        have := hsupply e (by omega) habsent
        omega
    obtain ⟨e, he, hused, hfirst⟩ := h₁.supply
    have huser := userModeStatus_cases va
    have hslot := h₁.slot_eq (hreg.paths _ (hva d (by omega))) (indexAt va d)
    have hleft : s₁.hwSlot r (pathTo va d) (indexAt va d) % 2 = 0 → s₁.freeTables ≠ [] :=
      fun habsent => h₁.left hsupply (hslot ▸ habsent)
    have hblock := ensure_blockStep hreg h₁.tables h₁.owned (hva (d + 1) le_rfl) ht huser hleft
    refine ⟨_, _, ?_, fun hbelow => ?_, hblock.there, hblock.tables, hblock.owned,
      h₁.confined.trans hblock.confined, ?_, fun q j hq => ?_⟩
    · rw [ensurePath, hrun, ok_bind]
      exact ensureTable_block hreg h₁.tables h₁.owned (hva (d + 1) le_rfl) ht huser hleft
    · rw [hhPath, hhrun hbelow, ok_bind]
      exact tableFor_block hreg h₁.tables h₁.owned (hbelow.step h₁.confined) (hva (d + 1) le_rfl)
        ht huser hleft
    · by_cases hpresent : s₁.hwSlot r (pathTo va d) (indexAt va d) % 2 = 1
      · rw [hblock.kept hpresent]
        rcases Nat.lt_or_ge e d with hlt | hge
        · exact ⟨e, by omega, by omega, fun _ => hfirst hlt⟩
        · exact ⟨d + 1, le_rfl, by omega, fun h => absurd h (Nat.lt_irrefl _)⟩
      · have hblock := hblock.supply
        rcases Nat.lt_or_ge e d with hlt | hge
        · exact ⟨e, by omega, by omega, fun _ => hfirst hlt⟩
        · refine ⟨d, by omega, by omega, fun _ => ?_⟩
          rw [← hslot]
          omega
    · -- a slot that this block fills was not filled by an earlier one
      rcases hblock.slots q j hq with hsame | ⟨hat, habsent, hlink⟩
      · rw [hsame]
        refine (h₁.slots q j hq).imp_right ?_
        rintro ⟨⟨e, he, hat⟩, habsent, hlink⟩
        exact ⟨⟨e, by omega, hat⟩, habsent, hlink⟩
      · have hbefore : s.hwSlot r q j % 2 = 0 := by
          rcases h₁.slots q j hq with hsame | ⟨-, h, -⟩
          · rw [← hsame]
            exact habsent
          · exact h
        exact Or.inr ⟨⟨d, Nat.lt_succ_self d, hat⟩, hbefore, hlink⟩

/-- What mapping the page of `va` does to the tree: its slot is `v`, and of the
other slots only those on the way change, from absent to a link. -/
structure PageMapped (m : PageMode) (s s' : Vm) (r va v : Nat) : Prop where
  leaf  : s'.hwSlot r (pathTo va (pageDepth m)) (indexAt va (pageDepth m)) = v
  there : ∃ n, descend hwTable s'.entry r (pathTo va (pageDepth m)) = some n
  slots : ∀ q j, TablePath 3 q → ¬ (q = pathTo va (pageDepth m) ∧ j = indexAt va (pageDepth m)) →
    s'.hwSlot r q j = s.hwSlot r q j ∨
    (∃ e < pageDepth m, q = pathTo va e ∧ j = indexAt va e) ∧ s.hwSlot r q j % 2 = 0 ∧
      (hwTable (s'.hwSlot r q j)).isSome = true

/-- The slot of the page of `va`. -/
def Vm.pageSlot (s : Vm) (m : PageMode) (r va : Nat) : Nat :=
  s.hwSlot r (pathTo va (pageDepth m)) (indexAt va (pageDepth m))

/-- What a call of a mapper does. A page that is mapped already stays as it is,
with the tables on its way. -/
structure MapStep (m : PageMode) (Own : List (Fin 512) → Prop) (s s' : Vm) (r va v : Nat) :
    Prop where
  tables   : HwTables s' r
  owned    : Owned Own s' r
  confined : Confined s s' r
  supply   : s.freeTables.length ≤ s'.freeTables.length + pageDepth m
  mapped   : PageMapped m s s' r va
    (if s.pageSlot m r va % 2 = 0 then v else s.pageSlot m r va)

/-- **Mapping a page**, by either mapper. -/
theorem mapPage_spec (pa flags : Nat) (hreg : Region Own) (hok : HwTables s r)
    (hown : Owned Own s r) (hva : ∀ e ≤ pageDepth m, Own (pathTo va e))
    (hleaf : ¬ Own (pathTo va (pageDepth m) ++ [indexAt va (pageDepth m)]))
    (hsupply : FramesFor s r va (pageDepth m)) :
    ∃ s', mapPhysToVirtAddr m s r pa va flags = .ok (va, s') ∧
      (Below s r → ∃ ret, mapPhysToVirtAddrHh m s pa va flags (tablePtr m r) = .ok (ret, s')) ∧
      MapStep m Own s s' r va (pageValue m pa va flags) := by
  obtain ⟨s₁, t, hrun, hhrun, ht, h₁⟩ :=
    ensurePath_spec m hreg hok hown hva (pageDepth_le m) hsupply
  have hP := hreg.paths _ (hva _ le_rfl)
  have hpage : (pathTo va (pageDepth m)).length ≤ 2 → hwTable (pageValue m pa va flags) = none := by
    intro hlen
    rw [length_pathTo] at hlen
    cases m with
    | large => exact hwTable_pageValue pa va flags
    | small => exact absurd hlen (by decide)
  -- no block touches the slot of the page
  have hslot : s₁.hwSlot r (pathTo va (pageDepth m)) (indexAt va (pageDepth m)) =
      s.pageSlot m r va := h₁.slot_eq hP _
  have hentry : s₁.entry t (indexAt va (pageDepth m)) = s.pageSlot m r va := by
    rw [← hslot]
    exact (slot_of_descend ht).symm
  obtain ⟨hok', hown', hconf', hdesc', hslots'⟩ := ensureValue_spec (v := pageValue m pa va flags)
    hreg h₁.tables h₁.owned (hva _ le_rfl) hleaf ht hpage
  rw [hslot] at hslots'
  refine ⟨_, ?_, fun hbelow => ?_, hok', hown', h₁.confined.trans hconf', ?_,
    ⟨?_, ⟨t, ?_⟩, fun q j hq hne => ?_⟩⟩
  · rw [mapPhysToVirtAddr_eq, hrun, ok_bind, ensureEntry_eq h₁.tables.self
      (by rw [length_pathTo]; exact pageDepth_le m) (reached_of_descend ht)
      (h₁.owned.writablePath hreg.closed (hva _ le_rfl) ht), ok_bind]
  · rw [mapPhysToVirtAddrHh_eq, hhrun hbelow, ok_bind]
    simp only [hhEntry, load_tablePtr, store_tablePtr, ok_bind, and_presentBit, Vm.ensureValue]
    by_cases habsent : s₁.entry t (indexAt va (pageDepth m)) % 2 = 0
    · rw [if_pos habsent, if_neg (by omega)]
      exact ⟨va, rfl⟩
    · rw [if_neg habsent, if_pos (by omega)]
      exact ⟨0, rfl⟩
  · rw [ensureValue_freeTables]
    obtain ⟨e, -, hused, -⟩ := h₁.supply
    omega
  · rw [hslots' _ _ hP]
    simp only [true_and]
    rw [hslot]
  · rw [hdesc' _ hP, ht]
  · rw [hslots' q j hq, if_neg fun hat => hne ⟨hat.1, hat.2.1⟩]
    exact h₁.slots q j hq

/-- The address lies in the page of `va`. -/
def SamePage (m : PageMode) (a va : Nat) : Prop :=
  pathTo a (pageDepth m) = pathTo va (pageDepth m) ∧
    indexAt a (pageDepth m) = indexAt va (pageDepth m)

/-- **Addresses in other pages are translated as before.** -/
theorem translate_other (h : PageMapped m s s' r va v) (ha : indexAt a 0 ≠ 510)
    (hne : ¬ SamePage m a va) : translate s' r a = translate s r a := by
  refine Extended.translate_eq fun d hd => ?_
  refine (h.slots _ (indexAt a d) (tablePath_pathTo hd ha) ?_).imp_right ?_
  · rintro ⟨hpath, hindex⟩
    obtain rfl := pathTo_length_eq hpath
    exact hne ⟨hpath, hindex⟩
  · rintro ⟨⟨e, he, hpath, -⟩, habsent, hlink⟩
    have hdepth := pageDepth_le m
    have := pathTo_length_eq hpath
    exact ⟨by omega, habsent, hlink⟩

/-- Addresses are in one page when their lower 48 bits are. -/
theorem samePage_iff (m : PageMode) (a b : Nat) :
    SamePage m a b ↔ a % 2 ^ 48 / pageSizeInBytes m = b % 2 ^ 48 / pageSizeInBytes m := by
  unfold SamePage
  cases m with
  | large =>
    simp only [pageDepth, pathTo, indexAt, List.nil_append, List.cons_append, List.cons.injEq,
      and_true, Fin.ext_iff, entryIndex, Nat.shiftRight_eq_div_pow, pageSizeInBytes]
    omega
  | small =>
    simp only [pageDepth, pathTo, indexAt, List.nil_append, List.cons_append, List.cons.injEq,
      and_true, Fin.ext_iff, entryIndex, Nat.shiftRight_eq_div_pow, pageSizeInBytes]
    omega

/-- The slots on the way to a page that is mapped are present. -/
theorem path_present {e : Nat} (hpage : s.pageSlot m r va % 2 = 1) (he : e < pageDepth m) :
    s.hwSlot r (pathTo va e) (indexAt va e) % 2 = 1 := by
  cases hdesc : descend hwTable s.entry r (pathTo va (pageDepth m)) with
  | none =>
    rw [Vm.pageSlot, Vm.hwSlot, slot_of_none hdesc] at hpage
    exact absurd hpage (by decide)
  | some t =>
    obtain ⟨u, hu⟩ := link_initial hdesc he
    exact (hwTable_present hu).1

/-- The walk ends in a page of the build's size. -/
theorem walkFrom_page (hpresent : s.pageSlot m r a % 2 = 1)
    (hhuge : m = .large → s.pageSlot m r a / 128 % 2 = 1) :
    walkFrom s r a (pageDepth m) =
      some ⟨pageByte (39 - 9 * pageDepth m) (s.pageSlot m r a) a,
        isWritable (s.pageSlot m r a)⟩ := by
  unfold Vm.pageSlot at *
  cases m with
  | large =>
    rw [walkFrom_at (by decide), if_neg (by omega), if_pos (hhuge rfl), if_neg (by decide)]
  | small =>
    simp only [pageDepth] at hpresent ⊢
    rw [walkFrom_three, if_neg (by omega)]

/-- Mapping a page does not change the slot of another one. -/
theorem PageMapped.pageSlot_other (h : PageMapped m s s' r va v) (ha : indexAt a 0 ≠ 510)
    (hne : ¬ SamePage m a va) : s'.pageSlot m r a = s.pageSlot m r a := by
  refine (h.slots _ _ (tablePath_pathTo (pageDepth_le m) ha) hne).resolve_right ?_
  -- a link is made nearer to the root than a page
  rintro ⟨⟨e, he, hpath, -⟩, -⟩
  have := pathTo_length_eq hpath
  omega

theorem SamePage.pageSlot_eq (h : SamePage m a va) (s : Vm) (r : Nat) :
    s.pageSlot m r a = s.pageSlot m r va := by
  rw [Vm.pageSlot, Vm.pageSlot, h.1, h.2]

section

variable (h : PageMapped m s s' r va (if s.pageSlot m r va % 2 = 0 then v else s.pageSlot m r va))

include h

/-- A slot that is present stays. -/
theorem PageMapped.present {q : List (Fin 512)} {j : Fin 512} (hq : TablePath 3 q)
    (hpresent : s.hwSlot r q j % 2 = 1) : s'.hwSlot r q j = s.hwSlot r q j := by
  by_cases hleaf : q = pathTo va (pageDepth m) ∧ j = indexAt va (pageDepth m)
  · obtain ⟨rfl, rfl⟩ := hleaf
    have hpage : ¬ s.pageSlot m r va % 2 = 0 := by
      unfold Vm.pageSlot
      omega
    rw [h.leaf, if_neg hpage]
    rfl
  · refine (h.slots q j hq hleaf).resolve_right ?_
    rintro ⟨-, habsent, -⟩
    omega

/-- A page that is mapped already changes no slot at all. -/
theorem PageMapped.again (hpage : s.pageSlot m r va % 2 = 1) {q : List (Fin 512)} {j : Fin 512}
    (hq : TablePath 3 q) : s'.hwSlot r q j = s.hwSlot r q j := by
  by_cases hleaf : q = pathTo va (pageDepth m) ∧ j = indexAt va (pageDepth m)
  · obtain ⟨rfl, rfl⟩ := hleaf
    exact h.present hq hpage
  · refine (h.slots q j hq hleaf).resolve_right ?_
    rintro ⟨⟨e, he, rfl, rfl⟩, habsent, -⟩
    have := path_present hpage he
    omega

end

theorem pathTo_initial {b : Nat} (h : pathTo a d = pathTo b d) :
    ∀ e < d, pathTo a e = pathTo b e ∧ indexAt a e = indexAt b e := by
  induction d with
  | zero => exact fun e he => absurd he (Nat.not_lt_zero e)
  | succ d ih =>
    obtain ⟨hpath, hlast⟩ := List.append_inj' h rfl
    intro e he
    rcases Nat.lt_succ_iff_lt_or_eq.mp he with hlt | rfl
    · exact ih hpath e hlt
    · exact ⟨hpath, List.singleton_inj.mp hlast⟩

/-- The way to a table of the region is made of writable links. -/
theorem Owned.writable (hown : Owned Own s r) (hva : ∀ e ≤ d, Own (pathTo va e)) {n : Nat}
    (hn : descend hwTable s.entry r (pathTo va d) = some n) :
    ∀ e < d, isWritable (s.hwSlot r (pathTo va e) (indexAt va e)) = true := by
  intro e he
  obtain ⟨u, hu⟩ := link_initial hn he
  exact (hown.links _ _ (hva (e + 1) he) (hwTable_present hu).1).2

/-- **The page is translated to its frame.** -/
theorem translate_mapped (h : PageMapped m s s' r va v) (hown : Owned Own s' r)
    (hva : ∀ e ≤ pageDepth m, Own (pathTo va e)) (hsame : SamePage m a va) (hpresent : v % 2 = 1)
    (hhuge : m = .large → v / 128 % 2 = 1) :
    translate s' r a = some ⟨pageByte (39 - 9 * pageDepth m) v a, isWritable v⟩ := by
  obtain ⟨n, hn⟩ := h.there
  have hwritable := hown.writable hva hn
  have hslot : s'.pageSlot m r a = v := (hsame.pageSlot_eq s' r).trans h.leaf
  rw [← hsame.1] at hn
  rw [translate_pathTo (pageDepth_le m) hn fun e he => by
    obtain ⟨hpath, hindex⟩ := pathTo_initial hsame.1 e he
    rw [hpath, hindex]
    exact hwritable e he]
  subst hslot
  exact walkFrom_page hpresent hhuge

end Page

/-! ## A whole root -/

/-- All tables of a root are in order: no two paths lead to one table, the entries
on the way to tables are writable links, and the direct map reaches them. -/
structure RootOk (m : PageMode) (s : Vm) (r : Nat) : Prop where
  tables : HwTables s r
  owned  : Owned (TablePath (pageDepth m)) s r
  below  : Below s r

theorem region_tablePath (m : PageMode) : Region (TablePath (pageDepth m)) :=
  ⟨tablePath_closed _, fun _ hp => ⟨hp.1.trans (pageDepth_le m), hp.2⟩⟩

section Root

variable {m : PageMode} {s s' : Vm} {r va : Nat}

theorem RootOk.step (h : RootOk m s r) {v : Nat}
    (hstep : MapStep m (TablePath (pageDepth m)) s s' r va v) : RootOk m s' r :=
  ⟨hstep.tables, hstep.owned, h.below.step hstep.confined⟩

/-- **Mapping keeps a root in order**, outside entry 510. -/
theorem RootOk.map (h : RootOk m s r) (pa flags : Nat) (hva : indexAt va 0 ≠ 510)
    (hsupply : FramesFor s r va (pageDepth m)) :
    ∃ s' ret, mapPhysToVirtAddr m s r pa va flags = .ok (va, s') ∧
      mapPhysToVirtAddrHh m s pa va flags (tablePtr m r) = .ok (ret, s') ∧
      MapStep m (TablePath (pageDepth m)) s s' r va (pageValue m pa va flags) := by
  have hleaf : ¬ TablePath (pageDepth m)
      (pathTo va (pageDepth m) ++ [indexAt va (pageDepth m)]) := by
    rintro ⟨hlen, -⟩
    rw [List.length_append, length_pathTo, List.length_singleton] at hlen
    omega
  obtain ⟨s', hrun, hhrun, hstep⟩ := mapPage_spec pa flags (region_tablePath m) h.tables h.owned
    (fun e he => tablePath_pathTo he hva) hleaf hsupply
  obtain ⟨ret, hret⟩ := hhrun h.below
  exact ⟨s', ret, hrun, hret, hstep⟩

/-- Edits outside the tables of a root keep it in order. -/
theorem RootOk.same (h : RootOk m s r) (hsize : s'.memorySizeInBytes = s.memorySizeInBytes)
    (hfree : s'.freeTables <:+ s.freeTables)
    (hsame : ∀ n, IsTable hwTable s.entry r (TablePath 3) n → ∀ i, s'.entry n i = s.entry n i) :
    RootOk m s' r := by
  have hdesc : ∀ p, TablePath 3 p → descend hwTable s'.entry r p = descend hwTable s.entry r p :=
    fun p hp => descend_same (tablePath_closed 3) hsame hp
  have hslot : ∀ p i, TablePath 3 p → s'.hwSlot r p i = s.hwSlot r p i :=
    fun p i hp => slot_same (tablePath_closed 3) hsame hp
  have htable : ∀ n, IsTable hwTable s'.entry r (TablePath 3) n →
      IsTable hwTable s.entry r (TablePath 3) n := by
    rintro n ⟨p, hp, hn⟩
    exact ⟨p, hp, hdesc p hp ▸ hn⟩
  have hpaths := (region_tablePath m).paths
  refine ⟨⟨?_, h.tables.nodup.sublist hfree.sublist, fun t ht => ?_⟩,
    ⟨fun p hp q t hq ht ht' => ?_, fun p i hp hpresent => ?_⟩, ⟨hsize ▸ h.below.limit, ?_, ?_⟩⟩
  · exact h.tables.self.congr (hsame r ⟨[], tablePath_nil 3, rfl⟩ 510)
  · obtain ⟨n, rfl, hn, hnew⟩ := h.tables.fresh t (hfree.subset ht)
    exact ⟨n, rfl, hn, fun htab => hnew (htable n htab)⟩
  · rw [hdesc p (hpaths p hp)] at ht
    rw [hdesc q hq] at ht'
    exact h.owned.sole p hp q t hq ht ht'
  · have hp' := hpaths p (tablePath_closed _ p i hp)
    rw [hslot p i hp'] at hpresent ⊢
    exact h.owned.links p i hp hpresent
  · intro n hn
    rw [hsize]
    exact h.below.tables n (htable n hn)
  · intro t ht
    rw [hsize]
    exact h.below.supply t (hfree.subset ht)

end Root

/-- The tables of `recursiveSpace` are in order with any supply of other frames. -/
theorem rootOk_recursive {m : PageMode} {s : Vm} (hentry : s.entry = recursiveSpace.entry)
    (hsize : s.memorySizeInBytes = 2 ^ 30) (hnodup : s.freeTables.Nodup)
    (hfree : ∀ t ∈ s.freeTables, ∃ n, t = 4096 * n ∧ n ≠ 1 ∧ t < 2 ^ 30) : RootOk m s 1 := by
  have htable : ∀ n, IsTable hwTable s.entry 1 (TablePath 3) n → n = 1 := by
    rintro n ⟨p, hp, hn⟩
    rw [hentry] at hn
    exact (recursiveSpace_descend hp.2 hn).2
  refine ⟨⟨recursiveSpace_tables.self.congr (by rw [hentry]), hnodup, fun t ht => ?_⟩,
    ⟨fun p hp q t hq ht ht' => ?_, fun p i hp hpresent => ?_⟩, ⟨?_, fun n hn => ?_, fun t ht => ?_⟩⟩
  · obtain ⟨n, rfl, hn, hlt⟩ := hfree t ht
    exact ⟨n, rfl, by omega, fun h => hn (htable n h)⟩
  · rw [hentry] at ht ht'
    rw [(recursiveSpace_descend hq.2 ht').1, (recursiveSpace_descend hp.2 ht).1]
  · -- nothing is present outside entry 510
    exfalso
    unfold Vm.hwSlot at hpresent
    rw [hentry] at hpresent
    have hP := (tablePath_closed _ p i hp).2
    cases hdesc : descend hwTable recursiveSpace.entry 1 p with
    | none =>
      rw [slot_of_none hdesc] at hpresent
      exact absurd hpresent (by decide)
    | some t =>
      obtain ⟨rfl, rfl⟩ := recursiveSpace_descend hP hdesc
      have hi : i ≠ 510 := fun e => hp.2 (congrArg some e)
      rw [slot_of_descend hdesc, recursiveSpace_entry, if_neg fun hat => hi hat.2] at hpresent
      exact absurd hpresent (by decide)
  · rw [hsize]
    decide
  · rw [hsize, htable n hn]
    decide
  · obtain ⟨n, rfl, -, hlt⟩ := hfree t ht
    rw [hsize]
    exact hlt

theorem recursiveSpace_rootOk (m : PageMode) : RootOk m recursiveSpace 1 := by
  refine rootOk_recursive rfl rfl (by decide) fun t ht => ?_
  simp only [recursiveSpace, List.mem_cons, List.not_mem_nil, or_false] at ht
  rcases ht with rfl | rfl
  · exact ⟨2, rfl, by decide, by decide⟩
  · exact ⟨3, rfl, by decide, by decide⟩

end Dreamos64
