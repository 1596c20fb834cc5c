import Dreamos64.Arch.Madt

/-!
# Dreamos64 — tables of interrupt controllers that are wrong

`get_MADT_item` and `print_madt_table` go from one item of the table to the next by the length
that the item gives for itself, and they compare only where an item begins with the length of the
table. Here the two functions are written down read by read, so that a read can fail: `readInside`
refuses every byte that is not part of the table by its own `header.Length`.

* `items_of_search`, `search_of_items` — what a search has passed when it ends;
* `madt_walks_inside_iff` — when both walks end without a read outside the table;
* `search_of_reads`       — reads that do not fail make it the search of `Arch/Madt.lean`.
-/

namespace Dreamos64

open Machine

/-! ## `madt.c`, read by read -/

/-- The variables of `get_MADT_item`; the item is `total_length` behind `madt_base`. -/
structure MadtScan where
  totalLength : Nat
  counter     : UInt8

section Reads

-- the byte of the table at an offset; the items begin behind the 44 bytes of `MADT`
variable (read : Nat → Exec UInt8)

/-- `table->header.Length`. -/
def readLength : Exec Nat := do
  let byte0 ← read 4
  let byte1 ← read 5
  let byte2 ← read 6
  let byte3 ← read 7
  .ok (byte0.toNat + byte1.toNat * 256 + byte2.toNat * 256 ^ 2 + byte3.toNat * 256 ^ 3)

/-- `strncmp(table->header.Signature, MADT_ID, 4) == 0`, with `n` characters left from `i` on.
Behind one that differs no other is read; no character of `MADT_ID` is NUL. -/
def readSignature : Nat → Nat → Exec Bool
  | 0, _ => .ok true
  | n + 1, i => do
    let c ← read i
    if c = madtId.bytes i then readSignature n (i + 1) else .ok false

/-- `map_madt`: is `madt_base` set? -/
def mapMadtReads (mapped : Bool) : Exec Bool := do
  let same ← readSignature read 4 0
  if same then .ok true else .ok mapped

/-- How both functions begin: `if (madt_base == NULL) map_madt(table)`. -/
def mapMadtOnce (mapped : Bool) : Exec Bool :=
  if mapped then .ok true else mapMadtReads read mapped

/-- One turn of the loop of `get_MADT_item`. -/
def getMadtItemReadsBody (type offset : UInt8) (s : MadtScan) :
    Exec (LoopStep MadtScan (Option Nat)) := do
  let length ← readLength read
  if s.totalLength + sizeofMadt < length ∧ s.counter ≤ offset then
    let itemType ← read (sizeofMadt + s.totalLength)
    if itemType = type ∧ s.counter = offset then .ok (.done (some s.totalLength))
    else
      let counter := if itemType = type then s.counter + 1 else s.counter
      let itemLength ← read (sizeofMadt + s.totalLength + 1)
      .ok (.next ⟨(s.totalLength + itemLength.toNat) % 2 ^ 64, counter⟩)
  else .ok (.done none)

/-- `get_MADT_item`: how far behind `madt_base` the item is, and whether `madt_base` is set. -/
def getMadtItemReads (fuel : Nat) (mapped : Bool) (type offset : UInt8) :
    Exec (Option Nat × Bool) := do
  let mapped ← mapMadtOnce read mapped
  let same ← readSignature read 4 0
  if same then
    let item ← loop (getMadtItemReadsBody read type offset) fuel ⟨0, 0⟩
    .ok (item, mapped)
  else .ok (none, mapped)

/-- One turn of the loop of `print_madt_table`; here `total_length` is a `uint32_t`. Without
`madt_base` the item is at NULL. -/
def printMadtTableBody (mapped : Bool) (totalLength : Nat) : Exec (LoopStep Nat Unit) := do
  let length ← readLength read
  if totalLength + sizeofMadt < length then
    if mapped then
      let itemLength ← read (sizeofMadt + totalLength + 1)
      .ok (.next ((totalLength + itemLength.toNat) % 2 ^ 32))
    else .error .nullPointer
  else .ok (.done ())

/-- `print_madt_table`, which prints nothing; it does not compare the signature again. -/
def printMadtTable (fuel : Nat) (mapped : Bool) : Exec Bool := do
  let mapped ← mapMadtOnce read mapped
  loop (printMadtTableBody read mapped) fuel 0
  .ok mapped

end Reads

/-! ## Reads inside the table -/

section Inside

variable (bytes : Nat → UInt8)

/-- The length that the table has by its own header. -/
def tableLength : Nat := numberOf (fun i => bytes (4 + i)) 4

/-- A read that fails at and beyond the end of the table. -/
def readInside (i : Nat) : Exec UInt8 :=
  if i < tableLength bytes then .ok (bytes i) else .error .outOfBounds

def HasSignature : Prop := ∀ i < 4, bytes i = madtId.bytes i

/-- A byte inside the table tells that the signature is another one. -/
def OtherSignature : Prop := ∃ i < 4, i < tableLength bytes ∧ bytes i ≠ madtId.bytes i

/-- `MADT_Item`: any two bytes. -/
structure MadtItem where
  type   : UInt8
  length : UInt8

/-- Items that follow one another by their lengths from `total` on. Both bytes of each are inside
the table; `total_length` wraps at `w`. -/
def ItemsInside (w : Nat) : Nat → List MadtItem → Prop
  | _, [] => True
  | total, item :: rest =>
    sizeofMadt + total + 1 < tableLength bytes ∧ bytes (sizeofMadt + total) = item.type ∧
      bytes (sizeofMadt + total + 1) = item.length ∧
      ItemsInside w ((total + item.length.toNat) % w) rest

/-- `total_length` behind the items. -/
def itemsEnd (w : Nat) : Nat → List MadtItem → Nat
  | total, [] => total
  | total, item :: rest => itemsEnd w ((total + item.length.toNat) % w) rest

def itemsOf (type : UInt8) (items : List MadtItem) : Nat := items.countP (·.type = type)

/-- Behind the items the table ends, or the item is there that is sought: `offset` of its type are
among those that were passed, `counter` of them earlier. -/
def SearchEnds (type offset : UInt8) (total counter : Nat) (items : List MadtItem) : Prop :=
  tableLength bytes ≤ sizeofMadt + itemsEnd (2 ^ 64) total items ∨
    bytes (sizeofMadt + itemsEnd (2 ^ 64) total items) = type ∧
      counter + itemsOf type items = offset.toNat

/-- What a table has to be for `get_MADT_item`. -/
def SearchInside (type offset : UInt8) : Prop :=
  OtherSignature bytes ∨ HasSignature bytes ∧ 8 ≤ tableLength bytes ∧
    ∃ items, ItemsInside bytes (2 ^ 64) 0 items ∧ SearchEnds bytes type offset 0 0 items

/-- What a table has to be for `print_madt_table`. -/
def ListingInside (mapped : Bool) : Prop :=
  8 ≤ tableLength bytes ∧ (tableLength bytes ≤ sizeofMadt ∨
    (mapped = true ∨ HasSignature bytes) ∧
      ∃ items, ItemsInside bytes (2 ^ 32) 0 items ∧
        tableLength bytes ≤ sizeofMadt + itemsEnd (2 ^ 32) 0 items)

end Inside

section Header

variable {bytes : Nat → UInt8} {i n : Nat} {same mapped : Bool}

theorem readInside_ok (h : i < tableLength bytes) : readInside bytes i = .ok (bytes i) := if_pos h

theorem readInside_beyond (h : ¬ i < tableLength bytes) :
    readInside bytes i = .error .outOfBounds := if_neg h

theorem readInside_inv {c : UInt8} (h : readInside bytes i = .ok c) :
    i < tableLength bytes ∧ c = bytes i := by
  unfold readInside at h
  split_ifs at h with hlt
  exact ⟨hlt, (Except.ok.inj h).symm⟩

theorem tableLength_eq (bytes : Nat → UInt8) :
    tableLength bytes = (bytes 4).toNat + (bytes 5).toNat * 256 + (bytes 6).toNat * 256 ^ 2 +
      (bytes 7).toNat * 256 ^ 3 := by
  have hzero : numberOf (fun i => bytes (4 + i)) 0 = 0 := rfl
  unfold tableLength
  rw [numberOf_succ, numberOf_succ, numberOf_succ, numberOf_succ, hzero, Nat.zero_add,
    Nat.pow_zero, Nat.mul_one, Nat.pow_one]

/-- A length can say that the length itself is not in the table. -/
theorem readLength_eq (bytes : Nat → UInt8) :
    readLength (readInside bytes) =
      if tableLength bytes < 8 then .error .outOfBounds else .ok (tableLength bytes) := by
  unfold readLength
  split_ifs with hshort
  · -- one of the four reads fails, and the others do not matter
    unfold readInside
    split_ifs <;> first | rfl | omega
  · rw [readInside_ok (by omega), readInside_ok (by omega), readInside_ok (by omega),
      readInside_ok (by omega), tableLength_eq]
    rfl

/-- The signature is read to an answer if all of it is in the table, or a byte that differs. -/
theorem readSignature_returns
    (h : i + n ≤ tableLength bytes ∨ ∃ k, i ≤ k ∧ k < tableLength bytes ∧
      bytes k ≠ madtId.bytes k) : ∃ same, readSignature (readInside bytes) n i = .ok same := by
  induction n generalizing i with
  | zero => exact ⟨true, rfl⟩
  | succ n ih =>
    have hlt : i < tableLength bytes := by
      rcases h with h | ⟨k, hle, hlt, -⟩ <;> omega
    unfold readSignature
    rw [readInside_ok hlt, ok_bind]
    split_ifs with hchar
    · refine ih (h.imp (by omega) fun ⟨k, hle, hlt, hdiff⟩ => ⟨k, ?_, hlt, hdiff⟩)
      exact Nat.lt_of_le_of_ne hle fun heq => hdiff (heq ▸ hchar)
    · exact ⟨false, rfl⟩

theorem readSignature_inv (h : readSignature (readInside bytes) n i = .ok same) :
    same = true ∧ (∀ j, i ≤ j → j < i + n → bytes j = madtId.bytes j) ∨
      same = false ∧ ∃ k < i + n, k < tableLength bytes ∧ bytes k ≠ madtId.bytes k := by
  induction n generalizing i with
  | zero => exact Or.inl ⟨(Except.ok.inj h).symm, fun j hle hlt => absurd hlt (by omega)⟩
  | succ n ih =>
    unfold readSignature at h
    obtain ⟨c, hread, h⟩ := bind_inv h
    obtain ⟨hlt, rfl⟩ := readInside_inv hread
    split_ifs at h with hchar
    · rcases ih h with ⟨hsame, hall⟩ | ⟨hsame, k, hk, hdiff⟩
      · refine Or.inl ⟨hsame, fun j hle hj => ?_⟩
        rcases Nat.eq_or_lt_of_le hle with rfl | hlt'
        · exact hchar
        · exact hall j hlt' (by omega)
      · exact Or.inr ⟨hsame, k, by omega, hdiff⟩
    · exact Or.inr ⟨(Except.ok.inj h).symm, i, by omega, hlt, hchar⟩

theorem signature_inv (h : readSignature (readInside bytes) 4 0 = .ok same) :
    same = true ∧ HasSignature bytes ∨ same = false ∧ OtherSignature bytes := by
  rcases readSignature_inv h with ⟨hsame, hall⟩ | ⟨hsame, k, hk, hdiff⟩
  · exact Or.inl ⟨hsame, fun i hi => hall i (Nat.zero_le i) (by omega)⟩
  · exact Or.inr ⟨hsame, k, by omega, hdiff⟩

theorem signature_same (hsame : HasSignature bytes) (hlen : 8 ≤ tableLength bytes) :
    readSignature (readInside bytes) 4 0 = .ok true := by
  obtain ⟨same, hread⟩ := readSignature_returns (Or.inl (show 0 + 4 ≤ tableLength bytes by omega))
  rcases signature_inv hread with ⟨rfl, -⟩ | ⟨-, i, hi, -, hdiff⟩
  · exact hread
  · exact absurd (hsame i hi) hdiff

/-- `madt_base` is set afterwards if it was before, or if the signature is the right one. -/
theorem mapMadtOnce_eq (mapped : Bool) (h : readSignature (readInside bytes) 4 0 = .ok same) :
    mapMadtOnce (readInside bytes) mapped = .ok (mapped || same) := by
  unfold mapMadtOnce mapMadtReads
  cases mapped <;> cases same <;> rw [h] <;> rfl

end Header

/-! ## The search -/

section Search

variable {bytes : Nat → UInt8} {type offset : UInt8} {s : MadtScan}

/-- `total_length` and the counter behind the item at `s`. -/
def MadtScan.pass (bytes : Nat → UInt8) (type : UInt8) (s : MadtScan) : MadtScan :=
  ⟨(s.totalLength + (bytes (sizeofMadt + s.totalLength + 1)).toNat) % 2 ^ 64,
    if bytes (sizeofMadt + s.totalLength) = type then s.counter + 1 else s.counter⟩

/-- What a turn does: the table ends, the item is found, or it is passed if its length is in the
table. -/
theorem getMadtItemReadsBody_eq (hle : s.counter ≤ offset) :
    getMadtItemReadsBody (readInside bytes) type offset s =
      if tableLength bytes < 8 then .error .outOfBounds
      else if tableLength bytes ≤ sizeofMadt + s.totalLength then .ok (.done none)
      else if bytes (sizeofMadt + s.totalLength) = type ∧ s.counter = offset then
        .ok (.done (some s.totalLength))
      else if sizeofMadt + s.totalLength + 1 < tableLength bytes then
        .ok (.next (s.pass bytes type))
      else .error .outOfBounds := by
  unfold getMadtItemReadsBody
  rw [readLength_eq]
  by_cases hshort : tableLength bytes < 8
  · rw [if_pos hshort, if_pos hshort, error_bind]
  rw [if_neg hshort, if_neg hshort, ok_bind]
  by_cases hend : tableLength bytes ≤ sizeofMadt + s.totalLength
  · rw [if_pos hend, if_neg (by omega)]
  rw [if_neg hend, if_pos ⟨by omega, hle⟩, readInside_ok (by omega), ok_bind]
  by_cases hsought : bytes (sizeofMadt + s.totalLength) = type ∧ s.counter = offset
  · rw [if_pos hsought, if_pos hsought]
  rw [if_neg hsought, if_neg hsought]
  by_cases hin : sizeofMadt + s.totalLength + 1 < tableLength bytes
  · rw [if_pos hin, readInside_ok hin]
    rfl
  · rw [if_neg hin, readInside_beyond hin, error_bind]

/-- The counter does not pass the offset, so it does not wrap. -/
theorem MadtScan.counter_pass (hle : s.counter ≤ offset)
    (hnot : ¬(bytes (sizeofMadt + s.totalLength) = type ∧ s.counter = offset)) :
    (s.pass bytes type).counter ≤ offset ∧ (s.pass bytes type).counter.toNat =
      s.counter.toNat + if bytes (sizeofMadt + s.totalLength) = type then 1 else 0 := by
  unfold MadtScan.pass
  dsimp only
  by_cases htype : bytes (sizeofMadt + s.totalLength) = type
  · have hlt := UInt8.lt_of_le_of_ne hle fun heq => hnot ⟨htype, heq⟩
    have hsucc := toNat_counter_succ hlt
    rw [if_pos htype, if_pos htype]
    refine ⟨UInt8.le_iff_toNat_le.mpr ?_, hsucc⟩
    have := UInt8.lt_iff_toNat_lt.mp hlt
    omega
  · rw [if_neg htype, if_neg htype]
    exact ⟨hle, rfl⟩

theorem itemsOf_cons (type : UInt8) (item : MadtItem) (items : List MadtItem) :
    itemsOf type (item :: items) = (if item.type = type then 1 else 0) + itemsOf type items := by
  unfold itemsOf
  rw [List.countP_cons, Nat.add_comm]
  simp only [decide_eq_true_eq]

/-- **A search that ends** has passed items with both their bytes in the table. -/
theorem items_of_search {fuel : Nat} {result : Option Nat} (hle : s.counter ≤ offset)
    (h : loop (getMadtItemReadsBody (readInside bytes) type offset) fuel s = .ok result) :
    8 ≤ tableLength bytes ∧ ∃ items, ItemsInside bytes (2 ^ 64) s.totalLength items ∧
      SearchEnds bytes type offset s.totalLength s.counter.toNat items := by
  induction fuel generalizing s with
  | zero => cases h
  | succ fuel ih =>
    rw [loop_succ, getMadtItemReadsBody_eq hle] at h
    split_ifs at h with hshort hend hsought hin
    · exact ⟨by omega, [], trivial, Or.inl hend⟩
    · exact ⟨by omega, [], trivial, Or.inr ⟨hsought.1, congrArg UInt8.toNat hsought.2⟩⟩
    · -- the item that this turn has passed comes before the others
      obtain ⟨hle', hcounter⟩ := MadtScan.counter_pass hle hsought
      obtain ⟨hlen, items, hitems, hends⟩ := ih hle' h
      refine ⟨hlen, ⟨_, _⟩ :: items, ⟨hin, rfl, rfl, hitems⟩, ?_⟩
      rw [hcounter] at hends
      unfold SearchEnds at hends ⊢
      rw [itemsOf_cons, ← Nat.add_assoc]
      exact hends

/-- **A search ends** if such items lead to an end. It may find what it seeks among them. -/
theorem search_of_items (hlen : 8 ≤ tableLength bytes) {items : List MadtItem}
    (hle : s.counter ≤ offset) (hitems : ItemsInside bytes (2 ^ 64) s.totalLength items)
    (hends : SearchEnds bytes type offset s.totalLength s.counter.toNat items) :
    ∃ result, loop (getMadtItemReadsBody (readInside bytes) type offset) (items.length + 1) s =
      .ok result := by
  induction items generalizing s with
  | nil =>
    rw [loop_succ, getMadtItemReadsBody_eq hle, if_neg (by omega)]
    split_ifs with hend hsought
    · exact ⟨none, rfl⟩
    · exact ⟨some s.totalLength, rfl⟩
    all_goals
      have hthere := hends.resolve_left hend
      exact absurd ⟨hthere.1, UInt8.toNat_inj.mp hthere.2⟩ hsought
  | cons item items ih =>
    obtain ⟨hin, htype, hlength, hrest⟩ := hitems
    rw [loop_succ, getMadtItemReadsBody_eq hle, if_neg (by omega), if_neg (by omega)]
    split_ifs with hsought
    · exact ⟨some s.totalLength, rfl⟩
    · obtain ⟨hle', hcounter⟩ := MadtScan.counter_pass hle hsought
      have htotal : (s.pass bytes type).totalLength =
          (s.totalLength + item.length.toNat) % 2 ^ 64 := by
        rw [← hlength]
        rfl
      refine ih hle' (htotal ▸ hrest) ?_
      unfold SearchEnds at hends ⊢
      rw [itemsOf_cons, ← htype, ← Nat.add_assoc, ← hcounter] at hends
      rw [htotal]
      exact hends

theorem search_inside_iff (bytes : Nat → UInt8) (mapped : Bool) (type offset : UInt8) :
    (∃ fuel result, getMadtItemReads (readInside bytes) fuel mapped type offset = .ok result) ↔
      SearchInside bytes type offset := by
  have hzero : (0 : UInt8) ≤ offset := UInt8.le_iff_toNat_le.mpr (Nat.zero_le offset.toNat)
  unfold getMadtItemReads
  constructor
  · rintro ⟨fuel, result, h⟩
    obtain ⟨mapped', -, h⟩ := bind_inv h
    obtain ⟨same, hread, h⟩ := bind_inv h
    rcases signature_inv hread with ⟨rfl, hsame⟩ | ⟨-, hother⟩
    · obtain ⟨item, hloop, -⟩ := bind_inv h
      exact Or.inr ⟨hsame, items_of_search hzero hloop⟩
    · exact Or.inl hother
  · rintro (⟨i, hi, hlt, hdiff⟩ | ⟨hsame, hlen, items, hitems, hends⟩)
    · obtain ⟨same, hread⟩ := readSignature_returns (n := 4) (Or.inr ⟨i, Nat.zero_le i, hlt, hdiff⟩)
      rcases signature_inv hread with ⟨-, hsame⟩ | ⟨rfl, -⟩
      · exact absurd (hsame i hi) hdiff
      · refine ⟨0, (none, mapped || false), ?_⟩
        rw [mapMadtOnce_eq mapped hread, ok_bind, hread]
        rfl
    · have hread := signature_same hsame hlen
      obtain ⟨item, hloop⟩ := search_of_items (s := ⟨0, 0⟩) hlen hzero hitems hends
      refine ⟨items.length + 1, (item, mapped || true), ?_⟩
      rw [mapMadtOnce_eq mapped hread, ok_bind, hread, ok_bind, if_pos rfl, hloop, ok_bind]

end Search

/-! ## The walk over all items -/

section Print

variable {bytes : Nat → UInt8} {mapped : Bool} {total : Nat}

theorem printMadtTableBody_eq (bytes : Nat → UInt8) (mapped : Bool) (total : Nat) :
    printMadtTableBody (readInside bytes) mapped total =
      if tableLength bytes < 8 then .error .outOfBounds
      else if tableLength bytes ≤ sizeofMadt + total then .ok (.done ())
      else if mapped = false then .error .nullPointer
      else if sizeofMadt + total + 1 < tableLength bytes then
        .ok (.next ((total + (bytes (sizeofMadt + total + 1)).toNat) % 2 ^ 32))
      else .error .outOfBounds := by
  unfold printMadtTableBody
  rw [readLength_eq]
  by_cases hshort : tableLength bytes < 8
  · rw [if_pos hshort, if_pos hshort, error_bind]
  rw [if_neg hshort, if_neg hshort, ok_bind]
  by_cases hend : tableLength bytes ≤ sizeofMadt + total
  · rw [if_pos hend, if_neg (by omega)]
  rw [if_neg hend, if_pos (by omega)]
  cases mapped with
  | false => rw [if_neg (by decide), if_pos rfl]
  | true =>
    rw [if_pos rfl, if_neg (by decide)]
    by_cases hin : sizeofMadt + total + 1 < tableLength bytes
    · rw [if_pos hin, readInside_ok hin, ok_bind]
    · rw [if_neg hin, readInside_beyond hin, error_bind]

/-- **A walk that ends** has passed items with both their bytes in the table, if any. -/
theorem items_of_print {fuel : Nat}
    (h : loop (printMadtTableBody (readInside bytes) mapped) fuel total = .ok ()) :
    8 ≤ tableLength bytes ∧ (tableLength bytes ≤ sizeofMadt + total ∨ mapped = true ∧
      ∃ items, ItemsInside bytes (2 ^ 32) total items ∧
        tableLength bytes ≤ sizeofMadt + itemsEnd (2 ^ 32) total items) := by
  induction fuel generalizing total with
  | zero => cases h
  | succ fuel ih =>
    rw [loop_succ, printMadtTableBody_eq] at h
    split_ifs at h with hshort hend hmapped hin
    · exact ⟨by omega, Or.inl hend⟩
    · refine ⟨by omega, Or.inr ⟨Bool.eq_true_of_not_eq_false hmapped, ?_⟩⟩
      obtain ⟨-, hend | ⟨-, items, hitems, hend⟩⟩ := ih h
      · exact ⟨[⟨_, _⟩], ⟨hin, rfl, rfl, trivial⟩, hend⟩
      · exact ⟨⟨_, _⟩ :: items, ⟨hin, rfl, rfl, hitems⟩, hend⟩

theorem print_of_items (hlen : 8 ≤ tableLength bytes) {items : List MadtItem}
    (hitems : ItemsInside bytes (2 ^ 32) total items)
    (hend : tableLength bytes ≤ sizeofMadt + itemsEnd (2 ^ 32) total items) :
    loop (printMadtTableBody (readInside bytes) true) (items.length + 1) total = .ok () := by
  induction items generalizing total with
  | nil =>
    have hdone : tableLength bytes ≤ sizeofMadt + total := hend
    rw [loop_succ, printMadtTableBody_eq, if_neg (by omega), if_pos hdone]
  | cons item items ih =>
    obtain ⟨hin, -, hlength, hrest⟩ := hitems
    rw [loop_succ, printMadtTableBody_eq, if_neg (by omega), if_neg (by omega),
      if_neg (by decide), if_pos hin, hlength]
    exact ih hrest hend

theorem print_inside_iff (bytes : Nat → UInt8) (mapped : Bool) :
    (∃ fuel result, printMadtTable (readInside bytes) fuel mapped = .ok result) ↔
      ListingInside bytes mapped := by
  unfold printMadtTable
  constructor
  · rintro ⟨fuel, result, h⟩
    obtain ⟨mapped', hmap, h⟩ := bind_inv h
    obtain ⟨_, hloop, -⟩ := bind_inv h
    obtain ⟨hlen, hend | ⟨rfl, hitems⟩⟩ := items_of_print hloop
    · exact ⟨hlen, Or.inl hend⟩
    · refine ⟨hlen, Or.inr ⟨?_, hitems⟩⟩
      -- `madt_base` was set before, or is set now because of the signature
      obtain ⟨same, hread⟩ :=
        readSignature_returns (Or.inl (show 0 + 4 ≤ tableLength bytes by omega))
      rw [mapMadtOnce_eq mapped hread] at hmap
      rcases Bool.or_eq_true_iff.mp (Except.ok.inj hmap) with hset | rfl
      · exact Or.inl hset
      · rcases signature_inv hread with ⟨-, hsame⟩ | ⟨hno, -⟩
        · exact Or.inr hsame
        · cases hno
  · rintro ⟨hlen, hwalk⟩
    obtain ⟨same, hread⟩ :=
      readSignature_returns (Or.inl (show 0 + 4 ≤ tableLength bytes by omega))
    rw [mapMadtOnce_eq mapped hread]
    rcases hwalk with hend | ⟨hset, items, hitems, hend⟩
    · refine ⟨1, mapped || same, ?_⟩
      rw [ok_bind, loop_succ, printMadtTableBody_eq, if_neg (by omega),
        if_pos (show tableLength bytes ≤ sizeofMadt + 0 from hend), ok_bind]
    · have hmapped : (mapped || same) = true := by
        rcases hset with rfl | hsame
        · rfl
        · rw [signature_same hsame hlen] at hread
          rw [← Except.ok.inj hread, Bool.or_true]
      refine ⟨items.length + 1, true, ?_⟩
      rw [hmapped, ok_bind, print_of_items hlen hitems hend, ok_bind]

end Print

/-- **Malformed tables.** Whatever the bytes of a table, its length, the type and the offset are,
`get_MADT_item` and `print_madt_table` end without a read at or beyond the end of the table if and
only if its items lead from one to the next to an end with both their bytes in the table. -/
theorem madt_walks_inside_iff (bytes : Nat → UInt8) (mapped : Bool) (type offset : UInt8) :
    ((∃ fuel result, getMadtItemReads (readInside bytes) fuel mapped type offset = .ok result) ↔
        SearchInside bytes type offset) ∧
      ((∃ fuel result, printMadtTable (readInside bytes) fuel mapped = .ok result) ↔
        ListingInside bytes mapped) :=
  ⟨search_inside_iff bytes mapped type offset, print_inside_iff bytes mapped⟩

/-- A table whose only item has this type and this length. -/
def oneItemMadt (length itemType itemLength : UInt8) : Nat → UInt8 :=
  let bytes : List UInt8 := [0x41, 0x50, 0x49, 0x43, length] ++ List.replicate 39 0 ++
    [itemType, itemLength]
  fun i => bytes.getD i 0

/-- An item of length 0 is never passed; behind the type of an item at the end of the table its
length is read. -/
theorem madt_walks_stuck :
    (∀ fuel, getMadtItemReads (readInside (oneItemMadt 46 1 0)) fuel true 0 0 =
        .error .outOfFuel) ∧
      (∀ fuel, printMadtTable (readInside (oneItemMadt 46 1 0)) fuel true = .error .outOfFuel) ∧
      getMadtItemReads (readInside (oneItemMadt 45 1 8)) 1 true 0 0 = .error .outOfBounds ∧
      printMadtTable (readInside (oneItemMadt 45 1 8)) 1 true = .error .outOfBounds := by
  have hsame : readSignature (readInside (oneItemMadt 46 1 0)) 4 0 = .ok true := by
    decide +kernel
  have hlen : tableLength (oneItemMadt 46 1 0) = 46 := by decide
  refine ⟨fun fuel => ?_, fun fuel => ?_, by decide +kernel, by decide +kernel⟩
  · have hturn : getMadtItemReadsBody (readInside (oneItemMadt 46 1 0)) 0 0 ⟨0, 0⟩ =
        .ok (.next ⟨0, 0⟩) := by
      rw [getMadtItemReadsBody_eq (by decide), hlen]
      rfl
    unfold getMadtItemReads
    rw [mapMadtOnce_eq true hsame, ok_bind, hsame, ok_bind, if_pos rfl, loop_stays hturn,
      error_bind]
  · have hturn : printMadtTableBody (readInside (oneItemMadt 46 1 0)) true 0 =
        .ok (.next 0) := by
      rw [printMadtTableBody_eq, hlen]
      rfl
    unfold printMadtTable
    rw [mapMadtOnce_eq true hsame, ok_bind, Bool.true_or, loop_stays hturn, error_bind]

/-! ## Tables in memory -/

/-- The bytes of a table by their offset: the header is at `table`, the items are where
`madt_base` points to. -/
def tableBytes (mem : UInt64 → UInt8) (table madtBase : UInt64) (i : Nat) : UInt8 :=
  if i < sizeofMadt then mem (table + i.toUInt64)
  else mem (madtBase + (i - sizeofMadt).toUInt64)

/-- Where the search of `get_MADT_item` is. -/
def MadtScan.walk (madtBase : UInt64) (s : MadtScan) : MadtWalk :=
  ⟨madtBase + s.totalLength.toUInt64, s.totalLength, s.counter⟩

section Memory

variable {mem : UInt64 → UInt8} {table madtBase : UInt64}

theorem tableBytes_item (total : Nat) :
    tableBytes mem table madtBase (sizeofMadt + total) = mem (madtBase + total.toUInt64) := by
  unfold tableBytes
  rw [if_neg (by omega), Nat.add_sub_cancel_left]

theorem add_toUInt64_add (a : UInt64) (n k : Nat) :
    a + (n + k).toUInt64 = a + n.toUInt64 + k.toUInt64 := by
  show a + UInt64.ofNat (n + k) = a + UInt64.ofNat n + UInt64.ofNat k
  rw [UInt64.ofNat_add, UInt64.add_assoc]

theorem tableLength_tableBytes :
    tableLength (tableBytes mem table madtBase) = headerLength mem table := by
  have hbyte (i : Nat) (hi : i < 4) :
      tableBytes mem table madtBase (4 + i) = mem (table + 4 + i.toUInt64) := by
    unfold tableBytes sizeofMadt
    rw [if_pos (by omega), add_toUInt64_add]
    rfl
  unfold tableLength headerLength readNumber
  simp only [numberOf_succ, hbyte 0 (by omega), hbyte 1 (by omega), hbyte 2 (by omega),
    hbyte 3 (by omega)]
  rfl

/-- One turn, as far as no read fails. -/
theorem getMadtItemBody_of_reads {type offset : UInt8} {s : MadtScan}
    {step : LoopStep MadtScan (Option Nat)}
    (h : getMadtItemReadsBody (readInside (tableBytes mem table madtBase)) type offset s =
      .ok step) :
    getMadtItemBody mem madtBase (headerLength mem table) type offset (s.walk madtBase) =
      .ok (match step with
        | .next s' => .next (s'.walk madtBase)
        | .done item => .done (item.map fun total => madtBase + total.toUInt64)) := by
  unfold getMadtItemReadsBody at h
  obtain ⟨length, hlength, h⟩ := bind_inv h
  rw [readLength_eq, tableLength_tableBytes] at hlength
  split_ifs at hlength
  obtain rfl := Except.ok.inj hlength
  unfold getMadtItemBody MadtScan.walk
  dsimp only
  by_cases hgo : s.totalLength + sizeofMadt < headerLength mem table ∧ s.counter ≤ offset
  · rw [if_pos hgo] at h ⊢
    obtain ⟨itemType, htype, h⟩ := bind_inv h
    obtain rfl := (readInside_inv htype).2
    rw [tableBytes_item] at h
    by_cases hsought : mem (madtBase + s.totalLength.toUInt64) = type ∧ s.counter = offset
    · rw [if_pos hsought] at h ⊢
      obtain rfl := Except.ok.inj h
      rfl
    · rw [if_neg hsought] at h ⊢
      obtain ⟨itemLength, hread, h⟩ := bind_inv h
      obtain rfl := (readInside_inv hread).2
      obtain rfl := Except.ok.inj h
      have hone : madtBase + (s.totalLength + 1).toUInt64 =
          madtBase + s.totalLength.toUInt64 + 1 := add_toUInt64_add madtBase s.totalLength 1
      -- the table is shorter than `2 ^ 32`, so that `total_length` does not wrap
      have hbound := headerLength_lt mem table
      have hbyte := (mem (madtBase + s.totalLength.toUInt64 + 1)).toNat_lt
      dsimp only
      rw [Nat.add_assoc sizeofMadt, tableBytes_item, hone, Nat.mod_eq_of_lt (by omega)]
  · rw [if_neg hgo] at h ⊢
    obtain rfl := Except.ok.inj h
    rfl

/-- **A search without failing reads** is that of `get_MADT_item`, which reads whatever is there. -/
theorem search_of_reads {fuel : Nat} {type offset : UInt8} {item : Option Nat}
    (h : loop (getMadtItemReadsBody (readInside (tableBytes mem table madtBase)) type offset) fuel
      ⟨0, 0⟩ = .ok item) :
    loop (getMadtItemBody mem madtBase (headerLength mem table) type offset) fuel
        ⟨madtBase, 0, 0⟩ = .ok (item.map fun total => madtBase + total.toUInt64) := by
  have hstart : MadtScan.walk madtBase ⟨0, 0⟩ = ⟨madtBase, 0, 0⟩ :=
    congrArg (MadtWalk.mk · 0 0) (UInt64.add_zero madtBase)
  rw [← hstart]
  exact loop_refines (MadtScan.walk madtBase) (Option.map fun total => madtBase + total.toUInt64)
    (fun _ _ => getMadtItemBody_of_reads) (fun _ _ => getMadtItemBody_of_reads) h

end Memory

/-- The second processor of a small table. -/
theorem search_of_reads_second :
    loop (getMadtItemBody smallMadt 0x102C (headerLength smallMadt 0x1000) 0 1) 4 ⟨0x102C, 0, 0⟩ =
      .ok (some (0x102C + 12)) := by
  have h : loop (getMadtItemReadsBody (readInside (tableBytes smallMadt 0x1000 0x102C)) 0 1) 4
      ⟨0, 0⟩ = .ok (some 12) := by decide +kernel
  exact search_of_reads h

end Dreamos64
