import Dreamos64.Arch.IoApic
import Dreamos64.Arch.Madt
import Mathlib.Algebra.Order.BigOperators.Group.List
import Mathlib.Algebra.Order.Group.Nat

/-!
# Dreamos64 — interrupt source overrides

An override says that an interrupt of the old controllers comes in at another pin of the
IO-APIC. `parse_io_apic_interrupt_source_overrides` collects the overrides of the table of
interrupt controllers: it asks `get_MADT_item` for the first one, the second one and so on, each
time from the start of the table. `set_irq` looks the interrupt up in what was collected.

* `overrides_collected_iff` — when the collection is complete: it fails on a table with entries
  but no override;
* `irq_routing_iff`         — `set_irq` programs the pin of an override only if its caller has
  given it the register of that pin.
-/

namespace Dreamos64

open Machine

/-! ## `ioapic.c` -/

def ioApicSourceOverrideMaxItems : Nat := 0x10

def madtIoApicInterruptSourceOverride : UInt8 := 2

/-- `IO_APIC_source_override_item_t`, with the fields that `set_irq` does not need for the
entry. -/
structure SourceOverrideItem extends SourceOverride where
  busSource             : BitVec 8
  globalSystemInterrupt : BitVec 32
  deriving DecidableEq, Repr

/-- `so_item`: the fields behind the type and the length of an item. -/
def readSourceOverride (mem : UInt64 → UInt8) (item : UInt64) : SourceOverrideItem where
  busSource := BitVec.ofNat 8 (readNumber mem (item + 2) 1)
  irqSource := BitVec.ofNat 8 (readNumber mem (item + 3) 1)
  globalSystemInterrupt := BitVec.ofNat 32 (readNumber mem (item + 4) 4)
  flags := BitVec.ofNat 16 (readNumber mem (item + 8) 2)

/-- The variables of `parse_io_apic_interrupt_source_overrides`, and the globals it works on. -/
structure OverrideScan where
  totalLength           : Nat
  sourceOverrideCounter : Nat
  item                  : Option UInt64
  madtBase              : UInt64
  overrides             : Nat → SourceOverrideItem

section Parse

variable (mem : UInt64 → UInt8) (m : PageMode) (fuel : Nat) (table : UInt64)

/-- One turn of the loop. The length of the item is read before the item is compared with
NULL. -/
def parseOverridesBody (s : OverrideScan) :
    Exec (LoopStep OverrideScan (Nat × (Nat → SourceOverrideItem))) :=
  if s.totalLength < headerLength mem table ∧
      s.sourceOverrideCounter < ioApicSourceOverrideMaxItems then
    match s.item with
    | none => .error .nullPointer
    | some item => do
      let totalLength := (s.totalLength + (mem (item + 1)).toNat) % 2 ^ 32
      let isOverride := mem item = madtIoApicInterruptSourceOverride
      let overrides :=
        if isOverride then
          Function.update s.overrides s.sourceOverrideCounter (readSourceOverride mem item)
        else s.overrides
      let counter := if isOverride then s.sourceOverrideCounter + 1 else s.sourceOverrideCounter
      let (item, madtBase) ← getMadtItem mem m fuel s.madtBase table
        madtIoApicInterruptSourceOverride counter.toUInt8
      if item = none then .ok (.done (counter, overrides))
      else .ok (.next ⟨totalLength, counter, item, madtBase, overrides⟩)
  else .ok (.done (s.sourceOverrideCounter, s.overrides))

/-- `parse_io_apic_interrupt_source_overrides`: its result, and `io_apic_source_overrides`. -/
def parseIoApicInterruptSourceOverrides (madtBase : UInt64)
    (overrides : Nat → SourceOverrideItem) : Exec (Nat × (Nat → SourceOverrideItem)) := do
  let (item, madtBase) ← getMadtItem mem m fuel madtBase table
    madtIoApicInterruptSourceOverride 0
  loop (parseOverridesBody mem m fuel table) fuel ⟨sizeofMadt, 0, item, madtBase, overrides⟩

end Parse

/-! ## The overrides of a table -/

/-- The overrides among some entries, in the order of the table. -/
def sourceOverridesAt (mem : UInt64 → UInt8) : UInt64 → List MadtEntry → List SourceOverrideItem
  | _, [] => []
  | a, e :: rest =>
    if e.type = madtIoApicInterruptSourceOverride then
      readSourceOverride mem a :: sourceOverridesAt mem (a + e.length.toNat.toUInt64) rest
    else sourceOverridesAt mem (a + e.length.toNat.toUInt64) rest

/-- The entries that are overrides. -/
def overrideEntries (entries : List MadtEntry) : List MadtEntry :=
  entries.filter (·.type = madtIoApicInterruptSourceOverride)

section Overrides

variable {mem : UInt64 → UInt8} {a madtBase table : UInt64}
  {entries before rest : List MadtEntry} {e : MadtEntry}

theorem overrideEntries_cons (hover : e.type = madtIoApicInterruptSourceOverride)
    (rest : List MadtEntry) : overrideEntries (e :: rest) = e :: overrideEntries rest :=
  List.filter_cons_of_pos (decide_eq_true hover)

theorem overrideEntries_cons_other (hother : e.type ≠ madtIoApicInterruptSourceOverride)
    (rest : List MadtEntry) : overrideEntries (e :: rest) = overrideEntries rest :=
  List.filter_cons_of_neg fun h => hother (of_decide_eq_true h)

theorem length_overrideEntries (entries : List MadtEntry) :
    (overrideEntries entries).length = entriesOf madtIoApicInterruptSourceOverride entries :=
  List.countP_eq_length_filter.symm

theorem length_sourceOverridesAt (mem : UInt64 → UInt8) (a : UInt64) (entries : List MadtEntry) :
    (sourceOverridesAt mem a entries).length =
      entriesOf madtIoApicInterruptSourceOverride entries := by
  rw [← length_overrideEntries]
  induction entries generalizing a with
  | nil => rfl
  | cons e rest ih =>
    unfold sourceOverridesAt
    by_cases hover : e.type = madtIoApicInterruptSourceOverride
    · rw [if_pos hover, overrideEntries_cons hover, List.length_cons, List.length_cons, ih]
    · rw [if_neg hover, ih, overrideEntries_cons_other hover]

theorem sourceOverridesAt_append (mem : UInt64 → UInt8) (a : UInt64)
    (before rest : List MadtEntry) :
    sourceOverridesAt mem a (before ++ rest) = sourceOverridesAt mem a before ++
      sourceOverridesAt mem (a + (entriesLength before).toUInt64) rest := by
  induction before generalizing a with
  | nil =>
    have hzero : a + (entriesLength []).toUInt64 = a := UInt64.add_zero a
    rw [hzero]
    rfl
  | cons e before ih =>
    rw [List.cons_append, sourceOverridesAt, sourceOverridesAt, ih, add_entriesLength_cons]
    split_ifs
    · rw [List.cons_append]
    · rfl

/-- An item that `get_MADT_item` has found for the counter `k` is the override number `k`. -/
theorem selected_override {k : Nat} {item : UInt64} (h : EntriesAt mem madtBase entries)
    (hselected : SelectedEntry madtBase entries madtIoApicInterruptSourceOverride k (some item)) :
    ∃ e, (overrideEntries entries)[k]? = some e ∧
      mem item = madtIoApicInterruptSourceOverride ∧ mem (item + 1) = e.length ∧
      (sourceOverridesAt mem madtBase entries)[k]? = some (readSourceOverride mem item) := by
  rcases hselected with @⟨before, after, e, rfl, htype, hbefore⟩
  obtain ⟨hfirst, hlength, -⟩ := h.drop
  refine ⟨e, ?_, hfirst.trans htype, hlength, ?_⟩
  · have hlen := length_overrideEntries before
    rw [overrideEntries, List.filter_append, List.getElem?_append_right (by
      show (overrideEntries before).length ≤ k
      omega)]
    show (overrideEntries (e :: after))[k - (overrideEntries before).length]? = _
    rw [hlen, hbefore, Nat.sub_self, overrideEntries_cons htype]
    rfl
  · have hlen := length_sourceOverridesAt mem madtBase before
    rw [sourceOverridesAt_append, List.getElem?_append_right (by omega), hlen, hbefore,
      Nat.sub_self, sourceOverridesAt, if_pos htype]
    rfl

/-- The overrides take up no more than the table. -/
theorem overrideLengths_le (entries : List MadtEntry) (k : Nat) :
    entriesLength ((overrideEntries entries).take k) ≤ entriesLength entries := by
  have hsub : ((overrideEntries entries).take k).Sublist entries :=
    (List.take_sublist _ _).trans List.filter_sublist
  exact (hsub.map _).sum_le_sum fun _ _ => Nat.zero_le _

/-! ## The collection -/

/-- What was collected is complete, up to the number of slots. -/
structure OverridesCollected (mem : UInt64 → UInt8) (madtBase : UInt64)
    (entries : List MadtEntry) (result : Nat × (Nat → SourceOverrideItem)) : Prop where
  count : result.1 =
    min (entriesOf madtIoApicInterruptSourceOverride entries) ioApicSourceOverrideMaxItems
  slots : ∀ k < result.1, (sourceOverridesAt mem madtBase entries)[k]? = some (result.2 k)

/-- The scan has an override before it, and has kept those before that one. -/
structure OverrideScan.Filling (mem : UInt64 → UInt8) (madtBase : UInt64)
    (entries : List MadtEntry) (s : OverrideScan) : Prop where
  base     : s.madtBase = madtBase
  counter  : s.sourceOverrideCounter ≤ ioApicSourceOverrideMaxItems
  total    : s.totalLength =
    sizeofMadt + entriesLength ((overrideEntries entries).take s.sourceOverrideCounter)
  found    : ∃ item, s.item = some item ∧ SelectedEntry madtBase entries
    madtIoApicInterruptSourceOverride s.sourceOverrideCounter (some item)
  slots    : ∀ k < s.sourceOverrideCounter,
    (sourceOverridesAt mem madtBase entries)[k]? = some (s.overrides k)

/-- A turn collects one more override, and ends the scan or goes on to the next. -/
theorem OverrideScan.Filling.turn {m : PageMode} {fuel : Nat} {s : OverrideScan}
    (h : MadtAt mem madtBase table entries) (hfuel : entries.length + 1 ≤ fuel)
    (hs : s.Filling mem madtBase entries) :
    (∃ s', parseOverridesBody mem m fuel table s = .ok (.next s') ∧
      s'.sourceOverrideCounter = s.sourceOverrideCounter + 1 ∧ s'.Filling mem madtBase entries) ∨
    ∃ result, parseOverridesBody mem m fuel table s = .ok (.done result) ∧
      OverridesCollected mem madtBase entries result := by
  obtain ⟨hbase, hcounter, htotal, ⟨item, hitem, hselected⟩, hslots⟩ := hs
  obtain ⟨e, hentry, htype, hlength, hvalue⟩ := selected_override h.entries_at hselected
  have hcount := length_overrideEntries entries
  have hlt := (List.getElem?_eq_some_iff.mp hentry).1
  unfold parseOverridesBody
  by_cases hroom : s.sourceOverrideCounter < ioApicSourceOverrideMaxItems
  · -- the override that was found is part of the table, so its end has not been reached
    have hnext : entriesLength ((overrideEntries entries).take (s.sourceOverrideCounter + 1)) =
        entriesLength ((overrideEntries entries).take s.sourceOverrideCounter) +
          e.length.toNat := by
      rw [List.take_add_one, hentry, entriesLength_append]
      rfl
    have hle := overrideLengths_le entries (s.sourceOverrideCounter + 1)
    have htwo := e.two_le
    have hbound := headerLength_lt mem table
    have hsum := h.length_eq
    rw [if_pos ⟨by omega, hroom⟩, hitem]
    dsimp only
    rw [htype, if_pos rfl, if_pos rfl, hbase, hlength]
    have hoffset : (s.sourceOverrideCounter + 1).toUInt8.toNat = s.sourceOverrideCounter + 1 :=
      Nat.mod_eq_of_lt (by unfold ioApicSourceOverrideMaxItems at hroom; omega)
    obtain ⟨item', hrun, hselected'⟩ := h.getMadtItem_ok m hfuel
      madtIoApicInterruptSourceOverride (s.sourceOverrideCounter + 1).toUInt8
    rw [hoffset] at hselected'
    rw [hrun, ok_bind]
    -- the slot that is written is the one after those that are filled
    have hslots' : ∀ k < s.sourceOverrideCounter + 1,
        (sourceOverridesAt mem madtBase entries)[k]? = some (Function.update s.overrides
          s.sourceOverrideCounter (readSourceOverride mem item) k) := by
      intro k hk
      rcases Nat.lt_or_eq_of_le (Nat.le_of_lt_succ hk) with hlt | rfl
      · rw [Function.update_of_ne (Nat.ne_of_lt hlt)]
        exact hslots k hlt
      · rw [Function.update_self]
        exact hvalue
    cases item' with
    | none =>
      right
      refine ⟨_, rfl, ⟨?_, hslots'⟩⟩
      cases hselected' with
      | none hfew =>
        show s.sourceOverrideCounter + 1 = _
        omega
    | some item' =>
      left
      refine ⟨_, rfl, rfl, ⟨rfl, hroom, ?_, ⟨item', rfl, hselected'⟩, hslots'⟩⟩
      show (s.totalLength + e.length.toNat) % 2 ^ 32 = _
      rw [hnext, Nat.mod_eq_of_lt (by omega)]
      omega
  · right
    rw [if_neg fun hgo => hroom hgo.2]
    refine ⟨_, rfl, ⟨?_, hslots⟩⟩
    show s.sourceOverrideCounter = _
    omega

/-- A scan that has found an override ends. -/
theorem OverrideScan.Filling.scanned {m : PageMode} {fuel : Nat} {s : OverrideScan}
    (h : MadtAt mem madtBase table entries) (hfuel : entries.length + 17 ≤ fuel)
    (hs : s.Filling mem madtBase entries) :
    ∃ result, loop (parseOverridesBody mem m fuel table) fuel s = .ok result ∧
      OverridesCollected mem madtBase entries result := by
  have hcounter := hs.counter
  have henough : entries.length + 1 ≤ fuel := by omega
  -- the counter goes up to the number of slots at most
  refine loop_total (fun n s => n + s.sourceOverrideCounter = ioApicSourceOverrideMaxItems ∧
    s.Filling mem madtBase entries) _ ?_
    (n := ioApicSourceOverrideMaxItems - s.sourceOverrideCounter) ⟨by omega, hs⟩ ?_
  · rintro n s ⟨hn, hs⟩
    rcases hs.turn (m := m) h henough with ⟨s', hturn, hnext, hs'⟩ | hdone
    · have hcounter' := hs'.counter
      exact Or.inl ⟨s', hturn, n - 1, by omega, by omega, hs'⟩
    · exact Or.inr hdone
  · unfold ioApicSourceOverrideMaxItems
    omega

/-- With an override in the table all of them are collected. -/
theorem overrides_collected_of_some (m : PageMode) (h : MadtAt mem madtBase table entries)
    (overrides : Nat → SourceOverrideItem)
    (hsome : entriesOf madtIoApicInterruptSourceOverride entries ≠ 0) :
    ∃ fuel result, parseIoApicInterruptSourceOverrides mem m fuel table madtBase overrides =
        .ok result ∧ OverridesCollected mem madtBase entries result := by
  obtain ⟨item, hrun, hselected⟩ := h.getMadtItem_ok m
    (Nat.add_le_add_left (by decide : 1 ≤ 17) entries.length) madtIoApicInterruptSourceOverride 0
  refine ⟨entries.length + 17, ?_⟩
  unfold parseIoApicInterruptSourceOverrides
  rw [hrun, ok_bind]
  cases hselected with
  | none hfew => exact absurd (Nat.le_zero.mp hfew) hsome
  | entry hsplit htype hbefore =>
    refine OverrideScan.Filling.scanned h (Nat.le_refl _) ⟨rfl, Nat.zero_le _, rfl,
      ⟨_, rfl, .entry hsplit htype hbefore⟩, fun k hk => absurd hk (Nat.not_lt_zero k)⟩

/-- Without one the first search gives NULL, and its length is read if there is any entry. -/
theorem parseOverridesBody_none (m : PageMode) (fuel : Nat)
    (h : MadtAt mem madtBase table entries) (overrides : Nat → SourceOverrideItem) :
    parseOverridesBody mem m fuel table ⟨sizeofMadt, 0, none, madtBase, overrides⟩ =
      if entries = [] then .ok (.done (0, overrides)) else .error .nullPointer := by
  unfold parseOverridesBody
  rw [h.length_eq]
  cases entries with
  | nil => rfl
  | cons e rest =>
    have hlt := entriesLength_lt [] e rest
    have hgo : sizeofMadt < sizeofMadt + entriesLength (e :: rest) ∧
        0 < ioApicSourceOverrideMaxItems :=
          ⟨Nat.lt_of_le_of_lt (Nat.le_add_left _ _) hlt, by decide⟩
    rw [if_pos hgo, if_neg (List.cons_ne_nil _ _)]

/-- There is no override to be found. -/
theorem selected_none {k : Nat} {item : Option UInt64}
    (hnone : entriesOf madtIoApicInterruptSourceOverride entries = 0)
    (hselected : SelectedEntry madtBase entries madtIoApicInterruptSourceOverride k item) :
    item = none := by
  rcases hselected with @⟨before, after, e, hsplit, htype, hbefore⟩ | hfew
  · have hmem : e ∈ entries := by
      rw [hsplit]
      exact List.mem_append_right before List.mem_cons_self
    exact absurd (decide_eq_true htype) (List.countP_eq_zero.mp hnone e hmem)
  · rfl

theorem parse_of_none (m : PageMode) (h : MadtAt mem madtBase table entries)
    (overrides : Nat → SourceOverrideItem)
    (hnone : entriesOf madtIoApicInterruptSourceOverride entries = 0) {fuel : Nat}
    (hfuel : entries.length + 1 ≤ fuel) :
    parseIoApicInterruptSourceOverrides mem m fuel table madtBase overrides =
      if entries = [] then .ok (0, overrides) else .error .nullPointer := by
  obtain ⟨item, hrun, hselected⟩ := h.getMadtItem_ok m hfuel madtIoApicInterruptSourceOverride 0
  obtain rfl := selected_none hnone hselected
  obtain ⟨fuel, rfl⟩ : ∃ k, fuel = k + 1 := ⟨fuel - 1, by omega⟩
  unfold parseIoApicInterruptSourceOverrides
  rw [hrun, ok_bind]
  dsimp only
  rw [loop_succ, parseOverridesBody_none m _ h]
  split_ifs <;> rfl

theorem not_collected_of_none (m : PageMode) (h : MadtAt mem madtBase table entries)
    (overrides : Nat → SourceOverrideItem)
    (hnone : entriesOf madtIoApicInterruptSourceOverride entries = 0) (hne : entries ≠ [])
    (fuel : Nat) (result : Nat × (Nat → SourceOverrideItem)) :
    parseIoApicInterruptSourceOverrides mem m fuel table madtBase overrides ≠ .ok result := by
  intro hparse
  obtain ⟨⟨item, base⟩, hrun, hloop⟩ := bind_inv hparse
  obtain ⟨hbase, hselected⟩ := h.getMadtItem_inv hrun
  dsimp only at hbase hselected hloop
  subst hbase
  obtain rfl := selected_none hnone hselected
  cases fuel with
  | zero => cases hloop
  | succ fuel =>
    rw [loop_succ, parseOverridesBody_none m _ h, if_neg hne] at hloop
    cases hloop

end Overrides

/-- **All overrides are collected**, as many as there are slots for, if the table has an
override; and if it has no entries at all. In a table of other entries the length of an override
that is not there is read through NULL. -/
theorem overrides_collected_iff {mem : UInt64 → UInt8} {madtBase table : UInt64}
    {entries : List MadtEntry} (m : PageMode) (h : MadtAt mem madtBase table entries)
    (overrides : Nat → SourceOverrideItem) :
    (∃ fuel result, parseIoApicInterruptSourceOverrides mem m fuel table madtBase overrides =
        .ok result ∧ OverridesCollected mem madtBase entries result) ↔
      (entriesOf madtIoApicInterruptSourceOverride entries = 0 → entries = []) := by
  constructor
  · rintro ⟨fuel, result, hparse, -⟩ hnone
    by_contra hne
    exact not_collected_of_none m h overrides hnone hne fuel result hparse
  · intro hempty
    by_cases hsome : entriesOf madtIoApicInterruptSourceOverride entries = 0
    · have hparse := parse_of_none m h overrides hsome (Nat.le_refl _)
      obtain rfl := hempty hsome
      exact ⟨_, _, hparse, ⟨rfl, fun k hk => absurd hk (Nat.not_lt_zero k)⟩⟩
    · exact overrides_collected_of_some m h overrides hsome

/-- A table at `0x1000` of an override, by which interrupt 0 comes in at pin 2, and a
processor. -/
def overrideMadt : UInt64 → UInt8 :=
  let bytes : List UInt8 := [0x41, 0x50, 0x49, 0x43, 62] ++ List.replicate 39 0 ++
    [2, 10, 0, 0, 2, 0, 0, 0, 0, 0] ++ [0, 8, 0, 0, 1, 0, 0, 0]
  fun a => bytes.getD (a - 0x1000).toNat 0

theorem localApic_length : 2 ≤ (8 : UInt8).toNat := by decide

def overrideMadtEntries : List MadtEntry := [⟨2, 10, by decide⟩, ⟨0, 8, localApic_length⟩]

theorem overrideMadt_at : MadtAt overrideMadt 0x102C 0x1000 overrideMadtEntries where
  signature  := by decide
  base_ne    := by decide
  entries_at := by
    show _ ∧ _ ∧ _ ∧ _ ∧ True
    refine ⟨?_, ?_, ?_, ?_, trivial⟩ <;> decide
  length_eq  := by decide

def emptySlots : Nat → SourceOverrideItem := fun _ => ⟨⟨0, 0⟩, 0, 0⟩

theorem overrides_collected_one :
    MadtAt overrideMadt 0x102C 0x1000 overrideMadtEntries ∧
      ∃ fuel result, parseIoApicInterruptSourceOverrides overrideMadt .large fuel 0x1000 0x102C
          emptySlots = .ok result ∧
            OverridesCollected overrideMadt 0x102C overrideMadtEntries result :=
  ⟨overrideMadt_at, (overrides_collected_iff .large overrideMadt_at emptySlots).mpr
    fun h => absurd h (by decide)⟩

/-- A table of processors and a controller. -/
theorem overrides_none_null :
    MadtAt smallMadt 0x102C 0x1000 smallMadtEntries ∧
      parseIoApicInterruptSourceOverrides smallMadt .large 4 0x1000 0x102C emptySlots =
        .error .nullPointer ∧
      ¬ ∃ fuel result, parseIoApicInterruptSourceOverrides smallMadt .large fuel 0x1000 0x102C
          emptySlots = .ok result ∧
            OverridesCollected smallMadt 0x102C smallMadtEntries result := by
  refine ⟨smallMadt_at, ?_, ?_⟩
  · exact parse_of_none .large smallMadt_at emptySlots (by decide) (Nat.le_refl 4)
  · rintro ⟨fuel, result, hparse, -⟩
    exact not_collected_of_none .large smallMadt_at emptySlots (by decide) (by decide) fuel result
      hparse

/-! ## Routing -/

/-- The pin that an interrupt comes in at: that of the first override for it, or the one with its
number. -/
def routedPin (overrides : List SourceOverrideItem) (irqType : BitVec 8) : Nat :=
  match overrides.find? (·.irqSource = irqType) with
  | some o => o.globalSystemInterrupt.toNat
  | none => irqType.toNat

/-- `set_irq` programs a pin: whatever the registers hold before, it returns, the entry of the
pin is the one that is asked for, and no other register has changed. -/
def ProgramsPin (overrides : List SourceOverrideItem)
    (irqType redirectTablePos idtEntry destinationField : BitVec 8) (flags : BitVec 32)
    (masked : Bool) (pin : Nat) : Prop :=
  ∃ index : BitVec 8, index.toNat = 0x10 + 2 * pin ∧ ∀ s : IoApic,
    s.ioApicHhBaseAddress ≠ 0 →
    s.ioApicSourceOverrides = overrides.map SourceOverrideItem.toSourceOverride →
    ∃ t, setIrq irqType redirectTablePos idtEntry destinationField flags masked s = .ok t ∧
      (∀ i < 64, (t.redirectEntry index).getLsbD i =
        if i = 16 then masked
        else requestedBit (overrides.map SourceOverrideItem.toSourceOverride) irqType idtEntry
          destinationField flags i) ∧
      ∀ r, r ≠ index → r ≠ index + 1#8 → t.registers r = s.registers r

section Routing

variable {overrides : List SourceOverrideItem}
  {irqType redirectTablePos idtEntry destinationField : BitVec 8} {flags : BitVec 32}
  {masked : Bool} {pin : Nat}

/-- An entry that does not depend on what was there before is the one at the position that was
given. -/
theorem ProgramsPin.pos_eq
    (h : ProgramsPin overrides irqType redirectTablePos idtEntry destinationField
      flags masked pin) :
    redirectTablePos.toNat = 0x10 + 2 * pin ∧ pin < 24 := by
  obtain ⟨index, hindex, hall⟩ := h
  -- otherwise the entry stays as it was, with all bits set and with none
  have hkept : ¬ (isRedirect redirectTablePos = true ∧ redirectTablePos = index) →
      ∀ registers : BitVec 32, registers.getLsbD 0 =
        requestedBit (overrides.map SourceOverrideItem.toSourceOverride) irqType idtEntry
          destinationField flags 0 := by
    intro hother registers
    have hbase : (1 : Nat) ≠ 0 := by decide
    obtain ⟨t, hrun, hentry, -⟩ := hall
      ⟨1, overrides.map SourceOverrideItem.toSourceOverride, 0#8, fun _ => registers⟩ hbase rfl
    obtain ⟨t', hrun', -, -, hregisters⟩ := ioApicExec_spec (s := ⟨1,
      overrides.map SourceOverrideItem.toSourceOverride, 0#8, fun _ => registers⟩)
      (.setIrq irqType redirectTablePos idtEntry destinationField flags masked) hbase
    obtain rfl := Except.ok.inj (hrun.symm.trans hrun')
    have hlow := hentry 0 (by decide)
    rw [if_neg (by decide)] at hlow
    have hregister : t.registers index = registers := by
      refine hregisters index fun hpos => ?_
      change isRedirect redirectTablePos = true at hpos
      show index ≠ redirectTablePos ∧ index ≠ redirectTablePos + 1#8
      have hne : index ≠ redirectTablePos := fun heq => hother ⟨hpos, heq.symm⟩
      refine ⟨hne, fun heq => ?_⟩
      -- the position of an entry is even
      rw [isRedirect_iff] at hpos
      rw [heq, BitVec.toNat_add, BitVec.toNat_ofNat] at hindex
      omega
    rw [← hlow, IoApic.redirectEntry, hregister,
      BitFields.getLsbD_join_lower (by decide) (by decide)]
  by_contra hne
  have hother : ¬ (isRedirect redirectTablePos = true ∧ redirectTablePos = index) := by
    rintro ⟨hpos, heq⟩
    rw [isRedirect_iff] at hpos
    rw [heq] at hpos hne
    omega
  have hset := hkept hother (BitVec.allOnes 32)
  have hclear := hkept hother 0#32
  rw [← hclear] at hset
  exact absurd hset (by decide)

/-- The position that was given is the one that is programmed. -/
theorem ProgramsPin.of_pos (hpos : redirectTablePos.toNat = 0x10 + 2 * pin) (hpin : pin < 24) :
    ProgramsPin overrides irqType redirectTablePos idtEntry destinationField flags masked pin := by
  refine ⟨redirectTablePos, hpos, fun s hbase hoverrides => ?_⟩
  have hredirect : isRedirect redirectTablePos = true := by
    rw [isRedirect_iff]
    omega
  obtain ⟨t, hrun, -, hentry, hregisters⟩ := ioApicExec_spec
    (.setIrq irqType redirectTablePos idtEntry destinationField flags masked) hbase
  refine ⟨t, hrun, fun i hi => ?_, fun r hlow hhigh => hregisters r fun _ => ⟨hlow, hhigh⟩⟩
  have hnew : t.redirectEntry redirectTablePos = setIrqEntry s.ioApicSourceOverrides irqType
    idtEntry destinationField flags masked := hentry hredirect
  rw [hnew, hoverrides]
  exact getLsbD_setIrqEntry irqType idtEntry destinationField flags masked hi

end Routing

/-- **An interrupt is routed through its override** only if the caller of `set_irq` knows it: the
position that it gives has to be the register of the pin. -/
theorem irq_routing_iff (overrides : List SourceOverrideItem)
    (irqType redirectTablePos idtEntry destinationField : BitVec 8) (flags : BitVec 32)
    (masked : Bool) :
    ProgramsPin overrides irqType redirectTablePos idtEntry destinationField flags masked
        (routedPin overrides irqType) ↔
      redirectTablePos.toNat = 0x10 + 2 * routedPin overrides irqType ∧
        routedPin overrides irqType < 24 :=
  ⟨ProgramsPin.pos_eq, fun h => ProgramsPin.of_pos h.1 h.2⟩

/-- The keyboard's interrupt 1 comes in at pin 5, and its handler is set up as `main.c` does
it. -/
theorem irq_routing_override :
    routedPin [⟨⟨1#8, 0#16⟩, 0#8, 5#32⟩] 1#8 = 5 ∧
      ¬ ProgramsPin [⟨⟨1#8, 0#16⟩, 0#8, 5#32⟩] 1#8 ioredtbl1 0x21#8 0#8 0#32 false 5 :=
  ⟨by decide, fun h => absurd h.pos_eq.1 (by decide)⟩

end Dreamos64
