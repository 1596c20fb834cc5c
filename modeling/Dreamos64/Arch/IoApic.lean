import Dreamos64.Lib.BitFields
import Dreamos64.Lib.Exec
import Mathlib.Data.List.Induction

/-!
# Dreamos64 — programming the IO-APIC

`ioapic.c`. The registers of the IO-APIC are reached through two words of memory: one selects
a register, the other is a window to it. A redirection entry is 64 bits in two registers, and
`io_apic_redirect_entry_t` is a union of the 64 bits and the fields they consist of.

* `ioApicExec_spec`      — what a call does to the registers;
* `redirects_programmed` — after any calls each entry is what the last `set_irq` at its
  position made it, and its mask what the last call at its position made it.
-/

namespace Dreamos64

open Machine

/-! ## The device -/

/-- `IO_APIC_source_override_item_t`, as far as `set_irq` reads it for the entry. -/
structure SourceOverride where
  irqSource : BitVec 8
  flags     : BitVec 16
  deriving DecidableEq, Repr

/-- The IO-APIC with its registers, and what the driver knows of it: the address it is mapped
at and the first `io_apic_source_override_array_size` of the overrides. -/
structure IoApic where
  ioApicHhBaseAddress    : Nat
  ioApicSourceOverrides  : List SourceOverride
  select                 : BitVec 8
  registers              : BitVec 8 → BitVec 32

/-- A write to the select register. -/
def IoApic.writeSelect (offset : BitVec 8) (s : IoApic) : IoApic := { s with select := offset }

/-- The window shows the register that is selected. -/
def IoApic.readWindow (s : IoApic) : BitVec 32 := s.registers s.select

def IoApic.writeWindow (value : BitVec 32) (s : IoApic) : IoApic :=
  { s with registers := Function.update s.registers s.select value }

/-! ## `ioapic.c` -/

def readIoApicRegister (offset : BitVec 8) (s : IoApic) : BitVec 32 × IoApic :=
  if s.ioApicHhBaseAddress = 0 then (0, s)
  else
    let s := s.writeSelect offset
    (s.readWindow, s)

/-- `write_io_apic_register`, which does not look at the address. -/
def writeIoApicRegister (offset : BitVec 8) (value : BitVec 32) (s : IoApic) : Exec IoApic :=
  if s.ioApicHhBaseAddress = 0 then .error .nullPointer
  else .ok ((s.writeSelect offset).writeWindow value)

/-- The check of an index that both `read_io_apic_redirect` and `write_io_apic_redirect`
make. -/
def isRedirect (index : BitVec 8) : Bool :=
  !(index < 0x10#8 || index > 0x3F#8) && index % 2#8 = 0#8

/-- `read_io_apic_redirect`: the entry, or -1. -/
def readIoApicRedirect (index : BitVec 8) (s : IoApic) : Option (BitVec 64) × IoApic :=
  if isRedirect index then
    let (lowerPart, s) := readIoApicRegister index s
    let (upperPart, s) := readIoApicRegister (index + 1#8) s
    (some (BitFields.join 64 upperPart lowerPart), s)
  else (none, s)

/-- `write_io_apic_redirect`. -/
def writeIoApicRedirect (index : BitVec 8) (raw : BitVec 64) (s : IoApic) : Exec (Int × IoApic) :=
  if isRedirect index then do
    let upperPart := (raw >>> 32).setWidth 32
    let lowerPart := raw.setWidth 32
    -- the lower half, with the mask, is written first
    let s ← writeIoApicRegister index lowerPart s
    let s ← writeIoApicRegister (index + 1#8) upperPart s
    .ok (0, s)
  else .ok (-1, s)

-- the fields of `io_apic_redirect_entry_t` that are written

def setPinPolarity (b : Bool) (raw : BitVec 64) : BitVec 64 :=
  BitFields.set 13 (BitVec.ofBool b) raw
def setTriggerMode (b : Bool) (raw : BitVec 64) : BitVec 64 :=
  BitFields.set 15 (BitVec.ofBool b) raw
def setInterruptMask (b : Bool) (raw : BitVec 64) : BitVec 64 :=
  BitFields.set 16 (BitVec.ofBool b) raw
def setDestinationField (d : BitVec 8) (raw : BitVec 64) : BitVec 64 := BitFields.set 56 d raw

/-- The polarity and the trigger mode that the flags of an override ask for. -/
def SourceOverride.polarity (o : SourceOverride) : Bool := o.flags &&& 0b11#16 = 2#16
def SourceOverride.trigger (o : SourceOverride) : Bool := (o.flags >>> 2) &&& 0b11#16 = 2#16

/-- `entry` in `set_irq`. -/
def setIrqEntry (overrides : List SourceOverride) (irqType idtEntry destinationField : BitVec 8)
    (flags : BitVec 32) (masked : Bool) : BitVec 64 :=
  -- the vector is in the low byte, and the flags lie above it
  let raw := (flags ||| idtEntry.setWidth 32).setWidth 64
  let raw :=
    match overrides.find? (·.irqSource = irqType) with
    | some o => setTriggerMode o.trigger (setPinPolarity o.polarity raw)
    | none => raw
  setInterruptMask masked (setDestinationField destinationField raw)

def ioredtbl1 : BitVec 8 := 0x12

/-- `set_irq`. The pin that the override names is only logged. -/
def setIrq (irqType redirectTablePos idtEntry destinationField : BitVec 8) (flags : BitVec 32)
    (masked : Bool) (s : IoApic) : Exec IoApic := do
  let entry := setIrqEntry s.ioApicSourceOverrides irqType idtEntry destinationField flags masked
  let (_, s) ← writeIoApicRedirect redirectTablePos entry s
  -- the entry that is read back is another one
  let (_, s) := readIoApicRedirect ioredtbl1 s
  .ok s

/-- `set_irq_mask`. -/
def setIrqMask (redirectTablePos : BitVec 8) (maskedStatus : Bool) (s : IoApic) :
    Exec (Int × IoApic) :=
  match readIoApicRedirect redirectTablePos s with
  | (some readEntry, s) => do
    let (_, s) ← writeIoApicRedirect redirectTablePos (setInterruptMask maskedStatus readEntry) s
    .ok (0, s)
  | (none, s) => .ok (-1, s)

/-! ## Calls -/

inductive IrqCall where
  | setIrq (irqType redirectTablePos idtEntry destinationField : BitVec 8) (flags : BitVec 32)
      (masked : Bool)
  | setIrqMask (redirectTablePos : BitVec 8) (maskedStatus : Bool)
  deriving DecidableEq, Repr

def IrqCall.pos : IrqCall → BitVec 8
  | .setIrq _ redirectTablePos _ _ _ _ => redirectTablePos
  | .setIrqMask redirectTablePos _ => redirectTablePos

def IrqCall.mask : IrqCall → Bool
  | .setIrq _ _ _ _ _ masked => masked
  | .setIrqMask _ maskedStatus => maskedStatus

def ioApicExec (s : IoApic) : IrqCall → Exec IoApic
  | .setIrq irqType redirectTablePos idtEntry destinationField flags masked =>
    setIrq irqType redirectTablePos idtEntry destinationField flags masked s
  | .setIrqMask redirectTablePos maskedStatus => do
    let (_, s) ← setIrqMask redirectTablePos maskedStatus s
    .ok s

/-- The redirection entry at a position, as the hardware has it. -/
def IoApic.redirectEntry (s : IoApic) (pos : BitVec 8) : BitVec 64 :=
  BitFields.join 64 (s.registers (pos + 1#8)) (s.registers pos)

section Registers

variable {s t : IoApic} {index pos : BitVec 8} {raw : BitVec 64}

/-- The driver's view of the device has not changed. -/
structure SameDevice (s t : IoApic) : Prop where
  address   : t.ioApicHhBaseAddress = s.ioApicHhBaseAddress
  overrides : t.ioApicSourceOverrides = s.ioApicSourceOverrides

/-- Reading an entry selects registers and changes none. -/
theorem readIoApicRedirect_spec (index : BitVec 8) (hbase : s.ioApicHhBaseAddress ≠ 0) :
    (readIoApicRedirect index s).1 =
      (if isRedirect index then some (s.redirectEntry index) else none) ∧
      (readIoApicRedirect index s).2.registers = s.registers ∧
      SameDevice s (readIoApicRedirect index s).2 := by
  unfold readIoApicRedirect readIoApicRegister
  by_cases hindex : isRedirect index = true
  · simp only [if_pos hindex, if_neg hbase]
    rw [if_neg (show (s.writeSelect index).ioApicHhBaseAddress ≠ 0 from hbase)]
    exact ⟨rfl, rfl, rfl, rfl⟩
  · simp only [if_neg hindex]
    exact ⟨trivial, trivial, rfl, rfl⟩

theorem isRedirect_iff :
    isRedirect pos = true ↔ 16 ≤ pos.toNat ∧ pos.toNat ≤ 63 ∧ pos.toNat % 2 = 0 := by
  unfold isRedirect
  simp [BitVec.lt_def, ← BitVec.toNat_inj]
  omega

/-- Positions of entries are even, so two of them have no register in common. -/
theorem redirect_ne (hindex : isRedirect index = true) (hpos : isRedirect pos = true)
    (hne : pos ≠ index) :
    pos ≠ index + 1#8 ∧ pos + 1#8 ≠ index ∧ pos + 1#8 ≠ index + 1#8 := by
  rw [isRedirect_iff] at hindex hpos
  simp only [ne_eq, ← BitVec.toNat_inj, BitVec.toNat_add, BitVec.toNat_ofNat] at *
  omega

theorem writeIoApicRegister_ok (offset : BitVec 8) (value : BitVec 32)
    (hbase : s.ioApicHhBaseAddress ≠ 0) :
    writeIoApicRegister offset value s = .ok ((s.writeSelect offset).writeWindow value) :=
  if_neg hbase

/-- Writing an entry. -/
theorem writeIoApicRedirect_spec (index : BitVec 8) (raw : BitVec 64)
    (hbase : s.ioApicHhBaseAddress ≠ 0) :
    ∃ result t, writeIoApicRedirect index raw s = .ok (result, t) ∧ SameDevice s t ∧
      (isRedirect index → t.redirectEntry index = raw) ∧
      ∀ r, (isRedirect index → r ≠ index ∧ r ≠ index + 1#8) → t.registers r = s.registers r := by
  unfold writeIoApicRedirect
  by_cases hindex : isRedirect index = true
  · rw [if_pos hindex]
    dsimp only
    rw [writeIoApicRegister_ok _ _ hbase, ok_bind,
      writeIoApicRegister_ok (s := (s.writeSelect index).writeWindow _) _ _ hbase, ok_bind]
    have hne : index ≠ index + 1#8 := by bv_omega
    refine ⟨0, _, rfl, ⟨rfl, rfl⟩, fun _ => ?_, fun r hr => ?_⟩
    · unfold IoApic.redirectEntry IoApic.writeWindow IoApic.writeSelect
      dsimp only
      rw [Function.update_self, Function.update_of_ne hne, Function.update_self]
      exact BitFields.join_split (by decide) raw
    · obtain ⟨hlow, hhigh⟩ := hr hindex
      unfold IoApic.writeWindow IoApic.writeSelect
      dsimp only
      rw [Function.update_of_ne hhigh, Function.update_of_ne hlow]
  · rw [if_neg hindex]
    exact ⟨-1, s, rfl, ⟨rfl, rfl⟩, fun h => absurd h hindex, fun r _ => rfl⟩

/-- The registers of an entry that a call leaves alone. -/
theorem redirectEntry_kept (hregisters : ∀ r, (isRedirect index → r ≠ index ∧ r ≠ index + 1#8) →
    t.registers r = s.registers r) (hpos : isRedirect pos = true) (hne : pos ≠ index) :
    t.redirectEntry pos = s.redirectEntry pos := by
  unfold IoApic.redirectEntry
  rw [hregisters pos fun h => ⟨hne, (redirect_ne h hpos hne).1⟩,
    hregisters (pos + 1#8) fun h => (redirect_ne h hpos hne).2]

/-- The entry at the position of a call, after the call. -/
def IrqCall.entry (overrides : List SourceOverride) (before : BitVec 64) : IrqCall → BitVec 64
  | .setIrq irqType _ idtEntry destinationField flags masked =>
    setIrqEntry overrides irqType idtEntry destinationField flags masked
  | .setIrqMask _ maskedStatus => setInterruptMask maskedStatus before

/-- **What a call does.** It returns, it writes the entry at its position if that is one, and
no other register. -/
theorem ioApicExec_spec (call : IrqCall) (hbase : s.ioApicHhBaseAddress ≠ 0) :
    ∃ t, ioApicExec s call = .ok t ∧ SameDevice s t ∧
      (isRedirect call.pos → t.redirectEntry call.pos =
        call.entry s.ioApicSourceOverrides (s.redirectEntry call.pos)) ∧
      ∀ r, (isRedirect call.pos → r ≠ call.pos ∧ r ≠ call.pos + 1#8) →
        t.registers r = s.registers r := by
  cases call with
  | setIrq irqType pos idtEntry destinationField flags masked =>
    obtain ⟨result, t, hwrite, hsame, hentry, hother⟩ := writeIoApicRedirect_spec pos
      (setIrqEntry s.ioApicSourceOverrides irqType idtEntry destinationField flags masked) hbase
    have hbase' : t.ioApicHhBaseAddress ≠ 0 := hsame.address ▸ hbase
    -- `set_irq` ends with a read of a fixed entry, whatever position it has written
    obtain ⟨-, hregisters, hsame'⟩ := readIoApicRedirect_spec ioredtbl1 hbase'
    refine ⟨(readIoApicRedirect ioredtbl1 t).2, ?_, ?_, ?_, ?_⟩
    · unfold ioApicExec setIrq
      dsimp only
      rw [hwrite, ok_bind]
    · exact ⟨hsame'.address.trans hsame.address, hsame'.overrides.trans hsame.overrides⟩
    · unfold IoApic.redirectEntry
      rw [hregisters]
      exact hentry
    · rw [hregisters]
      exact hother
  | setIrqMask pos maskedStatus =>
    obtain ⟨hread, hregisters, hsame⟩ := readIoApicRedirect_spec pos hbase
    unfold ioApicExec setIrqMask
    rcases hcall : readIoApicRedirect pos s with ⟨entry, s₁⟩
    rw [hcall] at hread hregisters hsame
    dsimp only at hread hregisters hsame ⊢
    -- outside the table nothing is read, and nothing is written back
    by_cases hpos : isRedirect pos = true
    · rw [if_pos hpos] at hread
      obtain ⟨result, t, hwrite, hsame', hentry, hother⟩ := writeIoApicRedirect_spec pos
        (setInterruptMask maskedStatus (s.redirectEntry pos)) (hsame.address ▸ hbase)
      rw [hread] at hcall
      rw [hcall]
      refine ⟨t, ?_, ⟨hsame'.address.trans hsame.address, hsame'.overrides.trans hsame.overrides⟩,
        hentry, ?_⟩
      · dsimp only
        rw [hwrite]
        rfl
      · rw [← hregisters]
        exact hother
    · rw [if_neg hpos] at hread
      rw [hread] at hcall
      rw [hcall]
      refine ⟨s₁, rfl, hsame, fun h => absurd h hpos, fun r _ => ?_⟩
      rw [hregisters]

end Registers

/-! ## What the calls ask for -/

/-- Bit `i` of an entry that `set_irq` asks for, the mask aside: the destination in the upper
8 bits, polarity and trigger mode from the first override for the interrupt, if there is one,
and the vector and the flags. -/
def requestedBit (overrides : List SourceOverride) (irqType idtEntry destinationField : BitVec 8)
    (flags : BitVec 32) (i : Nat) : Bool :=
  if 56 ≤ i then destinationField.getLsbD (i - 56)
  else
    match overrides.find? (·.irqSource = irqType) with
    | some o =>
      if i = 13 then o.polarity
      else if i = 15 then o.trigger
      else flags.getLsbD i || idtEntry.getLsbD i
    | none => flags.getLsbD i || idtEntry.getLsbD i

/-- The bits that a call asks for at a position, if it is a `set_irq` there. -/
def IrqCall.requested (overrides : List SourceOverride) (pos : BitVec 8) :
    IrqCall → Option (Nat → Bool)
  | .setIrq irqType redirectTablePos idtEntry destinationField flags _ =>
    if redirectTablePos = pos then
      some (requestedBit overrides irqType idtEntry destinationField flags)
    else none
  | .setIrqMask _ _ => none

/-- The mask that a call asks for at a position. -/
def IrqCall.requestedMask (pos : BitVec 8) (call : IrqCall) : Option Bool :=
  if call.pos = pos then some call.mask else none

/-- Bit `i` of the entry at a position after the calls: the mask bit as the last call there
has it, the others as the last `set_irq` there has them. -/
def expectedBit (overrides : List SourceOverride) (initial : BitVec 64) (pos : BitVec 8)
    (calls : List IrqCall) (i : Nat) : Bool :=
  if i = 16 then
    (calls.filterMap (IrqCall.requestedMask pos)).getLast?.getD (initial.getLsbD i)
  else
    ((calls.filterMap (IrqCall.requested overrides pos)).getLast?.map (· i)).getD
      (initial.getLsbD i)

section Entries

variable {overrides : List SourceOverride} {initial entry : BitVec 64} {pos : BitVec 8}
  {calls : List IrqCall} {call : IrqCall} {i : Nat}

/-- The vector and the flags, in the lower half of the entry. -/
theorem getLsbD_vector_flags (idtEntry : BitVec 8) (flags : BitVec 32) (hi : i < 64) :
    ((flags ||| idtEntry.setWidth 32).setWidth 64).getLsbD i =
      (flags.getLsbD i || idtEntry.getLsbD i) := by
  rw [BitVec.getLsbD_setWidth, BitVec.getLsbD_or, BitVec.getLsbD_setWidth]
  by_cases hlow : i < 32
  · simp [hi, hlow]
  · simp [BitVec.getLsbD_of_ge flags i (by omega), BitVec.getLsbD_of_ge idtEntry i (by omega)]

/-- The entry that `set_irq` builds has the bits that are asked for. -/
theorem getLsbD_setIrqEntry (irqType idtEntry destinationField : BitVec 8) (flags : BitVec 32)
    (masked : Bool) (hi : i < 64) :
    (setIrqEntry overrides irqType idtEntry destinationField flags masked).getLsbD i =
      if i = 16 then masked
      else requestedBit overrides irqType idtEntry destinationField flags i := by
  unfold setIrqEntry requestedBit setInterruptMask setDestinationField
  dsimp only
  rw [BitFields.getLsbD_set_ofBool hi]
  by_cases hmask : i = 16
  · rw [if_pos hmask, if_pos hmask]
  · rw [if_neg hmask, if_neg hmask, BitFields.getLsbD_set hi]
    by_cases hdestination : 56 ≤ i
    · rw [if_pos ⟨hdestination, hi⟩, if_pos hdestination]
    · rw [if_neg fun h => hdestination h.1, if_neg hdestination]
      cases overrides.find? (·.irqSource = irqType) with
      | none => exact getLsbD_vector_flags idtEntry flags hi
      | some o =>
        dsimp only
        unfold setTriggerMode setPinPolarity
        rw [BitFields.getLsbD_set_ofBool hi, BitFields.getLsbD_set_ofBool hi,
          getLsbD_vector_flags idtEntry flags hi]
        -- the two bits are different ones
        by_cases hpolarity : i = 13
        · rw [if_neg (by omega), if_pos hpolarity, if_pos hpolarity]
        · rw [if_neg hpolarity, if_neg hpolarity]

/-- A call at another position changes nothing that is expected here. -/
theorem expectedBit_other (hne : call.pos ≠ pos) :
    expectedBit overrides initial pos (calls ++ [call]) i =
      expectedBit overrides initial pos calls i := by
  have hmask : IrqCall.requestedMask pos call = none := if_neg hne
  have hrequested : IrqCall.requested overrides pos call = none := by
    cases call with
    | setIrq irqType redirectTablePos idtEntry destinationField flags masked => exact if_neg hne
    | setIrqMask redirectTablePos maskedStatus => rfl
  unfold expectedBit
  simp only [List.filterMap_append, List.filterMap_cons, List.filterMap_nil, hmask, hrequested,
    List.append_nil]

/-- A call at this position. -/
theorem expectedBit_here (hi : i < 64)
    (hentry : entry.getLsbD i = expectedBit overrides initial call.pos calls i) :
    (call.entry overrides entry).getLsbD i =
      expectedBit overrides initial call.pos (calls ++ [call]) i := by
  have hmask : IrqCall.requestedMask call.pos call = some call.mask := if_pos rfl
  unfold expectedBit at hentry ⊢
  simp only [List.filterMap_append, List.filterMap_cons, List.filterMap_nil, hmask,
    List.getLast?_append, List.getLast?_singleton, Option.some_or, Option.getD_some]
  cases call with
  | setIrq irqType pos idtEntry destinationField flags masked =>
    have hrequested : IrqCall.requested overrides pos
        (.setIrq irqType pos idtEntry destinationField flags masked) =
          some (requestedBit overrides irqType idtEntry destinationField flags) := if_pos rfl
    refine (getLsbD_setIrqEntry irqType idtEntry destinationField flags masked hi).trans ?_
    simp only [IrqCall.pos, IrqCall.mask, hrequested, List.getLast?_singleton, Option.some_or,
      Option.map_some, Option.getD_some]
  | setIrqMask pos maskedStatus =>
    -- the other bits stay as they are
    have hrequested : IrqCall.requested overrides pos (.setIrqMask pos maskedStatus) = none := rfl
    refine (BitFields.getLsbD_set_ofBool hi maskedStatus entry).trans ?_
    simp only [IrqCall.pos, IrqCall.mask, hrequested, List.getLast?_nil, Option.none_or]
    by_cases hbit : i = 16
    · rw [if_pos hbit, if_pos hbit]
    · rw [if_neg hbit] at hentry ⊢
      rw [if_neg hbit]
      exact hentry

/-- **The redirection entries are what the calls asked for**, whatever calls there were. Every
call returns, and changes no register but the two of the entry at its position. -/
theorem redirects_programmed (s : IoApic) (hbase : s.ioApicHhBaseAddress ≠ 0)
    (calls : List IrqCall) :
    (∃ t, calls.foldlM ioApicExec s = .ok t ∧
      ∀ pos, isRedirect pos → ∀ i < 64, (t.redirectEntry pos).getLsbD i =
        expectedBit s.ioApicSourceOverrides (s.redirectEntry pos) pos calls i) ∧
    ∀ before call u v, before ++ [call] <+: calls → before.foldlM ioApicExec s = .ok u →
      ioApicExec u call = .ok v → ∀ r,
        (isRedirect call.pos → r ≠ call.pos ∧ r ≠ call.pos + 1#8) →
        v.registers r = u.registers r := by
  -- by induction on the calls from the last one back, with the device unchanged throughout
  have hall : ∀ calls : List IrqCall, ∃ t, calls.foldlM ioApicExec s = .ok t ∧ SameDevice s t ∧
      ∀ pos, isRedirect pos → ∀ i < 64, (t.redirectEntry pos).getLsbD i =
        expectedBit s.ioApicSourceOverrides (s.redirectEntry pos) pos calls i := by
    intro calls
    induction calls using List.reverseRecOn with
    | nil =>
      refine ⟨s, rfl, ⟨rfl, rfl⟩, fun pos _ i _ => ?_⟩
      unfold expectedBit
      exact (ite_self _).symm
    | append_singleton calls call ih =>
      obtain ⟨t, hrun, hsame, hentries⟩ := ih
      obtain ⟨u, hexec, hsame', hentry, hother⟩ :=
        ioApicExec_spec call (hsame.address.trans_ne hbase)
      refine ⟨u, ?_, ⟨hsame'.address.trans hsame.address,
        hsame'.overrides.trans hsame.overrides⟩, fun pos hpos i hi => ?_⟩
      · rw [List.foldlM_append, hrun, ok_bind, List.foldlM_cons, hexec]
        rfl
      · by_cases hat : call.pos = pos
        · obtain rfl := hat
          rw [hentry hpos, hsame.overrides]
          exact expectedBit_here hi (hentries _ hpos i hi)
        · rw [redirectEntry_kept hother hpos (Ne.symm hat), hentries pos hpos i hi,
            expectedBit_other hat]
  refine ⟨?_, fun before call u v _ hrun hexec r hr => ?_⟩
  · obtain ⟨t, hrun, -, hentries⟩ := hall calls
    exact ⟨t, hrun, hentries⟩
  · obtain ⟨u', hrun', hsame, -⟩ := hall before
    obtain rfl := Except.ok.inj (hrun.symm.trans hrun')
    obtain ⟨v', hexec', -, -, hother⟩ := ioApicExec_spec call (hsame.address.trans_ne hbase)
    obtain rfl := Except.ok.inj (hexec.symm.trans hexec')
    exact hother r hr

/-- An IO-APIC with all registers 0, and an override that makes interrupt 1 active low and
level triggered. -/
def exampleIoApic : IoApic := ⟨0xFFFF8000FEC00000, [⟨1#8, 0xA#16⟩], 0#8, fun _ => 0#32⟩

/-- The keyboard's interrupt is set up and then masked. -/
theorem redirects_programmed_keyboard :
    ∃ t, [IrqCall.setIrq 1#8 0x12#8 0x21#8 0#8 0#32 false, .setIrqMask 0x12#8 true].foldlM
        ioApicExec exampleIoApic = .ok t ∧ t.redirectEntry 0x12#8 = 0x1A021#64 := by
  obtain ⟨⟨t, hrun, hentries⟩, -⟩ := redirects_programmed exampleIoApic (by decide)
    [.setIrq 1#8 0x12#8 0x21#8 0#8 0#32 false, .setIrqMask 0x12#8 true]
  refine ⟨t, hrun, BitVec.eq_of_getLsbD_eq fun i hi => ?_⟩
  rw [hentries 0x12#8 (by decide) i hi]
  revert i
  decide

end Entries

end Dreamos64
