import Dreamos64.Arch.PageTable
import Dreamos64.Libc.Strings

/-!
# Dreamos64 — the interrupt controllers' table

`madt.c`: the table of interrupt controllers is a header and a sequence of entries, each with a
type and a length. `get_MADT_item` walks over the entries and counts those of one type; the
counter and the offset that it looks for are bytes.

* `getMadtItem_walk`       — one entry of the walk after the other;
* `get_madt_item_selects`  — the entry that is found.
-/

namespace Dreamos64

open Machine

/-! ## Addresses -/

def vmTypeMemory : UInt8 := 0
def vmTypeMmio : UInt8 := 1

/-- `ensure_address_in_higher_half`; the padding is a page. -/
def ensureAddressInHigherHalf (m : PageMode) (address : UInt64) (type : UInt8) : UInt64 :=
  let padding := (pageSizeInBytes m).toUInt64
  let ensure := fun offset : UInt64 =>
    if address > offset + padding then address else address + offset + padding
  if type = vmTypeMemory then ensure higherHalfAddressOffset.toUInt64
  else if type = vmTypeMmio then ensure mmioHigherHalfAddressOffset.toUInt64
  else 0

/-! ## `madt.c` -/

/-- `sizeof(MADT)`: the entries begin there. -/
def sizeofMadt : Nat := 44

def madtId : CString := .ofChars ['A', 'P', 'I', 'C']

/-- A number of `n` bytes, the lowest one first. -/
def numberOf (bytes : Nat → UInt8) (n : Nat) : Nat :=
  (List.range n).foldl (fun value i => value + (bytes i).toNat * 256 ^ i) 0

def readNumber (mem : UInt64 → UInt8) (a : UInt64) (n : Nat) : Nat :=
  numberOf (fun i => mem (a + i.toUInt64)) n

section Table

variable (mem : UInt64 → UInt8)

/-- `header.Signature`, four characters without a NUL. -/
def headerSignature (table : UInt64) : CharPtr := fun i => mem (table + i.toUInt64)

/-- `header.Length`, a `uint32_t`. -/
def headerLength (table : UInt64) : Nat := readNumber mem (table + 4) 4

/-- `map_madt`: the new value of `madt_base`. -/
def mapMadt (m : PageMode) (madtBase table : UInt64) : UInt64 :=
  if strncmp (headerSignature mem table) madtId.bytes 4 ≠ 0 then madtBase
  else ensureAddressInHigherHalf m (table + sizeofMadt.toUInt64) vmTypeMmio

/-- The variables of `get_MADT_item`. `total_length` is a `uint64_t`, and the loop ends long before
it could wrap. -/
structure MadtWalk where
  item        : UInt64
  totalLength : Nat
  counter     : UInt8

/-- One turn of the loop of `get_MADT_item`. -/
def getMadtItemBody (madtBase : UInt64) (length : Nat) (type offset : UInt8) (s : MadtWalk) :
    Exec (LoopStep MadtWalk (Option UInt64)) :=
  if s.totalLength + sizeofMadt < length ∧ s.counter ≤ offset then
    if mem s.item = type ∧ s.counter = offset then .ok (.done (some s.item))
    else
      let counter := if mem s.item = type then s.counter + 1 else s.counter
      let totalLength := s.totalLength + (mem (s.item + 1)).toNat
      .ok (.next ⟨madtBase + totalLength.toUInt64, totalLength, counter⟩)
  else .ok (.done none)

/-- `get_MADT_item`: the item, and `madt_base`, which may be NULL before. -/
def getMadtItem (m : PageMode) (fuel : Nat) (madtBase table : UInt64) (type offset : UInt8) :
    Exec (Option UInt64 × UInt64) :=
  let madtBase := if madtBase = 0 then mapMadt mem m madtBase table else madtBase
  if strncmp (headerSignature mem table) madtId.bytes 4 ≠ 0 then .ok (none, madtBase)
  else do
    let item ← loop (getMadtItemBody mem madtBase (headerLength mem table) type offset) fuel
      ⟨madtBase, 0, 0⟩
    .ok (item, madtBase)

end Table

theorem numberOf_succ (bytes : Nat → UInt8) (n : Nat) :
    numberOf bytes (n + 1) = numberOf bytes n + (bytes n).toNat * 256 ^ n := by
  unfold numberOf
  rw [List.range_succ, List.foldl_append]
  rfl

theorem numberOf_lt (bytes : Nat → UInt8) (n : Nat) : numberOf bytes n < 256 ^ n := by
  induction n with
  | zero => exact Nat.one_pos
  | succ n ih =>
    have hbyte : (bytes n).toNat + 1 ≤ 256 := (bytes n).toNat_lt
    calc numberOf bytes (n + 1)
        < 256 ^ n + (bytes n).toNat * 256 ^ n := by
          rw [numberOf_succ]
          exact Nat.add_lt_add_right ih _
      _ = ((bytes n).toNat + 1) * 256 ^ n := by
          rw [Nat.add_mul, Nat.one_mul, Nat.add_comm]
      _ ≤ 256 * 256 ^ n := Nat.mul_le_mul_right _ hbyte
      _ = 256 ^ (n + 1) := by rw [Nat.pow_succ, Nat.mul_comm]

theorem headerLength_lt (mem : UInt64 → UInt8) (table : UInt64) :
    headerLength mem table < 2 ^ 32 :=
  numberOf_lt (fun i => mem (table + 4 + i.toUInt64)) 4

/-! ## Tables in memory -/

/-- An entry has at least its type and its length. -/
structure MadtEntry where
  type   : UInt8
  length : UInt8
  two_le : 2 ≤ length.toNat

/-- The bytes of some entries. -/
def entriesLength (entries : List MadtEntry) : Nat := (entries.map fun e => e.length.toNat).sum

/-- The number of entries of a type. -/
def entriesOf (type : UInt8) (entries : List MadtEntry) : Nat := entries.countP (·.type = type)

/-- The entries are at `a`, one after the other; what they hold behind the length is arbitrary. -/
def EntriesAt (mem : UInt64 → UInt8) : UInt64 → List MadtEntry → Prop
  | _, [] => True
  | a, e :: rest =>
    mem a = e.type ∧ mem (a + 1) = e.length ∧ EntriesAt mem (a + e.length.toNat.toUInt64) rest

/-- A table, with `madt_base` at the first of its entries. -/
structure MadtAt (mem : UInt64 → UInt8) (madtBase table : UInt64) (entries : List MadtEntry) :
    Prop where
  signature  : strncmp (headerSignature mem table) madtId.bytes 4 = 0
  base_ne    : madtBase ≠ 0
  entries_at : EntriesAt mem madtBase entries
  length_eq  : headerLength mem table = sizeofMadt + entriesLength entries

/-- The entry of a type before which there are `offset` entries of that type, or none if there is
no such entry. -/
inductive SelectedEntry (madtBase : UInt64) (entries : List MadtEntry) (type : UInt8)
    (offset : Nat) : Option UInt64 → Prop
  | entry {before after : List MadtEntry} {e : MadtEntry} (hsplit : entries = before ++ e :: after)
      (htype : e.type = type) (hbefore : entriesOf type before = offset) :
      SelectedEntry madtBase entries type offset
        (some (madtBase + (entriesLength before).toUInt64))
  | none (hfew : entriesOf type entries ≤ offset) :
      SelectedEntry madtBase entries type offset none

/-! ## The walk -/

section Walk

variable {mem : UInt64 → UInt8} {a madtBase table : UInt64} {entries before rest : List MadtEntry}
  {type offset : UInt8}

theorem entriesLength_append (before rest : List MadtEntry) :
    entriesLength (before ++ rest) = entriesLength before + entriesLength rest := by
  unfold entriesLength
  rw [List.map_append, List.sum_append]

theorem entriesOf_append (type : UInt8) (before rest : List MadtEntry) :
    entriesOf type (before ++ rest) = entriesOf type before + entriesOf type rest :=
  List.countP_append

/-- Lengths are added to an address that may wrap. -/
theorem add_entriesLength_cons (a : UInt64) (e : MadtEntry) (before : List MadtEntry) :
    a + (entriesLength (e :: before)).toUInt64 =
      a + e.length.toNat.toUInt64 + (entriesLength before).toUInt64 := by
  rw [UInt64.add_assoc]
  congr 1
  show UInt64.ofNat (e.length.toNat + entriesLength before) = _
  rw [UInt64.ofNat_add]

/-- What comes after some entries is as far behind as they are long. -/
theorem EntriesAt.drop (h : EntriesAt mem a (before ++ rest)) :
    EntriesAt mem (a + (entriesLength before).toUInt64) rest := by
  induction before generalizing a with
  | nil =>
    have hzero : a + (entriesLength []).toUInt64 = a := UInt64.add_zero a
    rw [hzero]
    exact h
  | cons e before ih =>
    rw [add_entriesLength_cons]
    exact ih h.2.2

/-- The walk is at the entry behind `before`. -/
def MadtWalk.behind (madtBase : UInt64) (before : List MadtEntry) (counter : UInt8) : MadtWalk :=
  ⟨madtBase + (entriesLength before).toUInt64, entriesLength before, counter⟩

/-- An entry that is left is not behind the end of the table. -/
theorem entriesLength_lt (before : List MadtEntry) (e : MadtEntry) (rest : List MadtEntry) :
    entriesLength before + sizeofMadt < sizeofMadt + entriesLength (before ++ e :: rest) := by
  have htwo := e.two_le
  have hcons : entriesLength (e :: rest) = e.length.toNat + entriesLength rest := rfl
  rw [entriesLength_append]
  omega

/-- A turn that passes an entry, and counts it if it is of the type. -/
theorem getMadtItemBody_pass {e : MadtEntry} {counter : UInt8}
    (h : EntriesAt mem madtBase (before ++ e :: rest)) (hle : counter ≤ offset)
    (hpass : ¬(e.type = type ∧ counter = offset)) :
    getMadtItemBody mem madtBase (sizeofMadt + entriesLength (before ++ e :: rest)) type offset
        (.behind madtBase before counter) =
      .ok (.next (.behind madtBase (before ++ [e])
        (if e.type = type then counter + 1 else counter))) := by
  obtain ⟨htype, hlength, -⟩ := h.drop
  have hlen : entriesLength (before ++ [e]) = entriesLength before + e.length.toNat :=
    entriesLength_append before [e]
  unfold getMadtItemBody MadtWalk.behind
  rw [if_pos ⟨entriesLength_lt before e rest, hle⟩]
  dsimp only
  rw [htype, hlength, if_neg hpass, hlen]

/-- A turn that stops at an entry. -/
theorem getMadtItemBody_found {e : MadtEntry}
    (h : EntriesAt mem madtBase (before ++ e :: rest)) (htype : e.type = type) :
    getMadtItemBody mem madtBase (sizeofMadt + entriesLength (before ++ e :: rest)) type offset
        (.behind madtBase before offset) =
      .ok (.done (some (madtBase + (entriesLength before).toUInt64))) := by
  unfold getMadtItemBody MadtWalk.behind
  rw [if_pos ⟨entriesLength_lt before e rest, UInt8.le_refl offset⟩,
    if_pos ⟨h.drop.1.trans htype, rfl⟩]

/-- A counter below another byte does not wrap. -/
theorem toNat_counter_succ {counter : UInt8} (h : counter < offset) :
    (counter + 1).toNat = counter.toNat + 1 := by
  have hlt := UInt8.lt_iff_toNat_lt.mp h
  have hoffset := offset.toNat_lt
  rw [UInt8.toNat_add]
  show (counter.toNat + 1) % 256 = _
  omega

/-- **The walk over the entries that are left.** The counter does not wrap, because it stays at
most the offset. -/
theorem getMadtItem_walk (h : EntriesAt mem madtBase (before ++ rest)) {counter : UInt8}
    (hcounter : counter.toNat = entriesOf type before) (hle : counter ≤ offset) :
    ∃ item, loop (getMadtItemBody mem madtBase (sizeofMadt + entriesLength (before ++ rest)) type
        offset) (rest.length + 1) (.behind madtBase before counter) = .ok item ∧
      SelectedEntry madtBase (before ++ rest) type offset.toNat item := by
  -- on the entries that are left, with those that were passed
  induction rest generalizing before counter with
  | nil =>
    refine ⟨none, loop_done (if_neg fun hgo => ?_), .none ?_⟩
    · have hlt : entriesLength before + sizeofMadt < sizeofMadt + entriesLength (before ++ []) :=
        hgo.1
      rw [List.append_nil] at hlt
      omega
    · rw [List.append_nil, ← hcounter]
      exact UInt8.le_iff_toNat_le.mp hle
  | cons e rest ih =>
    by_cases hfound : e.type = type ∧ counter = offset
    · obtain ⟨htype, rfl⟩ := hfound
      exact ⟨_, loop_done (getMadtItemBody_found h htype), .entry rfl htype hcounter.symm⟩
    · have hturn := getMadtItemBody_pass h hle hfound
      -- what is left is walked from behind this entry
      have hsplit : before ++ e :: rest = before ++ [e] ++ rest := List.append_cons before e rest
      have hof : entriesOf type (before ++ [e]) =
          entriesOf type before + if e.type = type then 1 else 0 := by
        rw [entriesOf_append]
        simp [entriesOf]
      rw [List.length_cons, loop_next hturn]
      rw [hsplit] at h ⊢
      -- only an entry of the type is counted, and then the offset is not reached yet
      by_cases htype : e.type = type
      · have hlt := UInt8.lt_of_le_of_ne hle fun heq => hfound ⟨htype, heq⟩
        have hsucc := toNat_counter_succ hlt
        rw [if_pos htype] at hof ⊢
        refine ih h (by omega) (UInt8.le_iff_toNat_le.mpr ?_)
        have := UInt8.lt_iff_toNat_lt.mp hlt
        omega
      · rw [if_neg htype] at hof ⊢
        exact ih h (by omega) hle

section

variable (h : MadtAt mem madtBase table entries)

include h

/-- On a table the signature is the right one, and `madt_base` stays where it is. -/
theorem MadtAt.getMadtItem_eq (m : PageMode) (fuel : Nat) (type offset : UInt8) :
    getMadtItem mem m fuel madtBase table type offset =
      loop (getMadtItemBody mem madtBase (sizeofMadt + entriesLength entries) type offset) fuel
        ⟨madtBase, 0, 0⟩ >>= fun item => .ok (item, madtBase) := by
  unfold getMadtItem
  rw [if_neg h.base_ne, if_neg (not_not_intro h.signature), h.length_eq]

/-- The walk over all entries. -/
theorem MadtAt.walk (type offset : UInt8) :
    ∃ item, loop (getMadtItemBody mem madtBase (sizeofMadt + entriesLength entries) type offset)
        (entries.length + 1) ⟨madtBase, 0, 0⟩ = .ok item ∧
      SelectedEntry madtBase entries type offset.toNat item := by
  have hentries : EntriesAt mem madtBase ([] ++ entries) := h.entries_at
  have hcounter : (0 : UInt8).toNat = entriesOf type [] := rfl
  have hstart : MadtWalk.behind madtBase [] 0 = ⟨madtBase, 0, 0⟩ :=
    congrArg (MadtWalk.mk · 0 0) (UInt64.add_zero madtBase)
  obtain ⟨item, hloop, hselected⟩ := getMadtItem_walk hentries hcounter
    (UInt8.le_iff_toNat_le.mpr (Nat.zero_le offset.toNat))
  rw [hstart, List.nil_append] at hloop
  exact ⟨item, hloop, hselected⟩

/-- Enough fuel for all entries is enough for the one that is looked for. -/
theorem MadtAt.getMadtItem_ok (m : PageMode) {fuel : Nat} (hfuel : entries.length + 1 ≤ fuel)
    (type offset : UInt8) :
    ∃ item, getMadtItem mem m fuel madtBase table type offset = .ok (item, madtBase) ∧
      SelectedEntry madtBase entries type offset.toNat item := by
  obtain ⟨item, hloop, hselected⟩ := h.walk type offset
  refine ⟨item, ?_, hselected⟩
  rw [h.getMadtItem_eq, loop_mono hfuel hloop, ok_bind]

/-- Whatever the fuel was, a result is that one. -/
theorem MadtAt.getMadtItem_inv {m : PageMode} {fuel : Nat} {type offset : UInt8}
    {result : Option UInt64 × UInt64}
    (hrun : getMadtItem mem m fuel madtBase table type offset = .ok result) :
    result.2 = madtBase ∧ SelectedEntry madtBase entries type offset.toNat result.1 := by
  obtain ⟨item, hloop, hselected⟩ := h.walk type offset
  rw [h.getMadtItem_eq] at hrun
  obtain ⟨item', hloop', hresult⟩ := bind_inv hrun
  obtain rfl := Except.ok.inj hresult
  exact ⟨rfl, loop_det hloop hloop' ▸ hselected⟩

end

/-- **Selection of an entry.** In a table whose entries fill it exactly, and for every type and
every offset, `get_MADT_item` ends and returns the entry of the type before which there are as
many entries of the type as the offset says, or NULL if there are not more than that. -/
theorem get_madt_item_selects (m : PageMode) (h : MadtAt mem madtBase table entries)
    (type offset : UInt8) :
    ∃ item, getMadtItem mem m (entries.length + 1) madtBase table type offset =
        .ok (item, madtBase) ∧
      SelectedEntry madtBase entries type offset.toNat item :=
  h.getMadtItem_ok m (Nat.le_refl _) type offset

end Walk

/-- A table at `0x1000` of a processor, a controller of the other kind and a second processor. -/
def smallMadt : UInt64 → UInt8 :=
  let bytes : List UInt8 := [0x41, 0x50, 0x49, 0x43, 64] ++ List.replicate 39 0 ++
    [0, 8, 0, 0, 1, 0, 0, 0] ++ [1, 4, 9, 9] ++ [0, 8, 1, 1, 1, 0, 0, 0]
  fun a => bytes.getD (a - 0x1000).toNat 0

def smallMadtEntries : List MadtEntry := [⟨0, 8, by decide⟩, ⟨1, 4, by decide⟩, ⟨0, 8, by decide⟩]

theorem smallMadt_at : MadtAt smallMadt 0x102C 0x1000 smallMadtEntries where
  signature  := by decide
  base_ne    := by decide
  entries_at := by
    show _ ∧ _ ∧ _ ∧ _ ∧ _ ∧ _ ∧ True
    refine ⟨?_, ?_, ?_, ?_, ?_, ?_, trivial⟩ <;> decide
  length_eq  := by decide

/-- The second processor of a table is behind its other controller. -/
theorem get_madt_item_selects_second :
    MadtAt smallMadt 0x102C 0x1000 smallMadtEntries ∧
      ∃ item, getMadtItem smallMadt .large 4 0x102C 0x1000 0 1 = .ok (item, 0x102C) ∧
        SelectedEntry 0x102C smallMadtEntries 0 1 item :=
  ⟨smallMadt_at, get_madt_item_selects .large smallMadt_at 0 1⟩

end Dreamos64
