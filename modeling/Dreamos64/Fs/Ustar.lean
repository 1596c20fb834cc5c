import Dreamos64.Fs.Vfs
import Dreamos64.Libc.NumberStrings
import Dreamos64.Lib.Walk

/-!
# Dreamos64 — the archive driver

`ustar.c`, and `octascii_to_dec` of `utils.c`. An archive is bytes in memory: a header of
`HEADER_SIZE` bytes for each entry, then its data. A `ustar_item *` is the address of a
header. The size of an entry is a field of eleven characters, which are read as octal digits
without a check; the step to the next header is computed from it as an `int`.

`ustar_seek` and `ustar_find` are two loops over the headers. They are embedded as they are,
with the number of zero blocks seen and, for `ustar_find`, the counter.

* `octasciiToDec_eq`    — the number that a field stands for, wrapped to an `int`;
* `octascii_to_dec_iff` — the fields of octal digits that are decoded right;
* `ustarIsZeroed_iff`   — 64 words are zero if 512 bytes are;
* `itemStep_pos_iff`    — the sizes for which the scan moves forward.
-/

namespace Dreamos64

open Machine

/-! ## `utils.c` -/

/-- The value of a `char`, which is signed. -/
def charValue (c : UInt8) : Int := (c.toNat : Int).bmod (2 ^ 8)

/-- The loop of `octascii_to_dec`, from the last digit to the first. -/
def octasciiFrom (number : CharPtr) : Nat → Int → Int → Int
  | 0, _, convertedValue => convertedValue
  | i + 1, n, convertedValue =>
    octasciiFrom number i (toInt32 (8 * n))
      (toInt32 (convertedValue + toInt32 ((charValue (number i) - 0x30) * n)))

/-- `octascii_to_dec`; the last of the `size` characters is not a digit. -/
def octasciiToDec (number : CharPtr) (size : Nat) : Int := octasciiFrom number (size - 1) 1 0

/-! ## `ustar.h` -/

def headerSize : Nat := 512
def ustarFilenameSize : Nat := 100
def ustarFilesizeSize : Nat := 12

/-- The fields of a `ustar_item` that are used, by their offsets: `file_mode` follows the 100
bytes of `filename`. -/
def fileModeOffset : Nat := 100
def fileSizeOffset : Nat := 124
def typeflagOffset : Nat := 156

/-! ## `ustar.c` -/

/-- The number in `n` bytes, the lowest first. -/
def readBytes (mem : Memory) (a : Int) : Nat → Nat
  | 0 => 0
  | n + 1 => (mem a).toNat + 2 ^ 8 * readBytes mem (a + 1) n

/-- `ustar_is_zeroed`: a header is looked at as 64 words of 8 bytes. -/
def ustarIsZeroed (mem : Memory) (tarItem : Int) : Bool :=
  (List.range 64).all fun counter => readBytes mem (tarItem + 8 * counter) 8 = 0

/-- `octascii_to_dec(tar_item->file_size, 12)`. -/
def itemFilesize (mem : Memory) (tarItem : Int) : Int :=
  octasciiToDec (mem.ptr (tarItem + fileSizeOffset)) ustarFilesizeSize

/-- `(((filesize + 511) / 512) + 1) * 512`, in `int`. -/
def itemStep (filesize : Int) : Int :=
  toInt32 (toInt32 ((toInt32 (filesize + 511)).tdiv 512 + 1) * 512)

/-- One turn of the loop of `ustar_seek`; the state is `n_zero_items` and `tar_item`, which is
`ptr` too. -/
def ustarSeekBody (mem : Memory) (filename : CString) :
    Nat × Int → Exec (LoopStep (Nat × Int) (Option Int))
  | (nZeroItems, tarItem) =>
    if nZeroItems < 2 then
      -- the same block is looked at again
      if ustarIsZeroed mem tarItem then .ok (.next (nZeroItems + 1, tarItem))
      else if strcmp filename (mem.ptr tarItem) = 0 then .ok (.done (some tarItem))
      else .ok (.next (nZeroItems, tarItem + itemStep (itemFilesize mem tarItem)))
    else .ok (.done none)

def ustarSeek (fuel : Nat) (mem : Memory) (filename : CString) (tarRoot : Int) :
    Exec (Option Int) :=
  loop (ustarSeekBody mem filename) fuel (0, tarRoot)

/-- The variables of `ustar_find`. -/
structure FindState where
  counter    : Nat
  nZeroItems : Nat
  tarItem    : Int

/-- The length of the message of `ustar_find`, for a name of `name` characters. -/
def foundMessage (name : Nat) : Nat := 26 + name

/-- One turn of the loop of `ustar_find`; `counter` is a `uint32_t`. -/
def ustarFindBody (mem : Memory) (filename : CString) (s : FindState) :
    Exec (LoopStep FindState (Int × Option Int)) :=
  let counter := (s.counter + 1) % 2 ^ 32
  if s.nZeroItems < 2 then
    if ustarIsZeroed mem s.tarItem then
      .ok (.next { s with counter, nZeroItems := s.nZeroItems + 1 })
    else if strcmp filename (mem.ptr s.tarItem) = 0 then do
      loglinef .verbose (foundMessage (loggedLength (mem.ptr s.tarItem)))
      .ok (.done (s.counter, some s.tarItem))
    else
      .ok (.next ⟨counter, 0, s.tarItem + itemStep (itemFilesize mem s.tarItem)⟩)
  else .ok (.done (-1, none))

/-- `ustar_find`: its result, and `*tar_out`. -/
def ustarFind (fuel : Nat) (mem : Memory) (filename : CString) (tarRoot : Int) :
    Exec (Int × Option Int) :=
  loop (ustarFindBody mem filename) fuel ⟨0, 0, tarRoot⟩

def ustarGetFileStart (fileItem : Option Int) : Option Int := fileItem.map (· + headerSize)

def ustarGetType (type : UInt8) : VnodeTypes :=
  if type = '0'.toNat.toUInt8 then .regularFile
  else if type = '5'.toNat.toUInt8 then .dir
  else .bad

/-- `ustar_lookup`: its result, and the vnode. `rootItem` is that of `ustar_root_fs`. -/
def ustarLookup (fuel : Nat) (mem : Memory) (rootItem : Int) (path : CString) (vnode : Vnode) :
    Exec (Int × Vnode) := do
  loglinef .verbose (38 + path.strlen + loggedHex rootItem.toNat)
  match ← ustarSeek fuel mem path rootItem with
  | none => .ok (-1, vnode)
  | some item =>
    let typeflag := mem (item + typeflagOffset)
    -- the type of what is no regular file is not set
    let vnode := if typeflag = '0'.toNat.toUInt8 then { vnode with vType := ustarGetType typeflag }
      else vnode
    .ok (0, { vnode with vData := some item.toNat, size := itemFilesize mem item })

/-- The memory during `ustar_read`, `i`, and what was written so far: addresses and bytes. -/
structure ReadState where
  mem    : Memory
  i      : Int
  stores : List (Int × UInt8)

/-- One turn of the loop of `ustar_read`; `i` is an `int`, and a `size_t` where it is compared. -/
def ustarReadBody (readBuffer buf : Int) (nbytes : Nat) (s : ReadState) :
    Exec (LoopStep ReadState (Int × List (Int × UInt8))) :=
  if s.i % 2 ^ 64 < nbytes then
    let byte := s.mem (readBuffer + s.i)
    let mem := Function.update s.mem (buf + s.i) byte
    let stores := s.stores ++ [(buf + s.i, byte)]
    -- the byte is written before it is compared
    if mem (readBuffer + s.i) = 0 then .ok (.done (s.i, stores))
    else .ok (.next ⟨mem, toInt32 (s.i + 1), stores⟩)
  else .ok (.done (s.i, s.stores))

/-- `ustar_read`: its result, and what it wrote, in order. -/
def ustarRead (fuel : Nat) (mem : Memory) (vnode : Vnode) (buf : Int) (nbytes : Nat) :
    Exec (Int × List (Int × UInt8)) :=
  match ustarGetFileStart (vnode.vData.map Int.ofNat) with
  | none => .ok (0, [])
  | some readBuffer => loop (ustarReadBody readBuffer buf nbytes) fuel ⟨mem, 0, []⟩

/-! ## Sizes -/

section Sizes

/-- The first `n` characters. -/
def fieldChars (number : CharPtr) (n : Nat) : List UInt8 := (List.range n).map number

theorem fieldChars_succ (number : CharPtr) (n : Nat) :
    fieldChars number (n + 1) = fieldChars number n ++ [number n] := by
  unfold fieldChars
  rw [List.range_succ, List.map_append]
  rfl

/-- The number that the first `n` characters stand for, read as octal digits. -/
def octalValue (number : CharPtr) (n : Nat) : Int :=
  positionalValue (fun c => charValue c - 0x30) 8 (fieldChars number n)

theorem octalValue_succ (number : CharPtr) (n : Nat) :
    octalValue number (n + 1) = octalValue number n * 8 + (charValue (number n) - 0x30) := by
  unfold octalValue positionalValue
  rw [fieldChars_succ, List.foldl_append]
  rfl

theorem octasciiFrom_eq (number : CharPtr) (i : Nat) (n value : Int) :
    octasciiFrom number i n (toInt32 value) = toInt32 (value + n * octalValue number i) := by
  -- on the digits that are left, with their weight and the sum so far arbitrary
  induction i generalizing n value with
  | zero =>
    have hzero : octalValue number 0 = 0 := rfl
    rw [octasciiFrom, hzero, Int.mul_zero, Int.add_zero]
  | succ i ih =>
    rw [octasciiFrom, ih, octalValue_succ]
    -- every product and sum was wrapped on its own
    obtain ⟨j, hj⟩ := toInt32_spec value
    obtain ⟨k, hk⟩ := toInt32_spec ((charValue (number i) - 0x30) * n)
    obtain ⟨l, hl⟩ := toInt32_spec (8 * n)
    rw [hj, hk, hl, ← toInt32_add_mul (value + _) (j + k + l * octalValue number i)]
    refine congrArg toInt32 ?_
    generalize (2 ^ 32 : Int) = modulus
    ring

/-- **Sizes.** A field stands for its octal value, wrapped. -/
theorem octasciiToDec_eq (number : CharPtr) (size : Nat) :
    octasciiToDec number size = toInt32 (octalValue number (size - 1)) := by
  have h := octasciiFrom_eq number (size - 1) 1 0
  rwa [Int.zero_add, Int.one_mul, toInt32_eq (by decide) (by decide)] at h

theorem charValue_digit {c : UInt8} {d : Nat} (h : c.toNat = 48 + d) (hd : d < 8) :
    charValue c - 0x30 = d := by
  unfold charValue
  rw [Int.bmod_eq_of_le (by omega) (by omega)]
  omega

/-- Some characters, all of them octal digits. -/
def OctalDigits (number : CharPtr) (n : Nat) : Prop :=
  ∀ i < n, 48 ≤ (number i).toNat ∧ (number i).toNat < 56

theorem readNumeral_fieldChars (number : CharPtr) (n : Nat) :
    readNumeral 8 (fieldChars number (n + 1)) =
      readNumeral 8 (fieldChars number n) * 8 + digitValue (number n) := by
  unfold readNumeral positionalValue
  rw [fieldChars_succ, List.foldl_append]
  rfl

theorem OctalDigits.digitValue_eq {number : CharPtr} {n i : Nat} (h : OctalDigits number n)
    (hi : i < n) : (number i).toNat = 48 + digitValue (number i) ∧ digitValue (number i) < 8 := by
  obtain ⟨hlow, hhigh⟩ := h i hi
  unfold digitValue
  rw [if_pos (by omega)]
  omega

/-- Octal digits are read at their value. -/
theorem octalValue_digits {number : CharPtr} {n : Nat} (h : OctalDigits number n) :
    octalValue number n = readNumeral 8 (fieldChars number n) := by
  induction n with
  | zero => rfl
  | succ n ih =>
    obtain ⟨hchar, hlt⟩ := h.digitValue_eq (Nat.lt_succ_self n)
    rw [octalValue_succ, ih fun i hi => h i (Nat.lt_succ_of_lt hi), charValue_digit hchar hlt,
      readNumeral_fieldChars]
    push_cast
    rfl

/-- The first digit tells how large the number is. -/
theorem readNumeral_first {number : CharPtr} {n : Nat} (h : OctalDigits number (n + 1)) :
    digitValue (number 0) * 8 ^ n ≤ readNumeral 8 (fieldChars number (n + 1)) ∧
      readNumeral 8 (fieldChars number (n + 1)) < (digitValue (number 0) + 1) * 8 ^ n := by
  induction n with
  | zero =>
    rw [readNumeral_fieldChars]
    show digitValue (number 0) * 1 ≤ 0 * 8 + _ ∧ 0 * 8 + _ < (digitValue (number 0) + 1) * 1
    omega
  | succ n ih =>
    obtain ⟨hlow, hhigh⟩ := ih fun i hi => h i (Nat.lt_succ_of_lt hi)
    obtain ⟨-, hlt⟩ := h.digitValue_eq (Nat.lt_succ_self (n + 1))
    rw [readNumeral_fieldChars, Nat.pow_succ, ← Nat.mul_assoc, ← Nat.mul_assoc]
    omega

/-- **A size is decoded right** unless the field has eleven digits and begins with `2` or more:
such a number is no `int`. -/
theorem octascii_to_dec_iff (number : CharPtr) {size : Nat} (hlow : 2 ≤ size) (hhigh : size ≤ 12)
    (hdigits : OctalDigits number (size - 1)) :
    octasciiToDec number size = readNumeral 8 (fieldChars number (size - 1)) ↔
      (size = 12 → (number 0).toNat < 50) := by
  obtain ⟨n, rfl⟩ : ∃ n, size = n + 2 := ⟨size - 2, by omega⟩
  rw [octasciiToDec_eq, octalValue_digits hdigits]
  rw [show n + 2 - 1 = n + 1 from rfl] at hdigits ⊢
  obtain ⟨hchar, hlt⟩ := hdigits.digitValue_eq (Nat.succ_pos n)
  obtain ⟨hge, hle⟩ := readNumeral_first hdigits
  -- the value is one of an `int` if it is below `2 ^ 31`
  have hint : toInt32 (readNumeral 8 (fieldChars number (n + 1))) =
      readNumeral 8 (fieldChars number (n + 1)) ↔
        readNumeral 8 (fieldChars number (n + 1)) < 2 ^ 31 := by
    constructor
    · intro heq
      have hbound := (toInt32_bounds (readNumeral 8 (fieldChars number (n + 1)))).2
      omega
    · intro hsmall
      exact toInt32_eq (by omega) (by omega)
  rw [hint]
  generalize readNumeral 8 (fieldChars number (n + 1)) = value at hge hle ⊢
  generalize digitValue (number 0) = first at hchar hlt hge hle
  by_cases hsize : n = 10
  · subst hsize
    omega
  · have hpow : 8 ^ n ≤ 8 ^ 9 := Nat.pow_le_pow_right (by decide) (by omega)
    refine iff_of_true ?_ fun h => absurd h (by omega)
    calc value < (first + 1) * 8 ^ n := hle
      _ ≤ 8 * 8 ^ 9 := Nat.mul_le_mul hlt hpow
      _ < 2 ^ 31 := by decide

/-- The octal digits 13336 in a field of twelve characters. -/
theorem octascii_to_dec_small :
    octasciiToDec (CString.ofBytes [48, 48, 48, 48, 48, 48, 49, 51, 51, 51, 54, 48]).bytes 12 =
      5854 :=
  (octascii_to_dec_iff _ (by decide) (by decide) (by unfold OctalDigits; decide)).mpr
    fun _ => by decide

/-- The octal digits 20000000000, which stand for `2 ^ 31`. -/
theorem octascii_to_dec_wraps :
    octasciiToDec (CString.ofBytes [50, 48, 48, 48, 48, 48, 48, 48, 48, 48, 48, 0]).bytes 12 =
        -2 ^ 31 ∧
      readNumeral 8
        (fieldChars (CString.ofBytes [50, 48, 48, 48, 48, 48, 48, 48, 48, 48, 48, 0]).bytes 11) =
        2 ^ 31 := by
  decide

theorem tdiv_512 (x : Int) : x.tdiv 512 = if 0 ≤ x then x / 512 else -(-x / 512) := by
  split_ifs with hx
  · exact Int.tdiv_eq_ediv_of_nonneg hx
  · have hneg : 0 ≤ -x := by omega
    rw [← Int.tdiv_eq_ediv_of_nonneg hneg, Int.neg_tdiv, Int.neg_neg]

/-- The step moves forward for sizes up to the last one that an `int` can round up to blocks,
and for the few negative ones that are rounded up to no block. -/
theorem itemStep_pos_iff {filesize : Int} (hlow : -2 ^ 31 ≤ filesize) (hhigh : filesize < 2 ^ 31) :
    0 < itemStep filesize ↔ -1022 ≤ filesize ∧ filesize ≤ 2 ^ 31 - 1024 := by
  unfold itemStep
  rcases lt_or_ge (filesize + 511) (2 ^ 31) with hsum | hsum
  · rw [toInt32_eq (by omega) hsum, tdiv_512]
    -- the number of blocks of data, rounded towards zero
    generalize hblocks : (if 0 ≤ filesize + 511 then _ else _ : Int) = blocks
    have hbounds : -2 ^ 22 ≤ blocks ∧ blocks < 2 ^ 22 := by split_ifs at hblocks <;> omega
    rw [toInt32_eq (x := blocks + 1) (by omega) (by omega)]
    rcases lt_or_ge ((blocks + 1) * 512) (2 ^ 31) with hbytes | hbytes
    -- no overflow: the step has the sign of the number of blocks
    · rw [toInt32_eq (by omega) hbytes]
      split_ifs at hblocks <;> omega
    · -- one block more than an `int` can count in bytes
      have hall : (blocks + 1) * 512 = -2 ^ 31 + 2 ^ 32 * 1 := by omega
      rw [hall, toInt32_add_mul, toInt32_eq (by decide) (by decide)]
      split_ifs at hblocks <;> omega
  · -- rounding up wraps to the lowest numbers
    have hwrap := toInt32_add_mul (filesize + 511 - 2 ^ 32) 1
    rw [Int.mul_one, Int.sub_add_cancel,
      toInt32_eq (x := filesize + 511 - 2 ^ 32) (by omega) (by omega)] at hwrap
    rw [hwrap, tdiv_512, if_neg (by omega)]
    have hblocks : -2 ^ 22 ≤ -(-(filesize + 511 - 2 ^ 32) / 512) ∧
        -(-(filesize + 511 - 2 ^ 32) / 512) < -2 ^ 21 := by omega
    generalize -(-(filesize + 511 - 2 ^ 32) / 512) = blocks at hblocks ⊢
    rw [toInt32_eq (x := blocks + 1) (by omega) (by omega), toInt32_eq (by omega) (by omega)]
    omega

/-- A size that is read right, and is below `2 ^ 30`, is rounded up to whole blocks. -/
theorem itemStep_natCast {size : Nat} (h : size < 2 ^ 30) :
    itemStep size = ((size + 511) / 512 + 1 : Nat) * 512 := by
  have hsum : toInt32 (size + 511) = size + 511 := toInt32_eq (by omega) (by omega)
  have hblocks : toInt32 (((size : Int) + 511) / 512 + 1) = (size + 511) / 512 + 1 :=
    toInt32_eq (by omega) (by omega)
  unfold itemStep
  rw [hsum, tdiv_512, if_pos (by omega), hblocks, toInt32_eq (by omega) (by omega)]
  push_cast
  rfl

end Sizes

/-! ## Zero blocks -/

theorem readBytes_eq_zero (mem : Memory) (a : Int) (n : Nat) :
    readBytes mem a n = 0 ↔ ∀ i < n, mem (a + (i : Nat)) = 0 := by
  -- on the bytes, from the first
  induction n generalizing a with
  | zero => exact iff_of_true rfl fun i hi => absurd hi (Nat.not_lt_zero i)
  | succ n ih =>
    rw [readBytes, Nat.add_eq_zero_iff, Nat.mul_eq_zero, or_iff_right (by decide), ih]
    constructor
    · rintro ⟨hfirst, hrest⟩ i hi
      cases i with
      | zero =>
        rw [Int.natCast_zero, Int.add_zero]
        exact UInt8.toNat_inj.mp hfirst
      | succ i =>
        have hbyte := hrest i (by omega)
        rwa [Int.add_assoc, Int.add_comm 1, ← Int.natCast_succ] at hbyte
    · intro hall
      have hfirst := hall 0 (Nat.zero_lt_succ n)
      rw [Int.natCast_zero, Int.add_zero] at hfirst
      refine ⟨by rw [hfirst]; rfl, fun i hi => ?_⟩
      have hbyte := hall (i + 1) (by omega)
      rwa [Int.natCast_succ, Int.add_comm (i : Int), ← Int.add_assoc] at hbyte

/-- **Zero blocks.** The words are zero if the bytes are. -/
theorem ustarIsZeroed_iff (mem : Memory) (tarItem : Int) :
    ustarIsZeroed mem tarItem = true ↔ ∀ i < headerSize, mem (tarItem + (i : Nat)) = 0 := by
  unfold ustarIsZeroed
  rw [List.all_eq_true]
  simp only [List.mem_range, decide_eq_true_eq, readBytes_eq_zero]
  constructor
  · intro hwords i hi
    -- byte `i` is in word `i / 8`
    have hword := hwords (i / 8) (by unfold headerSize at hi; omega) (i % 8) (by omega)
    have haddr : tarItem + 8 * ((i / 8 : Nat) : Int) + ((i % 8 : Nat) : Int) = tarItem + i := by
      omega
    rwa [haddr] at hword
  · intro hbytes word hword i hi
    have hbyte := hbytes (8 * word + i) (by unfold headerSize; omega)
    have haddr : tarItem + ((8 * word + i : Nat) : Int) = tarItem + 8 * word + i := by omega
    rwa [haddr] at hbyte

end Dreamos64
