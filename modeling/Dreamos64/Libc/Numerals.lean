import Dreamos64.Lib.Cursor
import Dreamos64.Libc.Numbers
import Mathlib.Data.Nat.Digits.Lemmas

/-!
# Dreamos64 — numerals

What the functions of `numbers.c` write is the numeral of the number in a base: its digits from
the first to the last, and `0` for zero. Behind it there may be a NUL.

* `swapEnds_apply`          — the loop that turns the digits around;
* `digitString_puts`        — the digits from the last one on, turned around;
* `getHexString_puts`       — the digits from the first one on;
* `getUnsignedDecString_puts`, `getDecString_puts`, `getNumericString_puts` — the functions.
-/

namespace Dreamos64

open Machine Cursor

/-- The digits of a number, as characters. -/
def numeralWith (base : Nat) (digit : Nat → UInt8) (number : Nat) : List UInt8 :=
  if number = 0 then [48] else (Nat.digits base number).reverse.map digit

/-- The numeral of a number in a base up to 36. -/
def numeral (base : Nat) (useCapital : Bool) (number : Nat) : List UInt8 :=
  numeralWith base (hexDigit useCapital) number

/-- The numeral of an integer, with its sign. -/
def signedNumeral (number : Int) : List UInt8 :=
  if number < 0 then 45 :: numeral 10 false number.natAbs else numeral 10 false number.natAbs

/-- The number that some characters stand for, the first one counting most. -/
def positionalValue {R : Type} [OfNat R 0] [Add R] [Mul R] (digit : UInt8 → R) (base : R)
    (l : List UInt8) : R :=
  l.foldl (fun value c => value * base + digit c) 0

/-! ## Digits from the last one on -/

section Digits

variable {base : Nat} {digit : Nat → UInt8}

/-- The first loop writes the digits in the wrong order, from `size` on. -/
theorem writeDigits_eq (hbase : 2 ≤ base) (digit : Nat → UInt8) {turns number : Nat}
    (hnumber : number < 2 ^ turns) (size : Nat) (buffer : CharPtr) :
    ∃ buffer', writeDigits base digit (turns + 1) number size buffer =
        .ok (size + (Nat.digits base number).length, buffer') ∧
      (∀ i d, (Nat.digits base number)[i]? = some d → buffer' (size + i) = digit d) ∧
      ∀ i, i < size ∨ size + (Nat.digits base number).length ≤ i → buffer' i = buffer i := by
  have hzero : ∀ turns size buffer,
      writeDigits base digit (turns + 1) 0 size buffer = .ok (size, buffer) := by
    intro turns size buffer
    rfl
  -- on the turns; each divides the number by the base
  induction turns generalizing number size buffer with
  | zero =>
    obtain rfl : number = 0 := by omega
    rw [hzero, Nat.digits_zero]
    exact ⟨buffer, rfl, fun _ _ h => (nomatch h), fun _ _ => rfl⟩
  | succ turns ih =>
    rcases Nat.eq_zero_or_pos number with rfl | hpos
    · rw [hzero, Nat.digits_zero]
      exact ⟨buffer, rfl, fun _ _ h => (nomatch h), fun _ _ => rfl⟩
    have hlt : number / base < 2 ^ turns := by
      have hdiv : number / base ≤ number / 2 := Nat.div_le_div_left hbase (by decide)
      have hhalf : number / 2 < 2 ^ turns := by
        rw [Nat.div_lt_iff_lt_mul (by decide)]
        rwa [Nat.pow_succ] at hnumber
      omega
    obtain ⟨buffer', hrun, hdigits, hrest⟩ := ih hlt (size + 1)
      (Function.update buffer size (digit (number % base)))
    rw [Nat.digits_def' (by omega) hpos, List.length_cons]
    refine ⟨buffer', ?_, ?_, ?_⟩
    · rw [writeDigits, if_pos hpos, hrun]
      congr 2
      omega
    · intro i d hi
      cases i with
      | zero =>
        obtain rfl := Option.some_inj.mp hi
        rw [Nat.add_zero, hrest size (Or.inl (by omega)), Function.update_self]
      | succ i =>
        rw [List.getElem?_cons_succ] at hi
        rw [show size + (i + 1) = size + 1 + i by omega]
        exact hdigits i d hi
    · intro i hi
      rw [hrest i (by omega), Function.update_of_ne (by omega)]

/-- The second loop turns the characters from `pointerbase` to `pointer` around. -/
theorem swapEnds_apply {turns pointerbase pointer : Nat} (h : pointer ≤ pointerbase + turns)
    (buffer : CharPtr) (i : Nat) :
    swapEnds turns pointerbase pointer buffer i =
      if pointerbase ≤ i ∧ i ≤ pointer then buffer (pointerbase + pointer - i) else buffer i := by
  induction turns generalizing pointerbase pointer buffer with
  | zero =>
    -- at most one character is left
    split_ifs with hin
    · show buffer i = _
      congr 1
      omega
    · rfl
  | succ turns ih =>
    unfold swapEnds
    by_cases hgt : pointer > pointerbase
    · rw [if_pos hgt, ih (by omega)]
      -- the two ends of the text, what is between them, and what is outside
      by_cases hlo : i = pointerbase
      · rw [if_neg (by omega), if_pos (by omega), hlo, Function.update_self]
        congr 1
        omega
      · by_cases hhi : i = pointer
        · rw [if_neg (by omega), if_pos (by omega), hhi, Function.update_of_ne (by omega),
            Function.update_self]
          congr 1
          omega
        · by_cases hin : pointerbase ≤ i ∧ i ≤ pointer
          · rw [if_pos (by omega), if_pos hin, Function.update_of_ne (by omega),
              Function.update_of_ne (by omega)]
            congr 1
            omega
          · rw [if_neg (by omega), if_neg hin, Function.update_of_ne hlo,
              Function.update_of_ne hhi]
    · rw [if_neg hgt]
      split_ifs with hin
      · congr 1
        omega
      · rfl

theorem length_numeralWith (base : Nat) (digit : Nat → UInt8) {number : Nat} (hne : number ≠ 0) :
    (numeralWith base digit number).length = (Nat.digits base number).length := by
  rw [numeralWith, if_neg hne, List.length_map, List.length_reverse]

/-- A digit of the numeral, counted from the last one. -/
theorem getElem?_numeralWith {number i : Nat} (hne : number ≠ 0)
    (hi : i < (Nat.digits base number).length) :
    (numeralWith base digit number)[i]? =
      ((Nat.digits base number)[(Nat.digits base number).length - 1 - i]?).map digit := by
  rw [numeralWith, if_neg hne, List.getElem?_map, List.getElem?_reverse hi]

/-- The digits and a NUL, turned around. -/
theorem swapEnds_puts {number : Nat} (hne : number ≠ 0) {buffer buffer' : CharPtr}
    (hdigits : ∀ i d, (Nat.digits base number)[i]? = some d → buffer' i = digit d)
    (hrest : ∀ i, (Nat.digits base number).length ≤ i → buffer' i = buffer i) :
    Puts buffer
      (swapEnds (Nat.digits base number).length 0 ((Nat.digits base number).length - 1)
        (Function.update buffer' (Nat.digits base number).length 0))
      (numeralWith base digit number) := by
  have hlength := length_numeralWith base digit hne
  refine puts_of_getElem? (fun i hi => ?_) fun i hi => ?_
  · rw [hlength] at hi
    have hlast : (Nat.digits base number).length - 1 - i < (Nat.digits base number).length := by
      omega
    rw [getElem?_numeralWith hne hi, swapEnds_apply (by omega), if_pos (by omega), Nat.zero_add,
      Function.update_of_ne (by omega), List.getElem?_eq_getElem hlast, Option.map_some,
      hdigits _ _ (List.getElem?_eq_getElem hlast)]
  · rw [hlength] at hi
    rw [swapEnds_apply (by omega), if_neg (by omega), Function.update_of_ne (by omega),
      hrest i (by omega)]

/-- **Digits from the last one on, turned around.** -/
theorem digitString_puts (hbase : 2 ≤ base) (digit : Nat → UInt8) (buffer : CharPtr)
    (number : UInt64) :
    ∃ buffer', digitString base digit buffer number =
        .ok ((numeralWith base digit number.toNat).length, buffer') ∧
      Puts buffer buffer' (numeralWith base digit number.toNat) := by
  unfold digitString
  by_cases hzero : number = 0
  · have hnumeral : numeralWith base digit number.toNat = [48] := by
      rw [hzero]
      rfl
    rw [if_pos hzero, hnumeral]
    exact ⟨_, rfl, puts_update buffer 48⟩
  -- all other numbers have a first digit, and the text is turned around
  · have hne : number.toNat ≠ 0 := fun h => hzero (UInt64.toNat_inj.mp h)
    obtain ⟨buffer', hwrite, hdigits, hrest⟩ :=
      writeDigits_eq hbase digit number.toNat_lt 0 buffer
    simp only [Nat.zero_add] at hwrite hdigits hrest
    rw [if_neg hzero, hwrite, length_numeralWith base digit hne]
    exact ⟨_, rfl, swapEnds_puts hne hdigits fun i hi => hrest i (Or.inr hi)⟩

end Digits

/-! ## Digits from the first one on -/

section Hex

variable {number shift pos : Nat} {useCapital : Bool} {buffer : CharPtr}

/-- The loop of `_getHexString`: the digits from the one at `shift - 1` down to the last. -/
theorem writeHex_apply (number : Nat) (useCapital : Bool) (shift pos : Nat) (buffer : CharPtr) :
    (∀ i < shift, writeHex number useCapital shift pos buffer (pos + i) =
        hexDigit useCapital (number / 16 ^ (shift - 1 - i) % 16)) ∧
      ∀ i, i < pos ∨ pos + shift < i →
        writeHex number useCapital shift pos buffer i = buffer i := by
  induction shift generalizing pos buffer with
  | zero => exact ⟨fun i hi => absurd hi (Nat.not_lt_zero i), fun i _ => rfl⟩
  | succ shift ih =>
    unfold writeHex
    dsimp only
    obtain ⟨hdigits, hrest⟩ := ih (pos + 1) (Function.update
      (Function.update buffer pos (hexDigit useCapital (number >>> (4 * shift) % 16))) (pos + 1) 0)
    refine ⟨fun i hi => ?_, fun i hi => ?_⟩
    · cases i with
      | zero =>
        show writeHex number useCapital shift (pos + 1) _ pos = _
        rw [hrest pos (Or.inl (by omega)), Function.update_of_ne (by omega),
          Function.update_self, Nat.shiftRight_eq_div_pow, Nat.pow_mul]
        rfl
      | succ i =>
        rw [show pos + (i + 1) = pos + 1 + i by omega, hdigits i (by omega),
          show shift + 1 - 1 - (i + 1) = shift - 1 - i by omega]
    · rw [hrest i (by omega), Function.update_of_ne (by omega), Function.update_of_ne (by omega)]

/-- The number of shifts is one less than the number of digits. -/
theorem hexShift_eq {turns : Nat} (hpos : 0 < number) (hnumber : number < 16 ^ (turns + 1)) :
    hexShift turns number + 1 = (Nat.digits 16 number).length := by
  induction turns generalizing number with
  | zero =>
    rw [Nat.digits_of_lt 16 number (by omega) (by omega)]
    rfl
  | succ turns ih =>
    have hshift : number >>> 4 = number / 16 := Nat.shiftRight_eq_div_pow number 4
    unfold hexShift
    split_ifs with hge
    -- a shift by four bits drops the last digit
    · have hlt : number / 16 < 16 ^ (turns + 1) := by
        rw [Nat.div_lt_iff_lt_mul (by decide)]
        rwa [Nat.pow_succ 16 (turns + 1)] at hnumber
      rw [hshift, ih (by omega) hlt, Nat.digits_def' (by decide) hpos]
      rfl
    · rw [Nat.digits_of_lt 16 number (by omega) (by omega)]
      rfl

/-- A digit of a number, counted from the last one. -/
theorem getElem?_digits_hex {i : Nat} (hi : i < (Nat.digits 16 number).length) :
    (Nat.digits 16 number)[i]? = some (number / 16 ^ i % 16) := by
  have hdigit := Nat.getD_digits number i (b := 16) (by decide)
  rw [List.getD_eq_getElem?_getD, List.getElem?_eq_getElem hi, Option.getD_some] at hdigit
  rw [List.getElem?_eq_getElem hi, hdigit]

/-- **`_getHexString`** writes the numeral in base 16. -/
theorem getHexString_puts (buffer : CharPtr) (hexnumber : UInt64) (useCapital : Bool) :
    (getHexString buffer hexnumber useCapital).1 =
        (numeral 16 useCapital hexnumber.toNat).length ∧
      Puts buffer (getHexString buffer hexnumber useCapital).2
        (numeral 16 useCapital hexnumber.toNat) := by
  unfold getHexString numeral
  obtain ⟨hdigits, hrest⟩ := writeHex_apply hexnumber.toNat useCapital
    (hexShift 16 hexnumber.toNat + 1) 0 buffer
  simp only [Nat.zero_add] at hdigits hrest
  dsimp only
  by_cases hzero : hexnumber.toNat = 0
  -- the only digit of zero
  · have hsize : hexShift 16 hexnumber.toNat + 1 = 1 := by
      rw [hzero]
      rfl
    have hnumeral : numeralWith 16 (hexDigit useCapital) hexnumber.toNat = [48] := if_pos hzero
    rw [hsize] at hdigits hrest ⊢
    rw [hnumeral]
    refine ⟨rfl, puts_of_getElem? (fun i hi => ?_) fun i hi => hrest i (Or.inr hi)⟩
    obtain rfl : i = 0 := Nat.lt_one_iff.mp hi
    rw [hdigits 0 hi, hzero]
    rfl
  · have hlt := hexnumber.toNat_lt
    -- the number of shifts was counted before the first digit is written
    have hsize : hexShift 16 hexnumber.toNat + 1 = (Nat.digits 16 hexnumber.toNat).length :=
      hexShift_eq (Nat.pos_of_ne_zero hzero) (by omega)
    have hlength := length_numeralWith 16 (hexDigit useCapital) hzero
    rw [hsize] at hdigits hrest ⊢
    refine ⟨hlength.symm, puts_of_getElem? (fun i hi => ?_) fun i hi => ?_⟩
    · rw [hlength] at hi
      rw [getElem?_numeralWith hzero hi, getElem?_digits_hex (by omega), Option.map_some,
        hdigits i hi]
    · rw [hlength] at hi
      exact hrest i (Or.inr hi)

end Hex

/-! ## The functions -/

/-- Decimal digits have the same characters in all functions. -/
theorem numeralWith_ten (number : Nat) :
    numeralWith 10 (fun mod => (mod + 48).toUInt8) number = numeral 10 false number := by
  unfold numeral numeralWith
  split_ifs with hzero
  · rfl
  · refine List.map_congr_left fun d hd => ?_
    have hlt := Nat.digits_lt_base (by decide) (List.mem_reverse.mp hd)
    rw [hexDigit, if_pos hlt, Nat.add_comm]

theorem getUnsignedDecString_puts (buffer : CharPtr) (number : UInt64) :
    ∃ buffer', getUnsignedDecString buffer number =
        .ok ((numeral 10 false number.toNat).length, buffer') ∧
      Puts buffer buffer' (numeral 10 false number.toNat) := by
  rw [← numeralWith_ten]
  exact digitString_puts (by decide) _ buffer number

theorem getNumericString_puts {base : Int} (hlow : 2 ≤ base) (hhigh : base ≤ 36) (buffer : CharPtr)
    (number : UInt64) (useCapital : Bool) :
    ∃ buffer', getNumericString buffer number base useCapital =
        .ok ((numeral base.toNat useCapital number.toNat).length, buffer') ∧
      Puts buffer buffer' (numeral base.toNat useCapital number.toNat) := by
  unfold getNumericString
  rw [if_neg (by omega)]
  exact digitString_puts (by omega) _ buffer number

/-- A character and a piece behind it. -/
theorem puts_cons {buffer rest : CharPtr} {l : List UInt8} (c : UInt8)
    (h : Puts (buffer.add 1) rest l) : Puts buffer (rest.cons c) (c :: l) where
  cell := by
    intro i d hi
    cases i with
    | zero => exact Option.some_inj.mp hi
    | succ i => exact h.cell i d hi
  rest := by
    intro i hi
    cases i with
    | zero => exact absurd hi (Nat.not_lt_zero _)
    | succ i =>
      show rest i = _
      rw [h.rest i (Nat.lt_of_succ_lt_succ hi), CharPtr.add, Nat.add_comm]

/-- The value of a `long` from its 64 bits. -/
theorem toInt_long (number : Int64) :
    number.toInt = if 2 * number.toUInt64.toNat < 2 ^ 64 then (number.toUInt64.toNat : Int)
      else number.toUInt64.toNat - 2 ^ 64 := by
  rw [← Int64.toInt_toBitVec, BitVec.toInt_eq_toNat_cond, ← Int64.toBitVec_toUInt64,
    UInt64.toNat_toBitVec]
  rfl

/-- The size of a negative number, which is negated as an `unsigned long`. -/
theorem toNat_neg_long {number : Int64} (h : number < 0) :
    (number.toUInt64 * -1).toNat = number.toInt.natAbs := by
  have hlt : number.toInt < 0 := Int64.lt_iff_toInt_lt.mp h
  have hint := toInt_long number
  have hbound := number.toUInt64.toNat_lt
  have hsize : UInt64.size = 2 ^ 64 := rfl
  rw [UInt64.mul_neg, UInt64.mul_one, UInt64.toNat_neg, hsize]
  split_ifs at hint <;> omega

theorem getDecString_puts (buffer : CharPtr) (number : Int64) :
    ∃ buffer', getDecString buffer number = .ok ((signedNumeral number.toInt).length, buffer') ∧
      Puts buffer buffer' (signedNumeral number.toInt) := by
  have hneg : number < 0 ↔ number.toInt < 0 := Int64.lt_iff_toInt_lt
  unfold getDecString signedNumeral
  -- the sign is written first, and the number behind it
  by_cases hlt : number < 0
  · obtain ⟨rest, hrun, hputs⟩ :=
      getUnsignedDecString_puts (buffer.add 1) (number.toUInt64 * -1)
    rw [toNat_neg_long hlt] at hrun hputs
    rw [if_pos hlt, if_pos (hneg.mp hlt), hrun, List.length_cons, Nat.add_comm]
    exact ⟨_, rfl, puts_cons 45 hputs⟩
  · have hge : ¬ number.toInt < 0 := fun h => hlt (hneg.mpr h)
    have hint := toInt_long number
    have hbound := number.toUInt64.toNat_lt
    have habs : number.toInt.natAbs = number.toUInt64.toNat := by
      split_ifs at hint <;> omega
    rw [if_neg hlt, if_neg hge, habs]
    exact getUnsignedDecString_puts buffer number.toUInt64

end Dreamos64
