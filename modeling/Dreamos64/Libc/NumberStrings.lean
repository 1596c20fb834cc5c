import Dreamos64.Libc.Numerals

/-!
# Dreamos64 — numbers and the strings they become

What a caller of `numbers.c` can rely on: that the text can be read back, that it is a string,
and that it comes at all. Only the first holds for every number and every base that the
functions accept.

* `readNumeral`, `IsNumeral`     — digits, and the number that they stand for;
* `number_formatting_invertible` — the first characters of the buffer are the numeral;
* `output_terminated_iff`        — zero is left without a NUL;
* `digit_loop_ends_iff`          — in base 1 the digits never end.
-/

namespace Dreamos64

open Machine Cursor

/-! ## Reading numerals -/

/-- The value of a digit: `0` to `9`, and then the letters of either case. -/
def digitValue (c : UInt8) : Nat :=
  if c.toNat < 58 then c.toNat - 48 else if c.toNat < 91 then c.toNat - 55 else c.toNat - 87

/-- The number that some digits stand for. -/
def readNumeral (base : Nat) (l : List UInt8) : Nat := positionalValue digitValue base l

/-- `l` are the digits of `n` in `base`, without leading zeros. -/
structure IsNumeral (base : Nat) (useCapital : Bool) (n : Nat) (l : List UInt8) : Prop where
  digit : ∀ c ∈ l, ∃ d < base, c = hexDigit useCapital d
  ne    : l ≠ []
  first : l.head? = some 48 → l = [48]
  value : readNumeral base l = n

theorem toNat_hexDigit (useCapital : Bool) {d : Nat} (hd : d < 36) :
    (hexDigit useCapital d).toNat =
      if d < 10 then 48 + d else (if useCapital then 65 else 97) + d - 10 := by
  unfold hexDigit
  split_ifs <;> exact Nat.mod_eq_of_lt (by omega)

theorem digitValue_hexDigit (useCapital : Bool) {d : Nat} (hd : d < 36) :
    digitValue (hexDigit useCapital d) = d := by
  unfold digitValue
  rw [toNat_hexDigit useCapital hd]
  split_ifs <;> omega

theorem hexDigit_ne_zero (useCapital : Bool) {d : Nat} (hd : d < 36) :
    hexDigit useCapital d ≠ 0 := by
  intro h
  have htoNat := toNat_hexDigit useCapital hd
  rw [h] at htoNat
  split_ifs at htoNat <;> (simp only [UInt8.toNat_zero] at htoNat; omega)

section Numeral

variable {base : Nat} {useCapital : Bool}

/-- Reading from the first digit on is the positional sum from the last one on. -/
theorem readNumeral_digits {l : List Nat} (hl : ∀ d ∈ l, d < 36) :
    readNumeral base (l.reverse.map (hexDigit useCapital)) = Nat.ofDigits base l := by
  unfold readNumeral positionalValue
  rw [List.foldl_map, List.foldl_reverse, Nat.ofDigits_eq_foldr]
  induction l with
  | nil => rfl
  | cons d l ih =>
    rw [List.foldr_cons, List.foldr_cons, ih fun e he => hl e (List.mem_cons_of_mem d he),
      digitValue_hexDigit useCapital (hl d List.mem_cons_self), Nat.mul_comm, Nat.add_comm]
    rfl

theorem numeral_isNumeral (hlow : 2 ≤ base) (hhigh : base ≤ 36) (useCapital : Bool) (n : Nat) :
    IsNumeral base useCapital n (numeral base useCapital n) := by
  unfold numeral numeralWith
  by_cases hzero : n = 0
  · rw [if_pos hzero, hzero]
    refine ⟨fun c hc => ⟨0, by omega, ?_⟩, List.cons_ne_nil _ _, fun _ => rfl, ?_⟩
    · rw [List.mem_singleton.mp hc]
      rfl
    · rw [readNumeral, positionalValue, List.foldl_cons, List.foldl_nil, Nat.zero_mul]
      rfl
  rw [if_neg hzero]
  have hdigits : ∀ d ∈ Nat.digits base n, d < base :=
    fun d hd => Nat.digits_lt_base (by omega) hd
  have hne : Nat.digits base n ≠ [] := Nat.digits_ne_nil_iff_ne_zero.mpr hzero
  refine ⟨?_, ?_, ?_, ?_⟩
  · intro c hc
    obtain ⟨d, hd, rfl⟩ := List.mem_map.mp hc
    exact ⟨d, hdigits d (List.mem_reverse.mp hd), rfl⟩
  · intro hnil
    rw [List.map_eq_nil_iff, List.reverse_eq_nil_iff] at hnil
    exact hne hnil
  -- the first digit is the last one that the division gives, which is not 0
  · intro hfirst
    rw [List.head?_map, List.head?_reverse, List.getLast?_eq_some_getLast hne, Option.map_some,
      Option.some_inj] at hfirst
    have hlast := Nat.getLast_digit_ne_zero base hzero
    have hvalue := congrArg digitValue hfirst
    rw [digitValue_hexDigit useCapital
      (Nat.lt_of_lt_of_le (hdigits _ (List.getLast_mem hne)) hhigh)] at hvalue
    exact absurd hvalue hlast
  · rw [readNumeral_digits fun d hd => Nat.lt_of_lt_of_le (hdigits d hd) hhigh,
      Nat.ofDigits_digits]

/-- Digits are no NUL. -/
theorem IsNumeral.char_ne_zero {n : Nat} {l : List UInt8} (h : IsNumeral base useCapital n l)
    (hhigh : base ≤ 36) {c : UInt8} (hc : c ∈ l) : c ≠ 0 := by
  obtain ⟨d, hd, rfl⟩ := h.digit c hc
  exact hexDigit_ne_zero useCapital (Nat.lt_of_lt_of_le hd hhigh)

end Numeral

/-! ## What is in the buffer -/

/-- The first characters of the buffer, as many as the function has returned. -/
def written (result : Nat × CharPtr) : List UInt8 := (List.range result.1).map result.2

theorem written_of_puts {buffer buffer' : CharPtr} {l : List UInt8} (h : Puts buffer buffer' l) :
    written (l.length, buffer') = l := by
  unfold written
  refine List.ext_getElem ?_ fun i hi hi' => ?_
  · rw [List.length_map, List.length_range]
  · rw [List.getElem_map, List.getElem_range]
    exact h.cell i _ (List.getElem?_eq_getElem hi')

/-- In decimal the case of the letters does not matter. -/
theorem numeral_ten (useCapital : Bool) (n : Nat) :
    numeral 10 useCapital n = numeral 10 false n := by
  unfold numeral numeralWith
  split_ifs with hzero
  · rfl
  · refine List.map_congr_left fun d hd => ?_
    have hlt := Nat.digits_lt_base (by decide) (List.mem_reverse.mp hd)
    rw [hexDigit, hexDigit, if_pos hlt, if_pos hlt]

/-- **Numbers can be read back** from what the functions write: `_getNumericString` writes the
digits of the number, and the others the same ones, behind a sign for a negative number. -/
theorem number_formatting_invertible (buffer : CharPtr) (useCapital : Bool) :
    (∀ (n : UInt64) (base : Int), 2 ≤ base → base ≤ 36 → ∃ result,
        getNumericString buffer n base useCapital = .ok result ∧
          IsNumeral base.toNat useCapital n.toNat (written result)) ∧
      (∀ n : UInt64, ∃ result decimal, getUnsignedDecString buffer n = .ok result ∧
        getNumericString buffer n 10 useCapital = .ok decimal ∧
          written result = written decimal) ∧
      (∀ n : UInt64, ∃ hexadecimal, getNumericString buffer n 16 useCapital = .ok hexadecimal ∧
        written (getHexString buffer n useCapital) = written hexadecimal) ∧
      ∀ number : Int64, ∃ result digits, getDecString buffer number = .ok result ∧
        IsNumeral 10 useCapital number.toInt.natAbs digits ∧
          written result = if number.toInt < 0 then 45 :: digits else digits := by
  refine ⟨?_, ?_, ?_, ?_⟩
  · intro n base hlow hhigh
    obtain ⟨buffer', hrun, hputs⟩ := getNumericString_puts hlow hhigh buffer n useCapital
    refine ⟨_, hrun, ?_⟩
    rw [written_of_puts hputs]
    exact numeral_isNumeral (by omega) (by omega) useCapital n.toNat
  · intro n
    obtain ⟨buffer', hrun, hputs⟩ := getUnsignedDecString_puts buffer n
    obtain ⟨decimal, hdecimal, hputs'⟩ :=
      getNumericString_puts (show (2 : Int) ≤ 10 by decide) (by decide) buffer n useCapital
    refine ⟨_, _, hrun, hdecimal, ?_⟩
    rw [written_of_puts hputs, written_of_puts hputs']
    exact (numeral_ten useCapital n.toNat).symm
  · intro n
    obtain ⟨hsize, hputs⟩ := getHexString_puts buffer n useCapital
    obtain ⟨hexadecimal, hrun, hputs'⟩ :=
      getNumericString_puts (show (2 : Int) ≤ 16 by decide) (by decide) buffer n useCapital
    refine ⟨_, hrun, ?_⟩
    rw [written_of_puts hputs', ← Prod.mk.eta (p := getHexString buffer n useCapital), hsize,
      written_of_puts hputs]
    rfl
  · intro number
    obtain ⟨buffer', hrun, hputs⟩ := getDecString_puts buffer number
    refine ⟨_, numeral 10 useCapital number.toInt.natAbs, hrun,
      numeral_isNumeral (by decide) (by decide) useCapital _, ?_⟩
    rw [written_of_puts hputs, numeral_ten]
    rfl

/-- The most negative number is written in full. -/
theorem number_formatting_invertible_lowest : ∃ result digits,
    getDecString (fun _ => 0) Int64.minValue = .ok result ∧ IsNumeral 10 false (2 ^ 63) digits ∧
      written result = 45 :: digits := by
  obtain ⟨result, digits, hrun, hdigits, hwritten⟩ :=
    (number_formatting_invertible (fun _ => 0) false).2.2.2 Int64.minValue
  have hlowest : Int64.minValue.toInt = -2 ^ 63 := by decide
  rw [hlowest] at hdigits hwritten
  exact ⟨result, digits, hrun, hdigits, hwritten.trans (if_pos (by decide))⟩

/-! ## The NUL -/

/-- The buffer is a string of the length that the function has returned. -/
def Terminated (result : Nat × CharPtr) : Prop :=
  result.2 result.1 = 0 ∧ ∀ i < result.1, result.2 i ≠ 0

/-- Digits are no NUL, so that only what is behind them matters. -/
theorem terminated_of_puts {buffer buffer' : CharPtr} {l : List UInt8} (h : Puts buffer buffer' l)
    (hl : ∀ c ∈ l, c ≠ 0) : Terminated (l.length, buffer') ↔ buffer' l.length = 0 := by
  constructor
  · intro hterm
    exact hterm.1
  · intro hnul
    refine ⟨hnul, fun i hi => ?_⟩
    show buffer' i ≠ 0
    rw [h.cell i _ (List.getElem?_eq_getElem hi)]
    exact hl _ (List.getElem_mem hi)

theorem exists_terminated {run : Exec (Nat × CharPtr)} {result : Nat × CharPtr}
    (hrun : run = .ok result) : (∃ r, run = .ok r ∧ Terminated r) ↔ Terminated result := by
  constructor
  · rintro ⟨r, hr, h⟩
    rw [hrun] at hr
    cases hr
    exact h
  · intro h
    exact ⟨result, hrun, h⟩

theorem numeral_ne_zero {base : Nat} (hlow : 2 ≤ base) (hhigh : base ≤ 36) (useCapital : Bool)
    (n : Nat) : ∀ c ∈ numeral base useCapital n, c ≠ 0 :=
  fun _ hc => (numeral_isNumeral hlow hhigh useCapital n).char_ne_zero hhigh hc

/-- The NUL is written between the two loops, and the second one does not touch it. For zero
neither loop is reached. -/
theorem digitString_nul {base : Nat} {digit : Nat → UInt8} {buffer buffer' : CharPtr}
    {number : UInt64} {size : Nat}
    (hrun : digitString base digit buffer number = .ok (size, buffer')) :
    buffer' size = 0 ↔ (number = 0 → buffer 1 = 0) := by
  unfold digitString at hrun
  by_cases hzero : number = 0
  · rw [if_pos hzero] at hrun
    cases hrun
    rw [Function.update_of_ne (by decide)]
    exact ⟨fun h _ => h, fun h => h hzero⟩
  · rw [if_neg hzero] at hrun
    obtain ⟨⟨size', written⟩, -, hrun⟩ := bind_inv hrun
    cases hrun
    refine iff_of_true ?_ fun h => absurd h hzero
    rw [swapEnds_apply (by omega)]
    split_ifs with hin
    · rw [show 0 + (size - 1) - size = size by omega, Function.update_self]
    · exact Function.update_self _ _ _

section Terminated

variable (buffer : CharPtr) (number : UInt64)

theorem getNumericString_terminated {base : Int} (hlow : 2 ≤ base) (hhigh : base ≤ 36)
    (useCapital : Bool) :
    (∃ result, getNumericString buffer number base useCapital = .ok result ∧ Terminated result) ↔
      (number = 0 → buffer 1 = 0) := by
  obtain ⟨buffer', hrun, hputs⟩ := getNumericString_puts hlow hhigh buffer number useCapital
  have hterm := terminated_of_puts hputs
    (numeral_ne_zero (by omega) (by omega) useCapital number.toNat)
  have hdigits := hrun
  unfold getNumericString at hdigits
  rw [if_neg (by omega)] at hdigits
  rw [exists_terminated hrun, hterm, digitString_nul hdigits]

theorem getUnsignedDecString_terminated :
    (∃ result, getUnsignedDecString buffer number = .ok result ∧ Terminated result) ↔
      (number = 0 → buffer 1 = 0) := by
  obtain ⟨buffer', hrun, hputs⟩ := getUnsignedDecString_puts buffer number
  have hterm := terminated_of_puts hputs
    (numeral_ne_zero (by decide) (by decide) false number.toNat)
  rw [exists_terminated hrun, hterm, digitString_nul hrun]

/-- A sign in front of a string is part of it. -/
theorem terminated_cons {size : Nat} {rest : CharPtr} {c : UInt8} (hc : c ≠ 0) :
    Terminated (1 + size, rest.cons c) ↔ Terminated (size, rest) := by
  unfold Terminated
  rw [Nat.add_comm 1 size]
  refine and_congr Iff.rfl ⟨fun h i hi => h (i + 1) (Nat.succ_lt_succ hi), fun h i hi => ?_⟩
  cases i with
  | zero => exact hc
  | succ i => exact h i (Nat.lt_of_succ_lt_succ hi)

/-- A negative number is never zero behind its sign. -/
theorem getDecString_terminated (buffer : CharPtr) (number : Int64) :
    (∃ result, getDecString buffer number = .ok result ∧ Terminated result) ↔
      (number = 0 → buffer 1 = 0) := by
  unfold getDecString
  by_cases hneg : number < 0
  · rw [if_pos hneg]
    have hlt : number.toInt < 0 := Int64.lt_iff_toInt_lt.mp hneg
    have hne : number.toUInt64 * -1 ≠ 0 := by
      intro hzero
      have habs := toNat_neg_long hneg
      rw [hzero, UInt64.toNat_zero] at habs
      omega
    obtain ⟨⟨size, rest⟩, hrun, hterm⟩ :=
      (getUnsignedDecString_terminated (buffer.add 1) (number.toUInt64 * -1)).mpr
        fun hzero => absurd hzero hne
    rw [hrun, ok_bind]
    refine iff_of_true ⟨_, rfl, (terminated_cons (by decide)).mpr hterm⟩ fun hzero => ?_
    rw [hzero] at hlt
    exact absurd hlt (by decide)
  · rw [if_neg hneg, getUnsignedDecString_terminated]
    have hzero : number.toUInt64 = 0 ↔ number = 0 :=
      ⟨fun h => congrArg Int64.ofUInt64 h, congrArg Int64.toUInt64⟩
    rw [hzero]

end Terminated

/-- **The text is a string** of the length returned, unless it is the `0` of a function other
than `_getHexString` and the buffer happens to have no NUL behind it. -/
theorem output_terminated_iff (buffer : CharPtr) (n : UInt64) (number : Int64) {base : Int}
    (hlow : 2 ≤ base) (hhigh : base ≤ 36) (useCapital : Bool) :
    ((∃ result, getUnsignedDecString buffer n = .ok result ∧ Terminated result) ↔
        (n = 0 → buffer 1 = 0)) ∧
      ((∃ result, getDecString buffer number = .ok result ∧ Terminated result) ↔
        (number = 0 → buffer 1 = 0)) ∧
      Terminated (getHexString buffer n useCapital) ∧
      ((∃ result, getNumericString buffer n base useCapital = .ok result ∧ Terminated result) ↔
        (n = 0 → buffer 1 = 0)) := by
  refine ⟨?_, ?_, ?_, ?_⟩
  · exact getUnsignedDecString_terminated buffer n
  · exact getDecString_terminated buffer number
  · obtain ⟨hsize, hputs⟩ := getHexString_puts buffer n useCapital
    have hnul := getHexString_terminated buffer n useCapital
    have hterm := terminated_of_puts hputs
      (numeral_ne_zero (by decide) (by decide) useCapital n.toNat)
    rw [← hsize] at hterm
    exact hterm.mpr hnul
  · exact getNumericString_terminated buffer n hlow hhigh useCapital

theorem output_terminated_forty_two : ∃ result,
    getNumericString (fun _ => 120) 42 10 false = .ok result ∧ Terminated result :=
  (output_terminated_iff (fun _ => 120) 42 42 (by decide) (by decide) false).2.2.2.mpr
    fun h => absurd h (by decide)

/-- Zero in a buffer that was used before. -/
theorem output_of_zero_unterminated :
    ¬ ∃ result, getUnsignedDecString (fun _ => 120) 0 = .ok result ∧ Terminated result := by
  rw [getUnsignedDecString_terminated]
  decide

/-! ## The loop -/

/-- The digit loop of `_getNumericString` ends after at most `k` iterations: it tests the number
once more than that. -/
def DigitLoopEnds (buffer : CharPtr) (number : UInt64) (base : Int) (useCapital : Bool)
    (k : Nat) : Prop :=
  ∃ result, writeDigits base.toNat (hexDigit useCapital) (k + 1) number.toNat 0 buffer = .ok result

/-- A division by 1 leaves the number as it is. -/
theorem writeDigits_one (digit : Nat → UInt8) {number : Nat} (hpos : 0 < number)
    (turns size : Nat) (buffer : CharPtr) :
    writeDigits 1 digit turns number size buffer = .error .outOfFuel := by
  induction turns generalizing size buffer with
  | zero => rfl
  | succ turns ih =>
    rw [writeDigits, if_pos hpos, Nat.div_one]
    exact ih _ _

theorem not_digitLoopEnds_one (buffer : CharPtr) {number : UInt64} (hne : number ≠ 0)
    (useCapital : Bool) (k : Nat) : ¬ DigitLoopEnds buffer number 1 useCapital k := by
  have hpos : 0 < number.toNat :=
    Nat.pos_of_ne_zero fun h => hne (UInt64.toNat_inj.mp h)
  rintro ⟨result, hrun⟩
  rw [show (1 : Int).toNat = 1 from rfl, writeDigits_one _ hpos] at hrun
  cases hrun

/-- `_getNumericString` returns if its digit loop ends. -/
theorem getNumericString_returns_iff (buffer : CharPtr) (number : UInt64) {base : Int}
    (hcheck : ¬ (base < 1 ∨ base > 36)) (useCapital : Bool) :
    (∃ result, getNumericString buffer number base useCapital = .ok result) ↔
      DigitLoopEnds buffer number base useCapital 64 := by
  unfold getNumericString digitString DigitLoopEnds
  rw [if_neg hcheck]
  by_cases hzero : number = 0
  · rw [if_pos hzero, hzero]
    exact iff_of_true ⟨_, rfl⟩ ⟨_, rfl⟩
  · rw [if_neg hzero]
    constructor
    · rintro ⟨result, hrun⟩
      obtain ⟨digits, hdigits, -⟩ := bind_inv hrun
      exact ⟨digits, hdigits⟩
    · rintro ⟨digits, hdigits⟩
      rw [hdigits]
      exact ⟨_, rfl⟩

/-- **The digit loop ends within 64 iterations** in every base that `_getNumericString` accepts
but 1, in which it never ends for a number other than zero. -/
theorem digit_loop_ends_iff (buffer : CharPtr) (number : UInt64) {base : Int}
    (hcheck : ¬ (base < 1 ∨ base > 36)) (useCapital : Bool) :
    (DigitLoopEnds buffer number base useCapital 64 ↔ (base = 1 → number = 0)) ∧
      ((∃ k, DigitLoopEnds buffer number base useCapital k) ↔ (base = 1 → number = 0)) ∧
      ((∃ result, getNumericString buffer number base useCapital = .ok result) ↔
        (base = 1 → number = 0)) := by
  have hends : (base = 1 → number = 0) → DigitLoopEnds buffer number base useCapital 64 := by
    intro h
    by_cases hone : base = 1
    · rw [h hone]
      exact ⟨_, rfl⟩
    · obtain ⟨buffer', hrun, -⟩ := writeDigits_eq (show 2 ≤ base.toNat by omega)
        (hexDigit useCapital) number.toNat_lt 0 buffer
      exact ⟨_, hrun⟩
  have hnever : ∀ k, DigitLoopEnds buffer number base useCapital k → base = 1 → number = 0 := by
    intro k hk hone
    subst hone
    by_contra hne
    exact not_digitLoopEnds_one buffer hne useCapital k hk
  refine ⟨⟨hnever 64, hends⟩, ⟨fun ⟨k, hk⟩ => hnever k hk, fun h => ⟨64, hends h⟩⟩, ?_⟩
  rw [getNumericString_returns_iff buffer number hcheck]
  exact ⟨hnever 64, hends⟩

/-- The longest text that there is, in base 2. -/
theorem digit_loop_ends_binary :
    DigitLoopEnds (fun _ => 0) 0xFFFFFFFFFFFFFFFF 2 false 64 :=
  (digit_loop_ends_iff _ _ (by decide) false).1.mpr fun h => absurd h (by decide)

theorem digit_loop_base_one :
    ¬ ((1 : Int) < 1 ∨ (1 : Int) > 36) ∧ ∀ k, ¬ DigitLoopEnds (fun _ => 0) 1 1 false k :=
  ⟨by decide, not_digitLoopEnds_one _ (by decide) false⟩

end Dreamos64
