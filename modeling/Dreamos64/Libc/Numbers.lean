import Dreamos64.Lib.Exec
import Dreamos64.Libc.Strings

/-!
# Dreamos64 — numbers as text

`numbers.c`: each function writes the digits of a number to a buffer, whose contents are
arbitrary before, and returns how many they are. `_getHexString` writes them in their order;
the others begin with the last digit, and turn the text around in the end.

* `getHexString_terminated` — the digits are followed by a NUL;
* `toInt32_spec`            — the value of an `int`.
-/

namespace Dreamos64

open Machine

/-! ## `int` -/

/-- The value that an `int` computation ends up with. -/
def toInt32 (x : Int) : Int := x.bmod (2 ^ 32)

section Int32

theorem toInt32_eq {x : Int} (hlow : -2 ^ 31 ≤ x) (hhigh : x < 2 ^ 31) : toInt32 x = x := by
  unfold toInt32
  exact Int.bmod_eq_of_le (by omega) (by omega)

theorem toInt32_bounds (x : Int) : -2 ^ 31 ≤ toInt32 x ∧ toInt32 x < 2 ^ 31 := by
  unfold toInt32
  have hlow := Int.le_bmod (x := x) (m := 2 ^ 32) (by decide)
  have hhigh := Int.bmod_lt (x := x) (m := 2 ^ 32) (by decide)
  omega

/-- Wrapping adds a multiple of `2 ^ 32`, and such a multiple does not matter. -/
theorem toInt32_spec (x : Int) : ∃ k, toInt32 x = x + 2 ^ 32 * k := by
  have h : toInt32 x + 2 ^ 32 * x.bdiv (2 ^ 32) = x := Int.bmod_add_bdiv x (2 ^ 32)
  exact ⟨-x.bdiv (2 ^ 32), by omega⟩

theorem toInt32_add_mul (x k : Int) : toInt32 (x + 2 ^ 32 * k) = toInt32 x :=
  Int.add_mul_bmod_self_left x (2 ^ 32) k

end Int32

/-! ## `_getHexString` -/

/-- How often `number` can be shifted by four bits before it is below 16. -/
def hexShift : Nat → Nat → Nat
  | 0, _ => 0
  | turns + 1, number => if number ≥ 16 then hexShift turns (number >>> 4) + 1 else 0

/-- The character of one digit. -/
def hexDigit (useCapital : Bool) (digit : Nat) : UInt8 :=
  if digit < 10 then (48 + digit).toUInt8
  else ((if useCapital then 65 else 97) + digit - 10).toUInt8

/-- The loop that writes the digits from the one at `shift - 1` down, each with a NUL
after it. -/
def writeHex (number : Nat) (useCapital : Bool) : Nat → Nat → CharPtr → CharPtr
  | 0, _, buffer => buffer
  | shift + 1, pos, buffer =>
    let digit := (number >>> (4 * shift)) % 16
    let buffer := Function.update buffer pos (hexDigit useCapital digit)
    writeHex number useCapital shift (pos + 1) (Function.update buffer (pos + 1) 0)

/-- `_getHexString`: the number of digits, and the buffer. A 64-bit number has at most
sixteen. -/
def getHexString (buffer : CharPtr) (hexnumber : UInt64) (useCapital : Bool) : Nat × CharPtr :=
  let size := hexShift 16 hexnumber.toNat + 1
  (size, writeHex hexnumber.toNat useCapital size 0 buffer)

theorem writeHex_nul (number : Nat) (useCapital : Bool) (shift pos : Nat) (buffer : CharPtr) :
    writeHex number useCapital (shift + 1) pos buffer (pos + shift + 1) = 0 := by
  induction shift generalizing pos buffer with
  | zero => exact Function.update_self _ _ _
  | succ shift ih =>
    rw [writeHex, show pos + (shift + 1) + 1 = pos + 1 + shift + 1 by omega]
    exact ih (pos + 1) _

theorem getHexString_terminated (buffer : CharPtr) (hexnumber : UInt64) (useCapital : Bool) :
    (getHexString buffer hexnumber useCapital).2 (getHexString buffer hexnumber useCapital).1 =
      0 := by
  have h := writeHex_nul hexnumber.toNat useCapital (hexShift 16 hexnumber.toNat) 0 buffer
  rwa [Nat.zero_add] at h

/-- The digits as a string. -/
def hexString (buffer : CharPtr) (hexnumber : UInt64) (useCapital : Bool) : CString where
  bytes := (getHexString buffer hexnumber useCapital).2
  size := (getHexString buffer hexnumber useCapital).1
  terminated := ⟨_, Nat.le_refl _, getHexString_terminated buffer hexnumber useCapital⟩

/-! ## The other bases -/

/-- The loop that writes the digits from the last one on, for at most `turns` turns. -/
def writeDigits (base : Nat) (digit : Nat → UInt8) :
    Nat → Nat → Nat → CharPtr → Exec (Nat × CharPtr)
  | 0, _, _, _ => .error .outOfFuel
  | turns + 1, number, size, buffer =>
    if number > 0 then
      writeDigits base digit turns (number / base) (size + 1)
        (Function.update buffer size (digit (number % base)))
    else .ok (size, buffer)

/-- The loop that swaps the first character with the last one, and so on. -/
def swapEnds : Nat → Nat → Nat → CharPtr → CharPtr
  | 0, _, _, buffer => buffer
  | turns + 1, pointerbase, pointer, buffer =>
    if pointer > pointerbase then
      let swap := buffer pointer
      let buffer := Function.update buffer pointer (buffer pointerbase)
      swapEnds turns (pointerbase + 1) (pointer - 1) (Function.update buffer pointerbase swap)
    else buffer

/-- What `_getUnsignedDecString` and `_getNumericString` share. A 64-bit number has at most 64
digits; in base 1 the first loop never ends. Zero is written without a NUL. -/
def digitString (base : Nat) (digit : Nat → UInt8) (buffer : CharPtr) (number : UInt64) :
    Exec (Nat × CharPtr) :=
  if number = 0 then .ok (1, Function.update buffer 0 48)
  else do
    let (size, buffer) ← writeDigits base digit 65 number.toNat 0 buffer
    .ok (size, swapEnds size 0 (size - 1) (Function.update buffer size 0))

def getUnsignedDecString (buffer : CharPtr) (number : UInt64) : Exec (Nat × CharPtr) :=
  digitString 10 (fun mod => (mod + 48).toUInt8) buffer number

/-- A character, and what is after it. -/
def CharPtr.cons (c : UInt8) (str : CharPtr) : CharPtr
  | 0 => c
  | i + 1 => str i

/-- `_getDecString`; the negation is one of `unsigned long`. -/
def getDecString (buffer : CharPtr) (number : Int64) : Exec (Nat × CharPtr) :=
  if number < 0 then do
    let (size, rest) ← getUnsignedDecString (buffer.add 1) (number.toUInt64 * -1)
    .ok (1 + size, rest.cons 45)
  else getUnsignedDecString buffer number.toUInt64

def getNumericString (buffer : CharPtr) (number : UInt64) (base : Int) (useCapital : Bool) :
    Exec (Nat × CharPtr) :=
  if base < 1 ∨ base > 36 then .ok (0, buffer)
  else digitString base.toNat (hexDigit useCapital) buffer number

end Dreamos64
