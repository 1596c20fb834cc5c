import Dreamos64.Libc.Stdio

/-!
# Dreamos64 — messages for the log

`loglinef` of `logging.c`, which `pretty_log` and `pretty_logf` call with the name of the
function in front of the message. The message is put together by `vsprintf` in a buffer on the
stack before its level is looked at, so every message has to fit, shown or not. What it says
plays no part: a message is modelled by its level and its length.
-/

namespace Dreamos64

open Machine

/-- `log_level_t`. -/
inductive LogLevel where
  | debug
  | verbose
  | info
  | error
  | fatal
  deriving DecidableEq, Repr

def formatBufferLen : Nat := 256

/-- `loglinef`, for a message of `length` characters and a NUL. `Fatal` is never trimmed, and
stops the machine. -/
def loglinef (level : LogLevel) (length : Nat) : Exec Unit :=
  if formatBufferLen ≤ length then .error .outOfBounds
  else if level = .fatal then .error .halted
  else .ok ()

/-- How many characters `%s` adds to a message, as far as they can fit. -/
def loggedLength (str : CharPtr) : Nat := strnlen str formatBufferLen

/-- How many characters `%d` adds to a message, for a number that is not negative. -/
def loggedDigits (number : Nat) : Nat := (numeral 10 false number).length

/-- How many characters `%d` adds to a message, for any argument: it is read as an `int`. -/
def loggedInt (number : Int) : Nat :=
  if toInt32 number < 0 then 1 + loggedDigits (toInt32 number).natAbs
  else loggedDigits (toInt32 number).toNat

/-- How many characters `%x` adds to a message. -/
def loggedHex (number : Nat) : Nat := (numeral 16 false number).length

section Loglinef

variable {length : Nat}

theorem loglinef_fits (h : length < formatBufferLen) : loglinef .verbose length = .ok () := by
  unfold loglinef
  rw [if_neg (Nat.not_le.mpr h), if_neg nofun]

theorem loglinef_inv {level : LogLevel} {u : Unit} (h : loglinef level length = .ok u) :
    length < formatBufferLen := by
  unfold loglinef at h
  split_ifs at h with hlong
  exact Nat.lt_of_not_le hlong

/-- The characters of a string that cannot fit are too many, however many they are. -/
theorem loglinef_string {level : LogLevel} {str : CharPtr} {text : List UInt8}
    (h : Reads str text) :
    loglinef level (length + loggedLength str) = loglinef level (length + text.length) := by
  unfold loglinef loggedLength
  rw [strnlen_eq h]
  refine if_congr ?_ rfl rfl
  omega

end Loglinef

end Dreamos64
