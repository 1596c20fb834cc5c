import Mathlib.Algebra.GroupWithZero.Nat

/-!
# Dreamos64 — system calls

The `switch` of `syscall_dispatch`: which call the registers of the interrupted thread
ask for, with its arguments as the handlers get them.
-/

namespace Dreamos64

/-- The registers of a `cpu_status_t` that a system call is made with. -/
structure SyscallRegs where
  rdi : Nat
  rsi : Nat
  rdx : Nat
  rcx : Nat
  r8  : Nat

/-- A system call with its arguments. -/
inductive Syscall where
  | example
  | print (buffer nbytes posX posY : Nat)
  | openFile (path flags : Nat)
  | read (fildes : Int) (buffer nbytes : Nat)
  | exit (status : Int)
  /-- `E_NO_SYSCALL` is returned -/
  | none
  deriving DecidableEq, Repr

/-- A register as an `int`. -/
def asInt (r : Nat) : Int := (BitVec.ofNat 32 r).toInt

/-- `syscall_dispatch`, up to the call of the handler; `syscall_vector` has 32 bits. -/
def syscallDispatch (regs : SyscallRegs) : Syscall :=
  match regs.rdi % 2 ^ 32 with
  | 1 => .example
  | 2 => .print regs.rsi regs.rdx regs.rcx regs.r8
  | 3 => .openFile regs.rsi regs.rdx
  | 4 => .read (asInt regs.rsi) regs.rdx regs.rcx
  | 5 => .exit (asInt regs.rsi)
  | _ => .none

end Dreamos64
