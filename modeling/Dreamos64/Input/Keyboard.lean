import Dreamos64.Graphics.Framebuffer
import Dreamos64.Sys.Logging

/-!
# Dreamos64 — the keyboard

`keyboard.c` and the queue of pending reads of `ps2_keyboard_driver.c`: an interrupt
translates a scancode, keeps the key in a ring buffer and hands the character of a
pressed key to the read at the head of the queue. A read is a `pending_operation_t` with
its `userspace_buffer_t`, at an address; the queue is linked through `next`.

The head moves on when its read is complete, and the tail stays where it was: with an
empty queue it points to a read that is done.

The handler does two things whose bounds nobody checks: it shows the character on the screen, and
it logs the buffer of a read that is complete as a string. `takeScancode` is the handler where
both go well, and `handleKeyboardInterrupt` fails where one of them does not.
-/

namespace Dreamos64

open Machine

/-! ## `keyboard.h` -/

def keyReleaseMask : UInt8 := 0x80
def extendedScancode : UInt8 := 0xE0
def maxKeybBufferSize : Nat := 0x13

/-- `BUF_STEP`. -/
def bufStep (x : Nat) : Nat := if x < maxKeybBufferSize - 1 then x + 1 else 0

structure KeyStatus where
  code      : UInt8
  isPressed : Bool
  modifiers : UInt8
  deriving DecidableEq, Repr

/-- `key_modifiers`, the single keys. -/
inductive KeyModifiers where
  | leftShift
  | rightShift
  | leftAlt
  | rightAlt
  | leftCtrl
  | rightCtrl
  | leftGui
  | rightGui
  deriving DecidableEq, Repr

def KeyModifiers.bit : KeyModifiers → UInt8
  | .leftShift => 1
  | .rightShift => 2
  | .leftAlt => 4
  | .rightAlt => 8
  | .leftCtrl => 16
  | .rightCtrl => 32
  | .leftGui => 64
  | .rightGui => 128

/-- `scancode_mappings`: 86 codes, the first 69 of which are those of the hardware. -/
def scancodeMappings : List UInt8 :=
  (List.range 0x45).map (·.toUInt8) ++ [0x57, 0x58, 0x45, 0x46] ++
    (List.range' 0x47 13).map (·.toUInt8)

/-! ## `keyboard.c` -/

/-- The globals of the keyboard, with the settings that the handler looks at. -/
structure Keyboard where
  keyboardBuffer     : Nat → KeyStatus
  bufPosition        : Nat
  currentModifiers   : UInt8
  extendedRead       : Bool
  translationEnabled : Bool
  scancodeSet        : UInt8

/-- What the code takes from elsewhere: the character of a key, what is read past the
end of `scancode_mappings`, and the screen. -/
structure KeyboardEnv where
  kgetch : KeyStatus → UInt8
  beyond : UInt8 → UInt8
  fb     : Framebuffer

/-- Keys that give their codes as characters. -/
def codeKeys : KeyboardEnv := ⟨fun key => key.code, fun _ => 0, twoLines⟩

/-- `update_modifiers`. -/
def updateModifiers (modifier : KeyModifiers) (isPressed : Bool) (k : Keyboard) : Keyboard :=
  { k with
    currentModifiers :=
      if isPressed then k.currentModifiers ||| modifier.bit
      else k.currentModifiers &&& ~~~modifier.bit }

/-- The key that a scancode without its release bit stands for, if it is a modifier. -/
def modifierOf (extendedRead : Bool) (scancode : UInt8) : Option KeyModifiers :=
  match scancode.toNat with
  | 0x1D => some (if extendedRead then .rightCtrl else .leftCtrl)
  | 0x38 => some (if extendedRead then .rightAlt else .leftAlt)
  | 0x5B => some .leftGui
  | 0x5C => some .rightGui
  | 0x2A => some .leftShift
  | 0x36 => some .rightShift
  | _ => none

/-- `translate`. -/
def Keyboard.translate (env : KeyboardEnv) (scancode : UInt8) (k : Keyboard) : UInt8 × Keyboard :=
  -- the prefix is remembered for the scancode after it
  if scancode = extendedScancode then (scancode, { k with extendedRead := true })
  else
    let isPressed := scancode &&& keyReleaseMask = 0
    let readScancode := if isPressed then scancode else scancode &&& ~~~keyReleaseMask
    if readScancode < 0x60 then
      let modified :=
        match modifierOf k.extendedRead readScancode with
        | some modifier => updateModifiers modifier isPressed k
        | none => k
      -- the two GUI keys have no code
      let readScancode := if readScancode = 0x5B ∨ readScancode = 0x5C then 0 else readScancode
      -- codes up to 0x5F are looked up in a table of 86
      let code := scancodeMappings[readScancode.toNat]?.getD (env.beyond readScancode)
      (code, { modified with extendedRead := false })
    else (scancodeMappings.headD 0, { k with extendedRead := false })

/-! ## `ps2_keyboard_driver.c` -/

/-- A `pending_operation_t`, with the `length` and the `buffer_virtual` of its buffer. -/
structure PendingOperation where
  length        : Nat
  bufferVirtual : Nat
  nbytes        : Nat
  read          : Bool
  next          : Option Nat
  deriving DecidableEq, Repr

/-- The keyboard, the reads at their addresses with the ends of the queue, memory as the
kernel addresses it, and the console. -/
structure Input where
  keyboard : Keyboard
  ops      : Nat → PendingOperation
  opHead   : Option Nat
  opTail   : Option Nat
  memory   : Nat → UInt8
  console  : Console

def Input.setOp (s : Input) (op : Nat) (o : PendingOperation) : Input :=
  { s with ops := Function.update s.ops op o }

/-- `_ps2_keyboard_add_operation`. -/
def ps2KeyboardAddOperation (newOp : Nat) (s : Input) : Exec Input :=
  match s.opHead with
  -- `op_tail` may still point to a read that is done; it is not looked at
  | none => .ok { s with opHead := some newOp, opTail := some newOp }
  | some _ =>
    match s.opTail with
    | none => .error .nullPointer
    | some tail =>
      .ok { s.setOp tail { s.ops tail with next := some newOp } with opTail := some newOp }

/-- The character goes to the read `op`, if there is room for it. -/
def storeChar (env : KeyboardEnv) (readChar : UInt8) (op : Nat) (s : Input) : Input :=
  let o := s.ops op
  if o.nbytes < o.length then
    { s.setOp op { o with nbytes := o.nbytes + 1 } with
      memory := Function.update s.memory ((o.bufferVirtual + o.nbytes) % 2 ^ 64) readChar
      console := fbPutchar env.fb readChar 0xe58749 0x000000 s.console }
  else s

/-- What the handler does with the character of a pressed key. -/
def deliverChar (env : KeyboardEnv) (readChar : UInt8) (s : Input) : Input :=
  match s.opHead with
  | none => s
  | some op =>
    if (s.ops op).read then s
    else
      let s := storeChar env readChar op s
      let o := s.ops op
      -- done: the next read is at the head, while `op_tail` stays
      if o.nbytes = o.length then { s.setOp op { o with read := true } with opHead := o.next }
      else s

/-- `handle_keyboard_interrupt`, for the scancode that the port gives, up to what its echo and its
messages may do to other memory. -/
def takeScancode (env : KeyboardEnv) (scancode : UInt8) (s : Input) : Input :=
  if s.keyboard.translationEnabled ∨ s.keyboard.scancodeSet = 1 then
    let (code, k) := s.keyboard.translate env scancode
    let key : KeyStatus := { k.keyboardBuffer k.bufPosition with code := code }
    -- the code of a prefix stays in the buffer at a position that is not moved on
    if scancode = extendedScancode then
      { s with keyboard :=
        { k with keyboardBuffer := Function.update k.keyboardBuffer k.bufPosition key } }
    else
      let isPressed := scancode &&& keyReleaseMask = 0
      let key : KeyStatus := ⟨code, isPressed, k.currentModifiers⟩
      let buffer := Function.update k.keyboardBuffer k.bufPosition key
      let s := { s with keyboard :=
        { k with keyboardBuffer := buffer, bufPosition := bufStep k.bufPosition } }
      if isPressed then deliverChar env (env.kgetch key) s else s
  else s

/-- The handler looks at scancodes: translation is enabled, or the set is 1. -/
def Input.Enabled (s : Input) : Prop :=
  s.keyboard.translationEnabled ∨ s.keyboard.scancodeSet = 1

instance (s : Input) : Decidable s.Enabled := inferInstanceAs (Decidable (_ ∨ _))

/-- The key that a scancode reports as pressed. -/
def keyPress (env : KeyboardEnv) (scancode : UInt8) (s : Input) : Option KeyStatus :=
  if scancode &&& keyReleaseMask = 0 then
    some ⟨(s.keyboard.translate env scancode).1, true,
      (s.keyboard.translate env scancode).2.currentModifiers⟩
  else none

/-- The echo of a character stores pixels of the screen only; a newline stores none. -/
def EchoInside (fb : Framebuffer) (symbol : UInt8) (c : Console) : Prop :=
  symbol = 10 ∨ CellInside fb c.curFbColumn c.curFbLine

instance (fb : Framebuffer) (symbol : UInt8) (c : Console) : Decidable (EchoInside fb symbol c) :=
  inferInstanceAs (Decidable (_ ∨ _))

/-- The length of the message about a read that is complete: its `nbytes`, and its buffer, which
need not end with a NUL. -/
def completeMessage (o : PendingOperation) (memory : Nat → UInt8) : Nat :=
  72 + loggedInt o.nbytes + loggedLength (stringAt memory o.bufferVirtual)

/-- The character can be handed to the read `op`: the echo stays on the screen, and if the read is
complete then, the message about it fits. -/
def CanTake (env : KeyboardEnv) (readChar : UInt8) (op : Nat) (s : Input) : Prop :=
  let t := storeChar env readChar op s
  ((s.ops op).nbytes < (s.ops op).length → EchoInside env.fb readChar s.console) ∧
    ((t.ops op).nbytes = (t.ops op).length →
      completeMessage (t.ops op) t.memory < formatBufferLen)

instance (env : KeyboardEnv) (readChar : UInt8) (op : Nat) (s : Input) :
    Decidable (CanTake env readChar op s) :=
  inferInstanceAs (Decidable ((_ → _) ∧ (_ → _)))

/-- If the scancode is that of a pressed key and a read is waiting, it can take the character. -/
def Input.Served (env : KeyboardEnv) (s : Input) (scancode : UInt8) : Prop :=
  s.Enabled → ∀ key ∈ keyPress env scancode s, ∀ op ∈ s.opHead, (s.ops op).read = false →
    CanTake env (env.kgetch key) op s

instance (env : KeyboardEnv) (s : Input) (scancode : UInt8) : Decidable (s.Served env scancode) :=
  inferInstanceAs (Decidable (_ → ∀ key ∈ _, ∀ op ∈ _, _ → _))

/-- `handle_keyboard_interrupt`. -/
def handleKeyboardInterrupt (env : KeyboardEnv) (scancode : UInt8) (s : Input) : Exec Input :=
  if s.Served env scancode then .ok (takeScancode env scancode s) else .error .outOfBounds

/-- What a read starts with in `sys_read_keyboard`. -/
def newOperation (length bufferVirtual : Nat) : PendingOperation :=
  ⟨length, bufferVirtual, 0, false, none⟩

end Dreamos64
