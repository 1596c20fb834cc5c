import Dreamos64.Lib.ByteCopy
import Dreamos64.Libc.Strings
import Dreamos64.Mem.KHeap

/-!
# Dreamos64 — `memmove`

`memmove` of `libc/string.c` takes a buffer for ranges that overlap or touch, on the stack or
from the heap, and copies the source into it. Then it copies the source, not the buffer, to
the destination. And a buffer is given back to the heap if it is one on the stack.

* `memmove_bytes`     — the memory afterwards, for all ranges;
* `memmove_moves_iff` — the source arrives exactly if the destination does not begin inside of
  it, or it repeats what is before the destination.
-/

namespace Dreamos64

open Machine ByteCopy

def memmoveSmallCopySize : Nat := 0x200

/-- The loops of `memcpy` and `memmove`. -/
def copyBytes (mem : Memory) (dest src count : Nat) : Memory := copyUp mem dest src count

/-- `memmove`, with the memory and the heap afterwards. `stack` is where `alloca` puts a
buffer. -/
def memmove (m : PageMode) (fuel : Nat) (mem : Memory) (h : KHeap) (stack dest src count : Nat) :
    Exec (Memory × KHeap) :=
  let destTop := (dest + count) % 2 ^ 64
  let srcTop := (src + count) % 2 ^ 64
  if destTop < src ∨ srcTop < dest then .ok (copyBytes mem dest src count, h)
  else do
    let (buff, h) ← if count ≤ memmoveSmallCopySize then .ok (some stack, h)
      else kmalloc m fuel count h
    match buff with
    | none => .error .nullPointer
    | some buff =>
      let mem := copyBytes mem buff src count
      -- from `source` again, and not from `buff`
      let mem := copyBytes mem dest src count
      -- the condition is that of a buffer on the stack
      let h ← if count ≤ memmoveSmallCopySize then kfree fuel buff h else .ok h
      .ok (mem, h)

/-- What the calls of `memmove` to the heap give: a buffer at `buff`, and a heap at the end. -/
structure Buffered (m : PageMode) (fuel : Nat) (h : KHeap) (stack count buff : Nat) : Prop where
  small : count ≤ memmoveSmallCopySize → buff = stack ∧ ∃ h', kfree fuel buff h = .ok h'
  large : memmoveSmallCopySize < count → ∃ h', kmalloc m fuel count h = .ok (some buff, h')

/-- The ranges of `n` bytes at `a` and at `b` do not meet. -/
def Apart (a b n : Nat) : Prop := a + n ≤ b ∨ b + n ≤ a

instance (a b n : Nat) : Decidable (Apart a b n) := inferInstanceAs (Decidable (_ ∨ _))

/-- The call returns with the bytes of the source in the destination, and with all other bytes
outside of its buffer as they were. -/
def Moves (m : PageMode) (fuel : Nat) (mem : Memory) (h : KHeap)
    (stack dest src count buff : Nat) : Prop :=
  ∃ mem' h', memmove m fuel mem h stack dest src count = .ok (mem', h') ∧
    (∀ i < count, mem' (dest + (i : Nat)) = mem (src + i)) ∧
    ∀ a : Int, ¬ (dest ≤ a ∧ a < dest + count) → ¬ (buff ≤ a ∧ a < buff + count) →
      mem' a = mem a

section Move

variable {m : PageMode} {fuel : Nat} {h : KHeap} {stack dest src count buff : Nat} (mem : Memory)

/-- The copy into the buffer leaves the source as it is. -/
theorem copyBytes_buffer (hsrc : Apart buff src count) {i : Int} (hlow : 0 ≤ i) (hi : i < count) :
    copyBytes mem buff src count (src + i) = mem (src + i) := by
  refine copyUp_frame ?_
  unfold Apart at hsrc
  omega

/-- **The memory after `memmove`** has the bytes that a copy from the source brings, outside of
the buffer. -/
theorem memmove_bytes (hdest : dest + count < 2 ^ 64) (hsrc : src + count < 2 ^ 64)
    (hcalls : Buffered m fuel h stack count buff) (hbuff : Apart buff src count) :
    ∃ mem' h', memmove m fuel mem h stack dest src count = .ok (mem', h') ∧
      ∀ a : Int, ¬ (buff ≤ a ∧ a < buff + count) → mem' a = copyBytes mem dest src count a := by
  unfold memmove
  simp only [Nat.mod_eq_of_lt hdest, Nat.mod_eq_of_lt hsrc]
  -- ranges with a gap between them are copied at once, without a buffer
  by_cases hfar : dest + count < src ∨ src + count < dest
  · rw [if_pos hfar]
    exact ⟨_, _, rfl, fun _ _ => rfl⟩
  rw [if_neg hfar]
  -- the second copy reads the source, or what it has written itself, and never the buffer
  have hbytes : ∀ a : Int, ¬ (buff ≤ a ∧ a < buff + count) →
      copyBytes (copyBytes mem buff src count) dest src count a =
        copyBytes mem dest src count a := by
    intro a ha
    unfold copyBytes
    rw [copyUp_apply, copyUp_apply mem dest src]
    split_ifs with hin
    · unfold origin
      split_ifs with hup
      · have hlt := Int.emod_lt_of_pos (a - dest) (by omega : (0 : Int) < dest - src)
        exact copyBytes_buffer mem hbuff (Int.emod_nonneg _ (by omega)) (by omega)
      · exact copyBytes_buffer mem hbuff (by omega) (by omega)
    · exact copyUp_frame ha
  -- the heap is asked for a buffer, or given one of the stack, but never both
  by_cases hsmall : count ≤ memmoveSmallCopySize
  · obtain ⟨rfl, h', hfree⟩ := hcalls.small hsmall
    simp only [if_pos hsmall, ok_bind, hfree]
    exact ⟨_, h', rfl, hbytes⟩
  · obtain ⟨h', halloc⟩ := hcalls.large (by omega)
    simp only [if_neg hsmall, halloc, ok_bind]
    exact ⟨_, h', rfl, hbytes⟩

end Move

/-- **Moving.** The call moves the source exactly if the destination is at or below it, or behind
it, or the source repeats what is before the destination. -/
theorem memmove_moves_iff (m : PageMode) (fuel : Nat) (mem : Memory) (h : KHeap)
    (stack dest src count buff : Nat) (hdest : dest + count < 2 ^ 64)
    (hsrc : src + count < 2 ^ 64) (hcalls : Buffered m fuel h stack count buff)
    (hbuff : Apart buff src count) (hbuff' : Apart buff dest count) :
    Moves m fuel mem h stack dest src count buff ↔
      dest ≤ src ∨ src + count ≤ dest ∨
        ∀ i < count, mem (src + (i : Nat)) = mem (src + (i % (dest - src) : Nat)) := by
  obtain ⟨mem', h', hrun, hbytes⟩ := memmove_bytes mem hdest hsrc hcalls hbuff
  -- the destination is not in the buffer
  have hcell : ∀ i < count, mem' (dest + (i : Nat)) = copyBytes mem dest src count (dest + i) := by
    intro i hi
    unfold Apart at hbuff'
    exact hbytes _ (by omega)
  have hmoves := copyUp_moves_natCast_iff mem dest src count
  constructor
  · rintro ⟨mem₁, h₁, hrun₁, hmoved, -⟩
    -- `memmove` is a function: what `Moves` speaks of is the memory computed above
    rw [hrun] at hrun₁
    cases hrun₁
    exact hmoves.mp fun i hi => (hcell i hi).symm.trans (hmoved i hi)
  · intro hcond
    refine ⟨mem', h', hrun, fun i hi => ?_, fun a hout hbuffer => ?_⟩
    · rw [hcell i hi]
      exact hmoves.mpr hcond i hi
    · rw [hbytes a hbuffer]
      exact copyUp_frame hout

/-- Three letters, and zeros. -/
def lettersAt (a : Int) : Memory := fun x =>
  if x = a then 97 else if x = a + 1 then 98 else if x = a + 2 then 99 else 0

/-- A heap above the stack. -/
def heapAbove : KHeap where
  node            := fun _ => ⟨0, true, none, none⟩
  kernelHeapStart := 0x2000
  kernelHeapEnd   := 0x2000
  vmmRegions      := []

theorem memmove_moves_down :
    Moves .large 1 (lettersAt 0x11) heapAbove 0x1000 0x10 0x11 3 0x1000 :=
  (memmove_moves_iff .large 1 _ heapAbove 0x1000 0x10 0x11 3 0x1000 (by decide) (by decide)
    ⟨fun _ => ⟨rfl, heapAbove, rfl⟩, fun h => absurd h (by decide)⟩ (by decide)
    (by decide)).mpr (Or.inl (by decide))

/-- Moved up by one, `abc` becomes `aaa`. -/
theorem memmove_repeats_first :
    (∃ mem' h', memmove .large 1 (lettersAt 0x10) heapAbove 0x1000 0x11 0x10 3 = .ok (mem', h') ∧
      mem' 0x11 = 97 ∧ mem' 0x12 = 97 ∧ mem' 0x13 = 97) ∧
    ¬ Moves .large 1 (lettersAt 0x10) heapAbove 0x1000 0x11 0x10 3 0x1000 := by
  refine ⟨⟨_, heapAbove, rfl, by decide, by decide, by decide⟩, ?_⟩
  rintro ⟨mem', h', hrun, hmoved, -⟩
  cases hrun
  exact absurd (hmoved 1 (by decide)) (by decide)

end Dreamos64
