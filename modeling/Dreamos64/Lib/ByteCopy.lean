import Mathlib.Algebra.Order.Group.Int
import Mathlib.Tactic.Common

/-!
# Copies in a flat memory

A copy goes cell by cell from the lowest address up, and each cell is read when its turn
comes. If the destination begins inside of the source, cells are read that the copy itself
has written, and what arrives is the part of the source before the destination, over and
over.

* `copyUp_apply`    — every cell of the memory after a copy, for all overlaps;
* `copyUp_moves_iff` — when what arrives is what was in the source.
-/

namespace ByteCopy

/-- `dest[i] = src[i]` for `i` from 0 to `n - 1`. -/
def copyUp {α : Type} (mem : Int → α) (dest src : Int) : Nat → Int → α
  | 0 => mem
  | n + 1 => Function.update (copyUp mem dest src n) (dest + n) (copyUp mem dest src n (src + n))

/-- Where the cell that arrives at `dest + i` was before the copy. -/
def origin (dest src i : Int) : Int :=
  if src < dest then src + i % (dest - src) else src + i

section Copy

variable {α : Type} {mem : Int → α} {dest src a : Int} {n : Nat}

/-- **A copy**, cell by cell. -/
theorem copyUp_apply (mem : Int → α) (dest src : Int) (n : Nat) (a : Int) :
    copyUp mem dest src n a =
      if dest ≤ a ∧ a < dest + n then mem (origin dest src (a - dest)) else mem a := by
  induction n generalizing a with
  | zero =>
    rw [if_neg (by omega)]
    rfl
  | succ n ih =>
    -- the cell that is read last: if the copy has written it, then with an earlier one
    have hread : copyUp mem dest src n (src + n) = mem (origin dest src n) := by
      rw [ih]
      unfold origin
      by_cases hup : src < dest
      · rw [if_pos hup, if_pos hup]
        by_cases hin : dest ≤ src + n
        · rw [if_pos ⟨hin, by omega⟩]
          have hback : src + n - dest = n - (dest - src) := by omega
          rw [hback, Int.sub_emod_right]
        · rw [if_neg fun h => hin h.1, Int.emod_eq_of_lt (by omega) (by omega)]
      · rw [if_neg (by omega : ¬ (dest ≤ src + n ∧ src + n < dest + n)), if_neg hup]
    -- the new cell, the cells copied before it, and the rest
    rw [copyUp, Function.update_apply, hread, ih]
    by_cases hlast : a = dest + n
    · rw [if_pos hlast, if_pos (by omega), hlast, add_sub_cancel_left]
    · rw [if_neg hlast]
      by_cases hin : dest ≤ a ∧ a < dest + n
      · rw [if_pos hin, if_pos (by omega)]
      · rw [if_neg hin, if_neg (by omega)]

/-- Cells outside of the destination stay. -/
theorem copyUp_frame (h : ¬ (dest ≤ a ∧ a < dest + n)) : copyUp mem dest src n a = mem a := by
  rw [copyUp_apply, if_neg h]

/-- What arrives, for a destination that does not begin inside of the source. -/
theorem copyUp_cell (hapart : dest ≤ src ∨ src + n ≤ dest) {i : Nat} (hi : i < n) :
    copyUp mem dest src n (dest + i) = mem (src + i) := by
  rw [copyUp_apply, if_pos (by omega), add_sub_cancel_left]
  unfold origin
  split_ifs
  · rw [Int.emod_eq_of_lt (by omega) (by omega)]
  · rfl

/-- **When a copy moves the source**: its destination is at or below the source, or behind it, or
the source repeats what is before the destination. -/
theorem copyUp_moves_iff (mem : Int → α) (dest src : Int) (n : Nat) :
    (∀ i < n, copyUp mem dest src n (dest + (i : Nat)) = mem (src + i)) ↔
      dest ≤ src ∨ src + n ≤ dest ∨
        ∀ i < n, mem (src + (i : Nat)) = mem (src + i % (dest - src)) := by
  constructor
  · intro hmoves
    -- only a copy upwards can read what it has written
    by_cases hup : src < dest
    · refine Or.inr (Or.inr fun i hi => ?_)
      rw [← hmoves i hi, copyUp_apply, if_pos (by omega), add_sub_cancel_left, origin, if_pos hup]
    · exact Or.inl (by omega)
  · intro hcond i hi
    rcases hcond with hle | hge | hperiod
    · exact copyUp_cell (Or.inl hle) hi
    · exact copyUp_cell (Or.inr hge) hi
    · rw [copyUp_apply, if_pos (by omega), add_sub_cancel_left]
      unfold origin
      split_ifs
      · exact (hperiod i hi).symm
      · rfl

/-- The same for addresses that are natural numbers. -/
theorem copyUp_moves_natCast_iff (mem : Int → α) (dest src n : Nat) :
    (∀ i < n, copyUp mem dest src n (dest + (i : Nat)) = mem (src + i)) ↔
      dest ≤ src ∨ src + n ≤ dest ∨
        ∀ i < n, mem (src + (i : Nat)) = mem (src + (i % (dest - src) : Nat)) := by
  rw [copyUp_moves_iff, Int.ofNat_le]
  by_cases hle : dest ≤ src
  · exact iff_of_true (Or.inl hle) (Or.inl hle)
  · have hsub : ((dest - src : Nat) : Int) = dest - src := Int.ofNat_sub (by omega)
    have hbehind : (src : Int) + n ≤ dest ↔ src + n ≤ dest := by omega
    simp only [Int.natCast_mod, hsub, hbehind]

end Copy

end ByteCopy
