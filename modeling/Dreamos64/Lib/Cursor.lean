import Dreamos64.Lib.ByteCopy

/-!
# Text at a cursor

A printer writes pieces of text one after the other at a cursor that moves on. A piece may also
write the cell behind its text, as a terminator that the next piece overwrites: nothing is said
about that cell.

* `Wrote.append` — two pieces in a row are one piece;
* `Puts.wrote`   — a piece that is written through a pointer.
-/

namespace Cursor

variable {α : Type}

/-- The cells from `a` on are `l`, and all others but the one behind `l` are as before. -/
structure Wrote (mem mem' : Int → α) (a : Int) (l : List α) : Prop where
  cell : ∀ i c, l[i]? = some c → mem' (a + (i : Nat)) = c
  rest : ∀ x, x < a ∨ a + l.length < x → mem' x = mem x

/-- The same for what a pointer to the cursor reads. -/
structure Puts (str str' : Nat → α) (l : List α) : Prop where
  cell : ∀ i c, l[i]? = some c → str' i = c
  rest : ∀ i, l.length < i → str' i = str i

/-- The memory with other cells from `a` on. -/
def patch (mem : Int → α) (a : Int) (str : Nat → α) : Int → α := fun x =>
  if a ≤ x then str (x - a).toNat else mem x

section Wrote

variable {mem mem' mem'' : Int → α} {a : Int} {l l' : List α}

/-- A piece, and a second one where the first has left the cursor. -/
theorem Wrote.append (h : Wrote mem mem' a l) (h' : Wrote mem' mem'' (a + l.length) l') :
    Wrote mem mem'' a (l ++ l') where
  cell := by
    intro i c hi
    -- the second piece leaves the text of the first one as it is
    by_cases hlt : i < l.length
    · rw [List.getElem?_append_left hlt] at hi
      rw [h'.rest _ (Or.inl (by omega)), h.cell i c hi]
    · rw [List.getElem?_append_right (by omega)] at hi
      have hcell := h'.cell _ c hi
      rwa [show a + l.length + ((i - l.length : Nat) : Int) = a + i by omega] at hcell
  rest := by
    intro x hx
    rw [List.length_append] at hx
    rw [h'.rest x (by omega), h.rest x (by omega)]

/-- One cell. -/
theorem wrote_update (mem : Int → α) (a : Int) (c : α) :
    Wrote mem (Function.update mem a c) a [c] where
  cell := by
    intro i d hi
    obtain ⟨hlt, rfl⟩ := List.getElem?_eq_some_iff.mp hi
    have hzero : i = 0 := Nat.lt_one_iff.mp hlt
    subst hzero
    show Function.update mem a c (a + 0) = c
    rw [Int.add_zero, Function.update_self]
  rest := by
    intro x hx
    have hne : x ≠ a := by
      rw [List.length_singleton] at hx
      omega
    exact Function.update_of_ne hne c mem

/-- A copy of cells that are apart from where they are written. -/
theorem wrote_copyUp {src : Int} (hl : ∀ i c, l[i]? = some c → mem (src + (i : Nat)) = c)
    (hapart : a ≤ src ∨ src + l.length ≤ a) :
    Wrote mem (ByteCopy.copyUp mem a src l.length) a l where
  cell := by
    intro i c hi
    rw [ByteCopy.copyUp_cell hapart (List.getElem?_eq_some_iff.mp hi).1]
    exact hl i c hi
  rest := fun x hx => ByteCopy.copyUp_frame (by omega)

section Puts

variable {str str' : Nat → α}

/-- The cells one by one. -/
theorem puts_of_getElem? (hcell : ∀ i < l.length, l[i]? = some (str' i))
    (hrest : ∀ i, l.length < i → str' i = str i) : Puts str str' l where
  cell := by
    intro i c hi
    rw [hcell i (List.getElem?_eq_some_iff.mp hi).1] at hi
    exact Option.some_inj.mp hi
  rest := hrest

theorem puts_update (str : Nat → α) (c : α) : Puts str (Function.update str 0 c) [c] := by
  refine puts_of_getElem? (fun i hi => ?_) fun i hi => ?_
  · obtain rfl : i = 0 := Nat.lt_one_iff.mp hi
    rw [Function.update_self]
    rfl
  · rw [Function.update_of_ne (by omega)]

end Puts

theorem Puts.wrote {str : Nat → α} (h : Puts (fun i => mem (a + (i : Nat))) str l) :
    Wrote mem (patch mem a str) a l where
  cell := by
    intro i c hi
    rw [patch, if_pos (by omega), show (a + (i : Int) - a).toNat = i by omega]
    exact h.cell i c hi
  rest := by
    intro x hx
    unfold patch
    by_cases hle : a ≤ x
    · rw [if_pos hle, h.rest _ (by omega), show a + ((x - a).toNat : Int) = x by omega]
    · rw [if_neg hle]

end Wrote

end Cursor
