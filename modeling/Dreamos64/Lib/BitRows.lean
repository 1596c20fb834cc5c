import Mathlib.Data.Finset.Card

/-!
# Bit arrays packed into rows

An array of bits is stored as a list of `w`-bit rows; bit `i` is bit `i % w` of
row `i / w`. `test`, `set` and `clear` are the shift-and-mask operations on such
an array. Seen as a set of indices (`ones`), `set` inserts and `clear` erases
one index (`ones_set`, `ones_clear`), so that the population count is the
cardinality of that set.
-/

namespace BitRows

variable {w : Nat} {rows : List (BitVec w)} {i j : Nat}

def test (rows : List (BitVec w)) (i : Nat) : Bool :=
  (rows.getD (i / w) 0#w).getLsbD (i % w)

def set (rows : List (BitVec w)) (i : Nat) : List (BitVec w) :=
  rows.modify (i / w) (· ||| 1#w <<< (i % w))

def clear (rows : List (BitVec w)) (i : Nat) : List (BitVec w) :=
  rows.modify (i / w) (· &&& ~~~(1#w <<< (i % w)))

/-- The indices of the bits that are set. -/
def ones (rows : List (BitVec w)) : Finset Nat :=
  (Finset.range (w * rows.length)).filter fun i => test rows i

@[simp] theorem length_set : (set rows i).length = rows.length := by
  simp [set]

@[simp] theorem length_clear : (clear rows i).length = rows.length := by
  simp [clear]

/-- Reading a row that was just modified. -/
theorem getD_modify (f : BitVec w → BitVec w) (k l : Nat) (hk : k < rows.length) :
    (rows.modify k f).getD l 0#w = if k = l then f (rows.getD l 0#w) else rows.getD l 0#w := by
  simp only [List.getD_eq_getElem?_getD, List.getElem?_modify]
  by_cases hkl : k = l
  · subst hkl
    simp [List.getElem?_eq_getElem hk]
  · simp [hkl]

/-- Two indices in the same row at the same column are equal. -/
theorem eq_of_div_mod (hd : i / w = j / w) (hm : i % w = j % w) : i = j := by
  rw [← Nat.div_add_mod i w, ← Nat.div_add_mod j w, hd, hm]

/-- The mask of a column, tested at a column of the row. -/
theorem getLsbD_mask (hw : 0 < w) :
    (1#w <<< (i % w)).getLsbD (j % w) = decide (i % w = j % w) := by
  have hj : j % w < w := Nat.mod_lt j hw
  rw [BitVec.getLsbD_shiftLeft, BitVec.getLsbD_one]
  by_cases hij : i % w = j % w
  · simp [hij, hj, hw]
  · by_cases hlt : j % w < i % w
    · simp [hlt, hij]
    · have : j % w - i % w ≠ 0 := by omega
      simp [hij, this]

/-- `set` sets one bit and leaves the others. -/
theorem test_set (hw : 0 < w) (hi : i / w < rows.length) (j : Nat) :
    test (set rows i) j = (decide (j = i) || test rows j) := by
  unfold test set
  rw [getD_modify _ _ _ hi]
  by_cases hd : i / w = j / w
  · rw [if_pos hd, BitVec.getLsbD_or, getLsbD_mask hw, Bool.or_comm]
    by_cases hm : i % w = j % w
    · simp [eq_of_div_mod hd hm]
    · have hne : j ≠ i := fun e => hm (e ▸ rfl)
      simp [hm, hne]
  · have hne : j ≠ i := fun e => hd (e ▸ rfl)
    simp [hd, hne]

/-- `clear` clears one bit and leaves the others. -/
theorem test_clear (hw : 0 < w) (hi : i / w < rows.length) (j : Nat) :
    test (clear rows i) j = (!decide (j = i) && test rows j) := by
  unfold test clear
  rw [getD_modify _ _ _ hi]
  by_cases hd : i / w = j / w
  · have hj : j % w < w := Nat.mod_lt j hw
    rw [if_pos hd, BitVec.getLsbD_and, BitVec.getLsbD_not, getLsbD_mask hw, Bool.and_comm]
    by_cases hm : i % w = j % w
    · simp [eq_of_div_mod hd hm]
    · have hne : j ≠ i := fun e => hm (e ▸ rfl)
      simp [hm, hne, hj]
  · have hne : j ≠ i := fun e => hd (e ▸ rfl)
    simp [hd, hne]

/-- Beyond the last row no bit is set. -/
theorem lt_of_test (hi : test rows i = true) : i / w < rows.length := by
  by_contra hlen
  unfold test at hi
  rw [List.getD_eq_getElem?_getD, List.getElem?_eq_none (by omega)] at hi
  simp at hi

theorem mem_ones (hw : 0 < w) : i ∈ ones rows ↔ test rows i = true := by
  unfold ones
  rw [Finset.mem_filter, Finset.mem_range]
  refine ⟨And.right, fun hi => ⟨?_, hi⟩⟩
  have := (Nat.div_lt_iff_lt_mul hw).mp (lt_of_test hi)
  rwa [Nat.mul_comm]

theorem ones_set (hw : 0 < w) (hi : i / w < rows.length) :
    ones (set rows i) = insert i (ones rows) := by
  ext j
  rw [mem_ones hw, Finset.mem_insert, mem_ones hw, test_set hw hi]
  simp

theorem ones_clear (hw : 0 < w) (hi : i / w < rows.length) :
    ones (clear rows i) = (ones rows).erase i := by
  ext j
  rw [mem_ones hw, Finset.mem_erase, mem_ones hw, test_clear hw hi]
  simp

/-- There are at most as many set bits as bits. -/
theorem card_ones_le : (ones rows).card ≤ w * rows.length := by
  have := Finset.card_filter_le (Finset.range (w * rows.length)) fun i => test rows i = true
  rwa [Finset.card_range] at this

end BitRows
