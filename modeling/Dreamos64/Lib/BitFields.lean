import Mathlib.Tactic.Common

/-!
# Fields of a machine word

A word seen as a sequence of bit-fields, and as two halves that are stored apart.

* `getLsbD_set` — writing a field changes the bits of the field;
* `join_split`  — a word is what its halves are joined to.
-/

namespace BitFields

variable {k w : Nat}

/-- The word with the `k` bits from `lo` on replaced. -/
def set (lo : Nat) (field : BitVec k) (word : BitVec w) : BitVec w :=
  (word &&& ~~~((BitVec.allOnes k).setWidth w <<< lo)) ||| (field.setWidth w <<< lo)

theorem getLsbD_set {lo i : Nat} (hi : i < w) (field : BitVec k) (word : BitVec w) :
    (set lo field word).getLsbD i =
      if lo ≤ i ∧ i < lo + k then field.getLsbD (i - lo) else word.getLsbD i := by
  unfold set
  simp only [BitVec.getLsbD_or, BitVec.getLsbD_and, BitVec.getLsbD_not, BitVec.getLsbD_shiftLeft,
    BitVec.getLsbD_setWidth, BitVec.getLsbD_allOnes]
  by_cases hlo : lo ≤ i
  · by_cases hhi : i < lo + k
    · -- inside the field
      rw [if_pos ⟨hlo, hhi⟩]
      simp [hi, Nat.not_lt.mpr hlo, show i - lo < w by omega, show i - lo < k by omega]
    · rw [if_neg fun h => hhi h.2]
      have hout : field.getLsbD (i - lo) = false := BitVec.getLsbD_of_ge field _ (by omega)
      simp [hi, hout, show ¬ i - lo < k by omega]
  · rw [if_neg fun h => hlo h.1]
    simp [hi, Nat.lt_of_not_le hlo]

/-- A field of one bit. -/
theorem getLsbD_set_ofBool {lo i : Nat} (hi : i < w) (b : Bool) (word : BitVec w) :
    (set lo (BitVec.ofBool b) word).getLsbD i = if i = lo then b else word.getLsbD i := by
  rw [getLsbD_set hi]
  by_cases heq : i = lo
  · rw [if_pos (by omega), if_pos heq, heq, Nat.sub_self]
    cases b <;> rfl
  · rw [if_neg (by omega), if_neg heq]

/-- Two words of `k` bits as one. -/
def join (w : Nat) (upper lower : BitVec k) : BitVec w :=
  (upper.setWidth w <<< k) ||| lower.setWidth w

theorem getLsbD_join_lower {i : Nat} (hi : i < w) (hlow : i < k) (upper lower : BitVec k) :
    (join w upper lower).getLsbD i = lower.getLsbD i := by
  unfold join
  rw [BitVec.getLsbD_or, BitVec.getLsbD_shiftLeft, BitVec.getLsbD_setWidth]
  simp [hi, hlow]

/-- **A word is its two halves.** -/
theorem join_split (hw : w ≤ k + k) (word : BitVec w) :
    join w ((word >>> k).setWidth k) (word.setWidth k) = word := by
  refine BitVec.eq_of_getLsbD_eq fun i hi => ?_
  unfold join
  simp only [BitVec.getLsbD_or, BitVec.getLsbD_shiftLeft, BitVec.getLsbD_setWidth,
    BitVec.getLsbD_ushiftRight]
  by_cases hlow : i < k
  · simp [hi, hlow]
  · simp [hi, hlow, show i - k < w by omega, show i - k < k by omega,
      show k + (i - k) = i by omega]

end BitFields
