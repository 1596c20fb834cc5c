import Mathlib.Algebra.BigOperators.Group.List.Basic
import Mathlib.Algebra.GroupWithZero.Nat
import Mathlib.Data.List.Nodup

/-!
# Blocks that tile an address range

`Tiling width a l e` says that the blocks starting at the addresses of `l`,
each `width x` bytes wide, lie end to end and fill `[a, e)` exactly. Tilings
are cut and joined like the ranges they fill (`tiling_append`), the widths add
up to the length of the range (`Tiling.sum_eq`), and of two blocks the first
ends before the second starts (`Tiling.pairwise`). Splitting a block in two and
joining two neighbours (`Tiling.split`, `Tiling.join`) keep the range.
-/

namespace Blocks

/-- Blocks of the given widths, end to end from `a` to `e`. -/
def Tiling (width : Nat → Nat) : Nat → List Nat → Nat → Prop
  | a, [], e => a = e
  | a, x :: l, e => x = a ∧ Tiling width (x + width x) l e

variable {width width' : Nat → Nat} {a e : Nat} {l l₁ l₂ : List Nat}

@[simp] theorem tiling_nil : Tiling width a [] e ↔ a = e := Iff.rfl

@[simp] theorem tiling_cons {x : Nat} :
    Tiling width a (x :: l) e ↔ x = a ∧ Tiling width (x + width x) l e := Iff.rfl

/-- A tiling is cut at any block boundary. -/
theorem tiling_append :
    Tiling width a (l₁ ++ l₂) e ↔ ∃ m, Tiling width a l₁ m ∧ Tiling width m l₂ e := by
  induction l₁ generalizing a with
  | nil => simp
  | cons x l₁ ih => simp [ih, and_assoc]

section

variable (h : Tiling width a l e)

include h

/-- A tiling depends on the widths of its own blocks only. -/
theorem Tiling.congr (hag : ∀ x ∈ l, width' x = width x) : Tiling width' a l e := by
  induction l generalizing a with
  | nil => exact h
  | cons x l ih =>
    obtain ⟨hx, hl⟩ := h
    refine ⟨hx, ?_⟩
    rw [hag x List.mem_cons_self]
    exact ih hl fun y hy => hag y (List.mem_cons_of_mem _ hy)

/-- The widths add up to the length of the range. -/
theorem Tiling.sum_eq : a + (l.map width).sum = e := by
  induction l generalizing a with
  | nil => simpa using h
  | cons x l ih =>
    obtain ⟨rfl, hl⟩ := h
    have := ih hl
    simp only [List.map_cons, List.sum_cons]
    omega

/-- Every block lies inside the range. -/
theorem Tiling.mem_range {x : Nat} (hx : x ∈ l) : a ≤ x ∧ x + width x ≤ e := by
  induction l generalizing a with
  | nil => simp at hx
  | cons y l ih =>
    obtain ⟨rfl, hl⟩ := h
    rcases List.mem_cons.mp hx with rfl | hx
    · have := hl.sum_eq
      omega
    · have := ih hl hx
      omega

/-- Of two blocks, the earlier one ends where the later one starts or before. -/
theorem Tiling.pairwise : l.Pairwise fun x y => x + width x ≤ y := by
  induction l generalizing a with
  | nil => exact List.Pairwise.nil
  | cons x l ih =>
    obtain ⟨-, hl⟩ := h
    exact List.pairwise_cons.mpr ⟨fun y hy => (hl.mem_range hy).1, ih hl⟩

/-- Two different blocks do not overlap. -/
theorem Tiling.apart {x y : Nat} (hx : x ∈ l) (hy : y ∈ l) (hne : x ≠ y) :
    x + width x ≤ y ∨ y + width y ≤ x :=
  List.Pairwise.forall_of_forall_of_flip
    (R := fun x y => x ≠ y → x + width x ≤ y ∨ y + width y ≤ x)
    (fun _ _ hxx => absurd rfl hxx)
    (h.pairwise.imp fun hxy _ => Or.inl hxy)
    (h.pairwise.imp fun hxy _ => Or.inr hxy) hx hy hne

end

/-- The block after `x` starts exactly where `x` ends. -/
theorem Tiling.next_eq {x y : Nat} (h : Tiling width a (l₁ ++ x :: y :: l₂) e) :
    y = x + width x := by
  obtain ⟨m, -, -, hy, -⟩ := tiling_append.mp h
  exact hy

/-- Splitting the block `x` in two. -/
theorem Tiling.split {x : Nat} (h : Tiling width a (l₁ ++ x :: l₂) e)
    (hsplit : width' x + width' (x + width' x) = width x)
    (hag : ∀ y ∈ l₁ ++ l₂, width' y = width y) :
    Tiling width' a (l₁ ++ x :: (x + width' x) :: l₂) e := by
  obtain ⟨m, h₁, hx, h₂⟩ := tiling_append.mp h
  refine tiling_append.mpr ⟨m, h₁.congr fun y hy => hag y (List.mem_append_left _ hy),
    hx, rfl, ?_⟩
  rw [Nat.add_assoc, hsplit]
  exact h₂.congr fun y hy => hag y (List.mem_append_right _ hy)

/-- Joining the block `x` with the block `y` after it. -/
theorem Tiling.join {x y : Nat} (h : Tiling width a (l₁ ++ x :: y :: l₂) e)
    (hjoin : width' x = width x + width y) (hag : ∀ z ∈ l₁ ++ l₂, width' z = width z) :
    Tiling width' a (l₁ ++ x :: l₂) e := by
  obtain ⟨m, h₁, hx, hy, h₂⟩ := tiling_append.mp h
  refine tiling_append.mpr ⟨m, h₁.congr fun z hz => hag z (List.mem_append_left _ hz), hx, ?_⟩
  rw [hjoin, ← Nat.add_assoc, ← hy]
  exact h₂.congr fun z hz => hag z (List.mem_append_right _ hz)

end Blocks
