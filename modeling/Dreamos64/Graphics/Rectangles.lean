import Dreamos64.Graphics.Framebuffer
import Mathlib.Data.Set.Lattice
import Mathlib.Order.CompletePartialOrder

/-!
# Dreamos64 — windows as sets of pixels

A window is the set of its pixels, with half-open ranges of columns and rows
(`FbWindow.points`). What `_fb_get_rectangles` and `_fb_intersect_window` compute in
`uint32_t` is compared with these sets.

* `fb_get_rectangles_partition` — what surrounds an area, and the area, partition the window;
* `fb_intersect_window_iff`     — the two functions of `window.c` draw the same boundary,
  except on the column right of the area and on the row below it.
-/

namespace Dreamos64

/-! ## Windows -/

/-- The pixels of a window. -/
def FbWindow.points (w : FbWindow) : Set (Nat × Nat) :=
  Set.Ico w.xOrig.toNat (w.xOrig.toNat + w.width.toNat) ×ˢ
    Set.Ico w.yOrig.toNat (w.yOrig.toNat + w.height.toNat)

theorem FbWindow.mem_points {w : FbWindow} {x y : Nat} :
    (x, y) ∈ w.points ↔
      (w.xOrig.toNat ≤ x ∧ x < w.xOrig.toNat + w.width.toNat) ∧
        w.yOrig.toNat ≤ y ∧ y < w.yOrig.toNat + w.height.toNat :=
  Iff.rfl

/-- The far corner of a window has coordinates of 32 bits. -/
structure FbWindow.Bounded (w : FbWindow) : Prop where
  column : w.xOrig.toNat + w.width.toNat < 2 ^ 32
  row    : w.yOrig.toNat + w.height.toNat < 2 ^ 32

/-- The area is contained in the window. -/
structure FbWindow.Within (area w : FbWindow) : Prop where
  left   : w.xOrig.toNat ≤ area.xOrig.toNat
  right  : area.xOrig.toNat + area.width.toNat ≤ w.xOrig.toNat + w.width.toNat
  top    : w.yOrig.toNat ≤ area.yOrig.toNat
  bottom : area.yOrig.toNat + area.height.toNat ≤ w.yOrig.toNat + w.height.toNat

theorem FbWindow.Within.refl (w : FbWindow) : w.Within w :=
  ⟨Nat.le_refl _, Nat.le_refl _, Nat.le_refl _, Nat.le_refl _⟩

/-! ## What surrounds an area -/

section Sides

/-- The columns left of the area, in full height. -/
def FbWindow.leftOf (w area : FbWindow) : FbWindow :=
  ⟨w.xOrig, w.yOrig, area.xOrig - w.xOrig, w.height⟩

def FbWindow.rightOf (w area : FbWindow) : FbWindow :=
  ⟨area.xOrig + area.width, w.yOrig,
    (w.xOrig + w.width) - (area.xOrig + area.width), w.height⟩

/-- The rows above the area, in its width. -/
def FbWindow.above (w area : FbWindow) : FbWindow :=
  ⟨area.xOrig, w.yOrig, area.width, area.yOrig - w.yOrig⟩

def FbWindow.below (w area : FbWindow) : FbWindow :=
  ⟨area.xOrig, area.yOrig + area.height, area.width,
    (w.yOrig + w.height) - (area.yOrig + area.height)⟩

variable {w area : FbWindow} {x y : Nat}

/-- The four sides, whether there is anything on them or not. -/
def FbWindow.sides (w area : FbWindow) : List FbWindow :=
  [w.leftOf area, w.rightOf area, w.above area, w.below area]

/-- The conditions of `_fb_get_rectangles` leave some of the sides out. -/
theorem fbGetRectangles_sublist (w area : FbWindow) :
    (fbGetRectangles w (some area)).Sublist (w.sides area) := by
  have hone (p : Prop) [Decidable p] (r : FbWindow) : (if p then [r] else []).Sublist [r] := by
    split
    · exact List.Sublist.refl _
    · exact List.nil_sublist _
  have hleft := hone (w.xOrig < area.xOrig) (w.leftOf area)
  have hright := hone (area.xOrig + area.width < w.xOrig + w.width) (w.rightOf area)
  have habove := hone (w.yOrig < area.yOrig) (w.above area)
  have hbelow := hone (area.yOrig + area.height < w.yOrig + w.height) (w.below area)
  exact ((hleft.append hright).append habove).append hbelow

section Bounds

variable (harea : area.Within w)

include harea

theorem FbWindow.leftOf_end :
    (w.leftOf area).xOrig.toNat + (w.leftOf area).width.toNat = area.xOrig.toNat := by
  have hwidth : (area.xOrig - w.xOrig).toNat = area.xOrig.toNat - w.xOrig.toNat :=
    UInt32.toNat_sub_of_le _ _ (UInt32.le_iff_toNat_le.mpr harea.left)
  have hleft := harea.left
  unfold leftOf
  dsimp only
  omega

theorem FbWindow.above_end :
    (w.above area).yOrig.toNat + (w.above area).height.toNat = area.yOrig.toNat := by
  have hheight : (area.yOrig - w.yOrig).toNat = area.yOrig.toNat - w.yOrig.toNat :=
    UInt32.toNat_sub_of_le _ _ (UInt32.le_iff_toNat_le.mpr harea.top)
  have htop := harea.top
  unfold above
  dsimp only
  omega

theorem FbWindow.mem_leftOf : (x, y) ∈ (w.leftOf area).points ↔
    (w.xOrig.toNat ≤ x ∧ x < area.xOrig.toNat) ∧
      w.yOrig.toNat ≤ y ∧ y < w.yOrig.toNat + w.height.toNat := by
  rw [mem_points, leftOf_end harea]
  rfl

theorem FbWindow.mem_above : (x, y) ∈ (w.above area).points ↔
    (area.xOrig.toNat ≤ x ∧ x < area.xOrig.toNat + area.width.toNat) ∧
      w.yOrig.toNat ≤ y ∧ y < area.yOrig.toNat := by
  rw [mem_points, above_end harea]
  rfl

variable (hw : w.Bounded)

include hw

theorem FbWindow.toNat_right : (area.xOrig + area.width).toNat =
    area.xOrig.toNat + area.width.toNat := by
  have hcolumn := hw.column
  have hright := harea.right
  rw [UInt32.toNat_add, Nat.mod_eq_of_lt (by omega)]

theorem FbWindow.toNat_bottom : (area.yOrig + area.height).toNat =
    area.yOrig.toNat + area.height.toNat := by
  have hrow := hw.row
  have hbottom := harea.bottom
  rw [UInt32.toNat_add, Nat.mod_eq_of_lt (by omega)]

theorem FbWindow.rightOf_end : (w.rightOf area).xOrig.toNat + (w.rightOf area).width.toNat =
    w.xOrig.toNat + w.width.toNat := by
  have horig := toNat_right harea hw
  have hend := toNat_right (Within.refl w) hw
  have hright := harea.right
  have hwidth : ((w.xOrig + w.width) - (area.xOrig + area.width)).toNat =
      (w.xOrig + w.width).toNat - (area.xOrig + area.width).toNat :=
    UInt32.toNat_sub_of_le _ _ (UInt32.le_iff_toNat_le.mpr (by omega))
  unfold rightOf
  dsimp only
  omega

theorem FbWindow.below_end : (w.below area).yOrig.toNat + (w.below area).height.toNat =
    w.yOrig.toNat + w.height.toNat := by
  have horig := toNat_bottom harea hw
  have hend := toNat_bottom (Within.refl w) hw
  have hbottom := harea.bottom
  have hheight : ((w.yOrig + w.height) - (area.yOrig + area.height)).toNat =
      (w.yOrig + w.height).toNat - (area.yOrig + area.height).toNat :=
    UInt32.toNat_sub_of_le _ _ (UInt32.le_iff_toNat_le.mpr (by omega))
  unfold below
  dsimp only
  omega

theorem FbWindow.mem_rightOf : (x, y) ∈ (w.rightOf area).points ↔
    (area.xOrig.toNat + area.width.toNat ≤ x ∧ x < w.xOrig.toNat + w.width.toNat) ∧
      w.yOrig.toNat ≤ y ∧ y < w.yOrig.toNat + w.height.toNat := by
  rw [mem_points, rightOf_end harea hw, ← toNat_right harea hw]
  rfl

theorem FbWindow.mem_below : (x, y) ∈ (w.below area).points ↔
    (area.xOrig.toNat ≤ x ∧ x < area.xOrig.toNat + area.width.toNat) ∧
      area.yOrig.toNat + area.height.toNat ≤ y ∧ y < w.yOrig.toNat + w.height.toNat := by
  rw [mem_points, below_end harea hw, ← toNat_bottom harea hw]
  rfl

/-- The rectangles are the sides where the window goes on behind the area. -/
theorem FbWindow.mem_fbGetRectangles {r : FbWindow} : r ∈ fbGetRectangles w (some area) ↔
    (w.xOrig.toNat < area.xOrig.toNat ∧ r = w.leftOf area) ∨
      (area.xOrig.toNat + area.width.toNat < w.xOrig.toNat + w.width.toNat ∧
        r = w.rightOf area) ∨
      (w.yOrig.toNat < area.yOrig.toNat ∧ r = w.above area) ∨
      (area.yOrig.toNat + area.height.toNat < w.yOrig.toNat + w.height.toNat ∧
        r = w.below area) := by
  have hone (p : Prop) [Decidable p] (r' : FbWindow) :
      r ∈ (if p then [r'] else []) ↔ p ∧ r = r' := by
    split_ifs with hp <;> simp [hp]
  unfold fbGetRectangles
  simp only [List.mem_append, hone, UInt32.lt_iff_toNat_lt, toNat_right harea hw,
    toNat_right (Within.refl w) hw, toNat_bottom harea hw, toNat_bottom (Within.refl w) hw,
    or_assoc]
  rfl

/-- A side that `_fb_get_rectangles` leaves out has no pixels. -/
theorem FbWindow.exists_side_iff :
    (∃ r ∈ fbGetRectangles w (some area), (x, y) ∈ r.points) ↔
      ∃ r ∈ w.sides area, (x, y) ∈ r.points := by
  constructor
  · rintro ⟨r, hr, hpoint⟩
    exact ⟨r, (fbGetRectangles_sublist w area).subset hr, hpoint⟩
  · rintro ⟨r, hr, hpoint⟩
    refine ⟨r, (mem_fbGetRectangles harea hw).mpr ?_, hpoint⟩
    simp only [sides, List.mem_cons, List.not_mem_nil, or_false] at hr
    -- the point says that the condition of its side is met
    rcases hr with rfl | rfl | rfl | rfl
    · rw [mem_leftOf harea] at hpoint
      exact Or.inl ⟨by omega, rfl⟩
    · rw [mem_rightOf harea hw] at hpoint
      exact Or.inr (Or.inl ⟨by omega, rfl⟩)
    · rw [mem_above harea] at hpoint
      exact Or.inr (Or.inr (Or.inl ⟨by omega, rfl⟩))
    · rw [mem_below harea hw] at hpoint
      exact Or.inr (Or.inr (Or.inr ⟨by omega, rfl⟩))

/-- The rectangles have the pixels of the window that are not in the area. -/
theorem FbWindow.exists_rectangle_iff :
    (∃ r ∈ fbGetRectangles w (some area), (x, y) ∈ r.points) ↔
      (x, y) ∈ w.points ∧ (x, y) ∉ area.points := by
  have ⟨hleft, hright, htop, hbottom⟩ := harea
  rw [exists_side_iff harea hw]
  unfold sides
  simp only [List.mem_cons, List.not_mem_nil, or_false, exists_eq_or_imp, exists_eq_left,
    mem_leftOf harea, mem_rightOf harea hw, mem_above harea, mem_below harea hw]
  rw [mem_points, mem_points]
  omega

/-- No two sides have a pixel in common, nor has one with the area. -/
theorem FbWindow.pairwise_disjoint_sides :
    (area :: w.sides area).Pairwise fun r r' => Disjoint r.points r'.points := by
  have ⟨hleft, hright, htop, hbottom⟩ := harea
  have hdisjoint {r r' : FbWindow} (h : ∀ x y, (x, y) ∈ r.points → (x, y) ∉ r'.points) :
      Disjoint r.points r'.points := Set.disjoint_left.mpr fun p => h p.1 p.2
  rw [List.pairwise_cons]
  constructor
  · intro r hr
    refine hdisjoint fun x y hin hside => ?_
    have hrectangle := (exists_side_iff harea hw).mpr ⟨r, hr, hside⟩
    exact ((exists_rectangle_iff harea hw).mp hrectangle).2 hin
  · unfold sides
    simp only [List.pairwise_cons, List.mem_cons, List.not_mem_nil, or_false, forall_eq_or_imp,
      forall_eq, List.Pairwise.nil, and_true, IsEmpty.forall_iff, implies_true]
    refine ⟨⟨?_, ?_, ?_⟩, ⟨?_, ?_⟩, ?_⟩ <;>
    · refine hdisjoint fun x y h h' => ?_
      simp only [mem_leftOf harea, mem_rightOf harea hw, mem_above harea, mem_below harea hw]
        at h h'
      omega

end Bounds

end Sides

/-! ## `_fb_get_rectangles` -/

/-- **The rectangles partition the window**, together with the area. -/
theorem fb_get_rectangles_partition {w area : FbWindow} (hw : w.Bounded) (harea : area.Within w) :
    (area :: fbGetRectangles w (some area)).Pairwise
        (fun r r' => Disjoint r.points r'.points) ∧
      (area.points ∪ ⋃ r ∈ fbGetRectangles w (some area), r.points) = w.points ∧
      (fbGetRectangles w (some area)).length ≤ 4 := by
  have hsublist := fbGetRectangles_sublist w area
  refine ⟨?_, ?_, hsublist.length_le⟩
  · exact (FbWindow.pairwise_disjoint_sides harea hw).sublist (hsublist.cons_cons area)
  · ext ⟨x, y⟩
    have hrest := FbWindow.exists_rectangle_iff harea hw (x := x) (y := y)
    have hinside : (x, y) ∈ area.points → (x, y) ∈ w.points := by
      have ⟨hleft, hright, htop, hbottom⟩ := harea
      rw [FbWindow.mem_points, FbWindow.mem_points]
      omega
    simp only [Set.mem_union, Set.mem_iUnion, exists_prop, hrest]
    tauto

/-- An area in the middle of a screen, with all four rectangles. -/
theorem fb_get_rectangles_partition_middle :
    (fbGetRectangles ⟨0, 0, 1280, 800⟩ (some ⟨400, 200, 250, 250⟩)).length = 4 ∧
      ((⟨400, 200, 250, 250⟩ : FbWindow).points ∪
        ⋃ r ∈ fbGetRectangles ⟨0, 0, 1280, 800⟩ (some ⟨400, 200, 250, 250⟩), r.points) =
        (⟨0, 0, 1280, 800⟩ : FbWindow).points := by
  have hw : (⟨0, 0, 1280, 800⟩ : FbWindow).Bounded := ⟨by decide, by decide⟩
  have harea : (⟨400, 200, 250, 250⟩ : FbWindow).Within ⟨0, 0, 1280, 800⟩ :=
    ⟨by decide, by decide, by decide, by decide⟩
  exact ⟨by decide, (fb_get_rectangles_partition hw harea).2.1⟩

/-! ## `_fb_intersect_window` -/

/-- The point is on the column right of an area or on the row below it, not further than their
corner. -/
def FbWindow.OnFarEdge (area : FbWindow) (x y : Nat) : Prop :=
  (x = area.xOrig.toNat + area.width.toNat ∧
      area.yOrig.toNat ≤ y ∧ y ≤ area.yOrig.toNat + area.height.toNat) ∨
    y = area.yOrig.toNat + area.height.toNat ∧
      area.xOrig.toNat ≤ x ∧ x ≤ area.xOrig.toNat + area.width.toNat

/-- The comparisons of `_fb_intersect_window` include the far ends of both ranges. -/
theorem fbIntersectWindow_eq_true {area : FbWindow} {x y : UInt32} (harea : area.Bounded) :
    fbIntersectWindow x y (some area) = true ↔
      (area.xOrig.toNat ≤ x.toNat ∧ x.toNat ≤ area.xOrig.toNat + area.width.toNat) ∧
        area.yOrig.toNat ≤ y.toNat ∧ y.toNat ≤ area.yOrig.toNat + area.height.toNat := by
  have hright := FbWindow.toNat_right (FbWindow.Within.refl area) harea
  have hbottom := FbWindow.toNat_bottom (FbWindow.Within.refl area) harea
  unfold fbIntersectWindow
  simp only [gt_iff_lt, UInt32.lt_iff_toNat_lt, hright, hbottom]
  split_ifs <;> simp <;> omega

/-- **When the two functions agree on a point** of the window. -/
theorem fb_intersect_window_iff {w area : FbWindow} {x y : UInt32} (hw : w.Bounded)
    (harea : area.Within w) (hpoint : (x.toNat, y.toNat) ∈ w.points) :
    (fbIntersectWindow x y (some area) = true ↔
        ∀ r ∈ fbGetRectangles w (some area), (x.toNat, y.toNat) ∉ r.points) ↔
      ¬ area.OnFarEdge x.toNat y.toNat := by
  have hbounded : area.Bounded := ⟨Nat.lt_of_le_of_lt harea.right hw.column,
    Nat.lt_of_le_of_lt harea.bottom hw.row⟩
  have hnone : (∀ r ∈ fbGetRectangles w (some area), (x.toNat, y.toNat) ∉ r.points) ↔
      (x.toNat, y.toNat) ∈ area.points := by
    have hrest := FbWindow.exists_rectangle_iff harea hw (x := x.toNat) (y := y.toNat)
    rw [← not_iff_not]
    push Not
    rw [hrest]
    exact and_iff_right hpoint
  rw [hnone, fbIntersectWindow_eq_true hbounded, FbWindow.mem_points]
  unfold FbWindow.OnFarEdge
  omega

/-- The upper left corner of an area. -/
theorem fb_intersect_window_corner :
    ¬ (⟨0, 0, 250, 250⟩ : FbWindow).OnFarEdge 0 0 ∧
      (fbIntersectWindow 0 0 (some ⟨0, 0, 250, 250⟩) = true ↔
        ∀ r ∈ fbGetRectangles ⟨0, 0, 1280, 800⟩ (some ⟨0, 0, 250, 250⟩),
          ((0 : UInt32).toNat, (0 : UInt32).toNat) ∉ r.points) := by
  have hedge : ¬ (⟨0, 0, 250, 250⟩ : FbWindow).OnFarEdge 0 0 := by
    unfold FbWindow.OnFarEdge
    decide
  refine ⟨hedge, (fb_intersect_window_iff ⟨by decide, by decide⟩
    ⟨by decide, by decide, by decide, by decide⟩ ?_).mpr hedge⟩
  rw [FbWindow.mem_points]
  decide

/-- A pixel that is in the area for one function and in a rectangle beside it for the other. -/
theorem fb_intersect_window_far_column :
    (⟨0, 0, 1280, 800⟩ : FbWindow).Bounded ∧
      (⟨0, 0, 250, 250⟩ : FbWindow).Within ⟨0, 0, 1280, 800⟩ ∧
      (250, 0) ∈ (⟨0, 0, 1280, 800⟩ : FbWindow).points ∧
      fbIntersectWindow 250 0 (some ⟨0, 0, 250, 250⟩) = true ∧
      ∃ r ∈ fbGetRectangles ⟨0, 0, 1280, 800⟩ (some ⟨0, 0, 250, 250⟩), (250, 0) ∈ r.points := by
  refine ⟨⟨by decide, by decide⟩, ⟨by decide, by decide, by decide, by decide⟩, ?_, by decide,
    ⟨250, 0, 1030, 800⟩, by decide, ?_⟩
  · rw [FbWindow.mem_points]
    decide
  · rw [FbWindow.mem_points]
    decide

end Dreamos64
