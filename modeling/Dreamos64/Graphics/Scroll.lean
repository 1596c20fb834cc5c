import Dreamos64.Lib.InPlace
import Dreamos64.Graphics.Rectangles

/-!
# Dreamos64 — what a scroll does to the screen

`_fb_scroll` moves pixels within the framebuffer, row by row from the top, and clears each one
after it was read. A screen is large enough for its pixels (`Screen`), so that no two of them
share a byte; then the loops are moves in the sense of `Lib.InPlace`.

* `fb_scroll_window`     — a scroll without a pinned area, pixel by pixel;
* `fb_scroll_pinned_iff` — when a scroll around a pinned area stays inside of the window and
  leaves the area alone.
-/

namespace Dreamos64

open InPlace

/-! ## Pixels -/

section Pixels

variable {c c' : Console} {offset offset' : Nat} {color : UInt32}

theorem foldl_range_four (f : Nat → Nat) :
    (List.range 4).foldl (fun n i => n + f i) 0 = 0 + f 0 + f 1 + f 2 + f 3 := rfl

/-- A pixel is the number in its four bytes, the lowest first. -/
theorem loadPixel_eq (c : Console) (offset : Nat) : c.loadPixel offset =
    (0 + (c.memory (offset + 0)).toNat * 256 ^ 0 + (c.memory (offset + 1)).toNat * 256 ^ 1 +
      (c.memory (offset + 2)).toNat * 256 ^ 2 + (c.memory (offset + 3)).toNat * 256 ^ 3).toUInt32 :=
  congrArg Nat.toUInt32 (foldl_range_four fun i => (c.memory (offset + i)).toNat * 256 ^ i)

theorem loadPixel_storePixel_self (c : Console) (offset : Nat) (color : UInt32) :
    (c.storePixel offset color).loadPixel offset = color := by
  have hbyte (i : Nat) (hi : i < 4) : ((c.storePixel offset color).memory (offset + i)).toNat =
      color.toNat / 256 ^ i % 256 := by
    have hin : offset ≤ offset + i ∧ offset + i < offset + sizeofPixel := by
      unfold sizeofPixel
      omega
    have hpow : (2 : Nat) ^ (8 * i) = 256 ^ i := Nat.pow_mul 2 8 i
    show (if _ then _ else _ : UInt8).toNat = _
    rw [if_pos hin, Nat.add_sub_cancel_left, UInt32.toNat_toUInt8, UInt32.toNat_shiftRight,
      ← hpow, ← Nat.shiftRight_eq_div_pow]
    congr 2
    show 8 * i % 2 ^ 32 % 32 = 8 * i
    omega
  rw [loadPixel_eq, hbyte 0 (by decide), hbyte 1 (by decide), hbyte 2 (by decide),
    hbyte 3 (by decide)]
  have hlt := color.toNat_lt
  apply UInt32.toNat_inj.mp
  rw [UInt32.toNat_ofNat']
  omega

/-- Pixels that do not overlap keep their colors. -/
theorem loadPixel_storePixel_apart
    (hapart : offset + sizeofPixel ≤ offset' ∨ offset' + sizeofPixel ≤ offset) :
    (c.storePixel offset color).loadPixel offset' = c.loadPixel offset' := by
  have hbyte (i : Nat) (hi : i < 4) :
      (c.storePixel offset color).memory (offset' + i) = c.memory (offset' + i) := by
    refine if_neg ?_
    unfold sizeofPixel at hapart ⊢
    omega
  rw [loadPixel_eq, loadPixel_eq, hbyte 0 (by decide), hbyte 1 (by decide), hbyte 2 (by decide),
    hbyte 3 (by decide)]

end Pixels

/-! ## The pixels of a screen -/

section Screens

variable {fb : Framebuffer} {width : UInt32}

/-- A framebuffer with rows of `width` pixels: a row has room for them, and the offsets of all
pixels are of 32 bits. -/
structure Screen (fb : Framebuffer) (width : UInt32) : Prop where
  pitch  : width.toNat * sizeofPixel ≤ fb.pitch.toNat
  offset : ∀ x < width.toNat, ∀ y < fb.height.toNat,
    y * fb.pitch.toNat + x * sizeofPixel < 2 ^ 32

/-- The pixels of a framebuffer. -/
def screenPoints (fb : Framebuffer) (width : UInt32) : Set (Nat × Nat) :=
  Set.Iio width.toNat ×ˢ Set.Iio fb.height.toNat

/-- The window is inside of the framebuffer. -/
structure FbWindow.OnFramebuffer (w : FbWindow) (fb : Framebuffer) (width : UInt32) : Prop where
  column : w.xOrig.toNat + w.width.toNat ≤ width.toNat
  row    : w.yOrig.toNat + w.height.toNat ≤ fb.height.toNat

theorem FbWindow.OnFramebuffer.bounded {w : FbWindow} (h : w.OnFramebuffer fb width) :
    w.Bounded :=
  ⟨Nat.lt_of_le_of_lt h.column width.toNat_lt, Nat.lt_of_le_of_lt h.row fb.height.toNat_lt⟩

theorem FbWindow.OnFramebuffer.subset {w : FbWindow} (h : w.OnFramebuffer fb width) :
    w.points ⊆ screenPoints fb width := by
  rintro ⟨x, y⟩ hpoint
  obtain ⟨⟨-, hx⟩, -, hy⟩ := FbWindow.mem_points.mp hpoint
  exact ⟨Nat.lt_of_lt_of_le hx h.column, Nat.lt_of_lt_of_le hy h.row⟩

variable (hscreen : Screen fb width)

include hscreen

theorem pixelOffset_eq {x y : Nat} (hpoint : (x, y) ∈ screenPoints fb width) :
    pixelOffset fb x y = y * fb.pitch.toNat + x * sizeofPixel := by
  have hlt := hscreen.offset x hpoint.1 y hpoint.2
  unfold pixelOffset
  rw [Nat.mod_eq_of_lt (by omega), Nat.mod_eq_of_lt (by omega)]

/-- Two pixels do not share a byte. -/
theorem pixelOffset_apart {p q : Nat × Nat} (hp : p ∈ screenPoints fb width)
    (hq : q ∈ screenPoints fb width) (hne : q ≠ p) :
    pixelOffset fb p.1 p.2 + sizeofPixel ≤ pixelOffset fb q.1 q.2 ∨
      pixelOffset fb q.1 q.2 + sizeofPixel ≤ pixelOffset fb p.1 p.2 := by
  obtain ⟨x, y⟩ := p
  obtain ⟨x', y'⟩ := q
  have hx : x < width.toNat := hp.1
  have hx' : x' < width.toNat := hq.1
  have hpitch := hscreen.pitch
  have hrow {y y' : Nat} (hlt : y < y') : y * fb.pitch.toNat + fb.pitch.toNat ≤
      y' * fb.pitch.toNat := by
    rw [← Nat.succ_mul]
    exact Nat.mul_le_mul_right _ hlt
  rw [pixelOffset_eq hscreen hp, pixelOffset_eq hscreen hq]
  unfold sizeofPixel at *
  rcases Nat.lt_trichotomy y y' with hlt | rfl | hlt
  · have := hrow hlt
    omega
  · -- in one row the columns differ
    have hcolumn : x' ≠ x := fun heq => hne (by rw [heq])
    omega
  · have := hrow hlt
    omega

/-- The pixels of a screen as the cells of a store. -/
def pixelCells : Cells Console (Nat × Nat) UInt32 where
  get c p := fbGetPixel fb p.1 p.2 c
  put p color c := fbPutPixel fb p.1 p.2 color c
  valid := screenPoints fb width
  get_put := fun c p color q hp hq => by
    unfold fbGetPixel fbPutPixel
    by_cases heq : q = p
    · rw [if_pos heq, heq]
      exact loadPixel_storePixel_self c _ color
    · rw [if_neg heq]
      exact loadPixel_storePixel_apart (pixelOffset_apart hscreen hp hq heq)

end Screens

/-! ## The turns of a scroll -/

section Turns

variable {fb : Framebuffer} {lineHeight : Nat} {clearLastLine : Bool} {w r : FbWindow}
  {areaToPin : Option FbWindow} {x y : Nat}

/-- The pixel one line of text further down; rows are of type `uint32_t`. -/
def lineBelow (lineHeight : Nat) (p : Nat × Nat) : Nat × Nat := (p.1, (p.2 + lineHeight) % 2 ^ 32)

/-- The pixels of a rectangle that get a new color, in the order of the loops. -/
def rectangleTurns (lineHeight : Nat) (r : FbWindow) : List (Nat × Nat) :=
  (scrolledRows lineHeight r).flatMap fun y => (scrolledColumns r).map fun x => (x, y)

/-- The turns of all the rectangles of a scroll. -/
def scrollTurns (fb : Framebuffer) (w : FbWindow) (lineHeight : Nat)
    (areaToPin : Option FbWindow) : List (Nat × Nat) :=
  (scrolledRectangles fb w areaToPin).flatMap (rectangleTurns lineHeight)

theorem scrollRectangle_eq (c : Console) :
    scrollRectangle fb lineHeight clearLastLine c r =
      (rectangleTurns lineHeight r).foldl
        (fun c p => scrollPixel fb lineHeight clearLastLine p.2 c p.1) c := by
  unfold scrollRectangle rectangleTurns
  rw [List.foldl_flatMap]
  congr 1
  funext c y
  rw [List.foldl_map]

/-- A scroll is its turns, one after the other. -/
theorem fbScroll_eq (c : Console) :
    fbScroll fb w lineHeight areaToPin clearLastLine c =
      (scrollTurns fb w lineHeight areaToPin).foldl
        (fun c p => scrollPixel fb lineHeight clearLastLine p.2 c p.1) c := by
  unfold fbScroll scrollTurns
  rw [List.foldl_flatMap]
  congr 1
  funext c r
  exact scrollRectangle_eq c

theorem mem_rectangleTurns : (x, y) ∈ rectangleTurns lineHeight r ↔
    x ∈ scrolledColumns r ∧ y ∈ scrolledRows lineHeight r := by
  unfold rectangleTurns
  simp only [List.mem_flatMap, List.mem_map, Prod.mk.injEq]
  constructor
  · rintro ⟨y', hy', x', hx', rfl, rfl⟩
    exact ⟨hx', hy'⟩
  · rintro ⟨hx, hy⟩
    exact ⟨y, hy, x, hx, rfl, rfl⟩

/-- The columns of a rectangle are those of its pixels. -/
theorem mem_scrolledColumns (hr : r.Bounded) :
    x ∈ scrolledColumns r ↔ r.xOrig.toNat ≤ x ∧ x < r.xOrig.toNat + r.width.toNat := by
  have hcolumn := hr.column
  unfold scrolledColumns
  rw [List.mem_range'_1, Nat.mod_eq_of_lt hcolumn]
  omega

/-- If the bound of the rows does not wrap, they are those with a row `lineHeight` below in the
rectangle. -/
theorem mem_scrolledRows (hr : r.Bounded)
    (hline : lineHeight ≤ r.yOrig.toNat + r.height.toNat) :
    y ∈ scrolledRows lineHeight r ↔
      r.yOrig.toNat ≤ y ∧ y + lineHeight < r.yOrig.toNat + r.height.toNat := by
  have hrow := hr.row
  have hbound : (r.yOrig.toNat + r.height.toNat + 2 ^ 32 - lineHeight) % 2 ^ 32 =
      r.yOrig.toNat + r.height.toNat - lineHeight ∨ lineHeight = 0 := by omega
  unfold scrolledRows
  rw [List.mem_range'_1]
  omega

/-- Row by row, and in a row column by column. -/
theorem pairwise_rectangleTurns (lineHeight : Nat) (r : FbWindow) :
    (rectangleTurns lineHeight r).Pairwise fun p q => p.2 < q.2 ∨ p.2 = q.2 ∧ p.1 < q.1 := by
  unfold rectangleTurns
  refine List.pairwise_flatMap.mpr ⟨fun y _ => ?_, ?_⟩
  · rw [List.pairwise_map]
    exact (List.pairwise_lt_range' 1).imp fun hlt => Or.inr ⟨rfl, hlt⟩
  · refine (List.pairwise_lt_range' 1).imp fun {y y'} hlt p hp q hq => Or.inl ?_
    obtain ⟨x, -, rfl⟩ := List.mem_map.mp hp
    obtain ⟨x', -, rfl⟩ := List.mem_map.mp hq
    exact hlt

section Bound

variable (hr : r.Bounded) (hline : lineHeight ≤ r.yOrig.toNat + r.height.toNat)

include hr hline

/-- What a turn touches are pixels of the rectangle. -/
theorem rectangleTurns_inside {p : Nat × Nat} (hp : p ∈ rectangleTurns lineHeight r) :
    p ∈ r.points ∧ lineBelow lineHeight p = (p.1, p.2 + lineHeight) ∧
      lineBelow lineHeight p ∈ r.points := by
  obtain ⟨x, y⟩ := p
  obtain ⟨hx, hy⟩ := mem_rectangleTurns.mp hp
  rw [mem_scrolledColumns hr] at hx
  rw [mem_scrolledRows hr hline] at hy
  have hrow := hr.row
  have hbelow : lineBelow lineHeight (x, y) = (x, y + lineHeight) :=
    congrArg (Prod.mk x) (Nat.mod_eq_of_lt (by omega))
  rw [hbelow, FbWindow.mem_points, FbWindow.mem_points]
  exact ⟨⟨hx, hy.1, by omega⟩, rfl, hx, by omega, hy.2⟩

/-- From the top down, no pixel is read after it was written. -/
theorem rectangleTurns_ordered (hpos : 0 < lineHeight) :
    Ordered (lineBelow lineHeight) (rectangleTurns lineHeight r) := by
  constructor
  · intro p hp heq
    rw [(rectangleTurns_inside hr hline hp).2.1] at heq
    have hrow : p.2 + lineHeight = p.2 := congrArg Prod.snd heq
    omega
  · refine (pairwise_rectangleTurns lineHeight r).imp_of_mem fun {p q} hp hq hlt => ?_
    rw [(rectangleTurns_inside hr hline hp).2.1, (rectangleTurns_inside hr hline hq).2.1]
    simp only [ne_eq, Prod.ext_iff]
    omega

end Bound

end Turns

section Scroll

variable {fb : Framebuffer} {width : UInt32} {w : FbWindow} {lineHeight : Nat}
  {clearLastLine : Bool} {x y : Nat}

/-- A turn is a move of pixel cells. -/
theorem scrollPixel_eq_move (hscreen : Screen fb width) (c : Console) (p : Nat × Nat) :
    scrollPixel fb lineHeight clearLastLine p.2 c p.1 =
      (pixelCells hscreen).move (lineBelow lineHeight) 0 clearLastLine c p := rfl

/-- The scroll of a whole window, pixel by pixel. -/
theorem fbGetPixel_scrollRectangle (hscreen : Screen fb width) (hw : w.OnFramebuffer fb width)
    (hpos : 0 < lineHeight) (hline : lineHeight ≤ w.yOrig.toNat + w.height.toNat)
    (hpoint : (x, y) ∈ screenPoints fb width) (c : Console) :
    fbGetPixel fb x y (scrollRectangle fb lineHeight clearLastLine c w) =
      if (x, y) ∈ rectangleTurns lineHeight w then fbGetPixel fb x (y + lineHeight) c
      else if clearLastLine ∧ (x, y) ∈ (rectangleTurns lineHeight w).map (lineBelow lineHeight)
        then 0
      else fbGetPixel fb x y c := by
  have hinside {p : Nat × Nat} (hp : p ∈ rectangleTurns lineHeight w) :=
    rectangleTurns_inside hw.bounded hline hp
  have hmoves := (pixelCells hscreen).get_moves 0 clearLastLine c
    (fun p hp => ⟨hw.subset (hinside hp).1, hw.subset (hinside hp).2.2⟩)
    (rectangleTurns_ordered hw.bounded hline hpos) hpoint
  rw [scrollRectangle_eq]
  simp only [scrollPixel_eq_move hscreen]
  refine hmoves.trans ?_
  split_ifs with hturn
  · -- below a turn the row does not wrap
    rw [(hinside hturn).2.1]
    rfl
  · rfl
  · rfl

/-- What a scroll without a pinned area should do: the window moves up, the last line is empty,
and the rest stays. -/
structure Scrolled (fb : Framebuffer) (width : UInt32) (w : FbWindow) (lineHeight : Nat)
    (c c' : Console) : Prop where
  moved   : ∀ x y, (x, y) ∈ w.points → y + lineHeight < w.yOrig.toNat + w.height.toNat →
    fbGetPixel fb x y c' = fbGetPixel fb x (y + lineHeight) c
  cleared : ∀ x y, (x, y) ∈ w.points → w.yOrig.toNat + w.height.toNat ≤ y + lineHeight →
    fbGetPixel fb x y c' = 0
  outside : ∀ x y, (x, y) ∈ screenPoints fb width → (x, y) ∉ w.points →
    fbGetPixel fb x y c' = fbGetPixel fb x y c

/-- **A scroll without a pinned area** moves a window of at least two lines up by one. -/
theorem fb_scroll_window (fb : Framebuffer) (width : UInt32) (hscreen : Screen fb width)
    (w : FbWindow) (hw : w.OnFramebuffer fb width) (lineHeight : Nat) (hpos : 0 < lineHeight)
    (hline : 2 * lineHeight ≤ w.height.toNat) (c : Console) :
    Scrolled fb width w lineHeight c (fbScroll fb w lineHeight none true c) := by
  have hscroll : fbScroll fb w lineHeight none true c =
      scrollRectangle fb lineHeight true c w := by
    have hone : scrolledRectangles fb w none = [w] := if_pos (Or.inl rfl)
    unfold fbScroll
    rw [hone, List.foldl_cons, List.foldl_nil]
  have hle : lineHeight ≤ w.yOrig.toNat + w.height.toNat := by omega
  have hturn {x y : Nat} : (x, y) ∈ rectangleTurns lineHeight w ↔
      (w.xOrig.toNat ≤ x ∧ x < w.xOrig.toNat + w.width.toNat) ∧
        w.yOrig.toNat ≤ y ∧ y + lineHeight < w.yOrig.toNat + w.height.toNat := by
    rw [mem_rectangleTurns, mem_scrolledColumns hw.bounded, mem_scrolledRows hw.bounded hle]
  rw [hscroll]
  constructor
  case moved =>
    intro x y hpoint hlt
    have hmem := FbWindow.mem_points.mp hpoint
    rw [fbGetPixel_scrollRectangle hscreen hw hpos hle (hw.subset hpoint),
      if_pos (hturn.mpr ⟨hmem.1, hmem.2.1, hlt⟩)]
  case cleared =>
    intro x y hpoint hle'
    obtain ⟨hx, hy, hlt⟩ := FbWindow.mem_points.mp hpoint
    -- the window has two lines, so there is a turn one line above
    have habove : (x, y - lineHeight) ∈ rectangleTurns lineHeight w :=
      hturn.mpr ⟨hx, by omega, by omega⟩
    have hbelow : lineBelow lineHeight (x, y - lineHeight) = (x, y) := by
      rw [(rectangleTurns_inside hw.bounded hle habove).2.1]
      exact congrArg (Prod.mk x) (Nat.sub_add_cancel (by omega))
    rw [fbGetPixel_scrollRectangle hscreen hw hpos hle (hw.subset hpoint),
      if_neg fun h => absurd (hturn.mp h).2.2 (by omega),
      if_pos ⟨rfl, List.mem_map.mpr ⟨_, habove, hbelow⟩⟩]
  case outside =>
    intro x y hpoint hout
    rw [fbGetPixel_scrollRectangle hscreen hw hpos hle hpoint,
      if_neg fun h => hout (rectangleTurns_inside hw.bounded hle h).1, if_neg]
    rintro ⟨-, h⟩
    obtain ⟨p, hp, heq⟩ := List.mem_map.mp h
    exact hout (heq ▸ (rectangleTurns_inside hw.bounded hle hp).2.2)

end Scroll

/-- A screen of eight by four pixels. -/
theorem twoLines_screen : Screen twoLines 8 := by
  refine ⟨by decide, fun x hx y hy => ?_⟩
  have hx' : x < 8 := hx
  have hy' : y < 4 := hy
  show y * 32 + x * 4 < 2 ^ 32
  omega

theorem fb_scroll_window_twoLines :
    Scrolled twoLines 8 twoLines.mainWindow 2 blankConsole
      (fbScroll twoLines twoLines.mainWindow 2 none true blankConsole) :=
  fb_scroll_window twoLines 8 twoLines_screen twoLines.mainWindow ⟨by decide, by decide⟩ 2
    (by decide) (by decide) blankConsole

/-! ## Around a pinned area -/

section Pinned

/-- What a scroll around a pinned area should do: each turn reads the pixel one line below and
writes its own pixel and perhaps that one, so that both have to be in the main window; and the
area stays as it is, whatever is on the screen. -/
structure ScrollStays (fb : Framebuffer) (area : FbWindow) (lineHeight : Nat)
    (clearLastLine : Bool) : Prop where
  inside : ∀ p ∈ scrollTurns fb fb.mainWindow lineHeight (some area),
    p ∈ fb.mainWindow.points ∧ lineBelow lineHeight p ∈ fb.mainWindow.points
  pinned : ∀ c x y, (x, y) ∈ area.points →
    fbGetPixel fb x y (fbScroll fb fb.mainWindow lineHeight (some area) clearLastLine c) =
      fbGetPixel fb x y c

/-- There is no strip above the area whose end is less than a line from the top of the screen,
and the area leaves something of the window to scroll. -/
structure ScrollsAround (w area : FbWindow) (lineHeight : Nat) : Prop where
  strip : w.yOrig.toNat < area.yOrig.toNat → 0 < area.width.toNat → lineHeight ≤ area.yOrig.toNat
  part  : area = w → w.width.toNat = 0 ∨ lineHeight = w.height.toNat

variable {fb : Framebuffer} {width : UInt32} {area : FbWindow} {lineHeight : Nat}
  {clearLastLine : Bool}

theorem FbWindow.eq_of_toNat {w w' : FbWindow} (hx : w.xOrig.toNat = w'.xOrig.toNat)
    (hy : w.yOrig.toNat = w'.yOrig.toNat) (hwidth : w.width.toNat = w'.width.toNat)
    (hheight : w.height.toNat = w'.height.toNat) : w = w' := by
  cases w
  cases w'
  simp only [FbWindow.mk.injEq]
  exact ⟨UInt32.toNat_inj.mp hx, UInt32.toNat_inj.mp hy, UInt32.toNat_inj.mp hwidth,
    UInt32.toNat_inj.mp hheight⟩

/-- No rectangles are left only by an area that is the whole window. -/
theorem fbGetRectangles_eq_nil {w : FbWindow} (hw : w.Bounded) (harea : area.Within w) :
    fbGetRectangles w (some area) = [] ↔ area = w := by
  have ⟨hleft, hright, htop, hbottom⟩ := harea
  have hmem := fun r => FbWindow.mem_fbGetRectangles harea hw (r := r)
  rw [List.eq_nil_iff_forall_not_mem]
  simp only [hmem]
  constructor
  · intro hnone
    have hx := Nat.not_lt.mp fun h => hnone (w.leftOf area) (Or.inl ⟨h, rfl⟩)
    have hx' := Nat.not_lt.mp fun h => hnone (w.rightOf area) (Or.inr (Or.inl ⟨h, rfl⟩))
    have hy := Nat.not_lt.mp fun h => hnone (w.above area) (Or.inr (Or.inr (Or.inl ⟨h, rfl⟩)))
    have hy' := Nat.not_lt.mp fun h => hnone (w.below area) (Or.inr (Or.inr (Or.inr ⟨h, rfl⟩)))
    exact FbWindow.eq_of_toNat (by omega) (by omega) (by omega) (by omega)
  · rintro rfl r
    omega

theorem scrolledRectangles_some (harea : fbGetRectangles fb.mainWindow (some area) ≠ []) :
    scrolledRectangles fb fb.mainWindow (some area) =
      fbGetRectangles fb.mainWindow (some area) := by
  refine if_neg ?_
  rintro (hnone | hnil)
  · cases hnone
  · exact harea (List.length_eq_zero_iff.mp hnil)

theorem scrolledRectangles_whole (harea : fbGetRectangles fb.mainWindow (some area) = []) :
    scrolledRectangles fb fb.mainWindow (some area) = [fb.mainWindow] :=
  if_pos (Or.inr (List.length_eq_zero_iff.mpr harea))

section Main

variable (hmain : fb.mainWindow.OnFramebuffer fb width) (harea : area.Within fb.mainWindow)

include hmain harea

/-- Only the bound of the rows above the area can wrap, and then there must be no columns. -/
theorem rectangleTurns_side {r : FbWindow} {p : Nat × Nat}
    (hline : lineHeight ≤ fb.mainWindow.height.toNat)
    (haround : ScrollsAround fb.mainWindow area lineHeight)
    (hr : r ∈ fbGetRectangles fb.mainWindow (some area)) (hp : p ∈ rectangleTurns lineHeight r) :
    p ∈ r.points ∧ lineBelow lineHeight p ∈ r.points := by
  have hw := hmain.bounded
  have ⟨hcolumn, hrow⟩ := hw
  have ⟨hleft, hright, htop, hbottom⟩ := harea
  have hinside (hx : r.xOrig.toNat + r.width.toNat < 2 ^ 32)
      (hy : r.yOrig.toNat + r.height.toNat < 2 ^ 32)
      (hend : lineHeight ≤ r.yOrig.toNat + r.height.toNat) :
      p ∈ r.points ∧ lineBelow lineHeight p ∈ r.points :=
    have hturn := rectangleTurns_inside ⟨hx, hy⟩ hend hp
    ⟨hturn.1, hturn.2.2⟩
  -- left and right of the area the rows are those of the window, which a line fits into
  rcases (FbWindow.mem_fbGetRectangles harea hw).mp hr with
    ⟨hlt, rfl⟩ | ⟨hlt, rfl⟩ | ⟨hlt, rfl⟩ | ⟨hlt, rfl⟩
  · have hx := FbWindow.leftOf_end harea
    exact hinside (by omega) hrow (Nat.le_trans hline (Nat.le_add_left _ _))
  · have hx := FbWindow.rightOf_end harea hw
    exact hinside (by omega) hrow (Nat.le_trans hline (Nat.le_add_left _ _))
  -- above it the end of the rows is the row where the area begins
  · have hx : area.xOrig.toNat + area.width.toNat < 2 ^ 32 := by omega
    have hy := FbWindow.above_end harea
    by_cases hwidth : area.width.toNat = 0
    · have hcolumns := (mem_rectangleTurns (x := p.1) (y := p.2)).mp hp
      have hnone : p.1 ∉ scrolledColumns (fb.mainWindow.above area) := by
        rw [mem_scrolledColumns (r := fb.mainWindow.above area) ⟨hx, by omega⟩]
        show ¬ (area.xOrig.toNat ≤ p.1 ∧ p.1 < area.xOrig.toNat + area.width.toNat)
        omega
      exact absurd hcolumns.1 hnone
    · have hstrip := haround.strip hlt (Nat.pos_of_ne_zero hwidth)
      exact hinside hx (by omega) (by omega)
  · have hx : area.xOrig.toNat + area.width.toNat < 2 ^ 32 := by omega
    have hy := FbWindow.below_end harea hw
    exact hinside hx (by omega) (by omega)

/-- Around the area the turns touch what is in the window and not in the area. -/
theorem scrollTurns_around {p : Nat × Nat} (hline : lineHeight ≤ fb.mainWindow.height.toNat)
    (haround : ScrollsAround fb.mainWindow area lineHeight)
    (hp : p ∈ scrollTurns fb fb.mainWindow lineHeight (some area)) :
    (p ∈ fb.mainWindow.points ∧ p ∉ area.points) ∧
      lineBelow lineHeight p ∈ fb.mainWindow.points ∧ lineBelow lineHeight p ∉ area.points := by
  have hw := hmain.bounded
  obtain ⟨r, hr, hturn⟩ := List.mem_flatMap.mp hp
  by_cases hwhole : fbGetRectangles fb.mainWindow (some area) = []
  · -- the whole window is pinned, and scrolled: there must be nothing to scroll
    rw [scrolledRectangles_whole hwhole] at hr
    obtain rfl := List.mem_singleton.mp hr
    have hsame := (fbGetRectangles_eq_nil hw harea).mp hwhole
    obtain ⟨hx, hy⟩ := (mem_rectangleTurns (x := p.1) (y := p.2)).mp hturn
    rw [mem_scrolledColumns hw] at hx
    rw [mem_scrolledRows hw (by omega)] at hy
    have hpart := haround.part hsame
    omega
  · rw [scrolledRectangles_some hwhole] at hr
    obtain ⟨hpoint, hbelow⟩ := rectangleTurns_side hmain harea hline haround hr hturn
    exact ⟨(FbWindow.exists_rectangle_iff harea hw).mp ⟨r, hr, hpoint⟩,
      (FbWindow.exists_rectangle_iff harea hw).mp ⟨r, hr, hbelow⟩⟩

/-- A strip that is too low for a line is scrolled to the last row that there is. -/
theorem scrollTurns_strip (lineHeight : Nat) (hline : lineHeight ≤ fb.mainWindow.height.toNat)
    (htop : fb.mainWindow.yOrig.toNat < area.yOrig.toNat) (hwidth : 0 < area.width.toNat)
    (hlow : area.yOrig.toNat < lineHeight) :
    ∃ p ∈ scrollTurns fb fb.mainWindow lineHeight (some area),
      lineBelow lineHeight p ∉ fb.mainWindow.points := by
  have hw := hmain.bounded
  have ⟨hcolumn, hrow⟩ := hw
  have hright := harea.right
  have hend := FbWindow.above_end harea
  have hmem : fb.mainWindow.above area ∈ fbGetRectangles fb.mainWindow (some area) :=
    (FbWindow.mem_fbGetRectangles harea hw).mpr (Or.inr (Or.inr (Or.inl ⟨htop, rfl⟩)))
  have hbounded : (fb.mainWindow.above area).Bounded := by
    refine ⟨?_, by omega⟩
    show area.xOrig.toNat + area.width.toNat < 2 ^ 32
    omega
  -- the row from which the last one is read
  refine ⟨(area.xOrig.toNat, 2 ^ 32 - 1 - lineHeight), ?_, ?_⟩
  · unfold scrollTurns
    rw [scrolledRectangles_some (List.ne_nil_of_mem hmem)]
    refine List.mem_flatMap.mpr ⟨_, hmem, mem_rectangleTurns.mpr ⟨?_, ?_⟩⟩
    · rw [mem_scrolledColumns hbounded]
      show area.xOrig.toNat ≤ area.xOrig.toNat ∧ _ < area.xOrig.toNat + area.width.toNat
      omega
    · unfold scrolledRows
      rw [List.mem_range'_1, hend]
      show fb.mainWindow.yOrig.toNat ≤ _ ∧ _ < fb.mainWindow.yOrig.toNat +
        (_ - fb.mainWindow.yOrig.toNat)
      omega
  · have hlast : lineBelow lineHeight (area.xOrig.toNat, 2 ^ 32 - 1 - lineHeight) =
        (area.xOrig.toNat, 2 ^ 32 - 1) := by
      unfold lineBelow
      dsimp only
      rw [Nat.sub_add_cancel (by omega), Nat.mod_eq_of_lt (by decide)]
    rw [hlast, FbWindow.mem_points]
    omega

/-- A window that is scrolled as a whole changes in its first pixel, for some screen. -/
theorem scroll_whole_changes (clearLastLine : Bool) (hscreen : Screen fb width)
    (hwhole : area = fb.mainWindow) (hpos : 0 < lineHeight) (hwidth : 0 < fb.mainWindow.width.toNat)
    (hline : lineHeight < fb.mainWindow.height.toNat) :
    ∃ c x y, (x, y) ∈ area.points ∧
      fbGetPixel fb x y (fbScroll fb fb.mainWindow lineHeight (some area) clearLastLine c) ≠
        fbGetPixel fb x y c := by
  have hw := hmain.bounded
  obtain ⟨x, hx⟩ : ∃ x, x = fb.mainWindow.xOrig.toNat := ⟨_, rfl⟩
  obtain ⟨y, hy⟩ : ∃ y, y = fb.mainWindow.yOrig.toNat := ⟨_, rfl⟩
  have hpoint : (x, y) ∈ fb.mainWindow.points := FbWindow.mem_points.mpr (by omega)
  have hbelow : (x, y + lineHeight) ∈ fb.mainWindow.points := FbWindow.mem_points.mpr (by omega)
  have hturn : (x, y) ∈ rectangleTurns lineHeight fb.mainWindow := by
    rw [mem_rectangleTurns, mem_scrolledColumns hw, mem_scrolledRows hw (by omega)]
    omega
  -- a color that is not that of the pixel one line below
  let color := fbGetPixel fb x (y + lineHeight) blankConsole + 1
  let c := fbPutPixel fb x y color blankConsole
  have hput := fun q =>
    (pixelCells hscreen).get_put blankConsole (x, y) color q (hmain.subset hpoint)
  have hfirst : fbGetPixel fb x y c = color := by
    refine (hput (x, y) (hmain.subset hpoint)).trans ?_
    rw [if_pos rfl]
  have hsecond : fbGetPixel fb x (y + lineHeight) c =
      fbGetPixel fb x (y + lineHeight) blankConsole := by
    refine (hput (x, y + lineHeight) (hmain.subset hbelow)).trans ?_
    have hne : (x, y + lineHeight) ≠ (x, y) := fun heq => by
      have hrow := congrArg Prod.snd heq
      dsimp only at hrow
      omega
    rw [if_neg hne]
    rfl
  have hscroll : fbScroll fb fb.mainWindow lineHeight (some area) clearLastLine c =
      scrollRectangle fb lineHeight clearLastLine c fb.mainWindow := by
    unfold fbScroll
    rw [scrolledRectangles_whole ((fbGetRectangles_eq_nil hw harea).mpr hwhole), List.foldl_cons,
      List.foldl_nil]
  refine ⟨c, x, y, hwhole ▸ hpoint, ?_⟩
  rw [hscroll, fbGetPixel_scrollRectangle hscreen hmain hpos (by omega) (hmain.subset hpoint),
    if_pos hturn, hsecond, hfirst]
  intro heq
  exact absurd (UInt32.left_eq_add.mp heq) (by decide)

end Main

/-- **When a scroll around a pinned area stays inside** of the main window and leaves the area
alone. -/
theorem fb_scroll_pinned_iff (fb : Framebuffer) (width : UInt32) (hscreen : Screen fb width)
    (hmain : fb.mainWindow.OnFramebuffer fb width) (area : FbWindow)
    (harea : area.Within fb.mainWindow) (lineHeight : Nat) (hpos : 1 ≤ lineHeight)
    (hline : lineHeight ≤ fb.mainWindow.height.toNat) (clearLastLine : Bool) :
    ScrollStays fb area lineHeight clearLastLine ↔
      ScrollsAround fb.mainWindow area lineHeight := by
  constructor
  · intro hstays
    constructor
    -- the strip above the area wraps, and a turn reads from behind the window
    · intro htop hwidth
      by_contra hlow
      obtain ⟨p, hp, hout⟩ := scrollTurns_strip hmain harea lineHeight hline htop hwidth (by omega)
      exact hout (hstays.inside p hp).2
    -- the area is scrolled as the whole window is
    · intro hwhole
      by_contra hpart
      rw [not_or] at hpart
      obtain ⟨c, x, y, hpoint, hne⟩ := scroll_whole_changes hmain harea clearLastLine
        hscreen hwhole hpos (by omega) (by omega)
      exact hne (hstays.pinned c x y hpoint)
  · intro haround
    have hturns {p : Nat × Nat} (hp : p ∈ scrollTurns fb fb.mainWindow lineHeight (some area)) :=
      scrollTurns_around hmain harea hline haround hp
    refine ⟨fun p hp => ⟨(hturns hp).1.1, (hturns hp).2.1⟩, fun c x y hpoint => ?_⟩
    have hinside : (x, y) ∈ fb.mainWindow.points := by
      have ⟨hleft, hright, htop, hbottom⟩ := harea
      rw [FbWindow.mem_points] at hpoint ⊢
      omega
    -- no turn reads or writes a pixel of the area, so the frame rule applies
    have hother : ∀ p ∈ scrollTurns fb fb.mainWindow lineHeight (some area),
        (x, y) ≠ p ∧ (x, y) ≠ lineBelow lineHeight p := by
      intro p hp
      refine ⟨fun heq => ?_, fun heq => ?_⟩
      · exact (hturns hp).1.2 (heq ▸ hpoint)
      · exact (hturns hp).2.2 (heq ▸ hpoint)
    have hframe := (pixelCells hscreen).get_moves_other 0 clearLastLine c
      (fun p hp => ⟨hmain.subset (hturns hp).1.1, hmain.subset (hturns hp).2.1⟩)
      (hmain.subset hinside) hother
    rw [fbScroll_eq]
    exact hframe

end Pinned

/-- A screen of 1280 by 800 pixels, with a font of 16 rows. -/
def wideScreen : Framebuffer where
  pitch := 5120
  height := 800
  numberOfLines := 50
  font := ⟨psfV1, 0, fun a => if a = 3 then 16 else 0⟩
  mainWindow := ⟨0, 0, 1280, 800⟩
  logoArea := none

theorem wideScreen_screen : Screen wideScreen 1280 := by
  refine ⟨by decide, fun x hx y hy => ?_⟩
  have hx' : x < 1280 := hx
  have hy' : y < 800 := hy
  show y * 5120 + x * 4 < 2 ^ 32
  omega

/-- A logo in the upper right corner. -/
theorem fb_scroll_pinned_corner : ScrollStays wideScreen ⟨1030, 0, 250, 250⟩ 16 true := by
  refine (fb_scroll_pinned_iff wideScreen 1280 wideScreen_screen ⟨by decide, by decide⟩
    ⟨1030, 0, 250, 250⟩ ⟨by decide, by decide, by decide, by decide⟩ 16 (by decide) (by decide)
    true).mpr ⟨fun htop => ?_, fun hwhole => ?_⟩
  · exact absurd htop (by decide)
  · exact absurd hwhole (by decide)

/-- An area that begins eight rows from the top: pixels far outside of the window are scrolled. -/
theorem fb_scroll_pinned_strip :
    Screen wideScreen 1280 ∧ wideScreen.mainWindow.OnFramebuffer wideScreen 1280 ∧
      (⟨0, 8, 250, 250⟩ : FbWindow).Within wideScreen.mainWindow ∧
      1 ≤ 16 ∧ 16 ≤ wideScreen.mainWindow.height.toNat ∧
      ¬ ScrollStays wideScreen ⟨0, 8, 250, 250⟩ 16 true := by
  have hmain : wideScreen.mainWindow.OnFramebuffer wideScreen 1280 := ⟨by decide, by decide⟩
  have harea : (⟨0, 8, 250, 250⟩ : FbWindow).Within wideScreen.mainWindow :=
    ⟨by decide, by decide, by decide, by decide⟩
  refine ⟨wideScreen_screen, hmain, harea, by decide, by decide, fun hstays => ?_⟩
  obtain ⟨p, hp, hout⟩ := scrollTurns_strip hmain harea 16 (by decide) (by decide)
    (by decide) (by decide)
  exact hout (hstays.inside p hp).2

end Dreamos64
