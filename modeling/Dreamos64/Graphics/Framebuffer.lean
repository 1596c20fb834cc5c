import Dreamos64.Libc.Numbers

/-!
# Dreamos64 — the framebuffer console

`psf.c`, `window.c`, and the text output and scrolling of
`framebuffer.c`. The screen is memory, addressed by the offset from
`framebuffer_data.address`; a pixel takes four bytes. The offsets of all pixels stored
are kept, the last one first.

The offset of a character is computed in 64 bits and then cut to 32, and nothing checks
it against the size of the screen. `_fb_printStrAt` stops at a NUL only, so that its
loop is told turn by turn (`printTurn`): a string without a NUL is printed for ever.
-/

namespace Dreamos64

open Machine

/-! ## `psf.c` -/

def psfV1 : UInt8 := 1
def psfV2 : UInt8 := 2

/-- The font that is linked into the kernel: its version, its address, and memory. -/
structure Psf where
  version : UInt8
  start   : Nat
  memory  : Nat → UInt8

/-- A `uint32_t` of the header. -/
def Psf.word (font : Psf) (offset : Nat) : Nat :=
  (List.range 4).foldl (fun n i => n + (font.memory (font.start + offset + i)).toNat * 256 ^ i) 0

/-- `_psf_get_width`. -/
def psfGetWidth (font : Psf) : Nat := if font.version = psfV1 then 8 else font.word 28

/-- `_psf_get_height`; the `charsize` of a version 1 font is its fourth byte. -/
def psfGetHeight (font : Psf) : Nat :=
  if font.version = psfV1 then (font.memory (font.start + 3)).toNat else font.word 24

/-- `_psf_get_glyph`: the address of a glyph. -/
def psfGetGlyph (font : Psf) (symbolnumber : UInt8) : Nat :=
  if font.version = psfV1 then
    font.start + 4 + symbolnumber.toNat * (font.memory (font.start + 3)).toNat
  else if font.version = psfV2 then
    font.start + font.word 8 + symbolnumber.toNat * font.word 20 % 2 ^ 32
  else 0

/-! ## `window.c` -/

/-- An `_fb_window_t`. -/
structure FbWindow where
  xOrig  : UInt32
  yOrig  : UInt32
  width  : UInt32
  height : UInt32
  deriving DecidableEq, Repr

/-- `_fb_intersect_window`; the sums are of type `uint32_t`. -/
def fbIntersectWindow (x y : UInt32) : Option FbWindow → Bool
  | none => false
  | some area =>
    if x > area.xOrig + area.width then false
    else if x < area.xOrig then false
    else if y > area.yOrig + area.height then false
    else if y < area.yOrig then false
    else true

/-- `_fb_get_rectangles`: what surrounds an area in a window. -/
def fbGetRectangles (mainWindow : FbWindow) : Option FbWindow → List FbWindow
  | none => []
  | some area =>
    -- left of the area and right of it, in full height, then above and below it
    (if mainWindow.xOrig < area.xOrig then
      [⟨mainWindow.xOrig, mainWindow.yOrig, area.xOrig - mainWindow.xOrig, mainWindow.height⟩]
    else []) ++
    (if area.xOrig + area.width < mainWindow.xOrig + mainWindow.width then
      [⟨area.xOrig + area.width, mainWindow.yOrig,
        (mainWindow.xOrig + mainWindow.width) - (area.xOrig + area.width), mainWindow.height⟩]
    else []) ++
    (if mainWindow.yOrig < area.yOrig then
      [⟨area.xOrig, mainWindow.yOrig, area.width, area.yOrig - mainWindow.yOrig⟩]
    else []) ++
    (if area.yOrig + area.height < mainWindow.yOrig + mainWindow.height then
      [⟨area.xOrig, area.yOrig + area.height, area.width,
        (mainWindow.yOrig + mainWindow.height) - (area.yOrig + area.height)⟩]
    else [])

/-! ## `framebuffer.c` -/

/-- What is set up once: `framebuffer_data`, the font, `framebuffer_main_window` and
the area behind `logo_area_ptr`. -/
structure Framebuffer where
  pitch         : UInt32
  height        : UInt32
  numberOfLines : UInt32
  font          : Psf
  mainWindow    : FbWindow
  logoArea      : Option FbWindow

/-- The cursor (two `size_t`), the screen, and the offsets of the pixels stored. -/
structure Console where
  curFbLine   : Nat
  curFbColumn : Nat
  memory      : Nat → UInt8
  stores      : List Nat

/-- `sizeof(PIXEL)`. -/
def sizeofPixel : Nat := 4

/-- `*((PIXEL*) (framebuffer + offset)) = color`. -/
def Console.storePixel (c : Console) (offset : Nat) (color : UInt32) : Console :=
  { c with
    memory := fun a =>
      if offset ≤ a ∧ a < offset + sizeofPixel then
        (color >>> (8 * (a - offset)).toUInt32).toUInt8
      else c.memory a
    stores := offset :: c.stores }

def Console.loadPixel (c : Console) (offset : Nat) : UInt32 :=
  ((List.range sizeofPixel).foldl (fun n i => n + (c.memory (offset + i)).toNat * 256 ^ i)
    0).toUInt32

section Drawing

variable (fb : Framebuffer)

/-- The offset of a pixel; the two products are of type `uint32_t`. -/
def pixelOffset (x y : Nat) : Nat :=
  y * fb.pitch.toNat % 2 ^ 32 + x * sizeofPixel % 2 ^ 32

/-- `_fb_put_pixel`. -/
def fbPutPixel (x y : Nat) (color : UInt32) (c : Console) : Console :=
  c.storePixel (pixelOffset fb x y) color

/-- `_fb_get_pixel`. -/
def fbGetPixel (x y : Nat) (c : Console) : UInt32 := c.loadPixel (pixelOffset fb x y)

/-- One pixel of `_fb_scroll`. -/
def scrollPixel (lineHeight : Nat) (clearLastLine : Bool) (y : Nat) (c : Console) (x : Nat) :
    Console :=
  let below := (y + lineHeight) % 2 ^ 32
  -- the pixel one line of text further down
  let c := fbPutPixel fb x y (fbGetPixel fb x below c) c
  if clearLastLine then fbPutPixel fb x below 0 c else c

/-- The rows of a rectangle that `cur_y` runs over, and the columns of `cur_x`; the bounds
of the loops are of type `uint32_t`. -/
def scrolledRows (lineHeight : Nat) (r : FbWindow) : List Nat :=
  List.range' r.yOrig.toNat
    ((r.yOrig.toNat + r.height.toNat + 2 ^ 32 - lineHeight) % 2 ^ 32 - r.yOrig.toNat)

@[inherit_doc scrolledRows]
def scrolledColumns (r : FbWindow) : List Nat :=
  List.range' r.xOrig.toNat ((r.xOrig.toNat + r.width.toNat) % 2 ^ 32 - r.xOrig.toNat)

/-- The loops of `_fb_scroll` over one rectangle. -/
def scrollRectangle (lineHeight : Nat) (clearLastLine : Bool) (c : Console) (r : FbWindow) :
    Console :=
  (scrolledRows lineHeight r).foldl (fun c y =>
    (scrolledColumns r).foldl (scrollPixel fb lineHeight clearLastLine y) c) c

/-- The rectangles that `_fb_scroll` works on. -/
def scrolledRectangles (scrollingWindow : FbWindow) (areaToPin : Option FbWindow) :
    List FbWindow :=
  if areaToPin.isNone ∨ (fbGetRectangles fb.mainWindow areaToPin).length = 0 then
    [scrollingWindow]
  else fbGetRectangles fb.mainWindow areaToPin

/-- `_fb_scroll`. -/
def fbScroll (scrollingWindow : FbWindow) (lineHeight : Nat) (areaToPin : Option FbWindow)
    (clearLastLine : Bool) (c : Console) : Console :=
  (scrolledRectangles fb scrollingWindow areaToPin).foldl
    (scrollRectangle fb lineHeight clearLastLine) c

/-- The call of `_fb_scroll` that all text output makes. -/
def scrollLine (c : Console) : Console :=
  fbScroll fb fb.mainWindow (psfGetHeight fb.font) fb.logoArea true c

/-- `line`, when pixel `(x, y)` of the character at `(cx, cy)` is drawn: `offset` is a
`size_t`, `line` is not. -/
def cellOffset (cx cy x y : Nat) : Nat :=
  let offset := (cy * psfGetHeight fb.font * fb.pitch.toNat +
    cx * psfGetWidth fb.font * sizeofPixel + y * fb.pitch.toNat) % 2 ^ 64
  (offset % 2 ^ 32 + x * sizeofPixel) % 2 ^ 32

/-- The four bytes of a pixel lie on the screen. -/
def PixelInside (offset : Nat) : Prop := offset + sizeofPixel ≤ fb.pitch.toNat * fb.height.toNat

/-- The character at `(cx, cy)` is drawn on the screen. -/
def CellInside (cx cy : Nat) : Prop :=
  ∀ y < psfGetHeight fb.font, ∀ x < psfGetWidth fb.font, PixelInside fb (cellOffset fb cx cy x y)

instance (offset : Nat) : Decidable (PixelInside fb offset) :=
  inferInstanceAs (Decidable (_ ≤ _))

instance (cx cy : Nat) : Decidable (CellInside fb cx cy) :=
  inferInstanceAs (Decidable (∀ y < _, ∀ x < _, PixelInside fb _))

/-- Whether pixel `(x, y)` of a glyph is set. -/
def glyphBit (symbol : UInt8) (x y : Nat) : Bool :=
  let bytesperline := (psfGetWidth fb.font + 7) / 8
  (fb.font.memory (psfGetGlyph fb.font symbol + y * bytesperline + x / 8)).toNat.testBit (7 - x % 8)

/-- `_fb_putcharAt`. -/
def fbPutcharAt (symbol : UInt8) (cx cy : Nat) (fg bg : UInt32) (c : Console) : Console :=
  (List.range (psfGetHeight fb.font)).foldl (fun c y =>
    (List.range (psfGetWidth fb.font)).foldl (fun c x =>
      c.storePixel (cellOffset fb cx cy x y) (if glyphBit fb symbol x y then fg else bg)) c) c

/-- `_fb_putchar`: a newline does not look at the number of lines. -/
def fbPutchar (symbol : UInt8) (fg bg : UInt32) (c : Console) : Console :=
  if symbol = 10 then { c with curFbLine := (c.curFbLine + 1) % 2 ^ 64, curFbColumn := 0 }
  else
    let c := fbPutcharAt fb symbol c.curFbColumn c.curFbLine fg bg c
    { c with curFbColumn := (c.curFbColumn + 1) % 2 ^ 64 }

/-- `_fb_increaseLine`. -/
def fbIncreaseLine (c : Console) : Console :=
  let c := { c with curFbLine := (c.curFbLine + 1) % 2 ^ 64 }
  if c.curFbLine ≥ fb.numberOfLines.toNat then
    -- the last line again, now empty
    let c := scrollLine fb c
    { c with curFbLine := (c.curFbLine + 2 ^ 64 - 1) % 2 ^ 64 }
  else c

/-- `_fb_printStrAt` is on the last line, or past it. -/
def LastLine (cy : Nat) : Prop := (cy + 1) % 2 ^ 64 ≥ fb.numberOfLines.toNat

instance (cy : Nat) : Decidable (LastLine fb cy) :=
  inferInstanceAs (Decidable ((cy + 1) % 2 ^ 64 ≥ fb.numberOfLines.toNat))

/-- Where the loop of `_fb_printStrAt` is. -/
structure Printing where
  index   : Nat
  cx      : Nat
  cy      : Nat
  console : Console

/-- What a character of the string does. -/
def printSymbol (fg bg : UInt32) (symbol : UInt8) (p : Printing) : Printing :=
  if symbol = 10 then
    -- a newline is the only symbol that writes the cursor's line
    let c := { p.console with curFbLine := p.cy }
    if LastLine fb p.cy then
      { p with cx := 0, console := scrollLine fb c }
    else
      let cy := (p.cy + 1) % 2 ^ 64
      { p with cx := 0, cy := cy, console := { c with curFbLine := cy } }
  else if symbol = 9 then
    -- a tab is four blanks
    let c := (List.range 4).foldl (fun c i =>
      fbPutcharAt fb 32 ((p.cx + i) % 2 ^ 64) p.cy fg bg c) p.console
    { p with cx := (p.cx + 4) % 2 ^ 64, console := c }
  else
    { p with
      cx := (p.cx + 1) % 2 ^ 64
      console := fbPutcharAt fb symbol p.cx p.cy fg bg p.console }

/-- One turn of the loop of `_fb_printStrAt`. -/
def printTurn (fg bg : UInt32) (string : CharPtr) (p : Printing) : LoopStep Printing Printing :=
  if string p.index = 0 then .done p
  else .next { printSymbol fb fg bg (string p.index) p with index := p.index + 1 }

/-- The first turns of `_fb_printStrAt`. -/
def printTurns (fg bg : UInt32) (string : CharPtr) (n cx cy : Nat) (c : Console) :
    LoopStep Printing Printing :=
  turns (printTurn fb fg bg string) n ⟨0, cx, cy, c⟩

/-- The loop's state, running or not. -/
def LoopStep.last {σ : Type} : LoopStep σ σ → σ
  | .next s => s
  | .done s => s

/-- `_fb_printStrAt`, for a string that ends. -/
def fbPrintStrAt (string : CString) (cx cy : Nat) (fg bg : UInt32) (c : Console) : Console :=
  (LoopStep.last (printTurns fb fg bg string.bytes (string.size + 1) cx cy c)).console

/-- `_fb_printStr`; the column is set before the line is looked at. -/
def fbPrintStr (string : CString) (fg bg : UInt32) (c : Console) : Console :=
  let c := fbPrintStrAt fb string 0 c.curFbLine fg bg c
  fbIncreaseLine fb { c with curFbColumn := 0 }

/-- `_fb_printStrAndNumberAt`, with the contents of its buffer before. -/
def fbPrintStrAndNumberAt (buffer : CharPtr) (string : CString) (number : UInt64) (cx cy : Nat)
    (fg bg : UInt32) (c : Console) : Console :=
  let digits := hexString buffer number true
  let c := fbPrintStrAt fb string cx cy fg bg c
  fbPrintStrAt fb digits ((cx + string.strlen) % 2 ^ 64) cy fg bg c

/-- `_fb_printStrAndNumber`. -/
def fbPrintStrAndNumber (buffer : CharPtr) (string : CString) (number : UInt64) (fg bg : UInt32)
    (c : Console) : Console :=
  let c := fbPrintStrAndNumberAt fb buffer string number 0 c.curFbLine fg bg c
  fbIncreaseLine fb { c with curFbColumn := 0 }

end Drawing

/-! ## Drawing leaves the cursor alone -/

section CursorFrame

variable {fb : Framebuffer}

theorem foldl_curFbLine {ι : Type} {f : Console → ι → Console}
    (hf : ∀ c i, (f c i).curFbLine = c.curFbLine) (l : List ι) (c : Console) :
    (l.foldl f c).curFbLine = c.curFbLine := by
  induction l generalizing c with
  | nil => rfl
  | cons i l ih => rw [List.foldl_cons, ih, hf]

@[simp] theorem scrollLine_curFbLine (c : Console) :
    (scrollLine fb c).curFbLine = c.curFbLine := by
  refine foldl_curFbLine (fun c r => ?_) _ c
  refine foldl_curFbLine (fun c y => ?_) _ c
  refine foldl_curFbLine (fun c x => ?_) _ c
  rfl

@[simp] theorem fbPutcharAt_curFbLine (symbol : UInt8) (cx cy : Nat) (fg bg : UInt32)
    (c : Console) : (fbPutcharAt fb symbol cx cy fg bg c).curFbLine = c.curFbLine := by
  refine foldl_curFbLine (fun c y => ?_) _ c
  refine foldl_curFbLine (fun c x => ?_) _ c
  rfl

end CursorFrame

/-- A screen of two lines, with an 8 by 2 font at address 0. -/
def twoLines : Framebuffer where
  pitch := 32
  height := 4
  numberOfLines := 2
  font := ⟨psfV1, 0, fun a => if a = 3 then 2 else 0⟩
  mainWindow := ⟨0, 0, 8, 4⟩
  logoArea := none

def blankConsole : Console := ⟨0, 0, fun _ => 0, []⟩

end Dreamos64
