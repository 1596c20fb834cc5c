import Dreamos64.Graphics.Framebuffer
import Dreamos64.Sys.Syscalls
import Mathlib.Data.Nat.Find

/-!
# Dreamos64 — printing for the user

`sys_print`, and what it stores. The string, its length and the position come from
registers of the user and go to `_fb_printStr` or `_fb_printStrAt` as they are; the
length goes nowhere. The call is looked at while it runs, since the string may have no
end.

What a string draws is a list of characters' cells and scrolls (`drawings`), told from
the string, the position and the geometry of the screen alone.

* `turns_printed` — the pixels stored so far are those of the drawings so far.
* `sys_print_inside` — the call stays on the screen and within its buffer exactly if
  there is a NUL in the buffer and every drawing before it lies on the screen.
* `cell_inside`, `scroll_inside` — which drawings do.
-/

namespace Dreamos64

open Machine

/-! ## `sys_print.c` -/

section Print

variable (fb : Framebuffer)

/-- `sys_print`, as far as the first `n` turns of its loop take it: the console, and the
number of bytes of the buffer that were read. `nbytes` is not used. The string lies outside the
framebuffer, so that what is drawn does not change it. -/
def sysPrint (buffer : CharPtr) (_nbytes posX posY : Nat) (n : Nat) (c : Console) :
    Console × Nat :=
  -- `_fb_printStr` at the cursor, or `_fb_printStrAt`
  if posX = 0 ∧ posY = 0 then
    match printTurns fb 0x27F549 0x000000 buffer n 0 c.curFbLine c with
    | .next p => (p.console, p.index)
    | .done p => (fbIncreaseLine fb { p.console with curFbColumn := 0 }, p.index + 1)
  else
    match printTurns fb 0x27F549 0x000000 buffer n posX posY c with
    | .next p => (p.console, p.index)
    | .done p => (p.console, p.index + 1)

/-- The part of a system call that draws: `n` turns of printing, from no stores. -/
def printCall (memory : Nat → UInt8) (n : Nat) (c : Console) : Syscall → Console × Nat
  | .print buffer nbytes posX posY =>
    sysPrint fb (stringAt memory buffer) nbytes posX posY n { c with stores := [] }
  | _ => ({ c with stores := [] }, 0)

/-- However far it gets, the call stores pixels of the screen only and reads no more
than `nbytes` bytes. -/
structure PrintInside (memory : Nat → UInt8) (c : Console) (regs : SyscallRegs) : Prop where
  stores : ∀ n, ∀ offset ∈ (printCall fb memory n c (syscallDispatch regs)).1.stores,
    PixelInside fb offset
  reads  : ∀ n, (printCall fb memory n c (syscallDispatch regs)).2 ≤ regs.rdx

/-! ## What a string draws -/

inductive Drawing where
  | cell (cx cy : Nat)
  | scroll
  deriving DecidableEq, Repr

/-- The two pixels that the scroll of a pixel stores. -/
def PixelStores (x y offset : Nat) : Prop :=
  offset = pixelOffset fb x ((y + psfGetHeight fb.font) % 2 ^ 32) ∨ offset = pixelOffset fb x y

/-- The pixels that a scroll stores. -/
def ScrollStores (offset : Nat) : Prop :=
  ∃ r ∈ scrolledRectangles fb fb.mainWindow fb.logoArea,
    ∃ y ∈ scrolledRows (psfGetHeight fb.font) r, ∃ x ∈ scrolledColumns r,
      PixelStores fb x y offset

/-- The pixels that a drawing stores. -/
def Drawing.Stores : Drawing → Nat → Prop
  | .cell cx cy, offset =>
    ∃ y ∈ List.range (psfGetHeight fb.font), ∃ x ∈ List.range (psfGetWidth fb.font),
      offset = cellOffset fb cx cy x y
  | .scroll, offset => ScrollStores fb offset

def Drawing.Inside (d : Drawing) : Prop := ∀ offset, d.Stores fb offset → PixelInside fb offset

/-- What a character draws at a position. -/
def symbolDrawings (symbol : UInt8) (cx cy : Nat) : List Drawing :=
  if symbol = 10 then if LastLine fb cy then [.scroll] else []
  else if symbol = 9 then (List.range 4).map fun i => .cell ((cx + i) % 2 ^ 64) cy
  else [.cell cx cy]

/-- The position after a character. -/
def symbolEnd (symbol : UInt8) (cx cy : Nat) : Nat × Nat :=
  if symbol = 10 then (0, if LastLine fb cy then cy else (cy + 1) % 2 ^ 64)
  else if symbol = 9 then ((cx + 4) % 2 ^ 64, cy)
  else ((cx + 1) % 2 ^ 64, cy)

/-- What the `n` characters from `i` on draw, from a position on. -/
def drawings (string : CharPtr) : Nat → Nat → Nat × Nat → List Drawing
  | 0, _, _ => []
  | n + 1, i, (cx, cy) =>
    symbolDrawings fb (string i) cx cy ++
      drawings string n (i + 1) (symbolEnd fb (string i) cx cy)

/-- The position after those characters. -/
def drawingsEnd (string : CharPtr) : Nat → Nat → Nat × Nat → Nat × Nat
  | 0, _, pos => pos
  | n + 1, i, (cx, cy) => drawingsEnd string n (i + 1) (symbolEnd fb (string i) cx cy)

/-- Where the first character goes: position (0, 0) stands for the cursor's line. -/
def printStart (c : Console) (posX posY : Nat) : Nat × Nat :=
  if posX = 0 ∧ posY = 0 then (0, c.curFbLine) else (posX, posY)

/-- What the first `k` characters of a string draw, with the scroll after the last one
that `_fb_printStr` may add. -/
def printDrawings (c : Console) (string : CharPtr) (k posX posY : Nat) : List Drawing :=
  let start := printStart c posX posY
  drawings fb string k 0 start ++
    if posX = 0 ∧ posY = 0 ∧ LastLine fb (drawingsEnd fb string k 0 start).2 then [.scroll] else []

/-- The string ends at `k`. -/
def EndsAt (string : CharPtr) (k : Nat) : Prop := string k = 0 ∧ ∀ i < k, string i ≠ 0

variable {fb}

/-! ## Stores of drawings -/

theorem mem_stores_foldl {ι : Type} {f : Console → ι → Console} {P : ι → Nat → Prop}
    (hf : ∀ c i offset, offset ∈ (f c i).stores ↔ P i offset ∨ offset ∈ c.stores)
    (l : List ι) (c : Console) (offset : Nat) :
    offset ∈ (l.foldl f c).stores ↔ (∃ i ∈ l, P i offset) ∨ offset ∈ c.stores := by
  induction l generalizing c with
  | nil => simp
  | cons i l ih =>
    rw [List.foldl_cons, ih, hf, ← or_assoc]
    refine or_congr_left ?_
    simp only [List.mem_cons, or_and_right, exists_or, exists_eq_left]
    exact or_comm

theorem mem_stores_storePixel (c : Console) (offset' : Nat) (color : UInt32) (offset : Nat) :
    offset ∈ (c.storePixel offset' color).stores ↔ offset = offset' ∨ offset ∈ c.stores :=
  List.mem_cons

theorem mem_stores_putchar (symbol : UInt8) (cx cy : Nat) (fg bg : UInt32) (c : Console)
    (offset : Nat) :
    offset ∈ (fbPutcharAt fb symbol cx cy fg bg c).stores ↔
      (Drawing.cell cx cy).Stores fb offset ∨ offset ∈ c.stores := by
  unfold fbPutcharAt
  refine mem_stores_foldl (P := fun y offset => ∃ x ∈ List.range (psfGetWidth fb.font),
    offset = cellOffset fb cx cy x y) (fun c y offset => ?_) _ c offset
  exact mem_stores_foldl (P := fun x offset => offset = cellOffset fb cx cy x y)
    (fun c x offset => mem_stores_storePixel c _ _ offset) _ c offset

theorem mem_stores_scrollPixel (y : Nat) (c : Console) (x offset : Nat) :
    offset ∈ (scrollPixel fb (psfGetHeight fb.font) true y c x).stores ↔
      PixelStores fb x y offset ∨ offset ∈ c.stores := by
  unfold scrollPixel fbPutPixel PixelStores
  rw [if_pos rfl, mem_stores_storePixel, mem_stores_storePixel, or_assoc]

theorem mem_stores_scrollLine (c : Console) (offset : Nat) :
    offset ∈ (scrollLine fb c).stores ↔ Drawing.scroll.Stores fb offset ∨ offset ∈ c.stores := by
  unfold scrollLine fbScroll
  refine mem_stores_foldl (P := fun r offset => ∃ y ∈ scrolledRows (psfGetHeight fb.font) r,
    ∃ x ∈ scrolledColumns r, PixelStores fb x y offset) (fun c r offset => ?_) _ c offset
  unfold scrollRectangle
  refine mem_stores_foldl (P := fun y offset => ∃ x ∈ scrolledColumns r,
    PixelStores fb x y offset) (fun c y offset => ?_) _ c offset
  exact mem_stores_foldl (P := fun x offset => PixelStores fb x y offset)
    (fun c x offset => mem_stores_scrollPixel y c x offset) _ c offset

theorem mem_stores_printSymbol (fb : Framebuffer) (fg bg : UInt32) (symbol : UInt8) (p : Printing)
    (offset : Nat) :
    offset ∈ (printSymbol fb fg bg symbol p).console.stores ↔
      (∃ d ∈ symbolDrawings fb symbol p.cx p.cy, d.Stores fb offset) ∨
        offset ∈ p.console.stores := by
  unfold printSymbol symbolDrawings
  dsimp only
  by_cases hnewline : symbol = 10
  · rw [if_pos hnewline, if_pos hnewline]
    by_cases hlast : LastLine fb p.cy
    · rw [if_pos hlast, if_pos hlast, mem_stores_scrollLine]
      simp
    · rw [if_neg hlast, if_neg hlast]
      simp
  · rw [if_neg hnewline, if_neg hnewline]
    by_cases htab : symbol = 9
    · rw [if_pos htab, if_pos htab]
      dsimp only
      rw [mem_stores_foldl (P := fun i => (Drawing.cell ((p.cx + i) % 2 ^ 64) p.cy).Stores fb)
        fun c i offset => mem_stores_putchar 32 _ _ fg bg c offset]
      simp
    · rw [if_neg htab, if_neg htab]
      dsimp only
      rw [mem_stores_putchar]
      simp

theorem printSymbol_pos (fb : Framebuffer) (fg bg : UInt32) (symbol : UInt8) (p : Printing) :
    ((printSymbol fb fg bg symbol p).cx, (printSymbol fb fg bg symbol p).cy) =
      symbolEnd fb symbol p.cx p.cy := by
  unfold printSymbol symbolEnd
  dsimp only
  by_cases hnewline : symbol = 10
  · rw [if_pos hnewline, if_pos hnewline]
    by_cases hlast : LastLine fb p.cy
    · rw [if_pos hlast, if_pos hlast]
    · rw [if_neg hlast, if_neg hlast]
  · rw [if_neg hnewline, if_neg hnewline]
    by_cases htab : symbol = 9
    · rw [if_pos htab, if_pos htab]
    · rw [if_neg htab, if_neg htab]

theorem printSymbol_curFbLine (fb : Framebuffer) (fg bg : UInt32) (symbol : UInt8) (p : Printing)
    (h : p.console.curFbLine = p.cy) :
    (printSymbol fb fg bg symbol p).console.curFbLine = (printSymbol fb fg bg symbol p).cy := by
  unfold printSymbol
  dsimp only
  split
  · split
    · exact scrollLine_curFbLine _
    · rfl
  · split
    · exact (foldl_curFbLine (fun c i => fbPutcharAt_curFbLine _ _ _ _ _ c) _ _).trans h
    · exact (fbPutcharAt_curFbLine _ _ _ _ _ _).trans h

/-! ## The loop, turn by turn -/

/-- Where the loop is after the characters from `i` to `i + n`. -/
structure Printed (fb : Framebuffer) (string : CharPtr) (n : Nat) (p q : Printing) : Prop where
  index  : q.index = p.index + n
  pos    : (q.cx, q.cy) = drawingsEnd fb string n p.index (p.cx, p.cy)
  line   : p.console.curFbLine = p.cy → q.console.curFbLine = q.cy
  stores : ∀ offset, offset ∈ q.console.stores ↔
    (∃ d ∈ drawings fb string n p.index (p.cx, p.cy), d.Stores fb offset) ∨
      offset ∈ p.console.stores

theorem turns_printed (fb : Framebuffer) {string : CharPtr} (fg bg : UInt32) (n : Nat)
    (p : Printing)
    (hne : ∀ i, p.index ≤ i → i < p.index + n → string i ≠ 0) :
    ∃ q, turns (printTurn fb fg bg string) n p = .next q ∧ Printed fb string n p q := by
  -- the first turn, then the others from where it left the position
  induction n generalizing p with
  | zero => exact ⟨p, rfl, rfl, rfl, id, fun offset => by simp [drawings]⟩
  | succ n ih =>
    have hturn : printTurn fb fg bg string p =
        .next { printSymbol fb fg bg (string p.index) p with index := p.index + 1 } :=
      if_neg (hne p.index (Nat.le_refl _) (by omega))
    have hpos := printSymbol_pos fb fg bg (string p.index) p
    have hline := printSymbol_curFbLine fb fg bg (string p.index) p
    have hstores := mem_stores_printSymbol fb fg bg (string p.index) p
    generalize printSymbol fb fg bg (string p.index) p = r at hturn hpos hline hstores
    obtain ⟨q, hq, hprinted⟩ := ih { r with index := p.index + 1 } fun i hle hlt =>
      hne i (by dsimp only at hle; omega) (by dsimp only at hlt; omega)
    refine ⟨q, by rw [turns_next hturn, hq], ?_, ?_, fun h => hprinted.line (hline h),
      fun offset => ?_⟩
    · rw [hprinted.index]
      dsimp only
      omega
    · rw [hprinted.pos, drawingsEnd, ← hpos]
    · rw [hprinted.stores, hstores, drawings, ← hpos, ← or_assoc]
      refine or_congr_left ?_
      simp only [List.mem_append, or_and_right, exists_or]
      exact or_comm

/-- A call that has not met a NUL has drawn what its characters draw. -/
theorem sysPrint_running (fb : Framebuffer) {string : CharPtr} {n : Nat}
    (nbytes posX posY : Nat) (c : Console)
    (hne : ∀ i < n, string i ≠ 0) :
    (sysPrint fb string nbytes posX posY n c).2 = n ∧
      ∀ offset, offset ∈ (sysPrint fb string nbytes posX posY n c).1.stores ↔
        (∃ d ∈ drawings fb string n 0 (printStart c posX posY), d.Stores fb offset) ∨
          offset ∈ c.stores := by
  unfold sysPrint printTurns printStart
  by_cases horigin : posX = 0 ∧ posY = 0
  · obtain ⟨q, hq, hprinted⟩ := turns_printed fb 0x27F549 0x000000 n
      ⟨0, 0, c.curFbLine, c⟩ fun i _ hlt => hne i (by dsimp only at hlt; omega)
    rw [if_pos horigin, if_pos horigin, hq]
    exact ⟨hprinted.index.trans (Nat.zero_add n), hprinted.stores⟩
  · obtain ⟨q, hq, hprinted⟩ := turns_printed fb 0x27F549 0x000000 n
      ⟨0, posX, posY, c⟩ fun i _ hlt => hne i (by dsimp only at hlt; omega)
    rw [if_neg horigin, if_neg horigin, hq]
    exact ⟨hprinted.index.trans (Nat.zero_add n), hprinted.stores⟩

theorem mem_stores_increaseLine (c : Console) (offset : Nat) :
    offset ∈ (fbIncreaseLine fb c).stores ↔
      (LastLine fb c.curFbLine ∧ Drawing.scroll.Stores fb offset) ∨ offset ∈ c.stores := by
  unfold fbIncreaseLine LastLine
  dsimp only
  by_cases hlast : (c.curFbLine + 1) % 2 ^ 64 ≥ fb.numberOfLines.toNat
  · rw [if_pos hlast]
    simp only [hlast, true_and]
    exact mem_stores_scrollLine _ offset
  · rw [if_neg hlast]
    simp only [hlast, false_and, false_or]

/-- A call that has met its NUL has drawn all of the string. -/
theorem sysPrint_ended (fb : Framebuffer) {string : CharPtr} {k n : Nat}
    (nbytes posX posY : Nat) (c : Console)
    (hend : EndsAt string k) (hlt : k < n) :
    (sysPrint fb string nbytes posX posY n c).2 = k + 1 ∧
      ∀ offset, offset ∈ (sysPrint fb string nbytes posX posY n c).1.stores ↔
        (∃ d ∈ printDrawings fb c string k posX posY, d.Stores fb offset) ∨
          offset ∈ c.stores := by
  obtain ⟨m, rfl⟩ : ∃ m, n = k + (m + 1) := ⟨n - k - 1, by omega⟩
  -- after `k` turns the next one leaves the loop
  have hdone : ∀ p : Printing, (∀ i, p.index ≤ i → i < p.index + k → string i ≠ 0) →
      p.index = 0 → ∃ q, turns (printTurn fb 0x27F549 0x000000 string) (k + (m + 1)) p = .done q ∧
        Printed fb string k p q := by
    intro p hne hzero
    obtain ⟨q, hq, hprinted⟩ := turns_printed fb 0x27F549 0x000000 k p hne
    have hleave : printTurn fb 0x27F549 0x000000 string q = .done q := by
      refine if_pos ?_
      rw [hprinted.index, hzero, Nat.zero_add]
      exact hend.1
    exact ⟨q, by rw [turns_add hq, turns_done hleave], hprinted⟩
  unfold sysPrint printTurns printDrawings printStart
  by_cases horigin : posX = 0 ∧ posY = 0
  · obtain ⟨q, hq, hprinted⟩ := hdone ⟨0, 0, c.curFbLine, c⟩
      (fun i _ hlt => hend.2 i (by dsimp only at hlt; omega)) rfl
    have hline := hprinted.line rfl
    have hcy : q.cy = (drawingsEnd fb string k 0 (0, c.curFbLine)).2 :=
      congrArg Prod.snd hprinted.pos
    rw [if_pos horigin, if_pos horigin, hq]
    refine ⟨congrArg (· + 1) (hprinted.index.trans (Nat.zero_add k)), fun offset => ?_⟩
    dsimp only
    rw [mem_stores_increaseLine, hprinted.stores]
    dsimp only
    rw [hline, hcy, ← or_assoc]
    refine or_congr_left ?_
    by_cases hlast : LastLine fb (drawingsEnd fb string k 0 (0, c.curFbLine)).2
    · simp [horigin, hlast, or_and_right, exists_or, or_comm]
    · simp [horigin, hlast]
  · obtain ⟨q, hq, hprinted⟩ := hdone ⟨0, posX, posY, c⟩
      (fun i _ hlt => hend.2 i (by dsimp only at hlt; omega)) rfl
    rw [if_neg horigin, if_neg horigin, hq]
    refine ⟨congrArg (· + 1) (hprinted.index.trans (Nat.zero_add k)), fun offset => ?_⟩
    have hnot : ¬ (posX = 0 ∧ posY = 0 ∧ LastLine fb (drawingsEnd fb string k 0 (posX, posY)).2) :=
      fun h => horigin ⟨h.1, h.2.1⟩
    dsimp only
    rw [if_neg hnot, List.append_nil]
    exact hprinted.stores offset

theorem exists_endsAt {string : CharPtr} {n : Nat} (h : ∃ k < n, string k = 0) :
    ∃ k < n, EndsAt string k := by
  obtain ⟨k, hk, hzero⟩ := h
  have hex : ∃ k, string k = 0 := ⟨k, hzero⟩
  refine ⟨Nat.find hex, ?_, Nat.find_spec hex, fun i hi => Nat.find_min hex hi⟩
  exact Nat.lt_of_le_of_lt (Nat.find_min' hex hzero) hk

theorem drawings_subset (string : CharPtr) {n k : Nat} (hle : n ≤ k) (i : Nat) (pos : Nat × Nat) :
    drawings fb string n i pos ⊆ drawings fb string k i pos := by
  -- both lists begin with the drawings of the same character
  induction n generalizing k i pos with
  | zero => exact List.nil_subset _
  | succ n ih =>
    obtain ⟨k, rfl⟩ : ∃ k', k = k' + 1 := ⟨k - 1, by omega⟩
    obtain ⟨cx, cy⟩ := pos
    rw [drawings, drawings]
    exact List.append_subset.mpr ⟨List.subset_append_left _ _,
      List.Subset.trans (ih (by omega) _ _) (List.subset_append_right _ _)⟩

/-! ## The system call -/

/-- **Printing for the user.** A call stays on the screen and within the given number of
bytes exactly if the buffer has a NUL among them and everything drawn before it lies on
the screen. -/
theorem sys_print_inside (fb : Framebuffer) (memory : Nat → UInt8) (c : Console)
    (regs : SyscallRegs)
    (hprint : regs.rdi % 2 ^ 32 = 2) :
    PrintInside fb memory c regs ↔
      ∃ k < regs.rdx, EndsAt (stringAt memory regs.rsi) k ∧
        ∀ d ∈ printDrawings fb c (stringAt memory regs.rsi) k regs.rcx regs.r8, d.Inside fb := by
  have hcall : ∀ n, printCall fb memory n c (syscallDispatch regs) =
      sysPrint fb (stringAt memory regs.rsi) regs.rdx regs.rcx regs.r8 n
        { c with stores := [] } := by
    intro n
    rw [syscallDispatch, hprint]
    rfl
  generalize hstring : stringAt memory regs.rsi = string at hcall
  constructor
  · intro hinside
    have hnul : ∃ k < regs.rdx, string k = 0 := by
      by_contra hnone
      have hne : ∀ i < regs.rdx, string i ≠ 0 := fun i hi hzero => hnone ⟨i, hi, hzero⟩
      have hreads := hinside.reads (regs.rdx + 1)
      rw [hcall] at hreads
      -- byte `nbytes` is read, whether it is the NUL or not
      by_cases hzero : string regs.rdx = 0
      · rw [(sysPrint_ended fb regs.rdx regs.rcx regs.r8 { c with stores := [] } ⟨hzero, hne⟩
          (Nat.lt_succ_self regs.rdx)).1] at hreads
        omega
      · rw [(sysPrint_running fb (n := regs.rdx + 1) regs.rdx regs.rcx regs.r8
          { c with stores := [] } fun i hi => ?_).1] at hreads
        · omega
        · rcases Nat.lt_succ_iff_lt_or_eq.mp hi with hlt | heq
          · exact hne i hlt
          · exact heq ▸ hzero
    obtain ⟨k, hk, hend⟩ := exists_endsAt hnul
    refine ⟨k, hk, hend, fun d hd offset hoffset => ?_⟩
    have hmem := (sysPrint_ended fb regs.rdx regs.rcx regs.r8 { c with stores := [] } hend
      (Nat.lt_succ_self k)).2 offset
    refine hinside.stores (k + 1) offset ?_
    rw [hcall]
    exact hmem.mpr (.inl ⟨d, hd, hoffset⟩)
  · rintro ⟨k, hk, hend, hdraw⟩
    refine ⟨fun n offset hoffset => ?_, fun n => ?_⟩
    · rw [hcall] at hoffset
      by_cases hn : k < n
      · rcases ((sysPrint_ended fb regs.rdx regs.rcx regs.r8 _ hend hn).2 offset).mp
          hoffset with h | h
        · obtain ⟨d, hd, hstores⟩ := h
          exact hdraw d hd offset hstores
        · cases h
      · rcases ((sysPrint_running fb regs.rdx regs.rcx regs.r8 _ fun i hi =>
          hend.2 i (by omega)).2 offset).mp hoffset with h | h
        · obtain ⟨d, hd, hstores⟩ := h
          refine hdraw d ?_ offset hstores
          exact List.mem_append_left _ (drawings_subset string (by omega) _ _ hd)
        · cases h
    · rw [hcall]
      by_cases hn : k < n
      · rw [(sysPrint_ended fb regs.rdx regs.rcx regs.r8 _ hend hn).1]
        omega
      · rw [(sysPrint_running fb regs.rdx regs.rcx regs.r8 _ fun i hi => hend.2 i (by omega)).1]
        omega

/-! ## Which drawings lie on the screen -/

/-- The scrolled window is the whole screen, with no area pinned. -/
structure FullScreen (fb : Framebuffer) : Prop where
  window : fb.mainWindow.xOrig = 0 ∧ fb.mainWindow.yOrig = 0 ∧ fb.mainWindow.height = fb.height
  logo   : fb.logoArea = none
  width  : fb.mainWindow.width.toNat * sizeofPixel ≤ fb.pitch.toNat
  font   : psfGetHeight fb.font ≤ fb.height.toNat
  size   : fb.pitch.toNat * fb.height.toNat ≤ 2 ^ 32

/-- Row `y`, with `b + 4` bytes of it, ends on the screen. -/
theorem row_inside {pitch height y b : Nat} (hy : y < height) (hb : b + sizeofPixel ≤ pitch) :
    y * pitch + b + sizeofPixel ≤ pitch * height :=
  calc y * pitch + b + sizeofPixel ≤ y * pitch + pitch := by omega
    _ = pitch * (y + 1) := by rw [Nat.mul_succ, Nat.mul_comm]
    _ ≤ pitch * height := Nat.mul_le_mul_left pitch hy

/-- A character whose cell is within a row and within the rows lies on the screen. -/
theorem cell_inside {cx cy : Nat} (hsize : fb.pitch.toNat * fb.height.toNat ≤ 2 ^ 32)
    (hx : (cx + 1) * psfGetWidth fb.font * sizeofPixel ≤ fb.pitch.toNat)
    (hy : (cy + 1) * psfGetHeight fb.font ≤ fb.height.toNat) :
    (Drawing.cell cx cy).Inside fb := by
  rintro offset ⟨y, hymem, x, hxmem, rfl⟩
  have hylt := List.mem_range.mp hymem
  have hxlt := List.mem_range.mp hxmem
  have hrow : cy * psfGetHeight fb.font + y < fb.height.toNat := by
    rw [Nat.succ_mul] at hy
    omega
  have hcolumn : cx * psfGetWidth fb.font * sizeofPixel + x * sizeofPixel + sizeofPixel ≤
      fb.pitch.toNat := by
    rw [Nat.succ_mul, Nat.add_mul] at hx
    unfold sizeofPixel at hx ⊢
    omega
  have hinside := row_inside hrow hcolumn
  have hlow := Nat.le_trans hinside hsize
  rw [Nat.add_mul] at hinside hlow
  unfold PixelInside cellOffset
  generalize fb.pitch.toNat * fb.height.toNat = total at *
  generalize cy * psfGetHeight fb.font * fb.pitch.toNat = top at *
  generalize cx * psfGetWidth fb.font * sizeofPixel = left at *
  generalize y * fb.pitch.toNat = down at *
  unfold sizeofPixel at *
  dsimp only
  omega

theorem pixel_inside {x y : Nat} (hsize : fb.pitch.toNat * fb.height.toNat ≤ 2 ^ 32)
    (hx : x * sizeofPixel + sizeofPixel ≤ fb.pitch.toNat) (hy : y < fb.height.toNat) :
    PixelInside fb (pixelOffset fb x y) := by
  have hinside := row_inside hy hx
  have hlow := Nat.le_trans hinside hsize
  unfold PixelInside pixelOffset
  generalize fb.pitch.toNat * fb.height.toNat = total at *
  generalize y * fb.pitch.toNat = down at *
  unfold sizeofPixel at *
  omega

/-- On a full screen, so do scrolls. -/
theorem scroll_inside (hfull : FullScreen fb) : Drawing.scroll.Inside fb := by
  obtain ⟨⟨hx0, hy0, hheight⟩, hlogo, hwidth, hfont, hsize⟩ := hfull
  rintro offset ⟨r, hr, y, hy, x, hx, hoffset⟩
  have hwindow : r = fb.mainWindow := by
    unfold scrolledRectangles at hr
    rw [hlogo, if_pos (.inl rfl)] at hr
    exact List.mem_singleton.mp hr
  subst hwindow
  have hxlt : x < fb.mainWindow.width.toNat := by
    unfold scrolledColumns at hx
    rw [hx0, List.mem_range'_1] at hx
    have := fb.mainWindow.width.toNat_lt
    simp only [UInt32.toNat_zero] at hx
    omega
  have hylt : y + psfGetHeight fb.font < fb.height.toNat := by
    unfold scrolledRows at hy
    rw [hy0, hheight, List.mem_range'_1] at hy
    have := fb.height.toNat_lt
    simp only [UInt32.toNat_zero] at hy
    omega
  have hcolumn : x * sizeofPixel + sizeofPixel ≤ fb.pitch.toNat := by
    unfold sizeofPixel at hwidth ⊢
    omega
  have hbelow : (y + psfGetHeight fb.font) % 2 ^ 32 = y + psfGetHeight fb.font :=
    Nat.mod_eq_of_lt (by have := fb.height.toNat_lt; omega)
  rcases hoffset with rfl | rfl
  · rw [hbelow]
    exact pixel_inside hsize hcolumn hylt
  · exact pixel_inside hsize hcolumn (by omega)

end Print

theorem twoLines_fullScreen : FullScreen twoLines :=
  ⟨by decide, rfl, by decide, by decide, by decide⟩

/-- Memory with an `A`, a newline and a NUL at address 0. -/
def letterA : Nat → UInt8 := fun a => if a = 0 then 65 else if a = 1 then 10 else 0

/-- The letter and the newline fit the screen of two lines, and three bytes. -/
theorem sys_print_inside_twoLines :
    PrintInside twoLines letterA blankConsole ⟨2, 0, 3, 0, 0⟩ := by
  refine (sys_print_inside twoLines letterA blankConsole ⟨2, 0, 3, 0, 0⟩ rfl).mpr
    ⟨2, by decide, ⟨by decide, by decide⟩, ?_⟩
  have hdrawings : printDrawings twoLines blankConsole (stringAt letterA 0) 2 0 0 =
      [.cell 0 0, .scroll] := by decide +kernel
  intro d hd
  rw [hdrawings] at hd
  rcases List.mem_cons.mp hd with rfl | hd
  · exact cell_inside (by decide) (by decide +kernel) (by decide +kernel)
  · rw [List.mem_singleton.mp hd]
    exact scroll_inside twoLines_fullScreen

/-- The letter at line 2 of the screen of two lines is stored past its end, and all three
bytes are read when one is asked for. -/
theorem sys_print_outside :
    (printCall twoLines letterA 3 blankConsole (syscallDispatch ⟨2, 0, 3, 0, 2⟩)).1.stores.any
        (fun offset => 128 < offset + 4) = true ∧
      twoLines.pitch.toNat * twoLines.height.toNat = 128 ∧
      (printCall twoLines letterA 3 blankConsole (syscallDispatch ⟨2, 0, 1, 0, 0⟩)).2 = 3 := by
  decide +kernel

end Dreamos64
