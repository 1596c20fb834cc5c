import Dreamos64.Graphics.Framebuffer
import Mathlib.Data.List.Induction

/-!
# Dreamos64 — the console cursor

`cur_fb_line` over runs of the text output functions. All of them but one advance the
line and scroll when it would leave the screen; `_fb_putchar` advances it on a newline
and does not look.

* `ConsoleCall.onScreen_iff` — from a line on the screen, a call leaves it exactly if it
  is a newline of `_fb_putchar` on the last line.
* `cursor_on_screen` — so the cursor is on the screen throughout a run exactly if no
  such call is made in it.
-/

namespace Dreamos64

open Machine

/-- A call of one of the text output functions. -/
inductive ConsoleCall where
  | printStr (string : CString) (fg bg : UInt32)
  | printStrAndNumber (buffer : CharPtr) (string : CString) (number : UInt64) (fg bg : UInt32)
  | putchar (symbol : UInt8) (fg bg : UInt32)
  | increaseLine

section Cursor

variable (fb : Framebuffer)

def ConsoleCall.exec (c : Console) : ConsoleCall → Console
  | .printStr string fg bg => fbPrintStr fb string fg bg c
  | .printStrAndNumber buffer string number fg bg =>
    fbPrintStrAndNumber fb buffer string number fg bg c
  | .putchar symbol fg bg => fbPutchar fb symbol fg bg c
  | .increaseLine => fbIncreaseLine fb c

def OnScreen (c : Console) : Prop := c.curFbLine < fb.numberOfLines.toNat

/-- A newline of `_fb_putchar` has a line to go to. -/
def NewlineFits (c : Console) (call : ConsoleCall) : Prop :=
  ∀ fg bg, call = .putchar 10 fg bg → c.curFbLine + 1 < fb.numberOfLines.toNat

variable {fb}

/-! ## One call -/

theorem fbIncreaseLine_onScreen {c : Console} (hc : OnScreen fb c) :
    OnScreen fb (fbIncreaseLine fb c) := by
  unfold OnScreen at hc ⊢
  have hlines := fb.numberOfLines.toNat_lt
  have hline : (c.curFbLine + 1) % 2 ^ 64 = c.curFbLine + 1 := Nat.mod_eq_of_lt (by omega)
  unfold fbIncreaseLine
  dsimp only
  split
  · rw [scrollLine_curFbLine]
    dsimp only
    omega
  · next hlt => exact Nat.lt_of_not_le hlt

/-- Both the cursor and the local `cy` of `_fb_printStrAt` are on the screen. -/
structure PrintingOnScreen (fb : Framebuffer) (p : Printing) : Prop where
  cy     : p.cy < fb.numberOfLines.toNat
  cursor : OnScreen fb p.console

theorem printSymbol_onScreen {p : Printing} (fg bg : UInt32) (symbol : UInt8)
    (hp : PrintingOnScreen fb p) : PrintingOnScreen fb (printSymbol fb fg bg symbol p) := by
  obtain ⟨hcy, hcursor⟩ := hp
  unfold OnScreen at hcursor
  unfold printSymbol
  dsimp only
  split
  · split
    · refine ⟨hcy, ?_⟩
      show (scrollLine fb _).curFbLine < _
      rw [scrollLine_curFbLine]
      exact hcy
    · next hfits => exact ⟨Nat.lt_of_not_le hfits, Nat.lt_of_not_le hfits⟩
  · split
    · refine ⟨hcy, ?_⟩
      refine lt_of_eq_of_lt ?_ hcursor
      exact foldl_curFbLine (fun c i => fbPutcharAt_curFbLine _ _ _ _ _ c) _ _
    · refine ⟨hcy, ?_⟩
      show (fbPutcharAt _ _ _ _ _ _ _).curFbLine < _
      rw [fbPutcharAt_curFbLine]
      exact hcursor

theorem printTurn_onScreen {p q : Printing} {fg bg : UInt32} {string : CharPtr}
    (hp : PrintingOnScreen fb p) (h : printTurn fb fg bg string p = .next q) :
    PrintingOnScreen fb q := by
  unfold printTurn at h
  split at h
  · cases h
  · injection h with h
    obtain ⟨hcy, hcursor⟩ := printSymbol_onScreen fg bg (string p.index) hp
    exact h ▸ ⟨hcy, hcursor⟩

theorem fbPrintStrAt_onScreen {string : CString} {cx cy : Nat} {fg bg : UInt32} {c : Console}
    (hcy : cy < fb.numberOfLines.toNat) (hc : OnScreen fb c) :
    OnScreen fb (fbPrintStrAt fb string cx cy fg bg c) := by
  obtain ⟨hnext, hdone⟩ := turns_inv (PrintingOnScreen fb) (PrintingOnScreen fb)
    (fun p q hp h => printTurn_onScreen hp h)
    (fun p q hp h => by
      unfold printTurn at h
      split at h
      · injection h with h
        exact h ▸ hp
      · cases h)
    (s := ⟨0, cx, cy, c⟩) ⟨hcy, hc⟩ (string.size + 1)
  unfold fbPrintStrAt printTurns
  cases hturns : turns (printTurn fb fg bg string.bytes) (string.size + 1) ⟨0, cx, cy, c⟩ with
  | next p => exact (hnext p hturns).cursor
  | done p => exact (hdone p hturns).cursor

/-- From a line on the screen, only a newline of `_fb_putchar` can leave it. -/
theorem ConsoleCall.onScreen_iff {c : Console} {call : ConsoleCall} (hc : OnScreen fb c) :
    OnScreen fb (call.exec fb c) ↔ NewlineFits fb c call := by
  cases call with
  | printStr string fg bg =>
    refine iff_of_true ?_ fun _ _ h => nomatch h
    exact fbIncreaseLine_onScreen (c := { fbPrintStrAt fb string 0 c.curFbLine fg bg c with
      curFbColumn := 0 }) (fbPrintStrAt_onScreen (c := c) hc hc)
  | printStrAndNumber buffer string number fg bg =>
    refine iff_of_true ?_ fun _ _ h => nomatch h
    refine fbIncreaseLine_onScreen (c := { fbPrintStrAndNumberAt fb buffer string number 0
      c.curFbLine fg bg c with curFbColumn := 0 }) ?_
    exact fbPrintStrAt_onScreen hc (fbPrintStrAt_onScreen (c := c) hc hc)
  | putchar symbol fg bg =>
    -- only `\n` moves the line without the check of `_fb_increaseLine`
    by_cases hnewline : symbol = 10
    · subst hnewline
      have hlines := fb.numberOfLines.toNat_lt
      unfold OnScreen at hc
      have hline : (c.curFbLine + 1) % 2 ^ 64 = c.curFbLine + 1 := Nat.mod_eq_of_lt (by omega)
      have hexec : ((ConsoleCall.putchar 10 fg bg).exec fb c).curFbLine = c.curFbLine + 1 := hline
      unfold OnScreen
      rw [hexec]
      exact ⟨fun h _ _ _ => h, fun h => h fg bg rfl⟩
    · refine iff_of_true ?_ fun fg' bg' h => ?_
      · unfold OnScreen at hc ⊢
        have hexec : ((ConsoleCall.putchar symbol fg bg).exec fb c).curFbLine = c.curFbLine := by
          show (fbPutchar fb symbol fg bg c).curFbLine = _
          unfold fbPutchar
          rw [if_neg hnewline]
          exact fbPutcharAt_curFbLine _ _ _ _ _ c
        rw [hexec]
        exact hc
      · injection h with hsymbol
        exact absurd hsymbol hnewline
  | increaseLine =>
    exact iff_of_true (fbIncreaseLine_onScreen hc) fun _ _ h => nomatch h

/-! ## Runs -/

theorem run_onScreen {c : Console} {calls : List ConsoleCall} (hc : OnScreen fb c)
    (hfits : ∀ before call, before ++ [call] <+: calls →
      NewlineFits fb (before.foldl (ConsoleCall.exec fb) c) call) :
    OnScreen fb (calls.foldl (ConsoleCall.exec fb) c) := by
  -- the last call starts from a cursor on the screen
  induction calls using List.reverseRecOn with
  | nil => exact hc
  | append_singleton calls call ih =>
    rw [List.foldl_append]
    refine (ConsoleCall.onScreen_iff (ih fun before call' h => ?_)).mpr ?_
    · exact hfits before call' (h.trans (List.prefix_append _ _))
    · exact hfits calls call (List.prefix_refl _)

/-- **The cursor.** From line 0 of a screen with lines, the cursor is on the screen after
every call of a run exactly if no newline of `_fb_putchar` is made on the last line. -/
theorem cursor_on_screen {c : Console} (calls : List ConsoleCall) (hline : c.curFbLine = 0)
    (hlines : 1 ≤ fb.numberOfLines.toNat) :
    (∀ before, before <+: calls → OnScreen fb (before.foldl (ConsoleCall.exec fb) c)) ↔
      ∀ before call, before ++ [call] <+: calls →
        NewlineFits fb (before.foldl (ConsoleCall.exec fb) c) call := by
  constructor
  · intro hscreen before call h
    have hbefore := hscreen before ((List.prefix_append before [call]).trans h)
    have hafter := hscreen (before ++ [call]) h
    rw [List.foldl_append] at hafter
    exact (ConsoleCall.onScreen_iff hbefore).mp hafter
  · intro hfits before h
    have hc : OnScreen fb c := by
      unfold OnScreen
      omega
    exact run_onScreen hc fun earlier call h' => hfits earlier call (h'.trans h)

end Cursor

/-- On two lines, printing a string and echoing a character keeps the cursor there. -/
theorem cursor_on_screen_twoLines :
    OnScreen twoLines ([ConsoleCall.increaseLine, .putchar 65 1 0].foldl
      (ConsoleCall.exec twoLines) blankConsole) := by
  refine (cursor_on_screen (c := blankConsole) [.increaseLine, .putchar 65 1 0] rfl
    (by decide)).mpr ?_ _ (List.prefix_refl _)
  intro before call hprefix fg bg hcall
  -- neither call is a newline
  have hmem : call ∈ [ConsoleCall.increaseLine, .putchar 65 1 0] :=
    hprefix.subset (List.mem_append_right _ (List.mem_singleton_self _))
  rw [hcall] at hmem
  simp at hmem

/-- Two newlines leave a screen of two lines. -/
theorem cursor_leaves_screen :
    ¬ OnScreen twoLines ([ConsoleCall.putchar 10 1 0, .putchar 10 1 0].foldl
      (ConsoleCall.exec twoLines) blankConsole) := by
  show ¬ (2 < 2)
  decide

end Dreamos64
