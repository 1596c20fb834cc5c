import Dreamos64.Libc.Stdio

/-!
# Dreamos64 — formats and their output

A format in the sense of its callers is a sequence of pieces: characters that are copied,
directives for a number or a character, and directives for a string, which a precision may cut.
Each piece has its text in the format, the arguments it takes, and its expansion.

* `Piece.turn`            — one turn of `vsprintf` writes the expansion of one piece;
* `Pending.prints`        — the pieces that are left;
* `vsprintf_concatenates` — the output of a format.
-/

namespace Dreamos64

open Machine Cursor

/-! ## Pieces -/

/-- A precision that is an `int`. -/
structure Precision where
  digits   : List UInt8
  isDigits : ∀ d ∈ digits, isDigit d
  value_lt : decimalValue digits < 2 ^ 31

/-- A piece of a format, with its argument. -/
inductive Piece where
  | literal (c : UInt8) (hc : c ≠ 37)
  | value (conversion : Conversion) (hs : conversion ≠ .s) (arg : UInt64)
  | string (precision : Option Precision) (arg : UInt64) (text : List UInt8)

/-- The text of a piece. -/
def Piece.format : Piece → List UInt8
  | .literal c _ => [c]
  | .value conversion _ _ => [37, conversion.char]
  | .string precision _ _ =>
    37 :: (precisionText (precision.map Precision.digits) ++ [Conversion.s.char])

/-- The arguments that it takes. -/
def Piece.args : Piece → List UInt64
  | .literal _ _ => []
  | .value _ _ arg => [arg]
  | .string _ arg _ => [arg]

/-- What is written for it. -/
def Piece.expansion : Piece → List UInt8
  | .literal c _ => [c]
  | .value conversion _ arg => conversion.expansion arg
  | .string none _ text => text
  | .string (some precision) _ text => text.take (decimalValue precision.digits).toNat

/-- The concatenation. -/
def output (pieces : List Piece) : List UInt8 := pieces.flatMap Piece.expansion

/-- A format with its arguments: each string that is taken is at its address, and apart from
the output and its NUL. -/
structure Matching (mem : Memory) (buffer : Int) (format : CString) (args : Nat → UInt64)
    (pieces : List Piece) : Prop where
  chars : format.chars = pieces.flatMap Piece.format
  words : ∀ i arg, (pieces.flatMap Piece.args)[i]? = some arg → args i = arg
  reads : ∀ precision arg text, .string precision arg text ∈ pieces →
    Reads (mem.ptr arg.toNat) text
  short : ∀ precision arg text, .string precision arg text ∈ pieces → text.length < 2 ^ 31
  apart : ∀ precision arg text, .string precision arg text ∈ pieces →
    arg.toNat + text.length < buffer ∨ buffer + (output pieces).length < arg.toNat

/-! ## One piece -/

/-- The value of digits is no negative number. -/
theorem decimalValue_nonneg {digits : List UInt8} (h : ∀ d ∈ digits, isDigit d) :
    0 ≤ decimalValue digits := by
  have hfold : ∀ n : Int, 0 ≤ n → 0 ≤ digits.foldl decimalStep n := by
    induction digits with
    | nil => exact fun n hn => hn
    | cons d digits ih =>
      intro n hn
      have hd : 48 ≤ d.toNat := by
        have hdigit := h d List.mem_cons_self
        unfold isDigit at hdigit
        simp only [Bool.and_eq_true, decide_eq_true_eq] at hdigit
        exact UInt8.le_iff_toNat_le.mp hdigit.1
      refine ih (fun e he => h e (List.mem_cons_of_mem d he)) (decimalStep n d) ?_
      unfold decimalStep
      omega
  exact hfold 0 (Int.le_refl 0)

theorem Precision.value_eq (precision : Precision) :
    precisionValue (some precision.digits) = decimalValue precision.digits := by
  have hnonneg := decimalValue_nonneg precision.isDigits
  unfold precisionValue
  dsimp only
  rw [toInt32_eq (by omega) precision.value_lt, if_neg (by omega)]

/-- The number of characters that the case of strings copies. -/
theorem string_length (precision : Option Precision) (arg : UInt64) {str : CharPtr}
    {text : List UInt8} (h : Reads str text) (hshort : text.length < 2 ^ 31) :
    toInt32 (strnlen str (precisionValue (precision.map Precision.digits) % 2 ^ 64).toNat) =
      (Piece.string precision arg text).expansion.length := by
  rw [strnlen_eq h]
  cases precision with
  | none =>
    have hcount : (precisionValue (none.map Precision.digits) % 2 ^ 64).toNat = 2 ^ 64 - 1 := by
      decide
    have hmin : min text.length (2 ^ 64 - 1) = text.length := by omega
    rw [hcount, hmin, toInt32_eq (by omega) (by omega)]
    rfl
  | some precision =>
    have hnonneg := decimalValue_nonneg precision.isDigits
    have hlt := precision.value_lt
    have hcount : (precisionValue ((some precision).map Precision.digits) % 2 ^ 64).toNat =
        (decimalValue precision.digits).toNat := by
      rw [Option.map_some, precision.value_eq, Int.emod_eq_of_lt hnonneg (by omega)]
    have hexpansion : (Piece.string (some precision) arg text).expansion.length =
        min (decimalValue precision.digits).toNat text.length := List.length_take
    rw [hcount, hexpansion, Nat.min_comm, toInt32_eq (by omega) (by omega)]

/-- A string begins with its expansion. -/
theorem string_getElem? {precision : Option Precision} {arg : UInt64} {text : List UInt8} {i : Nat}
    {c : UInt8} (h : (Piece.string precision arg text).expansion[i]? = some c) :
    text[i]? = some c := by
  cases precision with
  | none => exact h
  | some precision =>
    have htake : (text.take (decimalValue precision.digits).toNat)[i]? = some c := h
    rw [List.getElem?_take] at htake
    split_ifs at htake
    exact htake

theorem string_length_le (precision : Option Precision) (arg : UInt64) (text : List UInt8) :
    (Piece.string precision arg text).expansion.length ≤ text.length := by
  cases precision with
  | none => exact Nat.le_refl _
  | some precision => exact List.length_take_le' _ _

/-- **The case of strings.** -/
theorem write_string (precision : Option Precision) {mem : Memory} {str : Int} {arg : UInt64}
    {text : List UInt8} (h : Reads (mem.ptr arg.toNat) text) (hshort : text.length < 2 ^ 31)
    (hapart : str ≤ arg.toNat ∨ arg.toNat + text.length ≤ str) :
    ∃ mem', Conversion.s.write arg (precisionValue (precision.map Precision.digits)) mem str =
        .ok ((Piece.string precision arg text).expansion.length, mem') ∧
      Wrote mem mem' str (Piece.string precision arg text).expansion := by
  have hlength := string_length precision arg h hshort
  have hle := string_length_le precision arg text
  refine ⟨ByteCopy.copyUp mem str arg.toNat (Piece.string precision arg text).expansion.length,
    ?_, wrote_copyUp ?_ (by omega)⟩
  · unfold Conversion.write
    dsimp only
    rw [hlength, Int.toNat_natCast]
  · intro i c hi
    exact (h.char i c (string_getElem? hi)).1

/-! ## The pieces that are left -/

/-- The pieces that `vsprintf` has not come to yet. -/
structure Pending (format : CString) (args : Nat → UInt64) (s : FormatState)
    (pieces : List Piece) : Prop where
  chars : ∃ before, format.chars = before ++ pieces.flatMap Piece.format ∧ s.fmt = before.length
  words : ∀ i arg, (pieces.flatMap Piece.args)[i]? = some arg → args (s.args + i) = arg
  reads : ∀ precision arg text, .string precision arg text ∈ pieces →
    Reads (s.mem.ptr arg.toNat) text
  short : ∀ precision arg text, .string precision arg text ∈ pieces → text.length < 2 ^ 31
  apart : ∀ precision arg text, .string precision arg text ∈ pieces →
    arg.toNat + text.length < s.str ∨ s.str + (output pieces).length < arg.toNat

/-- The state behind a piece. -/
def FormatState.behind (s : FormatState) (p : Piece) (mem : Memory) : FormatState :=
  ⟨s.fmt + p.format.length, s.args + p.args.length, s.str + p.expansion.length, mem⟩

section Pending

variable {format : CString} {args : Nat → UInt64} {buffer : Int} {s : FormatState} {p : Piece}
  {pieces : List Piece} {mem' : Memory}

theorem output_cons (p : Piece) (pieces : List Piece) :
    output (p :: pieces) = p.expansion ++ output pieces := List.flatMap_cons

/-- A directive and its character, which is part of no precision. -/
theorem char_ends (conversion : Conversion) (precision : Option Precision) (after : List UInt8) :
    PrecisionEnds (conversion.char :: after) (precision.map Precision.digits) := by
  cases precision with
  | none =>
    intro c hc
    obtain rfl := Option.some_inj.mp hc
    cases conversion <;> decide
  | some precision =>
    refine ⟨precision.isDigits, fun c hc => ?_⟩
    obtain rfl := Option.some_inj.mp hc
    cases conversion <;> decide

/-- A turn over the text of a directive. -/
theorem directive_turn (buffer : Int) (conversion : Conversion) (precision : Option Precision)
    {before after : List UInt8} {size : Nat}
    (h : format.chars = before ++
      (37 :: (precisionText (precision.map Precision.digits) ++ [conversion.char]) ++ after))
    (hfmt : s.fmt = before.length)
    (hwrite : conversion.write (args s.args) (precisionValue (precision.map Precision.digits)) s.mem
      s.str = .ok (size, mem')) :
    vsprintfBody format args buffer s = .ok (.next
      ⟨s.fmt + (37 :: (precisionText (precision.map Precision.digits) ++ [conversion.char])).length,
        s.args + 1, s.str + size, mem'⟩) := by
  rw [List.cons_append, List.append_assoc] at h
  rw [vsprintfBody_directive h (char_ends conversion precision after) hfmt
    (formatSwitch_char hwrite), hfmt, List.append_assoc, List.length_append]
  rfl

/-- **One turn** writes the expansion of one piece. -/
theorem Pending.turn (buffer : Int) (h : Pending format args s (p :: pieces)) :
    ∃ mem', vsprintfBody format args buffer s = .ok (.next (s.behind p mem')) ∧
      Wrote s.mem mem' s.str p.expansion := by
  obtain ⟨before, hchars, hfmt⟩ := h.chars
  rw [List.flatMap_cons] at hchars
  cases p with
  | literal c hc =>
    refine ⟨_, (vsprintfBody_literal hchars hc hfmt).trans ?_, wrote_update s.mem s.str c⟩
    rw [List.length_append, ← hfmt]
    rfl
  -- these take one argument, and the precision is missing
  | value conversion hs arg =>
    have harg : args s.args = arg := h.words 0 arg rfl
    obtain ⟨mem', hwrite, hwrote⟩ := conversion.write_expansion hs arg (-1) s.mem s.str
    rw [← harg] at hwrite
    have hturn := directive_turn buffer conversion none hchars hfmt hwrite
    rw [harg] at hturn
    exact ⟨mem', hturn, hwrote⟩
  | string precision arg text =>
    have hmem : Piece.string precision arg text ∈ .string precision arg text :: pieces :=
      List.mem_cons_self
    have harg : args s.args = arg := h.words 0 arg rfl
    have hle := string_length_le precision arg text
    have hapart := h.apart precision arg text hmem
    rw [output_cons, List.length_append] at hapart
    -- the string is apart from all of the output, so from this piece too
    have hbefore : s.str ≤ arg.toNat ∨ arg.toNat + text.length ≤ s.str := by omega
    obtain ⟨mem', hwrite, hwrote⟩ := write_string precision (h.reads precision arg text hmem)
      (h.short precision arg text hmem) hbefore
    rw [← harg] at hwrite
    have hturn := directive_turn buffer .s precision hchars hfmt hwrite
    rw [harg] at hturn
    exact ⟨mem', hturn, hwrote⟩

/-- The other pieces are left after it: their strings are not where it was written. -/
theorem Pending.next (h : Pending format args s (p :: pieces))
    (hwrote : Wrote s.mem mem' s.str p.expansion) :
    Pending format args (s.behind p mem') pieces where
  chars := by
    obtain ⟨before, hchars, hfmt⟩ := h.chars
    refine ⟨before ++ p.format, ?_, ?_⟩
    · rw [hchars, List.flatMap_cons, List.append_assoc]
    · rw [List.length_append, ← hfmt]
      rfl
  words := by
    intro i arg hi
    -- the arguments are numbered from the first piece on
    have hlater : ((p :: pieces).flatMap Piece.args)[p.args.length + i]? = some arg := by
      rw [List.flatMap_cons, List.getElem?_append_right (Nat.le_add_right _ _),
        Nat.add_sub_cancel_left]
      exact hi
    have hword := h.words _ arg hlater
    rwa [← Nat.add_assoc] at hword
  reads := by
    intro precision arg text hmem
    have hmem' := List.mem_cons_of_mem p hmem
    have hapart := h.apart precision arg text hmem'
    rw [output_cons, List.length_append] at hapart
    -- a string is read after this piece as it was before
    refine (h.reads precision arg text hmem').congr fun i hi => ?_
    exact hwrote.rest _ (by omega)
  short := fun precision arg text hmem =>
    h.short precision arg text (List.mem_cons_of_mem p hmem)
  apart := by
    intro precision arg text hmem
    have hapart := h.apart precision arg text (List.mem_cons_of_mem p hmem)
    rw [output_cons, List.length_append] at hapart
    show _ < s.str + (p.expansion.length : Int) ∨ s.str + (p.expansion.length : Int) + _ < _
    omega

/-- **The run** over the pieces that are left. -/
theorem Pending.prints (buffer : Int) (h : Pending format args s pieces) :
    ∃ fuel mem', loop (vsprintfBody format args buffer) fuel s =
        .ok (toInt32 (s.str + (output pieces).length - buffer), mem') ∧
      Wrote s.mem mem' s.str (output pieces) ∧ mem' (s.str + (output pieces).length) = 0 := by
  -- on the pieces; each turn hands the cursor and the memory on to the next
  induction pieces generalizing s with
  | nil =>
    obtain ⟨before, hchars, hfmt⟩ := h.chars
    rw [List.flatMap_nil, List.append_nil] at hchars
    refine ⟨1, Function.update s.mem s.str 0, ?_, ?_, ?_⟩
    · rw [loop_done (vsprintfBody_end hchars hfmt)]
      show _ = Except.ok (toInt32 (s.str + 0 - buffer), _)
      rw [Int.add_zero]
    · refine ⟨fun _ _ hi => (nomatch hi), fun x hx => Function.update_of_ne ?_ 0 s.mem⟩
      simp only [output, List.flatMap_nil, List.length_nil] at hx
      omega
    · show Function.update s.mem s.str 0 (s.str + 0) = 0
      rw [Int.add_zero, Function.update_self]
  | cons p pieces ih =>
    obtain ⟨mem₁, hturn, hwrote⟩ := h.turn buffer
    obtain ⟨fuel, mem₂, hrun, hwrote', hnul⟩ := ih (h.next hwrote)
    -- the next piece begins at the terminator that this one may have left
    have hend : s.str + ((output (p :: pieces)).length : Int) =
        s.str + p.expansion.length + (output pieces).length := by
      rw [output_cons, List.length_append]
      omega
    rw [hend]
    refine ⟨fuel + 1, mem₂, (loop_next hturn).trans hrun, ?_, hnul⟩
    rw [output_cons]
    exact hwrote.append hwrote'

end Pending

/-! ## The output of a format -/

section Output

variable {mem : Memory} {buffer : Int} {format : CString} {args : Nat → UInt64}
  {pieces : List Piece}

theorem Matching.pending (h : Matching mem buffer format args pieces) :
    Pending format args ⟨0, 0, buffer, mem⟩ pieces where
  chars := ⟨[], h.chars, rfl⟩
  words := by
    intro i arg hi
    rw [Nat.zero_add]
    exact h.words i arg hi
  reads := h.reads
  short := h.short
  apart := h.apart

theorem Matching.prints (h : Matching mem buffer format args pieces) :
    ∃ fuel mem', vsprintf fuel mem buffer format args =
        .ok (toInt32 (output pieces).length, mem') ∧
      Wrote mem mem' buffer (output pieces) ∧ mem' (buffer + (output pieces).length) = 0 := by
  obtain ⟨fuel, mem', hrun, hwrote, hnul⟩ := h.pending.prints buffer
  refine ⟨fuel, mem', hrun.trans ?_, hwrote, hnul⟩
  show Except.ok (toInt32 (buffer + (output pieces).length - buffer), mem') = _
  rw [add_sub_cancel_left]

/-- **The output of a format.** `vsprintf` writes the concatenation of the expansions and one NUL,
and nothing else. It returns the length of the concatenation as an `int`, which is that length
if it is below `2 ^ 31`. -/
theorem vsprintf_concatenates (h : Matching mem buffer format args pieces) :
    ∃ fuel result mem', vsprintf fuel mem buffer format args = .ok (result, mem') ∧
      result = toInt32 (output pieces).length ∧
      ((output pieces).length < 2 ^ 31 → result = (output pieces).length) ∧
      Wrote mem mem' buffer (output pieces) ∧ mem' (buffer + (output pieces).length) = 0 := by
  obtain ⟨fuel, mem', hrun, hwrote, hnul⟩ := h.prints
  refine ⟨fuel, _, mem', hrun, rfl, fun hlt => ?_, hwrote, hnul⟩
  exact toInt32_eq (by omega) (by omega)

end Output

/-- A format with a character, a negative number and a string that is cut. -/
def shortFormat : CString := .ofChars ['n', '%', 'd', '%', '.', '2', 's']

def shortMemory : Memory := fun a =>
  if a = 0x100 then 120 else if a = 0x101 then 121 else if a = 0x102 then 122 else 0

def shortArgs : Nat → UInt64 := fun i => [0xFFFFFFFB, 0x100].getD i 0

def two : Precision where
  digits   := [50]
  isDigits := by
    intro d hd
    rw [List.mem_singleton.mp hd]
    rfl
  value_lt := by decide

def shortPieces : List Piece :=
  [.literal 110 (by decide), .value .d (by decide) 0xFFFFFFFB,
    .string (some two) 0x100 [120, 121, 122]]

/-- The only string of these pieces. -/
theorem mem_shortPieces {precision : Option Precision} {arg : UInt64} {text : List UInt8}
    (h : .string precision arg text ∈ shortPieces) : arg = 0x100 ∧ text = [120, 121, 122] := by
  simp only [shortPieces, List.mem_cons, reduceCtorEq, Piece.string.injEq, false_or,
    List.not_mem_nil, or_false] at h
  exact h.2

theorem shortMatching : Matching shortMemory 0x1000 shortFormat shortArgs shortPieces where
  chars := by decide
  words := by
    intro i arg hi
    show [0xFFFFFFFB, 0x100].getD i 0 = arg
    rw [List.getD_eq_getElem?_getD]
    exact congrArg (Option.getD · 0) hi
  reads := by
    intro precision arg text hmem
    obtain ⟨rfl, rfl⟩ := mem_shortPieces hmem
    refine .cons (by decide) (by decide) (.cons (by decide) (by decide)
      (.cons (by decide) (by decide) ((reads_nil _).mpr (by decide))))
  short := by
    intro precision arg text hmem
    obtain ⟨rfl, rfl⟩ := mem_shortPieces hmem
    decide
  apart := by
    intro precision arg text hmem
    obtain ⟨rfl, rfl⟩ := mem_shortPieces hmem
    exact Or.inl (by decide)

theorem vsprintf_concatenates_short :
    output shortPieces = [110, 45, 53, 120, 121] ∧
      ∃ fuel result mem',
        vsprintf fuel shortMemory 0x1000 shortFormat shortArgs = .ok (result, mem') ∧
          result = toInt32 (output shortPieces).length ∧
          ((output shortPieces).length < 2 ^ 31 → result = (output shortPieces).length) ∧
          Wrote shortMemory mem' 0x1000 (output shortPieces) ∧
          mem' (0x1000 + (output shortPieces).length) = 0 :=
  ⟨by decide, vsprintf_concatenates shortMatching⟩

/-- A string of `n` characters at 1. -/
def longMemory (n : Nat) : Memory := fun a => if 1 ≤ a ∧ a ≤ n then 97 else 0

def longFormat : CString := .ofChars ['x', '%', 's']

def longPieces (n : Nat) : List Piece :=
  [.literal 120 (by decide), .string none 1 (List.replicate n 97)]

section Long

variable {n : Nat} {precision : Option Precision} {arg : UInt64} {text : List UInt8}

theorem mem_longPieces (h : .string precision arg text ∈ longPieces n) :
    arg = 1 ∧ text = List.replicate n 97 := by
  simp only [longPieces, List.mem_cons, reduceCtorEq, Piece.string.injEq, false_or,
    List.not_mem_nil, or_false] at h
  exact h.2

theorem length_longPieces (n : Nat) : (output (longPieces n)).length = n + 1 := by
  show ((120 : UInt8) :: (List.replicate n 97 ++ [])).length = n + 1
  rw [List.append_nil, List.length_cons, List.length_replicate]

theorem longMemory_reads (n : Nat) : Reads ((longMemory n).ptr 1) (List.replicate n 97) where
  char := by
    intro i c hi
    obtain ⟨hlt, rfl⟩ := List.getElem?_eq_some_iff.mp hi
    rw [List.length_replicate] at hlt
    rw [List.getElem_replicate]
    exact ⟨if_pos ⟨by omega, by omega⟩, by decide⟩
  nul := by
    rw [List.length_replicate]
    exact if_neg (by omega)

theorem longMatching (hn : n < 2 ^ 31) :
    Matching (longMemory n) (2 ^ 32) longFormat (fun _ => 1) (longPieces n) where
  chars := rfl
  words := by
    intro i arg hi
    have hlist : [(1 : UInt64)][i]? = some arg := hi
    obtain ⟨hlt, rfl⟩ := List.getElem?_eq_some_iff.mp hlist
    obtain rfl : i = 0 := Nat.lt_one_iff.mp hlt
    rfl
  reads := by
    intro precision arg text hmem
    obtain ⟨rfl, rfl⟩ := mem_longPieces hmem
    exact longMemory_reads n
  short := by
    intro precision arg text hmem
    obtain ⟨rfl, rfl⟩ := mem_longPieces hmem
    rwa [List.length_replicate]
  apart := by
    intro precision arg text hmem
    obtain ⟨rfl, rfl⟩ := mem_longPieces hmem
    have hone : (1 : UInt64).toNat = 1 := rfl
    rw [List.length_replicate, hone]
    exact Or.inl (by omega)

end Long

/-- A string one character shorter than `2 ^ 31`, with a character before it: the length that is
returned is negative. -/
theorem vsprintf_long_length :
    Matching (longMemory (2 ^ 31 - 1)) (2 ^ 32) longFormat (fun _ => 1) (longPieces (2 ^ 31 - 1)) ∧
      (output (longPieces (2 ^ 31 - 1))).length = 2 ^ 31 ∧
      ∃ fuel mem', vsprintf fuel (longMemory (2 ^ 31 - 1)) (2 ^ 32) longFormat (fun _ => 1) =
        .ok (-2 ^ 31, mem') := by
  have hn : 2 ^ 31 - 1 < 2 ^ 31 := by decide
  have hlength : (output (longPieces (2 ^ 31 - 1))).length = 2 ^ 31 := length_longPieces _
  have hwraps : toInt32 ((2 ^ 31 : Nat) : Int) = -2 ^ 31 := by decide
  obtain ⟨fuel, mem', hrun, -, -⟩ := (longMatching hn).prints
  rw [hlength, hwraps] at hrun
  exact ⟨longMatching hn, hlength, fuel, mem', hrun⟩

end Dreamos64
