import Dreamos64.Libc.Numerals

/-!
# Dreamos64 — formatted output

`vsprintf` of `stdio.c`, with `strnlen` and `skip_atoi`. The format is a string of its own,
which the output does not change; to read it past its NUL is out of bounds. The arguments are
words, one for each `va_arg`, and the output goes to the memory that the arguments of `%s` are
read from.

A directive is `%`, a precision that may be missing, and one character more. The loop goes on
behind that character without a look at it, so a format may not end before it.

* `vsprintfBody_literal`, `vsprintfBody_directive` — one turn of the loop;
* `vsprintf_returns_iff` — the formats that are not read past their NUL.
-/

namespace Dreamos64

open Machine Cursor

/-! ## `stdio.c` -/

/-- `strnlen`: the loop of `strlen`, for at most `count` turns. -/
def strnlen (s : CharPtr) (count : Nat) : Nat := strlenFrom s count 0

def isDigit (c : UInt8) : Bool := 48 ≤ c && c ≤ 57

/-- `*fmt`. -/
def formatChar (format : CString) (fmt : Nat) : Exec UInt8 :=
  if fmt ≤ format.strlen then .ok (format.bytes fmt) else .error .outOfBounds

/-- The loop of `skip_atoi`: the number so far, and where it reads. -/
def skipAtoiBody (format : CString) (s : Int × Nat) : Exec (LoopStep (Int × Nat) (Int × Nat)) := do
  let c ← formatChar format s.2
  if isDigit c then .ok (.next (toInt32 (s.1 * 10 + c.toNat - 48), s.2 + 1)) else .ok (.done s)

/-- `skip_atoi`: the number and where it ends. There are not more digits than characters. -/
def skipAtoi (format : CString) (fmt : Nat) : Exec (Int × Nat) :=
  loop (skipAtoiBody format) (format.strlen + 1) (0, fmt)

/-- The precision of a directive, -1 if there is none, and what it is followed by. -/
def readPrecision (format : CString) (fmt : Nat) : Exec (Int × Nat) := do
  let c ← formatChar format fmt
  if c = 46 then
    let (precision, fmt) ← skipAtoi format (fmt + 1)
    .ok (if precision < 0 then 0 else precision, fmt)
  else .ok (-1, fmt)

/-- The cases of the `switch`. -/
inductive Conversion where
  | d | u | x | X | o | c | s
  deriving DecidableEq, Repr

/-- The character of a case. -/
def Conversion.char : Conversion → UInt8
  | .d => 100
  | .u => 117
  | .x => 120
  | .X => 88
  | .o => 111
  | .c => 99
  | .s => 115

/-- The case of a character. -/
def Conversion.ofChar (c : UInt8) : Option Conversion :=
  [Conversion.d, .u, .x, .X, .o, .c, .s].find? fun conversion => conversion.char = c

/-- One case: the characters it writes at `str`, how many they are, from the argument. A `count`
of -1 is the largest `size_t`, and `str_len` is an `int`. -/
def Conversion.write (conversion : Conversion) (arg : UInt64) (precision : Int) (mem : Memory)
    (str : Int) : Exec (Nat × Memory) :=
  let number := fun result : Nat × CharPtr => (result.1, patch mem str result.2)
  match conversion with
  | .d => number <$> getDecString (mem.ptr str) arg.toUInt32.toInt32.toInt64
  | .u => number <$> getUnsignedDecString (mem.ptr str) arg.toUInt32.toUInt64
  | .x => .ok (number (getHexString (mem.ptr str) arg false))
  | .X => .ok (number (getHexString (mem.ptr str) arg true))
  | .o => number <$> getNumericString (mem.ptr str) arg 8 false
  | .c => .ok (1, Function.update mem str arg.toUInt8)
  | .s =>
    let strLen := toInt32 (strnlen (mem.ptr arg.toNat) (precision % 2 ^ 64).toNat)
    .ok (strLen.toNat, ByteCopy.copyUp mem str arg.toNat strLen.toNat)

/-- The variables of `vsprintf`: where it reads the format, how many arguments it has taken, and
where it writes to. -/
structure FormatState where
  fmt  : Nat
  args : Nat
  str  : Int
  mem  : Memory

/-- The `switch`; other characters have no case. -/
def formatSwitch (args : Nat → UInt64) (c : UInt8) (precision : Int) (s : FormatState) :
    Exec FormatState :=
  match Conversion.ofChar c with
  | none => .ok s
  | some conversion => do
    let (size, mem) ← conversion.write (args s.args) precision s.mem s.str
    .ok { s with args := s.args + 1, str := s.str + size, mem := mem }

/-- One turn of the loop of `vsprintf`. The result is an `int`. -/
def vsprintfBody (format : CString) (args : Nat → UInt64) (buffer : Int) (s : FormatState) :
    Exec (LoopStep FormatState (Int × Memory)) := do
  let c ← formatChar format s.fmt
  if c = 0 then .ok (.done (toInt32 (s.str - buffer), Function.update s.mem s.str 0))
  else if c ≠ 37 then
    .ok (.next { s with fmt := s.fmt + 1, str := s.str + 1, mem := Function.update s.mem s.str c })
  else
    let (precision, fmt) ← readPrecision format (s.fmt + 1)
    let c ← formatChar format fmt
    let s ← formatSwitch args c precision s
    .ok (.next { s with fmt := fmt + 1 })

def vsprintf (fuel : Nat) (mem : Memory) (buffer : Int) (format : CString) (args : Nat → UInt64) :
    Exec (Int × Memory) :=
  loop (vsprintfBody format args buffer) fuel ⟨0, 0, buffer, mem⟩

/-- `strnlen` of a string. -/
theorem strnlen_eq {str : CharPtr} {text : List UInt8} (h : Reads str text) (count : Nat) :
    strnlen str count = min text.length count := by
  have hfrom : ∀ count i, i ≤ text.length →
      strlenFrom str count i = min text.length (i + count) := by
    intro count
    induction count with
    | zero =>
      intro i hi
      show i = _
      omega
    | succ count ih =>
      intro i hi
      unfold strlenFrom
      by_cases hend : i = text.length
      · rw [if_neg (not_not_intro (hend ▸ h.nul))]
        omega
      · have hlt : i < text.length := by omega
        obtain ⟨hread, hne⟩ := h.char i _ (List.getElem?_eq_getElem hlt)
        rw [if_pos (hread ▸ hne), ih (i + 1) hlt]
        congr 1
        omega
  have hzero := hfrom count 0 (Nat.zero_le _)
  rwa [Nat.zero_add] at hzero

/-! ## Reading the format -/

section Format

variable {format : CString} {before after : List UInt8}

/-- A character of the format. -/
theorem formatChar_cons {c : UInt8} (h : format.chars = before ++ c :: after) :
    formatChar format before.length = .ok c ∧ c ≠ 0 := by
  have hget : format.chars[before.length]? = some c := by
    rw [h, List.getElem?_append_right (Nat.le_refl _), Nat.sub_self]
    rfl
  have hlt := (List.getElem?_eq_some_iff.mp hget).1
  rw [format.length_chars] at hlt
  obtain ⟨hread, hne⟩ := format.reads.char _ c hget
  refine ⟨?_, hne⟩
  rw [formatChar, if_pos (Nat.le_of_lt hlt), hread]

/-- Its NUL. -/
theorem formatChar_end (h : format.chars = before) : formatChar format before.length = .ok 0 := by
  have hnul := format.reads.nul
  rw [h] at hnul
  rw [formatChar, if_pos (by rw [← h, format.length_chars]), hnul]

/-- What is behind. -/
theorem formatChar_beyond {fmt : Nat} (h : format.chars.length < fmt) :
    formatChar format fmt = .error .outOfBounds := by
  rw [format.length_chars] at h
  exact if_neg (by omega)

/-- One character further. -/
theorem split_char {c : UInt8} (h : format.chars = before ++ c :: after) :
    format.chars = before ++ [c] ++ after := by
  rw [h, List.append_assoc]
  rfl

/-- At the character of a directive, behind its precision. -/
theorem split_directive {text : List UInt8} (h : format.chars = before ++ 37 :: (text ++ after)) :
    format.chars = before ++ 37 :: text ++ after := by
  rw [h, List.append_assoc]
  rfl

end Format

/-! ## Precisions -/

/-- The text of a precision, which may be missing. -/
def precisionText : Option (List UInt8) → List UInt8
  | none => []
  | some digits => 46 :: digits

/-- A number and one more digit. -/
def decimalStep (n : Int) (c : UInt8) : Int := n * 10 + (c.toNat - 48)

/-- The number that some digits stand for. -/
def decimalValue (digits : List UInt8) : Int := positionalValue (fun c => c.toNat - 48) 10 digits

/-- The value of a precision for `vsprintf`. -/
def precisionValue : Option (List UInt8) → Int
  | none => -1
  | some digits =>
    let precision := toInt32 (decimalValue digits)
    if precision < 0 then 0 else precision

/-- A precision of digits ends where the text goes on. -/
def PrecisionEnds (after : List UInt8) : Option (List UInt8) → Prop
  | none => ∀ c, after.head? = some c → c ≠ 46
  | some digits => (∀ d ∈ digits, isDigit d) ∧ ∀ c, after.head? = some c → ¬ isDigit c

section Precision

variable {format : CString} {before after : List UInt8}

/-- There is a precision before every text. -/
theorem exists_precision (l : List UInt8) :
    ∃ precision after, l = precisionText precision ++ after ∧ PrecisionEnds after precision := by
  by_cases hdot : l.head? = some 46
  · obtain ⟨rest, rfl⟩ : ∃ rest, l = 46 :: rest := List.head?_eq_some_iff.mp hdot
    refine ⟨some (rest.takeWhile isDigit), rest.dropWhile isDigit, ?_, ?_, ?_⟩
    · exact congrArg (46 :: ·) List.takeWhile_append_dropWhile.symm
    · exact List.all_eq_true.mp List.all_takeWhile
    · intro c hc
      have hnot := List.head?_dropWhile_not isDigit rest
      rw [hc] at hnot
      simpa using hnot
  · refine ⟨none, l, rfl, fun c hc heq => hdot ?_⟩
    rw [hc, heq]

/-- A wrapped number and one more digit. -/
theorem toInt32_digit (n : Int) (c : UInt8) :
    toInt32 (toInt32 n * 10 + c.toNat - 48) = toInt32 (decimalStep n c) := by
  obtain ⟨k, hk⟩ := toInt32_spec n
  unfold decimalStep
  rw [← toInt32_add_mul (n * 10 + (c.toNat - 48)) (k * 10), hk]
  congr 1
  omega

/-- What a turn of `skip_atoi` reads where the digits end. -/
theorem formatChar_ends (h : format.chars = before ++ after)
    (hafter : ∀ c, after.head? = some c → ¬ isDigit c) :
    ∃ c, formatChar format before.length = .ok c ∧ ¬ isDigit c := by
  cases after with
  | nil =>
    rw [List.append_nil] at h
    exact ⟨0, formatChar_end h, by decide⟩
  | cons c after => exact ⟨c, (formatChar_cons h).1, hafter c rfl⟩

/-- The loop of `skip_atoi` over the digits that are left. -/
theorem skipAtoi_loop {digits : List UInt8} (h : format.chars = before ++ (digits ++ after))
    (hdigits : ∀ d ∈ digits, isDigit d) (hafter : ∀ c, after.head? = some c → ¬ isDigit c)
    (n : Int) {fuel : Nat} (hfuel : digits.length < fuel) :
    loop (skipAtoiBody format) fuel (toInt32 n, before.length) =
      .ok (toInt32 (digits.foldl decimalStep n), before.length + digits.length) := by
  obtain ⟨fuel, rfl⟩ : ∃ k, fuel = k + 1 := ⟨fuel - 1, by omega⟩
  -- on the digits, with the number so far wrapped to an `int`
  induction digits generalizing before n fuel with
  | nil =>
    obtain ⟨c, hread, hc⟩ := formatChar_ends h hafter
    refine loop_done ?_
    unfold skipAtoiBody
    rw [hread, ok_bind, if_neg hc]
    rfl
  | cons d digits ih =>
    have hread := (formatChar_cons h).1
    have hturn : skipAtoiBody format (toInt32 n, before.length) =
        .ok (.next (toInt32 (decimalStep n d), (before ++ [d]).length)) := by
      unfold skipAtoiBody
      rw [hread, ok_bind, if_pos (hdigits d List.mem_cons_self), toInt32_digit,
        List.length_append]
      rfl
    rw [List.length_cons] at hfuel
    obtain ⟨fuel, rfl⟩ : ∃ k, fuel = k + 1 := ⟨fuel - 1, by omega⟩
    rw [loop_next hturn, ih (split_char h)
      (fun e he => hdigits e (List.mem_cons_of_mem d he)) _ fuel
      (by omega), List.foldl_cons, List.length_append, List.length_singleton, List.length_cons,
      Nat.add_right_comm, Nat.add_assoc]

/-- **The precision** of a directive is read to its end. -/
theorem readPrecision_eq {precision : Option (List UInt8)}
    (h : format.chars = before ++ (precisionText precision ++ after))
    (hends : PrecisionEnds after precision) :
    readPrecision format before.length =
      .ok (precisionValue precision, (before ++ precisionText precision).length) := by
  unfold readPrecision
  cases precision with
  | none =>
    obtain ⟨c, hread, hc⟩ : ∃ c, formatChar format before.length = .ok c ∧ c ≠ 46 := by
      cases after with
      | nil => exact ⟨0, formatChar_end (h.trans (List.append_nil _)), by decide⟩
      | cons c after => exact ⟨c, (formatChar_cons h).1, hends c rfl⟩
    rw [hread, ok_bind, if_neg hc]
    show _ = Except.ok (_, (before ++ []).length)
    rw [List.append_nil]
    rfl
  | some digits =>
    -- the digits are behind the dot, and there are less of them than characters
    have hfuel : digits.length < format.strlen + 1 := by
      rw [← format.length_chars, h, List.length_append, List.length_append]
      show digits.length < before.length + (digits.length + 1 + after.length) + 1
      omega
    have hskip : skipAtoi format (before ++ [46]).length =
        .ok (toInt32 (decimalValue digits), (before ++ [46]).length + digits.length) :=
      skipAtoi_loop (split_char h) hends.1 hends.2 0 hfuel
    rw [← List.length_append, List.append_assoc, List.length_append, List.length_singleton] at hskip
    rw [(formatChar_cons h).1, ok_bind, if_pos rfl, hskip]
    rfl

end Precision

/-! ## Turns -/

section Turns

variable {format : CString} {args : Nat → UInt64} {buffer : Int} {s : FormatState}
  {before after : List UInt8}

theorem ofChar_char (conversion : Conversion) :
    Conversion.ofChar conversion.char = some conversion := by
  cases conversion <;> rfl

/-- What a case other than that of strings writes. -/
def Conversion.expansion (arg : UInt64) : Conversion → List UInt8
  | .d => signedNumeral arg.toUInt32.toInt32.toInt
  | .u => numeral 10 false arg.toUInt32.toNat
  | .x => numeral 16 false arg.toNat
  | .X => numeral 16 true arg.toNat
  | .o => numeral 8 false arg.toNat
  | .c => [arg.toUInt8]
  | .s => []

/-- A function that writes a number at `str`. -/
theorem number_wrote {mem : Memory} {str : Int} {run : Exec (Nat × CharPtr)} {l : List UInt8}
    (h : ∃ text, run = .ok (l.length, text) ∧ Puts (mem.ptr str) text l) :
    ∃ mem', (fun result : Nat × CharPtr => (result.1, patch mem str result.2)) <$> run =
        .ok (l.length, mem') ∧
      Wrote mem mem' str l := by
  obtain ⟨text, rfl, hputs⟩ := h
  exact ⟨_, rfl, hputs.wrote⟩

/-- **The cases other than that of strings.** -/
theorem Conversion.write_expansion (conversion : Conversion) (hs : conversion ≠ .s) (arg : UInt64)
    (precision : Int) (mem : Memory) (str : Int) :
    ∃ mem', conversion.write arg precision mem str =
        .ok ((conversion.expansion arg).length, mem') ∧
      Wrote mem mem' str (conversion.expansion arg) := by
  cases conversion with
  | d =>
    have hputs := getDecString_puts (mem.ptr str) arg.toUInt32.toInt32.toInt64
    rw [Int32.toInt_toInt64] at hputs
    exact number_wrote hputs
  | u =>
    have hputs := getUnsignedDecString_puts (mem.ptr str) arg.toUInt32.toUInt64
    rw [UInt32.toNat_toUInt64] at hputs
    exact number_wrote hputs
  | x =>
    obtain ⟨hsize, hputs⟩ := getHexString_puts (mem.ptr str) arg false
    exact number_wrote ⟨_, congrArg (fun size => Except.ok (size, _)) hsize, hputs⟩
  | X =>
    obtain ⟨hsize, hputs⟩ := getHexString_puts (mem.ptr str) arg true
    exact number_wrote ⟨_, congrArg (fun size => Except.ok (size, _)) hsize, hputs⟩
  | o =>
    have hlow : (2 : Int) ≤ 8 := by decide
    exact number_wrote (getNumericString_puts hlow (by decide) (mem.ptr str) arg false)
  | c => exact ⟨_, rfl, wrote_update mem str _⟩
  | s => exact absurd rfl hs

/-- A case always comes to its end. -/
theorem Conversion.write_ok (conversion : Conversion) (arg : UInt64) (precision : Int)
    (mem : Memory) (str : Int) : ∃ result, conversion.write arg precision mem str = .ok result := by
  by_cases hs : conversion = .s
  · rw [hs]
    exact ⟨_, rfl⟩
  · obtain ⟨mem', hwrite, -⟩ := conversion.write_expansion hs arg precision mem str
    exact ⟨_, hwrite⟩

/-- The `switch` at the character of a case. -/
theorem formatSwitch_char {conversion : Conversion} {precision : Int} {size : Nat} {mem' : Memory}
    (h : conversion.write (args s.args) precision s.mem s.str = .ok (size, mem')) :
    formatSwitch args conversion.char precision s =
      .ok { s with args := s.args + 1, str := s.str + size, mem := mem' } := by
  unfold formatSwitch
  rw [ofChar_char]
  dsimp only
  rw [h]
  rfl

theorem formatSwitch_ok (args : Nat → UInt64) (c : UInt8) (precision : Int) (s : FormatState) :
    ∃ s', formatSwitch args c precision s = .ok s' := by
  unfold formatSwitch
  split
  · exact ⟨s, rfl⟩
  · next conversion hcase =>
    obtain ⟨result, hwrite⟩ := conversion.write_ok (args s.args) precision s.mem s.str
    rw [hwrite]
    exact ⟨_, rfl⟩

/-- The turn at the NUL. -/
theorem vsprintfBody_end (h : format.chars = before) (hfmt : s.fmt = before.length) :
    vsprintfBody format args buffer s =
      .ok (.done (toInt32 (s.str - buffer), Function.update s.mem s.str 0)) := by
  unfold vsprintfBody
  rw [hfmt, formatChar_end h, ok_bind, if_pos rfl]

/-- A turn that copies a character. -/
theorem vsprintfBody_literal {c : UInt8} (h : format.chars = before ++ c :: after)
    (hc : c ≠ 37) (hfmt : s.fmt = before.length) :
    vsprintfBody format args buffer s =
      .ok (.next ⟨(before ++ [c]).length, s.args, s.str + 1, Function.update s.mem s.str c⟩) := by
  obtain ⟨hread, hne⟩ := formatChar_cons h
  unfold vsprintfBody
  rw [hfmt, hread, ok_bind, if_neg hne, if_pos hc, List.length_append]
  rfl

/-- A turn over a directive, whatever character it has behind the precision. -/
theorem vsprintfBody_percent {precision : Option (List UInt8)} {c : UInt8} {s' : FormatState}
    (h : format.chars = before ++ 37 :: (precisionText precision ++ after))
    (hends : PrecisionEnds after precision) (hfmt : s.fmt = before.length)
    (hread : formatChar format (before ++ 37 :: precisionText precision).length = .ok c)
    (hswitch : formatSwitch args c (precisionValue precision) s = .ok s') :
    vsprintfBody format args buffer s =
      .ok (.next { s' with fmt := (before ++ 37 :: precisionText precision).length + 1 }) := by
  obtain ⟨hpercent, hne⟩ := formatChar_cons h
  -- the dot is looked for right behind the percent sign
  have hprecision := readPrecision_eq (split_char h) hends
  rw [List.append_assoc, List.length_append, List.length_singleton] at hprecision
  unfold vsprintfBody
  rw [hfmt, hpercent, ok_bind, if_neg hne, if_neg (not_not_intro rfl), hprecision, ok_bind]
  show (formatChar format (before ++ 37 :: precisionText precision).length >>= _) = _
  rw [hread, ok_bind, hswitch]
  rfl

/-- A turn over a directive that the format does not end in. -/
theorem vsprintfBody_directive {precision : Option (List UInt8)} {c : UInt8} {s' : FormatState}
    (h : format.chars = before ++ 37 :: (precisionText precision ++ c :: after))
    (hends : PrecisionEnds (c :: after) precision) (hfmt : s.fmt = before.length)
    (hswitch : formatSwitch args c (precisionValue precision) s = .ok s') :
    vsprintfBody format args buffer s =
      .ok (.next { s' with fmt := (before ++ 37 :: precisionText precision ++ [c]).length }) := by
  have hread := (formatChar_cons (split_directive h)).1
  have hlength : (before ++ 37 :: precisionText precision ++ [c]).length =
      (before ++ 37 :: precisionText precision).length + 1 := List.length_append
  rw [vsprintfBody_percent h hends hfmt hread hswitch, hlength]

/-- The turn over a directive that the format ends in goes past the NUL. -/
theorem vsprintfBody_unfinished {precision : Option (List UInt8)}
    (h : format.chars = before ++ 37 :: precisionText precision)
    (hends : PrecisionEnds [] precision) (hfmt : s.fmt = before.length) :
    vsprintfBody format args buffer s =
      .ok (.next { s with fmt := format.chars.length + 1 }) := by
  have hsplit : format.chars = before ++ 37 :: (precisionText precision ++ []) := by
    rw [h, List.append_nil]
  rw [vsprintfBody_percent hsplit hends hfmt (formatChar_end h) rfl, ← h]

/-- The turn after that. -/
theorem vsprintfBody_beyond (h : format.chars.length < s.fmt) :
    vsprintfBody format args buffer s = .error .outOfBounds := by
  unfold vsprintfBody
  rw [formatChar_beyond h]
  rfl

end Turns

/-! ## Formats that end -/

/-- A format that does not end inside of a directive. -/
inductive Finished : List UInt8 → Prop
  | nil : Finished []
  | literal {c : UInt8} {rest : List UInt8} (hc : c ≠ 37) (h : Finished rest) :
      Finished (c :: rest)
  | directive {precision : Option (List UInt8)} {c : UInt8} {rest : List UInt8}
      (hends : PrecisionEnds (c :: rest) precision) (h : Finished rest) :
      Finished (37 :: (precisionText precision ++ c :: rest))

section Finished

variable {format : CString} {args : Nat → UInt64} {buffer : Int} {s : FormatState}
  {before after : List UInt8}

/-- What is left of a format that does not end in a directive is read to the NUL. -/
theorem Finished.loop_returns (hfinished : Finished after) (h : format.chars = before ++ after)
    (hfmt : s.fmt = before.length) :
    ∃ fuel result, loop (vsprintfBody format args buffer) fuel s = .ok result := by
  induction hfinished generalizing before s with
  | nil =>
    rw [List.append_nil] at h
    exact ⟨1, _, loop_done (vsprintfBody_end h hfmt)⟩
  | @literal c rest hc _ ih =>
    obtain ⟨fuel, result, hrun⟩ := ih (split_char h)
      (s := ⟨_, s.args, s.str + 1, Function.update s.mem s.str c⟩) rfl
    exact ⟨fuel + 1, result, (loop_next (vsprintfBody_literal h hc hfmt)).trans hrun⟩
  | @directive precision c rest hends _ ih =>
    have hsplit := split_char (split_directive h)
    -- no character makes the `switch` stop, so the loop goes on behind it
    obtain ⟨s', hswitch⟩ := formatSwitch_ok args c (precisionValue precision) s
    obtain ⟨fuel, result, hrun⟩ := ih hsplit (s := { s' with fmt := _ }) rfl
    exact ⟨fuel + 1, result,
      (loop_next (vsprintfBody_directive h hends hfmt hswitch)).trans hrun⟩

/-- What is left of a format that is read to its NUL does not end in a directive. -/
theorem finished_of_returns (h : format.chars = before ++ after) (hfmt : s.fmt = before.length)
    {fuel : Nat} {result : Int × Memory}
    (hrun : loop (vsprintfBody format args buffer) fuel s = .ok result) : Finished after := by
  -- on the fuel: the loop may go on for long behind the NUL, but not in one more turn
  induction fuel generalizing before after s with
  | zero => cases hrun
  | succ fuel ih =>
    cases after with
    | nil => exact .nil
    | cons c rest =>
      by_cases hc : c = 37
      · subst hc
        obtain ⟨precision, after, rfl, hends⟩ := exists_precision rest
        cases after with
        | nil =>
          -- the next turn reads behind the NUL
          rw [List.append_nil] at h
          rw [loop_next (vsprintfBody_unfinished h hends hfmt)] at hrun
          cases fuel with
          | zero => cases hrun
          | succ fuel =>
            rw [loop_succ, vsprintfBody_beyond (Nat.lt_succ_self _)] at hrun
            cases hrun
        | cons c rest =>
          have hsplit := split_char (split_directive h)
          obtain ⟨s', hswitch⟩ := formatSwitch_ok args c (precisionValue precision) s
          rw [loop_next (vsprintfBody_directive h hends hfmt hswitch)] at hrun
          exact .directive hends (ih hsplit rfl hrun)
      · rw [loop_next (vsprintfBody_literal h hc hfmt)] at hrun
        exact .literal hc (ih (split_char h) rfl hrun)

/-- **The formats that are not read past their NUL**: those that do not end inside of a
directive. For all arguments, all contents of the memory and every buffer, `vsprintf` returns
after it has read nothing behind the NUL if and only if the format is one of them. -/
theorem vsprintf_returns_iff (mem : Memory) (buffer : Int) (format : CString)
    (args : Nat → UInt64) :
    (∃ fuel result, vsprintf fuel mem buffer format args = .ok result) ↔
      Finished format.chars := by
  have hstart : format.chars = [] ++ format.chars := rfl
  constructor
  · rintro ⟨fuel, result, hrun⟩
    exact finished_of_returns hstart rfl hrun
  · intro hfinished
    exact hfinished.loop_returns hstart rfl

/-- A format that ends in `%` is read past its NUL. -/
theorem vsprintf_lone_percent :
    (CString.ofChars ['%']).chars = [37] ∧
      vsprintf 2 (fun _ => 0) 0x1000 (CString.ofChars ['%']) (fun _ => 0) =
        .error .outOfBounds :=
  ⟨by decide, rfl⟩

end Finished

end Dreamos64
