import Mathlib.Algebra.GroupWithZero.Nat
import Mathlib.Data.List.GetD
import Mathlib.Tactic.Common

/-!
# Dreamos64 — C strings

`strlen`, `strcmp` and `strncmp` of `libc/string.c`. A `char *` is what it reads, the byte at
each offset from it; a `CString` is one with a NUL somewhere, which is what makes
`strlen` end. A pointer may be moved past the NUL, and then reads whatever follows.

* `strlen_spec`    — `strlen` is the offset of the first NUL;
* `Reads`          — what a pointer reads as a string;
* `strcmp_zero`, `strncmp_prefix` — when two strings compare as equal, to the end or for the
  length of the second;
* `string_comparison` — the order that they compare strings in.
-/

namespace Dreamos64

/-- What a `char *` reads: the byte at each offset from it. -/
abbrev CharPtr := Nat → UInt8

/-- The byte at each address. Addresses are integers, so that what is subtracted from one may
lead anywhere. -/
abbrev Memory := Int → UInt8

/-- What a `char *` with the value `a` reads. -/
def Memory.ptr (mem : Memory) (a : Int) : CharPtr := fun i => mem (a + i)

/-- The string at an address of 64 bits. -/
def stringAt (memory : Nat → UInt8) (address : Nat) : CharPtr :=
  fun i => memory ((address + i) % 2 ^ 64)

/-- `&str[count]`. -/
def CharPtr.add (str : CharPtr) (count : Nat) : CharPtr := fun i => str (count + i)

/-- A string that ends: there is a NUL at `size` or before. -/
structure CString where
  bytes      : CharPtr
  size       : Nat
  terminated : ∃ i ≤ size, bytes i = 0

/-- The string of some bytes, followed by zeros. -/
def CString.ofBytes (l : List UInt8) : CString where
  bytes := fun i => l.getD i 0
  size := l.length
  terminated := ⟨l.length, Nat.le_refl _, List.getD_eq_default _ _ (Nat.le_refl _)⟩

def CString.ofChars (l : List Char) : CString := .ofBytes (l.map fun c => c.toNat.toUInt8)

/-! ## `strlen` -/

/-- `while (str[len] != 0) len++`, for at most `turns` turns. -/
def strlenFrom (str : CharPtr) : Nat → Nat → Nat
  | 0, len => len
  | turns + 1, len => if str len ≠ 0 then strlenFrom str turns (len + 1) else len

def CString.strlen (s : CString) : Nat := strlenFrom s.bytes s.size 0

theorem strlenFrom_spec (str : CharPtr) {turns len k : Nat} (hlen : len ≤ k)
    (hturns : k ≤ len + turns) (hnul : str k = 0) :
    str (strlenFrom str turns len) = 0 ∧
      ∀ i, len ≤ i → i < strlenFrom str turns len → str i ≠ 0 := by
  induction turns generalizing len with
  | zero =>
    have heq : len = k := by omega
    subst heq
    exact ⟨hnul, fun i hle hlt => absurd hlt (Nat.not_lt.mpr hle)⟩
  | succ turns ih =>
    unfold strlenFrom
    split
    · next hne =>
      have hlt : len < k := by
        rcases Nat.lt_or_eq_of_le hlen with hlt | heq
        · exact hlt
        · exact absurd (heq ▸ hnul) hne
      obtain ⟨hzero, hbefore⟩ := ih hlt (by omega)
      refine ⟨hzero, fun i hle hi => ?_⟩
      rcases Nat.lt_or_eq_of_le hle with hlt | heq
      · exact hbefore i hlt hi
      · exact heq ▸ hne
    · next hzero =>
      exact ⟨not_not.mp hzero, fun i hle hlt => absurd hlt (Nat.not_lt.mpr hle)⟩

/-- `strlen` finds the first NUL. -/
theorem CString.strlen_spec (s : CString) :
    s.bytes s.strlen = 0 ∧ ∀ i < s.strlen, s.bytes i ≠ 0 := by
  obtain ⟨k, hk, hnul⟩ := s.terminated
  have hturns : k ≤ 0 + s.size := by omega
  obtain ⟨hzero, hbefore⟩ := strlenFrom_spec s.bytes (Nat.zero_le k) hturns hnul
  exact ⟨hzero, fun i hi => hbefore i (Nat.zero_le i) hi⟩

theorem CString.strlen_le_size (s : CString) : s.strlen ≤ s.size := by
  obtain ⟨k, hk, hnul⟩ := s.terminated
  by_contra hlt
  exact s.strlen_spec.2 k (by omega) hnul

/-- What is before the NUL. -/
def CString.chars (s : CString) : List UInt8 := (List.range s.strlen).map s.bytes

/-- The string at `str` is `l`. -/
structure Reads (str : CharPtr) (l : List UInt8) : Prop where
  char : ∀ i c, l[i]? = some c → str i = c ∧ c ≠ 0
  nul  : str l.length = 0

theorem CString.length_chars (s : CString) : s.chars.length = s.strlen := by
  rw [CString.chars, List.length_map, List.length_range]

theorem CString.getElem?_chars (s : CString) {i : Nat} (hi : i < s.strlen) :
    s.chars[i]? = some (s.bytes i) := by
  rw [CString.chars, List.getElem?_map, List.getElem?_range hi, Option.map_some]

theorem CString.reads (s : CString) : Reads s.bytes s.chars where
  char := fun i c hi => by
    have hlt : i < s.strlen := s.length_chars ▸ (List.getElem?_eq_some_iff.mp hi).1
    rw [s.getElem?_chars hlt] at hi
    cases hi
    exact ⟨rfl, s.strlen_spec.2 i hlt⟩
  nul := by
    rw [s.length_chars]
    exact s.strlen_spec.1

/-- The empty string starts with its NUL. -/
theorem CString.chars_eq_nil (s : CString) : s.chars = [] ↔ s.bytes 0 = 0 := by
  obtain ⟨hnul, hchar⟩ := s.strlen_spec
  rw [← List.length_eq_zero_iff, s.length_chars]
  constructor
  · intro hzero
    rwa [hzero] at hnul
  · intro hfirst
    by_contra hne
    exact hchar 0 (Nat.pos_of_ne_zero hne) hfirst

section Reads

variable {str str' : CharPtr} {l l' : List UInt8}

/-- A pointer reads one string: the NUL of one is no character of the other. -/
theorem Reads.length_le (h : Reads str l) (h' : Reads str l') : l.length ≤ l'.length := by
  by_contra hlt
  have hin : l'.length < l.length := by omega
  obtain ⟨hchar, hne⟩ := h.char _ _ (List.getElem?_eq_getElem hin)
  exact hne (hchar.symm.trans h'.nul)

theorem Reads.unique (h : Reads str l) (h' : Reads str l') : l = l' := by
  have hlength : l.length = l'.length := Nat.le_antisymm (h.length_le h') (h'.length_le h)
  -- both are what the pointer reads, character by character
  refine List.ext_getElem hlength fun i hi hi' => ?_
  rw [← (h.char i _ (List.getElem?_eq_getElem hi)).1,
    ← (h'.char i _ (List.getElem?_eq_getElem hi')).1]

/-- A string is read wherever its characters and its NUL are. -/
theorem Reads.congr (h : Reads str l) (heq : ∀ i ≤ l.length, str' i = str i) : Reads str' l where
  char := fun i c hi => by
    have hlt := (List.getElem?_eq_some_iff.mp hi).1
    rw [heq i (Nat.le_of_lt hlt)]
    exact h.char i c hi
  nul := by rw [heq _ (Nat.le_refl _), h.nul]

/-- A pointer into a string reads what is left of it. -/
theorem CString.reads_add (str : CString) {before after : List UInt8}
    (h : str.chars = before ++ after) : Reads (str.bytes.add before.length) after where
  char := fun i c hi => by
    refine str.reads.char _ c ?_
    rw [h, List.getElem?_append_right (Nat.le_add_right _ _), Nat.add_sub_cancel_left]
    exact hi
  nul := by
    have hnul := str.reads.nul
    rwa [h, List.length_append] at hnul

theorem reads_nil (str : CharPtr) : Reads str [] ↔ str 0 = 0 := by
  constructor
  · exact fun h => h.nul
  · exact fun h => { char := fun i c hi => (Option.some_ne_none c hi.symm).elim, nul := h }

theorem Reads.cons {str : CharPtr} {c : UInt8} {l : List UInt8} (hc : c ≠ 0) (hfirst : str 0 = c)
    (h : Reads (str.add 1) l) : Reads str (c :: l) where
  char := fun i d hd => by
    cases i with
    | zero =>
      cases hd
      exact ⟨hfirst, hc⟩
    | succ i =>
      have hnext := h.char i d hd
      unfold CharPtr.add at hnext
      rwa [Nat.add_comm] at hnext
  nul := by
    have hnul := h.nul
    unfold CharPtr.add at hnul
    rwa [Nat.add_comm] at hnul

end Reads

/-! ## `strcmp` and `strncmp` -/

/-- Where the loop of `strncmp` stops, with `n` turns left from `i` on. -/
def strncmpFrom (s1 s2 : CharPtr) : Nat → Nat → Nat
  | 0, i => i
  | n + 1, i => if s1 i ≠ 0 ∧ s1 i = s2 i then strncmpFrom s1 s2 n (i + 1) else i

def strncmp (s1 s2 : CharPtr) (n : Nat) : Int :=
  if n = 0 then 0
  else
    let i := strncmpFrom s1 s2 (n - 1) 0
    let ret : Int := (s1 i).toNat - (s2 i).toNat
    if ret < 0 then -1 else if ret > 0 then 1 else 0

/-- `strcmp`; the loop goes no further than the NUL of `s1`. -/
def strcmp (s1 : CString) (s2 : CharPtr) : Int :=
  let i := strncmpFrom s1.bytes s2 s1.size 0
  let ret : Int := (s1.bytes i).toNat - (s2 i).toNat
  if ret < 0 then -1 else if ret > 0 then 1 else 0

section Compare

variable {s1 s2 : CharPtr}

/-- Up to where the loop stops, the strings are the same; and it stops for a reason. -/
theorem strncmpFrom_spec (s1 s2 : CharPtr) (n i : Nat) :
    i ≤ strncmpFrom s1 s2 n i ∧ strncmpFrom s1 s2 n i ≤ i + n ∧
      (∀ j, i ≤ j → j < strncmpFrom s1 s2 n i → s1 j ≠ 0 ∧ s1 j = s2 j) ∧
      (strncmpFrom s1 s2 n i < i + n →
        s1 (strncmpFrom s1 s2 n i) ≠ 0 →
          s1 (strncmpFrom s1 s2 n i) ≠ s2 (strncmpFrom s1 s2 n i)) := by
  induction n generalizing i with
  | zero =>
    unfold strncmpFrom
    exact ⟨Nat.le_refl _, Nat.le_refl _, fun j hle hlt => absurd hlt (Nat.not_lt.mpr hle),
      fun hlt => absurd hlt (Nat.lt_irrefl i)⟩
  | succ n ih =>
    unfold strncmpFrom
    -- a turn that goes on has read the same character twice, and no NUL
    split_ifs with hsame
    · obtain ⟨hle, hge, hbefore, hstop⟩ := ih (i + 1)
      refine ⟨by omega, by omega, fun j hj hlt => ?_, fun hlt => hstop (by omega)⟩
      rcases Nat.lt_or_eq_of_le hj with hj | rfl
      · exact hbefore j hj hlt
      · exact hsame
    · exact ⟨Nat.le_refl _, by omega, fun j hle hlt => absurd hlt (Nat.not_lt.mpr hle),
        fun _ hne heq => hsame ⟨hne, heq⟩⟩

/-- The result is 0 if the characters are the same where the loop stops. -/
theorem compare_zero (a b : UInt8) :
    (if (a.toNat : Int) - b.toNat < 0 then (-1 : Int)
      else if (a.toNat : Int) - b.toNat > 0 then 1 else 0) = 0 ↔ a = b := by
  rw [← UInt8.toNat_inj]
  split_ifs
  · exact iff_of_false (by decide) (by omega)
  · exact iff_of_false (by decide) (by omega)
  · exact iff_of_true rfl (by omega)

/-- **`strcmp`** is 0 if the second string is the first, with its NUL. -/
theorem strcmp_zero (s1 : CString) (s2 : CharPtr) : strcmp s1 s2 = 0 ↔ Reads s2 s1.chars := by
  obtain ⟨hnul, hchar⟩ := s1.strlen_spec
  obtain ⟨-, hge, hbefore, hstop⟩ := strncmpFrom_spec s1.bytes s2 s1.size 0
  unfold strcmp
  dsimp only
  rw [compare_zero]
  generalize strncmpFrom s1.bytes s2 s1.size 0 = i at *
  -- the loop does not pass the NUL
  have hi : i ≤ s1.strlen := by
    by_contra hlt
    exact (hbefore s1.strlen (Nat.zero_le _) (by omega)).1 hnul
  constructor
  · intro hsame
    -- equal characters stop the loop only at the NUL
    have hlast : i = s1.strlen := by
      by_contra hne
      have hlt : i < s1.strlen := by omega
      have hsize := s1.strlen_le_size
      exact hstop (by omega) (hchar i hlt) hsame
    refine s1.reads.congr fun j hj => ?_
    rw [s1.length_chars] at hj
    rcases Nat.lt_or_eq_of_le hj with hj | rfl
    · exact (hbefore j (Nat.zero_le j) (by omega)).2.symm
    · exact hlast ▸ hsame.symm
  · intro hreads
    rcases Nat.lt_or_eq_of_le hi with hlt | rfl
    · exact (hreads.char i _ (s1.getElem?_chars hlt)).1.symm
    · have hlength := hreads.nul
      rw [s1.length_chars] at hlength
      rw [hnul, hlength]

/-- **`strncmp`** with the length of the second string is 0 if the first one begins with it. -/
theorem strncmp_zero (s1 : CharPtr) (s2 : CString) :
    strncmp s1 s2.bytes s2.strlen = 0 ↔ ∀ i < s2.strlen, s1 i = s2.bytes i := by
  obtain ⟨-, hchar⟩ := s2.strlen_spec
  unfold strncmp
  by_cases hzero : s2.strlen = 0
  · rw [if_pos hzero, hzero]
    exact iff_of_true rfl fun i hi => absurd hi (Nat.not_lt_zero i)
  rw [if_neg hzero]
  dsimp only
  rw [compare_zero]
  obtain ⟨-, hge, hbefore, hstop⟩ := strncmpFrom_spec s1 s2.bytes (s2.strlen - 1) 0
  generalize strncmpFrom s1 s2.bytes (s2.strlen - 1) 0 = i at *
  constructor
  · intro hsame
    -- a character of the second string is no NUL, so the loop ran to its end
    have hlast : i = s2.strlen - 1 := by
      by_contra hne
      exact hstop (by omega) (hsame ▸ hchar i (by omega)) hsame
    intro j hj
    rcases Nat.lt_or_eq_of_le (by omega : j ≤ i) with hlt | rfl
    · exact (hbefore j (Nat.zero_le j) hlt).2
    · exact hsame
  -- where the loop stopped the strings are the same, as everywhere before the end
  · intro hall
    exact hall i (by omega)

/-- `strncmp` with the length of a string tells whether it is at the beginning. -/
theorem strncmp_prefix (s m : CString) :
    strncmp s.bytes m.bytes m.strlen = 0 ↔ m.chars <+: s.chars := by
  rw [strncmp_zero, List.prefix_iff_getElem?]
  constructor
  · intro hsame i hi
    rw [m.length_chars] at hi
    -- the NUL of the path is not within the mountpoint
    have hlt : i < s.strlen := by
      by_contra hge
      have hnul := s.strlen_spec.1
      rw [hsame s.strlen (by omega)] at hnul
      exact m.strlen_spec.2 _ (by omega) hnul
    rw [s.getElem?_chars hlt, hsame i hi, ← m.getElem?_chars hi]
    exact List.getElem?_eq_getElem _
  · intro hprefix i hi
    have hlt : i < m.chars.length := by rwa [m.length_chars]
    have hread := hprefix i hlt
    rw [← List.getElem?_eq_getElem hlt, m.getElem?_chars hi] at hread
    have hpath : i < s.strlen := s.length_chars ▸ (List.getElem?_eq_some_iff.mp hread).1
    rw [s.getElem?_chars hpath] at hread
    exact Option.some_inj.mp hread

end Compare

/-! ## The order of strings -/

/-- -1, 0 or 1: whether `a` comes before `b` in the lexicographic order of unsigned bytes, is
neither before nor after it, or comes after it. -/
def lexSign (a b : List UInt8) : Int := if a < b then -1 else if b < a then 1 else 0

theorem lexSign_nil_cons (b : UInt8) (l : List UInt8) : lexSign [] (b :: l) = -1 :=
  if_pos (List.nil_lt_cons b l)

theorem lexSign_cons_nil (a : UInt8) (l : List UInt8) : lexSign (a :: l) [] = 1 := by
  rw [lexSign, if_neg (List.not_lt_nil _), if_pos (List.nil_lt_cons a l)]

theorem lexSign_cons_self (a : UInt8) (l l' : List UInt8) :
    lexSign (a :: l) (a :: l') = lexSign l l' := by
  have hcons : ∀ l l' : List UInt8, a :: l < a :: l' ↔ l < l' := by
    intro l l'
    rw [List.cons_lt_cons_iff]
    exact ⟨fun h => h.elim (fun h => absurd h (UInt8.lt_irrefl a)) And.right,
      fun h => Or.inr ⟨rfl, h⟩⟩
  simp only [lexSign, hcons]

/-- Where the first characters differ they decide. -/
theorem lexSign_cons_ne {a b : UInt8} (hne : a ≠ b) (l l' : List UInt8) :
    lexSign (a :: l) (b :: l') = if a < b then -1 else 1 := by
  have hcons : ∀ {a b : UInt8} {l l' : List UInt8}, a ≠ b → (a :: l < b :: l' ↔ a < b) := by
    intro a b l l' hne
    rw [List.cons_lt_cons_iff]
    exact ⟨fun h => h.elim id fun h => absurd h.1 hne, Or.inl⟩
  simp only [lexSign, hcons hne, hcons (Ne.symm hne)]
  rw [← UInt8.toNat_inj.ne] at hne
  simp only [UInt8.lt_iff_toNat_lt]
  split_ifs
  · rfl
  · rfl
  · omega

/-- The result of a comparison, by the characters where its loop stops. -/
theorem compare_eq (a b : UInt8) :
    (if (a.toNat : Int) - b.toNat < 0 then (-1 : Int)
      else if (a.toNat : Int) - b.toNat > 0 then 1 else 0) =
      if a = b then 0 else if a < b then -1 else 1 := by
  simp only [← UInt8.toNat_inj, UInt8.lt_iff_toNat_lt]
  split_ifs <;> omega

theorem strncmpFrom_add_one (s1 s2 : CharPtr) (n i : Nat) :
    strncmpFrom s1 s2 n (i + 1) = strncmpFrom (s1.add 1) (s2.add 1) n i + 1 := by
  induction n generalizing i with
  | zero => rfl
  | succ n ih =>
    unfold strncmpFrom CharPtr.add
    rw [Nat.add_comm 1 i]
    split_ifs
    · exact ih (i + 1)
    · rfl

/-- Equal characters lead to the rest of the strings. -/
theorem strncmp_same {s1 s2 : CharPtr} (hne : s1 0 ≠ 0) (hsame : s1 0 = s2 0) (n : Nat) :
    strncmp s1 s2 (n + 1) = strncmp (s1.add 1) (s2.add 1) n := by
  unfold strncmp
  rw [if_neg (Nat.succ_ne_zero n), Nat.add_sub_cancel]
  cases n with
  | zero =>
    -- the last character that is compared
    exact (compare_zero (s1 0) (s2 0)).mpr hsame
  | succ n =>
    have hnext : strncmpFrom s1 s2 (n + 1) 0 = 1 + strncmpFrom (s1.add 1) (s2.add 1) n 0 := by
      rw [strncmpFrom, if_pos ⟨hne, hsame⟩, strncmpFrom_add_one, Nat.add_comm]
    rw [hnext, if_neg (Nat.succ_ne_zero n)]
    rfl

/-- A NUL or a difference ends the comparison. -/
theorem strncmp_stop {s1 s2 : CharPtr} (hstop : ¬ (s1 0 ≠ 0 ∧ s1 0 = s2 0)) (n : Nat) :
    strncmp s1 s2 (n + 1) = if s1 0 = s2 0 then 0 else if s1 0 < s2 0 then -1 else 1 := by
  unfold strncmp
  have hfirst : strncmpFrom s1 s2 n 0 = 0 := by
    cases n with
    | zero => rfl
    | succ n => rw [strncmpFrom, if_neg hstop]
  rw [if_neg (Nat.succ_ne_zero n), Nat.add_sub_cancel, hfirst]
  exact compare_eq (s1 0) (s2 0)

theorem Reads.tail {str : CharPtr} {c : UInt8} {l : List UInt8} (h : Reads str (c :: l)) :
    Reads (str.add 1) l where
  char := fun i d hd => by
    unfold CharPtr.add
    rw [Nat.add_comm]
    exact h.char (i + 1) d hd
  nul := by
    unfold CharPtr.add
    rw [Nat.add_comm]
    exact h.nul

/-- `strncmp` is the order of the first `n` characters of the strings. -/
theorem strncmp_lexSign {s1 s2 : CharPtr} {l1 l2 : List UInt8} (h1 : Reads s1 l1)
    (h2 : Reads s2 l2) (n : Nat) : strncmp s1 s2 n = lexSign (l1.take n) (l2.take n) := by
  induction n generalizing s1 s2 l1 l2 with
  | zero => rfl
  | succ n ih =>
    cases l1 with
    | nil =>
      have hnul : s1 0 = 0 := h1.nul
      rw [strncmp_stop fun h => h.1 hnul, hnul, List.take_nil]
      cases l2 with
      | nil =>
        have hnul' : s2 0 = 0 := h2.nul
        rw [hnul', if_pos rfl]
        rfl
      | cons b l2 =>
        obtain ⟨hb, hne⟩ := h2.char 0 b rfl
        rw [hb, if_neg hne.symm, List.take_succ_cons, lexSign_nil_cons,
          if_pos (UInt8.pos_iff_ne_zero.mpr hne)]
    | cons a l1 =>
      obtain ⟨ha, hane⟩ := h1.char 0 a rfl
      cases l2 with
      | nil =>
        have hnul : s2 0 = 0 := h2.nul
        rw [strncmp_stop (fun h => hane (by rw [← ha, h.2, hnul])), ha, hnul, if_neg hane,
          if_neg UInt8.not_lt_zero, List.take_succ_cons, List.take_nil, lexSign_cons_nil]
      | cons b l2 =>
        obtain ⟨hb, hbne⟩ := h2.char 0 b rfl
        rw [List.take_succ_cons, List.take_succ_cons]
        by_cases heq : a = b
        · subst heq
          rw [strncmp_same (ha ▸ hane) (ha.trans hb.symm), ih h1.tail h2.tail, lexSign_cons_self]
        · rw [strncmp_stop (fun h => heq (by rw [← ha, h.2, hb])), ha, hb, if_neg heq,
            lexSign_cons_ne heq]

/-- With turns enough to reach the NUL of the first string it does not matter how many. -/
theorem strncmpFrom_turns (s1 : CString) (s2 : CharPtr) (n : Nat) {n' : Nat}
    (hn' : s1.strlen ≤ n') : strncmpFrom s1.bytes s2 n 0 ≤ strncmpFrom s1.bytes s2 n' 0 := by
  obtain ⟨-, -, hbefore, -⟩ := strncmpFrom_spec s1.bytes s2 n 0
  obtain ⟨-, -, -, hstop⟩ := strncmpFrom_spec s1.bytes s2 n' 0
  by_contra hlt
  -- the one that stopped first did so for a reason, and the other one went on
  obtain ⟨hne, hsame⟩ := hbefore _ (Nat.zero_le _) (Nat.lt_of_not_le hlt)
  have hle : strncmpFrom s1.bytes s2 n 0 ≤ s1.strlen := by
    by_contra hgt
    exact (hbefore s1.strlen (Nat.zero_le _) (by omega)).1 s1.strlen_spec.1
  exact hstop (by omega) hne hsame

theorem strcmp_eq_strncmp (s1 : CString) (s2 : CharPtr) {n : Nat} (hn : s1.strlen < n) :
    strcmp s1 s2 = strncmp s1.bytes s2 n := by
  have hsize := s1.strlen_le_size
  have hn' : s1.strlen ≤ n - 1 := by omega
  have hne : n ≠ 0 := by omega
  have hturns := Nat.le_antisymm (strncmpFrom_turns s1 s2 s1.size hn')
    (strncmpFrom_turns s1 s2 (n - 1) hsize)
  unfold strcmp strncmp
  rw [hturns, if_neg hne]

/-- **`strncmp` and `strcmp` compare strings in the lexicographic order of their bytes**: the
first `n` of them, or all. -/
theorem string_comparison (s1 s2 : CString) :
    (∀ n, strncmp s1.bytes s2.bytes n = lexSign (s1.chars.take n) (s2.chars.take n)) ∧
      (∀ n, s1.strlen < n → s2.strlen < n → strcmp s1 s2.bytes = strncmp s1.bytes s2.bytes n) ∧
      (strncmp s1.bytes s2.bytes s2.strlen = 0 ↔ s2.chars <+: s1.chars) := by
  refine ⟨fun n => ?_, fun n hn _ => ?_, ?_⟩
  · exact strncmp_lexSign s1.reads s2.reads n
  · exact strcmp_eq_strncmp s1 s2.bytes hn
  · exact strncmp_prefix s1 s2

/-- Bytes above 127 come after all others. -/
theorem string_comparison_unsigned :
    strcmp (.ofBytes [97, 200]) (CString.ofBytes [97, 98]).bytes = 1 := by
  obtain ⟨hlex, hagree, -⟩ := string_comparison (.ofBytes [97, 200]) (.ofBytes [97, 98])
  rw [hagree 3 (by decide) (by decide), hlex]
  decide

end Dreamos64
