import Dreamos64.Arch.PageTree
import Mathlib.Tactic.Ring

/-!
# Dreamos64 — memory by bytes

Page tables are read and written in words of eight bytes, programs in single bytes.
A byte is a digit of the word that contains it, so both views are of one memory.

* `byte_setByte`  — one byte written;
* `entry_setByte` — which entries it leaves alone;
* `memcpy_frame`  — what `memcpy` of `string.c` leaves alone;
* `memcpy_spec`, `memcpy_bytes` — what it does between places that do not overlap.
-/

namespace Dreamos64

open Machine

/-! ## Digits -/

/-- Digit `k` of a number in base 256. -/
def digit (word k : Nat) : Nat := word / 256 ^ k % 256

/-- A number with digit `k` replaced. -/
def setDigit (word k value : Nat) : Nat :=
  word / 256 ^ (k + 1) * 256 ^ (k + 1) + value * 256 ^ k + word % 256 ^ k

theorem digit_setDigit {word k value : Nat} (hvalue : value < 256) (j : Nat) :
    digit (setDigit word k value) j = if j = k then value else digit word j := by
  have hpos : 0 < 256 ^ k := Nat.pow_pos (by decide)
  have hlow : word % 256 ^ k < 256 ^ k := Nat.mod_lt _ hpos
  have hfactor : setDigit word k value =
      word % 256 ^ k + 256 ^ k * (value + 256 * (word / 256 ^ (k + 1))) := by
    rw [setDigit, Nat.pow_succ]
    ring
  have hword : word = word % 256 ^ k + 256 ^ k * (word / 256 ^ k) := (Nat.mod_add_div _ _).symm
  unfold digit
  split_ifs with hj
  · rw [hj, hfactor, Nat.add_mul_div_left _ _ hpos, Nat.div_eq_of_lt hlow, Nat.zero_add,
      Nat.add_mul_mod_self_left, Nat.mod_eq_of_lt hvalue]
  rcases Nat.lt_or_gt_of_ne hj with hlt | hgt
  · -- a lower digit is a digit of what is below
    obtain ⟨e, rfl⟩ : ∃ e, k = j + 1 + e := ⟨k - j - 1, by omega⟩
    have hsplit : ∀ c, (word % 256 ^ (j + 1 + e) + 256 ^ (j + 1 + e) * c) / 256 ^ j % 256 =
        word % 256 ^ (j + 1 + e) / 256 ^ j % 256 := by
      intro c
      have hc : 256 ^ (j + 1 + e) * c = 256 ^ j * (256 * (256 ^ e * c)) := by
        rw [Nat.pow_add, Nat.pow_succ]
        ring
      rw [hc, Nat.add_mul_div_left _ _ (Nat.pow_pos (by decide)), Nat.add_mul_mod_self_left]
    rw [hfactor, hsplit]
    nth_rewrite 2 [hword]
    rw [hsplit]
  · -- a higher digit is a digit of what is above
    obtain ⟨e, rfl⟩ : ∃ e, j = k + 1 + e := ⟨j - k - 1, by omega⟩
    have htop : setDigit word k value / 256 ^ (k + 1) = word / 256 ^ (k + 1) := by
      have hsmall : word % 256 ^ k + 256 ^ k * value < 256 ^ (k + 1) := by
        calc word % 256 ^ k + 256 ^ k * value < 256 ^ k + 256 ^ k * value := by omega
          _ = 256 ^ k * (value + 1) := by ring
          _ ≤ 256 ^ k * 256 := Nat.mul_le_mul_left _ hvalue
          _ = 256 ^ (k + 1) := (Nat.pow_succ 256 k).symm
      have hsum : setDigit word k value =
          word % 256 ^ k + 256 ^ k * value + 256 ^ (k + 1) * (word / 256 ^ (k + 1)) := by
        rw [setDigit]
        ring
      rw [hsum, Nat.add_mul_div_left _ _ (Nat.pow_pos (by decide)), Nat.div_eq_of_lt hsmall,
        Nat.zero_add]
    rw [Nat.pow_add, ← Nat.div_div_eq_div_mul, ← Nat.div_div_eq_div_mul, htop]

/-! ## Bytes of memory -/

/-- The byte at a physical address. -/
def Vm.byte (s : Vm) (a : Nat) : Nat := digit (s.memory (8 * (a / 8))) (a % 8)

/-- The byte at a physical address overwritten. -/
def Vm.setByte (s : Vm) (a value : Nat) : Vm :=
  let word := 8 * (a / 8)
  { s with memory := Function.update s.memory word (setDigit (s.memory word) (a % 8) value) }

theorem byte_lt (s : Vm) (a : Nat) : s.byte a < 256 := Nat.mod_lt _ (by decide)

theorem byte_setByte {s : Vm} {a value : Nat} (hvalue : value < 256) (x : Nat) :
    (s.setByte a value).byte x = if x = a then value else s.byte x := by
  unfold Vm.byte Vm.setByte
  by_cases hword : 8 * (x / 8) = 8 * (a / 8)
  · rw [hword]
    dsimp only
    rw [Function.update_self, digit_setDigit hvalue]
    have hiff : x % 8 = a % 8 ↔ x = a := by omega
    simp only [hiff]
  · dsimp only
    rw [Function.update_of_ne hword, if_neg]
    rintro rfl
    exact hword rfl

theorem entry_setByte {s : Vm} {a value n : Nat} (h : a / 4096 ≠ n) (i : Fin 512) :
    (s.setByte a value).entry n i = s.entry n i := by
  have hi := i.isLt
  unfold Vm.entry Vm.setByte
  dsimp only
  rw [Function.update_of_ne]
  omega

/-- Bytes of a frame are those of its entries. -/
theorem byte_congr {s s' : Vm} {a : Nat} (h : ∀ i, s'.entry (a / 4096) i = s.entry (a / 4096) i) :
    s'.byte a = s.byte a := by
  have hindex : a % 4096 / 8 < 512 := by omega
  have haddress : 8 * (a / 8) = 4096 * (a / 4096) + 8 * (a % 4096 / 8) := by omega
  have hword := h ⟨a % 4096 / 8, hindex⟩
  unfold Vm.entry at hword
  unfold Vm.byte
  rw [haddress, hword]

/-- `n` bytes from an address on, the first being the lowest. -/
def Vm.field (s : Vm) (a : Nat) : Nat → Nat
  | 0 => 0
  | n + 1 => s.byte a + 256 * s.field (a + 1) n

theorem field_congr {s s' : Vm} {a n : Nat} (h : ∀ k < n, s'.byte (a + k) = s.byte (a + k)) :
    s'.field a n = s.field a n := by
  induction n generalizing a with
  | zero => rfl
  | succ n ih =>
    have hfirst := h 0 (Nat.succ_pos n)
    rw [Nat.add_zero] at hfirst
    have hrest := ih (a := a + 1) fun k hk => by
      rw [Nat.add_assoc, Nat.add_comm 1 k]
      exact h (k + 1) (by omega)
    rw [Vm.field, Vm.field, hfirst, hrest]

/-! ## Copies -/

/-- The physical address behind a pointer into the direct map. -/
def physAt (m : PageMode) (pointer : Nat) : Exec Nat :=
  if higherHalfDirectMapBase m ≤ pointer then .ok (pointer - higherHalfDirectMapBase m)
  else .error .nullPointer

/-- Where a pointer into the direct map points. -/
def physOf (m : PageMode) (pointer : Nat) : Nat := pointer - higherHalfDirectMapBase m

theorem physAt_inv {m : PageMode} {pointer a : Nat} (h : physAt m pointer = .ok a) :
    higherHalfDirectMapBase m ≤ pointer ∧ a = physOf m pointer := by
  unfold physAt at h
  split_ifs at h with hle
  cases h
  exact ⟨hle, rfl⟩

/-- `memcpy`, byte by byte. -/
def memcpy (m : PageMode) (s : Vm) (dest : Option Nat) (src count : Nat) : Exec Vm :=
  (List.range count).foldlM (fun s i =>
    match dest with
    | none => .error .nullPointer
    | some dest => do
      let source ← physAt m (src + i)
      let destination ← physAt m (dest + i)
      .ok (s.setByte destination (s.byte source))) s

section Copy

variable {m : PageMode} {s s' : Vm} {d a src count : Nat} {dest : Option Nat}

/-- **What any `memcpy` leaves alone**, wherever it copies from. -/
theorem memcpy_frame (hdest : ∀ v, dest = some v → v = d + higherHalfDirectMapBase m)
    (hrun : memcpy m s dest src count = .ok s') :
    s'.memorySizeInBytes = s.memorySizeInBytes ∧ s'.freeTables = s.freeTables ∧
    s'.hhdmPageRootAddress = s.hhdmPageRootAddress ∧
    ∀ n, (∀ i < count, (d + i) / 4096 ≠ n) → ∀ j, s'.entry n j = s.entry n j := by
  unfold memcpy at hrun
  induction count generalizing s' with
  | zero =>
    cases hrun
    exact ⟨rfl, rfl, rfl, fun _ _ _ => rfl⟩
  | succ count ih =>
    rw [List.range_succ, List.foldlM_append] at hrun
    obtain ⟨s₁, hfirst, hlast⟩ := bind_inv hrun
    obtain ⟨hsize, hfree, hpointer, hentry⟩ := ih hfirst
    rw [List.foldlM_cons] at hlast
    obtain ⟨s₂, hbyte, hlast⟩ := bind_inv hlast
    cases hlast
    cases hd : dest with
    | none =>
      rw [hd] at hbyte
      cases hbyte
    | some v =>
      rw [hd] at hbyte
      obtain ⟨source, -, hbyte⟩ := bind_inv hbyte
      obtain ⟨destination, hdestination, hbyte⟩ := bind_inv hbyte
      cases hbyte
      -- the byte lies where the pointer says
      obtain rfl : destination = d + count := by
        have hv := hdest v hd
        obtain ⟨-, rfl⟩ := physAt_inv hdestination
        unfold physOf
        omega
      refine ⟨hsize, hfree, hpointer, fun n hn j => ?_⟩
      rw [entry_setByte (hn count (by omega)), hentry n (fun i hi => hn i (by omega)) j]

/-- **`memcpy`** from `a` to `d`, which do not overlap. -/
theorem memcpy_spec (hapart : ∀ i < count, ∀ j < count, d + i ≠ a + j) :
    ∃ s', memcpy m s (some (d + higherHalfDirectMapBase m)) (a + higherHalfDirectMapBase m) count =
        .ok s' ∧
      s'.memorySizeInBytes = s.memorySizeInBytes ∧ s'.freeTables = s.freeTables ∧
      s'.hhdmPageRootAddress = s.hhdmPageRootAddress ∧
      (∀ x, s'.byte x = if d ≤ x ∧ x < d + count then s.byte (a + (x - d)) else s.byte x) ∧
      ∀ n, (∀ i < count, (d + i) / 4096 ≠ n) → ∀ j, s'.entry n j = s.entry n j := by
  unfold memcpy
  induction count with
  | zero =>
    refine ⟨s, rfl, rfl, rfl, rfl, fun x => ?_, fun _ _ _ => rfl⟩
    rw [if_neg (by omega)]
  | succ count ih =>
    obtain ⟨s₁, hrun, hsize, hfree, hpointer, hbyte, hentry⟩ :=
      ih fun i hi j hj => hapart i (by omega) j (by omega)
    -- the byte that is copied last has not been overwritten
    have hsource : s₁.byte (a + count) = s.byte (a + count) := by
      rw [hbyte, if_neg]
      rintro ⟨hle, hlt⟩
      exact hapart (a + count - d) (by omega) count (by omega) (by omega)
    have hphys : ∀ x, physAt m (x + higherHalfDirectMapBase m + count) = .ok (x + count) := by
      intro x
      rw [physAt, if_pos (by omega)]
      congr 1
      omega
    refine ⟨s₁.setByte (d + count) (s.byte (a + count)), ?_, hsize, hfree, hpointer, fun x => ?_,
      fun n hn j => ?_⟩
    · rw [List.range_succ, List.foldlM_append, hrun, ok_bind]
      simp only [List.foldlM_cons, List.foldlM_nil, hphys, ok_bind, hsource]
      rfl
    · rw [byte_setByte (byte_lt _ _), hbyte]
      by_cases hlast : x = d + count
      · rw [if_pos hlast, if_pos (by omega)]
        congr 1
        omega
      · rw [if_neg hlast]
        by_cases hin : d ≤ x ∧ x < d + count
        · rw [if_pos hin, if_pos (by omega)]
        · rw [if_neg hin, if_neg (by omega)]
    · rw [entry_setByte (hn count (by omega)), hentry n (fun i hi => hn i (by omega)) j]

/-- The bytes after a `memcpy` that has returned. -/
theorem memcpy_bytes (hdest : ∀ v, dest = some v → v = d + higherHalfDirectMapBase m)
    (hapart : ∀ i < count, ∀ j < count, d + i ≠ physOf m src + j)
    (hrun : memcpy m s dest src count = .ok s') (x : Nat) :
    s'.byte x = if d ≤ x ∧ x < d + count then s.byte (physOf m src + (x - d)) else s.byte x := by
  cases count with
  | zero =>
    cases hrun
    rw [if_neg (by omega)]
  | succ count =>
    -- the first byte was copied, so both pointers are into the direct map
    have hfirst := hrun
    rw [memcpy, List.range_succ_eq_map, List.foldlM_cons] at hfirst
    obtain ⟨s₁, hbyte, -⟩ := bind_inv hfirst
    cases hd : dest with
    | none =>
      rw [hd] at hbyte
      cases hbyte
    | some v =>
      rw [hd] at hbyte
      obtain ⟨source, hsource, -⟩ := bind_inv hbyte
      have hsrc : src = physOf m src + higherHalfDirectMapBase m := by
        have hle := (physAt_inv hsource).1
        unfold physOf
        omega
      obtain ⟨s₂, hspec, -, -, -, hbytes, -⟩ :=
        memcpy_spec (m := m) (s := s) (d := d) (a := physOf m src) hapart
      rw [← hsrc, ← hdest v hd, ← hd] at hspec
      cases hspec.symm.trans hrun
      exact hbytes x

end Copy

end Dreamos64
