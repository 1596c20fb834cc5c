import Mathlib.Tactic.Common

/-!
# Scanning for a run

A sequence of booleans is scanned for `n` consecutive `true`s, with a counter that a `true`
raises and a `false` resets. `HasRun n l` says where such a run is, without the scan.

* `runFrom_append`        — a scan can be interrupted;
* `runFrom_eq_none_iff`   — it succeeds exactly if there is a run, the `true`s that the
  counter stands for included.
-/

namespace RunScan

/-- Some `n` consecutive elements are `true`. -/
def HasRun (n : Nat) (l : List Bool) : Prop := ∃ i, ∀ k < n, l[i + k]? = some true

/-- The scan, from a counter: `none` once it has reached `n`, or else the counter at the
end. -/
def runFrom (n : Nat) : List Bool → Nat → Option Nat
  | [], c => some c
  | true :: l, c => if c + 1 = n then none else runFrom n l (c + 1)
  | false :: l, _ => runFrom n l 0

variable {n c : Nat} {l l₁ l₂ : List Bool}

theorem runFrom_append : runFrom n (l₁ ++ l₂) c = (runFrom n l₁ c).bind (runFrom n l₂) := by
  induction l₁ generalizing c with
  | nil => rfl
  | cons x l₁ ih =>
    cases x with
    | false => exact ih
    | true =>
      rw [List.cons_append, runFrom, runFrom]
      split_ifs
      · rfl
      · exact ih

/-- The counter stays below `n`. -/
theorem runFrom_lt {c' : Nat} (hc : c < n) (h : runFrom n l c = some c') : c' < n := by
  induction l generalizing c with
  | nil =>
    cases h
    exact hc
  | cons x l ih =>
    cases x with
    | false => exact ih (by omega) h
    | true =>
      rw [runFrom] at h
      split_ifs at h
      exact ih (by omega) h

theorem HasRun.mono {k : Nat} (h : HasRun n l) (hk : k ≤ n) : HasRun k l := by
  obtain ⟨i, hi⟩ := h
  exact ⟨i, fun j hj => hi j (by omega)⟩

theorem hasRun_one : HasRun 1 l ↔ true ∈ l := by
  rw [List.mem_iff_getElem?]
  constructor
  · rintro ⟨i, hi⟩
    exact ⟨i, hi 0 Nat.one_pos⟩
  · rintro ⟨i, hi⟩
    refine ⟨i, fun k hk => ?_⟩
    rw [Nat.lt_one_iff.mp hk]
    exact hi

/-- A `false` after fewer than `n` elements ends every run that has begun. -/
theorem hasRun_replicate_false (hc : c < n) :
    HasRun n (List.replicate c true ++ false :: l) ↔ HasRun n l := by
  have hget : ∀ j, c < j → (List.replicate c true ++ false :: l)[j]? = l[j - (c + 1)]? := by
    intro j hj
    rw [List.getElem?_append_right (by simp; omega), List.length_replicate,
      show j - c = j - (c + 1) + 1 by omega, List.getElem?_cons_succ]
  constructor
  · rintro ⟨i, hi⟩
    -- the run begins behind the `false`
    have hbehind : c < i := by
      by_contra hle
      have hat := hi (c - i) (by omega)
      rw [show i + (c - i) = c by omega, List.getElem?_append_right (by simp),
        List.length_replicate, Nat.sub_self] at hat
      cases hat
    refine ⟨i - (c + 1), fun k hk => ?_⟩
    have hat := hi k hk
    rw [hget _ (by omega)] at hat
    rwa [show i - (c + 1) + k = i + k - (c + 1) by omega]
  · rintro ⟨i, hi⟩
    refine ⟨i + (c + 1), fun k hk => ?_⟩
    rw [hget _ (by omega), show i + (c + 1) + k - (c + 1) = i + k by omega]
    exact hi k hk

/-- **The scan succeeds** exactly if there is a run. -/
theorem runFrom_eq_none_iff (hc : c < n) :
    runFrom n l c = none ↔ HasRun n (List.replicate c true ++ l) := by
  induction l generalizing c with
  | nil =>
    constructor
    · intro h
      cases h
    · rintro ⟨i, hi⟩
      have hlast := (List.getElem?_eq_some_iff.mp (hi (n - 1) (by omega))).1
      simp at hlast
      omega
  | cons x l ih =>
    cases x with
    | false =>
      rw [runFrom, ih (by omega), hasRun_replicate_false hc]
      rfl
    | true =>
      have hmove : List.replicate c true ++ true :: l = List.replicate (c + 1) true ++ l := by
        rw [List.replicate_succ', List.append_assoc]
        rfl
      rw [runFrom, hmove]
      split_ifs with hlast
      · refine iff_of_true rfl ⟨0, fun k hk => ?_⟩
        rw [Nat.zero_add, List.getElem?_append_left (by simp; omega),
          List.getElem?_replicate_of_lt (by omega)]
      · exact ih (by omega)

end RunScan
