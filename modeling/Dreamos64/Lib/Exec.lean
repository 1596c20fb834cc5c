import Mathlib.Algebra.Group.Int.Defs
import Mathlib.Algebra.GroupWithZero.Nat
import Mathlib.Tactic.Common

/-!
# Machine code that can fail — outcomes and fuelled loops

A C function is embedded as a pure function into `Exec`: it returns a value or
it is `Stuck`, with the reason. A `while` loop is embedded as `loop`, one call
of a loop body per unit of fuel, so that a loop that never ends is visible as
`outOfFuel` for every amount of fuel.

The rules for loops:

* `loop_inv`   — partial correctness: what the body keeps holds of the result;
* `loop_total` — total correctness: a bound on the remaining turns that the
  body lowers bounds the fuel after which the loop returns;
* `loop_mono`  — a result does not depend on the fuel beyond what it needed;
* `loop_refines` — a loop that follows another one, turn by turn;
* `turns_inv`  — what the body keeps, for a loop that is looked at while it runs.
-/

namespace Machine

/-- Why a piece of code has no result. -/
inductive Stuck where
  /-- a NULL (or otherwise unmapped) pointer was followed -/
  | nullPointer
  /-- an array was indexed past its end -/
  | outOfBounds
  /-- a store met a page that is not writable -/
  | readOnly
  /-- the code stopped the machine on purpose -/
  | halted
  /-- a loop was still running when the fuel ran out -/
  | outOfFuel
  deriving DecidableEq, Repr

/-- The outcome of running a piece of code. -/
abbrev Exec (α : Type) := Except Stuck α

/-- What one turn of a loop body decides: go around again, or leave. -/
inductive LoopStep (σ α : Type) where
  | next (s : σ)
  | done (a : α)

/-- `while` with an explicit bound on the number of turns. -/
def loop {σ α : Type} (body : σ → Exec (LoopStep σ α)) : Nat → σ → Exec α
  | 0, _ => .error .outOfFuel
  | fuel + 1, s =>
    match body s with
    | .error e => .error e
    | .ok (.done a) => .ok a
    | .ok (.next s') => loop body fuel s'

/-- The first turns of a loop that cannot fail: where it has got to, or what it left
with. -/
def turns {σ α : Type} (body : σ → LoopStep σ α) : Nat → σ → LoopStep σ α
  | 0, s => .next s
  | n + 1, s =>
    match body s with
    | .done a => .done a
    | .next s' => turns body n s'

/-! ## Binds -/

/-- When a sequence returns, its first half returned and handed its value on. -/
theorem bind_inv {α β : Type} {x : Exec α} {f : α → Exec β} {b : β}
    (h : (x >>= f) = .ok b) : ∃ a, x = .ok a ∧ f a = .ok b :=
  match x, h with
  | .ok a, h => ⟨a, rfl, h⟩

@[simp] theorem ok_bind {α β : Type} (a : α) (f : α → Exec β) :
    ((.ok a : Exec α) >>= f) = f a := rfl

@[simp] theorem error_bind {α β : Type} (e : Stuck) (f : α → Exec β) :
    ((.error e : Exec α) >>= f) = .error e := rfl

/-! ## Code that is run to find out what it does -/

section Decide

variable {α β : Type}

instance decidableOk (x : Exec α) (P : α → Prop) [DecidablePred P] :
    Decidable (∃ a, x = .ok a ∧ P a) :=
  match x with
  | .ok a => decidable_of_iff (P a) (by simp)
  | .error _ => isFalse (by simp)

instance decidableOkPair (x : Exec (α × β)) (P : α → β → Prop) [∀ a b, Decidable (P a b)] :
    Decidable (∃ a b, x = .ok (a, b) ∧ P a b) :=
  decidable_of_iff (∃ p, x = .ok p ∧ P p.1 p.2) (by simp)

instance decidableOkFirst [DecidableEq α] (x : Exec (α × β)) (a : α) (P : β → Prop)
    [DecidablePred P] : Decidable (∃ b, x = .ok (a, b) ∧ P b) :=
  decidable_of_iff (∃ p, x = .ok p ∧ a = p.1 ∧ P p.2) (by simp)

instance decidableError (x : Exec α) (e : Stuck) : Decidable (x = .error e) :=
  match x with
  | .ok _ => isFalse nofun
  | .error e' => decidable_of_iff (e' = e) (by simp)

end Decide

/-! ## Loops -/

section Loop

variable {σ α : Type} {body : σ → Exec (LoopStep σ α)}

@[simp] theorem loop_zero (s : σ) : loop body 0 s = .error .outOfFuel := rfl

theorem loop_succ (fuel : Nat) (s : σ) :
    loop body (fuel + 1) s =
      match body s with
      | .error e => .error e
      | .ok (.done a) => .ok a
      | .ok (.next s') => loop body fuel s' := rfl

/-- A turn that leaves the loop gives its result. -/
theorem loop_done {fuel : Nat} {s : σ} {a : α} (h : body s = .ok (.done a)) :
    loop body (fuel + 1) s = .ok a := by
  rw [loop_succ, h]

/-- A turn that goes around hands its state to the rest of the loop. -/
theorem loop_next {fuel : Nat} {s s' : σ} (h : body s = .ok (.next s')) :
    loop body (fuel + 1) s = loop body fuel s' := by
  rw [loop_succ, h]

/-- A turn that changes nothing is taken for ever. -/
theorem loop_stays {s : σ} (h : body s = .ok (.next s)) (fuel : Nat) :
    loop body fuel s = .error .outOfFuel := by
  induction fuel with
  | zero => rfl
  | succ fuel ih => rw [loop_next h, ih]

/-- **Partial correctness.** A property of the loop state that every turn
keeps, and that gives `Q` when a turn leaves, gives `Q` of the result. -/
theorem loop_inv (I : σ → Prop) (Q : α → Prop)
    (hnext : ∀ s s', I s → body s = .ok (.next s') → I s')
    (hdone : ∀ s a, I s → body s = .ok (.done a) → Q a)
    {fuel : Nat} {s : σ} {a : α} (hs : I s) (h : loop body fuel s = .ok a) : Q a := by
  induction fuel generalizing s with
  | zero => simp at h
  | succ fuel ih =>
    rw [loop_succ] at h
    split at h
    · simp at h
    · next b hb =>
      injection h with h
      subst h
      exact hdone s b hs hb
    · next s' hb => exact ih (hnext s s' hs hb) h

/-- More fuel does not change a result. -/
theorem loop_mono {fuel fuel' : Nat} {s : σ} {a : α} (hle : fuel ≤ fuel')
    (h : loop body fuel s = .ok a) : loop body fuel' s = .ok a := by
  induction fuel generalizing fuel' s with
  | zero => simp at h
  | succ fuel ih =>
    obtain ⟨fuel', rfl⟩ : ∃ k, fuel' = k + 1 := ⟨fuel' - 1, by omega⟩
    rw [loop_succ] at h ⊢
    split at h
    · simp at h
    · exact h
    · exact ih (by omega) h

/-- So two results of one loop are the same, whatever the fuel was. -/
theorem loop_det {fuel fuel' : Nat} {s : σ} {a a' : α} (h : loop body fuel s = .ok a)
    (h' : loop body fuel' s = .ok a') : a = a' := by
  have hmax := loop_mono (Nat.le_max_left fuel fuel') h
  rw [loop_mono (Nat.le_max_right fuel fuel') h'] at hmax
  injection hmax with heq
  exact heq.symm

/-- **Total correctness.** `I n s` says that at most `n` more turns follow from
`s`. If every turn succeeds and lowers that bound, the loop returns. -/
theorem loop_total (I : Nat → σ → Prop) (Q : α → Prop)
    (hbody : ∀ n s, I n s → (∃ s', body s = .ok (.next s') ∧ ∃ n' < n, I n' s') ∨
      ∃ a, body s = .ok (.done a) ∧ Q a)
    {fuel n : Nat} {s : σ} (hs : I n s) (hfuel : n < fuel) :
    ∃ a, loop body fuel s = .ok a ∧ Q a := by
  induction fuel generalizing n s with
  | zero => omega
  | succ fuel ih =>
    rcases hbody n s hs with ⟨s', hb, n', hlt, hs'⟩ | ⟨a, hb, ha⟩
    · obtain ⟨a, hloop, ha⟩ := ih hs' (by omega)
      exact ⟨a, by rw [loop_next hb, hloop], ha⟩
    · exact ⟨a, loop_done hb, ha⟩

/-- **Refinement.** If the turns of a loop that do not get stuck are turns of another one, seen
through `f`, its results are results of the other one. -/
theorem loop_refines {τ β : Type} {body' : τ → Exec (LoopStep τ β)} (f : σ → τ) (g : α → β)
    (hnext : ∀ s s', body s = .ok (.next s') → body' (f s) = .ok (.next (f s')))
    (hdone : ∀ s a, body s = .ok (.done a) → body' (f s) = .ok (.done (g a)))
    {fuel : Nat} {s : σ} {a : α} (h : loop body fuel s = .ok a) :
    loop body' fuel (f s) = .ok (g a) := by
  induction fuel generalizing s with
  | zero => simp at h
  | succ fuel ih =>
    rw [loop_succ] at h
    split at h
    · simp at h
    · next b hb =>
      injection h with h
      subst h
      exact loop_done (hdone s b hb)
    · next s' hb =>
      rw [loop_next (hnext s s' hb)]
      exact ih h

end Loop

/-! ## Loops, turn by turn -/

section Turns

variable {σ α : Type} {body : σ → LoopStep σ α}

theorem turns_done {n : Nat} {s : σ} {a : α} (h : body s = .done a) :
    turns body (n + 1) s = .done a := by
  rw [turns, h]

theorem turns_next {n : Nat} {s s' : σ} (h : body s = .next s') :
    turns body (n + 1) s = turns body n s' := by
  rw [turns, h]

/-- Turns that go around hand their state to the turns after them. -/
theorem turns_add {m n : Nat} {s s' : σ} (h : turns body m s = .next s') :
    turns body (m + n) s = turns body n s' := by
  induction m generalizing s with
  | zero =>
    injection h with h
    rw [h, Nat.zero_add]
  | succ m ih =>
    rw [Nat.add_right_comm]
    cases hb : body s with
    | done a =>
      rw [turns_done hb] at h
      cases h
    | next u =>
      rw [turns_next hb] at h ⊢
      exact ih h

/-- What every turn keeps holds wherever the loop has got to. -/
theorem turns_inv (I : σ → Prop) (Q : α → Prop) (hnext : ∀ s s', I s → body s = .next s' → I s')
    (hdone : ∀ s a, I s → body s = .done a → Q a) {s : σ} (hs : I s) (n : Nat) :
    (∀ s', turns body n s = .next s' → I s') ∧ ∀ a, turns body n s = .done a → Q a := by
  induction n generalizing s with
  | zero =>
    refine ⟨fun s' h => ?_, fun a h => nomatch h⟩
    injection h with h
    exact h ▸ hs
  | succ n ih =>
    cases hb : body s with
    | done b =>
      rw [turns_done hb]
      refine ⟨fun s' h => (nomatch h), fun a h => ?_⟩
      injection h with h
      exact h ▸ hdone s b hs hb
    | next s' =>
      rw [turns_next hb]
      exact ih (hnext s s' hs hb)

end Turns

end Machine
