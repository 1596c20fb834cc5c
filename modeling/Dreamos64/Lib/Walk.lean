import Dreamos64.Lib.Exec
import Mathlib.Data.Nat.Find
import Mathlib.Logic.Function.Iterate

/-!
# Walks — loops that follow a pointer until something stops them

A walk goes from `s` to `next s` as long as `s` does not `stop` it. What it comes to is an
iterate of `next`, so that a loop whose body does just that (`hgo`) is told by the first
iterate that stops it:

* `FirstStop`             — the walk stops after exactly `n` steps;
* `FirstStop.of_progress` — a walk stops if all its steps increase what a bound stops;
* `loop_walk`             — a loop goes where the walk goes, one unit of fuel for each step;
* `loop_walk_forever`     — a walk that nothing stops is a loop that does not end.
-/

namespace Machine

section Walk

variable {σ : Type} {next : σ → σ} {stop : σ → Prop} {s : σ} {n k : Nat}

/-- The walk from `s` stops after `n` steps, and not before. -/
structure FirstStop (next : σ → σ) (stop : σ → Prop) (s : σ) (n : Nat) : Prop where
  stops  : stop (next^[n] s)
  before : ∀ m < n, ¬ stop (next^[m] s)

theorem FirstStop.unique (h : FirstStop next stop s n) (h' : FirstStop next stop s k) : n = k := by
  rcases Nat.lt_trichotomy n k with hlt | heq | hlt
  · exact absurd h.stops (h'.before n hlt)
  · exact heq
  · exact absurd h'.stops (h.before k hlt)

theorem FirstStop.zero (h : stop s) : FirstStop next stop s 0 where
  stops := h
  before := fun m hm => absurd hm (Nat.not_lt_zero m)

/-- One step more, in front. -/
theorem FirstStop.cons (hgo : ¬ stop s) (h : FirstStop next stop (next s) n) :
    FirstStop next stop s (n + 1) where
  stops := h.stops
  before := fun m hm => by
    cases m with
    | zero => exact hgo
    | succ m => exact h.before m (Nat.lt_of_succ_lt_succ hm)

/-- A walk that stops somewhere has a first place where it does. -/
theorem FirstStop.of_exists (h : ∃ m, stop (next^[m] s)) : ∃ n, FirstStop next stop s n := by
  classical
  exact ⟨Nat.find h, Nat.find_spec h, fun m hm => Nat.find_min h hm⟩

/-- **Progress.** If each step of the walk makes `f` larger, and nothing with a large `f` lets it
go on, the walk stops. -/
theorem FirstStop.of_progress (f : σ → Int) (bound : Int) (hbound : ∀ t, bound ≤ f t → stop t)
    (hless : ∀ m, (∀ k ≤ m, ¬ stop (next^[k] s)) → f (next^[m] s) < f (next^[m + 1] s)) :
    ∃ n, FirstStop next stop s n := by
  refine FirstStop.of_exists ?_
  by_contra hnone
  have hgo : ∀ m, ¬ stop (next^[m] s) := fun m hm => hnone ⟨m, hm⟩
  -- after `m` steps the measure has grown by `m`
  have hgrows : ∀ m : Nat, f s + m ≤ f (next^[m] s) := by
    intro m
    induction m with
    | zero => exact Int.le_of_eq (Int.add_zero _)
    | succ m ih =>
      have hstep := hless m fun k _ => hgo k
      omega
  have hlarge := hgrows (bound - f s).toNat
  have hreached : bound ≤ f (next^[(bound - f s).toNat] s) := by omega
  exact hgo _ (hbound _ hreached)

section Loop

variable {α : Type} {body : σ → Exec (LoopStep σ α)} {fuel : Nat}
variable (hgo : ∀ s, ¬ stop s → body s = .ok (.next (next s)))

include hgo

/-- A loop goes where the walk goes, one turn for each step. -/
theorem loop_walk (hbefore : ∀ m < n, ¬ stop (next^[m] s)) :
    loop body (n + fuel) s = loop body fuel (next^[n] s) := by
  -- the first step is taken off the front, where the loop takes its turn
  induction n generalizing s with
  | zero => rw [Nat.zero_add, Function.iterate_zero_apply]
  | succ n ih =>
    have hfirst := hgo s (hbefore 0 (Nat.zero_lt_succ n))
    rw [Nat.add_right_comm, loop_next hfirst, Function.iterate_succ_apply]
    exact ih fun m hm => hbefore (m + 1) (Nat.succ_lt_succ hm)

/-- A walk that nothing stops is a loop that does not end. -/
theorem loop_walk_forever (hnever : ∀ m, ¬ stop (next^[m] s)) (fuel : Nat) :
    loop body fuel s = .error .outOfFuel := by
  have hloop : loop body (fuel + 0) s = loop body 0 (next^[fuel] s) :=
    loop_walk hgo fun m _ => hnever m
  rwa [loop_zero] at hloop

end Loop

end Walk

end Machine
