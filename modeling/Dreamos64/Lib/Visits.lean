import Dreamos64.Lib.Exec
import Mathlib.Data.List.Nodup
import Mathlib.Data.List.Perm.Subperm

/-!
# The states a loop goes through

`visits body fuel s` lists the states on which the body of a loop is run. A loop with a
counter that wraps at `M` comes to no value of the counter twice exactly if it returns
within `M` turns (`ends_once_iff`).
-/

namespace Machine

variable {σ α : Type} {body : σ → Exec (LoopStep σ α)} {fuel M : Nat} {s : σ} {a : α}

def visits (body : σ → Exec (LoopStep σ α)) : Nat → σ → List σ
  | 0, _ => []
  | fuel + 1, s =>
    s :: match body s with
      | .ok (.next s') => visits body fuel s'
      | _ => []

theorem visits_next {s' : σ} (h : body s = .ok (.next s')) :
    visits body (fuel + 1) s = s :: visits body fuel s' := by
  rw [visits, h]

theorem visits_done (h : body s = .ok (.done a)) : visits body (fuel + 1) s = [s] := by
  rw [visits, h]

theorem length_visits_le : (visits body fuel s).length ≤ fuel := by
  induction fuel generalizing s with
  | zero => exact Nat.le_refl 0
  | succ fuel ih =>
    rw [visits, List.length_cons]
    split
    · exact Nat.succ_le_succ ih
    · exact Nat.succ_le_succ (Nat.zero_le fuel)

/-- A loop needs as much fuel as it visits states. -/
theorem loop_length_visits (h : loop body fuel s = .ok a) :
    loop body (visits body fuel s).length s = .ok a := by
  induction fuel generalizing s with
  | zero => cases h
  | succ fuel ih =>
    cases hb : body s with
    | error e =>
      rw [loop_succ, hb] at h
      cases h
    | ok step =>
      cases step with
      | done b =>
        rw [loop_done hb] at h
        rw [visits_done hb]
        have hone : loop body (0 + 1) s = .ok b := loop_done hb
        exact hone.trans h
      | next s' =>
        rw [loop_next hb] at h
        rw [visits_next hb, List.length_cons, loop_next hb]
        exact ih h

section Counter

variable {counter : σ → Nat}

/-- A counter that goes up at every turn, and wraps. -/
theorem visits_counter (fuel : Nat)
    (hstep : ∀ s s', body s = .ok (.next s') → counter s' = (counter s + 1) % M)
    (hs : counter s < M) :
    (visits body fuel s).map counter =
      (List.range (visits body fuel s).length).map fun t => (counter s + t) % M := by
  induction fuel generalizing s with
  | zero => rfl
  | succ fuel ih =>
    have hfirst : counter s = (counter s + 0) % M := (Nat.mod_eq_of_lt hs).symm
    cases hb : body s with
    | error e =>
      rw [visits, hb]
      exact congrArg (· :: []) hfirst
    | ok step =>
      cases step with
      | done b =>
        rw [visits_done hb]
        exact congrArg (· :: []) hfirst
      | next s' =>
        have hs' : counter s' < M := by
          rw [hstep s s' hb]
          exact Nat.mod_lt _ (by omega)
        rw [visits_next hb, List.map_cons, ih hs', List.length_cons, List.range_succ_eq_map,
          List.map_cons, List.map_map]
        refine congrArg₂ List.cons hfirst (List.map_congr_left fun t _ => ?_)
        show (counter s' + t) % M = (counter s + (t + 1)) % M
        rw [hstep s s' hb, Nat.mod_add_mod]
        congr 1
        omega

/-- **A loop with a wrapping counter comes to no value twice** exactly if it returns
before the counter has wrapped. -/
theorem ends_once_iff (body : σ → Exec (LoopStep σ α)) (counter : σ → Nat)
    (hstep : ∀ s s', body s = .ok (.next s') → counter s' = (counter s + 1) % M)
    (hM : 0 < M) (hs : counter s = 0) :
    (∃ fuel a, loop body fuel s = .ok a ∧ ((visits body fuel s).map counter).Nodup) ↔
      ∃ a, loop body M s = .ok a := by
  have hcounter (fuel : Nat) := visits_counter fuel hstep (s := s) (by omega)
  constructor
  · rintro ⟨fuel, a, hloop, hnodup⟩
    refine ⟨a, loop_mono ?_ (loop_length_visits hloop)⟩
    have hsub : (visits body fuel s).map counter ⊆ List.range M := by
      intro x hx
      rw [hcounter] at hx
      obtain ⟨t, -, rfl⟩ := List.mem_map.mp hx
      exact List.mem_range.mpr (Nat.mod_lt _ hM)
    have hlength := (List.subperm_of_subset hnodup hsub).length_le
    rwa [List.length_map, List.length_range] at hlength
  · rintro ⟨a, hloop⟩
    refine ⟨M, a, hloop, ?_⟩
    rw [hcounter]
    refine List.Nodup.map_on ?_ List.nodup_range
    intro t ht t' ht' heq
    have hle : (visits body M s).length ≤ M := length_visits_le
    have hlt : t < M := Nat.lt_of_lt_of_le (List.mem_range.mp ht) hle
    have hlt' : t' < M := Nat.lt_of_lt_of_le (List.mem_range.mp ht') hle
    rwa [hs, Nat.zero_add, Nat.zero_add, Nat.mod_eq_of_lt hlt, Nat.mod_eq_of_lt hlt'] at heq

end Counter

end Machine
