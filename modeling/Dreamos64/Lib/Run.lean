import Dreamos64.Lib.Exec
import Mathlib.Data.List.Induction

/-!
# Runs of a labelled transition system

A system is a relation `step s i t`: input `i` can take state `s` to state `t`.
`Run step s is t` is a finite sequence of such steps, with the inputs taken so
far in order. The rules are inductions over the run, read from its start:

* `Run.inv`   — an invariant of the states;
* `Run.trace` — an invariant that relates the state to the inputs so far.

`Run.of_steps` makes a run out of single steps and `Run.of_foldlM` out of an executable one;
`Run.exists_run` evaluates the state it ends in, and `Run.foldlM_eq` computes a run.
`foldlM_guarded_iff` is for a step that fails where another one does not.
-/

namespace Machine

/-- A finite run, extended at its end. -/
inductive Run {σ ι : Type} (step : σ → ι → σ → Prop) (s : σ) : List ι → σ → Prop
  | start : Run step s [] s
  | extend {is : List ι} {t u : σ} {i : ι} :
      Run step s is t → step t i u → Run step s (is ++ [i]) u

namespace Run

variable {σ ι : Type} {step : σ → ι → σ → Prop} {s t : σ} {is : List ι}

/-- A property of inputs and state that every step keeps holds along the run. -/
theorem trace (I : List ι → σ → Prop) (hstart : I [] s)
    (hstep : ∀ {is t u i}, Run step s is t → I is t → step t i u → I (is ++ [i]) u)
    (h : Run step s is t) : I is t := by
  induction h with
  | start => exact hstart
  | extend hrun hlast ih => exact hstep hrun ih hlast

/-- A state property that every step keeps holds in every state reached. -/
theorem inv (I : σ → Prop) (hstart : I s)
    (hstep : ∀ {t u i}, I t → step t i u → I u) (h : Run step s is t) : I t :=
  h.trace (fun _ t => I t) hstart fun _ ht hlast => hstep ht hlast

/-- A run without inputs goes nowhere. -/
theorem eq_of_nil (h : Run step s [] t) : t = s :=
  h.trace (fun is t => is = [] → t = s) (fun _ => rfl)
    (fun _ _ _ hnil => absurd hnil
      (List.append_ne_nil_of_right_ne_nil _ (List.cons_ne_nil _ _))) rfl

/-- What a step function computes, input by input, is a run. -/
theorem of_foldlM {f : σ → ι → Exec σ} (hf : ∀ s i t, f s i = .ok t → step s i t)
    {s₀ : σ} {before : List ι} (hrun : Run step s₀ before s) (h : is.foldlM f s = .ok t) :
    Run step s₀ (before ++ is) t := by
  induction is generalizing s before with
  | nil =>
    cases h
    rw [List.append_nil]
    exact hrun
  | cons i is ih =>
    rw [List.foldlM_cons] at h
    obtain ⟨u, hu, h⟩ := bind_inv h
    have hnext := ih (hrun.extend (hf s i u hu)) h
    rwa [List.append_assoc] at hnext

/-- There is a run of these inputs if each can be taken wherever those before it have led. -/
theorem of_steps (h : ∀ before i u, before ++ [i] <+: is → Run step s before u → ∃ t, step u i t) :
    ∃ t, Run step s is t := by
  suffices hall : ∀ before, before <+: is → ∃ t, Run step s before t from
    hall is (List.prefix_refl is)
  intro before
  induction before using List.reverseRecOn with
  | nil => exact fun _ => ⟨s, .start⟩
  | append_singleton before i ih =>
    intro hpre
    obtain ⟨u, hrun⟩ := ih ((List.prefix_append before [i]).trans hpre)
    obtain ⟨t, hstep⟩ := h before i u hpre hrun
    exact ⟨t, hrun.extend hstep⟩

/-- What is computed of the state after the inputs. -/
theorem exists_run {f : σ → ι → Exec σ} {P : σ → Prop}
    (hf : ∀ s i t, f s i = .ok t → step s i t) (h : ∃ t, is.foldlM f s = .ok t ∧ P t) :
    ∃ t, Run step s is t ∧ P t := by
  obtain ⟨t, hrun, ht⟩ := h
  exact ⟨t, of_foldlM hf .start hrun, ht⟩

/-- A run of a step function is what the function computes. -/
theorem foldlM_eq {f : σ → ι → Exec σ} (hf : ∀ s i t, step s i t → f s i = .ok t)
    (h : Run step s is t) : is.foldlM f s = .ok t := by
  induction h with
  | start => rfl
  | extend _ hlast ih => rw [List.foldlM_append, ih, ok_bind, List.foldlM_cons, hf _ _ _ hlast]; rfl

/-- A step function takes the inputs to one state only. -/
theorem det {f : σ → ι → Exec σ} {u : σ} (hf : ∀ s i t, step s i t → f s i = .ok t)
    (h : Run step s is t) (h' : Run step s is u) : t = u :=
  Except.ok.inj ((h.foldlM_eq hf).symm.trans (h'.foldlM_eq hf))

end Run

/-- A step `g` that is `f` where it is allowed, and fails elsewhere, runs as `f` does as long as
each of its steps is allowed. -/
theorem foldlM_guarded_iff {σ ι : Type} {f g : σ → ι → Exec σ} {allowed : σ → ι → Prop}
    (hallowed : ∀ s i, allowed s i → g s i = f s i)
    (hok : ∀ s i t, g s i = .ok t → allowed s i) {is : List ι} {s t : σ} :
    is.foldlM g s = .ok t ↔ is.foldlM f s = .ok t ∧
      ∀ before i u, before ++ [i] <+: is → before.foldlM f s = .ok u → allowed u i := by
  -- on the inputs: the first step, and the steps after it
  induction is generalizing s with
  | nil =>
    refine iff_self_and.mpr fun _ before i u hprefix _ => ?_
    exact absurd (List.prefix_nil.mp hprefix) (by simp)
  | cons i is ih =>
    constructor
    · intro hrun
      rw [List.foldlM_cons] at hrun
      obtain ⟨u, hu, hrun⟩ := bind_inv hrun
      have hfirst := hok s i u hu
      rw [hallowed s i hfirst] at hu
      obtain ⟨hrest, hall⟩ := ih.mp hrun
      refine ⟨by rw [List.foldlM_cons, hu]; exact hrest, fun before j v hprefix hv => ?_⟩
      cases before with
      | nil =>
        cases hv
        rwa [(List.cons_prefix_cons.mp hprefix).1]
      | cons i' before =>
        obtain ⟨rfl, hafter⟩ := List.cons_prefix_cons.mp hprefix
        rw [List.foldlM_cons, hu, ok_bind] at hv
        exact hall before j v hafter hv
    · rintro ⟨hrun, hall⟩
      have hfirst : allowed s i :=
        hall [] i s (List.cons_prefix_cons.mpr ⟨rfl, List.nil_prefix⟩) rfl
      rw [List.foldlM_cons] at hrun
      obtain ⟨u, hu, hrun⟩ := bind_inv hrun
      rw [List.foldlM_cons, hallowed s i hfirst, hu, ok_bind]
      refine ih.mpr ⟨hrun, fun before j v hprefix hv => ?_⟩
      refine hall (i :: before) j v (List.cons_prefix_cons.mpr ⟨rfl, hprefix⟩) ?_
      rw [List.foldlM_cons, hu, ok_bind, hv]

end Machine
