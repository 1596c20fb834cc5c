import Mathlib.Logic.Function.Basic

/-!
# Dreamos64 — spinlocks on several CPUs

`spinlock.c`, one access to the shared memory at a time, with any number of CPUs and any
critical sections.

* `spinlock_serializes` — in whatever order the CPUs go on, at most one is inside, and the
  sections do to the memory what they do one after another.
-/

namespace Dreamos64

open Function

variable {ι σ : Type}

/-- A critical section: an access may write, and what comes next depends on what it read. -/
inductive Critical (σ : Type) where
  | leave
  | access (write : σ → σ) (next : σ → Critical σ)

/-- The section on its own. -/
def Critical.run : Critical σ → σ → σ
  | leave, mem => mem
  | access write next, mem => (next mem).run (write mem)

inductive LockPhase (σ : Type) where
  | outside
  | acquiring (body : Critical σ)
  | inside (rest : Critical σ)

/-- A `spinlock_t`, the memory behind it, the CPUs, and the sections in the order entered. -/
structure Spinlock (ι σ : Type) where
  locked  : Bool
  shared  : σ
  phase   : ι → LockPhase σ
  entered : List (Critical σ)

namespace Spinlock

/-- After `spinlock_init`. -/
def init (mem : σ) : Spinlock ι σ := ⟨false, mem, fun _ => .outside, []⟩

/-- The lock is taken while it has an owner, which alone is inside. Once the owner is through
with the rest of its section, the memory is what the sections make one after another. -/
structure Serialized (mem : σ) (s : Spinlock ι σ) (owner : Option (ι × Critical σ)) : Prop where
  locked : s.locked = owner.isSome
  inside : ∀ i rest, s.phase i = .inside rest ↔ owner = some (i, rest)
  shared : owner.elim s.shared (fun o => o.2.run s.shared) =
    s.entered.foldl (fun mem body => body.run mem) mem

variable [DecidableEq ι]

/-- A turn of its loop: `__atomic_test_and_set` gives what the flag was before. -/
def spinlockAcquire (s : Spinlock ι σ) (i : ι) (body : Critical σ) : Spinlock ι σ :=
  if s.locked then s
  else ⟨true, s.shared, update s.phase i (.inside body), s.entered ++ [body]⟩

def spinlockRelease (s : Spinlock ι σ) (i : ι) : Spinlock ι σ :=
  { s with locked := false, phase := update s.phase i .outside }

/-- A CPU goes on: outside, it calls `spinlock_acquire` for a section, and otherwise it makes
its next access. -/
def goOn (s : Spinlock ι σ) (e : ι × Critical σ) : Spinlock ι σ :=
  match s.phase e.1 with
  | .outside => { s with phase := update s.phase e.1 (.acquiring e.2) }
  | .acquiring body => s.spinlockAcquire e.1 body
  | .inside (.access write next) =>
    { s with shared := write s.shared, phase := update s.phase e.1 (.inside (next s.shared)) }
  | .inside .leave => s.spinlockRelease e.1

theorem Serialized.goOn {mem : σ} {s : Spinlock ι σ} {owner : Option (ι × Critical σ)}
    (h : s.Serialized mem owner) (e : ι × Critical σ) :
    ∃ owner, (s.goOn e).Serialized mem owner := by
  have hinside := h.inside
  unfold Spinlock.goOn
  split
  case h_1 => exact ⟨owner, h.locked, by grind, h.shared⟩
  case h_2 body _ =>
    unfold spinlockAcquire
    split
    case isTrue => exact ⟨owner, h⟩
    case isFalse hfree =>
      obtain rfl : owner = none := by simpa [h.locked] using hfree
      refine ⟨some (e.1, body), rfl, by grind, ?_⟩
      rw [List.foldl_append, ← h.shared]
      rfl
  -- inside, the CPU is the owner
  case h_3 next hphase =>
    obtain rfl := (hinside e.1 _).mp hphase
    exact ⟨some (e.1, next s.shared), h.locked, by grind, h.shared⟩
  case h_4 hphase =>
    obtain rfl := (hinside e.1 _).mp hphase
    unfold spinlockRelease
    exact ⟨none, rfl, by grind, h.shared⟩

end Spinlock

/-- **Mutual exclusion, and no lost update**, whatever the order of the steps. -/
theorem spinlock_serializes [DecidableEq ι] (mem : σ) (events : List (ι × Critical σ)) :
    ∃ owner, (events.foldl Spinlock.goOn (.init mem)).Serialized mem owner := by
  refine List.foldlRecOn (motive := fun s => ∃ owner, Spinlock.Serialized mem s owner)
    events _ ?_ ?_
  · exact ⟨none, rfl, by simp [Spinlock.init], rfl⟩
  · intro s ⟨owner, h⟩ e _
    exact h.goOn e

end Dreamos64
