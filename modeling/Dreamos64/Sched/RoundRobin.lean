import Dreamos64.Sched.Dispatch

/-!
# Dreamos64 — round robin

`roundRobin` is what the search of `schedule` is for: go round the list from the
current thread, remove the DEAD threads met, pass over the others that cannot
run, and take the first that can. The search advances by
`scheduler_get_next_thread`, which starts at `current_executing_thread`, and the
loop does not move that: at a thread that neither runs nor is removed it stops.

* `scan_eq_roundRobin_iff` — the lists for which the scan is round robin;
* `round_robin_iff`        — the same for `schedule`;
* `ready_thread_passed_over` — a run in which a NEW thread waits behind a
  sleeping one while the idle thread is dispatched again.
-/

namespace Dreamos64

open Machine Links

namespace Scheduler

variable {s : Scheduler} {L ring l₁ l₂ : List Nat} {c i prevTid : Nat}

/-- The first thread of the rotation `rot` that can run, and the list `L` without
the DEAD threads before it. -/
def roundRobin (s : Scheduler) (kernelUptime : Nat) (L rot : List Nat) : Option Nat × List Nat :=
  (rot.find? (s.runnable kernelUptime),
    L.filter (· ∉ (rot.takeWhile (!s.runnable kernelUptime ·)).filter s.isDead))

/-- Lists for which the scan is round robin. Every DEAD thread at the front of the
ring can be told by its identifier from the thread looked at before it and from
the threads ahead of it in the list. The first thread behind these can run, or
else it is the idle thread's turn and no DEAD thread is in between. -/
def Regular (s : Scheduler) (kernelUptime idle : Nat) : Nat → List Nat → List Nat → Prop
  | _, _, [] => True
  | prevTid, L, n :: R =>
    if s.isDead n then
      (s.thread n).tid ≠ prevTid ∧
      (L.find? fun p => (s.thread p).tid = (s.thread n).tid) = some n ∧
      s.Regular kernelUptime idle (s.thread n).tid (L.erase n) R
    else if s.runnable kernelUptime n then (s.thread n).tid ≠ prevTid ∨ n = idle
    else (R.find? (s.runnable kernelUptime)).getD idle = idle ∧
      ∀ p ∈ R.takeWhile (!s.runnable kernelUptime ·), s.isDead p = false

/-! ## Lists -/

theorem filter_not_mem_eq_self {D : List Nat} (hsub : ∀ p ∈ D, p ∈ L) :
    L.filter (· ∉ D) = L ↔ D = [] := by
  constructor
  · intro hall
    refine List.eq_nil_iff_forall_not_mem.2 fun p hp => ?_
    have hout := List.filter_eq_self.1 hall p (hsub p hp)
    simp [hp] at hout
  · rintro rfl
    simp

/-- Where the scan stops at once, on the idle thread. -/
theorem stops_iff (kernelUptime : Nat) (hsub : ∀ p ∈ ring, p ∈ L) :
    (i, L) = ((ring.find? (s.runnable kernelUptime)).getD i,
        L.filter (· ∉ (ring.takeWhile (!s.runnable kernelUptime ·)).filter s.isDead)) ↔
      (ring.find? (s.runnable kernelUptime)).getD i = i ∧
        ∀ p ∈ ring.takeWhile (!s.runnable kernelUptime ·), s.isDead p = false := by
  have hpassed : ∀ p ∈ (ring.takeWhile (!s.runnable kernelUptime ·)).filter s.isDead, p ∈ L :=
    fun p hp => hsub p ((List.takeWhile_sublist _).subset (List.mem_of_mem_filter hp))
  rw [Prod.mk.injEq, eq_comm, eq_comm (a := L), filter_not_mem_eq_self hpassed,
    List.filter_eq_nil_iff]
  simp only [Bool.not_eq_true]

theorem scan_eq_roundRobin_iff (kernelUptime : Nat) (hnd : L.Nodup) (hring : ring.Nodup)
    (hsub : ∀ p ∈ ring, p ∈ L) :
    s.scan kernelUptime i prevTid L ring = ((ring.find? (s.runnable kernelUptime)).getD i,
        L.filter (· ∉ (ring.takeWhile (!s.runnable kernelUptime ·)).filter s.isDead)) ↔
      s.Regular kernelUptime i prevTid L ring := by
  -- at each thread: removed and passed, taken, or the place where the two differ
  induction ring generalizing L prevTid with
  | nil => simp [scan, Regular]
  | cons n R ih =>
    obtain ⟨hnR, hR⟩ := List.nodup_cons.1 hring
    have hnL := hsub n List.mem_cons_self
    have hsubR : ∀ p ∈ R, p ∈ L := fun p hp => hsub p (List.mem_cons_of_mem _ hp)
    cases hdead : s.isDead n with
    | true =>
      have hrun : s.runnable kernelUptime n = false := by
        cases hrun : s.runnable kernelUptime n with
        | false => rfl
        | true => rw [not_isDead_of_runnable hrun] at hdead; cases hdead
      -- round robin removes this thread
      have hgone : ((n :: R).takeWhile (!s.runnable kernelUptime ·)).filter s.isDead =
          n :: (R.takeWhile (!s.runnable kernelUptime ·)).filter s.isDead := by
        simp [hrun, hdead]
      have hfirst : (n :: R).find? (s.runnable kernelUptime) =
          R.find? (s.runnable kernelUptime) := by
        simp [hrun]
      have hkept {L' : List Nat} (hmem : n ∈ L') : (i, L') ≠
          ((R.find? (s.runnable kernelUptime)).getD i,
            L.filter (· ∉ n :: (R.takeWhile (!s.runnable kernelUptime ·)).filter s.isDead)) := by
        intro he
        rw [(Prod.mk.inj he).2] at hmem
        simp at hmem
      obtain ⟨x, k₁, k₂, hfind, rfl, -, -⟩ := first_with_tid s hnL
      rw [hgone, hfirst]
      simp only [scan, Regular, hdead, hrun, hfind, Option.getD_some, Option.some.injEq,
        Bool.false_eq_true, if_false, if_true]
      split_ifs with htid hxn
      · simp only [htid, ne_eq, not_true_eq_false, false_and, iff_false]
        exact hkept hnL
      · subst hxn
        have hsub' : ∀ p ∈ R, p ∈ (k₁ ++ x :: k₂).erase x := by
          intro p hp
          refine (List.mem_erase_of_ne ?_).2 (hsubR p hp)
          rintro rfl
          exact hnR hp
        rw [filter_removed hnd, ← erase_middle hnd, ih (hnd.erase x) hR hsub']
        simp [htid]
      · -- another thread is removed, and this one stays
        simp only [hxn, false_and, and_false, iff_false]
        exact hkept ((List.mem_erase_of_ne (Ne.symm hxn)).2 hnL)
    | false =>
      cases hrun : s.runnable kernelUptime n with
      | true =>
        simp only [scan, Regular, hdead, hrun, Bool.false_eq_true, if_false, if_true]
        split_ifs with htid
        · simp [hrun, htid, eq_comm]
        · simp [hrun, htid]
      | false =>
        have hgone : ((n :: R).takeWhile (!s.runnable kernelUptime ·)).filter s.isDead =
            (R.takeWhile (!s.runnable kernelUptime ·)).filter s.isDead := by
          simp [hrun, hdead]
        have hfirst : (n :: R).find? (s.runnable kernelUptime) =
            R.find? (s.runnable kernelUptime) := by
          simp [hrun]
        rw [hgone, hfirst]
        simp only [scan, Regular, hdead, hrun, Bool.false_eq_true, if_false, ite_self]
        exact stops_iff kernelUptime hsubR

/-- A rotation with a last thread that is taken if no other one is. -/
theorem rotation_closed {run run' : Nat → Bool} (hothers : ∀ p ∈ ring, run' p = run p)
    (hlast : ring.find? run = none → run' c = true) :
    (ring ++ [c]).find? run' = some ((ring.find? run).getD c) ∧
      (ring ++ [c]).takeWhile (!run' ·) = ring.takeWhile (!run ·) := by
  induction ring with
  | nil =>
    have hc := hlast rfl
    simp [hc]
  | cons n R ih =>
    have hn := hothers n List.mem_cons_self
    cases hrun : run n with
    | true => simp [hn, hrun]
    | false =>
      rw [List.find?_cons_of_neg (by simp [hrun])] at hlast
      obtain ⟨hfind, htake⟩ := ih (fun p hp => hothers p (List.mem_cons_of_mem _ hp)) hlast
      simp [hn, hrun, hfind, htake]

/-! ## `schedule` -/

/-- Unless it is current, the idle thread can run. -/
theorem SchedInv.idle_runnable (h : SchedInv s L i) (hi : i ∈ L) (kernelUptime : Nat)
    (hc : s.currentExecutingThread ≠ some i) : s.runnable kernelUptime i = true := by
  rcases h.awake with hs | hs | hs
  · simp [runnable, hs]
  · exact absurd (h.running i hi hs) hc
  · simp [runnable, hs]

/-- Round robin from the current thread, in a state of the invariant. The rotation
is back at the current thread only if that is the idle thread. -/
theorem roundRobin_rotation (kernelUptime curStatus : Nat) (h : SchedInv s (l₁ ++ c :: l₂) i)
    (hi : i ∈ l₁ ++ c :: l₂) (hc : s.currentExecutingThread = some c) :
    (s.saved c curStatus).roundRobin kernelUptime (l₁ ++ c :: l₂) (l₂ ++ l₁ ++ [c]) =
      (some (((l₂ ++ l₁).find? (s.runnable kernelUptime)).getD i), (l₁ ++ c :: l₂).filter
        (· ∉ ((l₂ ++ l₁).takeWhile (!s.runnable kernelUptime ·)).filter s.isDead)) := by
  have hcout := current_not_mem h.listed.chain.nodup
  have hothers : ∀ p ∈ l₂ ++ l₁,
      (s.saved c curStatus).runnable kernelUptime p = s.runnable kernelUptime p := by
    intro p hp
    refine saved_runnable ?_
    rintro rfl
    exact hcout hp
  -- the scan comes back to the current thread only if it is the idle thread
  have hback : (l₂ ++ l₁).find? (s.runnable kernelUptime) = none → c = i := by
    intro hnone
    by_contra hci
    have hidle := h.idle_runnable hi kernelUptime fun he => hci (Option.some.inj (hc.symm.trans he))
    refine List.find?_eq_none.1 hnone i ?_ hidle
    simp only [List.mem_append, List.mem_cons] at hi ⊢
    rcases hi with hi | rfl | hi
    · exact Or.inr hi
    · exact absurd rfl hci
    · exact Or.inl hi
  -- and that one was saved as ready
  have hlast : (l₂ ++ l₁).find? (s.runnable kernelUptime) = none →
      (s.saved c curStatus).runnable kernelUptime c = true := by
    intro hnone
    obtain rfl := hback hnone
    rw [runnable, saved_thread, if_pos rfl]
    rcases h.awake with hs | hs | hs <;> simp [savedThread, hs]
  obtain ⟨hfind, htake⟩ := rotation_closed hothers hlast
  have hdead : (s.saved c curStatus).isDead = s.isDead := funext (saved_isDead s c curStatus)
  rw [roundRobin, hfind, htake, hdead]
  cases hfirst : (l₂ ++ l₁).find? (s.runnable kernelUptime) with
  | none => rw [hback hfirst]
  | some n => rfl

end Scheduler

open Scheduler

/-- **When `schedule` is round robin.** In every state of the invariant with the
idle thread listed, a call past the quantum check returns, and it makes current
the thread that round robin chooses, and leaves the list that round robin leaves,
exactly if the list is `Regular` from the current thread on. -/
theorem round_robin_iff {s : Scheduler} {l₁ l₂ : List Nat} {c i : Nat}
    (kernelUptime curStatus : Nat) (hinv : SchedInv s (l₁ ++ c :: l₂) i)
    (hi : i ∈ l₁ ++ c :: l₂) (hc : s.currentExecutingThread = some c)
    (hq : s.quantumOver = true) :
    ∃ ret t, s.schedule kernelUptime curStatus = .ok (ret, t) ∧
      (t.currentExecutingThread = ((s.saved c curStatus).roundRobin kernelUptime (l₁ ++ c :: l₂)
          (l₂ ++ l₁ ++ [c])).1 ∧
        Chain t.nextOf t.threadList ((s.saved c curStatus).roundRobin kernelUptime
          (l₁ ++ c :: l₂) (l₂ ++ l₁ ++ [c])).2 ↔
      s.Regular kernelUptime i (s.thread c).tid (l₁ ++ c :: l₂) (l₂ ++ l₁)) := by
  have hnd := hinv.listed.chain.nodup
  obtain ⟨hring, hsub⟩ := ring_nodup hnd
  obtain ⟨t, T, hsched, -, hT, hl⟩ := schedule_scan kernelUptime curStatus hinv hi hc hq
  have hchain := (switchTo_listed hl T).chain
  refine ⟨_, _, hsched, ?_⟩
  rw [← scan_eq_roundRobin_iff kernelUptime hnd hring hsub,
    roundRobin_rotation kernelUptime curStatus hinv hi hc]
  constructor
  · rintro ⟨hcur, hlist⟩
    refine Prod.ext ?_ (hchain.unique hlist)
    rw [← hT]
    exact Option.some.inj hcur
  · intro hscan
    rw [hscan] at hT hchain
    exact ⟨congrArg some hT, hchain⟩

/-- A worker goes to sleep and the idle thread, next in the list, takes over. -/
theorem round_robin_iff_idle :
    ∃ s ret t, Run schedStep (bootScheduler blankScheduler [⟨0, 100, 0⟩, ⟨0, 200, 0⟩] 1)
        [.sleep 0 5] s ∧
      s.schedule 1 77 = .ok (ret, t) ∧
      t.currentExecutingThread =
        ((s.saved 0 77).roundRobin 1 ([1] ++ 0 :: []) ([] ++ [1] ++ [0])).1 ∧
      Chain t.nextOf t.threadList
        ((s.saved 0 77).roundRobin 1 ([1] ++ 0 :: []) ([] ++ [1] ++ [0])).2 := by
  obtain ⟨s, hexec, hq, hdead, hready, hcreated, htid₀, htid₁, hc, hhead, hnext, hend⟩ : ∃ s,
      schedRun (bootScheduler blankScheduler [⟨0, 100, 0⟩, ⟨0, 200, 0⟩] 1) [.sleep 0 5] = .ok s ∧
      s.quantumOver = true ∧ s.isDead 1 = false ∧ s.runnable 1 1 = true ∧ s.created = 2 ∧
      (s.thread 0).tid = 0 ∧ (s.thread 1).tid = 1 ∧ s.currentExecutingThread = some 0 ∧
      s.threadList = some 1 ∧ s.nextOf 1 = some 0 ∧ s.nextOf 0 = none := by decide +kernel
  have hrun := schedRun_run hexec
  obtain ⟨L, hinv, hi, -⟩ := schedRun_keeps (by decide) hrun (by rw [hcreated]; decide)
  have hchain : Chain s.nextOf s.threadList ([1] ++ 0 :: []) := by
    simp [chain_cons, chain_nil, hhead, hnext, hend]
  obtain rfl := hinv.listed.chain.unique hchain
  obtain ⟨ret, t, hsched, hiff⟩ := round_robin_iff 1 77 hinv hi hc hq
  have hregular : s.Regular 1 1 (s.thread 0).tid ([1] ++ 0 :: []) ([] ++ [1]) := by
    simp [Regular, hdead, hready, htid₀, htid₁]
  obtain ⟨hcur, hlist⟩ := hiff.2 hregular
  exact ⟨s, ret, t, hrun, hsched, hcur, hlist⟩

/-- **A thread that can run is passed over.** The worker sleeps until 1000, a third
thread is created, and the idle thread uses up its quantum. Round robin would
take the third thread, and `schedule` takes the idle thread again. -/
theorem ready_thread_passed_over :
    ∃ s ret t, Run schedStep (bootScheduler blankScheduler [⟨0, 100, 0⟩, ⟨0, 200, 0⟩] 1)
        (.sleep 0 1000 :: .schedule 1 70 :: .create 0 300 0 ::
          List.replicate schedulerNumberOfTicks (.schedule 2 71)) s ∧
      s.quantumOver = true ∧ s.currentExecutingThread = some 1 ∧ s.idleThread = some 1 ∧
      Chain s.nextOf s.threadList [2, 1, 0] ∧
      ((s.saved 1 72).roundRobin 3 [2, 1, 0] [0, 2, 1]).1 = some 2 ∧
      s.schedule 3 72 = .ok (ret, t) ∧ t.currentExecutingThread = some 1 := by
  obtain ⟨s, hexec, hq, hc, hidle, hhead, hnext₂, hnext₁, hend, hfirst, ret, t, hsched⟩ : ∃ s,
      schedRun (bootScheduler blankScheduler [⟨0, 100, 0⟩, ⟨0, 200, 0⟩] 1)
        (.sleep 0 1000 :: .schedule 1 70 :: .create 0 300 0 ::
          List.replicate schedulerNumberOfTicks (.schedule 2 71)) = .ok s ∧
      s.quantumOver = true ∧ s.currentExecutingThread = some 1 ∧ s.idleThread = some 1 ∧
      s.threadList = some 2 ∧ s.nextOf 2 = some 1 ∧ s.nextOf 1 = some 0 ∧ s.nextOf 0 = none ∧
      ((s.saved 1 72).roundRobin 3 [2, 1, 0] [0, 2, 1]).1 = some 2 ∧
      ∃ ret t, s.schedule 3 72 = .ok (ret, t) ∧ t.currentExecutingThread = some 1 := by
    decide +kernel
  refine ⟨s, ret, t, schedRun_run hexec, hq, hc, hidle, ?_, hfirst, hsched⟩
  simp [chain_cons, chain_nil, hhead, hnext₂, hnext₁, hend]

end Dreamos64
