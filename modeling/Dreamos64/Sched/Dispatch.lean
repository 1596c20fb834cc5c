import Dreamos64.Sched.SchedulerList

/-!
# Dreamos64 — only runnable threads are dispatched

Identifiers are 16 bits wide, so after enough threads two of the list can share
one, and `schedule`, which unlinks a DEAD thread by its identifier, can unlink
the other. The results of this module hold all the same:

* `SchedInv.dispatch`         — one `schedule` call with the idle thread listed;
* `schedRun_idleListed`       — an idle thread among the first `2 ^ 16` threads
  stays in the list for ever;
* `only_runnable_dispatched`  — along all runs that keep the idle thread in the
  list, what is dispatched could run, and it alone has status RUN.

The reason is in `scan`: when the thread unlinked is not the one looked at,
the next turn looks at the same thread again, finds the identifier it has just
seen, and leaves with the idle thread.
-/

namespace Dreamos64

open Machine Links Scheduler

/-- The idle thread is in the list. -/
def IdleListed (s : Scheduler) : Prop :=
  ∃ L i, Chain s.nextOf s.threadList L ∧ s.idleThread = some i ∧ i ∈ L

/-- A permitted call after which the idle thread is in the list. -/
def dispatchStep (s : Scheduler) (call : SchedCall) (t : Scheduler) : Prop :=
  schedStep s call t ∧ IdleListed t

namespace Scheduler

variable {s t u u' : Scheduler} {L L' k₁ k₂ : List Nat} {c i n p x : Nat}

/-! ## The search with any identifiers -/

/-- No thread behind the idle thread has its identifier, so no removal by
identifier reaches it. -/
def Shielded (s : Scheduler) (L : List Nat) (i : Nat) : Prop :=
  L.Pairwise fun p q => p = i → (s.thread q).tid ≠ (s.thread p).tid

theorem Shielded.mono (h : Shielded s L i) (hsub : L'.Sublist L)
    (htid : ∀ p ∈ L', (t.thread p).tid = (s.thread p).tid) : Shielded t L' i := by
  refine (h.sublist hsub).imp_of_mem ?_
  intro p q hp hq hpq
  rw [htid p hp, htid q hq]
  exact hpq

variable {kernelUptime curStatus prevTid ret : Nat} {ring : List Nat}

theorem scan_sublist (s : Scheduler) (kernelUptime i prevTid : Nat) (L ring : List Nat) :
    (s.scan kernelUptime i prevTid L ring).2.Sublist L := by
  -- the scan only erases
  induction ring generalizing L prevTid with
  | nil => exact List.Sublist.refl L
  | cons n R ih =>
    simp only [scan]
    split_ifs
    · exact List.Sublist.refl L
    · exact List.Sublist.refl L
    · exact (ih ..).trans List.erase_sublist
    · exact List.erase_sublist
    · exact List.Sublist.refl L

/-- The scan settles on the idle thread, or on a thread that can run and that it
leaves in the list. -/
theorem scan_target (s : Scheduler) (kernelUptime i prevTid : Nat) (hring : ring.Nodup)
    (hsub : ∀ p ∈ ring, p ∈ L) :
    (s.scan kernelUptime i prevTid L ring).1 = i ∨
      s.runnable kernelUptime (s.scan kernelUptime i prevTid L ring).1 = true ∧
        (s.scan kernelUptime i prevTid L ring).1 ∈ (s.scan kernelUptime i prevTid L ring).2 := by
  -- a thread further on is not the one that is erased, because the ring has no repetition
  induction ring generalizing L prevTid with
  | nil => exact Or.inl rfl
  | cons n R ih =>
    obtain ⟨hnR, hR⟩ := List.nodup_cons.1 hring
    simp only [scan]
    split_ifs with htid hrun hdead hx
    · exact Or.inl rfl
    · exact Or.inr ⟨hrun, hsub n List.mem_cons_self⟩
    · refine ih _ hR fun p hp => (List.mem_erase_of_ne ?_).2 (hsub p (List.mem_cons_of_mem _ hp))
      rintro rfl
      exact hnR hp
    · exact Or.inl rfl
    · exact Or.inl rfl

/-- The scan does not unlink a shielded idle thread. -/
theorem scan_shield (hshield : Shielded s L i) (hi : i ∈ L) (halive : s.isDead i = false)
    (hring : ring.Nodup) (hsub : ∀ p ∈ ring, p ∈ L) :
    i ∈ (s.scan kernelUptime i prevTid L ring).2 := by
  -- a removal that took out the idle thread would be by the identifier of a thread behind it
  induction ring generalizing L prevTid with
  | nil => exact hi
  | cons n R ih =>
    obtain ⟨hnR, hR⟩ := List.nodup_cons.1 hring
    have hnL := hsub n List.mem_cons_self
    simp only [scan]
    split_ifs with htid hrun hdead hx
    · exact hi
    · exact hi
    · have hin : i ≠ n := by
        rintro rfl
        simp [halive] at hdead
      refine ih (hshield.mono List.erase_sublist fun _ _ => rfl)
        ((List.mem_erase_of_ne hin).2 hi) hR
        fun p hp => (List.mem_erase_of_ne ?_).2 (hsub p (List.mem_cons_of_mem _ hp))
      rintro rfl
      exact hnR hp
    · obtain ⟨x, k₁, k₂, hfind, rfl, hfirst, htidx⟩ := first_with_tid s hnL
      rw [hfind, Option.getD_some] at hx ⊢
      refine (List.mem_erase_of_ne ?_).2 hi
      rintro rfl
      -- the thread looked at would come after the idle thread, with its identifier
      have hnk₂ : n ∈ k₂ := by
        simp only [List.mem_append, List.mem_cons] at hnL
        rcases hnL with hnk | hni | hnk
        · exact absurd rfl (hfirst n hnk)
        · exact absurd hni.symm hx
        · exact hnk
      have hpair := (List.pairwise_append.1 hshield).2.1
      exact List.rel_of_pairwise_cons hpair hnk₂ rfl htidx.symm
    · exact hi

/-- **One call.** If the idle thread is still listed afterwards, or is shielded,
the thread dispatched could run or is the idle thread, and it is listed. -/
theorem SchedInv.dispatch (h : SchedInv s L i) (hi : i ∈ L)
    (hc : s.currentExecutingThread = some c) (hq : s.quantumOver = true)
    (hsched : s.schedule kernelUptime curStatus = .ok (ret, t))
    (hidle : Shielded s L i ∨ IdleListed t) :
    ∃ T L', t.currentExecutingThread = some T ∧
      (s.runnable kernelUptime T = true ∨ T = i) ∧ L'.Sublist L ∧
      (∀ p, (t.thread p).tid = (s.thread p).tid) ∧ SchedInv t L' i ∧ i ∈ L' ∧ T ∈ L' := by
  obtain ⟨c', hcL, hc'⟩ := h.current
  obtain rfl : c' = c := Option.some.inj (hc'.symm.trans hc)
  obtain ⟨l₁, l₂, rfl⟩ := List.append_of_mem hcL
  obtain ⟨hring, hsub⟩ := ring_nodup h.listed.chain.nodup
  obtain ⟨u, T, hsched', hrel, hT, hl⟩ := schedule_scan kernelUptime curStatus h hi hc hq
  cases hsched.symm.trans hsched'
  have hlist := scan_sublist s kernelUptime i (s.thread c').tid (l₁ ++ c' :: l₂) (l₂ ++ l₁)
  have htarget := scan_target s kernelUptime i (s.thread c').tid hring hsub
  have hiL' : i ∈ (s.scan kernelUptime i (s.thread c').tid (l₁ ++ c' :: l₂) (l₂ ++ l₁)).2 := by
    rcases hidle with hshield | ⟨L', j, hchain, hj, hjL'⟩
    · exact scan_shield hshield hi h.idle_alive hring hsub
    · obtain rfl := hchain.unique (switchTo_listed hl T).chain
      obtain rfl : j = i := Option.some.inj (hj.symm.trans (hrel.idle.trans h.idle))
      exact hjL'
  rw [← hT] at htarget
  have hTL' : T ∈ (s.scan kernelUptime i (s.thread c').tid (l₁ ++ c' :: l₂) (l₂ ++ l₁)).2 := by
    rcases htarget with rfl | ⟨-, hmem⟩
    · exact hiL'
    · exact hmem
  refine ⟨T, _, rfl, ?_, hlist, switched_tid hrel, ?_, hiL', hTL'⟩
  · exact htarget.symm.imp_left And.left
  · exact h.switch hc hrel hl (fun p hp => hlist.subset hp) hTL'

/-- The thread made current has status RUN. -/
theorem schedule_running {T : Nat} (hc : s.currentExecutingThread = some c)
    (hq : s.quantumOver = true) (hsched : s.schedule kernelUptime curStatus = .ok (ret, t))
    (hT : t.currentExecutingThread = some T) : (t.thread T).status = .run := by
  obtain ⟨u, T', -, rfl, -⟩ := schedule_relinked hc hq hsched
  obtain rfl : T' = T := Option.some.inj hT
  rw [switchTo_thread, if_pos rfl]

/-! ## Runs -/

theorem Shielded.create (h : Shielded s L i) (hl : Listed s L) (parentTask frame rsp0 : Nat)
    (hnew : s.created = i → ∀ q ∈ L, (s.thread q).tid ≠ s.nextThreadId % 2 ^ 16) :
    Shielded (s.createThread parentTask frame rsp0) (s.created :: L) i := by
  have hold {p : Nat} (hp : p ∈ L) :
      (s.createThread parentTask frame rsp0).thread p = s.thread p := by
    rw [createThread_thread, if_neg (Nat.ne_of_lt (hl.bound p hp))]
  refine List.pairwise_cons.2 ⟨fun q hq hi => ?_, ?_⟩
  · rw [hold hq, createThread_thread, if_pos rfl]
    exact hnew hi q hq
  · exact h.mono (List.Sublist.refl L) fun p hp => by rw [hold hp]

theorem Shielded.modify {f : Thread → Thread} (h : Shielded s L i)
    (htid : ∀ t, (f t).tid = t.tid) : Shielded (s.modify c f) L i := by
  refine h.mono (List.Sublist.refl L) fun p _ => ?_
  rw [modify_thread]
  split_ifs with hp
  · rw [htid, hp]
  · rfl

/-- A permitted call keeps the invariant while the idle thread is listed. A shield
is kept, and keeps the idle thread listed. -/
theorem schedStep_dispatch {call : SchedCall} (h : SchedInv s L i) (hi : i ∈ L)
    (hstep : schedStep s call t) (hidle : Shielded s L i ∨ IdleListed t) :
    ∃ L', SchedInv t L' i ∧ i ∈ L' ∧ (Shielded s L i → Shielded t L' i) := by
  rcases exec_cases hstep.2 with ⟨_, _, _, rfl, rfl⟩ |
    ⟨c, hc, ⟨f, rfl, hnext, htid, hstatus⟩ | ⟨kernelUptime, curStatus, ret, rfl, hq, hsched⟩⟩
  · have hlt := h.listed.bound i hi
    refine ⟨_, h.create hlt .., List.mem_cons_of_mem _ hi, fun hshield => ?_⟩
    exact hshield.create h.listed _ _ _ fun hnew => absurd hnew.symm (Nat.ne_of_lt hlt)
  · exact ⟨L, h.modify_current hc hnext fun he => hstatus hstep.1 (he ▸ h.idle), hi,
      fun hshield => hshield.modify htid⟩
  · obtain ⟨T, L', -, -, hsub, htid, hinv, hiL', -⟩ := h.dispatch hi hc hq hsched hidle
    exact ⟨L', hinv, hiL', fun hshield => hshield.mono hsub fun p _ => htid p⟩

/-- Threads created at boot after the idle thread are ahead of it in the list. -/
theorem boot_shielded (s : Scheduler) (threads : List BootThread) (hi : i < 2 ^ 16)
    (hL : Listed (threads.foldl (fun s t => s.createThread t.parentTask t.frame t.rsp0)
      s.initScheduler) L) :
    Shielded (threads.foldl (fun s t => s.createThread t.parentTask t.frame t.rsp0)
      s.initScheduler) L i := by
  -- a thread that is created goes to the front, ahead of the idle one
  induction threads using List.reverseRecOn generalizing L with
  | nil =>
    obtain rfl : L = [] := hL.chain.unique rfl
    exact List.Pairwise.nil
  | append_singleton threads t ih =>
    rw [List.foldl_append] at hL ⊢
    obtain ⟨L₀, hfresh, -⟩ := boot_fresh s threads
    obtain rfl := hL.chain.unique (createThread_listed hfresh.listed ..).chain
    refine (ih hfresh.listed).create hfresh.listed _ _ _ fun hnew q hq => ?_
    have hlt := hfresh.listed.bound q hq
    rw [hfresh.registered.tids q hlt, hfresh.registered.ids]
    omega

end Scheduler

theorem dispatchRun_keeps {s₀ s : Scheduler} {threads : List BootThread} {i : Nat}
    {calls : List SchedCall} (hi : i < threads.length)
    (hrun : Run dispatchStep (bootScheduler s₀ threads i) calls s) :
    ∃ L, SchedInv s L i ∧ i ∈ L := by
  refine hrun.inv (fun s => ∃ L, SchedInv s L i ∧ i ∈ L) ?_ ?_
  · obtain ⟨L, hinv, hiL, -⟩ := boot_schedInv s₀ hi
    exact ⟨L, hinv, hiL⟩
  · rintro t u call ⟨L, hinv, hiL⟩ ⟨hstep, hidle⟩
    obtain ⟨L', hinv', hiL', -⟩ := schedStep_dispatch hinv hiL hstep (Or.inr hidle)
    exact ⟨L', hinv', hiL'⟩

theorem dispatchRun_idleListed {s₀ s : Scheduler} {threads : List BootThread} {i : Nat}
    {calls : List SchedCall} (hi : i < threads.length)
    (hrun : Run dispatchStep (bootScheduler s₀ threads i) calls s) : IdleListed s := by
  obtain ⟨L, hinv, hiL⟩ := dispatchRun_keeps hi hrun
  exact ⟨L, i, hinv.listed.chain, hinv.idle, hiL⟩

/-- An idle thread among the first `2 ^ 16` threads never leaves the list. -/
theorem schedRun_idleListed {s₀ s : Scheduler} {threads : List BootThread} {i : Nat}
    {calls : List SchedCall} (hi : i < threads.length) (hearly : i < 2 ^ 16)
    (hrun : Run schedStep (bootScheduler s₀ threads i) calls s) :
    Run dispatchStep (bootScheduler s₀ threads i) calls s := by
  suffices h : Run dispatchStep (bootScheduler s₀ threads i) calls s ∧
      ∃ L, SchedInv s L i ∧ i ∈ L ∧ Shielded s L i from h.1
  -- a shielded idle thread stays listed, which is what `dispatchStep` asks of each state
  refine hrun.trace (fun calls s => Run dispatchStep (bootScheduler s₀ threads i) calls s ∧
    ∃ L, SchedInv s L i ∧ i ∈ L ∧ Shielded s L i) ⟨Run.start, ?_⟩ ?_
  · obtain ⟨L, hinv, hiL, -⟩ := boot_schedInv s₀ hi
    have hl := hinv.listed
    exact ⟨L, hinv, hiL, boot_shielded s₀ threads hearly ⟨hl.chain, hl.size, hl.bound⟩⟩
  · rintro calls t u call - ⟨hrun, L, hinv, hiL, hshield⟩ hstep
    obtain ⟨L', hinv', hiL', hshield'⟩ := schedStep_dispatch hinv hiL hstep (Or.inl hshield)
    exact ⟨hrun.extend ⟨hstep, L', i, hinv'.listed.chain, hinv'.idle, hiL'⟩, L', hinv', hiL',
      hshield' hshield⟩

/-! ## The result -/

/-- **Only runnable threads are dispatched**, and the thread dispatched is the one
thread of the list with status RUN. The runs are all those that keep the idle
thread in the list and do not let it sleep or exit, with any number of threads. -/
theorem only_runnable_dispatched {s₀ s t : Scheduler} {threads : List BootThread} {i : Nat}
    {calls : List SchedCall} {kernelUptime curStatus ret : Nat} (hi : i < threads.length)
    (hrun : Run dispatchStep (bootScheduler s₀ threads i) calls s) (hq : s.quantumOver = true)
    (hsched : s.schedule kernelUptime curStatus = .ok (ret, t)) (hidle : IdleListed t) :
    ∃ T L, t.currentExecutingThread = some T ∧
      ((s.thread T).status = .ready ∨ (s.thread T).status = .new ∨
        (s.thread T).status = .sleep ∧ kernelUptime > (s.thread T).wakeupTime ∨
        s.idleThread = some T) ∧
      (s.thread T).status ≠ .dead ∧
      ((s.thread T).status = .sleep → kernelUptime > (s.thread T).wakeupTime) ∧
      Chain t.nextOf t.threadList L ∧ T ∈ L ∧ ∀ p ∈ L, (t.thread p).status = .run ↔ p = T := by
  obtain ⟨L, hinv, hiL⟩ := dispatchRun_keeps hi hrun
  obtain ⟨c, hcL, hc⟩ := hinv.current
  obtain ⟨T, L', hT, hchoice, -, -, hinv', hiL', hTL'⟩ :=
    hinv.dispatch hiL hc hq hsched (Or.inr hidle)
  have hone : ∀ p ∈ L', (t.thread p).status = .run ↔ p = T := by
    intro p hp
    constructor
    · intro hrunning
      exact Option.some.inj ((hinv'.running p hp hrunning).symm.trans hT)
    · rintro rfl
      exact schedule_running hc hq hsched hT
  rcases hchoice with hrunnable | rfl
  · have hstatus : (s.thread T).status = .ready ∨ (s.thread T).status = .new ∨
        (s.thread T).status = .sleep ∧ kernelUptime > (s.thread T).wakeupTime := by
      simpa [runnable] using hrunnable
    refine ⟨T, L', hT, ?_, ?_, ?_, hinv'.listed.chain, hTL', hone⟩
    · rcases hstatus with h | h | h
      · exact Or.inl h
      · exact Or.inr (Or.inl h)
      · exact Or.inr (Or.inr (Or.inl h))
    · rcases hstatus with h | h | h <;> simp [h]
    · rcases hstatus with h | h | h <;> simp [h]
  · -- the idle thread never sleeps or dies
    refine ⟨T, L', hT, Or.inr (Or.inr (Or.inr hinv.idle)), ?_, ?_, hinv'.listed.chain, hTL', hone⟩
    · rcases hinv.awake with h | h | h <;> simp [h]
    · rcases hinv.awake with h | h | h <;> simp [h]

/-- A worker exits next to an idle thread and a thread created later, which is
dispatched. -/
theorem only_runnable_dispatched_created :
    ∃ s t T L, Run dispatchStep (bootScheduler blankScheduler [⟨0, 100, 0⟩, ⟨0, 200, 0⟩] 1)
        [.create 0 300 0, .exit 0] s ∧
      s.schedule 5 77 = .ok (300, t) ∧ t.currentExecutingThread = some T ∧
      (s.thread T).status ≠ .dead ∧ Chain t.nextOf t.threadList L ∧
      ∀ p ∈ L, (t.thread p).status = .run ↔ p = T := by
  obtain ⟨s, hexec, hq, t, hsched, -⟩ : ∃ s,
      schedRun (bootScheduler blankScheduler [⟨0, 100, 0⟩, ⟨0, 200, 0⟩] 1)
        [.create 0 300 0, .exit 0] = .ok s ∧ s.quantumOver = true ∧
      ∃ t, s.schedule 5 77 = .ok (300, t) ∧ True := by decide +kernel
  have hcalls := schedRun_run hexec
  have hstep : schedStep s (.schedule 5 77) t := ⟨trivial, by rw [SchedCall.exec, hsched]; rfl⟩
  have hrun := schedRun_idleListed (by decide) (by decide) hcalls
  have hidle := dispatchRun_idleListed (by decide)
    (schedRun_idleListed (by decide) (by decide) (hcalls.extend hstep))
  obtain ⟨T, L, hT, -, hdead, -, hchain, -, hone⟩ :=
    only_runnable_dispatched (by decide) hrun hq hsched hidle
  exact ⟨s, t, T, L, hrun, hsched, hT, hdead, hchain, hone⟩

end Dreamos64
