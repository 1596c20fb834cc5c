import Dreamos64.Sched.SchedulerList

/-!
# Dreamos64 — thread identifiers

A `tid` has 16 bits and comes from a counter that never goes back, so it is given out
again after `2 ^ 16` threads, whether or not its first owner is still there.

* `IdsUnique` — what identifiers are for: listed threads have different ones, and a
  removal by identifier takes out the thread that was meant.
* `thread_ids_unique` — it holds all along a run exactly if every thread that was created
  got an identifier that no listed thread had.
-/

namespace Dreamos64

open Machine Links Scheduler

/-- Identifiers tell the listed threads apart.

* No two of them have the same.
* In every state that `schedule` goes through, with the same identifiers and no more
  threads in the list, `scheduler_delete_thread` of a thread's identifier unlinks it.
* A thread that `schedule` unlinks is DEAD. -/
def IdsUnique (s : Scheduler) : Prop :=
  ∃ L, Chain s.nextOf s.threadList L ∧ DistinctTids s L ∧
    (∀ u L', (∀ p, (u.thread p).tid = (s.thread p).tid) → Listed u L' → (∀ p ∈ L', p ∈ L) →
      ∀ n ∈ L', ∃ t, u.schedulerDeleteThread (u.thread n).tid = .ok t ∧
        Chain t.nextOf t.threadList (L'.erase n)) ∧
    ∀ kernelUptime curStatus, ∃ ret t L', s.schedule kernelUptime curStatus = .ok (ret, t) ∧
      Chain t.nextOf t.threadList L' ∧
      ∀ p ∈ L, p ∉ L' → (s.thread p).status = .dead ∧ s.currentExecutingThread ≠ some p

/-- A thread that is created gets an identifier that no listed thread has. -/
def SchedCall.FreshId (s : Scheduler) : SchedCall → Prop
  | .create .. => ∀ L, Chain s.nextOf s.threadList L →
      ∀ p ∈ L, (s.thread p).tid ≠ s.nextThreadId % 2 ^ 16
  | .schedule .. => True
  | .sleep .. => True
  | .exit _ => True

namespace Scheduler

variable {s t : Scheduler} {L : List Nat} {i : Nat}

/-- With different identifiers, a removal unlinks the thread that was meant. -/
theorem DistinctTids.delete (hdistinct : DistinctTids s L) {u : Scheduler} {L' : List Nat}
    (htids : ∀ p, (u.thread p).tid = (s.thread p).tid) (hlisted : Listed u L')
    (hsub : ∀ p ∈ L', p ∈ L) {n : Nat} (hn : n ∈ L') :
    ∃ t, u.schedulerDeleteThread (u.thread n).tid = .ok t ∧
      Chain t.nextOf t.threadList (L'.erase n) := by
  obtain ⟨l₁, l₂, rfl⟩ := List.append_of_mem hn
  have hnd := hlisted.chain.nodup
  have hfirst : ∀ y ∈ l₁, (u.thread y).tid ≠ (u.thread n).tid := by
    intro y hy htid
    rw [htids, htids] at htid
    have hyn : y = n := hdistinct y (hsub y (by simp [hy])) n (hsub n hn) htid
    exact not_mem_of_nodup_middle hnd (hyn ▸ List.mem_append_left _ hy)
  obtain ⟨t, hdelete, -, hlisted', -⟩ := schedulerDeleteThread_spec hlisted hfirst rfl
  refine ⟨t, hdelete, ?_⟩
  rw [erase_middle hnd]
  exact hlisted'.chain

theorem idsUnique_of_distinct (h : SchedInv s L i) (hi : i ∈ L) (hreg : Registered s L)
    (hdistinct : DistinctTids s L) : IdsUnique s := by
  refine ⟨L, h.listed.chain, hdistinct, fun u L' htids hlisted hsub n hn =>
    hdistinct.delete htids hlisted hsub hn, fun kernelUptime curStatus => ?_⟩
  obtain ⟨ret, t, L', hsched, -, hinv, -, -, -, hremoved⟩ :=
    schedule_keeps h hi hreg hdistinct kernelUptime curStatus
  exact ⟨ret, t, L', hsched, hinv.listed.chain, hremoved⟩

/-- A step keeps identifiers different if a thread that it creates gets a free one. -/
theorem DistinctTids.step {call : SchedCall} (hdistinct : DistinctTids s L) (h : SchedInv s L i)
    (hi : i ∈ L) (hreg : Registered s L) (hfresh : call.FreshId s) (hstep : schedStep s call t) :
    ∃ L', SchedInv t L' i ∧ i ∈ L' ∧ Registered t L' ∧ DistinctTids t L' := by
  obtain ⟨L', h', hi', hreg', hnew⟩ := schedStep_keeps h hi hreg hdistinct hstep
  refine ⟨L', h', hi', hreg', ?_⟩
  have hold : ∀ p ∈ L, (s.thread p).tid = p % 2 ^ 16 := fun p hp =>
    hreg.tids p (h.listed.bound p hp)
  have hadded : ∀ p ∈ L, (∃ parentTask frame rsp0, call = .create parentTask frame rsp0) →
      p % 2 ^ 16 ≠ s.created % 2 ^ 16 := by
    rintro p hp ⟨parentTask, frame, rsp0, rfl⟩
    rw [← hold p hp, ← hreg.ids]
    exact hfresh L h.listed.chain p hp
  intro p hp q hq htid
  rw [hreg'.tids p (h'.listed.bound p hp), hreg'.tids q (h'.listed.bound q hq)] at htid
  rcases hnew p hp with hpL | ⟨hpnew, hcreate⟩
  · rcases hnew q hq with hqL | ⟨hqnew, hcreate⟩
    · exact hdistinct p hpL q hqL (by rw [hold p hpL, hold q hqL, htid])
    · rw [hqnew] at htid
      exact absurd htid (hadded p hpL hcreate)
  · rcases hnew q hq with hqL | ⟨hqnew, -⟩
    · rw [hpnew] at htid
      exact absurd htid.symm (hadded q hqL hcreate)
    · rw [hpnew, hqnew]

/-- The first `2 ^ 16` threads get identifiers of their own. -/
theorem Registered.freshId (hreg : Registered s L) (hlisted : Listed s L)
    (hfew : s.created < 2 ^ 16) (call : SchedCall) : call.FreshId s := by
  cases call with
  | schedule kernelUptime curStatus => trivial
  | sleep kernelUptime millis => trivial
  | exit status => trivial
  | create parentTask frame rsp0 =>
    intro L' hchain p hp
    obtain rfl : L' = L := hchain.unique hlisted.chain
    have hp' := hlisted.bound p hp
    rw [hreg.tids p hp', hreg.ids]
    omega

/-- At boot identifiers are different as long as there are enough of them. -/
theorem boot_distinct_iff (s₀ : Scheduler) {threads : List BootThread} (hi : i < threads.length) :
    ∃ L, SchedInv (bootScheduler s₀ threads i) L i ∧ i ∈ L ∧
      Registered (bootScheduler s₀ threads i) L ∧
      (DistinctTids (bootScheduler s₀ threads i) L ↔ threads.length ≤ 2 ^ 16) := by
  obtain ⟨L, hinv, hiL, hreg⟩ := boot_schedInv s₀ hi
  obtain ⟨L', hfresh, hcreated⟩ := boot_fresh s₀ threads
  have hcreated' : (bootScheduler s₀ threads i).created = threads.length := hcreated
  obtain rfl : L = L' := hinv.listed.chain.unique hfresh.listed.chain
  refine ⟨L, hinv, hiL, hreg, ?_, ?_⟩
  · -- thread `2 ^ 16` would have the identifier of thread 0
    intro hdistinct
    by_contra hmany
    have hmem : ∀ p < threads.length, p ∈ L := fun p hp => (hfresh.new p (hcreated ▸ hp)).1
    have hwrap : 0 % 2 ^ 16 = 2 ^ 16 % 2 ^ 16 := by decide
    have hsame := hdistinct 0 (hmem 0 (by omega)) (2 ^ 16) (hmem (2 ^ 16) (by omega)) (by
      rw [hreg.tids 0 (by omega), hreg.tids (2 ^ 16) (by omega), hwrap])
    exact absurd hsame (by decide)
  · intro hfew p hp q hq htid
    have hp' := hinv.listed.bound p hp
    have hq' := hinv.listed.bound q hq
    rw [hreg.tids p hp', hreg.tids q hq'] at htid
    omega

end Scheduler

/-- **Thread identifiers.** In a run, identifiers tell the listed threads apart all along
exactly if every thread got one that was free: not more than `2 ^ 16` at boot, and later
one that no thread of the list has. -/
theorem thread_ids_unique (s₀ : Scheduler) {threads : List BootThread} {i : Nat}
    (hi : i < threads.length) (calls : List SchedCall) :
    (∀ before u, before <+: calls → Run schedStep (bootScheduler s₀ threads i) before u →
      IdsUnique u) ↔
      threads.length ≤ 2 ^ 16 ∧
        ∀ before call u, before ++ [call] <+: calls →
          Run schedStep (bootScheduler s₀ threads i) before u → call.FreshId u := by
  obtain ⟨L₀, hinv₀, hi₀, hreg₀, hboot⟩ := boot_distinct_iff s₀ hi
  constructor
  · intro hunique
    have hkept : ∀ before u, before <+: calls →
        Run schedStep (bootScheduler s₀ threads i) before u →
        ∃ L, SchedInv u L i ∧ i ∈ L ∧ Registered u L := by
      intro before u hbefore hrun
      refine hrun.trace (fun is t => is <+: calls →
        ∃ L, SchedInv t L i ∧ i ∈ L ∧ Registered t L) (fun _ => ⟨L₀, hinv₀, hi₀, hreg₀⟩) ?_ hbefore
      intro is t u call hrun ih hstep hpre
      have hpre' := (List.prefix_append is [call]).trans hpre
      obtain ⟨L, hinv, hiL, hreg⟩ := ih hpre'
      obtain ⟨L', hchain, hdistinct, -⟩ := hunique is t hpre' hrun
      rw [hchain.unique hinv.listed.chain] at hdistinct
      obtain ⟨L'', hinv', hiL'', hreg', -⟩ := schedStep_keeps hinv hiL hreg hdistinct hstep
      exact ⟨L'', hinv', hiL'', hreg'⟩
    constructor
    · obtain ⟨L, hchain, hdistinct, -⟩ := hunique [] _ List.nil_prefix Run.start
      rw [hchain.unique hinv₀.listed.chain] at hdistinct
      exact hboot.mp hdistinct
    · intro before call u hbefore hrun
      cases call with
      | schedule kernelUptime curStatus => trivial
      | sleep kernelUptime millis => trivial
      | exit status => trivial
      | create parentTask frame rsp0 =>
        intro L hchain p hp htid
        obtain ⟨L', hinv, hiL', hreg⟩ :=
          hkept before u ((List.prefix_append _ _).trans hbefore) hrun
        obtain rfl : L = L' := hchain.unique hinv.listed.chain
        -- the new thread is first in the list afterwards, and differs from all others
        have hcreated := hrun.extend (u := u.createThread parentTask frame rsp0)
          (show schedStep u (.create parentTask frame rsp0) _ from ⟨trivial, rfl⟩)
        obtain ⟨L', hchain', hdistinct, -⟩ := hunique _ _ hbefore hcreated
        rw [hchain'.unique (createThread_listed hinv.listed ..).chain] at hdistinct
        have hne : p ≠ u.created := Nat.ne_of_lt (hinv.listed.bound p hp)
        refine hne (hdistinct p (List.mem_cons_of_mem _ hp) u.created List.mem_cons_self ?_)
        rw [createThread_thread, if_neg hne, createThread_thread, if_pos rfl]
        exact htid
  · rintro ⟨hfew, hfresh⟩ before u hbefore hrun
    have hkeeps : ∃ L, SchedInv u L i ∧ i ∈ L ∧ Registered u L ∧ DistinctTids u L := by
      refine hrun.trace (fun is t => is <+: calls →
        ∃ L, SchedInv t L i ∧ i ∈ L ∧ Registered t L ∧ DistinctTids t L) ?_ ?_ hbefore
      · exact fun _ => ⟨L₀, hinv₀, hi₀, hreg₀, hboot.mpr hfew⟩
      · intro is t u call hrun ih hstep hpre
        obtain ⟨L, hinv, hiL, hreg, hdistinct⟩ := ih ((List.prefix_append is [call]).trans hpre)
        exact hdistinct.step hinv hiL hreg (hfresh is call t hpre hrun) hstep
    obtain ⟨L, hinv, hiL, hreg, hdistinct⟩ := hkeeps
    exact idsUnique_of_distinct hinv hiL hreg hdistinct

/-- A worker, the idle thread, and a third thread created beside them. -/
theorem thread_ids_unique_created :
    ∃ u, Run schedStep (bootScheduler blankScheduler [⟨0, 100, 0⟩, ⟨0, 200, 0⟩] 1)
      [SchedCall.create 0 300 0] u ∧ IdsUnique u := by
  have htwo : 1 < [(⟨0, 100, 0⟩ : BootThread), ⟨0, 200, 0⟩].length := by decide
  have hunique := (thread_ids_unique blankScheduler htwo [SchedCall.create 0 300 0]).mpr
    ⟨by decide, ?_⟩
  · have hrun : Run schedStep (bootScheduler blankScheduler [⟨0, 100, 0⟩, ⟨0, 200, 0⟩] 1)
        ([] ++ [SchedCall.create 0 300 0]) _ := Run.start.extend ⟨trivial, rfl⟩
    exact ⟨_, hrun, hunique _ _ (List.prefix_refl _) hrun⟩
  · intro before call u hbefore hrun
    have hlength := hbefore.length_le
    rw [List.length_append, List.length_singleton, List.length_singleton] at hlength
    obtain rfl : before = [] := List.eq_nil_of_length_eq_zero (by omega)
    obtain rfl := hrun.eq_of_nil
    obtain ⟨L, hinv, -, hreg⟩ := boot_schedInv blankScheduler htwo
    exact hreg.freshId hinv.listed (by decide) call

/-! ## The first identifier that is given out again -/

theorem Scheduler.Fresh.setIdle {s : Scheduler} {L : List Nat} (h : Fresh s L) (idle : Option Nat) :
    Fresh { s with idleThread := idle } L :=
  ⟨⟨h.listed.chain, h.listed.size, h.listed.bound⟩,
    ⟨h.registered.ids, h.registered.tids, h.registered.kept⟩, h.new, h.current, h.none⟩

/-- The idle thread alone, and `n` threads created after it. -/
theorem creates_run (n : Nat) : ∃ s L,
    Run schedStep (bootScheduler blankScheduler [⟨0, 100, 0⟩] 0)
      (List.replicate n (.create 0 200 0)) s ∧ Fresh s L ∧ s.created = n + 1 := by
  -- threads that are only created stay NEW
  induction n with
  | zero =>
    obtain ⟨L, hfresh, hcreated⟩ := boot_fresh blankScheduler [⟨0, 100, 0⟩]
    exact ⟨_, L, Run.start, hfresh.setIdle (some 0), hcreated⟩
  | succ n ih =>
    obtain ⟨s, L, hrun, hfresh, hcreated⟩ := ih
    rw [List.replicate_succ']
    exact ⟨_, _, hrun.extend ⟨trivial, rfl⟩, hfresh.create .., congrArg (· + 1) hcreated⟩

/-- After `2 ^ 16` threads the idle thread's identifier is given out again, and a removal
by it takes out the new thread and leaves the idle thread. -/
theorem thread_ids_wrap : ∃ s t L,
    Run schedStep (bootScheduler blankScheduler [⟨0, 100, 0⟩] 0)
      (List.replicate 65536 (.create 0 200 0)) s ∧
    Chain s.nextOf s.threadList (65536 :: L) ∧ 0 ∈ L ∧
    (s.thread 65536).tid = (s.thread 0).tid ∧
    s.schedulerDeleteThread (s.thread 0).tid = .ok t ∧ Chain t.nextOf t.threadList L := by
  obtain ⟨u, L, hrun, hfresh, hcreated⟩ := creates_run 65535
  have hnext := hfresh.create 0 200 0
  rw [hcreated] at hnext
  have hzero : 0 ∈ L := (hfresh.new 0 (by omega)).1
  have htid : ((u.createThread 0 200 0).thread 65536).tid =
      ((u.createThread 0 200 0).thread 0).tid := by
    have hcount : (u.createThread 0 200 0).created = u.created + 1 := rfl
    have hwrap : 65536 % 2 ^ 16 = 0 % 2 ^ 16 := by decide
    rw [hnext.registered.tids 65536 (by omega), hnext.registered.tids 0 (by omega), hwrap]
  obtain ⟨t, hdelete, -, hlisted, -⟩ :=
    schedulerDeleteThread_spec (show Listed _ ([] ++ 65536 :: L) from hnext.listed)
      (fun _ h => (nomatch h)) htid
  refine ⟨_, t, L, ?_, hnext.listed.chain, hzero, htid, hdelete, hlisted.chain⟩
  rw [show 65536 = 65535 + 1 from rfl, List.replicate_succ']
  exact hrun.extend ⟨trivial, rfl⟩

end Dreamos64
