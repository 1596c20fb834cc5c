import Dreamos64.Sched.Scan
import Mathlib.Data.List.Induction
import Mathlib.Data.List.TakeWhile

/-!
# Dreamos64 — integrity of the thread list

The scheduler as a transition system: threads are created, sleep, exit and are
scheduled, in any order (`SchedCall`). Every call keeps `SchedInv`; with fewer
than `2 ^ 16` threads their identifiers differ, and then the list loses DEAD
threads only (`scheduler_list_integrity`).
-/

namespace Dreamos64

open Machine Links

/-! ## Calls -/

inductive SchedCall where
  | create (parentTask frame rsp0 : Nat)
  | schedule (kernelUptime curStatus : Nat)
  | sleep (kernelUptime millis : Nat)
  | exit (status : Int)

namespace SchedCall

def exec (s : Scheduler) : SchedCall → Exec Scheduler
  | .create parentTask frame rsp0 => .ok (s.createThread parentTask frame rsp0)
  | .schedule kernelUptime curStatus => do
    let (_, s) ← s.schedule kernelUptime curStatus
    .ok s
  | .sleep kernelUptime millis => s.threadSleep kernelUptime millis
  | .exit status => s.sysThreadExit status

/-- The idle thread neither sleeps nor exits. -/
def Permitted (s : Scheduler) : SchedCall → Prop
  | .create .. => True
  | .schedule .. => True
  | .sleep .. => s.currentExecutingThread ≠ s.idleThread
  | .exit _ => s.currentExecutingThread ≠ s.idleThread

end SchedCall

instance SchedCall.decidablePermitted (s : Scheduler) : ∀ call : SchedCall,
    Decidable (call.Permitted s)
  | .create .. => isTrue trivial
  | .schedule .. => isTrue trivial
  | .sleep .. => inferInstanceAs (Decidable (s.currentExecutingThread ≠ s.idleThread))
  | .exit _ => inferInstanceAs (Decidable (s.currentExecutingThread ≠ s.idleThread))

def schedStep (s : Scheduler) (call : SchedCall) (t : Scheduler) : Prop :=
  call.Permitted s ∧ call.exec s = .ok t

/-- Permitted calls, one after the other. -/
def schedRun (s : Scheduler) (calls : List SchedCall) : Exec Scheduler :=
  calls.foldlM (fun s call => if call.Permitted s then call.exec s else .error .halted) s

theorem schedRun_run {s t : Scheduler} {calls : List SchedCall} (h : schedRun s calls = .ok t) :
    Run schedStep s calls t := by
  refine Run.of_foldlM (fun s call t hstep => ?_) Run.start h
  split_ifs at hstep with hperm
  exact ⟨hperm, hstep⟩

/-- A thread to create at boot. -/
structure BootThread where
  parentTask : Nat
  frame      : Nat
  rsp0       : Nat

/-- The state in which `kernel_start` enables the timer: the scheduler was
initialised, threads were created, and one of them was made the idle thread. -/
def bootScheduler (s : Scheduler) (threads : List BootThread) (idle : Nat) : Scheduler :=
  { threads.foldl (fun s t => s.createThread t.parentTask t.frame t.rsp0) s.initScheduler with
    idleThread := some idle }

namespace Scheduler

variable {s t : Scheduler} {L l₁ l₂ : List Nat} {c i p : Nat}

/-! ## Creation -/

theorem createThread_thread (s : Scheduler) (parentTask frame rsp0 p : Nat) :
    (s.createThread parentTask frame rsp0).thread p =
      if p = s.created then
        { tid := s.nextThreadId % 2 ^ 16, parentTask := parentTask, status := .new, ticks := 0
          executionFrame := frame, wakeupTime := 0, next := s.threadList, rsp0 := rsp0
          exitCode := (s.thread s.created).exitCode }
      else s.thread p := by
  simp only [createThread, schedulerAddThread, modify, Function.update_apply]
  split_ifs with hp <;> simp_all

theorem createThread_listed (h : Listed s L) (parentTask frame rsp0 : Nat) :
    Listed (s.createThread parentTask frame rsp0) (s.created :: L) := by
  have hfresh {p : Nat} (hp : p ∈ L) : p ≠ s.created := Nat.ne_of_lt (h.bound p hp)
  refine ⟨chain_cons.2 ⟨rfl, ?_⟩, ?_, ?_⟩
  · rw [nextOf, createThread_thread, if_pos rfl]
    refine h.chain.congr fun p hp => ?_
    rw [nextOf, createThread_thread, if_neg (hfresh hp), nextOf]
  · show s.threadListSize + 1 = _
    rw [h.size, List.length_cons]
  · intro p hp
    show p < s.created + 1
    rcases List.mem_cons.1 hp with rfl | hp
    · exact Nat.lt_succ_self _
    · exact Nat.lt_succ_of_lt (h.bound p hp)

/-! ## The invariant is kept -/

theorem SchedInv.create (h : SchedInv s L i) (hi : i < s.created) (parentTask frame rsp0 : Nat) :
    SchedInv (s.createThread parentTask frame rsp0) (s.created :: L) i := by
  obtain ⟨c, hcL, hc⟩ := h.current
  have hcur : (s.createThread parentTask frame rsp0).currentExecutingThread = some c := by
    show s.currentExecutingThread.or _ = _
    rw [hc]
    rfl
  refine ⟨createThread_listed h.listed .., ⟨c, List.mem_cons_of_mem _ hcL, hcur⟩, h.idle, ?_, ?_⟩
  · rw [createThread_thread, if_neg (Nat.ne_of_lt hi)]
    exact h.awake
  · intro p hp hrun
    rw [createThread_thread] at hrun
    split_ifs at hrun with hnew
    · rcases List.mem_cons.1 hp with rfl | hp
      · exact absurd rfl hnew
      · rw [hcur, ← hc]
        exact h.running p hp hrun

/-- A write to the current thread that keeps its link and does not make it run. -/
theorem SchedInv.modify_current {f : Thread → Thread} (h : SchedInv s L i)
    (hc : s.currentExecutingThread = some c) (hnext : ∀ t, (f t).next = t.next)
    (hidle : c = i → ∀ t, (f t).status = t.status) : SchedInv (s.modify c f) L i := by
  refine ⟨⟨h.listed.chain.congr fun p _ => ?_, h.listed.size, h.listed.bound⟩, h.current, h.idle,
    ?_, ?_⟩
  · rw [nextOf, modify_thread, nextOf]
    split_ifs with hp
    · rw [hnext, hp]
    · rfl
  · rw [modify_thread]
    split_ifs with hp
    · rw [hidle hp.symm, ← hp]
      exact h.awake
    · exact h.awake
  · intro p hp hrun
    rw [modify_thread] at hrun
    split_ifs at hrun with hpc
    · rw [hpc]
      exact hc
    · exact h.running p hp hrun

/-- A switch to a thread of the list. -/
theorem SchedInv.switch {T curStatus : Nat} {L' : List Nat} (h : SchedInv s L i)
    (hc : s.currentExecutingThread = some c) (hrel : Relinked (s.saved c curStatus) t)
    (hl : Listed t L') (hsub : ∀ p ∈ L', p ∈ L) (hT : T ∈ L') :
    SchedInv (t.switchTo T) L' i := by
  have hstatus (p : Nat) : (t.thread p).status = if p = c then
      (savedThread (s.thread c) curStatus).status else (s.thread p).status := by
    rw [hrel.status, saved_thread]
    split_ifs <;> rfl
  refine ⟨switchTo_listed hl T, ⟨T, hT, rfl⟩, hrel.idle.trans h.idle, ?_, ?_⟩
  · rw [switchTo_thread]
    split_ifs with hiT
    · exact Or.inr (Or.inl rfl)
    · rw [hstatus]
      split_ifs with hic
      · subst hic
        rcases h.awake with hs | hs | hs <;> simp [savedThread, hs]
      · exact h.awake
  · intro p hp hrun
    rw [switchTo_thread] at hrun
    split_ifs at hrun with hpT
    · rw [hpT]
      rfl
    · -- the thread switched out does not run, and no other one did
      rw [hstatus] at hrun
      split_ifs at hrun with hpc
      · cases hs : (s.thread c).status <;> simp [savedThread, hs] at hrun
      · have hpcur := h.running p (hsub p hp) hrun
        exact absurd (Option.some.inj (hpcur.symm.trans hc)) hpc

theorem switched_tid {T curStatus : Nat} (hrel : Relinked (s.saved c curStatus) t) (p : Nat) :
    ((t.switchTo T).thread p).tid = (s.thread p).tid := by
  have htid : (t.thread p).tid = (s.thread p).tid := (hrel.tid p).trans (saved_tid s c curStatus p)
  rw [switchTo_thread]
  split_ifs with hp
  · rw [← htid, hp]
  · exact htid

/-- A switch leaves the status of all other threads. -/
theorem switched_status {T curStatus : Nat} (hrel : Relinked (s.saved c curStatus) t)
    (hpc : p ≠ c) (hpT : p ≠ T) : ((t.switchTo T).thread p).status = (s.thread p).status := by
  rw [switchTo_thread, if_neg hpT, hrel.status, saved_thread, if_neg hpc]

/-! ## Identifiers and lost threads -/

/-- What holds of all threads ever created. -/
structure Registered (s : Scheduler) (L : List Nat) : Prop where
  ids  : s.nextThreadId = s.created
  tids : ∀ p < s.created, (s.thread p).tid = p % 2 ^ 16
  kept : ∀ p < s.created, p ∉ L → (s.thread p).status = .dead

/-- The threads of the list have different identifiers. -/
def DistinctTids (s : Scheduler) (L : List Nat) : Prop :=
  ∀ p ∈ L, ∀ q ∈ L, (s.thread p).tid = (s.thread q).tid → p = q

/-- Fewer than `2 ^ 16` threads have different identifiers. -/
theorem Registered.tid_inj (h : Registered s L) (hfew : s.created < 2 ^ 16)
    (hbound : ∀ p ∈ L, p < s.created) :
    DistinctTids s L := by
  intro p hp q hq htid
  rw [h.tids p (hbound p hp), h.tids q (hbound q hq)] at htid
  have hp' := hbound p hp
  have hq' := hbound q hq
  omega

theorem Registered.create (h : Registered s L) (parentTask frame rsp0 : Nat) :
    Registered (s.createThread parentTask frame rsp0) (s.created :: L) := by
  refine ⟨congrArg (· + 1) h.ids, fun p hp => ?_, fun p hp hout => ?_⟩
  · rw [createThread_thread]
    split_ifs with hnew
    · rw [h.ids, hnew]
    · exact h.tids p (Nat.lt_of_le_of_ne (Nat.le_of_lt_succ hp) hnew)
  · simp only [List.mem_cons, not_or] at hout
    rw [createThread_thread, if_neg hout.1]
    exact h.kept p (Nat.lt_of_le_of_ne (Nat.le_of_lt_succ hp) hout.1) hout.2

theorem Registered.modify_current {f : Thread → Thread} (h : Registered s L) (hc : c ∈ L)
    (htid : ∀ t, (f t).tid = t.tid) : Registered (s.modify c f) L := by
  refine ⟨h.ids, fun p hp => ?_, fun p hp hout => ?_⟩
  · rw [modify_thread]
    split_ifs with hpc
    · rw [htid, ← hpc]
      exact h.tids p hp
    · exact h.tids p hp
  · rw [modify_thread, if_neg fun (hpc : p = c) => hout (hpc ▸ hc)]
    exact h.kept p hp hout

/-- The target of a scan is alive. -/
theorem scanTarget_cases (s : Scheduler) (kernelUptime i : Nat) (others : List Nat) :
    s.scanTarget kernelUptime i others = i ∨
      s.scanTarget kernelUptime i others ∈ others ∧
        s.runnable kernelUptime (s.scanTarget kernelUptime i others) = true := by
  unfold scanTarget
  cases hdrop : others.dropWhile s.isDead with
  | nil => exact Or.inl rfl
  | cons n rest =>
    dsimp only
    split_ifs with hrun
    · refine Or.inr ⟨?_, hrun⟩
      exact (List.dropWhile_sublist _).subset (hdrop ▸ List.mem_cons_self)
    · exact Or.inl rfl

theorem not_isDead_of_runnable {kernelUptime : Nat} (h : s.runnable kernelUptime p = true) :
    s.isDead p = false := by
  cases hs : (s.thread p).status <;> simp [runnable, isDead, hs] at h ⊢

/-- `schedule` in a state with different identifiers returns, keeps the
invariant, and unlinks DEAD threads other than the current one. -/
theorem schedule_keeps (h : SchedInv s L i) (hi : i ∈ L) (hreg : Registered s L)
    (hinj : DistinctTids s L) (kernelUptime curStatus : Nat) :
    ∃ ret t L', s.schedule kernelUptime curStatus = .ok (ret, t) ∧ t.created = s.created ∧
      SchedInv t L' i ∧ i ∈ L' ∧ Registered t L' ∧ (∀ p ∈ L', p ∈ L) ∧
      ∀ p ∈ L, p ∉ L' → (s.thread p).status = .dead ∧ s.currentExecutingThread ≠ some p := by
  obtain ⟨c, hcL, hc⟩ := h.current
  cases hq : s.quantumOver with
  | false =>
    refine ⟨_, _, L, schedule_continue hc hq, rfl, ?_, hi, ?_, fun p hp => hp,
      fun p hp hout => absurd hp hout⟩
    · exact h.modify_current hc (fun _ => rfl) fun _ _ => rfl
    · exact hreg.modify_current hcL fun _ => rfl
  | true =>
    obtain ⟨l₁, l₂, rfl⟩ := List.append_of_mem hcL
    obtain ⟨t, hrun, hrel, hl⟩ := schedule_exact kernelUptime curStatus h hi hc
      hinj hq
    have hcout := current_not_mem h.listed.chain.nodup
    obtain ⟨T, hT⟩ : ∃ T, T = s.scanTarget kernelUptime i (l₂ ++ l₁) := ⟨_, rfl⟩
    obtain ⟨D, hD⟩ : ∃ D, D = (l₂ ++ l₁).takeWhile s.isDead := ⟨_, rfl⟩
    rw [← hT] at hrun
    rw [← hD] at hl
    have hmem (p : Nat) : p ∈ (l₁ ++ c :: l₂).filter (· ∉ D) ↔ p ∈ l₁ ++ c :: l₂ ∧ p ∉ D := by
      simp only [List.mem_filter, decide_eq_true_eq]
    -- what is removed is DEAD and is not the current thread
    have hdead {p : Nat} (hp : p ∈ D) : s.isDead p = true ∧ p ≠ c := by
      rw [hD] at hp
      refine ⟨List.mem_takeWhile_imp hp, fun hpc => hcout ?_⟩
      exact hpc ▸ (List.takeWhile_sublist _).subset hp
    have halive {p : Nat} (hp : s.isDead p = false) : p ∉ D := fun hpD => by
      simp [(hdead hpD).1] at hp
    have hiL' : i ∈ (l₁ ++ c :: l₂).filter (· ∉ D) := (hmem i).2 ⟨hi, halive h.idle_alive⟩
    have hTL' : T ∈ (l₁ ++ c :: l₂).filter (· ∉ D) := by
      rcases scanTarget_cases s kernelUptime i (l₂ ++ l₁) with hidle | ⟨hother, hrunnable⟩
      · rw [hT, hidle]
        exact hiL'
      · rw [← hT] at hother hrunnable
        refine (hmem T).2 ⟨?_, halive (not_isDead_of_runnable hrunnable)⟩
        simp only [List.mem_append, List.mem_cons] at hother ⊢
        tauto
    refine ⟨_, _, _, hrun, hrel.created, ?_, hiL', ⟨?_, ?_, ?_⟩, fun p hp => ((hmem p).1 hp).1, ?_⟩
    · exact h.switch hc hrel hl (fun p hp => ((hmem p).1 hp).1) hTL'
    · exact hrel.nextThreadId.trans (hreg.ids.trans hrel.created.symm)
    · intro p hp
      rw [switched_tid hrel]
      exact hreg.tids p (hrel.created ▸ hp)
    · intro p hp hout
      have hpT : p ≠ T := fun hpT => hout (hpT ▸ hTL')
      have hpc : p ≠ c := fun hpc => hout ((hmem p).2 ⟨hpc ▸ hcL, fun hpD => (hdead hpD).2 hpc⟩)
      rw [switched_status hrel hpc hpT]
      by_cases hpD : p ∈ D
      · simpa [isDead] using (hdead hpD).1
      · exact hreg.kept p (hrel.created ▸ hp) fun hpL => hout ((hmem p).2 ⟨hpL, hpD⟩)
    · intro p hp hout
      have hpD : p ∈ D := by
        by_contra hpD
        exact hout ((hmem p).2 ⟨hp, hpD⟩)
      obtain ⟨hpdead, hpc⟩ := hdead hpD
      refine ⟨by simpa [isDead] using hpdead, fun hcur => hpc ?_⟩
      exact Option.some.inj (hcur.symm.trans hc)

/-! ## Boot and runs -/

/-- Threads that were only created. -/
structure Fresh (s : Scheduler) (L : List Nat) : Prop where
  listed     : Listed s L
  registered : Registered s L
  new        : ∀ p < s.created, p ∈ L ∧ (s.thread p).status = .new
  current    : L ≠ [] → ∃ c ∈ L, s.currentExecutingThread = some c
  none       : L = [] → s.currentExecutingThread = none

theorem Fresh.create (h : Fresh s L) (parentTask frame rsp0 : Nat) :
    Fresh (s.createThread parentTask frame rsp0) (s.created :: L) := by
  refine ⟨createThread_listed h.listed .., h.registered.create .., fun p hp => ?_, fun _ => ?_,
    fun hnil => absurd hnil (by simp)⟩
  · rw [createThread_thread]
    split_ifs with hnew
    · exact ⟨hnew ▸ List.mem_cons_self, rfl⟩
    · obtain ⟨hmem, hstatus⟩ := h.new p (Nat.lt_of_le_of_ne (Nat.le_of_lt_succ hp) hnew)
      exact ⟨List.mem_cons_of_mem _ hmem, hstatus⟩
  · -- the first thread created is the first to be current
    show ∃ c ∈ _, s.currentExecutingThread.or (some s.created) = some c
    by_cases hL : L = []
    · exact ⟨s.created, List.mem_cons_self, by rw [h.none hL]; rfl⟩
    · obtain ⟨c, hcL, hc⟩ := h.current hL
      exact ⟨c, List.mem_cons_of_mem _ hcL, by rw [hc]; rfl⟩

theorem boot_fresh (s : Scheduler) (threads : List BootThread) :
    ∃ L, Fresh (threads.foldl (fun s t => s.createThread t.parentTask t.frame t.rsp0)
        s.initScheduler) L ∧
      (threads.foldl (fun s t => s.createThread t.parentTask t.frame t.rsp0)
        s.initScheduler).created = threads.length := by
  -- the last thread created is at the front of the list
  induction threads using List.reverseRecOn with
  | nil =>
    have hnone (p : Nat) : ¬ p < s.initScheduler.created := Nat.not_lt_zero p
    exact ⟨[], ⟨⟨rfl, rfl, by simp⟩, ⟨rfl, fun p hp => absurd hp (hnone p),
      fun p hp => absurd hp (hnone p)⟩, fun p hp => absurd hp (hnone p), fun h => absurd rfl h,
      fun _ => rfl⟩, rfl⟩
  | append_singleton threads t ih =>
    obtain ⟨L, hfresh, hcreated⟩ := ih
    rw [List.foldl_append, List.foldl_cons, List.foldl_nil, List.length_append]
    exact ⟨_, hfresh.create .., congrArg (· + 1) hcreated⟩

/-- The scheduler starts in order. -/
theorem boot_schedInv (s : Scheduler) {threads : List BootThread} (hi : i < threads.length) :
    ∃ L, SchedInv (bootScheduler s threads i) L i ∧ i ∈ L ∧
      Registered (bootScheduler s threads i) L := by
  obtain ⟨L, h, hcreated⟩ := boot_fresh s threads
  have hilt := hcreated ▸ hi
  obtain ⟨hiL, hnew⟩ := h.new i hilt
  have hcurrent := h.current fun hnil => by simp [hnil] at hiL
  refine ⟨L, ⟨⟨h.listed.chain, h.listed.size, h.listed.bound⟩, hcurrent, rfl, Or.inl hnew, ?_⟩, hiL,
    ⟨h.registered.ids, h.registered.tids, h.registered.kept⟩⟩
  intro p hp hrun
  have hpnew := (h.new p (h.listed.bound p hp)).2
  exact absurd (hpnew.symm.trans hrun) (by decide)

theorem deref_eq_ok {o : Option Nat} (h : deref o = .ok c) : o = some c := by
  cases o with
  | none => cases h
  | some d =>
    cases h
    rfl

/-- **What a call does**: it creates a thread, or it writes to the current one, or it switches. A
thread that sleeps or exits is not the idle thread. -/
theorem exec_cases {call : SchedCall} (h : call.exec s = .ok t) :
    (∃ parentTask frame rsp0, call = .create parentTask frame rsp0 ∧
      t = s.createThread parentTask frame rsp0) ∨
    ∃ c, s.currentExecutingThread = some c ∧
      ((∃ f : Thread → Thread, t = s.modify c f ∧ (∀ x, (f x).next = x.next) ∧
        (∀ x, (f x).tid = x.tid) ∧
        (call.Permitted s → s.idleThread = some c → ∀ x, (f x).status = x.status)) ∨
      ∃ kernelUptime curStatus ret, call = .schedule kernelUptime curStatus ∧
        s.quantumOver = true ∧ s.schedule kernelUptime curStatus = .ok (ret, t)) := by
  cases call with
  | create parentTask frame rsp0 =>
    cases h
    exact .inl ⟨parentTask, frame, rsp0, rfl, rfl⟩
  | schedule kernelUptime curStatus =>
    obtain ⟨⟨ret, t⟩, hsched, h⟩ := bind_inv h
    cases h
    obtain ⟨c, hc, -⟩ := bind_inv hsched
    have hc := deref_eq_ok hc
    refine .inr ⟨c, hc, ?_⟩
    cases hq : s.quantumOver with
    -- within its quantum the thread keeps running, with one tick more
    | false =>
      cases hsched.symm.trans (schedule_continue hc hq)
      exact .inl ⟨_, rfl, fun _ => rfl, fun _ => rfl, fun _ _ _ => rfl⟩
    | true => exact .inr ⟨kernelUptime, curStatus, ret, rfl, rfl, hsched⟩
  | sleep kernelUptime millis =>
    obtain ⟨c, hc, h⟩ := bind_inv h
    cases h
    have hc := deref_eq_ok hc
    exact .inr ⟨c, hc, .inl ⟨_, rfl, fun _ => rfl, fun _ => rfl, fun hperm hidle =>
      absurd (hc.trans hidle.symm) hperm⟩⟩
  | exit status =>
    obtain ⟨c, hc, h⟩ := bind_inv h
    cases h
    have hc := deref_eq_ok hc
    exact .inr ⟨c, hc, .inl ⟨_, rfl, fun _ => rfl, fun _ => rfl, fun hperm hidle =>
      absurd (hc.trans hidle.symm) hperm⟩⟩

/-- No call forgets a thread. -/
theorem created_le {call : SchedCall} (h : call.exec s = .ok t) : s.created ≤ t.created := by
  rcases exec_cases h with ⟨_, _, _, -, rfl⟩ | ⟨c, hc, ⟨f, rfl, -⟩ | ⟨_, _, _, -, hq, hsched⟩⟩
  · exact Nat.le_succ _
  · exact le_refl _
  · obtain ⟨u, T, hrel, rfl, -⟩ := schedule_relinked hc hq hsched
    exact hrel.created.ge

/-- One step, while identifiers are different. -/
theorem schedStep_keeps {call : SchedCall} (h : SchedInv s L i) (hi : i ∈ L)
    (hreg : Registered s L) (hinj : DistinctTids s L) (hstep : schedStep s call t) :
    ∃ L', SchedInv t L' i ∧ i ∈ L' ∧ Registered t L' ∧
      ∀ p ∈ L', p ∈ L ∨ p = s.created ∧
        ∃ parentTask frame rsp0, call = .create parentTask frame rsp0 := by
  rcases exec_cases hstep.2 with ⟨parentTask, frame, rsp0, rfl, rfl⟩ |
    ⟨c, hc, ⟨f, rfl, hnext, htid, hstatus⟩ | ⟨kernelUptime, curStatus, ret, rfl, -, hsched⟩⟩
  · -- a new thread is put before the others
    refine ⟨_, h.create (h.listed.bound i hi) .., List.mem_cons_of_mem _ hi, hreg.create .., ?_⟩
    intro p hp
    rcases List.mem_cons.mp hp with hp | hp
    · exact .inr ⟨hp, parentTask, frame, rsp0, rfl⟩
    · exact .inl hp
  · obtain ⟨c', hcL, hc'⟩ := h.current
    cases hc.symm.trans hc'
    exact ⟨L, h.modify_current hc hnext fun he => hstatus hstep.1 (he ▸ h.idle), hi,
      hreg.modify_current hcL htid, fun p hp => .inl hp⟩
  · obtain ⟨ret', t', L', hsched', -, hinv, hiL', hreg', hsub, -⟩ :=
      schedule_keeps h hi hreg hinj kernelUptime curStatus
    cases hsched.symm.trans hsched'
    exact ⟨L', hinv, hiL', hreg', fun p hp => .inl (hsub p hp)⟩

theorem schedRun_keeps {s₀ : Scheduler} {threads : List BootThread} {calls : List SchedCall}
    (hi : i < threads.length) (hrun : Run schedStep (bootScheduler s₀ threads i) calls s)
    (hfew : s.created < 2 ^ 16) : ∃ L, SchedInv s L i ∧ i ∈ L ∧ Registered s L := by
  -- identifiers are 16 bits, so the invariant is kept only while there are few threads
  refine hrun.inv (fun s => s.created < 2 ^ 16 → ∃ L, SchedInv s L i ∧ i ∈ L ∧ Registered s L)
    (fun _ => boot_schedInv s₀ hi) ?_ hfew
  intro t u call hinv hstep hfew
  have hfew' := Nat.lt_of_le_of_lt (created_le hstep.2) hfew
  obtain ⟨L, h, hiL, hreg⟩ := hinv hfew'
  obtain ⟨L', h', hiL', hreg', -⟩ :=
    schedStep_keeps h hiL hreg (hreg.tid_inj hfew' h.listed.bound) hstep
  exact ⟨L', h', hiL', hreg'⟩

/-! ## The length of the list -/

theorem queueSize_loop {h : Option Nat} {counter fuel : Nat} (hseg : Seg s.nextOf h L none)
    (hfuel : L.length < fuel) (hsmall : counter + L.length < 2 ^ 32) :
    loop s.queueSizeBody fuel (h, counter) = .ok (counter + L.length) := by
  -- the counter does not wrap for as many threads as the list has
  induction L generalizing h counter fuel with
  | nil =>
    obtain ⟨fuel, rfl⟩ : ∃ k, fuel = k + 1 := ⟨fuel - 1, by simp at hfuel; omega⟩
    rw [seg_nil] at hseg
    subst hseg
    exact loop_done rfl
  | cons p L ih =>
    obtain ⟨fuel, rfl⟩ : ∃ k, fuel = k + 1 := ⟨fuel - 1, by simp at hfuel; omega⟩
    obtain ⟨rfl, htail⟩ := seg_cons.1 hseg
    rw [List.length_cons] at hfuel hsmall
    have hbody : s.queueSizeBody (some p, counter) = .ok (.next (s.nextOf p, counter + 1)) := by
      simp only [queueSizeBody, nextOf]
      rw [Nat.mod_eq_of_lt (by omega)]
    rw [loop_next hbody, ih htail (by omega) (by omega), List.length_cons, Nat.add_right_comm,
      Nat.add_assoc]

theorem schedulerGetQueueSize_eq (h : Listed s L) (hfew : s.created < 2 ^ 16) :
    s.schedulerGetQueueSize = .ok L.length := by
  have hlen := h.length_le
  rw [schedulerGetQueueSize, queueSize_loop h.chain (by omega) (by omega), Nat.zero_add]

end Scheduler

open Scheduler

/-- **Scheduler list integrity.** After every run with fewer than `2 ^ 16` threads
created:

* the list from `thread_list` ends, without meeting a thread twice, and
  `thread_list_size` and `scheduler_get_queue_size` give its length;
* a created thread that is not in it is DEAD;
* `schedule` returns at any time, and a thread it unlinks is DEAD and is not the
  current one. -/
theorem scheduler_list_integrity {s₀ s : Scheduler} {threads : List BootThread} {i : Nat}
    {calls : List SchedCall} (hi : i < threads.length)
    (hrun : Run schedStep (bootScheduler s₀ threads i) calls s) (hfew : s.created < 2 ^ 16) :
    ∃ L, Chain s.nextOf s.threadList L ∧ L.Nodup ∧ s.threadListSize = L.length ∧
      s.schedulerGetQueueSize = .ok L.length ∧
      (∀ p < s.created, p ∉ L → (s.thread p).status = .dead) ∧
      ∀ kernelUptime curStatus, ∃ ret t L', s.schedule kernelUptime curStatus = .ok (ret, t) ∧
        Chain t.nextOf t.threadList L' ∧
        ∀ p ∈ L, p ∉ L' → (s.thread p).status = .dead ∧ s.currentExecutingThread ≠ some p := by
  obtain ⟨L, hinv, hiL, hreg⟩ := schedRun_keeps hi hrun hfew
  refine ⟨L, hinv.listed.chain, hinv.listed.chain.nodup, hinv.listed.size,
    schedulerGetQueueSize_eq hinv.listed hfew, hreg.kept, fun kernelUptime curStatus => ?_⟩
  obtain ⟨ret, t, L', hsched, -, hinv', -, -, -, hremoved⟩ :=
    schedule_keeps hinv hiL hreg (hreg.tid_inj hfew hinv.listed.bound) kernelUptime curStatus
  exact ⟨ret, t, L', hsched, hinv'.listed.chain, hremoved⟩

/-- Memory before the scheduler is initialised. -/
def blankScheduler : Scheduler where
  thread := fun _ => ⟨0, 0, .new, 0, 0, 0, none, 0, 0⟩
  created := 0
  task := fun _ => ⟨0, 0⟩
  nextThreadId := 0
  threadList := none
  threadListSize := 0
  currentExecutingThread := none
  idleThread := none
  cr3 := 0
  tssRsp0 := 0

/-- A worker and the idle thread: the worker exits, the idle thread takes over, and
a third thread is created while the worker is still listed. -/
theorem scheduler_list_integrity_worker :
    ∃ s L, Run schedStep (bootScheduler blankScheduler [⟨0, 100, 0⟩, ⟨0, 200, 0⟩] 1)
        [.exit 3, .schedule 5 77, .create 0 300 0] s ∧
      s.threadListSize = 3 ∧ Chain s.nextOf s.threadList L ∧ s.threadListSize = L.length := by
  obtain ⟨s, hexec, hcreated, hthree⟩ : ∃ s,
      schedRun (bootScheduler blankScheduler [⟨0, 100, 0⟩, ⟨0, 200, 0⟩] 1)
        [.exit 3, .schedule 5 77, .create 0 300 0] = .ok s ∧ s.created = 3 ∧
      s.threadListSize = 3 := by decide +kernel
  have hrun := schedRun_run hexec
  obtain ⟨L, hchain, -, hsize, -⟩ := scheduler_list_integrity (by decide) hrun
    (by rw [hcreated]; decide)
  exact ⟨s, L, hrun, hthree, hchain, hsize⟩

end Dreamos64
