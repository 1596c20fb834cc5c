import Dreamos64.Sched.SchedulerList

/-!
# Dreamos64 — no context is lost or swapped

A history records when threads are created and switched out, with the frames
that come with it. `expectedFrame` reads off it the frame a thread should be
resumed with. The invariant of all runs is that this is the frame the thread
has stored (`ContextInv`); `schedule` returns the stored frame of the thread it
switches to, so `no_context_lost` follows.

Nothing is assumed about the list here, nor about identifiers or the idle
thread: the invariant speaks of every thread ever created, listed or not.
-/

namespace Dreamos64

open Machine Links Scheduler

/-! ## Histories -/

inductive SwitchEvent where
  | created (thread frame : Nat)
  /-- past the quantum check, with the status the thread had on entry -/
  | switchedOut (thread : Nat) (status : ThreadStatus) (frame : Nat)
  deriving DecidableEq

/-- What a call adds to the history. -/
def eventsOf (s : Scheduler) : SchedCall → List SwitchEvent
  | .create _ frame _ => [.created s.created frame]
  | .schedule _ curStatus =>
    match s.currentExecutingThread with
    | some c => if s.quantumOver then [.switchedOut c (s.thread c).status curStatus] else []
    | none => []
  | .sleep .. => []
  | .exit _ => []

/-- The frame an event leaves for a thread. A thread switched out while NEW has
not run, and keeps the frame it was created with. -/
def SwitchEvent.frameFor (thread : Nat) : SwitchEvent → Option Nat
  | .created p frame => if p = thread then some frame else none
  | .switchedOut p status frame => if p = thread ∧ status ≠ .new then some frame else none

/-- The frame to resume a thread with: that of the last event that left one. -/
def expectedFrame (history : List SwitchEvent) (thread : Nat) : Option Nat :=
  (history.filterMap (SwitchEvent.frameFor thread)).getLast?

/-- A call with the history it adds to. -/
def contextStep (s : Scheduler × List SwitchEvent) (call : SchedCall)
    (t : Scheduler × List SwitchEvent) : Prop :=
  call.exec s.1 = .ok t.1 ∧ t.2 = s.2 ++ eventsOf s.1 call

/-- The calls, one after the other. -/
def contextRun (s : Scheduler × List SwitchEvent) (calls : List SchedCall) :
    Exec (Scheduler × List SwitchEvent) :=
  calls.foldlM (fun s call => do
    let t ← call.exec s.1
    .ok (t, s.2 ++ eventsOf s.1 call)) s

theorem contextRun_run {s t : Scheduler × List SwitchEvent} {calls : List SchedCall}
    (h : contextRun s calls = .ok t) : Run contextStep s calls t := by
  refine Run.of_foldlM (fun s call t hstep => ?_) Run.start h
  obtain ⟨u, hexec, hstep⟩ := bind_inv hstep
  cases hstep
  exact ⟨hexec, rfl⟩

/-- The history at boot. -/
def bootEvents (threads : List BootThread) : List SwitchEvent :=
  threads.mapIdx fun p t => .created p t.frame

theorem expectedFrame_append (history events : List SwitchEvent) (p : Nat) :
    expectedFrame (history ++ events) p =
      (expectedFrame events p).or (expectedFrame history p) := by
  rw [expectedFrame, List.filterMap_append, List.getLast?_append]
  rfl

/-! ## Pointers -/

/-- Every pointer the scheduler can follow is to a created thread. -/
structure Pointers (s : Scheduler) : Prop where
  list    : ∀ p, s.threadList = some p → p < s.created
  next    : ∀ p < s.created, ∀ q, (s.thread p).next = some q → q < s.created
  current : ∀ p, s.currentExecutingThread = some p → p < s.created
  idle    : ∀ p, s.idleThread = some p → p < s.created

section

variable {s t : Scheduler} {c p : Nat}

section

variable (h : Pointers s)

include h

theorem Pointers.getNext (hp : s.schedulerGetNextThread = some p) : p < s.created := by
  unfold schedulerGetNextThread at hp
  split_ifs at hp
  split at hp
  · exact h.list p hp
  · next c hc =>
    rcases Option.or_eq_some_iff.1 hp with hp | ⟨-, hp⟩
    · exact h.next c (h.current c hc) p hp
    · exact h.list p hp

/-- A write that keeps the link of the thread. -/
theorem Pointers.modify {f : Thread → Thread} (hnext : ∀ t, (f t).next = t.next) :
    Pointers (s.modify c f) := by
  refine ⟨h.list, fun p hp q hq => ?_, h.current, h.idle⟩
  rw [modify_thread] at hq
  split_ifs at hq with hpc
  · rw [hnext, ← hpc] at hq
    exact h.next p hp q hq
  · exact h.next p hp q hq

theorem Pointers.saved (c curStatus : Nat) : Pointers (s.saved c curStatus) :=
  h.modify (f := (savedThread · curStatus)) fun _ => rfl

theorem Pointers.switchTo (hp : p < s.created) : Pointers (s.switchTo p) := by
  obtain ⟨hlist, hnext, -, hidle⟩ := h.modify (c := p)
    (f := fun t => { t with status := .run, ticks := 0 }) fun _ => rfl
  refine ⟨hlist, hnext, fun q hq => ?_, hidle⟩
  cases hq
  exact hp

theorem Pointers.create (parentTask frame rsp0 : Nat) :
    Pointers (s.createThread parentTask frame rsp0) := by
  refine ⟨fun p hp => ?_, fun p hp q hq => ?_, fun p hp => ?_, fun p hp => ?_⟩
  · cases hp
    exact Nat.lt_succ_self _
  · rw [createThread_thread] at hq
    split_ifs at hq with hnew
    · exact Nat.lt_succ_of_lt (h.list q hq)
    · have hlt : p < s.created := Nat.lt_of_le_of_ne (Nat.le_of_lt_succ hp) hnew
      exact Nat.lt_succ_of_lt (h.next p hlt q hq)
  · rcases Option.or_eq_some_iff.1 hp with hp | ⟨-, hp⟩
    · exact Nat.lt_succ_of_lt (h.current p hp)
    · cases hp
      exact Nat.lt_succ_self _
  · exact Nat.lt_succ_of_lt (h.idle p hp)

/-- Removal only moves links along the list. -/
theorem Pointers.delete {tid : Nat} (hdel : s.schedulerDeleteThread tid = .ok t) : Pointers t := by
  obtain ⟨⟨item, prev⟩, hsearch, hdel⟩ := bind_inv hdel
  have hitem : ∀ p, item = some p → p < s.created := by
    -- the search follows links from the head of the list
    refine loop_inv (fun st => ∀ p, st.1 = some p → p < s.created)
      (fun r => ∀ p, r.1 = some p → p < s.created) ?_ ?_ h.list hsearch
    · rintro ⟨current, prev⟩ st hcur hbody
      cases current with
      | none => cases hbody
      | some q =>
        simp only [searchBody] at hbody
        split_ifs at hbody
        · cases hbody
        · cases hbody
          exact h.next q (hcur q rfl)
    · rintro ⟨current, prev⟩ r hcur hbody
      cases current with
      | none =>
        cases hbody
        exact hcur
      | some q =>
        simp only [searchBody] at hbody
        split_ifs at hbody
        · cases hbody
          exact hcur
        · cases hbody
  cases item with
  | none =>
    cases hdel
    exact h
  | some item =>
    have hnext := h.next item (hitem item rfl)
    simp only [unlinkThread] at hdel
    split_ifs at hdel
    · cases hdel
      exact ⟨hnext, h.next, h.current, h.idle⟩
    · obtain ⟨y, -, hdel⟩ := bind_inv hdel
      cases hdel
      refine ⟨h.list, fun p hp q hq => ?_, h.current, h.idle⟩
      simp only [countRemoved, modify_thread] at hq
      split_ifs at hq
      · exact hnext q hq
      · exact h.next p hp q hq

end

/-! ## The invariant -/

/-- The stored frame of every thread is the one its history calls for. -/
structure ContextInv (s : Scheduler) (history : List SwitchEvent) : Prop where
  pointers : Pointers s
  frames   : ∀ p < s.created, expectedFrame history p = some (s.thread p).executionFrame

theorem ContextInv.create {history : List SwitchEvent} (h : ContextInv s history)
    (parentTask frame rsp0 : Nat) :
    ContextInv (s.createThread parentTask frame rsp0) (history ++ [.created s.created frame]) := by
  refine ⟨h.pointers.create .., fun p hp => ?_⟩
  rw [expectedFrame_append, createThread_thread]
  split_ifs with hnew
  · simp [expectedFrame, SwitchEvent.frameFor, hnew]
  · rw [h.frames p (Nat.lt_of_le_of_ne (Nat.le_of_lt_succ hp) hnew)]
    simp [expectedFrame, SwitchEvent.frameFor, Ne.symm hnew]

theorem ContextInv.modify {history : List SwitchEvent} {f : Thread → Thread}
    (h : ContextInv s history) (hnext : ∀ t, (f t).next = t.next)
    (hframe : ∀ t, (f t).executionFrame = t.executionFrame) :
    ContextInv (s.modify c f) history := by
  refine ⟨h.pointers.modify hnext, fun p hp => ?_⟩
  rw [h.frames p hp, modify_thread]
  split_ifs with hpc
  · rw [hframe, hpc]
  · rfl

/-- The frame a switch leaves with a thread. -/
theorem switched_frame {T curStatus : Nat} {u : Scheduler}
    (hrel : Relinked (s.saved c curStatus) u) (p : Nat) :
    ((u.switchTo T).thread p).executionFrame =
      if p = c ∧ (s.thread c).status ≠ .new then curStatus else (s.thread p).executionFrame := by
  have hsaved : (u.thread p).executionFrame =
      if p = c ∧ (s.thread c).status ≠ .new then curStatus else (s.thread p).executionFrame := by
    rw [hrel.executionFrame, saved_thread]
    by_cases hpc : p = c
    · subst hpc
      by_cases hnew : (s.thread p).status = .new <;> simp [savedThread, hnew]
    · simp [hpc]
  rw [switchTo_thread]
  split_ifs with hpT hcond
  · subst hpT
    rw [hsaved, if_pos hcond]
  · subst hpT
    rw [hsaved, if_neg hcond]
  · rw [hsaved, if_pos ‹_›]
  · rw [hsaved, if_neg ‹_›]

/-- A switch: the target is a created thread, and history and frames agree again. -/
theorem ContextInv.switch {history : List SwitchEvent} {kernelUptime curStatus ret : Nat}
    (h : ContextInv s history) (hc : s.currentExecutingThread = some c)
    (hq : s.quantumOver = true) (hsched : s.schedule kernelUptime curStatus = .ok (ret, t)) :
    ContextInv t (history ++ [.switchedOut c (s.thread c).status curStatus]) ∧
    (∃ T < t.created, t.currentExecutingThread = some T ∧ ret = (t.thread T).executionFrame) ∧
    ∀ p, p ≠ c → (t.thread p).executionFrame = (s.thread p).executionFrame := by
  obtain ⟨u, T, n, prevTid, hrel, ⟨hpointers, hn⟩, rfl, hret, hcase⟩ :=
    schedule_rule (fun u current _ => Pointers u ∧ ∀ n, current = some n → n < u.created) hc hq
      hsched ⟨h.pointers.saved c curStatus, fun n hn => (h.pointers.saved c curStatus).getNext hn⟩
      (fun u u' n prevTid _ hJ _ _ hdel =>
        ⟨hJ.1.delete hdel, fun m hm => (hJ.1.delete hdel).getNext hm⟩)
      (fun u n prevTid _ hJ _ => ⟨hJ.1, fun m hm => hJ.1.getNext hm⟩)
  have hT : T < u.created := by
    rcases hcase with ⟨-, hidle⟩ | ⟨-, rfl, -⟩
    · exact hpointers.idle T hidle
    · exact hn T rfl
  refine ⟨⟨hpointers.switchTo hT, fun p hp => ?_⟩, ⟨T, hT, rfl, hret⟩, fun p hp => ?_⟩
  · rw [switched_frame hrel, expectedFrame_append, h.frames p (hrel.created ▸ hp)]
    by_cases hcond : p = c ∧ (s.thread c).status ≠ .new
    · rw [if_pos hcond]
      simp [expectedFrame, SwitchEvent.frameFor, hcond.1, hcond.2]
    · rw [if_neg hcond]
      have hnone : SwitchEvent.frameFor p (.switchedOut c (s.thread c).status curStatus) = none :=
        if_neg fun h => hcond ⟨h.1.symm, h.2⟩
      simp [expectedFrame, hnone]
  · rw [switched_frame hrel, if_neg fun h => hp h.1]

theorem ContextInv.call {history : List SwitchEvent} {call : SchedCall} (h : ContextInv s history)
    (hexec : call.exec s = .ok t) : ContextInv t (history ++ eventsOf s call) := by
  cases call with
  | create parentTask frame rsp0 =>
    cases hexec
    exact h.create ..
  | schedule kernelUptime curStatus =>
    obtain ⟨⟨ret, t⟩, hsched, hexec⟩ := bind_inv hexec
    cases hexec
    cases hc : s.currentExecutingThread with
    | none =>
      rw [schedule, hc] at hsched
      cases hsched
    | some c =>
      by_cases hq : s.quantumOver = true
      · simp only [eventsOf, hc, hq, if_true]
        exact (h.switch hc hq hsched).1
      · rw [schedule_continue hc (by simpa using hq)] at hsched
        cases hsched
        simp only [eventsOf, hc, hq, Bool.false_eq_true, if_false, List.append_nil]
        exact h.modify (fun _ => rfl) fun _ => rfl
  | sleep kernelUptime millis =>
    obtain ⟨c, -, hexec⟩ := bind_inv hexec
    cases hexec
    rw [eventsOf, List.append_nil]
    exact h.modify (fun _ => rfl) fun _ => rfl
  | exit status =>
    obtain ⟨c, -, hexec⟩ := bind_inv hexec
    cases hexec
    rw [eventsOf, List.append_nil]
    exact h.modify (fun _ => rfl) fun _ => rfl

theorem boot_contextInv (s : Scheduler) {threads : List BootThread} {idle : Nat}
    (hi : idle < threads.length) :
    ContextInv (bootScheduler s threads idle) (bootEvents threads) := by
  have hcreated (threads : List BootThread) :
      ContextInv (threads.foldl (fun s t => s.createThread t.parentTask t.frame t.rsp0)
        s.initScheduler) (bootEvents threads) := by
    induction threads using List.reverseRecOn with
    | nil =>
      have hnone (p : Nat) : ¬ p < s.initScheduler.created := Nat.not_lt_zero p
      refine ⟨⟨fun p hp => ?_, fun p hp => absurd hp (hnone p), fun p hp => ?_, fun p hp => ?_⟩,
        fun p hp => absurd hp (hnone p)⟩
      all_goals cases hp
    | append_singleton threads t ih =>
      have hstep := ih.create t.parentTask t.frame t.rsp0
      obtain ⟨L, -, hlength⟩ := boot_fresh s threads
      rw [hlength] at hstep
      rw [List.foldl_append, bootEvents, List.mapIdx_concat]
      exact hstep
  obtain ⟨hpointers, hframes⟩ := hcreated threads
  obtain ⟨L, -, hlength⟩ := boot_fresh s threads
  refine ⟨⟨hpointers.list, hpointers.next, hpointers.current, fun p hp => ?_⟩, hframes⟩
  cases hp
  exact hlength ▸ hi

theorem contextRun_keeps {s₀ : Scheduler} {threads : List BootThread} {idle : Nat}
    {calls : List SchedCall} {history : List SwitchEvent} (hi : idle < threads.length)
    (hrun : Run contextStep (bootScheduler s₀ threads idle, bootEvents threads) calls
      (s, history)) : ContextInv s history := by
  refine hrun.inv (fun st => ContextInv st.1 st.2) (boot_contextInv s₀ hi) ?_
  rintro ⟨t, history⟩ ⟨u, history'⟩ call h ⟨hexec, hevents⟩
  cases hevents
  exact h.call hexec

end

/-! ## The result -/

/-- **No context is lost or swapped.** Along any run of the four calls, each
switch returns the frame its target is to be resumed with, and leaves the
stored frames of all threads but the outgoing one. -/
theorem no_context_lost {s₀ s t : Scheduler} {threads : List BootThread} {idle : Nat}
    {calls : List SchedCall} {history : List SwitchEvent} {kernelUptime curStatus ret : Nat}
    (hi : idle < threads.length)
    (hrun : Run contextStep (bootScheduler s₀ threads idle, bootEvents threads) calls
      (s, history))
    (hq : s.quantumOver = true) (hsched : s.schedule kernelUptime curStatus = .ok (ret, t)) :
    ∃ c T, s.currentExecutingThread = some c ∧ t.currentExecutingThread = some T ∧
      expectedFrame (history ++ eventsOf s (.schedule kernelUptime curStatus)) T = some ret ∧
      ∀ p, p ≠ c → (t.thread p).executionFrame = (s.thread p).executionFrame := by
  have hinv := contextRun_keeps hi hrun
  obtain ⟨c, hc⟩ : ∃ c, s.currentExecutingThread = some c := by
    cases hc : s.currentExecutingThread with
    | none => simp [quantumOver, hc] at hq
    | some c => exact ⟨c, rfl⟩
  obtain ⟨hinv', ⟨T, hlt, hT, rfl⟩, hothers⟩ := hinv.switch hc hq hsched
  refine ⟨c, T, hc, hT, ?_, hothers⟩
  simp only [eventsOf, hc, hq, if_true]
  exact hinv'.frames T hlt

/-- A thread created while another runs is handed its creation frame when the
other goes to sleep. -/
theorem no_context_lost_created :
    ∃ s history t T, Run contextStep
        (bootScheduler blankScheduler [⟨0, 100, 0⟩, ⟨0, 200, 0⟩] 1,
          bootEvents [⟨0, 100, 0⟩, ⟨0, 200, 0⟩])
        [.create 0 300 0, .sleep 0 5] (s, history) ∧
      s.schedule 1 70 = .ok (300, t) ∧ t.currentExecutingThread = some T ∧
      expectedFrame (history ++ eventsOf s (.schedule 1 70)) T = some 300 := by
  obtain ⟨s, history, hexec, hq, t, hsched, -⟩ : ∃ s history,
      contextRun (bootScheduler blankScheduler [⟨0, 100, 0⟩, ⟨0, 200, 0⟩] 1,
        bootEvents [⟨0, 100, 0⟩, ⟨0, 200, 0⟩]) [.create 0 300 0, .sleep 0 5] = .ok (s, history) ∧
      s.quantumOver = true ∧ ∃ t, s.schedule 1 70 = .ok (300, t) ∧ True := by decide +kernel
  have hrun := contextRun_run hexec
  obtain ⟨c, T, -, hT, hframe, -⟩ := no_context_lost (by decide) hrun hq hsched
  exact ⟨s, history, t, T, hrun, hsched, hT, hframe⟩

end Dreamos64
