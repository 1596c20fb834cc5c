import Dreamos64.Lib.Links
import Dreamos64.Lib.Run
import Dreamos64.Sched.Scheduler
import Mathlib.Data.List.Perm.Subperm

/-!
# Dreamos64 — what `schedule` does to the thread list

`Listed s L` says that `L` is the list from `thread_list`. Seen from the current
thread `c` of `L = l₁ ++ c :: l₂` the list is a ring: the others follow as
`l₂ ++ l₁`, and after them comes `c` again.

* `schedulerGetNextThread_eq`   — the next thread is the head of that ring;
* `schedulerDeleteThread_spec`  — removal takes out the first thread with the
  identifier and changes links only (`Relinked`);
* `scheduleBody_same` / `_runnable` / `_dead` / `_skip` — one turn of the search;
* `schedule_exact`              — the whole call, for threads with different
  identifiers: the search removes the DEAD threads right after the current one
  and looks at one thread more (`scanTarget`).
-/

namespace Dreamos64

open Machine Links

namespace Scheduler

variable {s t u : Scheduler} {L l₁ l₂ : List Nat} {c x p : Nat}

/-! ## Fields after an update -/

theorem modify_thread (s : Scheduler) (p : Nat) (f : Thread → Thread) (q : Nat) :
    (s.modify p f).thread q = if q = p then f (s.thread p) else s.thread q := by
  simp only [modify, Function.update_apply]

def nextOf (s : Scheduler) (p : Nat) : Option Nat := (s.thread p).next

/-- `L` is the list from `thread_list`, and `thread_list_size` its length. -/
structure Listed (s : Scheduler) (L : List Nat) : Prop where
  chain : Chain s.nextOf s.threadList L
  size  : s.threadListSize = L.length
  bound : ∀ p ∈ L, p < s.created

theorem Listed.length_le (h : Listed s L) : L.length ≤ s.created := by
  have hsub : L ⊆ List.range s.created := fun p hp => List.mem_range.2 (h.bound p hp)
  simpa using (List.subperm_of_subset h.chain.nodup hsub).length_le

/-- Only links have changed. -/
structure Relinked (s t : Scheduler) : Prop where
  threads      : ∀ p, t.thread p = { s.thread p with next := (t.thread p).next }
  created      : t.created = s.created
  nextThreadId : t.nextThreadId = s.nextThreadId
  current      : t.currentExecutingThread = s.currentExecutingThread
  idle         : t.idleThread = s.idleThread

namespace Relinked

theorem refl (s : Scheduler) : Relinked s s := ⟨fun _ => rfl, rfl, rfl, rfl, rfl⟩

section

variable (h : Relinked s t)

include h

theorem status (p : Nat) : (t.thread p).status = (s.thread p).status :=
  (congrArg Thread.status (h.threads p) :)

theorem tid (p : Nat) : (t.thread p).tid = (s.thread p).tid :=
  (congrArg Thread.tid (h.threads p) :)

theorem wakeupTime (p : Nat) : (t.thread p).wakeupTime = (s.thread p).wakeupTime :=
  (congrArg Thread.wakeupTime (h.threads p) :)

theorem executionFrame (p : Nat) : (t.thread p).executionFrame = (s.thread p).executionFrame :=
  (congrArg Thread.executionFrame (h.threads p) :)

theorem trans (h' : Relinked t u) : Relinked s u where
  threads p := by rw [h'.threads p, h.threads p]
  created := h'.created.trans h.created
  nextThreadId := h'.nextThreadId.trans h.nextThreadId
  current := h'.current.trans h.current
  idle := h'.idle.trans h.idle

end

end Relinked

/-! ## The next thread -/

/-- `scheduler_get_next_thread` goes round the list: the threads after the
current one, those before it, and the current one last. -/
theorem schedulerGetNextThread_eq (h : Listed s (l₁ ++ c :: l₂))
    (hc : s.currentExecutingThread = some c) :
    s.schedulerGetNextThread = (l₂ ++ l₁ ++ [c]).head? := by
  have hhead : s.threadList = (l₁ ++ c :: l₂).head? := h.chain.head_eq
  have hnext : (s.thread c).next = l₂.head? := h.chain.next_eq
  have hsize := h.size
  unfold schedulerGetNextThread
  rw [if_neg, hc]
  · dsimp only
    rw [hnext, hhead]
    cases l₂ <;> cases l₁ <;> rfl
  · rintro (hzero | hnone)
    · simp [hsize] at hzero
    · rw [hnone] at hhead
      cases l₁ <;> simp at hhead

/-! ## Removing a thread -/

/-- The search stops at the first thread with the identifier. -/
theorem search_eq {tid : Nat} {h prev : Option Nat} {fuel : Nat}
    (hseg : Seg s.nextOf h l₁ (some x)) (hfirst : ∀ y ∈ l₁, (s.thread y).tid ≠ tid)
    (hx : (s.thread x).tid = tid) (hfuel : l₁.length < fuel) :
    loop (s.searchBody tid) fuel (h, prev) = .ok (some x, l₁.getLast?.or prev) := by
  -- along the threads with other identifiers, with the last one seen in `prev_item`
  induction l₁ generalizing h prev fuel with
  | nil =>
    obtain ⟨fuel, rfl⟩ : ∃ k, fuel = k + 1 := ⟨fuel - 1, by simp at hfuel; omega⟩
    rw [seg_nil] at hseg
    subst hseg
    exact loop_done (by simp [searchBody, hx])
  | cons y l ih =>
    obtain ⟨fuel, rfl⟩ : ∃ k, fuel = k + 1 := ⟨fuel - 1, by simp at hfuel; omega⟩
    obtain ⟨rfl, htail⟩ := seg_cons.1 hseg
    have hy := hfirst y List.mem_cons_self
    have hbody : s.searchBody tid (some y, prev) = .ok (.next (s.nextOf y, some y)) := by
      simp [searchBody, hy, nextOf]
    rw [loop_next hbody, ih htail (fun z hz => hfirst z (List.mem_cons_of_mem _ hz))
      (by simpa using hfuel)]
    rw [List.getLast?_cons]
    cases l.getLast? <;> rfl

theorem schedulerDeleteThread_spec {tid : Nat} (h : Listed s (l₁ ++ x :: l₂))
    (hfirst : ∀ y ∈ l₁, (s.thread y).tid ≠ tid) (hx : (s.thread x).tid = tid) :
    ∃ t, s.schedulerDeleteThread tid = .ok t ∧ Relinked s t ∧ Listed t (l₁ ++ l₂) ∧
      ∀ p, l₁.getLast? ≠ some p → t.nextOf p = s.nextOf p := by
  obtain ⟨hseg, htail⟩ := chain_split.1 h.chain
  have hlen := h.length_le
  have hsize := h.size
  rw [List.length_append, List.length_cons] at hlen hsize
  have hsearch : loop (s.searchBody tid) (s.created + 1) (s.threadList, none) =
      .ok (some x, l₁.getLast?) := by
    rw [search_eq hseg hfirst hx (by omega : l₁.length < s.created + 1), Option.or_none]
  simp only [schedulerDeleteThread, hsearch, ok_bind, unlinkThread]
  rcases List.eq_nil_or_concat' l₁ with rfl | ⟨k, y, rfl⟩
  · -- the head of the list
    rw [if_pos (show s.threadList = some x from hseg)]
    refine ⟨_, rfl, ⟨fun _ => rfl, rfl, rfl, rfl, rfl⟩, ⟨htail, ?_, ?_⟩, fun _ _ => rfl⟩
    · simp [countRemoved, hsize]
    · exact fun p hp => h.bound p (List.mem_cons_of_mem _ hp)
  · -- after `y`, whose link alone is written
    have hchain := h.chain
    rw [List.append_assoc, List.singleton_append] at hchain
    have hhead : s.threadList ≠ some x := by
      have hnd := hchain.nodup
      rw [hchain.head_eq]
      intro hx'
      cases k <;> simp at hx' <;> simp [hx'] at hnd
    have hlast : (k ++ [y]).getLast? = some y := by simp
    rw [if_neg hhead, hlast]
    simp only [deref, ok_bind]
    obtain ⟨t, ht⟩ : ∃ t, t = (s.modify y fun t =>
      { t with next := (s.thread x).next }).countRemoved x := ⟨_, rfl⟩
    have hthread (p : Nat) : t.thread p =
        if p = y then { s.thread y with next := (s.thread x).next } else s.thread p := by
      simp only [ht, countRemoved, modify_thread]
    have hkept {p : Nat} (hp : p ≠ y) : t.nextOf p = s.nextOf p := by
      rw [nextOf, hthread, if_neg hp, nextOf]
    refine ⟨t, by rw [ht], ⟨fun p => ?_, ?_, ?_, ?_, ?_⟩, ⟨?_, ?_, ?_⟩, ?_⟩
    · rw [hthread]
      split_ifs with hp
      · rw [hp]
      · rfl
    · rw [ht]; rfl
    · rw [ht]; rfl
    · rw [ht]; rfl
    · rw [ht]; rfl
    · have hnext : t.nextOf y = s.nextOf x := by rw [nextOf, hthread, if_pos rfl, nextOf]
      have hlist : t.threadList = s.threadList := by rw [ht]; rfl
      rw [List.append_assoc, List.singleton_append, hlist]
      exact hchain.unlink hnext fun z _ hz => hkept hz
    · rw [ht]
      show s.threadListSize - 1 = _
      simp only [hsize, List.length_append]
      omega
    · intro p hp
      rw [ht]
      refine h.bound p ?_
      rw [List.mem_append] at hp ⊢
      exact hp.imp_right (List.mem_cons_of_mem _)
    · intro p hp
      exact hkept fun e => hp (e ▸ rfl)

/-- The thread looked at stays next when another one is unlinked. -/
theorem next_after_unlink {u' : Scheduler} {k₁ k₂ : List Nat} {n : Nat}
    (h : Listed u (k₁ ++ x :: k₂)) (hl : Listed u' (k₁ ++ k₂))
    (hrel : Relinked u u') (hlinks : ∀ p, k₁.getLast? ≠ some p → u'.nextOf p = u.nextOf p)
    (hc : u.currentExecutingThread = some c) (hn : u.schedulerGetNextThread = some n)
    (hnx : n ≠ x) (hmem : n ∈ k₁ ++ k₂) : u'.schedulerGetNextThread = some n := by
  have hnext : (u.thread c).next.or u.threadList = some n := by
    unfold schedulerGetNextThread at hn
    split_ifs at hn
    rw [hc] at hn
    exact hn
  -- the link that is written is not that of the current thread
  have hkept : (u'.thread c).next = (u.thread c).next := by
    refine hlinks c fun hlast => ?_
    obtain ⟨k, rfl⟩ := List.getLast?_eq_some_iff.1 hlast
    have hchain := h.chain
    rw [List.append_assoc] at hchain
    have hcx : (u.thread c).next = some x := hchain.next_eq
    rw [hcx] at hnext
    exact hnx (Option.some.inj hnext).symm
  have hhead' : u'.threadList = (k₁ ++ k₂).head? := hl.chain.head_eq
  have hsome : u'.threadList ≠ none := by
    rw [hhead']
    intro hnone
    rw [List.head?_eq_none_iff.1 hnone] at hmem
    cases hmem
  have hsize : u'.threadListSize ≠ 0 := by
    rw [hl.size]
    exact fun hzero => by rw [List.length_eq_zero_iff.1 hzero] at hmem; cases hmem
  unfold schedulerGetNextThread
  rw [if_neg (not_or.2 ⟨hsize, hsome⟩), hrel.current, hc]
  dsimp only
  rw [hkept]
  cases hcn : (u.thread c).next with
  | some m =>
    rw [hcn] at hnext
    exact hnext
  | none =>
    -- the thread looked at heads the list, and is not unlinked
    rw [hcn, Option.none_or, h.chain.head_eq] at hnext
    rw [Option.none_or, hhead']
    cases k₁ with
    | nil => exact absurd (Option.some.inj hnext).symm hnx
    | cons y k => exact hnext

/-! ## The scan of `schedule` -/

def isDead (s : Scheduler) (p : Nat) : Bool := (s.thread p).status = .dead

/-- The threads that `schedule` accepts. -/
def runnable (s : Scheduler) (kernelUptime p : Nat) : Bool :=
  (s.thread p).status = .ready ∨ (s.thread p).status = .new ∨
    (s.thread p).status = .sleep ∧ kernelUptime > (s.thread p).wakeupTime

/-- What the scan settles on, given the threads after the current one: the first
that is not DEAD, if it can run, and otherwise the idle thread. -/
def scanTarget (s : Scheduler) (kernelUptime idle : Nat) (others : List Nat) : Nat :=
  match others.dropWhile s.isDead with
  | [] => idle
  | n :: _ => if s.runnable kernelUptime n then n else idle

theorem Relinked.isDead (h : Relinked s t) (p : Nat) : t.isDead p = s.isDead p := by
  rw [Scheduler.isDead, Scheduler.isDead, h.status]

theorem Relinked.runnable (h : Relinked s t) (kernelUptime p : Nat) :
    t.runnable kernelUptime p = s.runnable kernelUptime p := by
  rw [Scheduler.runnable, Scheduler.runnable, h.status, h.wakeupTime]

/-- Waking a sleeper on the way makes no difference to the switch. -/
theorem switchTo_wake (s : Scheduler) (p : Nat) :
    (s.modify p fun t => { t with status := .ready }).switchTo p = s.switchTo p := by
  simp [switchTo, modify]

/-! One turn of the loop, by the thread it looks at. -/

section Turn

variable (kernelUptime : Nat) {n prevTid : Nat}

theorem scheduleBody_same (htid : (s.thread n).tid = prevTid) :
    scheduleBody kernelUptime (s, some n, prevTid) = .ok (.done (s, s.idleThread)) := by
  simp [scheduleBody, deref, htid]

theorem scheduleBody_runnable (htid : (s.thread n).tid ≠ prevTid)
    (hrun : s.runnable kernelUptime n = true) :
    ∃ t, scheduleBody kernelUptime (s, some n, prevTid) = .ok (.done (t, some n)) ∧
      t.switchTo n = s.switchTo n := by
  simp only [scheduleBody, deref, ok_bind]
  rw [if_neg htid]
  by_cases hwake : (s.thread n).status = .sleep ∧ kernelUptime > (s.thread n).wakeupTime
  · exact ⟨_, by rw [if_pos hwake], switchTo_wake s n⟩
  · rw [if_neg hwake]
    simp only [runnable, hwake, or_false, decide_eq_true_eq] at hrun
    have hdead : (s.thread n).status ≠ .dead := by
      intro hdead
      simp [hdead] at hrun
    exact ⟨s, by rw [if_neg hdead, if_pos hrun], rfl⟩

theorem scheduleBody_dead (htid : (s.thread n).tid ≠ prevTid) (hdead : s.isDead n = true)
    (hdelete : s.schedulerDeleteThread (s.thread n).tid = .ok t) :
    scheduleBody kernelUptime (s, some n, prevTid) =
      .ok (.next (t, t.schedulerGetNextThread, (s.thread n).tid)) := by
  have hstatus : (s.thread n).status = .dead := by simpa [isDead] using hdead
  simp [scheduleBody, deref, htid, hstatus, hdelete]

theorem scheduleBody_skip (htid : (s.thread n).tid ≠ prevTid) (hdead : s.isDead n = false)
    (hrun : s.runnable kernelUptime n = false) :
    scheduleBody kernelUptime (s, some n, prevTid) =
      .ok (.next (s, s.schedulerGetNextThread, (s.thread n).tid)) := by
  simp only [runnable, decide_eq_false_iff_not, not_or] at hrun
  simp only [isDead, decide_eq_false_iff_not] at hdead
  simp [scheduleBody, deref, htid, hdead, hrun.1, hrun.2.1, hrun.2.2]

/-- All that a turn can do. -/
theorem scheduleBody_cases {current : Option Nat}
    {r : LoopStep (Scheduler × Option Nat × Nat) (Scheduler × Option Nat)}
    (h : scheduleBody kernelUptime (s, current, prevTid) = .ok r) :
    ∃ n, current = some n ∧
      ((s.thread n).tid = prevTid ∧ r = .done (s, s.idleThread) ∨
      (s.thread n).tid ≠ prevTid ∧
        (s.runnable kernelUptime n = true ∧
            (∃ t, r = .done (t, some n) ∧ t.switchTo n = s.switchTo n) ∨
          s.isDead n = true ∧ (∃ t, s.schedulerDeleteThread (s.thread n).tid = .ok t ∧
            r = .next (t, t.schedulerGetNextThread, (s.thread n).tid)) ∨
          s.isDead n = false ∧ s.runnable kernelUptime n = false ∧
            r = .next (s, s.schedulerGetNextThread, (s.thread n).tid))) := by
  cases current with
  | none => simp [scheduleBody, deref] at h
  | some n =>
    refine ⟨n, rfl, ?_⟩
    by_cases htid : (s.thread n).tid = prevTid
    · rw [scheduleBody_same kernelUptime htid] at h
      cases h
      exact Or.inl ⟨htid, rfl⟩
    refine Or.inr ⟨htid, ?_⟩
    cases hrun : s.runnable kernelUptime n with
    | true =>
      obtain ⟨t, hbody, hswitch⟩ := scheduleBody_runnable kernelUptime htid hrun
      rw [hbody] at h
      cases h
      exact Or.inl ⟨rfl, t, rfl, hswitch⟩
    | false =>
      -- a dead thread is deleted on the way; the others are only passed
      cases hdead : s.isDead n with
      | true =>
        cases hdelete : s.schedulerDeleteThread (s.thread n).tid with
        | error e =>
          have hstatus : (s.thread n).status = .dead := by simpa [isDead] using hdead
          simp [scheduleBody, deref, htid, hstatus, hdelete] at h
        | ok t =>
          rw [scheduleBody_dead kernelUptime htid hdead hdelete] at h
          cases h
          exact Or.inr (Or.inl ⟨rfl, t, rfl, rfl⟩)
      | false =>
        rw [scheduleBody_skip kernelUptime htid hdead hrun] at h
        cases h
        exact Or.inr (Or.inr ⟨rfl, rfl, rfl⟩)

end Turn

/-- Removal changes links only, whatever the list is. -/
theorem schedulerDeleteThread_relinked {tid : Nat} (h : s.schedulerDeleteThread tid = .ok t) :
    Relinked s t := by
  obtain ⟨⟨item, prev⟩, -, h⟩ := bind_inv h
  cases item with
  | none =>
    cases h
    exact Relinked.refl s
  | some item =>
    simp only [unlinkThread] at h
    split_ifs at h
    · cases h
      exact ⟨fun _ => rfl, rfl, rfl, rfl, rfl⟩
    · obtain ⟨y, -, h⟩ := bind_inv h
      cases h
      refine ⟨fun p => ?_, rfl, rfl, rfl, rfl⟩
      simp only [countRemoved, modify_thread]
      split_ifs with hp
      · rw [hp]
      · rfl

theorem filter_removed {k₁ k₂ D : List Nat} {n : Nat} (hnd : (k₁ ++ n :: k₂).Nodup) :
    (k₁ ++ n :: k₂).filter (· ∉ n :: D) = (k₁ ++ k₂).filter (· ∉ D) := by
  have hn := not_mem_of_nodup_middle hnd
  have hcongr : (k₁ ++ k₂).filter (· ∉ n :: D) = (k₁ ++ k₂).filter (· ∉ D) := by
    refine List.filter_congr fun p hp => ?_
    have hpn : p ≠ n := fun e => hn (e ▸ hp)
    simp [hpn]
  rw [← hcongr, List.filter_append, List.filter_append]
  simp

theorem current_not_mem (hnd : (l₁ ++ c :: l₂).Nodup) : c ∉ l₂ ++ l₁ := by
  have hnot := not_mem_of_nodup_middle hnd
  simp only [List.mem_append] at hnot ⊢
  exact fun hmem => hnot hmem.symm

theorem ring_nodup (hnd : (l₁ ++ c :: l₂).Nodup) :
    (l₂ ++ l₁).Nodup ∧ ∀ p ∈ l₂ ++ l₁, p ∈ l₁ ++ c :: l₂ := by
  have hothers := hnd.sublist ((List.Sublist.refl l₁).append (List.sublist_cons_self c l₂))
  refine ⟨List.nodup_append_comm.1 hothers, fun p hp => ?_⟩
  simp only [List.mem_append, List.mem_cons] at hp ⊢
  tauto

/-- The thread after the current one, cut out of the list: the others follow the
current one as they did. -/
theorem ring_head {R : List Nat} {n : Nat} (h : l₂ ++ l₁ = n :: R) :
    ∃ k₁ k₂ m₁ m₂, l₁ ++ c :: l₂ = k₁ ++ n :: k₂ ∧ k₁ ++ k₂ = m₁ ++ c :: m₂ ∧ m₂ ++ m₁ = R := by
  cases l₂ with
  | nil =>
    obtain rfl : l₁ = n :: R := by simpa using h
    exact ⟨[], R ++ [c], R, [], by simp, by simp, by simp⟩
  | cons x l =>
    obtain ⟨rfl, rfl⟩ : x = n ∧ l ++ l₁ = R := by simpa using h
    exact ⟨l₁ ++ [c], l, l₁, l, by simp, by simp, rfl⟩

/-- **What the scan does**, as a function of the list and of the ring ahead: the
thread it settles on and the list it leaves. A DEAD thread is removed by its
identifier. If that takes out another thread, or if a thread can neither run nor
be removed, the next turn looks at the same thread again and leaves. -/
def scan (s : Scheduler) (kernelUptime idle : Nat) : Nat → List Nat → List Nat → Nat × List Nat
  | _, L, [] => (idle, L)
  | prevTid, L, n :: R =>
    if (s.thread n).tid = prevTid then (idle, L)
    else if s.runnable kernelUptime n then (n, L)
    else if s.isDead n then
      let x := (L.find? fun p => (s.thread p).tid = (s.thread n).tid).getD n
      if x = n then s.scan kernelUptime idle (s.thread n).tid (L.erase n) R else (idle, L.erase x)
    else (idle, L)

theorem erase_middle {k₁ k₂ : List Nat} {n : Nat} (hnd : (k₁ ++ n :: k₂).Nodup) :
    (k₁ ++ n :: k₂).erase n = k₁ ++ k₂ := by
  have hn : n ∉ k₁ := fun h => not_mem_of_nodup_middle hnd (List.mem_append_left _ h)
  rw [List.erase_append_right _ hn, List.erase_cons_head]

/-- The thread that a removal by the identifier of `n` takes out. -/
theorem first_with_tid {n : Nat} (s : Scheduler) (hn : n ∈ L) :
    ∃ x k₁ k₂, (L.find? fun p => (s.thread p).tid = (s.thread n).tid) = some x ∧
      L = k₁ ++ x :: k₂ ∧ (∀ y ∈ k₁, (s.thread y).tid ≠ (s.thread n).tid) ∧
      (s.thread x).tid = (s.thread n).tid := by
  cases hfind : L.find? fun p => (s.thread p).tid = (s.thread n).tid with
  | none =>
    have habsent := List.find?_eq_none.1 hfind n hn
    simp at habsent
  | some x =>
    obtain ⟨hx, k₁, k₂, hL, hfirst⟩ := List.find?_eq_some_iff_append.1 hfind
    exact ⟨x, k₁, k₂, rfl, hL, by simpa using hfirst, by simpa using hx⟩

/-- A turn that meets a DEAD thread takes out the first one with its identifier. If that
is another thread, the next turn meets the same one again. -/
theorem scheduleBody_removes {n prevTid : Nat} (kernelUptime : Nat) (hl : Listed s L)
    (hcur : s.currentExecutingThread = some c) (hnext : s.schedulerGetNextThread = some n)
    (htid : (s.thread n).tid ≠ prevTid) (hdead : s.isDead n = true) (hn : n ∈ L) :
    ∃ x t, (L.find? fun p => (s.thread p).tid = (s.thread n).tid) = some x ∧
      scheduleBody kernelUptime (s, some n, prevTid) =
        .ok (.next (t, t.schedulerGetNextThread, (s.thread n).tid)) ∧
      Relinked s t ∧ Listed t (L.erase x) ∧ (x ≠ n → t.schedulerGetNextThread = some n) := by
  obtain ⟨x, k₁, k₂, hfind, rfl, hfirst, hx⟩ := first_with_tid s hn
  obtain ⟨t, hdelete, hrel, hlist, hlinks⟩ := schedulerDeleteThread_spec hl hfirst hx
  refine ⟨x, t, hfind, scheduleBody_dead kernelUptime htid hdead hdelete, hrel, ?_, fun hxn => ?_⟩
  · rw [erase_middle hl.chain.nodup]
    exact hlist
  · have hstay : n ∈ k₁ ++ k₂ := by
      have hkept := (List.mem_erase_of_ne (Ne.symm hxn)).mpr hn
      rwa [erase_middle hl.chain.nodup] at hkept
    exact next_after_unlink hl hlist hrel hlinks hcur hnext (Ne.symm hxn) hstay

/-- The loop of `schedule` computes `scan`. -/
theorem scan_eq {s₀ : Scheduler} {i prevTid fuel : Nat} (kernelUptime : Nat)
    (hrel : Relinked s₀ s) (hl : Listed s (l₁ ++ c :: l₂))
    (hc : s₀.currentExecutingThread = some c) (hi : s₀.idleThread = some i)
    (hmem : i ∈ l₁ ++ c :: l₂) (halive : s₀.isDead i = false)
    (hself : c = i → (s₀.thread c).status = .ready) (hfuel : (l₂ ++ l₁).length + 2 ≤ fuel) :
    ∃ t t' T, loop (scheduleBody kernelUptime) fuel (s, s.schedulerGetNextThread, prevTid) =
        .ok (t, some T) ∧
      t.switchTo T = t'.switchTo T ∧ Relinked s₀ t' ∧
      T = (s₀.scan kernelUptime i prevTid (l₁ ++ c :: l₂) (l₂ ++ l₁)).1 ∧
      Listed t' (s₀.scan kernelUptime i prevTid (l₁ ++ c :: l₂) (l₂ ++ l₁)).2 := by
  have hcur := hrel.current.trans hc
  have hidle := hrel.idle.trans hi
  obtain ⟨fuel, rfl⟩ : ∃ k, fuel = k + 2 := ⟨fuel - 2, by omega⟩
  generalize hR : l₂ ++ l₁ = R at *
  have hnext := schedulerGetNextThread_eq hl hcur
  rw [hR] at hnext
  -- on the ring ahead of the current thread, which a removal makes shorter by one
  induction R generalizing s l₁ l₂ prevTid fuel with
  | nil =>
    -- the current thread is alone, so it is the idle thread
    obtain ⟨rfl, rfl⟩ := List.append_eq_nil_iff.1 hR
    obtain rfl : i = c := by simpa using hmem
    have hready := hself rfl
    rw [hnext]
    show ∃ t t' T, loop _ (fuel + 2) (s, some i, prevTid) = _ ∧ _
    by_cases htid : (s.thread i).tid = prevTid
    · have hsame := scheduleBody_same kernelUptime htid
      rw [hidle] at hsame
      exact ⟨s, s, i, loop_done hsame, rfl, hrel, rfl, hl⟩
    · have hrun : s.runnable kernelUptime i = true := by
        simp [runnable, hrel.status, hready]
      obtain ⟨t, hbody, hswitch⟩ := scheduleBody_runnable kernelUptime htid hrun
      exact ⟨t, s, i, loop_done hbody, hswitch, hrel, rfl, hl⟩
  | cons n R ih =>
    rw [hnext]
    show ∃ t t' T, loop _ (fuel + 2) (s, some n, prevTid) = _ ∧ _
    by_cases htid : (s₀.thread n).tid = prevTid
    · have hsame := scheduleBody_same kernelUptime ((hrel.tid n).trans htid)
      rw [hidle] at hsame
      rw [scan, if_pos htid]
      exact ⟨s, s, i, loop_done hsame, rfl, hrel, rfl, hl⟩
    have htid' : (s.thread n).tid ≠ prevTid := hrel.tid n ▸ htid
    rw [scan, if_neg htid]
    cases hrun : s₀.runnable kernelUptime n with
    | true =>
      obtain ⟨t, hbody, hswitch⟩ :=
        scheduleBody_runnable kernelUptime htid' ((hrel.runnable _ n).trans hrun)
      exact ⟨t, s, n, loop_done hbody, hswitch, hrel, rfl, hl⟩
    | false =>
      have hrun' := (hrel.runnable _ n).trans hrun
      cases hdead : s₀.isDead n with
      | false =>
        -- the scan does not move on: the next turn meets the same thread and leaves
        have hskip := scheduleBody_skip kernelUptime htid' ((hrel.isDead n).trans hdead) hrun'
        have hsame := scheduleBody_same kernelUptime (rfl : (s.thread n).tid = (s.thread n).tid)
        rw [hnext] at hskip
        rw [hidle] at hsame
        refine ⟨s, s, i, ?_, rfl, hrel, rfl, hl⟩
        rw [loop_next hskip]
        exact loop_done hsame
      | true =>
        have hnd := hl.chain.nodup
        obtain ⟨k₁, k₂, m₁, m₂, hcut, hrest, hring⟩ := ring_head (c := c) hR
        have hnL : n ∈ l₁ ++ c :: l₂ := hcut ▸ by simp
        obtain ⟨x, t, hfind, hbody, hrel', hlist, hstays⟩ :=
          scheduleBody_removes kernelUptime hl hcur hnext htid' ((hrel.isDead n).trans hdead) hnL
        have hsearch : (fun p => decide ((s.thread p).tid = (s.thread n).tid)) =
            fun p => decide ((s₀.thread p).tid = (s₀.thread n).tid) := by
          funext p
          rw [hrel.tid, hrel.tid]
        rw [hsearch] at hfind
        simp only [Bool.false_eq_true, if_false, if_true, hfind, Option.getD_some]
        rw [loop_next hbody]
        by_cases hxn : x = n
        · -- the thread looked at is the one removed
          subst hxn
          have hcur' := hrel'.current.trans hcur
          have hleft : (l₁ ++ c :: l₂).erase x = m₁ ++ c :: m₂ := by
            rw [hcut] at hnd ⊢
            rw [erase_middle hnd, hrest]
          rw [hleft] at hlist
          rw [if_pos rfl, hleft]
          have hmem' : i ∈ m₁ ++ c :: m₂ := by
            have hix : i ≠ x := fun e => by simp [e, hdead] at halive
            rw [← hleft]
            exact (List.mem_erase_of_ne hix).mpr hmem
          rw [List.length_cons] at hfuel
          obtain ⟨fuel, rfl⟩ : ∃ k, fuel = k + 1 := ⟨fuel - 1, by omega⟩
          have hnext' := schedulerGetNextThread_eq hlist hcur'
          rw [hring] at hnext'
          rw [hrel.tid x]
          exact ih (hrel.trans hrel') hlist hmem' hcur' (hrel'.idle.trans hidle) fuel hring
            (by omega) hnext'
        · -- another thread is removed, and the next turn leaves
          have hsame := scheduleBody_same kernelUptime (hrel'.tid n)
          rw [hrel'.idle, hidle] at hsame
          rw [if_neg hxn, hstays hxn]
          exact ⟨t, t, i, loop_done hsame, rfl, hrel.trans hrel', rfl, hlist⟩

/-- With different identifiers the scan removes the DEAD threads right after the
current one and settles on `scanTarget`. -/
theorem scan_distinct {ring : List Nat} {i prevTid : Nat} (kernelUptime : Nat) (hnd : L.Nodup)
    (hring : ring.Nodup) (hsub : ∀ p ∈ ring, p ∈ L)
    (hinj : ∀ p ∈ L, ∀ q ∈ L, (s.thread p).tid = (s.thread q).tid → p = q)
    (hprev : ∀ p ∈ ring, (s.thread p).tid ≠ prevTid) :
    s.scan kernelUptime i prevTid L ring =
      (s.scanTarget kernelUptime i ring, L.filter (· ∉ ring.takeWhile s.isDead)) := by
  -- with different identifiers the thread removed is the one looked at
  induction ring generalizing L prevTid with
  | nil => simp [scan, scanTarget]
  | cons n R ih =>
    have htid := hprev n List.mem_cons_self
    have hnL := hsub n List.mem_cons_self
    obtain ⟨hnR, hR⟩ := List.nodup_cons.1 hring
    rw [scan, if_neg htid]
    cases hdead : s.isDead n with
    | false =>
      cases hrun : s.runnable kernelUptime n <;> simp [scanTarget, hdead, hrun]
    | true =>
      have hrun : s.runnable kernelUptime n = false := by
        cases hstatus : (s.thread n).status <;> simp [isDead, runnable, hstatus] at hdead ⊢
      obtain ⟨x, k₁, k₂, hfind, hsplit, -, hx⟩ := first_with_tid s hnL
      obtain rfl : x = n := hinj x (hsplit ▸ by simp) n hnL hx
      have hkeep {p : Nat} (hp : p ∈ R) : p ∈ L.erase x := by
        have hpx : p ≠ x := by
          rintro rfl
          exact hnR hp
        exact (List.mem_erase_of_ne hpx).2 (hsub p (List.mem_cons_of_mem _ hp))
      have hrec := ih (hnd.erase x) hR (fun p hp => hkeep hp)
        (fun p hp q hq => hinj p (List.mem_of_mem_erase hp) q (List.mem_of_mem_erase hq))
        (fun p hp he => hnR (hinj p (List.mem_of_mem_erase (hkeep hp)) x hnL he ▸ hp))
      simp only [hrun, Bool.false_eq_true, if_false, if_true, hfind, Option.getD_some, hrec,
        Prod.mk.injEq]
      refine ⟨by simp [scanTarget, hdead], ?_⟩
      rw [hsplit] at hnd ⊢
      rw [erase_middle hnd, List.takeWhile_cons_of_pos hdead, filter_removed hnd]

/-! ## `schedule` as a whole -/

/-- The quantum check of `schedule`. -/
def quantumOver (s : Scheduler) : Bool :=
  match s.currentExecutingThread with
  | none => false
  | some c => (s.thread c).status = .sleep ∨ schedulerNumberOfTicks ≤ (s.thread c).ticks

/-- The current thread once `schedule` has switched it out. -/
def savedThread (t : Thread) (curStatus : Nat) : Thread :=
  { t with
    ticks := (if t.status = .sleep then schedulerNumberOfTicks else t.ticks) + 1
    executionFrame := if t.status = .new then t.executionFrame else curStatus
    status := if t.status = .sleep ∨ t.status = .dead then t.status else .ready }

def saved (s : Scheduler) (c curStatus : Nat) : Scheduler :=
  { s with thread := Function.update s.thread c (savedThread (s.thread c) curStatus) }

theorem saved_thread (s : Scheduler) (c curStatus p : Nat) :
    (s.saved c curStatus).thread p =
      if p = c then savedThread (s.thread c) curStatus else s.thread p := by
  simp only [saved, Function.update_apply]

theorem saved_tid (s : Scheduler) (c curStatus p : Nat) :
    ((s.saved c curStatus).thread p).tid = (s.thread p).tid := by
  rw [saved_thread]
  split_ifs with hp
  · rw [hp]; rfl
  · rfl

/-- The blocks before the search, taken together. -/
theorem switchOut_eq (s : Scheduler) (c curStatus : Nat) :
    (((s.endQuantum c).modify c fun t =>
      { t with ticks := ((s.endQuantum c).thread c).ticks + 1 }).switchOut c curStatus) =
      s.saved c curStatus := by
  cases hstatus : (s.thread c).status <;>
    simp [endQuantum, switchOut, modify, saved, savedThread, hstatus]

/-- Within its quantum the current thread goes on, one tick older. -/
theorem schedule_continue {kernelUptime curStatus : Nat}
    (hc : s.currentExecutingThread = some c) (hq : s.quantumOver = false) :
    s.schedule kernelUptime curStatus =
      .ok (curStatus, s.modify c fun t => { t with ticks := t.ticks + 1 }) := by
  simp only [quantumOver, hc, decide_eq_false_iff_not, not_or, Nat.not_le] at hq
  have hend : s.endQuantum c = s := by rw [endQuantum, if_neg hq.1]
  simp only [schedule, hc, deref, ok_bind, hend]
  rw [if_pos hq.2]
  rfl

/-- After it, the search decides. -/
theorem schedule_switch {kernelUptime curStatus : Nat}
    (hc : s.currentExecutingThread = some c) (hq : s.quantumOver = true) :
    s.schedule kernelUptime curStatus = (do
      let (t, threadToExecute) ← loop (scheduleBody kernelUptime) (s.created + 2)
        (s.saved c curStatus, (s.saved c curStatus).schedulerGetNextThread, (s.thread c).tid)
      let threadToExecute ← deref threadToExecute
      let t := t.switchTo threadToExecute
      .ok ((t.thread threadToExecute).executionFrame, t)) := by
  simp only [quantumOver, hc, decide_eq_true_eq] at hq
  have hticks : ¬ ((s.endQuantum c).thread c).ticks < schedulerNumberOfTicks := by
    rw [endQuantum]
    split_ifs with hsleep
    · simp [modify_thread]
    · exact Nat.not_lt.2 (hq.resolve_left hsleep)
  simp only [schedule, hc, deref, ok_bind, switchOut_eq, saved_tid]
  rw [if_neg hticks]
  rfl

theorem saved_listed (h : Listed s L) (c curStatus : Nat) : Listed (s.saved c curStatus) L := by
  refine ⟨h.chain.congr fun p _ => ?_, h.size, h.bound⟩
  rw [nextOf, saved_thread]
  split_ifs with hp
  · rw [hp]; rfl
  · rfl

theorem saved_isDead (s : Scheduler) (c curStatus p : Nat) :
    (s.saved c curStatus).isDead p = s.isDead p := by
  rw [isDead, isDead, saved_thread]
  split_ifs with hp
  · subst hp
    cases hstatus : (s.thread p).status <;> simp [savedThread, hstatus]
  · rfl

theorem saved_runnable {kernelUptime c curStatus p : Nat} (hp : p ≠ c) :
    (s.saved c curStatus).runnable kernelUptime p = s.runnable kernelUptime p := by
  rw [runnable, runnable, saved_thread, if_neg hp]

/-- Switching the current thread out does not change what the scan meets. -/
theorem saved_scan {kernelUptime c curStatus i prevTid : Nat} {ring : List Nat} (hc : c ∉ ring) :
    (s.saved c curStatus).scan kernelUptime i prevTid L ring =
      s.scan kernelUptime i prevTid L ring := by
  induction ring generalizing L prevTid with
  | nil => rfl
  | cons n R ih =>
    rw [List.mem_cons, not_or] at hc
    obtain ⟨hn, hR⟩ := hc
    simp only [scan, saved_tid, saved_isDead, saved_runnable (Ne.symm hn), ih hR]

/-- **The rule for a switch**, in whatever state. `J` is what the search keeps of
the state, the thread it looks at and `prev_thread_tid`. When the call returns, only
links have changed before the switch, and the thread made current is the idle
thread or the one the search looked at last. -/
theorem schedule_rule {kernelUptime curStatus ret : Nat} (J : Scheduler → Option Nat → Nat → Prop)
    (hc : s.currentExecutingThread = some c) (hq : s.quantumOver = true)
    (h : s.schedule kernelUptime curStatus = .ok (ret, t))
    (hstart : J (s.saved c curStatus) (s.saved c curStatus).schedulerGetNextThread (s.thread c).tid)
    (hdelete : ∀ u u' n prevTid, Relinked (s.saved c curStatus) u → J u (some n) prevTid →
      (u.thread n).tid ≠ prevTid → u.isDead n = true →
      u.schedulerDeleteThread (u.thread n).tid = .ok u' →
      J u' u'.schedulerGetNextThread (u.thread n).tid)
    (hskip : ∀ u n prevTid, Relinked (s.saved c curStatus) u → J u (some n) prevTid →
      (u.thread n).tid ≠ prevTid → J u u.schedulerGetNextThread (u.thread n).tid) :
    ∃ u T n prevTid, Relinked (s.saved c curStatus) u ∧ J u (some n) prevTid ∧
      t = u.switchTo T ∧ ret = (t.thread T).executionFrame ∧
      ((u.thread n).tid = prevTid ∧ u.idleThread = some T ∨
        (u.thread n).tid ≠ prevTid ∧ T = n ∧ u.runnable kernelUptime n = true) := by
  rw [schedule_switch hc hq] at h
  obtain ⟨⟨t₁, threadToExecute⟩, hloop, h⟩ := bind_inv h
  obtain ⟨T, hT, h⟩ := bind_inv h
  cases threadToExecute with
  | none => cases hT
  | some T' =>
    cases hT
    cases h
    -- the turn that leaves may also wake a sleeper, which the switch hides
    obtain ⟨u, n, prevTid, hrel, hJ, hswitch, hcase⟩ : ∃ u n prevTid,
        Relinked (s.saved c curStatus) u ∧ J u (some n) prevTid ∧ t₁.switchTo T = u.switchTo T ∧
          ((u.thread n).tid = prevTid ∧ u.idleThread = some T ∨
            (u.thread n).tid ≠ prevTid ∧ T = n ∧ u.runnable kernelUptime n = true) := by
      refine loop_inv (fun st => Relinked (s.saved c curStatus) st.1 ∧ J st.1 st.2.1 st.2.2)
        (fun r => ∀ T, r.2 = some T → ∃ u n prevTid, Relinked (s.saved c curStatus) u ∧
          J u (some n) prevTid ∧ r.1.switchTo T = u.switchTo T ∧
          ((u.thread n).tid = prevTid ∧ u.idleThread = some T ∨
            (u.thread n).tid ≠ prevTid ∧ T = n ∧ u.runnable kernelUptime n = true))
        ?_ ?_ ⟨Relinked.refl _, hstart⟩ hloop T rfl
      · rintro ⟨u, current, prevTid⟩ st ⟨hrel, hJ⟩ hbody
        obtain ⟨n, rfl, ⟨-, hr⟩ | ⟨htid, ⟨-, u', hr, -⟩ | ⟨hdead, u', hdel, hr⟩ | ⟨-, -, hr⟩⟩⟩ :=
          scheduleBody_cases kernelUptime hbody
        · cases hr
        · cases hr
        · cases hr
          exact ⟨hrel.trans (schedulerDeleteThread_relinked hdel),
            hdelete u u' n prevTid hrel hJ htid hdead hdel⟩
        · cases hr
          exact ⟨hrel, hskip u n prevTid hrel hJ htid⟩
      · rintro ⟨u, current, prevTid⟩ r ⟨hrel, hJ⟩ hbody T hT
        obtain ⟨n, rfl, ⟨htid, hr⟩ | ⟨htid, ⟨hrun, u', hr, hwake⟩ | ⟨-, u', -, hr⟩ | ⟨-, -, hr⟩⟩⟩ :=
          scheduleBody_cases kernelUptime hbody
        · cases hr
          exact ⟨u, n, prevTid, hrel, hJ, rfl, Or.inl ⟨htid, hT⟩⟩
        · cases hr
          cases hT
          exact ⟨u, T, prevTid, hrel, hJ, hwake, Or.inr ⟨htid, rfl, hrun⟩⟩
        · cases hr
        · cases hr
    exact ⟨u, T, n, prevTid, hrel, hJ, hswitch, rfl, hcase⟩

/-- Links may change, and then a thread is made current and its frame returned. -/
theorem schedule_relinked {kernelUptime curStatus ret : Nat}
    (hc : s.currentExecutingThread = some c) (hq : s.quantumOver = true)
    (h : s.schedule kernelUptime curStatus = .ok (ret, t)) :
    ∃ u T, Relinked (s.saved c curStatus) u ∧ t = u.switchTo T ∧
      ret = (t.thread T).executionFrame := by
  obtain ⟨u, T, n, prevTid, hrel, -, ht, hret, -⟩ := schedule_rule (fun _ _ _ => True) hc hq h
    trivial (fun _ _ _ _ _ _ _ _ _ => trivial) (fun _ _ _ _ _ _ => trivial)
  exact ⟨u, T, hrel, ht, hret⟩

/-! ## The invariant -/

/-- What every reachable state keeps, whatever the identifiers are. -/
structure SchedInv (s : Scheduler) (L : List Nat) (i : Nat) : Prop where
  listed  : Listed s L
  current : ∃ c ∈ L, s.currentExecutingThread = some c
  idle    : s.idleThread = some i
  awake   : (s.thread i).status = .new ∨ (s.thread i).status = .run ∨ (s.thread i).status = .ready
  running : ∀ p ∈ L, (s.thread p).status = .run → s.currentExecutingThread = some p

theorem SchedInv.idle_alive {i : Nat} (h : SchedInv s L i) : s.isDead i = false := by
  rcases h.awake with h | h | h <;> simp [isDead, h]

theorem switchTo_thread (s : Scheduler) (T p : Nat) :
    (s.switchTo T).thread p =
      if p = T then { s.thread T with status := .run, ticks := 0 } else s.thread p := by
  simp only [switchTo, modify_thread]

theorem switchTo_listed (h : Listed s L) (T : Nat) : Listed (s.switchTo T) L := by
  refine ⟨h.chain.congr fun p _ => ?_, h.size, h.bound⟩
  rw [nextOf, switchTo_thread]
  split_ifs with hp
  · rw [hp]; rfl
  · rfl

/-- **`schedule` exactly.** Past the quantum check, the call returns, and `scan`
says which thread is current and what the list is. -/
theorem schedule_scan {i : Nat} (kernelUptime curStatus : Nat) (h : SchedInv s (l₁ ++ c :: l₂) i)
    (hi : i ∈ l₁ ++ c :: l₂) (hc : s.currentExecutingThread = some c) (hq : s.quantumOver = true) :
    ∃ t T, s.schedule kernelUptime curStatus =
        .ok (((t.switchTo T).thread T).executionFrame, t.switchTo T) ∧
      Relinked (s.saved c curStatus) t ∧
      T = (s.scan kernelUptime i (s.thread c).tid (l₁ ++ c :: l₂) (l₂ ++ l₁)).1 ∧
      Listed t (s.scan kernelUptime i (s.thread c).tid (l₁ ++ c :: l₂) (l₂ ++ l₁)).2 := by
  have hcout := current_not_mem h.listed.chain.nodup
  have hlen := h.listed.length_le
  have hself : c = i → ((s.saved c curStatus).thread c).status = .ready := by
    rintro rfl
    rw [saved_thread, if_pos rfl]
    rcases h.awake with hs | hs | hs <;> simp [savedThread, hs]
  have hfuel : (l₂ ++ l₁).length + 2 ≤ s.created + 2 := by
    simp only [List.length_append, List.length_cons] at hlen ⊢
    omega
  obtain ⟨t, t', T, hloop, hswitch, hrel, hT, hl⟩ := scan_eq kernelUptime
    (Relinked.refl (s.saved c curStatus)) (saved_listed h.listed c curStatus) hc h.idle hi
    ((saved_isDead s c curStatus i).trans h.idle_alive) hself hfuel
  rw [saved_scan hcout] at hT hl
  refine ⟨t', T, ?_, hrel, hT, hl⟩
  rw [schedule_switch hc hq, hloop]
  simp only [ok_bind, deref, hswitch]

/-- The same with different identifiers: the DEAD threads right after the current
one are unlinked and `scanTarget` becomes current. -/
theorem schedule_exact {i : Nat} (kernelUptime curStatus : Nat) (h : SchedInv s (l₁ ++ c :: l₂) i)
    (hi : i ∈ l₁ ++ c :: l₂) (hc : s.currentExecutingThread = some c)
    (hinj : ∀ p ∈ l₁ ++ c :: l₂, ∀ q ∈ l₁ ++ c :: l₂,
      (s.thread p).tid = (s.thread q).tid → p = q)
    (hq : s.quantumOver = true) :
    ∃ t, s.schedule kernelUptime curStatus =
        .ok (((t.switchTo (s.scanTarget kernelUptime i (l₂ ++ l₁))).thread
          (s.scanTarget kernelUptime i (l₂ ++ l₁))).executionFrame,
          t.switchTo (s.scanTarget kernelUptime i (l₂ ++ l₁))) ∧
      Relinked (s.saved c curStatus) t ∧
      Listed t ((l₁ ++ c :: l₂).filter (· ∉ (l₂ ++ l₁).takeWhile s.isDead)) := by
  have hnd := h.listed.chain.nodup
  have hcout := current_not_mem hnd
  obtain ⟨hring, hsub⟩ := ring_nodup hnd
  have hprev : ∀ p ∈ l₂ ++ l₁, (s.thread p).tid ≠ (s.thread c).tid := fun p hp he =>
    hcout (hinj p (hsub p hp) c (by simp) he ▸ hp)
  obtain ⟨t, T, hsched, hrel, hT, hl⟩ := schedule_scan kernelUptime curStatus h hi hc hq
  rw [scan_distinct kernelUptime hnd hring hsub hinj hprev] at hT hl
  subst hT
  exact ⟨t, hsched, hrel, hl⟩

end Scheduler

end Dreamos64
