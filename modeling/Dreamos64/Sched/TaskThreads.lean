import Dreamos64.Sched.SchedulerList

/-!
# Dreamos64 — the threads of a task

`task.c` keeps the threads of a task in a list of their own: `task->threads`, followed
through `next_sibling`. The functions that act on it are modelled over the scheduler's
state, with the memory that `kmalloc` gives a new `task_t` as an argument: `create_task`
sets neither `threads` nor `running_threads`.

* `createThread_sched` — what `create_thread` does to the scheduler is
  `Scheduler.createThread`: the link that `add_thread_to_task` writes is written again.
* `attach_chain`, `remove_sched` — the scheduler's own list is left alone.
* `task_knows_threads` — the lists are right all along a run exactly if no thread is
  created in it, and the memory of every new task is clear: a thread that is attached to
  a task is its own next sibling.
-/

namespace Dreamos64

open Machine Links Scheduler

/-! ## `task.c` -/

/-- The fields of a `task_t` that are not in `Task`. -/
structure TaskNode where
  taskId  : Nat
  threads : Option Nat
  next    : Option Nat

/-- The fields of a `task_t` that `create_task` does not set, as `kmalloc` returns them. -/
structure TaskMemory where
  threads        : Option Nat
  next           : Option Nat
  runningThreads : Nat

/-- The scheduler, the sibling links of its threads, and the tasks. -/
structure TaskSystem where
  sched       : Scheduler
  nextSibling : Nat → Option Nat
  node        : Nat → TaskNode
  /-- how many `task_t` have been allocated -/
  tasks       : Nat
  nextTaskId  : Nat
  rootTask    : Option Nat

namespace TaskSystem

/-- `create_task`, without the address space. -/
def createTask (s : TaskSystem) (memory : TaskMemory) (vmRootPageTable : Nat) : TaskSystem :=
  { s with
    node := Function.update s.node s.tasks ⟨s.nextTaskId, memory.threads, memory.next⟩
    tasks := s.tasks + 1
    nextTaskId := s.nextTaskId + 1
    sched := { s.sched with
      task := Function.update s.sched.task s.tasks ⟨vmRootPageTable, memory.runningThreads⟩ } }

/-- `scheduler_add_task`. -/
def schedulerAddTask (s : TaskSystem) (task : Nat) : TaskSystem :=
  { s with
    node := Function.update s.node task { s.node task with next := s.rootTask }
    rootTask := some task }

/-- The search of `get_task`. -/
def getTaskBody (s : TaskSystem) (taskId : Nat) (curTask : Option Nat) :
    Exec (LoopStep (Option Nat) (Option Nat)) :=
  match curTask with
  | none => .ok (.done none)
  | some task =>
    if (s.node task).taskId = taskId then .ok (.done (some task))
    else .ok (.next (s.node task).next)

/-- `get_task`. -/
def getTask (s : TaskSystem) (taskId : Nat) : Exec (Option Nat) :=
  if taskId > s.nextTaskId then .ok none
  else loop (s.getTaskBody taskId) (s.tasks + 1) s.rootTask

/-- The two assignments with which a thread is attached to a task. -/
def attach (s : TaskSystem) (task thread : Nat) : TaskSystem :=
  { s with
    sched := s.sched.modify thread fun t => { t with next := (s.node task).threads }
    nextSibling := Function.update s.nextSibling thread (some thread) }

/-- `add_thread_to_task`. -/
def addThreadToTask (s : TaskSystem) (task thread : Option Nat) : Bool × TaskSystem :=
  match task, thread with
  | some task, some thread => (true, s.attach task thread)
  | _, _ => (false, s)

/-- `add_thread_to_task_by_id`. -/
def addThreadToTaskById (s : TaskSystem) (taskId thread : Nat) : Exec (Bool × TaskSystem) := do
  let task ← s.getTask taskId
  match task with
  | none => .ok (false, s)
  | some task =>
    let s := { s with sched := s.sched.modify thread fun t => { t with parentTask := task } }
    .ok (true, s.attach task thread)

def setThreads (s : TaskSystem) (task : Nat) (threads : Option Nat) : TaskSystem :=
  { s with node := Function.update s.node task { s.node task with threads := threads } }

/-- `remove_thread_from_task`. The body of its loop ends with `return true`, so that only
the first thread is looked at. -/
def removeThreadFromTask (s : TaskSystem) (threadId task : Nat) : Bool × TaskSystem :=
  match (s.node task).threads with
  | none => (false, s)
  | some curThread =>
    if (s.sched.thread curThread).tid = threadId then
      (true, s.setThreads task (s.nextSibling curThread))
    else (true, s)

/-- The part of `create_thread` before the thread is attached. -/
def newThread (s : TaskSystem) (parentTask frame rsp0 : Nat) : TaskSystem :=
  { s with
    sched := { s.sched with
      created := s.sched.created + 1
      nextThreadId := s.sched.nextThreadId + 1
      thread := Function.update s.sched.thread s.sched.created
        { tid := s.sched.nextThreadId % 2 ^ 16
          parentTask := parentTask
          status := .new
          ticks := 0
          executionFrame := frame
          wakeupTime := 0
          next := none
          rsp0 := rsp0
          exitCode := (s.sched.thread s.sched.created).exitCode } }
    nextSibling := Function.update s.nextSibling s.sched.created none }

/-- `create_thread`. -/
def createThread (s : TaskSystem) (parentTask frame rsp0 : Nat) : TaskSystem :=
  let newThread := s.sched.created
  let s := s.newThread parentTask frame rsp0
  let (_, s) := s.addThreadToTask (some parentTask) (some newThread)
  let sched := s.sched.schedulerAddThread newThread
  let parent := sched.task parentTask
  { s with
    sched := { sched with
      task := Function.update sched.task parentTask
        { parent with runningThreads := parent.runningThreads + 1 } } }

/-- `create_task_from_func`, without the address space. -/
def createTaskFromFunc (s : TaskSystem) (memory : TaskMemory) (vmRootPageTable frame rsp0 : Nat) :
    TaskSystem :=
  let newTask := s.tasks
  let s := s.createTask memory vmRootPageTable
  let thread := s.sched.created
  let s := s.createThread newTask frame rsp0
  let s := s.setThreads newTask (some thread)
  s.schedulerAddTask newTask

/-! ## The scheduler's list -/

section Sched

variable {s : TaskSystem} {L : List Nat}

/-- The scheduler's part of `create_thread`. -/
theorem createThread_sched (s : TaskSystem) (parentTask frame rsp0 : Nat) :
    (s.createThread parentTask frame rsp0).sched = s.sched.createThread parentTask frame rsp0 := by
  simp [createThread, addThreadToTask, attach, newThread, Scheduler.createThread,
    schedulerAddThread, Scheduler.modify]

/-- Attaching a thread that is not listed, as a new one is not, leaves the list. -/
theorem attach_chain (hchain : Chain s.sched.nextOf s.sched.threadList L) (task : Nat)
    {thread : Nat} (hnew : thread ∉ L) :
    Chain (s.attach task thread).sched.nextOf (s.attach task thread).sched.threadList L := by
  refine hchain.congr fun p hp => ?_
  have hne : p ≠ thread := fun heq => hnew (heq ▸ hp)
  unfold attach nextOf
  dsimp only
  rw [modify_thread, if_neg hne]

/-- Removing a thread from a task does not touch the scheduler. -/
theorem remove_sched (s : TaskSystem) (threadId task : Nat) :
    (s.removeThreadFromTask threadId task).2.sched = s.sched := by
  unfold removeThreadFromTask
  split
  · rfl
  · split
    · rfl
    · rfl

end Sched

/-- `init_scheduler`, before the first task. -/
def boot (s : TaskSystem) : TaskSystem :=
  { s with sched := s.sched.initScheduler, tasks := 0, nextTaskId := 0, rootTask := none }

end TaskSystem

/-! ## Calls -/

inductive TaskCall where
  | createTask (memory : TaskMemory) (vmRootPageTable : Nat)
  | createTaskFromFunc (memory : TaskMemory) (vmRootPageTable frame rsp0 : Nat)
  | createThread (parentTask frame rsp0 : Nat)
  | schedule (kernelUptime curStatus : Nat)
  | sleep (kernelUptime millis : Nat)
  | exit (status : Int)
  /-- `remove_thread_from_task` of a thread, from its parent -/
  | removeThread (thread : Nat)
  | addThreadById (taskId thread : Nat)

namespace TaskCall

def exec (s : TaskSystem) : TaskCall → Exec TaskSystem
  | .createTask memory vmRootPageTable => .ok (s.createTask memory vmRootPageTable)
  | .createTaskFromFunc memory vmRootPageTable frame rsp0 =>
    .ok (s.createTaskFromFunc memory vmRootPageTable frame rsp0)
  | .createThread parentTask frame rsp0 => .ok (s.createThread parentTask frame rsp0)
  | .schedule kernelUptime curStatus => do
    let (_, sched) ← s.sched.schedule kernelUptime curStatus
    .ok { s with sched := sched }
  | .sleep kernelUptime millis => do
    let sched ← s.sched.threadSleep kernelUptime millis
    .ok { s with sched := sched }
  | .exit status => do
    let sched ← s.sched.sysThreadExit status
    .ok { s with sched := sched }
  | .removeThread thread =>
    .ok (s.removeThreadFromTask (s.sched.thread thread).tid (s.sched.thread thread).parentTask).2
  | .addThreadById taskId thread => do
    let (_, s) ← s.addThreadToTaskById taskId thread
    .ok s

/-- Threads are created in tasks that exist, and removed from their task after the
scheduler has unlinked them; the idle thread neither sleeps nor exits. -/
def Permitted (s : TaskSystem) : TaskCall → Prop
  | .createTask .. => True
  | .createTaskFromFunc .. => True
  | .createThread parentTask _ _ => parentTask < s.tasks
  | .schedule .. => True
  | .sleep .. => s.sched.currentExecutingThread ≠ s.sched.idleThread
  | .exit _ => s.sched.currentExecutingThread ≠ s.sched.idleThread
  | .removeThread thread => thread < s.sched.created ∧
      ∀ L, Chain s.sched.nextOf s.sched.threadList L → thread ∉ L
  | .addThreadById _ thread => thread < s.sched.created

/-- No thread is created, and a new task's memory is clear. -/
def Clear : TaskCall → Prop
  | .createTask memory _ => memory.threads = none ∧ memory.runningThreads = 0
  | .createTaskFromFunc .. => False
  | .createThread .. => False
  | .schedule .. => True
  | .sleep .. => True
  | .exit _ => True
  | .removeThread _ => True
  | .addThreadById .. => True

/-- The threads that were removed from their task. -/
def removed : List TaskCall → List Nat :=
  List.filterMap fun
    | .removeThread thread => some thread
    | _ => none

end TaskCall

def taskStep (s : TaskSystem) (call : TaskCall) (t : TaskSystem) : Prop :=
  call.Permitted s ∧ call.exec s = .ok t

/-! ## What a task knows -/

/-- The tasks know their threads, those in `removed` apart. -/
structure KnowsThreads (removed : List Nat) (s : TaskSystem) : Prop where
  /-- the sibling list ends, and has exactly the task's threads -/
  siblings : ∀ task < s.tasks, ∃ l, Chain s.nextSibling (s.node task).threads l ∧
    ∀ p, p ∈ l ↔ p < s.sched.created ∧ (s.sched.thread p).parentTask = task ∧ p ∉ removed
  /-- `running_threads` counts the task's threads in the scheduler's list -/
  running  : ∀ task < s.tasks, ∃ L, Chain s.sched.nextOf s.sched.threadList L ∧
    (s.sched.task task).runningThreads =
      (L.filter fun p => (s.sched.thread p).parentTask = task).length
  /-- attaching a new thread leaves the scheduler's list -/
  attached : ∀ L task, Chain s.sched.nextOf s.sched.threadList L →
    Chain (s.attach task s.sched.created).sched.nextOf
      (s.attach task s.sched.created).sched.threadList L
  /-- so does removing one -/
  detached : ∀ L threadId task, Chain s.sched.nextOf s.sched.threadList L →
    Chain (s.removeThreadFromTask threadId task).2.sched.nextOf
      (s.removeThreadFromTask threadId task).2.sched.threadList L

section Knows

variable {s t : TaskSystem} {call : TaskCall} {gone : List Nat}

/-- A thread that is its own sibling is in no list that ends. -/
theorem self_sibling_not_mem {next : Nat → Option Nat} {h : Option Nat} {l : List Nat} {p : Nat}
    (hchain : Chain next h l) (hself : next p = some p) : p ∉ l := by
  intro hp
  obtain ⟨l₁, l₂, rfl⟩ := List.append_of_mem hp
  have hnext : some p = l₂.head? := hself.symm.trans hchain.next_eq
  refine not_mem_of_nodup_middle hchain.nodup (List.mem_append_right _ ?_)
  exact List.mem_of_mem_head? hnext.symm

/-- A task does not know a thread that was attached to it. -/
theorem not_knowsThreads (task p : Nat) (htask : task < s.tasks) (hp : p < s.sched.created)
    (hparent : (s.sched.thread p).parentTask = task) (hkept : p ∉ gone)
    (hself : s.nextSibling p = some p) : ¬ KnowsThreads gone s := by
  intro hknows
  obtain ⟨l, hchain, hmem⟩ := hknows.siblings task htask
  exact self_sibling_not_mem hchain hself ((hmem p).mpr ⟨hp, hparent, hkept⟩)

/-- There is no thread yet. -/
structure NoThreads (s : TaskSystem) : Prop where
  created : s.sched.created = 0
  list    : s.sched.threadList = none
  current : s.sched.currentExecutingThread = none

theorem NoThreads.knows_iff (h : NoThreads s) (gone : List Nat) :
    KnowsThreads gone s ↔ ∀ task < s.tasks,
      (s.node task).threads = none ∧ (s.sched.task task).runningThreads = 0 := by
  have hlisted : Chain s.sched.nextOf s.sched.threadList [] := h.list
  constructor
  · intro hknows task htask
    obtain ⟨l, hchain, hmem⟩ := hknows.siblings task htask
    obtain ⟨L, hL, hrunning⟩ := hknows.running task htask
    have hl : l = [] := List.eq_nil_iff_forall_not_mem.mpr fun p hp => by
      have := ((hmem p).mp hp).1
      rw [h.created] at this
      exact absurd this (Nat.not_lt_zero p)
    rw [hl] at hchain
    rw [hL.unique hlisted] at hrunning
    exact ⟨hchain, hrunning⟩
  · intro hclear
    constructor
    case siblings =>
      intro task htask
      refine ⟨[], (hclear task htask).1, fun p => ⟨fun hp => (nomatch hp), fun hp => ?_⟩⟩
      rw [h.created] at hp
      exact absurd hp.1 (Nat.not_lt_zero p)
    case running => exact fun task htask => ⟨[], hlisted, (hclear task htask).2⟩
    case attached =>
      intro L task hL
      rw [hL.unique hlisted]
      exact TaskSystem.attach_chain hlisted task (List.not_mem_nil)
    case detached =>
      intro L threadId task hL
      rw [TaskSystem.remove_sched]
      exact hL

/-- Without threads, only `create_task` and what creates threads can be called. -/
theorem NoThreads.step (h : NoThreads s) (hstep : taskStep s call t) :
    (∃ memory vmRootPageTable, call = .createTask memory vmRootPageTable) ∨
      (∃ memory vmRootPageTable frame rsp0,
        call = .createTaskFromFunc memory vmRootPageTable frame rsp0) ∨
      ∃ parentTask frame rsp0, call = .createThread parentTask frame rsp0 := by
  have hderef : deref s.sched.currentExecutingThread = .error .nullPointer := by
    rw [h.current]
    rfl
  obtain ⟨hperm, hexec⟩ := hstep
  cases call with
  | createTask memory vmRootPageTable => exact .inl ⟨memory, vmRootPageTable, rfl⟩
  | createTaskFromFunc memory vmRootPageTable frame rsp0 =>
    exact .inr (.inl ⟨memory, vmRootPageTable, frame, rsp0, rfl⟩)
  | createThread parentTask frame rsp0 => exact .inr (.inr ⟨parentTask, frame, rsp0, rfl⟩)
  | schedule kernelUptime curStatus =>
    simp only [TaskCall.exec, Scheduler.schedule, hderef, error_bind] at hexec
    cases hexec
  | sleep kernelUptime millis =>
    simp only [TaskCall.exec, threadSleep, hderef, error_bind] at hexec
    cases hexec
  | exit status =>
    simp only [TaskCall.exec, sysThreadExit, hderef, error_bind] at hexec
    cases hexec
  | removeThread thread =>
    obtain ⟨hthread, -⟩ := hperm
    rw [h.created] at hthread
    exact absurd hthread (Nat.not_lt_zero thread)
  | addThreadById taskId thread =>
    have hthread : thread < s.sched.created := hperm
    rw [h.created] at hthread
    exact absurd hthread (Nat.not_lt_zero thread)

/-- A new thread is attached to its task and is its own sibling. -/
theorem createThread_not_knows {parentTask : Nat} (frame rsp0 : Nat)
    (htask : parentTask < s.tasks) (hgone : s.sched.created ∉ gone) :
    ¬ KnowsThreads gone (s.createThread parentTask frame rsp0) := by
  refine not_knowsThreads parentTask s.sched.created htask ?_ ?_ hgone ?_
  · rw [TaskSystem.createThread_sched]
    exact Nat.lt_succ_self _
  · rw [TaskSystem.createThread_sched, createThread_thread, if_pos rfl]
  · exact Function.update_self _ _ _

theorem createTaskFromFunc_not_knows (memory : TaskMemory) (vmRootPageTable frame rsp0 : Nat)
    (hgone : s.sched.created ∉ gone) :
    ¬ KnowsThreads gone (s.createTaskFromFunc memory vmRootPageTable frame rsp0) := by
  have hsched : (s.createTaskFromFunc memory vmRootPageTable frame rsp0).sched =
      (s.createTask memory vmRootPageTable).sched.createThread s.tasks frame rsp0 :=
    TaskSystem.createThread_sched (s.createTask memory vmRootPageTable) s.tasks frame rsp0
  refine not_knowsThreads s.tasks s.sched.created (Nat.lt_succ_self _) ?_ ?_ hgone ?_
  · rw [hsched]
    exact Nat.lt_succ_self _
  · rw [hsched, createThread_thread]
    exact congrArg Thread.parentTask (if_pos rfl)
  · exact Function.update_self _ _ _

theorem NoThreads.removed_nil (h : NoThreads s) (hstep : taskStep s call t) :
    TaskCall.removed [call] = [] := by
  rcases h.step hstep with ⟨memory, vmRootPageTable, rfl⟩ |
    ⟨memory, vmRootPageTable, frame, rsp0, rfl⟩ | ⟨parentTask, frame, rsp0, rfl⟩
  · rfl
  · rfl
  · rfl

/-- From a state without threads, a step after which the tasks know their threads, or
one that creates none, is a `create_task`. -/
theorem NoThreads.next (h : NoThreads s) (hstep : taskStep s call t)
    (hnext : KnowsThreads [] t ∨ call.Clear) :
    NoThreads t ∧ ∃ memory vmRootPageTable,
      call = .createTask memory vmRootPageTable ∧ t = s.createTask memory vmRootPageTable := by
  obtain ⟨hperm, hexec⟩ := hstep
  rcases h.step ⟨hperm, hexec⟩ with ⟨memory, vmRootPageTable, rfl⟩ |
    ⟨memory, vmRootPageTable, frame, rsp0, rfl⟩ | ⟨parentTask, frame, rsp0, rfl⟩
  · cases hexec
    exact ⟨⟨h.created, h.list, h.current⟩, memory, vmRootPageTable, rfl, rfl⟩
  · cases hexec
    refine absurd (hnext.resolve_right id) ?_
    exact createTaskFromFunc_not_knows memory vmRootPageTable frame rsp0 List.not_mem_nil
  · cases hexec
    refine absurd (hnext.resolve_right id) ?_
    exact createThread_not_knows frame rsp0 hperm List.not_mem_nil

/-- A new task is clear exactly if its memory is. -/
theorem createTask_clear_iff (memory : TaskMemory) (vmRootPageTable : Nat) :
    (∀ task < (s.createTask memory vmRootPageTable).tasks,
        ((s.createTask memory vmRootPageTable).node task).threads = none ∧
          ((s.createTask memory vmRootPageTable).sched.task task).runningThreads = 0) ↔
      (∀ task < s.tasks, (s.node task).threads = none ∧ (s.sched.task task).runningThreads = 0) ∧
        memory.threads = none ∧ memory.runningThreads = 0 := by
  unfold TaskSystem.createTask
  dsimp only
  constructor
  · intro hall
    constructor
    · intro task htask
      have h := hall task (Nat.lt_succ_of_lt htask)
      rw [Function.update_of_ne (Nat.ne_of_lt htask),
        Function.update_of_ne (Nat.ne_of_lt htask)] at h
      exact h
    · have h := hall s.tasks (Nat.lt_succ_self _)
      rw [Function.update_self, Function.update_self] at h
      exact h
  · rintro ⟨hold, hnew⟩ task htask
    rcases Nat.lt_or_eq_of_le (Nat.le_of_lt_succ htask) with hlt | rfl
    · rw [Function.update_of_ne (Nat.ne_of_lt hlt), Function.update_of_ne (Nat.ne_of_lt hlt)]
      exact hold task hlt
    · rw [Function.update_self, Function.update_self]
      exact hnew

theorem removed_append (before after : List TaskCall) :
    TaskCall.removed (before ++ after) = TaskCall.removed before ++ TaskCall.removed after :=
  List.filterMap_append

theorem boot_noThreads (s₀ : TaskSystem) : NoThreads s₀.boot := ⟨rfl, rfl, rfl⟩

end Knows

/-- **A task and its threads.** Along a run every task knows its threads exactly if there
are none, and no task was made of memory that was not clear. -/
theorem task_knows_threads (s₀ : TaskSystem) (calls : List TaskCall) :
    (∀ before u, before <+: calls → Run taskStep s₀.boot before u →
      KnowsThreads (TaskCall.removed before) u) ↔
      ∀ before call u t, before ++ [call] <+: calls → Run taskStep s₀.boot before u →
        taskStep u call t → call.Clear := by
  constructor
  · intro hknows
    -- what is known after a step, from a state without threads in which none was removed
    have hafter : ∀ is call t u, is ++ [call] <+: calls → Run taskStep s₀.boot is t →
        NoThreads t → TaskCall.removed is = [] → taskStep t call u →
        TaskCall.removed (is ++ [call]) = [] ∧ KnowsThreads [] u := by
      intro is call t u hpre hrun hno hremoved hstep
      have hnil : TaskCall.removed (is ++ [call]) = [] := by
        rw [removed_append, hremoved, hno.removed_nil hstep]
        rfl
      exact ⟨hnil, hnil ▸ hknows _ _ hpre (hrun.extend hstep)⟩
    have hnone : ∀ before u, before <+: calls → Run taskStep s₀.boot before u →
        NoThreads u ∧ TaskCall.removed before = [] := by
      intro before u hbefore hrun
      refine hrun.trace (fun is t => is <+: calls → NoThreads t ∧ TaskCall.removed is = [])
        (fun _ => ⟨boot_noThreads s₀, rfl⟩) ?_ hbefore
      intro is t u call hrun ih hstep hpre
      obtain ⟨hno, hremoved⟩ := ih ((List.prefix_append is [call]).trans hpre)
      obtain ⟨hnil, hknown⟩ := hafter is call t u hpre hrun hno hremoved hstep
      exact ⟨(hno.next hstep (.inl hknown)).1, hnil⟩
    intro before call u t hpre hrun hstep
    obtain ⟨hno, hremoved⟩ := hnone before u ((List.prefix_append _ _).trans hpre) hrun
    obtain ⟨-, hknown⟩ := hafter before call u t hpre hrun hno hremoved hstep
    obtain ⟨hno', memory, vmRootPageTable, rfl, rfl⟩ := hno.next hstep (.inl hknown)
    exact ((createTask_clear_iff memory vmRootPageTable).mp ((hno'.knows_iff []).mp hknown)).2
  · intro hclear before u hbefore hrun
    have hkept : NoThreads u ∧ ∀ task < u.tasks,
        (u.node task).threads = none ∧ (u.sched.task task).runningThreads = 0 := by
      refine hrun.trace (fun is t => is <+: calls → NoThreads t ∧ ∀ task < t.tasks,
        (t.node task).threads = none ∧ (t.sched.task task).runningThreads = 0) ?_ ?_ hbefore
      · exact fun _ => ⟨boot_noThreads s₀, fun task htask => absurd htask (Nat.not_lt_zero task)⟩
      · intro is t u call hrun ih hstep hpre
        obtain ⟨hno, hall⟩ := ih ((List.prefix_append is [call]).trans hpre)
        have hcall := hclear is call t u hpre hrun hstep
        obtain ⟨hno', memory, vmRootPageTable, rfl, rfl⟩ := hno.next hstep (.inr hcall)
        exact ⟨hno', (createTask_clear_iff memory vmRootPageTable).mpr ⟨hall, hcall⟩⟩
    exact (hkept.1.knows_iff _).mpr hkept.2

/-- No task and no thread, in memory that is clear. -/
def blankTasks : TaskSystem :=
  ⟨blankScheduler, fun _ => none, fun _ => ⟨0, none, none⟩, 0, 0, none⟩

/-- A task of clear memory with one thread does not know it: `task->threads` stays NULL.
One from `create_task_from_func` has a list that does not end. -/
theorem task_forgets_thread :
    (∃ u, Run taskStep blankTasks.boot [.createTask ⟨none, none, 0⟩ 0, .createThread 0 100 0] u ∧
      (u.node 0).threads = none ∧ ¬ KnowsThreads [] u) ∧
    ∃ u, Run taskStep blankTasks.boot [.createTaskFromFunc ⟨none, none, 0⟩ 0 100 0] u ∧
      (u.node 0).threads = some 0 ∧ u.nextSibling 0 = some 0 ∧ ¬ KnowsThreads [] u := by
  constructor
  · have hcreated : Run taskStep blankTasks.boot [.createTask ⟨none, none, 0⟩ 0]
        (blankTasks.boot.createTask ⟨none, none, 0⟩ 0) := Run.start.extend ⟨trivial, rfl⟩
    have htask : 0 < (blankTasks.boot.createTask ⟨none, none, 0⟩ 0).tasks := Nat.zero_lt_one
    have hstep : taskStep (blankTasks.boot.createTask ⟨none, none, 0⟩ 0) (.createThread 0 100 0)
        ((blankTasks.boot.createTask ⟨none, none, 0⟩ 0).createThread 0 100 0) := ⟨htask, rfl⟩
    refine ⟨_, hcreated.extend hstep, rfl, ?_⟩
    exact createThread_not_knows 100 0 htask List.not_mem_nil
  · refine ⟨_, Run.start.extend ⟨trivial, rfl⟩, rfl, rfl, ?_⟩
    exact createTaskFromFunc_not_knows _ 0 100 0 List.not_mem_nil

end Dreamos64
