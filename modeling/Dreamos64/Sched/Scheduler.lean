import Dreamos64.Lib.Exec

/-!
# Dreamos64 — threads and the scheduler

`scheduler.c`, with the parts of `thread.c` and `sys_exit.c` that act on the
same state. Threads and tasks live at pointers; `kmalloc` gives every
`thread_t` a pointer of its own, here the number of threads created before it,
and `thread_t` memory is never given back. `cpu_status_t` frames are known by
their address only: the scheduler stores and returns them, it never reads them.

The counters `next_thread_id` and `thread_list_size` are `size_t` and count
threads in memory, so they do not reach `2 ^ 64`; `tid` is a `uint16_t` and does
wrap. A loop over the list gets as many turns as threads have been created, and
one more: a list without a cycle is shorter.
-/

namespace Dreamos64

open Machine

inductive ThreadStatus where
  | new
  | init
  | run
  | ready
  | sleep
  | wait
  | dead
  deriving DecidableEq, Repr

/-- `thread_t`, without the name, the user stack and the sibling link, which the
scheduler only logs or never reads. -/
structure Thread where
  tid            : Nat
  parentTask     : Nat
  status         : ThreadStatus
  ticks          : Nat
  executionFrame : Nat
  wakeupTime     : Nat
  next           : Option Nat
  rsp0           : Nat
  exitCode       : Int

/-- The fields of `task_t` that the scheduler uses. -/
structure Task where
  vmRootPageTable : Nat
  runningThreads  : Nat

/-- The globals of `scheduler.c`, thread and task memory, and the two registers
that a switch loads. -/
structure Scheduler where
  thread                 : Nat → Thread
  /-- how many `thread_t` have been allocated -/
  created                : Nat
  task                   : Nat → Task
  nextThreadId           : Nat
  threadList             : Option Nat
  threadListSize         : Nat
  currentExecutingThread : Option Nat
  idleThread             : Option Nat
  cr3                    : Nat
  tssRsp0                : Nat

def schedulerNumberOfTicks : Nat := 0x200

/-- Following a pointer that may be NULL. -/
def deref (p : Option Nat) : Exec Nat :=
  match p with
  | none => .error .nullPointer
  | some p => .ok p

namespace Scheduler

/-- An assignment to fields of the thread at `p`. -/
def modify (s : Scheduler) (p : Nat) (f : Thread → Thread) : Scheduler :=
  { s with thread := Function.update s.thread p (f (s.thread p)) }

/-- `init_scheduler`, called once and before the first thread is allocated. Thread
memory and the registers are left as they are. -/
def initScheduler (s : Scheduler) : Scheduler :=
  { s with
    created := 0
    nextThreadId := 0
    currentExecutingThread := none
    threadList := none
    idleThread := none
    threadListSize := 0 }

/-! ## The thread list -/

/-- `scheduler_add_thread`. -/
def schedulerAddThread (s : Scheduler) (thread : Nat) : Scheduler :=
  -- a new thread goes to the front, and runs if nothing does
  let s := s.modify thread fun t => { t with next := s.threadList }
  { s with
    threadListSize := s.threadListSize + 1
    threadList := some thread
    currentExecutingThread := s.currentExecutingThread.or (some thread) }

/-- `create_thread`. `frame` and `rsp0` are the addresses that its two other
`kmalloc` calls return. -/
def createThread (s : Scheduler) (parentTask frame rsp0 : Nat) : Scheduler :=
  let newThread := s.created
  let s := { s with
    created := s.created + 1
    nextThreadId := s.nextThreadId + 1
    thread := Function.update s.thread newThread
      -- `next_thread_id` is a `size_t`, `tid` a `uint16_t`
      { tid := s.nextThreadId % 2 ^ 16
        parentTask := parentTask
        status := .new
        ticks := 0
        executionFrame := frame
        wakeupTime := 0
        next := none
        rsp0 := rsp0
        exitCode := (s.thread newThread).exitCode } }
  let s := s.schedulerAddThread newThread
  let parent := s.task parentTask
  { s with
    task := Function.update s.task parentTask
      { parent with runningThreads := parent.runningThreads + 1 } }

/-- `scheduler_get_next_thread`. -/
def schedulerGetNextThread (s : Scheduler) : Option Nat :=
  if s.threadListSize = 0 ∨ s.threadList = none then none
  else
    match s.currentExecutingThread with
    | none => s.threadList
    -- from the end of the list on to its front
    | some c => (s.thread c).next.or s.threadList

/-- The search loop of `scheduler_delete_thread`, over `thread_item` and
`prev_item`. -/
def searchBody (s : Scheduler) (threadId : Nat) (st : Option Nat × Option Nat) :
    Exec (LoopStep (Option Nat × Option Nat) (Option Nat × Option Nat)) :=
  match st with
  | (none, prev) => .ok (.done (none, prev))
  | (some item, prev) =>
    if (s.thread item).tid = threadId then .ok (.done (some item, prev))
    else .ok (.next ((s.thread item).next, some item))

/-- The counters after `item` was taken out of the list: `thread_list_size`, and
the parent's `running_threads`. -/
def countRemoved (s : Scheduler) (item : Nat) : Scheduler :=
  let parentTask := (s.thread item).parentTask
  let parent := s.task parentTask
  { s with
    threadListSize := s.threadListSize - 1
    task := Function.update s.task parentTask
      { parent with runningThreads := parent.runningThreads - 1 } }

/-- The second half of `scheduler_delete_thread`: take `item` out of the list. -/
def unlinkThread (s : Scheduler) (item : Nat) (prev : Option Nat) : Exec Scheduler :=
  if s.threadList = some item then
    .ok (countRemoved { s with threadList := (s.thread item).next } item)
  else do
    -- not the first, so the search has passed a thread before it
    let prev ← deref prev
    .ok ((s.modify prev fun t => { t with next := (s.thread item).next }).countRemoved item)

/-- `scheduler_delete_thread`. -/
def schedulerDeleteThread (s : Scheduler) (threadId : Nat) : Exec Scheduler := do
  let (item, prev) ← loop (s.searchBody threadId) (s.created + 1) (s.threadList, none)
  match item with
  | none => .ok s
  | some item => s.unlinkThread item prev

/-- The loop of `scheduler_get_queue_size`. The counter is a `uint32_t`. -/
def queueSizeBody (s : Scheduler) (st : Option Nat × Nat) :
    Exec (LoopStep (Option Nat × Nat) Nat) :=
  match st with
  | (none, counter) => .ok (.done counter)
  | (some thread, counter) => .ok (.next ((s.thread thread).next, (counter + 1) % 2 ^ 32))

/-- `scheduler_get_queue_size`. -/
def schedulerGetQueueSize (s : Scheduler) : Exec Nat :=
  loop s.queueSizeBody (s.created + 1) (s.threadList, 0)

/-! ## The running thread -/

/-- `thread_sleep`, up to the `scheduler_yield` at its end. -/
def threadSleep (s : Scheduler) (kernelUptime millis : Nat) : Exec Scheduler := do
  let c ← deref s.currentExecutingThread
  .ok (s.modify c fun t =>
    { t with status := .sleep, wakeupTime := (kernelUptime + millis) % 2 ^ 64 })

/-- `sys_thread_exit`. -/
def sysThreadExit (s : Scheduler) (status : Int) : Exec Scheduler := do
  let c ← deref s.currentExecutingThread
  .ok (s.modify c fun t =>
    { t with exitCode := status, status := .dead, ticks := schedulerNumberOfTicks })

/-! ## `schedule` -/

/-- The first block of `schedule`: a sleeping thread gives up its quantum. -/
def endQuantum (s : Scheduler) (c : Nat) : Scheduler :=
  if (s.thread c).status = .sleep then
    s.modify c fun t => { t with ticks := schedulerNumberOfTicks }
  else s

/-- The block of `schedule` that switches the current thread out. -/
def switchOut (s : Scheduler) (c curStatus : Nat) : Scheduler :=
  -- the frame of a thread that never ran is the one it was created with
  let s :=
    if (s.thread c).status ≠ .new then
      s.modify c fun t => { t with executionFrame := curStatus }
    else s
  if (s.thread c).status ≠ .sleep ∧ (s.thread c).status ≠ .dead then
    s.modify c fun t => { t with status := .ready }
  else s

/-- The search of `schedule` for a thread, over `current_thread` and
`prev_thread_tid`. It leaves with `thread_to_execute`, which is the idle thread
unless the loop breaks. -/
def scheduleBody (kernelUptime : Nat) (st : Scheduler × Option Nat × Nat) :
    Exec (LoopStep (Scheduler × Option Nat × Nat) (Scheduler × Option Nat)) := do
  let (s, current, prevTid) := st
  let current ← deref current
  let thread := s.thread current
  -- the condition of the `while` loop, with `thread_to_execute` as it was set before
  if thread.tid = prevTid then .ok (.done (s, s.idleThread))
  else if thread.status = .sleep ∧ kernelUptime > thread.wakeupTime then
    .ok (.done (s.modify current fun t => { t with status := .ready }, some current))
  -- the search starts over from the current thread, whose successor may have changed
  else if thread.status = .dead then do
    let s ← s.schedulerDeleteThread thread.tid
    .ok (.next (s, s.schedulerGetNextThread, thread.tid))
  else if thread.status = .ready ∨ thread.status = .new then .ok (.done (s, some current))
  else .ok (.next (s, s.schedulerGetNextThread, thread.tid))

/-- The block of `schedule` that makes a thread current. -/
def switchTo (s : Scheduler) (threadToExecute : Nat) : Scheduler :=
  let s := s.modify threadToExecute fun t => { t with status := .run, ticks := 0 }
  { s with
    currentExecutingThread := some threadToExecute
    cr3 := (s.task (s.thread threadToExecute).parentTask).vmRootPageTable
    tssRsp0 := (s.thread threadToExecute).rsp0 }

/-- `schedule`: the frame to return to, and the state. A turn of its loop removes
a thread or is the last or the one before it. -/
def schedule (kernelUptime : Nat) (s : Scheduler) (curStatus : Nat) : Exec (Nat × Scheduler) := do
  let c ← deref s.currentExecutingThread
  let s := s.endQuantum c
  -- `ticks++` takes place whether or not the quantum is over
  let ticks := (s.thread c).ticks
  let s := s.modify c fun t => { t with ticks := ticks + 1 }
  if ticks < schedulerNumberOfTicks then .ok (curStatus, s)
  else
    let s := s.switchOut c curStatus
    let (s, threadToExecute) ← loop (scheduleBody kernelUptime) (s.created + 2)
      (s, s.schedulerGetNextThread, (s.thread c).tid)
    let threadToExecute ← deref threadToExecute
    let s := s.switchTo threadToExecute
    .ok ((s.thread threadToExecute).executionFrame, s)

end Scheduler

end Dreamos64
