import Lethe.Lib.Run
import Lethe.Utils.QueueFifo

/-!
# The scheduler of `lethe-kernel/cpu/task.c`

A `task_t*` is a number: `kmalloc` succeeds and numbers the tasks in the order of allocation,
and the address of a freed task is not used again. Dereferencing `NULL` or a freed task stops
the run. `Scheduler.exited` is a ghost field that records the tasks whose function has returned.

`push_queue` refuses the second task of `LIVE_QUEUE`, `signal_idle` and `task_wrapper` look for
the running task in a queue it is not part of and leave `current` as it is, and `switch_task`
does not expect an empty queue. The scheduler therefore keeps its tasks only in runs that stay
clear of these cases (`SchedOp.Safe`, `initTasks_tasksKept_iff`).
-/

namespace Lethe

/-- `isr_stack_t`. -/
structure IsrStack where
  r15 : BitVec 64
  r14 : BitVec 64
  r13 : BitVec 64
  r12 : BitVec 64
  r11 : BitVec 64
  r10 : BitVec 64
  r9 : BitVec 64
  r8 : BitVec 64
  rbp : BitVec 64
  rdi : BitVec 64
  rsi : BitVec 64
  rdx : BitVec 64
  rcx : BitVec 64
  rbx : BitVec 64
  rax : BitVec 64
  isr : BitVec 64
  err : BitVec 64
  rip : BitVec 64
  cs : BitVec 64
  rflags : BitVec 64
  deriving DecidableEq

/-- `task_t`, with the context its `ctx` points to. -/
structure Task where
  ctx : IsrStack
  taskId : Nat
  deadline : BitVec 64

/-- Addresses of the code that contexts are pointed at. -/
structure TaskCode where
  idle : BitVec 64
  taskWrapper : BitVec 64

/-- The static variables of `task.c` and the tasks on the heap. -/
structure Scheduler where
  current : Option Nat
  taskCount : Nat
  liveQueue : Queue Nat
  idleQueue : Queue Nat
  /-- The tasks that are allocated and not freed. -/
  tasks : Nat → Option Task
  /-- The address the next `kmalloc` of a task returns. -/
  nextTask : Nat
  /-- Ghost: the tasks that have returned from their function. -/
  exited : List Nat

inductive TaskFault
  | queue (fault : QueueFault)
  | nullPointer
  | useAfterFree
  deriving DecidableEq

/-- A queue operation inside a scheduler operation. -/
def Scheduler.onQueue (m : Except QueueFault β) : Except TaskFault β :=
  m.mapError .queue

/-- Dereference a `task_t*`. -/
def Scheduler.deref (s : Scheduler) (ptr : Option Nat) : Except TaskFault (Nat × Task) :=
  match ptr with
  | none => .error .nullPointer
  | some ptr =>
    match s.tasks ptr with
    | none => .error .useAfterFree
    | some task => .ok (ptr, task)

def Scheduler.setTask (s : Scheduler) (ptr : Nat) (task : Option Task) : Scheduler :=
  { s with tasks := fun p => if p = ptr then task else s.tasks p }

@[simp] theorem Scheduler.setTask_liveQueue {s : Scheduler} :
    (s.setTask ptr task).liveQueue = s.liveQueue := rfl

/-- `copy_ctx`. -/
def copyCtx (dest src : IsrStack) : IsrStack :=
  { dest with
    r15 := src.r15, r14 := src.r14, r13 := src.r13, r12 := src.r12, r11 := src.r11
    r10 := src.r10, r9 := src.r9, r8 := src.r8, rbp := src.rbp, rdi := src.rdi
    rsi := src.rsi, rdx := src.rdx, rcx := src.rcx, rbx := src.rbx, rax := src.rax
    isr := src.isr, err := src.err, rip := src.rip, cs := src.cs, rflags := src.rflags }

/-- `init_tasks`; `garbage` is what `kmalloc` left in the context. -/
def initTasks (code : TaskCode) (garbage : IsrStack) : Scheduler where
  current := some 0
  taskCount := 1
  liveQueue := newQueue
  idleQueue := newQueue
  tasks ptr := if ptr = 0 then some
      { ctx := { garbage with rip := code.idle, rflags := 0x202, isr := 2, err := 0, cs := 0x08 }
        taskId := 0
        deadline := 0 }
    else none
  nextTask := 1
  exited := []

/-- `switch_task`: the interrupt frame `ctx` goes in and the frame to return to comes out. -/
def switchTask (s : Scheduler) (ctx : IsrStack) : Except TaskFault (IsrStack × Scheduler) := do
  let (old, task) ← s.deref s.current
  let s := s.setTask old (some { task with ctx := copyCtx task.ctx ctx })
  let (current, liveQueue) ← Scheduler.onQueue (popQueue s.liveQueue)
  let liveQueue ← Scheduler.onQueue (pushQueue liveQueue (some old))
  let s := { s with current, liveQueue }
  let (_, task) ← s.deref s.current
  pure (copyCtx ctx task.ctx, s)

/-- The loop of `remove_task` over the slots that are left. -/
def removeTaskLoop (s : Scheduler) (queue : Queue Nat) (id : Nat) :
    List Nat → Except TaskFault (Option Nat × Queue Nat)
  | [] => .ok (none, queue)
  | i :: slots => do
    let ptr ← Scheduler.onQueue (queue.inner.read i)
    let (ptr, task) ← s.deref ptr
    if task.taskId ≠ id then removeTaskLoop s queue id slots
    else
      let inner ← Scheduler.onQueue (queue.inner.write i none)
      pure (some ptr, { queue with inner })

/-- `remove_task`. The loop runs over all slots, occupied or not. -/
def removeTask (s : Scheduler) (queue : Queue Nat) (id : Nat) :
    Except TaskFault (Option Nat × Queue Nat) :=
  if id = 0 then .ok (none, queue) else removeTaskLoop s queue id (List.range queue.capacity)

/-- `signal_idle`. -/
def signalIdle (s : Scheduler) (deadline : BitVec 64) : Except TaskFault Scheduler := do
  let (_, task) ← s.deref s.current
  let (self, liveQueue) ← removeTask s s.liveQueue task.taskId
  match self with
  | none => pure { s with liveQueue }
  | some self =>
    let (_, task) ← s.deref (some self)
    let s := { s with liveQueue }.setTask self (some { task with deadline })
    let idleQueue ← Scheduler.onQueue (pushQueue s.idleQueue (some self))
    pure { s with idleQueue }

/-- What `task_wrapper` does once the function of the running task has returned. Its `id` is
the one `create_task` left in the context of that task. -/
def taskWrapperEnd (s : Scheduler) : Except TaskFault Scheduler := do
  let (running, task) ← s.deref s.current
  let (self, liveQueue) ← removeTask s s.liveQueue task.taskId
  let s := { s with liveQueue, exited := running :: s.exited }
  match self with
  | none => pure s
  | some self => pure (s.setTask self none)

/-- `create_task`; `garbage` is what `kmalloc` left in the context. -/
def createTask (code : TaskCode) (s : Scheduler) (rip data : BitVec 64) (garbage : IsrStack) :
    Except TaskFault Scheduler := do
  let ctx := { garbage with
    rdi := BitVec.ofNat 64 s.taskCount, rsi := rip, rdx := data, rip := code.taskWrapper
    rflags := 0x202, isr := 2, err := 0, cs := 0x08 }
  let ptr := s.nextTask
  let s := { s with taskCount := s.taskCount + 1, nextTask := s.nextTask + 1 }.setTask ptr
    (some { ctx, taskId := s.taskCount, deadline := 0 })
  let liveQueue ← Scheduler.onQueue (pushQueue s.liveQueue (some ptr))
  pure { s with liveQueue }

inductive SchedOp
  | create (rip data : BitVec 64) (garbage : IsrStack)
  | switch (ctx : IsrStack)
  | idle (deadline : BitVec 64)
  | exit

/-- One event of a run; a switch answers with the frame that is returned to. -/
def Scheduler.step (code : TaskCode) (s : Scheduler) :
    SchedOp → Except TaskFault (Option IsrStack × Scheduler)
  | .create rip data garbage => do
    let s ← createTask code s rip data garbage
    pure (none, s)
  | .switch ctx => do
    let (ctx, s) ← switchTask s ctx
    pure (some ctx, s)
  | .idle deadline => do
    let s ← signalIdle s deadline
    pure (none, s)
  | .exit => do
    let s ← taskWrapperEnd s
    pure (none, s)

def SchedOp.isCreate : SchedOp → Bool
  | .create .. => true
  | _ => false

namespace Scheduler

variable {s s' : Scheduler}

/-- Created and not yet exited. -/
def Alive (s : Scheduler) (ptr : Nat) : Prop := ptr < s.nextTask ∧ ptr ∉ s.exited

/-- No task is lost, duplicated or resurrected: the running task is alive and in no queue, and
every other task that is alive is queued exactly once. -/
def TasksKept (s : Scheduler) : Prop :=
  ∃ current live idle, s.current = some current ∧ s.liveQueue.Holds live ∧
    s.idleQueue.Holds idle ∧ s.Alive current ∧ current ∉ live ++ idle ∧
    ∀ ptr, s.Alive ptr → ptr ≠ current → (live ++ idle).count ptr = 1

end Scheduler

/-- The cases in which the scheduler loses no task: a task is created while `LIVE_QUEUE` is
empty, a switch finds it occupied, only the kernel task signals idle (and is ignored), and no
task function returns. -/
def SchedOp.Safe (s : Scheduler) : SchedOp → Prop
  | .create .. => s.liveQueue.head = s.liveQueue.tail
  | .switch _ => s.liveQueue.head ≠ s.liveQueue.tail
  | .idle _ => ∃ ptr task, s.deref s.current = .ok (ptr, task) ∧ task.taskId = 0
  | .exit => False

namespace Scheduler

/-- The states of a run of safe steps: the kernel task alone, or the kernel task and one more,
of which one runs and the other is the only task in `LIVE_QUEUE`. A running task other than the
kernel task was taken from a slot of `LIVE_QUEUE` that still points to it. -/
structure OnePartner (s : Scheduler) (c : Nat) (live : List Nat) : Prop where
  current_eq : s.current = some c
  queue : Queue.AtMostOne false s.liveQueue live
  idle : Queue.AtMostOne false s.idleQueue []
  idle_empty : s.idleQueue.head = s.idleQueue.tail
  exited_eq : s.exited = []
  count_eq : s.taskCount = s.nextTask
  allocated : ∀ ptr < s.nextTask, (s.tasks ptr).isSome
  taskId_eq : ∀ ptr task, s.tasks ptr = some task → task.taskId = ptr
  stale : c ≠ 0 → ∃ i < taskQueueSize, s.liveQueue.inner.read i = .ok (some c)
  shape : (s.nextTask = 1 ∧ c = 0 ∧ live = [] ∧ s.liveQueue.head = s.liveQueue.tail) ∨
    ∃ other, s.nextTask = 2 ∧ c < 2 ∧ other < 2 ∧ c ≠ other ∧ live = [other]

namespace OnePartner

variable {s s' : Scheduler} {c : Nat} {live : List Nat} {op : SchedOp}

theorem init (code : TaskCode) (garbage : IsrStack) :
    (initTasks code garbage).OnePartner 0 [] where
  current_eq := rfl
  queue := Queue.atMostOne_newQueue
  idle := Queue.atMostOne_newQueue
  idle_empty := rfl
  exited_eq := rfl
  count_eq := rfl
  allocated ptr hptr := by simp [initTasks, show ptr = 0 from Nat.lt_one_iff.mp hptr]
  taskId_eq ptr task h := by
    simp only [initTasks] at h
    split at h <;> cases h
    exact Eq.symm ‹_›
  stale h := absurd rfl h
  shape := .inl ⟨rfl, rfl, rfl, rfl⟩

theorem current_lt (h : s.OnePartner c live) : c < s.nextTask := by
  rcases h.shape with ⟨hn, rfl, -⟩ | ⟨_, hn, hc, -⟩ <;> omega

theorem deref_current (h : s.OnePartner c live) :
    ∃ task, s.tasks c = some task ∧ s.deref s.current = .ok (c, task) := by
  obtain ⟨task, htask⟩ := Option.isSome_iff_exists.mp (h.allocated _ h.current_lt)
  exact ⟨task, htask, by simp only [deref, h.current_eq, htask]⟩

theorem tasksKept (h : s.OnePartner c live) : s.TasksKept := by
  refine ⟨c, live, [], h.current_eq, h.queue.holds, h.idle.holds,
    ⟨h.current_lt, by simp [h.exited_eq]⟩, ?_⟩
  rw [List.append_nil]
  rcases h.shape with ⟨hn, rfl, rfl, -⟩ | ⟨other, hn, hc, ho, hne, rfl⟩
  · exact ⟨by simp, fun ptr hp hne => absurd hp.1 (by omega)⟩
  · refine ⟨by simpa using hne, fun ptr hp hptr => ?_⟩
    have : ptr = other := by have := hp.1; omega
    simp [this]

/-! ### Safe steps -/

theorem create (h : s.OnePartner c live) (he : s.liveQueue.head = s.liveQueue.tail)
    (code : TaskCode) (rip data : BitVec 64) (garbage : IsrStack) :
    ∃ s', createTask code s rip data garbage = .ok s' ∧ s'.OnePartner c [s.nextTask] := by
  rcases h.shape with ⟨hn, rfl, rfl, -⟩ | ⟨other, -, -, -, -, rfl⟩
  · obtain ⟨q, hpush, hq, -⟩ := h.queue.push he (some s.nextTask)
    refine ⟨{ s with
      taskCount := s.taskCount + 1, nextTask := s.nextTask + 1, liveQueue := q }.setTask _ _,
      by simp only [createTask, setTask, hpush]; rfl, h.current_eq, hq, h.idle, h.idle_empty,
      h.exited_eq, congrArg (· + 1) h.count_eq, fun ptr hptr => ?_, fun ptr task htask => ?_,
      fun hc => absurd rfl hc, .inr ⟨_, by simp [setTask, hn], by omega, by omega, by omega, rfl⟩⟩
    · change ptr < s.nextTask + 1 at hptr
      by_cases hne : ptr = s.nextTask
      · simp [setTask, hne]
      · simpa [setTask, hne] using h.allocated ptr (by omega)
    · simp only [setTask] at htask
      split at htask
      · cases htask; exact h.count_eq.trans (Eq.symm ‹_›)
      · exact h.taskId_eq _ _ htask
  · -- an empty ring cannot hold the partner
    cases (h.queue.wf.holds_nil he).unique h.queue.holds

theorem switch (h : s.OnePartner c live) (he : s.liveQueue.head ≠ s.liveQueue.tail)
    (ctx : IsrStack) : ∃ frame s' other, switchTask s ctx = .ok (frame, s') ∧
      s'.OnePartner other [c] := by
  rcases h.shape with ⟨-, -, -, he'⟩ | ⟨other, hn, hc, ho, hne, rfl⟩
  · exact absurd he' he
  obtain ⟨task, htask, hderef⟩ := h.deref_current
  obtain ⟨hpop, hq₁⟩ := h.queue.pop
  obtain ⟨q, hpush, hq, hkeep⟩ := hq₁.push rfl (some c)
  let s₁ := s.setTask c (some { task with ctx := copyCtx task.ctx ctx })
  let s₂ := { s₁ with current := some other, liveQueue := q }
  have hs₂ : s₂.OnePartner other [c] := by
    refine ⟨rfl, hq, h.idle, h.idle_empty, h.exited_eq, h.count_eq, fun ptr hptr => ?_,
      fun ptr task' htask' => ?_, fun _ => ?_, .inr ⟨c, hn, ho, hc, fun h => hne h.symm, rfl⟩⟩
    · by_cases hp : ptr = c
      · simp [s₂, s₁, setTask, hp]
      · simpa [s₂, s₁, setTask, hp] using h.allocated ptr hptr
    · simp only [s₂, s₁, setTask] at htask'
      split at htask'
      · cases htask'; subst ptr; exact h.taskId_eq c task htask
      · exact h.taskId_eq _ _ htask'
    · refine ⟨s.liveQueue.head, h.queue.capacity_eq ▸ h.queue.wf.head_lt, ?_⟩
      exact (hkeep _ he).trans h.queue.read_head
  obtain ⟨task₂, -, hderef₂⟩ := hs₂.deref_current
  refine ⟨copyCtx ctx task₂.ctx, s₂, other, ?_, hs₂⟩
  simp only [switchTask, hderef, bind, Except.bind, onQueue, setTask_liveQueue, hpop,
    Except.mapError, hpush]
  change (s₂.deref s₂.current >>= fun v => pure (copyCtx ctx v.2.ctx, s₂)) = _
  rw [hderef₂]
  rfl

theorem idle_kernel (hk : ∃ ptr task, s.deref s.current = .ok (ptr, task) ∧ task.taskId = 0)
    (deadline : BitVec 64) : signalIdle s deadline = .ok s := by
  obtain ⟨ptr, task, hderef, hid⟩ := hk
  simp only [signalIdle, hderef, bind, Except.bind, removeTask, hid, if_true]
  rfl

theorem step (h : s.OnePartner c live) (hop : op.Safe s) :
    ∃ r s', s.step code op = .ok (r, s') ∧ ∃ c live, s'.OnePartner c live := by
  cases op with
  | create rip data garbage =>
    obtain ⟨s', hs', h'⟩ := h.create hop code rip data garbage
    exact ⟨none, s', by simp only [Scheduler.step, hs']; rfl, _, _, h'⟩
  | switch ctx =>
    obtain ⟨frame, s', other, hs', h'⟩ := h.switch hop ctx
    exact ⟨some frame, s', by simp only [Scheduler.step, hs']; rfl, _, _, h'⟩
  | idle deadline =>
    exact ⟨none, s, by simp only [Scheduler.step, idle_kernel hop]; rfl, _, _, h⟩
  | exit => exact hop.elim

/-! ### The other steps -/

/-- A task that is created while `LIVE_QUEUE` is occupied is in no queue. -/
theorem create_lost (h : s.OnePartner c live) (he : s.liveQueue.head ≠ s.liveQueue.tail)
    (code : TaskCode) (rip data : BitVec 64) (garbage : IsrStack) :
    ∃ s', createTask code s rip data garbage = .ok s' ∧ ¬ s'.TasksKept := by
  refine ⟨{ s with taskCount := s.taskCount + 1, nextTask := s.nextTask + 1 }.setTask _ _,
    by simp only [createTask, setTask, h.queue.push_dropped he]; rfl, ?_⟩
  rintro ⟨c', live', idle', hc, hlive, hidle, -, -, hkept⟩
  cases h.current_eq.symm.trans hc
  cases h.queue.holds.unique hlive
  cases h.idle.holds.unique hidle
  have hcount := hkept s.nextTask ⟨Nat.lt_succ_self _, by simp [setTask, h.exited_eq]⟩
    (Nat.ne_of_gt h.current_lt)
  rcases h.shape with ⟨-, -, rfl, -⟩ | ⟨other, hn, -, ho, -, rfl⟩
  · simp at hcount
  · rw [List.append_nil, List.count_singleton, if_neg (by simp; omega)] at hcount
    cases hcount

/-- A switch with an empty `LIVE_QUEUE` sets `current` to `NULL` and dereferences it. -/
theorem switch_null (h : s.OnePartner c live) (he : s.liveQueue.head = s.liveQueue.tail)
    (ctx : IsrStack) : switchTask s ctx = .error .nullPointer := by
  obtain ⟨task, -, hderef⟩ := h.deref_current
  obtain rfl : live = [] := h.queue.holds.unique (h.queue.wf.holds_nil he)
  obtain ⟨hpop, hq₁⟩ := h.queue.pop
  obtain ⟨q, hpush, -⟩ := hq₁.push rfl (some c)
  simp only [switchTask, hderef, bind, Except.bind, onQueue, setTask_liveQueue, hpop,
    Except.mapError, hpush]
  rfl

/-- What `remove_task` finds has the id it looks for; when it finds nothing, no slot it has read
points to a task with that id. -/
theorem removeTaskLoop_ok {q q' : Queue Nat} {id : Nat} {found : Option Nat} :
    ∀ {slots}, removeTaskLoop s q id slots = .ok (found, q') →
      (∀ ptr, found = some ptr → ∃ task, s.tasks ptr = some task ∧ task.taskId = id) ∧
        (found = none → ∀ i ∈ slots, ∀ ptr, q.inner.read i = .ok (some ptr) →
          ∃ task, s.tasks ptr = some task ∧ task.taskId ≠ id)
  | [], h => by cases h; simp
  | i :: slots, h => by
    rw [removeTaskLoop] at h
    cases hread : q.inner.read i with
    | error e => simp [hread, onQueue, Except.mapError, bind, Except.bind] at h
    | ok ptr =>
      cases ptr with
      | none => simp [hread, onQueue, Except.mapError, bind, Except.bind, deref] at h
      | some ptr =>
        cases htask : s.tasks ptr with
        | none => simp [hread, onQueue, Except.mapError, bind, Except.bind, deref, htask] at h
        | some task =>
          simp only [hread, onQueue, Except.mapError, bind, Except.bind, deref, htask] at h
          split at h
          · rename_i hne
            obtain ⟨hfound, hnone⟩ := removeTaskLoop_ok h
            refine ⟨hfound, fun hn j hj p hp => ?_⟩
            rcases List.mem_cons.mp hj with rfl | hj
            · cases hread.symm.trans hp
              exact ⟨task, htask, hne⟩
            · exact hnone hn j hj p hp
          · rename_i heq
            cases hw : q.inner.write i none with
            | error e => simp [hw] at h
            | ok m =>
              simp only [hw] at h
              cases h
              exact ⟨fun p hp => by cases hp; exact ⟨task, htask, not_not.mp heq⟩, nofun⟩

/-- `remove_task` finds a running task other than the kernel task through a stale slot. -/
theorem removeTask_current (h : s.OnePartner c live) (hc : c ≠ 0)
    (hr : removeTask s s.liveQueue c = .ok (found, q')) : found = some c := by
  rw [removeTask, if_neg hc] at hr
  obtain ⟨hfound, hnone⟩ := removeTaskLoop_ok hr
  cases found with
  | none =>
    obtain ⟨i, hi, hread⟩ := h.stale hc
    obtain ⟨task, htask, hne⟩ := hnone rfl i
      (List.mem_range.mpr (h.queue.capacity_eq ▸ hi)) c hread
    exact absurd (h.taskId_eq _ _ htask) hne
  | some ptr =>
    obtain ⟨task, htask, hid⟩ := hfound ptr rfl
    rw [← hid, h.taskId_eq _ _ htask]

/-- A running task other than the kernel task that signals idle is queued while it runs. -/
theorem idle_queued (h : s.OnePartner c live) (hc : c ≠ 0)
    (hidle : signalIdle s deadline = .ok s') : ¬ s'.TasksKept := by
  obtain ⟨task, htask, hderef⟩ := h.deref_current
  simp only [signalIdle, hderef, bind, Except.bind, h.taskId_eq _ _ htask] at hidle
  cases hr : removeTask s s.liveQueue c with
  | error e => simp [hr] at hidle
  | ok res =>
    obtain ⟨found, liveQueue⟩ := res
    obtain rfl := h.removeTask_current hc hr
    obtain ⟨q, hpush, hq, -⟩ := h.idle.push h.idle_empty (some c)
    simp only [hr, deref, htask, onQueue, setTask, hpush, Except.mapError] at hidle
    cases hidle
    rintro ⟨c', live', idle', hcur, -, hidle', -, hnot, -⟩
    cases h.current_eq.symm.trans hcur
    cases hq.holds.unique hidle'
    simp at hnot

/-- A task that returns from its function stays `current`. -/
theorem exit_current (h : s.OnePartner c live) (hexit : taskWrapperEnd s = .ok s') :
    ¬ s'.TasksKept := by
  obtain ⟨task, htask, hderef⟩ := h.deref_current
  simp only [taskWrapperEnd, hderef, bind, Except.bind] at hexit
  cases hr : removeTask s s.liveQueue task.taskId with
  | error e => simp [hr] at hexit
  | ok res =>
    simp only [hr] at hexit
    rintro ⟨c', _, _, hcur, -, -, halive, -⟩
    obtain ⟨rfl, hmem⟩ : c' = c ∧ c ∈ s'.exited := by
      cases hself : res.1 <;> simp only [hself] at hexit <;> cases hexit <;>
        exact ⟨Option.some.inj (hcur.symm.trans h.current_eq), List.mem_cons_self⟩
    exact halive.2 hmem

theorem safe_of_kept (h : s.OnePartner c live) (hstep : s.step code op = .ok (r, s'))
    (hkept : s'.TasksKept) : op.Safe s := by
  cases op with
  | create rip data garbage =>
    by_contra he
    obtain ⟨s₁, hs₁, hlost⟩ := h.create_lost he code rip data garbage
    simp only [Scheduler.step, hs₁] at hstep
    cases hstep
    exact hlost hkept
  | switch ctx =>
    intro he
    simp only [Scheduler.step, h.switch_null he] at hstep
    cases hstep
  | idle deadline =>
    obtain ⟨task, htask, hderef⟩ := h.deref_current
    refine ⟨c, task, hderef, (h.taskId_eq _ _ htask).trans ?_⟩
    by_contra hc
    cases hidle : signalIdle s deadline with
    | error e => simp only [Scheduler.step, hidle] at hstep; cases hstep
    | ok s₁ =>
      simp only [Scheduler.step, hidle] at hstep
      cases hstep
      exact h.idle_queued hc hidle hkept
  | exit =>
    cases hexit : taskWrapperEnd s with
    | error e => simp only [Scheduler.step, hexit] at hstep; cases hstep
    | ok s₁ =>
      simp only [Scheduler.step, hexit] at hstep
      cases hstep
      exact h.exit_current hexit hkept

end OnePartner

end Scheduler

/-- A run after `init_tasks` goes on and loses, duplicates or resurrects no task in any of its
states if and only if all its steps are safe. -/
theorem initTasks_tasksKept_iff (code : TaskCode) (garbage : IsrStack) (ops : List SchedOp) :
    Run.Always (Scheduler.step code) Scheduler.TasksKept (initTasks code garbage) ops ↔
      Run.Along (Scheduler.step code) (fun s op => op.Safe s) (initTasks code garbage) ops :=
  Run.always_iff_along (Scheduler.step code) (I := fun s => ∃ c live, s.OnePartner c live)
    (fun ⟨_, _, h⟩ => h.tasksKept) (fun ⟨_, _, h⟩ hop => h.step hop)
    (fun ⟨_, _, h⟩ hstep hkept => h.safe_of_kept hstep hkept) ⟨_, _, .init code garbage⟩

/-- Two tasks created after `init_tasks`: the second one is in no queue. -/
theorem initTasks_second_task_lost : ¬ ∀ (code : TaskCode) (garbage : IsrStack)
    (ops : List SchedOp), ops.countP SchedOp.isCreate ≤ 9 →
      Run.Always (Scheduler.step code) Scheduler.TasksKept (initTasks code garbage) ops := by
  intro h
  let zero : IsrStack := ⟨0, 0, 0, 0, 0, 0, 0, 0, 0, 0, 0, 0, 0, 0, 0, 0, 0, 0, 0, 0⟩
  obtain ⟨-, r₁, s₁, h₁, -, r₂, s₂, h₂, hkept⟩ :=
    h ⟨0, 0⟩ zero [.create 0 0 zero, .create 0 0 zero] (by decide)
  obtain ⟨s₁', hs₁, hp⟩ :=
    (Scheduler.OnePartner.init ⟨0, 0⟩ zero).create rfl ⟨0, 0⟩ 0 0 zero
  have he : s₁'.liveQueue.head ≠ s₁'.liveQueue.tail := fun he => by
    cases hp.queue.holds.unique (hp.queue.wf.holds_nil he)
  obtain ⟨s₂', hs₂, hlost⟩ := hp.create_lost he ⟨0, 0⟩ 0 0 zero
  simp only [Scheduler.step, hs₁] at h₁
  cases h₁
  simp only [Scheduler.step, hs₂] at h₂
  cases h₂
  exact hlost hkept

end Lethe
