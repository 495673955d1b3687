import Lethe.Kernel.Task

/-!
# What a task finds when it is resumed

`iretq` pops five words, of which `isr_stack_t` has the first three. `copy_ctx` neither saves
nor restores the other two, so a task is resumed with the `rsp` and the `ss` of the task that is
switched out. All other words are those that it was switched out with.
-/

namespace Lethe

/-- The words on the stack behind an interrupt: those of `isr_stack_t`, and the two above them. -/
structure InterruptFrame extends IsrStack where
  rsp : BitVec 64
  ss : BitVec 64
  deriving DecidableEq

/-- The words that `interrupt_common` pops into registers, the number of the interrupt and its
error code being skipped. -/
def InterruptFrame.restored (f : InterruptFrame) : List (BitVec 64) :=
  [f.r15, f.r14, f.r13, f.r12, f.r11, f.r10, f.r9, f.r8, f.rbp, f.rdi, f.rsi, f.rdx, f.rcx, f.rbx,
    f.rax, f.rip, f.cs, f.rflags, f.rsp, f.ss]

/-- With the words of `isr_stack_t` of another frame, the two words above them make the
difference. -/
theorem restored_eq_iff {f g : InterruptFrame} :
    ({ f with toIsrStack := g.toIsrStack } : InterruptFrame).restored = g.restored ↔
      f.rsp = g.rsp ∧ f.ss = g.ss := by
  simp [InterruptFrame.restored]

/-- `copy_ctx` assigns every word of `isr_stack_t`. -/
theorem copyCtx_eq (dest src : IsrStack) : copyCtx dest src = src := rfl

/-- What a call of `switch_task` that returns has done. -/
theorem switchTask_ok {s s' : Scheduler} (h : switchTask s ctx = .ok (ctx', s')) :
    ∃ old task next task' queue, s.current = some old ∧ s.tasks old = some task ∧
      popQueue s.liveQueue = .ok (some next, queue) ∧ s'.current = some next ∧
      s'.tasks = (s.setTask old (some { task with ctx })).tasks ∧ s'.tasks next = some task' ∧
      ctx' = task'.ctx := by
  simp only [switchTask, copyCtx_eq, Scheduler.deref] at h
  cases hcurrent : s.current with
  | none =>
    rw [hcurrent] at h
    cases h
  | some old =>
    cases htask : s.tasks old with
    | none =>
      simp only [hcurrent, htask] at h
      cases h
    | some task =>
      simp only [hcurrent, htask, bind, Except.bind, Scheduler.onQueue,
        Scheduler.setTask_liveQueue] at h
      cases hpop : popQueue s.liveQueue with
      | error fault =>
        rw [hpop] at h
        cases h
      | ok popped =>
        obtain ⟨next, queue⟩ := popped
        simp only [hpop, Except.mapError] at h
        cases hpush : pushQueue queue (some old) with
        | error fault =>
          rw [hpush] at h
          cases h
        | ok queue' =>
          simp only [hpush] at h
          cases next with
          | none => cases h
          | some next =>
            cases htask' : (s.setTask old (some { task with ctx })).tasks next with
            | none =>
              simp only [htask'] at h
              cases h
            | some task' =>
              simp only [htask'] at h
              obtain ⟨rfl, rfl⟩ := Prod.mk.inj (Except.ok.inj h)
              exact ⟨old, task, next, task', queue, rfl, htask, rfl, rfl, rfl, htask', rfl⟩

/-! ## Runs -/

/-- The scheduler, with the frame that each task has last been switched out with. -/
structure SwitchState where
  scheduler : Scheduler
  /-- Ghost: the frames at the last switch away from each task. -/
  saved : Nat → Option InterruptFrame
  /-- Ghost: the saved frame of the task that the last switch has resumed, and the frame with
  which it has been resumed. -/
  resumed : Option (InterruptFrame × InterruptFrame)

namespace SwitchState

/-- No task has been switched out yet. -/
def start (scheduler : Scheduler) : SwitchState := ⟨scheduler, fun _ => none, none⟩

/-- The running task is interrupted with the given frame. `switch_task` gets a pointer to it, so
that the words it does not know stay. -/
def step (st : SwitchState) (frame : InterruptFrame) :
    Except TaskFault (InterruptFrame × SwitchState) := do
  let (ctx, scheduler) ← switchTask st.scheduler frame.toIsrStack
  let out := { frame with toIsrStack := ctx }
  let saved ptr := if st.scheduler.current = some ptr then some frame else st.saved ptr
  let resumed := (scheduler.current.bind saved).map (·, out)
  pure (out, { scheduler, saved, resumed })

/-- A task that has been switched out is resumed with the frame it was switched out with. -/
def Transparent (st : SwitchState) : Prop :=
  ∀ frame out, st.resumed = some (frame, out) → out.restored = frame.restored

/-- The task that is next in `LIVE_QUEUE` was switched out with the stack that the running task is
interrupted with, if it was switched out at all. -/
def SameStack (st : SwitchState) (frame : InterruptFrame) : Prop :=
  ∀ next queue saved, popQueue st.scheduler.liveQueue = .ok (some next, queue) →
    st.scheduler.current ≠ some next → st.saved next = some saved →
      frame.rsp = saved.rsp ∧ frame.ss = saved.ss

/-- The contexts of the tasks are what they were switched out with. -/
def Saved (st : SwitchState) : Prop :=
  ∀ ptr frame, st.saved ptr = some frame →
    ∃ task, st.scheduler.tasks ptr = some task ∧ task.ctx = frame.toIsrStack

theorem step_spec {st st' : SwitchState} (h : st.Saved) (hstep : st.step frame = .ok (out, st')) :
    st'.Saved ∧ (st'.Transparent ↔ st.SameStack frame) := by
  simp only [step] at hstep
  cases hswitch : switchTask st.scheduler frame.toIsrStack with
  | error fault =>
    rw [hswitch] at hstep
    cases hstep
  | ok res =>
    obtain ⟨ctx, scheduler⟩ := res
    rw [hswitch] at hstep
    obtain ⟨rfl, rfl⟩ := Prod.mk.inj (Except.ok.inj hstep)
    obtain ⟨old, task, next, task', queue, hold, htask, hpop, hnext, htasks, htask', rfl⟩ :=
      switchTask_ok hswitch
    have hsaved : Saved ⟨scheduler, fun ptr => if st.scheduler.current = some ptr then some frame
        else st.saved ptr, none⟩ := by
      intro ptr saved hptr
      simp only [hold, Option.some.injEq] at hptr
      rw [htasks, Scheduler.setTask]
      by_cases heq : ptr = old
      · rw [if_pos heq.symm] at hptr
        obtain rfl := Option.some.inj hptr
        exact ⟨_, if_pos heq, rfl⟩
      · rw [if_neg fun h => heq h.symm] at hptr
        obtain ⟨task, htask, hctx⟩ := h ptr saved hptr
        exact ⟨task, (if_neg heq).trans htask, hctx⟩
    refine ⟨hsaved, ?_⟩
    -- the words of `isr_stack_t` are those that were saved
    have hctx (f : InterruptFrame) (hf : (if st.scheduler.current = some next then some frame
        else st.saved next) = some f) : task'.ctx = f.toIsrStack := by
      obtain ⟨task'', htask'', hctx⟩ := hsaved next f hf
      obtain rfl := Option.some.inj (htask'.symm.trans htask'')
      exact hctx
    simp only [Transparent, SameStack, hnext, Option.bind_some]
    constructor
    · intro htransparent next' queue' saved hpop' hne hnext'
      obtain ⟨hnext'', -⟩ := Prod.mk.inj (Except.ok.inj (hpop.symm.trans hpop'))
      obtain rfl := Option.some.inj hnext''
      rw [if_neg hne] at htransparent hctx
      have heq := htransparent saved _ (by rw [hnext']; rfl)
      rw [hctx saved hnext'] at heq
      exact restored_eq_iff.mp heq
    · intro hsame f out hresumed
      obtain ⟨f', hf', heq⟩ := Option.map_eq_some_iff.mp hresumed
      obtain ⟨rfl, rfl⟩ := Prod.mk.inj heq
      rw [hctx f' hf']
      refine restored_eq_iff.mpr ?_
      by_cases hself : st.scheduler.current = some next
      · rw [if_pos hself] at hf'
        obtain rfl := Option.some.inj hf'
        exact ⟨rfl, rfl⟩
      · rw [if_neg hself] at hf'
        exact hsame next queue f' hpop hself hf'

end SwitchState

/-- In every run of `switch_task` calls that goes on, a task that has run before is resumed with
the frame it was switched out with if and only if each time the stack pointer and the stack
segment of the interrupted task happen to be its own. -/
theorem switchTask_transparent_iff (scheduler : Scheduler) (frames : List InterruptFrame)
    (hrun : Run.Always SwitchState.step (fun _ => True) (.start scheduler) frames) :
    Run.Always SwitchState.step SwitchState.Transparent (.start scheduler) frames ↔
      Run.Along SwitchState.step SwitchState.SameStack (.start scheduler) frames := by
  refine Run.always_iff_along_of_step SwitchState.step_spec (fun ptr frame h => ?_)
    (fun frame out h => ?_) hrun
  · cases h
  · cases h

/-- A frame with the given stack pointer. -/
def frameAt (rsp : BitVec 64) : InterruptFrame :=
  { toIsrStack := ⟨0, 0, 0, 0, 0, 0, 0, 0, 0, 0, 0, 0, 0, 0, 0, 0, 0, 0, 0, 0⟩, rsp, ss := 0x10 }

/-- The tasks after `init_tasks` and one `create_task`. -/
def twoTasks : Except TaskFault Scheduler :=
  createTask ⟨0, 0⟩ (initTasks ⟨0, 0⟩ (frameAt 0).toIsrStack) 0 0 (frameAt 0).toIsrStack

/-- Two tasks on one stack. -/
theorem switchTask_transparent_sameStack : ∃ s, twoTasks = .ok s ∧
    Run.Always SwitchState.step SwitchState.Transparent (.start s)
      [frameAt 0x1000, frameAt 0x1000] := by
  refine ⟨_, rfl, (switchTask_transparent_iff _ _ ?_).mpr ?_⟩
  · exact ⟨trivial, _, _, rfl, trivial, _, _, rfl, trivial⟩
  · refine ⟨fun next queue saved _ _ h => ?_, fun r st h => ⟨fun next queue saved _ _ hsaved => ?_,
      fun _ _ _ => trivial⟩⟩
    · cases h
    · obtain ⟨-, rfl⟩ := Prod.mk.inj (Except.ok.inj h)
      obtain ⟨-, heq⟩ | ⟨-, heq⟩ := ite_eq_iff.mp hsaved
      · obtain rfl := Option.some.inj heq
        exact ⟨rfl, rfl⟩
      · cases heq

/-- The second of two switches resumes the kernel task with the stack pointer of the other task. -/
theorem switchTask_stack_swapped : ∃ s, twoTasks = .ok s ∧
    Run.Always SwitchState.step (fun _ => True) (.start s) [frameAt 0x1000, frameAt 0x2000] ∧
    ¬Run.Always SwitchState.step SwitchState.Transparent (.start s)
      [frameAt 0x1000, frameAt 0x2000] := by
  refine ⟨_, rfl, ⟨trivial, _, _, rfl, trivial, _, _, rfl, trivial⟩, ?_⟩
  rintro ⟨-, r₁, st₁, h₁, -, r₂, st₂, h₂, htransparent⟩
  obtain ⟨-, rfl⟩ := Prod.mk.inj (Except.ok.inj h₁)
  obtain ⟨-, rfl⟩ := Prod.mk.inj (Except.ok.inj h₂)
  have := htransparent _ _ rfl
  revert this
  decide

end Lethe
