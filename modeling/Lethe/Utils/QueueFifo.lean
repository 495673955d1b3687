import Lethe.Lib.Run
import Lethe.Utils.Queue

/-!
# The queue against a first-in first-out list

Both kinds of queue are compared with lists along whole runs. The full test of `push_queue`
compares the slot after `head` with `tail`. That is the case of exactly one occupied slot, so a
fixed queue drops the second element and a resizable one moves its ring at the second element.
A queue therefore behaves as a list exactly as long as every push finds `head = tail`
(`newQueue_refines_fifo_iff`, `newQueueResizable_refines_list_iff`).
-/

namespace Lethe

inductive QueueOp (α : Type)
  | push (task : α)
  | pop
  | rotate

/-- One call on a queue; `push_queue` returns nothing. -/
def Queue.step (queue : Queue α) : QueueOp α → Except QueueFault (Option α × Queue α)
  | .push task => do
    let queue ← pushQueue queue (some task)
    pure (none, queue)
  | .pop => popQueue queue
  | .rotate => rotateQueue queue

/-- A list that keeps at most `bound` elements. -/
def fifoStep (bound : Nat) (xs : List α) : QueueOp α → Option α × List α
  | .push task => (none, if xs.length < bound then xs ++ [task] else xs)
  | .pop => (xs.head?, xs.tail)
  | .rotate => (xs.head?, xs.tail ++ xs.head?.toList)

/-- A list that grows without bound. -/
def listStep (xs : List α) : QueueOp α → Option α × List α
  | .push task => (none, xs ++ [task])
  | .pop => (xs.head?, xs.tail)
  | .rotate => (xs.head?, xs.tail ++ xs.head?.toList)

/-- The operation is no push, or the queue has no occupied slot. -/
def PushFindsEmpty (queue : Queue α) (op : QueueOp α) : Prop :=
  ∀ task, op = .push task → queue.head = queue.tail

namespace Queue

variable {q q' : Queue α}

/-- What a queue looks like as long as every push found it empty: the ring it was created with,
at most one occupied slot, and the elements `xs`. -/
structure AtMostOne (resizable : Bool) (q : Queue α) (xs : List α) : Prop where
  wf : q.WF
  capacity_eq : q.capacity = taskQueueSize
  resizable_eq : q.resizable = resizable
  size_le : q.size ≤ 1
  holds : q.Holds xs

theorem atMostOne_newQueue : AtMostOne false (newQueue : Queue α) [] :=
  ⟨wf_newQueue, rfl, rfl, show Ring.dist 10 0 0 ≤ 1 by decide, wf_newQueue.holds_nil rfl⟩

theorem atMostOne_newQueueResizable : AtMostOne true (newQueueResizable : Queue α) [] :=
  ⟨wf_newQueueResizable, rfl, rfl, show Ring.dist 10 0 0 ≤ 1 by decide,
    wf_newQueueResizable.holds_nil rfl⟩

namespace AtMostOne

theorem length_le (h : AtMostOne b q xs) : xs.length ≤ 1 := Nat.le_trans h.holds.length_le h.size_le

/-- In an empty ring both full tests fail. -/
theorem next_ne (h : AtMostOne b q xs) (he : q.head = q.tail) :
    (q.head + 1) % q.capacity ≠ q.tail ∧ (q.tail + 1) % q.capacity ≠ q.head := by
  have hc := h.capacity_eq
  have ht := h.wf.tail_lt
  rcases Ring.next_cases ht with ⟨_, hn⟩ | ⟨_, hn⟩ <;> rw [Ring.next] at hn <;>
    rw [he, hn] <;> simp only [taskQueueSize] at hc <;> omega

/-- With one slot occupied the full test of `push_queue` holds. -/
theorem next_eq (h : AtMostOne b q xs) (he : q.head ≠ q.tail) :
    (q.head + 1) % q.capacity = q.tail := by
  have hpos : q.size ≠ 0 := fun hz => he (h.wf.size_eq_zero.mp hz)
  have hle := h.size_le
  refine (Ring.dist_eq_one ?_ h.wf.head_lt h.wf.tail_lt).mp (show q.size = 1 by omega)
  rw [h.capacity_eq]
  decide

theorem push (h : AtMostOne b q xs) (he : q.head = q.tail) (task : Option α) :
    ∃ q', pushQueue q task = .ok q' ∧ AtMostOne b q' (xs ++ task.toList) ∧
      ∀ i ≠ q.tail, q'.inner.read i = q.inner.read i := by
  obtain ⟨hfull, hfree⟩ := h.next_ne he
  obtain ⟨q', hpush, hw, hs, hh, hc, hr, hx⟩ := h.wf.push hfull hfree task
  have hz := h.wf.size_eq_zero.mpr he
  refine ⟨q', hpush, ⟨hw, hc.trans h.capacity_eq, hr.trans h.resizable_eq, by omega,
    hx _ h.holds⟩, fun i hi => ?_⟩
  rw [pushQueue, if_neg hfull] at hpush
  obtain ⟨-, m, hwrite, rfl⟩ := Queue.store_inv hpush
  exact Inner.read_write_of_ne hwrite hi

theorem pop (h : AtMostOne b q xs) :
    popQueue q = .ok (xs.head?, { q with head := q.tail }) ∧
      AtMostOne b { q with head := q.tail } xs.tail := by
  obtain ⟨i, hpop, hw, hs, hx⟩ := h.wf.popQueue h.holds
  have hz : { q with head := i }.size = 0 := by have := h.size_le; omega
  obtain rfl : i = q.tail := hw.size_eq_zero.mp hz
  exact ⟨hpop, hw, h.capacity_eq, h.resizable_eq, by omega, hx⟩

/-- The only element is in the slot at `head`. -/
theorem read_head (h : AtMostOne b q [x]) : q.inner.read q.head = .ok (some x) := by
  obtain ⟨ptrs, hp, hx⟩ := h.holds
  have hlen := hp.length_eq
  have hle := h.size_le
  match ptrs with
  | [] => simp at hx
  | [ptr] =>
    obtain rfl : ptr = some x := by cases ptr <;> simp_all
    rw [Queue.Contains, Queue.occupied, ← hlen] at hp
    exact (List.cons.inj hp).1
  | _ :: _ :: _ => simp only [List.length_cons] at hlen; omega

theorem rotate (h : AtMostOne b q xs) :
    ∃ q', rotateQueue q = .ok (xs.head?, q') ∧ AtMostOne b q' (xs.tail ++ xs.head?.toList) := by
  obtain ⟨hpop, h₁⟩ := h.pop
  obtain ⟨q', hpush, h', -⟩ := h₁.push rfl xs.head?
  refine ⟨q', ?_, h'⟩
  simp only [rotateQueue, hpop, bind, Except.bind, hpush]
  rfl

/-- A step that is no push into an occupied ring answers as the unbounded list does. -/
theorem step (h : AtMostOne b q xs) (hop : PushFindsEmpty q op) :
    ∃ q', q.step op = .ok ((listStep xs op).1, q') ∧ AtMostOne b q' (listStep xs op).2 := by
  cases op with
  | push task =>
    obtain ⟨q', hpush, h', -⟩ := h.push (hop task rfl) (some task)
    exact ⟨q', by simp only [Queue.step, hpush]; rfl, h'⟩
  | pop =>
    obtain ⟨hpop, h'⟩ := h.pop
    exact ⟨_, hpop, h'⟩
  | rotate => exact h.rotate

/-- The bound of a fixed queue is never met. -/
theorem fifoStep_eq (h : AtMostOne b q xs) (op : QueueOp α) :
    fifoStep (taskQueueSize - 1) xs op = listStep xs op := by
  cases op with
  | push task =>
    have := h.length_le
    simp only [fifoStep, listStep]
    rw [if_pos (by simp only [taskQueueSize]; omega)]
  | pop => rfl
  | rotate => rfl

/-- A fixed queue drops an element that is pushed into an occupied ring. -/
theorem push_dropped (h : AtMostOne false q xs) (he : q.head ≠ q.tail) (task : Option α) :
    pushQueue q task = .ok q := by
  rw [pushQueue, if_pos (h.next_eq he), h.resizable_eq]
  rfl

/-- A resizable queue that grows either writes outside the memory it has just requested or can
no longer read its oldest slot. -/
theorem push_grows (h : AtMostOne true q xs) (he : q.head ≠ q.tail)
    (hpush : pushQueue q task = .ok q') : ¬ q'.Holds ys := by
  have hnext := h.next_eq he
  have hcap := h.capacity_eq
  have hhead := h.wf.head_lt
  simp only [taskQueueSize] at hcap
  rw [pushQueue, if_pos hnext, h.resizable_eq, if_neg (by decide), hcap, if_neg (by decide)] at hpush
  obtain ⟨hbound, m, hwrite, rfl⟩ := Queue.store_inv hpush
  have hm := Inner.write_bytes hwrite
  rintro ⟨ptrs, hp, -⟩
  simp only [queueResizeVal, Inner.realloc, Inner.pointerSize] at hbound hm hp
  rw [hcap] at hnext hhead
  -- the occupied part of the new ring starts at the old `head`
  have hsize : Ring.dist 20 q.head (((q.tail + 1) % 20 + 1) % 20) ≠ 0 := by
    rw [Ne, Ring.dist_eq_zero] <;> omega
  have hread := hp.head_inBounds hsize
  simp only [hm, Inner.pointerSize] at hread
  omega

end AtMostOne

end Queue

/-- The run of a fixed queue is that of a list of at most nine elements if and only if every push
of the run finds the queue without occupied slots. -/
theorem newQueue_refines_fifo_iff (ops : List (QueueOp α)) :
    Run.Refines Queue.step (fifoStep (taskQueueSize - 1)) Queue.Holds newQueue [] ops ↔
      Run.Along Queue.step PushFindsEmpty newQueue ops := by
  refine Run.refines_iff_along Queue.step (I := Queue.AtMostOne false) (fun h => h.holds)
    (fun h hop => h.fifoStep_eq _ ▸ h.step hop) (fun {q xs op q'} h hs hx task hop => ?_)
    Queue.atMostOne_newQueue
  subst hop
  by_contra he
  rw [h.fifoStep_eq] at hs hx
  simp only [Queue.step, h.push_dropped he] at hs
  cases hs
  have := congrArg List.length (h.holds.unique hx)
  simp [listStep] at this

/-- Two pushes on a fresh queue: the second element is dropped. -/
theorem newQueue_drops_second_push : ¬ ∀ ops : List (QueueOp Nat),
    Run.Refines Queue.step (fifoStep (taskQueueSize - 1)) Queue.Holds newQueue [] ops :=
  fun h => absurd (h [.push 1, .push 2, .pop, .pop]).outputs_eq (by decide)

/-- The run of a resizable queue is that of a list, and stays inside the memory it requested, if
and only if every push of the run finds the queue without occupied slots. -/
theorem newQueueResizable_refines_list_iff (ops : List (QueueOp α)) :
    Run.Refines Queue.step listStep Queue.Holds newQueueResizable [] ops ↔
      Run.Along Queue.step PushFindsEmpty newQueueResizable ops := by
  refine Run.refines_iff_along Queue.step (I := Queue.AtMostOne true) (fun h => h.holds)
    (fun h hop => h.step hop) (fun {q xs op q'} h hs hx task hop => ?_)
    Queue.atMostOne_newQueueResizable
  subst hop
  by_contra he
  simp only [Queue.step, listStep] at hs hx
  cases hpush : pushQueue q (some task) with
  | error e => rw [hpush] at hs; cases hs
  | ok q₁ =>
    rw [hpush] at hs
    cases hs
    exact h.push_grows he hpush hx

/-- Two pushes on a fresh resizable queue: the second one writes outside the requested memory. -/
theorem newQueueResizable_second_push_outOfBounds : ¬ ∀ ops : List (QueueOp Nat),
    Run.Refines Queue.step listStep Queue.Holds newQueueResizable [] ops :=
  fun h => absurd (h [.push 1, .push 2]).outputs_eq (by decide)

end Lethe
