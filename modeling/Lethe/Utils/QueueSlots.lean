import Mathlib.Algebra.Group.Int.Defs
import Lethe.Utils.QueueFifo

/-!
# The indices of `lethe-utils/queue.c`

`SlotQueue α` is `queue_t` with `head`, `tail` and `capacity` as the `int`s that they are, and with
whatever lies behind `_inner` as its slots: the accesses to a slot do not fault here, and a
`realloc` moves the queue to memory with any contents. What is left to go wrong is a result that is
no `int`, and a `pop_queue` that calls itself for ever.

A call of `pop_queue` ends at the first slot from `head` on that is not `NULL`, or at `tail`, and no
call moves an index out of the ring. `Queue.slots` says what these queues are to those of
`Lethe.Utils.Queue`: a call that returns there does the same here.
-/

namespace Lethe

/-- `struct queue_t`, with the slots behind `_inner`. -/
structure SlotQueue (α : Type) where
  slot : Int → Option α
  head : Int
  tail : Int
  capacity : Int
  resizable : Bool

namespace SlotQueue

/-- The result of an operation on `int`s. -/
def toInt (x : Int) : Except QueueFault Int :=
  if -2 ^ 31 ≤ x ∧ x < 2 ^ 31 then .ok x else .error .overflow

/-- The two statements that end `push_queue`. -/
def store (queue : SlotQueue α) (task : Option α) : Except QueueFault (SlotQueue α) := do
  let slot := Function.update queue.slot queue.tail task
  let next ← toInt (queue.tail + 1)
  pure { queue with slot, tail := next.tmod queue.capacity }

/-- `push_queue`; `moved` is the contents of the memory that `realloc` returns. -/
def pushQueue (queue : SlotQueue α) (task : Option α) (moved : Int → Option α) :
    Except QueueFault (SlotQueue α) := do
  let next ← toInt (queue.head + 1)
  if next.tmod queue.capacity = queue.tail then
    if !queue.resizable then pure queue
    else
      let capacity ← toInt (queue.capacity * queueResizeVal)
      let next ← toInt (queue.tail + 1)
      { queue with slot := moved, capacity, tail := next.tmod capacity }.store task
  else queue.store task

/-- `pop_queue`, with a bound on its calls of itself. -/
def popQueue : Nat → SlotQueue α → Except QueueFault (Option α × SlotQueue α)
  | 0, _ => .error .diverges
  | fuel + 1, queue =>
    if queue.head = queue.tail then .ok (none, queue)
    else do
      let ptr := queue.slot queue.head
      let next ← toInt (queue.head + 1)
      let queue := { queue with head := next.tmod queue.capacity }
      match ptr with
      | none => popQueue fuel queue
      | some ptr => pure (some ptr, queue)

/-- `head` and `tail` are slots of the ring. -/
structure InBounds (queue : SlotQueue α) : Prop where
  head_nonneg : 0 ≤ queue.head
  head_lt : queue.head < queue.capacity
  tail_nonneg : 0 ≤ queue.tail
  tail_lt : queue.tail < queue.capacity
  capacity_lt : queue.capacity < 2 ^ 31

variable {queue : SlotQueue α}

theorem toInt_next (h : 0 ≤ i) (hlt : i < cap) (hcap : cap < 2 ^ 31) :
    toInt (i + 1) = .ok (i + 1) :=
  if_pos (by omega)

/-- For a slot of the ring the remainder of C is that of the integers. -/
theorem tmod_next (h : 0 ≤ i) (cap : Int) : (i + 1).tmod cap = (i + 1) % cap :=
  Int.tmod_eq_emod_of_nonneg (by omega)

/-! ## `pop_queue` -/

/-- The number of slots from `head` up to, and excluding, `tail`. -/
def waiting (queue : SlotQueue α) : Int := (queue.tail - queue.head) % queue.capacity

/-- The slot that is `k` places behind `head`. -/
def behind (queue : SlotQueue α) (k : Int) : Option α :=
  queue.slot ((queue.head + k) % queue.capacity)

/-- The queue with `head` moved by `k` places. -/
def advance (queue : SlotQueue α) (k : Int) : SlotQueue α :=
  { queue with head := (queue.head + k) % queue.capacity }

theorem InBounds.advance (h : queue.InBounds) (k : Int) : (queue.advance k).InBounds where
  head_nonneg := Int.emod_nonneg _ (by have := h.head_nonneg; have := h.head_lt; omega)
  head_lt := Int.emod_lt_of_pos _ (by have := h.head_nonneg; have := h.head_lt; omega)
  tail_nonneg := h.tail_nonneg
  tail_lt := h.tail_lt
  capacity_lt := h.capacity_lt

theorem behind_advance (queue : SlotQueue α) (j k : Int) :
    (queue.advance j).behind k = queue.behind (j + k) := by
  simp only [behind, SlotQueue.advance, Int.emod_add_emod, Int.add_assoc]

theorem advance_advance (queue : SlotQueue α) (j k : Int) :
    (queue.advance j).advance k = queue.advance (j + k) := by
  simp only [SlotQueue.advance, Int.emod_add_emod, Int.add_assoc]

theorem InBounds.advance_waiting (h : queue.InBounds) :
    queue.advance queue.waiting = { queue with head := queue.tail } := by
  have htail : queue.tail % queue.capacity = queue.tail :=
    Int.emod_eq_of_lt h.tail_nonneg h.tail_lt
  rw [SlotQueue.advance, waiting, Int.add_emod_emod, Int.add_comm, Int.sub_add_cancel, htail]

theorem InBounds.waiting_nonneg (h : queue.InBounds) : 0 ≤ queue.waiting :=
  Int.emod_nonneg _ (by have := h.head_nonneg; have := h.head_lt; omega)

theorem InBounds.waiting_lt (h : queue.InBounds) : queue.waiting < queue.capacity :=
  Int.emod_lt_of_pos _ (by have := h.head_nonneg; have := h.head_lt; omega)

theorem InBounds.waiting_eq_zero (h : queue.InBounds) :
    queue.waiting = 0 ↔ queue.head = queue.tail := by
  have hhead : queue.head % queue.capacity = queue.head :=
    Int.emod_eq_of_lt h.head_nonneg h.head_lt
  have htail : queue.tail % queue.capacity = queue.tail :=
    Int.emod_eq_of_lt h.tail_nonneg h.tail_lt
  rw [waiting, ← Int.emod_eq_emod_iff_emod_sub_eq_zero, hhead, htail]
  exact eq_comm

/-- One place further there is one slot less before `tail`. -/
theorem InBounds.waiting_advance (h : queue.InBounds) (hpos : 0 < queue.waiting) :
    (queue.advance 1).waiting = queue.waiting - 1 := by
  have hlt := h.waiting_lt
  have hmod : (queue.advance 1).waiting = (queue.waiting - 1) % queue.capacity := by
    simp only [waiting, SlotQueue.advance, Int.sub_emod_emod, Int.emod_sub_emod, Int.sub_sub]
  rw [hmod]
  exact Int.emod_eq_of_lt (by omega) (by omega)

theorem popQueue_empty (heq : queue.head = queue.tail) :
    popQueue (fuel + 1) queue = .ok (none, queue) :=
  if_pos heq

theorem InBounds.popQueue_next (h : queue.InBounds) (hne : queue.head ≠ queue.tail) :
    popQueue (fuel + 1) queue =
      match queue.behind 0 with
      | none => popQueue fuel (queue.advance 1)
      | some ptr => .ok (some ptr, queue.advance 1) := by
  have hhead : (queue.head + 0) % queue.capacity = queue.head := by
    rw [Int.add_zero]
    exact Int.emod_eq_of_lt h.head_nonneg h.head_lt
  rw [popQueue, if_neg hne, toInt_next h.head_nonneg h.head_lt h.capacity_lt, behind, hhead,
    SlotQueue.advance, ← tmod_next h.head_nonneg]
  rfl

/-- What a call of `pop_queue` does: it ends behind the first slot that is not `NULL`, or at
`tail`. -/
def Pops (queue : SlotQueue α) (result : Except QueueFault (Option α × SlotQueue α)) : Prop :=
  (∃ k ptr, 0 ≤ k ∧ k < queue.waiting ∧ queue.behind k = some ptr ∧
      (∀ j, 0 ≤ j → j < k → queue.behind j = none) ∧
      result = .ok (some ptr, queue.advance (k + 1))) ∨
    (∀ j, 0 ≤ j → j < queue.waiting → queue.behind j = none) ∧
      result = .ok (none, { queue with head := queue.tail })

/-- A slot that is `NULL` is skipped. -/
theorem Pops.skip (h : queue.InBounds) (hpos : 0 < queue.waiting) (hnone : queue.behind 0 = none)
    (hpops : (queue.advance 1).Pops result) : queue.Pops result := by
  have hwaiting := h.waiting_advance hpos
  have hshift {k : Int} (hk : 1 ≤ k) : (queue.advance 1).behind (k - 1) = queue.behind k := by
    rw [behind_advance, Int.add_comm, Int.sub_add_cancel]
  obtain ⟨k, ptr, hk, hlt, hptr, hbefore, hresult⟩ | ⟨hall, hresult⟩ := hpops
  · refine .inl ⟨k + 1, ptr, by omega, by omega, ?_, fun j hj hjk => ?_, ?_⟩
    · rw [← hshift (by omega), Int.add_sub_cancel]
      exact hptr
    · rcases Int.lt_or_le j 1 with hj1 | hj1
      · obtain rfl : j = 0 := by omega
        exact hnone
      · rw [← hshift hj1]
        exact hbefore _ (by omega) (by omega)
    · rw [hresult, advance_advance, Int.add_comm 1]
  · refine .inr ⟨fun j hj hjlt => ?_, hresult⟩
    rcases Int.lt_or_le j 1 with hj1 | hj1
    · obtain rfl : j = 0 := by omega
      exact hnone
    · rw [← hshift hj1]
      exact hall _ (by omega) (by omega)

/-- `pop_queue` returns: the number of slots before `tail` bounds its calls of itself. -/
theorem InBounds.popQueue_pops {fuel : Nat} (h : queue.InBounds) (hfuel : queue.waiting < fuel) :
    queue.Pops (popQueue fuel queue) := by
  induction fuel generalizing queue with
  | zero =>
    have := h.waiting_nonneg
    omega
  | succ fuel ih =>
    by_cases heq : queue.head = queue.tail
    · have hzero := h.waiting_eq_zero.mpr heq
      obtain ⟨slot, head, tail, capacity, resizable⟩ := queue
      obtain rfl : head = tail := heq
      exact .inr ⟨fun j hj hlt => by omega, popQueue_empty rfl⟩
    · have hne := mt h.waiting_eq_zero.mp heq
      have hpos : 0 < queue.waiting := by
        have := h.waiting_nonneg
        omega
      rw [h.popQueue_next heq]
      cases hptr : queue.behind 0 with
      | none =>
        apply Pops.skip h hpos hptr
        exact ih (h.advance 1) (by rw [h.waiting_advance hpos]; omega)
      | some ptr =>
        exact .inl ⟨0, ptr, Int.le_refl 0, hpos, hptr, fun j hj hlt => by omega, rfl⟩

theorem InBounds.popQueue (h : queue.InBounds) (hfuel : 2 ^ 31 ≤ fuel) :
    ∃ ptr queue', SlotQueue.popQueue fuel queue = .ok (ptr, queue') ∧ queue'.InBounds := by
  have hlt := h.waiting_lt
  have hcap := h.capacity_lt
  have hcalls : queue.waiting < fuel := by omega
  obtain ⟨k, ptr, -, -, -, -, hpop⟩ | ⟨-, hpop⟩ := h.popQueue_pops hcalls
  · exact ⟨_, _, hpop, h.advance _⟩
  · rw [← h.advance_waiting] at hpop
    exact ⟨_, _, hpop, h.advance _⟩

/-! ## `push_queue` -/

theorem InBounds.store (h : queue.InBounds) (task : Option α) :
    ∃ queue', queue.store task = .ok queue' ∧ queue'.InBounds := by
  have hpos : 0 < queue.capacity := Int.lt_of_le_of_lt h.tail_nonneg h.tail_lt
  refine ⟨{ queue with
    slot := Function.update queue.slot queue.tail task
    tail := (queue.tail + 1) % queue.capacity }, ?_, h.head_nonneg, h.head_lt,
    Int.emod_nonneg _ (by omega), Int.emod_lt_of_pos _ hpos, h.capacity_lt⟩
  rw [SlotQueue.store, toInt_next h.tail_nonneg h.tail_lt h.capacity_lt,
    ← tmod_next h.tail_nonneg]
  rfl

/-- The queue in the memory that `realloc` returns. -/
def grown (queue : SlotQueue α) (moved : Int → Option α) : SlotQueue α :=
  { queue with
    slot := moved
    capacity := queue.capacity * 2
    tail := (queue.tail + 1) % (queue.capacity * 2) }

theorem InBounds.grown (h : queue.InBounds) (hcap : queue.capacity * 2 < 2 ^ 31)
    (moved : Int → Option α) : (queue.grown moved).InBounds := by
  obtain ⟨hh, hlt, -⟩ := h
  refine ⟨hh, ?_, Int.emod_nonneg _ (by omega), Int.emod_lt_of_pos _ (by omega), hcap⟩
  change queue.head < queue.capacity * 2
  omega

/-- The cases of `push_queue` for a queue whose indices are in the ring. -/
theorem InBounds.pushQueue_eq (h : queue.InBounds) (task : Option α) (moved : Int → Option α) :
    queue.pushQueue task moved =
      if (queue.head + 1) % queue.capacity = queue.tail then
        if queue.resizable = false then .ok queue
        else if queue.capacity * 2 < 2 ^ 31 then (queue.grown moved).store task
        else .error .overflow
      else queue.store task := by
  have hnonneg : 0 ≤ queue.capacity := Int.le_trans h.head_nonneg (Int.le_of_lt h.head_lt)
  rw [SlotQueue.pushQueue, toInt_next h.head_nonneg h.head_lt h.capacity_lt,
    ← tmod_next h.head_nonneg]
  refine if_congr Iff.rfl ?_ rfl
  cases hres : queue.resizable with
  | false => rfl
  | true =>
    by_cases hcap : queue.capacity * 2 < 2 ^ 31
    · have hdouble : toInt (queue.capacity * queueResizeVal) = .ok (queue.capacity * 2) :=
        if_pos (by simp only [queueResizeVal]; omega)
      rw [hdouble, toInt_next h.tail_nonneg h.tail_lt h.capacity_lt, if_neg (by decide : ¬true = false),
        if_pos hcap, SlotQueue.grown, ← tmod_next h.tail_nonneg, hres]
      rfl
    · have hdouble : toInt (queue.capacity * queueResizeVal) = .error .overflow :=
        if_neg (by simp only [queueResizeVal]; omega)
      rw [hdouble, if_neg hcap]
      rfl

/-- A call of `push_queue` keeps the indices in the ring, unless the doubled capacity is no
`int`. -/
theorem InBounds.pushQueue (h : queue.InBounds) (task : Option α) (moved : Int → Option α) :
    (∃ queue', queue.pushQueue task moved = .ok queue' ∧ queue'.InBounds) ∨
      queue.pushQueue task moved = .error .overflow ∧ 2 ^ 31 ≤ queue.capacity * 2 := by
  rw [h.pushQueue_eq]
  split
  · split
    · exact .inl ⟨queue, rfl, h⟩
    split
    · next hcap => exact .inl ((h.grown hcap moved).store task)
    · next hcap => exact .inr ⟨rfl, Int.not_lt.mp hcap⟩
  · exact .inl (h.store task)

end SlotQueue

/-! ## The queue with its memory -/

namespace Queue

variable {q q' : Queue α}

/-- The queue without the bounds of its memory; a slot that was never written counts as `NULL`. -/
def slots (q : Queue α) : SlotQueue α where
  slot
    | .ofNat i => (q.inner.slot i).join
    | .negSucc _ => none
  head := q.head
  tail := q.tail
  capacity := q.capacity
  resizable := q.resizable

theorem slot_of_read (h : q.inner.read i = .ok ptr) : q.slots.slot i = ptr := by
  unfold Inner.read at h
  split at h
  · cases hslot : q.inner.slot i with
    | none =>
      rw [hslot] at h
      cases h
    | some p =>
      rw [hslot] at h
      cases h
      exact congrArg Option.join hslot
  · cases h

/-- A call of `pop_queue` that returns does the same without the bounds of the memory. -/
theorem popQueue_slots (h : q.slots.InBounds) (hpop : popQueueLoop fuel q = .ok (ptr, q')) :
    SlotQueue.popQueue fuel q.slots = .ok (ptr, q'.slots) := by
  induction fuel generalizing q with
  | zero => cases hpop
  | succ fuel ih =>
    rw [popQueueLoop] at hpop
    by_cases heq : q.head = q.tail
    · rw [if_pos heq] at hpop
      cases hpop
      exact SlotQueue.popQueue_empty (congrArg Nat.cast heq)
    · have hne : q.slots.head ≠ q.slots.tail := mt Int.ofNat.inj heq
      rw [if_neg heq] at hpop
      have hnext : { q with head := (q.head + 1) % q.capacity }.slots = q.slots.advance 1 := rfl
      cases hread : q.inner.read q.head with
      | error e =>
        rw [hread] at hpop
        cases hpop
      | ok p =>
        have hslot : q.slots.behind 0 = p := by
          rw [SlotQueue.behind, Int.add_zero, Int.emod_eq_of_lt h.head_nonneg h.head_lt]
          exact slot_of_read hread
        rw [hread] at hpop
        rw [h.popQueue_next hne, hslot]
        cases p with
        | none => exact ih (q := { q with head := (q.head + 1) % q.capacity }) (h.advance 1) hpop
        | some p =>
          cases hpop
          rfl

/-- The slots after a write. -/
theorem slots_write {inner : Inner α} (h : q.inner.write i task = .ok inner) :
    { q with inner }.slots = { q.slots with slot := Function.update q.slots.slot i task } := by
  unfold Inner.write at h
  split at h
  · cases h
    rw [slots, SlotQueue.mk.injEq]
    refine ⟨funext fun j => ?_, rfl, rfl, rfl, rfl⟩
    cases j with
    | ofNat j =>
      by_cases hj : j = i
      · subst hj
        simp
      · have hji : Int.ofNat j ≠ i := mt Int.ofNat.inj hj
        rw [Function.update_of_ne hji]
        simp [hj]
        rfl
    | negSucc j =>
      rw [Function.update_of_ne (by omega)]
      rfl
  · cases h

theorem store_slots (h : q.slots.InBounds) (hstore : q.store task = .ok q') :
    q.slots.store task = .ok q'.slots := by
  rw [Queue.store] at hstore
  cases hwrite : q.inner.write q.tail task with
  | error e =>
    rw [hwrite] at hstore
    cases hstore
  | ok inner =>
    rw [hwrite] at hstore
    cases hstore
    have hslots := slots_write (q := q) hwrite
    rw [SlotQueue.store, SlotQueue.toInt_next h.tail_nonneg h.tail_lt h.capacity_lt]
    have hslot : Function.update q.slots.slot q.slots.tail task = { q with inner }.slots.slot :=
      (congrArg SlotQueue.slot hslots).symm
    rw [hslot]
    rfl

/-- A call of `push_queue` that returns does the same without the bounds of the memory. -/
theorem pushQueue_slots (h : q.slots.InBounds) (hpush : Lethe.pushQueue q task = .ok q') :
    ∃ moved, q.slots.pushQueue task moved = .ok q'.slots := by
  have hfull : (q.slots.head + 1) % q.slots.capacity = q.slots.tail ↔
      (q.head + 1) % q.capacity = q.tail := Int.ofNat_inj
  simp only [h.pushQueue_eq, hfull]
  rw [Lethe.pushQueue] at hpush
  split at hpush
  · next hq =>
    simp only [if_pos hq]
    split at hpush
    · next hres =>
      cases hpush
      exact ⟨fun _ => none, if_pos (Bool.not_eq_true' _ ▸ hres)⟩
    · next hres =>
      have hres' : ¬q.slots.resizable = false := by
        change ¬q.resizable = false
        simpa using hres
      simp only [if_neg hres']
      simp only at hpush
      split at hpush
      · cases hpush
      · next hcap =>
        -- the grown queue, with the contents that `realloc` gives
        let grown : Queue α := { q with
          inner := q.inner.realloc (q.capacity * queueResizeVal)
          capacity := q.capacity * queueResizeVal
          tail := (q.tail + 1) % (q.capacity * queueResizeVal) }
        have hdouble : q.slots.capacity * 2 < 2 ^ 31 := by
          change (q.capacity : Int) * 2 < 2 ^ 31
          simp only [queueResizeVal] at hcap
          omega
        have hgrown : q.slots.grown grown.slots.slot = grown.slots := rfl
        refine ⟨grown.slots.slot, ?_⟩
        rw [if_pos hdouble, hgrown]
        exact store_slots (hgrown ▸ h.grown hdouble _) hpush
  · next hq =>
    simp only [if_neg hq]
    exact ⟨fun _ => none, store_slots h hpush⟩

end Queue

/-! ## Runs -/

/-- A call, or the assignment of `remove_task` to a slot. -/
inductive SlotOp (α : Type)
  | push (task : Option α) (moved : Int → Option α)
  | pop
  | remove (i : Int)

namespace SlotQueue

variable {queue : SlotQueue α}

def step (fuel : Nat) (queue : SlotQueue α) : SlotOp α → Except QueueFault (SlotQueue α)
  | .push task moved => queue.pushQueue task moved
  | .pop => do
    let (_, queue) ← popQueue fuel queue
    pure queue
  | .remove i => .ok { queue with slot := Function.update queue.slot i none }

/-- The next call is a `push_queue` that doubles the capacity to no `int`. -/
def Overflows (queue : SlotQueue α) (op : SlotOp α) : Prop :=
  ∃ task moved, op = .push task moved ∧ queue.pushQueue task moved = .error .overflow ∧
    2 ^ 31 ≤ queue.capacity * 2

theorem InBounds.step (h : queue.InBounds) (hfuel : 2 ^ 31 ≤ fuel) (op : SlotOp α) :
    (∃ queue', queue.step fuel op = .ok queue' ∧ queue'.InBounds) ∨ queue.Overflows op := by
  cases op with
  | push task moved =>
    rcases h.pushQueue task moved with hok | ⟨herror, hcap⟩
    · exact .inl hok
    · exact .inr ⟨task, moved, rfl, herror, hcap⟩
  | pop =>
    obtain ⟨ptr, queue', hpop, h'⟩ := h.popQueue hfuel
    refine .inl ⟨queue', ?_, h'⟩
    rw [SlotQueue.step, hpop]
    rfl
  | remove i =>
    exact .inl ⟨_, rfl, h.head_nonneg, h.head_lt, h.tail_nonneg, h.tail_lt, h.capacity_lt⟩

/-- A run keeps the indices in the ring up to its first call that doubles the capacity to no
`int`. -/
theorem InBounds.run (h : queue.InBounds) (hfuel : 2 ^ 31 ≤ fuel) (ops : List (SlotOp α)) :
    (∃ queue', ops.foldlM (SlotQueue.step fuel) queue = .ok queue' ∧ queue'.InBounds) ∨
      ∃ before op after queue', ops = before ++ op :: after ∧
        before.foldlM (SlotQueue.step fuel) queue = .ok queue' ∧ queue'.Overflows op := by
  induction ops generalizing queue with
  | nil => exact .inl ⟨queue, rfl, h⟩
  | cons op ops ih =>
    rcases h.step hfuel op with ⟨queue₁, hstep, h₁⟩ | hover
    · rw [List.foldlM_cons, hstep]
      rcases ih h₁ with hok | ⟨before, op', after, queue', rfl, hrun, hover⟩
      · exact .inl hok
      · refine .inr ⟨op :: before, op', after, queue', rfl, ?_, hover⟩
        rw [List.foldlM_cons, hstep]
        exact hrun
    · exact .inr ⟨[], op, ops, queue, rfl, rfl, hover⟩

/-- Whatever the slots hold, `pop_queue` returns the first that is not `NULL`, in cyclic order from
`head` up to `tail`, and moves `head` just past it; where there is none it returns `NULL` and moves
`head` to `tail`. It changes nothing else. No run of calls moves an index out of the ring, as long
as the doubled capacities are `int`s. -/
theorem popQueue_skips (queue : SlotQueue α) (h : queue.InBounds) : ∃ bound, ∀ fuel ≥ bound,
    ((∃ k ptr, 0 ≤ k ∧ k < (queue.tail - queue.head) % queue.capacity ∧
          queue.slot ((queue.head + k) % queue.capacity) = some ptr ∧
          (∀ j, 0 ≤ j → j < k → queue.slot ((queue.head + j) % queue.capacity) = none) ∧
          popQueue fuel queue =
            .ok (some ptr, { queue with head := (queue.head + (k + 1)) % queue.capacity })) ∨
        (∀ j, 0 ≤ j → j < (queue.tail - queue.head) % queue.capacity →
            queue.slot ((queue.head + j) % queue.capacity) = none) ∧
          popQueue fuel queue = .ok (none, { queue with head := queue.tail })) ∧
      ∀ ops : List (SlotOp α),
        (∃ queue', ops.foldlM (step fuel) queue = .ok queue' ∧ queue'.InBounds) ∨
          ∃ before op after queue', ops = before ++ op :: after ∧
            before.foldlM (step fuel) queue = .ok queue' ∧ queue'.Overflows op := by
  refine ⟨2 ^ 31, fun fuel hfuel => ⟨?_, fun ops => h.run hfuel ops⟩⟩
  have hlt := h.waiting_lt
  have hcap := h.capacity_lt
  exact h.popQueue_pops (by omega)

/-- A ring of four slots in which the slots 3 and 0 were removed. -/
def removedSlots : SlotQueue Nat where
  slot i := if i = 1 then some 7 else none
  head := 3
  tail := 2
  capacity := 4
  resizable := true

theorem popQueue_skips_removed : removedSlots.InBounds ∧ ∃ bound, ∀ fuel ≥ bound,
    popQueue fuel removedSlots = .ok (some 7, { removedSlots with head := 2 }) := by
  have h : removedSlots.InBounds := by
    constructor <;> decide
  obtain ⟨bound, hpop⟩ := popQueue_skips removedSlots h
  refine ⟨h, bound, fun fuel hfuel => ?_⟩
  obtain ⟨k, ptr, hk, hlt, hptr, hbefore, hresult⟩ | ⟨hall, -⟩ := (hpop fuel hfuel).1
  · have hlt3 : k < 3 := hlt
    obtain rfl : k = 2 := by
      rcases (by omega : k = 0 ∨ k = 1 ∨ k = 2) with rfl | rfl | rfl
      · cases hptr
      · cases hptr
      · rfl
    cases hptr
    exact hresult
  · exact absurd (hall 2 (by decide) (by decide)) (by decide)

end SlotQueue

end Lethe
