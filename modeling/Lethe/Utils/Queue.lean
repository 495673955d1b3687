import Lethe.Lib.Ring

/-!
# The task queue of `lethe-utils/queue.c`

`Queue α` is `queue_t` with `_inner` as the memory last requested from `malloc` or `realloc`:
its size in bytes and the contents of its pointer-sized slots. A slot holds `void*`, that is
`none` for `NULL`; a slot that was never written has no contents. Accesses outside the
requested memory, reads of slots that were never written and a doubled capacity that no longer
fits an `int` stop the run with a fault. `malloc` and `realloc` succeed.
-/

namespace Lethe

/-- Why a queue operation does not return. -/
inductive QueueFault
  /-- A slot outside the memory last requested for `_inner` is read or written. -/
  | outOfBounds
  /-- A slot that was never written is read. -/
  | uninitialised
  /-- The doubled capacity does not fit an `int`. -/
  | overflow
  /-- `pop_queue` calls itself more often than the queue has slots. -/
  | diverges
  deriving DecidableEq, Repr

/-- The memory behind `_inner`. -/
structure Inner (α : Type) where
  bytes : Nat
  slot : Nat → Option (Option α)

namespace Inner

/-- `sizeof(void*)`. -/
def pointerSize : Nat := 8

def malloc (bytes : Nat) : Inner α := ⟨bytes, fun _ => none⟩

/-- `realloc` keeps the slots that lie inside both the old and the new memory. -/
def realloc (m : Inner α) (bytes : Nat) : Inner α where
  bytes := bytes
  slot i := if (i + 1) * pointerSize ≤ min m.bytes bytes then m.slot i else none

def read (m : Inner α) (i : Nat) : Except QueueFault (Option α) :=
  if (i + 1) * pointerSize ≤ m.bytes then
    match m.slot i with
    | some ptr => .ok ptr
    | none => .error .uninitialised
  else .error .outOfBounds

def write (m : Inner α) (i : Nat) (ptr : Option α) : Except QueueFault (Inner α) :=
  if (i + 1) * pointerSize ≤ m.bytes then
    .ok { m with slot := fun j => if j = i then some ptr else m.slot j }
  else .error .outOfBounds

end Inner

/-- `struct queue_t`. -/
structure Queue (α : Type) where
  inner : Inner α
  head : Nat
  tail : Nat
  capacity : Nat
  resizable : Bool

/-- `TASK_QUEUE_SIZE`. -/
def taskQueueSize : Nat := 10

/-- `RESIZE_VAL` of `queue.c`. -/
def queueResizeVal : Nat := 2

/-- The two statements that end `push_queue`. -/
def Queue.store (queue : Queue α) (task : Option α) : Except QueueFault (Queue α) := do
  let inner ← queue.inner.write queue.tail task
  pure { queue with inner, tail := (queue.tail + 1) % queue.capacity }

/-- `push_queue`. -/
def pushQueue (queue : Queue α) (task : Option α) : Except QueueFault (Queue α) :=
  if (queue.head + 1) % queue.capacity = queue.tail then
    if !queue.resizable then .ok queue
    else
      let capacity := queue.capacity * queueResizeVal
      if 2 ^ 31 ≤ capacity then .error .overflow
      else
        -- `realloc` is given the number of slots, not their size in bytes
        let inner := queue.inner.realloc capacity
        { queue with inner, capacity, tail := (queue.tail + 1) % capacity }.store task
  else queue.store task

/-- `pop_queue`, with a bound on its calls of itself. -/
def popQueueLoop : Nat → Queue α → Except QueueFault (Option α × Queue α)
  | 0, _ => .error .diverges
  | fuel + 1, queue =>
    if queue.head = queue.tail then .ok (none, queue)
    else do
      let ptr ← queue.inner.read queue.head
      let queue := { queue with head := (queue.head + 1) % queue.capacity }
      match ptr with
      | none => popQueueLoop fuel queue
      | some ptr => pure (some ptr, queue)

/-- `pop_queue`. One call for each occupied slot and a last one always suffice
(`Queue.WF.popQueue`). -/
def popQueue (queue : Queue α) : Except QueueFault (Option α × Queue α) :=
  popQueueLoop queue.capacity queue

/-- `rotate_queue`. -/
def rotateQueue (queue : Queue α) : Except QueueFault (Option α × Queue α) := do
  let (ptr, queue) ← popQueue queue
  let queue ← pushQueue queue ptr
  pure (ptr, queue)

/-- `new_queue`. -/
def newQueue : Queue α where
  inner := .malloc (taskQueueSize * Inner.pointerSize)
  head := 0
  tail := 0
  capacity := taskQueueSize
  resizable := false

/-- `new_queue_resizable`. -/
def newQueueResizable : Queue α := { newQueue with resizable := true }

/-! ## Memory lemmas -/

namespace Inner

variable {m m' : Inner α}

theorem write_ok (h : (i + 1) * pointerSize ≤ m.bytes) (ptr : Option α) :
    m.write i ptr = .ok { m with slot := fun j => if j = i then some ptr else m.slot j } :=
  if_pos h

theorem read_write_self (h : m.write i ptr = .ok m') : m'.read i = .ok ptr := by
  unfold write at h
  split at h <;> cases h
  simp_all [read]

theorem read_write_of_ne (h : m.write i ptr = .ok m') (hne : j ≠ i) : m'.read j = m.read j := by
  unfold write at h
  split at h <;> cases h
  simp [read, hne]

theorem write_bytes (h : m.write i ptr = .ok m') : m'.bytes = m.bytes := by
  unfold write at h
  split at h <;> cases h
  rfl

end Inner

/-! ## The occupied part -/

namespace Queue

variable {q q' : Queue α}

/-- The number of slots from `head` up to `tail`, cyclically. -/
def size (q : Queue α) : Nat := Ring.dist q.capacity q.head q.tail

/-- The slots from `head` up to `tail`, cyclically. -/
def occupied (q : Queue α) : List Nat := Ring.walk q.capacity q.head q.size

/-- The occupied slots can be read and contain `ptrs`, oldest first. -/
def Contains (q : Queue α) (ptrs : List (Option α)) : Prop :=
  q.occupied.map q.inner.read = ptrs.map .ok

/-- The elements queued in `q` are `xs`, oldest first; slots that hold `NULL` do not count. -/
def Holds (q : Queue α) (xs : List α) : Prop := ∃ ptrs, q.Contains ptrs ∧ ptrs.filterMap id = xs

/-- The indices lie in the ring and every slot of the ring lies in the requested memory. -/
structure WF (q : Queue α) : Prop where
  head_lt : q.head < q.capacity
  tail_lt : q.tail < q.capacity
  bytes_eq : q.inner.bytes = q.capacity * Inner.pointerSize

theorem Contains.unique (h : q.Contains ptrs) (h' : q.Contains ptrs') : ptrs = ptrs' :=
  List.map_injective_iff.mpr (fun _ _ => Except.ok.inj) (h.symm.trans h')

theorem Holds.unique (h : q.Holds xs) (h' : q.Holds ys) : xs = ys := by
  obtain ⟨ptrs, hp, rfl⟩ := h
  obtain ⟨ptrs', hp', rfl⟩ := h'
  rw [hp.unique hp']

theorem Contains.length_eq (h : q.Contains ptrs) : ptrs.length = q.size := by
  simpa [occupied] using (congrArg List.length h).symm

theorem Holds.length_le (h : q.Holds xs) : xs.length ≤ q.size := by
  obtain ⟨ptrs, hp, rfl⟩ := h
  exact hp.length_eq ▸ List.length_filterMap_le id ptrs

/-- The oldest occupied slot of a readable queue lies inside the memory. -/
theorem Contains.head_inBounds (h : q.Contains ptrs) (hne : q.size ≠ 0) :
    (q.head + 1) * Inner.pointerSize ≤ q.inner.bytes := by
  obtain ⟨n, hn⟩ := Nat.exists_eq_succ_of_ne_zero hne
  rw [Contains, occupied, hn, Ring.walk_succ, List.map_cons] at h
  cases ptrs with
  | nil => cases h
  | cons ptr ptrs =>
    by_contra hlt
    have hread := (List.cons.inj h).1
    rw [Inner.read, if_neg hlt] at hread
    cases hread

theorem store_inv (h : q.store task = .ok q') :
    (q.tail + 1) * Inner.pointerSize ≤ q.inner.bytes ∧
      ∃ m, q.inner.write q.tail task = .ok m ∧ q' = { q with inner := m, tail := (q.tail + 1) % q.capacity } := by
  unfold Queue.store at h
  cases hw : q.inner.write q.tail task with
  | error e => rw [hw] at h; cases h
  | ok m =>
    rw [hw] at h
    refine ⟨?_, m, rfl, (Except.ok.inj h).symm⟩
    by_contra hlt
    rw [Inner.write, if_neg hlt] at hw
    cases hw

namespace WF

theorem size_eq_zero (hq : q.WF) : q.size = 0 ↔ q.head = q.tail :=
  Ring.dist_eq_zero hq.head_lt hq.tail_lt

theorem holds_nil (hq : q.WF) (h : q.head = q.tail) : q.Holds [] :=
  ⟨[], by simp [Contains, occupied, hq.size_eq_zero.mpr h], rfl⟩

theorem inBounds (hq : q.WF) (h : i < q.capacity) :
    (i + 1) * Inner.pointerSize ≤ q.inner.bytes := by
  rw [hq.bytes_eq]
  exact Nat.mul_le_mul_right _ h

/-- Storing at `tail` appends one slot to the occupied part, provided one slot stays free. -/
theorem store (hq : q.WF) (hfree : (q.tail + 1) % q.capacity ≠ q.head) (task : Option α) :
    ∃ q', q.store task = .ok q' ∧ q'.WF ∧ q'.size = q.size + 1 ∧ q'.head = q.head ∧
      q'.capacity = q.capacity ∧ q'.resizable = q.resizable ∧
      ∀ ptrs, q.Contains ptrs → q'.Contains (ptrs ++ [task]) := by
  obtain ⟨m, hw⟩ : ∃ m, q.inner.write q.tail task = .ok m :=
    ⟨_, Inner.write_ok (hq.inBounds hq.tail_lt) task⟩
  refine ⟨{ q with inner := m, tail := (q.tail + 1) % q.capacity },
    by simp only [Queue.store, hw]; rfl,
    ⟨hq.head_lt, Ring.next_lt hq.tail_lt, (Inner.write_bytes hw).trans hq.bytes_eq⟩,
    Ring.dist_next_right hq.head_lt hq.tail_lt hfree, rfl, rfl, rfl, fun ptrs hp => ?_⟩
  have hwalk := Ring.walk_dist_next hq.head_lt hq.tail_lt hfree
  simp only [Contains, occupied, size, Ring.next] at hp hwalk ⊢
  rw [hwalk, List.map_append, List.map_append]
  refine congr_arg₂ (· ++ ·) (hp ▸ List.map_congr_left fun i hi => ?_) ?_
  · exact Inner.read_write_of_ne hw fun h =>
      Ring.tail_not_mem_walk hq.head_lt hq.tail_lt (h ▸ hi)
  · simpa using Inner.read_write_self hw

/-- A push that passes both full tests appends its element. -/
theorem push (hq : q.WF) (hfull : (q.head + 1) % q.capacity ≠ q.tail)
    (hfree : (q.tail + 1) % q.capacity ≠ q.head) (task : Option α) :
    ∃ q', pushQueue q task = .ok q' ∧ q'.WF ∧ q'.size = q.size + 1 ∧ q'.head = q.head ∧
      q'.capacity = q.capacity ∧ q'.resizable = q.resizable ∧
      ∀ xs, q.Holds xs → q'.Holds (xs ++ task.toList) := by
  obtain ⟨q', h, hq', hs, hh, hc, hr, hcont⟩ := hq.store hfree task
  refine ⟨q', by rw [pushQueue, if_neg hfull, h], hq', hs, hh, hc, hr, ?_⟩
  rintro xs ⟨ptrs, hp, rfl⟩
  exact ⟨_, hcont _ hp, by cases task <;> simp⟩

/-- `pop_queue` with enough calls returns the oldest element and leaves the others; it moves
`head` past the slots it has read and changes nothing else. -/
theorem popLoop (hq : q.WF) (hf : q.size < fuel) (hx : q.Holds xs) :
    ∃ h, popQueueLoop fuel q = .ok (xs.head?, { q with head := h }) ∧
      { q with head := h }.WF ∧ { q with head := h }.size ≤ q.size - 1 ∧
      { q with head := h }.Holds xs.tail := by
  induction fuel generalizing q xs with
  | zero => omega
  | succ fuel ih =>
    obtain ⟨ptrs, hp, rfl⟩ := hx
    by_cases he : q.head = q.tail
    · have hz := hq.size_eq_zero.mpr he
      have : ptrs = [] := List.length_eq_zero_iff.mp (hp.length_eq.trans hz)
      subst this
      exact ⟨q.head, by rw [popQueueLoop, if_pos he]; rfl, hq, Nat.le_of_eq (hz.trans (by omega)),
        hq.holds_nil he⟩
    · -- one slot is read; the rest of the occupied part is that of the queue with `head` moved
      let q₁ : Queue α := { q with head := Ring.next q.capacity q.head }
      have hq₁ : q₁.WF := ⟨Ring.next_lt hq.head_lt, hq.tail_lt, hq.bytes_eq⟩
      have hs : q.size = q₁.size + 1 := Ring.dist_next_left hq.head_lt hq.tail_lt he
      cases ptrs with
      | nil => have := hp.length_eq; simp [hs] at this
      | cons ptr ptrs =>
        simp only [Contains, occupied, hs, Ring.walk_succ, List.map_cons, List.cons.injEq] at hp
        obtain ⟨hread, hp₁⟩ : q.inner.read q.head = .ok ptr ∧ q₁.Contains ptrs := hp
        simp only [popQueueLoop, if_neg he, hread]
        cases ptr with
        | none =>
          obtain ⟨h, hpop, hw, hsz, hxs⟩ := ih hq₁ (by omega) ⟨ptrs, hp₁, rfl⟩
          exact ⟨h, hpop, hw, Nat.le_trans hsz (by omega), hxs⟩
        | some ptr =>
          exact ⟨Ring.next q.capacity q.head, rfl, hq₁, by change q₁.size ≤ _; omega,
            ptrs, hp₁, rfl⟩

theorem popQueue (hq : q.WF) (hx : q.Holds xs) :
    ∃ h, popQueue q = .ok (xs.head?, { q with head := h }) ∧
      { q with head := h }.WF ∧ { q with head := h }.size ≤ q.size - 1 ∧
      { q with head := h }.Holds xs.tail :=
  hq.popLoop (Ring.dist_lt hq.head_lt) hx

end WF

theorem wf_newQueue : (newQueue : Queue α).WF :=
  ⟨Nat.zero_lt_succ _, Nat.zero_lt_succ _, rfl⟩

theorem wf_newQueueResizable : (newQueueResizable : Queue α).WF :=
  ⟨Nat.zero_lt_succ _, Nat.zero_lt_succ _, rfl⟩

end Queue

end Lethe
