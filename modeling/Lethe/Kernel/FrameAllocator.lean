import Lethe.Kernel.Machine
import Mathlib.Data.List.Nodup

/-!
# The frame allocator of `memory/initial_frame_allocator.c`

The memory map is the list of its entries. `allocateFrame` recurses once for each usable entry
that is left, since `next_usable` marks the entry it takes.

`FrameAllocator.pending` are the frames that are still to be returned; `allocateFrame_spec` says
that a call takes the first of them. `initFrameAllocator_exact` is the result for whole runs.
-/

namespace Lethe

/-- `LIMINE_MEMMAP_USABLE`. -/
def memmapUsable : BitVec 64 := 0

/-- `KERNEL_USED`. -/
def kernelUsed : BitVec 64 := 0xA9

namespace MemmapEntry

def usable (e : MemmapEntry) : Bool := e.type = memmapUsable

end MemmapEntry

/-- The loop of `next_usable`: the entry it takes and the map with that entry marked. -/
def nextUsableLoop : List MemmapEntry → Option (MemmapEntry × List MemmapEntry)
  | [] => none
  | entry :: entries =>
    if entry.usable then some (entry, { entry with type := kernelUsed } :: entries)
    else (nextUsableLoop entries).map fun (e, entries) => (e, entry :: entries)

/-- `next_usable`. -/
def nextUsable (allocator : FrameAllocator) : Except Panic FrameAllocator :=
  match nextUsableLoop allocator.memoryMap with
  | some (entry, memoryMap) =>
    .ok { memoryMap, next := { start := false, base := entry.base, length := entry.length } }
  | none => .error .couldNotFindFreeEntry

theorem nextUsableLoop_countP {entries : List MemmapEntry}
    (h : nextUsableLoop entries = some (e, entries')) :
    entries.countP (·.usable) = entries'.countP (·.usable) + 1 := by
  induction entries generalizing entries' with
  | nil => cases h
  | cons entry entries ih =>
    rw [nextUsableLoop] at h
    split at h
    · rename_i husable
      cases h
      have hmarked (e : MemmapEntry) : MemmapEntry.usable { e with type := kernelUsed } = false := rfl
      simp [husable, hmarked]
    · rename_i husable
      simp only [Option.map_eq_some_iff, Prod.exists, Prod.mk.injEq] at h
      obtain ⟨e₁, entries₁, h, rfl, rfl⟩ := h
      simp [husable, ih h]

theorem nextUsable_countP (h : nextUsable a = .ok a') :
    a'.memoryMap.countP (·.usable) < a.memoryMap.countP (·.usable) := by
  unfold nextUsable at h
  split at h
  · rename_i hloop
    cases h
    rw [nextUsableLoop_countP hloop]
    exact Nat.lt_succ_self _
  · cases h

/-- The adjustment of `next` in `allocate_frame` when its base is 0. -/
def Frame.skipZero (next : Frame) : Frame :=
  if next.base = 0 then
    { next with base := next.base + pageSize, length := next.length - pageSize }
  else next

/-- `allocate_frame`. -/
def allocateFrame (m : Machine) : Except Panic (BitVec 64 × Machine) :=
  if m.allocator.next.start then .ok (0, m)
  else
    let next := m.allocator.next.skipZero
    if next.length < 4096 then
      match _h : nextUsable { m.allocator with next } with
      | .error e => .error e
      | .ok allocator => allocateFrame { m with allocator }
    else
      let addr := next.base
      let next := { next with base := next.base + pageSize, length := next.length - pageSize }
      let m := { m with allocator := { m.allocator with next } }
      .ok (addr, m.zeroPage (addr + m.hhdmMapping))
termination_by m.allocator.memoryMap.countP (·.usable)
decreasing_by exact nextUsable_countP _h

/-- `init_frame_allocator`. -/
def initFrameAllocator (m : Machine) (memoryMap : List MemmapEntry) : Except Panic Machine :=
  (nextUsable { memoryMap, next := { start := true, base := 0, length := 0 } }).map fun allocator =>
    { m with allocator }

/-- The results of up to `n` calls of `allocate_frame`, and how they ended. -/
def allocateFrames : Nat → Machine → List (BitVec 64) × Except Panic Machine
  | 0, m => ([], .ok m)
  | n + 1, m =>
    match allocateFrame m with
    | .error e => ([], .error e)
    | .ok (frame, m) =>
      let (frames, result) := allocateFrames n m
      (frame :: frames, result)

/-! ## The frames of an entry -/

/-- The frames of the range of `length` bytes at `base`, without frame 0. -/
def framesOf (base length : BitVec 64) : List (BitVec 64) :=
  ((List.range (length.toNat / 4096)).map fun i => base + BitVec.ofNat 64 (4096 * i)).filter (· ≠ 0)

/-- The frames of the usable entries of a memory map, in map order, without frame 0. -/
def usableFrames (memoryMap : List MemmapEntry) : List (BitVec 64) :=
  (memoryMap.filter (·.usable)).flatMap fun e => framesOf e.base e.length

/-- A range of whole frames whose end is an address. -/
structure FrameRange (base length : BitVec 64) : Prop where
  base_aligned : base.toNat % 4096 = 0
  length_aligned : length.toNat % 4096 = 0
  end_lt : base.toNat + length.toNat < 2 ^ 64

/-- What the Limine protocol promises of a memory map. -/
structure WellFormedMap (memoryMap : List MemmapEntry) : Prop where
  range : ∀ e ∈ memoryMap, e.usable → FrameRange e.base e.length
  nonempty : ∀ e ∈ memoryMap, e.usable → e.length ≠ 0
  disjoint : memoryMap.Pairwise fun e e' => e.usable → e'.usable →
    e.base.toNat + e.length.toNat ≤ e'.base.toNat ∨ e'.base.toNat + e'.length.toNat ≤ e.base.toNat

instance : Decidable (FrameRange base length) :=
  decidable_of_iff (base.toNat % 4096 = 0 ∧ length.toNat % 4096 = 0 ∧
      base.toNat + length.toNat < 2 ^ 64)
    ⟨fun ⟨h₁, h₂, h₃⟩ => ⟨h₁, h₂, h₃⟩, fun ⟨h₁, h₂, h₃⟩ => ⟨h₁, h₂, h₃⟩⟩

instance : Decidable (WellFormedMap memoryMap) :=
  decidable_of_iff ((∀ e ∈ memoryMap, e.usable → FrameRange e.base e.length) ∧
      (∀ e ∈ memoryMap, e.usable → e.length ≠ 0) ∧
      memoryMap.Pairwise fun e e' => e.usable → e'.usable →
        e.base.toNat + e.length.toNat ≤ e'.base.toNat ∨
          e'.base.toNat + e'.length.toNat ≤ e.base.toNat)
    ⟨fun ⟨h₁, h₂, h₃⟩ => ⟨h₁, h₂, h₃⟩, fun ⟨h₁, h₂, h₃⟩ => ⟨h₁, h₂, h₃⟩⟩

theorem framesOf_of_lt (h : length < 4096) : framesOf base length = [] := by
  have : length.toNat / 4096 = 0 := Nat.div_eq_of_lt h
  simp [framesOf, this]

theorem FrameRange.tail (h : FrameRange base length) (hlen : ¬ length < 4096) :
    FrameRange (base + pageSize) (length - pageSize) := by
  obtain ⟨hbase, hlength, hend⟩ := h
  have hlen : 4096 ≤ length.toNat := Nat.le_of_not_lt hlen
  constructor <;> simp only [BitVec.toNat_add, BitVec.toNat_sub, toNat_pageSize] <;> omega

theorem framesOf_step (hlen : ¬ length < 4096) :
    framesOf base length =
      if base = 0 then framesOf (base + pageSize) (length - pageSize)
      else base :: framesOf (base + pageSize) (length - pageSize) := by
  have hlen : 4096 ≤ length.toNat := Nat.le_of_not_lt hlen
  have hdiv : length.toNat / 4096 = (length - pageSize).toNat / 4096 + 1 := by
    simp only [BitVec.toNat_sub, toNat_pageSize]
    omega
  have hshift (i : Nat) : base + BitVec.ofNat 64 (4096 * (i + 1)) =
      base + pageSize + BitVec.ofNat 64 (4096 * i) := by
    apply BitVec.eq_of_toNat_eq
    simp only [BitVec.toNat_add, BitVec.toNat_ofNat, toNat_pageSize]
    omega
  unfold framesOf
  rw [hdiv, List.range_succ_eq_map]
  simp only [List.map_cons, List.map_map, Function.comp_def, Nat.succ_eq_add_one, hshift,
    List.filter_cons, Nat.mul_zero, BitVec.add_zero, ne_eq, decide_not, Bool.not_eq_true',
    decide_eq_false_iff_not, ite_not]

/-- The frames of a range are its aligned addresses other than 0. -/
theorem mem_framesOf (h : FrameRange base length) : f ∈ framesOf base length ↔
    f ≠ 0 ∧ f.toNat % 4096 = 0 ∧ base.toNat ≤ f.toNat ∧
      f.toNat + 4096 ≤ base.toNat + length.toNat := by
  obtain ⟨hbase, hlength, hend⟩ := h
  simp only [framesOf, List.mem_filter, List.mem_map, List.mem_range, decide_eq_true_eq]
  constructor
  · rintro ⟨⟨i, hi, rfl⟩, hne⟩
    simp only [BitVec.toNat_add, BitVec.toNat_ofNat]
    exact ⟨hne, by omega, by omega, by omega⟩
  · rintro ⟨hne, hal, hle, hlt⟩
    refine ⟨⟨(f.toNat - base.toNat) / 4096, by omega, BitVec.eq_of_toNat_eq ?_⟩, hne⟩
    simp only [BitVec.toNat_add, BitVec.toNat_ofNat]
    omega

theorem length_framesOf (h : FrameRange base length) (hne : base ≠ 0) :
    (framesOf base length).length = length.toNat / 4096 := by
  rw [framesOf, List.filter_eq_self.mpr, List.length_map, List.length_range]
  intro f hf
  obtain ⟨i, hi, rfl⟩ := List.mem_map.mp hf
  have hi := List.mem_range.mp hi
  have hend := h.end_lt
  refine decide_eq_true fun hzero => hne (BitVec.eq_of_toNat_eq ?_)
  have hsum : (base.toNat + 4096 * i % 2 ^ 64) % 2 ^ 64 = 0 := congrArg BitVec.toNat hzero
  show base.toNat = 0
  omega

theorem nodup_framesOf (h : FrameRange base length) : (framesOf base length).Nodup := by
  refine List.Nodup.sublist List.filter_sublist (List.Nodup.map_on (fun i hi j hj heq => ?_) List.nodup_range)
  have := h.end_lt
  simp only [List.mem_range] at hi hj
  have := congrArg BitVec.toNat heq
  simp only [BitVec.toNat_add, BitVec.toNat_ofNat] at this
  omega

/-! ## The frames that are left -/

namespace FrameAllocator

/-- The frames that are still to be returned. -/
def pending (a : FrameAllocator) : List (BitVec 64) :=
  framesOf a.next.base a.next.length ++ usableFrames a.memoryMap

/-- An initialised allocator whose ranges are well formed. -/
structure Inv (a : FrameAllocator) : Prop where
  started : a.next.start = false
  range : FrameRange a.next.base a.next.length
  base_zero : a.next.base = 0 → a.next.length ≠ 0
  entries : ∀ e ∈ a.memoryMap, e.usable → FrameRange e.base e.length ∧ e.length ≠ 0

end FrameAllocator

theorem nextUsableLoop_spec (entries : List MemmapEntry) :
    (nextUsableLoop entries = none ∧ ∀ e ∈ entries, e.usable = false) ∨
      ∃ e entries', nextUsableLoop entries = some (e, entries') ∧ e ∈ entries ∧ e.usable ∧
        usableFrames entries = framesOf e.base e.length ++ usableFrames entries' ∧
        ∀ e' ∈ entries', e'.usable → e' ∈ entries := by
  induction entries with
  | nil => exact .inl ⟨rfl, nofun⟩
  | cons entry entries ih =>
    rw [nextUsableLoop]
    by_cases husable : entry.usable
    · refine .inr ⟨entry, _, if_pos husable, List.mem_cons_self, husable, ?_, ?_⟩
      · have hmarked : MemmapEntry.usable { entry with type := kernelUsed } = false := rfl
        simp [usableFrames, husable, hmarked]
      · intro e' he' hu
        rcases List.mem_cons.mp he' with rfl | he'
        · cases hu
        · exact List.mem_cons_of_mem _ he'
    · rw [if_neg husable]
      rcases ih with ⟨hnone, hall⟩ | ⟨e, entries', hsome, hmem, hu, hframes, hsub⟩
      · refine .inl ⟨by rw [hnone]; rfl, fun e he => ?_⟩
        rcases List.mem_cons.mp he with rfl | he
        · simpa using husable
        · exact hall e he
      · refine .inr ⟨e, entry :: entries', by rw [hsome]; rfl, List.mem_cons_of_mem _ hmem, hu, ?_, ?_⟩
        · simpa [usableFrames, List.filter_cons, husable] using hframes
        · intro e' he' hu'
          rcases List.mem_cons.mp he' with rfl | he'
          · exact List.mem_cons_self
          · exact List.mem_cons_of_mem _ (hsub e' he' hu')

theorem usableFrames_eq_nil {entries : List MemmapEntry} (h : ∀ e ∈ entries, e.usable = false) :
    usableFrames entries = [] := by
  have : entries.filter (·.usable) = [] := by simpa using h
  rw [usableFrames, this]
  rfl

/-- `next_usable` takes the frames of the first usable entry, or panics when there is none. -/
theorem nextUsable_spec {a : FrameAllocator}
    (h : ∀ e ∈ a.memoryMap, e.usable → FrameRange e.base e.length ∧ e.length ≠ 0) :
    (nextUsable a = .error .couldNotFindFreeEntry ∧ ∀ e ∈ a.memoryMap, e.usable = false) ∨
      ∃ a', nextUsable a = .ok a' ∧ a'.Inv ∧ a'.pending = usableFrames a.memoryMap ∧
        ∃ e ∈ a.memoryMap, e.usable := by
  unfold nextUsable
  rcases nextUsableLoop_spec a.memoryMap with ⟨hnone, hall⟩ | ⟨e, entries', hsome, hmem, hu, hframes, hsub⟩
  · exact .inl ⟨by rw [hnone], hall⟩
  · obtain ⟨hrange, hlen⟩ := h e hmem hu
    refine .inr ⟨⟨entries', false, e.base, e.length⟩, by rw [hsome],
      ⟨rfl, hrange, fun _ => hlen, fun e' he' hu' => ?_⟩, hframes.symm, e, hmem, hu⟩
    exact h e' (hsub e' he' hu') hu'

namespace Frame

@[simp] theorem skipZero_start (next : Frame) : next.skipZero.start = next.start := by
  unfold skipZero
  split <;> rfl

/-- Skipping frame 0 keeps the range well formed and its frames. -/
theorem skipZero_spec {next : Frame} (h : FrameRange next.base next.length)
    (hzero : next.base = 0 → next.length ≠ 0) :
    FrameRange next.skipZero.base next.skipZero.length ∧ next.skipZero.base ≠ 0 ∧
      framesOf next.skipZero.base next.skipZero.length = framesOf next.base next.length := by
  unfold skipZero
  split
  · rename_i hb
    have hlen : ¬ next.length < 4096 := by
      intro hlt
      have hne := hzero hb
      have hal := h.length_aligned
      have hlt : next.length.toNat < 4096 := hlt
      exact hne (BitVec.eq_of_toNat_eq (show next.length.toNat = 0 by omega))
    refine ⟨h.tail hlen, ?_, ?_⟩
    · show next.base + pageSize ≠ 0
      rw [hb]
      decide
    · rw [framesOf_step hlen, if_pos hb]
  · rename_i hb
    exact ⟨h, hb, rfl⟩

end Frame

/-- A call of `allocate_frame` returns the first pending frame, zero-filled. -/
theorem allocateFrame_spec {m : Machine} (h : m.allocator.Inv) :
    (m.allocator.pending = [] ∧ allocateFrame m = .error .couldNotFindFreeEntry) ∨
      ∃ f a, allocateFrame m =
          .ok (f, { m with allocator := a }.zeroPage (f + m.hhdmMapping)) ∧
        m.allocator.pending = f :: a.pending ∧ a.Inv := by
  obtain ⟨hrange, hne, hframes⟩ := Frame.skipZero_spec h.range h.base_zero
  rw [allocateFrame, if_neg (by simp [h.started])]
  by_cases hlen : m.allocator.next.skipZero.length < 4096
  · -- the range is used up: the answer is that of the allocator after `next_usable`
    have hpend : m.allocator.pending = usableFrames m.allocator.memoryMap := by
      rw [FrameAllocator.pending, ← hframes, framesOf_of_lt hlen, List.nil_append]
    simp only [hlen, if_true]
    rcases nextUsable_spec (a := { m.allocator with next := m.allocator.next.skipZero }) h.entries
      with ⟨herr, hall⟩ | ⟨a', hok, hinv, hpend', -⟩
    · left
      rw [hpend, usableFrames_eq_nil hall]
      refine ⟨rfl, ?_⟩
      split
      · rename_i heq
        rw [herr] at heq
        cases heq
        rfl
      · rename_i heq
        rw [herr] at heq
        cases heq
    · have hdec := nextUsable_countP hok
      rw [hpend, ← hpend']
      split
      · rename_i heq
        rw [hok] at heq
        cases heq
      · rename_i heq
        rw [hok] at heq
        cases heq
        exact allocateFrame_spec (m := { m with allocator := a' }) hinv
  · right
    simp only [hlen, if_false]
    have hstart : m.allocator.next.skipZero.start = false := by
      rw [Frame.skipZero_start, h.started]
    refine ⟨_, _, rfl, ?_, hstart, hrange.tail hlen, ?_, h.entries⟩
    · rw [FrameAllocator.pending, ← hframes, framesOf_step hlen, if_neg hne]
      rfl
    · intro hzero
      have hend := hrange.end_lt
      have hlen : 4096 ≤ m.allocator.next.skipZero.length.toNat := Nat.le_of_not_lt hlen
      have := congrArg BitVec.toNat hzero
      simp only [BitVec.toNat_add, toNat_pageSize] at this
      rw [Nat.mod_eq_of_lt (by omega)] at this
      exact absurd this (Nat.succ_ne_zero _)
termination_by m.allocator.memoryMap.countP (·.usable)

/-- Pending frames are aligned and not frame 0. -/
theorem FrameAllocator.Inv.mem_pending {a : FrameAllocator} (h : a.Inv) (hf : f ∈ a.pending) :
    f ≠ 0 ∧ f.toNat % 4096 = 0 := by
  rcases List.mem_append.mp hf with hf | hf
  · obtain ⟨hne, hal, -⟩ := (mem_framesOf h.range).mp hf
    exact ⟨hne, hal⟩
  · obtain ⟨e, he, hf⟩ := List.mem_flatMap.mp hf
    obtain ⟨he, hu⟩ := List.mem_filter.mp he
    obtain ⟨hne, hal, -⟩ := (mem_framesOf (h.entries e he hu).1).mp hf
    exact ⟨hne, hal⟩

/-! ## Runs -/

theorem allocateFrames_spec {m : Machine} (h : m.allocator.Inv) (n : Nat) :
    (allocateFrames n m).1 = m.allocator.pending.take n ∧
      ((n ≤ m.allocator.pending.length ∧ ∃ m', (allocateFrames n m).2 = .ok m') ∨
        (m.allocator.pending.length < n ∧
          (allocateFrames n m).2 = .error .couldNotFindFreeEntry)) := by
  induction n generalizing m with
  | zero => exact ⟨rfl, .inl ⟨Nat.zero_le _, m, rfl⟩⟩
  | succ n ih =>
    rcases allocateFrame_spec h with ⟨hnil, herr⟩ | ⟨f, a, hok, hcons, ha⟩
    · simp [allocateFrames, herr, hnil]
    · have := ih (m := { m with allocator := a }.zeroPage (f + m.hhdmMapping)) ha
      rw [Machine.zeroPage_allocator] at this
      simpa [allocateFrames, hok, hcons] using this

theorem mem_usableFrames (h : WellFormedMap memoryMap) : f ∈ usableFrames memoryMap ↔
    ∃ e ∈ memoryMap, e.usable ∧ f ≠ 0 ∧ f.toNat % 4096 = 0 ∧ e.base.toNat ≤ f.toNat ∧
      f.toNat + 4096 ≤ e.base.toNat + e.length.toNat := by
  simp only [usableFrames, List.mem_flatMap, List.mem_filter]
  constructor
  · rintro ⟨e, ⟨he, hu⟩, hf⟩
    exact ⟨e, he, hu, (mem_framesOf (h.range e he hu)).mp hf⟩
  · rintro ⟨e, he, hu, hf⟩
    exact ⟨e, ⟨he, hu⟩, (mem_framesOf (h.range e he hu)).mpr hf⟩

theorem nodup_usableFrames (h : WellFormedMap memoryMap) : (usableFrames memoryMap).Nodup := by
  rw [usableFrames, List.nodup_flatMap]
  refine ⟨fun e he => ?_, ?_⟩
  · obtain ⟨he, hu⟩ := List.mem_filter.mp he
    exact nodup_framesOf (h.range e he hu)
  · rw [List.pairwise_filter]
    refine h.disjoint.imp_of_mem fun {e e'} he he' hdis hu hu' f hf hf' => ?_
    obtain ⟨-, -, hle, hlt⟩ := (mem_framesOf (h.range e he hu)).mp hf
    obtain ⟨-, -, hle', hlt'⟩ := (mem_framesOf (h.range e' he' hu')).mp hf'
    rcases hdis hu hu' with hd | hd <;> omega

/-- After `init_frame_allocator` the calls of `allocate_frame` return the frames of the usable
entries in map order, frame 0 left out, and panic exactly when these are exhausted;
`init_frame_allocator` itself panics exactly when no entry is usable. -/
theorem initFrameAllocator_exact (m : Machine) (memoryMap : List MemmapEntry)
    (h : WellFormedMap memoryMap) (n : Nat) :
    (match initFrameAllocator m memoryMap with
      | .error e => e = .couldNotFindFreeEntry ∧ usableFrames memoryMap = [] ∧
          ∀ e ∈ memoryMap, e.usable = false
      | .ok m' => (∃ e ∈ memoryMap, e.usable) ∧
          (allocateFrames n m').1 = (usableFrames memoryMap).take n ∧
          ((∃ m'', (allocateFrames n m').2 = .ok m'') ↔ n ≤ (usableFrames memoryMap).length) ∧
          ((allocateFrames n m').2 = .error .couldNotFindFreeEntry ↔
            (usableFrames memoryMap).length < n)) ∧
      (usableFrames memoryMap).Nodup ∧
      ∀ f, f ∈ usableFrames memoryMap ↔ ∃ e ∈ memoryMap, e.usable ∧ f ≠ 0 ∧ f.toNat % 4096 = 0 ∧
        e.base.toNat ≤ f.toNat ∧ f.toNat + 4096 ≤ e.base.toNat + e.length.toNat := by
  refine ⟨?_, nodup_usableFrames h, fun f => mem_usableFrames h⟩
  rcases nextUsable_spec (a := ⟨memoryMap, true, 0, 0⟩)
    (fun e he hu => ⟨h.range e he hu, h.nonempty e he hu⟩) with ⟨herr, hall⟩ | ⟨a, hok, ha, hpend, he⟩
  · simp only [initFrameAllocator, herr, Except.map]
    exact ⟨trivial, usableFrames_eq_nil hall, hall⟩
  · simp only [initFrameAllocator, hok, Except.map]
    obtain ⟨htake, hend⟩ := allocateFrames_spec (m := { m with allocator := a }) ha n
    rw [← hpend]
    refine ⟨he, htake, ?_⟩
    rcases hend with ⟨hle, m', hm'⟩ | ⟨hlt, herr⟩
    · rw [hm']
      exact ⟨⟨fun _ => hle, fun _ => ⟨m', rfl⟩⟩, ⟨nofun, fun hlt => absurd hle (Nat.not_le.mpr hlt)⟩⟩
    · rw [herr]
      exact ⟨⟨nofun, fun hle => absurd hlt (Nat.not_lt.mpr hle)⟩, ⟨fun _ => hlt, fun _ => rfl⟩⟩

/-- A map with a usable entry at 0, a reserved entry and a second usable one. -/
theorem initFrameAllocator_exact_sample :
    WellFormedMap [⟨0, 0x2000, 0⟩, ⟨0x2000, 0x1800, 1⟩, ⟨0x10000, 0x1000, 0⟩] ∧
      ∃ m', initFrameAllocator ⟨fun _ => .zero, 0, 0, ⟨[], true, 0, 0⟩⟩
          [⟨0, 0x2000, 0⟩, ⟨0x2000, 0x1800, 1⟩, ⟨0x10000, 0x1000, 0⟩] = .ok m' ∧
        (allocateFrames 3 m').1 = [0x1000, 0x10000] ∧
        (allocateFrames 3 m').2 = .error .couldNotFindFreeEntry := by
  have h : WellFormedMap [⟨0, 0x2000, 0⟩, ⟨0x2000, 0x1800, 1⟩, ⟨0x10000, 0x1000, 0⟩] := by decide
  have := (initFrameAllocator_exact ⟨fun _ => .zero, 0, 0, ⟨[], true, 0, 0⟩⟩ _ h 3).1
  obtain ⟨-, htake, -, hpanic⟩ := this
  exact ⟨h, _, rfl, htake, hpanic.mpr (by decide)⟩

end Lethe
