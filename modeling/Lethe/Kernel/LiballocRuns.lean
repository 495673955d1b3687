import Lethe.Kernel.LiballocClients
import Lethe.Kernel.LiballocHeap
import Lethe.Lib.Run

/-!
# Runs of the allocator

The clients call `malloc`, `calloc`, `realloc` and `free` in any order, and store bytes in the
blocks that they hold. `LiballocRun` records what each block must contain. A run stops only where
the page source does, or at a write through `NULL` when it has no pages left; the blocks do not
overlap and contain what has been stored in them (`liballoc_sound`); and when all of them have been
freed, each range of pages is a single free piece (`liballoc_emptied`).
-/

namespace Lethe

/-- The calls and stores of the clients. -/
inductive LiballocOp where
  | malloc (size : BitVec 64)
  | calloc (nobj size : BitVec 64)
  | realloc (ptr size : BitVec 64)
  | free (ptr : BitVec 64)
  | store (ptr offset : BitVec 64) (value : UInt8)
  deriving DecidableEq

/-- The allocator with the history of its clients. -/
structure LiballocRun (σ : Type) where
  heap : Liballoc σ
  /-- Ghost: the blocks that the clients hold. -/
  allocs : List Allocation

/-- The blocks other than that at `ptr`. -/
def otherAllocs (allocs : List Allocation) (ptr : BitVec 64) : List Allocation :=
  allocs.filter (·.ptr ≠ ptr)

/-- The blocks with one that a call has returned, unless it has returned `NULL`. -/
def gainAlloc (allocs : List Allocation) (ptr : BitVec 64) (data : List UInt8) : List Allocation :=
  if ptr = 0 then allocs else ⟨ptr, data⟩ :: allocs

/-- The bytes of the block at `ptr`. -/
def dataAt (allocs : List Allocation) (ptr : BitVec 64) : List UInt8 :=
  ((allocs.find? (·.ptr = ptr)).map Allocation.data).getD []

namespace LiballocRun

variable {σ : Type}

/-- One call or store. A new block contains what is there, the zeros of `calloc`, or what
`realloc` has copied. -/
def step (src : PageSource σ) (r : LiballocRun σ) :
    LiballocOp → Except LiballocStop (BitVec 64 × LiballocRun σ)
  | .malloc size => do
    let (ptr, heap) ← r.heap.malloc src size
    pure (ptr, ⟨heap, gainAlloc r.allocs ptr (readBytes heap.mem ptr size.toNat)⟩)
  | .calloc nobj size => do
    let (ptr, heap) ← r.heap.calloc src nobj size
    pure (ptr, ⟨heap, gainAlloc r.allocs ptr (List.replicate (nobj.toNat * size.toNat) 0)⟩)
  | .realloc ptr size => do
    let (ptr', heap) ← r.heap.realloc src ptr size
    let kept := (dataAt r.allocs ptr).take size.toNat
    pure (ptr', ⟨heap, gainAlloc (otherAllocs r.allocs ptr) ptr'
      (kept ++ (readBytes heap.mem ptr' size.toNat).drop kept.length)⟩)
  | .free ptr => do
    let heap ← r.heap.free src ptr
    pure (0, ⟨heap, otherAllocs r.allocs ptr⟩)
  | .store ptr offset value =>
    pure (0, ⟨{ r.heap with mem := Function.update r.heap.mem (ptr + offset) value },
      updateData r.allocs ptr ((dataAt r.allocs ptr).set offset.toNat value)⟩)

/-- The clients hold a block at `ptr`. -/
def Live (r : LiballocRun σ) (ptr : BitVec 64) : Prop := ∃ a ∈ r.allocs, a.ptr = ptr

/-- What is asked of the clients: no request is larger than the page source can meet, and only
blocks that they hold are freed and written to. -/
def Request (limit : Nat) (r : LiballocRun σ) : LiballocOp → Prop
  | .malloc size => size.toNat + tagSize ≤ 4096 * limit
  | .calloc nobj size => nobj.toNat * size.toNat + tagSize ≤ 4096 * limit
  | .realloc ptr size => (ptr = 0 ∨ r.Live ptr) ∧ size.toNat + tagSize ≤ 4096 * limit
  | .free ptr => ptr = 0 ∨ r.Live ptr
  | .store ptr offset _ => r.Live ptr ∧ offset.toNat < (dataAt r.allocs ptr).length

instance {r : LiballocRun σ} {ptr : BitVec 64} : Decidable (r.Live ptr) :=
  inferInstanceAs (Decidable (∃ a ∈ r.allocs, a.ptr = ptr))

instance {limit : Nat} {r : LiballocRun σ} : ∀ {op}, Decidable (r.Request limit op)
  | .malloc _ => inferInstanceAs (Decidable (_ ≤ _))
  | .calloc .. => inferInstanceAs (Decidable (_ ≤ _))
  | .realloc .. => inferInstanceAs (Decidable ((_ ∨ _) ∧ _))
  | .free _ => inferInstanceAs (Decidable (_ ∨ _))
  | .store .. => inferInstanceAs (Decidable (_ ∧ _))

/-- The blocks of the clients contain what is expected, and do not overlap; each lies within a
range that the allocator holds. -/
def Sound (Owns : σ → List Block → Prop) (r : LiballocRun σ) : Prop :=
  (∀ a ∈ r.allocs, readBytes r.heap.mem a.ptr a.data.length = a.data) ∧
    r.allocs.Pairwise (fun a b => Apart a.ptr a.data.length b.ptr b.data.length) ∧
    ∃ held, Owns r.heap.pages held ∧ ∀ a ∈ r.allocs, ∃ b ∈ held,
      b.start.toNat + tagSize ≤ a.ptr.toNat ∧ a.ptr.toNat + a.data.length ≤ b.limit

end LiballocRun

variable {σ : Type} {src : PageSource σ} {Owns : σ → List Block → Prop} {Room : σ → Prop}
  {limit : Nat} {null : Prop} {s s' : Liballoc σ} {allocs : List Allocation} {bytes : BitVec 64}
  {ptr : BitVec 64} {a b : Allocation} {n : Nat}

/-- Where a call may stop: in the page source, or at a write through `NULL` when there are no
pages left. -/
def Stops (null : Prop) (e : LiballocStop) : Prop :=
  (∃ panic, e = .panic panic) ∨ e = .nullAccess ∧ null

/-! ## Calls -/

namespace Session

/-- Only the memory and the pages matter. -/
theorem of_mem {l : Layout} {lists : Nat → List (BitVec 64)} (h : Clients s l allocs)
    (hmem : s'.mem = s.mem) (hinv : LiballocInv s' l lists) (howns : Owns s'.pages l.held) :
    Session Owns s' allocs := by
  have htag : s'.tag = s.tag := by
    funext r
    rw [Liballoc.tag, hmem, Liballoc.tag]
  refine ⟨l, ⟨lists, hinv⟩, howns, fun a ha => ?_, fun p hp => ?_, h.nodup⟩
  · obtain ⟨hused, hsize, hroom, hcontents⟩ := h.holds a ha
    constructor
    · rwa [htag]
    · rwa [htag]
    · rwa [htag]
    · rwa [hmem]
  · rw [htag] at hp
    exact h.used p hp

/-- `malloc`. -/
theorem malloc (hsrc : src.Lawful Owns Room limit null) (h : Session Owns s allocs)
    (hroom : Room s.pages) (hsize : bytes.toNat + tagSize ≤ 4096 * limit) :
    Ends (fun e => ∃ panic, e = .panic panic) (fun r =>
      (r.1 = 0 ∧ null ∧ Session Owns r.2 allocs) ∨
      (r.1 ≠ 0 ∧ r.1 ∉ allocs.map Allocation.ptr ∧
        Session Owns r.2 (⟨r.1, readBytes r.2.mem r.1 bytes.toNat⟩ :: allocs)))
      (s.malloc src bytes) := by
  obtain ⟨l, ⟨lists, hinv⟩, howns, hclients⟩ := h
  refine (Liballoc.malloc_spec hsrc hinv howns hroom hsize).mono (fun _ he => he) fun r hr => ?_
  obtain ⟨ptr, s'⟩ := r
  rcases hr with ⟨hz, hnull, hinv', hmem, howns', -⟩ | ⟨p, l', rfl, halloc⟩
  · exact .inl ⟨hz, hnull, of_mem hclients hmem hinv' howns'⟩
  · have hgain := hclients.gain hinv.heap.arenas halloc
    have hnodup := List.nodup_cons.mp hgain.nodup
    obtain ⟨lists', hinv'⟩ := halloc.inv
    refine .inr ⟨fun hz => ?_, hnodup.1, l', halloc.inv, halloc.owns, hgain⟩
    obtain ⟨hptr, -⟩ := (hgain.holds _ List.mem_cons_self).bounds hinv'.heap.arenas
    have hz' : (p + 48).toNat = 0 := congrArg BitVec.toNat hz
    have htagSize : tagSize = 48 := rfl
    dsimp only at hptr
    omega

/-- `free` of a block that a client holds. -/
theorem free (hsrc : src.Lawful Owns Room limit null) (h : Session Owns s allocs)
    (ha : a ∈ allocs) :
    ∃ s', s.free src a.ptr = .ok s' ∧ Session Owns s' (otherAllocs allocs a.ptr) := by
  obtain ⟨l, ⟨lists, hinv⟩, howns, hclients⟩ := h
  obtain ⟨s', l', hs', hfreed⟩ := Liballoc.free_spec hsrc hinv (hclients.holds a ha).used howns
  have hptr : a.ptr - 48 + 48 = a.ptr := BitVec.sub_add_cancel ..
  have hlose := hclients.lose hinv.heap.arenas hfreed
  rw [hptr] at hs' hlose
  exact ⟨s', hs', l', hfreed.inv, hfreed.owns, hlose⟩

/-- A block lies within the address space. -/
theorem inSpace (h : Session Owns s allocs) (ha : a ∈ allocs) : InSpace a.ptr a.data.length := by
  obtain ⟨l, ⟨lists, hinv⟩, -, hclients⟩ := h
  have hold := hclients.holds a ha
  have hspace := hinv.heap.arenas.inSpace hold.used.1
  have := hold.bounds hinv.heap.arenas
  unfold InSpace at *
  omega

theorem apart (h : Session Owns s allocs) (ha : a ∈ allocs) (hb : b ∈ allocs)
    (hne : a.ptr ≠ b.ptr) : Apart a.ptr a.data.length b.ptr b.data.length := by
  obtain ⟨l, ⟨lists, hinv⟩, -, hclients⟩ := h
  exact (hclients.holds a ha).apart (hclients.holds b hb) hinv.heap.arenas hne

theorem contents (h : Session Owns s allocs) (ha : a ∈ allocs) :
    readBytes s.mem a.ptr a.data.length = a.data := by
  obtain ⟨l, -, -, hclients⟩ := h
  exact (hclients.holds a ha).contents

/-- The first bytes of a new block are written. -/
theorem fill {data bs : List UInt8} (h : Session Owns s (⟨ptr, data⟩ :: allocs))
    (hnew : ptr ∉ allocs.map Allocation.ptr) (hlen : bs.length ≤ data.length) :
    Session Owns { s with mem := writeBytes s.mem ptr bs }
      (⟨ptr, readBytes (writeBytes s.mem ptr bs) ptr data.length⟩ :: allocs) := by
  have hspace := h.inSpace List.mem_cons_self
  have hstore : Session Owns { s with mem := writeBytes s.mem ptr bs } _ :=
      h.store List.mem_cons_self fun x hx => by
    unfold Allocation.Outside at hx
    unfold InSpace at hspace
    dsimp only at hx hspace
    exact writeBytes_of_outside (by unfold InSpace; omega) (by omega)
  have hupdate (d : List UInt8) : updateData (⟨ptr, data⟩ :: allocs) ptr d = ⟨ptr, d⟩ :: allocs := by
    rw [updateData, List.map_cons, if_pos rfl]
    refine congrArg _ ((List.map_congr_left fun a ha => if_neg fun heq => ?_).trans (List.map_id _))
    exact hnew (heq ▸ List.mem_map_of_mem ha)
  rwa [hupdate] at hstore

theorem toNat_callocSize {nobj size : BitVec 64} (h : nobj.toNat * size.toNat < 2 ^ 31) :
    (((nobj * size).setWidth 32).signExtend 64).toNat = nobj.toNat * size.toNat := by
  have hmul : ((nobj * size).setWidth 32).toNat = nobj.toNat * size.toNat := by
    rw [BitVec.toNat_setWidth, BitVec.toNat_mul, Nat.mod_eq_of_lt, Nat.mod_eq_of_lt] <;> omega
  rw [BitVec.signExtend_eq_setWidth_of_msb_false, BitVec.toNat_setWidth, hmul, Nat.mod_eq_of_lt]
  · omega
  · rw [BitVec.msb_eq_false_iff_two_mul_lt, hmul]
    omega

/-- `calloc`. -/
theorem calloc {nobj size : BitVec 64} (hsrc : src.Lawful Owns Room limit null)
    (hlimit : limit ≤ 2 ^ 19) (h : Session Owns s allocs) (hroom : Room s.pages)
    (hsize : nobj.toNat * size.toNat + tagSize ≤ 4096 * limit) :
    Ends (Stops null) (fun r => Session Owns r.2
      (gainAlloc allocs r.1 (List.replicate (nobj.toNat * size.toNat) 0)))
      (s.calloc src nobj size) := by
  have htagSize : tagSize = 48 := rfl
  have hnat : (((nobj * size).setWidth 32).signExtend 64).toNat = nobj.toNat * size.toNat :=
    toNat_callocSize (by omega)
  rw [Liballoc.calloc]
  dsimp only
  generalize ((nobj * size).setWidth 32).signExtend 64 = bytes at hnat ⊢
  rw [← hnat] at hsize ⊢
  refine ((h.malloc hsrc hroom hsize).mono (fun _ he => .inl he) fun r hr => hr).bind fun r hr => ?_
  obtain ⟨ptr, s'⟩ := r
  dsimp only at hr ⊢
  rcases hr with ⟨rfl, hnull, hs'⟩ | ⟨hz, hnew, hs'⟩
  · -- no pages: only an empty block is filled through `NULL`
    rw [Liballoc.memsetZero]
    by_cases hbytes : bytes = 0
    · rw [if_pos hbytes]
      exact .ok (by rwa [gainAlloc, if_pos rfl])
    · rw [if_neg hbytes, if_pos rfl]
      exact .error (.inr ⟨rfl, hnull⟩)
  · rw [memsetZero_eq (fun _ => hz) (by omega)]
    have hlen : (List.replicate bytes.toNat (0 : UInt8)).length ≤
        (readBytes s'.mem ptr bytes.toNat).length := by simp
    have hfill := hs'.fill hnew hlen
    have hspace := hs'.inSpace List.mem_cons_self
    dsimp only at hspace
    rw [length_readBytes] at hfill hspace
    have hread : readBytes (writeBytes s'.mem ptr (List.replicate bytes.toNat 0)) ptr _ = _ :=
      readBytes_writeBytes (by simpa using hspace)
    rw [List.length_replicate] at hread
    rw [hread] at hfill
    exact .ok (by rwa [gainAlloc, if_neg hz])

/-- No block is at `NULL`. -/
theorem ptr_ne_zero (h : Session Owns s allocs) (ha : a ∈ allocs) : a.ptr ≠ 0 := by
  obtain ⟨l, ⟨lists, hinv⟩, -, hclients⟩ := h
  obtain ⟨hptr, -⟩ := (hclients.holds a ha).bounds hinv.heap.arenas
  intro hz
  have hz' : a.ptr.toNat = 0 := congrArg BitVec.toNat hz
  have htagSize : tagSize = 48 := rfl
  omega

theorem otherAllocs_zero (h : Session Owns s allocs) : otherAllocs allocs 0 = allocs :=
  List.filter_eq_self.mpr fun _ ha => decide_eq_true (h.ptr_ne_zero ha)

theorem dataAt_zero (h : Session Owns s allocs) : dataAt allocs 0 = [] := by
  have hnone : allocs.find? (·.ptr = 0) = none :=
    List.find?_eq_none.mpr fun _ ha => by simpa using h.ptr_ne_zero ha
  rw [dataAt, hnone]
  rfl

theorem dataAt_eq (h : Session Owns s allocs) (ha : a ∈ allocs) : dataAt allocs a.ptr = a.data := by
  obtain ⟨l, -, -, hclients⟩ := h
  have hinj := List.inj_on_of_nodup_map hclients.nodup
  cases hfind : allocs.find? (·.ptr = a.ptr) with
  | none =>
    have := List.find?_eq_none.mp hfind a ha
    simp at this
  | some b =>
    have hb := List.mem_of_find?_eq_some hfind
    have hptr : b.ptr = a.ptr := by simpa using List.find?_some hfind
    rw [dataAt, hfind, hinj hb ha hptr]
    rfl

/-- The size that the tag of a block has, as `realloc` sees it. -/
theorem toNat_tagged (h : Session Owns s allocs) (ha : a ∈ allocs) (hlt : a.data.length < 2 ^ 31) :
    ((s.tag (a.ptr - 48)).size.signExtend 64).toNat = a.data.length := by
  obtain ⟨l, -, -, hclients⟩ := h
  have hsize := (hclients.holds a ha).size
  rw [BitVec.signExtend_eq_setWidth_of_msb_false, BitVec.toNat_setWidth, hsize, Nat.mod_eq_of_lt]
  · omega
  · rw [BitVec.msb_eq_false_iff_two_mul_lt, hsize]
    omega

/-- The number of bytes that `realloc` copies. -/
theorem toNat_reallocSize {tagged size : BitVec 64} (hsize : size.toNat < 2 ^ 31) :
    (if tagged > size then (size.setWidth 32).signExtend 64 else tagged).toNat =
      min tagged.toNat size.toNat := by
  have hmod : size.toNat % 2 ^ 32 = size.toNat := Nat.mod_eq_of_lt (by omega)
  have hext : ((size.setWidth 32).signExtend 64).toNat = size.toNat := by
    rw [BitVec.signExtend_eq_setWidth_of_msb_false, BitVec.toNat_setWidth, BitVec.toNat_setWidth,
      hmod, Nat.mod_eq_of_lt]
    · omega
    · rw [BitVec.msb_eq_false_iff_two_mul_lt, BitVec.toNat_setWidth, hmod]
      omega
  simp only [gt_iff_lt, BitVec.lt_def]
  split
  · rw [hext]
    omega
  · omega

/-- `free` of a block, or of `NULL`. -/
theorem free' (hsrc : src.Lawful Owns Room limit null) (h : Session Owns s allocs)
    (hptr : ptr = 0 ∨ ∃ a ∈ allocs, a.ptr = ptr) :
    ∃ s', s.free src ptr = .ok s' ∧ Session Owns s' (otherAllocs allocs ptr) := by
  rcases hptr with rfl | ⟨a, ha, rfl⟩
  · rw [h.otherAllocs_zero]
    exact ⟨s, rfl, h⟩
  · exact h.free hsrc ha

/-- The end of `realloc`: the bytes are copied to the new block at `ptr`, and the old one is
freed. -/
theorem copy {data : List UInt8} {size : BitVec 64} (hsrc : src.Lawful Owns Room limit null)
    (h : Session Owns s (⟨ptr, data⟩ :: allocs)) (ha : a ∈ allocs)
    (hnew : ptr ∉ allocs.map Allocation.ptr)
    (hsize : size.toNat = min a.data.length data.length) :
    ∃ s₁ s₂, s.liballocMemcpy ptr a.ptr size = .ok s₁ ∧ s₁.free src a.ptr = .ok s₂ ∧
      Session Owns s₂ (⟨ptr, a.data.take data.length ++
        (readBytes s₂.mem ptr data.length).drop (a.data.take data.length).length⟩ ::
          otherAllocs allocs a.ptr) := by
  have hmem := List.mem_cons_of_mem ⟨ptr, data⟩ ha
  have hne : ptr ≠ a.ptr := fun heq => hnew (heq ▸ List.mem_map_of_mem ha)
  have hold := h.inSpace hmem
  have hspace := h.inSpace List.mem_cons_self
  have hapart := h.apart hmem List.mem_cons_self hne.symm
  have hlen : (a.data.take data.length).length = size.toNat := by
    rw [List.length_take, hsize, Nat.min_comm]
  -- what is copied
  have hread : readBytes s.mem a.ptr size.toNat = a.data.take data.length := by
    have htake : (readBytes s.mem a.ptr a.data.length).take data.length = _ := take_readBytes
    rw [h.contents hmem, Nat.min_comm, ← hsize] at htake
    exact htake.symm
  have hcopy : s.liballocMemcpy ptr a.ptr size = _ := liballocMemcpy_eq
    (fun _ => h.ptr_ne_zero List.mem_cons_self) (by unfold InSpace at *; dsimp only at *; omega)
    (by unfold InSpace at *; omega) (by unfold Apart at *; dsimp only at *; omega)
  rw [hread] at hcopy
  have hle : (a.data.take data.length).length ≤ data.length := by
    rw [hlen]
    omega
  have hfill := h.fill hnew hle
  obtain ⟨s₂, hs₂, hfree⟩ := hfill.free hsrc (List.mem_cons_of_mem _ ha)
  refine ⟨_, s₂, hcopy, hs₂, ?_⟩
  have hother (d : List UInt8) : otherAllocs (⟨ptr, d⟩ :: allocs) a.ptr =
      ⟨ptr, d⟩ :: otherAllocs allocs a.ptr := List.filter_cons_of_pos (by simpa using hne)
  rw [hother] at hfree
  have hcontents := hfree.contents List.mem_cons_self
  dsimp only at hcontents
  rw [length_readBytes] at hcontents
  have htake : (readBytes (writeBytes s.mem ptr (a.data.take data.length)) ptr data.length).take
      (a.data.take data.length).length = _ := take_readBytes
  rw [Nat.min_eq_left hle,
    readBytes_writeBytes (by unfold InSpace at *; dsimp only at *; omega)] at htake
  rw [hcontents]
  nth_rewrite 1 [← htake]
  rwa [List.take_append_drop]

/-- `realloc`. -/
theorem realloc {size : BitVec 64} (hsrc : src.Lawful Owns Room limit null)
    (hlimit : limit ≤ 2 ^ 19) (h : Session Owns s allocs) (hroom : Room s.pages)
    (hptr : ptr = 0 ∨ ∃ a ∈ allocs, a.ptr = ptr) (hsize : size.toNat + tagSize ≤ 4096 * limit)
    (hbound : ∀ a ∈ allocs, a.data.length + tagSize ≤ 4096 * limit) :
    Ends (Stops null) (fun r => Session Owns r.2 (gainAlloc (otherAllocs allocs ptr) r.1
      ((dataAt allocs ptr).take size.toNat ++ (readBytes r.2.mem r.1 size.toNat).drop
        ((dataAt allocs ptr).take size.toNat).length))) (s.realloc src ptr size) := by
  have htagSize : tagSize = 48 := rfl
  have hmalloc := (h.malloc hsrc hroom hsize).mono (fun _ he => (.inl he : Stops null _))
    fun r hr => hr
  rw [Liballoc.realloc]
  by_cases hz : size = 0
  · obtain ⟨s', hs', hfree⟩ := h.free' hsrc hptr
    rw [if_pos hz, hs', ok_bind]
    exact .ok (by rwa [gainAlloc, if_pos rfl])
  rw [if_neg hz]
  by_cases hptr0 : ptr = 0
  · subst hptr0
    rw [if_pos rfl, h.otherAllocs_zero, h.dataAt_zero]
    refine hmalloc.mono (fun _ he => he) fun r hr => ?_
    rw [gainAlloc]
    rcases hr with ⟨hnull, -, hs'⟩ | ⟨hne, -, hs'⟩
    · rwa [if_pos hnull]
    · rw [if_neg hne]
      simpa using hs'
  · rw [if_neg hptr0]
    obtain ⟨a, ha, rfl⟩ := hptr.resolve_left hptr0
    have hlen := hbound a ha
    rw [h.dataAt_eq ha]
    have hsize' : size.toNat < 2 ^ 31 := by omega
    have hcount : (if (s.tag (a.ptr - 48)).size.signExtend 64 > size then
        (size.setWidth 32).signExtend 64 else (s.tag (a.ptr - 48)).size.signExtend 64).toNat = _ :=
      toNat_reallocSize hsize'
    rw [h.toNat_tagged ha (by omega)] at hcount
    dsimp only
    generalize (if (s.tag (a.ptr - 48)).size.signExtend 64 > size then
      (size.setWidth 32).signExtend 64 else (s.tag (a.ptr - 48)).size.signExtend 64) = count
      at hcount ⊢
    refine hmalloc.bind fun r hr => ?_
    obtain ⟨ptr', s'⟩ := r
    dsimp only at hr ⊢
    rcases hr with ⟨rfl, hnull, hs'⟩ | ⟨hne, hnew, hs'⟩
    · rw [Liballoc.liballocMemcpy]
      by_cases hc : count = 0
      · obtain ⟨s₂, hs₂, hfree⟩ := hs'.free hsrc ha
        rw [if_pos hc, ok_bind, hs₂, ok_bind]
        exact .ok (by rwa [gainAlloc, if_pos rfl])
      · rw [if_neg hc, if_pos rfl]
        exact .error (.inr ⟨rfl, hnull⟩)
    · obtain ⟨s₁, s₂, hs₁, hs₂, hcopy⟩ := hs'.copy hsrc ha hnew
        (by rw [length_readBytes]; exact hcount)
      rw [hs₁, ok_bind, hs₂, ok_bind]
      rw [length_readBytes] at hcopy
      exact .ok (by rwa [gainAlloc, if_neg hne])

end Session

/-! ## When nothing is in use -/

namespace LiballocInv

variable {s : Liballoc σ} {l : Layout} {lists : Nat → List (BitVec 64)} {b : Block} {p : BitVec 64}
  (h : LiballocInv s l lists) (hlisted : ∀ p, l.Tag p → (s.tag p).Listed)
include h hlisted

/-- No neighbours are left to be joined. -/
theorem whole_of_listed (hp : l.Tag p) : (s.tag p).Whole := by
  constructor
  · rcases h.heap.arenas.splitLeft_tag hp with hz | htag
    · exact hz
    · exact (Liballoc.not_listed_left h hp (hlisted p hp) fun _ _ h => h).resolve_right
        (not_not.mpr (hlisted _ htag))
  · rcases h.heap.arenas.splitRight_tag hp with hz | htag
    · exact hz
    · exact (h.heap.coalesced p hp (hlisted p hp)).resolve_right (not_not.mpr (hlisted _ htag))

/-- Each range is a single piece. -/
theorem range_of_listed (hb : b ∈ l.held) :
    l.Tag b.start ∧ (s.tag b.start).realSize.toNat = 4096 * b.pages.toNat := by
  have harenas := h.heap.arenas
  have hfills := (harenas.pieces b hb).fills
  cases htags : l.tags b with
  | nil =>
    have hpos := (harenas.ok b hb).ok.pages_pos
    rw [htags] at hfills
    have : b.start.toNat = b.start.toNat + 4096 * b.pages.toNat := hfills
    omega
  | cons p ts =>
    have hp : l.Tag p := ⟨b, hb, by rw [htags]; exact List.mem_cons_self⟩
    obtain ⟨c, hc, hctags, rfl, hreal⟩ := harenas.whole hp (h.whole_of_listed hlisted hp)
    obtain rfl := harenas.block_eq hb hc (by rw [htags]; exact List.mem_cons_self)
      (by rw [hctags]; exact List.mem_cons_self)
    exact ⟨hp, hreal⟩

/-- The list of a class is counted by its counter. -/
theorem length_of_listed (hi : i < maxexp) : (lists i).length ≤ 5 := by
  have hall : wholeCount s.tag (lists i) = (lists i).length := by
    refine List.countP_eq_length.mpr fun p hp => decide_eq_true ?_
    exact h.whole_of_listed hlisted (h.heap.lists.listed_of_mem hi hp).1
  have hcomplete := h.complete i hi
  have hmost : s.completePages i ≤ 5 := h.most i hi
  omega

/-- The ranges of a class are in its list. -/
theorem count_of_listed (i : BitVec 32) :
    (l.held.countP fun b => (s.tag b.start).index = i) ≤ 5 := by
  rcases Nat.lt_or_ge i.toNat maxexp with hi | hi
  · refine Nat.le_trans ?_ (h.length_of_listed hlisted hi)
    rw [List.countP_eq_length_filter, ← List.length_map Block.start]
    refine (List.Nodup.subperm ?_ fun p hp => ?_).length_le
    · refine (h.heap.arenas.nodup.filter _).map_on fun b hb c hc heq => ?_
      have hb' := List.mem_of_mem_filter hb
      have hc' := List.mem_of_mem_filter hc
      by_contra hne
      have hstart : b.start.toNat = c.start.toNat := congrArg BitVec.toNat heq
      have := (h.heap.arenas.ok b hb').ok.pages_pos
      have := (h.heap.arenas.ok c hc').ok.pages_pos
      rcases h.heap.arenas.apart_blocks hb' hc' hne with hle | hle <;>
        rw [Block.limit] at hle <;> omega
    · obtain ⟨b, hb, rfl⟩ := List.mem_map.mp hp
      obtain ⟨hb, hindex⟩ := List.mem_filter.mp hb
      obtain ⟨hTag, -⟩ := h.range_of_listed hlisted hb
      exact (h.heap.lists.mem_iff _ hi _).mpr ⟨hTag, by rw [of_decide_eq_true hindex]⟩
  · rw [List.countP_eq_zero.mpr]
    · exact Nat.zero_le _
    · intro b hb hindex
      have hl := hlisted _ (h.range_of_listed hlisted hb).1
      rw [BoundaryTag.Listed, of_decide_eq_true hindex] at hl
      omega

end LiballocInv

/-! ## Runs -/

namespace LiballocRun

variable {r r' : LiballocRun σ} {op : LiballocOp} {ops : List LiballocOp}

/-- What every step keeps. -/
structure Inv (Owns : σ → List Block → Prop) (limit : Nat) (r : LiballocRun σ) : Prop where
  session : Session Owns r.heap r.allocs
  bound : ∀ a ∈ r.allocs, a.data.length + tagSize ≤ 4096 * limit

/-- The allocator before the first call. -/
def start (mem : Bytes) (pages : σ) : LiballocRun σ where
  heap := { mem, pages, freePages := fun _ => 0, completePages := fun _ => 0, initialized := false }
  allocs := []

theorem inv_start {mem : Bytes} {pages : σ} (howns : Owns pages []) :
    (start mem pages).Inv Owns limit := by
  have hnone {p} : ¬(⟨[], fun _ => []⟩ : Layout).Tag p := by
    rintro ⟨b, hb, -⟩
    cases hb
  refine ⟨⟨⟨[], fun _ => []⟩, ⟨fun _ => [], ?_, fun i _ => rfl, fun i _ => ?_, fun _ => rfl⟩, howns,
    nofun, fun p hp => absurd hp.1 hnone, .nil⟩, nofun⟩
  · refine ⟨⟨nofun, .nil, nofun⟩, ⟨fun i _ => rfl, fun i _ => trivial, fun i _ => .nil,
      fun i _ p => ?_, fun p hp => absurd hp hnone, hnone⟩, fun p hp => absurd hp hnone,
      fun p hp => absurd hp hnone⟩
    exact iff_of_false List.not_mem_nil fun hp => hnone hp.1
  · exact (by decide : (0 : Int) ≤ maxComplete)

theorem bound_gainAlloc {data : List UInt8} (h : ∀ a ∈ allocs, a.data.length + tagSize ≤ n)
    (hdata : data.length + tagSize ≤ n) :
    ∀ a ∈ gainAlloc allocs ptr data, a.data.length + tagSize ≤ n := by
  unfold gainAlloc
  split
  · exact h
  · exact List.forall_mem_cons.mpr ⟨hdata, h⟩

theorem bound_otherAllocs (h : ∀ a ∈ allocs, a.data.length + tagSize ≤ n) :
    ∀ a ∈ otherAllocs allocs ptr, a.data.length + tagSize ≤ n :=
  fun a ha => h a (List.mem_of_mem_filter ha)

/-- One call or store. -/
theorem step_spec (hsrc : src.Lawful Owns Room limit null) (hlimit : limit ≤ 2 ^ 19)
    (hr : r.Inv Owns limit) (hroom : Room r.heap.pages) (hop : r.Request limit op) :
    Ends (Stops null) (fun x => x.2.Inv Owns limit) (step src r op) := by
  obtain ⟨hs, hbound⟩ := hr
  cases op with
  | malloc size =>
    refine (((hs.malloc hsrc hroom hop).mono (fun _ he => (.inl he : Stops null _))
      fun x hx => hx)).bind fun x hx => .ok ⟨?_, bound_gainAlloc hbound ?_⟩
    · rcases hx with ⟨hz, -, hs'⟩ | ⟨hne, -, hs'⟩
      · rwa [gainAlloc, if_pos hz]
      · rwa [gainAlloc, if_neg hne]
    · rw [length_readBytes]
      exact hop
  | calloc nobj size =>
    refine (hs.calloc hsrc hlimit hroom hop).bind fun x hx => .ok ⟨hx, bound_gainAlloc hbound ?_⟩
    rw [List.length_replicate]
    exact hop
  | realloc ptr size =>
    refine (hs.realloc hsrc hlimit hroom hop.1 hop.2 hbound).bind fun x hx =>
      .ok ⟨hx, bound_gainAlloc (bound_otherAllocs hbound) ?_⟩
    have := hop.2
    rw [List.length_append, List.length_drop, length_readBytes, List.length_take]
    omega
  | free ptr =>
    obtain ⟨s', hs', hfree⟩ := hs.free' hsrc hop
    rw [step, hs', ok_bind]
    exact .ok ⟨hfree, bound_otherAllocs hbound⟩
  | store ptr offset value =>
    obtain ⟨⟨a, ha, rfl⟩, hlt⟩ := hop
    rw [hs.dataAt_eq ha] at hlt
    have hspace := hs.inSpace ha
    have hoffset : a.ptr + offset = a.ptr + BitVec.ofNat 64 offset.toNat := by
      rw [BitVec.ofNat_toNat, BitVec.setWidth_eq]
    have hread : readBytes (Function.update r.heap.mem (a.ptr + offset) value) a.ptr
        a.data.length = a.data.set offset.toNat value := by
      rw [hoffset, readBytes_update hspace hlt, hs.contents ha]
    have hstore : Session Owns
        { r.heap with mem := Function.update r.heap.mem (a.ptr + offset) value } _ :=
      hs.store ha fun x hx => Function.update_of_ne (fun heq => ?_) ..
    · rw [step, hs.dataAt_eq ha]
      rw [hread] at hstore
      refine .ok ⟨hstore, fun b hb => ?_⟩
      obtain ⟨b, hb', rfl⟩ := List.mem_map.mp hb
      split
      · rw [List.length_set]
        exact hbound a ha
      · exact hbound b hb'
    · have hnat := hspace.toNat_add hlt
      rw [← hoffset, ← heq] at hnat
      unfold Allocation.Outside at hx
      omega

/-! ## The blocks of the clients -/

/-- Each range is one free piece, in the list of its class, and no class has more of them than
`MAXCOMPLETE`. -/
def Emptied (Owns : σ → List Block → Prop) (r : LiballocRun σ) : Prop :=
  ∃ held, Owns r.heap.pages held ∧
    (∀ b ∈ held, (r.heap.tag b.start).Whole ∧
      (r.heap.tag b.start).realSize.toNat = 4096 * b.pages.toNat ∧
      (r.heap.tag b.start).index = bucket ((r.heap.tag b.start).realSize - 48)) ∧
    ∀ i : BitVec 32, (held.countP fun b => (r.heap.tag b.start).index = i) ≤ 5

theorem Inv.sound (h : r.Inv Owns limit) : r.Sound Owns := by
  obtain ⟨l, ⟨lists, hinv⟩, howns, hclients⟩ := h.session
  refine ⟨fun a ha => h.session.contents ha, ?_, l.held, howns, fun a ha => ?_⟩
  · refine (List.pairwise_map.mp hclients.nodup).imp_of_mem fun {a b} ha hb hne => ?_
    exact h.session.apart ha hb hne
  · have hold := hclients.holds a ha
    obtain ⟨b, hb, hmem⟩ := hold.used.1
    have := hinv.heap.arenas.bounds hb hmem
    have := hold.bounds hinv.heap.arenas
    exact ⟨b, hb, by omega, by omega⟩

theorem Inv.emptied (h : r.Inv Owns limit) (hnone : r.allocs = []) : r.Emptied Owns := by
  obtain ⟨l, ⟨lists, hinv⟩, howns, hclients⟩ := h.session
  have hlisted : ∀ p, l.Tag p → (r.heap.tag p).Listed := by
    intro p hp
    by_contra hidle
    obtain ⟨a, ha, -⟩ := hclients.used p ⟨hp, hidle⟩
    rw [hnone] at ha
    cases ha
  refine ⟨l.held, howns, fun b hb => ?_, hinv.count_of_listed hlisted⟩
  obtain ⟨hp, hreal⟩ := hinv.range_of_listed hlisted hb
  exact ⟨hinv.whole_of_listed hlisted hp, hreal, hinv.heap.classes _ hp (hlisted _ hp)⟩

end LiballocRun

open Run LiballocRun

variable {r : LiballocRun σ} {ops : List LiballocOp}

/-- A run of calls that asks for no more than the page source can meet keeps the invariant. -/
theorem safe_of_inv {E : LiballocStop → Prop} {P : LiballocRun σ → Prop}
    (hsrc : src.Lawful Owns Room limit null) (hlimit : limit ≤ 2 ^ 19) (hr : r.Inv Owns limit)
    (hE : ∀ e, Stops null e → E e) (hP : ∀ r : LiballocRun σ, r.Inv Owns limit → P r)
    (hrun : Along (step src) (fun r op => Room r.heap.pages ∧ r.Request limit op) r ops) :
    Safe (step src) E P r ops := by
  refine safe_of_along (fun h => hP _ h) (fun {r op} hr hop => ?_) hr hrun
  have hstep := step_spec hsrc hlimit hr hop.1 hop.2
  generalize step src r op = x at hstep ⊢
  cases hstep with
  | @ok a h =>
    obtain ⟨ptr, r'⟩ := a
    exact .inr ⟨ptr, r', rfl, h⟩
  | @error e h => exact .inl ⟨e, rfl, hE e h⟩

namespace LiballocRun

/-- Two blocks, each in a range of its own. The first one moves behind the second when it grows;
then both are freed, the pieces of each range are joined, and the ranges are free. -/
def lowOps : List LiballocOp :=
  [.malloc 12, .calloc 2 4, .store 0x1030 3 7, .realloc 0x1030 33000, .free 0x11030, .free 0x11068]

/-- What the calls return. -/
def lowPtrs : List (BitVec 64) := [0x1030, 0x11030, 0, 0x11068, 0, 0]

theorem along_lowOps : Along (step kernelPages) (fun r op => r.heap.pages.Room ∧ r.Request 16 op)
      (start (fun _ => 0) HeapRun.lowHeap32.heap) lowOps ∧
    outputs (step kernelPages) (start (fun _ => 0) HeapRun.lowHeap32.heap) lowOps = .ok lowPtrs := by
  decide +kernel

end LiballocRun

/-- In every run, the blocks of the clients lie within the pages of the allocator, do not overlap
and contain what has been stored in them, also where `realloc` has moved them. The run stops only
where the page source does, or at a write through `NULL` when there are no pages left. -/
theorem liballoc_sound {mem : Bytes} {pages : σ} (hsrc : src.Lawful Owns Room limit null)
    (hlimit : limit ≤ 2 ^ 19) (howns : Owns pages [])
    (hrun : Along (step src) (fun r op => Room r.heap.pages ∧ r.Request limit op)
      (start mem pages) ops) :
    Safe (step src) (Stops null) (Sound Owns) (start mem pages) ops :=
  safe_of_inv hsrc hlimit (inv_start howns) (fun _ he => he) (fun _ => Inv.sound) hrun

theorem liballoc_sound_low : Safe (step kernelPages) (Stops False)
      (Sound (KernelHeap.Owns [⟨0x1000, 32⟩])) (start (fun _ => 0) HeapRun.lowHeap32.heap) lowOps ∧
    outputs (step kernelPages) (start (fun _ => 0) HeapRun.lowHeap32.heap) lowOps = .ok lowPtrs :=
  ⟨liballoc_sound (kernelPages_lawful _) (by decide) owns_lowHeap32 along_lowOps.1, along_lowOps.2⟩

/-- In every state of a run the pieces fill the ranges of the allocator, the lists hold the free
ones of their class, each once, no two neighbours are free, the counters count the whole ranges in
the lists, and each other piece belongs to a block of a client. -/
theorem liballoc_session {mem : Bytes} {pages : σ} (hsrc : src.Lawful Owns Room limit null)
    (hlimit : limit ≤ 2 ^ 19) (howns : Owns pages [])
    (hrun : Along (step src) (fun r op => Room r.heap.pages ∧ r.Request limit op)
      (start mem pages) ops) :
    Safe (step src) (Stops null) (fun r => Session Owns r.heap r.allocs) (start mem pages) ops :=
  safe_of_inv hsrc hlimit (inv_start howns) (fun _ he => he) (fun _ => Inv.session) hrun

theorem liballoc_session_low : Safe (step kernelPages) (Stops False)
      (fun r => Session (KernelHeap.Owns [⟨0x1000, 32⟩]) r.heap r.allocs)
      (start (fun _ => 0) HeapRun.lowHeap32.heap) lowOps ∧
    outputs (step kernelPages) (start (fun _ => 0) HeapRun.lowHeap32.heap) lowOps = .ok lowPtrs :=
  ⟨liballoc_session (kernelPages_lawful _) (by decide) owns_lowHeap32 along_lowOps.1,
    along_lowOps.2⟩

/-! ## The kernel heap -/

/-- Each byte of a block is in a mapped page that is in no free region of the page allocator. -/
def LiballocRun.Backed (r : LiballocRun KernelHeap) : Prop :=
  ∃ free, Chain r.heap.pages.nodes r.heap.pages.head free ∧ ∀ a ∈ r.allocs, ∀ i < a.data.length,
    r.heap.pages.Mapped (pageAddr ((a.ptr.toNat + i) / 4096)) ∧
      ∀ b ∈ free, ¬b.range.Covers ((a.ptr.toNat + i) / 4096)

theorem LiballocRun.Sound.backed {given : List Block} {r : LiballocRun KernelHeap}
    (h : r.Sound (KernelHeap.Owns given)) : r.Backed := by
  obtain ⟨-, -, held, ⟨-, free, howns⟩, hwithin⟩ := h
  refine ⟨free, howns.inv.chain, fun a ha i hi => ?_⟩
  obtain ⟨b, hb, hle, hlimit⟩ := hwithin a ha
  have hmem := List.mem_append_left free hb
  have hpages := (howns.inv.ok b hmem).pages_pos
  have hal := (howns.inv.ok b hmem).aligned
  have hcovers : b.range.Covers ((a.ptr.toNat + i) / 4096) := by
    rw [Block.limit] at hlimit
    simp only [Range.Covers, Block.range]
    omega
  refine ⟨howns.inv.mapped _ (howns.inv.covers_added hmem hcovers), fun c hc => ?_⟩
  have hdisjoint := List.pairwise_map.mp howns.inv.tiles.disjoint
  exact (List.pairwise_append.mp hdisjoint).2.2 b hb c hc _ hcovers

end Lethe
