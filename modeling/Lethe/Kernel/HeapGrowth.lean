import Lethe.Kernel.Below
import Lethe.Kernel.HeapPartition

/-!
# The growth of the heap

`memory/list_allocator.c` and `setup_allocator` of `memory/alloc.c` with the free list as a
sequence of records, the first of the list in front. `add_region` writes the record of a region to
its first page, which has to be mapped. `RecordHeap.Contiguous` says which pages have been mapped
and which regions added. Neither function looks at the end of the address space: `heap_growth` is
the property of the runs in which the heap stays below it, and `heap_growth_wraps` one in which it
does not.
-/

namespace Lethe

/-- `ALIGN_UP`. -/
def alignUp (x a : BitVec 64) : BitVec 64 := (x + a - 1) &&& ~~~(a - 1)

/-- `heap_size`. -/
def heapSize : BitVec 64 := 0x20000

@[simp] theorem toNat_heapSize : heapSize.toNat = 0x20000 := rfl

/-- `read_cr3` on the value of the register. -/
def readCr3 (cr3 : BitVec 64) : BitVec 64 := cr3 >>> 12 <<< 12

/-- `init_page_table`. -/
def Machine.initPageTable (m : Machine) (cr3 : BitVec 64) : Machine :=
  { m with pageTable := readCr3 cr3 <<< 12 >>> 12 + m.hhdmMapping }

/-- The callers of `add_region`: the functions that make the heap, `list_alloc` with the rest of a
region, and a client that frees one. -/
inductive RegionSource where
  | heap
  | rest
  | client
  deriving DecidableEq, Repr

/-- The ways in which a call does not return. -/
inductive HeapStop where
  | panic (panic : Panic)
  /-- `add_region` writes to a page that is not mapped. -/
  | pageFault (source : RegionSource) (start : BitVec 64)
  deriving DecidableEq, Repr

/-- The globals `allocator`, `heap_start` and `heap_end`. -/
structure RecordHeap where
  machine : Machine
  free : List Block
  heapStart : BitVec 64
  heapEnd : BitVec 64
  /-- Ghost: the pages that have been mapped for the heap, the last one in front. -/
  mapped : List (BitVec 64)
  /-- Ghost: the regions that `setup_allocator` and `increase_heap_size` have added. -/
  regions : List Block

namespace RecordHeap

/-- The record is the first of the list; one at `NULL` ends it. -/
def insertRegion (h : RecordHeap) (start : BitVec 64) (pages : Int) : RecordHeap :=
  { h with free := if start = 0 then [] else ⟨start, pages⟩ :: h.free }

/-- `add_region`. -/
def addRegion (h : RecordHeap) (source : RegionSource) (start : BitVec 64) (pages : Int) :
    Except HeapStop RecordHeap :=
  if h.machine.hardwareWalk h.machine.rootFrame start = .missing then
    .error (.pageFault source start)
  else .ok (h.insertRegion start pages)

/-- A round of the loop of `setup_allocator` and of `increase_heap_size`. -/
def mapHeapPage (m : Machine) (i : BitVec 64) : Except Panic Machine := do
  let (frame, m) ← allocateFrame m
  if frame = 0 then throw .outOfMemory
  m.mapPage i frame heapFlags

/-- The loop of `setup_allocator` and of `increase_heap_size`. -/
def mapLoop (last : BitVec 64) : Nat → RecordHeap → BitVec 64 → Except Panic RecordHeap
  | 0, _, _ => .error .doesNotReturn
  | fuel + 1, h, i =>
    if i ≤ last then do
      let machine ← mapHeapPage h.machine i
      mapLoop last fuel { h with machine, mapped := i :: h.mapped } (i + pageSize)
    else .ok h

/-- `increase_heap_size`. -/
def increaseHeapSize (h : RecordHeap) (pages : Int) : Except HeapStop RecordHeap := do
  let heapStart := h.heapEnd + pageSize
  let newHeapEnd := heapStart + pageBytes pages
  let h ← (mapLoop newHeapEnd loopLimit h heapStart).mapError .panic
  let h := { h with heapEnd := newHeapEnd, regions := ⟨heapStart, pages⟩ :: h.regions }
  h.addRegion .heap heapStart pages

/-- `get_valid_region`: the region and the list without it. -/
def getValidRegion (pages : Int) : List Block → Option (Block × List Block)
  | [] => none
  | region :: free =>
    if pages > region.pages then (getValidRegion pages free).map (Prod.map id (region :: ·))
    else some (region, free)

/-- The first part of `list_alloc`: the region it takes from the list. -/
def takeRegion (h : RecordHeap) (pages : Int) : Except HeapStop (Block × RecordHeap) :=
  match getValidRegion pages h.free with
  | some (region, free) => .ok (region, { h with free })
  | none => do
    let h ← h.increaseHeapSize pages
    match getValidRegion pages h.free with
    | some (region, free) => .ok (region, { h with free })
    | none => .error (.panic .abort)

/-- `list_alloc`. -/
def listAlloc (h : RecordHeap) (pages : Int) : Except HeapStop (BitVec 64 × RecordHeap) := do
  let (region, h) ← h.takeRegion pages
  let excess := region.pages - pages
  let allocEnd := region.start + pageBytes excess
  let h ← if excess > 0 then h.addRegion .rest allocEnd excess else pure h
  pure (region.start, h)

/-- `setup_allocator`. -/
def setupAllocator (m : Machine) (memoryMap : List MemmapEntry) (cr3 kernelEndAddr : BitVec 64) :
    Except HeapStop RecordHeap := do
  let heapStart := alignUp (kernelEndAddr + 0x10000) pageSize
  let m ← (initFrameAllocator m memoryMap).mapError .panic
  let h : RecordHeap := ⟨m.initPageTable cr3, [], heapStart, 0, [], []⟩
  let h ← (mapLoop (heapStart + heapSize) loopLimit h heapStart).mapError .panic
  let pages := (heapSize / pageSize).toInt
  let h := { h with heapEnd := heapStart + heapSize, regions := [⟨heapStart, pages⟩] }
  h.addRegion .heap heapStart pages

end RecordHeap

/-- The calls to the allocator after `setup_allocator`. -/
inductive RecordOp where
  | listAlloc (pages : Int)
  | addRegion (start : BitVec 64) (pages : Int)
  deriving DecidableEq, Repr

/-- One call. -/
def RecordHeap.step (h : RecordHeap) :
    RecordOp → Except HeapStop (Option (BitVec 64) × RecordHeap)
  | .listAlloc pages => do
    let (region, h) ← h.listAlloc pages
    pure (some region, h)
  | .addRegion start pages => do
    let h ← h.addRegion .client start pages
    pure (none, h)

/-- The stops that are not the fault of the functions that make the heap: the frames have run out,
or a client or `list_alloc` puts a region on a page that is not mapped. -/
def HeapStop.Allowed : HeapStop → Prop
  | .panic p => p = .couldNotFindFreeEntry
  | .pageFault source _ => source ≠ .heap

/-- The pages mapped for the heap are those from its start to its end, each mapped once; above the
start these are all pages that the processor finds. The regions added are pairwise disjoint and
lie within these pages. -/
structure RecordHeap.Contiguous (h : RecordHeap) (root : BitVec 40) : Prop where
  nodup : h.mapped.Nodup
  mem_mapped : ∀ a, a ∈ h.mapped ↔ a.toNat % 4096 = 0 ∧ h.heapStart ≤ a ∧ a ≤ h.heapEnd
  walk : ∀ v, h.heapStart ≤ v →
    (h.machine.hardwareWalk root v ≠ .missing ↔ v.toNat < h.heapEnd.toNat + 4096)
  inside : ∀ b ∈ h.regions, h.heapStart ≤ b.start ∧
    b.start.toNat + 4096 * b.pages.toNat ≤ h.heapEnd.toNat + 4096
  disjoint : h.regions.Pairwise fun b c => b.range.Disjoint c.range

/-- What `setup_allocator` finds. The linker script puts the kernel at `0xffffffff80000000`, and
there is room for the first heap behind it. The tables of the last entry of the top-level table
have no large pages and are in frames that the memory map does not list as usable; what the other
entries hold does not matter. Nothing is mapped from the start of the heap on. -/
structure BootState (m : Machine) (memoryMap : List MemmapEntry) (cr3 kernelEndAddr : BitVec 64) :
    Prop where
  kernelEnd_ge : 0xFFFFFFFF80000000 ≤ kernelEndAddr
  kernelEnd_le : kernelEndAddr ≤ 0xFFFFFFFFFFFCE000
  map_ok : WellFormedMap memoryMap
  frames_lt : ∀ f ∈ usableFrames memoryMap, f.toNat < 2 ^ 52
  distinct : Radix.Distinct
    (Radix.child (m.below (frameNumber cr3) 511).presentEntry PageEntry.address) (frameNumber cr3) 3
  fresh : ∀ {p n}, p.length ≤ 3 →
    (m.below (frameNumber cr3) 511).tableOn (frameNumber cr3) p = some n →
      frameAddr n ∉ usableFrames memoryMap
  small : (m.below (frameNumber cr3) 511).SmallPages (frameNumber cr3)
  unmapped : ∀ v, alignUp (kernelEndAddr + 0x10000) pageSize ≤ v →
    m.hardwareWalk (frameNumber cr3) v = .missing

/-- If a request makes the heap grow, the new end is below the last page of the address space. -/
def RecordOp.Fits (h : RecordHeap) : RecordOp → Prop
  | .listAlloc pages => RecordHeap.getValidRegion pages h.free = none →
      h.heapEnd.toNat + 4096 * pages.toNat + 8192 < 2 ^ 64
  | .addRegion _ _ => True

/-- A request for a positive number of pages whose size is an `int`. -/
def RecordOp.Valid : RecordOp → Prop
  | .listAlloc pages => 1 ≤ pages ∧ pages < 2 ^ 19
  | .addRegion _ _ => True

/-! ## The pages -/

theorem p4Index_of_ge (hv : 0xFFFFFFFF80000000 ≤ v) : p4Index v = 511 := by
  have hlt := v.isLt
  have hv : 0xFFFFFFFF80000000 ≤ v.toNat := hv
  refine Fin.ext ?_
  rw [p4Index, Machine.val_tableIndex]
  simp only [BitVec.toNat_ushiftRight, Nat.shiftRight_eq_div_pow]
  omega

/-- Up there different pages have different digits. -/
theorem digits_eq_of_ge (hv : 0xFFFFFFFF80000000 ≤ v) (hw : 0xFFFFFFFF80000000 ≤ w) :
    Machine.digits v = Machine.digits w ↔ v.toNat / 4096 = w.toNat / 4096 := by
  have hv : 0xFFFFFFFF80000000 ≤ v.toNat := hv
  have hw : 0xFFFFFFFF80000000 ≤ w.toNat := hw
  have hlt := v.isLt
  have hlt' := w.isLt
  rw [Machine.digits_eq_iff, ← BitVec.toNat_inj, Machine.toNat_pageNumber, Machine.toNat_pageNumber]
  omega

theorem heapFlags_ok : Machine.FlagsOk heapFlags := ⟨by decide, by decide⟩

namespace RecordHeap

open Machine in
/-- A round of the loop on a page that is not present. -/
theorem mapHeapPage_spec {m : Machine} {root : BitVec 40} {j : Fin 512}
    (h : (m.below root j).TableInv root) (hsmall : (m.below root j).SmallPages root)
    (hj : p4Index i = j) (hnone : (m.below root j).entryOn root (digits i) = none) :
    (mapHeapPage m i = .error .couldNotFindFreeEntry ∧ m.allocator.pending.length < 4) ∨
      ∃ m', mapHeapPage m i = .ok m' ∧ (m'.below root j).TableInv root ∧
        (m'.below root j).SmallPages root ∧ (m'.below root j).entryOn root (digits i) ≠ none ∧
        (∀ q, q.length = 4 → q ≠ digits i →
          (m'.below root j).entryOn root q = (m.below root j).entryOn root q) ∧
        m.allocator.pending.length ≤ m'.allocator.pending.length + 4 := by
  rw [mapHeapPage]
  rcases allocateFrame_below_spec h with ⟨herr, hnil⟩ | ⟨f, m₁, hok, hf, h₁, hsame₁, hpend⟩
  · rw [herr, hnil]
    exact .inl ⟨rfl, by decide⟩
  have hsmall₁ : (m₁.below root j).SmallPages root := fun q e hq he =>
    hsmall q e hq ((hsame₁ q (by omega)).symm.trans he)
  rw [hok, hpend, List.length_cons]
  simp only [bind, Except.bind, if_neg hf.ne_zero]
  rcases mapPage_below_spec h₁ heapFlags_ok hj f with
    ⟨herr, hlen⟩ | ⟨-, hmapped⟩ | ⟨m', hok, h', hnew, hadds, hsame, hlen⟩
  · exact .inl ⟨herr, by omega⟩
  · exact absurd ((hsame₁ (digits i) (Nat.le_refl 4)).trans hnone) hmapped
  · refine .inr ⟨m', hok, h', hsmall₁.adds heapFlags_ok hadds, ?_, fun q hq hne => ?_, by omega⟩
    · rw [hnew]
      exact Option.some_ne_none _
    · rw [hsame q hq hne, hsame₁ q (by omega)]

/-- The pages below `limit` have been mapped, and those from `limit` on are not present. -/
structure MappedTo (machine : Machine) (heapStart : BitVec 64) (mapped : List (BitVec 64))
    (root : BitVec 40) (limit : Nat) : Prop where
  tree : (machine.below root 511).TableInv root
  small : (machine.below root 511).SmallPages root
  start_ge : 0xFFFFFFFF80000000 ≤ heapStart
  start_aligned : heapStart.toNat % 4096 = 0
  start_le : heapStart.toNat ≤ limit
  limit_aligned : limit % 4096 = 0
  nodup : mapped.Nodup
  mem_mapped : ∀ a, a ∈ mapped ↔
    a.toNat % 4096 = 0 ∧ heapStart.toNat ≤ a.toNat ∧ a.toNat < limit
  entry_iff : ∀ v, heapStart ≤ v →
    ((machine.below root 511).entryOn root (Machine.digits v) = none ↔ limit ≤ v.toNat)

namespace MappedTo

variable {m : Machine} {start : BitVec 64} {mapped : List (BitVec 64)} {root : BitVec 40}

/-- The pages that the processor finds above the start. -/
theorem walk (h : MappedTo m start mapped root limit) (hv : start ≤ v) :
    m.hardwareWalk root v = .missing ↔ limit ≤ v.toNat := by
  rw [← Machine.hardwareWalk_below h.tree (p4Index_of_ge (BitVec.le_trans h.start_ge hv)),
    h.small.missing_iff, h.entry_iff v hv]

theorem rootFrame_eq (h : MappedTo m start mapped root limit) : m.rootFrame = root :=
  Machine.rootFrame_eq (show m.pageTable = frameAddr root + m.hhdmMapping from
    h.tree.pageTable_eq)

theorem round {i : BitVec 64} (h : MappedTo m start mapped root i.toNat)
    (hi : i.toNat + 4096 < 2 ^ 64) :
    (mapHeapPage m i = .error .couldNotFindFreeEntry ∧ m.allocator.pending.length < 4) ∨
      ∃ m', mapHeapPage m i = .ok m' ∧
        MappedTo m' start (i :: mapped) root (i + pageSize).toNat ∧
        m.allocator.pending.length ≤ m'.allocator.pending.length + 4 := by
  have hge : 0xFFFFFFFF80000000 ≤ i := BitVec.le_trans h.start_ge h.start_le
  have hnone := (h.entry_iff i h.start_le).mpr (Nat.le_refl _)
  have hnext : (i + pageSize).toNat = i.toNat + 4096 := by
    rw [BitVec.toNat_add, toNat_pageSize]
    omega
  rcases mapHeapPage_spec h.tree h.small (p4Index_of_ge hge) hnone with
    herr | ⟨m', hok, htree, hsmall, hnew, hsame, hlen⟩
  · exact .inl herr
  refine .inr ⟨m', hok, ?_, hlen⟩
  rw [hnext]
  have hal := h.limit_aligned
  have hstart : start.toNat ≤ i.toNat := h.start_le
  refine ⟨htree, hsmall, h.start_ge, h.start_aligned, by omega, by omega, ?_, fun a => ?_,
    fun v hv => ?_⟩
  · refine List.nodup_cons.mpr ⟨fun hmem => ?_, h.nodup⟩
    have := (h.mem_mapped i).mp hmem
    omega
  · rw [List.mem_cons, h.mem_mapped, ← BitVec.toNat_inj]
    omega
  · have hpage := digits_eq_of_ge (BitVec.le_trans h.start_ge hv) hge
    by_cases heq : Machine.digits v = Machine.digits i
    · have := hpage.mp heq
      exact iff_of_false (heq ▸ hnew) (by omega)
    · have := mt hpage.mpr heq
      rw [hsame _ rfl heq, h.entry_iff v hv]
      omega

end MappedTo

/-- The loop maps the pages up to the last one. -/
theorem mapLoop_spec {h : RecordHeap} {root : BitVec 40} {i : BitVec 64} (last : BitVec 64)
    (fuel : Nat) (hinv : MappedTo h.machine h.heapStart h.mapped root i.toNat)
    (hlast : last.toNat + 4096 < 2 ^ 64) (hal : last.toNat % 4096 = 0)
    (hle : i.toNat ≤ last.toNat + 4096)
    (hfuel : (last.toNat + 4096 - i.toNat) / 4096 < fuel) :
    (mapLoop last fuel h i = .error .couldNotFindFreeEntry ∧
        h.machine.allocator.pending.length < 4 * ((last.toNat + 4096 - i.toNat) / 4096)) ∨
      ∃ machine mapped, mapLoop last fuel h i = .ok { h with machine, mapped } ∧
        MappedTo machine h.heapStart mapped root (last.toNat + 4096) := by
  induction fuel generalizing h i with
  | zero => exact absurd hfuel (Nat.not_lt_zero _)
  | succ fuel ih =>
    have hal' := hinv.limit_aligned
    rw [mapLoop]
    by_cases hi : i ≤ last
    · have hi' : i.toNat ≤ last.toNat := hi
      have hnext : (i + pageSize).toNat = i.toNat + 4096 := by
        rw [BitVec.toNat_add, toNat_pageSize]
        omega
      rw [if_pos hi]
      rcases hinv.round (by omega) with ⟨herr, hlen⟩ | ⟨m', hok, hinv', hlen⟩
      · rw [herr]
        exact .inl ⟨rfl, by omega⟩
      · simp only [hok, bind, Except.bind]
        rcases ih (h := { h with machine := m', mapped := i :: h.mapped }) hinv' (by omega)
          (by omega) with ⟨herr, hlen'⟩ | ⟨machine, mapped, hok', hrest⟩
        · have hlen' : m'.allocator.pending.length <
            4 * ((last.toNat + 4096 - (i + pageSize).toNat) / 4096) := hlen'
          exact .inl ⟨herr, by omega⟩
        · exact .inr ⟨machine, mapped, hok', hrest⟩
    · have hi' : last.toNat < i.toNat := Nat.lt_of_not_le hi
      rw [if_neg hi]
      refine .inr ⟨h.machine, h.mapped, rfl, ?_⟩
      have : last.toNat + 4096 = i.toNat := by omega
      rw [this]
      exact hinv

/-! ## The allocator -/

/-- The heap ends below the last page of the address space, and all its pages are mapped. -/
structure Inv (h : RecordHeap) (root : BitVec 40) : Prop where
  mappedTo : MappedTo h.machine h.heapStart h.mapped root (h.heapEnd.toNat + 4096)
  room : h.heapEnd.toNat + 4096 < 2 ^ 64
  inside : ∀ b ∈ h.regions, h.heapStart ≤ b.start ∧
    b.start.toNat + 4096 * b.pages.toNat ≤ h.heapEnd.toNat + 4096
  disjoint : h.regions.Pairwise fun b c => b.range.Disjoint c.range

variable {h h' : RecordHeap} {root : BitVec 40} {pages : Int}

theorem Inv.contiguous (hinv : h.Inv root) : h.Contiguous root := by
  have hmapped := hinv.mappedTo
  have hstart := hmapped.start_aligned
  have hlimit := hmapped.limit_aligned
  refine ⟨hmapped.nodup, fun a => ?_, fun v hv => ?_, hinv.inside, hinv.disjoint⟩
  · rw [hmapped.mem_mapped, BitVec.le_def, BitVec.le_def]
    omega
  · rw [Ne, hmapped.walk hv, Nat.not_le]

theorem Inv.set_free (hinv : h.Inv root) (free : List Block) : ({ h with free }).Inv root :=
  ⟨hinv.mappedTo, hinv.room, hinv.inside, hinv.disjoint⟩

theorem insertRegion_free (hne : start ≠ 0) :
    (h.insertRegion start pages).free = ⟨start, pages⟩ :: h.free := if_neg hne

/-- `add_region` writes to its page, if it is mapped. -/
theorem Inv.addRegion (hinv : h.Inv root) (source : RegionSource) (start : BitVec 64)
    (pages : Int) : h.addRegion source start pages = .error (.pageFault source start) ∨
      ∃ h', h.addRegion source start pages = .ok h' ∧ h'.Inv root := by
  rw [RecordHeap.addRegion]
  by_cases hmissing : h.machine.hardwareWalk h.machine.rootFrame start = .missing
  · exact .inl (if_pos hmissing)
  · exact .inr ⟨h.insertRegion start pages, if_neg hmissing, hinv.set_free _⟩

/-- In the heap every page is. -/
theorem Inv.addRegion_inside (hinv : h.Inv root) (hge : h.heapStart ≤ start)
    (hlt : start.toNat < h.heapEnd.toNat + 4096) (source : RegionSource) (pages : Int) :
    h.addRegion source start pages = .ok (h.insertRegion start pages) := by
  refine if_neg ?_
  rw [hinv.mappedTo.rootFrame_eq, hinv.mappedTo.walk hge]
  omega

/-- The heap grows by a region behind its end. -/
theorem Inv.increaseHeapSize (hinv : h.Inv root) (hpos : 1 ≤ pages) (hlt : pages < 2 ^ 19)
    (hfits : h.heapEnd.toNat + 4096 * pages.toNat + 8192 < 2 ^ 64) :
    h.increaseHeapSize pages = .error (.panic .couldNotFindFreeEntry) ∨
      ∃ h', h.increaseHeapSize pages = .ok h' ∧ h'.Inv root ∧
        h'.free = ⟨h.heapEnd + pageSize, pages⟩ :: h.free := by
  have hlimit := hinv.mappedTo.limit_aligned
  have hroom := hinv.room
  have hstart : (h.heapEnd + pageSize).toNat = h.heapEnd.toNat + 4096 := by
    rw [BitVec.toNat_add, toNat_pageSize]
    omega
  have hlast : (h.heapEnd + pageSize + pageBytes pages).toNat =
      h.heapEnd.toNat + 4096 + 4096 * pages.toNat := by
    rw [BitVec.toNat_add, hstart, toNat_pageBytes (by omega) hlt]
    omega
  have hne : h.heapEnd + pageSize ≠ 0 := by
    intro hzero
    rw [hzero] at hstart
    exact absurd hstart.symm (Nat.succ_ne_zero _)
  have hmapped := hinv.mappedTo
  rw [← hstart] at hmapped
  rw [RecordHeap.increaseHeapSize]
  generalize h.heapEnd + pageSize = start at *
  generalize start + pageBytes pages = last at *
  rcases mapLoop_spec last loopLimit hmapped (by omega) (by omega) (by omega)
      (by simp only [loopLimit]; omega) with ⟨herr, -⟩ | ⟨machine, mapped, hok, hmapped'⟩
  · rw [herr]
    exact .inl rfl
  have hroom' : last.toNat + 4096 < 2 ^ 64 := by omega
  have hge : h.heapStart ≤ start := by
    rw [BitVec.le_def, hstart]
    exact hinv.mappedTo.start_le
  have hinv' : Inv { h with
      machine, mapped, heapEnd := last, regions := ⟨start, pages⟩ :: h.regions } root := by
    refine ⟨hmapped', hroom', fun b hb => ?_, List.pairwise_cons.mpr ⟨fun b hb p hp hp' => ?_,
      hinv.disjoint⟩⟩
    · rcases List.mem_cons.mp hb with rfl | hb
      · exact ⟨hge, by dsimp only; omega⟩
      · obtain ⟨hge', hle⟩ := hinv.inside b hb
        exact ⟨hge', by dsimp only; omega⟩
    · obtain ⟨-, hle⟩ := hinv.inside b hb
      simp only [Range.Covers, Block.range, hstart] at hp hp'
      omega
  simp only [hok, Except.mapError, bind, Except.bind]
  refine .inr ⟨_, hinv'.addRegion_inside hge (by dsimp only; omega) _ _, hinv'.set_free _,
    insertRegion_free hne⟩

theorem Inv.takeRegion (hinv : h.Inv root) (hpos : 1 ≤ pages) (hlt : pages < 2 ^ 19)
    (hfits : getValidRegion pages h.free = none →
      h.heapEnd.toNat + 4096 * pages.toNat + 8192 < 2 ^ 64) :
    h.takeRegion pages = .error (.panic .couldNotFindFreeEntry) ∨
      ∃ region h', h.takeRegion pages = .ok (region, h') ∧ h'.Inv root := by
  rw [RecordHeap.takeRegion]
  cases hfind : getValidRegion pages h.free with
  | some res => exact .inr ⟨res.1, _, rfl, hinv.set_free res.2⟩
  | none =>
    rcases hinv.increaseHeapSize hpos hlt (hfits hfind) with herr | ⟨h', hok, hinv', hfree⟩
    · left
      rw [herr]
      rfl
    · -- the new region is the first of the list, and large enough
      have hfirst : getValidRegion pages h'.free = some (⟨h.heapEnd + pageSize, pages⟩, h.free) := by
        rw [hfree, getValidRegion, if_neg (Int.lt_irrefl pages)]
      right
      simp only [hok, bind, Except.bind, hfirst]
      exact ⟨_, _, rfl, hinv'.set_free h.free⟩

theorem Inv.step {op : RecordOp} (hinv : h.Inv root) (hop : op.Valid ∧ op.Fits h) :
    (∃ e, h.step op = .error e ∧ e.Allowed) ∨
      ∃ res h', h.step op = .ok (res, h') ∧ h'.Inv root := by
  cases op with
  | listAlloc pages =>
    obtain ⟨⟨hpos, hlt⟩, hfits⟩ := hop
    rw [RecordHeap.step, listAlloc]
    rcases hinv.takeRegion hpos hlt hfits with herr | ⟨region, h₁, hok, hinv₁⟩
    · rw [herr]
      exact .inl ⟨_, rfl, rfl⟩
    · simp only [hok, bind, Except.bind]
      by_cases hexcess : region.pages - pages > 0
      · rw [if_pos hexcess]
        rcases hinv₁.addRegion .rest (region.start + pageBytes (region.pages - pages))
          (region.pages - pages) with hfault | ⟨h₂, hok₂, hinv₂⟩
        · rw [hfault]
          exact .inl ⟨_, rfl, nofun⟩
        · rw [hok₂]
          exact .inr ⟨_, h₂, rfl, hinv₂⟩
      · rw [if_neg hexcess]
        exact .inr ⟨_, h₁, rfl, hinv₁⟩
  | addRegion start pages =>
    rw [RecordHeap.step]
    rcases hinv.addRegion .client start pages with hfault | ⟨h₁, hok₁, hinv₁⟩
    · rw [hfault]
      exact .inl ⟨_, rfl, nofun⟩
    · rw [hok₁]
      exact .inr ⟨none, h₁, rfl, hinv₁⟩

end RecordHeap

/-! ## The first heap -/

theorem toNat_alignUp {x : BitVec 64} (hx : x.toNat + 4095 < 2 ^ 64) :
    (alignUp x pageSize).toNat = (x.toNat + 4095) / 4096 * 4096 := by
  have hmask (i : Fin 64) : (~~~(pageSize - 1)).getLsbD i.val = decide (12 ≤ i.val) := by
    revert i
    decide
  have halign (y : BitVec 64) : y &&& ~~~(pageSize - 1) = y >>> 12 <<< 12 := by
    ext i hi
    have hbit := hmask ⟨i, hi⟩
    rw [BitVec.getLsbD_eq_getElem hi] at hbit
    rw [BitVec.getElem_and, hbit, BitVec.getElem_shiftLeft]
    by_cases h12 : i < 12
    · simp [h12]
    · have hle : 12 ≤ i := Nat.le_of_not_lt h12
      have hindex : 12 + (i - 12) = i := Nat.add_sub_of_le hle
      simp [h12, hle, hindex, BitVec.getLsbD_eq_getElem hi]
  have hsum : (x + pageSize - 1).toNat = x.toNat + 4095 := by
    simp only [BitVec.toNat_sub, BitVec.toNat_add, toNat_pageSize, BitVec.reduceToNat]
    omega
  rw [alignUp, halign, BitVec.toNat_shiftLeft, BitVec.toNat_ushiftRight, hsum,
    Nat.shiftRight_eq_div_pow, Nat.shiftLeft_eq]
  omega

variable {m : Machine} {memoryMap : List MemmapEntry} {cr3 kernelEndAddr : BitVec 64}

theorem initPageTable_pageTable (m : Machine) (cr3 : BitVec 64) :
    (m.initPageTable cr3).pageTable =
      frameAddr (frameNumber cr3) + (m.initPageTable cr3).hhdmMapping := by
  have hroot : readCr3 cr3 <<< 12 >>> 12 = frameAddr (frameNumber cr3) := by
    apply BitVec.eq_of_toNat_eq
    rw [toNat_frameAddr]
    simp only [readCr3, frameNumber, BitVec.toNat_setWidth, BitVec.toNat_ushiftRight,
      BitVec.toNat_shiftLeft, Nat.shiftRight_eq_div_pow, Nat.shiftLeft_eq]
    omega
  rw [Machine.initPageTable, hroot]

/-- Where the first heap starts. -/
theorem BootState.start (h : BootState m memoryMap cr3 kernelEndAddr) :
    (alignUp (kernelEndAddr + 0x10000) pageSize).toNat =
      (kernelEndAddr.toNat + 0x10FFF) / 4096 * 4096 := by
  have hle : kernelEndAddr.toNat ≤ 0xFFFFFFFFFFFCE000 := h.kernelEnd_le
  have hgap : (0x10000 : BitVec 64).toNat = 0x10000 := rfl
  have hsum : (kernelEndAddr + 0x10000).toNat = kernelEndAddr.toNat + 0x10000 := by
    rw [BitVec.toNat_add, hgap]
    omega
  rw [toNat_alignUp (by omega), hsum]

theorem BootState.start_le (h : BootState m memoryMap cr3 kernelEndAddr) :
    (alignUp (kernelEndAddr + 0x10000) pageSize).toNat + 0x22000 ≤ 2 ^ 64 := by
  have hle : kernelEndAddr.toNat ≤ 0xFFFFFFFFFFFCE000 := h.kernelEnd_le
  rw [h.start]
  omega

theorem BootState.mappedTo (h : BootState m memoryMap cr3 kernelEndAddr) (ha : a.Inv)
    (hpending : a.pending = usableFrames memoryMap) :
    RecordHeap.MappedTo ({ m with allocator := a }.initPageTable cr3)
      (alignUp (kernelEndAddr + 0x10000) pageSize) [] (frameNumber cr3)
      (alignUp (kernelEndAddr + 0x10000) pageSize).toNat := by
  have hge : 0xFFFFFFFF80000000 ≤ kernelEndAddr.toNat := h.kernelEnd_ge
  have hle : kernelEndAddr.toNat ≤ 0xFFFFFFFFFFFCE000 := h.kernelEnd_le
  have hstart := h.start
  have hunmapped := h.unmapped
  generalize alignUp (kernelEndAddr + 0x10000) pageSize = start at *
  have hstart_ge : 0xFFFFFFFF80000000 ≤ start := by
    rw [BitVec.le_def, hstart]
    simp only [BitVec.reduceToNat]
    omega
  generalize hm : { m with allocator := a }.initPageTable cr3 = m'
  have htree : (m'.below (frameNumber cr3) 511).TableInv (frameNumber cr3) := by
    subst hm
    refine ⟨initPageTable_pageTable _ cr3, h.distinct, fun hp hn => ?_, ha, ?_, ?_⟩
    · exact hpending ▸ h.fresh hp hn
    · exact hpending ▸ nodup_usableFrames h.map_ok
    · exact hpending ▸ h.frames_lt
  have hsmall : (m'.below (frameNumber cr3) 511).SmallPages (frameNumber cr3) := by
    subst hm
    exact h.small
  refine ⟨htree, hsmall, hstart_ge, by omega, Nat.le_refl _, by omega, .nil, fun b => ?_,
    fun v hv => ?_⟩
  · simp only [List.not_mem_nil, false_iff]
    omega
  · refine iff_of_true (hsmall.missing_iff.mp ?_) hv
    rw [Machine.hardwareWalk_below htree (p4Index_of_ge (BitVec.le_trans hstart_ge hv))]
    subst hm
    exact hunmapped v hv

/-- The loop of `setup_allocator` maps the first heap. -/
theorem RecordHeap.mapLoop_first {m : Machine} {start : BitVec 64} {root : BitVec 40}
    (hmapped : MappedTo m start [] root start.toNat) (hend : start.toNat + 0x22000 ≤ 2 ^ 64) :
    (mapLoop (start + heapSize) loopLimit ⟨m, [], start, 0, [], []⟩ start =
        .error .couldNotFindFreeEntry ∧ m.allocator.pending.length < 4 * 33) ∨
      ∃ machine mapped, mapLoop (start + heapSize) loopLimit ⟨m, [], start, 0, [], []⟩ start =
          .ok ⟨machine, [], start, 0, mapped, []⟩ ∧
        Inv ⟨machine, [], start, start + heapSize, mapped, [⟨start, 32⟩]⟩ root := by
  have hal := hmapped.start_aligned
  have hlast : (start + heapSize).toNat = start.toNat + 0x20000 := by
    rw [BitVec.toNat_add, toNat_heapSize]
    omega
  have hlen : ((start + heapSize).toNat + 4096 - start.toNat) / 4096 = 33 := by omega
  have hroom : (start + heapSize).toNat + 4096 < 2 ^ 64 := by omega
  have hspec := mapLoop_spec (h := ⟨m, [], start, 0, [], []⟩) (start + heapSize) loopLimit hmapped
    hroom (by omega) (by omega) (by rw [hlen]; decide)
  rw [hlen] at hspec
  rcases hspec with herr | ⟨machine, mapped, hok, hmapped'⟩
  · exact .inl herr
  · refine .inr ⟨machine, mapped, hok, hmapped', hroom, fun b hb => ?_, List.pairwise_singleton _ _⟩
    obtain rfl := List.mem_singleton.mp hb
    refine ⟨BitVec.le_refl start, ?_⟩
    show start.toNat + 4096 * 32 ≤ (start + heapSize).toNat + 4096
    omega

/-- `setup_allocator` maps the first heap and adds all but its last page. -/
theorem BootState.setupAllocator (h : BootState m memoryMap cr3 kernelEndAddr) :
    (RecordHeap.setupAllocator m memoryMap cr3 kernelEndAddr =
          .error (.panic .couldNotFindFreeEntry) ∧
        (usableFrames memoryMap).length < 4 * 33) ∨
      ∃ heap, RecordHeap.setupAllocator m memoryMap cr3 kernelEndAddr = .ok heap ∧
        heap.Inv (frameNumber cr3) ∧
        heap.free = [⟨alignUp (kernelEndAddr + 0x10000) pageSize, 32⟩] ∧
        heap.heapEnd = alignUp (kernelEndAddr + 0x10000) pageSize + heapSize := by
  have hmap := h.map_ok
  rw [RecordHeap.setupAllocator, initFrameAllocator]
  rcases nextUsable_spec (a := ⟨memoryMap, true, 0, 0⟩)
    (fun e he hu => ⟨hmap.range e he hu, hmap.nonempty e he hu⟩) with
    ⟨herr, hall⟩ | ⟨a, hok, ha, hpending, -⟩
  · rw [herr]
    refine .inl ⟨rfl, ?_⟩
    rw [usableFrames_eq_nil hall]
    decide
  have hmapped := h.mappedTo ha hpending
  have hend := h.start_le
  have hne : alignUp (kernelEndAddr + 0x10000) pageSize ≠ 0 := by
    intro hzero
    have hge : 0xFFFFFFFF80000000 ≤ alignUp (kernelEndAddr + 0x10000) pageSize := hmapped.start_ge
    rw [hzero] at hge
    exact absurd hge (by decide)
  have hpages : (heapSize / pageSize).toInt = 32 := by decide
  rw [hok, Except.map, Except.mapError, ok_bind]
  dsimp only
  rcases RecordHeap.mapLoop_first hmapped hend with ⟨herr, hlen⟩ | ⟨machine, mapped, hok, hinv⟩
  · rw [herr, Except.mapError, error_bind]
    exact .inl ⟨rfl, hpending ▸ hlen⟩
  · rw [hok, Except.mapError, ok_bind, hpages]
    obtain ⟨-, hinside⟩ := hinv.inside _ (List.mem_singleton_self _)
    have hlt : (alignUp (kernelEndAddr + 0x10000) pageSize).toNat <
        (alignUp (kernelEndAddr + 0x10000) pageSize + heapSize).toNat + 4096 :=
      Nat.lt_of_lt_of_le (Nat.lt_add_of_pos_right (show 0 < 4096 * (32 : Int).toNat by decide))
        hinside
    exact .inr ⟨_, hinv.addRegion_inside (BitVec.le_refl _) hlt _ _, hinv.set_free _,
      RecordHeap.insertRegion_free hne, rfl⟩

/-- After `setup_allocator`, in every run of requests and frees in which the heap stays below the
last page of the address space, the pages mapped are those from the start of the heap to its end,
each mapped once, and the regions added lie within them and are disjoint. A call panics only when
the frames have run out, and the heap grows by pages that can be written. -/
theorem heap_growth (m : Machine) (memoryMap : List MemmapEntry) (cr3 kernelEndAddr : BitVec 64)
    (h : BootState m memoryMap cr3 kernelEndAddr) :
    (∀ e, RecordHeap.setupAllocator m memoryMap cr3 kernelEndAddr = .error e → e.Allowed) ∧
      ∀ heap, RecordHeap.setupAllocator m memoryMap cr3 kernelEndAddr = .ok heap →
        ∀ ops, Run.Along RecordHeap.step (fun heap op => op.Valid ∧ op.Fits heap) heap ops →
          Run.Safe RecordHeap.step HeapStop.Allowed (·.Contiguous (frameNumber cr3)) heap ops := by
  rcases h.setupAllocator with ⟨herr, -⟩ | ⟨heap, hok, hinv, -, -⟩
  · rw [herr]
    refine ⟨fun e he => ?_, fun heap hok => ?_⟩
    · cases he
      rfl
    · cases hok
  · rw [hok]
    refine ⟨fun e he => ?_, fun heap' hok' ops hops => ?_⟩
    · cases he
    · cases hok'
      exact Run.safe_of_along RecordHeap.Inv.contiguous RecordHeap.Inv.step hinv hops

/-- Memory without tables. -/
def bareMachine : Machine where
  mem _ := .zero
  hhdmMapping := 0xFFFF800000000000
  pageTable := 0
  allocator := { memoryMap := [], next := { start := true, base := 0, length := 0 } }

/-- 144 frames. -/
def bareMap : List MemmapEntry := [⟨0x100000, 0x90000, memmapUsable⟩]

theorem bootState_bare : BootState bareMachine bareMap 0x1000 0xFFFFFFFF80100000 := by
  have hroot : frameNumber 0x1000 = 1 := by decide
  have hentry (n i) : (bareMachine.below 1 511).presentEntry n i = none :=
    Machine.presentEntry_eq_none.mpr (congrArg PageEntry.present (ite_self _))
  have htable {p n} (hn : (bareMachine.below 1 511).tableOn 1 p = some n) : p = [] ∧ n = 1 := by
    cases p with
    | nil => exact ⟨rfl, (Option.some.inj hn).symm⟩
    | cons i p =>
      simp only [Machine.tableOn, Radix.follow, Radix.child, hentry] at hn
      cases hn
  have hmap : WellFormedMap bareMap := by decide
  refine ⟨by decide, by decide, hmap, fun f hf => ?_, ?_, fun {p n} hp hn hf => ?_, ?_,
    fun v _ => ?_⟩
  · obtain ⟨e, he, -, -, -, -, hlt⟩ := (mem_usableFrames hmap).mp hf
    obtain rfl := List.mem_singleton.mp he
    simp only [BitVec.reduceToNat] at hlt
    omega
  · rw [hroot]
    exact fun _ _ hp hq => (htable hp).1.trans (htable hq).1.symm
  · rw [hroot] at hn
    rw [(htable hn).2] at hf
    obtain ⟨e, he, -, -, -, hle, -⟩ := (mem_usableFrames hmap).mp hf
    obtain rfl := List.mem_singleton.mp he
    revert hle
    decide
  · rw [hroot]
    intro q e _ he
    induction q using List.reverseRecOn with
    | nil => cases he
    | append_singleton q i _ =>
      rw [Machine.entryOn_concat] at he
      cases hn : (bareMachine.below 1 511).tableOn 1 q with
      | none =>
        rw [hn] at he
        cases he
      | some n =>
        rw [hn, Option.bind_some, hentry] at he
        cases he
  · rw [Machine.hardwareWalk]
    exact if_pos (Or.inl rfl)

theorem setupAllocator_bare : ∃ heap,
    RecordHeap.setupAllocator bareMachine bareMap 0x1000 0xFFFFFFFF80100000 = .ok heap ∧
      heap.Inv (frameNumber 0x1000) ∧ heap.free = [⟨0xFFFFFFFF80110000, 32⟩] ∧
      heap.heapEnd = 0xFFFFFFFF80130000 := by
  rcases bootState_bare.setupAllocator with ⟨-, hlen⟩ | ⟨heap, hok, hinv, hfree, hend⟩
  · have hframes : usableFrames bareMap = framesOf 0x100000 0x90000 := List.append_nil _
    rw [hframes, length_framesOf (by decide) (by decide)] at hlen
    exact absurd hlen (by decide)
  · have hstart : alignUp (0xFFFFFFFF80100000 + 0x10000) pageSize = 0xFFFFFFFF80110000 := by decide
    rw [hstart] at hfree hend
    exact ⟨heap, hok, hinv, hfree, hend.trans (by decide)⟩

/-- A request for more pages than the first heap has. -/
theorem heap_growth_bare : ∃ heap,
    RecordHeap.setupAllocator bareMachine bareMap 0x1000 0xFFFFFFFF80100000 = .ok heap ∧
      Run.Safe RecordHeap.step HeapStop.Allowed (·.Contiguous (frameNumber 0x1000)) heap
        [.listAlloc 40] := by
  obtain ⟨heap, hok, -, -, hend⟩ := setupAllocator_bare
  refine ⟨heap, hok, (heap_growth _ _ _ _ bootState_bare).2 heap hok _
    ⟨⟨⟨by decide, by decide⟩, fun _ => ?_⟩, fun _ _ _ => trivial⟩⟩
  rw [hend]
  decide

namespace RecordHeap

/-- If the new end of the heap wraps, no page is mapped, and `add_region` writes to the one behind
the heap. -/
theorem step_wraps {h : RecordHeap} {pages : Int} (hinv : h.Inv root)
    (hnone : getValidRegion pages h.free = none)
    (hwrap : h.heapEnd + pageSize + pageBytes pages < h.heapEnd + pageSize) :
    h.step (.listAlloc pages) = .error (.pageFault .heap (h.heapEnd + pageSize)) := by
  obtain ⟨n, hn⟩ : ∃ n, loopLimit = n + 1 := ⟨2 ^ 64 - 1, by decide⟩
  have hroom := hinv.room
  have hstart : (h.heapEnd + pageSize).toNat = h.heapEnd.toNat + 4096 := by
    rw [BitVec.toNat_add, toNat_pageSize]
    omega
  have hge : h.heapStart ≤ h.heapEnd + pageSize := by
    rw [BitVec.le_def, hstart]
    exact hinv.mappedTo.start_le
  have hmissing : h.machine.hardwareWalk h.machine.rootFrame (h.heapEnd + pageSize) = .missing := by
    rw [hinv.mappedTo.rootFrame_eq, hinv.mappedTo.walk hge]
    exact Nat.le_of_eq hstart.symm
  have hgrow : h.increaseHeapSize pages = .error (.pageFault .heap (h.heapEnd + pageSize)) := by
    rw [increaseHeapSize, hn, mapLoop, if_neg (BitVec.not_le.mpr hwrap)]
    exact if_pos hmissing
  rw [step, listAlloc, takeRegion, hnone]
  simp only [hgrow, bind, Except.bind]

end RecordHeap

/-- The first request is for `2 ^ 19 - 1` pages: the end of the heap wraps, no page is mapped, and
the region that is added is on pages that are not mapped. -/
theorem heap_growth_wraps :
    BootState bareMachine bareMap 0x1000 0xFFFFFFFF80100000 ∧ ∃ heap,
      RecordHeap.setupAllocator bareMachine bareMap 0x1000 0xFFFFFFFF80100000 = .ok heap ∧
      RecordOp.Valid (.listAlloc (2 ^ 19 - 1)) ∧
      heap.step (.listAlloc (2 ^ 19 - 1)) = .error (.pageFault .heap 0xFFFFFFFF80131000) ∧
      ¬Run.Safe RecordHeap.step HeapStop.Allowed (·.Contiguous (frameNumber 0x1000)) heap
        [.listAlloc (2 ^ 19 - 1)] := by
  obtain ⟨heap, hok, hinv, hfree, hend⟩ := setupAllocator_bare
  have hnone : RecordHeap.getValidRegion (2 ^ 19 - 1) heap.free = none := by
    rw [hfree]
    decide
  have hwrap : heap.heapEnd + pageSize + pageBytes (2 ^ 19 - 1) < heap.heapEnd + pageSize := by
    rw [hend]
    decide
  have hstep := RecordHeap.step_wraps hinv hnone hwrap
  rw [hend] at hstep
  refine ⟨bootState_bare, heap, hok, ⟨by decide, by decide⟩, hstep, fun hsafe => ?_⟩
  exact hsafe.2.1 _ hstep rfl

end Lethe
