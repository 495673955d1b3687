import Mathlib.Algebra.Group.Nat.Defs
import Mathlib.Tactic.Common

/-!
# Memory and globals of the kernel

Physical memory is read and written by the modelled code as page-table entries only, so `mem`
holds the `page_entry_t` at each physical address. The bootloader maps all of it at `hhdm_mapping`
(`Machine.phys`). A call that does not return is a `Panic`.
-/

namespace Lethe

/-- `PAGE_SIZE`. -/
def pageSize : BitVec 64 := 4096

@[simp] theorem toNat_pageSize : pageSize.toNat = 4096 := rfl

/-- `page_entry_t`. -/
structure PageEntry where
  present : BitVec 1
  writable : BitVec 1
  userAccessable : BitVec 1
  writeThrough : BitVec 1
  cacheDisable : BitVec 1
  accessed : BitVec 1
  unused1 : BitVec 1
  pageSize : BitVec 1
  unused2 : BitVec 4
  address : BitVec 40
  unused3 : BitVec 11
  executeDisable : BitVec 1
  deriving DecidableEq, Repr

/-- `(page_entry_t){ 0 }`. -/
def PageEntry.zero : PageEntry := ⟨0, 0, 0, 0, 0, 0, 0, 0, 0, 0, 0, 0⟩

/-- The ways in which a call does not return: the calls of `panic` and `abort`, the access to an
address that is not mapped, and a loop that never ends. -/
inductive Panic where
  /-- `"Could not find a free entry\n"`. -/
  | couldNotFindFreeEntry
  /-- `"Failed to allocate space for page entry\n"`. -/
  | failedToAllocateEntry
  /-- `"Page is already mapped: %llx -> %llx\n"`. -/
  | alreadyMapped (frame page : BitVec 64)
  /-- `"Out of Memory\n"`. -/
  | outOfMemory
  /-- `"No IO APIC found\n"`. -/
  | noIoApicFound
  | abort
  | pageFault (address : BitVec 64)
  | doesNotReturn
  deriving DecidableEq, Repr

/-- More rounds than a loop that ends can make: one that is still running after as many rounds as
there are addresses never ends. -/
def loopLimit : Nat := 2 ^ 64

/-- `struct limine_memmap_entry`. -/
structure MemmapEntry where
  base : BitVec 64
  length : BitVec 64
  type : BitVec 64
  deriving DecidableEq, Repr

/-- `frame_t`. -/
structure Frame where
  start : Bool
  base : BitVec 64
  length : BitVec 64
  deriving DecidableEq, Repr

/-- `frame_allocator_t`. -/
structure FrameAllocator where
  memoryMap : List MemmapEntry
  next : Frame
  deriving DecidableEq, Repr

/-- Physical memory with the globals `hhdm_mapping`, `page_table` and `allocator`. -/
structure Machine where
  mem : BitVec 64 → PageEntry
  hhdmMapping : BitVec 64
  pageTable : BitVec 64
  allocator : FrameAllocator

namespace Machine

/-- The physical address behind a pointer into the direct mapping. -/
def phys (m : Machine) (ptr : BitVec 64) : BitVec 64 := ptr - m.hhdmMapping

/-- `memset(ptr, 0, PAGE_SIZE)`. -/
def zeroPage (m : Machine) (ptr : BitVec 64) : Machine :=
  { m with mem := fun a => if a - m.phys ptr < Lethe.pageSize then .zero else m.mem a }

@[simp] theorem zeroPage_allocator (m : Machine) (ptr) :
    (m.zeroPage ptr).allocator = m.allocator := rfl

end Machine

end Lethe
