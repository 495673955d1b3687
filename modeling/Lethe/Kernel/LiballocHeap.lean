import Lethe.Kernel.LiballocState

/-!
# The pages of the kernel heap

`memory/alloc.c` gives `liballoc.c` the pages of `memory/list_allocator.c`. A call asks for at least
`l_pageCount = 16` pages, and `setup_allocator` adds a region of 32, so that the regions have 16 or
32 pages as long as no call asks for more than 16. Then `list_alloc` always cuts a region in two
halves, and is a lawful source of pages (`kernelPages_lawful`).
-/

namespace Lethe

/-- `liballoc_alloc` and `liballoc_free` of `memory/alloc.c`. -/
def kernelPages : PageSource KernelHeap where
  liballocAlloc pages h := h.listAlloc pages.toInt
  liballocFree ptr pages h := h.liballocFree ptr pages.toInt

/-- A page of a region that has been added to the heap, in addition to those `given` before. -/
def KernelHeap.HeapPage (h : KernelHeap) (given : List Block) (p : Nat) : Prop :=
  ∃ b ∈ given ++ h.grown, b.range.Covers p

/-- The pages of the heap are mapped, and each is in one of the blocks that `liballoc.c` holds or in
a region of the list. The last page of the address space is none of them. -/
structure KernelOwns (given : List Block) (h : KernelHeap) (held : List Block) (free : List Block) :
    Prop where
  inv : HeapInv h held free (h.HeapPage given)
  pages : ∀ b ∈ free, b.pages = 16 ∨ b.pages = 32
  top : ¬h.HeapPage given (2 ^ 52 - 1)

/-- `liballoc.c` holds these blocks, of 16 pages each. -/
def KernelHeap.Owns (given : List Block) (h : KernelHeap) (held : List Block) : Prop :=
  (∀ b ∈ held, b.pages = 16) ∧ ∃ free, KernelOwns given h held free

/-- The heap can grow without an overflow of `heap_end`. -/
def KernelHeap.Room (h : KernelHeap) : Prop :=
  (h.heapEnd + pageSize).toNat + 4096 * 16 < 2 ^ 64

instance : DecidablePred KernelHeap.Room := fun _ => inferInstanceAs (Decidable (_ < _))

variable {given held free : List Block} {h : KernelHeap} {b : Block}

namespace KernelOwns

/-- The first region of the list is taken whole or cut in two. -/
theorem fits (hk : KernelOwns given h held free) (hroom : h.Room) : h.FitsExactly 16 free := by
  unfold KernelHeap.FitsExactly
  cases hfind : free.find? ((16 : Int) ≤ ·.pages) with
  | none => exact .inl hroom
  | some b => exact hk.pages b (List.mem_of_find?_eq_some hfind)

/-- A block does not reach to the end of the address space. -/
theorem usable (hk : KernelOwns given h held free) (hb : b ∈ held) (hpages : b.pages = 16) :
    b.Usable := by
  have hmem := List.mem_append_left free hb
  have hok := hk.inv.ok b hmem
  refine ⟨hok, by omega, by omega, Nat.lt_of_not_le fun hle => hk.top ?_⟩
  refine hk.inv.covers_added hmem ?_
  have hal := hok.aligned
  have hlt := b.start.isLt
  rw [Block.limit, hpages] at hle
  rw [Range.Covers, Block.range, hpages]
  dsimp only
  omega

end KernelOwns

/-- `list_alloc` of 16 pages. -/
theorem kernelPages_alloc {h' : KernelHeap} {region : BitVec 64}
    (hk : KernelOwns given h held free) (hroom : h.Room)
    (hok : h.listAlloc 16 = .ok (region, h')) :
    ∃ free', KernelOwns given h' (⟨region, 16⟩ :: held) free' := by
  obtain ⟨free', new, hgrown, hinv, hnew, hfree⟩ :=
    hk.inv.listAlloc (by decide) (by decide) (hk.fits hroom) hok
  have hpage (p) : h'.HeapPage given p ↔
      (∃ g ∈ new, g.range.Covers p) ∨ h.HeapPage given p := by
    simp only [KernelHeap.HeapPage, hgrown, List.mem_append, or_and_right, exists_or]
    exact or_left_comm
  refine ⟨free', hinv.congr hpage, fun c hc => (hfree c hc).elim (hk.pages c) .inl, ?_⟩
  rw [hpage]
  rintro (⟨g, hg, hcovers⟩ | htop)
  · -- the new pages lie below the end of the address space
    rw [hnew g hg] at hcovers
    obtain ⟨-, hlt⟩ := hcovers
    have hroom' : (h.heapEnd + pageSize).toNat + 4096 * 16 < 2 ^ 64 := hroom
    dsimp only [Block.range] at hlt
    omega
  · exact hk.top htop

/-- `memory/list_allocator.c` hands out and takes back blocks of 16 pages. It does not return
`NULL`. -/
theorem kernelPages_lawful (given : List Block) :
    kernelPages.Lawful (KernelHeap.Owns given) KernelHeap.Room 16 False where
  limit_ge := Nat.le_refl _
  limit_lt := by decide
  alloc := by
    rintro h held n ⟨hpages, free, hk⟩ hroom hge hle
    obtain rfl : n = 16 := BitVec.eq_of_toNat_eq (Nat.le_antisymm hle hge)
    cases halloc : kernelPages.liballocAlloc 16 h with
    | error e => exact .error trivial
    | ok r =>
      obtain ⟨region, h'⟩ := r
      obtain ⟨free', hk'⟩ := kernelPages_alloc hk hroom halloc
      have hpages' : ∀ b ∈ (⟨region, 16⟩ : Block) :: held, b.pages = 16 :=
        List.forall_mem_cons.mpr ⟨rfl, hpages⟩
      refine .ok (.inr ⟨hk'.usable List.mem_cons_self rfl, ?_, hpages', free', hk'⟩)
      have hdisjoint := List.pairwise_map.mp hk'.inv.tiles.disjoint
      exact fun b hb => (List.pairwise_cons.mp hdisjoint).1 b (List.mem_append_left _ hb)
  free := by
    rintro h held b ⟨hpages, free, hk⟩ hb
    obtain ⟨h', hadd, hinv, hgrown⟩ := hk.inv.release hb
    have hb16 := hpages b hb
    have hpage : h'.HeapPage given = h.HeapPage given := by
      unfold KernelHeap.HeapPage
      rw [hgrown]
    refine ⟨h', ?_, fun c hc => hpages c (List.mem_of_mem_erase hc), b :: free, ?_⟩
    · rw [← hadd, hb16]
      rfl
    · refine ⟨hpage ▸ hinv, List.forall_mem_cons.mpr ⟨.inl hb16, hk.pages⟩, ?_⟩
      rw [hpage]
      exact hk.top

/-- A heap whose only region has 32 pages. -/
theorem kernelOwns_of_region (hinv : HeapInv h [] [b] (h.HeapPage given)) (hpages : b.pages = 32)
    (hlimit : b.limit < 2 ^ 64) : h.Owns given [] := by
  refine ⟨nofun, [b], hinv, List.forall_mem_singleton.mpr (.inr hpages), fun htop => ?_⟩
  obtain ⟨r, hr, hcovers⟩ := (hinv.tiles.covers _).mp htop
  rw [List.nil_append, List.map_singleton, List.mem_singleton] at hr
  have hal := (hinv.ok b List.mem_cons_self).aligned
  rw [hr, Range.Covers, Block.range, hpages] at hcovers
  rw [Block.limit, hpages] at hlimit
  dsimp only at hcovers
  omega

/-- The heap of 32 pages that `setup_allocator` would leave at page 1. -/
theorem owns_lowHeap32 : HeapRun.lowHeap32.heap.Owns [⟨0x1000, 32⟩] [] := by
  obtain ⟨free, hinv⟩ := HeapRun.inv_step HeapRun.initial_lowHeap.inv HeapRun.valid_lowHeap trivial
    HeapRun.step_lowHeap
  have hfree : Chain HeapRun.lowHeap32.heap.nodes HeapRun.lowHeap32.heap.head [⟨0x1000, 32⟩] :=
    ⟨by decide, rfl, rfl, rfl⟩
  cases hinv.chain.unique hfree
  exact kernelOwns_of_region hinv rfl (by decide)

end Lethe
