import Lethe.Kernel.ListAllocator
import Lethe.Lib.Run
import Lethe.Lib.Tiling
import Mathlib.Algebra.Group.Int.Defs
import Mathlib.Data.List.Perm.Subperm

/-!
# The blocks of the page allocator

A client adds ranges of mapped pages, takes blocks and gives them back; `HeapRun` records what it
has added and what it holds. `HeapRun.Partition` says that its blocks and the free regions are
disjoint and are together the pages ever added.

`list_alloc` puts the rest of a region that is too large at `region + excess * PAGE_SIZE`, which is
the end of the block it returns only for a region of twice the requested size
(`listAlloc_overlaps_block`). `listAllocator_partition` is the property of the runs in which the
first region that is large enough has the requested size or twice that size.
-/

namespace Lethe

/-- The calls of a client. -/
inductive HeapOp where
  | addRegion (start : BitVec 64) (pages : Int)
  | listAlloc (pages : Int)
  | liballocFree (block : Block)
  deriving DecidableEq, Repr

/-- The allocator with the history of its client. -/
structure HeapRun where
  heap : KernelHeap
  /-- Ghost: the ranges the client has added. -/
  given : List Block
  /-- Ghost: the blocks the client holds. -/
  held : List Block

namespace HeapRun

/-- The ranges ever added. -/
def added (r : HeapRun) : List Block := r.given ++ r.heap.grown

/-- One call; `list_alloc` answers with the block it returns. -/
def step (r : HeapRun) : HeapOp → Except Panic (Option (BitVec 64) × HeapRun)
  | .addRegion start pages => do
    let heap ← r.heap.addRegion start pages
    pure (none, { r with heap, given := ⟨start, pages⟩ :: r.given })
  | .listAlloc pages => do
    let (region, heap) ← r.heap.listAlloc pages
    pure (some region, { r with heap, held := ⟨region, pages⟩ :: r.held })
  | .liballocFree block => do
    let heap ← r.heap.liballocFree block.start block.pages
    pure (none, { r with heap, held := r.held.erase block })

end HeapRun

/-! ## The partition -/

namespace Block

/-- The page numbers of a block. -/
def range (b : Block) : Range := ⟨b.start.toNat / 4096, b.pages.toNat⟩

/-- Whole pages, at least one of them, not at `NULL` and within the address space. -/
structure Ok (b : Block) : Prop where
  start_ne : b.start ≠ 0
  aligned : b.start.toNat % 4096 = 0
  pages_pos : 1 ≤ b.pages
  pages_lt : b.pages < 2 ^ 31
  end_le : b.start.toNat + 4096 * b.pages.toNat ≤ 2 ^ 64

end Block

/-- The case in which `list_alloc` is right: the first region with enough pages has the requested
number of pages or twice that number; or there is none, and the new end of the heap does not wrap
or the new region is not accessible. -/
def KernelHeap.FitsExactly (h : KernelHeap) (pages : Int) (free : List Block) : Prop :=
  match free.find? (pages ≤ ·.pages) with
  | some b => b.pages = pages ∨ b.pages = 2 * pages
  | none => (h.heapEnd + pageSize).toNat + 4096 * pages.toNat < 2 ^ 64 ∨
      ¬ h.Mapped (h.heapEnd + pageSize)

namespace HeapRun

/-- The pages ever added. -/
def AddedPage (r : HeapRun) (p : Nat) : Prop := ∃ b ∈ r.added, b.range.Covers p

/-- The blocks the client holds and the free regions of the list are disjoint, and together they
are the pages ever added. -/
def Partition (r : HeapRun) : Prop :=
  ∃ free, Chain r.heap.nodes r.heap.head free ∧
    Tiles ((r.held ++ free).map Block.range) r.AddedPage

end HeapRun

/-! ## The invariant -/

/-- The first address of a page. -/
def pageAddr (p : Nat) : BitVec 64 := BitVec.ofNat 64 (4096 * p)

theorem toNat_pageBytes {n : Int} (hn : 0 ≤ n) (hlt : n < 2 ^ 19) :
    (pageBytes n).toNat = 4096 * n.toNat := by
  obtain ⟨k, rfl⟩ := Int.eq_ofNat_of_zero_le hn
  have hk : k < 2 ^ 19 := by omega
  have hof : BitVec.ofInt 32 (4096 * (k : Int)) = BitVec.ofNat 32 (4096 * k) := by
    rw [← BitVec.ofInt_natCast, Int.natCast_mul]
    rfl
  have hmsb : (BitVec.ofNat 32 (4096 * k)).msb = false := by
    rw [BitVec.msb_eq_false_iff_two_mul_lt, BitVec.toNat_ofNat]
    omega
  rw [pageBytes, hof, BitVec.signExtend_eq_setWidth_of_msb_false hmsb, BitVec.toNat_setWidth,
    BitVec.toNat_ofNat, Int.toNat_natCast]
  omega

namespace Block

variable {b : Block}

theorem pageAddr_eq (hal : b.start.toNat % 4096 = 0) (k : Nat) :
    pageAddr (b.range.start + k) = b.start + BitVec.ofNat 64 (4096 * k) := by
  apply BitVec.eq_of_toNat_eq
  simp only [pageAddr, range, BitVec.toNat_add, BitVec.toNat_ofNat]
  omega

theorem Ok.covers_start (h : b.Ok) : b.range.Covers b.range.start := by
  have := h.pages_pos
  simp only [Range.Covers, range]
  omega

end Block

/-- Regions that start at different addresses other than `NULL`. -/
theorem length_lt_loopLimit {free : List Block} (hdistinct : (free.map Block.start).Nodup)
    (hne : ∀ b ∈ free, b.start ≠ 0) : free.length < loopLimit := by
  have hnodup : ((0 : BitVec 64) :: free.map Block.start).Nodup := by
    refine List.nodup_cons.mpr ⟨fun hmem => ?_, hdistinct⟩
    obtain ⟨b, hb, hzero⟩ := List.mem_map.mp hmem
    exact hne b hb hzero
  have hmap : (((0 : BitVec 64) :: free.map Block.start).map BitVec.toNat).Nodup :=
    hnodup.map fun _ _ => BitVec.eq_of_toNat_eq
  have hsub : ((0 : BitVec 64) :: free.map Block.start).map BitVec.toNat ⊆ List.range (2 ^ 64) := by
    intro n hn
    obtain ⟨a, -, rfl⟩ := List.mem_map.mp hn
    exact List.mem_range.mpr a.isLt
  have hle := (hmap.subperm hsub).length_le
  rw [List.length_range, List.length_map, List.length_cons, List.length_map] at hle
  exact hle

/-- The state of the allocator: the list spells `free`, the blocks `held` and `free` tile the pages
with `P`, and these pages are mapped. -/
structure HeapInv (h : KernelHeap) (held free : List Block) (P : Nat → Prop) : Prop where
  chain : Chain h.nodes h.head free
  tiles : Tiles ((held ++ free).map Block.range) P
  ok : ∀ b ∈ held ++ free, b.Ok
  mapped : ∀ p, P p → h.Mapped (pageAddr p)
  tree : ∃ root, h.machine.TreeInv root
  heapEnd_aligned : h.heapEnd.toNat % 4096 = 0

namespace HeapInv

variable {h h' : KernelHeap} {held free : List Block} {P : Nat → Prop} {b : Block}

theorem covers_added (hinv : HeapInv h held free P) (hb : b ∈ held ++ free)
    (hp : b.range.Covers p) : P p :=
  (hinv.tiles.covers p).mpr ⟨b.range, List.mem_map_of_mem hb, hp⟩

theorem mapped_start (hinv : HeapInv h held free P) (hb : b ∈ held ++ free) : h.Mapped b.start := by
  have hok := hinv.ok b hb
  have haddr : pageAddr b.range.start = b.start := by
    have := Block.pageAddr_eq hok.aligned 0
    simpa using this
  rw [← haddr]
  exact hinv.mapped _ (hinv.covers_added hb hok.covers_start)

theorem starts_nodup (hinv : HeapInv h held free P) : ((held ++ free).map Block.start).Nodup := by
  rw [List.Nodup, List.pairwise_map]
  refine (List.pairwise_map.mp hinv.tiles.disjoint).imp_of_mem fun {b c} hb hc hdis heq => ?_
  refine hdis _ (hinv.ok b hb).covers_start ?_
  have : b.range.start = c.range.start := by rw [Block.range, heq, Block.range]
  rw [this]
  exact (hinv.ok c hc).covers_start

theorem free_nodup (hinv : HeapInv h held free P) : (free.map Block.start).Nodup := by
  have := hinv.starts_nodup
  rw [List.map_append] at this
  exact (List.nodup_append.mp this).2.1

theorem length_free_lt (hinv : HeapInv h held free P) : free.length < loopLimit :=
  length_lt_loopLimit hinv.free_nodup fun b hb => (hinv.ok b (List.mem_append_right _ hb)).start_ne

/-- A region is taken from the list. -/
theorem take (hinv : HeapInv h held (pre ++ b :: post) P)
    (hchain : Chain nodes head (pre ++ post)) :
    HeapInv { h with nodes, head } (b :: held) (pre ++ post) P := by
  have hperm : (held ++ (pre ++ b :: post)).Perm (b :: held ++ (pre ++ post)) := by
    rw [← List.append_assoc, List.cons_append, ← List.append_assoc]
    exact List.perm_middle
  exact ⟨hchain, hinv.tiles.perm (hperm.map _), fun c hc => hinv.ok c (hperm.mem_iff.mpr hc),
    hinv.mapped, hinv.tree, hinv.heapEnd_aligned⟩

/-- A block outside the list is put into it. -/
theorem release (hinv : HeapInv h held free P) (hb : b ∈ held) :
    ∃ h', h.addRegion b.start b.pages = .ok h' ∧ HeapInv h' (held.erase b) (b :: free) P ∧
      h'.grown = h.grown := by
  have hmem := List.mem_append_left free hb
  refine ⟨_, h.addRegion_eq (hinv.mapped_start hmem) b.pages, ?_, rfl⟩
  have hperm : (held ++ free).Perm (held.erase b ++ b :: free) :=
    ((List.perm_cons_erase hb).append_right free).trans List.perm_middle.symm
  have hfresh : b.start ∉ free.map Block.start := by
    intro hin
    have := hinv.starts_nodup
    rw [List.map_append] at this
    exact (List.nodup_append.mp this).2.2 _ (List.mem_map_of_mem hb) _ hin rfl
  exact ⟨KernelHeap.chain_addRegion hinv.chain (hinv.ok b hmem).start_ne hfresh,
    hinv.tiles.perm (hperm.map _), fun c hc => hinv.ok c (hperm.mem_iff.mpr hc), hinv.mapped,
    hinv.tree, hinv.heapEnd_aligned⟩

/-- A range of new, mapped pages is handed over. -/
theorem give (hinv : HeapInv h held free P) (hb : b.Ok)
    (hnew : ∀ p, b.range.Covers p → h.Mapped (pageAddr p) ∧ ¬ P p) :
    HeapInv h (b :: held) free fun p => b.range.Covers p ∨ P p where
  chain := hinv.chain
  tiles := hinv.tiles.cons fun p hp => (hnew p hp).2
  ok c hc := by
    rcases List.mem_cons.mp hc with rfl | hc
    · exact hb
    · exact hinv.ok c hc
  mapped p hp := hp.elim (fun hp => (hnew p hp).1) (hinv.mapped p)
  tree := hinv.tree
  heapEnd_aligned := hinv.heapEnd_aligned

/-- A block of twice the size is cut in two. -/
theorem halve (hinv : HeapInv h (⟨start, 2 * pages⟩ :: held) free P) (hpos : 1 ≤ pages)
    (hlt : pages < 2 ^ 19) :
    HeapInv h (⟨start + pageBytes pages, pages⟩ :: ⟨start, pages⟩ :: held) free P := by
  obtain ⟨hne, hal, -, -, hend⟩ := hinv.ok _ List.mem_cons_self
  dsimp only at hne hal hend
  have hbytes := toNat_pageBytes (n := pages) (by omega) hlt
  have hstart : (start + pageBytes pages).toNat = start.toNat + 4096 * pages.toNat := by
    rw [BitVec.toNat_add, hbytes]
    omega
  have hpos' : 0 < start.toNat := Nat.pos_of_ne_zero fun hz => hne (BitVec.eq_of_toNat_eq hz)
  refine ⟨hinv.chain, ?_, fun c hc => ?_, hinv.mapped, hinv.tree, hinv.heapEnd_aligned⟩
  · have htiles := hinv.tiles
    have hsum : (2 * pages).toNat = pages.toNat + pages.toNat := by omega
    simp only [List.cons_append, List.map_cons, Block.range, hsum] at htiles ⊢
    have hdiv : (start + pageBytes pages).toNat / 4096 = start.toNat / 4096 + pages.toNat := by
      omega
    rw [hdiv]
    exact htiles.split.perm (.swap ..)
  · simp only [List.cons_append, List.mem_cons] at hc
    rcases hc with rfl | rfl | hc
    · refine ⟨fun hz => ?_, ?_, hpos, by dsimp only; omega, ?_⟩
      · have : (start + pageBytes pages).toNat = 0 := congrArg BitVec.toNat hz
        omega
      · dsimp only
        omega
      · dsimp only
        omega
    · exact ⟨hne, hal, hpos, by dsimp only; omega, by dsimp only; omega⟩
    · exact hinv.ok c (List.mem_cons_of_mem _ hc)

/-! ## `list_alloc` -/

/-- The part of `increase_heap_size` before it adds the region. -/
theorem mapHeap (hinv : HeapInv h held free P) (grown : List Block) (hpos : 1 ≤ pages) (hlt : pages < 2 ^ 19)
    (hspace : (h.heapEnd + pageSize).toNat + 4096 * pages.toNat < 2 ^ 64)
    (hrun : KernelHeap.mapHeapLoop (h.heapEnd + pageSize + pageBytes pages) fuel h.machine
      (h.heapEnd + pageSize) = .ok machine) (hne : h.heapEnd + pageSize ≠ 0) :
    HeapInv { h with machine, heapEnd := h.heapEnd + pageSize + pageBytes pages, grown }
      (⟨h.heapEnd + pageSize, pages⟩ :: held) free
      fun p => (Block.range ⟨h.heapEnd + pageSize, pages⟩).Covers p ∨ P p := by
  obtain ⟨root, htree⟩ := hinv.tree
  obtain ⟨htree', hkeep, hnew⟩ := KernelHeap.mapHeapLoop_spec htree hrun
  have hbytes := toNat_pageBytes (n := pages) (by omega) hlt
  have hend : (h.heapEnd + pageSize + pageBytes pages).toNat =
      (h.heapEnd + pageSize).toNat + 4096 * pages.toNat := by
    rw [BitVec.toNat_add, hbytes]
    omega
  have hal : (h.heapEnd + pageSize).toNat % 4096 = 0 := by
    have := hinv.heapEnd_aligned
    rw [BitVec.toNat_add, toNat_pageSize]
    omega
  refine give (b := ⟨h.heapEnd + pageSize, pages⟩) ⟨hinv.chain, hinv.tiles, hinv.ok,
    fun p hp => hkeep _ (hinv.mapped p hp), ⟨root, htree'⟩, ?_⟩
    ⟨hne, hal, hpos, by dsimp only; omega, by dsimp only; omega⟩ fun p hp => ?_
  · dsimp only
    omega
  · obtain ⟨hge, hlt'⟩ := hp
    obtain ⟨k, rfl⟩ := Nat.exists_eq_add_of_le hge
    have haddr := Block.pageAddr_eq (b := ⟨h.heapEnd + pageSize, pages⟩) hal k
    have hk : k < pages.toNat := Nat.lt_of_add_lt_add_left hlt'
    obtain ⟨hfree, hmapped⟩ := hnew k (by omega)
    rw [haddr]
    refine ⟨hmapped, fun hP => ?_⟩
    have := hinv.mapped _ hP
    rw [haddr] at this
    exact this hfree

/-- `increase_heap_size` adds a region of new pages. It is not found again if it starts at
`NULL`. -/
theorem grow (hinv : HeapInv h held free P) (hpos : 1 ≤ pages) (hlt : pages < 2 ^ 19)
    (hspace : (h.heapEnd + pageSize).toNat + 4096 * pages.toNat < 2 ^ 64 ∨
      ¬ h.Mapped (h.heapEnd + pageSize)) (hok : h.increaseHeapSize pages = .ok h') :
    h'.grown = ⟨h.heapEnd + pageSize, pages⟩ :: h.grown ∧
      (h'.head = 0 ∨ HeapInv h' held (⟨h.heapEnd + pageSize, pages⟩ :: free)
        fun p => (Block.range ⟨h.heapEnd + pageSize, pages⟩).Covers p ∨ P p) := by
  simp only [KernelHeap.increaseHeapSize, bind, Except.bind] at hok
  cases hrun : KernelHeap.mapHeapLoop (h.heapEnd + pageSize + pageBytes pages) loopLimit h.machine
    (h.heapEnd + pageSize) with
  | error e => rw [hrun] at hok; cases hok
  | ok machine =>
    rw [hrun] at hok
    dsimp only at hok
    by_cases hspace' : (h.heapEnd + pageSize).toNat + 4096 * pages.toNat < 2 ^ 64
    · by_cases hne : h.heapEnd + pageSize = 0
      · obtain ⟨-, hhead, hgrown⟩ := KernelHeap.addRegion_ok hok
        exact ⟨hgrown, .inl (hhead.trans hne)⟩
      · have hgive := hinv.mapHeap (⟨h.heapEnd + pageSize, pages⟩ :: h.grown) hpos hlt hspace' hrun
          hne
        obtain ⟨h₁, hadd, hrel, hgrown⟩ := hgive.release List.mem_cons_self
        cases hadd.symm.trans hok
        rw [List.erase_cons_head] at hrel
        exact ⟨hgrown, .inr hrel⟩
    · -- the end of the heap wraps: nothing is mapped, and the region is not accessible
      obtain ⟨n, hn⟩ : ∃ n, loopLimit = n + 1 := ⟨2 ^ 64 - 1, by decide⟩
      have hbytes := toNat_pageBytes (n := pages) (by omega) hlt
      have hwrap : ¬ h.heapEnd + pageSize ≤ h.heapEnd + pageSize + pageBytes pages := by
        rw [BitVec.le_def, BitVec.toNat_add _ (pageBytes pages), hbytes]
        omega
      rw [hn, KernelHeap.mapHeapLoop, if_neg hwrap] at hrun
      cases hrun
      exact absurd (KernelHeap.addRegion_ok hok).1 (hspace.resolve_left hspace')

/-- `get_valid_region` on a list with the invariant. -/
theorem getValidRegion (hinv : HeapInv h held free P) (pages : Int) :
    (h.getValidRegion pages = .ok (0, h) ∧ free.find? (pages ≤ ·.pages) = none) ∨
      ∃ b h', free.find? (pages ≤ ·.pages) = some b ∧ h.getValidRegion pages = .ok (b.start, h') ∧
        b.start ≠ 0 ∧ (∃ free' ⊆ free, HeapInv h' (b :: held) free' P) ∧ h'.grown = h.grown ∧
        (h'.nodes b.start).pages = b.pages := by
  rcases KernelHeap.getValidRegion_spec pages hinv.length_free_lt hinv.chain
      (fun b hb => hinv.mapped_start (List.mem_append_right _ hb)) hinv.free_nodup with
    ⟨hnone, hall⟩ | ⟨pre, b, post, nodes, head, rfl, hpre, hle, hok, hchain, hkeep⟩
  · refine .inl ⟨hnone, List.find?_eq_none.mpr fun b hb => ?_⟩
    simpa using hall b hb
  · have hb : b ∈ held ++ (pre ++ b :: post) := by simp
    refine .inr ⟨b, _, ?_, hok, (hinv.ok b hb).start_ne, ⟨_, ?_, hinv.take hchain⟩, rfl, ?_⟩
    · rw [List.find?_append, List.find?_eq_none.mpr, Option.none_or, List.find?_cons_of_pos]
      · simpa using hle
      · simpa using hpre
    · exact ((List.sublist_cons_self ..).append_left _).subset
    · exact (hkeep _).trans (hinv.chain.pages_eq (by simp))

theorem congr (hinv : HeapInv h held free P) (hP : ∀ p, P' p ↔ P p) : HeapInv h held free P' :=
  ⟨hinv.chain, hinv.tiles.congr hP, hinv.ok, fun p hp => hinv.mapped p ((hP p).mp hp), hinv.tree,
    hinv.heapEnd_aligned⟩

/-- The region that `list_alloc` takes from the list. -/
theorem takeRegion (hinv : HeapInv h held free P) (hpos : 1 ≤ pages) (hlt : pages < 2 ^ 19)
    (hfit : h.FitsExactly pages free) (hok : h.takeRegion pages = .ok (region, h')) :
    ∃ b free' new, region = b.start ∧ h'.grown = new ++ h.grown ∧
      HeapInv h' (b :: held) free' (fun p => (∃ g ∈ new, g.range.Covers p) ∨ P p) ∧
      (∀ g ∈ new, g = ⟨h.heapEnd + pageSize, pages⟩) ∧ (∀ c ∈ free', c ∈ free ∨ c ∈ new) ∧
      (h'.nodes region).pages = b.pages ∧ (b.pages = pages ∨ b.pages = 2 * pages) := by
  simp only [KernelHeap.takeRegion, bind, Except.bind] at hok
  unfold KernelHeap.FitsExactly at hfit
  rcases hinv.getValidRegion pages with
    ⟨hnone, hfind⟩ | ⟨b, h₁, hfind, hsome, hne, ⟨free', hsub, hinv'⟩, hgrown, hpages⟩
  · -- the heap grows by a region of the requested size
    rw [hfind] at hfit
    rw [hnone] at hok
    simp only [if_true] at hok
    cases hgrow : h.increaseHeapSize pages with
    | error e => rw [hgrow] at hok; cases hok
    | ok h₂ =>
      rw [hgrow] at hok
      dsimp only at hok
      obtain ⟨hgrown, hcase⟩ := hinv.grow hpos hlt hfit hgrow
      rcases hcase with hhead | hinv₂
      · have hempty : h₂.getValidRegion pages = .ok (0, h₂) := by
          have hchain : Chain h₂.nodes h₂.head [] := hhead
          rcases KernelHeap.getValidRegion_spec pages (by decide) hchain nofun .nil with
            ⟨hnone, -⟩ | ⟨pre, b, post, -, -, hnil, -⟩
          · exact hnone
          · exact absurd hnil.symm (by simp)
        rw [hempty] at hok
        simp only [if_true] at hok
        cases hok
      · have hfirst : (⟨h.heapEnd + pageSize, pages⟩ :: free).find? (pages ≤ ·.pages) =
            some ⟨h.heapEnd + pageSize, pages⟩ := List.find?_cons_of_pos (by simp)
        rcases hinv₂.getValidRegion pages with
          ⟨-, hfind⟩ | ⟨b, h₃, hfind, hsome, hne, ⟨free', hsub, hinv'⟩, hgrown', hpages⟩
        · rw [hfirst] at hfind
          cases hfind
        · have hb := Option.some.inj (hfirst.symm.trans hfind)
          rw [hsome] at hok
          simp only [if_neg hne] at hok
          cases hok
          exact ⟨b, free', [⟨h.heapEnd + pageSize, pages⟩], rfl, hgrown'.trans hgrown,
            hinv'.congr (by simp), fun _ => List.mem_singleton.mp,
            fun c hc => (List.mem_cons.mp (hsub hc)).symm.imp_right List.mem_singleton.mpr, hpages,
            .inl (by rw [← hb])⟩
  · rw [hfind] at hfit
    rw [hsome] at hok
    simp only [if_neg hne] at hok
    cases hok
    exact ⟨b, free', [], rfl, hgrown, hinv'.congr (by simp), nofun, fun c hc => .inl (hsub hc),
      hpages, hfit⟩

/-- A call of `list_alloc` that returns hands out a block. -/
theorem listAlloc (hinv : HeapInv h held free P) (hpos : 1 ≤ pages) (hlt : pages < 2 ^ 19)
    (hfit : h.FitsExactly pages free) (hok : h.listAlloc pages = .ok (region, h')) :
    ∃ free' new, h'.grown = new ++ h.grown ∧
      HeapInv h' (⟨region, pages⟩ :: held) free' (fun p => (∃ g ∈ new, g.range.Covers p) ∨ P p) ∧
      (∀ g ∈ new, g = ⟨h.heapEnd + pageSize, pages⟩) ∧
      ∀ c ∈ free', c ∈ free ∨ c.pages = pages := by
  simp only [KernelHeap.listAlloc, bind, Except.bind] at hok
  cases htake : h.takeRegion pages with
  | error e => rw [htake] at hok; cases hok
  | ok res =>
    obtain ⟨region₁, h₁⟩ := res
    obtain ⟨⟨start, n⟩, free', new, hstart, hgrown, hinv₁, hnew, hfree, hpages, hn⟩ :=
      hinv.takeRegion hpos hlt hfit htake
    dsimp only at hstart hpages hn
    replace hfree (c) (hc : c ∈ free') : c ∈ free ∨ c.pages = pages :=
      (hfree c hc).imp_right fun hc => by rw [hnew c hc]
    have hload := KernelHeap.loadNode_eq (hinv₁.mapped_start (b := ⟨start, n⟩) (by simp))
    rw [htake] at hok
    subst hstart
    dsimp only at hok hload
    rw [hload] at hok
    dsimp only at hok
    rw [hpages] at hok
    rcases hn with rfl | rfl
    · simp only [Int.sub_self, gt_iff_lt, Int.lt_irrefl, if_false] at hok
      cases hok
      exact ⟨free', new, hgrown, hinv₁, hnew, hfree⟩
    · have hexcess : 2 * pages - pages = pages := by omega
      obtain ⟨h₂, hadd, hrel, hgrown₂⟩ := (hinv₁.halve hpos hlt).release List.mem_cons_self
      rw [hexcess, if_pos (by omega)] at hok
      dsimp only at hadd
      rw [hadd] at hok
      cases hok
      rw [List.erase_cons_head] at hrel
      exact ⟨_, new, hgrown₂.trans hgrown, hrel, hnew, List.forall_mem_cons.mpr ⟨.inr rfl, hfree⟩⟩

end HeapInv

/-! ## Runs -/

/-- What a client promises: it adds mapped pages that were never added, asks for a positive number
of pages whose size is an `int`, and frees the blocks it holds. -/
def HeapOp.Valid (r : HeapRun) : HeapOp → Prop
  | .addRegion start pages => Block.Ok ⟨start, pages⟩ ∧
      ∀ p, (Block.range ⟨start, pages⟩).Covers p → r.heap.Mapped (pageAddr p) ∧ ¬ r.AddedPage p
  | .listAlloc pages => 1 ≤ pages ∧ pages < 2 ^ 19
  | .liballocFree block => block ∈ r.held

/-- Every `list_alloc` finds a region that fits exactly. -/
def HeapOp.Fits (r : HeapRun) : HeapOp → Prop
  | .listAlloc pages => ∀ free, Chain r.heap.nodes r.heap.head free → r.heap.FitsExactly pages free
  | _ => True

namespace HeapRun

/-- An allocator that has not been used. -/
structure Initial (r : HeapRun) : Prop where
  head_eq : r.heap.head = 0
  grown_eq : r.heap.grown = []
  given_eq : r.given = []
  held_eq : r.held = []
  tree : ∃ root, r.heap.machine.TreeInv root
  heapEnd_aligned : r.heap.heapEnd.toNat % 4096 = 0

theorem Initial.inv (h : Initial r) : HeapInv r.heap r.held [] r.AddedPage := by
  have hnone (p) : ¬ r.AddedPage p := by
    rintro ⟨b, hb, -⟩
    rw [added, h.given_eq, h.grown_eq] at hb
    cases hb
  rw [h.held_eq]
  exact ⟨h.head_eq, Tiles.nil.congr fun p => iff_false_intro (hnone p), nofun,
    fun p hp => absurd hp (hnone p), h.tree, h.heapEnd_aligned⟩

theorem inv_step {r r' : HeapRun} {op : HeapOp} (hinv : HeapInv r.heap r.held free r.AddedPage)
    (hvalid : op.Valid r) (hfits : op.Fits r) (hstep : r.step op = .ok (res, r')) :
    ∃ free', HeapInv r'.heap r'.held free' r'.AddedPage := by
  cases op with
  | addRegion start pages =>
    obtain ⟨hok, hnew⟩ := hvalid
    obtain ⟨h', hadd, hrel, hgrown⟩ := (hinv.give hok hnew).release List.mem_cons_self
    simp only [step, bind, Except.bind] at hstep
    dsimp only at hadd
    rw [hadd] at hstep
    cases hstep
    rw [List.erase_cons_head] at hrel
    refine ⟨_, hrel.congr fun p => ?_⟩
    simp only [AddedPage, added, hgrown, List.cons_append, List.exists_mem_cons_iff]
  | listAlloc pages =>
    obtain ⟨hpos, hlt⟩ := hvalid
    simp only [step, bind, Except.bind] at hstep
    cases hrun : r.heap.listAlloc pages with
    | error e => rw [hrun] at hstep; cases hstep
    | ok out =>
      obtain ⟨free', new, hgrown, hinv', -⟩ := hinv.listAlloc hpos hlt (hfits free hinv.chain) hrun
      rw [hrun] at hstep
      cases hstep
      refine ⟨free', hinv'.congr fun p => ?_⟩
      simp only [AddedPage, added, hgrown, List.mem_append, or_and_right, exists_or]
      exact or_left_comm
  | liballocFree block =>
    obtain ⟨h', hadd, hrel, hgrown⟩ := hinv.release hvalid
    simp only [step, KernelHeap.liballocFree, bind, Except.bind] at hstep
    rw [hadd] at hstep
    cases hstep
    refine ⟨_, hrel.congr fun p => ?_⟩
    simp only [AddedPage, added, hgrown]

theorem partition_of_inv {r : HeapRun} (h : ∃ free, HeapInv r.heap r.held free r.AddedPage) :
    r.Partition :=
  let ⟨free, hinv⟩ := h
  ⟨free, hinv.chain, hinv.tiles⟩

end HeapRun

/-- In every run in which all calls of `list_alloc` find a region that fits exactly, the blocks of
the client and the free regions partition the pages ever added, in every state that is reached. -/
theorem listAllocator_partition (r : HeapRun) (h : r.Initial) (ops : List HeapOp)
    (hops : Run.Along HeapRun.step (fun r op => op.Valid r ∧ op.Fits r) r ops) :
    Run.Throughout HeapRun.step HeapRun.Partition r ops :=
  Run.throughout_of_along (I := fun r => ∃ free, HeapInv r.heap r.held free r.AddedPage)
    HeapRun.partition_of_inv
    (fun ⟨_, hinv⟩ ⟨hvalid, hfits⟩ hstep => HeapRun.inv_step hinv hvalid hfits hstep)
    ⟨_, h.inv⟩ hops

/-! ## A heap of 32 pages -/

namespace HeapRun

open Machine (EntryOk)

/-- A present, writable entry. -/
def tableEntry (address : BitVec 40) : PageEntry :=
  { PageEntry.zero with present := 1, writable := 1, address }

/-- Tables in frames 1 to 4 that map the first 512 pages. -/
def lowPages : Machine where
  mem a :=
    if a = 0x1000 then tableEntry 2
    else if a = 0x2000 then tableEntry 3
    else if a = 0x3000 then tableEntry 4
    else if a >>> 12 = 4 then tableEntry (0x100#40 + ((a - 0x4000) >>> 3).setWidth 40)
    else .zero
  hhdmMapping := 0xFFFF800000000000
  pageTable := 0xFFFF800000001000
  allocator := { memoryMap := [], next := { start := false, base := 0x10000, length := 0 } }

theorem entryOk_lowPages (a : BitVec 64) : EntryOk (lowPages.mem a) := by
  have hok {x : BitVec 40} (hx : x ≠ 0) : EntryOk (tableEntry x) := .inr ⟨rfl, hx, rfl⟩
  unfold lowPages
  dsimp only
  split
  · exact hok (by decide)
  split
  · exact hok (by decide)
  split
  · exact hok (by decide)
  split
  · rename_i ha
    refine hok fun hz => ?_
    have hz := congrArg BitVec.toNat hz
    have ha := congrArg BitVec.toNat ha
    simp only [BitVec.toNat_add, BitVec.toNat_setWidth, BitVec.toNat_ushiftRight, BitVec.toNat_sub,
      Nat.shiftRight_eq_div_pow, BitVec.ofNat_eq_ofNat, BitVec.toNat_ofNat] at hz ha
    omega
  · exact .inl rfl

theorem entry_lowPages {n : BitVec 40} (hn : n = 1 ∨ n = 2 ∨ n = 3) (i : Fin 512) :
    lowPages.entry n i = if i = 0 then tableEntry (n + 1) else .zero := by
  have hslot (k : BitVec 40) :
      frameAddr n + BitVec.ofNat 64 (8 * i.val) = frameAddr k ↔ n = k ∧ i = 0 := by
    have : _ = frameAddr k + BitVec.ofNat 64 (8 * (0 : Fin 512).val) ↔ n = k ∧ i = 0 :=
      Machine.entrySlot_inj
    simpa using this
  have htop : ¬ (frameAddr n + BitVec.ofNat 64 (8 * i.val)) >>> 12 = 4 := by
    intro h
    have h := congrArg BitVec.toNat h
    have hi := i.isLt
    have hlt : n.toNat < 4 := by rcases hn with rfl | rfl | rfl <;> decide
    simp only [BitVec.toNat_ushiftRight, BitVec.toNat_add, toNat_frameAddr, BitVec.ofNat_eq_ofNat,
      BitVec.toNat_ofNat, Nat.shiftRight_eq_div_pow] at h
    omega
  have h1 := hslot 1
  have h2 := hslot 2
  have h3 := hslot 3
  rw [show frameAddr 1 = 0x1000 by decide] at h1
  rw [show frameAddr 2 = 0x2000 by decide] at h2
  rw [show frameAddr 3 = 0x3000 by decide] at h3
  simp only [Machine.entry, lowPages, h1, h2, h3, htop, if_false]
  by_cases hi : i = 0
  · rcases hn with rfl | rfl | rfl <;> simp [hi]
  · simp [hi]

theorem link_lowPages {n : BitVec 40} (hn : n = 1 ∨ n = 2 ∨ n = 3) (i : Fin 512) :
    lowPages.link n i = if i = 0 then some (n + 1) else none := by
  rw [Machine.link, entry_lowPages hn]
  by_cases hi : i = 0
  · rw [if_pos hi]
    refine (if_neg ?_).trans (if_pos hi).symm
    rcases hn with rfl | rfl | rfl <;> decide
  · rw [if_neg hi, if_neg hi]
    rfl

theorem follow_lowPages (hp : p.length ≤ 3) (h : Radix.follow lowPages.link 1 p = some n) :
    p = List.replicate p.length 0 ∧ n = BitVec.ofNat 40 (p.length + 1) := by
  induction p using List.reverseRecOn generalizing n with
  | nil => exact ⟨rfl, (Option.some.inj h).symm⟩
  | append_singleton p i ih =>
    rw [List.length_append, List.length_singleton] at hp ⊢
    rw [Radix.follow_concat, Option.bind_eq_some_iff] at h
    obtain ⟨c, hc, hlink⟩ := h
    obtain ⟨hzero, rfl⟩ := ih (by omega) hc
    have hn : BitVec.ofNat 40 (p.length + 1) = 1 ∨ BitVec.ofNat 40 (p.length + 1) = 2 ∨
        BitVec.ofNat 40 (p.length + 1) = 3 := by
      have : p.length = 0 ∨ p.length = 1 ∨ p.length = 2 := by omega
      rcases this with h | h | h <;> rw [h] <;> decide
    rw [link_lowPages hn] at hlink
    split at hlink
    · rename_i hi
      cases hlink
      refine ⟨?_, ?_⟩
      · rw [hi, List.replicate_succ', ← hzero]
      · apply BitVec.eq_of_toNat_eq
        simp only [BitVec.toNat_add, BitVec.ofNat_eq_ofNat, BitVec.toNat_ofNat]
        omega
    · cases hlink

theorem treeInv_lowPages : lowPages.TreeInv 1 := by
  refine ⟨by decide, fun _ _ i => entryOk_lowPages _, fun {p q n} hp hq hnp hnq => ?_,
    fun _ _ hmem => ?_, ⟨rfl, by decide, by decide, nofun⟩, .nil, nofun⟩
  · obtain ⟨hp0, rfl⟩ := follow_lowPages hp hnp
    obtain ⟨hq0, hn⟩ := follow_lowPages hq hnq
    have := congrArg BitVec.toNat hn
    simp only [BitVec.toNat_ofNat] at this
    rw [hp0, hq0, show p.length = q.length by omega]
  · cases hmem

/-- A heap that ends below page 512 and has not been used. -/
def lowHeap : HeapRun where
  heap :=
    { machine := lowPages, nodes := fun _ => ⟨0, 0⟩, head := 0, heapEnd := 0x1FF000, grown := [] }
  given := []
  held := []

theorem initial_lowHeap : lowHeap.Initial :=
  ⟨rfl, rfl, rfl, rfl, ⟨1, treeInv_lowPages⟩, by decide⟩

theorem mapped_lowHeap : ∀ p < 33, lowHeap.heap.Mapped (pageAddr p) := by
  unfold KernelHeap.Mapped
  decide +kernel

theorem valid_lowHeap : (HeapOp.addRegion 0x1000 32).Valid lowHeap := by
  refine ⟨⟨by decide, by decide, by decide, by decide, by decide⟩, fun p hp => ⟨?_, ?_⟩⟩
  · have : p < 1 + 32 := hp.2
    exact mapped_lowHeap p this
  · rintro ⟨b, hb, -⟩
    cases hb

/-- The heap with its 32 pages. -/
def lowHeap32 : HeapRun where
  heap := { lowHeap.heap with
    nodes := Function.update lowHeap.heap.nodes 0x1000 ⟨32, 0⟩, head := 0x1000 }
  given := [⟨0x1000, 32⟩]
  held := []

theorem step_lowHeap : lowHeap.step (.addRegion 0x1000 32) = .ok (none, lowHeap32) := by
  simp only [step, bind, Except.bind]
  rfl

end HeapRun

/-- A request for 20 of 32 pages: the rest is taken from inside the block that is returned. -/
theorem listAlloc_overlaps_block : ¬ ∀ (r : HeapRun), r.Initial → ∀ ops,
    Run.Along HeapRun.step (fun r op => op.Valid r) r ops →
    Run.Throughout HeapRun.step HeapRun.Partition r ops := by
  intro h
  obtain ⟨-, hthen⟩ := h HeapRun.lowHeap HeapRun.initial_lowHeap
    [.addRegion 0x1000 32, .listAlloc 20] ⟨HeapRun.valid_lowHeap, fun _ _ hs => by
      rw [HeapRun.step_lowHeap] at hs
      cases hs
      exact ⟨⟨by decide, by decide⟩, fun _ _ _ => trivial⟩⟩
  obtain ⟨-, hthen⟩ := hthen _ _ HeapRun.step_lowHeap
  have hrun : (HeapRun.lowHeap32.step (.listAlloc 20)).toOption.map
      (fun (_, r) => (r.heap.head, r.heap.nodes r.heap.head, r.held)) =
        some (0xD000, ⟨12, 0⟩, [⟨0x1000, 20⟩]) := by
    decide +kernel
  cases hstep : HeapRun.lowHeap32.step (.listAlloc 20) with
  | error e => rw [hstep] at hrun; cases hrun
  | ok res =>
    obtain ⟨x, r⟩ := res
    obtain ⟨free, hchain, htiles⟩ := hthen _ _ hstep
    rw [hstep] at hrun
    simp only [Except.toOption, Option.map_some, Option.some.injEq, Prod.mk.injEq] at hrun
    obtain ⟨hhead, hnode, hheld⟩ := hrun
    have hfree : Chain r.heap.nodes r.heap.head [⟨0xD000, 12⟩] :=
      ⟨by rw [hhead]; decide, hhead, by rw [hnode], by rw [hnode]; rfl⟩
    cases hchain.unique hfree
    rw [hheld] at htiles
    -- page 13 is in both blocks
    exact (List.pairwise_cons.mp htiles.disjoint).1 _ List.mem_cons_self 13 (by decide) (by decide)

/-- A request for 16 of 32 pages is one of a region of twice that size. -/
theorem listAllocator_partition_half :
    Run.Along HeapRun.step (fun r op => op.Valid r ∧ op.Fits r) HeapRun.lowHeap
        [.addRegion 0x1000 32, .listAlloc 16] ∧
      Run.Throughout HeapRun.step HeapRun.Partition HeapRun.lowHeap
        [.addRegion 0x1000 32, .listAlloc 16] := by
  have hchain : Chain HeapRun.lowHeap32.heap.nodes HeapRun.lowHeap32.heap.head [⟨0x1000, 32⟩] :=
    ⟨by decide, by decide, by decide, rfl⟩
  have hops : Run.Along HeapRun.step (fun r op => op.Valid r ∧ op.Fits r) HeapRun.lowHeap
      [.addRegion 0x1000 32, .listAlloc 16] := by
    refine ⟨⟨HeapRun.valid_lowHeap, trivial⟩, fun _ _ hs => ?_⟩
    rw [HeapRun.step_lowHeap] at hs
    cases hs
    refine ⟨⟨⟨by decide, by decide⟩, fun free hfree => ?_⟩, fun _ _ _ => trivial⟩
    cases hchain.unique hfree
    exact .inr rfl
  exact ⟨hops, listAllocator_partition _ HeapRun.initial_lowHeap _ hops⟩

end Lethe
