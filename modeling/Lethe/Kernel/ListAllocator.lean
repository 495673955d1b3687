import Lethe.Kernel.Paging

/-!
# The page allocator of `memory/list_allocator.c`

A free region starts with its `list_node_t`; `nodes` holds the node at each virtual address, and a
node is accessible if its page is mapped. An `int` is an integer, and the product of an `int` with
`PAGE_SIZE` wraps at 32 bits.

`Chain` reads the free list off the memory. `getValidRegion_spec` says that the first region that
is large enough is unlinked, and `mapHeapLoop_spec` that the heap grows by pages that were not
mapped.
-/

namespace Lethe

/-- `list_node_t`. -/
structure ListNode where
  pages : Int
  next : BitVec 64
  deriving DecidableEq, Repr

/-- A range of pages: its first address and the number of its pages. -/
structure Block where
  start : BitVec 64
  pages : Int
  deriving DecidableEq, Repr

/-- The globals of the allocator (`allocator.head.next` and `heap_end`), the nodes in memory and
the machine that maps the pages. -/
structure KernelHeap where
  machine : Machine
  nodes : BitVec 64 → ListNode
  head : BitVec 64
  heapEnd : BitVec 64
  /-- Ghost: the ranges that `increase_heap_size` has added. -/
  grown : List Block

/-- `PAGE_SIZE * pages`, an `int`, as an `uint64_t`. -/
def pageBytes (pages : Int) : BitVec 64 := (BitVec.ofInt 32 (4096 * pages)).signExtend 64

/-- `PAGE_WRITABLE | PAGE_PRESENT`. -/
def heapFlags : BitVec 16 := 3

namespace KernelHeap

def loadNode (h : KernelHeap) (ptr : BitVec 64) : Except Panic ListNode :=
  if h.machine.virtualToPhysical ptr = 0 then .error (.pageFault ptr) else .ok (h.nodes ptr)

def storeNode (h : KernelHeap) (ptr : BitVec 64) (node : ListNode) : Except Panic KernelHeap :=
  if h.machine.virtualToPhysical ptr = 0 then .error (.pageFault ptr)
  else .ok { h with nodes := Function.update h.nodes ptr node }

/-- `add_region`. -/
def addRegion (h : KernelHeap) (start : BitVec 64) (pages : Int) : Except Panic KernelHeap := do
  let h ← h.storeNode start { pages, next := h.head }
  pure { h with head := start }

/-- The loop of `increase_heap_size`. -/
def mapHeapLoop (newHeapEnd : BitVec 64) : Nat → Machine → BitVec 64 → Except Panic Machine
  | 0, _, _ => .error .doesNotReturn
  | fuel + 1, m, i =>
    if i ≤ newHeapEnd then do
      let (frame, m) ← allocateFrame m
      if frame = 0 then throw .outOfMemory
      let m ← m.mapPage i frame heapFlags
      mapHeapLoop newHeapEnd fuel m (i + pageSize)
    else .ok m

/-- `increase_heap_size`. -/
def increaseHeapSize (h : KernelHeap) (pages : Int) : Except Panic KernelHeap := do
  let heapStart := h.heapEnd + pageSize
  let newHeapEnd := heapStart + pageBytes pages
  let machine ← mapHeapLoop newHeapEnd loopLimit h.machine heapStart
  let h := { h with machine, heapEnd := newHeapEnd, grown := ⟨heapStart, pages⟩ :: h.grown }
  h.addRegion heapStart pages

/-- `try_alloc` on a region and its node. -/
def tryAlloc (region : BitVec 64) (node : ListNode) (pages : Int) : BitVec 64 :=
  if pages > node.pages then 0 else region

/-- `current->next`, where no address stands for `&allocator.head`. -/
def loadNext (h : KernelHeap) : Option (BitVec 64) → Except Panic (BitVec 64)
  | none => .ok h.head
  | some current => do
    let node ← h.loadNode current
    pure node.next

/-- The assignment to `current->next`. -/
def storeNext (h : KernelHeap) (next : BitVec 64) : Option (BitVec 64) → Except Panic KernelHeap
  | none => .ok { h with head := next }
  | some current => do
    let node ← h.loadNode current
    h.storeNode current { node with next }

/-- The loop of `get_valid_region`. -/
def getValidRegionLoop (h : KernelHeap) (pages : Int) :
    Nat → Option (BitVec 64) → Except Panic (BitVec 64 × KernelHeap)
  | 0, _ => .error .doesNotReturn
  | fuel + 1, current => do
    let next ← h.loadNext current
    if next = 0 then pure (0, h)
    else
      let node ← h.loadNode next
      if tryAlloc next node pages = 0 then getValidRegionLoop h pages fuel (some next)
      else
        let h ← h.storeNext node.next current
        pure (next, h)

/-- `get_valid_region`. -/
def getValidRegion (h : KernelHeap) (pages : Int) : Except Panic (BitVec 64 × KernelHeap) :=
  h.getValidRegionLoop pages loopLimit none

/-- The first part of `list_alloc`: the region it takes from the list. -/
def takeRegion (h : KernelHeap) (pages : Int) : Except Panic (BitVec 64 × KernelHeap) := do
  let (region, h) ← h.getValidRegion pages
  if region = 0 then
    let h ← h.increaseHeapSize pages
    let (region, h) ← h.getValidRegion pages
    if region = 0 then throw .abort else pure (region, h)
  else pure (region, h)

/-- `list_alloc`. -/
def listAlloc (h : KernelHeap) (pages : Int) : Except Panic (BitVec 64 × KernelHeap) := do
  let (region, h) ← h.takeRegion pages
  let node ← h.loadNode region
  let excess := node.pages - pages
  let allocEnd := region + pageBytes excess
  let h ← if excess > 0 then h.addRegion allocEnd excess else pure h
  pure (region, h)

/-- `liballoc_free`. -/
def liballocFree (h : KernelHeap) (ptr : BitVec 64) (pages : Int) : Except Panic KernelHeap :=
  h.addRegion ptr pages

end KernelHeap

/-! ## The walk through the list -/

/-- The free list: the nodes from an address on are those of the given blocks. -/
def Chain (nodes : BitVec 64 → ListNode) : BitVec 64 → List Block → Prop
  | ptr, [] => ptr = 0
  | ptr, b :: free => ptr ≠ 0 ∧ ptr = b.start ∧ (nodes ptr).pages = b.pages ∧
      Chain nodes (nodes ptr).next free

/-- A page that is mapped. -/
def KernelHeap.Mapped (h : KernelHeap) (a : BitVec 64) : Prop := h.machine.virtualToPhysical a ≠ 0

theorem Chain.congr : ∀ {free : List Block} {ptr}, Chain nodes ptr free →
    (∀ b ∈ free, nodes' b.start = nodes b.start) → Chain nodes' ptr free
  | [], _, h, _ => h
  | b :: free, ptr, ⟨hne, hptr, hpages, hrest⟩, hsame => by
    have hb : nodes' ptr = nodes ptr := hptr ▸ hsame b List.mem_cons_self
    exact ⟨hne, hptr, hb ▸ hpages, hb ▸ hrest.congr fun c hc => hsame c (List.mem_cons_of_mem _ hc)⟩

theorem Chain.unique : ∀ {free free' : List Block} {ptr}, Chain nodes ptr free →
    Chain nodes ptr free' → free = free'
  | [], [], _, _, _ => rfl
  | [], _ :: _, _, h, h' => absurd h h'.1
  | _ :: _, [], _, h, h' => absurd h' h.1
  | ⟨start, n⟩ :: _, ⟨start', n'⟩ :: _, ptr, ⟨_, hptr, hpages, hrest⟩, ⟨_, hptr', hpages', hrest'⟩ => by
    obtain rfl : start = start' := hptr.symm.trans hptr'
    obtain rfl : n = n' := hpages.symm.trans hpages'
    rw [hrest.unique hrest']

theorem Chain.pages_eq : ∀ {free : List Block} {ptr}, Chain nodes ptr free → b ∈ free →
    (nodes b.start).pages = b.pages
  | c :: free, ptr, ⟨_, hptr, hpages, hrest⟩, hb => by
    rcases List.mem_cons.mp hb with rfl | hb
    · exact hptr ▸ hpages
    · exact hrest.pages_eq hb

namespace KernelHeap

variable {h h' : KernelHeap}

theorem loadNode_eq (ha : h.Mapped a) : h.loadNode a = .ok (h.nodes a) := if_neg ha

theorem storeNode_eq (ha : h.Mapped a) (node : ListNode) :
    h.storeNode a node = .ok { h with nodes := Function.update h.nodes a node } := if_neg ha

theorem addRegion_eq (ha : h.Mapped a) (pages : Int) :
    h.addRegion a pages = .ok { h with
      nodes := Function.update h.nodes a { pages, next := h.head }, head := a } := by
  rw [addRegion, storeNode_eq ha]
  rfl

theorem addRegion_ok (hok : h.addRegion a pages = .ok h') :
    h.Mapped a ∧ h'.head = a ∧ h'.grown = h.grown := by
  by_cases ha : h.Mapped a
  · rw [addRegion_eq ha] at hok
    cases hok
    exact ⟨ha, rfl, rfl⟩
  · rw [addRegion, storeNode, if_pos (not_not.mp ha)] at hok
    cases hok

/-- A region that is not in the list is put in front of it. -/
theorem chain_addRegion (hchain : Chain h.nodes h.head free) (hb : b.start ≠ 0)
    (hfresh : b.start ∉ free.map Block.start) :
    Chain (Function.update h.nodes b.start { pages := b.pages, next := h.head }) b.start
      (b :: free) := by
  refine ⟨hb, rfl, by rw [Function.update_self], ?_⟩
  rw [Function.update_self]
  refine hchain.congr fun c hc => Function.update_of_ne ?_ _ _
  rintro heq
  exact hfresh (heq ▸ List.mem_map_of_mem hc)

/-- The value of `current->next`. -/
def nextOf (nodes : BitVec 64 → ListNode) (head : BitVec 64) : Option (BitVec 64) → BitVec 64
  | none => head
  | some current => (nodes current).next

theorem loadNext_eq (hc : ∀ c, current = some c → h.Mapped c) :
    h.loadNext current = .ok (nextOf h.nodes h.head current) := by
  cases current with
  | none => rfl
  | some c =>
    rw [loadNext, loadNode_eq (hc c rfl)]
    rfl

/-- A round of the loop that comes to the region `b`. -/
theorem getValidRegionLoop_succ {b : Block} (pages : Int) (hc : ∀ c, current = some c → h.Mapped c)
    (hptr : nextOf h.nodes h.head current = b.start) (hne : b.start ≠ 0) (hb : h.Mapped b.start)
    (hpages : (h.nodes b.start).pages = b.pages) :
    h.getValidRegionLoop pages (fuel + 1) current =
      if pages > b.pages then h.getValidRegionLoop pages fuel (some b.start)
      else (h.storeNext (h.nodes b.start).next current).map (b.start, ·) := by
  rw [getValidRegionLoop, loadNext_eq hc, hptr]
  simp only [bind, Except.bind, if_neg hne, loadNode_eq hb, tryAlloc, hpages]
  by_cases hlt : pages > b.pages
  · simp [hlt]
  · simp only [hlt, if_false, if_neg hne]
    cases h.storeNext (h.nodes b.start).next current <;> rfl

/-- The region behind `current` is unlinked. -/
theorem storeNext_unlinks {b : Block} (hc : ∀ c, current = some c → h.Mapped c)
    (hrest : Chain h.nodes (h.nodes b.start).next free)
    (hnodup : (current.toList ++ (b :: free).map Block.start).Nodup) :
    ∃ nodes head, h.storeNext (h.nodes b.start).next current = .ok { h with nodes, head } ∧
      Chain nodes (nextOf nodes head current) free ∧
      (∀ a ∉ current.toList, nodes a = h.nodes a) ∧
      (∀ a, (nodes a).pages = (h.nodes a).pages) ∧ (current.isSome → head = h.head) := by
  cases current with
  | none =>
    exact ⟨h.nodes, (h.nodes b.start).next, rfl, hrest, fun _ _ => rfl, fun _ => rfl, nofun⟩
  | some d =>
    have hd := hc d rfl
    refine ⟨Function.update h.nodes d { h.nodes d with next := (h.nodes b.start).next }, h.head,
      ?_, ?_, fun a ha => ?_, fun a => ?_, fun _ => rfl⟩
    · simp only [storeNext, loadNode_eq hd, bind, Except.bind, storeNode_eq hd]
    · rw [nextOf, Function.update_self]
      refine hrest.congr fun c hmem => Function.update_of_ne ?_ _ _
      rintro rfl
      refine (List.nodup_append.mp hnodup).2.2 c.start (by simp) c.start ?_ rfl
      exact List.mem_map_of_mem (List.mem_cons_of_mem _ hmem)
    · refine Function.update_of_ne ?_ _ _
      rintro rfl
      simp at ha
    · by_cases had : a = d
      · rw [had, Function.update_self]
      · rw [Function.update_of_ne had]

/-- `get_valid_region` from a position in the list: no region is large enough, or the first one
that is gets unlinked. -/
theorem getValidRegionLoop_spec (pages : Int) {free : List Block} (current : Option (BitVec 64))
    (hfuel : free.length < fuel)
    (hc : ∀ c, current = some c → h.Mapped c)
    (hchain : Chain h.nodes (nextOf h.nodes h.head current) free)
    (hmapped : ∀ b ∈ free, h.Mapped b.start)
    (hnodup : (current.toList ++ free.map Block.start).Nodup) :
    (h.getValidRegionLoop pages fuel current = .ok (0, h) ∧ ∀ b ∈ free, b.pages < pages) ∨
      ∃ pre b post nodes head, free = pre ++ b :: post ∧ (∀ x ∈ pre, x.pages < pages) ∧
        pages ≤ b.pages ∧
        h.getValidRegionLoop pages fuel current = .ok (b.start, { h with nodes, head }) ∧
        Chain nodes (nextOf nodes head current) (pre ++ post) ∧
        (∀ a ∉ current.toList ++ pre.map Block.start, nodes a = h.nodes a) ∧
        (∀ a, (nodes a).pages = (h.nodes a).pages) ∧ (current.isSome → head = h.head) := by
  induction free generalizing fuel current with
  | nil =>
    obtain ⟨fuel, rfl⟩ := Nat.exists_eq_succ_of_ne_zero (Nat.ne_zero_of_lt hfuel)
    left
    rw [Chain] at hchain
    simp [getValidRegionLoop, loadNext_eq hc, hchain, bind, Except.bind, pure, Except.pure]
  | cons b free ih =>
    obtain ⟨fuel, rfl⟩ := Nat.exists_eq_succ_of_ne_zero (Nat.ne_zero_of_lt hfuel)
    obtain ⟨hne, hptr, hpages, hrest⟩ := hchain
    have hb := hmapped b List.mem_cons_self
    rw [hptr] at hne hpages hrest
    rw [getValidRegionLoop_succ pages hc hptr hne hb hpages]
    by_cases hlt : pages > b.pages
    · rw [if_pos hlt]
      have hnd : ((some b.start).toList ++ free.map Block.start).Nodup :=
        (List.nodup_append.mp hnodup).2.1
      rcases ih (some b.start) (by simpa using hfuel) (fun c hc => Option.some.inj hc ▸ hb) hrest
          (fun c hc => hmapped c (List.mem_cons_of_mem _ hc)) hnd with
        ⟨hnone, hall⟩ | ⟨pre, c, post, nodes, head, rfl, hpre, hle, hok, hchain, hsame, hkeep, hhead⟩
      · exact .inl ⟨hnone, List.forall_mem_cons.mpr ⟨hlt, hall⟩⟩
      · have hnext : nextOf nodes head current = b.start := by
          rw [← hptr]
          cases current with
          | none => exact hhead rfl
          | some d =>
            have hd : d ∉ (some b.start).toList ++ pre.map Block.start := by
              intro hmem
              refine (List.nodup_append.mp hnodup).2.2 d (by simp) d ?_ rfl
              simp only [Option.toList, List.map_cons, List.map_append] at hmem ⊢
              exact List.mem_cons.mpr ((List.mem_append.mp hmem).imp List.mem_singleton.mp
                (List.mem_append_left _))
            exact congrArg ListNode.next (hsame d hd)
        refine .inr ⟨b :: pre, c, post, nodes, head, rfl, List.forall_mem_cons.mpr ⟨hlt, hpre⟩, hle,
          hok, ?_, fun a ha => hsame a (mt (List.mem_append_right _) ha), hkeep, fun _ => hhead rfl⟩
        rw [hnext]
        exact ⟨hne, rfl, (hkeep _).trans hpages, hchain⟩
    · rw [if_neg hlt]
      obtain ⟨nodes, head, hok, hchain, hsame, hkeep, hhead⟩ := storeNext_unlinks hc hrest hnodup
      refine .inr ⟨[], b, free, nodes, head, rfl, nofun, Int.not_lt.mp hlt, ?_, hchain,
        fun a ha => hsame a (mt (List.mem_append_left _) ha), hkeep, hhead⟩
      rw [hok]
      rfl

/-- `get_valid_region` on the whole list. -/
theorem getValidRegion_spec (pages : Int) (hlen : free.length < loopLimit)
    (hchain : Chain h.nodes h.head free) (hmapped : ∀ b ∈ free, h.Mapped b.start)
    (hnodup : (free.map Block.start).Nodup) :
    (h.getValidRegion pages = .ok (0, h) ∧ ∀ b ∈ free, b.pages < pages) ∨
      ∃ pre b post nodes head, free = pre ++ b :: post ∧ (∀ x ∈ pre, x.pages < pages) ∧
        pages ≤ b.pages ∧ h.getValidRegion pages = .ok (b.start, { h with nodes, head }) ∧
        Chain nodes head (pre ++ post) ∧ (∀ a, (nodes a).pages = (h.nodes a).pages) := by
  rcases getValidRegionLoop_spec pages none hlen nofun hchain hmapped hnodup
    with hnone | ⟨pre, b, post, nodes, head, hfree, hpre, hle, hok, hchain, -, hkeep, -⟩
  · exact .inl hnone
  · exact .inr ⟨pre, b, post, nodes, head, hfree, hpre, hle, hok, hchain, hkeep⟩

/-! ## Growing the heap -/

/-- The pages that a completed loop of `increase_heap_size` maps were free before; pages that were
mapped stay mapped. -/
theorem mapHeapLoop_spec {root : BitVec 40} {m m' : Machine} (h : m.TreeInv root)
    (hrun : mapHeapLoop newHeapEnd fuel m i = .ok m') : m'.TreeInv root ∧
      (∀ v, m.virtualToPhysical v ≠ 0 → m'.virtualToPhysical v ≠ 0) ∧
      ∀ k, i.toNat + 4096 * k ≤ newHeapEnd.toNat →
        m.virtualToPhysical (i + BitVec.ofNat 64 (4096 * k)) = 0 ∧
          m'.virtualToPhysical (i + BitVec.ofNat 64 (4096 * k)) ≠ 0 := by
  induction fuel generalizing m i with
  | zero => cases hrun
  | succ fuel ih =>
    rw [mapHeapLoop] at hrun
    split at hrun
    · rename_i hle
      simp only [bind, Except.bind] at hrun
      cases halloc : allocateFrame m with
      | error e => rw [halloc] at hrun; cases hrun
      | ok res =>
        obtain ⟨frame, m₁⟩ := res
        rw [halloc] at hrun
        obtain ⟨hframe, h₁, hsame⟩ := h.allocateFrame_ok halloc
        simp only [if_neg hframe.ne_zero] at hrun
        cases hmap : m₁.mapPage i frame heapFlags with
        | error e => rw [hmap] at hrun; cases hrun
        | ok m₂ =>
          rw [hmap] at hrun
          obtain ⟨h₂, hfree, hnew⟩ := h₁.mapPage_ok hframe ⟨by decide, by decide⟩ hmap
          obtain ⟨h', hkeep, hrest⟩ := ih h₂ hrun
          have hkeep₁ (v) (hv : m.virtualToPhysical v ≠ 0) : m₂.virtualToPhysical v ≠ 0 := by
            rw [hnew]
            split
            · exact hframe.ne_zero
            · rw [hsame]
              exact hv
          refine ⟨h', fun v hv => hkeep v (hkeep₁ v hv), fun k hk => ?_⟩
          have hlt := newHeapEnd.isLt
          cases k with
          | zero =>
            simp only [Nat.mul_zero, BitVec.add_zero]
            refine ⟨(hsame i).symm.trans hfree, hkeep i ?_⟩
            rw [hnew, if_pos rfl]
            exact hframe.ne_zero
          | succ k =>
            have hnext : (i + pageSize).toNat = i.toNat + 4096 := by
              rw [BitVec.toNat_add, toNat_pageSize]
              omega
            have haddr : i + BitVec.ofNat 64 (4096 * (k + 1)) =
                i + pageSize + BitVec.ofNat 64 (4096 * k) := by
              apply BitVec.eq_of_toNat_eq
              simp only [BitVec.toNat_add, BitVec.toNat_ofNat, toNat_pageSize]
              omega
            obtain ⟨hnone, hsome⟩ := hrest k (by omega)
            rw [haddr]
            exact ⟨not_not.mp (mt (hkeep₁ _) (not_not.mpr hnone)), hsome⟩
    · rename_i hgt
      cases hrun
      refine ⟨h, fun _ => id, fun k hk => absurd (Nat.le_trans (Nat.le_add_right _ _) hk) hgt⟩

end KernelHeap

end Lethe
