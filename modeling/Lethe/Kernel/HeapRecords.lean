import Lethe.Kernel.HeapGrowth

/-!
# The records and the list in memory

`KernelHeap` keeps the nodes of the free list in memory, `RecordHeap` has their records.
`KernelHeap.Represents.listAlloc` says that a call of `list_alloc` does the same on both, as long
as no node is written over another one.
-/

namespace Lethe

/-- The nodes of the list are the records, and each is on a page of its own that is mapped. -/
structure KernelHeap.Represents (h : KernelHeap) (r : RecordHeap) : Prop where
  machine_eq : h.machine = r.machine
  heapEnd_eq : h.heapEnd = r.heapEnd
  chain : Chain h.nodes h.head r.free
  mapped : ∀ b ∈ r.free, h.Mapped b.start
  nodup : (r.free.map Block.start).Nodup
  tree : ∃ root, h.machine.TreeInv root

theorem Chain.start_ne : ∀ {free : List Block} {ptr}, Chain nodes ptr free →
    ∀ b ∈ free, b.start ≠ 0
  | _ :: _, ptr, ⟨hne, hptr, _, hrest⟩, b, hb => by
    rcases List.mem_cons.mp hb with rfl | hb
    · exact hptr ▸ hne
    · exact hrest.start_ne b hb

namespace Machine.TreeInv

variable {m : Machine} {root : BitVec 40}

/-- On a tree of tables the processor finds what `virtual_to_physical` finds. -/
theorem walk_ne_missing (h : m.TreeInv root) (hv : m.virtualToPhysical v ≠ 0) :
    m.hardwareWalk root v ≠ .missing := by
  rw [virtualToPhysical_path h.pageTable_eq] at hv
  obtain ⟨h₄, h₃, h₂, h₁⟩ : (m.path root v).Full := by
    by_contra hfull
    exact hv (if_neg hfull)
  have hentry {p n i} (hp : p.length ≤ 3) (hn : Radix.follow m.link root p = some n)
      (hne : (m.entry n i).address ≠ 0) :
      (m.entry n i).present ≠ 0 ∧ (m.entry n i).pageSize ≠ 1 ∧
        Radix.follow m.link root (p ++ [i]) = some (m.entry n i).address := by
    refine ⟨?_, ?_, ?_⟩
    · exact mt (h.entries hp hn i).present_eq_zero.mp hne
    · obtain hzero | ⟨-, -, hsize⟩ := h.entries hp hn i
      · exact absurd (congrArg PageEntry.address hzero) hne
      · rw [hsize]
        decide
    · rw [Radix.follow_concat, hn, Option.bind_some, link_eq_some hne]
  obtain ⟨hpresent₄, hsize₄, hto₄⟩ := hentry (p := []) (Nat.zero_le 3) rfl h₄
  obtain ⟨hpresent₃, hsize₃, hto₃⟩ := hentry (by simp) hto₄ h₃
  obtain ⟨hpresent₂, hsize₂, hto₂⟩ := hentry (by simp) hto₃ h₂
  obtain ⟨hpresent₁, -, -⟩ := hentry (by simp) hto₂ h₁
  simp only [hardwareWalk, hpresent₄, hsize₄, hpresent₃, hsize₃, hpresent₂, hsize₂, hpresent₁,
    if_false, or_self]
  intro hmissing
  cases hmissing

end Machine.TreeInv

namespace RecordHeap

theorem getValidRegion_none {free : List Block} (h : ∀ b ∈ free, b.pages < pages) :
    getValidRegion pages free = none := by
  induction free with
  | nil => rfl
  | cons b free ih =>
    rw [List.forall_mem_cons] at h
    rw [getValidRegion, if_pos h.1, ih h.2]
    rfl

theorem getValidRegion_append {pre post : List Block} (hpre : ∀ c ∈ pre, c.pages < pages)
    (hb : pages ≤ b.pages) : getValidRegion pages (pre ++ b :: post) = some (b, pre ++ post) := by
  induction pre with
  | nil => exact if_neg (Int.not_lt.mpr hb)
  | cons c pre ih =>
    rw [List.forall_mem_cons] at hpre
    rw [List.cons_append, getValidRegion, if_pos hpre.1, ih hpre.2]
    rfl

/-- The loop on the records does what the loop on the nodes does. -/
theorem mapLoop_machine (last : BitVec 64) (fuel : Nat) (r : RecordHeap) (i : BitVec 64) :
    KernelHeap.mapHeapLoop last fuel r.machine i =
      (mapLoop last fuel r i).map RecordHeap.machine := by
  induction fuel generalizing r i with
  | zero => rfl
  | succ fuel ih =>
    rw [KernelHeap.mapHeapLoop, mapLoop]
    by_cases hi : i ≤ last
    · rw [if_pos hi, if_pos hi]
      simp only [mapHeapPage, bind, Except.bind]
      cases halloc : allocateFrame r.machine with
      | error e => rfl
      | ok res =>
        obtain ⟨frame, m⟩ := res
        by_cases hframe : frame = 0
        · simp only [if_pos hframe]
          rfl
        · simp only [if_neg hframe]
          cases m.mapPage i frame heapFlags with
          | error e => rfl
          | ok m' => exact ih { r with machine := m', mapped := i :: r.mapped } (i + pageSize)
    · rw [if_neg hi, if_neg hi]
      rfl

/-- The loop changes the machine and the pages mapped. -/
theorem mapLoop_frame {r r' : RecordHeap} (hok : mapLoop last fuel r i = .ok r') :
    ∃ machine mapped, r' = { r with machine, mapped } := by
  induction fuel generalizing r i with
  | zero => cases hok
  | succ fuel ih =>
    rw [mapLoop] at hok
    split at hok
    · obtain ⟨m, -, hrest⟩ := bind_eq_ok.mp hok
      obtain ⟨machine, mapped, rfl⟩ := ih hrest
      exact ⟨machine, mapped, rfl⟩
    · cases hok
      exact ⟨_, _, rfl⟩

end RecordHeap

namespace KernelHeap.Represents

variable {h h' : KernelHeap} {r : RecordHeap}

theorem length_lt (hrep : h.Represents r) : r.free.length < loopLimit :=
  length_lt_loopLimit hrep.nodup hrep.chain.start_ne

/-- The record can be written where the node has been. -/
theorem addRegion_returns (hrep : h.Represents r) (hok : h.addRegion start pages = .ok h')
    (source : RegionSource) :
    r.addRegion source start pages = .ok (r.insertRegion start pages) := by
  obtain ⟨hmapped, -⟩ := addRegion_ok hok
  obtain ⟨root, htree⟩ := hrep.tree
  refine if_neg ?_
  rw [← hrep.machine_eq, Machine.rootFrame_eq htree.pageTable_eq]
  exact htree.walk_ne_missing hmapped

theorem addRegion (hrep : h.Represents r) (hfresh : start ∉ r.free.map Block.start)
    (hok : h.addRegion start pages = .ok h') : h'.Represents (r.insertRegion start pages) := by
  obtain ⟨hmapped, -⟩ := addRegion_ok hok
  rw [addRegion_eq hmapped] at hok
  cases hok
  by_cases hne : start = 0
  · subst hne
    have hfree : (r.insertRegion 0 pages).free = [] := by
      simp [RecordHeap.insertRegion]
    refine ⟨hrep.machine_eq, hrep.heapEnd_eq, ?_, ?_, ?_, hrep.tree⟩
    all_goals rw [hfree]
    · exact rfl
    · simp
    · exact .nil
  · have hfree : (r.insertRegion start pages).free = ⟨start, pages⟩ :: r.free :=
      RecordHeap.insertRegion_free hne
    refine ⟨hrep.machine_eq, hrep.heapEnd_eq, ?_, fun b hb => ?_, ?_, hrep.tree⟩
    · rw [hfree]
      exact chain_addRegion (b := ⟨start, pages⟩) hrep.chain hne hfresh
    · rw [hfree] at hb
      rcases List.mem_cons.mp hb with rfl | hb
      · exact hmapped
      · exact hrep.mapped b hb
    · rw [hfree]
      exact List.nodup_cons.mpr ⟨hfresh, hrep.nodup⟩

theorem getValidRegion (hrep : h.Represents r) (pages : Int) :
    (h.getValidRegion pages = .ok (0, h) ∧ RecordHeap.getValidRegion pages r.free = none) ∨
      ∃ b free h', RecordHeap.getValidRegion pages r.free = some (b, free) ∧
        h.getValidRegion pages = .ok (b.start, h') ∧ b.start ≠ 0 ∧ h'.Mapped b.start ∧
        (h'.nodes b.start).pages = b.pages ∧ h'.Represents { r with free } := by
  rcases getValidRegion_spec pages hrep.length_lt hrep.chain hrep.mapped hrep.nodup with
    ⟨hnone, hall⟩ | ⟨pre, b, post, nodes, head, hfree, hpre, hle, hok, hchain, hkeep⟩
  · exact .inl ⟨hnone, RecordHeap.getValidRegion_none hall⟩
  have hb : b ∈ r.free := by
    rw [hfree]
    simp
  have hsub : (pre ++ post).Sublist r.free := by
    rw [hfree]
    exact (List.sublist_cons_self b post).append_left pre
  refine .inr ⟨b, pre ++ post, _, ?_, hok, hrep.chain.start_ne b hb, hrep.mapped b hb,
    (hkeep _).trans (hrep.chain.pages_eq hb), hrep.machine_eq, hrep.heapEnd_eq, hchain,
    fun c hc => hrep.mapped c (hsub.subset hc), hrep.nodup.sublist (hsub.map _), hrep.tree⟩
  rw [hfree]
  exact RecordHeap.getValidRegion_append hpre hle

theorem increaseHeapSize (hrep : h.Represents r)
    (hfresh : r.heapEnd + pageSize ∉ r.free.map Block.start)
    (hok : h.increaseHeapSize pages = .ok h') :
    ∃ r', r.increaseHeapSize pages = .ok r' ∧ h'.Represents r' := by
  obtain ⟨root, htree⟩ := hrep.tree
  rw [KernelHeap.increaseHeapSize, hrep.heapEnd_eq, hrep.machine_eq] at hok
  rw [RecordHeap.increaseHeapSize]
  generalize r.heapEnd + pageSize = start at *
  generalize start + pageBytes pages = last at *
  obtain ⟨machine, hloop, hadd⟩ := bind_eq_ok.mp hok
  rw [hrep.machine_eq] at htree
  obtain ⟨htree', hkeep, -⟩ := mapHeapLoop_spec htree hloop
  rw [RecordHeap.mapLoop_machine] at hloop
  obtain ⟨r₁, hrun, rfl⟩ := map_eq_ok.mp hloop
  obtain ⟨machine, mapped, rfl⟩ := RecordHeap.mapLoop_frame hrun
  rw [hrun, Except.mapError]
  have hrep' : KernelHeap.Represents
      { h with machine, heapEnd := last, grown := ⟨start, pages⟩ :: h.grown }
      { r with machine, mapped, heapEnd := last, regions := ⟨start, pages⟩ :: r.regions } := by
    refine ⟨rfl, rfl, hrep.chain, fun b hb => hkeep b.start ?_, hrep.nodup, ⟨root, htree'⟩⟩
    rw [← hrep.machine_eq]
    exact hrep.mapped b hb
  exact ⟨_, hrep'.addRegion_returns hadd .heap, hrep'.addRegion hfresh hadd⟩

theorem takeRegion (hrep : h.Represents r)
    (hfresh : r.heapEnd + pageSize ∉ r.free.map Block.start)
    (hok : h.takeRegion pages = .ok (region, h')) :
    ∃ b r', r.takeRegion pages = .ok (b, r') ∧ region = b.start ∧ h'.Mapped region ∧
      (h'.nodes region).pages = b.pages ∧ h'.Represents r' := by
  rw [KernelHeap.takeRegion] at hok
  obtain ⟨⟨region₁, h₁⟩, hget, hok⟩ := bind_eq_ok.mp hok
  rw [RecordHeap.takeRegion]
  rcases hrep.getValidRegion pages with
    ⟨hnone, hnone'⟩ | ⟨b, free, h₂, hsome, hget', hne, hmapped, hpages, hrep'⟩
  · cases hnone.symm.trans hget
    dsimp only at hok
    rw [if_pos rfl] at hok
    obtain ⟨h₁, hgrow, hok⟩ := bind_eq_ok.mp hok
    obtain ⟨r₁, hgrow', hrep₁⟩ := hrep.increaseHeapSize hfresh hgrow
    obtain ⟨⟨region₂, h₂⟩, hget₂, hok⟩ := bind_eq_ok.mp hok
    rw [hnone']
    simp only [hgrow', bind, Except.bind]
    rcases hrep₁.getValidRegion pages with
      ⟨hnone, -⟩ | ⟨b, free, h₃, hsome, hget', hne, hmapped, hpages, hrep'⟩
    · cases hnone.symm.trans hget₂
      cases hok
    · cases hget'.symm.trans hget₂
      dsimp only at hok
      rw [if_neg hne] at hok
      cases hok
      rw [hsome]
      exact ⟨b, _, rfl, rfl, hmapped, hpages, hrep'⟩
  · cases hget'.symm.trans hget
    dsimp only at hok
    rw [if_neg hne] at hok
    cases hok
    rw [hsome]
    exact ⟨b, _, rfl, rfl, hmapped, hpages, hrep'⟩

/-- A call of `list_alloc` that returns does the same on the records, if the page behind the heap
is not one of the list; the records still are the nodes of the list, if the rest that the call has
put back does not start where another region of the list does. -/
theorem listAlloc (hrep : h.Represents r)
    (hfresh : r.heapEnd + pageSize ∉ r.free.map Block.start)
    (hok : h.listAlloc pages = .ok (region, h')) :
    ∃ r', r.listAlloc pages = .ok (region, r') ∧
      ((r'.free.map Block.start).Nodup → h'.Represents r') := by
  rw [KernelHeap.listAlloc] at hok
  obtain ⟨⟨region₁, h₁⟩, htake, hok⟩ := bind_eq_ok.mp hok
  obtain ⟨b, r₁, htake', rfl, hmapped, hpages, hrep₁⟩ := hrep.takeRegion hfresh htake
  simp only [loadNode_eq hmapped, hpages, bind, Except.bind] at hok
  rw [RecordHeap.listAlloc]
  simp only [htake', bind, Except.bind]
  by_cases hexcess : b.pages - pages > 0
  · simp only [if_pos hexcess] at hok ⊢
    cases hadd : h₁.addRegion (b.start + pageBytes (b.pages - pages)) (b.pages - pages) with
    | error e =>
      rw [hadd] at hok
      cases hok
    | ok h₂ =>
      rw [hadd] at hok
      cases hok
      rw [hrep₁.addRegion_returns hadd .rest]
      refine ⟨_, rfl, fun hnodup => hrep₁.addRegion (fun hmem => ?_) hadd⟩
      generalize b.start + pageBytes (b.pages - pages) = rest at *
      have hne : rest ≠ 0 := by
        obtain ⟨c, hc, rfl⟩ := List.mem_map.mp hmem
        exact hrep₁.chain.start_ne c hc
      simp only [RecordHeap.insertRegion_free hne, List.map_cons] at hnodup
      exact (List.nodup_cons.mp hnodup).1 hmem
  · simp only [if_neg hexcess] at hok ⊢
    cases hok
    exact ⟨_, rfl, fun _ => hrep₁⟩

end KernelHeap.Represents

end Lethe
