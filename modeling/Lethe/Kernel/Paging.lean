import Lethe.Kernel.FrameAllocator
import Lethe.Lib.Radix

/-!
# The page tables of `memory/paging.c`

The four levels of tables live in physical memory and are read and written through the direct
mapping. The translation lookaside buffer is not modelled.

`Machine.TreeInv` says that the tables form a tree: entries are zero or present with an address,
the tables are different frames, and none of them is still to be returned by the frame allocator.
`Machine.paging_refines_map` is the simulation: in every run of `map_page` and `unmap_page`,
`virtual_to_physical` is the abstract map from page numbers to frames.
-/

namespace Lethe

/-- `address << 12`. -/
def PageEntry.physical (e : PageEntry) : BitVec 64 := e.address.setWidth 64 <<< 12

/-- `set_entry`: every field of the entry is assigned. -/
def PageEntry.setEntry (address : BitVec 64) (flags : BitVec 16) : PageEntry where
  present := (flags &&& 0x1).setWidth 1
  writable := ((flags &&& 0x2) >>> 1).setWidth 1
  userAccessable := ((flags &&& 0x4) >>> 2).setWidth 1
  writeThrough := ((flags &&& 0x8) >>> 3).setWidth 1
  cacheDisable := ((flags &&& 0x10) >>> 4).setWidth 1
  accessed := ((flags &&& 0x20) >>> 5).setWidth 1
  unused1 := 1
  pageSize := ((flags &&& 0x40) >>> 6).setWidth 1
  unused2 := 0
  address := (address >>> 12).setWidth 40
  unused3 := 0
  executeDisable := ((flags &&& 0x80) >>> 7).setWidth 1

/-- `x & 0x1FF`, an index into `pages`. -/
def tableIndex (x : BitVec 64) : Fin 512 := Fin.ofNat 512 (x &&& 0x1FF).toNat

def p4Index (page : BitVec 64) : Fin 512 := tableIndex (page >>> 12 >>> 9 >>> 9 >>> 9)
def p3Index (page : BitVec 64) : Fin 512 := tableIndex (page >>> 12 >>> 9 >>> 9)
def p2Index (page : BitVec 64) : Fin 512 := tableIndex (page >>> 12 >>> 9)
def p1Index (page : BitVec 64) : Fin 512 := tableIndex (page >>> 12)

namespace Machine

/-- The physical address of `table->pages[index]`. -/
def entryAddr (m : Machine) (table : BitVec 64) (index : Fin 512) : BitVec 64 :=
  m.phys table + BitVec.ofNat 64 (8 * index.val)

/-- `table->pages[index]`. -/
def pages (m : Machine) (table : BitVec 64) (index : Fin 512) : PageEntry :=
  m.mem (m.entryAddr table index)

/-- The assignment to `table->pages[index]`. -/
def setPages (m : Machine) (table : BitVec 64) (index : Fin 512) (entry : PageEntry) : Machine :=
  { m with mem := fun a => if a = m.entryAddr table index then entry else m.mem a }

/-- `virtual_to_physical`. -/
def virtualToPhysical (m : Machine) (virtual : BitVec 64) : BitVec 64 :=
  let p3Physical := (m.pages m.pageTable (p4Index virtual)).physical
  if p3Physical = 0 then 0
  else
    let p3 := p3Physical + m.hhdmMapping
    let p2Physical := (m.pages p3 (p3Index virtual)).physical
    if p2Physical = 0 then 0
    else
      let p2 := p2Physical + m.hhdmMapping
      let p1Physical := (m.pages p2 (p2Index virtual)).physical
      if p1Physical = 0 then 0
      else
        let p1 := p1Physical + m.hhdmMapping
        let pageEntry := (m.pages p1 (p1Index virtual)).physical
        if pageEntry = 0 then 0 else pageEntry

/-- `__allocate_entry`. -/
def allocateEntry (m : Machine) (table : BitVec 64) (index : Fin 512) (flags : BitVec 16) :
    Except Panic Machine := do
  let (address, m) ← allocateFrame m
  if address = 0 then throw .failedToAllocateEntry
  else pure (m.setPages table index (PageEntry.setEntry address flags))

/-- The test of a table entry in `map_page`, and the pointer to the table of the next level. -/
def nextTable (m : Machine) (table : BitVec 64) (index : Fin 512) (flags : BitVec 16) :
    Except Panic (BitVec 64 × Machine) := do
  let m ← if (m.pages table index).present = 0 then m.allocateEntry table index flags else pure m
  pure ((m.pages table index).physical + m.hhdmMapping, m)

/-- `map_page`. -/
def mapPage (m : Machine) (page frame : BitVec 64) (flags : BitVec 16) : Except Panic Machine := do
  let (p3, m) ← m.nextTable m.pageTable (p4Index page) flags
  let (p2, m) ← m.nextTable p3 (p3Index page) flags
  let (p1, m) ← m.nextTable p2 (p2Index page) flags
  if (m.pages p1 (p1Index page)).present ≠ 0 then throw (.alreadyMapped frame page)
  else pure (m.setPages p1 (p1Index page) (PageEntry.setEntry frame flags))

/-- `unmap_page`. -/
def unmapPage (m : Machine) (page : BitVec 64) : Machine :=
  if (m.pages m.pageTable (p4Index page)).present = 0 then m
  else
    let p3 := (m.pages m.pageTable (p4Index page)).physical + m.hhdmMapping
    if (m.pages p3 (p3Index page)).present = 0 then m
    else
      let p2 := (m.pages p3 (p3Index page)).physical + m.hhdmMapping
      if (m.pages p2 (p2Index page)).present = 0 then m
      else
        let p1 := (m.pages p2 (p2Index page)).physical + m.hhdmMapping
        m.setPages p1 (p1Index page) .zero

end Machine

/-! ## Frames as nodes of a radix tree -/

/-- The physical address of a frame number. -/
def frameAddr (n : BitVec 40) : BitVec 64 := n.setWidth 64 <<< 12

theorem toNat_frameAddr (n : BitVec 40) : (frameAddr n).toNat = 4096 * n.toNat := by
  have := n.isLt
  simp only [frameAddr, BitVec.toNat_shiftLeft, BitVec.toNat_setWidth, Nat.shiftLeft_eq]
  omega

theorem frameAddr_inj {n n' : BitVec 40} : frameAddr n = frameAddr n' ↔ n = n' := by
  refine ⟨fun h => BitVec.eq_of_toNat_eq ?_, fun h => h ▸ rfl⟩
  have := congrArg BitVec.toNat h
  rw [toNat_frameAddr, toNat_frameAddr] at this
  omega

theorem frameAddr_eq_zero {n : BitVec 40} : frameAddr n = 0 ↔ n = 0 :=
  ⟨fun h => frameAddr_inj.mp (h.trans rfl), fun h => h ▸ rfl⟩

/-- The frame number of an aligned address below `2 ^ 52`. -/
def frameNumber (f : BitVec 64) : BitVec 40 := (f >>> 12).setWidth 40

theorem frameAddr_frameNumber {f : BitVec 64} (hal : f.toNat % 4096 = 0) (hlt : f.toNat < 2 ^ 52) :
    frameAddr (frameNumber f) = f := by
  apply BitVec.eq_of_toNat_eq
  rw [toNat_frameAddr]
  simp only [frameNumber, BitVec.toNat_setWidth, BitVec.toNat_ushiftRight, Nat.shiftRight_eq_div_pow]
  omega

namespace Machine

variable {m m' : Machine}

/-- The frame of the top-level table. -/
def rootFrame (m : Machine) : BitVec 40 := frameNumber (m.phys m.pageTable)

theorem rootFrame_eq {root : BitVec 40} (h : m.pageTable = frameAddr root + m.hhdmMapping) :
    m.rootFrame = root := by
  rw [rootFrame, phys, h, BitVec.add_sub_cancel]
  apply frameAddr_inj.mp
  refine frameAddr_frameNumber ?_ ?_
  all_goals
    rw [toNat_frameAddr]
    omega

/-- The entry at an index of the table in a frame. -/
def entry (m : Machine) (n : BitVec 40) (i : Fin 512) : PageEntry :=
  m.mem (frameAddr n + BitVec.ofNat 64 (8 * i.val))

/-- The frame an entry refers to. -/
def link (m : Machine) (n : BitVec 40) (i : Fin 512) : Option (BitVec 40) :=
  if (m.entry n i).address = 0 then none else some (m.entry n i).address

theorem entrySlot_inj {n n' : BitVec 40} {i i' : Fin 512} :
    frameAddr n + BitVec.ofNat 64 (8 * i.val) = frameAddr n' + BitVec.ofNat 64 (8 * i'.val) ↔
      n = n' ∧ i = i' := by
  refine ⟨fun h => ?_, fun ⟨hn, hi⟩ => hn ▸ hi ▸ rfl⟩
  have := congrArg BitVec.toNat h
  simp only [BitVec.toNat_add, BitVec.toNat_ofNat, toNat_frameAddr] at this
  have hn := n.isLt
  have hn' := n'.isLt
  have hi := i.isLt
  have hi' := i'.isLt
  exact ⟨BitVec.eq_of_toNat_eq (by omega), Fin.ext (by omega)⟩

theorem entryAddr_frame (m : Machine) (n : BitVec 40) (i : Fin 512) :
    m.entryAddr (frameAddr n + m.hhdmMapping) i = frameAddr n + BitVec.ofNat 64 (8 * i.val) := by
  rw [entryAddr, phys, BitVec.add_sub_cancel]

theorem pages_frame (m : Machine) (n : BitVec 40) (i : Fin 512) :
    m.pages (frameAddr n + m.hhdmMapping) i = m.entry n i := by
  rw [pages, entryAddr_frame, entry]

theorem entry_setPages (h : table = frameAddr n + m.hhdmMapping) (n' : BitVec 40)
    (i i' : Fin 512) (e : PageEntry) :
    (m.setPages table i e).entry n' i' = if n' = n ∧ i' = i then e else m.entry n' i' := by
  subst h
  simp only [entry, setPages, entryAddr_frame, entrySlot_inj]

theorem entrySlot_lt_pageSize {n n' : BitVec 40} {i : Fin 512} :
    frameAddr n' + BitVec.ofNat 64 (8 * i.val) - frameAddr n < Lethe.pageSize ↔ n' = n := by
  have hn := n.isLt
  have hn' := n'.isLt
  have hi := i.isLt
  rw [BitVec.lt_def]
  simp only [BitVec.toNat_sub, BitVec.toNat_add, BitVec.toNat_ofNat, toNat_frameAddr,
    toNat_pageSize]
  constructor
  · intro h
    exact BitVec.eq_of_toNat_eq (by omega)
  · rintro rfl
    omega

theorem entry_zeroPage (h : ptr = frameAddr n + m.hhdmMapping) (n' : BitVec 40) (i : Fin 512) :
    (m.zeroPage ptr).entry n' i = if n' = n then .zero else m.entry n' i := by
  have hphys : m.phys ptr = frameAddr n := by
    rw [h, phys, BitVec.add_sub_cancel]
  simp only [entry, zeroPage, hphys, entrySlot_lt_pageSize]

theorem physical_eq (e : PageEntry) : e.physical = frameAddr e.address := rfl

/-! ## The tree of tables -/

/-- The digits of the page of an address. -/
def digits (v : BitVec 64) : List (Fin 512) := [p4Index v, p3Index v, p2Index v, p1Index v]

/-- An entry is zero, or present with an address and without the page-size bit. -/
def EntryOk (e : PageEntry) : Prop := e = .zero ∨ e.present = 1 ∧ e.address ≠ 0 ∧ e.pageSize = 0

/-- The tables below `page_table` form a tree that the frame allocator will not touch. -/
structure TreeInv (m : Machine) (root : BitVec 40) : Prop where
  pageTable_eq : m.pageTable = frameAddr root + m.hhdmMapping
  entries : ∀ {p n}, p.length ≤ 3 → Radix.follow m.link root p = some n → ∀ i, EntryOk (m.entry n i)
  distinct : Radix.Distinct m.link root 3
  fresh : ∀ {p n}, p.length ≤ 3 → Radix.follow m.link root p = some n →
    frameAddr n ∉ m.allocator.pending
  allocator : m.allocator.Inv
  pending_nodup : m.allocator.pending.Nodup
  pending_lt : ∀ f ∈ m.allocator.pending, f.toNat < 2 ^ 52

/-- The flags set the present bit and not the page-size bit. -/
def FlagsOk (flags : BitVec 16) : Prop := flags &&& 0x1 = 1 ∧ flags &&& 0x40 = 0

/-- A frame that an entry can hold. -/
structure FrameOk (f : BitVec 64) : Prop where
  ne_zero : f ≠ 0
  aligned : f.toNat % 4096 = 0
  lt : f.toNat < 2 ^ 52

theorem FrameOk.frameNumber_ne_zero (h : FrameOk f) : frameNumber f ≠ 0 := fun hz =>
  h.ne_zero (by rw [← frameAddr_frameNumber h.aligned h.lt, hz]; rfl)

theorem entryOk_setEntry (hf : FrameOk f) (hflags : FlagsOk flags) :
    EntryOk (PageEntry.setEntry f flags) := by
  refine .inr ⟨?_, hf.frameNumber_ne_zero, ?_⟩
  · simp only [PageEntry.setEntry, hflags.1]
    rfl
  · simp only [PageEntry.setEntry, hflags.2]
    rfl

theorem EntryOk.present_eq_zero {e : PageEntry} (h : EntryOk e) :
    e.present = 0 ↔ e.address = 0 := by
  rcases h with rfl | ⟨hpresent, haddr, -⟩
  · exact ⟨fun _ => rfl, fun _ => rfl⟩
  · rw [hpresent]
    exact ⟨nofun, fun h => absurd h haddr⟩

theorem link_eq_none {n : BitVec 40} {i : Fin 512} :
    m.link n i = none ↔ (m.entry n i).address = 0 := by
  simp [link]

theorem link_eq_some {n : BitVec 40} {i : Fin 512} (h : (m.entry n i).address ≠ 0) :
    m.link n i = some (m.entry n i).address :=
  if_neg h

/-- `virtual_to_physical` follows the digits of the address. -/
theorem virtualToPhysical_eq (h : m.pageTable = frameAddr root + m.hhdmMapping) (v : BitVec 64) :
    m.virtualToPhysical v = ((Radix.follow m.link root (digits v)).map frameAddr).getD 0 := by
  simp only [virtualToPhysical, h, physical_eq, pages_frame, frameAddr_eq_zero, digits, Radix.follow]
  by_cases h3 : (m.entry root (p4Index v)).address = 0
  · rw [link_eq_none.mpr h3, if_pos h3]
    rfl
  rw [link_eq_some h3, if_neg h3, Option.bind_some]
  generalize (m.entry root (p4Index v)).address = p3
  by_cases h2 : (m.entry p3 (p3Index v)).address = 0
  · rw [link_eq_none.mpr h2, if_pos h2]
    rfl
  rw [link_eq_some h2, if_neg h2, Option.bind_some]
  generalize (m.entry p3 (p3Index v)).address = p2
  by_cases h1 : (m.entry p2 (p2Index v)).address = 0
  · rw [link_eq_none.mpr h1, if_pos h1]
    rfl
  rw [link_eq_some h1, if_neg h1, Option.bind_some]
  generalize (m.entry p2 (p2Index v)).address = p1
  by_cases h0 : (m.entry p1 (p1Index v)).address = 0
  · rw [link_eq_none.mpr h0, if_pos h0]
    rfl
  · rw [link_eq_some h0, if_neg h0]
    rfl

/-! ## A new table -/

/-- The frames behind the one that `allocate_frame` has taken. -/
theorem pending_cons {a a' : FrameAllocator} (h : a.pending = f :: a'.pending)
    (hnodup : a.pending.Nodup) :
    f ∈ a.pending ∧ (∀ g ∈ a'.pending, g ∈ a.pending) ∧ f ∉ a'.pending ∧ a'.pending.Nodup := by
  rw [h] at hnodup ⊢
  exact ⟨List.mem_cons_self, fun g hg => List.mem_cons_of_mem f hg, List.nodup_cons.mp hnodup⟩

/-- `m'` is `m` when `allocate_frame` has taken the frame `f` and zero-filled it. -/
structure TakesFrame (m m' : Machine) (f : BitVec 64) : Prop where
  ok : allocateFrame m = .ok (f, m')
  frame : FrameOk f
  pageTable_eq : m'.pageTable = m.pageTable
  hhdmMapping_eq : m'.hhdmMapping = m.hhdmMapping
  pending_eq : m.allocator.pending = f :: m'.allocator.pending
  allocator : m'.allocator.Inv
  entry_eq : ∀ n i, m'.entry n i = if frameAddr n = f then .zero else m.entry n i

theorem allocateFrame_takes (h : m.allocator.Inv)
    (hlt : ∀ f ∈ m.allocator.pending, f.toNat < 2 ^ 52) :
    (allocateFrame m = .error .couldNotFindFreeEntry ∧ m.allocator.pending = []) ∨
      ∃ f m', m.TakesFrame m' f := by
  rcases allocateFrame_spec h with ⟨hnil, herr⟩ | ⟨f, a, halloc, hpend, ha⟩
  · exact .inl ⟨herr, hnil⟩
  have hmem : f ∈ m.allocator.pending := hpend ▸ List.mem_cons_self
  obtain ⟨hne, hal⟩ := h.mem_pending hmem
  have haddr := frameAddr_frameNumber hal (hlt f hmem)
  refine .inr ⟨f, _, halloc, ⟨hne, hal, hlt f hmem⟩, rfl, rfl, hpend, ha, fun n i => ?_⟩
  have hframe : f + m.hhdmMapping = frameAddr (frameNumber f) + m.hhdmMapping := by rw [haddr]
  have hfilled : n = frameNumber f ↔ frameAddr n = f := by
    rw [← frameAddr_inj, haddr]
  simp only [← hfilled]
  exact entry_zeroPage (m := { m with allocator := a }) hframe n i

/-- The entries of `m'` are those of `m` with `e` in one slot. -/
def Replaces (m m' : Machine) (n : BitVec 40) (i : Fin 512) (e : PageEntry) : Prop :=
  ∀ n' i', m'.entry n' i' = if n' = n ∧ i' = i then e else m.entry n' i'

/-- The entries of `m'` are those of `m` with `e` in one slot and a blank table behind it. -/
def Grafts (m m' : Machine) (n : BitVec 40) (i : Fin 512) (e : PageEntry) : Prop :=
  ∀ n' i', m'.entry n' i' =
    if n' = n ∧ i' = i then e else if n' = e.address then .zero else m.entry n' i'

/-- The entries after a zero-filled frame has been put into a slot. -/
theorem entry_graft (hf : FrameOk f) (n' : BitVec 40) (i' : Fin 512) :
    (({ m with allocator := a }.zeroPage (f + m.hhdmMapping)).setPages
      (frameAddr n + m.hhdmMapping) i e).entry n' i' =
      if n' = n ∧ i' = i then e else if n' = frameNumber f then .zero else m.entry n' i' := by
  have hframe : f + m.hhdmMapping = frameAddr (frameNumber f) + m.hhdmMapping := by
    rw [frameAddr_frameNumber hf.aligned hf.lt]
  have hzero := entry_zeroPage (m := { m with allocator := a }) hframe n' i'
  exact (entry_setPages rfl n' i i' e).trans (by rw [hzero]; rfl)

theorem allocateEntry_eq (h : allocateFrame m = .ok (f, m₁)) (hf : f ≠ 0) (table : BitVec 64)
    (i : Fin 512) (flags : BitVec 16) :
    m.allocateEntry table i flags = .ok (m₁.setPages table i (.setEntry f flags)) := by
  rw [allocateEntry, h]
  exact if_neg hf

theorem nextTable_error (hpresent : (m.entry n i).present = 0) (herr : allocateFrame m = .error e) :
    m.nextTable (frameAddr n + m.hhdmMapping) i flags = .error e := by
  rw [nextTable, pages_frame, if_pos hpresent, allocateEntry, herr]
  rfl

/-- An empty slot gets a new table. -/
theorem nextTable_new (hpresent : (m.entry n i).present = 0) (hf : FrameOk f)
    (halloc : allocateFrame m = .ok (f, { m with allocator := a }.zeroPage (f + m.hhdmMapping))) :
    let m' := ({ m with allocator := a }.zeroPage (f + m.hhdmMapping)).setPages
      (frameAddr n + m.hhdmMapping) i (.setEntry f flags)
    m.nextTable (frameAddr n + m.hhdmMapping) i flags =
      .ok (frameAddr (frameNumber f) + m'.hhdmMapping, m') := by
  intro m'
  have haddr : (m'.entry n i).address = frameNumber f := by
    rw [entry_graft hf, if_pos ⟨rfl, rfl⟩]
    rfl
  rw [nextTable, pages_frame, if_pos hpresent, allocateEntry_eq halloc hf.ne_zero, ← haddr,
    ← physical_eq, ← pages_frame]
  rfl

/-- A slot that is not empty holds the table. -/
theorem nextTable_present (hpresent : (m.entry n i).present ≠ 0) :
    m.nextTable (frameAddr n + m.hhdmMapping) i flags =
      .ok (frameAddr (m.entry n i).address + m.hhdmMapping, m) := by
  rw [nextTable, pages_frame, if_neg hpresent, ← physical_eq, ← pages_frame]
  rfl

section
variable {root : BitVec 40} {e : PageEntry}

/-- An entry for a fresh table is added to the tree, in a slot that was empty. -/
theorem Grafts.follow (h : m.Grafts m' n i e) (he : e.address ≠ 0)
    (hd : Radix.Distinct m.link root 3) (hp : p.length < 3) (hn : Radix.follow m.link root p = some n)
    (hempty : m.link n i = none)
    (hfresh : ∀ q, q.length ≤ 3 → Radix.follow m.link root q ≠ some e.address) :
    Radix.Distinct m'.link root 3 ∧ Radix.follow m'.link root (p ++ [i]) = some e.address ∧
      ∀ q, q.length ≤ 4 → q ≠ p ++ [i] → Radix.follow m'.link root q = Radix.follow m.link root q := by
  have hne : e.address ≠ n := by
    rintro rfl
    exact hfresh p (by omega) hn
  have hslot : m'.entry n i = e := (h n i).trans (if_pos ⟨rfl, rfl⟩)
  have hnew : m'.link n i = some e.address := by
    rw [link, hslot]
    exact if_neg he
  have hzero (j) : m'.link e.address j = none := by
    have hblank : m'.entry e.address j = .zero := by
      rw [h, if_neg fun heq => hne heq.1, if_pos rfl]
    rw [link, hblank]
    rfl
  have hrest (n' i') (hn' : n' ≠ e.address) (hslot : ¬ (n' = n ∧ i' = i)) :
      m'.link n' i' = m.link n' i' := by
    rw [link, h, if_neg hslot, if_neg hn', link]
  have hgraft {q : List (Fin 512)} (hq : q.length ≤ 4) :=
    Radix.follow_graft hd hp hn hempty hfresh hzero hnew hrest hq
  exact ⟨Radix.Distinct.graft hd hp hn hempty hfresh hzero hnew hrest,
    (hgraft (q := []) (Nat.zero_le _)).2, fun q hq => (hgraft hq).1⟩

/-- An entry of the last level is written. -/
theorem Replaces.follow (h : m.Replaces m' n i e) (hd : Radix.Distinct m.link root 3)
    (hp : p.length = 3) (hn : Radix.follow m.link root p = some n) :
    Radix.Distinct m'.link root 3 ∧
      Radix.follow m'.link root (p ++ [i]) = (if e.address = 0 then none else some e.address) ∧
      ∀ q, q.length ≤ 4 → q ≠ p ++ [i] → Radix.follow m'.link root q = Radix.follow m.link root q := by
  have hrest (n' i') (hslot : ¬ (n' = n ∧ i' = i)) : m'.link n' i' = m.link n' i' := by
    rw [link, h, if_neg hslot, link]
  have hset {q : List (Fin 512)} (hq : q.length ≤ 4) := Radix.follow_set hd hp hn hrest hq
  refine ⟨Radix.Distinct.set hd hp hn hrest, ?_, fun q hq => (hset hq).1⟩
  have hslot : m'.entry n i = e := (h n i).trans (if_pos ⟨rfl, rfl⟩)
  rw [(hset (q := []) (Nat.zero_le _)).2, link, hslot]

end

namespace TreeInv

variable {root : BitVec 40}

theorem frameOk (h : m.TreeInv root) (hf : f ∈ m.allocator.pending) : FrameOk f :=
  have ⟨hne, hal⟩ := h.allocator.mem_pending hf
  ⟨hne, hal, h.pending_lt f hf⟩

/-- The state after `__allocate_entry` has put the zero-filled frame `f` into an empty slot. -/
theorem graft (h : m.TreeInv root) (hp : p.length < 3) (hn : Radix.follow m.link root p = some n)
    (hempty : m.link n i = none) (hflags : FlagsOk flags)
    (hpend : m.allocator.pending = f :: a.pending) (ha : a.Inv) :
    let m' := ({ m with allocator := a }.zeroPage (f + m.hhdmMapping)).setPages
      (frameAddr n + m.hhdmMapping) i (.setEntry f flags)
    m'.TreeInv root ∧ Radix.follow m'.link root (p ++ [i]) = some (frameNumber f) ∧
      ∀ q, q.length ≤ 4 → q ≠ p ++ [i] →
        Radix.follow m'.link root q = Radix.follow m.link root q := by
  intro m'
  obtain ⟨hmem, hsub, hnodup⟩ := pending_cons hpend h.pending_nodup
  have hf := h.frameOk hmem
  have haddr := frameAddr_frameNumber hf.aligned hf.lt
  have hgrafts : m.Grafts m' n i (.setEntry f flags) := entry_graft hf
  have hfresh (q : List (Fin 512)) (hq : q.length ≤ 3) :
      Radix.follow m.link root q ≠ some (frameNumber f) :=
    fun hto => h.fresh hq hto (by rwa [haddr])
  obtain ⟨hdistinct, hslot, hsame⟩ :=
    hgrafts.follow hf.frameNumber_ne_zero h.distinct hp hn hempty hfresh
  -- a table of the new tree is the new one, or was there before
  have hcase {q : List (Fin 512)} {n'} (hq : q.length ≤ 3)
      (hto : Radix.follow m'.link root q = some n') :
      n' = frameNumber f ∨ Radix.follow m.link root q = some n' := by
    by_cases heq : q = p ++ [i]
    · rw [heq, hslot] at hto
      exact .inl (Option.some.inj hto).symm
    · exact .inr (hsame q (by omega) heq ▸ hto)
  refine ⟨⟨h.pageTable_eq, fun hq hto j => ?_, hdistinct, fun hq hto => ?_, ha, hnodup.2,
    fun g hg => h.pending_lt g (hsub g hg)⟩, hslot, hsame⟩
  · rw [hgrafts]
    split
    · exact entryOk_setEntry hf hflags
    split
    · exact .inl rfl
    · next hn' => exact h.entries hq ((hcase hq hto).resolve_left hn') j
  · rcases hcase hq hto with rfl | hold
    · rw [haddr]
      exact hnodup.1
    · exact fun hmem => h.fresh hq hold (hsub _ hmem)

/-- The state after an entry of the last level has been written. -/
theorem setLeaf (h : m.TreeInv root) (hp : p.length = 3) (hn : Radix.follow m.link root p = some n)
    (hok : EntryOk e) (i : Fin 512) :
    let m' := m.setPages (frameAddr n + m.hhdmMapping) i e
    m'.TreeInv root ∧
      Radix.follow m'.link root (p ++ [i]) = (if e.address = 0 then none else some e.address) ∧
      ∀ q, q.length ≤ 4 → q ≠ p ++ [i] → Radix.follow m'.link root q = Radix.follow m.link root q := by
  intro m'
  have hreplaces : m.Replaces m' n i e := fun n' i' => entry_setPages rfl n' i i' e
  obtain ⟨hdistinct, hslot, hother⟩ := hreplaces.follow h.distinct hp hn
  have hsame {q : List (Fin 512)} (hq : q.length ≤ 3) :
      Radix.follow m'.link root q = Radix.follow m.link root q := by
    apply hother q (by omega)
    rintro rfl
    simp at hq
    omega
  refine ⟨⟨h.pageTable_eq, fun hq hto j => ?_, hdistinct,
    fun hq hto => h.fresh hq (hsame hq ▸ hto), h.allocator, h.pending_nodup, h.pending_lt⟩, hslot,
    hother⟩
  rw [hreplaces]
  split
  · exact hok
  · exact h.entries hq (hsame hq ▸ hto) j

/-- The step of `map_page` from a table to the table of the next level. -/
theorem nextTable (h : m.TreeInv root) (hp : p.length < 3)
    (hn : Radix.follow m.link root p = some n) (hflags : FlagsOk flags) (i : Fin 512) :
    (m.nextTable (frameAddr n + m.hhdmMapping) i flags = .error .couldNotFindFreeEntry ∧
        m.allocator.pending = []) ∨
      ∃ c m', m.nextTable (frameAddr n + m.hhdmMapping) i flags =
          .ok (frameAddr c + m'.hhdmMapping, m') ∧ m'.TreeInv root ∧
        Radix.follow m'.link root (p ++ [i]) = some c ∧
        (∀ q, q.length = 4 → Radix.follow m'.link root q = Radix.follow m.link root q) ∧
        m.allocator.pending.length ≤ m'.allocator.pending.length + 1 := by
  have hok := h.entries (by omega) hn i
  by_cases hpresent : (m.entry n i).present = 0
  · -- the slot is empty and gets a new table
    have hempty := link_eq_none.mpr (hok.present_eq_zero.mp hpresent)
    rcases allocateFrame_spec h.allocator with ⟨hnil, herr⟩ | ⟨f, a, halloc, hpend, ha⟩
    · exact .inl ⟨nextTable_error hpresent herr, hnil⟩
    · right
      obtain ⟨hinv, hslot, hsame⟩ := h.graft hp hn hempty hflags hpend ha
      have hf := h.frameOk (pending_cons hpend h.pending_nodup).1
      refine ⟨frameNumber f, _, nextTable_new hpresent hf halloc, hinv, hslot,
        fun q hq => hsame q (by omega) ?_, ?_⟩
      · rintro rfl
        simp at hq
        omega
      · rw [hpend]
        exact Nat.le_refl _
  · -- the slot holds a table
    have hne := mt hok.present_eq_zero.mpr hpresent
    refine .inr ⟨(m.entry n i).address, m, nextTable_present hpresent, h, ?_, fun _ _ => rfl,
      Nat.le_succ _⟩
    rw [Radix.follow_concat, hn]
    exact link_eq_some hne

/-- The part of `map_page` that finds or makes the table of the last level. -/
def lastTable (m : Machine) (page : BitVec 64) (flags : BitVec 16) :
    Except Panic (BitVec 64 × Machine) := do
  let (p3, m) ← m.nextTable m.pageTable (p4Index page) flags
  let (p2, m) ← m.nextTable p3 (p3Index page) flags
  m.nextTable p2 (p2Index page) flags

theorem mapPage_eq (m : Machine) (page frame : BitVec 64) (flags : BitVec 16) :
    m.mapPage page frame flags = (do
      let (p1, m) ← lastTable m page flags
      if (m.pages p1 (p1Index page)).present ≠ 0 then throw (.alreadyMapped frame page)
      else pure (m.setPages p1 (p1Index page) (.setEntry frame flags))) := by
  simp only [Machine.mapPage, lastTable, bind_assoc]

theorem lastTable_spec (h : m.TreeInv root) (hflags : FlagsOk flags) (page : BitVec 64) :
    (lastTable m page flags = .error .couldNotFindFreeEntry ∧ m.allocator.pending.length < 3) ∨
      ∃ p1 m', lastTable m page flags = .ok (frameAddr p1 + m'.hhdmMapping, m') ∧ m'.TreeInv root ∧
        Radix.follow m'.link root [p4Index page, p3Index page, p2Index page] = some p1 ∧
        (∀ q, q.length = 4 → Radix.follow m'.link root q = Radix.follow m.link root q) ∧
        m.allocator.pending.length ≤ m'.allocator.pending.length + 3 := by
  simp only [lastTable, h.pageTable_eq, bind, Except.bind]
  rcases h.nextTable (p := []) (by simp) rfl hflags (p4Index page) with
    ⟨herr, hnil⟩ | ⟨p3, m₁, hok, h₁, hto₁, hsame₁, hlen₁⟩
  · rw [herr, hnil]
    exact .inl ⟨rfl, by decide⟩
  rw [hok]
  dsimp only
  rcases h₁.nextTable (by simp) hto₁ hflags (p3Index page) with
    ⟨herr, hnil⟩ | ⟨p2, m₂, hok, h₂, hto₂, hsame₂, hlen₂⟩
  · rw [herr]
    rw [hnil, List.length_nil] at hlen₁
    exact .inl ⟨rfl, by omega⟩
  rw [hok]
  dsimp only
  rcases h₂.nextTable (by simp) hto₂ hflags (p2Index page) with
    ⟨herr, hnil⟩ | ⟨p1, m₃, hok, h₃, hto₃, hsame₃, hlen₃⟩
  · rw [herr]
    rw [hnil, List.length_nil] at hlen₂
    exact .inl ⟨rfl, by omega⟩
  · refine .inr ⟨p1, m₃, hok, h₃, hto₃, fun q hq => ?_, by omega⟩
    rw [hsame₃ q hq, hsame₂ q hq, hsame₁ q hq]

/-- `map_page`: the page was free and is added, or it was mapped, or the frames are exhausted. -/
theorem mapPage (h : m.TreeInv root) (page : BitVec 64) (hframe : FrameOk frame)
    (hflags : FlagsOk flags) :
    (m.mapPage page frame flags = .error .couldNotFindFreeEntry ∧
        m.allocator.pending.length < 3) ∨
      (m.mapPage page frame flags = .error (.alreadyMapped frame page) ∧
        Radix.follow m.link root (digits page) ≠ none) ∨
      ∃ m', m.mapPage page frame flags = .ok m' ∧ m'.TreeInv root ∧
        Radix.follow m.link root (digits page) = none ∧
        Radix.follow m'.link root (digits page) = some (frameNumber frame) ∧
        (∀ q, q.length = 4 → q ≠ digits page →
          Radix.follow m'.link root q = Radix.follow m.link root q) ∧
        m.allocator.pending.length ≤ m'.allocator.pending.length + 3 := by
  rw [mapPage_eq]
  rcases lastTable_spec h hflags page with ⟨herr, hlen⟩ | ⟨p1, m₁, hok, h₁, hto, hsame, hlen⟩
  · rw [herr]
    exact .inl ⟨rfl, hlen⟩
  have hpage : Radix.follow m.link root (digits page) = m₁.link p1 (p1Index page) := by
    have hdigits : digits page = [p4Index page, p3Index page, p2Index page] ++ [p1Index page] := rfl
    rw [← hsame (digits page) rfl, hdigits, Radix.follow_concat, hto, Option.bind_some]
  rw [hok]
  simp only [bind, Except.bind, pages_frame]
  by_cases hpresent : (m₁.entry p1 (p1Index page)).present = 0
  · obtain ⟨h', hnew, hother⟩ :=
      h₁.setLeaf (by simp) hto (entryOk_setEntry hframe hflags) (p1Index page)
    refine .inr (.inr ⟨_, if_neg (not_not.mpr hpresent), h', ?_, ?_,
      fun q hq hne => (hother q (by omega) hne).trans (hsame q hq), hlen⟩)
    · rw [hpage, link_eq_none]
      exact (h₁.entries (by simp) hto _).present_eq_zero.mp hpresent
    · exact hnew.trans (if_neg hframe.frameNumber_ne_zero)
  · refine .inr (.inl ⟨if_pos hpresent, ?_⟩)
    rw [hpage, link_eq_some (mt (h₁.entries (by simp) hto _).present_eq_zero.mpr hpresent)]
    exact nofun

/-- `allocate_frame` on its own changes no table. -/
theorem allocateFrame (h : m.TreeInv root) :
    (Lethe.allocateFrame m = .error .couldNotFindFreeEntry ∧ m.allocator.pending = []) ∨
      ∃ f m', Lethe.allocateFrame m = .ok (f, m') ∧ FrameOk f ∧ m'.TreeInv root ∧
        (∀ q, q.length ≤ 4 → Radix.follow m'.link root q = Radix.follow m.link root q) ∧
        m.allocator.pending = f :: m'.allocator.pending := by
  rcases allocateFrame_takes h.allocator h.pending_lt with hnil | ⟨f, m', htakes⟩
  · exact .inl hnil
  obtain ⟨hmem, hsub, hnodup⟩ := pending_cons htakes.pending_eq h.pending_nodup
  have hkeep {p n} (hp : p.length ≤ 3) (hn : Radix.follow m.link root p = some n) (i) :
      m'.entry n i = m.entry n i := by
    rw [htakes.entry_eq, if_neg]
    intro heq
    exact h.fresh hp hn (heq ▸ hmem)
  have hsame (q) (hq : q.length ≤ 4) : Radix.follow m'.link root q = Radix.follow m.link root q := by
    refine Radix.follow_congr fun p i n hpre hn => ?_
    have hle := hpre.length_le
    rw [List.length_append, List.length_singleton] at hle
    rw [link, hkeep (by omega) hn, link]
  refine .inr ⟨f, m', htakes.ok, htakes.frame, ⟨?_, fun {p n} hp hn i => ?_,
    fun {p q n} hp hq hnp hnq => ?_, fun {p n} hp hn hmem => ?_, htakes.allocator, hnodup.2,
    fun g hg => h.pending_lt g (hsub g hg)⟩, hsame, htakes.pending_eq⟩
  · rw [htakes.pageTable_eq, htakes.hhdmMapping_eq]
    exact h.pageTable_eq
  · rw [hsame p (by omega)] at hn
    rw [hkeep hp hn]
    exact h.entries hp hn i
  · rw [hsame p (by omega)] at hnp
    rw [hsame q (by omega)] at hnq
    exact h.distinct hp hq hnp hnq
  · rw [hsame p (by omega)] at hn
    exact h.fresh hp hn (hsub _ hmem)

/-- `unmap_page` removes the page. -/
theorem unmapPage (h : m.TreeInv root) (page : BitVec 64) :
    (m.unmapPage page).TreeInv root ∧
      Radix.follow (m.unmapPage page).link root (digits page) = none ∧
      (∀ q, q.length = 4 → q ≠ digits page →
        Radix.follow (m.unmapPage page).link root q = Radix.follow m.link root q) ∧
      (m.unmapPage page).allocator = m.allocator := by
  -- a table that is missing on the way leaves the page unmapped
  have hskip {p i n} (hp : p.length ≤ 3) (hn : Radix.follow m.link root p = some n)
      (hpre : p ++ [i] <+: digits page) (habs : (m.entry n i).present = 0) :
      Radix.follow m.link root (digits page) = none := by
    refine Radix.follow_of_prefix_none ?_ hpre
    rw [Radix.follow_concat, hn]
    exact link_eq_none.mpr ((h.entries hp hn i).present_eq_zero.mp habs)
  have hnext {p i n} (hp : p.length ≤ 3) (hn : Radix.follow m.link root p = some n)
      (hpres : ¬ (m.entry n i).present = 0) :
      Radix.follow m.link root (p ++ [i]) = some (m.entry n i).address := by
    rw [Radix.follow_concat, hn]
    exact link_eq_some (mt (h.entries hp hn i).present_eq_zero.mpr hpres)
  simp only [Machine.unmapPage, h.pageTable_eq, physical_eq, pages_frame]
  split
  · rename_i habs
    exact ⟨h, hskip (p := []) (by simp) rfl ⟨_, rfl⟩ habs, fun _ _ _ => rfl, rfl⟩
  rename_i h4
  have hto₃ := hnext (p := []) (by simp) rfl h4
  split
  · rename_i habs
    exact ⟨h, hskip (by simp) hto₃ ⟨_, rfl⟩ habs, fun _ _ _ => rfl, rfl⟩
  rename_i h3
  have hto₂ := hnext (by simp) hto₃ h3
  split
  · rename_i habs
    exact ⟨h, hskip (by simp) hto₂ ⟨_, rfl⟩ habs, fun _ _ _ => rfl, rfl⟩
  rename_i h2
  have hto₁ := hnext (by simp) hto₂ h2
  obtain ⟨h', hnone, hother⟩ := h.setLeaf (by simp) hto₁ (.inl rfl) (p1Index page)
  exact ⟨h', hnone, fun q hq hne => hother q (by omega) hne, rfl⟩

end TreeInv

/-! ## The abstract map -/

/-- The 36-bit page number of an address. -/
def pageNumber (v : BitVec 64) : BitVec 64 := (v >>> 12) &&& 0xFFFFFFFFF

theorem val_tableIndex (x : BitVec 64) : (tableIndex x).val = x.toNat % 512 := by
  have hand : (x &&& 0x1FF).toNat = x.toNat % 512 := by
    rw [BitVec.toNat_and]
    exact Nat.and_two_pow_sub_one_eq_mod x.toNat 9
  show (x &&& 0x1FF).toNat % 512 = _
  rw [hand, Nat.mod_mod]

theorem toNat_pageNumber (v : BitVec 64) : (pageNumber v).toNat = v.toNat / 4096 % 2 ^ 36 := by
  rw [pageNumber, BitVec.toNat_and, BitVec.toNat_ushiftRight, Nat.shiftRight_eq_div_pow]
  exact Nat.and_two_pow_sub_one_eq_mod _ 36

/-- The digits of an address are those of its page number. -/
theorem digits_eq_iff {v v' : BitVec 64} : digits v = digits v' ↔ pageNumber v = pageNumber v' := by
  have hval (v : BitVec 64) : (p4Index v).val = v.toNat / 2 ^ 39 % 512 ∧
      (p3Index v).val = v.toNat / 2 ^ 30 % 512 ∧ (p2Index v).val = v.toNat / 2 ^ 21 % 512 ∧
      (p1Index v).val = v.toNat / 2 ^ 12 % 512 := by
    simp only [p4Index, p3Index, p2Index, p1Index, val_tableIndex, BitVec.toNat_ushiftRight,
      Nat.shiftRight_eq_div_pow, Nat.div_div_eq_div_mul, ← Nat.pow_add, Nat.reduceAdd, and_self]
  obtain ⟨h4, h3, h2, h1⟩ := hval v
  obtain ⟨h4', h3', h2', h1'⟩ := hval v'
  have hn := toNat_pageNumber v
  have hn' := toNat_pageNumber v'
  simp only [digits, List.cons.injEq, Fin.ext_iff, and_true]
  constructor
  · rintro ⟨h₄, h₃, h₂, h₁⟩
    apply BitVec.eq_of_toNat_eq
    omega
  · intro heq
    rw [heq] at hn
    omega

/-- The map from page numbers to frames that the tables stand for. -/
def translation (m : Machine) : BitVec 64 → BitVec 64 := fun n => m.virtualToPhysical (n <<< 12)

/-- `virtual_to_physical` is the given map from page numbers to frames. -/
def Translates (m : Machine) (frames : BitVec 64 → BitVec 64) : Prop :=
  ∀ v, m.virtualToPhysical v = frames (pageNumber v)

theorem TreeInv.translates (h : m.TreeInv root) : m.Translates m.translation := by
  intro v
  have hpage : pageNumber (pageNumber v <<< 12) = pageNumber v := by
    apply BitVec.eq_of_toNat_eq
    rw [toNat_pageNumber, BitVec.toNat_shiftLeft, Nat.shiftLeft_eq, toNat_pageNumber]
    omega
  rw [translation, virtualToPhysical_eq h.pageTable_eq, virtualToPhysical_eq h.pageTable_eq,
    digits_eq_iff.mpr hpage]

/-- A page is free exactly when it translates to 0. -/
theorem TreeInv.follow_eq_none (h : m.TreeInv root) (hv : m.virtualToPhysical v = 0) :
    Radix.follow m.link root (digits v) = none := by
  rw [virtualToPhysical_eq h.pageTable_eq] at hv
  have hdigits : digits v = [p4Index v, p3Index v, p2Index v] ++ [p1Index v] := rfl
  rw [hdigits, Radix.follow_concat] at hv ⊢
  cases hn : Radix.follow m.link root [p4Index v, p3Index v, p2Index v] with
  | none => rfl
  | some n =>
    rw [hn, Option.bind_some] at hv
    rw [Option.bind_some, link_eq_none]
    by_contra hne
    rw [link_eq_some hne] at hv
    exact hne (frameAddr_eq_zero.mp hv)

/-- A call of `map_page` that returns has mapped a page that was free. -/
theorem TreeInv.mapPage_ok (h : m.TreeInv root) (hframe : FrameOk frame) (hflags : FlagsOk flags)
    (hok : m.mapPage page frame flags = .ok m') : m'.TreeInv root ∧ m.virtualToPhysical page = 0 ∧
      ∀ v, m'.virtualToPhysical v =
        if pageNumber v = pageNumber page then frame else m.virtualToPhysical v := by
  rcases h.mapPage page hframe hflags with ⟨herr, -⟩ | ⟨herr, -⟩ | ⟨m₁, hok₁, h', hfree, hto, hother, -⟩
  · cases herr.symm.trans hok
  · cases herr.symm.trans hok
  · cases hok₁.symm.trans hok
    refine ⟨h', by rw [virtualToPhysical_eq h.pageTable_eq, hfree]; rfl, fun v => ?_⟩
    rw [virtualToPhysical_eq h'.pageTable_eq]
    by_cases hv : digits v = digits page
    · rw [if_pos (digits_eq_iff.mp hv), hv, hto, Option.map_some, Option.getD_some,
        frameAddr_frameNumber hframe.aligned hframe.lt]
    · rw [if_neg (mt digits_eq_iff.mpr hv), hother _ rfl hv, virtualToPhysical_eq h.pageTable_eq]

/-- A call of `allocate_frame` that returns has changed no translation. -/
theorem TreeInv.allocateFrame_ok (h : m.TreeInv root) (hok : Lethe.allocateFrame m = .ok (f, m')) :
    FrameOk f ∧ m'.TreeInv root ∧ ∀ v, m'.virtualToPhysical v = m.virtualToPhysical v := by
  rcases h.allocateFrame with ⟨herr, -⟩ | ⟨f₁, m₁, hok₁, hf, h', hsame, -⟩
  · cases herr.symm.trans hok
  · cases hok₁.symm.trans hok
    refine ⟨hf, h', fun v => ?_⟩
    rw [virtualToPhysical_eq h'.pageTable_eq, virtualToPhysical_eq h.pageTable_eq,
      hsame (digits v) (Nat.le_refl 4)]

/-- A change of the node at the end of one page's digits changes the map at that page. -/
theorem Translates.update (ht : m.Translates frames) (h : m.TreeInv root) (h' : m'.TreeInv root)
    (hpage : Radix.follow m'.link root (digits page) = c)
    (hother : ∀ q, q.length = 4 → q ≠ digits page →
      Radix.follow m'.link root q = Radix.follow m.link root q) :
    m'.Translates (Function.update frames (pageNumber page) ((c.map frameAddr).getD 0)) := by
  intro v
  rw [virtualToPhysical_eq h'.pageTable_eq]
  by_cases hv : digits v = digits page
  · rw [hv, hpage, digits_eq_iff.mp hv, Function.update_self]
  · rw [hother _ rfl hv, Function.update_of_ne (mt digits_eq_iff.mpr hv), ← ht v,
      virtualToPhysical_eq h.pageTable_eq]

/-! ## Runs -/

end Machine

/-- The calls that change the page tables. -/
inductive PagingCall where
  | mapPage (page frame : BitVec 64) (flags : BitVec 16)
  | unmapPage (page : BitVec 64)
  deriving DecidableEq, Repr

namespace PagingCall

/-- The effect of a call on the abstract map. -/
def apply (frames : BitVec 64 → BitVec 64) : PagingCall → BitVec 64 → BitVec 64
  | .mapPage page frame _ => Function.update frames (Machine.pageNumber page) frame
  | .unmapPage page => Function.update frames (Machine.pageNumber page) 0

/-- A page is mapped only when it is free, to a frame that an entry can hold. -/
def Valid (frames : BitVec 64 → BitVec 64) : PagingCall → Prop
  | .mapPage page frame flags => Machine.FrameOk frame ∧ Machine.FlagsOk flags ∧
      frames (Machine.pageNumber page) = 0
  | .unmapPage _ => True

/-- Every call of a run is valid when it is made. -/
def ValidRun : (BitVec 64 → BitVec 64) → List PagingCall → Prop
  | _, [] => True
  | frames, c :: calls => c.Valid frames ∧ ValidRun (c.apply frames) calls

end PagingCall

namespace Machine

variable {m : Machine} {root : BitVec 40} {frames : BitVec 64 → BitVec 64} {c : PagingCall}

def pagingStep (m : Machine) : PagingCall → Except Panic Machine
  | .mapPage page frame flags => m.mapPage page frame flags
  | .unmapPage page => .ok (m.unmapPage page)

theorem pagingStep_spec (h : m.TreeInv root) (ht : m.Translates frames) (hc : c.Valid frames) :
    (m.pagingStep c = .error .couldNotFindFreeEntry ∧ m.allocator.pending.length < 3) ∨
      ∃ m', m.pagingStep c = .ok m' ∧ m'.TreeInv root ∧ m'.Translates (c.apply frames) ∧
        m.allocator.pending.length ≤ m'.allocator.pending.length + 3 := by
  cases c with
  | mapPage page frame flags =>
    obtain ⟨hframe, hflags, hfree⟩ := hc
    have hnone := h.follow_eq_none ((ht page).trans hfree)
    rcases h.mapPage page hframe hflags with
      herr | ⟨-, hmapped⟩ | ⟨m', hok, h', -, hto, hother, hlen⟩
    · exact .inl herr
    · exact absurd hnone hmapped
    · refine .inr ⟨m', hok, h', ?_, hlen⟩
      have := ht.update h h' hto hother
      rwa [Option.map_some, Option.getD_some, frameAddr_frameNumber hframe.aligned hframe.lt] at this
  | unmapPage page =>
    obtain ⟨h', hto, hother, halloc⟩ := h.unmapPage page
    exact .inr ⟨_, rfl, h', ht.update h h' hto hother, by rw [halloc]; omega⟩

theorem pagingRun_spec (h : m.TreeInv root) (ht : m.Translates frames)
    (hcalls : PagingCall.ValidRun frames calls) :
    (calls.foldlM pagingStep m = .error .couldNotFindFreeEntry ∧
        m.allocator.pending.length < 3 * calls.length) ∨
      ∃ m', calls.foldlM pagingStep m = .ok m' ∧ m'.TreeInv root ∧
        m'.Translates (calls.foldl PagingCall.apply frames) := by
  induction calls generalizing m frames with
  | nil => exact .inr ⟨m, rfl, h, ht⟩
  | cons c calls ih =>
    obtain ⟨hc, hcalls⟩ := hcalls
    rw [List.foldlM_cons, List.foldl_cons, List.length_cons]
    rcases pagingStep_spec h ht hc with ⟨herr, hlen⟩ | ⟨m₁, hok, h₁, ht₁, hlen₁⟩
    · rw [herr]
      exact .inl ⟨rfl, by omega⟩
    · rw [hok]
      rcases ih h₁ ht₁ hcalls with ⟨herr, hlen⟩ | hrun
      · exact .inl ⟨herr, by omega⟩
      · exact .inr hrun

/-- In every run of `map_page` and `unmap_page` calls on a tree of tables, `virtual_to_physical`
is the abstract map, and the tables stay a tree; a run stops early only when the frames of the
allocator are exhausted, which takes more than one `map_page` for every three of them. -/
theorem paging_refines_map (m : Machine) (root : BitVec 40) (h : m.TreeInv root)
    (calls : List PagingCall) (hcalls : PagingCall.ValidRun m.translation calls) :
    (∃ m', calls.foldlM pagingStep m = .ok m' ∧ m'.TreeInv root ∧
        ∀ v, m'.virtualToPhysical v =
          calls.foldl PagingCall.apply m.translation (pageNumber v)) ∨
      (calls.foldlM pagingStep m = .error .couldNotFindFreeEntry ∧
        m.allocator.pending.length < 3 * calls.length) :=
  (pagingRun_spec h h.translates hcalls).symm

/-- An empty top-level table in frame 1, and four free frames. -/
def emptyTables : Machine where
  mem _ := .zero
  hhdmMapping := 0xFFFF800000000000
  pageTable := 0xFFFF800000001000
  allocator := { memoryMap := [], next := { start := false, base := 0x10000, length := 0x4000 } }

theorem treeInv_emptyTables : emptyTables.TreeInv 1 := by
  have hroot {p n} (h : Radix.follow emptyTables.link 1 p = some n) : p = [] ∧ n = 1 := by
    cases p with
    | nil => exact ⟨rfl, (Option.some.inj h).symm⟩
    | cons i p => cases h
  have hpend : emptyTables.allocator.pending = [0x10000, 0x11000, 0x12000, 0x13000] := by decide
  refine ⟨by decide, fun _ _ _ => .inl rfl, fun _ _ hp hq => (hroot hp).1.trans (hroot hq).1.symm,
    fun _ hp => ?_, ⟨rfl, by decide, by decide, nofun⟩, ?_, ?_⟩
  · rw [(hroot hp).2, hpend]
    decide
  · rw [hpend]
    decide
  · rw [hpend]
    simp

/-- Two pages of one table are mapped, and the first is then moved to another frame. -/
def sharedCalls : List PagingCall :=
  [.mapPage 0x400000 0x5000 3, .mapPage 0x401000 0x7000 1, .unmapPage 0x400000,
    .mapPage 0x400000 0x9000 3]

/-- The calls share the tables that the first of them makes, which takes three of the four
frames. -/
theorem paging_refines_map_emptyTables :
    emptyTables.TreeInv 1 ∧ ∃ m', sharedCalls.foldlM pagingStep emptyTables = .ok m' ∧
      m'.TreeInv 1 ∧ m'.virtualToPhysical 0x400123 = 0x9000 ∧
      m'.virtualToPhysical 0x401FFF = 0x7000 ∧ m'.virtualToPhysical 0x402000 = 0 := by
  have hvalid : PagingCall.ValidRun emptyTables.translation sharedCalls := by
    refine ⟨⟨⟨by decide, by decide, by decide⟩, ⟨by decide, by decide⟩, by decide⟩,
      ⟨⟨by decide, by decide, by decide⟩, ⟨by decide, by decide⟩, by decide⟩, trivial,
      ⟨⟨by decide, by decide, by decide⟩, ⟨by decide, by decide⟩, by decide⟩, trivial⟩
  have hframes : sharedCalls.foldlM pagingStep emptyTables ≠ .error .couldNotFindFreeEntry := by
    intro herr
    have hok : (match sharedCalls.foldlM pagingStep emptyTables with
        | .ok _ => true
        | .error _ => false) = true := by decide +kernel
    rw [herr] at hok
    cases hok
  refine ⟨treeInv_emptyTables, ?_⟩
  rcases paging_refines_map emptyTables 1 treeInv_emptyTables sharedCalls hvalid with
    ⟨m', hok, hinv, hv⟩ | ⟨herr, -⟩
  · refine ⟨m', hok, hinv, (hv _).trans ?_, (hv _).trans ?_, (hv _).trans ?_⟩ <;> decide
  · exact absurd herr hframes

end Machine

end Lethe
