import Mathlib.Algebra.GroupWithZero.Nat
import Lethe.Kernel.SmallPages
import Lethe.Lib.Wp

/-!
# The page tables of `loader/page_table.c`

The loader runs in the identity mapping of the firmware, so `mem` holds the eight bytes of a table
entry at their address. `free` is what the calls of `AllocatePages` return, in order, and a fault is
a call that finds no page, or a product that is no `int`.

The entries are those that the processor walks (`Tables.machine`), so that what a call maps is said
with the walk of `Lethe.Kernel.HardwareWalk`.
-/

namespace Lethe.Loader

/-- Why `map_pages` does not return. -/
inductive Fault
  /-- `j * EFI_PAGE_SIZE` is no `int`. -/
  | overflow
  | outOfPages
  deriving DecidableEq, Repr

/-- `EFI_PAGE_SIZE`, an `int`. -/
def efiPageSize : Nat := 4096

/-- The macro `ADDR_TO_ENTRY`. -/
def addrToEntry (addr : BitVec 64) (flag : BitVec 16) : BitVec 64 :=
  ((addr >>> 12) &&& 0xFFFFFFFFFF) <<< 12 ||| (0b1 ||| flag.setWidth 64)

/-- The memory behind the tables, `p4_table`, and the pages that are free. -/
structure Tables where
  mem : BitVec 64 → BitVec 64
  p4Table : BitVec 64
  free : List (BitVec 64)

namespace Tables

/-- `table->pages[index]`. -/
def pages (m : Tables) (table : BitVec 64) (index : Fin 512) : BitVec 64 :=
  m.mem (table + BitVec.ofNat 64 (8 * index.val))

/-- The assignment to `table->pages[index]`. -/
def setPages (m : Tables) (table : BitVec 64) (index : Fin 512) (entry : BitVec 64) : Tables :=
  { m with mem := Function.update m.mem (table + BitVec.ofNat 64 (8 * index.val)) entry }

/-- `quick_allocate_page`. -/
def quickAllocatePage (m : Tables) : Except Fault (BitVec 64 × Tables) :=
  match m.free with
  | [] => .error .outOfPages
  | addr :: free => .ok (addr, { m with free })

/-- `memset(page, 0, EFI_PAGE_SIZE)`. -/
def zeroPage (m : Tables) (page : BitVec 64) : Tables :=
  { m with mem := fun a => if a - page < BitVec.ofNat 64 efiPageSize then 0 else m.mem a }

/-- `new_page_table`. A page that is `NULL` is filled and returned as well. -/
def newPageTable (m : Tables) : Except Fault (BitVec 64 × Tables) := do
  let (page, m) ← m.quickAllocatePage
  pure (page, m.zeroPage page)

/-- The table behind an entry of `map_pages`, which is made if the entry is not present. -/
def nextTable (m : Tables) (table : BitVec 64) (index : Fin 512) (flags : BitVec 16) :
    Except Fault (BitVec 64 × Tables) := do
  let entry := m.pages table index
  if entry &&& 0b1 = 0 then
    let (next, m) ← m.newPageTable
    pure (next, m.setPages table index (addrToEntry next flags))
  else pure (entry &&& 0x000FFFFFFFFFF000, m)

/-- The loop body of `map_pages` for the pages at two addresses. -/
def mapPage (m : Tables) (pageVAddr pagePAddr : BitVec 64) (flags : BitVec 16) :
    Except Fault Tables := do
  let index := pageVAddr >>> 12
  let (p3Table, m) ← m.nextTable m.p4Table (tableIndex (index >>> 27)) flags
  let (p2Table, m) ← m.nextTable p3Table (tableIndex (index >>> 18)) flags
  let (p1Table, m) ← m.nextTable p2Table (tableIndex (index >>> 9)) flags
  pure (m.setPages p1Table (tableIndex index) (addrToEntry pagePAddr flags))

/-- `j * EFI_PAGE_SIZE`. -/
def pageOffset (j : Nat) : Except Fault (BitVec 64) :=
  if j * efiPageSize < 2 ^ 31 then .ok (BitVec.ofNat 64 (j * efiPageSize)) else .error .overflow

/-- The loop of `map_pages` from `j` on, with the number of rounds that are left. -/
def mapPagesLoop (vAddr pAddr : BitVec 64) (flags : BitVec 16) :
    Nat → Nat → Tables → Except Fault Tables
  | 0, _, m => .ok m
  | left + 1, j, m =>
    if vAddr.toNat % efiPageSize ≠ 0 then .ok m
    else if pAddr.toNat % efiPageSize ≠ 0 then .ok m
    else do
      let offset ← pageOffset j
      let m ← m.mapPage (vAddr + offset) (pAddr + offset) flags
      mapPagesLoop vAddr pAddr flags left (j + 1) m

/-- `map_pages`. -/
def mapPages (m : Tables) (vAddr pAddr pages : BitVec 64) (flags : BitVec 16) :
    Except Fault Tables :=
  mapPagesLoop vAddr pAddr flags pages.toNat 0 m

/-- `copy_existing_pages`. -/
def copyExistingPages (m : Tables) (cr3 : BitVec 64) : Except Fault Tables := do
  let (p4Table, m) ← m.newPageTable
  pure ((List.finRange 512).foldl (fun m i => m.setPages p4Table i (m.pages cr3 i))
    { m with p4Table })

end Tables

/-- The fields of `efi_memory_descriptor_t` that `setup_page_table` uses. -/
structure MemoryDescriptor where
  physicalStart : BitVec 64
  numberOfPages : BitVec 64

namespace Tables

/-- `setup_page_table`, with the descriptors that `quick_memory_map` returns. -/
def setupPageTable (m : Tables) (kernelStart cr3 : BitVec 64) (mmap : List MemoryDescriptor) :
    Except Fault Tables := do
  let m ← m.copyExistingPages cr3
  mmap.foldlM (fun m desc => m.mapPages (kernelStart + desc.physicalStart) desc.physicalStart
    desc.numberOfPages 0b10) m

end Tables

end Lethe.Loader

namespace Lethe

/-- An entry with the given bits. -/
def PageEntry.ofBits (x : BitVec 64) : PageEntry where
  present := x.extractLsb' 0 1
  writable := x.extractLsb' 1 1
  userAccessable := x.extractLsb' 2 1
  writeThrough := x.extractLsb' 3 1
  cacheDisable := x.extractLsb' 4 1
  accessed := x.extractLsb' 5 1
  unused1 := x.extractLsb' 6 1
  pageSize := x.extractLsb' 7 1
  unused2 := x.extractLsb' 8 4
  address := x.extractLsb' 12 40
  unused3 := x.extractLsb' 52 11
  executeDisable := x.extractLsb' 63 1

namespace Loader

open Machine

/-- The tables as the processor sees them; the globals of the kernel have no part in its walk. -/
def Tables.machine (m : Tables) : Machine where
  mem a := .ofBits (m.mem a)
  hhdmMapping := 0
  pageTable := m.p4Table
  allocator := { memoryMap := [], next := { start := false, base := 0, length := 0 } }

/-- The walk of the processor from `p4_table`. -/
def Tables.walk (m : Tables) (v : BitVec 64) : Walk :=
  m.machine.hardwareWalk (frameNumber m.p4Table) v

/-- The flags are neither bits of the address nor the page-size bit. -/
def FlagBits (flags : BitVec 16) : Prop := flags &&& 0xF080 = 0

/-! ## The bits of entries -/

theorem present_ofBits {x : BitVec 64} : (PageEntry.ofBits x).present = 0 ↔ x &&& 0b1 = 0 := by
  have hbit : (PageEntry.ofBits x).present.toNat = (x &&& 0b1).toNat := by
    rw [BitVec.toNat_and]
    change _ = x.toNat &&& (2 ^ 1 - 1)
    rw [Nat.and_two_pow_sub_one_eq_mod]
    simp [PageEntry.ofBits]
  rw [← BitVec.toNat_inj, ← BitVec.toNat_inj, hbit]
  rfl

theorem ofBits_zero : PageEntry.ofBits 0 = .zero := by decide

theorem shiftRight_and_address (x : BitVec 64) :
    ((x >>> 12) &&& 0xFFFFFFFFFF) <<< 12 = frameAddr (frameNumber x) := by
  have hand : ((x >>> 12) &&& 0xFFFFFFFFFF).toNat = x.toNat / 4096 % 2 ^ 40 := by
    rw [BitVec.toNat_and, BitVec.toNat_ushiftRight, Nat.shiftRight_eq_div_pow]
    exact Nat.and_two_pow_sub_one_eq_mod _ 40
  have hnumber : (frameNumber x).toNat = x.toNat / 4096 % 2 ^ 40 := by
    rw [frameNumber, BitVec.toNat_setWidth, BitVec.toNat_ushiftRight, Nat.shiftRight_eq_div_pow]
  apply BitVec.eq_of_toNat_eq
  rw [BitVec.toNat_shiftLeft, hand, toNat_frameAddr, hnumber, Nat.shiftLeft_eq]
  omega

theorem address_ofBits (x : BitVec 64) : (PageEntry.ofBits x).address = frameNumber x := by
  ext i hi
  simp [PageEntry.ofBits, frameNumber]

/-- The bits of the address. -/
theorem and_addressBits (x : BitVec 64) : x &&& 0x000FFFFFFFFFF000 = frameAddr (frameNumber x) := by
  have hshift (mask : BitVec 64) : x &&& (mask <<< 12) = ((x >>> 12) &&& mask) <<< 12 := by
    ext i hi
    simp
    grind
  rw [← shiftRight_and_address, ← hshift]
  rfl

theorem FlagBits.getLsbD (h : FlagBits flags) (hi : i = 7 ∨ 12 ≤ i) : flags.getLsbD i = false := by
  rcases Nat.lt_or_ge i 16 with hlt | hge
  · have hmask : (0xF080 : BitVec 16).getLsbD i = true := by
      obtain rfl | rfl | rfl | rfl | rfl : i = 7 ∨ i = 12 ∨ i = 13 ∨ i = 14 ∨ i = 15 := by omega
      all_goals rfl
    have hbit : (flags &&& 0xF080).getLsbD i = (0 : BitVec 16).getLsbD i :=
      congrArg (BitVec.getLsbD · i) h
    rw [BitVec.getLsbD_and, hmask, Bool.and_true] at hbit
    simpa using hbit
  · exact BitVec.getLsbD_of_ge flags i hge

theorem addrToEntry_eq (a : BitVec 64) (flags : BitVec 16) :
    addrToEntry a flags = frameAddr (frameNumber a) ||| (1#64 ||| flags.setWidth 64) := by
  rw [addrToEntry, shiftRight_and_address]
  rfl

theorem address_addrToEntry (h : FlagBits flags) (a : BitVec 64) :
    (PageEntry.ofBits (addrToEntry a flags)).address = frameNumber a := by
  rw [addrToEntry_eq]
  generalize frameNumber a = n
  ext i hi
  have hflag := h.getLsbD (i := 12 + i) (.inr (by omega))
  have hlow : ¬12 + i < 12 := by omega
  have hhigh : 12 + i < 64 := by omega
  have hbit : n.getLsbD i = n[i] := BitVec.getLsbD_eq_getElem hi
  simp [PageEntry.ofBits, frameAddr, hflag, hlow, hhigh, hbit]

theorem present_addrToEntry (a : BitVec 64) (flags : BitVec 16) :
    (PageEntry.ofBits (addrToEntry a flags)).present ≠ 0 := by
  rw [addrToEntry_eq]
  intro h
  have hbit := congrArg (BitVec.getLsbD · 0) h
  simp [PageEntry.ofBits] at hbit

theorem pageSize_addrToEntry (h : FlagBits flags) (a : BitVec 64) :
    (PageEntry.ofBits (addrToEntry a flags)).pageSize = 0 := by
  rw [addrToEntry_eq]
  ext i hi
  obtain rfl : i = 0 := by omega
  have hflag : flags[7] = false := h.getLsbD (.inl rfl)
  simp [PageEntry.ofBits, frameAddr, hflag]

/-! ## Calls that return -/

namespace Tables

theorem newPageTable_returns {m : Tables} (h : 0 < m.free.length) :
    ∃ page m', m.newPageTable = .ok (page, m') ∧ m.free.length ≤ m'.free.length + 1 := by
  cases hfree : m.free with
  | nil =>
    rw [hfree] at h
    exact absurd h (Nat.lt_irrefl _)
  | cons addr rest =>
    refine ⟨addr, { m with free := rest }.zeroPage addr, ?_, Nat.le_refl _⟩
    rw [newPageTable, quickAllocatePage, hfree]
    rfl

/-- With a page to take, the step to the next table returns. -/
theorem nextTable_returns (m : Tables) (table : BitVec 64) (index : Fin 512) (flags : BitVec 16)
    (h : 0 < m.free.length) :
    ∃ next m', m.nextTable table index flags = .ok (next, m') ∧
      m.free.length ≤ m'.free.length + 1 := by
  by_cases hbit : m.pages table index &&& 0b1 = 0
  · obtain ⟨next, m₁, hnew, hlen⟩ := newPageTable_returns h
    refine ⟨next, m₁.setPages table index (addrToEntry next flags), ?_, hlen⟩
    simp only [nextTable, if_pos hbit, hnew]
    rfl
  · exact ⟨m.pages table index &&& 0x000FFFFFFFFFF000, m, if_neg hbit, Nat.le_succ _⟩

/-- With three pages to take, the loop body returns. -/
theorem mapPage_returns (m : Tables) (v a : BitVec 64) (flags : BitVec 16)
    (h : 3 ≤ m.free.length) :
    ∃ m', m.mapPage v a flags = .ok m' ∧ m.free.length ≤ m'.free.length + 3 := by
  obtain ⟨p3, m₃, hok₃, hlen₃⟩ :=
    m.nextTable_returns m.p4Table (tableIndex (v >>> 12 >>> 27)) flags (by omega)
  obtain ⟨p2, m₂, hok₂, hlen₂⟩ :=
    m₃.nextTable_returns p3 (tableIndex (v >>> 12 >>> 18)) flags (by omega)
  obtain ⟨p1, m₁, hok₁, hlen₁⟩ :=
    m₂.nextTable_returns p2 (tableIndex (v >>> 12 >>> 9)) flags (by omega)
  refine ⟨m₁.setPages p1 (tableIndex (v >>> 12)) (addrToEntry a flags), ?_, ?_⟩
  · simp only [mapPage, hok₃, hok₂, hok₁, ok_bind]
    rfl
  · change _ ≤ m₁.free.length + 3
    omega

/-- The page `i` of a range. -/
def pageAt (start : BitVec 64) (i : Nat) : BitVec 64 := start + BitVec.ofNat 64 (4096 * i)

theorem mapPagesLoop_succ (hv : v.toNat % 4096 = 0) (hp : p.toNat % 4096 = 0) (left j : Nat)
    (m : Tables) : mapPagesLoop v p flags (left + 1) j m =
      if j < 2 ^ 19 then m.mapPage (pageAt v j) (pageAt p j) flags >>=
        mapPagesLoop v p flags left (j + 1)
      else .error .overflow := by
  have hproduct : j * efiPageSize = 4096 * j := Nat.mul_comm j 4096
  rw [mapPagesLoop, efiPageSize, if_neg (not_not.mpr hv), if_neg (not_not.mpr hp), pageOffset,
    hproduct]
  by_cases hj : j < 2 ^ 19
  · rw [if_pos hj, if_pos (by omega)]
    rfl
  · rw [if_neg hj, if_neg (by omega)]
    rfl

/-- With three pages to take for each page of the range, the loop returns exactly up to 2 GiB. -/
theorem mapPagesLoop_returns_iff (hv : v.toNat % 4096 = 0) (hp : p.toNat % 4096 = 0)
    (hj : j ≤ 2 ^ 19) (hfree : 3 * left ≤ m.free.length) :
    Returns (mapPagesLoop v p flags left j m) ↔ j + left ≤ 2 ^ 19 := by
  induction left generalizing j m with
  | zero => exact ⟨fun _ => hj, fun _ => ⟨m, rfl⟩⟩
  | succ left ih =>
    rw [mapPagesLoop_succ hv hp]
    split
    · next hlt =>
      obtain ⟨m₁, hok, hlen⟩ := m.mapPage_returns (pageAt v j) (pageAt p j) flags (by omega)
      rw [hok, ok_bind, ih (by omega) (by omega), Nat.add_assoc, Nat.add_comm 1]
    · exact ⟨nofun, fun hle => by omega⟩

theorem mapPages_returns_iff {pages : BitVec 64} (hv : v.toNat % 4096 = 0) (hp : p.toNat % 4096 = 0)
    (hfree : 3 * pages.toNat ≤ m.free.length) :
    Returns (mapPages m v p pages flags) ↔ pages.toNat ≤ 2 ^ 19 := by
  rw [mapPages, mapPagesLoop_returns_iff hv hp (Nat.zero_le _) hfree, Nat.zero_add]

/-- The loop takes at most three pages a round. -/
theorem mapPagesLoop_free (hv : v.toNat % 4096 = 0) (hp : p.toNat % 4096 = 0)
    (hfree : 3 * left ≤ m.free.length) (hok : mapPagesLoop v p flags left j m = .ok m') :
    m.free.length ≤ m'.free.length + 3 * left := by
  induction left generalizing j m with
  | zero =>
    obtain rfl := Except.ok.inj hok
    exact Nat.le_refl _
  | succ left ih =>
    rw [mapPagesLoop_succ hv hp] at hok
    split at hok
    · obtain ⟨m₁, hpage, hlen⟩ := m.mapPage_returns (pageAt v j) (pageAt p j) flags (by omega)
      rw [hpage, ok_bind] at hok
      have hlater := ih (by omega) hok
      omega
    · cases hok

theorem foldl_setPages_free (table cr3 : BitVec 64) (indices : List (Fin 512)) (m : Tables) :
    (indices.foldl (fun m i => m.setPages table i (m.pages cr3 i)) m).free = m.free := by
  induction indices generalizing m with
  | nil => rfl
  | cons i indices ih => exact ih (m.setPages table i (m.pages cr3 i))

theorem copyExistingPages_returns {m : Tables} (cr3 : BitVec 64) (h : 0 < m.free.length) :
    ∃ m', m.copyExistingPages cr3 = .ok m' ∧ m.free.length ≤ m'.free.length + 1 := by
  obtain ⟨p4Table, m₁, hnew, hlen⟩ := newPageTable_returns h
  refine ⟨(List.finRange 512).foldl (fun m i => m.setPages p4Table i (m.pages cr3 i))
    { m₁ with p4Table }, ?_, ?_⟩
  · rw [copyExistingPages, hnew]
    rfl
  · rw [foldl_setPages_free]
    exact hlen

/-- With enough pages to take, `setup_page_table` returns exactly if no descriptor is of more than
2 GiB. -/
theorem setupPageTable_returns_iff (m : Tables) {kernelStart : BitVec 64} (cr3 : BitVec 64)
    {mmap : List MemoryDescriptor} (hstart : kernelStart.toNat % 4096 = 0)
    (haligned : ∀ desc ∈ mmap, desc.physicalStart.toNat % 4096 = 0)
    (hfree : 3 * (mmap.map fun desc => desc.numberOfPages.toNat).sum < m.free.length) :
    Returns (m.setupPageTable kernelStart cr3 mmap) ↔
      ∀ desc ∈ mmap, desc.numberOfPages.toNat ≤ 2 ^ 19 := by
  obtain ⟨m₁, hcopied, hlen⟩ := copyExistingPages_returns cr3 (by omega : 0 < m.free.length)
  rw [setupPageTable, hcopied, ok_bind]
  replace hfree : 3 * (mmap.map fun desc => desc.numberOfPages.toNat).sum ≤ m₁.free.length := by
    omega
  clear hcopied hlen
  induction mmap generalizing m₁ with
  | nil => exact ⟨fun _ => nofun, fun _ => ⟨m₁, rfl⟩⟩
  | cons desc mmap ih =>
    obtain ⟨hdesc, hmmap⟩ := List.forall_mem_cons.mp haligned
    rw [List.map_cons, List.sum_cons] at hfree
    have hv : (kernelStart + desc.physicalStart).toNat % 4096 = 0 := by
      rw [BitVec.toNat_add]
      omega
    have hreturns : Returns (m₁.mapPages (kernelStart + desc.physicalStart) desc.physicalStart
        desc.numberOfPages 0b10) ↔ _ := mapPages_returns_iff hv hdesc (by omega)
    rw [List.foldlM_cons, List.forall_mem_cons, ← hreturns]
    constructor
    · rintro ⟨m', hok⟩
      obtain ⟨m₂, hmap, hrest⟩ := bind_eq_ok.mp hok
      have hlen := mapPagesLoop_free hv hdesc (by omega) hmap
      exact ⟨⟨m₂, hmap⟩, (ih hmmap m₂ (by omega)).mp ⟨m', hrest⟩⟩
    · rintro ⟨⟨m₂, hmap⟩, hrest⟩
      have hlen := mapPagesLoop_free hv hdesc (by omega) hmap
      rw [hmap, ok_bind]
      exact (ih hmmap m₂ (by omega)).mpr hrest

end Tables

/-! ## The tree of tables -/

namespace Tables

section
variable {m m' : Tables} {root n : BitVec 40} {p : List (Fin 512)} {i : Fin 512}

theorem entry_machine (m : Tables) (n : BitVec 40) (i : Fin 512) :
    m.machine.entry n i = .ofBits (m.pages (frameAddr n) i) := rfl

theorem replaces_setPages (m : Tables) (n : BitVec 40) (i : Fin 512) (e : BitVec 64) :
    m.machine.Replaces (m.setPages (frameAddr n) i e).machine n i (.ofBits e) := by
  intro n' i'
  simp only [entry_machine, pages, setPages]
  by_cases hslot : n' = n ∧ i' = i
  · rw [if_pos hslot, hslot.1, hslot.2, Function.update_self]
  · rw [if_neg hslot, Function.update_of_ne (mt entrySlot_inj.mp hslot)]

theorem entry_zeroPage (m : Tables) (n n' : BitVec 40) (i : Fin 512) :
    (m.zeroPage (frameAddr n)).machine.entry n' i =
      if n' = n then .zero else m.machine.entry n' i := by
  have hlt : frameAddr n' + BitVec.ofNat 64 (8 * i.val) - frameAddr n < BitVec.ofNat 64 efiPageSize ↔
      n' = n := entrySlot_lt_pageSize
  simp only [entry_machine, pages, zeroPage, hlt]
  split
  · exact ofBits_zero
  · rfl

/-- The present entries form a tree of tables without large pages, and the pages that are free are
different and none of the tables. -/
structure Ready (m : Tables) (root : BitVec 40) : Prop where
  p4Table_eq : m.p4Table = frameAddr root
  distinct : Radix.Distinct m.machine.presentLink root 3
  small : m.machine.SmallPages root
  fresh : ∀ {p n}, p.length ≤ 3 → m.machine.tableOn root p = some n → frameAddr n ∉ m.free
  free_nodup : m.free.Nodup
  free_page : ∀ f ∈ m.free, f.toNat % 4096 = 0 ∧ f.toNat < 2 ^ 52

/-- A new table in an empty slot. -/
theorem Ready.graft (h : m.Ready root) (hflags : FlagBits flags) (hp : p.length < 3)
    (hn : m.machine.tableOn root p = some n) (hempty : m.machine.presentEntry n i = none)
    (hfree : m.free = f :: rest) :
    let m' := ({ m with free := rest }.zeroPage f).setPages (frameAddr n) i (addrToEntry f flags)
    m'.Ready root ∧ m'.machine.tableOn root (p ++ [i]) = some (frameNumber f) ∧
      ∀ q, q.length ≤ 4 → q ≠ p ++ [i] → m'.machine.entryOn root q = m.machine.entryOn root q := by
  intro m'
  have hmem : f ∈ m.free := hfree ▸ List.mem_cons_self
  have hsub (g) (hg : g ∈ rest) : g ∈ m.free := hfree ▸ List.mem_cons_of_mem f hg
  have hnodup : f ∉ rest ∧ rest.Nodup := List.nodup_cons.mp (hfree ▸ h.free_nodup)
  have haddr := frameAddr_frameNumber (h.free_page f hmem).1 (h.free_page f hmem).2
  have hnumber := address_addrToEntry hflags f
  have hgrafts : m.machine.Grafts m'.machine n i (.ofBits (addrToEntry f flags)) := by
    intro n' i'
    have hzero := entry_zeroPage { m with free := rest } (frameNumber f) n' i'
    rw [haddr] at hzero
    rw [replaces_setPages _ n i (addrToEntry f flags) n' i', hzero, hnumber]
    rfl
  obtain ⟨hdistinct, hslot, hsame⟩ := hgrafts.entryOn (present_addrToEntry f flags) h.distinct hp hn
    hempty fun q hq hto => h.fresh hq hto (by rwa [hnumber, haddr])
  refine ⟨⟨h.p4Table_eq, hdistinct, fun q e hq he => ?_, fun hq hto => ?_, hnodup.2,
    fun g hg => h.free_page g (hsub g hg)⟩, ?_, hsame⟩
  · by_cases heq : q = p ++ [i]
    · rw [heq, hslot] at he
      obtain rfl := Option.some.inj he
      exact pageSize_addrToEntry hflags f
    · rw [hsame q (by omega) heq] at he
      exact h.small q e hq he
  · rcases tableOn_cases hslot hsame (by omega) hto with ⟨-, rfl⟩ | hold
    · rw [hnumber, haddr]
      exact hnodup.1
    · exact fun hg => h.fresh hq hold (hsub _ hg)
  · rw [tableOn_concat, hslot, Option.map_some, hnumber]

/-- The step from a table to the table of the next level. -/
theorem Ready.nextTable (h : m.Ready root) (hflags : FlagBits flags) (hp : p.length < 3)
    (hn : m.machine.tableOn root p = some n) (i : Fin 512) (hfree : 0 < m.free.length) :
    ∃ c m', m.nextTable (frameAddr n) i flags = .ok (frameAddr c, m') ∧ m'.Ready root ∧
      m'.machine.tableOn root (p ++ [i]) = some c ∧
      (∀ q, q.length = 4 → m'.machine.entryOn root q = m.machine.entryOn root q) ∧
      m.free.length ≤ m'.free.length + 1 := by
  by_cases hpresent : (m.machine.entry n i).present = 0
  · -- the slot is empty and gets a new table
    cases hlist : m.free with
    | nil =>
      rw [hlist] at hfree
      exact absurd hfree (Nat.lt_irrefl _)
    | cons f rest =>
      have hempty := presentEntry_eq_none.mpr hpresent
      obtain ⟨h', hslot, hsame⟩ := h.graft hflags hp hn hempty hlist
      have hpage := h.free_page f (hlist ▸ List.mem_cons_self)
      refine ⟨frameNumber f, _, ?_, h', hslot, fun q hq => hsame q (by omega) ?_, Nat.le_refl _⟩
      · have hbit : m.pages (frameAddr n) i &&& 0b1 = 0 := present_ofBits.mp hpresent
        rw [Tables.nextTable, frameAddr_frameNumber hpage.1 hpage.2]
        simp only [if_pos hbit, newPageTable, quickAllocatePage, hlist]
        rfl
      · rintro rfl
        rw [List.length_append, List.length_singleton] at hq
        omega
  · -- the slot holds a table
    have hbit : ¬m.pages (frameAddr n) i &&& 0b1 = 0 := mt present_ofBits.mpr hpresent
    refine ⟨(m.machine.entry n i).address, m, ?_, h, ?_, fun _ _ => rfl, Nat.le_succ _⟩
    · rw [Tables.nextTable, entry_machine, address_ofBits, ← and_addressBits]
      exact if_neg hbit
    · rw [tableOn_concat, entryOn_concat, hn, Option.bind_some, presentEntry_eq_some hpresent]
      rfl

/-- The loop body maps one page. -/
theorem Ready.mapPage (h : m.Ready root) (hflags : FlagBits flags) (hfree : 3 ≤ m.free.length)
    (v a : BitVec 64) :
    ∃ m', m.mapPage v a flags = .ok m' ∧ m'.Ready root ∧
      m'.machine.entryOn root (digits v) = some (.ofBits (addrToEntry a flags)) ∧
      (∀ q, q.length = 4 → q ≠ digits v →
        m'.machine.entryOn root q = m.machine.entryOn root q) ∧
      m.free.length ≤ m'.free.length + 3 := by
  have h4 : tableIndex (v >>> 12 >>> 27) = p4Index v := by
    rw [p4Index, ← BitVec.shiftRight_add, ← BitVec.shiftRight_add, ← BitVec.shiftRight_add,
      ← BitVec.shiftRight_add]
  have h3 : tableIndex (v >>> 12 >>> 18) = p3Index v := by
    rw [p3Index, ← BitVec.shiftRight_add, ← BitVec.shiftRight_add, ← BitVec.shiftRight_add]
  have hroot : m.machine.tableOn root [] = some root := rfl
  obtain ⟨p3, m₃, hok₃, h₃, hto₃, hsame₃, hlen₃⟩ :=
    h.nextTable (p := []) hflags (by decide) hroot (p4Index v) (by omega)
  obtain ⟨p2, m₂, hok₂, h₂, hto₂, hsame₂, hlen₂⟩ :=
    h₃.nextTable (p := [_]) hflags (by simp) hto₃ (p3Index v) (by omega)
  obtain ⟨p1, m₁, hok₁, h₁, hto₁, hsame₁, hlen₁⟩ :=
    h₂.nextTable (p := [_, _]) hflags (by simp) hto₂ (p2Index v) (by omega)
  have hreplaces := replaces_setPages m₁ p1 (p1Index v) (addrToEntry a flags)
  obtain ⟨hdistinct, hnew, hsame⟩ :=
    hreplaces.entryOn (present_addrToEntry a flags) h₁.distinct (p := [_, _, _]) rfl hto₁
  refine ⟨m₁.setPages (frameAddr p1) (p1Index v) (addrToEntry a flags), ?_,
    ⟨h₁.p4Table_eq, hdistinct, fun q e hq he => ?_, fun {q n} hq hto => ?_, h₁.free_nodup,
      h₁.free_page⟩, hnew, fun q hq hne => ?_, ?_⟩
  · rw [Tables.mapPage]
    simp only [h4, h3, h.p4Table_eq, hok₃, ok_bind]
    change (do
      let (p2Table, m) ← m₃.nextTable (frameAddr p3) (p3Index v) flags
      let (p1Table, m) ← m.nextTable p2Table (p2Index v) flags
      pure (m.setPages p1Table (p1Index v) (addrToEntry a flags))) = _
    simp only [hok₂, hok₁, ok_bind]
    rfl
  · refine h₁.small q e hq ((hsame q (by omega) ?_).symm.trans he)
    rintro rfl
    simp at hq
  · rcases tableOn_cases hnew hsame (by omega) hto with ⟨rfl, -⟩ | hold
    · simp at hq
    · exact h₁.fresh hq hold
  · rw [hsame q (by omega) hne, hsame₁ q hq, hsame₂ q hq, hsame₃ q hq]
  · change _ ≤ m₁.free.length + 3
    omega

end

/-! ## The loop -/

section
variable {m m' : Tables} {root : BitVec 40} {v p pages : BitVec 64} {flags : BitVec 16}
  {i j left : Nat}

theorem toNat_pageAt (h : start.toNat + 4096 * i < 2 ^ 64) :
    (pageAt start i).toNat = start.toNat + 4096 * i := by
  rw [pageAt, BitVec.toNat_add, BitVec.toNat_ofNat]
  omega

theorem digits_pageAt_inj (hal : v.toNat % 4096 = 0) (hi : v.toNat + 4096 * i < 2 ^ 48)
    (hj : v.toNat + 4096 * j < 2 ^ 48) (h : digits (pageAt v i) = digits (pageAt v j)) : i = j := by
  have hnumber := congrArg BitVec.toNat (digits_eq_iff.mp h)
  rw [toNat_pageNumber, toNat_pageNumber, toNat_pageAt (by omega), toNat_pageAt (by omega)] at hnumber
  omega

/-- The rounds of the loop map one page each. -/
theorem Ready.mapPagesLoop (h : m.Ready root) (hflags : FlagBits flags)
    (hv : v.toNat % 4096 = 0) (hp : p.toNat % 4096 = 0) (hsize : j + left ≤ 2 ^ 19)
    (hrange : v.toNat + 4096 * (j + left) ≤ 2 ^ 48) (hfree : 3 * left ≤ m.free.length) :
    ∃ m', Tables.mapPagesLoop v p flags left j m = .ok m' ∧ m'.Ready root ∧
      (∀ i, j ≤ i → i < j + left →
        m'.machine.entryOn root (digits (pageAt v i)) =
          some (.ofBits (addrToEntry (pageAt p i) flags))) ∧
      ∀ q, q.length = 4 → (∀ i, j ≤ i → i < j + left → q ≠ digits (pageAt v i)) →
        m'.machine.entryOn root q = m.machine.entryOn root q := by
  induction left generalizing j m with
  | zero => exact ⟨m, rfl, h, fun i hi hlt => by omega, fun _ _ _ => rfl⟩
  | succ left ih =>
    obtain ⟨m₁, hok, h₁, hnew, hsame, hlen⟩ := h.mapPage hflags (by omega) (pageAt v j) (pageAt p j)
    obtain ⟨m', hloop, h', hpages, hother⟩ :=
      ih h₁ (by omega : j + 1 + left ≤ 2 ^ 19) (by omega) (by omega)
    refine ⟨m', ?_, h', fun i hi hlt => ?_, fun q hq hne => ?_⟩
    · rw [mapPagesLoop_succ hv hp, if_pos (by omega), hok]
      exact hloop
    · rcases Nat.eq_or_lt_of_le hi with rfl | hi
      · -- the later rounds are about other pages
        rw [hother _ rfl fun i hi hlt heq => ?_, hnew]
        have := digits_pageAt_inj hv (by omega) (by omega) heq
        omega
      · exact hpages i hi (by omega)
    · rw [hother q hq fun i hi hlt => hne i (by omega) (by omega)]
      exact hsame q hq (hne j (Nat.le_refl j) (by omega))

/-- After `map_pages` the processor translates each page of the range to its page of the physical
range, and the pages outside as before. -/
def MapsRange (m : Tables) (v p pages : BitVec 64) (flags : BitVec 16) : Prop :=
  ∃ m', m.mapPages v p pages flags = .ok m' ∧
    (∀ i < pages.toNat, ∃ frame,
      m'.walk (pageAt v i) = .page frame ∧ frameAddr frame = pageAt p i) ∧
    ∀ a, (∀ i < pages.toNat, pageNumber a ≠ pageNumber (pageAt v i)) → m'.walk a = m.walk a

theorem Ready.walk_eq (h : m.Ready root) (a : BitVec 64) :
    m.walk a = ((m.machine.entryOn root (digits a)).map fun e => Walk.page e.address).getD
      .missing := by
  have hroot : frameNumber (frameAddr root) = root := by
    apply frameAddr_inj.mp
    have := root.isLt
    exact frameAddr_frameNumber (by rw [toNat_frameAddr]; omega) (by rw [toNat_frameAddr]; omega)
  rw [walk, h.p4Table_eq, hroot]
  exact h.small.hardwareWalk_eq a

theorem Ready.mapsRange (h : m.Ready root) (hflags : FlagBits flags)
    (hv : v.toNat % 4096 = 0) (hp : p.toNat % 4096 = 0)
    (hvrange : v.toNat + 4096 * pages.toNat ≤ 2 ^ 48)
    (hprange : p.toNat + 4096 * pages.toNat ≤ 2 ^ 48) (hfree : 3 * pages.toNat ≤ m.free.length)
    (hsize : pages.toNat ≤ 2 ^ 19) : m.MapsRange v p pages flags := by
  obtain ⟨m', hok, h', hpages, hother⟩ :=
    h.mapPagesLoop (j := 0) hflags hv hp (by omega) (by omega) hfree
  refine ⟨m', hok, fun i hi => ?_, fun a ha => ?_⟩
  · refine ⟨frameNumber (pageAt p i), ?_, ?_⟩
    · rw [h'.walk_eq, hpages i (Nat.zero_le i) (by omega), Option.map_some, Option.getD_some,
        address_addrToEntry hflags]
    · have htoNat : (pageAt p i).toNat = p.toNat + 4096 * i := toNat_pageAt (by omega)
      exact frameAddr_frameNumber (by omega) (by omega)
  · rw [h'.walk_eq, h.walk_eq, hother _ rfl fun i _ hi => ?_]
    exact mt digits_eq_iff.mp (ha i (by omega))

end

/-- On a tree of tables with enough free pages, `map_pages` maps the range exactly if it has at
most `2 ^ 19` pages: at the next one `j * EFI_PAGE_SIZE` is no `int`. -/
theorem mapPages_maps_iff (m : Tables) (root : BitVec 40) (h : m.Ready root)
    (v p pages : BitVec 64) (flags : BitVec 16) (hflags : FlagBits flags)
    (hv : v.toNat % 4096 = 0) (hp : p.toNat % 4096 = 0)
    (hvrange : v.toNat + 4096 * pages.toNat ≤ 2 ^ 48)
    (hprange : p.toNat + 4096 * pages.toNat ≤ 2 ^ 48)
    (hfree : 3 * pages.toNat ≤ m.free.length) :
    m.MapsRange v p pages flags ↔ pages.toNat ≤ 2 ^ 19 := by
  constructor
  · rintro ⟨m', hok, -⟩
    exact (mapPages_returns_iff hv hp hfree).mp ⟨m', hok⟩
  · exact h.mapsRange hflags hv hp hvrange hprange hfree

/-- An empty top-level table, with the pages behind it free. -/
def emptyTables (count : Nat) : Tables where
  mem _ := 0
  p4Table := 0x1000
  free := (List.range count).map fun k => BitVec.ofNat 64 (4096 * (k + 2))

theorem ready_emptyTables (h : count < 2 ^ 39) : (emptyTables count).Ready 1 := by
  have hentry (n : BitVec 40) (i : Fin 512) : (emptyTables count).machine.presentEntry n i = none :=
    presentEntry_eq_none.mpr rfl
  have hroot {p n} (hto : (emptyTables count).machine.tableOn 1 p = some n) : p = [] ∧ n = 1 := by
    cases p with
    | nil => exact ⟨rfl, (Option.some.inj hto).symm⟩
    | cons i p =>
      have hlink :
          Radix.child (emptyTables count).machine.presentEntry PageEntry.address 1 i = none := by
        change ((emptyTables count).machine.presentEntry 1 i).map _ = none
        rw [hentry]
        rfl
      rw [tableOn, Radix.follow, hlink] at hto
      cases hto
  have htoNat {k : Nat} (hk : k < count) :
      (BitVec.ofNat 64 (4096 * (k + 2))).toNat = 4096 * (k + 2) := by
    rw [BitVec.toNat_ofNat]
    omega
  refine ⟨rfl, fun _ _ hp hq => (hroot hp).1.trans (hroot hq).1.symm, fun q e hq he => ?_,
    fun _ hto hmem => ?_, ?_, fun f hf => ?_⟩
  · cases q using List.reverseRecOn with
    | nil => cases he
    | append_singleton q i =>
      rw [entryOn_concat] at he
      obtain ⟨n, -, hn⟩ := Option.bind_eq_some_iff.mp he
      rw [hentry] at hn
      cases hn
  · obtain ⟨k, hk, heq⟩ := List.mem_map.mp hmem
    rw [(hroot hto).2] at heq
    have := congrArg BitVec.toNat heq
    rw [htoNat (List.mem_range.mp hk), toNat_frameAddr] at this
    change 4096 * (k + 2) = 4096 * 1 at this
    omega
  · rw [emptyTables, List.nodup_map_iff_inj_on List.nodup_range]
    intro j hj k hk heq
    have := congrArg BitVec.toNat heq
    rw [htoNat (List.mem_range.mp hj), htoNat (List.mem_range.mp hk)] at this
    omega
  · obtain ⟨k, hk, rfl⟩ := List.mem_map.mp hf
    rw [htoNat (List.mem_range.mp hk)]
    have := List.mem_range.mp hk
    omega

/-- Three pages on both sides of the first GiB, for which two tables are made at each of the lower
levels. -/
theorem mapPages_maps_across : (emptyTables 9).MapsRange 0x3FFFF000 0x200000 3 0b10 := by
  have hflags : FlagBits 0b10 := rfl
  exact (mapPages_maps_iff (emptyTables 9) 1 (ready_emptyTables (by decide)) 0x3FFFF000 0x200000 3
    0b10 hflags (by decide) (by decide) (by decide) (by decide) (by decide)).mpr (by decide)

/-- The first range that is too large: 2 GiB and a page, from 4 GiB on. -/
theorem mapPages_not_mapped : (emptyTables (3 * 0x80001)).Ready 1 ∧
    3 * 0x80001 ≤ (emptyTables (3 * 0x80001)).free.length ∧
    ¬(emptyTables (3 * 0x80001)).MapsRange 0x100000000 0x100000000 0x80001 0b10 := by
  have hlength : (emptyTables (3 * 0x80001)).free.length = 3 * 0x80001 := by
    rw [emptyTables, List.length_map, List.length_range]
  have hfree : 3 * (0x80001 : BitVec 64).toNat ≤ (emptyTables (3 * 0x80001)).free.length :=
    Nat.le_of_eq hlength.symm
  refine ⟨ready_emptyTables (by decide), hfree, ?_⟩
  rintro ⟨m', hok, -⟩
  have hle : (0x80001 : BitVec 64).toNat ≤ 2 ^ 19 :=
    (mapPages_returns_iff (by decide) (by decide) hfree).mp ⟨m', hok⟩
  exact absurd hle (by decide)

end Tables

end Loader

end Lethe
