import Lethe.Kernel.Permissions
import Lethe.Kernel.SmallPages
import Lethe.Lib.Wp

/-!
# Contiguous pages of `memory/paging.c`

`get_free_region` looks for the first run of pages for which `is_free` holds. `is_free` looks at
`unused_1`, which `set_entry` sets and the bootloader need not set, and the result of `ALIGN_UP` is
thrown away. `mapContiguousPages_iff` says when the run that is found is one of aligned, absent
pages, so that `map_contiguous_pages` maps it.
-/

namespace Lethe

namespace Machine

/-- `get_entry`. -/
def getEntry (m : Machine) (page : BitVec 64) : PageEntry :=
  let p3Physical := (m.pages m.pageTable (p4Index page)).physical
  if p3Physical = 0 then .zero
  else
    let p3 := p3Physical + m.hhdmMapping
    let p2Physical := (m.pages p3 (p3Index page)).physical
    if p2Physical = 0 then .zero
    else
      let p2 := p2Physical + m.hhdmMapping
      let p1Physical := (m.pages p2 (p2Index page)).physical
      if p1Physical = 0 then .zero
      else
        let p1 := p1Physical + m.hhdmMapping
        let pageEntry := (m.pages p1 (p1Index page)).physical
        if pageEntry = 0 then .zero else m.pages p1 (p1Index page)

/-- `is_free`. -/
def isFree (m : Machine) (virtual : BitVec 64) : Bool := (m.getEntry virtual).unused1 = 0

/-- The inner loop of `get_free_region`: where the search starts again, if a page is not free. -/
def freeLoop (m : Machine) : Nat → BitVec 64 → Option (BitVec 64)
  | 0, _ => none
  | i + 1, virtual =>
    if m.isFree virtual then m.freeLoop i (virtual + pageSize) else some (virtual + pageSize)

/-- The outer loop of `get_free_region`. `ALIGN_UP(search_start, PAGE_SIZE)` has no effect. -/
def freeRegionLoop (m : Machine) (numPages : Nat) : Nat → BitVec 64 → Except Panic (BitVec 64)
  | 0, _ => .error .doesNotReturn
  | fuel + 1, searchStart =>
    match m.freeLoop numPages searchStart with
    | none => .ok searchStart
    | some searchStart => m.freeRegionLoop numPages fuel searchStart

/-- `get_free_region`. The counters of the loops are of type `int`. -/
def getFreeRegion (m : Machine) (start numPages : BitVec 64) : Except Panic (BitVec 64) :=
  m.freeRegionLoop numPages.toNat loopLimit start

/-- The loop of `map_contiguous_pages`. -/
def mapPagesLoop (flags : BitVec 16) : Nat → Machine → BitVec 64 → BitVec 64 → Except Panic Machine
  | 0, m, _, _ => .ok m
  | i + 1, m, virtual, physical => do
    let m ← m.mapPage virtual physical flags
    mapPagesLoop flags i m (virtual + pageSize) (physical + pageSize)

/-- `map_contiguous_pages`. -/
def mapContiguousPages (m : Machine) (desiredStart physicalStart numPages : BitVec 64)
    (flags : BitVec 16) : Except Panic (BitVec 64 × Machine) := do
  let virtual ← m.getFreeRegion desiredStart numPages
  let m ← mapPagesLoop flags numPages.toNat m virtual physicalStart
  pure (virtual, m)

/-! ## The search -/

/-- The address `i` pages behind another one. -/
def nthPage (start : BitVec 64) (i : Nat) : BitVec 64 := start + BitVec.ofNat 64 (4096 * i)

/-- `is_free` holds for `n` pages from an address on. -/
def FreeRun (m : Machine) (start : BitVec 64) (n : Nat) : Prop := ∀ i < n, m.isFree (nthPage start i)

/-- The first run of `n` free pages is `k` pages behind the start. -/
def FirstFreeRun (m : Machine) (start : BitVec 64) (n k : Nat) : Prop :=
  m.FreeRun (nthPage start k) n ∧ ∀ j < k, ¬m.FreeRun (nthPage start j) n

variable {m m' : Machine} {start : BitVec 64} {n i k : Nat}

@[simp] theorem nthPage_zero : nthPage start 0 = start := BitVec.add_zero start

theorem nthPage_add : nthPage (nthPage start i) k = nthPage start (i + k) := by
  rw [nthPage, nthPage, nthPage, BitVec.add_assoc, ← BitVec.ofNat_add, Nat.mul_add]

theorem nthPage_next : nthPage (start + pageSize) i = nthPage start (i + 1) := by
  have hone : start + pageSize = nthPage start 1 := rfl
  rw [hone, nthPage_add, Nat.add_comm]

theorem toNat_nthPage : (nthPage start i).toNat = (start.toNat + 4096 * i) % 2 ^ 64 := by
  rw [nthPage, BitVec.toNat_add, BitVec.toNat_ofNat, Nat.add_mod_mod]

theorem freeLoop_cases (m : Machine) (n : Nat) (start : BitVec 64) :
    (m.FreeRun start n ∧ m.freeLoop n start = none) ∨
      ∃ i < n, ¬m.isFree (nthPage start i) ∧ m.freeLoop n start = some (nthPage start (i + 1)) := by
  induction n generalizing start with
  | zero => exact .inl ⟨fun i hi => absurd hi (Nat.not_lt_zero i), rfl⟩
  | succ n ih =>
    rw [freeLoop]
    by_cases hfree : m.isFree start
    · rw [if_pos hfree]
      rcases ih (start + pageSize) with ⟨hrun, hnone⟩ | ⟨i, hi, hused, hsome⟩
      · refine .inl ⟨fun i hi => ?_, hnone⟩
        cases i with
        | zero =>
          rw [nthPage_zero]
          exact hfree
        | succ i =>
          rw [← nthPage_next]
          exact hrun i (Nat.lt_of_succ_lt_succ hi)
      · rw [nthPage_next] at hused hsome
        exact .inr ⟨i + 1, Nat.succ_lt_succ hi, hused, hsome⟩
    · rw [if_neg hfree]
      exact .inr ⟨0, Nat.succ_pos n, by rwa [nthPage_zero], rfl⟩

/-- A run that contains a page that is not free is not free. -/
theorem not_freeRun (hused : ¬m.isFree (nthPage start i)) (hk : k ≤ i) (hi : i < k + n) :
    ¬m.FreeRun (nthPage start k) n := by
  intro hrun
  have := hrun (i - k) (by omega)
  rw [nthPage_add, Nat.add_sub_of_le hk] at this
  exact hused this

/-- The search finds the first run. -/
theorem freeRegionLoop_ok (h : m.FirstFreeRun start n k) (hfuel : k < fuel) :
    m.freeRegionLoop n fuel start = .ok (nthPage start k) := by
  obtain ⟨hrun, hmin⟩ := h
  induction fuel generalizing start k with
  | zero => exact absurd hfuel (Nat.not_lt_zero k)
  | succ fuel ih =>
    rw [freeRegionLoop]
    rcases m.freeLoop_cases n start with ⟨hfirst, hnone⟩ | ⟨i, hi, hused, hsome⟩
    · obtain rfl : k = 0 := by
        by_contra hk
        exact hmin 0 (Nat.pos_of_ne_zero hk) (by rwa [nthPage_zero])
      rw [hnone, nthPage_zero]
    · have hlt : i < k := by
        by_contra hge
        exact not_freeRun hused (Nat.le_of_not_lt hge) (Nat.lt_add_left k hi) hrun
      obtain ⟨d, rfl⟩ : ∃ d, k = i + 1 + d := Nat.exists_eq_add_of_le hlt
      have hadd : nthPage start (i + 1 + d) = nthPage (nthPage start (i + 1)) d := nthPage_add.symm
      rw [hsome, hadd]
      rw [hadd] at hrun
      refine ih (by omega) hrun fun j hj => ?_
      rw [nthPage_add]
      exact hmin (i + 1 + j) (Nat.add_lt_add_left hj (i + 1))

/-- What the search finds is the first run. -/
theorem freeRegionLoop_first (h : m.freeRegionLoop n fuel start = .ok s) :
    ∃ k, s = nthPage start k ∧ m.FirstFreeRun start n k := by
  induction fuel generalizing start with
  | zero => cases h
  | succ fuel ih =>
    rw [freeRegionLoop] at h
    rcases m.freeLoop_cases n start with ⟨hfirst, hnone⟩ | ⟨i, hi, hused, hsome⟩
    · rw [hnone] at h
      cases h
      exact ⟨0, nthPage_zero.symm, by rwa [nthPage_zero], fun j hj => absurd hj (Nat.not_lt_zero j)⟩
    · rw [hsome] at h
      obtain ⟨k, rfl, hrun, hmin⟩ := ih h
      refine ⟨i + 1 + k, nthPage_add, by rwa [← nthPage_add], fun j hj => ?_⟩
      by_cases hle : j ≤ i
      · exact not_freeRun hused hle (Nat.lt_add_left j hi)
      · obtain ⟨d, rfl⟩ : ∃ d, j = i + 1 + d := Nat.exists_eq_add_of_le (Nat.lt_of_not_le hle)
        rw [← nthPage_add]
        exact hmin d (Nat.lt_of_add_lt_add_left hj)

/-- There are `2 ^ 52` pages, so that the first run starts within as many. -/
theorem FirstFreeRun.lt (h : m.FirstFreeRun start n k) : k < 2 ^ 52 := by
  by_contra hge
  refine h.2 (k - 2 ^ 52) (by omega) ?_
  have hsame : nthPage start (k - 2 ^ 52) = nthPage start k := by
    apply BitVec.eq_of_toNat_eq
    rw [toNat_nthPage, toNat_nthPage]
    omega
  rw [hsame]
  exact h.1

theorem getFreeRegion_eq_ok {numPages : BitVec 64} : m.getFreeRegion start numPages = .ok s ↔
    ∃ k, s = nthPage start k ∧ m.FirstFreeRun start numPages.toNat k := by
  refine ⟨freeRegionLoop_first, ?_⟩
  rintro ⟨k, rfl, h⟩
  have hlt := h.lt
  exact freeRegionLoop_ok h (by simp only [loopLimit]; omega)

/-! ## The mapping -/

variable {root : BitVec 40} {flags : BitVec 16}

/-- Fewer than `2 ^ 36` consecutive pages are different pages. -/
theorem pageNumber_nthPage_inj {j : Nat} (hi : i < 2 ^ 36) (hj : j < 2 ^ 36)
    (h : pageNumber (nthPage start i) = pageNumber (nthPage start j)) : i = j := by
  have h := congrArg BitVec.toNat h
  rw [toNat_pageNumber, toNat_pageNumber, toNat_nthPage, toNat_nthPage] at h
  omega

/-- A run of absent pages is mapped; otherwise the loop comes to a page that is present. -/
theorem mapPagesLoop_spec (h : m.TableInv root) (hsmall : m.SmallPages root)
    (hflags : FlagsOk flags) (hn : n < 2 ^ 36) (start physical : BitVec 64) :
    (mapPagesLoop flags n m start physical = .error .couldNotFindFreeEntry ∧
        m.allocator.pending.length < 3 * n) ∨
      ((∃ i < n, m.entryOn root (digits (nthPage start i)) ≠ none) ∧
        ∃ e, mapPagesLoop flags n m start physical = .error e) ∨
      ∃ m', mapPagesLoop flags n m start physical = .ok m' ∧ m'.SmallPages root ∧
        (∀ i < n, m.entryOn root (digits (nthPage start i)) = none) ∧
        (∀ i < n, m'.entryOn root (digits (nthPage start i)) =
          some (.setEntry (nthPage physical i) flags)) ∧
        ∀ q, q.length = 4 → (∀ i < n, q ≠ digits (nthPage start i)) →
          m'.entryOn root q = m.entryOn root q := by
  induction n generalizing m start physical with
  | zero =>
    refine .inr (.inr ⟨m, rfl, hsmall, ?_, ?_, fun _ _ _ => rfl⟩)
    · exact fun i hi => absurd hi (Nat.not_lt_zero i)
    · exact fun i hi => absurd hi (Nat.not_lt_zero i)
  | succ n ih =>
    have hother (i) (hi : i < n) : digits (nthPage start (i + 1)) ≠ digits start := by
      intro heq
      have hpage : pageNumber (nthPage start (i + 1)) = pageNumber (nthPage start 0) := by
        rw [nthPage_zero]
        exact digits_eq_iff.mp heq
      exact absurd (pageNumber_nthPage_inj (by omega) (by omega) hpage) (Nat.succ_ne_zero i)
    rw [mapPagesLoop]
    rcases h.mapPage start physical hflags with
      ⟨herr, hlen⟩ | ⟨herr, hmapped⟩ | ⟨m₁, hok, h₁, hnone, hnew, hadds, hsame, hlen⟩
    · rw [herr]
      exact .inl ⟨rfl, by omega⟩
    · rw [herr]
      exact .inr (.inl ⟨⟨0, Nat.succ_pos n, by rwa [nthPage_zero]⟩, _, rfl⟩)
    rw [hok]
    have hrest := ih h₁ (hsmall.adds hflags hadds) (by omega) (start + pageSize)
      (physical + pageSize)
    simp only [nthPage_next] at hrest
    rcases hrest with
      ⟨herr, hlen'⟩ | ⟨⟨i, hi, hmapped⟩, e, herr⟩ | ⟨m', hok', hsmall', hnone', hnew', hsame'⟩
    · exact .inl ⟨herr, by omega⟩
    · refine .inr (.inl ⟨⟨i + 1, Nat.succ_lt_succ hi, ?_⟩, e, herr⟩)
      rwa [hsame _ rfl (hother i hi)] at hmapped
    · refine .inr (.inr ⟨m', hok', hsmall', fun i hi => ?_, fun i hi => ?_, fun q hq hne => ?_⟩)
      · cases i with
        | zero =>
          rw [nthPage_zero]
          exact hnone
        | succ i =>
          have hi := Nat.lt_of_succ_lt_succ hi
          exact (hsame _ rfl (hother i hi)).symm.trans (hnone' i hi)
      · cases i with
        | zero =>
          rw [nthPage_zero, nthPage_zero, hsame' _ rfl fun i hi => (hother i hi).symm]
          exact hnew
        | succ i => exact hnew' i (Nat.lt_of_succ_lt_succ hi)
      · have hstart := hne 0 (Nat.succ_pos n)
        rw [nthPage_zero] at hstart
        rw [hsame' q hq fun i hi => hne (i + 1) (Nat.succ_lt_succ hi), hsame q hq hstart]

/-! ## Flags without the present bit -/

/-- Entries that have changed are not present. -/
def Fades (m m' : Machine) : Prop := ∀ a, m'.mem a = m.mem a ∨ (m'.mem a).present = 0

theorem Fades.refl (m : Machine) : m.Fades m := fun _ => .inl rfl

theorem Fades.trans (h : m.Fades m') (h' : m'.Fades m'') : m.Fades m'' := by
  intro a
  rcases h' a with heq | hzero
  · rw [heq]
    exact h a
  · exact .inr hzero

theorem Fades.zeroPage (m : Machine) (ptr : BitVec 64) : m.Fades (m.zeroPage ptr) := by
  intro a
  rw [Machine.zeroPage]
  dsimp only
  split
  · exact .inr rfl
  · exact .inl rfl

theorem Fades.setPages (he : e.present = 0) (table : BitVec 64) (i : Fin 512) :
    m.Fades (m.setPages table i e) := by
  intro a
  rw [Machine.setPages]
  dsimp only
  split
  · exact .inr he
  · exact .inl rfl

theorem Fades.allocateFrame {m : Machine} (h : Lethe.allocateFrame m = .ok (f, m')) :
    m.Fades m' := by
  rw [Lethe.allocateFrame] at h
  split at h
  · cases h
    exact .refl _
  dsimp only at h
  split at h
  · split at h
    · cases h
    · rename_i allocator hok
      have hdec := nextUsable_countP hok
      exact Fades.allocateFrame (m := { m with allocator }) h
  · cases h
    exact Fades.zeroPage _ _
termination_by m.allocator.memoryMap.countP (·.usable)

theorem setEntry_absent (hflags : flags &&& 0x1 ≠ 1) (f : BitVec 64) :
    (PageEntry.setEntry f flags).present = 0 := by
  have hbit : (flags &&& 0x1).setWidth 1 = BitVec.ofBool (flags.getLsbD 0) := by
    ext i hi
    obtain rfl : i = 0 := by omega
    simp
  rw [PageEntry.setEntry, hbit]
  cases hpresent : flags.getLsbD 0 with
  | false => rfl
  | true =>
    refine absurd ?_ hflags
    ext i hi
    by_cases hi0 : i = 0
    · subst hi0
      simpa using hpresent
    · simp [hi0]

theorem Fades.nextTable {i : Fin 512} (hflags : flags &&& 0x1 ≠ 1)
    (h : m.nextTable table i flags = .ok (p, m')) : m.Fades m' := by
  rw [Machine.nextTable] at h
  split at h
  · obtain ⟨m₁, hstep, hok⟩ := bind_eq_ok.mp h
    cases hok
    obtain ⟨⟨address, m₂⟩, halloc, hset⟩ := bind_eq_ok.mp hstep
    dsimp only at hset
    split at hset
    · cases hset
    · cases hset
      exact (Fades.allocateFrame halloc).trans (.setPages (setEntry_absent hflags address) table i)
  · cases h
    exact .refl _

theorem Fades.mapPage (hflags : flags &&& 0x1 ≠ 1)
    (h : m.mapPage page frame flags = .ok m') : m.Fades m' := by
  rw [Machine.mapPage] at h
  obtain ⟨⟨p3, m₁⟩, h₁, h⟩ := bind_eq_ok.mp h
  obtain ⟨⟨p2, m₂⟩, h₂, h⟩ := bind_eq_ok.mp h
  obtain ⟨⟨p1, m₃⟩, h₃, h⟩ := bind_eq_ok.mp h
  have htables := ((Fades.nextTable hflags h₁).trans (.nextTable hflags h₂)).trans
    (.nextTable hflags h₃)
  dsimp only at h
  split at h
  · cases h
  · cases h
    exact htables.trans (.setPages (setEntry_absent hflags frame) p1 _)

theorem Fades.mapPagesLoop (hflags : flags &&& 0x1 ≠ 1)
    (h : mapPagesLoop flags n m start physical = .ok m') : m.Fades m' := by
  induction n generalizing m start physical with
  | zero =>
    cases h
    exact .refl _
  | succ n ih =>
    rw [Machine.mapPagesLoop] at h
    obtain ⟨m₁, hpage, h⟩ := bind_eq_ok.mp h
    exact (Fades.mapPage hflags hpage).trans (ih h)

/-- An address that was not mapped is not mapped. -/
theorem Fades.missing (h : m.Fades m') (hwalk : m.hardwareWalk root v = .missing) :
    m'.hardwareWalk root v = .missing := by
  have hentry (n : BitVec 40) (i) : m'.entry n i = m.entry n i ∨ (m'.entry n i).present = 0 := h _
  simp only [hardwareWalk] at hwalk ⊢
  rcases hentry root (p4Index v) with heq | hzero
  · rw [heq]
    by_cases h4 : (m.entry root (p4Index v)).present = 0 ∨ (m.entry root (p4Index v)).pageSize = 1
    · rw [if_pos h4]
    rw [if_neg h4] at hwalk ⊢
    generalize (m.entry root (p4Index v)).address = p3 at hwalk ⊢
    rcases hentry p3 (p3Index v) with heq | hzero
    · rw [heq]
      by_cases h3 : (m.entry p3 (p3Index v)).present = 0
      · rw [if_pos h3]
      rw [if_neg h3] at hwalk ⊢
      split
      · rename_i hlarge
        rwa [if_pos hlarge] at hwalk
      rename_i hlarge
      rw [if_neg hlarge] at hwalk
      generalize (m.entry p3 (p3Index v)).address = p2 at hwalk ⊢
      rcases hentry p2 (p2Index v) with heq | hzero
      · rw [heq]
        by_cases h2 : (m.entry p2 (p2Index v)).present = 0
        · rw [if_pos h2]
        rw [if_neg h2] at hwalk ⊢
        split
        · rename_i hlarge
          rwa [if_pos hlarge] at hwalk
        rename_i hlarge
        rw [if_neg hlarge] at hwalk
        generalize (m.entry p2 (p2Index v)).address = p1 at hwalk ⊢
        rcases hentry p1 (p1Index v) with heq | hzero
        · rwa [heq]
        · rw [if_pos hzero]
      · rw [if_pos hzero]
    · rw [if_pos hzero]
  · rw [if_pos (.inl hzero)]

/-! ## The call -/

/-- The `n` pages from an aligned address on were absent in `m`, are mapped to the frames from
`physical` on in `m'`, and no other page has changed. -/
structure MapsRun (m m' : Machine) (root : BitVec 40) (start physical : BitVec 64) (n : Nat) :
    Prop where
  aligned : start.toNat % 4096 = 0
  end_le : start.toNat + 4096 * n ≤ 2 ^ 64
  absent : ∀ i < n, m.hardwareWalk root (nthPage start i) = .missing
  mapped : ∀ i < n,
    (m'.hardwareWalk root (nthPage start i)).frame.map frameAddr = some (nthPage physical i)
  other : ∀ v, (∀ i < n, pageNumber v ≠ pageNumber (nthPage start i)) →
    m'.hardwareWalk root v = m.hardwareWalk root v

/-- The start is aligned, the flags have the present bit and the frames are addresses of 52 bits;
the first run of pages that `is_free` takes for free is not behind the end of the address space,
and none of its pages is present. -/
structure RunOk (m : Machine) (root : BitVec 40) (start physical : BitVec 64) (n : Nat)
    (flags : BitVec 16) : Prop where
  aligned : start.toNat % 4096 = 0
  present : flags &&& 0x1 = 1
  frames : ∀ i < n, (nthPage physical i).toNat < 2 ^ 52
  run : ∃ k, m.FirstFreeRun start n k ∧ start.toNat + 4096 * (k + n) ≤ 2 ^ 64 ∧
    ∀ i < n, m.hardwareWalk root (nthPage start (k + i)) = .missing

theorem frameAddr_setEntry (hal : f.toNat % 4096 = 0) :
    frameAddr (PageEntry.setEntry f flags).address = f ↔ f.toNat < 2 ^ 52 := by
  have haddr : (PageEntry.setEntry f flags).address = frameNumber f := rfl
  rw [haddr]
  constructor
  · intro heq
    have hlt := (frameNumber f).isLt
    rw [← heq, toNat_frameAddr]
    omega
  · exact frameAddr_frameNumber hal

theorem nthPage_aligned : (nthPage start i).toNat % 4096 = start.toNat % 4096 := by
  rw [toNat_nthPage]
  omega

theorem mapContiguousPages_eq_ok {desired numPages : BitVec 64} :
    m.mapContiguousPages desired physical numPages flags = .ok (s, m') ↔
      ∃ k, s = nthPage desired k ∧ m.FirstFreeRun desired numPages.toNat k ∧
        mapPagesLoop flags numPages.toNat m s physical = .ok m' := by
  rw [mapContiguousPages]
  constructor
  · intro h
    obtain ⟨s', hregion, h⟩ := bind_eq_ok.mp h
    obtain ⟨m₁, hloop, h⟩ := bind_eq_ok.mp h
    cases h
    obtain ⟨k, hs, hrun⟩ := getFreeRegion_eq_ok.mp hregion
    exact ⟨k, hs, hrun, hloop⟩
  · rintro ⟨k, hs, hrun, hloop⟩
    rw [getFreeRegion_eq_ok.mpr ⟨k, hs, hrun⟩]
    exact bind_eq_ok.mpr ⟨s, rfl, bind_eq_ok.mpr ⟨m', hloop, rfl⟩⟩

section
variable {root : BitVec 40} {desiredStart physicalStart numPages : BitVec 64} {flags : BitVec 16}
  (h : m.TableInv root) (hsmall : m.SmallPages root) (hflags : flags &&& 0x40 = 0)
  (hphysical : physicalStart.toNat % 4096 = 0) (hpos : 1 ≤ numPages.toNat)
  (hlt : numPages.toNat < 2 ^ 31)
include h hsmall hflags hphysical hpos hlt

/-- A run of pages can only be mapped so from a state as in `RunOk`. -/
theorem MapsRun.runOk
    (hok : m.mapContiguousPages desiredStart physicalStart numPages flags = .ok (s, m'))
    (hle : desiredStart ≤ s) (hmaps : m.MapsRun m' root s physicalStart numPages.toNat) :
    m.RunOk root desiredStart physicalStart numPages.toNat flags := by
  have hn : numPages.toNat < 2 ^ 36 := by omega
  obtain ⟨k, rfl, hrun, hloop⟩ := mapContiguousPages_eq_ok.mp hok
  have hk := hrun.lt
  have hle : desiredStart.toNat ≤ (nthPage desiredStart k).toNat := hle
  have hend := hmaps.end_le
  have hal := hmaps.aligned
  rw [nthPage_aligned] at hal
  rw [toNat_nthPage] at hle hend
  have hpresent : flags &&& 0x1 = 1 := by
    by_contra habsent
    have hmissing := (Fades.mapPagesLoop habsent hloop).missing (hmaps.absent 0 hpos)
    have hmapped := hmaps.mapped 0 hpos
    rw [hmissing] at hmapped
    cases hmapped
  refine ⟨hal, hpresent, fun i hi => ?_, k, hrun, by omega, fun i hi => ?_⟩
  · rcases mapPagesLoop_spec h hsmall ⟨hpresent, hflags⟩ hn (nthPage desiredStart k)
        physicalStart with ⟨herr, -⟩ | ⟨-, e, herr⟩ | ⟨m₁, hok₁, hsmall₁, -, hnew, -⟩
    · cases herr.symm.trans hloop
    · cases herr.symm.trans hloop
    · cases hok₁.symm.trans hloop
      have hmapped := hmaps.mapped i hi
      rw [hsmall₁.hardwareWalk_eq, hnew i hi] at hmapped
      refine (frameAddr_setEntry ?_).mp (Option.some.inj hmapped)
      rw [nthPage_aligned, hphysical]
  · rw [← nthPage_add]
    exact hmaps.absent i hi

/-- In such a state the first run that is free is mapped. -/
theorem RunOk.mapsRun
    (hframes : m.mapContiguousPages desiredStart physicalStart numPages flags ≠
      .error .couldNotFindFreeEntry)
    (hrunOk : m.RunOk root desiredStart physicalStart numPages.toNat flags) :
    ∃ s m', m.mapContiguousPages desiredStart physicalStart numPages flags = .ok (s, m') ∧
      desiredStart ≤ s ∧ m.MapsRun m' root s physicalStart numPages.toNat := by
  obtain ⟨hal, hpresent, hframe, k, hrun, hend, habsent⟩ := hrunOk
  have hn : numPages.toNat < 2 ^ 36 := by omega
  have hstart : (nthPage desiredStart k).toNat = desiredStart.toNat + 4096 * k := by
    rw [toNat_nthPage]
    omega
  rcases mapPagesLoop_spec h hsmall ⟨hpresent, hflags⟩ hn (nthPage desiredStart k)
      physicalStart with ⟨herr, -⟩ | ⟨⟨i, hi, hmapped⟩, -⟩ | ⟨m', hok, hsmall', -, hnew, hsame⟩
  · refine absurd ?_ hframes
    rw [mapContiguousPages, getFreeRegion_eq_ok.mpr ⟨k, rfl, hrun⟩]
    simp only [bind, Except.bind, herr]
  · refine absurd ?_ hmapped
    rw [nthPage_add]
    exact hsmall.missing_iff.mp (habsent i hi)
  · refine ⟨_, m', mapContiguousPages_eq_ok.mpr ⟨k, rfl, hrun, hok⟩, ?_, ?_, ?_, fun i hi => ?_,
      fun i hi => ?_, fun v hv => ?_⟩
    · rw [BitVec.le_def, hstart]
      omega
    · rw [nthPage_aligned, hal]
    · rw [hstart]
      omega
    · rw [nthPage_add]
      exact habsent i hi
    · rw [hsmall'.hardwareWalk_eq, hnew i hi]
      refine congrArg some ((frameAddr_setEntry ?_).mpr (hframe i hi))
      rw [nthPage_aligned, hphysical]
    · rw [hsmall'.hardwareWalk_eq, hsmall.hardwareWalk_eq,
        hsame _ rfl fun i hi => mt digits_eq_iff.mp (hv i hi)]

end

/-- A call of `map_contiguous_pages` that does not run out of frames returns an aligned run of pages
that were absent, not below the desired start, and maps it and nothing else, if and only if the
state is as in `RunOk`. -/
theorem mapContiguousPages_iff (m : Machine) (root : BitVec 40)
    (desiredStart physicalStart numPages : BitVec 64) (flags : BitVec 16)
    (h : m.TableInv root) (hsmall : m.SmallPages root) (hflags : flags &&& 0x40 = 0)
    (hphysical : physicalStart.toNat % 4096 = 0) (hpos : 1 ≤ numPages.toNat)
    (hlt : numPages.toNat < 2 ^ 31)
    (hframes : m.mapContiguousPages desiredStart physicalStart numPages flags ≠
      .error .couldNotFindFreeEntry) :
    (∃ s m', m.mapContiguousPages desiredStart physicalStart numPages flags = .ok (s, m') ∧
        desiredStart ≤ s ∧ m.MapsRun m' root s physicalStart numPages.toNat) ↔
      m.RunOk root desiredStart physicalStart numPages.toNat flags := by
  constructor
  · rintro ⟨s, m', hok, hle, hmaps⟩
    exact hmaps.runOk h hsmall hflags hphysical hpos hlt hok hle
  · exact RunOk.mapsRun h hsmall hflags hphysical hpos hlt hframes

theorem hardwareWalk_emptyTables (v : BitVec 64) : emptyTables.hardwareWalk 1 v = .missing := by
  rw [hardwareWalk]
  exact if_pos (Or.inl rfl)

theorem smallPages_emptyTables : emptyTables.SmallPages 1 := by
  intro q e _ he
  rw [emptyRoot_emptyTables.entryOn] at he
  cases he

/-- Four frames are enough for one page. -/
theorem mapPagesLoop_emptyTables (start : BitVec 64) :
    ∃ m', mapPagesLoop 3 1 emptyTables start 0x5000 = .ok m' := by
  have hflags : FlagsOk 3 := ⟨by decide, by decide⟩
  rcases mapPagesLoop_spec (n := 1) emptyRoot_emptyTables.tableInv smallPages_emptyTables hflags
      (by decide) start 0x5000 with
    ⟨-, hlen⟩ | ⟨⟨i, -, hmapped⟩, -⟩ | ⟨m', hok, -⟩
  · exact absurd hlen (by decide)
  · exact absurd (emptyRoot_emptyTables.entryOn _) hmapped
  · exact ⟨m', hok⟩

/-- The page at `0x401000` is mapped, and no other one. -/
def occupiedTables : Machine := (emptyTables.mapPage 0x401000 0x5000 3).toOption.getD emptyTables

theorem occupiedTables_inv : occupiedTables.TableInv 1 ∧ occupiedTables.SmallPages 1 := by
  have hflags : FlagsOk 3 := ⟨by decide, by decide⟩
  have hinv := emptyRoot_emptyTables.tableInv
  rw [occupiedTables]
  rcases hinv.mapPage 0x401000 0x5000 hflags with
    ⟨herr, -⟩ | ⟨herr, -⟩ | ⟨m', hok, h', -, -, hadds, -⟩
  · rw [herr]
    exact ⟨hinv, smallPages_emptyTables⟩
  · rw [herr]
    exact ⟨hinv, smallPages_emptyTables⟩
  · rw [hok]
    exact ⟨h', smallPages_emptyTables.adds hflags hadds⟩

/-- The first three pages in a row that are free from `0x400000` on are those behind the one that is
mapped. -/
theorem mapContiguousPages_aligned : occupiedTables.hardwareWalk 1 0x401000 = .page 5 ∧ ∃ s m',
    occupiedTables.mapContiguousPages 0x400000 0x8000 3 3 = .ok (s, m') ∧ 0x400000 ≤ s ∧
      occupiedTables.MapsRun m' 1 s 0x8000 3 := by
  have hframes : occupiedTables.mapContiguousPages 0x400000 0x8000 3 3 ≠
      .error .couldNotFindFreeEntry := by
    intro herr
    have hok : (match occupiedTables.mapContiguousPages 0x400000 0x8000 3 3 with
        | .ok _ => true
        | .error _ => false) = true := by decide +kernel
    rw [herr] at hok
    cases hok
  have hfree : ∀ i < 3, occupiedTables.isFree (nthPage (nthPage 0x400000 2) i) = true := by
    decide +kernel
  have htaken : occupiedTables.isFree (nthPage (nthPage 0x400000 0) 1) = false ∧
      occupiedTables.isFree (nthPage (nthPage 0x400000 1) 0) = false := by decide +kernel
  have hrun : occupiedTables.FirstFreeRun 0x400000 3 2 := by
    refine ⟨hfree, fun k hk hall => ?_⟩
    obtain rfl | rfl : k = 0 ∨ k = 1 := by omega
    · exact Bool.false_ne_true (htaken.1.symm.trans (hall 1 (by decide)))
    · exact Bool.false_ne_true (htaken.2.symm.trans (hall 0 (by decide)))
  have habsent : ∀ i < 3, occupiedTables.hardwareWalk 1 (nthPage 0x400000 (2 + i)) = .missing := by
    decide +kernel
  refine ⟨by decide +kernel, ?_⟩
  exact (mapContiguousPages_iff occupiedTables 1 0x400000 0x8000 3 3 occupiedTables_inv.1
    occupiedTables_inv.2 (by decide) (by decide) (by decide) (by decide) hframes).mpr
    ⟨by decide, by decide, by decide, 2, hrun, by decide, habsent⟩

/-- With a desired start that is not aligned the address that is returned is not aligned. -/
theorem mapContiguousPages_unaligned :
    emptyTables.TableInv 1 ∧ emptyTables.SmallPages 1 ∧
      (∀ v, emptyTables.hardwareWalk 1 v = .missing) ∧
      ∃ m', emptyTables.mapContiguousPages 0x400001 0x5000 1 3 = .ok (0x400001, m') ∧
        ¬emptyTables.MapsRun m' 1 0x400001 0x5000 1 := by
  obtain ⟨m', hloop⟩ := mapPagesLoop_emptyTables 0x400001
  have hrun : emptyTables.FirstFreeRun 0x400001 1 0 := by
    refine ⟨fun i hi => ?_, fun j hj => absurd hj (Nat.not_lt_zero j)⟩
    obtain rfl : i = 0 := by omega
    decide
  refine ⟨emptyRoot_emptyTables.tableInv, smallPages_emptyTables, hardwareWalk_emptyTables, m',
    mapContiguousPages_eq_ok.mpr ⟨0, nthPage_zero.symm, hrun, hloop⟩, fun hmaps => ?_⟩
  exact absurd hmaps.aligned (by decide)

end Machine

end Lethe
