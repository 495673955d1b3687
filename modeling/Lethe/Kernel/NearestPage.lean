import Lethe.Kernel.ContiguousPages
import Mathlib.Data.Nat.Find

/-!
# The nearest page of `memory/paging.c`

`map_page_nearest` goes from a page to the next one until `virtual_to_physical` is 0. On a tree of
tables that is the test that `map_page` makes, and there are `2 ^ 36` pages to go through:
`mapPageNearest_first` says that the first page that is not mapped is found and mapped.
-/

namespace Lethe

namespace Machine

/-- The loop of `map_page_nearest`. -/
def nearestLoop (m : Machine) : Nat → BitVec 64 → Except Panic (BitVec 64)
  | 0, _ => .error .doesNotReturn
  | fuel + 1, virtualAddr =>
    if m.virtualToPhysical virtualAddr ≠ 0 then m.nearestLoop fuel (virtualAddr + 0x1000)
    else .ok virtualAddr

/-- Where the search of `map_page_nearest` starts. -/
def nearestStart (m : Machine) (desiredPage : BitVec 64) : BitVec 64 :=
  if desiredPage = m.hhdmMapping ∨ desiredPage = 0 then desiredPage + 0x1000 else desiredPage

/-- `map_page_nearest`. -/
def mapPageNearest (m : Machine) (desiredPage frame : BitVec 64) (flags : BitVec 16) :
    Except Panic (BitVec 64 × Machine) := do
  let virtualAddr ← m.nearestLoop loopLimit (m.nearestStart desiredPage)
  let m ← m.mapPage virtualAddr frame flags
  pure (virtualAddr, m)

/-- The first page that translates to 0 is `k` pages behind the start. -/
def FirstUnmapped (m : Machine) (start : BitVec 64) (k : Nat) : Prop :=
  m.virtualToPhysical (nthPage start k) = 0 ∧
    ∀ j < k, m.virtualToPhysical (nthPage start j) ≠ 0

variable {m : Machine} {root : BitVec 40} {start v : BitVec 64} {k fuel : Nat}

theorem nearestLoop_ok (h : m.FirstUnmapped start k) (hfuel : k < fuel) :
    m.nearestLoop fuel start = .ok (nthPage start k) := by
  obtain ⟨hfree, hmin⟩ := h
  induction fuel generalizing start k with
  | zero => exact absurd hfuel (Nat.not_lt_zero k)
  | succ fuel ih =>
    rw [nearestLoop]
    cases k with
    | zero =>
      rw [nthPage_zero] at hfree ⊢
      rw [if_neg (not_not.mpr hfree)]
    | succ k =>
      have hmapped := hmin 0 (Nat.succ_pos k)
      rw [nthPage_zero] at hmapped
      have hnext (j : Nat) : nthPage (start + 0x1000) j = nthPage start (j + 1) := nthPage_next
      rw [if_pos hmapped, ← hnext]
      refine ih (Nat.lt_of_succ_lt_succ hfuel) (by rwa [hnext]) fun j hj => ?_
      rw [hnext]
      exact hmin (j + 1) (Nat.succ_lt_succ hj)

/-- The pages from any address on are all pages. -/
theorem exists_nthPage (start v : BitVec 64) :
    ∃ k < 2 ^ 36, pageNumber (nthPage start k) = pageNumber v := by
  have hlt := start.isLt
  have hlt' := v.isLt
  refine ⟨(v.toNat / 4096 + 2 ^ 52 - start.toNat / 4096) % 2 ^ 36, by omega, ?_⟩
  apply BitVec.eq_of_toNat_eq
  rw [toNat_pageNumber, toNat_pageNumber, toNat_nthPage]
  omega

/-- If a page is not mapped, the search comes to one. -/
theorem exists_firstUnmapped (h : m.pageTable = frameAddr root + m.hhdmMapping)
    (hv : m.virtualToPhysical v = 0) (start : BitVec 64) :
    ∃ k < 2 ^ 36, m.FirstUnmapped start k := by
  obtain ⟨n, hn, hpage⟩ := exists_nthPage start v
  have hfree : m.virtualToPhysical (nthPage start n) = 0 := by
    rw [virtualToPhysical_eq h, digits_eq_iff.mpr hpage, ← virtualToPhysical_eq h, hv]
  have hex : ∃ k, m.virtualToPhysical (nthPage start k) = 0 := ⟨n, hfree⟩
  exact ⟨Nat.find hex, Nat.lt_of_le_of_lt (Nat.find_min' hex hfree) hn, Nat.find_spec hex,
    fun j hj => Nat.find_min hex hj⟩

theorem mapPageNearest_eq (h : m.FirstUnmapped (m.nearestStart desiredPage) k) (hk : k < 2 ^ 36)
    (frame : BitVec 64) (flags : BitVec 16) : m.mapPageNearest desiredPage frame flags =
      (m.mapPage (nthPage (m.nearestStart desiredPage) k) frame flags).map
        fun m' => (nthPage (m.nearestStart desiredPage) k, m') := by
  have hlt : k < loopLimit := Nat.lt_trans hk (by decide)
  rw [mapPageNearest, nearestLoop_ok h hlt, ok_bind]
  rfl

/-- If a page is not mapped and the frames do not run out, `map_page_nearest` returns. It maps the
first page that is not mapped, from the desired one on, or from the one behind it if that is page 0
or `hhdm_mapping`; no other translation changes. -/
theorem mapPageNearest_first (m : Machine) (root : BitVec 40) (desiredPage frame : BitVec 64)
    (flags : BitVec 16) (h : m.TreeInv root) (hfree : ∃ v, m.virtualToPhysical v = 0)
    (hframe : FrameOk frame) (hflags : FlagsOk flags)
    (hframes : m.mapPageNearest desiredPage frame flags ≠ .error .couldNotFindFreeEntry) :
    ∃ start k page m',
      start = (if desiredPage = 0 ∨ desiredPage = m.hhdmMapping then desiredPage + 4096
        else desiredPage) ∧
      page = start + BitVec.ofNat 64 (4096 * k) ∧ m.virtualToPhysical page = 0 ∧
      (∀ j < k, m.virtualToPhysical (start + BitVec.ofNat 64 (4096 * j)) ≠ 0) ∧
      m.mapPageNearest desiredPage frame flags = .ok (page, m') ∧ m'.TreeInv root ∧
      m'.virtualToPhysical page = frame ∧
      ∀ v, pageNumber v ≠ pageNumber page → m'.virtualToPhysical v = m.virtualToPhysical v := by
  obtain ⟨v, hv⟩ := hfree
  obtain ⟨k, hk, hfirst⟩ := exists_firstUnmapped h.pageTable_eq hv (m.nearestStart desiredPage)
  have hcall := mapPageNearest_eq hfirst hk frame flags
  rcases h.mapPage (nthPage (m.nearestStart desiredPage) k) hframe hflags with
    ⟨herr, -⟩ | ⟨-, hmapped⟩ | ⟨m', hok, -⟩
  · exact absurd (by rw [hcall, herr]; rfl) hframes
  · exact absurd (h.follow_eq_none hfirst.1) hmapped
  · obtain ⟨h', -, htrans⟩ := h.mapPage_ok hframe hflags hok
    refine ⟨m.nearestStart desiredPage, k, _, m', ?_, rfl, hfirst.1, hfirst.2,
      by rw [hcall, hok]; rfl, h', ?_, fun v hne => ?_⟩
    · exact if_congr or_comm rfl rfl
    · exact (htrans _).trans (if_pos rfl)
    · exact (htrans v).trans (if_neg hne)

/-- Page 0 is asked for, and the next one is mapped already. -/
theorem mapPageNearest_first_occupied : ∃ m₁ m',
    emptyTables.mapPage 0x1000 0x5000 3 = .ok m₁ ∧
      m₁.mapPageNearest 0 0x6000 3 = .ok (0x2000, m') ∧ m'.virtualToPhysical 0x2000 = 0x6000 ∧
      m'.virtualToPhysical 0x1000 = 0x5000 := by
  have hflags : FlagsOk 3 := ⟨by decide, by decide⟩
  have hrun : ((emptyTables.mapPage 0x1000 0x5000 3).bind fun m₁ =>
      (m₁.mapPageNearest 0 0x6000 3).map Prod.fst) = .ok 0x2000 := by decide +kernel
  cases hok : emptyTables.mapPage 0x1000 0x5000 3 with
  | error e =>
    rw [hok] at hrun
    cases hrun
  | ok m₁ =>
    rw [hok] at hrun
    obtain ⟨⟨_, m₂⟩, hcall, rfl⟩ := map_eq_ok.mp hrun
    obtain ⟨h₁, hfree, htrans⟩ := treeInv_emptyTables.mapPage_ok ⟨by decide, by decide, by decide⟩
      hflags hok
    have hunmapped : m₁.virtualToPhysical 0x2000 = 0 := by
      rw [htrans, if_neg (by decide)]
      decide
    have hframe : FrameOk 0x6000 := ⟨by decide, by decide, by decide⟩
    obtain ⟨_, _, page, m', -, -, -, -, hcall', -, hpage, hother⟩ :=
      mapPageNearest_first m₁ 1 0 0x6000 3 h₁ ⟨0x2000, hunmapped⟩ hframe hflags
        (fun herr => by cases hcall.symm.trans herr)
    obtain ⟨rfl, rfl⟩ := Prod.mk.inj (Except.ok.inj (hcall.symm.trans hcall'))
    have hold : m₂.virtualToPhysical 0x1000 = m₁.virtualToPhysical 0x1000 :=
      hother 0x1000 (by decide)
    exact ⟨m₁, m₂, rfl, hcall, hpage, hold.trans ((htrans 0x1000).trans (if_pos rfl))⟩

end Machine

end Lethe
