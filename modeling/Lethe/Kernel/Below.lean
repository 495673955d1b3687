import Lethe.Kernel.SmallPages
import Lethe.Lib.Wp

/-!
# The tables below one entry of the top-level table

`m.below root j` is the machine `m` with all entries of the top-level table but one taken for
empty. For the pages below this entry `map_page` and the walk of the processor do the same on both
machines, so that nothing has to be known of the other tables.
-/

namespace Lethe

namespace Machine

/-- The slots of the top-level table other than `j`. -/
def OtherSlot (root : BitVec 40) (j : Fin 512) (a : BitVec 64) : Prop :=
  a - frameAddr root < Lethe.pageSize ∧ a ≠ frameAddr root + BitVec.ofNat 64 (8 * j.val)

instance : Decidable (OtherSlot root j a) := inferInstanceAs (Decidable (_ ∧ _))

/-- The tables below the entry `j` of the top-level table. -/
def below (m : Machine) (root : BitVec 40) (j : Fin 512) : Machine :=
  { m with mem := fun a => if OtherSlot root j a then .zero else m.mem a }

variable {m : Machine} {root : BitVec 40} {j : Fin 512}

theorem otherSlot_iff : OtherSlot root j (frameAddr n + BitVec.ofNat 64 (8 * i.val)) ↔
    n = root ∧ i ≠ j := by
  rw [OtherSlot, entrySlot_lt_pageSize]
  refine and_congr_right fun hn => not_congr ?_
  rw [entrySlot_inj]
  exact and_iff_right hn

theorem entry_below (m : Machine) (h : n = root → i = j) :
    (m.below root j).entry n i = m.entry n i := by
  refine if_neg fun hslot => ?_
  obtain ⟨hn, hi⟩ := otherSlot_iff.mp hslot
  exact hi (h hn)

theorem below_zeroPage (m : Machine) (ptr : BitVec 64) :
    (m.zeroPage ptr).below root j = (m.below root j).zeroPage ptr := by
  have hmem (a : BitVec 64) : ((m.zeroPage ptr).below root j).mem a =
      ((m.below root j).zeroPage ptr).mem a := by
    simp only [below, zeroPage, phys]
    split
    · rw [ite_self]
    · rfl
  exact congrArg (fun mem => { m with mem }) (funext hmem)

theorem below_setPages (m : Machine) (h : n = root → i = j) (e : PageEntry) :
    (m.setPages (frameAddr n + m.hhdmMapping) i e).below root j =
      (m.below root j).setPages (frameAddr n + m.hhdmMapping) i e := by
  have hmem (a : BitVec 64) : ((m.setPages (frameAddr n + m.hhdmMapping) i e).below root j).mem a =
      ((m.below root j).setPages (frameAddr n + m.hhdmMapping) i e).mem a := by
    simp only [below, setPages, entryAddr, phys, BitVec.add_sub_cancel]
    by_cases hslot : OtherSlot root j a
    · have hne : a ≠ frameAddr n + BitVec.ofNat 64 (8 * i.val) := by
        rintro rfl
        obtain ⟨hn, hi⟩ := otherSlot_iff.mp hslot
        exact hi (h hn)
      rw [if_pos hslot, if_neg hne, if_pos hslot]
    · rw [if_neg hslot, if_neg hslot]
  exact congrArg (fun mem => { m with mem }) (funext hmem)

/-- `allocate_frame` does not look at the tables. -/
theorem allocateFrame_below (m : Machine) : allocateFrame (m.below root j) =
    (allocateFrame m).map (Prod.map id (·.below root j)) := by
  rw [allocateFrame, allocateFrame]
  have hallocator : (m.below root j).allocator = m.allocator := rfl
  rw [hallocator]
  by_cases hstart : m.allocator.next.start
  · rw [if_pos hstart, if_pos hstart]
    rfl
  rw [if_neg hstart, if_neg hstart]
  by_cases hlen : m.allocator.next.skipZero.length < 4096
  · simp only [hlen, if_true]
    split
    · rename_i herr
      rfl
    · rename_i allocator hok
      have hdec := nextUsable_countP hok
      exact allocateFrame_below { m with allocator }
  · simp only [hlen, if_false, Except.map, Prod.map, below_zeroPage]
    rfl
termination_by m.allocator.memoryMap.countP (·.usable)

theorem nextTable_below (ha : m.allocator.Inv) (h : n = root → i = j) (flags : BitVec 16) :
    (m.below root j).nextTable (frameAddr n + m.hhdmMapping) i flags =
      (m.nextTable (frameAddr n + m.hhdmMapping) i flags).map (Prod.map id (·.below root j)) := by
  have hpages (m' : Machine) (hm' : m'.hhdmMapping = m.hhdmMapping) :
      (m'.below root j).pages (frameAddr n + m.hhdmMapping) i =
        m'.pages (frameAddr n + m.hhdmMapping) i := by
    rw [← hm', pages_frame m', ← entry_below m' h]
    exact pages_frame (m'.below root j) n i
  rw [nextTable, nextTable, hpages m rfl]
  by_cases hpresent : (m.pages (frameAddr n + m.hhdmMapping) i).present = 0
  · rw [if_pos hpresent, if_pos hpresent, allocateEntry, allocateEntry, allocateFrame_below]
    rcases allocateFrame_spec ha with ⟨-, herr⟩ | ⟨f, a, halloc, -, -⟩
    · rw [herr]
      rfl
    · rw [halloc]
      simp only [Except.map, Prod.map, id, bind, Except.bind]
      by_cases hf : f = 0
      · rw [if_pos hf, if_pos hf]
        rfl
      · rw [if_neg hf, if_neg hf]
        simp only [pure, Except.pure]
        generalize hm₁ : { m with allocator := a }.zeroPage (f + m.hhdmMapping) = m₁
        have hhdm : m₁.hhdmMapping = m.hhdmMapping := by
          rw [← hm₁]
          rfl
        have hset := below_setPages m₁ h (.setEntry f flags)
        rw [hhdm] at hset
        rw [← hset, hpages (m₁.setPages _ i _) hhdm]
        rfl
  · rw [if_neg hpresent, if_neg hpresent]
    simp only [pure, Except.pure, bind, Except.bind, Except.map, Prod.map, id, hpages m rfl]
    rfl

/-- The path to a page below the entry avoids the slots that are left out. -/
theorem slot_of_table (h : (m.below root j).TableInv root) (hp : p.length ≤ 3)
    (hn : (m.below root j).tableOn root p = some n) (hpre : p ++ [i] <+: digits page)
    (hj : p4Index page = j) : n = root → i = j := by
  rintro rfl
  obtain rfl : p = [] := h.distinct hp (Nat.zero_le 3) hn rfl
  rw [← hj]
  obtain ⟨r, hr⟩ := hpre
  exact (List.cons.inj hr).1

/-- A step of `map_page` to the next table, on both machines. -/
theorem nextTable_both (h : (m.below root j).TableInv root) (hp : p.length < 3)
    (hn : (m.below root j).tableOn root p = some n) (hflags : FlagsOk flags)
    (hpre : p ++ [i] <+: digits page) (hj : p4Index page = j) :
    (∃ e, m.nextTable (frameAddr n + m.hhdmMapping) i flags = .error e ∧
        (m.below root j).nextTable (frameAddr n + m.hhdmMapping) i flags = .error e) ∨
      ∃ c m', m.nextTable (frameAddr n + m.hhdmMapping) i flags =
          .ok (frameAddr c + m'.hhdmMapping, m') ∧
        (m.below root j).nextTable (frameAddr n + m.hhdmMapping) i flags =
          .ok (frameAddr c + m'.hhdmMapping, m'.below root j) ∧
        (m'.below root j).TableInv root ∧ (m'.below root j).tableOn root (p ++ [i]) = some c := by
  have heq := nextTable_below (m := m) h.allocator (slot_of_table h (by omega) hn hpre hj) flags
  have hspec := h.nextTable hp hn hflags hpre
  have hhdm : (m.below root j).hhdmMapping = m.hhdmMapping := rfl
  rw [hhdm] at hspec
  cases hres : m.nextTable (frameAddr n + m.hhdmMapping) i flags with
  | error e =>
    rw [hres] at heq
    exact .inl ⟨e, rfl, heq⟩
  | ok res =>
    obtain ⟨t, m'⟩ := res
    rw [hres] at heq
    rcases hspec with ⟨herr, -⟩ | ⟨c, m₁, hok, h₁, hto, -⟩
    · cases heq.symm.trans herr
    · cases heq.symm.trans hok
      exact .inr ⟨c, m', rfl, hok, h₁, hto⟩

theorem lastTable_below (h : (m.below root j).TableInv root) (hflags : FlagsOk flags)
    (hj : p4Index page = j) :
    (∃ e, TreeInv.lastTable m page flags = .error e ∧
        TreeInv.lastTable (m.below root j) page flags = .error e) ∨
      ∃ c m', TreeInv.lastTable m page flags = .ok (frameAddr c + m'.hhdmMapping, m') ∧
        TreeInv.lastTable (m.below root j) page flags =
          .ok (frameAddr c + m'.hhdmMapping, m'.below root j) ∧
        (c = root → p1Index page = j) := by
  have hroot : m.pageTable = frameAddr root + m.hhdmMapping := h.pageTable_eq
  have hroot' : (m.below root j).pageTable = frameAddr root + m.hhdmMapping := h.pageTable_eq
  simp only [TreeInv.lastTable, hroot, hroot', bind, Except.bind]
  rcases nextTable_both (p := []) (i := p4Index page) h (by simp) rfl hflags ⟨_, rfl⟩ hj with
    ⟨e, he, he'⟩ | ⟨p3, m₁, hok, hok', h₁, hto₁⟩
  · rw [he, he']
    exact .inl ⟨e, rfl, rfl⟩
  rw [hok, hok']
  dsimp only
  rcases nextTable_both (i := p3Index page) h₁ (by simp) hto₁ hflags ⟨_, rfl⟩ hj with
    ⟨e, he, he'⟩ | ⟨p2, m₂, hok, hok', h₂, hto₂⟩
  · rw [he, he']
    exact .inl ⟨e, rfl, rfl⟩
  rw [hok, hok']
  dsimp only
  rcases nextTable_both (i := p2Index page) h₂ (by simp) hto₂ hflags ⟨_, rfl⟩ hj with
    ⟨e, he, he'⟩ | ⟨p1, m₃, hok, hok', h₃, hto₃⟩
  · rw [he, he']
    exact .inl ⟨e, rfl, rfl⟩
  · rw [hok, hok']
    exact .inr ⟨p1, m₃, rfl, rfl, slot_of_table h₃ (by simp) hto₃ (List.prefix_refl (digits page)) hj⟩

/-- `map_page` of a page below the entry. -/
theorem mapPage_below (h : (m.below root j).TableInv root) (hflags : FlagsOk flags)
    (hj : p4Index page = j) (frame : BitVec 64) : (m.below root j).mapPage page frame flags =
      (m.mapPage page frame flags).map (·.below root j) := by
  rw [TreeInv.mapPage_eq, TreeInv.mapPage_eq]
  rcases lastTable_below h hflags hj with ⟨e, he, he'⟩ | ⟨p1, m₁, hok, hok', hslot⟩
  · rw [he, he']
    rfl
  rw [hok, hok']
  have hread : (m₁.below root j).pages (frameAddr p1 + m₁.hhdmMapping) (p1Index page) =
      m₁.pages (frameAddr p1 + m₁.hhdmMapping) (p1Index page) := by
    rw [pages_frame m₁, ← entry_below m₁ hslot]
    exact pages_frame (m₁.below root j) p1 (p1Index page)
  simp only [bind, Except.bind, hread]
  split
  · rfl
  · rw [← below_setPages m₁ hslot]
    rfl

/-- `allocate_frame` when the tables below the entry form a tree. -/
theorem allocateFrame_below_spec (h : (m.below root j).TableInv root) :
    (allocateFrame m = .error .couldNotFindFreeEntry ∧ m.allocator.pending = []) ∨
      ∃ f m', allocateFrame m = .ok (f, m') ∧ FrameOk f ∧ (m'.below root j).TableInv root ∧
        (∀ q, q.length ≤ 4 →
          (m'.below root j).entryOn root q = (m.below root j).entryOn root q) ∧
        m.allocator.pending = f :: m'.allocator.pending := by
  have hspec := h.allocateFrame
  rw [allocateFrame_below] at hspec
  rcases hspec with ⟨herr, hnil⟩ | ⟨f, m', hok, hspec⟩
  · exact .inl ⟨map_eq_error.mp herr, hnil⟩
  · obtain ⟨⟨f, m₁⟩, hres, heq⟩ := map_eq_ok.mp hok
    cases heq
    exact .inr ⟨f, m₁, hres, hspec⟩

/-- `map_page` of a page below the entry when the tables there form a tree. -/
theorem mapPage_below_spec (h : (m.below root j).TableInv root) (hflags : FlagsOk flags)
    (hj : p4Index page = j) (frame : BitVec 64) :
    (m.mapPage page frame flags = .error .couldNotFindFreeEntry ∧
        m.allocator.pending.length < 3) ∨
      (m.mapPage page frame flags = .error (.alreadyMapped frame page) ∧
        (m.below root j).entryOn root (digits page) ≠ none) ∨
      ∃ m', m.mapPage page frame flags = .ok m' ∧ (m'.below root j).TableInv root ∧
        (m'.below root j).entryOn root (digits page) = some (.setEntry frame flags) ∧
        (m.below root j).Adds (m'.below root j) root (digits page) flags ∧
        (∀ q, q.length = 4 → q ≠ digits page →
          (m'.below root j).entryOn root q = (m.below root j).entryOn root q) ∧
        m.allocator.pending.length ≤ m'.allocator.pending.length + 3 := by
  have hspec := h.mapPage page frame hflags
  rw [mapPage_below h hflags hj] at hspec
  rcases hspec with ⟨herr, hlen⟩ | ⟨herr, hmapped⟩ | ⟨m', hok, h', -, hspec⟩
  · exact .inl ⟨map_eq_error.mp herr, hlen⟩
  · exact .inr (.inl ⟨map_eq_error.mp herr, hmapped⟩)
  · obtain ⟨m₁, hres, rfl⟩ := map_eq_ok.mp hok
    exact .inr (.inr ⟨m₁, hres, h', hspec⟩)

theorem tableOn_below (hn : (m.below root j).tableOn root p = some n) (hslot : n = root → i = j)
    (hpresent : (m.entry n i).present ≠ 0) :
    (m.below root j).tableOn root (p ++ [i]) = some (m.entry n i).address := by
  rw [← entry_below m hslot] at hpresent ⊢
  rw [tableOn_concat, entryOn_concat, hn, Option.bind_some, presentEntry_eq_some hpresent]
  rfl

/-- The walk of the processor to an address below the entry. -/
theorem hardwareWalk_below (h : (m.below root j).TableInv root) (hj : p4Index v = j) :
    (m.below root j).hardwareWalk root v = m.hardwareWalk root v := by
  have hslot {p i n} (hp : p.length ≤ 3) (hn : (m.below root j).tableOn root p = some n)
      (hpre : p ++ [i] <+: digits v) : n = root → i = j := slot_of_table h hp hn hpre hj
  have hslot₄ := hslot (p := []) (i := p4Index v) (Nat.zero_le 3) rfl ⟨_, rfl⟩
  simp only [hardwareWalk, entry_below m hslot₄]
  by_cases hp4 : (m.entry root (p4Index v)).present = 0
  · rw [if_pos (.inl hp4), if_pos (.inl hp4)]
  have hto₃ := tableOn_below (p := []) rfl hslot₄ hp4
  generalize m.entry root (p4Index v) = p4 at hto₃ ⊢
  have hslot₃ := hslot (i := p3Index v) (by simp) hto₃ ⟨_, rfl⟩
  simp only [entry_below m hslot₃]
  by_cases hp3 : (m.entry p4.address (p3Index v)).present = 0
  · simp only [hp3, if_true]
  have hto₂ := tableOn_below hto₃ hslot₃ hp3
  generalize m.entry p4.address (p3Index v) = p3 at hto₂ ⊢
  have hslot₂ := hslot (i := p2Index v) (by simp) hto₂ ⟨_, rfl⟩
  simp only [entry_below m hslot₂]
  by_cases hp2 : (m.entry p3.address (p2Index v)).present = 0
  · simp only [hp2, if_true]
  have hto₁ := tableOn_below hto₂ hslot₂ hp2
  generalize m.entry p3.address (p2Index v) = p2 at hto₁ ⊢
  simp only [entry_below m (hslot (by simp) hto₁ (List.prefix_refl (digits v)))]

end Machine

end Lethe
