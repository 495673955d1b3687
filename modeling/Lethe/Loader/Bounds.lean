import Lethe.Loader.Elf

/-!
# The bounds of the kernel image

The bounds that the first loop of `load` finds are those of the segments rounded down, in 32 bits,
to the alignment that is in force when the loop comes to them (`roundedSegments`).
-/

namespace Lethe.Loader

/-! ## Rounded segments -/

/-- The start of the first page of a segment. -/
def Elf64Phdr.page (s : Elf64Phdr) : Nat := s.pVaddr.toNat / 4096 * 4096

/-- The start of the lowest page of the segments. -/
def lowestPage : List Elf64Phdr → Nat
  | [] => 0
  | [s] => s.page
  | s :: segs => min s.page (lowestPage segs)

/-- The alignment that is in force at a segment, which is the first of the list, the segments before
it last to first. An alignment that does not fit 32 bits counts as 0. -/
def alignInForce : List Elf64Phdr → Nat
  | [] => 4096
  | s :: before => if 2 ^ 32 ≤ s.pAlign.toNat then 0 else max s.pAlign.toNat (alignInForce before)

/-- The low 32 bits of an address, rounded down to a multiple of the alignment. -/
def roundDown (align x : Nat) : Nat := x % 2 ^ 32 / align * align

/-- The rounded start and end of a segment. -/
def Elf64Phdr.rounded (s : Elf64Phdr) (align : Nat) : Nat × Nat :=
  (roundDown align s.pVaddr.toNat, roundDown align (s.pVaddr.toNat + s.pMemsz.toNat))

/-- The rounded starts and ends of segments, with the segments before them last to first. -/
def roundedSegments : List Elf64Phdr → List Elf64Phdr → List (Nat × Nat)
  | _, [] => []
  | before, s :: segs =>
    s.rounded (alignInForce (s :: before)) :: roundedSegments (s :: before) segs

theorem lowestPage_le (h : s ∈ segs) : lowestPage segs ≤ s.page := by
  induction segs with
  | nil => cases h
  | cons t segs ih =>
    cases segs with
    | nil =>
      rw [List.mem_singleton.mp h]
      exact Nat.le_refl _
    | cons u segs =>
      rw [lowestPage]
      · rcases List.mem_cons.mp h with rfl | h
        · exact Nat.min_le_left _ _
        · exact Nat.le_trans (Nat.min_le_right _ _) (ih h)
      · exact nofun

theorem lowestPage_le_toNat (h : s ∈ segs) : lowestPage segs ≤ s.pVaddr.toNat :=
  Nat.le_trans (lowestPage_le h) (Nat.div_mul_le_self _ _)

/-! ## The mask of an alignment -/

/-- The bits of an address that the mask of a power of two leaves. -/
theorem getLsbD_mask {align : BitVec 32} (h : align.toNat = 2 ^ k) (hk : k < 32) (i : Nat) :
    ((~~~(align - 1)).setWidth 64 : BitVec 64).getLsbD i = (decide (k ≤ i) && decide (i < 32)) := by
  have hpred : (align - 1).toNat = 2 ^ k - 1 := by
    have hlt : 2 ^ k < 2 ^ 32 := Nat.pow_lt_pow_right (by decide) hk
    have hpos : 0 < 2 ^ k := Nat.two_pow_pos k
    rw [BitVec.toNat_sub, h]
    change (2 ^ 32 - 1 + 2 ^ k) % 2 ^ 32 = _
    omega
  have hbit : (align - 1).getLsbD i = decide (i < k) := by
    rw [← BitVec.testBit_toNat, hpred, Nat.testBit_two_pow_sub_one]
  rw [BitVec.getLsbD_setWidth, BitVec.getLsbD_not, hbit]
  grind

theorem toNat_and_mask {align : BitVec 32} (h : align.toNat = 2 ^ k) (hk : k < 32) (x : BitVec 64) :
    (x &&& (~~~(align - 1)).setWidth 64).toNat = roundDown align.toNat x.toNat := by
  apply Nat.eq_of_testBit_eq
  intro i
  rw [BitVec.testBit_toNat, BitVec.getLsbD_and, getLsbD_mask h hk, ← BitVec.testBit_toNat,
    roundDown, h, Nat.testBit_mul_two_pow, Nat.testBit_div_two_pow, Nat.testBit_mod_two_pow]
  grind

/-- The mask of an alignment that is 0 is 0. -/
theorem toNat_and_mask_zero (x : BitVec 64) :
    (x &&& (~~~((0 : BitVec 32) - 1)).setWidth 64).toNat = roundDown 0 x.toNat := by
  rw [roundDown, Nat.mul_zero]
  exact congrArg BitVec.toNat BitVec.and_zero

/-- An alignment in force is 0 or a power of two. -/
def AlignOk (align : Nat) : Prop := align = 0 ∨ ∃ k < 32, align = 2 ^ k

theorem AlignOk.toNat_and_mask {align : BitVec 32} (h : AlignOk align.toNat) (x : BitVec 64) :
    (x &&& (~~~(align - 1)).setWidth 64).toNat = roundDown align.toNat x.toNat := by
  rcases h with h | ⟨k, hk, h⟩
  · obtain rfl : align = 0 := BitVec.eq_of_toNat_eq h
    exact toNat_and_mask_zero x
  · exact Loader.toNat_and_mask h hk x

theorem alignInForce_ok (h : ∀ s ∈ before, PowerOfTwo s.pAlign) : AlignOk (alignInForce before) := by
  induction before with
  | nil => exact .inr ⟨12, by decide, rfl⟩
  | cons s before ih =>
    rw [alignInForce]
    split
    · exact .inl rfl
    · next hlt =>
      obtain ⟨k, hk⟩ := h s List.mem_cons_self
      rcases Nat.le_total s.pAlign.toNat (alignInForce before) with hle | hle
      · rw [Nat.max_eq_right hle]
        exact ih fun t ht => h t (List.mem_cons_of_mem s ht)
      · rw [Nat.max_eq_left hle, hk]
        refine .inr ⟨k, ?_, rfl⟩
        rw [hk] at hlt
        apply Nat.lt_of_not_le
        intro hge
        exact hlt (Nat.pow_le_pow_right (by decide) hge)

theorem roundDown_lt (align x : Nat) : roundDown align x < 2 ^ 32 :=
  Nat.lt_of_le_of_lt (Nat.div_mul_le_self _ _) (Nat.mod_lt x (by decide))

theorem roundDown_mod (align x : Nat) : roundDown align (x % 2 ^ 64) = roundDown align x := by
  rw [roundDown, roundDown, Nat.mod_mod_of_dvd x (by decide)]

/-! ## The first loop -/

theorem foldl_step_segments (hs : List Elf64Phdr) (b : Bounds) :
    hs.foldl Bounds.step b = (segments hs).foldl Bounds.step b := by
  induction hs generalizing b with
  | nil => rfl
  | cons h hs ih =>
    rw [List.foldl_cons, ih, segments, segments, List.filter_cons]
    by_cases htype : h.pType = ptLoad
    · rw [if_pos (by simpa using htype), List.foldl_cons]
    · rw [if_neg (by simpa using htype), Bounds.step, if_pos htype]

/-- `b` has the lowest start and the highest end of `rs`. -/
structure Bounds.Spans (b : Bounds) (rs : List (Nat × Nat)) : Prop where
  begin_le : ∀ r ∈ rs, b.beginAddr.toNat ≤ r.1
  le_end : ∀ r ∈ rs, r.2 ≤ b.endAddr.toNat
  begin_mem : rs ≠ [] → ∃ r ∈ rs, b.beginAddr.toNat = r.1
  end_mem : rs ≠ [] → ∃ r ∈ rs, b.endAddr.toNat = r.2
  init : rs = [] → b.beginAddr = Bounds.init.beginAddr ∧ b.endAddr = Bounds.init.endAddr

theorem Bounds.spans_init : Bounds.init.Spans [] where
  begin_le := nofun
  le_end := nofun
  begin_mem h := absurd rfl h
  end_mem h := absurd rfl h
  init _ := ⟨rfl, rfl⟩

section
variable {b : Bounds} {s : Elf64Phdr} {before segs : List Elf64Phdr} {done : List (Nat × Nat)}

/-- The alignment behind a round of the first loop. -/
theorem Bounds.toNat_align_step (hload : s.pType = ptLoad) (hpow : PowerOfTwo s.pAlign)
    (halign : b.align.toNat = alignInForce before) :
    (b.step s).align.toNat = alignInForce (s :: before) := by
  have hwidth : (b.align.setWidth 64).toNat = alignInForce before := by
    rw [BitVec.toNat_setWidth_of_le (by decide), halign]
  have hlt : alignInForce before < 2 ^ 32 := halign ▸ b.align.isLt
  rw [Bounds.step, if_neg (not_not.mpr hload), alignInForce]
  change (if s.pAlign > b.align.setWidth 64 then s.pAlign.setWidth 32 else b.align).toNat = _
  by_cases hgt : s.pAlign > b.align.setWidth 64
  · have hgt' : alignInForce before < s.pAlign.toNat := hwidth ▸ hgt
    rw [if_pos hgt, BitVec.toNat_setWidth]
    split
    · next hle =>
      obtain ⟨k, hk⟩ := hpow
      rw [hk] at hle ⊢
      have hexp : 32 ≤ k := (Nat.pow_le_pow_iff_right (by decide)).mp hle
      exact Nat.mod_eq_zero_of_dvd (Nat.pow_dvd_pow 2 hexp)
    · next hle =>
      rw [Nat.mod_eq_of_lt (Nat.lt_of_not_le hle), Nat.max_eq_left (Nat.le_of_lt hgt')]
  · have hle : s.pAlign.toNat ≤ alignInForce before := hwidth ▸ Nat.le_of_not_lt hgt
    rw [if_neg hgt, halign, if_neg (by omega), Nat.max_eq_right hle]

/-- `~(align - 1)`. -/
def Bounds.mask (b : Bounds) : BitVec 64 := (~~~(b.align - 1)).setWidth 64

theorem Bounds.beginAddr_step (hload : s.pType = ptLoad) :
    (b.step s).beginAddr = if b.beginAddr > s.pVaddr &&& (b.step s).mask then
      s.pVaddr &&& (b.step s).mask else b.beginAddr := by
  simp only [Bounds.mask, Bounds.step, if_neg (not_not.mpr hload)]

theorem Bounds.endAddr_step (hload : s.pType = ptLoad) :
    (b.step s).endAddr = if b.endAddr < (s.pVaddr + s.pMemsz) &&& (b.step s).mask then
      (s.pVaddr + s.pMemsz) &&& (b.step s).mask else b.endAddr := by
  simp only [Bounds.mask, Bounds.step, if_neg (not_not.mpr hload)]

theorem toNat_lowered (x y : BitVec 64) :
    (if x > y then y else x).toNat = min x.toNat y.toNat := by
  split
  · next hgt => exact (Nat.min_eq_right (Nat.le_of_lt hgt)).symm
  · next hle => exact (Nat.min_eq_left (Nat.le_of_not_lt hle)).symm

theorem toNat_raised (x y : BitVec 64) :
    (if x < y then y else x).toNat = max x.toNat y.toNat := by
  split
  · next hlt => exact (Nat.max_eq_right (Nat.le_of_lt hlt)).symm
  · next hle => exact (Nat.max_eq_left (Nat.le_of_not_lt hle)).symm

/-- The bounds behind a round. -/
theorem Bounds.toNat_step (hload : s.pType = ptLoad)
    (hok : AlignOk (alignInForce (s :: before)))
    (halign : (b.step s).align.toNat = alignInForce (s :: before)) :
    (b.step s).beginAddr.toNat =
        min b.beginAddr.toNat (s.rounded (alignInForce (s :: before))).1 ∧
      (b.step s).endAddr.toNat =
        max b.endAddr.toNat (s.rounded (alignInForce (s :: before))).2 := by
  rw [← halign] at hok ⊢
  constructor
  · rw [beginAddr_step hload, toNat_lowered, Bounds.mask, hok.toNat_and_mask]
    rfl
  · rw [endAddr_step hload, toNat_raised, Bounds.mask, hok.toNat_and_mask, BitVec.toNat_add,
      roundDown_mod]
    rfl

/-- The lowest start and the highest end, with one more segment. -/
theorem Bounds.Spans.push {b' : Bounds} (h : b.Spans done) (hlt : r.1 < 2 ^ 64 - 1)
    (hbegin : b'.beginAddr.toNat = min b.beginAddr.toNat r.1)
    (hend : b'.endAddr.toNat = max b.endAddr.toNat r.2) : b'.Spans (done ++ [r]) where
  begin_le t ht := by
    rw [hbegin]
    rcases List.mem_append.mp ht with ht | ht
    · exact Nat.le_trans (Nat.min_le_left _ _) (h.begin_le t ht)
    · rw [List.mem_singleton.mp ht]
      exact Nat.min_le_right _ _
  le_end t ht := by
    rw [hend]
    rcases List.mem_append.mp ht with ht | ht
    · exact Nat.le_trans (h.le_end t ht) (Nat.le_max_left _ _)
    · rw [List.mem_singleton.mp ht]
      exact Nat.le_max_right _ _
  begin_mem _ := by
    rw [hbegin]
    rcases Nat.le_total r.1 b.beginAddr.toNat with hle | hle
    · exact ⟨r, List.mem_append_right done List.mem_cons_self, Nat.min_eq_right hle⟩
    · have hne : done ≠ [] := by
        intro hnil
        rw [(h.init hnil).1] at hle
        exact absurd (Nat.lt_of_le_of_lt hle hlt) (by decide)
      obtain ⟨t, ht, heq⟩ := h.begin_mem hne
      exact ⟨t, List.mem_append_left [r] ht, (Nat.min_eq_left hle).trans heq⟩
  end_mem _ := by
    rw [hend]
    rcases Nat.le_total b.endAddr.toNat r.2 with hle | hle
    · exact ⟨r, List.mem_append_right done List.mem_cons_self, Nat.max_eq_right hle⟩
    · by_cases hne : done = []
      · rw [(h.init hne).2] at hle ⊢
        exact ⟨r, List.mem_append_right done List.mem_cons_self, Nat.max_eq_right (Nat.zero_le _)⟩
      · obtain ⟨t, ht, heq⟩ := h.end_mem hne
        exact ⟨t, List.mem_append_left [r] ht, (Nat.max_eq_left hle).trans heq⟩
  init hnil := absurd hnil (List.append_ne_nil_of_right_ne_nil done (List.cons_ne_nil r []))

/-- The first loop finds the lowest start and the highest end. -/
theorem Bounds.Spans.foldl (h : b.Spans done) (halign : b.align.toNat = alignInForce before)
    (hload : ∀ s ∈ segs, s.pType = ptLoad) (hbefore : ∀ s ∈ before, PowerOfTwo s.pAlign)
    (hpow : ∀ s ∈ segs, PowerOfTwo s.pAlign) :
    (segs.foldl Bounds.step b).Spans (done ++ roundedSegments before segs) := by
  induction segs generalizing b before done with
  | nil => rwa [roundedSegments, List.append_nil]
  | cons s segs ih =>
    have hs := hload s List.mem_cons_self
    have halign' := toNat_align_step hs (hpow s List.mem_cons_self) halign
    have hbefore' : ∀ t ∈ s :: before, PowerOfTwo t.pAlign :=
      List.forall_mem_cons.mpr ⟨hpow s List.mem_cons_self, hbefore⟩
    obtain ⟨hbegin, hend⟩ := toNat_step hs (alignInForce_ok hbefore') halign'
    have hlt : (s.rounded (alignInForce (s :: before))).1 < 2 ^ 64 - 1 :=
      Nat.lt_trans (roundDown_lt _ _) (by decide)
    rw [List.foldl_cons, roundedSegments, List.append_cons]
    exact ih (h.push hlt hbegin hend) halign' (fun t ht => hload t (List.mem_cons_of_mem s ht))
      hbefore' fun t ht => hpow t (List.mem_cons_of_mem s ht)

end

/-- The bounds of an image. -/
theorem bounds_spans {mem : Bytes} {buf : BitVec 64}
    (hpow : ∀ s ∈ segments (phdrs mem buf), PowerOfTwo s.pAlign) :
    (bounds mem buf).Spans (roundedSegments [] (segments (phdrs mem buf))) := by
  rw [bounds, foldl_step_segments]
  have halign : Bounds.init.align.toNat = alignInForce [] := rfl
  exact Bounds.spans_init.foldl halign
    (fun s hs => by simpa using (List.mem_filter.mp hs).2) nofun hpow

end Lethe.Loader
