import Lethe.Loader.Bounds

/-!
# Where `load` puts the segments

`Places` is what is asked of the image in memory: each segment as far from the first of the pages as
it is from the lowest page of the image. It is so exactly if the rounded bounds fit the segments
(`Fits`).
-/

namespace Lethe.Loader

/-! ## What is asked of `load` -/

/-- The pages from `addr` on that `AllocatePages` returns: they are none of the file. -/
structure Fresh (addr : BitVec 64) (pages : Nat) (buf : BitVec 64) (size : Nat) : Prop where
  aligned : addr.toNat % efiPageSize = 0
  range : addr.toNat + efiPageSize * pages ≤ 2 ^ 64
  apart : pages ≠ 0 → Apart addr (efiPageSize * pages) buf size

/-- Where a segment belongs. -/
def Elf64Phdr.dest (s : Elf64Phdr) (addr : BitVec 64) (segs : List Elf64Phdr) : BitVec 64 :=
  addr + (s.pVaddr - BitVec.ofNat 64 (lowestPage segs))

/-- The segments are in the pages from `addr` on: their destinations are inside and as far apart as
the segments are, the file parts are copied there and stay unless a later one is copied over them,
and the rest is zero. -/
structure Places (mem : Bytes) (buf addr : BitVec 64) (segs : List Elf64Phdr) (r : Loaded) :
    Prop where
  inside : ∀ s ∈ segs, ∀ k < s.pMemsz.toNat,
    ∃ o < efiPageSize * r.pageCount.toNat, (s.dest addr segs).toNat + k = addr.toNat + o
  copied : List.Forall₂ (fun s c => s.pFilesz ≠ 0 →
    c = (s.dest addr segs, readBytes mem (buf + s.pOffset) s.pFilesz.toNat)) segs r.copies
  kept : ∀ before s after, segs = before ++ s :: after →
    (∀ t ∈ after, t.pFilesz ≠ 0 →
      Apart s.pVaddr s.pFilesz.toNat t.pVaddr t.pFilesz.toNat) →
    ∀ k < s.pFilesz, r.mem (s.dest addr segs + k) = mem (buf + s.pOffset + k)
  disjoint : ∀ s ∈ segs, ∀ t ∈ segs, s.pMemsz ≠ 0 → t.pMemsz ≠ 0 →
    Apart s.pVaddr s.pMemsz.toNat t.pVaddr t.pMemsz.toNat →
    Apart (s.dest addr segs) s.pMemsz.toNat (t.dest addr segs) t.pMemsz.toNat
  zero : ∀ s ∈ segs, ∀ k, s.pFilesz ≤ k → k < s.pMemsz → r.mem (s.dest addr segs + k) = 0

/-- The byte at the virtual address `v` if `b` is there at first: the last file part that has one
counts. -/
def byteAt (mem : Bytes) (buf : BitVec 64) (segs : List Elf64Phdr) (v : BitVec 64) (b : UInt8) :
    UInt8 :=
  segs.foldl (fun b s => s.byteOver mem buf s.pVaddr v b) b

/-- The rounded bounds fit the segments. -/
structure Fits (mem : Bytes) (buf base addr : BitVec 64) (segs : List Elf64Phdr) : Prop where
  /-- The lowest rounded start is that of the lowest page, below `base`. -/
  placed : (∃ s ∈ segs, s.pFilesz ≠ 0) → ∃ r ∈ roundedSegments [] segs,
    (∀ r' ∈ roundedSegments [] segs, r.1 ≤ r'.1) ∧
      base + BitVec.ofNat 64 r.1 = BitVec.ofNat 64 (lowestPage segs)
  /-- The pages between a rounded start and a rounded end hold the segment. -/
  covered : ∀ s ∈ segs, s.pMemsz ≠ 0 →
    ∃ r ∈ roundedSegments [] segs, ∃ r' ∈ roundedSegments [] segs,
      s.pVaddr.toNat + s.pMemsz.toNat ≤
        lowestPage segs + (r.2 - r'.1) / efiPageSize * efiPageSize
  /-- `map_pages` returns. -/
  small : ∀ r ∈ roundedSegments [] segs, ∀ r' ∈ roundedSegments [] segs,
    r.2 < r'.1 + (2 ^ 31 + efiPageSize)
  zero : ∀ s ∈ segs, ∀ k, s.pFilesz ≤ k → k < s.pMemsz →
    byteAt mem buf segs (s.pVaddr + k) (mem (s.dest addr segs + k)) = 0

/-! ## The page count -/

theorem pos_of_ne_zero {x : BitVec 64} (h : x ≠ 0) : 0 < x.toNat :=
  Nat.pos_of_ne_zero fun h0 => h (BitVec.eq_of_toNat_eq h0)

section
variable {b : Bounds} {segs : List Elf64Phdr}

theorem toNat_pageCount (h : b.beginAddr.toNat ≤ b.endAddr.toNat) :
    b.pageCount.toNat = (b.endAddr.toNat - b.beginAddr.toNat) / efiPageSize := by
  rw [Bounds.pageCount, BitVec.toNat_udiv, BitVec.toNat_sub_of_le h]
  rfl

theorem roundedSegments_lt (h : r ∈ roundedSegments before segs) : r.1 < 2 ^ 32 := by
  induction segs generalizing before with
  | nil => cases h
  | cons s segs ih =>
    rcases List.mem_cons.mp h with rfl | h
    · exact roundDown_lt _ _
    · exact ih h

theorem roundedSegments_ne_nil (h : segs ≠ []) (before : List Elf64Phdr) :
    roundedSegments before segs ≠ [] := by
  cases segs with
  | nil => exact absurd rfl h
  | cons s segs => exact List.cons_ne_nil _ _

/-- With few pages, the bounds are in order. -/
theorem Bounds.Spans.begin_le_end (h : b.Spans (roundedSegments [] segs)) (hne : segs ≠ [])
    (hcount : b.pageCount.toNat ≤ 2 ^ 19) : b.beginAddr.toNat ≤ b.endAddr.toNat := by
  obtain ⟨r, hr, hbegin⟩ := h.begin_mem (roundedSegments_ne_nil hne [])
  have hlt := roundedSegments_lt hr
  apply Nat.le_of_not_lt
  intro hgt
  rw [Bounds.pageCount, BitVec.toNat_udiv, BitVec.toNat_sub] at hcount
  change _ / 4096 ≤ _ at hcount
  omega

/-- The page count is small if all differences of rounded bounds are. -/
theorem Bounds.Spans.pageCount_le (h : b.Spans (roundedSegments [] segs))
    (hle : segs ≠ [] → b.beginAddr.toNat ≤ b.endAddr.toNat) :
    b.pageCount.toNat ≤ 2 ^ 19 ↔ ∀ r ∈ roundedSegments [] segs, ∀ r' ∈ roundedSegments [] segs,
      r.2 < r'.1 + (2 ^ 31 + efiPageSize) := by
  by_cases hne : segs = []
  · obtain ⟨hbegin, hend⟩ := h.init (congrArg (roundedSegments []) hne)
    rw [hne, Bounds.pageCount, hbegin, hend]
    exact ⟨fun _ => nofun, fun _ => by decide⟩
  · rw [toNat_pageCount (hle hne), efiPageSize]
    constructor
    · intro hcount r hr r' hr'
      have hr2 := h.le_end r hr
      have hr1 := h.begin_le r' hr'
      omega
    · intro hsmall
      obtain ⟨r', hr', hbegin⟩ := h.begin_mem (roundedSegments_ne_nil hne [])
      obtain ⟨r, hr, hend⟩ := h.end_mem (roundedSegments_ne_nil hne [])
      have hlt := hsmall r hr r' hr'
      omega

/-- The pages between some rounded bounds reach an address if those that are asked for do. -/
theorem Bounds.Spans.covers_iff (h : b.Spans (roundedSegments [] segs)) (hne : segs ≠ [])
    (hle : b.beginAddr.toNat ≤ b.endAddr.toNat) :
    (∃ r ∈ roundedSegments [] segs, ∃ r' ∈ roundedSegments [] segs,
        x ≤ low + (r.2 - r'.1) / efiPageSize * efiPageSize) ↔
      x ≤ low + efiPageSize * b.pageCount.toNat := by
  rw [toNat_pageCount hle, Nat.mul_comm efiPageSize]
  constructor
  · rintro ⟨r, hr, r', hr', hx⟩
    have hsub : r.2 - r'.1 ≤ b.endAddr.toNat - b.beginAddr.toNat := by
      have hr2 := h.le_end r hr
      have hr1 := h.begin_le r' hr'
      omega
    apply Nat.le_trans hx
    apply Nat.add_le_add_left
    exact Nat.mul_le_mul_right efiPageSize (Nat.div_le_div_right hsub)
  · intro hx
    obtain ⟨r', hr', hbegin⟩ := h.begin_mem (roundedSegments_ne_nil hne [])
    obtain ⟨r, hr, hend⟩ := h.end_mem (roundedSegments_ne_nil hne [])
    exact ⟨r, hr, r', hr', hend ▸ hbegin ▸ hx⟩

/-- Where the rounded bounds hold the segments, they are in order. -/
theorem Fits.begin_le_end (h : Fits mem buf base addr segs)
    (hspans : b.Spans (roundedSegments [] segs)) (hne : segs ≠ []) : b.beginAddr.toNat ≤ b.endAddr.toNat := by
  obtain ⟨s, rest, rfl⟩ := List.exists_cons_of_ne_nil hne
  obtain ⟨r, hr, r', hr', hle⟩ : ∃ r ∈ roundedSegments [] (s :: rest),
      ∃ r' ∈ roundedSegments [] (s :: rest), r'.1 ≤ r.2 := by
    by_cases hempty : s.pMemsz = 0
    · refine ⟨_, List.mem_cons_self, _, List.mem_cons_self, ?_⟩
      rw [Elf64Phdr.rounded, hempty]
      exact Nat.le_refl _
    · obtain ⟨r, hr, r', hr', hcover⟩ := h.covered s List.mem_cons_self hempty
      have hlow := lowestPage_le_toNat (@List.mem_cons_self _ s rest)
      have hpos := pos_of_ne_zero hempty
      refine ⟨r, hr, r', hr', ?_⟩
      rw [efiPageSize] at hcover
      omega
  exact Nat.le_trans (hspans.begin_le r' hr') (Nat.le_trans hle (hspans.le_end r hr))

end

/-! ## Destinations -/

section
variable {s : Elf64Phdr} {segs : List Elf64Phdr} {addr : BitVec 64}

theorem toNat_dest (hs : s ∈ segs)
    (hlt : addr.toNat + (s.pVaddr.toNat - lowestPage segs) < 2 ^ 64) :
    (s.dest addr segs).toNat = addr.toNat + (s.pVaddr.toNat - lowestPage segs) := by
  have hlow := lowestPage_le_toNat hs
  have := s.pVaddr.isLt
  rw [Elf64Phdr.dest, BitVec.toNat_add, BitVec.toNat_sub, BitVec.toNat_ofNat]
  omega

/-- A destination is inside the pages if the segment ends below the lowest page and these. -/
theorem inside_iff (hs : s ∈ segs) (hrange : addr.toNat + size ≤ 2 ^ 64) :
    (∀ k < s.pMemsz.toNat, ∃ o < size, (s.dest addr segs).toNat + k = addr.toNat + o) ↔
      (s.pMemsz ≠ 0 → s.pVaddr.toNat + s.pMemsz.toNat ≤ lowestPage segs + size) := by
  have hlow := lowestPage_le_toNat hs
  constructor
  · intro h hne
    have hpos := pos_of_ne_zero hne
    obtain ⟨first, hfirst, hstart⟩ := h 0 hpos
    obtain ⟨last, hlast, hend⟩ := h (s.pMemsz.toNat - 1) (by omega)
    have := s.pVaddr.isLt
    rw [Elf64Phdr.dest, BitVec.toNat_add, BitVec.toNat_sub, BitVec.toNat_ofNat] at hstart hend
    omega
  · intro h k hk
    have hle := h fun h0 => by
      rw [h0] at hk
      exact absurd hk (Nat.not_lt_zero k)
    rw [toNat_dest hs (by omega)]
    exact ⟨s.pVaddr.toNat - lowestPage segs + k, by omega, by omega⟩

/-- The second loop copies a segment to where it belongs exactly if the lowest page is `base` above
the start of the image. -/
theorem copyAddr_eq_dest_iff (hpaddr : s.pPaddr = s.pVaddr - base) :
    s.copyAddr addr beginAddr = s.dest addr segs ↔
      base + beginAddr = BitVec.ofNat 64 (lowestPage segs) := by
  rw [Elf64Phdr.copyAddr, Elf64Phdr.dest, hpaddr]
  generalize BitVec.ofNat 64 (lowestPage segs) = low
  constructor
  · intro h
    grind
  · intro h
    grind

theorem sub_dest (v : BitVec 64) :
    addr + (v - BitVec.ofNat 64 (lowestPage segs)) - s.dest addr segs = v - s.pVaddr := by
  rw [Elf64Phdr.dest]
  generalize BitVec.ofNat 64 (lowestPage segs) = low
  grind

theorem dest_add (k : BitVec 64) :
    s.dest addr segs + k = addr + (s.pVaddr + k - BitVec.ofNat 64 (lowestPage segs)) := by
  rw [Elf64Phdr.dest]
  generalize BitVec.ofNat 64 (lowestPage segs) = low
  grind

end

/-! ## Segments in place -/

/-- The lowest page is `base` above the start of the image, and the pages hold the segments. -/
structure InPlace (base beginAddr : BitVec 64) (pages : Nat) (segs : List Elf64Phdr) : Prop where
  placed : (∃ s ∈ segs, s.pFilesz ≠ 0) → base + beginAddr = BitVec.ofNat 64 (lowestPage segs)
  inside : ∀ s ∈ segs, s.pMemsz ≠ 0 →
    s.pVaddr.toNat + s.pMemsz.toNat ≤ lowestPage segs + efiPageSize * pages

/-- The rounded bounds fit exactly if the bounds of the image put the segments in place, the pages
are few, and the bytes behind the file parts are zero. -/
theorem Bounds.Spans.fits_iff {b : Bounds} {segs : List Elf64Phdr}
    (h : b.Spans (roundedSegments [] segs))
    (hle : segs ≠ [] → b.beginAddr.toNat ≤ b.endAddr.toNat) :
    Fits mem buf base addr segs ↔
      InPlace base b.beginAddr b.pageCount.toNat segs ∧ b.pageCount.toNat ≤ 2 ^ 19 ∧
        ∀ s ∈ segs, ∀ k, s.pFilesz ≤ k → k < s.pMemsz →
          byteAt mem buf segs (s.pVaddr + k) (mem (s.dest addr segs + k)) = 0 := by
  have hofNat (x : BitVec 64) : BitVec.ofNat 64 x.toNat = x := by
    rw [BitVec.ofNat_toNat, BitVec.setWidth_eq]
  constructor
  · intro hfits
    refine ⟨⟨fun hne => ?_, fun s hs hsize => ?_⟩, (h.pageCount_le hle).mpr hfits.small, hfits.zero⟩
    · obtain ⟨r, hr, hmin, hlow⟩ := hfits.placed hne
      obtain ⟨r', hr', hbegin⟩ := h.begin_mem (List.ne_nil_of_mem hr)
      have heq : b.beginAddr.toNat = r.1 :=
        Nat.le_antisymm (h.begin_le r hr) (hbegin ▸ hmin r' hr')
      rw [← hlow, ← heq, hofNat]
    · have hne := List.ne_nil_of_mem hs
      exact (h.covers_iff hne (hle hne)).mp (hfits.covered s hs hsize)
  · rintro ⟨hplace, hcount, hzero⟩
    refine ⟨fun hne => ?_, fun s hs hsize => ?_, (h.pageCount_le hle).mp hcount, hzero⟩
    · obtain ⟨s, hs, -⟩ := id hne
      obtain ⟨r, hr, hbegin⟩ := h.begin_mem (roundedSegments_ne_nil (List.ne_nil_of_mem hs) [])
      refine ⟨r, hr, fun r' hr' => hbegin ▸ h.begin_le r' hr', ?_⟩
      rw [← hbegin, hofNat]
      exact hplace.placed hne
    · have hne := List.ne_nil_of_mem hs
      exact (h.covers_iff hne (hle hne)).mpr (hplace.inside s hs hsize)

section
variable {mem : Bytes} {buf base addr beginAddr : BitVec 64} {size pages : Nat} {s : Elf64Phdr}

/-- The file part of a segment ends where the segment does or before. -/
theorem Image.file_inside (h : Image mem buf size base)
    (hplace : InPlace base beginAddr pages (segments (phdrs mem buf)))
    (hs : s ∈ segments (phdrs mem buf)) (hne : s.pFilesz ≠ 0) :
    s.pVaddr.toNat + s.pFilesz.toNat ≤
      lowestPage (segments (phdrs mem buf)) + efiPageSize * pages := by
  have hpos := pos_of_ne_zero hne
  have hmemsz : s.pFilesz.toNat ≤ s.pMemsz.toNat := h.filesz_le s hs
  have hle := hplace.inside s hs fun h0 => by
    rw [h0] at hmemsz
    exact absurd (Nat.lt_of_lt_of_le hpos hmemsz) (Nat.lt_irrefl 0)
  omega

theorem Image.copyAddr_eq (h : Image mem buf size base)
    (hplace : InPlace base beginAddr pages (segments (phdrs mem buf)))
    (hs : s ∈ segments (phdrs mem buf)) (hne : s.pFilesz ≠ 0) :
    s.copyAddr addr beginAddr = s.dest addr (segments (phdrs mem buf)) :=
  (copyAddr_eq_dest_iff (h.paddr_eq s hs)).mpr (hplace.placed ⟨s, hs, hne⟩)

/-- A copy to where a segment belongs keeps clear of the file. -/
theorem Image.copy_clear (h : Image mem buf size base) (hfresh : Fresh addr pages buf size)
    (hplace : InPlace base beginAddr pages (segments (phdrs mem buf)))
    (hs : s ∈ segments (phdrs mem buf)) (hne : s.pFilesz ≠ 0) :
    (s.copyAddr addr beginAddr).toNat + s.pFilesz.toNat ≤ 2 ^ 64 ∧
      Apart (s.copyAddr addr beginAddr) s.pFilesz.toNat buf size := by
  have hpos := pos_of_ne_zero hne
  have hle := h.file_inside hplace hs hne
  have hlow := lowestPage_le_toNat hs
  have hrange := hfresh.range
  rw [h.copyAddr_eq hplace hs hne]
  have htoNat := @toNat_dest s _ addr hs (by omega)
  have hpages : pages ≠ 0 := by
    rintro rfl
    omega
  have hapart := hfresh.apart hpages
  unfold Apart at *
  omega

end

/-! ## The memory that `load` leaves -/

section
variable {mem : Bytes} {buf base addr beginAddr : BitVec 64} {size pages : Nat}

/-- The bytes of the image are where they belong in `mem'`. -/
def HasBytes (mem mem' : Bytes) (buf addr : BitVec 64) (segs : List Elf64Phdr) : Prop :=
  ∀ v, mem' (addr + (v - BitVec.ofNat 64 (lowestPage segs))) =
    byteAt mem buf segs v (mem (addr + (v - BitVec.ofNat 64 (lowestPage segs))))

theorem HasBytes.dest {mem' : Bytes} (h : HasBytes mem mem' buf addr segs) (s : Elf64Phdr)
    (k : BitVec 64) : mem' (s.dest addr segs + k) =
      byteAt mem buf segs (s.pVaddr + k) (mem (s.dest addr segs + k)) := by
  rw [dest_add]
  exact h (s.pVaddr + k)

/-- With the segments in place, the second loop copies each file part to where it belongs. -/
theorem Image.copied (h : Image mem buf size base) (hfresh : Fresh addr pages buf size)
    (hplace : InPlace base beginAddr pages (segments (phdrs mem buf))) :
    let copied := copyLoop buf (buf + (ehdrAt mem buf).ePhoff) addr beginAddr (2 ^ 16) 0 mem
    copied.2 = (segments (phdrs mem buf)).map (fun s =>
        (s.copyAddr addr beginAddr, readBytes mem (buf + s.pOffset) s.pFilesz.toNat)) ∧
      HasBytes mem copied.1 buf addr (segments (phdrs mem buf)) := by
  obtain ⟨hcopies, hbytes⟩ := h.copyLoop_eq (fun _ _ => rfl) List.drop_zero
    (length_phdrs_le mem buf) fun s hs hne => h.copy_clear hfresh hplace hs hne
  refine ⟨hcopies, fun v => (hbytes _).trans ?_⟩
  apply List.foldl_ext
  intro b s hs
  by_cases hne : s.pFilesz = 0
  · have hnone (x : BitVec 64) : ¬x < 0 := BitVec.not_lt_zero
    rw [Elf64Phdr.byteOver, Elf64Phdr.byteOver, hne, if_neg (hnone _), if_neg (hnone _)]
  · rw [Elf64Phdr.byteOver, Elf64Phdr.byteOver, h.copyAddr_eq hplace hs hne, sub_dest]

/-- The last file part that has a byte counts. -/
theorem byteAt_of_last {before after : List Elf64Phdr} {s : Elf64Phdr} {k : BitVec 64}
    (hk : k < s.pFilesz) (hafter : ∀ t ∈ after, ¬s.pVaddr + k - t.pVaddr < t.pFilesz) (b : UInt8) :
    byteAt mem buf (before ++ s :: after) (s.pVaddr + k) b = mem (buf + s.pOffset + k) := by
  have hown : s.pVaddr + k - s.pVaddr = k := by
    rw [BitVec.add_comm, BitVec.add_sub_cancel]
  rw [byteAt, List.foldl_append, List.foldl_cons]
  generalize before.foldl _ b = b'
  rw [Elf64Phdr.byteOver, hown, if_pos hk]
  induction after with
  | nil => rfl
  | cons t after ih =>
    rw [List.foldl_cons, Elf64Phdr.byteOver, if_neg (hafter t List.mem_cons_self)]
    exact ih fun u hu => hafter u (List.mem_cons_of_mem t hu)

/-- Segments inside the pages overlap in 64-bit addresses only if they do as ranges. -/
theorem not_covered_of_apart {s t : Elf64Phdr} {segs : List Elf64Phdr} (hs : s ∈ segs)
    (ht : t ∈ segs) (hpages : n ≤ 2 ^ 64)
    (hsle : s.pVaddr.toNat + s.pFilesz.toNat ≤ lowestPage segs + n)
    (htle : t.pFilesz ≠ 0 → t.pVaddr.toNat + t.pFilesz.toNat ≤ lowestPage segs + n)
    (hapart : t.pFilesz ≠ 0 → Apart s.pVaddr s.pFilesz.toNat t.pVaddr t.pFilesz.toNat)
    {k : BitVec 64}
    (hk : k < s.pFilesz) : ¬s.pVaddr + k - t.pVaddr < t.pFilesz := by
  intro hlt
  have hk' : k.toNat < s.pFilesz.toNat := hk
  have hlt' : (s.pVaddr + k - t.pVaddr).toNat < t.pFilesz.toNat := hlt
  have hne : t.pFilesz ≠ 0 := by
    intro h0
    rw [h0] at hlt'
    exact absurd hlt' (Nat.not_lt_zero _)
  have htle' := htle hne
  have hapart' := hapart hne
  unfold Apart at hapart'
  have hslow := lowestPage_le_toNat hs
  have htlow := lowestPage_le_toNat ht
  have hsum : s.pVaddr + k - t.pVaddr + t.pVaddr = s.pVaddr + k := BitVec.sub_add_cancel _ _
  have hsumNat := congrArg BitVec.toNat hsum
  rw [BitVec.toNat_add, BitVec.toNat_add] at hsumNat
  omega

/-- With the bytes of the image in the pages, the segments are placed if the zero parts are zero. -/
theorem Image.places {r : Loaded} (h : Image mem buf size base)
    (hfresh : Fresh addr r.pageCount.toNat buf size)
    (hplace : InPlace base beginAddr r.pageCount.toNat (segments (phdrs mem buf)))
    (hcopies : r.copies = (segments (phdrs mem buf)).map fun s =>
      (s.copyAddr addr beginAddr, readBytes mem (buf + s.pOffset) s.pFilesz.toNat))
    (hbytes : HasBytes mem r.mem buf addr (segments (phdrs mem buf)))
    (hzero : ∀ s ∈ segments (phdrs mem buf), ∀ k, s.pFilesz ≤ k → k < s.pMemsz →
      byteAt mem buf (segments (phdrs mem buf)) (s.pVaddr + k)
        (mem (s.dest addr (segments (phdrs mem buf)) + k)) = 0) :
    Places mem buf addr (segments (phdrs mem buf)) r where
  inside s hs := (inside_iff hs hfresh.range).mpr (hplace.inside s hs)
  copied := by
    rw [hcopies, List.forall₂_map_right_iff, List.forall₂_same]
    intro s hs hne
    rw [h.copyAddr_eq hplace hs hne]
  kept before s after hsegs hafter k hk := by
    have hs : s ∈ segments (phdrs mem buf) := hsegs ▸ List.mem_append_right before List.mem_cons_self
    have hne : s.pFilesz ≠ 0 := by
      intro h0
      rw [h0] at hk
      exact BitVec.not_lt_zero hk
    rw [hbytes.dest]
    conv_lhs => rw [hsegs]
    apply byteAt_of_last hk
    intro t ht
    have htmem : t ∈ segments (phdrs mem buf) :=
      hsegs ▸ List.mem_append_right before (List.mem_cons_of_mem s ht)
    have hrange := hfresh.range
    exact not_covered_of_apart hs htmem (by omega) (h.file_inside hplace hs hne)
      (h.file_inside hplace htmem) (hafter t ht) hk
  disjoint s hs t ht hsne htne hapart := by
    have hsle := hplace.inside s hs hsne
    have htle := hplace.inside t ht htne
    have hspos := pos_of_ne_zero hsne
    have htpos := pos_of_ne_zero htne
    have hslow := lowestPage_le_toNat hs
    have htlow := lowestPage_le_toNat ht
    have hrange := hfresh.range
    unfold Apart at *
    rw [toNat_dest hs (by omega), toNat_dest ht (by omega)]
    omega
  zero s hs k hge hlt := by
    rw [hbytes.dest]
    exact hzero s hs k hge hlt

end

/-! ## The result -/

section
variable {kernelStart addr : BitVec 64} {tables : Tables} {mem : Bytes} {buf : BitVec 64}
  {r : Loaded}

/-- `load` returns if `map_pages` does, and what it has done then. -/
theorem load_eq_ok (hvalid : isImageValid mem buf = true) :
    load kernelStart addr tables mem buf = .ok (some r) →
      Returns (tables.mapPages kernelStart addr (bounds mem buf).pageCount 0b10) ∧
        r.pageCount = (bounds mem buf).pageCount ∧
        r.copies = (copyLoop buf (buf + (ehdrAt mem buf).ePhoff) addr
          (bounds mem buf).beginAddr (2 ^ 16) 0 mem).2 ∧
        r.mem = (copyLoop buf (buf + (ehdrAt mem buf).ePhoff) addr
          (bounds mem buf).beginAddr (2 ^ 16) 0 mem).1 := by
  intro h
  rw [load, if_neg (by simp [hvalid])] at h
  obtain ⟨tables', hmap, hrest⟩ := bind_eq_ok.mp h
  obtain rfl := Option.some.inj (Except.ok.inj hrest)
  exact ⟨⟨tables', hmap⟩, rfl, rfl, rfl⟩

theorem load_returns (hvalid : isImageValid mem buf = true)
    (hmap : Returns (tables.mapPages kernelStart addr (bounds mem buf).pageCount 0b10)) :
    ∃ r, load kernelStart addr tables mem buf = .ok (some r) := by
  obtain ⟨tables', hmap⟩ := hmap
  rw [load, if_neg (by simp [hvalid])]
  simp only [hmap, ok_bind]
  exact ⟨_, rfl⟩

end

/-- `load` places every segment exactly if the rounded bounds fit: the lowest rounded start is that
of the lowest page below `base`, the pages between the rounded bounds hold each segment and are no
more than `map_pages` can map, and the bytes behind the file parts are zero beforehand. -/
theorem load_places_iff (kernelStart addr : BitVec 64) (tables : Tables) (mem : Bytes)
    (buf base : BitVec 64) (size : Nat) (himage : Image mem buf size base)
    (hfresh : Fresh addr (bounds mem buf).pageCount.toNat buf size)
    (hstart : kernelStart.toNat % efiPageSize = 0)
    (hfree : 3 * (bounds mem buf).pageCount.toNat ≤ tables.free.length) :
    (∃ r, load kernelStart addr tables mem buf = .ok (some r) ∧
        Places mem buf addr (segments (phdrs mem buf)) r) ↔
      Fits mem buf base addr (segments (phdrs mem buf)) := by
  have hspans := bounds_spans himage.align
  have hreturns : Returns (tables.mapPages kernelStart addr (bounds mem buf).pageCount 0b10) ↔ _ :=
    Tables.mapPages_returns_iff hstart hfresh.aligned hfree
  constructor
  · rintro ⟨r, hload, hplaces⟩
    obtain ⟨hmap, hcount, hcopies, hmem⟩ := load_eq_ok himage.valid hload
    have hsmall := hreturns.mp hmap
    have hplace : InPlace base (bounds mem buf).beginAddr (bounds mem buf).pageCount.toNat
        (segments (phdrs mem buf)) := by
      refine ⟨fun hne => ?_, fun s hs => ?_⟩
      · have hfirst := hplaces.copied
        rw [hcopies] at hfirst
        obtain ⟨s, hs, hsize, bytes, hcopy⟩ :=
          copyLoop_first List.drop_zero (length_phdrs_le mem buf) hfirst hne
        exact (copyAddr_eq_dest_iff (himage.paddr_eq s hs)).mp (congrArg Prod.fst (hcopy hsize))
      · exact (inside_iff hs hfresh.range).mp (hcount ▸ hplaces.inside s hs)
    obtain ⟨-, hbytes⟩ := himage.copied hfresh hplace
    rw [← hmem] at hbytes
    apply (hspans.fits_iff fun hne => hspans.begin_le_end hne hsmall).mpr
    refine ⟨hplace, hsmall, fun s hs k hge hlt => ?_⟩
    rw [← hbytes.dest]
    exact hplaces.zero s hs k hge hlt
  · intro hfits
    obtain ⟨hplace, hsmall, hzero⟩ :=
      (hspans.fits_iff fun hne => hfits.begin_le_end hspans hne).mp hfits
    obtain ⟨r, hload⟩ := load_returns himage.valid (hreturns.mpr hsmall)
    obtain ⟨-, hcount, hcopies, hmem⟩ := load_eq_ok himage.valid hload
    obtain ⟨hcopied, hbytes⟩ := himage.copied hfresh hplace
    rw [← hcopies] at hcopied
    rw [← hmem] at hbytes
    rw [← hcount] at hfresh hplace
    exact ⟨r, hload, himage.places hfresh hplace hcopied hbytes hzero⟩

/-! ## Images -/

/-- The program header of a segment; its flags are not read. -/
def Elf64Phdr.encode (s : Elf64Phdr) : List UInt8 :=
  encodeNat 4 s.pType.toNat ++ encodeNat 4 0 ++ encodeNat 8 s.pOffset.toNat ++
    encodeNat 8 s.pVaddr.toNat ++ encodeNat 8 s.pPaddr.toNat ++ encodeNat 8 s.pFilesz.toNat ++
    encodeNat 8 s.pMemsz.toNat ++ encodeNat 8 s.pAlign.toNat

/-- The headers of an image with the segments, and what follows them in the file. -/
def imageOf (segs : List Elf64Phdr) (contents : List UInt8) : List UInt8 :=
  [0x7F, 0x45, 0x4C, 0x46] ++ encodeNat 28 0 ++ encodeNat 8 64 ++ encodeNat 16 0 ++
    encodeNat 2 segs.length ++ encodeNat 6 0 ++ segs.flatMap Elf64Phdr.encode ++ contents

/-- A memory with the image at `0x10000`, and zeros elsewhere. -/
def imageMem (image : List UInt8) : Bytes := fun a => image.getD (a - 0x10000).toNat 0

theorem fresh_pages (h : size ≤ 0x2000) (hpages : pages ≤ 2) :
    Fresh 0x400000 pages 0x10000 size where
  aligned := rfl
  range := by
    change 0x400000 + 4096 * pages ≤ 2 ^ 64
    omega
  apart _ := by
    change 0x400000 + 4096 * pages ≤ 0x10000 ∨ 0x10000 + size ≤ 0x400000
    omega

/-- Half a page of code, from the second page of the kernel's addresses on. -/
def textSegment : Elf64Phdr := ⟨1, 176, 0xFFFF800000001000, 0x1000, 0x800, 0x800, 0x1000⟩

/-- The page behind it, of which 16 bytes are in the file. -/
def dataSegment : Elf64Phdr := ⟨1, 0x8B0, 0xFFFF800000002000, 0x2000, 0x10, 0x1000, 0x1000⟩

def twoSegments : Bytes := imageMem
  (imageOf [textSegment, dataSegment] (List.replicate 0x800 0x90 ++ List.replicate 0x10 0xAA))

theorem phdrs_twoSegments : phdrs twoSegments 0x10000 = [textSegment, dataSegment] := by
  decide +kernel

theorem segments_twoSegments :
    segments (phdrs twoSegments 0x10000) = [textSegment, dataSegment] := by
  rw [phdrs_twoSegments]
  rfl

theorem pageCount_twoSegments : (bounds twoSegments 0x10000).pageCount = 2 := by
  rw [bounds, phdrs_twoSegments]
  decide

theorem image_twoSegments : Image twoSegments 0x10000 0x8C0 0xFFFF800000000000 := by
  refine ⟨by decide +kernel, by decide, by decide, by decide +kernel, ?_, ?_, ?_, ?_⟩
  all_goals
    rw [segments_twoSegments, List.forall_mem_cons, List.forall_mem_singleton]
  · decide
  · decide
  · decide
  · exact ⟨⟨12, rfl⟩, 12, rfl⟩

/-- The part of the data that is not in the file is zero beforehand. -/
theorem zero_twoSegments {k : BitVec 64} (hge : 0x10 ≤ k) (hlt : k < 0x1000) :
    byteAt twoSegments 0x10000 [textSegment, dataSegment] (dataSegment.pVaddr + k)
      (twoSegments (dataSegment.dest 0x400000 [textSegment, dataSegment] + k)) = 0 := by
  have hdest : dataSegment.dest 0x400000 [textSegment, dataSegment] = 0x401000 := by decide
  have htext : ¬dataSegment.pVaddr + k - textSegment.pVaddr < textSegment.pFilesz := by
    change ¬(0xFFFF800000002000#64 + k - 0xFFFF800000001000#64 < 0x800#64)
    bv_omega
  have hdata : ¬dataSegment.pVaddr + k - dataSegment.pVaddr < dataSegment.pFilesz := by
    change ¬(0xFFFF800000002000#64 + k - 0xFFFF800000002000#64 < 0x10#64)
    bv_omega
  rw [byteAt, List.foldl_cons, List.foldl_cons, List.foldl_nil, Elf64Phdr.byteOver, if_neg hdata,
    Elf64Phdr.byteOver, if_neg htext, hdest]
  have hbehind : 0x8C0 ≤ (0x401000 + k - 0x10000).toNat := by bv_omega
  rw [twoSegments, imageMem, List.getD_eq_getElem?_getD, List.getElem?_eq_none, Option.getD_none]
  exact Nat.le_trans (by decide +kernel) hbehind

/-- The code and the data are placed, and the data is zero behind its 16 bytes. -/
theorem load_places_twoSegments : ∃ r,
    load 0xFFFF800000000000 0x400000 (Tables.emptyTables 6) twoSegments 0x10000 = .ok (some r) ∧
      Places twoSegments 0x10000 0x400000 (segments (phdrs twoSegments 0x10000)) r := by
  have hcount := pageCount_twoSegments
  apply (load_places_iff 0xFFFF800000000000 0x400000 (Tables.emptyTables 6) twoSegments 0x10000
    0xFFFF800000000000 0x8C0 image_twoSegments (hcount ▸ fresh_pages (by decide) (by decide))
    (by decide) (hcount ▸ by decide)).mpr
  have hrounded : roundedSegments [] [textSegment, dataSegment] =
      [(0x1000, 0x1000), (0x2000, 0x3000)] := by decide
  have htext : ((0x1000, 0x1000) : Nat × Nat) ∈ [(0x1000, 0x1000), (0x2000, 0x3000)] := .head _
  have hdata : ((0x2000, 0x3000) : Nat × Nat) ∈ [(0x1000, 0x1000), (0x2000, 0x3000)] :=
    .tail _ (.head _)
  rw [segments_twoSegments]
  refine ⟨fun _ => ?_, ?_, ?_, ?_⟩
  · rw [hrounded]
    exact ⟨_, htext, by decide, by decide⟩
  · rw [hrounded, List.forall_mem_cons, List.forall_mem_singleton]
    exact ⟨fun _ => ⟨_, hdata, _, htext, by decide⟩, fun _ => ⟨_, hdata, _, htext, by decide⟩⟩
  · rw [hrounded]
    decide
  · rw [List.forall_mem_cons, List.forall_mem_singleton]
    refine ⟨fun k hge hlt => ?_, fun k hge hlt => zero_twoSegments hge hlt⟩
    exact absurd (Nat.lt_of_le_of_lt hge hlt) (Nat.lt_irrefl _)

/-- A segment of a page and 16 bytes, all of them in the file. -/
def longSegment : Elf64Phdr := ⟨1, 120, 0x1000, 0x1000, 0x1010, 0x1010, 0x1000⟩

def longImage : Bytes := imageMem (imageOf [longSegment] [])

theorem phdrs_longImage : phdrs longImage 0x10000 = [longSegment] := by decide +kernel

theorem segments_longImage : segments (phdrs longImage 0x10000) = [longSegment] := by
  rw [phdrs_longImage]
  rfl

theorem image_longImage : Image longImage 0x10000 0x1088 0 := by
  refine ⟨by decide +kernel, by decide, by decide, by decide +kernel, ?_, ?_, ?_, ?_⟩
  all_goals
    rw [segments_longImage, List.forall_mem_singleton]
  · decide
  · decide
  · decide
  · exact ⟨12, rfl⟩

/-- The segment gets one page: its end is rounded down. -/
theorem load_not_inside :
    Image longImage 0x10000 0x1088 0 ∧
      Fresh 0x400000 (bounds longImage 0x10000).pageCount.toNat 0x10000 0x1088 ∧
      3 * (bounds longImage 0x10000).pageCount.toNat ≤ (Tables.emptyTables 3).free.length ∧
      ¬∃ r, load 0xFFFF800000000000 0x400000 (Tables.emptyTables 3) longImage 0x10000 =
          .ok (some r) ∧
        Places longImage 0x10000 0x400000 (segments (phdrs longImage 0x10000)) r := by
  have hcount : (bounds longImage 0x10000).pageCount = 1 := by
    rw [bounds, phdrs_longImage]
    decide
  refine ⟨image_longImage, hcount ▸ fresh_pages (by decide) (by decide), hcount ▸ by decide, ?_⟩
  rintro ⟨r, hload, hplaces⟩
  obtain ⟨-, hpages, -⟩ := load_eq_ok image_longImage.valid hload
  have hmem : longSegment ∈ segments (phdrs longImage 0x10000) := by
    rw [segments_longImage]
    exact List.mem_cons_self
  obtain ⟨o, ho, heq⟩ := hplaces.inside _ hmem 0x1000 (by decide)
  rw [hpages, hcount] at ho
  rw [segments_longImage] at heq
  change 0x400000 + 0x1000 = 0x400000 + o at heq
  change o < 4096 * 1 at ho
  omega

end Lethe.Loader
