import Lethe.Lib.Memory
import Lethe.Libc.Memmove
import Lethe.Loader.PageTable

/-!
# The kernel image in `loader/elf.c`

`load` takes the file in a buffer to pages of the firmware. The address that `AllocatePages` returns
and `KERNEL_START` are parameters, and `memmove` is that of the standard; the output of `printf` is
left out. The page tables have a memory of their own, which `map_pages` writes.

The bounds of the image are those of the segments rounded down, in 32 bits, to the alignment that
is in force when the loop comes to them (`roundedSegments`).
-/

namespace Lethe.Loader

/-! ## The code -/

/-- The fields of `Elf64_Ehdr` that `load` uses. -/
structure Elf64Ehdr where
  eEntry : BitVec 64
  ePhoff : BitVec 64
  ePhnum : BitVec 16

/-- The fields of `Elf64_Phdr` that `load` uses. -/
structure Elf64Phdr where
  pType : BitVec 32
  pOffset : BitVec 64
  pVaddr : BitVec 64
  pPaddr : BitVec 64
  pFilesz : BitVec 64
  pMemsz : BitVec 64
  pAlign : BitVec 64
  deriving DecidableEq, Repr

def ehdrAt (mem : Bytes) (hdr : BitVec 64) : Elf64Ehdr where
  eEntry := BitVec.ofNat 64 (decodeNat (readBytes mem (hdr + 24) 8))
  ePhoff := BitVec.ofNat 64 (decodeNat (readBytes mem (hdr + 32) 8))
  ePhnum := BitVec.ofNat 16 (decodeNat (readBytes mem (hdr + 56) 2))

def phdrAt (mem : Bytes) (phdr : BitVec 64) : Elf64Phdr where
  pType := BitVec.ofNat 32 (decodeNat (readBytes mem phdr 4))
  pOffset := BitVec.ofNat 64 (decodeNat (readBytes mem (phdr + 8) 8))
  pVaddr := BitVec.ofNat 64 (decodeNat (readBytes mem (phdr + 16) 8))
  pPaddr := BitVec.ofNat 64 (decodeNat (readBytes mem (phdr + 24) 8))
  pFilesz := BitVec.ofNat 64 (decodeNat (readBytes mem (phdr + 32) 8))
  pMemsz := BitVec.ofNat 64 (decodeNat (readBytes mem (phdr + 40) 8))
  pAlign := BitVec.ofNat 64 (decodeNat (readBytes mem (phdr + 48) 8))

/-- `sizeof(Elf64_Ehdr)`. -/
def ehdrSize : Nat := 64

/-- `sizeof(Elf64_Phdr)`. -/
def phdrSize : Nat := 56

/-- `PT_LOAD`. -/
def ptLoad : BitVec 32 := 1

/-- `is_image_valid`. -/
def isImageValid (mem : Bytes) (hdr : BitVec 64) : Bool :=
  mem hdr = 0x7F && mem (hdr + 1) = 0x45 && mem (hdr + 2) = 0x4C && mem (hdr + 3) = 0x46

/-- The address of `phdr[i]`. -/
def phdrPtr (mem : Bytes) (buf : BitVec 64) (i : Nat) : BitVec 64 :=
  buf + (ehdrAt mem buf).ePhoff + BitVec.ofNat 64 (phdrSize * i)

/-- The program headers of the image at `buf`. -/
def phdrs (mem : Bytes) (buf : BitVec 64) : List Elf64Phdr :=
  (List.range (ehdrAt mem buf).ePhnum.toNat).map fun i => phdrAt mem (phdrPtr mem buf i)

/-- The variables `align`, `begin` and `end` of `load`. -/
structure Bounds where
  align : BitVec 32
  beginAddr : BitVec 64
  endAddr : BitVec 64

def Bounds.init : Bounds := ⟨4096, 18446744073709551615, 0⟩

/-- A round of the first loop of `load`. -/
def Bounds.step (b : Bounds) (current : Elf64Phdr) : Bounds :=
  if current.pType ≠ ptLoad then b
  else
    let align :=
      if current.pAlign > b.align.setWidth 64 then current.pAlign.setWidth 32 else b.align
    let phdrBegin := current.pVaddr &&& (~~~(align - 1)).setWidth 64
    let beginAddr := if b.beginAddr > phdrBegin then phdrBegin else b.beginAddr
    let phdrEnd := (current.pVaddr + current.pMemsz) &&& (~~~(align - 1)).setWidth 64
    let endAddr := if b.endAddr < phdrEnd then phdrEnd else b.endAddr
    { align, beginAddr, endAddr }

/-- The bounds after the first loop. -/
def bounds (mem : Bytes) (buf : BitVec 64) : Bounds := (phdrs mem buf).foldl Bounds.step .init

/-- `page_count`. -/
def Bounds.pageCount (b : Bounds) : BitVec 64 :=
  (b.endAddr - b.beginAddr) / BitVec.ofNat 64 efiPageSize

/-- `memmove` of the standard: the bytes at `src` are read before any is written. -/
def memmove (dst src size : BitVec 64) (mem : Bytes) : Bytes := fun a =>
  if a - dst < size then mem (src + (a - dst)) else mem a

/-- A call of `memmove`: where to, and which bytes. -/
abbrev Copy := BitVec 64 × List UInt8

/-- The second loop of `load` from `i` on, with a bound on its rounds. It reads the headers from the
memory as it is. -/
def copyLoop (buf phdr addr beginAddr : BitVec 64) : Nat → Nat → Bytes → Bytes × List Copy
  | 0, _, mem => (mem, [])
  | fuel + 1, i, mem =>
    if i < (ehdrAt mem buf).ePhnum.toNat then
      let current := phdrAt mem (phdr + BitVec.ofNat 64 (phdrSize * i))
      if current.pType ≠ ptLoad then copyLoop buf phdr addr beginAddr fuel (i + 1) mem
      else
        let pAddr := addr + current.pPaddr - beginAddr
        let src := buf + current.pOffset
        let rest := copyLoop buf phdr addr beginAddr fuel (i + 1)
          (memmove pAddr src current.pFilesz mem)
        (rest.1, (pAddr, readBytes mem src current.pFilesz.toNat) :: rest.2)
    else (mem, [])

/-- What `load` has done when it returns, and its `page_count`. -/
structure Loaded where
  entryAddr : BitVec 64
  pageCount : BitVec 64
  copies : List Copy
  mem : Bytes
  tables : Tables

/-- `load`; `e_phnum` has 16 bits, which bounds the rounds of the second loop. -/
def load (kernelStart addr : BitVec 64) (tables : Tables) (mem : Bytes) (buf : BitVec 64) :
    Except Fault (Option Loaded) :=
  if !isImageValid mem buf then .ok none
  else do
    let phdr := buf + (ehdrAt mem buf).ePhoff
    let b := bounds mem buf
    let tables ← tables.mapPages kernelStart addr b.pageCount 0b10
    let copied := copyLoop buf phdr addr b.beginAddr (2 ^ 16) 0 mem
    pure (some {
      entryAddr := addr + (ehdrAt copied.1 buf).eEntry - b.beginAddr - kernelStart
      pageCount := b.pageCount
      copies := copied.2
      mem := copied.1
      tables })

/-! ## The segments -/

/-- The segments that are loaded. -/
def segments (hs : List Elf64Phdr) : List Elf64Phdr := hs.filter fun h => h.pType = ptLoad

theorem segments_cons_of_eq (htype : h.pType = ptLoad) (hs : List Elf64Phdr) :
    segments (h :: hs) = h :: segments hs := List.filter_cons_of_pos (by simpa using htype)

theorem segments_cons_of_ne (htype : h.pType ≠ ptLoad) (hs : List Elf64Phdr) :
    segments (h :: hs) = segments hs := List.filter_cons_of_neg (by simpa using htype)

def PowerOfTwo (x : BitVec 64) : Prop := ∃ k, x.toNat = 2 ^ k

/-- A well-formed image of `size` bytes at `buf`, with physical addresses `base` below the virtual
ones. -/
structure Image (mem : Bytes) (buf : BitVec 64) (size : Nat) (base : BitVec 64) : Prop where
  valid : isImageValid mem buf = true
  buffer : buf.toNat + size ≤ 2 ^ 64
  header : ehdrSize ≤ size
  table : (ehdrAt mem buf).ePhoff.toNat + phdrSize * (ehdrAt mem buf).ePhnum.toNat ≤ size
  inFile : ∀ s ∈ segments (phdrs mem buf), s.pOffset.toNat + s.pFilesz.toNat ≤ size
  filesz_le : ∀ s ∈ segments (phdrs mem buf), s.pFilesz ≤ s.pMemsz
  paddr_eq : ∀ s ∈ segments (phdrs mem buf), s.pPaddr = s.pVaddr - base
  align : ∀ s ∈ segments (phdrs mem buf), PowerOfTwo s.pAlign

/-! ## Headers in memory -/

/-- The two memories agree on `size` bytes from `start` on. -/
def SameOn (mem mem' : Bytes) (start : BitVec 64) (size : Nat) : Prop :=
  ∀ i < size, mem' (start + BitVec.ofNat 64 i) = mem (start + BitVec.ofNat 64 i)

section
variable {mem mem' : Bytes} {buf : BitVec 64} {size : Nat}

theorem SameOn.bytes (h : SameOn mem mem' buf size) (ho : o + n ≤ size) :
    readBytes mem' (buf + BitVec.ofNat 64 o) n = readBytes mem (buf + BitVec.ofNat 64 o) n := by
  apply List.map_congr_left
  intro i hi
  have hlt := List.mem_range.mp hi
  rw [BitVec.add_assoc, ← BitVec.ofNat_add]
  exact h _ (by omega)

theorem SameOn.ehdrAt (h : SameOn mem mem' buf size) (hsize : ehdrSize ≤ size) :
    ehdrAt mem' buf = ehdrAt mem buf := by
  rw [ehdrSize] at hsize
  have hentry : readBytes mem' (buf + 24) 8 = readBytes mem (buf + 24) 8 :=
    h.bytes (o := 24) (by omega)
  have hphoff : readBytes mem' (buf + 32) 8 = readBytes mem (buf + 32) 8 :=
    h.bytes (o := 32) (by omega)
  have hphnum : readBytes mem' (buf + 56) 2 = readBytes mem (buf + 56) 2 :=
    h.bytes (o := 56) (by omega)
  rw [Loader.ehdrAt, hentry, hphoff, hphnum]
  rfl

theorem SameOn.phdrAt (h : SameOn mem mem' buf size) (hsize : o + phdrSize ≤ size) :
    phdrAt mem' (buf + BitVec.ofNat 64 o) = phdrAt mem (buf + BitVec.ofNat 64 o) := by
  rw [phdrSize] at hsize
  have hfield (f : BitVec 64) (n : Nat) (hf : f.toNat + n ≤ 56) :
      readBytes mem' (buf + BitVec.ofNat 64 o + f) n =
        readBytes mem (buf + BitVec.ofNat 64 o + f) n := by
    have haddr : buf + BitVec.ofNat 64 o + f = buf + BitVec.ofNat 64 (o + f.toNat) := by
      rw [BitVec.add_assoc, BitVec.ofNat_add, BitVec.ofNat_toNat, BitVec.setWidth_eq]
    rw [haddr]
    exact h.bytes (by omega)
  have htype : readBytes mem' (buf + BitVec.ofNat 64 o) 4 =
      readBytes mem (buf + BitVec.ofNat 64 o) 4 := h.bytes (by omega)
  rw [Loader.phdrAt, htype, hfield 8 8 (by decide), hfield 16 8 (by decide), hfield 24 8 (by decide),
    hfield 32 8 (by decide), hfield 40 8 (by decide), hfield 48 8 (by decide)]
  rfl

theorem SameOn.phdrs (h : SameOn mem mem' buf size) (hsize : ehdrSize ≤ size)
    (htable : (Loader.ehdrAt mem buf).ePhoff.toNat +
      phdrSize * (Loader.ehdrAt mem buf).ePhnum.toNat ≤ size) :
    phdrs mem' buf = phdrs mem buf := by
  have hptr (i : Nat) : phdrPtr mem buf i =
      buf + BitVec.ofNat 64 ((Loader.ehdrAt mem buf).ePhoff.toNat + phdrSize * i) := by
    rw [phdrPtr, BitVec.add_assoc, BitVec.ofNat_add, BitVec.ofNat_toNat, BitVec.setWidth_eq]
  have hptr' (i : Nat) : phdrPtr mem' buf i = phdrPtr mem buf i := by
    rw [phdrPtr, h.ehdrAt hsize]
    rfl
  rw [Loader.phdrs, Loader.phdrs, h.ehdrAt hsize]
  apply List.map_congr_left
  intro i hi
  rw [hptr', hptr]
  apply h.phdrAt
  have hlt : i + 1 ≤ (Loader.ehdrAt mem buf).ePhnum.toNat := List.mem_range.mp hi
  have hmul := Nat.mul_le_mul_left phdrSize hlt
  rw [Nat.mul_succ] at hmul
  omega

end

theorem SameOn.byte {mem mem' : Bytes} (h : SameOn mem mem' buf size) {o x : BitVec 64}
    (hlt : o.toNat + x.toNat < size) : mem' (buf + o + x) = mem (buf + o + x) := by
  have haddr : buf + o + x = buf + BitVec.ofNat 64 (o.toNat + x.toNat) := by
    rw [BitVec.add_assoc, BitVec.ofNat_add, BitVec.ofNat_toNat, BitVec.ofNat_toNat,
      BitVec.setWidth_eq, BitVec.setWidth_eq]
  rw [haddr]
  exact h _ hlt

theorem SameOn.fileBytes {mem mem' : Bytes} (h : SameOn mem mem' buf size) {o n : BitVec 64}
    (hle : o.toNat + n.toNat ≤ size) :
    readBytes mem' (buf + o) n.toNat = readBytes mem (buf + o) n.toNat := by
  have ho : BitVec.ofNat 64 o.toNat = o := by rw [BitVec.ofNat_toNat, BitVec.setWidth_eq]
  have hbytes := h.bytes hle
  rwa [ho] at hbytes

/-! ## Copies -/

section
variable {dst src size : BitVec 64} {mem : Bytes}

theorem memmove_zero (dst src : BitVec 64) (mem : Bytes) : memmove dst src 0 mem = mem := by
  funext a
  exact if_neg (BitVec.not_lt_zero)

theorem sameOn_memmove (hdst : dst.toNat + size.toNat ≤ 2 ^ 64) (hbuf : buf.toNat + n ≤ 2 ^ 64)
    (h : Apart dst size.toNat buf n) : SameOn mem (memmove dst src size mem) buf n := by
  intro i hi
  apply if_neg
  intro hlt
  have hlt' : (buf + BitVec.ofNat 64 i - dst).toNat < size.toNat := hlt
  have haddr : dst + BitVec.ofNat 64 (buf + BitVec.ofNat 64 i - dst).toNat =
      buf + BitVec.ofNat 64 i := by
    rw [BitVec.ofNat_toNat, BitVec.setWidth_eq, BitVec.add_comm, BitVec.sub_add_cancel]
  have hsum := toNat_add_ofNat hdst hlt'
  rw [haddr, toNat_add_ofNat hbuf hi] at hsum
  unfold Apart at h
  omega

end

/-! ## The second loop -/

section
variable {mem : Bytes} {buf addr beginAddr : BitVec 64} {current : Elf64Phdr}
  {rest : List Elf64Phdr}

theorem length_phdrs (mem : Bytes) (buf : BitVec 64) :
    (phdrs mem buf).length = (ehdrAt mem buf).ePhnum.toNat := by
  rw [phdrs, List.length_map, List.length_range]

theorem length_phdrs_le (mem : Bytes) (buf : BitVec 64) : (phdrs mem buf).length ≤ 2 ^ 16 := by
  rw [length_phdrs]
  exact Nat.le_of_lt (ehdrAt mem buf).ePhnum.isLt

theorem phdrs_drop_cons (h : (phdrs mem buf).drop i = current :: rest) :
    i < (ehdrAt mem buf).ePhnum.toNat ∧
      current = phdrAt mem (phdrPtr mem buf i) ∧ (phdrs mem buf).drop (i + 1) = rest := by
  have hlt : i < (phdrs mem buf).length := by
    apply Nat.lt_of_not_le
    intro hle
    rw [List.drop_eq_nil_of_le hle] at h
    cases h
  rw [List.drop_eq_getElem_cons hlt] at h
  obtain ⟨hcurrent, hrest⟩ := List.cons.inj h
  refine ⟨length_phdrs mem buf ▸ hlt, ?_, hrest⟩
  rw [← hcurrent]
  simp only [phdrs, List.getElem_map, List.getElem_range]

/-- A round of the second loop with a segment that is not loaded. -/
theorem copyLoop_skip (h : (phdrs mem buf).drop i = current :: rest)
    (htype : current.pType ≠ ptLoad) (addr beginAddr : BitVec 64) (fuel : Nat) :
    copyLoop buf (buf + (ehdrAt mem buf).ePhoff) addr beginAddr (fuel + 1) i mem =
      copyLoop buf (buf + (ehdrAt mem buf).ePhoff) addr beginAddr fuel (i + 1) mem := by
  obtain ⟨hlt, rfl, -⟩ := phdrs_drop_cons h
  rw [copyLoop, if_pos hlt]
  exact if_pos htype

/-- A round with a segment that is loaded. -/
theorem copyLoop_load (h : (phdrs mem buf).drop i = current :: rest)
    (htype : current.pType = ptLoad) (addr beginAddr : BitVec 64) (fuel : Nat) :
    copyLoop buf (buf + (ehdrAt mem buf).ePhoff) addr beginAddr (fuel + 1) i mem =
      let later := copyLoop buf (buf + (ehdrAt mem buf).ePhoff) addr beginAddr fuel (i + 1)
        (memmove (addr + current.pPaddr - beginAddr) (buf + current.pOffset) current.pFilesz mem)
      (later.1, (addr + current.pPaddr - beginAddr,
        readBytes mem (buf + current.pOffset) current.pFilesz.toNat) :: later.2) := by
  obtain ⟨hlt, rfl, -⟩ := phdrs_drop_cons h
  rw [copyLoop, if_pos hlt]
  exact if_neg (not_not.mpr htype)

theorem copyLoop_end (h : (phdrs mem buf).drop i = []) (phdr : BitVec 64) (fuel : Nat) :
    copyLoop buf phdr addr beginAddr fuel i mem = (mem, []) := by
  cases fuel with
  | zero => rfl
  | succ fuel =>
    have hle : (ehdrAt mem buf).ePhnum.toNat ≤ i := by
      rw [← length_phdrs]
      exact List.drop_eq_nil_iff.mp h
    rw [copyLoop, if_neg (Nat.not_lt.mpr hle)]

end

/-- The address that the second loop copies a segment to. -/
def Elf64Phdr.copyAddr (s : Elf64Phdr) (addr beginAddr : BitVec 64) : BitVec 64 :=
  addr + s.pPaddr - beginAddr

/-- The byte at `a` when a file part has been copied to `dst`, and `b` was there. -/
def Elf64Phdr.byteOver (s : Elf64Phdr) (mem : Bytes) (buf dst a : BitVec 64) (b : UInt8) : UInt8 :=
  if a - dst < s.pFilesz then mem (buf + s.pOffset + (a - dst)) else b

section
variable {mem mem₀ : Bytes} {buf base addr beginAddr : BitVec 64} {rest : List Elf64Phdr}

/-- A copy that keeps clear of the file leaves it as it is, and so does an empty one. -/
theorem SameOn.memmove (h : SameOn mem₀ mem buf n) (hbuf : buf.toNat + n ≤ 2 ^ 64)
    {dst src size : BitVec 64}
    (hclear : size ≠ 0 → dst.toNat + size.toNat ≤ 2 ^ 64 ∧ Apart dst size.toNat buf n) :
    SameOn mem₀ (memmove dst src size mem) buf n := by
  by_cases hzero : size = 0
  · rwa [hzero, memmove_zero]
  · obtain ⟨hwrap, hapart⟩ := hclear hzero
    intro k hk
    rw [sameOn_memmove hwrap hbuf hapart k hk, h k hk]

/-- The bytes of a copy from the file. -/
theorem SameOn.memmove_eq (h : SameOn mem₀ mem buf size) {s : Elf64Phdr}
    (hfile : s.pOffset.toNat + s.pFilesz.toNat ≤ size) (dst a : BitVec 64) :
    Loader.memmove dst (buf + s.pOffset) s.pFilesz mem a = s.byteOver mem₀ buf dst a (mem a) := by
  rw [Loader.memmove, Elf64Phdr.byteOver]
  split
  · next hlt =>
    have hlt' : (a - dst).toNat < s.pFilesz.toNat := hlt
    exact h.byte (by omega)
  · rfl

theorem mem_segments_of_drop {hs : List Elf64Phdr} {s : Elf64Phdr} (h : hs.drop i = s :: rest)
    (htype : s.pType = ptLoad) : s ∈ segments hs :=
  List.mem_filter.mpr ⟨List.mem_of_mem_drop (h ▸ List.mem_cons_self), by simpa using htype⟩

/-- While the copies keep clear of the file, the second loop makes one for each segment, from the
bytes that the file has at first. -/
theorem Image.copyLoop_eq (h : Image mem₀ buf size base) (hsame : SameOn mem₀ mem buf size)
    (hrest : (phdrs mem₀ buf).drop i = rest) (hfuel : rest.length ≤ fuel)
    (hclear : ∀ s ∈ segments rest, s.pFilesz ≠ 0 →
      (s.copyAddr addr beginAddr).toNat + s.pFilesz.toNat ≤ 2 ^ 64 ∧
        Apart (s.copyAddr addr beginAddr) s.pFilesz.toNat buf size) :
    let copied := copyLoop buf (buf + (ehdrAt mem₀ buf).ePhoff) addr beginAddr fuel i mem
    copied.2 = (segments rest).map (fun s =>
        (s.copyAddr addr beginAddr, readBytes mem₀ (buf + s.pOffset) s.pFilesz.toNat)) ∧
      ∀ a, copied.1 a = (segments rest).foldl
        (fun b s => s.byteOver mem₀ buf (s.copyAddr addr beginAddr) a b) (mem a) := by
  have hmem := hsame.phdrs h.header h.table
  have hehdr := hsame.ehdrAt h.header
  induction rest generalizing i fuel mem with
  | nil =>
    rw [← hmem] at hrest
    rw [copyLoop_end hrest]
    exact ⟨rfl, fun _ => rfl⟩
  | cons s rest ih =>
    have hpos : rest.length < fuel := hfuel
    obtain ⟨fuel, rfl⟩ := Nat.exists_eq_succ_of_ne_zero (Nat.ne_zero_of_lt hpos)
    obtain ⟨-, -, hdrop⟩ := phdrs_drop_cons hrest
    have hlength : rest.length ≤ fuel := Nat.le_of_succ_le_succ hfuel
    have hdropped : (phdrs mem buf).drop i = s :: rest := hmem ▸ hrest
    by_cases htype : s.pType = ptLoad
    · have hround := copyLoop_load hdropped htype addr beginAddr fuel
      have hfile := h.inFile s (mem_segments_of_drop hrest htype)
      rw [segments_cons_of_eq htype] at hclear ⊢
      have hmoved := @SameOn.memmove mem mem₀ buf size hsame h.buffer (s.copyAddr addr beginAddr)
        (buf + s.pOffset) s.pFilesz (hclear s List.mem_cons_self)
      obtain ⟨hcopies, hbytes⟩ := ih hmoved hdrop hlength
        (fun t ht => hclear t (List.mem_cons_of_mem s ht)) (hmoved.phdrs h.header h.table)
        (hmoved.ehdrAt h.header)
      rw [hehdr] at hround
      rw [hround, hsame.fileBytes hfile]
      refine ⟨congrArg (_ :: ·) hcopies, fun a => (hbytes a).trans ?_⟩
      rw [hsame.memmove_eq hfile, List.foldl_cons]
    · have hround := copyLoop_skip hdropped htype addr beginAddr fuel
      rw [hehdr] at hround
      rw [segments_cons_of_ne htype] at hclear ⊢
      rw [hround]
      exact ih hsame hdrop hlength hclear hmem hehdr

/-- The first copy that is not empty is of the segment as it is in the file. -/
theorem copyLoop_first {R : Elf64Phdr → Copy → Prop}
    (hrest : (phdrs mem buf).drop i = rest) (hfuel : rest.length ≤ fuel)
    (h : List.Forall₂ R (segments rest)
      (copyLoop buf (buf + (ehdrAt mem buf).ePhoff) addr beginAddr fuel i mem).2)
    (hne : ∃ s ∈ segments rest, s.pFilesz ≠ 0) :
    ∃ s ∈ segments rest, s.pFilesz ≠ 0 ∧ ∃ bytes, R s (s.copyAddr addr beginAddr, bytes) := by
  induction rest generalizing i fuel with
  | nil =>
    obtain ⟨s, hs, -⟩ := hne
    cases hs
  | cons s rest ih =>
    have hpos : rest.length < fuel := hfuel
    obtain ⟨fuel, rfl⟩ := Nat.exists_eq_succ_of_ne_zero (Nat.ne_zero_of_lt hpos)
    obtain ⟨-, -, hdrop⟩ := phdrs_drop_cons hrest
    have hlength : rest.length ≤ fuel := Nat.le_of_succ_le_succ hfuel
    by_cases htype : s.pType = ptLoad
    · rw [segments_cons_of_eq htype] at h hne ⊢
      rw [copyLoop_load hrest htype] at h
      cases h with
      | cons hhead htail =>
        by_cases hzero : s.pFilesz = 0
        · -- an empty copy leaves the memory as it is
          rw [hzero, memmove_zero] at htail
          obtain ⟨t, ht, hsize⟩ := hne
          have hlater : t ∈ segments rest := by
            apply (List.mem_cons.mp ht).resolve_left
            rintro rfl
            exact hsize hzero
          obtain ⟨u, hu, hfirst⟩ := ih hdrop hlength htail ⟨t, hlater, hsize⟩
          exact ⟨u, List.mem_cons_of_mem s hu, hfirst⟩
        · exact ⟨s, List.mem_cons_self, hzero, _, hhead⟩
    · rw [segments_cons_of_ne htype] at h hne ⊢
      rw [copyLoop_skip hrest htype] at h
      exact ih hdrop hlength h hne

end

end Lethe.Loader
