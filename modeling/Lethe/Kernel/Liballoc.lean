import Lethe.Kernel.Machine
import Lethe.Lib.Memory
import Lethe.Libc.Memmove

/-!
# The allocator of `memory/liballoc.c`

The heap consists of ranges of pages that `liballoc_alloc` has handed out. Each is cut into pieces
that start with a `struct boundary_tag`; a piece is linked to its neighbours in the range by
`split_left` and `split_right`, and, when it is free, to others of its size class by `next` and
`prev`. Memory is that of the bytes in which the tags and the blocks of the clients lie.

`PageSource` is the interface that `alloc.c` implements: the pages come from a state of their own.
The debugging output of `DEBUG` is left out, and so are `liballoc_lock` and `liballoc_unlock`, which
do nothing.
-/

namespace Lethe

/-! ## Tags -/

/-- `struct boundary_tag`. -/
structure BoundaryTag where
  magic : BitVec 32
  size : BitVec 32
  realSize : BitVec 32
  /-- An `int`. -/
  index : BitVec 32
  splitLeft : BitVec 64
  splitRight : BitVec 64
  next : BitVec 64
  prev : BitVec 64
  deriving DecidableEq, Repr

/-- `sizeof(struct boundary_tag)`. -/
def tagSize : Nat := 48

/-- `LIBALLOC_MAGIC`. -/
def liballocMagic : BitVec 32 := 0xC001C0DE

/-- `MAXCOMPLETE`. -/
def maxComplete : Int := 5

/-- `MAXEXP`. -/
def maxexp : Nat := 32

/-- `MINEXP`. -/
def minexp : Nat := 8

/-- `l_pageSize`. -/
def lPageSize : BitVec 32 := 4096

/-- `l_pageCount`. -/
def lPageCount : BitVec 32 := 16

namespace BoundaryTag

/-- The tag in memory. -/
def encode (t : BoundaryTag) : List UInt8 :=
  encodeNat 4 t.magic.toNat ++ (encodeNat 4 t.size.toNat ++ (encodeNat 4 t.realSize.toNat ++
    (encodeNat 4 t.index.toNat ++ (encodeNat 8 t.splitLeft.toNat ++ (encodeNat 8 t.splitRight.toNat ++
      (encodeNat 8 t.next.toNat ++ encodeNat 8 t.prev.toNat))))))

def decode (bs : List UInt8) : BoundaryTag where
  magic := BitVec.ofNat 32 (decodeNat (bs.take 4))
  size := BitVec.ofNat 32 (decodeNat ((bs.drop 4).take 4))
  realSize := BitVec.ofNat 32 (decodeNat ((bs.drop 8).take 4))
  index := BitVec.ofNat 32 (decodeNat ((bs.drop 12).take 4))
  splitLeft := BitVec.ofNat 64 (decodeNat ((bs.drop 16).take 8))
  splitRight := BitVec.ofNat 64 (decodeNat ((bs.drop 24).take 8))
  next := BitVec.ofNat 64 (decodeNat ((bs.drop 32).take 8))
  prev := BitVec.ofNat 64 (decodeNat ((bs.drop 40).take 8))

@[simp] theorem length_encode (t : BoundaryTag) : t.encode.length = tagSize := by
  simp only [encode, List.length_append, length_encodeNat]
  rfl

theorem ofNat_decodeNat_encodeNat {w n : Nat} (x : BitVec w) (hw : 256 ^ n = 2 ^ w) :
    BitVec.ofNat w (decodeNat (encodeNat n x.toNat)) = x := by
  rw [decodeNat_encodeNat, hw, Nat.mod_eq_of_lt x.isLt, BitVec.ofNat_toNat, BitVec.setWidth_eq]

theorem decode_encode (t : BoundaryTag) : decode t.encode = t := by
  have hdrop (n k v : Nat) (l : List UInt8) (hk : n ≤ k) :
      (encodeNat n v ++ l).drop k = l.drop (k - n) := by
    rw [List.drop_append, length_encodeNat, List.drop_eq_nil_of_le (by rwa [length_encodeNat]),
      List.nil_append]
  have htake (n v : Nat) (l : List UInt8) : (encodeNat n v ++ l).take n = encodeNat n v :=
    List.take_left' (length_encodeNat n v)
  have hlast : (encodeNat 8 t.prev.toNat).take 8 = encodeNat 8 t.prev.toNat :=
    List.take_of_length_le (Nat.le_of_eq (length_encodeNat 8 _))
  simp [decode, encode, hdrop, htake, hlast, ofNat_decodeNat_encodeNat]

end BoundaryTag

/-! ## The code -/

/-- The ways in which a call does not return. -/
inductive LiballocStop
  /-- In the functions that hand out the pages. -/
  | panic (panic : Panic)
  /-- An access outside `l_freePages` or `l_completePages`. -/
  | outsideArray (index : BitVec 32)
  /-- A write through `NULL`. -/
  | nullAccess
  | doesNotReturn
  deriving DecidableEq, Repr

/-- `liballoc_alloc` and `liballoc_free`; the number of pages is an `int`. -/
structure PageSource (σ : Type) where
  liballocAlloc : BitVec 32 → σ → Except Panic (BitVec 64 × σ)
  liballocFree : BitVec 64 → BitVec 32 → σ → Except Panic σ

/-- The memory, the state of the page source and the globals of the allocator. -/
structure Liballoc (σ : Type) where
  mem : Bytes
  pages : σ
  /-- `l_freePages`. -/
  freePages : Nat → BitVec 64
  /-- `l_completePages`. -/
  completePages : Nat → Int
  /-- `l_initialized`. -/
  initialized : Bool

/-- The loop of `getexp`. -/
def getexpLoop (size : BitVec 32) : Nat → Nat → Nat
  | 0, shift => shift
  | fuel + 1, shift =>
    if shift < maxexp then
      if 1#32 <<< shift > size then shift else getexpLoop size fuel (shift + 1)
    else shift

/-- `getexp`. -/
def getexp (size : BitVec 32) : BitVec 32 :=
  if size < 1#32 <<< minexp then -1
  else BitVec.ofNat 32 (getexpLoop size maxexp minexp) - 1

/-- `getexp(size)`, and `MINEXP` if it is smaller. -/
def bucket (size : BitVec 32) : BitVec 32 :=
  if (getexp size).toInt < minexp then BitVec.ofNat 32 minexp else getexp size

theorem log2_toNat_lt (size : BitVec 32) : Nat.log2 size.toNat < 32 := by
  rcases Nat.eq_zero_or_pos size.toNat with hz | hpos
  · rw [hz]
    decide
  · exact (Nat.log2_lt (by omega)).mpr size.isLt

theorem getexpLoop_eq (size : BitVec 32) (hfuel : 32 ≤ shift + fuel) (hpos : 1 ≤ shift)
    (hshift : shift ≤ 32) : getexpLoop size fuel shift = max shift (Nat.log2 size.toNat + 1) := by
  have hlog := log2_toNat_lt size
  have hmax : maxexp = 32 := rfl
  induction fuel generalizing shift with
  | zero =>
    rw [getexpLoop]
    omega
  | succ fuel ih =>
    rw [getexpLoop, hmax]
    split
    case isFalse => omega
    case isTrue hlt =>
      have hpow : 2 ^ shift < 2 ^ 32 := Nat.pow_lt_pow_right (by decide) hlt
      have hcmp : 1#32 <<< shift > size ↔ size.toNat < 2 ^ shift := by
        rw [gt_iff_lt, BitVec.lt_def, BitVec.toNat_shiftLeft, BitVec.toNat_ofNat, Nat.shiftLeft_eq,
          Nat.mod_eq_of_lt (by omega : 1 < 2 ^ 32), Nat.one_mul, Nat.mod_eq_of_lt hpow]
      simp only [hcmp]
      split
      case isTrue hsize =>
        rcases Nat.eq_zero_or_pos size.toNat with hz | hne
        · rw [hz, Nat.log2_zero]
          omega
        · have := (Nat.log2_lt (by omega)).mpr hsize
          omega
      case isFalse hsize =>
        have hle := (Nat.le_log2 (by have := Nat.two_pow_pos shift; omega)).mpr (Nat.le_of_not_lt hsize)
        rw [ih (by omega) (by omega) (by omega)]
        omega

/-- The class of a size is the place of its highest bit, and at least `MINEXP`. -/
theorem toNat_bucket (size : BitVec 32) : (bucket size).toNat = max minexp (Nat.log2 size.toNat) := by
  have hlog := log2_toNat_lt size
  have hmin : (BitVec.ofNat 32 minexp).toNat = minexp := by decide
  have hcmp : size < 1#32 <<< minexp ↔ size.toNat < 2 ^ minexp := by
    rw [BitVec.lt_def]
    rfl
  have hexp : minexp = 8 := rfl
  unfold bucket getexp
  simp only [hcmp]
  split
  case isTrue hsize =>
    rw [if_pos (by decide), hmin]
    rcases Nat.eq_zero_or_pos size.toNat with hz | hne
    · rw [hz, Nat.log2_zero]
      omega
    · have := (Nat.log2_lt (by omega)).mpr hsize
      omega
  case isFalse hsize =>
    have hle := (Nat.le_log2 (by have := Nat.two_pow_pos minexp; omega)).mpr (Nat.le_of_not_lt hsize)
    have hval : (BitVec.ofNat 32 (getexpLoop size maxexp minexp) - 1).toNat =
        Nat.log2 size.toNat := by
      rw [getexpLoop_eq size (by decide) (by decide) (by decide), BitVec.toNat_sub,
        BitVec.toNat_ofNat, show (1 : BitVec 32).toNat = 1 from rfl]
      omega
    rw [if_neg, hval]
    · omega
    · rw [BitVec.toInt_eq_toNat_of_lt (by omega), hval]
      omega

theorem bucket_lt (size : BitVec 32) : (bucket size).toNat < maxexp := by
  rw [toNat_bucket]
  exact max_lt (by decide) (log2_toNat_lt size)

namespace Liballoc

variable {σ : Type} (src : PageSource σ) (s : Liballoc σ)

/-- `*tag`. -/
def tag (tag : BitVec 64) : BoundaryTag := .decode (readBytes s.mem tag tagSize)

/-- An assignment to fields of `*tag`. -/
def modifyTag (tag : BitVec 64) (f : BoundaryTag → BoundaryTag) : Liballoc σ :=
  { s with mem := writeBytes s.mem tag (f (s.tag tag)).encode }

/-- `l_freePages[index]`. -/
def freePage (index : BitVec 32) : Except LiballocStop (BitVec 64) :=
  if index.toNat < maxexp then .ok (s.freePages index.toNat) else .error (.outsideArray index)

def setFreePage (index : BitVec 32) (tag : BitVec 64) : Except LiballocStop (Liballoc σ) :=
  if index.toNat < maxexp then
    .ok { s with freePages := Function.update s.freePages index.toNat tag }
  else .error (.outsideArray index)

/-- `l_completePages[index]`. -/
def completePage (index : BitVec 32) : Except LiballocStop Int :=
  if index.toNat < maxexp then .ok (s.completePages index.toNat) else .error (.outsideArray index)

/-- `l_completePages[index] += n`. -/
def addComplete (index : BitVec 32) (n : Int) : Except LiballocStop (Liballoc σ) :=
  if index.toNat < maxexp then
    .ok { s with completePages :=
      Function.update s.completePages index.toNat (s.completePages index.toNat + n) }
  else .error (.outsideArray index)

/-- `insert_tag`. -/
def insertTag (tag : BitVec 64) (index : BitVec 32) : Except LiballocStop (Liballoc σ) := do
  let realIndex := if index.toInt < 0 then bucket ((s.tag tag).realSize - 48) else index
  let s := s.modifyTag tag fun t => { t with index := realIndex }
  let first ← s.freePage realIndex
  let s :=
    if first ≠ 0 then
      let s := s.modifyTag first fun t => { t with prev := tag }
      s.modifyTag tag fun t => { t with next := first }
    else s
  s.setFreePage realIndex tag

/-- The end of `remove_tag`, where the neighbours in the list are linked to each other. -/
def unlinkTag (tag : BitVec 64) : Liballoc σ :=
  let s :=
    if (s.tag tag).prev ≠ 0 then
      s.modifyTag (s.tag tag).prev fun t => { t with next := (s.tag tag).next }
    else s
  let s :=
    if (s.tag tag).next ≠ 0 then
      s.modifyTag (s.tag tag).next fun t => { t with prev := (s.tag tag).prev }
    else s
  s.modifyTag tag fun t => { t with next := 0, prev := 0, index := -1 }

/-- `remove_tag`. -/
def removeTag (tag : BitVec 64) : Except LiballocStop (Liballoc σ) := do
  let first ← s.freePage (s.tag tag).index
  let s ← if first = tag then s.setFreePage (s.tag tag).index (s.tag tag).next else pure s
  pure (s.unlinkTag tag)

/-- `melt_left`. -/
def meltLeft (tag : BitVec 64) : BitVec 64 × Liballoc σ :=
  let left := (s.tag tag).splitLeft
  let s := s.modifyTag left fun t =>
    { t with realSize := t.realSize + (s.tag tag).realSize, splitRight := (s.tag tag).splitRight }
  let right := (s.tag tag).splitRight
  (left, if right ≠ 0 then s.modifyTag right fun t => { t with splitLeft := left } else s)

/-- `absorb_right`. -/
def absorbRight (tag : BitVec 64) : Except LiballocStop (Liballoc σ) := do
  let right := (s.tag tag).splitRight
  let s ← s.removeTag right
  let s := s.modifyTag tag fun t =>
    { t with
      realSize := t.realSize + (s.tag right).realSize, splitRight := (s.tag right).splitRight }
  let next := (s.tag right).splitRight
  pure (if next ≠ 0 then s.modifyTag next fun t => { t with splitLeft := tag } else s)

/-- `split_tag`, without the call of `insert_tag`: the new tag. Its `size` is not written. -/
def cutTag (tag : BitVec 64) : BitVec 64 × Liballoc σ :=
  let size := (s.tag tag).size
  let remainder := (s.tag tag).realSize - 48 - size
  let newTag := tag + 48 + size.setWidth 64
  let right := (s.tag tag).splitRight
  let s := s.modifyTag newTag fun t =>
    { t with
      magic := liballocMagic, realSize := remainder, next := 0, prev := 0
      splitLeft := tag, splitRight := right }
  let s := if right ≠ 0 then s.modifyTag right fun t => { t with splitLeft := newTag } else s
  (newTag, s.modifyTag tag fun t =>
    { t with splitRight := newTag, realSize := t.realSize - remainder })

/-- `split_tag`. -/
def splitTag (tag : BitVec 64) : Except LiballocStop (Liballoc σ) :=
  let (newTag, s) := s.cutTag tag
  s.insertTag newTag (-1)

/-- The number of pages for so many bytes, at least `l_pageCount`. -/
def pageCount (usage : BitVec 32) : BitVec 32 :=
  let pages := if usage % lPageSize ≠ 0 then usage / lPageSize + 1 else usage / lPageSize
  if pages < lPageCount then lPageCount else pages

/-- `allocate_new_tag`. -/
def allocateNewTag (size : BitVec 32) : Except LiballocStop (BitVec 64 × Liballoc σ) := do
  let pages := pageCount (size + 48)
  let (tag, source) ← (src.liballocAlloc pages s.pages).mapError .panic
  let s := { s with pages := source }
  if tag = 0 then pure (0, s)
  else
    pure (tag, s.modifyTag tag fun _ =>
      { magic := liballocMagic, size, realSize := pages * lPageSize, index := -1
        next := 0, prev := 0, splitLeft := 0, splitRight := 0 })

/-- The search of `malloc` along a list of free tags. -/
def findTag (size : BitVec 64) : Nat → BitVec 64 → Except LiballocStop (BitVec 64)
  | 0, _ => .error .doesNotReturn
  | fuel + 1, tag =>
    if tag = 0 then .ok 0
    else if (s.tag tag).realSize.setWidth 64 - 48 ≥ size + 48 then .ok tag
    else findTag size fuel (s.tag tag).next

/-- The tag that `malloc` uses, which is then in no list. -/
def takeTag (size : BitVec 64) : Except LiballocStop (BitVec 64 × Liballoc σ) := do
  let index := bucket (size.setWidth 32)
  let first ← s.freePage index
  let tag ← s.findTag size loopLimit first
  if tag = 0 then s.allocateNewTag src (size.setWidth 32)
  else
    let s ← s.removeTag tag
    if (s.tag tag).splitLeft = 0 ∧ (s.tag tag).splitRight = 0 then
      let s ← s.addComplete index (-1)
      pure (tag, s)
    else pure (tag, s)

/-- `malloc`, behind its initialization. -/
def mallocTag (size : BitVec 64) : Except LiballocStop (BitVec 64 × Liballoc σ) := do
  let (tag, s) ← s.takeTag src size
  if tag = 0 then pure (0, s)
  else
    let s := s.modifyTag tag fun t => { t with size := size.setWidth 32 }
    let remainder := ((s.tag tag).realSize.setWidth 64 - size - 96).setWidth 32
    let s ←
      if 0 < remainder.toInt ∧ 0 ≤ (getexp remainder).toInt then s.splitTag tag else pure s
    pure (tag + 48, s)

/-- The initialization in `malloc`. -/
def init : Liballoc σ :=
  if s.initialized then s
  else { s with freePages := fun _ => 0, completePages := fun _ => 0, initialized := true }

/-- `malloc`. -/
def malloc (size : BitVec 64) : Except LiballocStop (BitVec 64 × Liballoc σ) :=
  s.init.mallocTag src size

/-- The first loop of `free`. -/
def meltLeftLoop : Nat → BitVec 64 → Liballoc σ → Except LiballocStop (BitVec 64 × Liballoc σ)
  | 0, _, _ => .error .doesNotReturn
  | fuel + 1, tag, s =>
    let left := (s.tag tag).splitLeft
    if left ≠ 0 ∧ 0 ≤ (s.tag left).index.toInt then do
      let (tag, s) := s.meltLeft tag
      let s ← s.removeTag tag
      meltLeftLoop fuel tag s
    else pure (tag, s)

/-- The second loop of `free`. -/
def meltRightLoop : Nat → BitVec 64 → Liballoc σ → Except LiballocStop (Liballoc σ)
  | 0, _, _ => .error .doesNotReturn
  | fuel + 1, tag, s =>
    let right := (s.tag tag).splitRight
    if right ≠ 0 ∧ 0 ≤ (s.tag right).index.toInt then do
      let s ← s.absorbRight tag
      meltRightLoop fuel tag s
    else pure s

/-- The end of `free`: the tag goes into a list, or its pages are given back. -/
def releaseTag (tag : BitVec 64) : Except LiballocStop (Liballoc σ) := do
  let index := bucket ((s.tag tag).realSize - 48)
  if (s.tag tag).splitLeft = 0 ∧ (s.tag tag).splitRight = 0 then
    let complete ← s.completePage index
    if complete = maxComplete then
      let pages := pageCount (s.tag tag).realSize
      let source ← (src.liballocFree tag pages s.pages).mapError .panic
      pure { s with pages := source }
    else
      let s ← s.addComplete index 1
      s.insertTag tag index
  else s.insertTag tag index

/-- `free`. -/
def free (ptr : BitVec 64) : Except LiballocStop (Liballoc σ) := do
  let tag := ptr - 48
  if ptr = 0 then pure s
  else if (s.tag tag).magic ≠ liballocMagic then pure s
  else
    let (tag, s) ← meltLeftLoop loopLimit tag s
    let s ← meltRightLoop loopLimit tag s
    s.releaseTag src tag

/-- `liballoc_memset(p, 0, n)`: the counter of its loop is an `int`. -/
def memsetZero (p n : BitVec 64) : Except LiballocStop (Liballoc σ) :=
  if n = 0 then .ok s
  else if p = 0 then .error .nullAccess
  else if n.toNat < 2 ^ 31 then
    .ok { s with mem := writeBytes s.mem p (List.replicate n.toNat 0) }
  else .error .doesNotReturn

/-- `calloc`. -/
def calloc (nobj size : BitVec 64) : Except LiballocStop (BitVec 64 × Liballoc σ) := do
  let realSize := ((nobj * size).setWidth 32).signExtend 64
  let (p, s) ← s.malloc src realSize
  let s ← s.memsetZero p realSize
  pure (p, s)

/-- The loops of `liballoc_memcpy`, which copy `k` units of `w` bytes. -/
def copyUnits (w : Nat) : Nat → BitVec 64 → BitVec 64 → Bytes → Bytes
  | 0, _, _, mem => mem
  | k + 1, dest, src, mem =>
    copyUnits w k (dest + BitVec.ofNat 64 w) (src + BitVec.ofNat 64 w)
      (writeBytes mem dest (readBytes mem src w))

/-- `liballoc_memcpy`: whole words, and then the bytes that are left. -/
def liballocMemcpy (s1 s2 n : BitVec 64) : Except LiballocStop (Liballoc σ) :=
  if n = 0 then .ok s
  else if s1 = 0 then .error .nullAccess
  else
    let words := n.toNat / 4
    let mem := copyUnits 4 words s1 s2 s.mem
    let done := BitVec.ofNat 64 (4 * words)
    .ok { s with mem := copyUnits 1 (n.toNat % 4) (s1 + done) (s2 + done) mem }

/-- `realloc`. -/
def realloc (p size : BitVec 64) : Except LiballocStop (BitVec 64 × Liballoc σ) := do
  if size = 0 then
    let s ← s.free src p
    pure (0, s)
  else if p = 0 then s.malloc src size
  else
    let tagged := (s.tag (p - 48)).size.signExtend 64
    let realSize := if tagged > size then (size.setWidth 32).signExtend 64 else tagged
    let (ptr, s) ← s.malloc src size
    let s ← s.liballocMemcpy ptr p realSize
    let s ← s.free src p
    pure (ptr, s)

end Liballoc

end Lethe
