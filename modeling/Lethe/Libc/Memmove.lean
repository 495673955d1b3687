import Mathlib.Algebra.Group.Nat.Defs
import Mathlib.Logic.Function.Basic
import Mathlib.Tactic.Common

/-!
# Copying memory

`memmove` and `memcpy` of `lethe-libc/string.c`. `Copied` is the invariant of their loops: the places
in `S` hold what was at the source before the call, and no others have been written. A round may go
on with place `k` if its source has not been overwritten yet.
-/

namespace Lethe

/-! ## The code -/

abbrev Bytes := BitVec 64 → UInt8

/-- The loop of `memmove` from the front with the index `i`, when it has `k` rounds to go. -/
def memmoveUp (charDst charSrc : BitVec 64) : Nat → BitVec 64 → Bytes → Bytes
  | 0, _, mem => mem
  | k + 1, i, mem =>
    memmoveUp charDst charSrc k (i + 1) (Function.update mem (charDst + i) (mem (charSrc + i)))

/-- The loop of `memmove` from the back. -/
def memmoveDown (charDst charSrc : BitVec 64) : Nat → Bytes → Bytes
  | 0, mem => mem
  | i + 1, mem =>
    memmoveDown charDst charSrc i (Function.update mem (charDst + BitVec.ofNat 64 i)
      (mem (charSrc + BitVec.ofNat 64 i)))

/-- `memmove`. -/
def memmove (dst src size : BitVec 64) (mem : Bytes) : BitVec 64 × Bytes :=
  if dst < src then (dst, memmoveUp dst src size.toNat 0 mem)
  else (dst, memmoveDown dst src size.toNat mem)

/-- The loop of `memcpy`, in which `i` is an `int`; `none` if it has not ended within the bound of
the model. -/
def memcpyLoop (destp srcp size : BitVec 64) : Nat → BitVec 32 → Bytes → Option Bytes
  | 0, _, _ => none
  | fuel + 1, i, mem =>
    if i.signExtend 64 < size then
      memcpyLoop destp srcp size fuel (i + 1) (Function.update mem (destp + i.signExtend 64)
        (mem (srcp + i.signExtend 64)))
    else some mem

/-- `memcpy`. -/
def memcpy (fuel : Nat) (dest src size : BitVec 64) (mem : Bytes) : Option (BitVec 64 × Bytes) := do
  let mem ← memcpyLoop dest src size fuel 0 mem
  pure (dest, mem)

/-! ## The invariant -/

theorem toNat_add_ofNat {p : BitVec 64} (hp : p.toNat + n ≤ 2 ^ 64) (hi : i < n) :
    (p + BitVec.ofNat 64 i).toNat = p.toNat + i := by
  rw [BitVec.toNat_add, BitVec.toNat_ofNat]
  omega

/-- The places in `S` have been copied. -/
structure Copied (old new : Bytes) (dst src : BitVec 64) (S : Nat → Prop) : Prop where
  moved : ∀ i, S i → new (dst + BitVec.ofNat 64 i) = old (src + BitVec.ofNat 64 i)
  frame : ∀ a, (∀ i, S i → a ≠ dst + BitVec.ofNat 64 i) → new a = old a

namespace Copied
variable {old new : Bytes} {dst src : BitVec 64} {S S' : Nat → Prop} {k n : Nat}

theorem none (h : ∀ i, ¬S i) : Copied old old dst src S where
  moved i hi := absurd hi (h i)
  frame _ _ := rfl

theorem congr (h : Copied old new dst src S) (hS : ∀ i, S' i ↔ S i) : Copied old new dst src S' where
  moved i hi := h.moved i ((hS i).mp hi)
  frame a ha := h.frame a fun i hi => ha i ((hS i).mpr hi)

/-- A round copies place `k`. -/
theorem write (h : Copied old new dst src S) (hdst : dst.toNat + n ≤ 2 ^ 64) (hn : ∀ i, S i → i < n)
    (hk : k < n) (hnew : ¬S k)
    (hread : ∀ i, S i → src + BitVec.ofNat 64 k ≠ dst + BitVec.ofNat 64 i) :
    Copied old (Function.update new (dst + BitVec.ofNat 64 k) (new (src + BitVec.ofNat 64 k)))
      dst src fun i => i = k ∨ S i where
  moved i hi := by
    obtain rfl | hi := hi
    · rw [Function.update_self]
      exact h.frame _ hread
    · have hne : dst + BitVec.ofNat 64 i ≠ dst + BitVec.ofNat 64 k := by
        intro heq
        have hval := congrArg BitVec.toNat heq
        rw [toNat_add_ofNat hdst (hn i hi), toNat_add_ofNat hdst hk] at hval
        have hik : i = k := Nat.add_left_cancel hval
        exact hnew (hik ▸ hi)
      rw [Function.update_of_ne hne]
      exact h.moved i hi
  frame a ha := by
    rw [Function.update_of_ne (ha k (.inl rfl))]
    exact h.frame a fun i hi => ha i (.inr hi)

end Copied

section
variable {old new : Bytes} {dst src : BitVec 64} {n : Nat}

theorem memmoveUp_copied (hdst : dst.toNat + n ≤ 2 ^ 64) (hsrc : src.toNat + n ≤ 2 ^ 64)
    (hlt : dst < src) (k i : Nat) (hki : i + k = n) (h : Copied old new dst src (· < i)) :
    Copied old (memmoveUp dst src k (BitVec.ofNat 64 i) new) dst src (· < n) := by
  induction k generalizing i new with
  | zero =>
    obtain rfl : i = n := hki
    exact h
  | succ k ih =>
    have hread (j : Nat) (hj : j < i) :
        src + BitVec.ofNat 64 i ≠ dst + BitVec.ofNat 64 j := by
      intro heq
      have hval := congrArg BitVec.toNat heq
      rw [toNat_add_ofNat hsrc (by omega), toNat_add_ofNat hdst (by omega)] at hval
      have hle : dst.toNat < src.toNat := hlt
      omega
    have hwrite := h.write hdst (fun j hj => by omega) (by omega) (Nat.lt_irrefl i) hread
    have hnext : BitVec.ofNat 64 i + 1 = BitVec.ofNat 64 (i + 1) := (BitVec.ofNat_add i 1).symm
    rw [memmoveUp, hnext]
    exact ih (i + 1) (by omega) (hwrite.congr fun j => by omega)

theorem memmoveDown_copied (hdst : dst.toNat + n ≤ 2 ^ 64) (hsrc : src.toNat + n ≤ 2 ^ 64)
    (hle : ¬dst < src) (i : Nat) (hi : i ≤ n)
    (h : Copied old new dst src fun j => i ≤ j ∧ j < n) :
    Copied old (memmoveDown dst src i new) dst src (· < n) := by
  induction i generalizing new with
  | zero => exact h.congr fun j => by omega
  | succ i ih =>
    have hread (j : Nat) (hj : i + 1 ≤ j ∧ j < n) :
        src + BitVec.ofNat 64 i ≠ dst + BitVec.ofNat 64 j := by
      intro heq
      have hval := congrArg BitVec.toNat heq
      rw [toNat_add_ofNat hsrc hi, toNat_add_ofNat hdst hj.2] at hval
      have hge : src.toNat ≤ dst.toNat := Nat.le_of_not_lt hle
      omega
    have hwrite := h.write hdst (fun j hj => hj.2) hi (by omega) hread
    exact ih (by omega) (hwrite.congr fun j => by omega)

theorem signExtend_ofNat (h : i < 2 ^ 31) :
    (BitVec.ofNat 32 i).signExtend 64 = BitVec.ofNat 64 i := by
  have hmsb : (BitVec.ofNat 32 i).msb = false := by
    rw [BitVec.msb_eq_decide, decide_eq_false_iff_not, BitVec.toNat_ofNat]
    omega
  rw [BitVec.signExtend_eq_setWidth_of_msb_false hmsb]
  bv_omega

/-- Where the ranges are disjoint, the order does not matter. -/
theorem memcpyLoop_copied {size : BitVec 64} (hdst : dst.toNat + size.toNat ≤ 2 ^ 64)
    (hint : size.toNat < 2 ^ 31)
    (hdisjoint : ∀ i < size.toNat, ∀ j < size.toNat,
      dst + BitVec.ofNat 64 i ≠ src + BitVec.ofNat 64 j)
    (k i : Nat) (hki : i + k = size.toNat) (h : Copied old new dst src (· < i)) :
    ∃ new', memcpyLoop dst src size (k + 1) (BitVec.ofNat 32 i) new = some new' ∧
      Copied old new' dst src (· < size.toNat) := by
  induction k generalizing i new with
  | zero =>
    obtain rfl : i = size.toNat := hki
    refine ⟨new, ?_, h⟩
    rw [memcpyLoop, signExtend_ofNat hint, BitVec.ofNat_toNat, BitVec.setWidth_eq,
      if_neg (BitVec.lt_irrefl size)]
  | succ k ih =>
    have hlt : BitVec.ofNat 64 i < size := by
      rw [BitVec.lt_def, BitVec.toNat_ofNat]
      omega
    have hread (j : Nat) (hj : j < i) :
        src + BitVec.ofNat 64 i ≠ dst + BitVec.ofNat 64 j :=
      (hdisjoint j (by omega) i (by omega)).symm
    have hwrite := h.write hdst (fun j hj => by omega) (by omega) (Nat.lt_irrefl i) hread
    have hnext : BitVec.ofNat 32 i + 1 = BitVec.ofNat 32 (i + 1) := (BitVec.ofNat_add i 1).symm
    rw [memcpyLoop, signExtend_ofNat (by omega), if_pos hlt, hnext]
    exact ih (i + 1) (by omega) (hwrite.congr fun j => by omega)

end

/-! ## The result -/

/-- Each byte of the destination is what was at the source before, and no other has changed. -/
structure Moved (old new : Bytes) (dst src size : BitVec 64) : Prop where
  moved : ∀ i < size.toNat, new (dst + BitVec.ofNat 64 i) = old (src + BitVec.ofNat 64 i)
  frame : ∀ a, (∀ i < size.toNat, a ≠ dst + BitVec.ofNat 64 i) → new a = old a

/-- `memmove` moves, and `memcpy` does if the ranges are disjoint and `size` is an `int`. -/
theorem memmove_moved (old : Bytes) (dst src size : BitVec 64)
    (hdst : dst.toNat + size.toNat ≤ 2 ^ 64) (hsrc : src.toNat + size.toNat ≤ 2 ^ 64) :
    (∃ new, memmove dst src size old = (dst, new) ∧ Moved old new dst src size) ∧
    ((∀ i < size.toNat, ∀ j < size.toNat, dst + BitVec.ofNat 64 i ≠ src + BitVec.ofNat 64 j) →
      size.toNat < 2 ^ 31 →
      ∃ fuel new, memcpy fuel dst src size old = some (dst, new) ∧ Moved old new dst src size) := by
  have hnone : Copied old old dst src (· < 0) := .none Nat.not_lt_zero
  constructor
  · rw [memmove]
    split
    · next hlt =>
      have h := memmoveUp_copied hdst hsrc hlt size.toNat 0 (Nat.zero_add _) hnone
      exact ⟨_, rfl, h.moved, h.frame⟩
    · next hle =>
      have hnone' : Copied old old dst src fun j => size.toNat ≤ j ∧ j < size.toNat :=
        .none fun i hi => Nat.not_lt.mpr hi.1 hi.2
      have h := memmoveDown_copied hdst hsrc hle size.toNat (Nat.le_refl _) hnone'
      exact ⟨_, rfl, h.moved, h.frame⟩
  · intro hdisjoint hint
    obtain ⟨new, hnew, h⟩ :=
      memcpyLoop_copied hdst hint hdisjoint size.toNat 0 (Nat.zero_add _) hnone
    have hloop : memcpyLoop dst src size (size.toNat + 1) 0 old = some new := hnew
    refine ⟨size.toNat + 1, new, ?_, h.moved, h.frame⟩
    rw [memcpy, hloop]
    rfl

/-- Three bytes that are moved on by one. -/
theorem memmove_moved_overlap :
    (∃ new, memmove 1 0 3 (fun a => UInt8.ofBitVec (a.setWidth 8)) = (1, new) ∧
      Moved (fun a => UInt8.ofBitVec (a.setWidth 8)) new 1 0 3) ∧
    ∃ fuel new, memcpy fuel 8 0 3 (fun a => UInt8.ofBitVec (a.setWidth 8)) = some (8, new) ∧
      Moved (fun a => UInt8.ofBitVec (a.setWidth 8)) new 8 0 3 :=
  ⟨(memmove_moved _ 1 0 3 (by decide) (by decide)).1,
    (memmove_moved _ 8 0 3 (by decide) (by decide)).2 (by decide) (by decide)⟩

end Lethe
