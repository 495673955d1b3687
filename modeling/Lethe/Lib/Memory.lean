import Mathlib.Algebra.Group.Nat.Defs
import Mathlib.Data.List.Basic
import Mathlib.Logic.Function.Basic
import Mathlib.Tactic.Common
import Lethe.Lib.Places

/-!
# Records in a memory of bytes

`readBytes` and `writeBytes` access a range of a memory that wraps around at the end of its address
space. A range that lies within the address space (`InSpace`) holds what was written to it, and what
is written to another one that is `Apart` from it leaves it alone. `encodeNat` and `decodeNat` go
between numbers and their bytes in little-endian order.
-/

namespace Lethe

variable {w : Nat} {β : Type u} {mem : BitVec w → β} {a b x : BitVec w} {bs : List β} {n m : Nat}

/-- The `n` bytes from `a` on. -/
def readBytes (mem : BitVec w → β) (a : BitVec w) (n : Nat) : List β :=
  (List.range n).map fun i => mem (a + BitVec.ofNat w i)

/-- The bytes `bs` are written from `a` on. -/
def writeBytes (mem : BitVec w → β) (a : BitVec w) (bs : List β) : BitVec w → β :=
  fun x => bs.getD (x - a).toNat (mem x)

/-- `n` bytes from `a` on do not reach over the end of the address space. -/
def InSpace (a : BitVec w) (n : Nat) : Prop := a.toNat + n ≤ 2 ^ w

/-- Two ranges that lie within the address space and do not overlap. -/
def Apart (a : BitVec w) (n : Nat) (b : BitVec w) (m : Nat) : Prop :=
  a.toNat + n ≤ b.toNat ∨ b.toNat + m ≤ a.toNat

theorem Apart.symm (h : Apart a n b m) : Apart b m a n := Or.symm h

@[simp] theorem length_readBytes : (readBytes mem a n).length = n := by simp [readBytes]

theorem getElem?_readBytes {i : Nat} (hi : i < n) :
    (readBytes mem a n)[i]? = some (mem (a + BitVec.ofNat w i)) := by
  simp [readBytes, hi]

theorem InSpace.toNat_add {i : Nat} (h : InSpace a n) (hi : i < n) :
    (a + BitVec.ofNat w i).toNat = a.toNat + i := by
  have : a.toNat + i < 2 ^ w := Nat.lt_of_lt_of_le (Nat.add_lt_add_left hi _) h
  rw [BitVec.toNat_add, BitVec.toNat_ofNat, Nat.add_mod_mod, Nat.mod_eq_of_lt this]

/-- What is read depends on the bytes of the range only. -/
theorem readBytes_congr {mem' : BitVec w → β} (h : InSpace a n)
    (hsame : ∀ x : BitVec w, a.toNat ≤ x.toNat → x.toNat < a.toNat + n → mem' x = mem x) :
    readBytes mem' a n = readBytes mem a n := by
  refine List.map_congr_left fun i hi => hsame _ ?_ ?_
  all_goals
    rw [h.toNat_add (List.mem_range.mp hi)]
    have := List.mem_range.mp hi
    omega

/-- The distance from `a` to `x`, around the end of the address space if need be. -/
theorem toNat_distance (a x : BitVec w) : (x - a).toNat =
    if a.toNat ≤ x.toNat then x.toNat - a.toNat else 2 ^ w + x.toNat - a.toNat := by
  have ha := a.isLt
  have hx := x.isLt
  rw [BitVec.toNat_sub]
  split
  · rw [show 2 ^ w - a.toNat + x.toNat = (x.toNat - a.toNat) + 2 ^ w by omega, Nat.add_mod_right,
      Nat.mod_eq_of_lt (by omega)]
  · rw [Nat.mod_eq_of_lt (by omega)]
    omega

/-- A byte outside the range is not written. -/
theorem writeBytes_of_outside (h : InSpace a bs.length)
    (hx : x.toNat < a.toNat ∨ a.toNat + bs.length ≤ x.toNat) : writeBytes mem a bs x = mem x := by
  have hxl := x.isLt
  unfold InSpace at h
  rw [writeBytes, List.getD_eq_getElem?_getD, List.getElem?_eq_none, Option.getD_none]
  rw [toNat_distance]
  split <;> omega

/-- A range holds what was written to it. -/
theorem readBytes_writeBytes (h : InSpace a bs.length) :
    readBytes (writeBytes mem a bs) a bs.length = bs := by
  refine List.ext_getElem? fun i => ?_
  by_cases hi : i < bs.length
  · have hsub : (a + BitVec.ofNat w i - a).toNat = i := by
      have hlt : i < 2 ^ w := by
        unfold InSpace at h
        omega
      rw [BitVec.add_comm, BitVec.add_sub_cancel, BitVec.toNat_ofNat, Nat.mod_eq_of_lt hlt]
    rw [getElem?_readBytes hi, writeBytes, hsub, List.getD_eq_getElem?_getD,
      List.getElem?_eq_getElem hi, Option.getD_some]
  · rw [List.getElem?_eq_none (by simpa using hi), List.getElem?_eq_none (by simpa using hi)]

/-- A range that is apart from the one written. -/
theorem readBytes_writeBytes_of_apart (ha : InSpace a n) (hb : InSpace b bs.length)
    (h : Apart a n b bs.length) : readBytes (writeBytes mem b bs) a n = readBytes mem a n := by
  refine readBytes_congr ha fun x hle hlt => writeBytes_of_outside hb ?_
  unfold Apart at h
  omega

/-- One byte of a range is written. -/
theorem readBytes_update {v : β} {i : Nat} (h : InSpace a n) (hi : i < n) :
    readBytes (Function.update mem (a + BitVec.ofNat w i) v) a n =
      (readBytes mem a n).set i v := by
  refine List.ext_getElem? fun j => ?_
  by_cases hj : j < n
  · rw [getElem?_readBytes hj, List.getElem?_set, Function.update_apply]
    by_cases hij : i = j
    · subst hij
      rw [if_pos rfl, if_pos rfl, if_pos (by simpa using hi)]
    · rw [if_neg hij, getElem?_readBytes hj, if_neg]
      intro heq
      have hnat := congrArg BitVec.toNat heq
      rw [h.toNat_add hi, h.toNat_add hj] at hnat
      omega
  · rw [List.getElem?_eq_none (by simpa using hj), List.getElem?_eq_none (by simpa using hj)]

/-- A range is read in two parts. -/
theorem readBytes_add : readBytes mem a (n + m) =
    readBytes mem a n ++ readBytes mem (a + BitVec.ofNat w n) m := by
  rw [readBytes, List.range_add, List.map_append, List.map_map]
  refine congrArg _ (List.map_congr_left fun i _ => ?_)
  rw [Function.comp_apply, BitVec.add_assoc, ← BitVec.ofNat_add]

/-- A range is written in two parts. -/
theorem writeBytes_append {cs : List β} (h : InSpace a (bs.length + cs.length)) :
    writeBytes (writeBytes mem a bs) (a + BitVec.ofNat w bs.length) cs =
      writeBytes mem a (bs ++ cs) := by
  funext x
  rcases eq_or_ne cs [] with rfl | hne
  · simp [writeBytes]
  have hx := x.isLt
  have hpos := List.length_pos_of_ne_nil hne
  unfold InSpace at h
  have hadd : (a + BitVec.ofNat w bs.length).toNat = a.toNat + bs.length := by
    rw [BitVec.toNat_add, BitVec.toNat_ofNat, Nat.add_mod_mod, Nat.mod_eq_of_lt (by omega)]
  simp only [writeBytes, List.getD_eq_getElem?_getD, List.getElem?_append]
  by_cases hlt : (x - a).toNat < bs.length
  · -- the second part does not reach `x`
    have hnone : cs[(x - (a + BitVec.ofNat w bs.length)).toNat]? = none := by
      refine List.getElem?_eq_none ?_
      rw [toNat_distance] at hlt ⊢
      rw [hadd]
      split at hlt <;> split <;> omega
    rw [if_pos hlt, hnone, Option.getD_none]
  · have hindex : (x - (a + BitVec.ofNat w bs.length)).toNat = (x - a).toNat - bs.length := by
      rw [toNat_distance] at hlt
      rw [toNat_distance, toNat_distance, hadd]
      split at hlt <;> split <;> omega
    rw [if_neg hlt, hindex, List.getElem?_eq_none (Nat.le_of_not_lt hlt), Option.getD_none]

/-- A range that ends within the address space goes on behind its first bytes. -/
theorem InSpace.advance (h : InSpace a (n + m)) : InSpace (a + BitVec.ofNat w n) m := by
  rcases Nat.eq_zero_or_pos m with rfl | hm
  · exact Nat.le_of_lt (BitVec.isLt _)
  · have := h.toNat_add (i := n) (by omega)
    unfold InSpace at *
    omega

theorem Apart.advance (h : Apart a (n + m) b (n + m)) (ha : InSpace a (n + m))
    (hb : InSpace b (n + m)) : Apart (a + BitVec.ofNat w n) m (b + BitVec.ofNat w n) m := by
  rcases Nat.eq_zero_or_pos m with rfl | hm
  · exact Nat.le_total _ _
  · have := ha.toNat_add (i := n) (by omega)
    have := hb.toNat_add (i := n) (by omega)
    unfold Apart at *
    omega

@[simp] theorem writeBytes_nil : writeBytes mem a [] = mem := rfl

/-- Ranges that do not overlap are copied in two parts. -/
theorem copy_add (ha : InSpace a (n + m)) (hb : InSpace b (n + m))
    (h : Apart a (n + m) b (n + m)) :
    writeBytes (writeBytes mem b (readBytes mem a n)) (b + BitVec.ofNat w n)
        (readBytes (writeBytes mem b (readBytes mem a n)) (a + BitVec.ofNat w n) m) =
      writeBytes mem b (readBytes mem a (n + m)) := by
  rcases Nat.eq_zero_or_pos m with rfl | hm
  · rfl
  · have hbn : InSpace b (readBytes mem a n).length := by
      rw [length_readBytes]
      unfold InSpace at *
      omega
    have hapart : Apart (a + BitVec.ofNat w n) m b (readBytes mem a n).length := by
      rw [length_readBytes]
      have := ha.toNat_add (i := n) (by omega)
      unfold Apart at *
      omega
    rw [readBytes_writeBytes_of_apart ha.advance hbn hapart, readBytes_add,
      ← writeBytes_append (by simpa using hb), length_readBytes]

/-- The first bytes of a range. -/
theorem take_readBytes : (readBytes mem a n).take m = readBytes mem a (min m n) := by
  rw [readBytes, readBytes, ← List.map_take, List.take_range]

/-! ## Little-endian numbers -/

/-- The last `n` bytes of a number, the lowest one first. -/
def encodeNat (n value : Nat) : List UInt8 := (places 256 n value).map UInt8.ofNat

/-- The number that the bytes say. -/
def decodeNat (bs : List UInt8) : Nat := Nat.ofDigits 256 (bs.map UInt8.toNat)

@[simp] theorem length_encodeNat (n value : Nat) : (encodeNat n value).length = n := by
  rw [encodeNat, List.length_map, length_places]

theorem decodeNat_encodeNat (n value : Nat) : decodeNat (encodeNat n value) = value % 256 ^ n := by
  have hmap : (encodeNat n value).map UInt8.toNat = places 256 n value := by
    rw [encodeNat, List.map_map]
    refine (List.map_congr_left fun d hd => ?_).trans (List.map_id _)
    exact Nat.mod_eq_of_lt (lt_of_mem_places (by decide) hd)
  rw [decodeNat, hmap, ofDigits_places]

end Lethe
