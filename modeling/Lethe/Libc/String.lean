import Mathlib.Algebra.Group.Int.Defs
import Mathlib.Algebra.Group.Nat.Defs
import Mathlib.Data.List.GetD
import Mathlib.Data.Nat.Basic
import Lethe.Lib.Padded

/-!
# Comparing strings

`strlen`, `strncmp` and `strcmp` of `lethe-libc/string.c`. The loop of `strncmp` is left with 0 as
soon as one of the strings ends, and it compares the bytes as `char`s, which have a sign; `strcmp`
compares the lengths first.
-/

namespace Lethe

/-! ## The code -/

/-- A string of bytes that a `NUL` ends. -/
structure CString where
  bytes : List UInt8
  nonzero : ∀ c ∈ bytes, 0 < c
  fits : bytes.length < 2 ^ 64
  deriving DecidableEq

namespace CString

/-- `s[i]`, for an index up to that of the `NUL`. -/
def get (s : CString) (i : Nat) : UInt8 := s.bytes.getD i 0

theorem get_of_lt {s : CString} (h : i < s.bytes.length) : 0 < s.get i := by
  rw [get, List.getD_eq_getElem _ _ h]
  exact s.nonzero _ (List.getElem_mem h)

theorem get_of_le {s : CString} (h : s.bytes.length ≤ i) : s.get i = 0 :=
  List.getD_eq_default _ _ h

theorem get_eq_zero_iff {s : CString} : s.get i = 0 ↔ s.bytes.length ≤ i := by
  constructor
  · intro hzero
    apply Nat.le_of_not_lt
    intro hlt
    exact UInt8.lt_irrefl 0 (hzero ▸ get_of_lt hlt)
  · exact get_of_le

theorem zero_not_mem (s : CString) : 0 ∉ s.bytes := fun h => UInt8.lt_irrefl 0 (s.nonzero 0 h)

theorem ext_bytes {s s' : CString} (h : s.bytes = s'.bytes) : s = s' := by
  cases s
  cases s'
  congr

end CString

/-- The loop of `strlen`, with `s` as an index into `str`. -/
def strlenLoop (str : CString) (s : Nat) : Nat :=
  if str.get s = 0 then s else strlenLoop str (s + 1)
termination_by str.bytes.length - s
decreasing_by
  have hlt : s < str.bytes.length := Nat.lt_of_not_le (mt CString.get_of_le ‹_›)
  exact Nat.sub_succ_lt_self _ _ hlt

/-- `strlen`. -/
def strlen (str : CString) : BitVec 64 := BitVec.ofNat 64 (strlenLoop str 0)

/-- `a < b` for two `char`s. -/
def charLt (a b : UInt8) : Bool := a.toBitVec.slt b.toBitVec

/-- The loop of `strncmp` with the index `i`, when it has `k` rounds to go. -/
def strncmpLoop (s1 s2 : CString) : Nat → Nat → BitVec 32
  | 0, _ => 0
  | k + 1, i =>
    if s1.get i = 0 ∨ s2.get i = 0 then 0
    else if charLt (s1.get i) (s2.get i) then -1
    else if charLt (s2.get i) (s1.get i) then 1
    else strncmpLoop s1 s2 k (i + 1)

/-- `strncmp`. -/
def strncmp (s1 s2 : CString) (n : BitVec 64) : BitVec 32 := strncmpLoop s1 s2 n.toNat 0

/-- `strcmp`. -/
def strcmp (s1 s2 : CString) : BitVec 32 :=
  let s1Len : BitVec 32 := (strlen s1).setWidth 32
  let s2Len : BitVec 32 := (strlen s2).setWidth 32
  if s1Len ≠ s2Len then s1Len - s2Len else strncmp s1 s2 (s1Len.signExtend 64)

/-! ## What they compute -/

theorem strlenLoop_eq (str : CString) (s : Nat) (h : s ≤ str.bytes.length) :
    strlenLoop str s = str.bytes.length := by
  induction hk : str.bytes.length - s generalizing s with
  | zero =>
    have hs : s = str.bytes.length := by omega
    rw [strlenLoop, if_pos (CString.get_of_le hs.ge), hs]
  | succ k ih =>
    have hlt : s < str.bytes.length := by omega
    rw [strlenLoop, if_neg (mt CString.get_eq_zero_iff.mp (Nat.not_le.mpr hlt))]
    exact ih (s + 1) hlt (by omega)

theorem toNat_strlen (str : CString) : (strlen str).toNat = str.bytes.length := by
  rw [strlen, strlenLoop_eq str 0 (Nat.zero_le _), BitVec.toNat_ofNat, Nat.mod_eq_of_lt str.fits]

theorem charLt_irrefl (a : UInt8) : charLt a a = false := decide_eq_false (Int.lt_irrefl _)

/-- Two bytes on the same side of 128. -/
def SameSide (a b : UInt8) : Prop := a < 128 ↔ b < 128

theorem sameSide_iff {a b : UInt8} : SameSide a b ↔ a.toBitVec.msb = b.toBitVec.msb := by
  have hside (c : UInt8) : c.toBitVec.msb = false ↔ c < 128 := by
    rw [BitVec.msb_eq_decide, decide_eq_false_iff_not, Nat.not_le]
    exact Iff.rfl
  rw [SameSide, ← hside, ← hside]
  cases a.toBitVec.msb <;> cases b.toBitVec.msb <;> decide

theorem charLt_iff_of_sameSide {a b : UInt8} (h : SameSide a b) : charLt a b = true ↔ a < b := by
  rw [charLt, BitVec.slt_eq_ult_of_msb_eq (sameSide_iff.mp h)]
  exact decide_eq_true_iff

/-- Across 128 the order of `char`s is the other way round. -/
theorem charLt_iff_of_not_sameSide {a b : UInt8} (h : ¬SameSide a b) :
    charLt a b = true ↔ b < a := by
  have hmsb : a.toBitVec.msb ≠ b.toBitVec.msb := mt sameSide_iff.mpr h
  have hne : a ≠ b := fun hab => hmsb (hab ▸ rfl)
  have hult : a.toBitVec.ult b.toBitVec = true ↔ a < b := decide_eq_true_iff
  rw [charLt, BitVec.slt_eq_ult, bne_iff_ne.mpr hmsb, Bool.true_xor, Bool.not_eq_true',
    Bool.eq_false_iff, Ne, hult]
  constructor
  · intro hab
    exact (UInt8.lt_or_lt_of_ne hne).resolve_left hab
  · intro hba hab
    exact UInt8.lt_asymm hba hab

theorem charLt_of_ne {a b : UInt8} (h : a ≠ b) (hab : charLt a b = false) :
    charLt b a = true := by
  have hle : b.toBitVec.toInt ≤ a.toBitVec.toInt := Int.not_lt.mp (of_decide_eq_false hab)
  have hne : b.toBitVec.toInt ≠ a.toBitVec.toInt := by
    intro heq
    exact h (UInt8.toBitVec_inj.mp (BitVec.eq_of_toInt_eq heq.symm))
  exact decide_eq_true (by omega)

/-- What `strncmp` returns at the first difference. -/
def verdict (a b : UInt8) : BitVec 32 :=
  if a = 0 ∨ b = 0 then 0 else if charLt a b then -1 else 1

section
variable {s1 s2 : CString}

theorem strncmpLoop_same (k i : Nat) (h : ∀ j < i + k, s1.get j = s2.get j) :
    strncmpLoop s1 s2 k i = 0 := by
  induction k generalizing i with
  | zero => rfl
  | succ k ih =>
    have hi : s1.get i = s2.get i := h i (by omega)
    have hrest : strncmpLoop s1 s2 k (i + 1) = 0 := ih (i + 1) fun j hj => h j (by omega)
    rw [strncmpLoop, hi, charLt_irrefl, if_neg Bool.false_ne_true, if_neg Bool.false_ne_true,
      hrest, ite_self]

theorem strncmpLoop_parts {p : Nat} (h : Padded.Parts 0 s1.bytes s2.bytes p) (k i : Nat)
    (hi : i ≤ p) (hp : p < i + k) :
    strncmpLoop s1 s2 k i = verdict (s1.get p) (s2.get p) := by
  induction k generalizing i with
  | zero => exact absurd hp (Nat.not_lt.mpr hi)
  | succ k ih =>
    rw [strncmpLoop]
    obtain rfl | hlt := Nat.eq_or_lt_of_le hi
    · rw [verdict]
      cases hlt : charLt (s1.get i) (s2.get i) with
      | true => rfl
      | false =>
        have hgt : charLt (s2.get i) (s1.get i) = true := charLt_of_ne h.differ hlt
        rw [hgt, if_pos rfl]
    · -- neither string has ended, since then both have
      have hsame : s1.get i = s2.get i := h.same i hlt
      have hnonzero : s2.get i ≠ 0 := by
        intro hzero
        have h2 := CString.get_eq_zero_iff.mp hzero
        have h1 := CString.get_eq_zero_iff.mp (hsame.trans hzero)
        exact h.differ ((CString.get_of_le (h1.trans hi)).trans
          (CString.get_of_le (h2.trans hi)).symm)
      rw [hsame, if_neg (not_or.mpr ⟨hnonzero, hnonzero⟩), charLt_irrefl,
        if_neg Bool.false_ne_true, if_neg Bool.false_ne_true]
      exact ih (i + 1) hlt (by omega)

end

theorem verdict_ne_zero {a b : UInt8} (ha : a ≠ 0) (hb : b ≠ 0) : verdict a b ≠ 0 := by
  rw [verdict, if_neg (not_or.mpr ⟨ha, hb⟩)]
  split <;> decide

/-- With the lengths compared in front of it, `strncmp` tells whether two strings are the same. -/
theorem strlen_strncmp_eq_iff (s1 s2 : CString) :
    (strlen s1 = strlen s2 ∧ strncmp s1 s2 (strlen s1) = 0) ↔ s1 = s2 := by
  constructor
  · rintro ⟨hlen, hzero⟩
    have hlength : s1.bytes.length = s2.bytes.length := by
      rw [← toNat_strlen, hlen, toNat_strlen]
    obtain heq | ⟨p, hparts⟩ := Padded.eq_or_parts s1.zero_not_mem s2.zero_not_mem
    · exact CString.ext_bytes heq
    · have hp : p < s1.bytes.length := by
        apply Nat.lt_of_not_le
        intro hle
        exact hparts.differ ((CString.get_of_le hle).trans
          (CString.get_of_le (hlength ▸ hle)).symm)
      have h1 : s1.get p ≠ 0 := mt CString.get_eq_zero_iff.mp (Nat.not_le.mpr hp)
      have h2 : s2.get p ≠ 0 := mt CString.get_eq_zero_iff.mp (Nat.not_le.mpr (hlength ▸ hp))
      rw [strncmp, toNat_strlen, strncmpLoop_parts hparts _ 0 (Nat.zero_le p) (by omega)] at hzero
      exact absurd hzero (verdict_ne_zero h1 h2)
  · rintro rfl
    exact ⟨rfl, strncmpLoop_same _ _ fun j hj => rfl⟩

/-! ## The sign -/

/-- The sign of an `int` is that of the lexicographic order. -/
structure HasSign (r : BitVec 32) (l l' : List UInt8) : Prop where
  neg : r.toInt < 0 ↔ l < l'
  zero : r.toInt = 0 ↔ l = l'
  pos : 0 < r.toInt ↔ l' < l

/-- Two bytes that `strncmp` compares as the order does: neither string ends here, and they are on
the same side of 128. -/
def Comparable (a b : UInt8) : Prop := a ≠ 0 ∧ b ≠ 0 ∧ SameSide a b

section
variable {l l' : List UInt8} {p : Nat}

theorem hasSign_of_parts (hl : ∀ c ∈ l, 0 < c) (hl' : ∀ c ∈ l', 0 < c)
    (h : Padded.Parts 0 l l' p) {r : BitVec 32} :
    HasSign r l l' ↔ (r.toInt < 0 ↔ l.getD p 0 < l'.getD p 0) ∧ r.toInt ≠ 0 := by
  have hasymm (a b : UInt8) : a < b → ¬b < a := UInt8.lt_asymm
  have hlt := h.lt_iff hasymm hl hl'
  have hgt := h.symm.lt_iff hasymm hl' hl
  constructor
  · intro hsign
    exact ⟨hsign.neg.trans hlt, mt hsign.zero.mp h.ne⟩
  · rintro ⟨hneg, hzero⟩
    refine ⟨hneg.trans hlt.symm, iff_of_false hzero h.ne, ?_⟩
    rw [hgt]
    constructor
    · intro hpos
      exact (UInt8.lt_or_lt_of_ne h.differ).resolve_left (mt hneg.mpr (by omega))
    · intro hab
      have hnot : ¬r.toInt < 0 := mt hneg.mp (UInt8.lt_asymm hab)
      omega

theorem hasSign_verdict_iff (hl : ∀ c ∈ l, 0 < c) (hl' : ∀ c ∈ l', 0 < c)
    (h : Padded.Parts 0 l l' p) :
    HasSign (verdict (l.getD p 0) (l'.getD p 0)) l l' ↔
      Comparable (l.getD p 0) (l'.getD p 0) := by
  rw [hasSign_of_parts hl hl' h, verdict, Comparable, ← and_assoc, ← not_or]
  have hne := h.differ
  generalize l.getD p 0 = a, l'.getD p 0 = b at hne ⊢
  split
  · next hzero => exact iff_of_false (fun h => h.2 rfl) fun h => h.1 hzero
  · next hzero =>
    rw [and_iff_right hzero]
    have hint : (if charLt a b then -1 else 1 : BitVec 32).toInt < 0 ↔ charLt a b = true := by
      cases charLt a b <;> decide
    have hint' : (if charLt a b then -1 else 1 : BitVec 32).toInt ≠ 0 := by
      cases charLt a b <;> decide
    rw [hint, and_iff_left hint']
    constructor
    · intro hlt
      by_contra hside
      rw [charLt_iff_of_not_sameSide hside] at hlt
      obtain hab | hba := UInt8.lt_or_lt_of_ne hne
      · exact UInt8.lt_asymm hab (hlt.mpr hab)
      · exact UInt8.lt_asymm hba (hlt.mp hba)
    · exact charLt_iff_of_sameSide

theorem hasSign_refl : HasSign 0 l l where
  neg := iff_of_false (by decide) (List.lt_irrefl l)
  zero := iff_of_true rfl rfl
  pos := iff_of_false (by decide) (List.lt_irrefl l)

end

/-- `strncmp` is right if the strings are the same below `n`, or where they differ first the bytes
can be compared as `char`s. -/
theorem strncmp_hasSign_iff (s1 s2 : CString) (n : BitVec 64) :
    HasSign (strncmp s1 s2 n) (s1.bytes.take n.toNat) (s2.bytes.take n.toNat) ↔
      ∀ p < n.toNat, Padded.Parts 0 s1.bytes s2.bytes p → Comparable (s1.get p) (s2.get p) := by
  have hpos (s : CString) : ∀ c ∈ s.bytes.take n.toNat, 0 < c :=
    fun c hc => s.nonzero c (List.mem_of_mem_take hc)
  have hmem (s : CString) : 0 ∉ s.bytes.take n.toNat := mt List.mem_of_mem_take s.zero_not_mem
  have hget (s : CString) {j : Nat} (hj : j < n.toNat) :
      (s.bytes.take n.toNat).getD j 0 = s.get j :=
    (Padded.getD_take _ _ _).trans (if_pos hj)
  obtain heq | ⟨p, htake⟩ := Padded.eq_or_parts (hmem s1) (hmem s2)
  · have hzero : strncmp s1 s2 n = 0 := by
      apply strncmpLoop_same
      intro j hj
      rw [Nat.zero_add] at hj
      rw [← hget s1 hj, ← hget s2 hj, heq]
    rw [hzero, heq]
    refine iff_of_true hasSign_refl fun p hp h => ?_
    exact absurd heq (Padded.parts_take.mpr ⟨hp, h⟩).ne
  · obtain ⟨hp, hparts⟩ := Padded.parts_take.mp htake
    have hverdict : strncmp s1 s2 n = verdict (s1.get p) (s2.get p) :=
      strncmpLoop_parts hparts n.toNat 0 (Nat.zero_le p) (by omega)
    have hsign := hasSign_verdict_iff (hpos s1) (hpos s2) htake
    rw [hget s1 hp, hget s2 hp] at hsign
    rw [hverdict, hsign]
    constructor
    · intro h q hq hq'
      rwa [hq'.unique hparts]
    · intro h
      exact h p hp hparts

/-- The length of a string as an `int`. -/
def intLength (s : CString) : BitVec 32 := BitVec.ofNat 32 s.bytes.length

theorem strcmp_eq (s1 s2 : CString) :
    strcmp s1 s2 = if intLength s1 ≠ intLength s2 then intLength s1 - intLength s2
      else strncmp s1 s2 ((intLength s1).signExtend 64) := by
  have hlen (s : CString) : (strlen s).setWidth 32 = intLength s := by
    apply BitVec.eq_of_toNat_eq
    rw [BitVec.toNat_setWidth, toNat_strlen, intLength, BitVec.toNat_ofNat]
  rw [strcmp, hlen, hlen]

/-- `s1` is the shorter one, as far as the difference of the lengths as an `int` tells. -/
def Shorter (s1 s2 : CString) : Prop :=
  2 ^ 31 ≤ ((s1.bytes.length : Int) - s2.bytes.length) % 2 ^ 32

theorem intLength_sub_neg_iff (s1 s2 : CString) :
    (intLength s1 - intLength s2).toInt < 0 ↔ Shorter s1 s2 := by
  rw [Shorter, intLength, intLength, BitVec.toInt_eq_toNat_cond, BitVec.toNat_sub,
    BitVec.toNat_ofNat, BitVec.toNat_ofNat]
  split <;> omega

/-- The difference of two lengths. -/
theorem intLength_sub_hasSign_iff {s1 s2 : CString} (hne : intLength s1 ≠ intLength s2) :
    HasSign (intLength s1 - intLength s2) s1.bytes s2.bytes ↔
      ∀ p, Padded.Parts 0 s1.bytes s2.bytes p → (Shorter s1 s2 ↔ s1.get p < s2.get p) := by
  have hzero : (intLength s1 - intLength s2).toInt ≠ 0 := by
    intro hzero
    have hsub : intLength s1 - intLength s2 = 0 := BitVec.eq_of_toInt_eq hzero
    exact hne (by bv_omega)
  obtain heq | ⟨p, hparts⟩ := Padded.eq_or_parts s1.zero_not_mem s2.zero_not_mem
  · exact absurd (congrArg intLength (CString.ext_bytes heq)) hne
  · rw [hasSign_of_parts s1.nonzero s2.nonzero hparts, and_iff_left hzero, intLength_sub_neg_iff,
      hparts.forall_iff]
    rfl

/-- `strncmp` for the order of the whole strings: their first difference must be below `n`. -/
theorem strncmp_whole_hasSign_iff (s1 s2 : CString) (n : BitVec 64) :
    HasSign (strncmp s1 s2 n) s1.bytes s2.bytes ↔
      ∀ p, Padded.Parts 0 s1.bytes s2.bytes p →
        p < n.toNat ∧ Comparable (s1.get p) (s2.get p) := by
  obtain heq | ⟨p, hparts⟩ := Padded.eq_or_parts s1.zero_not_mem s2.zero_not_mem
  · have hzero : strncmp s1 s2 n = 0 := by
      apply strncmpLoop_same
      intro j hj
      rw [CString.get, heq, CString.get]
    rw [hzero, heq]
    exact iff_of_true hasSign_refl fun p h => absurd rfl h.ne
  · rw [hparts.forall_iff]
    by_cases hp : p < n.toNat
    · rw [strncmp, strncmpLoop_parts hparts n.toNat 0 (Nat.zero_le p) (by omega),
        and_iff_right hp]
      exact hasSign_verdict_iff s1.nonzero s2.nonzero hparts
    · have hzero : strncmp s1 s2 n = 0 := by
        apply strncmpLoop_same
        intro j hj
        exact hparts.same j (by omega)
      rw [hzero]
      exact iff_of_false (fun h => hparts.ne (h.zero.mp rfl)) fun h => hp h.1

/-- `strcmp` is right if the lengths differ as `int`s and where the strings differ first the
shorter one has the smaller byte; or the lengths do not differ, and the bytes there can be compared
as `char`s, below the length when it is an `int`. -/
theorem strcmp_hasSign_iff (s1 s2 : CString) :
    HasSign (strcmp s1 s2) s1.bytes s2.bytes ↔
      if intLength s1 ≠ intLength s2 then
        ∀ p, Padded.Parts 0 s1.bytes s2.bytes p → (Shorter s1 s2 ↔ s1.get p < s2.get p)
      else ∀ p, Padded.Parts 0 s1.bytes s2.bytes p →
        p < ((intLength s1).signExtend 64).toNat ∧ Comparable (s1.get p) (s2.get p) := by
  rw [strcmp_eq]
  split
  · next hne => exact intLength_sub_hasSign_iff hne
  · exact strncmp_whole_hasSign_iff s1 s2 _

/-- When the comparisons of two strings are right. -/
theorem strings_compare_iff (s1 s2 : CString) :
    (∀ n, HasSign (strncmp s1 s2 n) (s1.bytes.take n.toNat) (s2.bytes.take n.toNat) ↔
      ∀ p < n.toNat, Padded.Parts 0 s1.bytes s2.bytes p → Comparable (s1.get p) (s2.get p)) ∧
    (HasSign (strcmp s1 s2) s1.bytes s2.bytes ↔
      if intLength s1 ≠ intLength s2 then
        ∀ p, Padded.Parts 0 s1.bytes s2.bytes p → (Shorter s1 s2 ↔ s1.get p < s2.get p)
      else ∀ p, Padded.Parts 0 s1.bytes s2.bytes p →
        p < ((intLength s1).signExtend 64).toNat ∧ Comparable (s1.get p) (s2.get p)) :=
  ⟨strncmp_hasSign_iff s1 s2, strcmp_hasSign_iff s1 s2⟩

/-- "DS", "DSDT", "b" and "\xc3". -/
def stringDs : CString := ⟨[0x44, 0x53], by simp, by decide⟩
def stringDsdt : CString := ⟨[0x44, 0x53, 0x44, 0x54], by simp, by decide⟩
def stringB : CString := ⟨[0x62], by simp, by decide⟩
def stringLatin : CString := ⟨[0xc3], by simp, by decide⟩

/-- A string and one that begins with it are the same for `strncmp`, whatever the bound; for
`strcmp` a shorter string is in front; and for both a letter is behind a byte from 128 on. -/
theorem strings_compare_wrong :
    strncmp stringDs stringDsdt 4 = 0 ∧
      ¬HasSign (strncmp stringDs stringDsdt 4) (stringDs.bytes.take 4) (stringDsdt.bytes.take 4) ∧
    ¬HasSign (strcmp stringB stringDsdt) stringB.bytes stringDsdt.bytes ∧
    ¬HasSign (strncmp stringB stringLatin 1) (stringB.bytes.take 1) (stringLatin.bytes.take 1) ∧
    ¬HasSign (strcmp stringB stringLatin) stringB.bytes stringLatin.bytes := by
  have hlt {a b : UInt8} {l l' : List UInt8} (h : a < b) : a :: l < b :: l' :=
    List.cons_lt_cons_iff.mpr (.inl h)
  refine ⟨rfl, fun h => ?_, fun h => ?_, fun h => ?_, fun h => ?_⟩
  · exact absurd (h.zero.mp rfl) (by decide)
  · rw [strcmp_eq] at h
    exact absurd (h.pos.mpr (hlt (by decide))) (by decide)
  · exact absurd (h.neg.mpr (hlt (by decide))) (by decide)
  · rw [strcmp_eq] at h
    exact absurd (h.neg.mpr (hlt (by decide))) (by decide)

end Lethe
