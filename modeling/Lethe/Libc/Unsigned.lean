import Mathlib.Tactic.Simps.Basic
import Lethe.Libc.Numeral

/-!
# The conversions `u`, `x`, `X`, `o` and `b`

With `#`, digits are taken off a number that is as long as the width, for the mark to have a place.
Where they are not zeros that stand in front of it the number is another one. The buffer ends behind
48 characters, the digits of a large number in base 2 and the mark included.
-/

namespace Lethe

namespace Format

/-- The value of the argument. -/
def unsignedValue (m : LengthModifier) (arg : BitVec 64) : Nat :=
  match m with
  | .none => (arg.setWidth 32).toNat
  | .hh => (arg.setWidth 8).toNat
  | .h => (arg.setWidth 16).toNat
  | .l | .ll | .t | .j | .z => arg.toNat

/-- The mark of a base. -/
def baseMark (base : Nat) : List UInt8 :=
  if base = 16 then [0x30, 0x78] else if base = 8 then [0x30] else if base = 2 then [0x30, 0x62]
  else []

/-- The text without the mark. -/
def unmark (base : Nat) (text : List UInt8) : List UInt8 :=
  if (baseMark base).isPrefixOf text then text.drop (baseMark base).length else text

/-- Between spaces, the text says the value, behind the mark when `#` is given. -/
def ShowsUnsigned (hash : Bool) (base : Nat) (out : List UInt8) (value : Nat) : Prop :=
  numeral base (if hash then unmark base (trim out) else trim out) = some value

instance {hash : Bool} : Decidable (ShowsUnsigned hash base out value) :=
  inferInstanceAs (Decidable (_ = _))

/-! ## The text -/

variable {base : Nat} {ds : List UInt8} {n : Nat}

theorem numeral_zero_cons (hbase : 0 < base) (h : numeral base (0x30 :: ds) = some n) :
    numeral base ds = some n := by
  have hzero : baseDigit base 0x30 = some 0 := by
    rw [baseDigit, digitValue]
    simp [isDigit, hbase]
  rw [numeral, List.reverse_cons, List.mapM_append, Option.map_eq_some_iff] at h
  obtain ⟨l, hl, rfl⟩ := h
  simp only [List.mapM_cons, hzero, List.mapM_nil, Option.bind_eq_bind, Option.bind_eq_some_iff,
    Option.pure_def, Option.some_inj] at hl
  obtain ⟨ds', hds', _, ⟨_, rfl, _, rfl, rfl⟩, rfl⟩ := hl
  rw [numeral, hds', Option.map_some, Nat.ofDigits_append, Nat.ofDigits_singleton, Nat.mul_zero,
    Nat.add_zero]

theorem not_mem_of_numeral (h : numeral base ds = some n) (hc : baseDigit base c = none) : c ∉ ds :=
  fun hmem => numeral_ne_some hmem hc n h

theorem baseDigit_letter : baseDigit 16 0x78 = none ∧ baseDigit 2 0x62 = none := by decide

/-- A numeral that begins with the zero of base 8 is the same number without it, and one in another
base does not begin with its mark. -/
theorem numeral_unmark (h : numeral base ds = some n) : numeral base (unmark base ds) = some n := by
  rw [unmark]
  split
  · next hmark =>
    obtain ⟨rest, rfl⟩ := List.isPrefixOf_iff_prefix.mp hmark
    rw [List.drop_left]
    by_cases h16 : base = 16
    · subst h16
      exact absurd (List.mem_cons_of_mem _ List.mem_cons_self)
        (not_mem_of_numeral h baseDigit_letter.1)
    by_cases h2 : base = 2
    · subst h2
      exact absurd (List.mem_cons_of_mem _ List.mem_cons_self)
        (not_mem_of_numeral h baseDigit_letter.2)
    by_cases h8 : base = 8
    · subst h8
      exact numeral_zero_cons (by decide) h
    · rwa [baseMark, if_neg h16, if_neg h8, if_neg h2, List.nil_append] at h
  · exact h

theorem baseDigit_space : baseDigit base 0x20 = none := by
  have hspace : digitValue 0x20 = none := by decide
  rw [baseDigit, hspace, Option.filter_none]

theorem showsUnsigned_digits (hn : numeral base ds = some n) (hash : Bool)
    (before after value : Nat) :
    ShowsUnsigned hash base (List.replicate before 0x20 ++ ds ++ List.replicate after 0x20) value ↔
      n = value := by
  rw [ShowsUnsigned, trim_spaces (not_mem_of_numeral hn baseDigit_space)]
  cases hash with
  | false => rw [if_neg Bool.false_ne_true, hn, Option.some_inj]
  | true => rw [if_pos rfl, numeral_unmark hn, Option.some_inj]

theorem showsUnsigned_marked (hn : numeral base ds = some n) (before after value : Nat) :
    ShowsUnsigned true base
        (List.replicate before 0x20 ++ (baseMark base ++ ds) ++ List.replicate after 0x20) value ↔
      n = value := by
  have hspace : (0x20 : UInt8) ∉ baseMark base ++ ds := by
    rw [List.mem_append, not_or]
    refine ⟨?_, not_mem_of_numeral hn baseDigit_space⟩
    rw [baseMark]
    repeat' split
    all_goals decide
  have hunmark : unmark base (baseMark base ++ ds) = ds := by
    rw [unmark, if_pos (List.isPrefixOf_iff_prefix.mpr (List.prefix_append _ _)), List.drop_left]
  rw [ShowsUnsigned, trim_spaces hspace, if_pos rfl, hunmark, hn, Option.some_inj]

/-- The letter of a mark whose zero has found no room. -/
theorem not_showsUnsigned_letter (hbase : base = 16 ∨ base = 2) (hn : numeral base ds = some n)
    (before after value : Nat) :
    ¬ShowsUnsigned true base (List.replicate before 0x20 ++
      ((baseMark base).tail ++ ds) ++ List.replicate after 0x20) value := by
  have hletter : ∃ c, baseMark base = [0x30, c] ∧ baseDigit base c = none ∧ c ≠ 0x20 ∧
    c ≠ 0x30 := by
    obtain rfl | rfl := hbase
    · exact ⟨0x78, rfl, baseDigit_letter.1, by decide, by decide⟩
    · exact ⟨0x62, rfl, baseDigit_letter.2, by decide, by decide⟩
  obtain ⟨c, hmark, hc, hspace, hzero⟩ := hletter
  have hmem : (0x20 : UInt8) ∉ c :: ds := by
    rw [List.mem_cons, not_or]
    exact ⟨hspace.symm, not_mem_of_numeral hn baseDigit_space⟩
  have hnot : ¬(baseMark base).isPrefixOf (c :: ds) = true := by
    rw [hmark, List.isPrefixOf_iff_prefix, List.cons_prefix_cons]
    exact fun h => hzero h.1.symm
  rw [hmark, List.tail_cons, List.singleton_append, ShowsUnsigned, trim_spaces hmem, if_pos rfl,
    unmark, if_neg hnot]
  exact numeral_ne_some List.mem_cons_self hc value

/-- The mark as it is put into the buffer, whole and its first character alone. -/
theorem hashMark_reverse {flags : PrintFlags} (hbase : base = 10 ∨ base = 16 ∨ base = 8 ∨ base = 2)
    (hten : base ≠ 10) (hhash : flags.hash = true) :
    (hashMark flags base).reverse = baseMark base ∧
      (hashMark flags base).length = (if base = 8 then 1 else 2) ∧
      ((hashMark flags base).take 1).reverse =
        if base = 8 then [0x30] else (baseMark base).tail := by
  rw [hashMark, hhash, if_pos rfl]
  obtain rfl | rfl | rfl | rfl := hbase
  · exact absurd rfl hten
  all_goals exact ⟨rfl, rfl, rfl⟩

/-- What is printed says the value when no digit is left out and the mark has found room. -/
theorem showsUnsigned_number {flags : PrintFlags}
    (hbase : base = 10 ∨ base = 16 ∨ base = 8 ∨ base = 2) (hsign : signMark flags false = [])
    {hash : Bool} (hhash : flags.hash = true → hash = true ∧ base ≠ 10) (value : Nat)
    (width precision : BitVec 32) (before after : Nat) :
    ShowsUnsigned hash base (List.replicate before 0x20 ++ ((numberChars value flags base width
        precision false).take ntoaMax).reverse ++ List.replicate after 0x20) value ↔
      value < base ^ printedCount value flags base width precision false ∧
        (flags.hash = true → base ≠ 8 →
          printedCount value flags base width precision false ≠ 47) := by
  have hmax : ntoaMax = 48 := rfl
  have hkept : printedCount value flags base width precision false ≤ 48 :=
    Nat.le_trans keptCount_le (Nat.min_le_right _ _)
  rw [numberChars, hsign, List.append_nil]
  generalize printedCount value flags base width precision false = kept at hkept ⊢
  have hn := numeral_digitChars flags (by omega : 0 < base) (by omega) kept value
  have hmod : value % base ^ kept = value ↔ value < base ^ kept :=
    Nat.mod_eq_iff_lt (Nat.pow_pos (by omega)).ne'
  have hlen := NtoaBuf.length_digitChars flags base kept value
  rw [List.take_append, List.take_of_length_le (by omega), List.reverse_append, hlen]
  cases hflag : flags.hash with
  | false =>
    rw [hashMark, hflag, if_neg Bool.false_ne_true, List.take_nil, List.reverse_nil,
      List.nil_append, showsUnsigned_digits hn, hmod]
    simp
  | true =>
    obtain ⟨rfl, hten⟩ := hhash hflag
    have hmark := hashMark_reverse hbase hten hflag
    simp only [forall_const, hmax]
    by_cases hroom : (hashMark flags base).length ≤ 48 - kept
    · rw [List.take_of_length_le hroom, hmark.1, showsUnsigned_marked hn, hmod, iff_self_and]
      intro _ h8
      rw [hmark.2.1, if_neg h8] at hroom
      omega
    by_cases hfull : kept = 48
    · rw [hfull, Nat.sub_self, List.take_zero, List.reverse_nil, List.nil_append, ← hfull,
        showsUnsigned_digits hn, hmod, iff_self_and]
      omega
    · have h8 : base ≠ 8 := by
        intro h8
        rw [hmark.2.1, if_pos h8] at hroom
        omega
      rw [hmark.2.1, if_neg h8] at hroom
      obtain rfl : kept = 47 := by omega
      rw [hmark.2.2, if_neg h8]
      exact iff_of_false (not_showsUnsigned_letter (by omega) hn before after value)
        fun h => h.2 h8 rfl

/-! ## The conversions -/

namespace Conversion

variable {c : Conversion}

/-- The digits up to which a number is filled with zeros. -/
def unsignedFill (c : Conversion) (args : List (BitVec 64)) : Nat :=
  if c.left args then 0
  else if c.precision.isSome then (c.precisionRead args).toNat
  else if .zero ∈ c.flags then (c.widthRead args).toNat
  else 0

/-- The digits of a number, with the zeros in front of it. -/
def filledDigits (c : Conversion) (args : List (BitVec 64)) (value : Nat) : Nat :=
  let count := if c.precision.isSome ∧ value = 0 then 0 else digitCount (integerBase c.conv) value
  min (max count (c.unsignedFill args)) ntoaMax

/-- The number has a mark. -/
def Marks (c : Conversion) (value : Nat) : Prop :=
  .hash ∈ c.flags ∧ integerBase c.conv ≠ 10 ∧ value ≠ 0

instance : Decidable (Marks c value) := inferInstanceAs (Decidable (_ ∧ _ ∧ _))

/-- The digits that are left when the mark has been put. -/
def keptDigits (c : Conversion) (args : List (BitVec 64)) (value : Nat) : Nat :=
  let filled := c.filledDigits args value
  if c.Marks value ∧ c.precision = none ∧ filled = (c.widthRead args).toNat then
    if integerBase c.conv = 16 ∧ filled ≠ 1 then filled - 2 else filled - 1
  else filled

/-- The digits that are left have the number, and the mark has its place in the buffer. -/
def UnsignedFits (c : Conversion) (args : List (BitVec 64)) (value : Nat) : Prop :=
  value < integerBase c.conv ^ c.keptDigits args value ∧
    (c.Marks value → integerBase c.conv ≠ 8 → c.keptDigits args value ≠ 47)

theorem unsignedArg_printFlags (c : Conversion) (args : List (BitVec 64)) (arg : BitVec 64) :
    (unsignedArg (c.printFlags args) arg).toNat = unsignedValue c.length arg := by
  cases hm : c.length <;> simp [unsignedArg, printFlags, hm, unsignedValue]
  all_goals omega

/-- The flags in `__ntoa`. -/
@[simps zeropad left plus space hash precision]
def unsignedFlags (c : Conversion) (args : List (BitVec 64)) (value : Nat) : PrintFlags where
  zeropad := decide (.zero ∈ c.flags) && !c.precision.isSome
  left := c.left args
  hash := decide (c.Marks value)
  upper := decide (c.conv = 0x58)
  char := decide (c.length = .hh)
  short := decide (c.length = .h ∨ c.length = .hh)
  long := decide (c.length = .l ∨ c.length = .ll ∨ c.length = .t ∨ c.length = .j ∨ c.length = .z)
  longLong := decide (c.length = .ll)
  precision := c.precision.isSome

theorem numberFlags_printFlags (hsigned : isSigned c.conv = false) (args : List (BitVec 64))
    (value : BitVec 64) :
    numberFlags value (c.printFlags args) = c.unsignedFlags args value.toNat := by
  have hzero : value = 0 ↔ value.toNat = 0 := BitVec.toNat_inj.symm
  rw [numberFlags, printFlags, unsignedFlags, hsigned]
  by_cases hvalue : value.toNat = 0
  · rw [if_pos (hzero.mpr hvalue)]
    simp [Marks, hvalue]
  · rw [if_neg (mt hzero.mp hvalue)]
    simp [Marks, hvalue]

theorem zerosWidth_unsignedFlags (c : Conversion) (args : List (BitVec 64)) (value : Nat)
    (width : BitVec 32) : zerosWidth (c.unsignedFlags args value) width false = width := by
  simp [zerosWidth]

theorem fillCount_unsignedFlags (c : Conversion) (args : List (BitVec 64)) (value : Nat) :
    fillCount (c.unsignedFlags args value) (c.widthRead args) (c.precisionRead args) false =
      c.unsignedFill args := by
  rw [fillCount, zerosWidth_unsignedFlags, unsignedFill, unsignedFlags_left]
  by_cases hleft : c.left args = true
  · rw [if_pos hleft, if_pos hleft]
  · rw [if_neg hleft, if_neg hleft, unsignedFlags_zeropad]
    cases hprecision : c.precision with
    | some field => simp
    | none => simp [precisionRead_of_none hprecision]

theorem printedCount_unsignedFlags (c : Conversion) (args : List (BitVec 64)) (value : Nat) :
    printedCount value (c.unsignedFlags args value) (integerBase c.conv) (c.widthRead args)
      (c.precisionRead args) false = c.keptDigits args value := by
  rw [printedCount, zerosWidth_unsignedFlags, fillCount_unsignedFlags, valueCount,
    unsignedFlags_precision]
  change keptCount _ _ _ _ (c.filledDigits args value) = _
  rw [keptDigits, keptCount, unsignedFlags_hash]
  by_cases hmarks : c.Marks value
  · have hpos : c.filledDigits args value ≠ 0 := by
      rw [filledDigits, if_neg fun h => hmarks.2.2 h.2, digitCount, ntoaMax]
      omega
    have hone : c.filledDigits args value - 1 = 0 ↔ c.filledDigits args value = 1 := by omega
    rw [decide_eq_true hmarks, if_pos rfl, hashLen, unsignedFlags_precision]
    cases hprecision : c.precision with
    | some field => simp
    | none =>
      rw [precisionRead_of_none hprecision]
      simp [hmarks, hpos, hone, and_comm]
  · simp [hmarks]

end Conversion

/-- A format of one unsigned conversion prints its argument for these conversions and values
only. -/
theorem vprintf_unsigned_iff (mem : BitVec 64 → List UInt8) (c : Conversion) (hwf : c.WF)
    (hint : isInteger c.conv) (hunsigned : isSigned c.conv = false) (args : List (BitVec 64))
    (hargs : args.length = c.width.slots + c.precisionSlots) (arg : BitVec 64) :
    Yields (fun r => ShowsUnsigned (decide (.hash ∈ c.flags)) (integerBase c.conv) r.1
          (unsignedValue c.length arg))
        (vprintf mem (encode [.conversion c]) (args ++ [arg])) ↔
      c.UnsignedFits args (unsignedValue c.length arg) := by
  have hvalue := c.unsignedArg_printFlags args arg
  obtain ⟨before, after, out, hout, hprint⟩ := vprintf_integer mem hwf hint hargs arg
  rw [integerArg, hunsigned, if_neg Bool.false_ne_true, Conversion.numberFlags_printFlags hunsigned,
    hvalue] at hout
  rw [hprint, yields_ok, hout, showsUnsigned_number, c.printedCount_unsignedFlags,
    Conversion.UnsignedFits, Conversion.unsignedFlags_hash]
  · simp only [decide_eq_true_eq]
  · rw [integerBase]
    repeat' split
    all_goals simp
  · simp [signMark]
  · intro hmarks
    replace hmarks := of_decide_eq_true hmarks
    exact ⟨decide_eq_true hmarks.1, hmarks.2.1⟩

set_option maxRecDepth 4000 in
/-- `%-5ho` with the argument 8. -/
theorem vprintf_unsigned_iff_eight :
    Yields (fun r => ShowsUnsigned false 8 r.1 (unsignedValue .h 8))
        (vprintf (fun _ => []) (encode [.conversion
          { flags := [.minus], width := .digits [0x35], length := .h, conv := 0x6F }]) [8]) ↔
      Conversion.UnsignedFits
        { flags := [.minus], width := .digits [0x35], length := .h, conv := 0x6F } []
        (unsignedValue .h 8) :=
  vprintf_unsigned_iff (fun _ => [])
    { flags := [.minus], width := .digits [0x35], length := .h, conv := 0x6F } (by decide)
    rfl rfl [] rfl 8

set_option maxRecDepth 4000 in
/-- `%#3x` with the argument 0xABC prints `0xc`. -/
theorem vprintf_unsigned_takes_digits :
    ¬∀ (mem : BitVec 64 → List UInt8) (c : Conversion), c.WF → isInteger c.conv →
      isSigned c.conv = false → ∀ args : List (BitVec 64),
        args.length = c.width.slots + c.precisionSlots → ∀ arg : BitVec 64,
          Yields (fun r => ShowsUnsigned (decide (.hash ∈ c.flags)) (integerBase c.conv) r.1
            (unsignedValue c.length arg))
              (vprintf mem (encode [.conversion c]) (args ++ [arg])) := by
  intro h
  have hthree := h (fun _ => []) { flags := [.hash], width := .digits [0x33], conv := 0x78 }
    (by decide) rfl rfl [] rfl 0xABC
  have hprint : vprintf (fun _ => []) (encode [.conversion
      { flags := [.hash], width := .digits [0x33], conv := 0x78 }]) [0xABC] =
      .ok ([0x30, 0x78, 0x63], 3, []) := rfl
  rw [List.nil_append, hprint, yields_ok] at hthree
  exact absurd hthree (by decide)

end Format

end Lethe
