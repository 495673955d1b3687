import Lethe.Libc.Numeral

/-!
# The conversions `d` and `i`

The magnitude of the smallest `int` is computed as an `int`, and so is negative when it is widened.
The sign is put into the buffer last, when there is room for it.
-/

namespace Lethe

namespace Format

/-- The value of the argument. -/
def signedValue (m : LengthModifier) (arg : BitVec 64) : Int :=
  match m with
  | .none => (arg.setWidth 32).toInt
  | .hh => (arg.setWidth 8).toInt
  | .h => (arg.setWidth 16).toInt
  | .l | .ll | .t | .j | .z => arg.toInt

/-- The number that a text of a sign and decimal digits says. -/
def signedNumeral (text : List UInt8) : Option Int :=
  if text.head? = some 0x2D then (numeral 10 text.tail).map fun n : Nat => -(n : Int)
  else if text.head? = some 0x2B then (numeral 10 text.tail).map Int.ofNat
  else (numeral 10 text).map Int.ofNat

/-- Between spaces, the text says the value, with a minus sign exactly when it is negative. -/
def ShowsSigned (out : List UInt8) (value : Int) : Prop :=
  signedNumeral (trim out) = some value ∧ ((trim out).head? = some 0x2D ↔ value < 0)

/-! ## The magnitude -/

theorem toNat_magnitude (value : BitVec w) : (magnitude value).toNat = value.toInt.natAbs := by
  have hlt := value.isLt
  have hcond := value.toInt_eq_toNat_cond
  rw [magnitude, BitVec.slt_eq_decide, BitVec.toInt_zero]
  split
  · next hpos =>
    replace hpos := of_decide_eq_true hpos
    split at hcond <;> omega
  · next hneg =>
    replace hneg : ¬0 < value.toInt := fun h => hneg (decide_eq_true h)
    rw [BitVec.zero_sub, BitVec.toNat_neg]
    by_cases hzero : value.toNat = 0
    · rw [hzero, Nat.sub_zero, Nat.mod_self]
      split at hcond <;> omega
    · rw [Nat.mod_eq_of_lt (by omega)]
      split at hcond <;> omega

theorem toNat_signExtend_magnitude (value : BitVec 32) :
    ((magnitude value).signExtend 64).toNat =
      if value.toInt = -2 ^ 31 then 2 ^ 64 - 2 ^ 31 else value.toInt.natAbs := by
  have hmagnitude := toNat_magnitude value
  have hle := value.le_toInt
  have hlt := value.toInt_lt
  rw [BitVec.toNat_signExtend, BitVec.toNat_setWidth, BitVec.msb_eq_decide, hmagnitude,
    Nat.mod_eq_of_lt (by omega)]
  simp only [decide_eq_true_eq]
  split <;> split <;> omega

/-- The magnitude of the value, as it comes to `ntoa`. -/
def printedMagnitude (m : LengthModifier) (value : Int) : Nat :=
  if m = .none ∧ value = -2 ^ 31 then 2 ^ 64 - 2 ^ 31 else value.natAbs

theorem signedArg_of_int {value : BitVec 32} (hvalue : value.toInt = signedValue m arg)
    (hmin : m = .none ∨ -2 ^ 31 < signedValue m arg)
    (harg : signedArg flags arg = ((magnitude value).signExtend 64, value.slt 0)) :
    (signedArg flags arg).1.toNat = printedMagnitude m (signedValue m arg) ∧
      (signedArg flags arg).2 = decide (signedValue m arg < 0) := by
  rw [harg, ← hvalue, toNat_signExtend_magnitude, BitVec.slt_eq_decide, printedMagnitude]
  refine ⟨?_, rfl⟩
  rw [← hvalue] at hmin
  have hiff : (m = .none ∧ value.toInt = -2 ^ 31) ↔ value.toInt = -2 ^ 31 :=
    ⟨fun h => h.2, fun h => ⟨hmin.resolve_right (by omega), h⟩⟩
  simp only [hiff]

/-- The argument of `ntoa` is the magnitude of the value, but for the smallest `int`. -/
theorem signedArg_printFlags (c : Conversion) (args : List (BitVec 64)) (arg : BitVec 64) :
    (signedArg (c.printFlags args) arg).1.toNat =
        printedMagnitude c.length (signedValue c.length arg) ∧
      (signedArg (c.printFlags args) arg).2 = decide (signedValue c.length arg < 0) := by
  by_cases hlong : ((c.printFlags args).longLong || (c.printFlags args).long) = true
  · have hvalue : signedValue c.length arg = arg.toInt ∧ c.length ≠ .none := by
      cases hm : c.length <;> simp [signedValue, Conversion.printFlags, hm] at hlong ⊢
    rw [signedArg, if_pos hlong, toNat_magnitude, BitVec.slt_eq_decide, printedMagnitude,
      if_neg fun h => hvalue.2 h.1, hvalue.1]
    exact ⟨rfl, rfl⟩
  · have hbyte := (arg.setWidth 8).le_toInt
    have hshort := (arg.setWidth 16).le_toInt
    have hextend (w : Nat) (hw : w ≤ 32) := BitVec.toInt_signExtend_of_le (x := arg.setWidth w) hw
    cases hm : c.length with
    | none => exact signedArg_of_int rfl (.inl rfl) (by simp [signedArg, Conversion.printFlags, hm])
    | h =>
      refine signedArg_of_int (hextend 16 (by decide)) (.inr ?_) ?_
      · exact Int.lt_of_lt_of_le (by decide) hshort
      · simp [signedArg, Conversion.printFlags, hm]
    | hh =>
      refine signedArg_of_int (hextend 8 (by decide)) (.inr ?_) ?_
      · exact Int.lt_of_lt_of_le (by decide) hbyte
      · simp [signedArg, Conversion.printFlags, hm]
    | l | ll | t | j | z => simp [Conversion.printFlags, hm] at hlong

/-! ## The text -/

theorem isDigit_digitChar (flags : PrintFlags) {d : Nat} (h : d < 10) :
    isDigit (NtoaBuf.digitChar flags d) := by
  have hchar : ∀ d < 10, isDigit (NtoaBuf.digitChar {} d) := by decide
  rw [NtoaBuf.digitChar, if_pos h]
  have hd := hchar d h
  rwa [NtoaBuf.digitChar, if_pos h] at hd

theorem isDigit_of_mem_digitChars {flags : PrintFlags}
    (h : c ∈ (NtoaBuf.digitChars flags 10 n value).reverse) : isDigit c := by
  obtain ⟨d, hd, rfl⟩ := List.mem_map.mp (List.mem_reverse.mp h)
  exact isDigit_digitChar flags (lt_of_mem_places (by decide) hd)

section

variable {ds : List UInt8} {n : Nat}

theorem not_mem_of_isDigit (hds : ∀ c ∈ ds, isDigit c) (hc : isDigit c = false) : c ∉ ds := by
  intro h
  have hd := hds c h
  rw [hc] at hd
  cases hd

theorem head?_ne_of_isDigit (hds : ∀ c ∈ ds, isDigit c) (hc : isDigit c = false) :
    ds.head? ≠ some c :=
  fun h => not_mem_of_isDigit hds hc (List.mem_of_head? h)

theorem showsSigned_minus (hds : ∀ c ∈ ds, isDigit c) (hn : numeral 10 ds = some n)
    (before after : Nat) (value : Int) :
    ShowsSigned (List.replicate before 0x20 ++ 0x2D :: ds ++ List.replicate after 0x20) value ↔
      value < 0 ∧ n = value.natAbs := by
  have hspace : (0x20 : UInt8) ∉ 0x2D :: ds := by
    rw [List.mem_cons, not_or]
    exact ⟨by decide, not_mem_of_isDigit hds (by decide)⟩
  rw [ShowsSigned, trim_spaces hspace, signedNumeral, List.head?_cons, if_pos rfl, List.tail_cons,
    hn, Option.map_some, Option.some_inj]
  simp only [true_iff]
  omega

theorem showsSigned_plus (hds : ∀ c ∈ ds, isDigit c) (hn : numeral 10 ds = some n)
    (before after : Nat) (value : Int) :
    ShowsSigned (List.replicate before 0x20 ++ 0x2B :: ds ++ List.replicate after 0x20) value ↔
      ¬value < 0 ∧ n = value.natAbs := by
  have hspace : (0x20 : UInt8) ∉ 0x2B :: ds := by
    rw [List.mem_cons, not_or]
    exact ⟨by decide, not_mem_of_isDigit hds (by decide)⟩
  have hminus : ¬some (0x2B : UInt8) = some 0x2D := by decide
  rw [ShowsSigned, trim_spaces hspace, signedNumeral, List.head?_cons, if_neg hminus, if_pos rfl,
    List.tail_cons, hn, Option.map_some, Option.some_inj]
  simp only [hminus, false_iff, Int.ofNat_eq_natCast]
  omega

theorem showsSigned_digits (hds : ∀ c ∈ ds, isDigit c) (hn : numeral 10 ds = some n)
    (before after : Nat) (value : Int) :
    ShowsSigned (List.replicate before 0x20 ++ ds ++ List.replicate after 0x20) value ↔
      ¬value < 0 ∧ n = value.natAbs := by
  have hminus := head?_ne_of_isDigit hds (c := 0x2D) (by decide)
  have hplus := head?_ne_of_isDigit hds (c := 0x2B) (by decide)
  rw [ShowsSigned, trim_spaces (not_mem_of_isDigit hds (by decide)), signedNumeral, if_neg hminus,
    if_neg hplus, hn, Option.map_some, Option.some_inj]
  simp only [hminus, false_iff, Int.ofNat_eq_natCast]
  omega

/-- The sign in front of the digits says whether the value is negative. -/
theorem showsSigned_signMark (hds : ∀ c ∈ ds, isDigit c) (hn : numeral 10 ds = some n)
    (flags : PrintFlags) (before after : Nat) (v : Int) :
    ShowsSigned (List.replicate before 0x20 ++ ((signMark flags (decide (v < 0))).reverse ++ ds) ++
      List.replicate after 0x20) v ↔ n = v.natAbs := by
  by_cases hneg : v < 0
  · rw [signMark, decide_eq_true hneg, if_pos rfl, List.reverse_singleton, List.singleton_append,
      showsSigned_minus hds hn]
    exact and_iff_right hneg
  · rw [signMark, decide_eq_false hneg, if_neg Bool.false_ne_true]
    split
    · rw [List.reverse_singleton, List.singleton_append, showsSigned_plus hds hn]
      exact and_iff_right hneg
    split
    · rw [List.reverse_singleton, ← List.append_assoc, ← List.replicate_succ',
        showsSigned_digits hds hn]
      exact and_iff_right hneg
    · rw [List.reverse_nil, List.nil_append, showsSigned_digits hds hn]
      exact and_iff_right hneg

end

/-- What is printed says the value when the sign has found room and the magnitude is right. -/
theorem showsSigned_number {flags : PrintFlags} (hhash : flags.hash = false) (value : BitVec 64)
    (width precision : BitVec 32) (v : Int) (before after : Nat) :
    ShowsSigned (List.replicate before 0x20 ++ ((numberChars value.toNat flags 10 width precision
        (decide (v < 0))).take ntoaMax).reverse ++ List.replicate after 0x20) v ↔
      (v < 0 → fillCount flags width precision (decide (v < 0)) < ntoaMax) ∧
        value.toNat = v.natAbs := by
  have hlt := value.isLt
  have hle : valueCount value.toNat flags 10 ≤ 20 := by
    rw [valueCount]
    split
    · exact Nat.zero_le _
    · exact digitCount_le (by decide) (by decide) (Nat.lt_trans hlt (by decide))
  have hcount : printedCount value.toNat flags 10 width precision (decide (v < 0)) =
      min (max (valueCount value.toNat flags 10) (fillCount flags width precision (decide (v < 0))))
        ntoaMax := by
    rw [printedCount, keptCount, hhash]
    rfl
  have hmark : hashMark flags 10 = [] := by
    rw [hashMark, hhash]
    rfl
  rw [numberChars, hcount, hmark, List.nil_append]
  generalize hfill : fillCount flags width precision (decide (v < 0)) = fill
  have hmax : ntoaMax = 48 := rfl
  generalize hn : min (max (valueCount value.toNat flags 10) fill) ntoaMax = n
  have hpow : value.toNat < 10 ^ n := by
    have hvalue := lt_pow_valueCount flags (by decide : 1 < 10) value.toNat
    exact Nat.lt_of_lt_of_le hvalue (Nat.pow_le_pow_right (by decide) (by omega))
  have hnumeral := numeral_digitChars flags (by decide : 0 < 10) (by decide) n value.toNat
  rw [Nat.mod_eq_of_lt hpow] at hnumeral
  have hds : ∀ c ∈ (NtoaBuf.digitChars flags 10 n value.toNat).reverse, isDigit c :=
    fun c hc => isDigit_of_mem_digitChars hc
  have hlen := NtoaBuf.length_digitChars flags 10 n value.toNat
  by_cases hroom : fill < ntoaMax
  · have htake : (NtoaBuf.digitChars flags 10 n value.toNat ++ signMark flags (decide (v < 0))).take
        ntoaMax = NtoaBuf.digitChars flags 10 n value.toNat ++ signMark flags (decide (v < 0)) := by
      have hsign : (signMark flags (decide (v < 0))).length ≤ 1 := by
        rw [signMark]
        repeat' split
        all_goals decide
      apply List.take_of_length_le
      rw [List.length_append, hlen]
      omega
    rw [htake, List.reverse_append, showsSigned_signMark hds hnumeral]
    exact (and_iff_right fun _ => hroom).symm
  · rw [List.take_append_of_le_length (by omega), List.take_of_length_le (by omega),
      showsSigned_digits hds hnumeral]
    omega

/-- The digits up to which a negative number is filled with zeros. -/
def Conversion.signedFill (c : Conversion) (args : List (BitVec 64)) : Nat :=
  if c.precision.isSome then (c.precisionRead args).toNat
  else if .zero ∈ c.flags then (c.widthRead args).toNat - 1
  else 0

/-- The value is not the smallest `int`, and when it is negative the zeros in front of it leave a
place for the sign. -/
def Conversion.SignedFits (c : Conversion) (args : List (BitVec 64)) (value : Int) : Prop :=
  ¬(c.length = .none ∧ value = -2 ^ 31) ∧
    (value < 0 → c.left args = false → c.signedFill args < ntoaMax)

theorem Conversion.fillCount_negative (c : Conversion) (args : List (BitVec 64)) :
    fillCount (c.printFlags args) (c.widthRead args) (c.precisionRead args) true =
      if c.left args then 0 else c.signedFill args := by
  rw [fillCount, zerosWidth, printFlags, signedFill]
  cases hleft : c.left args with
  | true => rfl
  | false =>
    simp only [Bool.false_eq_true, if_false, Bool.and_eq_true, decide_eq_true_eq]
    cases hprecision : c.precision with
    | some field => simp
    | none =>
      have hzero := precisionRead_of_none hprecision args
      by_cases hzeropad : PrintFlag.zero ∈ c.flags
      · by_cases hwidth : c.widthRead args = 0#32
        · simp [hzero, hzeropad, hwidth]
        · have hsub : (c.widthRead args - 1#32).toNat = (c.widthRead args).toNat - 1 := by
            bv_omega
          simp [hzero, hzeropad, hwidth, hsub]
      · simp [hzero, hzeropad]

theorem integer_of_isSigned (h : isSigned conv) : isInteger conv ∧ integerBase conv = 10 := by
  rw [isSigned, Bool.or_eq_true, decide_eq_true_eq, decide_eq_true_eq] at h
  obtain rfl | rfl := h
  · exact ⟨rfl, rfl⟩
  · exact ⟨rfl, rfl⟩

/-- A format of one `d` or `i` prints its argument for these conversions and values only. -/
theorem vprintf_signed_iff (mem : BitVec 64 → List UInt8) (c : Conversion) (hwf : c.WF)
    (hconv : isSigned c.conv) (args : List (BitVec 64))
    (hargs : args.length = c.width.slots + c.precisionSlots) (arg : BitVec 64) :
    Yields (fun r => ShowsSigned r.1 (signedValue c.length arg))
        (vprintf mem (encode [.conversion c]) (args ++ [arg])) ↔
      c.SignedFits args (signedValue c.length arg) := by
  obtain ⟨hint, hbase⟩ := integer_of_isSigned hconv
  have hhash : (c.printFlags args).hash = false := by
    rw [Conversion.printFlags, hbase]
    simp
  obtain ⟨hmagnitude, hnegative⟩ := signedArg_printFlags c args arg
  obtain ⟨before, after, out, hout, hprint⟩ := vprintf_integer mem hwf hint hargs arg
  have hflags (value : BitVec 64) : numberFlags value (c.printFlags args) = c.printFlags args := by
    rw [numberFlags, ← hhash]
    split <;> rfl
  rw [integerArg, if_pos hconv, hflags, hbase, hnegative] at hout
  have hshows := showsSigned_number hhash (signedArg (c.printFlags args) arg).1 (c.widthRead args)
    (c.precisionRead args) (signedValue c.length arg) before after
  rw [← hout, hmagnitude] at hshows
  rw [hprint, yields_ok, hshows, Conversion.SignedFits, printedMagnitude, and_comm]
  refine and_congr ?_ (imp_congr_right fun hneg => ?_)
  · split
    · next hmin =>
      rw [hmin.2]
      simp [hmin.1]
    · next hmin => exact iff_of_true rfl hmin
  · rw [decide_eq_true hneg, c.fillCount_negative]
    cases c.left args <;> simp [ntoaMax]

set_option maxRecDepth 4000 in
/-- `%05hd` with the argument -7. -/
theorem vprintf_signed_iff_seven :
    Yields (fun r => ShowsSigned r.1 (signedValue .h (-7)))
        (vprintf (fun _ => []) (encode [.conversion
          { flags := [.zero], width := .digits [0x35], length := .h, conv := 0x64 }]) [-7]) ↔
      Conversion.SignedFits
        { flags := [.zero], width := .digits [0x35], length := .h, conv := 0x64 } []
        (signedValue .h (-7)) :=
  vprintf_signed_iff (fun _ => [])
    { flags := [.zero], width := .digits [0x35], length := .h, conv := 0x64 }
    (by decide) rfl [] rfl (-7)

set_option maxRecDepth 4000 in
/-- `%d` with the smallest `int`. -/
theorem vprintf_signed_min :
    ¬∀ (mem : BitVec 64 → List UInt8) (c : Conversion), c.WF → isSigned c.conv →
      ∀ args : List (BitVec 64), args.length = c.width.slots + c.precisionSlots → ∀ arg : BitVec 64,
        Yields (fun r => ShowsSigned r.1 (signedValue c.length arg))
          (vprintf mem (encode [.conversion c]) (args ++ [arg])) := by
  intro h
  have hmin := h (fun _ => []) { conv := 0x64 } (by decide) rfl [] rfl 0x80000000
  have hprint : vprintf (fun _ => []) (encode [.conversion { conv := 0x64 }]) [0x80000000] =
      .ok ([0x2D, 0x31, 0x38, 0x34, 0x34, 0x36, 0x37, 0x34, 0x34, 0x30, 0x37, 0x31, 0x35,
        0x36, 0x32, 0x30, 0x36, 0x37, 0x39, 0x36, 0x38], 21, []) := rfl
  rw [List.nil_append, hprint, yields_ok] at hmin
  exact absurd hmin.1 (by decide)

end Format

end Lethe
