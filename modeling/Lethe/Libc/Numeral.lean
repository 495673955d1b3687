import Lethe.Libc.Compose

/-!
# Reading a number back

What a text says in a base, and what an integer conversion prints in these terms: spaces, the sign,
the mark of `FLAGS_HASH` and the digits of the number.
-/

namespace Lethe

namespace Format

/-! ## Numerals -/

/-- The value of a digit. -/
def digitValue (c : UInt8) : Option Nat :=
  if isDigit c then some (c.toNat - 0x30)
  else if 0x61 ≤ c ∧ c ≤ 0x66 then some (c.toNat - 0x61 + 10)
  else if 0x41 ≤ c ∧ c ≤ 0x46 then some (c.toNat - 0x41 + 10)
  else none

/-- The value of a digit of the base. -/
def baseDigit (base : Nat) (c : UInt8) : Option Nat := (digitValue c).filter (· < base)

/-- The value of a string of digits. Without a digit it is 0. -/
def numeral (base : Nat) (text : List UInt8) : Option Nat :=
  (text.reverse.mapM (baseDigit base)).map (Nat.ofDigits base)

/-- The text without the spaces around it. -/
def trim (text : List UInt8) : List UInt8 :=
  ((text.dropWhile (· = 0x20)).reverse.dropWhile (· = 0x20)).reverse

theorem dropWhile_spaces (n : Nat) (text : List UInt8) :
    (List.replicate n 0x20 ++ text).dropWhile (· = 0x20) = text.dropWhile (· = 0x20) := by
  induction n with
  | zero => rfl
  | succ n ih => rw [List.replicate_succ, List.cons_append, List.dropWhile_cons_of_pos (by rfl), ih]

theorem dropWhile_of_not_mem {text : List UInt8} (h : 0x20 ∉ text) :
    text.dropWhile (· = 0x20) = text := by
  cases text with
  | nil => rfl
  | cons c text =>
    refine List.dropWhile_cons_of_neg fun hc => h ?_
    rw [of_decide_eq_true hc]
    exact List.mem_cons_self

theorem trim_spaces {text : List UInt8} (h : 0x20 ∉ text) (before after : Nat) :
    trim (List.replicate before 0x20 ++ text ++ List.replicate after 0x20) = text := by
  rw [trim, List.append_assoc, dropWhile_spaces]
  cases text with
  | nil =>
    have hspaces := dropWhile_spaces after []
    rw [List.append_nil] at hspaces
    rw [List.nil_append, hspaces]
    rfl
  | cons c text =>
    have hc : ¬decide (c = 0x20) = true := fun hc =>
      h (List.mem_cons.mpr (.inl (of_decide_eq_true hc).symm))
    rw [List.cons_append, List.dropWhile_cons, if_neg hc, ← List.cons_append, List.reverse_append,
      List.reverse_replicate, dropWhile_spaces,
      dropWhile_of_not_mem fun hmem => h (List.mem_reverse.mp hmem), List.reverse_reverse]

/-! ## The digits of a number -/

theorem digitValue_digitChar (flags : PrintFlags) {d : Nat} (h : d < 16) :
    digitValue (NtoaBuf.digitChar flags d) = some d := by
  have hchar : ∀ upper : Bool, ∀ d < 16,
      digitValue (NtoaBuf.digitChar { upper } d) = some d := by decide
  exact hchar flags.upper d h

variable {base : Nat}

theorem baseDigit_digitChar (flags : PrintFlags) (hbase : base ≤ 16) {d : Nat} (h : d < base) :
    baseDigit base (NtoaBuf.digitChar flags d) = some d := by
  rw [baseDigit, digitValue_digitChar flags (by omega), Option.filter_some, if_pos (by simpa)]

theorem mapM_map_digitChar (flags : PrintFlags) (hbase : base ≤ 16) {ds : List Nat}
    (h : ∀ d ∈ ds, d < base) :
    (ds.map (NtoaBuf.digitChar flags)).mapM (baseDigit base) = some ds := by
  induction ds with
  | nil => rfl
  | cons d ds ih =>
    obtain ⟨hd, hds⟩ := List.forall_mem_cons.mp h
    rw [List.map_cons, List.mapM_cons, baseDigit_digitChar flags hbase hd, ih hds]
    rfl

/-- The digits that are printed say the number, up to the places that are left out. -/
theorem numeral_digitChars (flags : PrintFlags) (hpos : 0 < base) (hbase : base ≤ 16)
    (n value : Nat) :
    numeral base (NtoaBuf.digitChars flags base n value).reverse = some (value % base ^ n) := by
  rw [numeral, List.reverse_reverse, NtoaBuf.digitChars,
    mapM_map_digitChar flags hbase fun _ h => lt_of_mem_places hpos h, Option.map_some,
    ofDigits_places]

theorem exists_of_mapM_eq_some {f : α → Option β} {l : List α} {l' : List β}
    (h : l.mapM f = some l') : ∀ a ∈ l, ∃ b, f a = some b := by
  induction l generalizing l' with
  | nil => exact fun _ h => absurd h List.not_mem_nil
  | cons a l ih =>
    simp only [List.mapM_cons, Option.bind_eq_bind, Option.bind_eq_some_iff] at h
    obtain ⟨b, hb, bs, hbs, -⟩ := h
    exact List.forall_mem_cons.mpr ⟨⟨b, hb⟩, ih hbs⟩

/-- A text with a character that is not a digit says no number. -/
theorem numeral_ne_some {text : List UInt8} (hc : c ∈ text) (h : baseDigit base c = none)
    (n : Nat) : numeral base text ≠ some n := by
  intro hn
  rw [numeral, Option.map_eq_some_iff] at hn
  obtain ⟨ds, hds, -⟩ := hn
  obtain ⟨d, hd⟩ := exists_of_mapM_eq_some hds c (List.mem_reverse.mpr hc)
  rw [h] at hd
  cases hd

/-! ## The flags of an integer conversion -/

namespace LengthModifier

/-- The flags of the length modifiers. -/
theorem set_eq (m : LengthModifier) (flags : PrintFlags) :
    m.set flags = { flags with
      char := flags.char || decide (m = .hh)
      short := flags.short || decide (m = .h ∨ m = .hh)
      long := flags.long || decide (m = .l ∨ m = .ll ∨ m = .t ∨ m = .j ∨ m = .z)
      longLong := flags.longLong || decide (m = .ll) } := by
  cases m <;> simp [set]

end LengthModifier

namespace Conversion

/-- The number is aligned to the left. -/
def left (c : Conversion) (args : List (BitVec 64)) : Bool :=
  decide (.minus ∈ c.flags) || c.width.negative args

/-- The flags in the call of `ntoa`. -/
def printFlags (c : Conversion) (args : List (BitVec 64)) : PrintFlags where
  zeropad := decide (.zero ∈ c.flags) && !c.precision.isSome
  left := c.left args
  plus := decide (.plus ∈ c.flags) && isSigned c.conv
  space := decide (.space ∈ c.flags) && isSigned c.conv
  hash := decide (.hash ∈ c.flags) && decide (integerBase c.conv ≠ 10)
  upper := decide (c.conv = 0x58)
  char := decide (c.length = .hh)
  short := decide (c.length = .h ∨ c.length = .hh)
  long := decide (c.length = .l ∨ c.length = .ll ∨ c.length = .t ∨ c.length = .j ∨ c.length = .z)
  longLong := decide (c.length = .ll)
  precision := c.precision.isSome

theorem precisionRead_of_none {c : Conversion} (h : c.precision = none) (args : List (BitVec 64)) :
    c.precisionRead args = 0#32 := by
  rw [precisionRead, h]
  rfl

theorem integerFlags_flagsRead (c : Conversion) (args : List (BitVec 64)) :
    integerFlags c.conv (c.flagsRead args {}) = c.printFlags args := by
  rw [integerFlags_eq, flagsRead, foldl_set, LengthModifier.set_eq, printFlags, left]
  cases c.width.negative args <;> cases c.precision.isSome <;> simp

end Conversion

/-! ## An integer conversion -/

variable (mem : BitVec 64 → List UInt8) {c : Conversion} {args : List (BitVec 64)}

/-- What a format of one integer conversion prints. -/
theorem vprintf_integer (hwf : c.WF) (hint : isInteger c.conv)
    (hargs : args.length = c.width.slots + c.precisionSlots) (arg : BitVec 64) :
    let flags := c.printFlags args
    let value := integerArg c.conv flags arg
    ∃ before after out, out =
        List.replicate before 0x20 ++ ((numberChars value.1.toNat (numberFlags value.1 flags)
          (integerBase c.conv) (c.widthRead args) (c.precisionRead args) value.2).take
            ntoaMax).reverse ++ List.replicate after 0x20 ∧
      vprintf mem (encode [.conversion c]) (args ++ [arg]) =
        .ok (out, BitVec.ofNat 32 out.length, []) := by
  intro flags value
  have hslots : (args ++ [arg]).length = c.slots := by
    rw [List.length_append, hargs, Conversion.slots, takesArgument, hint]
    rfl
  obtain ⟨out, hprints, hspec⟩ := prints_conversion mem hwf hslots {}
  obtain ⟨before, after, out', hout', hnumber⟩ := ntoaLong_eq flags value.1
    (one_lt_integerBase c.conv) (c.widthRead args) (c.precisionRead args) value.2
  have hout : out = out' := by
    rw [Conversion.specification_integer mem hwf hint hargs, c.integerFlags_flagsRead,
      PrintState.number] at hspec
    simp only at hspec
    rw [hnumber] at hspec
    exact (Except.ok.inj hspec).symm
  refine ⟨before, after, out', hout', ?_⟩
  have hvprintf := vprintf_encode hprints []
  rwa [List.append_nil, hout] at hvprintf

end Format

end Lethe
