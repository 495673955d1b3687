import Lethe.Libc.Ntoa

/-!
# Formats of `vprintf`

The directives that a format consists of, as their bytes and with the arguments that each takes.
What a directive prints depends on the format before it only through `flags`: `width` and
`precision` are set anew by every conversion, `flags` never is.
-/

namespace Lethe

namespace Format

/-- The characters that the loop over the flags takes. -/
inductive PrintFlag
  | zero | minus | plus | space | hash
  deriving DecidableEq, Repr

namespace PrintFlag

def char : PrintFlag → UInt8
  | zero => 0x30 | minus => 0x2D | plus => 0x2B | space => 0x20 | hash => 0x23

/-- The flag in `flags`. -/
def set : PrintFlag → PrintFlags → PrintFlags
  | zero, flags => { flags with zeropad := true }
  | minus, flags => { flags with left := true }
  | plus, flags => { flags with plus := true }
  | space, flags => { flags with space := true }
  | hash, flags => { flags with hash := true }

end PrintFlag

/-- A width, or what follows the point of a precision; it may have no digits. -/
inductive Field
  | digits (ds : List UInt8)
  | star
  deriving DecidableEq, Repr

namespace Field

def encode : Field → List UInt8
  | digits ds => ds
  | star => [0x2A]

/-- The number of arguments. -/
def slots : Field → Nat
  | digits _ => 0
  | star => 1

/-- A width that is an argument and is negative. -/
def negative : Field → List (BitVec 64) → Bool
  | star, arg :: _ => (arg.setWidth 32).slt 0
  | _, _ => false

/-- The value of a width. -/
def widthValue : Field → List (BitVec 64) → BitVec 32
  | digits ds, _ => (atoi ds 0).1
  | star, arg :: _ => if (arg.setWidth 32).slt 0 then -(arg.setWidth 32) else arg.setWidth 32
  | star, [] => 0

/-- The value of a precision. -/
def precisionValue : Field → List (BitVec 64) → BitVec 32
  | digits ds, _ => (atoi ds 0).1
  | star, arg :: _ => if (0#32).slt (arg.setWidth 32) then arg.setWidth 32 else 0
  | star, [] => 0

/-- The field ends before the character `next`. -/
def WF (next : UInt8) : Field → Prop
  | digits ds => (∀ d ∈ ds, isDigit d) ∧ isDigit next = false ∧ (ds = [] → next ≠ 0x2A)
  | star => True

instance : Decidable (WF next field) :=
  match field with
  | digits _ => inferInstanceAs (Decidable (_ ∧ _ ∧ _))
  | star => inferInstanceAs (Decidable True)

end Field

inductive LengthModifier
  | none | l | ll | h | hh | t | j | z
  deriving DecidableEq, Repr

namespace LengthModifier

def encode : LengthModifier → List UInt8
  | none => []
  | l => [0x6C] | ll => [0x6C, 0x6C]
  | h => [0x68] | hh => [0x68, 0x68]
  | t => [0x74] | j => [0x6A] | z => [0x7A]

def set : LengthModifier → PrintFlags → PrintFlags
  | none, flags => flags
  | ll, flags => { flags with long := true, longLong := true }
  | h, flags => { flags with short := true }
  | hh, flags => { flags with short := true, char := true }
  | l, flags | t, flags | j, flags | z, flags => { flags with long := true }

/-- The modifier ends before the character `next`. -/
def WF (next : UInt8) : LengthModifier → Prop
  | none => next ≠ 0x6C ∧ next ≠ 0x68 ∧ next ≠ 0x74 ∧ next ≠ 0x6A ∧ next ≠ 0x7A
  | l => next ≠ 0x6C
  | h => next ≠ 0x68
  | ll | hh | t | j | z => True

instance : Decidable (WF next m) :=
  match m with
  | none => inferInstanceAs (Decidable (_ ∧ _ ∧ _ ∧ _ ∧ _))
  | l | h => inferInstanceAs (Decidable (_ ≠ _))
  | ll | hh | t | j | z => inferInstanceAs (Decidable True)

end LengthModifier

/-- A conversion specification. -/
structure Conversion where
  flags : List PrintFlag := []
  width : Field := .digits []
  precision : Option Field := none
  length : LengthModifier := .none
  conv : UInt8
  deriving DecidableEq, Repr

/-- The conversions that take an argument of their own. -/
def takesArgument (conv : UInt8) : Bool :=
  isInteger conv || conv = 0x63 || conv = 0x73 || conv = 0x70

/-- The flags after the `switch` over the conversion. -/
def conversionFlags (conv : UInt8) (flags : PrintFlags) : PrintFlags :=
  if isInteger conv then integerFlags conv flags
  else if conv = 0x70 then { flags with zeropad := true, upper := true }
  else flags

namespace Conversion

/-- The bytes behind the precision. -/
def afterPrecision (c : Conversion) : List UInt8 := c.length.encode ++ [c.conv]

/-- The bytes behind the width. -/
def afterWidth (c : Conversion) : List UInt8 :=
  match c.precision with
  | none => c.afterPrecision
  | some field => 0x2E :: (field.encode ++ c.afterPrecision)

/-- The bytes behind the flags. -/
def afterFlags (c : Conversion) : List UInt8 := c.width.encode ++ c.afterWidth

/-- The bytes behind the `%`. -/
def body (c : Conversion) : List UInt8 := c.flags.map PrintFlag.char ++ c.afterFlags

/-- The point and the precision. -/
def pointed (c : Conversion) : List UInt8 :=
  match c.precision with
  | none => []
  | some field => 0x2E :: field.encode

/-- The bytes between the `%` and the conversion. -/
def front (c : Conversion) : List UInt8 :=
  c.flags.map PrintFlag.char ++ (c.width.encode ++ (c.pointed ++ c.length.encode))

def precisionSlots (c : Conversion) : Nat :=
  match c.precision with
  | none => 0
  | some field => field.slots

/-- The number of arguments. -/
def slots (c : Conversion) : Nat :=
  c.width.slots + c.precisionSlots + (takesArgument c.conv).toNat

/-- Each part ends where the next begins. -/
structure WF (c : Conversion) : Prop where
  flags : ∀ f : PrintFlag, currentChar c.afterFlags ≠ f.char
  width : c.width.WF (currentChar c.afterWidth)
  precision : ∀ field, c.precision = some field → field.WF (currentChar c.afterPrecision)
  noPrecision : c.precision = none → currentChar c.afterPrecision ≠ 0x2E
  length : c.length.WF c.conv
  conv : c.conv ≠ 0

/-- Each part in front of the conversion ends where the next begins. The conversion may be the
`NUL` of the format. -/
structure Splits (c : Conversion) : Prop where
  flags : ∀ f : PrintFlag, currentChar c.afterFlags ≠ f.char
  width : c.width.WF (currentChar c.afterWidth)
  precision : ∀ field, c.precision = some field → field.WF (currentChar c.afterPrecision)
  noPrecision : c.precision = none → currentChar c.afterPrecision ≠ 0x2E
  length : c.length.WF c.conv

theorem WF.splits {c : Conversion} (h : c.WF) : c.Splits :=
  ⟨h.flags, h.width, h.precision, h.noPrecision, h.length⟩

theorem Splits.wf {c : Conversion} (h : c.Splits) (hconv : c.conv ≠ 0) : c.WF :=
  ⟨h.flags, h.width, h.precision, h.noPrecision, h.length, hconv⟩

instance : Decidable (WF c) :=
  decidable_of_iff
    ((∀ f ∈ [PrintFlag.zero, .minus, .plus, .space, .hash], currentChar c.afterFlags ≠ f.char) ∧
      c.width.WF (currentChar c.afterWidth) ∧
      (∀ field ∈ c.precision, field.WF (currentChar c.afterPrecision)) ∧
      (c.precision = none → currentChar c.afterPrecision ≠ 0x2E) ∧
      c.length.WF c.conv ∧ c.conv ≠ 0)
    ⟨fun h => ⟨fun f => h.1 f (by cases f <;> decide), h.2.1, h.2.2.1, h.2.2.2.1, h.2.2.2.2.1,
        h.2.2.2.2.2⟩,
      fun h => ⟨fun f _ => h.flags f, h.width, h.precision, h.noPrecision, h.length, h.conv⟩⟩

/-- The flags in front of the `switch` over the conversion. -/
def flagsRead (c : Conversion) (va : List (BitVec 64)) (flags : PrintFlags) : PrintFlags :=
  let flags := c.flags.foldl (fun flags f => f.set flags) flags
  let flags := if c.width.negative va then { flags with left := true } else flags
  let flags := if c.precision.isSome then { flags with precision := true } else flags
  c.length.set flags

/-- The width. -/
def widthRead (c : Conversion) (va : List (BitVec 64)) : BitVec 32 := c.width.widthValue va

/-- The precision. -/
def precisionRead (c : Conversion) (va : List (BitVec 64)) : BitVec 32 :=
  c.precision.elim 0 fun field => field.precisionValue (va.drop c.width.slots)

end Conversion

/-- A character that is printed as it is, or a conversion specification. -/
inductive Directive
  | literal (c : UInt8)
  | conversion (c : Conversion)
  deriving DecidableEq, Repr

namespace Directive

def encode : Directive → List UInt8
  | literal c => [c]
  | conversion c => 0x25 :: c.body

def slots : Directive → Nat
  | literal _ => 0
  | conversion c => c.slots

def WF : Directive → Prop
  | literal c => c ≠ 0 ∧ c ≠ 0x25
  | conversion c => c.WF

instance : Decidable (WF d) :=
  match d with
  | literal _ => inferInstanceAs (Decidable (_ ∧ _))
  | conversion c => inferInstanceAs (Decidable c.WF)

/-- The flags behind the directive. -/
def flagsAfter : Directive → List (BitVec 64) → PrintFlags → PrintFlags
  | literal _, _, flags => flags
  | conversion c, va, flags => conversionFlags c.conv (c.flagsRead va flags)

end Directive

/-- The bytes of a format. -/
def encode (ds : List Directive) : List UInt8 := ds.flatMap Directive.encode

/-- The number of arguments of a format. -/
def slots (ds : List Directive) : Nat := (ds.map Directive.slots).sum

/-- The flags behind a format. -/
def flagsAfter : List Directive → List (BitVec 64) → PrintFlags → PrintFlags
  | [], _, flags => flags
  | d :: ds, va, flags => flagsAfter ds (va.drop d.slots) (d.flagsAfter va flags)

end Format

end Lethe
