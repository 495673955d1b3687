import Mathlib.Algebra.GroupWithZero.Nat
import Mathlib.Logic.Function.Basic
import Mathlib.Tactic.Common

/-!
# `vprintf` of `lethe-libc/stdio.c`

A format is the list of its bytes without the `NUL` that ends it, and a `va_list` the list of its
eight-byte slots; the bits of a slot above those of its argument are not specified. `putchar` adds
to the output. The loops that only write a character over and over are lists of copies of it.

`mem` has the string behind each pointer that is given to `%s`.
-/

namespace Lethe

/-- Why a call of `vprintf` does not go on. -/
inductive StdioFault
  /-- `fmt` has been moved behind the `NUL` of the format. -/
  | formatOverrun
  /-- A `va_arg` with no argument left. -/
  | missingArgument
  /-- A write to `buf[i]` behind its end. -/
  | bufferOverrun (i : Nat)
  /-- A read of `buf[i]` before it is written. -/
  | uninitialized (i : Nat)
  /-- A loop that does not end within the bound of the model. -/
  | doesNotReturn
  deriving DecidableEq, Repr

/-- The bits of `flags`; `FLAGS_ADAPT_EXP` is not used. -/
structure PrintFlags where
  zeropad : Bool := false
  left : Bool := false
  plus : Bool := false
  space : Bool := false
  hash : Bool := false
  upper : Bool := false
  char : Bool := false
  short : Bool := false
  long : Bool := false
  longLong : Bool := false
  precision : Bool := false
  deriving DecidableEq, Repr

/-- `is_digit`. -/
def isDigit (c : UInt8) : Bool := 0x30 ≤ c && c ≤ 0x39

/-! ## Numbers -/

/-- `NTOA_MAX`. -/
def ntoaMax : Nat := 48

/-- `buf` and `len`; a byte that has not been written is `none`. -/
structure NtoaBuf where
  bytes : Nat → Option UInt8
  len : Nat

namespace NtoaBuf

def empty : NtoaBuf := ⟨fun _ => none, 0⟩

/-- `buf[len++] = c`. -/
def push (buf : NtoaBuf) (c : UInt8) : Except StdioFault NtoaBuf :=
  if buf.len < ntoaMax then .ok ⟨Function.update buf.bytes buf.len (some c), buf.len + 1⟩
  else .error (.bufferOverrun buf.len)

/-- The loop of `print_reverse` over the buffer. -/
def readReverse (buf : NtoaBuf) : Nat → Except StdioFault (List UInt8)
  | 0 => .ok []
  | len + 1 =>
    match buf.bytes len with
    | none => .error (.uninitialized len)
    | some c => do
      let out ← buf.readReverse len
      pure (c :: out)

/-- `while (len < limit && len < NTOA_MAX) { buf[len++] = '0'; }`. -/
def zeroLoop (limit : Nat) : Nat → NtoaBuf → Except StdioFault NtoaBuf
  | 0, _ => .error .doesNotReturn
  | fuel + 1, buf =>
    if buf.len < limit ∧ buf.len < ntoaMax then do
      let buf ← buf.push 0x30
      zeroLoop limit fuel buf
    else .ok buf

/-- The character of a digit. -/
def digitChar (flags : PrintFlags) (digit : Nat) : UInt8 :=
  if digit < 10 then UInt8.ofNat (digit + 0x30)
  else UInt8.ofNat ((if flags.upper then 0x41 else 0x61) + digit - 10)

/-- The loop of `ntoa_long` over the digits. -/
def digitLoop (flags : PrintFlags) (base : Nat) : Nat → Nat → NtoaBuf → Except StdioFault NtoaBuf
  | 0, _, _ => .error .doesNotReturn
  | fuel + 1, value, buf => do
    let buf ← buf.push (digitChar flags (value % base))
    if value / base ≠ 0 ∧ buf.len < ntoaMax then digitLoop flags base fuel (value / base) buf
    else pure buf

end NtoaBuf

/-- `print_reverse`: what it prints, and the new `idx`. -/
def printReverse (buf : NtoaBuf) (flags : PrintFlags) (width : BitVec 32) (idx : BitVec 64) :
    Except StdioFault (List UInt8 × BitVec 64) := do
  let before := if !flags.left && !flags.zeropad then width.toNat - buf.len else 0
  let digits ← buf.readReverse buf.len
  let idx' := idx + BitVec.ofNat 64 (before + buf.len)
  let after := if flags.left then width.toNat - (idx' - idx).toNat else 0
  pure (List.replicate before 0x20 ++ digits ++ List.replicate after 0x20,
    idx' + BitVec.ofNat 64 after)

/-- The part of `__ntoa` that fills the number up with zeros, and its new `width`. -/
def ntoaZeros (buf : NtoaBuf) (flags : PrintFlags) (width precision : BitVec 32) (negative : Bool) :
    Except StdioFault (NtoaBuf × BitVec 32) :=
  if flags.left then .ok (buf, width)
  else do
    let width :=
      if width ≠ 0 && flags.zeropad && (negative || flags.plus || flags.space) then width - 1
      else width
    let buf ← NtoaBuf.zeroLoop precision.toNat (ntoaMax + 1) buf
    let buf ← (if flags.zeropad then NtoaBuf.zeroLoop width.toNat (ntoaMax + 1) buf else pure buf)
    pure (buf, width)

/-- The `len` from which `__ntoa` puts the mark of `FLAGS_HASH`. -/
def hashLen (len : Nat) (flags : PrintFlags) (width precision : BitVec 32) (base : Nat) : Nat :=
  if !flags.precision && len ≠ 0 && (len == precision.toNat || len == width.toNat) then
    if len - 1 ≠ 0 && base == 16 then len - 2 else len - 1
  else len

/-- The letter of the mark. -/
def pushLetter (buf : NtoaBuf) (flags : PrintFlags) (base : Nat) : Except StdioFault NtoaBuf :=
  if base = 16 ∧ flags.upper = false ∧ buf.len < ntoaMax then buf.push 0x78
  else if base = 16 ∧ flags.upper = true ∧ buf.len < ntoaMax then buf.push 0x78
  else if base = 2 ∧ buf.len < ntoaMax then buf.push 0x62
  else .ok buf

/-- The part of `__ntoa` for `FLAGS_HASH`. -/
def ntoaHash (buf : NtoaBuf) (flags : PrintFlags) (width precision : BitVec 32) (base : Nat) :
    Except StdioFault NtoaBuf :=
  if flags.hash then do
    let buf ← pushLetter { buf with len := hashLen buf.len flags width precision base } flags base
    if buf.len < ntoaMax then buf.push 0x30 else pure buf
  else .ok buf

/-- The part of `__ntoa` for the sign. -/
def ntoaSign (buf : NtoaBuf) (flags : PrintFlags) (negative : Bool) : Except StdioFault NtoaBuf :=
  if buf.len < ntoaMax then
    if negative then buf.push 0x2D
    else if flags.plus then buf.push 0x2B
    else if flags.space then buf.push 0x20
    else .ok buf
  else .ok buf

/-- `__ntoa`. -/
def ntoa (buf : NtoaBuf) (flags : PrintFlags) (width precision : BitVec 32) (base : Nat)
    (negative : Bool) (idx : BitVec 64) : Except StdioFault (List UInt8 × BitVec 64) := do
  let (buf, width) ← ntoaZeros buf flags width precision negative
  let buf ← ntoaHash buf flags width precision base
  let buf ← ntoaSign buf flags negative
  printReverse buf flags width idx

/-- `ntoa_long`, and `ntoa_long_long`, whose body is the same: both types have 64 bits. -/
def ntoaLong (value : BitVec 64) (flags : PrintFlags) (base : Nat) (width precision : BitVec 32)
    (idx : BitVec 64) (negative : Bool) : Except StdioFault (List UInt8 × BitVec 64) := do
  let flags := if value = 0 then { flags with hash := false } else flags
  let buf ←
    (if !flags.precision || value ≠ 0 then
      NtoaBuf.digitLoop flags base (ntoaMax + 1) value.toNat .empty
    else pure .empty)
  ntoa buf flags width precision base negative idx

/-! ## The format -/

/-- `*fmt`. -/
def currentChar (fmt : List UInt8) : UInt8 := fmt.headD 0

/-- `va_arg`: the next slot, and the rest. -/
def vaArg : List (BitVec 64) → Except StdioFault (BitVec 64 × List (BitVec 64))
  | [] => .error .missingArgument
  | arg :: va => .ok (arg, va)

/-- `atoi`, which moves `fmt` behind the digits. -/
def atoi : List UInt8 → BitVec 32 → BitVec 32 × List UInt8
  | [], i => (i, [])
  | c :: fmt, i =>
    if isDigit c then atoi fmt (i * 10 + BitVec.ofNat 32 (c.toNat - 0x30)) else (i, c :: fmt)

/-- The loop of `vprintf` over the flags. -/
def readFlags : List UInt8 → PrintFlags → PrintFlags × List UInt8
  | [], flags => (flags, [])
  | c :: fmt, flags =>
    if c = 0x30 then readFlags fmt { flags with zeropad := true }
    else if c = 0x2D then readFlags fmt { flags with left := true }
    else if c = 0x2B then readFlags fmt { flags with plus := true }
    else if c = 0x20 then readFlags fmt { flags with space := true }
    else if c = 0x23 then readFlags fmt { flags with hash := true }
    else (flags, c :: fmt)

/-- The variables of `vprintf`, and its output. -/
structure PrintState where
  fmt : List UInt8
  va : List (BitVec 64)
  flags : PrintFlags
  width : BitVec 32
  precision : BitVec 32
  idx : BitVec 32
  out : List UInt8

namespace PrintState

/-- `fmt++`. -/
def advance (s : PrintState) : Except StdioFault PrintState :=
  match s.fmt with
  | [] => .error .formatOverrun
  | _ :: fmt => .ok { s with fmt }

/-- `putchar(c)` and `idx++`. -/
def putchar (s : PrintState) (c : UInt8) : PrintState :=
  { s with out := s.out ++ [c], idx := s.idx + 1 }

/-- `n` rounds of a loop that prints spaces. -/
def spaces (s : PrintState) (n : Nat) : PrintState :=
  { s with out := s.out ++ List.replicate n 0x20, idx := s.idx + BitVec.ofNat 32 n }

/-- The flags. -/
def readFlags (s : PrintState) : PrintState :=
  let (flags, fmt) := Lethe.readFlags s.fmt s.flags
  { s with flags, fmt }

/-- The width. -/
def readWidth (s : PrintState) : Except StdioFault PrintState :=
  if isDigit (currentChar s.fmt) then
    let (width, fmt) := atoi s.fmt 0
    .ok { s with width, fmt }
  else if currentChar s.fmt = 0x2A then do
    let (arg, va) ← vaArg s.va
    let widthSpecifier : BitVec 32 := arg.setWidth 32
    let s := { s with va, fmt := s.fmt.tail }
    if widthSpecifier.slt 0 then
      pure { s with flags := { s.flags with left := true }, width := -widthSpecifier }
    else pure { s with width := widthSpecifier }
  else .ok { s with width := 0 }

/-- The precision. -/
def readPrecision (s : PrintState) : Except StdioFault PrintState :=
  if currentChar s.fmt = 0x2E then
    let s := { s with flags := { s.flags with precision := true }, fmt := s.fmt.tail }
    if isDigit (currentChar s.fmt) then
      let (precision, fmt) := atoi s.fmt 0
      .ok { s with precision, fmt }
    else if currentChar s.fmt = 0x2A then do
      let (arg, va) ← vaArg s.va
      let precisionSpecifier : BitVec 32 := arg.setWidth 32
      pure { s with
        va
        fmt := s.fmt.tail
        precision := if (0#32).slt precisionSpecifier then precisionSpecifier else 0 }
    else .ok { s with precision := 0 }
  else .ok { s with precision := 0 }

/-- The length modifier; `ptrdiff_t`, `intmax_t` and `size_t` have the size of `long`. -/
def readLength (s : PrintState) : PrintState :=
  let c := currentChar s.fmt
  if c = 0x6C then
    let s := { s with flags := { s.flags with long := true }, fmt := s.fmt.tail }
    if currentChar s.fmt = 0x6C then
      { s with flags := { s.flags with longLong := true }, fmt := s.fmt.tail }
    else s
  else if c = 0x68 then
    let s := { s with flags := { s.flags with short := true }, fmt := s.fmt.tail }
    if currentChar s.fmt = 0x68 then
      { s with flags := { s.flags with char := true }, fmt := s.fmt.tail }
    else s
  else if c = 0x74 ∨ c = 0x6A ∨ c = 0x7A then
    { s with flags := { s.flags with long := true }, fmt := s.fmt.tail }
  else s

end PrintState

/-! ## Conversions -/

/-- `value > 0 ? value : 0 - value`. -/
def magnitude (value : BitVec w) : BitVec w := if (0#w).slt value then value else 0#w - value

/-- The argument of `ntoa` for `d` and `i`: the magnitude and whether the value is negative. -/
def signedArg (flags : PrintFlags) (arg : BitVec 64) : BitVec 64 × Bool :=
  if flags.longLong || flags.long then (magnitude arg, arg.slt 0)
  else
    let value : BitVec 32 :=
      if flags.char then (arg.setWidth 8).signExtend 32
      else if flags.short then (arg.setWidth 16).signExtend 32
      else arg.setWidth 32
    ((magnitude value).signExtend 64, value.slt 0)

/-- The argument of `ntoa` for the other integers. -/
def unsignedArg (flags : PrintFlags) (arg : BitVec 64) : BitVec 64 :=
  if flags.longLong || flags.long then arg
  else if flags.char then (arg.setWidth 8).setWidth 64
  else if flags.short then (arg.setWidth 16).setWidth 64
  else (arg.setWidth 32).setWidth 64

/-- The conversions that take an integer. -/
def isInteger (c : UInt8) : Bool :=
  c = 0x64 || c = 0x69 || c = 0x75 || c = 0x78 || c = 0x58 || c = 0x6F || c = 0x62

/-- `i` and `d`. -/
def isSigned (c : UInt8) : Bool := c = 0x69 || c = 0x64

/-- The base of an integer conversion. -/
def integerBase (c : UInt8) : Nat :=
  if c = 0x78 ∨ c = 0x58 then 16 else if c = 0x6F then 8 else if c = 0x62 then 2 else 10

/-- The changes that an integer conversion makes to the flags. -/
def integerFlags (c : UInt8) (flags : PrintFlags) : PrintFlags :=
  let flags := if integerBase c = 10 then { flags with hash := false } else flags
  let flags := if c = 0x58 then { flags with upper := true } else flags
  let flags := if isSigned c then flags else { flags with plus := false, space := false }
  if flags.precision then { flags with zeropad := false } else flags

namespace PrintState

/-- A call of `ntoa_long` or `ntoa_long_long`. -/
def number (s : PrintState) (value : BitVec 64) (base : Nat) (negative : Bool) :
    Except StdioFault PrintState := do
  let (out, idx) ← ntoaLong value s.flags base s.width s.precision (s.idx.setWidth 64) negative
  pure { s with out := s.out ++ out, idx := idx.setWidth 32 }

/-- The cases `d`, `i`, `u`, `x`, `X`, `o` and `b`. -/
def integer (s : PrintState) (c : UInt8) : Except StdioFault PrintState := do
  let flags := integerFlags c s.flags
  let (arg, va) ← vaArg s.va
  let s := { s with flags, va }
  if isSigned c then s.number (signedArg flags arg).1 (integerBase c) (signedArg flags arg).2
  else s.number (unsignedArg flags arg) (integerBase c) false

/-- The case `c`. -/
def character (s : PrintState) : Except StdioFault PrintState := do
  let s₁ := if s.flags.left then s else s.spaces (s.width.toNat - 1)
  let (arg, va) ← vaArg s₁.va
  let s₂ := { s₁ with va }.putchar (UInt8.ofBitVec (arg.setWidth 8))
  pure (if s.flags.left then s₂.spaces (s.width.toNat - 1) else s₂)

/-- The case `s`. -/
def string (mem : BitVec 64 → List UInt8) (s : PrintState) : Except StdioFault PrintState := do
  let (arg, va) ← vaArg s.va
  let p := mem arg
  let l := p.length % 2 ^ 32
  let l := if s.flags.precision then (if l < s.precision.toNat then l else s.precision.toNat) else l
  let s₁ := { s with va }
  let s₂ := if s.flags.left then s₁ else s₁.spaces (s.width.toNat - l)
  let printed := if s.flags.precision then p.take s.precision.toNat else p
  let s₃ := { s₂ with out := s₂.out ++ printed, idx := s₂.idx + BitVec.ofNat 32 printed.length }
  pure (if s.flags.left then s₃.spaces (s.width.toNat - l) else s₃)

/-- The case `p`. -/
def pointer (s : PrintState) : Except StdioFault PrintState := do
  let s := { s with width := 16, flags := { s.flags with zeropad := true, upper := true } }
  let (arg, va) ← vaArg s.va
  { s with va }.number arg 16 false

/-- The `switch` over the conversion. -/
def convert (mem : BitVec 64 → List UInt8) (s : PrintState) : Except StdioFault PrintState := do
  let c := currentChar s.fmt
  let s ←
    (if isInteger c then s.integer c
    else if c = 0x63 then s.character
    else if c = 0x73 then s.string mem
    else if c = 0x70 then s.pointer
    else pure (s.putchar c))
  s.advance

/-- A round of the loop of `vprintf` on a conversion, `fmt` being behind the `%`. -/
def specification (mem : BitVec 64 → List UInt8) (s : PrintState) : Except StdioFault PrintState := do
  let s ← s.readFlags.readWidth
  let s ← s.readPrecision
  s.readLength.convert mem

end PrintState

/-- The loop of `vprintf`. -/
def vprintfLoop (mem : BitVec 64 → List UInt8) : Nat → PrintState → Except StdioFault PrintState
  | 0, _ => .error .doesNotReturn
  | fuel + 1, s =>
    match s.fmt with
    | [] => .ok s
    | c :: fmt =>
      if c = 0 then .ok s
      else if c ≠ 0x25 then vprintfLoop mem fuel ({ s with fmt }.putchar c)
      else do
        let s ← { s with fmt }.specification mem
        vprintfLoop mem fuel s

/-- `vprintf`, with what it prints, its result and the arguments that it leaves. -/
def vprintf (mem : BitVec 64 → List UInt8) (fmt : List UInt8) (va : List (BitVec 64)) :
    Except StdioFault (List UInt8 × BitVec 32 × List (BitVec 64)) := do
  let s ← vprintfLoop mem (fmt.length + 1) ⟨fmt, va, {}, 0, 0, 0, []⟩
  pure (s.out, s.idx, s.va)

end Lethe
