import Lethe.Libc.Format

/-!
# What a directive prints

A directive reads its own bytes and its own arguments. The rest of the format, the rest of the
arguments, and the `width` and `precision` of the conversion before it have no part in what it
prints; the flags that it finds do.
-/

namespace Lethe

namespace Format

/-! ## Flags -/

/-- The flags that the characters set. -/
theorem foldl_set (fs : List PrintFlag) (flags : PrintFlags) :
    fs.foldl (fun flags f => f.set flags) flags =
      { flags with
        zeropad := flags.zeropad || .zero ∈ fs
        left := flags.left || .minus ∈ fs
        plus := flags.plus || .plus ∈ fs
        space := flags.space || .space ∈ fs
        hash := flags.hash || .hash ∈ fs } := by
  induction fs generalizing flags with
  | nil => simp
  | cons f fs ih =>
    rw [List.foldl_cons, ih]
    cases f <;> simp [PrintFlag.set]

/-- The flags that an integer conversion clears. -/
theorem integerFlags_eq (conv : UInt8) (flags : PrintFlags) :
    integerFlags conv flags =
      { flags with
        zeropad := flags.zeropad && !flags.precision
        plus := flags.plus && isSigned conv
        space := flags.space && isSigned conv
        hash := flags.hash && integerBase conv ≠ 10
        upper := flags.upper || conv = 0x58 } := by
  obtain ⟨zeropad, left, plus, space, hash, upper, char, short, long, longLong, precision⟩ := flags
  simp only [integerFlags]
  generalize integerBase conv = base
  generalize isSigned conv = signed
  by_cases hbase : base = 10 <;> by_cases hX : conv = 0x58 <;>
    cases signed <;> cases precision <;> simp [hbase, hX]

/-! ## Reading a conversion specification -/

theorem currentChar_append_congr (fmt : List UInt8) {rest rest' : List UInt8}
    (h : currentChar rest = currentChar rest') :
    currentChar (fmt ++ rest) = currentChar (fmt ++ rest') := by
  cases fmt with
  | nil => exact h
  | cons c fmt => rfl

theorem readFlags_of_ne {fmt : List UInt8} (h : ∀ f : PrintFlag, currentChar fmt ≠ f.char)
    (flags : PrintFlags) : readFlags fmt flags = (flags, fmt) := by
  cases fmt with
  | nil => rfl
  | cons c fmt =>
    have hne (f : PrintFlag) : c ≠ f.char := h f
    have hzero := hne .zero
    have hminus := hne .minus
    have hplus := hne .plus
    have hspace := hne .space
    have hhash := hne .hash
    simp_all only [PrintFlag.char, readFlags, if_false]

theorem readFlags_char (f : PrintFlag) (fmt : List UInt8) (flags : PrintFlags) :
    readFlags (f.char :: fmt) flags = readFlags fmt (f.set flags) := by
  cases f <;> rfl

theorem readFlags_map (fs : List PrintFlag) {fmt : List UInt8}
    (h : ∀ f : PrintFlag, currentChar fmt ≠ f.char) (flags : PrintFlags) :
    readFlags (fs.map PrintFlag.char ++ fmt) flags =
      (fs.foldl (fun flags f => f.set flags) flags, fmt) := by
  induction fs generalizing flags with
  | nil => exact readFlags_of_ne h flags
  | cons f fs ih => rw [List.map_cons, List.cons_append, readFlags_char, ih, List.foldl_cons]

theorem atoi_append {ds : List UInt8} (hds : ∀ d ∈ ds, isDigit d) {fmt : List UInt8}
    (hfmt : isDigit (currentChar fmt) = false) (i : BitVec 32) :
    atoi (ds ++ fmt) i = ((atoi ds i).1, fmt) := by
  induction ds generalizing i with
  | nil =>
    cases fmt with
    | nil => rfl
    | cons c fmt =>
      replace hfmt : isDigit c = false := hfmt
      simp [atoi, hfmt]
  | cons d ds ih =>
    have hd := hds d List.mem_cons_self
    simp only [List.cons_append, atoi, hd, if_true]
    exact ih (fun d' h => hds d' (List.mem_cons_of_mem _ h)) _

variable {args : List (BitVec 64)}

theorem readWidth_encode {field : Field} (hwf : field.WF next) (hargs : args.length = field.slots)
    (s : PrintState) {fmt : List UInt8} (va : List (BitVec 64)) (hnext : currentChar fmt = next)
    (hfmt : s.fmt = field.encode ++ fmt) (hva : s.va = args ++ va) :
    s.readWidth = .ok { s with
      fmt, va, width := field.widthValue args
      flags := if field.negative args then { s.flags with left := true } else s.flags } := by
  subst hnext
  cases field with
  | digits ds =>
    obtain ⟨hds, hdigit, hstar⟩ := hwf
    obtain rfl := List.eq_nil_of_length_eq_zero hargs
    replace hva : s.va = va := hva
    cases ds with
    | nil =>
      replace hfmt : s.fmt = fmt := hfmt
      have hstar' := hstar rfl
      simp [PrintState.readWidth, hfmt, hdigit, hstar', Field.negative, Field.widthValue,
        atoi, ← hva]
    | cons d ds =>
      replace hfmt : s.fmt = (d :: ds) ++ fmt := hfmt
      have hd : isDigit (currentChar s.fmt) := by
        rw [hfmt]
        exact hds d List.mem_cons_self
      rw [PrintState.readWidth, if_pos hd, hfmt, atoi_append hds hdigit, ← hva]
      rfl
  | star =>
    obtain ⟨arg, rfl⟩ := List.length_eq_one_iff.mp hargs
    replace hfmt : s.fmt = 0x2A :: fmt := hfmt
    replace hva : s.va = arg :: va := hva
    have hdigit : isDigit (currentChar s.fmt) = false := by
      rw [hfmt]
      rfl
    have hstar : currentChar s.fmt = 0x2A := by
      rw [hfmt]
      rfl
    rw [PrintState.readWidth, hdigit, if_neg Bool.false_ne_true, if_pos hstar, hva]
    simp only [vaArg, bind, Except.bind, Field.negative, Field.widthValue, hfmt, List.tail_cons]
    by_cases hneg : (arg.setWidth 32).slt 0
    · simp only [hneg, if_true]
      rfl
    · simp only [hneg]
      rfl

theorem readPrecision_none (s : PrintState) (h : currentChar s.fmt ≠ 0x2E) :
    s.readPrecision = .ok { s with precision := 0 } := if_neg h

theorem readPrecision_some {field : Field} (hwf : field.WF next)
    (hargs : args.length = field.slots) (s : PrintState) {fmt : List UInt8}
    {va : List (BitVec 64)} (hnext : currentChar fmt = next)
    (hfmt : s.fmt = 0x2E :: (field.encode ++ fmt)) (hva : s.va = args ++ va) :
    s.readPrecision = .ok { s with
      fmt, va, precision := field.precisionValue args
      flags := { s.flags with precision := true } } := by
  subst hnext
  cases field with
  | digits ds =>
    obtain ⟨hds, hdigit, hstar⟩ := hwf
    obtain rfl := List.eq_nil_of_length_eq_zero hargs
    replace hva : s.va = va := hva
    cases ds with
    | nil =>
      replace hfmt : s.fmt = 0x2E :: fmt := hfmt
      have hstar' := hstar rfl
      have hdot : currentChar (0x2E :: fmt) = 0x2E := rfl
      simp [PrintState.readPrecision, hfmt, hdot, hdigit, hstar', Field.precisionValue, atoi, ← hva]
    | cons d ds =>
      replace hfmt : s.fmt = 0x2E :: ((d :: ds) ++ fmt) := hfmt
      have hdot : currentChar s.fmt = 0x2E := by
        rw [hfmt]
        rfl
      have hd : isDigit (currentChar ((d :: ds) ++ fmt)) := hds d List.mem_cons_self
      simp only [PrintState.readPrecision, if_pos hdot]
      rw [hfmt, List.tail_cons, if_pos hd, atoi_append hds hdigit, ← hva]
      rfl
  | star =>
    obtain ⟨arg, rfl⟩ := List.length_eq_one_iff.mp hargs
    replace hfmt : s.fmt = 0x2E :: 0x2A :: fmt := hfmt
    replace hva : s.va = arg :: va := hva
    have hdot : currentChar (0x2E :: 0x2A :: fmt) = 0x2E := rfl
    have hstar : currentChar (0x2A :: fmt) = 0x2A := rfl
    have hdigit : isDigit 0x2A = false := rfl
    simp [PrintState.readPrecision, hfmt, hva, hdot, hstar, hdigit, vaArg, bind, Except.bind, pure,
      Except.pure, Field.precisionValue]

theorem readLength_encode {m : LengthModifier} (hwf : m.WF next) (s : PrintState)
    {tail : List UInt8} (hnext : currentChar tail = next) (hfmt : s.fmt = m.encode ++ tail) :
    s.readLength = { s with fmt := tail, flags := m.set s.flags } := by
  obtain ⟨fmt, va, flags, width, precision, idx, out⟩ := s
  obtain rfl : fmt = m.encode ++ tail := hfmt
  subst hnext
  have hcons (c : UInt8) (fmt : List UInt8) : currentChar (c :: fmt) = c := rfl
  cases m <;>
    simp_all [PrintState.readLength, LengthModifier.encode, LengthModifier.set, LengthModifier.WF]

/-! ## Conversions -/

variable (mem : BitVec 64 → List UInt8)

theorem number_ok (value : BitVec 64) {base : Nat} (hbase : 1 < base) (negative : Bool)
    (flags : PrintFlags) (width precision : BitVec 32) :
    ∃ out, ∀ fmt va idx printed,
      PrintState.number ⟨fmt, va, flags, width, precision, idx, printed⟩ value base negative =
        .ok ⟨fmt, va, flags, width, precision, idx + BitVec.ofNat 32 out.length,
          printed ++ out⟩ := by
  obtain ⟨out, hout⟩ := ntoaLong_ok flags value hbase width precision negative
  refine ⟨out, fun fmt va idx printed => ?_⟩
  have hidx : (idx.setWidth 64 + BitVec.ofNat 64 out.length).setWidth 32 =
      idx + BitVec.ofNat 32 out.length := by
    rw [BitVec.setWidth_add _ _ (by decide), BitVec.setWidth_setWidth_of_le _ (by decide),
      BitVec.setWidth_eq]
    congr 1
    exact BitVec.eq_of_toNat_eq (by simp)
  simp only [PrintState.number, hout, bind, Except.bind, pure, Except.pure, hidx]

theorem one_lt_integerBase (conv : UInt8) : 1 < integerBase conv := by
  rw [integerBase]
  repeat' split
  all_goals decide

/-- The argument of `ntoa` and the sign. -/
def integerArg (conv : UInt8) (flags : PrintFlags) (arg : BitVec 64) : BitVec 64 × Bool :=
  if isSigned conv then signedArg flags arg else (unsignedArg flags arg, false)

theorem integer_eq (conv : UInt8) (fmt : List UInt8) (arg : BitVec 64) (va : List (BitVec 64))
    (flags : PrintFlags) (width precision idx : BitVec 32) (printed : List UInt8) :
    PrintState.integer ⟨fmt, arg :: va, flags, width, precision, idx, printed⟩ conv =
      PrintState.number ⟨fmt, va, integerFlags conv flags, width, precision, idx, printed⟩
        (integerArg conv (integerFlags conv flags) arg).1 (integerBase conv)
        (integerArg conv (integerFlags conv flags) arg).2 := by
  simp only [PrintState.integer, vaArg, ok_bind, integerArg]
  split <;> rfl

theorem integer_ok (conv : UInt8) (arg : BitVec 64) (flags : PrintFlags)
    (width precision : BitVec 32) :
    ∃ out, ∀ fmt va idx printed,
      PrintState.integer ⟨fmt, arg :: va, flags, width, precision, idx, printed⟩ conv =
        .ok ⟨fmt, va, integerFlags conv flags, width, precision,
          idx + BitVec.ofNat 32 out.length, printed ++ out⟩ := by
  obtain ⟨out, hout⟩ := number_ok (integerArg conv (integerFlags conv flags) arg).1
    (one_lt_integerBase conv) (integerArg conv (integerFlags conv flags) arg).2
    (integerFlags conv flags) width precision
  refine ⟨out, fun fmt va idx printed => ?_⟩
  rw [integer_eq]
  exact hout fmt va idx printed

theorem character_ok (arg : BitVec 64) (flags : PrintFlags) (width precision : BitVec 32) :
    ∃ out, ∀ fmt va idx printed,
      PrintState.character ⟨fmt, arg :: va, flags, width, precision, idx, printed⟩ =
        .ok ⟨fmt, va, flags, width, precision,
          idx + BitVec.ofNat 32 out.length, printed ++ out⟩ := by
  cases hleft : flags.left with
  | true =>
    refine ⟨UInt8.ofBitVec (arg.setWidth 8) :: List.replicate (width.toNat - 1) 0x20,
      fun fmt va idx printed => ?_⟩
    simp only [PrintState.character, hleft, if_true, vaArg, bind, Except.bind, pure, Except.pure,
      PrintState.putchar, PrintState.spaces, List.append_assoc, List.singleton_append,
      List.length_cons, List.length_replicate]
    rw [Nat.add_comm, BitVec.ofNat_add, BitVec.add_assoc]
    rfl
  | false =>
    refine ⟨List.replicate (width.toNat - 1) 0x20 ++ [UInt8.ofBitVec (arg.setWidth 8)],
      fun fmt va idx printed => ?_⟩
    simp only [PrintState.character, hleft, Bool.false_eq_true, if_false, vaArg, bind, Except.bind,
      pure, Except.pure, PrintState.putchar, PrintState.spaces, List.append_assoc,
      List.length_append, List.length_replicate, List.length_singleton]
    rw [BitVec.ofNat_add, ← BitVec.add_assoc]
    rfl

theorem string_ok (arg : BitVec 64) (flags : PrintFlags) (width precision : BitVec 32) :
    ∃ out, ∀ fmt va idx printed,
      PrintState.string mem ⟨fmt, arg :: va, flags, width, precision, idx, printed⟩ =
        .ok ⟨fmt, va, flags, width, precision,
          idx + BitVec.ofNat 32 out.length, printed ++ out⟩ := by
  let l := (mem arg).length % 2 ^ 32
  let l' := if flags.precision then (if l < precision.toNat then l else precision.toNat) else l
  let text := if flags.precision then (mem arg).take precision.toNat else mem arg
  cases hleft : flags.left with
  | true =>
    refine ⟨text ++ List.replicate (width.toNat - l') 0x20, fun fmt va idx printed => ?_⟩
    simp only [PrintState.string, hleft, if_true, vaArg, bind, Except.bind, pure, Except.pure,
      PrintState.spaces, List.append_assoc, List.length_append, List.length_replicate]
    rw [BitVec.ofNat_add, ← BitVec.add_assoc]
  | false =>
    refine ⟨List.replicate (width.toNat - l') 0x20 ++ text, fun fmt va idx printed => ?_⟩
    simp only [PrintState.string, hleft, Bool.false_eq_true, if_false, vaArg, bind, Except.bind,
      pure, Except.pure, PrintState.spaces, List.append_assoc, List.length_append,
      List.length_replicate]
    rw [BitVec.ofNat_add, ← BitVec.add_assoc]

/-- What a conversion prints, and the flags that it leaves. -/
theorem convert_ok (conv : UInt8) (hargs : args.length = (takesArgument conv).toNat)
    (flags : PrintFlags) (width precision : BitVec 32) :
    ∃ out width', ∀ rest va idx printed,
      PrintState.convert mem ⟨conv :: rest, args ++ va, flags, width, precision, idx, printed⟩ =
        .ok ⟨rest, va, conversionFlags conv flags, width', precision,
          idx + BitVec.ofNat 32 out.length, printed ++ out⟩ := by
  have hcurrent (rest : List UInt8) : currentChar (conv :: rest) = conv := rfl
  by_cases htakes : takesArgument conv
  · rw [htakes] at hargs
    obtain ⟨arg, rfl⟩ := List.length_eq_one_iff.mp hargs
    simp only [List.singleton_append, PrintState.convert, hcurrent, conversionFlags]
    by_cases hinteger : isInteger conv
    · obtain ⟨out, hout⟩ := integer_ok conv arg flags width precision
      refine ⟨out, width, fun rest va idx printed => ?_⟩
      simp only [hinteger, if_true, hout]
      rfl
    simp only [takesArgument, hinteger, Bool.false_or, Bool.or_eq_true, decide_eq_true_eq] at htakes
    obtain (rfl | rfl) | rfl := htakes
    · obtain ⟨out, hout⟩ := character_ok arg flags width precision
      refine ⟨out, width, fun rest va idx printed => ?_⟩
      simp only [hinteger, if_true, Bool.false_eq_true, if_false, hout]
      rfl
    · obtain ⟨out, hout⟩ := string_ok mem arg flags width precision
      refine ⟨out, width, fun rest va idx printed => ?_⟩
      have hc : ¬(0x73 : UInt8) = 0x63 := by decide
      simp only [hinteger, if_true, Bool.false_eq_true, if_false, hc, hout]
      rfl
    · obtain ⟨out, hout⟩ :=
        number_ok arg (by decide : 1 < 16) false { flags with zeropad := true, upper := true } 16
          precision
      refine ⟨out, 16, fun rest va idx printed => ?_⟩
      have hc : ¬(0x70 : UInt8) = 0x63 := by decide
      have hs : ¬(0x70 : UInt8) = 0x73 := by decide
      simp only [hinteger, if_true, Bool.false_eq_true, if_false, hc, hs, PrintState.pointer, vaArg,
        bind, Except.bind, hout]
      rfl
  · rw [Bool.not_eq_true] at htakes
    rw [htakes] at hargs
    obtain rfl := List.eq_nil_of_length_eq_zero hargs
    refine ⟨[conv], width, fun rest va idx printed => ?_⟩
    simp only [takesArgument, Bool.or_eq_false_iff, decide_eq_false_iff_not] at htakes
    obtain ⟨⟨⟨hinteger, hc⟩, hs⟩, hp⟩ := htakes
    simp only [List.nil_append, PrintState.convert, hcurrent, conversionFlags, hinteger,
      Bool.false_eq_true, if_false, hc, hs, hp]
    rfl

/-! ## Directives -/

theorem append_of_le_length {l : List α} (h : m ≤ l.length) :
    ∃ l₁ l₂, l = l₁ ++ l₂ ∧ l₁.length = m :=
  ⟨l.take m, l.drop m, (List.take_append_drop m l).symm, List.length_take_of_le h⟩

theorem append_of_length_eq_add {l : List α} (h : l.length = m + n) :
    ∃ l₁ l₂, l = l₁ ++ l₂ ∧ l₁.length = m ∧ l₂.length = n := by
  have hle : m ≤ l.length := by omega
  obtain ⟨l₁, l₂, rfl, h₁⟩ := append_of_le_length hle
  refine ⟨l₁, l₂, rfl, h₁, ?_⟩
  rw [List.length_append, h₁] at h
  exact Nat.add_left_cancel h

theorem Field.negative_append {field : Field} (hargs : field.slots ≤ args.length)
    (va : List (BitVec 64)) : field.negative (args ++ va) = field.negative args := by
  cases field with
  | digits ds => rfl
  | star =>
    cases args with
    | nil => exact absurd hargs (by decide)
    | cons arg args => rfl

theorem Field.widthValue_append {field : Field} (hargs : field.slots ≤ args.length)
    (va : List (BitVec 64)) : field.widthValue (args ++ va) = field.widthValue args := by
  cases field with
  | digits ds => rfl
  | star =>
    cases args with
    | nil => exact absurd hargs (by decide)
    | cons arg args => rfl

namespace Conversion

variable {c : Conversion}

theorem afterWidth_eq (c : Conversion) : c.afterWidth = c.pointed ++ c.afterPrecision := by
  rw [afterWidth, pointed]
  split <;> rfl

theorem body_eq (c : Conversion) : c.body = c.front ++ [c.conv] := by
  simp only [body, front, afterFlags, afterWidth_eq, afterPrecision, List.append_assoc]

/-- The precision, as the conversion specification has it. -/
theorem readPrecision_encode (h : c.Splits) (hargs : args.length = c.precisionSlots)
    (s : PrintState) {tail : List UInt8} (va : List (BitVec 64)) (htail : currentChar tail = c.conv)
    (hfmt : s.fmt = c.pointed ++ (c.length.encode ++ tail)) (hva : s.va = args ++ va) :
    s.readPrecision = .ok { s with
      fmt := c.length.encode ++ tail, va
      precision := c.precision.elim 0 fun field => field.precisionValue args
      flags := if c.precision.isSome then { s.flags with precision := true } else s.flags } := by
  have hnext : currentChar (c.length.encode ++ tail) = currentChar c.afterPrecision :=
    currentChar_append_congr _ htail
  cases hp : c.precision with
  | none =>
    simp only [precisionSlots, hp] at hargs
    obtain rfl := List.eq_nil_of_length_eq_zero hargs
    simp only [pointed, hp, List.nil_append] at hfmt
    rw [readPrecision_none s (by rw [hfmt, hnext]; exact h.noPrecision hp), ← hfmt]
    congr
  | some field =>
    simp only [precisionSlots, hp] at hargs
    simp only [pointed, hp, List.cons_append] at hfmt
    exact readPrecision_some (h.precision field hp) hargs s hnext hfmt hva

/-- What is read in front of the `switch` over the conversion. -/
theorem specification_front (h : c.Splits)
    (hargs : args.length = c.width.slots + c.precisionSlots) (flags : PrintFlags)
    {tail : List UInt8} (htail : currentChar tail = c.conv) (va : List (BitVec 64))
    (width precision idx : BitVec 32) (printed : List UInt8) :
    PrintState.specification mem
        ⟨c.front ++ tail, args ++ va, flags, width, precision, idx, printed⟩ =
      PrintState.convert mem ⟨tail, va, c.flagsRead args flags, c.widthRead args,
        c.precisionRead args, idx, printed⟩ := by
  obtain ⟨args₁, args₂, rfl, hargs₁, hargs₂⟩ := append_of_length_eq_add hargs
  have hwidth : currentChar (c.pointed ++ (c.length.encode ++ tail)) =
      currentChar c.afterWidth := by
    rw [afterWidth_eq, afterPrecision, ← List.append_assoc, ← List.append_assoc]
    exact currentChar_append_congr _ htail
  have hflags (f : PrintFlag) :
      currentChar (c.width.encode ++ (c.pointed ++ (c.length.encode ++ tail))) ≠ f.char := by
    rw [currentChar_append_congr c.width.encode hwidth]
    exact h.flags f
  simp only [PrintState.specification, PrintState.readFlags, front, List.append_assoc,
    readFlags_map c.flags hflags]
  rw [readWidth_encode h.width hargs₁ _ (args₂ ++ va) hwidth rfl rfl]
  simp only [bind, Except.bind]
  rw [readPrecision_encode h hargs₂ _ va htail rfl rfl]
  simp only
  rw [readLength_encode h.length _ htail rfl]
  rw [flagsRead, Field.negative_append (Nat.le_of_eq hargs₁.symm), widthRead,
    Field.widthValue_append (Nat.le_of_eq hargs₁.symm), precisionRead, ← hargs₁, List.drop_left]

theorem specification_eq (hwf : c.WF) (hargs : args.length = c.width.slots + c.precisionSlots)
    (flags : PrintFlags) (rest : List UInt8) (va : List (BitVec 64))
    (width precision idx : BitVec 32) (printed : List UInt8) :
    PrintState.specification mem
        ⟨c.body ++ rest, args ++ va, flags, width, precision, idx, printed⟩ =
      PrintState.convert mem ⟨c.conv :: rest, va, c.flagsRead args flags, c.widthRead args,
        c.precisionRead args, idx, printed⟩ := by
  rw [body_eq, List.append_assoc]
  exact specification_front mem hwf.splits hargs flags rfl va width precision idx printed

/-- The specification of an integer conversion, up to the call of `ntoa_long`. -/
theorem specification_integer (hwf : c.WF) (hint : isInteger c.conv)
    (hargs : args.length = c.width.slots + c.precisionSlots) (arg : BitVec 64) (flags : PrintFlags)
    (width precision idx : BitVec 32) (printed : List UInt8) :
    let flags' := integerFlags c.conv (c.flagsRead args flags)
    let value := integerArg c.conv flags' arg
    PrintState.specification mem ⟨c.body, args ++ [arg], flags, width, precision, idx, printed⟩ =
      (PrintState.number
        ⟨[c.conv], [], flags', c.widthRead args, c.precisionRead args, idx, printed⟩
        value.1 (integerBase c.conv) value.2 >>= PrintState.advance) := by
  have heq := specification_eq mem hwf hargs flags [] [arg] width precision idx printed
  have hcurrent : currentChar [c.conv] = c.conv := rfl
  rw [List.append_nil] at heq
  rw [heq]
  simp only [PrintState.convert, hcurrent, hint, if_true, integer_eq]

/-- What a conversion specification prints, and the flags that it leaves. -/
theorem specification_ok (hwf : c.WF) (hargs : args.length = c.slots) (flags : PrintFlags) :
    ∃ out width' precision', ∀ rest va width precision idx printed,
      PrintState.specification mem
          ⟨c.body ++ rest, args ++ va, flags, width, precision, idx, printed⟩ =
        .ok ⟨rest, va, conversionFlags c.conv (c.flagsRead args flags), width', precision',
          idx + BitVec.ofNat 32 out.length, printed ++ out⟩ := by
  obtain ⟨args₁, args₂, rfl, hargs₁, hargs₂⟩ := append_of_length_eq_add hargs
  obtain ⟨out, width', hout⟩ := convert_ok mem c.conv hargs₂ (c.flagsRead args₁ flags)
    (c.widthRead args₁) (c.precisionRead args₁)
  have hread : c.flagsRead (args₁ ++ args₂) flags = c.flagsRead args₁ flags := by
    rw [flagsRead, flagsRead, Field.negative_append (by omega)]
  refine ⟨out, width', c.precisionRead args₁, fun rest va width precision idx printed => ?_⟩
  rw [List.append_assoc, specification_eq mem hwf hargs₁, hread]
  exact hout rest va idx printed

end Conversion

/-- The loop of `vprintf` prints `out` for the directives, when it comes to them with `flags`. -/
def Prints (ds : List Directive) (args : List (BitVec 64)) (flags : PrintFlags) (out : List UInt8) :
    Prop :=
  ∀ rest va width precision idx printed, ∃ width' precision', ∀ fuel,
    vprintfLoop mem (fuel + ds.length)
        ⟨encode ds ++ rest, args ++ va, flags, width, precision, idx, printed⟩ =
      vprintfLoop mem fuel
        ⟨rest, va, flagsAfter ds args flags, width', precision', idx + BitVec.ofNat 32 out.length,
          printed ++ out⟩

variable {ds ds' : List Directive} {args' : List (BitVec 64)}

theorem prints_nil (flags : PrintFlags) : Prints mem [] [] flags [] := by
  intro rest va width precision idx printed
  refine ⟨width, precision, fun fuel => ?_⟩
  simp [encode, flagsAfter]

theorem prints_literal (h : (Directive.literal c).WF) (flags : PrintFlags) :
    Prints mem [.literal c] [] flags [c] := by
  intro rest va width precision idx printed
  refine ⟨width, precision, fun fuel => ?_⟩
  simp [vprintfLoop, encode, Directive.encode, h.1, h.2, flagsAfter, Directive.flagsAfter,
    PrintState.putchar]

/-- What a conversion specification prints is what a round of the loop prints at its bytes. -/
theorem prints_conversion {c : Conversion} (hwf : c.WF) (hargs : args.length = c.slots)
    (flags : PrintFlags) :
    ∃ out, Prints mem [.conversion c] args flags out ∧
      (PrintState.specification mem ⟨c.body, args, flags, 0, 0, 0, []⟩).map PrintState.out =
        .ok out := by
  obtain ⟨out, width', precision', hspec⟩ := Conversion.specification_ok mem hwf hargs flags
  refine ⟨out, fun rest va width precision idx printed => ⟨width', precision', fun fuel => ?_⟩, ?_⟩
  · have henc : encode [.conversion c] ++ rest = 0x25 :: (c.body ++ rest) := by
      simp [encode, Directive.encode]
    have hzero : ¬(0x25 : UInt8) = 0 := by decide
    simp only [henc, List.length_singleton, vprintfLoop, hzero, if_false, ne_eq, not_true_eq_false,
      hspec, bind, Except.bind]
    rfl
  · have h := hspec [] [] 0 0 0 []
    rw [List.append_nil, List.append_nil] at h
    rw [h]
    rfl

theorem Directive.flagsAfter_append {d : Directive} (hargs : args.length = d.slots)
    (va : List (BitVec 64)) (flags : PrintFlags) :
    d.flagsAfter (args ++ va) flags = d.flagsAfter args flags := by
  cases d with
  | literal c => rfl
  | conversion c =>
    have hslots : c.width.slots ≤ args.length := by
      rw [hargs, slots, Conversion.slots, Nat.add_assoc]
      exact Nat.le_add_right _ _
    rw [flagsAfter, flagsAfter, Conversion.flagsRead, Conversion.flagsRead,
      Field.negative_append hslots]

variable {mem} in
theorem Prints.cons (hd : Prints mem [d] args flags out) (hargs : args.length = d.slots)
    (hds : Prints mem ds args' (d.flagsAfter args flags) out') :
    Prints mem (d :: ds) (args ++ args') flags (out ++ out') := by
  intro rest va width precision idx printed
  obtain ⟨width₁, precision₁, h₁⟩ :=
    hd (encode ds ++ rest) (args' ++ va) width precision idx printed
  obtain ⟨width₂, precision₂, h₂⟩ := hds rest va width₁ precision₁
    (idx + BitVec.ofNat 32 out.length) (printed ++ out)
  refine ⟨width₂, precision₂, fun fuel => ?_⟩
  have hflags : Format.flagsAfter (d :: ds) (args ++ args') flags =
      Format.flagsAfter ds args' (d.flagsAfter args flags) := by
    rw [Format.flagsAfter, Directive.flagsAfter_append hargs, ← hargs, List.drop_left]
  have henc : encode (d :: ds) ++ rest = encode [d] ++ (encode ds ++ rest) := by
    simp [encode]
  rw [hflags, henc, List.append_assoc, List.length_cons, ← Nat.add_assoc]
  refine (h₁ (fuel + ds.length)).trans ?_
  refine (h₂ fuel).trans ?_
  rw [List.append_assoc, List.length_append, BitVec.ofNat_add, BitVec.add_assoc]

/-- A format prints something, whatever flags it finds. -/
theorem exists_prints (hwf : ∀ d ∈ ds, d.WF) (hargs : args.length = slots ds)
    (flags : PrintFlags) : ∃ out, Prints mem ds args flags out := by
  induction ds generalizing args flags with
  | nil =>
    obtain rfl := List.eq_nil_of_length_eq_zero hargs
    exact ⟨[], prints_nil mem flags⟩
  | cons d ds ih =>
    rw [slots, List.map_cons, List.sum_cons] at hargs
    obtain ⟨args₁, args₂, rfl, hargs₁, hargs₂⟩ := append_of_length_eq_add hargs
    obtain ⟨out₂, hout₂⟩ := ih (fun d' h => hwf d' (List.mem_cons_of_mem _ h)) hargs₂
      (d.flagsAfter args₁ flags)
    have hd : ∃ out, Prints mem [d] args₁ flags out := by
      cases d with
      | literal c =>
        obtain rfl := List.eq_nil_of_length_eq_zero hargs₁
        exact ⟨[c], prints_literal mem (hwf _ List.mem_cons_self) flags⟩
      | conversion c =>
        obtain ⟨out, hout, -⟩ := prints_conversion mem (hwf _ List.mem_cons_self) hargs₁ flags
        exact ⟨out, hout⟩
    obtain ⟨out₁, hout₁⟩ := hd
    exact ⟨out₁ ++ out₂, hout₁.cons hargs₁ hout₂⟩

theorem length_le_encode (ds : List Directive) : ds.length ≤ (encode ds).length := by
  induction ds with
  | nil => exact Nat.le_refl 0
  | cons d ds ih =>
    have hd : 1 ≤ d.encode.length := by
      cases d <;> simp [Directive.encode]
    simp only [encode, List.flatMap_cons, List.length_append, List.length_cons] at ih ⊢
    omega

theorem vprintfLoop_end (fuel : Nat) (s : PrintState) (h : s.fmt = []) :
    vprintfLoop mem (fuel + 1) s = .ok s := by
  rw [vprintfLoop, h]

variable {mem}

/-- A call of `vprintf` on two formats in one. It returns the number of characters. -/
theorem vprintf_append (hds : Prints mem ds args {} out)
    (hds' : Prints mem ds' args' (flagsAfter ds args {}) out') (va : List (BitVec 64)) :
    vprintf mem (encode ds ++ encode ds') (args ++ (args' ++ va)) =
      .ok (out ++ out', BitVec.ofNat 32 (out ++ out').length, va) := by
  obtain ⟨width₁, precision₁, h₁⟩ := hds (encode ds') (args' ++ va) 0 0 0 []
  obtain ⟨width₂, precision₂, h₂⟩ :=
    hds' [] va width₁ precision₁ (0 + BitVec.ofNat 32 out.length) out
  have hlen := length_le_encode ds
  have hlen' := length_le_encode ds'
  obtain ⟨fuel, hfuel⟩ : ∃ fuel, (encode ds ++ encode ds').length + 1 =
      fuel + 1 + ds'.length + ds.length :=
    ⟨(encode ds ++ encode ds').length - ds'.length - ds.length, by
      rw [List.length_append]
      omega⟩
  rw [List.append_nil] at h₂
  have hidx : 0 + BitVec.ofNat 32 out.length + BitVec.ofNat 32 out'.length =
      BitVec.ofNat 32 (out ++ out').length := by
    rw [BitVec.ofNat_eq_ofNat, BitVec.zero_add, List.length_append, BitVec.ofNat_add]
  rw [vprintf, hfuel, h₁, List.nil_append, h₂, vprintfLoop_end mem fuel _ rfl, ← hidx]
  rfl

theorem vprintf_encode (hds : Prints mem ds args {} out) (va : List (BitVec 64)) :
    vprintf mem (encode ds) (args ++ va) = .ok (out, BitVec.ofNat 32 out.length, va) := by
  have h := vprintf_append hds (prints_nil mem _) va
  have hnil : encode ds ++ encode [] = encode ds := List.append_nil _
  rwa [hnil, List.append_nil, List.nil_append] at h

/-- `vprintf` returns the number of characters that it has printed, as an `int`, and leaves the
arguments that the format does not ask for. -/
theorem vprintf_counts (mem : BitVec 64 → List UInt8) (ds : List Directive)
    (args va : List (BitVec 64)) (hwf : ∀ d ∈ ds, d.WF) (hargs : args.length = slots ds) :
    ∃ out, vprintf mem (encode ds) (args ++ va) = .ok (out, BitVec.ofNat 32 out.length, va) := by
  obtain ⟨out, hout⟩ := exists_prints mem hwf hargs {}
  exact ⟨out, vprintf_encode hout va⟩

set_option maxRecDepth 4000 in
/-- `%5d%q` with the argument -3: the unknown conversion is printed as its character. -/
theorem vprintf_counts_six : ∃ out, vprintf (fun _ => []) [0x25, 0x35, 0x64, 0x25, 0x71] [-3] =
    .ok (out, BitVec.ofNat 32 out.length, []) :=
  vprintf_counts (fun _ => [])
    [.conversion { width := .digits [0x35], conv := 0x64 }, .conversion { conv := 0x71 }] [-3] []
    (by decide) rfl

end Format

end Lethe
