import Lethe.Libc.Compose

/-!
# The flags that a format leaves

`vprintf` starts with no flags and sets `width` and `precision` anew for every conversion, but it
never resets `flags`. So a format is printed after another one as it is printed alone exactly if
the other one leaves no flags behind.
-/

namespace Lethe

namespace Format

namespace Directive

/-- None of the flags that the directive sets is one that no conversion clears. -/
def Transient : Directive → List (BitVec 64) → Prop
  | literal _, _ => True
  | conversion c, va =>
    .zero ∉ c.flags ∧ .minus ∉ c.flags ∧ c.width.negative va = false ∧ c.precision = none ∧
      c.length = .none ∧ c.conv ≠ 0x58 ∧ c.conv ≠ 0x70

/-- The flag character stands in the directive. -/
def has (f : PrintFlag) : Directive → Bool
  | literal _ => false
  | conversion c => f ∈ c.flags

/-- `d`, `i` and `u`, which clear `FLAGS_HASH`. -/
def clearsHash : Directive → Bool
  | literal _ => false
  | conversion c => c.conv = 0x64 || c.conv = 0x69 || c.conv = 0x75

/-- `u`, `x`, `X`, `o` and `b`, which clear `FLAGS_PLUS` and `FLAGS_SPACE`. -/
def clearsSign : Directive → Bool
  | literal _ => false
  | conversion c =>
    c.conv = 0x75 || c.conv = 0x78 || c.conv = 0x58 || c.conv = 0x6F || c.conv = 0x62

end Directive

/-- Every directive is transient, with its own arguments. -/
def AllTransient : List Directive → List (BitVec 64) → Prop
  | [], _ => True
  | d :: ds, va => d.Transient va ∧ AllTransient ds (va.drop d.slots)

/-- Every directive in `sets` is in `clears` itself, or one behind it is. -/
def Cleared (sets clears : Directive → Bool) : List Directive → Prop
  | [] => True
  | d :: ds => (sets d → ∃ d' ∈ d :: ds, clears d') ∧ Cleared sets clears ds

/-- No flag of the format is left when it has been printed. -/
structure LeavesNoFlags (ds : List Directive) (va : List (BitVec 64)) : Prop where
  transient : AllTransient ds va
  hash : Cleared (Directive.has .hash) Directive.clearsHash ds
  plus : Cleared (Directive.has .plus) Directive.clearsSign ds
  space : Cleared (Directive.has .space) Directive.clearsSign ds

/-! ## The flags after a directive -/

/-- A flag is set that no conversion clears; `FLAGS_ZEROPAD` is cleared only where
`FLAGS_PRECISION` is set. -/
def stuck (flags : PrintFlags) : Bool :=
  flags.zeropad || flags.left || flags.upper || flags.char || flags.short || flags.long ||
    flags.longLong || flags.precision

theorem eq_empty_iff (flags : PrintFlags) :
    flags = {} ↔ stuck flags = false ∧ flags.hash = false ∧ flags.plus = false ∧
      flags.space = false := by
  obtain ⟨zeropad, left, plus, space, hash, upper, char, short, long, longLong, precision⟩ := flags
  simp only [stuck, PrintFlags.mk.injEq, Bool.or_eq_false_iff]
  grind

theorem stuck_flagsRead (c : Conversion) (va : List (BitVec 64)) (flags : PrintFlags) :
    stuck (c.flagsRead va flags) = false ↔ stuck flags = false ∧ .zero ∉ c.flags ∧
      .minus ∉ c.flags ∧ c.width.negative va = false ∧ c.precision = none ∧ c.length = .none := by
  simp only [Conversion.flagsRead, foldl_set]
  cases c.width.negative va <;> cases c.precision <;> cases c.length <;>
    simp [stuck, LengthModifier.set]
  grind

theorem stuck_conversionFlags (conv : UInt8) (flags : PrintFlags) :
    stuck (conversionFlags conv flags) = false ↔
      stuck flags = false ∧ conv ≠ 0x58 ∧ conv ≠ 0x70 := by
  rw [conversionFlags]
  split
  next hinteger =>
    -- `zeropad` is cleared only together with a `precision` that stays
    have hp : conv ≠ 0x70 := by
      rintro rfl
      cases hinteger
    simp only [integerFlags_eq, stuck, Bool.or_eq_false_iff, decide_eq_false_iff_not]
    cases flags.precision <;> simp [hp]
    tauto
  next hinteger =>
    have hX : conv ≠ 0x58 := by
      rintro rfl
      exact hinteger rfl
    split
    next hp => simp [stuck, hp]
    next hp => simp [hX, hp]

theorem stuck_flagsAfter (d : Directive) (va : List (BitVec 64)) (flags : PrintFlags) :
    stuck (d.flagsAfter va flags) = false ↔ stuck flags = false ∧ d.Transient va := by
  cases d with
  | literal c => exact (and_iff_left trivial).symm
  | conversion c =>
    rw [Directive.flagsAfter, stuck_conversionFlags, stuck_flagsRead, Directive.Transient]
    tauto

/-- The flags that the conversion specification sets and that some conversion clears. -/
theorem flagsRead_signs (c : Conversion) (va : List (BitVec 64)) (flags : PrintFlags) :
    (c.flagsRead va flags).hash = (flags.hash || .hash ∈ c.flags) ∧
      (c.flagsRead va flags).plus = (flags.plus || .plus ∈ c.flags) ∧
      (c.flagsRead va flags).space = (flags.space || .space ∈ c.flags) := by
  simp only [Conversion.flagsRead, foldl_set]
  cases c.width.negative va <;> cases c.precision <;> cases c.length <;> exact ⟨rfl, rfl, rfl⟩

theorem conversionFlags_signs (c : Conversion) (flags : PrintFlags) :
    (conversionFlags c.conv flags).hash =
        (flags.hash && !(Directive.conversion c).clearsHash) ∧
      (conversionFlags c.conv flags).plus =
        (flags.plus && !(Directive.conversion c).clearsSign) ∧
      (conversionFlags c.conv flags).space =
        (flags.space && !(Directive.conversion c).clearsSign) := by
  simp only [conversionFlags, Directive.clearsHash, Directive.clearsSign]
  generalize c.conv = conv
  split
  next hinteger =>
    simp only [integerFlags_eq]
    simp only [isInteger, Bool.or_eq_true, decide_eq_true_eq] at hinteger
    obtain (((((rfl | rfl) | rfl) | rfl) | rfl) | rfl) | rfl := hinteger <;>
      exact ⟨rfl, rfl, rfl⟩
  next hinteger =>
    simp only [isInteger, Bool.or_eq_true, decide_eq_true_eq, not_or] at hinteger
    split <;> simp [hinteger]

theorem hash_flagsAfter (d : Directive) (va : List (BitVec 64)) (flags : PrintFlags) :
    (d.flagsAfter va flags).hash = ((flags.hash || d.has .hash) && !d.clearsHash) := by
  cases d with
  | literal c => simp [Directive.flagsAfter, Directive.has, Directive.clearsHash]
  | conversion c =>
    rw [Directive.flagsAfter, (conversionFlags_signs c _).1, (flagsRead_signs c va flags).1]
    rfl

theorem plus_flagsAfter (d : Directive) (va : List (BitVec 64)) (flags : PrintFlags) :
    (d.flagsAfter va flags).plus = ((flags.plus || d.has .plus) && !d.clearsSign) := by
  cases d with
  | literal c => simp [Directive.flagsAfter, Directive.has, Directive.clearsSign]
  | conversion c =>
    rw [Directive.flagsAfter, (conversionFlags_signs c _).2.1, (flagsRead_signs c va flags).2.1]
    rfl

theorem space_flagsAfter (d : Directive) (va : List (BitVec 64)) (flags : PrintFlags) :
    (d.flagsAfter va flags).space = ((flags.space || d.has .space) && !d.clearsSign) := by
  cases d with
  | literal c => simp [Directive.flagsAfter, Directive.has, Directive.clearsSign]
  | conversion c =>
    rw [Directive.flagsAfter, (conversionFlags_signs c _).2.2, (flagsRead_signs c va flags).2.2]
    rfl

/-! ## The flags after a format -/

theorem stuck_flagsAfter_list (ds : List Directive) (va : List (BitVec 64)) (flags : PrintFlags) :
    stuck (flagsAfter ds va flags) = false ↔ stuck flags = false ∧ AllTransient ds va := by
  induction ds generalizing va flags with
  | nil => exact (and_iff_left trivial).symm
  | cons d ds ih => rw [flagsAfter, ih, stuck_flagsAfter, AllTransient, and_assoc]

theorem flagsAfter_cleared {bit : PrintFlags → Bool} {sets clears : Directive → Bool}
    (h : ∀ (d : Directive) va flags,
      bit (d.flagsAfter va flags) = ((bit flags || sets d) && !clears d))
    (ds : List Directive) (va : List (BitVec 64)) (flags : PrintFlags) :
    bit (flagsAfter ds va flags) = false ↔
      (bit flags = true → ∃ d ∈ ds, clears d) ∧ Cleared sets clears ds := by
  induction ds generalizing va flags with
  | nil => simp [flagsAfter, Cleared]
  | cons d ds ih =>
    rw [flagsAfter, ih, h, Cleared]
    cases bit flags <;> cases sets d <;> cases hclears : clears d <;> simp [hclears]

theorem flagsAfter_eq_empty_iff (ds : List Directive) (va : List (BitVec 64)) :
    flagsAfter ds va {} = {} ↔ LeavesNoFlags ds va := by
  rw [eq_empty_iff, stuck_flagsAfter_list, flagsAfter_cleared hash_flagsAfter,
    flagsAfter_cleared plus_flagsAfter, flagsAfter_cleared space_flagsAfter]
  constructor
  · rintro ⟨h, hhash, hplus, hspace⟩
    exact ⟨h.2, hhash.2, hplus.2, hspace.2⟩
  · intro h
    exact ⟨⟨rfl, h.transient⟩, ⟨by simp, h.hash⟩, ⟨by simp, h.plus⟩, by simp, h.space⟩

/-! ## Conversions that show a flag -/

/-- What a conversion with one argument prints. -/
def printed (mem : BitVec 64 → List UInt8) (c : Conversion) (arg : BitVec 64) (flags : PrintFlags) :
    Option (List UInt8) :=
  (PrintState.specification mem ⟨c.body, [arg], flags, 0, 0, 0, []⟩).toOption.map PrintState.out

variable {mem : BitVec 64 → List UInt8}

/-- `%2c` prints the character before the space if `FLAGS_LEFT` is set. -/
theorem printed_left (flags : PrintFlags) :
    printed mem { width := .digits [0x32], conv := 0x63 } 0x61 flags =
      some (if flags.left then [0x61, 0x20] else [0x20, 0x61]) := by
  obtain ⟨zeropad, left, plus, space, hash, upper, char, short, long, longLong, precision⟩ := flags
  cases left <;> rfl

/-- An integer conversion prints what the flags say that it leaves when it has cleared some. -/
theorem printed_congr {c : Conversion} (hwf : c.WF) (hint : isInteger c.conv)
    (hslots : c.width.slots + c.precisionSlots = 0)
    (h : integerFlags c.conv (c.flagsRead [] flags) = integerFlags c.conv (c.flagsRead [] flags')) :
    printed mem c arg flags = printed mem' c arg flags' := by
  have hargs : ([] : List (BitVec 64)).length = c.width.slots + c.precisionSlots := hslots.symm
  have hprinted (mem : BitVec 64 → List UInt8) (flags : PrintFlags) :=
    Conversion.specification_integer mem hwf hint hargs arg flags 0 0 0 []
  simp only [List.nil_append] at hprinted
  rw [printed, printed, hprinted, hprinted, h]

variable (mem) in
/-- `%u` clears three of the flags before it prints. -/
theorem printed_unsigned (hwf : Conversion.WF { width := .digits ds, conv := 0x75 })
    (arg : BitVec 64) (flags : PrintFlags) :
    printed mem { width := .digits ds, conv := 0x75 } arg flags =
      printed (fun _ => []) { width := .digits ds, conv := 0x75 } arg
        { flags with plus := false, space := false, hash := false } :=
  printed_congr hwf rfl rfl rfl

/-- `%u` prints no zero if `FLAGS_PRECISION` is set. -/
theorem printed_precision : ∀ zeropad upper char short long longLong : Bool,
    printed (fun _ => []) { conv := 0x75 } 0
        { zeropad, upper, char, short, long, longLong, precision := true } ≠
      printed (fun _ => []) { conv := 0x75 } 0 {} := by
  decide +kernel

/-- `%2u` fills up with a zero if `FLAGS_ZEROPAD` is set. -/
theorem printed_zeropad : ∀ upper char short long longLong : Bool,
    printed (fun _ => []) { width := .digits [0x32], conv := 0x75 } 1
        { zeropad := true, upper, char, short, long, longLong } ≠
      printed (fun _ => []) { width := .digits [0x32], conv := 0x75 } 1 {} := by
  decide +kernel

/-- `%u` prints more or fewer of the bytes of its argument if the flag of a length is set. -/
theorem printed_length : ∀ upper char short long longLong : Bool,
    printed (fun _ => []) { conv := 0x75 } 0x100010100 { upper, char, short, long, longLong } =
        printed (fun _ => []) { conv := 0x75 } 0x100010100 {} →
      char = false ∧ short = false ∧ long = false ∧ longLong = false := by
  decide +kernel

/-- `%x` shows `FLAGS_HASH` and `FLAGS_UPPER`. -/
theorem printed_hash : ∀ plus space hash upper : Bool,
    printed (fun _ => []) { conv := 0x78 } 10 { plus, space, hash, upper } =
        printed (fun _ => []) { conv := 0x78 } 10 {} →
      hash = false ∧ upper = false := by
  decide +kernel

/-- `%d` shows `FLAGS_PLUS` and `FLAGS_SPACE`. -/
theorem printed_sign : ∀ plus space : Bool,
    printed (fun _ => []) { conv := 0x64 } 1 { plus, space } =
        printed (fun _ => []) { conv := 0x64 } 1 {} →
      plus = false ∧ space = false := by
  decide +kernel

set_option maxRecDepth 4000 in
variable (mem) in
theorem eq_empty_of_printed {flags : PrintFlags}
    (h : ∀ (c : Conversion) arg, c.WF → c.slots = 1 →
      printed mem c arg flags = printed mem c arg {}) : flags = {} := by
  obtain ⟨zeropad, left, plus, space, hash, upper, char, short, long, longLong, precision⟩ := flags
  have hunsigned (ds : List UInt8) (hds : ds = [] ∨ ds = [0x32]) (arg : BitVec 64) :
      printed (fun _ => []) { width := .digits ds, conv := 0x75 } arg
          { zeropad, left, upper, char, short, long, longLong, precision } =
        printed (fun _ => []) { width := .digits ds, conv := 0x75 } arg {} := by
    have hwf : Conversion.WF { width := .digits ds, conv := 0x75 } := by
      obtain rfl | rfl := hds <;> decide
    have heq := h _ arg hwf rfl
    rw [printed_unsigned mem hwf, printed_unsigned mem hwf arg {}] at heq
    exact heq
  have hother (conv : UInt8) (hconv : conv = 0x78 ∨ conv = 0x64) (arg : BitVec 64) :
      printed (fun _ => []) { conv } arg
          ⟨zeropad, left, plus, space, hash, upper, char, short, long, longLong, precision⟩ =
        printed (fun _ => []) { conv } arg {} := by
    have hwf : Conversion.WF { conv } := by
      obtain rfl | rfl := hconv <;> decide
    have hint : isInteger conv = true ∧ Conversion.slots { conv } = 1 := by
      obtain rfl | rfl := hconv <;> exact ⟨rfl, rfl⟩
    have heq := h _ arg hwf hint.2
    have hmem (flags : PrintFlags) :
        printed mem { conv } arg flags = printed (fun _ => []) { conv } arg flags :=
      printed_congr hwf hint.1 rfl rfl
    rwa [hmem, hmem] at heq
  have hleft := h { width := .digits [0x32], conv := 0x63 } 0x61 (by decide) rfl
  rw [printed_left, printed_left] at hleft
  obtain rfl : left = false := by
    cases left with
    | false => rfl
    | true => simp at hleft
  obtain rfl : precision = false := by
    cases precision with
    | false => rfl
    | true =>
      exact absurd (hunsigned [] (.inl rfl) 0)
        (printed_precision zeropad upper char short long longLong)
  obtain rfl : zeropad = false := by
    cases zeropad with
    | false => rfl
    | true =>
      exact absurd (hunsigned [0x32] (.inr rfl) 1) (printed_zeropad upper char short long longLong)
  obtain ⟨rfl, rfl, rfl, rfl⟩ := printed_length upper char short long longLong
    (hunsigned [] (.inl rfl) 0x100010100)
  obtain ⟨rfl, rfl⟩ := printed_hash plus space hash upper (hother 0x78 (.inl rfl) 10)
  obtain ⟨rfl, rfl⟩ := printed_sign plus space (hother 0x64 (.inr rfl) 1)
  rfl

/-! ## Formats in a row -/

variable (mem) in
/-- The two formats in a row print what they print alone, one after the other, and take the
arguments of both. -/
def Composes (fmt : List UInt8) (va : List (BitVec 64)) (fmt' : List UInt8)
    (va' : List (BitVec 64)) : Prop :=
  ∃ out out' idx idx' idx'',
    vprintf mem fmt va = .ok (out, idx, []) ∧ vprintf mem fmt' va' = .ok (out', idx', []) ∧
      vprintf mem (fmt ++ fmt') (va ++ va') = .ok (out ++ out', idx'', [])

variable {ds : List Directive} {va : List (BitVec 64)}

theorem composes_of_flagsAfter (hwf : ∀ d ∈ ds, d.WF) (hva : va.length = slots ds)
    (hflags : flagsAfter ds va {} = {}) (hwf' : ∀ d ∈ ds', d.WF) (hva' : va'.length = slots ds') :
    Composes mem (encode ds) va (encode ds') va' := by
  obtain ⟨out, hout⟩ := exists_prints mem hwf hva {}
  obtain ⟨out', hout'⟩ := exists_prints mem hwf' hva' {}
  have h := vprintf_encode hout []
  have h' := vprintf_encode hout' []
  have h'' := vprintf_append hout (by rw [hflags]; exact hout') []
  rw [List.append_nil] at h h' h''
  exact ⟨out, out', _, _, _, h, h', h''⟩

theorem toOption_map (x : Except ε α) (f : α → β) : x.toOption.map f = (x.map f).toOption := by
  cases x <;> rfl

theorem printed_eq_of_composes (hwf : ∀ d ∈ ds, d.WF) (hva : va.length = slots ds) {c : Conversion}
    (hc : c.WF) (hslots : c.slots = 1)
    (h : Composes mem (encode ds) va (encode [.conversion c]) [arg]) :
    printed mem c arg (flagsAfter ds va {}) = printed mem c arg {} := by
  obtain ⟨out, out', idx, idx', idx'', hds, hds', happend⟩ := h
  obtain ⟨out₁, hout₁⟩ := exists_prints mem hwf hva {}
  have hargs : [arg].length = c.slots := hslots.symm
  obtain ⟨out₂, hout₂, hspec₂⟩ := prints_conversion mem hc hargs {}
  obtain ⟨out₃, hout₃, hspec₃⟩ := prints_conversion mem hc hargs (flagsAfter ds va {})
  have h₁ := vprintf_encode hout₁ []
  have h₂ := vprintf_encode hout₂ []
  have h₃ := vprintf_append hout₁ hout₃ []
  rw [List.append_nil] at h₁ h₂ h₃
  obtain ⟨rfl, -⟩ := Prod.mk.inj (Except.ok.inj (hds.symm.trans h₁))
  obtain ⟨rfl, -⟩ := Prod.mk.inj (Except.ok.inj (hds'.symm.trans h₂))
  obtain ⟨happend', -⟩ := Prod.mk.inj (Except.ok.inj (happend.symm.trans h₃))
  obtain rfl := List.append_cancel_left happend'
  rw [printed, printed, toOption_map, toOption_map, hspec₂, hspec₃]

/-- A format is printed after `ds` as it is printed alone, whatever format it is, exactly if `ds`
leaves no flags. -/
theorem vprintf_composes_iff (mem : BitVec 64 → List UInt8) (ds : List Directive)
    (va : List (BitVec 64)) (hwf : ∀ d ∈ ds, d.WF) (hva : va.length = slots ds) :
    (∀ ds' va', (∀ d ∈ ds', d.WF) → va'.length = slots ds' →
      Composes mem (encode ds) va (encode ds') va') ↔ LeavesNoFlags ds va := by
  rw [← flagsAfter_eq_empty_iff]
  constructor
  · intro h
    refine eq_empty_of_printed mem fun c arg hc hslots => ?_
    refine printed_eq_of_composes hwf hva hc hslots (h [.conversion c] [arg] ?_ ?_)
    · rintro d hd
      obtain rfl := List.mem_singleton.mp hd
      exact hc
    · exact hslots.symm
  · intro hflags ds' va' hwf' hva'
    exact composes_of_flagsAfter hwf hva hflags hwf' hva'

set_option maxRecDepth 4000 in
/-- `%#x %u` leaves no flags: `%u` clears that of `%#x`. -/
theorem vprintf_composes_hash :
    LeavesNoFlags
        [.conversion { flags := [.hash], conv := 0x78 }, .literal 0x20, .conversion { conv := 0x75 }]
        [255, 7] ∧
      ∀ ds' va', (∀ d ∈ ds', d.WF) → va'.length = slots ds' →
        Composes (fun _ => []) [0x25, 0x23, 0x78, 0x20, 0x25, 0x75] [255, 7] (encode ds') va' := by
  have hleaves : LeavesNoFlags
      [.conversion { flags := [.hash], conv := 0x78 }, .literal 0x20, .conversion { conv := 0x75 }]
      [255, 7] := by
    constructor <;>
      simp [AllTransient, Directive.Transient, Field.negative, Cleared, Directive.has,
        Directive.clearsHash]
  exact ⟨hleaves, (vprintf_composes_iff (fun _ => []) _ [255, 7] (by decide) rfl).mpr hleaves⟩

/-- `%-3d` followed by `%3d`: the second number is not moved to the right. -/
theorem vprintf_left_stays :
    ¬Composes (fun _ => []) [0x25, 0x2D, 0x33, 0x64] [1] [0x25, 0x33, 0x64] [2] := by
  rintro ⟨out, out', idx, idx', idx'', h, h', h''⟩
  have hfirst : vprintf (fun _ => []) [0x25, 0x2D, 0x33, 0x64] [1] =
      .ok ([0x31, 0x20, 0x20], 3, []) := rfl
  have hsecond : vprintf (fun _ => []) [0x25, 0x33, 0x64] [2] = .ok ([0x20, 0x20, 0x32], 3, []) := rfl
  have hboth : vprintf (fun _ => []) ([0x25, 0x2D, 0x33, 0x64] ++ [0x25, 0x33, 0x64]) ([1] ++ [2]) =
      .ok ([0x31, 0x20, 0x20, 0x32, 0x20, 0x20], 6, []) := rfl
  obtain ⟨rfl, -⟩ := Prod.mk.inj (Except.ok.inj (h.symm.trans hfirst))
  obtain ⟨rfl, -⟩ := Prod.mk.inj (Except.ok.inj (h'.symm.trans hsecond))
  obtain ⟨heq, -⟩ := Prod.mk.inj (Except.ok.inj (h''.symm.trans hboth))
  exact absurd heq (by decide)

end Format

end Lethe
