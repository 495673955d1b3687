import Lethe.Libc.Compose

/-!
# Where `vprintf` stops

The `default` case of the `switch` over the conversion prints the character that it finds and moves
`fmt` on. When the format ends inside a conversion specification that character is the `NUL`, and
the loop goes on behind the end of the format.
-/

namespace Lethe

namespace Format

/-- The format consists of characters and of conversion specifications with their conversion. -/
def Complete (fmt : List UInt8) : Prop :=
  ∃ ds : List Directive, (∀ d ∈ ds, d.WF) ∧ encode ds = fmt

theorem complete_nil : Complete [] := ⟨[], fun _ h => absurd h List.not_mem_nil, rfl⟩

theorem Complete.cons {d : Directive} (hd : d.WF) (h : Complete fmt) :
    Complete (d.encode ++ fmt) := by
  obtain ⟨ds, hds, rfl⟩ := h
  refine ⟨d :: ds, fun d' hd' => ?_, List.flatMap_cons⟩
  obtain rfl | hd' := List.mem_cons.mp hd'
  · exact hd
  · exact hds d' hd'

/-! ## The parts of a conversion specification -/

theorem exists_flags (fmt : List UInt8) :
    ∃ (fs : List PrintFlag) (rest : List UInt8), fmt = fs.map PrintFlag.char ++ rest ∧
      ∀ f : PrintFlag, currentChar rest ≠ f.char := by
  induction fmt with
  | nil =>
    refine ⟨[], [], rfl, fun f => ?_⟩
    cases f <;> decide
  | cons c fmt ih =>
    by_cases hc : ∃ f : PrintFlag, c = f.char
    · obtain ⟨f, rfl⟩ := hc
      obtain ⟨fs, rest, rfl, hrest⟩ := ih
      exact ⟨f :: fs, rest, rfl, hrest⟩
    · exact ⟨[], c :: fmt, rfl, fun f h => hc ⟨f, h⟩⟩

theorem exists_digits (fmt : List UInt8) :
    ∃ ds rest, fmt = ds ++ rest ∧ (∀ d ∈ ds, isDigit d) ∧ isDigit (currentChar rest) = false := by
  induction fmt with
  | nil => exact ⟨[], [], rfl, fun _ h => absurd h List.not_mem_nil, rfl⟩
  | cons c fmt ih =>
    cases hc : isDigit c with
    | false => exact ⟨[], c :: fmt, rfl, fun _ h => absurd h List.not_mem_nil, hc⟩
    | true =>
      obtain ⟨ds, rest, rfl, hds, hrest⟩ := ih
      exact ⟨c :: ds, rest, rfl, List.forall_mem_cons.mpr ⟨hc, hds⟩, hrest⟩

theorem exists_field (fmt : List UInt8) :
    ∃ (field : Field) (rest : List UInt8), fmt = field.encode ++ rest ∧
      field.WF (currentChar rest) := by
  by_cases hstar : currentChar fmt = 0x2A
  · cases fmt with
    | nil => exact absurd hstar (by decide)
    | cons c fmt =>
      obtain rfl : c = 0x2A := hstar
      exact ⟨.star, fmt, rfl, trivial⟩
  · obtain ⟨ds, rest, rfl, hds, hrest⟩ := exists_digits fmt
    refine ⟨.digits ds, rest, rfl, hds, hrest, fun hnil => ?_⟩
    rwa [hnil] at hstar

theorem exists_length (fmt : List UInt8) :
    ∃ (m : LengthModifier) (rest : List UInt8), fmt = m.encode ++ rest ∧
      m.WF (currentChar rest) := by
  cases fmt with
  | nil => exact ⟨.none, [], rfl, by decide⟩
  | cons c fmt =>
    by_cases hl : c = 0x6C
    · subst hl
      by_cases hll : currentChar fmt = 0x6C
      · cases fmt with
        | nil => exact absurd hll (by decide)
        | cons c fmt =>
          obtain rfl : c = 0x6C := hll
          exact ⟨.ll, fmt, rfl, trivial⟩
      · exact ⟨.l, fmt, rfl, hll⟩
    by_cases hh : c = 0x68
    · subst hh
      by_cases hhh : currentChar fmt = 0x68
      · cases fmt with
        | nil => exact absurd hhh (by decide)
        | cons c fmt =>
          obtain rfl : c = 0x68 := hhh
          exact ⟨.hh, fmt, rfl, trivial⟩
      · exact ⟨.h, fmt, rfl, hhh⟩
    by_cases ht : c = 0x74
    · exact ⟨.t, fmt, by rw [ht]; rfl, trivial⟩
    by_cases hj : c = 0x6A
    · exact ⟨.j, fmt, by rw [hj]; rfl, trivial⟩
    by_cases hz : c = 0x7A
    · exact ⟨.z, fmt, by rw [hz]; rfl, trivial⟩
    exact ⟨.none, c :: fmt, rfl, hl, hh, ht, hj, hz⟩

/-- Behind a `%` stand the parts in front of the conversion, and the conversion or nothing. -/
theorem exists_front (fmt : List UInt8) :
    ∃ (c : Conversion) (tail : List UInt8), fmt = c.front ++ tail ∧ currentChar tail = c.conv ∧
      c.Splits := by
  obtain ⟨flags, fmt₁, rfl, hflags⟩ := exists_flags fmt
  obtain ⟨width, fmt₂, rfl, hwidth⟩ := exists_field fmt₁
  have hprecision : ∃ (precision : Option Field) (fmt₃ : List UInt8),
      fmt₂ = precision.elim [] (fun field => 0x2E :: field.encode) ++ fmt₃ ∧
        (∀ field, precision = some field → field.WF (currentChar fmt₃)) ∧
        (precision = none → currentChar fmt₃ ≠ 0x2E) := by
    by_cases hdot : currentChar fmt₂ = 0x2E
    · cases fmt₂ with
      | nil => exact absurd hdot (by decide)
      | cons c fmt₂ =>
        obtain rfl : c = 0x2E := hdot
        obtain ⟨field, fmt₃, rfl, hfield⟩ := exists_field fmt₂
        refine ⟨some field, fmt₃, rfl, fun field' h => ?_, fun h => absurd h (by simp)⟩
        exact Option.some.inj h ▸ hfield
    · exact ⟨none, fmt₂, rfl, fun _ h => absurd h (by simp), fun _ => hdot⟩
  obtain ⟨precision, fmt₃, rfl, hfield, hnone⟩ := hprecision
  obtain ⟨length, tail, rfl, hlength⟩ := exists_length fmt₃
  let c : Conversion := ⟨flags, width, precision, length, currentChar tail⟩
  have hpointed : c.pointed = precision.elim [] fun field => 0x2E :: field.encode := by
    cases precision <;> rfl
  have hafterPrecision : currentChar c.afterPrecision = currentChar (length.encode ++ tail) :=
    currentChar_append_congr _ rfl
  have hafterWidth :
      currentChar c.afterWidth = currentChar (c.pointed ++ (length.encode ++ tail)) := by
    rw [c.afterWidth_eq]
    exact currentChar_append_congr _ hafterPrecision
  refine ⟨c, tail, ?_, rfl, ?_, ?_, ?_, ?_, hlength⟩
  · simp only [Conversion.front, hpointed, List.append_assoc]
    rfl
  · intro f
    rw [Conversion.afterFlags, currentChar_append_congr _ hafterWidth, hpointed]
    exact hflags f
  · rw [hafterWidth, hpointed]
    exact hwidth
  · intro field h
    rw [hafterPrecision]
    exact hfield field h
  · intro h
    rw [hafterPrecision]
    exact hnone h

theorem Field.slots_le (field : Field) : field.slots ≤ field.encode.length := by
  cases field with
  | digits ds => exact Nat.zero_le _
  | star => exact Nat.le_refl 1

theorem Conversion.frontSlots_le (c : Conversion) :
    c.width.slots + c.precisionSlots ≤ c.front.length := by
  have hwidth := c.width.slots_le
  have hprecision : c.precisionSlots ≤ c.pointed.length := by
    rw [precisionSlots, pointed]
    split
    · exact Nat.le_refl 0
    · next field _ => exact Nat.le_succ_of_le field.slots_le
  simp only [front, List.length_append]
  omega

theorem Conversion.slots_le (c : Conversion) : c.slots ≤ c.front.length + 1 := by
  have hfront := c.frontSlots_le
  have htakes := Bool.toNat_le (takesArgument c.conv)
  rw [slots]
  omega

theorem Directive.slots_le (d : Directive) : d.slots ≤ d.encode.length := by
  cases d with
  | literal c => exact Nat.zero_le _
  | conversion c =>
    have hslots := c.slots_le
    rw [slots, encode, Conversion.body_eq]
    simp only [List.length_cons, List.length_append, List.length_nil]
    omega

theorem slots_le (ds : List Directive) : slots ds ≤ (encode ds).length := by
  induction ds with
  | nil => exact Nat.le_refl 0
  | cons d ds ih =>
    have hd := d.slots_le
    simp only [slots, encode, List.map_cons, List.sum_cons, List.flatMap_cons,
      List.length_append] at ih ⊢
    omega

/-! ## The loop -/

variable (mem : BitVec 64 → List UInt8)

/-- A conversion specification without its conversion. -/
theorem specification_unfinished {c : Conversion} (h : c.Splits) (hconv : c.conv = 0)
    {args : List (BitVec 64)} (hargs : c.width.slots + c.precisionSlots ≤ args.length)
    (flags : PrintFlags) (width precision idx : BitVec 32) (printed : List UInt8) :
    PrintState.specification mem ⟨c.front, args, flags, width, precision, idx, printed⟩ =
      .error .formatOverrun := by
  obtain ⟨args₁, args₂, rfl, hargs₁⟩ := append_of_le_length hargs
  have htail : currentChar [] = c.conv := hconv.symm
  have hfront := Conversion.specification_front mem h hargs₁ flags htail args₂ width precision idx
    printed
  rw [List.append_nil] at hfront
  rw [hfront]
  rfl

/-- The loop reads a format to its end, or it is taken behind it. -/
theorem complete_or_overrun {fmt : List UInt8} (hnul : ∀ c ∈ fmt, c ≠ 0) {args : List (BitVec 64)}
    (hargs : fmt.length ≤ args.length) (flags : PrintFlags) (width precision idx : BitVec 32)
    (printed : List UInt8) {fuel : Nat} (hfuel : fmt.length < fuel) :
    Complete fmt ∨
      vprintfLoop mem fuel ⟨fmt, args, flags, width, precision, idx, printed⟩ =
        .error .formatOverrun := by
  induction fuel generalizing fmt args flags width precision idx printed with
  | zero => exact absurd hfuel (Nat.not_lt_zero _)
  | succ fuel ih =>
    cases fmt with
    | nil => exact .inl complete_nil
    | cons c fmt =>
      obtain ⟨hc, hfmt⟩ := List.forall_mem_cons.mp hnul
      rw [List.length_cons] at hargs hfuel
      by_cases hpercent : c = 0x25
      · subst hpercent
        simp only [vprintfLoop, hc, if_false, ne_eq, not_true_eq_false]
        obtain ⟨c, tail, rfl, htail, hsplits⟩ := exists_front fmt
        rw [List.length_append] at hargs hfuel
        cases tail with
        | nil =>
          have hslots := c.frontSlots_le
          rw [List.append_nil, specification_unfinished mem hsplits htail.symm (by omega)]
          exact .inr rfl
        | cons conv rest =>
          obtain rfl : conv = c.conv := htail
          obtain ⟨hconv, hrest⟩ := List.forall_mem_cons.mp (List.forall_mem_append.mp hfmt).2
          have hwf := hsplits.wf hconv
          have hbody : c.front ++ c.conv :: rest = c.body ++ rest := by
            rw [c.body_eq, List.append_assoc]
            rfl
          have hslots := c.slots_le
          rw [List.length_cons] at hargs hfuel
          have hslots' : c.slots ≤ args.length := by omega
          obtain ⟨args, va, rfl, hargs'⟩ := append_of_le_length hslots'
          obtain ⟨out, width', precision', hspec⟩ :=
            Conversion.specification_ok mem hwf hargs' flags
          rw [hbody, hspec]
          rw [List.length_append] at hargs
          have hcomplete := ih hrest (by omega : rest.length ≤ va.length)
            (conversionFlags c.conv (c.flagsRead args flags)) width' precision'
            (idx + BitVec.ofNat 32 out.length) (printed ++ out) (by omega)
          exact hcomplete.imp_left fun h => h.cons (d := .conversion c) hwf
      · simp only [vprintfLoop, hc, if_false, ne_eq, hpercent, not_false_eq_true, if_true]
        have hrest := ih hfmt (Nat.le_of_succ_le hargs) flags width precision (idx + 1)
          (printed ++ [c]) (Nat.lt_of_succ_lt_succ hfuel)
        exact hrest.imp_left fun h => h.cons (d := .literal c) ⟨hc, hpercent⟩

/-- A format that is complete is read up to its `NUL`. -/
theorem vprintf_of_complete (h : Complete fmt) (hargs : fmt.length ≤ args.length) :
    ∃ r, vprintf mem fmt args = .ok r := by
  obtain ⟨ds, hds, rfl⟩ := h
  obtain ⟨args, va, rfl, hargs'⟩ := append_of_le_length (Nat.le_trans (slots_le ds) hargs)
  obtain ⟨out, hout⟩ := exists_prints mem hds hargs' {}
  exact ⟨_, vprintf_encode hout va⟩

/-- `vprintf` returns exactly for the formats that do not end inside a conversion specification. For
the others it reads behind the `NUL`. -/
theorem vprintf_returns_iff (fmt : List UInt8) (hnul : ∀ c ∈ fmt, c ≠ 0) (args : List (BitVec 64))
    (hargs : fmt.length ≤ args.length) :
    ((∃ r, vprintf mem fmt args = .ok r) ↔ Complete fmt) ∧
      (vprintf mem fmt args = .error .formatOverrun ↔ ¬Complete fmt) := by
  have hover (h : ¬Complete fmt) : vprintf mem fmt args = .error .formatOverrun := by
    have hloop :=
      (complete_or_overrun mem hnul hargs {} 0 0 0 [] (Nat.lt_succ_self _)).resolve_left h
    rw [vprintf, hloop]
    rfl
  have hret (h : Complete fmt) := vprintf_of_complete mem h hargs
  refine ⟨⟨fun h => ?_, hret⟩, fun h hcomplete => ?_, hover⟩
  · obtain ⟨r, hr⟩ := h
    by_contra hcomplete
    rw [hover hcomplete] at hr
    cases hr
  · obtain ⟨r, hr⟩ := hret hcomplete
    rw [h] at hr
    cases hr

/-- `%d!` with the argument 7. -/
theorem vprintf_returns_iff_seven :
    (∃ r, vprintf (fun _ => []) [0x25, 0x64, 0x21] [7, 0, 0] = .ok r) ↔
      Complete [0x25, 0x64, 0x21] :=
  (vprintf_returns_iff (fun _ => []) [0x25, 0x64, 0x21] (by simp) [7, 0, 0] (by decide)).1

/-- The format `%`. -/
theorem vprintf_overruns_percent :
    ¬∀ (mem : BitVec 64 → List UInt8) (fmt : List UInt8) (args : List (BitVec 64)),
      (∀ c ∈ fmt, c ≠ 0) → fmt.length ≤ args.length →
        vprintf mem fmt args ≠ .error .formatOverrun ∧ ∃ r, vprintf mem fmt args = .ok r := by
  intro h
  exact (h (fun _ => []) [0x25] [0] (by simp) (by decide)).1 rfl

end Format

end Lethe
