import Lethe.Lib.Places
import Lethe.Lib.Wp
import Lethe.Libc.Stdio

/-!
# The buffer of `ntoa_long`

No write goes behind the end of `buf`, and what `print_reverse` reads has been written: the buffer
always has the first `NTOA_MAX` of the characters that the number would have without the bound. So a
number is always printed, and what is printed does not depend on the number of characters before it.
-/

namespace Lethe

namespace NtoaBuf

variable {buf buf' : NtoaBuf} {cs : List UInt8}

/-- The bytes below `len` have been written, and `len` is within the buffer. -/
structure Filled (buf : NtoaBuf) : Prop where
  len_le : buf.len ≤ ntoaMax
  written : ∀ i < buf.len, (buf.bytes i).isSome

/-- The buffer has the first `NTOA_MAX` characters of `cs`. -/
structure Holds (buf : NtoaBuf) (cs : List UInt8) : Prop extends Filled buf where
  len_eq : buf.len = min cs.length ntoaMax
  bytes_eq : ∀ i < buf.len, buf.bytes i = cs[i]?

theorem holds_of_bytes (hlen : buf.len = min cs.length ntoaMax)
    (hbytes : ∀ i < buf.len, buf.bytes i = cs[i]?) : buf.Holds cs where
  len_le := hlen ▸ Nat.min_le_right _ _
  written i hi := by
    have hlt : i < cs.length := Nat.lt_of_lt_of_le (hlen ▸ hi) (Nat.min_le_left _ _)
    rw [hbytes i hi, List.getElem?_eq_getElem hlt]
    rfl
  len_eq := hlen
  bytes_eq := hbytes

theorem holds_empty : empty.Holds [] := holds_of_bytes rfl fun _ h => absurd h (Nat.not_lt_zero _)

theorem Holds.length_of_lt (h : buf.Holds cs) (hlt : buf.len < ntoaMax) : buf.len = cs.length := by
  have hlen := h.len_eq
  omega

theorem Holds.push (h : buf.Holds cs) (hlt : buf.len < ntoaMax) (c : UInt8) :
    Yields (fun buf' => buf'.Holds (cs ++ [c]) ∧ buf'.len = buf.len + 1) (buf.push c) := by
  have hlen := h.length_of_lt hlt
  refine ⟨_, if_pos hlt, holds_of_bytes ?_ ?_, rfl⟩
  · change buf.len + 1 = _
    rw [List.length_append, List.length_singleton]
    omega
  · intro i hi
    change Function.update buf.bytes buf.len (some c) i = _
    rcases Nat.lt_succ_iff_lt_or_eq.mp hi with hi | rfl
    · rw [Function.update_of_ne (Nat.ne_of_lt hi), List.getElem?_append_left (hlen ▸ hi)]
      exact h.bytes_eq i hi
    · rw [Function.update_self, hlen, List.getElem?_append_right (Nat.le_refl _), Nat.sub_self]
      rfl

/-- What comes to a full buffer is left out. -/
theorem Holds.append_of_full (h : buf.Holds cs) (hfull : ¬buf.len < ntoaMax) (cs' : List UInt8) :
    buf.Holds (cs ++ cs') := by
  have hlen := h.len_eq
  refine holds_of_bytes ?_ fun i hi => ?_
  · rw [List.length_append]
    omega
  · rw [List.getElem?_append_left (by omega)]
    exact h.bytes_eq i hi

theorem Holds.pushRoom (h : buf.Holds cs) (c : UInt8) :
    Yields (fun buf' => buf'.Holds (cs ++ [c]))
      (if buf.len < ntoaMax then buf.push c else .ok buf) := by
  refine .ite (fun hlt => ?_) fun hfull => ?_
  · exact (h.push hlt c).mono fun _ h' => h'.1
  · exact .ok (h.append_of_full hfull [c])

theorem Holds.shrink (h : buf.Holds cs) (hn : n ≤ buf.len) :
    Holds { buf with len := n } (cs.take n) := by
  have hlen := h.len_eq
  refine holds_of_bytes ?_ fun i hi => ?_
  · change n = _
    rw [List.length_take]
    omega
  · replace hi : i < n := hi
    rw [List.getElem?_take_of_lt hi]
    exact h.bytes_eq i (Nat.lt_of_lt_of_le hi hn)

/-- The zeros of a loop. -/
theorem Holds.zeroLoop (h : buf.Holds cs) (hfuel : ntoaMax - buf.len < fuel) (limit : Nat) :
    Yields (fun buf' => buf'.Holds (cs ++ List.replicate (limit - cs.length) 0x30))
      (NtoaBuf.zeroLoop limit fuel buf) := by
  induction fuel generalizing buf cs with
  | zero => exact absurd hfuel (Nat.not_lt_zero _)
  | succ fuel ih =>
    refine .ite (fun hlt => ?_) fun hstop => .ok ?_
    · have hlen := h.length_of_lt hlt.2
      refine (h.push hlt.2 0x30).bind fun buf' h' => ?_
      refine (ih h'.1 (by omega)).mono fun buf'' h'' => ?_
      have hcount : limit - cs.length = limit - (cs ++ [0x30]).length + 1 := by
        rw [List.length_append, List.length_singleton]
        omega
      rwa [hcount, List.replicate_succ, List.append_cons]
    · by_cases hfull : buf.len < ntoaMax
      · have hlen := h.length_of_lt hfull
        have hcount : limit - cs.length = 0 := by omega
        rwa [hcount, List.replicate_zero, List.append_nil]
      · exact h.append_of_full hfull _

/-- The characters of the last `n` digits of `value`, the last one first. -/
def digitChars (flags : PrintFlags) (base n value : Nat) : List UInt8 :=
  (places base n value).map (digitChar flags)

@[simp] theorem length_digitChars (flags : PrintFlags) (base n value : Nat) :
    (digitChars flags base n value).length = n := by
  rw [digitChars, List.length_map, length_places]

/-- The digits of a number. -/
theorem Holds.digitLoop (flags : PrintFlags) (hbase : 1 < base) (h : buf.Holds cs)
    (hlt : buf.len < ntoaMax) (hfuel : ntoaMax - buf.len < fuel) (value : Nat) :
    Yields (fun buf' => buf'.Holds (cs ++ digitChars flags base (digitCount base value) value))
      (NtoaBuf.digitLoop flags base fuel value buf) := by
  induction fuel generalizing buf cs value with
  | zero => exact absurd hfuel (Nat.not_lt_zero _)
  | succ fuel ih =>
    have hcons (n : Nat) : cs ++ digitChars flags base (n + 1) value =
        cs ++ [digitChar flags (value % base)] ++ digitChars flags base n (value / base) := by
      rw [digitChars, places, List.map_cons, List.append_cons, digitChars]
    refine (h.push hlt _).bind fun buf' h' => ?_
    refine .ite (fun hmore => ?_) fun hstop => .ok ?_
    · rw [digitCount_div hbase hmore.1, hcons]
      exact ih h'.1 hmore.2 (by omega) (value / base)
    · rw [digitCount, hcons]
      by_cases hlast : value / base = 0
      · have hvalue : value < base := (Nat.div_eq_zero_iff_lt (by omega)).mp hlast
        rw [Nat.log_of_lt hvalue, digitChars, places, List.map_nil, List.append_nil]
        exact h'.1
      · exact h'.1.append_of_full (fun hroom => hstop ⟨hlast, hroom⟩) _

/-- The characters that `print_reverse` prints. -/
theorem Holds.readReverse (h : buf.Holds cs) (hn : n ≤ buf.len) :
    buf.readReverse n = .ok (cs.take n).reverse := by
  induction n with
  | zero => rw [NtoaBuf.readReverse, List.take_zero, List.reverse_nil]
  | succ n ih =>
    have hlen := h.len_eq
    have hlt : n < cs.length := by omega
    rw [NtoaBuf.readReverse, h.bytes_eq n hn, List.getElem?_eq_getElem hlt]
    simp only [ih (Nat.le_of_succ_le hn), ok_bind]
    rw [List.take_succ_eq_append_getElem hlt, List.reverse_append]
    rfl

end NtoaBuf

/-! ## A number -/

/-- The width up to which a number is filled with zeros; the sign has its place in front of them. -/
def zerosWidth (flags : PrintFlags) (width : BitVec 32) (negative : Bool) : BitVec 32 :=
  if flags.left then width
  else if width ≠ 0 && flags.zeropad && (negative || flags.plus || flags.space) then width - 1
  else width

/-- The number of digits up to which a number is filled with zeros. -/
def fillCount (flags : PrintFlags) (width precision : BitVec 32) (negative : Bool) : Nat :=
  if flags.left then 0
  else max precision.toNat (if flags.zeropad then (zerosWidth flags width negative).toNat else 0)

/-- The mark of `FLAGS_HASH`, from its last character. -/
def hashMark (flags : PrintFlags) (base : Nat) : List UInt8 :=
  if flags.hash then (if base = 16 then [0x78] else if base = 2 then [0x62] else []) ++ [0x30]
  else []

/-- The sign. -/
def signMark (flags : PrintFlags) (negative : Bool) : List UInt8 :=
  if negative then [0x2D] else if flags.plus then [0x2B] else if flags.space then [0x20] else []

/-- The digits that are left of `len` when the mark of `FLAGS_HASH` has been put. -/
def keptCount (flags : PrintFlags) (width precision : BitVec 32) (base len : Nat) : Nat :=
  if flags.hash then hashLen len flags width precision base else len

theorem hashLen_le {flags : PrintFlags} : hashLen len flags width precision base ≤ len := by
  rw [hashLen]
  split
  · split <;> omega
  · exact Nat.le_refl _

theorem keptCount_le {flags : PrintFlags} : keptCount flags width precision base len ≤ len := by
  rw [keptCount]
  split
  · exact hashLen_le
  · exact Nat.le_refl _

variable {buf : NtoaBuf} {cs : List UInt8} (flags : PrintFlags)

theorem ntoaZeros_holds (h : buf.Holds cs) (width precision : BitVec 32) (negative : Bool) :
    Yields (fun r => r.1.Holds (cs ++
        List.replicate (fillCount flags width precision negative - cs.length) 0x30) ∧
        r.2 = zerosWidth flags width negative)
      (ntoaZeros buf flags width precision negative) := by
  have hfuel (buf : NtoaBuf) : ntoaMax - buf.len < ntoaMax + 1 := by omega
  refine .ite (fun hleft => .ok ?_) fun hleft => ?_
  · rw [fillCount, zerosWidth, if_pos hleft, if_pos hleft, Nat.zero_sub, List.replicate_zero,
      List.append_nil]
    exact ⟨h, rfl⟩
  · rw [fillCount, zerosWidth, if_neg hleft, if_neg hleft]
    simp only
    generalize (if width ≠ 0 && flags.zeropad && (negative || flags.plus || flags.space) then
      width - 1 else width) = width'
    refine (h.zeroLoop (hfuel buf) precision.toNat).bind fun buf₁ h₁ => ?_
    have hcount (n : Nat) : n - (cs ++ List.replicate (precision.toNat - cs.length) 0x30).length +
        (precision.toNat - cs.length) = max precision.toNat n - cs.length := by
      rw [List.length_append, List.length_replicate]
      omega
    have hzeros : Yields (fun buf' => buf'.Holds (cs ++ List.replicate
        (max precision.toNat (if flags.zeropad then width'.toNat else 0) - cs.length) 0x30))
        (if flags.zeropad then NtoaBuf.zeroLoop width'.toNat (ntoaMax + 1) buf₁
          else pure buf₁) := by
      refine .ite (fun hzero => ?_) fun hzero => .ok ?_
      · refine (h₁.zeroLoop (hfuel buf₁) width'.toNat).mono fun buf₂ h₂ => ?_
        rwa [if_pos hzero, ← hcount, Nat.add_comm, List.replicate_add, ← List.append_assoc]
      · rwa [if_neg hzero, Nat.max_zero]
    exact hzeros.bind fun buf₂ h₂ => .ok ⟨h₂, rfl⟩

theorem pushLetter_holds (h : buf.Holds cs) (base : Nat) :
    Yields (fun buf' => buf'.Holds
      (cs ++ if base = 16 then [0x78] else if base = 2 then [0x62] else []))
      (pushLetter buf flags base) := by
  by_cases h16 : base = 16
  · simp only [pushLetter, h16, if_true, true_and]
    have hpush := h.pushRoom 0x78
    cases flags.upper with
    | false => simpa using hpush
    | true => simpa using hpush
  · have hpush := h.pushRoom 0x62
    by_cases h2 : base = 2
    · simpa [pushLetter, h2] using hpush
    · simp only [pushLetter, h16, h2, false_and, if_false, List.append_nil]
      exact .ok h

theorem ntoaHash_holds (h : buf.Holds cs) (width precision : BitVec 32) (base : Nat) :
    Yields (fun buf' => buf'.Holds
        (cs.take (keptCount flags width precision base buf.len) ++ hashMark flags base))
      (ntoaHash buf flags width precision base) := by
  refine .ite (fun hhash => ?_) fun hhash => .ok ?_
  · rw [keptCount, if_pos hhash, hashMark, if_pos hhash, ← List.append_assoc]
    refine (pushLetter_holds flags (h.shrink hashLen_le) base).bind fun buf₁ h₁ => ?_
    exact h₁.pushRoom 0x30
  · rw [keptCount, if_neg hhash, hashMark, if_neg hhash, List.append_nil]
    exact h.shrink (Nat.le_refl _)

theorem ntoaSign_holds (h : buf.Holds cs) (negative : Bool) :
    Yields (fun buf' => buf'.Holds (cs ++ signMark flags negative))
      (ntoaSign buf flags negative) := by
  refine .ite (fun hlt => ?_) fun hfull => .ok (h.append_of_full hfull _)
  have hpush (c : UInt8) := (h.push hlt c).mono fun _ h' => h'.1
  rw [signMark]
  split
  · exact hpush 0x2D
  split
  · exact hpush 0x2B
  split
  · exact hpush 0x20
  · rw [List.append_nil]
    exact .ok h

/-- What `print_reverse` prints does not depend on `idx`, to which it adds the number of
characters. -/
theorem printReverse_holds (h : buf.Holds cs) (width : BitVec 32) :
    ∃ before after out, out =
        List.replicate before 0x20 ++ (cs.take ntoaMax).reverse ++ List.replicate after 0x20 ∧
      ∀ idx, printReverse buf flags width idx = .ok (out, idx + BitVec.ofNat 64 out.length) := by
  have hlen : (cs.take ntoaMax).length = buf.len := by
    rw [List.length_take, h.len_eq, Nat.min_comm]
  have htake : cs.take buf.len = cs.take ntoaMax := by
    rw [h.len_eq, List.take_eq_take_iff]
    omega
  simp only [printReverse, h.readReverse (Nat.le_refl _), bind, Except.bind, pure, Except.pure]
  generalize (if !flags.left && !flags.zeropad then width.toNat - buf.len else 0) = before
  have hsub (idx : BitVec 64) : idx + BitVec.ofNat 64 (before + buf.len) - idx =
      BitVec.ofNat 64 (before + buf.len) := by
    rw [BitVec.add_comm, BitVec.add_sub_cancel]
  simp only [hsub]
  generalize (if flags.left then width.toNat - (BitVec.ofNat 64 (before + buf.len)).toNat
    else 0) = after
  refine ⟨before, after, _, rfl, fun idx => ?_⟩
  rw [BitVec.add_assoc, ← BitVec.ofNat_add, htake]
  simp only [List.length_append, List.length_replicate, List.length_reverse, hlen]

/-- The number of digits of a value; with a precision, 0 has none. -/
def valueCount (value : Nat) (flags : PrintFlags) (base : Nat) : Nat :=
  if flags.precision = true ∧ value = 0 then 0 else digitCount base value

theorem lt_pow_valueCount (hbase : 1 < base) (value : Nat) :
    value < base ^ valueCount value flags base := by
  rw [valueCount]
  split
  · next h =>
    rw [h.2, pow_zero]
    exact Nat.one_pos
  · exact lt_pow_digitCount hbase value

/-- The number of digits that are printed. -/
def printedCount (value : Nat) (flags : PrintFlags) (base : Nat) (width precision : BitVec 32)
    (negative : Bool) : Nat :=
  keptCount flags (zerosWidth flags width negative) precision base
    (min (max (valueCount value flags base) (fillCount flags width precision negative)) ntoaMax)

/-- The characters of a number, from its last one. -/
def numberChars (value : Nat) (flags : PrintFlags) (base : Nat) (width precision : BitVec 32)
    (negative : Bool) : List UInt8 :=
  NtoaBuf.digitChars flags base (printedCount value flags base width precision negative) value ++
    (hashMark flags base ++ signMark flags negative)

/-- `FLAGS_HASH` has no effect on 0. -/
def numberFlags (value : BitVec 64) (flags : PrintFlags) : PrintFlags :=
  if value = 0 then { flags with hash := false } else flags

theorem NtoaBuf.take_digitChars (k base n value : Nat) :
    (digitChars flags base n value).take k = digitChars flags base (min k n) value := by
  rw [digitChars, digitChars, ← List.map_take, take_places]

theorem NtoaBuf.digitChars_append_zeros {n value : Nat} (h : value < base ^ n) (k : Nat) :
    digitChars flags base n value ++ List.replicate k 0x30 =
      digitChars flags base (n + k) value := by
  rw [digitChars, digitChars, ← places_append_zeros h, List.map_append, List.map_replicate]
  rfl

/-- What is printed of a number, whatever the flags, the width and the precision are. -/
theorem ntoaLong_eq (value : BitVec 64) {base : Nat} (hbase : 1 < base)
    (width precision : BitVec 32) (negative : Bool) :
    ∃ before after out, out =
        List.replicate before 0x20 ++ ((numberChars value.toNat (numberFlags value flags) base width
          precision negative).take ntoaMax).reverse ++ List.replicate after 0x20 ∧
      ∀ idx, ntoaLong value flags base width precision idx negative =
        .ok (out, idx + BitVec.ofNat 64 out.length) := by
  change ∃ before after out, out = _ ∧ ∀ idx, (do
    let buf ← (if !(numberFlags value flags).precision || value ≠ 0 then
      NtoaBuf.digitLoop (numberFlags value flags) base (ntoaMax + 1) value.toNat .empty
      else pure .empty)
    ntoa buf (numberFlags value flags) width precision base negative idx) = _
  generalize numberFlags value flags = flags
  have hzero : value ≠ 0 ↔ ¬value.toNat = 0 := not_congr BitVec.toNat_inj.symm
  have hdigits : Yields (fun buf => buf.Holds
      (NtoaBuf.digitChars flags base (valueCount value.toNat flags base) value.toNat))
      (if !flags.precision || value ≠ 0 then
        NtoaBuf.digitLoop flags base (ntoaMax + 1) value.toNat .empty
      else pure .empty) := by
    simp only [Bool.or_eq_true, Bool.not_eq_true', decide_eq_true_eq, hzero]
    refine .ite (fun h => ?_) fun h => .ok ?_
    · rw [valueCount, if_neg (by simpa [imp_iff_not_or] using h)]
      exact NtoaBuf.holds_empty.digitLoop flags hbase (by decide) (by decide) value.toNat
    · rw [valueCount, if_pos (by simpa using h)]
      exact NtoaBuf.holds_empty
  obtain ⟨buf₁, hbuf₁, h₁⟩ := hdigits
  obtain ⟨⟨buf₂, width'⟩, hbuf₂, h₂, rfl⟩ := ntoaZeros_holds flags h₁ width precision negative
  obtain ⟨buf₃, hbuf₃, h₃⟩ :=
    ntoaHash_holds flags h₂ (zerosWidth flags width negative) precision base
  obtain ⟨buf₄, hbuf₄, h₄⟩ := ntoaSign_holds flags h₃ negative
  obtain ⟨before, after, out, hout, hprint⟩ :=
    printReverse_holds flags h₄ (zerosWidth flags width negative)
  refine ⟨before, after, out, ?_, fun idx => ?_⟩
  · have hlen : buf₂.len = min (max (valueCount value.toNat flags base)
        (fillCount flags width precision negative)) ntoaMax := by
      rw [h₂.len_eq, List.length_append, List.length_replicate, NtoaBuf.length_digitChars,
        Nat.max_def]
      split <;> omega
    rw [hout, numberChars, printedCount, ← hlen, ← List.append_assoc,
      NtoaBuf.digitChars_append_zeros flags (lt_pow_valueCount flags hbase _),
      NtoaBuf.length_digitChars]
    rw [NtoaBuf.take_digitChars, Nat.min_eq_left (Nat.le_trans keptCount_le ?_)]
    change buf₂.len ≤ _
    omega
  · simp only [hbuf₁, ok_bind, ntoa, hbuf₂, hbuf₃, hbuf₄, hprint]

/-- A number is printed, whatever the flags, the width and the precision are. -/
theorem ntoaLong_ok (value : BitVec 64) {base : Nat} (hbase : 1 < base)
    (width precision : BitVec 32) (negative : Bool) :
    ∃ out, ∀ idx, ntoaLong value flags base width precision idx negative =
      .ok (out, idx + BitVec.ofNat 64 out.length) := by
  obtain ⟨_, _, out, -, hout⟩ := ntoaLong_eq flags value hbase width precision negative
  exact ⟨out, hout⟩

end Lethe
