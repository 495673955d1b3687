import Lethe.Lib.AccessLog
import Lethe.Libc.Ntoa

/-!
# The accesses to the buffer of `ntoa_long`

The functions of `lethe-libc/stdio.c` that write a number, with every access to `buf` in a log and
nothing checked. Every loop has the same bound on its rounds. They do what the model that checks the
accesses does, and that one stops at none.
-/

namespace Lethe

namespace Logged

/-- Programs that log their accesses to `buf`. -/
abbrev Print := Logs StdioFault

/-! ## The code -/

/-- `buf[len++] = c`. -/
def push (buf : NtoaBuf) (c : UInt8) : Print NtoaBuf := do
  (Access.write buf.len).note
  pure ⟨Function.update buf.bytes buf.len (some c), buf.len + 1⟩

/-- `for (size_t i = len; i < width; i++) { putchar(' '); idx++; }`. -/
def spacesBefore (width : BitVec 32) : Nat → BitVec 64 → BitVec 64 → Print (List UInt8 × BitVec 64)
  | 0, _, _ => throw .doesNotReturn
  | fuel + 1, i, idx =>
    if i < width.setWidth 64 then do
      let (out, idx) ← spacesBefore width fuel (i + 1) (idx + 1)
      pure (0x20 :: out, idx)
    else pure ([], idx)

/-- `while (len) { putchar(buf[--len]); idx++; }`; a byte that has not been written is any. -/
def readReverse (buf : NtoaBuf) : Nat → Nat → BitVec 64 → Print (List UInt8 × BitVec 64)
  | 0, _, _ => throw .doesNotReturn
  | _ + 1, 0, idx => pure ([], idx)
  | fuel + 1, len + 1, idx => do
    (Access.read len).note
    let (out, idx) ← readReverse buf fuel len (idx + 1)
    pure ((buf.bytes len).getD 0 :: out, idx)

/-- `while ((idx - start_idx) < width) { putchar(' '); idx++; }`. -/
def spacesAfter (width : BitVec 32) (startIdx : BitVec 64) :
    Nat → BitVec 64 → Print (List UInt8 × BitVec 64)
  | 0, _ => throw .doesNotReturn
  | fuel + 1, idx =>
    if idx - startIdx < width.setWidth 64 then do
      let (out, idx) ← spacesAfter width startIdx fuel (idx + 1)
      pure (0x20 :: out, idx)
    else pure ([], idx)

/-- `print_reverse`. -/
def printReverse (fuel : Nat) (buf : NtoaBuf) (flags : PrintFlags) (width : BitVec 32)
    (idx : BitVec 64) : Print (List UInt8 × BitVec 64) := do
  let startIdx := idx
  let (before, idx) ←
    (if !flags.left && !flags.zeropad then spacesBefore width fuel (BitVec.ofNat 64 buf.len) idx
    else pure ([], idx))
  let (digits, idx) ← readReverse buf fuel buf.len idx
  let (after, idx) ← (if flags.left then spacesAfter width startIdx fuel idx else pure ([], idx))
  pure (before ++ digits ++ after, idx)

/-- `while (len < limit && len < NTOA_MAX) { buf[len++] = '0'; }`. -/
def zeroLoop (limit : Nat) : Nat → NtoaBuf → Print NtoaBuf
  | 0, _ => throw .doesNotReturn
  | fuel + 1, buf =>
    if buf.len < limit ∧ buf.len < ntoaMax then do
      let buf ← push buf 0x30
      zeroLoop limit fuel buf
    else pure buf

/-- The part of `__ntoa` that fills the number up with zeros, and its new `width`. -/
def ntoaZeros (fuel : Nat) (buf : NtoaBuf) (flags : PrintFlags) (width precision : BitVec 32)
    (negative : Bool) : Print (NtoaBuf × BitVec 32) :=
  if flags.left then pure (buf, width)
  else do
    let width :=
      if width ≠ 0 && flags.zeropad && (negative || flags.plus || flags.space) then width - 1
      else width
    let buf ← zeroLoop precision.toNat fuel buf
    let buf ← (if flags.zeropad then zeroLoop width.toNat fuel buf else pure buf)
    pure (buf, width)

/-- The letter of the mark. -/
def pushLetter (buf : NtoaBuf) (flags : PrintFlags) (base : Nat) : Print NtoaBuf :=
  if base = 16 ∧ flags.upper = false ∧ buf.len < ntoaMax then push buf 0x78
  else if base = 16 ∧ flags.upper = true ∧ buf.len < ntoaMax then push buf 0x78
  else if base = 2 ∧ buf.len < ntoaMax then push buf 0x62
  else pure buf

/-- The part of `__ntoa` for `FLAGS_HASH`. -/
def ntoaHash (buf : NtoaBuf) (flags : PrintFlags) (width precision : BitVec 32) (base : Nat) :
    Print NtoaBuf :=
  if flags.hash then do
    let buf ← pushLetter { buf with len := hashLen buf.len flags width precision base } flags base
    if buf.len < ntoaMax then push buf 0x30 else pure buf
  else pure buf

/-- The part of `__ntoa` for the sign. -/
def ntoaSign (buf : NtoaBuf) (flags : PrintFlags) (negative : Bool) : Print NtoaBuf :=
  if buf.len < ntoaMax then
    if negative then push buf 0x2D
    else if flags.plus then push buf 0x2B
    else if flags.space then push buf 0x20
    else pure buf
  else pure buf

/-- `__ntoa`. -/
def ntoa (fuel : Nat) (buf : NtoaBuf) (flags : PrintFlags) (width precision : BitVec 32)
    (base : Nat) (negative : Bool) (idx : BitVec 64) : Print (List UInt8 × BitVec 64) := do
  let (buf, width) ← ntoaZeros fuel buf flags width precision negative
  let buf ← ntoaHash buf flags width precision base
  let buf ← ntoaSign buf flags negative
  printReverse fuel buf flags width idx

/-- The loop of `ntoa_long` over the digits. -/
def digitLoop (flags : PrintFlags) (base : Nat) : Nat → Nat → NtoaBuf → Print NtoaBuf
  | 0, _, _ => throw .doesNotReturn
  | fuel + 1, value, buf => do
    let buf ← push buf (NtoaBuf.digitChar flags (value % base))
    if value / base ≠ 0 ∧ buf.len < ntoaMax then digitLoop flags base fuel (value / base) buf
    else pure buf

/-- `ntoa_long`. -/
def ntoaLong (fuel : Nat) (value : BitVec 64) (flags : PrintFlags) (base : Nat)
    (width precision : BitVec 32) (idx : BitVec 64) (negative : Bool) :
    Print (List UInt8 × BitVec 64) := do
  let flags := if value = 0 then { flags with hash := false } else flags
  let buf ←
    (if !flags.precision || value ≠ 0 then digitLoop flags base fuel value.toNat .empty
    else pure .empty)
  ntoa fuel buf flags width precision base negative idx

/-- `ntoa_long_long`, whose body is that of `ntoa_long`: both types have 64 bits. -/
def ntoaLongLong (fuel : Nat) (value : BitVec 64) (flags : PrintFlags) (base : Nat)
    (width precision : BitVec 32) (idx : BitVec 64) (negative : Bool) :
    Print (List UInt8 × BitVec 64) :=
  ntoaLong fuel value flags base width precision idx negative

/-! ## The log and the buffer -/

/-- The accesses of the log are safe, and it has the writes of the bytes in the buffer. -/
structure Agrees (buf : NtoaBuf) (log : List Access) : Prop where
  len_le : buf.len ≤ ntoaMax
  safe : Access.Safe ntoaMax log
  written : ∀ i, (buf.bytes i).isSome → .write i ∈ log

open Access (Follows)

variable {buf : NtoaBuf} {log : List Access}

theorem agrees_empty : Agrees .empty [] where
  len_le := Nat.zero_le ntoaMax
  safe := trivial
  written _ h := absurd h Bool.false_ne_true

theorem Agrees.shrink (h : Agrees buf log) (hn : n ≤ buf.len) :
    Agrees { buf with len := n } log where
  len_le := Nat.le_trans hn h.len_le
  safe := h.safe
  written := h.written

theorem Agrees.read (h : Agrees buf log) (hi : (buf.bytes i).isSome) :
    Agrees buf (.read i :: log) where
  len_le := h.len_le
  safe := ⟨h.written i hi, h.safe⟩
  written j hj := List.mem_cons_of_mem _ (h.written j hj)

/-- A write that the model lets through is inside. -/
theorem Agrees.push (h : Agrees buf log) (c : UInt8) :
    Follows Agrees (buf.push c) (Logged.push buf c) log := by
  intro buf' hok
  rw [NtoaBuf.push] at hok
  split at hok
  · next hlt =>
    obtain rfl := Except.ok.inj hok
    refine ⟨rfl, hlt, ⟨hlt, h.safe⟩, fun i hi => ?_⟩
    by_cases hlast : i = buf.len
    · rw [hlast]
      exact List.mem_cons_self
    · apply List.mem_cons_of_mem
      apply h.written
      change (Function.update buf.bytes buf.len (some c) i).isSome = true at hi
      rwa [Function.update_of_ne hlast] at hi
  · cases hok

/-! ## The loops -/

theorem Agrees.zeroLoop (h : Agrees buf log) (hfuel : fuel ≤ fuel') (limit : Nat) :
    Follows Agrees (NtoaBuf.zeroLoop limit fuel buf) (Logged.zeroLoop limit fuel' buf) log := by
  induction fuel generalizing fuel' buf log with
  | zero => exact nofun
  | succ fuel ih =>
    cases fuel' with
    | zero => exact absurd hfuel (Nat.not_succ_le_zero fuel)
    | succ fuel' =>
      have hle : fuel ≤ fuel' := Nat.le_of_succ_le_succ hfuel
      refine .ite (fun _ => ?_) fun _ => .ok h
      exact (h.push 0x30).bind fun buf' log' h' => ih h' hle

theorem Agrees.digitLoop (h : Agrees buf log) (flags : PrintFlags) (base : Nat)
    (hfuel : fuel ≤ fuel') (value : Nat) :
    Follows Agrees (NtoaBuf.digitLoop flags base fuel value buf)
      (Logged.digitLoop flags base fuel' value buf) log := by
  induction fuel generalizing fuel' value buf log with
  | zero => exact nofun
  | succ fuel ih =>
    cases fuel' with
    | zero => exact absurd hfuel (Nat.not_succ_le_zero fuel)
    | succ fuel' =>
      have hle : fuel ≤ fuel' := Nat.le_of_succ_le_succ hfuel
      refine (h.push _).bind fun buf' log' h' => ?_
      exact .ite (fun _ => ih h' hle _) fun _ => .ok h'

theorem succ_sub (idx startIdx : BitVec 64) : idx + 1 - startIdx = idx - startIdx + 1 := by
  rw [BitVec.sub_eq_add_neg, BitVec.sub_eq_add_neg, BitVec.add_assoc, BitVec.add_comm 1,
    BitVec.add_assoc]

/-- The spaces behind a number. -/
theorem spacesAfter_spec (width : BitVec 32) (startIdx idx : BitVec 64)
    (hfuel : width.toNat - (idx - startIdx).toNat < fuel) :
    Wp (spacesAfter width startIdx fuel idx) (fun r log' =>
      r = (List.replicate (width.toNat - (idx - startIdx).toNat) 0x20,
        idx + BitVec.ofNat 64 (width.toNat - (idx - startIdx).toNat)) ∧ log' = log)
      (fun _ _ => False) log := by
  have hwidth : (width.setWidth 64).toNat = width.toNat := BitVec.toNat_setWidth_of_le (by decide)
  induction fuel generalizing idx with
  | zero => exact absurd hfuel (Nat.not_lt_zero _)
  | succ fuel ih =>
    rw [spacesAfter]
    split
    · next hlt =>
      have hlt' : (idx - startIdx).toNat < width.toNat := hwidth ▸ hlt
      have hnext : (idx + 1 - startIdx).toNat = (idx - startIdx).toNat + 1 := by
        have := width.isLt
        rw [succ_sub, BitVec.toNat_add]
        exact Nat.mod_eq_of_lt (by change (idx - startIdx).toNat + 1 < _; omega)
      have hcount : width.toNat - (idx - startIdx).toNat =
          width.toNat - (idx + 1 - startIdx).toNat + 1 := by omega
      apply (ih (idx + 1) (by omega)).bind
      rintro _ log' ⟨rfl, rfl⟩
      refine ⟨?_, rfl⟩
      rw [hcount, List.replicate_succ, Nat.add_comm _ 1, BitVec.ofNat_add, BitVec.add_assoc]
      rfl
    · next hge =>
      have hcount : width.toNat - (idx - startIdx).toNat = 0 :=
        Nat.sub_eq_zero_of_le (hwidth ▸ Nat.le_of_not_lt hge)
      rw [hcount]
      exact ⟨by simp, rfl⟩

/-- The loop in front of a number is the one behind it, from the place where `i` was 0. -/
theorem spacesBefore_eq (width : BitVec 32) (h : idx - startIdx = i) (fuel : Nat) :
    spacesBefore width fuel i idx = spacesAfter width startIdx fuel idx := by
  induction fuel generalizing i idx with
  | zero => rfl
  | succ fuel ih =>
    have hnext : idx + 1 - startIdx = i + 1 := by rw [succ_sub, h]
    rw [spacesBefore, spacesAfter, h, ih hnext]

/-- The spaces in front of a number. -/
theorem spacesBefore_spec (width : BitVec 32) (i idx : BitVec 64)
    (hfuel : width.toNat - i.toNat < fuel) :
    Wp (spacesBefore width fuel i idx) (fun r log' =>
      r = (List.replicate (width.toNat - i.toNat) 0x20,
        idx + BitVec.ofNat 64 (width.toNat - i.toNat)) ∧ log' = log) (fun _ _ => False) log := by
  have hstart : idx - (idx - i) = i := by
    rw [BitVec.sub_eq_iff_eq_add, BitVec.add_comm, BitVec.sub_add_cancel]
  have hspec := @spacesAfter_spec log fuel width (idx - i) idx (by rwa [hstart])
  rwa [hstart, ← spacesBefore_eq width hstart] at hspec

/-- The loop of `print_reverse` over the buffer reads what has been written. -/
theorem Agrees.readReverse (h : Agrees buf log) (hok : buf.readReverse len = .ok digits)
    (hfuel : len < fuel) (idx : BitVec 64) :
    Wp (Logged.readReverse buf fuel len idx) (fun r log' =>
      r = (digits, idx + BitVec.ofNat 64 len) ∧ Agrees buf log') (fun _ _ => False) log := by
  induction fuel generalizing len digits idx log with
  | zero => exact absurd hfuel (Nat.not_lt_zero _)
  | succ fuel ih =>
    cases len with
    | zero =>
      obtain rfl := Except.ok.inj hok
      exact ⟨by simp, h⟩
    | succ len =>
      rw [NtoaBuf.readReverse] at hok
      cases hbyte : buf.bytes len with
      | none =>
        rw [hbyte] at hok
        cases hok
      | some c =>
        rw [hbyte] at hok
        obtain ⟨out, hout, hdigits⟩ := bind_eq_ok.mp hok
        obtain rfl := Except.ok.inj hdigits
        have hread := h.read (i := len) (by rw [hbyte]; rfl)
        rw [Logged.readReverse, wp_bind, Access.wp_note]
        apply (ih hread hout (Nat.lt_of_succ_lt_succ hfuel) (idx + 1)).bind
        rintro _ log' ⟨rfl, h'⟩
        refine ⟨?_, h'⟩
        rw [hbyte, Nat.add_comm len 1, BitVec.ofNat_add, BitVec.add_assoc]
        rfl

/-! ## The functions -/

theorem Agrees.printReverse (h : Agrees buf log) (flags : PrintFlags) (width : BitVec 32)
    (idx : BitVec 64) (hfuel : width.toNat + ntoaMax < fuel) :
    Follows (fun _ => Access.Safe ntoaMax) (Lethe.printReverse buf flags width idx)
      (Logged.printReverse fuel buf flags width idx) log := by
  intro r hr
  obtain ⟨digits, hdigits, hr⟩ := bind_eq_ok.mp hr
  obtain rfl := Except.ok.inj hr
  have hlen := h.len_le
  have hbufLen : (BitVec.ofNat 64 buf.len).toNat = buf.len := by
    rw [ntoaMax] at hlen
    rw [BitVec.toNat_ofNat]
    omega
  have hspaces : Wp (spacesBefore width fuel (BitVec.ofNat 64 buf.len) idx) _ _ log :=
    spacesBefore_spec width _ idx (by omega)
  rw [hbufLen] at hspaces
  generalize hbefore : (if !flags.left && !flags.zeropad then width.toNat - buf.len else 0) = before
  have hfirst : Wp (if !flags.left && !flags.zeropad then
        spacesBefore width fuel (BitVec.ofNat 64 buf.len) idx else pure ([], idx) : Print _)
      (fun r log' => r = (List.replicate before 0x20, idx + BitVec.ofNat 64 before) ∧ log' = log)
      (fun _ _ => False) log := by
    rw [← hbefore]
    split
    · exact hspaces
    · exact ⟨by simp, rfl⟩
  apply hfirst.bind
  rintro _ log₁ ⟨rfl, rfl⟩
  apply (h.readReverse hdigits (by omega) _).bind
  rintro _ log₂ ⟨rfl, h₂⟩
  rw [BitVec.add_assoc, ← BitVec.ofNat_add]
  generalize idx + BitVec.ofNat 64 (before + buf.len) = idx'
  generalize hafter : (if flags.left then width.toNat - (idx' - idx).toNat else 0) = after
  have hlast : Wp (if flags.left then spacesAfter width idx fuel idx' else pure ([], idx') : Print _)
      (fun r log' => r = (List.replicate after 0x20, idx' + BitVec.ofNat 64 after) ∧ log' = log₂)
      (fun _ _ => False) log₂ := by
    rw [← hafter]
    split
    · exact spacesAfter_spec width idx idx' (by omega)
    · exact ⟨by simp, rfl⟩
  apply hlast.bind
  rintro _ log₃ ⟨rfl, rfl⟩
  exact ⟨rfl, h₂.safe⟩

theorem Agrees.ntoaZeros (h : Agrees buf log) (flags : PrintFlags) (width precision : BitVec 32)
    (negative : Bool) (hfuel : ntoaMax < fuel) :
    Follows (fun r => Agrees r.1) (Lethe.ntoaZeros buf flags width precision negative)
      (Logged.ntoaZeros fuel buf flags width precision negative) log := by
  refine .ite (fun _ => .ok h) fun _ => ?_
  refine (h.zeroLoop hfuel _).bind fun buf₁ log₁ h₁ => ?_
  have hsecond (width : BitVec 32) : Follows Agrees
      (if flags.zeropad then NtoaBuf.zeroLoop width.toNat (ntoaMax + 1) buf₁ else pure buf₁)
      (if flags.zeropad then Logged.zeroLoop width.toNat fuel buf₁ else pure buf₁) log₁ :=
    .ite (fun _ => h₁.zeroLoop hfuel _) fun _ => .ok h₁
  exact (hsecond _).bind fun buf₂ log₂ h₂ => .ok h₂

theorem Agrees.pushLetter (h : Agrees buf log) (flags : PrintFlags) (base : Nat) :
    Follows Agrees (Lethe.pushLetter buf flags base) (Logged.pushLetter buf flags base) log := by
  refine .ite (fun _ => h.push 0x78) fun _ => ?_
  refine .ite (fun _ => h.push 0x78) fun _ => ?_
  exact .ite (fun _ => h.push 0x62) fun _ => .ok h

theorem Agrees.ntoaHash (h : Agrees buf log) (flags : PrintFlags) (width precision : BitVec 32)
    (base : Nat) : Follows Agrees (Lethe.ntoaHash buf flags width precision base)
      (Logged.ntoaHash buf flags width precision base) log := by
  refine .ite (fun _ => ?_) fun _ => .ok h
  refine ((h.shrink hashLen_le).pushLetter flags base).bind fun buf₁ log₁ h₁ => ?_
  exact .ite (fun _ => h₁.push 0x30) fun _ => .ok h₁

theorem Agrees.ntoaSign (h : Agrees buf log) (flags : PrintFlags) (negative : Bool) :
    Follows Agrees (Lethe.ntoaSign buf flags negative) (Logged.ntoaSign buf flags negative) log := by
  refine .ite (fun _ => ?_) fun _ => .ok h
  refine .ite (fun _ => h.push 0x2D) fun _ => ?_
  refine .ite (fun _ => h.push 0x2B) fun _ => ?_
  exact .ite (fun _ => h.push 0x20) fun _ => .ok h

theorem Agrees.ntoa (h : Agrees buf log) (flags : PrintFlags) (width precision : BitVec 32)
    (base : Nat) (negative : Bool) (idx : BitVec 64) (hfuel : 2 ^ 32 + ntoaMax < fuel) :
    Follows (fun _ => Access.Safe ntoaMax)
      (Lethe.ntoa buf flags width precision base negative idx)
      (Logged.ntoa fuel buf flags width precision base negative idx) log := by
  refine (h.ntoaZeros flags width precision negative (by omega)).bind fun r log₁ h₁ => ?_
  refine (h₁.ntoaHash flags r.2 precision base).bind fun buf₂ log₂ h₂ => ?_
  refine (h₂.ntoaSign flags negative).bind fun buf₃ log₃ h₃ => ?_
  have := r.2.isLt
  exact h₃.printReverse flags r.2 idx (by omega)

/-- The functions that log their accesses do what those that check them do. -/
theorem ntoaLong_follows (value : BitVec 64) (flags : PrintFlags) (base : Nat)
    (width precision : BitVec 32) (idx : BitVec 64) (negative : Bool)
    (hfuel : 2 ^ 32 + ntoaMax < fuel) :
    Follows (fun _ => Access.Safe ntoaMax)
      (Lethe.ntoaLong value flags base width precision idx negative)
      (Logged.ntoaLong fuel value flags base width precision idx negative) [] := by
  have hdigits (flags : PrintFlags) : Follows Agrees
      (if !flags.precision || value ≠ 0 then
        NtoaBuf.digitLoop flags base (ntoaMax + 1) value.toNat .empty else pure .empty)
      (if !flags.precision || value ≠ 0 then
        Logged.digitLoop flags base fuel value.toNat .empty else pure .empty) [] :=
    .ite (fun _ => agrees_empty.digitLoop flags base (by omega) _) fun _ => .ok agrees_empty
  exact (hdigits _).bind fun buf log h => h.ntoa _ width precision base negative idx hfuel

/-! ## The result -/

/-- A program returns, its writes are to `buf`, and what it reads it has written before. -/
def InBounds {α : Type} (x : Print α) : Prop :=
  ∃ r log, x [] = .ok r log ∧ (∀ i, .write i ∈ log → i < ntoaMax) ∧
    ∀ after i before, log = after ++ .read i :: before → .write i ∈ before

/-- The buffer of a number is never overrun, whatever the value, the flags, the width, the precision
and the sign are, and the loops end. -/
theorem ntoaLong_inBounds (value : BitVec 64) (flags : PrintFlags) (base : Nat)
    (hbase : base ∈ [2, 8, 10, 16]) (width precision : BitVec 32) (idx : BitVec 64)
    (negative : Bool) (fuel : Nat) (hfuel : 2 ^ 32 + ntoaMax < fuel) :
    InBounds (ntoaLong fuel value flags base width precision idx negative) ∧
      InBounds (ntoaLongLong fuel value flags base width precision idx negative) := by
  have hlt : 1 < base := by
    have hall : ∀ b ∈ [2, 8, 10, 16], 1 < b := by decide
    exact hall base hbase
  have hsafe : InBounds (ntoaLong fuel value flags base width precision idx negative) := by
    obtain ⟨out, hout⟩ := ntoaLong_ok flags value hlt width precision negative
    have hwp := ntoaLong_follows value flags base width precision idx negative hfuel _ (hout idx)
    obtain ⟨r, log, hrun, -, hsafe⟩ := wp_returns.mp hwp
    refine ⟨r, log, hrun, fun i hi => hsafe.write_lt hi, fun after i before heq => ?_⟩
    rw [heq] at hsafe
    exact hsafe.written
  exact ⟨hsafe, hsafe⟩

/-- The longest number with everything that can be added to it. -/
theorem ntoaLong_inBounds_binary :
    InBounds (ntoaLong (2 ^ 33) (-1) { zeropad := true, plus := true, hash := true } 2 (-1) 60 0
        true) ∧
      InBounds (ntoaLongLong (2 ^ 33) (-1) { zeropad := true, plus := true, hash := true } 2 (-1) 60
        0 true) :=
  ntoaLong_inBounds (-1) { zeropad := true, plus := true, hash := true } 2 (by decide) (-1) 60 0 true
    (2 ^ 33) (by decide)

end Logged

end Lethe
