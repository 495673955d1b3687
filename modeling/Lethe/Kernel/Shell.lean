import Mathlib.Algebra.Group.Int.Defs
import Mathlib.Logic.Function.Basic
import Mathlib.Tactic.Common
import Lethe.Lib.Run
import Lethe.Lib.Wp

/-!
# The line of the shell

`push_char`, `del_char` and `execute_command` of `lethe-kernel/misc/shell.c`. The buffer grows only
in `push_char`, when the cursor is at its end; `execute_command` puts a `NUL` at the cursor without
looking, and `del_char` steps back without looking. A write outside the buffer stops the model.

A command is a function of the kernel that is looked up by its name: `resolve` is
`resolve_function_address`. Any function can be named, those of this file too, so `call`, which is
`call_function`, may do anything to the variables of the shell.
-/

namespace Lethe

/-! ## The code -/

/-- A write outside `shell_cmd`. -/
inductive ShellFault
  | writeOutside (index : Int)
  deriving DecidableEq, Repr

/-- What a user sees, and what is run. The output of a command is left out. -/
inductive ShellOutput
  | putchar (ch : UInt8)
  /-- `tty_delc`. -/
  | delc
  | callFunction (rip : BitVec 64)
  | dumpFunctionNames
  deriving DecidableEq, Repr

/-- The static variables. -/
structure Shell where
  shellCmd : Nat → UInt8
  shellSize : BitVec 32
  shellCur : BitVec 32
  enabled : Bool

/-- A key is handed to one of the three functions. `fresh` is what is in memory that `krealloc`
gives. -/
inductive ShellEvent
  | pushChar (ch : UInt8) (fresh : Nat → UInt8)
  | delChar
  | executeCommand

namespace Shell

/-- `init_shell`; `fresh` is what is in the memory that `kmalloc` gives. -/
def init (fresh : Nat → UInt8) : Shell := ⟨fresh, 80, 0, true⟩

/-- `shell_cmd[i] = ch`. -/
def write (s : Shell) (i : BitVec 32) (ch : UInt8) : Except ShellFault Shell :=
  if 0 ≤ i.toInt ∧ i.toInt < s.shellSize.toInt then
    .ok { s with shellCmd := Function.update s.shellCmd i.toNat ch }
  else .error (.writeOutside i.toInt)

/-- `krealloc(shell_cmd, shell_size)` when 80 has been added to `shell_size`. -/
def grow (fresh : Nat → UInt8) (s : Shell) : Shell :=
  { s with
    shellCmd i := if (i : Int) < s.shellSize.toInt then s.shellCmd i else fresh i
    shellSize := s.shellSize + 80 }

/-- `push_char`. -/
def pushChar (ch : UInt8) (fresh : Nat → UInt8) (s : Shell) :
    Except ShellFault (List ShellOutput × Shell) := do
  let s := if s.shellSize.sle s.shellCur then s.grow fresh else s
  let s ← s.write s.shellCur ch
  pure ([.putchar ch], { s with shellCur := s.shellCur + 1 })

/-- `del_char`. -/
def delChar (s : Shell) : Except ShellFault (List ShellOutput × Shell) := do
  let s := { s with shellCur := s.shellCur - 1 }
  let s ← s.write s.shellCur 0
  pure ([.delc], s)

/-- `shell_cur = 0` and `memset(shell_cmd, 0, shell_size)`, where a negative `shell_size` is a huge
`size_t`. -/
def clear (s : Shell) : Except ShellFault Shell :=
  if 0 ≤ s.shellSize.toInt then
    .ok { s with
      shellCmd i := if (i : Int) < s.shellSize.toInt then 0 else s.shellCmd i
      shellCur := 0 }
  else .error (.writeOutside 0)

/-- The string at `shell_cmd`, with a `NUL` below `n`. -/
def command (s : Shell) (n : Nat) : List UInt8 :=
  ((List.range n).map s.shellCmd).takeWhile (· ≠ 0)

/-- The part of `execute_command` that runs the command. -/
def runCommand (resolve : List UInt8 → BitVec 64) (call : BitVec 64 → Shell → Except ShellFault Shell)
    (s : Shell) : Except ShellFault (ShellOutput × Shell) :=
  let rip := resolve (s.command s.shellCur.toNat)
  if rip ≠ 0 then do
    let s ← call rip s
    pure (.callFunction rip, s)
  else .ok (.dumpFunctionNames, s)

/-- `execute_command`. -/
def executeCommand (resolve : List UInt8 → BitVec 64)
    (call : BitVec 64 → Shell → Except ShellFault Shell) (s : Shell) :
    Except ShellFault (List ShellOutput × Shell) := do
  if !s.enabled then
    let s ← s.clear
    pure ([], s)
  else if s.shellCur = 0 then
    let s ← s.clear
    pure ([.putchar 0x0A, .putchar 0x3E], s)
  else
    let s ← s.write s.shellCur 0
    let (run, s) ← { s with shellCur := s.shellCur + 1 }.runCommand resolve call
    let s ← s.clear
    pure ([.putchar 0x0A, run, .putchar 0x3E], s)

/-- An event. -/
def step (resolve : List UInt8 → BitVec 64) (call : BitVec 64 → Shell → Except ShellFault Shell)
    (s : Shell) : ShellEvent → Except ShellFault (List ShellOutput × Shell)
  | .pushChar ch fresh => s.pushChar ch fresh
  | .delChar => s.delChar
  | .executeCommand => s.executeCommand resolve call

end Shell

/-! ## The line -/

/-- A line that is edited: a character is put behind it, the last one is taken off if there is one,
and a command is run and gives an empty line. -/
def lineStep (resolve : List UInt8 → BitVec 64) (line : List UInt8) :
    ShellEvent → List ShellOutput × List UInt8
  | .pushChar ch _ => ([.putchar ch], line ++ [ch])
  | .delChar => if line = [] then ([], []) else ([.delc], line.dropLast)
  | .executeCommand =>
    if line = [] then ([.putchar 0x0A, .putchar 0x3E], [])
    else
      let rip := resolve (line.takeWhile (· ≠ 0))
      let run := if rip ≠ 0 then ShellOutput.callFunction rip else .dumpFunctionNames
      ([.putchar 0x0A, run, .putchar 0x3E], [])

/-- The cursor is within the buffer, and the bytes in front of it are the line. -/
structure Shell.Edits (s : Shell) (line : List UInt8) : Prop where
  enabled : s.enabled = true
  cur : s.shellCur.toInt = line.length
  le : s.shellCur.toInt ≤ s.shellSize.toInt
  bytes : (List.range line.length).map s.shellCmd = line

/-- The shell with a `NUL` behind the line, as a command finds it. -/
def Shell.terminated (s : Shell) : Shell :=
  { s with shellCmd := Function.update s.shellCmd s.shellCur.toNat 0, shellCur := s.shellCur + 1 }

/-- If the line names a function, it returns without a write outside the buffer, and the shell is
enabled and has a buffer then. -/
def Shell.CallReturns (resolve : List UInt8 → BitVec 64)
    (call : BitVec 64 → Shell → Except ShellFault Shell) (s : Shell) : Prop :=
  resolve (s.command s.shellCur.toNat) ≠ 0 → ∃ s',
    call (resolve (s.command s.shellCur.toNat)) s = .ok s' ∧ s'.enabled = true ∧
      0 ≤ s'.shellSize.toInt

/-- The buffer has room for what an event writes: there is a character for a backspace, a place for
the `NUL` of a command, and a larger buffer still has a size that is an `int`. The function that a
command calls does not break the shell. -/
def ShellEvent.Fits (resolve : List UInt8 → BitVec 64)
    (call : BitVec 64 → Shell → Except ShellFault Shell) (s : Shell) : ShellEvent → Prop
  | .pushChar _ _ => s.shellCur.toInt < s.shellSize.toInt ∨ s.shellSize.toInt + 80 < 2 ^ 31
  | .delChar => s.shellCur ≠ 0
  | .executeCommand => s.shellCur = 0 ∨
      s.shellCur ≠ s.shellSize ∧ s.terminated.CallReturns resolve call

namespace Shell
variable {s s' : Shell} {line : List UInt8} {resolve : List UInt8 → BitVec 64}
  {call : BitVec 64 → Shell → Except ShellFault Shell}

theorem toInt_add_of_lt {x y : BitVec 32} (hpos : 0 ≤ x.toInt + y.toInt)
    (h : x.toInt + y.toInt < 2 ^ 31) : (x + y).toInt = x.toInt + y.toInt := by
  rw [BitVec.toInt_add, Int.bmod_def]
  split <;> omega

theorem toInt_add_eighty_neg {x : BitVec 32} (h : 2 ^ 31 ≤ x.toInt + 80) :
    (x + 80).toInt < 0 := by
  have hx := BitVec.toInt_lt (x := x)
  have heighty : (80 : BitVec 32).toInt = 80 := rfl
  rw [BitVec.toInt_add, heighty, Int.bmod_def]
  split <;> omega

theorem toInt_sub_one {x : BitVec 32} (hx : 0 ≤ x.toInt) : (x - 1).toInt = x.toInt - 1 := by
  have hlt := BitVec.toInt_lt (x := x)
  have hone : (1 : BitVec 32).toInt = 1 := rfl
  rw [BitVec.toInt_sub, hone, Int.bmod_def]
  split <;> omega

theorem write_eq_ok {i : BitVec 32} {ch : UInt8} : s.write i ch = .ok s' ↔
    (0 ≤ i.toInt ∧ i.toInt < s.shellSize.toInt) ∧
      s' = { s with shellCmd := Function.update s.shellCmd i.toNat ch } := by
  rw [write]
  split
  · next h => exact ⟨fun hok => ⟨h, (Except.ok.inj hok).symm⟩, fun hok => congrArg _ hok.2.symm⟩
  · next h => exact iff_of_false (fun hok => nomatch hok) fun hok => h hok.1

theorem map_update_of_le {cmd : Nat → UInt8} {n i : Nat} (h : n ≤ i) (ch : UInt8) :
    (List.range n).map (Function.update cmd i ch) = (List.range n).map cmd := by
  apply List.map_congr_left
  intro j hj
  have hlt := List.mem_range.mp hj
  have hne : j ≠ i := by omega
  exact Function.update_of_ne hne ch cmd

theorem Edits.toNat_cur (h : s.Edits line) : s.shellCur.toNat = line.length := by
  have hcur := h.cur
  rw [BitVec.toInt_eq_toNat_cond] at hcur
  split at hcur <;> omega

/-- A character is put behind the line. -/
theorem Edits.write_append (h : s.Edits line) (hlt : s.shellCur.toInt < s.shellSize.toInt)
    (ch : UInt8) : ∃ s', s.write s.shellCur ch = .ok s' ∧
      Edits { s' with shellCur := s'.shellCur + 1 } (line ++ [ch]) := by
  have hcur := h.cur
  have hpos : 0 ≤ s.shellCur.toInt := by omega
  have hsize := BitVec.toInt_lt (x := s.shellSize)
  have hnext : (s.shellCur + 1).toInt = s.shellCur.toInt + 1 :=
    toInt_add_of_lt (Int.add_nonneg hpos Int.one_nonneg) (Int.lt_of_lt_of_le
      (Int.add_lt_add_right hlt 1) hsize)
  refine ⟨_, write_eq_ok.mpr ⟨⟨hpos, hlt⟩, rfl⟩, h.enabled, ?_, ?_, ?_⟩
  · dsimp only
    rw [hnext, hcur, List.length_append]
    rfl
  · dsimp only
    omega
  · rw [List.length_append, List.length_singleton, List.range_succ, List.map_append, h.toNat_cur,
      map_update_of_le (Nat.le_refl _), h.bytes]
    simp

theorem Edits.grow (h : s.Edits line) (fresh : Nat → UInt8)
    (hsize : s.shellSize.toInt + 80 < 2 ^ 31) : (s.grow fresh).Edits line := by
  have hcur := h.cur
  have hle := h.le
  have hnew : (s.shellSize + 80).toInt = s.shellSize.toInt + 80 :=
    toInt_add_of_lt (Int.add_nonneg (by omega) (by decide)) hsize
  refine ⟨h.enabled, hcur, ?_, ?_⟩
  · rw [Shell.grow]
    dsimp only
    omega
  · rw [← h.bytes, List.length_map, List.length_range]
    apply List.map_congr_left
    intro i hi
    have hlt := List.mem_range.mp hi
    exact if_pos (by omega)

theorem clear_eq_ok_iff : s.clear = .ok s' ↔ 0 ≤ s.shellSize.toInt ∧ { s with
    shellCmd i := if (i : Int) < s.shellSize.toInt then 0 else s.shellCmd i
    shellCur := 0 } = s' := by
  rw [clear]
  split
  · next h => exact ⟨fun hok => ⟨h, Except.ok.inj hok⟩, fun hok => congrArg _ hok.2⟩
  · next h => exact iff_of_false nofun fun hok => h hok.1

theorem clear_eq_ok (h : 0 ≤ s.shellSize.toInt) (henabled : s.enabled = true) :
    ∃ s', s.clear = .ok s' ∧ s'.Edits [] := by
  rw [clear, if_pos h]
  exact ⟨_, rfl, henabled, rfl, h, rfl⟩

theorem Edits.pushChar (h : s.Edits line) (ch : UInt8) (fresh : Nat → UInt8)
    (hfits : (ShellEvent.pushChar ch fresh).Fits resolve call s) :
    ∃ s', s.pushChar ch fresh = .ok ([.putchar ch], s') ∧ s'.Edits (line ++ [ch]) := by
  have hle := h.le
  have hcur := h.cur
  rw [Shell.pushChar]
  split
  · next hfull =>
    have hfull : s.shellSize.toInt ≤ s.shellCur.toInt := of_decide_eq_true hfull
    have hsize := hfits.resolve_left (by omega)
    have hnew : (s.shellSize + 80).toInt = s.shellSize.toInt + 80 :=
      toInt_add_of_lt (Int.add_nonneg (by omega) (by decide)) hsize
    have hroom : (s.grow fresh).shellCur.toInt < (s.grow fresh).shellSize.toInt := by
      rw [Shell.grow]
      dsimp only
      omega
    obtain ⟨s', hok, hedits⟩ := (h.grow fresh hsize).write_append hroom ch
    exact ⟨_, bind_eq_ok.mpr ⟨s', hok, rfl⟩, hedits⟩
  · next hroom =>
    have hroom : s.shellCur.toInt < s.shellSize.toInt := by
      rw [BitVec.sle, decide_eq_true_iff] at hroom
      omega
    obtain ⟨s', hok, hedits⟩ := h.write_append hroom ch
    exact ⟨_, bind_eq_ok.mpr ⟨s', hok, rfl⟩, hedits⟩

theorem Edits.cur_eq_zero_iff (h : s.Edits line) : s.shellCur = 0 ↔ line = [] := by
  rw [← List.length_eq_zero_iff, ← h.toNat_cur]
  exact BitVec.toNat_eq.trans (Eq.congr_right rfl)

theorem Edits.delChar (h : s.Edits line) (hfits : ShellEvent.delChar.Fits resolve call s) :
    line ≠ [] ∧ ∃ s', s.delChar = .ok ([.delc], s') ∧ s'.Edits line.dropLast := by
  have hcur := h.cur
  have hle := h.le
  have hne : line ≠ [] := mt h.cur_eq_zero_iff.mpr hfits
  have hlen : 0 < line.length := List.length_pos_iff.mpr hne
  have hpred : (s.shellCur - 1).toInt = s.shellCur.toInt - 1 := toInt_sub_one (by omega)
  have hindex : (s.shellCur - 1).toNat = line.length - 1 := by
    have hnat := h.toNat_cur
    bv_omega
  refine ⟨hne, _, bind_eq_ok.mpr ⟨_, write_eq_ok.mpr ⟨⟨?_, ?_⟩, rfl⟩, rfl⟩, h.enabled, ?_, ?_, ?_⟩
  · dsimp only
    omega
  · dsimp only
    omega
  · dsimp only
    rw [List.length_dropLast]
    omega
  · dsimp only
    omega
  · have hbytes := congrArg List.dropLast h.bytes
    rw [← List.map_dropLast, List.dropLast_eq_take, List.length_range, List.take_range] at hbytes
    dsimp only
    rw [hindex, List.length_dropLast, map_update_of_le (Nat.le_refl _), ← hbytes]
    congr 2
    omega

theorem takeWhile_append_zero (l : List UInt8) :
    (l ++ [0]).takeWhile (· ≠ 0) = l.takeWhile (· ≠ 0) := by
  induction l with
  | nil => rfl
  | cons ch l ih =>
    rw [List.cons_append, List.takeWhile_cons, List.takeWhile_cons, ih]

/-- The command that is run is the one of the line. -/
theorem runCommand_eq_ok {out : ShellOutput} : s.runCommand resolve call = .ok (out, s') ↔
    out = (if resolve (s.command s.shellCur.toNat) ≠ 0 then
        .callFunction (resolve (s.command s.shellCur.toNat)) else .dumpFunctionNames) ∧
      if resolve (s.command s.shellCur.toNat) ≠ 0 then
        call (resolve (s.command s.shellCur.toNat)) s = .ok s' else s' = s := by
  rw [runCommand]
  split
  · rw [bind_eq_ok]
    constructor
    · rintro ⟨s₁, hcall, hok⟩
      cases hok
      exact ⟨rfl, hcall⟩
    · rintro ⟨rfl, hcall⟩
      exact ⟨s', hcall, rfl⟩
  · constructor
    · intro hok
      cases hok
      exact ⟨rfl, rfl⟩
    · rintro ⟨rfl, rfl⟩
      rfl

/-- A line with room for its `NUL`. -/
theorem Edits.write_zero (h : s.Edits line) (hlt : s.shellCur.toInt < s.shellSize.toInt) :
    (∃ s₁, s.write s.shellCur 0 = .ok s₁ ∧ { s₁ with shellCur := s₁.shellCur + 1 } = s.terminated) ∧
      s.terminated.Edits (line ++ [0]) ∧
      s.terminated.command s.terminated.shellCur.toNat = line.takeWhile (· ≠ 0) := by
  obtain ⟨s₁, hwrite, hedits⟩ := h.write_append hlt 0
  obtain ⟨-, rfl⟩ := write_eq_ok.mp hwrite
  have hterminated : s.terminated.Edits (line ++ [0]) := hedits
  refine ⟨⟨_, hwrite, rfl⟩, hterminated, ?_⟩
  rw [command, hterminated.toNat_cur, hterminated.bytes, takeWhile_append_zero]

theorem Edits.executeCommand (h : s.Edits line)
    (hfits : ShellEvent.executeCommand.Fits resolve call s) :
    ∃ s', s.executeCommand resolve call = .ok ((lineStep resolve line .executeCommand).1, s') ∧
      s'.Edits [] := by
  have hcur := h.cur
  have hle := h.le
  have henabled : (!s.enabled) ≠ true := by
    rw [h.enabled]
    exact Bool.false_ne_true
  rw [Shell.executeCommand, if_neg henabled, lineStep]
  by_cases hzero : s.shellCur = 0
  · obtain ⟨s', hok, hedits⟩ := clear_eq_ok (s := s) (by omega) h.enabled
    rw [if_pos hzero, if_pos (h.cur_eq_zero_iff.mp hzero), hok]
    exact ⟨s', rfl, hedits⟩
  · obtain ⟨hne, hcall⟩ := hfits.resolve_left hzero
    have hroom : s.shellCur.toInt < s.shellSize.toInt := by
      have hne : s.shellCur.toInt ≠ s.shellSize.toInt := mt BitVec.eq_of_toInt_eq hne
      omega
    obtain ⟨⟨s₁, hwrite, hterminated⟩, hedits, hcommand⟩ := h.write_zero hroom
    have hrun : ∃ s₂, s.terminated.runCommand resolve call =
        .ok (if resolve (line.takeWhile (· ≠ 0)) ≠ 0 then
          .callFunction (resolve (line.takeWhile (· ≠ 0))) else .dumpFunctionNames, s₂) ∧
          s₂.enabled = true ∧ 0 ≤ s₂.shellSize.toInt := by
      simp only [runCommand_eq_ok]
      rw [CallReturns] at hcall
      rw [hcommand] at hcall ⊢
      by_cases hrip : resolve (line.takeWhile (· ≠ 0)) = 0
      · have hcur' := hedits.cur
        have hle' := hedits.le
        exact ⟨s.terminated, ⟨rfl, by rw [if_neg (not_not.mpr hrip)]⟩, hedits.enabled, by omega⟩
      · obtain ⟨s₂, hok, hs₂⟩ := hcall hrip
        exact ⟨s₂, ⟨rfl, by rwa [if_pos hrip]⟩, hs₂⟩
    obtain ⟨s₂, hrun, henabled₂, hsize₂⟩ := hrun
    obtain ⟨s', hclear, hedits'⟩ := clear_eq_ok hsize₂ henabled₂
    rw [if_neg hzero, if_neg (mt h.cur_eq_zero_iff.mpr hzero), hwrite, ok_bind]
    dsimp only
    rw [hterminated, hrun, ok_bind]
    dsimp only
    rw [hclear]
    exact ⟨s', rfl, hedits'⟩

/-- An event that fits is a step of the line. -/
theorem Edits.step {e : ShellEvent} (h : s.Edits line) (hfits : e.Fits resolve call s) :
    ∃ s', s.step resolve call e = .ok ((lineStep resolve line e).1, s') ∧
      s'.Edits (lineStep resolve line e).2 := by
  cases e with
  | pushChar ch fresh => exact h.pushChar ch fresh hfits
  | delChar =>
    obtain ⟨hne, s', hok, hedits⟩ := h.delChar hfits
    rw [lineStep, if_neg hne]
    exact ⟨s', hok, hedits⟩
  | executeCommand =>
    obtain ⟨s', hok, hedits⟩ := h.executeCommand hfits
    refine ⟨s', hok, ?_⟩
    rw [lineStep]
    split <;> exact hedits

/-- An event that does not fit writes outside the buffer or breaks the shell. -/
theorem Edits.fits_of_ok {e : ShellEvent} (h : s.Edits line)
    (hok : s.step resolve call e = .ok (out, s')) (h' : s'.Edits line') :
    e.Fits resolve call s := by
  have hcur := h.cur
  have hle := h.le
  cases e with
  | pushChar ch fresh =>
    by_contra hnot
    obtain ⟨hfull, hbig⟩ := not_or.mp hnot
    have hgrow : s.shellSize.sle s.shellCur = true := decide_eq_true (Int.not_lt.mp hfull)
    rw [Shell.step, Shell.pushChar, if_pos hgrow] at hok
    obtain ⟨s', hwrite, -⟩ := bind_eq_ok.mp hok
    have hin := (write_eq_ok.mp hwrite).1
    have hneg : (s.shellSize + 80).toInt < 0 := toInt_add_eighty_neg (Int.not_lt.mp hbig)
    exact absurd (Int.lt_trans (Int.lt_of_le_of_lt hin.1 hin.2) hneg) (Int.lt_irrefl 0)
  | delChar =>
    intro hzero
    rw [Shell.step, Shell.delChar] at hok
    obtain ⟨s', hwrite, -⟩ := bind_eq_ok.mp hok
    have hin := (write_eq_ok.mp hwrite).1.1
    rw [hzero] at hin
    have hneg : ¬0 ≤ (0 - 1 : BitVec 32).toInt := by decide
    exact hneg hin
  | executeCommand =>
    have henabled : (!s.enabled) ≠ true := by
      rw [h.enabled]
      exact Bool.false_ne_true
    by_cases hzero : s.shellCur = 0
    · exact .inl hzero
    · rw [Shell.step, Shell.executeCommand, if_neg henabled, if_neg hzero] at hok
      obtain ⟨s₁, hwrite, hok⟩ := bind_eq_ok.mp hok
      have hlt := (write_eq_ok.mp hwrite).1.2
      refine .inr ⟨fun hfull => ?_, fun hrip => ?_⟩
      · rw [hfull] at hlt
        exact Int.lt_irrefl _ hlt
      · obtain ⟨⟨s₂, hwrite', hterminated⟩, -, -⟩ := h.write_zero hlt
        cases hwrite.symm.trans hwrite'
        rw [hterminated] at hok
        obtain ⟨⟨run, s₃⟩, hrun, hok⟩ := bind_eq_ok.mp hok
        obtain ⟨s₄, hclear, hok⟩ := bind_eq_ok.mp hok
        cases hok
        obtain ⟨-, hcall⟩ := runCommand_eq_ok.mp hrun
        rw [if_pos hrip] at hcall
        obtain ⟨hsize, rfl⟩ := clear_eq_ok_iff.mp hclear
        exact ⟨s₃, hcall, h'.enabled, hsize⟩

end Shell

/-- The shell edits a line in every state of a run exactly if every event fits. -/
theorem shell_edits_iff (resolve : List UInt8 → BitVec 64)
    (call : BitVec 64 → Shell → Except ShellFault Shell) (fresh : Nat → UInt8)
    (events : List ShellEvent) :
    Run.Refines (Shell.step resolve call) (lineStep resolve) Shell.Edits (Shell.init fresh) []
        events ↔
      Run.Along (Shell.step resolve call) (fun s e => e.Fits resolve call s) (Shell.init fresh)
        events := by
  have hinit : (Shell.init fresh).Edits [] := ⟨rfl, rfl, Int.zero_le_ofNat 80, rfl⟩
  exact Run.refines_iff_along _ id (fun h hfits => h.step hfits)
    (fun h hok h' => h.fits_of_ok hok h') hinit

/-- A backspace on the empty line writes in front of the buffer. -/
theorem shell_backspace :
    Run.outputs (Shell.step (fun _ => 0) fun _ => .ok) (Shell.init fun _ => 0) [.delChar] =
      .error (.writeOutside (-1)) ∧
    ¬Run.Refines (Shell.step (fun _ => 0) fun _ => .ok) (lineStep fun _ => 0) Shell.Edits
      (Shell.init fun _ => 0) [] [.delChar] := by
  have houtside : Run.outputs (Shell.step (fun _ => 0) fun _ => .ok) (Shell.init fun _ => 0)
      [.delChar] = .error (.writeOutside (-1)) := rfl
  refine ⟨houtside, fun h => ?_⟩
  cases h.outputs_eq.symm.trans houtside

end Lethe
