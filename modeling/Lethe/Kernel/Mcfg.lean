import Mathlib.Tactic.Common
import Mathlib.Tactic.IntervalCases

/-!
# The list of the MCFG

`lethe-kernel/acpi/mcfg.c`. In the table there are 8 reserved bytes between its header and the
allocation structures. `parse_mcfg` takes them off the length, but `acpi_mcfg_t` does not have them,
so that every structure is read 8 bytes in front of where it is.
-/

namespace Lethe

/-! ## The code -/

/-- The MCFG: `header.length`, and the byte at an offset of the table. -/
structure Mcfg where
  length : BitVec 32
  byte : Nat → BitVec 8

/-- A `struct mcfg_entry` without `next`. -/
structure McfgEntry where
  baseAddress : BitVec 64
  groupNum : BitVec 16
  busStart : BitVec 8
  busEnd : BitVec 8
  deriving DecidableEq, Repr

namespace Mcfg
variable (mcfg : Mcfg)

/-- `new_entry` of the `struct mmio_configuration_space` at an offset. -/
def newEntry (offset : Nat) : McfgEntry where
  baseAddress := mcfg.byte (offset + 7) ++ mcfg.byte (offset + 6) ++ mcfg.byte (offset + 5) ++
    mcfg.byte (offset + 4) ++ mcfg.byte (offset + 3) ++ mcfg.byte (offset + 2) ++
    mcfg.byte (offset + 1) ++ mcfg.byte offset
  groupNum := mcfg.byte (offset + 9) ++ mcfg.byte (offset + 8)
  busStart := mcfg.byte (offset + 10)
  busEnd := mcfg.byte (offset + 11)

/-- The offset of `config_space[i]` in an `acpi_mcfg_t`. -/
def configSpace (i : Nat) : Nat := 36 + 16 * i

/-- The loop of `parse_mcfg` with the index `i`, when it has `k` rounds to go: the new entry becomes
the second of the list. -/
def parseLoop : Nat → Nat → McfgEntry → List McfgEntry → List McfgEntry
  | 0, _, start, rest => start :: rest
  | k + 1, i, start, rest => parseLoop k (i + 1) start (mcfg.newEntry (configSpace i) :: rest)

/-- `entries`. -/
def entries : BitVec 64 := (mcfg.length - 44).setWidth 64 / 16

end Mcfg

/-- `parse_mcfg`, from the list `mcfg_start`, which is empty for `NULL`, to the one behind it. -/
def parseMcfg (mcfg : Option Mcfg) (mcfgStart : List McfgEntry) : List McfgEntry :=
  match mcfg with
  | none => mcfgStart
  | some mcfg =>
    if mcfgStart ≠ [] then mcfgStart
    else mcfg.parseLoop (mcfg.entries.toNat - 1) 1 (mcfg.newEntry (Mcfg.configSpace 0)) []

/-! ## The table -/

namespace Mcfg
variable (mcfg : Mcfg)

/-- The offset of allocation structure `i`. -/
def allocation (i : Nat) : Nat := 44 + 16 * i

/-- Of `m` structures, number 0 and then the others from the last one on. -/
def listed (offset : Nat → Nat) : Nat → List McfgEntry
  | 0 => []
  | m + 1 => mcfg.newEntry (offset 0) ::
      ((List.range m).map fun i => mcfg.newEntry (offset (i + 1))).reverse

theorem parseLoop_eq (k i : Nat) (start : McfgEntry) (rest : List McfgEntry) :
    mcfg.parseLoop k i start rest = start ::
      (((List.range k).map fun j => mcfg.newEntry (configSpace (i + j))).reverse ++ rest) := by
  induction k generalizing i rest with
  | zero => rfl
  | succ k ih =>
    have hnext : (fun j => mcfg.newEntry (configSpace (i + 1 + j))) =
        fun j => mcfg.newEntry (configSpace (i + (j + 1))) := by
      funext j
      rw [Nat.add_assoc, Nat.add_comm 1 j]
    rw [parseLoop, ih, hnext, List.range_succ_eq_map, List.map_cons, List.reverse_cons,
      List.append_assoc, List.map_map]
    rfl

variable {mcfg}

theorem entries_of_length (h : mcfg.length.toNat = 44 + 16 * m) : mcfg.entries.toNat = m := by
  have hlt := mcfg.length.isLt
  have hsub : (mcfg.length - 44).toNat = 16 * m := by bv_omega
  have hsixteen : (16 : BitVec 64).toNat = 16 := rfl
  rw [entries, BitVec.toNat_udiv, BitVec.toNat_setWidth, hsub, hsixteen]
  omega

/-- The list that `parse_mcfg` builds, which has an entry even if the table has none. -/
theorem parseMcfg_eq (h : mcfg.length.toNat = 44 + 16 * m) :
    parseMcfg (some mcfg) [] = mcfg.listed configSpace (m - 1 + 1) := by
  have hindex : (fun j => mcfg.newEntry (configSpace (1 + j))) =
      fun j => mcfg.newEntry (configSpace (j + 1)) := by
    funext j
    rw [Nat.add_comm 1 j]
  rw [parseMcfg, if_neg (not_not.mpr rfl), entries_of_length h, parseLoop_eq, hindex,
    List.append_nil, listed]

theorem listed_congr_iff {f g : Nat → Nat} {m : Nat} : mcfg.listed f m = mcfg.listed g m ↔
    ∀ i < m, mcfg.newEntry (f i) = mcfg.newEntry (g i) := by
  cases m with
  | zero => exact iff_of_true rfl fun i hi => absurd hi (Nat.not_lt_zero i)
  | succ m =>
    rw [listed, listed, List.cons.injEq, List.reverse_inj, List.map_inj_left]
    constructor
    · rintro ⟨hzero, hrest⟩ i hi
      cases i with
      | zero => exact hzero
      | succ i => exact hrest i (List.mem_range.mpr (Nat.lt_of_succ_lt_succ hi))
    · intro h
      exact ⟨h 0 (Nat.succ_pos m), fun i hi => h (i + 1) (Nat.succ_lt_succ (List.mem_range.mp hi))⟩

theorem append_eq_append_iff {x x' : BitVec v} {y y' : BitVec w} :
    x ++ y = x' ++ y' ↔ x = x' ∧ y = y' := by
  constructor
  · intro h
    have hlow : y = y' := by
      apply BitVec.eq_of_getLsbD_eq
      intro i hi
      have hbit := congrArg (BitVec.getLsbD · i) h
      simpa only [BitVec.getLsbD_append, if_pos hi] using hbit
    subst hlow
    exact ⟨(BitVec.append_left_inj y).mp h, rfl⟩
  · rintro ⟨rfl, rfl⟩
    rfl

theorem eight_bytes_iff {a₇ a₆ a₅ a₄ a₃ a₂ a₁ a₀ b₇ b₆ b₅ b₄ b₃ b₂ b₁ b₀ : BitVec 8} :
    a₇ ++ a₆ ++ a₅ ++ a₄ ++ a₃ ++ a₂ ++ a₁ ++ a₀ = b₇ ++ b₆ ++ b₅ ++ b₄ ++ b₃ ++ b₂ ++ b₁ ++ b₀ ↔
      a₇ = b₇ ∧ a₆ = b₆ ∧ a₅ = b₅ ∧ a₄ = b₄ ∧ a₃ = b₃ ∧ a₂ = b₂ ∧ a₁ = b₁ ∧ a₀ = b₀ := by
  simp only [append_eq_append_iff, and_assoc]

/-- Two entries are the same if the twelve bytes they are made of are. -/
theorem newEntry_eq_iff {p q : Nat} :
    mcfg.newEntry p = mcfg.newEntry q ↔ ∀ k < 12, mcfg.byte (p + k) = mcfg.byte (q + k) := by
  constructor
  · intro h k hk
    have hbase := eight_bytes_iff.mp (congrArg McfgEntry.baseAddress h)
    have hgroup := append_eq_append_iff.mp (congrArg McfgEntry.groupNum h)
    have hstart := congrArg McfgEntry.busStart h
    have hend := congrArg McfgEntry.busEnd h
    obtain ⟨h₇, h₆, h₅, h₄, h₃, h₂, h₁, h₀⟩ := hbase
    obtain ⟨h₉, h₈⟩ := hgroup
    interval_cases k <;> assumption
  · intro h
    have hbase := eight_bytes_iff.mpr ⟨h 7 (by decide), h 6 (by decide), h 5 (by decide),
      h 4 (by decide), h 3 (by decide), h 2 (by decide), h 1 (by decide), h 0 (by decide)⟩
    have hgroup := append_eq_append_iff.mpr ⟨h 9 (by decide), h 8 (by decide)⟩
    exact McfgEntry.mk.injEq .. ▸ ⟨hbase, hgroup, h 10 (by decide), h 11 (by decide)⟩

end Mcfg

/-- The list has the entries of the table exactly if there is one, and the bytes of each are the
same as those 8 bytes in front of it. -/
theorem parseMcfg_listed_iff (mcfg : Mcfg) (m : Nat) (h : mcfg.length.toNat = 44 + 16 * m) :
    parseMcfg (some mcfg) [] = mcfg.listed Mcfg.allocation m ↔
      m ≠ 0 ∧ ∀ i < m, ∀ k < 12, mcfg.byte (36 + 16 * i + k) = mcfg.byte (44 + 16 * i + k) := by
  rw [Mcfg.parseMcfg_eq h]
  cases m with
  | zero => exact iff_of_false (List.cons_ne_nil _ _) fun h => h.1 rfl
  | succ m =>
    rw [Nat.add_sub_cancel, Mcfg.listed_congr_iff, and_iff_right (Nat.succ_ne_zero m)]
    exact forall₂_congr fun i _ => Mcfg.newEntry_eq_iff

/-- A table with one structure: base address 0xB0000000, segment group 0, busses 0 to 255. -/
def exampleMcfg : Mcfg where
  length := 60
  byte p := if p = 47 then 0xB0 else if p = 55 then 0xFF else 0

/-- Two structures, base addresses 0xE0000000 and 0x1E0000000, with the bytes that are read in front
of each the same as its own. -/
def repeatedMcfg : Mcfg where
  length := 76
  byte p := if p % 8 = 7 then 0xE0 else if p = 56 ∨ p = 64 then 1 else 0

theorem parseMcfg_listed_iff_repeated :
    parseMcfg (some repeatedMcfg) [] = repeatedMcfg.listed Mcfg.allocation 2 ∧
      repeatedMcfg.listed Mcfg.allocation 2 = [⟨0xE0000000, 0, 0, 0xE0⟩, ⟨0x1E0000000, 0, 0, 0xE0⟩] :=
  ⟨(parseMcfg_listed_iff repeatedMcfg 2 rfl).mpr (by decide), by decide⟩

/-- The base address is not that of the table, and a table without structures gives an entry. -/
theorem parseMcfg_wrong :
    exampleMcfg.length.toNat = 44 + 16 * 1 ∧
    parseMcfg (some exampleMcfg) [] = [⟨0, 0, 0, 0xB0⟩] ∧
    exampleMcfg.listed Mcfg.allocation 1 = [⟨0xB0000000, 0, 0, 0xFF⟩] ∧
    (parseMcfg (some ⟨44, fun _ => 0⟩) []).length = 1 := by
  decide

end Lethe
