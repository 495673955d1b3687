import Lethe.Kernel.HardwareWalk
import Lethe.Kernel.PresentTree

/-!
# Page tables without large pages

Without large pages the walk of the processor ends at the entry that the tree of present entries
has at the digits of the address, so that `map_page` changes the translation of one page.
-/

namespace Lethe

namespace Machine

variable {m m' : Machine} {root : BitVec 40}

/-- No entry of the levels 4, 3 and 2 has the page-size bit. -/
def SmallPages (m : Machine) (root : BitVec 40) : Prop :=
  ∀ q e, q.length ≤ 3 → m.entryOn root q = some e → e.pageSize = 0

theorem entryOn_singleton (m : Machine) (root : BitVec 40) (i : Fin 512) :
    m.entryOn root [i] = m.presentEntry root i :=
  entryOn_concat (p := [])

/-- The entry behind an entry. -/
theorem entryOn_behind (hp : m.entryOn root (p ++ [j]) = some e) (i : Fin 512) :
    m.entryOn root (p ++ [j] ++ [i]) = m.presentEntry e.address i := by
  rw [entryOn_concat, tableOn_concat, hp]
  rfl

theorem SmallPages.ne_one (h : m.SmallPages root) (hq : q.length ≤ 3)
    (he : m.entryOn root q = some e) : e.pageSize ≠ 1 := by
  rw [h q e hq he]
  decide

/-- The walk of the processor follows the digits of the address. -/
theorem SmallPages.hardwareWalk_eq (h : m.SmallPages root) (v : BitVec 64) :
    m.hardwareWalk root v =
      ((m.entryOn root (digits v)).map fun e => Walk.page e.address).getD .missing := by
  have hmissing {p : List (Fin 512)} (hp : p ≠ []) (hpre : p <+: digits v)
      (hnone : m.entryOn root p = none) : m.entryOn root (digits v) = none := by
    by_contra hne
    exact entryOn_prefix hne hp hpre hnone
  have h4 := entryOn_singleton m root (p4Index v)
  rw [hardwareWalk]
  by_cases hp4 : (m.entry root (p4Index v)).present = 0
  · rw [presentEntry_eq_none.mpr hp4] at h4
    rw [if_pos (.inl hp4), hmissing (by simp) ⟨_, rfl⟩ h4]
    rfl
  rw [presentEntry_eq_some hp4] at h4
  rw [if_neg (not_or.mpr ⟨hp4, h.ne_one (by simp) h4⟩)]
  have h3 := entryOn_behind (p := []) h4 (p3Index v)
  by_cases hp3 : (m.entry (m.entry root (p4Index v)).address (p3Index v)).present = 0
  · rw [presentEntry_eq_none.mpr hp3] at h3
    rw [if_pos hp3, hmissing (by simp) ⟨_, rfl⟩ h3]
    rfl
  rw [presentEntry_eq_some hp3] at h3
  rw [if_neg hp3, if_neg (h.ne_one (by simp) h3)]
  have h2 := entryOn_behind h3 (p2Index v)
  generalize (m.entry (m.entry root (p4Index v)).address (p3Index v)).address = p2 at h2
  by_cases hp2 : (m.entry p2 (p2Index v)).present = 0
  · rw [presentEntry_eq_none.mpr hp2] at h2
    rw [if_pos hp2, hmissing (by simp) ⟨_, rfl⟩ h2]
    rfl
  rw [presentEntry_eq_some hp2] at h2
  rw [if_neg hp2, if_neg (h.ne_one (by simp) h2)]
  have h1 := entryOn_behind h2 (p1Index v)
  generalize (m.entry p2 (p2Index v)).address = p1 at h1
  have hdigits : digits v = [] ++ [p4Index v] ++ [p3Index v] ++ [p2Index v] ++ [p1Index v] := rfl
  rw [hdigits, h1]
  by_cases hp1 : (m.entry p1 (p1Index v)).present = 0
  · rw [if_pos hp1, presentEntry_eq_none.mpr hp1]
    rfl
  · rw [if_neg hp1, presentEntry_eq_some hp1]
    rfl

theorem SmallPages.missing_iff (h : m.SmallPages root) :
    m.hardwareWalk root v = .missing ↔ m.entryOn root (digits v) = none := by
  rw [h.hardwareWalk_eq]
  cases m.entryOn root (digits v) with
  | none => simp
  | some e => simp

/-- New entries with the flags of a call are not those of large pages. -/
theorem SmallPages.adds (h : m.SmallPages root) (hflags : FlagsOk flags)
    (hadds : m.Adds m' root q flags) : m'.SmallPages root := by
  intro q e hq he
  rcases hadds q (by omega) with hsame | ⟨-, -, f, hnew⟩
  · exact h q e hq (hsame ▸ he)
  · obtain rfl := Option.some.inj (hnew.symm.trans he)
    exact setEntry_pageSize hflags f

end Machine

end Lethe
