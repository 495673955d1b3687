import Mathlib.Algebra.Group.Nat.Defs
import Mathlib.Data.List.Basic
import Mathlib.Tactic.Common

/-!
# Ranges one behind the other

`Fills start len s l e` says that the ranges of the elements of `l`, each with its `start` and its
length `len`, fill the numbers from `s` to `e` in the order of the list. Two neighbours become one
range if the length of the first grows by that of the second (`Fills.merge`), and the other way round
(`Fills.split`).
-/

namespace Lethe

variable {α : Type u} {start len len' : α → Nat} {s e : Nat} {l u v : List α} {a b : α}

/-- The ranges of `l` fill the numbers from `s` to `e`. -/
def Fills (start len : α → Nat) : Nat → List α → Nat → Prop
  | s, [], e => s = e
  | s, a :: l, e => start a = s ∧ 0 < len a ∧ Fills start len (s + len a) l e

namespace Fills

theorem congr (h : Fills start len s l e) (hlen : ∀ a ∈ l, len' a = len a) :
    Fills start len' s l e := by
  induction l generalizing s with
  | nil => exact h
  | cons a l ih =>
    obtain ⟨hs, hpos, hrest⟩ := h
    rw [List.forall_mem_cons] at hlen
    exact ⟨hs, hlen.1.symm ▸ hpos, hlen.1.symm ▸ ih hrest hlen.2⟩

theorem append_iff : Fills start len s (u ++ v) e ↔
    ∃ m, Fills start len s u m ∧ Fills start len m v e := by
  induction u generalizing s with
  | nil => simp [Fills]
  | cons a u ih =>
    simp only [List.cons_append, Fills, ih]
    constructor
    · rintro ⟨hs, hpos, m, hu, hv⟩
      exact ⟨m, ⟨hs, hpos, hu⟩, hv⟩
    · rintro ⟨m, ⟨hs, hpos, hu⟩, hv⟩
      exact ⟨hs, hpos, m, hu, hv⟩

theorem le (h : Fills start len s l e) : s ≤ e := by
  induction l generalizing s with
  | nil => exact Nat.le_of_eq h
  | cons a l ih =>
    obtain ⟨-, -, hrest⟩ := h
    have := ih hrest
    omega

/-- The range of an element lies between the ends. -/
theorem bounds (h : Fills start len s l e) (ha : a ∈ l) :
    s ≤ start a ∧ 0 < len a ∧ start a + len a ≤ e := by
  induction l generalizing s with
  | nil => cases ha
  | cons b l ih =>
    obtain ⟨hs, hpos, hrest⟩ := h
    rcases List.mem_cons.mp ha with rfl | ha
    · have := hrest.le
      omega
    · have := ih hrest ha
      omega

/-- An element ends before the next ones start. -/
theorem pairwise (h : Fills start len s l e) :
    l.Pairwise fun a b => start a + len a ≤ start b := by
  induction l generalizing s with
  | nil => exact .nil
  | cons a l ih =>
    obtain ⟨hs, -, hrest⟩ := h
    refine List.pairwise_cons.mpr ⟨fun b hb => ?_, ih hrest⟩
    have := (hrest.bounds hb).1
    omega

theorem nodup (h : Fills start len s l e) : l.Nodup := by
  refine h.pairwise.imp_of_mem fun {a b} ha _ hab => ?_
  rintro rfl
  have := (h.bounds ha).2.1
  omega

/-- Different elements have disjoint ranges. -/
theorem apart (h : Fills start len s l e) (ha : a ∈ l) (hb : b ∈ l) (hne : a ≠ b) :
    start a + len a ≤ start b ∨ start b + len b ≤ start a := by
  induction l generalizing s with
  | nil => cases ha
  | cons c l ih =>
    obtain ⟨hs, -, hrest⟩ := h
    rcases List.mem_cons.mp ha with rfl | hal
    · have := (hrest.bounds ((List.mem_cons.mp hb).resolve_left hne.symm)).1
      omega
    · rcases List.mem_cons.mp hb with rfl | hbl
      · have := (hrest.bounds hal).1
        omega
      · exact ih hrest hal hbl

/-- The range in front of an element ends where it starts. -/
theorem start_next (h : Fills start len s (u ++ a :: b :: v) e) : start b = start a + len a := by
  obtain ⟨m, -, ha, -, hb, -⟩ := append_iff.mp h
  omega

/-- A range is cut in two. -/
theorem split (h : Fills start len s (u ++ a :: v) e) (hpos : 0 < len' a ∧ 0 < len' b)
    (hb : start b = start a + len' a) (hsum : len' a + len' b = len a)
    (hlen : ∀ c ∈ u ++ v, len' c = len c) : Fills start len' s (u ++ a :: b :: v) e := by
  rw [List.forall_mem_append] at hlen
  obtain ⟨m, hu, ha, -, hv⟩ := append_iff.mp h
  refine append_iff.mpr ⟨m, hu.congr hlen.1, ha, hpos.1, by omega, hpos.2, ?_⟩
  rw [Nat.add_assoc, hsum]
  exact hv.congr hlen.2

/-- A range and the next one become one. -/
theorem merge (h : Fills start len s (u ++ a :: b :: v) e) (hsum : len' a = len a + len b)
    (hlen : ∀ c ∈ u ++ v, len' c = len c) : Fills start len' s (u ++ a :: v) e := by
  rw [List.forall_mem_append] at hlen
  obtain ⟨m, hu, ha, hpos, -, -, hv⟩ := append_iff.mp h
  refine append_iff.mpr ⟨m, hu.congr hlen.1, ha, by omega, ?_⟩
  rw [hsum, ← Nat.add_assoc]
  exact hv.congr hlen.2

end Fills

end Lethe
