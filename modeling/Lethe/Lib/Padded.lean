import Mathlib.Order.Basic
import Mathlib.Tactic.Common

/-!
# Lists with an end mark

Lists without an entry `z`, where `z` is below all others and stands for what is behind the end of a
list. `Parts` says where two of them differ first. The lexicographic order is that of the entries
there, so it does not have to speak of the ends.
-/

namespace Lethe.Padded

variable {α : Type u} {z : α} {l l' : List α} {i j : Nat}

/-- `i` is the first place where the lists differ. -/
structure Parts (z : α) (l l' : List α) (i : Nat) : Prop where
  same : ∀ j < i, l.getD j z = l'.getD j z
  differ : l.getD i z ≠ l'.getD i z

theorem Parts.symm (h : Parts z l l' i) : Parts z l' l i where
  same j hj := (h.same j hj).symm
  differ := h.differ.symm

theorem Parts.unique (h : Parts z l l' i) (h' : Parts z l l' j) : i = j := by
  apply Nat.le_antisymm
  · exact Nat.le_of_not_lt fun hlt => h'.differ (h.same j hlt)
  · exact Nat.le_of_not_lt fun hlt => h.differ (h'.same i hlt)

/-- What holds of the first difference. -/
theorem Parts.forall_iff (h : Parts z l l' i) {P : Nat → Prop} :
    (∀ j, Parts z l l' j → P j) ↔ P i := by
  constructor
  · intro hall
    exact hall i h
  · intro hi j hj
    rwa [hj.unique h]

theorem parts_zero {a b : α} (h : a ≠ b) : Parts z (a :: l) (b :: l') 0 where
  same j hj := absurd hj (Nat.not_lt_zero j)
  differ := h

theorem parts_succ {a : α} : Parts z (a :: l) (a :: l') (i + 1) ↔ Parts z l l' i := by
  constructor
  · intro h
    exact ⟨fun j hj => h.same (j + 1) (Nat.succ_lt_succ hj), h.differ⟩
  · intro h
    refine ⟨fun j hj => ?_, h.differ⟩
    cases j with
    | zero => rfl
    | succ j => exact h.same j (Nat.lt_of_succ_lt_succ hj)

/-- Lists that do not part are the same. -/
theorem eq_or_parts (hl : z ∉ l) (hl' : z ∉ l') : l = l' ∨ ∃ i, Parts z l l' i := by
  induction l generalizing l' with
  | nil =>
    cases l' with
    | nil => exact .inl rfl
    | cons b l' =>
      refine .inr ⟨0, fun j hj => absurd hj (Nat.not_lt_zero j), fun h => hl' ?_⟩
      have hzb : z = b := h
      exact hzb ▸ List.mem_cons_self
  | cons a l ih =>
    cases l' with
    | nil =>
      refine .inr ⟨0, fun j hj => absurd hj (Nat.not_lt_zero j), fun h => hl ?_⟩
      have haz : a = z := h
      exact haz ▸ List.mem_cons_self
    | cons b l' =>
      by_cases hab : a = b
      · subst hab
        obtain rfl | ⟨i, hi⟩ :=
          ih (List.not_mem_of_not_mem_cons hl) (List.not_mem_of_not_mem_cons hl')
        · exact .inl rfl
        · exact .inr ⟨i + 1, parts_succ.mpr hi⟩
      · exact .inr ⟨0, parts_zero hab⟩

theorem Parts.ne (h : Parts z l l' i) : l ≠ l' := fun hll => h.differ (hll ▸ rfl)

/-- What is in front of place `n`. -/
theorem getD_take (l : List α) (n i : Nat) :
    (l.take n).getD i z = if i < n then l.getD i z else z := by
  rw [List.getD_eq_getElem?_getD, List.getElem?_take]
  split
  · rw [List.getD_eq_getElem?_getD]
  · rfl

theorem parts_take {n : Nat} :
    Parts z (l.take n) (l'.take n) i ↔ i < n ∧ Parts z l l' i := by
  constructor
  · intro h
    have hi : i < n := by
      apply Nat.lt_of_not_le
      intro hle
      apply h.differ
      rw [getD_take, getD_take, if_neg (Nat.not_lt.mpr hle), if_neg (Nat.not_lt.mpr hle)]
    refine ⟨hi, fun j hj => ?_, ?_⟩
    · have hsame := h.same j hj
      rwa [getD_take, getD_take, if_pos (Nat.lt_trans hj hi), if_pos (Nat.lt_trans hj hi)] at hsame
    · have hdiffer := h.differ
      rwa [getD_take, getD_take, if_pos hi, if_pos hi] at hdiffer
  · rintro ⟨hi, h⟩
    refine ⟨fun j hj => ?_, ?_⟩
    · rw [getD_take, getD_take, if_pos (Nat.lt_trans hj hi), if_pos (Nat.lt_trans hj hi)]
      exact h.same j hj
    · rw [getD_take, getD_take, if_pos hi, if_pos hi]
      exact h.differ

variable [LT α]

/-- The order of two lists is that of the entries at the first difference. -/
theorem Parts.lt_iff (hasymm : ∀ a b : α, a < b → ¬b < a) (hl : ∀ a ∈ l, z < a)
    (hl' : ∀ a ∈ l', z < a) (h : Parts z l l' i) : l < l' ↔ l.getD i z < l'.getD i z := by
  have hirrefl (a : α) : ¬a < a := fun ha => hasymm a a ha ha
  have hne {a b : α} (hab : a < b) : a ≠ b := by
    rintro rfl
    exact hirrefl a hab
  induction l generalizing l' i with
  | nil =>
    cases l' with
    | nil => exact absurd rfl h.ne
    | cons b l' =>
      have hb : z < b := hl' b List.mem_cons_self
      obtain rfl := h.unique ⟨fun j hj => absurd hj (Nat.not_lt_zero j), hne hb⟩
      exact iff_of_true (List.nil_lt_cons b l') hb
  | cons a l ih =>
    have ha : z < a := hl a List.mem_cons_self
    cases l' with
    | nil =>
      obtain rfl := h.unique ⟨fun j hj => absurd hj (Nat.not_lt_zero j), (hne ha).symm⟩
      exact iff_of_false (List.not_lt_nil _) (hasymm z a ha)
    | cons b l' =>
      rw [List.cons_lt_cons_iff]
      cases i with
      | zero =>
        have hab : a ≠ b := h.differ
        exact or_iff_left fun hlt => hab hlt.1
      | succ i =>
        obtain rfl : a = b := h.same 0 (Nat.succ_pos i)
        have hrest := ih (List.forall_mem_cons.mp hl).2 (List.forall_mem_cons.mp hl').2
          (parts_succ.mp h)
        rw [or_iff_right (hirrefl a), and_iff_right rfl]
        exact hrest

end Lethe.Padded
