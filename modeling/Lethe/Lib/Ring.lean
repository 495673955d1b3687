import Mathlib.Algebra.Group.Nat.Defs
import Mathlib.Data.List.Basic
import Mathlib.Tactic.Common

/-!
# Index arithmetic of a ring buffer

A ring of `cap` slots is walked by `next`. The occupied part of a ring with read index `head`
and write index `tail` is the walk `walk cap head (dist cap head tail)`, which never meets
`tail` itself, so one slot always stays free.
-/

namespace Lethe.Ring

/-- The slot after `i` in a ring of `cap` slots. -/
def next (cap i : Nat) : Nat := (i + 1) % cap

/-- The number of slots from `head` up to, and excluding, `tail`. -/
def dist (cap head tail : Nat) : Nat := (tail + cap - head) % cap

/-- The `n` slots that follow `head`, starting with `head`. -/
def walk (cap head : Nat) : Nat → List Nat
  | 0 => []
  | n + 1 => head :: walk cap (next cap head) n

variable {cap head tail i n : Nat}

theorem next_lt (h : i < cap) : next cap i < cap := Nat.mod_lt _ (by omega)

theorem next_cases (h : i < cap) :
    (i + 1 < cap ∧ next cap i = i + 1) ∨ (i + 1 = cap ∧ next cap i = 0) := by
  rcases Nat.lt_or_ge (i + 1) cap with h' | h'
  · exact .inl ⟨h', Nat.mod_eq_of_lt h'⟩
  · have : i + 1 = cap := by omega
    exact .inr ⟨this, by simp [next, this]⟩

theorem dist_cases (hh : head < cap) (ht : tail < cap) :
    (head ≤ tail ∧ dist cap head tail = tail - head) ∨
      (tail < head ∧ dist cap head tail = tail + cap - head) := by
  rcases Nat.lt_or_ge tail head with h | h
  · exact .inr ⟨h, Nat.mod_eq_of_lt (by omega)⟩
  · refine .inl ⟨h, ?_⟩
    rw [dist, show tail + cap - head = tail - head + cap by omega, Nat.add_mod_right]
    exact Nat.mod_eq_of_lt (by omega)

theorem dist_lt (hh : head < cap) : dist cap head tail < cap := Nat.mod_lt _ (by omega)

theorem dist_eq_zero (hh : head < cap) (ht : tail < cap) :
    dist cap head tail = 0 ↔ head = tail := by
  rcases dist_cases hh ht with h | h <;> omega

/-- Reading one slot shortens the occupied part by one. -/
theorem dist_next_left (hh : head < cap) (ht : tail < cap) (hne : head ≠ tail) :
    dist cap head tail = dist cap (next cap head) tail + 1 := by
  have hn := next_lt hh
  rcases dist_cases hh ht with h | h <;> rcases dist_cases hn ht with h' | h' <;>
    rcases next_cases hh with h'' | h'' <;> omega

/-- Writing one slot lengthens the occupied part by one, unless the ring was full. -/
theorem dist_next_right (hh : head < cap) (ht : tail < cap) (hne : next cap tail ≠ head) :
    dist cap head (next cap tail) = dist cap head tail + 1 := by
  have hn := next_lt ht
  rcases dist_cases hh ht with h | h <;> rcases dist_cases hh hn with h' | h' <;>
    rcases next_cases ht with h'' | h'' <;> omega

/-- Exactly one slot is occupied when `tail` is the slot after `head`. -/
theorem dist_eq_one (hc : 1 < cap) (hh : head < cap) (ht : tail < cap) :
    dist cap head tail = 1 ↔ next cap head = tail := by
  rcases dist_cases hh ht with h | h <;> rcases next_cases hh with h' | h' <;> omega

@[simp] theorem walk_zero : walk cap head 0 = [] := rfl

@[simp] theorem walk_succ : walk cap head (n + 1) = head :: walk cap (next cap head) n := rfl

@[simp] theorem length_walk : (walk cap head n).length = n := by
  induction n generalizing head with
  | zero => rfl
  | succ n ih => rw [walk_succ, List.length_cons, ih]

/-- The last slot of a walk of `n + 1` slots is the one a walk of `n` slots stops at. -/
theorem walk_concat (hh : head < cap) (n : Nat) :
    walk cap head (n + 1) = walk cap head n ++ [(head + n) % cap] := by
  induction n generalizing head with
  | zero => simp [Nat.mod_eq_of_lt hh]
  | succ n ih =>
    rw [walk_succ, ih (next_lt hh), walk_succ, List.cons_append]
    congr 3
    simp [next, Nat.add_comm, Nat.add_left_comm]

theorem head_add_dist (hh : head < cap) (ht : tail < cap) :
    (head + dist cap head tail) % cap = tail := by
  rcases dist_cases hh ht with ⟨_, h⟩ | ⟨_, h⟩
  · rw [h, show head + (tail - head) = tail by omega, Nat.mod_eq_of_lt ht]
  · rw [h, show head + (tail + cap - head) = tail + cap by omega, Nat.add_mod_right,
      Nat.mod_eq_of_lt ht]

theorem add_mod_cases (hh : head < cap) (hn : n < cap) :
    (head + n < cap ∧ (head + n) % cap = head + n) ∨
      (cap ≤ head + n ∧ (head + n) % cap = head + n - cap) := by
  rcases Nat.lt_or_ge (head + n) cap with h | h
  · exact .inl ⟨h, Nat.mod_eq_of_lt h⟩
  · exact .inr ⟨h, by rw [Nat.mod_eq_sub_mod h, Nat.mod_eq_of_lt (by omega)]⟩

/-- Fewer than `cap` steps never meet a slot twice. -/
theorem add_mod_inj (hh : head < cap) (hn : n < cap) (hi : i < cap)
    (h : (head + n) % cap = (head + i) % cap) : n = i := by
  rcases add_mod_cases hh hn with h₁ | h₁ <;> rcases add_mod_cases hh hi with h₂ | h₂ <;> omega

/-- The occupied part grows at its end. -/
theorem walk_dist_next (hh : head < cap) (ht : tail < cap) (hne : next cap tail ≠ head) :
    walk cap head (dist cap head (next cap tail)) =
      walk cap head (dist cap head tail) ++ [tail] := by
  rw [dist_next_right hh ht hne, walk_concat hh, head_add_dist hh ht]

/-- The write index is not part of the occupied slots. -/
theorem tail_not_mem_walk (hh : head < cap) (ht : tail < cap) :
    tail ∉ walk cap head (dist cap head tail) := by
  generalize hn : dist cap head tail = n
  induction n generalizing head with
  | zero => simp
  | succ n ih =>
    have hne : head ≠ tail := fun h => by
      rw [(dist_eq_zero hh ht).mpr h] at hn; omega
    have hd := dist_next_left hh ht hne
    rw [walk_succ, List.mem_cons]
    rintro (h | h)
    · exact hne h.symm
    · exact ih (next_lt hh) (by omega) h

end Lethe.Ring
