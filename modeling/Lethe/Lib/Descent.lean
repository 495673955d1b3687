import Mathlib.Algebra.Group.Nat.Defs
import Mathlib.Data.Fintype.Card
import Mathlib.Order.Bounds.Basic
import Mathlib.Data.Set.Finite.Lattice
import Mathlib.Tactic.Common

/-!
# Recursion along a relation

A function that calls itself for every `b` with `r a b` returns at `a` if the chains of `r` from
`a` are bounded. Over a finite type this is so exactly if no element that is reached from `a` is
reached from itself.
-/

namespace Lethe.Descent

variable {α : Type u} {r : α → α → Prop} {a b : α} {m n : Nat}

/-- The chains of `r` from `a` have fewer than `n` steps. -/
def Bounded (r : α → α → Prop) : Nat → α → Prop
  | 0, _ => False
  | n + 1, a => ∀ b, r a b → Bounded r n b

theorem Bounded.mono (h : Bounded r m a) (hmn : m ≤ n) : Bounded r n a := by
  induction m generalizing a n with
  | zero => exact h.elim
  | succ m ih =>
    obtain ⟨n, rfl⟩ : ∃ k, n = k + 1 := ⟨n - 1, by omega⟩
    exact fun b hb => ih (h b hb) (by omega)

theorem Bounded.reach (h : Bounded r n a) (hab : Relation.ReflTransGen r a b) :
    ∃ m, Bounded r m b := by
  induction hab with
  | refl => exact ⟨n, h⟩
  | tail _ hstep ih =>
    obtain ⟨m, hm⟩ := ih
    cases m with
    | zero => exact hm.elim
    | succ m => exact ⟨m, hm _ hstep⟩

theorem Bounded.not_cycle (h : Bounded r n a) : ¬Relation.TransGen r a a := by
  induction n generalizing a with
  | zero => exact h.elim
  | succ n ih =>
    intro hcycle
    obtain ⟨b, hab, hba⟩ := Relation.TransGen.head'_iff.mp hcycle
    exact ih (h b hab) (Relation.TransGen.tail' hba hab)

/-- The successors of an element of a finite type have a common bound. -/
theorem exists_bounded [Finite α] (h : ∀ b, r a b → ∃ n, Bounded r n b) : ∃ n, Bounded r n a := by
  have hchoice (b : α) : ∃ n, r a b → Bounded r n b := by
    by_cases hb : r a b
    · obtain ⟨n, hn⟩ := h b hb
      exact ⟨n, fun _ => hn⟩
    · exact ⟨0, fun hb' => absurd hb' hb⟩
  choose f hf using hchoice
  obtain ⟨n, hn⟩ := (Set.finite_range f).bddAbove
  exact ⟨n + 1, fun b hb => (hf b hb).mono (hn (Set.mem_range_self b))⟩

/-- Over a finite type the chains from `a` are bounded exactly if there is no cycle behind `a`. -/
theorem exists_bounded_iff [Finite α] : (∃ n, Bounded r n a) ↔
    ∀ b, Relation.ReflTransGen r a b → ¬Relation.TransGen r b b := by
  constructor
  · rintro ⟨n, h⟩ b hab
    obtain ⟨m, hm⟩ := h.reach hab
    exact hm.not_cycle
  · intro hacyclic
    -- the elements behind `a`, ordered by what is behind them
    let behind (x y : { b // Relation.ReflTransGen r a b }) : Prop := Relation.TransGen r y.1 x.1
    have : IsTrans _ behind := ⟨fun _ _ _ hxy hyz => hyz.trans hxy⟩
    have : Std.Irrefl behind := ⟨fun x => hacyclic x.1 x.2⟩
    have hwf : WellFounded behind := Finite.wellFounded_of_trans_of_irrefl behind
    have hall (x : { b // Relation.ReflTransGen r a b }) : ∃ n, Bounded r n x.1 := by
      induction x using hwf.induction with
      | h x ih =>
        exact exists_bounded fun b hb => ih ⟨b, x.2.tail hb⟩ (Relation.TransGen.single hb)
    exact hall ⟨a, Relation.ReflTransGen.refl⟩

end Lethe.Descent
