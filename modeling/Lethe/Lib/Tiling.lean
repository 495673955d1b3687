import Mathlib.Algebra.Group.Nat.Defs
import Mathlib.Data.List.Basic
import Mathlib.Tactic.Common

/-!
# Tilings by ranges

A range is an interval of numbers. `Tiles rs P` says that the ranges `rs` are pairwise disjoint
and that together they are the numbers with `P`. A tiling does not depend on the order of its
ranges, one of them can be cut in two, and a range of new numbers can be added.
-/

namespace Lethe

/-- The numbers from `start` to `start + len`, excluded. -/
structure Range where
  start : Nat
  len : Nat

namespace Range

def Covers (r : Range) (p : Nat) : Prop := r.start ≤ p ∧ p < r.start + r.len

instance : Decidable (Covers r p) := inferInstanceAs (Decidable (_ ∧ _))

def Disjoint (r r' : Range) : Prop := ∀ p, r.Covers p → ¬ r'.Covers p

theorem Disjoint.symm (h : Disjoint r r') : Disjoint r' r := fun p hp' hp => h p hp hp'

end Range

/-- The ranges are pairwise disjoint, and their numbers are those with `P`. -/
structure Tiles (rs : List Range) (P : Nat → Prop) : Prop where
  disjoint : rs.Pairwise Range.Disjoint
  covers : ∀ p, P p ↔ ∃ r ∈ rs, r.Covers p

namespace Tiles

variable {rs rs' : List Range} {P : Nat → Prop}

theorem nil : Tiles [] fun _ => False := ⟨.nil, by simp⟩

theorem perm (h : Tiles rs P) (hp : rs.Perm rs') : Tiles rs' P :=
  ⟨(hp.pairwise_iff fun h => h.symm).mp h.disjoint, fun p => by
    rw [h.covers p]
    exact ⟨fun ⟨r, hr, hc⟩ => ⟨r, hp.mem_iff.mp hr, hc⟩, fun ⟨r, hr, hc⟩ => ⟨r, hp.mem_iff.mpr hr, hc⟩⟩⟩

theorem congr (h : Tiles rs P) (hP : ∀ p, P' p ↔ P p) : Tiles rs P' :=
  ⟨h.disjoint, fun p => (hP p).trans (h.covers p)⟩

/-- A range of new numbers is added. -/
theorem cons (h : Tiles rs P) (hnew : ∀ p, r.Covers p → ¬ P p) :
    Tiles (r :: rs) fun p => r.Covers p ∨ P p := by
  refine ⟨List.pairwise_cons.mpr ⟨fun r' hr' p hp hp' => hnew p hp ?_, h.disjoint⟩, fun p => ?_⟩
  · exact (h.covers p).mpr ⟨r', hr', hp'⟩
  · rw [h.covers p, List.exists_mem_cons_iff]

/-- A range is cut in two. -/
theorem split (h : Tiles (⟨s, a + b⟩ :: rs) P) : Tiles (⟨s, a⟩ :: ⟨s + a, b⟩ :: rs) P := by
  obtain ⟨hhead, htail⟩ := List.pairwise_cons.mp h.disjoint
  have hcut (p) : Range.Covers ⟨s, a + b⟩ p ↔ Range.Covers ⟨s, a⟩ p ∨ Range.Covers ⟨s + a, b⟩ p := by
    simp only [Range.Covers]
    omega
  refine ⟨?_, fun p => ?_⟩
  · refine List.pairwise_cons.mpr ⟨fun r hr p hp hr' => ?_, List.pairwise_cons.mpr
      ⟨fun r hr p hp => hhead r hr p ((hcut p).mpr (.inr hp)), htail⟩⟩
    rcases List.mem_cons.mp hr with rfl | hr
    · simp only [Range.Covers] at hp hr'
      omega
    · exact hhead r hr p ((hcut p).mpr (.inl hp)) hr'
  · rw [h.covers p, List.exists_mem_cons_iff, List.exists_mem_cons_iff, List.exists_mem_cons_iff,
      hcut, or_assoc]

end Tiles

end Lethe
