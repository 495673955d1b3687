import Mathlib.Data.List.Basic
import Mathlib.Data.List.Nodup
import Mathlib.Tactic.Common

/-!
# Lists that are linked both ways

`Linked next prev p l q` says that the nodes of `l` are linked by `next` and `prev`, with `p` in
front of the first and `q` behind the last. Where a node is put in or taken out, the links change at
its neighbours only (`Linked.insert`, `Linked.remove`); the neighbours are given by the list, with
`p` and `q` at its ends.
-/

namespace Lethe

variable {α : Type u} [DecidableEq α] {next next' prev prev' : α → α} {p p' q q' r r' a : α}
  {l u v : List α}

/-- The nodes of `l` between `p` and `q`. -/
def Linked (next prev : α → α) : α → List α → α → Prop
  | _, [], _ => True
  | p, a :: l, q => prev a = p ∧ next a = l.headD q ∧ Linked next prev a l q

namespace Linked

omit [DecidableEq α] in
theorem congr (h : Linked next prev p l q) (hnext : ∀ b ∈ l, next' b = next b)
    (hprev : ∀ b ∈ l, prev' b = prev b) : Linked next' prev' p l q := by
  induction l generalizing p with
  | nil => trivial
  | cons a l ih =>
    obtain ⟨hp, hn, hrest⟩ := h
    rw [List.forall_mem_cons] at hnext hprev
    exact ⟨hprev.1.trans hp, hnext.1.trans hn, ih hrest hnext.2 hprev.2⟩

omit [DecidableEq α] in
theorem append_iff : Linked next prev p (u ++ v) q ↔
    Linked next prev p u (v.headD q) ∧ Linked next prev (u.getLastD p) v q := by
  induction u generalizing p with
  | nil => simp [Linked]
  | cons a u ih =>
    have hhead : (u ++ v).headD q = u.headD (v.headD q) := by cases u <;> rfl
    rw [List.cons_append, Linked, Linked, ih, hhead, List.getLastD_cons, and_assoc, and_assoc]

omit [DecidableEq α] in
/-- The neighbours of a node. -/
theorem neighbours (h : Linked next prev p (u ++ a :: v) q) :
    prev a = u.getLastD p ∧ next a = v.headD q :=
  let ⟨hp, hn, _⟩ := (append_iff.mp h).2
  ⟨hp, hn⟩

omit [DecidableEq α] in
/-- The nodes on the one side of a seam are not the neighbours on the other. -/
theorem seam (hl : (u ++ v).Nodup) (hp : p ∉ v) (hq : q ∉ u) :
    (∀ b ∈ v, b ≠ u.getLastD p) ∧ ∀ b ∈ u, b ≠ v.headD q := by
  obtain ⟨-, -, hdis⟩ := List.nodup_append.mp hl
  constructor
  · rintro b hb rfl
    rcases List.mem_cons.mp (List.getLastD_mem_cons (l := u) (a := p)) with heq | hmem
    · exact hp (heq ▸ hb)
    · exact hdis _ hmem _ hb rfl
  · rintro b hb rfl
    cases v with
    | nil => exact hq hb
    | cons c v => exact hdis _ hb _ List.mem_cons_self rfl

/-- Another node behind the last one. -/
theorem relink_last (h : Linked next prev p l q) (hl : l.Nodup)
    (hnext : ∀ b ∈ l, next' b = if b = l.getLastD p then q' else next b)
    (hprev : ∀ b ∈ l, prev' b = prev b) : Linked next' prev' p l q' := by
  induction l generalizing p with
  | nil => trivial
  | cons a l ih =>
    obtain ⟨hp, hn, hrest⟩ := h
    obtain ⟨hal, hl⟩ := List.nodup_cons.mp hl
    rw [List.getLastD_cons, List.forall_mem_cons] at hnext
    rw [List.forall_mem_cons] at hprev
    refine ⟨hprev.1.trans hp, ?_, ih hrest hl hnext.2 hprev.2⟩
    cases l with
    | nil => exact hnext.1.trans (if_pos rfl)
    | cons b l =>
      have hne : a ≠ (b :: l).getLastD a := by
        rw [List.getLastD_cons]
        rintro heq
        exact hal (heq ▸ List.getLastD_mem_cons)
      exact (hnext.1.trans (if_neg hne)).trans hn

/-- Another node in front of the first one. -/
theorem relink_first (h : Linked next prev p l q) (hl : l.Nodup)
    (hnext : ∀ b ∈ l, next' b = next b)
    (hprev : ∀ b ∈ l, prev' b = if b = l.headD q then p' else prev b) :
    Linked next' prev' p' l q := by
  cases l with
  | nil => trivial
  | cons a l =>
    obtain ⟨-, hn, hrest⟩ := h
    obtain ⟨hal, -⟩ := List.nodup_cons.mp hl
    rw [List.headD_cons, List.forall_mem_cons] at hprev
    rw [List.forall_mem_cons] at hnext
    refine ⟨hprev.1.trans (if_pos rfl), hnext.1.trans hn, hrest.congr hnext.2 fun b hb => ?_⟩
    refine (hprev.2 b hb).trans (if_neg ?_)
    rintro rfl
    exact hal hb

/-- The two sides of a seam get new neighbours. -/
theorem relink (h : Linked next prev p u r) (h' : Linked next prev r' v q)
    (hl : (u ++ v).Nodup) (hp : p ∉ v) (hq : q ∉ u)
    (hnext : ∀ b ∈ u ++ v, next' b = if b = u.getLastD p then q' else next b)
    (hprev : ∀ b ∈ u ++ v, prev' b = if b = v.headD q then p' else prev b) :
    Linked next' prev' p u q' ∧ Linked next' prev' p' v q := by
  obtain ⟨hlast, hhead⟩ := seam hl hp hq
  obtain ⟨hnu, hnv, -⟩ := List.nodup_append.mp hl
  constructor
  · refine h.relink_last hnu (fun b hb => hnext b (List.mem_append_left _ hb)) fun b hb => ?_
    exact (hprev b (List.mem_append_left _ hb)).trans (if_neg (hhead b hb))
  · refine h'.relink_first hnv (fun b hb => ?_) fun b hb => hprev b (List.mem_append_right _ hb)
    exact (hnext b (List.mem_append_right _ hb)).trans (if_neg (hlast b hb))

/-- A node is put in. -/
theorem insert (h : Linked next prev p (u ++ v) q) (hl : (u ++ v).Nodup) (hp : p ∉ v) (hq : q ∉ u)
    (ha : prev' a = u.getLastD p ∧ next' a = v.headD q)
    (hnext : ∀ b ∈ u ++ v, next' b = if b = u.getLastD p then a else next b)
    (hprev : ∀ b ∈ u ++ v, prev' b = if b = v.headD q then a else prev b) :
    Linked next' prev' p (u ++ a :: v) q := by
  obtain ⟨hu, hv⟩ := append_iff.mp h
  obtain ⟨hu', hv'⟩ := hu.relink hv hl hp hq hnext hprev
  exact append_iff.mpr ⟨hu', ha.1, ha.2, hv'⟩

/-- A node is taken out. -/
theorem remove (h : Linked next prev p (u ++ a :: v) q) (hl : (u ++ v).Nodup) (hp : p ∉ v)
    (hq : q ∉ u) (hnext : ∀ b ∈ u ++ v, next' b = if b = prev a then next a else next b)
    (hprev : ∀ b ∈ u ++ v, prev' b = if b = next a then prev a else prev b) :
    Linked next' prev' p (u ++ v) q := by
  obtain ⟨hu, hpa, hna, hv⟩ := append_iff.mp h
  rw [hpa, hna] at hnext hprev
  exact append_iff.mpr (hu.relink hv hl hp hq hnext hprev)

end Linked

end Lethe
