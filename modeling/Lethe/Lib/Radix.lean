import Mathlib.Algebra.Group.Nat.Defs
import Mathlib.Data.List.Induction
import Mathlib.Tactic.Common

/-!
# Radix trees in a store

A store links a node `n` and a digit `i` to an optional child. `follow` walks a path of digits.
`Distinct link root d` says that the paths of at most `d` digits lead to different nodes, so that
they form a tree although all nodes live in one store. A write to one slot of such a tree then
changes exactly the paths through that slot: `follow_set` for a slot of the last level and
`follow_graft` for a slot that gets a fresh, empty node.

The slots may hold more than the child: `edgeAt` is what the last slot of a path holds, and
`edgeAt_set` and `edgeAt_graft` say that such a write changes it at one path only.
-/

namespace Lethe.Radix

variable {N I : Type} {link link' : N → I → Option N} {root n f : N} {p q : List I} {i : I} {d : Nat}

/-- The node at the end of a path. -/
def follow (link : N → I → Option N) : N → List I → Option N
  | n, [] => some n
  | n, i :: path => (link n i).bind fun child => follow link child path

theorem follow_append : follow link n (p ++ q) = (follow link n p).bind (follow link · q) := by
  induction p generalizing n with
  | nil => rfl
  | cons i p ih => simp [follow, Option.bind_assoc, ih]

theorem follow_concat : follow link n (p ++ [i]) = (follow link n p).bind (link · i) := by
  simp [follow_append, follow]

/-- Two stores that agree on the slots of a path have the same node at its end. -/
theorem follow_congr (h : ∀ p i n, p ++ [i] <+: q → follow link root p = some n →
    link' n i = link n i) : follow link' root q = follow link root q := by
  induction q using List.reverseRecOn with
  | nil => rfl
  | append_singleton q i ih =>
    have hq : follow link' root q = follow link root q := by
      refine ih fun p j n hp hn => h p j n (hp.trans (List.prefix_append _ _)) hn
    rw [follow_concat, follow_concat, hq]
    cases hn : follow link root q with
    | none => rfl
    | some n => exact h q i n (List.prefix_refl _) hn

/-- The paths of at most `d` digits from the root lead to different nodes. -/
def Distinct (link : N → I → Option N) (root : N) (d : Nat) : Prop :=
  ∀ {p q n}, p.length ≤ d → q.length ≤ d → follow link root p = some n →
    follow link root q = some n → p = q

/-- A path that continues behind an empty slot leads nowhere. -/
theorem follow_of_prefix_none (h : follow link root p = none) (hp : p <+: q) :
    follow link root q = none := by
  obtain ⟨r, rfl⟩ := hp
  rw [follow_append, h]
  rfl

/-- A write to a slot of the last level changes the path to that slot only. -/
theorem follow_set (hd : Distinct link root d) (hp : p.length = d)
    (hn : follow link root p = some n)
    (hrest : ∀ n' i', ¬ (n' = n ∧ i' = i) → link' n' i' = link n' i') (hq : q.length ≤ d + 1) :
    (q ≠ p ++ [i] → follow link' root q = follow link root q) ∧
      follow link' root (p ++ [i]) = link' n i := by
  have hother {q : List I} (hlen : q.length ≤ d + 1) (hq : q ≠ p ++ [i]) :
      follow link' root q = follow link root q := by
    refine follow_congr fun p' j n' hpre hn' => hrest n' j ?_
    rintro ⟨rfl, rfl⟩
    have hle := hpre.length_le
    rw [List.length_append, List.length_singleton] at hle
    obtain rfl := hd (by omega) (by omega) hn' hn
    exact hq (hpre.eq_of_length_le (by simp; omega)).symm
  refine ⟨hother hq, ?_⟩
  rw [follow_concat, hother (by omega), hn]
  · rfl
  · intro heq
    simpa using congrArg List.length heq

/-- Such a write keeps the nodes apart. -/
theorem Distinct.set (hd : Distinct link root d) (hp : p.length = d)
    (hn : follow link root p = some n)
    (hrest : ∀ n' i', ¬ (n' = n ∧ i' = i) → link' n' i' = link n' i') : Distinct link' root d := by
  have hsame {q : List I} (hlen : q.length ≤ d) : follow link' root q = follow link root q := by
    refine (follow_set hd hp hn hrest (by omega)).1 ?_
    rintro rfl
    rw [List.length_append, List.length_singleton] at hlen
    omega
  intro a b n' ha hb hna hnb
  rw [hsame ha] at hna
  rw [hsame hb] at hnb
  exact hd ha hb hna hnb

/-- An empty slot above the last level gets a fresh node without children: this adds one path. -/
theorem follow_graft (hd : Distinct link root d) (hp : p.length < d)
    (hn : follow link root p = some n) (hempty : link n i = none)
    (hfresh : ∀ q, q.length ≤ d → follow link root q ≠ some f)
    (hf : ∀ j, link' f j = none) (hnew : link' n i = some f)
    (hrest : ∀ n' i', n' ≠ f → ¬ (n' = n ∧ i' = i) → link' n' i' = link n' i')
    (hq : q.length ≤ d + 1) :
    (q ≠ p ++ [i] → follow link' root q = follow link root q) ∧
      follow link' root (p ++ [i]) = some f := by
  -- the paths that avoid the slot
  have hother {q : List I} (hlen : q.length ≤ d + 1) (hq : ¬ p ++ [i] <+: q) :
      follow link' root q = follow link root q := by
    refine follow_congr fun p' j n' hpre hn' => hrest n' j ?_ ?_
    all_goals
      have hle := hpre.length_le
      rw [List.length_append, List.length_singleton] at hle
    · rintro rfl
      exact hfresh p' (by omega) hn'
    · rintro ⟨rfl, rfl⟩
      obtain rfl := hd (by omega) (by omega) hn' hn
      exact hq hpre
  have hslot : follow link' root (p ++ [i]) = some f := by
    rw [follow_concat, hother (by omega) ?_, hn]
    · exact hnew
    · intro hpre
      have := hpre.length_le
      rw [List.length_append, List.length_singleton] at this
      omega
  refine ⟨fun hne => ?_, hslot⟩
  by_cases hpre : p ++ [i] <+: q
  · -- the path was cut off at the slot, and is now cut off behind it
    have hold : follow link root (p ++ [i]) = none := by
      rw [follow_concat, hn]
      exact hempty
    rw [follow_of_prefix_none hold hpre]
    obtain ⟨r, rfl⟩ := hpre
    cases r with
    | nil => exact absurd (List.append_nil _) hne
    | cons j r =>
      rw [follow_append, hslot]
      show (link' f j).bind _ = none
      rw [hf]
      rfl
  · exact hother hq hpre

/-- Such a write keeps the nodes apart. -/
theorem Distinct.graft (hd : Distinct link root d) (hp : p.length < d)
    (hn : follow link root p = some n) (hempty : link n i = none)
    (hfresh : ∀ q, q.length ≤ d → follow link root q ≠ some f)
    (hf : ∀ j, link' f j = none) (hnew : link' n i = some f)
    (hrest : ∀ n' i', n' ≠ f → ¬ (n' = n ∧ i' = i) → link' n' i' = link n' i') :
    Distinct link' root d := by
  have hstep {q : List I} (hlen : q.length ≤ d) :=
    follow_graft (q := q) hd hp hn hempty hfresh hf hnew hrest (by omega)
  -- the only path to the fresh node is the new one
  have hto {q : List I} (hlen : q.length ≤ d) (hq : follow link' root q = some f) : q = p ++ [i] := by
    by_contra hne
    rw [(hstep hlen).1 hne] at hq
    exact hfresh q hlen hq
  intro a b n' ha hb hna hnb
  by_cases hn' : n' = f
  · subst hn'
    rw [hto ha hna, hto hb hnb]
  · have hold {q : List I} (hlen : q.length ≤ d) (hq : follow link' root q = some n') :
        follow link root q = some n' := by
      rw [← (hstep hlen).1, hq]
      rintro rfl
      rw [(hstep hlen).2] at hq
      exact hn' (Option.some.inj hq).symm
    exact hd ha hb (hold ha hna) (hold hb hnb)

/-! ## The contents of slots -/

section Edges

variable {E : Type} {edge edge' : N → I → Option E} {node : E → N} {e : E}

/-- The links of a store whose slots hold more than a child. -/
def child (edge : N → I → Option E) (node : E → N) : N → I → Option N := fun n i => (edge n i).map node

/-- What the last slot of a path holds. -/
def edgeAt (edge : N → I → Option E) (node : E → N) (root : N) (p : List I) : Option E :=
  p.getLast?.bind fun i => (follow (child edge node) root p.dropLast).bind (edge · i)

theorem edgeAt_concat : edgeAt edge node root (p ++ [i]) =
    (follow (child edge node) root p).bind (edge · i) := by
  rw [edgeAt, List.getLast?_concat, List.dropLast_concat, Option.bind_some]

/-- A path leads to the node of its last slot. -/
theorem follow_eq_edgeAt : follow (child edge node) root (p ++ [i]) =
    (edgeAt edge node root (p ++ [i])).map node := by
  rw [follow_concat, edgeAt_concat, Option.map_bind]
  rfl

theorem child_congr (h : edge' n i = edge n i) : child edge' node n i = child edge node n i := by
  rw [child, h, child]

/-- A write to a slot of the last level changes the contents of that slot only. -/
theorem edgeAt_set (hd : Distinct (child edge node) root d) (hp : p.length = d)
    (hn : follow (child edge node) root p = some n)
    (hrest : ∀ n' i', ¬ (n' = n ∧ i' = i) → edge' n' i' = edge n' i') (hq : q.length ≤ d + 1) :
    (q ≠ p ++ [i] → edgeAt edge' node root q = edgeAt edge node root q) ∧
      edgeAt edge' node root (p ++ [i]) = edge' n i := by
  have hfollow {q : List I} (hlen : q.length ≤ d) :
      follow (child edge' node) root q = follow (child edge node) root q := by
    refine (follow_set hd hp hn (fun n' i' h => child_congr (hrest n' i' h)) (by omega)).1 ?_
    rintro rfl
    rw [List.length_append, List.length_singleton] at hlen
    omega
  refine ⟨fun hne => ?_, ?_⟩
  · induction q using List.reverseRecOn with
    | nil => rfl
    | append_singleton q j _ =>
      rw [List.length_append, List.length_singleton] at hq
      rw [edgeAt_concat, edgeAt_concat, hfollow (by omega)]
      cases hn' : follow (child edge node) root q with
      | none => rfl
      | some n' =>
        refine hrest n' j ?_
        rintro ⟨rfl, rfl⟩
        exact hne (by rw [hd (by omega) (by omega) hn' hn])
  · rw [edgeAt_concat, hfollow (by omega), hn]
    rfl

/-- An empty slot above the last level gets a fresh node without children: this changes the
contents of that slot only. -/
theorem edgeAt_graft (hd : Distinct (child edge node) root d) (hp : p.length < d)
    (hn : follow (child edge node) root p = some n) (hempty : edge n i = none)
    (hfresh : ∀ q, q.length ≤ d → follow (child edge node) root q ≠ some (node e))
    (hf : ∀ j, edge' (node e) j = none) (hnew : edge' n i = some e)
    (hrest : ∀ n' i', n' ≠ node e → ¬ (n' = n ∧ i' = i) → edge' n' i' = edge n' i')
    (hq : q.length ≤ d + 1) :
    (q ≠ p ++ [i] → edgeAt edge' node root q = edgeAt edge node root q) ∧
      edgeAt edge' node root (p ++ [i]) = some e := by
  have hchild : child edge node n i = none := by
    rw [child, hempty]
    rfl
  have hchildf (j : I) : child edge' node (node e) j = none := by
    rw [child, hf]
    rfl
  have hchildnew : child edge' node n i = some (node e) := by
    rw [child, hnew]
    rfl
  have hgraft {q : List I} (hlen : q.length ≤ d) :=
    follow_graft (q := q) hd hp hn hchild hfresh hchildf hchildnew
      (fun n' i' h h' => child_congr (hrest n' i' h h')) (by omega)
  refine ⟨fun hne => ?_, ?_⟩
  · induction q using List.reverseRecOn with
    | nil => rfl
    | append_singleton q j _ =>
      rw [List.length_append, List.length_singleton] at hq
      rw [edgeAt_concat, edgeAt_concat]
      by_cases hq' : q = p ++ [i]
      · -- the slots behind the new node are empty, and were not there before
        rw [hq', (hgraft (q := p ++ [i]) (by rw [← hq']; omega)).2, Option.bind_some, hf,
          follow_concat, hn, Option.bind_some, hchild]
        rfl
      · rw [(hgraft (by omega)).1 hq']
        cases hn' : follow (child edge node) root q with
        | none => rfl
        | some n' =>
          refine hrest n' j ?_ ?_
          · rintro rfl
            exact hfresh q (by omega) hn'
          · rintro ⟨rfl, rfl⟩
            exact hne (by rw [hd (by omega) (by omega) hn' hn])
  · rw [edgeAt_concat, (hgraft (by omega)).1 ?_, hn, Option.bind_some, hnew]
    intro heq
    simpa using congrArg List.length heq

end Edges

end Lethe.Radix
