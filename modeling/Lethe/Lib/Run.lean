import Mathlib.Algebra.Group.Nat.Defs
import Mathlib.Tactic.Common

/-!
# Runs of a machine that may stop

A machine is a step function `step : σ → ι → Except ε (ο × σ)`: an operation answers with an
output and a new state, or stops the machine. `Along` says that every operation of a run is
executed in a state that meets a condition, `Throughout` says that a predicate holds in all states
of a run, which may stop, `Safe` says that moreover it stops only with certain errors, `Always`
says that the run keeps going, and `Refines` compares a run with that of a total specification
through an abstraction relation.
-/

namespace Lethe.Run

variable {σ τ ι ο ε : Type u} (step : σ → ι → Except ε (ο × σ))

/-- Every operation of the run of `ops` from `s` is executed in a state that meets `C`. -/
def Along (C : σ → ι → Prop) : σ → List ι → Prop
  | _, [] => True
  | s, op :: ops => C s op ∧ ∀ r s', step s op = .ok (r, s') → Along C s' ops

/-- `P` holds in every state that the run of `ops` from `s` reaches. -/
def Throughout (P : σ → Prop) : σ → List ι → Prop
  | s, [] => P s
  | s, op :: ops => P s ∧ ∀ r s', step s op = .ok (r, s') → Throughout P s' ops

/-- `P` holds in every state that the run of `ops` from `s` reaches, and it stops only with an
error in `E`. -/
def Safe (E : ε → Prop) (P : σ → Prop) : σ → List ι → Prop
  | s, [] => P s
  | s, op :: ops => P s ∧ (∀ e, step s op = .error e → E e) ∧
      ∀ r s', step s op = .ok (r, s') → Safe E P s' ops

/-- The run of `ops` from `s` does not stop, every answer is the one `spec` gives from `t`, and
all states on the way are related to those of the specification. -/
def Refines (spec : τ → ι → ο × τ) (R : σ → τ → Prop) : σ → τ → List ι → Prop
  | s, t, [] => R s t
  | s, t, op :: ops => R s t ∧ ∃ s', step s op = .ok ((spec t op).1, s') ∧
      Refines spec R s' (spec t op).2 ops

/-- The run of `ops` from `s` does not stop, and `P` holds in every state on the way. -/
def Always (P : σ → Prop) : σ → List ι → Prop
  | s, [] => P s
  | s, op :: ops => P s ∧ ∃ r s', step s op = .ok (r, s') ∧ Always P s' ops

/-- The answers of the run of `ops` from `s`. -/
def outputs : σ → List ι → Except ε (List ο)
  | _, [] => .ok []
  | s, op :: ops => do
    let (r, s) ← step s op
    let rs ← outputs s ops
    pure (r :: rs)

/-- The answers that a specification gives to `ops` from `t`. -/
def answers (spec : τ → ι → ο × τ) : τ → List ι → List ο
  | _, [] => []
  | t, op :: ops => (spec t op).1 :: answers spec (spec t op).2 ops

variable {step}

section
variable {C : σ → ι → Prop} {I P : σ → Prop}

/-- An invariant that implies `P` and that every step keeps under the condition, if it does not
stop the run, gives `P` in every state of a run that meets the condition. -/
theorem throughout_of_along (hP : ∀ {s}, I s → P s)
    (hstep : ∀ {s op r s'}, I s → C s op → step s op = .ok (r, s') → I s') :
    ∀ {ops s}, I s → Along step C s ops → Throughout step P s ops
  | [], _, hs, _ => hP hs
  | _ :: _, _, hs, hC =>
    ⟨hP hs, fun r s' h => throughout_of_along hP hstep (hstep hs hC.1 h) (hC.2 r s' h)⟩

/-- The same for a run that may stop with an error in `E`. -/
theorem safe_of_along {E : ε → Prop} (hP : ∀ {s}, I s → P s)
    (hstep : ∀ {s op}, I s → C s op →
      (∃ e, step s op = .error e ∧ E e) ∨ ∃ r s', step s op = .ok (r, s') ∧ I s') :
    ∀ {ops s}, I s → Along step C s ops → Safe step E P s ops
  | [], _, hs, _ => hP hs
  | _ :: _, _, hs, hC => by
    refine ⟨hP hs, fun e he => ?_, fun r s' h => ?_⟩
    · rcases hstep hs hC.1 with ⟨e', he', hE⟩ | ⟨r, s', h, -⟩
      · cases he'.symm.trans he
        exact hE
      · cases h.symm.trans he
    · rcases hstep hs hC.1 with ⟨e', he', -⟩ | ⟨r', s₁, h₁, hs₁⟩
      · cases he'.symm.trans h
      · cases h₁.symm.trans h
        exact safe_of_along hP hstep hs₁ (hC.2 r s' h)

theorem along_cons_ok (h : step s op = .ok (r, s')) :
    Along step C s (op :: ops) ↔ C s op ∧ Along step C s' ops := by
  refine and_congr_right fun _ => ⟨fun hrest => hrest r s' h, fun hrest r₁ s₁ h₁ => ?_⟩
  cases h.symm.trans h₁
  exact hrest

theorem along_cons_error (h : step s op = .error e) : Along step C s (op :: ops) ↔ C s op :=
  and_iff_left fun _ _ h' => nomatch h.symm.trans h'

/-- The condition can be checked by executing the run. -/
instance decidableAlong [∀ s op, Decidable (C s op)] : ∀ ops s, Decidable (Along step C s ops)
  | [], _ => .isTrue trivial
  | op :: ops, s =>
    match h : step s op with
    | .error _ => decidable_of_iff _ (along_cons_error h).symm
    | .ok (_, s') =>
      have := decidableAlong ops s'
      decidable_of_iff _ (along_cons_ok h).symm

/-- A condition on the operations alone, under which no step stops the run. -/
theorem along_iff_forall {D : ι → Prop}
    (hstep : ∀ {s op}, I s → D op → ∃ r s', step s op = .ok (r, s') ∧ I s') {ops s} (hs : I s) :
    Along step (fun _ op => D op) s ops ↔ ∀ op ∈ ops, D op := by
  induction ops generalizing s with
  | nil => exact iff_of_true trivial fun op h => nomatch h
  | cons op ops ih =>
    rw [List.forall_mem_cons]
    refine and_congr_right fun hop => ?_
    obtain ⟨r, s', h, hs'⟩ := hstep hs hop
    constructor
    · intro hrest
      exact (ih hs').mp (hrest r s' h)
    · intro hall r' s'' h'
      cases h.symm.trans h'
      exact (ih hs').mpr hall

theorem Always.now : ∀ {ops}, Always step P s ops → P s
  | [], h => h
  | _ :: _, h => h.1

/-- An invariant that implies `P` and that every step keeps under the condition gives `P` in every
state of a run that meets the condition. -/
theorem always_of_along (hP : ∀ {s}, I s → P s)
    (hstep : ∀ {s op}, I s → C s op → ∃ r s', step s op = .ok (r, s') ∧ I s') :
    ∀ {ops s}, I s → Along step C s ops → Always step P s ops
  | [], _, hs, _ => hP hs
  | _ :: _, _, hs, hC =>
    let ⟨r, s', h, hs'⟩ := hstep hs hC.1
    ⟨hP hs, r, s', h, always_of_along hP hstep hs' (hC.2 _ _ h)⟩

variable (step) in
/-- If moreover a step outside the condition stops the run or leaves a state without `P`, the
condition is exact. -/
theorem always_iff_along (hP : ∀ {s}, I s → P s)
    (hstep : ∀ {s op}, I s → C s op → ∃ r s', step s op = .ok (r, s') ∧ I s')
    (hbreak : ∀ {s op r s'}, I s → step s op = .ok (r, s') → P s' → C s op) {ops s} (hs : I s) :
    Always step P s ops ↔ Along step C s ops := by
  refine ⟨fun h => ?_, always_of_along hP hstep hs⟩
  induction ops generalizing s with
  | nil => trivial
  | cons op ops ih =>
    obtain ⟨_, r, s', hs', hrest⟩ := h
    have hC := hbreak hs hs' hrest.now
    refine ⟨hC, fun r' s'' h'' => ?_⟩
    obtain ⟨r₁, s₁, h₁, hI₁⟩ := hstep hs hC
    cases h₁.symm.trans hs'
    cases h₁.symm.trans h''
    exact ih hI₁ hrest

/-- If the invariant does not depend on the condition and `P` holds behind a step exactly under
the condition, then the condition is exact in every run that keeps going. -/
theorem always_iff_along_of_step
    (hstep : ∀ {s op r s'}, I s → step s op = .ok (r, s') → I s' ∧ (P s' ↔ C s op)) {ops s}
    (hs : I s) (hP : P s) (hrun : Always step (fun _ => True) s ops) :
    Always step P s ops ↔ Along step C s ops := by
  induction ops generalizing s with
  | nil => exact iff_of_true hP trivial
  | cons op ops ih =>
    obtain ⟨-, r, s₁, h₁, hrun⟩ := hrun
    obtain ⟨hs₁, hC⟩ := hstep hs h₁
    constructor
    · rintro ⟨-, r', s₂, h₂, hrest⟩
      cases h₁.symm.trans h₂
      refine ⟨hC.mp hrest.now, fun r' s₂ h₂ => ?_⟩
      cases h₁.symm.trans h₂
      exact (ih hs₁ hrest.now hrun).mp hrest
    · rintro ⟨hnow, hrest⟩
      exact ⟨hP, r, s₁, h₁, (ih hs₁ (hC.mpr hnow) hrun).mpr (hrest r s₁ h₁)⟩

end

section
variable {spec : τ → ι → ο × τ} {R I : σ → τ → Prop} {C : σ → ι → Prop}

theorem Refines.related : ∀ {ops}, Refines step spec R s t ops → R s t
  | [], h => h
  | _ :: _, h => h.1

theorem Refines.outputs_eq :
    ∀ {ops s t}, Refines step spec R s t ops → outputs step s ops = .ok (answers spec t ops)
  | [], _, _, _ => rfl
  | _ :: _, _, _, ⟨_, _, h, hrest⟩ => by
    simp only [outputs, h, bind, Except.bind, hrest.outputs_eq]
    rfl

/-- Forward simulation: a relation that every step keeps under the condition carries the run. -/
theorem refines_of_along (hR : ∀ {s t}, I s t → R s t)
    (hstep : ∀ {s t op}, I s t → C s op →
      ∃ s', step s op = .ok ((spec t op).1, s') ∧ I s' (spec t op).2) :
    ∀ {ops s t}, I s t → Along step C s ops → Refines step spec R s t ops
  | [], _, _, hI, _ => hR hI
  | _ :: _, _, _, hI, hC =>
    let ⟨s', h, hI'⟩ := hstep hI hC.1
    ⟨hR hI, s', h, refines_of_along hR hstep hI' (hC.2 _ _ h)⟩

variable (step) in
/-- If moreover a step outside the condition always breaks the refinement, the condition is
exact: the run refines its specification if and only if every step meets the condition. -/
theorem refines_iff_along (hR : ∀ {s t}, I s t → R s t)
    (hstep : ∀ {s t op}, I s t → C s op →
      ∃ s', step s op = .ok ((spec t op).1, s') ∧ I s' (spec t op).2)
    (hbreak : ∀ {s t op s'}, I s t → step s op = .ok ((spec t op).1, s') →
      R s' (spec t op).2 → C s op) {ops s t} (hI : I s t) :
    Refines step spec R s t ops ↔ Along step C s ops := by
  refine ⟨fun h => ?_, refines_of_along hR hstep hI⟩
  induction ops generalizing s t with
  | nil => trivial
  | cons op ops ih =>
    obtain ⟨_, s', hs', hrest⟩ := h
    have hC := hbreak hI hs' hrest.related
    refine ⟨hC, fun r s'' h'' => ?_⟩
    obtain ⟨s₁, h₁, hI₁⟩ := hstep hI hC
    cases h₁.symm.trans hs'
    cases h₁.symm.trans h''
    exact ih hI₁ hrest

end

end Lethe.Run
