import Mathlib.Algebra.Group.Nat.Defs
import Mathlib.Order.Defs.Unbundled
import Mathlib.Tactic.Common

/-!
# Weakest preconditions for programs with a state and errors

`Wp x Q E s` says how the program `x` of `EStateM ε σ` ends from the state `s`: it returns a value
and a state that satisfy `Q`, or it stops with an error and a state that satisfy `E`. The rules for
the constructs of the monad are equivalences, so that a program is taken apart by rewriting, and a
called function is replaced by its specification with `Wp.mono`. `Keeps I E x` is the triple whose
pre- and postcondition are the same predicate, and `Respects R x` is partial correctness for a
relation between the states before and after `x`.

`Yields P x` is total correctness for the programs of `Except ε`, which have no state. Where such a
program returns exactly under a condition, `bind_eq_ok` and `foldlM_eq_ok` take it apart.
-/

namespace Lethe

variable {ε σ α β : Type}

/-- From `s`, `x` returns with `Q` or stops with `E`. -/
def Wp (x : EStateM ε σ α) (Q : α → σ → Prop) (E : ε → σ → Prop) (s : σ) : Prop :=
  match x s with
  | .ok a s' => Q a s'
  | .error e s' => E e s'

variable {x : EStateM ε σ α} {f : α → EStateM ε σ β} {Q Q' : α → σ → Prop} {E E' : ε → σ → Prop}
  {s s' : σ}

theorem wp_of_ok (h : x s = .ok a s') : Wp x Q E s ↔ Q a s' := by
  simp only [Wp, h]

@[simp] theorem wp_pure : Wp (pure a) Q E s ↔ Q a s := Iff.rfl

@[simp] theorem wp_throw : Wp (throw e : EStateM ε σ α) Q E s ↔ E e s := Iff.rfl

@[simp] theorem wp_bind {Q : β → σ → Prop} :
    Wp (x >>= f) Q E s ↔ Wp x (fun a => Wp (f a) Q E) E s := by
  simp only [Wp, bind, EStateM.bind]
  cases x s <;> rfl

@[simp] theorem wp_map {g : α → β} {Q : β → σ → Prop} :
    Wp (g <$> x) Q E s ↔ Wp x (fun a => Q (g a)) E s := by
  simp only [Wp, Functor.map, EStateM.map]
  cases x s <;> rfl

/-- The rule of consequence. -/
theorem Wp.mono (h : Wp x Q E s) (hQ : ∀ a s', Q a s' → Q' a s') (hE : ∀ e s', E e s' → E' e s') :
    Wp x Q' E' s := by
  simp only [Wp] at *
  cases hx : x s with
  | ok a s' => rw [hx] at h; exact hQ _ _ h
  | error e s' => rw [hx] at h; exact hE _ _ h

/-- A called program is replaced by its specification. -/
theorem Wp.bind {Q : α → σ → Prop} {Q' : β → σ → Prop} (h : Wp x Q E s)
    (hf : ∀ a s', Q a s' → Wp (f a) Q' E s') : Wp (x >>= f) Q' E s :=
  wp_bind.mpr (h.mono hf fun _ _ => id)

theorem Wp.and (h : Wp x Q E s) (h' : Wp x Q' E' s) :
    Wp x (fun a s => Q a s ∧ Q' a s) (fun e s => E e s ∧ E' e s) s := by
  simp only [Wp] at *
  cases hx : x s with
  | ok a s' => rw [hx] at h h'; exact ⟨h, h'⟩
  | error e s' => rw [hx] at h h'; exact ⟨h, h'⟩

/-- Without a stop that is allowed, `x` returns. -/
theorem wp_returns : Wp x Q (fun _ _ => False) s ↔ ∃ a s', x s = .ok a s' ∧ Q a s' := by
  simp only [Wp]
  cases hx : x s with
  | ok a s' =>
    refine ⟨fun h => ⟨a, s', rfl, h⟩, ?_⟩
    rintro ⟨_, _, h, hq⟩
    cases h
    exact hq
  | error e s' =>
    refine ⟨False.elim, ?_⟩
    rintro ⟨_, _, h, -⟩
    cases h

/-- A program that always stops does not return. -/
theorem Wp.not_returns (h : Wp x (fun _ _ => False) E s) :
    ¬Wp x Q (fun _ _ => False) s := by
  intro h'
  obtain ⟨a, s', -, hfalse, -⟩ :=
    wp_returns.mp ((h.and h').mono (fun _ _ => id) fun _ _ => And.right)
  exact hfalse

/-- `x` started in a state with `I` returns in one, or stops with `E`. -/
def Keeps (I : σ → Prop) (E : ε → σ → Prop) (x : EStateM ε σ α) : Prop :=
  ∀ ⦃s⦄, I s → Wp x (fun _ => I) E s

variable {I : σ → Prop}

theorem Keeps.pure : Keeps I E (pure a : EStateM ε σ α) := fun _ h => h

theorem Keeps.bind (h : Keeps I E x) (hf : ∀ a, Keeps I E (f a)) : Keeps I E (x >>= f) :=
  fun _ hs => (h hs).bind fun a _ hs' => hf a hs'

theorem Keeps.ite {c : Prop} [Decidable c] {y : EStateM ε σ α} (hx : c → Keeps I E x)
    (hy : ¬c → Keeps I E y) : Keeps I E (if c then x else y) := by
  split
  · exact hx ‹_›
  · exact hy ‹_›

/-- If `x` returns, the states before and after it are related. -/
def Respects (R : σ → σ → Prop) (x : EStateM ε σ α) : Prop :=
  ∀ s, Wp x (fun _ => R s) (fun _ _ => True) s

namespace Respects

variable {R : σ → σ → Prop}

theorem throw : Respects R (throw e : EStateM ε σ α) := fun _ => trivial

theorem mono (h : Respects R x) (hR : ∀ s s', R s s' → R' s s') : Respects R' x :=
  fun s => (h s).mono (fun _ s' => hR s s') fun _ _ => id

theorem of_ok (h : Respects R x) (hok : x s = .ok a s') : R s s' := (wp_of_ok hok).mp (h s)

theorem map {g : α → β} (h : Respects R x) : Respects R (g <$> x) := fun s => wp_map.mpr (h s)

variable [IsPreorder σ R]

theorem pure : Respects R (pure a : EStateM ε σ α) := refl_of R

theorem bind (h : Respects R x) (hf : ∀ a, Respects R (f a)) : Respects R (x >>= f) :=
  fun s => (h s).bind fun a s' hs => (hf a s').mono (fun _ _ hs' => trans_of R hs hs') fun _ _ => id

end Respects

/-- `x` returns a value with `P`. -/
def Yields (P : α → Prop) (x : Except ε α) : Prop := ∃ a, x = .ok a ∧ P a

namespace Yields

variable {P P' : α → Prop} {x : Except ε α} {f : α → Except ε β} {a : α}

theorem ok (h : P a) : Yields P (.ok a : Except ε α) := ⟨a, rfl, h⟩

theorem mono (h : Yields P x) (hP : ∀ a, P a → P' a) : Yields P' x := by
  obtain ⟨a, ha, hp⟩ := h
  exact ⟨a, ha, hP a hp⟩

theorem bind {P' : β → Prop} (h : Yields P x) (hf : ∀ a, P a → Yields P' (f a)) :
    Yields P' (x >>= f) := by
  obtain ⟨a, rfl, hp⟩ := h
  exact hf a hp

theorem ite {c : Prop} [Decidable c] {y : Except ε α} (hx : c → Yields P x) (hy : ¬c → Yields P y) :
    Yields P (if c then x else y) := by
  split
  · exact hx ‹_›
  · exact hy ‹_›

end Yields

/-- `x` returns a value with `P` or fails with an error in `E`. -/
inductive Ends (E : ε → Prop) (P : α → Prop) : Except ε α → Prop
  | ok {a} (h : P a) : Ends E P (.ok a)
  | error {e} (h : E e) : Ends E P (.error e)

namespace Ends

variable {E E' : ε → Prop} {P P' : α → Prop} {x : Except ε α} {f : α → Except ε β}

theorem mono (h : Ends E P x) (hE : ∀ e, E e → E' e) (hP : ∀ a, P a → P' a) : Ends E' P' x := by
  cases h with
  | ok h => exact .ok (hP _ h)
  | error h => exact .error (hE _ h)

theorem bind {P' : β → Prop} (h : Ends E P x) (hf : ∀ a, P a → Ends E P' (f a)) :
    Ends E P' (x >>= f) := by
  cases h with
  | ok h => exact hf _ h
  | error h => exact .error h

end Ends

section

variable {x : Except ε α} {f : α → Except ε β}

theorem yields_ok {P : α → Prop} {a : α} : Yields P (.ok a : Except ε α) ↔ P a := by
  constructor
  · rintro ⟨_, h, hp⟩
    cases h
    exact hp
  · exact .ok

/-- The program returns. -/
def Returns (x : Except ε α) : Prop := ∃ a, x = .ok a

theorem ok_bind : Except.ok a >>= f = f a := rfl

theorem error_bind : Except.error e >>= f = .error e := rfl

theorem bind_eq_ok {b : β} : x >>= f = .ok b ↔ ∃ a, x = .ok a ∧ f a = .ok b := by
  constructor
  · intro h
    cases x with
    | error e => cases h
    | ok a => exact ⟨a, rfl, h⟩
  · rintro ⟨a, rfl, h⟩
    exact h

theorem map_eq_ok {g : α → β} {b : β} : x.map g = .ok b ↔ ∃ a, x = .ok a ∧ g a = b := by
  cases x with
  | error e => simp [Except.map]
  | ok a => simp [Except.map]

theorem map_eq_error {g : α → β} {e : ε} : x.map g = .error e ↔ x = .error e := by
  cases x with
  | error e => simp [Except.map]
  | ok a => simp [Except.map]

/-- A loop each of whose rounds does `g` under a condition that the rounds do not change. -/
theorem foldlM_eq_ok {f : β → α → Except ε β} {g : β → α → β} {I : β → Prop} {P : α → Prop}
    {l : List α} (hf : ∀ b a b', I b → (f b a = .ok b' ↔ P a ∧ b' = g b a))
    (hI : ∀ b a, I b → I (g b a)) {b b' : β} (hb : I b) :
    l.foldlM f b = .ok b' ↔ (∀ a ∈ l, P a) ∧ b' = l.foldl g b := by
  induction l generalizing b with
  | nil =>
    simp only [List.foldlM_nil, List.foldl_nil]
    constructor
    · intro h
      exact ⟨by simp, (Except.ok.inj h).symm⟩
    · rintro ⟨-, rfl⟩
      rfl
  | cons a l ih =>
    rw [List.foldlM_cons, bind_eq_ok, List.forall_mem_cons, List.foldl_cons]
    constructor
    · rintro ⟨b₁, h₁, hrest⟩
      obtain ⟨hP, rfl⟩ := (hf b a b₁ hb).mp h₁
      obtain ⟨hall, rfl⟩ := (ih (hI b a hb)).mp hrest
      exact ⟨⟨hP, hall⟩, rfl⟩
    · rintro ⟨⟨hP, hall⟩, rfl⟩
      exact ⟨g b a, (hf b a _ hb).mpr ⟨hP, rfl⟩, (ih (hI b a hb)).mpr ⟨hall, rfl⟩⟩

end

end Lethe
