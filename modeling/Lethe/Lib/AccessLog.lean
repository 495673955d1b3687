import Lethe.Lib.Wp

/-!
# Accesses to a buffer

A program that logs its accesses to a buffer has them as its state, the last one first. It can be
compared with a program that checks each access and stops at a bad one: it `Follows` that program if
it returns what that one returns, and a log with a given property.
-/

namespace Lethe

inductive Access
  | write (i : Nat)
  | read (i : Nat)
  deriving DecidableEq, Repr

/-- The programs that log their accesses. -/
abbrev Logs (ε : Type) := EStateM ε (List Access)

namespace Access

variable {ε ε' α β : Type} {log before after : List Access} {n i : Nat}

/-- The writes are to a buffer of `n` elements, and each element that is read has been written. -/
def Safe (n : Nat) : List Access → Prop
  | [] => True
  | .write i :: log => i < n ∧ Safe n log
  | .read i :: log => .write i ∈ log ∧ Safe n log

theorem Safe.of_append (h : Safe n (after ++ before)) : Safe n before := by
  induction after with
  | nil => exact h
  | cons a after ih =>
    apply ih
    cases a with
    | write i => exact h.2
    | read i => exact h.2

theorem Safe.write_lt (h : Safe n log) (hi : .write i ∈ log) : i < n := by
  obtain ⟨after, before, rfl⟩ := List.append_of_mem hi
  exact h.of_append.1

theorem Safe.written (h : Safe n (after ++ .read i :: before)) : .write i ∈ before := h.of_append.1

/-- The next access. -/
def note (a : Access) : Logs ε Unit := modify (a :: ·)

@[simp] theorem wp_note {Q : Unit → List Access → Prop} {E : ε → List Access → Prop} {a : Access} :
    Wp a.note Q E log ↔ Q () (a :: log) := Iff.rfl

/-- From `log`, `y` returns what `x` does, with a log as `R` says. -/
def Follows (R : α → List Access → Prop) (x : Except ε α) (y : Logs ε' α) (log : List Access) :
    Prop :=
  ∀ a, x = .ok a → Wp y (fun b log' => b = a ∧ R b log') (fun _ _ => False) log

namespace Follows
variable {R : α → List Access → Prop} {S : β → List Access → Prop} {x : Except ε α} {y : Logs ε' α}

theorem ok (h : R a log) : Follows R (.ok a : Except ε α) (pure a : Logs ε' α) log := by
  intro b hb
  obtain rfl := Except.ok.inj hb
  exact ⟨rfl, h⟩

theorem bind {f : α → Except ε β} {g : α → Logs ε' β} (h : Follows R x y log)
    (hf : ∀ a log', R a log' → Follows S (f a) (g a) log') : Follows S (x >>= f) (y >>= g) log := by
  intro b hb
  obtain ⟨a, ha, hfa⟩ := bind_eq_ok.mp hb
  apply (h a ha).bind
  rintro a' log' ⟨rfl, hR⟩
  exact hf a' log' hR b hfa

theorem ite {c : Prop} [Decidable c] {x' : Except ε α} {y' : Logs ε' α}
    (h : c → Follows R x y log) (h' : ¬c → Follows R x' y' log) :
    Follows R (if c then x else x') (if c then y else y') log := by
  by_cases hc : c
  · rw [if_pos hc, if_pos hc]
    exact h hc
  · rw [if_neg hc, if_neg hc]
    exact h' hc

end Follows

end Access

end Lethe
