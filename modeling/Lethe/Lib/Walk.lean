import Mathlib.Tactic.Common

/-!
# Walks that stop

A loop that goes from `a` to `next a` until it comes to an element with `stop`. `StopsAt` says where
it stops, `Passes` what it comes to. A walk that stays within a set without `stop` does not end, and
two walks that agree on what they come to stop at the same place.
-/

namespace Lethe.Walk

/-- The walk from `a` stops at `b`. -/
inductive StopsAt (next : α → α) (stop : α → Prop) : α → α → Prop
  | here : stop a → StopsAt next stop a a
  | next : ¬stop a → StopsAt next stop (next a) b → StopsAt next stop a b

/-- The walk from `a` comes to `c`. -/
inductive Passes (next : α → α) (stop : α → Prop) : α → α → Prop
  | here : Passes next stop a a
  | next : ¬stop a → Passes next stop (next a) c → Passes next stop a c

variable {α : Type u} {β : Type v} {ε : Type w} {next next' : α → α} {stop stop' : α → Prop}
  {a b c : α}

theorem stopsAt_of_stop (h : stop a) : StopsAt next stop a b ↔ b = a := by
  constructor
  · intro hab
    cases hab with
    | here => rfl
    | next hna => exact absurd h hna
  · rintro rfl
    exact .here h

theorem stopsAt_of_not_stop (h : ¬stop a) :
    StopsAt next stop a b ↔ StopsAt next stop (next a) b := by
  constructor
  · intro hab
    cases hab with
    | here ha => exact absurd ha h
    | next _ hrest => exact hrest
  · exact .next h

theorem StopsAt.unique (h : StopsAt next stop a b) (h' : StopsAt next stop a c) : b = c := by
  induction h with
  | here ha => exact ((stopsAt_of_stop ha).mp h').symm
  | next hna _ ih => exact ih ((stopsAt_of_not_stop hna).mp h')

/-- A walk within a set without `stop` does not end. -/
theorem not_stopsAt (P : α → Prop) (hstep : ∀ c, P c → ¬stop c ∧ P (next c)) (ha : P a) :
    ¬StopsAt next stop a b := by
  intro h
  induction h with
  | here hstop => exact (hstep _ ha).1 hstop
  | next _ _ ih => exact ih (hstep _ ha).2

/-- Walks that agree on what the one comes to. -/
theorem StopsAt.congr (hstop : ∀ c, Passes next stop a c → (stop c ↔ stop' c))
    (hnext : ∀ c, Passes next stop a c → ¬stop c → next c = next' c)
    (h : StopsAt next stop a b) : StopsAt next' stop' a b := by
  induction h with
  | here ha => exact .here ((hstop _ .here).mp ha)
  | next hna _ ih =>
    refine .next (mt (hstop _ .here).mpr hna) ?_
    rw [← hnext _ .here hna]
    exact ih (fun c hc => hstop c (.next hna hc)) fun c hc => hnext c (.next hna hc)

/-- A loop with a bound on its rounds, and its result where it stops. -/
theorem exists_ok_iff [DecidablePred stop] {f : Nat → α → Except ε β} {out : α → β} {e : ε}
    (hzero : ∀ a, f 0 a = .error e)
    (hsucc : ∀ fuel a, f (fuel + 1) a = if stop a then .ok (out a) else f fuel (next a)) {r : β} :
    (∃ fuel, f fuel a = .ok r) ↔ ∃ b, StopsAt next stop a b ∧ r = out b := by
  constructor
  · rintro ⟨fuel, h⟩
    induction fuel generalizing a with
    | zero => cases (hzero a).symm.trans h
    | succ fuel ih =>
      rw [hsucc] at h
      split at h
      · next ha => exact ⟨a, .here ha, (Except.ok.inj h).symm⟩
      · next hna =>
        obtain ⟨b, hb, hr⟩ := ih h
        exact ⟨b, .next hna hb, hr⟩
  · rintro ⟨b, hb, rfl⟩
    induction hb with
    | here ha => exact ⟨1, by rw [hsucc, if_pos ha]⟩
    | next hna _ ih =>
      obtain ⟨fuel, h⟩ := ih
      exact ⟨fuel + 1, by rw [hsucc, if_neg hna, h]⟩

end Lethe.Walk
