import Lethe.Aml.Handlers

/-!
# The cursors that a term list moves

Every namespace has a cursor of its own, and a Scope or Device term may enter any of them again. A
handler moves the cursor of the namespace it is called with, and those of the namespaces it makes;
the nested term lists put the cursors they move back to where they were. So does `parse_termlist`
with the one it is called with, and of the namespaces that were there before none has moved.
-/

namespace Lethe

/-- No namespace has gone, and of those that were there only the cursor of `ns` has moved. -/
def OnlyMoved (ns : Nat) (s s' : AmlState) : Prop :=
  s.tree.next ≤ s'.tree.next ∧ ∀ n < s.tree.next, n ≠ ns → s'.code n = s.code n

/-- No namespace has gone, and of those that were there no cursor has moved. -/
def NoneMoved (s s' : AmlState) : Prop :=
  s.tree.next ≤ s'.tree.next ∧ ∀ n < s.tree.next, s'.code n = s.code n

instance : IsPreorder AmlState (OnlyMoved ns) where
  refl _ := ⟨Nat.le_refl _, fun _ _ _ => rfl⟩
  trans _ _ _ h h' :=
    ⟨Nat.le_trans h.1 h'.1, fun n hn hne =>
      (h'.2 n (Nat.lt_of_lt_of_le hn h.1) hne).trans (h.2 n hn hne)⟩

theorem NoneMoved.onlyMoved (h : NoneMoved s s') : OnlyMoved ns s s' :=
  ⟨h.1, fun n hn _ => h.2 n hn⟩

/-- A new namespace has a cursor of its own, and the one that the loop of a term list moves is put
back. -/
theorem onlyMoved_handlers : HandlerRelation OnlyMoved NoneMoved where
  advances := by
    rintro ns s _ ⟨p, clock, rfl⟩
    exact ⟨Nat.le_refl _, fun n _ hne => Function.update_of_ne hne p s.code⟩
  enter := ⟨Nat.le_refl _, fun _ _ _ => rfl⟩
  leave := ⟨Nat.le_refl _, fun _ _ _ => rfl⟩
  record := ⟨Nat.le_refl _, fun _ _ _ => rfl⟩
  setChild _ := ⟨Nat.le_refl _, fun _ _ _ => rfl⟩
  method := ⟨Nat.le_refl _, fun _ _ _ => rfl⟩
  create := by
    intro ns s parent name origin c
    refine ⟨?_, fun n hn _ => ?_⟩
    · change s.tree.next ≤ (s.tree.createNamespace parent name origin).next
      rw [Tree.createNamespace_next]
      exact Nat.le_succ _
    · change Function.update s.code s.tree.next c n = s.code n
      exact Function.update_of_ne (Nat.ne_of_lt hn) c s.code
  adopt := ⟨Nat.le_refl _, fun _ _ _ => rfl⟩
  nested := NoneMoved.onlyMoved
  termlist := by
    intro ns s s' start hmoved
    refine ⟨hmoved.1, fun n hn => ?_⟩
    by_cases hne : n = ns
    · rw [hne]
      exact Function.update_self ns (s.code ns) s'.code
    · have hloop : s'.code n = (s.setCode ns start).code n := hmoved.2 n hn hne
      calc (s'.setCode ns (s.code ns)).code n
        _ = s'.code n := Function.update_of_ne hne _ _
        _ = (s.setCode ns start).code n := hloop
        _ = s.code n := Function.update_of_ne hne _ _

namespace Aml

/-- Whenever `parse_termlist` returns, the cursor of every namespace that was there before is where
it was. -/
theorem parseTermlist_keeps_cursors (host : AmlHost) (fuel ns start end_ : Nat) (s : AmlState) :
    Wp (parseTermlist host fuel ns start end_)
      (fun _ s' => ∀ n < s.tree.next, s'.code n = s.code n) (fun _ _ => True) s :=
  (steps_parseTermlist onlyMoved_handlers ns start end_ s).mono (fun _ _ h => h.2) fun _ _ => id

end Aml

end Lethe
