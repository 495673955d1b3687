import Lethe.Aml.Progress

/-!
# Termination of the AML parser

Whatever the bytes of the tables are, the parser returns or stops: with an exit, a failed assertion
or a fault. `Progress` gives that a fuel of two more than the length of the table is enough, for
any invariant of the tree, and the well-formed trees are one: they are what makes the loops along
`parent` end, and no table can break them.
-/

namespace Lethe

/-- `AML_EXIT`, an assertion or a fault has ended the run. -/
def AmlStop.Final : AmlStop → Prop
  | .exit | .assertFailed _ | .fault => True
  | .doesNotReturn | .outOfFuel => False

theorem wf_invariant : StateInvariant (fun s => s.tree.WF) (fun e _ => e.Final) where
  wf h := h
  frame h ht _ _ := ht ▸ h
  setChild h := h.setChild
  record h := h
  device h _ _ hns _ hp :=
    h.createNamespace (fun p e => Aml.deviceParent_has h hns (e ▸ hp)) fun _ => by simp
  pending {s _} h := by
    have hp : ∀ p, (none : Option Nat) = some p → s.tree.Has p := by simp
    exact h.createNamespace hp (by simp)
  adopt h _ hs hlt := h.adopt hs hlt
  exit _ := trivial
  fault _ := trivial
  assertFailed _ _ := trivial
  currentIsRoot _ _ _ _ := trivial

namespace Aml

/-- `parse_table` on one table after the other. -/
def parseTables (fuel : Nat) : List AmlHost → Aml Unit
  | [] => pure ()
  | host :: hosts => do
    parseTable host fuel
    parseTables fuel hosts

theorem enough_of_length_lt (h : host.table.length + 2 ≤ fuel) : Enough host c (fuel - 1) :=
  ⟨by omega, by omega⟩

theorem parseTables_spec {I : AmlState → Prop} {E : AmlStop → AmlState → Prop}
    (hI : StateInvariant I E) (hf : ∀ host ∈ hosts, host.table.length + 2 ≤ fuel) :
    Keeps I E (parseTables fuel hosts) := by
  induction hosts with
  | nil => exact .pure
  | cons host hosts ih =>
    refine Keeps.bind (fun s h => ?_) fun _ => ih fun host' h => hf host' (.tail _ h)
    exact parseTable_spec hI (enough_of_length_lt (hf host (.head _))) h

theorem exists_fuel (hosts : List AmlHost) :
    ∃ bound, ∀ fuel, bound ≤ fuel → ∀ host ∈ hosts, host.table.length + 2 ≤ fuel := by
  induction hosts with
  | nil => exact ⟨0, by simp⟩
  | cons host hosts ih =>
    obtain ⟨bound, hbound⟩ := ih
    refine ⟨max bound (host.table.length + 2), fun fuel hfuel => ?_⟩
    obtain ⟨hb, hh⟩ := Nat.max_le.mp hfuel
    intro host' h
    cases h with
    | head => exact hh
    | tail _ h => exact hbound fuel hb host' h

/-- For any tables and any answers of the host there is a number of steps after which `parse_table`
on all of them has returned or stopped. -/
theorem parseTables_terminates (hosts : List AmlHost) :
    ∃ bound, ∀ fuel, bound ≤ fuel →
      Wp (parseTables fuel hosts) (fun _ _ => True) (fun e _ => e.Final) initAmlState := by
  obtain ⟨bound, hbound⟩ := exists_fuel hosts
  refine ⟨bound, fun fuel hfuel => ?_⟩
  have hinit : initAmlState.tree.WF := initAmlNamespaces_wf
  exact (parseTables_spec wf_invariant (hbound fuel hfuel) hinit).mono (fun _ _ _ => trivial)
    fun _ _ => id

end Aml

end Lethe
