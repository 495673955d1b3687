import Lethe.Aml.Termination
import Mathlib.Logic.Relation

/-!
# The namespace tree is rooted

`Tree.Rooted` says of a tree that the namespaces made by Device and Method terms lead to `root()`
and that a Device namespace is registered with its parent. `def_device` does not keep it: when the
name is not found, the parent comes from a second search for a part of the name, which the first
one may have moved by a byte, and the result is neither tested for `NULL` nor for an older entry.
`parseTable_rooted` has the condition on the Device terms of a run, `DeviceTerm.Sound`, under which
the tree is rooted at every point of it; a name of one segment always meets it.
-/

namespace Lethe

namespace Tree

/-- `m` is the parent of `n`. -/
def Up (t : Tree) (n m : Nat) : Prop := (t.nodes n).parent = some m

/-- The namespaces made by Device and Method terms lead to `root()`, and those of Device terms are
found in their parent under their name. -/
structure Rooted (t : Tree) : Prop where
  reaches : ∀ n < t.next, (t.nodes n).origin = .device ∨ (t.nodes n).origin = .method →
    Relation.ReflTransGen t.Up n root
  found : ∀ n < t.next, (t.nodes n).origin = .device →
    ∃ p, t.Up n p ∧ (t.nodes p).namespaces (t.nodes n).name = some n

/-- The form of `Rooted` that the steps keep: nothing is orphaned. -/
structure Linked (t : Tree) : Prop where
  up : ∀ n, t.Has n → n ≠ root → ∃ p, t.Up n p
  found : ∀ n < t.next, (t.nodes n).origin = .device →
    ∃ p, t.Up n p ∧ (t.nodes p).namespaces (t.nodes n).name = some n

variable {t : Tree}

theorem Linked.reaches (h : t.Linked) (ht : t.WF) (hn : t.Has n) :
    Relation.ReflTransGen t.Up n root := by
  induction n using Nat.strong_induction_on with
  | _ n ih =>
    by_cases hroot : n = root
    · rw [hroot]
    · obtain ⟨p, hp⟩ := h.up n hn hroot
      obtain ⟨hlt, hhas⟩ := ht.parent_has hp
      exact .head hp (ih p hlt hhas)

theorem Linked.rooted (h : t.Linked) (ht : t.WF) : t.Rooted where
  reaches n hn ho := by
    refine h.reaches ht ⟨hn, fun hpending => ?_⟩
    rw [hpending] at ho
    cases ho <;> contradiction
  found := h.found

/-! ## The writes -/

theorem Linked.setChild (h : t.Linked) : (t.setChild ns key data).Linked where
  up n hn hroot := by
    obtain ⟨p, hp⟩ := h.up n (setChild_has.mp hn) hroot
    exact ⟨p, by rwa [Up, setChild_parent]⟩
  found n hn ho := by
    rw [setChild_origin] at ho
    obtain ⟨p, hp, hf⟩ := h.found n hn ho
    refine ⟨p, by rwa [Up, setChild_parent], ?_⟩
    rwa [setChild_namespaces, setChild_name]

/-- The parent has to be there, with no entry under the name of the new namespace. -/
theorem Linked.createDevice (h : t.Linked) (ht : t.WF) (hp : t.Has p)
    (hfree : (t.nodes p).namespaces name = none) :
    (t.createNamespace (some p) name .device).Linked := by
  have hlt : ∀ q, some p = some q → q < t.next := fun q e => Option.some.inj e ▸ hp.1
  have hold : ∀ {n}, n ≠ t.next → ((t.createNamespace (some p) name .device).nodes n).parent =
      (t.nodes n).parent := fun hn => by
    rw [createNamespace_old hlt hn]
    split <;> rfl
  refine ⟨fun n hn hroot => ?_, fun n hn ho => ?_⟩
  · by_cases hnext : n = t.next
    · exact ⟨p, by rw [hnext, Up, createNamespace_self hlt]⟩
    · have hn' : t.Has n := by
        obtain ⟨hn₁, hn₂⟩ := hn
        rw [createNamespace_next] at hn₁
        refine ⟨by omega, ?_⟩
        rw [createNamespace_old hlt hnext] at hn₂
        split at hn₂ <;> exact hn₂
      obtain ⟨q, hq⟩ := h.up n hn' hroot
      exact ⟨q, (hold hnext).trans hq⟩
  · rw [createNamespace_next] at hn
    by_cases hnext : n = t.next
    · subst hnext
      refine ⟨p, by rw [Up, createNamespace_self hlt], ?_⟩
      rw [createNamespace_self hlt, createNamespace_old hlt (Nat.ne_of_lt hp.1), if_pos rfl]
      simp
    · have hnode : ((t.createNamespace (some p) name .device).nodes n).name = (t.nodes n).name ∧
          (t.nodes n).origin = .device := by
        rw [createNamespace_old hlt hnext] at ho ⊢
        split at ho <;> simp_all
      obtain ⟨q, hq, hf⟩ := h.found n (by omega) hnode.2
      refine ⟨q, (hold hnext).trans hq, ?_⟩
      have hqnext : q ≠ t.next := Nat.ne_of_lt (ht.parent_has hq).2.1
      rw [hnode.1, createNamespace_old hlt hqnext]
      split
      · next hqp =>
        obtain rfl := Option.some.inj hqp
        have hne : (t.nodes n).name ≠ name := fun e => by
          rw [e, hfree] at hf
          cases hf
        simp only [Function.update_of_ne hne]
        exact hf
      · exact hf

theorem Linked.pending (h : t.Linked) (ht : t.WF) :
    (t.createNamespace none name .pending).Linked := by
  have hnone : ∀ p, (none : Option Nat) = some p → p < t.next := by simp
  have hold : ∀ {n}, n ≠ t.next →
      (t.createNamespace none name .pending).nodes n = t.nodes n := fun hn => by
    rw [createNamespace_old hnone hn, if_neg (by simp)]
  have hself : (t.createNamespace none name .pending).nodes t.next =
      { parent := none, name, origin := .pending } := createNamespace_self hnone
  refine ⟨fun n hn hroot => ?_, fun n hn ho => ?_⟩
  · have hnext : n ≠ t.next := fun e => by
      have := hn.2
      rw [e, hself] at this
      exact this rfl
    have hlt : n < t.next := by
      have := hn.1
      rw [createNamespace_next] at this
      omega
    have hn' : t.Has n := ⟨hlt, hold hnext ▸ hn.2⟩
    obtain ⟨p, hp⟩ := h.up n hn' hroot
    exact ⟨p, by rwa [Up, hold hnext]⟩
  · have hnext : n ≠ t.next := fun e => by
      rw [e, hself] at ho
      cases ho
    rw [createNamespace_next] at hn
    rw [hold hnext] at ho
    obtain ⟨p, hp, hf⟩ := h.found n (by omega) ho
    have hpnext : p ≠ t.next := Nat.ne_of_lt (ht.parent_has hp).2.1
    exact ⟨p, by rwa [Up, hold hnext], by rwa [hold hpnext, hold hnext]⟩

theorem Linked.adopt (h : t.Linked) : (t.adopt ns scope).Linked where
  up n hn hroot := by
    by_cases hns : n = ns
    · subst hns
      exact ⟨scope, adopt_self_parent⟩
    · have hn' : t.Has n := ⟨hn.1, adopt_of_ne hns ▸ hn.2⟩
      obtain ⟨p, hp⟩ := h.up n hn' hroot
      exact ⟨p, by rwa [Up, adopt_of_ne hns]⟩
  found n hn ho := by
    have hns : n ≠ ns := fun e => by
      subst e
      rw [adopt_self_origin] at ho
      cases ho
    rw [adopt_of_ne hns] at ho
    obtain ⟨p, hp, hf⟩ := h.found n hn ho
    refine ⟨p, by rwa [Up, adopt_of_ne hns], ?_⟩
    rwa [adopt_namespaces, adopt_name]

end Tree

/-! ## The condition on Device terms -/

/-- If the name is not found and is not a single segment, the search for its scope part finds a
namespace, and that has no entry under what is then taken for the last segment. -/
def DeviceTerm.Sound (d : DeviceTerm) : Prop :=
  ∀ name parent, locateObject .namespaces d.tree d.ns d.name = .ok (none, name) →
    Aml.deviceParent d.tree d.ns name = .ok parent → d.name.count ≠ keyLen →
    ∃ p, parent = some p ∧ (d.tree.nodes p).namespaces (trimName name).key = none

/-- The Device terms so far meet the condition. -/
def AmlState.Sound (s : AmlState) : Prop := ∀ d ∈ s.devices, d.Sound

/-- The tree is rooted, and so were all the trees before. -/
def AmlState.AlwaysRooted (s : AmlState) : Prop := ∀ t ∈ s.past ++ [s.tree], t.Rooted

section
variable {t : Tree}

theorem stage3_none (h : stage3 look t key fuel current = some none) :
    look.get (t.nodes current) key = none := by
  cases fuel with
  | zero => cases h
  | succ fuel =>
    simp only [stage3] at h
    split at h
    · cases h
    · assumption

/-- A name of one segment that is not found is free in the namespace of the term. -/
theorem locateObject_segment (hcount : name.count = keyLen)
    (h : locateObject .namespaces t ns name = .ok (none, name')) :
    name' = name ∧ (t.nodes ns).namespaces (hashKey name.inner) = none := by
  simp only [locateObject] at h
  have hne : name.count ≠ 1 := by rw [hcount]; decide
  rw [if_neg hne, if_pos hcount] at h
  split at h
  · cases h
  split at h
  · cases h
  · next hs =>
    cases h
    exact ⟨rfl, stage3_none hs⟩

theorem DeviceTerm.Sound.parent {d : DeviceTerm} {name : AmlName} {parent : Option Nat} (hd : d.Sound)
    (hl : locateObject .namespaces d.tree d.ns d.name = .ok (none, name))
    (hp : Aml.deviceParent d.tree d.ns name = .ok parent) :
    ∃ p, parent = some p ∧ (d.tree.nodes p).namespaces (trimName name).key = none := by
  by_cases hcount : d.name.count = keyLen
  · obtain ⟨rfl, hfree⟩ := locateObject_segment hcount hl
    have hle : d.name.count ≤ keyLen := Nat.le_of_eq hcount
    have hinner : d.name.inner ≠ [] := fun e => by
      rw [AmlName.count, e] at hcount
      cases hcount
    rw [Aml.deviceParent, if_neg (Nat.not_lt.mpr hle)] at hp
    rw [trimName, if_pos hle, AmlName.key, if_neg hinner]
    exact ⟨d.ns, (Except.ok.inj hp).symm, hfree⟩
  · exact hd name parent hl hp hcount

/-- The first loop of `resolve_name` ends at a namespace without a parent. -/
theorem levelsLoop_end (ht : t.WF) (hns : t.Has ns)
    (h : levelsLoop t fuel ns levels = some (levels', current)) :
    t.Has current ∧ (t.nodes current).parent = none := by
  induction fuel generalizing ns levels with
  | zero => cases h
  | succ fuel ih =>
    simp only [levelsLoop] at h
    split at h
    · next hp =>
      cases h
      exact ⟨hns, hp⟩
    · next hp => exact ih (ht.parent_has hp).2 h

end

/-! ## The invariant of a run -/

/-- The trees are rooted if the Device terms so far meet the condition. -/
def RootedIfSound (s : AmlState) : Prop :=
  s.tree.WF ∧ (s.Sound → s.tree.Linked ∧ ∀ t ∈ s.past, t.Rooted)

/-- The run ends for another reason than the shape of the tree, if the Device terms meet the
condition. -/
def StopsRooted (e : AmlStop) (s : AmlState) : Prop :=
  e.Final ∧ (s.Sound → s.AlwaysRooted ∧ e ≠ .assertFailed .currentIsRoot)

theorem RootedIfSound.alwaysRooted {s : AmlState} (h : RootedIfSound s) (hs : s.Sound) :
    s.AlwaysRooted := by
  intro t ht
  obtain hpast | htree := List.mem_append.mp ht
  · exact (h.2 hs).2 t hpast
  · rw [List.mem_singleton.mp htree]
    exact (h.2 hs).1.rooted h.1

/-- A write keeps the invariant if it keeps the two properties of the tree. -/
theorem RootedIfSound.write {s : AmlState} (h : RootedIfSound s) (ht : t.WF)
    (hl : s.Sound → s.tree.Linked → t.Linked) : RootedIfSound (s.write t) :=
  ⟨ht, fun hs => ⟨hl hs (h.2 hs).1, h.alwaysRooted hs⟩⟩

theorem RootedIfSound.stop {s : AmlState} (h : RootedIfSound s) (he : e.Final)
    (hne : e ≠ .assertFailed .currentIsRoot) : StopsRooted e s :=
  ⟨he, fun hs => ⟨h.alwaysRooted hs, hne⟩⟩

theorem rootedIfSound_invariant : StateInvariant RootedIfSound StopsRooted where
  wf h := h.1
  frame h ht hp hd := by
    simp only [RootedIfSound, AmlState.Sound, ht, hp, hd]
    exact h
  setChild h := h.write h.1.setChild fun _ hl => hl.setChild
  record h := ⟨h.1, fun hs => h.2 fun d hd => hs d (List.mem_append_left _ hd)⟩
  device {s d name parent} h hd ht hns hl hp := by
    have hhas : ∀ p, parent = some p → s.tree.Has p :=
      fun p e => Aml.deviceParent_has h.1 hns (e ▸ hp)
    refine h.write (h.1.createNamespace hhas fun _ => by simp) fun hs hlinked => ?_
    rw [← ht] at hl hp
    obtain ⟨p, rfl, hfree⟩ := (hs d hd).parent hl hp
    rw [ht] at hfree
    exact hlinked.createDevice h.1 (hhas p rfl) hfree
  pending {s _} h := by
    have hp : ∀ p, (none : Option Nat) = some p → s.tree.Has p := by simp
    exact h.write (h.1.createNamespace hp (by simp)) fun _ hl => hl.pending h.1
  adopt h _ hs hlt := h.write (h.1.adopt hs hlt) fun _ hl => hl.adopt
  exit h := h.stop trivial (by simp)
  fault h := h.stop trivial (by simp)
  assertFailed h ha := h.stop trivial fun e => ha (AmlStop.assertFailed.inj e)
  currentIsRoot {s ns levels current} h hns hl hne := by
    refine ⟨trivial, fun hs => ?_⟩
    obtain ⟨hcur, hparent⟩ := levelsLoop_end h.1 hns hl
    obtain ⟨p, hp⟩ := (h.2 hs).1.up current hcur hne
    rw [Tree.Up, hparent] at hp
    cases hp

theorem initAmlNamespaces_linked : initAmlNamespaces.Linked where
  up n hn hroot := by
    have hparent : ∀ n < 6, n ≠ root → (initAmlNamespaces.nodes n).parent = some root := by decide
    exact ⟨root, hparent n hn.1 hroot⟩
  found n hn ho := by
    have horigin : ∀ n < 6, (initAmlNamespaces.nodes n).origin = .predefined := by decide
    rw [horigin n hn] at ho
    cases ho

/-- Every run of `parse_table` from the predefined namespaces returns or stops, so that the loops
along `parent` end. In those whose Device terms meet the condition the tree is rooted at every
point, and the assertion `current == root()` does not fail. -/
theorem parseTable_rooted (host : AmlHost) :
    ∃ bound, ∀ fuel, bound ≤ fuel →
      Wp (Aml.parseTable host fuel) (fun _ s => s.Sound → s.AlwaysRooted)
        (fun e s => e.Final ∧ (s.Sound → s.AlwaysRooted ∧ e ≠ .assertFailed .currentIsRoot))
        initAmlState := by
  refine ⟨host.table.length + 2, fun fuel hfuel => ?_⟩
  have hinit : RootedIfSound initAmlState :=
    ⟨initAmlNamespaces_wf, fun _ => ⟨initAmlNamespaces_linked, by simp [initAmlState]⟩⟩
  exact (Aml.parseTable_spec rootedIfSound_invariant (Aml.enough_of_length_lt hfuel) hinit).mono
    (fun _ s h hs => h.alwaysRooted hs) fun e s h => h

/-- A table with `Device (\_SB.PCI0) { Name (AAAA, Package () { BBBB }) }`, and zeros from all else. -/
def absoluteDeviceHost : AmlHost where
  table :=
    [0x44, 0x53, 0x44, 0x54, 0x3D, 0, 0, 0] ++ List.replicate 28 0 ++
    [0x5B, 0x82, 0x17, 0x5C, 0x2E, 0x5F, 0x53, 0x42, 0x5F, 0x50, 0x43, 0x49, 0x30,
      0x08, 0x41, 0x41, 0x41, 0x41, 0x12, 0x06, 0x01, 0x42, 0x42, 0x42, 0x42]
  uninit _ _ := 0
  readMem _ _ _ := none
  readIo _ _ _ := 0

/-- The search for the device has moved its name, so that of its scope looks for `_SB_P` and fails.
The namespace of the device has no parent, and the first name to resolve in it ends the run. -/
theorem parseTable_absoluteDevice_orphaned :
    Wp (Aml.parseTable absoluteDeviceHost 64) (fun _ _ => False)
      (fun e s => e = .assertFailed .currentIsRoot ∧ ¬s.AlwaysRooted) initAmlState := by
  have hrun : (match Aml.parseTable absoluteDeviceHost 64 initAmlState with
      | .ok _ _ => false
      | .error e s => decide (e = .assertFailed .currentIsRoot ∧ 6 < s.tree.next ∧
          (s.tree.nodes 6).origin = .device ∧ (s.tree.nodes 6).parent = none)) = true := by
    decide +kernel
  rw [Wp]
  split at hrun
  · cases hrun
  · next e s hr =>
    obtain ⟨he, hlt, ho, hp⟩ := of_decide_eq_true hrun
    rw [hr]
    refine ⟨he, fun hrooted => ?_⟩
    obtain ⟨p, hup, -⟩ := (hrooted s.tree (by simp)).found 6 hlt ho
    rw [Tree.Up, hp] at hup
    cases hup

end Lethe
