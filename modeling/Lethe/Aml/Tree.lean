import Lethe.Aml.Name

/-!
# The tree of namespaces

`Tree.WF` is the invariant of the tree that holds whatever the tables say: parents are older than
their children, and no map leads to a namespace that is not complete. It is kept by the writes of
the parser, and under it the loops along `parent` end and a search finds only complete namespaces.
-/

namespace Lethe

namespace Tree
variable {t : Tree}

/-- `n` is a namespace of the tree, and it has been given its parent. -/
def Has (t : Tree) (n : Nat) : Prop := n < t.next ∧ (t.nodes n).origin ≠ .pending

structure WF (t : Tree) : Prop where
  root_has : t.Has root
  parent_has : ∀ {n p}, (t.nodes n).parent = some p → p < n ∧ t.Has p
  child_has : ∀ {n key m}, (t.nodes n).namespaces key = some m → t.Has m

/-! ## Children -/

section
variable {ns n : Nat} {key : HashKey} {data : AmlPtr}

theorem setChild_nodes : (t.setChild ns key data).nodes n =
    if n = ns then { t.nodes n with children := Function.update (t.nodes n).children key (some data) }
    else t.nodes n := by
  simp only [setChild, Function.update_apply]
  split
  · next h => rw [h]
  · rfl

theorem setChild_children : ((t.setChild ns key data).nodes n).children k =
    if n = ns ∧ k = key then some data else (t.nodes n).children k := by
  rw [setChild_nodes]
  by_cases hn : n = ns
  · subst hn
    simp only [if_true, true_and, Function.update_apply]
  · rw [if_neg hn, if_neg fun h => hn h.1]

@[simp] theorem setChild_next : (t.setChild ns key data).next = t.next := rfl

@[simp] theorem setChild_parent :
    ((t.setChild ns key data).nodes n).parent = (t.nodes n).parent := by
  rw [setChild_nodes]; split <;> rfl

@[simp] theorem setChild_name : ((t.setChild ns key data).nodes n).name = (t.nodes n).name := by
  rw [setChild_nodes]; split <;> rfl

@[simp] theorem setChild_namespaces :
    ((t.setChild ns key data).nodes n).namespaces = (t.nodes n).namespaces := by
  rw [setChild_nodes]; split <;> rfl

@[simp] theorem setChild_origin :
    ((t.setChild ns key data).nodes n).origin = (t.nodes n).origin := by
  rw [setChild_nodes]; split <;> rfl

@[simp] theorem setChild_has : (t.setChild ns key data).Has n ↔ t.Has n := by simp [Has]

theorem WF.setChild (h : t.WF) : (t.setChild ns key data).WF where
  root_has := setChild_has.mpr h.root_has
  parent_has hp := by
    rw [setChild_parent] at hp
    exact ⟨(h.parent_has hp).1, setChild_has.mpr (h.parent_has hp).2⟩
  child_has hc := by
    rw [setChild_namespaces] at hc
    exact setChild_has.mpr (h.child_has hc)

end

/-! ## New namespaces -/

section
variable {n : Nat} {parent : Option Nat} {name : HashKey} {origin : Origin}

@[simp] theorem createNamespace_next : (t.createNamespace parent name origin).next = t.next + 1 := by
  cases parent <;> rfl

theorem createNamespace_self (hp : ∀ p, parent = some p → p < t.next) :
    (t.createNamespace parent name origin).nodes t.next = { parent, name, origin } := by
  cases parent with
  | none => simp [createNamespace]
  | some p =>
    have hne : t.next ≠ p := Nat.ne_of_gt (hp p rfl)
    simp [createNamespace, pushNamespace, Function.update_of_ne hne]

/-- The new namespace is entered in the map of its parent, and nothing else changes. -/
theorem createNamespace_old (hp : ∀ p, parent = some p → p < t.next) (hn : n ≠ t.next) :
    (t.createNamespace parent name origin).nodes n =
      if parent = some n then
        { t.nodes n with namespaces := Function.update (t.nodes n).namespaces name (some t.next) }
      else t.nodes n := by
  cases parent with
  | none => simp [createNamespace, hn]
  | some p =>
    have hp' : p ≠ t.next := Nat.ne_of_lt (hp p rfl)
    simp only [createNamespace, pushNamespace, Function.update_self, Function.update_of_ne hp',
      Function.update_apply, Option.some.injEq]
    by_cases h : n = p
    · simp [h]
    · simp [h, hn, Ne.symm h]

theorem Has.createNamespace (hp : ∀ p, parent = some p → p < t.next) (h : t.Has n) :
    (t.createNamespace parent name origin).Has n := by
  have hn : n ≠ t.next := Nat.ne_of_lt h.1
  refine ⟨Nat.lt_trans h.1 (by simp), ?_⟩
  rw [createNamespace_old hp hn]
  split <;> exact h.2

theorem createNamespace_has_self (hp : ∀ p, parent = some p → p < t.next) (ho : origin ≠ .pending) :
    (t.createNamespace parent name origin).Has t.next := by
  refine ⟨by simp, ?_⟩
  rw [createNamespace_self hp]
  exact ho

/-- The parent has to be there, and a namespace that is registered with it has to be complete. -/
theorem WF.createNamespace (h : t.WF) (hp : ∀ p, parent = some p → t.Has p)
    (ho : parent.isSome → origin ≠ .pending) : (t.createNamespace parent name origin).WF := by
  have hlt : ∀ p, parent = some p → p < t.next := fun p e => (hp p e).1
  refine ⟨h.root_has.createNamespace hlt, fun {n p} hn => ?_, fun {n key m} hn => ?_⟩
  · by_cases hnext : n = t.next
    · subst hnext
      rw [createNamespace_self hlt] at hn
      exact ⟨hlt p hn, (hp p hn).createNamespace hlt⟩
    · rw [createNamespace_old hlt hnext] at hn
      have hn : (t.nodes n).parent = some p := by split at hn <;> exact hn
      exact ⟨(h.parent_has hn).1, (h.parent_has hn).2.createNamespace hlt⟩
  · by_cases hnext : n = t.next
    · subst hnext
      rw [createNamespace_self hlt] at hn
      cases hn
    · rw [createNamespace_old hlt hnext] at hn
      split at hn
      · next hparent =>
        simp only [Function.update_apply] at hn
        split at hn
        · cases hn
          exact createNamespace_has_self hlt (ho (by simp [hparent]))
        · exact (h.child_has hn).createNamespace hlt
      · exact (h.child_has hn).createNamespace hlt

end

/-! ## The parent of a Method namespace -/

section
variable {ns scope n : Nat}

theorem adopt_of_ne (h : n ≠ ns) : (t.adopt ns scope).nodes n = t.nodes n := by
  simp [adopt, Function.update_of_ne h]

@[simp] theorem adopt_self_parent : ((t.adopt ns scope).nodes ns).parent = some scope := by
  simp [adopt]

@[simp] theorem adopt_self_origin : ((t.adopt ns scope).nodes ns).origin = .method := by
  simp [adopt]

@[simp] theorem adopt_namespaces :
    ((t.adopt ns scope).nodes n).namespaces = (t.nodes n).namespaces := by
  by_cases h : n = ns
  · subst h; simp [adopt]
  · rw [adopt_of_ne h]

@[simp] theorem adopt_name : ((t.adopt ns scope).nodes n).name = (t.nodes n).name := by
  by_cases h : n = ns
  · subst h; simp [adopt]
  · rw [adopt_of_ne h]

theorem Has.adopt (h : t.Has n) : (t.adopt ns scope).Has n := by
  refine ⟨h.1, ?_⟩
  by_cases hn : n = ns
  · subst hn; simp
  · rw [adopt_of_ne hn]; exact h.2

theorem WF.adopt (h : t.WF) (hs : t.Has scope) (hlt : scope < ns) : (t.adopt ns scope).WF where
  root_has := h.root_has.adopt
  parent_has {n p} hp := by
    by_cases hn : n = ns
    · subst hn
      rw [adopt_self_parent] at hp
      cases hp
      exact ⟨hlt, hs.adopt⟩
    · rw [adopt_of_ne hn] at hp
      exact ⟨(h.parent_has hp).1, (h.parent_has hp).2.adopt⟩
  child_has hc := by
    rw [adopt_namespaces] at hc
    exact (h.child_has hc).adopt

end

end Tree

/-! ## The predefined namespaces -/

theorem Tree.wf_of_root : (Tree.createNamespace ⟨fun _ => {}, root⟩ none name .predefined).WF := by
  refine ⟨⟨Nat.zero_lt_one, ?_⟩, fun {n p} hp => ?_, fun {n key m} hm => ?_⟩
  · simp [Tree.createNamespace]
  all_goals
    simp only [Tree.createNamespace, Function.update_apply] at *
    split at * <;> simp at *

theorem initAmlNamespaces_wf : initAmlNamespaces.WF := by
  have step : ∀ {t : Tree} {name}, t.WF → (t.createNamespace (some root) name .predefined).WF :=
    fun h => h.createNamespace (fun p hp => Option.some.inj hp ▸ h.root_has) (fun _ => by decide)
  exact step (step (step (step (step Tree.wf_of_root))))

/-! ## The loops along `parent` -/

variable {β : Type} {look : Lookup β} {t : Tree}

/-- A namespace has fewer ancestors than its number says, so `stage3` ends. -/
theorem stage3_ne_none (ht : t.WF) (h : current < fuel) :
    stage3 look t key fuel current ≠ none := by
  induction fuel generalizing current with
  | zero => omega
  | succ fuel ih =>
    simp only [stage3]
    split
    · simp
    split
    · simp
    · next hp =>
      apply ih
      have := (ht.parent_has hp).1
      omega

theorem levelsLoop_ne_none (ht : t.WF) (h : current < fuel) :
    levelsLoop t fuel current levels ≠ none := by
  induction fuel generalizing current levels with
  | zero => omega
  | succ fuel ih =>
    simp only [levelsLoop]
    split
    · simp
    · next hp =>
      apply ih
      have := (ht.parent_has hp).1
      omega

theorem prependLoop_ne_none (ht : t.WF) (h : current < fuel) :
    prependLoop t fuel current absoluteName offset ≠ none := by
  induction fuel generalizing current absoluteName offset with
  | zero => omega
  | succ fuel ih =>
    simp only [prependLoop]
    split
    · simp
    · next hp =>
      apply ih
      have := (ht.parent_has hp).1
      omega

/-! ## What a search finds -/

section
variable {P : β → Prop} (hP : ∀ {n key v}, look.get (t.nodes n) key = some v → P v)
include hP

theorem stage3_found (h : stage3 look t key fuel current = some (some v)) : P v := by
  induction fuel generalizing current with
  | zero => cases h
  | succ fuel ih =>
    simp only [stage3] at h
    split at h
    · next hv =>
      cases h
      exact hP hv
    split at h
    · cases h
    · exact ih h

theorem stage2_found (h : stage2 look t ns key = some v) : P v := by
  simp only [stage2] at h
  split at h
  · exact hP h
  split at h
  · cases h
  split at h
  · cases h
  · exact hP h

/-- A search finds a value of one of the maps, or `root()`. -/
theorem locateObject_found (hroot : P look.root)
    (h : locateObject look t ns name = .ok (some v, name')) : P v := by
  simp only [locateObject] at h
  split at h
  · cases h; exact hroot
  split at h
  · cases h
  split at h
  · split at h
    · cases h
    · next hs =>
      cases h
      exact stage3_found hP hs
  split at h
  · split at h
    · cases h
    split at h
    · cases h
    · exact stage2_found hP (congrArg Prod.fst (Except.ok.inj h))
  split at h
  · split at h
    · cases h
    · exact stage2_found hP (congrArg Prod.fst (Except.ok.inj h))
  · exact stage2_found hP (congrArg Prod.fst (Except.ok.inj h))

end

/-- A search fails only with an exit or a fault. -/
theorem locateObject_error (ht : t.WF) (hns : ns < t.next)
    (h : locateObject look t ns name = .error e) : e = .exit ∨ e = .fault := by
  simp only [locateObject] at h
  split at h
  · cases h
  split at h
  · cases h; exact .inl rfl
  split at h
  · split at h
    · next hs => exact absurd hs (stage3_ne_none ht hns)
    · cases h
  all_goals
    repeat' split at h
    all_goals cases h
    all_goals exact .inr rfl

/-- `resolve_name` fails only in one of its assertions, and the one on `current` only if the chain
of parents does not end at `root()`. -/
theorem resolveName_error (ht : t.WF) (hns : ns < t.next)
    (h : resolveName t block ns key = .error e) :
    e = .assertFailed .unimplemented ∨ e = .assertFailed .levelsPositive ∨
      e = .assertFailed .currentIsRoot ∧
        ∃ levels current, levelsLoop t t.next ns 0 = some (levels, current) ∧ current ≠ root := by
  simp only [resolveName] at h
  split at h
  · cases h; exact .inl rfl
  split at h
  · cases h
  split at h
  · next hl => exact absurd hl (levelsLoop_ne_none ht hns)
  · next levels current hl =>
    split at h
    · next hne =>
      cases h
      exact .inr (.inr ⟨rfl, levels, current, hl, hne⟩)
    split at h
    · cases h; exact .inr (.inl rfl)
    split at h
    · next hp => exact absurd hp (prependLoop_ne_none ht hns)
    · cases h

/-! ## Searches in a larger tree -/

section
variable {look : Lookup β} {t t' : Tree} (ht : t.WF) (hnext : t.next ≤ t'.next)
  (hnodes : ∀ n < t.next, t'.nodes n = t.nodes n)
include ht hnext hnodes

omit hnext in
theorem stage3_grow (hn : n < t.next) (hfuel : fuel ≤ fuel') (h : stage3 look t key fuel n = some r) :
    stage3 look t' key fuel' n = some r := by
  induction fuel generalizing n fuel' with
  | zero => cases h
  | succ fuel ih =>
    obtain ⟨fuel', rfl⟩ : ∃ k, fuel' = k + 1 := ⟨fuel' - 1, by omega⟩
    rw [stage3] at h ⊢
    rw [hnodes n hn]
    cases hget : look.get (t.nodes n) key with
    | some ptr =>
      rw [hget] at h
      exact h
    | none =>
      rw [hget] at h
      cases hp : (t.nodes n).parent with
      | none =>
        rw [hp] at h
        exact h
      | some p =>
        rw [hp] at h
        exact ih (ht.parent_has hp).2.1 (by omega) h

omit hnext in
theorem resolveScopeLoop_grow (hn : n < t.next) :
    resolveScopeLoop t' rem n key = resolveScopeLoop t rem n key := by
  induction rem generalizing n key with
  | zero => rfl
  | succ rem ih =>
    rw [resolveScopeLoop, resolveScopeLoop, hnodes n hn]
    cases hm : (t.nodes n).namespaces (hashKey key) with
    | none => rfl
    | some m => exact ih (ht.child_has hm).1

omit hnext in
omit hnext in
theorem resolveScope_grow (hn : n < t.next) : resolveScope t' n key = resolveScope t n key := by
  unfold resolveScope
  rw [resolveScopeLoop_grow ht hnodes hn]

omit hnext hnodes in
/-- A path leads to a namespace of the tree. -/
theorem resolveScopeLoop_lt (hn : n < t.next) (h : resolveScopeLoop t rem n key = some m) :
    m < t.next := by
  induction rem generalizing n key with
  | zero =>
    obtain rfl := Option.some.inj h
    exact hn
  | succ rem ih =>
    rw [resolveScopeLoop] at h
    split at h
    · cases h
    · next m' hm => exact ih (ht.child_has hm).1 h

omit hnext hnodes in
theorem resolveScope_lt (hn : n < t.next) (h : resolveScope t n key = some m) : m < t.next := by
  unfold resolveScope at h
  split at h
  · cases h
  split at h
  · cases h
  · next m' hm =>
    split at h
    · cases h
    · obtain rfl := Option.some.inj h
      exact resolveScopeLoop_lt ht hn hm

omit hnext in
theorem stage2_grow (hn : n < t.next) : stage2 look t' n key = stage2 look t n key := by
  unfold stage2
  dsimp only
  rw [hnodes n hn, resolveScope_grow ht hnodes hn]
  cases hm : resolveScope t n (key.take (key.length - keyLen)) with
  | none => rfl
  | some m => simp only [hnodes m (resolveScope_lt ht hn hm)]

/-- Namespaces that nothing leads to make no difference to a search. -/
theorem locateObject_grow (hns : ns < t.next) (h : locateObject look t ns name = .ok r) :
    locateObject look t' ns name = .ok r := by
  unfold locateObject at h ⊢
  by_cases hone : name.count = 1
  · rwa [if_pos hone] at h ⊢
  rw [if_neg hone] at h ⊢
  by_cases hvalid : (!validName name) = true
  · rwa [if_pos hvalid] at h ⊢
  rw [if_neg hvalid] at h ⊢
  by_cases hseg : name.count = keyLen
  · rw [if_pos hseg] at h ⊢
    cases hs : stage3 look t (hashKey name.inner) t.next ns with
    | none =>
      rw [hs] at h
      cases h
    | some ptr =>
      rw [hs] at h
      rw [stage3_grow ht hnodes hns hnext hs]
      exact h
  · rw [if_neg hseg] at h ⊢
    rw [hnodes ns hns, stage2_grow ht hnodes hns, stage2_grow ht hnodes ht.root_has.1]
    cases hp : (t.nodes ns).parent with
    | none =>
      rw [hp] at h
      exact h
    | some p =>
      rw [hp] at h
      dsimp only at h ⊢
      rwa [stage2_grow ht hnodes (ht.parent_has hp).2.1]

end

end Lethe
