import Lethe.Aml.Handlers

/-!
# The method objects of a run

A run of the parser registers method objects in the maps of the namespaces, and an Alias term may
register one again. `AmlState.Registered` says that one of the trees so far has had a method object
with the given range of bytes. What a term adds to these is what the observer has seen of it
(`SeesMethods`).
-/

namespace Lethe

/-- A method object of the tree covers the `len` bytes from `code` on. -/
def Tree.HasMethod (t : Tree) (code len : Nat) : Prop :=
  ∃ method : AmlMethod, t.Binds (.method method) ∧ method.code = code ∧ method.len = len

/-- A method object with this range of bytes has been registered. -/
def AmlState.Registered (s : AmlState) (code len : Nat) : Prop :=
  ∃ t ∈ s.past ++ [s.tree], t.HasMethod code len

/-- The methods that have been registered are those before and those that the observer has seen. -/
def SeesMethods (s s' : AmlState) : Prop :=
  ∃ events, s'.log = s.log ++ events ∧
    ∀ code len, s'.Registered code len ↔ s.Registered code len ∨ .method code len ∈ events

variable {t : Tree} {s s' s'' : AmlState} {code len : Nat}

namespace Tree

/-! ## The writes -/

theorem binds_setChild (h : (t.setChild n key data).Binds data') : data' = data ∨ t.Binds data' := by
  obtain ⟨m, k, hm⟩ := h
  rw [setChild_children] at hm
  split at hm
  · exact .inl (Option.some.inj hm).symm
  · exact .inr ⟨m, k, hm⟩

theorem setChild_binds : (t.setChild n key data).Binds data := by
  refine ⟨n, key, ?_⟩
  rw [setChild_children, if_pos ⟨rfl, rfl⟩]

theorem pushNamespace_children :
    ((t.pushNamespace parent this).nodes n).children = (t.nodes n).children := by
  by_cases h : n = parent
  · subst h
    simp [pushNamespace]
  · simp [pushNamespace, Function.update_of_ne h]

/-- A new namespace has no objects. -/
theorem binds_createNamespace (h : (t.createNamespace parent name origin).Binds data) :
    t.Binds data := by
  have hnew {m k} (hm : (Function.update t.nodes t.next { parent, name, origin } m).children k =
      some data) : t.Binds data := by
    by_cases hnext : m = t.next
    · rw [hnext, Function.update_self] at hm
      cases hm
    · rw [Function.update_of_ne hnext] at hm
      exact ⟨m, k, hm⟩
  obtain ⟨m, k, hm⟩ := h
  cases parent with
  | none => exact hnew hm
  | some p =>
    rw [createNamespace, pushNamespace_children] at hm
    exact hnew hm

theorem adopt_children : ((t.adopt ns scope).nodes n).children = (t.nodes n).children := by
  by_cases h : n = ns
  · subst h
    simp [adopt]
  · rw [adopt_of_ne h]

theorem binds_adopt (h : (t.adopt ns scope).Binds data) : t.Binds data := by
  obtain ⟨m, k, hm⟩ := h
  exact ⟨m, k, adopt_children ▸ hm⟩

theorem HasMethod.mono {t' : Tree} (h : t'.HasMethod code len)
    (hbinds : ∀ method, t'.Binds (.method method) → t.Binds (.method method)) :
    t.HasMethod code len := by
  obtain ⟨method, hmethod, hrange⟩ := h
  exact ⟨method, hbinds method hmethod, hrange⟩

end Tree

namespace AmlState

theorem registered_write :
    (s.write t).Registered code len ↔ s.Registered code len ∨ t.HasMethod code len := by
  constructor
  · rintro ⟨t', ht', hmethod⟩
    obtain hold | hnew := List.mem_append.mp ht'
    · exact .inl ⟨t', hold, hmethod⟩
    · rw [List.mem_singleton.mp hnew] at hmethod
      exact .inr hmethod
  · rintro (⟨t', ht', hmethod⟩ | hmethod)
    · exact ⟨t', List.mem_append_left _ ht', hmethod⟩
    · exact ⟨t, List.mem_append_right _ (List.mem_singleton_self t), hmethod⟩

theorem Registered.of_tree (h : s.tree.HasMethod code len) : s.Registered code len :=
  ⟨s.tree, List.mem_append_right _ (List.mem_singleton_self _), h⟩

end AmlState

/-! ## The handlers -/

namespace SeesMethods

theorem of_eq (hlog : s'.log = s.log) (hpast : s'.past = s.past) (htree : s'.tree = s.tree) :
    SeesMethods s s' := by
  refine ⟨[], by rw [hlog, List.append_nil], fun code len => ?_⟩
  rw [AmlState.Registered, AmlState.Registered, hpast, htree]
  simp

instance : IsPreorder AmlState SeesMethods where
  refl _ := of_eq rfl rfl rfl
  trans := by
    rintro s s' s'' ⟨events, hlog, hmethods⟩ ⟨events', hlog', hmethods'⟩
    refine ⟨events ++ events', by rw [hlog', hlog, List.append_assoc], fun code len => ?_⟩
    rw [hmethods', hmethods, List.mem_append, or_assoc]

/-- A write of a tree that has no other methods. -/
theorem write (h : ∀ method, t.Binds (.method method) → s.tree.Binds (.method method)) :
    SeesMethods s (s.write t) := by
  refine ⟨[], (List.append_nil s.log).symm, fun code len => ?_⟩
  rw [AmlState.registered_write, or_iff_left List.not_mem_nil]
  exact or_iff_left_of_imp fun hmethod => .of_tree (hmethod.mono h)

/-- The write that registers a method, which the observer sees. -/
theorem method {method : AmlMethod} :
    SeesMethods s
      ((s.write (s.tree.setChild n key (.method method))).emit (.method method.code method.len)) := by
  refine ⟨[.method method.code method.len], rfl, fun code len => ?_⟩
  rw [List.mem_singleton, AmlEvent.method.injEq]
  refine Iff.trans AmlState.registered_write ⟨?_, ?_⟩
  · rintro (hold | ⟨method', hbinds, rfl, rfl⟩)
    · exact .inl hold
    · obtain heq | hold := Tree.binds_setChild hbinds
      · cases heq
        exact .inr ⟨rfl, rfl⟩
      · exact .inl (.of_tree ⟨method', hold, rfl, rfl⟩)
  · rintro (hold | ⟨rfl, rfl⟩)
    · exact .inl hold
    · exact .inr ⟨method, Tree.setChild_binds, rfl, rfl⟩

theorem handlers : HandlerRelation (fun _ => SeesMethods) SeesMethods where
  advances := by
    rintro ns s _ ⟨p, clock, rfl⟩
    exact of_eq rfl rfl rfl
  enter {_ s c} := ⟨[.enter c], rfl, fun _ _ => by simp [AmlState.Registered, AmlState.emit]⟩
  leave {_ s c} := ⟨[.leave c], rfl, fun _ _ => by simp [AmlState.Registered, AmlState.emit]⟩
  record := of_eq rfl rfl rfl
  setChild hdata := write fun method hbinds => by
    obtain rfl | hold := Tree.binds_setChild hbinds
    · exact hdata.resolve_left (not_not_intro trivial)
    · exact hold
  method := method
  create {_ s parent name origin c} := by
    have hcreate : SeesMethods s (s.write (s.tree.createNamespace parent name origin)) :=
      write fun _ hbinds => Tree.binds_createNamespace hbinds
    exact trans_of SeesMethods hcreate (of_eq rfl rfl rfl)
  adopt := write fun _ hbinds => Tree.binds_adopt hbinds
  nested := id
  termlist h := trans_of SeesMethods (trans_of SeesMethods (of_eq rfl rfl rfl) h) (of_eq rfl rfl rfl)

end SeesMethods

end Lethe
