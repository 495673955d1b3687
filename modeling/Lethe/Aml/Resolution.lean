import Lethe.Aml.Termination
import Lethe.Aml.Reading
import Lethe.Lib.Radix

/-!
# Path resolution

`Path.resolve` says what `locate_object` is for: a single segment without a prefix is looked up in
the namespace and then in one ancestor after the other, and every other path is followed from its
base through the maps `namespaces`. `locateObject_resolves` is for the trees in which parents are
older than their children and a namespace is registered with its parent only (`Tree.Nested`); the
parser makes no other.
-/

namespace Lethe

namespace Tree
variable {t : Tree}

/-- Parents are older than their children, and a namespace is registered with its parent only. -/
structure Nested (t : Tree) : Prop where
  parent_lt : ∀ {n p}, (t.nodes n).parent = some p → p < n
  registered : ∀ {n key m}, (t.nodes n).namespaces key = some m → (t.nodes m).parent = some n

/-- The first of the namespaces from `n` upwards. -/
def parentChain (t : Tree) : Nat → Nat → List Nat
  | 0, _ => []
  | fuel + 1, n => n :: (t.nodes n).parent.elim [] (t.parentChain fuel)

/-- `n`, its parent, the parent of that, and so on. -/
def chain (t : Tree) (n : Nat) : List Nat := t.parentChain (n + 1) n

/-- The namespace that a path of keys leads to. -/
def descend (t : Tree) : Nat → List HashKey → Option Nat :=
  Radix.follow fun n key => (t.nodes n).namespaces key

theorem Nested.parentChain_eq (ht : t.Nested) (h : n < fuel) (h' : n < fuel') :
    t.parentChain fuel n = t.parentChain fuel' n := by
  induction fuel generalizing n fuel' with
  | zero => exact absurd h (Nat.not_lt_zero n)
  | succ fuel ih =>
    cases fuel' with
    | zero => exact absurd h' (Nat.not_lt_zero n)
    | succ fuel' =>
      rw [parentChain, parentChain]
      cases hp : (t.nodes n).parent with
      | none => rfl
      | some p =>
        have hlt := ht.parent_lt hp
        have hrest : t.parentChain fuel p = t.parentChain fuel' p := ih (by omega) (by omega)
        rw [Option.elim_some, Option.elim_some, hrest]

theorem Nested.chain_eq (ht : t.Nested) : t.chain n = n :: (t.nodes n).parent.elim [] t.chain := by
  rw [chain, parentChain]
  cases hp : (t.nodes n).parent with
  | none => rfl
  | some p =>
    have hlt := ht.parent_lt hp
    rw [Option.elim_some, Option.elim_some, chain, ht.parentChain_eq hlt (Nat.lt_succ_self p)]

/-- A path leads to a younger namespace. -/
theorem Nested.descend_lt (ht : t.Nested) (h : t.descend n (key :: keys) = some m) : n < m := by
  induction keys generalizing n key with
  | nil =>
    obtain ⟨m', hm, h'⟩ := Option.bind_eq_some_iff.mp h
    obtain rfl := Option.some.inj h'
    exact ht.parent_lt (ht.registered hm)
  | cons key' keys ih =>
    obtain ⟨n', hn, h'⟩ := Option.bind_eq_some_iff.mp h
    exact Nat.lt_trans (ht.parent_lt (ht.registered hn)) (ih h')

/-! ## The writes -/

theorem Nested.setChild (h : t.Nested) : (t.setChild ns key data).Nested where
  parent_lt hp := h.parent_lt (setChild_parent ▸ hp)
  registered hm := by
    rw [setChild_parent]
    exact h.registered (setChild_namespaces ▸ hm)

theorem Nested.createNamespace (h : t.Nested) (hp : ∀ p, parent = some p → p < t.next)
    (hfresh : ∀ {n key m}, (t.nodes n).namespaces key = some m → m ≠ t.next) :
    (t.createNamespace parent name origin).Nested where
  parent_lt {n p} hn := by
    by_cases hnext : n = t.next
    · subst hnext
      rw [createNamespace_self hp] at hn
      exact hp p hn
    · rw [createNamespace_old hp hnext] at hn
      refine h.parent_lt (n := n) ?_
      split at hn <;> exact hn
  registered {n key m} hm := by
    have hparent : ∀ {m}, m ≠ t.next →
        ((t.createNamespace parent name origin).nodes m).parent = (t.nodes m).parent := fun hne => by
      rw [createNamespace_old hp hne]
      split <;> rfl
    by_cases hnext : n = t.next
    · subst hnext
      rw [createNamespace_self hp] at hm
      cases hm
    · rw [createNamespace_old hp hnext] at hm
      split at hm
      · next hpn =>
        simp only [Function.update_apply] at hm
        split at hm
        · cases hm
          rw [createNamespace_self hp, hpn]
        · rw [hparent (hfresh hm)]
          exact h.registered hm
      · rw [hparent (hfresh hm)]
        exact h.registered hm

/-- A namespace that is given its parent has not been registered. -/
theorem Nested.adopt (h : t.Nested) (hlt : scope < ns)
    (hfree : ∀ {n key m}, (t.nodes n).namespaces key = some m → m ≠ ns) :
    (t.adopt ns scope).Nested where
  parent_lt {n p} hp := by
    by_cases hn : n = ns
    · subst hn
      rw [adopt_self_parent] at hp
      cases hp
      exact hlt
    · rw [adopt_of_ne hn] at hp
      exact h.parent_lt hp
  registered hm := by
    rw [adopt_namespaces] at hm
    rw [adopt_of_ne (hfree hm)]
    exact h.registered hm

end Tree

/-- The trees that the parser makes are nested. -/
theorem nested_invariant : StateInvariant (fun s => s.tree.WF ∧ s.tree.Nested)
    (fun e _ => e.Final) where
  wf h := h.1
  frame h ht _ _ := ht ▸ h
  setChild h := ⟨h.1.setChild, h.2.setChild⟩
  record h := h
  device h hd ht hns hl hp := by
    refine ⟨wf_invariant.device h.1 hd ht hns hl hp,
      h.2.createNamespace (fun p e => ?_) fun hm => ?_⟩
    · exact (Aml.deviceParent_has h.1 hns (e ▸ hp)).1
    · exact Nat.ne_of_lt (h.1.child_has hm).1
  pending {s _} h := by
    have hp : ∀ p, (none : Option Nat) = some p → p < s.tree.next := by simp
    refine ⟨wf_invariant.pending h.1, h.2.createNamespace hp fun hm => ?_⟩
    exact Nat.ne_of_lt (h.1.child_has hm).1
  adopt h ho hs hlt := by
    refine ⟨h.1.adopt hs hlt, h.2.adopt hlt fun hm => ?_⟩
    rintro rfl
    exact (h.1.child_has hm).2 ho
  exit _ := trivial
  fault _ := trivial
  assertFailed _ _ := trivial
  currentIsRoot _ _ _ _ := trivial

theorem initAmlNamespaces_nested : initAmlNamespaces.Nested := by
  have step : ∀ {t : Tree} {name}, t.WF ∧ t.Nested →
      (t.createNamespace (some root) name .predefined).WF ∧
        (t.createNamespace (some root) name .predefined).Nested := fun h => by
    have hroot : ∀ p, some root = some p → _ := fun p hp => Option.some.inj hp ▸ h.1.root_has
    refine ⟨h.1.createNamespace hroot fun _ => by decide,
      h.2.createNamespace (fun p hp => (hroot p hp).1) fun hm => ?_⟩
    exact Nat.ne_of_lt (h.1.child_has hm).1
  refine (step (step (step (step (step ⟨Tree.wf_of_root, ?_⟩))))).2
  constructor
  all_goals
    intro n
    simp only [Tree.createNamespace, Function.update_apply]
    split <;> simp

/-- Whatever tables are parsed, and whatever the host answers, the tree is nested. -/
theorem parseTables_nested (hf : ∀ host ∈ hosts, host.table.length + 2 ≤ fuel) :
    Wp (Aml.parseTables fuel hosts) (fun _ s => s.tree.WF ∧ s.tree.Nested) (fun e _ => e.Final)
      initAmlState :=
  Aml.parseTables_spec nested_invariant hf ⟨initAmlNamespaces_wf, initAmlNamespaces_nested⟩

/-! ## Paths -/

/-- Where a path starts: at `root()`, at the parent of the namespace, or at the namespace itself. -/
inductive PathBase
  | root
  | parent
  | here
  deriving DecidableEq

def PathBase.lead : PathBase → List UInt8
  | .root => [rootChar]
  | .parent => [parentChar]
  | .here => []

def PathBase.start (t : Tree) (ns : Nat) : PathBase → Option Nat
  | .root => some Lethe.root
  | .parent => (t.nodes ns).parent
  | .here => some ns

theorem PathBase.start_lt {base : PathBase} {t : Tree} (ht : t.WF) (hns : ns < t.next)
    (h : base.start t ns = some n) : n < t.next := by
  cases base with
  | root => exact Option.some.inj h ▸ ht.root_has.1
  | parent => exact (ht.parent_has h).2.1
  | here => exact Option.some.inj h ▸ hns

/-- A path of one or more segments. -/
structure Path where
  base : PathBase
  scope : List NameSeg
  last : NameSeg

namespace Path

/-- The name that `locate_object` is given. -/
def inner (path : Path) : List UInt8 := path.base.lead ++ segBytes (path.scope ++ [path.last])

/-- The namespace that the path names its last segment in. -/
def scopeIn (path : Path) (t : Tree) (ns : Nat) : Option Nat :=
  (path.base.start t ns).bind fun n => t.descend n (path.scope.map NameSeg.key)

/-- What a path names, for the map that `look` selects. -/
def resolve (path : Path) (look : Lookup β) (t : Tree) (ns : Nat) : Option β :=
  if path.base = .here ∧ path.scope = [] then
    (t.chain ns).findSome? fun n => look.get (t.nodes n) path.last.key
  else (path.scopeIn t ns).bind fun n => look.get (t.nodes n) path.last.key

end Path

section
variable {look : Lookup β} {t : Tree} {segs : List NameSeg} {seg : NameSeg}

/-- `stage3` goes up the chain of parents. -/
theorem stage3_eq (ht : t.Nested) (h : n < fuel) : stage3 look t key fuel n =
    some ((t.chain n).findSome? fun m => look.get (t.nodes m) key) := by
  induction fuel generalizing n with
  | zero => exact absurd h (Nat.not_lt_zero n)
  | succ fuel ih =>
    rw [stage3, ht.chain_eq, List.findSome?_cons]
    cases look.get (t.nodes n) key with
    | some ptr => rfl
    | none =>
      cases hp : (t.nodes n).parent with
      | none => rfl
      | some p =>
        have hlt := ht.parent_lt hp
        exact ih (by omega)

theorem resolveScopeLoop_eq : resolveScopeLoop t segs.length n (segBytes segs) =
    t.descend n (segs.map NameSeg.key) := by
  induction segs generalizing n with
  | nil => rfl
  | cons seg segs ih =>
    rw [List.length_cons, resolveScopeLoop, hashKey_segBytes, List.map_cons, Tree.descend,
      Radix.follow]
    cases (t.nodes n).namespaces seg.key with
    | none => rfl
    | some m => exact ih

/-- A scope of at least one segment is not where it starts, which `resolve_scope` would take for a
failure. -/
theorem resolveScope_eq (ht : t.Nested) (hsegs : segs ≠ []) :
    resolveScope t n (segBytes segs) = t.descend n (segs.map NameSeg.key) := by
  have hmod : segs.length * keyLen % keyLen = 0 := Nat.mul_mod_left segs.length keyLen
  have hdiv : segs.length * keyLen / keyLen = segs.length :=
    Nat.mul_div_cancel segs.length (by decide)
  rw [resolveScope, segBytes_length, hmod, hdiv, resolveScopeLoop_eq, if_neg (by simp)]
  cases hm : t.descend n (segs.map NameSeg.key) with
  | none => rfl
  | some m =>
    cases segs with
    | nil => exact absurd rfl hsegs
    | cons seg segs => exact if_neg (Nat.ne_of_gt (ht.descend_lt hm))

/-- `stage2` follows the segments in front of the last. -/
theorem stage2_eq (ht : t.Nested) : stage2 look t n (segBytes (segs ++ [seg])) =
    (t.descend n (segs.map NameSeg.key)).bind fun m => look.get (t.nodes m) seg.key := by
  have hlen : (segBytes (segs ++ [seg])).length = segs.length * keyLen + keyLen := by
    rw [segBytes_length, List.length_append, List.length_singleton, Nat.succ_mul]
  by_cases hsegs : segs = []
  · subst hsegs
    rfl
  · have hpos : 0 < segs.length := List.length_pos_iff.mpr hsegs
    have hcut : segs.length * keyLen = (segBytes segs).length := segBytes_length.symm
    rw [stage2, hlen, if_neg (by simp only [keyLen]; omega), if_neg (by omega),
      Nat.add_sub_cancel, hcut, segBytes_append]
    dsimp only
    rw [List.take_left, List.drop_left, resolveScope_eq ht hsegs]
    cases t.descend n (segs.map NameSeg.key) with
    | none => rfl
    | some m => rfl

end

/-! ## `locate_object` -/

namespace Path
variable {path : Path} {look : Lookup β} {t : Tree} {behind : HashKey}

theorem length_inner : path.inner.length = path.base.lead.length + 4 * (path.scope.length + 1) := by
  rw [inner, List.length_append, segBytes_length, List.length_append, List.length_singleton,
    Nat.mul_comm]
  rfl

/-- The name, cut in front of the last segment. -/
theorem inner_cut :
    path.inner = (path.base.lead ++ segBytes path.scope) ++ path.last.key.bytes := by
  rw [inner, segBytes_append, List.append_assoc]
  rfl

theorem length_cut :
    path.inner.length - keyLen = (path.base.lead ++ segBytes path.scope).length := by
  rw [inner_cut, List.length_append]
  exact Nat.add_sub_cancel _ keyLen

theorem take_inner : path.inner.take (path.inner.length - keyLen) =
    path.base.lead ++ segBytes path.scope := by
  rw [length_cut, inner_cut, List.take_left]

theorem drop_inner : path.inner.drop (path.inner.length - keyLen) = path.last.key.bytes := by
  rw [length_cut, inner_cut, List.drop_left]

/-- With a prefix the name has one character more than its segments. -/
theorem count_inner (path : Path) (behind : HashKey) :
    AmlName.count ⟨path.inner, behind⟩ ≠ 0 ∧ AmlName.count ⟨path.inner, behind⟩ ≠ 1 ∧
    (AmlName.count ⟨path.inner, behind⟩ = keyLen ↔ path.base = .here ∧ path.scope = []) := by
  obtain ⟨base, scope, last⟩ := path
  have hlen : AmlName.count ⟨Path.inner ⟨base, scope, last⟩, behind⟩ = _ := length_inner
  rw [hlen, ← List.length_eq_zero_iff, keyLen]
  cases base <;> simp only [PathBase.lead, List.length_cons, List.length_nil] <;>
    refine ⟨by omega, by omega, ?_⟩
  · simp only [reduceCtorEq, false_and, iff_false]
    omega
  · simp only [reduceCtorEq, false_and, iff_false]
    omega
  · simp only [true_and]
    omega

theorem validName_inner : validName ⟨path.inner, behind⟩ = true := by
  obtain ⟨base, scope, last⟩ := path
  have hvalid : (segBytes (scope ++ [last])).all validChar = true := segBytes_valid
  cases base with
  | root => exact hvalid
  | parent => exact hvalid
  | here =>
    simp only [validName]
    split
    · exact List.all_eq_true.mpr fun b hb =>
        List.all_eq_true.mp hvalid b (List.mem_of_mem_drop hb)
    · exact hvalid

/-- The search, and what it leaves of the name: behind a prefix the characters are moved. -/
theorem locateObject_eq (path : Path) (look : Lookup β) (behind : HashKey) (ht : t.Nested)
    (hns : ns < t.next) :
    locateObject look t ns ⟨path.inner, behind⟩ = .ok (path.resolve look t ns,
      if path.base = .here ∨ path.base.start t ns = none then ⟨path.inner, behind⟩
      else AmlName.shift ⟨path.inner, behind⟩) := by
  obtain ⟨hcount0, hcount1, hcount⟩ := path.count_inner behind
  have hvalid : validName ⟨path.inner, behind⟩ = true := validName_inner
  rw [locateObject, if_neg hcount1, hvalid, if_neg (by simp)]
  by_cases hseg : path.base = .here ∧ path.scope = []
  · obtain ⟨base, scope, last⟩ := path
    obtain ⟨rfl, rfl⟩ := hseg
    rw [if_pos (hcount.mpr ⟨rfl, rfl⟩)]
    have hkey : hashKey (Path.inner ⟨.here, [], last⟩) = last.key := rfl
    dsimp only
    rw [hkey, stage3_eq ht hns]
    rfl
  · rw [if_neg (mt hcount.mp hseg), resolve, if_neg hseg]
    obtain ⟨base, scope, last⟩ := path
    cases base with
    | root =>
      have hc : (Path.inner ⟨.root, scope, last⟩).headD behind.c0 = rootChar := rfl
      have hdrop : (Path.inner ⟨.root, scope, last⟩).drop 1 = segBytes (scope ++ [last]) := rfl
      dsimp only
      rw [hc, if_neg (by decide), if_pos rfl, if_neg hcount0, hdrop, stage2_eq ht,
        if_neg (by simp [PathBase.start])]
      rfl
    | parent =>
      have hc : (Path.inner ⟨.parent, scope, last⟩).headD behind.c0 = parentChar := rfl
      have hdrop : (Path.inner ⟨.parent, scope, last⟩).drop 1 = segBytes (scope ++ [last]) := rfl
      dsimp only
      rw [hc, if_pos rfl, scopeIn, PathBase.start]
      cases (t.nodes ns).parent with
      | none => rfl
      | some scope =>
        dsimp only
        rw [if_neg hcount0, hdrop, stage2_eq ht, if_neg (by simp)]
        rfl
    | here =>
      obtain ⟨seg, segs, hsegs⟩ : ∃ seg segs, scope ++ [last] = seg :: segs :=
        List.exists_cons_of_ne_nil (by simp)
      have hinner : Path.inner ⟨.here, scope, last⟩ = segBytes (scope ++ [last]) := rfl
      have hc : (Path.inner ⟨.here, scope, last⟩).headD behind.c0 = seg.key.c0 := by
        rw [hinner, hsegs]
        rfl
      obtain ⟨hroot, hparent, -⟩ := validChar_not_lead seg.validChar_c0
      dsimp only
      rw [hc, if_neg hparent, if_neg hroot, hinner, stage2_eq ht, if_pos (.inl rfl)]
      rfl

/-- On every tree of namespaces `locate_object` gives what the path names, and changes nothing. -/
theorem locateObject_resolves (path : Path) (look : Lookup β) (s : AmlState) (ns : Nat)
    (behind : HashKey) (ht : s.tree.Nested) (hns : ns < s.tree.next) :
    ∃ name, Aml.ask (fun t => locateObject look t ns ⟨path.inner, behind⟩) s =
      .ok (path.resolve look s.tree ns, name) s := by
  simp only [Aml.ask, locateObject_eq path look behind ht hns]
  exact ⟨_, rfl⟩

/-- `_SB_` as seen from `_PR_`. -/
theorem locateObject_resolves_predefined :
    ∃ name, Aml.ask (fun t => locateObject .namespaces t 2 ⟨[0x5F, 0x53, 0x42, 0x5F], ⟨0, 0, 0, 0⟩⟩)
      initAmlState = .ok (some 3, name) initAmlState := by
  let path : Path := ⟨.here, [], ⟨keyOfChars '_' 'S' 'B' '_', by decide⟩⟩
  have hresolve : path.resolve .namespaces initAmlState.tree 2 = some 3 := by decide
  have h := locateObject_resolves path .namespaces initAmlState 2 ⟨0, 0, 0, 0⟩
    initAmlNamespaces_nested (by decide)
  rwa [hresolve] at h

end Path

end Lethe
