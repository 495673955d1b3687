import Lethe.Aml.Resolution

/-!
# Declared objects

A Name, OperationRegion, Mutex, Alias or Method term registers one object under one key of one
namespace. `Declaration` has the bytes of such a term, up to the data object of a Name term and the
arguments of an OperationRegion, which are what `parse_data_object` and `term_arg_to_int` make of
the bytes that follow.
-/

namespace Lethe

/-! ## Names of paths -/

def PathBase.nameLead : PathBase → NameLead
  | .root => .root
  | .parent => .parents 1
  | .here => .parents 0

/-- The name in the table that is parsed to the path, whatever form its segments are given in. -/
def NameString.Names (n : NameString) (path : Path) : Prop :=
  n.lead = path.base.nameLead ∧ n.path.segs = path.scope ++ [path.last]

theorem NameString.Names.inner {n : NameString} {path : Path} (h : n.Names path) :
    n.inner = path.inner := by
  obtain ⟨base, scope, last⟩ := path
  rw [NameString.inner, Path.inner, h.1, h.2]
  cases base <;> rfl

theorem NameString.Names.lead_length {n : NameString} {path : Path} (h : n.Names path) :
    n.lead.encode.length ≤ 1 := by
  obtain ⟨base, scope, last⟩ := path
  rw [h.1]
  cases base <;> simp [PathBase.nameLead, NameLead.encode]

/-- The path of a single segment. -/
def NameSeg.path (seg : NameSeg) : Path := ⟨.here, [], seg⟩

/-- A segment that is bound in the namespace itself. -/
theorem NameSeg.resolve_of_bound (look : Lookup β) {t : Tree} {seg : NameSeg} (ht : t.Nested)
    (h : look.get (t.nodes ns) seg.key = some v) : seg.path.resolve look t ns = some v := by
  rw [Path.resolve, if_pos ⟨rfl, rfl⟩, ht.chain_eq]
  exact List.findSome?_cons_of_isSome (by simp [NameSeg.path, h]) |>.trans h

/-! ## Declarations -/

inductive Declaration
  | name (n : NameString) (seg : NameSeg)
  | opRegion (n : NameString) (seg : NameSeg) (space : UInt8)
  | mutex (n : NameString) (seg : NameSeg) (syncFlags : UInt8)
  | aliasOp (source alias_ : NameString) (sourceSeg aliasSeg : NameSeg)
  | method (w : Nat) (n : NameString) (path : Path) (flags : UInt8) (body : List UInt8)

namespace Declaration

def encode : Declaration → List UInt8
  | name n _ => 0x08 :: n.encode
  | opRegion n _ space => 0x5B :: 0x80 :: (n.encode ++ [space])
  | mutex n _ syncFlags => 0x5B :: 0x01 :: (n.encode ++ [syncFlags])
  | aliasOp source alias_ _ _ => 0x06 :: (source.encode ++ alias_.encode)
  | method w n _ flags body => 0x14 :: encodePkg w (n.encode ++ flags :: body)

def WF : Declaration → Prop
  | name n seg => n.Names seg.path
  | opRegion n seg _ => n.Names seg.path
  | mutex n seg _ => n.Names seg.path
  | aliasOp source alias_ sourceSeg aliasSeg => source.Names sourceSeg.path ∧
    alias_.Names aliasSeg.path
  | method w n path flags body => n.Names path ∧ PkgOk w (n.encode ++ flags :: body)

/-- The declared segment. -/
def key : Declaration → HashKey
  | name _ seg => seg.key
  | opRegion _ seg _ => seg.key
  | mutex _ seg _ => seg.key
  | aliasOp _ _ _ aliasSeg => aliasSeg.key
  | method _ _ path _ _ => path.last.key

end Declaration

/-- The state in which the term at the cursor of `ns` has been entered and its name read; the cursor
is at `p`. -/
def AmlState.named (s : AmlState) (ns p : Nat) : AmlState :=
  ((s.emit (.enter (s.code ns))).setCode ns p).tick

/-- The namespace that a Method term in `ns` designates: for a name of one segment that of its
prefix, and for a longer path the one that is located by the part in front of the last segment. -/
def Path.Designates (path : Path) (t : Tree) (ns target : Nat) : Prop :=
  if path.scope = [] then path.base.start t ns = some target
  else ∃ name, locateObject .namespaces t ns { inner := path.base.lead ++ segBytes path.scope } =
    .ok (some target, name)

/-- A designated namespace is one of the tree. -/
theorem Path.Designates.lt {path : Path} {t : Tree} (h : path.Designates t ns target) (ht : t.WF)
    (hns : ns < t.next) :
    target < t.next := by
  unfold Path.Designates at h
  split at h
  · exact PathBase.start_lt ht hns h
  · obtain ⟨name, h⟩ := h
    have hchild : ∀ {n key m}, (t.nodes n).namespaces key = some m → m < t.next :=
      fun hm => (ht.child_has hm).1
    exact locateObject_found (P := fun n => n < t.next) hchild ht.root_has.1 h

/-- The term at `c` declares the object `obj` in the namespace `target`. -/
def Declaration.Means (host : AmlHost) (fuel : Nat) (s : AmlState) (ns c target : Nat)
    (obj : AmlPtr) :
    Declaration → Prop
  | .name n seg => target = ns ∧ ∃ data s',
      Aml.parseDataObject host fuel ns (s.named ns (c + 1 + n.encode.length)) = .ok data s' ∧
      obj = .name { label := seg.key, data }
  | .opRegion n seg space => target = ns ∧ ∃ offset len s₁ s₂,
      Aml.termArgToInt host fuel ns (s.named ns (c + 2 + n.encode.length + 1)) = .ok offset s₁ ∧
      Aml.termArgToInt host fuel ns s₁ = .ok len s₂ ∧
      obj = .region { name := seg.key, regionSpace := space, offset, len }
  | .mutex _ seg syncFlags => target = ns ∧ obj = .mutex { name := seg.key, syncFlags }
  | .aliasOp _ _ sourceSeg _ => target = ns ∧ sourceSeg.path.resolve .children s.tree ns = some obj
  | .method w n path flags body => path.Designates s.tree ns target ∧ obj = .method {
      name := path.last.key, flags, len := body.length, code := c + 1 + w + n.encode.length + 1
      scope := s.tree.next }

/-- In `t'`, `key` is bound to `obj` in the namespace `target`, and every other binding is that of
`t`. -/
def Tree.Declares (t t' : Tree) (target : Nat) (key : HashKey) (obj : AmlPtr) : Prop :=
  (t'.nodes target).children key = some obj ∧
    ∀ n < t.next, ∀ k, ¬(n = target ∧ k = key) → (t'.nodes n).children k = (t.nodes n).children k

/-- The key that `def_mutex` registers a mutex under. -/
def mutexKey : HashKey := ⟨4, 0, 0, 0⟩

/-- The declarations that do what they mean: a mutex only if the tree already has both it and the
entry that is made, and an alias if its source is an object of the namespace itself. -/
def Declaration.Supported (t : Tree) (ns : Nat) : Declaration → Prop
  | .mutex _ seg syncFlags =>
    (t.nodes ns).children seg.key = some (.mutex { name := seg.key, syncFlags }) ∧
      (t.nodes ns).children mutexKey = some (.mutex { name := mutexKey, syncFlags })
  | .aliasOp _ _ sourceSeg _ => ((t.nodes ns).children sourceSeg.key).isSome
  | _ => True

/-- The key of a mutex is no segment. -/
theorem NameSeg.key_ne_mutexKey (seg : NameSeg) : seg.key ≠ mutexKey := by
  intro h
  have hc := seg.validChar_c0
  rw [h] at hc
  exact absurd hc (by decide)

theorem Tree.declares_setChild {t : Tree} : t.Declares (t.setChild ns key obj) ns key obj := by
  refine ⟨?_, fun n _ k hne => ?_⟩
  · rw [setChild_children, if_pos ⟨rfl, rfl⟩]
  · rw [setChild_children, if_neg hne]

/-! ## Names of one segment -/

namespace Aml

variable {host : AmlHost} {s : AmlState} {ns c p fuel : Nat} {E : AmlStop → AmlState → Prop}
  {parse : Nat → Nat → Nat → Aml Unit} {seg : NameSeg}

theorem wp_segName {f : AmlName → Aml α} {n : NameString} (hn : n.Names seg.path) (hfuel : 2 ≤ fuel)
    (hat : host.ReadsAt c n.encode) (hc : s.code ns = c)
    (hf : ∀ v : AmlName, v.count = keyLen → v.key = seg.key → v.lastKey = seg.key →
      Wp (f v) Q E ((s.setCode ns (c + n.encode.length)).tick)) :
    Wp (parseNamestring host fuel ns >>= f) Q E s := by
  have hlead := hn.lead_length
  refine Wp.bind (parseNamestring_eq (.of_lt (by omega)) hat hc) ?_
  rintro ⟨_, behind⟩ _ ⟨rfl, rfl⟩
  rw [hn.inner] at *
  exact hf _ rfl rfl rfl

/-- What holds of the tree at the end of a run that is known. -/
theorem wp_tree {x : Aml α} {P : Tree → Prop}
    (h : Wp x (fun _ s' => s'.tree = t) (fun _ _ => False) s) :
    Wp x (fun _ s' => P s'.tree) (fun _ _ => False) s ↔ P t := by
  obtain ⟨a, s', hok, rfl⟩ := wp_returns.mp h
  exact wp_of_ok hok

theorem unimplemented_count {v : AmlName} (h : v.count = keyLen) :
    unimplemented (v.count != keyLen) = pure () := by
  rw [h]
  rfl

theorem Advances.tree (h : Advances ns s s') : s'.tree = s.tree := by
  obtain ⟨p, h⟩ := h
  exact h.tree

/-! ## The handlers -/

section
variable {n : NameString} (hn : n.Names seg.path) (hfuel : 2 ≤ fuel)
include hn hfuel

theorem defName_tree (hat : host.ReadsAt c n.encode) (hc : s.code ns = c)
    (hdata :
      parseDataObject host fuel ns ((s.setCode ns (c + n.encode.length)).tick) = .ok data s') :
    Wp (defName host fuel ns)
      (fun _ s' => s'.tree = s.tree.setChild ns seg.key (.name { label := seg.key, data }))
      (fun _ _ => False) s := by
  rw [defName]
  refine wp_segName hn hfuel hat hc fun v hcount _ hkey => ?_
  have htree : s'.tree = s.tree := (advances_parseDataObject.of_ok hdata).tree
  rw [unimplemented_count hcount, pure_bind, wp_bind, wp_of_ok hdata, addChildToNamespace,
    wp_writeTree, hkey, htree]
  rfl

theorem defOpRegion_tree (hat : host.ReadsAt c (n.encode ++ [space])) (hc : s.code ns = c)
    (hoffset :
      termArgToInt host fuel ns ((s.setCode ns (c + n.encode.length + 1)).tick) = .ok offset s₁)
    (hlen : termArgToInt host fuel ns s₁ = .ok len s₂) :
    Wp (defOpRegion host fuel ns)
      (fun _ s' => s'.tree = s.tree.setChild ns seg.key
        (.region { name := seg.key, regionSpace := space, offset, len }))
      (fun _ _ => False) s := by
  obtain ⟨hat₁, hat₂⟩ := readsAt_append.mp hat
  rw [defOpRegion]
  refine wp_segName hn hfuel hat₁ hc fun v hcount _ hkey => ?_
  have hnamed : ((s.setCode ns (c + n.encode.length)).tick).code ns = c + n.encode.length :=
    Advanced.setCode.code
  have hstate : ((s.setCode ns (c + n.encode.length)).tick).setCode ns (c + n.encode.length + 1) =
      (s.setCode ns (c + n.encode.length + 1)).tick := by
    change ((s.setCode ns (c + n.encode.length)).setCode ns (c + n.encode.length + 1)).tick = _
    rw [setCode_setCode]
  have htree : s₂.tree = s.tree := (advances_termArgToInt.of_ok hlen).tree.trans
    (advances_termArgToInt.of_ok hoffset).tree
  rw [unimplemented_count hcount, pure_bind, wp_bind,
    wp_nextByte_of (readsAt_cons.mp hat₂).1 hnamed, hstate, wp_bind, wp_of_ok hoffset, wp_bind,
    wp_of_ok hlen, addChildToNamespace, wp_writeTree, hkey, htree]
  rfl

/-- The bytes of the name are not used. -/
theorem defMutex_tree (hat : host.ReadsAt c (n.encode ++ [syncFlags])) (hc : s.code ns = c) :
    Wp (defMutex host fuel ns)
      (fun _ s' => s'.tree = s.tree.setChild ns mutexKey (.mutex { name := mutexKey, syncFlags }))
      (fun _ _ => False) s := by
  obtain ⟨hat₁, hat₂⟩ := readsAt_append.mp hat
  rw [defMutex]
  refine wp_segName hn hfuel hat₁ hc fun v hcount _ hkey => ?_
  have hnamed : ((s.setCode ns (c + n.encode.length)).tick).code ns = c + n.encode.length :=
    Advanced.setCode.code
  rw [unimplemented_count hcount, pure_bind]
  dsimp only
  rw [wp_bind, wp_nextByte_of (readsAt_cons.mp hat₂).1 hnamed, addChildToNamespace, wp_writeTree]
  rfl

end

/-- The source is looked up in the namespace itself. -/
theorem defAlias_tree {source alias_ : NameString} {sourceSeg aliasSeg : NameSeg}
    (hsource : source.Names sourceSeg.path) (halias : alias_.Names aliasSeg.path) (hfuel : 2 ≤ fuel)
    (hat : host.ReadsAt c (source.encode ++ alias_.encode)) (hc : s.code ns = c)
    (href : (s.tree.nodes ns).children sourceSeg.key = ref)
    (hQ : ∀ s' : AmlState, s'.tree = s.tree → Wp (do
      let ref ← orExit ref
      addChildToNamespace ns aliasSeg.key ref) Q E s') : Wp (defAlias host fuel ns) Q E s := by
  obtain ⟨hat₁, hat₂⟩ := readsAt_append.mp hat
  rw [defAlias]
  refine wp_segName hsource hfuel hat₁ hc fun v hcount hkey _ => ?_
  refine wp_segName halias hfuel hat₂ Advanced.setCode.code fun v' hcount' hkey' _ => ?_
  rw [unimplemented_count hcount, pure_bind, unimplemented_count hcount', pure_bind, wp_bind,
    wp_ask_ok, hkey, hkey']
  subst href
  exact hQ _ rfl

/-! ## Methods -/

section
variable {path : Path} {t : Tree}

/-- The scope is searched for in the tree that has got the namespace of the method already. -/
theorem methodScope_designates {v : AmlName} (hv : v.inner = path.inner) (ht : t.WF)
    (hns : ns < t.next) (hd : path.Designates t ns target) (hnext : t.next ≤ s.tree.next)
    (hnodes : ∀ n < t.next, s.tree.nodes n = t.nodes n) :
    Wp (methodScope ns v) (fun scope s' => s' = s ∧ scope = target) E s := by
  have hlen := path.length_inner
  have hcount : v.count = path.inner.length := congrArg List.length hv
  have hkey : keyLen = 4 := rfl
  rw [methodScope, hcount, hv]
  rw [Path.Designates] at hd
  by_cases hscope : path.scope = []
  · rw [if_pos hscope] at hd
    obtain ⟨base, scope, last⟩ := path
    obtain rfl := hscope
    cases base with
    | root =>
      have hhead : (Path.inner ⟨.root, [], last⟩).head? = some rootChar := rfl
      rw [if_pos (.inr rfl), if_pos hhead]
      exact ⟨rfl, Option.some.inj hd⟩
    | parent =>
      have hparent : (s.tree.nodes ns).parent = some target := (hnodes ns hns).symm ▸ hd
      have hhead : (Path.inner ⟨.parent, [], last⟩).head? = some parentChar := rfl
      rw [if_pos (.inr rfl), hhead, if_neg (by decide), if_pos rfl, wp_bind, wp_ask_ok, hparent]
      exact ⟨rfl, rfl⟩
    | here =>
      obtain ⟨hroot, hparent, -⟩ := validChar_not_lead last.validChar_c0
      have hhead : (Path.inner ⟨.here, [], last⟩).head? = some last.key.c0 := rfl
      rw [if_pos (.inl rfl), hhead, if_neg (mt Option.some.inj hroot),
        if_neg (mt Option.some.inj hparent)]
      exact ⟨rfl, Option.some.inj hd⟩
  · rw [if_neg hscope] at hd
    have hpos : 0 < path.scope.length := List.length_pos_iff.mpr hscope
    obtain ⟨name, hd⟩ := hd
    have hlead : path.base.lead.length ≤ 1 := by
      cases path.base <;> simp [PathBase.lead]
    rw [if_neg (by omega), if_neg (by omega), Path.take_inner, wp_bind]
    dsimp only
    rw [wp_ask_of_ok (locateObject_grow ht hnext hnodes hns hd)]
    exact ⟨rfl, rfl⟩

/-- The tree that a Method term leaves: its own namespace is added, and the object registered. -/
theorem defMethod_tree {n : NameString} {method : AmlMethod} (hn : n.Names path)
    (hok : PkgOk w (n.encode ++ flags :: body)) (hfuel : 2 ≤ fuel)
    (hat : host.ReadsAt c (encodePkg w (n.encode ++ flags :: body))) (hc : s.code ns = c)
    (ht : s.tree.WF) (hns : ns < s.tree.next) (hd : path.Designates s.tree ns target)
    (hmethod : method = { name := path.last.key, flags, len := body.length
                          code := c + w + n.encode.length + 1, scope := s.tree.next }) :
    Wp (defMethod host fuel ns) (fun _ s' => s'.tree =
        ((s.tree.createNamespace none path.last.key .pending).setChild target path.last.key
          (.method method)).adopt s.tree.next target) (fun _ _ => False) s := by
  obtain ⟨hlen, hcontent⟩ := readsAt_pkg hok hat
  obtain ⟨hname, hat₁⟩ := readsAt_append.mp hcontent
  obtain ⟨hflags, -⟩ := readsAt_cons.mp hat₁
  have hlead := hn.lead_length
  simp only [defMethod, wp_bind, wp_code, hc]
  refine (takes_parseLength hok hlen hc).mono ?_ fun _ _ => id
  rintro _ s₁ ⟨rfl, h₁⟩
  refine Wp.bind (parseNamestring_reads (.of_lt (by omega)) hname h₁.code) ?_
  rintro v s₂ ⟨hv, h₂⟩
  rw [hn.inner] at hv
  refine (takes_nextByte hflags h₂.code).bind fun s₃ h₃ => ?_
  have htree : s₃.tree = s.tree := (h₁.trans (h₂.trans h₃)).tree
  have hcount : ¬v.count < keyLen := by
    have hlen : v.count = _ := (congrArg List.length hv).trans path.length_inner
    rw [hlen, keyLen]
    omega
  have hkey : v.lastKey = path.last.key := by
    rw [AmlName.lastKey, AmlName.count, hv, Path.drop_inner]
    rfl
  simp only [wp_bind, wp_code, h₃.code, wp_uninit, methodLen_eq hok, createNamespace, wp_ask_ok,
    wp_writeTree, wp_setCode, wp_pure, if_neg hcount, hkey]
  have hnone : ∀ p, (none : Option Nat) = some p → p < s.tree.next := by simp
  refine (methodScope_designates hv ht hns hd ?_ fun n hn => ?_).mono ?_ fun _ _ => id
  · change s.tree.next ≤ (s₃.tree.createNamespace none path.last.key .pending).next
    rw [htree, Tree.createNamespace_next]
    exact Nat.le_succ _
  · change (s₃.tree.createNamespace none path.last.key .pending).nodes n = s.tree.nodes n
    rw [htree, Tree.createNamespace_old hnone (Nat.ne_of_lt hn), if_neg (by simp)]
  · rintro _ _ ⟨rfl, rfl⟩
    subst hmethod
    have htree' : s₃.tick.tree = s.tree := htree
    rw [htree']
    rfl

/-- Neither the new namespace nor its parent link is a binding. -/
theorem declares_method (hns : target < t.next) :
    t.Declares (((t.createNamespace none key .pending).setChild target key obj).adopt t.next target)
      target key obj := by
  have hnone : ∀ p, (none : Option Nat) = some p → p < t.next := by simp
  have hchildren : ∀ n < t.next, ∀ k,
      ((((t.createNamespace none key .pending).setChild target key obj).adopt t.next target).nodes
        n).children k = if n = target ∧ k = key then some obj else (t.nodes n).children k := by
    intro n hn k
    have hold : (t.createNamespace none key .pending).nodes n = t.nodes n := by
      rw [Tree.createNamespace_old hnone (Nat.ne_of_lt hn), if_neg (by simp)]
    rw [Tree.adopt_of_ne (Nat.ne_of_lt hn), Tree.setChild_children, hold]
  refine ⟨?_, fun n hn k hne => ?_⟩
  · rw [hchildren target hns, if_pos ⟨rfl, rfl⟩]
  · rw [hchildren n hn, if_neg hne]

end

/-! ## Declarations -/

/-- The entry that `def_mutex` makes is the declared binding only if nothing changes by it. -/
theorem declares_mutex_iff {t : Tree} (hns : ns < t.next) :
    t.Declares (t.setChild ns mutexKey (.mutex { name := mutexKey, syncFlags })) ns seg.key
        (.mutex { name := seg.key, syncFlags }) ↔
      (t.nodes ns).children seg.key = some (.mutex { name := seg.key, syncFlags }) ∧
        (t.nodes ns).children mutexKey = some (.mutex { name := mutexKey, syncFlags }) := by
  have hne := seg.key_ne_mutexKey
  constructor
  · rintro ⟨hkey, hrest⟩
    rw [Tree.setChild_children, if_neg fun h => hne h.2] at hkey
    have hmutex := hrest ns hns mutexKey fun h => hne h.2.symm
    rw [Tree.setChild_children, if_pos ⟨rfl, rfl⟩] at hmutex
    exact ⟨hkey, hmutex.symm⟩
  · rintro ⟨hkey, hmutex⟩
    refine ⟨?_, fun n _ k _ => ?_⟩
    · rw [Tree.setChild_children, if_neg fun h => hne h.2, hkey]
    · rw [Tree.setChild_children]
      split
      · next h => rw [h.1, h.2, hmutex]
      · rfl

/-- What the source denotes is declared only if the source is bound in the namespace itself. -/
theorem defAlias_declares_iff {source alias_ : NameString} {sourceSeg aliasSeg : NameSeg}
    (hsource : source.Names sourceSeg.path) (halias : alias_.Names aliasSeg.path) (hfuel : 2 ≤ fuel)
    (hat : host.ReadsAt c (source.encode ++ alias_.encode)) (hc : s.code ns = c)
    (ht : s.tree.Nested) (hresolve : sourceSeg.path.resolve .children s.tree ns = some obj) :
    Wp (defAlias host fuel ns) (fun _ s' => s.tree.Declares s'.tree ns aliasSeg.key obj)
        (fun _ _ => False) s ↔ ((s.tree.nodes ns).children sourceSeg.key).isSome := by
  cases href : (s.tree.nodes ns).children sourceSeg.key with
  | some ref =>
    rw [NameSeg.resolve_of_bound .children ht href] at hresolve
    obtain rfl := Option.some.inj hresolve
    refine iff_of_true (defAlias_tree hsource halias hfuel hat hc href fun s' htree => ?_) rfl
    rw [orExit, pure_bind, addChildToNamespace, wp_writeTree, htree]
    exact Tree.declares_setChild
  | none =>
    refine iff_of_false (Wp.not_returns (E := fun _ _ => True) ?_) (by simp)
    exact defAlias_tree hsource halias hfuel hat hc href fun s' _ => trivial

/-- `parse_next` on a declaration binds the declared segment to the declared object, and no other
key to anything else, exactly if the term is supported. -/
theorem parseNext_declares_iff (host : AmlHost) (parse : Nat → Nat → Nat → Aml Unit)
    (d : Declaration) (s : AmlState) (ns c : Nat) (hwf : d.WF) (ht : s.tree.WF)
    (hnested : s.tree.Nested) (hns : ns < s.tree.next) (hat : host.ReadsAt c d.encode)
    (hc : s.code ns = c) :
    ∃ bound, ∀ fuel, bound ≤ fuel → ∀ target obj, d.Means host fuel s ns c target obj →
      (Wp (parseNext host parse fuel ns) (fun _ s' => s.tree.Declares s'.tree target d.key obj)
        (fun _ _ => False) s ↔ d.Supported s.tree ns) := by
  refine ⟨2, fun fuel hfuel target obj hd => ?_⟩
  have hnamed : ∀ {p q}, (((s.emit (.enter c)).setCode ns q).setCode ns p).tick = s.named ns p := by
    intro p q
    rw [setCode_setCode, AmlState.named, hc]
  cases d with
  | name n seg =>
    obtain ⟨rfl, data, s', hdata, rfl⟩ := hd
    obtain ⟨hop, hname⟩ := readsAt_cons.mp hat
    rw [← hnamed (q := c + 1)] at hdata
    refine iff_of_true ?_ trivial
    rw [wp_parseNext_op hop (by decide) hc]
    refine (defName_tree hwf hfuel hname Advanced.setCode.code hdata).mono ?_ fun _ _ => id
    intro _ s'' htree
    rw [htree]
    exact Tree.declares_setChild
  | opRegion n seg space =>
    obtain ⟨rfl, offset, len, s₁, s₂, hoffset, hlen, rfl⟩ := hd
    obtain ⟨hop, hname⟩ := readsAt_ext.mp hat
    rw [← hnamed (q := c + 2)] at hoffset
    refine iff_of_true ?_ trivial
    rw [wp_parseNext_ext hop hc]
    refine (defOpRegion_tree hwf hfuel hname Advanced.setCode.code hoffset hlen).mono ?_
      fun _ _ => id
    intro _ s'' htree
    rw [htree]
    exact Tree.declares_setChild
  | mutex n seg syncFlags =>
    obtain ⟨rfl, rfl⟩ := hd
    obtain ⟨hop, hname⟩ := readsAt_ext.mp hat
    rw [wp_parseNext_ext hop hc]
    have hterm : ((s.emit (.enter c)).setCode target (c + 2)).code target = c + 2 :=
      Advanced.setCode.code
    exact (wp_tree
      (P := fun t => s.tree.Declares t target seg.key (.mutex { name := seg.key, syncFlags }))
      (defMutex_tree hwf hfuel hname hterm)).trans (declares_mutex_iff hns)
  | aliasOp source alias_ sourceSeg aliasSeg =>
    obtain ⟨rfl, hresolve⟩ := hd
    obtain ⟨hop, hnames⟩ := readsAt_cons.mp hat
    rw [wp_parseNext_op hop (by decide) hc]
    have hterm : ((s.emit (.enter c)).setCode target (c + 1)).code target = c + 1 :=
      Advanced.setCode.code
    exact defAlias_declares_iff hwf.1 hwf.2 hfuel hnames hterm hnested hresolve
  | method w n path flags body =>
    obtain ⟨hdesignates, rfl⟩ := hd
    obtain ⟨hop, hpkg⟩ := readsAt_cons.mp hat
    refine iff_of_true ?_ trivial
    rw [wp_parseNext_op hop (by decide) hc]
    have hterm : ((s.emit (.enter c)).setCode ns (c + 1)).code ns = c + 1 := Advanced.setCode.code
    refine (defMethod_tree hwf.1 hwf.2 hfuel hpkg hterm ht hns hdesignates rfl).mono ?_
      fun _ _ => id
    intro _ s'' htree
    rw [htree]
    exact declares_method (hdesignates.lt ht hns)

/-- `_TZ_`. -/
def tzSeg : NameSeg := ⟨keyOfChars '_' 'T' 'Z' '_', by decide⟩

/-- `MUTX`. -/
def mutxSeg : NameSeg := ⟨keyOfChars 'M' 'U' 'T' 'X', by decide⟩

/-- `Mutex (MUTX, 0)`. -/
def mutxDeclaration : Declaration := .mutex ⟨.parents 0, .seg mutxSeg⟩ mutxSeg 0

def mutxHost : AmlHost where
  table := mutxDeclaration.encode
  uninit _ _ := 0
  readMem _ _ _ := none
  readIo _ _ _ := 0

def mutxObject : AmlPtr := .mutex { name := mutxSeg.key, syncFlags := 0 }

/-- `Method (\_TZ.MUTX, 1) { Return (One) }`. -/
def methodDeclaration : Declaration :=
  .method 1 ⟨.root, .dual tzSeg mutxSeg⟩ ⟨.root, [tzSeg], mutxSeg⟩ 1 [0xA4, 0x01]

def methodHost : AmlHost where
  table := methodDeclaration.encode
  uninit _ _ := 0
  readMem _ _ _ := none
  readIo _ _ _ := 0

def methodObject : AmlPtr :=
  .method { name := mutxSeg.key, flags := 1, len := 2, code := 13, scope := 6 }

theorem parseNext_declares_iff_mutx : (∃ bound, ∀ fuel, bound ≤ fuel →
      (Wp (parseNext mutxHost (parseTermlist mutxHost 16) fuel root)
        (fun _ s' => initAmlNamespaces.Declares s'.tree root mutxSeg.key mutxObject)
        (fun _ _ => False) initAmlState ↔ mutxDeclaration.Supported initAmlNamespaces root)) ∧
    ∃ bound, ∀ fuel, bound ≤ fuel →
      Wp (parseNext methodHost (parseTermlist methodHost 16) fuel root)
        (fun _ s' => initAmlNamespaces.Declares s'.tree 5 mutxSeg.key methodObject)
        (fun _ _ => False) initAmlState := by
  constructor
  · obtain ⟨bound, h⟩ := parseNext_declares_iff mutxHost (parseTermlist mutxHost 16) mutxDeclaration
      initAmlState root 0 ⟨rfl, rfl⟩ initAmlNamespaces_wf initAmlNamespaces_nested (by decide)
      (List.prefix_refl _) rfl
    exact ⟨bound, fun fuel hfuel => h fuel hfuel root mutxObject ⟨rfl, rfl⟩⟩
  · obtain ⟨bound, h⟩ := parseNext_declares_iff methodHost (parseTermlist methodHost 16)
      methodDeclaration initAmlState root 0 ⟨⟨rfl, rfl⟩, .inl ⟨rfl, by decide⟩⟩ initAmlNamespaces_wf
      initAmlNamespaces_nested (by decide) (List.prefix_refl _) rfl
    have hmeans : methodDeclaration.Means methodHost bound initAmlState root 0 5 methodObject :=
      ⟨⟨_, rfl⟩, rfl⟩
    exact ⟨bound, fun fuel hfuel => (h fuel hfuel 5 methodObject hmeans).mpr trivial⟩

/-- The mutex is not found under its name. -/
theorem mutx_lost : mutxDeclaration.Means mutxHost 16 initAmlState root 0 root mutxObject ∧
    ¬Wp (parseNext mutxHost (parseTermlist mutxHost 16) 16 root)
      (fun _ s' => initAmlNamespaces.Declares s'.tree root mutxSeg.key mutxObject)
      (fun _ _ => False) initAmlState := by
  have hrun : (match parseNext mutxHost (parseTermlist mutxHost 16) 16 root initAmlState with
      | .ok _ s' => ((s'.tree.nodes root).children mutxSeg.key).isSome
      | .error _ _ => true) = false := by decide
  refine ⟨⟨rfl, rfl⟩, fun h => ?_⟩
  obtain ⟨_, s', hok, hfound, -⟩ := wp_returns.mp h
  rw [hok] at hrun
  simp only [hfound, Option.isSome_some, Bool.true_eq_false] at hrun

end Aml

end Lethe
