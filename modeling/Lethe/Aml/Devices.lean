import Lethe.Aml.Declarations
import Lethe.Aml.NamespaceTree

/-!
# Device terms

`def_device` looks for the namespace that it opens with `locate_object`, which goes on to the
ancestors for a single segment, and which moves the characters behind a prefix. `Path.openDevice` is
what comes of that, and `parseNext_opensDevice_iff` has the names for which it is the child of the
designated namespace.
-/

namespace Lethe

/-- `device` is the child of `P` under `key`; if there was none it is a new namespace with that name
and parent. All other entries are those of `t`. -/
structure Tree.Opens (t t' : Tree) (P : Nat) (key : HashKey) (device : Nat) : Prop where
  child : (t'.nodes P).namespaces key = some device
  created : (t.nodes P).namespaces key = none →
    t.next ≤ device ∧ t'.Up device P ∧ (t'.nodes device).name = key
  others : ∀ n < t.next, ∀ k, ¬(n = P ∧ k = key) →
    (t'.nodes n).namespaces k = (t.nodes n).namespaces k
  existing : ∀ d, (t.nodes P).namespaces key = some d → d = device

/-- The last four bytes of a name whose characters have been moved. -/
def HashKey.moved (key : HashKey) : HashKey := ⟨key.c1, key.c2, key.c3, key.c3⟩

/-- The namespace that `def_device` parses the body in, and the tree it leaves for that. -/
def Path.openDevice (path : Path) (t : Tree) (ns : Nat) : Nat × Tree :=
  match path.resolve .namespaces t ns with
  | some device => (device, t)
  | none =>
    if path.base = .here then
      (t.next, t.createNamespace (path.scopeIn t ns) path.last.key .device)
    else
      let parent := if path.scope = [] then some root else none
      (t.next, t.createNamespace parent path.last.key.moved .device)

/-- A child that is not there is made in its place: the term has no prefix, and if it has a single
segment no ancestor has such a child; or the segment is that of a child of `root()`, and its four
characters are equal. -/
def Path.Placed (path : Path) (t : Tree) (ns P : Nat) : Prop :=
  let key := path.last.key
  (t.nodes P).namespaces key = none →
    if path.base = .here then
      path.scope = [] → ∀ m ∈ t.chain ns, (t.nodes m).namespaces key = none
    else path.scope = [] ∧ P = root ∧ key.c0 = key.c1 ∧ key.c1 = key.c2 ∧ key.c2 = key.c3

/-! ## The name after the search -/

namespace Path
variable {path : Path} {t : Tree} {behind : HashKey}

theorem shift_inner (behind : HashKey) (hbase : path.base ≠ .here) :
    (AmlName.shift ⟨path.inner, behind⟩).inner =
    segBytes path.scope ++ path.last.key.c0 :: path.last.key.moved.bytes := by
  obtain ⟨base, scope, last⟩ := path
  obtain ⟨c, hlead⟩ : ∃ c, base.lead = [c] := by
    cases base with
    | root => exact ⟨_, rfl⟩
    | parent => exact ⟨_, rfl⟩
    | here => exact absurd rfl hbase
  obtain ⟨⟨c0, c1, c2, c3⟩, -⟩ := last
  let front := c :: (segBytes scope ++ [c0, c1, c2])
  have hinner : Path.inner ⟨base, scope, ⟨⟨c0, c1, c2, c3⟩, ‹_›⟩⟩ = front ++ [c3] := by
    rw [Path.inner, hlead, segBytes_append]
    simp [front, segBytes, HashKey.bytes]
  have hcount : AmlName.count ⟨front ++ [c3], behind⟩ - 1 = front.length := by simp [AmlName.count]
  rw [AmlName.shift, hinner, hcount, List.drop_left]
  simp [front, HashKey.moved, HashKey.bytes]

theorem trimName_key : (trimName ⟨path.inner, behind⟩).key = path.last.key := by
  have hcount : AmlName.count ⟨path.inner, behind⟩ = path.inner.length := rfl
  have hcut := path.inner_cut
  rw [trimName, hcount, path.drop_inner]
  split
  · next hle =>
    have hlen := path.length_inner
    have hnil : path.base.lead ++ segBytes path.scope = [] := by
      refine List.eq_nil_of_length_eq_zero ?_
      rw [← path.length_cut]
      omega
    rw [hcut, hnil]
    rfl
  · rfl

/-- What the name is cut into that the search has left. -/
theorem cut_moved {name : AmlName} {key : HashKey} {bytes : List UInt8}
    (h : name.inner = bytes ++ b :: key.bytes) :
    name.count = bytes.length + 5 ∧ name.inner.take (name.count - keyLen) = bytes ++ [b] ∧
      (trimName name).key = key := by
  have hcount : name.count = bytes.length + 5 := by simp [AmlName.count, h, HashKey.bytes]
  have hlen : name.count - keyLen = (bytes ++ [b]).length := by
    rw [hcount, List.length_append, keyLen]
    rfl
  have hinner : name.inner = (bytes ++ [b]) ++ key.bytes := by rw [h, List.append_assoc]; rfl
  refine ⟨hcount, ?_, ?_⟩
  · rw [hlen, hinner, List.take_left]
  · rw [trimName, if_neg (by rw [hcount, keyLen]; omega), hlen, hinner, List.drop_left]
    rfl

/-! ## The second search -/

/-- The path in front of the last segment leads to the scope. -/
theorem locateObject_scope (ht : t.Nested) (hns : ns < t.next) (hscope : path.scope ≠ [])
    (hP : t.descend ns (path.scope.map NameSeg.key) = some P) :
    ∃ name,
      locateObject .namespaces t ns { inner := segBytes path.scope } = .ok (some P, name) := by
  obtain ⟨init, seg, hinit⟩ : ∃ init seg, path.scope = init ++ [seg] :=
    ⟨_, _, (List.dropLast_append_getLast hscope).symm⟩
  have hinner : segBytes path.scope = Path.inner ⟨.here, init, seg⟩ := by
    rw [hinit]
    rfl
  rw [hinner, locateObject_eq _ _ _ ht hns]
  refine ⟨_, congrArg (fun r => Except.ok (r, _)) ?_⟩
  rw [hinit, List.map_append, List.map_singleton, Tree.descend, Radix.follow_concat] at hP
  cases init with
  | nil => exact NameSeg.resolve_of_bound .namespaces ht hP
  | cons seg' init =>
    rw [Path.resolve, if_neg (by simp)]
    exact hP

theorem deviceParent_here (ht : t.Nested) (hns : ns < t.next) (hbase : path.base = .here)
    (hP : path.scopeIn t ns = some P) :
    Aml.deviceParent t ns ⟨path.inner, behind⟩ = .ok (some P) := by
  have hcount : AmlName.count ⟨path.inner, behind⟩ = path.inner.length := rfl
  have hlen := path.length_inner
  have htake := path.take_inner
  rw [hbase, PathBase.lead, List.length_nil, Nat.zero_add] at hlen
  rw [hbase, PathBase.lead, List.nil_append] at htake
  rw [scopeIn, hbase] at hP
  rw [Aml.deviceParent, hcount]
  by_cases hscope : path.scope = []
  · rw [hscope] at hP hlen
    rw [hlen, if_neg (by decide)]
    exact congrArg Except.ok hP
  · have hpos : 0 < path.scope.length := List.length_pos_iff.mpr hscope
    obtain ⟨name, hlocate⟩ := locateObject_scope ht hns hscope hP
    rw [if_pos (by rw [hlen, keyLen]; omega)]
    dsimp only
    rw [htake, hlocate]
    rfl

/-- A name of whole segments and a character is not found. -/
theorem locateObject_odd (t : Tree) (ns : Nat) {segs : List NameSeg} (hsegs : segs ≠ [])
    (hb : validChar b = true) :
    ∃ name, locateObject .namespaces t ns { inner := segBytes segs ++ [b] } = .ok (none, name) := by
  obtain ⟨seg, segs, rfl⟩ := List.exists_cons_of_ne_nil hsegs
  have hcount : AmlName.count { inner := segBytes (seg :: segs) ++ [b] } = 4 * segs.length + 5 := by
    rw [AmlName.count, List.length_append, segBytes_length, List.length_cons, keyLen,
      List.length_singleton]
    omega
  have hvalid : validName { inner := segBytes (seg :: segs) ++ [b] } = true := by
    have hall : (segBytes (seg :: segs) ++ [b]).all validChar = true := by
      rw [List.all_append, segBytes_valid, Bool.true_and, List.all_cons, hb]
      rfl
    exact List.all_eq_true.mpr fun a ha => List.all_eq_true.mp hall a (List.mem_of_mem_drop ha)
  obtain ⟨hroot, hparent, -⟩ := validChar_not_lead seg.validChar_c0
  have hhead : (segBytes (seg :: segs) ++ [b]).headD 0 = seg.key.c0 := rfl
  have hstage2 : stage2 .namespaces t ns (segBytes (seg :: segs) ++ [b]) = (none : Option Nat) := by
    have hlen : (segBytes (seg :: segs) ++ [b]).length = 4 * segs.length + 5 := hcount
    have htake :
        ((segBytes (seg :: segs) ++ [b]).take (4 * segs.length + 5 - keyLen)).length % keyLen ≠ 0 := by
      rw [List.length_take, hlen, keyLen]
      omega
    rw [stage2, hlen, if_neg (by rw [keyLen]; omega), if_neg (by rw [keyLen]; omega)]
    dsimp only
    rw [resolveScope, if_pos htake]
  rw [locateObject, hcount, if_neg (by omega), hvalid, if_neg (by simp),
    if_neg (by rw [keyLen]; omega)]
  dsimp only
  rw [hhead, if_neg hparent, if_neg hroot, hstage2]
  exact ⟨_, rfl⟩

/-- Behind a prefix the second search is for a name of one character, which is `root()`, or for one
that is not found. -/
theorem deviceParent_moved (hbase : path.base ≠ .here) :
    Aml.deviceParent t ns (AmlName.shift ⟨path.inner, behind⟩) =
      .ok (if path.scope = [] then some root else none) := by
  obtain ⟨hcount, htake, -⟩ := cut_moved (shift_inner behind hbase)
  rw [Aml.deviceParent, hcount, if_pos (by rw [keyLen]; omega)]
  rw [hcount] at htake
  dsimp only
  rw [htake]
  by_cases hscope : path.scope = []
  · rw [if_pos hscope, hscope]
    rfl
  · obtain ⟨name, hlocate⟩ := locateObject_odd t ns hscope path.last.validChar_c0
    rw [if_neg hscope, hlocate]
    rfl

/-! ## What is opened -/

theorem scopeIn_lt (ht : t.WF) (hns : ns < t.next) (hP : path.scopeIn t ns = some P) :
    P < t.next := by
  obtain ⟨n, hn, hdescend⟩ := Option.bind_eq_some_iff.mp hP
  have hlt := PathBase.start_lt ht hns hn
  rcases List.eq_nil_or_concat (path.scope.map NameSeg.key) with hnil | ⟨keys, key, hkeys⟩
  · rw [hnil] at hdescend
    exact Option.some.inj hdescend ▸ hlt
  · rw [hkeys, List.concat_eq_append, Tree.descend, Radix.follow_concat] at hdescend
    obtain ⟨m, -, hm⟩ := Option.bind_eq_some_iff.mp hdescend
    exact (ht.child_has hm).1

end Path

/-- A namespace that is made is the child that is missing only if it is made in its place. -/
theorem Tree.createNamespace_opens_iff {t : Tree} (hP : P < t.next)
    (hparent : ∀ p, parent = some p → p < t.next) (hfree : (t.nodes P).namespaces key = none) :
    t.Opens (t.createNamespace parent name .device) P key t.next ↔ parent = some P ∧
      name = key := by
  have hold : ∀ n < t.next, ∀ k, ((t.createNamespace parent name .device).nodes n).namespaces k =
      if parent = some n ∧ k = name then some t.next else (t.nodes n).namespaces k := by
    intro n hn k
    rw [Tree.createNamespace_old hparent (Nat.ne_of_lt hn)]
    by_cases hpn : parent = some n
    · rw [if_pos hpn]
      simp only [hpn, true_and, Function.update_apply]
    · rw [if_neg hpn, if_neg fun h => hpn h.1]
  constructor
  · intro h
    have hchild := h.child
    rw [hold P hP] at hchild
    split at hchild
    · next hmade => exact ⟨hmade.1, hmade.2.symm⟩
    · rw [hfree] at hchild
      cases hchild
  · rintro ⟨rfl, rfl⟩
    refine ⟨?_, fun _ => ⟨Nat.le_refl _, ?_, ?_⟩, fun n hn k hne => ?_, fun d hd => ?_⟩
    · rw [hold P hP, if_pos ⟨rfl, rfl⟩]
    · rw [Tree.Up, Tree.createNamespace_self hparent]
    · rw [Tree.createNamespace_self hparent]
    · rw [hold n hn, if_neg fun h => hne ⟨(Option.some.inj h.1).symm, h.2⟩]
    · rw [hfree] at hd
      cases hd

theorem HashKey.moved_eq_iff {key : HashKey} :
    key.moved = key ↔ key.c0 = key.c1 ∧ key.c1 = key.c2 ∧ key.c2 = key.c3 := by
  obtain ⟨c0, c1, c2, c3⟩ := key
  simp only [HashKey.moved, HashKey.mk.injEq, and_true]
  constructor
  · rintro ⟨h₀, h₁, h₂⟩
    exact ⟨h₀.symm, h₁.symm, h₂.symm⟩
  · rintro ⟨h₀, h₁, h₂⟩
    exact ⟨h₀.symm, h₁.symm, h₂.symm⟩

namespace Path
variable {path : Path} {t : Tree}

/-- A child that is there is found. -/
theorem resolve_of_child (ht : t.Nested) (hP : path.scopeIn t ns = some P)
    (hchild : (t.nodes P).namespaces path.last.key = some d) :
    path.resolve .namespaces t ns = some d := by
  by_cases hseg : path.base = .here ∧ path.scope = []
  · obtain ⟨base, scope, last⟩ := path
    obtain ⟨rfl, rfl⟩ := hseg
    obtain rfl := Option.some.inj hP
    exact NameSeg.resolve_of_bound .namespaces ht hchild
  · rw [resolve, if_neg hseg, hP]
    exact hchild

/-- One that is not there is found only in an ancestor. -/
theorem resolve_of_free (hP : path.scopeIn t ns = some P)
    (hfree : (t.nodes P).namespaces path.last.key = none)
    (hseg : ¬(path.base = .here ∧ path.scope = [])) :
    path.resolve .namespaces t ns = none := by
  rw [resolve, if_neg hseg, hP]
  exact hfree

/-- `def_device` opens the child that is named exactly if a missing child is made in its place. -/
theorem openDevice_opens_iff (ht : t.WF) (hnested : t.Nested) (hns : ns < t.next)
    (hP : path.scopeIn t ns = some P) :
    t.Opens (path.openDevice t ns).2 P path.last.key (path.openDevice t ns).1 ↔
      path.Placed t ns P := by
  have hlt := scopeIn_lt ht hns hP
  rw [openDevice]
  cases hchild : (t.nodes P).namespaces path.last.key with
  | some d =>
    rw [resolve_of_child hnested hP hchild]
    have hbusy : (t.nodes P).namespaces path.last.key ≠ none := by simp [hchild]
    refine iff_of_true ⟨hchild, fun h => absurd h hbusy, fun _ _ _ _ => rfl, fun d' hd => ?_⟩
      fun h => absurd h hbusy
    exact Option.some.inj (hd.symm.trans hchild)
  | none =>
    rw [Placed, hchild]
    by_cases hbase : path.base = .here
    · have hplace : ∀ p, path.scopeIn t ns = some p → p < t.next := fun p hp => scopeIn_lt ht hns hp
      have hmade := (Tree.createNamespace_opens_iff hlt hplace hchild).mpr ⟨hP, rfl⟩
      by_cases hscope : path.scope = []
      · rw [resolve, if_pos ⟨hbase, hscope⟩]
        cases hup : (t.chain ns).findSome? fun n =>
            Lookup.namespaces.get (t.nodes n) path.last.key with
        | some d =>
          refine iff_of_false (fun h => ?_) fun h => ?_
          · rw [h.child] at hchild
            cases hchild
          · obtain ⟨m, hm, hd⟩ := List.exists_of_findSome?_eq_some hup
            have hfree := h rfl
            rw [if_pos hbase] at hfree
            exact absurd (hd.symm.trans (hfree hscope m hm)) (by simp)
        | none =>
          dsimp only
          rw [if_pos hbase]
          refine iff_of_true hmade fun _ => ?_
          rw [if_pos hbase]
          exact fun _ => List.findSome?_eq_none_iff.mp hup
      · rw [resolve_of_free hP hchild fun h => hscope h.2, if_pos hbase]
        refine iff_of_true hmade fun _ => ?_
        rw [if_pos hbase]
        exact fun h => absurd h hscope
    · have hplace : ∀ p, (if path.scope = [] then some root else none) = some p → p < t.next := by
        intro p hp
        split at hp
        · exact Option.some.inj hp ▸ ht.root_has.1
        · cases hp
      rw [resolve_of_free hP hchild fun h => hbase h.1, if_neg hbase]
      refine (Tree.createNamespace_opens_iff hlt hplace hchild).trans ?_
      rw [HashKey.moved_eq_iff, forall_prop_of_true rfl, if_neg hbase]
      by_cases hscope : path.scope = []
      · rw [if_pos hscope, Option.some.injEq, eq_comm, and_iff_right hscope]
      · rw [if_neg hscope]
        exact iff_of_false (fun h => absurd h.1 (by simp)) fun h => hscope h.1

end Path

namespace Aml
variable {host : AmlHost} {s : AmlState} {path : Path} {n : NameString} {ns c P w fuel : Nat}
  {body : List UInt8}

/-- `def_device` up to the body: the namespace of that, and where it starts and ends. -/
def deviceEntry (host : AmlHost) (fuel ns : Nat) : Aml (Nat × Nat × Nat) := do
  let codeCopy ← code ns
  let deviceLen ← parseLength host ns
  let deviceName ← parseNamestring host fuel ns
  recordDevice ns deviceName
  let (device, deviceName) ← ask fun t => locateObject .namespaces t ns deviceName
  let device ← deviceNamespace ns deviceName device
  let c ← code ns
  pure (device, c, codeCopy + deviceLen)

theorem defDevice_eq {parse : Nat → Nat → Nat → Aml Unit} : defDevice host parse fuel ns = (do
    let (device, start, end_) ← deviceEntry host fuel ns
    parse device start end_
    setCode ns end_) := by
  simp only [defDevice, deviceEntry, bind_assoc, pure_bind]

/-- The search, and the making of the namespace. -/
theorem wp_deviceNamespace (behind : HashKey) (hnested : s.tree.Nested) (hns : ns < s.tree.next)
    (hP : path.scopeIn s.tree ns = some P) :
    Wp (do
      let (device, name) ← ask fun t => locateObject .namespaces t ns ⟨path.inner, behind⟩
      deviceNamespace ns name device)
      (fun device s' => (device, s'.tree) = path.openDevice s.tree ns ∧ s'.code ns = s.code ns)
      (fun _ _ => False) s := by
  obtain ⟨n, hstart, -⟩ := Option.bind_eq_some_iff.mp hP
  rw [wp_bind, wp_ask_of_ok (path.locateObject_eq .namespaces behind hnested hns), Path.openDevice]
  dsimp only
  cases path.resolve .namespaces s.tree ns with
  | some device => exact ⟨rfl, rfl⟩
  | none =>
    rw [deviceNamespace, wp_bind]
    by_cases hbase : path.base = .here
    · rw [if_pos (.inl hbase), if_pos hbase, hP,
        wp_ask_of_ok (Path.deviceParent_here hnested hns hbase hP), Path.trimName_key]
      exact ⟨rfl, Function.update_of_ne (Nat.ne_of_lt hns) _ _⟩
    · have hshift : ¬(path.base = .here ∨ path.base.start s.tree ns = none) := by
        rw [hstart]
        simp [hbase]
      obtain ⟨-, -, hkey⟩ := Path.cut_moved (path.shift_inner behind hbase)
      rw [if_neg hshift, if_neg hbase, wp_ask_of_ok (Path.deviceParent_moved hbase), hkey]
      exact ⟨rfl, Function.update_of_ne (Nat.ne_of_lt hns) _ _⟩

theorem wp_deviceEntry (hn : n.Names path) (hok : PkgOk w (n.encode ++ body)) (hfuel : 2 ≤ fuel)
    (hat : host.ReadsAt c (encodePkg w (n.encode ++ body))) (hc : s.code ns = c)
    (hnested : s.tree.Nested) (hns : ns < s.tree.next) (hP : path.scopeIn s.tree ns = some P) :
    Wp (deviceEntry host fuel ns) (fun r s' => (r.1, s'.tree) = path.openDevice s.tree ns ∧
        r.2 = (c + w + n.encode.length, c + w + n.encode.length + body.length))
      (fun _ _ => False) s := by
  obtain ⟨hlen, hcontent⟩ := readsAt_pkg hok hat
  obtain ⟨hname, -⟩ := readsAt_append.mp hcontent
  have hlead : n.lead.encode.length < fuel := Nat.lt_of_le_of_lt hn.lead_length hfuel
  rw [deviceEntry, wp_bind, wp_code, hc]
  refine Wp.bind (takes_parseLength hok hlen hc) ?_
  rintro _ s₁ ⟨rfl, h₁⟩
  refine Wp.bind (parseNamestring_reads (.of_lt hlead) hname h₁.code) ?_
  rintro ⟨inner, behind⟩ s₂ ⟨rfl, h₂⟩
  have htree : s₂.tree = s.tree := (h₁.trans h₂).tree
  rw [← htree] at hnested hns hP ⊢
  have hopen :=
    wp_deviceNamespace (s := s₂.recordDevice ns ⟨path.inner, behind⟩) behind hnested hns hP
  rw [wp_bind] at hopen
  rw [hn.inner]
  change Wp (_ >>= _) _ _ (s₂.recordDevice ns ⟨path.inner, behind⟩)
  refine hopen.bind fun r s₃ h₃ => h₃.bind fun device s₄ h₄ => ?_
  have hcode : s₄.code ns = c + w + n.encode.length := h₄.2.trans h₂.code
  rw [wp_bind, wp_code, hcode]
  refine ⟨h₄.1, ?_⟩
  rw [List.length_append, ← Nat.add_assoc, ← Nat.add_assoc]

/-- What `parse_next` does in `ns` from the state `s` is to parse what is between `start` and `end_`
in a namespace, once that has been opened under `key` in `P`, and to go on behind it. -/
def OpensDevice (host : AmlHost) (fuel : Nat) (s : AmlState) (ns start end_ P : Nat)
    (key : HashKey) : Prop :=
  ∃ device s', s.tree.Opens s'.tree P key device ∧ ∀ (parse : Nat → Nat → Nat → Aml Unit) Q E,
    Wp (parseNext host parse fuel ns) Q E s ↔ Wp (do
      parse device start end_
      setCode ns end_) Q E s'

/-- A Device term opens the child that its path names exactly if the child is there or a missing one
is made in its place. -/
theorem parseNext_opensDevice_iff (host : AmlHost) (path : Path) (n : NameString) (w : Nat)
    (body : List UInt8) (s : AmlState) (ns c P : Nat) (hn : n.Names path)
    (hok : PkgOk w (n.encode ++ body)) (ht : s.tree.WF) (hnested : s.tree.Nested)
    (hns : ns < s.tree.next) (hP : path.scopeIn s.tree ns = some P)
    (hat : host.ReadsAt c (0x5B :: 0x82 :: encodePkg w (n.encode ++ body))) (hc : s.code ns = c) :
    ∃ bound, ∀ fuel, bound ≤ fuel →
      (OpensDevice host fuel s ns (c + 2 + w + n.encode.length)
        (c + 2 + w + n.encode.length + body.length) P path.last.key ↔ path.Placed s.tree ns P) := by
  refine ⟨2, fun fuel hfuel => ?_⟩
  obtain ⟨hop, hpkg⟩ := readsAt_ext.mp hat
  have hterm : ((s.emit (.enter c)).setCode ns (c + 2)).code ns = c + 2 := Advanced.setCode.code
  obtain ⟨⟨device, _, _⟩, s', hentry, hopen, ⟨⟩⟩ :=
    wp_returns.mp (wp_deviceEntry hn hok hfuel hpkg hterm hnested hns hP)
  have hrun : ∀ (parse : Nat → Nat → Nat → Aml Unit) Q E,
      Wp (parseNext host parse fuel ns) Q E s ↔ Wp (do
        parse device (c + 2 + w + n.encode.length) (c + 2 + w + n.encode.length + body.length)
        setCode ns (c + 2 + w + n.encode.length + body.length)) Q E s' := by
    intro parse Q E
    rw [wp_parseNext_ext hop hc]
    change Wp (defDevice host parse fuel ns) Q E _ ↔ _
    rw [defDevice_eq, wp_bind, wp_of_ok hentry]
  rw [← Path.openDevice_opens_iff ht hnested hns hP]
  change (device, s'.tree) = path.openDevice s.tree ns at hopen
  rw [← hopen]
  constructor
  · rintro ⟨device', s'', hopens, hrun'⟩
    -- a parser of the body that shows the namespace and the tree it gets
    let probe : Nat → Nat → Nat → Aml Unit := fun n _ _ s => .error .exit (s.setCode root n)
    let shown : AmlStop → AmlState → Prop := fun _ s => s.tree = s''.tree ∧ s.code root = device'
    have hprobe : shown .exit (s'.setCode root device) :=
      (hrun probe (fun _ _ => False) shown).mp ((hrun' probe _ _).mpr ⟨rfl, Advanced.setCode.code⟩)
    have hdevice : device = device' := Advanced.setCode.code.symm.trans hprobe.2
    rw [hdevice, show s'.tree = s''.tree from hprobe.1]
    exact hopens
  · intro hopens
    exact ⟨device, s', hopens, hrun⟩

/-- `FAN0`. -/
def fan0Seg : NameSeg := ⟨keyOfChars 'F' 'A' 'N' '0', by decide⟩

/-- `Device (\_TZ.FAN0) {}`. -/
def fan0Host : AmlHost where
  table := 0x5B :: 0x82 :: encodePkg 1 (NameString.encode ⟨.root, .dual tzSeg fan0Seg⟩)
  uninit _ _ := 0
  readMem _ _ _ := none
  readIo _ _ _ := 0

/-- `Device (_TZ.FAN0) { Name (FAN0, One) }`. -/
def fan0BelowHost : AmlHost where
  table := 0x5B :: 0x82 :: encodePkg 1
    (NameString.encode ⟨.parents 0, .dual tzSeg fan0Seg⟩ ++ 0x08 :: (fan0Seg.key.bytes ++ [0x01]))
  uninit _ _ := 0
  readMem _ _ _ := none
  readIo _ _ _ := 0

theorem parseNext_opensDevice_iff_fan0 : (∃ bound, ∀ fuel, bound ≤ fuel →
      (OpensDevice fan0Host fuel initAmlState root 13 13 5 fan0Seg.key ↔
        Path.Placed ⟨.root, [tzSeg], fan0Seg⟩ initAmlNamespaces root 5)) ∧
    ∃ bound, ∀ fuel, bound ≤ fuel →
      OpensDevice fan0BelowHost fuel initAmlState root 12 18 5 fan0Seg.key := by
  refine ⟨parseNext_opensDevice_iff fan0Host ⟨.root, [tzSeg], fan0Seg⟩ ⟨.root, .dual tzSeg fan0Seg⟩
    1 [] initAmlState root 0 5 ⟨rfl, rfl⟩ (.inl ⟨rfl, by decide⟩) initAmlNamespaces_wf
    initAmlNamespaces_nested (by decide) (by decide) (List.prefix_refl _) rfl, ?_⟩
  obtain ⟨bound, h⟩ := parseNext_opensDevice_iff fan0BelowHost ⟨.here, [tzSeg], fan0Seg⟩
    ⟨.parents 0, .dual tzSeg fan0Seg⟩ 1 (0x08 :: (fan0Seg.key.bytes ++ [0x01])) initAmlState root 0 5
    ⟨rfl, rfl⟩ (.inl ⟨rfl, by decide⟩) initAmlNamespaces_wf initAmlNamespaces_nested (by decide)
    (by decide) (List.prefix_refl _) rfl
  refine ⟨bound, fun fuel hfuel => (h fuel hfuel).mpr fun _ => ?_⟩
  rw [if_pos rfl]
  exact fun hscope => absurd hscope (by simp)

/-- The namespace that is made is registered nowhere. -/
theorem fan0_lost : ¬OpensDevice fan0Host 16 initAmlState root 13 13 5 fan0Seg.key := by
  have hrun : (match parseNext fan0Host (fun _ _ _ => pure ()) 16 root initAmlState with
      | .ok _ s' => ((s'.tree.nodes 5).namespaces fan0Seg.key).isSome
      | .error _ _ => true) = false := by decide
  rintro ⟨device, s', hopens, hsame⟩
  have hreturns :=
    (hsame (fun _ _ _ => pure ()) (fun _ s => s.tree = s'.tree) fun _ _ => False).mpr rfl
  obtain ⟨_, s'', hok, htree⟩ := wp_returns.mp hreturns
  rw [hok] at hrun
  simp only [htree, hopens.child, Option.isSome_some, Bool.true_eq_false] at hrun

end Aml

end Lethe
