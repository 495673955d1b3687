import Lethe.Aml.Handlers

/-!
# The branches of an If term

`IfElse.branch` is what an If term with an optional Else term is for, once its predicate is known.
`def_if_else` does that only where there is nothing to run: `parse_termlist` is started at the
length of the chosen body, which shows in the log of the terms that are entered.
-/

namespace Lethe

/-! ## Syntax -/

/-- An If term and the width of the length and the body of an Else term behind it. -/
structure IfElse where
  w : Nat
  predicate : List UInt8
  body : List UInt8
  elseTerm : Option (Nat × List UInt8)

def encodeElse : Option (Nat × List UInt8) → List UInt8
  | none => []
  | some (w, body) => 0xA1 :: encodePkg w body

namespace IfElse

def encode (t : IfElse) : List UInt8 :=
  0xA0 :: (encodePkg t.w (t.predicate ++ t.body) ++ encodeElse t.elseTerm)

def WF (t : IfElse) : Prop :=
  PkgOk t.w (t.predicate ++ t.body) ∧ ∀ w body, t.elseTerm = some (w, body) → PkgOk w body

/-- The end of the If term that starts at `c`. -/
def ifEnd (t : IfElse) (c : Nat) : Nat := c + 1 + t.w + t.predicate.length + t.body.length

/-- What the term at `c` is for: the body that the value of the predicate chooses is run, if there
is one, and the cursor is moved behind all of the term. -/
def branch (t : IfElse) (parseTermlist : Nat → Nat → Nat → Aml Unit) (ns c predicate : Nat) :
    Aml Unit := do
  if predicate ≠ 0 then parseTermlist ns (c + 1 + t.w + t.predicate.length) (t.ifEnd c)
  else
    match t.elseTerm with
    | none => pure ()
    | some (w, body) => parseTermlist ns (t.ifEnd c + 1 + w) (t.ifEnd c + 1 + w + body.length)
  Aml.setCode ns (c + t.encode.length)

theorem length_encode {t : IfElse} (hwf : t.WF) :
    c + t.encode.length = t.ifEnd c + (encodeElse t.elseTerm).length := by
  rw [encode, List.length_cons, List.length_append, encodePkg, List.length_append,
    encodePkgLength_length hwf.1, List.length_append, ifEnd]
  omega

end IfElse

/-! ## The log -/

/-- Nothing is taken off the log. -/
def LogGrows (s s' : AmlState) : Prop := s.log <+: s'.log

instance : IsPreorder AmlState LogGrows where
  refl s := List.prefix_refl s.log
  trans _ _ _ := List.IsPrefix.trans

theorem logGrows_handlers : HandlerRelation (fun _ => LogGrows) LogGrows where
  advances := by
    rintro ns s _ ⟨p, clock, rfl⟩
    exact List.prefix_refl s.log
  enter {_ s c} := List.prefix_append s.log [.enter c]
  leave {_ s c} := List.prefix_append s.log [.leave c]
  record {_ s _ _} := List.prefix_refl s.log
  setChild {_ s _ _ _} _ := List.prefix_refl s.log
  method {_ s _ _ method} := List.prefix_append s.log [.method method.code method.len]
  create {_ s _ _ _ _} := List.prefix_refl s.log
  adopt {_ s _ _} := List.prefix_refl s.log
  nested := id
  termlist := id

/-- What the log gets first from a term list. -/
def firstEvent (start end_ : Nat) : AmlEvent := if start < end_ then .enter start else .leave start

/-- The log has got `event` next. -/
def LogsFirst (event : AmlEvent) (s s' : AmlState) : Prop := s.log ++ [event] <+: s'.log

theorem LogsFirst.trans (h : LogsFirst event s s') (h' : LogGrows s' s'') : LogsFirst event s s'' :=
  List.IsPrefix.trans h h'

theorem LogsFirst.eq (h : LogsFirst event s s') (h' : LogsFirst event' s s') : event = event' := by
  have hlogs := List.prefix_of_prefix_length_le h h' (by simp)
  exact List.singleton_inj.mp (List.append_cancel_left (hlogs.eq_of_length (by simp)))

/-- Runs that log different events do not end in the same state. -/
theorem LogsFirst.not_same {x y : Aml Unit} (hx : Respects (LogsFirst event) x)
    (hy : Respects (LogsFirst event') y) (hne : event ≠ event')
    (h : Wp y (fun _ s'' => s'' = s') (fun _ _ => False) s) :
    ¬Wp x (fun _ s'' => s'' = s') (fun _ _ => False) s := by
  intro h'
  obtain ⟨_, _, hok, rfl⟩ := wp_returns.mp h
  obtain ⟨_, _, hok', rfl⟩ := wp_returns.mp h'
  exact hne ((hx.of_ok hok').eq (hy.of_ok hok))

/-- A list is parsed from its first byte. -/
theorem firstEvent_ne (hp : p < end_) (hne : p ≠ start) :
    firstEvent p end_ ≠ firstEvent start end_' := by
  rw [firstEvent, if_pos hp, firstEvent]
  split
  · exact fun h => hne (AmlEvent.enter.inj h)
  · exact AmlEvent.noConfusion

namespace Aml

variable {host : AmlHost} {s s' : AmlState} {ns c p fuel : Nat}

theorem logGrows_read (ns : Nat) {x : Aml α} {f : α → Aml β} (h : Respects (Advances ns) x)
    (hf : ∀ a, Respects LogGrows (f a)) : Respects LogGrows (x >>= f) :=
  logGrows_handlers.read h hf

theorem parseTermlist_logsFirst (hfuel : 2 ≤ fuel) :
    Respects (LogsFirst (firstEvent start end_)) (parseTermlist host fuel ns start end_) := by
  intro s
  obtain ⟨fuel, rfl⟩ : ∃ n, fuel = n + 2 := ⟨fuel - 2, by omega⟩
  have hstart : (s.setCode ns start).code ns = start := Advanced.setCode.code
  have hnested : ∀ n start end_, Respects LogGrows (parseTermlist host (fuel + 1) n start end_) :=
    steps_parseTermlist logGrows_handlers
  rw [parseTermlist, wp_bind, wp_code, wp_bind, wp_setCode, wp_bind, termlistLoop, wp_bind, wp_code,
    hstart, firstEvent]
  split
  · rw [wp_bind, parseNext, wp_bind, wp_code, hstart, wp_bind, wp_emit]
    refine (steps_entered logGrows_handlers hnested _).mono (fun _ s₁ h₁ => ?_) fun _ _ => id
    replace h₁ : LogsFirst (.enter start) s s₁ := h₁
    refine (steps_termlistLoop logGrows_handlers hnested s₁).mono (fun _ s₂ h₂ => ?_) fun _ _ => id
    exact LogsFirst.trans h₁ h₂
  · exact List.prefix_refl _

/-! ## If terms -/

section
variable {t : IfElse} {parse : Nat → Nat → Nat → Aml Unit} {v : Nat} {s₁ : AmlState}

/-- The parts of the term, in memory. -/
theorem ifElse_parts (hwf : t.WF) (hat : host.ReadsAt c t.encode) :
    host.table[c]? = some 0xA0 ∧
      host.ReadsAt (c + 1) (encodePkgLength t.w (t.w + (t.predicate ++ t.body).length)) ∧
      host.ReadsAt (t.ifEnd c) (encodeElse t.elseTerm) := by
  obtain ⟨hop, hterm⟩ := readsAt_cons.mp hat
  obtain ⟨hif, helse⟩ := readsAt_append.mp hterm
  have hlen : c + 1 + (encodePkg t.w (t.predicate ++ t.body)).length = t.ifEnd c := by
    rw [encodePkg, List.length_append, encodePkgLength_length hwf.1, List.length_append,
      IfElse.ifEnd]
    omega
  exact ⟨hop, (readsAt_pkg hwf.1 hif).1, hlen ▸ helse⟩

/-- `def_if_else`, once the predicate is known. -/
def ifRest (host : AmlHost) (parseTermlist : Nat → Nat → Nat → Aml Unit)
    (ns codeCopy ifLen predicate : Nat) :
    Aml Unit := do
  ifBody parseTermlist ns codeCopy ifLen predicate
  let c ← code ns
  let op ← readByte host c
  if op = 0xA1 then do
    setCode ns (c + 1)
    let elseLen ← parseLength host ns
    elseBody parseTermlist ns (c + 1) elseLen predicate
    setCode ns (c + 1 + ifLen)
  else pure ()

theorem wp_parseNext_if (hwf : t.WF) (hat : host.ReadsAt c t.encode) (hc : s.code ns = c)
    (hpredicate :
      termArgToInt host fuel ns ((s.emit (.enter c)).setCode ns (c + 1 + t.w)) = .ok v s₁) :
    Wp (parseNext host parse fuel ns) Q E s ↔
      Wp (ifRest host parse ns (c + 1) (t.w + (t.predicate ++ t.body).length) v) Q E s₁ := by
  obtain ⟨hop, hlen, -⟩ := ifElse_parts hwf hat
  have hterm : ((s.emit (.enter c)).setCode ns (c + 1)).code ns = c + 1 := Advanced.setCode.code
  rw [wp_parseNext_op hop (by decide) hc]
  change Wp (defIfElse host parse fuel ns) Q E _ ↔ _
  rw [defIfElse, wp_bind, wp_code, hterm, wp_bind, wp_parseLength hwf.1 hlen hterm, setCode_setCode,
    wp_bind, wp_of_ok hpredicate]
  rfl

/-- With another predicate than zero the term list starts at `codeCopy`. -/
theorem ifRest_nonzero (hv : v ≠ 0) (hfuel : 2 ≤ fuel) :
    Respects (LogsFirst (firstEvent codeCopy (codeCopy + ifLen)))
      (ifRest host (parseTermlist host fuel) ns codeCopy ifLen v) := by
  intro s
  rw [ifRest, ifBody, if_pos hv]
  refine (parseTermlist_logsFirst hfuel s).bind fun _ s₁ h₁ => ?_
  have hrest : Respects LogGrows (do
      let c ← code ns
      let op ← readByte host c
      if op = 0xA1 then do
        setCode ns (c + 1)
        let elseLen ← parseLength host ns
        elseBody (parseTermlist host fuel) ns (c + 1) elseLen v
        setCode ns (c + 1 + ifLen)
      else pure ()) := by
    refine logGrows_read ns advances_code fun c => logGrows_read ns advances_readByte fun op => ?_
    split
    · refine logGrows_read ns advances_setCode fun _ => ?_
      refine logGrows_read ns advances_parseLength fun elseLen => ?_
      rw [elseBody, if_neg hv]
      exact logGrows_read ns .pure fun _ => fun s => List.prefix_refl s.log
    · exact .pure
  exact (hrest s₁).mono (fun _ s₂ h₂ => h₁.trans h₂) fun _ _ => id

/-- With the predicate zero the Else term is found, and its term list starts at its length. -/
theorem ifRest_else (hat : host.ReadsAt (codeCopy + ifLen) (encodeElse (some (w, body))))
    (hok : PkgOk w body) (hfuel : 2 ≤ fuel) :
    Respects
      (LogsFirst (firstEvent (codeCopy + ifLen + 1) (codeCopy + ifLen + 1 + (w + body.length))))
      (ifRest host (parseTermlist host fuel) ns codeCopy ifLen 0) := by
  intro s
  obtain ⟨hop, hpkg⟩ := readsAt_cons.mp hat
  have hend : ∀ {p}, (s.setCode ns p).code ns = p := Advanced.setCode.code
  rw [ifRest, ifBody, if_neg (by simp), wp_bind, wp_setCode, wp_bind, wp_code, hend, readByte, hop]
  dsimp only
  rw [pure_bind, if_pos rfl, wp_bind, wp_setCode, setCode_setCode, wp_bind,
    wp_parseLength hok (readsAt_pkg hok hpkg).1 hend, setCode_setCode, elseBody, if_pos rfl]
  refine (parseTermlist_logsFirst hfuel _).bind fun _ s₁ h₁ => ?_
  exact h₁

/-- With the predicate zero and no Else term nothing is parsed, and the byte behind is read. -/
theorem ifRest_skip (hop : host.table[codeCopy + ifLen]? ≠ some 0xA1) :
    Wp (ifRest host parse ns codeCopy ifLen 0) Q (fun _ _ => False) s ↔
      codeCopy + ifLen < host.table.length ∧ Q () (s.setCode ns (codeCopy + ifLen)) := by
  have hend : ∀ {p}, (s.setCode ns p).code ns = p := Advanced.setCode.code
  rw [ifRest, ifBody, if_neg (by simp), wp_bind, wp_setCode, wp_bind, wp_code, hend, readByte]
  cases hb : host.table[codeCopy + ifLen]? with
  | none =>
    have hle := List.getElem?_eq_none_iff.mp hb
    exact iff_of_false (by simp) fun h => absurd h.1 (Nat.not_lt.mpr hle)
  | some op =>
    obtain ⟨hlt, -⟩ := List.getElem?_eq_some_iff.mp hb
    have hne : op ≠ 0xA1 := fun h => hop (h ▸ hb)
    dsimp only
    rw [pure_bind, if_neg hne, wp_pure, and_iff_right hlt]

theorem branch_nonzero (hv : v ≠ 0) (hfuel : 2 ≤ fuel) :
    Respects (LogsFirst (firstEvent (c + 1 + t.w + t.predicate.length) (t.ifEnd c)))
      (t.branch (parseTermlist host fuel) ns c v) := by
  intro s
  rw [IfElse.branch, if_pos hv]
  exact (parseTermlist_logsFirst hfuel s).bind fun _ s₁ h₁ => h₁

theorem branch_else (helse : t.elseTerm = some (w, body)) (hfuel : 2 ≤ fuel) :
    Respects (LogsFirst (firstEvent (t.ifEnd c + 1 + w) (t.ifEnd c + 1 + w + body.length)))
      (t.branch (parseTermlist host fuel) ns c 0) := by
  intro s
  rw [IfElse.branch, if_neg (by simp), helse]
  exact (parseTermlist_logsFirst hfuel s).bind fun _ s₁ h₁ => h₁

/-- The predicate of the term at `c` has the value `v`; `s₁` is the state when it has been read. -/
def PredicateIs (host : AmlHost) (fuel : Nat) (s : AmlState) (ns c : Nat) (t : IfElse) (v : Nat)
    (s₁ : AmlState) :
    Prop :=
  termArgToInt host fuel ns ((s.emit (.enter c)).setCode ns (c + 1 + t.w)) = .ok v s₁ ∧
    s₁.code ns = c + 1 + t.w + t.predicate.length

/-- `parse_next` on an If term does what the chosen branch does exactly if that is nothing: the
predicate is zero, and no Else term but some other byte follows. -/
theorem parseNext_runsBranch_iff (host : AmlHost) (t : IfElse) (s : AmlState) (ns c : Nat)
    (hwf : t.WF) (hat : host.ReadsAt c t.encode) (hc : s.code ns = c)
    (hbehind : t.elseTerm = none → host.table[c + t.encode.length]? ≠ some 0xA1) :
    ∃ bound, ∀ fuel, bound ≤ fuel → ∀ v s₁ s', PredicateIs host fuel s ns c t v s₁ →
      Wp (t.branch (parseTermlist host fuel) ns c v) (fun _ s'' => s'' = s') (fun _ _ => False) s₁ →
      (Wp (parseNext host (parseTermlist host fuel) fuel ns) (fun _ s'' => s'' = s')
        (fun _ _ => False) s ↔
        v = 0 ∧ t.elseTerm = none ∧ c + t.encode.length < host.table.length) := by
  refine ⟨2, fun fuel hfuel v s₁ s' hpredicate hbranch => ?_⟩
  obtain ⟨-, hlen, helse⟩ := ifElse_parts hwf hat
  have hw : 1 ≤ t.w := PkgFits.pos hwf.1
  have hend : c + 1 + (t.w + (t.predicate ++ t.body).length) = t.ifEnd c := by
    rw [List.length_append, IfElse.ifEnd]
    omega
  rw [wp_parseNext_if hwf hat hc hpredicate.1]
  by_cases hv : v = 0
  · subst hv
    cases hterm : t.elseTerm with
    | none =>
      have hbehind' := hbehind hterm
      rw [t.length_encode hwf, hterm] at hbehind' ⊢
      rw [ifRest_skip (hend ▸ hbehind'), hend, and_iff_right rfl, and_iff_right rfl]
      rw [IfElse.branch, if_neg (by simp), hterm] at hbranch
      have hs' : s₁.setCode ns (c + t.encode.length) = s' := hbranch
      rw [t.length_encode hwf, hterm] at hs'
      exact and_iff_left hs'
    | some p =>
      obtain ⟨w, body⟩ := p
      rw [hterm] at helse
      have hok := hwf.2 w body hterm
      have hpos : 1 ≤ w := PkgFits.pos hok
      refine iff_of_false (LogsFirst.not_same (ifRest_else (hend ▸ helse) hok hfuel)
        (branch_else hterm hfuel) ?_ hbranch) fun h => absurd h.2.1 (by simp)
      rw [hend]
      exact firstEvent_ne (by omega) (by omega)
  · refine iff_of_false
      (LogsFirst.not_same (ifRest_nonzero hv hfuel) (branch_nonzero hv hfuel) ?_ hbranch)
      fun h => hv h.1
    exact firstEvent_ne (by omega) (by omega)

end

/-- `If (Zero) { Name (ABCD, Zero) }`. -/
def ifZero : IfElse := ⟨1, [0x00], [0x08, 0x41, 0x42, 0x43, 0x44, 0x00], none⟩

/-- The term, and the start of a Name term. -/
def ifZeroHost : AmlHost where
  table := ifZero.encode ++ [0x08]
  uninit _ _ := 0
  readMem _ _ _ := none
  readIo _ _ _ := 0

theorem parseNext_runsBranch_iff_ifZero : ∃ bound, ∀ fuel, bound ≤ fuel →
    Wp (parseNext ifZeroHost (parseTermlist ifZeroHost fuel) fuel root)
      (fun _ s => s.code root = 9 ∧ s.tree = initAmlNamespaces) (fun _ _ => False)
      initAmlState := by
  have hwf : ifZero.WF := ⟨.inl ⟨rfl, by decide⟩, by simp [ifZero]⟩
  obtain ⟨bound, h⟩ :=
    parseNext_runsBranch_iff ifZeroHost ifZero initAmlState root 0 hwf ⟨[0x08], rfl⟩ rfl
      fun _ => by decide
  refine ⟨bound + 1, fun fuel hfuel => ?_⟩
  obtain ⟨fuel, rfl⟩ : ∃ n, fuel = n + 1 := ⟨fuel - 1, by omega⟩
  refine ((h (fuel + 1) (by omega) 0 _ _ ⟨rfl, rfl⟩ rfl).mpr ⟨rfl, rfl, by decide⟩).mono ?_
    fun _ _ => id
  rintro _ _ rfl
  exact ⟨rfl, rfl⟩

/-- `If (One) { Name (ABCD, Zero) }`. -/
def ifOne : IfElse := ⟨1, [0x01], [0x08, 0x41, 0x42, 0x43, 0x44, 0x00], none⟩

def ifOneHost : AmlHost where
  table := ifOne.encode ++ [0x00]
  uninit _ _ := 0
  readMem _ _ _ := none
  readIo _ _ _ := 0

/-- The body alone is parsed, but the term is not: its length is entered, which is taken for another
Name term. -/
theorem ifOne_misread : (∃ s₁, PredicateIs ifOneHost 16 initAmlState root 0 ifOne 1 s₁ ∧
      Wp (ifOne.branch (parseTermlist ifOneHost 16) root 0 1) (fun _ s' => s'.code root = 9)
        (fun _ _ => False) s₁) ∧
    Wp (parseNext ifOneHost (parseTermlist ifOneHost 16) 16 root) (fun _ _ => False)
      (fun e s' => e = .assertFailed .unimplemented ∧ .enter 1 ∈ s'.log) initAmlState := by
  refine ⟨⟨_, ⟨rfl, rfl⟩, rfl⟩, ?_⟩
  have hrun : (match parseNext ifOneHost (parseTermlist ifOneHost 16) 16 root initAmlState with
      | .ok _ _ => false
      | .error e s' => decide (e = .assertFailed .unimplemented ∧ .enter 1 ∈ s'.log)) = true := by
    decide
  rw [Wp]
  split at hrun
  · cases hrun
  · next e s' hr =>
    rw [hr]
    exact of_decide_eq_true hrun

end Aml

end Lethe
