import Lethe.Aml.Reading

/-!
# What a term may do to the state

One pass over the handlers of the terms for all relations between the states before and after one:
`HandlerRelation R S` lists the steps that have to be in `R ns`, where `ns` is the namespace of the
term, and what a nested term list has to do with `S`. Then every handler is in `R ns`, and
`parse_termlist` in `S`.
-/

namespace Lethe

def AmlPtr.IsMethod : AmlPtr → Prop
  | .method _ => True
  | _ => False

/-- The object is registered under a name. -/
def Tree.Binds (t : Tree) (data : AmlPtr) : Prop := ∃ n key, (t.nodes n).children key = some data

/-- The steps of a handler in the namespace `ns` are in `R ns`, and a term list in `S` is as well;
one whose terms are in `R` is in `S` when its cursor is put back. -/
structure HandlerRelation (R : Nat → AmlState → AmlState → Prop) (S : AmlState → AmlState → Prop) :
    Prop where
  advances : ∀ {ns s s'}, Aml.Advances ns s s' → R ns s s'
  enter : ∀ {ns s c}, R ns s (s.emit (.enter c))
  leave : ∀ {ns s c}, R ns s (s.emit (.leave c))
  record : ∀ {ns s n name}, R ns s (s.recordDevice n name)
  setChild : ∀ {ns s n key data}, ¬data.IsMethod ∨ s.tree.Binds data →
    R ns s (s.write (s.tree.setChild n key data))
  method : ∀ {ns s n key method},
    R ns s ((s.write (s.tree.setChild n key (.method method))).emit (.method method.code method.len))
  create : ∀ {ns s parent name origin c},
    R ns s ((s.write (s.tree.createNamespace parent name origin)).setCode s.tree.next c)
  adopt : ∀ {ns s n scope}, R ns s (s.write (s.tree.adopt n scope))
  nested : ∀ {ns s s'}, S s s' → R ns s s'
  termlist : ∀ {ns s s' start}, R ns (s.setCode ns start) s' → S s (s'.setCode ns (s.code ns))

namespace HandlerRelation

variable {R : Nat → AmlState → AmlState → Prop} {S : AmlState → AmlState → Prop} {x : Aml α}

theorem reads (hR : HandlerRelation R S) (h : Respects (Aml.Advances ns) x) : Respects (R ns) x :=
  h.mono fun _ _ => hR.advances

/-- The rule for a handler that begins with reading something. -/
theorem read [IsPreorder AmlState (R ns)] {f : α → Aml β} (hR : HandlerRelation R S)
    (h : Respects (Aml.Advances ns) x) (hf : ∀ a, Respects (R ns) (f a)) :
    Respects (R ns) (x >>= f) :=
  (hR.reads h).bind hf

end HandlerRelation

namespace Aml

variable {R : Nat → AmlState → AmlState → Prop} {S : AmlState → AmlState → Prop} {host : AmlHost}
  {ns fuel : Nat} (hR : HandlerRelation R S)
include hR

/-! ## Writes -/

theorem steps_enter : Respects (R ns) (emit (.enter c)) := fun _ => hR.enter

theorem steps_leave : Respects (R ns) (emit (.leave c)) := fun _ => hR.leave

theorem steps_recordDevice : Respects (R ns) (recordDevice n name) := fun _ => hR.record

theorem steps_addChild (h : ¬data.IsMethod) : Respects (R ns) (addChildToNamespace n key data) :=
  fun _ => hR.setChild (.inl h)

/-- An object gets another name. -/
theorem steps_addBound : Respects (R ns) (do
    let ref ← ask fun t => .ok ((t.nodes n).children key)
    let ref ← orExit ref
    addChildToNamespace n' key' ref) := by
  intro s
  rw [wp_bind, wp_ask_ok, wp_bind]
  exact wp_orExit (fun ref hsome => hR.setChild (.inr ⟨n, key, hsome⟩)) trivial

/-- A method is registered, and the observer sees it. -/
theorem steps_addMethod : Respects (R ns) (do
    addChildToNamespace n key (.method method)
    emit (.method method.code method.len)) := fun _ => hR.method

theorem steps_createNamespace : Respects (R ns) (createNamespace parent name c origin) :=
  fun _ => hR.create

theorem steps_adopt : Respects (R ns) (writeTree fun t => t.adopt n scope) := fun _ => hR.adopt

variable [∀ ns, IsPreorder AmlState (R ns)]

/-! ## Declarations -/

theorem steps_defMethod : Respects (R ns) (defMethod host fuel ns) :=
  hR.read advances_code fun _ => hR.read advances_parseLength fun _ =>
    hR.read advances_parseNamestring fun _ => hR.read advances_nextByte fun _ =>
    hR.read advances_code fun _ => hR.read advances_uninit fun _ =>
    (steps_createNamespace hR).bind fun _ => hR.read advances_methodScope fun _ => by
      rw [← bind_assoc]
      exact (steps_addMethod hR).bind fun _ => (steps_adopt hR).bind fun _ =>
        hR.reads advances_setCode

theorem steps_defName : Respects (R ns) (defName host fuel ns) :=
  hR.read advances_parseNamestring fun _ => hR.read advances_unimplemented fun _ =>
    hR.read advances_parseDataObject fun _ => steps_addChild hR id

theorem steps_defOpRegion : Respects (R ns) (defOpRegion host fuel ns) :=
  hR.read advances_parseNamestring fun _ => hR.read advances_unimplemented fun _ =>
    hR.read advances_nextByte fun _ => hR.read advances_termArgToInt fun _ =>
    hR.read advances_termArgToInt fun _ => steps_addChild hR id

theorem steps_parseNextFieldElem :
    Respects (R ns) (parseNextFieldElem host ns offset parent) := by
  refine hR.read advances_code fun codeCopy => hR.read advances_nextByte fun op => ?_
  split
  · exact (hR.reads advances_parseLength).map
  · exact hR.read advances_setCode fun _ => .pure
  · exact .throw
  · exact hR.read advances_setCode fun _ => .pure
  · refine hR.read advances_readBytes fun bytes => hR.read advances_setCode fun _ => ?_
    split
    · exact hR.read advances_setCode fun _ => .pure
    · exact hR.read advances_parseLength fun _ => (steps_addChild hR id).bind fun _ =>
        hR.read advances_code fun _ => .pure

theorem steps_fieldLoop : Respects (R ns) (fieldLoop host ns field fuel offset) := by
  induction fuel generalizing offset with
  | zero => exact .throw
  | succ fuel ih =>
    refine (steps_parseNextFieldElem hR).bind fun len => ?_
    cases len with
    | none => exact .pure
    | some len => exact ih

theorem steps_defField : Respects (R ns) (defField host fuel ns) := by
  refine hR.read advances_code fun codeCopy => hR.read advances_parseLength fun fieldLen =>
    hR.read advances_parseNamestring fun name => hR.read advances_ask fun r =>
    hR.read advances_nextByte fun flags => ?_
  split
  · exact hR.read advances_assert fun _ => (steps_fieldLoop hR).bind fun _ =>
      hR.reads advances_setCode
  · exact .throw

theorem steps_defAlias : Respects (R ns) (defAlias host fuel ns) :=
  hR.read advances_parseNamestring fun _ => hR.read advances_parseNamestring fun _ =>
    hR.read advances_unimplemented fun _ => hR.read advances_unimplemented fun _ =>
    steps_addBound hR

theorem steps_defMutex : Respects (R ns) (defMutex host fuel ns) :=
  hR.read advances_parseNamestring fun _ => hR.read advances_unimplemented fun _ =>
    hR.read advances_nextByte fun _ => steps_addChild hR id

theorem steps_defCreateWordField : Respects (R ns) (defCreateWordField host fuel ns) :=
  hR.read advances_termArgToBuffer fun _ => hR.read advances_termArgToInt fun _ =>
    hR.read advances_parseNamestring fun _ => hR.read advances_unimplemented fun _ =>
    steps_addChild hR id

theorem steps_deviceNamespace : Respects (R ns) (deviceNamespace n name device) := by
  cases device with
  | some device => exact .pure
  | none =>
    exact hR.read advances_ask fun _ => hR.read advances_code fun _ => steps_createNamespace hR

/-! ## Terms with a term list -/

section
variable {parse : Nat → Nat → Nat → Aml Unit} (hT : ∀ n start end_, Respects S (parse n start end_))
include hT

omit [∀ ns, IsPreorder AmlState (R ns)] in
theorem steps_nested : Respects (R ns) (parse n start end_) :=
  (hT n start end_).mono fun _ _ => hR.nested

theorem steps_defIfElse : Respects (R ns) (defIfElse host parse fuel ns) := by
  refine hR.read advances_code fun codeCopy => hR.read advances_parseLength fun ifLen =>
    hR.read advances_termArgToInt fun predicate => ?_
  have hif : Respects (R ns) (ifBody parse ns codeCopy ifLen predicate) := by
    unfold ifBody
    split
    · exact steps_nested hR hT
    · exact hR.reads advances_setCode
  refine hif.bind fun _ => hR.read advances_code fun c => hR.read advances_readByte fun op => ?_
  split
  · refine hR.read advances_setCode fun _ => hR.read advances_parseLength fun elseLen => ?_
    have helse : Respects (R ns) (elseBody parse ns (c + 1) elseLen predicate) := by
      unfold elseBody
      split
      · exact steps_nested hR hT
      · exact .pure
    exact helse.bind fun _ => hR.reads advances_setCode
  · exact .pure

theorem steps_defScope : Respects (R ns) (defScope host parse fuel ns) :=
  hR.read advances_code fun _ => hR.read advances_parseLength fun _ =>
    hR.read advances_parseNamestring fun _ => hR.read advances_locateScope fun _ =>
    hR.read advances_code fun _ => (steps_nested hR hT).bind fun _ => hR.reads advances_setCode

theorem steps_defDevice : Respects (R ns) (defDevice host parse fuel ns) := by
  refine hR.read advances_code fun codeCopy => hR.read advances_parseLength fun deviceLen =>
    hR.read advances_parseNamestring fun deviceName => (steps_recordDevice hR).bind fun _ =>
    hR.read advances_ask fun r => ?_
  exact (steps_deviceNamespace hR).bind fun _ => hR.read advances_code fun _ =>
    (steps_nested hR hT).bind fun _ => hR.reads advances_setCode

/-- The effect of a term behind its opcode. -/
theorem steps_parseTerm : Respects (R ns) (parseTerm host parse fuel ns op) := by
  cases op with
  | ifElse => exact steps_defIfElse hR hT
  | name => exact steps_defName hR
  | method => exact steps_defMethod hR
  | opRegion => exact steps_defOpRegion hR
  | field => exact steps_defField hR
  | indexField => exact hR.reads advances_skipPackage
  | scope => exact steps_defScope hR hT
  | device => exact steps_defDevice hR hT
  | mutex => exact steps_defMutex hR
  | aliasOp => exact steps_defAlias hR
  | createWordField =>
    exact (steps_defCreateWordField hR).bind fun _ => hR.reads advances_skipPackage
  | processor => exact hR.reads advances_skipPackage
  | other => exact .throw

/-- The step: the effect of `parse_next`, when the term has been entered. -/
theorem steps_entered : Respects (R ns) (nextOp host ns >>= parseTerm host parse fuel ns) := by
  refine Respects.bind ?_ fun op => steps_parseTerm hR hT
  refine hR.read advances_nextByte fun op => ?_
  split
  · exact hR.read advances_nextByte fun _ => .pure
  · exact .pure

theorem steps_parseNext : Respects (R ns) (parseNext host parse fuel ns) :=
  hR.read advances_code fun _ => (steps_enter hR).bind fun _ => steps_entered hR hT

theorem steps_termlistLoop :
    Respects (R ns) (termlistLoop (parseNext host parse fuel ns) ns end_ n) := by
  induction n with
  | zero => exact .throw
  | succ n ih =>
    refine hR.read advances_code fun c => ?_
    split
    · exact (steps_parseNext hR hT).bind fun _ => ih
    · exact steps_leave hR

end

/-- The run: a term list is in `S`. -/
theorem steps_parseTermlist : ∀ ns start end_,
    Respects S (parseTermlist host fuel ns start end_) := by
  induction fuel with
  | zero => exact fun _ _ _ => .throw
  | succ fuel ih =>
    intro ns start end_ s
    simp only [parseTermlist, wp_bind, wp_code, wp_setCode]
    exact (steps_termlistLoop hR ih (s.setCode ns start)).mono (fun _ s' h => hR.termlist h)
      fun _ _ => id

end Aml

end Lethe
