import Lethe.Aml.Handlers

/-!
# Field lists

A Field term lays its named elements out over an operation region, one bit width after the other.
`fieldLayout` is what it declares, and `fieldsMade` what `parse_next_field_elem` registers: there an
element moves the offset by what it returns, which for a named element is the number of its bytes
and for an access element that of its arguments. The loop of `def_field` does not look at the length
of the term, so that it goes on behind it up to the first bytes that are no element (`ListEnds`).
-/

namespace Lethe

/-! ## Syntax -/

/-- An element of a field list; `w` is the number of bytes that its bit width is given in. -/
inductive FieldElem
  | named (seg : NameSeg) (w bits : Nat)
  | reserved (w bits : Nat)
  | access (accessType accessAttrib : UInt8)
  | extendedAccess (accessType accessAttrib accessLen : UInt8)

namespace FieldElem

def encode : FieldElem → List UInt8
  | named seg w bits => seg.key.bytes ++ encodePkgLength w bits
  | reserved w bits => 0x00 :: encodePkgLength w bits
  | access accessType accessAttrib => [0x01, accessType, accessAttrib]
  | extendedAccess accessType accessAttrib accessLen => [0x03, accessType, accessAttrib, accessLen]

/-- The bit width fits. -/
def WF : FieldElem → Prop
  | named _ w bits => PkgFits w bits
  | reserved w bits => PkgFits w bits
  | _ => True

/-- The bits that the element takes in the region. -/
def bits : FieldElem → Nat
  | named _ _ bits => bits
  | reserved _ bits => bits
  | _ => 0

/-- What `parse_next_field_elem` returns for the element. -/
def counted : FieldElem → Nat
  | named _ w _ => keyLen + w
  | reserved _ bits => bits
  | access _ _ => 2
  | extendedAccess _ _ _ => 3

/-- The sum of a number over the elements of a list. -/
def total (f : FieldElem → Nat) : List FieldElem → Nat
  | [] => 0
  | e :: es => f e + total f es

end FieldElem

/-- A Field term. -/
structure FieldTerm where
  w : Nat
  region : NameString
  flags : UInt8
  elems : List FieldElem

namespace FieldTerm

def content (t : FieldTerm) : List UInt8 :=
  t.region.encode ++ t.flags :: t.elems.flatMap FieldElem.encode

def encode (t : FieldTerm) : List UInt8 := 0x5B :: 0x81 :: encodePkg t.w t.content

def WF (t : FieldTerm) : Prop := PkgOk t.w t.content ∧ ∀ e ∈ t.elems, e.WF

end FieldTerm

/-! ## Meaning -/

/-- The field record that the flags declare. -/
def declaredField (flags : UInt8) (region : AmlOperationRegion) : AmlField where
  accessType := flags.toNat % 16
  shouldLock := flags.toNat.testBit 4
  updateRule := flags.toNat / 32 % 4
  region

/-- A named element, with its place in the region. -/
structure FieldUnit where
  key : HashKey
  offset : Nat
  len : Nat

/-- The named elements of a list that starts at `offset`. -/
def fieldLayout : Nat → List FieldElem → List FieldUnit
  | _, [] => []
  | offset, .named seg _ bits :: es => ⟨seg.key, offset, bits⟩ :: fieldLayout (offset + bits) es
  | offset, e :: es => fieldLayout (offset + e.bits) es

/-- The registered object is the unit, in the given record. -/
def FieldUnit.Is (parent : AmlField) (u : FieldUnit) (field : AmlNamedField) : Prop :=
  field.name = u.key ∧ field.offset.toInt = u.offset ∧ field.len.toInt = u.len ∧
    field.parent = parent

/-- The registration of named fields in `ns`, one after the other. -/
def AmlState.register (ns : Nat) (s : AmlState) (fields : List AmlNamedField) : AmlState :=
  fields.foldl (fun s field => s.write (s.tree.setChild ns field.name (.fieldOffset field))) s

/-- From `s` to `s'` the named elements of the term have been registered in `ns`, each in its place,
and nothing else. -/
def FieldTerm.Registers (t : FieldTerm) (region : AmlOperationRegion) (ns : Nat)
    (s s' : AmlState) : Prop :=
  ∃ fields,
    List.Forall₂ (FieldUnit.Is (declaredField t.flags region)) (fieldLayout 0 t.elems) fields ∧
    s'.tree = (s.register ns fields).tree ∧ s'.past = (s.register ns fields).past

/-! ## The elements of the term -/

/-- What `parse_next_field_elem` registers for the element. -/
def FieldElem.made (offset : BitVec 32) (parent : AmlField) : FieldElem → List AmlNamedField
  | .named seg _ bits => [{ offset, len := BitVec.ofNat 32 bits, name := seg.key, parent }]
  | _ => []

/-- What the loop of `def_field` registers for a list. -/
def fieldsMade (parent : AmlField) : BitVec 32 → List FieldElem → List AmlNamedField
  | _, [] => []
  | offset, e :: es =>
    e.made offset parent ++ fieldsMade parent (offset + BitVec.ofNat 32 e.counted) es

namespace Aml

variable {host : AmlHost} {s s' : AmlState} {ns c p fuel : Nat} {offset : BitVec 32}
  {field parent : AmlField}

theorem setCode_register {fields : List AmlNamedField} :
    (s.register ns fields).setCode ns p = (s.setCode ns p).register ns fields := by
  induction fields generalizing s with
  | nil => rfl
  | cons f fields ih => exact ih

@[simp] theorem register_code {fields : List AmlNamedField} :
    (s.register ns fields).code = s.code := by
  induction fields generalizing s with
  | nil => rfl
  | cons f fields ih => exact ih

theorem register_append {fields fields' : List AmlNamedField} :
    s.register ns (fields ++ fields') = (s.register ns fields).register ns fields' :=
  List.foldl_append

/-- The case for a segment. -/
theorem fieldUnitType_named {seg : NameSeg} : FieldUnitType.ofByte seg.key.c0 = .named := by
  have hne : seg.key.c0 ≠ 0x00 ∧ seg.key.c0 ≠ 0x01 ∧ seg.key.c0 ≠ 0x02 ∧ seg.key.c0 ≠ 0x03 := by
    refine ⟨?_, ?_, ?_, ?_⟩ <;> exact fun h => absurd (h ▸ seg.validChar_c0) (by decide)
  simp only [FieldUnitType.ofByte, hne, if_false]

theorem validName_seg {seg : NameSeg} : validName { inner := seg.key.bytes } = true := by
  refine List.all_eq_true.mpr fun b hb => ?_
  exact List.all_eq_true.mp seg.valid b (List.mem_of_mem_drop hb)

theorem fieldElem_encode_pos {e : FieldElem} : 0 < e.encode.length := by
  cases e with
  | named seg w bits =>
    exact Nat.succ_pos _
  | _ => exact Nat.succ_pos _

theorem length_le_flatMap (es : List FieldElem) :
    es.length ≤ (es.flatMap FieldElem.encode).length := by
  induction es with
  | nil => exact Nat.le_refl 0
  | cons e es ih =>
    have hpos := fieldElem_encode_pos (e := e)
    rw [List.flatMap_cons, List.length_append, List.length_cons]
    omega

/-- An access element is passed over, and the number of its arguments returned. -/
theorem wp_parseNextFieldElem_access {Q : Option Nat → AmlState → Prop}
    (hb : host.table[c]? = some b) (hc : s.code ns = c) (hop : b = 0x01 ∧ n = 2 ∨ b = 0x03 ∧ n = 3) :
    Wp (parseNextFieldElem host ns offset parent) Q E s ↔
      Q (some n) (s.setCode ns (c + 1 + n)) := by
  have hmoved : (s.setCode ns (c + 1)).setCode ns (c + 1 + n) = s.setCode ns (c + 1 + n) :=
    setCode_setCode
  rw [parseNextFieldElem, wp_bind, wp_code, wp_bind, wp_nextByte_of hb hc, hc, ← hmoved]
  obtain ⟨rfl, rfl⟩ | ⟨rfl, rfl⟩ := hop <;> rfl

/-- `parse_next_field_elem` on an element: what it returns, and where it leaves off. -/
theorem wp_parseNextFieldElem {e : FieldElem} {Q : Option Nat → AmlState → Prop} (he : e.WF)
    (hat : host.ReadsAt c e.encode) (hc : s.code ns = c) :
    Wp (parseNextFieldElem host ns offset parent) Q E s ↔
      Q (some e.counted)
        ((s.setCode ns (c + e.encode.length)).register ns (e.made offset parent)) := by
  have hnext : ∀ {p}, (s.setCode ns p).code ns = p := Advanced.setCode.code
  cases e with
  | named seg w bits =>
    obtain ⟨hname, hbits⟩ := readsAt_append.mp hat
    obtain ⟨hop, -⟩ := readsAt_cons.mp hname
    replace hbits : host.ReadsAt (c + keyLen) (encodePkgLength w bits) := hbits
    have hlen : (FieldElem.encode (.named seg w bits)).length = keyLen + w := by
      rw [FieldElem.encode, List.length_append, encodePkgLength_length he]
      rfl
    rw [parseNextFieldElem, wp_bind, wp_code, wp_bind, wp_nextByte_of hop hc, fieldUnitType_named,
      hlen, ← Nat.add_assoc, hc]
    dsimp only
    have hmoved : (s.setCode ns (c + keyLen + w)).code ns - c = keyLen + w := by
      rw [hnext, Nat.add_assoc, Nat.add_sub_cancel_left]
    rw [readBytes_eq (n := keyLen) hname rfl, pure_bind, wp_bind, wp_setCode, setCode_setCode,
      validName_seg, if_neg (by simp), wp_bind, wp_parseLength he hbits hnext, setCode_setCode,
      wp_bind, addChildToNamespace, wp_writeTree, wp_bind, wp_code, wp_pure]
    change Q (some ((s.setCode ns (c + keyLen + w)).code ns - c)) _ ↔ _
    rw [hmoved]
    rfl
  | reserved w bits =>
    obtain ⟨hop, hbits⟩ := readsAt_cons.mp hat
    rw [parseNextFieldElem, wp_bind, wp_code, wp_bind, wp_nextByte_of hop hc]
    change Wp (some <$> parseLength host ns) Q E _ ↔ _
    rw [wp_map, wp_parseLength he hbits hnext, setCode_setCode, FieldElem.encode, List.length_cons,
      encodePkgLength_length he, Nat.add_assoc, Nat.add_comm 1 w]
    rfl
  | access accessType accessAttrib =>
    exact wp_parseNextFieldElem_access (readsAt_cons.mp hat).1 hc (.inl ⟨rfl, rfl⟩)
  | extendedAccess accessType accessAttrib accessLen =>
    exact wp_parseNextFieldElem_access (readsAt_cons.mp hat).1 hc (.inr ⟨rfl, rfl⟩)

/-- The loop of `def_field` over the elements of a list, up to what is behind it. -/
theorem wp_fieldLoop_elems {es : List FieldElem} {Q : Unit → AmlState → Prop} (hes : ∀ e ∈ es, e.WF)
    (hat : host.ReadsAt c (es.flatMap FieldElem.encode)) (hc : s.code ns = c) :
    Wp (fieldLoop host ns field (es.length + fuel) offset) Q E s ↔
      Wp (fieldLoop host ns field fuel
        (offset + BitVec.ofNat 32 (FieldElem.total FieldElem.counted es))) Q E
        ((s.setCode ns (c + (es.flatMap FieldElem.encode).length)).register ns
          (fieldsMade field offset es)) := by
  induction es generalizing s c offset with
  | nil =>
    have hstate : s.setCode ns c = s := by
      rw [← hc, AmlState.setCode, Function.update_eq_self]
    have hoffset : offset + BitVec.ofNat 32 0 = offset := BitVec.add_zero offset
    rw [List.flatMap_nil, List.length_nil, List.length_nil, Nat.zero_add, Nat.add_zero, hstate,
      FieldElem.total, hoffset]
    rfl
  | cons e es ih =>
    obtain ⟨he, hes⟩ := List.forall_mem_cons.mp hes
    rw [List.flatMap_cons] at hat
    obtain ⟨hat₁, hat₂⟩ := readsAt_append.mp hat
    have hcode : ((s.setCode ns (c + e.encode.length)).register ns (e.made offset field)).code ns =
        c + e.encode.length := by
      rw [register_code]
      exact Advanced.setCode.code
    rw [List.length_cons, Nat.add_right_comm, fieldLoop, wp_bind, wp_parseNextFieldElem he hat₁ hc]
    dsimp only
    rw [ih hes hat₂ hcode, setCode_register, setCode_setCode, ← register_append, FieldElem.total,
      BitVec.ofNat_add, BitVec.add_assoc, List.flatMap_cons, List.length_append, Nat.add_assoc]
    rfl

end Aml

/-! ## What follows the term -/

/-- The bytes of a package length at `p` end at `q`. -/
def AmlHost.LengthAt (host : AmlHost) (p q : Nat) : Prop :=
  ∃ b, host.table[p]? = some b ∧ q = p + 1 + b.toNat / 64 ∧ q ≤ host.table.length

theorem AmlHost.LengthAt.unique {host : AmlHost} (h : host.LengthAt p q) (h' : host.LengthAt p q') :
    q = q' := by
  obtain ⟨b, hb, rfl, -⟩ := h
  obtain ⟨b', hb', rfl, -⟩ := h'
  rw [Option.some.inj (hb.symm.trans hb')]

theorem AmlHost.LengthAt.lt {host : AmlHost} (h : host.LengthAt p q) : p < q := by
  obtain ⟨b, -, rfl, -⟩ := h
  omega

namespace Aml

variable {host : AmlHost} {s s' : AmlState} {ns c p fuel : Nat} {offset : BitVec 32}
  {field : AmlField}

/-- `parse_length` on any bytes. -/
theorem parseLength_ends (hc : s.code ns = c) :
    Wp (parseLength host ns) (fun _ s' => ∃ q, host.LengthAt c q ∧ s' = s.setCode ns q)
      (fun _ _ => ∀ q, ¬host.LengthAt c q) s := by
  have hnext : ∀ {p}, (s.setCode ns p).code ns = p := Advanced.setCode.code
  rw [parseLength, wp_bind]
  refine nextByte_cases hc (fun b hb => ?_) fun hle q hq => ?_
  · have hlt : c < host.table.length := (List.getElem?_eq_some_iff.mp hb).1
    have hcount : b.toNat >>> 6 &&& 0b11 = b.toNat / 64 := by
      rw [Nat.shiftRight_eq_div_pow, Nat.and_two_pow_sub_one_eq_mod _ 2]
      have := b.toNat_lt
      omega
    have hnone : host.table.length < c + 1 + b.toNat / 64 → ∀ q, ¬host.LengthAt c q := by
      rintro hlt q ⟨b', hb', rfl, hle⟩
      obtain rfl := Option.some.inj (hb.symm.trans hb')
      omega
    have hsome : ∀ {k s'}, b.toNat / 64 = k → c + k < host.table.length →
        s' = s.setCode ns (c + 1 + k) → ∃ q, host.LengthAt c q ∧ s' = s.setCode ns q := by
      rintro k s' hk hle rfl
      exact ⟨c + 1 + k, ⟨b, hb, by rw [hk], by omega⟩, rfl⟩
    have hread : ∀ {p b'}, host.table[p]? = some b' → p < host.table.length :=
      fun h => (List.getElem?_eq_some_iff.mp h).1
    have hfour : b.toNat / 64 < 4 := by
      have := b.toNat_lt
      omega
    dsimp only
    rw [hcount]
    obtain h | h | h | h :
        b.toNat / 64 = 0 ∨ b.toNat / 64 = 1 ∨ b.toNat / 64 = 2 ∨ b.toNat / 64 = 3 := by omega
    all_goals rw [h]
    · exact hsome h hlt rfl
    · refine wp_bind.mpr (nextByte_cases hnext (fun b₁ hb₁ => ?_) fun hle => hnone (by omega))
      exact hsome h (hread hb₁) setCode_setCode
    · refine wp_bind.mpr (nextByte_cases hnext (fun b₁ hb₁ => ?_) fun hle => hnone (by omega))
      rw [setCode_setCode, wp_bind]
      refine nextByte_cases hnext (fun b₂ hb₂ => ?_) fun hle => hnone (by omega)
      exact hsome h (hread hb₂) setCode_setCode
    · refine wp_bind.mpr (nextByte_cases hnext (fun b₁ hb₁ => ?_) fun hle => hnone (by omega))
      rw [setCode_setCode, wp_bind]
      refine nextByte_cases hnext (fun b₂ hb₂ => ?_) fun hle => hnone (by omega)
      rw [setCode_setCode, wp_bind]
      refine nextByte_cases hnext (fun b₃ hb₃ => ?_) fun hle => hnone (by omega)
      exact hsome h (hread hb₃) setCode_setCode
  · obtain ⟨b, hb, -⟩ := hq
    exact absurd (List.getElem?_eq_some_iff.mp hb).1 (Nat.not_lt.mpr hle)

end Aml

/-- From `p` on there are elements without a name, and then bytes that are no element, which end the
list. -/
inductive AmlHost.ListEnds (host : AmlHost) : Nat → Prop
  | stop (hb : host.table[p]? = some b) (hop : FieldUnitType.ofByte b = .named)
      (hle : p + keyLen ≤ host.table.length)
      (hname : validName { inner := (host.table.drop p).take keyLen } = false) : ListEnds host p
  | reserved (hb : host.table[p]? = some 0x00) (hlen : host.LengthAt (p + 1) q)
      (h : ListEnds host q) : ListEnds host p
  | access (hb : host.table[p]? = some 0x01) (h : ListEnds host (p + 1 + 2)) : ListEnds host p
  | extendedAccess (hb : host.table[p]? = some 0x03) (h : ListEnds host (p + 1 + 3)) :
      ListEnds host p

/-- No registered tree is taken back. -/
def PastGrows (s s' : AmlState) : Prop := s.past.length ≤ s'.past.length

instance : IsPreorder AmlState PastGrows where
  refl s := Nat.le_refl s.past.length
  trans _ _ _ := Nat.le_trans

theorem pastGrows_write {s : AmlState} : PastGrows s (s.write t) := by
  rw [PastGrows, AmlState.write, List.length_append]
  exact Nat.le_add_right _ _

theorem pastGrows_handlers : HandlerRelation (fun _ => PastGrows) PastGrows where
  advances := by
    rintro ns s _ ⟨p, clock, rfl⟩
    exact Nat.le_refl s.past.length
  enter {_ s _} := Nat.le_refl s.past.length
  leave {_ s _} := Nat.le_refl s.past.length
  record {_ s _ _} := Nat.le_refl s.past.length
  setChild _ := pastGrows_write
  method {_ s n key method} := pastGrows_write (t := s.tree.setChild n key (.method method))
  create {_ s parent name origin _} :=
    pastGrows_write (t := s.tree.createNamespace parent name origin)
  adopt := pastGrows_write
  nested := id
  termlist := id

namespace Aml

variable {host : AmlHost} {s s' : AmlState} {ns c p fuel : Nat} {offset : BitVec 32}
  {field : AmlField}

/-- The loop goes over the elements without a name and stops. -/
theorem fieldLoop_ends (h : host.ListEnds p) (hfuel : host.table.length < p + fuel)
    (hc : s.code ns = p) :
    Wp (fieldLoop host ns field fuel offset) (fun _ s' => s'.tree = s.tree ∧ s'.past = s.past)
      (fun _ _ => False) s := by
  have hread : ∀ {p b}, host.table[p]? = some b → p < host.table.length :=
    fun h => (List.getElem?_eq_some_iff.mp h).1
  have hnext : ∀ {p} {s : AmlState}, (s.setCode ns p).code ns = p := Advanced.setCode.code
  induction h generalizing fuel s offset with
  | @stop p b hb hop hle hname =>
    have hlt := hread hb
    obtain ⟨fuel, rfl⟩ : ∃ n, fuel = n + 1 := ⟨fuel - 1, by omega⟩
    rw [fieldLoop, wp_bind, parseNextFieldElem, wp_bind, wp_code, wp_bind,
      wp_nextByte_of hb hc, hop]
    dsimp only
    rw [hc, readBytes, if_pos (.inr hle), pure_bind, wp_bind, wp_setCode, setCode_setCode, hname,
      if_pos (by rfl), wp_bind, wp_setCode]
    exact ⟨rfl, rfl⟩
  | @reserved p q hb hlen h ih =>
    have hlt := hread hb
    obtain ⟨fuel, rfl⟩ : ∃ n, fuel = n + 1 := ⟨fuel - 1, by omega⟩
    rw [fieldLoop, wp_bind, parseNextFieldElem, wp_bind, wp_code, wp_bind, wp_nextByte_of hb hc]
    change Wp (some <$> parseLength host ns) _ _ _
    rw [wp_map]
    refine (parseLength_ends hnext).mono ?_ fun _ _ hno => hno q hlen
    rintro n _ ⟨q', hlen', rfl⟩
    obtain rfl := hlen'.unique hlen
    have hlt' := hlen.lt
    rw [setCode_setCode]
    exact ih (by omega) hnext
  | @access p hb h ih =>
    have hlt := hread hb
    obtain ⟨fuel, rfl⟩ : ∃ n, fuel = n + 1 := ⟨fuel - 1, by omega⟩
    rw [fieldLoop, wp_bind, wp_parseNextFieldElem_access hb hc (.inl ⟨rfl, rfl⟩)]
    exact ih (by omega) hnext
  | @extendedAccess p hb h ih =>
    have hlt := hread hb
    obtain ⟨fuel, rfl⟩ : ∃ n, fuel = n + 1 := ⟨fuel - 1, by omega⟩
    rw [fieldLoop, wp_bind, wp_parseNextFieldElem_access hb hc (.inr ⟨rfl, rfl⟩)]
    exact ih (by omega) hnext

/-- Where the list does not end so, `parse_next_field_elem` registers something, or it goes on to
where the list does not end so either. -/
theorem parseNextFieldElem_runs_on (h : ¬host.ListEnds p) (hc : s.code ns = p) :
    Wp (parseNextFieldElem host ns offset field) (fun len s' => len.isSome ∧
        (s.past.length < s'.past.length ∨ s'.past = s.past ∧ ¬host.ListEnds (s'.code ns)))
      (fun _ _ => True) s := by
  have hnext : ∀ {p} {s : AmlState}, (s.setCode ns p).code ns = p := Advanced.setCode.code
  by_cases haccess : ∃ b n, host.table[p]? = some b ∧ (b = 0x01 ∧ n = 2 ∨ b = 0x03 ∧ n = 3)
  · obtain ⟨b, n, hb, hop⟩ := haccess
    rw [wp_parseNextFieldElem_access hb hc hop]
    refine ⟨rfl, .inr ⟨rfl, ?_⟩⟩
    rw [hnext]
    obtain ⟨rfl, rfl⟩ | ⟨rfl, rfl⟩ := hop
    · exact fun hends => h (.access hb hends)
    · exact fun hends => h (.extendedAccess hb hends)
  rw [parseNextFieldElem, wp_bind, wp_code, wp_bind]
  refine nextByte_cases hc (fun b hb => ?_) fun _ => trivial
  rw [hc]
  have h₁ : b ≠ 0x01 := fun e => haccess ⟨b, 2, hb, .inl ⟨e, rfl⟩⟩
  have h₃ : b ≠ 0x03 := fun e => haccess ⟨b, 3, hb, .inr ⟨e, rfl⟩⟩
  by_cases h₀ : b = 0x00
  · subst h₀
    change Wp (some <$> parseLength host ns) _ _ _
    rw [wp_map]
    refine (parseLength_ends hnext).mono ?_ fun _ _ _ => trivial
    rintro n _ ⟨q, hlen, rfl⟩
    refine ⟨rfl, .inr ⟨rfl, ?_⟩⟩
    rw [hnext]
    exact fun hends => h (.reserved hb hlen hends)
  by_cases h₂ : b = 0x02
  · subst h₂
    trivial
  have hop : FieldUnitType.ofByte b = .named := by
    simp only [FieldUnitType.ofByte, h₀, h₁, h₂, h₃, if_false]
  rw [hop]
  dsimp only
  rw [wp_bind]
  refine wp_readBytes (fun hle => ?_) trivial
  replace hle : p + keyLen ≤ host.table.length := hle.resolve_left (by decide)
  rw [wp_bind, wp_setCode, setCode_setCode]
  split
  · next hname => exact absurd (.stop hb hop hle (by simpa using hname)) h
  · rw [wp_bind]
    refine (parseLength_ends hnext).mono ?_ fun _ _ _ => trivial
    rintro n _ ⟨q, -, rfl⟩
    refine ⟨rfl, .inl ?_⟩
    change s.past.length < (s.past ++ [s.tree]).length
    rw [List.length_append]
    exact Nat.lt_succ_self _

theorem pastGrows_fieldLoop : Respects PastGrows (fieldLoop host ns field fuel offset) :=
  steps_fieldLoop (R := fun _ => PastGrows) pastGrows_handlers

/-- So the loop does not return without a further registration. -/
theorem fieldLoop_runs_on (h : ¬host.ListEnds p) (hc : s.code ns = p) :
    Wp (fieldLoop host ns field fuel offset) (fun _ s' => s.past.length < s'.past.length)
      (fun _ _ => True) s := by
  induction fuel generalizing s p offset with
  | zero => trivial
  | succ fuel ih =>
    rw [fieldLoop, wp_bind]
    refine (parseNextFieldElem_runs_on h hc).mono ?_ fun _ _ => id
    rintro (_ | len) s₁ ⟨hlen, hnext⟩
    · cases hlen
    · obtain hmade | ⟨hpast, hends⟩ := hnext
      · refine (pastGrows_fieldLoop s₁).mono (fun _ s₂ h₂ => ?_) fun _ _ => id
        exact Nat.lt_of_lt_of_le hmade h₂
      · rw [← hpast]
        exact ih hends rfl

/-! ## What is registered -/

section
variable {fields fields' : List AmlNamedField}

theorem register_congr (ns : Nat) (fields : List AmlNamedField) (ht : s.tree = s'.tree)
    (hp : s.past = s'.past) :
    (s.register ns fields).tree = (s'.register ns fields).tree ∧
      (s.register ns fields).past = (s'.register ns fields).past := by
  induction fields generalizing s s' with
  | nil => exact ⟨ht, hp⟩
  | cons f fields ih =>
    refine ih ?_ ?_
    · simp only [AmlState.write, ht]
    · simp only [AmlState.write, ht, hp]

theorem register_past_length :
    (s.register ns fields).past.length = s.past.length + fields.length := by
  induction fields generalizing s with
  | nil => rfl
  | cons f fields ih =>
    refine ih.trans ?_
    change (s.past ++ [s.tree]).length + fields.length = _
    rw [List.length_append, List.length_singleton, List.length_cons, Nat.add_assoc, Nat.add_comm 1]

theorem register_last (s : AmlState) (ns : Nat) (fields : List AmlNamedField) (f : AmlNamedField) :
    ((s.register ns (fields ++ [f])).tree.nodes ns).children f.name = some (.fieldOffset f) := by
  rw [register_append]
  exact Tree.setChild_children.trans (if_pos ⟨rfl, rfl⟩)

/-- The trees so far stay. -/
theorem register_prefix (ns : Nat) (fields : List AmlNamedField) :
    s.past ++ [s.tree] <+: (s.register ns fields).past ++ [(s.register ns fields).tree] := by
  induction fields generalizing s with
  | nil => exact List.prefix_refl _
  | cons f fields ih =>
    have hwrite : s.past ++ [s.tree] <+:
        (s.past ++ [s.tree]) ++ [s.tree.setChild ns f.name (.fieldOffset f)] :=
      List.prefix_append _ _
    exact hwrite.trans (ih (s := s.write (s.tree.setChild ns f.name (.fieldOffset f))))

/-- The trees show what has been registered under the same names. -/
theorem register_inj (hnames : fields.map AmlNamedField.name = fields'.map AmlNamedField.name)
    (ht : (s.register ns fields).tree = (s.register ns fields').tree)
    (hp : (s.register ns fields).past = (s.register ns fields').past) : fields = fields' := by
  induction fields generalizing s fields' with
  | nil => exact (List.map_eq_nil_iff.mp hnames.symm).symm
  | cons f fields ih =>
    cases fields' with
    | nil => cases hnames
    | cons f' fields' =>
      obtain ⟨hname, hrest⟩ := List.cons_eq_cons.mp hnames
      let t := s.tree.setChild ns f.name (.fieldOffset f)
      let t' := s.tree.setChild ns f'.name (.fieldOffset f')
      change ((s.write t).register ns fields).tree = ((s.write t').register ns fields').tree at ht
      change ((s.write t).register ns fields).past = ((s.write t').register ns fields').past at hp
      have hfirst : (s.past ++ [s.tree]) ++ [t] <+: _ := register_prefix (s := s.write t) ns fields
      have hfirst' : (s.past ++ [s.tree]) ++ [t'] <+: _ :=
        register_prefix (s := s.write t') ns fields'
      rw [ht, hp] at hfirst
      have hsame : t = t' := by
        have h := List.prefix_of_prefix_length_le hfirst hfirst' (by simp)
        exact List.singleton_inj.mp (List.append_cancel_left (h.eq_of_length (by simp)))
      have hf : some (AmlPtr.fieldOffset f) = some (AmlPtr.fieldOffset f') := by
        have h := congrArg (fun t => (t.nodes ns).children f.name) hsame
        simp only [t, t', Tree.setChild_children, if_pos, hname, and_self] at h
        exact h
      obtain rfl := AmlPtr.fieldOffset.inj (Option.some.inj hf)
      rw [ih hrest ht hp]

end

end Aml

/-! ## The layout -/

def FieldElem.IsNamed : FieldElem → Prop
  | .named _ _ _ => True
  | _ => False

/-- The named elements come to where they are declared: the offset that is counted for the elements
in front of one is the sum of their bit widths, and the bits 5 and 6 of the flags are clear. -/
def FieldTerm.LaidOut (t : FieldTerm) : Prop :=
  ∀ front e rest, t.elems = front ++ e :: rest → e.IsNamed → t.flags.toNat &&& 0x60 = 0 ∧
    (BitVec.ofNat 32 (FieldElem.total FieldElem.counted front)).toInt =
      (FieldElem.total FieldElem.bits front : Nat)

theorem forall_split_cons {P : List α → α → Prop} :
    (∀ front x rest, a :: l = front ++ x :: rest → P front x) ↔
      P [] a ∧ ∀ front x rest, l = front ++ x :: rest → P (a :: front) x := by
  constructor
  · intro h
    exact ⟨h [] a l rfl, fun front x rest hl => h (a :: front) x rest (by rw [hl]; rfl)⟩
  · rintro ⟨ha, hl⟩ front x rest h
    cases front with
    | nil =>
      obtain ⟨rfl, rfl⟩ := List.cons_eq_cons.mp h
      exact ha
    | cons b front =>
      obtain ⟨rfl, rfl⟩ := List.cons_eq_cons.mp h
      exact hl front x rest rfl

theorem fieldsMade_names (parent : AmlField) (offset : BitVec 32) (es : List FieldElem) :
    (fieldsMade parent offset es).map AmlNamedField.name =
      (fieldLayout n es).map FieldUnit.key := by
  induction es generalizing n offset with
  | nil => rfl
  | cons e es ih =>
    cases e with
    | named seg w bits => exact congrArg (seg.key :: ·) (ih _)
    | _ => exact ih _

theorem forall₂_is_names {us : List FieldUnit} {fields : List AmlNamedField}
    (h : List.Forall₂ (FieldUnit.Is parent) us fields) :
    fields.map AmlNamedField.name = us.map FieldUnit.key := by
  induction h with
  | nil => rfl
  | cons h _ ih => rw [List.map_cons, List.map_cons, h.1, ih]

theorem forall₂_fieldsMade_iff {declared parent : AmlField} {es : List FieldElem}
    {offset : BitVec 32} (hes : ∀ e ∈ es, e.WF) :
    List.Forall₂ (FieldUnit.Is declared) (fieldLayout n es) (fieldsMade parent offset es) ↔
      ∀ front e rest, es = front ++ e :: rest → e.IsNamed → parent = declared ∧
        (offset + BitVec.ofNat 32 (FieldElem.total FieldElem.counted front)).toInt =
          (n + FieldElem.total FieldElem.bits front : Nat) := by
  induction es generalizing n offset with
  | nil => exact iff_of_true .nil fun front e rest h => by simp at h
  | cons e es ih =>
    obtain ⟨he, hes⟩ := List.forall_mem_cons.mp hes
    rw [forall_split_cons]
    simp only [FieldElem.total, BitVec.ofNat_add, ← BitVec.add_assoc, ← Nat.add_assoc]
    have hrest := @ih (n + e.bits) (offset + BitVec.ofNat 32 e.counted) hes
    cases e with
    | named seg w bits =>
      have hlen : (BitVec.ofNat 32 bits).toInt = (bits : Int) := by
        have hlt := PkgFits.lt he
        have hmod : bits % 2 ^ 32 = bits := Nat.mod_eq_of_lt (by omega)
        rw [BitVec.toInt_eq_toNat_of_lt (by rw [BitVec.toNat_ofNat]; omega),
          BitVec.toNat_ofNat, hmod]
      have hoffset : offset + BitVec.ofNat 32 0 = offset := BitVec.add_zero offset
      refine List.forall₂_cons.trans (and_congr ?_ hrest)
      simp only [hoffset, Nat.add_zero]
      constructor
      · rintro ⟨-, hplace, -, hparent⟩ -
        exact ⟨hparent, hplace⟩
      · intro h
        obtain ⟨hparent, hplace⟩ := h trivial
        exact ⟨rfl, hplace, hlen, hparent⟩
    | reserved w bits => exact hrest.trans (and_iff_right False.elim).symm
    | access accessType accessAttrib => exact hrest.trans (and_iff_right False.elim).symm
    | extendedAccess accessType accessAttrib accessLen =>
      exact hrest.trans (and_iff_right False.elim).symm

/-- With the reserved bit clear, the record is the declared one exactly if the bits 5 and 6 are. -/
theorem field_eq_declared_iff {flags : UInt8} {region : AmlOperationRegion}
    (hflags : flags.toNat &&& 0x80 = 0) :
    AmlField.mk (flags.toNat &&& 0xF) (flags.toNat &&& 0x10 != 0) ((flags.toNat &&& 0xC0) >>> 6)
      region = declaredField flags region ↔ flags.toNat &&& 0x60 = 0 := by
  have hbits : ∀ n < 256, n &&& 0x80 = 0 → n &&& 0xF = n % 16 ∧ (n &&& 0x10 != 0) = n.testBit 4 ∧
      ((n &&& 0xC0) >>> 6 = n / 32 % 4 ↔ n &&& 0x60 = 0) := by decide +kernel
  obtain ⟨haccess, hlock, hrule⟩ := hbits flags.toNat flags.toNat_lt hflags
  rw [declaredField, AmlField.mk.injEq, haccess, hlock, hrule]
  simp

namespace Aml

variable {host : AmlHost} {s s' : AmlState} {ns c p fuel : Nat} {t : FieldTerm}
  {region : AmlOperationRegion}

/-- What has been registered can only be what was made of the elements. -/
theorem registers_fieldsMade_iff {parent : AmlField} (hs : s'.tree = s.tree ∧ s'.past = s.past) :
    t.Registers region ns s (s'.register ns (fieldsMade parent 0 t.elems)) ↔
      List.Forall₂ (FieldUnit.Is (declaredField t.flags region)) (fieldLayout 0 t.elems)
        (fieldsMade parent 0 t.elems) := by
  obtain ⟨ht, hp⟩ := register_congr ns (fieldsMade parent 0 t.elems) hs.1 hs.2
  rw [FieldTerm.Registers, ht, hp]
  constructor
  · rintro ⟨fields, hfields, ht, hp⟩
    have hmade :=
      register_inj ((fieldsMade_names _ _ _).trans (forall₂_is_names hfields).symm) ht hp
    rwa [hmade]
  · exact fun hfields => ⟨_, hfields, rfl, rfl⟩

/-- `parse_next` on a Field term, up to the loop. -/
theorem wp_parseNext_field (parse : Nat → Nat → Nat → Aml Unit) (hwf : t.WF)
    (hat : host.ReadsAt c t.encode) (hc : s.code ns = c) (hflags : t.flags.toNat &&& 0x80 = 0)
    (hfuel : host.table.length < fuel)
    (hregion : ∀ behind, ∃ name, locateObject .children s.tree ns ⟨t.region.inner, behind⟩ =
      .ok (some (.region region), name)) :
    ∃ s₀, (s₀.tree = s.tree ∧ s₀.past = s.past) ∧
      s₀.code ns = c + 2 + t.w + t.region.encode.length + 1 ∧
      ∀ Q E, Wp (parseNext host parse fuel ns) Q E s ↔ Wp (do
        fieldLoop host ns
          { accessType := t.flags.toNat &&& 0xF
            shouldLock := t.flags.toNat &&& 0x10 != 0
            updateRule := (t.flags.toNat &&& 0xC0) >>> 6
            region } fuel 0
        setCode ns (c + 2 + (t.w + t.content.length))) Q E s₀ := by
  obtain ⟨hop, hpkg⟩ := readsAt_ext.mp hat
  replace hpkg : host.ReadsAt (c + 2) (encodePkg t.w t.content) := hpkg
  obtain ⟨hlen, hcontent⟩ := readsAt_pkg hwf.1 hpkg
  obtain ⟨hname, hbehind⟩ := readsAt_append.mp hcontent
  obtain ⟨hflag, -⟩ := readsAt_cons.mp hbehind
  have hlead : t.region.lead.encode.length < fuel := by
    have hle := hname.le
    have hlen : t.region.encode.length = t.region.lead.encode.length + _ := List.length_append
    omega
  let s₁ := (s.emit (.enter c)).setCode ns (c + 2 + t.w)
  obtain ⟨v, _, hok, hinner, rfl⟩ := wp_returns.mp
    (parseNamestring_eq (s := s₁) (.of_lt hlead) hname Advanced.setCode.code)
  obtain ⟨inner, behind⟩ := v
  obtain rfl := hinner
  obtain ⟨name, hlocate⟩ := hregion behind
  have hterm : ((s.emit (.enter c)).setCode ns (c + 2)).code ns = c + 2 := Advanced.setCode.code
  have hnamed : ((s₁.setCode ns (c + 2 + t.w + t.region.encode.length)).tick).code ns =
      c + 2 + t.w + t.region.encode.length := Advanced.setCode.code
  refine ⟨((s₁.setCode ns (c + 2 + t.w + t.region.encode.length)).tick).setCode ns
    (c + 2 + t.w + t.region.encode.length + 1), ⟨rfl, rfl⟩, Advanced.setCode.code, fun Q E => ?_⟩
  rw [wp_parseNext_ext hop hc]
  change Wp (defField host fuel ns) Q E _ ↔ _
  rw [defField, wp_bind, wp_code, hterm, wp_bind, wp_parseLength hwf.1 hlen hterm,
    setCode_setCode, wp_bind, wp_of_ok hok, wp_bind, wp_ask_of_ok hlocate]
  dsimp only
  have hreserved : (t.flags.toNat &&& 0x80 == 0) = true := beq_iff_eq.mpr hflags
  rw [wp_bind, wp_nextByte_of hflag hnamed, hreserved, assert, if_pos rfl, pure_bind]

theorem fieldElems_at (hwf : t.WF) (hat : host.ReadsAt c t.encode) :
    host.ReadsAt (c + 2 + t.w + t.region.encode.length + 1) (t.elems.flatMap FieldElem.encode) ∧
      c + 2 + t.w + t.region.encode.length + 1 + (t.elems.flatMap FieldElem.encode).length =
        c + t.encode.length := by
  obtain ⟨-, hpkg⟩ := readsAt_ext.mp hat
  obtain ⟨-, hbehind⟩ := readsAt_append.mp (readsAt_pkg hwf.1 hpkg).2
  refine ⟨(readsAt_cons.mp hbehind).2, ?_⟩
  rw [FieldTerm.encode, List.length_cons, List.length_cons, encodePkg, List.length_append,
    encodePkgLength_length hwf.1, FieldTerm.content, List.length_append, List.length_cons]
  omega

/-- A Field term on a region registers its named elements in their places, and nothing else, exactly
if what is counted gives these places and the bytes behind the term end the list. -/
theorem parseNext_registers_iff (host : AmlHost) (parse : Nat → Nat → Nat → Aml Unit)
    (t : FieldTerm) (region : AmlOperationRegion) (s : AmlState) (ns c : Nat) (hwf : t.WF)
    (hflags : t.flags.toNat &&& 0x80 = 0)
    (hregion : ∀ behind, ∃ name, locateObject .children s.tree ns ⟨t.region.inner, behind⟩ =
      .ok (some (.region region), name))
    (hat : host.ReadsAt c t.encode) (hc : s.code ns = c) :
    ∃ bound, ∀ fuel, bound ≤ fuel →
      (Wp (parseNext host parse fuel ns) (fun _ s' => t.Registers region ns s s')
        (fun _ _ => False) s ↔
        t.LaidOut ∧ host.ListEnds (c + t.encode.length)) := by
  refine ⟨host.table.length + 1, fun fuel hfuel => ?_⟩
  obtain ⟨s₀, hs₀, hc₀, hrun⟩ := wp_parseNext_field parse hwf hat hc hflags hfuel hregion
  obtain ⟨helems, hend⟩ := fieldElems_at hwf hat
  have hlength := length_le_flatMap t.elems
  have hle := helems.le
  obtain ⟨rest, rfl⟩ : ∃ n, fuel = t.elems.length + n := ⟨fuel - t.elems.length, by omega⟩
  rw [hrun, wp_bind]
  change Wp (fieldLoop _ _ _ _ _) (fun _ s' => t.Registers region ns s s') _ s₀ ↔ _
  rw [wp_fieldLoop_elems hwf.2 helems hc₀, hend]
  let record : AmlField :=
    { accessType := t.flags.toNat &&& 0xF
      shouldLock := t.flags.toNat &&& 0x10 != 0
      updateRule := (t.flags.toNat &&& 0xC0) >>> 6
      region }
  let s₁ := (s₀.setCode ns (c + t.encode.length)).register ns (fieldsMade record 0 t.elems)
  have hc₁ : s₁.code ns = c + t.encode.length := by
    rw [register_code]
    exact Advanced.setCode.code
  by_cases hends : host.ListEnds (c + t.encode.length)
  · have hroom : host.table.length < c + t.encode.length + rest := by omega
    obtain ⟨_, s', hok, htree, hpast⟩ := wp_returns.mp (fieldLoop_ends hends hroom hc₁)
    have hmade : t.Registers region ns s s₁ ↔ _ := registers_fieldsMade_iff hs₀
    rw [wp_of_ok hok, FieldTerm.Registers, htree, hpast, and_iff_left hends]
    refine hmade.trans ((forall₂_fieldsMade_iff hwf.2).trans ?_)
    have hzero : ∀ x : BitVec 32, 0 + x = x := BitVec.zero_add
    simp only [record, field_eq_declared_iff hflags, hzero, Nat.zero_add, FieldTerm.LaidOut]
  · refine iff_of_false (fun h => ?_) fun h => hends h.2
    obtain ⟨_, s', hok, fields, hfields, -, hpast⟩ := wp_returns.mp h
    have hlt : s₁.past.length < s'.past.length := (wp_of_ok hok).mp (fieldLoop_runs_on hends hc₁)
    have hcount : fields.length = (fieldsMade record 0 t.elems).length := by
      have hnames := (forall₂_is_names hfields).trans (fieldsMade_names record 0 t.elems).symm
      have hlen := congrArg List.length hnames
      rwa [List.length_map, List.length_map] at hlen
    have hlen : s'.past.length = s.past.length + fields.length := by
      rw [hpast]
      exact register_past_length
    have hlen₁ : s₁.past.length = s.past.length + (fieldsMade record 0 t.elems).length := by
      rw [register_past_length, ← hs₀.2]
      rfl
    omega

/-- `REGN`. -/
def regnSeg : NameSeg := ⟨keyOfChars 'R' 'E' 'G' 'N', by decide⟩

def regnRegion : AmlOperationRegion :=
  { name := regnSeg.key, regionSpace := 0, offset := 0x1000, len := 0x10 }

/-- The predefined namespaces with the region `REGN`. -/
def regnState : AmlState :=
  { initAmlState with tree := initAmlNamespaces.setChild root regnSeg.key (.region regnRegion) }

/-- `LOWB`. -/
def lowbSeg : NameSeg := ⟨keyOfChars 'L' 'O' 'W' 'B', by decide⟩

/-- `HIGB`. -/
def higbSeg : NameSeg := ⟨keyOfChars 'H' 'I' 'G' 'B', by decide⟩

/-- `Field (REGN, ByteAcc, NoLock, Preserve)` with the given elements. -/
def regnField (elems : List FieldElem) : FieldTerm := ⟨1, ⟨.parents 0, .seg regnSeg⟩, 0x01, elems⟩

/-- The term, and the start of another. -/
def regnHost (elems : List FieldElem) : AmlHost where
  table := (regnField elems).encode ++ [0x5B, 0x81, 0x06, 0x00]
  uninit _ _ := 0
  readMem _ _ _ := none
  readIo _ _ _ := 0

theorem parseNext_registers_iff_lowb :
    let elems : List FieldElem := [.named lowbSeg 1 8]
    ∃ bound, ∀ fuel, bound ≤ fuel →
      Wp (parseNext (regnHost elems) (parseTermlist (regnHost elems) 16) fuel root)
        (fun _ s' => (regnField elems).Registers regnRegion root regnState s')
        (fun _ _ => False) regnState := by
  intro elems
  have hwf : (regnField elems).WF := by
    refine ⟨.inl ⟨rfl, by decide⟩, fun e he => ?_⟩
    obtain rfl := List.mem_singleton.mp he
    exact .inl ⟨rfl, by decide⟩
  obtain ⟨bound, h⟩ := parseNext_registers_iff (regnHost elems) (parseTermlist (regnHost elems) 16)
    (regnField elems) regnRegion regnState root 0 hwf (by decide) (fun _ => ⟨_, rfl⟩)
    ⟨[0x5B, 0x81, 0x06, 0x00], rfl⟩ rfl
  refine ⟨bound, fun fuel hfuel => (h fuel hfuel).mpr ⟨?_, ?_⟩⟩
  · rintro front e rest hsplit -
    obtain ⟨rfl, -⟩ | ⟨_, -, h⟩ := List.append_eq_cons_iff.mp hsplit.symm
    · exact ⟨by decide, rfl⟩
    · simp at h
  · exact .stop rfl rfl (by decide) (by decide)

/-- The offset of an object that is a field. -/
def fieldOffset : AmlPtr → Int
  | .fieldOffset field => field.offset.toInt
  | _ => 0

/-- The second byte of the region is placed behind the five bytes of the element in front of it. -/
theorem higb_misplaced :
    let elems : List FieldElem := [.named lowbSeg 1 8, .named higbSeg 1 8]
    ¬Wp (parseNext (regnHost elems) (parseTermlist (regnHost elems) 16) 64 root)
      (fun _ s' => (regnField elems).Registers regnRegion root regnState s')
      (fun _ _ => False) regnState := by
  intro elems h
  have hrun :
    (match parseNext (regnHost elems) (parseTermlist (regnHost elems) 16) 64 root regnState with
      | .ok _ s' => ((s'.tree.nodes root).children higbSeg.key).elim 0 fieldOffset
      | .error _ _ => 0) = 5 := by decide
  obtain ⟨_, s', hok, fields, hfields, htree, -⟩ := wp_returns.mp h
  obtain _ | @⟨_, f, _, _, -, hrest⟩ := hfields
  obtain _ | @⟨_, f', _, _, ⟨hname, hoffset, -⟩, ⟨⟩⟩ := hrest
  have hchild :
    ((regnState.register root [f, f']).tree.nodes root).children f'.name = some (.fieldOffset f') :=
    register_last regnState root [f] f'
  replace hname : f'.name = higbSeg.key := hname
  rw [hok] at hrun
  dsimp only at hrun
  rw [htree, ← hname, hchild] at hrun
  exact absurd (hrun.symm.trans hoffset) (by decide)

end Aml

end Lethe
