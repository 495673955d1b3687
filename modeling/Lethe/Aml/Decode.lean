import Lethe.Aml.Reading

/-!
# The parser on encoded names, integers and data objects

`Reads x a ns p s` is the form of the specifications: from `s` the function `x` gives `a`, leaves the
cursor of `ns` at `p` and logs nothing, or it stops, but not with a fault.

For data objects the cursor does not have to come to the end. The number of elements of a
`VarPackage` is cut to eight bits, and then the parser leaves some of the elements behind, as it does
with those of a package around it that come later. So `parse_data_object` ends in front of some
whole elements (`Leaves`), which are none if no number is cut.
-/

namespace Lethe

namespace Aml

variable {host : AmlHost} {s s' : AmlState} {ns c fuel : Nat} {x : Aml α}

/-- The stops that an encoding does not exclude. -/
def NoFault (e : AmlStop) (_ : AmlState) : Prop := e ≠ .fault

theorem noFault_exit : NoFault .exit s := by
  intro h
  cases h

theorem noFault_assertFailed : NoFault (.assertFailed assertion) s := by
  intro h
  cases h

theorem wp_debugExit_noFault : Wp (debugExit : Aml α) Q NoFault s := noFault_exit (s := s)

theorem wp_outOfFuel_noFault : Wp (throw .outOfFuel : Aml α) Q NoFault s := by
  intro h
  cases h

/-- The cursor of `ns` is at `p`, and nothing has been logged since `s`. -/
def Moved (s : AmlState) (ns p : Nat) (s' : AmlState) : Prop := s'.code ns = p ∧ s'.log = s.log

/-- From `s`, `x` gives `a` and moves the cursor of `ns` to `p`, or it stops without a fault. -/
def Reads (x : Aml α) (a : α) (ns p : Nat) (s : AmlState) : Prop :=
  Wp x (fun v s' => v = a ∧ Moved s ns p s') NoFault s

theorem Moved.trans (h : Moved s ns p s') (h' : Moved s' ns q s'') : Moved s ns q s'' :=
  ⟨h'.1, h'.2.trans h.2⟩

theorem moved_setCode : Moved s ns p (s.setCode ns p) := ⟨by simp [AmlState.setCode], rfl⟩

theorem Reads.bind {f : α → Aml β} {Q : β → AmlState → Prop} (h : Reads x a ns p s)
    (hf : ∀ s', Moved s ns p s' → Wp (f a) Q NoFault s') : Wp (x >>= f) Q NoFault s := by
  refine Wp.bind h ?_
  rintro _ s' ⟨rfl, h'⟩
  exact hf s' h'

/-- The rule for a sequence of reads. -/
theorem Reads.seq {f : α → Aml β} (h : Reads x a ns p s)
    (hf : ∀ s', Moved s ns p s' → Reads (f a) b ns q s') : Reads (x >>= f) b ns q s := by
  refine h.bind fun s' hs' => ?_
  refine (hf s' hs').mono ?_ fun _ _ => id
  rintro _ s'' ⟨rfl, hs''⟩
  exact ⟨rfl, hs'.trans hs''⟩

theorem reads_pure (hc : s.code ns = p) : Reads (pure a : Aml α) a ns p s := ⟨rfl, hc, rfl⟩

theorem Advanced.moved (h : Advanced s ns p s') : Moved s ns p s' := ⟨h.code, h.log⟩

theorem Takes.reads (h : Takes NoFault x a ns p s) : Reads x a ns p s :=
  h.mono (fun _ _ h' => ⟨h'.1, h'.2.moved⟩) fun _ _ => id

theorem fueled_noFault : Fueled NoFault n fuel := .inr fun _ h => by cases h

theorem reads_nextByte (hb : host.table[c]? = some b) (hc : s.code ns = c) :
    Reads (nextByte host ns) b ns (c + 1) s := (takes_nextByte hb hc).reads

theorem reads_parseLength (hfit : PkgFits w n) (hat : host.ReadsAt c (encodePkgLength w n))
    (hc : s.code ns = c) : Reads (parseLength host ns) n ns (c + w) s :=
  (takes_parseLength hfit hat hc).reads

theorem reads_parseNamestring {n : NameString} (hat : host.ReadsAt c n.encode) (hc : s.code ns = c) :
    Wp (parseNamestring host fuel ns) (fun v s' => v.inner = n.inner ∧
      Moved s ns (c + n.encode.length) s') NoFault s :=
  (parseNamestring_reads fueled_noFault hat hc).mono (fun _ _ h => ⟨h.1, h.2.moved⟩) fun _ _ => id

/-! ## Integers and strings -/

theorem locateObject_invalid {look : Lookup β} (hcount : name.count ≠ 1) (h : validName name = false) :
    locateObject look t ns name = .error .exit := by
  rw [locateObject, if_neg hcount, h]
  rfl

theorem locateObject_no_fault {look : Lookup β} (hcount : name.count ≠ 0)
    (h : locateObject look t ns name = .error e) : e ≠ .fault := by
  simp only [locateObject] at h
  repeat' split at h
  all_goals cases h
  all_goals first | contradiction | exact AmlStop.noConfusion

/-- A `qword` is no integer for `term_arg_to_int`, which takes it for a name that is not valid. -/
theorem nameToInt_qword (hat : host.ReadsAt c (0x0E :: b₁ :: b₂ :: b₃ :: bytes)) (hc : s.code ns = c) :
    Wp (nameToInt host ns) Q NoFault s := by
  have hname : host.ReadsAt c [0x0E, b₁, b₂, b₃] := (readsAt_append.mp hat).1
  simp only [nameToInt, wp_bind, wp_code, hc]
  refine wp_readBytes_of_readsAt hname rfl ?_
  have hinvalid : validName { inner := [0x0E, b₁, b₂, b₃] } = false := by
    simp [validName, validChar, rootChar, parentChar]
  have hcount : ({ inner := [0x0E, b₁, b₂, b₃] } : AmlName).count ≠ 1 := by simp [AmlName.count]
  rw [wp_bind]
  refine wp_ask (fun r hr => ?_) fun e he => ?_
  · rw [locateObject_invalid hcount hinvalid] at hr
    cases hr
  · rw [locateObject_invalid hcount hinvalid] at he
    cases he
    exact noFault_exit

theorem termArgToInt_qword {v : UInt64} (hat : host.ReadsAt c (IntConst.encode (.qword v)))
    (hc : s.code ns = c) : Wp (termArgToInt host fuel ns) Q NoFault s := by
  cases fuel with
  | zero => exact wp_outOfFuel_noFault
  | succ fuel =>
    rw [termArgToInt, wp_bind, wp_code]
    refine (reads_nextByte (readsAt_cons.mp hat).1 hc).bind fun s' h' => ?_
    simp only [hc]
    exact nameToInt_qword hat moved_setCode.1

/-- `term_arg_to_int` on a constant. -/
theorem reads_termArgToInt {v : IntConst} (hat : host.ReadsAt c v.encode) (hc : s.code ns = c) :
    Reads (termArgToInt host fuel ns) v.value ns (c + v.encode.length) s := by
  by_cases hv : v.Short
  · exact (takes_termArgToInt_const (n := 0) hv fueled_noFault hat hc).reads
  · cases v with
    | qword v => exact termArgToInt_qword hat hc
    | _ => exact absurd trivial hv

/-! ## Data objects -/

/-- The cursor of `ns` is in front of whole elements, and they end at `q`. -/
def Leaves (host : AmlHost) (s : AmlState) (ns q : Nat) (s' : AmlState) : Prop :=
  ∃ left p, ElementsWF left ∧ Moved s ns p s' ∧ host.ReadsAt p (encodeElements left) ∧
    p + (encodeElements left).length = q

theorem Moved.leaves (h : Moved s ns q s') : Leaves host s ns q s' :=
  ⟨[], q, trivial, h, List.nil_prefix, rfl⟩

theorem Leaves.of_moved (h : Moved s ns p s') (h' : Leaves host s' ns q s'') :
    Leaves host s ns q s'' := by
  obtain ⟨left, p', hwf, hmoved, hat, hq⟩ := h'
  exact ⟨left, p', hwf, h.trans hmoved, hat, hq⟩

theorem isData_lead {e : Element} (h : e.IsData) :
    ∃ b bs, e.encode = b :: bs ∧ dataLead b = true := by
  cases e with
  | int v => cases v <;> exact ⟨_, _, rfl, by decide⟩
  | string chars => exact ⟨_, _, rfl, by decide⟩
  | buffer w size bytes => exact ⟨0x11, _, by rw [Element.encode], by decide⟩
  | package w elements => exact ⟨0x12, _, by rw [Element.encode], by decide⟩
  | varPackage w count elements => exact ⟨0x13, _, by rw [Element.encode], by decide⟩
  | name n => exact h.elim

theorem resolveName_no_fault (h : resolveName t block ns name = .error e) : e ≠ .fault := by
  simp only [resolveName] at h
  repeat' split at h
  all_goals cases h
  all_goals exact AmlStop.noConfusion

/-- A byte that starts no data object. -/
theorem parseDataObject_other (hb : host.table[c]? = some b) (hop : DataOp.ofByte b = .other)
    (hc : s.code ns = c) : Wp (parseDataObject host fuel ns) Q NoFault s := by
  cases fuel with
  | zero => exact wp_outOfFuel_noFault
  | succ fuel =>
    refine (reads_nextByte hb hc).bind fun s' h' => ?_
    rw [hop]
    exact noFault_assertFailed (s := s')

/-- `parse_data_object` ends in front of whole elements, at or before the end of the object. The
three bytes behind the object are read when a name is tried on its last byte. -/
def LeavesData (host : AmlHost) (fuel ns : Nat) : Prop :=
  ∀ {e : Element} {c s}, e.WF → e.IsData → host.ReadsAt c e.encode →
    c + e.encode.length + 3 ≤ host.table.length → s.code ns = c →
    Wp (parseDataObject host fuel ns) (fun _ => Leaves host s ns (c + e.encode.length)) NoFault s

section
variable (hdata : LeavesData host fuel ns)
include hdata

/-- A name among the elements: it is kept, unless it is empty and taken for a data object. -/
theorem packageElement_name {n : NameString} (hat : host.ReadsAt c n.encode)
    (hread : c + n.encode.length + 3 ≤ host.table.length) (hc : s.code ns = c) :
    Wp (packageElement host (parseDataObject host fuel) fuel ns)
      (fun _ => Leaves host s ns (c + n.encode.length)) NoFault s := by
  simp only [packageElement, wp_bind, wp_code]
  refine (reads_parseNamestring hat hc).mono ?_ fun _ _ => id
  rintro v s' ⟨hinner, h'⟩
  rw [validName_inner hinner]
  split
  · next hcount =>
    -- the null name is `Zero`, and a path of no segments starts nothing
    have hnil : n.inner = [] := by
      rw [← hinner]
      simpa [AmlName.count] using hcount
    have hback : (s'.setCode ns (s.code ns)).code ns = c := by simp [AmlState.setCode, hc]
    obtain ⟨lead, path⟩ := n
    obtain ⟨hlead, hsegs⟩ := List.append_eq_nil_iff.mp hnil
    have hlead : lead.encode = [] := by
      cases hl : lead.encode with
      | nil => rfl
      | cons l ls => rw [hl] at hlead; cases hlead
    simp only [NameString.encode, hlead, List.nil_append] at hat hread ⊢
    rw [wp_bind, wp_setCode]
    cases path with
    | null =>
      refine (hdata (e := .int .zero) trivial trivial hat hread hback).mono ?_ fun _ _ => id
      intro _ s'' h''
      have hmoved : Moved s ns c (s'.setCode ns (s.code ns)) := ⟨hback, h'.2⟩
      exact h''.of_moved hmoved
    | seg seg => cases hsegs
    | dual s₁ s₂ => cases hsegs
    | multi segs hlen => exact parseDataObject_other (readsAt_cons.mp hat).1 rfl hback
  · simp only [wp_bind, wp_tick]
    refine wp_ask (fun r _ => ?_) fun e he => resolveName_no_fault he
    exact Moved.leaves h'

theorem packageElement_leaves {e : Element} (hwf : e.WF) (hat : host.ReadsAt c e.encode)
    (hread : c + e.encode.length + 3 ≤ host.table.length) (hc : s.code ns = c) :
    Wp (packageElement host (parseDataObject host fuel) fuel ns)
      (fun _ => Leaves host s ns (c + e.encode.length)) NoFault s := by
  by_cases hname : e.IsData
  · obtain ⟨b, bs, hencode, hlead⟩ := isData_lead hname
    refine packageElement_data fueled_noFault (hencode ▸ hat) hlead (hencode ▸ hread) hc fun s' h' => ?_
    refine (hdata hwf hname hat hread h'.code).mono ?_ fun _ _ => id
    exact fun _ _ h'' => h''.of_moved h'.moved
  · cases e with
    | name n =>
      rw [Element.encode] at *
      exact packageElement_name hdata hat hread hc
    | _ => exact absurd trivial hname

/-- `populate_package` takes so many elements from the front of a list of them, where those that a
package leaves behind take the place of the package. -/
theorem populatePackage_leaves (hwf : ElementsWF es) (hat : host.ReadsAt c (encodeElements es))
    (hread : c + (encodeElements es).length + 3 ≤ host.table.length) (hc : s.code ns = c)
    (hn : n ≤ es.length) :
    Wp (populatePackage host (parseDataObject host fuel) fuel ns n)
      (fun _ => Leaves host s ns (c + (encodeElements es).length)) NoFault s := by
  induction n generalizing es c s with
  | zero => exact ⟨es, c, hwf, ⟨hc, rfl⟩, hat, rfl⟩
  | succ n ih =>
    cases es with
    | nil => exact absurd hn (Nat.not_succ_le_zero n)
    | cons e es =>
      simp only [encodeElements, List.length_append] at hat hread ⊢
      obtain ⟨hat₁, hat₂⟩ := readsAt_append.mp hat
      simp only [populatePackage, wp_bind]
      refine (packageElement_leaves hdata hwf.1 hat₁ (by omega) hc).mono ?_ fun _ _ => id
      rintro _ s' ⟨left, p, hleft, h', hat', hp⟩
      have hwf' : ElementsWF (left ++ es) := elementsWF_append.mpr ⟨hleft, hwf.2⟩
      have hat'' : host.ReadsAt p (encodeElements (left ++ es)) := by
        rw [encodeElements_append]
        exact readsAt_append.mpr ⟨hat', hp ▸ hat₂⟩
      have hlen : p + (encodeElements (left ++ es)).length =
          c + (e.encode.length + (encodeElements es).length) := by
        rw [encodeElements_append, List.length_append]
        omega
      have hn' : n ≤ (left ++ es).length := by
        simp only [List.length_append, List.length_cons] at hn ⊢
        omega
      rw [wp_bind]
      refine (ih hwf' hat'' (by omega) h'.1 hn').mono ?_ fun _ _ => id
      intro _ s'' h''
      rw [hlen] at h''
      exact h''.of_moved h'

end

theorem packageData_leaves (hdata : LeavesData host fuel ns) (hwf : ElementsWF es)
    (hat : host.ReadsAt c (encodeElements es))
    (hread : c + (encodeElements es).length + 3 ≤ host.table.length) (hc : s.code ns = c)
    (hn : n % 2 ^ 8 ≤ es.length) :
    Wp (packageData host (parseDataObject host fuel) fuel ns n)
      (fun _ => Leaves host s ns (c + (encodeElements es).length)) NoFault s := by
  simp only [packageData, wp_bind]
  exact populatePackage_leaves hdata hwf hat hread hc hn

theorem parseDataObject_int {v : IntConst} (hat : host.ReadsAt c v.encode) (hc : s.code ns = c) :
    Wp (parseDataObject host fuel ns) (fun _ => Leaves host s ns (c + v.encode.length)) NoFault s :=
  (parseDataObject_const fueled_noFault hat hc).mono (fun _ _ h => h.2.moved.leaves) fun _ _ => id

theorem parseDataObject_buffer_leaves (hwf : (Element.buffer w size bytes).WF)
    (hat : host.ReadsAt c (Element.buffer w size bytes).encode) (hc : s.code ns = c) :
    Wp (parseDataObject host (fuel + 1) ns)
      (fun _ => Leaves host s ns (c + (Element.buffer w size bytes).encode.length)) NoFault s := by
  rw [Element.encode] at *
  rw [Element.WF] at hwf
  obtain ⟨hb, hat'⟩ := readsAt_cons.mp hat
  obtain ⟨hat₁, hat₂⟩ := readsAt_pkg hwf.1 hat'
  obtain ⟨hsize, hbytes⟩ := readsAt_append.mp hat₂
  refine (reads_nextByte hb hc).bind fun s₁ h₁ => ?_
  change Wp (parseLength host ns >>= _) _ _ _
  refine (reads_parseLength hwf.1 hat₁ h₁.1).bind fun s₂ h₂ => ?_
  refine (reads_termArgToInt hsize h₂.1).bind fun s₃ h₃ => ?_
  simp only [wp_bind, wp_code, h₃.1, hwf.2]
  refine wp_readBytes_of_readsAt hbytes rfl ?_
  have hlen : c + 1 + w + size.encode.length + bytes.length =
      c + (0x11 :: encodePkg w (size.encode ++ bytes)).length := by
    simp only [List.length_cons, encodePkg_length hwf.1, List.length_append]
    omega
  simp only [wp_bind, wp_setCode, wp_pure, ← hlen]
  exact (h₁.trans (h₂.trans (h₃.trans moved_setCode))).leaves

section
variable (hdata : LeavesData host fuel ns)
include hdata

theorem parseDataObject_package_leaves (hwf : (Element.package w elements).WF)
    (hat : host.ReadsAt c (Element.package w elements).encode)
    (hread : c + (Element.package w elements).encode.length + 3 ≤ host.table.length)
    (hc : s.code ns = c) :
    Wp (parseDataObject host (fuel + 1) ns)
      (fun _ => Leaves host s ns (c + (Element.package w elements).encode.length)) NoFault s := by
  rw [Element.encode] at *
  rw [Element.WF] at hwf
  obtain ⟨hfit, hcount, hwf⟩ := hwf
  obtain ⟨hb, hat'⟩ := readsAt_cons.mp hat
  obtain ⟨hat₁, hat₂⟩ := readsAt_pkg hfit hat'
  obtain ⟨hnum, helements⟩ := readsAt_cons.mp hat₂
  have hlen : c + 1 + w + 1 + (encodeElements elements).length = c + (0x12 ::
      encodePkg w (UInt8.ofNat elements.length :: encodeElements elements)).length := by
    simp only [List.length_cons, encodePkg_length hfit]
    omega
  rw [← hlen] at hread ⊢
  have hval : (UInt8.ofNat elements.length).toNat = elements.length :=
    UInt8.toNat_ofNat'.trans (Nat.mod_eq_of_lt hcount)
  refine (reads_nextByte hb hc).bind fun s₁ h₁ => ?_
  change Wp (parseLength host ns >>= _) _ _ _
  refine (reads_parseLength hfit hat₁ h₁.1).bind fun s₂ h₂ => ?_
  refine (reads_nextByte hnum h₂.1).bind fun s₃ h₃ => ?_
  rw [hval]
  refine (packageData_leaves hdata hwf helements hread h₃.1 (Nat.mod_le _ _)).mono ?_
    fun _ _ => id
  intro _ s₄ h₄
  exact h₄.of_moved (h₁.trans (h₂.trans h₃))

/-- The number of elements is a `uint8_t`. -/
theorem parseDataObject_varPackage_leaves (hwf : (Element.varPackage w count elements).WF)
    (hat : host.ReadsAt c (Element.varPackage w count elements).encode)
    (hread : c + (Element.varPackage w count elements).encode.length + 3 ≤ host.table.length)
    (hc : s.code ns = c) :
    Wp (parseDataObject host (fuel + 1) ns)
      (fun _ => Leaves host s ns (c + (Element.varPackage w count elements).encode.length))
      NoFault s := by
  rw [Element.encode] at *
  rw [Element.WF] at hwf
  obtain ⟨hfit, hcount, hwf⟩ := hwf
  obtain ⟨hb, hat'⟩ := readsAt_cons.mp hat
  obtain ⟨hat₁, hat₂⟩ := readsAt_pkg hfit hat'
  obtain ⟨hnum, helements⟩ := readsAt_append.mp hat₂
  have hlen : c + 1 + w + count.encode.length + (encodeElements elements).length = c + (0x13 ::
      encodePkg w (count.encode ++ encodeElements elements)).length := by
    simp only [List.length_cons, encodePkg_length hfit, List.length_append]
    omega
  rw [← hlen] at hread ⊢
  refine (reads_nextByte hb hc).bind fun s₁ h₁ => ?_
  change Wp (parseLength host ns >>= _) _ _ _
  refine (reads_parseLength hfit hat₁ h₁.1).bind fun s₂ h₂ => ?_
  refine (reads_termArgToInt hnum h₂.1).bind fun s₃ h₃ => ?_
  rw [hcount]
  refine (packageData_leaves hdata hwf helements hread h₃.1 (Nat.mod_le _ _)).mono ?_
    fun _ _ => id
  intro _ s₄ h₄
  exact h₄.of_moved (h₁.trans (h₂.trans h₃))

end

theorem parseDataObject_leaves : LeavesData host fuel ns := by
  induction fuel with
  | zero => exact fun _ _ _ _ _ => wp_outOfFuel_noFault
  | succ fuel ih =>
    intro e c s hwf hd hat hread hc
    cases e with
    | name n => exact hd.elim
    | int v =>
      rw [Element.encode] at *
      exact parseDataObject_int hat hc
    | string chars =>
      rw [Element.encode] at *
      refine (parseDataObject_string fueled_noFault hat hwf hc).mono ?_ fun _ _ => id
      exact fun _ s' h' => h'.2.moved.leaves
    | buffer w size bytes => exact parseDataObject_buffer_leaves hwf hat hc
    | package w elements => exact parseDataObject_package_leaves ih hwf hat hread hc
    | varPackage w count elements => exact parseDataObject_varPackage_leaves ih hwf hat hread hc

end Aml

end Lethe
