import Lethe.Aml.Decode
import Lethe.Aml.Methods
import Lethe.Aml.Termination

/-!
# Declaration lists are parsed term by term

On the encoding of a list of terms `parse_termlist` enters `parse_next` at the first byte of every
term and nowhere else, and leaves its loop at the end of the list. The handlers move the cursor in
two ways, by what they have read and to where the length of a package says that it ends, and on an
encoding both come to the same place. The one exception is a Name term whose package has been cut:
it leaves the cursor at an element, whose first byte is no opcode, and the next call of
`parse_next` exits.

The induction is on the fuel of `parse_termlist` and inside it on that of its loop; the handlers get
what they need of the nested term lists as `ParsesTerms`.
-/

namespace Lethe

/-- The state with more events. -/
def AmlState.logs (s : AmlState) (events : List AmlEvent) : AmlState :=
  { s with log := s.log ++ events }

namespace NameString

/-- A name of one segment. -/
def ofSeg (seg : NameSeg) : NameString := ⟨.parents 0, .seg seg⟩

theorem encode_ofSeg : (ofSeg seg).encode = seg.key.bytes := by
  simp [encode, ofSeg, NameLead.encode, NamePath.segPrefix, NamePath.segs, segBytes]

theorem inner_ofSeg : (ofSeg seg).inner = seg.key.bytes := by
  simp [inner, ofSeg, NameLead.encode, NamePath.segs, segBytes]

end NameString

namespace Aml

variable {host : AmlHost} {s s' : AmlState} {ns c fuel : Nat} {seg : NameSeg}

/-! ## Opcodes -/

theorem reads_nextOp_byte (hb : host.table[c]? = some b) (hne : b ≠ extOpPrefix)
    (hc : s.code ns = c) : Reads (nextOp host ns) (.ofByte b) ns (c + 1) s := by
  refine (reads_nextByte hb hc).seq fun s' h' => ?_
  rw [if_neg hne]
  exact reads_pure h'.1

theorem reads_nextOp_ext (hext : host.table[c]? = some extOpPrefix)
    (hb : host.table[c + 1]? = some b) (hc : s.code ns = c) :
    Reads (nextOp host ns) (.ofExtByte b) ns (c + 2) s := by
  refine (reads_nextByte hext hc).seq fun s' h' => ?_
  rw [if_pos rfl]
  exact (reads_nextByte hb h'.1).seq fun s'' h'' => reads_pure h''.1

/-- The first byte of an element of a package is no opcode of a term. -/
theorem element_lead (e : Element) :
    ∃ b bs, e.encode = b :: bs ∧ b ≠ extOpPrefix ∧ TermOp.ofByte b = .other := by
  by_cases hd : e.IsData
  · obtain ⟨b, bs, hencode, hlead⟩ := isData_lead hd
    refine ⟨b, bs, hencode, ?_⟩
    have h := of_decide_eq_true hlead
    simp only [List.mem_cons, List.not_mem_nil, or_false] at h
    rcases h with rfl | rfl | rfl | rfl | rfl | rfl | rfl | rfl | rfl | rfl | rfl
    all_goals exact ⟨by decide, rfl⟩
  · cases e with
    | name n =>
      rw [Element.encode]
      obtain ⟨lead, path⟩ := n
      cases lead with
      | root => exact ⟨rootChar, _, rfl, by decide, rfl⟩
      | parents m =>
        cases m with
        | succ m => exact ⟨parentChar, _, rfl, by decide, rfl⟩
        | zero =>
          cases path with
          | null => exact ⟨0x00, _, rfl, by decide, rfl⟩
          | dual s₁ s₂ => exact ⟨0x2E, _, rfl, by decide, rfl⟩
          | multi segs hlen => exact ⟨0x2F, _, rfl, by decide, rfl⟩
          | seg seg =>
            obtain ⟨⟨c0, c1, c2, c3⟩, hvalid⟩ := seg
            simp only [HashKey.bytes, List.all_cons, Bool.and_eq_true] at hvalid
            have hne : ∀ b, validChar b = false → c0 ≠ b := by
              rintro b hb rfl
              rw [hb] at hvalid
              cases hvalid.1
            refine ⟨c0, _, rfl, hne _ (by decide), ?_⟩
            simp only [TermOp.ofByte, hne 0xA0 (by decide), hne 0x08 (by decide),
              hne 0x14 (by decide), hne 0x10 (by decide), hne 0x06 (by decide),
              hne 0x8B (by decide), if_false]
    | _ => exact absurd trivial hd

/-! ## Declarations -/

theorem wp_unimplemented_noFault (hQ : Q () s) : Wp (unimplemented b) Q NoFault s :=
  wp_assert (fun _ => hQ) noFault_assertFailed

/-- The rule for a name of which only the place matters. -/
theorem parseNamestring_bind {n : NameString} {f : AmlName → Aml α} {Q : α → AmlState → Prop}
    (hat : host.ReadsAt c n.encode) (hc : s.code ns = c)
    (hf : ∀ v s', v.inner = n.inner → Moved s ns (c + n.encode.length) s' → Wp (f v) Q NoFault s') :
    Wp (parseNamestring host fuel ns >>= f) Q NoFault s :=
  Wp.bind (reads_parseNamestring hat hc) fun v s' h => hf v s' h.1 h.2

theorem defName_encoded {e : Element} (hwf : e.WF) (hd : e.IsData)
    (hat : host.ReadsAt c (seg.key.bytes ++ e.encode))
    (hread : c + (seg.key.bytes ++ e.encode).length + 3 ≤ host.table.length) (hc : s.code ns = c) :
    Wp (defName host fuel ns)
      (fun _ => Leaves host s ns (c + (seg.key.bytes ++ e.encode).length)) NoFault s := by
  rw [List.length_append, ← NameString.encode_ofSeg, ← Nat.add_assoc] at *
  obtain ⟨hname, hdata⟩ := readsAt_append.mp hat
  refine parseNamestring_bind hname hc fun v s₁ _ h₁ => ?_
  rw [wp_bind]
  refine wp_unimplemented_noFault ?_
  rw [wp_bind]
  refine (parseDataObject_leaves hwf hd hdata hread h₁.1).mono ?_ fun _ _ => id
  intro data s₂ h₂
  exact h₂.of_moved h₁

theorem defOpRegion_encoded {n : NameString} {offset len : IntConst}
    (hat : host.ReadsAt c (n.encode ++ space :: (offset.encode ++ len.encode)))
    (hc : s.code ns = c) :
    Wp (defOpRegion host fuel ns)
      (fun _ => Moved s ns (c + (n.encode ++ space :: (offset.encode ++ len.encode)).length))
      NoFault s := by
  obtain ⟨hname, hat₁⟩ := readsAt_append.mp hat
  obtain ⟨hspace, hat₂⟩ := readsAt_cons.mp hat₁
  obtain ⟨hoffset, hlen⟩ := readsAt_append.mp hat₂
  refine parseNamestring_bind hname hc fun v s₁ _ h₁ => ?_
  rw [wp_bind]
  refine wp_unimplemented_noFault ?_
  refine (reads_nextByte hspace h₁.1).bind fun s₂ h₂ => ?_
  refine (reads_termArgToInt hoffset h₂.1).bind fun s₃ h₃ => ?_
  refine (reads_termArgToInt hlen h₃.1).bind fun s₄ h₄ => ?_
  have hpos : c + (n.encode ++ space :: (offset.encode ++ len.encode)).length =
      c + n.encode.length + 1 + offset.encode.length + len.encode.length := by
    simp only [List.length_append, List.length_cons]
    omega
  rw [hpos]
  exact h₁.trans (h₂.trans (h₃.trans h₄))

theorem skipPackage_encoded (hok : PkgOk w content) (hat : host.ReadsAt c (encodePkg w content))
    (hc : s.code ns = c) :
    Wp (skipPackage host ns) (fun _ => Moved s ns (c + (encodePkg w content).length)) NoFault s := by
  rw [encodePkg_length hok]
  simp only [skipPackage, wp_bind, wp_code, hc]
  refine (reads_parseLength hok (readsAt_pkg hok hat).1 hc).mono ?_ fun _ _ => id
  rintro _ s₁ ⟨rfl, h₁⟩
  exact h₁.trans moved_setCode

theorem defMutex_encoded {n : NameString} (hat : host.ReadsAt c (n.encode ++ [flags]))
    (hc : s.code ns = c) :
    Wp (defMutex host fuel ns) (fun _ => Moved s ns (c + (n.encode ++ [flags]).length)) NoFault s := by
  obtain ⟨hname, hat₁⟩ := readsAt_append.mp hat
  obtain ⟨hflags, -⟩ := readsAt_cons.mp hat₁
  refine parseNamestring_bind hname hc fun v s₁ _ h₁ => ?_
  rw [wp_bind]
  refine wp_unimplemented_noFault ?_
  refine (reads_nextByte hflags h₁.1).bind fun s₂ h₂ => ?_
  rw [List.length_append, ← Nat.add_assoc]
  exact h₁.trans h₂

theorem defAlias_encoded {source alias_ : NameString}
    (hat : host.ReadsAt c (source.encode ++ alias_.encode)) (hc : s.code ns = c) :
    Wp (defAlias host fuel ns) (fun _ => Moved s ns (c + (source.encode ++ alias_.encode).length))
      NoFault s := by
  obtain ⟨hsource, halias⟩ := readsAt_append.mp hat
  refine parseNamestring_bind hsource hc fun v s₁ _ h₁ => ?_
  refine parseNamestring_bind halias h₁.1 fun v' s₂ _ h₂ => ?_
  rw [wp_bind]
  refine wp_unimplemented_noFault ?_
  rw [wp_bind]
  refine wp_unimplemented_noFault ?_
  rw [wp_bind, wp_ask_ok, wp_bind]
  refine wp_orExit (fun r _ => ?_) noFault_exit
  rw [List.length_append, ← Nat.add_assoc]
  exact h₁.trans h₂

theorem methodScope_encoded : Wp (methodScope ns name) (fun _ s' => s' = s) NoFault s := by
  simp only [methodScope]
  split
  · split
    · rfl
    split
    · rw [wp_bind, wp_ask_ok]
      exact wp_orExit (fun _ _ => rfl) noFault_exit
    · rfl
  split
  · exact wp_debugExit_noFault
  · rw [wp_bind]
    refine wp_ask (fun r _ => wp_orExit (fun _ _ => rfl) noFault_exit) fun e he => ?_
    refine locateObject_no_fault ?_ he
    simp only [AmlName.count, List.length_take, keyLen] at *
    omega

/-- The method covers its body, and the cursor goes behind it. -/
theorem defMethod_encoded {n : NameString} (hok : PkgOk w (n.encode ++ flags :: body))
    (hat : host.ReadsAt c (encodePkg w (n.encode ++ flags :: body))) (hc : s.code ns = c) :
    Wp (defMethod host fuel ns)
      (fun _ => Moved (s.logs [.method (c + w + n.encode.length + 1) body.length]) ns
        (c + (encodePkg w (n.encode ++ flags :: body)).length)) NoFault s := by
  obtain ⟨hlen, hcontent⟩ := readsAt_pkg hok hat
  obtain ⟨hname, hat₁⟩ := readsAt_append.mp hcontent
  obtain ⟨hflags, -⟩ := readsAt_cons.mp hat₁
  rw [encodePkg_length hok]
  simp only [defMethod, wp_bind, wp_code, hc]
  refine (reads_parseLength hok hlen hc).mono ?_ fun _ _ => id
  rintro _ s₁ ⟨rfl, h₁⟩
  refine parseNamestring_bind hname h₁.1 fun v s₂ _ h₂ => ?_
  refine (reads_nextByte hflags h₂.1).bind fun s₃ h₃ => ?_
  simp only [wp_bind, wp_code, h₃.1, wp_uninit, methodLen_eq hok, createNamespace, wp_ask_ok,
    wp_writeTree, wp_setCode, wp_pure]
  refine methodScope_encoded.mono ?_ fun _ _ => id
  rintro scope _ rfl
  have hlog : s₃.log = s.log := (h₁.trans (h₂.trans h₃)).2
  refine ⟨by simp [AmlState.setCode], ?_⟩
  change s₃.log ++ _ = s.log ++ _
  rw [hlog]

/-! ## Terms with a term list -/

/-- What the handlers need of `parse_termlist`: on an encoding it goes through the terms. -/
def ParsesTerms (host : AmlHost) (parseTermlist : Nat → Nat → Nat → Aml Unit) : Prop :=
  ∀ {ns start ts s}, TermsWF ts → host.ReadsAt start (encodeTerms ts) →
    start + (encodeTerms ts).length + 3 ≤ host.table.length →
    Wp (parseTermlist ns start (start + (encodeTerms ts).length))
      (fun _ s' => s'.log = s.log ++ termlistEvents ts start) NoFault s

section
variable {parse : Nat → Nat → Nat → Aml Unit} (hT : ParsesTerms host parse)
include hT

theorem ParsesTerms.body (hwf : TermsWF ts) (hat : host.ReadsAt c (encodeTerms ts))
    (hread : c + (encodeTerms ts).length + 3 ≤ host.table.length) (hc : s.code ns = c)
    (hp : p = c + (encodeTerms ts).length) :
    Wp (do
      let start ← code ns
      parse n start p
      setCode ns p) (fun _ => Moved (s.logs (termlistEvents ts c)) ns p) NoFault s := by
  simp only [wp_bind, wp_code, hc, hp]
  refine (hT hwf hat hread).mono ?_ fun _ _ => id
  intro _ s' hlog
  exact ⟨by simp [AmlState.setCode], hlog⟩

omit hT in
theorem locateScope_encoded : Wp (locateScope ns name) (fun _ s' => s' = s) NoFault s := by
  simp only [locateScope]
  split
  · rfl
  rw [wp_bind]
  refine wp_ask (fun r _ => ?_) fun e he => locateObject_no_fault ‹_› he
  obtain ⟨scope, name'⟩ := r
  cases scope with
  | some scope => rfl
  | none =>
    simp only [scopeNotFound]
    split
    · rw [wp_bind]
      refine wp_ask (fun _ _ => wp_debugExit_noFault) fun e he => locateObject_no_fault ?_ he
      simp only [AmlName.count, List.length_take, List.length_drop, keyLen] at *
      omega
    · exact wp_debugExit_noFault

theorem defScope_encoded {n : NameString} (hok : PkgOk w (n.encode ++ encodeTerms ts))
    (hwf : TermsWF ts) (hat : host.ReadsAt c (encodePkg w (n.encode ++ encodeTerms ts)))
    (hread : c + (encodePkg w (n.encode ++ encodeTerms ts)).length + 3 ≤ host.table.length)
    (hc : s.code ns = c) :
    Wp (defScope host parse fuel ns)
      (fun _ => Moved (s.logs (termlistEvents ts (c + w + n.encode.length))) ns
        (c + (encodePkg w (n.encode ++ encodeTerms ts)).length)) NoFault s := by
  obtain ⟨hlen, hcontent⟩ := readsAt_pkg hok hat
  obtain ⟨hname, hterms⟩ := readsAt_append.mp hcontent
  have hend : c + (w + (n.encode ++ encodeTerms ts).length) =
      c + w + n.encode.length + (encodeTerms ts).length := by
    rw [List.length_append]
    omega
  rw [encodePkg_length hok, hend] at hread
  rw [encodePkg_length hok]
  simp only [defScope, wp_bind, wp_code, hc]
  refine (reads_parseLength hok hlen hc).mono ?_ fun _ _ => id
  rintro _ s₁ ⟨rfl, h₁⟩
  refine parseNamestring_bind hname h₁.1 fun v s₂ _ h₂ => ?_
  rw [wp_bind]
  refine locateScope_encoded.mono ?_ fun _ _ => id
  intro scope s₃ h₃
  rw [h₃]
  refine (hT.body hwf hterms hread h₂.1 hend).mono ?_ fun _ _ => id
  rintro _ s₄ ⟨hcode, hlog⟩
  refine ⟨hcode, hlog.trans ?_⟩
  change s₂.log ++ _ = s.log ++ _
  rw [(h₁.trans h₂).2]

omit hT in
/-- The namespace of a Device term with a name of one segment; its cursor starts at that of `ns`. -/
theorem deviceNamespace_encoded (hcount : name.count = keyLen) :
    Wp (deviceNamespace ns name device) (fun _ => Moved s ns (s.code ns)) NoFault s := by
  cases device with
  | some device => exact ⟨rfl, rfl⟩
  | none =>
    simp only [deviceNamespace, deviceParent, hcount, createNamespace, wp_bind, Nat.lt_irrefl,
      gt_iff_lt, if_false, wp_ask_ok, wp_code]
    refine ⟨?_, rfl⟩
    simp only [AmlState.setCode, AmlState.write, Function.update_apply]
    split <;> rfl

omit hT in
theorem locateObject_keeps_name {look : Lookup β} (hcount : name.count = keyLen)
    (h : locateObject look t ns name = .ok (r, name')) : name' = name := by
  have hne : name.count ≠ 1 := by rw [hcount]; decide
  rw [locateObject, if_neg hne, if_pos hcount] at h
  split at h
  · cases h
  split at h
  · cases h
  · cases h
    rfl

theorem defDevice_encoded (hok : PkgOk w (seg.key.bytes ++ encodeTerms ts)) (hwf : TermsWF ts)
    (hat : host.ReadsAt c (encodePkg w (seg.key.bytes ++ encodeTerms ts)))
    (hread : c + (encodePkg w (seg.key.bytes ++ encodeTerms ts)).length + 3 ≤ host.table.length)
    (hc : s.code ns = c) :
    Wp (defDevice host parse fuel ns)
      (fun _ => Moved (s.logs (termlistEvents ts (c + w + keyLen))) ns
        (c + (encodePkg w (seg.key.bytes ++ encodeTerms ts)).length)) NoFault s := by
  have hkey : seg.key.bytes.length = keyLen := rfl
  obtain ⟨hlen, hcontent⟩ := readsAt_pkg hok hat
  obtain ⟨hname, hterms⟩ := readsAt_append.mp hcontent
  rw [← NameString.encode_ofSeg] at hname
  rw [hkey] at hterms
  have hend : c + (w + (seg.key.bytes ++ encodeTerms ts).length) =
      c + w + keyLen + (encodeTerms ts).length := by
    rw [List.length_append, hkey]
    omega
  rw [encodePkg_length hok, hend] at hread
  rw [encodePkg_length hok]
  simp only [defDevice, wp_bind, wp_code, hc]
  refine (reads_parseLength hok hlen hc).mono ?_ fun _ _ => id
  rintro _ s₁ ⟨rfl, h₁⟩
  refine parseNamestring_bind hname h₁.1 fun v s₂ hinner h₂ => ?_
  rw [NameString.encode_ofSeg, hkey] at h₂
  have hcount : v.count = keyLen := by
    rw [AmlName.count, hinner, NameString.inner_ofSeg, hkey]
  simp only [wp_bind, wp_recordDevice]
  refine wp_ask (fun r hr => ?_) fun e he => ?_
  · obtain ⟨device, name'⟩ := r
    obtain rfl := locateObject_keeps_name hcount hr
    rw [wp_bind]
    refine (deviceNamespace_encoded hcount).mono ?_ fun _ _ => id
    intro device' s₃ h₃
    refine (hT.body hwf hterms hread (h₃.1.trans h₂.1) hend).mono ?_ fun _ _ => id
    rintro _ s₄ ⟨hcode, hlog⟩
    refine ⟨hcode, hlog.trans ?_⟩
    have hlog₃ : s₃.log = s₂.log := h₃.2
    change s₃.log ++ _ = s.log ++ _
    rw [hlog₃, (h₁.trans h₂).2]
  · refine locateObject_no_fault ?_ he
    rw [hcount]
    decide

/-! ## Term lists -/

omit hT in
/-- The call of `parse_next` once its opcode has been read. -/
theorem parseNext_op (hc : s.code ns = c)
    (hop : ∀ {s}, s.code ns = c → Reads (nextOp host ns) op ns p s)
    (hterm : ∀ s', Moved (s.logs [.enter c]) ns p s' →
      Wp (parseTerm host parse fuel ns op) Q NoFault s') :
    Wp (parseNext host parse fuel ns) Q NoFault s := by
  subst hc
  simp only [parseNext, wp_bind, wp_code, wp_emit]
  have hread : Reads (nextOp host ns) op ns p (s.emit (.enter (s.code ns))) := hop rfl
  refine hread.mono ?_ fun _ _ => id
  rintro _ s' ⟨rfl, h'⟩
  exact hterm s' h'

omit hT in
theorem parseNext_byte (hat : host.ReadsAt c (b :: bs)) (hne : b ≠ extOpPrefix) (hc : s.code ns = c)
    (hterm : ∀ s', Moved (s.logs [.enter c]) ns (c + 1) s' → host.ReadsAt (c + 1) bs →
      Wp (parseTerm host parse fuel ns (.ofByte b)) Q NoFault s') :
    Wp (parseNext host parse fuel ns) Q NoFault s := by
  obtain ⟨hb, hat'⟩ := readsAt_cons.mp hat
  exact parseNext_op hc (fun hc => reads_nextOp_byte hb hne hc) fun s' h' => hterm s' h' hat'

omit hT in
theorem parseNext_ext (hat : host.ReadsAt c (extOpPrefix :: b :: bs)) (hc : s.code ns = c)
    (hterm : ∀ s', Moved (s.logs [.enter c]) ns (c + 2) s' → host.ReadsAt (c + 2) bs →
      Wp (parseTerm host parse fuel ns (.ofExtByte b)) Q NoFault s') :
    Wp (parseNext host parse fuel ns) Q NoFault s := by
  obtain ⟨hext, hat₁⟩ := readsAt_cons.mp hat
  obtain ⟨hb, hat₂⟩ := readsAt_cons.mp hat₁
  exact parseNext_op hc (fun hc => reads_nextOp_ext hext hb hc) fun s' h' => hterm s' h' hat₂

omit hT in
/-- `parse_next` on an element of a package exits. -/
theorem parseNext_element {e : Element} (hat : host.ReadsAt c e.encode) (hc : s.code ns = c) :
    Wp (parseNext host parse fuel ns) Q NoFault s := by
  obtain ⟨b, bs, hencode, hne, hother⟩ := element_lead e
  refine parseNext_byte (hencode ▸ hat) hne hc fun s' _ _ => ?_
  rw [hother]
  exact wp_debugExit_noFault

omit hT in
theorem Moved.handled (h : Moved (s.logs [.enter c]) ns p s') (h' : Moved (s'.logs events) ns q s'') :
    Moved (s.logs (.enter c :: events)) ns q s'' := by
  refine ⟨h'.1, h'.2.trans ?_⟩
  change s'.log ++ events = s.log ++ .enter c :: events
  rw [h.2]
  exact List.append_cons s.log (.enter c) events |>.symm

omit hT in
/-- A handler that shows no events. -/
theorem Moved.quiet (h : Moved s ns p s') : Moved (s.logs []) ns p s' :=
  ⟨h.1, h.2.trans (List.append_nil s.log).symm⟩

omit hT in
/-- A term with an opcode of one byte, the content of which the handler takes. -/
theorem parseNext_taken (hat : host.ReadsAt c (b :: bs)) (hne : b ≠ extOpPrefix)
    (hc : s.code ns = c)
    (hterm : ∀ s₁, s₁.code ns = c + 1 → host.ReadsAt (c + 1) bs →
      c + (b :: bs).length = c + 1 + bs.length →
      Wp (parseTerm host parse fuel ns (.ofByte b))
        (fun _ => Moved (s₁.logs events) ns (c + 1 + bs.length)) NoFault s₁) :
    Wp (parseNext host parse fuel ns)
      (fun _ => Leaves host (s.logs (.enter c :: events)) ns (c + (b :: bs).length)) NoFault s := by
  have hlen : c + (b :: bs).length = c + 1 + bs.length := by
    rw [List.length_cons]
    omega
  refine parseNext_byte hat hne hc fun s₁ h₁ hat' => ?_
  refine (hterm s₁ h₁.1 hat' hlen).mono ?_ fun _ _ => id
  intro _ s₂ h₂
  rw [hlen]
  exact (h₁.handled h₂).leaves

omit hT in
/-- A term with an opcode of two bytes. -/
theorem parseNext_taken_ext (hat : host.ReadsAt c (extOpPrefix :: b :: bs)) (hc : s.code ns = c)
    (hterm : ∀ s₁, s₁.code ns = c + 2 → host.ReadsAt (c + 2) bs →
      c + (extOpPrefix :: b :: bs).length = c + 2 + bs.length →
      Wp (parseTerm host parse fuel ns (.ofExtByte b))
        (fun _ => Moved (s₁.logs events) ns (c + 2 + bs.length)) NoFault s₁) :
    Wp (parseNext host parse fuel ns)
      (fun _ => Leaves host (s.logs (.enter c :: events)) ns
        (c + (extOpPrefix :: b :: bs).length)) NoFault s := by
  have hlen : c + (extOpPrefix :: b :: bs).length = c + 2 + bs.length := by
    rw [List.length_cons, List.length_cons]
    omega
  refine parseNext_ext hat hc fun s₁ h₁ hat' => ?_
  refine (hterm s₁ h₁.1 hat' hlen).mono ?_ fun _ _ => id
  intro _ s₂ h₂
  rw [hlen]
  exact (h₁.handled h₂).leaves

omit hT in
/-- Of a Name term the rest of a package that has been cut may be left. -/
theorem parseNext_name (hwf : data.WF) (hd : data.IsData)
    (hat : host.ReadsAt c (Term.name seg data).encode)
    (hread : c + (Term.name seg data).encode.length + 3 ≤ host.table.length) (hc : s.code ns = c) :
    Wp (parseNext host parse fuel ns)
      (fun _ => Leaves host (s.logs [.enter c]) ns (c + (Term.name seg data).encode.length))
      NoFault s := by
  have hlen : c + (Term.name seg data).encode.length =
      c + 1 + (seg.key.bytes ++ data.encode).length := by
    rw [Term.encode, List.length_cons]
    omega
  rw [hlen] at hread ⊢
  rw [Term.encode] at hat
  refine parseNext_byte hat (by decide) hc fun s₁ h₁ hat' => ?_
  refine (defName_encoded hwf hd hat' hread h₁.1).mono ?_ fun _ _ => id
  intro _ s₂ h₂
  exact h₂.of_moved h₁

/-- The step: `parse_next` on a term takes its encoding and shows its events. -/
theorem parseNext_encoded {t : Term} (hwf : t.WF) (hat : host.ReadsAt c t.encode)
    (hread : c + t.encode.length + 3 ≤ host.table.length) (hc : s.code ns = c) :
    Wp (parseNext host parse fuel ns)
      (fun _ => Leaves host (s.logs (t.events c)) ns (c + t.encode.length)) NoFault s := by
  have hquiet {s₁ p} (_ : Unit) (s₂) : Moved s₁ ns p s₂ → Moved (s₁.logs []) ns p s₂ := .quiet
  cases t with
  | name seg data => exact parseNext_name hwf.1 hwf.2 hat hread hc
  | method w name flags body =>
    exact parseNext_taken hat (by decide) hc fun s₁ h₁ hat' _ => defMethod_encoded hwf hat' h₁
  | opRegion name space offset len =>
    exact parseNext_taken_ext hat hc fun s₁ h₁ hat' _ =>
      (defOpRegion_encoded hat' h₁).mono hquiet fun _ _ => id
  | indexField w body =>
    exact parseNext_taken_ext hat hc fun s₁ h₁ hat' _ =>
      (skipPackage_encoded hwf hat' h₁).mono hquiet fun _ _ => id
  | scope w name body =>
    rw [Term.encode] at *
    exact parseNext_taken hat (by decide) hc fun s₁ h₁ hat' hlen =>
      defScope_encoded hT hwf.1 hwf.2 hat' (hlen ▸ hread) h₁
  | device w seg body =>
    rw [Term.encode] at *
    exact parseNext_taken_ext hat hc fun s₁ h₁ hat' hlen =>
      defDevice_encoded hT hwf.1 hwf.2 hat' (hlen ▸ hread) h₁
  | mutex name flags =>
    exact parseNext_taken_ext hat hc fun s₁ h₁ hat' _ =>
      (defMutex_encoded hat' h₁).mono hquiet fun _ _ => id
  | aliasOp source alias_ =>
    exact parseNext_taken hat (by decide) hc fun s₁ h₁ hat' _ =>
      (defAlias_encoded hat' h₁).mono hquiet fun _ _ => id
  | processor w body =>
    exact parseNext_taken_ext hat hc fun s₁ h₁ hat' _ =>
      (skipPackage_encoded hwf hat' h₁).mono hquiet fun _ _ => id

omit hT in
theorem term_encode_pos (t : Term) : 0 < t.encode.length := by
  cases t <;> simp [Term.encode]

theorem termlistLoop_encoded (hwf : TermsWF ts) (hat : host.ReadsAt c (encodeTerms ts))
    (hread : c + (encodeTerms ts).length + 3 ≤ host.table.length) (hc : s.code ns = c) :
    Wp (termlistLoop (parseNext host parse fuel ns) ns (c + (encodeTerms ts).length) n)
      (fun _ s' => s'.log = s.log ++ termlistEvents ts c) NoFault s := by
  induction n generalizing ts c s with
  | zero => exact wp_outOfFuel_noFault
  | succ n ih =>
    simp only [termlistLoop, wp_bind, wp_code, hc]
    cases ts with
    | nil =>
      rw [if_neg (by simp [encodeTerms])]
      simp [AmlState.emit, termlistEvents]
    | cons t ts =>
      obtain ⟨hat₁, hat₂⟩ := readsAt_append.mp (show host.ReadsAt c (t.encode ++ encodeTerms ts) from hat)
      have hpos := term_encode_pos t
      have hlen : c + (encodeTerms (t :: ts)).length =
          c + t.encode.length + (encodeTerms ts).length := by
        rw [encodeTerms, List.length_append]
        omega
      rw [hlen] at hread ⊢
      rw [if_pos (by omega), wp_bind]
      refine (parseNext_encoded hT hwf.1 hat₁ (by omega) hc).mono ?_ fun _ _ => id
      rintro _ s' ⟨left, p, _, h', hleft, hp⟩
      cases left with
      | nil =>
        obtain rfl : p = c + t.encode.length := hp
        refine (ih hwf.2 hat₂ hread h'.1).mono ?_ fun _ _ => id
        intro _ s'' hlog
        rw [hlog, h'.2, termlistEvents, ← List.append_assoc]
        rfl
      | cons e es =>
        -- a package has been cut, and the cursor is at one of its elements
        cases n with
        | zero => exact wp_outOfFuel_noFault
        | succ n =>
          obtain ⟨b, bs, hencode, -⟩ := element_lead e
          obtain ⟨helement, -⟩ :=
            readsAt_append.mp (show host.ReadsAt p (e.encode ++ encodeElements es) from hleft)
          have hlt : p < c + t.encode.length + (encodeTerms ts).length := by
            rw [encodeElements, hencode, List.length_append, List.length_cons] at hp
            omega
          simp only [termlistLoop, wp_bind, wp_code, h'.1, if_pos hlt]
          exact parseNext_element helement h'.1

end

/-- The run: the nested term lists are parsed with less fuel. -/
theorem parseTermlist_encoded : ParsesTerms host (parseTermlist host fuel) := by
  induction fuel with
  | zero => exact fun _ _ _ => wp_outOfFuel_noFault
  | succ fuel ih =>
    intro ns start ts s hwf hat hread
    simp only [parseTermlist, wp_bind, wp_code, wp_setCode]
    refine (termlistLoop_encoded ih hwf hat hread (by simp [AmlState.setCode])).mono ?_ fun _ _ => id
    intro _ s' hlog
    exact hlog

/-- Unless it exits or fails an assertion, `parse_termlist` on the encoding of a list of terms, with
three readable bytes behind it, enters exactly the terms, one after the other, and leaves every term
list at its end; and the method objects that it registers are those of the Method terms, each with
the range of its body. -/
theorem parseTermlist_visits_terms (host : AmlHost) (ts : List Term) (ns start fuel : Nat)
    (s : AmlState) (hwf : TermsWF ts) (hat : host.ReadsAt start (encodeTerms ts))
    (hread : start + (encodeTerms ts).length + 3 ≤ host.table.length) (htree : s.tree.WF)
    (hns : s.tree.Has ns) (hfuel : host.table.length + 2 ≤ fuel) :
    Wp (parseTermlist host fuel ns start (start + (encodeTerms ts).length))
      (fun _ s' => s'.log = s.log ++ termlistEvents ts start ∧
        ∀ code len, s'.Registered code len ↔
          s.Registered code len ∨ .method code len ∈ termlistEvents ts start)
      (fun e _ => e = .exit ∨ ∃ a, e = .assertFailed a) s := by
  have hvisits : Wp (parseTermlist host fuel ns start (start + (encodeTerms ts).length))
      (fun _ s' => s'.log = s.log ++ termlistEvents ts start) NoFault s :=
    parseTermlist_encoded hwf hat hread
  have hstops : Wp (parseTermlist host fuel ns start (start + (encodeTerms ts).length))
      (fun _ s' => s'.tree.WF ∧ s'.code ns = s.code ns) (fun e _ => e.Final) s :=
    parseTermlist_spec wf_invariant (enough_of_length_lt hfuel) htree hns
  have hmethods : Wp (parseTermlist host fuel ns start (start + (encodeTerms ts).length))
      (fun _ => SeesMethods s) (fun _ _ => True) s :=
    steps_parseTermlist SeesMethods.handlers ns start _ s
  refine ((hvisits.and hstops).and hmethods).mono ?_ ?_
  · rintro _ s' ⟨⟨hlog, -⟩, events, hevents, hregistered⟩
    rw [List.append_cancel_left (hlog.symm.trans hevents)]
    exact ⟨hevents, hregistered⟩
  rintro e s' ⟨⟨hfault, hfinal⟩, -⟩
  cases e with
  | exit => exact .inl rfl
  | assertFailed a => exact .inr ⟨a, rfl⟩
  | fault => exact absurd rfl hfault
  | doesNotReturn => exact hfinal.elim
  | outOfFuel => exact hfinal.elim

/-- `Scope (\_SB) { Device (PCI0) { Name (_ADR, Zero) Method (FOO) { Return (Zero) } } }`. -/
def pciTerms : List Term :=
  [.scope 1 ⟨.root, .seg ⟨keyOfChars '_' 'S' 'B' '_', by decide⟩⟩
    [.device 2 ⟨keyOfChars 'P' 'C' 'I' '0', by decide⟩
      [.name ⟨keyOfChars '_' 'A' 'D' 'R', by decide⟩ (.int .zero),
        .method 1 (.ofSeg ⟨keyOfChars 'F' 'O' 'O' '_', by decide⟩) 0x00 [0xA4, 0x00]]]]

/-- A table with `pciTerms` behind the header, and zeros from all else. -/
def pciHost : AmlHost where
  table := List.replicate headerLen 0 ++ encodeTerms pciTerms ++ [0x00, 0x00, 0x00]
  uninit _ _ := 0
  readMem _ _ _ := none
  readIo _ _ _ := 0

theorem parseTermlist_pciTerms :
    ∃ s', parseTermlist pciHost 80 root 36 66 initAmlState = .ok () s' ∧
      s'.log = [.enter 36, .enter 43, .enter 51, .enter 57, .method 64 2, .leave 66, .leave 66,
        .leave 66] ∧
      s'.Registered 64 2 := by
  have hwf : TermsWF pciTerms := by
    refine ⟨⟨.inl (by decide), ⟨.inr (by decide), ⟨trivial, trivial⟩, ?_⟩, trivial⟩, trivial⟩
    exact ⟨.inl (by decide), trivial⟩
  have hat : pciHost.ReadsAt 36 (encodeTerms pciTerms) := ⟨[0x00, 0x00, 0x00], rfl⟩
  have htable : pciHost.table.length = 69 := rfl
  have htree : initAmlState.tree.WF := initAmlNamespaces_wf
  have hvisits : ∀ fuel s', 71 ≤ fuel →
      parseTermlist pciHost fuel root 36 66 initAmlState = .ok () s' →
        s'.log = initAmlState.log ++ termlistEvents pciTerms 36 ∧
          ∀ code len, s'.Registered code len ↔
            initAmlState.Registered code len ∨ .method code len ∈ termlistEvents pciTerms 36 := by
    intro fuel s' hfuel hr
    have h := parseTermlist_visits_terms pciHost pciTerms root 36 fuel initAmlState hwf hat
      (Nat.le_of_eq htable.symm) htree htree.root_has (htable.symm ▸ hfuel)
    exact (wp_of_ok hr).mp h
  have hrun : (match parseTermlist pciHost 80 root 36 66 initAmlState with
      | .ok _ _ => true
      | .error _ _ => false) = true := by
    decide +kernel
  split at hrun
  · next s' hr =>
    obtain ⟨hlog, hregistered⟩ := hvisits 80 s' (by decide) hr
    exact ⟨s', hr, hlog, (hregistered 64 2).mpr (.inr (by decide))⟩
  · cases hrun

end Aml

end Lethe
