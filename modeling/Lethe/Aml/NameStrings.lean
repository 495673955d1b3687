import Lethe.Aml.Reading

/-!
# What a decoded name says

`parse_namestring` keeps the segments and, of the characters in front of them, the first. So two
names decode to the same one when both start at an ancestor, however many levels up.
-/

namespace Lethe

/-! ## The segments -/

theorem NameSeg.ext_key {seg seg' : NameSeg} (h : seg.key = seg'.key) : seg = seg' := by
  cases seg
  cases seg'
  cases h
  rfl

theorem segBytes_inj {segs segs' : List NameSeg} :
    segBytes segs = segBytes segs' ↔ segs = segs' := by
  refine ⟨fun h => ?_, fun h => congrArg segBytes h⟩
  induction segs generalizing segs' with
  | nil =>
    cases segs' with
    | nil => rfl
    | cons seg' segs' => cases h
  | cons seg segs ih =>
    cases segs' with
    | nil => cases h
    | cons seg' segs' =>
      rw [segBytes_cons, segBytes_cons] at h
      obtain ⟨hkey, hrest⟩ := List.append_inj h rfl
      rw [NameSeg.ext_key (HashKey.bytes_inj.mp hkey), ih hrest]

/-- The characters of the segments are apart from those in front of them. -/
theorem append_segBytes_inj {as as' : List UInt8} (has : ∀ b ∈ as, ¬validChar b)
    (has' : ∀ b ∈ as', ¬validChar b) {segs segs' : List NameSeg} :
    as ++ segBytes segs = as' ++ segBytes segs' ↔ as = as' ∧ segs = segs' := by
  constructor
  · intro h
    have hvalid (segs : List NameSeg) : ∀ b ∈ segBytes segs, validChar b :=
      List.all_eq_true.mp segBytes_valid
    have hseg := congrArg (List.filter validChar) h
    rw [List.filter_append, List.filter_append, List.filter_eq_nil_iff.mpr has,
      List.filter_eq_nil_iff.mpr has', List.nil_append, List.nil_append,
      List.filter_eq_self.mpr (hvalid segs), List.filter_eq_self.mpr (hvalid segs')] at hseg
    rw [hseg] at h
    exact ⟨List.append_cancel_right h, segBytes_inj.mp hseg⟩
  · rintro ⟨rfl, rfl⟩
    rfl

/-! ## Names -/

namespace NameString

/-- The two names denote the same path: they start at the same namespace and have the same
segments. -/
def SamePath (n n' : NameString) : Prop := n.lead = n'.lead ∧ n.path.segs = n'.path.segs

/-- The two names start at ancestors, a different number of levels up. -/
def OtherAncestor (n n' : NameString) : Prop :=
  ∃ m m', n.lead = .parents (m + 1) ∧ n'.lead = .parents (m' + 1) ∧ m ≠ m' ∧
    n.path.segs = n'.path.segs

/-- `parse_namestring` returns `inner` for the name and consumes exactly its bytes, whatever follows
them. -/
def DecodesTo (n : NameString) (inner : List UInt8) : Prop :=
  ∀ (host : AmlHost) (c ns fuel : Nat) (s : AmlState), n.lead.encode.length < fuel →
    host.ReadsAt c n.encode → s.code ns = c →
      Wp (Aml.parseNamestring host fuel ns)
        (fun v s' => v.inner = inner ∧ s' = (s.setCode ns (c + n.encode.length)).tick)
        (fun _ _ => False) s

theorem decodesTo_inner (n : NameString) : n.DecodesTo n.inner :=
  fun _ _ _ _ _ hfuel hat hc => Aml.parseNamestring_eq (.of_lt hfuel) hat hc

theorem lead_not_valid (n : NameString) : ∀ b ∈ n.lead.encode.take 1, ¬validChar b := by
  intro b hb
  replace hb := List.mem_of_mem_take hb
  cases hlead : n.lead with
  | root =>
    rw [hlead] at hb
    obtain rfl := List.mem_singleton.mp hb
    decide
  | parents m =>
    rw [hlead] at hb
    obtain rfl := List.eq_of_mem_replicate hb
    decide

theorem take_lead_eq_iff {lead lead' : NameLead} : lead.encode.take 1 = lead'.encode.take 1 ↔
    lead = lead' ∨ ∃ m m', lead = .parents (m + 1) ∧ lead' = .parents (m' + 1) := by
  have hchars : rootChar ≠ parentChar := by decide
  cases lead with
  | root =>
    cases lead' with
    | root => simp
    | parents m' => cases m' <;> simp [NameLead.encode, List.replicate_succ, hchars]
  | parents m =>
    cases lead' with
    | root => cases m <;> simp [NameLead.encode, List.replicate_succ, hchars.symm]
    | parents m' =>
      cases m <;> cases m' <;> simp [NameLead.encode, List.replicate_succ]

/-- The names that decode to the same one. -/
theorem inner_eq_iff (n n' : NameString) :
    n.inner = n'.inner ↔ n.SamePath n' ∨ n.OtherAncestor n' := by
  rw [inner, inner, append_segBytes_inj n.lead_not_valid n'.lead_not_valid, take_lead_eq_iff]
  constructor
  · rintro ⟨hlead | ⟨m, m', hm, hm'⟩, hsegs⟩
    · exact .inl ⟨hlead, hsegs⟩
    · by_cases hmm : m = m'
      · exact .inl ⟨by rw [hm, hm', hmm], hsegs⟩
      · exact .inr ⟨m, m', hm, hm', hmm, hsegs⟩
  · rintro (⟨hlead, hsegs⟩ | ⟨m, m', hm, hm', -, hsegs⟩)
    · exact ⟨.inl hlead, hsegs⟩
    · exact ⟨.inr ⟨m, m', hm, hm'⟩, hsegs⟩

theorem OtherAncestor.not_samePath {n n' : NameString} (h : n.OtherAncestor n') :
    ¬n.SamePath n' := by
  obtain ⟨m, m', hm, hm', hne, -⟩ := h
  rintro ⟨hlead, -⟩
  rw [hm, hm', NameLead.parents.injEq] at hlead
  omega

/-- Every name is decoded from exactly its bytes, and two names that denote different paths decode
to different ones unless both start at ancestors and differ in the number of levels only. -/
theorem decodes_apart_iff (n n' : NameString) :
    ∃ inner inner', n.DecodesTo inner ∧ n'.DecodesTo inner' ∧
      ((¬n.SamePath n' → inner ≠ inner') ↔ ¬n.OtherAncestor n') := by
  refine ⟨n.inner, n'.inner, n.decodesTo_inner, n'.decodesTo_inner, ?_⟩
  rw [ne_eq, inner_eq_iff]
  constructor
  · intro h hother
    exact h hother.not_samePath (.inr hother)
  · intro hother hpath h
    obtain h | h := h
    · exact hpath h
    · exact hother h

/-- `^A___` and `^^A___`. -/
theorem decodes_apart_ancestors : ¬∀ (n n' : NameString) (inner inner' : List UInt8),
    n.DecodesTo inner → n'.DecodesTo inner' → ¬n.SamePath n' → inner ≠ inner' := by
  intro h
  let seg : NameSeg := ⟨keyOfChars 'A' '_' '_' '_', by decide⟩
  let n (m : Nat) : NameString := ⟨.parents m, .seg seg⟩
  refine h (n 1) (n 2) _ _ (n 1).decodesTo_inner (n 2).decodesTo_inner ?_ rfl
  rintro ⟨hlead, -⟩
  cases hlead

end NameString

end Lethe
