import Lethe.Aml.DataObjects
import Lethe.Aml.Decode

/-!
# The lengths of packages and buffers

`parse_data_object` reads the length of a package and does not use it: it takes as many elements as
are declared, cut to a byte, wherever the initialisers end. So a length is honoured exactly where
the object is complete. `lengths_honoured_iff` says so of an object with every package and buffer in
it, each at its place: an inner one that ends too early may make up for another that ends too late.
-/

namespace Lethe

mutual

/-- The buffers and packages in an object that begins at `c`, each with where it begins. -/
def DataObject.sizedAt : DataObject → Nat → List (Nat × DataObject)
  | .buffer w size bytes, c => [(c, .buffer w size bytes)]
  | .package w numElements elements, c =>
    (c, .package w numElements elements) :: sizedObjectsAt elements (c + 1 + w + 1)
  | .varPackage w numElements elements, c => (c, .varPackage w numElements elements) ::
      sizedObjectsAt elements (c + 1 + w + numElements.encode.length)
  | _, _ => []

def sizedObjectsAt : List DataObject → Nat → List (Nat × DataObject)
  | [], _ => []
  | o :: os, c => o.sizedAt c ++ sizedObjectsAt os (c + o.encode.length)

end

/-- The declared number of bytes or elements. -/
def DataObject.declared : DataObject → Nat
  | .buffer _ size _ => size.value
  | .package _ numElements _ => numElements.toNat
  | .varPackage _ numElements _ => numElements.value
  | _ => 0

/-- The recorded number of bytes or elements. -/
def AmlData.size : AmlData → Nat
  | .buffer bytes => bytes.length
  | .package elements => elements.length
  | _ => 0

namespace Aml

/-- Of the object at `c` the declared size is recorded, and the cursor, which only moves forward, is
left at its end. -/
def LengthHonoured (host : AmlHost) (fuel ns : Nat) (s : AmlState) (c : Nat)
    (o : DataObject) : Prop :=
  Wp (parseDataObject host fuel ns)
    (fun d s' => s'.code ns = c + o.encode.length ∧ d.size = o.declared)
    (fun _ _ => False) (s.setCode ns c)

variable {host : AmlHost} {s : AmlState} {t : Tree} {ns c fuel : Nat}

/-! ## Elements that are rejected -/

theorem packageElement_rejects {n : NameString} (hn : ¬n.Accepted) (hat : host.ReadsAt c n.encode)
    (hc : s.code ns = c) :
    Wp (packageElement host (parseDataObject host fuel) fuel ns) (fun _ _ => False) NoFault s := by
  simp only [packageElement, wp_bind, wp_code]
  refine (parseNamestring_reads fueled_noFault hat hc).mono ?_ fun _ _ => id
  rintro ⟨_, behind⟩ s' ⟨rfl, h'⟩
  rw [validName_inner rfl]
  obtain ⟨lead, path⟩ := n
  cases lead with
  | root => exact absurd trivial hn
  | parents m =>
    cases m with
    | succ m =>
      -- `resolve_name` has no case for a parent prefix
      rw [if_neg (by simp [AmlName.count, NameString.inner, NameLead.encode, List.replicate_succ]),
        wp_bind, wp_tick, wp_bind]
      have hhead : (NameString.inner ⟨.parents (m + 1), path⟩).head? = some parentChar := rfl
      refine wp_ask (fun r hr => ?_) fun e he => resolveName_no_fault he
      rw [resolveName, if_pos hhead] at hr
      cases hr
    | zero =>
      cases path with
      | multi segs hsegs =>
        cases segs with
        | cons seg segs => exact absurd trivial hn
        | nil =>
          rw [if_pos (by rfl), wp_bind, wp_setCode, hc]
          exact parseDataObject_other (readsAt_cons.mp hat).1 rfl (h'.trans .setCode).code
      | _ => exact absurd trivial hn

/-! ## The elements of a package -/

theorem fueled_of_readsAt (hfuel : host.table.length + 2 ≤ fuel) (hat : host.ReadsAt c bytes) :
    Fueled E bytes.length fuel := by
  have := hat.le
  exact .of_lt (by omega)

theorem enough_of_le (hfuel : host.table.length + 2 ≤ fuel) : Enough host c fuel :=
  ⟨by omega, by omega⟩

/-- An element that is read moves the cursor. -/
theorem populatePackage_none (ht : s.tree.WF) (hns : s.tree.Has ns)
    (hfuel : host.table.length + 2 ≤ fuel) (hc : s.code ns = c)
    (h : Wp (populatePackage host (parseDataObject host fuel) fuel ns n)
      (fun _ s' => s'.code ns = c)
      (fun _ _ => False) s) : n = 0 := by
  cases n with
  | zero => rfl
  | succ n =>
    have hf : Enough host c fuel := enough_of_le hfuel
    have hat : At (fun s => s.tree.WF) c ns s := ⟨ht, hns, Nat.le_of_eq hc.symm⟩
    have hmoves : Wp (populatePackage host (parseDataObject host fuel) fuel ns (n + 1))
        (fun _ => At (fun s => s.tree.WF) (c + 1) ns) (fun e _ => e.Final) s := by
      rw [populatePackage]
      refine Wp.bind (packageElement_spec wf_invariant hat hf) fun _ s' h' => ?_
      have hf' := hf.mono (Nat.le_succ c)
      refine Keeps.bind ?_ (fun _ => .pure) h'
      exact keeps_populatePackage wf_invariant hf' (keeps_parseDataObject wf_invariant hf') n
    obtain ⟨_, s', -, hcode, -, -, hle⟩ := wp_returns.mp ((h.and hmoves).mono (fun _ _ => id)
      fun _ _ => And.left)
    omega

/-- If `populate_package` returns, it has accepted all the names among the initialisers, and then
reads the elements that are missing. -/
theorem populatePackage_complete {os : List DataObject} (ht : t.WF) (hns : ns < t.next)
    (hup : Relation.ReflTransGen t.Up ns root) (hfuel : host.table.length + 2 ≤ fuel)
    (hdata : ∀ o ∈ os, o.IsData → o.Complete) (hwf : ObjectsWF os)
    (hat : host.ReadsAt c (encodeObjects os))
    (hread : c + (encodeObjects os).length + 3 ≤ host.table.length) (hs : s.tree = t)
    (hc : s.code ns = c) (hn : os.length ≤ n)
    (h : Wp (populatePackage host (parseDataObject host fuel) fuel ns n)
      (fun _ s' => s'.code ns = q)
      (fun _ _ => False) s) :
    ObjectsComplete os ∧ ∃ s', Advanced s ns (c + (encodeObjects os).length) s' ∧
      Wp (populatePackage host (parseDataObject host fuel) fuel ns (n - os.length))
        (fun _ s' => s'.code ns = q) (fun _ _ => False) s' := by
  induction os generalizing c s n with
  | nil => exact ⟨trivial, s, .refl hc, h⟩
  | cons o os ih =>
    cases n with
    | zero => exact absurd hn (Nat.not_succ_le_zero _)
    | succ n =>
      simp only [encodeObjects, List.length_append] at hat hread ⊢
      obtain ⟨hat₁, hat₂⟩ := readsAt_append.mp hat
      simp only [populatePackage, wp_bind] at h
      have ho : o.Complete := by
        by_cases hd : o.IsData
        · exact hdata o (.head _) hd
        · cases o with
          | name n =>
            by_contra hn
            rw [DataObject.encode] at hat₁
            exact (packageElement_rejects hn hat₁ hc).not_returns h
          | _ => exact absurd trivial hd
      have hdecodes :=
        packageElement_decodes ht hns hup (parseDataObject_decodes ht hns hup) hwf.1 ho
        hat₁ (by omega) (fueled_of_readsAt (E := fun _ _ => False) hfuel hat₁) hs hc
      obtain ⟨d, s₁, -, hrest, -, h₁⟩ := wp_returns.mp ((h.and hdecodes).mono (fun _ _ => id)
        fun _ _ => And.left)
      obtain ⟨hos, s₂, h₂, htail⟩ := ih (fun o ho => hdata o (.tail _ ho)) hwf.2 hat₂ (by omega)
        (h₁.tree.trans hs) h₁.code (Nat.le_of_succ_le_succ hn) (wp_bind.mp hrest)
      refine ⟨⟨ho, hos⟩, s₂, ?_, ?_⟩
      · rw [Nat.add_assoc] at h₂
        exact h₁.trans h₂
      · rwa [List.length_cons, Nat.add_sub_add_right]

theorem populatePackage_length {parse : Nat → Aml AmlData} :
    Wp (populatePackage host parse fuel ns n) (fun ds _ => ds.length = n) (fun _ _ => True) s := by
  induction n generalizing s with
  | zero => exact rfl
  | succ n ih =>
    rw [populatePackage]
    refine Wp.bind (Q := fun _ _ => True) (E := fun _ _ => True) ?_ fun d s' _ => ?_
    · rw [Wp]
      split <;> trivial
    · refine Wp.bind ih fun ds s'' hlen => ?_
      exact congrArg (· + 1) hlen

/-- A package whose length is honoured has got as many elements as are declared. -/
theorem packageData_complete {os : List DataObject} (ht : t.WF) (hns : t.Has ns)
    (hup : Relation.ReflTransGen t.Up ns root) (hfuel : host.table.length + 2 ≤ fuel)
    (hdata : ∀ o ∈ os, o.IsData → o.Complete) (hwf : ObjectsWF os)
    (hat : host.ReadsAt c (encodeObjects os))
    (hread : c + (encodeObjects os).length + 3 ≤ host.table.length) (hs : s.tree = t)
    (hc : s.code ns = c) (hn : os.length ≤ n)
    (h : Wp (packageData host (parseDataObject host fuel) fuel ns n)
      (fun d s' => s'.code ns = c + (encodeObjects os).length ∧ d.size = n) (fun _ _ => False) s) :
    ObjectsComplete os ∧ os.length = n ∧ n < 256 := by
  simp only [packageData, wp_bind] at h
  have hlt : n < 256 := by
    obtain ⟨ds, s', -, ⟨-, hsize⟩, hlen⟩ := wp_returns.mp ((h.and populatePackage_length).mono
      (fun _ _ => id) fun _ _ => And.left)
    have hsize : ds.length = n := hsize
    omega
  have hmod : n % 2 ^ 8 = n := Nat.mod_eq_of_lt hlt
  rw [hmod] at h
  obtain ⟨hos, s', h', htail⟩ :=
    populatePackage_complete ht hns.1 hup hfuel hdata hwf hat hread hs hc hn
    (h.mono (fun _ _ h => h.1) fun _ _ => id)
  have ht' : s'.tree = t := h'.tree.trans hs
  have hzero := populatePackage_none (ht' ▸ ht) (ht' ▸ hns) hfuel h'.code htail
  exact ⟨hos, by omega, hlt⟩

/-! ## Objects -/

/-- What has been taken in a run that returns. -/
theorem Takes.inv {f : α → Aml β} (h : Takes (fun _ _ => False) x a ns p s)
    (hw : Wp (x >>= f) Q (fun _ _ => False) s) :
    ∃ s', Advanced s ns p s' ∧ Wp (f a) Q (fun _ _ => False) s' := by
  obtain ⟨_, s', -, hrest, rfl, h'⟩ := wp_returns.mp (((wp_bind.mp hw).and h).mono (fun _ _ => id)
    fun _ _ => And.left)
  exact ⟨s', h', hrest⟩

theorem buffer_complete (hwf : (DataObject.buffer w size bytes).WF)
    (hat : host.ReadsAt c (DataObject.buffer w size bytes).encode)
    (h : LengthHonoured host (fuel + 1) ns s c (.buffer w size bytes)) (hfuel : 0 < fuel) :
    (DataObject.buffer w size bytes).Complete := by
  rw [DataObject.WF] at hwf
  obtain ⟨hb, hlength, hsize, hbytes⟩ := buffer_parts hwf.1 hat
  have hc : (s.setCode ns c).code ns = c := Advanced.setCode.code
  rw [LengthHonoured, parseDataObject, buffer_end hwf.1] at h
  obtain ⟨s₁, h₁, h⟩ := (takes_nextByte hb hc).inv h
  obtain ⟨s₂, h₂, h⟩ := (takes_parseLength hwf.1 hlength h₁.code).inv h
  have hshort : size.Short := by
    by_contra hs
    cases size with
    | qword v =>
      exact (termArgToInt_qword (Q := fun _ _ => False) hsize h₂.code).not_returns (wp_bind.mp h)
    | _ => exact hs trivial
  obtain ⟨s₃, h₃, h⟩ := (takes_termArgToInt_const hshort (.of_lt hfuel) hsize h₂.code).inv h
  rw [wp_bind, wp_code, h₃.code, wp_bind] at h
  obtain ⟨buffer, s₄, -, hcode, -⟩ := wp_returns.mp h
  refine ⟨hshort, ?_⟩
  change Function.update s₄.code ns _ ns = _ at hcode
  rw [Function.update_self] at hcode
  exact (Nat.add_left_cancel hcode).symm

section
variable (ht : s.tree.WF) (hns : s.tree.Has ns) (hup : Relation.ReflTransGen s.tree.Up ns root)
  (hfuel : host.table.length + 2 ≤ fuel)
include ht hns hup hfuel

theorem package_complete (hwf : (DataObject.package w numElements elements).WF)
    (hdata : ∀ o ∈ elements, o.IsData → o.Complete)
    (hat : host.ReadsAt c (DataObject.package w numElements elements).encode)
    (hread : c + (DataObject.package w numElements elements).encode.length + 3 ≤ host.table.length)
    (h : LengthHonoured host (fuel + 1) ns s c (.package w numElements elements)) :
    (DataObject.package w numElements elements).Complete := by
  rw [DataObject.WF] at hwf
  obtain ⟨hfit, hle, hwf⟩ := hwf
  obtain ⟨hb, hlength, hnum, helements⟩ := package_parts hfit hat
  have hc : (s.setCode ns c).code ns = c := Advanced.setCode.code
  rw [package_end hfit] at hread
  rw [LengthHonoured, parseDataObject, package_end hfit] at h
  obtain ⟨s₁, h₁, h⟩ := (takes_nextByte hb hc).inv h
  obtain ⟨s₂, h₂, h⟩ := (takes_parseLength hfit hlength h₁.code).inv h
  obtain ⟨s₃, h₃, h⟩ := (takes_nextByte hnum h₂.code).inv h
  have htree : s₃.tree = s.tree := (h₁.trans (h₂.trans h₃)).tree
  obtain ⟨ho, hcount, -⟩ :=
    packageData_complete ht hns hup hfuel hdata hwf helements hread htree h₃.code
    hle h
  exact ⟨hcount, ho⟩

theorem varPackage_complete (hwf : (DataObject.varPackage w count elements).WF)
    (hdata : ∀ o ∈ elements, o.IsData → o.Complete)
    (hat : host.ReadsAt c (DataObject.varPackage w count elements).encode)
    (hread : c + (DataObject.varPackage w count elements).encode.length + 3 ≤ host.table.length)
    (h : LengthHonoured host (fuel + 1) ns s c (.varPackage w count elements)) :
    (DataObject.varPackage w count elements).Complete := by
  rw [DataObject.WF] at hwf
  obtain ⟨hfit, hle, hwf⟩ := hwf
  obtain ⟨hb, hlength, hnum, helements⟩ := varPackage_parts hfit hat
  have hc : (s.setCode ns c).code ns = c := Advanced.setCode.code
  rw [varPackage_end hfit] at hread
  rw [LengthHonoured, parseDataObject, varPackage_end hfit] at h
  obtain ⟨s₁, h₁, h⟩ := (takes_nextByte hb hc).inv h
  obtain ⟨s₂, h₂, h⟩ := (takes_parseLength hfit hlength h₁.code).inv h
  have hshort : count.Short := by
    by_contra hs
    cases count with
    | qword v =>
      exact (termArgToInt_qword (Q := fun _ _ => False) hnum h₂.code).not_returns (wp_bind.mp h)
    | _ => exact hs trivial
  have hfuel' : Fueled (fun _ _ => False) 0 fuel := .of_lt (by omega)
  obtain ⟨s₃, h₃, h⟩ := (takes_termArgToInt_const hshort hfuel' hnum h₂.code).inv h
  have htree : s₃.tree = s.tree := (h₁.trans (h₂.trans h₃)).tree
  obtain ⟨ho, hcount, hlt⟩ := packageData_complete ht hns hup hfuel hdata hwf helements hread htree
    h₃.code hle h
  exact ⟨hshort, hcount, hlt, ho⟩

set_option linter.unusedSectionVars false in
mutual

/-- The induction over the object: where the lengths of the elements are honoured, the package gets
as far as the end of its list, and then takes from what follows. -/
theorem complete_of_honoured : ∀ (o : DataObject) (c : Nat), o.WF → o.IsData →
    host.ReadsAt c o.encode →
    c + o.encode.length + 3 ≤ host.table.length →
    (∀ p ∈ o.sizedAt c, LengthHonoured host (fuel + 1) ns s p.1 p.2) → o.Complete
  | .int _, _, _, _, _, _, _ => trivial
  | .string _, _, _, _, _, _, _ => trivial
  | .name _, _, _, hd, _, _, _ => hd.elim
  | .buffer w size bytes, c, hwf, _, hat, _, h => buffer_complete hwf hat (h _ (.head _)) (by omega)
  | .package w numElements elements, c, hwf, _, hat, hread, h => by
    obtain ⟨hfit, hle, hwf'⟩ := hwf
    have hread' := hread
    rw [package_end hfit] at hread'
    have helements :=
      objectsComplete_of_honoured elements _ hwf' (package_parts hfit hat).2.2.2 hread'
      fun p hp => h p (.tail _ hp)
    exact package_complete ht hns hup hfuel ⟨hfit, hle, hwf'⟩ helements hat hread (h _ (.head _))
  | .varPackage w count elements, c, hwf, _, hat, hread, h => by
    obtain ⟨hfit, hle, hwf'⟩ := hwf
    have hread' := hread
    rw [varPackage_end hfit] at hread'
    have helements :=
      objectsComplete_of_honoured elements _ hwf' (varPackage_parts hfit hat).2.2.2 hread'
      fun p hp => h p (.tail _ hp)
    exact varPackage_complete ht hns hup hfuel ⟨hfit, hle, hwf'⟩ helements hat hread (h _ (.head _))

theorem objectsComplete_of_honoured : ∀ (os : List DataObject) (c : Nat), ObjectsWF os →
    host.ReadsAt c (encodeObjects os) → c + (encodeObjects os).length + 3 ≤ host.table.length →
    (∀ p ∈ sizedObjectsAt os c, LengthHonoured host (fuel + 1) ns s p.1 p.2) →
    ∀ o ∈ os, o.IsData → o.Complete
  | [], _, _, _, _, _ => fun _ ho => nomatch ho
  | o :: os, c, hwf, hat, hread, h => by
    rw [encodeObjects, List.length_append] at hread
    rw [encodeObjects] at hat
    obtain ⟨hat₁, hat₂⟩ := readsAt_append.mp hat
    rw [sizedObjectsAt, List.forall_mem_append] at h
    refine List.forall_mem_cons.mpr ⟨fun hd => ?_, ?_⟩
    · exact complete_of_honoured o c hwf.1 hd hat₁ (by omega) h.1
    · exact objectsComplete_of_honoured os _ hwf.2 hat₂ (by omega) h.2

end

end

mutual

/-- What is in a complete object is complete. -/
theorem sizedAt_complete : ∀ (o : DataObject) (c : Nat), o.WF → o.Complete →
    host.ReadsAt c o.encode →
    c + o.encode.length + 3 ≤ host.table.length → ∀ p ∈ o.sizedAt c, p.2.WF ∧ p.2.Complete ∧
      p.2.IsData ∧ host.ReadsAt p.1 p.2.encode ∧ p.1 + p.2.encode.length + 3 ≤ host.table.length
  | .int _, _, _, _, _, _ => fun _ hp => nomatch hp
  | .string _, _, _, _, _, _ => fun _ hp => nomatch hp
  | .name _, _, _, _, _, _ => fun _ hp => nomatch hp
  | .buffer _ _ _, _, hwf, ho, hat, hread =>
    List.forall_mem_singleton.mpr ⟨hwf, ho, trivial, hat, hread⟩
  | .package w numElements elements, c, hwf, ho, hat, hread => by
    refine List.forall_mem_cons.mpr ⟨⟨hwf, ho, trivial, hat, hread⟩, ?_⟩
    obtain ⟨hfit, -, hwf⟩ := hwf
    rw [package_end hfit] at hread
    exact sizedObjectsAt_complete elements _ hwf ho.2 (package_parts hfit hat).2.2.2 hread
  | .varPackage w count elements, c, hwf, ho, hat, hread => by
    refine List.forall_mem_cons.mpr ⟨⟨hwf, ho, trivial, hat, hread⟩, ?_⟩
    obtain ⟨hfit, -, hwf⟩ := hwf
    rw [varPackage_end hfit] at hread
    exact sizedObjectsAt_complete elements _ hwf ho.2.2.2 (varPackage_parts hfit hat).2.2.2 hread

theorem sizedObjectsAt_complete : ∀ (os : List DataObject) (c : Nat), ObjectsWF os →
    ObjectsComplete os →
    host.ReadsAt c (encodeObjects os) → c + (encodeObjects os).length + 3 ≤ host.table.length →
    ∀ p ∈ sizedObjectsAt os c, p.2.WF ∧ p.2.Complete ∧ p.2.IsData ∧ host.ReadsAt p.1 p.2.encode ∧
      p.1 + p.2.encode.length + 3 ≤ host.table.length
  | [], _, _, _, _, _ => fun _ hp => nomatch hp
  | o :: os, c, hwf, ho, hat, hread => by
    rw [encodeObjects, List.length_append] at hread
    rw [encodeObjects] at hat
    obtain ⟨hat₁, hat₂⟩ := readsAt_append.mp hat
    rw [sizedObjectsAt, List.forall_mem_append]
    exact ⟨sizedAt_complete o c hwf.1 ho.1 hat₁ (by omega),
      sizedObjectsAt_complete os _ hwf.2 ho.2 hat₂ (by omega)⟩

end

theorem objectsRepresent_length {os : List DataObject} (h : ObjectsRepresent t ns os ds) :
    ds.length = os.length := by
  induction os generalizing ds with
  | nil =>
    subst h
    rfl
  | cons o os ih =>
    obtain ⟨d, ds', rfl, -, h⟩ := h
    rw [List.length_cons, List.length_cons, ih h]

theorem size_of_represents {o : DataObject} {d : AmlData} (ho : o.Complete) (hd : o.IsData)
    (h : o.Represents t ns d) : d.size = o.declared := by
  cases o with
  | int v =>
    subst h
    cases v <;> rfl
  | string chars =>
    subst h
    rfl
  | name n => exact hd.elim
  | buffer w size bytes =>
    subst h
    exact ho.2
  | package w numElements elements =>
    obtain ⟨ds, rfl, h⟩ := h
    exact (objectsRepresent_length h).trans ho.1
  | varPackage w count elements =>
    obtain ⟨ds, rfl, h⟩ := h
    exact (objectsRepresent_length h).trans ho.2.1

/-- The lengths in a data object are honoured exactly if every list of initialisers in it is as long
as declared, within a byte for packages, and its numbers and names are of the kinds that are
supported. -/
theorem lengths_honoured_iff (host : AmlHost) (o : DataObject) (s : AmlState) (ns c : Nat)
    (hwf : o.WF) (hd : o.IsData) (ht : s.tree.WF) (hns : s.tree.Has ns)
    (hup : Relation.ReflTransGen s.tree.Up ns root) (hat : host.ReadsAt c o.encode)
    (hread : c + o.encode.length + 3 ≤ host.table.length) :
    ∃ bound, ∀ fuel, bound ≤ fuel →
      ((∀ p ∈ o.sizedAt c, LengthHonoured host fuel ns s p.1 p.2) ↔ o.Complete) := by
  refine ⟨host.table.length + 3, fun fuel hfuel => ⟨fun h => ?_, fun ho p hp => ?_⟩⟩
  · cases fuel with
    | zero => exact absurd hfuel (Nat.not_succ_le_zero _)
    | succ fuel =>
      exact complete_of_honoured ht hns hup (Nat.le_of_succ_le_succ hfuel) o c hwf hd hat hread h
  · obtain ⟨hwf', ho', hd', hat', hread'⟩ := sizedAt_complete o c hwf ho hat hread p hp
    have hfuel' : host.table.length + 2 ≤ fuel := Nat.le_of_succ_le hfuel
    have htree : (s.setCode ns p.1).tree = s.tree := rfl
    refine (parseDataObject_decodes ht hns.1 hup hwf' ho' hd' hat' hread'
      (fueled_of_readsAt hfuel' hat')
      htree Advanced.setCode.code).mono ?_ fun _ _ => id
    exact fun d s' h => ⟨h.2.code, size_of_represents ho' hd' h.1⟩

/-- `Package (2) { One }`, with zeros behind it. -/
def partialPackage : DataObject := .package 1 2 [.int .one]

def partialPackageHost : AmlHost where
  table := partialPackage.encode ++ [0, 0, 0]
  uninit _ _ := 0
  readMem _ _ _ := none
  readIo _ _ _ := 0

/-- `Package (2) { Buffer (2) { 1, 2 }, Package (1) { One } }`. -/
def nestedPackage : DataObject :=
  .package 1 2 [.buffer 1 (.byte 2) [1, 2], .package 1 1 [.int .one]]

def nestedPackageHost : AmlHost where
  table := nestedPackage.encode ++ [0, 0, 0]
  uninit _ _ := 0
  readMem _ _ _ := none
  readIo _ _ _ := 0

theorem lengths_honoured_iff_partialPackage : (∃ bound, ∀ fuel, bound ≤ fuel →
      ((∀ p ∈ partialPackage.sizedAt 0,
        LengthHonoured partialPackageHost fuel root initAmlState p.1 p.2) ↔
        partialPackage.Complete)) ∧
    ∃ bound, ∀ fuel, bound ≤ fuel → ∀ p ∈ nestedPackage.sizedAt 0,
      LengthHonoured nestedPackageHost fuel root initAmlState p.1 p.2 := by
  have hwf : partialPackage.WF := by
    simp [partialPackage, DataObject.WF, ObjectsWF, encodeObjects, DataObject.encode,
      PkgOk, PkgFits, IntConst.encode]
  have hwf' : nestedPackage.WF := by
    simp [nestedPackage, DataObject.WF, ObjectsWF, encodeObjects, DataObject.encode, encodePkg,
      encodePkgLength, PkgOk, PkgFits, IntConst.encode, IntConst.value, leBytes]
  have hcomplete : nestedPackage.Complete := by
    simp [nestedPackage, DataObject.Complete, ObjectsComplete, IntConst.Short, IntConst.value]
  refine ⟨lengths_honoured_iff partialPackageHost partialPackage initAmlState root 0 hwf trivial
    initAmlNamespaces_wf initAmlNamespaces_wf.root_has .refl ⟨[0, 0, 0], rfl⟩ (Nat.le_refl _), ?_⟩
  obtain ⟨bound, h⟩ := lengths_honoured_iff nestedPackageHost nestedPackage initAmlState root 0 hwf'
    trivial initAmlNamespaces_wf initAmlNamespaces_wf.root_has .refl ⟨[0, 0, 0], rfl⟩ (Nat.le_refl _)
  exact ⟨bound, fun fuel hfuel => (h fuel hfuel).mpr hcomplete⟩

/-- The second element is the byte behind the package. -/
theorem partialPackage_overruns :
    ¬LengthHonoured partialPackageHost 64 root initAmlState 0 partialPackage := by
  have hrun : (match parseDataObject partialPackageHost 64 root (initAmlState.setCode root 0) with
      | .ok _ s' => s'.code root
      | .error _ _ => 0) = 5 := by decide
  intro h
  obtain ⟨d, s', hok, hcode, -⟩ := wp_returns.mp h
  rw [hok] at hrun
  exact absurd (hrun.symm.trans hcode) (by decide)

end Aml

end Lethe
