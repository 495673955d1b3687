import Lethe.Aml.NamespaceTree
import Lethe.Aml.Reading

/-!
# The decoding of data objects

A buffer and a package declare how many bytes or elements they have, and their list of initialisers
may be shorter. `DataObject` has both, and `Complete` says that nowhere in it the list is shorter
than declared, and that `parse_data_object` has cases for the numbers and names in it. Such an
object is decoded to what it stands for (`Represents`): where a name is tried on a data object it is
turned down, and the cursor is put back.
-/

namespace Lethe

/-! ## Syntax -/

/-- A data object, or a name as an element of a package. -/
inductive DataObject
  | int (v : IntConst)
  | string (chars : List UInt8)
  | name (n : NameString)
  | buffer (w : Nat) (size : IntConst) (bytes : List UInt8)
  | package (w : Nat) (numElements : UInt8) (elements : List DataObject)
  | varPackage (w : Nat) (numElements : IntConst) (elements : List DataObject)

/-- A name that `populate_package` takes: it has no parent prefix, and is not a path of no segments
that does not say so with a null name. -/
def NameString.Accepted : NameString → Prop
  | ⟨.parents (_ + 1), _⟩ => False
  | ⟨.parents 0, .multi [] _⟩ => False
  | _ => True

mutual

def DataObject.encode : DataObject → List UInt8
  | .int v => v.encode
  | .string chars => 0x0D :: (chars ++ [0x00])
  | .name n => n.encode
  | .buffer w size bytes => 0x11 :: encodePkg w (size.encode ++ bytes)
  | .package w numElements elements => 0x12 :: encodePkg w (numElements :: encodeObjects elements)
  | .varPackage w numElements elements =>
    0x13 :: encodePkg w (numElements.encode ++ encodeObjects elements)

def encodeObjects : List DataObject → List UInt8
  | [] => []
  | o :: os => o.encode ++ encodeObjects os

end

mutual

/-- The lengths of the packages fit, and no list of initialisers is longer than declared. -/
def DataObject.WF : DataObject → Prop
  | .int _ => True
  | .string chars => 0x00 ∉ chars
  | .name _ => True
  | .buffer w size bytes => PkgOk w (size.encode ++ bytes) ∧ bytes.length ≤ size.value
  | .package w numElements elements => PkgOk w (numElements :: encodeObjects elements) ∧
      elements.length ≤ numElements.toNat ∧ ObjectsWF elements
  | .varPackage w numElements elements => PkgOk w (numElements.encode ++ encodeObjects elements) ∧
      elements.length ≤ numElements.value ∧ ObjectsWF elements

def ObjectsWF : List DataObject → Prop
  | [] => True
  | o :: os => o.WF ∧ ObjectsWF os

end

mutual

/-- Every list of initialisers is as long as declared, the numbers of elements fit in a byte, no
declared number is a `qword`, and the names are accepted. -/
def DataObject.Complete : DataObject → Prop
  | .int _ => True
  | .string _ => True
  | .name n => n.Accepted
  | .buffer _ size bytes => size.Short ∧ bytes.length = size.value
  | .package _ numElements elements =>
    elements.length = numElements.toNat ∧ ObjectsComplete elements
  | .varPackage _ numElements elements => numElements.Short ∧ elements.length = numElements.value ∧
      numElements.value < 256 ∧ ObjectsComplete elements

def ObjectsComplete : List DataObject → Prop
  | [] => True
  | o :: os => o.Complete ∧ ObjectsComplete os

end

def DataObject.IsData : DataObject → Prop
  | .name _ => False
  | _ => True

/-! ## Meaning -/

mutual

/-- The variable stands for the object, in the namespace `ns`. A null name is `Zero`, and any other
name is resolved. -/
def DataObject.Represents (t : Tree) (ns : Nat) : DataObject → AmlData → Prop
  | .int v, d => d = v.data
  | .string chars, d => d = .string (chars ++ [0x00])
  | .name n, d =>
    if n.inner = [] then d = .byte 0
    else ∃ block behind r, resolveName t block ns ⟨n.inner, behind⟩ = .ok r ∧ d = .uninit r.inner
  | .buffer _ _ bytes, d => d = .buffer bytes
  | .package _ _ elements, d => ∃ ds, d = .package ds ∧ ObjectsRepresent t ns elements ds
  | .varPackage _ _ elements, d => ∃ ds, d = .package ds ∧ ObjectsRepresent t ns elements ds

def ObjectsRepresent (t : Tree) (ns : Nat) : List DataObject → List AmlData → Prop
  | [], ds => ds = []
  | o :: os, ds => ∃ d ds', ds = d :: ds' ∧ o.Represents t ns d ∧ ObjectsRepresent t ns os ds'

end

/-! ## Names -/

section
variable {t : Tree} {ns : Nat}

/-- The first loop of `resolve_name` comes to `root()`. -/
theorem levelsLoop_root (levels : Nat) (ht : t.WF) (hup : Relation.ReflTransGen t.Up n root)
    (hn : n < fuel) :
    ∃ l, levelsLoop t fuel n levels = some (levels + l, root) ∧ (l = 0 → n = root) := by
  induction fuel generalizing n levels with
  | zero => exact absurd hn (Nat.not_lt_zero n)
  | succ fuel ih =>
    rw [levelsLoop]
    cases hp : (t.nodes n).parent with
    | none =>
      obtain rfl | ⟨p, hup', -⟩ := hup.cases_head
      · exact ⟨0, rfl, fun _ => rfl⟩
      · rw [Tree.Up, hp] at hup'
        cases hup'
    | some p =>
      have hlt := (ht.parent_has hp).1
      obtain rfl | ⟨p', hup', hrest⟩ := hup.cases_head
      · exact absurd hlt (Nat.not_lt_zero p)
      · rw [Tree.Up, hp] at hup'
        obtain rfl := Option.some.inj hup'
        obtain ⟨l, hl, -⟩ := ih (levels + 1) hrest (by omega)
        exact ⟨l + 1, by rw [← Nat.add_assoc, Nat.add_right_comm]; exact hl, by simp⟩

/-- In a namespace below `root()` a name without a parent prefix is resolved. -/
theorem resolveName_ok (block : Nat → UInt8) (key : AmlName) (ht : t.WF) (hns : ns < t.next)
    (hup : Relation.ReflTransGen t.Up ns root) (hkey : key.inner.head? ≠ some parentChar) :
    ∃ r, resolveName t block ns key = .ok r := by
  rw [resolveName, if_neg hkey]
  split
  · exact ⟨_, rfl⟩
  · next hroot =>
    obtain ⟨l, hl, hl0⟩ := levelsLoop_root 0 ht hup hns
    rw [Nat.zero_add] at hl
    have hpos : l ≠ 0 := fun h => hroot (.inl (hl0 h))
    simp only [hl, ne_eq, not_true_eq_false, if_false, if_neg hpos]
    split
    · next hp => exact absurd hp (prependLoop_ne_none ht hns)
    · exact ⟨_, rfl⟩

end

/-! ## Decoding -/

namespace Aml

variable {host : AmlHost} {s : AmlState} {t : Tree} {ns c fuel : Nat}
  {E : AmlStop → AmlState → Prop}

theorem dataObject_lead {o : DataObject} (h : o.IsData) :
    ∃ b bs, o.encode = b :: bs ∧ dataLead b = true := by
  cases o with
  | int v => cases v <;> exact ⟨_, _, rfl, by decide⟩
  | string chars => exact ⟨_, _, rfl, by decide⟩
  | buffer w size bytes => exact ⟨0x11, _, by rw [DataObject.encode], by decide⟩
  | package w n elements => exact ⟨0x12, _, by rw [DataObject.encode], by decide⟩
  | varPackage w n elements => exact ⟨0x13, _, by rw [DataObject.encode], by decide⟩
  | name n => exact h.elim

/-- The state `s'` has the cursor behind the object, and `d` is what it stands for. -/
def Decoded (s : AmlState) (ns c : Nat) (o : DataObject) (d : AmlData) (s' : AmlState) : Prop :=
  o.Represents s.tree ns d ∧ Advanced s ns (c + o.encode.length) s'

/-! ## The parts of buffers and packages -/

section
variable {numElements : UInt8} {count : IntConst} {elements : List DataObject}

theorem buffer_parts (hfit : PkgOk w (size.encode ++ bytes))
    (hat : host.ReadsAt c (DataObject.buffer w size bytes).encode) :
    host.table[c]? = some 0x11 ∧
      host.ReadsAt (c + 1) (encodePkgLength w (w + (size.encode ++ bytes).length)) ∧
      host.ReadsAt (c + 1 + w) size.encode ∧
        host.ReadsAt (c + 1 + w + size.encode.length) bytes := by
  rw [DataObject.encode] at hat
  obtain ⟨hb, hat'⟩ := readsAt_cons.mp hat
  obtain ⟨hlength, hcontent⟩ := readsAt_pkg hfit hat'
  exact ⟨hb, hlength, readsAt_append.mp hcontent⟩

theorem buffer_end (hfit : PkgOk w (size.encode ++ bytes)) :
    c + (DataObject.buffer w size bytes).encode.length =
      c + 1 + w + size.encode.length + bytes.length := by
  simp only [DataObject.encode, List.length_cons, encodePkg_length hfit, List.length_append]
  omega

theorem package_parts (hfit : PkgOk w (numElements :: encodeObjects elements))
    (hat : host.ReadsAt c (DataObject.package w numElements elements).encode) :
    host.table[c]? = some 0x12 ∧
      host.ReadsAt (c + 1)
        (encodePkgLength w (w + (numElements :: encodeObjects elements).length)) ∧
      host.table[c + 1 + w]? = some numElements ∧
      host.ReadsAt (c + 1 + w + 1) (encodeObjects elements) := by
  rw [DataObject.encode] at hat
  obtain ⟨hb, hat'⟩ := readsAt_cons.mp hat
  obtain ⟨hlength, hcontent⟩ := readsAt_pkg hfit hat'
  exact ⟨hb, hlength, readsAt_cons.mp hcontent⟩

theorem package_end (hfit : PkgOk w (numElements :: encodeObjects elements)) :
    c + (DataObject.package w numElements elements).encode.length =
      c + 1 + w + 1 + (encodeObjects elements).length := by
  simp only [DataObject.encode, List.length_cons, encodePkg_length hfit]
  omega

theorem varPackage_parts (hfit : PkgOk w (count.encode ++ encodeObjects elements))
    (hat : host.ReadsAt c (DataObject.varPackage w count elements).encode) :
    host.table[c]? = some 0x13 ∧
      host.ReadsAt (c + 1)
        (encodePkgLength w (w + (count.encode ++ encodeObjects elements).length)) ∧
      host.ReadsAt (c + 1 + w) count.encode ∧
      host.ReadsAt (c + 1 + w + count.encode.length) (encodeObjects elements) := by
  rw [DataObject.encode] at hat
  obtain ⟨hb, hat'⟩ := readsAt_cons.mp hat
  obtain ⟨hlength, hcontent⟩ := readsAt_pkg hfit hat'
  exact ⟨hb, hlength, readsAt_append.mp hcontent⟩

theorem varPackage_end (hfit : PkgOk w (count.encode ++ encodeObjects elements)) :
    c + (DataObject.varPackage w count elements).encode.length =
      c + 1 + w + count.encode.length + (encodeObjects elements).length := by
  simp only [DataObject.encode, List.length_cons, encodePkg_length hfit, List.length_append]
  omega

end

/-! ## The parser -/

/-- `parse_data_object` decodes the complete objects, if three more bytes can be read behind them:
so many does the name take that is tried on the last byte. -/
def Decodes (E : AmlStop → AmlState → Prop) (host : AmlHost) (t : Tree) (fuel ns : Nat) : Prop :=
  ∀ ⦃o : DataObject⦄ ⦃c s⦄, o.WF → o.Complete → o.IsData → host.ReadsAt c o.encode →
    c + o.encode.length + 3 ≤ host.table.length → Fueled E o.encode.length fuel → s.tree = t →
    s.code ns = c → Wp (parseDataObject host fuel ns) (Decoded s ns c o) E s

theorem Decoded.trans (h : Advanced s ns p s') (h' : Decoded s' ns c o d s'') :
    Decoded s ns c o d s'' := ⟨h.tree ▸ h'.1, h.trans h'.2⟩

/-- Of the accepted names only the null name is empty. -/
theorem accepted_nil {n : NameString} (hn : n.Accepted) (hnil : n.inner = []) :
    n.encode = IntConst.encode .zero := by
  obtain ⟨lead, path⟩ := n
  cases lead with
  | root => cases hnil
  | parents m =>
    cases m with
    | succ m => exact hn.elim
    | zero =>
      cases path with
      | null => rfl
      | seg seg => cases hnil
      | dual s₁ s₂ => cases hnil
      | multi segs h =>
        cases segs with
        | nil => exact hn.elim
        | cons seg segs => cases hnil

theorem accepted_head {n : NameString} (hn : n.Accepted) : n.inner.head? ≠ some parentChar := by
  obtain ⟨lead, path⟩ := n
  cases lead with
  | root => exact fun h => absurd (Option.some.inj h) (by decide)
  | parents m =>
    cases m with
    | succ m => exact hn.elim
    | zero =>
      change (segBytes path.segs).head? ≠ _
      cases path.segs with
      | nil => exact fun h => by cases h
      | cons seg segs =>
        exact fun h => (validChar_not_lead seg.validChar_c0).2.1 (Option.some.inj h)

/-- A name in a package: it is resolved, but a null name is put back and read as `Zero`. -/
theorem packageElement_decodes_name {n : NameString} (ht : t.WF) (hns : ns < t.next)
    (hup : Relation.ReflTransGen t.Up ns root) (hn : n.Accepted) (hat : host.ReadsAt c n.encode)
    (hfuel : Fueled E n.encode.length fuel) (hs : s.tree = t) (hc : s.code ns = c) :
    Wp (packageElement host (parseDataObject host fuel) fuel ns)
      (Decoded s ns c (.name n)) E s := by
  have hlead : n.lead.encode.length ≤ n.encode.length := by
    rw [NameString.encode, List.length_append]
    exact Nat.le_add_right _ _
  simp only [packageElement, wp_bind, wp_code]
  refine (parseNamestring_reads (hfuel.mono hlead) hat hc).mono ?_ fun _ _ => id
  rintro ⟨_, behind⟩ s' ⟨rfl, h'⟩
  rw [validName_inner rfl]
  by_cases hnil : n.inner = []
  · rw [if_pos (by simp [AmlName.count, hnil]), wp_bind, wp_setCode, hc]
    rw [accepted_nil hn hnil] at hat
    have hback : Advanced s ns c (s'.setCode ns c) := h'.trans .setCode
    refine (parseDataObject_const (hfuel.mono (Nat.zero_le _)) hat hback.code).mono ?_ fun _ _ => id
    rintro _ s'' ⟨rfl, h''⟩
    refine ⟨?_, ?_⟩
    · rw [DataObject.Represents, if_pos hnil]
      rfl
    · rw [DataObject.encode, accepted_nil hn hnil]
      exact hback.trans h''
  · have hcount : n.inner.length ≠ 0 := fun h => hnil (List.length_eq_zero_iff.mp h)
    obtain ⟨r, hr⟩ := resolveName_ok (host.uninit s'.clock) ⟨n.inner, behind⟩ ht hns hup
      (accepted_head hn)
    rw [if_neg (by simpa [AmlName.count] using hcount), wp_bind, wp_tick, wp_bind,
      wp_ask_of_ok (by rw [← hs, ← h'.tree] at hr; exact hr), wp_pure]
    refine ⟨?_, h'.tick⟩
    rw [DataObject.Represents, if_neg hnil]
    exact ⟨_, _, r, hs ▸ hr, rfl⟩

section
variable (ht : t.WF) (hns : ns < t.next) (hup : Relation.ReflTransGen t.Up ns root)
  (hdata : Decodes E host t fuel ns)
include ht hns hup hdata

/-- An element of a package: a name that is tried on a data object is turned down. -/
theorem packageElement_decodes {o : DataObject} (hwf : o.WF) (ho : o.Complete)
    (hat : host.ReadsAt c o.encode) (hread : c + o.encode.length + 3 ≤ host.table.length)
    (hfuel : Fueled E o.encode.length fuel) (hs : s.tree = t) (hc : s.code ns = c) :
    Wp (packageElement host (parseDataObject host fuel) fuel ns) (Decoded s ns c o) E s := by
  by_cases hname : o.IsData
  · obtain ⟨b, bs, hencode, hlead⟩ := dataObject_lead hname
    refine packageElement_data (hfuel.mono (Nat.zero_le _)) (hencode ▸ hat) hlead (hencode ▸ hread) hc
      fun s' h' => ?_
    refine (hdata hwf ho hname hat hread hfuel (h'.tree.trans hs) h'.code).mono ?_ fun _ _ => id
    exact fun _ _ h'' => h''.trans h'
  · cases o with
    | name n =>
      rw [DataObject.encode] at hat hfuel
      exact packageElement_decodes_name ht hns hup ho hat hfuel hs hc
    | _ => exact absurd trivial hname

theorem populatePackage_decodes {os : List DataObject} (hwf : ObjectsWF os)
    (ho : ObjectsComplete os) (hat : host.ReadsAt c (encodeObjects os))
    (hread : c + (encodeObjects os).length + 3 ≤ host.table.length)
    (hfuel : Fueled E (encodeObjects os).length fuel) (hs : s.tree = t) (hc : s.code ns = c) :
    Wp (populatePackage host (parseDataObject host fuel) fuel ns os.length)
      (fun ds s' => ObjectsRepresent t ns os ds ∧ Advanced s ns (c + (encodeObjects os).length) s')
      E s := by
  induction os generalizing c s with
  | nil => exact ⟨rfl, .refl hc⟩
  | cons o os ih =>
    simp only [encodeObjects, List.length_append] at hat hread hfuel ⊢
    obtain ⟨hat₁, hat₂⟩ := readsAt_append.mp hat
    simp only [List.length_cons, populatePackage, wp_bind]
    refine (packageElement_decodes ht hns hup hdata hwf.1 ho.1 hat₁ (by omega)
      (hfuel.mono (Nat.le_add_right _ _)) hs hc).mono ?_ fun _ _ => id
    rintro d s₁ ⟨hd, h₁⟩
    rw [wp_bind]
    refine (ih hwf.2 ho.2 hat₂ (by omega) (hfuel.mono (Nat.le_add_left _ _)) (h₁.tree.trans hs)
      h₁.code).mono ?_ fun _ _ => id
    rintro ds s₂ ⟨hds, h₂⟩
    rw [Nat.add_assoc] at h₂
    exact ⟨⟨d, ds, rfl, hs ▸ hd, hds⟩, h₁.trans h₂⟩

/-- The elements of a package whose number is what is declared. -/
theorem packageData_decodes {os : List DataObject} (hwf : ObjectsWF os) (ho : ObjectsComplete os)
    (hat : host.ReadsAt c (encodeObjects os))
    (hread : c + (encodeObjects os).length + 3 ≤ host.table.length)
    (hfuel : Fueled E (encodeObjects os).length fuel) (hs : s.tree = t) (hc : s.code ns = c)
    (hn : os.length = n) (hlt : n < 256) :
    Wp (packageData host (parseDataObject host fuel) fuel ns n)
      (fun d s' => (∃ ds, d = .package ds ∧ ObjectsRepresent t ns os ds) ∧
        Advanced s ns (c + (encodeObjects os).length) s') E s := by
  subst hn
  have hmod : os.length % 2 ^ 8 = os.length := Nat.mod_eq_of_lt hlt
  simp only [packageData, wp_bind, hmod]
  refine (populatePackage_decodes ht hns hup hdata hwf ho hat hread hfuel hs hc).mono ?_
    fun _ _ => id
  exact fun ds _ h => ⟨⟨ds, rfl, h.1⟩, h.2⟩

theorem parseDataObject_package (hwf : (DataObject.package w numElements elements).WF)
    (ho : (DataObject.package w numElements elements).Complete)
    (hat : host.ReadsAt c (DataObject.package w numElements elements).encode)
    (hread : c + (DataObject.package w numElements elements).encode.length + 3 ≤
      host.table.length)
    (hfuel : Fueled E (DataObject.package w numElements elements).encode.length (fuel + 1))
    (hs : s.tree = t) (hc : s.code ns = c) :
    Wp (parseDataObject host (fuel + 1) ns)
      (Decoded s ns c (.package w numElements elements)) E s := by
  rw [DataObject.WF] at hwf
  obtain ⟨hfit, -, hwf⟩ := hwf
  obtain ⟨hb, hlength, hnum, helements⟩ := package_parts hfit hat
  have hlen : c + _ = _ := package_end hfit
  have hfuel' : Fueled E (encodeObjects elements).length fuel :=
    (hfuel.mono (m := (encodeObjects elements).length + 1) (by omega)).pred
  rw [hlen] at hread
  rw [parseDataObject]
  refine (takes_nextByte hb hc).bind fun s₁ h₁ => ?_
  change Wp (parseLength host ns >>= _) _ _ _
  refine (takes_parseLength hfit hlength h₁.code).bind fun s₂ h₂ => ?_
  refine (takes_nextByte hnum h₂.code).bind fun s₃ h₃ => ?_
  have h := h₁.trans (h₂.trans h₃)
  refine (packageData_decodes ht hns hup hdata hwf ho.2 helements hread hfuel'
    (h.tree.trans hs) h.code ho.1 numElements.toNat_lt).mono ?_ fun _ _ => id
  rintro d s₄ ⟨hd, h₄⟩
  exact ⟨hs ▸ hd, hlen ▸ h.trans h₄⟩

theorem parseDataObject_varPackage (hwf : (DataObject.varPackage w count elements).WF)
    (ho : (DataObject.varPackage w count elements).Complete)
    (hat : host.ReadsAt c (DataObject.varPackage w count elements).encode)
    (hread : c + (DataObject.varPackage w count elements).encode.length + 3 ≤ host.table.length)
    (hfuel : Fueled E (DataObject.varPackage w count elements).encode.length (fuel + 1))
    (hs : s.tree = t) (hc : s.code ns = c) :
    Wp (parseDataObject host (fuel + 1) ns)
      (Decoded s ns c (.varPackage w count elements)) E s := by
  rw [DataObject.WF] at hwf
  obtain ⟨hfit, -, hwf⟩ := hwf
  obtain ⟨hshort, hcount, hlt, ho⟩ := ho
  obtain ⟨hb, hlength, hnum, helements⟩ := varPackage_parts hfit hat
  have hlen : c + _ = _ := varPackage_end hfit
  have hfuel' : Fueled E (encodeObjects elements).length fuel :=
    (hfuel.mono (m := (encodeObjects elements).length + 1) (by omega)).pred
  rw [hlen] at hread
  rw [parseDataObject]
  refine (takes_nextByte hb hc).bind fun s₁ h₁ => ?_
  change Wp (parseLength host ns >>= _) _ _ _
  refine (takes_parseLength hfit hlength h₁.code).bind fun s₂ h₂ => ?_
  refine (takes_termArgToInt_const hshort hfuel' hnum h₂.code).bind fun s₃ h₃ => ?_
  have h := h₁.trans (h₂.trans h₃)
  refine (packageData_decodes ht hns hup hdata hwf ho helements hread hfuel'
    (h.tree.trans hs) h.code hcount hlt).mono ?_ fun _ _ => id
  rintro d s₄ ⟨hd, h₄⟩
  exact ⟨hs ▸ hd, hlen ▸ h.trans h₄⟩

end

theorem parseDataObject_buffer (hwf : (DataObject.buffer w size bytes).WF)
    (ho : (DataObject.buffer w size bytes).Complete)
    (hat : host.ReadsAt c (DataObject.buffer w size bytes).encode)
    (hfuel : Fueled E (DataObject.buffer w size bytes).encode.length (fuel + 1))
    (hc : s.code ns = c) :
    Wp (parseDataObject host (fuel + 1) ns) (Decoded s ns c (.buffer w size bytes)) E s := by
  rw [DataObject.WF] at hwf
  obtain ⟨hb, hlength, hsize, hbytes⟩ := buffer_parts hwf.1 hat
  have hfuel' : Fueled E 0 fuel := (hfuel.mono (m := 1) (by rw [DataObject.encode]; simp)).pred
  rw [parseDataObject]
  refine (takes_nextByte hb hc).bind fun s₁ h₁ => ?_
  change Wp (parseLength host ns >>= _) _ _ _
  refine (takes_parseLength hwf.1 hlength h₁.code).bind fun s₂ h₂ => ?_
  refine (takes_termArgToInt_const ho.1 hfuel' hsize h₂.code).bind fun s₃ h₃ => ?_
  simp only [wp_bind, wp_code, h₃.code, ← ho.2]
  refine wp_readBytes_of_readsAt hbytes rfl ?_
  simp only [wp_bind, wp_setCode, wp_pure, ← buffer_end hwf.1]
  exact ⟨rfl, h₁.trans (h₂.trans (h₃.trans .setCode))⟩

section
variable (ht : t.WF) (hns : ns < t.next) (hup : Relation.ReflTransGen t.Up ns root)
include ht hns hup

/-- The induction is on the fuel, of which every nested object gets less. -/
theorem parseDataObject_decodes : Decodes E host t fuel ns := by
  induction fuel with
  | zero => exact fun _ _ _ _ _ _ _ _ hfuel _ _ => (hfuel.mono (Nat.zero_le _)).zero _ rfl
  | succ fuel ih =>
    intro o c s hwf ho hd hat hread hfuel hs hc
    cases o with
    | name n => exact hd.elim
    | int v =>
      rw [DataObject.encode] at hat
      refine (parseDataObject_const (hfuel.mono (Nat.zero_le _)) hat hc).mono ?_ fun _ _ => id
      rintro _ s' ⟨rfl, h'⟩
      exact ⟨rfl, by rwa [DataObject.encode]⟩
    | string chars =>
      rw [DataObject.encode] at hat hfuel
      refine (parseDataObject_string hfuel hat hwf hc).mono ?_ fun _ _ => id
      rintro _ s' ⟨rfl, h'⟩
      exact ⟨rfl, by rwa [DataObject.encode]⟩
    | buffer w size bytes => exact parseDataObject_buffer hwf ho hat hfuel hc
    | package w numElements elements =>
      exact parseDataObject_package ht hns hup ih hwf ho hat hread hfuel hs hc
    | varPackage w count elements =>
      exact parseDataObject_varPackage ht hns hup ih hwf ho hat hread hfuel hs hc

end

/-- A complete data object is decoded to what it stands for, and the cursor is left behind it. -/
theorem parseDataObject_represents (host : AmlHost) (o : DataObject) (s : AmlState) (ns c : Nat)
    (hwf : o.WF) (ho : o.Complete) (hd : o.IsData) (ht : s.tree.WF) (hns : ns < s.tree.next)
    (hup : Relation.ReflTransGen s.tree.Up ns root) (hat : host.ReadsAt c o.encode)
    (hread : c + o.encode.length + 3 ≤ host.table.length) (hc : s.code ns = c) :
    ∃ bound, ∀ fuel, bound ≤ fuel →
      Wp (parseDataObject host fuel ns)
        (fun d s' => o.Represents s.tree ns d ∧ s'.code ns = c + o.encode.length)
        (fun _ _ => False) s := by
  refine ⟨o.encode.length + 1, fun fuel hfuel => ?_⟩
  refine (parseDataObject_decodes ht hns hup hwf ho hd hat hread (.of_lt hfuel) rfl hc).mono ?_
    fun _ _ => id
  exact fun _ _ h => ⟨h.1, h.2.code⟩

/-- `Package (3) { ABCD, Package (1) { 7 }, "A" }` in `_PR_`. -/
theorem parseDataObject_represents_nested :
    let abcd : NameSeg := ⟨keyOfChars 'A' 'B' 'C' 'D', by decide⟩
    let o : DataObject := .package 1 3 [.name ⟨.parents 0, .seg abcd⟩,
      .package 1 1 [.int (.byte 7)], .string [0x41]]
    let host : AmlHost := ⟨o.encode ++ [0, 0, 0], fun _ _ => 0, fun _ _ _ => none, fun _ _ _ => 0⟩
    ∃ bound, ∀ fuel, bound ≤ fuel →
      Wp (parseDataObject host fuel 2)
        (fun d s' => o.Represents initAmlNamespaces 2 d ∧ s'.code 2 = 15)
        (fun _ _ => False) initAmlState := by
  intro abcd o host
  have hwf : o.WF := by
    simp [o, abcd, DataObject.WF, ObjectsWF, DataObject.encode, encodeObjects, PkgOk, PkgFits,
      encodePkg, encodePkgLength, IntConst.encode, leBytes, NameString.encode, NameLead.encode,
      NamePath.segPrefix, NamePath.segs, segBytes, HashKey.bytes]
  have ho : o.Complete := by
    simp [o, DataObject.Complete, ObjectsComplete, NameString.Accepted]
  exact parseDataObject_represents host o initAmlState 2 0 hwf ho trivial initAmlNamespaces_wf
    (by decide) (.single rfl) ⟨[0, 0, 0], rfl⟩ (Nat.le_refl _) rfl

end Aml

end Lethe
