import Lethe.Aml.Parser
import Lethe.Aml.Tree

/-!
# What the parser keeps, and how far it comes

One pass over the functions of the parser for all invariants of the tree: `StateInvariant I E` lists
the writes that `I` has to survive and the stops that `E` has to allow, and from it every function
keeps `I`, moves the cursor of its namespace forward from any position `c` it starts behind, and
does not run out of a fuel that is enough for the bytes from `c` on (`Enough`).

The argument is about positions in the table and not about the term list that is being parsed:
every term, and so every term list inside it, starts behind the one that contains it, however long
they claim to be.
-/

namespace Lethe

/-- `I` is kept by the writes of the parser and does not depend on the cursors, and where it holds
the parser may stop with `E`. -/
structure StateInvariant (I : AmlState → Prop) (E : AmlStop → AmlState → Prop) : Prop where
  wf : ∀ {s}, I s → s.tree.WF
  frame : ∀ {s s'}, I s → s'.tree = s.tree → s'.past = s.past → s'.devices = s.devices → I s'
  setChild : ∀ {s ns key data}, I s → I (s.write (s.tree.setChild ns key data))
  record : ∀ {s ns name}, I s → I (s.recordDevice ns name)
  device : ∀ {s d name parent}, I s → d ∈ s.devices → d.tree = s.tree → s.tree.Has d.ns →
    locateObject .namespaces s.tree d.ns d.name = .ok (none, name) →
    Aml.deviceParent s.tree d.ns name = .ok parent →
    I (s.write (s.tree.createNamespace parent (trimName name).key .device))
  pending : ∀ {s name}, I s → I (s.write (s.tree.createNamespace none name .pending))
  adopt : ∀ {s ns scope}, I s → (s.tree.nodes ns).origin = .pending → s.tree.Has scope →
    scope < ns → I (s.write (s.tree.adopt ns scope))
  exit : ∀ {s}, I s → E .exit s
  fault : ∀ {s}, I s → E .fault s
  assertFailed : ∀ {s a}, I s → a ≠ .currentIsRoot → E (.assertFailed a) s
  currentIsRoot : ∀ {s ns levels current}, I s → s.tree.Has ns →
    levelsLoop s.tree s.tree.next ns 0 = some (levels, current) → current ≠ root →
    E (.assertFailed .currentIsRoot) s

namespace Aml

section
variable {Q : α → AmlState → Prop} {E : AmlStop → AmlState → Prop} {s : AmlState}

@[simp] theorem wp_code {Q : Nat → AmlState → Prop} : Wp (code ns) Q E s ↔ Q (s.code ns) s := Iff.rfl

@[simp] theorem wp_setCode {Q : Unit → AmlState → Prop} :
    Wp (setCode ns c) Q E s ↔ Q () (s.setCode ns c) := Iff.rfl

@[simp] theorem wp_emit {Q : Unit → AmlState → Prop} :
    Wp (emit event) Q E s ↔ Q () (s.emit event) := Iff.rfl

@[simp] theorem wp_tick {Q : Nat → AmlState → Prop} : Wp tick Q E s ↔ Q s.clock s.tick := Iff.rfl

@[simp] theorem wp_writeTree {Q : Unit → AmlState → Prop} :
    Wp (writeTree f) Q E s ↔ Q () (s.write (f s.tree)) := Iff.rfl

@[simp] theorem wp_recordDevice {Q : Unit → AmlState → Prop} :
    Wp (recordDevice ns name) Q E s ↔ Q () (s.recordDevice ns name) := Iff.rfl

@[simp] theorem wp_uninit {Q : List UInt8 → AmlState → Prop} : Wp (uninit host n) Q E s ↔
    Q ((List.range n).map (host.uninit s.clock)) s.tick := Iff.rfl

theorem wp_ask {f : Tree → Except AmlStop α} (hQ : ∀ a, f s.tree = .ok a → Q a s)
    (hE : ∀ e, f s.tree = .error e → E e s) : Wp (ask f) Q E s := by
  simp only [Wp, ask]
  cases h : f s.tree with
  | ok a => exact hQ a h
  | error e => exact hE e h

theorem wp_ask_of_ok {f : Tree → Except AmlStop α} (h : f s.tree = .ok a) :
    Wp (ask f) Q E s ↔ Q a s := by
  simp only [Wp, ask, h]

@[simp] theorem wp_ask_ok {f : Tree → α} : Wp (ask fun t => .ok (f t)) Q E s ↔ Q (f s.tree) s := Iff.rfl

theorem wp_readByte {Q : UInt8 → AmlState → Prop}
    (hQ : ∀ b, host.table[p]? = some b → Q b s) (hE : E .fault s) :
    Wp (readByte host p) Q E s := by
  simp only [readByte]
  split
  · exact hQ _ ‹_›
  · exact hE

theorem wp_readBytes {Q : List UInt8 → AmlState → Prop}
    (hQ : n = 0 ∨ p + n ≤ host.table.length → Q ((host.table.drop p).take n) s) (hE : E .fault s) :
    Wp (readBytes host p n) Q E s := by
  simp only [readBytes]
  split
  · exact hQ ‹_›
  · exact hE

theorem wp_assert {Q : Unit → AmlState → Prop} (hQ : b = true → Q () s)
    (hE : E (.assertFailed assertion) s) : Wp (assert assertion b) Q E s := by
  simp only [assert]
  split
  · exact hQ ‹_›
  · exact hE

theorem wp_orExit {o : Option α} (hQ : ∀ a, o = some a → Q a s) (hE : E .exit s) :
    Wp (orExit o) Q E s := by
  cases o with
  | none => exact hE
  | some a => exact hQ a rfl

end

/-- The state has `I`, and `ns` is a namespace whose cursor is at `c` or behind it. -/
def At (I : AmlState → Prop) (c ns : Nat) (s : AmlState) : Prop :=
  I s ∧ s.tree.Has ns ∧ c ≤ s.code ns

/-- The fuel is enough for loops and recursions that take a byte of the table from `c` on in each
step. -/
def Enough (host : AmlHost) (c fuel : Nat) : Prop := 0 < fuel ∧ host.table.length < c + fuel

variable {I : AmlState → Prop} {E : AmlStop → AmlState → Prop} {host : AmlHost} {s s' : AmlState}
  {ns c fuel : Nat}

theorem At.mono (h : At I c ns s) (hc : c' ≤ c) : At I c' ns s := ⟨h.1, h.2.1, Nat.le_trans hc h.2.2⟩

theorem Enough.step (h : Enough host c (fuel + 1)) (hc : c < host.table.length) (hc' : c < c') :
    Enough host c' fuel := by
  obtain ⟨_, h⟩ := h
  exact ⟨by omega, by omega⟩

theorem Enough.mono (h : Enough host c fuel) (hc : c ≤ c') : Enough host c' fuel :=
  ⟨h.1, Nat.lt_of_lt_of_le h.2 (Nat.add_le_add_right hc fuel)⟩

theorem keeps_code {f : Nat → Aml α} (hf : ∀ p, c ≤ p → Keeps (At I c ns) E (f p)) :
    Keeps (At I c ns) E (code ns >>= f) := by
  intro s h
  rw [wp_bind, wp_code]
  exact hf _ h.2.2 h

/-- A later start is an earlier one. -/
theorem At.keeps {x : Aml α} (h : At I c' ns s) (hx : Keeps (At I c' ns) E x) (hc : c ≤ c') :
    Wp x (fun _ => At I c ns) E s :=
  (hx h).mono (fun _ _ h => h.mono hc) fun _ _ => id

section
variable (hI : StateInvariant I E)
include hI

/-! ## Primitive steps -/

theorem At.frame (h : At I c ns s) (ht : s'.tree = s.tree) (hp : s'.past = s.past)
    (hd : s'.devices = s.devices) (hc : c' ≤ s'.code ns) : At I c' ns s' :=
  ⟨hI.frame h.1 ht hp hd, ht ▸ h.2.1, hc⟩

theorem At.setCode (h : At I c ns s) (hc : c' ≤ p) : At I c' ns (s.setCode ns p) :=
  h.frame hI rfl rfl rfl (by simpa [AmlState.setCode] using hc)

theorem keeps_setCode (hc : c ≤ p) : Keeps (At I c ns) E (setCode ns p) :=
  fun _ h => h.setCode hI hc

theorem At.setChild (h : At I c ns s) : At I c ns (s.write (s.tree.setChild n key data)) :=
  ⟨hI.setChild h.1, Tree.setChild_has.mpr h.2.1, h.2.2⟩

theorem At.emit (h : At I c ns s) : At I c ns (s.emit event) := h.frame hI rfl rfl rfl h.2.2

theorem keeps_addChild : Keeps (At I c ns) E (addChildToNamespace n key data) :=
  fun _ h => h.setChild hI

theorem keeps_unimplemented : Keeps (At I c ns) E (unimplemented b) := by
  intro s h
  exact wp_assert (fun _ => h) (hI.assertFailed h.1 (by decide))

theorem keeps_readBytes : Keeps (At I c ns) E (readBytes host p n) :=
  fun _ h => wp_readBytes (fun _ => h) (hI.fault h.1)

theorem keeps_tick : Keeps (At I c ns) E tick :=
  fun _ h => h.frame hI rfl rfl rfl h.2.2

theorem keeps_uninit : Keeps (At I c ns) E (uninit host n) :=
  fun _ h => h.frame hI rfl rfl rfl h.2.2

theorem keeps_orExit {o : Option α} : Keeps (At I c ns) E (orExit o) :=
  fun _ h => wp_orExit (fun _ _ => h) (hI.exit h.1)

theorem keeps_debugExit : Keeps (At I c ns) E (debugExit : Aml α) := fun _ h => hI.exit h.1

/-- A search changes nothing, and what goes wrong in it is an exit or a fault. -/
theorem locateObject_spec {look : Lookup β} (h : At I c ns s)
    (hQ : ∀ r, locateObject look s.tree ns name = .ok r → Q r s) :
    Wp (ask fun t => locateObject look t ns name) Q E s := by
  refine wp_ask hQ fun e he => ?_
  obtain rfl | rfl := locateObject_error (hI.wf h.1) h.2.1.1 he
  · exact hI.exit h.1
  · exact hI.fault h.1

theorem keeps_locateObject {look : Lookup β} :
    Keeps (At I c ns) E (ask fun t => locateObject look t ns name) :=
  fun _ h => locateObject_spec hI h fun _ _ => h

/-- A byte is taken, so there was one and the cursor moves. -/
theorem nextByte_spec (h : At I c ns s) :
    Wp (nextByte host ns) (fun _ s' => c < host.table.length ∧ At I (c + 1) ns s') E s := by
  simp only [nextByte, wp_bind, wp_code]
  refine wp_readByte (fun b hb => ?_) (hI.fault h.1)
  have hlt : s.code ns < host.table.length := (List.getElem?_eq_some_iff.mp hb).1
  have hc := h.2.2
  exact ⟨by omega, h.setCode hI (by omega)⟩

theorem keeps_nextByte : Keeps (At I c ns) E (nextByte host ns) :=
  fun _ h => (nextByte_spec hI h).mono (fun _ _ h => h.2.mono (Nat.le_succ c)) fun _ _ => id

theorem keeps_nextNat : Keeps (At I c ns) E (nextNat host ns n) := by
  apply keeps_code
  intro p hp
  refine (keeps_readBytes hI).bind fun _ => ?_
  exact (keeps_setCode hI (Nat.le_add_right_of_le hp)).bind fun _ => .pure

theorem keeps_parseLength : Keeps (At I c ns) E (parseLength host ns) := by
  refine (keeps_nextByte hI).bind fun leadByte => ?_
  dsimp only
  split
  · exact .pure
  · exact (keeps_nextByte hI).bind fun _ => .pure
  · exact (keeps_nextByte hI).bind fun _ => (keeps_nextByte hI).bind fun _ => .pure
  · exact (keeps_nextByte hI).bind fun _ => (keeps_nextByte hI).bind fun _ =>
      (keeps_nextByte hI).bind fun _ => .pure

/-! ## Names -/

theorem prefixLoop_spec (h : I s) (hf : Enough host copy fuel) :
    Wp (prefixLoop host fuel copy charPrefix)
      (fun r s' => s' = s ∧ copy ≤ r.1 ∧ (charPrefix = 0 → r.2 ≠ 0 → copy < r.1)) E s := by
  induction fuel generalizing copy charPrefix with
  | zero => exact absurd hf.1 (Nat.lt_irrefl 0)
  | succ fuel ih =>
    simp only [prefixLoop, wp_bind]
    refine wp_readByte (fun b hb => ?_) (hI.fault h)
    have hlt := (List.getElem?_eq_some_iff.mp hb).1
    split
    · refine (ih (hf.step hlt (Nat.lt_succ_self copy))).mono ?_ (fun _ _ => id)
      rintro r s' ⟨rfl, hr, -⟩
      exact ⟨rfl, by omega, fun _ _ => hr⟩
    · exact ⟨rfl, Nat.le_refl copy, fun h0 hne => absurd h0 hne⟩

theorem segCountAt_spec (h : I s) :
    Wp (segCountAt host copy) (fun r s' => s' = s ∧ copy ≤ r.2) E s := by
  simp only [segCountAt, wp_bind]
  refine wp_readByte (fun b _ => ?_) (hI.fault h)
  split
  · exact ⟨rfl, Nat.le_succ copy⟩
  split
  · rw [wp_bind]
    exact wp_readByte (fun b _ => ⟨rfl, Nat.le_add_right copy 2⟩) (hI.fault h)
  split
  · exact ⟨rfl, Nat.le_succ copy⟩
  · exact ⟨rfl, Nat.le_refl copy⟩

/-- A name that is not empty has taken a byte. -/
theorem parseNamestring_spec (h : At I c ns s) (hf : Enough host c fuel) :
    Wp (parseNamestring host fuel ns)
      (fun name s' => At I c ns s' ∧ (name.count ≠ 0 → At I (c + 1) ns s')) E s := by
  simp only [parseNamestring, wp_bind, wp_code]
  refine (prefixLoop_spec hI h.1 (hf.mono h.2.2)).mono ?_ fun _ _ => id
  rintro ⟨copy, charPrefix⟩ _ ⟨rfl, hcopy, hlead⟩
  rw [wp_bind]
  refine (segCountAt_spec hI h.1).mono ?_ fun _ _ => id
  rintro ⟨segCount, copy'⟩ _ ⟨rfl, hcopy'⟩
  rw [wp_bind]
  refine wp_readBytes (fun _ => ?_) (hI.fault h.1)
  simp only [wp_bind, wp_uninit, wp_setCode, wp_pure]
  have hc := h.2.2
  dsimp only at hcopy hcopy' hlead
  refine ⟨h.frame hI rfl rfl rfl ?_, fun hcount => h.frame hI rfl rfl rfl ?_⟩
  · simp only [AmlState.setCode, Function.update_self]
    omega
  · simp only [AmlState.setCode, Function.update_self]
    by_cases hprefix : charPrefix = 0
    · rw [AmlName.count, if_pos hprefix] at hcount
      dsimp only at hcount
      have := List.length_take_le (segCount * keyLen) (host.table.drop copy')
      omega
    · have := hlead rfl hprefix
      omega

theorem keeps_parseNamestring (hf : Enough host c fuel) :
    Keeps (At I c ns) E (parseNamestring host fuel ns) :=
  fun _ h => (parseNamestring_spec hI h hf).mono (fun _ _ h' => h'.1) fun _ _ => id

/-! ## Arguments -/

theorem keeps_readField : Keeps (At I c ns) E (readField host field) := by
  refine (keeps_orExit hI).bind fun readLen => ?_
  split
  · refine (keeps_tick hI).bind fun t => ?_
    split
    · exact .pure
    · exact fun _ h => hI.fault h.1
  · refine .ite (fun _ => ?_) fun _ => keeps_debugExit hI
    exact (keeps_tick hI).bind fun _ => .pure
  · exact keeps_debugExit hI

theorem keeps_objectToInt : Keeps (At I c ns) E (objectToInt host obj) := by
  simp only [objectToInt]
  split
  · split
    all_goals first | exact .pure | exact keeps_debugExit hI
  · exact keeps_readField hI
  · exact .pure

theorem keeps_nameToInt : Keeps (At I c ns) E (nameToInt host ns) := by
  apply keeps_code
  intro p hp
  refine (keeps_readBytes hI).bind fun name => ?_
  refine (keeps_locateObject hI).bind fun r => ?_
  refine (keeps_orExit hI).bind fun obj => ?_
  exact (keeps_setCode hI (Nat.le_add_right_of_le hp)).bind fun _ => keeps_objectToInt hI

theorem keeps_termArgToInt (hf : Enough host c fuel) :
    Keeps (At I c ns) E (termArgToInt host fuel ns) := by
  induction fuel generalizing c with
  | zero => exact absurd hf.1 (Nat.lt_irrefl 0)
  | succ fuel ih =>
    intro s h
    simp only [termArgToInt, wp_bind, wp_code]
    refine (nextByte_spec hI h).mono ?_ fun _ _ => id
    intro op s' hnext
    obtain ⟨hlt, h'⟩ := hnext
    have hle := Nat.le_succ c
    have hrec := ih (hf.step hlt (Nat.lt_succ_self c))
    split
    · exact h'.mono hle
    · exact h'.mono hle
    · exact h'.mono hle
    · exact h'.keeps (keeps_nextNat hI) hle
    · exact h'.keeps (keeps_nextNat hI) hle
    · exact h'.keeps (keeps_nextNat hI) hle
    · exact h'.keeps (hrec.bind fun _ => .pure) hle
    · exact h'.keeps (hrec.bind fun _ => hrec.bind fun _ => .pure) hle
    · exact h'.keeps (hrec.bind fun _ => hrec.bind fun _ => .pure) hle
    · exact h'.keeps (hrec.bind fun _ => hrec.bind fun _ => .pure) hle
    · exact h'.keeps (hrec.bind fun _ => hrec.bind fun _ => .pure) hle
    · exact ((keeps_setCode hI h.2.2).bind fun _ => keeps_nameToInt hI) (h'.mono hle)

theorem keeps_termArgToBuffer : Keeps (At I c ns) E (termArgToBuffer host ns) := by
  apply keeps_code
  intro p hp
  refine (keeps_readBytes hI).bind fun name => ?_
  refine (keeps_locateObject hI).bind fun r => ?_
  obtain ⟨obj, name'⟩ := r
  dsimp only
  split
  · exact fun _ h => hI.fault h.1
  · exact (keeps_setCode hI (Nat.le_add_right_of_le hp)).bind fun _ => .pure
  · exact keeps_debugExit hI

/-! ## Data objects -/

theorem keeps_resolveName :
    Keeps (At I c ns) E (ask fun t => resolveName t block ns name) := by
  intro s h
  refine wp_ask (fun _ _ => h) fun e he => ?_
  obtain rfl | rfl | ⟨rfl, _, _, hl, hne⟩ := resolveName_error (hI.wf h.1) h.2.1.1 he
  · exact hI.assertFailed h.1 (by decide)
  · exact hI.assertFailed h.1 (by decide)
  · exact hI.currentIsRoot h.1 h.2.1 hl hne

theorem keeps_packageElement {parse : Nat → Aml AmlData} (hf : Enough host c fuel)
    (hparse : Keeps (At I c ns) E (parse ns)) :
    Keeps (At I c ns) E (packageElement host parse fuel ns) := by
  apply keeps_code
  intro p hp
  refine (keeps_parseNamestring hI hf).bind fun name => ?_
  refine .ite (fun _ => ?_) fun _ => ?_
  · exact (keeps_setCode hI hp).bind fun _ => hparse
  · exact (keeps_tick hI).bind fun _ => (keeps_resolveName hI).bind fun _ => .pure

theorem keeps_populatePackage {parse : Nat → Aml AmlData} (hf : Enough host c fuel)
    (hparse : Keeps (At I c ns) E (parse ns)) (numElements : Nat) :
    Keeps (At I c ns) E (populatePackage host parse fuel ns numElements) := by
  induction numElements with
  | zero => exact .pure
  | succ numElements ih =>
    refine (keeps_packageElement hI hf hparse).bind fun _ => ?_
    exact ih.bind fun _ => .pure

theorem stringLoop_spec (h : I s) (hf : Enough host (p + i) fuel) :
    Wp (stringLoop host p fuel i) (fun _ s' => s' = s) E s := by
  induction fuel generalizing i with
  | zero => exact absurd hf.1 (Nat.lt_irrefl 0)
  | succ fuel ih =>
    simp only [stringLoop, wp_bind]
    refine wp_readByte (fun b hb => ?_) (hI.fault h)
    have hlt := (List.getElem?_eq_some_iff.mp hb).1
    split
    · exact ih (hf.step hlt (by omega))
    · rfl

theorem keeps_string (hf : Enough host c fuel) : Keeps (At I c ns) E (do
    let p ← code ns
    let i ← stringLoop host p fuel 0
    let string ← readBytes host p (i + 1)
    setCode ns (p + (i + 1))
    pure (AmlData.string string)) := by
  apply keeps_code
  intro p hp s h
  rw [wp_bind]
  refine (stringLoop_spec hI h.1 (hf.mono hp)).mono ?_ fun _ _ => id
  rintro i s rfl
  refine ((keeps_readBytes hI).bind fun string => ?_) h
  exact (keeps_setCode hI (Nat.le_add_right_of_le hp)).bind fun _ => .pure

/-- A data object takes a byte. -/
theorem parseDataObject_spec (h : At I c ns s) (hf : Enough host c fuel) :
    Wp (parseDataObject host fuel ns) (fun _ => At I (c + 1) ns) E s := by
  induction fuel generalizing c s with
  | zero => exact absurd hf.1 (Nat.lt_irrefl 0)
  | succ fuel ih =>
    simp only [parseDataObject, wp_bind]
    refine (nextByte_spec hI h).mono ?_ fun _ _ => id
    intro op s' hnext
    obtain ⟨hlt, h'⟩ := hnext
    have hf' : Enough host (c + 1) fuel := hf.step hlt (Nat.lt_succ_self c)
    have hnat : ∀ n, Keeps (At I (c + 1) ns) E (nextNat host ns n) := fun n => keeps_nextNat hI
    have hrec : Keeps (At I (c + 1) ns) E (parseDataObject host fuel ns) :=
      fun _ h => (ih h hf').mono (fun _ _ h => h.mono (Nat.le_succ _)) fun _ _ => id
    have hpackage : ∀ n, Keeps (At I (c + 1) ns) E
        (packageData host (parseDataObject host fuel) fuel ns n) :=
      fun n => (keeps_populatePackage hI hf' hrec _).bind fun _ => .pure
    split
    · exact h'
    · exact h'
    · exact h'
    · exact wp_map.mpr (hnat 1 h')
    · exact wp_map.mpr (hnat 2 h')
    · exact wp_map.mpr (hnat 4 h')
    · exact wp_map.mpr (hnat 8 h')
    · exact keeps_string hI hf' h'
    · refine Keeps.bind (keeps_parseLength hI) (fun _ => ?_) h'
      exact (keeps_termArgToInt hI hf').bind fun _ => hpackage _
    · refine Keeps.bind (keeps_parseLength hI) (fun _ => ?_) h'
      exact (keeps_nextByte hI).bind fun _ => hpackage _
    · refine Keeps.bind (keeps_parseLength hI) (fun _ => ?_) h'
      refine (keeps_termArgToInt hI hf').bind fun size => ?_
      apply keeps_code
      intro p hp
      refine (keeps_readBytes hI).bind fun _ => ?_
      exact (keeps_setCode hI (Nat.le_add_right_of_le hp)).bind fun _ => .pure
    · exact Keeps.bind (keeps_unimplemented hI) (fun _ => keeps_debugExit hI) h'

theorem keeps_parseDataObject (hf : Enough host c fuel) :
    Keeps (At I c ns) E (parseDataObject host fuel ns) :=
  fun _ h => (parseDataObject_spec hI h hf).mono (fun _ _ h' => h'.mono (Nat.le_succ c)) fun _ _ => id

/-- So does an element of a package. -/
theorem packageElement_spec (h : At I c ns s) (hf : Enough host c fuel) :
    Wp (packageElement host (parseDataObject host fuel) fuel ns) (fun _ => At I (c + 1) ns) E s := by
  simp only [packageElement, wp_bind, wp_code]
  refine (parseNamestring_spec hI h hf).mono ?_ fun _ _ => id
  rintro name s' ⟨h', hmoved⟩
  split
  · rw [wp_bind, wp_setCode]
    exact parseDataObject_spec hI (h'.setCode hI h.2.2) hf
  · next hname =>
    have hcount : name.count ≠ 0 := fun h0 => hname (by simp [h0])
    exact ((keeps_tick hI).bind fun _ => (keeps_resolveName hI).bind fun _ => .pure) (hmoved hcount)

/-! ## Declarations -/

theorem keeps_defName (hf : Enough host c fuel) : Keeps (At I c ns) E (defName host fuel ns) := by
  refine (keeps_parseNamestring hI hf).bind fun name => ?_
  refine (keeps_unimplemented hI).bind fun _ => ?_
  exact (keeps_parseDataObject hI hf).bind fun _ => keeps_addChild hI

theorem keeps_defOpRegion (hf : Enough host c fuel) :
    Keeps (At I c ns) E (defOpRegion host fuel ns) := by
  refine (keeps_parseNamestring hI hf).bind fun name => ?_
  refine (keeps_unimplemented hI).bind fun _ => ?_
  refine (keeps_nextByte hI).bind fun regionSpace => ?_
  refine (keeps_termArgToInt hI hf).bind fun regionOffset => ?_
  exact (keeps_termArgToInt hI hf).bind fun _ => keeps_addChild hI

/-- An element of a field list that is not its end has taken a byte. -/
theorem parseNextFieldElem_spec (h : At I c ns s) :
    Wp (parseNextFieldElem host ns offset parent)
      (fun r s' => At I c ns s' ∧ (r.isSome → c < host.table.length ∧ At I (c + 1) ns s')) E s := by
  have hc := h.2.2
  simp only [parseNextFieldElem, wp_bind, wp_code]
  refine (nextByte_spec hI h).mono ?_ fun _ _ => id
  intro op s' hnext
  obtain ⟨hlt, h'⟩ := hnext
  have hle := Nat.le_succ c
  have hdone : ∀ {n : Nat} {s''}, At I (c + 1) ns s'' → At I c ns s'' ∧
      ((some n).isSome → c < host.table.length ∧ At I (c + 1) ns s'') :=
    fun h'' => ⟨h''.mono hle, fun _ => ⟨hlt, h''⟩⟩
  split
  · exact wp_map.mpr ((keeps_parseLength hI h').mono (fun _ _ h'' => hdone h'') fun _ _ => id)
  · exact hdone (h'.setCode hI (by omega))
  · exact hI.exit h'.1
  · exact hdone (h'.setCode hI (by omega))
  · rw [wp_bind]
    refine wp_readBytes (fun _ => ?_) (hI.fault h'.1)
    simp only [wp_bind, wp_setCode]
    split
    · simp only [wp_bind, wp_setCode]
      exact ⟨(h'.setCode hI (Nat.le_refl _)).setCode hI hc, by simp⟩
    · have hname : At I (c + 1) ns (s'.setCode ns (s.code ns + keyLen)) :=
        h'.setCode hI (Nat.add_le_add hc (by decide))
      simp only [wp_bind]
      refine (keeps_parseLength hI hname).mono (fun len s'' h'' => ?_) fun _ _ => id
      exact hdone (h''.setChild hI)

theorem keeps_fieldLoop (hf : Enough host c fuel) :
    Keeps (At I c ns) E (fieldLoop host ns field fuel offset) := by
  induction fuel generalizing c offset with
  | zero => exact absurd hf.1 (Nat.lt_irrefl 0)
  | succ fuel ih =>
    intro s h
    simp only [fieldLoop, wp_bind]
    refine (parseNextFieldElem_spec hI h).mono ?_ fun _ _ => id
    intro len s' helem
    obtain ⟨h', hsome⟩ := helem
    cases len with
    | none => exact h'
    | some len =>
      obtain ⟨hlt, h''⟩ := hsome rfl
      exact h''.keeps (ih (hf.step hlt (Nat.lt_succ_self c))) (Nat.le_succ c)

theorem keeps_defField (hf : Enough host c fuel) : Keeps (At I c ns) E (defField host fuel ns) := by
  apply keeps_code
  intro codeCopy hcopy
  refine (keeps_parseLength hI).bind fun fieldLen => ?_
  refine (keeps_parseNamestring hI hf).bind fun name => ?_
  refine (keeps_locateObject hI).bind fun r => ?_
  obtain ⟨obj, name'⟩ := r
  refine (keeps_nextByte hI).bind fun flags => ?_
  dsimp only
  split
  · intro s h
    rw [wp_bind]
    refine wp_assert (fun _ => ?_) (hI.assertFailed h.1 (by decide))
    refine ((keeps_fieldLoop hI hf).bind fun _ => ?_) h
    exact keeps_setCode hI (Nat.le_add_right_of_le hcopy)
  · exact keeps_debugExit hI

theorem keeps_skipPackage : Keeps (At I c ns) E (skipPackage host ns) := by
  apply keeps_code
  intro codeCopy hcopy
  refine (keeps_parseLength hI).bind fun len => ?_
  exact keeps_setCode hI (Nat.le_add_right_of_le hcopy)

theorem keeps_defAlias (hf : Enough host c fuel) : Keeps (At I c ns) E (defAlias host fuel ns) := by
  refine (keeps_parseNamestring hI hf).bind fun source => ?_
  refine (keeps_parseNamestring hI hf).bind fun alias_ => ?_
  refine (keeps_unimplemented hI).bind fun _ => (keeps_unimplemented hI).bind fun _ => ?_
  intro s h
  rw [wp_bind, wp_ask_ok]
  exact ((keeps_orExit hI).bind fun _ => keeps_addChild hI) h

theorem keeps_defMutex (hf : Enough host c fuel) : Keeps (At I c ns) E (defMutex host fuel ns) := by
  refine (keeps_parseNamestring hI hf).bind fun mutexName => ?_
  refine (keeps_unimplemented hI).bind fun _ => ?_
  exact (keeps_nextByte hI).bind fun _ => keeps_addChild hI

theorem keeps_defCreateWordField (hf : Enough host c fuel) :
    Keeps (At I c ns) E (defCreateWordField host fuel ns) := by
  refine (keeps_termArgToBuffer hI).bind fun buffer => ?_
  refine (keeps_termArgToInt hI hf).bind fun byteIndex => ?_
  refine (keeps_parseNamestring hI hf).bind fun name => ?_
  exact (keeps_unimplemented hI).bind fun _ => keeps_addChild hI

/-- The scope of a method is `root()`, the namespace of the term, its parent, or an entry of a
map. -/
theorem methodScope_spec {P : Nat → Prop} (h : At I c ns s) (hroot : P root) (hns : P ns)
    (hparent : ∀ p, (s.tree.nodes ns).parent = some p → P p)
    (hmaps : ∀ {n key m}, (s.tree.nodes n).namespaces key = some m → P m) :
    Wp (methodScope ns name) (fun scope s' => s' = s ∧ P scope) E s := by
  simp only [methodScope]
  split
  · split
    · exact ⟨rfl, hroot⟩
    split
    · rw [wp_bind, wp_ask_ok]
      exact wp_orExit (fun p hsome => ⟨rfl, hparent p hsome⟩) (hI.exit h.1)
    · exact ⟨rfl, hns⟩
  split
  · exact hI.exit h.1
  · rw [wp_bind]
    refine locateObject_spec hI h fun r hr => ?_
    obtain ⟨scope, name'⟩ := r
    refine wp_orExit (fun p hsome => ⟨rfl, ?_⟩) (hI.exit h.1)
    subst hsome
    exact locateObject_found hmaps hroot hr

/-- The part of `def_method` after the new namespace: it is out of reach of the search for the
scope, and so younger than its parent. -/
theorem defMethod_adopt (h : At I c ns s) (method : Nat → AmlMethod) (hp : c ≤ p) :
    Wp (do
      let methodNs ← createNamespace none name q .pending
      let scope ← methodScope ns methodName
      addChildToNamespace scope name (.method (method methodNs))
      emit (.method (method methodNs).code (method methodNs).len)
      writeTree fun t => t.adopt methodNs scope
      setCode ns p) (fun _ => At I c ns) E s := by
  have hnone : ∀ p, (none : Option Nat) = some p → p < s.tree.next := by simp
  have hne : ns ≠ s.tree.next := Nat.ne_of_lt h.2.1.1
  have hnode : ∀ {n}, n ≠ s.tree.next →
      (s.tree.createNamespace none name .pending).nodes n = s.tree.nodes n := fun hn => by
    rw [Tree.createNamespace_old hnone hn, if_neg (by simp)]
  simp only [createNamespace, wp_bind, wp_ask_ok, wp_writeTree, wp_setCode, wp_pure]
  have hcreated : At I c ns
      ((s.write (s.tree.createNamespace none name .pending)).setCode s.tree.next q) :=
    ⟨hI.frame (hI.pending h.1) rfl rfl rfl, h.2.1.createNamespace hnone,
      by simpa only [AmlState.setCode, AmlState.write, Function.update_of_ne hne] using h.2.2⟩
  refine (methodScope_spec hI hcreated (hI.wf h.1).root_has h.2.1 (fun p hp => ?_) ?_).mono ?_
    fun _ _ => id
  · rw [AmlState.setCode, AmlState.write, hnode hne] at hp
    exact ((hI.wf h.1).parent_has hp).2
  · intro n key m hm
    rw [AmlState.setCode, AmlState.write] at hm
    by_cases hn : n = s.tree.next
    · rw [hn, Tree.createNamespace_self hnone] at hm
      cases hm
    · rw [hnode hn] at hm
      exact (hI.wf h.1).child_has hm
  · rintro scope _ ⟨rfl, hscope⟩
    have hset := (hcreated.setChild hI : At I c ns (AmlState.write _
      (Tree.setChild _ scope name (.method (method s.tree.next)))))
    have hchild := (hset.emit hI : At I c ns (AmlState.emit _
      (.method (method s.tree.next).code (method s.tree.next).len)))
    refine At.setCode hI ⟨hI.adopt hchild.1 ?_ ?_ hscope.1, hchild.2.1.adopt, hchild.2.2⟩ hp
    · simp only [AmlState.setCode, AmlState.write, AmlState.emit, Tree.setChild_origin,
        Tree.createNamespace_self hnone]
    · exact Tree.setChild_has.mpr (hscope.createNamespace hnone)

theorem keeps_defMethod (hf : Enough host c fuel) : Keeps (At I c ns) E (defMethod host fuel ns) := by
  apply keeps_code
  intro codeCopy hcopy
  refine (keeps_parseLength hI).bind fun methodLen => ?_
  refine (keeps_parseNamestring hI hf).bind fun methodName => ?_
  refine (keeps_nextByte hI).bind fun methodFlags => ?_
  apply keeps_code
  intro p _
  refine (keeps_uninit hI).bind fun before => ?_
  intro s h
  simp only [wp_bind]
  simpa only [wp_bind] using defMethod_adopt hI h
    (fun methodNs => {
      name := if methodName.count < keyLen then hashKey before else methodName.lastKey
      flags := methodFlags
      len := (methodLen + 2 ^ 64 - (p - codeCopy)) % 2 ^ 64
      code := p
      scope := methodNs }) (Nat.le_add_right_of_le hcopy)

/-! ## Terms with a body -/

theorem deviceParent_error (h : At I c ns s) (he : deviceParent s.tree ns name = .error e) :
    E e s := by
  simp only [deviceParent] at he
  split at he
  · simp only [Except.map] at he
    split at he
    · next hl =>
      cases he
      obtain rfl | rfl := locateObject_error (hI.wf h.1) h.2.1.1 hl
      · exact hI.exit h.1
      · exact hI.fault h.1
    · cases he
  · cases he

end

theorem deviceParent_has {t : Tree} (ht : t.WF) (hns : t.Has ns)
    (h : deviceParent t ns name = .ok (some p)) : t.Has p := by
  simp only [deviceParent] at h
  split at h
  · simp only [Except.map] at h
    split at h
    · cases h
    · next r hl =>
      obtain ⟨parent, name'⟩ := r
      obtain rfl := Except.ok.inj h
      exact locateObject_found ht.child_has ht.root_has hl
  · cases h
    exact hns

end Aml

/-- A namespace stays where it is. -/
theorem StateInvariant.has {I : AmlState → Prop} {E : AmlStop → AmlState → Prop}
    (hI : StateInvariant I E) (n : Nat) :
    StateInvariant (fun s => I s ∧ s.tree.Has n) E where
  wf h := hI.wf h.1
  frame h ht hp hd := ⟨hI.frame h.1 ht hp hd, ht ▸ h.2⟩
  setChild h := ⟨hI.setChild h.1, Tree.setChild_has.mpr h.2⟩
  record h := ⟨hI.record h.1, h.2⟩
  device h hd ht hns hl hp := by
    refine ⟨hI.device h.1 hd ht hns hl hp, h.2.createNamespace fun p e => ?_⟩
    subst e
    exact (Aml.deviceParent_has (hI.wf h.1) hns hp).1
  pending h := ⟨hI.pending h.1, h.2.createNamespace (by simp)⟩
  adopt h ho hs hlt := ⟨hI.adopt h.1 ho hs hlt, h.2.adopt⟩
  exit h := hI.exit h.1
  fault h := hI.fault h.1
  assertFailed h ha := hI.assertFailed h.1 ha
  currentIsRoot h hns hl hne := hI.currentIsRoot h.1 hns hl hne

namespace Aml

variable {I : AmlState → Prop} {E : AmlStop → AmlState → Prop} {host : AmlHost} {s : AmlState}
  {ns c fuel : Nat} {parse : Nat → Nat → Nat → Aml Unit}

/-- What the handlers need of `parse_termlist`, for term lists that start at `c` or behind it. -/
def ParsesFrom (I : AmlState → Prop) (E : AmlStop → AmlState → Prop) (c : Nat)
    (parseTermlist : Nat → Nat → Nat → Aml Unit) : Prop :=
  ∀ ⦃s ns start end_⦄, I s → s.tree.Has ns → c ≤ start →
    Wp (parseTermlist ns start end_) (fun _ s' => I s' ∧ s'.code ns = s.code ns) E s

/-- A term list of the namespace itself puts its cursor back. -/
theorem ParsesFrom.keeps (hT : ParsesFrom (fun s => I s ∧ s.tree.Has ns) E c parse)
    (hstart : c ≤ start) : Keeps (At I c ns) E (parse ns start end_) := by
  intro s h
  refine (hT ⟨h.1, h.2.1⟩ h.2.1 hstart).mono ?_ fun _ _ => id
  rintro _ s' ⟨⟨h', hns⟩, hcode⟩
  exact ⟨h', hns, hcode ▸ h.2.2⟩

section
variable (hI : StateInvariant I E)
include hI

theorem keeps_defIfElse (hf : Enough host c fuel)
    (hT : ParsesFrom (fun s => I s ∧ s.tree.Has ns) E c parse) :
    Keeps (At I c ns) E (defIfElse host parse fuel ns) := by
  apply keeps_code
  intro codeCopy hcopy
  refine (keeps_parseLength hI).bind fun ifLen => ?_
  refine (keeps_termArgToInt hI hf).bind fun predicate => ?_
  refine Keeps.bind ?_ fun _ => ?_
  · exact .ite (fun _ => hT.keeps hcopy) fun _ => keeps_setCode hI (Nat.le_add_right_of_le hcopy)
  apply keeps_code
  intro p hp
  have hp' : c ≤ p + 1 := Nat.le_add_right_of_le hp
  refine Keeps.bind (fun s h => wp_readByte (fun _ _ => h) (hI.fault h.1)) fun op => ?_
  refine .ite (fun _ => ?_) fun _ => .pure
  refine (keeps_setCode hI hp').bind fun _ => (keeps_parseLength hI).bind fun elseLen => ?_
  refine Keeps.bind ?_ fun _ => keeps_setCode hI (Nat.le_add_right_of_le hp')
  exact .ite (fun _ => hT.keeps hp') fun _ => .pure

/-- A term list of another namespace says nothing about the cursor, which is set afterwards. -/
theorem ParsesFrom.spec (hT : ParsesFrom (fun s => I s ∧ s.tree.Has ns) E c parse) (h : At I c ns s)
    (hn : s.tree.Has n) (hend : c ≤ p) :
    Wp (do
      let start ← code ns
      parse n start p
      setCode ns p) (fun _ => At I c ns) E s := by
  simp only [wp_bind, wp_code]
  refine (hT ⟨h.1, h.2.1⟩ hn h.2.2).mono ?_ fun _ _ => id
  rintro _ s' ⟨⟨h', hns⟩, -⟩
  have h0 : At I 0 ns s' := ⟨h', hns, Nat.zero_le _⟩
  exact h0.setCode hI hend

theorem locateScope_spec (h : At I c ns s) :
    Wp (locateScope ns name) (fun scope s' => s' = s ∧ s.tree.Has scope) E s := by
  have hwf := hI.wf h.1
  simp only [locateScope]
  split
  · exact ⟨rfl, hwf.root_has⟩
  rw [wp_bind]
  refine locateObject_spec hI h fun r hr => ?_
  obtain ⟨scope, name'⟩ := r
  cases scope with
  | some scope => exact ⟨rfl, locateObject_found hwf.child_has hwf.root_has hr⟩
  | none =>
    simp only [scopeNotFound]
    split
    · rw [wp_bind]
      exact locateObject_spec hI h fun _ _ => hI.exit h.1
    · exact hI.exit h.1

theorem keeps_defScope (hf : Enough host c fuel)
    (hT : ParsesFrom (fun s => I s ∧ s.tree.Has ns) E c parse) :
    Keeps (At I c ns) E (defScope host parse fuel ns) := by
  apply keeps_code
  intro codeCopy hcopy
  refine (keeps_parseLength hI).bind fun scopeLen => ?_
  refine (keeps_parseNamestring hI hf).bind fun scopeName => ?_
  intro s h
  rw [wp_bind]
  refine (locateScope_spec hI h).mono ?_ fun _ _ => id
  rintro scope _ ⟨rfl, hscope⟩
  exact hT.spec hI h hscope (Nat.le_add_right_of_le hcopy)

theorem deviceNamespace_spec (h : At I c ns s) (hd : ⟨s.tree, ns, name⟩ ∈ s.devices)
    (hl : locateObject .namespaces s.tree ns name = .ok (device, name')) :
    Wp (deviceNamespace ns name' device) (fun device s' => At I c ns s' ∧ s'.tree.Has device) E s := by
  have hwf := hI.wf h.1
  cases device with
  | some device => exact ⟨h, locateObject_found hwf.child_has hwf.root_has hl⟩
  | none =>
    simp only [deviceNamespace, createNamespace, wp_bind]
    refine wp_ask (fun parent hp => ?_) fun e he => deviceParent_error hI h he
    rw [wp_bind, wp_code, wp_bind, wp_ask_ok]
    have hlt : ∀ p, parent = some p → p < s.tree.next := fun p e => by
      subst e
      exact (deviceParent_has hwf h.2.1 hp).1
    have hne : ns ≠ s.tree.next := Nat.ne_of_lt h.2.1.1
    refine ⟨⟨hI.frame (hI.device h.1 hd rfl h.2.1 hl hp) rfl rfl rfl,
      h.2.1.createNamespace hlt, ?_⟩, Tree.createNamespace_has_self hlt (by simp)⟩
    simpa only [AmlState.setCode, AmlState.write, Function.update_of_ne hne] using h.2.2

theorem keeps_defDevice (hf : Enough host c fuel)
    (hT : ParsesFrom (fun s => I s ∧ s.tree.Has ns) E c parse) :
    Keeps (At I c ns) E (defDevice host parse fuel ns) := by
  apply keeps_code
  intro codeCopy hcopy
  refine (keeps_parseLength hI).bind fun deviceLen => ?_
  refine (keeps_parseNamestring hI hf).bind fun deviceName => ?_
  intro s h
  simp only [wp_bind, wp_recordDevice]
  have h' : At I c ns (s.recordDevice ns deviceName) := ⟨hI.record h.1, h.2⟩
  refine locateObject_spec hI h' fun r hr => ?_
  obtain ⟨device, name'⟩ := r
  dsimp only
  rw [wp_bind]
  refine (deviceNamespace_spec hI h' (List.mem_append_right _ (List.mem_singleton.mpr rfl)) hr).mono ?_
    fun _ _ => id
  rintro device' s' ⟨h'', hdevice⟩
  exact hT.spec hI h'' hdevice (Nat.le_add_right_of_le hcopy)

/-! ## Term lists -/

theorem nextOp_spec (h : At I c ns s) :
    Wp (nextOp host ns) (fun _ s' => c < host.table.length ∧ At I (c + 1) ns s') E s := by
  simp only [nextOp, wp_bind]
  refine (nextByte_spec hI h).mono ?_ fun _ _ => id
  rintro op s' ⟨hlt, h'⟩
  split
  · rw [wp_bind]
    exact (keeps_nextByte hI h').mono (fun _ _ h'' => ⟨hlt, h''⟩) fun _ _ => id
  · exact ⟨hlt, h'⟩

/-- The step: a term takes a byte, and nothing inside it starts before the next one. -/
theorem parseNext_spec (h : At I c ns s) (hf : Enough host c fuel)
    (hT : c < host.table.length → ParsesFrom (fun s => I s ∧ s.tree.Has ns) E (c + 1) parse) :
    Wp (parseNext host parse fuel ns) (fun _ s' => c < host.table.length ∧ At I (c + 1) ns s') E s := by
  simp only [parseNext, wp_bind, wp_code, wp_emit]
  have hentered : At I c ns (s.emit (.enter (s.code ns))) := h.emit hI
  refine (nextOp_spec hI hentered).mono ?_ fun _ _ => id
  rintro op s' ⟨hlt, h'⟩
  have hf' := hf.mono (Nat.le_succ c)
  have hT' := hT hlt
  suffices hkeeps : Keeps (At I (c + 1) ns) E (parseTerm host parse fuel ns op) from
    (hkeeps h').mono (fun _ _ h'' => ⟨hlt, h''⟩) fun _ _ => id
  cases op with
  | ifElse => exact keeps_defIfElse hI hf' hT'
  | name => exact keeps_defName hI hf'
  | method => exact keeps_defMethod hI hf'
  | opRegion => exact keeps_defOpRegion hI hf'
  | field => exact keeps_defField hI hf'
  | indexField => exact keeps_skipPackage hI
  | scope => exact keeps_defScope hI hf' hT'
  | device => exact keeps_defDevice hI hf' hT'
  | mutex => exact keeps_defMutex hI hf'
  | aliasOp => exact keeps_defAlias hI hf'
  | createWordField =>
    exact (keeps_defCreateWordField hI hf').bind fun _ => keeps_skipPackage hI
  | processor => exact keeps_skipPackage hI
  | other => exact keeps_debugExit hI

theorem termlistLoop_spec {body : Aml Unit}
    (hbody : ∀ {p s}, c ≤ p → At I p ns s →
      Wp body (fun _ s' => p < host.table.length ∧ At I (p + 1) ns s') E s)
    (h : At I p ns s) (hp : c ≤ p) (hf : Enough host p fuel) :
    Wp (termlistLoop body ns end_ fuel) (fun _ s' => I s' ∧ s'.tree.Has ns) E s := by
  induction fuel generalizing p s with
  | zero => exact absurd hf.1 (Nat.lt_irrefl 0)
  | succ fuel ih =>
    simp only [termlistLoop, wp_bind, wp_code]
    split
    · rw [wp_bind]
      refine (hbody hp h).mono ?_ fun _ _ => id
      rintro _ s' ⟨hlt, h'⟩
      exact ih h' (Nat.le_add_right_of_le hp) (hf.step hlt (Nat.lt_succ_self p))
    · exact ⟨hI.frame h.1 rfl rfl rfl, h.2.1⟩

end

/-- The run: the fuel of a nested term list is smaller by one, and it starts at least one byte
later. -/
theorem parseTermlist_spec (hI : StateInvariant I E) (hf : Enough host start (fuel - 1)) (h : I s)
    (hns : s.tree.Has ns) :
    Wp (parseTermlist host fuel ns start end_) (fun _ s' => I s' ∧ s'.code ns = s.code ns) E s := by
  induction fuel generalizing I s ns start end_ with
  | zero => exact absurd hf.1 (Nat.lt_irrefl 0)
  | succ fuel ih =>
    simp only [parseTermlist, wp_bind, wp_code, wp_setCode]
    have hstart : At I start ns (s.setCode ns start) :=
      ⟨hI.frame h rfl rfl rfl, hns, by simp [AmlState.setCode]⟩
    refine (termlistLoop_spec hI ?_ hstart (Nat.le_refl start) hf).mono ?_ fun _ _ => id
    · intro p s' hp h'
      refine parseNext_spec hI h' (hf.mono hp) fun hlt s'' n start' end' h'' hn hstart' => ?_
      have hstep : Enough host p (fuel - 1 + 1) :=
        ⟨Nat.succ_pos _, Nat.lt_of_lt_of_le (hf.mono hp).2 (by omega)⟩
      exact ih (hI.has ns) (hstep.step hlt (by omega)) h'' hn
    · rintro _ s' ⟨h', -⟩
      exact ⟨hI.frame h' rfl rfl rfl, by simp [AmlState.setCode]⟩

theorem parseTable_spec (hI : StateInvariant I E) (hf : Enough host headerLen (fuel - 1))
    (h : I s) : Wp (parseTable host fuel) (fun _ => I) E s := by
  simp only [parseTable, wp_bind, wp_setCode, wp_map]
  have h' : I (s.setCode root headerLen) := hI.frame h rfl rfl rfl
  refine wp_readBytes (fun _ => ?_) (hI.fault h')
  have hcode : (s.setCode root headerLen).code root = headerLen := by simp [AmlState.setCode]
  rw [wp_bind, wp_code, hcode]
  exact (parseTermlist_spec hI hf h' (hI.wf h).root_has).mono (fun _ _ h'' => h''.1) fun _ _ => id

end Aml

end Lethe
