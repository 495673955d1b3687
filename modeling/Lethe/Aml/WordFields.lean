import Lethe.Aml.Declarations
import Lethe.Aml.Expression

/-!
# Word fields

`parse_next` goes on from CreateWordField to the next case, which reads a package length behind the
term and skips as many bytes. The cursor stays where the term ends only if that length is 0.
-/

namespace Lethe

structure CreateWordField where
  buffer : NameSeg
  index : List UInt8
  name : NameString
  seg : NameSeg

namespace CreateWordField

def encode (d : CreateWordField) : List UInt8 :=
  0x8B :: (d.buffer.key.bytes ++ (d.index ++ d.name.encode))

/-- In the tree after the term, the field is registered under its name. -/
def register (d : CreateWordField) (t : Tree) (ns : Nat) (buffer : List UInt8) (byteIndex : Nat) :
    Tree :=
  t.setChild ns d.seg.key (.wordField { name := d.seg.key, buffer, byteIndex })

/-- From `ns` upwards, the name of the buffer is that of a variable with the bytes `buffer`. -/
def Buffer (d : CreateWordField) (t : Tree) (ns : Nat) (buffer : List UInt8) : Prop :=
  ∃ label, d.buffer.path.resolve .children t ns = some (.name { label, data := .buffer buffer })

/-- In the term at `c`, `term_arg_to_int` supports the index and gives `v` for it. -/
def Indexes (d : CreateWordField) (host : AmlHost) (fuel : Nat) (s : AmlState) (ns c v : Nat) :
    Prop :=
  ∃ s', Aml.termArgToInt host fuel ns ((s.emit (.enter c)).setCode ns (c + 1 + keyLen)) = .ok v s' ∧
    s'.code ns = c + 1 + keyLen + d.index.length

end CreateWordField

/-- The bytes at `c` are the length 0, in whatever number of bytes it is given. -/
def AmlHost.ZeroAt (host : AmlHost) (c : Nat) : Prop :=
  ∃ w, PkgFits w 0 ∧ host.ReadsAt c (encodePkgLength w 0)

namespace Aml

variable {host : AmlHost} {s : AmlState} {ns c p fuel : Nat} {E : AmlStop → AmlState → Prop}
  {parse : Nat → Nat → Nat → Aml Unit} {d : CreateWordField} {buffer : List UInt8}

/-! ## The length behind the term -/

theorem pkgFits_zero (hw : 1 ≤ w) (hw' : w ≤ 4) : PkgFits w 0 := by
  by_cases h : w = 1
  · exact .inl ⟨h, by decide⟩
  · exact .inr ⟨by omega, hw', Nat.two_pow_pos _⟩

/-- A byte that adds nothing to a length. -/
theorem eq_zero_of_shiftLeft {b : UInt8} (h : b.toNat <<< k = 0) : b = 0 :=
  UInt8.toNat_inj.mp (Nat.shiftLeft_eq_zero_iff.mp h)

/-- The length that `parse_length` reads is 0. -/
theorem parseLength_zero_iff (hc : s.code ns = c) :
    Wp (parseLength host ns) (fun n _ => n = 0) (fun _ _ => False) s ↔ host.ZeroAt c := by
  constructor
  · intro h
    have hnext : ∀ {Q : UInt8 → AmlState → Prop} (p : Nat),
        Wp (nextByte host ns) Q (fun _ _ => False) (s.setCode ns p) ↔
          ∃ b, host.table[p]? = some b ∧ Q b (s.setCode ns (p + 1)) := by
      intro Q p
      rw [nextByte_returns Advanced.setCode.code, setCode_setCode]
    rw [parseLength, wp_bind, nextByte_returns hc] at h
    obtain ⟨b, hb, h⟩ := h
    have hlt := b.toNat_lt
    obtain ⟨k, r, hk, hr, hval⟩ : ∃ k r, k < 4 ∧ r < 64 ∧ b.toNat = 64 * k + r :=
      ⟨b.toNat / 64, b.toNat % 64, by omega, by omega, by omega⟩
    rw [hval, leadByte_count hk hr, leadByte_low hr] at h
    -- a length of 0 leaves only the number of bytes in the lead byte
    have hlead : r = 0 → host.table[c]? = some (UInt8.ofNat (64 * k)) := by
      rintro rfl
      rw [hb, ← Nat.add_zero (64 * k), ← hval, UInt8.ofNat_toNat]
    refine ⟨k + 1, pkgFits_zero (by omega) hk, ?_⟩
    obtain rfl | rfl | rfl | rfl : k = 0 ∨ k = 1 ∨ k = 2 ∨ k = 3 := by omega
    · exact readsAt_cons.mpr ⟨hlead h, List.nil_prefix⟩
    · simp only [wp_bind, hnext, wp_pure, Nat.or_eq_zero_iff] at h
      obtain ⟨b₁, hb₁, hr, h₁⟩ := h
      obtain rfl := eq_zero_of_shiftLeft h₁
      exact readsAt_cons.mpr ⟨hlead hr, readsAt_cons.mpr ⟨hb₁, List.nil_prefix⟩⟩
    · simp only [wp_bind, hnext, wp_pure, Nat.or_eq_zero_iff] at h
      obtain ⟨b₁, hb₁, b₂, hb₂, ⟨hr, h₁⟩, h₂⟩ := h
      obtain rfl := eq_zero_of_shiftLeft h₁
      obtain rfl := eq_zero_of_shiftLeft h₂
      exact readsAt_cons.mpr ⟨hlead hr,
        readsAt_cons.mpr ⟨hb₁, readsAt_cons.mpr ⟨hb₂, List.nil_prefix⟩⟩⟩
    · simp only [wp_bind, hnext, wp_pure, Nat.or_eq_zero_iff] at h
      obtain ⟨b₁, hb₁, b₂, hb₂, b₃, hb₃, ⟨⟨hr, h₁⟩, h₂⟩, h₃⟩ := h
      obtain rfl := eq_zero_of_shiftLeft h₁
      obtain rfl := eq_zero_of_shiftLeft h₂
      obtain rfl := eq_zero_of_shiftLeft h₃
      exact readsAt_cons.mpr ⟨hlead hr, readsAt_cons.mpr ⟨hb₁,
        readsAt_cons.mpr ⟨hb₂, readsAt_cons.mpr ⟨hb₃, List.nil_prefix⟩⟩⟩⟩
  · rintro ⟨w, hfit, hat⟩
    exact (wp_parseLength hfit hat hc).mpr rfl

/-- `parse_next` is back where the bytes of the length began only if it was 0. -/
theorem skipPackage_stays_iff (hc : s.code ns = c) :
    Wp (skipPackage host ns) (fun _ s' => s'.tree = s.tree ∧ s'.code ns = c) (fun _ _ => False) s ↔
      host.ZeroAt c := by
  rw [← parseLength_zero_iff hc]
  simp only [skipPackage, wp_bind, wp_code, hc]
  constructor
  · intro h
    refine h.mono ?_ fun _ _ => id
    rintro n s' ⟨-, hcode⟩
    rw [Advanced.setCode.code] at hcode
    omega
  · intro h
    have hadvances : Respects (Advances ns) (parseLength host ns) := advances_parseLength
    refine (h.and (hadvances s)).mono ?_ fun _ _ => And.left
    rintro n s' ⟨rfl, hs'⟩
    exact ⟨hs'.tree, Advanced.setCode.code⟩

/-! ## The handler -/

theorem wp_termArgToBuffer {Q : List UInt8 → AmlState → Prop} (ht : s.tree.Nested)
    (hns : ns < s.tree.next) (hbuffer : d.Buffer s.tree ns buffer)
    (hat : host.ReadsAt c d.buffer.key.bytes) (hc : s.code ns = c) :
    Wp (termArgToBuffer host ns) Q E s ↔ Q buffer (s.setCode ns (c + keyLen)) := by
  obtain ⟨label, hresolve⟩ := hbuffer
  have hlocate : locateObject .children s.tree ns { inner := d.buffer.key.bytes } =
      .ok (some (.name { label, data := .buffer buffer }), { inner := d.buffer.key.bytes }) := by
    have h := Path.locateObject_eq d.buffer.path .children ⟨0, 0, 0, 0⟩ ht hns
    rw [hresolve, if_pos (.inl rfl)] at h
    exact h
  simp only [termArgToBuffer, wp_bind, wp_code, hc]
  rw [readBytes_eq (n := keyLen) hat rfl, wp_pure, wp_bind, wp_ask_of_ok hlocate]
  exact Iff.rfl

/-- The field is registered, and the cursor is behind its name. -/
theorem defCreateWordField_returns (hn : d.name.Names d.seg.path) (hfuel : 2 ≤ fuel)
    (ht : s.tree.Nested) (hns : ns < s.tree.next) (hbuffer : d.Buffer s.tree ns buffer)
    (hat : host.ReadsAt c (d.buffer.key.bytes ++ (d.index ++ d.name.encode))) (hc : s.code ns = c)
    (hindex : termArgToInt host fuel ns (s.setCode ns (c + keyLen)) = .ok v s₁)
    (hcode : s₁.code ns = c + keyLen + d.index.length) :
    Wp (defCreateWordField host fuel ns) (fun _ s' => s'.tree = d.register s.tree ns buffer v ∧
      s'.code ns = c + keyLen + d.index.length + d.name.encode.length) E s := by
  obtain ⟨hat₁, hat₂⟩ := readsAt_append.mp hat
  obtain ⟨-, hat₃⟩ := readsAt_append.mp hat₂
  have htree : s₁.tree = s.tree := (advances_termArgToInt.of_ok hindex).tree
  rw [defCreateWordField, wp_bind, wp_termArgToBuffer ht hns hbuffer hat₁ hc, wp_bind,
    wp_of_ok hindex]
  refine wp_segName hn hfuel hat₃ hcode fun name hcount hkey _ => ?_
  rw [unimplemented_count hcount, pure_bind, addChildToNamespace, wp_writeTree, hkey]
  refine ⟨?_, Advanced.setCode.code⟩
  change s₁.tree.setChild _ _ _ = _
  rw [htree]
  rfl

/-! ## The term -/

/-- The indexes are those of the syntax of expressions, among others. -/
theorem indexes_of_evaluates (e : Expr) (env : HashKey → UInt64) (ht : s.tree.Nested)
    (hns : ns < s.tree.next) (hnames : ∀ seg ∈ e.names, s.tree.Variable ns seg (env seg.key))
    (hindex : d.index = e.encode) (hat : host.ReadsAt c d.encode) (hfuel : e.depth < fuel) :
    d.Indexes host fuel s ns c (e.eval env).toNat := by
  obtain ⟨-, hterm⟩ := readsAt_cons.mp hat
  obtain ⟨-, hat₂⟩ := readsAt_append.mp hterm
  obtain ⟨hat₃, -⟩ := readsAt_append.mp hat₂
  rw [hindex] at hat₃
  have h := evaluates (E := fun _ _ => False) ht hns hnames (.of_lt hfuel) hat₃
    (s := (s.emit (.enter c)).setCode ns (c + 1 + keyLen)) rfl Advanced.setCode.code
  obtain ⟨_, s', hok, rfl, h'⟩ := wp_returns.mp h
  rw [CreateWordField.Indexes, hindex]
  exact ⟨s', hok, h'.code⟩

/-- `parse_next` on a CreateWordField term registers the field, and it leaves the cursor behind the
term exactly if the bytes that follow are the package length 0. -/
theorem parseNext_createWordField_iff (host : AmlHost) (parse : Nat → Nat → Nat → Aml Unit)
    (d : CreateWordField) (s : AmlState) (ns c : Nat) (buffer : List UInt8)
    (hn : d.name.Names d.seg.path) (ht : s.tree.Nested) (hns : ns < s.tree.next)
    (hbuffer : d.Buffer s.tree ns buffer) (hat : host.ReadsAt c d.encode) (hc : s.code ns = c) :
    ∃ bound, ∀ fuel, bound ≤ fuel → ∀ v, d.Indexes host fuel s ns c v →
      (Wp (parseNext host parse fuel ns) (fun _ s' => s'.tree = d.register s.tree ns buffer v ∧
        s'.code ns = c + d.encode.length) (fun _ _ => False) s ↔
          host.ZeroAt (c + d.encode.length)) := by
  refine ⟨2, fun fuel hfuel v hindexes => ?_⟩
  obtain ⟨s₁, hindex, hcode⟩ := hindexes
  obtain ⟨hop, hterm⟩ := readsAt_cons.mp hat
  have hend : c + 1 + keyLen + d.index.length + d.name.encode.length = c + d.encode.length := by
    have hkey : d.buffer.key.bytes.length = keyLen := rfl
    simp only [CreateWordField.encode, List.length_cons, List.length_append, hkey]
    omega
  rw [← setCode_setCode (p := c + 1)] at hindex
  rw [wp_parseNext_op hop (by decide) hc]
  change Wp (defCreateWordField host fuel ns >>= fun _ => skipPackage host ns) _ _ _ ↔ _
  have hfield := defCreateWordField_returns (E := fun _ _ => False)
    (s := (s.emit (.enter c)).setCode ns (c + 1)) hn hfuel ht hns hbuffer hterm
    Advanced.setCode.code hindex hcode
  obtain ⟨_, s', hok, htree, hcode'⟩ := wp_returns.mp hfield
  have htree' : s'.tree = d.register s.tree ns buffer v := htree
  rw [wp_bind, wp_of_ok hok, ← htree', skipPackage_stays_iff (hcode'.trans hend)]

/-- `CreateWordField (BUFR, 1, FLD0)`. -/
def bufrField : CreateWordField where
  buffer := ⟨keyOfChars 'B' 'U' 'F' 'R', by decide⟩
  index := IntConst.encode .one
  name := ⟨.parents 0, .seg ⟨keyOfChars 'F' 'L' 'D' '0', by decide⟩⟩
  seg := ⟨keyOfChars 'F' 'L' 'D' '0', by decide⟩

/-- The term with `rest` behind it. -/
def bufrHost (rest : List UInt8) : AmlHost where
  table := bufrField.encode ++ rest
  uninit _ _ := 0
  readMem _ _ _ := none
  readIo _ _ _ := 0

/-- `BUFR` has three bytes. -/
def bufrState : AmlState :=
  { initAmlState with
    tree := initAmlNamespaces.setChild root bufrField.buffer.key
      (.name { label := bufrField.buffer.key, data := .buffer [0xA0, 0xB1, 0xC2] }) }

theorem bufrField_indexes (rest : List UInt8) (hfuel : 0 < fuel) :
    bufrField.Indexes (bufrHost rest) fuel bufrState root 0 1 :=
  indexes_of_evaluates (.const .one trivial) (fun _ => 0) initAmlNamespaces_nested.setChild
    (by decide) (fun _ h => absurd h List.not_mem_nil) rfl ⟨rest, rfl⟩ hfuel

/-- The byte behind the term is 0. -/
theorem parseNext_createWordField_iff_bufr :
    ∃ bound, ∀ fuel, bound ≤ fuel →
      (Wp (parseNext (bufrHost [0x00]) (parseTermlist (bufrHost [0x00]) 16) fuel root)
        (fun _ s' => s'.tree = bufrField.register bufrState.tree root [0xA0, 0xB1, 0xC2] 1 ∧
          s'.code root = 10) (fun _ _ => False) bufrState ↔ (bufrHost [0x00]).ZeroAt 10) := by
  obtain ⟨bound, h⟩ := parseNext_createWordField_iff (bufrHost [0x00])
    (parseTermlist (bufrHost [0x00]) 16) bufrField bufrState root 0 [0xA0, 0xB1, 0xC2] ⟨rfl, rfl⟩
    initAmlNamespaces_nested.setChild (by decide) ⟨bufrField.buffer.key, rfl⟩ ⟨[0x00], rfl⟩ rfl
  exact ⟨max bound 1, fun fuel hfuel => h fuel (le_of_max_le_left hfuel) 1
    (bufrField_indexes [0x00] (le_of_max_le_right hfuel))⟩

/-- The Name term behind the field is not the next one that is parsed. -/
theorem createWordField_skips : bufrField.Buffer bufrState.tree root [0xA0, 0xB1, 0xC2] ∧
    bufrField.Indexes (bufrHost [0x08]) 16 bufrState root 0 1 ∧
    ¬Wp (parseNext (bufrHost [0x08]) (parseTermlist (bufrHost [0x08]) 16) 16 root)
      (fun _ s' => s'.tree = bufrField.register bufrState.tree root [0xA0, 0xB1, 0xC2] 1 ∧
        s'.code root = 10) (fun _ _ => False) bufrState := by
  have hrun : (match parseNext (bufrHost [0x08]) (parseTermlist (bufrHost [0x08]) 16) 16 root
      bufrState with
      | .ok _ s' => s'.code root
      | .error _ _ => 0) = 18 := by decide
  refine ⟨⟨bufrField.buffer.key, rfl⟩, bufrField_indexes [0x08] (by decide), fun h => ?_⟩
  obtain ⟨_, s', hok, -, hcode⟩ := wp_returns.mp h
  rw [hok] at hrun
  exact absurd (hcode.symm.trans hrun) (by decide)

end Aml

end Lethe
