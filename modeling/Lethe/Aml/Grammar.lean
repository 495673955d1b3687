import Lethe.Aml.Parser

/-!
# The declarations of AML

The syntax of the terms that declare something, with their encoding as bytes: names, integer
constants, data objects, and terms with nested term lists. A package starts with its length, which
counts its own bytes and is given in one to four of them; `w` is that number and may be larger than
it has to be. `WF` says that the lengths fit and that the lists of initialisers are complete.

`termlistEvents` is what an observer of the cursors sees when a term list is parsed as it is meant:
every term is entered at its first byte, one after the other and inside the terms that have a term
list of their own, every such list is left at its end, and a method covers its body.
-/

namespace Lethe

/-! ## Integers -/

/-- The `n` low bytes of a number in little-endian order. -/
def leBytes : Nat → Nat → List UInt8
  | 0, _ => []
  | n + 1, v => UInt8.ofNat v :: leBytes n (v / 256)

/-- An integer constant. -/
inductive IntConst
  | zero
  | one
  | ones
  | byte (v : UInt8)
  | word (v : UInt16)
  | dword (v : UInt32)
  | qword (v : UInt64)

def IntConst.encode : IntConst → List UInt8
  | .zero => [0x00]
  | .one => [0x01]
  | .ones => [0xFF]
  | .byte v => 0x0A :: leBytes 1 v.toNat
  | .word v => 0x0B :: leBytes 2 v.toNat
  | .dword v => 0x0C :: leBytes 4 v.toNat
  | .qword v => 0x0E :: leBytes 8 v.toNat

def IntConst.value : IntConst → Nat
  | .zero => 0
  | .one => 1
  | .ones => 2 ^ 64 - 1
  | .byte v => v.toNat
  | .word v => v.toNat
  | .dword v => v.toNat
  | .qword v => v.toNat

/-- The constants that `term_arg_to_int` has a case for. -/
def IntConst.Short : IntConst → Prop
  | .qword _ => False
  | _ => True

/-! ## Package lengths -/

/-- The length `n` in `w` bytes. -/
def encodePkgLength : Nat → Nat → List UInt8
  | 1, n => [UInt8.ofNat n]
  | w, n => UInt8.ofNat (64 * (w - 1) + n % 16) :: leBytes (w - 1) (n / 16)

def PkgFits (w n : Nat) : Prop := w = 1 ∧ n < 64 ∨ 2 ≤ w ∧ w ≤ 4 ∧ n < 2 ^ (8 * w - 4)

/-- The encodings of the length `n`: one byte, or a lead byte with the number of the bytes behind it
in its upper two bits and the low four bits of `n`, and the other bits of `n` in these bytes. -/
inductive PkgLength (n : Nat) : List UInt8 → Prop
  | short : n < 64 → PkgLength n [UInt8.ofNat n]
  | long : 1 ≤ k → k ≤ 3 → n < 2 ^ (4 + 8 * k) →
    PkgLength n (UInt8.ofNat (64 * k + n % 16) :: leBytes k (n / 16))

/-- A package with its length in `w` bytes. -/
def encodePkg (w : Nat) (content : List UInt8) : List UInt8 :=
  encodePkgLength w (w + content.length) ++ content

/-- The length of the package fits. -/
def PkgOk (w : Nat) (content : List UInt8) : Prop := PkgFits w (w + content.length)

/-! ## Names -/

structure NameSeg where
  key : HashKey
  valid : key.bytes.all validChar = true

inductive NameLead
  | root
  | parents (m : Nat)

inductive NamePath
  | null
  | seg (s : NameSeg)
  | dual (s₁ s₂ : NameSeg)
  | multi (segs : List NameSeg) (h : segs.length < 256)

structure NameString where
  lead : NameLead
  path : NamePath

def NameLead.encode : NameLead → List UInt8
  | .root => [rootChar]
  | .parents m => List.replicate m parentChar

def NamePath.segs : NamePath → List NameSeg
  | .null => []
  | .seg s => [s]
  | .dual s₁ s₂ => [s₁, s₂]
  | .multi segs _ => segs

def segBytes (segs : List NameSeg) : List UInt8 := segs.flatMap fun s => s.key.bytes

/-- What stands in front of the segments. -/
def NamePath.segPrefix : NamePath → List UInt8
  | .null => [0x00]
  | .seg _ => []
  | .dual _ _ => [0x2E]
  | .multi segs _ => [0x2F, UInt8.ofNat segs.length]

def NameString.encode (n : NameString) : List UInt8 :=
  n.lead.encode ++ (n.path.segPrefix ++ segBytes n.path.segs)

/-- The name that the parser keeps: of the characters in front of the path only the first. -/
def NameString.inner (n : NameString) : List UInt8 := n.lead.encode.take 1 ++ segBytes n.path.segs

/-! ## Data objects -/

/-- A data object, or a name as an element of a package. -/
inductive Element
  | int (v : IntConst)
  | string (chars : List UInt8)
  | buffer (w : Nat) (size : IntConst) (bytes : List UInt8)
  | package (w : Nat) (elements : List Element)
  | varPackage (w : Nat) (count : IntConst) (elements : List Element)
  | name (n : NameString)

mutual

def Element.encode : Element → List UInt8
  | .int v => v.encode
  | .string chars => 0x0D :: (chars ++ [0x00])
  | .buffer w size bytes => 0x11 :: encodePkg w (size.encode ++ bytes)
  | .package w elements =>
    0x12 :: encodePkg w (UInt8.ofNat elements.length :: encodeElements elements)
  | .varPackage w count elements => 0x13 :: encodePkg w (count.encode ++ encodeElements elements)
  | .name n => n.encode

def encodeElements : List Element → List UInt8
  | [] => []
  | e :: es => e.encode ++ encodeElements es

end

mutual

def Element.WF : Element → Prop
  | .int _ => True
  | .string chars => 0x00 ∉ chars
  | .buffer w size bytes => PkgOk w (size.encode ++ bytes) ∧ size.value = bytes.length
  | .package w elements =>
    PkgOk w (UInt8.ofNat elements.length :: encodeElements elements) ∧ elements.length < 256 ∧
      ElementsWF elements
  | .varPackage w count elements =>
    PkgOk w (count.encode ++ encodeElements elements) ∧ count.value = elements.length ∧
      ElementsWF elements
  | .name _ => True

def ElementsWF : List Element → Prop
  | [] => True
  | e :: es => e.WF ∧ ElementsWF es

end

def Element.IsData : Element → Prop
  | .name _ => False
  | _ => True

/-! ## Terms -/

inductive Term
  | name (seg : NameSeg) (data : Element)
  | method (w : Nat) (name : NameString) (flags : UInt8) (body : List UInt8)
  | opRegion (name : NameString) (space : UInt8) (offset len : IntConst)
  | indexField (w : Nat) (body : List UInt8)
  | scope (w : Nat) (name : NameString) (body : List Term)
  | device (w : Nat) (seg : NameSeg) (body : List Term)
  | mutex (name : NameString) (flags : UInt8)
  | aliasOp (source alias_ : NameString)
  | processor (w : Nat) (body : List UInt8)

mutual

def Term.encode : Term → List UInt8
  | .name seg data => 0x08 :: (seg.key.bytes ++ data.encode)
  | .method w name flags body => 0x14 :: encodePkg w (name.encode ++ flags :: body)
  | .opRegion name space offset len =>
    0x5B :: 0x80 :: (name.encode ++ space :: (offset.encode ++ len.encode))
  | .indexField w body => 0x5B :: 0x86 :: encodePkg w body
  | .scope w name body => 0x10 :: encodePkg w (name.encode ++ encodeTerms body)
  | .device w seg body => 0x5B :: 0x82 :: encodePkg w (seg.key.bytes ++ encodeTerms body)
  | .mutex name flags => 0x5B :: 0x01 :: (name.encode ++ [flags])
  | .aliasOp source alias_ => 0x06 :: (source.encode ++ alias_.encode)
  | .processor w body => 0x5B :: 0x83 :: encodePkg w body

def encodeTerms : List Term → List UInt8
  | [] => []
  | t :: ts => t.encode ++ encodeTerms ts

end

mutual

def Term.WF : Term → Prop
  | .name _ data => data.WF ∧ data.IsData
  | .method w name flags body => PkgOk w (name.encode ++ flags :: body)
  | .opRegion .. => True
  | .indexField w body => PkgOk w body
  | .scope w name body => PkgOk w (name.encode ++ encodeTerms body) ∧ TermsWF body
  | .device w seg body => PkgOk w (seg.key.bytes ++ encodeTerms body) ∧ TermsWF body
  | .mutex .. => True
  | .aliasOp .. => True
  | .processor w body => PkgOk w body

def TermsWF : List Term → Prop
  | [] => True
  | t :: ts => t.WF ∧ TermsWF ts

end

/-! ## What an observer of the cursors sees -/

mutual

/-- The events of a term at `p`. -/
def Term.events : Term → Nat → List AmlEvent
  | .method w name _ body, p =>
    [.enter p, .method (p + 1 + w + name.encode.length + 1) body.length]
  | .scope w name body, p => .enter p :: termlistEvents body (p + 1 + w + name.encode.length)
  | .device w _ body, p => .enter p :: termlistEvents body (p + 2 + w + keyLen)
  | _, p => [.enter p]

/-- The events of a term list at `p`. -/
def termlistEvents : List Term → Nat → List AmlEvent
  | [], p => [.leave p]
  | t :: ts, p => t.events p ++ termlistEvents ts (p + t.encode.length)

end

/-! ## Lemmas on the encoding -/

theorem or_shiftLeft {a : Nat} (h : a < 2 ^ i) : a ||| b <<< i = a + b * 2 ^ i := by
  rw [Nat.or_comm, ← Nat.shiftLeft_add_eq_or_of_lt h, Nat.shiftLeft_eq, Nat.add_comm]

@[simp] theorem leBytes_length : (leBytes n v).length = n := by
  induction n generalizing v with
  | zero => rfl
  | succ n ih => simp [leBytes, ih]

theorem leNat_leBytes : leNat (leBytes n v) = v % 256 ^ n := by
  induction n generalizing v with
  | zero => simp [leBytes, leNat, Nat.mod_one]
  | succ n ih =>
    have hb : (UInt8.ofNat v).toNat = v % 256 := UInt8.toNat_ofNat'
    have hlt : v % 256 < 2 ^ 8 := Nat.mod_lt _ (by decide)
    have hpow : 256 ^ (n + 1) = 256 * 256 ^ n := Nat.pow_succ'
    rw [leBytes, leNat, ih, hb, or_shiftLeft hlt, hpow, Nat.mod_mul]
    omega

theorem leNat_leBytes_of_lt (h : v < 256 ^ n) : leNat (leBytes n v) = v := by
  rw [leNat_leBytes, Nat.mod_eq_of_lt h]

theorem PkgFits.pos (h : PkgFits w n) : 0 < w := by
  obtain ⟨rfl, _⟩ | ⟨h₁, _⟩ := h
  · exact Nat.one_pos
  · exact Nat.lt_of_lt_of_le Nat.two_pos h₁

theorem PkgFits.lt (h : PkgFits w n) : n < 2 ^ 28 := by
  obtain ⟨rfl, h⟩ | ⟨h₁, h₂, h⟩ := h
  · omega
  · have hle : 2 ^ (8 * w - 4) ≤ 2 ^ 28 := Nat.pow_le_pow_right (by decide) (by omega)
    exact Nat.lt_of_lt_of_le h hle

theorem encodePkgLength_length (h : PkgFits w n) : (encodePkgLength w n).length = w := by
  obtain ⟨rfl, _⟩ | ⟨h₁, h₂, _⟩ := h
  · rfl
  · obtain rfl | rfl | rfl : w = 2 ∨ w = 3 ∨ w = 4 := by omega
    all_goals rfl

/-- An encoding is that in its number of bytes. -/
theorem PkgLength.fits (h : PkgLength n bytes) :
    ∃ w, PkgFits w n ∧ bytes = encodePkgLength w n := by
  cases h with
  | short hn => exact ⟨1, .inl ⟨rfl, hn⟩, rfl⟩
  | @long k hk hk' hn =>
    refine ⟨k + 1, .inr ⟨by omega, by omega, ?_⟩, ?_⟩
    · have hbits : 8 * (k + 1) - 4 = 4 + 8 * k := by omega
      rw [hbits]
      exact hn
    · obtain rfl | rfl | rfl : k = 1 ∨ k = 2 ∨ k = 3 := by omega
      all_goals rfl

/-- Four bytes are enough for every length below `2 ^ 28`. -/
theorem pkgLength_of_lt (h : n < 2 ^ 28) : ∃ bytes, PkgLength n bytes :=
  ⟨_, .long (k := 3) (by decide) (by decide) h⟩

theorem encodePkg_length (h : PkgOk w content) :
    (encodePkg w content).length = w + content.length := by
  rw [encodePkg, List.length_append, encodePkgLength_length h]

theorem encodeElements_append : encodeElements (es ++ es') = encodeElements es ++ encodeElements es' := by
  induction es with
  | nil => rfl
  | cons e es ih => simp only [List.cons_append, encodeElements, ih, List.append_assoc]

theorem elementsWF_append : ElementsWF (es ++ es') ↔ ElementsWF es ∧ ElementsWF es' := by
  induction es with
  | nil => simp [ElementsWF]
  | cons e es ih => simp only [List.cons_append, ElementsWF, ih, and_assoc]

/-! ## Lemmas on segments -/

theorem segBytes_cons : segBytes (seg :: segs) = seg.key.bytes ++ segBytes segs := rfl

theorem segBytes_append : segBytes (segs ++ segs') = segBytes segs ++ segBytes segs' :=
  List.flatMap_append

theorem segBytes_length : (segBytes segs).length = segs.length * keyLen := by
  induction segs with
  | nil => rfl
  | cons s segs ih =>
    rw [segBytes_cons, List.length_append, ih, List.length_cons, Nat.succ_mul, Nat.add_comm]
    rfl

theorem segBytes_valid : (segBytes segs).all validChar = true := by
  induction segs with
  | nil => rfl
  | cons s segs ih =>
    rw [segBytes_cons, List.all_append, s.valid, ih]
    rfl

theorem hashKey_segBytes : hashKey (segBytes (seg :: segs)) = seg.key := rfl

theorem validChar_not_lead (h : validChar b = true) : b ≠ rootChar ∧ b ≠ parentChar ∧ b ≠ 0x2E ∧
    b ≠ 0x2F ∧ b ≠ 0 := by
  refine ⟨?_, ?_, ?_, ?_, ?_⟩ <;> rintro rfl <;> exact absurd h (by decide)

theorem NameSeg.validChar_c0 (seg : NameSeg) : validChar seg.key.c0 = true := by
  have h := seg.valid
  simp only [HashKey.bytes, List.all_cons, Bool.and_eq_true] at h
  exact h.1

end Lethe
