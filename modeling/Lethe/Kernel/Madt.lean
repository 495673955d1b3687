import Mathlib.Tactic.IntervalCases
import Lethe.Lib.Walk
import Lethe.Lib.Wp
import Lethe.Kernel.Paging

/-!
# Lookups in the MADT

`lethe-kernel/acpi/madt.c`. The structures behind the header of the table are a list of entries,
each with its length in its second byte. `MADT_LOOP` reads that byte as a `char`, so an entry of 128
bytes or more does not lead to the next one but 256 bytes in front of it: out of the area, or back
to bytes that have been gone over before.
-/

namespace Lethe

/-! ## The code -/

/-- `acpi_madt_t`: the `length` of the header, and the bytes from `interrupt_controller_structure`
on, which go on behind the table. An index is a `uint64_t`. -/
structure Madt where
  length : BitVec 32
  interruptControllerStructure : BitVec 64 → BitVec 8

namespace Madt
variable (madt : Madt)

/-- `madt->header.length - 44`. -/
def limit : BitVec 64 := (madt.length - 44).setWidth 64

/-- The increment of `MADT_LOOP`: the byte is a `char`. -/
def next (i : BitVec 64) : BitVec 64 :=
  i + (madt.interruptControllerStructure (i + 1)).signExtend 64

/-- `MADT_LOOP` with a body that returns at the first `i` with `found`. -/
def loop (found : BitVec 64 → Bool) : Nat → BitVec 64 → Except Panic (Option (BitVec 64))
  | 0, _ => .error .doesNotReturn
  | fuel + 1, i =>
    if i < madt.limit then
      if found i then .ok (some i) else loop found fuel (madt.next i)
    else .ok none

/-- `MADT_ADDR32`. -/
def addr32 (index : BitVec 64) : BitVec 32 :=
  let char (i : BitVec 64) : BitVec 32 := (madt.interruptControllerStructure i).signExtend 32
  (char (index + 3) &&& 0xFF) <<< 24 ||| (char (index + 2) &&& 0xFF) <<< 16 |||
    (char (index + 1) &&& 0xFF) <<< 8 ||| (char index &&& 0xFF)

end Madt

/-- `madt_get_override_for_irq`: the index of the structure whose address is returned. -/
def madtGetOverrideForIrq (fuel : Nat) (madt : Madt) (irq : BitVec 8) :
    Except Panic (Option (BitVec 64)) :=
  madt.loop (fun i => madt.interruptControllerStructure i = 2 ∧
    madt.interruptControllerStructure (i + 3) = irq) fuel 0

/-- The rest of `madt_get_ioapic`, when the address of the I/O APIC is known. -/
def ioapicAt (address : BitVec 32) (m : Machine) : Except Panic (BitVec 64 × Machine) := do
  let address := address.setWidth 64
  let m ←
    (if m.virtualToPhysical (address + m.hhdmMapping) = 0 then
      m.mapPage (address + m.hhdmMapping) address 0b11
    else pure m)
  pure (address + m.hhdmMapping, m)

/-- `madt_get_ioapic`. -/
def madtGetIoapic (fuel : Nat) (madt : Madt) (gsi : BitVec 32) (m : Machine) :
    Except Panic (BitVec 64 × Machine) := do
  let found ← madt.loop (fun i => madt.interruptControllerStructure i = 1 ∧
    madt.addr32 (i + 8) = gsi) fuel 0
  match found with
  | none => throw .noIoApicFound
  | some i => ioapicAt (madt.addr32 (i + 4)) m

/-! ## Entries -/

/-- An interrupt controller structure: its type and the bytes behind its length. -/
structure MadtEntry where
  type : BitVec 8
  body : List (BitVec 8)
  fits : body.length + 2 < 256
  ioapic : type = 1 → 12 ≤ body.length + 2
  sourceOverride : type = 2 → 10 ≤ body.length + 2

namespace MadtEntry

def size (e : MadtEntry) : Nat := e.body.length + 2

def bytes (e : MadtEntry) : List (BitVec 8) := e.type :: BitVec.ofNat 8 e.size :: e.body

theorem length_bytes (e : MadtEntry) : e.bytes.length = e.size := rfl

/-- Byte `k` of the structure. -/
def byte (e : MadtEntry) (k : Nat) : BitVec 8 := e.bytes.getD k 0

/-- Four bytes in little-endian order. -/
def dword (e : MadtEntry) (k : Nat) : BitVec 32 :=
  e.byte (k + 3) ++ e.byte (k + 2) ++ e.byte (k + 1) ++ e.byte k

/-- The fields `source`, `address` and `global_system_interrupt_base`. -/
def source (e : MadtEntry) : BitVec 8 := e.byte 3
def address (e : MadtEntry) : BitVec 32 := e.dword 4
def interruptBase (e : MadtEntry) : BitVec 32 := e.dword 8

def OverridesIrq (irq : BitVec 8) (e : MadtEntry) : Bool := e.type = 2 ∧ e.source = irq

def ServesGsi (gsi : BitVec 32) (e : MadtEntry) : Bool := e.type = 1 ∧ e.interruptBase = gsi

end MadtEntry

/-- The bytes of a list of entries. -/
def areaBytes (es : List MadtEntry) : List (BitVec 8) := es.flatMap MadtEntry.bytes

/-- The length of a list of entries, which is the offset of the one behind it. -/
def areaLength (es : List MadtEntry) : Nat := (areaBytes es).length

/-- The table consists of the entries. -/
structure Madt.Holds (madt : Madt) (es : List MadtEntry) : Prop where
  length : madt.length.toNat = 44 + areaLength es
  bytes : ∀ k b, (areaBytes es)[k]? = some b →
    madt.interruptControllerStructure (BitVec.ofNat 64 k) = b

theorem areaLength_append (es es' : List MadtEntry) :
    areaLength (es ++ es') = areaLength es + areaLength es' := by
  rw [areaLength, areaBytes, List.flatMap_append, List.length_append]
  rfl

theorem areaLength_cons (e : MadtEntry) (es : List MadtEntry) :
    areaLength (e :: es) = e.size + areaLength es := by
  rw [areaLength, areaBytes, List.flatMap_cons, List.length_append, e.length_bytes]
  rfl

theorem areaLength_singleton (e : MadtEntry) : areaLength [e] = e.size := areaLength_cons e []

namespace Madt.Holds
variable {madt : Madt} {es front back : List MadtEntry} {e : MadtEntry}

theorem limit (h : madt.Holds es) : madt.limit.toNat = areaLength es := by
  have hlength := h.length
  have hlt := madt.length.isLt
  have hsub : (madt.length - 44).toNat = areaLength es := by bv_omega
  rw [Madt.limit, BitVec.toNat_setWidth, hsub]
  omega

theorem lt_two_pow (h : madt.Holds es) : areaLength es + 44 < 2 ^ 32 := by
  have hlength := h.length
  have hlt := madt.length.isLt
  omega

/-- An index in the area. -/
theorem lt_limit_iff (h : madt.Holds es) (hk : k < 2 ^ 64) :
    BitVec.ofNat 64 k < madt.limit ↔ k < areaLength es := by
  rw [BitVec.lt_def, h.limit, BitVec.toNat_ofNat, Nat.mod_eq_of_lt hk]

/-- A byte of an entry. -/
theorem read (h : madt.Holds (front ++ e :: back)) (hk : k < e.size) :
    madt.interruptControllerStructure (BitVec.ofNat 64 (areaLength front) + BitVec.ofNat 64 k) =
      e.byte k := by
  rw [← BitVec.ofNat_add]
  refine h.bytes _ _ ?_
  have hbytes :
    areaBytes (front ++ e :: back) = areaBytes front ++ (e.bytes ++ areaBytes back) := by
    rw [areaBytes, List.flatMap_append, List.flatMap_cons]
    rfl
  have hlt : k < e.bytes.length := hk
  have hle : (areaBytes front).length ≤ areaLength front + k := Nat.le_add_right _ _
  have hsub : areaLength front + k - (areaBytes front).length = k := Nat.add_sub_cancel_left _ _
  rw [hbytes, List.getElem?_append_right hle, hsub, List.getElem?_append_left hlt, MadtEntry.byte,
    List.getD_eq_getElem?_getD, List.getElem?_eq_getElem hlt, Option.getD_some]

theorem read_type (h : madt.Holds (front ++ e :: back)) :
    madt.interruptControllerStructure (BitVec.ofNat 64 (areaLength front)) = e.type := by
  have hread := h.read (k := 0) (Nat.succ_pos _)
  rwa [BitVec.add_zero] at hread

/-- `MADT_ADDR32` puts the bytes together. -/
theorem addr32_eq (h : madt.Holds (front ++ e :: back)) (hk : k + 3 < e.size) :
    madt.addr32 (BitVec.ofNat 64 (areaLength front) + BitVec.ofNat 64 k) = e.dword k := by
  have hread (j : Nat) (hj : j ≤ 3) : madt.interruptControllerStructure
      (BitVec.ofNat 64 (areaLength front) + BitVec.ofNat 64 k + BitVec.ofNat 64 j) =
        e.byte (k + j) := by
    rw [BitVec.add_assoc, ← BitVec.ofNat_add]
    exact h.read (by omega)
  rw [Madt.addr32]
  generalize BitVec.ofNat 64 (areaLength front) + BitVec.ofNat 64 k = index at hread ⊢
  have h₀ : madt.interruptControllerStructure index = e.byte k := by
    rw [← BitVec.add_zero index]
    exact hread 0 (by decide)
  have h₁ : madt.interruptControllerStructure (index + 1) = e.byte (k + 1) := hread 1 (by decide)
  have h₂ : madt.interruptControllerStructure (index + 2) = e.byte (k + 2) := hread 2 (by decide)
  have h₃ : madt.interruptControllerStructure (index + 3) = e.byte (k + 3) := hread 3 (by decide)
  simp only [h₀, h₁, h₂, h₃, MadtEntry.dword]
  generalize e.byte (k + 3) = b₃, e.byte (k + 2) = b₂, e.byte (k + 1) = b₁, e.byte k = b₀
  apply BitVec.eq_of_getLsbD_eq
  intro i hi
  simp only [BitVec.getLsbD_or, BitVec.getLsbD_and, BitVec.getLsbD_shiftLeft,
    BitVec.getLsbD_signExtend, BitVec.getLsbD_append]
  interval_cases i <;> simp

theorem signExtend_of_lt (h : n < 128) :
    (BitVec.ofNat 8 n).signExtend 64 = BitVec.ofNat 64 n := by
  have hmsb : (BitVec.ofNat 8 n).msb = false := by
    rw [BitVec.msb_eq_decide, decide_eq_false_iff_not, BitVec.toNat_ofNat]
    omega
  rw [BitVec.signExtend_eq_setWidth_of_msb_false hmsb]
  bv_omega

theorem signExtend_of_le (h : 128 ≤ n) (hlt : n < 256) :
    (BitVec.ofNat 8 n).signExtend 64 = BitVec.ofNat 64 n - 256 := by
  have hmsb : (BitVec.ofNat 8 n).msb = true := by
    rw [BitVec.msb_eq_decide, decide_eq_true_iff, BitVec.toNat_ofNat]
    omega
  rw [BitVec.signExtend_eq_not_setWidth_not_of_msb_true hmsb]
  bv_omega

/-- The step from an entry that is shorter than 128 bytes. -/
theorem next_of_lt (h : madt.Holds (front ++ e :: back)) (hsize : e.size < 128) :
    madt.next (BitVec.ofNat 64 (areaLength front)) =
      BitVec.ofNat 64 (areaLength (front ++ [e])) := by
  have hread : madt.interruptControllerStructure (BitVec.ofNat 64 (areaLength front) + 1) =
      BitVec.ofNat 8 e.size := h.read (k := 1) (by rw [MadtEntry.size]; omega)
  rw [Madt.next, hread, signExtend_of_lt hsize, ← BitVec.ofNat_add, areaLength_append,
    areaLength_singleton]

/-- The byte of a longer one is a negative `char`. -/
theorem next_of_le (h : madt.Holds (front ++ e :: back)) (hsize : 128 ≤ e.size) :
    madt.next (BitVec.ofNat 64 (areaLength front)) =
      BitVec.ofNat 64 (areaLength (front ++ [e])) - 256 := by
  have hread : madt.interruptControllerStructure (BitVec.ofNat 64 (areaLength front) + 1) =
      BitVec.ofNat 8 e.size := h.read (k := 1) (by rw [MadtEntry.size]; omega)
  rw [Madt.next, hread, signExtend_of_le hsize e.fits, areaLength_append, areaLength_singleton,
    BitVec.ofNat_add]
  bv_omega

end Madt.Holds

/-! ## The walk -/

/-- The entries in front of the first with `p`. -/
def entriesBefore (p : MadtEntry → Bool) (es : List MadtEntry) : List MadtEntry :=
  es.takeWhile fun e => !p e

/-- The index of the first entry with `p`. -/
def firstIndex (p : MadtEntry → Bool) (es : List MadtEntry) : Option (BitVec 64) :=
  (es.find? p).map fun _ => BitVec.ofNat 64 (areaLength (entriesBefore p es))

/-- In front of the first entry with `p` there is one of 128 bytes or more; `long` is the first of
them, behind the entries `before`. -/
def FirstLong (p : MadtEntry → Bool) (es before : List MadtEntry) (long : MadtEntry) : Prop :=
  ∃ after, entriesBefore p es = before ++ long :: after ∧ (∀ e ∈ before, e.size < 128) ∧
    128 ≤ long.size

/-- The walk comes to the first entry with `p`: the entries in front of it are shorter than 128
bytes. Or there is none, and the first that is longer leads out of the area. -/
def WalkOk (p : MadtEntry → Bool) (es : List MadtEntry) : Prop :=
  (∀ e ∈ entriesBefore p es, e.size < 128) ∨
    es.find? p = none ∧ ∃ before long, FirstLong p es before long ∧
      areaLength (before ++ [long]) < 256

/-- The walk is thrown back into the middle of an entry. -/
def LandsInside (p : MadtEntry → Bool) (es : List MadtEntry) : Prop :=
  ∃ before long, FirstLong p es before long ∧ 256 ≤ areaLength (before ++ [long]) ∧
    ∀ front back, before = front ++ back → areaLength front + 256 ≠ areaLength (before ++ [long])

/-- At an entry the body of the loop finds what `p` says. -/
def Agrees (es : List MadtEntry) (found : BitVec 64 → Bool) (p : MadtEntry → Bool) : Prop :=
  ∀ front e back, es = front ++ e :: back → found (BitVec.ofNat 64 (areaLength front)) = p e

theorem exists_firstLong {p : MadtEntry → Bool} {es : List MadtEntry}
    (h : ¬∀ e ∈ entriesBefore p es, e.size < 128) : ∃ before long, FirstLong p es before long := by
  have hsplit (l : List MadtEntry) (hl : ¬∀ e ∈ l, e.size < 128) : ∃ before long after,
      l = before ++ long :: after ∧ (∀ e ∈ before, e.size < 128) ∧ 128 ≤ long.size := by
    induction l with
    | nil => simp at hl
    | cons e l ih =>
      by_cases he : e.size < 128
      · obtain ⟨before, long, after, rfl, hbefore, hlong⟩ :=
          ih fun hall => hl (List.forall_mem_cons.mpr ⟨he, hall⟩)
        exact ⟨e :: before, long, after, rfl, List.forall_mem_cons.mpr ⟨he, hbefore⟩, hlong⟩
      · exact ⟨[], e, l, rfl, by simp, Nat.le_of_not_lt he⟩
  obtain ⟨before, long, after, hes, hbefore, hlong⟩ := hsplit _ h
  exact ⟨before, long, after, hes, hbefore, hlong⟩

theorem entriesBefore_split (p : MadtEntry → Bool) (es : List MadtEntry) :
    (∀ e ∈ entriesBefore p es, p e = false) ∧
      ((es = entriesBefore p es ∧ es.find? p = none) ∨
        ∃ e back, es = entriesBefore p es ++ e :: back ∧ p e = true ∧ es.find? p = some e) := by
  induction es with
  | nil => exact ⟨by simp [entriesBefore], .inl ⟨rfl, rfl⟩⟩
  | cons e es ih =>
    cases hp : p e with
    | true =>
      have hnone : entriesBefore p (e :: es) = [] := by simp [entriesBefore, hp]
      rw [hnone, List.find?_cons_of_pos hp]
      exact ⟨by simp, .inr ⟨e, es, rfl, hp, rfl⟩⟩
    | false =>
      have hcons : entriesBefore p (e :: es) = e :: entriesBefore p es := by
        simp [entriesBefore, hp]
      rw [hcons, List.find?_cons_of_neg (by simp [hp])]
      refine ⟨List.forall_mem_cons.mpr ⟨hp, ih.1⟩, ih.2.imp ?_ ?_⟩
      · rintro ⟨hes, hfind⟩
        exact ⟨congrArg _ hes, hfind⟩
      · rintro ⟨e', back, hes, hp', hfind⟩
        exact ⟨e', back, congrArg _ hes, hp', hfind⟩

theorem FirstLong.split {p : MadtEntry → Bool} {es before : List MadtEntry} {long : MadtEntry}
    (hlong : FirstLong p es before long) :
    (∃ rest, es = before ++ long :: rest) ∧ (∀ e ∈ before, e.size < 128 ∧ p e = false) ∧
      128 ≤ long.size ∧ p long = false := by
  obtain ⟨after, hbefore, hshort, hsize⟩ := hlong
  obtain ⟨hp, -⟩ := entriesBefore_split p es
  refine ⟨⟨after ++ es.dropWhile fun e => !p e, ?_⟩, fun e he => ⟨hshort e he, hp e ?_⟩, hsize,
    hp long ?_⟩
  · rw [← List.cons_append, ← List.append_assoc, ← hbefore]
    exact List.takeWhile_append_dropWhile.symm
  · rw [hbefore]
    exact List.mem_append_left _ he
  · rw [hbefore]
    exact List.mem_append_right _ List.mem_cons_self

namespace Madt

/-- Where `MADT_LOOP` is left. -/
def stops (madt : Madt) (found : BitVec 64 → Bool) (i : BitVec 64) : Prop :=
  ¬i < madt.limit ∨ found i = true

instance : DecidablePred (stops madt found) := fun _ => inferInstanceAs (Decidable (_ ∨ _))

theorem loop_ok_iff {madt : Madt} {found : BitVec 64 → Bool} {r : Option (BitVec 64)} :
    (∃ fuel, madt.loop found fuel i = .ok r) ↔
      ∃ j, Walk.StopsAt madt.next (madt.stops found) i j ∧
        r = if j < madt.limit then some j else none := by
  refine Walk.exists_ok_iff (fun _ => rfl) fun fuel i => ?_
  rw [loop]
  by_cases hlt : i < madt.limit
  · rw [if_pos hlt]
    by_cases hfound : found i = true
    · have hstops : madt.stops found i := .inr hfound
      rw [if_pos hfound, if_pos hstops, if_pos hlt]
    · have hstops : ¬madt.stops found i := fun h => h.elim (absurd hlt) hfound
      rw [if_neg hfound, if_neg hstops]
  · have hstops : madt.stops found i := .inl hlt
    rw [if_neg hlt, if_pos hstops, if_neg hlt]

theorem loop_unique {madt : Madt} {found : BitVec 64 → Bool} {r r' : Option (BitVec 64)}
    (h : madt.loop found fuel i = .ok r) (h' : madt.loop found fuel' i = .ok r') : r = r' := by
  obtain ⟨j, hj, rfl⟩ := loop_ok_iff.mp ⟨fuel, h⟩
  obtain ⟨j', hj', rfl⟩ := loop_ok_iff.mp ⟨fuel', h'⟩
  rw [hj.unique hj']

theorem loop_error {madt : Madt} {found : BitVec 64 → Bool} {e : Panic}
    (h : madt.loop found fuel i = .error e) : e = .doesNotReturn := by
  induction fuel generalizing i with
  | zero => exact (Except.error.inj h).symm
  | succ fuel ih =>
    rw [loop] at h
    split at h
    · split at h
      · cases h
      · exact ih h
    · cases h

section
variable {madt : Madt} {es : List MadtEntry} {found : BitVec 64 → Bool} {p : MadtEntry → Bool}

theorem Holds.stops_iff (h : madt.Holds es) (hagrees : Agrees es found p)
    (hes : es = front ++ e :: back) :
    madt.stops found (BitVec.ofNat 64 (areaLength front)) ↔ p e = true := by
  have hlt := h.lt_two_pow
  have hpos : areaLength es = areaLength front + (e.size + areaLength back) := by
    rw [hes, areaLength_append, areaLength_cons]
  have hsize : 0 < e.size := Nat.succ_pos _
  have hin : BitVec.ofNat 64 (areaLength front) < madt.limit :=
    (h.lt_limit_iff (by omega)).mpr (by omega)
  rw [stops, hagrees front e back hes]
  exact or_iff_right (not_not_intro hin)

/-- The walk goes over entries that are short and not what is looked for. -/
theorem Holds.stopsAt_short (h : madt.Holds es) (hagrees : Agrees es found p)
    {front mid back : List MadtEntry} (hes : es = front ++ (mid ++ back))
    (hmid : ∀ e ∈ mid, e.size < 128 ∧ p e = false) :
    Walk.StopsAt madt.next (madt.stops found) (BitVec.ofNat 64 (areaLength front)) j ↔
      Walk.StopsAt madt.next (madt.stops found)
        (BitVec.ofNat 64 (areaLength (front ++ mid))) j := by
  induction mid generalizing front with
  | nil => rw [List.append_nil]
  | cons e mid ih =>
    obtain ⟨⟨hsize, hp⟩, hmid⟩ := List.forall_mem_cons.mp hmid
    have hes' : es = front ++ e :: (mid ++ back) := hes
    have hstops : ¬madt.stops found (BitVec.ofNat 64 (areaLength front)) := by
      rw [h.stops_iff hagrees hes', hp]
      exact Bool.false_ne_true
    have hnext := (hes' ▸ h).next_of_lt hsize
    rw [Walk.stopsAt_of_not_stop hstops, hnext]
    have hsplit : es = front ++ [e] ++ (mid ++ back) := by
      rw [hes', List.append_assoc]
      rfl
    have hrest := ih hsplit hmid
    rwa [List.append_assoc] at hrest

/-- The walk begins with the first entry. -/
theorem Holds.stopsAt_before (h : madt.Holds es) (hagrees : Agrees es found p)
    {mid back : List MadtEntry} (hes : es = mid ++ back)
    (hmid : ∀ e ∈ mid, e.size < 128 ∧ p e = false) :
    Walk.StopsAt madt.next (madt.stops found) 0 j ↔
      Walk.StopsAt madt.next (madt.stops found) (BitVec.ofNat 64 (areaLength mid)) j :=
  h.stopsAt_short hagrees (show es = [] ++ (mid ++ back) from hes) hmid

/-- With short entries only, the walk comes to the first that is looked for. -/
theorem Holds.loop_short (h : madt.Holds es) (hagrees : Agrees es found p)
    (hshort : ∀ e ∈ entriesBefore p es, e.size < 128) :
    ∃ fuel, madt.loop found fuel 0 = .ok (firstIndex p es) := by
  obtain ⟨hp, hsplit⟩ := entriesBefore_split p es
  have hmid (e : MadtEntry) (he : e ∈ entriesBefore p es) : e.size < 128 ∧ p e = false :=
    ⟨hshort e he, hp e he⟩
  refine loop_ok_iff.mpr ⟨BitVec.ofNat 64 (areaLength (entriesBefore p es)), ?_, ?_⟩
  · obtain ⟨hes, -⟩ | ⟨e, back, hes, hpe, -⟩ := hsplit
    · rw [← List.append_nil (entriesBefore p es)] at hes
      rw [h.stopsAt_before hagrees hes hmid, ← List.append_nil (entriesBefore p es), ← hes]
      refine .here (.inl ?_)
      have hlt := h.lt_two_pow
      rw [h.lt_limit_iff (by omega)]
      exact Nat.lt_irrefl _
    · rw [h.stopsAt_before hagrees hes hmid]
      exact .here ((h.stops_iff hagrees hes).mpr hpe)
  · have hlt := h.lt_two_pow
    obtain ⟨hes, hfind⟩ | ⟨e, back, hes, hpe, hfind⟩ := hsplit
    · rw [firstIndex, hfind, ← hes, if_neg]
      · rfl
      · rw [h.lt_limit_iff (by omega)]
        exact Nat.lt_irrefl _
    · have hlength :
        areaLength es = areaLength (entriesBefore p es) + (e.size + areaLength back) := by
        rw [← areaLength_cons, ← areaLength_append, ← hes]
      have hsize : 0 < e.size := Nat.succ_pos _
      rw [firstIndex, hfind, if_pos ((h.lt_limit_iff (by omega)).mpr (by omega))]
      rfl

section
variable {before : List MadtEntry} {long : MadtEntry}

/-- The first long entry throws the walk back. -/
theorem Holds.next_long (h : madt.Holds es) (hagrees : Agrees es found p)
    (hlong : FirstLong p es before long) :
    ¬madt.stops found (BitVec.ofNat 64 (areaLength before)) ∧
      madt.next (BitVec.ofNat 64 (areaLength before)) =
        BitVec.ofNat 64 (areaLength (before ++ [long])) - 256 := by
  obtain ⟨⟨rest, hes⟩, -, hsize, hp⟩ := hlong.split
  refine ⟨?_, (hes ▸ h).next_of_le hsize⟩
  rw [h.stops_iff hagrees hes, hp]
  exact Bool.false_ne_true

/-- In front of index 256 it is thrown out of the area. -/
theorem Holds.loop_leaves (h : madt.Holds es) (hagrees : Agrees es found p)
    (hlong : FirstLong p es before long) (hlt : areaLength (before ++ [long]) < 256) :
    ∃ fuel, madt.loop found fuel 0 = .ok none := by
  obtain ⟨⟨rest, hes⟩, hmid, -⟩ := hlong.split
  obtain ⟨hstops, hnext⟩ := h.next_long hagrees hlong
  have hlimit := h.limit
  have hbound := h.lt_two_pow
  have hout : ¬BitVec.ofNat 64 (areaLength (before ++ [long])) - 256 < madt.limit := by
    bv_omega
  refine loop_ok_iff.mpr ⟨_, ?_, (if_neg hout).symm⟩
  rw [h.stopsAt_before hagrees hes hmid, Walk.stopsAt_of_not_stop hstops, hnext]
  exact .here (.inl hout)

/-- Back at an entry that it has come from, the walk goes on for ever. -/
theorem Holds.not_loop_ok (h : madt.Holds es) (hagrees : Agrees es found p)
    (hlong : FirstLong p es before long) {front back : List MadtEntry}
    (hbefore : before = front ++ back)
    (hback : areaLength front + 256 = areaLength (before ++ [long])) :
    ¬∃ fuel, madt.loop found fuel 0 = .ok r := by
  obtain ⟨⟨rest, hes⟩, hmid, -⟩ := hlong.split
  intro hok
  obtain ⟨j, hj, -⟩ := loop_ok_iff.mp hok
  -- the walk stays at the entries up to the long one
  refine Walk.not_stopsAt (fun i => ∃ front back, before = front ++ back ∧
    i = BitVec.ofNat 64 (areaLength front)) ?_ ⟨[], before, rfl, rfl⟩ hj
  rintro _ ⟨front', back', hbefore', rfl⟩
  cases back' with
  | nil =>
    obtain rfl : front' = before := (List.append_nil front').symm.trans hbefore'.symm
    obtain ⟨hstops, hnext⟩ := h.next_long hagrees hlong
    refine ⟨hstops, front, back, hbefore, ?_⟩
    rw [hnext, ← hback, BitVec.ofNat_add]
    exact BitVec.add_sub_cancel _ _
  | cons e back' =>
    obtain ⟨hsize, hp⟩ := hmid e (hbefore' ▸ List.mem_append_right _ List.mem_cons_self)
    have hes' : es = front' ++ e :: (back' ++ long :: rest) := by
      rw [hes, hbefore', List.append_assoc]
      rfl
    refine ⟨?_, front' ++ [e], back', ?_, (hes' ▸ h).next_of_lt hsize⟩
    · rw [h.stops_iff hagrees hes', hp]
      exact Bool.false_ne_true
    · rw [hbefore', List.append_assoc]
      rfl

end

/-- `MADT_LOOP` gives the index of the first entry with `p` under the condition, and otherwise only
if the walk has come into the middle of an entry. -/
theorem Holds.loop_first (h : madt.Holds es) (hagrees : Agrees es found p) :
    (WalkOk p es → ∃ fuel, madt.loop found fuel 0 = .ok (firstIndex p es)) ∧
      (¬WalkOk p es → ¬LandsInside p es → (¬∃ fuel r, madt.loop found fuel 0 = .ok r) ∨
        (∃ fuel, madt.loop found fuel 0 = .ok none) ∧ (es.find? p).isSome) := by
  constructor
  · rintro (hshort | ⟨hnone, before, long, hlong, hlt⟩)
    · exact h.loop_short hagrees hshort
    · rw [firstIndex, hnone]
      exact h.loop_leaves hagrees hlong hlt
  · intro hwalk hinside
    obtain ⟨before, long, hlong⟩ := exists_firstLong fun hshort => hwalk (.inl hshort)
    by_cases hlt : areaLength (before ++ [long]) < 256
    · refine .inr ⟨h.loop_leaves hagrees hlong hlt, ?_⟩
      rw [← Option.ne_none_iff_isSome]
      intro hnone
      exact hwalk (.inr ⟨hnone, before, long, hlong, hlt⟩)
    · refine .inl ?_
      rintro ⟨fuel, r, hok⟩
      refine hinside ⟨before, long, hlong, Nat.le_of_not_lt hlt, fun front back hbefore hback => ?_⟩
      exact h.not_loop_ok hagrees hlong hbefore hback ⟨fuel, hok⟩

end

end Madt

/-! ## The lookups -/

/-- `madt_get_override_for_irq` returns the index of the first source override for `irq`, and `NULL`
if there is none. -/
def FindsOverride (madt : Madt) (es : List MadtEntry) (irq : BitVec 8) : Prop :=
  ∃ fuel, madtGetOverrideForIrq fuel madt irq = .ok (firstIndex (MadtEntry.OverridesIrq irq) es)

/-- `madt_get_ioapic` takes the first I/O APIC with the base `gsi`, and panics if there is none. -/
def SelectsIoapic (madt : Madt) (es : List MadtEntry) (gsi : BitVec 32) : Prop :=
  ∃ fuel, ∀ m, madtGetIoapic fuel madt gsi m =
    match es.find? (MadtEntry.ServesGsi gsi) with
    | none => .error .noIoApicFound
    | some e => ioapicAt e.address m

namespace Madt.Holds
variable {madt : Madt} {es : List MadtEntry}

theorem agrees_override (h : madt.Holds es) (irq : BitVec 8) :
    Agrees es (fun i => madt.interruptControllerStructure i = 2 ∧
      madt.interruptControllerStructure (i + 3) = irq) (MadtEntry.OverridesIrq irq) := by
  intro front e back hes
  subst hes
  dsimp only
  rw [h.read_type, MadtEntry.OverridesIrq]
  refine decide_eq_decide.mpr (and_congr_right fun htype => ?_)
  have hsize : 10 ≤ e.size := e.sourceOverride htype
  have hread := h.read (k := 3) (by omega)
  rw [MadtEntry.source, ← hread]
  rfl

theorem agrees_ioapic (h : madt.Holds es) (gsi : BitVec 32) :
    Agrees es (fun i => madt.interruptControllerStructure i = 1 ∧ madt.addr32 (i + 8) = gsi)
      (MadtEntry.ServesGsi gsi) := by
  intro front e back hes
  subst hes
  dsimp only
  rw [h.read_type, MadtEntry.ServesGsi]
  refine decide_eq_decide.mpr (and_congr_right fun htype => ?_)
  have hsize : 12 ≤ e.size := e.ioapic htype
  have hread := h.addr32_eq (k := 8) (by omega)
  rw [MadtEntry.interruptBase, ← hread]
  rfl

/-- The index that the loop gives is that of the entry whose address is taken. -/
theorem selectsIoapic_of_loop (h : madt.Holds es) {gsi : BitVec 32}
    (hloop : ∃ fuel, madt.loop (fun i => madt.interruptControllerStructure i = 1 ∧
      madt.addr32 (i + 8) = gsi) fuel 0 = .ok (firstIndex (MadtEntry.ServesGsi gsi) es)) :
    SelectsIoapic madt es gsi := by
  obtain ⟨fuel, hloop⟩ := hloop
  refine ⟨fuel, fun m => ?_⟩
  rw [madtGetIoapic, hloop, firstIndex]
  obtain ⟨-, ⟨-, hfind⟩ | ⟨e, back, hes, hp, hfind⟩⟩ :=
    entriesBefore_split (MadtEntry.ServesGsi gsi) es
  · rw [hfind]
    rfl
  · have htype : e.type = 1 := (of_decide_eq_true hp).1
    have hsize : 12 ≤ e.size := e.ioapic htype
    have haddress : madt.addr32 (BitVec.ofNat 64 (areaLength
        (entriesBefore (MadtEntry.ServesGsi gsi) es)) + 4) = e.address :=
      (hes ▸ h).addr32_eq (k := 4) (by omega)
    rw [hfind, Option.map_some, ok_bind]
    dsimp only
    rw [haddress]

end Madt.Holds

/-- A machine in which every address is mapped. -/
def allMapped : Machine where
  mem _ := { PageEntry.zero with address := 1 }
  hhdmMapping := 0
  pageTable := 0
  allocator := ⟨[], ⟨false, 0, 0⟩⟩

theorem ioapicAt_allMapped (address : BitVec 32) :
    ioapicAt address allMapped = .ok (address.setWidth 64 + 0, allMapped) := by
  have hmapped (v : BitVec 64) : allMapped.virtualToPhysical v ≠ 0 := by
    have hne : ({ PageEntry.zero with address := 1 } : PageEntry).physical ≠ 0 := by decide
    have hpages (table : BitVec 64) (i : Fin 512) :
        allMapped.pages table i = { PageEntry.zero with address := 1 } := rfl
    simp only [Machine.virtualToPhysical, hpages, hne, if_false]
    exact hne
  simp only [ioapicAt, if_neg (hmapped _)]
  rfl

/-- A lookup that does not return, or panics though there is an I/O APIC, selects nothing. -/
theorem not_selectsIoapic {madt : Madt} {es : List MadtEntry} {gsi : BitVec 32}
    {found : BitVec 64 → Bool}
    (hfound : found = fun i => madt.interruptControllerStructure i = 1 ∧ madt.addr32 (i + 8) = gsi)
    (hloop : (¬∃ fuel r, madt.loop found fuel 0 = .ok r) ∨
      (∃ fuel, madt.loop found fuel 0 = .ok none) ∧
        (es.find? (MadtEntry.ServesGsi gsi)).isSome) :
    ¬SelectsIoapic madt es gsi := by
  subst hfound
  rintro ⟨fuel, hselects⟩
  have h := hselects allMapped
  rw [madtGetIoapic] at h
  cases hr : madt.loop (fun i => madt.interruptControllerStructure i = 1 ∧
      madt.addr32 (i + 8) = gsi) fuel 0 with
  | error e =>
    rw [hr, Madt.loop_error hr, error_bind] at h
    cases hfind : es.find? (MadtEntry.ServesGsi gsi) with
    | none =>
      rw [hfind] at h
      cases h
    | some e =>
      rw [hfind] at h
      cases h.trans (ioapicAt_allMapped e.address)
  | ok r =>
    obtain hnever | ⟨⟨fuel', hnone⟩, hsome⟩ := hloop
    · exact hnever ⟨fuel, r, hr⟩
    · obtain ⟨e, hfind⟩ := Option.isSome_iff_exists.mp hsome
      obtain rfl := Madt.loop_unique hr hnone
      rw [hr, ok_bind, hfind] at h
      cases h.trans (ioapicAt_allMapped e.address)

/-- Both lookups find the first entry that matches if the entries in front of it are shorter than
128 bytes, or if there is none and the first entry that is longer ends in front of index 256; and
otherwise only if the walk is thrown back into the middle of an entry. -/
theorem madtLookups_first (madt : Madt) (es : List MadtEntry) (h : madt.Holds es) (irq : BitVec 8)
    (gsi : BitVec 32) :
    ((WalkOk (MadtEntry.OverridesIrq irq) es → FindsOverride madt es irq) ∧
      (FindsOverride madt es irq →
        WalkOk (MadtEntry.OverridesIrq irq) es ∨ LandsInside (MadtEntry.OverridesIrq irq) es)) ∧
    (WalkOk (MadtEntry.ServesGsi gsi) es → SelectsIoapic madt es gsi) ∧
      (SelectsIoapic madt es gsi →
        WalkOk (MadtEntry.ServesGsi gsi) es ∨ LandsInside (MadtEntry.ServesGsi gsi) es) := by
  obtain ⟨hfinds, hfails⟩ := h.loop_first (h.agrees_override irq)
  obtain ⟨hselects, hpanics⟩ := h.loop_first (h.agrees_ioapic gsi)
  refine ⟨⟨hfinds, fun hfound => ?_⟩, fun hwalk => h.selectsIoapic_of_loop (hselects hwalk),
    fun hfound => ?_⟩
  · obtain ⟨fuel, hfound⟩ := hfound
    by_contra hnot
    obtain ⟨hwalk, hinside⟩ := not_or.mp hnot
    obtain hnever | ⟨⟨fuel', hnone⟩, hsome⟩ := hfails hwalk hinside
    · exact hnever ⟨fuel, _, hfound⟩
    · have hindex : firstIndex (MadtEntry.OverridesIrq irq) es = none :=
        Madt.loop_unique hfound hnone
      rw [firstIndex, Option.map_eq_none_iff] at hindex
      rw [hindex] at hsome
      exact absurd hsome Bool.false_ne_true
  · by_contra hnot
    obtain ⟨hwalk, hinside⟩ := not_or.mp hnot
    exact not_selectsIoapic rfl (hpanics hwalk hinside) hfound

/-- The table of the entries, with zeros behind it. -/
def madtOf (es : List MadtEntry) : Madt where
  length := BitVec.ofNat 32 (44 + areaLength es)
  interruptControllerStructure i := (areaBytes es).getD i.toNat 0

theorem madtOf_holds {es : List MadtEntry} (h : 44 + areaLength es < 2 ^ 32) :
    (madtOf es).Holds es where
  length := (BitVec.toNat_ofNat _ _).trans (Nat.mod_eq_of_lt h)
  bytes k b hb := by
    obtain ⟨hlt, -⟩ := List.getElem?_eq_some_iff.mp hb
    have hk : k < areaLength es := hlt
    have hval : (BitVec.ofNat 64 k).toNat = k :=
      (BitVec.toNat_ofNat _ _).trans (Nat.mod_eq_of_lt (by omega))
    change (areaBytes es).getD (BitVec.ofNat 64 k).toNat 0 = b
    rw [hval, List.getD_eq_getElem?_getD, hb, Option.getD_some]

/-- The timer's interrupt 0 is overridden, as on most machines. -/
def timerOverride : MadtEntry where
  type := 2
  body := [0, 0, 2, 0, 0, 0, 0, 0]
  fits := by decide
  ioapic := by decide
  sourceOverride := by decide

/-- An entry of 128 bytes. -/
def longEntry : MadtEntry where
  type := 0x80
  body := List.replicate 126 0
  fits := by rw [List.length_replicate]; decide
  ioapic := by decide
  sourceOverride := by decide

/-- A local APIC, an I/O APIC, and the override of the keyboard's interrupt 1. -/
def frontEntries : List MadtEntry :=
  [{ type := 0, body := [0, 0, 1, 0, 0, 0], fits := by decide, ioapic := by decide,
     sourceOverride := by decide },
   { type := 1, body := [2, 0, 0, 0, 0xC0, 0xFE, 0, 0, 0, 0], fits := by decide,
     ioapic := by decide, sourceOverride := by decide },
   { type := 2, body := [0, 1, 1, 0, 0, 0, 0, 0], fits := by decide, ioapic := by decide,
     sourceOverride := by decide }]

/-- The override of the timer is found behind the other entries, at index 30. -/
theorem madtLookups_first_timer :
    firstIndex (MadtEntry.OverridesIrq 0) (frontEntries ++ [timerOverride]) = some 30 ∧
      FindsOverride (madtOf (frontEntries ++ [timerOverride])) (frontEntries ++ [timerOverride]) 0 ∧
      SelectsIoapic (madtOf (frontEntries ++ [timerOverride])) (frontEntries ++ [timerOverride]) 0 := by
  have h := madtLookups_first (madtOf (frontEntries ++ [timerOverride]))
    (frontEntries ++ [timerOverride]) (madtOf_holds (by decide)) 0 0
  exact ⟨by decide, h.1.1 (.inl (by decide)), h.2.1 (.inl (by decide))⟩

/-- Behind an entry of 128 bytes the override of the timer is not found. -/
theorem madtLookups_overlook :
    (madtOf [longEntry, timerOverride]).Holds [longEntry, timerOverride] ∧
    ¬FindsOverride (madtOf [longEntry, timerOverride]) [longEntry, timerOverride] 0 := by
  have hsize : longEntry.size = 128 := congrArg (· + 2) List.length_replicate
  have hlength : areaLength [longEntry, timerOverride] = 128 + 10 := by
    rw [areaLength_cons, areaLength_singleton, hsize]
    rfl
  have hholds : (madtOf [longEntry, timerOverride]).Holds [longEntry, timerOverride] :=
    madtOf_holds (by rw [hlength]; decide)
  have hlong : FirstLong (MadtEntry.OverridesIrq 0) [longEntry, timerOverride] [] longEntry :=
    ⟨[], rfl, by simp, Nat.le_of_eq hsize.symm⟩
  have hthrown : areaLength ([] ++ [longEntry]) < 256 := by
    rw [List.nil_append, areaLength_singleton, hsize]
    decide
  refine ⟨hholds, ?_⟩
  rintro ⟨fuel, hfinds⟩
  obtain ⟨fuel', hnone⟩ := hholds.loop_leaves (hholds.agrees_override 0) hlong hthrown
  cases Madt.loop_unique hfinds hnone

end Lethe
