import Lethe.Lib.Descent
import Lethe.Kernel.Madt

/-!
# The reads of a walk through the MADT

The loops of `madt.c` again, with every read of the table checked: it has to be among the bytes that
`header.length` counts. Nothing in `MADT_LOOP` makes sure of that, and nothing that a round makes
progress. A walk is one within the table if every entry that it comes to reaches as far as it is
read, and none of them leads back to itself.
-/

namespace Lethe

/-! ## The code -/

/-- Why a walk is not one that ends within the table. -/
inductive MadtFault
  | readOutside (offset : Nat)
  | doesNotReturn
  deriving DecidableEq, Repr

namespace Madt
variable (madt : Madt)

/-- `madt->interrupt_controller_structure[i]`, which is 44 bytes behind the front of the table. -/
def read (i : BitVec 64) : Except MadtFault (BitVec 8) :=
  if 44 + i.toNat < madt.length.toNat then .ok (madt.interruptControllerStructure i)
  else .error (.readOutside (44 + i.toNat))

/-- `MADT_ADDR32`. -/
def readAddr32 (index : BitVec 64) : Except MadtFault (BitVec 32) := do
  let _ ← madt.read (index + 3)
  let _ ← madt.read (index + 2)
  let _ ← madt.read (index + 1)
  let _ ← madt.read index
  pure (madt.addr32 index)

/-- The body of `madt_get_override_for_irq`: whether it returns. -/
def overrideBody (irq : BitVec 8) (i : BitVec 64) : Except MadtFault Bool := do
  let type ← madt.read i
  if type ≠ 2 then pure false
  else
    let currentIrq ← madt.read (i + 3)
    if currentIrq ≠ irq then pure false
    else pure true

/-- The body of `madt_get_ioapic`, up to the address of the I/O APIC. -/
def ioapicBody (gsi : BitVec 32) (i : BitVec 64) : Except MadtFault Bool := do
  let type ← madt.read i
  if type ≠ 1 then pure false
  else
    let currentGsi ← madt.readAddr32 (i + 8)
    if currentGsi ≠ gsi then pure false
    else
      let _ ← madt.readAddr32 (i + 4)
      pure true

/-- `MADT_LOOP`. -/
def walk (body : BitVec 64 → Except MadtFault Bool) :
    Nat → BitVec 64 → Except MadtFault (Option (BitVec 64))
  | 0, _ => .error .doesNotReturn
  | fuel + 1, i =>
    if i < madt.limit then do
      if ← body i then pure (some i)
      else
        let length ← madt.read (i + 1)
        walk body fuel (i + length.signExtend 64)
    else pure none

/-- The walk ends, and every byte that it reads is one of the table. -/
def WalkInside (body : BitVec 64 → Except MadtFault Bool) : Prop :=
  ∃ fuel r, madt.walk body fuel 0 = .ok r

end Madt

/-! ## A round -/

namespace Madt
variable (madt : Madt)

/-- The structure that `madt_get_override_for_irq` looks for. -/
def overrides (irq : BitVec 8) (i : BitVec 64) : Bool :=
  madt.interruptControllerStructure i = 2 ∧ madt.interruptControllerStructure (i + 3) = irq

/-- The structure that `madt_get_ioapic` looks for. -/
def serves (gsi : BitVec 32) (i : BitVec 64) : Bool :=
  madt.interruptControllerStructure i = 1 ∧ madt.addr32 (i + 8) = gsi

/-- The entry at `i` is read up to its byte `field` if it has the type `type`, and else up to its
length. -/
def Inside (type : BitVec 8) (field : Nat) (i : BitVec 64) : Prop :=
  44 + i.toNat + (if madt.interruptControllerStructure i = type then field else 1) <
    madt.length.toNat

/-- The walk goes from the entry at `i` to that at `j`. -/
def Next (found : BitVec 64 → Bool) (i j : BitVec 64) : Prop :=
  i < madt.limit ∧ found i = false ∧ j = madt.next i ∧ j < madt.limit

variable {madt} {body : BitVec 64 → Except MadtFault Bool} {found : BitVec 64 → Bool}
  {type : BitVec 8} {field : Nat} {i : BitVec 64} {k : Nat}

/-- In the area an index is far from wrapping round. -/
theorem toNat_add_lt_limit (h : i < madt.limit) (hk : k < 16) :
    (i + BitVec.ofNat 64 k).toNat = i.toNat + k := by
  have hlt : i.toNat < (madt.length - 44).toNat := by
    rwa [BitVec.lt_def, limit, BitVec.toNat_setWidth, Nat.mod_eq_of_lt (by omega)] at h
  rw [BitVec.toNat_add, BitVec.toNat_ofNat]
  omega

theorem read_eq_ok (h : i < madt.limit) (hk : k < 16) :
    madt.read (i + BitVec.ofNat 64 k) = .ok b ↔
      44 + i.toNat + k < madt.length.toNat ∧
        b = madt.interruptControllerStructure (i + BitVec.ofNat 64 k) := by
  rw [Madt.read, toNat_add_lt_limit h hk, ← Nat.add_assoc]
  split
  · next hin => exact ⟨fun hb => ⟨hin, (Except.ok.inj hb).symm⟩, fun hb => congrArg _ hb.2.symm⟩
  · next hout => exact iff_of_false (fun hb => nomatch hb) fun hb => hout hb.1

theorem read_type_eq_ok (h : i < madt.limit) :
    madt.read i = .ok b ↔
      44 + i.toNat < madt.length.toNat ∧ b = madt.interruptControllerStructure i := by
  have hread := read_eq_ok (b := b) h (Nat.succ_pos 15)
  rwa [BitVec.add_zero] at hread

/-- The first of the four bytes that is read is the last one. -/
theorem readAddr32_eq_ok (h : i < madt.limit) (hk : k < 12) :
    madt.readAddr32 (i + BitVec.ofNat 64 k) = .ok a ↔
      44 + i.toNat + (k + 3) < madt.length.toNat ∧ a = madt.addr32 (i + BitVec.ofNat 64 k) := by
  have hadd (j : Nat) : i + BitVec.ofNat 64 k + BitVec.ofNat 64 j = i + BitVec.ofNat 64 (k + j) := by
    rw [BitVec.add_assoc, ← BitVec.ofNat_add]
  have h₃ (b) := read_eq_ok (b := b) h (show k + 3 < 16 by omega)
  have h₂ (b) := read_eq_ok (b := b) h (show k + 2 < 16 by omega)
  have h₁ (b) := read_eq_ok (b := b) h (show k + 1 < 16 by omega)
  have h₀ (b) := read_eq_ok (b := b) h (show k < 16 by omega)
  rw [← hadd] at h₁ h₂ h₃
  constructor
  · intro hok
    obtain ⟨_, hread, hok⟩ := bind_eq_ok.mp hok
    obtain ⟨_, _, hok⟩ := bind_eq_ok.mp hok
    obtain ⟨_, _, hok⟩ := bind_eq_ok.mp hok
    obtain ⟨_, _, hok⟩ := bind_eq_ok.mp hok
    exact ⟨((h₃ _).mp hread).1, (Except.ok.inj hok).symm⟩
  · rintro ⟨hin, rfl⟩
    refine bind_eq_ok.mpr ⟨_, (h₃ _).mpr ⟨hin, rfl⟩, ?_⟩
    refine bind_eq_ok.mpr ⟨_, (h₂ _).mpr ⟨by omega, rfl⟩, ?_⟩
    refine bind_eq_ok.mpr ⟨_, (h₁ _).mpr ⟨by omega, rfl⟩, ?_⟩
    exact bind_eq_ok.mpr ⟨_, (h₀ _).mpr ⟨by omega, rfl⟩, rfl⟩

/-- The body of a lookup reads entries of the type `type` up to their byte `field`, and of others
only the type. -/
structure Looks (madt : Madt) (body : BitVec 64 → Except MadtFault Bool) (type : BitVec 8)
    (field : Nat) (found : BitVec 64 → Bool) : Prop where
  pos : 0 < field
  type_of_found : ∀ i, found i = true → madt.interruptControllerStructure i = type
  body_ok : ∀ i < madt.limit, 44 + i.toNat + (if madt.interruptControllerStructure i = type then
    field else 0) < madt.length.toNat → body i = .ok (found i)
  inside_of_ok : ∀ i < madt.limit, ∀ r, body i = .ok r → 44 + i.toNat +
    (if madt.interruptControllerStructure i = type then field else 0) < madt.length.toNat

theorem looks_override (madt : Madt) (irq : BitVec 8) :
    madt.Looks (madt.overrideBody irq) 2 3 (madt.overrides irq) where
  pos := Nat.succ_pos 2
  type_of_found i h := (of_decide_eq_true h).1
  body_ok i hi hin := by
    have htype := (read_type_eq_ok hi).mpr ⟨by omega, rfl⟩
    rw [overrideBody, htype, ok_bind, overrides]
    split
    · next hne => rw [decide_eq_false fun h => hne h.1]; rfl
    · next heq =>
      rw [if_pos (not_not.mp heq)] at hin
      have hread : madt.read (i + 3) = .ok (madt.interruptControllerStructure (i + 3)) :=
        (read_eq_ok hi (show 3 < 16 by decide)).mpr ⟨hin, rfl⟩
      rw [hread, ok_bind, decide_eq_decide.mpr (and_iff_right (not_not.mp heq))]
      split
      · next hirq => rw [decide_eq_false hirq]; rfl
      · next hirq => rw [decide_eq_true (not_not.mp hirq)]; rfl
  inside_of_ok i hi r hok := by
    rw [overrideBody] at hok
    obtain ⟨b, hb, hok⟩ := bind_eq_ok.mp hok
    obtain ⟨hin, rfl⟩ := (read_type_eq_ok hi).mp hb
    split
    · next heq =>
      rw [if_neg (not_not.mpr heq)] at hok
      obtain ⟨c, hc, -⟩ := bind_eq_ok.mp hok
      exact ((read_eq_ok hi (show 3 < 16 by decide)).mp hc).1
    · exact hin

theorem looks_ioapic (madt : Madt) (gsi : BitVec 32) :
    madt.Looks (madt.ioapicBody gsi) 1 11 (madt.serves gsi) where
  pos := Nat.succ_pos 10
  type_of_found i h := (of_decide_eq_true h).1
  body_ok i hi hin := by
    have htype := (read_type_eq_ok hi).mpr ⟨by omega, rfl⟩
    rw [ioapicBody, htype, ok_bind, serves]
    split
    · next hne => rw [decide_eq_false fun h => hne h.1]; rfl
    · next heq =>
      rw [if_pos (not_not.mp heq)] at hin
      have hgsi : madt.readAddr32 (i + 8) = .ok (madt.addr32 (i + 8)) :=
        (readAddr32_eq_ok hi (show 8 < 12 by decide)).mpr ⟨hin, rfl⟩
      have haddress : madt.readAddr32 (i + 4) = .ok (madt.addr32 (i + 4)) :=
        (readAddr32_eq_ok hi (show 4 < 12 by decide)).mpr ⟨by omega, rfl⟩
      rw [hgsi, ok_bind, decide_eq_decide.mpr (and_iff_right (not_not.mp heq))]
      split
      · next hirq => rw [decide_eq_false hirq]; rfl
      · next hirq => rw [haddress, decide_eq_true (not_not.mp hirq)]; rfl
  inside_of_ok i hi r hok := by
    rw [ioapicBody] at hok
    obtain ⟨b, hb, hok⟩ := bind_eq_ok.mp hok
    obtain ⟨hin, rfl⟩ := (read_type_eq_ok hi).mp hb
    split
    · next heq =>
      rw [if_neg (not_not.mpr heq)] at hok
      obtain ⟨c, hc, -⟩ := bind_eq_ok.mp hok
      exact ((readAddr32_eq_ok hi (show 8 < 12 by decide)).mp hc).1
    · exact hin

/-! ## The walk -/

namespace Looks

/-- A round: the entry is read as far as its length, and the walk goes on behind it. -/
theorem walk_succ_ok_iff (h : madt.Looks body type field found) (hi : i < madt.limit) {fuel : Nat} :
    (∃ r, madt.walk body (fuel + 1) i = .ok r) ↔ madt.Inside type field i ∧
      (found i = false → ∃ r, madt.walk body fuel (madt.next i) = .ok r) := by
  have hpos := h.pos
  have hread (b) := read_eq_ok (b := b) hi (show 1 < 16 by decide)
  rw [walk, if_pos hi]
  constructor
  · rintro ⟨r, hok⟩
    obtain ⟨b, hb, hok⟩ := bind_eq_ok.mp hok
    have hin := h.inside_of_ok i hi b hb
    obtain rfl : found i = b := Except.ok.inj ((h.body_ok i hi hin).symm.trans hb)
    rw [Inside]
    split at hok
    · next hfound =>
      rw [if_pos (h.type_of_found i hfound)] at hin ⊢
      exact ⟨hin, fun hnot => absurd hfound (hnot ▸ Bool.false_ne_true)⟩
    · next hfound =>
      obtain ⟨b, hb, hok⟩ := bind_eq_ok.mp hok
      obtain ⟨hlength, rfl⟩ := (hread b).mp hb
      refine ⟨?_, fun _ => ⟨r, hok⟩⟩
      split
      · next htype => rwa [if_pos htype] at hin
      · exact hlength
  · rintro ⟨hin, hnext⟩
    rw [Inside] at hin
    have hle : (if madt.interruptControllerStructure i = type then field else 0) ≤
        if madt.interruptControllerStructure i = type then field else 1 := by
      split <;> omega
    have hbody := h.body_ok i hi (Nat.lt_of_le_of_lt (Nat.add_le_add_left hle _) hin)
    have hlength : madt.read (i + 1) = .ok (madt.interruptControllerStructure (i + 1)) :=
      (hread _).mpr ⟨by split at hin <;> omega, rfl⟩
    rw [hbody, ok_bind]
    split
    · exact ⟨_, rfl⟩
    · next hfound =>
      rw [hlength]
      exact hnext (Bool.eq_false_of_not_eq_true hfound)

theorem bounded_of_ok (h : madt.Looks body type field found) {fuel : Nat}
    (hok : ∃ r, madt.walk body fuel i = .ok r) :
    Descent.Bounded (madt.Next found) fuel i := by
  induction fuel generalizing i with
  | zero =>
    obtain ⟨r, hr⟩ := hok
    cases hr
  | succ fuel ih =>
    rintro j ⟨hi, hfound, rfl, -⟩
    exact ih (((h.walk_succ_ok_iff hi).mp hok).2 hfound)

theorem inside_of_walk_ok (h : madt.Looks body type field found) {fuel : Nat}
    (hok : ∃ r, madt.walk body fuel i = .ok r) (hi : i < madt.limit) :
    madt.Inside type field i := by
  cases fuel with
  | zero =>
    obtain ⟨r, hr⟩ := hok
    cases hr
  | succ fuel => exact ((h.walk_succ_ok_iff hi).mp hok).1

theorem ok_of_reaches (h : madt.Looks body type field found)
    (hok : ∃ fuel r, madt.walk body fuel i = .ok r)
    (hreach : Relation.ReflTransGen (madt.Next found) i j) :
    ∃ fuel r, madt.walk body fuel j = .ok r := by
  induction hreach with
  | refl => exact hok
  | tail _ hnext ih =>
    obtain ⟨fuel, hok⟩ := ih
    obtain ⟨hi, hfound, rfl, -⟩ := hnext
    cases fuel with
    | zero =>
      obtain ⟨r, hr⟩ := hok
      cases hr
    | succ fuel => exact ⟨fuel, ((h.walk_succ_ok_iff hi).mp hok).2 hfound⟩

theorem ok_of_bounded (h : madt.Looks body type field found) {n : Nat}
    (hn : Descent.Bounded (madt.Next found) n i)
    (hin : ∀ j, Relation.ReflTransGen (madt.Next found) i j → j < madt.limit →
      madt.Inside type field j) :
    ∃ r, madt.walk body (n + 1) i = .ok r := by
  by_cases hi : i < madt.limit
  · induction n generalizing i with
    | zero => exact hn.elim
    | succ n ih =>
      refine (h.walk_succ_ok_iff hi).mpr ⟨hin i .refl hi, fun hfound => ?_⟩
      by_cases hlt : madt.next i < madt.limit
      · have hnext : madt.Next found i (madt.next i) := ⟨hi, hfound, rfl, hlt⟩
        exact ih (hn _ hnext) (fun j hj => hin j (.head hnext hj)) hlt
      · exact ⟨none, by rw [walk, if_neg hlt]; rfl⟩
  · exact ⟨none, by rw [walk, if_neg hi]; rfl⟩

/-- The walk ends within the table exactly if every entry that it comes to is inside and does not
lead back to itself. -/
theorem walkInside_iff (h : madt.Looks body type field found) :
    madt.WalkInside body ↔ 44 ≤ madt.length.toNat ∧
      ∀ i, Relation.ReflTransGen (madt.Next found) 0 i → i < madt.limit →
        madt.Inside type field i ∧ ¬Relation.TransGen (madt.Next found) i i := by
  constructor
  · rintro hok
    constructor
    · apply Nat.le_of_not_lt
      intro hlt
      have hi : 0 < madt.limit := by
        rw [limit]
        bv_omega
      obtain ⟨fuel, hok⟩ := hok
      have hin := h.inside_of_walk_ok hok hi
      rw [Inside] at hin
      omega
    · intro i hreach hi
      obtain ⟨fuel, hok⟩ := h.ok_of_reaches hok hreach
      exact ⟨h.inside_of_walk_ok hok hi, (h.bounded_of_ok hok).not_cycle⟩
  · rintro ⟨-, hall⟩
    have : Finite (BitVec 64) :=
      Finite.of_injective BitVec.toFin fun _ _ hij => BitVec.eq_of_toFin_eq hij
    obtain ⟨n, hn⟩ : ∃ n, Descent.Bounded (madt.Next found) n 0 := by
      refine Descent.exists_bounded_iff.mpr fun i hreach hcycle => ?_
      obtain ⟨j, hnext, -⟩ := Relation.TransGen.head'_iff.mp hcycle
      exact (hall i hreach hnext.1).2 hcycle
    exact ⟨n + 1, h.ok_of_bounded hn fun i hreach hi => (hall i hreach hi).1⟩

/-- A walk within the table is the walk of the code. -/
theorem loop_eq_of_walk_ok (h : madt.Looks body type field found) {fuel : Nat}
    {r : Option (BitVec 64)} (hok : madt.walk body fuel i = .ok r) :
    madt.loop found fuel i = .ok r := by
  induction fuel generalizing i with
  | zero => cases hok
  | succ fuel ih =>
    rw [walk] at hok
    rw [loop]
    split
    · next hi =>
      rw [if_pos hi] at hok
      obtain ⟨b, hb, hok⟩ := bind_eq_ok.mp hok
      obtain rfl : found i = b :=
        Except.ok.inj ((h.body_ok i hi (h.inside_of_ok i hi b hb)).symm.trans hb)
      split
      · next hfound =>
        rw [if_pos hfound] at hok
        exact congrArg _ (Except.ok.inj hok)
      · next hfound =>
        rw [if_neg hfound] at hok
        obtain ⟨length, hlength, hok⟩ := bind_eq_ok.mp hok
        obtain ⟨-, rfl⟩ := (read_eq_ok hi (show 1 < 16 by decide)).mp hlength
        exact ih hok
    · next hi =>
      rw [if_neg hi] at hok
      exact congrArg _ (Except.ok.inj hok)

end Looks

/-- An index at which there is an entry, or the end of the area. -/
def AtEntry (es : List MadtEntry) (i : BitVec 64) : Prop :=
  ∃ front back, es = front ++ back ∧ i = BitVec.ofNat 64 (areaLength front)

namespace Holds
variable {es : List MadtEntry}

theorem exists_entry (hholds : madt.Holds es) (hat : AtEntry es i) (hi : i < madt.limit) :
    ∃ front e back, es = front ++ e :: back ∧ i = BitVec.ofNat 64 (areaLength front) ∧
      i.toNat = areaLength front ∧ i.toNat + e.size ≤ areaLength es := by
  obtain ⟨front, back, hes, rfl⟩ := hat
  have hlt := hholds.lt_two_pow
  have hfront : areaLength front ≤ areaLength es := by
    rw [hes, areaLength_append]
    exact Nat.le_add_right _ _
  rw [hholds.lt_limit_iff (by omega)] at hi
  cases back with
  | nil =>
    rw [List.append_nil] at hes
    exact absurd hi (hes ▸ Nat.lt_irrefl _)
  | cons e back =>
    have hval : (BitVec.ofNat 64 (areaLength front)).toNat = areaLength front :=
      (BitVec.toNat_ofNat _ _).trans (Nat.mod_eq_of_lt (by omega))
    refine ⟨front, e, back, hes, rfl, hval, ?_⟩
    rw [hval, hes, areaLength_append, areaLength_cons]
    omega

/-- From an entry the walk goes to the one behind it. -/
theorem atEntry_next (hholds : madt.Holds es) (hshort : ∀ e ∈ es, e.size < 128)
    (hat : AtEntry es i) (hnext : madt.Next found i j) : AtEntry es j ∧ i.toNat < j.toNat := by
  obtain ⟨hi, -, rfl, -⟩ := hnext
  obtain ⟨front, e, back, rfl, rfl, hval, hle⟩ := hholds.exists_entry hat hi
  have hlt := hholds.lt_two_pow
  have hsize : 2 ≤ e.size := Nat.le_add_left 2 _
  rw [hholds.next_of_lt (hshort e (by simp))]
  refine ⟨⟨front ++ [e], back, by simp, rfl⟩, ?_⟩
  rw [hval, BitVec.toNat_ofNat, areaLength_append, areaLength_singleton]
  omega

/-- In a table of entries that are shorter than 128 bytes a walk ends, and reads no other bytes. -/
theorem walkInside (hholds : madt.Holds es) (h : madt.Looks body type field found)
    (hshort : ∀ e ∈ es, e.size < 128) (hfield : ∀ e : MadtEntry, e.type = type → field < e.size) :
    madt.WalkInside body := by
  have hlength := hholds.length
  refine h.walkInside_iff.mpr ⟨by omega, fun i hreach hi => ?_⟩
  have hat : AtEntry es i := by
    clear hi
    induction hreach with
    | refl => exact ⟨[], es, rfl, rfl⟩
    | tail _ hnext ih => exact (hholds.atEntry_next hshort ih hnext).1
  constructor
  · obtain ⟨front, e, back, rfl, rfl, -, hle⟩ := hholds.exists_entry hat hi
    have hsize : 2 ≤ e.size := Nat.le_add_left 2 _
    rw [Inside, hholds.read_type]
    split
    · next htype =>
      have hlt := hfield e htype
      omega
    · omega
  · intro hcycle
    have hlt (j : BitVec 64) (hj : Relation.TransGen (madt.Next found) i j) :
        AtEntry es j ∧ i.toNat < j.toNat := by
      induction hj with
      | single hnext => exact hholds.atEntry_next hshort hat hnext
      | tail _ hnext ih =>
        obtain ⟨hat', hlt⟩ := hholds.atEntry_next hshort ih.1 hnext
        exact ⟨hat', Nat.lt_trans ih.2 hlt⟩
    exact Nat.lt_irrefl _ (hlt i hcycle).2

end Holds

end Madt

/-- The walks of both lookups end within the table exactly if every entry that they come to is
inside it as far as it is read, and does not lead back to itself. -/
theorem madtWalks_inside_iff (madt : Madt) (irq : BitVec 8) (gsi : BitVec 32) :
    (madt.WalkInside (madt.overrideBody irq) ↔ 44 ≤ madt.length.toNat ∧
      ∀ i, Relation.ReflTransGen (madt.Next (madt.overrides irq)) 0 i → i < madt.limit →
        madt.Inside 2 3 i ∧ ¬Relation.TransGen (madt.Next (madt.overrides irq)) i i) ∧
    (madt.WalkInside (madt.ioapicBody gsi) ↔ 44 ≤ madt.length.toNat ∧
      ∀ i, Relation.ReflTransGen (madt.Next (madt.serves gsi)) 0 i → i < madt.limit →
        madt.Inside 1 11 i ∧ ¬Relation.TransGen (madt.Next (madt.serves gsi)) i i) :=
  ⟨(Madt.looks_override madt irq).walkInside_iff, (Madt.looks_ioapic madt gsi).walkInside_iff⟩

/-- The area is an entry of length 0. -/
def zeroLengthMadt : Madt := ⟨46, fun _ => 0⟩

/-- Only the first byte of an entry is in the table, whose length is 45. -/
def truncatedMadt : Madt := ⟨45, fun i => if i = 0 then 0 else 2⟩

/-- A table that ends within its header. -/
def shortMadt : Madt := ⟨36, fun _ => 0⟩

theorem madtWalks_not_inside :
    ¬zeroLengthMadt.WalkInside (zeroLengthMadt.overrideBody 0) ∧
    ¬truncatedMadt.WalkInside (truncatedMadt.overrideBody 0) ∧
    ¬shortMadt.WalkInside (shortMadt.overrideBody 0) := by
  refine ⟨fun h => ?_, fun h => ?_, fun h => ?_⟩
  · have hnext : zeroLengthMadt.Next (zeroLengthMadt.overrides 0) 0 0 := by
      refine ⟨by decide, by decide, by decide, by decide⟩
    have hall := ((Madt.looks_override _ 0).walkInside_iff.mp h).2
    exact (hall 0 .refl hnext.1).2 (.single hnext)
  · have hall := ((Madt.looks_override _ 0).walkInside_iff.mp h).2
    exact absurd (hall 0 .refl (by decide)).1 (by unfold Madt.Inside; decide)
  · exact absurd ((Madt.looks_override _ 0).walkInside_iff.mp h).1 (by decide)

end Lethe
