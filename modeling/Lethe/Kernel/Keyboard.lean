import Mathlib.Logic.Function.Basic
import Mathlib.Tactic.Common
import Lethe.Lib.Run
import Lethe.Lib.Wp

/-!
# The state of the keys

`kb_handle_key` and `scancode_to_char` of `lethe-kernel/misc/keyboard.c`. A byte up to 0x58 is taken
as a make code and one up to 0xD8 as a break code, and `KB_STATUS` has 88 entries: it has none for
0x58, and none for the codes from 0x59 to 0x7F, which are neither.
-/

namespace Lethe

/-! ## The code -/

/-- An access outside `KB_STATUS`. -/
inductive KeyboardFault
  | accessOutside (index : Int)
  deriving DecidableEq, Repr

/-- What a key calls. -/
inductive KeyCall
  | executeCommand
  | delChar
  | pushChar (ch : UInt8)
  deriving DecidableEq, Repr

/-- `SC1_LOWER_CHARS`. -/
def sc1LowerChars : List UInt8 :=
  [0, 0, 0x31, 0x32, 0x33, 0x34, 0x35, 0x36, 0x37, 0x38, 0x39, 0x30, 0x2D, 0x3D, 0x08, 0x09, 0x71,
    0x77, 0x65, 0x72, 0x74, 0x79, 0x75, 0x69, 0x6F, 0x70, 0x5B, 0x5D, 0x0A, 0, 0x61, 0x73, 0x64,
    0x66, 0x67, 0x68, 0x6A, 0x6B, 0x6C, 0x3B, 0x27, 0x60, 0, 0x5C, 0x7A, 0x78, 0x63, 0x76, 0x62,
    0x6E, 0x6D, 0x2C, 0x2E, 0x2F, 0, 0x2A, 0, 0x20]

/-- `SC1_UPPER_CHARS`. -/
def sc1UpperChars : List UInt8 :=
  [0, 0, 0x21, 0x40, 0x23, 0x24, 0x25, 0x5E, 0x26, 0x2A, 0x28, 0x29, 0x5F, 0x2B, 0x08, 0x09, 0x51,
    0x57, 0x45, 0x52, 0x54, 0x59, 0x55, 0x49, 0x4F, 0x50, 0x7B, 0x7D, 0x0A, 0, 0x41, 0x53, 0x44,
    0x46, 0x47, 0x48, 0x4A, 0x4B, 0x4C, 0x3A, 0x22, 0x7E, 0, 0x7C, 0x5A, 0x58, 0x43, 0x56, 0x42,
    0x4E, 0x4D, 0x3C, 0x3E, 0x3F, 0, 0x2A, 0, 0x20]

/-- `KB_STATUS[i] = value`. -/
def setKbStatus (i : Int) (value : UInt8) (kbStatus : Nat → UInt8) :
    Except KeyboardFault (Nat → UInt8) :=
  if 0 ≤ i ∧ i < 88 then .ok (Function.update kbStatus i.toNat value)
  else .error (.accessOutside i)

/-- `scancode_to_char`. -/
def scancodeToChar (kbStatus : Nat → UInt8) (byte : UInt8) : UInt8 :=
  let shift := kbStatus 0x36 ||| kbStatus 0x2A
  if byte < 58 then
    if shift = 1 then sc1UpperChars.getD byte.toNat 0 else sc1LowerChars.getD byte.toNat 0
  else 0

/-- The end of `kb_handle_key`. -/
def keyCall (ch : UInt8) : Option KeyCall :=
  if ch ≠ 0 then
    if ch = 0x0A then some .executeCommand
    else if ch = 0x08 then some .delChar
    else some (.pushChar ch)
  else none

/-- What `kb_handle_key` reads from the ports 0x64 and 0x60. -/
structure KeyPorts where
  status : UInt8
  byte : UInt8

/-- The part of `kb_handle_key` that keeps `KB_STATUS`. -/
def trackByte (kbStatus : Nat → UInt8) (byte : UInt8) : Except KeyboardFault (Nat → UInt8) :=
  if byte ≤ 0x58 then setKbStatus byte.toNat 1 kbStatus
  else if 0x58 < byte ∧ byte ≤ 0xD8 then setKbStatus (byte.toNat - 0x80) 0 kbStatus
  else pure kbStatus

/-- `kb_handle_key`. -/
def kbHandleKey (kbStatus : Nat → UInt8) (ports : KeyPorts) :
    Except KeyboardFault (Option KeyCall × (Nat → UInt8)) := do
  if ports.status &&& 1 ≠ 1 then pure (none, kbStatus)
  else
    let kbStatus ← trackByte kbStatus ports.byte
    pure (keyCall (scancodeToChar kbStatus ports.byte), kbStatus)

/-! ## The keys that are held -/

/-- Of the make code `k` and the break code `k + 0x80`, the last in the sequence is the make code. -/
def Held (bytes : List UInt8) (k : Nat) : Prop :=
  ((bytes.map UInt8.toNat).filter fun b => b = k ∨ b = k + 0x80).getLast? = some k

instance : Decidable (Held bytes k) := inferInstanceAs (Decidable (_ = _))

/-- The character of a make code, with one of the two shift keys held or none. -/
def charOf (bytes : List UInt8) (byte : UInt8) : UInt8 :=
  if byte < 58 then
    if Held bytes 0x36 ∨ Held bytes 0x2A then sc1UpperChars.getD byte.toNat 0
    else sc1LowerChars.getD byte.toNat 0
  else 0

/-- The bytes that have been delivered. -/
def keysStep (bytes : List UInt8) (ports : KeyPorts) : Option KeyCall × List UInt8 :=
  if ports.status &&& 1 ≠ 1 then (none, bytes)
  else (keyCall (charOf (bytes ++ [ports.byte]) ports.byte), bytes ++ [ports.byte])

/-- `KB_STATUS` has the keys that are held, and `scancode_to_char` sees whether shift is. -/
structure TracksKeys (kbStatus : Nat → UInt8) (bytes : List UInt8) : Prop where
  held : ∀ k < 88, kbStatus k = 1 ↔ Held bytes k
  shift : ∀ byte, scancodeToChar kbStatus byte = charOf bytes byte

/-- The make code of a key below 88, its break code, or a byte behind all break codes. -/
def KnownCode (byte : UInt8) : Prop := byte.toNat < 0x58 ∨ 0x80 ≤ byte.toNat ∧ byte.toNat ≠ 0xD8

/-- The entries are 1 for the keys that are held, and 0 for the others. -/
def HeldOnly (kbStatus : Nat → UInt8) (bytes : List UInt8) : Prop :=
  ∀ k < 88, kbStatus k = if Held bytes k then 1 else 0

theorem held_append (bytes : List UInt8) (byte : UInt8) (k : Nat) :
    Held (bytes ++ [byte]) k ↔
      byte.toNat = k ∨ byte.toNat ≠ k + 0x80 ∧ Held bytes k := by
  rw [Held, Held, List.map_append, List.filter_append, List.map_singleton, List.filter_cons,
    List.filter_nil]
  by_cases hmake : byte.toNat = k
  · rw [if_pos (decide_eq_true (.inl hmake)), List.getLast?_concat]
    simp [hmake]
  · by_cases hbreak : byte.toNat = k + 0x80
    · rw [if_pos (decide_eq_true (.inr hbreak)), List.getLast?_concat]
      simp [hbreak]
    · rw [if_neg (by simp [hmake, hbreak]), List.append_nil, or_iff_right hmake,
        and_iff_right hbreak]

namespace HeldOnly
variable {kbStatus : Nat → UInt8} {bytes : List UInt8}

theorem tracks (h : HeldOnly kbStatus bytes) : TracksKeys kbStatus bytes where
  held k hk := by
    rw [h k hk]
    split
    · next hheld => exact iff_of_true rfl hheld
    · next hheld => exact iff_of_false (by decide) hheld
  shift byte := by
    have hshift : kbStatus 0x36 ||| kbStatus 0x2A = 1 ↔ Held bytes 0x36 ∨ Held bytes 0x2A := by
      rw [h 0x36 (by decide), h 0x2A (by decide)]
      split
      · next hright =>
        refine iff_of_true ?_ (.inl hright)
        split <;> rfl
      · next hright =>
        rw [or_iff_right hright]
        split
        · next hleft => exact iff_of_true rfl hleft
        · next hleft => exact iff_of_false (by decide) hleft
    rw [scancodeToChar, charOf]
    exact if_congr Iff.rfl (if_congr hshift rfl rfl) rfl

/-- A make code sets the entry of its key. -/
theorem of_make (h : HeldOnly kbStatus bytes) {byte : UInt8} (hbyte : byte.toNat < 0x58) :
    HeldOnly (Function.update kbStatus byte.toNat 1) (bytes ++ [byte]) := by
  intro k hk
  have hbreak : byte.toNat ≠ k + 0x80 := by omega
  rw [Function.update_apply]
  by_cases hmake : k = byte.toNat
  · rw [if_pos hmake, if_pos ((held_append bytes byte k).mpr (.inl hmake.symm))]
  · rw [if_neg hmake, h k hk]
    refine if_congr ?_ rfl rfl
    rw [held_append, or_iff_right (Ne.symm hmake), and_iff_right hbreak]

/-- A break code clears it. -/
theorem of_break (h : HeldOnly kbStatus bytes) {byte : UInt8} (hbyte : 0x80 ≤ byte.toNat) :
    HeldOnly (Function.update kbStatus (byte.toNat - 0x80) 0) (bytes ++ [byte]) := by
  intro k hk
  have hmake : byte.toNat ≠ k := by omega
  rw [Function.update_apply]
  by_cases hbreak : k = byte.toNat - 0x80
  · rw [if_pos hbreak, if_neg]
    rw [held_append, or_iff_right hmake]
    exact fun hheld => hheld.1 (by omega)
  · rw [if_neg hbreak, h k hk]
    refine if_congr ?_ rfl rfl
    rw [held_append, or_iff_right hmake, and_iff_right (by omega)]

/-- A byte behind the break codes is passed over. -/
theorem of_other (h : HeldOnly kbStatus bytes) {byte : UInt8} (hbyte : 0xD8 ≤ byte.toNat) :
    HeldOnly kbStatus (bytes ++ [byte]) := by
  intro k hk
  rw [h k hk]
  refine if_congr ?_ rfl rfl
  rw [held_append, or_iff_right (by omega), and_iff_right (by omega)]

end HeldOnly

/-! ## A run -/

theorem setKbStatus_of_lt {i : Nat} (h : i < 88) (value : UInt8) (kbStatus : Nat → UInt8) :
    setKbStatus i value kbStatus = .ok (Function.update kbStatus i value) := by
  rw [setKbStatus, if_pos ⟨Int.natCast_nonneg i, by omega⟩, Int.toNat_natCast]

section
variable {kbStatus : Nat → UInt8} {bytes : List UInt8} {ports : KeyPorts}

theorem trackByte_eq (kbStatus : Nat → UInt8) (byte : UInt8) : trackByte kbStatus byte =
    if byte.toNat ≤ 0x58 then setKbStatus byte.toNat 1 kbStatus
    else if 0x58 < byte.toNat ∧ byte.toNat ≤ 0xD8 then
      setKbStatus (byte.toNat - 0x80) 0 kbStatus
    else pure kbStatus :=
  if_congr UInt8.le_iff_toNat_le rfl
    (if_congr (and_congr UInt8.lt_iff_toNat_lt UInt8.le_iff_toNat_le) rfl rfl)

theorem HeldOnly.trackByte {byte : UInt8} (h : HeldOnly kbStatus bytes) (hknown : KnownCode byte) :
    ∃ kbStatus', trackByte kbStatus byte = .ok kbStatus' ∧
      HeldOnly kbStatus' (bytes ++ [byte]) := by
  rw [trackByte_eq]
  obtain hmake | ⟨hle, hne⟩ := hknown
  · rw [if_pos (by omega), setKbStatus_of_lt hmake]
    exact ⟨_, rfl, h.of_make hmake⟩
  · rw [if_neg (by omega)]
    split
    · next hbreak =>
      have hindex : (byte.toNat : Int) - 0x80 = (byte.toNat - 0x80 : Nat) := by omega
      rw [hindex, setKbStatus_of_lt (by omega)]
      exact ⟨_, rfl, h.of_break hle⟩
    · exact ⟨_, rfl, h.of_other (by omega)⟩

/-- The other bytes are looked up outside `KB_STATUS`. -/
theorem knownCode_of_ok {byte : UInt8} (hok : trackByte kbStatus byte = .ok kbStatus') :
    KnownCode byte := by
  rw [trackByte_eq, setKbStatus, setKbStatus] at hok
  rw [KnownCode]
  split at hok
  · split at hok
    · omega
    · cases hok
  · split at hok
    · split at hok
      · omega
      · cases hok
    · omega

/-- A call for a byte with a known code. -/
theorem HeldOnly.kbHandleKey (h : HeldOnly kbStatus bytes)
    (hknown : ports.status &&& 1 = 1 → KnownCode ports.byte) :
    ∃ kbStatus', kbHandleKey kbStatus ports = .ok ((keysStep bytes ports).1, kbStatus') ∧
      HeldOnly kbStatus' (keysStep bytes ports).2 := by
  rw [keysStep]
  by_cases hready : ports.status &&& 1 = 1
  · obtain ⟨kbStatus', hok, h'⟩ := h.trackByte (hknown hready)
    rw [Lethe.kbHandleKey, if_neg (not_not.mpr hready), if_neg (not_not.mpr hready), hok, ok_bind,
      h'.tracks.shift ports.byte]
    exact ⟨kbStatus', rfl, h'⟩
  · rw [Lethe.kbHandleKey, if_pos hready, if_pos hready]
    exact ⟨kbStatus, rfl, h⟩

end

/-- `KB_STATUS` has the keys that are held, and is not accessed outside its bounds, in every state
of a run exactly if every byte that is delivered has a known code. -/
theorem keyboard_tracks_iff (calls : List KeyPorts) :
    Run.Refines kbHandleKey keysStep TracksKeys (fun _ => 0) [] calls ↔
      ∀ ports ∈ calls, ports.status &&& 1 = 1 → KnownCode ports.byte := by
  have hinit : HeldOnly (fun _ => 0) [] := fun k _ => rfl
  have hbreak {kbStatus kbStatus' : Nat → UInt8} {ports : KeyPorts} {call : Option KeyCall}
      (hok : kbHandleKey kbStatus ports = .ok (call, kbStatus'))
      (hready : ports.status &&& 1 = 1) : KnownCode ports.byte := by
    rw [kbHandleKey, if_neg (not_not.mpr hready)] at hok
    obtain ⟨_, htrack, -⟩ := bind_eq_ok.mp hok
    exact knownCode_of_ok htrack
  rw [Run.refines_iff_along kbHandleKey (I := HeldOnly)
    (C := fun _ ports => ports.status &&& 1 = 1 → KnownCode ports.byte) HeldOnly.tracks
    (fun h hknown => h.kbHandleKey hknown) (fun _ hok _ => hbreak hok) hinit]
  refine Run.along_iff_forall (I := fun kbStatus => ∃ bytes, HeldOnly kbStatus bytes) ?_
    ⟨[], hinit⟩
  rintro kbStatus ports ⟨bytes, h⟩ hknown
  obtain ⟨kbStatus', hok, h'⟩ := h.kbHandleKey hknown
  exact ⟨_, kbStatus', hok, _, h'⟩

/-- The make code of F12, and a code between the make and the break codes. -/
theorem keyboard_outside :
    kbHandleKey (fun _ => 0) ⟨1, 0x58⟩ = .error (.accessOutside 88) ∧
    kbHandleKey (fun _ => 0) ⟨1, 0x59⟩ = .error (.accessOutside (-39)) ∧
    ¬Run.Refines kbHandleKey keysStep TracksKeys (fun _ => 0) [] [⟨1, 0x58⟩] := by
  have hoff : kbHandleKey (fun _ => 0) ⟨1, 0x58⟩ = .error (.accessOutside 88) := rfl
  refine ⟨hoff, rfl, fun h => ?_⟩
  obtain ⟨-, kbStatus', hok, -⟩ := h
  cases hoff.symm.trans hok

end Lethe
