import Lethe.Lib.Walk
import Lethe.Kernel.PciRegisters

/-!
# `check_msi_capability` of `lethe-kernel/pci/msi.c`

The capabilities of a device are a chain of pointers in its configuration space. The walk along it
ends at the pointer 0 and at a capability for message signaled interrupts, so it does not end on a
chain that comes back to where it was without either. It reads through `get_register_value`, for
which the words at `0x40` and `0x44` are what `kmalloc` left in the descriptor of a device with an
ordinary header.
-/

namespace Lethe

/-- The test on the id of a capability. -/
def isMsi (pciCap : BitVec 32) : Prop := pciCap &&& 0xFF = 0x5 ∨ pciCap &&& 0xFF = 0x11

instance : Decidable (isMsi pciCap) := inferInstanceAs (Decidable (_ ∨ _))

/-- The pointer to the next capability. -/
def nextCapability (pciCap : BitVec 32) : BitVec 8 := ((pciCap &&& 0xFF00) >>> 8).setWidth 8

/-- `cap_ptr / 4`. -/
def capRegister (capPtr : BitVec 8) : Fin 64 :=
  ⟨capPtr.toNat / 4, Nat.div_lt_of_lt_mul capPtr.isLt⟩

/-- The bit of the status register that announces capabilities. -/
def announcesCapabilities (statusReg : BitVec 32) : Prop := statusReg &&& 1 <<< 20 ≠ 0

instance : Decidable (announcesCapabilities statusReg) := inferInstanceAs (Decidable (_ ≠ _))

/-- The pointer to the first capability. -/
def firstCapability (capReg : BitVec 32) : BitVec 8 := (capReg &&& 0xFC).setWidth 8

section
variable (config : ConfigSpace) (handle : PciDevice)

/-- The loop of `check_msi_capability`: the value of `msi_cap` behind it. -/
def capabilityLoop : Nat → BitVec 8 → Except Panic (BitVec 32)
  | 0, _ => .error .doesNotReturn
  | fuel + 1, capPtr =>
    if capPtr = 0 then .ok 0
    else
      let pciCap := getRegisterValue config handle (capRegister capPtr)
      if isMsi pciCap then .ok (capPtr.setWidth 32)
      else capabilityLoop fuel (nextCapability pciCap)

/-- `check_msi_capability`. -/
def checkMsiCapability (fuel : Nat) : Except Panic (BitVec 32) :=
  let statusReg := getRegisterValue config handle 0x1
  if announcesCapabilities statusReg then
    capabilityLoop config handle fuel (firstCapability (getRegisterValue config handle 0xD))
  else .ok 0

end

/-! ## The chain of capabilities -/

/-- The chain is left at the pointer 0 and at a capability for message signaled interrupts. -/
def chainEnds (word : Fin 64 → BitVec 32) (capPtr : BitVec 8) : Prop :=
  capPtr = 0 ∨ isMsi (word (capRegister capPtr))

instance : Decidable (chainEnds word capPtr) := inferInstanceAs (Decidable (_ ∨ _))

/-- A step along the chain. -/
def chainNext (word : Fin 64 → BitVec 32) (capPtr : BitVec 8) : BitVec 8 :=
  nextCapability (word (capRegister capPtr))

/-- The chain from `capPtr` leads to `msiCap`: its first capability for message signaled interrupts,
or 0 if it has none. -/
abbrev LeadsTo (word : Fin 64 → BitVec 32) : BitVec 8 → BitVec 8 → Prop :=
  Walk.StopsAt (chainNext word) (chainEnds word)

/-- `capPtr` is on the chain from `first`. -/
abbrev OnChain (word : Fin 64 → BitVec 32) : BitVec 8 → BitVec 8 → Prop :=
  Walk.Passes (chainNext word) (chainEnds word)

theorem capabilityLoop_ok_iff {config : ConfigSpace} {handle : PciDevice} :
    (∃ fuel, capabilityLoop config handle fuel capPtr = .ok r) ↔
      ∃ msiCap, LeadsTo (getRegisterValue config handle) capPtr msiCap ∧
        r = msiCap.setWidth 32 := by
  refine Walk.exists_ok_iff (fun _ => rfl) fun fuel capPtr => ?_
  rw [capabilityLoop]
  by_cases hzero : capPtr = 0
  · subst hzero
    rw [if_pos rfl, if_pos (.inl rfl)]
    rfl
  · rw [if_neg hzero]
    by_cases hmsi : isMsi (getRegisterValue config handle (capRegister capPtr))
    · have hends : chainEnds (getRegisterValue config handle) capPtr := .inr hmsi
      rw [if_pos hends]
      exact if_pos hmsi
    · have hends : ¬chainEnds (getRegisterValue config handle) capPtr := by
        intro h
        exact h.elim hzero hmsi
      rw [if_neg hends]
      exact if_neg hmsi

/-! ## Configuration space -/

/-- The dwords of the function at `a`. -/
def ConfigSpace.words (config : ConfigSpace) (a : PciAddress) (r : Fin 64) : BitVec 32 :=
  config a (BitVec.ofNat 6 r.val)

/-- The scan fills the word of the descriptor for the register. -/
def ConfigSpace.Scanned (config : ConfigSpace) (a : PciAddress) (r : Fin 64) : Prop :=
  r.val ≠ 0x10 ∧ r.val ≠ 0x11 ∨ upperMid (config a 3) &&& 0x7F = 0x2

instance (config : ConfigSpace) (a : PciAddress) : Decidable (config.Scanned a r) :=
  inferInstanceAs (Decidable (_ ∨ _))

/-- The device that the scan has made for the function at `a`. -/
def scannedDevice (config : ConfigSpace) (garbage : Garbage) (a : PciAddress)
    (functions : List PciDevice) : PciDevice :=
  .mk (getDeviceDescriptor config garbage a) functions

section
variable {config : ConfigSpace} {garbage : Garbage} {a : PciAddress} {functions : List PciDevice}
  {r : Fin 64}

theorem getRegisterValue_scanned (h : config.Scanned a r) :
    getRegisterValue config (scannedDevice config garbage a functions) r = config.words a r := by
  rw [getRegisterValue]
  split
  · next hlt =>
    refine (registers_cachedWord config garbage a ⟨r.val, hlt⟩).trans ?_
    rw [cachedWord, if_pos (h.imp_left fun h => by dsimp only; omega)]
    rfl
  · rw [getPciDeviceRegister_eq]
    exact congrArg _ (BitVec.eq_of_toNat_eq (by simp))

/-- The other two registers are read as what `kmalloc` left. -/
theorem getRegisterValue_not_scanned (h : ¬config.Scanned a r) :
    ∃ i : Fin 0x12, i.val = r.val ∧
      getRegisterValue config (scannedDevice config garbage a functions) r = garbage a i := by
  have hr : r.val = 0x10 ∨ r.val = 0x11 := by
    refine Decidable.by_contra fun hne => h (.inl ?_)
    omega
  have hlt : r.val < 0x12 := by omega
  refine ⟨⟨r.val, hlt⟩, rfl, ?_⟩
  rw [getRegisterValue, dif_pos hlt]
  refine (registers_cachedWord config garbage a ⟨r.val, hlt⟩).trans ?_
  rw [cachedWord, if_neg]
  intro hcached
  exact h (hcached.imp_left fun h => by dsimp only at h; omega)

/-- The status register and the pointer to the first capability are read from the descriptor. -/
theorem checkMsiCapability_scanned (fuel : Nat) :
    checkMsiCapability config (scannedDevice config garbage a functions) fuel =
      if announcesCapabilities (config.words a 0x1) then
        capabilityLoop config (scannedDevice config garbage a functions) fuel
          (firstCapability (config.words a 0xD))
      else .ok 0 := by
  have hstatus : config.Scanned a 0x1 := .inl (by decide)
  have hpointer : config.Scanned a 0xD := .inl (by decide)
  rw [checkMsiCapability, getRegisterValue_scanned hstatus, getRegisterValue_scanned hpointer]

end

/-! ## Exactness -/

/-- `check_msi_capability` returns for the device, and if the status register announces
capabilities, then what the chain in configuration space leads to. -/
def FindsMsi (config : ConfigSpace) (a : PciAddress) (handle : PciDevice) : Prop :=
  ∃ fuel msiCap, checkMsiCapability config handle fuel = .ok msiCap ∧
    (announcesCapabilities (config.words a 0x1) →
      ∃ capPtr, LeadsTo (config.words a) (firstCapability (config.words a 0xD)) capPtr ∧
        msiCap = capPtr.setWidth 32)

/-- The chain from `first` ends, and the words of the descriptor that are read along it have been
filled by the scan. -/
def ChainOk (config : ConfigSpace) (a : PciAddress) (first : BitVec 8) : Prop :=
  (∃ capPtr, LeadsTo (config.words a) first capPtr) ∧
    ∀ capPtr, OnChain (config.words a) first capPtr → capPtr ≠ 0 →
      config.Scanned a (capRegister capPtr)

section
variable {config : ConfigSpace} {a : PciAddress} {first : BitVec 8}

/-- A walk over words that the scan has filled is that over configuration space. -/
theorem leadsTo_of_scanned {word : Fin 64 → BitVec 32} {first capPtr : BitVec 8}
    (hword : ∀ capPtr, OnChain (config.words a) first capPtr → capPtr ≠ 0 →
      word (capRegister capPtr) = config.words a (capRegister capPtr))
    (h : LeadsTo (config.words a) first capPtr) : LeadsTo word first capPtr := by
  refine h.congr ?_ ?_
  · intro c hc
    by_cases hzero : c = 0
    · exact iff_of_true (.inl hzero) (.inl hzero)
    · rw [chainEnds, chainEnds, hword c hc hzero]
  · intro c hc hends
    rw [chainNext, chainNext, hword c hc fun hzero => hends (.inl hzero)]

/-- Words that lead from `0x40` and `0x44` to `0x40`. -/
def trap : Garbage := fun _ _ => 0x4000

/-- A chain that comes to a word that has not been filled is caught if `kmalloc` has left a trap
there. -/
theorem not_leadsTo_trap {functions : List PciDevice} {capPtr : BitVec 8}
    (hon : OnChain (config.words a) first capPtr) (hzero : capPtr ≠ 0)
    (hscanned : ¬config.Scanned a (capRegister capPtr)) (msiCap : BitVec 8) :
    ¬LeadsTo (getRegisterValue config (scannedDevice config trap a functions)) first msiCap := by
  -- a pointer to such a word is followed by `0x40`, which is one itself
  have htrap (c : BitVec 8) (hc : c ≠ 0 ∧ ¬config.Scanned a (capRegister c)) :
      ¬chainEnds (getRegisterValue config (scannedDevice config trap a functions)) c ∧
        (chainNext (getRegisterValue config (scannedDevice config trap a functions)) c ≠ 0 ∧
          ¬config.Scanned a (capRegister
            (chainNext (getRegisterValue config (scannedDevice config trap a functions)) c))) := by
    obtain ⟨i, -, hget⟩ : ∃ i : Fin 0x12, i.val = (capRegister c).val ∧
        getRegisterValue config (scannedDevice config trap a functions) (capRegister c) =
          trap a i := getRegisterValue_not_scanned hc.2
    rw [chainEnds, chainNext, hget]
    refine ⟨?_, (by decide : nextCapability 0x4000 ≠ 0), ?_⟩
    · rintro (h | h)
      · exact hc.1 h
      · exact absurd h (by decide : ¬isMsi 0x4000)
    · intro hscanned
      refine hc.2 (.inr (hscanned.resolve_left ?_))
      exact (by decide : ¬((capRegister (nextCapability 0x4000)).val ≠ 0x10 ∧
        (capRegister (nextCapability 0x4000)).val ≠ 0x11))
  induction hon with
  | here => exact Walk.not_stopsAt _ htrap ⟨hzero, hscanned⟩
  | @next c c' hends _ ih =>
    by_cases hc : c ≠ 0 ∧ ¬config.Scanned a (capRegister c)
    · exact Walk.not_stopsAt _ htrap hc
    · have hne : c ≠ 0 := fun h => hends (.inl h)
      have hfilled : config.Scanned a (capRegister c) :=
        Decidable.by_contra fun h => hc ⟨hne, h⟩
      have hget : getRegisterValue config (scannedDevice config trap a functions) (capRegister c) =
          config.words a (capRegister c) := getRegisterValue_scanned hfilled
      have hends' :
          ¬chainEnds (getRegisterValue config (scannedDevice config trap a functions)) c := by
        rwa [chainEnds, hget]
      rw [LeadsTo, Walk.stopsAt_of_not_stop hends', chainNext, hget]
      exact ih hzero hscanned

/-- Whatever memory `kmalloc` gives to the scan, `check_msi_capability` returns for the device, with
what the chain leads to, if and only if no capabilities are announced or the chain ends and keeps
to words that the scan fills. -/
theorem checkMsiCapability_finds_iff (config : ConfigSpace) (a : PciAddress)
    (functions : List PciDevice) :
    (∀ garbage, FindsMsi config a (scannedDevice config garbage a functions)) ↔
      (announcesCapabilities (config.words a 0x1) →
        ChainOk config a (firstCapability (config.words a 0xD))) := by
  constructor
  · intro hfinds hannounced
    have hleads (garbage : Garbage) : ∃ capPtr,
        LeadsTo (getRegisterValue config (scannedDevice config garbage a functions))
          (firstCapability (config.words a 0xD)) capPtr := by
      obtain ⟨fuel, msiCap, hcheck, -⟩ := hfinds garbage
      rw [checkMsiCapability_scanned, if_pos hannounced] at hcheck
      obtain ⟨capPtr, h, -⟩ := capabilityLoop_ok_iff.mp ⟨fuel, hcheck⟩
      exact ⟨capPtr, h⟩
    constructor
    · obtain ⟨fuel, msiCap, -, hchain⟩ := hfinds trap
      obtain ⟨capPtr, h, -⟩ := hchain hannounced
      exact ⟨capPtr, h⟩
    · intro capPtr hon hzero
      refine Decidable.by_contra fun hscanned => ?_
      obtain ⟨msiCap, h⟩ := hleads trap
      exact not_leadsTo_trap hon hzero hscanned msiCap h
  · intro hok garbage
    by_cases hannounced : announcesCapabilities (config.words a 0x1)
    · obtain ⟨⟨capPtr, hleads⟩, hscanned⟩ := hok hannounced
      have hread : LeadsTo (getRegisterValue config (scannedDevice config garbage a functions))
          (firstCapability (config.words a 0xD)) capPtr :=
        leadsTo_of_scanned (fun c hc hzero => getRegisterValue_scanned (hscanned c hc hzero)) hleads
      obtain ⟨fuel, hloop⟩ := capabilityLoop_ok_iff.mpr ⟨capPtr, hread, rfl⟩
      refine ⟨fuel, capPtr.setWidth 32, ?_, fun _ => ⟨capPtr, hleads, rfl⟩⟩
      rw [checkMsiCapability_scanned, if_pos hannounced, hloop]
    · refine ⟨0, 0, ?_, fun h => absurd h hannounced⟩
      rw [checkMsiCapability_scanned, if_neg hannounced]

/-- A capability at `0x80` that points to itself. -/
def selfPointing : ConfigSpace := fun _ r =>
  if r = 0x1 then 1 <<< 20 else if r = 0xD then 0x80 else if r = 0x20 then 0x8001 else 0

theorem checkMsiCapability_hangs : ¬FindsMsi selfPointing ⟨0, 1, 0⟩
    (scannedDevice selfPointing (fun _ _ => 0) ⟨0, 1, 0⟩ []) := by
  rintro ⟨fuel, msiCap, hcheck, -⟩
  rw [checkMsiCapability_scanned, if_pos (by decide)] at hcheck
  obtain ⟨capPtr, h, -⟩ := capabilityLoop_ok_iff.mp ⟨fuel, hcheck⟩
  refine Walk.not_stopsAt (· = 0x80) ?_ (by decide) h
  rintro _ rfl
  decide

end

end Lethe
