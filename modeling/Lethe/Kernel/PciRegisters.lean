import Lethe.Kernel.PciScan

/-!
# Registers of a device

`get_register_value` reads the registers below `0x12` from the descriptor, which the scan has
filled, and `set_register_value` writes to the hardware only. Two of the registers of the
descriptor are filled for one type of header only.
-/

namespace Lethe

/-- `set_register_value`. -/
def setRegisterValue (config : ConfigSpace) (handle : PciDevice) (registerNumber : Fin 64)
    (value : BitVec 32) : ConfigSpace :=
  (setPciDeviceRegister config handle.descriptor.address (BitVec.ofNat 32 registerNumber.val)
    value).2

/-- `get_register_value`. -/
def getRegisterValue (config : ConfigSpace) (handle : PciDevice) (registerNumber : Fin 64) :
    BitVec 32 :=
  if h : registerNumber.val < 0x12 then handle.descriptor.registers ⟨registerNumber.val, h⟩
  else
    getPciDeviceRegister config handle.descriptor.address (BitVec.ofNat 32 registerNumber.val)

/-- The calls for a handle. -/
inductive RegisterCall
  | set (registerNumber : Fin 64) (value : BitVec 32)
  | get (registerNumber : Fin 64)
  deriving DecidableEq, Repr

/-- The configuration space after a call. -/
def RegisterCall.apply (handle : PciDevice) (config : ConfigSpace) : RegisterCall → ConfigSpace
  | .set r value => setRegisterValue config handle r value
  | .get _ => config

/-- The value that was last set, or the given one. -/
def lastWritten (r : Fin 64) (initial : BitVec 32) (calls : List RegisterCall) : BitVec 32 :=
  calls.foldl (fun value call =>
    match call with
    | .set r' value' => if r' = r then value' else value
    | .get _ => value) initial

/-- The word of the descriptor in which `get_register_value` looks up a register below `0x12`: what
the scan has read, or what `kmalloc` left if it has read nothing. -/
def cachedWord (config : ConfigSpace) (garbage : Garbage) (a : PciAddress) (r : Fin 0x12) :
    BitVec 32 :=
  if r.val < 0x10 ∨ upperMid (config a 3) &&& 0x7F = 0x2 then config a (BitVec.ofNat 6 r.val)
  else garbage a r

theorem registers_cachedWord (config : ConfigSpace) (garbage : Garbage) (a : PciAddress)
    (r : Fin 0x12) :
    (getDeviceDescriptor config garbage a).registers r = cachedWord config garbage a r := by
  have hset (i : Fin 0x12) : getPciDeviceRegister config a (BitVec.ofNat 32 i.val) =
      config a (BitVec.ofNat 6 i.val) := by
    rw [getPciDeviceRegister_eq]
    congr 1
    exact BitVec.eq_of_toNat_eq (by simp)
  have hheader : upperMid (config a (BitVec.ofNat 6 (3 : Fin 0x12).val)) = upperMid (config a 3) := rfl
  simp only [getDeviceDescriptor, hset, hheader, cachedWord]
  by_cases hr : r.val < 0x10
  · simp only [hr, if_true, true_or]
  · simp only [hr, if_false, false_or]

/-- The hardware holds what was last set. -/
theorem foldl_apply_eq (config : ConfigSpace) (handle : PciDevice) (calls : List RegisterCall)
    (r : Fin 64) :
    calls.foldl (RegisterCall.apply handle) config handle.descriptor.address
        (BitVec.ofNat 6 r.val) =
      lastWritten r (config handle.descriptor.address (BitVec.ofNat 6 r.val)) calls := by
  induction calls generalizing config with
  | nil => rfl
  | cons call calls ih =>
    rw [List.foldl_cons, ih, lastWritten, lastWritten, List.foldl_cons]
    congr 1
    cases call with
    | get r' => rfl
    | set r' value =>
      have hreg : BitVec.ofNat 6 r.val = (BitVec.ofNat 32 r'.val).setWidth 6 ↔ r' = r := by
        have hr := r.isLt
        have hr' := r'.isLt
        rw [← BitVec.toNat_inj, Fin.ext_iff]
        simp only [BitVec.toNat_ofNat, BitVec.toNat_setWidth]
        omega
      simp only [RegisterCall.apply, setRegisterValue, setPciDeviceRegister_eq, true_and, hreg]

/-- Every `get_register_value` of a sequence of calls for a handle of the scan returns what was
last set, or the value from before the calls, if and only if for each that is below `0x12` this
happens to be the word of the descriptor. -/
theorem getRegisterValue_current_iff (config : ConfigSpace) (garbage : Garbage) (a : PciAddress)
    (functions : List PciDevice) (calls : List RegisterCall) :
    (∀ before r after, calls = before ++ .get r :: after →
      getRegisterValue (before.foldl (RegisterCall.apply
            (.mk (getDeviceDescriptor config garbage a) functions)) config)
          (.mk (getDeviceDescriptor config garbage a) functions) r =
        lastWritten r (config a (BitVec.ofNat 6 r.val)) before) ↔
      ∀ before r after, calls = before ++ .get r :: after → ∀ h : r.val < 0x12,
        lastWritten r (config a (BitVec.ofNat 6 r.val)) before =
          cachedWord config garbage a ⟨r.val, h⟩ := by
  refine forall_congr' fun before => forall_congr' fun r => forall₂_congr fun after _ => ?_
  have hhardware := foldl_apply_eq config (.mk (getDeviceDescriptor config garbage a) functions)
    before r
  by_cases h : r.val < 0x12
  · rw [getRegisterValue, dif_pos h]
    have hword := registers_cachedWord config garbage a ⟨r.val, h⟩
    constructor
    · intro heq _
      exact heq.symm.trans hword
    · intro heq
      exact hword.trans (heq h).symm
  · rw [getRegisterValue, dif_neg h, getPciDeviceRegister_eq]
    have hreg : (BitVec.ofNat 32 r.val).setWidth 6 = BitVec.ofNat 6 r.val :=
      BitVec.eq_of_toNat_eq (by simp)
    rw [hreg]
    exact iff_of_true hhardware fun h' => absurd h' h

/-- A register of a device with an ordinary header is set and read back. -/
theorem getRegisterValue_stale :
    ¬∀ before r after, [RegisterCall.set 1 0x7, .get 1] = before ++ .get r :: after →
      getRegisterValue (before.foldl (RegisterCall.apply
            (.mk (getDeviceDescriptor (fun _ _ => 0) (fun _ _ => 0) ⟨0, 1, 0⟩) [])) fun _ _ => 0)
          (.mk (getDeviceDescriptor (fun _ _ => 0) (fun _ _ => 0) ⟨0, 1, 0⟩) []) r =
        lastWritten r 0 before := by
  intro h
  have hget := h [.set 1 0x7] 1 [] rfl
  revert hget
  decide

end Lethe
