import Mathlib.Tactic.IntervalCases
import Lethe.Kernel.Machine

/-!
# `lethe-kernel/pci/pci.c`

Configuration space is reached through the ports `CONFIG_ADDRESS` and `CONFIG_DATA`. A list of
devices or functions is a list whose head is what has been added last. `check_bus` keeps the bus
that it makes in a local variable only, so the bus is what it returns here, and `check_function`
drops it. Pointers from devices and buses to what they are on are never followed.
-/

namespace Lethe

/-! ## Configuration space -/

/-- A function of a device on a bus. -/
structure PciAddress where
  bus : BitVec 8
  device : BitVec 5
  function : BitVec 3
  deriving DecidableEq, Repr

/-- The dwords that the hardware holds. -/
abbrev ConfigSpace := PciAddress → BitVec 6 → BitVec 32

/-- `get_pci_device_address`. -/
def getPciDeviceAddress (a : PciAddress) (reg : BitVec 32) : BitVec 32 :=
  a.bus.setWidth 32 <<< 16 ||| a.device.setWidth 32 <<< 11 ||| a.function.setWidth 32 <<< 8 |||
    (reg * 4) &&& 0xFC ||| 1#32 <<< 31

/-- The function that a value of `CONFIG_ADDRESS` selects. -/
def selectedAddress (address : BitVec 32) : PciAddress where
  bus := address.extractLsb' 16 8
  device := address.extractLsb' 11 5
  function := address.extractLsb' 8 3

/-- The dword that a value of `CONFIG_ADDRESS` selects. -/
def selectedRegister (address : BitVec 32) : BitVec 6 := address.extractLsb' 2 6

namespace ConfigSpace

/-- `inl(CONFIG_DATA)`, with the value of `CONFIG_ADDRESS`. -/
def inl (config : ConfigSpace) (address : BitVec 32) : BitVec 32 :=
  if address.getLsbD 31 then config (selectedAddress address) (selectedRegister address)
  else 0xFFFFFFFF

/-- `outl(CONFIG_DATA, value)`, with the value of `CONFIG_ADDRESS`. -/
def outl (config : ConfigSpace) (address value : BitVec 32) : ConfigSpace := fun a reg =>
  if address.getLsbD 31 ∧ a = selectedAddress address ∧ reg = selectedRegister address then value
  else config a reg

end ConfigSpace

/-- `get_pci_device_register`. -/
def getPciDeviceRegister (config : ConfigSpace) (a : PciAddress) (reg : BitVec 32) : BitVec 32 :=
  config.inl (getPciDeviceAddress a reg)

/-- `set_pci_device_register`, which reads the register back. -/
def setPciDeviceRegister (config : ConfigSpace) (a : PciAddress) (reg value : BitVec 32) :
    BitVec 32 × ConfigSpace :=
  let address := getPciDeviceAddress a reg
  let config := config.outl address value
  (config.inl address, config)

/-- The fields of `union pci_register`. -/
def lower16 (register : BitVec 32) : BitVec 16 := register.extractLsb' 0 16
def lowerMid (register : BitVec 32) : BitVec 8 := register.extractLsb' 8 8
def upperMid (register : BitVec 32) : BitVec 8 := register.extractLsb' 16 8
def upper (register : BitVec 32) : BitVec 8 := register.extractLsb' 24 8

/-- `struct pci_device_descriptor`. -/
structure PciDescriptor where
  address : PciAddress
  registers : Fin 0x12 → BitVec 32

namespace PciDescriptor

def vendorId (desc : PciDescriptor) : BitVec 16 := lower16 (desc.registers 0)
def headerType (desc : PciDescriptor) : BitVec 8 := upperMid (desc.registers 3)
def baseClass (desc : PciDescriptor) : BitVec 8 := upper (desc.registers 2)
def subClass (desc : PciDescriptor) : BitVec 8 := upperMid (desc.registers 2)
def secondaryBus (desc : PciDescriptor) : BitVec 8 := lowerMid (desc.registers 6)

/-- The test of `header_type` for a device with several functions. -/
def multifunction (desc : PciDescriptor) : Prop := desc.headerType &&& 0x80 ≠ 0

instance (desc : PciDescriptor) : Decidable desc.multifunction :=
  inferInstanceAs (Decidable (_ ≠ _))

/-- The test of `check_function` for a bridge to another bus. -/
def bridge (desc : PciDescriptor) : Prop := desc.baseClass = 0x6 ∧ desc.subClass = 0x4

instance (desc : PciDescriptor) : Decidable desc.bridge := inferInstanceAs (Decidable (_ ∧ _))

end PciDescriptor

/-- What `kmalloc` leaves in the registers of the descriptor for a function. -/
abbrev Garbage := PciAddress → Fin 0x12 → BitVec 32

/-- `get_device_descriptor`. -/
def getDeviceDescriptor (config : ConfigSpace) (garbage : Garbage) (a : PciAddress) :
    PciDescriptor where
  address := a
  registers i :=
    let register (i : Fin 0x12) := getPciDeviceRegister config a (BitVec.ofNat 32 i.val)
    if i.val < 0x10 then register i
    else if upperMid (register 3) &&& 0x7F = 0x2 then register i
    else garbage a i

/-! ## Devices and buses -/

/-- `struct pci_device`. -/
inductive PciDevice where
  | mk (descriptor : PciDescriptor) (functions : List PciDevice)

namespace PciDevice

def descriptor : PciDevice → PciDescriptor
  | mk descriptor _ => descriptor

def functions : PciDevice → List PciDevice
  | mk _ functions => functions

end PciDevice

/-- `struct pci_bus`. -/
structure PciBus where
  index : BitVec 8
  devList : List PciDevice

/-- `new_bus`. -/
def newBus (index : BitVec 8) : PciBus := ⟨index, []⟩

namespace PciBus

/-- `new_device`. -/
def newDevice (bus : PciBus) (descriptor : PciDescriptor) : PciBus :=
  { bus with devList := .mk descriptor [] :: bus.devList }

/-- `new_function`, for the device that has been added last. -/
def newFunction (bus : PciBus) (descriptor : PciDescriptor) : PciBus :=
  match bus.devList with
  | [] => bus
  | self :: next =>
    { bus with devList := .mk self.descriptor (.mk descriptor [] :: self.functions) :: next }

end PciBus

/-! ## The scan -/

/-- The numbers `0, ..., 31`, as `device` runs through them. -/
def pciDevices : List (BitVec 5) := (List.range 32).map (BitVec.ofNat 5)

/-- The numbers `0, ..., 7`. -/
def pciFunctions : List (BitVec 3) := (List.range 8).map (BitVec.ofNat 3)

section Scan

variable (config : ConfigSpace) (garbage : Garbage)

/-- `check_function`. -/
def checkFunction (checkBus : BitVec 8 → Except Panic PciBus) (desc : PciDescriptor) :
    Except Panic Unit :=
  if desc.bridge then do
    let _ ← checkBus desc.secondaryBus
    pure ()
  else pure ()

/-- A round of the loop of `check_device` over the other functions. -/
def checkOtherFunction (checkBus : BitVec 8 → Except Panic PciBus) (device : BitVec 5)
    (bus : PciBus) (function : BitVec 3) : Except Panic PciBus := do
  let desc := getDeviceDescriptor config garbage ⟨bus.index, device, function⟩
  if desc.vendorId = 0xFFFF then pure bus
  else
    let bus := bus.newFunction desc
    checkFunction checkBus desc
    pure bus

/-- `check_device`. -/
def checkDevice (checkBus : BitVec 8 → Except Panic PciBus) (bus : PciBus) (device : BitVec 5) :
    Except Panic PciBus := do
  let register0 := getPciDeviceRegister config ⟨bus.index, device, 0⟩ 0
  if lower16 register0 = 0xFFFF then pure bus
  else
    let desc := getDeviceDescriptor config garbage ⟨bus.index, device, 0⟩
    let bus := bus.newDevice desc
    checkFunction checkBus desc
    if desc.multifunction then
      pciFunctions.tail.foldlM (checkOtherFunction config garbage checkBus device) bus
    else pure bus

/-- `check_bus`, with a bound on the depth of the recursion. -/
def checkBus : Nat → BitVec 8 → Except Panic PciBus
  | 0, _ => .error .doesNotReturn
  | fuel + 1, bus => pciDevices.foldlM (checkDevice config garbage (checkBus fuel)) (newBus bus)

/-- `root_device`: the device is made when it is asked for the first time. -/
def rootDevice (root : PciBus) : PciBus :=
  match root.devList with
  | [] => root.newDevice (getDeviceDescriptor config garbage ⟨0, 0, 0⟩)
  | _ :: _ => root

/-- The loop of `scan_pci_space` over the functions of the host bridge. -/
def scanFunctions (checkBus : BitVec 8 → Except Panic PciBus) :
    List (BitVec 3) → PciBus → Except Panic PciBus
  | [], root => pure root
  | i :: is, root => do
    let desc := getDeviceDescriptor config garbage ⟨0, 0, i⟩
    if desc.vendorId = 0xFFFF then pure root
    else
      let root := (rootDevice config garbage root).newFunction desc
      let _ ← checkBus (i.setWidth 8)
      scanFunctions checkBus is root

/-- `scan_pci_space`: the root bus after the scan. -/
def scanPciSpace (fuel : Nat) : Except Panic PciBus :=
  let desc := getDeviceDescriptor config garbage ⟨0, 0, 0⟩
  if desc.multifunction then
    scanFunctions config garbage (checkBus config garbage fuel) pciFunctions (newBus 0)
  else pciDevices.foldlM (checkDevice config garbage (checkBus config garbage fuel)) (newBus 0)

end Scan

/-! ## Lookups -/

/-- What `search_bus_for_match` does with the result of its call for the functions. -/
def afterFunctions (searchNext : Nat → Option PciDevice × Nat) :
    Option PciDevice × Nat → Option PciDevice × Nat
  | (some ptr, 0) => (some ptr, 0)
  | (some _, skip + 1) => searchNext skip
  | (none, skip) => searchNext skip

/-- `search_bus_for_match`: the device that is found, and `skip_count`. -/
def searchBusForMatch (registerNumber : Fin 0x12) (compareValue registerMask : BitVec 32) :
    List PciDevice → Nat → Option PciDevice × Nat
  | [], skip => (none, skip)
  | .mk descriptor functions :: next, skip =>
    if descriptor.registers registerNumber &&& registerMask = compareValue ∧ skip = 0 then
      (some (.mk descriptor functions), 0)
    else
      let skip :=
        if descriptor.registers registerNumber &&& registerMask = compareValue
          then skip - 1 else skip
      afterFunctions (searchBusForMatch registerNumber compareValue registerMask next)
        (searchBusForMatch registerNumber compareValue registerMask functions skip)

/-- `search_for_match`, over the buses from `bus` on: the device that is found, and
`skip_count`. -/
def searchForMatch (registerNumber : Fin 0x12) (compareValue registerMask : BitVec 32) :
    List PciBus → Nat → Option PciDevice × Nat
  | [], skip => (none, skip)
  | bus :: next, skip =>
    match searchBusForMatch registerNumber compareValue registerMask bus.devList skip with
    | (some device, skip) => (some device, skip)
    | (none, skip) => searchForMatch registerNumber compareValue registerMask next skip

/-- `locate_pci_device`. The `next` of the root bus is `NULL` since `new_bus`. -/
def locatePciDevice (root : PciBus) (classCode subClassCode : BitVec 32) (skipCount : Nat) :
    Option PciDevice :=
  let registerMask : BitVec 32 := 0xFFFF0000
  let compareValue := (classCode <<< 24 ||| subClassCode <<< 16) &&& registerMask
  (searchForMatch 0x2 compareValue registerMask [root] skipCount).1

/-! ## Registers -/

theorem reg_mul_four (reg : BitVec 32) : reg * 4 = reg <<< 2 := by
  apply BitVec.eq_of_toNat_eq
  simp [Nat.shiftLeft_eq]

/-- `CONFIG_ADDRESS` selects the function that it has been made for. -/
theorem selectedAddress_eq (a : PciAddress) (reg : BitVec 32) :
    selectedAddress (getPciDeviceAddress a reg) = a := by
  have hbus : (getPciDeviceAddress a reg).extractLsb' 16 8 = a.bus := by
    simp only [getPciDeviceAddress, reg_mul_four]
    ext i hi
    simp
    interval_cases i <;> simp
  have hdevice : (getPciDeviceAddress a reg).extractLsb' 11 5 = a.device := by
    simp only [getPciDeviceAddress, reg_mul_four]
    ext i hi
    simp
    interval_cases i <;> simp
  have hfunction : (getPciDeviceAddress a reg).extractLsb' 8 3 = a.function := by
    simp only [getPciDeviceAddress, reg_mul_four]
    ext i hi
    simp
    interval_cases i <;> simp
  rw [selectedAddress, hbus, hdevice, hfunction]

/-- `CONFIG_ADDRESS` selects the dword by the low six bits of its number. -/
theorem selectedRegister_eq (a : PciAddress) (reg : BitVec 32) :
    selectedRegister (getPciDeviceAddress a reg) = reg.setWidth 6 := by
  simp only [selectedRegister, getPciDeviceAddress, reg_mul_four]
  ext i hi
  simp
  interval_cases i <;> simp

theorem getPciDeviceAddress_enabled (a : PciAddress) (reg : BitVec 32) :
    (getPciDeviceAddress a reg).getLsbD 31 = true := by
  simp [getPciDeviceAddress]

theorem getPciDeviceRegister_eq (config : ConfigSpace) (a : PciAddress) (reg : BitVec 32) :
    getPciDeviceRegister config a reg = config a (reg.setWidth 6) := by
  rw [getPciDeviceRegister, ConfigSpace.inl, if_pos (getPciDeviceAddress_enabled a reg),
    selectedAddress_eq, selectedRegister_eq]

theorem setPciDeviceRegister_eq (config : ConfigSpace) (a : PciAddress) (reg value : BitVec 32) :
    (setPciDeviceRegister config a reg value).2 = fun a' reg' =>
      if a' = a ∧ reg' = reg.setWidth 6 then value else config a' reg' := by
  funext a' reg'
  simp only [setPciDeviceRegister, ConfigSpace.outl, getPciDeviceAddress_enabled,
    selectedAddress_eq, selectedRegister_eq, true_and]

end Lethe
