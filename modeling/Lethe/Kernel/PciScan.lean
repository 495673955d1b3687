import Lethe.Lib.Descent
import Lethe.Lib.Wp
import Lethe.Kernel.Pci

/-!
# The scan of configuration space

`check_bus` calls itself for the secondary bus of every bridge that it finds, whatever its number
is and however often it has been scanned. The scan therefore returns exactly if no bus that it
comes to is reached again from itself over bridges.
-/

namespace Lethe

namespace ConfigSpace

variable (config : ConfigSpace)

/-- The vendor id of a function. -/
def vendorId (a : PciAddress) : BitVec 16 := lower16 (config a 0)

/-- Function 0 of the device has several functions. -/
def Multifunction (bus : BitVec 8) (device : BitVec 5) : Prop :=
  upperMid (config ⟨bus, device, 0⟩ 3) &&& 0x80 ≠ 0

/-- The function is there: it is function 0 of a device, or another one of a device with several
functions. -/
def Present (a : PciAddress) : Prop :=
  config.vendorId ⟨a.bus, a.device, 0⟩ ≠ 0xFFFF ∧
    (a.function = 0 ∨ config.Multifunction a.bus a.device ∧ config.vendorId a ≠ 0xFFFF)

/-- A bridge to another bus. -/
def Bridge (a : PciAddress) : Prop := upper (config a 2) = 0x6 ∧ upperMid (config a 2) = 0x4

/-- The bus behind a bridge. -/
def secondaryBus (a : PciAddress) : BitVec 8 := lowerMid (config a 6)

/-- A bridge leads from one bus to the other. -/
def BridgeTo (b b' : BitVec 8) : Prop :=
  ∃ a, a.bus = b ∧ config.Present a ∧ config.Bridge a ∧ config.secondaryBus a = b'

instance (bus : BitVec 8) (device : BitVec 5) : Decidable (config.Multifunction bus device) :=
  inferInstanceAs (Decidable (_ ≠ _))

/-- The buses with which the scan begins: bus 0, or one for each function of the host bridge up to
the first that is missing. -/
def scanStarts : List (BitVec 8) :=
  if config.Multifunction 0 0 then
    (pciFunctions.takeWhile fun i => config.vendorId ⟨0, 0, i⟩ ≠ 0xFFFF).map (·.setWidth 8)
  else [0]

end ConfigSpace

section Descriptor

variable (config : ConfigSpace) (garbage : Garbage) (a : PciAddress)

/-- The registers that every descriptor has. -/
theorem registers_eq {i : Fin 0x12} (h : i.val < 0x10) :
    (getDeviceDescriptor config garbage a).registers i = config a (BitVec.ofNat 6 i.val) := by
  simp only [getDeviceDescriptor, if_pos h, getPciDeviceRegister_eq]
  congr 1
  apply BitVec.eq_of_toNat_eq
  simp

theorem descriptor_vendorId :
    (getDeviceDescriptor config garbage a).vendorId = config.vendorId a := by
  rw [PciDescriptor.vendorId, registers_eq config garbage a (by decide)]
  rfl

theorem descriptor_multifunction (bus : BitVec 8) (device : BitVec 5) :
    (getDeviceDescriptor config garbage ⟨bus, device, 0⟩).multifunction ↔
      config.Multifunction bus device := by
  rw [PciDescriptor.multifunction, PciDescriptor.headerType,
    registers_eq config garbage _ (by decide)]
  rfl

theorem descriptor_bridge : (getDeviceDescriptor config garbage a).bridge ↔ config.Bridge a := by
  rw [PciDescriptor.bridge, PciDescriptor.baseClass, PciDescriptor.subClass,
    registers_eq config garbage a (by decide)]
  rfl

theorem descriptor_secondaryBus :
    (getDeviceDescriptor config garbage a).secondaryBus = config.secondaryBus a := by
  rw [PciDescriptor.secondaryBus, registers_eq config garbage a (by decide)]
  rfl

end Descriptor

theorem mem_pciDevices : ∀ device : BitVec 5, device ∈ pciDevices := by decide

theorem mem_pciFunctions : ∀ function : BitVec 3, function = 0 ∨ function ∈ pciFunctions.tail := by
  decide

/-! ## When the scan returns -/

theorem checkFunction_eq_ok (checkBus : BitVec 8 → Except Panic PciBus) (desc : PciDescriptor) :
    checkFunction checkBus desc = .ok () ↔ (desc.bridge → Returns (checkBus desc.secondaryBus)) := by
  rw [checkFunction]
  by_cases hbridge : desc.bridge
  · rw [if_pos hbridge, bind_eq_ok]
    constructor
    · rintro ⟨bus, hbus, -⟩ -
      exact ⟨bus, hbus⟩
    · intro h
      obtain ⟨bus, hbus⟩ := h hbridge
      exact ⟨bus, hbus, rfl⟩
  · rw [if_neg hbridge]
    exact iff_of_true rfl fun h => absurd h hbridge

theorem PciBus.newFunction_index (bus : PciBus) (desc : PciDescriptor) :
    (bus.newFunction desc).index = bus.index := by
  rw [newFunction]
  split <;> rfl

section

variable (config : ConfigSpace) (garbage : Garbage)

/-- What a round of the loop over the other functions does to the bus. -/
def addFunction (device : BitVec 5) (bus : PciBus) (function : BitVec 3) : PciBus :=
  if config.vendorId ⟨bus.index, device, function⟩ = 0xFFFF then bus
  else bus.newFunction (getDeviceDescriptor config garbage ⟨bus.index, device, function⟩)

/-- What `check_device` does to the bus. -/
def addDevice (bus : PciBus) (device : BitVec 5) : PciBus :=
  if config.vendorId ⟨bus.index, device, 0⟩ = 0xFFFF then bus
  else
    let bus' := bus.newDevice (getDeviceDescriptor config garbage ⟨bus.index, device, 0⟩)
    if config.Multifunction bus.index device then
      pciFunctions.tail.foldl (addFunction config garbage device) bus'
    else bus'

theorem addFunction_index (device : BitVec 5) (bus : PciBus) (function : BitVec 3) :
    (addFunction config garbage device bus function).index = bus.index := by
  rw [addFunction]
  split
  · rfl
  · exact bus.newFunction_index _

theorem foldl_addFunction_index (device : BitVec 5) (fs : List (BitVec 3)) (bus : PciBus) :
    (fs.foldl (addFunction config garbage device) bus).index = bus.index := by
  induction fs generalizing bus with
  | nil => rfl
  | cons f fs ih => rw [List.foldl_cons, ih, addFunction_index]

theorem addDevice_index (bus : PciBus) (device : BitVec 5) :
    (addDevice config garbage bus device).index = bus.index := by
  simp only [addDevice]
  split
  · rfl
  split
  · exact foldl_addFunction_index config garbage device _ _
  · rfl

variable {config garbage} {checkBus : BitVec 8 → Except Panic PciBus}

/-- The recursion for a function returns. -/
def FunctionReturns (config : ConfigSpace) (checkBus : BitVec 8 → Except Panic PciBus)
    (a : PciAddress) : Prop :=
  config.Bridge a → Returns (checkBus (config.secondaryBus a))

theorem checkFunction_descriptor (a : PciAddress) :
    checkFunction checkBus (getDeviceDescriptor config garbage a) = .ok () ↔
      FunctionReturns config checkBus a := by
  rw [checkFunction_eq_ok, descriptor_bridge, descriptor_secondaryBus, FunctionReturns]

theorem checkOtherFunction_eq_ok {device : BitVec 5} {bus bus' : PciBus} {function : BitVec 3} :
    checkOtherFunction config garbage checkBus device bus function = .ok bus' ↔
      (config.vendorId ⟨bus.index, device, function⟩ ≠ 0xFFFF →
        FunctionReturns config checkBus ⟨bus.index, device, function⟩) ∧
      bus' = addFunction config garbage device bus function := by
  simp only [checkOtherFunction, descriptor_vendorId, addFunction]
  by_cases hvendor : config.vendorId ⟨bus.index, device, function⟩ = 0xFFFF
  · rw [if_pos hvendor, if_pos hvendor]
    constructor
    · intro h
      exact ⟨fun hne => absurd hvendor hne, (Except.ok.inj h).symm⟩
    · rintro ⟨-, rfl⟩
      rfl
  · rw [if_neg hvendor, if_neg hvendor, bind_eq_ok]
    constructor
    · rintro ⟨u, hu, h⟩
      exact ⟨fun _ => (checkFunction_descriptor _).mp hu, (Except.ok.inj h).symm⟩
    · rintro ⟨hreturns, rfl⟩
      exact ⟨(), (checkFunction_descriptor _).mpr (hreturns hvendor), rfl⟩

/-- `check_device` returns if the recursion for each of its functions does. -/
theorem checkDevice_eq_ok {bus bus' : PciBus} {device : BitVec 5} :
    checkDevice config garbage checkBus bus device = .ok bus' ↔
      (∀ function, config.Present ⟨bus.index, device, function⟩ →
        FunctionReturns config checkBus ⟨bus.index, device, function⟩) ∧
      bus' = addDevice config garbage bus device := by
  have hvendor' : lower16 (getPciDeviceRegister config ⟨bus.index, device, 0⟩ 0) =
      config.vendorId ⟨bus.index, device, 0⟩ := by
    rw [getPciDeviceRegister_eq]
    rfl
  simp only [checkDevice, hvendor', addDevice]
  by_cases hvendor : config.vendorId ⟨bus.index, device, 0⟩ = 0xFFFF
  · rw [if_pos hvendor, if_pos hvendor]
    constructor
    · intro h
      exact ⟨fun function hpresent => absurd hvendor hpresent.1, (Except.ok.inj h).symm⟩
    · rintro ⟨-, rfl⟩
      rfl
  rw [if_neg hvendor, if_neg hvendor, bind_eq_ok]
  simp only [descriptor_multifunction]
  have hzero : config.Present ⟨bus.index, device, 0⟩ := ⟨hvendor, .inl rfl⟩
  by_cases hmulti : config.Multifunction bus.index device
  · simp only [if_pos hmulti]
    have hloop (bus₀ bus₁ : PciBus) (h₀ : bus₀.index = bus.index) :
        pciFunctions.tail.foldlM (checkOtherFunction config garbage checkBus device) bus₀ =
            .ok bus₁ ↔
          (∀ f ∈ pciFunctions.tail, config.vendorId ⟨bus.index, device, f⟩ ≠ 0xFFFF →
            FunctionReturns config checkBus ⟨bus.index, device, f⟩) ∧
          bus₁ = pciFunctions.tail.foldl (addFunction config garbage device) bus₀ := by
      refine foldlM_eq_ok (I := fun b => b.index = bus.index) (fun b f b' hb => ?_)
        (fun b f hb => ?_) h₀
      · rw [checkOtherFunction_eq_ok, hb]
      · rw [addFunction_index, hb]
    constructor
    · rintro ⟨u, hu, hrest⟩
      obtain ⟨hall, rfl⟩ := (hloop (bus.newDevice _) bus' rfl).mp hrest
      refine ⟨fun function hpresent => ?_, rfl⟩
      rcases mem_pciFunctions function with rfl | hmem
      · exact (checkFunction_descriptor _).mp hu
      · obtain rfl | ⟨-, hother⟩ := hpresent.2
        · exact (checkFunction_descriptor _).mp hu
        · exact hall function hmem hother
    · rintro ⟨hreturns, rfl⟩
      refine ⟨(), (checkFunction_descriptor _).mpr (hreturns 0 hzero),
        (hloop (bus.newDevice _) _ rfl).mpr ⟨fun f _ hother => ?_, rfl⟩⟩
      exact hreturns f ⟨hvendor, .inr ⟨hmulti, hother⟩⟩
  · simp only [if_neg hmulti]
    constructor
    · rintro ⟨u, hu, h⟩
      refine ⟨fun function hpresent => ?_, (Except.ok.inj h).symm⟩
      obtain rfl : function = 0 := hpresent.2.resolve_right fun h => hmulti h.1
      exact (checkFunction_descriptor _).mp hu
    · rintro ⟨hreturns, rfl⟩
      exact ⟨(), (checkFunction_descriptor _).mpr (hreturns 0 hzero), rfl⟩

/-- The loop over the devices of a bus. -/
theorem checkDevices_eq_ok {bus bus' : PciBus} :
    pciDevices.foldlM (checkDevice config garbage checkBus) bus = .ok bus' ↔
      (∀ b, config.BridgeTo bus.index b → Returns (checkBus b)) ∧
      bus' = pciDevices.foldl (addDevice config garbage) bus := by
  rw [foldlM_eq_ok (I := fun b => b.index = bus.index)
    (P := fun device => ∀ function, config.Present ⟨bus.index, device, function⟩ →
      FunctionReturns config checkBus ⟨bus.index, device, function⟩)
    (g := addDevice config garbage) (fun b device b' hb => ?_) (fun b device hb => ?_) rfl]
  · refine and_congr_left fun _ => ⟨?_, fun h device _ function hpresent hbridge => ?_⟩
    · rintro hall b ⟨⟨_, device, function⟩, rfl, hpresent, hbridge, rfl⟩
      exact hall device (mem_pciDevices device) function hpresent hbridge
    · exact h _ ⟨⟨bus.index, device, function⟩, rfl, hpresent, hbridge, rfl⟩
  · rw [checkDevice_eq_ok, hb]
  · rw [addDevice_index, hb]

/-- The recursion of `check_bus` ends within a bound exactly if the chains of bridges do. -/
theorem returns_checkBus {fuel : Nat} {bus : BitVec 8} :
    Returns (Lethe.checkBus config garbage fuel bus) ↔
      Descent.Bounded config.BridgeTo fuel bus := by
  induction fuel generalizing bus with
  | zero =>
    constructor
    · rintro ⟨bus', h⟩
      cases h
    · exact False.elim
  | succ fuel ih =>
    have hbus (bus' : PciBus) : Lethe.checkBus config garbage (fuel + 1) bus = .ok bus' ↔ _ :=
      checkDevices_eq_ok
    simp only [Returns, hbus, exists_and_left, exists_eq, and_true]
    exact forall₂_congr fun b _ => ih

variable (config garbage) in
/-- What a round of the loop over the functions of the host bridge does to the root bus. -/
def addRootFunction (root : PciBus) (i : BitVec 3) : PciBus :=
  (rootDevice config garbage root).newFunction (getDeviceDescriptor config garbage ⟨0, 0, i⟩)

variable (config) in
/-- The functions up to the first that is missing. -/
def hostFunctions (is : List (BitVec 3)) : List (BitVec 3) :=
  is.takeWhile fun i => config.vendorId ⟨0, 0, i⟩ ≠ 0xFFFF

theorem scanFunctions_eq_ok {is : List (BitVec 3)} {root root' : PciBus} :
    scanFunctions config garbage checkBus is root = .ok root' ↔
      (∀ i ∈ hostFunctions config is, Returns (checkBus (i.setWidth 8))) ∧
      root' = (hostFunctions config is).foldl (addRootFunction config garbage) root := by
  induction is generalizing root with
  | nil =>
    constructor
    · intro h
      exact ⟨by simp [hostFunctions], (Except.ok.inj h).symm⟩
    · rintro ⟨-, rfl⟩
      rfl
  | cons i is ih =>
    simp only [scanFunctions, descriptor_vendorId]
    by_cases hvendor : config.vendorId ⟨0, 0, i⟩ = 0xFFFF
    · have hnil : hostFunctions config (i :: is) = [] := by
        rw [hostFunctions, List.takeWhile_cons_of_neg]
        simpa only [decide_eq_true_eq, not_not] using hvendor
      rw [if_pos hvendor, hnil]
      constructor
      · intro h
        exact ⟨by simp, (Except.ok.inj h).symm⟩
      · rintro ⟨-, rfl⟩
        rfl
    · have hcons : hostFunctions config (i :: is) = i :: hostFunctions config is := by
        rw [hostFunctions, List.takeWhile_cons_of_pos, hostFunctions]
        simpa only [decide_eq_true_eq] using hvendor
      rw [if_neg hvendor, hcons, bind_eq_ok, List.forall_mem_cons, List.foldl_cons]
      constructor
      · rintro ⟨bus, hbus, hrest⟩
        obtain ⟨hall, rfl⟩ := ih.mp hrest
        exact ⟨⟨⟨bus, hbus⟩, hall⟩, rfl⟩
      · rintro ⟨⟨⟨bus, hbus⟩, hall⟩, rfl⟩
        exact ⟨bus, hbus, ih.mpr ⟨hall, rfl⟩⟩

/-- A common bound for the elements of a list. -/
theorem exists_bounded_list {r : α → α → Prop} {l : List α} :
    (∃ n, ∀ a ∈ l, Descent.Bounded r n a) ↔ ∀ a ∈ l, ∃ n, Descent.Bounded r n a := by
  constructor
  · rintro ⟨n, h⟩ a ha
    exact ⟨n, h a ha⟩
  · intro h
    induction l with
    | nil => exact ⟨0, by simp⟩
    | cons a l ih =>
      obtain ⟨n, hn⟩ := h a List.mem_cons_self
      obtain ⟨m, hm⟩ := ih fun b hb => h b (List.mem_cons_of_mem _ hb)
      refine ⟨max m n, fun b hb => ?_⟩
      rcases List.mem_cons.mp hb with rfl | hb
      · exact hn.mono (Nat.le_max_right m n)
      · exact (hm b hb).mono (Nat.le_max_left m n)

variable (config garbage) in
/-- The root bus after the scan. -/
def scannedRoot : PciBus :=
  if config.Multifunction 0 0 then
    (hostFunctions config pciFunctions).foldl (addRootFunction config garbage) (newBus 0)
  else pciDevices.foldl (addDevice config garbage) (newBus 0)

/-- The scan returns if the chains of bridges from the first buses are bounded. -/
theorem scanPciSpace_eq_ok {root : PciBus} :
    (∃ fuel, scanPciSpace config garbage fuel = .ok root) ↔
      (∀ b ∈ config.scanStarts, ∃ n, Descent.Bounded config.BridgeTo n b) ∧
      root = scannedRoot config garbage := by
  simp only [scanPciSpace, descriptor_multifunction, ConfigSpace.scanStarts, scannedRoot]
  by_cases hmulti : config.Multifunction 0 0
  · simp only [if_pos hmulti, scanFunctions_eq_ok, exists_and_right, returns_checkBus]
    rw [exists_bounded_list.symm]
    simp only [List.forall_mem_map]
    rfl
  · simp only [if_neg hmulti, checkDevices_eq_ok, exists_and_right, returns_checkBus,
      List.mem_singleton, forall_eq]
    refine and_congr_left fun _ => ⟨?_, ?_⟩
    · rintro ⟨fuel, h⟩
      exact ⟨fuel + 1, h⟩
    · rintro ⟨n, h⟩
      cases n with
      | zero => exact h.elim
      | succ n => exact ⟨n, h⟩

end

instance finite_busNumber : Finite (BitVec 8) :=
  Finite.of_injective BitVec.toFin fun _ _ h => BitVec.eq_of_toFin_eq h

/-- The scan of a configuration space returns exactly if no bus that is reached from the buses
with which it begins is reached again from itself. -/
theorem scanPciSpace_returns_iff (config : ConfigSpace) (garbage : Garbage) :
    (∃ fuel root, scanPciSpace config garbage fuel = .ok root) ↔
      ∀ b ∈ config.scanStarts, ∀ c, Relation.ReflTransGen config.BridgeTo b c →
        ¬Relation.TransGen config.BridgeTo c c := by
  rw [exists_comm]
  simp only [scanPciSpace_eq_ok, exists_and_left, exists_eq, and_true]
  exact forall₂_congr fun b _ => Descent.exists_bounded_iff

/-- One device on bus 0: a bridge whose secondary bus is bus 0. -/
def selfBridge : ConfigSpace := fun a reg =>
  if a = ⟨0, 0, 0⟩ then if reg = 0 then 0x12348086 else if reg = 2 then 0x06040000 else 0
  else 0xFFFFFFFF

theorem scanPciSpace_selfBridge :
    ¬∃ fuel root, scanPciSpace selfBridge (fun _ _ => 0) fuel = .ok root := by
  have hself : selfBridge.BridgeTo 0 0 := by
    refine ⟨⟨0, 0, 0⟩, rfl, ⟨by decide, .inl rfl⟩, ⟨by decide, by decide⟩, by decide⟩
  rintro ⟨fuel, root, h⟩
  obtain ⟨hbounded, -⟩ := scanPciSpace_eq_ok.mp ⟨fuel, h⟩
  have hstarts : selfBridge.scanStarts = [0] := by decide
  rw [hstarts] at hbounded
  obtain ⟨n, hn⟩ := hbounded 0 List.mem_cons_self
  exact hn.not_cycle (.single hself)

end Lethe
