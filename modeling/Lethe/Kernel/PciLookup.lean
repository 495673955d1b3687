import Mathlib.Data.List.Perm.Basic
import Mathlib.Data.List.Nodup
import Lethe.Kernel.PciScan

/-!
# The devices that `locate_pci_device` finds

A lookup walks the devices of the root bus and their functions in order, so it finds what the scan
has added there. `scan_pci_space` adds the devices of bus 0, but not those of the buses behind
bridges, which `check_bus` puts on buses that nothing is linked to. A host bridge with several
functions is added twice, and then nothing else on bus 0 is.
-/

namespace Lethe

/-! ## Lookups -/

/-- The devices of a list with their functions, in the order of a lookup. -/
def allDevices : List PciDevice → List PciDevice
  | [] => []
  | .mk descriptor functions :: next =>
    .mk descriptor functions :: (allDevices functions ++ allDevices next)

/-- The devices that a lookup matches. -/
def matching (registerNumber : Fin 0x12) (compareValue registerMask : BitVec 32)
    (ds : List PciDevice) : List PciDevice :=
  (allDevices ds).filter
    fun d => d.descriptor.registers registerNumber &&& registerMask = compareValue

/-- The element of a list after `skip` others, with nothing left to skip; if there is none, what is
left to skip behind the list. -/
def pick (l : List α) (skip : Nat) : Option α × Nat :=
  match l[skip]? with
  | some a => (some a, 0)
  | none => (none, skip - l.length)

theorem pick_append (l l' : List α) (skip : Nat) : pick (l ++ l') skip =
    match pick l skip with
    | (some a, left) => (some a, left)
    | (none, left) => pick l' left := by
  rw [pick, pick]
  cases hl : l[skip]? with
  | some a =>
    obtain ⟨hlt, -⟩ := List.getElem?_eq_some_iff.mp hl
    rw [List.getElem?_append_left hlt, hl]
  | none =>
    have hle := List.getElem?_eq_none_iff.mp hl
    rw [List.getElem?_append_right hle, List.length_append, Nat.sub_add_eq]
    rfl

theorem pick_cons_zero (a : α) (l : List α) : pick (a :: l) 0 = (some a, 0) := rfl

theorem pick_cons_succ (a : α) (l : List α) (skip : Nat) :
    pick (a :: l) (skip + 1) = pick l skip := by
  rw [pick, pick, List.getElem?_cons_succ, List.length_cons, Nat.add_sub_add_right]

/-- A device that is found in the functions leaves nothing to skip, so the second decrement is
never reached. -/
theorem afterFunctions_pick (searchNext : Nat → Option PciDevice × Nat) (ds : List PciDevice)
    (skip : Nat) : afterFunctions searchNext (pick ds skip) =
    match pick ds skip with
    | (some d, left) => (some d, left)
    | (none, left) => searchNext left := by
  rw [pick]
  cases ds[skip]? with
  | some d => rfl
  | none => rfl

/-- A lookup finds the match after the given number of matches. -/
theorem searchBusForMatch_eq (r : Fin 0x12) (value mask : BitVec 32) (ds : List PciDevice)
    (skip : Nat) :
    searchBusForMatch r value mask ds skip = pick (matching r value mask ds) skip := by
  fun_induction allDevices ds generalizing skip with
  | case1 => simp [searchBusForMatch, matching, allDevices, pick]
  | case2 descriptor functions next ihf ihn =>
    have hrest (skip : Nat) : afterFunctions (searchBusForMatch r value mask next)
        (searchBusForMatch r value mask functions skip) =
          pick (matching r value mask functions ++ matching r value mask next) skip := by
      rw [ihf, afterFunctions_pick, pick_append]
      simp only [ihn]
      obtain ⟨_ | d, left⟩ := pick (matching r value mask functions) skip <;> rfl
    have hmatching : matching r value mask (.mk descriptor functions :: next) =
        if descriptor.registers r &&& mask = value then
          .mk descriptor functions ::
            (matching r value mask functions ++ matching r value mask next)
        else matching r value mask functions ++ matching r value mask next := by
      have hdescriptor : (PciDevice.mk descriptor functions).descriptor = descriptor := rfl
      simp only [matching, allDevices, List.filter_cons, List.filter_append, hdescriptor]
      by_cases hmatch : descriptor.registers r &&& mask = value
      · rw [if_pos hmatch, if_pos (decide_eq_true hmatch)]
      · rw [if_neg hmatch, if_neg (by simpa using hmatch)]
    rw [searchBusForMatch, hmatching]
    by_cases hmatch : descriptor.registers r &&& mask = value
    · simp only [hmatch, true_and, if_true]
      cases skip with
      | zero => rw [if_pos rfl, pick_cons_zero]
      | succ skip => rw [if_neg (Nat.succ_ne_zero skip), Nat.add_sub_cancel, hrest, pick_cons_succ]
    · simp only [hmatch, false_and, if_false]
      exact hrest skip

/-- The devices on a list of buses that a lookup matches, in its order. -/
def matchingOn (registerNumber : Fin 0x12) (compareValue registerMask : BitVec 32)
    (buses : List PciBus) : List PciDevice :=
  buses.flatMap fun bus => matching registerNumber compareValue registerMask bus.devList

theorem searchForMatch_eq (r : Fin 0x12) (value mask : BitVec 32) (buses : List PciBus)
    (skip : Nat) :
    searchForMatch r value mask buses skip = pick (matchingOn r value mask buses) skip := by
  induction buses generalizing skip with
  | nil => simp [searchForMatch, matchingOn, pick]
  | cons bus next ih =>
    rw [searchForMatch, searchBusForMatch_eq, matchingOn, List.flatMap_cons, pick_append]
    simp only [ih]
    obtain ⟨_ | d, left⟩ := pick (matching r value mask bus.devList) skip <;> rfl

/-- `search_for_match` returns match number `k`, and without so many of them `NULL`, with
`skip_count` reduced by their number. -/
theorem searchForMatch_kth (r : Fin 0x12) (value mask : BitVec 32) (buses : List PciBus) (k : Nat) :
    (searchForMatch r value mask buses k).1 = (matchingOn r value mask buses)[k]? ∧
      ((searchForMatch r value mask buses k).1 = none ↔
        (matchingOn r value mask buses).length ≤ k) ∧
      ((searchForMatch r value mask buses k).1 = none →
        (searchForMatch r value mask buses k).2 = k - (matchingOn r value mask buses).length) := by
  have hfst : (pick (matchingOn r value mask buses) k).1 = (matchingOn r value mask buses)[k]? := by
    rw [pick]
    cases (matchingOn r value mask buses)[k]? <;> rfl
  rw [searchForMatch_eq, hfst]
  refine ⟨rfl, List.getElem?_eq_none_iff, ?_⟩
  intro hnone
  rw [pick, hnone]

/-- The bits of register 2 that a lookup compares. -/
def classValue (baseClass subClass : BitVec 8) : BitVec 32 :=
  (baseClass.setWidth 32 <<< 24 ||| subClass.setWidth 32 <<< 16) &&& 0xFFFF0000

theorem and_mask_eq (register : BitVec 32) :
    register &&& 0xFFFF0000 = classValue (upper register) (upperMid register) := by
  simp only [classValue, upper, upperMid]
  ext i hi
  simp
  interval_cases i <;> simp

theorem upper_classValue (baseClass subClass : BitVec 8) :
    upper (classValue baseClass subClass) = baseClass := by
  simp only [classValue, upper]
  ext i hi
  simp
  interval_cases i <;> simp

theorem upperMid_classValue (baseClass subClass : BitVec 8) :
    upperMid (classValue baseClass subClass) = subClass := by
  simp only [classValue, upperMid]
  ext i hi
  simp
  interval_cases i <;> simp

theorem and_mask_eq_classValue {register : BitVec 32} {baseClass subClass : BitVec 8} :
    register &&& 0xFFFF0000 = classValue baseClass subClass ↔
      upper register = baseClass ∧ upperMid register = subClass := by
  rw [and_mask_eq]
  constructor
  · intro h
    have hupper := congrArg upper h
    have hmid := congrArg upperMid h
    rw [upper_classValue, upper_classValue] at hupper
    rw [upperMid_classValue, upperMid_classValue] at hmid
    exact ⟨hupper, hmid⟩
  · rintro ⟨rfl, rfl⟩
    rfl

/-- The devices of a class. -/
def ofClass (baseClass subClass : BitVec 8) (ds : List PciDevice) : List PciDevice :=
  (allDevices ds).filter fun d =>
    d.descriptor.baseClass = baseClass ∧ d.descriptor.subClass = subClass

theorem locatePciDevice_eq (root : PciBus) (baseClass subClass : BitVec 8) (k : Nat) :
    locatePciDevice root (baseClass.setWidth 32) (subClass.setWidth 32) k =
      (ofClass baseClass subClass root.devList)[k]? := by
  have hvalue : (baseClass.setWidth 32 <<< 24 ||| subClass.setWidth 32 <<< 16) &&& 0xFFFF0000 =
      classValue baseClass subClass := rfl
  have hfilter : matching 2 (classValue baseClass subClass) 0xFFFF0000 root.devList =
      ofClass baseClass subClass root.devList := by
    refine List.filter_congr fun d _ => ?_
    rw [decide_eq_decide, and_mask_eq_classValue]
    rfl
  simp only [locatePciDevice, searchForMatch, hvalue, searchBusForMatch_eq, hfilter, pick]
  cases (ofClass baseClass subClass root.devList)[k]? <;> rfl

/-! ## What the scan adds -/

/-- The descriptors of the devices of a list and of their functions. -/
def descriptors (ds : List PciDevice) : List PciDescriptor :=
  (allDevices ds).map PciDevice.descriptor

theorem descriptors_cons (descriptor : PciDescriptor) (functions next : List PciDevice) :
    descriptors (.mk descriptor functions :: next) =
      descriptor :: (descriptors functions ++ descriptors next) := by
  simp only [descriptors, allDevices, List.map_cons, List.map_append]
  rfl

theorem descriptors_nil : descriptors [] = [] := by
  simp only [descriptors, allDevices, List.map_nil]

theorem PciBus.newDevice_descriptors (bus : PciBus) (desc : PciDescriptor) :
    descriptors (bus.newDevice desc).devList = desc :: descriptors bus.devList := by
  rw [newDevice, descriptors_cons, descriptors_nil, List.nil_append]

theorem PciBus.newFunction_descriptors {bus : PciBus} (hbus : bus.devList ≠ [])
    (desc : PciDescriptor) :
    (bus.newFunction desc).devList ≠ [] ∧
      (descriptors (bus.newFunction desc).devList).Perm (desc :: descriptors bus.devList) := by
  obtain ⟨index, devList⟩ := bus
  cases devList with
  | nil => exact absurd rfl hbus
  | cons self next =>
    obtain ⟨descriptor, functions⟩ := self
    refine ⟨List.cons_ne_nil _ _, ?_⟩
    simp only [newFunction, PciDevice.descriptor, PciDevice.functions, descriptors_cons,
      descriptors_nil, List.nil_append, List.cons_append]
    exact List.Perm.swap _ _ _

instance (config : ConfigSpace) (a : PciAddress) : Decidable (config.Present a) :=
  inferInstanceAs (Decidable (_ ∧ (_ ∨ _ ∧ _)))

section

variable (config : ConfigSpace) (garbage : Garbage)

/-- The functions of a device that are there. -/
def presentFunctions (bus : BitVec 8) (device : BitVec 5) : List (BitVec 3) :=
  pciFunctions.filter fun f => config.Present ⟨bus, device, f⟩

theorem foldl_addFunction_descriptors (device : BitVec 5) (fs : List (BitVec 3)) {bus : PciBus}
    (hbus : bus.devList ≠ []) :
    (descriptors (fs.foldl (addFunction config garbage device) bus).devList).Perm
      ((fs.filter fun f => config.vendorId ⟨bus.index, device, f⟩ ≠ 0xFFFF).map
        (fun f => getDeviceDescriptor config garbage ⟨bus.index, device, f⟩) ++
          descriptors bus.devList) := by
  induction fs generalizing bus with
  | nil => exact List.Perm.refl _
  | cons f fs ih =>
    rw [List.foldl_cons, addFunction]
    by_cases hvendor : config.vendorId ⟨bus.index, device, f⟩ = 0xFFFF
    · rw [if_pos hvendor, List.filter_cons_of_neg (by simpa using hvendor)]
      exact ih hbus
    · obtain ⟨hne, hperm⟩ :=
        bus.newFunction_descriptors hbus (getDeviceDescriptor config garbage ⟨bus.index, device, f⟩)
      rw [if_neg hvendor, List.filter_cons_of_pos (by simpa using hvendor), List.map_cons,
        List.cons_append]
      refine (ih hne).trans ?_
      rw [PciBus.newFunction_index]
      exact (hperm.append_left _).trans List.perm_middle

/-- `check_device` adds the functions of the device that are there. -/
theorem addDevice_descriptors (bus : PciBus) (device : BitVec 5) :
    (descriptors (addDevice config garbage bus device).devList).Perm
      ((presentFunctions config bus.index device).map
        (fun f => getDeviceDescriptor config garbage ⟨bus.index, device, f⟩) ++
          descriptors bus.devList) := by
  have hsplit : pciFunctions = 0 :: pciFunctions.tail := by decide
  rw [addDevice, presentFunctions]
  by_cases hvendor : config.vendorId ⟨bus.index, device, 0⟩ = 0xFFFF
  · have hnone : pciFunctions.filter (fun f => config.Present ⟨bus.index, device, f⟩) = [] := by
      refine List.filter_eq_nil_iff.mpr fun f _ => ?_
      simpa using fun hpresent => hpresent.1 hvendor
    rw [if_pos hvendor, hnone]
    exact List.Perm.refl _
  rw [if_neg hvendor]
  by_cases hmulti : config.Multifunction bus.index device
  · have htail : pciFunctions.filter (fun f => config.Present ⟨bus.index, device, f⟩) =
        0 :: pciFunctions.tail.filter
          fun f => config.vendorId ⟨bus.index, device, f⟩ ≠ 0xFFFF := by
      rw [hsplit, List.filter_cons_of_pos (by simpa using ⟨hvendor, .inl rfl⟩)]
      refine congrArg _ (List.filter_congr fun f hf => ?_)
      have hne : f ≠ 0 := by
        rintro rfl
        exact absurd hf (by decide)
      simp only [ConfigSpace.Present, hne, false_or, hmulti, true_and, hvendor, not_false_eq_true,
        ne_eq]
    rw [if_pos hmulti, htail]
    refine (foldl_addFunction_descriptors config garbage device _ (List.cons_ne_nil _ _)).trans ?_
    rw [PciBus.newDevice_descriptors, List.map_cons, List.cons_append]
    exact List.perm_middle
  · have hzero : pciFunctions.filter (fun f => config.Present ⟨bus.index, device, f⟩) = [0] := by
      have hiff (f : BitVec 3) : config.Present ⟨bus.index, device, f⟩ ↔ f = 0 := by
        constructor
        · intro hpresent
          exact hpresent.2.resolve_right fun h => hmulti h.1
        · rintro rfl
          exact ⟨hvendor, .inl rfl⟩
      simp only [hiff]
      decide
    rw [if_neg hmulti, hzero, PciBus.newDevice_descriptors]
    exact List.Perm.refl _

/-- The functions on a bus that are there. -/
def presentOn (bus : BitVec 8) (devices : List (BitVec 5)) : List PciAddress :=
  devices.flatMap fun device => (presentFunctions config bus device).map (⟨bus, device, ·⟩)

theorem foldl_addDevice_descriptors (devices : List (BitVec 5)) (bus : PciBus) :
    (descriptors (devices.foldl (addDevice config garbage) bus).devList).Perm
      ((presentOn config bus.index devices).map (getDeviceDescriptor config garbage) ++
        descriptors bus.devList) := by
  induction devices generalizing bus with
  | nil => exact List.Perm.refl _
  | cons device devices ih =>
    rw [List.foldl_cons]
    refine (ih _).trans ?_
    rw [addDevice_index]
    refine ((addDevice_descriptors config garbage bus device).append_left _).trans ?_
    rw [presentOn, presentOn, List.flatMap_cons, List.map_append, List.map_map, ← List.append_assoc]
    exact List.perm_append_comm.append_right _

theorem mem_presentFunctions {bus : BitVec 8} {device : BitVec 5} {f : BitVec 3} :
    f ∈ presentFunctions config bus device ↔ config.Present ⟨bus, device, f⟩ := by
  have hall : ∀ f : BitVec 3, f ∈ pciFunctions := by decide
  simp [presentFunctions, hall]

theorem mem_presentOn {bus : BitVec 8} {a : PciAddress} :
    a ∈ presentOn config bus pciDevices ↔ a.bus = bus ∧ config.Present a := by
  simp only [presentOn, List.mem_flatMap, List.mem_map, mem_presentFunctions]
  constructor
  · rintro ⟨device, -, f, hpresent, rfl⟩
    exact ⟨rfl, hpresent⟩
  · rintro ⟨rfl, hpresent⟩
    exact ⟨a.device, mem_pciDevices _, a.function, hpresent, rfl⟩

theorem nodup_presentOn (bus : BitVec 8) : (presentOn config bus pciDevices).Nodup := by
  have hfunctions : pciFunctions.Nodup := by decide
  have hdevices : pciDevices.Nodup := by decide
  rw [presentOn, List.nodup_flatMap]
  refine ⟨fun device _ => (hfunctions.filter _).map ?_, hdevices.imp fun hne => ?_⟩
  · intro f f' h
    exact (PciAddress.mk.inj h).2.2
  · intro a ha ha'
    obtain ⟨f, -, rfl⟩ := List.mem_map.mp ha
    obtain ⟨f', -, h⟩ := List.mem_map.mp ha'
    exact hne (PciAddress.mk.inj h).2.1.symm

end

/-! ## Complete lookups -/

/-- The function is there, on bus 0 or behind a chain of bridges. -/
def ConfigSpace.Discoverable (config : ConfigSpace) (a : PciAddress) : Prop :=
  Relation.ReflTransGen config.BridgeTo 0 a.bus ∧ config.Present a

/-- The secondary bus of a bridge has a greater number than the bus of the bridge, and is that of
no other bridge. -/
structure ConfigSpace.BridgeTree (config : ConfigSpace) : Prop where
  increasing : ∀ a, config.Present a → config.Bridge a → a.bus < config.secondaryBus a
  unique : ∀ a a', config.Present a → config.Bridge a → config.Present a' → config.Bridge a' →
    config.secondaryBus a = config.secondaryBus a' → a = a'

/-- For every class, the handles that `locate_pci_device` returns until it returns `NULL` describe
each function of that class once. -/
def Complete (config : ConfigSpace) (root : PciBus) : Prop :=
  ∀ baseClass subClass, ∃ handles : List PciDevice,
    (∀ k, locatePciDevice root (baseClass.setWidth 32) (subClass.setWidth 32) k = handles[k]?) ∧
      (handles.map fun d => d.descriptor.address).Nodup ∧
      ∀ a, a ∈ handles.map (fun d => d.descriptor.address) ↔
        config.Discoverable a ∧ upper (config a 2) = baseClass ∧ upperMid (config a 2) = subClass

/-- Device 0 of bus 0 has one function, and no function is there on a bus behind a bridge of
bus 0; or it has several functions (or is missing), and there is nothing on bus 0. -/
def ConfigSpace.LookupOk (config : ConfigSpace) : Prop :=
  (¬config.Multifunction 0 0 ∧ ∀ b, config.BridgeTo 0 b → ∀ a, a.bus = b → ¬config.Present a) ∨
    (config.Multifunction 0 0 ∧ ∀ a, a.bus = 0 → ¬config.Present a)

section

variable {config : ConfigSpace} {garbage : Garbage} {root : PciBus}

theorem complete_iff : Complete config root ↔ ∀ baseClass subClass,
    (((descriptors root.devList).filter fun desc =>
        desc.baseClass = baseClass ∧ desc.subClass = subClass).map PciDescriptor.address).Nodup ∧
      ∀ a, a ∈ ((descriptors root.devList).filter fun desc =>
          desc.baseClass = baseClass ∧ desc.subClass = subClass).map PciDescriptor.address ↔
        config.Discoverable a ∧ upper (config a 2) = baseClass ∧
          upperMid (config a 2) = subClass := by
  have hmap (baseClass subClass : BitVec 8) :
      (ofClass baseClass subClass root.devList).map (fun d => d.descriptor.address) =
        ((descriptors root.devList).filter fun desc =>
          desc.baseClass = baseClass ∧ desc.subClass = subClass).map PciDescriptor.address := by
    rw [descriptors, List.filter_map, List.map_map]
    rfl
  refine forall₂_congr fun baseClass subClass => ?_
  rw [← hmap]
  constructor
  · rintro ⟨handles, hlocate, hnodup, hmem⟩
    obtain rfl : handles = ofClass baseClass subClass root.devList := by
      refine List.ext_getElem? fun k => ?_
      rw [← hlocate, locatePciDevice_eq]
    exact ⟨hnodup, hmem⟩
  · rintro ⟨hnodup, hmem⟩
    exact ⟨_, locatePciDevice_eq root baseClass subClass, hnodup, hmem⟩

/-- Lookups on a root bus with the given functions. -/
theorem complete_of_found {addresses : List PciAddress}
    (hfound : (descriptors root.devList).Perm (addresses.map (getDeviceDescriptor config garbage)))
    (hnodup : addresses.Nodup) (hmem : ∀ a, a ∈ addresses ↔ config.Discoverable a) :
    Complete config root := by
  refine complete_iff.mpr fun baseClass subClass => ?_
  have hclass (a : PciAddress) : (getDeviceDescriptor config garbage a).baseClass = baseClass ∧
      (getDeviceDescriptor config garbage a).subClass = subClass ↔
        upper (config a 2) = baseClass ∧ upperMid (config a 2) = subClass := by
    rw [PciDescriptor.baseClass, PciDescriptor.subClass, registers_eq config garbage a (by decide)]
    rfl
  have hperm : (((descriptors root.devList).filter fun desc =>
      desc.baseClass = baseClass ∧ desc.subClass = subClass).map PciDescriptor.address).Perm
        (addresses.filter fun a =>
          upper (config a 2) = baseClass ∧ upperMid (config a 2) = subClass) := by
    refine ((hfound.filter _).map _).trans (List.Perm.of_eq ?_)
    rw [List.filter_map, List.map_map]
    refine (List.map_id _).trans (List.filter_congr fun a _ => ?_)
    exact decide_eq_decide.mpr (hclass a)
  refine ⟨hperm.nodup_iff.mpr (hnodup.filter _), fun a => ?_⟩
  rw [hperm.mem_iff, List.mem_filter, hmem, decide_eq_true_eq]

/-- What is found on a complete root bus is there to be found. -/
theorem Complete.discoverable (h : Complete config root)
    (hdesc : desc ∈ descriptors root.devList) : config.Discoverable desc.address := by
  obtain ⟨-, hmem⟩ := complete_iff.mp h desc.baseClass desc.subClass
  refine ((hmem desc.address).mp (List.mem_map.mpr ⟨desc, ?_, rfl⟩)).1
  exact List.mem_filter.mpr ⟨hdesc, by simp⟩

/-- What is there to be found is found on a complete root bus. -/
theorem Complete.found (h : Complete config root) (ha : config.Discoverable a) :
    ∃ desc ∈ descriptors root.devList, desc.address = a := by
  obtain ⟨-, hmem⟩ := complete_iff.mp h (upper (config a 2)) (upperMid (config a 2))
  obtain ⟨desc, hdesc, haddr⟩ := List.mem_map.mp ((hmem a).mpr ⟨ha, rfl, rfl⟩)
  exact ⟨desc, (List.mem_filter.mp hdesc).1, haddr⟩

/-- A bus that is behind another one has a greater number. -/
theorem ConfigSpace.BridgeTree.lt (h : config.BridgeTree)
    (hbb' : Relation.TransGen config.BridgeTo b b') : b < b' := by
  have hstep {b b' : BitVec 8} (hbb' : config.BridgeTo b b') : b < b' := by
    obtain ⟨a, rfl, hpresent, hbridge, rfl⟩ := hbb'
    exact h.increasing a hpresent hbridge
  induction hbb' with
  | single hbb' => exact hstep hbb'
  | tail _ hbb' ih => exact BitVec.lt_trans ih (hstep hbb')

/-- The scan of a tree of bridges returns. -/
theorem ConfigSpace.BridgeTree.scan (h : config.BridgeTree) (garbage : Garbage) :
    ∃ fuel, scanPciSpace config garbage fuel = .ok (scannedRoot config garbage) := by
  refine scanPciSpace_eq_ok.mpr ⟨?_, rfl⟩
  refine fun b _ => Descent.exists_bounded_iff.mpr fun c _ hcycle => ?_
  exact BitVec.lt_irrefl c (h.lt hcycle)

variable (config garbage) in
/-- The functions of the host bridge are added to device 0 of the root bus. -/
theorem foldl_addRootFunction (is : List (BitVec 3)) (root : PciBus) {descriptor : PciDescriptor}
    {functions : List PciDevice} (hroot : root.devList = [.mk descriptor functions]) :
    ∃ more, (is.foldl (addRootFunction config garbage) root).devList =
      [.mk descriptor (more ++ functions)] := by
  induction is generalizing root functions with
  | nil => exact ⟨[], hroot⟩
  | cons i is ih =>
    rw [List.foldl_cons]
    have hnext : (addRootFunction config garbage root i).devList =
        [.mk descriptor (.mk (getDeviceDescriptor config garbage ⟨0, 0, i⟩) [] :: functions)] := by
      simp only [addRootFunction, rootDevice, hroot, PciBus.newFunction]
      rfl
    obtain ⟨more, hmore⟩ := ih _ hnext
    exact ⟨more ++ [_], by rw [hmore, List.append_assoc]; rfl⟩

variable (garbage) in
/-- The root bus if device 0 has one function. -/
theorem scannedRoot_single (h : ¬config.Multifunction 0 0) :
    (descriptors (scannedRoot config garbage).devList).Perm
      ((presentOn config 0 pciDevices).map (getDeviceDescriptor config garbage)) := by
  rw [scannedRoot, if_neg h]
  refine (foldl_addDevice_descriptors config garbage pciDevices (newBus 0)).trans
    (List.Perm.of_eq ?_)
  rw [newBus, descriptors_nil, List.append_nil]

variable (garbage) in
/-- The root bus if device 0 is missing. -/
theorem scannedRoot_missing (h : config.Multifunction 0 0)
    (hvendor : config.vendorId ⟨0, 0, 0⟩ = 0xFFFF) :
    descriptors (scannedRoot config garbage).devList = [] := by
  have hnone : hostFunctions config pciFunctions = [] := by
    rw [show pciFunctions = 0 :: pciFunctions.tail by decide, hostFunctions,
      List.takeWhile_cons_of_neg]
    simpa only [decide_eq_true_eq, not_not] using hvendor
  rw [scannedRoot, if_pos h, hnone]
  exact descriptors_nil

theorem allDevices_append (ds ds' : List PciDevice) :
    allDevices (ds ++ ds') = allDevices ds ++ allDevices ds' := by
  induction ds with
  | nil => simp only [List.nil_append, allDevices]
  | cons d ds ih =>
    obtain ⟨descriptor, functions⟩ := d
    simp only [List.cons_append, allDevices, ih, List.append_assoc]

variable (garbage) in
/-- The root bus if device 0 has several functions: function 0 is there twice. -/
theorem scannedRoot_twice (h : config.Multifunction 0 0)
    (hvendor : config.vendorId ⟨0, 0, 0⟩ ≠ 0xFFFF) :
    ∃ descs, descriptors (scannedRoot config garbage).devList =
        getDeviceDescriptor config garbage ⟨0, 0, 0⟩ :: descs ∧
      getDeviceDescriptor config garbage ⟨0, 0, 0⟩ ∈ descs := by
  have hcons : ∃ is, hostFunctions config pciFunctions = 0 :: is := by
    rw [show pciFunctions = 0 :: pciFunctions.tail by decide, hostFunctions,
      List.takeWhile_cons_of_pos]
    · exact ⟨_, rfl⟩
    · simpa only [decide_eq_true_eq] using hvendor
  obtain ⟨is, his⟩ := hcons
  rw [scannedRoot, if_pos h, his, List.foldl_cons]
  obtain ⟨more, hmore⟩ := foldl_addRootFunction config garbage is
    (addRootFunction config garbage (newBus 0) 0) rfl
  rw [hmore, descriptors_cons]
  refine ⟨_, rfl, List.mem_append_left _ ?_⟩
  rw [descriptors, allDevices_append, List.map_append]
  refine List.mem_append_right _ ?_
  rw [← descriptors, descriptors_cons]
  exact List.mem_cons_self

/-- What the scan leaves out, or adds twice, is missed. -/
theorem lookupOk_of_complete (h : config.BridgeTree)
    (hcomplete : Complete config (scannedRoot config garbage)) : config.LookupOk := by
  by_cases hmulti : config.Multifunction 0 0
  · refine .inr ⟨hmulti, fun a ha hpresent => ?_⟩
    by_cases hvendor : config.vendorId ⟨0, 0, 0⟩ = 0xFFFF
    · obtain ⟨desc, hdesc, -⟩ := hcomplete.found ⟨ha ▸ .refl, hpresent⟩
      rw [scannedRoot_missing garbage hmulti hvendor] at hdesc
      cases hdesc
    · obtain ⟨descs, heq, hmem⟩ := scannedRoot_twice garbage hmulti hvendor
      generalize getDeviceDescriptor config garbage ⟨0, 0, 0⟩ = host at heq hmem
      obtain ⟨hnodup, -⟩ := complete_iff.mp hcomplete host.baseClass host.subClass
      rw [heq, List.filter_cons_of_pos (by simp), List.map_cons, List.nodup_cons] at hnodup
      exact hnodup.1 (List.mem_map_of_mem (List.mem_filter.mpr ⟨hmem, by simp⟩))
  · refine .inl ⟨hmulti, fun b hb a ha hpresent => ?_⟩
    obtain ⟨desc, hdesc, rfl⟩ := hcomplete.found ⟨ha ▸ .single hb, hpresent⟩
    rw [(scannedRoot_single garbage hmulti).mem_iff] at hdesc
    obtain ⟨a', ha', rfl⟩ := List.mem_map.mp hdesc
    have hbus : b = 0 := ha.symm.trans (mem_presentOn config |>.mp ha').1
    exact BitVec.lt_irrefl 0 (hbus ▸ h.lt (.single hb))

theorem lookupOk_of_scan (h : config.BridgeTree)
    (hcomplete : ∃ fuel root, scanPciSpace config garbage fuel = .ok root ∧ Complete config root) :
    config.LookupOk := by
  obtain ⟨fuel, root, hscan, hcomplete⟩ := hcomplete
  obtain ⟨-, rfl⟩ := scanPciSpace_eq_ok.mp ⟨fuel, hscan⟩
  exact lookupOk_of_complete h hcomplete

theorem complete_of_lookupOk (h : config.LookupOk) :
    Complete config (scannedRoot config garbage) := by
  rcases h with ⟨hmulti, hbehind⟩ | ⟨hmulti, hnone⟩
  · refine complete_of_found (scannedRoot_single garbage hmulti) (nodup_presentOn config 0)
      fun a => ?_
    rw [mem_presentOn, ConfigSpace.Discoverable]
    refine and_congr_left fun hpresent => ⟨fun ha => ha ▸ .refl, fun hreach => ?_⟩
    rcases hreach.cases_head with heq | ⟨b, hb, hrest⟩
    · exact heq.symm
    · -- there is nothing behind the first bridge, so the chain ends there
      rcases hrest.cases_head with heq | ⟨c, ⟨a', ha', hpresent', -⟩, -⟩
      · exact absurd hpresent (hbehind b hb a heq.symm)
      · exact absurd hpresent' (hbehind b hb a' ha')
  · have hvendor : config.vendorId ⟨0, 0, 0⟩ = 0xFFFF := by
      by_contra hvendor
      exact hnone ⟨0, 0, 0⟩ rfl ⟨hvendor, .inl rfl⟩
    have hfound : (descriptors (scannedRoot config garbage).devList).Perm
        (([] : List PciAddress).map (getDeviceDescriptor config garbage)) := by
      rw [scannedRoot_missing garbage hmulti hvendor]
      exact List.Perm.refl _
    refine complete_of_found hfound List.nodup_nil fun a => iff_of_false (List.not_mem_nil) ?_
    rintro ⟨hreach, hpresent⟩
    rcases hreach.cases_head with heq | ⟨b, ⟨a', ha', hpresent', -⟩, -⟩
    · exact absurd hpresent (hnone a heq.symm)
    · exact absurd hpresent' (hnone a' ha')

end

/-- For a tree of bridges, `init_pci` returns and the lookups are complete exactly if device 0 of
bus 0 has one function and there is nothing behind the bridges, or there is nothing at all. -/
theorem scanPciSpace_complete_iff (config : ConfigSpace) (garbage : Garbage)
    (h : config.BridgeTree) :
    (∃ fuel root, scanPciSpace config garbage fuel = .ok root ∧ Complete config root) ↔
      config.LookupOk := by
  refine ⟨lookupOk_of_scan h, fun hok => ?_⟩
  obtain ⟨fuel, hscan⟩ := h.scan garbage
  exact ⟨fuel, _, hscan, complete_of_lookupOk hok⟩

/-- A host bridge at 0:0:0, a bridge to bus 1 at 0:1:0 if asked for, and a device at 1:0:0. -/
def configWith (bridge : Bool) : ConfigSpace := fun a reg =>
  if a = ⟨0, 0, 0⟩ then if reg = 0 then 0x12378086 else if reg = 2 then 0x06000000 else 0
  else if a = ⟨0, 1, 0⟩ ∧ bridge then
    if reg = 0 then 0x12388086 else if reg = 2 then 0x06040000 else if reg = 6
      then 0x00000100 else 0
  else if a = ⟨1, 0, 0⟩ then if reg = 0 then 0x12398086 else if reg = 2 then 0x01060000 else 0
  else 0xFFFFFFFF

theorem configWith_present (h : (configWith bridge).Present a) :
    a = ⟨0, 0, 0⟩ ∨ (a = ⟨0, 1, 0⟩ ∧ bridge) ∨ a = ⟨1, 0, 0⟩ := by
  obtain ⟨hvendor, hfunction⟩ := h
  have hdevice : (⟨a.bus, a.device, 0⟩ : PciAddress) = ⟨0, 0, 0⟩ ∨
      ((⟨a.bus, a.device, 0⟩ : PciAddress) = ⟨0, 1, 0⟩ ∧ bridge) ∨
      (⟨a.bus, a.device, 0⟩ : PciAddress) = ⟨1, 0, 0⟩ := by
    by_contra hnone
    simp only [not_or] at hnone
    refine hvendor ?_
    rw [ConfigSpace.vendorId, configWith, if_neg hnone.1, if_neg hnone.2.1, if_neg hnone.2.2]
    decide
  have hsingle : ¬(configWith bridge).Multifunction a.bus a.device := by
    rw [ConfigSpace.Multifunction]
    rcases hdevice with heq | ⟨heq, rfl⟩ | heq <;> rw [heq]
    · cases bridge <;> decide
    · decide
    · cases bridge <;> decide
  have hzero : a.function = 0 := hfunction.resolve_right fun h => hsingle h.1
  have ha : a = ⟨a.bus, a.device, 0⟩ := by rw [← hzero]
  rw [ha]
  exact hdevice

/-- The bridge of `configWith` is that to bus 1. -/
theorem configWith_bridge (h : (configWith bridge).Present a)
    (hbridge : (configWith bridge).Bridge a) :
    a = ⟨0, 1, 0⟩ ∧ bridge = true := by
  rcases configWith_present h with rfl | ⟨rfl, hb⟩ | rfl
  · cases bridge <;> exact absurd hbridge.2 (by decide)
  · exact ⟨rfl, hb⟩
  · cases bridge <;> exact absurd hbridge.1 (by decide)

theorem bridgeTree_configWith (bridge : Bool) : (configWith bridge).BridgeTree := by
  constructor
  · intro a hpresent hbridge
    obtain ⟨rfl, rfl⟩ := configWith_bridge hpresent hbridge
    decide
  · intro a a' hpresent hbridge hpresent' hbridge' _
    rw [(configWith_bridge hpresent hbridge).1, (configWith_bridge hpresent' hbridge').1]

/-- Without the bridge the host bridge is all there is to find. -/
theorem scanPciSpace_complete_hostBridge : ∃ fuel root,
    scanPciSpace (configWith false) (fun _ _ => 0) fuel = .ok root ∧
      Complete (configWith false) root := by
  refine (scanPciSpace_complete_iff _ _ (bridgeTree_configWith false)).mpr (.inl ⟨by decide, ?_⟩)
  rintro b ⟨a, -, hpresent, hbridge, -⟩
  cases (configWith_bridge hpresent hbridge).2

/-- The device behind the bridge is not found. -/
theorem scanPciSpace_misses_bridged : (configWith true).BridgeTree ∧
    ¬∃ fuel root, scanPciSpace (configWith true) (fun _ _ => 0) fuel = .ok root ∧
      Complete (configWith true) root := by
  refine ⟨bridgeTree_configWith true, ?_⟩
  intro hcomplete
  rcases lookupOk_of_scan (bridgeTree_configWith true) hcomplete with ⟨-, hbehind⟩ | ⟨hmulti, -⟩
  · refine hbehind 1 ⟨⟨0, 1, 0⟩, rfl, ⟨by decide, .inl rfl⟩, ⟨by decide, by decide⟩, by decide⟩
      ⟨1, 0, 0⟩ rfl ⟨by decide, .inl rfl⟩
  · exact absurd hmulti (by decide)

end Lethe
