import Mathlib.Data.Nat.Bitwise
import Lethe.Kernel.MappedPages

/-!
# The memory of an AHCI port

`init_port` of `lethe-kernel/pci/ahci.c`. The firmware has chosen where the command list and the
received FIS of a port are, and `init_port` maps the pages of both. `PAGE_ALIGN` only clears bit 12
of an address, so that the address that is mapped, and stored in the device, is either the one of
the firmware or the one a page below it. A drive then gets its first command, and `get_cmd_table`
maps the page of the command table, unless the direct mapping leads there already.

`kmalloc` is a parameter, and so is what the device answers. The firmware's memory, and not that of
the page tables, holds the command headers and tables.
-/

namespace Lethe

/-! ## The code -/

/-- `PAGE_ALIGN`. -/
def pageAlign (x : BitVec 64) : BitVec 64 := x &&& ~~~4096

/-- `IS_PAGE_ALIGNED`. -/
def isPageAligned (x : BitVec 64) : Bool := x &&& (pageSize - 1) = 0

/-- `SATA_SIG_ATA`. -/
def sataSigAta : BitVec 32 := 0x00000101

/-- `PAGE_PRESENT | PAGE_WRITABLE | PAGE_CACHE_DISABLE`. -/
def ahciFlags : BitVec 16 := 0b10011

/-- The registers of `ahci_port_t` that `init_port` reads. -/
structure AhciPort where
  clb : BitVec 32
  clbu : BitVec 32
  fb : BitVec 32
  fbu : BitVec 32
  sig : BitVec 32
  ssts : BitVec 32
  deriving DecidableEq, Repr

/-- `ahci_dev_t`; `next` is the rest of the list. -/
structure AhciDevice where
  type : BitVec 32
  portNumber : BitVec 8
  port : AhciPort
  commandHeader : BitVec 64
  fisBase : BitVec 64
  deriving DecidableEq, Repr

/-- The fields of `ahci_cmd_hdr_t` that `send_cmd` reads or writes. -/
structure AhciCmdHdr where
  cfl : BitVec 5
  w : BitVec 1
  prdtl : BitVec 16
  ctba : BitVec 32
  ctbau : BitVec 32
  deriving DecidableEq, Repr

/-- `ahci_fis_h2d_t`. The fields that are left out are 0. -/
structure AhciFisH2d where
  fisType : BitVec 8
  c : BitVec 1
  cmd : BitVec 8
  dev : BitVec 8
  deriving DecidableEq, Repr

/-- What `send_cmd` reads from the registers of the port, and how its loops on them end. -/
structure Hba where
  /-- `port->sact | port->ci`. -/
  slots : BitVec 32
  /-- Bits 14 and 15 of `cmd` are read as 0 one after the other, which ends the loop of
  `stop_cmd`. -/
  stops : Bool
  /-- `tfd & 0x88` is read as 0 before the loop gives up. -/
  idle : Bool
  /-- The bit of the slot is read as 0 in `ci` before bit 0 is read as 1 in `is`. -/
  completes : Bool
  deriving DecidableEq, Repr

/-- The page tables, `device_list`, and the command headers and command tables at the physical
addresses: a table is known by the command in it, once `send_cmd` has cleared the rest. -/
structure AhciState where
  machine : Machine
  deviceList : List AhciDevice
  commandHeaders : BitVec 64 → AhciCmdHdr
  commandTables : BitVec 64 → Option AhciFisH2d

namespace AhciPort

/-- `clb` with its upper half. -/
def commandList (port : AhciPort) : BitVec 64 :=
  port.clb.setWidth 64 ||| port.clbu.setWidth 64 <<< 32

/-- `fb` with its upper half. -/
def receivedFis (port : AhciPort) : BitVec 64 :=
  port.fb.setWidth 64 ||| port.fbu.setWidth 64 <<< 32

/-- A device is there, and communication with it is established. -/
def Active (port : AhciPort) : Prop := port.ssts &&& 0b111 = 0x3

end AhciPort

/-- The address that `init_port` maps for a base address. -/
def mappedBase (base : BitVec 64) : BitVec 64 :=
  if isPageAligned base then base else pageAlign base

/-- The two calls of `map_page` in `init_port`. -/
def Machine.mapPortMemory (m : Machine) (clb fb : BitVec 64) : Except Panic Machine := do
  let m' ← m.mapPage (clb + m.hhdmMapping) clb ahciFlags
  m'.mapPage (fb + m.hhdmMapping) fb ahciFlags

/-- The fields that `init_port` assigns. -/
def AhciDevice.ofPort (port : AhciPort) (portNumber : BitVec 32)
    (commandHeader fisBase : BitVec 64) : AhciDevice where
  type := port.sig
  portNumber := portNumber.setWidth 8
  port
  commandHeader
  fisBase

/-- The loop of `find_cmdslot`. -/
def findCmdslotLoop : Nat → Nat → BitVec 32 → Option Nat
  | 0, _, _ => none
  | n + 1, i, slots => if slots &&& 1 = 0 then some i else findCmdslotLoop n (i + 1) (slots >>> 1)

/-- `find_cmdslot`; `none` is -1. -/
def findCmdslot (hba : Hba) : Option Nat := findCmdslotLoop 32 0 hba.slots

/-- `ctba` with its upper half. -/
def AhciCmdHdr.commandTable (header : AhciCmdHdr) : BitVec 64 :=
  header.ctba.setWidth 64 ||| header.ctbau.setWidth 64 <<< 32

namespace AhciState

/-- The physical address behind a pointer. -/
def physical (s : AhciState) (ptr : BitVec 64) : Except Panic (BitVec 64) :=
  match s.machine.translate s.machine.rootFrame ptr with
  | none => .error (.pageFault ptr)
  | some address => .ok address

/-- The assignments to the fields of a command header. -/
def updateHeader (s : AhciState) (ptr : BitVec 64) (f : AhciCmdHdr → AhciCmdHdr) :
    Except Panic AhciState := do
  let a ← s.physical ptr
  pure { s with commandHeaders := Function.update s.commandHeaders a (f (s.commandHeaders a)) }

/-- `memset(table, 0, sizeof(ahci_cmd_tbl_t))` and the assignments to the fields of the command. -/
def storeTable (s : AhciState) (ptr : BitVec 64) (fis : AhciFisH2d) : Except Panic AhciState := do
  let a ← s.physical ptr
  pure { s with commandTables := Function.update s.commandTables a (some fis) }

end AhciState

/-- `get_cmd_table`. -/
def getCmdTable (header : BitVec 64) (s : AhciState) : Except Panic (BitVec 64 × AhciState) := do
  let a ← s.physical header
  let physical := (s.commandHeaders a).commandTable
  let virtual := physical + s.machine.hhdmMapping
  if !isPageAligned virtual then throw .abort
  if s.machine.virtualToPhysical virtual ≠ physical then
    let machine ← s.machine.mapPage virtual physical ahciFlags
    pure (virtual, { s with machine })
  else pure (virtual, s)

/-- `send_cmd`, which does not use the command it is given. `sizeof(ahci_cmd_hdr_t)` is 32, and
`sizeof(ahci_fis_h2d_t)` is 20. -/
def sendCmd (hba : Hba) (device : AhciDevice) (_command : BitVec 8) (s : AhciState) :
    Except Panic AhciState :=
  if hba.stops then
    match findCmdslot hba with
    | none => throw .abort
    | some slot => do
      let header := device.commandHeader + BitVec.ofNat 64 (32 * slot)
      let s ← s.updateHeader header fun h => { h with cfl := 20 / 4, w := 0, prdtl := 0 }
      let (table, s) ← getCmdTable header s
      let s ← s.storeTable table { fisType := 0x27, c := 1, cmd := 0xEC, dev := device.portNumber }
      if !hba.idle then throw .abort
      if hba.completes then pure s else throw .doesNotReturn
  else throw .doesNotReturn

/-- `init_sata_drive`. -/
def initSataDrive (hba : Hba) (device : AhciDevice) (s : AhciState) : Except Panic AhciState :=
  sendCmd hba device 0 s

/-- `init_port`; `sizeof(ahci_dev_t)` is 40. -/
def initPort (kmalloc : BitVec 64 → Machine → Except Panic Machine) (hba : Hba) (port : AhciPort)
    (portNumber : BitVec 32) (s : AhciState) : Except Panic AhciState :=
  if port.ssts &&& 0b111 ≠ 0x3 then pure s
  else do
    let clb := mappedBase port.commandList
    let fb := mappedBase port.receivedFis
    let hhdmMapping := s.machine.hhdmMapping
    let machine ← s.machine.mapPortMemory clb fb
    let machine ← kmalloc 40 machine
    let device := AhciDevice.ofPort port portNumber (clb + hhdmMapping) (fb + hhdmMapping)
    let s := { s with machine, deviceList := device :: s.deviceList }
    if device.type = sataSigAta then initSataDrive hba device s else pure s

/-! ## The base addresses -/

theorem toNat_pageAlign (x : BitVec 64) :
    (pageAlign x).toNat = x.toNat - x.toNat / 4096 % 2 * 4096 := by
  have hbit : (x &&& 4096).toNat = x.toNat / 4096 % 2 * 4096 := by
    rw [BitVec.toNat_and, show (4096 : BitVec 64).toNat = 2 ^ 12 from rfl, Nat.and_two_pow,
      Nat.testBit_eq_decide_div_mod_eq]
    rcases Nat.mod_two_eq_zero_or_one (x.toNat / 2 ^ 12) with hzero | hone
    · rw [hzero, show x.toNat / 4096 % 2 = 0 from hzero]
      rfl
    · rw [hone, show x.toNat / 4096 % 2 = 1 from hone]
      rfl
  have hsplit : pageAlign x + (x &&& 4096) = x := by
    rw [pageAlign, BitVec.add_eq_or_of_and_eq_zero, ← BitVec.and_or_distrib_left,
      BitVec.not_or_self, BitVec.and_allOnes]
    ext i hi
    simp only [BitVec.getElem_and, BitVec.getElem_not, BitVec.getElem_zero]
    cases (4096 : BitVec 64)[i] <;> simp
  have hsum := congrArg BitVec.toNat hsplit
  rw [BitVec.toNat_add, hbit] at hsum
  omega

theorem toNat_and_offset (x : BitVec 64) : (x &&& (pageSize - 1)).toNat = x.toNat % 4096 := by
  rw [BitVec.toNat_and]
  exact Nat.and_two_pow_sub_one_eq_mod x.toNat 12

theorem toNat_mappedBase (base : BitVec 64) : (mappedBase base).toNat =
    if base.toNat % 4096 = 0 then base.toNat
    else base.toNat - base.toNat / 4096 % 2 * 4096 := by
  have haligned : isPageAligned base ↔ base.toNat % 4096 = 0 := by
    rw [isPageAligned, decide_eq_true_iff, ← BitVec.toNat_inj, toNat_and_offset]
    rfl
  rw [mappedBase, apply_ite BitVec.toNat, toNat_pageAlign]
  simp only [haligned]

/-- The base address is an address of 52 bits in a page with an even number, or page-aligned. -/
def BaseOk (base : BitVec 64) : Prop :=
  (base.toNat % 4096 = 0 ∨ base.toNat / 4096 % 2 = 0) ∧ base.toNat < 2 ^ 52

instance : Decidable (BaseOk base) := inferInstanceAs (Decidable (_ ∧ _))

theorem mappedBase_of_baseOk (h : BaseOk base) : mappedBase base = base := by
  apply BitVec.eq_of_toNat_eq
  rw [toNat_mappedBase]
  split
  · rfl
  · next haligned =>
    rw [h.1.resolve_left haligned]
    rfl

/-- The frame of the address that is mapped, with its offset in the page, is the base address. -/
theorem frame_add_offset_eq_iff {base hhdmMapping : BitVec 64}
    (h : hhdmMapping.toNat % 4096 = 0) :
    frameAddr (frameNumber (mappedBase base)) +
      ((mappedBase base + hhdmMapping) &&& (pageSize - 1)) = base ↔ BaseOk base := by
  have hbase := toNat_mappedBase base
  have hframe : (frameNumber (mappedBase base)).toNat =
      (mappedBase base).toNat / 4096 % 2 ^ 40 := by
    simp only [frameNumber, BitVec.toNat_setWidth, BitVec.toNat_ushiftRight,
      Nat.shiftRight_eq_div_pow]
  rw [← BitVec.toNat_inj, BitVec.toNat_add, toNat_frameAddr, toNat_and_offset, hframe,
    BitVec.toNat_add, BaseOk]
  split at hbase
  · omega
  · omega

/-! ## The pages that are mapped -/

theorem ahciFlags_ok : Machine.FlagsOk ahciFlags := ⟨by decide, by decide⟩

/-- The calls of `map_page` for the memory of a port, and those by which the heap grows. -/
def portCalls (hhdmMapping clb fb : BitVec 64) (growth : List MapCall) : List MapCall :=
  ⟨clb + hhdmMapping, clb, ahciFlags⟩ :: ⟨fb + hhdmMapping, fb, ahciFlags⟩ :: growth

/-- The call of `map_page` in `get_cmd_table`, if `virtual_to_physical` comes to `found`. -/
def tableCalls (hhdmMapping table found : BitVec 64) : List MapCall :=
  if isPageAligned (table + hhdmMapping) ∧ found ≠ table then
    [⟨table + hhdmMapping, table, ahciFlags⟩]
  else []

namespace AhciState

/-- The call of `map_page` for the command table in a header. -/
def headerCalls (s : AhciState) (header : BitVec 64) (lookup : BitVec 64 → BitVec 64) :
    List MapCall :=
  let table := (s.commandHeaders header).commandTable
  tableCalls s.machine.hhdmMapping table (lookup (table + s.machine.hhdmMapping))

/-- The call of `map_page` that `send_cmd` makes after those of `init_port`: the command table is
that of the first free slot. -/
def driveCalls (s : AhciState) (hba : Hba) (port : AhciPort) (earlier : List MapCall) :
    List MapCall :=
  if port.sig = sataSigAta ∧ hba.stops then
    match findCmdslot hba with
    | none => []
    | some slot =>
      s.headerCalls (port.commandList + BitVec.ofNat 64 (32 * slot)) (s.machine.physicalAfter earlier)
  else []

end AhciState

section
variable {s : AhciState} {root : BitVec 40}

theorem physical_eq_ok (h : s.machine.Tables root) :
    s.physical ptr = .ok a ↔ s.machine.translate root ptr = some a := by
  rw [AhciState.physical, h.rootFrame_eq]
  cases s.machine.translate root ptr <;> simp

theorem physical_error (herr : s.physical ptr = .error e) : e = .pageFault ptr := by
  rw [AhciState.physical] at herr
  split at herr
  · exact (Except.error.inj herr).symm
  · cases herr

/-- Both calls of `map_page` for the memory of a port. -/
theorem Machine.Tables.mapPortMemory {m : Machine} (h : m.Tables root) (clb fb : BitVec 64) :
    m.Maps root (portCalls m.hhdmMapping clb fb []) id (m.mapPortMemory clb fb) := by
  have hclb := h.mapPage (clb + m.hhdmMapping) clb ahciFlags_ok
  exact hclb.bind fun m' hok => (hclb.added m' hok).tables.mapPage _ _ ahciFlags_ok

theorem getCmdTable_maps (h : s.machine.Tables root) (ha : s.machine.translate root ptr = some a) :
    s.machine.Maps root (s.headerCalls a s.machine.virtualToPhysical) (fun r => r.2.machine)
      (getCmdTable ptr s) := by
  rw [getCmdTable, (physical_eq_ok h).mpr ha, ok_bind, AhciState.headerCalls, tableCalls]
  dsimp only
  generalize (s.commandHeaders a).commandTable = table
  cases isPageAligned (table + s.machine.hhdmMapping) with
  | false =>
    exact .error (by simp) _
  | true =>
    simp only [Bool.not_true, Bool.false_eq_true, if_false, true_and]
    split
    · exact (h.mapPage _ _ ahciFlags_ok).bind_nil fun m _ hm => .ok rfl hm
    · exact .ok rfl h

/-- The pages that `send_cmd` maps. -/
def sendCalls (s : AhciState) (root : BitVec 40) (hba : Hba) (device : AhciDevice) : List MapCall :=
  match findCmdslot hba with
  | none => []
  | some slot =>
    match s.machine.translate root (device.commandHeader + BitVec.ofNat 64 (32 * slot)) with
    | none => []
    | some a => s.headerCalls a s.machine.virtualToPhysical

theorem updateHeader_ok (h : s.machine.Tables root) (ha : s.machine.translate root ptr = some a)
    (f : AhciCmdHdr → AhciCmdHdr) : ∃ s', s.updateHeader ptr f = .ok s' ∧
      s'.machine = s.machine ∧ s'.commandHeaders a = f (s.commandHeaders a) := by
  rw [AhciState.updateHeader, (physical_eq_ok h).mpr ha]
  exact ⟨_, rfl, rfl, Function.update_self a _ s.commandHeaders⟩

theorem storeTable_maps (h : s.machine.Tables root) (ptr : BitVec 64) (fis : AhciFisH2d) :
    s.machine.Maps root [] AhciState.machine (s.storeTable ptr fis) := by
  rw [AhciState.storeTable]
  cases ha : s.physical ptr with
  | error e =>
    rw [physical_error ha]
    exact .error (by simp) _
  | ok a => exact .ok rfl h

/-- `send_cmd`, if the loop of `stop_cmd` ends. -/
theorem sendCmd_maps (h : s.machine.Tables root) (hba : Hba) (device : AhciDevice)
    (command : BitVec 8) : s.machine.Maps root (if hba.stops then sendCalls s root hba device else [])
      AhciState.machine (sendCmd hba device command s) := by
  rw [sendCmd]
  split
  swap
  · exact .error (by simp) _
  rw [sendCalls]
  split
  · exact .error (by simp) _
  · next slot hslot =>
    dsimp only
    generalize device.commandHeader + BitVec.ofNat 64 (32 * slot) = header
    cases ha : s.machine.translate root header with
    | none =>
      have hfault : s.physical header = .error (.pageFault header) := by
        rw [AhciState.physical, h.rootFrame_eq, ha]
      rw [AhciState.updateHeader, hfault]
      exact .error (by simp) _
    | some a =>
      obtain ⟨s₁, hok, hmachine, hheader⟩ := updateHeader_ok h ha fun h : AhciCmdHdr =>
        { h with cfl := 20 / 4, w := 0, prdtl := 0 }
      have hcalls : s.headerCalls a s.machine.virtualToPhysical =
          s₁.headerCalls a s₁.machine.virtualToPhysical := by
        simp only [AhciState.headerCalls, hheader, hmachine]
        rfl
      dsimp only
      rw [hok, ok_bind, hcalls, ← hmachine]
      rw [← hmachine] at h ha
      refine (getCmdTable_maps h ha).bind_nil fun (table, s₂) _ h₂ => ?_
      refine (storeTable_maps h₂ table _).bind_nil fun s₃ _ h₃ => ?_
      split
      · exact .error (by simp) _
      split
      · exact .ok rfl h₃
      · exact .error (by simp) _

theorem updateHeader_deviceList (hok : s.updateHeader ptr f = .ok s') :
    s'.deviceList = s.deviceList := by
  obtain ⟨a, -, hok⟩ := bind_eq_ok.mp hok
  cases hok
  rfl

theorem storeTable_deviceList (hok : s.storeTable ptr fis = .ok s') :
    s'.deviceList = s.deviceList := by
  obtain ⟨a, -, hok⟩ := bind_eq_ok.mp hok
  cases hok
  rfl

theorem getCmdTable_deviceList (hok : getCmdTable ptr s = .ok (table, s')) :
    s'.deviceList = s.deviceList := by
  obtain ⟨a, -, hok⟩ := bind_eq_ok.mp hok
  dsimp only at hok
  split at hok
  · cases hok
  split at hok
  · obtain ⟨m, -, hok⟩ := bind_eq_ok.mp hok
    cases hok
    rfl
  · cases hok
    rfl

theorem sendCmd_deviceList (hok : sendCmd hba device command s = .ok s') :
    s'.deviceList = s.deviceList := by
  rw [sendCmd] at hok
  split at hok
  swap
  · cases hok
  split at hok
  · cases hok
  obtain ⟨s₁, hheader, hok⟩ := bind_eq_ok.mp hok
  obtain ⟨⟨table, s₂⟩, htable, hok⟩ := bind_eq_ok.mp hok
  obtain ⟨s₃, hstore, hok⟩ := bind_eq_ok.mp hok
  dsimp only at hok
  split at hok
  · cases hok
  split at hok
  · cases hok
    rw [storeTable_deviceList hstore, getCmdTable_deviceList htable,
      updateHeader_deviceList hheader]
  · cases hok

end

/-! ## The port -/

theorem findCmdslotLoop_lt (h : findCmdslotLoop n i slots = some slot) : slot < i + n := by
  induction n generalizing i slots with
  | zero => cases h
  | succ n ih =>
    rw [findCmdslotLoop] at h
    split at h
    · cases h
      omega
    · have := ih h
      omega

/-- A command header is in the page of the command list. -/
theorem translate_header {m : Machine} {root : BitVec 40} {clb hhdmMapping : BitVec 64}
    (hm : m.Tables root) (hwalk : m.hardwareWalk root (clb + hhdmMapping) = .page (frameNumber clb))
    (hlist : clb.toNat % 1024 = 0) (hbase : BaseOk clb) (haligned : hhdmMapping.toNat % 4096 = 0)
    (hslot : findCmdslot hba = some slot) :
    m.translate root (clb + hhdmMapping + BitVec.ofNat 64 (32 * slot)) =
      some (clb + BitVec.ofNat 64 (32 * slot)) := by
  have hlt := findCmdslotLoop_lt hslot
  have hbound := hbase.2
  have hlt' := hhdmMapping.isLt
  have hheader : (clb + hhdmMapping + BitVec.ofNat 64 (32 * slot)).toNat =
      (clb + hhdmMapping).toNat + 32 * slot := by
    simp only [BitVec.toNat_add, BitVec.toNat_ofNat]
    omega
  have hpage : Machine.pageNumber (clb + hhdmMapping + BitVec.ofNat 64 (32 * slot)) =
      Machine.pageNumber (clb + hhdmMapping) := by
    apply BitVec.eq_of_toNat_eq
    rw [Machine.toNat_pageNumber, Machine.toNat_pageNumber, hheader, BitVec.toNat_add]
    omega
  rw [Machine.translate_of_page ((hm.hardwareWalk_congr hpage).trans hwalk), Option.some_inj]
  apply BitVec.eq_of_toNat_eq
  rw [BitVec.toNat_add, BitVec.toNat_add, toNat_frameAddr, toNat_and_offset, hheader,
    BitVec.toNat_add, BitVec.toNat_ofNat]
  simp only [frameNumber, BitVec.toNat_setWidth, BitVec.toNat_ushiftRight,
    Nat.shiftRight_eq_div_pow]
  omega

/-- The calls of `map_page` return. -/
def AhciState.MapsPort (s : AhciState) (port : AhciPort) (m : Machine) : Prop :=
  s.machine.mapPortMemory (mappedBase port.commandList) (mappedBase port.receivedFis) = .ok m

/-- No page is found mapped, and the addresses that are stored in the new device translate to the
base addresses of the port. -/
def PortMapped (root : BitVec 40) (port : AhciPort) (result : Except Panic AhciState) : Prop :=
  (∀ frame page, result ≠ .error (.alreadyMapped frame page)) ∧
    ∀ s', result = .ok s' → ∃ device devices, s'.deviceList = device :: devices ∧
      s'.machine.translate root device.commandHeader = some port.commandList ∧
      s'.machine.translate root device.fisBase = some port.receivedFis

/-- `PAGE_ALIGN` does not change the base addresses, and the tables can hold them. The pages of
both, those by which the heap grows, and that of the command table, if it has to be mapped, are
different, and none of them is mapped. -/
structure PortOk (s : AhciState) (root : BitVec 40) (hba : Hba) (port : AhciPort)
    (growth : List MapCall) : Prop where
  commandList : BaseOk port.commandList
  receivedFis : BaseOk port.receivedFis
  canMap :
    let calls := portCalls s.machine.hhdmMapping port.commandList port.receivedFis growth
    s.machine.CanMap root (calls ++ s.driveCalls hba port calls)

section
variable {kmalloc : BitVec 64 → Machine → Except Panic Machine} {root : BitVec 40}
  {port : AhciPort} {s : AhciState} {growth : List MapCall}
  (h : s.machine.Tables root) (hactive : port.Active)
  (hkmalloc : ∀ m, s.MapsPort port m → m.Maps root growth id (kmalloc 40 m))
include h hkmalloc

/-- The pages that are mapped before the drive gets a command. -/
theorem portMemory_maps :
    s.machine.Maps root (portCalls s.machine.hhdmMapping (mappedBase port.commandList)
      (mappedBase port.receivedFis) growth) id
      (s.machine.mapPortMemory (mappedBase port.commandList) (mappedBase port.receivedFis) >>=
        kmalloc 40) :=
  (h.mapPortMemory (mappedBase port.commandList) (mappedBase port.receivedFis)).bind hkmalloc

include hactive

/-- The pages that `init_port` maps. -/
theorem initPort_maps (hba : Hba) (portNumber : BitVec 32) :
    let calls := portCalls s.machine.hhdmMapping (mappedBase port.commandList)
      (mappedBase port.receivedFis) growth
    ∃ calls', s.machine.Maps root (calls ++ calls') AhciState.machine
        (initPort kmalloc hba port portNumber s) ∧
      (s.machine.Clean root → s.machine.hhdmMapping.toNat % 4096 = 0 →
        port.commandList.toNat % 1024 = 0 → BaseOk port.commandList →
        calls' = s.driveCalls hba port calls) := by
  intro calls
  have hmemory : s.machine.Maps root calls id _ := portMemory_maps h hkmalloc
  have hssts : ¬port.ssts &&& 0b111 ≠ 0x3 := not_not.mpr hactive
  rw [initPort, if_neg hssts]
  dsimp only
  rw [← bind_assoc]
  cases hresult : s.machine.mapPortMemory (mappedBase port.commandList)
      (mappedBase port.receivedFis) >>= kmalloc 40 with
  | error e =>
    rw [hresult] at hmemory
    exact ⟨_, hmemory.bind nofun, fun _ _ _ _ => rfl⟩
  | ok m =>
    rw [hresult] at hmemory
    have hadded := hmemory.added m rfl
    generalize hdevice : AhciDevice.ofPort port portNumber _ _ = device
    let s₁ : AhciState := { s with machine := m, deviceList := device :: s.deviceList }
    have hsata : device.type = port.sig := by
      rw [← hdevice]
      rfl
    refine ⟨if port.sig = sataSigAta then if hba.stops then sendCalls s₁ root hba device else []
      else [], hmemory.bind fun m' hok => ?_, fun hclean haligned hlist hbase => ?_⟩
    · cases hok
      rw [hsata]
      split
      · exact sendCmd_maps (s := s₁) hadded.tables hba device 0
      · exact .ok rfl hadded.tables
    · have hwalk := hadded.new _ List.mem_cons_self
      have hheader (slot : Nat) (hslot : findCmdslot hba = some slot) :
          s₁.machine.translate root (device.commandHeader + BitVec.ofNat 64 (32 * slot)) =
            some (port.commandList + BitVec.ofNat 64 (32 * slot)) := by
        rw [← hdevice]
        rw [mappedBase_of_baseOk hbase] at hwalk ⊢
        exact translate_header hadded.tables hwalk hlist hbase haligned hslot
      have hfound : s₁.machine.virtualToPhysical = s.machine.physicalAfter calls :=
        funext fun v => hadded.virtualToPhysical h hclean v
      have hhdm : s₁.machine.hhdmMapping = s.machine.hhdmMapping := hadded.hhdmMapping_eq
      rw [AhciState.driveCalls, ite_and, sendCalls]
      cases hslot : findCmdslot hba with
      | none => rfl
      | some slot =>
        simp only [hheader slot hslot, AhciState.headerCalls, hfound, hhdm]
        rfl

/-- What `init_port` leaves when it returns: the addresses in the new device translate to the base
addresses exactly if these are as in `BaseOk`. -/
theorem initPort_stored (hba : Hba) (portNumber : BitVec 32)
    (haligned : s.machine.hhdmMapping.toNat % 4096 = 0)
    (hok : initPort kmalloc hba port portNumber s = .ok s') :
    ∃ device, s'.deviceList = device :: s.deviceList ∧
      (s'.machine.translate root device.commandHeader = some port.commandList ↔
        BaseOk port.commandList) ∧
      (s'.machine.translate root device.fisBase = some port.receivedFis ↔
        BaseOk port.receivedFis) := by
  obtain ⟨calls, hmaps, -⟩ := initPort_maps h hactive hkmalloc hba portNumber
  have hnew := (hmaps.added s' hok).new
  have hclb := hnew _ (List.mem_append_left calls List.mem_cons_self)
  have hfb := hnew _ (List.mem_append_left calls (List.mem_cons_of_mem _ List.mem_cons_self))
  have hssts : ¬port.ssts &&& 0b111 ≠ 0x3 := not_not.mpr hactive
  rw [initPort, if_neg hssts] at hok
  obtain ⟨m, -, hok⟩ := bind_eq_ok.mp hok
  obtain ⟨m', -, hok⟩ := bind_eq_ok.mp hok
  dsimp only at hok
  refine ⟨AhciDevice.ofPort port portNumber
    (mappedBase port.commandList + s.machine.hhdmMapping)
    (mappedBase port.receivedFis + s.machine.hhdmMapping), ?_, ?_, ?_⟩
  · split at hok
    · exact sendCmd_deviceList hok
    · cases hok
      rfl
  · rw [AhciDevice.ofPort, Machine.translate_of_page hclb, Option.some_inj]
    exact frame_add_offset_eq_iff haligned
  · rw [AhciDevice.ofPort, Machine.translate_of_page hfb, Option.some_inj]
    exact frame_add_offset_eq_iff haligned

variable (hclean : s.machine.Clean root) (haligned : s.machine.hhdmMapping.toNat % 4096 = 0)
  (hlist : port.commandList.toNat % 1024 = 0)
include hclean haligned hlist

end

/-! ## Empty tables -/

theorem Machine.EmptyRoot.tables {m : Machine} {root : BitVec 40} (h : m.EmptyRoot root) :
    m.Tables root := by
  refine ⟨h.tableInv, fun q e _ he => ?_⟩
  rw [h.entryOn] at he
  cases he

theorem Machine.EmptyRoot.hardwareWalk {m : Machine} {root : BitVec 40} (h : m.EmptyRoot root)
    (v : BitVec 64) : m.hardwareWalk root v = .missing :=
  h.tables.smallPages.missing_iff.mpr (h.entryOn _)

/-- An empty top-level table in frame 1, and eight free frames. The command table of the second header
of the list at `0x8400` is at `0xC000`. -/
def emptyPortState : AhciState where
  machine :=
    { Machine.emptyTables with
      allocator :=
        { memoryMap := [], next := { start := false, base := 0x10000, length := 0x8000 } } }
  deviceList := []
  commandHeaders a := ⟨0, 0, 0, if a = 0x8420 then 0xC000 else 0xE000, 0⟩
  commandTables _ := none

/-- An active port with a drive. -/
def portAt (clb fb : BitVec 32) : AhciPort := ⟨clb, 0, fb, 0, sataSigAta, 3⟩

/-- A device whose first command slot is in use, and that answers. -/
def readyHba : Hba := ⟨1, true, true, true⟩

theorem emptyRoot_emptyPortState : emptyPortState.machine.EmptyRoot 1 := by
  have hpend : emptyPortState.machine.allocator.pending =
      [0x10000, 0x11000, 0x12000, 0x13000, 0x14000, 0x15000, 0x16000, 0x17000] := by decide
  refine ⟨by decide, fun _ => rfl, ?_, ⟨rfl, by decide, by decide, nofun⟩, ?_, ?_⟩
  · rw [hpend]
    decide
  · rw [hpend]
    decide
  · rw [hpend]
    simp

theorem clean_emptyPortState : emptyPortState.machine.Clean 1 := by
  refine ⟨fun _ _ _ _ => rfl, fun {p n} hne _ hto => ?_⟩
  rw [← List.dropLast_concat_getLast hne, Machine.tableOn_concat,
    emptyRoot_emptyPortState.entryOn] at hto
  cases hto

/-- `init_port` where the heap does not have to grow. -/
def initPortAt (clb fb : BitVec 32) : Except Panic AhciState :=
  initPort (fun _ => .ok) readyHba (portAt clb fb) 0 emptyPortState

end Lethe
