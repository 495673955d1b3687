import Lethe.Kernel.Paging

/-!
# The page walk of the processor

The processor stops at an entry that is not present, and takes an entry of level 3 or 2 with the
page-size bit for a page of 1 GiB or 2 MiB. `virtual_to_physical` looks at neither bit: it takes
every address that is not 0 for that of a table. `Machine.WalkOk` says for which tables the two
come to the same result.
-/

namespace Lethe

/-- How the walk of the processor ends. -/
inductive Walk where
  | missing
  /-- The frame of the 4 KiB inside a page of 1 GiB or 2 MiB. -/
  | large (frame : BitVec 40)
  | page (frame : BitVec 40)
  deriving DecidableEq, Repr

/-- The frame that the address is mapped to. -/
def Walk.frame : Walk → Option (BitVec 40)
  | missing => none
  | large frame | page frame => some frame

namespace Machine

/-- A page of `2 ^ (12 + shift)` bytes. Bit 12 of its entry is not part of the address, and the
other bits below the address are reserved. -/
def largePage (e : PageEntry) (shift : Nat) (v : BitVec 64) : Walk :=
  if e.address.toNat / 2 % 2 ^ (shift - 1) ≠ 0 then .missing
  else .large (BitVec.ofNat 40
    (e.address.toNat / 2 ^ shift * 2 ^ shift + v.toNat / 4096 % 2 ^ shift))

/-- The walk of the processor from the top-level table in the frame `root`. The page-size bit is
reserved in level 4 and has another meaning in level 1. -/
def hardwareWalk (m : Machine) (root : BitVec 40) (v : BitVec 64) : Walk :=
  let p4 := m.entry root (p4Index v)
  if p4.present = 0 ∨ p4.pageSize = 1 then .missing
  else
    let p3 := m.entry p4.address (p3Index v)
    if p3.present = 0 then .missing
    else if p3.pageSize = 1 then largePage p3 18 v
    else
      let p2 := m.entry p3.address (p2Index v)
      if p2.present = 0 then .missing
      else if p2.pageSize = 1 then largePage p2 9 v
      else
        let p1 := m.entry p2.address (p1Index v)
        if p1.present = 0 then .missing else .page p1.address

/-- `virtual_to_physical` is not 0 exactly when the processor finds an address that is not 0, and
then it is this address. -/
def WalksAgree (m : Machine) (root : BitVec 40) (v : BitVec 64) : Prop :=
  (m.virtualToPhysical v ≠ 0 ↔ ∃ n, (m.hardwareWalk root v).frame = some n ∧ frameAddr n ≠ 0) ∧
    ∀ n, m.virtualToPhysical v ≠ 0 → (m.hardwareWalk root v).frame = some n →
      m.virtualToPhysical v = frameAddr n

/-! ## The entries of a path -/

/-- The entries of the four levels when each address is taken for that of a table. -/
structure Path where
  p4 : PageEntry
  p3 : PageEntry
  p2 : PageEntry
  p1 : PageEntry

/-- None of the four addresses is 0. -/
def Path.Full (p : Path) : Prop :=
  p.p4.address ≠ 0 ∧ p.p3.address ≠ 0 ∧ p.p2.address ≠ 0 ∧ p.p1.address ≠ 0

instance : Decidable (Path.Full p) := inferInstanceAs (Decidable (_ ∧ _ ∧ _ ∧ _))

def path (m : Machine) (root : BitVec 40) (v : BitVec 64) : Path :=
  let p4 := m.entry root (p4Index v)
  let p3 := m.entry p4.address (p3Index v)
  let p2 := m.entry p3.address (p2Index v)
  ⟨p4, p3, p2, m.entry p2.address (p1Index v)⟩

/-- Where the walk of the processor ends at a 4 KiB page, none of the tables is in frame 0 (or the
page is). Where it ends at a missing entry, an address on the path is 0. Where it ends at a large
page, the bytes of this page read as tables lead to the frame that they are in themselves (or the
frame is 0 and an address on the path is 0). -/
def Path.Ok (p : Path) : Walk → Prop
  | .missing => ¬p.Full
  | .page frame => frame = 0 ∨ p.Full
  | .large frame => if frame = 0 then ¬p.Full else p.Full ∧ p.p1.address = frame

instance : Decidable (Path.Ok p walk) :=
  match walk with
  | .missing => inferInstanceAs (Decidable (¬_))
  | .page _ => inferInstanceAs (Decidable (_ ∨ _))
  | .large _ => inferInstanceAs (Decidable (ite _ _ _))

/-- The tables on which the two walks agree. -/
def WalkOk (m : Machine) (root : BitVec 40) (v : BitVec 64) : Prop :=
  (m.path root v).Ok (m.hardwareWalk root v)

instance : Decidable (WalkOk m root v) := inferInstanceAs (Decidable (Path.Ok _ _))

variable {m : Machine} {root : BitVec 40} {v : BitVec 64}

/-- `virtual_to_physical` is the address at the end of a full path. -/
theorem virtualToPhysical_path (h : m.pageTable = frameAddr root + m.hhdmMapping) (v : BitVec 64) :
    m.virtualToPhysical v =
      if (m.path root v).Full then frameAddr (m.path root v).p1.address else 0 := by
  simp only [virtualToPhysical, h, physical_eq, pages_frame, frameAddr_eq_zero, path, Path.Full]
  split
  · simp_all
  split
  · simp_all
  split
  · simp_all
  split
  · simp_all
  · simp_all

/-- The walk of the processor ends at a 4 KiB page only with the last entry of the path. -/
theorem page_eq_path (h : m.hardwareWalk root v = .page frame) :
    frame = (m.path root v).p1.address := by
  have hlarge (e : PageEntry) (shift : Nat) : largePage e shift v ≠ .page frame := by
    rw [largePage]
    split <;> simp
  simp only [hardwareWalk] at h
  split at h
  · cases h
  split at h
  · cases h
  split at h
  · exact absurd h (hlarge _ _)
  split at h
  · cases h
  split at h
  · exact absurd h (hlarge _ _)
  split at h
  · cases h
  · exact (Walk.page.inj h).symm

/-- `virtual_to_physical` agrees with the processor exactly on the tables of `WalkOk`. -/
theorem virtualToPhysical_agrees_iff (m : Machine) (root : BitVec 40)
    (h : m.pageTable = frameAddr root + m.hhdmMapping) (v : BitVec 64) :
    m.WalksAgree root v ↔ m.WalkOk root v := by
  have hzero (n : BitVec 40) : frameAddr n = 0#64 ↔ n = 0#40 := frameAddr_eq_zero
  rw [WalksAgree, WalkOk, virtualToPhysical_path h]
  by_cases hfull : (m.path root v).Full
  · -- the software finds the frame of the last entry
    have hne : (m.path root v).p1.address ≠ 0#40 := hfull.2.2.2
    cases hwalk : m.hardwareWalk root v with
    | missing => simp [Path.Ok, hfull, hzero, hne, Walk.frame]
    | page frame =>
      obtain rfl := page_eq_path hwalk
      simp [Path.Ok, hfull, hzero, hne, Walk.frame]
    | large frame =>
      by_cases hframe : frame = 0#40
      · simp [Path.Ok, hfull, hzero, hne, Walk.frame, hframe]
      · simp [Path.Ok, hfull, hzero, hne, Walk.frame, hframe, frameAddr_inj]
  · -- the software finds nothing
    cases hwalk : m.hardwareWalk root v with
    | missing => simp [Path.Ok, hfull, Walk.frame]
    | page frame => simp [Path.Ok, hfull, Walk.frame, hzero]
    | large frame => simp [Path.Ok, hfull, Walk.frame, hzero]

/-- A table entry with the given page-size bit. -/
def tableEntry (pageSize : BitVec 1) (address : BitVec 40) : PageEntry :=
  { PageEntry.zero with present := 1, writable := 1, pageSize, address }

/-- Tables in the frames 1, 2, 3 and 4 for the addresses from `0xFFFF800000200000` on, with the
given entry of level 2. -/
def tablesWith (p2 : PageEntry) : Machine where
  mem a :=
    if a = 0x1800 then tableEntry 0 2
    else if a = 0x2000 then tableEntry 0 3
    else if a = 0x3008 then p2
    else if a = 0x4000 then tableEntry 0 0x200
    else .zero
  hhdmMapping := 0xFFFF800000000000
  pageTable := 0xFFFF800000001000
  allocator := { memoryMap := [], next := { start := false, base := 0, length := 0 } }

/-- With a table of level 1 the walks agree. -/
theorem virtualToPhysical_agrees_table :
    (tablesWith (tableEntry 0 4)).WalkOk 1 0xFFFF800000200000 ∧
      (tablesWith (tableEntry 0 4)).WalksAgree 1 0xFFFF800000200000 := by
  have hok : (tablesWith (tableEntry 0 4)).WalkOk 1 0xFFFF800000200000 := by decide
  exact ⟨hok, (virtualToPhysical_agrees_iff _ 1 (by decide) _).mpr hok⟩

/-- A page of 2 MiB: the processor maps the address to `0x200000`, `virtual_to_physical` reads the
start of the page as a table and finds nothing. -/
theorem virtualToPhysical_largePage :
    (tablesWith (tableEntry 1 0x200)).hardwareWalk 1 0xFFFF800000200000 = .large 0x200 ∧
      (tablesWith (tableEntry 1 0x200)).virtualToPhysical 0xFFFF800000200000 = 0 ∧
      ¬(tablesWith (tableEntry 1 0x200)).WalksAgree 1 0xFFFF800000200000 := by
  have hwalk : (tablesWith (tableEntry 1 0x200)).hardwareWalk 1 0xFFFF800000200000 =
      .large 0x200 := by decide
  have hzero : (tablesWith (tableEntry 1 0x200)).virtualToPhysical 0xFFFF800000200000 = 0 := by
    decide
  refine ⟨hwalk, hzero, fun h => ?_⟩
  refine h.1.mpr ⟨0x200, ?_, by decide⟩ hzero
  rw [hwalk]
  rfl

end Machine

end Lethe
