import Lethe.Lib.Wp
import Lethe.Utils.HashMap

/-!
# The data model of the AML parser

The structures of `lethe-aml/aml/include/types.h` and the state that the parser works on. A
namespace is a number, `root()` is `0`, and the maps `children` and `namespaces` are functions,
which is what the hash map refines. Allocations succeed, except those whose size has wrapped
around, which give `NULL`. The field `code` of the namespaces is kept apart from the rest of the
tree in `AmlState.code`. Addresses of code are offsets in the table, whose data follow a header of
36 bytes.

Objects are not written after they have been registered, so that a pointer to one is its value.
The label of the elements of a package is never written and is left out.

`log`, `past` and `devices` are for the specification only: no function of the parser reads them.
-/

namespace Lethe

/-- `KEY_LEN`. -/
def keyLen : Nat := 4

/-- `aml_name_t`. `behind` is the memory from the end of `inner` on, which is read where `inner` has
no bytes of its own. -/
structure AmlName where
  inner : List UInt8
  behind : HashKey := ⟨0, 0, 0, 0⟩
  deriving DecidableEq, Repr

def AmlName.count (name : AmlName) : Nat := name.inner.length

/-- The first four bytes of a buffer. -/
def hashKey (bytes : List UInt8) : HashKey :=
  ⟨bytes.getD 0 0, bytes.getD 1 0, bytes.getD 2 0, bytes.getD 3 0⟩

/-- The fields `data_type` and the union of an `aml_variable_t`. -/
inductive AmlData
  | byte (byte : Nat)
  | shortInt (shortInt : Nat)
  | integer (integer : Nat)
  | longInt (longInt : Nat)
  | string (string : List UInt8)
  | package (elements : List AmlData)
  | buffer (buffer : List UInt8)
  /-- `DATA_UNINIT`, with the resolved name in `string`. -/
  | uninit (string : List UInt8)

/-- `aml_variable_t`. -/
structure AmlVariable where
  label : HashKey
  data : AmlData

/-- `aml_mutex_t`. -/
structure AmlMutex where
  name : HashKey
  syncFlags : UInt8

/-- `aml_method_t`. -/
structure AmlMethod where
  name : HashKey
  flags : UInt8
  len : Nat
  code : Nat
  scope : Nat

/-- `aml_operation_region_t`. -/
structure AmlOperationRegion where
  name : HashKey
  regionSpace : UInt8
  offset : Nat
  len : Nat

/-- `aml_field_t`. -/
structure AmlField where
  accessType : Nat
  shouldLock : Bool
  updateRule : Nat
  region : AmlOperationRegion

/-- `aml_named_field_t`; the two numbers are `int`s. -/
structure AmlNamedField where
  offset : BitVec 32
  len : BitVec 32
  name : HashKey
  parent : AmlField

/-- `aml_word_field_t`: the pointer `field` is that to the buffer and the index added to it. -/
structure AmlWordField where
  name : HashKey
  buffer : List UInt8
  byteIndex : Nat

/-- `aml_ptr_t`: the tag `type` and the object behind `data`. -/
inductive AmlPtr
  | method (data : AmlMethod)
  | region (data : AmlOperationRegion)
  | name (data : AmlVariable)
  | fieldOffset (data : AmlNamedField)
  | mutex (data : AmlMutex)
  | wordField (data : AmlWordField)
  /-- `root()` read as an `aml_ptr_t`: the tag is the first byte of the `NULL` in its `parent`. -/
  | hack

/-- The term that a namespace was made by. A Method namespace is `pending` until it is given its
parent. -/
inductive Origin
  | predefined
  | device
  | method
  | pending
  deriving DecidableEq, Repr

/-- `aml_namespace_t`, without the field `code`. -/
structure Namespace where
  parent : Option Nat := none
  name : HashKey := ⟨0, 0, 0, 0⟩
  children : HashKey → Option AmlPtr := fun _ => none
  namespaces : HashKey → Option Nat := fun _ => none
  origin : Origin := .predefined

/-- The namespaces, those below `next` being allocated. -/
structure Tree where
  nodes : Nat → Namespace
  next : Nat

/-- `root()`. -/
def root : Nat := 0

/-- `hm_set(ns->children, key, data)`. -/
def Tree.setChild (t : Tree) (ns : Nat) (key : HashKey) (data : AmlPtr) : Tree :=
  let n := t.nodes ns
  let children := Function.update n.children key (some data)
  { t with nodes := Function.update t.nodes ns { n with children } }

/-- `push_namespace`. -/
def Tree.pushNamespace (t : Tree) (parent this : Nat) : Tree :=
  let n := t.nodes parent
  let namespaces := Function.update n.namespaces (t.nodes this).name (some this)
  { t with nodes := Function.update t.nodes parent { n with namespaces } }

/-- `create_namespace`; the new namespace is `t.next`. -/
def Tree.createNamespace (t : Tree) (parent : Option Nat) (name : HashKey) (origin : Origin) : Tree :=
  let t' := { nodes := Function.update t.nodes t.next { parent, name, origin }, next := t.next + 1 }
  match parent with
  | none => t'
  | some p => t'.pushNamespace p t.next

/-- The assignment of `parent` that ends `def_method`. -/
def Tree.adopt (t : Tree) (ns parent : Nat) : Tree :=
  let n := { t.nodes ns with parent := some parent, origin := .method }
  { t with nodes := Function.update t.nodes ns n }

/-- The four characters of a key. -/
def keyOfChars (c0 c1 c2 c3 : Char) : HashKey :=
  ⟨c0.val.toUInt8, c1.val.toUInt8, c2.val.toUInt8, c3.val.toUInt8⟩

/-- `init_aml_namespaces`. -/
def initAmlNamespaces : Tree :=
  let rootNs := Tree.createNamespace ⟨fun _ => {}, root⟩ none (keyOfChars '\\' '_' '_' '_') .predefined
  [keyOfChars '_' 'G' 'P' 'E', keyOfChars '_' 'P' 'R' '_', keyOfChars '_' 'S' 'B' '_',
    keyOfChars '_' 'S' 'I' '_', keyOfChars '_' 'T' 'Z' '_'].foldl
    (fun t name => t.createNamespace (some root) name .predefined) rootNs

/-- What an observer of the cursors sees: an entry of `parse_next`, the cursor on leaving the loop
of `parse_termlist`, and a method object that has been registered. -/
inductive AmlEvent
  | enter (code : Nat)
  | leave (code : Nat)
  | method (code len : Nat)
  deriving DecidableEq, Repr

/-- A Device term, when its name has been read in the namespace `ns`. -/
structure DeviceTerm where
  tree : Tree
  ns : Nat
  name : AmlName

structure AmlState where
  tree : Tree
  /-- The field `code` of each namespace. -/
  code : Nat → Nat
  /-- The number of reads from memory that the parser has not written, and from devices. -/
  clock : Nat
  log : List AmlEvent
  /-- The trees before `tree`. -/
  past : List Tree
  devices : List DeviceTerm

namespace AmlState

/-- `ns->code = c`. -/
def setCode (s : AmlState) (ns c : Nat) : AmlState := { s with code := Function.update s.code ns c }

def emit (s : AmlState) (event : AmlEvent) : AmlState := { s with log := s.log ++ [event] }

def tick (s : AmlState) : AmlState := { s with clock := s.clock + 1 }

def write (s : AmlState) (t : Tree) : AmlState := { s with tree := t, past := s.past ++ [s.tree] }

def recordDevice (s : AmlState) (ns : Nat) (name : AmlName) : AmlState :=
  { s with devices := s.devices ++ [⟨s.tree, ns, name⟩] }

end AmlState

/-- The state in which `root()` has been called for the first time. -/
def initAmlState : AmlState where
  tree := initAmlNamespaces
  code _ := 0
  clock := 0
  log := []
  past := []
  devices := []

/-- The assertions of the parser that can fail. -/
inductive AmlAssert
  | unimplemented
  | currentIsRoot
  | levelsPositive
  | reservedFlag
  deriving DecidableEq, Repr

/-- Why a run of the parser does not return. -/
inductive AmlStop
  /-- `AML_EXIT`, called by `debug_exit` too. -/
  | exit
  | assertFailed (assertion : AmlAssert)
  /-- An access to memory that cannot be read. -/
  | fault
  /-- A loop along the links `parent` comes back to where it has been. -/
  | doesNotReturn
  /-- The bound on the steps of the model is too small. -/
  | outOfFuel
  deriving DecidableEq, Repr

/-- What the parser runs on: the bytes of the table, and the answers of memory that has not been
written (byte `i` of a block) and of devices, each by the time of the read. A read of device memory
may fault. -/
structure AmlHost where
  table : List UInt8
  uninit : Nat → Nat → UInt8
  readMem : Nat → Nat → Nat → Option Nat
  readIo : Nat → Nat → Nat → Nat

abbrev Aml := EStateM AmlStop AmlState

namespace Aml

/-! ## Primitive steps -/

def code (ns : Nat) : Aml Nat := fun s => .ok (s.code ns) s

def setCode (ns c : Nat) : Aml Unit := fun s => .ok () (s.setCode ns c)

def emit (event : AmlEvent) : Aml Unit := fun s => .ok () (s.emit event)

/-- The time of a read, which passes. -/
def tick : Aml Nat := fun s => .ok s.clock s.tick

/-- A question to the tree. -/
def ask (f : Tree → Except AmlStop α) : Aml α := fun s =>
  match f s.tree with
  | .ok a => .ok a s
  | .error e => .error e s

def writeTree (f : Tree → Tree) : Aml Unit := fun s => .ok () (s.write (f s.tree))

def recordDevice (ns : Nat) (name : AmlName) : Aml Unit := fun s => .ok () (s.recordDevice ns name)

/-- `create_namespace`. -/
def createNamespace (parent : Option Nat) (name : HashKey) (code : Nat) (origin : Origin) : Aml Nat := do
  let namespace_ ← ask fun t => .ok t.next
  writeTree fun t => t.createNamespace parent name origin
  setCode namespace_ code
  pure namespace_

/-- `add_child_to_namespace`. -/
def addChildToNamespace (ns : Nat) (key : HashKey) (data : AmlPtr) : Aml Unit :=
  writeTree fun t => t.setChild ns key data

/-- `debug_exit`. -/
def debugExit : Aml α := throw .exit

def assert (assertion : AmlAssert) (b : Bool) : Aml Unit :=
  if b then pure () else throw (.assertFailed assertion)

/-- The macro `unimplemented`. -/
def unimplemented (b : Bool) : Aml Unit := assert .unimplemented !b

/-- The pointer, or an exit if it is `NULL`. -/
def orExit : Option α → Aml α
  | some a => pure a
  | none => debugExit

variable (host : AmlHost)

/-- `*p`. -/
def readByte (p : Nat) : Aml UInt8 :=
  match host.table[p]? with
  | some b => pure b
  | none => throw .fault

/-- `memcpy` of `n` bytes from `p`. -/
def readBytes (p n : Nat) : Aml (List UInt8) :=
  if n = 0 ∨ p + n ≤ host.table.length then pure ((host.table.drop p).take n) else throw .fault

/-- `*ns->code++`. -/
def nextByte (ns : Nat) : Aml UInt8 := do
  let c ← code ns
  let b ← readByte host c
  setCode ns (c + 1)
  pure b

/-- `n` bytes of memory that has not been written. -/
def uninit (n : Nat) : Aml (List UInt8) := do
  let t ← tick
  pure ((List.range n).map (host.uninit t))

end Aml

end Lethe
