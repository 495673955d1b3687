import Lethe.Aml.Name

/-!
# The AML parser

`lethe-aml/aml/helpers.c` and `defs.c`, without the branches of `DEBUG`. The handlers that parse a
term list get `parse_termlist` as an argument, and `populate_package` gets `parse_data_object`; the
recursion is tied in `parseTermlist` and `parseDataObject`. The loops over the table and the
recursion are bounded by `fuel`, and a run that needs more of it ends with `outOfFuel`.
Integers of the table are naturals, with their width written out where they are cut.
-/

namespace Lethe

/-! ## Opcodes -/

/-- The cases of `term_arg_to_int`. -/
inductive IntOp
  | zero | one | ones | byte | word | dword | lnot | lequal | land | lless | lgreater | name

def IntOp.ofByte (op : UInt8) : IntOp :=
  if op = 0x00 then .zero
  else if op = 0x01 then .one
  else if op = 0xFF then .ones
  else if op = 0x0A then .byte
  else if op = 0x0B then .word
  else if op = 0x0C then .dword
  else if op = 0x92 then .lnot
  else if op = 0x93 then .lequal
  else if op = 0x90 then .land
  else if op = 0x95 then .lless
  else if op = 0x94 then .lgreater
  else .name

/-- The cases of `parse_data_object`. -/
inductive DataOp
  | zero | one | ones | byte | word | dword | qword | string | varPackage | package | buffer | other

def DataOp.ofByte (op : UInt8) : DataOp :=
  if op = 0x00 then .zero
  else if op = 0x01 then .one
  else if op = 0xFF then .ones
  else if op = 0x0A then .byte
  else if op = 0x0B then .word
  else if op = 0x0C then .dword
  else if op = 0x0E then .qword
  else if op = 0x0D then .string
  else if op = 0x13 then .varPackage
  else if op = 0x12 then .package
  else if op = 0x11 then .buffer
  else .other

/-- `enum FieldUnitType`. -/
inductive FieldUnitType
  | reserved | access | connect | extendedAccess | named

def FieldUnitType.ofByte (op : UInt8) : FieldUnitType :=
  if op = 0x00 then .reserved
  else if op = 0x01 then .access
  else if op = 0x02 then .connect
  else if op = 0x03 then .extendedAccess
  else .named

/-- The cases of `parse_next`. -/
inductive TermOp
  | ifElse | name | method | opRegion | field | indexField | scope | device | mutex | aliasOp
  | createWordField | processor | other

/-- `EXT_OP_PREFIX`. -/
def extOpPrefix : UInt8 := 0x5B

def TermOp.ofByte (op : UInt8) : TermOp :=
  if op = 0xA0 then .ifElse
  else if op = 0x08 then .name
  else if op = 0x14 then .method
  else if op = 0x10 then .scope
  else if op = 0x06 then .aliasOp
  else if op = 0x8B then .createWordField
  else .other

/-- The cases with `EXT_OP_PREFIX`. -/
def TermOp.ofExtByte (op : UInt8) : TermOp :=
  if op = 0x80 then .opRegion
  else if op = 0x81 then .field
  else if op = 0x86 then .indexField
  else if op = 0x82 then .device
  else if op = 0x01 then .mutex
  else if op = 0x83 then .processor
  else .other

/-- The number that bytes give in little-endian order. -/
def leNat : List UInt8 → Nat
  | [] => 0
  | b :: bs => b.toNat ||| leNat bs <<< 8

/-- The integer that a condition gives. -/
def truth (b : Bool) : Nat := if b then 1 else 0

namespace Aml

variable (host : AmlHost)

/-- `n` bytes from `ns->code` as a number, with `ns->code` moved behind them. -/
def nextNat (ns n : Nat) : Aml Nat := do
  let c ← code ns
  let bytes ← readBytes host c n
  setCode ns (c + n)
  pure (leNat bytes)

/-- `parse_length`. -/
def parseLength (ns : Nat) : Aml Nat := do
  let leadByte ← nextByte host ns
  let byteCount := leadByte.toNat >>> 6 &&& 0b11
  let length := leadByte.toNat &&& 0x3F
  match byteCount with
  | 0 => pure length
  | 1 => do
    let b₁ ← nextByte host ns
    pure (length ||| b₁.toNat <<< 4)
  | 2 => do
    let b₁ ← nextByte host ns
    let b₂ ← nextByte host ns
    pure (length ||| b₁.toNat <<< 4 ||| b₂.toNat <<< 12)
  | _ => do
    let b₁ ← nextByte host ns
    let b₂ ← nextByte host ns
    let b₃ ← nextByte host ns
    pure (length ||| b₁.toNat <<< 4 ||| b₂.toNat <<< 12 ||| b₃.toNat <<< 20)

/-! ## Arguments -/

/-- `read_mem`, for the widths that `term_arg_to_int` uses. -/
def readMem (address accessLen : Nat) : Aml Nat := do
  let t ← tick
  match host.readMem t address accessLen with
  | some v => pure (v % 2 ^ accessLen)
  | none => throw .fault

/-- `read_io`. -/
def readIo (port accessLen : Nat) : Aml Nat :=
  if accessLen = 8 ∨ accessLen = 16 ∨ accessLen = 32 then do
    let t ← tick
    pure (host.readIo t (port % 2 ^ 16) accessLen % 2 ^ accessLen)
  else debugExit

/-- The width of an access of an `enum AccessType`, if `term_arg_to_int` knows it. -/
def accessWidth : Nat → Option Nat
  | 0 => some 8
  | 1 => some 8
  | 2 => some 16
  | 3 => some 32
  | 4 => some 64
  | _ => none

/-- The value of a field unit in `term_arg_to_int`. -/
def readField (field : AmlNamedField) : Aml Nat := do
  let region := field.parent.region
  let address := (BitVec.ofNat 64 region.offset + field.offset.signExtend 64).toNat
  let readLen ← orExit (accessWidth field.parent.accessType)
  match region.regionSpace.toNat with
  | 0 => readMem host address readLen
  | 1 => readIo host address readLen
  | _ => debugExit

/-- The value of an object in `term_arg_to_int`. -/
def objectToInt : AmlPtr → Aml Nat
  | .name variable_ =>
    match variable_.data with
    | .byte v => pure v
    | .shortInt v => pure v
    | .integer v => pure v
    | _ => debugExit
  | .fieldOffset field => readField host field
  | _ => pure 0

/-- The last case of `term_arg_to_int`: the name of an object. -/
def nameToInt (ns : Nat) : Aml Nat := do
  let c ← code ns
  let name ← readBytes host c keyLen
  let (obj, _) ← ask fun t => locateObject .children t ns { inner := name }
  let obj ← orExit obj
  setCode ns (c + keyLen)
  objectToInt host obj

/-- `term_arg_to_int`. -/
def termArgToInt : Nat → Nat → Aml Nat
  | 0, _ => throw .outOfFuel
  | fuel + 1, ns => do
    let c ← code ns
    let op ← nextByte host ns
    match IntOp.ofByte op with
    | .zero => pure 0
    | .one => pure 1
    | .ones => pure (2 ^ 64 - 1)
    | .byte => nextNat host ns 1
    | .word => nextNat host ns 2
    | .dword => nextNat host ns 4
    | .lnot => do
      let predicate ← termArgToInt fuel ns
      pure (truth (predicate == 0))
    | .lequal => do
      let term₁ ← termArgToInt fuel ns
      let term₂ ← termArgToInt fuel ns
      pure (truth (term₁ == term₂))
    | .land => do
      let term₁ ← termArgToInt fuel ns
      let term₂ ← termArgToInt fuel ns
      pure (truth (term₁ != 0 && term₂ != 0))
    | .lless => do
      let term₁ ← termArgToInt fuel ns
      let term₂ ← termArgToInt fuel ns
      pure (truth (term₁ < term₂))
    | .lgreater => do
      let term₁ ← termArgToInt fuel ns
      let term₂ ← termArgToInt fuel ns
      pure (truth (term₁ > term₂))
    | .name => do
      -- `ns->code--`
      setCode ns c
      nameToInt host ns

/-- `term_arg_to_buffer`. -/
def termArgToBuffer (ns : Nat) : Aml (List UInt8) := do
  let c ← code ns
  let name ← readBytes host c keyLen
  let (obj, _) ← ask fun t => locateObject .children t ns { inner := name }
  match obj with
  | none => throw .fault
  | some (.name ⟨_, .buffer buffer⟩) => do
    setCode ns (c + keyLen)
    pure buffer
  | some _ => debugExit

/-! ## Data objects -/

/-- The body of the loop of `populate_package`. -/
def packageElement (parseDataObject : Nat → Aml AmlData) (fuel ns : Nat) : Aml AmlData := do
  let codeCopy ← code ns
  let name ← parseNamestring host fuel ns
  if !validName name || name.count == 0 then do
    setCode ns codeCopy
    parseDataObject ns
  else do
    let t ← tick
    let resolvedName ← ask fun tree => resolveName tree (host.uninit t) ns name
    pure (.uninit resolvedName.inner)

/-- `populate_package`, for the elements that remain. -/
def populatePackage (parseDataObject : Nat → Aml AmlData) (fuel ns : Nat) : Nat → Aml (List AmlData)
  | 0 => pure []
  | numElements + 1 => do
    let variable_ ← packageElement host parseDataObject fuel ns
    let elements ← populatePackage parseDataObject fuel ns numElements
    pure (variable_ :: elements)

/-- The search for the end of a string from the index `i` on. -/
def stringLoop (p : Nat) : Nat → Nat → Aml Nat
  | 0, _ => throw .outOfFuel
  | fuel + 1, i => do
    let b ← readByte host (p + i)
    if b ≠ 0 then stringLoop p fuel (i + 1) else pure i

/-- The package of `parse_data_object` once its number of elements, a `uint8_t`, is known. -/
def packageData (parseDataObject : Nat → Aml AmlData) (fuel ns numElements : Nat) : Aml AmlData := do
  let elements ← populatePackage host parseDataObject fuel ns (numElements % 2 ^ 8)
  pure (.package elements)

/-- `parse_data_object`. -/
def parseDataObject : Nat → Nat → Aml AmlData
  | 0, _ => throw .outOfFuel
  | fuel + 1, ns => do
    let op ← nextByte host ns
    match DataOp.ofByte op with
    | .zero => pure (.byte 0)
    | .one => pure (.byte 1)
    | .ones => pure (.byte 0xFF)
    | .byte => .byte <$> nextNat host ns 1
    | .word => .shortInt <$> nextNat host ns 2
    | .dword => .integer <$> nextNat host ns 4
    | .qword => .longInt <$> nextNat host ns 8
    | .string => do
      let c ← code ns
      let i ← stringLoop host c fuel 0
      let string ← readBytes host c (i + 1)
      setCode ns (c + (i + 1))
      pure (.string string)
    | .varPackage => do
      let _ ← parseLength host ns
      let numElements ← termArgToInt host fuel ns
      packageData host (parseDataObject fuel) fuel ns numElements
    | .package => do
      let _ ← parseLength host ns
      let numElements ← nextByte host ns
      packageData host (parseDataObject fuel) fuel ns numElements.toNat
    | .buffer => do
      let _ ← parseLength host ns
      let bufferSize ← termArgToInt host fuel ns
      let c ← code ns
      let buffer ← readBytes host c bufferSize
      setCode ns (c + bufferSize)
      pure (.buffer buffer)
    | .other => do
      unimplemented true
      debugExit

/-! ## Declarations -/

/-- The namespace in which `def_method` registers a method. -/
def methodScope (ns : Nat) (methodName : AmlName) : Aml Nat :=
  if methodName.count = keyLen ∨ methodName.count = keyLen + 1 then
    if methodName.inner.head? = some rootChar then pure root
    else if methodName.inner.head? = some parentChar then do
      let parent ← ask fun t => .ok (t.nodes ns).parent
      orExit parent
    else pure ns
  else if methodName.count < keyLen then
    -- the length of the scope wraps around, and the allocation fails
    debugExit
  else do
    let scopeName := { inner := methodName.inner.take (methodName.count - keyLen) }
    let (scope, _) ← ask fun t => locateObject .namespaces t ns scopeName
    orExit scope

/-- `def_method`. -/
def defMethod (fuel ns : Nat) : Aml Unit := do
  let codeCopy ← code ns
  let methodLen ← parseLength host ns
  let methodName ← parseNamestring host fuel ns
  let methodFlags ← nextByte host ns
  let c ← code ns
  -- for a shorter name this reads in front of the buffer
  let before ← uninit host keyLen
  let name := if methodName.count < keyLen then hashKey before else methodName.lastKey
  let len := (methodLen + 2 ^ 64 - (c - codeCopy)) % 2 ^ 64
  let methodNs ← createNamespace none name c .pending
  let scope ← methodScope ns methodName
  let method : AmlMethod := { name, flags := methodFlags, len, code := c, scope := methodNs }
  addChildToNamespace scope name (.method method)
  emit (.method method.code method.len)
  writeTree fun t => t.adopt methodNs scope
  setCode ns (codeCopy + methodLen)

/-- `def_name`. -/
def defName (fuel ns : Nat) : Aml Unit := do
  let name ← parseNamestring host fuel ns
  unimplemented (name.count != keyLen)
  let data ← parseDataObject host fuel ns
  addChildToNamespace ns name.lastKey (.name { label := name.lastKey, data })

/-- `def_op_region`. -/
def defOpRegion (fuel ns : Nat) : Aml Unit := do
  let name ← parseNamestring host fuel ns
  unimplemented (name.count != keyLen)
  let regionSpace ← nextByte host ns
  let regionOffset ← termArgToInt host fuel ns
  let regionLen ← termArgToInt host fuel ns
  addChildToNamespace ns name.lastKey
    (.region { name := name.lastKey, regionSpace, offset := regionOffset, len := regionLen })

/-- `parse_next_field_elem`; the result is `none` for `UINT64_MAX`. -/
def parseNextFieldElem (ns : Nat) (offset : BitVec 32) (parent : AmlField) : Aml (Option Nat) := do
  let codeCopy ← code ns
  let op ← nextByte host ns
  match FieldUnitType.ofByte op with
  | .reserved => some <$> parseLength host ns
  | .access => do
    setCode ns (codeCopy + 1 + 2)
    pure (some 2)
  | .connect => throw .exit
  | .extendedAccess => do
    setCode ns (codeCopy + 1 + 3)
    pure (some 3)
  | .named => do
    let bytes ← readBytes host codeCopy keyLen
    setCode ns (codeCopy + keyLen)
    if !validName { inner := bytes } then do
      setCode ns codeCopy
      pure none
    else do
      let name := hashKey bytes
      let len ← parseLength host ns
      addChildToNamespace ns name (.fieldOffset { offset, len := BitVec.ofNat 32 len, name, parent })
      let c ← code ns
      pure (some (c - codeCopy))

/-- The loop of `def_field`. -/
def fieldLoop (ns : Nat) (field : AmlField) : Nat → BitVec 32 → Aml Unit
  | 0, _ => throw .outOfFuel
  | fuel + 1, offset => do
    let len ← parseNextFieldElem host ns offset field
    match len with
    | none => pure ()
    | some len => fieldLoop ns field fuel (offset + BitVec.ofNat 32 len)

/-- `def_field`. -/
def defField (fuel ns : Nat) : Aml Unit := do
  let codeCopy ← code ns
  let fieldLen ← parseLength host ns
  let name ← parseNamestring host fuel ns
  let (obj, _) ← ask fun t => locateObject .children t ns name
  let flags ← nextByte host ns
  match obj with
  | some (.region region) => do
    let field : AmlField := {
      accessType := flags.toNat &&& 0xF
      shouldLock := flags.toNat &&& 0x10 != 0
      updateRule := (flags.toNat &&& 0xC0) >>> 6
      region }
    assert .reservedFlag (flags.toNat &&& 0x80 == 0)
    fieldLoop host ns field fuel 0
    setCode ns (codeCopy + fieldLen)
  | _ => debugExit

/-- The skip of a package by its length: `def_index_field`, and the case `0x5B83` of
`parse_next`. -/
def skipPackage (ns : Nat) : Aml Unit := do
  let codeCopy ← code ns
  let len ← parseLength host ns
  setCode ns (codeCopy + len)

/-- `def_index_field`. -/
def defIndexField (ns : Nat) : Aml Unit := skipPackage host ns

/-- `def_alias`. -/
def defAlias (fuel ns : Nat) : Aml Unit := do
  let source ← parseNamestring host fuel ns
  let alias_ ← parseNamestring host fuel ns
  unimplemented (source.count != keyLen)
  unimplemented (alias_.count != keyLen)
  let ref ← ask fun t => .ok ((t.nodes ns).children source.key)
  let ref ← orExit ref
  addChildToNamespace ns alias_.key ref

/-- `def_mutex`. The `memcpy` of the name starts at the `aml_name_t` itself, whose first bytes are
those of the count. -/
def defMutex (fuel ns : Nat) : Aml Unit := do
  let mutexName ← parseNamestring host fuel ns
  unimplemented (mutexName.count != keyLen)
  let name : HashKey := ⟨4, 0, 0, 0⟩
  let syncFlags ← nextByte host ns
  addChildToNamespace ns name (.mutex { name, syncFlags })

/-- `def_create_word_field`. -/
def defCreateWordField (fuel ns : Nat) : Aml Unit := do
  let buffer ← termArgToBuffer host ns
  let byteIndex ← termArgToInt host fuel ns
  let name ← parseNamestring host fuel ns
  unimplemented (name.count != keyLen)
  addChildToNamespace ns name.key (.wordField { name := name.key, buffer, byteIndex })

/-! ## Terms with a body -/

section
variable (parseTermlist : Nat → Nat → Nat → Aml Unit)

/-- The body of an If term. -/
def ifBody (ns codeCopy ifLen predicate : Nat) : Aml Unit :=
  if predicate ≠ 0 then parseTermlist ns codeCopy (codeCopy + ifLen)
  else setCode ns (codeCopy + ifLen)

/-- The body of an Else term. -/
def elseBody (ns codeCopy elseLen predicate : Nat) : Aml Unit :=
  if predicate = 0 then parseTermlist ns codeCopy (codeCopy + elseLen) else pure ()

/-- `def_if_else`. -/
def defIfElse (fuel ns : Nat) : Aml Unit := do
  let codeCopy ← code ns
  let ifLen ← parseLength host ns
  let predicate ← termArgToInt host fuel ns
  ifBody parseTermlist ns codeCopy ifLen predicate
  let c ← code ns
  let op ← readByte host c
  if op = 0xA1 then do
    setCode ns (c + 1)
    let elseLen ← parseLength host ns
    elseBody parseTermlist ns (c + 1) elseLen predicate
    setCode ns (c + 1 + ifLen)
  else pure ()

/-- The exit of `def_scope` for a name that is not found. -/
def scopeNotFound (ns : Nat) (scopeName : AmlName) : Aml Nat :=
  if scopeName.count > keyLen then do
    let parent := { inner := (scopeName.inner.drop 1).take keyLen }
    let _ ← ask fun t => locateObject .namespaces t ns parent
    debugExit
  else debugExit

/-- The namespace of a Scope term. -/
def locateScope (ns : Nat) (scopeName : AmlName) : Aml Nat :=
  if scopeName.count = 0 then pure root
  else do
    let (scope, scopeName) ← ask fun t => locateObject .namespaces t ns scopeName
    match scope with
    | some scope => pure scope
    | none => scopeNotFound ns scopeName

/-- `def_scope`. -/
def defScope (fuel ns : Nat) : Aml Unit := do
  let codeCopy ← code ns
  let scopeLen ← parseLength host ns
  let scopeName ← parseNamestring host fuel ns
  let scope ← locateScope ns scopeName
  let c ← code ns
  parseTermlist scope c (codeCopy + scopeLen)
  setCode ns (codeCopy + scopeLen)

/-- The parent of a namespace that `def_device` makes. -/
def deviceParent (t : Tree) (ns : Nat) (deviceName : AmlName) : Except AmlStop (Option Nat) :=
  if deviceName.count > keyLen then
    let key := { inner := deviceName.inner.take (deviceName.count - keyLen) }
    (locateObject .namespaces t ns key).map Prod.fst
  else .ok (some ns)

/-- The namespace of a Device term; it is made when the search has not found one, and `deviceName`
is what the search has made of the name. -/
def deviceNamespace (ns : Nat) (deviceName : AmlName) : Option Nat → Aml Nat
  | some device => pure device
  | none => do
    let parent ← ask fun t => deviceParent t ns deviceName
    let c ← code ns
    createNamespace parent (trimName deviceName).key c .device

/-- `def_device`. -/
def defDevice (fuel ns : Nat) : Aml Unit := do
  let codeCopy ← code ns
  let deviceLen ← parseLength host ns
  let deviceName ← parseNamestring host fuel ns
  recordDevice ns deviceName
  let (device, deviceName) ← ask fun t => locateObject .namespaces t ns deviceName
  let device ← deviceNamespace ns deviceName device
  let c ← code ns
  parseTermlist device c (codeCopy + deviceLen)
  setCode ns (codeCopy + deviceLen)

/-- The opcode that `parse_next` reads. -/
def nextOp (ns : Nat) : Aml TermOp := do
  let op ← nextByte host ns
  if op = extOpPrefix then do
    let ext ← nextByte host ns
    pure (.ofExtByte ext)
  else pure (.ofByte op)

/-- The `switch` of `parse_next`. -/
def parseTerm (fuel ns : Nat) : TermOp → Aml Unit
  | .ifElse => defIfElse host parseTermlist fuel ns
  | .name => defName host fuel ns
  | .method => defMethod host fuel ns
  | .opRegion => defOpRegion host fuel ns
  | .field => defField host fuel ns
  | .indexField => defIndexField host ns
  | .scope => defScope host parseTermlist fuel ns
  | .device => defDevice host parseTermlist fuel ns
  | .mutex => defMutex host fuel ns
  | .aliasOp => defAlias host fuel ns
  | .createWordField => do
    -- there is no `break` before the next case
    defCreateWordField host fuel ns
    skipPackage host ns
  | .processor => skipPackage host ns
  | .other => debugExit

/-- `parse_next`. -/
def parseNext (fuel ns : Nat) : Aml Unit := do
  let c ← code ns
  emit (.enter c)
  let op ← nextOp host ns
  parseTerm host parseTermlist fuel ns op

end

/-- The loop of `parse_termlist`. -/
def termlistLoop (parseNext : Aml Unit) (ns end_ : Nat) : Nat → Aml Unit
  | 0 => throw .outOfFuel
  | fuel + 1 => do
    let c ← code ns
    if c < end_ then do
      parseNext
      termlistLoop parseNext ns end_ fuel
    else emit (.leave c)

/-- `parse_termlist`. -/
def parseTermlist : Nat → Nat → Nat → Nat → Aml Unit
  | 0, _, _, _ => throw .outOfFuel
  | fuel + 1, ns, start, end_ => do
    let copy ← code ns
    setCode ns start
    termlistLoop (parseNext host (parseTermlist fuel) fuel ns) ns end_ fuel
    setCode ns copy

/-- `sizeof(acpi_header_t)`. -/
def headerLen : Nat := 36

/-- `parse_table`. -/
def parseTable (fuel : Nat) : Aml Unit := do
  setCode root headerLen
  let length ← leNat <$> readBytes host 4 4
  let c ← code root
  parseTermlist host fuel root c (c + (length + 2 ^ 32 - headerLen) % 2 ^ 32)

end Aml

end Lethe
