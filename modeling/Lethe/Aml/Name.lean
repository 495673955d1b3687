import Lethe.Aml.State

/-!
# Names of the AML parser

`lethe-aml/aml/name.c` and the lookup of `helpers.c`. A lookup and `resolve_name` only read the
tree and are functions of it. Their loops along the links `parent` are given `t.next` steps, since
a chain of more namespaces than that comes back to one of them.
-/

namespace Lethe

def rootChar : UInt8 := 0x5C

def parentChar : UInt8 := 0x5E

/-- The test of `valid_name` on one character. -/
def validChar (c : UInt8) : Bool :=
  (0x41 ≤ c && c ≤ 0x5A) || (0x30 ≤ c && c ≤ 0x39) || c == 0x5F

/-- `valid_name`. -/
def validName (name : AmlName) : Bool :=
  let startingPoint :=
    if name.inner.head? = some rootChar ∨ name.inner.head? = some parentChar then 1 else 0
  (name.inner.drop startingPoint).all validChar

/-- `memcpy` of the last four bytes of the name. -/
def AmlName.lastKey (name : AmlName) : HashKey := hashKey (name.inner.drop (name.count - keyLen))

/-- `memcpy` of four bytes from `inner`. -/
def AmlName.key (name : AmlName) : HashKey :=
  if name.inner = [] then name.behind else hashKey name.inner

/-- `trim_name`. -/
def trimName (name : AmlName) : AmlName :=
  if name.count ≤ keyLen then name else { inner := name.inner.drop (name.count - keyLen) }

/-! ## Lookup -/

/-- What the flag `namespace` of a lookup selects: the map to search in, and `root()` as one of its
values. -/
structure Lookup (β : Type) where
  get : Namespace → HashKey → Option β
  root : β

def Lookup.namespaces : Lookup Nat := ⟨Namespace.namespaces, Lethe.root⟩

def Lookup.children : Lookup AmlPtr := ⟨Namespace.children, .hack⟩

variable {β : Type} (look : Lookup β) (t : Tree)

/-- `stage3`; `none` if the loop does not end within the given number of steps. -/
def stage3 (staticKey : HashKey) : Nat → Nat → Option (Option β)
  | 0, _ => none
  | fuel + 1, current =>
    match look.get (t.nodes current) staticKey with
    | some ptr => some (some ptr)
    | none =>
      match (t.nodes current).parent with
      | none => some none
      | some p => stage3 staticKey fuel p

/-- The loop of `resolve_scope` over the segments that remain. -/
def resolveScopeLoop : Nat → Nat → List UInt8 → Option Nat
  | 0, nextNs, _ => some nextNs
  | rem + 1, nextNs, staticKey =>
    match (t.nodes nextNs).namespaces (hashKey staticKey) with
    | none => none
    | some ptr => resolveScopeLoop rem ptr (staticKey.drop keyLen)

/-- `resolve_scope`. -/
def resolveScope (ns : Nat) (staticKey : List UInt8) : Option Nat :=
  if staticKey.length % keyLen ≠ 0 then none
  else
    match resolveScopeLoop t (staticKey.length / keyLen) ns staticKey with
    | none => none
    | some nextNs => if nextNs = ns then none else some nextNs

/-- `stage2`. The length of a key shorter than a segment wraps around, and the allocation fails. -/
def stage2 (ns : Nat) (staticKey : List UInt8) : Option β :=
  if staticKey.length = keyLen then look.get (t.nodes ns) (hashKey staticKey)
  else if staticKey.length < keyLen then none
  else
    let scopeLen := staticKey.length - keyLen
    match resolveScope t ns (staticKey.take scopeLen) with
    | none => none
    | some scope => look.get (t.nodes scope) (hashKey (staticKey.drop scopeLen))

/-- `memmove(static_key, static_key + 1, len - 1)`, which leaves the last byte in place. -/
def AmlName.shift (name : AmlName) : AmlName :=
  { name with inner := name.inner.drop 1 ++ name.inner.drop (name.count - 1) }

/-- `locate_object`: the pointer that is found, and what the search has made of the name. The
`memmove` of an empty name is one of `SIZE_MAX` bytes. -/
def locateObject (ns : Nat) (name : AmlName) : Except AmlStop (Option β × AmlName) :=
  if name.count = 1 then .ok (some look.root, name)
  else if !validName name then .error .exit
  else if name.count = keyLen then
    match stage3 look t (hashKey name.inner) t.next ns with
    | none => .error .doesNotReturn
    | some ptr => .ok (ptr, name)
  else
    let c := name.inner.headD name.behind.c0
    if c = parentChar then
      match (t.nodes ns).parent with
      | none => .ok (none, name)
      | some scope =>
        if name.count = 0 then .error .fault
        else .ok (stage2 look t scope (name.inner.drop 1), name.shift)
    else if c = rootChar then
      if name.count = 0 then .error .fault
      else .ok (stage2 look t root (name.inner.drop 1), name.shift)
    else .ok (stage2 look t ns name.inner, name)

/-! ## `resolve_name` -/

/-- `memcpy` of `src` to an offset in a buffer. -/
def memcpyTo (buf : List UInt8) (offset : Nat) (src : List UInt8) : List UInt8 :=
  buf.take offset ++ src ++ buf.drop (offset + src.length)

/-- The first loop of `resolve_name`: the number of levels, and the namespace it ends at. -/
def levelsLoop : Nat → Nat → Nat → Option (Nat × Nat)
  | 0, _, _ => none
  | fuel + 1, current, levels =>
    match (t.nodes current).parent with
    | none => some (levels, current)
    | some p => levelsLoop fuel p (levels + 1)

/-- The second loop of `resolve_name`. -/
def prependLoop : Nat → Nat → List UInt8 → Int → Option (List UInt8)
  | 0, _, _, _ => none
  | fuel + 1, current, absoluteName, offset =>
    match (t.nodes current).parent with
    | none => some absoluteName
    | some p =>
      prependLoop fuel p (memcpyTo absoluteName offset.toNat (t.nodes current).name.bytes)
        (offset - keyLen)

/-- `resolve_name`; `block` is the memory that is allocated for the result. -/
def resolveName (block : Nat → UInt8) (ns : Nat) (key : AmlName) : Except AmlStop AmlName :=
  if key.inner.head? = some parentChar then .error (.assertFailed .unimplemented)
  else if ns = root ∨ key.inner.head? = some rootChar then .ok { inner := key.inner }
  else
    match levelsLoop t t.next ns 0 with
    | none => .error .doesNotReturn
    | some (levels, current) =>
      if current ≠ root then .error (.assertFailed .currentIsRoot)
      else if levels = 0 then .error (.assertFailed .levelsPositive)
      else
        let size := levels * keyLen + (key.count + 1)
        let offset := size - key.count
        let absoluteName := memcpyTo ((List.range size).map block) offset key.inner
        match prependLoop t t.next ns absoluteName ((offset : Int) - keyLen) with
        | none => .error .doesNotReturn
        | some absoluteName => .ok { inner := absoluteName.set 0 rootChar }

/-! ## `parse_namestring` -/

namespace Aml

variable (host : AmlHost)

/-- The loop of `parse_namestring` over the prefix characters; `charPrefix` is `0` before the first
of them. -/
def prefixLoop : Nat → Nat → UInt8 → Aml (Nat × UInt8)
  | 0, _, _ => throw .outOfFuel
  | fuel + 1, copy, charPrefix => do
    let c ← readByte host copy
    if c = rootChar ∨ c = parentChar then
      prefixLoop fuel (copy + 1) (if charPrefix = 0 then c else charPrefix)
    else pure (copy, charPrefix)

/-- The number of segments after the prefix characters, and where they start. -/
def segCountAt (copy : Nat) : Aml (Nat × Nat) := do
  let segPrefix ← readByte host copy
  if segPrefix = 0x2E then pure (2, copy + 1)
  else if segPrefix = 0x2F then do
    let segCount ← readByte host (copy + 1)
    pure (segCount.toNat, copy + 2)
  else if segPrefix = 0 then pure (0, copy + 1)
  else pure (1, copy)

/-- `parse_namestring`. -/
def parseNamestring (fuel ns : Nat) : Aml AmlName := do
  let c ← code ns
  let (copy, charPrefix) ← prefixLoop host fuel c 0
  let (segCount, copy) ← segCountAt host copy
  let segs ← readBytes host copy (segCount * keyLen)
  let behind ← uninit host keyLen
  setCode ns (copy + segCount * keyLen)
  pure {
    inner := if charPrefix = 0 then segs else charPrefix :: segs
    behind := hashKey behind }

end Aml

end Lethe
