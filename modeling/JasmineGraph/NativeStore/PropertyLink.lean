import JasmineGraph.NativeStore.Store

/-!
# Property links

The four classes of property links (`PropertyLink.cpp`, `MetaPropertyLink.cpp`,
`PropertyEdgeLink.cpp`, `MetaPropertyEdgeLink.cpp`). A link is a block of a name, a value of 400
bytes and the address of the next link; a node or relation block holds the address of the first.

The classes run the same code with differences of detail, which `LinkKind` gives by name:
* `nameSize`, and with it the block size;
* `copyName`: three of them `strcpy` the name into its buffer, `PropertyEdgeLink` truncates it;
* `insertedValue`: `PropertyEdgeLink::insert` copies the value as a C string, which has to end
  inside its buffer;
* `isMeta`: the meta classes overwrite the value of a name that is present, where the others leave
  it, and flush after the new block and not after the link to it, where the others flush after
  the link only;
* `get` of address 0 is null for `PropertyLink` only. The others test an `unsigned` with `>= 0`.
-/

namespace JasmineGraph.NativeStore

open Bytes

structure Link where
  blockAddress : Nat
  name : ByteString
  value : ByteString
  nextPropAddress : Nat
deriving DecidableEq

namespace LinkKind

def nameSize : LinkKind → Nat
  | property => 30
  | metaProperty => 12
  | edgeProperty => 30
  | metaEdgeProperty => 12

def valueSize : Nat := 400

def blockSize (k : LinkKind) : Nat := k.nameSize + valueSize + 4

def isMeta : LinkKind → Bool
  | property => false
  | metaProperty => true
  | edgeProperty => false
  | metaEdgeProperty => true

def copyName : LinkKind → ByteString → Option ByteString
  | property, name => strcpy 30 name
  | metaProperty, name => strcpy 12 name
  | edgeProperty, name => some (strncpy 30 name)
  | metaEdgeProperty, name => strcpy 12 name

def insertedValue : LinkKind → ByteString → Option ByteString
  | property, value => some value
  | metaProperty, value => some value
  | edgeProperty, value => if 0 ∈ value then some (strncpy valueSize value) else none
  | metaEdgeProperty, value => some value

def widths (k : LinkKind) : List Nat := [k.nameSize, valueSize, 4]

end LinkKind

def cstring (buffer : ByteString) : Option ByteString :=
  if 0 ∈ buffer then some (cstr buffer) else none

def readLink (k : LinkKind) (blockAddress : Nat) : M Link := do
  match ← readAt (.links k) blockAddress k.widths with
  | some [rawName, value, next] =>
    let name ← ofOption (cstring rawName)
    return { blockAddress, name, value, nextPropAddress := ofLe32 next }
  | _ => undefined

def getLink (k : LinkKind) (blockAddress : Nat) : M (Option Link) := do
  if k = .property ∧ blockAddress = 0 then return none
  else return some (← readLink k blockAddress)

def Link.next (k : LinkKind) (this : Link) : M (Option Link) := do
  if this.nextPropAddress = 0 then return none
  else return some (← readLink k this.nextPropAddress)

/-- The address of the next free block, an `unsigned int`. -/
def Memory.newLinkAddress (m : Memory) (k : LinkKind) : Nat :=
  u32 (m.nextPropertyIndex k * k.blockSize)

def Memory.bumpProperty (m : Memory) (k : LinkKind) : Memory := { m with
  nextPropertyIndex := Function.update m.nextPropertyIndex k (u32 (m.nextPropertyIndex k + 1)) }

/-- `create`: a first link; `none` is the null pointer. -/
def createLink (k : LinkKind) (name value : ByteString) : M (Option Link) := do
  let dataName ← ofOption (k.copyName name)
  let newAddress := (← memory).newLinkAddress k
  if !(← writeAt (.links k) newAddress [dataName, value, le32 0]) then return none
  flush (.links k)
  modifyMemory (·.bumpProperty k)
  return some { blockAddress := newAddress, name, value, nextPropAddress := 0 }

/-- The end of a chain: write the new block and link it from `this`. -/
def appendLink (k : LinkKind) (this : Link) (dataName dataValue : ByteString) : M Nat := do
  let newAddress := (← memory).newLinkAddress k
  if !(← writeAt (.links k) newAddress [dataName, dataValue, le32 0]) then return 2 ^ 32 - 1
  if k.isMeta then flush (.links k)
  let nextField := this.blockAddress + k.nameSize + LinkKind.valueSize
  if !(← writeAt (.links k) nextField [le32 newAddress]) then return 2 ^ 32 - 1
  if !k.isMeta then flush (.links k)
  modifyMemory (·.bumpProperty k)
  return this.blockAddress

def insertFrom (k : LinkKind) (name value : ByteString) : Nat → Link → M Nat
  | 0, _ => undefined
  | fuel + 1, this => do
    let dataName ← ofOption (k.copyName name)
    let dataValue ← ofOption (k.insertedValue value)
    if this.name = name then
      if k.isMeta then
        let _ ← writeAt (.links k) (this.blockAddress + k.nameSize) [dataValue]
        flush (.links k)
      return this.blockAddress
    else if this.nextPropAddress ≠ 0 then
      insertFrom k name value fuel (← readLink k this.nextPropAddress)
    else appendLink k this dataName dataValue

/-- A bound on the length of a chain without a cycle: the blocks the file has room for. -/
def maxLinks (k : LinkKind) : M Nat := do
  return (← viewSize (.links k)) / k.blockSize + 1

/-- `insert`; the result is the address the caller stores as its reference. A chain longer than
the file has blocks has a cycle, on which the code does not return. -/
def insertLink (k : LinkKind) (this : Link) (name value : ByteString) : M Nat := do
  insertFrom k name value (← maxLinks k) this

abbrev PropertyMap := Std.TreeMap ByteString ByteString

/-- The loop of `getAllProperties`: the first value of a name stays (`try_emplace`). -/
def collectProperties (k : LinkKind) : Nat → Option Link → PropertyMap → M PropertyMap
  | _, none, props => return props
  | 0, some _, _ => undefined
  | fuel + 1, some current, props => do
    let value ← ofOption (cstring current.value)
    let props := if current.name ∈ props then props else props.insert current.name value
    collectProperties k fuel (← current.next k) props

def allProperties (k : LinkKind) (head : Option Link) : M PropertyMap := do
  collectProperties k (← maxLinks k) head ∅

/-! ## The classes -/

namespace PropertyLink

def get := getLink .property

def create := createLink .property

def insert := insertLink .property

end PropertyLink

namespace MetaPropertyLink

def get := getLink .metaProperty

def create := createLink .metaProperty

def insert := insertLink .metaProperty

end MetaPropertyLink

namespace PropertyEdgeLink

def get := getLink .edgeProperty

def create := createLink .edgeProperty

def insert := insertLink .edgeProperty

end PropertyEdgeLink

namespace MetaPropertyEdgeLink

def get := getLink .metaEdgeProperty

def create := createLink .metaEdgeProperty

def insert := insertLink .metaEdgeProperty

end MetaPropertyEdgeLink

end JasmineGraph.NativeStore
