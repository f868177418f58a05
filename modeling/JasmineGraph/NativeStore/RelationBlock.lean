import JasmineGraph.NativeStore.NodeBlock

/-!
# Relation blocks

The functions of `RelationBlock.cpp`, and those of `NodeBlock.cpp` that thread relations into the
lists of their nodes. A relation block is a row of `unsigned int` records, 13 in the local file and
14 in the central one, and a type of 100 bytes; block 0 of a file is never used. The local and the
central functions are the same code on the two files, so they are one definition with the kind as
parameter.

Every relation is in two doubly linked lists, that of its source and that of its destination node.
A `RelationBlock` object holds the node objects of its two ends, which its constructor reads from
disk.
-/

namespace JasmineGraph.NativeStore

open Bytes

namespace RelationKind

/-- The number of `unsigned int` records of a block. -/
def records : RelationKind → Nat
  | localRelation => 13
  | centralRelation => 14

/-- `BLOCK_SIZE` and `CENTRAL_BLOCK_SIZE`. -/
def blockSize : RelationKind → Nat
  | localRelation => 152
  | centralRelation => 156

def typeSize : Nat := 100

def widths (k : RelationKind) : List Nat := List.replicate k.records 4 ++ [typeSize]

def typeOffset (k : RelationKind) : Nat := k.records

end RelationKind

inductive RelationOffset
  | sourceId
  | destinationId
  | source
  | destination
  | sourceNext
  | sourceNextPid
  | sourcePrevious
  | sourcePreviousPid
  | destinationNext
  | destinationNextPid
  | destinationPrevious
  | destinationPreviousPid
  | relationProps
  | relationPropsMeta
deriving DecidableEq

def RelationOffset.index : RelationOffset → Nat
  | sourceId => 0
  | destinationId => 1
  | source => 2
  | destination => 3
  | sourceNext => 4
  | sourceNextPid => 5
  | sourcePrevious => 6
  | sourcePreviousPid => 7
  | destinationNext => 8
  | destinationNextPid => 9
  | destinationPrevious => 10
  | destinationPreviousPid => 11
  | relationProps => 12
  | relationPropsMeta => 13

structure NodeRelation where
  address : Nat
  nextRelationId : Nat
  nextPid : Nat
  preRelationId : Nat
  prePid : Nat
  nodeId : Nat
deriving DecidableEq

structure RelationBlock where
  addr : Nat
  source : NodeRelation
  destination : NodeRelation
  propertyAddress : Nat
  metaPropertyAddress : Nat
  type : ByteString
  sourceBlock : Option NodeBlock
  destinationBlock : Option NodeBlock
deriving DecidableEq

/-- `nextLocalRelationIndex += 1` and `nextCentralRelationIndex += 1`. -/
def Memory.bumpRelation (m : Memory) (k : RelationKind) : Memory := { m with
  nextRelationIndex := Function.update m.nextRelationIndex k (u32 (m.nextRelationIndex k + 1)) }

namespace RelationBlock

def defaultType : ByteString := ascii "DEFAULT"

/-- The constructor: the node objects of both ends are read from disk. -/
def make (addr : Nat) (source destination : NodeRelation) (propertyAddress : Nat)
    (metaPropertyAddress : Nat) (type : ByteString) : M RelationBlock := do
  let sourceBlock ← NodeBlock.get source.address
  let destinationBlock ← NodeBlock.get destination.address
  return { addr, source, destination, propertyAddress, metaPropertyAddress, type,
           sourceBlock := some sourceBlock, destinationBlock := some destinationBlock }

/-- The source end among the records read. -/
def sourceOf (word : RelationOffset → Nat) : NodeRelation where
  address := word .source
  nextRelationId := word .sourceNext
  nextPid := word .sourceNextPid
  preRelationId := word .sourcePrevious
  prePid := word .sourcePreviousPid
  nodeId := word .sourceId

/-- The destination end among the records read. -/
def destinationOf (word : RelationOffset → Nat) : NodeRelation where
  address := word .destination
  nextRelationId := word .destinationNext
  nextPid := word .destinationNextPid
  preRelationId := word .destinationPrevious
  prePid := word .destinationPreviousPid
  nodeId := word .destinationId

/-- `getLocalRelation` and `getCentralRelation`; `none` is the null pointer. An address that is no
multiple of the block size is added to a `char` pointer for the message, an undefined outcome. -/
def getRelation (k : RelationKind) (address : Nat) : M (Option RelationBlock) := do
  if address = 0 then return none
  else if address % k.blockSize ≠ 0 then undefined
  else
    match ← readAt (.relations k) address k.widths with
    | none => return none
    | some fields =>
      let word (o : RelationOffset) : Nat := ofLe32 (fields.getD o.index [])
      let metaPropertyAddress := match k with
        | .localRelation => 0
        | .centralRelation => word .relationPropsMeta
      return some (← make address (sourceOf word) (destinationOf word) (word .relationProps)
        metaPropertyAddress (cstr (fields.getD k.records [])))

/-- `addLocalRelation` and `addCentralRelation`; `none` is the null pointer. The object gets the
address as `unsigned int`, the seek the full product. -/
def addRelation (k : RelationKind) (source destination : NodeBlock) : M (Option RelationBlock) := do
  let m ← memory
  let relationBlockAddress := m.nextRelationIndex k * k.blockSize
  let rawType := List.ofFn (m.rawType k (m.nextRelationIndex k))
  let links := List.replicate (k.records - 4) 0
  let fields := ([source.nodeId, destination.nodeId, source.addr, destination.addr] ++ links).map
    le32 ++ [rawType]
  if !(← writeAt (.relations k) relationBlockAddress fields) then return none
  modifyMemory (·.bumpRelation k)
  flush (.relations k)
  let sourceData : NodeRelation := ⟨source.addr, 0, 0, 0, 0, 0⟩
  let destinationData : NodeRelation := ⟨destination.addr, 0, 0, 0, 0, 0⟩
  return some (← make (u32 relationBlockAddress) sourceData destinationData 0 0 defaultType)

/-- `updateLocalRelationRecords` and `updateCentralRelationRecords`; the position is an
`unsigned int` sum. -/
def updateRelationRecords (k : RelationKind) (this : RelationBlock) (recordOffset : RelationOffset)
    (data : Nat) : M Bool := do
  if !(← writeAt (.relations k) (u32 (this.addr + 4 * recordOffset.index)) [le32 data]) then
    return false
  flush (.relations k)
  return true

def setNextSource (k : RelationKind) (this : RelationBlock) (newAddress : Nat) :
    M RelationBlock := do
  if ← this.updateRelationRecords k .sourceNext newAddress then
    return { this with source := { this.source with nextRelationId := newAddress } }
  else return this

def setPreviousSource (k : RelationKind) (this : RelationBlock) (newAddress : Nat) :
    M RelationBlock := do
  if ← this.updateRelationRecords k .sourcePrevious newAddress then
    return { this with source := { this.source with preRelationId := newAddress } }
  else return this

def setNextDestination (k : RelationKind) (this : RelationBlock) (newAddress : Nat) :
    M RelationBlock := do
  if ← this.updateRelationRecords k .destinationNext newAddress then
    return { this with destination := { this.destination with nextRelationId := newAddress } }
  else return this

def setPreviousDestination (k : RelationKind) (this : RelationBlock) (newAddress : Nat) :
    M RelationBlock := do
  if ← this.updateRelationRecords k .destinationPrevious newAddress then
    return { this with destination := { this.destination with preRelationId := newAddress } }
  else return this

/-! ## Properties and types -/

def getPropertyHead (this : RelationBlock) : M (Option Link) :=
  PropertyEdgeLink.get this.propertyAddress

def getMetaPropertyHead (this : RelationBlock) : M (Option Link) :=
  MetaPropertyEdgeLink.get this.metaPropertyAddress

def getAllProperties (this : RelationBlock) : M PropertyMap := do
  allProperties .edgeProperty (← this.getPropertyHead)

/-- Where a relation keeps the reference to a chain of its properties. -/
structure RefField where
  kind : LinkKind
  file : RelationKind
  offset : RelationOffset
  ref : RelationBlock → Nat
  setRef : RelationBlock → Nat → RelationBlock

def propField (k : RelationKind) : RefField :=
  ⟨.edgeProperty, k, .relationProps, propertyAddress, fun r a => { r with propertyAddress := a }⟩

/-- The record of the central file, whichever file the relation is in. -/
def metaPropField : RefField :=
  ⟨.metaEdgeProperty, .centralRelation, .relationPropsMeta, metaPropertyAddress,
    fun r a => { r with metaPropertyAddress := a }⟩

/-- The common body of `addLocalProperty`, `addCentralProperty` and `addMetaProperty`. -/
def addTo (field : RefField) (this : RelationBlock) (name value : ByteString) :
    M RelationBlock := do
  if field.ref this = 0 then
    match ← createLink field.kind name value with
    | some newLink =>
      let this := field.setRef this newLink.blockAddress
      let _ ← this.updateRelationRecords field.file field.offset newLink.blockAddress
      return this
    | none => return this
  else
    match ← getLink field.kind (field.ref this) with
    | some head => return field.setRef this (← insertLink field.kind head name value)
    | none => undefined

def addLocalProperty := addTo (propField .localRelation)

def addCentralProperty := addTo (propField .centralRelation)

def addMetaProperty := addTo metaPropField

/-- The `MAX_TYPE_SIZE` bytes that `memcpy` takes from a C string: its text, its terminator and
what lies behind it. -/
def typeBytes (behind : Fin 100 → UInt8) (data : ByteString) : ByteString :=
  (data ++ 0 :: List.ofFn behind).take RelationKind.typeSize

/-- `updateLocalRelationshipType`: the seek is on the central stream, the write goes to the local
one, wherever its cursor is. -/
def updateLocalRelationshipType (behind : Fin 100 → UInt8) (this : RelationBlock) (data : ByteString) :
    M Bool := do
  seek (.relations .centralRelation)
    (u32 (this.addr + 4 * RelationKind.localRelation.typeOffset))
  if !(← writeHere (.relations .localRelation) (typeBytes behind data)) then return false
  flush (.relations .localRelation)
  return true

def updateCentralRelationshipType (behind : Fin 100 → UInt8) (this : RelationBlock)
    (data : ByteString) : M Bool := do
  seek (.relations .centralRelation)
    (u32 (this.addr + 4 * RelationKind.centralRelation.typeOffset))
  if !(← writeHere (.relations .centralRelation) (typeBytes behind data)) then return false
  flush (.relations .centralRelation)
  return true

/-- `addLocalRelationshipType` and `addCentralRelationshipType`: only a relation of the default type
gets another. The object keeps its type. -/
def addRelationshipType (k : RelationKind) (behind : Fin 100 → UInt8) (this : RelationBlock)
    (value : ByteString) : M Unit := do
  if this.type = defaultType then
    let _ ← match k with
      | .localRelation => this.updateLocalRelationshipType behind (cstr value)
      | .centralRelation => this.updateCentralRelationshipType behind (cstr value)

def getLocalRelation := getRelation .localRelation

def getCentralRelation := getRelation .centralRelation

def addLocalRelation := addRelation .localRelation

def addCentralRelation := addRelation .centralRelation

end RelationBlock

namespace NodeBlock

def getRelationHead (k : RelationKind) (this : NodeBlock) : M (Option RelationBlock) := do
  if this.relationRef k ≠ 0 then RelationBlock.getRelation k (this.relationRef k)
  else return none

/-- Where a node block keeps the reference to its first relation. -/
def relationRefOffset : RelationKind → Nat
  | .localRelation => 5
  | .centralRelation => 9

def setRelationHead (k : RelationKind) (this : NodeBlock) (newRelation : RelationBlock) :
    M NodeBlock := do
  if !(← writeAt .nodes (u32 (this.addr + relationRefOffset k)) [le32 newRelation.addr]) then
    return this
  flush .nodes
  return this.setRelationRef k newRelation.addr

/-- The back link of the previous first relation, in the fields of this node's role. -/
def linkBack (k : RelationKind) (this : NodeBlock) (currentHead : RelationBlock)
    (newAddress : Nat) : M Unit := do
  if this.addr = currentHead.source.address then
    let _ ← currentHead.setPreviousSource k newAddress
  else if this.addr = currentHead.destination.address then
    let _ ← currentHead.setPreviousDestination k newAddress

def linkForward (k : RelationKind) (this : NodeBlock) (newRelation : RelationBlock)
    (headAddress : Nat) : M RelationBlock := do
  if this.addr = newRelation.source.address then
    newRelation.setNextSource k headAddress
  else if this.addr = newRelation.destination.address then
    newRelation.setNextDestination k headAddress
  else return newRelation

/-- `updateLocalRelation` and `updateCentralRelation` with `relocateHead`, as both callers call
them: the new relation becomes the first of this node's list. -/
def updateRelation (k : RelationKind) (this : NodeBlock) (newRelation : RelationBlock) :
    M (NodeBlock × RelationBlock) := do
  match ← this.getRelationHead k with
  | none => return (← this.setRelationHead k newRelation, newRelation)
  | some currentHead =>
    this.linkBack k currentHead newRelation.addr
    let newRelation ← this.linkForward k newRelation currentHead.addr
    return (← this.setRelationHead k newRelation, newRelation)

/-- A bound on the length of a list without a cycle: the blocks the file has room for. -/
def maxRelations (k : RelationKind) : M Nat := do
  return (← viewSize (.relations k)) / k.blockSize + 1

/-- The loop of `getLocalEdgeNodes` and `getCentralEdgeNodes`: the other end of every relation in
the list of this node, with the relation. -/
def edgeNodesFrom (k : RelationKind) (this : NodeBlock) :
    Nat → Option RelationBlock → M (List (NodeBlock × RelationBlock))
  | _, none => return []
  | 0, some _ => undefined
  | fuel + 1, some currentRelation => do
    if currentRelation.source.address = this.addr then
      let node ← NodeBlock.get currentRelation.destination.address
      let next ← RelationBlock.getRelation k currentRelation.source.nextRelationId
      return (node, currentRelation) :: (← edgeNodesFrom k this fuel next)
    else if currentRelation.destination.address = this.addr then
      let node ← NodeBlock.get currentRelation.source.address
      let next ← RelationBlock.getRelation k currentRelation.destination.nextRelationId
      return (node, currentRelation) :: (← edgeNodesFrom k this fuel next)
    else return []

/-- `getLocalEdgeNodes` and `getCentralEdgeNodes`. A list longer than the file has blocks has a
cycle, on which the code does not return. -/
def getEdgeNodes (k : RelationKind) (this : NodeBlock) : M (List (NodeBlock × RelationBlock)) := do
  let head ← this.getRelationHead k
  edgeNodesFrom k this (← maxRelations k) head

def updateLocalRelation := updateRelation .localRelation

def updateCentralRelation := updateRelation .centralRelation

def getLocalEdgeNodes := getEdgeNodes .localRelation

def getCentralEdgeNodes := getEdgeNodes .centralRelation

def getAllEdgeNodes (this : NodeBlock) : M (List (NodeBlock × RelationBlock)) := do
  let localEdges ← this.getLocalEdgeNodes
  let centralEdges ← this.getCentralEdgeNodes
  return localEdges ++ centralEdges

end NodeBlock

end JasmineGraph.NativeStore
