import JasmineGraph.NativeStore.PropertyLink

/-!
# Node blocks

The fields of a 140-byte node block and the functions of `NodeBlock.cpp` that read and write one.
A `NodeBlock` is the object in memory; its references (`edgeRef`, `propRef` and so on) are copies
of what was on disk when it was made. Functions that change the object return the changed one.

`NodeBlock::get` takes the id of a node from its number when the label is not empty, and from the
property `label` otherwise. It checks `edgeRef` against the block size of local relations and, when
that fails, adds the number to a `char` pointer for the message: an undefined outcome.
-/

namespace JasmineGraph.NativeStore

open Bytes

structure NodeBlock where
  id : ByteString
  nodeId : Nat
  addr : Nat
  propRef : Nat
  metaPropRef : Nat
  edgeRef : Nat
  centralEdgeRef : Nat
  edgeRefPID : UInt8
  label : ByteString
  usage : Bool
deriving DecidableEq

namespace NodeBlock

def blockSize : Nat := 140

def labelSize : Nat := 118

/-- The widths of the fields on disk: usage, node id, the two edge references, partition id, the
two property references, label. -/
def widths : List Nat := [1, 4, 4, 4, 1, 4, 4, labelSize]

def relationRef (this : NodeBlock) : RelationKind → Nat
  | .localRelation => this.edgeRef
  | .centralRelation => this.centralEdgeRef

def setRelationRef (this : NodeBlock) (k : RelationKind) (ref : Nat) : NodeBlock :=
  match k with
  | .localRelation => { this with edgeRef := ref }
  | .centralRelation => { this with centralEdgeRef := ref }

def read (id : ByteString) (blockAddress : Nat) : M NodeBlock := do
  match ← readAt .nodes blockAddress widths with
  | some [usage, nodeId, edgeRef, centralEdgeRef, edgeRefPID, propRef, metaPropRef, label] =>
    let label ← ofOption (strcpy labelSize label)
    return {
      id, nodeId := ofLe32 nodeId, addr := blockAddress, propRef := ofLe32 propRef
      metaPropRef := ofLe32 metaPropRef
      edgeRef := ofLe32 edgeRef
      centralEdgeRef := ofLe32 centralEdgeRef
      edgeRefPID := edgeRefPID.getD 0 0
      label
      usage := usage.getD 0 0 == 1 }
  | _ => undefined

def getPropertyHead (this : NodeBlock) : M (Option Link) := PropertyLink.get this.propRef

def getMetaPropertyHead (this : NodeBlock) : M (Option Link) :=
  MetaPropertyLink.get this.metaPropRef

def getAllProperties (this : NodeBlock) : M PropertyMap := do
  allProperties .property (← this.getPropertyHead)

def get (blockAddress : Nat) : M NodeBlock := do
  let node ← read [] blockAddress
  let node ←
    if cstr node.label ≠ [] then pure { node with id := decimal node.nodeId }
    else do
      let props ← node.getAllProperties
      pure { node with id := props.getD (ascii "label") [] }
  if node.edgeRef % 152 ≠ 0 then undefined
  else return node

def setLabel (this : NodeBlock) (label : ByteString) : NodeBlock :=
  { this with label := strncpy labelSize label }

def addLabel (this : NodeBlock) (label : ByteString) : M NodeBlock := do
  if cstr this.label = this.id ∧ cstr label ≠ [] then
    let this := this.setLabel label
    let _ ← writeAt .nodes (this.addr + 22) [this.label]
    flush .nodes
    return this
  else return this

/-- Where a node block keeps the reference to a chain of its properties. -/
structure RefField where
  kind : LinkKind
  offset : Nat
  ref : NodeBlock → Nat
  setRef : NodeBlock → Nat → NodeBlock

def propField : RefField := ⟨.property, 14, propRef, fun n r => { n with propRef := r }⟩

def metaPropField : RefField :=
  ⟨.metaProperty, 18, metaPropRef, fun n r => { n with metaPropRef := r }⟩

/-- The common body of `addProperty` and `addMetaProperty`: a first link is created and its address
written to the block; otherwise the property is inserted from the referenced link on, and the
object keeps the address `insert` returns. -/
def addTo (field : RefField) (this : NodeBlock) (name value : ByteString) : M NodeBlock := do
  if field.ref this = 0 then
    match ← createLink field.kind name value with
    | some newLink =>
      let this := field.setRef this newLink.blockAddress
      let _ ← writeAt .nodes (this.addr + field.offset) [le32 newLink.blockAddress]
      flush .nodes
      return this
    | none => return this
  else
    match ← getLink field.kind (field.ref this) with
    | some head => return field.setRef this (← insertLink field.kind head name value)
    | none => undefined

def addProperty : NodeBlock → ByteString → ByteString → M NodeBlock := addTo propField

def addMetaProperty : NodeBlock → ByteString → ByteString → M NodeBlock := addTo metaPropField

/-- `save`: write the block; an id too long for the label goes into the property `label`. -/
def save (this : NodeBlock) : M NodeBlock := do
  let isSmallLabel := this.id.length < labelSize
  let this := if isSmallLabel then this.setLabel this.id else this
  let _ ← writeAt .nodes this.addr [[if this.usage then 1 else 0], le32 this.nodeId,
    le32 this.edgeRef, le32 this.centralEdgeRef, [this.edgeRefPID], le32 this.propRef,
    le32 this.metaPropRef, this.label]
  flush .nodes
  if isSmallLabel then return this
  else this.addProperty (ascii "label") (strncpy LinkKind.valueSize this.id)

def new (id : ByteString) (nodeId addr : Nat) : NodeBlock where
  id := id
  nodeId := nodeId
  addr := addr
  propRef := 0
  metaPropRef := 0
  edgeRef := 0
  centralEdgeRef := 0
  edgeRefPID := 0
  label := List.replicate labelSize 0
  usage := true

end NodeBlock

end JasmineGraph.NativeStore
