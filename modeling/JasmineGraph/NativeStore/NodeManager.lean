import JasmineGraph.AdjacencyMap
import JasmineGraph.NativeStore.RelationBlock

/-!
# `NodeManager`

The functions of `NodeManager.cpp` that build a store and read it: nodes and edges are added
(`addNode`, `addEdge`), the adjacency is read by walking the lists of every indexed node
(`getAdjacencyList`) or by scanning a relation file block by block (`getAdjacencyListOf`).

`dbSize` returns the file size as an `int`. The index map is an `unordered_map`: where the code
iterates it, `KeyOrder` stands for the order.
-/

namespace JasmineGraph.NativeStore

open Bytes

def Memory.addIndex (m : Memory) (nodeId : ByteString) (nodeIDC : ByteString) (nodeIndex : Nat) :
    Memory := { m with
  nodeIndex := m.nodeIndex.insert nodeId m.nextNodeIndex
  indexDB := m.indexDB ++ nodeIDC ++ le32 nodeIndex }

def Memory.bumpNode (m : Memory) : Memory := { m with nextNodeIndex := u32 (m.nextNodeIndex + 1) }

/-- `nextEdgeIndex++`, an `unsigned long`. -/
def Memory.bumpEdge (m : Memory) : Memory :=
  { m with nextEdgeIndex := (m.nextEdgeIndex + 1) % 2 ^ 64 }

namespace NodeManager

def getAt (nodeIndex : Nat) (nodeId : ByteString) : M NodeBlock :=
  NodeBlock.read nodeId (u32 (nodeIndex * NodeBlock.blockSize))

def get (nodeId : ByteString) : M (Option NodeBlock) := do
  match (← memory).nodeIndex[nodeId]? with
  | none => return none
  | some nodeIndex => return some (← getAt nodeIndex nodeId)

/-- `addNodeIndex`: the map entry, and a record appended to the index file. The key buffer has
`INDEX_KEY_SIZE` bytes. -/
def addNodeIndex (nodeId : ByteString) (nodeIndex : Nat) : M Unit := do
  let nodeIDC ← ofOption (strcpy (← memory).indexKeySize nodeId)
  modifyMemory (·.addIndex nodeId nodeIDC nodeIndex)

/-- `addNode`: the block of a known id, or a new block. `std::stoul` throws on an id that is no
number. -/
def addNode (nodeId : ByteString) : M NodeBlock := do
  let m ← memory
  match m.nodeIndex[nodeId]? with
  | some nodeIndex => getAt nodeIndex nodeId
  | none =>
    let vertexId := u32 (← ofOption (stoul nodeId))
    let sourceBlk := NodeBlock.new nodeId vertexId (u32 (m.nextNodeIndex * NodeBlock.blockSize))
    addNodeIndex nodeId m.nextNodeIndex
    modifyMemory (·.bumpNode)
    (sourceBlk.setLabel nodeId).save

/-- `addLocalRelation` and `addCentralRelation`. Both node objects are copies made before the
relation exists. The local variant reads both nodes once more at the end and drops the result. -/
def addRelation (k : RelationKind) (source destination : NodeBlock) : M (Option RelationBlock) := do
  match ← RelationBlock.addRelation k source destination with
  | none => return none
  | some newRelation =>
    let (_, newRelation) ← source.updateRelation k newRelation
    let (_, newRelation) ← destination.updateRelation k newRelation
    if k = .localRelation then
      let _ ← get (decimal source.nodeId)
      let _ ← get (decimal destination.nodeId)
    return some newRelation

/-- `addLocalEdge` and `addCentralEdge`; `none` is the null pointer. -/
def addEdge (k : RelationKind) (edge : ByteString × ByteString) : M (Option RelationBlock) := do
  let sourceNode ← addNode edge.1
  let destNode ← addNode edge.2
  match ← addRelation k sourceNode destNode with
  | none => return none
  | some newRelation =>
    if k = .localRelation then
      modifyMemory (·.bumpEdge)
    return some { newRelation with
      sourceBlock := some sourceNode, destinationBlock := some destNode }

def addLocalEdge := addEdge .localRelation

def addCentralEdge := addEdge .centralRelation

def dbSize (d : DB) : M Int := do
  return toInt32 (← diskSize d)

/-- The order in which the index map is iterated. -/
structure KeyOrder where
  order : List ByteString → List ByteString
  perm : ∀ l, (order l).Perm l

def vertexOf (nodeId : Nat) : Long := Int64.ofNat nodeId

/-- The loop of `getAdjacencyList()`: `emplace` keeps the first set of a vertex. -/
def adjacencyOf : List ByteString → AdjacencyMap → M AdjacencyMap
  | [], adjacencyList => return adjacencyList
  | nodeId :: rest, adjacencyList => do
    match ← get nodeId with
    | none => undefined
    | some node =>
      let neighborNodes ← node.getAllEdgeNodes
      let neighbors := (neighborNodes.map fun n => vertexOf n.1.nodeId).foldl VertexSet.insert ∅
      let key := vertexOf node.nodeId
      adjacencyOf rest
        (if key ∈ adjacencyList then adjacencyList else adjacencyList.insert key neighbors)

def getAdjacencyList (o : KeyOrder) : M AdjacencyMap := do
  adjacencyOf (o.order (← memory).nodeIndex.keys) ∅

/-- The loop of `getAdjacencyList(bool)`, from block `i` on for `n` blocks. A null relation is
dereferenced. -/
def scanRelations (k : RelationKind) : Nat → Nat → AdjacencyMap → M AdjacencyMap
  | _, 0, adjacencyList => return adjacencyList
  | i, n + 1, adjacencyList => do
    match ← RelationBlock.getRelation k (u32 (i * k.blockSize)) with
    | some { sourceBlock := some source, destinationBlock := some destination, .. } =>
      let src ← ofOption (stol source.id)
      let dest ← ofOption (stol destination.id)
      scanRelations k (i + 1) n
        (adjacencyList.insert src ((adjacencyList.row src).insert dest))
    | _ => undefined

/-- `getAdjacencyList(isLocal)`: the number of blocks follows from the file size, less the unused
block 0. -/
def getAdjacencyListOf (k : RelationKind) : M AdjacencyMap := do
  let newRelationCount := Int.tdiv (← dbSize (.relations k)) k.blockSize - 1
  scanRelations k 1 newRelationCount.toNat ∅

def getDistributionMap (o : KeyOrder) : M (Std.TreeMap Long Nat) := do
  return (← getAdjacencyList o).outDegrees

end NodeManager

end JasmineGraph.NativeStore
