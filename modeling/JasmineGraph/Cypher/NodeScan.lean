import JasmineGraph.Cypher.ParallelExecutor

/-!
# The scans over the nodes of a partition

`OperatorExecutor::AllNodeScan` and `OperatorExecutor::NodeScanByLabel` go through the node index and
emit a row for each node that belongs to the partition. On a large index they hand the work to
`AllNodeScanParallel` and `NodeScanByLabelParallel`, which cut the index into chunks.

* `NodeRecord` is a node as the scans read it: the value at the head of its meta properties, which is
  the partition the node belongs to, its label and its properties.
* `PartitionNodes` are the nodes of a partition in the order in which the index is iterated.
* `scanNodes` and `scanNodesParallel` are the two loops. They differ between the two operators, and
  between the two paths of `NodeScanByLabel`, in the test on a node and in the row that is made of it.
-/

namespace JasmineGraph.Cypher

open JasmineGraph.Bytes List
open scoped List

/-- A node as the scans read it. -/
structure NodeRecord where
  partitionID : Text
  label : Text
  properties : List (Text × Text)

def nodeData (node : NodeRecord) : JsonValue :=
  node.properties.foldl (fun data property => data.set property.1 (.string property.2))
    (.object [(ascii "partitionID", .string node.partitionID)])

structure PartitionNodes where
  partitionID : Text
  nodes : List NodeRecord

/-- `data[variable] = nodeData`. -/
def bindNode (var : Text) (data : JsonValue) : JsonValue := .object [(var, data)]

section Loops

variable (p : PartitionNodes) (wanted : NodeRecord → Bool) (row : JsonValue → JsonValue)

/-- The row of a node that belongs to the partition and passes the test. -/
def scanNode (node : NodeRecord) : Option JsonValue :=
  if node.partitionID = p.partitionID ∧ wanted node = true then some (row (nodeData node)) else none

/-- The loop over the index. -/
def scanNodes : List JsonValue := p.nodes.filterMap (scanNode p wanted row)

def processNodeChunk (chunk : WorkChunk) : List JsonValue :=
  let last := min (p.nodes.length - 1) chunk.endIndex
  (range' chunk.startIndex (last + 1 - chunk.startIndex)).filterMap
    fun i => p.nodes[i]?.bind (scanNode p wanted row)

def scanNodesParallel (workerCount : Nat) : List JsonValue :=
  (processInParallel workerCount p.nodes.length (processNodeChunk p wanted row)).flatten

end Loops

/-- The test for the parallel path; `NODES_PER_WORKER_THRESHOLD` is 125. -/
def nodesInParallel (workerCount nodeCount : Nat) : Prop :=
  125 * workerCount < nodeCount ∧ shouldUseParallelProcessing nodeCount workerCount

instance (workerCount nodeCount : Nat) : Decidable (nodesInParallel workerCount nodeCount) :=
  inferInstanceAs (Decidable (_ ∧ _))

def allNodeScan (workerCount : Nat) (p : PartitionNodes) (var : Text) : List (Message JsonValue) :=
  if nodesInParallel workerCount p.nodes.length then
    stream (scanNodesParallel p (fun _ => true) (bindNode var) workerCount)
  else stream (scanNodes p (fun _ => true) (bindNode var))

/-- The sequential path of `NodeScanByLabel`. -/
def nodeScanByLabelSequential (p : PartitionNodes) (label var : Text) : List (Message JsonValue) :=
  stream (scanNodes p (fun node => node.label == label) (bindNode var))

def nodeScanByLabelParallel (workerCount : Nat) (p : PartitionNodes) (label : Text) :
    List (Message JsonValue) :=
  stream (scanNodesParallel p (fun node => node.label == label) id workerCount)

def nodeScanByLabel (workerCount : Nat) (p : PartitionNodes) (label var : Text) :
    List (Message JsonValue) :=
  if nodesInParallel workerCount p.nodes.length then nodeScanByLabelParallel workerCount p label
  else nodeScanByLabelSequential p label var

/-! ## The chunks of the index -/

theorem filterMap_range {α β : Type} (f : α → Option β) (l : List α) :
    (List.range l.length).filterMap (fun i => l[i]?.bind f) = l.filterMap f := by
  induction l with
  | nil => rfl
  | cons x l ih =>
    rw [length_cons, range_succ_eq_map, filterMap_cons, filterMap_map]
    have htail : (List.range l.length).filterMap ((fun i => (x :: l)[i]?.bind f) ∘ Nat.succ) =
        l.filterMap f := ih
    rw [htail]
    rfl

/-- **The chunks are the whole index.** -/
theorem scanNodesParallel_eq (p : PartitionNodes) (wanted : NodeRecord → Bool)
    (row : JsonValue → JsonValue) (workerCount : Nat) :
    scanNodesParallel p wanted row workerCount = scanNodes p wanted row := by
  have hchunk : ∀ chunk ∈ createWorkChunks p.nodes.length
      (calculateOptimalChunkSize p.nodes.length workerCount),
      processNodeChunk p wanted row chunk =
        chunk.indices.filterMap fun i => p.nodes[i]?.bind (scanNode p wanted row) := by
    intro chunk hmem
    have hlt := endIndex_lt hmem
    unfold processNodeChunk WorkChunk.indices
    rw [Nat.min_eq_right (by omega)]
  rw [scanNodesParallel, processInParallel, map_congr_left hchunk, ← flatMap_def,
    ← filterMap_flatMap, indices_createWorkChunks (calculateOptimalChunkSize_pos _ _),
    filterMap_range, scanNodes]

def allNodeScanParallel (workerCount : Nat) (p : PartitionNodes) (var : Text) :
    List (Message JsonValue) :=
  stream (scanNodesParallel p (fun _ => true) (bindNode var) workerCount)

/-- **The two paths of `AllNodeScan` emit the same.** -/
theorem allNodeScan_eq (workerCount : Nat) (p : PartitionNodes) (var : Text) :
    allNodeScan workerCount p var = stream (scanNodes p (fun _ => true) (bindNode var)) := by
  unfold allNodeScan
  rw [scanNodesParallel_eq, ite_self]

/-! ## The rows of the label scan -/

def StringMembers (v : JsonValue) : Prop :=
  ∃ members, v = .object members ∧ ∀ m ∈ members, ∃ s, m.2 = .string s

theorem StringMembers.set {v : JsonValue} (h : StringMembers v) (key s : Text) :
    StringMembers (v.set key (.string s)) := by
  obtain ⟨members, rfl, hmembers⟩ := h
  refine ⟨setMember key (.string s) members, rfl, fun m hm => ?_⟩
  rcases mem_setMember hm with rfl | hm
  · exact ⟨s, rfl⟩
  · exact hmembers m hm

theorem stringMembers_nodeData (node : NodeRecord) : StringMembers (nodeData node) := by
  have hfold : ∀ (properties : List (Text × Text)) (v : JsonValue), StringMembers v →
      StringMembers (properties.foldl (fun data property =>
        data.set property.1 (.string property.2)) v) := by
    intro properties
    induction properties with
    | nil => exact fun v hv => hv
    | cons property properties ih => exact fun v hv => ih _ (hv.set property.1 property.2)
  exact hfold node.properties _ ⟨_, rfl, forall_mem_singleton.2 ⟨_, rfl⟩⟩

theorem nodeData_ne_bindNode (node node' : NodeRecord) (var : Text) :
    nodeData node ≠ bindNode var (nodeData node') := by
  intro heq
  obtain ⟨members, hmembers, hstrings⟩ := stringMembers_nodeData node
  obtain ⟨members', hmembers', -⟩ := stringMembers_nodeData node'
  rw [hmembers, bindNode, JsonValue.object.injEq] at heq
  obtain ⟨s, hs⟩ := hstrings (var, nodeData node') (heq ▸ mem_singleton_self _)
  rw [hmembers'] at hs
  exact absurd hs nofun

theorem mem_scanNodes {p : PartitionNodes} {wanted : NodeRecord → Bool}
    {row : JsonValue → JsonValue} {v : JsonValue} :
    v ∈ scanNodes p wanted row ↔ ∃ node ∈ p.nodes,
      (node.partitionID = p.partitionID ∧ wanted node = true) ∧ row (nodeData node) = v := by
  simp [scanNodes, scanNode]

theorem nodeScanByLabelParallel_sameRows_iff (workerCount : Nat) (p : PartitionNodes)
    (label var : Text) :
    SameRows (nodeScanByLabelParallel workerCount p label) (nodeScanByLabelSequential p label var) ↔
      ∀ node ∈ p.nodes, ¬(node.partitionID = p.partitionID ∧ node.label = label) := by
  rw [nodeScanByLabelParallel, scanNodesParallel_eq, nodeScanByLabelSequential, sameRows_stream]
  constructor
  · rintro hperm node hnode ⟨hpartition, hlabel⟩
    have hmem : nodeData node ∈ scanNodes p (fun node => node.label == label) id :=
      mem_scanNodes.2 ⟨node, hnode, ⟨hpartition, beq_iff_eq.2 hlabel⟩, rfl⟩
    obtain ⟨node', -, -, heq⟩ := mem_scanNodes.1 (hperm.subset hmem)
    exact nodeData_ne_bindNode node node' var heq.symm
  · intro hnone
    have hnil : ∀ row, scanNodes p (fun node => node.label == label) row = [] := by
      refine fun row => eq_nil_iff_forall_not_mem.2 fun v hv => ?_
      obtain ⟨node, hnode, ⟨hpartition, hlabel⟩, -⟩ := mem_scanNodes.1 hv
      exact hnone node hnode ⟨hpartition, beq_iff_eq.1 hlabel⟩
    rw [hnil, hnil]

end JasmineGraph.Cypher
