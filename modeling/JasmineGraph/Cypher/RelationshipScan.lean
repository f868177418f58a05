import JasmineGraph.MapOption
import JasmineGraph.NativeStore.RelationBlock
import JasmineGraph.Cypher.NodeScan

/-!
# The scan over all relationships of a partition

`OperatorExecutor::DirectedAllRelationshipScan` goes through the blocks of the local relations and of
the central relations. With many local relations it hands the work to
`DirectedAllRelationshipScanParallel`, which reads the local relations in chunks.

* `RelationRecord` is a relation as the scans read it. Block 0 of a relation file is not used:
  `getLocalRelation` and `getCentralRelation` return a null pointer for it, as they do for a block
  past the end of the file.
* The scans dereference what they get. `none` stands for a null pointer that is dereferenced.
* `relType` of a plan is `none` if the plan has no such member, as the plan that
  `DirectedAllRelationshipScan::execute` prints. A type is then never equal to it.
* The number of blocks follows from the size of the file, which `dbSize` returns as `int`.

Nothing of this throws an exception, so the sequential path is never taken after the parallel one.
-/

namespace JasmineGraph.Cypher

open JasmineGraph.Bytes List Option
open JasmineGraph.NativeStore (RelationKind)
open scoped List

structure RelationRecord where
  relType : Text
  partitionID : Text
  properties : List (Text × Text)
  source : NodeRecord
  destination : NodeRecord

/-- The object of a relation: its properties. It stays null without properties. -/
def relationData (relation : RelationRecord) : JsonValue :=
  relation.properties.foldl (fun data property => data.set property.1 (.string property.2)) .null

/-- The members of the plan that the scan reads. -/
structure DirectedScanPlan where
  direction : Text
  sourceVariable : Text
  destVariable : Text
  relVariable : Text
  relType : Option Text

def relationRow (plan : DirectedScanPlan) (isDirected : Bool) (relation : RelationRecord) :
    JsonValue :=
  let startNodeData := nodeData relation.source
  let destNodeData := nodeData relation.destination
  let directionData : JsonValue :=
    if plan.direction = ascii "right" then
      (JsonValue.null.set plan.sourceVariable startNodeData).set plan.destVariable destNodeData
    else if isDirected = false then
      (JsonValue.null.set plan.sourceVariable destNodeData).set plan.destVariable startNodeData
    else .null
  directionData.set plan.relVariable (relationData relation)

def relationFileSize (k : RelationKind) (blocks : Nat) : Nat :=
  if blocks = 0 then 0 else (blocks + 1) * k.blockSize

/-- The relations of a partition, from block 1 on. A block has an address of 32 bits. -/
structure PartitionRelations where
  partitionID : Text
  relations : RelationKind → List RelationRecord
  fits : ∀ k, relationFileSize k (relations k).length < 2 ^ 32

namespace PartitionRelations

variable (p : PartitionRelations)

def fileSize (k : RelationKind) : Nat := relationFileSize k (p.relations k).length

/-- `dbSize(...) / BLOCK_SIZE`: an `int` divided by an `unsigned long`. -/
def relationCount (k : RelationKind) : Nat := (toInt32 (p.fileSize k) % 2 ^ 64).toNat / k.blockSize

/-- `getLocalRelation` and `getCentralRelation` of the block with a number. -/
def getRelation (k : RelationKind) (i : Nat) : Option RelationRecord :=
  match i with
  | 0 => none
  | i + 1 => (p.relations k)[i]?

/-- A loop over blocks: the rows of the relations that pass the tests. -/
def scanBlocks (k : RelationKind) (wanted : RelationRecord → Bool)
    (row : RelationRecord → JsonValue) (blocks : List Nat) : Option (List JsonValue) :=
  (blocks.mapM (p.getRelation k)).map fun relations => (relations.filter wanted).map row

end PartitionRelations

section Scan

variable (workerCount : Nat) (p : PartitionRelations) (isDirected : Bool) (plan : DirectedScanPlan)

def hasPlanType (relation : RelationRecord) : Bool := plan.relType == some relation.relType

def directedAllRelationshipScanSequential : Option (List (Message JsonValue)) := do
  let localRows ← p.scanBlocks .localRelation (hasPlanType plan) (relationRow plan isDirected)
    (range' 1 (p.relationCount .localRelation - 1))
  let centralRows ← p.scanBlocks .centralRelation
    (fun relation => relation.partitionID == p.partitionID) (relationRow plan isDirected)
    (range' 1 (p.relationCount .centralRelation - 1))
  return stream (localRows ++ centralRows)

def localChunks : List WorkChunk :=
  let items := p.relationCount .localRelation - 1
  createWorkChunks items (calculateOptimalChunkSize items workerCount)

def chunkBlocks (chunk : WorkChunk) : List Nat :=
  chunk.indices.filter (· < p.relationCount .localRelation)

def processRelationshipChunk (chunk : WorkChunk) : Option (List JsonValue) :=
  p.scanBlocks .localRelation (hasPlanType plan) (relationRow plan isDirected) (chunkBlocks p chunk)

def directedAllRelationshipScanParallel : Option (List (Message JsonValue)) := do
  let chunkResults ← (localChunks workerCount p).mapM (processRelationshipChunk p isDirected plan)
  let centralRows ← p.scanBlocks .centralRelation
    (fun relation => hasPlanType plan relation && relation.partitionID == p.partitionID &&
      relation.source.partitionID == p.partitionID) (relationRow plan isDirected)
    (range' 1 (p.relationCount .centralRelation - 1))
  return stream (chunkResults.flatten ++ centralRows)

/-- The test for the parallel path; `RELATIONS_PER_WORKER_THRESHOLD` is 12500. -/
def relationsInParallel (relationCount : Nat) : Prop :=
  12500 * workerCount < relationCount ∧ shouldUseParallelProcessing relationCount workerCount

instance (relationCount : Nat) : Decidable (relationsInParallel workerCount relationCount) :=
  inferInstanceAs (Decidable (_ ∧ _))

def directedAllRelationshipScan : Option (List (Message JsonValue)) :=
  if relationsInParallel workerCount (p.relationCount .localRelation) then
    directedAllRelationshipScanParallel workerCount p isDirected plan
  else directedAllRelationshipScanSequential p isDirected plan

end Scan

/-! ## Block counts -/

namespace PartitionRelations

variable {p : PartitionRelations} {k : RelationKind}

theorem isSome_getRelation {i : Nat} :
    (p.getRelation k i).isSome ↔ 0 < i ∧ i ≤ (p.relations k).length := by
  cases i with
  | zero => simp [getRelation]
  | succ i => simp [getRelation]

theorem isSome_scanBlocks {wanted : RelationRecord → Bool} {row : RelationRecord → JsonValue}
    {blocks : List Nat} : (p.scanBlocks k wanted row blocks).isSome ↔
      ∀ i ∈ blocks, 0 < i ∧ i ≤ (p.relations k).length := by
  rw [scanBlocks, isSome_map, isSome_mapM]
  exact forall₂_congr fun _ _ => isSome_getRelation

theorem blockSize_pos (k : RelationKind) : 0 < k.blockSize := by cases k <;> decide

theorem relationCount_of_lt (h : p.fileSize k < 2 ^ 31) :
    p.relationCount k - 1 = (p.relations k).length := by
  have hsize : (toInt32 (p.fileSize k) % 2 ^ 64).toNat = p.fileSize k := by
    rw [toInt32_of_lt h]
    omega
  rw [relationCount, hsize, fileSize, relationFileSize]
  split
  · rename_i hnil
    rw [Nat.zero_div, hnil]
  · rw [Nat.mul_div_cancel _ (blockSize_pos k)]
    rfl

theorem relationCount_of_le (h : 2 ^ 31 ≤ p.fileSize k) :
    (p.relations k).length < p.relationCount k - 1 := by
  have hfits : p.fileSize k < 2 ^ 32 := p.fits k
  have hwrap : 2 ^ 64 - 2 ^ 31 ≤ (toInt32 (p.fileSize k) % 2 ^ 64).toNat := by
    unfold toInt32
    omega
  have hblocks : (p.relations k).length < 2 ^ 32 := by
    have hpos := blockSize_pos k
    unfold fileSize relationFileSize at hfits
    split at hfits
    · omega
    · exact Nat.lt_of_le_of_lt (Nat.le_trans (Nat.le_succ _) (Nat.le_mul_of_pos_right _ hpos)) hfits
  have hcount : 2 ^ 40 ≤ p.relationCount k := by
    refine Nat.le_trans ?_ (Nat.div_le_div_right hwrap)
    cases k <;> decide
  omega

/-- The loop over all blocks finishes exactly if the file is shorter than 2 GiB. -/
theorem isSome_scanBlocks_all {wanted : RelationRecord → Bool} {row : RelationRecord → JsonValue} :
    (p.scanBlocks k wanted row (range' 1 (p.relationCount k - 1))).isSome ↔
      p.fileSize k < 2 ^ 31 := by
  rw [isSome_scanBlocks]
  constructor
  · intro hblocks
    by_contra hsize
    have hlt := relationCount_of_le (Nat.le_of_not_lt hsize)
    have hlast := hblocks ((p.relations k).length + 1) (mem_range'_1.2 (by omega))
    omega
  · intro hsize i hi
    rw [relationCount_of_lt hsize, mem_range'_1] at hi
    omega

end PartitionRelations

/-! ## The two paths -/

section Agreement

variable {workerCount : Nat} {p : PartitionRelations} {isDirected : Bool} {plan : DirectedScanPlan}

theorem isSome_do {α β γ : Type} {a : Option α} {b : Option β} {f : α → β → γ} :
    (do let x ← a; let y ← b; return f x y : Option γ).isSome ↔ a.isSome ∧ b.isSome := by
  cases a <;> cases b <;> simp

theorem isSome_directedAllRelationshipScanSequential (p : PartitionRelations) (isDirected : Bool)
    (plan : DirectedScanPlan) :
    (directedAllRelationshipScanSequential p isDirected plan).isSome ↔
      ∀ k, p.fileSize k < 2 ^ 31 := by
  rw [directedAllRelationshipScanSequential, isSome_do, PartitionRelations.isSome_scanBlocks_all,
    PartitionRelations.isSome_scanBlocks_all]
  exact ⟨fun h k => by cases k; exacts [h.1, h.2], fun h => ⟨h _, h _⟩⟩

theorem eq_stream_of_sequential {out : List (Message JsonValue)}
    (h : directedAllRelationshipScanSequential p isDirected plan = some out) :
    ∃ rows, out = stream rows := by
  simp only [directedAllRelationshipScanSequential, bind_eq_bind, bind_eq_some_iff,
    Option.pure_def, some.injEq] at h
  obtain ⟨localRows, -, centralRows, -, rfl⟩ := h
  exact ⟨_, rfl⟩

theorem exists_chunk_zero (workerCount : Nat) (h : 1 < p.relationCount .localRelation) :
    ∃ chunk ∈ localChunks workerCount p, 0 ∈ chunkBlocks p chunk := by
  have hzero : 0 ∈ (localChunks workerCount p).flatMap WorkChunk.indices := by
    rw [localChunks, indices_createWorkChunks (calculateOptimalChunkSize_pos _ _), mem_range]
    omega
  obtain ⟨chunk, hchunk, hmem⟩ := mem_flatMap.1 hzero
  exact ⟨chunk, hchunk, mem_filter.2 ⟨hmem, decide_eq_true (by omega)⟩⟩

/-- **The parallel path dereferences a null pointer** as soon as there is a local relation. -/
theorem directedAllRelationshipScanParallel_eq_none (h : 1 < p.relationCount .localRelation) :
    directedAllRelationshipScanParallel workerCount p isDirected plan = none := by
  obtain ⟨chunk, hchunk, hzero⟩ := exists_chunk_zero workerCount h
  have hcrash : (localChunks workerCount p).mapM (processRelationshipChunk p isDirected plan) =
      none := by
    rw [← not_isSome_iff_eq_none, isSome_mapM]
    intro hsome
    have hblocks := PartitionRelations.isSome_scanBlocks.1 (hsome chunk hchunk)
    exact absurd (hblocks 0 hzero).1 (Nat.lt_irrefl 0)
  rw [directedAllRelationshipScanParallel, hcrash]
  rfl

/-- What is asked of the scan: it emits the rows of its sequential path and one end marker, and no
chunk reads block 0 or a block past the end of the file. -/
def ScanAgrees (workerCount : Nat) (p : PartitionRelations) (isDirected : Bool)
    (plan : DirectedScanPlan) : Prop :=
  (∃ out out', directedAllRelationshipScan workerCount p isDirected plan = some out ∧
    directedAllRelationshipScanSequential p isDirected plan = some out' ∧ SameRows out out') ∧
  (relationsInParallel workerCount (p.relationCount .localRelation) →
    ∀ chunk ∈ localChunks workerCount p, ∀ i ∈ chunkBlocks p chunk,
      0 < i ∧ i ≤ (p.relations .localRelation).length)

theorem not_scanAgrees
    (hparallel : relationsInParallel workerCount (p.relationCount .localRelation)) :
    ¬ScanAgrees workerCount p isDirected plan := by
  have hcount : 1 < p.relationCount .localRelation :=
    Nat.lt_trans (by decide) hparallel.2.1
  intro hagrees
  obtain ⟨chunk, hchunk, hzero⟩ := exists_chunk_zero workerCount hcount
  exact absurd (hagrees.2 hparallel chunk hchunk 0 hzero).1 (Nat.lt_irrefl 0)

end Agreement

/-- **When the relationship scan agrees with its sequential path**: exactly if it takes that path and
both files are shorter than 2 GiB. -/
theorem directedAllRelationshipScan_agrees_iff (workerCount : Nat) (p : PartitionRelations)
    (isDirected : Bool) (plan : DirectedScanPlan) :
    ScanAgrees workerCount p isDirected plan ↔
      ¬relationsInParallel workerCount (p.relationCount .localRelation) ∧
        ∀ k, p.fileSize k < 2 ^ 31 := by
  constructor
  · intro hagrees
    refine ⟨fun hparallel => not_scanAgrees hparallel hagrees, ?_⟩
    obtain ⟨-, out', -, hout', -⟩ := hagrees.1
    exact (isSome_directedAllRelationshipScanSequential p isDirected plan).1
      (isSome_of_eq_some hout')
  · rintro ⟨hsequential, hsize⟩
    obtain ⟨out, hout⟩ := isSome_iff_exists.1
      ((isSome_directedAllRelationshipScanSequential p isDirected plan).2 hsize)
    obtain ⟨rows, rfl⟩ := eq_stream_of_sequential hout
    refine ⟨⟨_, _, ?_, hout, sameRows_stream.2 (.refl rows)⟩, fun h => absurd h hsequential⟩
    rw [directedAllRelationshipScan, if_neg hsequential, hout]

/-- A partition with 25001 local relations. -/
def manyRelations : PartitionRelations where
  partitionID := ascii "0"
  relations
    | .localRelation => replicate 25001 ⟨ascii "knows", ascii "0", [],
        ⟨ascii "0", ascii "Person", []⟩, ⟨ascii "0", ascii "Person", []⟩⟩
    | .centralRelation => []
  fits k := by
    cases k
    · rw [length_replicate]
      decide
    · decide

/-- The scan of a plan without a type, on a machine with two cores. -/
theorem directedAllRelationshipScan_crashes : ¬ScanAgrees 2 manyRelations true
      ⟨ascii "right", ascii "a", ascii "b", ascii "r", none⟩ := by
  have hcount : manyRelations.relationCount .localRelation = 25002 := by
    rw [PartitionRelations.relationCount, PartitionRelations.fileSize, manyRelations,
      length_replicate]
    decide
  refine not_scanAgrees ?_
  rw [hcount]
  decide

end JasmineGraph.Cypher
