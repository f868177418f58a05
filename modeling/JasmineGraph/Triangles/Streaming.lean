import JasmineGraph.NativeStore.Adjacency
import JasmineGraph.Triangles.Count

/-!
# `StreamingTriangles`

The model of `StreamingTriangles` (`query/algorithms/triangles/StreamingTriangles.cpp`): triangles of
a native store, counted from the whole store (`countLocalStreamingTriangles`,
`countCentralStoreStreamingTriangles`) or from the relations added since an earlier count
(`countDynamicLocalTriangles`, `countDynamicCentralTriangles`).

* The number of relations of a kind comes from the size of its file, less the unused block 0
  (`relationCount`): `-1` for a file that holds nothing yet. The static count divides the size, an
  `int`, by an `unsigned long` (`staticRelationCount`).
* The dynamic counts read the blocks behind the previous number (`edgesAfter`). Block 0 is a null
  pointer, which the loop dereferences.
* They extend maps that are static members, shared by every request of the process: one for all
  local counts, and one for each concatenation of partition ids for the central counts (`Caches`).
* `totalCount` corrects for triangles with several new edges; `at` throws where a vertex is missing.
* The central functions open the stores of the partitions anew, in append mode and each in a thread
  with streams of its own (`onPartition`), so a store is what is on disk.

`std::unordered_set` leaves the order of iteration open: `IterationOrder` stands for it where the
code reads a set in order. Counts are unbounded here.
-/

namespace JasmineGraph.StreamingTriangles

open Bytes NativeStore NativeStore.NodeManager Refine JasmineGraph.Graph AdjacencyMap List

/-! ## Counting by edges -/

/-- The elements of a set that are in the set of `v`; `at` throws, at the first element. -/
def common (row : VertexSet) (other : Option VertexSet) : Option Nat :=
  if row.elems = [] then some 0 else other.map fun s => row.elems.countP (· ∈ s)

def count (g1 g2 : AdjacencyMap) : List (Long × Long) → Option Nat
  | [] => some 0
  | (u, v) :: edges => do
    let n ← common (← g1[u]?) g2[v]?
    return n + (← count g1 g2 edges)

/-- `totalCount`; half the number is rounded towards zero. -/
def totalCount (g1 g2 : AdjacencyMap) (edges : List (Long × Long)) : Option Int := do
  let s1 ← count g1 g1 edges
  let s2 ← count g1 g2 edges
  let s3 ← count g2 g2 edges
  return Int.tdiv ((s1 : Int) - s2 + (s3 / 3 : Nat)) 2

/-! ## One store -/

def relationCount (k : RelationKind) : M Int := do
  return Int.tdiv (← dbSize (.relations k)) k.blockSize - 1

/-- The number of relations in `countLocalStreamingTriangles`: a negative size is converted to
`unsigned long` before it is divided. -/
def staticRelationCount (k : RelationKind) : M Int := do
  return (← dbSize (.relations k)) % 2 ^ 64 / k.blockSize - 1

/-- The ends of `n` relations, from block `i` on. -/
def readEdges (k : RelationKind) : Int → Nat → M (List (Long × Long))
  | _, 0 => return []
  | i, n + 1 => do
    match ← RelationBlock.getRelation k (toUInt32 (i * k.blockSize)) with
    | some { sourceBlock := some source, destinationBlock := some target, .. } =>
      let sourceNode ← ofOption (stol source.id)
      let targetNode ← ofOption (stol target.id)
      return (sourceNode, targetNode) :: (← readEdges k (i + 1) n)
    | _ => undefined

/-- The loop `for (int i = old + 1; i <= new; i++)` over the relations of a kind. -/
def edgesAfter (k : RelationKind) (old new : Int) : M (List (Long × Long)) :=
  readEdges k (toInt32 (old + 1)) (new + 1 - toInt32 (old + 1)).toNat

/-- Each edge, and the edge turned round. -/
def bothWays (edges : List (Long × Long)) : List (Long × Long) := edges.flatMap fun e => [e, e.swap]

structure NativeStoreTriangleResult where
  localRelationCount : Int
  centralRelationCount : Int
  result : Int
deriving DecidableEq

def countTriangles (o : KeyOrder) (it : IterationOrder) (returnTriangles : Bool) :
    M Triangles.TriangleResult := do
  let adjacencyList ← getAdjacencyList o
  let distributionMap ← getDistributionMap o
  return Triangles.countTriangles (adjacencyList.reorder it) distributionMap returnTriangles

def countLocalStreamingTriangles (o : KeyOrder) (it : IterationOrder) :
    M NativeStoreTriangleResult := do
  let triangleCount ← ofOption (← countTriangles o it false).count
  let localRelationCount ← staticRelationCount .localRelation
  let centralRelationCount ← staticRelationCount .centralRelation
  return { localRelationCount, centralRelationCount, result := triangleCount }

def countDynamicLocalTriangles (localAdjacencyList : AdjacencyMap)
    (oldLocalRelationCount oldCentralRelationCount : Int) :
    M (NativeStoreTriangleResult × AdjacencyMap) := do
  let localRelationCount ← relationCount .localRelation
  let centralRelationCount ← relationCount .centralRelation
  if oldLocalRelationCount = localRelationCount ∧
      oldCentralRelationCount = centralRelationCount then
    return ({ localRelationCount, centralRelationCount, result := 0 }, localAdjacencyList)
  else
    let localEdges ← edgesAfter .localRelation oldLocalRelationCount localRelationCount
    let centralEdges ← edgesAfter .centralRelation oldCentralRelationCount centralRelationCount
    let edges := localEdges ++ centralEdges
    let newAdjacencyList := edges.foldl link ∅
    let localAdjacencyList := edges.foldl link localAdjacencyList
    let result ← ofOption (totalCount localAdjacencyList newAdjacencyList (bothWays edges))
    return ({ localRelationCount, centralRelationCount, result }, localAdjacencyList)

/-! ## The central stores of several partitions -/

/-- `org.jasminegraph.nativestore.max.label.size`, and what stands for relation types. -/
structure Config where
  maxLabel : Nat
  rawType : RelationKind → Nat → Fin 100 → UInt8

/-- The partitions on disk, by graph and partition id. -/
abbrev Stores := Nat → Nat → Disk

def Stores.ofIds (stores : Stores) (graphId partitionId : ByteString) : Option Disk := do
  return stores (toUInt32 (← stoi graphId)) (toUInt32 (← stoi partitionId))

/-- Run a reader on a `NodeManager` opened on a partition. -/
def onPartition {α : Type} (cfg : Config) (disk : Disk) (m : M α) : Option α := do
  m.run' (← openAppend cfg.maxLabel cfg.rawType disk)

def getCentralAdjacencyList (cfg : Config) (disk : Disk) : Option AdjacencyMap :=
  onPartition cfg disk (getAdjacencyListOf .centralRelation)

/-- `getEdges`, the reader run on the partition. -/
def newCentralEdges (previousCentralRelationCount : Int) : M (List (Long × Long)) := do
  let newCentralRelationCount ← relationCount .centralRelation
  return bothWays
    (← edgesAfter .centralRelation previousCentralRelationCount newCentralRelationCount)

def getEdges (cfg : Config) (disk : Disk) (previousCentralRelationCount : Int) :
    Option (List (Long × Long)) :=
  onPartition cfg disk (newCentralEdges previousCentralRelationCount)

def countCentralStoreStreamingTriangles (cfg : Config) (stores : Stores) (it : IterationOrder)
    (graphId : ByteString) (partitionIdList : List ByteString) : Option ByteString := do
  let adjacencyLists ← partitionIdList.mapM fun partitionId => do
    getCentralAdjacencyList cfg (← stores.ofIds graphId partitionId)
  let adjacencyList := (adjacencyLists.foldl union ∅).reorder it
  return (Triangles.countTriangles adjacencyList adjacencyList.outDegrees true).triangles

/-- `edgeMaps`; `oldCentralRelationCount[position]` past the end is undefined. -/
def edgeMaps (cfg : Config) (stores : Stores) (graphId : ByteString) :
    List ByteString → List ByteString → Option (List (List (Long × Long)))
  | [], _ => some []
  | _ :: _, [] => none
  | partitionId :: partitionIdList, old :: oldCentralRelationCount => do
    let previousCentralRelationCount ← stol old
    let edges ← getEdges cfg (← stores.ofIds graphId partitionId) previousCentralRelationCount.toInt
    return edges :: (← edgeMaps cfg stores graphId partitionIdList oldCentralRelationCount)

def trianglesAt (adjacencyList : AdjacencyMap) (edges : List (Long × Long)) :
    List (Long × Long × Long) :=
  edges.flatMap fun e =>
    ((adjacencyList.row e.1).elems.filter (· ∈ adjacencyList.row e.2)).map
      (Triangles.sortTriple e.1 e.2)

/-- `countDynamicCentralTriangles`: the text, and `centralAdjacencyList` afterwards. -/
def countDynamicCentralTriangles (cfg : Config) (stores : Stores) (it : IterationOrder)
    (centralAdjacencyList : Std.TreeMap ByteString AdjacencyMap) (graphId : ByteString)
    (partitionIdList oldCentralRelationCount : List ByteString) :
    Option (ByteString × Std.TreeMap ByteString AdjacencyMap) := do
  let joinedString := partitionIdList.flatten
  let edges := (← edgeMaps cfg stores graphId partitionIdList oldCentralRelationCount).flatten
  let adjacencyList := edges.foldl link (centralAdjacencyList.getD joinedString ∅)
  let triangles := trianglesAt (adjacencyList.reorder it) edges
  return ((triangles.flatMap Triangles.renderTriangle).dropLast,
    centralAdjacencyList.insert joinedString adjacencyList)

/-! ## What the readers return -/

theorem mem_bothWays {edges : List (Long × Long)} {u v : Long} :
    (u, v) ∈ bothWays edges ↔ (u, v) ∈ edges ∨ (v, u) ∈ edges := by
  simp only [bothWays, mem_flatMap, mem_cons, not_mem_nil, or_false]
  constructor
  · rintro ⟨⟨a, b⟩, he, h | h⟩ <;> cases h
    · exact .inl he
    · exact .inr he
  · rintro (h | h)
    · exact ⟨_, h, .inl rfl⟩
    · exact ⟨_, h, .inr rfl⟩

section Readers

variable {g : Log} {img : Image} {k : RelationKind}

theorem runs_relationCount : Runs img.Seen (relationCount k)
    (Int.tdiv (toInt32 (img.files (.relations k)).size) k.blockSize - 1) img.Seen :=
  .bind (.bind (Image.seen_diskSize _) .pure) .pure

theorem runs_staticRelationCount : Runs img.Seen (staticRelationCount k)
    (toInt32 (img.files (.relations k)).size % 2 ^ 64 / k.blockSize - 1) img.Seen :=
  .bind (.bind (Image.seen_diskSize _) .pure) .pure

theorem runs_readEdges (h : Tells g img.files k) (hfit : EdgesFit g k) :
    ∀ n i : Nat, i + n ≤ (g.edges k).length →
    Runs img.Seen (readEdges k ((i : Int) + 1) n) ((((g.edges k).drop i).take n).map arcOf) img.Seen
  | 0, i, _ => .pure
  | n + 1, i, hle => by
    have hi : i < (g.edges k).length := by omega
    obtain ⟨hok, hs, hd⟩ := h.relation (getElem?_eq_getElem hi)
    have haddr : toUInt32 (((i : Int) + 1) * k.blockSize) = (i + 1) * k.blockSize := by
      have hcast : ((i : Int) + 1) * k.blockSize = ((i + 1) * k.blockSize : Nat) := by push_cast; ring
      rw [hcast, toUInt32_natCast, u32_of_lt]
      exact Nat.lt_of_le_of_lt (Nat.mul_le_mul_right _ hi) hfit
    have hrest := runs_readEdges h hfit n (i + 1) (by omega)
    rw [Nat.cast_add, Nat.cast_one] at hrest
    rw [drop_eq_getElem_cons hi, take_succ_cons, map_cons]
    unfold readEdges
    rw [haddr]
    refine .bind (Image.seen_getRelation hok) ?_
    refine .bind (Image.seen_ofOption hs) (.bind (Image.seen_ofOption hd) ?_)
    exact .bind hrest .pure

/-- **The relations behind an earlier number.** -/
theorem runs_edgesAfter (h : Tells g img.files k) (hfit : EdgesFit g k) (old : Nat) {new : Int}
    (hold : old + 1 < 2 ^ 31) (hnew : new.toNat ≤ (g.edges k).length) :
    Runs img.Seen (edgesAfter k old new)
      ((((g.edges k).take new.toNat).drop old).map arcOf) img.Seen := by
  have hstart : toInt32 ((old : Int) + 1) = (old : Int) + 1 := toInt32_of_lt hold
  unfold edgesAfter
  rw [hstart, show (new + 1 - ((old : Int) + 1)).toNat = new.toNat - old by omega, drop_take]
  by_cases hle : old ≤ new.toNat
  · exact runs_readEdges h hfit _ _ (by omega)
  · rw [Nat.sub_eq_zero_of_le (Nat.le_of_not_le hle), take_zero]
    exact .pure

/-- The walk makes every edge symmetric, so that no triangle is missed. -/
theorem runs_countTriangles (h : Holds g img) (hfit : NodesFit g) (hdist : g.DistinctVertices)
    (o : KeyOrder) (it : IterationOrder) : ∃ r, Runs img.Seen (countTriangles o it false) r img.Seen ∧
      r.count = some (numTriangles (undirected fun u v => ∃ k, g.Arc k u v)) := by
  obtain ⟨adj, hwalk, -, hrow⟩ := h.runs_getAdjacencyList hfit hdist o
  refine ⟨_, .bind hwalk (.bind (.bind hwalk .pure) .pure), ?_⟩
  have hedge : (adj.reorder it).Edge = undirected fun u v => ∃ k, g.Arc k u v := by
    funext u v
    rw [eq_iff_iff, edge_reorder, undirected, ← exists_or]
    exact hrow u v
  have hsymm : undirected (adj.reorder it).Edge = undirected fun u v => ∃ k, g.Arc k u v := by
    rw [hedge]
    funext u v
    exact propext (or_iff_left_of_imp undirected_symm)
  have hbranching : Triangles.Branching (adj.reorder it) adj.outDegrees := fun v a b ha hb =>
    Triangles.branching_outDegrees adj v a b ((edge_reorder ..).1 ha) ((edge_reorder ..).1 hb)
  have hlone : ∀ t, ¬ Triangles.Lone (adj.reorder it).Edge t := by
    rintro t ⟨a, b, c, -, hac, -, -, ha, hb, -⟩
    rw [hedge] at ha hb
    exact hac ((hb a).1 (undirected_symm ((ha b).2 rfl)))
  rw [Triangles.count_eq_ncard_found, numTriangles]
  simp only [Triangles.found_iff hbranching, hlone, false_implies, and_true, hsymm]

end Readers

/-- **The static count of a store.** After any sequence of edges between ids that denote different
numbers it returns the number of triangles. The two numbers of relations are right exactly if there
are relations of both kinds and their files have less than `2 ^ 31` bytes. -/
theorem countLocalStreamingTriangles_iff (keySize : Nat)
    (rawType : RelationKind → Nat → Fin 100 → UInt8) (disk : Disk) (ops : List EdgeOp)
    (hacc : AllAccepted keySize ops) (hdist : (Log.ofOps ops).DistinctVertices)
    (hfits : Fits (Log.ofOps ops)) (o : KeyOrder) (it : IterationOrder) :
    ∃ s r, addEdges ops (openTruncate keySize rawType disk) = some ((), s) ∧
      (countLocalStreamingTriangles o it).run' s = some r ∧
      r.result = numTriangles (undirected fun u v => ∃ k, (Log.ofOps ops).Arc k u v) ∧
      ((r.localRelationCount = edgeCount ops .localRelation ∧
          r.centralRelationCount = edgeCount ops .centralRelation) ↔
        ∀ k, edgeCount ops k ≠ 0 ∧ (edgeCount ops k + 1) * k.blockSize < 2 ^ 31) := by
  obtain ⟨img, s, hrun, hs, h⟩ := run_addEdges rawType disk hacc hfits
  obtain ⟨r, hcount, hr⟩ := runs_countTriangles h hfits.nodes hdist o it
  have hresult : Runs img.Seen (countLocalStreamingTriangles o it) ⟨_, _, _⟩ img.Seen :=
    .bind hcount (.bind (Image.seen_ofOption hr)
      (.bind runs_staticRelationCount (.bind runs_staticRelationCount .pure)))
  refine ⟨s, _, hrun, hresult.run'_eq hs.seen, rfl, ?_⟩
  have hiff k := (h.tells k).unsignedCount_eq_iff (hfits.edges k)
  simp only [← length_eq_zero_iff.not, length_edges_ofOps] at hiff
  rw [hiff, hiff]
  exact ⟨fun h k => by cases k <;> [exact h.1; exact h.2], fun h => ⟨h _, h _⟩⟩

/-- Sets iterated as they are. -/
def asInserted : IterationOrder := ⟨fun _ l => l, fun _ _ => List.Perm.refl _⟩

theorem countLocalStreamingTriangles_tangle : ∃ s r,
    addEdges tangle (openTruncate 6 (fun _ _ _ => 0) Disk.empty) = some ((), s) ∧
      (countLocalStreamingTriangles ⟨id, fun _ => .refl _⟩ asInserted).run' s = some r ∧
      r.localRelationCount = edgeCount tangle .localRelation ∧
      r.centralRelationCount = edgeCount tangle .centralRelation := by
  obtain ⟨s, r, hs, hr, -, hcounts⟩ := countLocalStreamingTriangles_iff 6 (fun _ _ _ => 0) Disk.empty
    tangle tangle_accepted (distinctVertices (canonical_ids tangle_canonical)) tangle_fits
    ⟨id, fun _ => .refl _⟩ asInserted
  exact ⟨s, r, hs, hr, hcounts.2 fun k => by cases k <;> decide⟩

/-- With one local edge the number of central relations is -1. A path from 1 over 2 and 3 to 01 is
counted as a triangle. -/
theorem countLocalStreamingTriangles_oneTwo :
    (∃ x ∈ addEdges [oneTwo] (openTruncate 6 (fun _ _ _ => 0) Disk.empty),
      (countLocalStreamingTriangles ⟨id, fun _ => .refl _⟩ asInserted).run' x.2 =
        some ⟨1, -1, 0⟩) ∧
    ∃ x ∈ addEdges [oneTwo, (.localRelation, ascii "2", ascii "3"),
        (.localRelation, ascii "3", ascii "01")] (openTruncate 6 (fun _ _ _ => 0) Disk.empty),
      (countLocalStreamingTriangles ⟨id, fun _ => .refl _⟩ asInserted).run' x.2 =
        some ⟨3, -1, 1⟩ := by
  decide +kernel

/-! ## The incremental formula -/

section Formula

variable {g1 g2 : AdjacencyMap} {edges : List (Long × Long)}

theorem common_some (row s : VertexSet) : common row (some s) = some (row.elems.countP (· ∈ s)) := by
  unfold common
  split_ifs with hnil
  · rw [hnil, countP_nil]
  · rfl

theorem count_eq (hnodup : edges.Nodup) (h1 : ∀ e ∈ edges, e.1 ∈ g1) (h2 : ∀ e ∈ edges, e.2 ∈ g2) :
    count g1 g2 edges = some (corners (fun u v => (u, v) ∈ edges) g1.Edge g2.Edge) := by
  classical
  have hsum : count g1 g2 edges =
      some (edges.map fun e => (g1.row e.1).elems.countP (· ∈ g2.row e.2)).sum := by
    clear hnodup
    induction edges with
    | nil => rfl
    | cons e edges ih =>
      rw [forall_mem_cons] at h1 h2
      simp only [count, getElem?_eq_some_row h1.1, h2.1, ih h1.2 h2.2,
        getElem?_eq_some_row, common_some, map_cons, sum_cons]
      rfl
  rw [hsum, ← sum_toFinset _ hnodup, corners, ← (Equiv.prodAssoc Long Long Long).sum_comp,
    Fintype.sum_prod_type, ← Finset.univ_inter edges.toFinset, ← Finset.sum_ite_mem]
  refine congrArg some (Finset.sum_congr rfl fun e _ => ?_)
  simp only [mem_toFinset, Equiv.prodAssoc_apply]
  split_ifs with he
  · rw [countP_eq_length_filter, ← toFinset_card_of_nodup ((g1.row e.1).nodup.filter _),
      Finset.card_eq_sum_ones, ← Finset.univ_inter (toFinset _), ← Finset.sum_ite_mem]
    refine Finset.sum_congr rfl fun w _ => if_congr ?_ rfl rfl
    simp [Edge, VertexSet.mem_def, he]
  · simp [he]

/-- **The incremental formula.** Let `g1` be a graph without loops and `g2` part of it, and let the
list have each edge of `g2` once in both directions. Then `totalCount` is the number of triangles of
`g1` with an edge of `g2`, and neither division leaves a remainder. -/
theorem totalCount_eq (hs1 : ∀ u v, g1.Edge u v → g1.Edge v u) (hloop : ∀ v, ¬ g1.Edge v v)
    (hs2 : ∀ u v, g2.Edge u v → g2.Edge v u) (hsub : ∀ u v, g2.Edge u v → g1.Edge u v)
    (hnodup : edges.Nodup) (hedges : ∀ u v, (u, v) ∈ edges ↔ g2.Edge u v) :
    ∃ s1 s2 s3, count g1 g1 edges = some s1 ∧ count g1 g2 edges = some s2 ∧
      count g2 g2 edges = some s3 ∧ 3 ∣ s3 ∧ (2 : Int) ∣ (s1 : Int) - s2 + (s3 / 3 : Nat) ∧
      totalCount g1 g2 edges = some (numTrianglesWith g1.Edge g2.Edge : Int) := by
  have hnew : (fun u v => (u, v) ∈ edges) = g2.Edge := funext₂ fun u v => propext (hedges u v)
  have hmem : ∀ e ∈ edges, g2.Edge e.1 e.2 := fun e he => (hedges e.1 e.2).1 he
  have hfst2 : ∀ e ∈ edges, e.1 ∈ g2 := fun e he => mem_of_edge (hmem e he)
  have hsnd2 : ∀ e ∈ edges, e.2 ∈ g2 := fun e he =>
    mem_of_edge (hs2 _ _ (hmem e he))
  have hfst1 : ∀ e ∈ edges, e.1 ∈ g1 := fun e he =>
    mem_of_edge (hsub _ _ (hmem e he))
  have hsnd1 : ∀ e ∈ edges, e.2 ∈ g1 := fun e he =>
    mem_of_edge (hsub _ _ (hs2 _ _ (hmem e he)))
  have h1 := count_eq hnodup hfst1 hsnd1
  have h2 := count_eq hnodup hfst1 hsnd2
  have h3 := count_eq hnodup hfst2 hsnd2
  rw [hnew] at h1 h2 h3
  obtain ⟨hthree, htwo⟩ := corners_numTrianglesWith hs1 hs2 hsub hloop
  have htotal : (corners g2.Edge g1.Edge g1.Edge : Int) - corners g2.Edge g1.Edge g2.Edge +
      (corners g2.Edge g2.Edge g2.Edge / 3 : Nat) =
        2 * (numTrianglesWith g1.Edge g2.Edge : Int) := by omega
  refine ⟨_, _, _, h1, h2, h3, hthree, ⟨_, htotal⟩, ?_⟩
  simp only [totalCount, h1, h2, h3, Option.bind_eq_bind, Option.bind_some, htotal]
  exact congrArg some (Int.mul_tdiv_cancel_left _ (by decide))

end Formula

def oneTriangle : AdjacencyMap := [(1, 2), (2, 3), (1, 3)].foldl link ∅

/-- One of its edges. -/
def oneEdge : AdjacencyMap := [(1, 2)].foldl link ∅

theorem totalCount_oneTriangle : totalCount oneTriangle oneEdge [(1, 2), (2, 1)] =
    some (numTrianglesWith oneTriangle.Edge oneEdge.Edge : Int) := by
  have hedge : ∀ (es : List (Long × Long)) u v,
      (es.foldl link ∅).Edge u v ↔ (u, v) ∈ es ∨ (v, u) ∈ es := by
    intro es u v
    rw [edge_foldl_link, or_iff_right]
    exact fun h => Std.TreeMap.not_mem_emptyc (mem_of_edge h)
  have hsymm : ∀ (es : List (Long × Long)) u v, (es.foldl link ∅).Edge u v →
      (es.foldl link ∅).Edge v u := fun es u v h =>
    (hedge es v u).2 ((hedge es u v).1 h).symm
  obtain ⟨s1, s2, s3, -, -, -, -, -, h⟩ := totalCount_eq (hsymm [(1, 2), (2, 3), (1, 3)])
    (fun v => by rw [hedge]; simp; grind) (hsymm [(1, 2)])
    (fun u v h => (hedge _ u v).2 (((hedge _ u v).1 h).imp (by simp_all) (by simp_all)))
    (by decide : [((1 : Long), (2 : Long)), (2, 1)].Nodup) fun u v => by
      rw [hedge]
      simp [and_comm]
  exact h

end JasmineGraph.StreamingTriangles
