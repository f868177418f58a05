import JasmineGraph.Bytes.Text
import JasmineGraph.Machine

/-!
# A partition's bookkeeping: `Partition`

What the stream partitioners remember of one partition: its local edges as a map from a vertex to
its neighbours (`edgeList`), and for every partition the edges cut towards it (`edgeCuts`). Ids are
the strings of the input.

A `map<string, set<string>>` is a `SetMap`: its keys, and the pairs of a key and an element of its
set. The methods take `partitionMutex` for their whole body, so each is one atomic step.
-/

namespace JasmineGraph.Partitioner

open Bytes Finset Function

/-- A vertex id, as the input spells it. -/
abbrev VertexId := List UInt8

/-- `std::stoi(id) % numberOfPartitions`; `none` when it throws or is no index. -/
def homeOf (numberOfPartitions : Nat) (vertex : VertexId) : Option (Fin numberOfPartitions) := do
  let number ← stoi vertex
  let index := number.tmod numberOfPartitions
  if h : 0 ≤ index ∧ index.toNat < numberOfPartitions then some ⟨index.toNat, h.2⟩ else none

structure SetMap where
  keys : Finset VertexId
  pairs : Finset (VertexId × VertexId)
  keys_of_mem : ∀ p ∈ pairs, p.1 ∈ keys

namespace SetMap

def empty : SetMap := ⟨∅, ∅, by simp⟩

def insertAt (m : SetMap) (k v : VertexId) : SetMap where
  keys := insert k m.keys
  pairs := insert (k, v) m.pairs
  keys_of_mem p hp := by
    rcases Finset.mem_insert.1 hp with rfl | hp
    · exact mem_insert_self _ _
    · exact mem_insert_of_mem (m.keys_of_mem p hp)

def insertKey (m : SetMap) (k : VertexId) : SetMap where
  keys := insert k m.keys
  pairs := m.pairs
  keys_of_mem p hp := mem_insert_of_mem (m.keys_of_mem p hp)

variable (m : SetMap)

@[simp] theorem keys_insertAt (k v : VertexId) : (m.insertAt k v).keys = insert k m.keys :=
  rfl

@[simp] theorem pairs_insertAt (k v : VertexId) :
    (m.insertAt k v).pairs = insert (k, v) m.pairs := rfl

@[simp] theorem keys_insertKey (k : VertexId) : (m.insertKey k).keys = insert k m.keys := rfl

@[simp] theorem pairs_insertKey (k : VertexId) : (m.insertKey k).pairs = m.pairs := rfl

end SetMap

/-- The state of a `Partition`. -/
structure Partition where
  numberOfPartitions : Nat
  edgeList : SetMap
  edgeCuts : Nat → SetMap
  vertexCount : Nat

namespace Partition

/-- The constructor. -/
def new (numberOfPartitions : Nat) : Partition :=
  ⟨numberOfPartitions, SetMap.empty, fun _ => SetMap.empty, 0⟩

def isExistInEdgeCuts (P : Partition) (vertex : VertexId) : Bool :=
  (List.range P.numberOfPartitions).any fun i => vertex ∈ (P.edgeCuts i).keys

def isExist (P : Partition) (vertex : VertexId) : Bool :=
  P.isExistInEdgeCuts vertex || vertex ∈ P.edgeList.keys

/-- The count of vertices after `vertex` has become a key of `edgeList`. -/
def countNew (P : Partition) (vertex : VertexId) : Nat :=
  if vertex ∈ P.edgeList.keys ∨ P.isExistInEdgeCuts vertex then P.vertexCount
  else P.vertexCount + 1

def addEdge (P : Partition) (edge : VertexId × VertexId) (isDirected : Bool) : Partition :=
  let P₁ := { P with
    edgeList := P.edgeList.insertAt edge.1 edge.2
    vertexCount := P.countNew edge.1 }
  if isDirected then
    if edge.2 ∉ P₁.edgeList.keys ∧ ¬ P₁.isExistInEdgeCuts edge.2 then
      { P₁ with
        edgeList := P₁.edgeList.insertKey edge.2
        vertexCount := P₁.vertexCount + 1 }
    else P₁
  else
    { P₁ with
      edgeList := P₁.edgeList.insertAt edge.2 edge.1
      vertexCount := P₁.countNew edge.2 }

def addToEdgeCuts (P : Partition) (resident foreign : VertexId) (partitionId : Nat) : Partition :=
  if partitionId < P.numberOfPartitions then
    { P with
      edgeCuts :=
        Function.update P.edgeCuts partitionId ((P.edgeCuts partitionId).insertAt resident foreign)
      vertexCount := if P.isExist resident then P.vertexCount else P.vertexCount + 1 }
  else P

def incrementVertexCount (P : Partition) : Partition :=
  { P with vertexCount := P.vertexCount + 1 }

def addToEdgeList (P : Partition) (vertex : VertexId) : Partition :=
  { P with edgeList := P.edgeList.insertKey vertex }

/-- The distinct texts `source,target`. -/
def uniqueEdges (P : Partition) : Finset VertexId := P.edgeList.pairs.image fun p => p.1 ++ 44 :: p.2

def getEdgesCount (P : Partition) (isDirected : Bool) : Nat :=
  if isDirected then P.uniqueEdges.card else P.uniqueEdges.card / 2

def getVertextCount (P : Partition) : Nat :=
  P.edgeList.keys.card +
    ∑ i ∈ Finset.range P.numberOfPartitions, ((P.edgeCuts i).keys \ P.edgeList.keys).card

def getVertextCountQuick (P : Partition) : Nat := P.vertexCount

def getNeighbors (P : Partition) (vertex : VertexId) : Finset VertexId :=
  (P.edgeList.pairs.filter fun p => p.1 = vertex).image Prod.snd

def edgeCutsCount (P : Partition) : Nat :=
  ∑ i ∈ Finset.range P.numberOfPartitions, (P.edgeCuts i).pairs.card

/-- The end of `consumeEdgeCuts`' body: a vertex of another partition's cut edge is made known. -/
def register (P : Partition) (vertex : VertexId) : Partition :=
  if P.isExist vertex then P else P.incrementVertexCount.addToEdgeList vertex

/-! ## One method call -/

section Calls

variable {P : Partition} {edge : VertexId × VertexId} {isDirected : Bool}
  {resident foreign v w : VertexId} {i : Nat}

theorem mem_getNeighbors : w ∈ P.getNeighbors v ↔ (v, w) ∈ P.edgeList.pairs := by
  simp [getNeighbors]

/-- The vertices a partition knows of. -/
def known (P : Partition) : Finset VertexId :=
  P.edgeList.keys ∪ (Finset.range P.numberOfPartitions).biUnion fun i => (P.edgeCuts i).keys

theorem mem_known : v ∈ P.known ↔ v ∈ P.edgeList.keys ∨ P.isExistInEdgeCuts v = true := by
  simp [known, isExistInEdgeCuts]

theorem isExist_iff_mem_known : P.isExist v = true ↔ v ∈ P.known := by
  rw [mem_known, isExist, Bool.or_eq_true, decide_eq_true_eq, or_comm]

theorem countNew_of_mem (h : v ∈ P.known) : P.countNew v = P.vertexCount :=
  if_pos (mem_known.1 h)

theorem countNew_of_notMem (h : v ∉ P.known) : P.countNew v = P.vertexCount + 1 :=
  if_neg fun hor => h (mem_known.2 hor)

def setEdgeList (P : Partition) (m : SetMap) (key : VertexId) : Partition :=
  { P with edgeList := m, vertexCount := P.countNew key }

theorem addEdge_directed {P₁ : Partition}
    (hP₁ : P₁ = P.setEdgeList (P.edgeList.insertAt edge.1 edge.2) edge.1) :
    P.addEdge edge true =
      if edge.2 ∈ P₁.known then P₁ else P₁.setEdgeList (P₁.edgeList.insertKey edge.2) edge.2 := by
  have hadd : P.addEdge edge true =
      if edge.2 ∉ P₁.edgeList.keys ∧ ¬ P₁.isExistInEdgeCuts edge.2 then
        { P₁ with
          edgeList := P₁.edgeList.insertKey edge.2
          vertexCount := P₁.vertexCount + 1 }
      else P₁ := by
    rw [hP₁]
    rfl
  rw [hadd]
  by_cases hmem : edge.2 ∈ P₁.known
  · rw [if_pos hmem, if_neg (by rwa [← not_or, not_not, ← mem_known])]
  · rw [if_neg hmem, if_pos (by rwa [← not_or, ← mem_known]), setEdgeList, countNew_of_notMem hmem]

/-- What holds of every partition with the same cuts and a map of the given edges. -/
theorem addEdge_cases (motive : Partition → Prop) (h : ∀ m n, m.pairs = (if isDirected then
      insert edge P.edgeList.pairs else insert edge.swap (insert edge P.edgeList.pairs)) →
      motive { P with edgeList := m, vertexCount := n }) : motive (P.addEdge edge isDirected) := by
  cases isDirected with
  | false => exact h _ _ rfl
  | true =>
    rw [addEdge_directed rfl]
    split_ifs
    · exact h _ _ rfl
    · exact h _ _ rfl

@[simp] theorem edgeCuts_addEdge : (P.addEdge edge isDirected).edgeCuts = P.edgeCuts :=
  addEdge_cases (·.edgeCuts = P.edgeCuts) fun _ _ _ => rfl

@[simp] theorem numberOfPartitions_addEdge :
    (P.addEdge edge isDirected).numberOfPartitions = P.numberOfPartitions :=
  addEdge_cases (·.numberOfPartitions = P.numberOfPartitions) fun _ _ _ => rfl

@[simp] theorem edgeList_addToEdgeCuts :
    (P.addToEdgeCuts resident foreign i).edgeList = P.edgeList := by
  unfold addToEdgeCuts
  split_ifs <;> rfl

@[simp] theorem numberOfPartitions_addToEdgeCuts :
    (P.addToEdgeCuts resident foreign i).numberOfPartitions = P.numberOfPartitions := by
  unfold addToEdgeCuts
  split_ifs <;> rfl

theorem edgeCuts_addToEdgeCuts (h : i < P.numberOfPartitions) :
    (P.addToEdgeCuts resident foreign i).edgeCuts =
      Function.update P.edgeCuts i ((P.edgeCuts i).insertAt resident foreign) := by
  rw [addToEdgeCuts, if_pos h]

theorem mem_pairs_addEdge {e : VertexId × VertexId} :
    e ∈ (P.addEdge edge isDirected).edgeList.pairs ↔
      e = edge ∨ (isDirected = false ∧ e = edge.swap) ∨ e ∈ P.edgeList.pairs := by
  refine addEdge_cases (e ∈ ·.edgeList.pairs ↔ _) fun m _ hm => ?_
  rw [hm]
  cases isDirected with
  | false => simp [or_left_comm]
  | true => simp

theorem mem_cuts_addToEdgeCuts (h : i < P.numberOfPartitions) {j : Nat} {e : VertexId × VertexId} :
    e ∈ ((P.addToEdgeCuts resident foreign i).edgeCuts j).pairs ↔
      (j = i ∧ e = (resident, foreign)) ∨ e ∈ (P.edgeCuts j).pairs := by
  rw [edgeCuts_addToEdgeCuts h, update_apply]
  split_ifs with hj
  · subst hj
    simp
  · simp [hj]

theorem card_uniqueEdges (h : ∀ e ∈ P.edgeList.pairs, (44 : UInt8) ∉ e.1 ∧ (44 : UInt8) ∉ e.2) :
    P.uniqueEdges.card = P.edgeList.pairs.card := by
  refine card_image_of_injOn fun a ha b hb hab => ?_
  obtain ⟨h1, -, h2⟩ := (List.append_cons_inj_of_notMem (h a ha).1 (h a ha).2).1 hab
  exact Prod.ext h1 h2

def Counted (P : Partition) : Prop := P.vertexCount = P.known.card

theorem counted_new (n : Nat) : Counted (new n) := by
  have hknown : (new n).known = ∅ := by
    ext v
    simp [known, new, SetMap.empty]
  rw [Counted, hknown]
  rfl

/-- A key is added to `edgeList`, with what else the map gets, and counted if it is new. -/
theorem Counted.setEdgeList (h : Counted P) {m : SetMap} {k : VertexId}
    (hm : m.keys = insert k P.edgeList.keys) :
    (P.setEdgeList m k).known = insert k P.known ∧ Counted (P.setEdgeList m k) := by
  have hknown : (P.setEdgeList m k).known = insert k P.known := by
    simp only [known, Partition.setEdgeList, hm, insert_union]
  refine ⟨hknown, ?_⟩
  unfold Counted at h ⊢
  rw [hknown, Partition.setEdgeList]
  by_cases hk : k ∈ P.known
  · rw [countNew_of_mem hk, insert_eq_of_mem hk, h]
  · rw [countNew_of_notMem hk, card_insert_of_notMem hk, h]

/-- **`addEdge` counts the vertices it makes known.** -/
theorem Counted.addEdge (h : Counted P) (edge : VertexId × VertexId) (isDirected : Bool) :
    (P.addEdge edge isDirected).known = insert edge.2 (insert edge.1 P.known) ∧
      Counted (P.addEdge edge isDirected) := by
  obtain ⟨hknown, hcounted⟩ := h.setEdgeList (SetMap.keys_insertAt P.edgeList edge.1 edge.2)
  rw [← hknown]
  cases isDirected with
  | false => exact hcounted.setEdgeList (SetMap.keys_insertAt _ edge.2 edge.1)
  | true =>
    rw [addEdge_directed rfl]
    split_ifs with hmem
    · exact ⟨(insert_eq_of_mem hmem).symm, hcounted⟩
    · exact hcounted.setEdgeList (SetMap.keys_insertKey _ edge.2)

theorem Counted.addToEdgeCuts (h : Counted P) (resident foreign : VertexId)
    (hi : i < P.numberOfPartitions) :
    (P.addToEdgeCuts resident foreign i).known = insert resident P.known ∧
      Counted (P.addToEdgeCuts resident foreign i) := by
  have hknown : (P.addToEdgeCuts resident foreign i).known = insert resident P.known := by
    ext v
    rw [known, edgeList_addToEdgeCuts, numberOfPartitions_addToEdgeCuts, edgeCuts_addToEdgeCuts hi]
    simp only [mem_union, mem_biUnion, mem_range, Finset.mem_insert, known]
    constructor
    · rintro (hv | ⟨j, hj, hv⟩)
      · exact .inr (.inl hv)
      · by_cases hij : j = i
        · subst hij
          rw [update_self, SetMap.keys_insertAt, Finset.mem_insert] at hv
          exact hv.imp_right fun hv => .inr ⟨j, hj, hv⟩
        · rw [update_of_ne hij] at hv
          exact .inr (.inr ⟨j, hj, hv⟩)
    · rintro (rfl | hv | ⟨j, hj, hv⟩)
      · exact .inr ⟨i, hi, by simp⟩
      · exact .inl hv
      · refine .inr ⟨j, hj, ?_⟩
        by_cases hij : j = i
        · subst hij
          simp [hv]
        · rwa [update_of_ne hij]
  refine ⟨hknown, ?_⟩
  unfold Counted at h ⊢
  rw [hknown, Partition.addToEdgeCuts, if_pos hi]
  simp only [isExist_iff_mem_known]
  split_ifs with hv
  · rw [insert_eq_of_mem hv, h]
  · rw [card_insert_of_notMem hv, h]

end Calls

/-! ## What a partition has recorded -/

/-- The pairs `edgeList` holds for a set of local edges. -/
def stored (isDirected : Bool) (edges : Finset (VertexId × VertexId)) : Finset (VertexId × VertexId) :=
  if isDirected then edges else edges ∪ edges.image Prod.swap

/-- The partition has recorded the local edges `locals`, the cut edges `cuts`, all filed under
index `p`, and the vertices `registered`. -/
structure Records (isDirected : Bool) (p : Nat) (locals cuts : Finset (VertexId × VertexId))
    (registered : Finset VertexId) (P : Partition) : Prop where
  index : p < P.numberOfPartitions
  pairs : P.edgeList.pairs = stored isDirected locals
  cutPairs : (P.edgeCuts p).pairs = cuts
  others : ∀ i, i ≠ p → P.edgeCuts i = SetMap.empty
  vertices : P.edgeList.keys ∪ (P.edgeCuts p).keys =
    locals.image Prod.fst ∪ locals.image Prod.snd ∪ cuts.image Prod.fst ∪ registered

variable {isDirected : Bool} {p n : Nat} {locals cuts : Finset (VertexId × VertexId)} {registered : Finset VertexId}
  {P : Partition}

theorem records_new (hp : p < n) : Records isDirected p ∅ ∅ ∅ (new n) where
  index := hp
  pairs := by cases isDirected <;> rfl
  cutPairs := rfl
  others _ _ := rfl
  vertices := rfl

section

variable (h : P.Records isDirected p locals cuts registered)

include h

theorem Records.isExistInEdgeCuts_iff
    (v : VertexId) : P.isExistInEdgeCuts v = true ↔ v ∈ (P.edgeCuts p).keys := by
  simp only [isExistInEdgeCuts, List.any_eq_true, List.mem_range, decide_eq_true_eq]
  constructor
  · rintro ⟨i, -, hi⟩
    by_cases hip : i = p
    · exact hip ▸ hi
    · rw [h.others i hip] at hi
      exact absurd hi (Finset.notMem_empty v)
  · exact fun hv => ⟨p, h.index, hv⟩

theorem Records.isExist_iff (v : VertexId) :
    P.isExist v = true ↔ v ∈ P.edgeList.keys ∪ (P.edgeCuts p).keys := by
  rw [isExist, Bool.or_eq_true, h.isExistInEdgeCuts_iff, decide_eq_true_eq, mem_union, or_comm]

theorem Records.addEdge (edge : VertexId × VertexId) :
    (P.addEdge edge isDirected).Records isDirected p (insert edge locals) cuts registered := by
  have hv := h.vertices
  cases isDirected with
  | false =>
    refine ⟨h.index, ?_, h.cutPairs, h.others, ?_⟩
    · simp [Partition.addEdge, h.pairs, stored, image_insert, insert_comm, Prod.swap]
    · simp only [Partition.addEdge, Bool.false_eq_true, if_false, SetMap.keys_insertAt,
        insert_union, image_insert, union_insert, hv]
  | true =>
    -- the second vertex becomes a key unless it is one already or is known from a cut
    have hcuts : ({ P with
        edgeList := P.edgeList.insertAt edge.1 edge.2
        vertexCount := P.countNew edge.1 } : Partition).isExistInEdgeCuts edge.2 =
          P.isExistInEdgeCuts edge.2 := rfl
    simp only [Partition.addEdge, if_true, hcuts, h.isExistInEdgeCuts_iff]
    split_ifs with hnew
    · refine ⟨h.index, ?_, h.cutPairs, h.others, ?_⟩
      · simp [h.pairs, stored]
      · simp only [SetMap.keys_insertKey, SetMap.keys_insertAt, insert_union,
          image_insert, union_insert, hv]
    · refine ⟨h.index, ?_, h.cutPairs, h.others, ?_⟩
      · simp [h.pairs, stored]
      · have hknown : edge.2 ∈ insert edge.1 (P.edgeList.keys ∪ (P.edgeCuts p).keys) := by
          rw [not_and_or, not_not, not_not, SetMap.keys_insertAt] at hnew
          rw [← insert_union, mem_union]
          exact hnew
        simp only [SetMap.keys_insertAt, insert_union, image_insert, union_insert]
        rw [← hv, insert_eq_of_mem hknown]

theorem Records.addToEdgeCuts (resident foreign : VertexId) :
    (P.addToEdgeCuts resident foreign p).Records isDirected p locals
      (insert (resident, foreign) cuts) registered := by
  rw [Partition.addToEdgeCuts, if_pos h.index]
  refine ⟨h.index, h.pairs, ?_, fun i hi => ?_, ?_⟩
  · simp [h.cutPairs]
  · simp [hi, h.others i hi]
  · simp only [update_self, SetMap.keys_insertAt, image_insert,
      union_insert, insert_union, h.vertices]

theorem Records.register (v : VertexId) :
    (P.register v).Records isDirected p locals cuts (insert v registered) := by
  unfold Partition.register
  split_ifs with hv
  · refine ⟨h.index, h.pairs, h.cutPairs, h.others, ?_⟩
    rw [h.isExist_iff, h.vertices] at hv
    rw [h.vertices, union_insert, insert_eq_of_mem hv]
  · refine ⟨h.index, h.pairs, h.cutPairs, h.others, ?_⟩
    simp only [addToEdgeList, incrementVertexCount, SetMap.keys_insertKey, insert_union,
      h.vertices, union_insert]

/-- A vertex is counted once, whether it occurs in local edges, in cut edges or in both. -/
theorem Records.getVertextCount : P.getVertextCount =
      (locals.image Prod.fst ∪ locals.image Prod.snd ∪ cuts.image Prod.fst ∪ registered).card := by
  rw [Partition.getVertextCount, sum_eq_single_of_mem p (mem_range.2 h.index),
    ← h.vertices, ← union_sdiff_self_eq_union,
    card_union_of_disjoint disjoint_sdiff]
  intro i _ hi
  simp [h.others i hi, SetMap.empty]

theorem Records.edgeCutsCount : P.edgeCutsCount = cuts.card := by
  rw [Partition.edgeCutsCount, sum_eq_single_of_mem p (mem_range.2 h.index), h.cutPairs]
  intro i _ hi
  rw [h.others i hi]
  rfl

theorem Records.getEdgesCount (hcomma : ∀ e ∈ locals, 44 ∉ e.1 ∧ 44 ∉ e.2) :
    P.getEdgesCount isDirected =
      if isDirected then locals.card else (stored false locals).card / 2 := by
  have hpairs : ∀ e ∈ P.edgeList.pairs, (44 : UInt8) ∉ e.1 ∧ (44 : UInt8) ∉ e.2 := by
    intro e he
    rw [h.pairs, stored] at he
    split_ifs at he
    · exact hcomma e he
    · rcases mem_union.1 he with he | he
      · exact hcomma e he
      · obtain ⟨e', he', rfl⟩ := mem_image.1 he
        exact (hcomma e' he').symm
  rw [Partition.getEdgesCount, card_uniqueEdges hpairs, h.pairs]
  cases isDirected <;> simp [stored]

end

/-! ## Runs of calls -/

/-- The calls that fill a partition. -/
inductive Call
  | addEdge (edge : VertexId × VertexId) (isDirected : Bool)
  | addToEdgeCuts (resident foreign : VertexId) (partitionId : Nat)

def Call.run (P : Partition) : Call → Partition
  | addEdge edge isDirected => P.addEdge edge isDirected
  | addToEdgeCuts resident foreign partitionId => P.addToEdgeCuts resident foreign partitionId

theorem counted_foldl (calls : List Call) (h : Counted P) : Counted (calls.foldl Call.run P) := by
  induction calls generalizing P with
  | nil => exact h
  | cons call calls ih =>
    refine ih ?_
    cases call with
    | addEdge edge isDirected => exact (h.addEdge edge isDirected).2
    | addToEdgeCuts resident foreign i =>
      by_cases hi : i < P.numberOfPartitions
      · exact (h.addToEdgeCuts resident foreign hi).2
      · rwa [Call.run, Partition.addToEdgeCuts, if_neg hi]

/-- No vertex without local edges is cut from two partitions. -/
def CutOnce (P : Partition) : Prop :=
  ∀ v ∉ P.edgeList.keys, ∀ i < P.numberOfPartitions, ∀ j < P.numberOfPartitions,
    v ∈ (P.edgeCuts i).keys → v ∈ (P.edgeCuts j).keys → i = j

theorem getVertextCount_eq_iff : P.getVertextCount = P.known.card ↔ P.CutOnce := by
  let counted := (range P.numberOfPartitions).sigma fun i => (P.edgeCuts i).keys \ P.edgeList.keys
  have hknown : P.known = P.edgeList.keys ∪ counted.image Sigma.snd := by
    ext v
    by_cases hv : v ∈ P.edgeList.keys <;> simp [known, counted, hv]
  have hdisjoint : Disjoint P.edgeList.keys (counted.image Sigma.snd) := by
    rw [disjoint_right]
    simp [counted]
  rw [hknown, card_union_of_disjoint hdisjoint, getVertextCount, ← card_sigma,
    Nat.add_left_cancel_iff, eq_comm, card_image_iff]
  constructor
  · intro h v hv i hi j hj hvi hvj
    have := @h ⟨i, v⟩ (by simp [counted, *]) ⟨j, v⟩ (by simp [counted, *]) rfl
    exact congrArg Sigma.fst this
  · rintro h ⟨i, v⟩ hi ⟨j, w⟩ hj (rfl : v = w)
    simp only [counted, coe_sigma, Set.mem_sigma_iff, mem_coe, mem_range, mem_sdiff] at hi hj
    rw [h v hi.2.2 i hi.1 j hj.1 hi.2.1 hj.2.1]

/-- **The two counts of the vertices.** Whatever the calls, the counter has been incremented once for
every vertex. It is an `atomic<int>`, so what is read is right below `2 ^ 31` vertices. The recount
counts a vertex without local edges once for each partition it is cut from. -/
theorem vertexCounts_iff (n : Nat) (calls : List Call) :
    let P := calls.foldl Call.run (new n)
    P.getVertextCountQuick = P.known.card ∧
      (toInt32 P.getVertextCountQuick = P.known.card ↔ P.known.card < 2 ^ 31) ∧
      (P.getVertextCount = P.known.card ↔ P.CutOnce) := by
  intro P
  have hcounted : P.getVertextCountQuick = P.known.card := counted_foldl calls (counted_new n)
  refine ⟨hcounted, ?_, getVertextCount_eq_iff⟩
  rw [hcounted, toInt32]
  omega

/-- A vertex that is cut from two partitions. -/
theorem vertex_counted_twice :
    let P := [Call.addToEdgeCuts [1] [2] 1, .addToEdgeCuts [1] [3] 2].foldl Call.run (new 3)
    P.getVertextCount = 2 ∧ P.known = {[1]} := by
  decide

end Partition

end JasmineGraph.Partitioner
