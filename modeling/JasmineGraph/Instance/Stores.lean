import JasmineGraph.AdjacencyMap
import JasmineGraph.Bytes.Lines

/-!
# The stores of a cut graph

A static graph is cut into parts. `MetisPartitioner::populatePartMaps` gives every part two stores:
the local store holds the edges that start and end in the part, the central store those that start
in the part and end in another. Both map a vertex to its end vertices and have no vertex without
one. The worker reads them back as `map<long, unordered_set<long>>`
(`JasmineGraphHashMapLocalStore`, `JasmineGraphHashMapCentralStore`), each set in an order of its
own, so `Stores` says what the maps hold and leaves the order open. `CutGraph.stores` are such maps.

`JasmineGraphInstanceService` keeps the stores it has loaded in two maps, here `Maps`: a store that
is in the data folder is loaded into its map (`loadLocalStore`, `loadInstanceCentralStore`), and
`operator[]` then reads the map, which gives an empty store where there is no entry.

A worker list names its workers as `host:port:partition`; `workerPartitionID` is the third field.
-/

namespace JasmineGraph.Instance

open Bytes AdjacencyMap List

def IsInt (v : Long) : Prop := -2 ^ 31 ≤ v.toInt ∧ v.toInt < 2 ^ 31

/-- A directed graph without loops, and the part of each vertex. Ids are of the type `int`. -/
structure CutGraph where
  edges : List (Long × Long)
  loopless : ∀ e ∈ edges, e.1 ≠ e.2
  ids : ∀ e ∈ edges, IsInt e.1 ∧ IsInt e.2
  part : Long → Nat

namespace CutGraph

variable (G : CutGraph)

def successors (v : Long) : Finset Long :=
  ((G.edges.filter fun e => e.1 = v).map Prod.snd).toFinset

def predecessors (v : Long) : Finset Long :=
  ((G.edges.filter fun e => e.2 = v).map Prod.fst).toFinset

@[simp] theorem mem_successors {v w : Long} : w ∈ G.successors v ↔ (v, w) ∈ G.edges := by
  simp [successors]

@[simp] theorem mem_predecessors {v w : Long} : w ∈ G.predecessors v ↔ (w, v) ∈ G.edges := by
  simp [predecessors]

end CutGraph

/-- The stores of all parts. -/
structure Stores (G : CutGraph) where
  localStore : Nat → AdjacencyMap
  centralStore : Nat → AdjacencyMap
  local_edge : ∀ p v w, (localStore p).Edge v w ↔ (v, w) ∈ G.edges ∧ G.part v = p ∧ G.part w = p
  local_keys : ∀ p v, v ∈ localStore p → ∃ w, (localStore p).Edge v w
  central_edge : ∀ p v w, (centralStore p).Edge v w ↔ (v, w) ∈ G.edges ∧ G.part v = p ∧ G.part w ≠ p
  central_keys : ∀ p v, v ∈ centralStore p → ∃ w, (centralStore p).Edge v w

theorem exists_edge_of_mem_foldl_add {v : Long} : ∀ (es : List (Long × Long)) (g : AdjacencyMap),
    (∀ u, u ∈ g → ∃ w, g.Edge u w) → v ∈ es.foldl add g → ∃ w, (es.foldl add g).Edge v w
  | [], _, hg, hv => hg v hv
  | e :: es, g, hg, hv => by
    refine exists_edge_of_mem_foldl_add es (g.add e) (fun u hu => ?_) hv
    by_cases hue : u = e.1
    · exact ⟨e.2, (edge_add g e u e.2).2 (.inr (by rw [hue]))⟩
    · have hmem : u ∈ g := by
        rw [add, Std.TreeMap.mem_insert, Std.compare_eq_iff_eq] at hu
        exact hu.resolve_left fun heq => hue heq.symm
      obtain ⟨w, hw⟩ := hg u hmem
      exact ⟨w, (edge_add g e u w).2 (.inl hw)⟩

theorem edge_foldl_add_empty (es : List (Long × Long)) (v w : Long) :
    (es.foldl add ∅).Edge v w ↔ (v, w) ∈ es := by
  rw [edge_foldl_add]
  exact or_iff_right fun h => absurd (mem_of_edge h) (by simp)

/-- Stores filled edge by edge. -/
def CutGraph.stores (G : CutGraph) : Stores G where
  localStore p :=
    (G.edges.filter fun e => G.part e.1 = p ∧ G.part e.2 = p).foldl add ∅
  centralStore p :=
    (G.edges.filter fun e => G.part e.1 = p ∧ G.part e.2 ≠ p).foldl add ∅
  local_edge p v w := by rw [edge_foldl_add_empty, mem_filter, decide_eq_true_eq]
  local_keys p v := exists_edge_of_mem_foldl_add _ _ (by simp)
  central_edge p v w := by rw [edge_foldl_add_empty, mem_filter, decide_eq_true_eq]
  central_keys p v := exists_edge_of_mem_foldl_add _ _ (by simp)

/-! ## The rows of the stores -/

theorem size_eq_card (s : VertexSet) : s.size = s.elems.toFinset.card :=
  (toFinset_card_of_nodup s.nodup).symm

namespace Stores

variable {G : CutGraph} (S : Stores G) {p : Nat} {v : Long}

theorem mem_localStore : v ∈ S.localStore p ↔ ∃ w, (v, w) ∈ G.edges ∧ G.part v = p ∧ G.part w = p := by
  simp only [← S.local_edge]
  exact ⟨S.local_keys p v, fun ⟨_, hw⟩ => mem_of_edge hw⟩

/-- **A vertex's successors are in its two rows**, each in one. -/
theorem size_rows (hv : G.part v = p) :
    ((S.localStore p).row v).size + ((S.centralStore p).row v).size = (G.successors v).card := by
  have hlocal : ∀ w, w ∈ ((S.localStore p).row v).elems.toFinset ↔
      (v, w) ∈ G.edges ∧ G.part v = p ∧ G.part w = p := fun w => by
    rw [mem_toFinset]
    exact S.local_edge p v w
  have hcentral : ∀ w, w ∈ ((S.centralStore p).row v).elems.toFinset ↔
      (v, w) ∈ G.edges ∧ G.part v = p ∧ G.part w ≠ p := fun w => by
    rw [mem_toFinset]
    exact S.central_edge p v w
  rw [size_eq_card, size_eq_card, ← Finset.card_union_of_disjoint]
  · congr 1
    ext w
    rw [Finset.mem_union, hlocal, hcentral, CutGraph.mem_successors]
    tauto
  · refine Finset.disjoint_left.2 fun w hw hw' => ?_
    exact ((hcentral w).1 hw').2.2 ((hlocal w).1 hw).2.2

end Stores

/-! ## The data folder and the loaded stores -/

/-- The store files of a graph on a worker, by the partition id in their names. -/
structure DataFolder where
  localStore : List UInt8 → Option AdjacencyMap
  centralStore : List UInt8 → Option AdjacencyMap

/-- `graphDBMapLocalStores` and `graphDBMapCentralStores`, at the keys of the graph. -/
structure Maps where
  localStores : List UInt8 → AdjacencyMap
  centralStores : List UInt8 → AdjacencyMap

/-- Both maps after `clear()`. -/
def Maps.clear : Maps := ⟨fun _ => ∅, fun _ => ∅⟩

def DataFolder.loadLocalStore (f : DataFolder) (partitionID : List UInt8) (maps : Maps) : Maps :=
  match f.localStore partitionID with
  | none => maps
  | some store => { maps with localStores := Function.update maps.localStores partitionID store }

def DataFolder.loadInstanceCentralStore (f : DataFolder) (partitionID : List UInt8) (maps : Maps) :
    Maps :=
  match f.centralStore partitionID with
  | none => maps
  | some store => { maps with centralStores := Function.update maps.centralStores partitionID store }

theorem DataFolder.localStores_loadLocalStore {f : DataFolder} {partitionID : List UInt8}
    {store : AdjacencyMap} (h : f.localStore partitionID = some store) (maps : Maps) :
    (f.loadLocalStore partitionID maps).localStores partitionID = store := by
  simp [loadLocalStore, h]

theorem DataFolder.localStores_loadInstanceCentralStore (f : DataFolder)
    (partitionID : List UInt8) (maps : Maps) :
    (f.loadInstanceCentralStore partitionID maps).localStores = maps.localStores := by
  unfold loadInstanceCentralStore
  split <;> rfl

theorem DataFolder.centralStores_loadInstanceCentralStore {f : DataFolder}
    {partitionID : List UInt8} {store : AdjacencyMap} (h : f.centralStore partitionID = some store)
    (maps : Maps) :
    (f.loadInstanceCentralStore partitionID maps).centralStores partitionID = store := by
  simp [loadInstanceCentralStore, h]

/-- `workerSocketPair[2]`; a worker without a third field is read out of bounds. -/
def workerPartitionID (worker : List UInt8) : Option (List UInt8) := (split 58 worker)[2]?

/-! ## Tables of numbers -/

/-- `to_string(vertex) << "\t" << to_string(degree)`. -/
def degreeLine (v : Long) (degree : Nat) : List UInt8 := decimalInt v.toInt ++ 9 :: decimal degree

def degreeText (m : Std.TreeMap Long Nat) : List UInt8 :=
  m.toList.flatMap fun e => degreeLine e.1 e.2 ++ [10]

theorem newline_notMem_degreeLine (v : Long) (degree : Nat) : 10 ∉ degreeLine v degree := by
  rw [degreeLine, mem_append, mem_cons, not_or, not_or]
  exact ⟨notMem_decimalInt rfl (by decide) _, by decide, notMem_decimal rfl _⟩

theorem split_flatMap_line {α : Type*} {line : α → List UInt8} {d : UInt8}
    (h : ∀ a, d ∉ line a) (l : List α) : split d (l.flatMap fun a => line a ++ [d]) = l.map line := by
  induction l with
  | nil => rfl
  | cons a l ih =>
    rw [flatMap_cons, append_assoc, singleton_append, split_line (h a), ih, map_cons]

theorem split_degreeText (m : Std.TreeMap Long Nat) :
    split 10 (degreeText m) = m.toList.map fun e => degreeLine e.1 e.2 :=
  split_flatMap_line (fun e : Long × Nat => newline_notMem_degreeLine e.1 e.2) m.toList

theorem split_degreeLine (v : Long) (k : Nat) :
    split 9 (degreeLine v k) = [decimalInt v.toInt, decimal k] := by
  rw [degreeLine, split_line (notMem_decimalInt rfl (by decide) _),
    split_of_notMem (notMem_decimal rfl _) (decimal_ne_nil _)]

theorem degreeLine_inj {v v' : Long} {k k' : Nat} :
    degreeLine v k = degreeLine v' k' ↔ v = v' ∧ k = k' := by
  refine ⟨fun h => ?_, fun h => by rw [h.1, h.2]⟩
  have hfields := congrArg (split 9) h
  rw [split_degreeLine, split_degreeLine, cons.injEq, cons.injEq] at hfields
  exact ⟨Int64.toInt_inj.1 (decimalInt_injective hfields.1), decimal_injective hfields.2.1⟩

/-- The text has exactly one line for every vertex with the property, with its number, if and only if
the table says so. -/
theorem split_degreeText_iff {m : Std.TreeMap Long Nat} {P : Long → Prop} {deg : Long → Nat} :
    (∃ vs : List Long, vs.Nodup ∧ (∀ v, v ∈ vs ↔ P v) ∧
      split 10 (degreeText m) = vs.map fun v => degreeLine v (deg v)) ↔
    ∀ v k, m[v]? = some k ↔ P v ∧ k = deg v := by
  rw [split_degreeText]
  constructor
  · rintro ⟨vs, -, hvs, hlines⟩ v k
    have hmem : (v, k) ∈ m.toList ↔ degreeLine v k ∈ vs.map fun v => degreeLine v (deg v) := by
      rw [← hlines, mem_map]
      refine ⟨fun h => ⟨_, h, rfl⟩, fun ⟨e, he, hline⟩ => ?_⟩
      obtain ⟨rfl, rfl⟩ := degreeLine_inj.1 hline
      exact he
    rw [← Std.TreeMap.mem_toList_iff_getElem?_eq_some, hmem, mem_map, ← hvs]
    constructor
    · rintro ⟨u, hu, hline⟩
      obtain ⟨rfl, rfl⟩ := degreeLine_inj.1 hline
      exact ⟨hu, rfl⟩
    · rintro ⟨hv, rfl⟩
      exact ⟨v, hv, rfl⟩
  · intro h
    refine ⟨m.toList.map Prod.fst, MapLoop.nodup_keys_toList m, fun v => ?_, ?_⟩
    · rw [mem_map]
      constructor
      · rintro ⟨e, he, rfl⟩
        exact ((h e.1 e.2).1 (Std.TreeMap.mem_toList_iff_getElem?_eq_some.1 he)).1
      · intro hv
        exact ⟨(v, deg v), Std.TreeMap.mem_toList_iff_getElem?_eq_some.2 ((h v _).2 ⟨hv, rfl⟩), rfl⟩
    · rw [map_map]
      refine map_congr_left fun e he => ?_
      have hdeg := ((h e.1 e.2).1 (Std.TreeMap.mem_toList_iff_getElem?_eq_some.1 he)).2
      rw [Function.comp_apply, ← hdeg]

end JasmineGraph.Instance
