import JasmineGraph.Instance.Stores

/-!
# The out-degree distribution of a part

`calculateOutDegreeDist` of `JasmineGraphInstanceService.cpp`: the degrees of the local store
(`getOutDegreeDistributionHashMap`) are raised by the degrees of the part's central store, and the
table is written to the file `_odd_` of the part. The loop over the central store finds a vertex in
the table and adds to its number; a vertex that is not there, because all of its edges are cut, is
passed over.
-/

namespace JasmineGraph.Instance

open Bytes

/-- The body of the loop over the central store. -/
def addCentralDegree (degreeDistributionLocal : Std.TreeMap Long Nat) (v : Long)
    (ends : VertexSet) : Std.TreeMap Long Nat :=
  let distribution := ends.size
  match degreeDistributionLocal[v]? with
  | some degreeDistributionValue =>
    degreeDistributionLocal.insert v (degreeDistributionValue + distribution)
  | none => degreeDistributionLocal

def calculateLocalOutDegreeDist (f : DataFolder) (partitionID : List UInt8) (maps : Maps) :
    Std.TreeMap Long Nat × Maps :=
  let maps := f.loadLocalStore partitionID maps
  let maps := f.loadInstanceCentralStore partitionID maps
  let graphDB := maps.localStores partitionID
  let centralDB := maps.centralStores partitionID
  (centralDB.foldl addCentralDegree graphDB.outDegrees, maps)

/-- The text of the file `_odd_`, and the maps, which are cleared. -/
def calculateOutDegreeDist (f : DataFolder) (partitionID : List UInt8) (maps : Maps) :
    List UInt8 × Maps :=
  (degreeText (calculateLocalOutDegreeDist f partitionID maps).1, .clear)

theorem getElem?_addCentralDegree (m : Std.TreeMap Long Nat) (v : Long) (ends : VertexSet)
    (u : Long) :
    (addCentralDegree m v ends)[u]? = if v = u then m[u]?.map (· + ends.size) else m[u]? := by
  unfold addCentralDegree
  split
  · rename_i value hvalue
    rw [Std.TreeMap.getElem?_insert]
    simp only [Std.compare_eq_iff_eq]
    split_ifs with h
    · rw [← h, hvalue, Option.map_some]
    · rfl
  · rename_i hnone
    split_ifs with h
    · rw [← h, hnone, Option.map_none]
    · rfl

/-- The table has the vertices of the local store, with the sizes of both their rows. -/
theorem getElem?_calculateLocalOutDegreeDist {f : DataFolder} {partitionID : List UInt8}
    {localDB centralDB : AdjacencyMap} (hlocal : f.localStore partitionID = some localDB)
    (hcentral : f.centralStore partitionID = some centralDB) (maps : Maps) (v : Long) :
    (calculateLocalOutDegreeDist f partitionID maps).1[v]? =
      localDB[v]?.map fun s => s.size + (centralDB.row v).size := by
  unfold calculateLocalOutDegreeDist
  simp only [f.localStores_loadInstanceCentralStore, DataFolder.localStores_loadLocalStore hlocal,
    DataFolder.centralStores_loadInstanceCentralStore hcentral]
  rw [MapLoop.obs_foldl (fun m k => m[k]?)
    (fun m v ends u => getElem?_addCentralDegree m v ends u), AdjacencyMap.getElem?_outDegrees,
    AdjacencyMap.row, Std.TreeMap.getD_eq_getD_getElem?]
  cases centralDB[v]? <;> cases localDB[v]? <;> rfl

variable {G : CutGraph}

/-- What is asked of the file: one line for every vertex of the part with an outgoing edge, with the
number of its distinct successors, and no other line. -/
def OddExact (G : CutGraph) (p : Nat) (file : List UInt8) : Prop :=
  ∃ vs : List Long, vs.Nodup ∧ (∀ v, v ∈ vs ↔ G.part v = p ∧ ∃ w, (v, w) ∈ G.edges) ∧
    split 10 file = vs.map fun v => degreeLine v (G.successors v).card

/-- **The file is exact exactly if every vertex of the part that has an edge to another part has one
inside it as well.** -/
theorem oddExact_iff (G : CutGraph) (S : Stores G) (f : DataFolder) (p : Nat)
    (hlocal : f.localStore (decimal p) = some (S.localStore p))
    (hcentral : f.centralStore (decimal p) = some (S.centralStore p)) (maps : Maps) :
    OddExact G p (calculateOutDegreeDist f (decimal p) maps).1 ↔
      ∀ v w, (v, w) ∈ G.edges → G.part v = p → G.part w ≠ p →
        ∃ w', (v, w') ∈ G.edges ∧ G.part w' = p := by
  have htable := getElem?_calculateLocalOutDegreeDist hlocal hcentral maps
  have hrow : ∀ v k, (calculateLocalOutDegreeDist f (decimal p) maps).1[v]? = some k ↔
      v ∈ S.localStore p ∧ k = (G.successors v).card := by
    intro v k
    rw [htable]
    by_cases hv : v ∈ S.localStore p
    · obtain ⟨w, -, hpart, -⟩ := S.mem_localStore.1 hv
      rw [AdjacencyMap.getElem?_eq_some_row hv, Option.map_some, S.size_rows hpart,
        Option.some.injEq, and_iff_right hv, eq_comm]
    · rw [Std.TreeMap.getElem?_eq_none hv]
      exact iff_of_false nofun fun h => hv h.1
  rw [OddExact, calculateOutDegreeDist, split_degreeText_iff]
  simp only [hrow]
  constructor
  · intro h v w he hv _
    obtain ⟨hmem, -⟩ := (h v (G.successors v).card).2 ⟨⟨hv, w, he⟩, rfl⟩
    obtain ⟨w', he', -, hw'⟩ := S.mem_localStore.1 hmem
    exact ⟨w', he', hw'⟩
  · intro h v k
    refine and_congr_left fun _ => ?_
    rw [S.mem_localStore]
    constructor
    · rintro ⟨w, he, hv, -⟩
      exact ⟨hv, w, he⟩
    · rintro ⟨hv, w, he⟩
      by_cases hw : G.part w = p
      · exact ⟨w, he, hv, hw⟩
      · obtain ⟨w', he', hw'⟩ := h v w he hv hw
        exact ⟨w', he', hv, hw'⟩

/-- Two vertices in two parts, one edge between them. -/
def cutEdge : CutGraph where
  edges := [(1, 2)]
  loopless := by simp
  ids := by simp [IsInt]
  part v := if v = 1 then 0 else 1

/-- Three vertices, of which the last is in another part. -/
def cutTriangle : CutGraph where
  edges := [(1, 2), (1, 3)]
  loopless := by simp
  ids := by simp [IsInt]
  part v := if v = 3 then 1 else 0

/-- A folder with the stores of a graph. -/
def CutGraph.folder (G : CutGraph) : DataFolder where
  localStore partitionID := some (G.stores.localStore (ofDigits partitionID))
  centralStore partitionID := some (G.stores.centralStore (ofDigits partitionID))

theorem cutTriangle_oddExact :
    OddExact cutTriangle 0 (calculateOutDegreeDist cutTriangle.folder (decimal 0) .clear).1 :=
  (oddExact_iff cutTriangle cutTriangle.stores cutTriangle.folder 0 rfl rfl .clear).2
    fun v w hvw _ _ => ⟨2, by
      obtain ⟨rfl, -⟩ | ⟨rfl, -⟩ : (v = 1 ∧ w = 2) ∨ (v = 1 ∧ w = 3) := by
        simpa [cutTriangle] using hvw
      all_goals decide⟩

/-- The start of the cut edge has no line. -/
theorem cutEdge_not_oddExact :
    ¬ OddExact cutEdge 0 (calculateOutDegreeDist cutEdge.folder (decimal 0) .clear).1 := by
  rintro ⟨vs, -, hvs, hlines⟩
  have hmem : (1 : Long) ∈ vs := (hvs 1).2 ⟨rfl, 2, by decide⟩
  have htext : (calculateOutDegreeDist cutEdge.folder (decimal 0) .clear).1 = [] := by decide +kernel
  rw [htext, split_nil, eq_comm, List.map_eq_nil_iff] at hlines
  rw [hlines] at hmem
  exact absurd hmem List.not_mem_nil

end JasmineGraph.Instance
