import JasmineGraph.Triangles.Streaming
import JasmineGraph.Triangles.Text

/-!
# Central triangles, counted statically and dynamically

`countCentralStoreStreamingTriangles` merges the central adjacency of the partitions, edges in their
own direction, and runs the degree-pruned search of `Triangles::countTriangles` on it.
`countDynamicCentralTriangles` reads the same relations, makes every edge symmetric and goes from
each edge to the common neighbours of its ends.

At a self-loop of `v` the dynamic count lists the triple `v,v,v` (and `u,v,v` for a neighbour `u`); a
directed 3-cycle whose vertices have no other out-neighbour is what the pruned search misses.
-/

namespace JasmineGraph.StreamingTriangles

open Bytes JasmineGraph.Graph NativeStore NativeStore.NodeManager Refine Triangles List Option
  AdjacencyMap

/-- A partition whose index can be read and whose files have the central relations of a log. -/
structure CentralStore (cfg : Config) (disk : Disk) (g : Log) : Prop where
  opens : (readNodeIndex cfg.maxLabel disk.index).isSome
  tells : Tells g disk.files .centralRelation
  fits : EdgesFit g .centralRelation

section Partition

variable {cfg : Config} {disk : Disk} {g : Log}

theorem onPartition_eq {α : Type} {m : M α} {r : α}
    (hopen : (readNodeIndex cfg.maxLabel disk.index).isSome)
    (hm : ∀ img : Image, img.files = disk.files → Runs img.Seen m r img.Seen) :
    onPartition cfg disk m = some r := by
  obtain ⟨index, hindex⟩ := isSome_iff_exists.1 hopen
  have hopened : openAppend cfg.maxLabel cfg.rawType disk =
      some (opened cfg.maxLabel cfg.rawType index disk) := by
    rw [openAppend, hindex]
    rfl
  rw [onPartition, hopened]
  exact (hm _ rfl).run'_eq (Image.shown_opened _ _ _ _).seen

theorem CentralStore.getCentralAdjacencyList_eq (h : CentralStore cfg disk g) :
    getCentralAdjacencyList cfg disk = some ((g.seen .centralRelation).foldl add ∅) :=
  onPartition_eq h.opens fun _ himg => (himg ▸ h.tells).runs_getAdjacencyListOf h.fits

theorem CentralStore.getEdges_eq (h : CentralStore cfg disk g) :
    getEdges cfg disk 0 = some (bothWays (g.seen .centralRelation)) := by
  refine onPartition_eq h.opens fun img himg => ?_
  have htells : Tells g img.files .centralRelation := himg ▸ h.tells
  have hcount := htells.toNat_relationCount h.fits
  have hread := runs_edgesAfter htells h.fits 0 (by decide)
    (hcount.le.trans (g.length_seen_le _))
  rw [hcount, drop_zero, g.map_take_seen] at hread
  exact .bind runs_relationCount (.bind hread .pure)

end Partition

/-! ## A list of partitions -/

/-- A central relation of one of the partitions. -/
def CentralArc (logs : ByteString → Log) (partitionIdList : List ByteString) (u v : Long) : Prop :=
  ∃ p ∈ partitionIdList, (u, v) ∈ (logs p).seen .centralRelation

/-- The ids name partitions with the central relations of the logs. -/
def CentralStores (cfg : Config) (stores : Stores) (graphId : ByteString)
    (logs : ByteString → Log) (partitionIdList : List ByteString) : Prop :=
  ∀ p ∈ partitionIdList, ∃ disk, stores.ofIds graphId p = some disk ∧ CentralStore cfg disk (logs p)

section Partitions

variable {cfg : Config} {stores : Stores} {graphId : ByteString} {logs : ByteString → Log}

theorem edgeMaps_eq {partitionIdList old : List ByteString}
    (h : CentralStores cfg stores graphId logs partitionIdList)
    (hlen : old.length = partitionIdList.length) (hold : ∀ n ∈ old, stol n = some 0) :
    edgeMaps cfg stores graphId partitionIdList old =
      some (partitionIdList.map fun p => bothWays ((logs p).seen .centralRelation)) := by
  induction partitionIdList generalizing old with
  | nil => rw [edgeMaps, map_nil]
  | cons p rest ih =>
    obtain ⟨n, old, rfl⟩ := exists_cons_of_length_eq_add_one hlen
    obtain ⟨disk, hdisk, hstore⟩ := h p mem_cons_self
    have hrest := ih (fun q hq => h q (mem_cons_of_mem _ hq)) (Nat.succ.inj hlen)
      fun n hn => hold n (mem_cons_of_mem _ hn)
    rw [edgeMaps, hold n mem_cons_self, bind_eq_bind, bind_some, hdisk, bind_eq_bind, bind_some,
      Int64.toInt_zero, hstore.getEdges_eq, bind_eq_bind, bind_some, hrest]
    rfl

variable {partitionIdList : List ByteString}

/-- **What the static count lists**: the triangles, lone cycles left out. -/
theorem names_static (it : IterationOrder)
    (h : CentralStores cfg stores graphId logs partitionIdList) :
    ∃ text, countCentralStoreStreamingTriangles cfg stores it graphId partitionIdList = some text ∧
      ∀ x, Names text x ↔ Ascending x ∧
        IsTriangle (undirected (CentralArc logs partitionIdList)) (members x) ∧
        ¬ Lone (CentralArc logs partitionIdList) (members x) := by
  have hread : ∀ p ∈ partitionIdList, (stores.ofIds graphId p >>= getCentralAdjacencyList cfg) =
      some (((logs p).seen .centralRelation).foldl add ∅) := by
    intro p hp
    obtain ⟨disk, hdisk, hstore⟩ := h p hp
    rw [hdisk, bind_eq_bind, bind_some, hstore.getCentralAdjacencyList_eq]
  refine ⟨_, by rw [countCentralStoreStreamingTriangles, MapLoop.mapM_of_forall hread]; rfl,
    fun x => ?_⟩
  have hedge : Edge (((partitionIdList.map fun p =>
      ((logs p).seen .centralRelation).foldl add ∅).foldl union
        ∅).reorder it) = CentralArc logs partitionIdList := by
    funext u v
    have hempty : ¬ Edge ∅ u v := VertexSet.notMem_empty v
    rw [edge_reorder, edge_foldl_union]
    simp only [List.mem_map, exists_exists_and_eq_and, edge_foldl_add, hempty, false_or]
    rfl
  obtain ⟨ts, hts, htext⟩ := triangles_eq_render (((partitionIdList.map fun p =>
    ((logs p).seen .centralRelation).foldl add ∅).foldl union
      ∅).reorder it)
  rw [htext, names_renderTriangles, hts.mem_iff, hedge]

theorem mem_trianglesAt {adj : AdjacencyMap} {edges : List (Long × Long)}
    {x : Long × Long × Long} : x ∈ trianglesAt adj edges ↔
      ∃ u v w, (u, v) ∈ edges ∧ adj.Edge u w ∧ adj.Edge v w ∧ x = sort3 u v w := by
  simp only [trianglesAt, mem_flatMap, List.mem_map, mem_filter, decide_eq_true_eq,
    sortTriple_eq, Prod.exists, ← exists_and_left, and_assoc, @eq_comm _ x]
  rfl

/-- **What the dynamic count lists** the first time: every triple that an edge closes. -/
theorem names_dynamic (it : IterationOrder)
    (h : CentralStores cfg stores graphId logs partitionIdList) {old : List ByteString}
    (hlen : old.length = partitionIdList.length) (hold : ∀ n ∈ old, stol n = some 0) :
    ∃ text central, countDynamicCentralTriangles cfg stores it ∅ graphId partitionIdList old =
        some (text, central) ∧
      ∀ x, Names text x ↔ Closes (undirected (CentralArc logs partitionIdList)) x := by
  refine ⟨_, _, by rw [countDynamicCentralTriangles, edgeMaps_eq h hlen hold]; rfl, fun x => ?_⟩
  have hedges : ∀ u v, (u, v) ∈ (partitionIdList.map fun p =>
      bothWays ((logs p).seen .centralRelation)).flatten ↔
        undirected (CentralArc logs partitionIdList) u v := by
    intro u v
    simp only [mem_flatten, List.mem_map, exists_exists_and_eq_and, mem_bothWays, undirected,
      CentralArc, and_or_left, exists_or]
  have hedge : ∀ u v, Edge ((((partitionIdList.map fun p =>
      bothWays ((logs p).seen .centralRelation)).flatten).foldl link
        ((∅ : Std.TreeMap ByteString AdjacencyMap).getD partitionIdList.flatten ∅)).reorder it) u v ↔
        undirected (CentralArc logs partitionIdList) u v := by
    intro u v
    have hempty : ¬ Edge ∅ u v := VertexSet.notMem_empty v
    rw [edge_reorder, Std.TreeMap.getD_emptyc, edge_foldl_link, hedges, hedges, or_iff_right hempty]
    exact or_iff_left_of_imp undirected_symm
  rw [names_dropLast, mem_trianglesAt]
  simp only [hedges, hedge]
  rfl

/-- **Static and dynamic central counts.** On a fresh process with previous counts 0 both return,
and they list the same triples if and only if no central relation is a loop and the central
relations have no lone cycle. -/
theorem central_counts_agree_iff (it it' : IterationOrder)
    (h : CentralStores cfg stores graphId logs partitionIdList) {old : List ByteString}
    (hlen : old.length = partitionIdList.length) (hold : ∀ n ∈ old, stol n = some 0) :
    ∃ static dynamic central,
      countCentralStoreStreamingTriangles cfg stores it graphId partitionIdList = some static ∧
      countDynamicCentralTriangles cfg stores it' ∅ graphId partitionIdList old =
        some (dynamic, central) ∧
      ((∀ x, Names static x ↔ Names dynamic x) ↔ (∀ v, ¬ CentralArc logs partitionIdList v v) ∧
          ¬ ∃ t, Lone (CentralArc logs partitionIdList) t) := by
  obtain ⟨static, hstatic, hs⟩ := names_static it h
  obtain ⟨dynamic, central, hdynamic, hd⟩ := names_dynamic it' h hlen hold
  refine ⟨static, dynamic, central, hstatic, hdynamic, ?_⟩
  simp only [hs, hd]
  constructor
  · intro hsame
    refine ⟨fun v hv => ?_, ?_⟩
    · have hasc := ((hsame (v, v, v)).2 (closes_loop (.inl hv))).1
      exact lt_irrefl v hasc.1
    · rintro ⟨t, ht⟩
      obtain ⟨x, hx, rfl⟩ := exists_ascending (lone_isTriangle ht).1
      exact ((hsame x).2 (closes_of_isTriangle hx (lone_isTriangle ht))).2.2 ht
  · rintro ⟨hloop, hlone⟩ x
    have hsymm : ∀ a b, undirected (CentralArc logs partitionIdList) a b →
        undirected (CentralArc logs partitionIdList) b a := fun _ _ => undirected_symm
    rw [closes_iff hsymm fun v hv => hloop v (or_self_iff.1 hv)]
    refine and_congr_right fun _ => and_iff_left fun ht => hlone ⟨_, ht⟩

end Partitions

/-! ## Partitions that a process has written -/

theorem centralStore_disk {cfg : Config} {g : Log} {img : Image} {s : Store} (h : Holds g img)
    (hs : img.Shown none s) (hfit : EdgesFit g .centralRelation)
    (hopen : (readNodeIndex cfg.maxLabel s.disk.index).isSome) : CentralStore cfg s.disk g where
  opens := hopen
  tells := by
    have hnodes : s.disk.files .nodes = img.files .nodes := (hs.stream _).flushed (by simp) rfl
    have hrelations : s.disk.files (.relations .centralRelation) =
        img.files (.relations .centralRelation) := (hs.stream _).flushed (by simp) rfl
    have htells := h.tells .centralRelation
    refine ⟨fun id hid => ?_, fun id hid => ?_, fun b e hb => ?_, fun b e hb => ?_, ?_⟩
    · rw [hnodes]
      exact htells.nodes id hid
    · rw [hnodes]
      exact htells.number id hid
    · rw [hrelations]
      exact htells.source b e hb
    · rw [hrelations]
      exact htells.destination b e hb
    · rw [hrelations]
      exact htells.size
  fits := hfit

/-- Labels of six bytes. -/
def sixBytes : Config := ⟨6, fun _ _ _ => 0⟩

/-- The central edges 1 → 2, 2 → 3 and 1 → 3. -/
def transitive : List EdgeOp :=
  [(.centralRelation, ascii "1", ascii "2"), (.centralRelation, ascii "2", ascii "3"),
    (.centralRelation, ascii "1", ascii "3")]

theorem central_counts_agree_transitive : ∃ disk static dynamic central,
      countCentralStoreStreamingTriangles sixBytes (fun _ _ => disk) asInserted (ascii "1")
        [ascii "0"] = some static ∧
      countDynamicCentralTriangles sixBytes (fun _ _ => disk) asInserted ∅ (ascii "1")
        [ascii "0"] [ascii "0"] = some (dynamic, central) ∧
      ((∀ x, Names static x ↔ Names dynamic x) ↔
        (∀ v, ¬ CentralArc (fun _ => Log.ofOps transitive) [ascii "0"] v v) ∧
          ¬ ∃ t, Lone (CentralArc (fun _ => Log.ofOps transitive) [ascii "0"]) t) := by
  have hacc : AllAccepted 6 transitive := by decide
  have hfits : Fits (Log.ofOps transitive) := by decide
  obtain ⟨img, s, hrun, hs, h⟩ := run_addEdges (fun _ _ _ => 0) Disk.empty hacc hfits
  have hopen : (readNodeIndex 6 s.disk.index).isSome := by
    have hany : (addEdges transitive (openTruncate 6 (fun _ _ _ => 0) Disk.empty)).all
        (fun x => (readNodeIndex 6 x.2.disk.index).isSome) = true := by decide +kernel
    rwa [hrun, all_some] at hany
  refine ⟨s.disk, central_counts_agree_iff asInserted asInserted (fun p hp => ?_) rfl ?_⟩
  · rw [mem_singleton.1 hp]
    exact ⟨s.disk, rfl, centralStore_disk h hs (hfits.edges _) hopen⟩
  · decide

/-- **A central self-loop.** After `addCentralEdge` from 1 to 1 the dynamic count lists the triple
`1,1,1`, twice, and the static count no triple. -/
theorem central_counts_differ_at_loop : ∃ s, addEdges [(.centralRelation, ascii "1", ascii "1")]
        (openTruncate 6 (fun _ _ _ => 0) Disk.empty) = some ((), s) ∧
      ∃ static dynamic central,
        countCentralStoreStreamingTriangles sixBytes (fun _ _ => s.disk) asInserted (ascii "1")
          [ascii "0"] = some static ∧
        countDynamicCentralTriangles sixBytes (fun _ _ => s.disk) asInserted ∅ (ascii "1")
          [ascii "0"] [ascii "0"] = some (dynamic, central) ∧
        dynamic = ascii "1,1,1:1,1,1" ∧ static = ascii "NILL" ∧
        Names dynamic (1, 1, 1) ∧ ¬ Names static (1, 1, 1) := by
  obtain ⟨⟨⟨⟩, s⟩, hs, hstatic, hdynamic⟩ : ∃ x ∈ addEdges [(.centralRelation, ascii "1", ascii "1")]
      (openTruncate 6 (fun _ _ _ => 0) Disk.empty),
        countCentralStoreStreamingTriangles sixBytes (fun _ _ => x.2.disk) asInserted (ascii "1")
          [ascii "0"] = some (ascii "NILL") ∧
        (countDynamicCentralTriangles sixBytes (fun _ _ => x.2.disk) asInserted ∅ (ascii "1")
          [ascii "0"] [ascii "0"]).map Prod.fst = some (ascii "1,1,1:1,1,1") := by
    decide +kernel
  obtain ⟨⟨text, central⟩, hcount, rfl⟩ := map_eq_some_iff.1 hdynamic
  refine ⟨s, hs, _, _, central, hstatic, hcount, rfl, rfl, ?_, ?_⟩
  · unfold Names
    decide
  · unfold Names
    decide

end JasmineGraph.StreamingTriangles
