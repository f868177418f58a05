import JasmineGraph.Metis.Load

/-!
# Dividing a graph: `populatePartMaps` and `createPartitionFiles`

The second half of `MetisPartitioner` (`partitioner/local/MetisPartitioner.cpp`). Given the part of
every vertex, `populatePartMaps` makes one pass over `graphEdgeMap` for a part: an edge that starts
in the part is local if it ends there as well, and otherwise goes to the part's master map and, by
the part of its end, to a map of common edges. When all parts have been visited,
`createPartitionFiles` appends the common edges to the duplicate master map of the part they end in.
The maps of the result have the vertices' own ids, which a reformatted graph looks up in
`idToVertexMap`.

`partMap[v]` is a function here, 0 where Metis assigned nothing. Of the statements the passes run,
the columns of the inserted row are kept; writing the maps to files is left out.
-/

namespace JasmineGraph.Metis

open MultiMap List Function Multiset Prod

/-! ## The passes -/

/-- What a call of `populatePartMaps` collects. -/
structure PartPass where
  partitionEdgeCount : Nat := 0
  /-- The increments of `masterEdgeCounts[part]` and of `masterEdgeCountsWithDups[part]`. -/
  masterEdges : Nat := 0
  partEdgesSet : Std.TreeMap Int (List Int) := ∅
  partMasterEdgesSet : Std.TreeMap Int (List Int) := ∅
  commonMasterEdgeSet : Nat → Std.TreeMap Int (List Int) := fun _ => ∅
  centralPartVertices : Finset Int := ∅

section Pass

variable (partMap : Int → Nat) (actual : Int → Int) (part : Nat)

/-- The body of the inner loop; the first two components are the local and the central vector. -/
def visitEnd (startVertexActual : Int) (acc : List Int × List Int × PartPass) (endVertexID : Int) :
    List Int × List Int × PartPass :=
  let (localGraphVertexVector, centralGraphVertexVector, pass) := acc
  let endVertexPart := partMap endVertexID
  let endVertexActual := actual endVertexID
  if endVertexPart = part then
    (localGraphVertexVector ++ [endVertexActual], centralGraphVertexVector,
      { pass with partitionEdgeCount := pass.partitionEdgeCount + 1 })
  else
    (localGraphVertexVector, centralGraphVertexVector ++ [endVertexActual], { pass with
        masterEdges := pass.masterEdges + 1
        centralPartVertices := insert endVertexActual pass.centralPartVertices
        commonMasterEdgeSet := Function.update pass.commonMasterEdgeSet endVertexPart
          (append (pass.commonMasterEdgeSet endVertexPart) startVertexActual [endVertexActual]) })

/-- The body of the loop over `graphEdgeMap`. -/
def visitStart (pass : PartPass) (entry : Int × List Int) : PartPass :=
  let startVertexActual := actual entry.1
  if partMap entry.1 = part then
    let (localGraphVertexVector, centralGraphVertexVector, pass) :=
      entry.2.foldl (visitEnd partMap actual part startVertexActual) ([], [], pass)
    let pass :=
      if localGraphVertexVector ≠ [] then
        { pass with
          partEdgesSet := pass.partEdgesSet.insert startVertexActual localGraphVertexVector }
      else pass
    if centralGraphVertexVector ≠ [] then
      { pass with
        partMasterEdgesSet :=
          pass.partMasterEdgesSet.insert startVertexActual centralGraphVertexVector }
    else pass
  else pass

end Pass

structure PartitionRow where
  idpartition : Nat
  vertexcount : Nat
  central_vertexcount : Nat
  edgecount : Nat

/-- The members of `MetisPartitioner` that hold the parts. -/
structure Parts where
  partVertexCounts : Nat → Nat := fun _ => 0
  masterEdgeCounts : Nat → Nat := fun _ => 0
  masterEdgeCountsWithDups : Nat → Nat := fun _ => 0
  partitionedLocalGraphStorageMap : Nat → Std.TreeMap Int (List Int) := fun _ => ∅
  masterGraphStorageMap : Nat → Std.TreeMap Int (List Int) := fun _ => ∅
  duplicateMasterGraphStorageMap : Nat → Std.TreeMap Int (List Int) := fun _ => ∅
  commonCentralStoreEdgeMap : Nat → Nat → Std.TreeMap Int (List Int) := fun _ _ => ∅
  partition : Nat → Option PartitionRow := fun _ => none

namespace MetisPartitioner

variable (this : MetisPartitioner) (partMap : Int → Nat)

/-- The pass of `populatePartMaps` over the edges. -/
def passOf (part : Nat) : PartPass :=
  this.graphEdgeMap.toList.foldl (visitStart partMap this.actual part) {}

def populatePartMaps (parts : Parts) (part : Nat) : Parts :=
  let pass := this.passOf partMap part
  { parts with
    masterEdgeCounts := Function.update parts.masterEdgeCounts part
      (parts.masterEdgeCounts part + pass.masterEdges)
    masterEdgeCountsWithDups := Function.update parts.masterEdgeCountsWithDups part
      (parts.masterEdgeCountsWithDups part + pass.masterEdges)
    partitionedLocalGraphStorageMap :=
      Function.update parts.partitionedLocalGraphStorageMap part pass.partEdgesSet
    masterGraphStorageMap := Function.update parts.masterGraphStorageMap part pass.partMasterEdgesSet
    commonCentralStoreEdgeMap :=
      Function.update parts.commonCentralStoreEdgeMap part pass.commonMasterEdgeSet
    partition := Function.update parts.partition part (some
      { idpartition := part, vertexcount := parts.partVertexCounts part
        central_vertexcount := pass.centralPartVertices.card
        edgecount := pass.partitionEdgeCount }) }

/-- `partVertexCounts[partMap[i]]++` for the ids from the smallest to the largest. -/
def countVertices : Nat → Nat :=
  (List.range (this.largestVertex - this.smallestVertex + 1).toNat).foldl
    (fun counts (i : Nat) =>
      Function.update counts (partMap (this.smallestVertex + i))
        (counts (partMap (this.smallestVertex + i)) + 1))
    fun _ => 0

/-- The common edges of `part` that end in `subPart` are appended to its duplicate master map. -/
def mergeCommon (part : Nat) (parts : Parts) (subPart : Nat) : Parts :=
  if part = subPart then parts
  else
    let commonMasterEdgeSet := parts.commonCentralStoreEdgeMap part subPart
    { parts with
      duplicateMasterGraphStorageMap := Function.update parts.duplicateMasterGraphStorageMap subPart
        (commonMasterEdgeSet.toList.foldl (fun set entry => append set entry.1 entry.2)
          (parts.duplicateMasterGraphStorageMap subPart))
      masterEdgeCountsWithDups := Function.update parts.masterEdgeCountsWithDups subPart
        (commonMasterEdgeSet.toList.foldl (fun count entry => count + entry.2.length)
          (parts.masterEdgeCountsWithDups subPart)) }

/-- `createPartitionFiles`, up to the writing of the files. -/
def createPartitionFiles (nParts : Nat) : Parts :=
  let parts := (List.range nParts).foldl (this.populatePartMaps partMap)
    { partVertexCounts := this.countVertices partMap }
  (List.range nParts).foldl (fun parts part => (List.range nParts).foldl (mergeCommon part) parts)
    parts

end MetisPartitioner

/-! ## One pass -/

section Collect

variable {partMap : Int → Nat} {actual : Int → Int} {part : Nat} {pass : PartPass}
  {M : Multiset (Int × Int)}

def IsLocal (partMap : Int → Nat) (part : Nat) (e : Int × Int) : Prop :=
  partMap e.1 = part ∧ partMap e.2 = part

def IsMaster (partMap : Int → Nat) (part : Nat) (e : Int × Int) : Prop :=
  partMap e.1 = part ∧ partMap e.2 ≠ part

def IsCommon (partMap : Int → Nat) (part subPart : Nat) (e : Int × Int) : Prop :=
  partMap e.1 = part ∧ partMap e.2 ≠ part ∧ partMap e.2 = subPart

instance : DecidablePred (IsLocal partMap part) := fun _ => inferInstanceAs (Decidable (_ ∧ _))

instance : DecidablePred (IsMaster partMap part) := fun _ => inferInstanceAs (Decidable (_ ∧ _))

instance {subPart : Nat} : DecidablePred (IsCommon partMap part subPart) := fun _ =>
  inferInstanceAs (Decidable (_ ∧ _))

/-- The pass has visited the edges `M`. -/
structure Collected (partMap : Int → Nat) (actual : Int → Int) (part : Nat)
    (M : Multiset (Int × Int)) (pass : PartPass) : Prop where
  partitionEdgeCount : pass.partitionEdgeCount = (M.filter (IsLocal partMap part)).card
  masterEdges : pass.masterEdges = (M.filter (IsMaster partMap part)).card
  locals : pairs pass.partEdgesSet = (M.filter (IsLocal partMap part)).map (map actual actual)
  masters : pairs pass.partMasterEdgesSet =
    (M.filter (IsMaster partMap part)).map (map actual actual)
  commons : ∀ subPart, pairs (pass.commonMasterEdgeSet subPart) =
    (M.filter (IsCommon partMap part subPart)).map (map actual actual)

theorem foldl_visitEnd (partMap : Int → Nat) (actual : Int → Int) (part : Nat) (key : Int)
    (ends ls cs : List Int) (pass : PartPass) :
    ∃ pass', ends.foldl (visitEnd partMap actual part key) (ls, cs, pass) =
        (ls ++ (ends.filter fun e => partMap e = part).map actual,
          cs ++ (ends.filter fun e => partMap e ≠ part).map actual, pass') ∧
      pass'.partEdgesSet = pass.partEdgesSet ∧
      pass'.partMasterEdgesSet = pass.partMasterEdgesSet ∧
      pass'.partitionEdgeCount =
        pass.partitionEdgeCount + (ends.filter fun e => partMap e = part).length ∧
      pass'.masterEdges = pass.masterEdges + (ends.filter fun e => partMap e ≠ part).length ∧
      ∀ subPart, pairs (pass'.commonMasterEdgeSet subPart) =
        pairs (pass.commonMasterEdgeSet subPart) + withKey key
          ((ends.filter fun e => partMap e ≠ part ∧ partMap e = subPart).map actual) := by
  induction ends generalizing ls cs pass with
  | nil => exact ⟨pass, by simp, rfl, rfl, rfl, rfl, fun _ => by simp⟩
  | cons e ends ih =>
    rw [List.foldl_cons]
    by_cases he : partMap e = part
    · obtain ⟨pass', hloop, hlocal, hmaster, hcount, hedges, hcommon⟩ := ih (ls ++ [actual e]) cs
        { pass with partitionEdgeCount := pass.partitionEdgeCount + 1 }
      refine ⟨pass', ?_, hlocal, hmaster, ?_, ?_, fun subPart => ?_⟩
      · simp only [visitEnd, if_pos he, hloop]
        simp [he]
      · simp only [hcount, he, List.filter_cons, decide_true, if_true, length_cons]
        omega
      · simp [hedges, he]
      · simp [hcommon, he]
    · obtain ⟨pass', hloop, hlocal, hmaster, hcount, hedges, hcommon⟩ := ih ls (cs ++ [actual e])
        { pass with
          masterEdges := pass.masterEdges + 1
          centralPartVertices := insert (actual e) pass.centralPartVertices
          commonMasterEdgeSet := Function.update pass.commonMasterEdgeSet (partMap e)
            (append (pass.commonMasterEdgeSet (partMap e)) key [actual e]) }
      refine ⟨pass', ?_, hlocal, hmaster, ?_, ?_, fun subPart => ?_⟩
      · simp only [visitEnd, if_neg he, hloop]
        simp [he]
      · simp [hcount, he]
      · simp only [hedges, he, List.filter_cons, ne_eq, not_false_eq_true, decide_true, if_true,
          length_cons]
        omega
      · rw [hcommon]
        by_cases hsub : partMap e = subPart
        · subst hsub
          simp only [update_self, pairs_append, he, List.filter_cons, ne_eq,
            not_false_eq_true, decide_true, and_self, if_true, List.map_cons, add_assoc,
            ← withKey_append, singleton_append]
        · simp [update_of_ne (Ne.symm hsub), hsub]

/-- No vertex of the edges visited so far has the id. -/
theorem Collected.getD_eq_nil (h : Collected partMap actual part M pass) {key : Int}
    (hfresh : ∀ e ∈ M, actual e.1 ≠ key) :
    pass.partEdgesSet.getD key [] = [] ∧ pass.partMasterEdgesSet.getD key [] = [] := by
  have hnone {S : Std.TreeMap Int (List Int)} {P : Int × Int → Prop} [DecidablePred P]
      (hS : pairs S = (M.filter P).map (map actual actual)) : S.getD key [] = [] := by
    refine eq_nil_iff_forall_not_mem.2 fun v hv => ?_
    rw [← mem_pairs, hS] at hv
    obtain ⟨e, he, heq⟩ := Multiset.mem_map.1 hv
    exact hfresh e (Multiset.mem_filter.1 he).1 (congrArg fst heq)
  exact ⟨hnone h.locals, hnone h.masters⟩

theorem pairs_insert_unless_nil {m : Std.TreeMap Int (List Int)} {key : Int}
    (h : m.getD key [] = []) (vs : List Int) :
    pairs (if vs ≠ [] then m.insert key vs else m) = pairs m + withKey key vs := by
  split_ifs with hvs
  · exact pairs_insert_fresh h vs
  · rw [not_not.1 hvs, withKey_nil, add_zero]

theorem map_filter_add_withKey (M : Multiset (Int × Int)) (P : Int × Int → Prop) [DecidablePred P]
    (entry : Int × List Int) :
    ((M + withKey entry.1 entry.2).filter P).map (map actual actual) =
      (M.filter P).map (map actual actual) +
        withKey (actual entry.1) ((entry.2.filter fun e => P (entry.1, e)).map actual) := by
  rw [filter_add, Multiset.map_add, filter_withKey, map_withKey]

theorem card_filter_add_withKey (M : Multiset (Int × Int)) (P : Int × Int → Prop) [DecidablePred P]
    (entry : Int × List Int) :
    ((M + withKey entry.1 entry.2).filter P).card =
      (M.filter P).card + (entry.2.filter fun e => P (entry.1, e)).length := by
  rw [filter_add, card_add, filter_withKey, card_withKey]

/-- **One vertex.** -/
theorem Collected.visitStart (h : Collected partMap actual part M pass) (entry : Int × List Int)
    (hfresh : entry.2 ≠ [] → ∀ e ∈ M, actual e.1 ≠ actual entry.1) :
    Collected partMap actual part (M + withKey entry.1 entry.2)
      (visitStart partMap actual part pass entry) := by
  by_cases hnil : entry.2 = []
  · -- a vertex without edges changes nothing
    have hsame : Metis.visitStart partMap actual part pass entry = pass := by
      simp [Metis.visitStart, hnil]
    rwa [hsame, hnil, withKey_nil, add_zero]
  obtain ⟨hlocalKey, hmasterKey⟩ := h.getD_eq_nil (hfresh hnil)
  by_cases hstart : partMap entry.1 = part
  · obtain ⟨pass', hloop, hlocal, hmaster, hcount, hedges, hcommon⟩ :=
      foldl_visitEnd partMap actual part (actual entry.1) entry.2 [] [] pass
    rw [nil_append, nil_append] at hloop
    have hvisit : Metis.visitStart partMap actual part pass entry = { pass' with
        partEdgesSet :=
          if (entry.2.filter fun e => partMap e = part).map actual ≠ [] then
            pass'.partEdgesSet.insert (actual entry.1)
              ((entry.2.filter fun e => partMap e = part).map actual)
          else pass'.partEdgesSet
        partMasterEdgesSet :=
          if (entry.2.filter fun e => partMap e ≠ part).map actual ≠ [] then
            pass'.partMasterEdgesSet.insert (actual entry.1)
              ((entry.2.filter fun e => partMap e ≠ part).map actual)
          else pass'.partMasterEdgesSet } := by
      simp only [Metis.visitStart, hloop]
      split_ifs <;> rfl
    rw [hvisit]
    constructor
    · rw [card_filter_add_withKey, ← h.partitionEdgeCount]
      simp only [hcount, IsLocal, hstart, true_and]
    · rw [card_filter_add_withKey, ← h.masterEdges]
      simp only [hedges, IsMaster, hstart, true_and]
    · rw [map_filter_add_withKey, ← h.locals]
      simp only [IsLocal, hstart, true_and, ← hlocal]
      exact pairs_insert_unless_nil (by rw [hlocal]; exact hlocalKey) _
    · rw [map_filter_add_withKey, ← h.masters]
      simp only [IsMaster, hstart, true_and, ← hmaster]
      exact pairs_insert_unless_nil (by rw [hmaster]; exact hmasterKey) _
    · intro subPart
      rw [map_filter_add_withKey, ← h.commons]
      simp only [IsCommon, hstart, true_and]
      exact hcommon subPart
  · have hsame : Metis.visitStart partMap actual part pass entry = pass := if_neg hstart
    rw [hsame]
    constructor
    · rw [card_filter_add_withKey, h.partitionEdgeCount]
      simp [IsLocal, hstart]
    · rw [card_filter_add_withKey, h.masterEdges]
      simp [IsMaster, hstart]
    · rw [map_filter_add_withKey, h.locals]
      simp [IsLocal, hstart]
    · rw [map_filter_add_withKey, h.masters]
      simp [IsMaster, hstart]
    · intro subPart
      rw [map_filter_add_withKey, h.commons]
      simp [IsCommon, hstart]

theorem collected_empty : Collected partMap actual part 0 {} := by
  constructor <;> simp [pairs_empty]

/-- **A pass over entries**, under ids that can be taken back. -/
theorem Collected.visit_entries {idOf : Int → Int} (h : Collected partMap actual part M pass)
    (entries : List (Int × List Int)) (hkeys : (entries.map fst).Nodup)
    (hids : ∀ e ∈ entries, e.2 ≠ [] → idOf (actual e.1) = e.1)
    (hM : ∀ e ∈ M, idOf (actual e.1) = e.1 ∧ e.1 ∉ entries.map fst) :
    Collected partMap actual part (M + ofEntries entries)
      (entries.foldl (Metis.visitStart partMap actual part) pass) := by
  induction entries generalizing M pass with
  | nil => rwa [ofEntries, flatMap_nil, coe_nil, add_zero]
  | cons entry entries ih =>
    rw [List.map_cons, List.nodup_cons] at hkeys
    rw [List.forall_mem_cons] at hids
    have hstep := h.visitStart entry fun hne e he heq => by
      have hid := (hM e he).1
      rw [heq, hids.1 hne] at hid
      exact (hM e he).2 (hid ▸ List.mem_cons_self)
    rw [ofEntries_cons, ← add_assoc]
    refine ih hstep hkeys.2 hids.2 fun e he => ?_
    rcases mem_add.1 he with he | he
    · refine ⟨(hM e he).1, fun hmem => (hM e he).2 ?_⟩
      exact List.mem_cons_of_mem _ hmem
    · obtain ⟨hkey, hv⟩ : e.1 = entry.1 ∧ e.2 ∈ entry.2 := (mem_withKey _ _).1 he
      rw [hkey]
      exact ⟨hids.1 (ne_nil_of_mem hv), hkeys.1⟩

end Collect

/-! ## All parts -/

namespace MetisPartitioner

section Populate

variable {edges : List (Int × Int)} {this : MetisPartitioner} {partMap : Int → Nat} {part : Nat}

/-- The part of a vertex, by the id it is loaded under. -/
def partOf (this : MetisPartitioner) (partMap : Int → Nat) (vertex : Int) : Nat :=
  partMap (this.idOf vertex)

theorem Loaded.collected (h : Loaded edges this) (partMap : Int → Nat) (part : Nat) :
    Collected partMap this.actual part (MultiMap.pairs this.graphEdgeMap) (this.passOf partMap part) := by
  have hids : ∀ e ∈ this.graphEdgeMap.toList, e.2 ≠ [] → this.idOf (this.actual e.1) = e.1 := by
    intro e he hne
    obtain ⟨v, hv⟩ := exists_mem_of_ne_nil _ hne
    have hmem : (e.1, v) ∈ MultiMap.pairs this.graphEdgeMap :=
      mem_coe.2 (mem_flatMap.2 ⟨e, he, List.mem_map_of_mem hv⟩)
    rw [h.pairs, mem_coe, List.mem_map] at hmem
    obtain ⟨edge, hedge, heq⟩ := hmem
    rw [← congrArg fst heq, h.actual_idOf edge.1 (mem_vertices.2 ⟨edge, hedge, .inl rfl⟩)]
  have hpass : Collected partMap this.actual part (0 + MultiMap.pairs this.graphEdgeMap)
      (this.passOf partMap part) :=
    collected_empty.visit_entries _ (MapLoop.nodup_keys_toList this.graphEdgeMap) hids (by simp)
  rwa [zero_add] at hpass

theorem Loaded.map_filter (h : Loaded edges this) (P : Int × Int → Prop) [DecidablePred P] :
    ((MultiMap.pairs this.graphEdgeMap).filter P).map (map this.actual this.actual) =
      (edges : Multiset (Int × Int)).filter fun e => P (this.idOf e.1, this.idOf e.2) := by
  rw [h.pairs, ← map_coe, Multiset.filter_map, Multiset.map_map]
  refine (Multiset.map_congr rfl fun e he => ?_).trans (Multiset.map_id _)
  have hmem := mem_coe.1 (Multiset.mem_filter.1 he).1
  exact Prod.ext (h.actual_idOf e.1 (mem_vertices.2 ⟨e, hmem, .inl rfl⟩))
    (h.actual_idOf e.2 (mem_vertices.2 ⟨e, hmem, .inr rfl⟩))

structure PartView where
  partVertexCount : Nat
  masterEdgeCount : Nat
  masterEdgeCountWithDups : Nat
  localMap : Std.TreeMap Int (List Int)
  masterMap : Std.TreeMap Int (List Int)
  commonMaps : Nat → Std.TreeMap Int (List Int)
  row : Option PartitionRow

def view (parts : Parts) (part : Nat) : PartView where
  partVertexCount := parts.partVertexCounts part
  masterEdgeCount := parts.masterEdgeCounts part
  masterEdgeCountWithDups := parts.masterEdgeCountsWithDups part
  localMap := parts.partitionedLocalGraphStorageMap part
  masterMap := parts.masterGraphStorageMap part
  commonMaps := parts.commonCentralStoreEdgeMap part
  row := parts.partition part

def PartView.populate (pass : PartPass) (part : Nat) (v : PartView) : PartView where
  partVertexCount := v.partVertexCount
  masterEdgeCount := v.masterEdgeCount + pass.masterEdges
  masterEdgeCountWithDups := v.masterEdgeCountWithDups + pass.masterEdges
  localMap := pass.partEdgesSet
  masterMap := pass.partMasterEdgesSet
  commonMaps := pass.commonMasterEdgeSet
  row := some
    { idpartition := part, vertexcount := v.partVertexCount
      central_vertexcount := pass.centralPartVertices.card
      edgecount := pass.partitionEdgeCount }

theorem view_populatePartMaps (this : MetisPartitioner) (partMap : Int → Nat) (parts : Parts)
    (part k : Nat) :
    view (this.populatePartMaps partMap parts part) k =
      if id part = k then (view parts k).populate (this.passOf partMap part) part
      else view parts k := by
  by_cases hk : part = k
  · subst hk
    simp [view, populatePartMaps, PartView.populate]
  · simp [view, populatePartMaps, hk, update_of_ne (Ne.symm hk)]

/-- The parts after the passes: the edges `M` are divided, and no common edge is merged yet. -/
structure Populated (partOf : Int → Nat) (M : Multiset (Int × Int)) (nParts : Nat) (parts : Parts) :
    Prop where
  masterEdgeCounts : ∀ p < nParts, parts.masterEdgeCounts p = (M.filter (IsMaster partOf p)).card
  withDups : ∀ p < nParts, parts.masterEdgeCountsWithDups p = (M.filter (IsMaster partOf p)).card
  locals : ∀ p < nParts,
    pairs (parts.partitionedLocalGraphStorageMap p) = M.filter (IsLocal partOf p)
  masters : ∀ p < nParts, pairs (parts.masterGraphStorageMap p) = M.filter (IsMaster partOf p)
  commons : ∀ p < nParts, ∀ q, pairs (parts.commonCentralStoreEdgeMap p q) =
    M.filter (IsCommon partOf p q)
  rows : ∀ p < nParts, ∃ row, parts.partition p = some row ∧
    row.edgecount = (M.filter (IsLocal partOf p)).card
  duplicates : parts.duplicateMasterGraphStorageMap = fun _ => ∅

theorem duplicates_populatePartMaps (l : List Nat) (parts : Parts) :
    (l.foldl (this.populatePartMaps partMap) parts).duplicateMasterGraphStorageMap =
      parts.duplicateMasterGraphStorageMap := by
  induction l generalizing parts with
  | nil => rfl
  | cons p l ih => exact ih _

/-- **All passes.** -/
theorem Loaded.populated (h : Loaded edges this) (partMap : Int → Nat) (nParts : Nat) :
    Populated (this.partOf partMap) edges nParts
      ((List.range nParts).foldl (this.populatePartMaps partMap)
        { partVertexCounts := this.countVertices partMap }) := by
  set parts := (List.range nParts).foldl (this.populatePartMaps partMap)
    { partVertexCounts := this.countVertices partMap } with hparts
  have hview : ∀ p < nParts, view parts p =
      (view { partVertexCounts := this.countVertices partMap } p).populate
        (this.passOf partMap p) p := by
    intro p hp
    exact MapLoop.obs_foldl_of_mem view (view_populatePartMaps this partMap) _ _
      (by rw [List.map_id]; exact List.nodup_range) (List.mem_range.2 hp)
  have hcollected := fun p => h.collected partMap p
  have hlocal (p : Nat) : _ = Multiset.filter (IsLocal (this.partOf partMap) p) ↑edges :=
    h.map_filter (IsLocal partMap p)
  have hmaster (p : Nat) : _ = Multiset.filter (IsMaster (this.partOf partMap) p) ↑edges :=
    h.map_filter (IsMaster partMap p)
  have hcommon (p q : Nat) : _ = Multiset.filter (IsCommon (this.partOf partMap) p q) ↑edges :=
    h.map_filter (IsCommon partMap p q)
  constructor
  · intro p hp
    rw [← hmaster p, card_map, ← (hcollected p).masterEdges]
    exact (congrArg PartView.masterEdgeCount (hview p hp)).trans (Nat.zero_add _)
  · intro p hp
    rw [← hmaster p, card_map, ← (hcollected p).masterEdges]
    exact (congrArg PartView.masterEdgeCountWithDups (hview p hp)).trans (Nat.zero_add _)
  · intro p hp
    rw [← hlocal p, ← (hcollected p).locals]
    exact congrArg (fun v => MultiMap.pairs v.localMap) (hview p hp)
  · intro p hp
    rw [← hmaster p, ← (hcollected p).masters]
    exact congrArg (fun v => MultiMap.pairs v.masterMap) (hview p hp)
  · intro p hp q
    rw [← hcommon p q, ← (hcollected p).commons]
    exact congrArg (fun v => MultiMap.pairs (v.commonMaps q)) (hview p hp)
  · intro p hp
    refine ⟨_, congrArg PartView.row (hview p hp), ?_⟩
    rw [← hlocal p, card_map]
    exact (hcollected p).partitionEdgeCount
  · rw [duplicates_populatePartMaps]

end Populate

/-! ## Merging the common edges -/

section Merge

variable {partOf : Int → Nat} {M : Multiset (Int × Int)} {nParts : Nat} {parts₀ parts : Parts}
  {done : List (Nat × Nat)}

/-- The edge ends in the part and starts in another. -/
def IsDuplicate (partOf : Int → Nat) (part : Nat) (e : Int × Int) : Prop :=
  partOf e.1 ≠ part ∧ partOf e.2 = part

instance {part : Nat} : DecidablePred (IsDuplicate partOf part) := fun _ =>
  inferInstanceAs (Decidable (_ ∧ _))

/-- The common edges of the pairs of parts in `done` have been merged. -/
structure Merged (partOf : Int → Nat) (M : Multiset (Int × Int)) (parts₀ : Parts)
    (done : List (Nat × Nat)) (parts : Parts) : Prop where
  masterEdgeCounts : parts.masterEdgeCounts = parts₀.masterEdgeCounts
  locals : parts.partitionedLocalGraphStorageMap = parts₀.partitionedLocalGraphStorageMap
  masters : parts.masterGraphStorageMap = parts₀.masterGraphStorageMap
  commons : parts.commonCentralStoreEdgeMap = parts₀.commonCentralStoreEdgeMap
  rows : parts.partition = parts₀.partition
  duplicates : ∀ q, pairs (parts.duplicateMasterGraphStorageMap q) =
    M.filter fun e => IsDuplicate partOf q e ∧ (partOf e.1, partOf e.2) ∈ done
  withDups : ∀ q, parts.masterEdgeCountsWithDups q =
    parts₀.masterEdgeCountsWithDups q + (pairs (parts.duplicateMasterGraphStorageMap q)).card

theorem merged_nil (h : parts₀.duplicateMasterGraphStorageMap = fun _ => ∅) :
    Merged partOf M parts₀ [] parts₀ := by
  refine ⟨rfl, rfl, rfl, rfl, rfl, fun q => ?_, fun q => ?_⟩
  · simp [h, pairs_empty]
  · simp [h, pairs_empty]

theorem pairs_foldl_append (entries : List (Int × List Int)) (m : Std.TreeMap Int (List Int)) :
    pairs (entries.foldl (fun set entry => append set entry.1 entry.2) m) =
      pairs m + ofEntries entries := by
  induction entries generalizing m with
  | nil => rw [foldl_nil, ofEntries, flatMap_nil, coe_nil, add_zero]
  | cons entry entries ih => rw [List.foldl_cons, ih, pairs_append, ofEntries_cons, add_assoc]

theorem foldl_length (entries : List (Int × List Int)) (count : Nat) :
    entries.foldl (fun count entry => count + entry.2.length) count =
      count + (ofEntries entries).card := by
  induction entries generalizing count with
  | nil => rfl
  | cons entry entries ih =>
    rw [List.foldl_cons, ih, ofEntries_cons, card_add, card_withKey, Nat.add_assoc]

theorem filter_add_of_disjoint {P Q : Int × Int → Prop} [DecidablePred P] [DecidablePred Q]
    (h : ∀ e, P e → ¬Q e) : M.filter P + M.filter Q = M.filter fun e => P e ∨ Q e := by
  have hnone : M.filter (fun e => P e ∧ Q e) = 0 := filter_eq_nil.2 fun e _ he => h e he.1 he.2
  rw [filter_add_filter, hnone, add_zero]

theorem filter_duplicate_concat (M : Multiset (Int × Int)) {p q : Nat} (hpq : p ≠ q)
    (hnew : (p, q) ∉ done) :
    (M.filter fun e => IsDuplicate partOf q e ∧ (partOf e.1, partOf e.2) ∈ done ++ [(p, q)]) =
      (M.filter fun e => IsDuplicate partOf q e ∧ (partOf e.1, partOf e.2) ∈ done) +
        M.filter (IsCommon partOf p q) := by
  have hparts : ∀ e, IsCommon partOf p q e → (partOf e.1, partOf e.2) = (p, q) := fun e h =>
    Prod.ext h.1 h.2.2
  rw [filter_add_of_disjoint fun e h h' => hnew (hparts e h' ▸ h.2)]
  refine Multiset.filter_congr fun e _ => ?_
  simp only [IsDuplicate, IsCommon]
  grind

variable (hpop : Populated partOf M nParts parts₀)

include hpop

/-- **One pair of parts.** -/
theorem Merged.mergeCommon
    (h : Merged partOf M parts₀ done parts) {p q : Nat} (hp : p < nParts) (hnew : (p, q) ∉ done) :
    Merged partOf M parts₀ (done ++ [(p, q)]) (mergeCommon p parts q) := by
  by_cases hpq : p = q
  · -- no edge that is cut joins a part with itself
    subst hpq
    rw [MetisPartitioner.mergeCommon, if_pos rfl]
    refine { h with duplicates := fun q => (h.duplicates q).trans ?_ }
    refine Multiset.filter_congr fun e _ => and_congr_right fun hdup => ?_
    rw [mem_append, List.mem_singleton, Prod.mk.injEq]
    refine (or_iff_left fun hparts => hdup.1 ?_).symm
    rw [hparts.1, ← hdup.2, hparts.2]
  · have hcommon : pairs (parts.commonCentralStoreEdgeMap p q) = M.filter (IsCommon partOf p q) := by
      rw [h.commons, hpop.commons p hp]
    have hdup : pairs ((parts.commonCentralStoreEdgeMap p q).toList.foldl
        (fun set entry => append set entry.1 entry.2) (parts.duplicateMasterGraphStorageMap q)) =
          pairs (parts.duplicateMasterGraphStorageMap q) +
            pairs (parts.commonCentralStoreEdgeMap p q) := pairs_foldl_append _ _
    rw [MetisPartitioner.mergeCommon, if_neg hpq]
    refine ⟨h.masterEdgeCounts, h.locals, h.masters, h.commons, h.rows, fun k => ?_, fun k => ?_⟩
    · by_cases hk : k = q
      · subst hk
        simp only [update_self]
        rw [hdup, hcommon, h.duplicates, filter_duplicate_concat M hpq hnew]
      · simp only [update_of_ne hk]
        rw [h.duplicates]
        refine Multiset.filter_congr fun e _ => and_congr_right fun hdup => ?_
        rw [mem_append, List.mem_singleton, Prod.mk.injEq]
        exact (or_iff_left fun hparts => hk (hdup.2.symm.trans hparts.2)).symm
    · by_cases hk : k = q
      · subst hk
        simp only [update_self]
        rw [hdup, card_add, ← Nat.add_assoc, ← h.withDups]
        exact foldl_length _ _
      · simp only [update_of_ne hk]
        exact h.withDups k

theorem Merged.foldl_mergeCommon
    (h : Merged partOf M parts₀ done parts) (l : List (Nat × Nat)) (hl : (done ++ l).Nodup)
    (hlt : ∀ pq ∈ l, pq.1 < nParts) :
    Merged partOf M parts₀ (done ++ l)
      (l.foldl (fun parts pq => MetisPartitioner.mergeCommon pq.1 parts pq.2) parts) := by
  induction l generalizing parts done with
  | nil => rwa [append_nil]
  | cons pq l ih =>
    rw [List.forall_mem_cons] at hlt
    have hnew : pq ∉ done := fun hmem =>
      (nodup_append.1 hl).2.2 pq hmem pq List.mem_cons_self rfl
    rw [append_cons] at hl ⊢
    exact ih (h.mergeCommon hpop hlt.1 hnew) hl hlt.2

theorem merged_all : Merged partOf M parts₀ (List.range nParts ×ˢ List.range nParts)
      ((List.range nParts).foldl (fun parts part =>
        (List.range nParts).foldl (MetisPartitioner.mergeCommon part) parts) parts₀) := by
  rw [MapLoop.foldl_product]
  refine (merged_nil hpop.duplicates).foldl_mergeCommon hpop _ ?_ ?_
  · exact List.nodup_range.product List.nodup_range
  · exact fun pq hpq => List.mem_range.1 (List.mem_product.1 hpq).1

end Merge

/-! ## Conservation -/

/-- The edges divided among parts. -/
structure Conserved (partOf : Int → Nat) (edges : List (Int × Int)) (nParts edgeCount : Nat)
    (parts : Parts) : Prop where
  union : ∑ p ∈ Finset.range nParts, (pairs (parts.partitionedLocalGraphStorageMap p) +
    pairs (parts.masterGraphStorageMap p)) = ↑edges
  locals : ∀ p < nParts, pairs (parts.partitionedLocalGraphStorageMap p) =
    (edges : Multiset (Int × Int)).filter (IsLocal partOf p)
  masters : ∀ p < nParts, pairs (parts.masterGraphStorageMap p) =
    (edges : Multiset (Int × Int)).filter (IsMaster partOf p)
  duplicates : ∀ p < nParts, pairs (parts.duplicateMasterGraphStorageMap p) =
    (edges : Multiset (Int × Int)).filter (IsDuplicate partOf p)
  edgeCount : edgeCount = ∑ p ∈ Finset.range nParts,
    ((parts.partition p).elim 0 PartitionRow.edgecount + parts.masterEdgeCounts p)
  withDups : ∀ p < nParts, parts.masterEdgeCountsWithDups p =
    ((edges : Multiset (Int × Int)).filter fun e => IsMaster partOf p e ∨ IsDuplicate partOf p e).card

section Conservation

variable {partOf : Int → Nat} {M : Multiset (Int × Int)} {nParts : Nat}

theorem filter_local_add_master (p : Nat) :
    M.filter (IsLocal partOf p) + M.filter (IsMaster partOf p) =
      M.filter fun e => partOf e.1 = p := by
  rw [filter_add_of_disjoint fun e h h' => h'.2 h.2]
  simp only [IsLocal, IsMaster, ← and_or_left, em, and_true]

theorem sum_filter_part (n : Nat) :
    ∑ p ∈ Finset.range n, M.filter (fun e => partOf e.1 = p) = M.filter fun e => partOf e.1 < n := by
  induction n with
  | zero => simp
  | succ n ih =>
    rw [Finset.sum_range_succ, ih, filter_add_of_disjoint fun e h h' => h.ne h']
    exact Multiset.filter_congr fun e _ => by omega

theorem sum_local_add_master (h : ∀ e ∈ M, partOf e.1 < nParts) :
    ∑ p ∈ Finset.range nParts, (M.filter (IsLocal partOf p) + M.filter (IsMaster partOf p)) = M := by
  rw [Finset.sum_congr rfl fun p _ => filter_local_add_master p, sum_filter_part]
  exact Multiset.filter_eq_self.2 h

/-- A cut edge touches a part with its start or with its end. -/
theorem card_master_add_duplicate (p : Nat) :
    (M.filter (IsMaster partOf p)).card + (M.filter (IsDuplicate partOf p)).card =
      (M.filter fun e => IsMaster partOf p e ∨ IsDuplicate partOf p e).card := by
  rw [← card_add, filter_add_of_disjoint fun e h h' => h'.1 h.1]

end Conservation

/-- **The static partitioner conserves edges.** For every edge list and every assignment of its
vertices to parts: the local and the master maps divide the edges of the input, with their
multiplicities and under their own ids; the duplicate master maps hold the cut edges by their ends;
and the counters count them. -/
theorem partition_conserves_edges {splitter : UInt8} (edges : List (Int × Int))
    (hs : IsSplitter splitter) (hedges : ∀ e ∈ edges, IsInt e.1 ∧ IsInt e.2)
    (hcard : (vertices edges).card < 2 ^ 31) :
    ∃ this, upload (edges.length + 1) (render splitter edges) = some this ∧
      ∀ (nParts : Nat) (partMap : Int → Nat),
        (∀ v ∈ vertices edges, this.partOf partMap v < nParts) →
        Conserved (this.partOf partMap) edges nParts this.edgeCount
          (this.createPartitionFiles partMap nParts) := by
  obtain ⟨this, hupload, hloaded⟩ := upload_spec hs hedges hcard
  refine ⟨this, hupload, fun nParts partMap hparts => ?_⟩
  have hpop := hloaded.populated partMap nParts
  have hmerged := merged_all hpop
  have hstart : ∀ e ∈ (edges : Multiset (Int × Int)), this.partOf partMap e.1 < nParts := fun e he =>
    hparts e.1 (mem_vertices.2 ⟨e, he, .inl rfl⟩)
  have hend : ∀ e ∈ (edges : Multiset (Int × Int)), this.partOf partMap e.2 < nParts := fun e he =>
    hparts e.2 (mem_vertices.2 ⟨e, he, .inr rfl⟩)
  set parts := this.createPartitionFiles partMap nParts with hdef
  have hlocals : ∀ p < nParts, pairs (parts.partitionedLocalGraphStorageMap p) =
      (edges : Multiset (Int × Int)).filter (IsLocal (this.partOf partMap) p) := fun p hp =>
    (congrArg (fun m => pairs (m p)) hmerged.locals).trans (hpop.locals p hp)
  have hmasters : ∀ p < nParts, pairs (parts.masterGraphStorageMap p) =
      (edges : Multiset (Int × Int)).filter (IsMaster (this.partOf partMap) p) := fun p hp =>
    (congrArg (fun m => pairs (m p)) hmerged.masters).trans (hpop.masters p hp)
  have hduplicates : ∀ p < nParts, pairs (parts.duplicateMasterGraphStorageMap p) =
      (edges : Multiset (Int × Int)).filter (IsDuplicate (this.partOf partMap) p) := by
    intro p hp
    refine (hmerged.duplicates p).trans (Multiset.filter_congr fun e he => and_iff_left ?_)
    exact List.mem_product.2 ⟨List.mem_range.2 (hstart e he), List.mem_range.2 (hend e he)⟩
  refine ⟨?_, hlocals, hmasters, hduplicates, ?_, fun p hp => ?_⟩
  · rw [Finset.sum_congr rfl fun p hp => by
      rw [hlocals p (Finset.mem_range.1 hp), hmasters p (Finset.mem_range.1 hp)]]
    exact sum_local_add_master hstart
  · have hcount : (edges : Multiset (Int × Int)).card = _ :=
      (congrArg card (sum_local_add_master hstart)).symm
    rw [hloaded.edgeCount, ← coe_card, hcount, card_sum]
    refine Finset.sum_congr rfl fun p hp => ?_
    have hp := Finset.mem_range.1 hp
    obtain ⟨row, hrow, hedgecount⟩ := hpop.rows p hp
    have hrow : parts.partition p = some row := (congrFun hmerged.rows p).trans hrow
    have hmaster : parts.masterEdgeCounts p = _ :=
      (congrFun hmerged.masterEdgeCounts p).trans (hpop.masterEdgeCounts p hp)
    rw [card_add, hrow, hmaster, Option.elim_some, hedgecount]
  · rw [← card_master_add_duplicate, ← hduplicates p hp, ← hpop.withDups p hp]
    exact hmerged.withDups p

/-- A cut edge between 1 and 3, twice, and a loop; 2 is no vertex. -/
def gappedEdges : List (Int × Int) := [(1, 3), (3, 3), (1, 3)]

theorem partition_conserves_gappedEdges :
    ∃ this, upload (gappedEdges.length + 1) (render 44 gappedEdges) = some this ∧
      ∀ (nParts : Nat) (partMap : Int → Nat),
        (∀ v ∈ vertices gappedEdges, this.partOf partMap v < nParts) →
        Conserved (this.partOf partMap) gappedEdges nParts this.edgeCount
          (this.createPartitionFiles partMap nParts) :=
  partition_conserves_edges gappedEdges (.inr (.inr rfl)) (by decide) (by decide)

end MetisPartitioner

end JasmineGraph.Metis
