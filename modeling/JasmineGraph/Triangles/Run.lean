import JasmineGraph.Triangles.Count

/-!
# `Triangles::run`: merging the three stores

`Triangles::run` merges the local store, the central store and the duplicate central store of a
partition before it counts. The duplicate store goes into the central one first: for each of its
vertices the neighbours the central store misses are computed by `std::set_difference`
(`setDifference`) over two `unordered_set`s, whose order is not sorted. Then the central store goes
into the local one. Beside the sets the loops keep degrees, by adding set sizes.

On unsorted ranges `setDifference` may return elements of the second range too, but it never loses
one of the first that the second lacks (`mem_of_notMem_setDifference`). So the merged map is the
pointwise union (`edge_merged`), whatever the orders, and the merged degree of a vertex is at least
its true out-degree. It is larger where a neighbour is in the local store and in a central one too.
-/

namespace JasmineGraph.Triangles

open JasmineGraph.Graph List Std.TreeMap VertexSet AdjacencyMap

/-- `std::set_difference`: the merge of two ranges, as it runs on ranges in any order. -/
def setDifference : List Long → List Long → List Long
  | [], _ => []
  | x :: xs, [] => x :: xs
  | x :: xs, y :: ys =>
    if x < y then x :: setDifference xs (y :: ys)
    else if y < x then setDifference (x :: xs) ys
    else setDifference xs ys
termination_by xs ys => xs.length + ys.length

theorem setDifference_sublist (xs ys : List Long) : (setDifference xs ys).Sublist xs := by
  fun_induction setDifference xs ys with
  | case1 => exact Sublist.refl _
  | case2 => exact Sublist.refl _
  | case3 x xs y ys h ih => exact ih.cons_cons x
  | case4 x xs y ys h1 h2 ih => exact ih
  | case5 x xs y ys h1 h2 ih => exact ih.cons x

/-- An element is dropped only against an equal one. -/
theorem mem_of_notMem_setDifference {v : Long} (xs ys : List Long) (hx : v ∈ xs)
    (hd : v ∉ setDifference xs ys) : v ∈ ys := by
  fun_induction setDifference xs ys with
  | case1 => exact absurd hx not_mem_nil
  | case2 => exact absurd hx hd
  | case3 x xs y ys h ih =>
    rw [mem_cons, not_or] at hd
    rcases mem_cons.1 hx with rfl | hx
    · exact absurd rfl hd.1
    · exact ih hx hd.2
  | case4 x xs y ys h1 h2 ih => exact mem_cons_of_mem _ (ih hx hd)
  | case5 x xs y ys h1 h2 ih =>
    have hxy : x = y := by order
    rcases mem_cons.1 hx with rfl | hx
    · exact hxy ▸ mem_cons_self
    · exact mem_cons_of_mem _ (ih hx hd)

def difference (s t : VertexSet) : VertexSet :=
  ⟨setDifference s.elems t.elems, (setDifference_sublist _ _).nodup s.nodup⟩

/-- One iteration of the first merge loop, at a vertex of the duplicate store. -/
def mergeDuplicate (duplicate : AdjacencyMap) (st : AdjacencyMap × Distribution) (v : Long) :
    AdjacencyMap × Distribution :=
  let (central, centralDegrees) := st
  let result := difference (duplicate.row v) (central.row v)
  if result.size > 0 then
    (central.insert v ((central.row v).insertAll result),
      centralDegrees.insert v (centralDegrees.getD v 0 + result.size))
  else st

/-- One iteration of the second merge loop, at a vertex of the central degrees. -/
def mergeStore (central : AdjacencyMap) (st : AdjacencyMap × Distribution) (v : Long)
    (degree : Nat) : AdjacencyMap × Distribution :=
  (st.1.insert v ((st.1.row v).insertAll (central.row v)), st.2.insert v (st.2.getD v 0 + degree))

/-- Both merge loops: the merged map and the merged degrees. -/
def mergeStores (localStore central duplicate : AdjacencyMap) : AdjacencyMap × Distribution :=
  let (central, centralDegrees) := duplicate.outDegrees.foldl
    (fun st v _ => mergeDuplicate duplicate st v) (central, central.outDegrees)
  centralDegrees.foldl (mergeStore central) (localStore, localStore.outDegrees)

/-- `Triangles::run`; the merged sets are iterated in an order of their own. -/
def run (o : IterationOrder) (localStore central duplicate : AdjacencyMap) : Option Nat :=
  let (merged, degrees) := mergeStores localStore central duplicate
  (countTriangles (merged.reorder o) degrees false).count

/-! ## What the merge loops leave at a vertex -/

def entry (st : AdjacencyMap × Distribution) (v : Long) : VertexSet × Option Nat :=
  (st.1.row v, st.2[v]?)

theorem entry_insert (st : AdjacencyMap × Distribution) (v w : Long) (s : VertexSet) (d : Nat) :
    entry (st.1.insert v s, st.2.insert v d) w = if v = w then (s, some d) else entry st w := by
  unfold entry
  rw [row_insert, Std.TreeMap.getElem?_insert]
  simp only [Std.compare_eq_iff_eq]
  split_ifs <;> rfl

variable {localStore central duplicate : AdjacencyMap}

def duplicateEntry (duplicate : AdjacencyMap) (v : Long) (e : VertexSet × Option Nat) :
    VertexSet × Option Nat :=
  let result := difference (duplicate.row v) e.1
  if result.size > 0 then (e.1.insertAll result, some (e.2.getD 0 + result.size)) else e

theorem entry_mergeDuplicate (st : AdjacencyMap × Distribution) (v w : Long) :
    entry (mergeDuplicate duplicate st v) w =
      if v = w then duplicateEntry duplicate v (entry st w) else entry st w := by
  simp only [mergeDuplicate]
  by_cases hr : (difference (duplicate.row v) (st.1.row v)).size > 0
  · rw [if_pos hr, entry_insert, getD_eq_getD_getElem?]
    split_ifs with hvw
    · subst hvw
      exact (if_pos hr).symm
    · rfl
  · rw [if_neg hr]
    split_ifs with hvw
    · subst hvw
      exact (if_neg hr).symm
    · rfl

theorem entry_mergeStore (st : AdjacencyMap × Distribution) (v : Long) (d : Nat) (w : Long) :
    entry (mergeStore central st v d) w =
      if v = w then
        ((entry st w).1.insertAll (central.row v), some ((entry st w).2.getD 0 + d))
      else entry st w := by
  unfold mergeStore
  rw [entry_insert, getD_eq_getD_getElem?]
  split_ifs with h
  · rw [h]
    rfl
  · rfl

def added (central duplicate : AdjacencyMap) (v : Long) : VertexSet :=
  difference (duplicate.row v) (central.row v)

theorem size_added_of_notMem {v : Long} (h : duplicate[v]? = none) :
    (added central duplicate v).size = 0 := by
  have hrow : duplicate.row v = ∅ := by
    unfold row
    rw [getD_eq_getD_getElem?, h, Option.getD_none]
  rw [added, hrow, difference, VertexSet.size]
  exact congrArg List.length (setDifference.eq_1 _)

theorem entry_duplicates (v : Long) :
    entry (duplicate.outDegrees.foldl (fun st v _ => mergeDuplicate duplicate st v)
      (central, central.outDegrees)) v =
      if (added central duplicate v).size > 0 then
        ((central.row v).insertAll (added central duplicate v),
          some ((central.row v).size + (added central duplicate v).size))
      else (central.row v, central.outDegrees[v]?) := by
  rw [MapLoop.obs_foldl entry
    fun st v _ w => entry_mergeDuplicate st v w]
  have hdeg : central.outDegrees[v]?.getD 0 = (central.row v).size := by
    rw [← getD_eq_getD_getElem?, getD_outDegrees]
  rw [getElem?_outDegrees]
  cases hv : duplicate[v]? with
  | none =>
    have h0 : (added central duplicate v).size = 0 := size_added_of_notMem hv
    rw [if_neg (by omega)]
    rfl
  | some s =>
    simp only [Option.map_some, duplicateEntry, entry, added, hdeg]
    rfl

/-- After the second loop, over a central store and degrees as the first one left them. -/
theorem entry_stores (centralDegrees : Distribution) (v : Long) :
    entry (centralDegrees.foldl (mergeStore central) (localStore, localStore.outDegrees)) v =
      centralDegrees[v]?.elim (localStore.row v, localStore.outDegrees[v]?) fun d =>
        ((localStore.row v).insertAll (central.row v), some ((localStore.row v).size + d)) := by
  rw [MapLoop.obs_foldl entry
    (F := fun v d e => (e.1.insertAll (central.row v), some (e.2.getD 0 + d)))
    fun st v d w => entry_mergeStore st v d w]
  have hdeg : localStore.outDegrees[v]?.getD 0 = (localStore.row v).size := by
    rw [← getD_eq_getD_getElem?, getD_outDegrees]
  cases centralDegrees[v]? with
  | none => rfl
  | some d => simp only [entry, hdeg]

def mergedDegree (localStore central duplicate : AdjacencyMap) (v : Long) : Nat :=
  (localStore.row v).size + ((central.row v).size + (added central duplicate v).size)

def CentralEdge (central duplicate : AdjacencyMap) (v w : Long) : Prop :=
  central.Edge v w ∨ duplicate.Edge v w

/-- `w` is a neighbour of `v` in one of the three stores. -/
def UnionEdge (localStore central duplicate : AdjacencyMap) (v w : Long) : Prop :=
  localStore.Edge v w ∨ CentralEdge central duplicate v w

theorem centralEdge_iff (v w : Long) :
    CentralEdge central duplicate v w ↔ central.Edge v w ∨ w ∈ added central duplicate v := by
  constructor
  · rintro (h | h)
    · exact .inl h
    · by_cases hd : w ∈ added central duplicate v
      · exact .inr hd
      · exact .inl (mem_of_notMem_setDifference _ _ h hd)
  · rintro (h | h)
    · exact .inl h
    · exact .inr ((setDifference_sublist _ _).subset h)

theorem mergeStores_entry (v : Long) : entry (mergeStores localStore central duplicate) v =
      if (added central duplicate v).size > 0 then
        ((localStore.row v).insertAll ((central.row v).insertAll (added central duplicate v)),
          some (mergedDegree localStore central duplicate v))
      else central.outDegrees[v]?.elim (localStore.row v, localStore.outDegrees[v]?) fun d =>
        ((localStore.row v).insertAll (central.row v), some ((localStore.row v).size + d)) := by
  have hdup := @entry_duplicates central duplicate v
  unfold mergeStores
  generalize duplicate.outDegrees.foldl (fun st v _ => mergeDuplicate duplicate st v)
    (central, central.outDegrees) = st at hdup ⊢
  obtain ⟨central', centralDegrees⟩ := st
  simp only [entry_stores]
  split_ifs at hdup ⊢ with hr
  · obtain ⟨h1, h2⟩ := Prod.mk.inj hdup
    simp only [h1, h2]
    rfl
  · obtain ⟨h1, h2⟩ := Prod.mk.inj hdup
    simp only [h1, h2]

/-- **The merged map is the pointwise union.** -/
theorem edge_merged (v w : Long) : (mergeStores localStore central duplicate).1.Edge v w ↔
      UnionEdge localStore central duplicate v w := by
  have hrow := congrArg Prod.fst (@mergeStores_entry localStore central duplicate v)
  change w ∈ (entry (mergeStores localStore central duplicate) v).1 ↔ _
  rw [UnionEdge, centralEdge_iff, hrow]
  split_ifs with hr
  · simp only [mem_insertAll]
    rfl
  · have hno : w ∉ added central duplicate v := notMem_of_size_eq_zero (by omega) w
    cases hd : central.outDegrees[v]? with
    | some d =>
      simp only [Option.elim_some, mem_insertAll, hno, or_false]
      rfl
    | none =>
      have hc : ¬ central.Edge v w :=
        notMem_of_size_eq_zero (size_row_of_outDegrees_none hd) w
      simp only [hc, hno, or_false]
      rfl

theorem degree_merged {v w : Long} (h : UnionEdge localStore central duplicate v w) :
    (mergeStores localStore central duplicate).2[v]? =
      some (mergedDegree localStore central duplicate v) := by
  have hdeg := congrArg Prod.snd (@mergeStores_entry localStore central duplicate v)
  change (entry (mergeStores localStore central duplicate) v).2 = _
  rw [hdeg]
  split_ifs with hr
  · rfl
  · have hz : (added central duplicate v).size = 0 := by omega
    have hno : w ∉ added central duplicate v := notMem_of_size_eq_zero hz w
    rw [mergedDegree, hz]
    cases hd : central.outDegrees[v]? with
    | some d =>
      have hs : (central.row v).size = d := by
        rw [← getD_outDegrees, getD_eq_getD_getElem?, hd, Option.getD_some]
      rw [hs]
      rfl
    | none =>
      -- nothing central at `v`, so the neighbour is a local one
      have hs := size_row_of_outDegrees_none hd
      rw [UnionEdge, centralEdge_iff] at h
      rcases h with h | h | h
      · rw [hs, outDegrees_of_edge h]
        rfl
      · exact absurd h (notMem_of_size_eq_zero hs w)
      · exact absurd h hno

/-! ## When a merged degree is 1 -/

theorem mergedDegree_ne_one {v a b : Long} (ha : UnionEdge localStore central duplicate v a)
    (hb : UnionEdge localStore central duplicate v b) (hab : a ≠ b) :
    mergedDegree localStore central duplicate v ≠ 1 := by
  intro h
  rw [UnionEdge, centralEdge_iff] at ha hb
  unfold mergedDegree at h
  -- one of the three sets is a singleton and the others are empty
  rcases ha with ha | ha | ha <;> rcases hb with hb | hb | hb <;>
    have pa := size_pos_of_mem ha <;> have pb := size_pos_of_mem hb <;>
    first
    | omega
    | exact hab ((mem_iff_of_size_eq_one (by omega) hb a).1 ha)

theorem added_of_single {v w : Long} (hc : central.Edge v w)
    (honly : ∀ x, CentralEdge central duplicate v x → x = w) :
    (added central duplicate v).size = 0 := by
  have hcs : (central.row v).elems = [w] :=
    elems_eq_singleton (fun x hx => honly x (.inl hx)) hc
  change (setDifference (duplicate.row v).elems (central.row v).elems).length = 0
  by_cases hd : duplicate.Edge v w
  · rw [hcs, elems_eq_singleton (fun x hx => honly x (.inr hx)) hd]
    simp [setDifference]
  · rw [elems_eq_nil fun x hx => hd (honly x (.inr hx) ▸ hx)]
    simp [setDifference]

/-- The central part of the degree of a vertex whose only central neighbour is `w`. -/
theorem centralDegree_of_single {v w : Long} (h : CentralEdge central duplicate v w)
    (honly : ∀ x, CentralEdge central duplicate v x → x = w) :
    (central.row v).size + (added central duplicate v).size = 1 := by
  by_cases hc : central.Edge v w
  · rw [added_of_single hc honly, VertexSet.size,
      elems_eq_singleton (fun x hx => honly x (.inl hx)) hc, length_singleton]
  · have hw : w ∈ added central duplicate v := ((centralEdge_iff v w).1 h).resolve_left hc
    have hadd : ∀ x ∈ added central duplicate v, x = w :=
      fun x hx => honly x ((centralEdge_iff v x).2 (.inr hx))
    rw [VertexSet.size, VertexSet.size, VertexSet.elems_eq_singleton hadd hw,
      elems_eq_nil fun x hx => hc (honly x (.inl hx) ▸ hx)]
    rfl

theorem mergedDegree_of_single {v w : Long}
    (h : ∀ x, UnionEdge localStore central duplicate v x ↔ x = w) :
    mergedDegree localStore central duplicate v ≠ 1 ↔
      localStore.Edge v w ∧ CentralEdge central duplicate v w := by
  have hl : ∀ x ∈ localStore.row v, x = w := fun x hx => (h x).1 (.inl hx)
  have hc : ∀ x, CentralEdge central duplicate v x → x = w := fun x hx => (h x).1 (.inr hx)
  unfold mergedDegree
  by_cases hlw : localStore.Edge v w
  · rw [VertexSet.size, VertexSet.elems_eq_singleton hl hlw, length_singleton]
    by_cases hcw : CentralEdge central duplicate v w
    · rw [centralDegree_of_single hcw hc]
      exact ⟨fun _ => ⟨hlw, hcw⟩, fun _ => by decide⟩
    · have hnone : ∀ x, ¬ CentralEdge central duplicate v x := fun x hx => hcw (hc x hx ▸ hx)
      rw [VertexSet.size, VertexSet.size, VertexSet.elems_eq_nil fun x hx => hnone x (.inl hx),
        VertexSet.elems_eq_nil fun x hx => hnone x ((centralEdge_iff v x).2 (.inr hx))]
      exact ⟨fun hne => absurd rfl hne, fun hboth => absurd hboth.2 hcw⟩
  · have hcw : CentralEdge central duplicate v w := ((h w).2 rfl).resolve_left hlw
    rw [centralDegree_of_single hcw hc, VertexSet.size, elems_eq_nil fun x hx => hlw (hl x hx ▸ hx)]
    exact ⟨fun hne => absurd rfl hne, fun hboth => absurd hboth.1 hlw⟩

/-! ## The count of a run -/

/-- A vertex of the set has a neighbour both in the local store and in a central one. -/
def Shared (localStore central duplicate : AdjacencyMap) (t : Finset Long) : Prop :=
  ∃ v ∈ t, ∃ w, localStore.Edge v w ∧ CentralEdge central duplicate v w

/-- The pointwise union of the three maps. -/
def pointwiseUnion (localStore central duplicate : AdjacencyMap) : AdjacencyMap :=
  (localStore.union central).union duplicate

theorem edge_pointwiseUnion : (pointwiseUnion localStore central duplicate).Edge =
      UnionEdge localStore central duplicate := by
  funext v w
  rw [pointwiseUnion, eq_iff_iff, edge_union, edge_union, or_assoc]
  rfl

theorem edge_mergedReorder (o : IterationOrder) :
    ((mergeStores localStore central duplicate).1.reorder o).Edge =
      UnionEdge localStore central duplicate := by
  funext v w
  rw [eq_iff_iff, edge_reorder, edge_merged]

theorem branching_merged (o : IterationOrder) :
    Branching ((mergeStores localStore central duplicate).1.reorder o)
      (mergeStores localStore central duplicate).2 := by
  intro v a b ha hb hab
  rw [edge_mergedReorder] at ha hb
  exact ⟨_, degree_merged ha, mergedDegree_ne_one ha hb hab⟩

theorem visited_merged_of_single {v w : Long}
    (h : ∀ x, UnionEdge localStore central duplicate v x ↔ x = w) :
    Visited (mergeStores localStore central duplicate).2 v ↔
      ∃ x, localStore.Edge v x ∧ CentralEdge central duplicate v x := by
  have hdeg := degree_merged ((h w).2 rfl)
  have hone := mergedDegree_of_single h
  constructor
  · rintro ⟨d, hd, hne⟩
    rw [hdeg] at hd
    cases hd
    exact ⟨w, hone.1 hne⟩
  · rintro ⟨x, hx, hx'⟩
    have hxw : x = w := (h x).1 (.inl hx)
    subst hxw
    exact ⟨_, hdeg, hone.2 ⟨hx, hx'⟩⟩

theorem visited_merged_of_lone {t : Finset Long}
    (h : Lone (UnionEdge localStore central duplicate) t) :
    (∃ v ∈ t, Visited (mergeStores localStore central duplicate).2 v) ↔
      Shared localStore central duplicate t := by
  refine exists_congr fun v => and_congr_right fun hv => ?_
  obtain ⟨w, hw⟩ := h.exists_single v hv
  exact visited_merged_of_single hw

/-- **What a run counts**: the triangles of the union, less the lone cycles none of whose edges is
in the local store and in a central one. -/
theorem run_eq_ncard (o : IterationOrder) (localStore central duplicate : AdjacencyMap) :
    run o localStore central duplicate =
      some {t | IsTriangle (undirected (UnionEdge localStore central duplicate)) t ∧
        (Lone (UnionEdge localStore central duplicate) t →
          Shared localStore central duplicate t)}.ncard := by
  simp only [run, count_eq_ncard_found, found_iff (branching_merged o), edge_mergedReorder]
  congr 2
  ext t
  refine and_congr_right fun _ => forall_congr' fun hl => ?_
  exact visited_merged_of_lone hl

/-- **Merging.** For all three stores and every iteration order, `run` returns what
`countTriangles` returns on the pointwise union with true out-degrees if and only if no lone cycle
of the union has an edge both in the local store and in a central one. -/
theorem run_eq_countTriangles_iff (o : IterationOrder)
    (localStore central duplicate : AdjacencyMap) :
    run o localStore central duplicate =
        (countTriangles (pointwiseUnion localStore central duplicate)
          (pointwiseUnion localStore central duplicate).outDegrees false).count ↔
      ¬ ∃ t, Lone (UnionEdge localStore central duplicate) t ∧
        Shared localStore central duplicate t := by
  rw [run_eq_ncard, count_eq_ncard, edge_pointwiseUnion, Option.some_inj]
  constructor
  · rintro heq ⟨t, hl, hs⟩
    refine absurd heq.symm (Nat.ne_of_lt (Set.ncard_lt_ncard ⟨?_, ?_⟩ (Set.toFinite _)))
    · rintro u ⟨hu, hul⟩
      exact ⟨hu, fun h => absurd h hul⟩
    · intro hsub
      exact (hsub (show t ∈ {t | _ ∧ _} from ⟨lone_isTriangle hl, fun _ => hs⟩)).2 hl
  · intro hno
    congr 1
    ext t
    refine and_congr_right fun _ => ⟨fun h hl => hno ⟨t, hl, h hl⟩, fun h hl => absurd hl h⟩

theorem nodup_two : [(2 : Long)].Nodup := nodup_singleton 2

/-- The set {2} for vertex 1 only. -/
def oneTwo : AdjacencyMap := Std.TreeMap.empty.insert 1 ⟨[2], nodup_two⟩

/-- The edge 1 → 2 is local and central: the merged degree of 1 is 2, the cycle is visited and
counted; the union with true degrees gives 0. -/
theorem run_directedCycle_ne :
    run ⟨fun _ l => l, fun _ l => List.Perm.refl l⟩ directedCycle oneTwo ∅ = some 1 ∧
      (countTriangles (pointwiseUnion directedCycle oneTwo ∅)
        (pointwiseUnion directedCycle oneTwo ∅).outDegrees false).count = some 0 := by
  decide

end JasmineGraph.Triangles
