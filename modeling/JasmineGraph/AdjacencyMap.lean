import JasmineGraph.Machine
import JasmineGraph.MapLoop

/-!
# Adjacency maps: `map<long, unordered_set<long>>`

An `unordered_set<long>` is a duplicate-free list, its elements in the order the set iterates them
(`VertexSet`). The C++ standard leaves that order open, so every result that reads a set in order
is proved for whatever list stands there; an `IterationOrder` gives each vertex's set a new order
where the code has inserted into the sets before it iterates them (`reorder`).

An `AdjacencyMap` maps a vertex to its set. `AdjacencyMap.row` is `operator[]`: a missing key reads
as the empty set (the code inserts it, which no later lookup can tell).
-/

namespace JasmineGraph

open List Std.TreeMap

/-- `unordered_set<long>`: the elements in iteration order. -/
structure VertexSet where
  elems : List Long
  nodup : elems.Nodup
deriving DecidableEq

variable {v w : Long}

namespace VertexSet

instance : Membership Long VertexSet := ⟨fun s v => v ∈ s.elems⟩

instance (v : Long) (s : VertexSet) : Decidable (v ∈ s) :=
  inferInstanceAs (Decidable (v ∈ s.elems))

instance : EmptyCollection VertexSet := ⟨⟨[], nodup_nil⟩⟩

instance : Inhabited VertexSet := ⟨∅⟩

variable {s : VertexSet}

theorem mem_def {v : Long} : v ∈ s ↔ v ∈ s.elems := .rfl

@[simp] theorem notMem_empty (v : Long) : v ∉ (∅ : VertexSet) := not_mem_nil

def size (s : VertexSet) : Nat := s.elems.length

@[simp] theorem size_empty : size ∅ = 0 := rfl

def insert (s : VertexSet) (v : Long) : VertexSet :=
  if h : v ∈ s.elems then s
  else ⟨s.elems ++ [v], nodup_append.2 ⟨s.nodup, nodup_singleton v, by
    intro a ha b hb hab
    rw [mem_singleton] at hb
    exact h (hb ▸ hab ▸ ha)⟩⟩

@[simp] theorem mem_insert : w ∈ s.insert v ↔ w ∈ s ∨ w = v := by
  unfold insert
  split_ifs with h
  · exact (or_iff_left_of_imp fun hw => hw ▸ h).symm
  · simp [mem_def]

def insertAll (s t : VertexSet) : VertexSet := t.elems.foldl insert s

theorem mem_foldl_insert {w : Long} : ∀ (vs : List Long) (s : VertexSet),
    w ∈ vs.foldl insert s ↔ w ∈ s ∨ w ∈ vs
  | [], s => by simp
  | v :: vs, s => by
    rw [foldl_cons, mem_foldl_insert vs, mem_insert, mem_cons]
    tauto

@[simp] theorem mem_insertAll {s t : VertexSet} {w : Long} :
    w ∈ s.insertAll t ↔ w ∈ s ∨ w ∈ t := mem_foldl_insert t.elems s

theorem elems_eq_singleton {w : Long} (h : ∀ x ∈ s, x = w) (hw : w ∈ s) : s.elems = [w] := by
  have hp : s.elems.Perm [w] :=
    (perm_ext_iff_of_nodup s.nodup (nodup_singleton w)).2 fun x => by
      rw [mem_singleton]
      exact ⟨h x, fun hx => hx ▸ hw⟩
  exact perm_singleton.1 hp

theorem elems_eq_nil (h : ∀ x, x ∉ s) : s.elems = [] :=
  eq_nil_iff_forall_not_mem.2 h

theorem notMem_of_size_eq_zero (h : s.size = 0) (w : Long) : w ∉ s := by
  intro hw
  rw [mem_def, length_eq_zero_iff.1 h] at hw
  exact not_mem_nil hw

theorem size_pos_of_mem {w : Long} (h : w ∈ s) : 0 < s.size :=
  length_pos_of_mem h

theorem size_eq_one_iff : s.size = 1 ↔ ∃ v, ∀ w, w ∈ s ↔ w = v := by
  constructor
  · intro h
    obtain ⟨v, hv⟩ := length_eq_one_iff.1 h
    exact ⟨v, fun w => by rw [mem_def, hv, mem_singleton]⟩
  · rintro ⟨v, hv⟩
    rw [size, elems_eq_singleton (fun x hx => (hv x).1 hx) ((hv v).2 rfl), length_singleton]

theorem mem_iff_of_size_eq_one (h : s.size = 1) {v : Long} (hv : v ∈ s) (w : Long) :
    w ∈ s ↔ w = v := by
  obtain ⟨u, hu⟩ := size_eq_one_iff.1 h
  rw [(hu v).1 hv]
  exact hu w

end VertexSet

/-- The order each vertex's set is iterated in, as a function of what the set holds. -/
structure IterationOrder where
  order : Long → List Long → List Long
  perm : ∀ v l, (order v l).Perm l

/-- `map<long, unordered_set<long>>`. -/
abbrev AdjacencyMap := Std.TreeMap Long VertexSet

namespace AdjacencyMap

/-- `operator[]`. -/
def row (g : AdjacencyMap) (v : Long) : VertexSet := g.getD v ∅

/-- `w` is in the set of `v`. -/
def Edge (g : AdjacencyMap) (v w : Long) : Prop := w ∈ g.row v

theorem row_insert (g : AdjacencyMap) (v w : Long) (s : VertexSet) :
    row (g.insert v s) w = if v = w then s else g.row w := by
  unfold row
  rw [getD_insert]
  simp only [Std.compare_eq_iff_eq]

variable {g : AdjacencyMap}

theorem getElem?_eq_some_row {v : Long} (h : v ∈ g) : g[v]? = some (g.row v) := by
  unfold row
  rw [getD_eq_getD_getElem?, Std.TreeMap.getElem?_eq_some_getElem h, Option.getD_some]

theorem mem_of_edge (h : g.Edge v w) : v ∈ g := by
  by_contra hv
  unfold Edge row at h
  rw [getD_eq_fallback hv] at h
  exact VertexSet.notMem_empty w h

/-- Each key's set size (`getOutDegreeDistributionHashMap`). -/
def outDegrees (g : AdjacencyMap) : Std.TreeMap Long Nat := g.map fun _ s => s.size

theorem getElem?_outDegrees (g : AdjacencyMap) (v : Long) :
    g.outDegrees[v]? = g[v]?.map VertexSet.size := by
  unfold outDegrees
  rw [Std.TreeMap.getElem?_map]

theorem getD_outDegrees (g : AdjacencyMap) (v : Long) : g.outDegrees.getD v 0 = (g.row v).size := by
  unfold row
  rw [getD_eq_getD_getElem?, getElem?_outDegrees, getD_eq_getD_getElem?]
  cases g[v]? <;> rfl

theorem size_row_of_outDegrees_none {v : Long} (h : g.outDegrees[v]? = none) :
    (g.row v).size = 0 := by
  rw [← getD_outDegrees, getD_eq_getD_getElem?, h, Option.getD_none]

theorem outDegrees_of_edge (h : g.Edge v w) : g.outDegrees[v]? = some (g.row v).size := by
  rw [getElem?_outDegrees, getElem?_eq_some_row (mem_of_edge h), Option.map_some]

def union (g h : AdjacencyMap) : AdjacencyMap :=
  h.foldl (fun m v s => m.insert v ((row m v).insertAll s)) g

theorem row_union (g h : AdjacencyMap) (v : Long) :
    (g.union h).row v = h[v]?.elim (g.row v) (g.row v).insertAll := by
  refine MapLoop.obs_foldl row (F := fun _ s r => r.insertAll s) (fun m k s k' => ?_) h g v
  rw [row_insert]
  split_ifs with hk
  · rw [hk]
  · rfl

theorem edge_union (g h : AdjacencyMap) (v w : Long) :
    (g.union h).Edge v w ↔ g.Edge v w ∨ h.Edge v w := by
  unfold Edge
  rw [row_union, row.eq_1 h, getD_eq_getD_getElem?]
  cases h[v]? with
  | none => simp
  | some s => exact VertexSet.mem_insertAll

theorem edge_foldl_union : ∀ (gs : List AdjacencyMap) (g : AdjacencyMap),
    (gs.foldl union g).Edge v w ↔ g.Edge v w ∨ ∃ h ∈ gs, h.Edge v w
  | [], g => by simp
  | h :: gs, g => by
    rw [foldl_cons, edge_foldl_union gs, edge_union]
    simp only [mem_cons, exists_eq_or_imp]
    exact or_assoc

def add (g : AdjacencyMap) (e : Long × Long) : AdjacencyMap :=
  g.insert e.1 ((g.row e.1).insert e.2)

theorem edge_add (g : AdjacencyMap) (e : Long × Long) (v w : Long) :
    (g.add e).Edge v w ↔ g.Edge v w ∨ (v, w) = e := by
  unfold Edge add
  rw [row_insert, Prod.mk.injEq]
  split_ifs with h
  · subst h
    rw [VertexSet.mem_insert, and_iff_right rfl]
  · rw [or_iff_left fun hc => h hc.1.symm]

theorem edge_foldl_add : ∀ (es : List (Long × Long)) (g : AdjacencyMap) (v w : Long),
    (es.foldl add g).Edge v w ↔ g.Edge v w ∨ (v, w) ∈ es
  | [], g, v, w => by simp
  | e :: es, g, v, w => by
    rw [foldl_cons, edge_foldl_add es, edge_add, mem_cons, or_assoc]

/-- `g[v].insert(w); g[w].insert(v)`. -/
def link (g : AdjacencyMap) (e : Long × Long) : AdjacencyMap := (g.add e).add e.swap

theorem edge_foldl_link : ∀ (es : List (Long × Long)) (g : AdjacencyMap) (v w : Long),
    (es.foldl link g).Edge v w ↔ g.Edge v w ∨ (v, w) ∈ es ∨ (w, v) ∈ es
  | [], g, v, w => by simp
  | e :: es, g, v, w => by
    have hswap : (v, w) = e.swap ↔ (w, v) = e := by
      rw [← Prod.swap_inj]
      rfl
    rw [foldl_cons, edge_foldl_link es, link, edge_add, edge_add, hswap]
    simp only [mem_cons]
    tauto

def reorder (o : IterationOrder) (g : AdjacencyMap) : AdjacencyMap :=
  g.map fun v s => ⟨o.order v s.elems, (o.perm v s.elems).nodup_iff.2 s.nodup⟩

theorem row_reorder (o : IterationOrder) (g : AdjacencyMap) (v : Long) :
    ((g.reorder o).row v).elems.Perm (g.row v).elems := by
  unfold row reorder
  rw [Std.TreeMap.getD_map, getD_eq_getD_getElem?]
  cases g[v]? with
  | none => exact List.Perm.refl _
  | some s => exact o.perm v s.elems

theorem edge_reorder (o : IterationOrder) (g : AdjacencyMap) (v w : Long) :
    (g.reorder o).Edge v w ↔ g.Edge v w := (row_reorder o g v).mem_iff

end AdjacencyMap

end JasmineGraph
