import JasmineGraph.NativeStore.Chains

/-!
# Reading the adjacency of a store

`NodeManager::getAdjacencyList()` walks the lists of every indexed node; `getAdjacencyList(isLocal)`
scans a relation file from block 1 on, as far as its size says. Both are described here by the edges
of the log: the first joins every node to the other end of each of its relations
(`runs_getAdjacencyList`), the second has the edges of one kind in their own direction
(`runs_getAdjacencyListOf`).

The scan does not see a file of `2 ^ 31` bytes or more: `dbSize` returns an `int`, the number of
blocks becomes negative and the scan ends before the first.
-/

namespace JasmineGraph.NativeStore

open Bytes Refine Thread List Nat Std.TreeMap NodeManager Runs Log AdjacencyMap Image VertexSet

/-! ## Reading leaves the image alone -/

namespace Image

def Seen (img : Image) (s : Store) : Prop := ∃ c, Shown none { img with cursor := c } s

variable {img : Image} {k : RelationKind} {a : Nat} {α : Type} {m : M α} {r : α}

theorem Shown.seen {s : Store} (h : img.Shown none s) : img.Seen s := ⟨img.cursor, h⟩

theorem runs_seen (h : ∀ c, ∃ c', Runs (Shown none { img with cursor := c }) m r
    (Shown none { img with cursor := c' })) : Runs img.Seen m r img.Seen := by
  rintro s ⟨c, hs⟩
  obtain ⟨c', hrun⟩ := h c
  obtain ⟨s', hm, hs'⟩ := hrun s hs
  exact ⟨s', hm, c', hs'⟩

theorem seen_memory : Runs img.Seen memory img.mem img.Seen :=
  runs_seen fun c => ⟨c, runs_memory⟩

theorem seen_viewSize (d : DB) : Runs img.Seen (viewSize d) (img.files d).size img.Seen :=
  runs_seen fun c => ⟨c, runs_viewSize d⟩

theorem seen_diskSize (d : DB) : Runs img.Seen (diskSize d) (img.files d).size img.Seen :=
  runs_seen fun c => ⟨c, runs_diskSize d⟩

theorem seen_ofOption {o : Option α} (h : o = some r) : Runs img.Seen (ofOption o) r img.Seen :=
  runs_seen fun c => ⟨c, runs_ofOption h⟩

theorem seen_get (h : NodeOk (img.files .nodes) a) :
    Runs img.Seen (NodeBlock.get a) (img.node a) img.Seen :=
  runs_seen fun c => ⟨c, @runs_get { img with cursor := c } a h⟩

theorem seen_getRelation (h : RelationOk img k a) :
    Runs img.Seen (RelationBlock.getRelation k a) (some (img.relation k a)) img.Seen :=
  runs_seen fun c => ⟨Function.update c k (a + k.blockSize),
    @runs_getRelation { img with cursor := c } k a ⟨h.1, h.2, h.3, h.4, h.5⟩⟩

end Image

theorem NodesHold.seen_get {g : Log} {img : Image} (h : NodesHold g img) (hfit : NodesFit g)
    (id : ByteString) :
    Runs img.Seen (get id)
      (if id ∈ g.ids then some (img.handle g id) else none) img.Seen :=
  runs_seen fun c => ⟨c, @NodesHold.runs_get g { img with cursor := c } { h with } hfit id⟩

/-! ## Vertices -/

def vertex (id : ByteString) : Long := vertexOf (numberOf id)

theorem numberOf_lt (id : ByteString) : numberOf id < 2 ^ 32 := u32_lt _

theorem vertexOf_inj {m n : Nat} (hm : m < 2 ^ 32) (hn : n < 2 ^ 32)
    (h : vertexOf m = vertexOf n) : m = n := by
  have heq := congrArg Int64.toInt h
  unfold vertexOf at heq
  rw [Int64.toInt_ofNat_of_lt (by omega), Int64.toInt_ofNat_of_lt (by omega)] at heq
  exact_mod_cast heq

theorem stol_decimal_vertex (id : ByteString) : stol (decimal (numberOf id)) = some (vertex id) := by
  have hlt := numberOf_lt id
  rw [stol_decimal (by omega)]
  rfl

/-- The edges of a kind between vertices. -/
def Log.Arc (g : Log) (k : RelationKind) (u v : Long) : Prop :=
  ∃ e ∈ g.edges k, vertex e.1 = u ∧ vertex e.2 = v

def arcOf (e : ByteString × ByteString) : Long × Long := (vertex e.1, vertex e.2)

/-- The edges of a kind that a reader sees: it takes their number from the size of the file, as
`int`. -/
def Log.seen (g : Log) (k : RelationKind) : List (Long × Long) :=
  if ((g.edges k).length + 1) * k.blockSize < 2 ^ 31 then (g.edges k).map arcOf else []

/-- `v` is the vertex at the other end of an edge of the node. -/
def Log.Neighbour (g : Log) (id : ByteString) (v : Long) : Prop :=
  ∃ k, ∃ e ∈ g.edges k, e.1 = id ∧ vertex e.2 = v ∨ e.2 = id ∧ vertex e.1 = v

/-- The nodes of the log have distinct vertices. -/
def Log.DistinctVertices (g : Log) : Prop :=
  ∀ id ∈ g.ids, ∀ id' ∈ g.ids, vertex id = vertex id' → id = id'

theorem Log.mem_seen {g : Log} {k : RelationKind}
    (hsize : ((g.edges k).length + 1) * k.blockSize < 2 ^ 31) {u v : Long} :
    (u, v) ∈ g.seen k ↔ g.Arc k u v := by
  rw [seen, if_pos hsize, List.mem_map]
  simp only [arcOf, Prod.mk.injEq]
  rfl

theorem Log.length_seen_le (g : Log) (k : RelationKind) :
    (g.seen k).length ≤ (g.edges k).length := by
  unfold seen
  split_ifs
  · rw [length_map]
  · exact Nat.zero_le _

theorem Log.map_take_seen (g : Log) (k : RelationKind) :
    ((g.edges k).take (g.seen k).length).map arcOf = g.seen k := by
  unfold seen
  split_ifs
  · rw [length_map, take_length]
  · rfl

theorem Log.exists_neighbour {g : Log} {u v : Long} :
    (∃ id ∈ g.ids, vertex id = u ∧ g.Neighbour id v) ↔ ∃ k, g.Arc k u v ∨ g.Arc k v u := by
  constructor
  · rintro ⟨id, -, rfl, k, e, he, ⟨rfl, rfl⟩ | ⟨rfl, rfl⟩⟩
    · exact ⟨k, .inl ⟨e, he, rfl, rfl⟩⟩
    · exact ⟨k, .inr ⟨e, he, rfl, rfl⟩⟩
  · rintro ⟨k, ⟨e, he, rfl, rfl⟩ | ⟨e, he, rfl, rfl⟩⟩
    · exact ⟨e.1, (g.ends k e he).1, rfl, k, e, he, .inl ⟨rfl, rfl⟩⟩
    · exact ⟨e.2, (g.ends k e he).2, rfl, k, e, he, .inr ⟨rfl, rfl⟩⟩

/-! ## The relation files -/

/-- The files tell the edges of a kind: the block of each has the addresses of its nodes, whose
blocks have their numbers. -/
structure Tells (g : Log) (files : DB → ByteFile) (k : RelationKind) : Prop where
  nodes : ∀ id ∈ g.ids, NodeOk (files .nodes) (g.nodeAddr id)
  number : ∀ id ∈ g.ids, u32At (files .nodes) (g.nodeAddr id + 1) = numberOf id
  source : ∀ b e, (g.edges k)[b]? = some e →
    relWord (files (.relations k)) ((b + 1) * k.blockSize) .source = g.nodeAddr e.1
  destination : ∀ b e, (g.edges k)[b]? = some e →
    relWord (files (.relations k)) ((b + 1) * k.blockSize) .destination = g.nodeAddr e.2
  size : (files (.relations k)).size =
    if g.edges k = [] then 0 else ((g.edges k).length + 1) * k.blockSize

theorem Holds.tells {g : Log} {img : Image} (h : Holds g img) (k : RelationKind) :
    Tells g img.files k where
  nodes _ hid := h.nodes.ok _ (slot_lt hid)
  number := h.nodes.number
  source := (h.ends k).source
  destination := (h.ends k).destination
  size := h.size k

variable {e : ByteString × ByteString}

namespace Tells

variable {g : Log} {img : Image} {k : RelationKind}

/-- **A block of the file is an edge**: the ids of its two nodes are the numbers of the ends. -/
theorem relation (h : Tells g img.files k) {b : Nat} (hb : (g.edges k)[b]? = some e) :
    RelationOk img k ((b + 1) * k.blockSize) ∧
      stol (img.node (img.word k (b + 1) .source)).id = some (vertex e.1) ∧
      stol (img.node (img.word k (b + 1) .destination)).id = some (vertex e.2) := by
  obtain ⟨hlt, -⟩ := List.getElem?_eq_some_iff.1 hb
  obtain ⟨hsource, hdestination⟩ := g.ends k e (mem_of_getElem? hb)
  have hid : ∀ id ∈ g.ids, stol (img.node (g.nodeAddr id)).id = some (vertex id) := by
    intro id hid
    rw [← stol_decimal_vertex, ← h.number id hid]
    rfl
  refine ⟨⟨?_, mul_mod_left _ _, ?_, ?_, ?_⟩, ?_, ?_⟩
  · cases k <;> simp [RelationKind.blockSize]
  · rw [h.size, if_neg (ne_nil_of_length_pos (zero_lt_of_lt hlt)), ← succ_mul]
    exact Nat.mul_le_mul_right _ (by omega)
  · rw [h.source b e hb]
    exact h.nodes _ hsource
  · rw [h.destination b e hb]
    exact h.nodes _ hdestination
  · rw [word, h.source b e hb]
    exact hid _ hsource
  · rw [word, h.destination b e hb]
    exact hid _ hdestination

/-! ## The scan -/

/-- **The scan of `n` blocks from block `i` on** adds their edges. -/
theorem runs_scanRelations (h : Tells g img.files k) (hfit : EdgesFit g k) :
    ∀ (n i : Nat) (adj : AdjacencyMap), i + n ≤ (g.edges k).length →
    Runs img.Seen (scanRelations k (i + 1) n adj)
      (((((g.edges k).drop i).take n).map arcOf).foldl add adj) img.Seen
  | 0, i, adj, _ => pure
  | n + 1, i, adj, hle => by
    have hi : i < (g.edges k).length := by omega
    obtain ⟨hok, hs, hd⟩ := h.relation (List.getElem?_eq_getElem hi)
    have haddr : (i + 1) * k.blockSize < 2 ^ 32 :=
      Nat.lt_of_le_of_lt (Nat.mul_le_mul_right _ hi) hfit
    have hrest := runs_scanRelations h hfit n (i + 1) (adj.add (arcOf (g.edges k)[i])) (by omega)
    rw [drop_eq_getElem_cons hi]
    unfold scanRelations
    rw [u32_of_lt haddr]
    refine bind (seen_getRelation hok) ?_
    exact bind (seen_ofOption hs) (bind (seen_ofOption hd) hrest)

variable (h : Tells g img.files k)

include h

theorem relationCount (hsize : ((g.edges k).length + 1) * k.blockSize < 2 ^ 31) :
    Int.tdiv (toInt32 (img.files (.relations k)).size) k.blockSize - 1 =
      if g.edges k = [] then -1 else ((g.edges k).length : Int) := by
  have hpos : 0 < k.blockSize := by cases k <;> decide
  rw [h.size]
  split_ifs with hnil
  · cases k <;> rfl
  · rw [toInt32_of_lt hsize, ← Int.ofNat_tdiv, Nat.mul_div_cancel _ hpos]
    omega

/-- A file of `2 ^ 31` bytes and more has a negative number of relations. -/
theorem relationCount_large (hfit : EdgesFit g k)
    (hlarge : 2 ^ 31 ≤ ((g.edges k).length + 1) * k.blockSize) :
    Int.tdiv (toInt32 (img.files (.relations k)).size) k.blockSize - 1 < 0 := by
  have hne : g.edges k ≠ [] := by
    intro hnil
    rw [hnil] at hlarge
    exact absurd hlarge (by cases k <;> decide)
  have hlow : toInt32 (((g.edges k).length + 1) * k.blockSize : Nat) < k.blockSize := by
    unfold EdgesFit at hfit
    rw [succ_mul] at hlarge ⊢
    unfold toInt32
    omega
  rw [h.size, if_neg hne]
  by_cases hneg : toInt32 (((g.edges k).length + 1) * k.blockSize : Nat) < 0
  · have hdiv := Int.tdiv_nonneg (Int.neg_nonneg_of_nonpos (Int.le_of_lt hneg))
      (Int.natCast_nonneg k.blockSize)
    rw [Int.neg_tdiv] at hdiv
    omega
  · rw [Int.tdiv_eq_zero_of_lt (Int.not_lt.1 hneg) hlow]
    decide

/-- The number that a division by an `unsigned long` gives is right for a file that is not empty and
below `2 ^ 31` bytes. -/
theorem unsignedCount_eq_iff (hfit : EdgesFit g k) :
    toInt32 (img.files (.relations k)).size % 2 ^ 64 / k.blockSize - 1 = (g.edges k).length ↔
      g.edges k ≠ [] ∧ ((g.edges k).length + 1) * k.blockSize < 2 ^ 31 := by
  rw [h.size]
  by_cases hnil : g.edges k = []
  · rw [if_pos hnil]
    exact iff_of_false (by cases k <;> simp [toInt32, hnil]) fun h => h.1 hnil
  · rw [if_neg hnil, and_iff_right hnil]
    have hblock : 0 < k.blockSize ∧ k.blockSize ≤ 156 := by cases k <;> decide
    by_cases hsize : ((g.edges k).length + 1) * k.blockSize < 2 ^ 31
    · rw [toInt32_of_lt hsize, Int.emod_eq_of_lt (by omega) (by omega), ← Int.natCast_ediv,
        Nat.mul_div_cancel _ hblock.1]
      exact iff_of_true (by omega) hsize
    · -- a negative size becomes a number close to `2 ^ 64`
      refine iff_of_false (fun heq => ?_) hsize
      unfold EdgesFit at hfit
      obtain ⟨x, hx⟩ : ∃ x, x = toInt32 (((g.edges k).length + 1) * k.blockSize : Nat) := ⟨_, rfl⟩
      have hlow : -2 ^ 31 ≤ x ∧ x < k.blockSize := by
        rw [succ_mul] at hsize hx
        unfold toInt32 at hx
        omega
      rw [← hx] at heq
      clear hx
      have hmod : x % 2 ^ 64 = if x < 0 then x + 2 ^ 64 else x := by split_ifs <;> omega
      rw [hmod] at heq
      cases k <;> simp only [RelationKind.blockSize] at * <;> split_ifs at heq <;> omega

theorem toNat_relationCount (hfit : EdgesFit g k) :
    (Int.tdiv (toInt32 (img.files (.relations k)).size) k.blockSize - 1).toNat =
      (g.seen k).length := by
  unfold seen
  split_ifs with hsize
  · rw [h.relationCount hsize, length_map]
    split_ifs with hnil
    · rw [hnil]
      rfl
    · exact Int.toNat_natCast _
  · exact Int.toNat_of_nonpos (h.relationCount_large hfit (Nat.le_of_not_lt hsize)).le

/-- **`getAdjacencyList(isLocal)`** has the edges that a reader sees. -/
theorem runs_getAdjacencyListOf (hfit : EdgesFit g k) :
    Runs img.Seen (getAdjacencyListOf k) ((g.seen k).foldl add ∅)
      img.Seen := by
  have hscan := h.runs_scanRelations hfit (g.seen k).length 0 ∅ (by
    rw [Nat.zero_add]
    exact g.length_seen_le k)
  rw [drop_zero, g.map_take_seen] at hscan
  refine bind (bind (seen_diskSize _) pure) ?_
  dsimp only
  rw [h.toNat_relationCount hfit]
  exact hscan

theorem runs_getAdjacencyListOf_whole (hsize : ((g.edges k).length + 1) * k.blockSize < 2 ^ 31) :
    ∃ adj, Runs img.Seen (getAdjacencyListOf k) adj img.Seen ∧
      ∀ u v, v ∈ adj.row u ↔ g.Arc k u v := by
  have hfit : EdgesFit g k := by
    unfold EdgesFit
    rw [succ_mul] at hsize
    omega
  refine ⟨_, h.runs_getAdjacencyListOf hfit, fun u v => ?_⟩
  rw [← mem_seen hsize]
  exact (edge_foldl_add _ _ _ _).trans (or_iff_right (notMem_empty v))

end Tells

namespace Holds

variable {g : Log} {img : Image} {k : RelationKind} {id : ByteString} {b : Nat}

theorem node_vertex (h : Holds g img) (hid : id ∈ g.ids) :
    vertexOf (img.node (g.nodeAddr id)).nodeId = vertex id := by
  rw [vertex, ← h.nodes.number id hid]
  rfl

/-! ## The walk -/

def relationAt (img : Image) (k : RelationKind) (b : Nat) : Option RelationBlock :=
  if b = 0 then none else some (img.relation k (b * k.blockSize))

theorem seen_getRelation (h : Holds g img) (hb : b ≤ (g.edges k).length) :
    Runs img.Seen (RelationBlock.getRelation k (b * k.blockSize)) (relationAt img k b)
      img.Seen := by
  unfold relationAt
  by_cases h0 : b = 0
  · rw [h0, Nat.zero_mul]
    exact pure
  · rw [if_neg h0]
    exact Image.seen_getRelation ((h.ends k).relationOk h.nodes (Nat.pos_of_ne_zero h0) hb)

def collected (img : Image) (k : RelationKind) (x b : Nat) : NodeBlock × RelationBlock :=
  (img.node (if img.word k b .source = x then img.word k b .destination
    else img.word k b .source), img.relation k (b * k.blockSize))

section

variable (h : Holds g img)

include h

/-- **The walk along the list of a node** collects the other end of every relation in it. -/
theorem runs_edgeNodesFrom (hid : id ∈ g.ids) {this : NodeBlock}
    (hthis : this.addr = g.nodeAddr id) :
    ∀ (c fuel : Nat), c ≤ (g.edges k).length → (newest (g.Joins k id) c).length ≤ fuel →
    Runs img.Seen (NodeBlock.edgeNodesFrom k this fuel (relationAt img k (last (g.Joins k id) c)))
      ((newest (g.Joins k id) c).map (collected img k (g.nodeAddr id))) img.Seen := by
  intro c
  -- induction on the number of blocks; blocks of other nodes are skipped on both sides
  induction c with
  | zero => exact fun fuel _ _ => by cases fuel <;> exact pure
  | succ c ih =>
    intro fuel hc hfuel
    by_cases hj : g.Joins k id (c + 1)
    · simp only [newest, last, if_pos hj, map_cons, length_cons] at hfuel ⊢
      obtain ⟨fuel, rfl⟩ : ∃ f, fuel = f + 1 := ⟨fuel - 1, by omega⟩
      have hrest := ih fuel (by omega) (by omega)
      have hget : (g.edges k)[c]? = some (g.edges k)[c] := List.getElem?_eq_getElem hc
      have hmem := g.ends k _ (getElem_mem hc)
      have hws : img.word k (c + 1) .source = _ := (h.ends k).source c _ hget
      have hwd : img.word k (c + 1) .destination = _ := (h.ends k).destination c _ hget
      have hsrc : (img.relation k ((c + 1) * k.blockSize)).source.address = _ := hws
      have hdst : (img.relation k ((c + 1) * k.blockSize)).destination.address = _ := hwd
      have hnext : ((img.relation k ((c + 1) * k.blockSize)).endAt (g.nodeAddr id)).nextRelationId =
          last (g.Joins k id) c * k.blockSize := by
        rw [nextRelationId_endAt]
        exact (h.links k id hid).next_eq c hc hj
      have hwalk := h.seen_getRelation (Nat.le_trans (last_le (P := g.Joins k id) c)
        (le_of_succ_le hc))
      rw [relationAt, if_neg (succ_ne_zero c)]
      unfold NodeBlock.edgeNodesFrom
      rw [hthis]
      unfold RelationBlock.endAt at hnext
      by_cases hs : (img.relation k ((c + 1) * k.blockSize)).source.address = g.nodeAddr id
      · rw [if_pos hs] at hnext
        rw [if_pos hs, hnext, hdst]
        refine bind (seen_get (h.nodes.ok _ (slot_lt hmem.2))) ?_
        refine bind hwalk (bind hrest ?_)
        have hcol : collected img k (g.nodeAddr id) (c + 1) =
            (img.node (g.nodeAddr (g.edges k)[c].2), img.relation k ((c + 1) * k.blockSize)) := by
          rw [collected, if_pos (by exact hs), hwd]
        rw [hcol]
        exact pure
      · have hd : (img.relation k ((c + 1) * k.blockSize)).destination.address = g.nodeAddr id := by
          have hend := ((h.ends k).isEnd_iff hid (succ_pos c) hc).2 hj
          exact (hend.resolve_left fun heq => hs heq.symm).symm
        rw [if_neg hs] at hnext
        rw [if_neg hs, if_pos hd, hnext, hsrc]
        refine bind (seen_get (h.nodes.ok _ (slot_lt hmem.1))) ?_
        refine bind hwalk (bind hrest ?_)
        have hcol : collected img k (g.nodeAddr id) (c + 1) =
            (img.node (g.nodeAddr (g.edges k)[c].1), img.relation k ((c + 1) * k.blockSize)) := by
          rw [collected, if_neg (by exact hs), hws]
        rw [hcol]
        exact pure
    · simp only [newest, last, if_neg hj] at hfuel ⊢
      exact ih fuel (le_of_succ_le hc) hfuel

theorem handle_relationRef (hid : id ∈ g.ids) :
    (img.handle g id).relationRef k = g.headOf k id * k.blockSize := by
  have hhead := (h.ends k).head id hid
  cases k <;> exact hhead

theorem runs_getEdgeNodes (hid : id ∈ g.ids) : Runs img.Seen ((img.handle g id).getEdgeNodes k)
      ((newest (g.Joins k id) (g.edges k).length).map (collected img k (g.nodeAddr id)))
      img.Seen := by
  have hpos : 0 < k.blockSize := by cases k <;> decide
  have hlen := length_newest_le (P := g.Joins k id) (g.edges k).length
  have hfuel : (newest (g.Joins k id) (g.edges k).length).length ≤
      (img.files (.relations k)).size / k.blockSize + 1 := by
    by_cases hnil : g.edges k = []
    · rw [hnil]
      exact Nat.zero_le _
    · rw [h.size k, if_neg hnil, Nat.mul_div_cancel _ hpos]
      omega
  have hhead : Runs img.Seen ((img.handle g id).getRelationHead k)
      (relationAt img k (g.headOf k id)) img.Seen := by
    unfold NodeBlock.getRelationHead
    rw [h.handle_relationRef hid]
    by_cases h0 : g.headOf k id = 0
    · rw [h0, Nat.zero_mul]
      exact pure
    · rw [if_pos (Nat.ne_of_gt (Nat.mul_pos (Nat.pos_of_ne_zero h0) hpos))]
      exact h.seen_getRelation (last_le _)
  refine bind hhead (bind (bind (seen_viewSize _) pure) ?_)
  exact h.runs_edgeNodesFrom hid rfl _ _ (Nat.le_refl _) hfuel

theorem mem_collected (id : ByteString) (v : Long) :
    (∃ b ∈ newest (g.Joins k id) (g.edges k).length,
      vertexOf (collected img k (g.nodeAddr id) b).1.nodeId = v) ↔
    ∃ e ∈ g.edges k, e.1 = id ∧ vertex e.2 = v ∨ e.2 = id ∧ vertex e.1 = v := by
  have hcol : ∀ b e, (g.edges k)[b]? = some e →
      vertexOf (collected img k (g.nodeAddr id) (b + 1)).1.nodeId =
        if e.1 = id then vertex e.2 else vertex e.1 := by
    intro b e he
    have hmem := g.ends k e (mem_of_getElem? he)
    have hiff : img.word k (b + 1) .source = g.nodeAddr id ↔ e.1 = id := by
      rw [(h.ends k).source b e he, nodeAddr_inj hmem.1]
    unfold collected
    by_cases heq : e.1 = id
    · rw [if_pos (hiff.2 heq), if_pos heq, (h.ends k).destination b e he, h.node_vertex hmem.2]
    · rw [if_neg fun hc => heq (hiff.1 hc), if_neg heq, (h.ends k).source b e he,
        h.node_vertex hmem.1]
  constructor
  · rintro ⟨b, hb, hv⟩
    obtain ⟨h0, hle, e, he, hend⟩ := mem_newest.1 hb
    obtain ⟨b, rfl⟩ : ∃ c, b = c + 1 := ⟨b - 1, by omega⟩
    rw [hcol b e he] at hv
    refine ⟨e, mem_of_getElem? he, ?_⟩
    by_cases heq : e.1 = id
    · rw [if_pos heq] at hv
      exact .inl ⟨heq, hv⟩
    · rw [if_neg heq] at hv
      exact .inr ⟨hend.resolve_left heq, hv⟩
  · rintro ⟨e, he, hend⟩
    obtain ⟨b, hb, hbe⟩ := getElem_of_mem he
    have hget : (g.edges k)[b]? = some e := by rw [List.getElem?_eq_getElem hb, hbe]
    have hjoin : e.1 = id ∨ e.2 = id := hend.imp And.left And.left
    refine ⟨b + 1, mem_newest.2 ⟨succ_pos b, hb, e, hget, hjoin⟩, ?_⟩
    rw [hcol b e hget]
    split_ifs with heq
    · rcases hend with ⟨-, hv⟩ | ⟨h2, hv⟩
      · exact hv
      · rw [h2, ← heq]
        exact hv
    · exact (hend.resolve_left fun hc => heq hc.1).2

/-- **The neighbours `getAdjacencyList` inserts for a node.** -/
theorem runs_getAllEdgeNodes (hid : id ∈ g.ids) :
    ∃ l, Runs img.Seen (img.handle g id).getAllEdgeNodes l img.Seen ∧
      ∀ v, v ∈ (l.map fun n => vertexOf n.1.nodeId).foldl insert ∅ ↔ g.Neighbour id v := by
  refine ⟨_, bind (h.runs_getEdgeNodes hid)
    (bind (h.runs_getEdgeNodes hid) pure), fun v => ?_⟩
  have hlocal := h.mem_collected (k := .localRelation) id v
  have hcentral := h.mem_collected (k := .centralRelation) id v
  rw [mem_foldl_insert, map_append, mem_append, map_map, map_map, List.mem_map, List.mem_map]
  constructor
  · rintro (hempty | hv | hv)
    · exact absurd hempty (notMem_empty v)
    · exact ⟨_, hlocal.1 hv⟩
    · exact ⟨_, hcentral.1 hv⟩
  · rintro ⟨k, hv⟩
    cases k with
    | localRelation => exact .inr (.inl (hlocal.2 hv))
    | centralRelation => exact .inr (.inr (hcentral.2 hv))

end

/-- The loop over the index: each id of the list adds the set of its neighbours. -/
theorem runs_adjacencyOf (h : Holds g img) (hfit : NodesFit g) (hdist : g.DistinctVertices) :
    ∀ (l : List ByteString) (adj : AdjacencyMap), (∀ id ∈ l, id ∈ g.ids) → l.Nodup →
    (∀ id ∈ l, vertex id ∉ adj) →
    ∃ adj', Runs img.Seen (adjacencyOf l adj) adj' img.Seen ∧
      (∀ u, u ∈ adj' ↔ u ∈ adj ∨ ∃ id ∈ l, vertex id = u) ∧
      ∀ u v, v ∈ adj'.row u ↔ v ∈ adj.row u ∨ ∃ id ∈ l, vertex id = u ∧ g.Neighbour id v
  | [], adj, _, _, _ => ⟨adj, pure, fun u => by simp, fun u v => by simp⟩
  | id :: l, adj, hl, hnodup, hnew => by
    have hid := hl id mem_cons_self
    obtain ⟨neighbours, hrun, hneigh⟩ := h.runs_getAllEdgeNodes hid
    have hkey : vertexOf (img.handle g id).nodeId = vertex id := by
      rw [vertex, ← h.nodes.number id hid]
      rfl
    rw [nodup_cons] at hnodup
    obtain ⟨adj', hrest, hkeys, hrows⟩ := runs_adjacencyOf h hfit hdist l
      (adj.insert (vertex id) ((neighbours.map fun n => vertexOf n.1.nodeId).foldl insert ∅))
      (fun id' hid' => hl id' (mem_cons_of_mem _ hid')) hnodup.2 (by
        intro id' hid' hmem
        rw [Std.TreeMap.mem_insert] at hmem
        rcases hmem with heq | hmem
        · have hsame := hdist id hid id' (hl id' (mem_cons_of_mem _ hid'))
            (Std.compare_eq_iff_eq.1 heq)
          exact hnodup.1 (hsame ▸ hid')
        · exact hnew id' (mem_cons_of_mem _ hid') hmem)
    have hget := h.nodes.seen_get hfit id
    rw [if_pos hid] at hget
    refine ⟨adj', ?_, fun u => ?_, fun u v => ?_⟩
    · refine bind hget (bind hrun ?_)
      dsimp only
      rw [hkey, if_neg (hnew id mem_cons_self)]
      exact hrest
    · rw [hkeys, Std.TreeMap.mem_insert, Std.compare_eq_iff_eq]
      simp only [mem_cons, exists_eq_or_imp]
      tauto
    · rw [hrows, row_insert]
      simp only [mem_cons, exists_eq_or_imp]
      by_cases hu : vertex id = u
      · have hempty : v ∉ adj.row u := by
          intro hv
          exact hnew id mem_cons_self (hu ▸ mem_of_edge hv)
        rw [if_pos hu, hneigh]
        simp only [hu, hempty, true_and, false_or]
      · simp only [hu, if_false, false_and, false_or]

/-- **`getAdjacencyList()`**: the indexed nodes, each with its neighbours. -/
theorem runs_getAdjacencyList (h : Holds g img) (hfit : NodesFit g) (hdist : g.DistinctVertices)
    (o : KeyOrder) :
    ∃ adj, Runs img.Seen (getAdjacencyList o) adj img.Seen ∧
      (∀ u, u ∈ adj ↔ ∃ id ∈ g.ids, vertex id = u) ∧
      ∀ u v, v ∈ adj.row u ↔ ∃ k, g.Arc k u v ∨ g.Arc k v u := by
  have hkeys : ∀ id, id ∈ o.order img.mem.nodeIndex.keys ↔ id ∈ g.ids := by
    intro id
    rw [(o.perm _).mem_iff, Std.TreeMap.mem_keys, mem_iff_isSome_getElem?, h.nodes.index]
    split_ifs with hid
    · simp [hid]
    · simp [hid]
  have hnodup : (o.order img.mem.nodeIndex.keys).Nodup :=
    (o.perm _).nodup_iff.2 nodup_keys
  obtain ⟨adj, hrun, hmem, hrow⟩ := h.runs_adjacencyOf hfit hdist _ ∅
    (fun id hid => (hkeys id).1 hid) hnodup fun id _ => not_mem_emptyc
  refine ⟨adj, bind seen_memory hrun, fun u => ?_, fun u v => ?_⟩
  · rw [hmem]
    simp only [hkeys]
    exact or_iff_right not_mem_emptyc
  · rw [hrow, ← exists_neighbour]
    simp only [hkeys]
    exact or_iff_right (notMem_empty v)

end Holds

/-! ## The two readings -/

/-- `v` is next to `u` in the undirected union of two adjacency maps. -/
def Adjacent (localAdj centralAdj : AdjacencyMap) (u v : Long) : Prop :=
  v ∈ localAdj.row u ∨ v ∈ centralAdj.row u ∨ u ∈ localAdj.row v ∨ u ∈ centralAdj.row v

/-- The walk and the two scans return, the keys of the walk are the indexed nodes, its sets are
those of the undirected union of the scans, and the distribution map has their sizes. -/
def AdjacencyAgrees (o : KeyOrder) (s : Store) : Prop :=
  ∃ (adj localAdj centralAdj : AdjacencyMap) (dist : Std.TreeMap Long Nat),
    (getAdjacencyList o).run' s = some adj ∧
    (getAdjacencyListOf .localRelation).run' s = some localAdj ∧
    (getAdjacencyListOf .centralRelation).run' s = some centralAdj ∧
    (getDistributionMap o).run' s = some dist ∧
    (∀ u, u ∈ adj ↔ ∃ id ∈ s.mem.nodeIndex, stol id = some u) ∧
    (∀ u v, v ∈ adj.row u ↔ Adjacent localAdj centralAdj u v) ∧
    ∀ u ∈ adj, dist[u]? = some {v | Adjacent localAdj centralAdj u v}.ncard

/-- The decimal text of a number below `2 ^ 32`. -/
def Canonical (id : ByteString) : Prop := ∃ m < 2 ^ 32, id = decimal m

theorem Canonical.stol_eq {id : ByteString} (h : Canonical id) : stol id = some (vertex id) := by
  obtain ⟨m, hm, rfl⟩ := h
  have hnum : numberOf (decimal m) = m := by
    rw [numberOf, stoul_decimal (by omega), Option.getD_some, u32_of_lt hm]
  conv_lhs => rw [← hnum]
  exact stol_decimal_vertex _

theorem Canonical.vertex_inj {id id' : ByteString} (h : Canonical id) (h' : Canonical id')
    (heq : vertex id = vertex id') : id = id' := by
  obtain ⟨m, hm, rfl⟩ := h
  obtain ⟨m', hm', rfl⟩ := h'
  have hnum := vertexOf_inj (numberOf_lt _) (numberOf_lt _) heq
  rw [numberOf, numberOf, stoul_decimal (by omega), stoul_decimal (by omega), Option.getD_some,
    Option.getD_some, u32_of_lt hm, u32_of_lt hm'] at hnum
  rw [hnum]

theorem distinctVertices {g : Log} (h : ∀ id ∈ g.ids, Canonical id) : g.DistinctVertices :=
  fun id hid id' hid' => (h id hid).vertex_inj (h id' hid')

/-- The node blocks have addresses below `2 ^ 32` and the relation files less than `2 ^ 31`
bytes. -/
structure ScansWhole (g : Log) : Prop where
  nodes : NodesFit g
  relations : ∀ k, ((g.edges k).length + 1) * k.blockSize < 2 ^ 31

theorem ScansWhole.fits {g : Log} (h : ScansWhole g) : Fits g where
  nodes := h.nodes
  edges k := by
    have hk := h.relations k
    unfold EdgesFit
    rw [succ_mul] at hk
    omega

theorem ncard_row {s : VertexSet} {p : Long → Prop} (h : ∀ v, v ∈ s ↔ p v) :
    {v | p v}.ncard = s.size := by
  have hset : {v | p v} = (s.elems.toFinset : Set Long) := by
    ext v
    rw [Finset.mem_coe, mem_toFinset]
    exact (h v).symm
  rw [hset, Set.ncard_coe_finset, toFinset_card_of_nodup s.nodup]
  rfl

/-- **The two readings of a store agree.** -/
theorem Holds.adjacencyAgrees {g : Log} {img : Image} {s : Store} (h : Holds g img)
    (hs : img.Shown none s) (hsize : ScansWhole g) (hcanon : ∀ id ∈ g.ids, Canonical id)
    (o : KeyOrder) : AdjacencyAgrees o s := by
  have hdist := distinctVertices hcanon
  obtain ⟨adj, hwalk, hkeys, hrow⟩ := h.runs_getAdjacencyList hsize.nodes hdist o
  obtain ⟨localAdj, hlocal, hlocalRow⟩ :=
    (h.tells .localRelation).runs_getAdjacencyListOf_whole (hsize.relations .localRelation)
  obtain ⟨centralAdj, hcentral, hcentralRow⟩ :=
    (h.tells .centralRelation).runs_getAdjacencyListOf_whole (hsize.relations .centralRelation)
  have hagree : ∀ u v, v ∈ adj.row u ↔ Adjacent localAdj centralAdj u v := by
    intro u v
    rw [hrow, Adjacent, hlocalRow, hcentralRow, hlocalRow, hcentralRow]
    constructor
    · rintro ⟨k, harc⟩
      cases k with
      | localRelation => tauto
      | centralRelation => tauto
    · rintro (hc | hc | hc | hc)
      · exact ⟨_, .inl hc⟩
      · exact ⟨_, .inl hc⟩
      · exact ⟨_, .inr hc⟩
      · exact ⟨_, .inr hc⟩
  have hrun := hs.seen
  have hdistribution : Runs img.Seen (getDistributionMap o) adj.outDegrees img.Seen :=
    bind hwalk pure
  refine ⟨adj, localAdj, centralAdj, adj.outDegrees, hwalk.run'_eq hrun, hlocal.run'_eq hrun,
    hcentral.run'_eq hrun, hdistribution.run'_eq hrun, fun u => ?_, hagree, fun u hu => ?_⟩
  · rw [hkeys]
    constructor
    · rintro ⟨id, hid, rfl⟩
      refine ⟨id, ?_, (hcanon id hid).stol_eq⟩
      rw [mem_iff_isSome_getElem?, hs.memory, h.nodes.index, if_pos hid]
      rfl
    · rintro ⟨id, hid, hu⟩
      rw [mem_iff_isSome_getElem?, hs.memory, h.nodes.index] at hid
      split_ifs at hid with hmem
      · rw [(hcanon id hmem).stol_eq] at hu
        exact ⟨id, hmem, Option.some.inj hu⟩
      · cases hid
  · rw [getElem?_outDegrees, getElem?_eq_some_row hu, Option.map_some, ncard_row (hagree u)]

theorem mem_ids_addEdges {id : ByteString} : ∀ (ops : List EdgeOp) (g : Log),
    id ∈ (g.addEdges ops).ids ↔ id ∈ g.ids ∨ ∃ op ∈ ops, id = op.2.1 ∨ id = op.2.2
  | [], g => by simp [Log.addEdges]
  | op :: ops, g => by
    have ih := @mem_ids_addEdges id ops (g.addEdge op.1 op.2)
    have hadd : id ∈ (g.addEdge op.1 op.2).ids ↔ id = op.2.2 ∨ id = op.2.1 ∨ id ∈ g.ids := by
      change id ∈ ((g.addNode op.2.1).addNode op.2.2).ids ↔ _
      rw [mem_addNode, mem_addNode]
    rw [Log.addEdges, foldl_cons, ← Log.addEdges, ih, hadd]
    simp only [mem_cons, exists_eq_or_imp]
    rw [← or_assoc (a := id ∈ g.ids)]
    refine or_congr_left ?_
    clear ih hadd
    tauto

theorem canonical_ids {ops : List EdgeOp} (h : ∀ op ∈ ops, Canonical op.2.1 ∧ Canonical op.2.2) :
    ∀ id ∈ (ofOps ops).ids, Canonical id := by
  intro id hid
  rcases (mem_ids_addEdges ops empty).1 hid with hnil | ⟨op, hop, rfl | rfl⟩
  · exact absurd hnil not_mem_nil
  · exact (h op hop).1
  · exact (h op hop).2

/-- **The adjacency of a store, read both ways.** Any sequence of edges between canonical ids, in
files small enough for the scan, leaves a store in which the lists and the relation files tell the
same graph. -/
theorem run_addEdges_adjacency_agree (keySize : Nat)
    (rawType : RelationKind → Nat → Fin 100 → UInt8) (disk : Disk) (ops : List EdgeOp)
    (hacc : AllAccepted keySize ops) (hcanon : ∀ op ∈ ops, Canonical op.2.1 ∧ Canonical op.2.2)
    (hsize : ScansWhole (ofOps ops)) :
    ∃ s, addEdges ops (openTruncate keySize rawType disk) = some ((), s) ∧
      ∀ o, AdjacencyAgrees o s := by
  obtain ⟨img, s, hrun, hs, h⟩ := run_addEdges rawType disk hacc hsize.fits
  exact ⟨s, hrun, h.adjacencyAgrees hs hsize (canonical_ids hcanon)⟩

theorem tangle_canonical : ∀ op ∈ tangle, Canonical op.2.1 ∧ Canonical op.2.2 := by
  have h1 : Canonical (ascii "1") := ⟨1, by decide, by decide⟩
  have h2 : Canonical (ascii "2") := ⟨2, by decide, by decide⟩
  have h3 : Canonical (ascii "3") := ⟨3, by decide, by decide⟩
  simp only [tangle, forall_mem_cons, not_mem_nil, false_implies, implies_true, and_true]
  exact ⟨⟨h1, h2⟩, ⟨h2, h1⟩, ⟨h1, h1⟩, ⟨h2, h3⟩, h1, h2⟩

theorem tangle_scansWhole : ScansWhole (ofOps tangle) where
  nodes := tangle_fits.nodes
  relations k := by cases k <;> decide

theorem run_addEdges_adjacency_agree_tangle :
    ∃ s, addEdges tangle (openTruncate 6 (fun _ _ _ => 0) Disk.empty) =
      some ((), s) ∧ ∀ o, AdjacencyAgrees o s :=
  run_addEdges_adjacency_agree 6 (fun _ _ _ => 0) Disk.empty tangle tangle_accepted tangle_canonical
    tangle_scansWhole

/-! ## A file of more than two gigabytes -/

theorem ids_addEdges_of_mem : ∀ (ops : List EdgeOp) (g : Log),
    (∀ op ∈ ops, op.2.1 ∈ g.ids ∧ op.2.2 ∈ g.ids) → (g.addEdges ops).ids = g.ids
  | [], _, _ => rfl
  | op :: ops, g, h => by
    obtain ⟨h1, h2⟩ := h op mem_cons_self
    have hids : (g.addEdge op.1 op.2).ids = g.ids := by
      change ((g.addNode op.2.1).addNode op.2.2).ids = g.ids
      rw [addNode_of_mem h1, addNode_of_mem h2]
    rw [Log.addEdges, foldl_cons, ← Log.addEdges, ids_addEdges_of_mem ops, hids]
    exact fun op' hop' => by rw [hids]; exact h op' (mem_cons_of_mem _ hop')

def oneTwo : EdgeOp := (.localRelation, ascii "1", ascii "2")

theorem ids_replicate (n : Nat) :
    (Log.ofOps (replicate (n + 1) oneTwo)).ids = [ascii "1", ascii "2"] := by
  have hfirst : (empty.addEdge oneTwo.1 oneTwo.2).ids = [ascii "1", ascii "2"] := by decide
  rw [replicate_succ, Log.ofOps, Log.addEdges, foldl_cons, ← Log.addEdges,
    ids_addEdges_of_mem, hfirst]
  intro op hop
  rw [(mem_replicate.1 hop).2]
  decide

theorem edges_replicate (n : Nat) (k : RelationKind) :
    ((ofOps (replicate n oneTwo)).edges k).length =
      if k = .localRelation then n else 0 := by
  rw [length_edges_ofOps, edgeCount, countP_replicate]
  cases k <;> rfl

/-- One edge added 14128181 times makes a local file of 2147483664 bytes. -/
def repeated : List EdgeOp := replicate 14128181 oneTwo

theorem repeated_fits : Fits (ofOps repeated) where
  nodes := by
    intro i hi
    rw [repeated, ids_replicate 14128180] at hi
    change i < 2 at hi
    rw [NodeBlock.blockSize]
    omega
  edges k := by
    rw [EdgesFit, repeated, edges_replicate]
    cases k <;> simp only [RelationKind.blockSize] <;> decide

theorem repeated_accepted : AllAccepted 6 repeated := by
  intro op hop
  rw [(mem_replicate.1 hop).2]
  exact ⟨⟨by decide, by decide⟩, ⟨by decide, by decide⟩⟩

/-- **The scan misses a large file.** After 14128181 local edges from 1 to 2 the walk has 2 next
to 1, and the scan of the local file returns an empty map. -/
theorem scan_misses_repeated_edge :
    ∃ s, addEdges repeated (openTruncate 6 (fun _ _ _ => 0) Disk.empty) = some ((), s) ∧
      (getAdjacencyListOf .localRelation).run' s = some ∅ ∧
      ∀ o, (∃ adj, (getAdjacencyList o).run' s = some adj ∧ (2 : Long) ∈ adj.row 1) ∧
        ¬ AdjacencyAgrees o s := by
  obtain ⟨img, s, hrun, hs, h⟩ := run_addEdges (fun _ _ _ => 0) Disk.empty repeated_accepted
    repeated_fits
  have hids : (ofOps repeated).ids = [ascii "1", ascii "2"] := ids_replicate 14128180
  have hlen : ((ofOps repeated).edges .localRelation).length = 14128181 := by
    rw [repeated, edges_replicate, if_pos rfl]
  have hcen : ((ofOps repeated).edges .centralRelation).length = 0 := by
    rw [repeated, edges_replicate, if_neg (by simp)]
  have hdist : (ofOps repeated).DistinctVertices := by
    unfold DistinctVertices
    rw [hids]
    decide
  have hlocal := (h.tells .localRelation).runs_getAdjacencyListOf (repeated_fits.edges _)
  rw [seen, if_neg (by rw [hlen]; decide)] at hlocal
  obtain ⟨central, hcentral, hcentralRow⟩ :=
    (h.tells .centralRelation).runs_getAdjacencyListOf_whole (by rw [hcen]; decide)
  have hnone : ∀ u v, v ∉ central.row u := by
    intro u v hv
    obtain ⟨e, he, -⟩ := (hcentralRow u v).1 hv
    rw [length_eq_zero_iff.1 hcen] at he
    exact not_mem_nil he
  have hedge : oneTwo.2 ∈ (ofOps repeated).edges .localRelation := by
    rw [ofOps, edges_addEdges]
    refine mem_append_right _ (mem_map_of_mem (List.mem_filter.2 ⟨?_, rfl⟩))
    exact mem_replicate.2 ⟨by omega, rfl⟩
  refine ⟨s, hrun, hlocal.run'_eq hs.seen, fun o => ?_⟩
  obtain ⟨adj, hwalk, -, hrow⟩ := h.runs_getAdjacencyList repeated_fits.nodes hdist o
  have hmem : (2 : Long) ∈ adj.row 1 :=
    (hrow 1 2).2 ⟨.localRelation, .inl ⟨oneTwo.2, hedge, by decide, by decide⟩⟩
  refine ⟨⟨adj, hwalk.run'_eq hs.seen, hmem⟩, ?_⟩
  rintro ⟨adj', localAdj, centralAdj, dist, hadj, hloc, hcent, -, -, hagree, -⟩
  rw [hwalk.run'_eq hs.seen] at hadj
  rw [hlocal.run'_eq hs.seen] at hloc
  rw [hcentral.run'_eq hs.seen] at hcent
  cases hadj
  cases hloc
  cases hcent
  rcases (hagree 1 2).1 hmem with hc | hc | hc | hc
  · exact notMem_empty _ hc
  · exact hnone _ _ hc
  · exact notMem_empty _ hc
  · exact hnone _ _ hc

end JasmineGraph.NativeStore
