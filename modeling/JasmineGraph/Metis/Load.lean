import JasmineGraph.Bytes.Text
import JasmineGraph.MultiMap

/-!
# Loading a graph for Metis: `loadDataSet`, `constructMetisFormat`, `reformatDataSet`

The first half of `MetisPartitioner` (`partitioner/local/MetisPartitioner.cpp`): an edge list is read
line by line into `graphEdgeMap`; if its vertices are not consecutive numbers, the file is rewritten
with consecutive ids and read again.

Both readers run the same loop. `splitter` is taken from the first line; the loop ends at the first
empty `line`, and lines of splitters only are passed over. `std::getline` on a stream that is not
good leaves `line` as it is. The readers take a number of turns, and `none` stands for a loop that
is still running then as well as for the exceptions of `std::stoi` and for the splitter that is not
initialised.

`idx_t` and `int` counters are numbers; the file `grf` that `constructMetisFormat` writes for Metis
is left out.
-/

namespace JasmineGraph.Metis

open Bytes MultiMap List Option Std.TreeMap

/-! ## The reading loop -/

/-- A `std::ifstream`: what is left to read, and whether its state is good. -/
structure TextIn where
  rest : List UInt8
  good : Bool

def getline (input : TextIn) (line : List UInt8) : TextIn × List UInt8 :=
  if input.good then
    match input.rest.dropWhile (· ≠ 10) with
    | [] => (⟨[], false⟩, input.rest)
    | _ :: rest => (⟨rest, true⟩, input.rest.takeWhile (· ≠ 10))
  else (input, line)

def splitterOf (line : List UInt8) : Option UInt8 :=
  if 32 ∈ line then some 32 else if 9 ∈ line then some 9 else if 44 ∈ line then some 44 else none

/-- The inner loop, which passes over lines of splitters only. -/
def skipBlank (splitter : UInt8) : Nat → TextIn × List UInt8 → Option (TextIn × List UInt8)
  | 0, _ => none
  | turns + 1, (input, line) =>
    if line ≠ [] ∧ ∀ b ∈ line, b = splitter then skipBlank splitter turns (getline input line)
    else some (input, line)

def readLoop (splitter : UInt8) : Nat → TextIn × List UInt8 → Option (List (List UInt8))
  | 0, _ => none
  | turns + 1, (input, line) =>
    if line = [] then some []
    else do
      let next ← skipBlank splitter turns (getline input line)
      let lines ← readLoop splitter turns next
      some (line :: lines)

/-- `std::getline(stream, vertexOne, splitter); stream >> vertexTwo;` -/
def parseLine (splitter : UInt8) (line : List UInt8) : Option (Int × Int) := do
  let vertexOne := line.takeWhile (· ≠ splitter)
  let vertexTwo :=
    (((line.dropWhile (· ≠ splitter)).drop 1).dropWhile isSpace).takeWhile (! isSpace ·)
  let firstVertex ← stoi vertexOne
  let secondVertex ← stoi vertexTwo
  some (firstVertex, secondVertex)

def readEdges (turns : Nat) (file : List UInt8) : Option (List (Int × Int)) :=
  match getline ⟨file, true⟩ [] with
  | (_, []) => some []
  | (input, line) => do
    let splitter ← splitterOf line
    let lines ← readLoop splitter turns (input, line)
    lines.mapM (parseLine splitter)

/-! ## The partitioner -/

inductive GraphType where
  | GRAPH_TYPE_NORMAL
  | GRAPH_TYPE_NORMAL_REFORMATTED
  | GRAPH_TYPE_RDF
deriving DecidableEq

/-- What a `MetisPartitioner` knows of the graph. -/
structure MetisPartitioner where
  edgeCount : Nat := 0
  edgeCountForMetis : Nat := 0
  largestVertex : Int := 0
  vertexCount : Nat := 0
  zeroflag : Bool := false
  graphType : GraphType := .GRAPH_TYPE_NORMAL
  /-- `std::numeric_limits<int>::max()` at first. -/
  smallestVertex : Int := 2 ^ 31 - 1
  graphStorageMap : Std.TreeMap Int (List Int) := ∅
  graphEdgeMap : Std.TreeMap Int (List Int) := ∅
  vertexToIDMap : Std.TreeMap Int Int := ∅
  idToVertexMap : Std.TreeMap Int Int := ∅

namespace MetisPartitioner

/-- The body of the loop of `loadDataSet`. -/
def loadEdge (this : MetisPartitioner) (edge : Int × Int) : MetisPartitioner :=
  let firstVertex := edge.1
  let secondVertex := edge.2
  let firstEdgeSet := this.graphStorageMap.getD firstVertex []
  let newVertex := firstEdgeSet = []
  let newEdge := secondVertex ∉ firstEdgeSet
  let firstEdgeSet := if newEdge then firstEdgeSet ++ [secondVertex] else firstEdgeSet
  let graphStorageMap := this.graphStorageMap.insert firstVertex firstEdgeSet
  let secondEdgeSet := graphStorageMap.getD secondVertex []
  let newSecondVertex := secondEdgeSet = []
  let secondEdgeSet :=
    if firstVertex ∉ secondEdgeSet then secondEdgeSet ++ [firstVertex] else secondEdgeSet
  { this with
    zeroflag := this.zeroflag || firstVertex == 0 || secondVertex == 0
    vertexCount := this.vertexCount + (if newVertex then 1 else 0) + if newSecondVertex then 1 else 0
    edgeCount := this.edgeCount + 1
    edgeCountForMetis := this.edgeCountForMetis + if newEdge then 1 else 0
    graphStorageMap := graphStorageMap.insert secondVertex secondEdgeSet
    graphEdgeMap := append this.graphEdgeMap firstVertex [secondVertex]
    largestVertex := max (max this.largestVertex firstVertex) secondVertex
    smallestVertex := min (min this.smallestVertex firstVertex) secondVertex }

def loadDataSet (turns : Nat) (file : List UInt8) (this : MetisPartitioner) :
    Option MetisPartitioner := do
  let edges ← readEdges turns file
  some (edges.foldl loadEdge this)

/-- A vertex below the largest and above the smallest has no edge. -/
def HasGap (this : MetisPartitioner) : Prop :=
  ∃ vertexNum ∈ List.range (this.largestVertex.toNat + 1),
    (vertexNum : Int) ≤ this.largestVertex ∧ this.smallestVertex < vertexNum ∧
      this.graphStorageMap.getD vertexNum [] = []

instance (this : MetisPartitioner) : Decidable this.HasGap :=
  inferInstanceAs (Decidable (∃ _ ∈ _, _))

/-- The result is `false` where the source returns 0. -/
def constructMetisFormat (this : MetisPartitioner) (graph_type : GraphType) :
    MetisPartitioner × Bool :=
  let this := { this with graphType := graph_type }
  if this.HasGap then
    ({ this with
        vertexCount := 0
        edgeCount := 0
        edgeCountForMetis := 0
        graphEdgeMap := ∅
        graphStorageMap := ∅
        smallestVertex := 2 ^ 31 - 1
        largestVertex := 0
        zeroflag := false }, false)
  else (this, true)

/-- The two maps of `reformatDataSet`, its counter and the edges of the file it writes. -/
structure Ids where
  vertexToIDMap : Std.TreeMap Int Int
  idToVertexMap : Std.TreeMap Int Int
  idCounter : Int
  written : List (Int × Int)

/-- A vertex that has no id yet gets the next one. -/
def Ids.register (ids : Ids) (vertex : Int) : Ids :=
  if vertex ∈ ids.vertexToIDMap then ids
  else { ids with
    vertexToIDMap := ids.vertexToIDMap.insert vertex ids.idCounter
    idToVertexMap := ids.idToVertexMap.insert ids.idCounter vertex
    idCounter := ids.idCounter + 1 }

/-- The body of the loop of `reformatDataSet`. -/
def Ids.reformatEdge (ids : Ids) (edge : Int × Int) : Ids :=
  let ids := (ids.register edge.1).register edge.2
  { ids with
    written := ids.written ++ [(ids.vertexToIDMap.getD edge.1 0, ids.vertexToIDMap.getD edge.2 0)] }

def lineOf (splitter : UInt8) (edge : Int × Int) : List UInt8 :=
  decimalInt edge.1 ++ splitter :: decimalInt edge.2

/-- An edge list. -/
def render (splitter : UInt8) (edges : List (Int × Int)) : List UInt8 :=
  edges.flatMap fun edge => lineOf splitter edge ++ [10]

def reformatDataSet (turns : Nat) (file : List UInt8) (this : MetisPartitioner) :
    Option (MetisPartitioner × List UInt8) := do
  let edges ← readEdges turns file
  let ids := edges.foldl Ids.reformatEdge ⟨this.vertexToIDMap, this.idToVertexMap, 1, []⟩
  some ({ this with
    vertexToIDMap := ids.vertexToIDMap
    idToVertexMap := ids.idToVertexMap }, render 32 ids.written)

/-- The calls with which an upload loads its graph. -/
def upload (turns : Nat) (file : List UInt8) : Option MetisPartitioner := do
  let partitioner ← loadDataSet turns file {}
  let (partitioner, result) := partitioner.constructMetisFormat .GRAPH_TYPE_NORMAL
  if result then some partitioner
  else
    let (partitioner, reformattedFile) ← reformatDataSet turns file partitioner
    let partitioner ← loadDataSet turns reformattedFile partitioner
    some (partitioner.constructMetisFormat .GRAPH_TYPE_NORMAL_REFORMATTED).1

end MetisPartitioner

/-! ## Reading an edge list -/

section Reading

variable {splitter : UInt8} {edges : List (Int × Int)}

open MetisPartitioner (lineOf render)

/-- The value of an `int`. -/
def IsInt (n : Int) : Prop := -2 ^ 31 ≤ n ∧ n < 2 ^ 31

instance (n : Int) : Decidable (IsInt n) := inferInstanceAs (Decidable (_ ∧ _))

/-- A space, a tab or a comma. -/
def IsSplitter (b : UInt8) : Prop := b = 32 ∨ b = 9 ∨ b = 44

theorem getline_terminated {line : List UInt8} (hline : 10 ∉ line) (rest previous : List UInt8) :
    getline ⟨line ++ 10 :: rest, true⟩ previous = (⟨rest, true⟩, line) := by
  have hall : ∀ b ∈ line, decide (b ≠ 10) = true := fun b hb =>
    decide_eq_true fun h => hline (h ▸ hb)
  rw [getline, dropWhile_append_of_pos hall, takeWhile_append_of_pos hall]
  simp

theorem notMem_lineOf {b : UInt8} (hb : isDigit b = false) (hminus : b ≠ 45) (hne : b ≠ splitter)
    (edge : Int × Int) : b ∉ lineOf splitter edge := by
  rw [lineOf, mem_append, mem_cons, not_or, not_or]
  exact ⟨notMem_decimalInt hb hminus _, hne, notMem_decimalInt hb hminus _⟩

variable (hs : IsSplitter splitter)

include hs

theorem splitter_facts : isDigit splitter = false ∧ splitter ≠ 45 ∧ (10 : UInt8) ≠ splitter := by
  rcases hs with rfl | rfl | rfl <;> decide

theorem lineFeed_notMem_lineOf (edge : Int × Int) : 10 ∉ lineOf splitter edge :=
  notMem_lineOf rfl (by decide) (splitter_facts hs).2.2 edge

theorem splitterOf_lineOf (edge : Int × Int) : splitterOf (lineOf splitter edge) = some splitter := by
  have hmem : splitter ∈ lineOf splitter edge :=
    mem_append_right _ mem_cons_self
  unfold splitterOf
  rcases hs with rfl | rfl | rfl
  · rw [if_pos hmem]
  · rw [if_neg (notMem_lineOf rfl (by decide) (by decide) edge), if_pos hmem]
  · rw [if_neg (notMem_lineOf rfl (by decide) (by decide) edge),
      if_neg (notMem_lineOf rfl (by decide) (by decide) edge), if_pos hmem]

theorem parseLine_lineOf {edge : Int × Int} (h : IsInt edge.1 ∧ IsInt edge.2) :
    parseLine splitter (lineOf splitter edge) = some edge := by
  obtain ⟨hdigit, hminus, -⟩ := splitter_facts hs
  have hne : ∀ b ∈ decimalInt edge.1, decide (b ≠ splitter) = true := fun b hb =>
    decide_eq_true fun heq => notMem_decimalInt hdigit hminus edge.1 (heq ▸ hb)
  have hone : (lineOf splitter edge).takeWhile (· ≠ splitter) = decimalInt edge.1 := by
    rw [lineOf, takeWhile_append_of_pos hne]
    simp
  have htwo : ((lineOf splitter edge).dropWhile (· ≠ splitter)).drop 1 = decimalInt edge.2 := by
    rw [lineOf, dropWhile_append_of_pos hne]
    simp
  have hskip : (decimalInt edge.2).dropWhile isSpace = decimalInt edge.2 := by
    obtain ⟨b, bs, hb⟩ := exists_cons_of_ne_nil (decimalInt_ne_nil edge.2)
    have hspace : isSpace b = false := isSpace_of_mem_decimalInt (n := edge.2) (by simp [hb])
    rw [hb, dropWhile_cons_of_neg (by simp [hspace])]
  have htoken : (decimalInt edge.2).takeWhile (! isSpace ·) = decimalInt edge.2 := by
    refine takeWhile_eq_self_iff.2 fun b hb => ?_
    rw [isSpace_of_mem_decimalInt hb]
    rfl
  simp only [parseLine, hone, htwo, hskip, htoken, stoi_decimalInt h.1, stoi_decimalInt h.2,
    bind_eq_bind, bind_some]

omit hs in
theorem render_cons (splitter : UInt8) (edge : Int × Int) (edges : List (Int × Int)) :
    render splitter (edge :: edges) = lineOf splitter edge ++ 10 :: render splitter edges := by
  rw [render, flatMap_cons, append_assoc]
  rfl

theorem skipBlank_lineOf (turns : Nat) (input : TextIn) (edge : Int × Int) :
    skipBlank splitter (turns + 1) (input, lineOf splitter edge) =
      some (input, lineOf splitter edge) := by
  obtain ⟨b, bs, hb⟩ := exists_cons_of_ne_nil (decimalInt_ne_nil edge.1)
  have hmem : b ∈ decimalInt edge.1 := by simp [hb]
  refine if_neg fun h => ?_
  have heq : b = splitter := h.2 b (mem_append_left _ hmem)
  obtain ⟨hdigit, hminus, -⟩ := splitter_facts hs
  exact notMem_decimalInt hdigit hminus edge.1 (heq ▸ hmem)

section

variable {rest : List UInt8} (hend : ∀ previous, (getline ⟨rest, true⟩ previous).2 = [])

include hend

theorem readLoop_render (edges : List (Int × Int)) (previous : List UInt8) :
    (skipBlank splitter (edges.length + 1)
        (getline ⟨render splitter edges ++ rest, true⟩ previous)).bind
        (readLoop splitter (edges.length + 1)) =
      some (edges.map (lineOf splitter)) := by
  induction edges generalizing previous with
  | nil =>
    have hline := hend previous
    change (skipBlank splitter 1 (getline ⟨rest, true⟩ previous)).bind _ = _
    generalize getline ⟨rest, true⟩ previous = read at hline ⊢
    obtain ⟨input, line⟩ := read
    obtain rfl : line = [] := hline
    rfl
  | cons edge edges ih =>
    have hne : lineOf splitter edge ≠ [] := append_ne_nil_of_right_ne_nil _ (by simp)
    rw [render_cons, append_assoc, cons_append,
      getline_terminated (lineFeed_notMem_lineOf hs edge), length_cons,
      skipBlank_lineOf hs, bind_some, readLoop, if_neg hne, map_cons]
    have hloop := ih (lineOf splitter edge)
    obtain ⟨next, hnext, hrest⟩ := bind_eq_some_iff.1 hloop
    simp only [hnext, hrest, bind_eq_bind, bind_some]

theorem readEdges_render_append (hedges : ∀ e ∈ edges, IsInt e.1 ∧ IsInt e.2) :
    readEdges (edges.length + 1) (render splitter edges ++ rest) = some edges := by
  cases edges with
  | nil =>
    have hline := hend []
    change readEdges 1 rest = some []
    unfold readEdges
    generalize getline ⟨rest, true⟩ [] = read at hline ⊢
    obtain ⟨input, line⟩ := read
    obtain rfl : line = [] := hline
    rfl
  | cons edge edges =>
    have hne : lineOf splitter edge ≠ [] := append_ne_nil_of_right_ne_nil _ (by simp)
    have hloop := readLoop_render hs hend (edge :: edges) []
    have hget := getline_terminated (lineFeed_notMem_lineOf hs edge)
      (render splitter edges ++ rest) []
    rw [render_cons, append_assoc, cons_append, hget, length_cons, skipBlank_lineOf hs,
      bind_some] at hloop
    have hmap : ((edge :: edges).map (lineOf splitter)).mapM (parseLine splitter) =
        some (edge :: edges) := by
      rw [mapM_map, MapLoop.mapM_of_forall (r := id), List.map_id]
      exact fun e he => parseLine_lineOf hs (hedges e he)
    rw [readEdges, render_cons, append_assoc, cons_append, hget, length_cons]
    split
    · rename_i heq
      exact absurd (congrArg Prod.snd heq) hne
    · rename_i heq
      cases heq
      simp only [splitterOf_lineOf hs, hloop, hmap, bind_eq_bind, bind_some]

end

/-- **An edge list is read back.** -/
theorem readEdges_render (hedges : ∀ e ∈ edges, IsInt e.1 ∧ IsInt e.2) :
    readEdges (edges.length + 1) (render splitter edges) = some edges := by
  rw [← append_nil (render splitter edges)]
  exact readEdges_render_append hs (fun _ => rfl) hedges

/-- **An empty line ends the reading**: the edges behind it are not loaded. -/
theorem readEdges_emptyLine (hedges : ∀ e ∈ edges, IsInt e.1 ∧ IsInt e.2) (rest : List UInt8) :
    readEdges (edges.length + 1) (render splitter edges ++ 10 :: rest) = some edges :=
  readEdges_render_append hs (fun _ => rfl) hedges

omit hs in
/-- A file whose last line has no line feed: `line` keeps its value, and the loop goes on. -/
theorem readLoop_unterminated {line : List UInt8} (hline : ∃ b ∈ line, b ≠ splitter)
    (turns : Nat) : readLoop splitter turns (⟨[], false⟩, line) = none := by
  obtain ⟨b, hb, hne⟩ := hline
  have hnil : line ≠ [] := ne_nil_of_mem hb
  induction turns with
  | zero => rfl
  | succ turns ih =>
    have hget : getline ⟨[], false⟩ line = (⟨[], false⟩, line) := rfl
    rw [readLoop, if_neg hnil, hget]
    cases turns with
    | zero => rfl
    | succ turns =>
      have hskip : skipBlank splitter (turns + 1) (⟨[], false⟩, line) = some (⟨[], false⟩, line) :=
        if_neg fun h => hne (h.2 b hb)
      simp only [hskip, ih, bind_eq_bind, bind_some, bind_none]

end Reading

/-! ## What is loaded -/

/-- The vertices of an edge list. -/
def vertices (edges : List (Int × Int)) : Finset Int :=
  (edges.flatMap fun e => [e.1, e.2]).toFinset

theorem mem_vertices {edges : List (Int × Int)} {v : Int} :
    v ∈ vertices edges ↔ ∃ e ∈ edges, v = e.1 ∨ v = e.2 := by
  simp [vertices]

theorem vertices_concat (edges : List (Int × Int)) (e : Int × Int) :
    vertices (edges ++ [e]) = insert e.2 (insert e.1 (vertices edges)) := by
  ext v
  simp only [mem_vertices, Finset.mem_insert, mem_append]
  grind

namespace MetisPartitioner

section Load

variable {this : MetisPartitioner} {edges : List (Int × Int)}

/-- The maps and counters after the edges have been loaded. -/
structure Holds (edges : List (Int × Int)) (this : MetisPartitioner) : Prop where
  edgeCount : this.edgeCount = edges.length
  pairs : pairs this.graphEdgeMap = ↑edges
  storage : ∀ v, this.graphStorageMap.getD v [] ≠ [] ↔ v ∈ vertices edges
  largest : ∀ bound : Int, 0 ≤ bound → (∀ v ∈ vertices edges, v ≤ bound) →
    this.largestVertex ≤ bound
  smallest : ∀ bound : Int, bound ≤ 2 ^ 31 - 1 → (∀ v ∈ vertices edges, bound ≤ v) →
    bound ≤ this.smallestVertex

theorem getD_insert_ne_nil {m : Std.TreeMap Int (List Int)} {k v : Int} {l : List Int}
    (hl : l ≠ []) : (m.insert k l).getD v [] ≠ [] ↔ v = k ∨ m.getD v [] ≠ [] := by
  rw [getD_insert]
  by_cases h : k = v
  · rw [if_pos (Std.compare_eq_iff_eq.2 h)]
    exact iff_of_true hl (.inl h.symm)
  · rw [if_neg (mt Std.compare_eq_iff_eq.1 h), or_iff_right (Ne.symm h)]

theorem ite_append_ne_nil {l : List Int} {v : Int} : (if v ∉ l then l ++ [v] else l) ≠ [] := by
  split_ifs with h
  · exact ne_nil_of_mem h
  · simp

/-- **One line.** -/
theorem Holds.loadEdge (h : Holds edges this) (edge : Int × Int) :
    Holds (edges ++ [edge]) (this.loadEdge edge) where
  edgeCount := by
    rw [length_append, ← h.edgeCount]
    rfl
  pairs := by
    rw [← Multiset.coe_add, ← h.pairs]
    exact pairs_append this.graphEdgeMap edge.1 [edge.2]
  storage v := by
    have hstorage : (this.loadEdge edge).graphStorageMap.getD v [] ≠ [] ↔
        v = edge.2 ∨ v = edge.1 ∨ this.graphStorageMap.getD v [] ≠ [] := by
      rw [← getD_insert_ne_nil ite_append_ne_nil]
      exact getD_insert_ne_nil ite_append_ne_nil
    rw [hstorage, h.storage, vertices_concat, Finset.mem_insert, Finset.mem_insert]
  largest bound hbound hle := by
    rw [vertices_concat, Finset.forall_mem_insert, Finset.forall_mem_insert] at hle
    exact max_le (max_le (h.largest bound hbound hle.2.2) hle.2.1) hle.1
  smallest bound hbound hle := by
    rw [vertices_concat, Finset.forall_mem_insert, Finset.forall_mem_insert] at hle
    exact le_min (le_min (h.smallest bound hbound hle.2.2) hle.2.1) hle.1

structure Fresh (this : MetisPartitioner) : Prop where
  edgeCount : this.edgeCount = 0
  graphEdgeMap : this.graphEdgeMap = ∅
  graphStorageMap : this.graphStorageMap = ∅
  largestVertex : this.largestVertex = 0
  smallestVertex : this.smallestVertex = 2 ^ 31 - 1

theorem Fresh.holds (h : Fresh this) : Holds [] this where
  edgeCount := h.edgeCount
  pairs := by rw [h.graphEdgeMap]; rfl
  storage v := by simp [h.graphStorageMap, vertices]
  largest bound hbound _ := by rw [h.largestVertex]; exact hbound
  smallest bound hbound _ := by rw [h.smallestVertex]; exact hbound

theorem Holds.foldl_loadEdge {loaded : List (Int × Int)} (h : Holds loaded this)
    (edges : List (Int × Int)) : Holds (loaded ++ edges) (edges.foldl MetisPartitioner.loadEdge this) := by
  induction edges generalizing this loaded with
  | nil => rwa [append_nil]
  | cons edge edges ih =>
    rw [append_cons]
    exact ih (h.loadEdge edge)

theorem idMaps_foldl_loadEdge (edges : List (Int × Int)) (this : MetisPartitioner) :
    (edges.foldl loadEdge this).vertexToIDMap = this.vertexToIDMap ∧
      (edges.foldl loadEdge this).idToVertexMap = this.idToVertexMap := by
  induction edges generalizing this with
  | nil => exact ⟨rfl, rfl⟩
  | cons edge edges ih => exact ih (this.loadEdge edge)

end Load

/-! ## Consecutive ids -/

section Reformat

variable {ids : Ids} {V : Finset Int} {v w i : Int}

structure Ids.Valid (V : Finset Int) (ids : Ids) : Prop where
  keys : ∀ v, v ∈ ids.vertexToIDMap ↔ v ∈ V
  inverse : ∀ v i : Int, ids.vertexToIDMap[v]? = some i ↔ ids.idToVertexMap[i]? = some v
  range : ∀ i : Int, (∃ v, ids.idToVertexMap[i]? = some v) ↔ 1 ≤ i ∧ i < ids.idCounter
  positive : 1 ≤ ids.idCounter

theorem Ids.Valid.getD (h : ids.Valid V) (hv : v ∈ V) :
    ids.vertexToIDMap[v]? = some (ids.vertexToIDMap.getD v 0) := by
  have hmem := (h.keys v).2 hv
  rw [getD_eq_getD_getElem?]
  cases hget : ids.vertexToIDMap[v]? with
  | none =>
    rw [mem_iff_isSome_getElem?, hget] at hmem
    cases hmem
  | some i => rfl

theorem Ids.Valid.register (h : ids.Valid V) (v : Int) : (ids.register v).Valid (insert v V) ∧
      ∀ w ∈ V, (ids.register v).vertexToIDMap.getD w 0 = ids.vertexToIDMap.getD w 0 := by
  unfold Ids.register
  split_ifs with hv
  · rw [h.keys] at hv
    rw [Finset.insert_eq_of_mem hv]
    exact ⟨h, fun _ _ => rfl⟩
  · have hnone : ids.vertexToIDMap[v]? = none := Std.TreeMap.getElem?_eq_none hv
    have hfree (w : Int) : ids.idToVertexMap[ids.idCounter]? ≠ some w := fun hw =>
      lt_irrefl _ ((h.range _).1 ⟨w, hw⟩).2
    rw [h.keys] at hv
    refine ⟨⟨fun w => ?_, fun w i => ?_, fun i => ?_, ?_⟩, fun w hw => ?_⟩
    · rw [Std.TreeMap.mem_insert, h.keys, Finset.mem_insert, Std.compare_eq_iff_eq, eq_comm]
    · simp only [Std.TreeMap.getElem?_insert, Std.compare_eq_iff_eq]
      split_ifs with hvw hci hci
      · simp [hvw, hci]
      · subst hvw
        rw [← h.inverse, hnone]
        simp [hci]
      · rw [← hci, h.inverse]
        exact iff_of_false (hfree w) (by simpa using hvw)
      · exact h.inverse w i
    · simp only [Std.TreeMap.getElem?_insert, Std.compare_eq_iff_eq]
      split_ifs with hci
      · have := h.positive
        exact iff_of_true ⟨v, rfl⟩ (by omega)
      · rw [h.range]
        omega
    · exact le_trans h.positive (Int.le_add_one (le_refl _))
    · have hne : v ≠ w := fun heq => hv (heq ▸ hw)
      rw [getD_insert, if_neg (mt Std.compare_eq_iff_eq.1 hne)]

/-- The maps after some edges have been rewritten. -/
structure Ids.Rewrites (edges : List (Int × Int)) (ids : Ids) : Prop where
  valid : ids.Valid (vertices edges)
  written : ids.written =
    edges.map fun e => (ids.vertexToIDMap.getD e.1 0, ids.vertexToIDMap.getD e.2 0)

theorem Ids.Rewrites.reformatEdge {edges : List (Int × Int)} (h : ids.Rewrites edges)
    (edge : Int × Int) : (ids.reformatEdge edge).Rewrites (edges ++ [edge]) := by
  obtain ⟨hvalid, hkept⟩ := h.valid.register edge.1
  obtain ⟨hvalid', hkept'⟩ := hvalid.register edge.2
  refine ⟨?_, ?_⟩
  · rw [vertices_concat]
    exact { hvalid' with }
  · have hwritten : ((ids.register edge.1).register edge.2).written = ids.written := by
      simp only [Ids.register]
      split_ifs <;> rfl
    have hsame {w : Int} (hw : w ∈ vertices edges) :
        ((ids.register edge.1).register edge.2).vertexToIDMap.getD w 0 =
          ids.vertexToIDMap.getD w 0 := by
      rw [hkept' w (Finset.mem_insert_of_mem hw), hkept w hw]
    simp only [Ids.reformatEdge, hwritten, h.written, map_append]
    congr 1
    refine map_congr_left fun e he => ?_
    rw [hsame (mem_vertices.2 ⟨e, he, .inl rfl⟩), hsame (mem_vertices.2 ⟨e, he, .inr rfl⟩)]

theorem Ids.Rewrites.foldl_reformatEdge {done : List (Int × Int)} (h : ids.Rewrites done)
    (edges : List (Int × Int)) : (edges.foldl Ids.reformatEdge ids).Rewrites (done ++ edges) := by
  induction edges generalizing ids done with
  | nil => rwa [append_nil]
  | cons edge edges ih =>
    rw [append_cons]
    exact ih (h.reformatEdge edge)

theorem Ids.rewrites_nil : Ids.Rewrites [] ⟨∅, ∅, 1, []⟩ := by
  refine ⟨⟨fun v => ?_, fun v i => ?_, fun i => ?_, le_refl 1⟩, rfl⟩
  · simp [vertices]
  · simp
  · simp

theorem Ids.Valid.idCounter_le (h : ids.Valid V) : ids.idCounter ≤ V.card + 1 := by
  have hmem (i : Int) (hi : i ∈ Finset.Ico 1 ids.idCounter) :
      ids.idToVertexMap[i]? = some (ids.idToVertexMap.getD i 0) := by
    obtain ⟨v, hv⟩ := (h.range i).2 (Finset.mem_Ico.1 hi)
    rw [getD_eq_getD_getElem?, hv, getD_some]
  have hcard : (Finset.Ico 1 ids.idCounter).card ≤ V.card := by
    refine Finset.card_le_card_of_injOn (fun i => ids.idToVertexMap.getD i 0) ?_ ?_
    · intro i hi
      have hv := (h.inverse _ i).2 (hmem i hi)
      rw [Finset.mem_coe, ← h.keys, mem_iff_isSome_getElem?, hv]
      rfl
    · intro i hi j hj heq
      have hi := (h.inverse _ i).2 (hmem i hi)
      have hj := (h.inverse _ j).2 (hmem j hj)
      dsimp only at heq
      rw [heq, hj] at hi
      exact (some.inj hi).symm
  rw [Int.card_Ico] at hcard
  omega

theorem Ids.Rewrites.mem_vertices_written {edges : List (Int × Int)} (h : ids.Rewrites edges) :
    i ∈ vertices ids.written ↔ 1 ≤ i ∧ i < ids.idCounter := by
  have hids : i ∈ vertices ids.written ↔ ∃ v ∈ vertices edges, ids.vertexToIDMap.getD v 0 = i := by
    simp only [mem_vertices, h.written, List.mem_map]
    grind
  rw [hids, ← h.valid.range]
  constructor
  · rintro ⟨v, hv, rfl⟩
    exact ⟨v, (h.valid.inverse v _).1 (h.valid.getD hv)⟩
  · rintro ⟨v, hv⟩
    have hget := (h.valid.inverse v i).2 hv
    refine ⟨v, ?_, ?_⟩
    · rw [← h.valid.keys, mem_iff_isSome_getElem?, hget]
      rfl
    · rw [getD_eq_getD_getElem?, hget, getD_some]

end Reformat

/-! ## The upload -/

section Upload

variable {splitter : UInt8} {edges : List (Int × Int)} {this : MetisPartitioner}

def idOf (this : MetisPartitioner) (vertex : Int) : Int :=
  if this.graphType = .GRAPH_TYPE_NORMAL_REFORMATTED then this.vertexToIDMap.getD vertex 0
  else vertex

/-- `idToVertexMap[id]` for a reformatted graph. -/
def actual (this : MetisPartitioner) (id : Int) : Int :=
  if this.graphType = .GRAPH_TYPE_NORMAL_REFORMATTED then this.idToVertexMap.getD id 0 else id

/-- The edges are loaded, under ids that can be taken back. -/
structure Loaded (edges : List (Int × Int)) (this : MetisPartitioner) : Prop where
  edgeCount : this.edgeCount = edges.length
  pairs : pairs this.graphEdgeMap = ↑(edges.map fun e => (this.idOf e.1, this.idOf e.2))
  actual_idOf : ∀ v ∈ vertices edges, this.actual (this.idOf v) = v

theorem Holds.loaded (h : Holds edges this) (htype : this.graphType = .GRAPH_TYPE_NORMAL) :
    Loaded edges this where
  edgeCount := h.edgeCount
  pairs := by
    have hid : ∀ v, this.idOf v = v := fun v => if_neg (by rw [htype]; nofun)
    simp only [hid, h.pairs]
    congr 1
    exact (List.map_id edges).symm
  actual_idOf v _ := by
    simp [actual, idOf, htype]

theorem Holds.loaded_reformatted {ids : Ids} (hids : ids.Rewrites edges)
    (h : Holds ids.written this) (htype : this.graphType = .GRAPH_TYPE_NORMAL_REFORMATTED)
    (htoID : this.vertexToIDMap = ids.vertexToIDMap)
    (htoVertex : this.idToVertexMap = ids.idToVertexMap) : Loaded edges this where
  edgeCount := by rw [h.edgeCount, hids.written, length_map]
  pairs := by
    have hid : ∀ v, this.idOf v = ids.vertexToIDMap.getD v 0 := fun v => by
      rw [idOf, if_pos htype, htoID]
    simp only [hid, h.pairs, ← hids.written]
  actual_idOf v hv := by
    have hget := (hids.valid.inverse v _).1 (hids.valid.getD hv)
    rw [actual, idOf, if_pos htype, if_pos htype, htoID, htoVertex,
      getD_eq_getD_getElem?, hget, getD_some]

theorem Holds.not_hasGap {ids : Ids} (hids : ids.Rewrites edges) (h : Holds ids.written this) :
    ¬ this.HasGap := by
  rintro ⟨vertexNum, -, hle, hlt, hnil⟩
  refine (h.storage vertexNum).2 ?_ hnil
  rw [hids.mem_vertices_written]
  have hsmallest := h.smallest 1 (by norm_num) fun i hi => (hids.mem_vertices_written.1 hi).1
  have hlargest := h.largest (ids.idCounter - 1) (by have := hids.valid.positive; omega)
    fun i hi => by have := (hids.mem_vertices_written.1 hi).2; omega
  omega

theorem constructMetisFormat_of_not_hasGap (h : ¬ this.HasGap) (graph_type : GraphType) :
    this.constructMetisFormat graph_type = ({ this with graphType := graph_type }, true) :=
  if_neg h

theorem constructMetisFormat_of_hasGap (h : this.HasGap) (graph_type : GraphType) :
    ∃ reset, this.constructMetisFormat graph_type = (reset, false) ∧ Fresh reset ∧
      reset.vertexToIDMap = this.vertexToIDMap ∧ reset.idToVertexMap = this.idToVertexMap :=
  ⟨_, if_pos h, ⟨rfl, rfl, rfl, rfl, rfl⟩, rfl, rfl⟩

/-- **An edge list is loaded**, under its own ids or under consecutive ones. -/
theorem upload_spec (hs : IsSplitter splitter) (hedges : ∀ e ∈ edges, IsInt e.1 ∧ IsInt e.2)
    (hcard : (vertices edges).card < 2 ^ 31) :
    ∃ this, upload (edges.length + 1) (render splitter edges) = some this ∧ Loaded edges this := by
  have hempty : Fresh {} := ⟨rfl, rfl, rfl, rfl, rfl⟩
  have hholds : Holds edges (edges.foldl loadEdge {}) := hempty.holds.foldl_loadEdge edges
  by_cases hgap : (edges.foldl loadEdge {}).HasGap
  · obtain ⟨reset, hreset, hfresh, htoID, htoVertex⟩ :=
      constructMetisFormat_of_hasGap hgap .GRAPH_TYPE_NORMAL
    set ids := edges.foldl Ids.reformatEdge ⟨∅, ∅, 1, []⟩ with hids
    have hrewrites : ids.Rewrites edges := Ids.rewrites_nil.foldl_reformatEdge edges
    have hints : ∀ e ∈ ids.written, IsInt e.1 ∧ IsInt e.2 := by
      have hint {i : Int} (hi : i ∈ vertices ids.written) : IsInt i := by
        have hrange := hrewrites.mem_vertices_written.1 hi
        have hle := hrewrites.valid.idCounter_le
        constructor <;> omega
      exact fun e he => ⟨hint (mem_vertices.2 ⟨e, he, .inl rfl⟩),
        hint (mem_vertices.2 ⟨e, he, .inr rfl⟩)⟩
    have hread : readEdges (edges.length + 1) (render 32 ids.written) = some ids.written := by
      have hlength : ids.written.length = edges.length := by
        rw [hrewrites.written, length_map]
      rw [← hlength]
      exact readEdges_render (.inl rfl) hints
    rw [(idMaps_foldl_loadEdge edges {}).1] at htoID
    rw [(idMaps_foldl_loadEdge edges {}).2] at htoVertex
    let mapped : MetisPartitioner := { reset with
      vertexToIDMap := ids.vertexToIDMap
      idToVertexMap := ids.idToVertexMap }
    have hmapped : Fresh mapped := { hfresh with }
    have hholds' : Holds ids.written (ids.written.foldl loadEdge mapped) :=
      hmapped.holds.foldl_loadEdge ids.written
    refine ⟨{ ids.written.foldl loadEdge mapped with
      graphType := .GRAPH_TYPE_NORMAL_REFORMATTED }, ?_, ?_⟩
    · simp only [upload, loadDataSet, reformatDataSet, readEdges_render hs hedges, hreset, htoID,
        htoVertex, ← hids, hread, bind_eq_bind, bind_some]
      exact congrArg some (congrArg Prod.fst
        (constructMetisFormat_of_not_hasGap (hholds'.not_hasGap hrewrites)
          .GRAPH_TYPE_NORMAL_REFORMATTED))
    · exact Holds.loaded_reformatted hrewrites { hholds' with } rfl (idMaps_foldl_loadEdge ids.written mapped).1
        (idMaps_foldl_loadEdge ids.written mapped).2
  · refine ⟨{ edges.foldl loadEdge {} with graphType := .GRAPH_TYPE_NORMAL }, ?_, ?_⟩
    · simp only [upload, loadDataSet, readEdges_render hs hedges, bind_eq_bind,
        bind_some, constructMetisFormat_of_not_hasGap hgap, if_true]
    · exact Holds.loaded { hholds with } rfl

end Upload

end MetisPartitioner

end JasmineGraph.Metis
