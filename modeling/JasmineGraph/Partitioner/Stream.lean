import JasmineGraph.Kafka.StreamHandler

/-!
# Placing a stream of edges: `Partitioner::addEdge`

The model of the streaming `Partitioner` (`partitioner/stream/Partitioner.cpp`) with its three
algorithms. `hashPartitioning` places the two ends by their ids. `fennelPartitioning` and
`ldgPartitioning` first pass over the partitions, and return from the loop at the first one that
knows both ends or seems to have the edge already; an edge that passes the loop goes to the
partitions with the best scores. The scores are doubles, of which only the positions of the maxima
are used, so `max_element` is a parameter: the two indexes of a call may be any.

The loop of `fennelPartitioning` runs over references. The one of `ldgPartitioning` runs over
copies, so the edge it adds there is added to a copy; and its last test looks for the second end
among the neighbours of the second end.
-/

namespace JasmineGraph.Partitioner

open Kafka List Function

variable {n : Nat}

/-- `spt::Algorithms`. -/
inductive Algorithms where
  | HASH
  | FENNEL
  | LDG
deriving DecidableEq

/-- A `Partitioner` with the algorithm it uses and the totals its scores are computed from. -/
structure StreamPartitioner (n : Nat) extends GraphPartitioner n where
  graphID : Int
  algorithmInUse : Algorithms
  totalVertices : Nat
  totalEdges : Nat

/-- How the loop over the partitions ends at one of them. -/
inductive LoopExit where
  /-- Both ends exist in the partition, which gets the edge. -/
  | bothExist
  | edgeExists
deriving DecidableEq

def firstExit (exit : Partition → Option LoopExit) (partitions : Fin n → Partition) :
    Option (Fin n × LoopExit) :=
  (finRange n).findSome? fun id => (exit (partitions id)).map fun e => (id, e)

def fennelExit (edge : VertexId × VertexId) (partition : Partition) : Option LoopExit :=
  if partition.isExist edge.1 ∧ partition.isExist edge.2 then some .bothExist
  else if edge.2 ∈ partition.getNeighbors edge.1 then some .edgeExists
  else if edge.1 ∈ partition.getNeighbors edge.2 then some .edgeExists
  else none

def ldgExit (edge : VertexId × VertexId) (partition : Partition) : Option LoopExit :=
  if partition.isExist edge.1 ∧ partition.isExist edge.2 then some .bothExist
  else if edge.2 ∈ partition.getNeighbors edge.1 then some .edgeExists
  else if edge.2 ∈ partition.getNeighbors edge.2 then some .edgeExists
  else none

def place (partitions : Fin n → Partition) (edge : VertexId × VertexId) (isDirected : Bool)
    (firstIndex secondIndex : Fin n) : Fin n → Partition :=
  if firstIndex = secondIndex then
    Function.update partitions firstIndex ((partitions firstIndex).addEdge edge isDirected)
  else
    let first := (partitions firstIndex).addToEdgeCuts edge.1 edge.2 secondIndex
    let partitions := Function.update partitions firstIndex first
    let second := (partitions secondIndex).addToEdgeCuts edge.2 edge.1 firstIndex
    Function.update partitions secondIndex second

namespace StreamPartitioner

/-- The constructor. -/
def new (n : Nat) (graphID : Int) (alog : Algorithms) (isDirect : Bool) : StreamPartitioner n :=
  ⟨⟨isDirect, fun _ => Partition.new n⟩, graphID, alog, 0, 0⟩

def hashPartitioning (this : StreamPartitioner n) (edge : VertexId × VertexId) :
    Option (StreamPartitioner n × Fin n × Fin n) := do
  let (partitioner, firstIndex, secondIndex) ← this.toGraphPartitioner.hashPartitioning edge
  some ({ this with toGraphPartitioner := partitioner }, firstIndex, secondIndex)

/-- `max_element` is the position of the best score of the first end. -/
def fennelPartitioning (this : StreamPartitioner n) (edge : VertexId × VertexId)
    (max_element : Fin n) : StreamPartitioner n × Fin n × Fin n :=
  match firstExit (fennelExit edge) this.partitions with
  | some (id, .bothExist) =>
    ({ this with
        partitions := place this.partitions edge false id id
        totalEdges := this.totalEdges + 1 }, id, id)
  | some (id, .edgeExists) => (this, id, id)
  | none =>
    -- minimize edge cuts
    let secondIndex := max_element
    ({ this with
        partitions := place this.partitions edge false max_element secondIndex
        totalVertices := this.totalVertices + 2
        totalEdges := this.totalEdges + 1 }, max_element, secondIndex)

/-- `max_elements` are the positions of the best scores of the two ends. -/
def ldgPartitioning (this : StreamPartitioner n) (edge : VertexId × VertexId)
    (max_elements : Fin n × Fin n) : StreamPartitioner n × Fin n × Fin n :=
  match firstExit (ldgExit edge) this.partitions with
  | some (id, .bothExist) =>
    -- `partition.addEdge(edge)` changes the loop's copy only
    ({ this with totalEdges := this.totalEdges + 1 }, id, id)
  | some (id, .edgeExists) => (this, id, id)
  | none =>
    ({ this with
        partitions := place this.partitions edge false max_elements.1 max_elements.2
        totalVertices := this.totalVertices + 2
        totalEdges := this.totalEdges + 1 }, max_elements.1, max_elements.2)

def addEdge (this : StreamPartitioner n) (edge : VertexId × VertexId)
    (max_elements : Fin n × Fin n) : Option (StreamPartitioner n × Fin n × Fin n) :=
  match this.algorithmInUse with
  | .HASH => this.hashPartitioning edge
  | .FENNEL => some (this.fennelPartitioning edge max_elements.1)
  | .LDG => some (this.ldgPartitioning edge max_elements)

/-- A stream of edges, each with the outcome of its score comparison. -/
def run : List ((VertexId × VertexId) × Fin n × Fin n) → StreamPartitioner n →
    Option (StreamPartitioner n)
  | [], this => some this
  | (edge, max_elements) :: stream, this => do
    let (this, _) ← this.addEdge edge max_elements
    run stream this

end StreamPartitioner

/-! ## The edges of the partitions -/

/-- The partitions agree with a placement of the edge. -/
def Recorded (partitions : Fin n → Partition) (edge : VertexId × VertexId) (i j : Fin n) : Prop :=
  if i = j then edge ∈ (partitions i).edgeList.pairs
  else edge ∈ ((partitions i).edgeCuts j).pairs ∧ edge.swap ∈ ((partitions j).edgeCuts i).pairs

instance (partitions : Fin n → Partition) (edge : VertexId × VertexId) (i j : Fin n) :
    Decidable (Recorded partitions edge i j) :=
  inferInstanceAs (Decidable (ite _ _ _))

/-- No edge or cut edge disappears. -/
def Keeps (partitions partitions' : Fin n → Partition) : Prop :=
  ∀ i, (partitions i).edgeList.pairs ⊆ (partitions' i).edgeList.pairs ∧
    ∀ j : Fin n, ((partitions i).edgeCuts j).pairs ⊆ ((partitions' i).edgeCuts j).pairs

theorem Keeps.refl (partitions : Fin n → Partition) : Keeps partitions partitions :=
  fun _ => ⟨Finset.Subset.refl _, fun _ => Finset.Subset.refl _⟩

def Sized (partitions : Fin n → Partition) : Prop :=
  ∀ i, (partitions i).numberOfPartitions = n

def Undirected (partitions : Fin n → Partition) : Prop :=
  ∀ i, ∀ e ∈ (partitions i).edgeList.pairs, e.swap ∈ (partitions i).edgeList.pairs

section Place

variable {partitions : Fin n → Partition} {edge : VertexId × VertexId} {isDirected : Bool}
  {i j : Fin n}

theorem place_self : place partitions edge isDirected i i =
    Function.update partitions i ((partitions i).addEdge edge isDirected) := by
  rw [place, if_pos rfl]

/-- The partitions after an edge is cut: each end's changes, the others' stay. -/
theorem place_of_ne (h : i ≠ j) (k : Fin n) : place partitions edge isDirected i j k =
    if k = j then (partitions j).addToEdgeCuts edge.2 edge.1 i
    else if k = i then (partitions i).addToEdgeCuts edge.1 edge.2 j
    else partitions k := by
  simp only [place, if_neg h]
  rw [update_apply, update_of_ne h.symm]
  refine if_congr .rfl rfl ?_
  rw [update_apply]

/-- A property of the partitions that `addEdge` and `addToEdgeCuts` keep is kept. -/
theorem place_induction {C : Partition → Prop} (h : ∀ k, C (partitions k))
    (hedge : i = j → C ((partitions i).addEdge edge isDirected))
    (hfirst : i ≠ j → C ((partitions i).addToEdgeCuts edge.1 edge.2 j))
    (hsecond : i ≠ j → C ((partitions j).addToEdgeCuts edge.2 edge.1 i)) (k : Fin n) :
    C (place partitions edge isDirected i j k) := by
  by_cases hij : i = j
  · subst hij
    rw [place_self, update_apply]
    split_ifs
    · exact hedge rfl
    · exact h k
  · rw [place_of_ne hij]
    split_ifs
    · exact hsecond hij
    · exact hfirst hij
    · exact h k

theorem Sized.place (h : Sized partitions) : Sized (place partitions edge isDirected i j) :=
  place_induction (C := fun P => P.numberOfPartitions = n) h
    (fun _ => by rw [Partition.numberOfPartitions_addEdge, h i])
    (fun _ => by rw [Partition.numberOfPartitions_addToEdgeCuts, h i])
    (fun _ => by rw [Partition.numberOfPartitions_addToEdgeCuts, h j])

theorem mem_pairs_place {k : Fin n} {e : VertexId × VertexId} :
    e ∈ (place partitions edge isDirected i j k).edgeList.pairs ↔
      (i = j ∧ k = i ∧ (e = edge ∨ isDirected = false ∧ e = edge.swap)) ∨
        e ∈ (partitions k).edgeList.pairs := by
  by_cases hij : i = j
  · subst hij
    rw [place_self, update_apply]
    split_ifs with hk
    · subst hk
      simp only [Partition.mem_pairs_addEdge, true_and, or_assoc]
    · simp only [hk, false_and, and_false, false_or]
  · rw [place_of_ne hij]
    simp only [hij, false_and, false_or]
    split_ifs with hj hi
    · rw [Partition.edgeList_addToEdgeCuts, hj]
    · rw [Partition.edgeList_addToEdgeCuts, hi]
    · rfl

theorem Sized.lt (h : Sized partitions) (k l : Fin n) :
    l.val < (partitions k).numberOfPartitions := by
  rw [h k]
  exact l.isLt

theorem mem_cuts_place (h : Sized partitions) {k l : Fin n} {e : VertexId × VertexId} :
    e ∈ ((place partitions edge isDirected i j k).edgeCuts l).pairs ↔
      (i ≠ j ∧ (k = i ∧ l = j ∧ e = edge ∨ k = j ∧ l = i ∧ e = edge.swap)) ∨
        e ∈ ((partitions k).edgeCuts l).pairs := by
  by_cases hij : i = j
  · subst hij
    rw [place_self, update_apply]
    split_ifs with hk
    · subst hk
      simp
    · simp
  · rw [place_of_ne hij]
    split_ifs with hj hi
    · subst hj
      simp [Partition.mem_cuts_addToEdgeCuts (h.lt k i), hij, Ne.symm hij, Prod.swap, Fin.val_inj]
    · subst hi
      simp [Partition.mem_cuts_addToEdgeCuts (h.lt k j), hij, Fin.val_inj]
    · simp [hi, hj]

theorem Undirected.place (h : Undirected partitions) :
    Undirected (place partitions edge false i j) := by
  intro k e he
  rw [mem_pairs_place] at he ⊢
  rcases he with ⟨hij, hk, he⟩ | he
  · refine .inl ⟨hij, hk, ?_⟩
    rcases he with rfl | ⟨-, rfl⟩
    · exact .inr ⟨rfl, rfl⟩
    · exact .inl (Prod.swap_swap _)
  · exact .inr (h k e he)

theorem keeps_place (h : Sized partitions) :
    Keeps partitions (place partitions edge isDirected i j) :=
  fun _ => ⟨fun _ he => mem_pairs_place.2 (.inr he), fun _ _ he => (mem_cuts_place h).2 (.inr he)⟩

theorem recorded_place (h : Sized partitions) :
    Recorded (place partitions edge isDirected i j) edge i j := by
  unfold Recorded
  split_ifs with hij
  · exact mem_pairs_place.2 (.inl ⟨hij, rfl, .inl rfl⟩)
  · exact ⟨(mem_cuts_place h).2 (.inl ⟨hij, .inl ⟨rfl, rfl, rfl⟩⟩),
      (mem_cuts_place h).2 (.inl ⟨hij, .inr ⟨rfl, rfl, rfl⟩⟩)⟩

end Place

/-! ## The loops over the partitions -/

section Loop

variable {exit : Partition → Option LoopExit} {partitions : Fin n → Partition}
  {edge : VertexId × VertexId} {P : Partition} {e : LoopExit} {id : Fin n}

theorem firstExit_eq_none : firstExit exit partitions = none ↔ ∀ i, exit (partitions i) = none := by
  simp [firstExit]

theorem firstExit_spec (h : firstExit exit partitions = some (id, e)) :
    exit (partitions id) = some e ∧ ∀ i < id, exit (partitions i) = none := by
  obtain ⟨before, id', after, hlist, hexit, hbefore⟩ := findSome?_eq_some_iff.1 h
  obtain ⟨e', he', heq⟩ := Option.map_eq_some_iff.1 hexit
  cases heq
  refine ⟨he', fun i hi => ?_⟩
  -- the list of indexes ascends, so the earlier indexes are those before `id`
  have hsorted := pairwise_lt_finRange n
  rw [hlist, pairwise_append] at hsorted
  have hmem : i ∈ before ++ id :: after := hlist ▸ mem_finRange i
  rcases mem_append.1 hmem with hi' | hi'
  · exact Option.map_eq_none_iff.1 (hbefore i hi')
  · rcases mem_cons.1 hi' with rfl | hi'
    · exact absurd hi (lt_irrefl _)
    · exact absurd hi (not_lt.2 ((pairwise_cons.1 hsorted.2.1).1 i hi').le)

def EndsLoop (edge : VertexId × VertexId) (P : Partition) : Prop :=
  (edge.1 ∈ P.known ∧ edge.2 ∈ P.known) ∨ edge ∈ P.edgeList.pairs ∨
    (edge.2, edge.2) ∈ P.edgeList.pairs

theorem ldgExit_ne_none : ldgExit edge P ≠ none ↔ EndsLoop edge P := by
  simp only [ldgExit, EndsLoop, Partition.isExist_iff_mem_known, Partition.mem_getNeighbors]
  split_ifs <;> simp_all

theorem fennelExit_edgeExists (h : ∀ e ∈ P.edgeList.pairs, e.swap ∈ P.edgeList.pairs)
    (hexit : fennelExit edge P = some .edgeExists) : edge ∈ P.edgeList.pairs := by
  by_contra hnot
  have hfirst : edge.2 ∉ P.getNeighbors edge.1 := fun hmem =>
    hnot (Partition.mem_getNeighbors.1 hmem)
  have hsecond : edge.1 ∉ P.getNeighbors edge.2 := fun hmem =>
    hnot (h _ (Partition.mem_getNeighbors.1 hmem))
  rw [fennelExit, if_neg hfirst, if_neg hsecond] at hexit
  split_ifs at hexit
  cases hexit

end Loop

/-! ## One call -/

namespace StreamPartitioner

variable {this this' : StreamPartitioner n} {edge : VertexId × VertexId}
  {max_elements : Fin n × Fin n} {i j : Fin n}

/-- The loop of `ldgPartitioning` ends at a partition that does not have the edge. -/
def Loses (this : StreamPartitioner n) (edge : VertexId × VertexId) : Prop :=
  this.algorithmInUse = .LDG ∧ ∃ id, EndsLoop edge (this.partitions id) ∧
    (∀ i < id, ¬ EndsLoop edge (this.partitions i)) ∧
    edge ∉ (this.partitions id).edgeList.pairs

structure Reached (this : StreamPartitioner n) : Prop where
  sized : Sized this.partitions
  undirected : this.algorithmInUse ≠ .HASH → Undirected this.partitions

theorem GraphPartitioner.hashPartitioning_eq {p p' : GraphPartitioner n}
    (h : p.hashPartitioning edge = some (p', i, j)) :
    p' = { p with partitions := place p.partitions edge p.isDirect i j } := by
  simp only [GraphPartitioner.hashPartitioning, Option.bind_eq_bind, Option.bind_eq_some_iff] at h
  obtain ⟨first, -, second, -, h⟩ := h
  split_ifs at h with hij
  · cases h
    subst hij
    rw [place_self]
  · cases h
    simp only [place, if_neg hij]

/-- **The steps of the partitioner**: the edge is placed, or the partitions stay and the loop has
ended at the partition that is returned. -/
theorem addEdge_cases (h : this.addEdge edge max_elements = some (this', i, j)) :
    this'.algorithmInUse = this.algorithmInUse ∧
      ((∃ isDirected, (this.algorithmInUse ≠ .HASH → isDirected = false) ∧
          this'.partitions = place this.partitions edge isDirected i j ∧
          (this.algorithmInUse = .LDG → ∀ k, ¬ EndsLoop edge (this.partitions k))) ∨
        (this'.partitions = this.partitions ∧ i = j ∧
          (this.algorithmInUse = .FENNEL ∧ fennelExit edge (this.partitions i) = some .edgeExists ∨
            this.algorithmInUse = .LDG ∧ EndsLoop edge (this.partitions i) ∧
              ∀ k < i, ¬ EndsLoop edge (this.partitions k)))) := by
  unfold addEdge at h
  cases halg : this.algorithmInUse with
  | HASH =>
    rw [halg] at h
    simp only [hashPartitioning, Option.bind_eq_bind, Option.bind_eq_some_iff] at h
    obtain ⟨⟨p, first, second⟩, hp, h⟩ := h
    cases h
    refine ⟨halg, .inl ⟨this.isDirect, fun hne => absurd rfl hne, ?_, nofun⟩⟩
    exact congrArg GraphPartitioner.partitions (GraphPartitioner.hashPartitioning_eq hp)
  | FENNEL =>
    rw [halg] at h
    simp only [fennelPartitioning, Option.some.injEq] at h
    split at h
    · cases h
      exact ⟨halg, .inl ⟨false, fun _ => rfl, rfl, nofun⟩⟩
    · next id hexit =>
      cases h
      exact ⟨halg, .inr ⟨rfl, rfl, .inl ⟨rfl, (firstExit_spec hexit).1⟩⟩⟩
    · cases h
      exact ⟨halg, .inl ⟨false, fun _ => rfl, rfl, nofun⟩⟩
  | LDG =>
    rw [halg] at h
    have hends {id : Fin n} {e : LoopExit}
        (hexit : firstExit (ldgExit edge) this.partitions = some (id, e)) :
        EndsLoop edge (this.partitions id) ∧ ∀ k < id, ¬ EndsLoop edge (this.partitions k) := by
      obtain ⟨hid, hbefore⟩ := firstExit_spec hexit
      refine ⟨ldgExit_ne_none.1 (by rw [hid]; exact Option.some_ne_none e), fun k hk hends => ?_⟩
      exact ldgExit_ne_none.2 hends (hbefore k hk)
    simp only [ldgPartitioning, Option.some.injEq] at h
    split at h
    · next id hexit =>
      cases h
      exact ⟨halg, .inr ⟨rfl, rfl, .inr ⟨rfl, hends hexit⟩⟩⟩
    · next id hexit =>
      cases h
      exact ⟨halg, .inr ⟨rfl, rfl, .inr ⟨rfl, hends hexit⟩⟩⟩
    · next hexit =>
      cases h
      refine ⟨halg, .inl ⟨false, fun _ => rfl, rfl, fun _ k hk => ?_⟩⟩
      exact ldgExit_ne_none.2 hk (firstExit_eq_none.1 hexit k)

theorem Reached.addEdge (hr : Reached this)
    (h : this.addEdge edge max_elements = some (this', i, j)) : Reached this' := by
  obtain ⟨halg, ⟨isDirected, hdirected, hplace, -⟩ | ⟨hsame, -⟩⟩ := addEdge_cases h
  · refine ⟨hplace ▸ hr.sized.place, fun hne => ?_⟩
    rw [halg] at hne
    rw [hplace, hdirected hne]
    exact (hr.undirected hne).place
  · exact ⟨hsame ▸ hr.sized, fun hne => hsame ▸ hr.undirected (halg ▸ hne)⟩

theorem Reached.run {stream : List ((VertexId × VertexId) × Fin n × Fin n)} (hr : Reached this)
    (h : run stream this = some this') : Reached this' := by
  induction stream generalizing this with
  | nil => cases h; exact hr
  | cons step stream ih =>
    obtain ⟨edge, max_elements⟩ := step
    simp only [StreamPartitioner.run, Option.bind_eq_bind, Option.bind_eq_some_iff] at h
    obtain ⟨⟨next, i, j⟩, hnext, h⟩ := h
    exact ih (hr.addEdge hnext) h

theorem Reached.keeps (hr : Reached this) (h : this.addEdge edge max_elements = some (this', i, j)) :
    Keeps this.partitions this'.partitions := by
  obtain ⟨-, ⟨_, -, hplace, -⟩ | ⟨hsame, -⟩⟩ := addEdge_cases h
  · exact hplace ▸ keeps_place hr.sized
  · exact hsame ▸ Keeps.refl _

/-- **What a call records.** After any stream, for each algorithm and any outcome of the score
comparisons: `addEdge` records the edge at the placement it returns exactly if the loop of
`ldgPartitioning` does not end at a partition without it, and nothing recorded disappears. -/
theorem addEdge_records_iff (graphID : Int) (alog : Algorithms) (isDirect : Bool)
    (stream : List ((VertexId × VertexId) × Fin n × Fin n))
    (hrun : run stream (new n graphID alog isDirect) = some this)
    (h : this.addEdge edge max_elements = some (this', i, j)) :
    (Recorded this'.partitions edge i j ↔ ¬ this.Loses edge) ∧
      Keeps this.partitions this'.partitions := by
  have hr : Reached this :=
    Reached.run ⟨fun _ => rfl, fun _ _ e he => absurd he (Finset.notMem_empty e)⟩ hrun
  refine ⟨?_, hr.keeps h⟩
  obtain ⟨-, ⟨isDirected, -, hplace, hpassed⟩ | ⟨hsame, rfl, ⟨halg, hexit⟩ | ⟨halg, hends, hfirst⟩⟩⟩ :=
    addEdge_cases h
  · rw [hplace]
    refine ⟨fun _ => ?_, fun _ => recorded_place hr.sized⟩
    rintro ⟨hldg, id, hends, -⟩
    exact hpassed hldg id hends
  · have hedge : edge ∈ (this.partitions i).edgeList.pairs :=
      fennelExit_edgeExists (hr.undirected (by rw [halg]; nofun) i) hexit
    refine ⟨fun _ => ?_, fun _ => by rwa [hsame, Recorded, if_pos rfl]⟩
    rintro ⟨hldg, -⟩
    rw [halg] at hldg
    cases hldg
  · rw [hsame, Recorded, if_pos rfl]
    constructor
    · rintro hedge ⟨-, id, hends', hfirst', hnot⟩
      rcases lt_trichotomy id i with hlt | rfl | hlt
      · exact hfirst id hlt hends'
      · exact hnot hedge
      · exact hfirst' i hlt hends
    · intro hkept
      by_contra hnot
      exact hkept ⟨halg, i, hends, hfirst, hnot⟩

/-- Two components in one partition of `ldgPartitioning`, and an edge between them. -/
def components : List ((VertexId × VertexId) × Fin 1 × Fin 1) :=
  [(([49], [50]), 0, 0), (([51], [52]), 0, 0)]

theorem addEdge_records_components : ∃ this this' : StreamPartitioner 1,
    run components (new 1 0 .LDG false) = some this ∧
      this.addEdge ([49], [53]) (0, 0) = some (this', 0, 0) ∧
      (Recorded this'.partitions ([49], [53]) 0 0 ↔ ¬ this.Loses ([49], [53])) ∧
      Keeps this.partitions this'.partitions :=
  ⟨_, _, rfl, rfl, addEdge_records_iff 0 .LDG false components rfl rfl⟩

theorem addEdge_loses_components : ∃ this this' : StreamPartitioner 1,
    run components (new 1 0 .LDG false) = some this ∧
      this.addEdge ([49], [51]) (0, 0) = some (this', 0, 0) ∧
      ¬ Recorded this'.partitions ([49], [51]) 0 0 :=
  ⟨_, _, rfl, rfl, by decide +kernel⟩

end StreamPartitioner

end JasmineGraph.Partitioner
