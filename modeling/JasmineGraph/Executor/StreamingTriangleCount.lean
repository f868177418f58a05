import JasmineGraph.Bytes.Lines
import JasmineGraph.Executor.Combinations
import JasmineGraph.Graph.Decomposition
import JasmineGraph.Kafka.StreamHandler

/-!
# The triangle count of a streamed graph: `StreamingTriangleCountExecutor`

The model of `StreamingTriangleCountExecutor::execute` in mode `"0"`
(`frontend/core/executor/impl/StreamingTriangleCountExecutor.cpp`). Every partition counts the
triangles of its own store, local and central edges. With more than two partitions the executor
also asks, for every combination of three, for the triangles of their central stores together; the
answers are texts of triangles with a colon between them, and a set removes those found by several
combinations. The result is the sum.

The counting at a site is a parameter: `Exact` says what an exact counter answers.
-/

namespace JasmineGraph.Executor

open Bytes JasmineGraph.Graph Kafka Partitioner List Finset

/-! ## The executor -/

/-- The worker ids in the order of a `std::set<string>`. -/
def workerIds (partitionCount : Nat) : List (List UInt8) :=
  ((List.range partitionCount).map decimal).mergeSort fun a b => decide (a ≤ b)

def getWorkerCombination (partitionCount : Nat) : List (List (List UInt8)) :=
  getCombinations (workerIds partitionCount)

def triangleTexts (response : List UInt8) : List (List UInt8) :=
  (pieces 58 response).filter (· ≠ ascii "NILL")

/-- The distinct texts of all answers: they are joined, split at the colons and put in a set. -/
def uniqueTriangleSet (triangleCountResponse : List (List UInt8)) : Finset (List UInt8) :=
  (triangleTexts (triangleCountResponse.flatMap fun response => 58 :: response)).toFinset

def aggregateCentralStoreTriangles (partitionCount : Nat)
    (countCentralStoreTriangles : List (List UInt8) → List UInt8) : Nat :=
  (uniqueTriangleSet ((getWorkerCombination partitionCount).map countCentralStoreTriangles)).card

/-- The result of `execute` from the answers of the sites. -/
def execute (partitionCount : Nat) (getTriangleCount : Nat → Nat)
    (countCentralStoreTriangles : List (List UInt8) → List UInt8) : Nat :=
  (if 2 < partitionCount then
      aggregateCentralStoreTriangles partitionCount countCentralStoreTriangles
    else 0) +
    ((List.range partitionCount).map getTriangleCount).sum

/-! ## The set of answers -/

theorem pieces_flatMap (responses : List (List UInt8)) :
    pieces 58 (responses.flatMap fun response => 58 :: response) =
      responses.flatMap (pieces 58) := by
  have happend : ∀ (xs : List UInt8) (rs : List (List UInt8)),
      pieces 58 (xs ++ rs.flatMap fun response => 58 :: response) =
        pieces 58 xs ++ rs.flatMap (pieces 58) := by
    intro xs rs
    induction rs generalizing xs with
    | nil => simp
    | cons r rs ih =>
      rw [flatMap_cons, flatMap_cons, cons_append, pieces_append_delimiter, ih]
  exact happend [] responses

theorem mem_uniqueTriangleSet {responses : List (List UInt8)} {x : List UInt8} :
    x ∈ uniqueTriangleSet responses ↔ ∃ r ∈ responses, x ∈ triangleTexts r := by
  unfold uniqueTriangleSet triangleTexts
  rw [mem_toFinset, pieces_flatMap]
  simp only [List.mem_filter, mem_flatMap, ← exists_and_right, and_assoc]

theorem perm_workerIds (n : Nat) : (workerIds n).Perm ((List.range n).map decimal) :=
  mergeSort_perm _ _

theorem mem_workerIds {n : Nat} {x : List UInt8} : x ∈ workerIds n ↔ ∃ i < n, decimal i = x := by
  rw [(perm_workerIds n).mem_iff, List.mem_map]
  simp only [List.mem_range]

theorem length_workerIds (n : Nat) : (workerIds n).length = n := by
  rw [(perm_workerIds n).length_eq, length_map, length_range]

theorem nodup_workerIds (n : Nat) : (workerIds n).Nodup :=
  (perm_workerIds n).nodup_iff.2 (nodup_range.map decimal_injective)

/-! ## The graphs of the sites -/

section Graphs

variable {n : Nat}

/-- The streamed graph, its directions forgotten. -/
def wholeGraph (edges : List (VertexId × VertexId)) : VertexId → VertexId → Prop :=
  undirected fun a b => (a, b) ∈ edges

/-- The local and central edges of a partition. -/
def siteGraph (published : List (Published n)) (pid : Fin n) : VertexId → VertexId → Prop :=
  undirected fun a b =>
    (a, b) ∈ storeEdges published .Local pid ∨ (a, b) ∈ storeEdges published .Central pid

def centralGraph (published : List (Published n)) (partitions : Set (Fin n)) :
    VertexId → VertexId → Prop :=
  undirected fun a b => ∃ pid ∈ partitions, (a, b) ∈ storeEdges published .Central pid

def partitionsOf (combination : List (List UInt8)) : Set (Fin n) :=
  {pid | decimal pid ∈ combination}

theorem exists_combination {c : Finset (Fin n)} (hc : c.card = 3) :
    ∃ combination ∈ getWorkerCombination n, combination.length = 3 ∧
      ∀ pid ∈ c, pid ∈ partitionsOf combination := by
  let combination := (workerIds n).filter fun x => x ∈ c.image fun pid : Fin n => decimal pid
  have hlength : combination.length = 3 := by
    rw [← toFinset_card_of_nodup ((nodup_workerIds n).filter _), ← hc,
      ← card_image_of_injective c (decimal_injective.comp Fin.val_injective)]
    congr 1
    ext x
    simp only [mem_toFinset, List.mem_filter, mem_workerIds, decide_eq_true_eq]
    refine ⟨fun h => h.2, fun h => ⟨?_, h⟩⟩
    obtain ⟨pid, -, rfl⟩ := mem_image.1 h
    exact ⟨pid, pid.isLt, rfl⟩
  have hle : 3 ≤ n := hc ▸ (card_le_univ c).trans_eq (Fintype.card_fin n)
  refine ⟨combination, mem_getCombinations.2 ⟨filter_sublist, ?_⟩, hlength, ?_⟩
  · rw [hlength, length_workerIds, Nat.min_eq_left hle]
  · intro pid hpid
    refine List.mem_filter.2 ⟨mem_workerIds.2 ⟨pid, pid.isLt, rfl⟩, ?_⟩
    exact decide_eq_true (mem_image_of_mem _ hpid)

variable {w : Workers} {messages : List Message} {this this' : GraphPartitioner n}
  {published : List (Published n)}

variable (h : listen w messages this = some (this', published))

include h

theorem siteGraph_eq (pid : Fin n) :
    siteGraph published pid = site (wholeGraph (streamed messages)) (homeOf n) (some pid) := by
  funext a b
  simp only [siteGraph, site, wholeGraph, undirected, mem_storeEdges h, Belongs, Inside, Across]
  grind

theorem centralGraph_eq (partitions : Set (Fin n)) : centralGraph published partitions =
      cutAt (wholeGraph (streamed messages)) (homeOf n) (some '' partitions) := by
  funext a b
  simp only [centralGraph, cutAt, cut, wholeGraph, undirected, mem_storeEdges h, Belongs, Across]
  grind

theorem home_mem (a b : VertexId) (hab : wholeGraph (streamed messages) a b) :
    homeOf n a ∈ univ.image (some : Fin n → Option (Fin n)) := by
  rcases hab with hab | hab <;> obtain ⟨p, q, hp, hq⟩ := homes_of_listen h hab <;>
    simp_all

theorem centralGraph_univ_eq :
    centralGraph published Set.univ = cut (wholeGraph (streamed messages)) (homeOf n) := by
  rw [centralGraph_eq h]
  funext a b
  refine propext (and_iff_left_of_imp fun hab => ?_)
  obtain ⟨p, -, hp⟩ := mem_image.1 (home_mem h a b hab.1)
  exact .inl ⟨p, trivial, hp⟩

theorem isTriangle_cut_iff_combination {t : Finset VertexId} :
    IsTriangle (cut (wholeGraph (streamed messages)) (homeOf n)) t ↔
      ∃ combination ∈ getWorkerCombination n, combination.length = 3 ∧
        IsTriangle (centralGraph published (partitionsOf combination)) t := by
  have hcover : ∀ c ⊆ univ.image (some : Fin n → Option (Fin n)), c.card = 3 →
      ∃ d ∈ {d | ∃ combination ∈ getWorkerCombination n, combination.length = 3 ∧
        d = some '' (partitionsOf combination : Set (Fin n))}, (c : Set (Option (Fin n))) ⊆ d := by
    intro c hc hcard
    obtain ⟨c', -, rfl⟩ := subset_image_iff.1 hc
    rw [card_image_of_injective c' (Option.some_injective _)] at hcard
    obtain ⟨combination, hmem, hlength, hsub⟩ := exists_combination hcard
    refine ⟨_, ⟨combination, hmem, hlength, rfl⟩, ?_⟩
    rw [coe_image]
    exact Set.image_mono hsub
  rw [isTriangle_cut_iff_exists (home_mem h) hcover]
  constructor
  · rintro ⟨_, ⟨combination, hmem, hlength, rfl⟩, ht⟩
    exact ⟨combination, hmem, hlength, centralGraph_eq h _ ▸ ht⟩
  · rintro ⟨combination, hmem, hlength, ht⟩
    exact ⟨_, ⟨combination, hmem, hlength, rfl⟩, centralGraph_eq h _ ▸ ht⟩

end Graphs

/-! ## The decomposition -/

section Decomposition

variable {n : Nat} {w : Workers} {messages : List Message} {this this' : GraphPartitioner n}
  {published : List (Published n)} {t : Finset VertexId}

/-- The triangle is found once: at one partition, or by the combinations. -/
def FoundOnce (published : List (Published n)) (t : Finset VertexId) : Prop :=
  ((∃! pid, IsTriangle (siteGraph published pid) t) ∧
      ¬ IsTriangle (centralGraph published Set.univ) t) ∨
    IsTriangle (centralGraph published Set.univ) t ∧
      (∀ pid, ¬ IsTriangle (siteGraph published pid) t) ∧
      ∃ combination ∈ getWorkerCombination n, combination.length = 3 ∧
        IsTriangle (centralGraph published (partitionsOf combination)) t

theorem foundOnce (h : listen w messages this = some (this', published))
    (ht : IsTriangle (wholeGraph (streamed messages)) t) : FoundOnce published t := by
  unfold FoundOnce
  simp only [centralGraph_univ_eq h, siteGraph_eq h]
  by_cases hspread : Spread (homeOf n) t
  · have hcut := isTriangle_cut.2 ⟨ht, hspread⟩
    exact .inr ⟨hcut, fun pid => not_isTriangle_site hspread _,
      (isTriangle_cut_iff_combination h).1 hcut⟩
  · obtain ⟨p, hp, hunique⟩ := existsUnique_site ht hspread
    have hpid : p ∈ univ.image (some : Fin n → Option (Fin n)) := by
      obtain ⟨a, ha, b, hb, hab⟩ := one_lt_card.1 (by rw [ht.1]; decide : 1 < t.card)
      rcases (hp.2 a ha b hb hab).2 with rfl | rfl
      · exact home_mem h a b (ht.2 a ha b hb hab)
      · exact home_mem h b a (ht.2 b hb a ha hab.symm)
    obtain ⟨pid, -, rfl⟩ := mem_image.1 hpid
    refine .inl ⟨⟨pid, hp, fun q hq => Option.some_injective _ (hunique _ hq)⟩, fun hcut => ?_⟩
    exact hspread (isTriangle_cut.1 hcut).2

theorem finite_triangles (edges : List (VertexId × VertexId)) :
    {t | IsTriangle (wholeGraph edges) t}.Finite := by
  let vertices := (edges.map Prod.fst ++ edges.map Prod.snd).toFinset
  refine (vertices.powerset.finite_toSet).subset fun t ht => ?_
  rw [mem_coe, mem_powerset]
  intro a ha
  obtain ⟨b, hb, hba⟩ := exists_mem_ne (by rw [ht.1]; decide) a
  rw [mem_toFinset, mem_append]
  rcases ht.2 a ha b hb hba.symm with hab | hab
  · exact .inl (List.mem_map_of_mem hab)
  · exact .inr (List.mem_map_of_mem hab)

theorem numTriangles_cut_eq_zero (h : listen w messages this = some (this', published))
    (hn : n ≤ 2) : numTriangles (cut (wholeGraph (streamed messages)) (homeOf n)) = 0 := by
  have hempty : {t | IsTriangle (cut (wholeGraph (streamed messages)) (homeOf n)) t} = ∅ := by
    refine Set.eq_empty_iff_forall_notMem.2 fun t ht => ?_
    obtain ⟨combination, hmem, hlength, -⟩ := (isTriangle_cut_iff_combination h).1 ht
    have hle := (mem_getCombinations.1 hmem).1.length_le
    rw [length_workerIds] at hle
    omega
  rw [numTriangles, hempty, Set.ncard_empty]

/-- The answers of exact counters, where `text` writes a triangle. -/
structure Exact (published : List (Published n)) (text : Finset VertexId → List UInt8)
    (getTriangleCount : Nat → Nat)
    (countCentralStoreTriangles : List (List UInt8) → List UInt8) : Prop where
  sites : ∀ pid : Fin n, getTriangleCount pid = numTriangles (siteGraph published pid)
  centrals : ∀ combination ∈ getWorkerCombination n, ∀ x,
    x ∈ triangleTexts (countCentralStoreTriangles combination) ↔
      ∃ t, IsTriangle (centralGraph published (partitionsOf combination)) t ∧ text t = x

variable {text : Finset VertexId → List UInt8} {getTriangleCount : Nat → Nat}
  {countCentralStoreTriangles : List (List UInt8) → List UInt8}

theorem aggregate_eq (h : listen w messages this = some (this', published)) (hn : 2 < n)
    (htext : Set.InjOn text {t | IsTriangle (wholeGraph (streamed messages)) t})
    (hexact : Exact published text getTriangleCount countCentralStoreTriangles) :
    aggregateCentralStoreTriangles n countCentralStoreTriangles =
      numTriangles (cut (wholeGraph (streamed messages)) (homeOf n)) := by
  have hthree : ∀ combination ∈ getWorkerCombination n, combination.length = 3 := by
    intro combination hmem
    rw [(mem_getCombinations.1 hmem).2, length_workerIds]
    omega
  have hset : (uniqueTriangleSet ((getWorkerCombination n).map countCentralStoreTriangles) :
      Set (List UInt8)) =
        text '' {t | IsTriangle (cut (wholeGraph (streamed messages)) (homeOf n)) t} := by
    ext x
    simp only [mem_coe, mem_uniqueTriangleSet, List.mem_map, isTriangle_cut_iff_combination h]
    constructor
    · rintro ⟨_, ⟨combination, hmem, rfl⟩, hx⟩
      obtain ⟨t, ht, rfl⟩ := (hexact.centrals combination hmem x).1 hx
      exact ⟨t, ⟨combination, hmem, hthree combination hmem, ht⟩, rfl⟩
    · rintro ⟨t, ⟨combination, hmem, -, ht⟩, rfl⟩
      exact ⟨_, ⟨combination, hmem, rfl⟩, (hexact.centrals combination hmem _).2 ⟨t, ht, rfl⟩⟩
  unfold aggregateCentralStoreTriangles
  rw [← Set.ncard_coe_finset, hset]
  exact Set.InjOn.ncard_image (htext.mono fun t ht => (isTriangle_cut.1 ht).1)

/-- **The streamed graph's triangles, each once.** A stream of non-negative integer ids is routed to
its end. Of every stream that is, each triangle is found once, and with exact counters at the sites
the result of `execute` is the number of triangles. -/
theorem execute_decomposes (w : Workers) (messages : List Message) (this : GraphPartitioner n) :
    (0 < n → w.Serving n → (∀ e ∈ streamed messages, IsId e.1 ∧ IsId e.2) →
        ∃ r, listen w messages this = some r) ∧
      ∀ this' published, listen w messages this = some (this', published) →
        (∀ t, IsTriangle (wholeGraph (streamed messages)) t → FoundOnce published t) ∧
        ∀ text getTriangleCount countCentralStoreTriangles,
          Set.InjOn text {t | IsTriangle (wholeGraph (streamed messages)) t} →
          Exact published text getTriangleCount countCentralStoreTriangles →
          execute n getTriangleCount countCentralStoreTriangles =
            numTriangles (wholeGraph (streamed messages)) := by
  refine ⟨fun hn hw hids => listen_isSome hn hw hids this, fun this' published h =>
    ⟨fun t ht => foundOnce h ht, fun text getTriangleCount countCentral htext hexact => ?_⟩⟩
  have hsites : ((List.range n).map getTriangleCount).sum =
      ∑ p ∈ univ.image (some : Fin n → Option (Fin n)),
        numTriangles (site (wholeGraph (streamed messages)) (homeOf n) p) := by
    rw [sum_image fun p _ q _ hpq => Option.some_injective _ hpq]
    have hsum : ((List.range n).map getTriangleCount).sum =
        ∑ pid : Fin n, getTriangleCount pid := (Fin.sum_univ_eq_sum_range getTriangleCount n).symm
    rw [hsum]
    refine sum_congr rfl fun pid _ => ?_
    rw [hexact.sites pid, siteGraph_eq h]
  rw [numTriangles_eq_sum_add (home_mem h) (finite_triangles _), execute, Nat.add_comm]
  congr 1
  split_ifs with hn
  · exact aggregate_eq h hn htext hexact
  · exact (numTriangles_cut_eq_zero h (Nat.le_of_not_lt hn)).symm

/-- The triangle 0, 1, 2, one vertex in each of three partitions. -/
def spreadTriangle : List Message :=
  [.edge (decimal 0) (decimal 1), .edge (decimal 1) (decimal 2), .edge (decimal 2) (decimal 0)]

theorem spreadTriangle_unique {t : Finset VertexId}
    (ht : IsTriangle (wholeGraph (streamed spreadTriangle)) t) :
    t = {decimal 0, decimal 1, decimal 2} := by
  have hsub : t ⊆ {decimal 0, decimal 1, decimal 2} := by
    intro a ha
    obtain ⟨b, hb, hba⟩ := exists_mem_ne (by rw [ht.1]; decide) a
    have hab := ht.2 a ha b hb hba.symm
    simp only [wholeGraph, undirected, streamed, spreadTriangle, List.mem_cons, Prod.mk.injEq] at hab
    simp only [Finset.mem_insert, Finset.mem_singleton]
    tauto
  refine eq_of_subset_of_card_le hsub ?_
  rw [ht.1]
  decide

theorem execute_decomposes_spreadTriangle :
    ∃ (this : GraphPartitioner 3) (published : List (Published 3)),
      listen ⟨3, 3⟩ spreadTriangle ⟨false, fun _ => Partition.new 3⟩ = some (this, published) ∧
        FoundOnce published {decimal 0, decimal 1, decimal 2} ∧
        execute 3 (fun _ => 0) (fun _ => ascii "0,1,2") =
          numTriangles (wholeGraph (streamed spreadTriangle)) := by
  have hids : ∀ e ∈ streamed spreadTriangle, IsId e.1 ∧ IsId e.2 := by
    simp only [streamed, spreadTriangle, List.forall_mem_cons]
    refine ⟨⟨⟨0, by decide⟩, ⟨1, by decide⟩⟩, ⟨⟨1, by decide⟩, ⟨2, by decide⟩⟩,
      ⟨⟨2, by decide⟩, ⟨0, by decide⟩⟩, fun e he => ?_⟩
    cases he
  obtain ⟨hlisten, hfound⟩ :=
    execute_decomposes ⟨3, 3⟩ spreadTriangle (⟨false, fun _ => Partition.new 3⟩ : GraphPartitioner 3)
  obtain ⟨⟨this, published⟩, h⟩ := hlisten (by decide) (by decide) hids
  obtain ⟨honce, hexecute⟩ := hfound this published h
  have ht : IsTriangle (wholeGraph (streamed spreadTriangle))
      {decimal 0, decimal 1, decimal 2} := by
    refine (isTriangle_triple (fun a b => undirected_symm) (by decide) (by decide)
      (by decide)).2 ⟨.inl ?_, .inl ?_, .inr ?_⟩ <;> decide
  have hspread : Spread (homeOf 3) {decimal 0, decimal 1, decimal 2} := by
    unfold Spread
    decide +kernel
  have hcut := isTriangle_cut.2 ⟨ht, hspread⟩
  refine ⟨this, published, h, honce _ ht, hexecute (fun _ => ascii "0,1,2") _ _ ?_ ⟨?_, ?_⟩⟩
  · intro t ht t' ht' _
    rw [spreadTriangle_unique ht, spreadTriangle_unique ht']
  · intro pid
    have hempty : {t | IsTriangle (siteGraph published pid) t} = ∅ := by
      refine Set.eq_empty_iff_forall_notMem.2 fun t hsite => ?_
      rw [siteGraph_eq h] at hsite
      refine not_isTriangle_site ?_ _ hsite
      rw [spreadTriangle_unique (isTriangle_of_site hsite)]
      exact hspread
    rw [numTriangles, hempty, Set.ncard_empty]
  · intro combination hmem x
    -- the only combination is all three partitions
    obtain ⟨hsub, hlength⟩ := mem_getCombinations.1 hmem
    have hall : combination = workerIds 3 := by
      refine hsub.eq_of_length ?_
      rw [hlength, length_workerIds, Nat.min_self]
    have huniv : (partitionsOf combination : Set (Fin 3)) = Set.univ :=
      Set.eq_univ_of_forall fun pid => hall ▸ mem_workerIds.2 ⟨pid, pid.isLt, rfl⟩
    have htexts : triangleTexts (ascii "0,1,2") = [ascii "0,1,2"] := by decide
    rw [htexts, List.mem_singleton, huniv, centralGraph_univ_eq h]
    refine ⟨fun hx => ⟨_, hcut, hx.symm⟩, fun hx => ?_⟩
    obtain ⟨_, _, hx⟩ := hx
    exact hx.symm

end Decomposition

end JasmineGraph.Executor
