import JasmineGraph.Partitioner.HdfsCounts
import JasmineGraph.Partitioner.Stream

/-!
# The metadata of a streamed graph: `Partitioner::updateMetaDB`

When a stream has been placed, `updateMetaDB` (`partitioner/stream/Partitioner.cpp`) adds the sums
of the partitions' counts to the graph's row. The counts are doubles; the number of edges is the
number of local edges and half the number of cuts, a rational number here.

A cut edge is filed under either end, in both directions and whether the graph is directed or not,
so the half is right for unordered pairs. A local edge of an undirected graph is stored in both
directions, and each partition halves its own number of them with the division of integers.
-/

namespace JasmineGraph.Partitioner

open Kafka Bytes Finset StreamPartitioner Prod
open Option hiding or_assoc

variable {n : Nat}

/-- What `updateMetaDB` does to the row of a graph. -/
structure GraphUpdate where
  idgraph : Int
  vertexcount : Nat
  edgecount : ℚ
  upload_end_time : List UInt8
  graph_status_idgraph_status : Int

def OPERATIONAL : Int := 3

def StreamPartitioner.updateMetaDB (this : StreamPartitioner n) (uploadEndTime : List UInt8) :
    GraphUpdate :=
  let vertexCount := ∑ i, (this.partitions i).getVertextCountQuick
  let edgesCount := ∑ i, (this.partitions i).getEdgesCount this.isDirect
  let edgeCutsCount := ∑ i, (this.partitions i).edgeCutsCount
  let numberOfEdges : ℚ := edgesCount + edgeCutsCount / 2
  { idgraph := this.graphID, vertexcount := vertexCount, edgecount := numberOfEdges
    upload_end_time := uploadEndTime
    graph_status_idgraph_status := OPERATIONAL }

/-! ## What the partitions hold -/

/-- The partitions after the edges `T`, each placed by the homes of its ends. -/
structure Streamed (isDirected : Bool) (T : Finset (VertexId × VertexId))
    (partitions : Fin n → Partition) : Prop where
  sized : Sized partitions
  counted : ∀ i, (partitions i).Counted
  pairs : ∀ i e, e ∈ (partitions i).edgeList.pairs ↔
    e ∈ Partition.stored isDirected T ∧ homeOf n e.1 = some i ∧ homeOf n e.2 = some i
  cuts : ∀ (i j : Fin n) e, e ∈ ((partitions i).edgeCuts j).pairs ↔
    e ∈ Partition.stored false T ∧ homeOf n e.1 ≠ homeOf n e.2 ∧
      homeOf n e.1 = some i ∧ homeOf n e.2 = some j
  known : ∀ i v, v ∈ (partitions i).known ↔ v ∈ T.image fst ∪ T.image snd ∧ homeOf n v = some i

theorem streamed_new (n : Nat) (isDirected : Bool) :
    Streamed isDirected ∅ fun _ : Fin n => Partition.new n where
  sized _ := rfl
  counted _ := Partition.counted_new n
  pairs i e := by simp [Partition.new, SetMap.empty, mem_stored]
  cuts i j e := by simp [Partition.new, SetMap.empty, mem_stored]
  known i v := by simp [Partition.known, Partition.new, SetMap.empty]

theorem mem_stored_insert {isDirected : Bool} {T : Finset (VertexId × VertexId)}
    {e edge : VertexId × VertexId} : e ∈ Partition.stored isDirected (insert edge T) ↔
      (e = edge ∨ isDirected = false ∧ e = edge.swap) ∨ e ∈ Partition.stored isDirected T := by
  have hswap : e.swap = edge ↔ e = edge.swap := by
    constructor
    · rintro rfl
      exact (swap_swap e).symm
    · rintro rfl
      exact swap_swap edge
  simp only [mem_stored, Finset.mem_insert, hswap]
  tauto

section Place

variable {partitions : Fin n → Partition} {edge : VertexId × VertexId} {isDirected : Bool}
  {i j : Fin n}

theorem counted_place (hsized : Sized partitions) (h : ∀ k, (partitions k).Counted) (k : Fin n) :
    (place partitions edge isDirected i j k).Counted :=
  place_induction h (fun _ => ((h i).addEdge edge isDirected).2)
    (fun _ => ((h i).addToEdgeCuts edge.1 edge.2 (hsized.lt i j)).2)
    (fun _ => ((h j).addToEdgeCuts edge.2 edge.1 (hsized.lt j i)).2) k

theorem mem_known_place (hsized : Sized partitions) (h : ∀ k, (partitions k).Counted) {k : Fin n}
    {v : VertexId} : v ∈ (place partitions edge isDirected i j k).known ↔
      (k = i ∧ v = edge.1 ∨ k = j ∧ v = edge.2) ∨ v ∈ (partitions k).known := by
  by_cases hij : i = j
  · subst hij
    rw [place_self, Function.update_apply]
    split_ifs with hk
    · subst hk
      rw [((h k).addEdge edge isDirected).1, Finset.mem_insert, Finset.mem_insert]
      simp only [true_and, or_assoc, or_left_comm]
    · simp only [hk, false_and, false_or]
  · rw [place_of_ne hij]
    split_ifs with hj hi
    · subst hj
      rw [((h k).addToEdgeCuts edge.2 edge.1 (hsized.lt k i)).1, Finset.mem_insert]
      simp only [Ne.symm hij, false_and, true_and, false_or]
    · subst hi
      rw [((h k).addToEdgeCuts edge.1 edge.2 (hsized.lt k j)).1, Finset.mem_insert]
      simp only [hij, false_and, true_and, or_false]
    · simp only [hi, hj, false_and, false_or]

/-- **One edge.** -/
theorem Streamed.place {T : Finset (VertexId × VertexId)} (h : Streamed isDirected T partitions)
    (hi : homeOf n edge.1 = some i) (hj : homeOf n edge.2 = some j) :
    Streamed isDirected (insert edge T) (place partitions edge isDirected i j) where
  sized := h.sized.place
  counted := counted_place h.sized h.counted
  pairs k e := by
    rw [mem_pairs_place, h.pairs, mem_stored_insert, or_and_right]
    refine or_congr_left ?_
    constructor
    · rintro ⟨rfl, rfl, he⟩
      refine ⟨he, ?_⟩
      rcases he with rfl | ⟨-, rfl⟩
      · exact ⟨hi, hj⟩
      · exact ⟨hj, hi⟩
    · rintro ⟨he, h1, h2⟩
      have hends : i = k ∧ j = k := by
        rcases he with rfl | ⟨-, rfl⟩
        · exact ⟨some.inj (hi.symm.trans h1), some.inj (hj.symm.trans h2)⟩
        · exact ⟨some.inj (hi.symm.trans h2), some.inj (hj.symm.trans h1)⟩
      exact ⟨hends.1.trans hends.2.symm, hends.1.symm, he⟩
  cuts k l e := by
    rw [mem_cuts_place h.sized, h.cuts, mem_stored_insert, or_and_right]
    refine or_congr_left ?_
    constructor
    · rintro ⟨hij, ⟨rfl, rfl, rfl⟩ | ⟨rfl, rfl, rfl⟩⟩
      · exact ⟨.inl rfl, by rwa [hi, hj, Ne, some.injEq], hi, hj⟩
      · refine ⟨.inr ⟨rfl, rfl⟩, ?_, hj, hi⟩
        rw [fst_swap, snd_swap, hi, hj, Ne, some.injEq]
        exact Ne.symm hij
    · rintro ⟨rfl | ⟨-, rfl⟩, hne, h1, h2⟩
      · rw [hi, some.injEq] at h1
        rw [hj, some.injEq] at h2
        rw [hi, hj, Ne, some.injEq] at hne
        exact ⟨hne, .inl ⟨h1.symm, h2.symm, rfl⟩⟩
      · rw [fst_swap, hj, some.injEq] at h1
        rw [snd_swap, hi, some.injEq] at h2
        rw [fst_swap, snd_swap, hi, hj, Ne, some.injEq] at hne
        exact ⟨Ne.symm hne, .inr ⟨h1.symm, h2.symm, rfl⟩⟩
  known k v := by
    rw [mem_known_place h.sized h.counted, h.known]
    simp only [image_insert, mem_union, Finset.mem_insert]
    constructor
    · rintro ((⟨rfl, rfl⟩ | ⟨rfl, rfl⟩) | ⟨hv, hk⟩)
      · exact ⟨.inl (.inl rfl), hi⟩
      · exact ⟨.inr (.inl rfl), hj⟩
      · exact ⟨hv.imp .inr .inr, hk⟩
    · rintro ⟨(rfl | hv) | (rfl | hv), hk⟩
      · exact .inl (.inl ⟨some.inj (hk.symm.trans hi), rfl⟩)
      · exact .inr ⟨.inl hv, hk⟩
      · exact .inl (.inr ⟨some.inj (hk.symm.trans hj), rfl⟩)
      · exact .inr ⟨.inr hv, hk⟩

end Place

/-! ## The stream -/

def edgesOf (stream : List ((VertexId × VertexId) × Fin n × Fin n)) : List (VertexId × VertexId) :=
  stream.map fst

section Run

variable {isDirected : Bool} {T : Finset (VertexId × VertexId)} {this this' : StreamPartitioner n}
  {stream : List ((VertexId × VertexId) × Fin n × Fin n)}

theorem StreamPartitioner.addEdge_hash (h : this.algorithmInUse = .HASH)
    {edge : VertexId × VertexId} {i j : Fin n} (hi : homeOf n edge.1 = some i)
    (hj : homeOf n edge.2 = some j) (max_elements : Fin n × Fin n) :
    this.addEdge edge max_elements = some ({ this with
      partitions := place this.partitions edge this.isDirect i j }, i, j) := by
  simp only [addEdge, h, hashPartitioning, GraphPartitioner.hashPartitioning, hi, hj,
    bind_eq_bind, bind_some, place]
  split_ifs <;> rfl

/-- **A stream of a HASH partitioner**: it ends exactly if every end has a home, and then every
edge of it has been placed. -/
theorem Streamed.run (halg : this.algorithmInUse = .HASH)
    (h : Streamed this.isDirect T this.partitions) :
    (∀ e ∈ edgesOf stream, (homeOf n e.1).isSome ∧ (homeOf n e.2).isSome) →
      ∃ this', run stream this = some this' ∧ this'.isDirect = this.isDirect ∧
        Streamed this.isDirect (T ∪ (edgesOf stream).toFinset) this'.partitions := by
  induction stream generalizing this T with
  | nil => exact fun _ => ⟨this, rfl, rfl, by simpa [edgesOf] using h⟩
  | cons step stream ih =>
    obtain ⟨edge, max_elements⟩ := step
    intro hhomes
    rw [edgesOf, List.map_cons, List.forall_mem_cons] at hhomes
    obtain ⟨⟨h1, h2⟩, hrest⟩ := hhomes
    obtain ⟨i, hi⟩ := isSome_iff_exists.1 h1
    obtain ⟨j, hj⟩ := isSome_iff_exists.1 h2
    let next : StreamPartitioner n :=
      { this with partitions := Partitioner.place this.partitions edge this.isDirect i j }
    have hnext : next.algorithmInUse = .HASH := halg
    have hplaced : Streamed next.isDirect (insert edge T) next.partitions := h.place hi hj
    obtain ⟨this', hrun, hdirect, hstreamed⟩ := ih hnext hplaced hrest
    refine ⟨this', ?_, hdirect, ?_⟩
    · rw [run, addEdge_hash halg hi hj]
      exact hrun
    · rw [edgesOf, List.map_cons, List.toFinset_cons, union_insert, ← insert_union]
      exact hstreamed

theorem homes_of_run (halg : this.algorithmInUse = .HASH) (h : run stream this = some this') :
    ∀ e ∈ edgesOf stream, (homeOf n e.1).isSome ∧ (homeOf n e.2).isSome := by
  induction stream generalizing this with
  | nil => simp [edgesOf]
  | cons step stream ih =>
    obtain ⟨edge, max_elements⟩ := step
    simp only [run, bind_eq_bind, bind_eq_some_iff] at h
    obtain ⟨⟨next, i, j⟩, hnext, h⟩ := h
    rw [edgesOf, List.map_cons, List.forall_mem_cons]
    refine ⟨?_, ih ((addEdge_cases hnext).1.trans halg) h⟩
    simp only [addEdge, halg, hashPartitioning, bind_eq_bind, bind_eq_some_iff] at hnext
    obtain ⟨⟨p, first, second⟩, hp, -⟩ := hnext
    obtain ⟨hfirst, hsecond⟩ := hashPartitioning_spec hp
    exact ⟨by rw [hfirst]; rfl, by rw [hsecond]; rfl⟩

end Run

/-! ## The sums -/

section Sums

variable {isDirected : Bool} {T : Finset (VertexId × VertexId)} {partitions : Fin n → Partition}
  (h : Streamed isDirected T partitions)
  (hhomes : ∀ e ∈ T, (homeOf n e.1).isSome ∧ (homeOf n e.2).isSome)

include h hhomes in
theorem Streamed.sum_getVertextCountQuick : ∑ i, (partitions i).getVertextCountQuick =
    (T.image fst ∪ T.image snd).card := by
  rw [← sum_card_home _ (homeOf n)]
  · refine sum_congr rfl fun i _ => ?_
    rw [Partition.getVertextCountQuick, h.counted i]
    congr 1
    ext v
    rw [h.known, mem_filter]
  · intro v hv
    rcases mem_union.1 hv with hv | hv <;> obtain ⟨e, he, rfl⟩ := mem_image.1 hv
    · exact (hhomes e he).1
    · exact (hhomes e he).2

include hhomes in
theorem homes_stored {e : VertexId × VertexId} (he : e ∈ Partition.stored isDirected T) :
    (homeOf n e.1).isSome ∧ (homeOf n e.2).isSome := by
  rcases mem_stored.1 he with he | ⟨-, he⟩
  · exact hhomes e he
  · exact (hhomes e.swap he).symm

def cutPairs (n : Nat) (T : Finset (VertexId × VertexId)) : Finset (VertexId × VertexId) :=
  (Partition.stored false T).filter fun e => homeOf n e.1 ≠ homeOf n e.2

include h hhomes in
theorem Streamed.sum_edgeCutsCount : ∑ i, (partitions i).edgeCutsCount = (cutPairs n T).card := by
  have hcut : ∀ e ∈ cutPairs n T, (homeOf n e.1).isSome ∧ (homeOf n e.2).isSome := fun e he =>
    homes_stored hhomes (mem_filter.1 he).1
  rw [← sum_card_home _ (fun e => homeOf n e.1) fun e he => (hcut e he).1]
  refine sum_congr rfl fun i _ => ?_
  rw [← sum_card_home _ (fun e => homeOf n e.2) fun e he => (hcut e (mem_filter.1 he).1).2,
    Partition.edgeCutsCount, h.sized i, sum_range]
  refine sum_congr rfl fun j _ => ?_
  congr 1
  ext e
  simp only [h.cuts, cutPairs, mem_filter, and_assoc]

def localPairs (isDirected : Bool) (T : Finset (VertexId × VertexId)) (i : Fin n) :
    Finset (VertexId × VertexId) :=
  (Partition.stored isDirected T).filter fun e => homeOf n e.1 = some i ∧ homeOf n e.2 = some i

include h in
theorem Streamed.getEdgesCount
    (hcomma : ∀ e ∈ T, (44 : UInt8) ∉ e.1 ∧ (44 : UInt8) ∉ e.2) (i : Fin n) :
    (partitions i).getEdgesCount isDirected =
      if isDirected then (localPairs isDirected T i).card
      else (localPairs isDirected T i).card / 2 := by
  have hpairs : (partitions i).edgeList.pairs = localPairs isDirected T i := by
    ext e
    rw [h.pairs, localPairs, mem_filter]
  rw [Partition.getEdgesCount, Partition.card_uniqueEdges, hpairs]
  intro e he
  rcases mem_stored.1 ((h.pairs i e).1 he).1 with he | ⟨-, he⟩
  · exact hcomma e he
  · exact (hcomma e.swap he).symm

include hhomes in
theorem sum_localPairs (isDirected : Bool) : ∑ i : Fin n, (localPairs isDirected T i).card +
    ((Partition.stored isDirected T).filter fun e => homeOf n e.1 ≠ homeOf n e.2).card =
      (Partition.stored isDirected T).card := by
  set S := Partition.stored isDirected T with hS
  have hhome : ∀ e ∈ S.filter fun e => homeOf n e.1 = homeOf n e.2, (homeOf n e.1).isSome :=
    fun e he => (homes_stored hhomes (mem_filter.1 he).1).1
  rw [← card_filter_add_card_filter_not (s := S) fun e => homeOf n e.1 = homeOf n e.2,
    ← sum_card_home _ _ hhome]
  congr 1
  refine sum_congr rfl fun i _ => ?_
  congr 1
  ext e
  simp only [localPairs, mem_filter, and_assoc]
  refine and_congr_right fun _ => ⟨fun he => ⟨he.1.trans he.2.symm, he.1⟩, fun he => ?_⟩
  exact ⟨he.2, he.1 ▸ he.2⟩

/-! ## Directed graphs -/

theorem card_cutPairs : (cutPairs n T).card =
    2 * ((T.filter fun e => homeOf n e.1 ≠ homeOf n e.2).image fun e => s(e.1, e.2)).card := by
  have hsymm : ∀ e ∈ cutPairs n T, e.swap ∈ cutPairs n T := by
    intro e he
    simp only [cutPairs, mem_filter, mem_stored, swap_swap, true_and, fst_swap, snd_swap] at he ⊢
    exact ⟨he.1.symm, Ne.symm he.2⟩
  have hloop : ∀ e ∈ cutPairs n T, e.1 ≠ e.2 := fun e he heq =>
    (mem_filter.1 he).2 (congrArg (homeOf n) heq)
  rw [card_of_symmetric hsymm hloop]
  congr 2
  ext q
  simp only [mem_image, cutPairs, mem_filter, mem_stored, true_and]
  constructor
  · rintro ⟨e, ⟨he | he, hcut⟩, rfl⟩
    · exact ⟨e, ⟨he, hcut⟩, rfl⟩
    · exact ⟨e.swap, ⟨he, Ne.symm hcut⟩, Sym2.eq_swap⟩
  · rintro ⟨e, ⟨he, hcut⟩, rfl⟩
    exact ⟨e, ⟨.inl he, hcut⟩, rfl⟩

/-- Ordered and unordered cut edges are as many exactly if none occurs in both directions. -/
theorem card_cut_unordered_iff :
    ((T.filter fun e => homeOf n e.1 ≠ homeOf n e.2).image fun e => s(e.1, e.2)).card =
        (T.filter fun e => homeOf n e.1 ≠ homeOf n e.2).card ↔
      ∀ e ∈ T, e.swap ∈ T → homeOf n e.1 = homeOf n e.2 := by
  rw [card_image_iff]
  constructor
  · intro hinj e he hswap
    by_contra hcut
    have heq : e = e.swap := hinj (by simp [he, hcut]) (by simp [hswap, Ne.symm hcut]) Sym2.eq_swap
    exact hcut (congrArg (fun e => homeOf n e.1) heq)
  · intro hone e he e' he' heq
    rw [mem_coe, mem_filter] at he he'
    rcases Sym2.eq_iff.1 heq with ⟨h1, h2⟩ | ⟨h1, h2⟩
    · exact Prod.ext h1 h2
    · have hswap : e.swap = e' := Prod.ext h2 h1
      exact absurd (hone e he.1 (hswap ▸ he'.1)) he.2

include hhomes in
theorem directed_exact_iff :
    ((∑ i : Fin n, (localPairs true T i).card : Nat) : ℚ) + (cutPairs n T).card / 2 = T.card ↔
      ∀ e ∈ T, e.swap ∈ T → homeOf n e.1 = homeOf n e.2 := by
  rw [← card_cut_unordered_iff, card_cutPairs]
  have hsum := sum_localPairs hhomes true
  rw [Partition.stored, if_pos rfl] at hsum
  rw [← hsum]
  push_cast
  constructor
  · intro heq
    have : (((T.filter fun e => homeOf n e.1 ≠ homeOf n e.2).image fun e => s(e.1, e.2)).card : ℚ) =
        (T.filter fun e => homeOf n e.1 ≠ homeOf n e.2).card := by linarith
    exact_mod_cast this
  · intro heq
    rw [heq]
    ring

/-! ## Undirected graphs -/

theorem swap_mem_localPairs {i : Fin n} {e : VertexId × VertexId} (he : e ∈ localPairs false T i) :
    e.swap ∈ localPairs false T i := by
  simp only [localPairs, mem_filter, mem_stored, swap_swap, true_and, fst_swap, snd_swap] at he ⊢
  exact ⟨he.1.symm, he.2.2, he.2.1⟩

def localLoops (T : Finset (VertexId × VertexId)) (i : Fin n) : Finset (VertexId × VertexId) :=
  (localPairs false T i).filter fun e => e.1 = e.2

include hhomes in
theorem two_mul_card_edges : 2 * (T.image fun e => s(e.1, e.2)).card =
    ∑ i : Fin n, ((localPairs false T i).card + (localLoops T i).card) + (cutPairs n T).card := by
  set S := Partition.stored false T with hS
  have hsymm : ∀ e ∈ S, e.swap ∈ S := by
    intro e he
    rw [hS, mem_stored, swap_swap]
    rcases mem_stored.1 he with he | ⟨-, he⟩
    · exact .inr ⟨rfl, he⟩
    · exact .inl he
  have hloops : (S.filter fun e => e.1 = e.2).card = ∑ i : Fin n, (localLoops T i).card := by
    rw [← sum_card_home _ (fun e => homeOf n e.1) fun e he =>
      (homes_stored hhomes (mem_filter.1 he).1).1]
    refine sum_congr rfl fun i _ => ?_
    congr 1
    ext e
    simp only [localLoops, localPairs, mem_filter, and_assoc, ← hS]
    refine and_congr_right fun _ => ⟨fun he => ?_, fun he => ⟨he.2.2, he.1⟩⟩
    exact ⟨he.2, he.1 ▸ he.2, he.1⟩
  have hsum : _ + (cutPairs n T).card = S.card := sum_localPairs hhomes false
  rw [← image_unordered_stored, two_mul_card_unordered hsymm, hloops, ← hsum, sum_add_distrib]
  omega

/-- A partition stores a loop once, so it halves too few. -/
theorem two_mul_half_iff (i : Fin n) :
    2 * ((localPairs false T i).card / 2) = (localPairs false T i).card + (localLoops T i).card ↔
      localLoops T i = ∅ := by
  have htwice := two_mul_card_unordered fun e => swap_mem_localPairs (T := T) (i := i)
  rw [← card_eq_zero]
  unfold localLoops
  omega

include hhomes in
theorem localLoops_eq_empty_iff : (∀ i : Fin n, localLoops T i = ∅) ↔ ∀ e ∈ T, e.1 ≠ e.2 := by
  constructor
  · intro hnone e he heq
    obtain ⟨i, hi⟩ := isSome_iff_exists.1 (hhomes e he).1
    have hmem : e ∈ localLoops T i := by
      simp only [localLoops, localPairs, mem_filter, mem_stored]
      exact ⟨⟨.inl he, hi, heq ▸ hi⟩, heq⟩
    rw [hnone i] at hmem
    exact Finset.notMem_empty e hmem
  · intro hnone i
    refine filter_eq_empty_iff.2 fun e he heq => ?_
    rcases mem_stored.1 (mem_filter.1 he).1 with he | ⟨-, he⟩
    · exact hnone e he heq
    · exact hnone e.swap he heq.symm

include hhomes in
theorem undirected_exact_iff :
    ((∑ i : Fin n, (localPairs false T i).card / 2 : Nat) : ℚ) + (cutPairs n T).card / 2 =
        (T.image fun e => s(e.1, e.2)).card ↔
      ∀ e ∈ T, e.1 ≠ e.2 := by
  have hle : ∀ i ∈ (univ : Finset (Fin n)), 2 * ((localPairs false T i).card / 2) ≤
      (localPairs false T i).card + (localLoops T i).card := fun i _ => by omega
  calc _ ↔ 2 * (∑ i : Fin n, (localPairs false T i).card / 2) + (cutPairs n T).card =
        2 * (T.image fun e => s(e.1, e.2)).card := by
        rw [← @Nat.cast_inj ℚ]
        push_cast
        constructor <;> intro heq <;> linarith
    _ ↔ ∑ i : Fin n, 2 * ((localPairs false T i).card / 2) =
        ∑ i : Fin n, ((localPairs false T i).card + (localLoops T i).card) := by
        rw [two_mul_card_edges hhomes, mul_sum, Nat.add_right_cancel_iff]
    _ ↔ ∀ i : Fin n, localLoops T i = ∅ := by
        rw [sum_eq_sum_iff_of_le hle]
        simp only [mem_univ, forall_const, two_mul_half_iff]
    _ ↔ _ := localLoops_eq_empty_iff hhomes

end Sums

/-! ## Exactness -/

theorem homeOf_numeral {v : VertexId} (hv : IsNumeral v) (hn : 0 < n) : homeOf n v =
    if ofDigits v < 2 ^ 31 then some ⟨ofDigits v % n, Nat.mod_lt _ hn⟩ else none := by
  unfold homeOf
  rw [hv.stoi]
  split_ifs with hlt
  · have hmod : (ofDigits v : Int).tmod n = ((ofDigits v % n : Nat) : Int) := by
      rw [Int.tmod_eq_emod_of_nonneg (Int.natCast_nonneg _)]
      exact (Int.natCast_emod _ n).symm
    have hindex : 0 ≤ ((ofDigits v % n : Nat) : Int) ∧ ((ofDigits v % n : Nat) : Int).toNat < n :=
      ⟨Int.natCast_nonneg _, Nat.mod_lt _ hn⟩
    simp only [hmod, bind_eq_bind, bind_some, dif_pos hindex]
    rfl
  · rfl

theorem comma_notMem_numeral {v : VertexId} (hv : IsNumeral v) : (44 : UInt8) ∉ v :=
  fun h => absurd (hv.2 44 h) (by decide)

/-- The stream ends, and the metadata written then are those of its edges. -/
def MetadataExact (graphID : Int) (isDirect : Bool) (uploadEndTime : List UInt8)
    (stream : List ((VertexId × VertexId) × Fin n × Fin n)) : Prop :=
  ∃ this, run stream (.new n graphID .HASH isDirect) = some this ∧
    (this.updateMetaDB uploadEndTime).vertexcount = (inputVertices (edgesOf stream)).card ∧
    (this.updateMetaDB uploadEndTime).edgecount = inputEdges isDirect (edgesOf stream)

section Exact

variable {graphID : Int} {isDirect : Bool} {uploadEndTime : List UInt8}
  {stream : List ((VertexId × VertexId) × Fin n × Fin n)}

/-- The counts of a partitioner that has placed the edges `T`, whose ids have no comma. -/
theorem Streamed.updateMetaDB {this : StreamPartitioner n} {T : Finset (VertexId × VertexId)}
    (h : Streamed this.isDirect T this.partitions) (uploadEndTime : List UInt8)
    (hhomes : ∀ e ∈ T, (homeOf n e.1).isSome ∧ (homeOf n e.2).isSome)
    (hcomma : ∀ e ∈ T, (44 : UInt8) ∉ e.1 ∧ (44 : UInt8) ∉ e.2) :
    (this.updateMetaDB uploadEndTime).vertexcount = (T.image fst ∪ T.image snd).card ∧
      ((this.updateMetaDB uploadEndTime).edgecount =
          ((if this.isDirect then T.card else (T.image fun e => s(e.1, e.2)).card : Nat) : ℚ) ↔
        if this.isDirect then ∀ e ∈ T, e.swap ∈ T → homeOf n e.1 = homeOf n e.2
        else ∀ e ∈ T, e.1 ≠ e.2) := by
  refine ⟨h.sum_getVertextCountQuick hhomes, ?_⟩
  have hedges : (this.updateMetaDB uploadEndTime).edgecount =
      ((∑ i, (this.partitions i).getEdgesCount this.isDirect : Nat) : ℚ) +
        (∑ i, (this.partitions i).edgeCutsCount : Nat) / 2 := rfl
  rw [hedges, h.sum_edgeCutsCount hhomes, sum_congr rfl fun i _ => h.getEdgesCount hcomma i]
  cases this.isDirect with
  | true =>
    simp only [if_true]
    exact directed_exact_iff hhomes
  | false =>
    simp only [Bool.false_eq_true, if_false]
    exact undirected_exact_iff hhomes

theorem metadataExact_iff_homes
    (hcomma : ∀ e ∈ edgesOf stream, (44 : UInt8) ∉ e.1 ∧ (44 : UInt8) ∉ e.2) :
    MetadataExact graphID isDirect uploadEndTime stream ↔
      (∀ e ∈ edgesOf stream, (homeOf n e.1).isSome ∧ (homeOf n e.2).isSome) ∧
        if isDirect then
          ∀ e ∈ edgesOf stream, e.swap ∈ edgesOf stream → homeOf n e.1 = homeOf n e.2
        else ∀ e ∈ edgesOf stream, e.1 ≠ e.2 := by
  by_cases hhomes : ∀ e ∈ edgesOf stream, (homeOf n e.1).isSome ∧ (homeOf n e.2).isSome
  · set new : StreamPartitioner n := .new n graphID .HASH isDirect
    have hnew : Streamed new.isDirect ∅ new.partitions := streamed_new n isDirect
    obtain ⟨this, hrun, hdirect, hstreamed⟩ := hnew.run rfl hhomes
    rw [empty_union, ← hdirect] at hstreamed
    have hdirect : this.isDirect = isDirect := hdirect
    obtain ⟨hvertices, hedges⟩ := hstreamed.updateMetaDB uploadEndTime
      (fun e he => hhomes e (List.mem_toFinset.1 he))
      (fun e he => hcomma e (List.mem_toFinset.1 he))
    simp only [hdirect, List.mem_toFinset] at hedges
    rw [and_iff_right hhomes, ← hedges]
    constructor
    · rintro ⟨this', hrun', -, h⟩
      cases hrun.symm.trans hrun'
      exact h
    · exact fun h => ⟨this, hrun, hvertices, h⟩
  · refine iff_of_false ?_ fun h => hhomes h.1
    rintro ⟨this, hrun, -⟩
    exact hhomes (homes_of_run rfl hrun)

/-- **When the metadata of a stream are exact.** For every stream of non-negative integer ids: the
ids are in the range of `int`, and no edge of a directed graph whose ends are in different
partitions occurs in both directions, and an undirected graph has no loop. -/
theorem updateMetaDB_exact_iff (hids : ∀ e ∈ edgesOf stream, IsNumeral e.1 ∧ IsNumeral e.2) :
    MetadataExact graphID isDirect uploadEndTime stream ↔
      (∀ e ∈ edgesOf stream, ofDigits e.1 < 2 ^ 31 ∧ ofDigits e.2 < 2 ^ 31) ∧
        if isDirect then
          ∀ e ∈ edgesOf stream, e.swap ∈ edgesOf stream → ofDigits e.1 % n = ofDigits e.2 % n
        else ∀ e ∈ edgesOf stream, e.1 ≠ e.2 := by
  rw [metadataExact_iff_homes fun e he =>
    ⟨comma_notMem_numeral (hids e he).1, comma_notMem_numeral (hids e he).2⟩]
  have hn : ∀ e ∈ edgesOf stream, 0 < n := by
    intro e he
    obtain ⟨step, -, -⟩ := List.mem_map.1 he
    exact step.2.1.pos
  have hsome : ∀ e ∈ edgesOf stream, ((homeOf n e.1).isSome ∧ (homeOf n e.2).isSome ↔
      ofDigits e.1 < 2 ^ 31 ∧ ofDigits e.2 < 2 ^ 31) := by
    intro e he
    rw [homeOf_numeral (hids e he).1 (hn e he), homeOf_numeral (hids e he).2 (hn e he)]
    refine and_congr ?_ ?_ <;> split_ifs with hlt
    · exact iff_of_true rfl hlt
    · exact iff_of_false Bool.false_ne_true hlt
    · exact iff_of_true rfl hlt
    · exact iff_of_false Bool.false_ne_true hlt
  rw [forall₂_congr hsome]
  refine and_congr_right fun hrange => ?_
  split_ifs
  · refine forall₂_congr fun e he => imp_congr_right fun _ => ?_
    rw [homeOf_numeral (hids e he).1 (hn e he), homeOf_numeral (hids e he).2 (hn e he),
      if_pos (hrange e he).1, if_pos (hrange e he).2, some.injEq, Fin.mk.injEq]
  · rfl

end Exact

instance (b : List UInt8) : Decidable (IsNumeral b) :=
  @instDecidableAnd _ _ _ (List.decidableBAll (fun d => isDigit d = true) b)

/-- Two edges between 1 and 2, in both directions. -/
def bothDirections : List ((VertexId × VertexId) × Fin 2 × Fin 2) :=
  [(([49], [50]), first, first), (([50], [49]), first, first)]

theorem updateMetaDB_exact_bothDirections : MetadataExact 1 false [] bothDirections ↔
      (∀ e ∈ edgesOf bothDirections, ofDigits e.1 < 2 ^ 31 ∧ ofDigits e.2 < 2 ^ 31) ∧
        if false then
          ∀ e ∈ edgesOf bothDirections, e.swap ∈ edgesOf bothDirections →
            ofDigits e.1 % 2 = ofDigits e.2 % 2
        else ∀ e ∈ edgesOf bothDirections, e.1 ≠ e.2 :=
  updateMetaDB_exact_iff (by decide)

/-- The two edges of the directed graph are counted as one. -/
theorem updateMetaDB_counts_one : ∃ this, run bothDirections (.new 2 1 .HASH true) = some this ∧
      (this.updateMetaDB []).edgecount = 1 ∧ inputEdges true (edgesOf bothDirections) = 2 :=
  ⟨_, rfl, by decide +kernel, by decide⟩

end JasmineGraph.Partitioner
