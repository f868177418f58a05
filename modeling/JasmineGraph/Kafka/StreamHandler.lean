import JasmineGraph.Partitioner.Partition

/-!
# Routing a stream of edges: `StreamHandler`

The model of `StreamHandler::listen_to_kafka_topic` (`util/kafka/StreamHandler.cpp`) with the hash
algorithm of `Partitioner` (`partitioner/stream/Partitioner.cpp`). Of every edge the handler asks
the partitioner for the partitions of its two ends. An edge within a partition is published once,
as a local edge of it; any other edge is published twice, as a central edge of either. The client a
message is published to is the partition modulo the number of workers, so all messages of a
partition reach the same worker, which applies them to the store of that partition.

`none` stands for the exceptions and the undefined index that end the handler: an id `std::stoi`
rejects, a negative partition, no worker, a client `workerClients.at` does not find. What Kafka
delivers is abstracted to `Message`; an edge object is one that has two string ids.
-/

namespace JasmineGraph.Kafka

open Partitioner List Option

variable {n : Nat}

/-- What `pollMessage` returns. -/
inductive Message where
  | error
  /-- `"-1"`, or the stop flag is found set. -/
  | endOfStream
  | edge (source destination : VertexId)

inductive EdgeType where
  | Local
  | Central
deriving DecidableEq

/-- What is published to `workerClients.at(client)`. -/
inductive Published (n : Nat) where
  | endOfStream (client : Nat)
  | edge (client : Nat) (edgeType : EdgeType) (pid : Fin n) (edge : VertexId × VertexId)

/-- The state of a `Partitioner`. -/
structure GraphPartitioner (n : Nat) where
  isDirect : Bool
  partitions : Fin n → Partition

def GraphPartitioner.hashPartitioning (this : GraphPartitioner n) (edge : VertexId × VertexId) :
    Option (GraphPartitioner n × Fin n × Fin n) := do
  let firstIndex ← homeOf n edge.1
  let secondIndex ← homeOf n edge.2
  if firstIndex = secondIndex then
    let partition := (this.partitions firstIndex).addEdge edge this.isDirect
    some ({ this with partitions := Function.update this.partitions firstIndex partition },
      firstIndex, secondIndex)
  else
    let first := (this.partitions firstIndex).addToEdgeCuts edge.1 edge.2 secondIndex
    let partitions := Function.update this.partitions firstIndex first
    let second := (partitions secondIndex).addToEdgeCuts edge.2 edge.1 firstIndex
    some ({ this with partitions := Function.update partitions secondIndex second },
      firstIndex, secondIndex)

/-- The property `org.jasminegraph.server.nworkers`, and the size of `workerClients`. -/
structure Workers where
  nWorkers : Nat
  workerClients : Nat

def Workers.clientOf (w : Workers) (part : Nat) : Option Nat :=
  if w.nWorkers ≠ 0 ∧ part % w.nWorkers < w.workerClients then some (part % w.nWorkers) else none

def route (w : Workers) (this : GraphPartitioner n) (edge : VertexId × VertexId) :
    Option (GraphPartitioner n × List (Published n)) := do
  let (this, part_s, part_d) ← this.hashPartitioning edge
  if part_s = part_d then
    let client ← w.clientOf part_s
    some (this, [.edge client .Local part_s edge])
  else
    let first ← w.clientOf part_s
    let second ← w.clientOf part_d
    some (this, [.edge first .Central part_s edge, .edge second .Central part_d edge])

/-- The loop of `listen_to_kafka_topic`. -/
def listen (w : Workers) : List Message → GraphPartitioner n →
    Option (GraphPartitioner n × List (Published n))
  | [], this => some (this, [])
  | .error :: messages, this => listen w messages this
  | .endOfStream :: _, this => some (this, (List.range w.workerClients).map .endOfStream)
  | .edge source destination :: messages, this => do
    let (this, published) ← route w this (source, destination)
    let (this, rest) ← listen w messages this
    some (this, published ++ rest)

/-- The edges a stream carries up to its end. -/
def streamed : List Message → List (VertexId × VertexId)
  | [] => []
  | .error :: messages => streamed messages
  | .endOfStream :: _ => []
  | .edge source destination :: messages => (source, destination) :: streamed messages

/-- The edge a message adds to a kind of edges of a partition. -/
def Published.edgeOf? (edgeType : EdgeType) (pid : Fin n) : Published n →
    Option (VertexId × VertexId)
  | .endOfStream _ => none
  | .edge _ type target e => if type = edgeType ∧ target = pid then some e else none

/-- The edges of a kind that the store of a partition receives. -/
def storeEdges (published : List (Published n)) (edgeType : EdgeType) (pid : Fin n) :
    List (VertexId × VertexId) :=
  published.filterMap (Published.edgeOf? edgeType pid)

/-! ## One edge -/

section Route

variable {w : Workers} {this this' : GraphPartitioner n} {edge e : VertexId × VertexId}
  {published : List (Published n)} {pid : Fin n}

theorem hashPartitioning_spec {first second : Fin n}
    (h : this.hashPartitioning edge = some (this', first, second)) :
    homeOf n edge.1 = some first ∧ homeOf n edge.2 = some second := by
  simp only [GraphPartitioner.hashPartitioning, bind_eq_bind, bind_eq_some_iff] at h
  obtain ⟨firstIndex, hfirst, secondIndex, hsecond, h⟩ := h
  split_ifs at h <;> cases h <;> exact ⟨hfirst, hsecond⟩

/-- **The messages of an edge**: one to its partition, or one to either. -/
theorem route_spec (h : route w this edge = some (this', published)) :
    ∃ first second, homeOf n edge.1 = some first ∧ homeOf n edge.2 = some second ∧
      ∃ client client', published =
        if first = second then [.edge client .Local first edge]
        else [.edge client .Central first edge, .edge client' .Central second edge] := by
  simp only [route, bind_eq_bind, bind_eq_some_iff] at h
  obtain ⟨⟨p, first, second⟩, hhash, h⟩ := h
  obtain ⟨hfirst, hsecond⟩ := hashPartitioning_spec hhash
  refine ⟨first, second, hfirst, hsecond, ?_⟩
  split_ifs at h with heq
  · obtain ⟨client, -, h⟩ := bind_eq_some_iff.1 h
    cases h
    exact ⟨client, client, (if_pos heq).symm⟩
  · obtain ⟨client, -, h⟩ := bind_eq_some_iff.1 h
    obtain ⟨client', -, h⟩ := bind_eq_some_iff.1 h
    cases h
    exact ⟨client, client', (if_neg heq).symm⟩

def Inside (n : Nat) (pid : Fin n) (edge : VertexId × VertexId) : Prop :=
  homeOf n edge.1 = some pid ∧ homeOf n edge.2 = some pid

def Across (n : Nat) (pid : Fin n) (edge : VertexId × VertexId) : Prop :=
  homeOf n edge.1 ≠ homeOf n edge.2 ∧ (homeOf n edge.1 = some pid ∨ homeOf n edge.2 = some pid)

/-- What a kind of edges of a partition is. -/
def Belongs (n : Nat) (edgeType : EdgeType) (pid : Fin n) (edge : VertexId × VertexId) : Prop :=
  match edgeType with
  | .Local => Inside n pid edge
  | .Central => Across n pid edge

theorem mem_storeEdges_route (h : route w this edge = some (this', published))
    (edgeType : EdgeType) :
    e ∈ storeEdges published edgeType pid ↔ e = edge ∧ Belongs n edgeType pid edge := by
  obtain ⟨first, second, hfirst, hsecond, client, client', rfl⟩ := route_spec h
  unfold storeEdges
  rw [mem_filterMap]
  cases edgeType <;> simp only [Belongs, Inside, Across, hfirst, hsecond] <;>
    split_ifs with heq <;>
    simp only [mem_cons, not_mem_nil, or_false, exists_eq_left, exists_eq_or_imp,
      Published.edgeOf?, reduceCtorEq, false_and, if_false, true_and, some.injEq,
      ite_none_right_eq_some, ne_eq] <;>
    grind

end Route

/-! ## The stream -/

section Stream

variable {w : Workers} {this this' : GraphPartitioner n} {messages : List Message}
  {published : List (Published n)} {pid : Fin n} {e : VertexId × VertexId}

/-- **What the store of a partition receives.** -/
theorem mem_storeEdges (h : listen w messages this = some (this', published))
    (edgeType : EdgeType) :
    e ∈ storeEdges published edgeType pid ↔ e ∈ streamed messages ∧ Belongs n edgeType pid e := by
  induction messages generalizing this this' published with
  | nil =>
    cases h
    simp [storeEdges, streamed]
  | cons message messages ih =>
    cases message with
    | error => exact ih h
    | endOfStream =>
      cases h
      simp [storeEdges, streamed, Published.edgeOf?]
    | edge source destination =>
      simp only [listen, bind_eq_bind, bind_eq_some_iff] at h
      obtain ⟨⟨p, first⟩, hroute, ⟨q, rest⟩, hrest, h⟩ := h
      cases h
      have hmem : e ∈ storeEdges first edgeType pid ↔ _ := mem_storeEdges_route hroute edgeType
      rw [storeEdges, filterMap_append, mem_append, ← storeEdges, ← storeEdges, hmem,
        ih hrest, streamed, mem_cons, or_and_right]
      exact or_congr_left (and_congr_right fun he => by rw [he])

theorem homes_of_listen (h : listen w messages this = some (this', published))
    (he : e ∈ streamed messages) : ∃ p q, homeOf n e.1 = some p ∧ homeOf n e.2 = some q := by
  induction messages generalizing this this' published with
  | nil => cases he
  | cons message messages ih =>
    cases message with
    | error => exact ih h he
    | endOfStream => cases he
    | edge source destination =>
      simp only [listen, bind_eq_bind, bind_eq_some_iff] at h
      obtain ⟨⟨p, first⟩, hroute, ⟨q, rest⟩, hrest, -⟩ := h
      rcases mem_cons.1 he with rfl | he
      · obtain ⟨first, second, hfirst, hsecond, -⟩ := route_spec hroute
        exact ⟨first, second, hfirst, hsecond⟩
      · exact ih hrest he

/-- The text of a non-negative integer. -/
def IsId (vertex : VertexId) : Prop := ∃ number : Nat, Bytes.stoi vertex = some (number : Int)

theorem homeOf_isSome {vertex : VertexId} (hn : 0 < n) (h : IsId vertex) :
    ∃ p, homeOf n vertex = some p := by
  obtain ⟨number, hnumber⟩ := h
  have hmod : (number : Int).tmod n = ((number % n : Nat) : Int) := by
    rw [Int.tmod_eq_emod_of_nonneg (Int.natCast_nonneg number)]
    exact (Int.natCast_emod number n).symm
  have hindex : 0 ≤ ((number % n : Nat) : Int) ∧ ((number % n : Nat) : Int).toNat < n :=
    ⟨Int.natCast_nonneg _, Nat.mod_lt number hn⟩
  refine ⟨⟨number % n, Nat.mod_lt number hn⟩, ?_⟩
  simp only [homeOf, hnumber, hmod, bind_eq_bind, bind_some, dif_pos hindex]
  rfl

/-- Every partition has a client. -/
def Workers.Serving (w : Workers) (n : Nat) : Prop := ∀ pid : Fin n, (w.clientOf pid).isSome

instance (w : Workers) (n : Nat) : Decidable (w.Serving n) :=
  inferInstanceAs (Decidable (∀ pid : Fin n, (w.clientOf pid).isSome))

theorem route_isSome (hn : 0 < n) (hw : w.Serving n) {edge : VertexId × VertexId}
    (h : IsId edge.1 ∧ IsId edge.2) (this : GraphPartitioner n) :
    ∃ r, route w this edge = some r := by
  obtain ⟨first, hfirst⟩ := homeOf_isSome hn h.1
  obtain ⟨second, hsecond⟩ := homeOf_isSome hn h.2
  simp only [route, GraphPartitioner.hashPartitioning, hfirst, hsecond, bind_eq_bind, bind_some]
  obtain ⟨client, hclient⟩ := isSome_iff_exists.1 (hw first)
  obtain ⟨client', hclient'⟩ := isSome_iff_exists.1 (hw second)
  by_cases heq : first = second
  · simp [← heq, hclient]
  · simp [heq, hclient, hclient']

/-- **A stream of non-negative integer ids is routed to its end.** -/
theorem listen_isSome (hn : 0 < n) (hw : w.Serving n)
    (h : ∀ e ∈ streamed messages, IsId e.1 ∧ IsId e.2) (this : GraphPartitioner n) :
    ∃ r, listen w messages this = some r := by
  induction messages generalizing this with
  | nil => exact ⟨_, rfl⟩
  | cons message messages ih =>
    cases message with
    | error => exact ih h this
    | endOfStream => exact ⟨_, rfl⟩
    | edge source destination =>
      obtain ⟨⟨p, first⟩, hroute⟩ := route_isSome hn hw (h _ mem_cons_self) this
      obtain ⟨⟨q, rest⟩, hrest⟩ := ih (fun e he => h e (mem_cons_of_mem _ he)) p
      refine ⟨(q, first ++ rest), ?_⟩
      simp only [listen, hroute, hrest, bind_eq_bind, bind_some]

open Classical in
theorem storeEdges_route (h : route w this e = some (this', published)) (edgeType : EdgeType) :
    storeEdges published edgeType pid = [e].filter (Belongs n edgeType pid) := by
  obtain ⟨first, second, hfirst, hsecond, client, client', rfl⟩ := route_spec h
  cases edgeType <;> simp only [Belongs, Inside, Across, hfirst, hsecond, filter_singleton,
    storeEdges] <;> grind [Published.edgeOf?]

open Classical in
/-- **Every edge once and in order**: the stream is routed to its end, and the store of a partition
receives the edges that belong to it. -/
theorem listen_delivers (hn : 0 < n) (hw : w.Serving n)
    (hids : ∀ e ∈ streamed messages, IsId e.1 ∧ IsId e.2) (this : GraphPartitioner n) :
    ∃ this' published, listen w messages this = some (this', published) ∧ ∀ edgeType pid,
      storeEdges published edgeType pid = (streamed messages).filter (Belongs n edgeType pid) := by
  obtain ⟨⟨this', published⟩, h⟩ := listen_isSome hn hw hids this
  refine ⟨this', published, h, fun edgeType pid => ?_⟩
  clear hids
  induction messages generalizing this this' published with
  | nil =>
    cases h
    rfl
  | cons message messages ih =>
    cases message with
    | error => exact ih _ _ _ h
    | endOfStream =>
      cases h
      simp [storeEdges, streamed, Published.edgeOf?]
    | edge source destination =>
      simp only [listen, bind_eq_bind, bind_eq_some_iff] at h
      obtain ⟨⟨p, first⟩, hroute, ⟨q, rest⟩, hrest, h⟩ := h
      cases h
      rw [storeEdges, filterMap_append, ← storeEdges, ← storeEdges, storeEdges_route hroute,
        ih _ _ _ hrest, ← filter_append]
      rfl

theorem listen_delivers_cut : ∃ r, listen ⟨1, 1⟩ [.edge (Bytes.ascii "0") (Bytes.ascii "1")]
    ⟨true, fun _ : Fin 2 => .new 2⟩ = some r := by
  have hids : ∀ e ∈ streamed [.edge (Bytes.ascii "0") (Bytes.ascii "1")], IsId e.1 ∧ IsId e.2 :=
    forall_mem_singleton.2 ⟨⟨0, by decide⟩, ⟨1, by decide⟩⟩
  exact ⟨_, (listen_delivers two_pos (by decide) hids _).choose_spec.choose_spec.1⟩

end Stream

end JasmineGraph.Kafka
