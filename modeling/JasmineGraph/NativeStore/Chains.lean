import JasmineGraph.NativeStore.AddEdge

/-!
# The adjacency lists of a store

A node block refers to its first local and its first central relation; from there the reader follows
the links of the node's own end in each block. `Follows` says which addresses such a walk visits, in
terms of the objects `getLocalRelation` and `getCentralRelation` return, and `IsChain` that a list of
addresses is the list of a node: exactly the relations the node is an end of, newest first, found
forward from the reference in its block and backward from the oldest of them.
-/

namespace JasmineGraph.NativeStore

open Bytes Refine Thread RelationBlock

def RelationBlock.endAt (r : RelationBlock) (x : Nat) : NodeRelation :=
  if r.source.address = x then r.source else r.destination

/-- Following `link` from address `a`, at the node `x`: the addresses visited, down to address 0. -/
inductive Follows (s : Store) (k : RelationKind) (x : Nat) (link : NodeRelation → Nat) :
    Nat → List Nat → Prop
  | stop : Follows s k x link 0 []
  | step {a : Nat} {r : RelationBlock} {l : List Nat} (ha : a ≠ 0)
      (hr : (getRelation k a).run' s = some (some r))
      (hl : Follows s k x link (link (r.endAt x)) l) : Follows s k x link a (a :: l)

/-- `blocks` is the list of relations of the node `n`, where the relation file has the blocks
`1..count`. -/
structure IsChain (s : Store) (k : RelationKind) (count : Nat) (n : NodeBlock)
    (blocks : List Nat) : Prop where
  inFile : ∀ a ∈ blocks, ∃ b, 0 < b ∧ b ≤ count ∧ a = b * k.blockSize
  mem_iff : ∀ b, 0 < b → b ≤ count → ∃ r, (getRelation k (b * k.blockSize)).run' s = some (some r) ∧
      (b * k.blockSize ∈ blocks ↔ r.source.address = n.addr ∨ r.destination.address = n.addr)
  newestFirst : blocks.Pairwise (· > ·)
  forward : Follows s k n.addr (·.nextRelationId) (n.relationRef k) blocks
  backward : Follows s k n.addr (·.preRelationId) (blocks.reverse.headD 0) blocks.reverse

/-- The number of edges of a kind among the calls. -/
def edgeCount (ops : List EdgeOp) (k : RelationKind) : Nat := ops.countP fun op => op.1 = k

namespace Holds

variable {g : Log} {img : Image} {s : Store} {k : RelationKind} {id : ByteString} {b : Nat}

theorem run_getRelation (h : Holds g img) (hs : img.Shown none s) (h0 : 0 < b)
    (hb : b ≤ (g.edges k).length) :
    (getRelation k (b * k.blockSize)).run' s = some (some (img.relation k (b * k.blockSize))) :=
  (Image.runs_getRelation ((h.ends k).relationOk h.nodes h0 hb)).run'_eq hs

theorem nextRelationId_endAt (x : Nat) :
    ((img.relation k (b * k.blockSize)).endAt x).nextRelationId = img.nxt k x b := by
  unfold endAt Image.nxt Image.nextOffset Image.word Image.relation
  simp only [sourceOf, eq_comm]
  split_ifs <;> rfl

theorem preRelationId_endAt (x : Nat) :
    ((img.relation k (b * k.blockSize)).endAt x).preRelationId = img.prv k x b := by
  unfold endAt Image.prv Image.previousOffset Image.word Image.relation
  simp only [sourceOf, eq_comm]
  split_ifs <;> rfl

/-- A walk over the objects of the image is a walk of the code. -/
theorem follows_of_visits (h : Holds g img) (hs : img.Shown none s) {x : Nat}
    {link : NodeRelation → Nat} : ∀ {l : List Nat} {a : Nat},
    (∀ c ∈ l, ∃ b, 0 < b ∧ b ≤ (g.edges k).length ∧ c = b * k.blockSize) →
    Visits (fun a => link ((img.relation k a).endAt x)) a l → Follows s k x link a l
  | [], _, _, hv => by
    rw [show _ = 0 from hv]
    exact Follows.stop
  | c :: l, a, hl, ⟨hac, ha, hv⟩ => by
    obtain ⟨b, h0, hb, hc⟩ := hl c List.mem_cons_self
    have hget := h.run_getRelation hs h0 hb
    rw [← hac.trans hc] at hget
    rw [← hac]
    exact Follows.step ha hget
      (follows_of_visits h hs (fun c' hc' => hl c' (List.mem_cons_of_mem _ hc')) hv)

/-- **Every node of a store has its list of relations.** -/
theorem isChain (h : Holds g img) (hs : img.Shown none s) (hid : id ∈ g.ids) (k : RelationKind) :
    IsChain s k (g.edges k).length (img.node (g.nodeAddr id))
      ((newest (g.Joins k id) (g.edges k).length).map (· * k.blockSize)) := by
  have hpos : 0 < k.blockSize := by cases k <;> decide
  have hthread := h.links k id hid
  have hin : ∀ a ∈ (newest (g.Joins k id) (g.edges k).length).map (· * k.blockSize),
      ∃ b, 0 < b ∧ b ≤ (g.edges k).length ∧ a = b * k.blockSize := by
    intro a ha
    obtain ⟨b, hb, rfl⟩ := List.mem_map.1 ha
    obtain ⟨h0, hle, -⟩ := mem_newest.1 hb
    exact ⟨b, h0, hle, rfl⟩
  have hne : ∀ b, 0 < b → b * k.blockSize ≠ 0 :=
    fun b h0 => Nat.ne_of_gt (Nat.mul_pos h0 hpos)
  refine ⟨hin, fun b h0 hb => ⟨_, h.run_getRelation hs h0 hb, ?_⟩, ?_, ?_, ?_⟩
  · have hmem : b * k.blockSize ∈ (newest (g.Joins k id) (g.edges k).length).map
        (· * k.blockSize) ↔ g.Joins k id b := by
      rw [List.mem_map]
      constructor
      · rintro ⟨c, hc, heq⟩
        rw [← Nat.eq_of_mul_eq_mul_right hpos heq]
        exact (mem_newest.1 hc).2.2
      · exact fun hj => ⟨b, mem_newest.2 ⟨h0, hb, hj⟩, rfl⟩
    rw [hmem, ← (h.ends k).isEnd_iff hid h0 hb]
    exact or_congr eq_comm eq_comm
  · refine List.pairwise_map.2 ((newest_pairwise _).imp fun hlt => ?_)
    exact Nat.mul_lt_mul_of_pos_right hlt hpos
  · refine h.follows_of_visits hs hin
      (hthread.forward (Nat.zero_mul _) hne fun b _ _ _ => ?_)
    exact nextRelationId_endAt _
  · refine h.follows_of_visits hs (fun a ha => hin a (List.mem_reverse.1 ha))
      (hthread.backward (Nat.zero_mul _) hne fun b _ _ _ => ?_)
    exact preRelationId_endAt _

end Holds

theorem length_edges_ofOps (k : RelationKind) (ops : List EdgeOp) :
    ((Log.ofOps ops).edges k).length = edgeCount ops k := by
  rw [Log.ofOps, Log.edges_addEdges, edgeCount, List.countP_eq_length_filter]
  simp [Log.empty]

/-- **The adjacency lists of a store.** Any sequence of local and central edges on a new store runs
to its end, and in the store it leaves every indexed node has, for each kind, the list of the
relations it is an end of. -/
theorem run_addEdges_chains (keySize : Nat) (rawType : RelationKind → Nat → Fin 100 → UInt8)
    (disk : Disk) (ops : List EdgeOp) (hacc : AllAccepted keySize ops)
    (hfit : Fits (Log.ofOps ops)) :
    ∃ s, NodeManager.addEdges ops (NodeManager.openTruncate keySize rawType disk) = some ((), s) ∧
      ∀ (id : ByteString) (i : Nat), s.mem.nodeIndex[id]? = some i →
        ∃ n, (NodeBlock.get (i * NodeBlock.blockSize)).run' s = some n ∧
          ∀ k, ∃ blocks, IsChain s k (edgeCount ops k) n blocks := by
  obtain ⟨img, s, hrun, hs, h⟩ := run_addEdges rawType disk hacc hfit
  refine ⟨s, hrun, fun id i hi => ?_⟩
  rw [hs.memory, h.nodes.index] at hi
  split_ifs at hi with hid
  obtain rfl := Option.some.inj hi
  refine ⟨_, (Image.runs_get (h.nodes.ok _ (Log.slot_lt hid))).run'_eq hs, fun k => ?_⟩
  have hchain := h.isChain hs hid k
  rw [length_edges_ofOps] at hchain
  exact ⟨_, hchain⟩

/-- An edge, its reverse, a self-loop and a repetition, of both kinds. -/
def tangle : List EdgeOp :=
  [(.localRelation, ascii "1", ascii "2"), (.localRelation, ascii "2", ascii "1"),
    (.localRelation, ascii "1", ascii "1"), (.centralRelation, ascii "2", ascii "3"),
    (.localRelation, ascii "1", ascii "2")]

theorem tangle_accepted : AllAccepted 6 tangle := by decide

theorem tangle_fits : Fits (Log.ofOps tangle) := by decide

theorem run_addEdges_chains_tangle :
    ∃ s, NodeManager.addEdges tangle (NodeManager.openTruncate 6 (fun _ _ _ => 0) Disk.empty) =
        some ((), s) ∧
      ∀ (id : ByteString) (i : Nat), s.mem.nodeIndex[id]? = some i →
        ∃ n, (NodeBlock.get (i * NodeBlock.blockSize)).run' s = some n ∧
          ∀ k, ∃ blocks, IsChain s k (edgeCount tangle k) n blocks :=
  run_addEdges_chains 6 (fun _ _ _ => 0) Disk.empty tangle tangle_accepted tangle_fits

end JasmineGraph.NativeStore
