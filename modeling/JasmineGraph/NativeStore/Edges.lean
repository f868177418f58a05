import JasmineGraph.NativeStore.Log
import JasmineGraph.NativeStore.Records

/-!
# The edges of a log in a store

`Log.addEdge` lists an edge under its kind. `EndsHold` says that an image stores the edges: block
`b` of the relation file names the two nodes of the `b`-th edge of its kind, and the reference of
every node block leads to the last edge of the node. `LinksHold` says that the links of the blocks
are those of a list threaded through the edges of every node, newest first. It is kept apart: a
function that writes the type of a relation can hit links, but never the ends.
-/

namespace JasmineGraph.NativeStore

open Bytes Refine Thread Image Log

/-! ## Edges of a log -/

namespace Log

/-- An edge between two listed nodes. -/
def join (g : Log) (k : RelationKind) (e : ByteString × ByteString)
    (he : e.1 ∈ g.ids ∧ e.2 ∈ g.ids) : Log where
  ids := g.ids
  edges := Function.update g.edges k (g.edges k ++ [e])
  nodup := g.nodup
  ends k' e' he' := by
    by_cases hk : k' = k
    · subst hk
      rw [Function.update_self, List.mem_append, List.mem_singleton] at he'
      rcases he' with h | rfl
      · exact g.ends k' e' h
      · exact he
    · rw [Function.update_of_ne hk] at he'
      exact g.ends k' e' he'

theorem addEdge_ends (g : Log) (e : ByteString × ByteString) :
    e.1 ∈ ((g.addNode e.1).addNode e.2).ids ∧ e.2 ∈ ((g.addNode e.1).addNode e.2).ids :=
  ⟨mem_addNode.2 (.inr (mem_addNode.2 (.inl rfl))), mem_addNode.2 (.inl rfl)⟩

def addEdge (g : Log) (k : RelationKind) (e : ByteString × ByteString) : Log :=
  ((g.addNode e.1).addNode e.2).join k e (g.addEdge_ends e)

def Joins (g : Log) (k : RelationKind) (id : ByteString) (b : Nat) : Prop :=
  ∃ e, (g.edges k)[b - 1]? = some e ∧ (e.1 = id ∨ e.2 = id)

instance (g : Log) (k : RelationKind) (id : ByteString) : DecidablePred (g.Joins k id) := fun b =>
  decidable_of_iff (((g.edges k)[b - 1]?).any fun e => decide (e.1 = id ∨ e.2 = id)) (by
    simp only [Joins, Option.any_eq_true, decide_eq_true_eq])

variable {g : Log} {k k' : RelationKind} {id : ByteString} {e : ByteString × ByteString}
  {he : e.1 ∈ g.ids ∧ e.2 ∈ g.ids} {b : Nat}

theorem edges_join : (g.join k e he).edges k = g.edges k ++ [e] := Function.update_self _ _ _

theorem edges_join_of_ne (h : k' ≠ k) : (g.join k e he).edges k' = g.edges k' :=
  Function.update_of_ne h _ _

theorem length_join : ((g.join k e he).edges k).length = (g.edges k).length + 1 := by
  rw [edges_join, List.length_append, List.length_singleton]

theorem joins_join_old (h0 : 0 < b) (hb : b ≤ (g.edges k).length) :
    g.Joins k id b ↔ (g.join k e he).Joins k id b := by
  unfold Joins
  rw [edges_join, List.getElem?_append_left (by omega)]

theorem joins_join_new :
    (g.join k e he).Joins k id ((g.edges k).length + 1) ↔ e.1 = id ∨ e.2 = id := by
  unfold Joins
  simp [edges_join]

theorem joins_join_of_ne (h : k' ≠ k) : g.Joins k' id b ↔ (g.join k e he).Joins k' id b := by
  rw [Joins, Joins, edges_join_of_ne h]

theorem joins_mem (h : g.Joins k id b) : id ∈ g.ids := by
  obtain ⟨e, he, h⟩ := h
  obtain ⟨h1, h2⟩ := g.ends k e (List.mem_of_getElem? he)
  rcases h with rfl | rfl
  · exact h1
  · exact h2

theorem joins_addNode {id' : ByteString} : (g.addNode id').Joins k id b ↔ g.Joins k id b := .rfl

end Log

def EdgesFit (g : Log) (k : RelationKind) : Prop := (g.edges k).length * k.blockSize < 2 ^ 32

instance (g : Log) (k : RelationKind) : Decidable (EdgesFit g k) :=
  inferInstanceAs (Decidable ((g.edges k).length * k.blockSize < 2 ^ 32))

/-- The image stores the edges of a kind and the first edge of every node. -/
structure EndsHold (g : Log) (img : Image) (k : RelationKind) : Prop where
  next : img.mem.nextRelationIndex k = (g.edges k).length + 1
  inside : g.edges k ≠ [] → ((g.edges k).length + 1) * k.blockSize ≤ (img.files (.relations k)).size
  source : ∀ b e, (g.edges k)[b]? = some e → img.word k (b + 1) .source = g.nodeAddr e.1
  destination : ∀ b e, (g.edges k)[b]? = some e → img.word k (b + 1) .destination = g.nodeAddr e.2
  head : ∀ id ∈ g.ids,
    img.head k (g.nodeAddr id) = last (g.Joins k id) (g.edges k).length * k.blockSize

def LinksHold (g : Log) (img : Image) (k : RelationKind) : Prop :=
  ∀ id ∈ g.ids, Thread (g.Joins k id) (· * k.blockSize) (g.edges k).length
    (img.head k (g.nodeAddr id)) (img.nxt k (g.nodeAddr id)) (img.prv k (g.nodeAddr id))

namespace EndsHold

variable {g : Log} {img : Image} {k : RelationKind} {id : ByteString} {b : Nat}

theorem isEnd_iff (h : EndsHold g img k) (hid : id ∈ g.ids) (h0 : 0 < b)
    (hb : b ≤ (g.edges k).length) : img.IsEnd k (g.nodeAddr id) b ↔ g.Joins k id b := by
  obtain ⟨b, rfl⟩ : ∃ c, b = c + 1 := ⟨b - 1, by omega⟩
  have hget : (g.edges k)[b]? = some (g.edges k)[b] := List.getElem?_eq_getElem (by omega)
  unfold IsEnd Joins
  rw [h.source b _ hget, h.destination b _ hget, nodeAddr_inj hid, nodeAddr_inj hid,
    Nat.add_sub_cancel, hget]
  simp only [Option.some.injEq, exists_eq_left', @eq_comm _ id]

/-- The old blocks are readable in every image whose nodes, ends and size are the ones here. -/
theorem relationOk_of {img' : Image} (h : EndsHold g img k) (h0 : 0 < b)
    (hb : b ≤ (g.edges k).length)
    (hnodes : ∀ i < g.ids.length, NodeOk (img'.files .nodes) (i * NodeBlock.blockSize))
    (hword : ∀ {o}, (o = .source ∨ o = .destination) → img'.word k b o = img.word k b o)
    (hsize : (img.files (.relations k)).size ≤ (img'.files (.relations k)).size) :
    RelationOk img' k (b * k.blockSize) := by
  obtain ⟨b, rfl⟩ : ∃ c, b = c + 1 := ⟨b - 1, by omega⟩
  have hget : (g.edges k)[b]? = some (g.edges k)[b] := List.getElem?_eq_getElem (by omega)
  have hmem := g.ends k _ (List.getElem_mem (by omega : b < (g.edges k).length))
  have hin := h.inside (List.ne_nil_of_length_pos (by omega))
  refine ⟨?_, Nat.mul_mod_left _ _, ?_, ?_, ?_⟩
  · cases k <;> simp [RelationKind.blockSize]
  · refine Nat.le_trans ?_ (hin.trans hsize)
    rw [← Nat.succ_mul]
    exact Nat.mul_le_mul_right _ (by omega)
  · have hsrc := (hword (.inl rfl)).trans (h.source b _ hget)
    rw [word] at hsrc
    rw [hsrc]
    exact hnodes _ (slot_lt hmem.1)
  · have hdst := (hword (.inr rfl)).trans (h.destination b _ hget)
    rw [word] at hdst
    rw [hdst]
    exact hnodes _ (slot_lt hmem.2)

theorem relationOk (h : EndsHold g img k) (hn : NodesHold g img) (h0 : 0 < b)
    (hb : b ≤ (g.edges k).length) : RelationOk img k (b * k.blockSize) :=
  h.relationOk_of h0 hb hn.ok (fun _ => rfl) (Nat.le_refl _)

end EndsHold

/-! ## Nodes that are new have no edges -/

section Added

variable {g : Log} {img : Image} {k : RelationKind} {id : ByteString}

theorem nodeAddr_addNode {id' : ByteString} (h : id' ∈ g.ids) :
    (g.addNode id).nodeAddr id' = g.nodeAddr id' := by
  rw [nodeAddr, slot_addNode h, nodeAddr]

section

variable (h : NodesHold g img) (hacc : Accepted img.mem.indexKeySize id)

include h hacc

theorem NodesHold.nodeAt_added {id' : ByteString} (hid' : id' ∈ g.ids) (id'' : ByteString) :
    nodeAt ((img.added id).files .nodes) id'' (g.nodeAddr id') =
      nodeAt (img.files .nodes) id'' (g.nodeAddr id') := by
  by_cases hid : id ∈ g.ids
  · rw [added_known h hid]
  · refine (NodeAdded.of_new h hacc hid).nodeAt_old ?_ id''
    rw [h.addedNode_addr hacc hid]
    exact NodesHold.addr_lt hid'

theorem NodesHold.head_added_new
    (hid : id ∉ g.ids) : (img.added id).head k ((g.addNode id).nodeAddr id) = 0 := by
  have hadd := NodeAdded.of_new h hacc hid
  have haddr : (g.addNode id).nodeAddr id = (img.addedNode id (numberOf id)).addr := by
    rw [h.addedNode_addr hacc hid, nodeAddr, slot_addNode_new hid]
  rw [haddr, head, hadd.block]
  have hzero := hadd.noRelation k
  cases k <;> exact hzero

theorem NodesHold.relations_added
    (k : RelationKind) : (img.added id).files (.relations k) = img.files (.relations k) := by
  by_cases hid : id ∈ g.ids
  · rw [added_known h hid]
  · exact (NodeAdded.of_new h hacc hid).relations k

theorem NodesHold.nextRelationIndex_added :
    (img.added id).mem.nextRelationIndex = img.mem.nextRelationIndex := by
  by_cases hid : id ∈ g.ids
  · rw [added_known h hid]
  · exact (NodeAdded.of_new h hacc hid).nextRelationIndex

theorem NodesHold.indexKeySize_added : (img.added id).mem.indexKeySize = img.mem.indexKeySize := by
  by_cases hid : id ∈ g.ids
  · rw [added_known h hid]
  · exact (NodeAdded.of_new h hacc hid).indexKeySize

theorem head_added {id' : ByteString} (hid' : id' ∈ g.ids) :
    (img.added id).head k ((g.addNode id).nodeAddr id') = img.head k (g.nodeAddr id') := by
  rw [head, nodeAddr_addNode hid', h.nodeAt_added hacc hid', head]

end

theorem EndsHold.added (he : EndsHold g img k) (h : NodesHold g img)
    (hacc : Accepted img.mem.indexKeySize id) : EndsHold (g.addNode id) (img.added id) k where
  next := by
    rw [h.nextRelationIndex_added hacc]
    exact he.next
  inside hne := by
    rw [h.relations_added hacc]
    exact he.inside hne
  source b e hb := by
    rw [word_congr (h.relations_added hacc k), he.source b e hb,
      nodeAddr_addNode (g.ends k e (List.mem_of_getElem? hb)).1]
  destination b e hb := by
    rw [word_congr (h.relations_added hacc k), he.destination b e hb,
      nodeAddr_addNode (g.ends k e (List.mem_of_getElem? hb)).2]
  head id' hid' := by
    by_cases hm : id' ∈ g.ids
    · rw [head_added h hacc hm]
      exact he.head id' hm
    · obtain rfl : id' = id := (mem_addNode.1 hid').resolve_right hm
      rw [h.head_added_new hacc hm]
      have hnone : last ((g.addNode id').Joins k id') (g.edges k).length = 0 := by
        by_contra hne
        exact hm (joins_mem (joins_addNode.1 (last_spec hne)))
      exact (Nat.mul_eq_zero.2 (.inl hnone)).symm

theorem LinksHold.added (hl : LinksHold g img k) (h : NodesHold g img)
    (hacc : Accepted img.mem.indexKeySize id) : LinksHold (g.addNode id) (img.added id) k := by
  intro id' hid'
  by_cases hm : id' ∈ g.ids
  · have hword := word_congr (h.relations_added hacc k)
    refine (hl id' hm).congr (fun b _ _ => .rfl) (head_added h hacc hm) (fun b _ _ _ => ?_)
      fun b _ _ _ => ?_
    · rw [nxt, nxt, hword, nodeAddr_addNode hm]
    · rw [prv, prv, hword, nodeAddr_addNode hm]
  · obtain rfl : id' = id := (mem_addNode.1 hid').resolve_right hm
    rw [h.head_added_new hacc hm]
    exact Thread.of_none (fun b _ _ hj => hm (joins_mem (joins_addNode.1 hj)))
      (Nat.zero_mul _)

end Added

end JasmineGraph.NativeStore
