import JasmineGraph.Thread
import JasmineGraph.NativeStore.AddNode

/-!
# What a store is for: a log of nodes and edges

The abstract model of a partition's store. A `Log` lists the node ids in the order of their first
use and the edges of each kind in the order they were added; its fields say that ids are distinct
and that every edge joins listed nodes. Block `i` of the nodes file is the `i`-th id (counted from
0), block `b` of a relation file the `b`-th edge of its kind (counted from 1).

`NodesHold` says that an image stores the nodes of a log: the index map knows exactly its ids, each
under the number of its own block, and every block can be read. `NodesHold.added` is its step:
`NodeManager::addNode` refines `Log.addNode`.
-/

namespace JasmineGraph.NativeStore

open Bytes Refine NodeBlock List

/-- The node ids and the edges of a store, oldest first. -/
structure Log where
  ids : List ByteString
  edges : RelationKind → List (ByteString × ByteString)
  nodup : ids.Nodup
  ends : ∀ k, ∀ e ∈ edges k, e.1 ∈ ids ∧ e.2 ∈ ids

namespace Log

/-- The empty store. -/
def empty : Log := ⟨[], fun _ => [], nodup_nil, fun _ _ h => absurd h not_mem_nil⟩

def addNode (g : Log) (id : ByteString) : Log where
  ids := if id ∈ g.ids then g.ids else g.ids ++ [id]
  edges := g.edges
  nodup := by
    split_ifs with h
    · exact g.nodup
    · exact nodup_append.2 ⟨g.nodup, nodup_singleton id, fun a ha b hb heq =>
        h (mem_singleton.1 hb ▸ heq ▸ ha)⟩
  ends k e he := by
    obtain ⟨h1, h2⟩ := g.ends k e he
    split_ifs
    · exact ⟨h1, h2⟩
    · exact ⟨mem_append_left _ h1, mem_append_left _ h2⟩

def slot (g : Log) (id : ByteString) : Nat := g.ids.idxOf id

def nodeAddr (g : Log) (id : ByteString) : Nat := g.slot id * blockSize

variable {g : Log} {id id' : ByteString}

theorem mem_addNode : id' ∈ (g.addNode id).ids ↔ id' = id ∨ id' ∈ g.ids := by
  unfold addNode
  split_ifs with h
  · exact ⟨.inr, fun h' => h'.elim (fun heq => heq ▸ h) fun hm => hm⟩
  · rw [mem_append, mem_singleton]
    exact or_comm

theorem addNode_of_mem (h : id ∈ g.ids) : g.addNode id = g := by
  simp only [addNode, if_pos h]

theorem addNode_of_notMem (h : id ∉ g.ids) : (g.addNode id).ids = g.ids ++ [id] := if_neg h

theorem slot_lt (h : id ∈ g.ids) : g.slot id < g.ids.length := idxOf_lt_length_of_mem h

theorem slot_inj (h : id ∈ g.ids) : g.slot id = g.slot id' ↔ id = id' := idxOf_inj h

theorem nodeAddr_inj (h : id ∈ g.ids) : g.nodeAddr id = g.nodeAddr id' ↔ id = id' := by
  unfold nodeAddr
  rw [← slot_inj h, Nat.mul_left_inj (by decide)]

theorem slot_addNode (h : id' ∈ g.ids) : (g.addNode id).slot id' = g.slot id' := by
  unfold addNode
  split_ifs
  · rfl
  · exact idxOf_append_of_mem h

theorem slot_addNode_new (h : id ∉ g.ids) : (g.addNode id).slot id = g.ids.length := by
  unfold slot
  rw [addNode_of_notMem h, idxOf_append_of_notMem h]
  simp

theorem length_addNode (h : id ∉ g.ids) : (g.addNode id).ids.length = g.ids.length + 1 := by
  rw [addNode_of_notMem h, length_append, length_singleton]

theorem length_addNode_le : g.ids.length ≤ (g.addNode id).ids.length := by
  unfold addNode
  split_ifs
  · exact Nat.le_refl _
  · simp

end Log

/-- `addNode` takes the id: it reads as a number and fits the key buffer of the index. -/
structure Accepted (keySize : Nat) (id : ByteString) : Prop where
  number : (stoul id).isSome
  key : (cstr id).length < keySize

instance (keySize : Nat) (id : ByteString) : Decidable (Accepted keySize id) :=
  decidable_of_iff ((stoul id).isSome ∧ (cstr id).length < keySize)
    ⟨fun h => ⟨h.1, h.2⟩, fun h => ⟨h.number, h.key⟩⟩

/-- The number `addNode` gives a node. -/
def numberOf (id : ByteString) : Nat := u32 ((stoul id).getD 0)

def NodesFit (g : Log) : Prop := ∀ i < g.ids.length, i * blockSize < 2 ^ 32

instance (g : Log) : Decidable (NodesFit g) :=
  inferInstanceAs (Decidable (∀ i < g.ids.length, i * blockSize < 2 ^ 32))

structure NodesHold (g : Log) (img : Image) : Prop where
  index : ∀ id, img.mem.nodeIndex[id]? = if id ∈ g.ids then some (g.slot id) else none
  next : img.mem.nextNodeIndex = g.ids.length
  size : (img.files .nodes).size = g.ids.length * blockSize
  ok : ∀ i < g.ids.length, NodeOk (img.files .nodes) (i * blockSize)
  number : ∀ id ∈ g.ids, u32At (img.files .nodes) (g.nodeAddr id + 1) = numberOf id

theorem NodesFit.of_addNode {g : Log} {id : ByteString} (h : NodesFit (g.addNode id)) :
    NodesFit g :=
  fun i hi => h i (Nat.lt_of_lt_of_le hi Log.length_addNode_le)

namespace Image

def added (img : Image) (id : ByteString) : Image :=
  match img.mem.nodeIndex[id]? with
  | some _ => img
  | none => img.withNode id (numberOf id)

variable {img : Image} {id : ByteString} {g : Log}

theorem added_known (h : NodesHold g img) (hid : id ∈ g.ids) : img.added id = img := by
  rw [added, h.index, if_pos hid]

theorem added_new (h : NodesHold g img) (hid : id ∉ g.ids) :
    img.added id = img.withNode id (numberOf id) := by
  rw [added, h.index, if_neg hid]

theorem NodeAdded.of_new (h : NodesHold g img) (hacc : Accepted img.mem.indexKeySize id)
    (hid : id ∉ g.ids) :
    NodeAdded img (img.added id) id (numberOf id) (img.addedNode id (numberOf id)) := by
  obtain ⟨v, hv⟩ := Option.isSome_iff_exists.1 hacc.number
  rw [added_new h hid]
  exact withNode_added (u32_lt _) (cstr_ne_nil_of_stoul hv) (by rw [h.size, h.next])

theorem NodeAdded.nodeAt_old {img' : Image} {v a : Nat} {n : NodeBlock}
    (h : NodeAdded img img' id v n) (ha : a + blockSize ≤ n.addr) (id' : ByteString) :
    nodeAt (img'.files .nodes) id' a = nodeAt (img.files .nodes) id' a := by
  have hsize : blockSize = 140 := rfl
  have hlabel : labelSize = 118 := rfl
  simp only [nodeAt, u32At, h.kept (a + 1) 4 (by omega), h.kept (a + 14) 4 (by omega),
    h.kept (a + 18) 4 (by omega), h.kept (a + 5) 4 (by omega), h.kept (a + 9) 4 (by omega),
    h.kept (a + 13) 1 (by omega), h.kept a 1 (by omega),
    h.kept (a + 22) labelSize (by omega)]

theorem NodeAdded.ok_old {img' : Image} {v a : Nat} {n : NodeBlock} (h : NodeAdded img img' id v n)
    (ha : a + blockSize ≤ n.addr) (hok : NodeOk (img.files .nodes) a) :
    NodeOk (img'.files .nodes) a := by
  have hsize : blockSize = 140 := rfl
  have hlabel : labelSize = 118 := rfl
  have hslice := h.kept (a + 22) labelSize (by omega)
  refine ⟨⟨by rw [h.size]; omega, ?_⟩, ?_, ?_⟩
  · rw [hslice]
    exact hok.terminated
  · rw [hslice]
    exact hok.labelled
  · rw [u32At, h.kept (a + 5) 4 (by omega)]
    exact hok.aligned

end Image

namespace NodesHold

variable {g : Log} {img : Image} {id : ByteString}

theorem addr_lt {id' : ByteString} (hid : id' ∈ g.ids) :
    g.nodeAddr id' + blockSize ≤ g.ids.length * blockSize := by
  rw [Log.nodeAddr, ← Nat.succ_mul]
  exact Nat.mul_le_mul_right _ (Log.slot_lt hid)

theorem addedNode_addr (h : NodesHold g img) (hacc : Accepted img.mem.indexKeySize id)
    (hid : id ∉ g.ids) :
    (img.addedNode id (numberOf id)).addr = g.ids.length * blockSize := by
  rw [(Image.NodeAdded.of_new h hacc hid).addr, h.next]

/-- **`addNode` on the nodes of a store.** -/
theorem added (h : NodesHold g img) (hacc : Accepted img.mem.indexKeySize id)
    (hfit : NodesFit (g.addNode id)) : NodesHold (g.addNode id) (img.added id) := by
  by_cases hid : id ∈ g.ids
  · rw [Log.addNode_of_mem hid, Image.added_known h hid]
    exact h
  have hadd := Image.NodeAdded.of_new h hacc hid
  have haddr := h.addedNode_addr hacc hid
  have hlen := Log.length_addNode hid
  refine ⟨fun id' => ?_, ?_, ?_, fun i hi => ?_, fun id' hid' => ?_⟩
  · rw [hadd.nodeIndex, Std.TreeMap.getElem?_insert, h.next, h.index]
    by_cases heq : id = id'
    · subst heq
      rw [if_pos Std.ReflCmp.compare_self, if_pos (Log.mem_addNode.2 (.inl rfl)), Log.slot_addNode_new hid]
    · rw [if_neg fun hc => heq (Std.LawfulEqOrd.eq_of_compare hc)]
      by_cases hm : id' ∈ g.ids
      · rw [if_pos hm, if_pos (Log.mem_addNode.2 (.inr hm)), Log.slot_addNode hm]
      · rw [if_neg hm, if_neg fun hm' => (Log.mem_addNode.1 hm').elim (fun he => heq he.symm) hm]
  · have hlast := hfit g.ids.length (by omega)
    rw [blockSize] at hlast
    rw [hadd.nextNodeIndex, h.next, hlen]
    exact u32_of_lt (by omega)
  · rw [hadd.size, haddr, hlen, Nat.succ_mul]
  · by_cases hnew : i = g.ids.length
    · rw [hnew, ← haddr]
      exact hadd.ok
    · have hi' : i < g.ids.length := by omega
      refine hadd.ok_old ?_ (h.ok i hi')
      rw [haddr, ← Nat.succ_mul]
      exact Nat.mul_le_mul_right _ hi'
  · by_cases heq : id' = id
    · subst heq
      have hblock := congrArg nodeId (hadd.block [])
      rw [haddr, hadd.nodeId] at hblock
      rw [Log.nodeAddr, Log.slot_addNode_new hid]
      exact hblock
    · have hm : id' ∈ g.ids := (Log.mem_addNode.1 hid').resolve_left heq
      have hold := congrArg nodeId
        (hadd.nodeAt_old (by rw [haddr]; exact addr_lt hm) [])
      rw [Log.nodeAddr, Log.slot_addNode hm, ← h.number id' hm]
      exact hold

/-- The object `addNode` returns shows the block on disk. -/
theorem runs_addNode (h : NodesHold g img) (hacc : Accepted img.mem.indexKeySize id)
    (hfit : NodesFit (g.addNode id)) :
    Runs (img.Shown none) (NodeManager.addNode id)
      (nodeAt ((img.added id).files .nodes) id ((g.addNode id).nodeAddr id))
      ((img.added id).Shown none) := by
  by_cases hid : id ∈ g.ids
  · rw [Log.addNode_of_mem hid, Image.added_known h hid]
    have hslot := Log.slot_lt hid
    exact Image.runs_addNode_known (by rw [h.index, if_pos hid]) (hfit.of_addNode _ hslot)
      (h.ok _ hslot).toNodeReadable
  · have hadd := Image.NodeAdded.of_new h hacc hid
    obtain ⟨v, hv⟩ := Option.isSome_iff_exists.1 hacc.number
    have hnum : numberOf id = u32 v := by rw [numberOf, hv]; rfl
    have haddr : (g.addNode id).nodeAddr id = (img.addedNode id (numberOf id)).addr := by
      rw [h.addedNode_addr hacc hid, Log.nodeAddr, Log.slot_addNode_new hid]
    have hlast : g.ids.length < (g.addNode id).ids.length := by
      rw [Log.length_addNode hid]
      omega
    rw [haddr, hadd.block id, Image.added_new h hid]
    have hrun := Image.runs_addNode_new (by rw [h.index, if_neg hid])
      (by rw [h.next]; exact hfit _ hlast) hv hacc.key
    rw [← hnum] at hrun
    have hself : { img.addedNode id (numberOf id) with id := id } =
        img.addedNode id (numberOf id) := by
      unfold Image.addedNode
      split_ifs <;> rfl
    rw [hself]
    exact hrun

end NodesHold

end JasmineGraph.NativeStore
