import JasmineGraph.NativeStore.Linking
import JasmineGraph.NativeStore.Open

/-!
# Edges added to a store

`Holds` says that an image is the store of a log: nodes, ends, heads and links, and the sizes of the
relation files. `NodeManager::addLocalEdge` and `addCentralEdge` refine `Log.addEdge`, as long as the
ids are accepted and the addresses of the blocks stay below `2 ^ 32`.
-/

namespace JasmineGraph.NativeStore

open Bytes Refine List NodeManager Image

/-- An edge to add, with its kind. -/
abbrev EdgeOp := RelationKind × ByteString × ByteString

namespace NodeManager

/-- Edges added one after the other. -/
def addEdges : List EdgeOp → M Unit
  | [] => return ()
  | (k, e) :: rest => do
    let _ ← addEdge k e
    addEdges rest

end NodeManager

namespace Log

def addEdges (g : Log) (ops : List EdgeOp) : Log := ops.foldl (fun g op => g.addEdge op.1 op.2) g

/-- The log of a sequence of calls on an empty store. -/
def ofOps (ops : List EdgeOp) : Log := empty.addEdges ops

end Log

/-- All addresses of node and relation blocks are below `2 ^ 32`. -/
structure Fits (g : Log) : Prop where
  nodes : NodesFit g
  edges : ∀ k, EdgesFit g k

instance (g : Log) : Decidable (Fits g) :=
  decidable_of_iff (NodesFit g ∧ EdgesFit g .localRelation ∧ EdgesFit g .centralRelation)
    ⟨fun h => ⟨h.1, fun k => by cases k; exacts [h.2.1, h.2.2]⟩,
      fun h => ⟨h.nodes, h.edges _, h.edges _⟩⟩

structure Holds (g : Log) (img : Image) : Prop where
  nodes : NodesHold g img
  ends : ∀ k, EndsHold g img k
  links : ∀ k, LinksHold g img k
  size : ∀ k, (img.files (.relations k)).size =
    if g.edges k = [] then 0 else ((g.edges k).length + 1) * k.blockSize

namespace Image

/-- The image after `addLocalEdge` or `addCentralEdge`. -/
def withEdge (img : Image) (g : Log) (k : RelationKind) (e : ByteString × ByteString) : Image :=
  let img' := Linking.onBoth ((g.addNode e.1).addNode e.2) ((img.added e.1).added e.2) k e.1 e.2
  if k = .localRelation then img'.withMem (·.bumpEdge) else img'

end Image

structure AddsEdge (g : Log) (img : Image) (k : RelationKind) (e : ByteString × ByteString) :
    Prop where
  nodes : NodesHold g img
  ends : ∀ k, EndsHold g img k
  source : Accepted img.mem.indexKeySize e.1
  destination : Accepted img.mem.indexKeySize e.2
  nodesFit : NodesFit ((g.addNode e.1).addNode e.2)
  edgesFit : ((g.edges k).length + 1) * k.blockSize < 2 ^ 32

/-- What they return: the new relation, with the objects of its nodes as they were before it. -/
structure Returned (g : Log) (img : Image) (k : RelationKind) (e : ByteString × ByteString)
    (r : RelationBlock) : Prop where
  addr : r.addr = ((g.edges k).length + 1) * k.blockSize
  propertyAddress : r.propertyAddress = 0
  metaPropertyAddress : r.metaPropertyAddress = 0
  sourceBlock : r.sourceBlock = some
    (((img.added e.1).added e.2).handle ((g.addNode e.1).addNode e.2) e.1)
  destinationBlock : r.destinationBlock = some
    (((img.added e.1).added e.2).handle ((g.addNode e.1).addNode e.2) e.2)

namespace AddsEdge

variable {g : Log} {img : Image} {k k' : RelationKind} {e : ByteString × ByteString}
  (A : AddsEdge g img k e)
include A

theorem destination_added : Accepted (img.added e.1).mem.indexKeySize e.2 := by
  rw [A.nodes.indexKeySize_added A.source]
  exact A.destination

theorem nodes_added : NodesHold (g.addNode e.1) (img.added e.1) :=
  A.nodes.added A.source A.nodesFit.of_addNode

theorem relations_added (k : RelationKind) :
    ((img.added e.1).added e.2).files (.relations k) = img.files (.relations k) := by
  rw [A.nodes_added.relations_added A.destination_added, A.nodes.relations_added A.source]

theorem linking : Linking ((g.addNode e.1).addNode e.2) ((img.added e.1).added e.2) k e.1 e.2 where
  nodes := A.nodes_added.added A.destination_added A.nodesFit
  ends k' := ((A.ends k').added A.nodes A.source).added A.nodes_added A.destination_added
  source := (g.addEdge_ends e).1
  destination := (g.addEdge_ends e).2
  nodesFit := A.nodesFit
  fit := A.edgesFit

/-- **`addLocalEdge` and `addCentralEdge` run.** -/
theorem runs_addEdge : ∃ r, Runs (img.Shown none) (addEdge k e) (some r)
      ((img.withEdge g k e).Shown none) ∧ Returned g img k e r := by
  have hmem : e.1 ∈ (g.addNode e.1).ids := Log.mem_addNode.2 (.inl rfl)
  -- the object of the source was made before the destination was added
  have hsource : nodeAt ((img.added e.1).files .nodes) e.1 ((g.addNode e.1).nodeAddr e.1) =
      ((img.added e.1).added e.2).handle ((g.addNode e.1).addNode e.2) e.1 := by
    rw [handle, nodeAddr_addNode hmem, A.nodes_added.nodeAt_added A.destination_added hmem]
  have hrun1 := A.nodes.runs_addNode A.source A.nodesFit.of_addNode
  have hrun2 := A.nodes_added.runs_addNode A.destination_added A.nodesFit
  rw [hsource] at hrun1
  obtain ⟨r, hrun, haddr, -, -, hprop, hmeta⟩ := A.linking.runs_addRelation
  refine ⟨{ r with
      sourceBlock := some (((img.added e.1).added e.2).handle ((g.addNode e.1).addNode e.2) e.1)
      destinationBlock := some
        (((img.added e.1).added e.2).handle ((g.addNode e.1).addNode e.2) e.2) },
    ?_, haddr, hprop, hmeta, rfl, rfl⟩
  unfold withEdge
  refine .bind hrun1 (.bind hrun2 (.bind hrun ?_))
  dsimp only
  by_cases hk : k = .localRelation
  · rw [if_pos hk, if_pos hk]
    exact .bind (runs_modifyMemory _) .pure
  · rw [if_neg hk, if_neg hk]
    exact .pure

theorem nodesHold : NodesHold (g.addEdge k e) (img.withEdge g k e) := by
  have h := A.linking.nodesHold
  unfold withEdge
  split_ifs
  · exact { h with }
  · exact h

theorem endsHold (k' : RelationKind) : EndsHold (g.addEdge k e) (img.withEdge g k e) k' := by
  have h := A.linking.endsHold k'
  unfold withEdge
  split_ifs
  · exact { h with }
  · exact h

theorem linksHold (hl : LinksHold g img k') :
    LinksHold (g.addEdge k e) (img.withEdge g k e) k' := by
  have hl' := (hl.added A.nodes A.source).added A.nodes_added A.destination_added
  have h : LinksHold (g.addEdge k e) (Linking.onBoth ((g.addNode e.1).addNode e.2)
      ((img.added e.1).added e.2) k e.1 e.2) k' := by
    by_cases hk : k' = k
    · subst hk
      exact A.linking.linksHold hl'
    · exact A.linking.linksHold_of_ne hk hl'
  unfold withEdge
  split_ifs
  · exact h
  · exact h

omit A in
theorem withEdge_files : (img.withEdge g k e).files =
    (Linking.onBoth ((g.addNode e.1).addNode e.2) ((img.added e.1).added e.2) k e.1 e.2).files := by
  unfold withEdge
  split_ifs <;> rfl

theorem size (hs : (img.files (.relations k')).size =
      if g.edges k' = [] then 0 else ((g.edges k').length + 1) * k'.blockSize) :
    ((img.withEdge g k e).files (.relations k')).size =
      if (g.addEdge k e).edges k' = [] then 0
      else (((g.addEdge k e).edges k').length + 1) * k'.blockSize := by
  rw [withEdge_files, A.linking.size_onBoth, Log.addEdge]
  by_cases hk : k' = k
  · subst hk
    have hne : ((g.addNode e.1).addNode e.2).edges k' ++ [e] ≠ [] :=
      append_ne_nil_of_right_ne_nil _ (cons_ne_nil _ _)
    rw [A.linking.size_written, A.relations_added, hs, Log.edges_join, if_neg hne,
      length_append]
    refine Nat.max_eq_right ?_
    split_ifs
    · exact Nat.zero_le _
    · exact Nat.mul_le_mul_right _ (Nat.le_succ _)
  · rw [Linking.written, withRelation, withMem_files,
      wrote_files_of_ne _ (by simpa using hk), A.relations_added, hs,
      Log.edges_join_of_ne hk]
    rfl

theorem indexKeySize : (img.withEdge g k e).mem.indexKeySize = img.mem.indexKeySize := by
  have hkey : ((img.added e.1).added e.2).mem.indexKeySize = img.mem.indexKeySize := by
    rw [A.nodes_added.indexKeySize_added A.destination_added, A.nodes.indexKeySize_added A.source]
  unfold withEdge
  rw [← hkey]
  split_ifs
  · rw [withMem_mem, Linking.onBoth_mem]
    rfl
  · rw [Linking.onBoth_mem]
    rfl

/-- **An edge on the store of a log** gives the store of the longer log. -/
theorem holds (h : Holds g img) : Holds (g.addEdge k e) (img.withEdge g k e) :=
  ⟨A.nodesHold, A.endsHold, fun k' => A.linksHold (h.links k'), fun k' => A.size (h.size k')⟩

end AddsEdge

/-! ## Sequences of edges -/

namespace Log

variable {g : Log} {k k' : RelationKind} {e : ByteString × ByteString}

theorem edges_addEdge : (g.addEdge k e).edges k = g.edges k ++ [e] := edges_join

theorem edges_addEdge_of_ne (hk : k' ≠ k) : (g.addEdge k e).edges k' = g.edges k' :=
  edges_join_of_ne hk

theorem length_edges_addEdge_le (k' : RelationKind) :
    (g.edges k').length ≤ ((g.addEdge k e).edges k').length := by
  by_cases hk : k' = k
  · subst hk
    rw [edges_addEdge, length_append]
    exact Nat.le_add_right _ _
  · rw [edges_addEdge_of_ne hk]

theorem edges_addEdges (k : RelationKind) : ∀ (ops : List EdgeOp) (g : Log),
    (g.addEdges ops).edges k = g.edges k ++ (ops.filter fun op => op.1 = k).map Prod.snd
  | [], g => (append_nil _).symm
  | op :: ops, g => by
    rw [addEdges, foldl_cons, ← addEdges, edges_addEdges k ops]
    by_cases hk : op.1 = k
    · subst hk
      rw [edges_addEdge, filter_cons_of_pos (by simp), map_cons, append_assoc, singleton_append]
    · rw [edges_addEdge_of_ne fun h => hk h.symm, filter_cons_of_neg (by simpa using hk)]

end Log

namespace Fits

variable {g : Log} {k : RelationKind} {e : ByteString × ByteString}

theorem of_addEdge (h : Fits (g.addEdge k e)) : Fits g where
  nodes := NodesFit.of_addNode (NodesFit.of_addNode h.nodes)
  edges k' := Nat.lt_of_le_of_lt
    (Nat.mul_le_mul_right _ (Log.length_edges_addEdge_le k')) (h.edges k')

theorem of_addEdges : ∀ {ops : List EdgeOp} {g : Log}, Fits (g.addEdges ops) → Fits g
  | [], _, h => h
  | op :: _, g, h => (of_addEdges (g := g.addEdge op.1 op.2) h).of_addEdge

end Fits

/-- Both ids of every edge are accepted. -/
def AllAccepted (keySize : Nat) (ops : List EdgeOp) : Prop :=
  ∀ op ∈ ops, Accepted keySize op.2.1 ∧ Accepted keySize op.2.2

instance (keySize : Nat) (ops : List EdgeOp) : Decidable (AllAccepted keySize ops) :=
  inferInstanceAs (Decidable (∀ op ∈ ops, Accepted keySize op.2.1 ∧ Accepted keySize op.2.2))

theorem Holds.addsEdge {g : Log} {img : Image} {op : EdgeOp} (h : Holds g img)
    (hacc : Accepted img.mem.indexKeySize op.2.1 ∧ Accepted img.mem.indexKeySize op.2.2)
    (hfit : Fits (g.addEdge op.1 op.2)) : AddsEdge g img op.1 op.2 where
  nodes := h.nodes
  ends := h.ends
  source := hacc.1
  destination := hacc.2
  nodesFit := hfit.nodes
  edgesFit := by
    have hk := hfit.edges op.1
    unfold EdgesFit at hk
    rw [Log.edges_addEdge, length_append] at hk
    exact hk

/-- **A sequence of edges runs to its end** and leaves the store of its log. -/
theorem runs_addEdges : ∀ {ops : List EdgeOp} {g : Log} {img : Image}, Holds g img →
    AllAccepted img.mem.indexKeySize ops → Fits (g.addEdges ops) →
    ∃ img', Runs (img.Shown none) (addEdges ops) () (img'.Shown none) ∧
      Holds (g.addEdges ops) img' ∧ img'.mem.indexKeySize = img.mem.indexKeySize
  | [], _, img, h, _, _ => ⟨img, .pure, h, rfl⟩
  | op :: ops, g, img, h, hacc, hfit => by
    have A := h.addsEdge (hacc op mem_cons_self)
      (Fits.of_addEdges hfit)
    obtain ⟨r, hrun, -⟩ := A.runs_addEdge
    have hkey := A.indexKeySize
    obtain ⟨img', hrest, hholds, hkey'⟩ := runs_addEdges (A.holds h)
      (fun op' hop => by rw [hkey]; exact hacc op' (mem_cons_of_mem _ hop)) hfit
    exact ⟨img', .bind hrun hrest, hholds, hkey'.trans hkey⟩

/-! ## A new store -/

namespace Image

def ofDisk (mem : Memory) (files : DB → ByteFile) : Image := ⟨mem, files, fun _ => 0⟩

theorem shown_opened (keySize : Nat) (rawType : RelationKind → Nat → Fin 100 → UInt8)
    (nodeIndex : Std.TreeMap ByteString Nat × Nat) (disk : Disk) :
    Shown none (ofDisk (opened keySize rawType nodeIndex disk).mem disk.files)
      (opened keySize rawType nodeIndex disk) where
  memory := rfl
  stream _ := ⟨rfl, rfl, fun _ => rfl, fun _ _ => rfl, fun _ _ _ => .inl rfl⟩
  cursor _ := rfl

def fresh (keySize : Nat) (rawType : RelationKind → Nat → Fin 100 → UInt8) (disk : Disk) : Image :=
  ofDisk (openTruncate keySize rawType disk).mem fun _ => ByteFile.empty

end Image

theorem nextIndex_zero (blockSize : Nat) : nextIndex 0 blockSize = 1 := by
  rw [nextIndex, Nat.zero_div]
  rfl

theorem holds_fresh (keySize : Nat) (rawType : RelationKind → Nat → Fin 100 → UInt8) (disk : Disk) :
    Holds Log.empty (fresh keySize rawType disk) where
  nodes := by
    refine ⟨fun id => ?_, rfl, rfl, fun i hi => absurd hi (Nat.not_lt_zero i), fun id hid => ?_⟩
    · exact Std.TreeMap.getElem?_emptyc
    · exact absurd hid not_mem_nil
  ends k := by
    refine ⟨?_, fun hne => absurd rfl hne, fun b e hb => ?_, fun b e hb => ?_, fun id hid => ?_⟩
    · exact nextIndex_zero k.blockSize
    · cases hb
    · cases hb
    · exact absurd hid not_mem_nil
  links k id hid := absurd hid not_mem_nil
  size k := rfl

/-- **Any sequence of edges on a new store.** -/
theorem run_addEdges {keySize : Nat} (rawType : RelationKind → Nat → Fin 100 → UInt8) (disk : Disk)
    {ops : List EdgeOp} (hacc : AllAccepted keySize ops) (hfit : Fits (Log.ofOps ops)) :
    ∃ img s, addEdges ops (openTruncate keySize rawType disk) =
      some ((), s) ∧ img.Shown none s ∧ Holds (Log.ofOps ops) img := by
  obtain ⟨img, hrun, hholds, -⟩ := runs_addEdges (holds_fresh keySize rawType disk) hacc hfit
  obtain ⟨s, hs, hshown⟩ := hrun _ (shown_opened keySize rawType (∅, 0)
    { disk with files := fun _ => ByteFile.empty })
  exact ⟨img, s, hs, hshown, hholds⟩

end JasmineGraph.NativeStore
