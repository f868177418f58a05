import JasmineGraph.Instance.Stores
import JasmineGraph.Outcome

/-!
# Streaming the edges of a part

`stream_partition_edge_data` writes the edges of a part, first those of its local store and then
those of its central store, as lines `start end` into a buffer. When the buffer has reached
`EDGE_STREAM_BUFFER_SIZE` bytes it is handed to a consumer and emptied; what is left at the end is
handed over too. A consumer that fails ends the stream.

The consumer answers `consume k` to its `k`-th chunk. A result `.error` has the chunks that were
handed over before the failure.
-/

namespace JasmineGraph.Instance

open Bytes List

def edgeStreamBufferSize : Nat := 1024 * 1024

def edgeLine (e : Long × Long) : List UInt8 :=
  decimalInt e.1.toInt ++ 32 :: decimalInt e.2.toInt

/-- The buffer, and the chunks that the consumer has taken. -/
structure EdgeStream where
  buffer : List UInt8
  chunks : List (List UInt8)

variable (consume : Nat → Bool)

def flushBuffer (s : EdgeStream) : Except (List (List UInt8)) EdgeStream :=
  if s.buffer = [] then .ok s
  else if consume s.chunks.length then .ok ⟨[], s.chunks ++ [s.buffer]⟩
  else .error s.chunks

def appendEdge (s : EdgeStream) (e : Long × Long) : Except (List (List UInt8)) EdgeStream :=
  let s := { s with buffer := s.buffer ++ (edgeLine e ++ [10]) }
  if edgeStreamBufferSize ≤ s.buffer.length then flushBuffer consume s else .ok s

def storeEdges (g : AdjacencyMap) : List (Long × Long) :=
  g.toList.flatMap fun e => e.2.elems.map fun dest => (e.1, dest)

/-- `processLocalStoreEdges` and `processCentralStoreEdges`, of a store file that may be missing. -/
def processStoreEdges (store : Option AdjacencyMap) (s : EdgeStream) :
    Except (List (List UInt8)) EdgeStream :=
  match store with
  | none => .ok s
  | some g => (storeEdges g).foldlM (appendEdge consume) s

def processLocalStoreEdges (f : DataFolder) (partitionID : List UInt8) :
    EdgeStream → Except (List (List UInt8)) EdgeStream :=
  processStoreEdges consume (f.localStore partitionID)

def processCentralStoreEdges (f : DataFolder) (partitionID : List UInt8) :
    EdgeStream → Except (List (List UInt8)) EdgeStream :=
  processStoreEdges consume (f.centralStore partitionID)

def streamPartitionEdgeData (f : DataFolder) (partitionID : List UInt8) :
    Except (List (List UInt8)) (List (List UInt8)) := do
  let s ← processLocalStoreEdges consume f partitionID ⟨[], []⟩
  let s ← processCentralStoreEdges consume f partitionID s
  let s ← flushBuffer consume s
  return s.chunks

/-! ## What a stream has taken -/

def EdgeStream.text (s : EdgeStream) : List UInt8 := s.chunks.flatten ++ s.buffer

section Text

variable {consume} {x : Except (List (List UInt8)) EdgeStream} {s : EdgeStream} {f : DataFolder}
  {partitionID : List UInt8} {L C : AdjacencyMap}

def Takes (consume : Nat → Bool) (x : Except (List (List UInt8)) EdgeStream) (text : List UInt8) :
    Prop :=
  Outcome.Meets (fun _ => ∃ k, consume k = false) x True fun t => t.text = text

theorem takes_ok (s : EdgeStream) : Takes consume (.ok s) s.text := Outcome.Meets.ok rfl

theorem Takes.bind {g : EdgeStream → Except (List (List UInt8)) EdgeStream} {text text' : List UInt8}
    (hx : Takes consume x text) (hg : ∀ t, t.text = text → Takes consume (g t) text') :
    Takes consume (x >>= g) text' :=
  (Outcome.Meets.bind hx hg).congr (and_self_iff) fun _ h => h

theorem takes_flushBuffer (s : EdgeStream) : Takes consume (flushBuffer consume s) s.text := by
  unfold flushBuffer
  split_ifs with hempty hok
  · exact takes_ok s
  · exact Outcome.Meets.ok (by simp [EdgeStream.text])
  · exact .inl ⟨_, Bool.not_eq_true _ ▸ hok⟩

theorem buffer_flushBuffer {t : EdgeStream} (h : flushBuffer consume s = .ok t) : t.buffer = [] := by
  unfold flushBuffer at h
  split_ifs at h with hempty hok
  · cases h
    exact hempty
  · cases h
    rfl

theorem takes_appendEdge (s : EdgeStream) (e : Long × Long) :
    Takes consume (appendEdge consume s e) (s.text ++ (edgeLine e ++ [10])) := by
  have htext : EdgeStream.text { s with buffer := s.buffer ++ (edgeLine e ++ [10]) } =
      s.text ++ (edgeLine e ++ [10]) := (append_assoc _ _ _).symm
  rw [← htext]
  simp only [appendEdge]
  split_ifs
  · exact takes_flushBuffer _
  · exact takes_ok _

theorem takes_foldlM_appendEdge (es : List (Long × Long)) (s : EdgeStream) :
    Takes consume (es.foldlM (appendEdge consume) s)
      (s.text ++ es.flatMap fun e => edgeLine e ++ [10]) := by
  induction es generalizing s with
  | nil =>
    rw [flatMap_nil, append_nil]
    exact takes_ok s
  | cons e es ih =>
    rw [flatMap_cons, ← append_assoc]
    exact (takes_appendEdge s e).bind fun t ht => ht ▸ ih t

def partEdges (localStore centralStore : AdjacencyMap) : List (Long × Long) :=
  storeEdges localStore ++ storeEdges centralStore

/-- **The chunks hold the lines of all edges**, wherever the buffer was emptied, unless the consumer
fails. -/
theorem meets_streamPartitionEdgeData (consume : Nat → Bool)
    (hlocal : f.localStore partitionID = some L) (hcentral : f.centralStore partitionID = some C) :
    Outcome.Meets (fun _ => ∃ k, consume k = false) (streamPartitionEdgeData consume f partitionID)
      True fun chunks => chunks.flatten = (partEdges L C).flatMap fun e => edgeLine e ++ [10] := by
  simp only [streamPartitionEdgeData, processLocalStoreEdges, processCentralStoreEdges,
    processStoreEdges, hlocal, hcentral]
  refine (Outcome.Meets.bind (takes_foldlM_appendEdge (storeEdges L) ⟨[], []⟩) fun s hs => ?_).congr
    and_self_iff fun _ h => h
  refine (Outcome.Meets.bind (takes_foldlM_appendEdge (storeEdges C) s) fun t ht => ?_).congr
    and_self_iff fun _ h => h
  have hflush : Takes consume (flushBuffer consume t) t.text := takes_flushBuffer t
  cases hu : flushBuffer consume t with
  | error chunks =>
    rw [hu] at hflush
    exact hflush
  | ok u =>
    rw [hu] at hflush
    have htext : u.chunks.flatten ++ u.buffer = t.text := hflush.2
    rw [buffer_flushBuffer hu, append_nil, ht, hs] at htext
    refine ⟨trivial, htext.trans ?_⟩
    rw [partEdges, flatMap_append]
    rfl

end Text

/-! ## The edges of a part -/

theorem mem_storeEdges {g : AdjacencyMap} {e : Long × Long} : e ∈ storeEdges g ↔ g.Edge e.1 e.2 := by
  obtain ⟨v, w⟩ := e
  simp only [storeEdges, mem_flatMap, mem_map]
  constructor
  · rintro ⟨⟨u, s⟩, hu, x, hx, heq⟩
    obtain ⟨rfl, rfl⟩ := Prod.mk.inj heq
    have hs := Std.TreeMap.mem_toList_iff_getElem?_eq_some.1 hu
    unfold AdjacencyMap.Edge AdjacencyMap.row
    rw [Std.TreeMap.getD_eq_getD_getElem?, hs]
    exact hx
  · intro h
    refine ⟨(v, g.row v), ?_, w, h, rfl⟩
    exact Std.TreeMap.mem_toList_iff_getElem?_eq_some.2
      (AdjacencyMap.getElem?_eq_some_row (AdjacencyMap.mem_of_edge h))

theorem nodup_storeEdges (g : AdjacencyMap) : (storeEdges g).Nodup := by
  refine nodup_flatMap.2 ⟨fun e _ => e.2.nodup.map fun a b h => (Prod.mk.inj h).2, ?_⟩
  have hkeys := MapLoop.nodup_keys_toList g
  rw [nodup_iff_pairwise_ne, pairwise_map] at hkeys
  refine hkeys.imp fun hne => disjoint_left.2 fun x hx hx' => ?_
  obtain ⟨a, -, rfl⟩ := mem_map.1 hx
  obtain ⟨b, -, heq⟩ := mem_map.1 hx'
  exact hne (Prod.mk.inj heq).1.symm

namespace Stores

variable {G : CutGraph} (S : Stores G) (p : Nat)

/-- **A part streams the edges that start in it.** -/
theorem mem_partEdges {e : Long × Long} :
    e ∈ partEdges (S.localStore p) (S.centralStore p) ↔ e ∈ G.edges ∧ G.part e.1 = p := by
  rw [partEdges, mem_append, mem_storeEdges, mem_storeEdges, S.local_edge, S.central_edge]
  tauto

theorem nodup_partEdges : (partEdges (S.localStore p) (S.centralStore p)).Nodup := by
  refine nodup_append'.2 ⟨nodup_storeEdges _, nodup_storeEdges _, ?_⟩
  refine disjoint_left.2 fun e hlocal hcentral => ?_
  rw [mem_storeEdges, S.local_edge] at hlocal
  rw [mem_storeEdges, S.central_edge] at hcentral
  exact hcentral.2.2 hlocal.2.2

end Stores

/-! ## The lines of edges -/

theorem newline_notMem_edgeLine (e : Long × Long) : 10 ∉ edgeLine e := by
  rw [edgeLine, mem_append, mem_cons, not_or, not_or]
  exact ⟨notMem_decimalInt rfl (by decide) _, by decide, notMem_decimalInt rfl (by decide) _⟩

theorem edgeLine_injective : Function.Injective edgeLine := by
  intro e e' h
  have hsplit : ∀ e : Long × Long,
      split 32 (edgeLine e) = [decimalInt e.1.toInt, decimalInt e.2.toInt] := fun e => by
    rw [edgeLine, split_line (notMem_decimalInt rfl (by decide) _),
      split_of_notMem (notMem_decimalInt rfl (by decide) _) (decimalInt_ne_nil _)]
  have hfields := congrArg (split 32) h
  rw [hsplit, hsplit, List.cons.injEq, List.cons.injEq] at hfields
  exact Prod.ext (Int64.toInt_inj.1 (decimalInt_injective hfields.1))
    (Int64.toInt_inj.1 (decimalInt_injective hfields.2.1))

theorem split_edges (es : List (Long × Long)) :
    split 10 (es.flatMap fun e => edgeLine e ++ [10]) = es.map edgeLine :=
  split_flatMap_line newline_notMem_edgeLine es

end JasmineGraph.Instance
