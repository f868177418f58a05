import JasmineGraph.Schedule
import JasmineGraph.Partitioner.Partition

/-!
# The HDFS partitioner: `HDFSMultiThreadedHashPartitioner`

Producers hand edges to one of two arrays of a partition (`addLocalEdge`, `addEdgeCut`). For every
partition one thread empties each array (`consumeLocalEdges`, `consumeEdgeCuts`): it writes the
edges to chunk files, sends a file to the worker when `partitionFileEdgeThreshold` edges are in it,
and records the edge in the partition's bookkeeping. `stopConsumerThreads` sets
`terminateConsumers`, wakes the threads and joins them.

* `E` is the type of edge texts and `ends` reads their two ids (`json::parse`); a text that cannot
  be parsed kills the process, so no step is enabled.
* The critical section of a producer, and each part of a consumer between two moments at which it
  shares anything, is one step. `consumeEdgeCuts` keeps the mutex while it drains its array;
  `addEdgeCut` waits meanwhile. A waiting consumer goes on when its predicate holds.
* Files are opened and sent without error. `ChunkFiles` lists what is in them, by file index, and
  which indices were passed to `sendFileChunkToWorker`.
* `passed` and the other fields marked so are history.
-/

namespace JasmineGraph.Partitioner

open Schedule Bytes List Option Function

variable {E : Type}

/-! ## Chunk files -/

structure ChunkFiles (E : Type) where
  /-- The contents of the files before the current one, by `fileIndex`. -/
  full : List (List E)
  current : List E
  threadEdgeCount : Nat
  /-- The file indices sent, in order. -/
  sends : List Nat

namespace ChunkFiles

def new : ChunkFiles E := ⟨[], [], 0, []⟩

def write (f : ChunkFiles E) (edge : E) : ChunkFiles E :=
  { f with current := f.current ++ [edge], threadEdgeCount := f.threadEdgeCount + 1 }

/-- The current file is closed and sent, and the next one opened. -/
def next (f : ChunkFiles E) : ChunkFiles E :=
  ⟨f.full ++ [f.current], [], 0, f.sends ++ [f.full.length]⟩

/-- A consumer that has seen the flag sends what is in the current file, if anything is. -/
def finish (f : ChunkFiles E) : ChunkFiles E :=
  if f.threadEdgeCount ≠ 0 then { f with sends := f.sends ++ [f.full.length] } else f

def files (f : ChunkFiles E) : List (List E) := f.full ++ [f.current]

/-- Every edge written, file by file. -/
def written (f : ChunkFiles E) : List E := f.files.flatten

def AllSent (f : ChunkFiles E) : Prop :=
  ∀ i file, f.files[i]? = some file → file ≠ [] → f.sends.count i = 1

end ChunkFiles

/-! ## Channels -/

/-- An array between producers and its consumer, which stands at `pc`. -/
structure Channel (Pc E : Type) where
  array : List E
  ready : Bool
  pc : Pc
  chunks : ChunkFiles E
  passed : List E
  /-- History: the edges recorded in the partition's bookkeeping. -/
  recorded : List E
  /-- History: the cut edges whose far end was registered. -/
  registered : List E

def Channel.new {Pc : Type} (pc : Pc) : Channel Pc E :=
  ⟨[], false, pc, ChunkFiles.new, [], [], []⟩

/-- Where `consumeLocalEdges` stands. -/
inductive LocalPc (E : Type) where
  /-- Waiting for `edgeReady` or the flag. -/
  | waiting
  | processing (batch : List E)
  | recording (batch : List E) (edge : E)
  | exited
deriving DecidableEq

/-- Where `consumeEdgeCuts` stands. -/
inductive CutPc (E : Type) where
  /-- At `while (!terminateConsumers)`. -/
  | test
  /-- Waiting for `edgeCutsReady` or the flag. -/
  | waiting
  /-- The wait has returned; it holds the mutex and will test the flag. -/
  | woken
  | draining
  | recording (edge : E)
  /-- The edge is in the partition's cuts; its far end is registered next. -/
  | registering (edge : E)
  | exited
deriving DecidableEq

def CutPc.holdsMutex : CutPc E → Bool
  | .woken | .draining | .recording _ | .registering _ => true
  | .test | .waiting | .exited => false

def LocalPc.isExited : LocalPc E → Bool
  | .exited => true
  | _ => false

def CutPc.isExited : CutPc E → Bool
  | .exited => true
  | _ => false

def addLocalEdge (partitionFileEdgeThreshold : Nat) (edge : E) (c : Channel (LocalPc E) E) :
    Channel (LocalPc E) E :=
  { c with
    array := c.array ++ [edge]
    ready := if partitionFileEdgeThreshold ≤ c.array.length + 1 then true else c.ready
    passed := c.passed ++ [edge] }

/-- `addEdgeCut` in its critical section. -/
def addEdgeCut (edge : E) (c : Channel (CutPc E) E) : Option (Channel (CutPc E) E) :=
  if c.pc.holdsMutex then none
  else some { c with array := c.array ++ [edge], ready := true, passed := c.passed ++ [edge] }

/-- An edge is written to the current file, which is sent when it has enough of them. -/
def ChunkFiles.put (isFull : Nat → Bool) (f : ChunkFiles E) (edge : E) : ChunkFiles E :=
  if isFull (f.write edge).threadEdgeCount then (f.write edge).next else f.write edge

/-- The next step of `consumeLocalEdges`, but for the bookkeeping. -/
def consumeLocalEdges (partitionFileEdgeThreshold : Nat) (terminateConsumers : Bool)
    (c : Channel (LocalPc E) E) : Option (Channel (LocalPc E) E) :=
  match c.pc with
  | .waiting =>
    if c.ready || terminateConsumers then
      some { c with array := [], ready := false, pc := .processing c.array }
    else none
  | .processing batch =>
    match batch.getLast? with
    | some edge =>
      some { c with
        chunks := c.chunks.put (partitionFileEdgeThreshold ≤ ·) edge
        pc := .recording batch.dropLast edge }
    | none =>
      if terminateConsumers then some { c with chunks := c.chunks.finish, pc := .exited }
      else some { c with pc := .waiting }
  | .recording batch edge =>
    some { c with pc := .processing batch, recorded := c.recorded ++ [edge] }
  | .exited => none

/-- The next step of `consumeEdgeCuts`, but for the bookkeeping. -/
def consumeEdgeCuts (partitionFileEdgeThreshold : Nat) (terminateConsumers : Bool)
    (c : Channel (CutPc E) E) : Option (Channel (CutPc E) E) :=
  match c.pc with
  -- a consumer that leaves here closes its file without sending it
  | .test => some { c with pc := if terminateConsumers then .exited else .waiting }
  | .waiting => if c.ready || terminateConsumers then some { c with pc := .woken } else none
  | .woken =>
    if terminateConsumers then some { c with chunks := c.chunks.finish, pc := .exited }
    else some { c with pc := .draining }
  | .draining =>
    match c.array.getLast? with
    | some edge =>
      some { c with
        array := c.array.dropLast
        chunks := c.chunks.put (· == partitionFileEdgeThreshold) edge
        pc := .recording edge }
    | none => some { c with ready := false, pc := .test }
  | .recording edge => some { c with pc := .registering edge, recorded := c.recorded ++ [edge] }
  | .registering edge => some { c with pc := .draining, registered := c.registered ++ [edge] }
  | .exited => none

/-! ## The partitioner -/

/-- The constructor's arguments that matter here. -/
structure Config (E : Type) where
  numberOfPartitions : Nat
  isDirected : Bool
  partitionFileEdgeThreshold : Nat
  threshold_pos : 0 < partitionFileEdgeThreshold
  /-- The ids of an edge text's `source` and `destination`. -/
  ends : E → VertexId × VertexId

/-- Where the thread that owns the partitioner stands. -/
inductive Main where
  | producing
  | countingVertices (i totalVertices : Nat)
  | countingEdges (vertices i totalEdges edgeCuts : Nat)
  | countingCuts (vertices i totalEdges edgeCuts : Nat)
  /-- Both counts are written to the metadata database. -/
  | counted (vertices edges : Nat)
  /-- In `stopConsumerThreads`. -/
  | stopping
  | stopped
deriving DecidableEq

variable (cfg : Config E)

structure State where
  terminateConsumers : Bool
  locals : Fin cfg.numberOfPartitions → Channel (LocalPc E) E
  cuts : Fin cfg.numberOfPartitions → Channel (CutPc E) E
  partitions : Fin cfg.numberOfPartitions → Partition
  main : Main

/-- What can happen next. -/
inductive Label where
  | addLocalEdge (edge : E) (index : Nat)
  | addEdgeCut (edge : E) (index : Nat)
  | consumeLocalEdges (i : Fin cfg.numberOfPartitions)
  | consumeEdgeCuts (i : Fin cfg.numberOfPartitions)
  /-- The owner reads the counts, one partition at a time. -/
  | count
  /-- The owner enters `stopConsumerThreads`. -/
  | stop
  | joined

def recordLocal (pc : LocalPc E) (P : Partition) : Partition :=
  match pc with
  | .recording _ edge => P.addEdge (cfg.ends edge) cfg.isDirected
  | _ => P

def recordCut (i : Fin cfg.numberOfPartitions) (pc : CutPc E)
    (partitions : Fin cfg.numberOfPartitions → Partition) :
    Option (Fin cfg.numberOfPartitions → Partition) :=
  match pc with
  | .recording edge =>
    let (sourceId, destinationId) := cfg.ends edge
    some (update partitions i ((partitions i).addToEdgeCuts sourceId destinationId i))
  | .registering edge =>
    (homeOf cfg.numberOfPartitions (cfg.ends edge).2).map fun d =>
      if d ≠ i then update partitions d ((partitions d).register (cfg.ends edge).2)
      else partitions
  | _ => some partitions

/-- The owner's reading of the counts. -/
def count (partitions : Fin cfg.numberOfPartitions → Partition) : Main → Option Main
  | .producing => some (.countingVertices 0 0)
  | .countingVertices i totalVertices =>
    if h : i < cfg.numberOfPartitions then
      some (.countingVertices (i + 1) (totalVertices + (partitions ⟨i, h⟩).getVertextCount))
    else some (.countingEdges totalVertices 0 0 0)
  | .countingEdges vertices i totalEdges edgeCuts =>
    if h : i < cfg.numberOfPartitions then
      some (.countingCuts vertices i
        (totalEdges + (partitions ⟨i, h⟩).getEdgesCount cfg.isDirected) edgeCuts)
    else some (.counted vertices (totalEdges + edgeCuts / 2))
  | .countingCuts vertices i totalEdges edgeCuts =>
    if h : i < cfg.numberOfPartitions then
      some (.countingEdges vertices (i + 1) totalEdges
        (edgeCuts + (partitions ⟨i, h⟩).edgeCutsCount))
    else none
  | _ => none

/-- One step of the partitioner. -/
def step : Label cfg → State cfg → Option (State cfg)
  | .addLocalEdge edge index, s =>
    if s.main ≠ .producing then none
    else if h : index < cfg.numberOfPartitions then
      let c := addLocalEdge cfg.partitionFileEdgeThreshold edge (s.locals ⟨index, h⟩)
      some { s with locals := update s.locals ⟨index, h⟩ c }
    else some s
  | .addEdgeCut edge index, s =>
    if s.main ≠ .producing then none
    else if h : index < cfg.numberOfPartitions then
      (addEdgeCut edge (s.cuts ⟨index, h⟩)).map fun c =>
        { s with cuts := update s.cuts ⟨index, h⟩ c }
    else some s
  | .consumeLocalEdges i, s =>
    (consumeLocalEdges cfg.partitionFileEdgeThreshold s.terminateConsumers (s.locals i)).map
      fun c =>
        let P := recordLocal cfg (s.locals i).pc (s.partitions i)
        { s with
          locals := update s.locals i c
          partitions := update s.partitions i P }
  | .consumeEdgeCuts i, s =>
    (consumeEdgeCuts cfg.partitionFileEdgeThreshold s.terminateConsumers (s.cuts i)).bind
      fun c => (recordCut cfg i (s.cuts i).pc s.partitions).map fun partitions =>
        { s with cuts := update s.cuts i c, partitions := partitions }
  | .count, s => (count cfg s.partitions s.main).map fun main => { s with main := main }
  | .stop, s =>
    match s.main with
    | .producing | .counted .. => some { s with terminateConsumers := true, main := .stopping }
    | _ => none
  | .joined, s =>
    if s.main = .stopping ∧ ∀ i, (s.locals i).pc.isExited ∧ (s.cuts i).pc.isExited then
      some { s with main := .stopped }
    else none

/-- The partitioner as it is constructed. -/
def start : State cfg :=
  ⟨false, fun _ => Channel.new .waiting, fun _ => Channel.new .test,
    fun _ => Partition.new cfg.numberOfPartitions, .producing⟩

/-! ## What the chunk files hold -/

namespace ChunkFiles

variable {f : ChunkFiles E} {edge : E} {threshold : Nat}

structure Open (threshold : Nat) (f : ChunkFiles E) : Prop where
  counted : f.threadEdgeCount = f.current.length
  sent : f.sends = List.range f.full.length
  room : f.current.length < threshold

theorem open_new (h : 0 < threshold) : Open threshold (new : ChunkFiles E) := ⟨rfl, rfl, h⟩

@[simp] theorem written_put (isFull : Nat → Bool) :
    (f.put isFull edge).written = f.written ++ [edge] := by
  unfold put
  split_ifs <;> simp [written, files, write, next]

@[simp] theorem written_finish : f.finish.written = f.written := by
  unfold finish
  split_ifs <;> rfl

variable (h : f.Open threshold)

include h

/-- While a file has room, `>=` and `==` find it full at the same edge. -/
theorem Open.put_beq : f.put (· == threshold) edge = f.put (threshold ≤ ·) edge := by
  have hle : (f.write edge).threadEdgeCount ≤ threshold := by
    simp only [write, h.counted]
    exact h.room
  unfold put
  rcases Nat.lt_or_eq_of_le hle with hlt | heq
  · simp [hlt.ne, Nat.not_le.2 hlt]
  · simp [heq]

theorem Open.put : (f.put (threshold ≤ ·) edge).Open threshold := by
  unfold ChunkFiles.put
  split_ifs with hfull
  · refine ⟨rfl, ?_, Nat.pos_of_ne_zero fun h0 => ?_⟩
    · simp [next, write, h.sent, range_succ]
    · exact absurd h.room (h0 ▸ Nat.not_lt_zero _)
  · refine ⟨by simp [write, h.counted], h.sent, ?_⟩
    simpa [write, h.counted] using hfull

theorem Open.length_current_put : (f.put (threshold ≤ ·) edge).current.length % threshold =
      (f.current.length + 1) % threshold := by
  have hroom := h.room
  unfold ChunkFiles.put
  simp only [decide_eq_true_eq]
  split_ifs with hfull
  · have heq : f.current.length + 1 = threshold := by
      simp only [write, h.counted] at hfull
      omega
    simp [next, heq]
  · simp [write]

theorem Open.allSent_iff : f.AllSent ↔ f.current = [] := by
  constructor
  · intro hall
    by_contra hne
    have hcount := hall f.full.length f.current (by simp [files]) hne
    rw [h.sent, count_eq_zero_of_not_mem (by simp)] at hcount
    cases hcount
  · intro hnil i file hi hne
    have hlt : i < f.full.length := by
      by_contra hge
      rw [files, hnil, List.getElem?_append_right (by omega)] at hi
      have hmem := mem_of_getElem? hi
      exact hne (mem_singleton.1 hmem)
    rw [h.sent, count_eq_one_of_mem nodup_range (mem_range.2 hlt)]

/-- A consumer that leaves from inside its loop sends its last file. -/
theorem Open.allSent_finish : f.finish.AllSent := by
  unfold finish
  split_ifs with hne
  · intro i file hi _
    have hlt : i < f.full.length + 1 := by
      have := (List.getElem?_eq_some_iff.1 hi).1
      simpa [files] using this
    rw [h.sent, ← range_succ, count_eq_one_of_mem nodup_range (mem_range.2 hlt)]
  · rw [h.allSent_iff, ← length_eq_zero_iff, ← h.counted]
    exact not_not.1 hne

end ChunkFiles

/-! ## One channel -/

/-- Every edge passed is in exactly one chunk file, and every file with an edge was sent once. -/
def Channel.Delivered {Pc : Type} (c : Channel Pc E) : Prop :=
  c.chunks.written.Perm c.passed ∧ c.chunks.AllSent

theorem perm_iff_of_append {l m r : List E} (h : (l ++ m).Perm r) : l.Perm r ↔ m = [] := by
  constructor
  · intro hl
    have hlen := h.length_eq
    rw [length_append, hl.length_eq] at hlen
    exact length_eq_zero_iff.1 (by omega)
  · rintro rfl
    simpa using h

section LocalChannel

variable {threshold : Nat} {terminate : Bool} {edge : E} {c c' : Channel (LocalPc E) E}

def LocalPc.batch : LocalPc E → List E
  | .processing batch | .recording batch _ => batch
  | .waiting | .exited => []

/-- No local edge is lost or written twice. -/
structure LocalSound (threshold : Nat) (c : Channel (LocalPc E) E) : Prop where
  edges : (c.chunks.written ++ c.pc.batch ++ c.array).Perm c.passed
  chunks : c.pc.isExited = false → c.chunks.Open threshold
  exited : c.pc.isExited = true → c.chunks.AllSent

/-- If the flag is set now, nothing is left behind: the consumer has not swapped yet, or the array
is empty. -/
def LocalSafe (c : Channel (LocalPc E) E) : Prop :=
  match c.pc with
  | .waiting => True
  | .processing _ | .recording _ _ | .exited => c.array = []

/-- Everything one step of `consumeLocalEdges` can do. -/
inductive LocalMove (threshold : Nat) (terminate : Bool) (c : Channel (LocalPc E) E) :
    Channel (LocalPc E) E → Prop
  | swap (hpc : c.pc = .waiting) : LocalMove threshold terminate c
      { c with array := [], ready := false, pc := .processing c.array }
  | write {batch : List E} {edge : E} (hpc : c.pc = .processing (batch ++ [edge])) :
    LocalMove threshold terminate c
      { c with chunks := c.chunks.put (threshold ≤ ·) edge, pc := .recording batch edge }
  | leave (hpc : c.pc = .processing []) (hflag : terminate = true) :
    LocalMove threshold terminate c { c with chunks := c.chunks.finish, pc := .exited }
  | wait (hpc : c.pc = .processing []) (hflag : terminate = false) :
    LocalMove threshold terminate c { c with pc := .waiting }
  | record {batch : List E} {edge : E} (hpc : c.pc = .recording batch edge) :
    LocalMove threshold terminate c
      { c with pc := .processing batch, recorded := c.recorded ++ [edge] }

theorem localMove (h : consumeLocalEdges threshold terminate c = some c') :
    LocalMove threshold terminate c c' := by
  unfold consumeLocalEdges at h
  cases hpc : c.pc <;> simp only [hpc] at h
  case waiting =>
    split_ifs at h
    cases h
    exact .swap hpc
  case processing batch =>
    rcases eq_nil_or_concat batch with rfl | ⟨batch, edge, rfl⟩
    · cases terminate <;> cases h
      · exact .wait hpc rfl
      · exact .leave hpc rfl
    · simp only [concat_eq_append, getLast?_concat, dropLast_concat] at h hpc
      cases h
      exact .write hpc
  case recording =>
    cases h
    exact .record hpc
  case exited => cases h

theorem LocalSound.addLocalEdge (hc : LocalSound threshold c) :
    LocalSound threshold (addLocalEdge threshold edge c) := by
  refine ⟨?_, hc.chunks, hc.exited⟩
  simpa [Partitioner.addLocalEdge] using hc.edges.append_right [edge]

theorem LocalSound.consumeLocalEdges (hc : LocalSound threshold c)
    (h : consumeLocalEdges threshold terminate c = some c') : LocalSound threshold c' := by
  have he := hc.edges
  have hopen := hc.chunks
  rcases localMove h with hpc | hpc | ⟨hpc, -⟩ | ⟨hpc, -⟩ | hpc <;> rw [hpc] at he hopen <;>
    simp only [LocalPc.isExited, forall_const] at he hopen
  case write =>
    refine ⟨?_, fun _ => hopen.put, by simp [LocalPc.isExited]⟩
    -- the edge moves from the end of the batch to the end of the file
    refine Perm.trans ?_ he
    simp only [ChunkFiles.written_put, LocalPc.batch, append_assoc]
    exact Perm.append_left _ ((perm_append_comm_assoc _ _ _))
  case leave =>
    exact ⟨by simpa [LocalPc.batch] using he, by simp [LocalPc.isExited],
      fun _ => hopen.allSent_finish⟩
  all_goals exact ⟨by simpa [LocalPc.batch] using he, fun _ => hopen, by simp [LocalPc.isExited]⟩

/-- After the flag is set, whether something is left behind is decided. -/
theorem localSafe_iff (h : consumeLocalEdges threshold true c = some c') :
    LocalSafe c' ↔ LocalSafe c := by
  cases localMove h <;> simp_all [LocalSafe]

theorem LocalSound.delivered_iff (hc : LocalSound threshold c) (hexit : c.pc.isExited = true) :
    c.Delivered ↔ LocalSafe c := by
  have hpc : c.pc = .exited := by
    cases hpc : c.pc <;> simp_all [LocalPc.isExited]
  have he := hc.edges
  simp only [hpc, LocalPc.batch, append_nil] at he
  rw [Channel.Delivered, and_iff_left (hc.exited hexit), LocalSafe, hpc, perm_iff_of_append he]

end LocalChannel

section CutChannel

variable {threshold : Nat} {terminate : Bool} {edge : E} {c c' : Channel (CutPc E) E}

/-- No cut edge is lost or written twice. -/
structure CutSound (threshold : Nat) (c : Channel (CutPc E) E) : Prop where
  edges : (c.chunks.written ++ c.array).Perm c.passed
  chunks : c.pc.isExited = false → c.chunks.Open threshold

/-- If the flag is set now, nothing is left behind. A consumer that is not draining leaves its
array as it is, and one that finds the flag at the head of the loop leaves its file unsent. -/
def CutSafe (threshold : Nat) (c : Channel (CutPc E) E) : Prop :=
  match c.pc with
  | .test => c.array = [] ∧ c.chunks.current = []
  | .waiting | .woken => c.array = []
  | .draining | .recording _ | .registering _ =>
    (c.chunks.current.length + c.array.length) % threshold = 0
  | .exited => c.array = [] ∧ c.chunks.AllSent

/-- Everything one step of `consumeEdgeCuts` can do. -/
inductive CutMove (threshold : Nat) (terminate : Bool) (c : Channel (CutPc E) E) :
    Channel (CutPc E) E → Prop
  | test (hpc : c.pc = .test) :
    CutMove threshold terminate c { c with pc := if terminate then .exited else .waiting }
  | wake (hpc : c.pc = .waiting) : CutMove threshold terminate c { c with pc := .woken }
  | leave (hpc : c.pc = .woken) (hflag : terminate = true) :
    CutMove threshold terminate c { c with chunks := c.chunks.finish, pc := .exited }
  | drain (hpc : c.pc = .woken) (hflag : terminate = false) :
    CutMove threshold terminate c { c with pc := .draining }
  | write {array : List E} {edge : E} (hpc : c.pc = .draining) (harr : c.array = array ++ [edge]) :
    CutMove threshold terminate c
      { c with
        array := array
        chunks := c.chunks.put (· == threshold) edge
        pc := .recording edge }
  | drained (hpc : c.pc = .draining) (harr : c.array = []) :
    CutMove threshold terminate c { c with ready := false, pc := .test }
  | record {edge : E} (hpc : c.pc = .recording edge) : CutMove threshold terminate c
      { c with pc := .registering edge, recorded := c.recorded ++ [edge] }
  | register {edge : E} (hpc : c.pc = .registering edge) : CutMove threshold terminate c
      { c with pc := .draining, registered := c.registered ++ [edge] }

theorem cutMove (h : consumeEdgeCuts threshold terminate c = some c') :
    CutMove threshold terminate c c' := by
  unfold consumeEdgeCuts at h
  cases hpc : c.pc <;> simp only [hpc] at h
  case test =>
    cases h
    exact .test hpc
  case waiting =>
    split_ifs at h
    cases h
    exact .wake hpc
  case woken =>
    cases terminate <;> cases h
    · exact .drain hpc rfl
    · exact .leave hpc rfl
  case draining =>
    rcases eq_nil_or_concat c.array with harr | ⟨array, edge, harr⟩ <;> rw [harr] at h
    · cases h
      rw [← harr]
      exact .drained hpc harr
    · simp only [concat_eq_append, getLast?_concat, dropLast_concat] at h harr
      cases h
      exact .write hpc harr
  case recording =>
    cases h
    exact .record hpc
  case registering =>
    cases h
    exact .register hpc
  case exited => cases h

variable (hc : CutSound threshold c)

include hc

theorem CutSound.addEdgeCut (h : addEdgeCut edge c = some c') : CutSound threshold c' := by
  unfold Partitioner.addEdgeCut at h
  split_ifs at h
  cases h
  refine ⟨?_, hc.chunks⟩
  simpa using hc.edges.append_right [edge]

theorem CutSound.consumeEdgeCuts
    (h : consumeEdgeCuts threshold terminate c = some c') : CutSound threshold c' := by
  have he := hc.edges
  have hopen := hc.chunks
  rcases cutMove h with hpc | hpc | ⟨hpc, -⟩ | ⟨hpc, -⟩ | ⟨hpc, harr⟩ | ⟨hpc, -⟩ | hpc | hpc <;>
    rw [hpc] at hopen <;> simp only [CutPc.isExited, forall_const] at hopen
  case leave => exact ⟨by simpa using he, by simp [CutPc.isExited]⟩
  case write =>
    rw [hopen.put_beq]
    refine ⟨?_, fun _ => hopen.put⟩
    rw [harr] at he
    refine Perm.trans ?_ he
    simp only [ChunkFiles.written_put, append_assoc]
    exact Perm.append_left _ perm_append_comm
  all_goals exact ⟨he, fun _ => hopen⟩

/-- After the flag is set, whether something is left behind is decided. -/
theorem CutSound.cutSafe_iff (h : Partitioner.consumeEdgeCuts threshold true c = some c') :
    CutSafe threshold c' ↔ CutSafe threshold c := by
  have hopen := hc.chunks
  rcases cutMove h with hpc | hpc | ⟨hpc, -⟩ | ⟨hpc, hflag⟩ | ⟨hpc, harr⟩ | ⟨hpc, harr⟩ | hpc |
    hpc <;> rw [hpc] at hopen <;> simp only [CutSafe, hpc, if_true]
  case test => rw [(hopen rfl).allSent_iff]
  case leave => exact and_iff_left (hopen rfl).allSent_finish
  case drain => cases hflag
  case write =>
    rw [(hopen rfl).put_beq, Nat.add_mod, (hopen rfl).length_current_put, ← Nat.add_mod, harr,
      length_append, length_singleton, Nat.add_assoc, Nat.add_comm 1]
  case drained =>
    -- at the end of a drain the file is empty or has a number of edges below the threshold
    rw [harr, length_nil, Nat.add_zero, Nat.mod_eq_of_lt (hopen rfl).room, length_eq_zero_iff]
    exact and_iff_right rfl

theorem CutSound.delivered_iff (hexit : c.pc.isExited = true) :
    c.Delivered ↔ CutSafe threshold c := by
  have hpc : c.pc = .exited := by
    cases hpc : c.pc <;> simp_all [CutPc.isExited]
  rw [Channel.Delivered, CutSafe, hpc, perm_iff_of_append hc.edges]

end CutChannel

/-! ## The whole partitioner -/

section System

variable {cfg} {l : Label cfg} {s t : State cfg}

structure Sound (s : State cfg) : Prop where
  locals : ∀ i, LocalSound cfg.partitionFileEdgeThreshold (s.locals i)
  cuts : ∀ i, CutSound cfg.partitionFileEdgeThreshold (s.cuts i)

theorem sound_start : Sound (start cfg) where
  locals _ := ⟨List.Perm.refl _, fun _ => ChunkFiles.open_new cfg.threshold_pos,
    fun h => by cases h⟩
  cuts _ := ⟨List.Perm.refl _, fun _ => ChunkFiles.open_new cfg.threshold_pos⟩

/-- Everything one step of the partitioner can do. -/
inductive Move (s : State cfg) : Label cfg → State cfg → Prop
  | addLocalEdge (edge : E) (i : Fin cfg.numberOfPartitions) (hm : s.main = .producing) :
    Move s (.addLocalEdge edge i)
      { s with
        locals := update s.locals i
          (addLocalEdge cfg.partitionFileEdgeThreshold edge (s.locals i)) }
  | addEdgeCut (edge : E) (i : Fin cfg.numberOfPartitions) {c : Channel (CutPc E) E}
      (hm : s.main = .producing) (hc : addEdgeCut edge (s.cuts i) = some c) :
    Move s (.addEdgeCut edge i) { s with cuts := update s.cuts i c }
  | consumeLocalEdges (i : Fin cfg.numberOfPartitions) {c : Channel (LocalPc E) E}
      (hc : consumeLocalEdges cfg.partitionFileEdgeThreshold s.terminateConsumers (s.locals i) =
        some c) :
    Move s (.consumeLocalEdges i)
      { s with
        locals := update s.locals i c
        partitions := update s.partitions i
          (recordLocal cfg (s.locals i).pc (s.partitions i)) }
  | consumeEdgeCuts (i : Fin cfg.numberOfPartitions) {c : Channel (CutPc E) E}
      {partitions : Fin cfg.numberOfPartitions → Partition}
      (hc : consumeEdgeCuts cfg.partitionFileEdgeThreshold s.terminateConsumers (s.cuts i) = some c)
      (hp : recordCut cfg i (s.cuts i).pc s.partitions = some partitions) :
    Move s (.consumeEdgeCuts i)
      { s with cuts := update s.cuts i c, partitions := partitions }
  | count {main : Main} (hm : count cfg s.partitions s.main = some main) :
    Move s .count { s with main := main }
  | stop : Move s .stop { s with terminateConsumers := true, main := .stopping }
  | joined (hm : s.main = .stopping) : Move s .joined { s with main := .stopped }
  /-- A producer's index is out of range: an error is logged. -/
  | logged {l : Label cfg} {edge : E} {index : Nat} (hindex : cfg.numberOfPartitions ≤ index)
      (hl : l = .addLocalEdge edge index ∨ l = .addEdgeCut edge index)
      (hm : s.main = .producing) : Move s l s

theorem move (h : step cfg l s = some t) : Move s l t := by
  cases l with
  | addLocalEdge edge index =>
    simp only [step] at h
    split_ifs at h with hm hi <;> cases h
    · exact .addLocalEdge edge ⟨index, hi⟩ (not_not.1 hm)
    · exact .logged (Nat.not_lt.1 hi) (.inl rfl) (not_not.1 hm)
  | addEdgeCut edge index =>
    simp only [step] at h
    split_ifs at h with hm hi
    · obtain ⟨c, hc, rfl⟩ := map_eq_some_iff.1 h
      exact .addEdgeCut edge ⟨index, hi⟩ (not_not.1 hm) hc
    · cases h
      exact .logged (Nat.not_lt.1 hi) (.inr rfl) (not_not.1 hm)
  | consumeLocalEdges i =>
    obtain ⟨c, hc, rfl⟩ := map_eq_some_iff.1 h
    exact .consumeLocalEdges i hc
  | consumeEdgeCuts i =>
    obtain ⟨c, hc, h⟩ := bind_eq_some_iff.1 h
    obtain ⟨partitions, hp, rfl⟩ := map_eq_some_iff.1 h
    exact .consumeEdgeCuts i hc hp
  | count =>
    obtain ⟨main, hm, rfl⟩ := map_eq_some_iff.1 h
    exact .count hm
  | stop =>
    simp only [step] at h
    cases hm : s.main <;> rw [hm] at h <;> cases h <;> exact .stop
  | joined =>
    simp only [step] at h
    split_ifs at h with hj
    cases h
    exact .joined hj.1

theorem Sound.step (hs : Sound s) (h : step cfg l s = some t) : Sound t := by
  cases move h with
  | addLocalEdge _ i => exact ⟨forall_update hs.locals (hs.locals i).addLocalEdge, hs.cuts⟩
  | addEdgeCut _ i _ hc => exact ⟨hs.locals, forall_update hs.cuts ((hs.cuts i).addEdgeCut hc)⟩
  | consumeLocalEdges i hc =>
    exact ⟨forall_update hs.locals ((hs.locals i).consumeLocalEdges hc), hs.cuts⟩
  | consumeEdgeCuts i hc =>
    exact ⟨hs.locals, forall_update hs.cuts ((hs.cuts i).consumeEdgeCuts hc)⟩
  | _ => exact ⟨hs.locals, hs.cuts⟩

theorem Sound.run {ls : List (Label cfg)} (hs : Sound s)
    (h : run (Partitioner.step cfg) ls s = some t) : Sound t :=
  run_invariant (fun _ _ _ hs hstep => hs.step hstep) h hs

/-- Every consumer stands where it leaves nothing behind if the flag is set. -/
def Safe (s : State cfg) : Prop :=
  (∀ i, LocalSafe (s.locals i)) ∧ ∀ i, CutSafe cfg.partitionFileEdgeThreshold (s.cuts i)

/-- Every edge passed to `addLocalEdge` or `addEdgeCut` was written to exactly one chunk file of its
partition, and every file with an edge was sent exactly once. -/
def Delivered (s : State cfg) : Prop :=
  (∀ i, (s.locals i).Delivered) ∧ ∀ i, (s.cuts i).Delivered

/-- The owner is in `stopConsumerThreads`. -/
structure Stopping (s : State cfg) : Prop where
  sound : Sound s
  terminate : s.terminateConsumers = true
  main : s.main = .stopping

theorem Stopping.step (hs : Stopping s) (hl : l ≠ .joined) (h : step cfg l s = some t) :
    Stopping t ∧ (Safe t ↔ Safe s) := by
  have hsound := hs.sound.step h
  have hmain := hs.main
  cases move h with
  | consumeLocalEdges i hc =>
    rw [hs.terminate] at hc
    exact ⟨⟨hsound, hs.terminate, hmain⟩, and_congr_left' (forall_update_iff
      (localSafe_iff hc))⟩
  | consumeEdgeCuts i hc =>
    rw [hs.terminate] at hc
    exact ⟨⟨hsound, hs.terminate, hmain⟩, and_congr_right' (forall_update_iff
      ((hs.sound.cuts i).cutSafe_iff hc))⟩
  | stop => exact ⟨⟨hsound, rfl, rfl⟩, .rfl⟩
  | joined => exact absurd rfl hl
  | addLocalEdge _ _ hm | addEdgeCut _ _ hm | count hm | logged _ _ hm =>
    rw [hmain] at hm
    cases hm

theorem Stopping.joined (hs : Stopping s) (h : Partitioner.step cfg .joined s = some t) :
    Delivered t ↔ Safe s := by
  simp only [Partitioner.step] at h
  split_ifs at h with hj
  cases h
  exact and_congr (forall_congr' fun i => (hs.sound.locals i).delivered_iff (hj.2 i).1)
    (forall_congr' fun i => (hs.sound.cuts i).delivered_iff (hj.2 i).2)

/-- **When `stopConsumerThreads` delivers every edge.** Let the owner call it after any interleaving
of producers and consumers, and let it return after any further steps of the consumers. Every edge
was written to exactly one chunk file and that file sent exactly once, exactly if every consumer
was `Safe` when the flag was set. -/
theorem stop_delivers_iff {before during : List (Label cfg)} {s₀ s₁ s₂ : State cfg}
    (hbefore : run (step cfg) before (start cfg) = some s₀)
    (hstop : step cfg .stop s₀ = some s₁) (hduring : .joined ∉ during)
    (hreturn : run (step cfg) (during ++ [.joined]) s₁ = some s₂) :
    Delivered s₂ ↔ Safe s₀ := by
  have hs₀ : Sound s₀ := sound_start.run hbefore
  have hs₁ : Stopping s₁ ∧ (Safe s₁ ↔ Safe s₀) := by
    have hsound := hs₀.step hstop
    simp only [step] at hstop
    cases hm : s₀.main <;> rw [hm] at hstop <;> cases hstop <;> exact ⟨⟨hsound, rfl, rfl⟩, .rfl⟩
  obtain ⟨s, hs, hsafe, hjoin⟩ := run_until
    (fun l s t hs hl hstep => hs.step hl hstep) hduring hreturn hs₁.1
  exact (hs.joined hjoin).trans (hsafe.trans hs₁.2)

end System

theorem threshold_pos : 0 < 1000 := by decide

/-- Two partitions and the file threshold of `startStreamingFromBufferToPartitions`, with the pair
of ids for the edge text. -/
abbrev twoPartitions (isDirected : Bool) : Config (VertexId × VertexId) :=
  ⟨2, isDirected, 1000, threshold_pos, id⟩

abbrev first : Fin 2 := ⟨0, Nat.two_pos⟩

abbrev second : Fin 2 := ⟨1, Nat.one_lt_two⟩

/-- Every consumer of two partitions takes the steps it needs to leave. -/
def leaving : List (Label (twoPartitions false)) :=
  [.consumeLocalEdges first, .consumeLocalEdges first, .consumeLocalEdges second,
    .consumeLocalEdges second, .consumeEdgeCuts first, .consumeEdgeCuts second]

/-- The local edge from 1 to 3 and the cut edge from 1 to 2 are passed to partition 1, whose cut
edges are drained. -/
def passing : List (Label (twoPartitions false)) :=
  [.addLocalEdge (ascii "1", ascii "3") 1, .addEdgeCut (ascii "1", ascii "2") 1,
    .consumeEdgeCuts first] ++ replicate 8 (.consumeEdgeCuts second)

/-- Every consumer leaves after `passing`. -/
def leavingBusy : List (Label (twoPartitions false)) :=
  [.consumeEdgeCuts first, .consumeEdgeCuts second, .consumeLocalEdges second,
    .consumeLocalEdges second] ++ leaving

/-- Both edges are delivered: every consumer was waiting, and no cut edge was in an array. -/
theorem stop_delivers_iff_passing :
    ∃ s₀ s₁ s₂, run (step (twoPartitions false)) passing (start _) = some s₀ ∧
      step (twoPartitions false) .stop s₀ = some s₁ ∧
      run (step (twoPartitions false)) (leavingBusy ++ [.joined]) s₁ = some s₂ ∧
      ((s₂.locals 1).passed, (s₂.cuts 1).passed) =
        ([(ascii "1", ascii "3")], [(ascii "1", ascii "2")]) ∧ Delivered s₂ := by
  obtain ⟨s₂, hrun, hpassed⟩ : ∃ s₂ ∈ run (step (twoPartitions false))
      (passing ++ .stop :: (leavingBusy ++ [.joined])) (start _),
      ((s₂.locals 1).passed, (s₂.cuts 1).passed) =
        ([(ascii "1", ascii "3")], [(ascii "1", ascii "2")]) := by
    decide +kernel
  obtain ⟨s₀, hbefore, hafter⟩ := run_append_eq_some.1 hrun
  obtain ⟨s₁, hstop, hreturn⟩ := run_cons_eq_some.1 hafter
  obtain ⟨s, hs, hwaiting⟩ : ∃ s ∈ run (step (twoPartitions false)) passing (start _),
      ∀ i : Fin 2, (s.locals i).pc = .waiting ∧ (s.cuts i).pc = .waiting ∧
        (s.cuts i).array = [] := by
    decide +kernel
  obtain rfl := some.inj (hs.symm.trans hbefore)
  have hsafe : Safe s := by
    refine ⟨fun i => ?_, fun i => ?_⟩
    · rw [LocalSafe, (hwaiting i).1]
      trivial
    · rw [CutSafe, (hwaiting i).2.1]
      exact (hwaiting i).2.2
  exact ⟨s, s₁, s₂, hbefore, hstop, hreturn, hpassed,
    (stop_delivers_iff hbefore hstop (by simp [leavingBusy, leaving]) hreturn).2 hsafe⟩

/-- The flag is set before the consumer of the cut edges of partition 1 has looked at its array:
the edge from 1 to 2 reaches no file. -/
theorem stop_loses_cut_edge : (run (step (twoPartitions false))
        ([.addEdgeCut (ascii "1", ascii "2") 1, .stop] ++ leaving ++ [.joined]) (start _)).map
      (fun s => ((s.cuts 1).passed, (s.cuts 1).chunks.written)) =
    some ([(ascii "1", ascii "2")], []) := by
  decide +kernel

end JasmineGraph.Partitioner
