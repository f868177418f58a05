import JasmineGraph.Instance.EdgeStream
import JasmineGraph.Instance.OutDegree
import JasmineGraph.Schedule
import JasmineGraph.StdSort
import JasmineGraph.MapOption

/-!
# Exporting a graph to HDFS

`send_graph_hdfs_command_impl` selects the distinct rows (worker, partition) of the graph from the
metadata database and starts a thread for each worker. A thread takes its partitions one by one
(`exportWorkerPartitions`): it looks whether another thread has failed, has the worker write the
edges of the partition into a file of its own (`buildShardPath`), and records the file under a
mutex. When all threads have ended and every row was recorded, the files are sorted by partition and
concatenated into the destination, and the client is told `DONE` (`mergeShardsAndRespond`).

A row is a replica of a partition, not a partition: with two replicas the edges of the partition are
in two files, and the destination has both.

The model. Worker and partition ids are numbers, as in the database. A label names a thread and what
it does next; an exchange with a worker may fail at any moment (`Label.lost`), and the worker's HDFS
client answers what it likes (`Label.stream`). HDFS itself holds what was written.
-/

namespace JasmineGraph.Frontend

open Bytes Instance Schedule List Function Frontend

/-! ## The placement of the parts -/

/-- Which worker has which part, with the store files on every worker that has the part. Sets are
iterated on each worker in an order of its own. -/
structure Placement (G : CutGraph) where
  rows : List (Nat × Nat)
  distinct : rows.Nodup
  ids : ∀ r ∈ rows, r.2 < 2 ^ 31
  placed : ∀ e ∈ G.edges, ∃ w, (w, G.part e.1) ∈ rows
  workerList : List Nat
  listed : ∀ r ∈ rows, r.1 ∈ workerList
  stores : Nat → Stores G
  folder : Nat → DataFolder
  localStore : ∀ r ∈ rows,
    (folder r.1).localStore (decimal r.2) = some ((stores r.1).localStore r.2)
  centralStore : ∀ r ∈ rows,
    (folder r.1).centralStore (decimal r.2) = some ((stores r.1).centralStore r.2)

def workerPartitionMap (rows : List (Nat × Nat)) : Nat → List Nat :=
  rows.foldl MapLoop.pushBack fun _ => []

/-- The sum of the sizes over the keys of the map. -/
def totalPartitions (rows : List (Nat × Nat)) : Nat :=
  ((rows.map Prod.fst).dedup.map fun w => (workerPartitionMap rows w).length).sum

def buildShardPath (shardDirectory graphId : List UInt8) (workerID partitionID : Nat) : List UInt8 :=
  shardDirectory ++ (if shardDirectory = ascii "/" then [] else ascii "/") ++ ascii "graph_" ++
    graphId ++ ascii "_worker_" ++ decimal workerID ++ ascii "_partition_" ++ decimal partitionID ++
    ascii ".txt"

/-! ## The threads -/

/-- Where a thread stands with the first of its partitions. -/
inductive Phase where
  | check
  | exporting
  | exported (success : Bool)

/-- The partitions a thread has left, and what it does with the first. -/
structure ExportThread where
  pending : List Nat
  phase : Phase

/-- The threads by their workers, the files in HDFS and `HdfsShardExportResult`. -/
structure ExportState where
  threads : Nat → ExportThread
  files : List UInt8 → Option (List UInt8)
  writeError : Bool
  processedPartitions : Nat
  shardPaths : List (Int × List UInt8)

inductive Label where
  | check (worker : Nat)
  /-- The worker streams the partition; its HDFS client answers each chunk. -/
  | stream (worker : Nat) (consume : Nat → Bool)
  /-- The exchange fails and leaves something, or nothing, under the path. -/
  | lost (worker : Nat) (left : Option (List UInt8))
  | record (worker : Nat)

section Model

variable {G : CutGraph} (P : Placement G) (shardDirectory graphId : List UInt8)

def shardPath (r : Nat × Nat) : List UInt8 := buildShardPath shardDirectory graphId r.1 r.2

/-- One action of a thread of `exportWorkerPartitions`. -/
def step : Label → ExportState → Option ExportState
  | .check w, s =>
    match s.threads w with
    | ⟨partitionId :: rest, .check⟩ =>
      let thread : ExportThread :=
        if s.writeError then ⟨[], .check⟩ else ⟨partitionId :: rest, .exporting⟩
      some { s with threads := Function.update s.threads w thread }
    | _ => none
  | .stream w consume, s =>
    match s.threads w with
    | ⟨partitionId :: rest, .exporting⟩ =>
      let path := shardPath shardDirectory graphId (w, partitionId)
      match streamPartitionEdgeData consume (P.folder w) (decimal partitionId) with
      | .ok chunks => some { s with
          files := Function.update s.files path (some chunks.flatten)
          threads := Function.update s.threads w ⟨partitionId :: rest, .exported true⟩ }
      | .error chunks => some { s with
          files := Function.update s.files path (some chunks.flatten)
          threads := Function.update s.threads w ⟨partitionId :: rest, .exported false⟩ }
    | _ => none
  | .lost w left, s =>
    match s.threads w with
    | ⟨partitionId :: rest, .exporting⟩ => some { s with
        files := Function.update s.files (shardPath shardDirectory graphId (w, partitionId)) left
        threads := Function.update s.threads w ⟨partitionId :: rest, .exported false⟩ }
    | _ => none
  | .record w, s =>
    match s.threads w with
    | ⟨partitionId :: rest, .exported true⟩ =>
      -- an id that is no `int` makes `stoi` throw
      (stoi (decimal partitionId)).map fun id => { s with
        threads := Function.update s.threads w ⟨rest, .check⟩
        processedPartitions := s.processedPartitions + 1
        shardPaths := s.shardPaths ++ [(id, shardPath shardDirectory graphId (w, partitionId))] }
    | ⟨_ :: _, .exported false⟩ => some { s with
        threads := Function.update s.threads w ⟨[], .check⟩
        writeError := true }
    | _ => none

/-- The state of `exportWorkerShards` when its threads start. A worker that is not listed has no
thread and sets the error. -/
def start : ExportState where
  threads w := ⟨if w ∈ P.workerList then workerPartitionMap P.rows w else [], .check⟩
  files _ := none
  writeError := (P.rows.map Prod.fst).any fun w => w ∉ P.workerList
  processedPartitions := 0
  shardPaths := []

def Joined (s : ExportState) : Prop := ∀ w, (s.threads w).pending = []

/-- `concatenateFiles`: the files one after the other; a missing file is an error. -/
def concatenateFiles (files : List UInt8 → Option (List UInt8)) (sourcePaths : List (List UInt8)) :
    Option (List UInt8) :=
  (sourcePaths.mapM files).map List.flatten

/-- The destination file after `DONE`; `none` is another answer. -/
def mergeShardsAndRespond (sort : StdSort) (s : ExportState) : Option (List UInt8) :=
  if s.processedPartitions = 0 then none
  else if s.writeError ∨ s.processedPartitions ≠ totalPartitions P.rows then none
  else do
    let ordered ← sort.sort (fun left right => decide (left.1 < right.1)) s.shardPaths
    concatenateFiles s.files (ordered.map Prod.snd)

/-- In every run that answers `DONE`, the lines of the destination are the edges of the graph, each
once. -/
def ExportsExactly : Prop :=
  ∀ sort ls s text, run (step P shardDirectory graphId) ls (start P) = some s → Joined s →
    mergeShardsAndRespond P sort s = some text → (split 10 text).Perm (G.edges.map edgeLine)

end Model

/-! ## The files have different names -/

theorem shardPath_injective (shardDirectory graphId : List UInt8) :
    Injective (shardPath shardDirectory graphId) := by
  rintro ⟨w, p⟩ ⟨w', p'⟩ h
  simp only [shardPath, buildShardPath, append_assoc, append_cancel_left_eq] at h
  have hascii : ascii "_partition_" = 95 :: ascii "partition_" := rfl
  rw [hascii, cons_append, cons_append] at h
  have hw : decimal w = decimal w' := by
    have hfields := congrArg (split 95) h
    rw [split_line (notMem_decimal rfl w), split_line (notMem_decimal rfl w')] at hfields
    exact (List.cons.inj hfields).1
  rw [hw] at h
  have hp := append_cancel_right (append_cancel_left (List.cons.inj (append_cancel_left h)).2)
  rw [decimal_injective hw, decimal_injective hp]

/-! ## The rows -/

theorem mem_workerPartitionMap {rows : List (Nat × Nat)} {w p : Nat} :
    p ∈ workerPartitionMap rows w ↔ (w, p) ∈ rows := by
  unfold workerPartitionMap
  rw [MapLoop.foldl_pushBack]
  simp

theorem workerPartitionMap_cons (r : Nat × Nat) (rows : List (Nat × Nat)) (w : Nat) :
    workerPartitionMap (r :: rows) w =
      if r.1 = w then r.2 :: workerPartitionMap rows w else workerPartitionMap rows w := by
  unfold workerPartitionMap
  rw [MapLoop.foldl_pushBack, MapLoop.foldl_pushBack, filter_cons]
  simp only [decide_eq_true_eq]
  split_ifs <;> rfl

theorem nodup_workerPartitionMap {rows : List (Nat × Nat)} (h : rows.Nodup) (w : Nat) :
    (workerPartitionMap rows w).Nodup := by
  unfold workerPartitionMap
  rw [MapLoop.foldl_pushBack]
  refine Nodup.map_on (fun r hr r' hr' heq => ?_) (h.filter _)
  exact Prod.ext ((of_decide_eq_true (mem_filter.1 hr).2).trans
    (of_decide_eq_true (mem_filter.1 hr').2).symm) heq

theorem totalPartitions_eq (rows : List (Nat × Nat)) : totalPartitions rows = rows.length := by
  have hlength : ∀ w, (workerPartitionMap rows w).length = (rows.map Prod.fst).count w := fun w => by
    unfold workerPartitionMap
    rw [MapLoop.foldl_pushBack, nil_append, length_map, ← countP_eq_length_filter,
      List.count, countP_map]
    exact countP_congr fun r _ => by simp
  unfold totalPartitions
  simp only [hlength]
  rw [sum_map_count_dedup_eq_length, length_map]

/-! ## What every run keeps -/

section Runs

variable {G : CutGraph} (P : Placement G) (shardDirectory graphId : List UInt8)

def shardText (r : Nat × Nat) : List UInt8 :=
  (partEdges ((P.stores r.1).localStore r.2) ((P.stores r.1).centralStore r.2)).flatMap
    fun e => edgeLine e ++ [10]

/-- What a thread has left to do is not done, and a file it has exported has its text. -/
structure Owes (files : List UInt8 → Option (List UInt8)) (done : List (Nat × Nat)) (w : Nat)
    (thread : ExportThread) : Prop where
  rows : ∀ p ∈ thread.pending, (w, p) ∈ P.rows ∧ (w, p) ∉ done
  nodup : thread.pending.Nodup
  current : ∀ p rest, thread = ⟨p :: rest, .exported true⟩ →
    files (shardPath shardDirectory graphId (w, p)) = some (shardText P (w, p))

/-- The rows `done` are recorded, each once and with its text, and no thread has one of them left. -/
structure Recorded (s : ExportState) (done : List (Nat × Nat)) : Prop where
  paths : s.shardPaths = done.map fun r => ((r.2 : Int), shardPath shardDirectory graphId r)
  processed : s.processedPartitions = done.length
  nodup : done.Nodup
  rows : ∀ r ∈ done, r ∈ P.rows
  files : ∀ r ∈ done, s.files (shardPath shardDirectory graphId r) = some (shardText P r)
  threads : ∀ w, Owes P shardDirectory graphId s.files done w (s.threads w)

theorem recorded_start : Recorded P shardDirectory graphId (start P) [] where
  paths := rfl
  processed := rfl
  nodup := nodup_nil
  rows := fun r hr => absurd hr not_mem_nil
  files := fun r hr => absurd hr not_mem_nil
  threads w := by
    refine ⟨fun p hp => ?_, ?_, fun p rest heq => nomatch congrArg ExportThread.phase heq⟩
    · simp only [start] at hp
      split_ifs at hp
      · exact ⟨mem_workerPartitionMap.1 hp, not_mem_nil⟩
      · exact absurd hp not_mem_nil
    · simp only [start]
      split_ifs
      · exact nodup_workerPartitionMap P.distinct w
      · exact nodup_nil

inductive Moves (s : ExportState) : ExportState → Prop
  | drop (w : Nat) (error : Bool) :
    Moves s { s with threads := Function.update s.threads w ⟨[], .check⟩, writeError := error }
  | begin {w p : Nat} {rest : List Nat} (hthread : (s.threads w).pending = p :: rest) :
    Moves s { s with threads := Function.update s.threads w ⟨p :: rest, .exporting⟩ }
  | exported {w p : Nat} {rest : List Nat} (hthread : (s.threads w).pending = p :: rest)
    (success : Bool) (file : Option (List UInt8))
    (hfile : success = true → (w, p) ∈ P.rows → file = some (shardText P (w, p))) :
    Moves s { s with
      files := Function.update s.files (shardPath shardDirectory graphId (w, p)) file
      threads := Function.update s.threads w ⟨p :: rest, .exported success⟩ }
  | record {w p : Nat} {rest : List Nat} (hthread : s.threads w = ⟨p :: rest, .exported true⟩)
    {id : Int} (hid : stoi (decimal p) = some id) :
    Moves s { s with
      threads := Function.update s.threads w ⟨rest, .check⟩
      processedPartitions := s.processedPartitions + 1
      shardPaths := s.shardPaths ++ [(id, shardPath shardDirectory graphId (w, p))] }

variable {P shardDirectory graphId} {s t : ExportState}

theorem moves_of_step {l : Label} (h : step P shardDirectory graphId l s = some t) :
    Moves P shardDirectory graphId s t := by
  cases l with
  | check w =>
    simp only [step] at h
    split at h
    · next p rest hthread =>
      cases h
      split_ifs with herror
      · exact herror ▸ Moves.drop w true
      · exact Moves.begin (by rw [hthread])
    · exact nomatch h
  | stream w consume =>
    simp only [step] at h
    split at h
    · next p rest hthread =>
      have hpending : (s.threads w).pending = p :: rest := by rw [hthread]
      split at h <;> cases h
      · next chunks hchunks =>
        refine Moves.exported hpending true _ fun _ hrow => ?_
        have hmeets := meets_streamPartitionEdgeData consume (P.localStore _ hrow)
          (P.centralStore _ hrow)
        rw [hchunks] at hmeets
        exact congrArg some hmeets.2
      · exact Moves.exported hpending false _ nofun
    · exact nomatch h
  | lost w left =>
    simp only [step] at h
    split at h <;> cases h
    next p rest hthread => exact Moves.exported (by rw [hthread]) false _ nofun
  | record w =>
    simp only [step] at h
    split at h
    · next p rest hthread =>
      obtain ⟨id, hid, rfl⟩ := Option.map_eq_some_iff.1 h
      exact Moves.record hthread hid
    · cases h
      exact Moves.drop w true
    · exact nomatch h

theorem stoi_decimal {p : Nat} (h : p < 2 ^ 31) : stoi (decimal p) = some (p : Int) := by
  have hdecimal : decimalInt (p : Int) = decimal p := by simp [decimalInt]
  rw [← hdecimal]
  exact stoi_decimalInt (by omega)

section Frame

variable {files : List UInt8 → Option (List UInt8)} {done : List (Nat × Nat)} {w j p : Nat}
  {thread : ExportThread}

theorem owes_of_phase {pending : List Nat} {phase : Phase} (hphase : phase ≠ .exported true)
    (hrows : ∀ p ∈ pending, (w, p) ∈ P.rows ∧ (w, p) ∉ done) (hnodup : pending.Nodup) :
    Owes P shardDirectory graphId files done w ⟨pending, phase⟩ :=
  ⟨hrows, hnodup, fun _ _ heq => absurd (congrArg ExportThread.phase heq) hphase⟩

theorem Owes.update_file (h : Owes P shardDirectory graphId files done j thread) (hj : j ≠ w)
    (file : Option (List UInt8)) :
    Owes P shardDirectory graphId
      (Function.update files (shardPath shardDirectory graphId (w, p)) file) done j thread := by
  refine { h with current := fun q rest heq => ?_ }
  have hne : (j, q) ≠ (w, p) := fun heq => hj (Prod.mk.inj heq).1
  rw [update_of_ne ((shardPath_injective shardDirectory graphId).ne hne)]
  exact h.current q rest heq

theorem Owes.record (h : Owes P shardDirectory graphId files done j thread)
    (hnew : ∀ q ∈ thread.pending, (j, q) ≠ (w, p)) :
    Owes P shardDirectory graphId files (done ++ [(w, p)]) j thread := by
  refine { h with rows := fun q hq => ⟨(h.rows q hq).1, fun hmem => ?_⟩ }
  rcases mem_append.1 hmem with hmem | hmem
  · exact (h.rows q hq).2 hmem
  · exact hnew q hq (mem_singleton.1 hmem)

end Frame

/-- **Every step keeps the record.** -/
theorem Recorded.step {done : List (Nat × Nat)} (h : Recorded P shardDirectory graphId s done)
    (hmoves : Moves P shardDirectory graphId s t) :
    ∃ done', Recorded P shardDirectory graphId t done' := by
  cases hmoves with
  | drop w error =>
    have howes : Owes P shardDirectory graphId s.files done w ⟨[], .check⟩ :=
      owes_of_phase nofun (fun p hp => absurd hp not_mem_nil) nodup_nil
    exact ⟨done, { h with threads := forall_update h.threads howes }⟩
  | @begin w p rest hthread =>
    have howes : Owes P shardDirectory graphId s.files done w ⟨p :: rest, .exporting⟩ :=
      owes_of_phase nofun (hthread ▸ (h.threads w).rows) (hthread ▸ (h.threads w).nodup)
    exact ⟨done, { h with threads := forall_update h.threads howes }⟩
  | @exported w p rest hthread success file hfile =>
    have howes := h.threads w
    obtain ⟨hrow, hdone⟩ := howes.rows p (hthread ▸ mem_cons_self)
    refine ⟨done, { h with files := fun r hr => ?_, threads := ?threads }⟩
    case threads =>
      refine (Function.forall_update_iff s.threads (Owes P shardDirectory graphId _ done)).2
        ⟨⟨hthread ▸ howes.rows, hthread ▸ howes.nodup, fun q rest' heq => ?_⟩,
          fun j hj => (h.threads j).update_file hj file⟩
      obtain ⟨hpending, hsuccess⟩ := ExportThread.mk.inj heq
      obtain ⟨rfl, -⟩ := List.cons.inj hpending
      exact (update_self _ _ _).trans (hfile (Phase.exported.inj hsuccess) hrow)
    · have hne := (shardPath_injective shardDirectory graphId).ne (ne_of_mem_of_not_mem hr hdone)
      exact (update_of_ne hne _ _).trans (h.files r hr)
  | @record w p rest hthread id hid =>
    have howes := h.threads w
    rw [hthread] at howes
    obtain ⟨hrow, hdone⟩ := howes.rows p mem_cons_self
    have hnodup := nodup_cons.1 howes.nodup
    obtain rfl : (p : Int) = id := Option.some.inj ((stoi_decimal (P.ids _ hrow)).symm.trans hid)
    have hrest : Owes P shardDirectory graphId s.files done w ⟨rest, .check⟩ :=
      owes_of_phase nofun (fun q hq => howes.rows q (mem_cons_of_mem _ hq)) hnodup.2
    refine ⟨done ++ [(w, p)], ⟨?_, ?_, concat_eq_append ▸ h.nodup.concat hdone,
      forall_mem_append.2 ⟨h.rows, forall_mem_singleton.2 hrow⟩,
      forall_mem_append.2 ⟨h.files, forall_mem_singleton.2 (howes.current p rest rfl)⟩,
      (Function.forall_update_iff s.threads (Owes P shardDirectory graphId _ _)).2
        ⟨hrest.record fun q hq heq => hnodup.1 ((Prod.mk.inj heq).2 ▸ hq),
          fun j hj => (h.threads j).record fun q _ heq => hj (Prod.mk.inj heq).1⟩⟩⟩
    · rw [map_append, ← h.paths]
      rfl
    · rw [length_append, ← h.processed]
      rfl

theorem recorded_run {ls : List Label}
    (hrun : run (step P shardDirectory graphId) ls (start P) = some s) :
    ∃ done, Recorded P shardDirectory graphId s done :=
  run_invariant (I := fun s => ∃ done, Recorded P shardDirectory graphId s done)
    (fun _ _ _ ⟨_, h⟩ hstep => h.step (moves_of_step hstep)) hrun
    ⟨[], recorded_start P shardDirectory graphId⟩

/-! ## The destination -/

def rowEdges (P : Placement G) (r : Nat × Nat) : List (Long × Long) :=
  partEdges ((P.stores r.1).localStore r.2) ((P.stores r.1).centralStore r.2)

theorem Recorded.perm {done : List (Nat × Nat)} (h : Recorded P shardDirectory graphId s done)
    (hall : s.processedPartitions = totalPartitions P.rows) : done.Perm P.rows := by
  rw [h.processed, totalPartitions_eq] at hall
  exact (subperm_of_subset h.nodup h.rows).perm_of_length_le hall.ge

theorem split_append_edges (es : List (Long × Long)) (text : List UInt8) :
    split 10 ((es.flatMap fun e => edgeLine e ++ [10]) ++ text) =
      es.map edgeLine ++ split 10 text := by
  induction es with
  | nil => rfl
  | cons e es ih =>
    rw [flatMap_cons, append_assoc, append_assoc, singleton_append,
      split_line (newline_notMem_edgeLine e), ih]
    rfl

theorem split_flatten {texts : List (List UInt8)}
    (h : ∀ text ∈ texts, ∃ es : List (Long × Long), text = es.flatMap fun e => edgeLine e ++ [10]) :
    split 10 texts.flatten = texts.flatMap (split 10) := by
  induction texts with
  | nil => rfl
  | cons text texts ih =>
    obtain ⟨es, rfl⟩ := h text mem_cons_self
    rw [flatten_cons, split_append_edges, ih fun t ht => h t (mem_cons_of_mem _ ht),
      flatMap_cons, split_edges]

theorem exists_ordered (sort : StdSort) (s : ExportState) : ∃ ordered,
    sort.sort (fun a b => decide (a.1 < b.1)) s.shardPaths = some ordered ∧
      ordered.Perm s.shardPaths := by
  obtain ⟨ordered, hsort, hperm, -⟩ := sort.sorts
    (strictWeakOn_of_key (fun a : Int × List UInt8 => a.1) (fun a b => decide_eq_true_iff)
      s.shardPaths)
  exact ⟨ordered, hsort, hperm⟩

/-- **The destination after `DONE`** has the edges of all rows. -/
theorem Recorded.merge {done : List (Nat × Nat)} (h : Recorded P shardDirectory graphId s done)
    {sort : StdSort} {text : List UInt8} (hmerge : mergeShardsAndRespond P sort s = some text) :
    (split 10 text).Perm ((P.rows.flatMap (rowEdges P)).map edgeLine) := by
  unfold mergeShardsAndRespond at hmerge
  split_ifs at hmerge with hzero herror
  obtain ⟨ordered, hsort, hconcat⟩ := Option.bind_eq_some_iff.1 hmerge
  obtain ⟨texts, htexts, rfl⟩ := Option.map_eq_some_iff.1 hconcat
  have hdone := h.perm (not_not.1 (not_or.1 herror).2)
  obtain ⟨ordered', hsort', hperm⟩ := exists_ordered sort s
  obtain rfl := Option.some.inj (hsort.symm.trans hsort')
  -- the texts are those of the rows
  have hfiles : done.map (fun r => s.files (shardPath shardDirectory graphId r)) =
      (done.map (shardText P)).map some := by
    rw [map_map]
    exact map_congr_left h.files
  have htextsperm : texts.Perm (P.rows.map (shardText P)) := by
    refine Perm.trans ?_ (hdone.map _)
    rw [← map_perm_map_iff (Option.some_injective _), ← mapM_eq_some_iff.1 htexts,
      ← hfiles, map_map]
    have := hperm.map (s.files ∘ Prod.snd)
    rwa [h.paths, map_map] at this
  rw [split_flatten fun t ht => ?_]
  · refine (htextsperm.flatMap_right _).trans (Perm.of_eq ?_)
    rw [flatMap_map, map_flatMap]
    exact flatMap_congr fun r _ => split_edges _
  · obtain ⟨r, -, rfl⟩ := mem_map.1 (htextsperm.mem_iff.1 ht)
    exact ⟨_, rfl⟩

/-! ## A run without failures -/

/-- A worker whose HDFS client takes every chunk streams its part. -/
theorem exists_stream_ok {w p : Nat} (hrow : (w, p) ∈ P.rows) :
    ∃ chunks, streamPartitionEdgeData (fun _ => true) (P.folder w) (decimal p) = .ok chunks := by
  have hmeets := meets_streamPartitionEdgeData (fun _ => true) (P.localStore _ hrow)
    (P.centralStore _ hrow)
  cases h : streamPartitionEdgeData (fun _ => true) (P.folder w) (decimal p) with
  | ok chunks => exact ⟨chunks, rfl⟩
  | error chunks =>
    rw [h] at hmeets
    exact absurd hmeets (by simp [Outcome.Meets])

/-- A thread takes a partition through its three actions. -/
theorem exists_run_of_row {w p : Nat} {rest : List Nat} (hrow : (w, p) ∈ P.rows)
    (hthread : s.threads w = ⟨p :: rest, .check⟩) (herror : s.writeError = false) :
    ∃ ls t, run (step P shardDirectory graphId) ls s = some t ∧ t.writeError = false ∧
      t.threads = Function.update s.threads w ⟨rest, .check⟩ ∧
      t.processedPartitions = s.processedPartitions + 1 := by
  obtain ⟨chunks, hchunks⟩ := exists_stream_ok hrow
  let s₁ : ExportState :=
    { s with threads := Function.update s.threads w ⟨p :: rest, .exporting⟩ }
  let path := shardPath shardDirectory graphId (w, p)
  let s₂ : ExportState := { s₁ with
    files := Function.update s.files path (some chunks.flatten)
    threads := Function.update s₁.threads w ⟨p :: rest, .exported true⟩ }
  let s₃ : ExportState := { s₂ with
    threads := Function.update s₂.threads w ⟨rest, .check⟩
    processedPartitions := s.processedPartitions + 1
    shardPaths := s.shardPaths ++ [((p : Int), path)] }
  have h₁ : step P shardDirectory graphId (.check w) s = some s₁ := by
    simp [step, hthread, herror, s₁]
  have h₂ : step P shardDirectory graphId (.stream w fun _ => true) s₁ = some s₂ := by
    simp [step, hchunks, s₁, s₂, path]
  have h₃ : step P shardDirectory graphId (.record w) s₂ = some s₃ := by
    simp [step, stoi_decimal (P.ids _ hrow), s₁, s₂, s₃, path]
  refine ⟨[.check w, .stream w fun _ => true, .record w], s₃, ?_, herror, ?_, rfl⟩
  · simp only [run, h₁, h₂, h₃, Option.bind_some]
  · simp only [s₃, s₂, s₁, update_idem]

/-- From a state in which the threads have some rows to do, they do them. -/
theorem exists_run_of_todo (todo : List (Nat × Nat)) (s : ExportState)
    (hthreads : ∀ w, s.threads w = ⟨workerPartitionMap todo w, .check⟩) (herror : s.writeError = false)
    (hrows : ∀ r ∈ todo, r ∈ P.rows) :
    ∃ ls t, run (step P shardDirectory graphId) ls s = some t ∧ Joined t ∧
      t.writeError = false ∧ t.processedPartitions = s.processedPartitions + todo.length := by
  induction todo generalizing s with
  | nil => exact ⟨[], s, rfl, fun w => by rw [hthreads w]; rfl, herror, rfl⟩
  | cons r todo ih =>
    obtain ⟨w, p⟩ := r
    have hthread : s.threads w = ⟨p :: workerPartitionMap todo w, .check⟩ := by
      rw [hthreads w, workerPartitionMap_cons, if_pos rfl]
    obtain ⟨ls, t, hrun, hnoerror, ht, hcount⟩ :=
      exists_run_of_row (hrows _ mem_cons_self) hthread herror
    have hleft : ∀ j, t.threads j = ⟨workerPartitionMap todo j, .check⟩ := fun j => by
      rw [ht]
      by_cases hj : j = w
      · rw [hj, update_self]
      · rw [update_of_ne hj, hthreads j, workerPartitionMap_cons, if_neg (Ne.symm hj)]
    obtain ⟨ls', u, hrun', hjoined, hnoerror', hcount'⟩ := ih t hleft hnoerror
      fun r hr => hrows r (mem_cons_of_mem _ hr)
    refine ⟨ls ++ ls', u, run_append_eq_some.2 ⟨t, hrun, hrun'⟩, hjoined, hnoerror', ?_⟩
    rw [length_cons]
    omega

/-- **Without failures the threads record every row.** -/
theorem exists_run (P : Placement G) (shardDirectory graphId : List UInt8) :
    ∃ ls t, run (step P shardDirectory graphId) ls (start P) = some t ∧
    Joined t ∧ t.writeError = false ∧ t.processedPartitions = P.rows.length := by
  have hthreads : ∀ w, (start P).threads w = ⟨workerPartitionMap P.rows w, .check⟩ := fun w => by
    simp only [start]
    split_ifs with hw
    · rfl
    · congr 1
      refine (eq_nil_iff_forall_not_mem.2 fun p hp => hw ?_).symm
      exact P.listed _ (mem_workerPartitionMap.1 hp)
  have herror : (start P).writeError = false := by
    simp only [start, any_eq_false, decide_eq_true_eq, not_not]
    intro w hw
    obtain ⟨r, hr, rfl⟩ := mem_map.1 hw
    exact P.listed r hr
  obtain ⟨ls, t, hrun, hjoined, hnoerror, hcount⟩ :=
    exists_run_of_todo P.rows (start P) hthreads herror fun r hr => hr
  exact ⟨ls, t, hrun, hjoined, hnoerror, hcount.trans (Nat.zero_add _)⟩

theorem Recorded.exists_merge {done : List (Nat × Nat)}
    (h : Recorded P shardDirectory graphId s done) (herror : s.writeError = false)
    (hcount : s.processedPartitions = P.rows.length) (hrows : P.rows ≠ []) (sort : StdSort) :
    ∃ text, mergeShardsAndRespond P sort s = some text := by
  obtain ⟨ordered, hsort, hperm⟩ := exists_ordered sort s
  have hfiles : ((ordered.map Prod.snd).mapM s.files).isSome := by
    refine isSome_mapM.2 fun path hpath => ?_
    obtain ⟨e, he, rfl⟩ := mem_map.1 hpath
    rw [hperm.mem_iff, h.paths] at he
    obtain ⟨r, hr, rfl⟩ := mem_map.1 he
    rw [h.files r hr]
    rfl
  obtain ⟨texts, htexts⟩ := Option.isSome_iff_exists.1 hfiles
  refine ⟨texts.flatten, ?_⟩
  unfold mergeShardsAndRespond
  rw [if_neg (by rw [hcount]; simpa using hrows),
    if_neg (by rw [herror, hcount, totalPartitions_eq]; simp), hsort]
  exact congrArg (Option.map List.flatten) htexts

end Runs

/-! ## Exactly once -/

section Exactly

variable {G : CutGraph} (P : Placement G)

theorem mem_rowEdges {r : Nat × Nat} {e : Long × Long} :
    e ∈ rowEdges P r ↔ e ∈ G.edges ∧ G.part e.1 = r.2 := (P.stores r.1).mem_partEdges r.2

/-- The rows together have every edge once if and only if every part with an edge is in one row. -/
theorem perm_edges_iff (hedges : G.edges.Nodup) : (P.rows.flatMap (rowEdges P)).Perm G.edges ↔
      ∀ e ∈ G.edges, ∃! w, (w, G.part e.1) ∈ P.rows := by
  have hmem : ∀ e, e ∈ P.rows.flatMap (rowEdges P) ↔ e ∈ G.edges := fun e => by
    rw [mem_flatMap]
    constructor
    · rintro ⟨r, -, he⟩
      exact ((mem_rowEdges P).1 he).1
    · intro he
      obtain ⟨w, hw⟩ := P.placed e he
      exact ⟨_, hw, (mem_rowEdges P).2 ⟨he, rfl⟩⟩
  have hnodup : (P.rows.flatMap (rowEdges P)).Perm G.edges ↔ (P.rows.flatMap (rowEdges P)).Nodup :=
    ⟨fun h => h.nodup_iff.2 hedges, fun h => (perm_ext_iff_of_nodup h hedges).2 hmem⟩
  have hrow : ∀ r ∈ P.rows, (rowEdges P r).Nodup := fun r _ => (P.stores r.1).nodup_partEdges r.2
  rw [hnodup, nodup_flatMap, and_iff_right hrow]
  constructor
  · intro hdisjoint e he
    obtain ⟨w, hw⟩ := P.placed e he
    refine ⟨w, hw, fun w' hw' => ?_⟩
    by_contra hne
    have : Std.Symm (onFun List.Disjoint (rowEdges P)) := ⟨fun _ _ h => h.symm⟩
    have hrows := hdisjoint.forall hw' hw fun h => hne (Prod.mk.inj h).1
    exact hrows ((mem_rowEdges P).2 ⟨he, rfl⟩) ((mem_rowEdges P).2 ⟨he, rfl⟩)
  · intro hunique
    refine P.distinct.pairwise_of_forall_ne fun r hr r' hr' hne => ?_
    refine disjoint_left.2 fun e he he' => hne ?_
    obtain ⟨hedge, hpart⟩ := (mem_rowEdges P).1 he
    obtain ⟨-, hpart'⟩ := (mem_rowEdges P).1 he'
    have hrow : (r.1, G.part e.1) ∈ P.rows := hpart ▸ hr
    have hrow' : (r'.1, G.part e.1) ∈ P.rows := hpart' ▸ hr'
    exact Prod.ext ((hunique e hedge).unique hrow hrow') (hpart.symm.trans hpart')

/-- **Exporting a graph.** For a graph without repeated edges, every run that answers `DONE` leaves
the edges of the graph in the destination, each once, if and only if every part in which an edge
starts is on one worker only. -/
theorem exportsExactly_iff (hedges : G.edges.Nodup) (shardDirectory graphId : List UInt8) :
    ExportsExactly P shardDirectory graphId ↔ ∀ e ∈ G.edges, ∃! w, (w, G.part e.1) ∈ P.rows := by
  rw [← perm_edges_iff P hedges, ← map_perm_map_iff edgeLine_injective]
  constructor
  · intro hexact
    by_cases hrows : P.rows = []
    · have hnone : G.edges = [] := eq_nil_iff_forall_not_mem.2 fun e he => by
        obtain ⟨w, hw⟩ := P.placed e he
        exact absurd (hrows ▸ hw) not_mem_nil
      rw [hrows, hnone]
      rfl
    · obtain ⟨ls, s, hrun, hjoined, herror, hcount⟩ := exists_run P shardDirectory graphId
      obtain ⟨done, hdone⟩ := recorded_run hrun
      obtain ⟨text, htext⟩ := hdone.exists_merge herror hcount hrows .lenient
      exact (hdone.merge htext).symm.trans (hexact .lenient ls s text hrun hjoined htext)
  · intro hperm sort ls s text hrun _ htext
    obtain ⟨done, hdone⟩ := recorded_run hrun
    exact (hdone.merge htext).trans hperm

end Exactly

/-! ## One replica and two -/

/-- A placement of the parts of a graph on workers that all have the whole data folder. -/
def place (G : CutGraph) (rows : List (Nat × Nat)) (distinct : rows.Nodup)
    (ids : ∀ r ∈ rows, r.2 < 2 ^ 31) (placed : ∀ e ∈ G.edges, ∃ w, (w, G.part e.1) ∈ rows) :
    Placement G where
  rows := rows
  distinct := distinct
  ids := ids
  placed := placed
  workerList := rows.map Prod.fst
  listed r hr := mem_map_of_mem hr
  stores _ := G.stores
  folder _ := G.folder
  localStore r _ := by simp [CutGraph.folder, ofDigits_decimal]
  centralStore r _ := by simp [CutGraph.folder, ofDigits_decimal]

/-- Each of the two parts on a worker of its own. -/
def twoWorkers : Placement cutTriangle :=
  place cutTriangle [(1, 0), (2, 1)] (by decide) (by decide)
    (by simp [cutTriangle])

/-- A second worker has a replica of the first part. -/
def replicated : Placement cutTriangle :=
  place cutTriangle [(1, 0), (2, 0), (2, 1)] (by decide) (by decide)
    (by simp [cutTriangle])

theorem twoWorkers_exportsExactly : ExportsExactly twoWorkers (ascii "/out_shards") (ascii "5") :=
  (exportsExactly_iff twoWorkers (by decide) _ _).2 fun e he => by
    have hpart : ∀ e ∈ cutTriangle.edges, cutTriangle.part e.1 = 0 := by simp [cutTriangle]
    have hrow : ∀ w, (w, 0) ∈ twoWorkers.rows ↔ w = 1 := fun w => by simp [twoWorkers, place]
    simp only [hpart e he, hrow, existsUnique_eq]

/-- With the replica, every edge is exported twice. -/
theorem replicated_not_exportsExactly :
    ¬ ExportsExactly replicated (ascii "/out_shards") (ascii "5") := by
  intro hexact
  obtain ⟨ls, s, hrun, hjoined, herror, hcount⟩ := exists_run replicated (ascii "/out_shards")
    (ascii "5")
  obtain ⟨done, hdone⟩ := recorded_run hrun
  obtain ⟨text, htext⟩ := hdone.exists_merge herror hcount (by decide) .lenient
  have hperm := (hdone.merge htext).symm.trans (hexact .lenient ls s text hrun hjoined htext)
  have hlength := hperm.length_eq
  exact absurd hlength (by decide +kernel)

end JasmineGraph.Frontend
