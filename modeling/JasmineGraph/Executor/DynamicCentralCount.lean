import JasmineGraph.Schedule
import JasmineGraph.Executor.StreamingTriangleCount

/-!
# The central counts a dynamic execution sends

The model of one `StreamingTriangleCountExecutor::execute` in mode `"1"`
(`frontend/core/executor/impl/StreamingTriangleCountExecutor.cpp`). A thread for every partition
reads the partition's row of `streaming_partition` (`retrieveLocalValues`), has the worker count what
is new, and stores the new counts in the row (`saveLocalValues`). Meanwhile the main thread goes
through the combinations of three partitions, picks an aggregator for each, reads the central count
in the row of every member (`getCentralRelationCount`) and sends them; the aggregator takes the
central edges behind these counts for new.

A step is one statement on the database, one answer of a worker, or the arrival of an edge at a
partition. A thread may fail on its socket and then stores nothing. `start` is the state when
`execute` begins; `History` is a sequence of executions that each run to their end.
-/

namespace JasmineGraph.Executor.DynamicCentralCount

open Bytes Schedule List Option Function

abbrev PartitionId := List UInt8

/-- A row of `streaming_partition` for the graph. -/
structure Row where
  localEdges : Int
  centralEdges : Int
  triangles : Int
deriving DecidableEq

/-- The relations in the files of a partition. -/
structure Relations where
  localCount : Int
  centralCount : Int

/-! ## The main thread's reads -/

/-- The body of the loop over the members of a combination, on `minWeightWorker` and
`minimumWeight`. -/
def lighter (workerWeightMap : PartitionId → Option Nat) (acc : PartitionId × Nat)
    (workerId : PartitionId) : PartitionId × Nat :=
  match workerWeightMap workerId with
  | some weight => if acc.2 = 0 ∨ acc.2 > weight then (workerId, weight + 1) else acc
  | none => (workerId, 1)

def minWeightWorker (workerWeightMap : PartitionId → Option Nat) (combination : List PartitionId) :
    PartitionId × Nat :=
  combination.foldl (lighter workerWeightMap) ([], 0)

/-- For every combination the partitions in the order in which their counts are read: the
aggregator comes last. -/
def readOrders (workerWeightMap : PartitionId → Option Nat) :
    List (List PartitionId) → List (List PartitionId)
  | [] => []
  | combination :: rest =>
    let aggregator := minWeightWorker workerWeightMap combination
    (combination.filter (· ≠ aggregator.1) ++ [aggregator.1]) ::
      readOrders (Function.update workerWeightMap aggregator.1 (some aggregator.2)) rest

/-- The reads of `aggregateCentralStoreTriangles`, which needs more than two partitions. -/
def plan (partitionCount : Nat) : List (List PartitionId) :=
  if 2 < partitionCount then readOrders (fun _ => none) (getWorkerCombination partitionCount) else []

theorem foldl_lighter_mem {weights : PartitionId → Option Nat} (rest : List PartitionId)
    (acc : PartitionId × Nat) (seen : List PartitionId) (hacc : acc.1 ∈ seen) :
    (rest.foldl (lighter weights) acc).1 ∈ seen ++ rest := by
  induction rest generalizing acc seen with
  | nil => simpa using hacc
  | cons workerId rest ih =>
    rw [append_cons]
    refine ih _ (seen ++ [workerId]) ?_
    unfold lighter
    split
    · split_ifs
      · exact mem_append_right _ mem_cons_self
      · exact mem_append_left _ hacc
    · exact mem_append_right _ mem_cons_self

theorem minWeightWorker_mem {weights : PartitionId → Option Nat} {combination : List PartitionId}
    (h : combination ≠ []) : (minWeightWorker weights combination).1 ∈ combination := by
  obtain ⟨first, rest, rfl⟩ := exists_cons_of_ne_nil h
  refine foldl_lighter_mem rest _ [first] ?_
  unfold lighter
  split
  · exact mem_cons_self
  · exact mem_cons_self

theorem exists_readOrder {combinations : List (List PartitionId)}
    (weights : PartitionId → Option Nat) {combination : List PartitionId}
    (h : combination ∈ combinations) (hne : combination ≠ []) :
    ∃ order ∈ readOrders weights combinations, ∀ p, p ∈ order ↔ p ∈ combination := by
  induction combinations generalizing weights with
  | nil => cases h
  | cons first rest ih =>
    rcases mem_cons.1 h with rfl | h
    · refine ⟨_, mem_cons_self, fun p => ?_⟩
      have hmem : (minWeightWorker weights combination).1 ∈ combination := minWeightWorker_mem hne
      by_cases hp : p = (minWeightWorker weights combination).1
      · simp [hp, hmem]
      · simp [hp]
    · obtain ⟨order, horder, hp⟩ := ih _ h
      exact ⟨order, mem_cons_of_mem _ horder, hp⟩

theorem exists_mem_plan {n i : Nat} (hn : 2 < n) (hi : i < n) :
    ∃ order ∈ plan n, decimal i ∈ order := by
  have hthree : 3 ≤ (Finset.univ : Finset (Fin n)).card := by
    rw [Finset.card_univ, Fintype.card_fin]
    exact hn
  obtain ⟨c, hc, -, hcard⟩ := Finset.exists_subsuperset_card_eq
    (Finset.subset_univ {(⟨i, hi⟩ : Fin n)}) (by simp) hthree
  obtain ⟨combination, hmem, hlength, hsub⟩ := exists_combination hcard
  have hne : combination ≠ [] := by
    rintro rfl
    cases hlength
  obtain ⟨order, horder, hp⟩ := exists_readOrder (fun _ => none) hmem hne
  refine ⟨order, ?_, (hp _).2 (hsub ⟨i, hi⟩ (hc (Finset.mem_singleton_self _)))⟩
  rw [plan, if_pos hn]
  exact horder

/-! ## The execution -/

/-- Where the thread of a partition stands. -/
inductive Worker where
  | idle
  | asked (oldResult : Row)
  | answered (newResult : Row)
  | saved (newResult : Row)
  | failed
deriving DecidableEq

/-- What is sent for a combination: partitions with the counts read for them. `seen` are the central
relations the aggregator finds in the files when it counts. -/
structure Request where
  counts : List (PartitionId × Option Int)
  seen : Option (PartitionId → Int)

/-- The database, the partitions and the threads of the execution. -/
structure State where
  rows : PartitionId → Option Row
  files : PartitionId → Relations
  workers : Nat → Worker
  /-- What the main thread has yet to read, for this combination and the ones behind it. -/
  toRead : List (List PartitionId)
  reading : List (PartitionId × Option Int)
  sent : List Request

inductive Label where
  | retrieveLocalValues (i : Nat)
  /-- The worker of a partition answers with the number of new triangles. -/
  | answer (i : Nat) (triangles : Int)
  | saveLocalValues (i : Nat)
  | fail (i : Nat)
  /-- The main thread reads a count or, after the last one, sends them. -/
  | read
  | aggregate (r : Nat)
  | arriveLocal (p : PartitionId)
  | arriveCentral (p : PartitionId)

namespace State

def save (s : State) (p : PartitionId) (row : Row) : State :=
  { s with rows := Function.update s.rows p (some row) }

def setWorker (s : State) (i : Nat) (w : Worker) : State :=
  { s with workers := Function.update s.workers i w }

/-- `getCentralRelationCount`; `none` for the empty text it returns when there is no row. -/
def getCentralRelationCount (s : State) (p : PartitionId) : Option Int :=
  (s.rows p).map Row.centralEdges

def readCount (s : State) (p : PartitionId) (toRead : List (List PartitionId)) : State :=
  { s with toRead := toRead, reading := s.reading ++ [(p, s.getCentralRelationCount p)] }

def send (s : State) (toRead : List (List PartitionId)) : State :=
  { s with toRead := toRead, reading := [], sent := s.sent ++ [⟨s.reading, none⟩] }

/-- A request is counted on the files as they are. -/
def aggregate (s : State) (r : Nat) (counts : List (PartitionId × Option Int)) : State :=
  { s with sent := s.sent.set r ⟨counts, some fun p => (s.files p).centralCount⟩ }

def arrive (s : State) (p : PartitionId) (relations : Relations) : State :=
  { s with files := Function.update s.files p relations }

end State

def step (partitionCount : Nat) : Label → State → Option State
  | .retrieveLocalValues i, s =>
    match s.workers i with
    | .idle =>
      if i < partitionCount then
        some (s.setWorker i (.asked ((s.rows (decimal i)).getD ⟨0, 0, 0⟩)))
      else none
    | _ => none
  | .answer i triangles, s =>
    match s.workers i with
    | .asked oldResult =>
      let relations := s.files (decimal i)
      some (s.setWorker i (.answered
        ⟨relations.localCount, relations.centralCount, triangles + oldResult.triangles⟩))
    | _ => none
  | .saveLocalValues i, s =>
    match s.workers i with
    | .answered newResult => some ((s.save (decimal i) newResult).setWorker i (.saved newResult))
    | _ => none
  | .fail i, s =>
    match s.workers i with
    | .asked _ => some (s.setWorker i .failed)
    | .answered _ => some (s.setWorker i .failed)
    | _ => none
  | .read, s =>
    match s.toRead with
    | [] => none
    | [] :: rest => some (s.send rest)
    | (p :: ps) :: rest => some (s.readCount p (ps :: rest))
  | .aggregate r, s =>
    match s.sent[r]? with
    | some ⟨counts, none⟩ => some (s.aggregate r counts)
    | _ => none
  | .arriveLocal p, s =>
    some (s.arrive p ⟨(s.files p).localCount + 1, (s.files p).centralCount⟩)
  | .arriveCentral p, s =>
    some (s.arrive p ⟨(s.files p).localCount, (s.files p).centralCount + 1⟩)

/-- `execute` begins. -/
def start (partitionCount : Nat) (rows : PartitionId → Option Row)
    (files : PartitionId → Relations) : State where
  rows := rows
  files := files
  workers := fun _ => .idle
  toRead := plan partitionCount
  reading := []
  sent := []

/-- What the thread of a partition has after a step that stores nothing. -/
def Worker.Unsaved (s : State) (l : Label) (i : Nat) (w : Worker) : Prop :=
  (w = .failed ∧ l = .fail i) ∨ (∃ old, w = .asked old) ∨
    ∃ row, w = .answered row ∧ row.centralEdges = (s.files (decimal i)).centralCount

section Steps

variable {n : Nat} {s t : State} {l : Label}

/-- Everything a step of an execution can do. -/
inductive Move (s : State) (l : Label) : State → Prop
  | setWorker {i : Nat} {w : Worker} (hl : l ≠ .read) (hold : ∀ row, s.workers i ≠ .saved row)
    (hw : w.Unsaved s l i) : Move s l (s.setWorker i w)
  | save {i : Nat} {row : Row} (hl : l ≠ .read) (hrow : s.workers i = .answered row) :
    Move s l ((s.save (decimal i) row).setWorker i (.saved row))
  | readCount {p : PartitionId} {ps : List PartitionId} {rest : List (List PartitionId)}
    (hl : l = .read) (hread : s.toRead = (p :: ps) :: rest) : Move s l (s.readCount p (ps :: rest))
  | send {rest : List (List PartitionId)} (hl : l = .read) (hread : s.toRead = [] :: rest) :
    Move s l (s.send rest)
  | aggregate {r : Nat} {counts : List (PartitionId × Option Int)} (hl : l ≠ .read)
    (hsent : s.sent[r]? = some ⟨counts, none⟩) : Move s l (s.aggregate r counts)
  | arrive {p : PartitionId} {relations : Relations} (hl : l ≠ .read)
    (hcentral : relations.centralCount = (s.files p).centralCount ∨ l = .arriveCentral p) :
    Move s l (s.arrive p relations)

theorem move (h : step n l s = some t) : Move s l t := by
  cases l <;> simp only [step] at h
  case arriveLocal => exact some.inj h ▸ .arrive nofun (.inl rfl)
  case arriveCentral => exact some.inj h ▸ .arrive nofun (.inr rfl)
  case retrieveLocalValues =>
    split at h <;> rename_i hw
    · split_ifs at h
      exact some.inj h ▸ .setWorker nofun (by simp [hw]) (.inr (.inl ⟨_, rfl⟩))
    · cases h
  case answer =>
    split at h <;> rename_i hw
    · exact some.inj h ▸ .setWorker nofun (by simp [hw]) (.inr (.inr ⟨_, rfl, rfl⟩))
    · cases h
  case saveLocalValues =>
    split at h <;> rename_i hw
    · exact some.inj h ▸ .save nofun hw
    · cases h
  case fail =>
    split at h <;> rename_i hw
    · exact some.inj h ▸ .setWorker nofun (by simp [hw]) (.inl ⟨rfl, rfl⟩)
    · exact some.inj h ▸ .setWorker nofun (by simp [hw]) (.inl ⟨rfl, rfl⟩)
    · cases h
  case read =>
    split at h <;> rename_i hr
    · cases h
    · exact some.inj h ▸ .send rfl hr
    · exact some.inj h ▸ .readCount rfl hr
  case aggregate =>
    split at h <;> rename_i hr
    · exact some.inj h ▸ .aggregate nofun hr
    · cases h

end Steps

/-! ## What is sent -/

section Sent

variable {n : Nat} {stored rows : PartitionId → Option Row} {files : PartitionId → Relations}
  {s t : State} {l : Label}

def IsStored (stored : PartitionId → Option Row) (e : PartitionId × Option Int) : Prop :=
  e.2 = (stored e.1).map Row.centralEdges

/-- Every count that was read is the one stored. -/
structure SendsStored (stored : PartitionId → Option Row) (s : State) : Prop where
  sent : ∀ counts ∈ s.sent.map Request.counts, ∀ e ∈ counts, IsStored stored e
  reading : ∀ e ∈ s.reading, IsStored stored e

/-- When the main thread reads the row of a partition, the thread of the partition has not stored
another central count. -/
def Fresh (stored : PartitionId → Option Row) (l : Label) (s : State) : Prop :=
  ∀ p ps rest, l = .read → s.toRead = (p :: ps) :: rest → ∀ i, decimal i = p →
    ∀ row, s.workers i = .saved row → some row.centralEdges = (stored p).map Row.centralEdges

structure RowsOf (stored : PartitionId → Option Row) (s : State) : Prop where
  saved : ∀ i row, s.workers i = .saved row → s.rows (decimal i) = some row
  old : ∀ p, (∀ i row, decimal i = p → s.workers i ≠ .saved row) → s.rows p = stored p

theorem RowsOf.setWorker (hs : RowsOf stored s) {i : Nat} {w : Worker}
    (hold : ∀ row, s.workers i ≠ .saved row) (hnew : ∀ row, w ≠ .saved row) :
    RowsOf stored (s.setWorker i w) := by
  have hsame : ∀ j row, update s.workers i w j = .saved row ↔ s.workers j = .saved row := fun j row =>
    update_iff (P := fun _ (w : Worker) => w = .saved row) (iff_of_false (hnew row) (hold row)) j
  refine ⟨fun j row h => hs.saved j row ((hsame j row).1 h), fun p h => hs.old p fun j row hj => ?_⟩
  exact fun hw => h j row hj ((hsame j row).2 hw)

theorem RowsOf.save (hs : RowsOf stored s) {i : Nat} {row : Row} :
    RowsOf stored ((s.save (decimal i) row).setWorker i (.saved row)) := by
  refine ⟨fun j row' h => ?_, fun p h => ?_⟩
  · change update s.workers i _ j = _ at h
    change update s.rows (decimal i) (some row) (decimal j) = _
    by_cases hj : j = i
    · subst hj
      rw [update_self] at h
      cases h
      rw [update_self]
    · rw [update_of_ne hj] at h
      rw [update_of_ne fun heq => hj (decimal_injective heq)]
      exact hs.saved j row' h
  · change update s.rows (decimal i) (some row) p = _
    by_cases hp : p = decimal i
    · refine absurd ?_ (h i row hp.symm)
      exact update_self i _ s.workers
    · rw [update_of_ne hp]
      refine hs.old p fun j row' hj hw => h j row' hj ?_
      have hji : j ≠ i := fun heq => hp (heq ▸ hj.symm)
      exact (update_of_ne hji _ _).trans hw

theorem RowsOf.step (hs : RowsOf stored s) (h : DynamicCentralCount.step n l s = some t) :
    RowsOf stored t := by
  cases move h with
  | setWorker _ hold hw =>
    refine hs.setWorker hold fun row hrow => ?_
    subst hrow
    obtain ⟨hw, -⟩ | ⟨old, hw⟩ | ⟨row', hw, -⟩ := hw <;> cases hw
  | save => exact hs.save
  | _ => exact ⟨hs.saved, hs.old⟩

theorem isStored_read (hs : RowsOf stored s) {p : PartitionId} {ps : List PartitionId}
    {rest : List (List PartitionId)} (hread : s.toRead = (p :: ps) :: rest) :
    IsStored stored (p, s.getCentralRelationCount p) ↔ Fresh stored .read s := by
  have hfresh : Fresh stored .read s ↔ ∀ i, decimal i = p → ∀ row, s.workers i = .saved row →
      some row.centralEdges = (stored p).map Row.centralEdges := by
    refine ⟨fun h => h p ps rest rfl hread, fun h p' ps' rest' _ hread' => ?_⟩
    rw [hread] at hread'
    cases hread'
    exact h
  rw [hfresh]
  unfold State.getCentralRelationCount
  by_cases hsaved : ∃ i row, decimal i = p ∧ s.workers i = .saved row
  · obtain ⟨i, row, rfl, hw⟩ := hsaved
    rw [hs.saved i row hw]
    refine ⟨fun h j hj row' hw' => ?_, fun h => h i rfl row hw⟩
    cases decimal_injective hj
    cases hw.symm.trans hw'
    exact h
  · rw [hs.old p fun i row hi hw => hsaved ⟨i, row, hi, hw⟩]
    exact iff_of_true rfl fun i hi row hw => absurd ⟨i, row, hi, hw⟩ hsaved

theorem fresh_of_ne_read (h : l ≠ .read) : Fresh stored l s := fun _ _ _ hl => absurd hl h

theorem counts_aggregate {r : Nat} {counts : List (PartitionId × Option Int)}
    (h : s.sent[r]? = some ⟨counts, none⟩) :
    (s.aggregate r counts).sent.map Request.counts = s.sent.map Request.counts := by
  obtain ⟨hr, heq⟩ := List.getElem?_eq_some_iff.1 h
  unfold State.aggregate
  rw [map_set]
  refine ext_getElem (by simp) fun j hj hj' => ?_
  rw [getElem_set]
  split_ifs with hrj
  · subst hrj
    rw [getElem_map, heq]
  · rfl

theorem SendsStored.step (hs : RowsOf stored s) (h : DynamicCentralCount.step n l s = some t) :
    SendsStored stored t ↔ SendsStored stored s ∧ Fresh stored l s := by
  cases move h with
  | setWorker hl | save hl | arrive hl =>
    rw [and_iff_left (fresh_of_ne_read hl)]
    exact ⟨fun h => ⟨h.sent, h.reading⟩, fun h => ⟨h.sent, h.reading⟩⟩
  | readCount hl hread =>
    subst hl
    rw [← isStored_read hs hread]
    constructor
    · rintro ⟨hsent, hreading⟩
      obtain ⟨hreading, hnew⟩ := forall_mem_append.1 hreading
      exact ⟨⟨hsent, hreading⟩, forall_mem_singleton.1 hnew⟩
    · rintro ⟨⟨hsent, hreading⟩, hnew⟩
      exact ⟨hsent, forall_mem_append.2 ⟨hreading, forall_mem_singleton.2 hnew⟩⟩
  | @send rest hl hread =>
    have hfresh : Fresh stored l s := fun p ps rest' _ hr => by
      rw [hread] at hr
      cases hr
    rw [and_iff_left hfresh]
    have hmap : (s.send rest).sent.map Request.counts = s.sent.map Request.counts ++ [s.reading] :=
      map_append
    constructor
    · rintro ⟨hsent, -⟩
      rw [hmap, forall_mem_append, forall_mem_singleton] at hsent
      exact ⟨hsent.1, hsent.2⟩
    · rintro ⟨hsent, hreading⟩
      refine ⟨?_, nofun⟩
      rw [hmap, forall_mem_append, forall_mem_singleton]
      exact ⟨hsent, hreading⟩
  | aggregate hl hsent =>
    rw [and_iff_left (fresh_of_ne_read hl)]
    exact ⟨fun h => ⟨counts_aggregate hsent ▸ h.sent, h.reading⟩,
      fun h => ⟨(counts_aggregate hsent).symm ▸ h.sent, h.reading⟩⟩

theorem rowsOf_start : RowsOf rows (start n rows files) :=
  ⟨nofun, fun _ _ => rfl⟩

/-- **Which counts are sent.** In any run of an execution all counts that are sent are the ones that
were stored when it began exactly if every read is fresh. -/
theorem sent_iff_fresh {ls : List Label} (hrun : run (step n) ls (start n rows files) = some s) :
    SendsStored rows s ↔ Meets (step n) (Fresh rows) ls (start n rows files) := by
  have hstart : SendsStored rows (start n rows files) := ⟨nofun, nofun⟩
  rw [run_iff_meets (fun l s t hs h => ⟨hs.step h, SendsStored.step hs h⟩) hrun
    rowsOf_start, and_iff_right hstart]

end Sent

/-! ## What an execution counts -/

section Counted

variable {n : Nat} {rows : PartitionId → Option Row} {files : PartitionId → Relations}
  {s t : State} {l : Label}

def State.unsent (s : State) : List (List PartitionId) :=
  match s.toRead with
  | [] => []
  | ps :: rest => (s.reading.map Prod.fst ++ ps) :: rest

/-- Everything is read and sent, the threads have ended and the requests are counted. -/
structure Finished (n : Nat) (s : State) : Prop where
  toRead : s.toRead = []
  workers : ∀ i < n, s.workers i = .failed ∨ ∃ row, s.workers i = .saved row
  seen : ∀ r ∈ s.sent, r.seen.isSome

/-- The central edge number `k` of the partition is new to the execution: a request has a count
below it, and the aggregator finds it in the file. -/
def Includes (s : State) (p : PartitionId) (k : Int) : Prop :=
  ∃ r ∈ s.sent, ∃ count seen, (p, some count) ∈ r.counts ∧ r.seen = some seen ∧ count < k ∧
    k ≤ seen p

def Orderly (l : Label) : Prop := (∀ i, l ≠ .fail i) ∧ ∀ p, l ≠ .arriveCentral p

/-- What holds throughout an orderly execution. -/
structure Steady (n : Nat) (files : PartitionId → Relations) (s : State) : Prop where
  central : ∀ p, (s.files p).centralCount = (files p).centralCount
  answered : ∀ i row, s.workers i = .answered row ∨ s.workers i = .saved row →
    row.centralEdges = (files (decimal i)).centralCount
  unfailed : ∀ i, s.workers i ≠ .failed
  seen : ∀ r ∈ s.sent, ∀ seen, r.seen = some seen → ∀ p, seen p = (files p).centralCount
  orders : s.sent.map (fun r => r.counts.map Prod.fst) ++ s.unsent = plan n

theorem Steady.withWorker (hs : Steady n files s) {i : Nat} {w : Worker}
    (hrow : ∀ row, w = .answered row ∨ w = .saved row →
      row.centralEdges = (files (decimal i)).centralCount) (hw : w ≠ .failed) :
    Steady n files (s.setWorker i w) :=
  ⟨hs.central, forall_update (P := fun j (w : Worker) => ∀ row, w = .answered row ∨ w = .saved row →
      row.centralEdges = (files (decimal j)).centralCount) hs.answered hrow,
    forall_update (P := fun _ (w : Worker) => w ≠ .failed) hs.unfailed hw, hs.seen, hs.orders⟩

theorem Steady.setWorker (hs : Steady n files s) {i : Nat} {w : Worker} (hl : Orderly l)
    (hw : w.Unsaved s l i) : Steady n files (s.setWorker i w) := by
  obtain ⟨-, hfail⟩ | ⟨old, rfl⟩ | ⟨row', rfl, hrow'⟩ := hw
  · exact absurd hfail (hl.1 i)
  · exact hs.withWorker (by simp) nofun
  · refine hs.withWorker (fun row hrow => ?_) nofun
    rcases hrow with hrow | hrow <;> cases hrow
    exact hrow'.trans (hs.central _)

theorem Steady.save (hs : Steady n files s) {i : Nat} {row : Row}
    (hrow : s.workers i = .answered row) :
    Steady n files ((s.save (decimal i) row).setWorker i (.saved row)) := by
  have hs' : Steady n files (s.save (decimal i) row) :=
    { hs with }
  refine hs'.withWorker (fun row' hrow' => ?_) nofun
  rcases hrow' with h | h <;> cases h
  exact hs.answered i row (.inl hrow)

theorem Steady.aggregate (hs : Steady n files s) {r : Nat}
    {counts : List (PartitionId × Option Int)} (hr : s.sent[r]? = some ⟨counts, none⟩) :
    Steady n files (s.aggregate r counts) := by
  have hmap : (s.aggregate r counts).sent.map (fun r => r.counts.map Prod.fst) =
      s.sent.map (fun r => r.counts.map Prod.fst) := by
    have hcounts := congrArg (map (map Prod.fst)) (counts_aggregate hr)
    rwa [List.map_map, List.map_map] at hcounts
  refine ⟨hs.central, hs.answered, hs.unfailed, fun q hq seen hseen p => ?_, ?_⟩
  · rcases mem_or_eq_of_mem_set hq with hq | rfl
    · exact hs.seen q hq seen hseen p
    · cases hseen
      exact hs.central p
  · rw [hmap]
    exact hs.orders

theorem Steady.step (hs : Steady n files s) (hl : Orderly l)
    (h : DynamicCentralCount.step n l s = some t) : Steady n files t := by
  cases move h with
  | setWorker _ _ hw => exact hs.setWorker hl hw
  | save _ hrow => exact hs.save hrow
  | readCount _ hread =>
    refine { hs with orders := ?_ }
    rw [← hs.orders]
    simp [State.readCount, State.unsent, hread]
  | @send rest _ hread =>
    refine ⟨hs.central, hs.answered, hs.unfailed, fun r hr seen hseen p => ?_, ?_⟩
    · rcases mem_append.1 hr with hr | hr
      · exact hs.seen r hr seen hseen p
      · rw [mem_singleton.1 hr] at hseen
        cases hseen
    · rw [← hs.orders]
      cases rest <;> simp [State.send, State.unsent, hread]
  | aggregate _ hsent => exact hs.aggregate hsent
  | @arrive p _ _ hcentral =>
    refine { hs with central := ?_ }
    refine forall_update (P := fun q (r : Relations) => r.centralCount = (files q).centralCount)
      hs.central ?_
    exact (hcentral.resolve_right (hl.2 p)).trans (hs.central p)

theorem steady_start : Steady n files (start n rows files) := by
  refine ⟨fun _ => rfl, fun i row h => ?_, nofun, nofun, ?_⟩
  · rcases h with h | h <;> cases h
  · unfold start
    cases plan n <;> rfl

/-- An execution, with the rows and files it found. -/
structure Execution where
  rows : PartitionId → Option Row
  files : PartitionId → Relations
  schedule : List Label
  final : State

/-- The execution ran to its end, on files that have the relations that were counted before. -/
structure Execution.Ran (n : Nat) (x : Execution) : Prop where
  run_eq : run (step n) x.schedule (start n x.rows x.files) = some x.final
  finished : Finished n x.final
  grown : ∀ i < n, ∀ row, x.rows (decimal i) = some row →
    row.centralEdges ≤ (x.files (decimal i)).centralCount

/-- Every read was fresh, no thread failed and no central edge arrived. -/
structure Execution.Undisturbed (n : Nat) (x : Execution) : Prop where
  fresh : Meets (step n) (Fresh x.rows) x.schedule (start n x.rows x.files)
  orderly : ∀ l ∈ x.schedule, Orderly l

variable {x : Execution} {i : Nat} {row : Row} {k : Int}

theorem Execution.Ran.steady (h : x.Ran n) (hu : x.Undisturbed n) : Steady n x.files x.final :=
  Meets.invariant (fun _ _ _ hs hl hstep => hs.step hl hstep)
    (Meets.of_forall (fun l hl _ => hu.orderly l hl) _) h.run_eq steady_start

theorem Execution.Ran.rows_after (h : x.Ran n) (hu : x.Undisturbed n) (hi : i < n) :
    ∃ row, x.final.rows (decimal i) = some row ∧
      row.centralEdges = (x.files (decimal i)).centralCount := by
  have hs := h.steady hu
  have hrows : RowsOf x.rows x.final :=
    run_invariant (fun _ _ _ hs hstep => hs.step hstep) h.run_eq rowsOf_start
  obtain ⟨row, hrow⟩ := (h.finished.workers i hi).resolve_left (hs.unfailed i)
  exact ⟨row, hrows.saved i row hrow, hs.answered i row (.inr hrow)⟩

/-- **What is new to an execution**: the edges behind the count that was stored. -/
theorem Execution.Ran.includes_iff (h : x.Ran n) (hu : x.Undisturbed n) (hn : 2 < n) (hi : i < n)
    (hrow : x.rows (decimal i) = some row) :
    Includes x.final (decimal i) k ↔
      row.centralEdges < k ∧ k ≤ (x.files (decimal i)).centralCount := by
  have hs := h.steady hu
  have hstored := (sent_iff_fresh h.run_eq).2 hu.fresh
  have hcount : ∀ r ∈ x.final.sent, ∀ e ∈ r.counts, e.1 = decimal i →
      e.2 = some row.centralEdges := by
    intro r hr e he hp
    have heq := hstored.sent _ (List.mem_map_of_mem hr) e he
    rwa [IsStored, hp, hrow] at heq
  constructor
  · rintro ⟨r, hr, count, seen, hmem, hseen, hlt, hle⟩
    cases hcount r hr _ hmem rfl
    exact ⟨hlt, hs.seen r hr seen hseen _ ▸ hle⟩
  · rintro ⟨hlt, hle⟩
    -- some request has the partition
    obtain ⟨order, horder, hp⟩ := exists_mem_plan hn hi
    have hunsent : x.final.unsent = [] := by rw [State.unsent, h.finished.toRead]
    rw [← hs.orders, hunsent, append_nil] at horder
    obtain ⟨r, hr, rfl⟩ := List.mem_map.1 horder
    obtain ⟨e, he, hep⟩ := List.mem_map.1 hp
    obtain ⟨seen, hseen⟩ := isSome_iff_exists.1 (h.finished.seen r hr)
    refine ⟨r, hr, row.centralEdges, seen, ?_, hseen, hlt, ?_⟩
    · rw [← hep, ← hcount r hr e he hep]
      exact he
    · rw [hs.seen r hr seen hseen]
      exact hle

/-! ## A sequence of executions -/

/-- Each execution finds the rows its predecessor left. -/
def Follow (n : Nat) : (PartitionId → Option Row) → List Execution → Prop
  | _, [] => True
  | rows, x :: xs => x.rows = rows ∧ x.Ran n ∧ Follow n x.final.rows xs

variable {xs : List Execution}

/-- An edge that is new to a later execution is behind the count stored now. -/
theorem Follow.lt_of_includes (h : Follow n rows xs) (hu : ∀ x ∈ xs, x.Undisturbed n) (hn : 2 < n)
    (hi : i < n) (hrow : rows (decimal i) = some row) (hx : x ∈ xs)
    (hk : Includes x.final (decimal i) k) : row.centralEdges < k := by
  induction xs generalizing rows row with
  | nil => cases hx
  | cons y ys ih =>
    obtain ⟨rfl, hran, hrest⟩ := h
    have huy := hu y mem_cons_self
    rcases mem_cons.1 hx with rfl | hx
    · exact ((hran.includes_iff huy hn hi hrow).1 hk).1
    · obtain ⟨row', hrow', hcentral⟩ := hran.rows_after huy hi
      have hlt := ih hrest (fun z hz => hu z (mem_cons_of_mem _ hz)) hrow' hx
      have hle := hran.grown i hi row hrow
      omega

theorem Follow.existsUnique (h : Follow n rows xs) (hu : ∀ x ∈ xs, x.Undisturbed n) (hn : 2 < n)
    (hi : i < n) (hrow : rows (decimal i) = some row) (hlt : row.centralEdges < k)
    (hlast : ∃ x, xs.getLast? = some x ∧ k ≤ (x.files (decimal i)).centralCount) :
    ∃! e : Nat, ∃ x : Execution, xs[e]? = some x ∧ Includes x.final (decimal i) k := by
  induction xs generalizing rows row with
  | nil =>
    obtain ⟨x, hx, -⟩ := hlast
    cases hx
  | cons y ys ih =>
    obtain ⟨rfl, hran, hrest⟩ := h
    have huy := hu y mem_cons_self
    have hus : ∀ x ∈ ys, x.Undisturbed n := fun x hx => hu x (mem_cons_of_mem _ hx)
    obtain ⟨row', hrow', hcentral⟩ := hran.rows_after huy hi
    have hincludes := hran.includes_iff (k := k) huy hn hi hrow
    by_cases hk : k ≤ (y.files (decimal i)).centralCount
    · refine ⟨0, ⟨y, rfl, hincludes.2 ⟨hlt, hk⟩⟩, fun e ⟨x, hx, hinc⟩ => ?_⟩
      cases e with
      | zero => rfl
      | succ e =>
        have := hrest.lt_of_includes hus hn hi hrow' (mem_of_getElem? hx) hinc
        omega
    · have hys : ∃ x, ys.getLast? = some x ∧ k ≤ (x.files (decimal i)).centralCount := by
        obtain ⟨x, hx, hle⟩ := hlast
        refine ⟨x, ?_, hle⟩
        by_cases hnil : ys = []
        · subst hnil
          cases hx
          exact absurd hle hk
        · rwa [getLast?_cons_of_ne_nil hnil] at hx
      obtain ⟨e, he, hunique⟩ := ih hrest hus hrow' (by omega) hys
      refine ⟨e + 1, he, fun e' ⟨x, hx, hinc⟩ => ?_⟩
      cases e' with
      | zero =>
        cases hx
        exact absurd (hincludes.1 hinc).2 hk
      | succ e' => rw [hunique e' ⟨x, hx, hinc⟩]

end Counted

/-- **The cut.** In any run of an execution all counts that are sent are those stored when it began
exactly if every read is fresh. In a sequence of executions whose reads are all fresh, in which no
thread fails and no central edge arrives during an execution, every central edge behind the count
stored at first and present at the last execution is new to exactly one execution. -/
theorem central_cut {n : Nat} (hn : 2 < n) :
    (∀ rows files ls s, run (step n) ls (start n rows files) = some s →
      (SendsStored rows s ↔ Meets (step n) (Fresh rows) ls (start n rows files))) ∧
    ∀ rows (xs : List Execution), Follow n rows xs → (∀ x ∈ xs, x.Undisturbed n) →
      ∀ i < n, ∀ row k, rows (decimal i) = some row → row.centralEdges < k →
        (∃ x, xs.getLast? = some x ∧ k ≤ (x.files (decimal i)).centralCount) →
        ∃! e : Nat, ∃ x : Execution, xs[e]? = some x ∧ Includes x.final (decimal i) k :=
  ⟨fun _ _ _ _ hrun => sent_iff_fresh hrun,
    fun _ _ h hu _ hi _ _ hrow hlt hlast => h.existsUnique hu hn hi hrow hlt hlast⟩

/-! ## Three partitions -/

theorem plan_three : plan 3 = [[decimal 0, decimal 1, decimal 2]] := by
  have hids : workerIds 3 = [decimal 0, decimal 1, decimal 2] :=
    mergeSort_of_pairwise (by decide)
  have hmasks : downFrom (bitmask 3) = [bitmask 3] := downFrom_of_none (by decide)
  have hcombinations : getWorkerCombination 3 = [[decimal 0, decimal 1, decimal 2]] := by
    rw [getWorkerCombination, hids, getCombinations_eq]
    exact congrArg (map _) hmasks
  rw [plan, hcombinations]
  decide

/-- `execute` begins with three partitions, each with a row of zeros and one relation of each kind in
its files. -/
def threeStart : State where
  rows := fun _ => some ⟨0, 0, 0⟩
  files := fun _ => ⟨1, 1⟩
  workers := fun _ => .idle
  toRead := [[decimal 0, decimal 1, decimal 2]]
  reading := []
  sent := []

theorem start_three : start 3 (fun _ => some ⟨0, 0, 0⟩) (fun _ => ⟨1, 1⟩) = threeStart := by
  rw [start, plan_three]
  rfl

/-- The thread of a partition from its start to its end. -/
def whole (i : Nat) : List Label :=
  [.retrieveLocalValues i, .answer i 0, .saveLocalValues i]

/-- The counts are read before a row is stored. -/
def readFirst : List Label :=
  [.read, .read, .read, .read, .aggregate 0] ++ whole 0 ++ whole 1 ++ whole 2

theorem central_cut_readFirst :
    ∃ s, run (step 3) readFirst (start 3 (fun _ => some ⟨0, 0, 0⟩) fun _ => ⟨1, 1⟩) = some s ∧
      ∃! e : Nat, ∃ x : Execution,
        [(⟨fun _ => some ⟨0, 0, 0⟩, fun _ => ⟨1, 1⟩, readFirst, s⟩ : Execution)][e]? = some x ∧
          Includes x.final (decimal 0) 1 := by
  obtain ⟨s, hrun, htoRead, hreading, hworkers, hseen, hcounts⟩ :
      ∃ s ∈ run (step 3) readFirst threeStart, s.toRead = [] ∧ s.reading = [] ∧
        (∀ i : Nat, i < 3 → s.workers i = .saved ⟨1, 1, 0⟩) ∧ (∀ r ∈ s.sent, r.seen.isSome) ∧
        ∀ counts ∈ s.sent.map Request.counts, ∀ e ∈ counts, e.2 = some 0 := by
    decide +kernel
  rw [← start_three] at hrun
  obtain ⟨hsent, hcut⟩ := central_cut (n := 3) (by decide)
  have hstored : SendsStored (fun _ => some ⟨0, 0, 0⟩) s :=
    ⟨hcounts, fun e he => by rw [hreading] at he; cases he⟩
  have hran : Execution.Ran 3 ⟨fun _ => some ⟨0, 0, 0⟩, fun _ => ⟨1, 1⟩, readFirst, s⟩ := by
    refine ⟨hrun, ⟨htoRead, fun i hi => .inr ⟨_, hworkers i hi⟩, hseen⟩, ?_⟩
    rintro i - row hrow
    cases hrow
    exact Int.zero_le_ofNat 1
  have hfollow : Follow 3 (fun _ => some ⟨0, 0, 0⟩)
      [⟨fun _ => some ⟨0, 0, 0⟩, fun _ => ⟨1, 1⟩, readFirst, s⟩] := ⟨rfl, hran, trivial⟩
  refine ⟨s, hrun, hcut _ _ hfollow ?_ 0 (by decide) ⟨0, 0, 0⟩ 1 rfl Int.zero_lt_one
    ⟨_, rfl, Int.le_refl 1⟩⟩
  intro x hx
  cases mem_singleton.1 hx
  refine ⟨(hsent _ _ _ _ hrun).1 hstored, fun l hl => ⟨?_, ?_⟩⟩ <;>
    · rintro i rfl
      simp [readFirst, whole] at hl

/-- The thread of partition 0 stores its row before the main thread reads it: of the one new central
edge of partition 0 the aggregator is told that it is not new. -/
theorem sent_after_save :
    (run (step 3) (whole 0 ++ [.read, .read, .read, .read, .aggregate 0] ++ whole 1 ++ whole 2)
        (start 3 (fun _ => some ⟨0, 0, 0⟩) fun _ => ⟨1, 1⟩)).map
      (fun s => s.sent.map Request.counts) =
    some [[(decimal 0, some 1), (decimal 1, some 0), (decimal 2, some 0)]] := by
  rw [start_three]
  decide +kernel

end JasmineGraph.Executor.DynamicCentralCount
