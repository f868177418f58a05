import JasmineGraph.Cypher.Json

/-!
# Work chunks of a parallel scan

`IntraPartitionParallelExecutor` cuts the items of a scan into chunks, gives each chunk to a thread
of a pool and returns the results in the order of the chunks. An exception of a chunk is passed on
when its result is asked for, before any result is used.

`OperatorExecutor`'s `tryProcessInParallel` filters a batch of rows this way. Its worker takes the
chunks to be numbered from one.
-/

namespace JasmineGraph.Cypher

open List

/-- `WorkChunk`: both indices are inclusive. -/
structure WorkChunk where
  startIndex : Nat
  endIndex : Nat
  deriving DecidableEq, Repr

namespace WorkChunk

def indices (chunk : WorkChunk) : List Nat :=
  range' chunk.startIndex (chunk.endIndex + 1 - chunk.startIndex)

end WorkChunk

def calculateOptimalChunkSize (totalItems workers : Nat) : Nat :=
  max 1000 (min 100000 (totalItems / (workers * 3)))

def shouldUseParallelProcessing (dataSize workerCount : Nat) : Prop :=
  1000 < dataSize ∧ 1 < workerCount

instance (dataSize workerCount : Nat) :
    Decidable (shouldUseParallelProcessing dataSize workerCount) :=
  inferInstanceAs (Decidable (_ ∧ _))

/-- The loop of `createWorkChunks`, for at most `n` turns. -/
def workChunksFrom (totalItems chunkSize : Nat) : Nat → Nat → List WorkChunk
  | 0, _ => []
  | n + 1, start =>
    if start < totalItems then
      ⟨start, min (start + chunkSize - 1) (totalItems - 1)⟩ ::
        workChunksFrom totalItems chunkSize n (start + chunkSize)
    else []

def createWorkChunks (totalItems chunkSize : Nat) : List WorkChunk :=
  workChunksFrom totalItems chunkSize totalItems 0

def processInParallel {β : Type} (workerCount totalItemCount : Nat) (processor : WorkChunk → β) :
    List β :=
  (createWorkChunks totalItemCount
    (calculateOptimalChunkSize totalItemCount workerCount)).map processor

theorem calculateOptimalChunkSize_pos (totalItems workers : Nat) :
    0 < calculateOptimalChunkSize totalItems workers := by
  unfold calculateOptimalChunkSize
  omega

theorem range'_chunk {start chunkSize totalItems : Nat} (hsize : 0 < chunkSize)
    (hstart : start < totalItems) :
    (WorkChunk.mk start (min (start + chunkSize - 1) (totalItems - 1))).indices ++
        range' (start + chunkSize) (totalItems - (start + chunkSize)) =
      range' start (totalItems - start) := by
  unfold WorkChunk.indices
  by_cases hlast : start + chunkSize ≤ totalItems
  · have hlen : min (start + chunkSize - 1) (totalItems - 1) + 1 - start = chunkSize := by omega
    have hsum : totalItems - start = chunkSize + (totalItems - (start + chunkSize)) := by omega
    rw [hlen, hsum, ← range'_append_1]
  · have hlen : min (start + chunkSize - 1) (totalItems - 1) + 1 - start = totalItems - start := by
      omega
    rw [hlen, Nat.sub_eq_zero_of_le (by omega : totalItems ≤ start + chunkSize), range'_zero,
      append_nil]

theorem indices_workChunksFrom {totalItems chunkSize n start : Nat} (hsize : 0 < chunkSize)
    (hn : totalItems ≤ start + n) :
    (workChunksFrom totalItems chunkSize n start).flatMap WorkChunk.indices =
      range' start (totalItems - start) := by
  induction n generalizing start with
  | zero =>
    rw [Nat.sub_eq_zero_of_le (by omega : totalItems ≤ start)]
    rfl
  | succ n ih =>
    rw [workChunksFrom]
    split
    · rename_i hstart
      rw [flatMap_cons, ih (by omega), range'_chunk hsize hstart]
    · rw [Nat.sub_eq_zero_of_le (by omega)]
      rfl

/-- **The chunks hold every index once, in order.** -/
theorem indices_createWorkChunks {totalItems chunkSize : Nat} (hsize : 0 < chunkSize) :
    (createWorkChunks totalItems chunkSize).flatMap WorkChunk.indices = range totalItems := by
  rw [createWorkChunks, indices_workChunksFrom hsize (by omega), range_eq_range']
  rfl

theorem endIndex_lt {totalItems chunkSize n start : Nat} {chunk : WorkChunk}
    (h : chunk ∈ workChunksFrom totalItems chunkSize n start) : chunk.endIndex < totalItems := by
  induction n generalizing start with
  | zero => exact absurd h not_mem_nil
  | succ n ih =>
    rw [workChunksFrom] at h
    split at h
    · rcases mem_cons.1 h with rfl | h
      · change min _ _ < totalItems
        omega
      · exact ih h
    · exact absurd h not_mem_nil

/-! ## The batches of a filter -/

section Batch

variable {α : Type} (evaluate : α → Bool) (batch : List α) (workerCount : Nat)

/-- `processSequentially`: the rows that are added to the buffer. -/
def processSequentially : List α := batch.filter evaluate

/-- `batch[i]`; `none` is a read outside the batch. -/
def rowAt : Int → Option α
  | .ofNat i => batch[i]?
  | .negSucc _ => none

/-- The worker of `tryProcessInParallel`. It counts the rows of a chunk from one. -/
def filterChunk (chunk : WorkChunk) : Option (List α) := do
  let count := min chunk.endIndex batch.length + 1 - chunk.startIndex
  let rows ← (range count).mapM fun i : Nat => rowAt batch (chunk.startIndex - 1 + i)
  some (rows.filter evaluate)

/-- `tryProcessInParallel`: the rows that are added to the buffer. -/
def tryProcessInParallel : Option (List α) := do
  let results ← (processInParallel workerCount batch.length (filterChunk evaluate batch)).mapM id
  some results.flatten

/-- **The parallel filter reads in front of its batch** as soon as the batch has a row. -/
theorem tryProcessInParallel_iff :
    tryProcessInParallel evaluate batch workerCount = some (processSequentially evaluate batch) ↔
      batch = [] := by
  cases batch with
  | nil => exact iff_of_true rfl rfl
  | cons row batch =>
    refine iff_of_false (fun h => ?_) (cons_ne_nil row batch)
    obtain ⟨results, hresults, -⟩ := Option.bind_eq_some_iff.1 h
    -- the first chunk starts at 0 and is not empty
    obtain ⟨rows, hrows, -⟩ := Option.bind_eq_some_iff.1 hresults
    obtain ⟨rows', hread, -⟩ := Option.bind_eq_some_iff.1 hrows
    rw [Nat.sub_zero, range_succ_eq_map, mapM_cons] at hread
    cases hread

end Batch

/-- One row that passes. -/
theorem tryProcessInParallel_one : tryProcessInParallel (fun _ => true) [0] 1 = none ∧
    processSequentially (fun _ => true) [0] = [0] := by
  decide +kernel

end JasmineGraph.Cypher
