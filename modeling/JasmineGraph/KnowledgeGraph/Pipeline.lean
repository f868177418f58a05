import JasmineGraph.Bytes.Text
import JasmineGraph.KnowledgeGraph.ReaderLoss
import JasmineGraph.Schedule

/-!
# The threads of the extraction pipeline

`startStreamingFromBufferToWorkers` starts

* the reader, which pushes chunks and one end marker per worker into `dataBuffer`;
* for each of the first `chunksPerBatch` workers an extractor (`extractTuples`), which takes chunks,
  sends them to its worker and puts the tuples it answers into a tuple buffer of its own;
* for each of the `chunksPerBatch` tuple buffers a thread that takes tuples from it until it takes
  the end marker.

Buffers are by batch, extractors by worker: `lanes i` is a tuple buffer with its thread and, if there
is such a worker, its extractor.

An extractor leaves a broken connection in three ways. If the connection cannot be made it returns
(`Extractor.gone`, without an end marker). If the exchange fails before the first tuple it sets
`retry` and connects again; the chunk is forgotten, since nothing reads `retryChunk`. If it fails
later, the thread sets `retry` and takes the next chunk. `retry` is never reset, so an extractor that
has failed once connects again after its end marker.

`wait` is a guard: the standard allows spurious wake-ups, and every push and pop notifies all. A
`front()` of an empty queue is undefined; the model notes it in `tookEmpty` and lets the thread end.
The offsets `bytes_read_so_far` and `realtime_bytes_read_so_far` are as in `extractTuples`; the
reader of a local file declares a variable of the first name of its own, so that they start at 0 there.

A label names a thread and what it does next; `Label.succeeds` excludes the failing exchanges. What a
worker answers to a chunk is a parameter. The stop request and the metadata thread are left out.
-/

namespace JasmineGraph.KnowledgeGraph

open Bytes Schedule

/-- A byte of the file with its position. -/
abbrev PlacedByte := UInt8 × Nat

def endOfStreamMarker : List UInt8 := ascii "-1"

def masterBufferSize : Nat := 10000

def Chunk.bytes (c : Chunk PlacedByte) : List UInt8 := c.text.map Prod.fst

inductive ReaderAct where
  | push (waits : Bool) (c : Chunk PlacedByte)
  | pushMarkers
  | stopReading
deriving DecidableEq

/-- The input of a run: what the reader pushes, the number of workers and buffers, and what workers
answer. -/
structure Config where
  reader : Reader
  chunks : List (Chunk PlacedByte)
  leftover : Option (Chunk PlacedByte)
  markerId : Nat
  workers : Nat
  chunksPerBatch : Nat
  chunkSize : Nat
  startFromBytes : Nat
  answers : List UInt8 → List (List UInt8)
  answers_ne : ∀ text, ∀ tuple ∈ answers text, tuple ≠ endOfStreamMarker

namespace Config

variable (cfg : Config)

/-- All chunks of the run. -/
def data : List (Chunk PlacedByte) := cfg.chunks ++ cfg.leftover.toList

/-- What the reader does. Over HDFS it waits with the last chunk too, and stops reading before it
pushes the markers. -/
def acts : List ReaderAct :=
  match cfg.reader with
  | .hdfs => cfg.chunks.map (.push true) ++ cfg.leftover.toList.map (.push true) ++
      [.stopReading, .pushMarkers]
  | .localFile => cfg.chunks.map (.push true) ++ cfg.leftover.toList.map (.push false) ++
      [.pushMarkers, .stopReading]

/-- The first value of `bytes_read_so_far`. -/
def base : Nat :=
  match cfg.reader with
  | .hdfs => cfg.startFromBytes
  | .localFile => 0

end Config

/-! ## Lanes -/

inductive Extractor where
  | absent
  | connecting
  | waiting
  | sending (c : Chunk PlacedByte)
  | receiving (c : Chunk PlacedByte) (tuples : List (List UInt8)) (tupleCount : Nat)
  | adding (c : Chunk PlacedByte) (tuple : List UInt8) (tuples : List (List UInt8))
    (tupleCount : Nat)
  | ending
  | gone
deriving DecidableEq

/-- A tuple buffer with its extractor and its thread. `endMarkers` counts the end markers that were
put into the buffer. -/
structure Lane where
  extractor : Extractor
  retry : Bool
  buffer : List (List UInt8)
  running : Bool
  endMarkers : Nat

/-- What an extractor or a tuple thread does without the other lanes. -/
inductive LaneAction where
  | connect (ok : Bool)
  | send (ok : Bool)
  | receive (ok : Bool)
  | add
  | close
  | get
deriving DecidableEq

def LaneAction.succeeds : LaneAction → Bool
  | .connect ok | .send ok | .receive ok => ok
  | _ => true

def laneStep (cfg : Config) : LaneAction → Lane → Option Lane
  | .connect ok, lane =>
    match lane.extractor with
    | .connecting => some { lane with extractor := if ok then .waiting else .gone }
    | _ => none
  | .send ok, lane =>
    match lane.extractor with
    | .sending c =>
      if ok then some { lane with extractor := .receiving c (cfg.answers c.bytes) 0 }
      else some { lane with extractor := .connecting, retry := true }
    | _ => none
  | .receive ok, lane =>
    match lane.extractor with
    | .receiving c tuples tupleCount =>
      if ok then
        match tuples with
        | [] => none
        | tuple :: tuples => some { lane with extractor := .adding c tuple tuples (tupleCount + 1) }
      -- only the loop over the tuples is left
      else some { lane with extractor := .waiting, retry := true }
    | _ => none
  | .add, lane =>
    match lane.extractor with
    | .adding c tuple tuples tupleCount =>
      if lane.buffer.length < masterBufferSize then
        some { lane with
          extractor := .receiving c tuples tupleCount
          buffer := lane.buffer ++ [tuple] }
      else none
    | _ => none
  | .close, lane =>
    match lane.extractor with
    | .ending =>
      if lane.buffer.length < masterBufferSize then
        some { lane with
          extractor := if lane.retry then .connecting else .gone
          buffer := lane.buffer ++ [endOfStreamMarker]
          endMarkers := lane.endMarkers + 1 }
      else none
    | _ => none
  | .get, lane =>
    match lane.running, lane.buffer with
    | true, line :: buffer =>
      some { lane with buffer := buffer, running := line ≠ endOfStreamMarker }
    | _, _ => none

/-- What the receipt of a tuple adds to the real-time offset: a fifth of the chunk size with every
hundredth tuple of a chunk. -/
def bump (chunkSize : Nat) : LaneAction → Lane → Nat
  | .receive true, lane =>
    match lane.extractor with
    | .receiving _ (_ :: _) tupleCount => if (tupleCount + 1) % 100 = 0 then chunkSize / 5 else 0
    | _ => 0
  | _, _ => 0

/-! ## The pipeline -/

structure State (n : Nat) where
  acts : List ReaderAct
  isReading : Bool
  dataBuffer : List (Item PlacedByte)
  lanes : Fin n → Lane
  bytesReadSoFar : Nat
  realtimeBytesReadSoFar : Nat
  completed : List (Chunk PlacedByte)
  tookEmpty : Bool

inductive Label (n : Nat) where
  | read
  | take (i : Fin n)
  | complete (i : Fin n)
  | lane (i : Fin n) (a : LaneAction)
deriving DecidableEq

def read (cfg : Config) {n : Nat} (s : State n) : Option (State n) :=
  match s.acts with
  | [] => none
  | .push waits c :: acts =>
    if waits = true ∧ cfg.workers ≤ s.dataBuffer.length ∧ s.isReading = true then none
    else some { s with acts := acts, dataBuffer := s.dataBuffer ++ [.chunk c] }
  | .pushMarkers :: acts => some { s with
      acts := acts
      dataBuffer := s.dataBuffer ++ List.replicate cfg.workers (.endOfStream cfg.markerId 0) }
  | .stopReading :: acts => some { s with acts := acts, isReading := false }

def Extractor.ofItem : Item PlacedByte → Extractor
  | .chunk c => if c.bytes = endOfStreamMarker then .ending else .sending c
  | .endOfStream _ _ => .ending

/-- An extractor takes the front of `dataBuffer`. -/
def take {n : Nat} (i : Fin n) (s : State n) : Option (State n) :=
  match (s.lanes i).extractor with
  | .waiting =>
    match s.dataBuffer with
    | item :: dataBuffer => some { s with
        dataBuffer := dataBuffer
        lanes := Function.update s.lanes i { s.lanes i with extractor := .ofItem item } }
    | [] =>
      if s.isReading then none
      else some { s with
        tookEmpty := true
        lanes := Function.update s.lanes i { s.lanes i with extractor := .gone } }
  | _ => none

/-- The worker has sent its end marker for the chunk. -/
def complete {n : Nat} (i : Fin n) (s : State n) : Option (State n) :=
  match (s.lanes i).extractor with
  | .receiving c [] _ => some { s with
      lanes := Function.update s.lanes i { s.lanes i with extractor := .waiting }
      bytesReadSoFar := s.bytesReadSoFar + c.chunkSize
      realtimeBytesReadSoFar := s.bytesReadSoFar + c.chunkSize
      completed := s.completed ++ [c] }
  | _ => none

def step (cfg : Config) {n : Nat} : Label n → State n → Option (State n)
  | .read, s => read cfg s
  | .take i, s => take i s
  | .complete i, s => complete i s
  | .lane i a, s => (laneStep cfg a (s.lanes i)).map fun lane => { s with
      lanes := Function.update s.lanes i lane
      realtimeBytesReadSoFar := s.realtimeBytesReadSoFar + bump cfg.chunkSize a (s.lanes i) }

/-- The state when all threads have been started. -/
def start (cfg : Config) : State cfg.chunksPerBatch where
  acts := cfg.acts
  isReading := true
  dataBuffer := []
  lanes i := ⟨if i.val < cfg.workers then .connecting else .absent, false, [], true, 0⟩
  bytesReadSoFar := cfg.base
  realtimeBytesReadSoFar := cfg.base
  completed := []
  tookEmpty := false

def Label.succeeds {n : Nat} : Label n → Bool
  | .lane _ a => a.succeeds
  | _ => true

end JasmineGraph.KnowledgeGraph
