import JasmineGraph.NativeStore.NodeManager

/-!
# Opening and closing a store

The constructor of `NodeManager` and its `close`. What is on disk between two processes is a
`Disk`: the block files and the node index file. A process that ends without `close` leaves what
its streams have written out (`Store.disk`).

* In append mode (`FILE_MODE`) the constructor reads the node index from its file and takes the
  number of records as `nextNodeIndex`. In any other mode it truncates the block files, and only
  those: the index file stays as it is.
* In both modes the counters of the relation and property files come from their sizes, the first
  block of each staying unused.
* `close` rewrites the index file from the map, in the order in which the `unordered_map` is
  iterated (`KeyOrder`), and flushes four of the seven streams.

The size of the index file is an `int`. From `2 ^ 31` bytes on it is negative, and the loop over the
records, whose bound is unsigned, runs for more than `2 ^ 60` failing reads: an outcome left open
here.

The edge index has no entries anywhere in the program, so neither its map nor its file is modelled.
-/

namespace JasmineGraph.NativeStore

open Bytes

/-- The files of a partition. -/
structure Disk where
  files : DB → ByteFile
  index : ByteString

/-- No file holds anything. -/
def Disk.empty : Disk := ⟨fun _ => ByteFile.empty, []⟩

/-- What the end of the process leaves on disk. -/
def Store.disk (s : Store) : Disk := ⟨fun d => (s.streams d).disk, s.mem.indexDB⟩

/-- `GraphConfig::openMode`: `FILE_MODE`, or any other text. -/
inductive OpenMode
  | append
  | truncate
deriving DecidableEq

def DB.blockSize : DB → Nat
  | .nodes => NodeBlock.blockSize
  | .relations k => k.blockSize
  | .links k => k.blockSize

namespace NodeManager

/-- The next free block of a file of the given size; block 0 is never used. -/
def nextIndex (size blockSize : Nat) : Nat :=
  u32 (if size / blockSize = 0 then 1 else size / blockSize)

def indexRecord (keySize : Nat) (index : ByteString) (i : Nat) : ByteString × Nat :=
  let record := index.drop (i * (keySize + 4))
  (record.take keySize, ofLe32 ((record.drop keySize).take 4))

/-- The loop of `readNodeIndex` over `n` records, from record `i` on. A later record of a key
replaces an earlier one. -/
def readRecords (keySize : Nat) (index : ByteString) :
    Nat → Nat → Std.TreeMap ByteString Nat → Option (Std.TreeMap ByteString Nat)
  | _, 0, nodeIndex => some nodeIndex
  | i, n + 1, nodeIndex => do
    let (nodeIDC, nodeIndexId) := indexRecord keySize index i
    let key ← cstring nodeIDC
    readRecords keySize index (i + 1) n (nodeIndex.insert key nodeIndexId)

def readNodeIndex (keySize : Nat) (index : ByteString) :
    Option (Std.TreeMap ByteString Nat × Nat) :=
  let iSize := toInt32 index.length
  if iSize < 0 then none
  else do
    let count := iSize.toNat / (keySize + 4)
    return (← readRecords keySize index 0 count ∅, u32 count)

/-- The store of a new `NodeManager`, with the index it starts with and the files as opened. -/
def opened (keySize : Nat) (rawType : RelationKind → Nat → Fin 100 → UInt8)
    (nodeIndex : Std.TreeMap ByteString Nat × Nat) (disk : Disk) : Store where
  mem := {
    nodeIndex := nodeIndex.1, nextNodeIndex := nodeIndex.2, nextEdgeIndex := 0
    nextRelationIndex := fun k => nextIndex (disk.files (.relations k)).size k.blockSize
    nextPropertyIndex := fun k => nextIndex (disk.files (.links k)).size k.blockSize
    indexKeySize := keySize
    indexDB := disk.index
    rawType }
  streams d := Stream.openFile (disk.files d)

/-- `NodeManager(gConfig)` in a mode other than `FILE_MODE`. -/
def openTruncate (keySize : Nat) (rawType : RelationKind → Nat → Fin 100 → UInt8) (disk : Disk) :
    Store := opened keySize rawType (∅, 0) { disk with files := fun _ => ByteFile.empty }

/-- `NodeManager(gConfig)` in `FILE_MODE`. -/
def openAppend (keySize : Nat) (rawType : RelationKind → Nat → Fin 100 → UInt8) (disk : Disk) :
    Option Store := do
  return opened keySize rawType (← readNodeIndex keySize disk.index) disk

def openStore (mode : OpenMode) (keySize : Nat) (rawType : RelationKind → Nat → Fin 100 → UInt8)
    (disk : Disk) : Option Store :=
  match mode with
  | .append => openAppend keySize rawType disk
  | .truncate => some (openTruncate keySize rawType disk)

/-- The records `persistNodeIndex` writes. A key too long for its buffer is left out; the others are
copied whole, NUL bytes included. -/
def persisted (keySize : Nat) (nodeIndex : Std.TreeMap ByteString Nat) (keys : List ByteString) :
    ByteString :=
  (keys.filter fun key => key.length < keySize).flatMap fun key =>
    pad keySize key ++ le32 (nodeIndex.getD key 0)

def persistNodeIndex (o : KeyOrder) (m : Memory) : Memory :=
  { m with indexDB := persisted m.indexKeySize m.nodeIndex (o.order m.nodeIndex.keys) }

def close (o : KeyOrder) : M Unit := do
  modifyMemory (persistNodeIndex o)
  flush (.links .property)
  flush .nodes
  flush (.relations .localRelation)
  flush (.relations .centralRelation)

end NodeManager

end JasmineGraph.NativeStore
