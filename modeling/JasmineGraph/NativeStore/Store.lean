import JasmineGraph.Machine
import JasmineGraph.Refine
import JasmineGraph.Bytes.Stream
import JasmineGraph.Bytes.Text

/-!
# The native store: files, counters and the program monad

The native store of a partition (`nativestore/`) keeps its graph in block files: one of node
blocks, two of relation blocks (local and central edges) and four of property links (properties of
nodes and of edges, and the meta variants of both). A static stream of its class stands for each
file, beside a counter of the next free block. `NodeManager` adds the node index, a map from node
ids to block numbers, and its file.

* `DB` names a block file; `Memory` holds the counters, the index map and the index file;
  `Store` adds the streams.
* `M` is the program monad. `none` is an outcome the C++ code leaves open: an exception that
  nothing catches, a read of an uninitialised or a write past the end of a buffer, a walk that does
  not end. A null pointer is an `Option` in the result.
* `writeAt`, `readAt` and `flush` are the accesses to a block file.

`rawType` stands for the bytes `addLocalRelation` and `addCentralRelation` write as relation type:
they write 100 bytes from the address of a `std::string` object, whatever lies there.
-/

namespace JasmineGraph.NativeStore

open Bytes

/-- `std::string`, or the bytes of a buffer. -/
abbrev ByteString := List UInt8

/-- Local relations, or the central ones that cross partitions. -/
inductive RelationKind
  | localRelation
  | centralRelation
deriving DecidableEq

/-- The classes of property links. -/
inductive LinkKind
  | property
  | metaProperty
  | edgeProperty
  | metaEdgeProperty
deriving DecidableEq

/-- The block files. -/
inductive DB
  | nodes
  | relations (k : RelationKind)
  | links (k : LinkKind)
deriving DecidableEq

/-- What the process holds besides the streams, and the node index file. -/
structure Memory where
  nodeIndex : Std.TreeMap ByteString Nat
  nextNodeIndex : Nat
  nextEdgeIndex : Nat
  nextRelationIndex : RelationKind → Nat
  nextPropertyIndex : LinkKind → Nat
  indexKeySize : Nat
  indexDB : ByteString
  rawType : RelationKind → Nat → Fin 100 → UInt8

structure Store where
  mem : Memory
  streams : DB → Stream

abbrev M := StateT Store Option

def undefined {α : Type} : M α := fun _ => none

def ofOption {α : Type} : Option α → M α
  | some a => pure a
  | none => undefined

def memory : M Memory := fun s => some (s.mem, s)

def modifyMemory (f : Memory → Memory) : M Unit := fun s =>
  some ((), { s with mem := f s.mem })

/-! ## Access to the block files -/

def viewSize (d : DB) : M Nat := fun s => some ((s.streams d).view.size, s)

def diskSize (d : DB) : M Nat := fun s => some ((s.streams d).disk.size, s)

def onStream {α : Type} (d : DB) (f : Stream → α × Stream) : M α := fun s =>
  some ((f (s.streams d)).1, { s with streams := Function.update s.streams d (f (s.streams d)).2 })

/-- Seek to `p` and write adjacent fields; whether the stream is good afterwards. -/
def writeAt (d : DB) (p : Nat) (fields : List ByteString) : M Bool :=
  onStream d fun t => ((t.writeAt p fields).good, t.writeAt p fields)

def writeHere (d : DB) (bs : ByteString) : M Bool :=
  onStream d fun t => ((t.write bs).good, t.write bs)

def seek (d : DB) (p : Nat) : M Unit := onStream d fun t => ((), t.seek p)

def flush (d : DB) : M Unit := onStream d fun t => ((), t.flush)

/-- Seek to `p` and read adjacent fields; `none` when a read fails. -/
def readAt (d : DB) (p : Nat) (widths : List Nat) : M (Option (List ByteString)) :=
  onStream d fun t => t.readAt p widths

/-! ## Buffers -/

def pad (n : Nat) (bs : ByteString) : ByteString := bs ++ List.replicate (n - bs.length) 0

/-- `strcpy` into a zeroed `char[n]`; `none` past the end of the buffer. -/
def strcpy (n : Nat) (src : ByteString) : Option ByteString :=
  if (cstr src).length < n then some (pad n (cstr src)) else none

def strncpy (n : Nat) (src : ByteString) : ByteString := pad n ((cstr src).take (n - 1))

theorem length_pad {n : Nat} {bs : ByteString} (h : bs.length ≤ n) : (pad n bs).length = n := by
  simp only [pad, List.length_append, List.length_replicate]
  omega

theorem cstr_pad {n : Nat} {bs : ByteString} (h : bs.length < n) (h0 : 0 ∉ bs) :
    cstr (pad n bs) = bs := by
  obtain ⟨k, hk⟩ : ∃ k, n - bs.length = k + 1 := ⟨n - bs.length - 1, by omega⟩
  rw [pad, hk]
  exact cstr_append_zero h0 _

end JasmineGraph.NativeStore
