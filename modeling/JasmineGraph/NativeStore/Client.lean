import JasmineGraph.NativeStore.Image
import JasmineGraph.NativeStore.Open

/-!
# A process that uses a store

The calls of a process on its store, in any order: nodes and edges are added, node objects fetched,
properties added to node and relation objects it holds, and the store is closed and opened again in
append mode. Objects are kept in lists and named by their position; they outlive a reopening, so a
call may go by an object as stale as can be.

`Call.run` is one call, `Client.run` a sequence. `Meets` collects what a sequence needs so that no
call leaves the range of the 32-bit addresses or runs into undefined behaviour of its own: each
condition is on the arguments of a call and the state before it.
-/

namespace JasmineGraph.NativeStore

open Bytes NodeManager LinkKind

abbrev ValueBuffer := { value : ByteString // value.length = valueSize }

/-- A call on a store or on an object; objects are named by their position. -/
inductive Call
  | addNode (nodeId : ByteString)
  | get (nodeId : ByteString)
  | addEdge (k : RelationKind) (edge : ByteString × ByteString)
  | addProperty (node : Nat) (name : ByteString) (value : ValueBuffer)
  | addMetaProperty (node : Nat) (name : ByteString) (value : ValueBuffer)
  | addRelationProperty (k : RelationKind) (relation : Nat) (name : ByteString)
      (value : ValueBuffer)
  | addRelationMetaProperty (relation : Nat) (name : ByteString) (value : ValueBuffer)
  | reopen (o : KeyOrder) (rawType : RelationKind → Nat → Fin 100 → UInt8)

/-- A process: its store and the objects it holds. -/
structure Client where
  store : Store
  nodes : List NodeBlock
  relations : List (RelationKind × RelationBlock)

/-- A process that has just opened an empty store. -/
def Client.start (keySize : Nat) (rawType : RelationKind → Nat → Fin 100 → UInt8) (disk : Disk) :
    Client := ⟨openTruncate keySize rawType disk, [], []⟩

namespace Call

/-- A property call on the node object at position `i`. -/
def onNode (c : Client) (i : Nat) (f : NodeBlock → M NodeBlock) : Option Client := do
  let node ← c.nodes[i]?
  let (node, store) ← f node c.store
  return { c with store, nodes := c.nodes.set i node }

/-- A property call on the relation object at position `i`. -/
def onRelation (c : Client) (i : Nat) (f : RelationBlock → M RelationBlock) : Option Client := do
  let (k, relation) ← c.relations[i]?
  let (relation, store) ← f relation c.store
  return { c with store, relations := c.relations.set i (k, relation) }

/-- One call; `none` is an outcome left open. -/
def run (c : Client) : Call → Option Client
  | addNode nodeId => do
    let (node, store) ← NodeManager.addNode nodeId c.store
    return { c with store, nodes := c.nodes ++ [node] }
  | get nodeId => do
    let (node, store) ← NodeManager.get nodeId c.store
    return { c with store, nodes := c.nodes ++ node.toList }
  | addEdge k edge => do
    let (relation, store) ← NodeManager.addEdge k edge c.store
    match relation with
    | none => return { c with store }
    | some relation => return {
        store
        nodes := c.nodes ++ relation.sourceBlock.toList ++ relation.destinationBlock.toList
        relations := c.relations ++ [(k, relation)] }
  | addProperty node name value => onNode c node (·.addProperty name value)
  | addMetaProperty node name value => onNode c node (·.addMetaProperty name value)
  | addRelationProperty k relation name value =>
    onRelation c relation (RelationBlock.addTo (RelationBlock.propField k) · name value)
  | addRelationMetaProperty relation name value =>
    onRelation c relation (·.addMetaProperty name value)
  | reopen o rawType => do
    let (_, closed) ← close o c.store
    let store ← openAppend closed.mem.indexKeySize rawType closed.disk
    return { c with store }

theorem run_reopen_eq {c : Client} {o : KeyOrder}
    {rawType : RelationKind → Nat → Fin 100 → UInt8} {closed store : Store}
    (hclose : close o c.store = some ((), closed))
    (hopen : openAppend closed.mem.indexKeySize rawType closed.disk = some store) :
    (reopen o rawType).run c = some ⟨store, c.nodes, c.relations⟩ := by
  have hbind : ∀ (x : Option (Unit × Store)) (f : Store → Option Store),
      x = some ((), closed) → f closed = some store → (do
        let (_, closed) ← x
        let store ← f closed
        return { c with store }) = some ⟨store, c.nodes, c.relations⟩ := by
    intro x f hx hf
    rw [hx]
    change (f closed).bind _ = _
    rw [hf]
    rfl
  exact hbind _ (fun s => openAppend s.mem.indexKeySize rawType s.disk) hclose hopen

def Allowed (c : Client) : Call → Prop
  | addNode nodeId => (stoul nodeId).isSome ∧ (cstr nodeId).length < c.store.mem.indexKeySize
  | get _ => True
  | addEdge _ edge =>
    ((stoul edge.1).isSome ∧ (cstr edge.1).length < c.store.mem.indexKeySize) ∧
      (stoul edge.2).isSome ∧ (cstr edge.2).length < c.store.mem.indexKeySize
  | addProperty node name _ => node < c.nodes.length ∧ (property.copyName name).isSome
  | addMetaProperty node name _ =>
    node < c.nodes.length ∧ (metaProperty.copyName name).isSome
  | addRelationProperty k relation _ value =>
    (c.relations[relation]?).map Prod.fst = some k ∧ 0 ∈ value.val
  | addRelationMetaProperty relation name _ =>
    (c.relations[relation]?).map Prod.fst = some .centralRelation ∧
      (metaEdgeProperty.copyName name).isSome
  | reopen _ _ => (∀ nodeId ∈ c.store.mem.nodeIndex.keys, 0 ∉ nodeId) ∧
    c.store.mem.nextNodeIndex * (c.store.mem.indexKeySize + 4) < 2 ^ 31

instance (c : Client) : (call : Call) → Decidable (call.Allowed c)
  | addNode _ => inferInstanceAs (Decidable (_ ∧ _))
  | get _ => isTrue trivial
  | addEdge _ _ => inferInstanceAs (Decidable ((_ ∧ _) ∧ _ ∧ _))
  | addProperty _ _ _ => inferInstanceAs (Decidable (_ ∧ _))
  | addMetaProperty _ _ _ => inferInstanceAs (Decidable (_ ∧ _))
  | addRelationProperty _ _ _ _ => inferInstanceAs (Decidable (_ ∧ _))
  | addRelationMetaProperty _ _ _ => inferInstanceAs (Decidable (_ ∧ _))
  | reopen _ _ => inferInstanceAs (Decidable (_ ∧ _))

end Call

/-- The next blocks of every file have addresses below `2 ^ 32`: two of the files that one call may
extend twice, one of the others. -/
structure Room (m : Memory) : Prop where
  nodes : (m.nextNodeIndex + 1) * NodeBlock.blockSize < 2 ^ 32
  localRelations : m.nextRelationIndex .localRelation * RelationKind.localRelation.blockSize < 2 ^ 32
  centralRelations :
    m.nextRelationIndex .centralRelation * RelationKind.centralRelation.blockSize < 2 ^ 32
  properties : (m.nextPropertyIndex .property + 1) * property.blockSize < 2 ^ 32
  metaProperties : m.nextPropertyIndex .metaProperty * metaProperty.blockSize < 2 ^ 32
  edgeProperties : m.nextPropertyIndex .edgeProperty * edgeProperty.blockSize < 2 ^ 32
  metaEdgeProperties : m.nextPropertyIndex .metaEdgeProperty * metaEdgeProperty.blockSize < 2 ^ 32

instance (m : Memory) : Decidable (Room m) :=
  decidable_of_iff (_ ∧ _ ∧ _ ∧ _ ∧ _ ∧ _ ∧ _)
    ⟨fun ⟨h1, h2, h3, h4, h5, h6, h7⟩ => ⟨h1, h2, h3, h4, h5, h6, h7⟩,
      fun ⟨h1, h2, h3, h4, h5, h6, h7⟩ => ⟨h1, h2, h3, h4, h5, h6, h7⟩⟩

namespace Client

/-- A sequence of calls. -/
def run (c : Client) : List Call → Option Client
  | [] => some c
  | call :: rest => do (← call.run c).run rest

/-- Every call of the sequence has what it needs in the state in which it is made. -/
def Meets (c : Client) : List Call → Prop
  | [] => True
  | call :: rest => Room c.store.mem ∧ call.Allowed c ∧
    match call.run c with
    | none => True
    | some c' => c'.Meets rest

theorem meets_cons {c : Client} {call : Call} {rest : List Call} :
    c.Meets (call :: rest) ↔ Room c.store.mem ∧ call.Allowed c ∧
      ∀ c', call.run c = some c' → c'.Meets rest := by
  rw [Meets]
  cases call.run c with
  | none => simp
  | some c' => simp

instance decidableMeets : (c : Client) → (calls : List Call) → Decidable (c.Meets calls)
  | _, [] => isTrue trivial
  | c, call :: rest =>
    have : Decidable (match call.run c with
        | none => True
        | some c' => c'.Meets rest) :=
      match call.run c with
      | none => isTrue trivial
      | some c' => decidableMeets c' rest
    inferInstanceAs (Decidable (_ ∧ _ ∧ _))

end Client

/-- No link of the file is left in the buffer. -/
def Store.Written (s : Store) (k : LinkKind) : Prop :=
  ∀ b < s.mem.nextPropertyIndex k, (s.streams (.links k)).disk.slice (k.nextField b) 4 =
    (s.streams (.links k)).view.slice (k.nextField b) 4

instance (s : Store) (k : LinkKind) : Decidable (s.Written k) :=
  inferInstanceAs (Decidable (∀ b < _, _))

/-- Where the next block of a file goes, as the code computes it. -/
def Memory.newBlockAddress (m : Memory) : DB → Nat
  | .nodes => u32 (m.nextNodeIndex * NodeBlock.blockSize)
  | .relations k => m.nextRelationIndex k * k.blockSize
  | .links k => m.newLinkAddress k

/-- The next block of every file goes behind all its blocks. -/
def Store.Fresh (s : Store) : Prop :=
  ∀ d, (s.streams d).view.size ≤ s.mem.newBlockAddress d

end JasmineGraph.NativeStore
