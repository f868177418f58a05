import JasmineGraph.NativeStore.Chains
import JasmineGraph.Cypher.Operator
import JasmineGraph.Cypher.RelationshipScan

/-!
# Expanding a row along the relations of a node

Model of `OperatorExecutor::ExpandAll`. For a row whose source node belongs to the partition the
operator walks the list of the node's local relations and then that of its central relations, and
writes the row again for every relation that passes its tests, with the relation and the other node
added.

* `LinkedStore` is the store as the walk reads it: nodes by id, relation blocks by address, with the
  links of both ends. `PartitionStore` adds what holds of every store: the links of a node run through
  the relations that it is an end of, each once, and the number in a relation block tells which end it
  is read from.
* The walk is written with fuel, the number of blocks that it may read. It has no result if that is
  not enough.
* The row is changed in place, so a row holds what the one before it has left.
* `Expanded` keeps with a row the relation that it was written for.
* The operator reads the direction of the plan and does not use it. The type that it compares is the
  property `relationship` of a relation, not its type.
-/

namespace JasmineGraph.Cypher

open JasmineGraph.Bytes List Option
open JasmineGraph.NativeStore (RelationKind)

/-! ## The store -/

/-- A relation block as the walk reads it. -/
structure LinkedRelation where
  sourceId : Nat
  source : Nat
  destination : Nat
  sourceNext : Nat
  destinationNext : Nat
  record : RelationRecord

/-- A node block as the walk reads it: its id, its address and the addresses of its first relations. -/
structure LinkedNode where
  id : Text
  addr : Nat
  head : RelationKind → Nat

/-- The nodes and the relations of a store; `none` is the null pointer. -/
structure LinkedStore where
  node : Text → Option LinkedNode
  relation : RelationKind → Nat → Option LinkedRelation

namespace LinkedStore

/-- Following the links of the node `n` from an address: the addresses of the relations read. -/
inductive Follows (s : LinkedStore) (k : RelationKind) (n : LinkedNode) : Nat → List Nat → Prop
  | stop {a : Nat} (h : s.relation k a = none) : Follows s k n a []
  | step {a : Nat} {r : LinkedRelation} {l : List Nat} (h : s.relation k a = some r)
      (hl : Follows s k n (if r.source = n.addr then r.sourceNext else r.destinationNext) l) :
      Follows s k n a (a :: l)

structure HasChain (s : LinkedStore) (k : RelationKind) (n : LinkedNode) (blocks : List Nat) :
    Prop where
  mem_iff : ∀ a r, s.relation k a = some r →
    (a ∈ blocks ↔ r.source = n.addr ∨ r.destination = n.addr)
  nodup : blocks.Nodup
  follows : s.Follows k n (n.head k) blocks

end LinkedStore

/-- A store with its lists of relations and canonical ids. -/
structure PartitionStore extends LinkedStore where
  partitionID : Text
  chains : ∀ id n, node id = some n → ∀ k, ∃ blocks, toLinkedStore.HasChain k n blocks
  canonical : ∀ id n, node id = some n → ∀ k a r, relation k a = some r →
    (decimal r.sourceId = id ↔ r.source = n.addr)

/-! ## The operator -/

/-- The members of the plan that `ExpandAll` reads. -/
structure ExpandPlan where
  sourceVariable : Text
  destVariable : Text
  relVariable : Text
  relType : Option Text
  direction : Option Direction

structure Expanded where
  kind : RelationKind
  addr : Nat
  row : JsonValue

section Expand

variable (s : LinkedStore) (isDirected : Bool) (plan : ExpandPlan)

def typeDiffers (relation : RelationRecord) : Bool :=
  let relType := plan.relType.getD []
  relType ≠ [] && (relationData relation).stringMember? (ascii "relationship") ≠ some relType

def extendRow (raw : JsonValue) (relation : RelationRecord) (destNode : NodeRecord) : JsonValue :=
  (raw.set plan.relVariable (relationData relation)).set plan.destVariable (nodeData destNode)

/-- The loop over the relations of a kind, from the one at an address; the rows, and the row object
that is left. -/
def expandFrom (k : RelationKind) (nodeId : Text) :
    Nat → Nat → JsonValue → Option (List Expanded × JsonValue)
  | fuel, a, rawObj =>
    match s.relation k a with
    | none => some ([], rawObj)
    | some relation =>
      match fuel with
      | 0 => none
      | fuel + 1 =>
        let isSource : Bool := decimal relation.sourceId = nodeId
        let next := if isSource then relation.sourceNext else relation.destinationNext
        if typeDiffers plan relation.record || (isDirected && !isSource) then
          expandFrom k nodeId fuel next rawObj
        else
          let destNode := if isSource then relation.record.destination else relation.record.source
          let row := extendRow plan rawObj relation.record destNode
          (expandFrom k nodeId fuel next row).map fun out => (⟨k, a, row⟩ :: out.1, out.2)

def expandNode (nodeId : Text) (fuel : Nat) (rawObj : JsonValue) : Option (List Expanded) :=
  match s.node nodeId with
  | none => some []
  | some node => do
    let (localRows, rawObj) ← expandFrom s isDirected plan .localRelation nodeId fuel
      (node.head .localRelation) rawObj
    let (centralRows, _) ← expandFrom s isDirected plan .centralRelation nodeId fuel
      (node.head .centralRelation) rawObj
    some (localRows ++ centralRows)

/-- One turn of the loop over the input. `remote` gives the rows for a node of another partition. -/
def expandRow (partitionID : Text) (remote : JsonValue → List JsonValue) (fuel : Nat)
    (rawObj : JsonValue) : Option (List JsonValue) := do
  let source ← rawObj.member? plan.sourceVariable
  let nodeId ← source.stringMember? (ascii "id")
  if source.stringMember? (ascii "partitionID") = some partitionID then
    (expandNode s isDirected plan nodeId fuel rawObj).map (·.map Expanded.row)
  else some (remote rawObj)

def expandAll (partitionID : Text) (remote : JsonValue → List JsonValue) (fuel : Nat)
    (rows : List JsonValue) : Option (List (Message JsonValue)) :=
  (rows.mapM (expandRow s isDirected plan partitionID remote fuel)).map fun out =>
    stream out.flatten

end Expand

/-! ## The walk -/

section Walk

variable {s : LinkedStore} {isDirected : Bool} {plan : ExpandPlan} {k : RelationKind}
  {n : LinkedNode} {raw raw' : JsonValue}

/-- Both rows give the same when a relation and a node are added. -/
def SameExtended (plan : ExpandPlan) (raw raw' : JsonValue) : Prop :=
  ∀ relation destNode, extendRow plan raw relation destNode = extendRow plan raw' relation destNode

def LinkedRelation.otherEnd (r : LinkedRelation) (n : LinkedNode) : NodeRecord :=
  if r.source = n.addr then r.record.destination else r.record.source

def Writes (isDirected : Bool) (plan : ExpandPlan) (n : LinkedNode) (r : LinkedRelation) : Prop :=
  typeDiffers plan r.record = false ∧ (isDirected = true → r.source = n.addr)

instance (isDirected : Bool) (plan : ExpandPlan) (n : LinkedNode) (r : LinkedRelation) :
    Decidable (Writes isDirected plan n r) :=
  inferInstanceAs (Decidable (_ ∧ _))

/-- The row that the walk from `n` writes for the relation at an address. -/
def expandedAt (s : LinkedStore) (isDirected : Bool) (plan : ExpandPlan) (k : RelationKind)
    (n : LinkedNode) (raw : JsonValue) (a : Nat) : Option Expanded :=
  (s.relation k a).bind fun r =>
    if Writes isDirected plan n r then some ⟨k, a, extendRow plan raw r.record (r.otherEnd n)⟩
    else none

theorem expandFrom_succ {a fuel : Nat} {r : LinkedRelation} {nodeId : Text}
    (hsome : s.relation k a = some r) (hsource : decimal r.sourceId = nodeId ↔ r.source = n.addr) :
    expandFrom s isDirected plan k nodeId (fuel + 1) a raw =
      if Writes isDirected plan n r then
        (expandFrom s isDirected plan k nodeId fuel
          (if r.source = n.addr then r.sourceNext else r.destinationNext)
          (extendRow plan raw r.record (r.otherEnd n))).map
            fun out => (⟨k, a, extendRow plan raw r.record (r.otherEnd n)⟩ :: out.1, out.2)
      else expandFrom s isDirected plan k nodeId fuel
        (if r.source = n.addr then r.sourceNext else r.destinationNext) raw := by
  rw [expandFrom, hsome]
  simp only [hsource, decide_eq_true_eq]
  by_cases hwrites : Writes isDirected plan n r
  · rw [if_pos hwrites, if_neg]
    · rfl
    · rw [Writes] at hwrites
      simpa using hwrites
  · rw [if_neg hwrites, if_pos]
    rw [Writes] at hwrites
    simpa [or_iff_not_imp_left] using hwrites

/-- **The walk along the list of a node** ends, and writes a row for every relation that passes. -/
theorem expandFrom_follows (isDirected : Bool) {a : Nat} {blocks : List Nat} {nodeId : Text}
    (hcanon : ∀ a r, s.relation k a = some r → (decimal r.sourceId = nodeId ↔ r.source = n.addr))
    (h : s.Follows k n a blocks) (hraw : SameExtended plan raw raw') :
    ∃ left, SameExtended plan raw left ∧ ∀ fuel, expandFrom s isDirected plan k nodeId fuel a raw' =
        if blocks.length ≤ fuel then
          some (blocks.filterMap (expandedAt s isDirected plan k n raw), left)
        else none := by
  induction h generalizing raw' with
  | stop hnone =>
    refine ⟨raw', hraw, fun fuel => ?_⟩
    rw [expandFrom, hnone]
    rfl
  | @step a r l hsome _ ih =>
    have hzero : expandFrom s isDirected plan k nodeId 0 a raw' = none := by
      rw [expandFrom, hsome]
    by_cases hwrites : Writes isDirected plan n r
    · have hrow : expandedAt s isDirected plan k n raw a =
          some ⟨k, a, extendRow plan raw' r.record (r.otherEnd n)⟩ := by
        rw [expandedAt, hsome, bind_some, if_pos hwrites, hraw]
      obtain ⟨left, hleft, hrest⟩ := @ih (extendRow plan raw' r.record (r.otherEnd n)) fun _ _ =>
        (hraw _ _).trans (JsonValue.set_again ..).symm
      refine ⟨left, hleft, fun fuel => ?_⟩
      cases fuel with
      | zero => rw [hzero, if_neg (by simp)]
      | succ fuel =>
        rw [expandFrom_succ hsome (hcanon a r hsome), if_pos hwrites, hrest,
          filterMap_cons_some hrow, length_cons]
        simp only [Nat.add_le_add_iff_right]
        split <;> rfl
    · have hrow : expandedAt s isDirected plan k n raw a = none := by
        rw [expandedAt, hsome, bind_some, if_neg hwrites]
      obtain ⟨left, hleft, hrest⟩ := ih hraw
      refine ⟨left, hleft, fun fuel => ?_⟩
      cases fuel with
      | zero => rw [hzero, if_neg (by simp)]
      | succ fuel =>
        rw [expandFrom_succ hsome (hcanon a r hsome), if_neg hwrites, hrest,
          filterMap_cons_none hrow, length_cons]
        simp only [Nat.add_le_add_iff_right]

end Walk

/-! ## The rows of a node -/

section Rows

variable {s : PartitionStore} {isDirected : Bool} {plan : ExpandPlan} {n : LinkedNode}
  {raw : JsonValue} {nodeId : Text}

/-- With enough fuel the operator writes the rows of the two lists. -/
theorem exists_expandNode (hn : s.node nodeId = some n) (isDirected : Bool) (plan : ExpandPlan)
    (raw : JsonValue) :
    ∃ (blocks : RelationKind → List Nat) (bound : Nat),
      (∀ k, s.toLinkedStore.HasChain k n (blocks k)) ∧
      ∀ fuel, expandNode s.toLinkedStore isDirected plan nodeId fuel raw =
        if bound ≤ fuel then
          some ((blocks .localRelation).filterMap
              (expandedAt s.toLinkedStore isDirected plan .localRelation n raw) ++
            (blocks .centralRelation).filterMap
              (expandedAt s.toLinkedStore isDirected plan .centralRelation n raw))
        else none := by
  choose blocks hblocks using s.chains nodeId n hn
  obtain ⟨left, hleft, hlocal⟩ := expandFrom_follows isDirected
    (s.canonical nodeId n hn .localRelation) (hblocks .localRelation).follows
    (fun _ _ => rfl : SameExtended plan raw raw)
  obtain ⟨_, -, hcentral⟩ := expandFrom_follows isDirected
    (s.canonical nodeId n hn .centralRelation) (hblocks .centralRelation).follows hleft
  refine ⟨blocks, max (blocks .localRelation).length (blocks .centralRelation).length, hblocks,
    fun fuel => ?_⟩
  rw [expandNode, hn]
  simp only [hlocal, max_le_iff]
  by_cases hl : (blocks .localRelation).length ≤ fuel
  · rw [if_pos hl, bind_eq_bind, bind_some, hcentral]
    by_cases hc : (blocks .centralRelation).length ≤ fuel
    · rw [if_pos hc, if_pos ⟨hl, hc⟩]
      rfl
    · rw [if_neg hc, if_neg fun h => hc h.2]
      rfl
  · rw [if_neg hl, if_neg fun h => hl h.1]
    rfl

/-- The relation has the type that the plan asks for. -/
def OfType (plan : ExpandPlan) (r : RelationRecord) : Prop := ∀ t ∈ plan.relType, r.relType = t

/-- The property `relationship` of the relation is the type that the plan asks for. -/
def HasRelationship (plan : ExpandPlan) (r : RelationRecord) : Prop :=
  ∀ t ∈ plan.relType, t = [] ∨ (relationData r).stringMember? (ascii "relationship") = some t

theorem typeDiffers_eq_false_iff (plan : ExpandPlan) (r : RelationRecord) :
    typeDiffers plan r = false ↔ HasRelationship plan r := by
  unfold typeDiffers HasRelationship
  cases plan.relType <;> simp [or_iff_not_imp_left]

def LinkedRelation.Directed (r : LinkedRelation) (n : LinkedNode) : Option Direction → Prop
  | some .right => r.source = n.addr
  | some .left => r.destination = n.addr
  | none => r.source = n.addr ∨ r.destination = n.addr

def LinkedRelation.Joins (r : LinkedRelation) (n : LinkedNode) : Prop :=
  r.source = n.addr ∨ r.destination = n.addr

theorem LinkedRelation.directed_iff (r : LinkedRelation) (d : Option Direction) :
    r.Directed n d ↔ if r.source = n.addr then d = some .left → r.destination = n.addr
      else r.destination = n.addr ∧ d ≠ some .right := by
  match d with
  | some .right => by_cases h : r.source = n.addr <;> simp [Directed]
  | some .left => by_cases h : r.source = n.addr <;> simp [Directed]
  | none => by_cases h : r.source = n.addr <;> simp [Directed, h]

/-- The source of the row is the node with an id, and it belongs to a partition. -/
structure RowAt (plan : ExpandPlan) (raw : JsonValue) (nodeId partitionID : Text) : Prop where
  source : ∃ source, raw.member? plan.sourceVariable = some source ∧
    source.stringMember? (ascii "id") = some nodeId ∧
    source.stringMember? (ascii "partitionID") = some partitionID

/-- The operator returns, in a directed graph, and writes one row for every relation of the type and
at the end that the plan asks for, with the node at the other end. -/
def ExpandsExactly (s : PartitionStore) (plan : ExpandPlan) (remote : JsonValue → List JsonValue)
    (raw : JsonValue) (nodeId : Text) (n : LinkedNode) : Prop :=
  ∃ fuel rows, expandNode s.toLinkedStore true plan nodeId fuel raw = some rows ∧
    expandRow s.toLinkedStore true plan s.partitionID remote fuel raw =
      some (rows.map Expanded.row) ∧
    (rows.map fun e => (e.kind, e.addr)).Nodup ∧
    ∀ k a row, ⟨k, a, row⟩ ∈ rows ↔ ∃ r, s.relation k a = some r ∧ OfType plan r.record ∧
      r.Directed n plan.direction ∧ row = extendRow plan raw r.record (r.otherEnd n)

theorem mem_filterMap_expandedAt {s : LinkedStore} {k k' : RelationKind} {blocks : List Nat} {a : Nat}
    {row : JsonValue} :
    ⟨k', a, row⟩ ∈ blocks.filterMap (expandedAt s isDirected plan k n raw) ↔
      k' = k ∧ a ∈ blocks ∧ ∃ r, s.relation k a = some r ∧ Writes isDirected plan n r ∧
        row = extendRow plan raw r.record (r.otherEnd n) := by
  rw [mem_filterMap]
  constructor
  · rintro ⟨b, hb, heq⟩
    obtain ⟨r, hr, heq⟩ := bind_eq_some_iff.1 heq
    split at heq
    · rename_i hwrites
      cases some.inj heq
      exact ⟨rfl, hb, r, hr, hwrites, rfl⟩
    · exact absurd heq nofun
  · rintro ⟨rfl, ha, r, hr, hwrites, rfl⟩
    exact ⟨a, ha, by rw [expandedAt, hr, bind_some, if_pos hwrites]⟩

theorem nodup_filterMap_expandedAt {s : LinkedStore} {k : RelationKind} {blocks : List Nat}
    (h : blocks.Nodup) :
    ((blocks.filterMap (expandedAt s isDirected plan k n raw)).map
      fun e => (e.kind, e.addr)).Nodup := by
  have hkey : ∀ a e, expandedAt s isDirected plan k n raw a = some e → e.addr = a := by
    intro a e he
    obtain ⟨r, -, heq⟩ := bind_eq_some_iff.1 he
    split at heq
    · rw [← some.inj heq]
    · exact absurd heq nofun
  rw [map_filterMap]
  refine List.Nodup.filterMap ?_ h
  intro a a' b hb hb'
  obtain ⟨e, he, rfl⟩ := map_eq_some_iff.1 hb
  obtain ⟨e', he', heq⟩ := map_eq_some_iff.1 hb'
  rw [← hkey a e he, ← hkey a' e' he']
  exact (Prod.ext_iff.1 heq).2.symm

theorem exists_rows (hn : s.node nodeId = some n) (isDirected : Bool) (plan : ExpandPlan)
    (raw : JsonValue) :
    ∃ (rows : List Expanded) (bound : Nat),
      (∀ fuel, expandNode s.toLinkedStore isDirected plan nodeId fuel raw =
        if bound ≤ fuel then some rows else none) ∧
      (rows.map fun e => (e.kind, e.addr)).Nodup ∧
      ∀ k a row, ⟨k, a, row⟩ ∈ rows ↔ ∃ r, s.relation k a = some r ∧ r.Joins n ∧
        Writes isDirected plan n r ∧ row = extendRow plan raw r.record (r.otherEnd n) := by
  obtain ⟨blocks, bound, hchain, hrun⟩ := exists_expandNode hn isDirected plan raw
  have hmem : ∀ k a row, (⟨k, a, row⟩ : Expanded) ∈ (blocks .localRelation).filterMap
          (expandedAt s.toLinkedStore isDirected plan .localRelation n raw) ++
        (blocks .centralRelation).filterMap
          (expandedAt s.toLinkedStore isDirected plan .centralRelation n raw) ↔
      a ∈ blocks k ∧ ∃ r, s.relation k a = some r ∧ Writes isDirected plan n r ∧
        row = extendRow plan raw r.record (r.otherEnd n) := by
    intro k a row
    rw [mem_append, mem_filterMap_expandedAt, mem_filterMap_expandedAt]
    cases k <;> simp
  refine ⟨_, bound, hrun, ?_, fun k a row => (hmem k a row).trans ?_⟩
  · rw [map_append]
    refine Nodup.append (nodup_filterMap_expandedAt (hchain _).nodup)
      (nodup_filterMap_expandedAt (hchain _).nodup) ?_
    -- a key of one list has another kind than a key of the other
    intro key hlocal hcentral
    obtain ⟨e, he, rfl⟩ := List.mem_map.1 hlocal
    obtain ⟨e', he', heq⟩ := List.mem_map.1 hcentral
    rw [Prod.mk.injEq, (mem_filterMap_expandedAt.1 he).1, (mem_filterMap_expandedAt.1 he').1] at heq
    exact absurd heq.1 nofun
  · constructor
    · rintro ⟨ha, r, hr, hwrites, rfl⟩
      exact ⟨r, hr, ((hchain k).mem_iff a r hr).1 ha, hwrites, rfl⟩
    · rintro ⟨r, hr, hjoins, hwrites, rfl⟩
      exact ⟨((hchain k).mem_iff a r hr).2 hjoins, r, hr, hwrites, rfl⟩

/-- **When `ExpandAll` returns what the plan asks for**, in a directed graph: of the relations that
leave the node, exactly those with the type have it as their property `relationship`, and for the
direction `left` no relation to another node has it; and unless the direction is `right`, no relation
from another node has the type. -/
theorem expandsExactly_iff (s : PartitionStore) (plan : ExpandPlan)
    (remote : JsonValue → List JsonValue) (raw : JsonValue) (nodeId : Text) (n : LinkedNode)
    (hn : s.node nodeId = some n) (hrow : RowAt plan raw nodeId s.partitionID) :
    ExpandsExactly s plan remote raw nodeId n ↔ ∀ k a r, s.relation k a = some r →
        (r.source = n.addr → (HasRelationship plan r.record ↔
            OfType plan r.record ∧ (plan.direction = some .left → r.destination = n.addr))) ∧
        (r.destination = n.addr → r.source ≠ n.addr → plan.direction ≠ some .right →
          ¬OfType plan r.record) := by
  obtain ⟨rows, bound, hrun, hnodup, hmem⟩ := exists_rows hn true plan raw
  -- relation by relation, the rows that are written are those that are wanted
  have hexact : ExpandsExactly s plan remote raw nodeId n ↔ ∀ k a r, s.relation k a = some r →
      (r.Joins n ∧ Writes true plan n r ↔ OfType plan r.record ∧ r.Directed n plan.direction) := by
    constructor
    · rintro ⟨fuel, rows', hrows, -, -, hwanted⟩ k a r hr
      obtain rfl : rows = rows' := by
        rw [hrun] at hrows
        split at hrows
        · exact some.inj hrows
        · exact absurd hrows nofun
      have hiff := (hmem k a (extendRow plan raw r.record (r.otherEnd n))).symm.trans
        (hwanted k a _)
      simpa [hr] using hiff
    · intro hiff
      refine ⟨bound, rows, ?_, ?_, hnodup, fun k a row => (hmem k a row).trans ?_⟩
      · rw [hrun, if_pos le_rfl]
      · obtain ⟨source, hsource, hid, hpartition⟩ := hrow.source
        simp [expandRow, hsource, hid, hpartition, hrun]
      · refine exists_congr fun r => and_congr_right fun hr => ?_
        rw [← and_assoc, ← and_assoc, hiff k a r hr]
  rw [hexact]
  refine forall₄_congr fun k a r hr => ?_
  rw [Writes, typeDiffers_eq_false_iff, LinkedRelation.directed_iff]
  by_cases hsource : r.source = n.addr
  · simp [LinkedRelation.Joins, hsource]
  · rw [if_neg hsource]
    simp only [hsource, imp_false, not_true_eq_false, and_false, false_imp_iff, true_and]
    tauto

/-! ## The native store -/

section Native

open JasmineGraph.NativeStore (Store RelationBlock NodeBlock NodeManager.get IsChain)

/-- A native store as the walk reads it. The relation files have the blocks `1..count`. -/
def LinkedStore.ofStore (s : Store) (count : RelationKind → Nat)
    (record : RelationBlock → RelationRecord) : LinkedStore where
  node id := ((NodeManager.get id).run' s).join.map fun n => ⟨id, n.addr, n.relationRef⟩
  relation k a :=
    if a % k.blockSize = 0 ∧ a ≤ count k * k.blockSize then
      ((RelationBlock.getRelation k a).run' s).join.map fun r =>
        ⟨r.source.nodeId, r.source.address, r.destination.address, r.source.nextRelationId,
          r.destination.nextRelationId, record r⟩
    else none

variable {s : Store} {count : RelationKind → Nat} {record : RelationBlock → RelationRecord}
  {k : RelationKind} {n : NodeBlock} {a : Nat} {blocks : List Nat}

theorem relation_ofStore {r : RelationBlock} (hmod : a % k.blockSize = 0)
    (hle : a ≤ count k * k.blockSize)
    (hr : (RelationBlock.getRelation k a).run' s = some (some r)) :
    (LinkedStore.ofStore s count record).relation k a =
      some ⟨r.source.nodeId, r.source.address, r.destination.address, r.source.nextRelationId,
        r.destination.nextRelationId, record r⟩ := by
  rw [LinkedStore.ofStore]
  simp only [hmod, hle, hr]
  rfl

theorem relation_ofStore_zero : (LinkedStore.ofStore s count record).relation k 0 = none := by
  rfl

theorem follows_ofStore (id : Text)
    (hin : ∀ a ∈ blocks, ∃ b, 0 < b ∧ b ≤ count k ∧ a = b * k.blockSize)
    (h : NativeStore.Follows s k n.addr (·.nextRelationId) a blocks) :
    (LinkedStore.ofStore s count record).Follows k ⟨id, n.addr, n.relationRef⟩ a blocks := by
  induction h with
  | stop => exact .stop relation_ofStore_zero
  | @step a r l ha hr _ ih =>
    obtain ⟨b, -, hb, rfl⟩ := hin a mem_cons_self
    refine .step (relation_ofStore (Nat.mul_mod_left _ _) (Nat.mul_le_mul_right _ hb) hr) ?_
    have hrest := ih fun a' ha' => hin a' (mem_cons_of_mem _ ha')
    unfold RelationBlock.endAt at hrest
    split at hrest
    · rename_i hsource
      simpa [hsource] using hrest
    · rename_i hsource
      simpa [hsource] using hrest

/-- **The list of a node in a native store** is its list here. -/
theorem hasChain_of_isChain (id : Text) (h : IsChain s k (count k) n blocks) :
    (LinkedStore.ofStore s count record).HasChain k ⟨id, n.addr, n.relationRef⟩ blocks where
  mem_iff a r hr := by
    have hzero : a ≠ 0 := by
      rintro rfl
      exact absurd hr nofun
    have hrange : a % k.blockSize = 0 ∧ a ≤ count k * k.blockSize := by
      by_contra hnot
      rw [LinkedStore.ofStore] at hr
      simp only [hnot] at hr
      exact absurd hr nofun
    obtain ⟨b, rfl⟩ := Nat.dvd_of_mod_eq_zero hrange.1
    rw [Nat.mul_comm] at hr hzero hrange ⊢
    have hpos : 0 < k.blockSize := PartitionRelations.blockSize_pos k
    obtain ⟨block, hblock, hmem⟩ := h.mem_iff b (Nat.pos_of_ne_zero (left_ne_zero_of_mul hzero))
      (Nat.le_of_mul_le_mul_right hrange.2 hpos)
    rw [relation_ofStore hrange.1 hrange.2 hblock] at hr
    rw [← some.inj hr]
    exact hmem
  nodup := h.newestFirst.imp fun hlt => Nat.ne_of_gt hlt
  follows := follows_ofStore id h.inFile h.forward

end Native

/-! ## A store with one relation -/

def twoToOne : LinkedRelation where
  sourceId := 2
  source := 140
  destination := 0
  sourceNext := 0
  destinationNext := 0
  record := ⟨ascii "KNOWS", ascii "0", [(ascii "relationship", ascii "KNOWS")],
    ⟨ascii "0", ascii "2", [(ascii "id", ascii "2")]⟩,
    ⟨ascii "0", ascii "1", [(ascii "id", ascii "1")]⟩⟩

/-- The nodes `1` and `2`, with their first local relation. -/
def nodeOneOrTwo (id : Text) : Option LinkedNode :=
  if id = ascii "1" then some ⟨ascii "1", 0, fun k => if k = .localRelation then 152 else 0⟩
  else if id = ascii "2" then some ⟨ascii "2", 140, fun k => if k = .localRelation then 152 else 0⟩
  else none

theorem mem_nodeOneOrTwo {id : Text} {n : LinkedNode} (h : nodeOneOrTwo id = some n) :
    (id = ascii "1" ∧ n = ⟨ascii "1", 0, fun k => if k = .localRelation then 152 else 0⟩) ∨
      (id = ascii "2" ∧ n = ⟨ascii "2", 140, fun k => if k = .localRelation then 152 else 0⟩) := by
  unfold nodeOneOrTwo at h
  split at h
  · rename_i hid
    exact .inl ⟨hid, (some.inj h).symm⟩
  split at h
  · rename_i hid
    exact .inr ⟨hid, (some.inj h).symm⟩
  · exact absurd h nofun

theorem relation_oneRelation {k : RelationKind} {a : Nat} {r : LinkedRelation}
    (h : (if k = .localRelation ∧ a = 152 then some twoToOne else none) = some r) :
    a = 152 ∧ r = twoToOne := by
  split at h
  · rename_i hpos
    exact ⟨hpos.2, (some.inj h).symm⟩
  · exact absurd h nofun

/-- A partition with one local relation. -/
def oneRelation : PartitionStore where
  node := nodeOneOrTwo
  relation k a := if k = .localRelation ∧ a = 152 then some twoToOne else none
  partitionID := ascii "0"
  chains id n hn k := by
    have hend : n.addr = 0 ∨ n.addr = 140 := by
      rcases mem_nodeOneOrTwo hn with ⟨-, rfl⟩ | ⟨-, rfl⟩
      exacts [.inl rfl, .inr rfl]
    have hhead : n.head k = if k = .localRelation then 152 else 0 := by
      rcases mem_nodeOneOrTwo hn with ⟨-, rfl⟩ | ⟨-, rfl⟩ <;> rfl
    cases k with
    | localRelation =>
      refine ⟨[152], fun a r hr => ?_, nodup_singleton _, ?_⟩
      · obtain ⟨rfl, rfl⟩ := relation_oneRelation hr
        simpa [twoToOne, eq_comm, or_comm] using hend
      · rw [hhead]
        refine .step (r := twoToOne) rfl (.stop ?_)
        split <;> rfl
    | centralRelation =>
      refine ⟨[], fun a r hr => absurd hr nofun, nodup_nil, ?_⟩
      rw [hhead]
      exact .stop rfl
  canonical id n hn k a r hr := by
    obtain ⟨-, rfl⟩ := relation_oneRelation hr
    rcases mem_nodeOneOrTwo hn with ⟨rfl, rfl⟩ | ⟨rfl, rfl⟩ <;> decide

/-- A row for the node with an id. -/
def rowFor (id : Text) : JsonValue :=
  .object [(ascii "a", .object [(ascii "id", .string id), (ascii "partitionID", .string (ascii "0"))])]

/-- The plan of `(a)-[r:KNOWS]-(b)`, with an arrow or without. -/
def expandKnows (direction : Option Direction) : ExpandPlan :=
  ⟨ascii "a", ascii "b", ascii "r", some (ascii "KNOWS"), direction⟩

/-- `(a)-[r:KNOWS]->(b)` from node `2`. -/
theorem expandsExactly_right :
    ExpandsExactly oneRelation (expandKnows (some .right)) (fun _ => []) (rowFor (ascii "2"))
      (ascii "2") ⟨ascii "2", 140, fun k => if k = .localRelation then 152 else 0⟩ := by
  refine (expandsExactly_iff oneRelation (expandKnows (some .right)) (fun _ => [])
    (rowFor (ascii "2")) (ascii "2") _ rfl ⟨_, rfl, rfl, rfl⟩).2 fun k a r hr => ?_
  obtain ⟨-, rfl⟩ := relation_oneRelation hr
  refine ⟨fun _ => iff_of_true ?_ ⟨?_, nofun⟩, fun _ _ h => absurd rfl h⟩
  · rintro t ⟨⟩
    exact .inr (by decide +kernel)
  · rintro t ⟨⟩
    rfl

/-- `(a)<-[r:KNOWS]-(b)` from node `1`: no row is written for the relation from node `2`. -/
theorem not_expandsExactly_left :
    ¬ExpandsExactly oneRelation (expandKnows (some .left)) (fun _ => []) (rowFor (ascii "1"))
      (ascii "1") ⟨ascii "1", 0, fun k => if k = .localRelation then 152 else 0⟩ := by
  rintro ⟨fuel, rows, hrows, -, -, hwanted⟩
  obtain ⟨rows', bound, hrun, -, hmem⟩ := exists_rows
    (show oneRelation.node (ascii "1") = some _ from rfl) true (expandKnows (some .left))
    (rowFor (ascii "1"))
  obtain rfl : rows' = rows := by
    rw [hrun] at hrows
    split at hrows
    · exact some.inj hrows
    · exact absurd hrows nofun
  have hrow := (hwanted .localRelation 152 _).2
    ⟨twoToOne, rfl, (by rintro t ⟨⟩; rfl), rfl, rfl⟩
  obtain ⟨r, hr, -, hwrites, -⟩ := (hmem .localRelation 152 _).1 hrow
  obtain rfl : twoToOne = r := some.inj hr
  exact absurd (hwrites.2 rfl) (by decide)


end Rows

end JasmineGraph.Cypher
