import JasmineGraph.Cypher.Filter

/-!
# Path patterns and what the planner reads from them

Model of the pattern visitors of `ASTBuilder.cpp` and of the helpers of `QueryPlanner.cpp` that take
their nodes apart.

* `PathPattern ν` is the parse tree of a path of one hop or more over variables `ν`. In a query the
  variables are `Variable`s; `PathPattern Unit` is a pattern that only records which positions are
  named.
* `getRelationshipDetails` works on the pattern itself: for a list of types it clears the elements
  of the `RELATIONSHIP_TYPES` node, through the pointer `types` that is the node. The model returns
  the node as the call leaves it together with the details.
* Both helpers look at the first three elements. A relationship with variable, type, range and
  property map has four.
* Left out: parameters in the place of a property map, and the numbers of a range.
-/

namespace JasmineGraph.Cypher

open JasmineGraph.Bytes List

/-! ## Patterns -/

/-- A variable of a query: a text that the grammar takes for a variable. -/
structure Variable where
  text : Text
  ne_nil : text ≠ []
  ne_null : text ≠ ascii "null"

abbrev Entries := List (Text × NodeType × Text)

structure NodePattern (ν : Type) where
  var : Option ν
  labels : List Text
  properties : Option Entries

/-- `oC_RelationshipDetail`, the part in brackets. -/
structure RelationshipDetail (ν : Type) where
  var : Option ν
  types : List Text
  hasRange : Bool
  properties : Option Entries

/-- The arrow heads of a relationship: one of them, or none and both. -/
inductive Arrow
  | left | right | undirected
  deriving DecidableEq, Repr

structure RelationshipPattern (ν : Type) where
  arrow : Arrow
  detail : Option (RelationshipDetail ν)

/-- A path pattern with one hop or more. -/
structure PathPattern (ν : Type) where
  start : NodePattern ν
  first : RelationshipPattern ν × NodePattern ν
  rest : List (RelationshipPattern ν × NodePattern ν)

/-- One hop of a path: its place in the chain, its relationship and the nodes on its two sides. -/
structure Hop (ν : Type) where
  index : Nat
  left : NodePattern ν
  rel : RelationshipPattern ν
  right : NodePattern ν

section Hops

variable {ν : Type}

def hopsFrom (i : Nat) (left : NodePattern ν) :
    List (RelationshipPattern ν × NodePattern ν) → List (Hop ν)
  | [] => []
  | (rel, right) :: chain => ⟨i, left, rel, right⟩ :: hopsFrom (i + 1) right chain

def PathPattern.hops (p : PathPattern ν) : List (Hop ν) := hopsFrom 0 p.start (p.first :: p.rest)

theorem hopsFrom_length (i : Nat) (left : NodePattern ν)
    (chain : List (RelationshipPattern ν × NodePattern ν)) :
    (hopsFrom i left chain).length = chain.length := by
  induction chain generalizing i left with
  | nil => rfl
  | cons c chain ih => rw [hopsFrom, length_cons, ih, length_cons]

variable {h : Hop ν}

theorem getElem?_hopsFrom {i k : Nat} {left : NodePattern ν}
    {chain : List (RelationshipPattern ν × NodePattern ν)} :
    (hopsFrom i left chain)[k]? = some h → h.index = i + k := by
  induction chain generalizing i k left with
  | nil => exact nofun
  | cons c chain ih =>
    cases k with
    | zero =>
      intro hk
      obtain rfl := Option.some.inj hk
      rfl
    | succ k =>
      intro hk
      have := ih hk
      omega

variable {p : PathPattern ν}

theorem hops_length (p : PathPattern ν) : p.hops.length = p.rest.length + 1 := hopsFrom_length _ _ _

theorem mem_hops_iff : h ∈ p.hops ↔ p.hops[h.index]? = some h := by
  refine ⟨fun hh => ?_, mem_of_getElem?⟩
  obtain ⟨k, hk⟩ := mem_iff_getElem?.1 hh
  have hindex := getElem?_hopsFrom hk
  rw [Nat.zero_add] at hindex
  rw [hindex, hk]

theorem hop_ext {h h' : Hop ν} (hh : h ∈ p.hops) (hh' : h' ∈ p.hops)
    (hindex : h.index = h'.index) : h = h' := by
  rw [mem_hops_iff, hindex] at hh
  rw [mem_hops_iff, hh] at hh'
  exact Option.some.inj hh'

theorem index_lt_length (hh : h ∈ p.hops) : h.index < p.hops.length :=
  (List.getElem?_eq_some_iff.1 (mem_hops_iff.1 hh)).1

theorem exists_hop {i : Nat} (hi : i < p.hops.length) : ∃ h ∈ p.hops, h.index = i := by
  have hget := List.getElem?_eq_getElem hi
  have hindex := getElem?_hopsFrom hget
  rw [Nat.zero_add] at hindex
  exact ⟨_, getElem_mem hi, hindex⟩

theorem mem_take_hops {k : Nat} : h ∈ p.hops.take k ↔ h ∈ p.hops ∧ h.index < k := by
  constructor
  · intro hh
    obtain ⟨i, hi⟩ := mem_iff_getElem?.1 hh
    rw [List.getElem?_take] at hi
    split at hi
    · have hindex := getElem?_hopsFrom hi
      exact ⟨mem_of_getElem? hi, by omega⟩
    · exact absurd hi nofun
  · rintro ⟨hh, hk⟩
    refine mem_of_getElem? (i := h.index) ?_
    rw [List.getElem?_take, if_pos hk]
    exact mem_hops_iff.1 hh

theorem mem_drop_hops {k : Nat} : h ∈ p.hops.drop k ↔ h ∈ p.hops ∧ k ≤ h.index := by
  constructor
  · intro hh
    obtain ⟨i, hi⟩ := mem_iff_getElem?.1 hh
    rw [List.getElem?_drop] at hi
    have hindex := getElem?_hopsFrom hi
    exact ⟨mem_of_getElem? hi, by omega⟩
  · rintro ⟨hh, hk⟩
    refine mem_of_getElem? (i := h.index - k) ?_
    rw [List.getElem?_drop, Nat.add_sub_cancel' hk]
    exact mem_hops_iff.1 hh

theorem drop_hops (hh : h ∈ p.hops) : p.hops.drop h.index = h :: p.hops.drop (h.index + 1) := by
  obtain ⟨hlt, hget⟩ := List.getElem?_eq_some_iff.1 (mem_hops_iff.1 hh)
  rw [drop_eq_getElem_cons hlt, hget]

theorem reverse_take_hops (hh : h ∈ p.hops) :
    (p.hops.take (h.index + 1)).reverse = h :: (p.hops.take h.index).reverse := by
  rw [take_add_one, mem_hops_iff.1 hh, reverse_append]
  rfl

theorem hops_perm (p : PathPattern ν) (i : Nat) :
    (p.hops.drop i ++ (p.hops.take i).reverse).Perm p.hops := by
  have h := ((reverse_perm (p.hops.take i)).append_left (p.hops.drop i)).trans
    perm_append_comm
  rwa [take_append_drop] at h

def PathPattern.nodes (p : PathPattern ν) : List (NodePattern ν) := p.start :: p.hops.map Hop.right

theorem getElem?_nodes_left (hh : h ∈ p.hops) : p.nodes[h.index]? = some h.left := by
  have key : ∀ (chain : List (RelationshipPattern ν × NodePattern ν)) (i k : Nat)
      (left : NodePattern ν), (hopsFrom i left chain)[k]? = some h →
      (left :: (hopsFrom i left chain).map Hop.right)[k]? = some h.left := by
    intro chain
    induction chain with
    | nil => exact nofun
    | cons c chain ih =>
      intro i k left hk
      cases k with
      | zero =>
        obtain rfl := Option.some.inj hk
        rfl
      | succ k => exact ih (i + 1) k c.2 hk
  exact key _ 0 _ p.start (mem_hops_iff.1 hh)

theorem getElem?_nodes_right (hh : h ∈ p.hops) : p.nodes[h.index + 1]? = some h.right := by
  rw [PathPattern.nodes, List.getElem?_cons_succ, List.getElem?_map, mem_hops_iff.1 hh,
    Option.map_some]

end Hops

/-! ## Replacing variables -/

section Map

variable {ν μ : Type} (f : ν → μ)

def NodePattern.map (n : NodePattern ν) : NodePattern μ := { n with var := n.var.map f }

def RelationshipDetail.map (d : RelationshipDetail ν) : RelationshipDetail μ :=
  { d with var := d.var.map f }

def RelationshipPattern.map (r : RelationshipPattern ν) : RelationshipPattern μ :=
  { r with detail := r.detail.map (RelationshipDetail.map f) }

def PathPattern.map (p : PathPattern ν) : PathPattern μ :=
  { start := p.start.map f, first := (p.first.1.map f, p.first.2.map f)
    rest := p.rest.map fun c => (c.1.map f, c.2.map f) }

def Hop.map (h : Hop ν) : Hop μ := ⟨h.index, h.left.map f, h.rel.map f, h.right.map f⟩

theorem hopsFrom_map (i : Nat) (left : NodePattern ν)
    (chain : List (RelationshipPattern ν × NodePattern ν)) :
    hopsFrom i (left.map f) (chain.map fun c => (c.1.map f, c.2.map f)) =
      (hopsFrom i left chain).map (Hop.map f) := by
  induction chain generalizing i left with
  | nil => rfl
  | cons c chain ih => rw [map_cons, hopsFrom, ih]; rfl

theorem hops_map (p : PathPattern ν) : (p.map f).hops = p.hops.map (Hop.map f) :=
  hopsFrom_map f 0 p.start (p.first :: p.rest)

theorem nodes_map (p : PathPattern ν) : (p.map f).nodes = p.nodes.map (NodePattern.map f) := by
  rw [PathPattern.nodes, PathPattern.nodes, hops_map, map_cons, map_map, map_map]
  rfl

end Map

/-- Which positions of a pattern are named, and everything else as written. -/
def PathPattern.shape {ν : Type} (p : PathPattern ν) : PathPattern Unit := p.map fun _ => ()

theorem NodePattern.map_const_unit {ν : Type} (n : NodePattern Unit) (x : ν) :
    (n.map fun _ => x).map (fun _ => ()) = n := by
  rcases n with ⟨_ | _, _, _⟩ <;> rfl

theorem RelationshipPattern.map_const_unit {ν : Type} (r : RelationshipPattern Unit) (x : ν) :
    (r.map fun _ => x).map (fun _ => ()) = r := by
  rcases r with ⟨_, _ | ⟨_ | _, _, _, _⟩⟩ <;> rfl

theorem shape_map_const {ν : Type} (s : PathPattern Unit) (x : ν) :
    (s.map fun _ => x).shape = s := by
  simp only [PathPattern.shape, PathPattern.map, NodePattern.map_const_unit,
    RelationshipPattern.map_const_unit, map_map]
  congr 1
  refine (map_congr_left fun c _ => ?_).trans (map_id _)
  exact Prod.ext (RelationshipPattern.map_const_unit c.1 x) (NodePattern.map_const_unit c.2 x)

/-! ## The syntax tree of a pattern -/

def labelNode (label : Text) : ASTNode := .internal .NODE_LABEL [.leaf .SYMBOLIC_WORD label]

/-- The syntax node of a relationship type (`visitOC_RelTypeName`). -/
def typeNode (type : Text) : ASTNode :=
  .internal .RELATIONSHIP_TYPE [.leaf .SYMBOLIC_WORD type]

def entryNode (entry : Text × NodeType × Text) : ASTNode :=
  .internal .PROPERTY [.leaf .SYMBOLIC_WORD entry.1, .leaf entry.2.1 entry.2.2]

def propertiesNode (entries : Entries) : ASTNode :=
  .internal .PROPERTIES_MAP (entries.map entryNode)

/-- One name gives its own node, several a node that holds them. -/
def visitNames (many : NodeType) (one : Text → ASTNode) : List Text → List ASTNode
  | [] => []
  | [name] => [one name]
  | names => [.internal many (names.map one)]

def variableNode (v : Variable) : ASTNode := .leaf .VARIABLE v.text

def visitNodePattern (n : NodePattern Variable) : ASTNode :=
  .internal .NODE_PATTERN
    ((n.var.map variableNode).toList ++ visitNames .NODE_LABELS labelNode n.labels ++
      (n.properties.map propertiesNode).toList)

def visitRelationshipDetail (d : RelationshipDetail Variable) : ASTNode :=
  .internal .RELATIONSHIP_DETAILS
    ((d.var.map variableNode).toList ++ visitNames .RELATIONSHIP_TYPES typeNode d.types ++
      (if d.hasRange then [.internal .RANGE []] else []) ++
      (d.properties.map propertiesNode).toList)

/-! ## Details -/

/-- An entry of the pair of vectors `availability` and `nodes`. -/
structure Slot where
  available : Bool := false
  node : Option ASTNode := none

/-- The pair of vectors that the two helpers return: variable, label or type, property map. -/
structure Details where
  var : Slot := {}
  kind : Slot := {}
  properties : Slot := {}

def inspectNode (d : Details) (e : ASTNode) : Details :=
  match e.nodeType with
  | .VARIABLE => { d with var := ⟨true, some e⟩ }
  | .NODE_LABEL | .NODE_LABELS => { d with kind := ⟨true, some e⟩ }
  | .PROPERTIES_MAP => { d with properties := ⟨true, some e⟩ }
  | _ => d

def getNodeDetails (node : ASTNode) : Details := (node.elements.take 3).foldl inspectNode {}

/-- What the `RELATIONSHIP_TYPES` branch makes of the node: `types` and `e` are one pointer, so the
loop that copies the types runs over the elements just cleared. -/
def clearTypes (e : ASTNode) : ASTNode :=
  if e.nodeType = .RELATIONSHIP_TYPES then .mk e.nodeType e.value [] else e

/-- One turn of the loop of `getRelationshipDetails`. A list of types goes to `nodes[0]`. -/
def inspectRelationship (d : Details) (e : ASTNode) : Details :=
  match e.nodeType with
  | .VARIABLE => { d with var := ⟨true, some e⟩ }
  | .RELATIONSHIP_TYPE => { d with kind := ⟨true, some e⟩ }
  | .RELATIONSHIP_TYPES =>
    { d with
      kind := { d.kind with available := true }
      var := { d.var with node := some (clearTypes e) } }
  | .PROPERTIES_MAP => { d with properties := ⟨true, some e⟩ }
  | _ => d

/-- `QueryPlanner::getRelationshipDetails`: the details, and the node after the call. -/
def getRelationshipDetails (node : ASTNode) : Details × ASTNode :=
  ((node.elements.take 3).foldl inspectRelationship {}, .mk node.nodeType node.value
      ((node.elements.take 3).map clearTypes ++ node.elements.drop 3))

def Slot.of (node : Option ASTNode) : Slot := ⟨node.isSome, node⟩

def NodePattern.labelsNode {ν : Type} (n : NodePattern ν) : Option ASTNode :=
  (visitNames .NODE_LABELS labelNode n.labels).head?

/-- The property map of a relationship as far as it stands among the first three elements. -/
def RelationshipDetail.seenProperties {ν : Type} (d : RelationshipDetail ν) : Option Entries :=
  if d.var.isSome ∧ d.types ≠ [] ∧ d.hasRange then none else d.properties

theorem getNodeDetails_visit (n : NodePattern Variable) : getNodeDetails (visitNodePattern n) =
      { var := .of (n.var.map variableNode), kind := .of n.labelsNode
        properties := .of (n.properties.map propertiesNode) } := by
  obtain ⟨var, labels, properties⟩ := n
  rcases labels with _ | ⟨l, _ | ⟨l', ls⟩⟩ <;> cases var <;> cases properties <;> rfl

/-- Of a relationship with at most one type, everything among the first three elements is found. -/
theorem getRelationshipDetails_visit {d : RelationshipDetail Variable} (h : d.types.length ≤ 1) :
    (getRelationshipDetails (visitRelationshipDetail d)).1 =
      { var := .of (d.var.map variableNode), kind := .of (d.types.head?.map typeNode)
        properties := .of (d.seenProperties.map propertiesNode) } := by
  obtain ⟨var, types, hasRange, properties⟩ := d
  rcases types with _ | ⟨t, _ | ⟨t', ts⟩⟩
  · cases var <;> cases hasRange <;> cases properties <;> rfl
  · cases var <;> cases hasRange <;> cases properties <;> rfl
  · simp at h

theorem getRelationshipDetails_types {d : RelationshipDetail Variable} (h : 1 < d.types.length) :
    (getRelationshipDetails (visitRelationshipDetail d)).1.kind = ⟨true, none⟩ := by
  obtain ⟨var, types, hasRange, properties⟩ := d
  rcases types with _ | ⟨t, _ | ⟨t', ts⟩⟩
  · simp at h
  · simp at h
  · cases var <;> cases hasRange <;> cases properties <;> rfl

def prepareWhereClause (var1 var2 : Text) : ASTNode :=
  .internal .WHERE
    [.internal .COMPARISON [.leaf .VARIABLE var1,
        .internal .GREATER_THAN_LOWER_THAN [.leaf .VARIABLE var2]]]

end JasmineGraph.Cypher
