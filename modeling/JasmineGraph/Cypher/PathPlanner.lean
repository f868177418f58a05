import JasmineGraph.Cypher.Operator

/-!
# The path planner

Model of `QueryPlanner::pathPatternHandler` (`queryplanner/QueryPlanner.cpp`): the choice of the
start of a path and the loops that grow it to the right and to the left.

* The source has a dozen copies of the two loops. `Loop` is what they differ in: the side they grow
  to, when a hop gets an inequality with the relationship before it, whether the arrow is looked at
  and whether properties and labels become filter cases. `expandHop` is one turn of such a loop.
* `Frontier` is the state of a loop. Its field `bindings` is a ghost: it records which variable each
  position of the pattern received, and nothing reads it.
* `none` is a read past the end of `elements` (a relationship without brackets, the first element of
  an empty node pattern) or of the null pointer that stands for a list of types.
* The index of a start that is not found is never assigned in the source. It is the argument
  `uninit`.
-/

namespace JasmineGraph.Cypher

open JasmineGraph.Bytes List Option

/-! ## Names -/

def nodeName (i : Int) : Text := ascii "node_var_" ++ decimalInt i

def edgeName (i : Int) : Text := ascii "edge_var_" ++ decimalInt i

def Details.name (d : Details) (generated : Text) : Text :=
  if d.var.available then (d.var.node.map ASTNode.value).getD [] else generated

def Details.kindName (d : Details) : Option Text := do
  some (← (← d.kind.node).element 0).value

/-- `first[1] ? second[1]->elements[0]->value : "null"`. -/
def Details.relType (d : Details) : Option Text :=
  if d.kind.available then d.kindName else some (ascii "null")

/-- `if (first[i]) filterCases.push_back((var, second[i]))`. -/
def Slot.cases (var : Text) (s : Slot) : List (Text × ASTNode) :=
  if s.available then s.node.toList.map fun n => (var, n) else []

/-! ## One hop -/

/-- A position of a path pattern. -/
inductive Position
  | node (i : Nat)
  | rel (i : Nat)
  deriving DecidableEq

/-- The side a loop grows the path to. -/
inductive Side
  | left | right
  deriving DecidableEq

/-- When a loop adds the inequality of a relationship with the one before it. -/
inductive Inequality
  | always
  | unlessNull
  | after (labelIndex : Int)

structure Loop where
  side : Side
  inequality : Inequality
  arrows : Bool
  filters : Bool

/-- The state of a loop. -/
structure Frontier where
  operator : Operator
  startVar : Text
  prevRel : Text
  rel : Text
  bindings : List (Position × Text)

def Side.dest {ν : Type} : Side → Hop ν → NodePattern ν
  | left, h => h.left
  | right, h => h.right

def Side.position {ν : Type} : Side → Hop ν → Nat
  | left, h => h.index
  | right, h => h.index + 1

/-- The direction of an `ExpandAll`, seen from the node that it starts at. -/
def Side.direction : Side → Arrow → Option Direction
  | _, .undirected => none
  | right, .left | left, .right => some .left
  | right, .right | left, .left => some .right

/-- The test before `prepareWhereClause`. -/
def Inequality.applies (q : Inequality) (index : Nat) (prevRel : Text) : Bool :=
  match q with
  | always => true
  | unlessNull => decide (prevRel ≠ ascii "null")
  | after labelIndex => decide ((index : Int) > labelIndex + 1)

def analyzeRelationship (h : Hop Variable) : Option Details :=
  h.rel.detail.map fun d => (getRelationshipDetails (visitRelationshipDetail d)).1

def analyzeNode (n : NodePattern Variable) : Details := getNodeDetails (visitNodePattern n)

/-- One turn of a loop of `pathPatternHandler`. -/
def expandHop (l : Loop) (s : Frontier) (h : Hop Variable) : Option Frontier := do
  let analyzedRel ← analyzeRelationship h
  let analyzedNode := analyzeNode (l.side.dest h)
  let newDestVar := analyzedNode.name (nodeName h.index)
  let newRelVar := analyzedRel.name (edgeName h.index)
  let newRelType ← analyzedRel.relType
  let direction := if l.arrows then l.side.direction h.rel.arrow else none
  let operator := .expandAll s.operator s.startVar newDestVar newRelVar newRelType direction
  let inequality :=
    if l.inequality.applies h.index s.prevRel then
      [(ascii "null", prepareWhereClause newRelVar s.prevRel)]
    else []
  let constraints :=
    if l.filters then
      analyzedRel.properties.cases newRelVar ++ analyzedNode.kind.cases newDestVar ++
        analyzedNode.properties.cases newDestVar
    else []
  some
    { operator := withFilter operator (inequality ++ constraints), startVar := newDestVar
      prevRel := newRelVar
      rel := if s.prevRel = ascii "null" then newRelVar else s.rel
      bindings := s.bindings ++
        [(.rel h.index, newRelVar), (.node (l.side.position h), newDestVar)] }

def runLoop (l : Loop) (hs : List (Hop Variable)) (s : Frontier) : Option Frontier :=
  hs.foldlM (expandHop l) s

/-! ## The choice of the start -/

/-- What the loop over the chain finds. -/
structure Selection where
  relType : Option (Hop Variable) := none
  label : Option (Hop Variable) := none
  direction : Option (Hop Variable) := none

/-- The loop over the chain, from its end: it stops at a relationship with a type, keeps the first
labelled node and overwrites the directed hop. -/
def selectStart : List (Hop Variable) → Selection → Option Selection
  | [], s => some s
  | h :: hs, s => do
    let analyzedDetails ← analyzeRelationship h
    if analyzedDetails.kind.available then some { s with relType := some h }
    else
      selectStart hs
        { s with
          label := if (analyzeNode h.right).kind.available && s.label.isNone then some h else s.label
          direction := if h.rel.arrow ≠ .undirected then some h else s.direction }

/-! ## The starts -/

def growBoth (p : PathPattern Variable) (h : Hop Variable) (l : Side → Loop) (rightFirst : Bool)
    (startVar destVar relVar : Text) (s : Frontier) : Option Frontier :=
  let growRight s :=
    runLoop (l .right) (p.hops.drop (h.index + 1)) { s with startVar := destVar, prevRel := relVar }
  let growLeft s :=
    runLoop (l .left) (p.hops.take h.index).reverse
      { s with startVar := startVar, prevRel := relVar }
  if rightFirst then growRight s >>= growLeft else growLeft s >>= growRight

def scanBindings (h : Hop Variable) (startVar destVar relVar : Text) : List (Position × Text) :=
  [(.node h.index, startVar), (.rel h.index, relVar), (.node (h.index + 1), destVar)]

def relTypeStart (p : PathPattern Variable) (h : Hop Variable) : Option Frontier := do
  let analyzedDetails ← analyzeRelationship h
  let analyzedSource := analyzeNode h.left
  let analyzedDest := analyzeNode h.right
  let relVar := analyzedDetails.name (edgeName h.index)
  let startVar := analyzedSource.name (nodeName h.index)
  let destVar := analyzedDest.name (nodeName (h.index + 1))
  let relType ← analyzedDetails.kindName
  let scan :=
    match h.rel.arrow with
    | .undirected => Operator.undirectedRelationshipTypeScan relType relVar startVar destVar
    | .left => .directedRelationshipTypeScan .left relType relVar startVar destVar
    | .right => .directedRelationshipTypeScan .right relType relVar startVar destVar
  let filterCases :=
    analyzedDetails.properties.cases relVar ++ analyzedSource.kind.cases startVar ++
      analyzedSource.properties.cases startVar ++ analyzedDest.kind.cases destVar ++
      analyzedDest.properties.cases destVar
  let rightFirst :=
    (visitNodePattern h.left).elements.length < (visitNodePattern h.right).elements.length
  growBoth p h (fun side => ⟨side, .always, true, true⟩) rightFirst startVar destVar relVar
    ⟨withFilter scan filterCases, startVar, relVar, [], scanBindings h startVar destVar relVar⟩

/-- The relationship that the left loop of the label start is to differ from: the one to the right
of the labelled node, and the empty text if there is none. The comparison of `labelIndex` with a
`size_t` is false for a labelled start of the path. -/
def labelPrevRel (p : PathPattern Variable) (position : Nat) (prevRel : Text) : Option Text :=
  if 0 < position ∧ position < p.hops.length then do
    let h ← p.hops[position]?
    let analyzedRel ← analyzeRelationship h
    some (analyzedRel.name (edgeName h.index))
  else some prevRel

def labelStart (p : PathPattern Variable) (position : Nat) (n : NodePattern Variable)
    (uninit : Int) : Option Frontier := do
  let labelIndex : Int := (position : Int) - 1
  let analyzedSource := analyzeNode n
  let startVar := analyzedSource.name (nodeName (uninit + 1))
  let label ← analyzedSource.kindName
  let s ← runLoop ⟨.right, .after labelIndex, true, true⟩ (p.hops.drop position)
    { operator := withFilter (.nodeScanByLabel label startVar)
        (analyzedSource.properties.cases startVar)
      startVar := startVar
      prevRel := []
      rel := []
      bindings := [(.node position, startVar)] }
  let prevRel ← labelPrevRel p position s.prevRel
  runLoop ⟨.left, .always, true, true⟩ (p.hops.take position).reverse
    { s with startVar := analyzedSource.name (nodeName labelIndex), prevRel := prevRel }

/-- The direction start. Its loops make no filter cases of properties. -/
def directionStart (p : PathPattern Variable) (h : Hop Variable) : Option Frontier := do
  let analyzedDetails ← analyzeRelationship h
  let relVar := analyzedDetails.name (edgeName h.index)
  let startVar := (analyzeNode h.left).name (nodeName h.index)
  let destVar := (analyzeNode h.right).name (nodeName (h.index + 1))
  let direction := if h.rel.arrow = .left then Direction.left else .right
  growBoth p h (fun side => ⟨side, .always, true, false⟩) false startVar destVar relVar
    ⟨.directedAllRelationshipScan direction startVar destVar relVar, startVar, relVar, [],
      scanBindings h startVar destVar relVar⟩

def undirectedStart (p : PathPattern Variable) (h : Hop Variable) : Option Frontier := do
  let analyzedDetails ← analyzeRelationship h
  let analyzedSource := analyzeNode h.left
  let analyzedDest := analyzeNode h.right
  let relVar := analyzedDetails.name (edgeName h.index)
  let startVar := analyzedSource.name (nodeName h.index)
  let destVar := analyzedDest.name (nodeName (h.index + 1))
  let filterCases :=
    analyzedDetails.properties.cases relVar ++ analyzedSource.kind.cases startVar ++
      analyzedSource.properties.cases startVar ++ analyzedDest.kind.cases destVar ++
      analyzedDest.properties.cases destVar
  runLoop ⟨.left, .always, false, true⟩ (p.hops.take h.index).reverse
    ⟨withFilter (.undirectedAllRelationshipScan startVar destVar relVar) filterCases, startVar,
      relVar, [], scanBindings h startVar destVar relVar⟩

/-! ## The start at a node id -/

def firstValue (n : NodePattern Variable) : Option Text :=
  ((visitNodePattern n).element 0).map ASTNode.value

/-- The search for the variable of the seek: the last assignment to `index` counts. -/
def seekIndex (p : PathPattern Variable) (var : Text) : Option (Option Nat) := do
  let index := p.hops.reverse.foldl
    (fun index h => if firstValue h.right = some var then some (h.index + 1) else index) none
  let first ← firstValue p.start
  some (if first = var then some 0 else index)

def Details.count (d : Details) : Nat :=
  d.var.available.toNat + d.kind.available.toNat + d.properties.available.toNat

def seekStart (p : PathPattern Variable) (id var : Text) (uninit : Int) : Option Frontier := do
  let found ← seekIndex p var
  let index : Int := (found.map Int.ofNat).getD uninit
  let s : Frontier :=
    ⟨.nodeByIdSeek id var, var, ascii "null", [],
      (found.map fun i => (Position.node i, var)).toList⟩
  let right : Loop := ⟨.right, .unlessNull, true, true⟩
  let left : Loop := ⟨.left, .unlessNull, true, true⟩
  if index = 0 then runLoop right p.hops s
  else if index = p.hops.length then runLoop left p.hops.reverse s
  else if index < 0 then none
  else do
    let leftRel ← p.hops[index.toNat - 1]? >>= analyzeRelationship
    let rightRel ← p.hops[index.toNat]? >>= analyzeRelationship
    if leftRel.count > rightRel.count then do
      let s ← runLoop left (p.hops.take index.toNat).reverse s
      runLoop right (p.hops.drop index.toNat) { s with prevRel := s.rel, startVar := var }
    else do
      let s ← runLoop right (p.hops.drop index.toNat) s
      runLoop left (p.hops.take index.toNat).reverse { s with prevRel := s.rel, startVar := var }

/-- The plan of a path without an input operator. -/
def scanStart (p : PathPattern Variable) (uninit : Int) : Option Frontier := do
  let s ← selectStart p.hops.reverse {}
  match s.relType with
  | some h => relTypeStart p h
  | none =>
    match s.label with
    | some h => labelStart p (h.index + 1) h.right uninit
    | none =>
      if (analyzeNode p.start).kind.available then labelStart p 0 p.start uninit
      else
        match s.direction with
        | some h => directionStart p h
        | none => p.hops.getLast? >>= undirectedStart p

/-- `QueryPlanner::pathPatternHandler`, with the id and the variable of the input `NodeByIdSeek`
if there is one. -/
def pathPatternHandler (p : PathPattern Variable) (input : Option (Text × Text)) (uninit : Int) :
    Option Frontier :=
  match input with
  | some (id, var) => seekStart p id var uninit
  | none => scanStart p uninit

/-! ## What the details say about the pattern -/

def nodeVar (n : NodePattern Variable) (generated : Text) : Text :=
  (n.var.map Variable.text).getD generated

def NodePattern.cases {ν : Type} (n : NodePattern ν) (v : Text) : List (Text × ASTNode) :=
  (n.labelsNode.toList ++ (n.properties.map propertiesNode).toList).map fun node => (v, node)

namespace Hop

variable {ν : Type}

/-- The relationship has brackets and at most one type: the planner can read it. -/
def Plannable (h : Hop ν) : Prop := ∃ d, h.rel.detail = some d ∧ d.types.length ≤ 1

def isTyped (h : Hop ν) : Bool := h.rel.detail.any fun d => !d.types.isEmpty

def isDirected (h : Hop ν) : Bool := decide (h.rel.arrow ≠ .undirected)

def isLabelled (h : Hop ν) : Bool := !h.right.labels.isEmpty

def relVar (h : Hop Variable) : Text :=
  ((h.rel.detail.bind RelationshipDetail.var).map Variable.text).getD (edgeName h.index)

def relType (h : Hop ν) : Text :=
  (h.rel.detail.bind fun d => d.types.head?).getD (ascii "null")

def relCases (h : Hop Variable) : List (Text × ASTNode) :=
  ((h.rel.detail.bind RelationshipDetail.seenProperties).map propertiesNode).toList.map
    fun node => (h.relVar, node)

end Hop

theorem Slot.cases_of (v : Text) (node : Option ASTNode) :
    (Slot.of node).cases v = node.toList.map fun n => (v, n) := by
  cases node <;> rfl

theorem name_of_variable (v : Option Variable) (kind properties : Slot) (generated : Text) :
    Details.name ⟨.of (v.map variableNode), kind, properties⟩ generated =
      (v.map Variable.text).getD generated := by
  cases v <;> rfl

@[simp] theorem analyzeNode_name (n : NodePattern Variable) (generated : Text) :
    (analyzeNode n).name generated = nodeVar n generated := by
  rw [analyzeNode, getNodeDetails_visit, name_of_variable, nodeVar]

theorem analyzeNode_cases (n : NodePattern Variable) (v : Text) :
    (analyzeNode n).kind.cases v ++ (analyzeNode n).properties.cases v = n.cases v := by
  rw [analyzeNode, getNodeDetails_visit, Slot.cases_of, Slot.cases_of, NodePattern.cases,
    map_append]

theorem analyzeNode_kind_available (n : NodePattern Variable) :
    (analyzeNode n).kind.available = !n.labels.isEmpty := by
  rw [analyzeNode, getNodeDetails_visit]
  rcases n with ⟨_, _ | ⟨l, _ | ⟨l', ls⟩⟩, _⟩ <;> rfl

variable {item : Text × ASTNode} {h : Hop Variable} {l : Loop} {s : Frontier}
  {hs : List (Hop Variable)}

theorem mem_caseVariables_node {n : NodePattern Variable} {v : Text} (hitem : item ∈ n.cases v)
    {w : Text} (hw : w ∈ caseVariables item) : w = v := by
  obtain ⟨node, hnode, rfl⟩ := List.mem_map.1 hitem
  have htype : node.nodeType ≠ .WHERE := by
    rcases mem_append.1 hnode with hnode | hnode
    · rw [mem_toList] at hnode
      rcases n with ⟨_, _ | ⟨l, _ | ⟨l', ls⟩⟩, _⟩ <;> cases hnode <;> exact nofun
    · rw [mem_toList, map_eq_some_iff] at hnode
      obtain ⟨entries, -, rfl⟩ := hnode
      exact nofun
  rw [caseVariables, if_neg htype] at hw
  exact mem_singleton.1 hw

theorem mem_caseVariables_rel (hitem : item ∈ h.relCases) {w : Text} (hw : w ∈ caseVariables item) :
    w = h.relVar := by
  obtain ⟨node, hnode, rfl⟩ := List.mem_map.1 hitem
  rw [mem_toList, map_eq_some_iff] at hnode
  obtain ⟨entries, -, rfl⟩ := hnode
  exact mem_singleton.1 hw

theorem analyzeRelationship_of_plannable (hp : h.Plannable) :
    ∃ d, analyzeRelationship h = some d ∧ d.name (edgeName h.index) = h.relVar ∧
      d.relType = some h.relType ∧ d.properties.cases h.relVar = h.relCases ∧
      d.kind.available = h.isTyped ∧ (h.isTyped = true → d.kindName = some h.relType) := by
  obtain ⟨detail, hdetail, htypes⟩ := hp
  refine ⟨_, by rw [analyzeRelationship, hdetail, map_some], ?_⟩
  rw [getRelationshipDetails_visit htypes, name_of_variable, Slot.cases_of,
    Hop.relType, Hop.relCases, Hop.relVar, hdetail]
  refine ⟨rfl, ?_, rfl, ?_, ?_⟩
  · rcases htypes' : detail.types with _ | ⟨t, ts⟩ <;> simp [Details.relType, Slot.of, htypes',
      Details.kindName, typeNode, ASTNode.element]
  · rcases htypes' : detail.types with _ | ⟨t, ts⟩ <;>
      simp [Slot.of, htypes', Hop.isTyped, hdetail]
  · rcases htypes' : detail.types with _ | ⟨t, ts⟩ <;>
      simp [Slot.of, htypes', Hop.isTyped, hdetail, Details.kindName, typeNode, ASTNode.element]

/-- A relationship that the planner cannot read has no details, or a type without a node. -/
theorem analyzeRelationship_of_not_plannable (hp : ¬ h.Plannable) : analyzeRelationship h = none ∨
      ∃ d, analyzeRelationship h = some d ∧ d.kind = ⟨true, none⟩ := by
  rcases hdetail : h.rel.detail with _ | detail
  · exact .inl (by rw [analyzeRelationship, hdetail, map_none])
  · refine .inr ⟨_, by rw [analyzeRelationship, hdetail, map_some], ?_⟩
    exact getRelationshipDetails_types
      (Nat.lt_of_not_le fun htypes => hp ⟨detail, hdetail, htypes⟩)

/-! ## One turn, and a whole loop -/

namespace Loop

def destVar (l : Loop) (h : Hop Variable) : Text := nodeVar (l.side.dest h) (nodeName h.index)

def inequalityCases (l : Loop) (prevRel : Text) (h : Hop Variable) : List (Text × ASTNode) :=
  if l.inequality.applies h.index prevRel then
    [(ascii "null", prepareWhereClause h.relVar prevRel)]
  else []

def constraintCases (l : Loop) (h : Hop Variable) : List (Text × ASTNode) :=
  if l.filters then h.relCases ++ (l.side.dest h).cases (l.destVar h) else []

def bindings (l : Loop) (h : Hop Variable) : List (Position × Text) :=
  [(.rel h.index, h.relVar), (.node (l.side.position h), l.destVar h)]

def expand (l : Loop) (s : Frontier) (h : Hop Variable) : Operator :=
  .expandAll s.operator s.startVar (l.destVar h) h.relVar h.relType
    (if l.arrows then l.side.direction h.rel.arrow else none)

end Loop

theorem expandHop_eq (hp : h.Plannable) : expandHop l s h = some
      { operator :=
          withFilter (l.expand s h) (l.inequalityCases s.prevRel h ++ l.constraintCases h)
        startVar := l.destVar h, prevRel := h.relVar
        rel := if s.prevRel = ascii "null" then h.relVar else s.rel
        bindings := s.bindings ++ l.bindings h } := by
  obtain ⟨d, hd, hname, htype, hcases, -, -⟩ := analyzeRelationship_of_plannable hp
  simp only [expandHop, hd, htype, hname, hcases, bind_eq_bind, bind_some,
    analyzeNode_name, append_assoc, analyzeNode_cases]
  rfl

theorem expandHop_eq_none (hp : ¬ h.Plannable) : expandHop l s h = none := by
  rcases analyzeRelationship_of_not_plannable hp with hd | ⟨d, hd, hkind⟩
  · rw [expandHop, hd]
    rfl
  · have htype : d.relType = none := by
      rw [Details.relType, Details.kindName, hkind]
      rfl
    simp only [expandHop, hd, htype, bind_eq_bind, bind_some, bind_none]

theorem runLoop_cons : runLoop l (h :: hs) s = expandHop l s h >>= runLoop l hs := foldlM_cons

theorem runLoop_eq_none (h : ∃ h ∈ hs, ¬ h.Plannable) : runLoop l hs s = none := by
  induction hs generalizing s with
  | nil => exact absurd h (by simp)
  | cons h' hs ih =>
    rw [runLoop_cons]
    by_cases hp : h'.Plannable
    · rw [expandHop_eq hp]
      refine ih ?_
      obtain ⟨x, hx, hxp⟩ := h
      rcases mem_cons.1 hx with rfl | hx
      · exact absurd hp hxp
      · exact ⟨x, hx, hxp⟩
    · rw [expandHop_eq_none hp]
      rfl

namespace Loop

/-- The filter cases of a loop, given the relationship before its first hop. -/
def cases (l : Loop) : Text → List (Hop Variable) → List (Text × ASTNode)
  | _, [] => []
  | prevRel, h :: hs => l.inequalityCases prevRel h ++ l.constraintCases h ++ l.cases h.relVar hs

def relationships (l : Loop) : Text → List (Hop Variable) → List RelationshipBinding
  | _, [] => []
  | startVar, h :: hs =>
    ⟨h.relVar, startVar, l.destVar h, printedType h.relType,
      if l.arrows then l.side.direction h.rel.arrow else none⟩ :: l.relationships (l.destVar h) hs

theorem relVars_relationships (l : Loop) (startVar : Text) (hs : List (Hop Variable)) :
    (l.relationships startVar hs).map RelationshipBinding.relVar = hs.map Hop.relVar := by
  induction hs generalizing startVar with
  | nil => rfl
  | cons h hs ih => rw [relationships, map_cons, ih, map_cons]

end Loop

namespace Loop

/-- Every variable that a loop reads is bound: those it starts from, and those its filters mention
among what is bound when it comes to them. -/
def Bound (l : Loop) : List Text → Text → Text → List (Hop Variable) → Prop
  | _, _, _, [] => True
  | vars, startVar, prevRel, h :: hs =>
    startVar ∈ vars ∧
      (∀ item ∈ l.inequalityCases prevRel h ++ l.constraintCases h, ∀ v ∈ caseVariables item,
        v ∈ vars ++ [h.relVar, l.destVar h]) ∧
      l.Bound (vars ++ [h.relVar, l.destVar h]) (l.destVar h) h.relVar hs

theorem mem_constraintCases (hitem : item ∈ l.constraintCases h) {v : Text}
    (hv : v ∈ caseVariables item) : v = h.relVar ∨ v = l.destVar h := by
  rw [constraintCases] at hitem
  split at hitem
  · rcases mem_append.1 hitem with hitem | hitem
    · exact .inl (mem_caseVariables_rel hitem hv)
    · exact .inr (mem_caseVariables_node hitem hv)
  · exact absurd hitem not_mem_nil

/-- A loop that starts from a bound variable, and whose first inequality is with a bound one, reads
nothing unbound. -/
theorem bound_of_mem (l : Loop) {vars : List Text} {startVar prevRel : Text}
    (hstart : startVar ∈ vars)
    (hprev : ∀ h ∈ hs.head?, l.inequality.applies h.index prevRel = true → prevRel ∈ vars) :
    l.Bound vars startVar prevRel hs := by
  induction hs generalizing vars startVar prevRel with
  | nil => trivial
  | cons h hs ih =>
    refine ⟨hstart, fun item hitem v hv => ?_, ih (by simp) fun _ _ _ => by simp⟩
    rcases mem_append.1 hitem with hitem | hitem
    · rw [inequalityCases] at hitem
      split at hitem
      · rename_i happlies
        rw [mem_singleton.1 hitem] at hv
        rcases mem_cons.1 hv with rfl | hv
        · simp
        · rw [mem_singleton.1 hv]
          exact mem_append_left _ (hprev h rfl happlies)
      · exact absurd hitem not_mem_nil
    · rcases mem_constraintCases hitem hv with rfl | rfl <;> simp

end Loop

structure Grown (l : Loop) (hs : List (Hop Variable)) (s s' : Frontier) : Prop where
  vars : s'.operator.vars = s.operator.vars ++ (hs.flatMap l.bindings).map Prod.snd
  relationships : s'.operator.relationships =
    s.operator.relationships ++ l.relationships s.startVar hs
  filterCases : s'.operator.filterCases = s.operator.filterCases ++ l.cases s.prevRel hs
  bindings : s'.bindings = s.bindings ++ hs.flatMap l.bindings
  rel : s'.rel =
    if s.prevRel = ascii "null" then (hs.head?.map Hop.relVar).getD s.rel else s.rel
  bindsBeforeUse : s'.operator.BindsBeforeUse ↔
    s.operator.BindsBeforeUse ∧ l.Bound s.operator.vars s.startVar s.prevRel hs

theorem Grown.refl (l : Loop) (s : Frontier) : Grown l [] s s := by
  constructor <;> simp [Loop.relationships, Loop.cases, Loop.Bound]

theorem edgeName_ne_null (i : Int) : edgeName i ≠ ascii "null" := fun h =>
  absurd (congrArg head? h) (by simp [edgeName, ascii])

theorem Hop.relVar_ne_null (h : Hop Variable) : h.relVar ≠ ascii "null" := by
  rw [Hop.relVar]
  rcases h.rel.detail.bind RelationshipDetail.var with _ | v
  · exact edgeName_ne_null _
  · exact v.ne_null

/-- **A loop over hops that the planner can read** ends with them added to the plan. -/
theorem runLoop_spec (hp : ∀ h ∈ hs, h.Plannable) (s : Frontier) :
    ∃ s', runLoop l hs s = some s' ∧ Grown l hs s s' := by
  induction hs generalizing s with
  | nil => exact ⟨s, rfl, .refl l s⟩
  | cons h hs ih =>
    obtain ⟨hh, hhs⟩ := forall_mem_cons.1 hp
    rw [runLoop_cons, expandHop_eq hh]
    obtain ⟨s', hrun, hs'⟩ := ih hhs _
    refine ⟨s', hrun, ?_, ?_, ?_, ?_, ?_, ?_⟩
    · rw [hs'.vars]
      simp [Loop.expand, Operator.vars, Loop.bindings]
    · rw [hs'.relationships]
      simp [Loop.expand, Operator.relationships, Loop.relationships]
    · rw [hs'.filterCases]
      simp [Loop.expand, Operator.filterCases, Loop.cases]
    · rw [hs'.bindings]
      simp
    · rw [hs'.rel, if_neg h.relVar_ne_null]
      simp
    · rw [hs'.bindsBeforeUse, bindsBeforeUse_withFilter, vars_withFilter]
      simp only [Loop.expand, Operator.BindsBeforeUse, Loop.Bound]
      tauto

end JasmineGraph.Cypher
