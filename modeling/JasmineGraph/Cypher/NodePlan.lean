import JasmineGraph.Cypher.PathText
import JasmineGraph.Cypher.ReturnPlan

/-!
# The plan of a single node

Model of the branches `NODE_PATTERN` and `NODE_LABELS` of `QueryPlanner::createExecutionPlan`. They
get the operator that was planned so far, or the null pointer.

* A node without parts is a new scan of all nodes. Otherwise an operator that is there is kept, and
  with it everything that the node asks for except its property map and a list of labels.
* `isAvailable` looks at the whole tree of the node. A list of labels holds labels, so the branches
  for a list with a property map are never taken; and a variable in the property map counts as the
  variable of the node, whose parts are then looked for in the wrong places.
* A property map without variable and label has no branch.
-/

namespace JasmineGraph.Cypher

open JasmineGraph.Bytes NodePattern ASTNode

def planNodeLabels (ast : ASTNode) (currentOperator : MatchPlan) : Option MatchPlan := do
  let labels ← ast.elements.mapM fun e => (e.element 0).map value
  some (if currentOperator.isNull then .scan (.multipleNodeScanByLabel labels (ascii "var_0"))
    else .filter currentOperator (labels.zip ast.elements))

/-- `createExecutionPlan` on an element of a node pattern: a property map has no branch. -/
def planElement (ast : ASTNode) (currentOperator : MatchPlan) : Option MatchPlan :=
  if ast.nodeType = .NODE_LABELS then planNodeLabels ast currentOperator
  else some currentOperator

def orNew (currentOperator : MatchPlan) (scan : Option Operator) : Option MatchPlan :=
  if currentOperator.isNull then scan.map .scan else some currentOperator

def planNodePattern (ast : ASTNode) (currentOperator : MatchPlan) : Option MatchPlan :=
  let label := isAvailable .NODE_LABEL ast
  let labels := isAvailable .NODE_LABELS ast
  let var := isAvailable .VARIABLE ast
  if ast.elements.isEmpty then some (.scan (.allNodeScan (ascii "var_0")))
  else if isAvailable .PROPERTIES_MAP ast then
    if label && var then do
      let first ← ast.element 0
      let input ← orNew currentOperator (do
        some (.nodeScanByLabel (← (← ast.element 1).element 0).value first.value))
      some (.filter input [(first.value, ← ast.element 2)])
    else if !label && !labels && var then do
      let first ← ast.element 0
      let input ← orNew currentOperator (some (.allNodeScan first.value))
      some (.filter input [(first.value, ← ast.element 1)])
    else if label && !var then do
      let input ← orNew currentOperator (do
        some (.nodeScanByLabel (← (← ast.element 0).element 0).value (ascii "var_0")))
      some (.filter input [(ascii "node_0", ← ast.element 1)])
    else if labels && var then do
      let input ←
        if currentOperator.isNull then do planElement (← ast.element 1) currentOperator
        else some currentOperator
      some (.filter input [((← ast.element 0).value, ← ast.element 2)])
    else if labels && !var then do
      let input ← planElement (← ast.element 0) currentOperator
      some (.filter input [(ascii "node_0", ← ast.element 1)])
    else some currentOperator
  else
    if !label && !labels && var then do
      let first ← ast.element 0
      orNew currentOperator (some (.allNodeScan first.value))
    else if var then do
      let second ← ast.element 1
      if second.nodeType = .NODE_LABEL then
        orNew currentOperator (do
          some (.nodeScanByLabel (← second.element 0).value (← ast.element 0).value))
      else if labels then planElement second currentOperator
      else some currentOperator
    else do
      let first ← ast.element 0
      if first.nodeType = .NODE_LABEL then
        orNew currentOperator (do
          some (.nodeScanByLabel (← first.element 0).value (ascii "var_0")))
      else if labels then planElement first currentOperator
      else some currentOperator

/-! ## What the search finds -/

section Available

def NodePattern.ValuesPlain {ν : Type} (n : NodePattern ν) : Prop :=
  ∀ entries ∈ n.properties, ∀ e ∈ entries, NodeType.NODE_LABEL ≠ e.2.1 ∧ NodeType.NODE_LABELS ≠ e.2.1

def NodePattern.hasVariableValue {ν : Type} (n : NodePattern ν) : Bool :=
  n.properties.any fun entries => entries.any fun e => NodeType.VARIABLE = e.2.1

theorem isAvailableIn_eq_any (t : NodeType) (es : List ASTNode) :
    isAvailableIn t es = es.any (isAvailable t) := by
  induction es with
  | nil => rfl
  | cons e es ih => rw [isAvailableIn, ih, List.any_cons]

theorem isAvailable_internal (t u : NodeType) (es : List ASTNode) :
    isAvailable t (.internal u es) = (decide (t = u) || es.any (isAvailable t)) := by
  rw [internal, isAvailable, isAvailableIn_eq_any, decide_eq_decide.2 eq_comm]

theorem isAvailable_leaf (t u : NodeType) (v : Text) :
    isAvailable t (.leaf u v) = decide (t = u) := by
  rw [leaf, isAvailable, isAvailableIn, Bool.or_false, decide_eq_decide.2 eq_comm]

theorem isAvailable_labelNode (t : NodeType) (l : Text) :
    isAvailable t (labelNode l) = decide (t = .NODE_LABEL ∨ t = .SYMBOLIC_WORD) := by
  simp [labelNode, isAvailable_internal, isAvailable_leaf]

variable (n : NodePattern Variable)

theorem isAvailable_visitNodePattern (t : NodeType) (ht : t ≠ .NODE_PATTERN)
    (hw : t ≠ .SYMBOLIC_WORD) (hp : t ≠ .PROPERTY) :
    isAvailable t (visitNodePattern n) = (n.var.any (fun _ => t = .VARIABLE) ||
        decide (t = .NODE_LABEL ∧ n.labels ≠ [] ∨ t = .NODE_LABELS ∧ 2 ≤ n.labels.length) ||
        n.properties.any fun entries =>
          decide (t = .PROPERTIES_MAP) || entries.any fun e => t = e.2.1) := by
  have hlabel : isAvailable t ∘ labelNode = fun _ => decide (t = .NODE_LABEL) := by
    funext l
    simp [isAvailable_labelNode, hw]
  have hentry : isAvailable t ∘ entryNode = fun e => decide (t = e.2.1) := by
    funext e
    simp [entryNode, isAvailable_internal, isAvailable_leaf, hp, hw]
  have hlabels : (visitNames .NODE_LABELS labelNode n.labels).any (isAvailable t) =
      decide (t = .NODE_LABEL ∧ n.labels ≠ [] ∨ t = .NODE_LABELS ∧ 2 ≤ n.labels.length) := by
    rcases n.labels with _ | ⟨l, _ | ⟨l', ls⟩⟩
    · simp [visitNames]
    · simp [visitNames, isAvailable_labelNode, hw]
    · by_cases h : t = .NODE_LABEL
      · simp [visitNames, isAvailable_internal, isAvailable_labelNode, h]
      · simp [visitNames, isAvailable_internal, isAvailable_labelNode, h, hw]
  rw [visitNodePattern, isAvailable_internal, List.any_append, List.any_append, hlabels,
    decide_eq_false ht, Bool.false_or]
  congr 1
  · cases n.var with
    | none => rfl
    | some v => simp [variableNode, isAvailable_leaf]
  · cases n.properties with
    | none => rfl
    | some entries =>
      simp [propertiesNode, isAvailable_internal, hentry]

variable {n}

theorem isAvailable_map : isAvailable .PROPERTIES_MAP (visitNodePattern n) = n.properties.isSome := by
  rw [isAvailable_visitNodePattern n .PROPERTIES_MAP nofun nofun nofun]
  cases n.var <;> cases n.properties <;> simp

theorem isAvailable_labels (h : n.ValuesPlain) :
    isAvailable .NODE_LABEL (visitNodePattern n) = decide (n.labels ≠ []) ∧
      isAvailable .NODE_LABELS (visitNodePattern n) = decide (2 ≤ n.labels.length) := by
  rw [isAvailable_visitNodePattern n .NODE_LABEL nofun nofun nofun,
    isAvailable_visitNodePattern n .NODE_LABELS nofun nofun nofun]
  cases hvar : n.var <;> cases hprops : n.properties with
  | none => simp
  | some entries =>
    have hlabel : (entries.any fun e => decide (NodeType.NODE_LABEL = e.2.1)) = false := by
      simpa using fun e he => (h entries hprops e he).1
    have hlabels : (entries.any fun e => decide (NodeType.NODE_LABELS = e.2.1)) = false := by
      simpa using fun e he => (h entries hprops e he).2
    simp [hlabel, hlabels]

theorem isAvailable_variable :
    isAvailable .VARIABLE (visitNodePattern n) = (n.var.isSome || n.hasVariableValue) := by
  rw [isAvailable_visitNodePattern n .VARIABLE nofun nofun nofun, hasVariableValue]
  cases n.var <;> simp

end Available

/-! ## The plan of a node -/

section Plan

variable {n : NodePattern Variable} {current result : MatchPlan}

def NodePattern.isBlank {ν : Type} (n : NodePattern ν) : Bool :=
  n.var.isNone && n.labels.isEmpty && n.properties.isNone

/-- A property map without variable and label. -/
def NodePattern.plansNothing {ν : Type} (n : NodePattern ν) : Bool :=
  n.var.isNone && n.labels.isEmpty && n.properties.isSome

/-- The scan for a node. The label of a list of labels is the value of an inner node, which is
empty. -/
def NodePattern.nodeScan (n : NodePattern Variable) : Operator :=
  if n.labels = [] then .allNodeScan (nodeVar n (ascii "var_0"))
  else .nodeScanByLabel n.scanLabel (nodeVar n (ascii "var_0"))

def NodePattern.plan (n : NodePattern Variable) (currentOperator : MatchPlan) : Option MatchPlan :=
  let input := if currentOperator.isNull then .scan n.nodeScan else currentOperator
  match n.properties with
  | none =>
    if n.isBlank then some (.scan (.allNodeScan (ascii "var_0")))
    else if n.labels.length < 2 then some input
    else if currentOperator.isNull then
      some (.scan (.multipleNodeScanByLabel n.labels (ascii "var_0")))
    else some (.filter currentOperator (n.labels.map fun l => (l, labelNode l)))
  | some entries =>
    if n.var.isNone && n.hasVariableValue then none
    else if n.plansNothing then some currentOperator
    else some (.filter input [(nodeVar n (ascii "node_0"), propertiesNode entries)])

theorem orNew_some (current : MatchPlan) (scan : Operator) :
    orNew current (some scan) = some (if current.isNull then .scan scan else current) := by
  unfold orNew
  split <;> rfl

theorem planElement_labels (labels : List Text) (current : MatchPlan) :
    planElement (.internal .NODE_LABELS (labels.map labelNode)) current =
      some (if current.isNull then .scan (.multipleNodeScanByLabel labels (ascii "var_0"))
        else .filter current (labels.map fun l => (l, labelNode l))) := by
  have hlabels : (labels.map labelNode).mapM (fun e => (e.element 0).map value) =
      some labels := mapM_map_eq_some fun l _ => rfl
  have hzip : labels.zip (labels.map labelNode) = labels.map fun l => (l, labelNode l) := by
    rw [List.zip_map_right, List.zip_eq_zipWith, List.zipWith_self, List.map_map]
    rfl
  rw [planElement, nodeType_internal, if_pos rfl, planNodeLabels,
    elements_internal, hlabels, Option.bind_eq_bind, Option.bind_some, hzip]

@[simp] theorem elements_labelNode (l : Text) :
    (labelNode l).elements = [.leaf .SYMBOLIC_WORD l] := rfl

@[simp] theorem nodeType_labelNode (l : Text) : (labelNode l).nodeType = .NODE_LABEL := rfl

@[simp] theorem value_labelNode (l : Text) : (labelNode l).value = [] := rfl

@[simp] theorem value_variableNode (v : Variable) : (variableNode v).value = v.text := rfl

theorem planNodePattern_eq (hn : n.ValuesPlain) (current : MatchPlan) :
    planNodePattern (visitNodePattern n) current = n.plan current := by
  rw [planNodePattern, plan]
  simp only [isAvailable_map, isAvailable_labels hn, isAvailable_variable]
  generalize hvalue : n.hasVariableValue = value
  rcases n with ⟨var, labels, _ | entries⟩
  · obtain rfl : false = value := hvalue
    rcases labels with _ | ⟨l, _ | ⟨l', ls⟩⟩
    case cons.cons =>
      have hlist := planElement_labels (l :: l' :: ls) current
      rw [List.map_cons, List.map_cons] at hlist
      cases var <;> cases hnull : current.isNull <;>
        simp [visitNodePattern, visitNames, element, isBlank, hlist, hnull]
    all_goals
      cases var <;>
        simp [visitNodePattern, visitNames, element, isBlank, orNew_some,
          nodeScan, nodeVar, scanLabel]
  · rcases labels with _ | ⟨l, _ | ⟨l', ls⟩⟩ <;> cases var <;> cases value <;>
      simp [visitNodePattern, visitNames, element, plansNothing, orNew_some,
        nodeScan, nodeVar, scanLabel]

/-! ## Soundness -/

/-- Without an operator, a list of labels has a property map with it; and a property map that becomes
a filter has an entry. -/
def NodePattern.PlanSound {ν : Type} (n : NodePattern ν) (null : Bool) : Prop :=
  (null = true → n.properties = none → n.labels.length < 2) ∧
    (n.properties = some [] → n.plansNothing = true)

theorem sound_filter_map (input : MatchPlan) (v : Text) (entries : Entries) :
    (MatchPlan.filter input [(v, propertiesNode entries)]).Sound ↔ input.Sound ∧ entries ≠ [] := by
  refine and_congr_right fun _ => (printed_properties (some entries) v).trans ?_
  simp

theorem sound_filter_labels (input : MatchPlan) (labels : List Text) :
    (MatchPlan.filter input (labels.map fun l => (l, labelNode l))).Sound ↔ input.Sound := by
  refine and_iff_left fun item hitem => ?_
  obtain ⟨l, -, rfl⟩ := List.mem_map.1 hitem
  exact nofun

theorem sound_nodeScan (n : NodePattern Variable) : (MatchPlan.scan n.nodeScan).Sound := by
  unfold nodeScan
  split <;> exact ⟨trivial, trivial⟩

theorem sound_input (n : NodePattern Variable) (current : MatchPlan) :
    (if current.isNull then .scan n.nodeScan else current).Sound ↔ current.Sound := by
  cases hnull : current.isNull with
  | true =>
    rw [MatchPlan.isNull_eq_true.1 hnull]
    exact iff_of_true (sound_nodeScan n) trivial
  | false => rfl

theorem isNull_input (n : NodePattern Variable) (current : MatchPlan) :
    (if current.isNull then .scan n.nodeScan else current).isNull = false := by
  cases hnull : current.isNull with
  | true => rfl
  | false => exact hnull

/-- **The plan of a node.** It is sound if the node's own part of it is and, unless the node has no
parts, the operator that was there is; it is the null pointer if that was, and the node has nothing
but a property map. -/
theorem NodePattern.plan_spec (h : n.plan current = some result) :
    (result.Sound ↔ n.PlanSound current.isNull ∧ (n.isBlank = true ∨ current.Sound)) ∧
      result.isNull = (current.isNull && n.plansNothing) := by
  rw [plan] at h
  unfold PlanSound
  cases hproperties : n.properties with
  | none =>
    have hnothing : n.plansNothing = false := by simp [plansNothing, hproperties]
    simp only [hproperties] at h
    split at h
    · rename_i hblank
      obtain rfl := Option.some.inj h
      have hlabels : n.labels = [] := by simp_all [isBlank]
      refine ⟨iff_of_true ⟨trivial, trivial⟩ ⟨⟨?_, nofun⟩, .inl hblank⟩, by simp [hnothing]; rfl⟩
      simp [hlabels]
    · rename_i hblank
      split at h
      · rename_i hshort
        obtain rfl := Option.some.inj h
        rw [sound_input, isNull_input]
        simp [hblank, hshort, hnothing]
      · rename_i hlong
        split at h
        all_goals
          rename_i hnull
          obtain rfl := Option.some.inj h
        · refine ⟨iff_of_false (fun h => h.2) ?_, by simp [hnothing]; rfl⟩
          rintro ⟨⟨hshort, -⟩, -⟩
          exact hlong (hshort hnull rfl)
        · rw [sound_filter_labels]
          refine ⟨?_, by simp [hnothing]; rfl⟩
          simp [hblank, hnull]
  | some entries =>
    have hblank : n.isBlank = false := by simp [isBlank, hproperties]
    simp only [hproperties] at h
    split at h
    · exact absurd h nofun
    split at h
    · rename_i hnothing
      obtain rfl := Option.some.inj h
      simp [hblank, hnothing]
    · rename_i hnothing
      obtain rfl := Option.some.inj h
      rw [sound_filter_map, sound_input]
      refine ⟨?_, by simp [hnothing]; rfl⟩
      simp [hblank, hnothing, and_comm]

end Plan

end JasmineGraph.Cypher
