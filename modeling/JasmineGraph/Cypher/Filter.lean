import JasmineGraph.Cypher.Ast

/-!
# The `Filter` operator: from syntax tree to condition

Model of the `Filter` class of `query/processor/cypher/queryplanner/Operators.cpp`.

* A condition is a JSON value that the source prints and parses again at every level. `Condition`
  and `Operand` are those values as data types, `none` an exception or a read past the end of
  `elements`. `Condition.null` is the JSON `null`: what `analyzeWhere` prints for a node type that
  it does not know, and what a plan without a `condition` field is read as.
* The type of a logical condition is a `NodeType`, because the source stores the constant's string.
* In the `XOR` branch the children go to a `vector<string>`. The conversion of a JSON object to a
  string throws, so the branch fails as soon as there is a child.
-/

namespace JasmineGraph.Cypher

open JasmineGraph.Bytes

inductive Operand
  | propertyLookup (var : Text) (property : List Text)
  | propertiesMap (property : Text → Option Text)
  | list (element : List Text)
  | function (functionName : Text) (arguments : List Text)
  | null
  | other (type : NodeType) (value : Text)

def Operand.type : Operand → NodeType
  | propertyLookup _ _ => .PROPERTY_LOOKUP
  | propertiesMap _ => .PROPERTIES_MAP
  | list _ => .LIST
  | function _ _ => .FUNCTION
  | null => .NULL_STRING
  | other t _ => t

/-- The JSON value of a condition. -/
inductive Condition
  | null
  | comparison (left : Operand) (operator : NodeType) (right : Operand)
  | predicate (left : Operand) (operator : NodeType) (right : Operand)
  | logical (type : NodeType) (comparisons : List Condition)

/-! ## Operands -/

def propertyNames : List ASTNode → Option (List Text)
  | [] => some []
  | prop :: rest =>
    if prop.nodeType = .PROPERTY_LOOKUP then do
      let name ← prop.element 0
      let names ← propertyNames rest
      some (if name.nodeType = .RESERVED_WORD then names else name.value :: names)
    else propertyNames rest

def mapEntries : List ASTNode → Option (List (Text × Text))
  | [] => some []
  | prop :: rest => do
    let name ← prop.element 0
    if name.nodeType = .RESERVED_WORD then mapEntries rest
    else do
      let value ← prop.element 1
      let entries ← mapEntries rest
      some ((name.value, value.value) :: entries)

def comparisonOperand (ast : ASTNode) : Option Operand :=
  match ast.nodeType with
  | .NON_ARITHMETIC_OPERATOR => do
    let atom ← ast.element 0
    let property ← propertyNames ast.elements
    some (.propertyLookup atom.value property)
  | .PROPERTIES_MAP => do
    -- `map::insert` keeps the first value of a key
    let entries ← mapEntries ast.elements
    some (.propertiesMap fun key => entries.lookup key)
  | .LIST => some (.list (ast.elements.map ASTNode.value))
  | .FUNCTION_BODY => do
    let name ← (← ast.element 0).element 1
    let arguments ← ast.element 1
    some (.function name.value (arguments.elements.map ASTNode.value))
  | .IS_NOT_NULL | .IS_NULL => some .null
  | t => some (.other t ast.value)

/-! ## `analyzeWhere` -/

/-- The `COMPARISON` branch of `analyzeWhere`: the first two elements are read, whatever follows
them. -/
def analyzeComparison (elements : List ASTNode) : Option Condition := do
  let left ← elements[0]?
  let oparator ← elements[1]?
  let right ← oparator.element 0
  some (.comparison (← comparisonOperand left) oparator.nodeType (← comparisonOperand right))

def analyzePredicate (elements : List ASTNode) : Option Condition := do
  let left ← elements[0]?
  let opr ← elements[1]?
  let right ← opr.element 0
  let operator :=
    if right.nodeType = .IS_NOT_NULL then NodeType.GREATER_THAN_LOWER_THAN else .DOUBLE_EQUAL
  some (.predicate (← comparisonOperand left) operator (← comparisonOperand right))

mutual

/-- `Filter::analyzeWhere`. -/
def analyzeWhere : ASTNode → Option Condition
  | .mk nodeType _ elements =>
    if nodeType = .OR then (analyzeAll elements).map (.logical .OR)
    else if nodeType = .AND then (analyzeAll elements).map (.logical .AND)
    else if nodeType = .XOR then
      -- `vector<string>::push_back` of a JSON object throws
      if elements.isEmpty then some (.logical .XOR []) else none
    else if nodeType = Const.NOT then (analyzeAll elements).map (.logical Const.NOT)
    else if nodeType = .COMPARISON then analyzeComparison elements
    else if nodeType = .PREDICATE_EXPRESSIONS then analyzePredicate elements
    else some .null

def analyzeAll : List ASTNode → Option (List Condition)
  | [] => some []
  | element :: rest => do
    let condition ← analyzeWhere element
    let conditions ← analyzeAll rest
    some (condition :: conditions)

end

theorem analyzeAll_eq_mapM (es : List ASTNode) : analyzeAll es = es.mapM analyzeWhere := by
  induction es with
  | nil => rfl
  | cons e es ih =>
    rw [analyzeAll, ih, List.mapM_cons]
    rfl

@[simp] theorem analyzeWhere_or (es : List ASTNode) :
    analyzeWhere (.internal .OR es) = (es.mapM analyzeWhere).map (.logical .OR) := by
  rw [← analyzeAll_eq_mapM]
  rfl

@[simp] theorem analyzeWhere_and (es : List ASTNode) :
    analyzeWhere (.internal .AND es) = (es.mapM analyzeWhere).map (.logical .AND) := by
  rw [← analyzeAll_eq_mapM]
  rfl

@[simp] theorem analyzeWhere_xor (e : ASTNode) (es : List ASTNode) :
    analyzeWhere (.internal .XOR (e :: es)) = none := rfl

@[simp] theorem analyzeWhere_not (es : List ASTNode) : analyzeWhere (.internal Const.NOT es) =
      (es.mapM analyzeWhere).map (.logical .RETURN_BODY) := by
  rw [← analyzeAll_eq_mapM]
  rfl

/-! ## Labels and property maps -/

def propertyTest (var name : Text) (type : NodeType) (value : Text) : Condition :=
  .comparison (.propertyLookup var [name]) .DOUBLE_EQUAL (.other type value)

def analyzeNodeLabels (item : Text × ASTNode) : Option Condition := do
  let label ← item.2.element 0
  some (propertyTest item.1 (ascii "label") .STRING label.value)

def analyzeProperty (var : Text) (prop : ASTNode) : Option Condition := do
  let name ← prop.element 0
  let value ← prop.element 1
  some (propertyTest var name.value value.nodeType value.value)

def analyzePropertiesMap (item : Text × ASTNode) : Option Condition :=
  if item.2.elements.length > 1 then
    (item.2.elements.mapM (analyzeProperty item.1)).map (.logical .AND)
  else item.2.element 0 >>= analyzeProperty item.1

/-! ## `execute` -/

/-- What `execute` makes of one filter case: a condition, `some none` for a node type that it has
no branch for. -/
def analyzeCase (item : Text × ASTNode) : Option (Option Condition) :=
  match item.2.nodeType with
  | .WHERE => (item.2.element 0 >>= analyzeWhere).map some
  | .PROPERTIES_MAP => (analyzePropertiesMap item).map some
  | .NODE_LABEL => (analyzeNodeLabels item).map some
  | _ => some none

/-- One turn of the loop of `execute`: a case that has a branch overwrites `filter["condition"]`. -/
def overwrite (condition : Condition) (item : Text × ASTNode) : Option Condition :=
  (analyzeCase item).map (·.getD condition)

def Filter.execute (filterCases : List (Text × ASTNode)) : Option Condition :=
  filterCases.foldlM overwrite .null

end JasmineGraph.Cypher
