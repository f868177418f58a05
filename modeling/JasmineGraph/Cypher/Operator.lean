import JasmineGraph.Cypher.Pattern

/-!
# Operators of an execution plan

The operators that the planner chains together (`queryplanner/Operators.h`), as far as patterns are
planned with them: the scans, `NodeByIdSeek`, `ExpandAll`, `Filter` and `CartesianProduct`. Each
operator holds its input, as the source's classes hold a pointer to it.

* `vars` are the variables that an operator and the ones below it bind; `relationships` are the
  relationships among them, with the parameters that `execute` prints.
* `BindsBeforeUse` says of a plan that every variable an operator reads is bound below it.
* `filterCases` are the cases of the filters of a plan.
-/

namespace JasmineGraph.Cypher

open JasmineGraph.Bytes

/-- The directions `"left"` and `"right"` of the plan. -/
inductive Direction
  | left | right
  deriving DecidableEq, Repr

/-- A plan: an operator over its inputs. The direction of `ExpandAll` is `""` when not given. -/
inductive Operator
  | allNodeScan (var : Text)
  | nodeScanByLabel (label var : Text)
  | multipleNodeScanByLabel (labels : List Text) (var : Text)
  | nodeByIdSeek (id var : Text)
  | undirectedRelationshipTypeScan (relType relVar startVar endVar : Text)
  | directedRelationshipTypeScan (direction : Direction) (relType relVar startVar endVar : Text)
  | undirectedAllRelationshipScan (startVar endVar relVar : Text)
  | directedAllRelationshipScan (direction : Direction) (startVar endVar relVar : Text)
  | expandAll (input : Operator) (startVar destVar relVar relType : Text)
      (direction : Option Direction)
  | filter (input : Operator) (cases : List (Text × ASTNode))
  | cartesianProduct (left right : Operator)

mutual

def ASTNode.variables : ASTNode → List Text
  | .mk nodeType value elements =>
    if nodeType = .VARIABLE then [value] else variablesAll elements

def variablesAll : List ASTNode → List Text
  | [] => []
  | e :: es => e.variables ++ variablesAll es

end

/-- The variables a filter case mentions: those of the tree of a `WHERE`, and the variable that a
label or a property map constrains. -/
def caseVariables (item : Text × ASTNode) : List Text :=
  if item.2.nodeType = .WHERE then item.2.variables else [item.1]

@[simp] theorem caseVariables_prepareWhereClause (v var1 var2 : Text) :
    caseVariables (v, prepareWhereClause var1 var2) = [var1, var2] := rfl

/-- A relationship as an operator binds it: its variable, the variables of the two nodes, and the
type and the direction that the operator asks for. -/
structure RelationshipBinding where
  relVar : Text
  startVar : Text
  destVar : Text
  relType : Option Text
  direction : Option Direction

def printedType (relType : Text) : Option Text :=
  if relType = ascii "null" then none else some relType

namespace Operator

def vars : Operator → List Text
  | allNodeScan var | nodeScanByLabel _ var | multipleNodeScanByLabel _ var
  | nodeByIdSeek _ var => [var]
  | undirectedRelationshipTypeScan _ relVar startVar endVar
  | directedRelationshipTypeScan _ _ relVar startVar endVar
  | undirectedAllRelationshipScan startVar endVar relVar
  | directedAllRelationshipScan _ startVar endVar relVar => [startVar, relVar, endVar]
  | expandAll input _ destVar relVar _ _ => input.vars ++ [relVar, destVar]
  | filter input _ => input.vars
  | cartesianProduct left right => left.vars ++ right.vars

def relationships : Operator → List RelationshipBinding
  | undirectedRelationshipTypeScan relType relVar startVar endVar =>
    [⟨relVar, startVar, endVar, some relType, none⟩]
  | directedRelationshipTypeScan direction relType relVar startVar endVar =>
    [⟨relVar, startVar, endVar, some relType, some direction⟩]
  | undirectedAllRelationshipScan startVar endVar relVar => [⟨relVar, startVar, endVar, none, none⟩]
  | directedAllRelationshipScan direction startVar endVar relVar =>
    [⟨relVar, startVar, endVar, none, some direction⟩]
  | expandAll input startVar destVar relVar relType direction =>
    input.relationships ++ [⟨relVar, startVar, destVar, printedType relType, direction⟩]
  | filter input _ => input.relationships
  | cartesianProduct left right => left.relationships ++ right.relationships
  | _ => []

def relVars (op : Operator) : List Text := op.relationships.map RelationshipBinding.relVar

/-- Every variable that an `ExpandAll` starts from or a filter case mentions is bound below. -/
def BindsBeforeUse : Operator → Prop
  | expandAll input startVar _ _ _ _ => startVar ∈ input.vars ∧ input.BindsBeforeUse
  | filter input cases =>
    (∀ item ∈ cases, ∀ v ∈ caseVariables item, v ∈ input.vars) ∧ input.BindsBeforeUse
  | cartesianProduct left right => left.BindsBeforeUse ∧ right.BindsBeforeUse
  | _ => True

def filterCases : Operator → List (Text × ASTNode)
  | expandAll input _ _ _ _ _ => input.filterCases
  | filter input cases => input.filterCases ++ cases
  | cartesianProduct left right => left.filterCases ++ right.filterCases
  | _ => []

end Operator

/-- `if (!filterCases.empty()) inputOperator = new Filter(inputOperator, filterCases)`. -/
def withFilter (op : Operator) (cases : List (Text × ASTNode)) : Operator :=
  if cases.isEmpty then op else .filter op cases

@[simp] theorem vars_withFilter (op : Operator) (cases : List (Text × ASTNode)) :
    (withFilter op cases).vars = op.vars := by
  unfold withFilter
  split <;> rfl

@[simp] theorem relationships_withFilter (op : Operator) (cases : List (Text × ASTNode)) :
    (withFilter op cases).relationships = op.relationships := by
  unfold withFilter
  split <;> rfl

@[simp] theorem filterCases_withFilter (op : Operator) (cases : List (Text × ASTNode)) :
    (withFilter op cases).filterCases = op.filterCases ++ cases := by
  unfold withFilter
  split
  · rename_i h
    rw [List.isEmpty_iff.1 h, List.append_nil]
  · rfl

@[simp] theorem bindsBeforeUse_withFilter (op : Operator) (cases : List (Text × ASTNode)) :
    (withFilter op cases).BindsBeforeUse ↔
      (∀ item ∈ cases, ∀ v ∈ caseVariables item, v ∈ op.vars) ∧ op.BindsBeforeUse := by
  unfold withFilter
  split
  · rename_i h
    rw [List.isEmpty_iff.1 h]
    exact (and_iff_right nofun).symm
  · rfl

end JasmineGraph.Cypher
