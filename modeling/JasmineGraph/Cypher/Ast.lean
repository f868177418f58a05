import JasmineGraph.Bytes.Text

/-!
# The Cypher syntax tree and the expressions `ASTBuilder` folds into it

Model of `ASTNode` (`query/processor/cypher/astbuilder/ASTNode.h`, with `ASTInternalNode`,
`ASTLeafValue` and `ASTLeafNoValue`), of the node types of `util/Const.cpp`, and of the expression
visitors of `ASTBuilder.cpp` that build a `WHERE` tree.

* Node types are strings in the source. Two constants can hold one string, and one does here:
  `Const::NOT` is the string `"RETURN_BODY"`. `NodeType` therefore enumerates the *strings*, and
  `Const.NOT` is the constructor `RETURN_BODY`; the constructor `NOT` is the string `"NOT"`, which
  the evaluator tests for and which no constant holds.
* `Expression α` is the parse tree of an expression over atoms `α`: the levels of the grammar
  (`oC_OrExpression` over `oC_XorExpression` over `oC_AndExpression` over `oC_NotExpression`), with
  parentheses leading back to the top level. A level with one child returns that child's node.
* `Expression.fold` is the one recursion over parse trees; the visitors, the Boolean value of an
  expression and its shape are instances of it.
-/

namespace JasmineGraph.Cypher

open JasmineGraph.Bytes

/-- Text of the query or of the plan: `std::string`. -/
abbrev Text := List UInt8

/-- The strings that serve as node types and as `type` fields in the modelled code. -/
inductive NodeType
  | WHERE | RETURN_BODY | OR | XOR | AND | NOT
  | COMPARISON | GREATER_THAN | GREATER_THAN_LOWER_THAN | DOUBLE_EQUAL | LOWER_THAN
  | GREATER_THAN_OR_EQUAL | LOWER_THAN_OR_EQUAL
  | PREDICATE_EXPRESSIONS | STRING_PREDICATES | LIST_PREDICATES | NULL_PREDICATES
  | IS_NOT_NULL | IS_NULL
  | ADD_OR_SUBSTRACT | MULTIPLY_DIVID_MODULO | POWER_OF
  | NON_ARITHMETIC_OPERATOR | PROPERTY_LOOKUP
  | FUNCTION_BODY | FUNCTION | FUNCTION_NAME | NAMESPACE | ARGUMENTS
  | VARIABLE | NULL_STRING | STRING | BOOLEAN | DECIMAL | LIST | PROPERTIES_MAP | PROPERTY
  | PARAMETER | SYMBOLIC_WORD | RESERVED_WORD
  | PATTERN | PATTERN_ELEMENTS | PATTERN_ELEMENT_CHAIN | NODE_PATTERN | RELATIONSHIP_PATTTERN
  | UNIDIRECTION_ARROW | LEFT_ARRROW | RIGHT_ARROW
  | RELATIONSHIP_DETAILS | RELATIONSHIP_TYPES | RELATIONSHIP_TYPE
  | NODE_LABELS | NODE_LABEL | RANGE | EQUAL
  | RETURN | DISTINCT | AS | ORDERED_BY | ASC | DESC | SKIP | LIMIT
  deriving DecidableEq, Repr

def Const.NOT : NodeType := .RETURN_BODY

inductive ASTNode
  | mk (nodeType : NodeType) (value : Text) (elements : List ASTNode)

namespace ASTNode

def nodeType : ASTNode → NodeType
  | mk t _ _ => t

def value : ASTNode → Text
  | mk _ v _ => v

def elements : ASTNode → List ASTNode
  | mk _ _ es => es

/-- `elements[i]`, `none` where the index is out of range. -/
def element (n : ASTNode) (i : Nat) : Option ASTNode := n.elements[i]?

def internal (t : NodeType) (es : List ASTNode) : ASTNode := mk t [] es

def leaf (t : NodeType) (v : Text) : ASTNode := mk t v []

@[simp] theorem nodeType_internal (t : NodeType) (es : List ASTNode) :
    (internal t es).nodeType = t := rfl

@[simp] theorem elements_internal (t : NodeType) (es : List ASTNode) :
    (internal t es).elements = es := rfl

@[simp] theorem nodeType_leaf (t : NodeType) (v : Text) : (leaf t v).nodeType = t := rfl

@[simp] theorem value_leaf (t : NodeType) (v : Text) : (leaf t v).value = v := rfl

end ASTNode

/-! ## Parse trees -/

/-- The levels of the grammar that join two or more expressions. -/
inductive Connective
  | or | xor | and
  deriving DecidableEq, Repr

/-- The parse tree of an expression over atoms `α`. `not n e` has `n` times the word `NOT`. -/
inductive Expression (α : Type)
  | atom (a : α)
  | level (c : Connective) (first : Expression α) (rest : List (Expression α))
  | not (count : Nat) (e : Expression α)

/-- What each level of the grammar makes of the results for its children. -/
structure Levels (α β : Type) where
  atom : α → β
  level : Connective → β → List β → β
  not : Nat → β → β

namespace Expression

variable {α β γ : Type}

mutual

/-- The recursion over a parse tree. -/
def fold (L : Levels α β) : Expression α → β
  | .atom a => L.atom a
  | .level c e es => L.level c (fold L e) (foldAll L es)
  | .not n e => L.not n (fold L e)

def foldAll (L : Levels α β) : List (Expression α) → List β
  | [] => []
  | e :: es => fold L e :: foldAll L es

end

theorem foldAll_eq_map (L : Levels α β) (es : List (Expression α)) :
    foldAll L es = es.map (fold L) := by
  induction es with
  | nil => rfl
  | cons e es ih => rw [foldAll, ih, List.map_cons]

@[simp] theorem fold_atom (L : Levels α β) (a : α) : fold L (.atom a) = L.atom a := rfl

@[simp] theorem fold_level (L : Levels α β) (c : Connective) (e : Expression α)
    (es : List (Expression α)) :
    fold L (.level c e es) = L.level c (fold L e) (es.map (fold L)) := by
  rw [fold, foldAll_eq_map]

@[simp] theorem fold_not (L : Levels α β) (n : Nat) (e : Expression α) :
    fold L (.not n e) = L.not n (fold L e) := rfl

/-- Induction over parse trees, with the hypothesis for every member of a level. -/
theorem inductionOn {motive : Expression α → Prop} (atom : ∀ a, motive (.atom a))
    (level : ∀ c e es, (∀ x ∈ e :: es, motive x) → motive (.level c e es))
    (not : ∀ n e, motive e → motive (.not n e)) (e : Expression α) : motive e :=
  @Expression.rec α motive (fun es => ∀ x ∈ es, motive x) atom
    (fun c e es he hes => level c e es (List.forall_mem_cons.2 ⟨he, hes⟩)) not nofun
    (fun _ _ he hes => List.forall_mem_cons.2 ⟨he, hes⟩) e

def map (f : α → β) : Expression α → Expression β :=
  fold { atom := fun a => .atom (f a), level := .level, not := .not }

/-- A fold after a replacement of the atoms is the fold with the replacement in its atom case. -/
theorem fold_map (L : Levels β γ) (f : α → β) (e : Expression α) :
    fold L (map f e) = fold { L with atom := fun a => L.atom (f a) } e := by
  induction e using Expression.inductionOn with
  | atom a => rfl
  | level c e es ih =>
    rw [List.forall_mem_cons] at ih
    rw [map, fold_level, fold_level, fold_level, List.map_map]
    congr 1
    · exact ih.1
    · exact List.map_congr_left ih.2
  | not n e ih => exact congrArg (L.not n) ih

/-! ## What an expression says -/

end Expression

/-- The value of a level: `XOR` is parity. -/
def Connective.combine : Connective → Bool → List Bool → Bool
  | or, b, bs => (b :: bs).any id
  | xor, b, bs => bs.foldl Bool.xor b
  | and, b, bs => (b :: bs).all id

namespace Expression

variable {α : Type}

/-- The Boolean value of an expression; an even number of `NOT`s is none. -/
def value (val : α → Bool) : Expression α → Bool :=
  fold
    { atom := val, level := Connective.combine, not := fun n b => if n % 2 = 0 then b else !b }

def atoms : Expression α → List α :=
  fold
    { atom := fun a => [a], level := fun _ l ls => (l :: ls).flatten, not := fun _ l => l }

/-- The connectives of an expression, without its atoms. -/
def shape (e : Expression α) : Expression Unit := e.map fun _ => ()

end Expression

/-! ## The visitors of the Boolean levels -/

/-- A level of the grammar with its own node type: the node is built for two children or more. -/
def visitLevel (t : NodeType) (first : ASTNode) (rest : List ASTNode) : ASTNode :=
  if rest.isEmpty then first else .internal t (first :: rest)

def visitOrExpression : ASTNode → List ASTNode → ASTNode := visitLevel .OR

def visitXorExpression : ASTNode → List ASTNode → ASTNode := visitLevel .XOR

def visitAndExpression : ASTNode → List ASTNode → ASTNode := visitLevel .AND

/-- `visitOC_NotExpression`: a node for an odd number of `NOT`s, none for an even one. -/
def visitNotExpression (count : Nat) (e : ASTNode) : ASTNode :=
  if count % 2 = 0 then e else .internal Const.NOT [e]

def visitExpression {α : Type} (visitAtom : α → ASTNode) : Expression α → ASTNode :=
  Expression.fold
    { atom := visitAtom
      level := fun
        | .or => visitOrExpression
        | .xor => visitXorExpression
        | .and => visitAndExpression
      not := visitNotExpression }

/-! ## The visitors of a comparison -/

/-- The comparison operators of the grammar. -/
inductive Sign
  | eq | ne | lt | gt | le | ge
  deriving DecidableEq, Repr

def Sign.text : Sign → Text
  | eq => ascii "="
  | ne => ascii "<>"
  | lt => ascii "<"
  | gt => ascii ">"
  | le => ascii "<="
  | ge => ascii ">="

def Sign.nodeType : Sign → NodeType
  | eq => .DOUBLE_EQUAL
  | ne => .GREATER_THAN_LOWER_THAN
  | lt => .LOWER_THAN
  | gt => .GREATER_THAN
  | le => .LOWER_THAN_OR_EQUAL
  | ge => .GREATER_THAN_OR_EQUAL

/-- `oC_PartialComparisonExpression`: the operator, the text that follows it (spaces and the
operand's own text) and the node that the visitor of the operand returns. -/
structure PartialComparison where
  sign : Sign
  rest : Text
  operand : ASTNode

def PartialComparison.getText (p : PartialComparison) : Text := p.sign.text ++ p.rest

/-- `oC_ComparisonExpression` with at least one partial comparison. -/
structure Comparison where
  left : ASTNode
  first : PartialComparison
  rest : List PartialComparison

/-- `s.find(pattern) != string::npos`. -/
def Text.contains (pattern : Text) : Text → Bool
  | [] => pattern.isEmpty
  | b :: s => pattern.isPrefixOf (b :: s) || Text.contains pattern s

/-- The tests of `visitOC_PartialComparisonExpression`, in the order of the source. -/
def recoverOperator (text : Text) : NodeType :=
  if Text.contains (ascii "<>") text then .GREATER_THAN_LOWER_THAN
  else if Text.contains (ascii ">") text then .GREATER_THAN
  else if Text.contains (ascii "=") text then .DOUBLE_EQUAL
  else if Text.contains (ascii "<") text then .LOWER_THAN
  else if Text.contains (ascii ">=") text then .GREATER_THAN_OR_EQUAL
  else .LOWER_THAN_OR_EQUAL

def visitPartialComparisonExpression (p : PartialComparison) : ASTNode :=
  .internal (recoverOperator p.getText) [p.operand]

def visitComparisonExpression (c : Comparison) : ASTNode :=
  .internal .COMPARISON
    (c.left :: (c.first :: c.rest).map visitPartialComparisonExpression)

end JasmineGraph.Cypher
