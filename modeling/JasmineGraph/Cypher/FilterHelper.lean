import JasmineGraph.Cypher.Filter

/-!
# `FilterHelper`: evaluating a condition on a row

Model of the class `FilterHelper` of `query/processor/cypher/runtime/Helpers.cpp`.

* A row is a JSON object from variables to what is bound to them: nothing, a node or relationship
  with its properties, or another value. Properties are JSON values; the code uses them as strings
  only, so any other value is kept as its text (`Json.other`).
* `none` is an exception that leaves the evaluator: a `type_error` of the JSON library, a failed
  `stoi` outside of a `try`, or the read of a key that is not there through a `const json &`.
* The loops of `evaluateLogical` stop at the first child that decides (`AND`, `OR`) or run through
  all of them (`XOR`); the `NOT` branch returns the value of its first child as it is.
-/

namespace JasmineGraph.Cypher

open JasmineGraph.Bytes

inductive ValueType
  | string (s : Text)
  | int (n : Int)
  | bool (b : Bool)
  deriving DecidableEq

/-- A JSON value as a property: `null`, a string, or anything else by its text. -/
inductive Json
  | null
  | string (s : Text)
  | other (dump : Text)
  deriving DecidableEq

/-- What a row holds for a variable. -/
inductive Cell
  | null
  | object (member : Text → Option Json)
  | other

/-- The data a condition is evaluated on. -/
abbrev Row := Text → Option Cell

def nullText : Text := ascii "null"

/-! ## Operands -/

/-- `stoi(value, &pos)` with the test that `pos` is the end of the text. -/
def stoiWhole (value : Text) : Option Int :=
  if (takeSign (value.dropWhile isSpace)).2.all isDigit then stoi value else none

def toLower (b : UInt8) : UInt8 := if 65 ≤ b ∧ b ≤ 90 then b + 32 else b

/-- The conversion that a looked-up value goes through, by the type of the other operand. An
exception inside it is caught and gives the text `"null"`. -/
def convertValue (value : Text) : NodeType → ValueType
  | .DECIMAL => (stoiWhole value).elim (.string nullText) .int
  | .BOOLEAN =>
    if value.map toLower = ascii "true" then .bool true
    else if value.map toLower = ascii "false" then .bool false
    else .string nullText
  | _ => .string value

/-- One turn of the loop over the property names. -/
def lookupProperty (data : Cell) (p : Text) : Option Text :=
  match data with
  | .object member =>
    match member p with
    | none => some nullText
    | some (.string s) => some s
    | some _ => none
  | _ => some nullText

/-- `FilterHelper::evaluatePropertyLookup`: the last name decides. -/
def evaluatePropertyLookup (property : List Text) (data : Cell) (type : NodeType) :
    Option ValueType := do
  let value ← property.foldlM (fun _ p => lookupProperty data p) []
  some (convertValue value type)

def idOf (row : Row) (arg : Text) : Option Text :=
  match row arg with
  | some (.object member) =>
    match member (ascii "id") with
    | some (.string s) => some s
    | _ => none
  | _ => none

def evaluateFunction (functionName : Text) (arguments : List Text) (row : Row)
    (type : NodeType) : Option ValueType := do
  let arg ← arguments[0]?
  let value ← if functionName = ascii "id" then idOf row arg else some []
  some (if type = .NULL_STRING then .string nullText else convertValue value type)

/-- The text of a string literal without its single quotes. -/
def unquote (s : Text) : Text :=
  if 2 ≤ s.length ∧ s.head? = some 39 ∧ s.getLast? = some 39 then s.tail.dropLast else s

def evaluateOtherTypes : Operand → Option ValueType
  | .other .STRING v => some (.string (unquote v))
  | .other .DECIMAL v => (stoi v).map .int
  | .other .BOOLEAN v => some (.bool (v = ascii "TRUE"))
  | .other .NULL_STRING _ | .null => some (.string nullText)
  | _ => some (.string [])

def evaluateOperand (operand : Operand) (row : Row) (otherType : NodeType) : Option ValueType :=
  match operand with
  | .propertyLookup var property => do
    evaluatePropertyLookup property (← row var) otherType
  | .function functionName arguments => evaluateFunction functionName arguments row otherType
  | _ => evaluateOtherTypes operand

/-! ## Comparisons -/

def compareArithmetic (operator : NodeType) (l r : Int) : Bool :=
  match operator with
  | .DOUBLE_EQUAL => l = r
  | .GREATER_THAN_LOWER_THAN => l ≠ r
  | .LOWER_THAN => l < r
  | .GREATER_THAN => r < l
  | .LOWER_THAN_OR_EQUAL => l ≤ r
  | .GREATER_THAN_OR_EQUAL => r ≤ l
  | _ => false

/-- The visitor of the two variants: false unless both hold the same alternative. -/
def compareValues (operator : NodeType) : ValueType → ValueType → Bool
  | .string l, .string r =>
    match operator with
    | .DOUBLE_EQUAL => l = r
    | .GREATER_THAN_LOWER_THAN => l ≠ r
    | _ => false
  | .int l, .int r => compareArithmetic operator l r
  | .bool l, .bool r => compareArithmetic operator l.toInt r.toInt
  | _, _ => false

def typeCheck (left right : NodeType) : Bool :=
  left = .PROPERTY_LOOKUP || right = .PROPERTY_LOOKUP || left = .FUNCTION || right = .FUNCTION ||
    left = right

/-- `FilterHelper::evaluateNodes`: true when the two ids differ or one side is `null`. -/
def evaluateNodes : Cell → Cell → Option Bool
  | .null, _ | _, .null => some true
  | .object l, .object r =>
    some (decide ((l (ascii "id")).getD .null ≠ (r (ascii "id")).getD .null))
  | _, _ => none

/-- What `evaluateComparison` and `evaluatePredicateExpression` share; they differ in how the right
operand is evaluated. Two variables are compared by `evaluateNodes`, whatever the operator. -/
def evaluateWith (evaluateRight : Option ValueType) (left : Operand) (operator : NodeType)
    (right : Operand) (row : Row) : Option Bool :=
  if typeCheck left.type right.type then
    match left, right with
    | .other .VARIABLE l, .other .VARIABLE r =>
      evaluateNodes ((row l).getD .null) ((row r).getD .null)
    | _, _ => do
      let l ← evaluateOperand left row right.type
      let r ← evaluateRight
      some (compareValues operator l r)
  else some false

def evaluateComparison (left : Operand) (operator : NodeType) (right : Operand) (row : Row) :
    Option Bool :=
  evaluateWith (evaluateOperand right row left.type) left operator right row

def evaluatePredicateExpression (left : Operand) (operator : NodeType) (right : Operand)
    (row : Row) : Option Bool :=
  evaluateWith (evaluateOtherTypes right) left operator right row

/-! ## Conditions -/

mutual

/-- `FilterHelper::evaluateCondition`, with `evaluateLogical` for the logical types. -/
def evaluateCondition (row : Row) : Condition → Option Bool
  | .null => none
  | .comparison left operator right => evaluateComparison left operator right row
  | .predicate left operator right => evaluatePredicateExpression left operator right row
  | .logical type comparisons =>
    if type = .AND then evaluateAnd row comparisons
    else if type = .OR then evaluateOr row comparisons
    else if type = .XOR then
      if comparisons.length < 2 then some false else evaluateXor row comparisons
    else if type = .NOT then evaluateFirst row comparisons
    else some false

def evaluateAnd (row : Row) : List Condition → Option Bool
  | [] => some true
  | c :: cs => do if ← evaluateCondition row c then evaluateAnd row cs else some false

def evaluateOr (row : Row) : List Condition → Option Bool
  | [] => some false
  | c :: cs => do if ← evaluateCondition row c then some true else evaluateOr row cs

def evaluateXor (row : Row) : List Condition → Option Bool
  | [] => some false
  | c :: cs => do some ((← evaluateCondition row c) ^^ (← evaluateXor row cs))

def evaluateFirst (row : Row) : List Condition → Option Bool
  | [] => none
  | c :: _ => evaluateCondition row c

end

section Loops

variable {α : Type} {row : Row} {cond : α → Condition} {val : α → Bool}

theorem evaluateAnd_eq_all {l : List α}
    (h : ∀ a ∈ l, evaluateCondition row (cond a) = some (val a)) :
    evaluateAnd row (l.map cond) = some (l.all val) := by
  induction l with
  | nil => rfl
  | cons a l ih =>
    rw [List.map_cons, evaluateAnd, h a List.mem_cons_self,
      ih fun b hb => h b (List.mem_cons_of_mem a hb), List.all_cons]
    cases val a <;> rfl

theorem evaluateOr_eq_any {l : List α}
    (h : ∀ a ∈ l, evaluateCondition row (cond a) = some (val a)) :
    evaluateOr row (l.map cond) = some (l.any val) := by
  induction l with
  | nil => rfl
  | cons a l ih =>
    rw [List.map_cons, evaluateOr, h a List.mem_cons_self,
      ih fun b hb => h b (List.mem_cons_of_mem a hb), List.any_cons]
    cases val a <;> rfl

end Loops

end JasmineGraph.Cypher
