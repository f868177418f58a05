import JasmineGraph.Lexicographic
import JasmineGraph.Cypher.Aggregation
import JasmineGraph.Cypher.PlanText

/-!
# The plan of a `RETURN`

Model of `visitOC_ProjectionBody`, `visitOC_Order` and `visitOC_SortItem` (`ASTBuilder.cpp`), of the
branches `RETURN` and `RETURN_BODY` of `QueryPlanner::createExecutionPlan` with the tree searches
`isAvailable` and `getSubTreeListByNodeType`, and of `execute` of the operators that they make
(`Operators.cpp`).

* The columns come first and end in a `ProduceResults`. `ORDER BY`, `SKIP` and `LIMIT` are then put
  below it, each on top of the one before.
* Of the items of an `ORDER BY` the planner reads the first. A sort item without a keyword has the
  node type `DESC`.
* `Limit::execute` and `Skip::execute` run their input and return the empty string.
* The null pointer is a plan: `temp_opt` before an operator is made, and the plan of no pattern.
  Most operators test their input; `CacheProperty`, `AggregationFunction`, `Limit` and `Skip` do
  not.
* Next to the text, `execute` gives the operators that assign the aggregation settings, in the order
  in which they are printed.
* A `ReturnClause` holds the trees of its columns with what the builder guarantees about them. What
  the columns may be beyond that is free.
-/

namespace JasmineGraph.Cypher

open JasmineGraph.Bytes List Option ASTNode PlanText
open JasmineGraph.Lexicographic

/-! ## Searches in a syntax tree -/

mutual

def isAvailable (nodeType : NodeType) : ASTNode → Bool
  | .mk t _ elements => t = nodeType || isAvailableIn nodeType elements

def isAvailableIn (nodeType : NodeType) : List ASTNode → Bool
  | [] => false
  | e :: es => isAvailable nodeType e || isAvailableIn nodeType es

end

mutual

/-- `QueryPlanner::getSubTreeListByNodeType`: a subtree that is found is not searched further. -/
def getSubTreeListByNodeType (nodeType : NodeType) : ASTNode → List ASTNode
  | .mk _ _ elements => subTreesIn nodeType elements

def subTreesIn (nodeType : NodeType) : List ASTNode → List ASTNode
  | [] => []
  | e :: es =>
    (if e.nodeType = nodeType then [e] else getSubTreeListByNodeType nodeType e) ++
      subTreesIn nodeType es

end

theorem mem_subTreesIn {t : NodeType} {x : ASTNode} {es : List ASTNode} : x ∈ subTreesIn t es ↔
      ∃ e ∈ es, x ∈ if e.nodeType = t then [e] else getSubTreeListByNodeType t e := by
  induction es with
  | nil => simp [subTreesIn]
  | cons e es ih => simp [subTreesIn, ih]

/-! ## Parts that `execute` reads -/

namespace ASTNode

/-- `elements[0]->value` and `elements[1]->elements[0]->value`, the variable and the property of a
property lookup. -/
def lookup (n : ASTNode) : Option (Text × Text) := do
  let var ← n.element 0
  let property ← (← n.element 1).element 0
  some (var.value, property.value)

def functionName (n : ASTNode) : Option Text := do
  let name ← (← n.element 0).element 1
  some name.value

def firstArgument (n : ASTNode) : Option ASTNode := do
  (← n.element 1).element 0

def isLookup : ASTNode → Bool
  | mk _ _ (_ :: mk _ _ (_ :: _) :: _) => true
  | _ => false

/-- The node has the parts of a function with a name. -/
def isNamed : ASTNode → Bool
  | mk _ _ (mk _ _ (_ :: _ :: _) :: _) => true
  | _ => false

/-- The node has the parts of a function whose first argument is a property lookup. -/
def callsLookup : ASTNode → Bool
  | mk _ _ (_ :: mk _ _ (argument :: _) :: _) => argument.isLookup
  | _ => false

theorem isSome_lookup (n : ASTNode) : n.lookup.isSome = n.isLookup := by
  rcases n with ⟨_, _, _ | ⟨_, _ | ⟨⟨_, _, _ | ⟨_, _⟩⟩, _⟩⟩⟩ <;> rfl

theorem isSome_functionName (n : ASTNode) : n.functionName.isSome = n.isNamed := by
  rcases n with ⟨_, _, _ | ⟨⟨_, _, _ | ⟨_, _ | ⟨_, _⟩⟩⟩, _⟩⟩ <;> rfl

theorem isSome_firstArgument_lookup (n : ASTNode) :
    (n.firstArgument >>= lookup).isSome = n.callsLookup := by
  rcases n with ⟨_, _, _ | ⟨_, _ | ⟨⟨_, _, _ | ⟨argument, _⟩⟩, _⟩⟩⟩
  · rfl
  · rfl
  · rfl
  · exact isSome_lookup argument

end ASTNode

def lookupName (l : Text × Text) : Text := l.1 ++ ascii "." ++ l.2

/-! ## The syntax tree of a `RETURN` -/

/-- The keywords of a sort item. -/
inductive SortKeyword
  | asc | desc
  deriving DecidableEq, Repr

/-- `oC_SortItem`. -/
structure SortItem where
  expression : ASTNode
  keyword : Option SortKeyword
  lookup : expression.nodeType = .NON_ARITHMETIC_OPERATOR → expression.isLookup

def visitSortItem (s : SortItem) : ASTNode :=
  if s.keyword = some .asc then .internal .ASC [s.expression] else .internal .DESC [s.expression]

def functionsOf (items : List ASTNode) : List ASTNode :=
  getSubTreeListByNodeType .FUNCTION_BODY (.internal .RETURN_BODY items)

/-- `oC_ProjectionBody`: the trees of its items, and what the builder guarantees about them. -/
structure ReturnClause where
  distinct : Bool
  items : List ASTNode
  order : Option (SortItem × List SortItem)
  skip : Option ASTNode
  limit : Option ASTNode
  aliases : ∀ n ∈ items, n.nodeType = .AS → n.elements.length = 2
  lookups : ∀ n ∈ items, n.nodeType = .NON_ARITHMETIC_OPERATOR → n.isLookup
  named : ∀ f ∈ functionsOf items, f.isNamed

/-- `visitOC_ProjectionBody`, with `visitOC_ProjectionItems`, `visitOC_Order`, `visitOC_Skip` and
`visitOC_Limit`. -/
def visitProjectionBody (r : ReturnClause) : ASTNode :=
  let body := internal .RETURN_BODY r.items
  .internal .RETURN
    ([if r.distinct then .internal .DISTINCT [body] else body] ++
      (r.order.map fun o => .internal .ORDERED_BY ((o.1 :: o.2).map visitSortItem)).toList ++
      (r.skip.map fun e => .internal .SKIP [e]).toList ++
      (r.limit.map fun e => .internal .LIMIT [e]).toList)

/-! ## The planner -/

/-- A plan with the operators of a `RETURN`. -/
inductive Plan
  | null
  | matched (m : MatchPlan)
  | cacheProperty (input : Plan)
  | aggregationFunction (input : Plan) (ast : ASTNode) (functionName : Text)
  | projection (input : Plan) (columns : List ASTNode)
  | distinct (input : Plan) (columns : List ASTNode)
  | orderBy (input : Plan) (orderByClause : ASTNode)
  | limit (input : Plan) (limit : ASTNode)
  | skip (input : Plan) (skip : ASTNode)
  | produceResults (op : Plan) (items : List ASTNode)

def Plan.isNull : Plan → Bool
  | null => true
  | matched m => m.isNull
  | _ => false

/-- One turn of the loop over the functions of a `RETURN_BODY`. -/
def addAggregation (temp_opt : Plan) (func : ASTNode) : Option Plan := do
  let name ← func.functionName
  if name = ascii "avg" ∨ name = ascii "AVG" then
    let argument ← func.firstArgument
    some (.aggregationFunction temp_opt argument name)
  else some temp_opt

def propertiesOf (items : List ASTNode) : List ASTNode :=
  (getSubTreeListByNodeType .NON_ARITHMETIC_OPERATOR (.internal .RETURN_BODY items)).filter
    (isAvailable .PROPERTY_LOOKUP)

/-- The operators that a `RETURN_BODY` puts below its `ProduceResults`. -/
def planColumns (items : List ASTNode) (currentOperator : Plan) (distinct : Bool) : Option Plan :=
  if items.all (·.nodeType = .VARIABLE) then some currentOperator
  else do
    let cached := if (propertiesOf items).isEmpty then .null else .cacheProperty currentOperator
    let temp_opt ← (functionsOf items).foldlM addAggregation cached
    let input := if temp_opt.isNull then currentOperator else temp_opt
    some (if distinct then .distinct input items else .projection input items)

def planReturnBody (ast : ASTNode) (currentOperator : Plan) (distinct : Bool) : Option Plan :=
  (planColumns ast.elements currentOperator distinct).map (.produceResults · ast.elements)

/-- `temp->setOperator(new ...(temp->getOperator(), node->elements[0]))`, for `temp` the
`ProduceResults` that `currentOperator` is taken to be. -/
def splice (operator : Plan → ASTNode → Plan) (currentOperator : Plan) (node : ASTNode) :
    Option Plan :=
  match currentOperator with
  | .produceResults op items => do
    let clause ← node.element 0
    some (.produceResults (operator op clause) items)
  | _ => none

def planReturnElement (currentOperator : Plan) (node : ASTNode) : Option Plan :=
  match node.nodeType with
  | .DISTINCT => do planReturnBody (← node.element 0) currentOperator true
  | .ORDERED_BY => splice .orderBy currentOperator node
  | .LIMIT => splice .limit currentOperator node
  | .SKIP => splice .skip currentOperator node
  | .RETURN_BODY => planReturnBody node currentOperator false
  | _ => some currentOperator

def planReturn (ast : ASTNode) (currentOperator : Plan) : Option Plan :=
  ast.elements.foldlM planReturnElement currentOperator

namespace ReturnClause

/-- What `ORDER BY`, `SKIP` and `LIMIT` put on top of the columns. -/
def spliced (r : ReturnClause) (body : Plan) : Plan :=
  let ordered := r.order.elim body fun o => .orderBy body (visitSortItem o.1)
  let skipped := r.skip.elim ordered fun e => .skip ordered e
  r.limit.elim skipped fun e => .limit skipped e

theorem planReturn_visit (r : ReturnClause) (current : Plan) :
    planReturn (visitProjectionBody r) current = (planColumns r.items current r.distinct).map
        fun body => .produceResults (r.spliced body) r.items := by
  have hbody : planReturnElement current
      (if r.distinct then .internal .DISTINCT [.internal .RETURN_BODY r.items]
        else .internal .RETURN_BODY r.items) =
      (planColumns r.items current r.distinct).map (.produceResults · r.items) := by
    cases r.distinct <;> rfl
  rw [planReturn, visitProjectionBody, elements_internal, append_assoc,
    append_assoc, singleton_append, foldlM_cons, hbody]
  unfold spliced
  cases planColumns r.items current r.distinct with
  | none => rfl
  | some body => cases r.order <;> cases r.skip <;> cases r.limit <;> rfl

end ReturnClause

/-! ## `execute` -/

def withNext (operator : Text) (members : List (Text × Member)) (input : Plan)
    (executed : Option (PlanText × Query)) : Option (PlanText × Query) :=
  if input.isNull then some (.source operator members, [])
  else executed.map fun r => (.over operator members r.1, r.2)

/-- The names that `ProduceResults::execute` prints for a column. -/
def resultNames (result : ASTNode) : Option (List Text) :=
  match result.nodeType with
  | .AS => (result.element 1).map fun name => [name.value]
  | .NON_ARITHMETIC_OPERATOR => result.lookup.map fun l => [lookupName l]
  | .VARIABLE => some [result.value]
  | .FUNCTION_BODY => do
    let l ← result.firstArgument >>= lookup
    let name ← result.functionName
    some [name ++ ascii "(" ++ lookupName l ++ ascii ")", ascii "variable", ascii "numberOfData"]
  | _ => some []

def lookupOperand (l : Text × Text) (assign : Text) : List (Text × Text) :=
  [(ascii "Type", ascii "PROPERTY_LOOKUP"), (ascii "variable", l.1), (ascii "property", l.2),
    (ascii "assign", assign)]

/-- What `Projection::execute` prints for a column; nothing for a variable. -/
def projectionOperand (ast : ASTNode) : Option (Option (List (Text × Text))) :=
  match ast.nodeType with
  | .NON_ARITHMETIC_OPERATOR => do
    let l ← ast.lookup
    some (some (lookupOperand l (lookupName l)))
  | .AS => do
    let aliased ← ast.element 0
    let assign ← ast.element 1
    if aliased.nodeType = .FUNCTION_BODY then
      let name ← aliased.functionName
      some (some [(ascii "functionName", name), (ascii "assign", assign.value)])
    else
      let l ← aliased.lookup
      some (some (lookupOperand l assign.value))
  | .VARIABLE => some none
  | .FUNCTION_BODY => do
    let l ← ast.firstArgument >>= lookup
    let name ← ast.functionName
    some (some [(ascii "functionName", name),
      (ascii "assign", name ++ ascii "(" ++ lookupName l ++ ascii ")")])
  | _ => some (some [])

/-- What `Distinct::execute` prints for a column: a function has no branch. -/
def distinctOperand (ast : ASTNode) : Option (Option (List (Text × Text))) :=
  match ast.nodeType with
  | .NON_ARITHMETIC_OPERATOR => do
    let l ← ast.lookup
    some (some (lookupOperand l (lookupName l)))
  | .AS => do
    let aliased ← ast.element 0
    let assign ← ast.element 1
    let l ← aliased.lookup
    some (some (lookupOperand l assign.value))
  | .VARIABLE => some none
  | _ => some (some [])

/-- `orderBy["variable"]`. Without one the assignment to `aggregateKey` throws. -/
def orderVariable (expression : ASTNode) : Option Text :=
  match expression.nodeType with
  | .VARIABLE => some expression.value
  | .NON_ARITHMETIC_OPERATOR => expression.lookup.map lookupName
  | _ => none

namespace Plan

/-- `execute`: the text of the plan, and the operators that assign the aggregation settings. -/
def execute : Plan → Option (PlanText × Query)
  | null => none
  | matched m => m.execute.map fun text => (text, [])
  | cacheProperty input => input.execute
  | aggregationFunction input ast functionName => do
    let (nextOperator, query) ← input.execute
    let (var, property) ← ast.lookup
    some (.over (ascii "AggregationFunction")
      [(ascii "FunctionName", .text functionName), (ascii "variable", .text var),
        (ascii "property", .text property)] nextOperator, query ++ [.average])
  | projection input columns => do
    let operands ← columns.mapM projectionOperand
    withNext (ascii "Projection") [(ascii "project", .operands operands.reduceOption)] input
      input.execute
  | distinct input columns => do
    let operands ← columns.mapM distinctOperand
    withNext (ascii "Distinct") [(ascii "project", .operands operands.reduceOption)] input
      input.execute
  | orderBy input orderByClause => do
    let key ← orderVariable (← orderByClause.element 0)
    let isAsc : Bool := orderByClause.nodeType = .ASC
    let (text, query) ← withNext (ascii "OrderBy")
      [(ascii "order", .text (orderName isAsc)), (ascii "variable", .text key)] input input.execute
    some (text, query ++ [.orderBy isAsc key])
  | limit input _ => do
    let (_, query) ← input.execute
    some (.empty, query)
  | skip input _ => do
    let (_, query) ← input.execute
    some (.empty, query)
  | produceResults op items => do
    let names ← items.mapM resultNames
    withNext (ascii "ProduceResult") [(ascii "variable", .texts names.flatten)] op op.execute

end Plan

/-! ## Texts on top of a text -/

/-- A text that reaches another one, or the end where there is none, through operators that are
registered and do not sort. -/
inductive PlanText.Above (base : Option PlanText) : Option PlanText → Prop
  | refl : Above base base
  | on {next : Option PlanText} (operator : Text) (members : List (Text × Member))
      (registered : operator ∈ methodMap) (notOrderBy : operator ≠ ascii "OrderBy")
      (above : Above base next) : Above base (some (.on operator members next))

def memberText (name : Text) (members : List (Text × Member)) : Option Text :=
  match members.lookup name with
  | some (.text value) => some value
  | _ => none

/-- The key and the order that an operator asks for, if it is an `OrderBy`. -/
def orderingOf (operator : Text) (members : List (Text × Member)) : List (Text × Text) :=
  if operator = ascii "OrderBy" then
    ((memberText (ascii "variable") members).bind fun key =>
      (memberText (ascii "order") members).map fun order => (key, order)).toList
  else []

/-- The orders that the operators of a text ask for, the last one applied first. -/
def PlanText.orderings : PlanText → List (Text × Text)
  | empty => []
  | source operator members => orderingOf operator members
  | .over operator members nextOperator => orderingOf operator members ++ nextOperator.orderings
  | product _ left right => left.orderings ++ right.orderings

theorem PlanText.orderings_on (operator : Text) (members : List (Text × Member))
    (next : Option PlanText) :
    (on operator members next).orderings =
      orderingOf operator members ++ next.elim [] orderings := by
  cases next with
  | none => exact (append_nil _).symm
  | some text => rfl

namespace PlanText.Above

variable {base next : Option PlanText}

theorem registered_iff (h : Above base next) :
    (∀ text ∈ next, text.Registered) ↔ ∀ text ∈ base, text.Registered := by
  induction h with
  | refl => exact .rfl
  | on _ members registered _ _ ih =>
    refine Iff.trans ?_ ((registered_on registered members _).trans ih)
    simp

theorem orderings_eq (h : Above base next) : next.elim [] orderings = base.elim [] orderings := by
  induction h with
  | refl => rfl
  | on _ _ _ notOrderBy _ ih =>
    rw [elim_some, orderings_on, orderingOf, if_neg notOrderBy, ih, nil_append]

end PlanText.Above

variable {text : PlanText} {input : Plan} {query : Query}

theorem Operator.orderings_execute {op : Operator} (h : op.execute = some text) :
    text.orderings = [] := by
  induction op generalizing text with
  | expandAll input _ _ _ _ _ ih =>
    obtain ⟨_, nextOperator, hnext, rfl⟩ := execute_expandAll h
    exact congrArg ([] ++ ·) (ih hnext)
  | filter input cases ih =>
    obtain ⟨_, nextOperator, hnext, rfl⟩ := execute_filter h
    exact congrArg ([] ++ ·) (ih hnext)
  | cartesianProduct left right ihl ihr =>
    obtain ⟨leftText, rightText, hleft, hright, rfl⟩ := execute_cartesianProduct h
    rw [orderings, ihl hleft, ihr hright, nil_append]
  | _ =>
    obtain rfl := some.inj h
    rfl

theorem MatchPlan.orderings_execute {m : MatchPlan} (h : m.execute = some text) :
    text.orderings = [] := by
  induction m generalizing text with
  | null => exact absurd h nofun
  | scan op => exact Operator.orderings_execute h
  | filter input cases ih =>
    rw [execute_filter] at h
    obtain ⟨condition, -, h⟩ := bind_eq_some_iff.1 h
    obtain ⟨base, hbase, rfl⟩ := map_eq_some_iff.1 h
    cases base with
    | none => rfl
    | some base => exact congrArg ([] ++ ·) (ih (execute_of_printed hbase))
  | cartesianProduct left right ihl ihr =>
    obtain ⟨leftText, hleft, h⟩ := bind_eq_some_iff.1 h
    obtain ⟨rightText, hright, h⟩ := bind_eq_some_iff.1 h
    obtain rfl := some.inj h
    rw [orderings, ihl hleft, ihr hright, nil_append]

theorem MatchPlan.orderings_printed {m : MatchPlan} {base : Option PlanText}
    (h : m.printed = some base) : base.elim [] orderings = [] := by
  cases base with
  | none => rfl
  | some text => exact orderings_execute (execute_of_printed h)

def Plan.Prints (plan : Plan) (base : Option PlanText) : Prop :=
  ∃ text query, plan.execute = some (text, query) ∧ Above base (some text)

def Plan.PrintsInput (plan : Plan) (base : Option PlanText) : Prop :=
  (plan.isNull = true ∧ base = none) ∨ plan.Prints base

/-! ## Which columns are printed -/

/-- What a column may be: a function that is not renamed takes a property, and what is renamed is a
property, or without `DISTINCT` a function. -/
def ColumnPrinted (distinct : Bool) (n : ASTNode) : Prop :=
  (n.nodeType = .FUNCTION_BODY → n.callsLookup) ∧ (n.nodeType = .AS → ∀ e ∈ n.elements.head?,
      e.isLookup ∨ distinct = false ∧ e.nodeType = .FUNCTION_BODY)

/-- `name == "avg" || name == "AVG"`. -/
def IsAverage (f : ASTNode) : Prop :=
  f.functionName = some (ascii "avg") ∨ f.functionName = some (ascii "AVG")

namespace ReturnClause

variable {r : ReturnClause}

/-- Only variables are returned; or every column can be printed, every average is over a property,
with an average a property lookup is among the columns, and there is none without a plan of the
`MATCH` clauses. -/
def ColumnsPrinted (r : ReturnClause) (null : Bool) : Prop :=
  (∀ n ∈ r.items, n.nodeType = .VARIABLE) ∨ (∀ n ∈ r.items, ColumnPrinted r.distinct n) ∧
      (∀ f ∈ functionsOf r.items, IsAverage f → f.callsLookup ∧ propertiesOf r.items ≠ []) ∧
      (null = true → propertiesOf r.items = [])

theorem exists_functionName {f : ASTNode} (hf : f ∈ functionsOf r.items) :
    ∃ name, f.functionName = some name := by
  have hnamed := r.named f hf
  rw [← isSome_functionName] at hnamed
  exact isSome_iff_exists.1 hnamed

variable {n : ASTNode}

theorem mem_functionsOf (hn : n ∈ r.items) (ht : n.nodeType = .FUNCTION_BODY) :
    n ∈ functionsOf r.items := by
  refine mem_subTreesIn.2 ⟨n, hn, ?_⟩
  rw [if_pos ht]
  exact mem_singleton_self n

theorem mem_functionsOf_aliased {n e : ASTNode} (hn : n ∈ r.items) (ht : n.nodeType = .AS)
    (he : e ∈ n.elements) (hte : e.nodeType = .FUNCTION_BODY) : e ∈ functionsOf r.items := by
  refine mem_subTreesIn.2 ⟨n, hn, ?_⟩
  rw [if_neg (by rw [ht]; decide)]
  obtain ⟨t, v, es⟩ := n
  refine mem_subTreesIn.2 ⟨e, he, ?_⟩
  rw [if_pos hte]
  exact mem_singleton_self e

section

variable (hn : n ∈ r.items)

include hn

theorem isSome_resultNames_iff :
    (resultNames n).isSome ↔ (n.nodeType = .FUNCTION_BODY → n.callsLookup) := by
  unfold resultNames
  split
  case h_1 ht =>
    have hlen := r.aliases n hn ht
    refine iff_of_true ?_ (by simp [ht])
    rw [element, List.getElem?_eq_getElem (by omega)]
    rfl
  case h_2 ht =>
    refine iff_of_true ?_ (by simp [ht])
    rw [isSome_map, isSome_lookup]
    exact r.lookups n hn ht
  case h_3 ht => exact iff_of_true rfl (by simp [ht])
  case h_4 ht =>
    obtain ⟨name, hname⟩ := exists_functionName (mem_functionsOf hn ht)
    rw [forall_prop_of_true ht, ← isSome_firstArgument_lookup]
    cases n.firstArgument >>= lookup <;> simp [hname]
  case h_5 h₁ h₂ h₃ h₄ => exact iff_of_true rfl fun ht => absurd ht h₄

theorem exists_lookup (ht : n.nodeType = .NON_ARITHMETIC_OPERATOR) : ∃ l, n.lookup = some l :=
  isSome_iff_exists.1 ((isSome_lookup n).trans (r.lookups n hn ht))

theorem isSome_projectionOperand_iff : (projectionOperand n).isSome ↔ ColumnPrinted false n := by
  unfold projectionOperand ColumnPrinted
  split
  case h_1 ht =>
    obtain ⟨l, hl⟩ := exists_lookup hn ht
    exact iff_of_true (by rw [hl]; rfl) (by simp [ht])
  case h_2 ht =>
    obtain ⟨e, name, helements⟩ := length_eq_two.1 (r.aliases n hn ht)
    simp only [element, helements, ht, List.getElem?_cons_zero,
      head?_cons, Option.mem_def, some.injEq, forall_eq', ← isSome_lookup, bind_eq_bind, bind_some]
    by_cases hte : e.nodeType = .FUNCTION_BODY
    · obtain ⟨f, hf⟩ :=
        exists_functionName (mem_functionsOf_aliased hn ht (by simp [helements]) hte)
      simp [hte, hf]
    · cases e.lookup <;> simp [hte]
  case h_3 ht => exact iff_of_true rfl (by simp [ht])
  case h_4 ht =>
    obtain ⟨name, hname⟩ := exists_functionName (mem_functionsOf hn ht)
    rw [← isSome_firstArgument_lookup]
    cases n.firstArgument >>= lookup <;> simp [hname, ht]
  case h_5 h₁ h₂ h₃ h₄ => exact iff_of_true rfl ⟨fun ht => absurd ht h₄, fun ht => absurd ht h₂⟩

theorem isSome_distinctOperand_iff :
    (resultNames n).isSome ∧ (distinctOperand n).isSome ↔ ColumnPrinted true n := by
  rw [isSome_resultNames_iff hn]
  refine and_congr_right fun _ => ?_
  unfold distinctOperand
  split
  case h_1 ht =>
    obtain ⟨l, hl⟩ := exists_lookup hn ht
    exact iff_of_true (by rw [hl]; rfl) (by simp [ht])
  case h_2 ht =>
    obtain ⟨e, name, helements⟩ := length_eq_two.1 (r.aliases n hn ht)
    simp only [element, helements, ht, List.getElem?_cons_zero,
      head?_cons, Option.mem_def, some.injEq, forall_eq', ← isSome_lookup, bind_eq_bind, bind_some]
    cases e.lookup <;> simp
  case h_3 ht => exact iff_of_true rfl (by simp [ht])
  case h_4 h₁ h₂ h₃ => exact iff_of_true rfl fun ht => absurd ht h₂

end

theorem isSome_columns_iff (r : ReturnClause) : (r.items.mapM resultNames).isSome ∧
      (r.items.mapM (if r.distinct then distinctOperand else projectionOperand)).isSome ↔
    ∀ n ∈ r.items, ColumnPrinted r.distinct n := by
  rw [isSome_mapM, isSome_mapM, ← forall₂_and]
  refine forall₂_congr fun n hn => ?_
  cases r.distinct with
  | true => exact isSome_distinctOperand_iff hn
  | false =>
    refine Iff.trans (and_congr_right fun _ => isSome_projectionOperand_iff hn) ?_
    rw [isSome_resultNames_iff hn]
    exact and_iff_right_of_imp And.left

end ReturnClause

/-! ## Averages -/

section Averages

variable {temp_opt plan : Plan} {f : ASTNode} {fs : List ASTNode} {base : Option PlanText}

theorem addAggregation_cases (h : addAggregation temp_opt f = some plan) :
    (¬IsAverage f ∧ plan = temp_opt) ∨
      (IsAverage f ∧ ∃ argument name, f.firstArgument = some argument ∧
        plan = .aggregationFunction temp_opt argument name) := by
  obtain ⟨name, hname, h⟩ := bind_eq_some_iff.1 h
  rw [IsAverage, hname, some.injEq, some.injEq]
  split at h
  · rename_i hav
    obtain ⟨argument, hargument, h⟩ := bind_eq_some_iff.1 h
    exact .inr ⟨hav, argument, name, hargument, (some.inj h).symm⟩
  · rename_i hav
    exact .inl ⟨hav, (some.inj h).symm⟩

theorem exists_addAggregation (hf : f.isNamed) (h : IsAverage f → f.callsLookup) :
    ∃ plan, addAggregation temp_opt f = some plan ∧ (temp_opt.Prints base → plan.Prints base) := by
  rw [← isSome_functionName] at hf
  obtain ⟨name, hname⟩ := isSome_iff_exists.1 hf
  by_cases hav : name = ascii "avg" ∨ name = ascii "AVG"
  · have hlookup : f.callsLookup := h (by rw [IsAverage, hname]; simpa using hav)
    rw [← isSome_firstArgument_lookup] at hlookup
    obtain ⟨l, hl⟩ := isSome_iff_exists.1 hlookup
    obtain ⟨argument, hargument, hl⟩ := bind_eq_some_iff.1 hl
    refine ⟨.aggregationFunction temp_opt argument name, ?_, ?_⟩
    · simp [addAggregation, hname, hav, hargument]
    · rintro ⟨text, query, hexec, habove⟩
      refine ⟨_, query ++ [.average], ?_, .on (ascii "AggregationFunction")
        [(ascii "FunctionName", .text name), (ascii "variable", .text l.1),
          (ascii "property", .text l.2)] (by decide) (by decide) habove⟩
      simp [Plan.execute, hexec, hl, on]
  · exact ⟨temp_opt, by simp [addAggregation, hname, hav], id⟩

/-! The loop over the functions. -/

theorem exists_addAggregations (temp_opt : Plan) (base : Option PlanText)
    (hfs : ∀ f ∈ fs, f.isNamed) (h : ∀ f ∈ fs, IsAverage f → f.callsLookup) :
    ∃ plan, fs.foldlM addAggregation temp_opt = some plan ∧
      (temp_opt.Prints base → plan.Prints base) := by
  induction fs generalizing temp_opt with
  | nil => exact ⟨temp_opt, rfl, id⟩
  | cons f fs ih =>
    rw [forall_mem_cons] at hfs h
    obtain ⟨plan, hplan, hprints⟩ := exists_addAggregation hfs.1 h.1
    obtain ⟨plan', hplan', hprints'⟩ := ih plan hfs.2 h.2
    refine ⟨plan', ?_, hprints' ∘ hprints⟩
    rw [foldlM_cons, hplan]
    exact hplan'

/-- Without an average the loop changes nothing; with one its plan is an operator, which is printed
only if the plan before is and every average is over a property. -/
theorem addAggregations_cases (h : fs.foldlM addAggregation temp_opt = some plan) :
    (plan = temp_opt ∧ ∀ f ∈ fs, ¬IsAverage f) ∨
      ((∃ f ∈ fs, IsAverage f) ∧ plan.isNull = false ∧ (plan.execute.isSome →
        temp_opt.execute.isSome ∧ ∀ f ∈ fs, IsAverage f → f.callsLookup)) := by
  induction fs generalizing temp_opt with
  | nil => exact .inl ⟨(some.inj h).symm, nofun⟩
  | cons f fs ih =>
    obtain ⟨next, hnext, hrest⟩ := bind_eq_some_iff.1 h
    simp only [forall_mem_cons, exists_mem_cons_iff]
    rcases addAggregation_cases hnext with ⟨hav, rfl⟩ | ⟨hav, argument, name, hargument, rfl⟩
    · rcases ih hrest with ⟨rfl, hfs⟩ | ⟨hex, hnull, hexec⟩
      · exact .inl ⟨rfl, hav, hfs⟩
      · exact .inr ⟨.inr hex, hnull, fun hp => ⟨(hexec hp).1, fun hf => absurd hf hav, (hexec hp).2⟩⟩
    · have hstep : (Plan.aggregationFunction temp_opt argument name).execute.isSome →
          temp_opt.execute.isSome ∧ f.callsLookup := by
        rw [← isSome_firstArgument_lookup, Plan.execute]
        intro hexec
        cases hinput : temp_opt.execute with
        | none => simp [hinput] at hexec
        | some r => cases hl : argument.lookup <;> simp_all
      rcases ih hrest with ⟨rfl, hfs⟩ | ⟨-, hnull, hexec⟩
      · exact .inr ⟨.inl hav, rfl, fun hp =>
          ⟨(hstep hp).1, fun _ => (hstep hp).2, fun g hg hgav => absurd hgav (hfs g hg)⟩⟩
      · exact .inr ⟨.inl hav, hnull, fun hp => ⟨(hstep (hexec hp).1).1,
          fun _ => (hstep (hexec hp).1).2, (hexec hp).2⟩⟩

end Averages

theorem Plan.execute_of_isNull {plan : Plan} (h : plan.isNull = true) : plan.execute = none := by
  cases plan with
  | null => rfl
  | matched m =>
    rw [MatchPlan.isNull_eq_true.1 h]
    rfl
  | _ => exact absurd h Bool.false_ne_true

theorem Plan.isNull_eq_false (plan : Plan) (h : plan.execute.isSome) : plan.isNull = false := by
  by_contra hnull
  rw [execute_of_isNull (by simpa using hnull)] at h
  exact absurd h Bool.false_ne_true

theorem Plan.Prints.isNull_eq_false {plan : Plan} {base : Option PlanText} (h : plan.Prints base) :
    plan.isNull = false := by
  obtain ⟨text, query, hexec, -⟩ := h
  exact Plan.isNull_eq_false plan (by rw [hexec]; rfl)

theorem Plan.PrintsInput.exists_next {base : Option PlanText} (h : input.PrintsInput base) :
    ∃ next query, Above base next ∧ ∀ operator members,
      withNext operator members input input.execute = some (.on operator members next, query) := by
  unfold withNext
  rcases h with ⟨hnull, rfl⟩ | hprints
  · exact ⟨none, [], .refl, fun operator members => by rw [hnull]; rfl⟩
  · rw [hprints.isNull_eq_false]
    obtain ⟨text, query, hexec, habove⟩ := hprints
    exact ⟨some text, query, habove, fun operator members => by rw [hexec]; rfl⟩

theorem input_of_withNext {operator : Text} {members : List (Text × Member)}
    {out : PlanText × Query} (h : withNext operator members input input.execute = some out) :
    input.isNull = true ∨ input.execute.isSome := by
  unfold withNext at h
  split at h
  · exact .inl ‹_›
  · obtain ⟨next, hnext, -⟩ := map_eq_some_iff.1 h
    exact .inr (by rw [hnext]; rfl)

/-! ## The columns of a `RETURN` -/

namespace ReturnClause

variable {r : ReturnClause} {m : MatchPlan} {base : Option PlanText} {body : Plan}

def columnsOperator (r : ReturnClause) (input : Plan) : Plan :=
  if r.distinct then .distinct input r.items else .projection input r.items

theorem isNull_columnsOperator (input : Plan) : (r.columnsOperator input).isNull = false := by
  unfold columnsOperator
  cases r.distinct <;> rfl

theorem of_columnsOperator (h : (r.columnsOperator input).execute.isSome) :
    (r.items.mapM (if r.distinct then distinctOperand else projectionOperand)).isSome ∧
      (input.isNull = true ∨ input.execute.isSome) := by
  obtain ⟨out, h⟩ := isSome_iff_exists.1 h
  unfold columnsOperator at h
  cases hd : r.distinct
  all_goals
    rw [hd] at h
    obtain ⟨operands, hoperands, h⟩ := bind_eq_some_iff.1 h
    refine ⟨?_, input_of_withNext h⟩
    simp [hoperands]

theorem prints_columnsOperator (hinput : input.PrintsInput base)
    (h : (r.items.mapM (if r.distinct then distinctOperand else projectionOperand)).isSome) :
    (r.columnsOperator input).Prints base := by
  obtain ⟨operands, hoperands⟩ := isSome_iff_exists.1 h
  unfold columnsOperator
  obtain ⟨next, query, habove, hexec⟩ := hinput.exists_next
  cases hd : r.distinct <;> rw [hd] at hoperands
  · exact ⟨_, query, (congrArg (Option.bind · _) hoperands).trans (hexec (ascii "Projection") _),
      .on _ _ (by decide) (by decide) habove⟩
  · exact ⟨_, query, (congrArg (Option.bind · _) hoperands).trans (hexec (ascii "Distinct") _),
      .on _ _ (by decide) (by decide) habove⟩

theorem printsInput_matched (hm : m.printed = some base) : (Plan.matched m).PrintsInput base := by
  rw [MatchPlan.printed] at hm
  split at hm
  · exact .inl ⟨‹_›, (some.inj hm).symm⟩
  · obtain ⟨text, htext, rfl⟩ := map_eq_some_iff.1 hm
    exact .inr ⟨text, [], by rw [Plan.execute, htext]; rfl, .refl⟩

theorem all_variable_iff :
    r.items.all (·.nodeType = .VARIABLE) = true ↔ ∀ n ∈ r.items, n.nodeType = .VARIABLE := by
  simp

theorem planColumns_of_not (current : Plan) (h : ¬∀ n ∈ r.items, n.nodeType = .VARIABLE) :
    planColumns r.items current r.distinct = ((functionsOf r.items).foldlM addAggregation
        (if (propertiesOf r.items).isEmpty then .null else .cacheProperty current)).map
          fun temp_opt => r.columnsOperator (if temp_opt.isNull then current else temp_opt) := by
  rw [planColumns, if_neg (mt all_variable_iff.1 h)]
  dsimp only
  cases (functionsOf r.items).foldlM addAggregation
    (if (propertiesOf r.items).isEmpty then .null else .cacheProperty current) <;> rfl

/-- Columns that can be printed are, on top of the text of the `MATCH` clauses. -/
theorem exists_columns (hm : m.printed = some base) (h : r.ColumnsPrinted m.isNull) :
    ∃ body, planColumns r.items (.matched m) r.distinct = some body ∧ body.PrintsInput base ∧
      (r.items.mapM resultNames).isSome := by
  by_cases hvar : ∀ n ∈ r.items, n.nodeType = .VARIABLE
  · refine ⟨.matched m, ?_, printsInput_matched hm, isSome_mapM.2 fun n hn => ?_⟩
    · rw [planColumns, if_pos (all_variable_iff.2 hvar)]
    · rw [isSome_resultNames_iff hn, hvar n hn]
      exact nofun
  · obtain ⟨hcolumns, hav, hnull⟩ := h.resolve_left hvar
    obtain ⟨hnames, hoperands⟩ := r.isSome_columns_iff.2 hcolumns
    obtain ⟨plan, hplan, hprints⟩ := exists_addAggregations
      (if (propertiesOf r.items).isEmpty then .null else .cacheProperty (.matched m)) base
      r.named fun f hf h => (hav f hf h).1
    refine ⟨r.columnsOperator (if plan.isNull then .matched m else plan), ?_,
      .inr (prints_columnsOperator ?_ hoperands), hnames⟩
    · rw [planColumns_of_not _ hvar, hplan]
      rfl
    · by_cases hproperties : propertiesOf r.items = []
      · -- no property lookup, so no average: `temp_opt` stays null
        obtain ⟨rfl, -⟩ := (addAggregations_cases hplan).resolve_right
          fun ⟨⟨f, hf, h⟩, _⟩ => (hav f hf h).2 hproperties
        rw [hproperties]
        exact printsInput_matched hm
      · have hmatched : (Plan.matched m).Prints base :=
          (printsInput_matched hm).resolve_left fun h => hproperties (hnull h.1)
        have hcached := hprints (by
          rw [isEmpty_eq_false_iff.2 hproperties]
          exact hmatched)
        rw [hcached.isNull_eq_false]
        exact .inr hcached

theorem exists_printed {plan : Plan} (hplan : plan = .matched m ∨ plan = .cacheProperty (.matched m))
    (h : plan.isNull = true ∨ plan.execute.isSome) : ∃ base, m.printed = some base := by
  rw [MatchPlan.printed]
  cases hnull : m.isNull with
  | true => exact ⟨none, rfl⟩
  | false =>
    have hsome : m.execute.isSome := by
      rcases hplan with rfl | rfl <;> simpa [Plan.isNull, Plan.execute, hnull] using h
    obtain ⟨text, htext⟩ := isSome_iff_exists.1 hsome
    exact ⟨some text, by rw [htext]; rfl⟩

theorem columnsPrinted_of (hbody : planColumns r.items (.matched m) r.distinct = some body)
    (hexec : body.isNull = true ∨ body.execute.isSome)
    (hnames : (r.items.mapM resultNames).isSome) :
    r.ColumnsPrinted m.isNull ∧ ∃ base, m.printed = some base := by
  by_cases hvar : ∀ n ∈ r.items, n.nodeType = .VARIABLE
  · rw [planColumns, if_pos (all_variable_iff.2 hvar)] at hbody
    obtain rfl := some.inj hbody
    exact ⟨.inl hvar, exists_printed (.inl rfl) hexec⟩
  rw [planColumns_of_not _ hvar] at hbody
  obtain ⟨plan, hplan, rfl⟩ := map_eq_some_iff.1 hbody
  rw [isNull_columnsOperator] at hexec
  obtain ⟨hoperands, hinput⟩ := of_columnsOperator (hexec.resolve_left Bool.false_ne_true)
  have hcolumns := r.isSome_columns_iff.1 ⟨hnames, hoperands⟩
  cases hnull : plan.isNull with
  | true =>
    rw [hnull] at hinput
    obtain ⟨rfl, hnone⟩ := (addAggregations_cases hplan).resolve_right (by simp [hnull])
    refine ⟨.inr ⟨hcolumns, fun f hf hav => absurd hav (hnone f hf), fun _ => ?_⟩,
      exists_printed (.inl rfl) hinput⟩
    by_contra hproperties
    rw [isEmpty_eq_false_iff.2 hproperties] at hnull
    exact absurd hnull Bool.false_ne_true
  | false =>
    rw [hnull] at hinput
    have hplanExec := hinput.resolve_left (by simp [hnull])
    obtain ⟨hcached, hlookups⟩ : _ ∧ ∀ f ∈ functionsOf r.items, IsAverage f → f.callsLookup := by
      rcases addAggregations_cases hplan with ⟨rfl, hnone⟩ | ⟨-, -, h⟩
      · exact ⟨hplanExec, fun f hf hav => absurd hav (hnone f hf)⟩
      · exact h hplanExec
    have hproperties : propertiesOf r.items ≠ [] := by
      intro hproperties
      rw [hproperties] at hcached
      exact absurd hcached Bool.false_ne_true
    rw [isEmpty_eq_false_iff.2 hproperties] at hcached
    refine ⟨.inr ⟨hcolumns, fun f hf hav => ⟨hlookups f hf hav, hproperties⟩, fun hm => ?_⟩,
      exists_printed (.inr rfl) (.inr hcached)⟩
    exact absurd (Plan.isNull_eq_false (.matched m) hcached)
      (by rw [Plan.isNull, hm]; exact Bool.false_ne_true.symm)

/-! ## `ORDER BY`, `SKIP` and `LIMIT` -/

def executed (r : ReturnClause) (m : MatchPlan) : Option (PlanText × Query) :=
  planReturn (visitProjectionBody r) (.matched m) >>= Plan.execute

theorem execute_orderBy (plan : Plan) (s : SortItem) :
    (Plan.orderBy plan (visitSortItem s)).execute = (orderVariable s.expression).bind fun key =>
        (withNext (ascii "OrderBy") [(ascii "order", .text (orderName (s.keyword = some .asc))),
            (ascii "variable", .text key)] plan plan.execute).map fun out =>
          (out.1, out.2 ++ [.orderBy (s.keyword = some .asc) key]) := by
  have hitem : (visitSortItem s).element 0 = some s.expression ∧
      ((visitSortItem s).nodeType = .ASC ↔ s.keyword = some .asc) := by
    unfold visitSortItem
    split
    · rename_i hk
      exact ⟨rfl, iff_of_true rfl hk⟩
    · rename_i hk
      exact ⟨rfl, iff_of_false nofun hk⟩
  simp only [Plan.execute, hitem.1, hitem.2, bind_eq_bind, bind_some]
  cases orderVariable s.expression with
  | none => rfl
  | some key => exact (map_eq_bind ..).symm

theorem executed_eq (r : ReturnClause) (m : MatchPlan) :
    r.executed m = (planColumns r.items (.matched m) r.distinct).bind fun body =>
      (r.items.mapM resultNames).bind fun names =>
        withNext (ascii "ProduceResult") [(ascii "variable", .texts names.flatten)]
          (r.spliced body) (r.spliced body).execute := by
  rw [executed, planReturn_visit]
  cases planColumns r.items (.matched m) r.distinct <;> rfl

/-- With `SKIP` or `LIMIT` the text below `ProduceResult` is empty. -/
theorem spliced_of_not_none (h : ¬(r.skip = none ∧ r.limit = none)) (body : Plan) :
    (r.spliced body).isNull = false ∧
      ∀ out, (r.spliced body).execute = some out → out.1 = .empty := by
  have hempty : ∀ {plan : Plan} {out : PlanText × Query},
      (plan.execute.bind fun x => some (empty, x.2)) = some out → out.1 = .empty := by
    intro plan out hout
    obtain ⟨x, -, hout⟩ := bind_eq_some_iff.1 hout
    exact (some.inj hout) ▸ rfl
  unfold spliced
  cases hlimit : r.limit with
  | some e => exact ⟨rfl, fun out hout => hempty hout⟩
  | none =>
    cases hskip : r.skip with
    | some e => exact ⟨rfl, fun out hout => hempty hout⟩
    | none => exact absurd ⟨hskip, hlimit⟩ h

theorem spliced_of_none (hskip : r.skip = none) (hlimit : r.limit = none) (body : Plan) :
    r.spliced body = r.order.elim body fun o => .orderBy body (visitSortItem o.1) := by
  rw [spliced, hskip, hlimit]
  rfl

/-- What a text that is printed says about the `RETURN`: there is no `SKIP` and no `LIMIT` unless
the text below `ProduceResult` is empty, the columns can be printed and the first sort item has a
key; and which text it is. -/
theorem executed_inv (h : r.executed m = some (text, query))
    (hne : ∀ members, text ≠ .over (ascii "ProduceResult") members .empty) :
    r.skip = none ∧ r.limit = none ∧ r.ColumnsPrinted m.isNull ∧
      (∀ o ∈ r.order, (orderVariable o.1.expression).isSome) ∧
      ∃ base, m.printed = some base := by
  rw [executed_eq] at h
  obtain ⟨body, hbody, h⟩ := bind_eq_some_iff.1 h
  obtain ⟨names, hnames, hout⟩ := bind_eq_some_iff.1 h
  have hnone : r.skip = none ∧ r.limit = none := by
    by_contra hnone
    obtain ⟨hnull, hempty⟩ := spliced_of_not_none hnone body
    rw [withNext, hnull] at hout
    obtain ⟨out, hexec, heq⟩ := map_eq_some_iff.1 hout
    rw [hempty out hexec] at heq
    exact hne _ (Prod.ext_iff.1 heq).1.symm
  rw [spliced_of_none hnone.1 hnone.2] at hout
  have hinput := input_of_withNext hout
  have hkey : (body.isNull = true ∨ body.execute.isSome) ∧
      ∀ o ∈ r.order, (orderVariable o.1.expression).isSome := by
    cases horder : r.order with
    | none =>
      rw [horder] at hinput
      exact ⟨hinput, nofun⟩
    | some o =>
      rw [horder, elim_some, execute_orderBy] at hinput
      obtain ⟨out, hexec⟩ := isSome_iff_exists.1 (hinput.resolve_left nofun)
      obtain ⟨key, hkey, hexec⟩ := bind_eq_some_iff.1 hexec
      obtain ⟨next, hnext, -⟩ := map_eq_some_iff.1 hexec
      refine ⟨input_of_withNext hnext, ?_⟩
      rintro _ ⟨⟩
      rw [hkey]
      rfl
  obtain ⟨hcolumns, hprinted⟩ := columnsPrinted_of hbody hkey.1 (by rw [hnames]; rfl)
  exact ⟨hnone.1, hnone.2, hcolumns, hkey.2, hprinted⟩

/-- The text of a `RETURN` that is printed: which operators it asks to sort, and whether it is
registered. -/
theorem exists_executed (hm : m.printed = some base) (hskip : r.skip = none)
    (hlimit : r.limit = none) (hcolumns : r.ColumnsPrinted m.isNull)
    (hkey : ∀ o ∈ r.order, (orderVariable o.1.expression).isSome) :
    ∃ text query, r.executed m = some (text, query ++ (r.order.bind fun o =>
          (orderVariable o.1.expression).map (.orderBy (o.1.keyword = some .asc))).toList) ∧
      text.orderings = (r.order.bind fun o => (orderVariable o.1.expression).map fun key =>
        (key, orderName (o.1.keyword = some .asc))).toList ∧
      (text.Registered ↔ ∀ t ∈ base, t.Registered) := by
  obtain ⟨body, hbody, hprints, hnames⟩ := exists_columns hm hcolumns
  obtain ⟨names, hnames⟩ := isSome_iff_exists.1 hnames
  obtain ⟨next, query, habove, hnext⟩ := hprints.exists_next
  have horderings := habove.orderings_eq.trans (MatchPlan.orderings_printed hm)
  rw [executed_eq, hbody, bind_some, hnames, bind_some, spliced_of_none hskip hlimit]
  cases horder : r.order with
  | none =>
    refine ⟨_, query, by rw [elim_none, hnext, bind_none, toList_none, append_nil], ?_, ?_⟩
    · rw [orderings_on, horderings]
      rfl
    · exact (registered_on (by decide) _ _).trans habove.registered_iff
  | some o =>
    obtain ⟨key, hkey⟩ := isSome_iff_exists.1 (hkey o horder)
    simp only [elim_some, bind_some, hkey]
    refine ⟨.over (ascii "ProduceResult") [(ascii "variable", .texts names.flatten)]
      (.on (ascii "OrderBy") [(ascii "order", .text (orderName (o.1.keyword = some .asc))),
        (ascii "variable", .text key)] next), query, ?_, ?_, ?_⟩
    · rw [execute_orderBy, hkey, bind_some, hnext]
      rfl
    · rw [orderings, orderings_on, horderings]
      rfl
    · refine (and_iff_right (by decide)).trans ?_
      exact (registered_on (by decide) _ _).trans habove.registered_iff

end ReturnClause

/-! ## The order that is asked for -/

/-- What a sort item sorts by: the text of a variable or of a property of a variable, as the plan
names it, and any other expression itself. -/
def sortKey : ASTNode → Text ⊕ ASTNode
  | .mk .VARIABLE v _ => .inl v
  | .mk .NON_ARITHMETIC_OPERATOR _ [.mk .VARIABLE v _, .mk .PROPERTY_LOOKUP _ [.mk _ p _]] =>
    .inl (lookupName (v, p))
  | e => .inr e

theorem orderVariable_of_sortKey {e : ASTNode} {key : Text} (h : sortKey e = .inl key) :
    orderVariable e = some key := by
  unfold sortKey at h
  split at h
  · exact congrArg some (Sum.inl.inj h)
  · exact congrArg some (Sum.inl.inj h)
  · exact absurd h nofun

def SortItem.ascending (s : SortItem) : Bool := s.keyword ≠ some .desc

def writtenOrder (items : List SortItem) : List ((Text ⊕ ASTNode) × Bool) :=
  items.map fun s => (sortKey s.expression, s.ascending)

theorem orderName_injective : Function.Injective orderName := by decide

namespace ReturnClause

variable {r : ReturnClause} {m : MatchPlan}

def sortItems (r : ReturnClause) : List SortItem := r.order.elim [] fun o => o.1 :: o.2

/-- The plan is printed, its text has one `OrderBy`, the aggregation settings agree with it, and
both ask for the order that the sort items stand for. -/
def Carried (r : ReturnClause) (m : MatchPlan) : Prop :=
  ∃ text query key asc, r.executed m = some (text, query) ∧
    text.orderings = [(key, orderName asc)] ∧
    (∀ s, Query.settings query s = ⟨true, orderName asc, key⟩) ∧
    SameOrder [(.inl key, asc)] (writtenOrder r.sortItems)

theorem of_orderings {key order : Text} (hexec : r.executed m = some (text, query))
    (hord : text.orderings = [(key, order)]) :
    r.skip = none ∧ r.limit = none ∧ r.ColumnsPrinted m.isNull ∧
      ∀ o ∈ r.order, order = orderName (o.1.keyword = some .asc) := by
  have hne : ∀ members, text ≠ .over (ascii "ProduceResult") members .empty := by
    rintro members rfl
    exact absurd hord nofun
  obtain ⟨hskip, hlimit, hcolumns, hkey, base, hm⟩ := executed_inv hexec hne
  refine ⟨hskip, hlimit, hcolumns, fun o ho => ?_⟩
  obtain ⟨text', query', hexec', hord', -⟩ := exists_executed hm hskip hlimit hcolumns hkey
  obtain ⟨rfl, -⟩ := Prod.ext_iff.1 (some.inj (hexec.symm.trans hexec'))
  obtain ⟨key', hkey'⟩ := isSome_iff_exists.1 (hkey o ho)
  rw [hord, ho, bind_some, hkey'] at hord'
  exact (Prod.ext_iff.1 (singleton_inj.1 hord')).2

/-- **`ORDER BY`.** A plan asks the workers and the master for the written order exactly if there is
no `SKIP` and no `LIMIT`, the columns can be printed, the first sort item is a variable or a
property of one and has a keyword, and the items after it repeat its key. -/
theorem carried_iff (r : ReturnClause) (first : SortItem) (rest : List SortItem) (m : MatchPlan)
    (base : Option PlanText) (horder : r.order = some (first, rest))
    (hm : m.printed = some base) :
    r.Carried m ↔
      r.skip = none ∧ r.limit = none ∧ r.ColumnsPrinted m.isNull ∧ first.keyword.isSome ∧
        (sortKey first.expression).isLeft ∧
        ∀ s ∈ rest, sortKey s.expression = sortKey first.expression := by
  have hwritten : writtenOrder r.sortItems =
      (sortKey first.expression, first.ascending) :: writtenOrder rest := by
    rw [sortItems, horder]
    rfl
  have hrest : ∀ key, (∀ item ∈ writtenOrder rest, item.1 = key) ↔
      ∀ s ∈ rest, sortKey s.expression = key := by
    simp [writtenOrder]
  unfold Carried
  rw [hwritten]
  constructor
  · rintro ⟨text, query, key, asc, hexec, hord, -, hsame⟩
    obtain ⟨hskip, hlimit, hcolumns, hasc⟩ := of_orderings hexec hord
    obtain ⟨hfirst, hkeys⟩ := sameOrder_single_iff.1 hsame
    rw [Prod.mk.injEq] at hfirst
    obtain ⟨hkey, hdir⟩ := hfirst
    refine ⟨hskip, hlimit, hcolumns, ?_, by rw [hkey]; rfl, ?_⟩
    · have := orderName_injective (hasc _ horder)
      rw [SortItem.ascending] at hdir
      cases hword : first.keyword with
      | none => simp_all
      | some word => rfl
    · rw [hkey]
      exact (hrest _).1 hkeys
  · rintro ⟨hskip, hlimit, hcolumns, hword, hleft, hkeys⟩
    obtain ⟨key, hkey⟩ := Sum.isLeft_iff.1 hleft
    have hvariable := orderVariable_of_sortKey hkey
    obtain ⟨text, query, hexec, hord, -⟩ := exists_executed hm hskip hlimit hcolumns (by
      rw [horder]
      rintro _ ⟨⟩
      rw [hvariable]
      rfl)
    simp only [horder, bind_some, hvariable, map_some, toList_some]
      at hexec hord
    refine ⟨text, _, key, _, hexec, hord, fun s => ?_, sameOrder_single_iff.2 ⟨?_, ?_⟩⟩
    · rw [Query.settings_concat]
      rfl
    · obtain ⟨word, hword⟩ := isSome_iff_exists.1 hword
      rw [hkey, SortItem.ascending, hword]
      cases word <;> rfl
    · rw [hkey] at hkeys
      exact (hrest _).2 hkeys

def propertyNode (v p : Text) : ASTNode :=
  .internal .NON_ARITHMETIC_OPERATOR
    [.leaf .VARIABLE v, .internal .PROPERTY_LOOKUP [.leaf .SYMBOLIC_WORD p]]

/-- `RETURN n.name ORDER BY n.age`, with or without a keyword. -/
def namesByAge (keyword : Option SortKeyword) : ReturnClause where
  distinct := false
  items := [propertyNode (ascii "n") (ascii "name")]
  order := some (⟨propertyNode (ascii "n") (ascii "age"), keyword, fun _ => rfl⟩, [])
  skip := none
  limit := none
  aliases := by decide
  lookups := by decide
  named := by decide

/-- `MATCH (n) RETURN n.name ORDER BY n.age ASC`. -/
theorem carried_namesByAge :
    (namesByAge (some .asc)).Carried (.scan (.allNodeScan (ascii "n"))) := by
  refine (carried_iff (namesByAge (some .asc)) _ [] (.scan (.allNodeScan (ascii "n"))) _ rfl
    rfl).2 ⟨rfl, rfl, .inr ⟨?_, ?_, nofun⟩, rfl, rfl, nofun⟩
  · rintro n hn
    obtain rfl := mem_singleton.1 hn
    exact ⟨nofun, nofun⟩
  · rintro f hf
    exact absurd hf not_mem_nil

/-- `MATCH (n) RETURN n.name ORDER BY n.age`: the plan asks for descending order. -/
theorem not_carried_namesByAge : ¬(namesByAge none).Carried (.scan (.allNodeScan (ascii "n"))) := by
  rintro ⟨text, query, key, asc, hexec, hord, -, hsame⟩
  obtain ⟨-, -, -, hasc⟩ := of_orderings hexec hord
  obtain ⟨hfirst, -⟩ := sameOrder_single_iff.1 hsame
  rw [orderName_injective (hasc _ rfl)] at hfirst
  exact absurd (Prod.ext_iff.1 hfirst).2 (show ¬true = false by decide)

end ReturnClause

end JasmineGraph.Cypher
