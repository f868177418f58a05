import JasmineGraph.Outcome
import JasmineGraph.Cypher.NodePlan
import JasmineGraph.Cypher.PathBinding

/-!
# The plan of a `MATCH` clause

Model of the branches `MATCH`, `PATTERN`, `PATTERN_ELEMENTS` and `WHERE` of
`QueryPlanner::createExecutionPlan`, on the syntax trees that `visitOC_Match` builds.

* A `MATCH` gets the operator that the clauses before it have made, or the null pointer. If its
  `WHERE` compares the id of a variable, a new `NodeByIdSeek` takes the place of that operator.
* All parts of the pattern are planned on the same operator, and joined by `CartesianProduct`s.
* A path takes the operator for a `NodeByIdSeek` whenever there is one. If it is another operator the
  cast is the fault `badCast`; reading an element that is not there is `undefined`.
* The planner has no branch for a named path, which keeps the operator.
* The counter that `pathPatternHandler` leaves without a value is a part of the pattern: its text
  depends on it.
* A comparison is searched for in the `WHERE` only: the values of a property map are leaves here.
-/

namespace JasmineGraph.Cypher

open JasmineGraph.Bytes JasmineGraph.Outcome List MatchPlan
open Option hiding or_assoc

/-! ## The syntax -/

/-- A part of a pattern: a node, a path, or a path with a name. -/
inductive PatternPart
  | node (n : NodePattern Variable)
  | path (p : PathPattern Variable) (uninit : Int)
  | named

/-- The trees that `analyzeWhere` takes for a condition of their own. -/
def isPlainTree (t : NodeType) : Bool :=
  t ∉ [.OR, .AND, .XOR, Const.NOT, .COMPARISON, .PREDICATE_EXPRESSIONS]

/-- What the Boolean levels of a `WHERE` join: a comparison, a string, list or null predicate, or
another expression. -/
inductive WhereAtom
  | comparison (c : Comparison)
  | predicate (left : ASTNode) (kind : NodeType) (right : ASTNode) (more others : List ASTNode)
  | other (node : ASTNode) (plain : isPlainTree node.nodeType = true)

namespace WhereAtom

/-- `visitOC_ComparisonExpression` and `visitOC_StringListNullPredicateExpression`. -/
def visit : WhereAtom → ASTNode
  | comparison c => visitComparisonExpression c
  | predicate left kind right more others =>
    .internal .PREDICATE_EXPRESSIONS (left :: .internal kind (right :: more) :: others)
  | other node _ => node

def operands : WhereAtom → List ASTNode
  | comparison c => [c.left, c.first.operand]
  | predicate left _ right _ _ => [left, right]
  | other _ _ => []

def FunctionsApplied (a : WhereAtom) : Prop :=
  ∀ x ∈ a.operands, x.nodeType = .FUNCTION_BODY → 2 ≤ x.elements.length

end WhereAtom

/-- What the builder guarantees about an operand: a function has a name, and another operand has the
parts that `comparisonOperand` reads. -/
def OperandBuilt (x : ASTNode) : Prop :=
  if x.nodeType = .FUNCTION_BODY then x.isNamed = true else (comparisonOperand x).isSome

def whereNode (e : Expression WhereAtom) : ASTNode :=
  .internal .WHERE [visitExpression WhereAtom.visit e]

structure MatchClause where
  first : PatternPart
  rest : List PatternPart
  condition : Option (Expression WhereAtom)
  values : ∀ n, .node n ∈ first :: rest → n.ValuesPlain
  built : ∀ e ∈ condition, ∀ a ∈ e.atoms, ∀ x ∈ a.operands, OperandBuilt x

def MatchClause.parts (m : MatchClause) : List PatternPart := m.first :: m.rest

/-! ## The planner -/

/-- What can go wrong in planning. -/
inductive PlanFault
  | undefined | badCast
  deriving DecidableEq, Repr

def orUndefined {α : Type} : Option α → Except PlanFault α
  | some a => .ok a
  | none => .error .undefined

/-- One turn of the loop over the comparisons of a `MATCH`. -/
def seekStep (w : ASTNode) (seek : Option (Text × Text)) (a : ASTNode) :
    Option (Option (Text × Text)) := do
  let left ← a.element 0
  if left.nodeType ≠ .FUNCTION_BODY then some seek
  else do
    let name ← left.functionName
    if name ≠ ascii "id" then some seek
    else do
      let opr ← a.element 1
      if opr.nodeType = .DOUBLE_EQUAL ∧ isAvailable .OR w = false ∧ isAvailable .XOR w = false then do
        let id ← opr.element 0
        let argument ← left.firstArgument
        some (some (id.value, argument.value))
      else some seek

/-- The search for an id in the branch `MATCH`: the id and the variable of the last `NodeByIdSeek`
that is made. -/
def findSeek (w : ASTNode) : Option (Option (Text × Text)) :=
  if isAvailable .FUNCTION_BODY w then
    (getSubTreeListByNodeType .COMPARISON w).foldlM (seekStep w) none
  else some none

/-- The id and the variable of an operator that is a `NodeByIdSeek`. -/
def MatchPlan.seek : MatchPlan → Option (Text × Text)
  | .scan (.nodeByIdSeek id var) => some (id, var)
  | _ => none

def planPart (currentOperator : MatchPlan) : PatternPart → Except PlanFault MatchPlan
  | .node n => orUndefined (planNodePattern (visitNodePattern n) currentOperator)
  | .named => .ok currentOperator
  | .path p uninit =>
    let plan input := orUndefined ((pathPatternHandler p input uninit).map fun s => .scan s.operator)
    if currentOperator.isNull then plan none
    else
      match currentOperator.seek with
      | some seek => plan (some seek)
      | none => .error .badCast

def planPattern (currentOperator : MatchPlan) (first : PatternPart) (rest : List PatternPart) :
    Except PlanFault MatchPlan := do
  let leftOperator ← planPart currentOperator first
  rest.foldlM (fun leftOperator part => do
    let rightOperator ← planPart currentOperator part
    .ok (.cartesianProduct leftOperator rightOperator)) leftOperator

def planMatch (currentOperator : MatchPlan) (m : MatchClause) : Except PlanFault MatchPlan := do
  let seek ← orUndefined (m.condition.elim (some none) fun e => findSeek (whereNode e))
  let currentOperator := seek.elim currentOperator fun s => .scan (.nodeByIdSeek s.1 s.2)
  let pattern ← planPattern currentOperator m.first m.rest
  .ok (m.condition.elim pattern fun e => .filter pattern [(ascii "null", whereNode e)])

/-! ## The id that is sought -/

section Seek

def idComparison (a : ASTNode) : Option (Text × Text) := do
  let f ← a.element 0
  let e ← a.element 1
  if f.nodeType = .FUNCTION_BODY ∧ f.functionName = some (ascii "id") ∧
      e.nodeType = .DOUBLE_EQUAL then
    some ((← e.element 0).value, (← f.firstArgument).value)
  else none

/-- The id and the variable of the last comparison `id(x) = k` of a `WHERE` without `OR` and `XOR`. -/
def seekOf (w : ASTNode) : Option (Text × Text) :=
  if isAvailable .OR w = false ∧ isAvailable .XOR w = false then
    ((getSubTreeListByNodeType .COMPARISON w).filterMap idComparison).getLast?
  else none

mutual

theorem isAvailable_of_subTree {t u : NodeType} {x : ASTNode} (hx : isAvailable t x = true) :
    ∀ n : ASTNode, x ∈ getSubTreeListByNodeType u n → isAvailable t n = true
  | .mk _ _ elements, h => by
    rw [isAvailable, isAvailableIn_of_subTrees hx elements h, Bool.or_true]

theorem isAvailableIn_of_subTrees {t u : NodeType} {x : ASTNode} (hx : isAvailable t x = true) :
    ∀ es : List ASTNode, x ∈ subTreesIn u es → isAvailableIn t es = true
  | [], h => absurd h not_mem_nil
  | e :: es, h => by
    rw [isAvailableIn, Bool.or_eq_true]
    rw [subTreesIn, mem_append] at h
    rcases h with h | h
    · split at h
      · rw [← mem_singleton.1 h]
        exact .inl hx
      · exact .inl (isAvailable_of_subTree hx e h)
    · exact .inr (isAvailableIn_of_subTrees hx es h)

end

variable {w a : ASTNode} {seek r : Option (Text × Text)}

theorem seekStep_eq (h : seekStep w seek a = some r) :
    r = if isAvailable .OR w = false ∧ isAvailable .XOR w = false then (idComparison a).or seek
      else seek := by
  obtain ⟨left, hleft, h⟩ := bind_eq_some_iff.1 h
  have hnone : idComparison a = none →
      seek = if isAvailable .OR w = false ∧ isAvailable .XOR w = false then (idComparison a).or seek
        else seek := by
    intro hid
    rw [hid, none_or, ite_self]
  split at h
  · rename_i hfunction
    refine (some.inj h).symm.trans (hnone ?_)
    cases hopr : a.element 1 <;> simp [idComparison, hleft, hfunction]
  · rename_i hfunction
    obtain ⟨name, hname, h⟩ := bind_eq_some_iff.1 h
    split at h
    · rename_i hid
      refine (some.inj h).symm.trans (hnone ?_)
      cases hopr : a.element 1 <;> simp [idComparison, hleft, hname, hid]
    · rename_i hid
      obtain ⟨opr, hopr, h⟩ := bind_eq_some_iff.1 h
      push Not at hfunction hid
      split at h
      · rename_i hguard
        obtain ⟨id, hvalue, h⟩ := bind_eq_some_iff.1 h
        obtain ⟨argument, hargument, h⟩ := bind_eq_some_iff.1 h
        rw [if_pos hguard.2, ← some.inj h]
        simp [idComparison, hleft, hopr, hname, hid, hvalue, hargument, hfunction, hguard.1]
      · rename_i hguard
        refine (some.inj h).symm.trans ?_
        by_cases hsign : opr.nodeType = .DOUBLE_EQUAL
        · rw [if_neg fun hnot => hguard ⟨hsign, hnot⟩]
        · simp [idComparison, hopr, hsign]

theorem foldlM_seekStep {as : List ASTNode} (h : as.foldlM (seekStep w) seek = some r) :
    r = if isAvailable .OR w = false ∧ isAvailable .XOR w = false then
        ((as.filterMap idComparison).getLast?).or seek
      else seek := by
  induction as generalizing seek with
  | nil =>
    rw [← some.inj h]
    simp
  | cons a as ih =>
    obtain ⟨seek', hstep, h⟩ := bind_eq_some_iff.1 h
    rw [ih h, seekStep_eq hstep]
    split
    · cases hid : idComparison a with
      | none => rw [filterMap_cons_none hid, none_or]
      | some id =>
        rw [filterMap_cons_some hid, getLast?_cons]
        cases (as.filterMap idComparison).getLast? <;> rfl
    · rfl

theorem isAvailable_of_idComparison {id : Text × Text} (h : idComparison a = some id) :
    isAvailable .FUNCTION_BODY a = true := by
  obtain ⟨f, hf, h⟩ := bind_eq_some_iff.1 h
  obtain ⟨e, -, h⟩ := bind_eq_some_iff.1 h
  have htype : f.nodeType = .FUNCTION_BODY := by
    split at h
    · rename_i hall
      exact hall.1
    · exact absurd h nofun
  rcases a with ⟨t, v, _ | ⟨g, gs⟩⟩
  · exact absurd hf nofun
  · obtain rfl : g = f := some.inj hf
    rcases g with ⟨u, v', es⟩
    obtain rfl : u = .FUNCTION_BODY := htype
    simp [isAvailable, isAvailableIn]

theorem findSeek_eq (h : findSeek w = some r) : r = seekOf w := by
  unfold findSeek at h
  unfold seekOf
  split at h
  · rw [foldlM_seekStep h]
    simp
  · rename_i hfunction
    have hnil : (getSubTreeListByNodeType .COMPARISON w).filterMap idComparison = [] := by
      refine filterMap_eq_nil_iff.2 fun a ha => ?_
      cases hid : idComparison a with
      | none => rfl
      | some id =>
        exact absurd (isAvailable_of_subTree (isAvailable_of_idComparison hid) w ha) hfunction
    rw [hnil, getLast?_nil, ite_self]
    exact (some.inj h).symm

end Seek

/-! ## The condition -/

section Condition

variable {x : ASTNode} {a : WhereAtom} {e : Expression WhereAtom}

theorem isSome_comparisonOperand_iff (h : OperandBuilt x) :
    (comparisonOperand x).isSome ↔ (x.nodeType = .FUNCTION_BODY → 2 ≤ x.elements.length) := by
  unfold OperandBuilt at h
  split at h
  · obtain ⟨t, v, es⟩ := x
    rcases es with _ | ⟨⟨_, _, _ | ⟨_, _ | ⟨_, _⟩⟩⟩, _ | ⟨_, _⟩⟩ <;>
      simp_all [comparisonOperand, ASTNode.nodeType, ASTNode.element, ASTNode.elements,
        ASTNode.isNamed]
  · rename_i htype
    exact iff_of_true h fun hfunction => absurd hfunction htype

theorem isSome_comparison_iff {left right : ASTNode} (h : ∀ x ∈ [left, right], OperandBuilt x)
    (condition : Operand → Operand → Condition) :
    (do some (condition (← comparisonOperand left) (← comparisonOperand right)) :
      Option Condition).isSome ↔
      ∀ x ∈ [left, right], x.nodeType = .FUNCTION_BODY → 2 ≤ x.elements.length := by
  simp only [forall_mem_cons] at h ⊢
  rw [← isSome_comparisonOperand_iff h.1, ← isSome_comparisonOperand_iff h.2.1]
  cases comparisonOperand left <;> cases comparisonOperand right <;> simp

theorem isSome_analyzeAtom_iff (h : ∀ x ∈ a.operands, OperandBuilt x) :
    (analyzeWhere a.visit).isSome ↔ a.FunctionsApplied := by
  cases a with
  | comparison c => exact isSome_comparison_iff h (.comparison · _)
  | predicate left kind right more others => exact isSome_comparison_iff h (.predicate · _)
  | other node plain =>
    rcases node with ⟨t, v, es⟩
    refine iff_of_true ?_ nofun
    simp only [isPlainTree, ASTNode.nodeType, mem_cons, not_or,
      decide_eq_true_eq] at plain
    simp [WhereAtom.visit, analyzeWhere, plain]

/-- The condition has no `XOR`, and functions in its comparisons have arguments. -/
def WherePrinted (e : Expression WhereAtom) : Prop :=
  e.xorFree = true ∧ ∀ a ∈ e.atoms, a.FunctionsApplied

theorem printed_where_iff (h : ∀ a ∈ e.atoms, ∀ x ∈ a.operands, OperandBuilt x) :
    Printed [(ascii "null", whereNode e)] ↔ WherePrinted e := by
  have hcase : analyzeCase (ascii "null", whereNode e) ≠ none ↔
      (analyzeWhere (visitExpression WhereAtom.visit e)).isSome := by
    cases hwhere : analyzeWhere (visitExpression WhereAtom.visit e) <;>
      simp [analyzeCase, whereNode, ASTNode.element, hwhere]
  rw [Printed, forall_mem_singleton, hcase, Expression.isSome_analyzeWhere_iff]
  exact and_congr_right fun _ => forall₂_congr fun a ha => isSome_analyzeAtom_iff (h a ha)

end Condition

/-! ## The parts -/

namespace PatternPart

def isPath : PatternPart → Bool
  | path _ _ => true
  | _ => false

def isBlank : PatternPart → Bool
  | node n => n.isBlank
  | _ => false

/-- The part has no plan of its own. -/
def plansNothing : PatternPart → Bool
  | node n => n.plansNothing
  | path _ _ => false
  | named => true

/-- The part's own operators are registered and can be printed, if it is planned on no operator, on a
`NodeByIdSeek` or on another one. -/
def PlanSound (null : Bool) (seek : Option (Text × Text)) : PatternPart → Prop
  | node n => n.PlanSound null
  | path p uninit =>
    match seek with
    | some s => p.MapsPrinted (p.seekPlace s.2 uninit)
    | none => p.filters = true → p.MapsPrinted none
  | named => True

/-- A path is planned on no operator or on a `NodeByIdSeek`. -/
def Casts (null : Bool) (seek : Option (Text × Text)) (part : PatternPart) : Prop :=
  part.isPath = true → null = true ∨ seek.isSome

end PatternPart

section Parts

variable {current : MatchPlan}

/-- Reading an element that is not there is nothing that the planner's results are about. -/
def Excused (fault : PlanFault) : Prop := fault = .undefined

structure PartPlanned (current : MatchPlan) (part : PatternPart) (result : MatchPlan) : Prop where
  sound : result.Sound ↔
    part.PlanSound current.isNull current.seek ∧ (part.isBlank = true ∨ current.Sound)
  null : result.isNull = (current.isNull && part.plansNothing)
  seek : current.seek = none → result.seek = none

theorem meets_orUndefined {α : Type} {o : Option α} {P : α → Prop} (h : ∀ a, o = some a → P a) :
    Meets Excused (orUndefined o) True P := by
  cases o with
  | none => exact .inl rfl
  | some a => exact .ok (h a rfl)

theorem seek_plan {n : NodePattern Variable} {result : MatchPlan} (h : n.plan current = some result)
    (hseek : current.seek = none) : result.seek = none := by
  have hinput : (if current.isNull then .scan n.nodeScan else current).seek = none := by
    split
    · rw [NodePattern.nodeScan]
      split <;> rfl
    · exact hseek
  rw [NodePattern.plan] at h
  cases hproperties : n.properties with
  | none =>
    simp only [hproperties] at h
    split at h
    · rw [← some.inj h]
      rfl
    split at h
    · rw [← some.inj h]
      exact hinput
    split at h <;> rw [← some.inj h] <;> rfl
  | some entries =>
    simp only [hproperties] at h
    split at h
    · cases h
    split at h <;> rw [← some.inj h]
    · exact hseek
    · rfl

theorem seek_scanStart {p : PathPattern Variable} {uninit : Int} {s : Frontier}
    (h : scanStart p uninit = some s) : (scan s.operator).seek = none := by
  by_cases hp : ∀ h ∈ p.hops, h.Plannable
  · obtain ⟨s', hs', hcomplete⟩ := scanStart_complete hp uninit
    obtain rfl := some.inj (h.symm.trans hs')
    cases hop : s.operator with
    | nodeByIdSeek id var =>
      have hrels := hcomplete.relationships.length_eq
      rw [hop] at hrels
      exact absurd hrels nofun
    | _ => rfl
  · push Not at hp
    rw [scanStart_eq_none hp] at h
    exact absurd h nofun

theorem isNull_of_seek {s : Text × Text} (h : current.seek = some s) :
    current.isNull = false ∧ current.Sound := by
  unfold seek at h
  split at h
  · exact ⟨rfl, trivial, trivial⟩
  · exact absurd h nofun

theorem planned_path {p : PathPattern Variable} {uninit : Int} {s : Frontier}
    {input : Option (Text × Text)} (hseek : current.seek = input) (hsound : current.Sound)
    (h : pathPatternHandler p input uninit = some s) :
    PartPlanned current (.path p uninit) (.scan s.operator) where
  sound := by
    refine (and_iff_left (noLabelLists_pathPatternHandler h)).trans ?_
    refine Iff.trans ?_ (and_iff_left (.inr hsound)).symm
    rw [hseek]
    cases input with
    | none => exact filtersPrinted_scan_iff h
    | some seek => exact filtersPrinted_seek_iff h
  null := by
    rw [PatternPart.plansNothing, Bool.and_false]
    rfl
  seek := by
    intro hnone
    obtain rfl : none = input := hnone.symm.trans hseek
    exact seek_scanStart h

theorem planPart_meets {part : PatternPart} (hvalues : ∀ n, part = .node n → n.ValuesPlain) :
    Meets Excused (planPart current part) (part.Casts current.isNull current.seek)
      (PartPlanned current part) := by
  cases part with
  | node n =>
    refine Meets.congr (meets_orUndefined fun result h => ?_)
      (iff_of_true trivial nofun) fun _ h => h
    rw [planNodePattern_eq (hvalues n rfl)] at h
    obtain ⟨hsound, hnull⟩ := NodePattern.plan_spec h
    exact ⟨hsound, hnull, seek_plan h⟩
  | named =>
    refine Meets.congr (.ok ⟨?_, ?_, fun h => h⟩) (iff_of_true trivial nofun) fun _ h => h
    · exact ⟨fun h => ⟨trivial, .inr h⟩, fun h => h.2.resolve_left nofun⟩
    · exact (Bool.and_true _).symm
  | path p uninit =>
    rw [planPart]
    cases hnull : current.isNull with
    | true =>
      refine Meets.congr (meets_orUndefined fun result h => ?_)
        (iff_of_true trivial fun _ => .inl rfl) fun _ h => h
      obtain ⟨s, hs, rfl⟩ := map_eq_some_iff.1 h
      obtain rfl := isNull_eq_true.1 hnull
      exact planned_path rfl trivial hs
    | false =>
      cases hseek : current.seek with
      | none => exact .inr fun hcasts => (hcasts rfl).elim nofun nofun
      | some seek =>
        refine Meets.congr (meets_orUndefined fun result h => ?_)
          (iff_of_true trivial fun _ => .inr rfl) fun _ h => h
        obtain ⟨s, hs, rfl⟩ := map_eq_some_iff.1 h
        exact planned_path hseek (isNull_of_seek hseek).2 hs

def PartGood (current : MatchPlan) (part : PatternPart) : Prop :=
  part.PlanSound current.isNull current.seek ∧ (part.isBlank = true ∨ current.Sound)

/-- The plan of the parts after the first, on top of the plan `left` of those before. -/
structure PartsPlanned (current left : MatchPlan) (rest : List PatternPart) (result : MatchPlan) :
    Prop where
  sound : result.Sound ↔ left.Sound ∧ (rest ≠ [] → left.isNull = false) ∧
    ∀ part ∈ rest, PartGood current part ∧ (current.isNull && part.plansNothing) = false
  null : result.isNull = (left.isNull && rest.isEmpty)
  seek : left.seek = none → result.seek = none

theorem foldlM_planPart_meets {rest : List PatternPart} {left : MatchPlan}
    (hvalues : ∀ n, .node n ∈ rest → n.ValuesPlain) :
    Meets Excused
      (rest.foldlM (fun leftOperator part => do
        let rightOperator ← planPart current part
        .ok (.cartesianProduct leftOperator rightOperator)) left)
      (∀ part ∈ rest, part.Casts current.isNull current.seek)
      (PartsPlanned current left rest) := by
  induction rest generalizing left with
  | nil =>
    refine Meets.congr (.ok ⟨?_, ?_, fun h => h⟩) (iff_of_true trivial (forall_mem_nil _)) fun _ h => h
    · simp
    · exact (Bool.and_true _).symm
  | cons part rest ih =>
    have hpart : Meets Excused (planPart current part) (part.Casts current.isNull current.seek)
        (PartPlanned current part) :=
      planPart_meets fun n hn => hvalues n (mem_cons.2 (.inl hn.symm))
    have hproduct := hpart.bind
      (Q := fun product => ∃ right, PartPlanned current part right ∧
        product = cartesianProduct left right) fun right hright => .ok ⟨right, hright, rfl⟩
    refine (hproduct.bind (d := ∀ part ∈ rest, part.Casts current.isNull current.seek)
      fun product hproduct => ?_).congr (by rw [forall_mem_cons, and_true]) fun _ h => h
    obtain ⟨right, hright, rfl⟩ := hproduct
    refine (ih fun n hn => hvalues n (mem_cons_of_mem _ hn)).congr .rfl fun result h => ?_
    refine ⟨?_, by rw [h.null, isEmpty_cons, Bool.and_false]; rfl, fun _ => h.seek rfl⟩
    rw [h.sound, Sound, hright.null, hright.sound, forall_mem_cons]
    constructor
    · rintro ⟨⟨⟨hl, hr⟩, hleft, hpart⟩, -, hrest⟩
      exact ⟨hleft, fun _ => hl, ⟨hpart, hr⟩, hrest⟩
    · rintro ⟨hleft, hl, ⟨hpart, hr⟩, hrest⟩
      exact ⟨⟨⟨hl (cons_ne_nil _ _), hr⟩, hleft, hpart⟩, fun _ => rfl, hrest⟩

structure PatternPlanned (current : MatchPlan) (first : PatternPart) (rest : List PatternPart)
    (result : MatchPlan) : Prop where
  sound : result.Sound ↔ (∀ part ∈ first :: rest, part.PlanSound current.isNull current.seek) ∧
      (rest ≠ [] → current.isNull = true → ∀ part ∈ first :: rest, part.plansNothing = false) ∧
      ((∀ part ∈ first :: rest, part.isBlank = true) ∨ current.Sound)
  null : result.isNull = (current.isNull && (rest.isEmpty && first.plansNothing))
  seek : current.seek = none → result.seek = none

theorem planPattern_meets (current : MatchPlan) {first : PatternPart} {rest : List PatternPart}
    (hvalues : ∀ n, .node n ∈ first :: rest → n.ValuesPlain) :
    Meets Excused (planPattern current first rest)
      (∀ part ∈ first :: rest, part.Casts current.isNull current.seek)
      (PatternPlanned current first rest) := by
  have hfirst : Meets Excused (planPart current first) (first.Casts current.isNull current.seek)
      (PartPlanned current first) :=
    planPart_meets fun n hn => hvalues n (mem_cons.2 (.inl hn.symm))
  refine (hfirst.bind fun left hleft => ?_).congr (by rw [forall_mem_cons]) fun _ h => h
  refine (foldlM_planPart_meets fun n hn => hvalues n (mem_cons_of_mem _ hn)).congr .rfl
    fun result h => ⟨?_, ?_, fun hseek => h.seek (hleft.seek hseek)⟩
  · rw [h.sound, hleft.sound, hleft.null]
    constructor
    · rintro ⟨⟨hown, hbelow⟩, hnull, hrest⟩
      refine ⟨forall_mem_cons.2 ⟨hown, fun part hpart => (hrest part hpart).1.1⟩, ?_, ?_⟩
      · intro hne hcurrent
        rw [hcurrent] at hnull hrest
        exact forall_mem_cons.2 ⟨hnull hne, fun part hpart => (hrest part hpart).2⟩
      · by_cases hsound : current.Sound
        · exact .inr hsound
        · exact .inl (forall_mem_cons.2 ⟨hbelow.resolve_right hsound,
            fun part hpart => (hrest part hpart).1.2.resolve_right hsound⟩)
    · rintro ⟨hown, hnull, hbelow⟩
      have hbelow' : ∀ part ∈ first :: rest, part.isBlank = true ∨ current.Sound :=
        fun part hpart => hbelow.imp_left fun h => h part hpart
      have hnothing : rest ≠ [] → ∀ part ∈ first :: rest,
          (current.isNull && part.plansNothing) = false := by
        intro hne part hpart
        cases hcurrent : current.isNull with
        | false => rfl
        | true => exact hnull hne hcurrent part hpart
      rw [forall_mem_cons] at hown hbelow'
      refine ⟨⟨hown.1, hbelow'.1⟩, fun hne => hnothing hne first mem_cons_self, ?_⟩
      intro part hpart
      exact ⟨⟨hown.2 part hpart, hbelow'.2 part hpart⟩,
        hnothing (ne_nil_of_mem hpart) part (mem_cons_of_mem _ hpart)⟩
  · rw [h.null, hleft.null, Bool.and_assoc, Bool.and_comm first.plansNothing]

end Parts

/-! ## The clause -/

namespace MatchClause

def seek (m : MatchClause) : Option (Text × Text) := m.condition.bind fun e => seekOf (whereNode e)

/-- Every path is planned on no operator or on a `NodeByIdSeek`. -/
def Casts (m : MatchClause) (null : Bool) : Prop :=
  ∀ part ∈ m.parts, part.isPath = true → null = true ∨ m.seek.isSome

/-- The clause's own operators are registered and can be printed. -/
def PlanSound (m : MatchClause) (null : Bool) : Prop :=
  (∀ part ∈ m.parts, part.PlanSound (null && m.seek.isNone) m.seek) ∧
    (m.rest ≠ [] → null = true → m.seek = none → ∀ part ∈ m.parts, part.plansNothing = false) ∧
    ∀ e ∈ m.condition, WherePrinted e

def Discards (m : MatchClause) : Prop := m.seek.isSome ∨ ∀ part ∈ m.parts, part.isBlank = true

/-- The clause has no plan of its own. -/
def plansNothing (m : MatchClause) : Bool :=
  m.condition.isNone && (m.rest.isEmpty && m.first.plansNothing)

end MatchClause

structure ClausePlanned (current : MatchPlan) (m : MatchClause) (result : MatchPlan) : Prop where
  sound : result.Sound ↔ m.PlanSound current.isNull ∧ (m.Discards ∨ current.Sound)
  null : result.isNull = (current.isNull && m.plansNothing)
  seek : result.seek = none

/-- **The plan of a `MATCH`.** -/
theorem planMatch_meets {current : MatchPlan} (m : MatchClause) (hcurrent : current.seek = none) :
    Meets Excused (planMatch current m) (m.Casts current.isNull) (ClausePlanned current m) := by
  have hfind : Meets Excused
      (orUndefined (m.condition.elim (some none) fun e => findSeek (whereNode e))) True
      (· = m.seek) := by
    refine meets_orUndefined fun r h => ?_
    rw [MatchClause.seek]
    cases hcondition : m.condition with
    | none =>
      rw [hcondition] at h
      exact (some.inj h).symm
    | some e =>
      rw [hcondition] at h
      exact findSeek_eq h
  -- the operator that the parts are planned on
  set input := m.seek.elim current fun s => .scan (.nodeByIdSeek s.1 s.2) with hinput
  have hseek : input.seek = m.seek := by
    rw [hinput]
    cases m.seek with
    | none => exact hcurrent
    | some s => rfl
  have hnull : input.isNull = (current.isNull && m.seek.isNone) := by
    rw [hinput]
    cases m.seek with
    | none => exact (Bool.and_true _).symm
    | some s => exact (Bool.and_false _).symm
  have hsound : input.Sound ↔ m.seek.isSome ∨ current.Sound := by
    rw [hinput]
    cases m.seek with
    | none => exact ⟨.inr, fun h => h.resolve_left nofun⟩
    | some s => exact iff_of_true ⟨trivial, trivial⟩ (.inl rfl)
  refine (hfind.bind fun seek heq => ?_).congr (iff_of_eq (true_and _)) fun _ h => h
  subst heq
  refine ((planPattern_meets input m.values).bind
    fun pattern h => .ok ?_).congr
    ?_ fun _ h => h
  · have hpattern : pattern.Sound ↔
        (∀ part ∈ m.parts, part.PlanSound (current.isNull && m.seek.isNone) m.seek) ∧
          (m.rest ≠ [] → current.isNull = true → m.seek = none →
            ∀ part ∈ m.parts, part.plansNothing = false) ∧ (m.Discards ∨ current.Sound) := by
      rw [h.sound, hseek, hnull, hsound, MatchClause.Discards, Bool.and_eq_true,
        isNone_iff_eq_none, or_left_comm, or_assoc, and_imp]
      rfl
    cases hcondition : m.condition with
    | none =>
      refine ⟨?_, ?_, h.seek (hseek.trans ?_)⟩
      · simp only [elim_none, hpattern, MatchClause.PlanSound, hcondition]
        simp [and_assoc]
      · rw [elim_none, h.null, hnull, MatchClause.plansNothing,
          MatchClause.seek, hcondition]
        simp
      · rw [MatchClause.seek, hcondition]
        rfl
    | some e =>
      refine ⟨?_, by rw [MatchClause.plansNothing, hcondition]; exact (Bool.and_false _).symm, rfl⟩
      have hcase := printed_where_iff (m.built e hcondition)
      simp only [elim_some, Sound, hpattern, MatchClause.PlanSound, hcondition]
      refine (and_congr_right fun _ => hcase).trans ?_
      simp [and_comm, and_left_comm]
  · rw [and_true, hseek, hnull]
    refine forall₂_congr fun part _ => imp_congr_right fun _ => ?_
    cases m.seek <;> simp

end JasmineGraph.Cypher
