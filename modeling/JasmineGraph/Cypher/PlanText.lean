import JasmineGraph.Cypher.FilterCases
import JasmineGraph.Cypher.Operator

/-!
# The text of an execution plan

`execute` of an operator returns the plan as text: a JSON object with the operator's name, its
parameters and, as strings, the texts of its inputs under `NextOperator`, or `left` and `right`. The
worker parses the text, looks the name up in `OperatorExecutor::methodMap` and does the same with
the embedded strings.

* `PlanText` is that text with the embedded texts in place; printing and parsing are each other's
  inverse, so the data type stands for the string. `empty` is the empty string, which some operators
  return and which does not parse.
* `Registered`: a text, and every text embedded in it, is not empty and names an operator of
  `methodMap`.
* `Operator.execute` prints the operators of one pattern. It fails where the condition of a filter
  cannot be printed.
* `MatchPlan` is what the `MATCH` clauses of a query are planned to: operators of single patterns,
  with the products and filters on top of them, or the null pointer. A filter prints its input if it
  has one; a product reads both inputs.
-/

namespace JasmineGraph.Cypher

open JasmineGraph.Bytes Option

/-- A parameter of an operator in the text of a plan. -/
inductive Member
  | text (value : Text)
  | texts (values : List Text)
  | operands (values : List (List (Text × Text)))
  | condition (value : Condition)

inductive PlanText
  | empty
  | source (operator : Text) (members : List (Text × Member))
  | over (operator : Text) (members : List (Text × Member)) (nextOperator : PlanText)
  | product (operator : Text) (left right : PlanText)

def PlanText.on (operator : Text) (members : List (Text × Member)) : Option PlanText → PlanText
  | none => source operator members
  | some nextOperator => .over operator members nextOperator

/-- The names that `OperatorExecutor::initializeMethodMap` registers. -/
def methodMap : List Text :=
  ["AllNodeScan", "ProduceResult", "Filter", "ExpandAll", "UndirectedRelationshipTypeScan",
    "UndirectedAllRelationshipScan", "DirectedRelationshipTypeScan", "DirectedAllRelationshipScan",
    "NodeByIdSeek", "Projection", "AggregationFunction", "Create", "CartesianProduct", "Distinct",
    "OrderBy", "NodeScanByLabel"].map ascii

def PlanText.Registered : PlanText → Prop
  | empty => False
  | source operator _ => operator ∈ methodMap
  | .over operator _ nextOperator => operator ∈ methodMap ∧ nextOperator.Registered
  | product operator left right => operator ∈ methodMap ∧ left.Registered ∧ right.Registered

theorem PlanText.registered_on {operator : Text} (h : operator ∈ methodMap)
    (members : List (Text × Member)) (next : Option PlanText) :
    (on operator members next).Registered ↔ ∀ text ∈ next, text.Registered := by
  cases next with
  | none => exact iff_of_true h nofun
  | some text => exact (and_iff_right h).trans (by simp)

def Direction.text : Direction → Text
  | left => ascii "left"
  | right => ascii "right"

def relationshipMembers (startVar endVar relVar : Text) : List (Text × Member) :=
  [(ascii "sourceVariable", .text startVar), (ascii "destVariable", .text endVar),
    (ascii "relVariable", .text relVar)]

def expandMembers (relType : Text) (direction : Option Direction) : List (Text × Member) :=
  ((printedType relType).map fun t => (ascii "relType", Member.text t)).toList ++
    (direction.map fun d => (ascii "direction", Member.text d.text)).toList

theorem isSome_filter_iff {cases : List (Text × ASTNode)} :
    (Filter.execute cases).isSome ↔ ∀ item ∈ cases, analyzeCase item ≠ none := by
  constructor
  · intro h item hitem hnone
    rw [Filter.execute, execute_eq_none ⟨item, hitem, hnone⟩] at h
    exact absurd h Bool.false_ne_true
  · intro h
    obtain ⟨condition, hcondition⟩ := execute_isSome .null h
    rw [Filter.execute, hcondition]
    rfl

namespace Operator

def execute : Operator → Option PlanText
  | allNodeScan var => some (.source (ascii "AllNodeScan") [(ascii "variables", .text var)])
  | nodeScanByLabel label var =>
    some (.source (ascii "NodeScanByLabel")
      [(ascii "variable", .text var), (ascii "Label", .text label)])
  | multipleNodeScanByLabel labels var =>
    some (.source (ascii "MultipleNodeScanByLabel")
      [(ascii "variables", .text var), (ascii "Label", .texts labels)])
  | nodeByIdSeek id var =>
    some (.source (ascii "NodeByIdSeek") [(ascii "variable", .text var), (ascii "id", .text id)])
  | undirectedRelationshipTypeScan relType relVar startVar endVar =>
    some (.source (ascii "UndirectedRelationshipTypeScan")
      (relationshipMembers startVar endVar relVar ++ [(ascii "relType", .text relType)]))
  | directedRelationshipTypeScan direction relType relVar startVar endVar =>
    some (.source (ascii "DirectedRelationshipTypeScan")
      (relationshipMembers startVar endVar relVar ++
        [(ascii "relType", .text relType), (ascii "direction", .text direction.text)]))
  | undirectedAllRelationshipScan startVar endVar relVar =>
    some (.source (ascii "UndirectedAllRelationshipScan")
      (relationshipMembers startVar endVar relVar))
  | directedAllRelationshipScan direction startVar endVar relVar =>
    some (.source (ascii "DirectedAllRelationshipScan")
      (relationshipMembers startVar endVar relVar ++ [(ascii "direction", .text direction.text)]))
  | expandAll input startVar destVar relVar relType direction => do
    let nextOperator ← input.execute
    some (.over (ascii "ExpandAll")
      (relationshipMembers startVar destVar relVar ++ expandMembers relType direction) nextOperator)
  | filter input cases => do
    let nextOperator ← input.execute
    let condition ← Filter.execute cases
    some (.over (ascii "Filter") [(ascii "condition", .condition condition)] nextOperator)
  | cartesianProduct left right => do
    let leftText ← left.execute
    let rightText ← right.execute
    some (.product (ascii "CartesianProduct") leftText rightText)

def FiltersPrinted : Operator → Prop
  | expandAll input _ _ _ _ _ => input.FiltersPrinted
  | filter input cases => input.FiltersPrinted ∧ (Filter.execute cases).isSome
  | cartesianProduct left right => left.FiltersPrinted ∧ right.FiltersPrinted
  | _ => True

def NoLabelLists : Operator → Prop
  | multipleNodeScanByLabel _ _ => False
  | expandAll input _ _ _ _ _ => input.NoLabelLists
  | filter input _ => input.NoLabelLists
  | cartesianProduct left right => left.NoLabelLists ∧ right.NoLabelLists
  | _ => True

theorem isSome_execute_iff (op : Operator) : op.execute.isSome ↔ op.FiltersPrinted := by
  induction op with
  | expandAll input _ _ _ _ _ ih =>
    rw [FiltersPrinted, ← ih]
    cases h : input.execute <;> simp [execute, h]
  | filter input cases ih =>
    rw [FiltersPrinted, ← ih]
    cases h : input.execute <;> cases hc : Filter.execute cases <;> simp [execute, h, hc]
  | cartesianProduct left right ihl ihr =>
    rw [FiltersPrinted, ← ihl, ← ihr]
    cases hl : left.execute <;> cases hr : right.execute <;> simp [execute, hl, hr]
  | _ => exact iff_of_true rfl trivial

section Inversion

variable {input left right : Operator} {text : PlanText}

theorem execute_expandAll {startVar destVar relVar relType : Text} {direction : Option Direction}
    (h : (expandAll input startVar destVar relVar relType direction).execute = some text) :
    ∃ members nextOperator, input.execute = some nextOperator ∧
      text = .over (ascii "ExpandAll") members nextOperator := by
  rw [execute, bind_eq_bind, bind_eq_some_iff] at h
  obtain ⟨nextOperator, hnext, heq⟩ := h
  exact ⟨_, nextOperator, hnext, (some.inj heq).symm⟩

theorem execute_filter {cases : List (Text × ASTNode)}
    (h : (filter input cases).execute = some text) :
    ∃ members nextOperator, input.execute = some nextOperator ∧
      text = .over (ascii "Filter") members nextOperator := by
  rw [execute, bind_eq_bind, bind_eq_some_iff] at h
  obtain ⟨nextOperator, hnext, h⟩ := h
  obtain ⟨condition, -, heq⟩ := bind_eq_some_iff.1 h
  exact ⟨_, nextOperator, hnext, (some.inj heq).symm⟩

theorem execute_cartesianProduct (h : (cartesianProduct left right).execute = some text) :
    ∃ leftText rightText, left.execute = some leftText ∧ right.execute = some rightText ∧
      text = .product (ascii "CartesianProduct") leftText rightText := by
  rw [execute, bind_eq_bind, bind_eq_some_iff] at h
  obtain ⟨leftText, hleft, h⟩ := h
  obtain ⟨rightText, hright, heq⟩ := bind_eq_some_iff.1 h
  exact ⟨leftText, rightText, hleft, hright, (some.inj heq).symm⟩

end Inversion

theorem registered_execute_iff {op : Operator} {text : PlanText} (h : op.execute = some text) :
    text.Registered ↔ op.NoLabelLists := by
  induction op generalizing text with
  | multipleNodeScanByLabel labels var =>
    obtain rfl := some.inj h
    exact iff_of_false (show ascii "MultipleNodeScanByLabel" ∉ methodMap by decide) id
  | expandAll input _ _ _ _ _ ih =>
    obtain ⟨_, nextOperator, hnext, rfl⟩ := execute_expandAll h
    exact (and_iff_right (by decide)).trans (ih hnext)
  | filter input cases ih =>
    obtain ⟨_, nextOperator, hnext, rfl⟩ := execute_filter h
    exact (and_iff_right (by decide)).trans (ih hnext)
  | cartesianProduct left right ihl ihr =>
    obtain ⟨leftText, rightText, hleft, hright, rfl⟩ := execute_cartesianProduct h
    exact (and_iff_right (by decide)).trans (and_congr (ihl hleft) (ihr hright))
  | _ =>
    obtain rfl := some.inj h
    refine iff_of_true ?_ trivial
    unfold PlanText.Registered
    decide

theorem filtersPrinted_iff (op : Operator) :
    op.FiltersPrinted ↔ ∀ item ∈ op.filterCases, analyzeCase item ≠ none := by
  induction op with
  | expandAll input _ _ _ _ _ ih => exact ih
  | filter input cases ih =>
    rw [FiltersPrinted, filterCases, List.forall_mem_append, ih, isSome_filter_iff]
  | cartesianProduct left right ihl ihr =>
    rw [FiltersPrinted, filterCases, List.forall_mem_append, ihl, ihr]
  | _ => exact iff_of_true trivial nofun

end Operator

/-! ## The plan of the `MATCH` clauses -/

/-- The plan of the `MATCH` clauses of a query. -/
inductive MatchPlan
  | null
  | scan (op : Operator)
  | filter (input : MatchPlan) (cases : List (Text × ASTNode))
  | cartesianProduct (left right : MatchPlan)

namespace MatchPlan

/-- The null pointer. -/
def isNull : MatchPlan → Bool
  | null => true
  | _ => false

theorem isNull_eq_true {m : MatchPlan} : m.isNull = true ↔ m = null := by
  cases m <;> simp [isNull]

def execute : MatchPlan → Option PlanText
  | null => none
  | scan op => op.execute
  | filter input cases => do
    let condition ← Filter.execute cases
    let members := [(ascii "condition", Member.condition condition)]
    if input.isNull then some (.source (ascii "Filter") members)
    else do
      let nextOperator ← input.execute
      some (.over (ascii "Filter") members nextOperator)
  | cartesianProduct left right => do
    let leftText ← left.execute
    let rightText ← right.execute
    some (.product (ascii "CartesianProduct") leftText rightText)

/-- The text that a plan adds below an operator that tests its input: none for the null pointer. -/
def printed (m : MatchPlan) : Option (Option PlanText) :=
  if m.isNull then some none else m.execute.map some

def Sound : MatchPlan → Prop
  | null => True
  | scan op => op.FiltersPrinted ∧ op.NoLabelLists
  | filter input cases => input.Sound ∧ ∀ item ∈ cases, analyzeCase item ≠ none
  | cartesianProduct left right =>
    (left.isNull = false ∧ right.isNull = false) ∧ left.Sound ∧ right.Sound

theorem printed_of_not_null {m : MatchPlan} (h : m.isNull = false) :
    m.printed = m.execute.map some := by
  rw [printed, h]
  rfl

theorem execute_of_printed {m : MatchPlan} {text : PlanText} (h : m.printed = some (some text)) :
    m.execute = some text := by
  rw [printed] at h
  split at h
  · exact absurd h nofun
  · obtain ⟨text', htext, heq⟩ := map_eq_some_iff.1 h
    rw [htext, some.inj heq]

theorem execute_filter (input : MatchPlan) (cases : List (Text × ASTNode)) :
    (filter input cases).execute = (Filter.execute cases).bind fun condition =>
      input.printed.map (.on (ascii "Filter") [(ascii "condition", .condition condition)]) := by
  rw [execute]
  cases Filter.execute cases with
  | none => rfl
  | some condition =>
    cases hnull : input.isNull with
    | true => simp [printed, hnull, PlanText.on]
    | false => cases hexec : input.execute <;> simp [printed, hnull, hexec, PlanText.on]

/-- The text of a plan, and of every plan embedded in it, is there and names registered operators
exactly if the plan is sound. -/
theorem sound_iff (m : MatchPlan) :
    m.Sound ↔ ∃ base, m.printed = some base ∧ ∀ text ∈ base, text.Registered := by
  have hsome : ∀ {m : MatchPlan}, m.isNull = false →
      ((∃ base, m.printed = some base ∧ ∀ text ∈ base, text.Registered) ↔
        ∃ text, m.execute = some text ∧ text.Registered) := by
    intro m hnull
    rw [printed_of_not_null hnull]
    constructor
    · rintro ⟨base, hbase, hreg⟩
      obtain ⟨text, htext, rfl⟩ := map_eq_some_iff.1 hbase
      exact ⟨text, htext, hreg text rfl⟩
    · rintro ⟨text, htext, hreg⟩
      exact ⟨some text, by rw [htext]; rfl, by simpa using hreg⟩
  induction m with
  | null => exact iff_of_true trivial ⟨none, rfl, nofun⟩
  | scan op =>
    rw [hsome rfl, Sound, ← Operator.isSome_execute_iff, isSome_iff_exists]
    constructor
    · rintro ⟨⟨text, htext⟩, hlists⟩
      exact ⟨text, htext, (Operator.registered_execute_iff htext).2 hlists⟩
    · rintro ⟨text, htext, hreg⟩
      exact ⟨⟨text, htext⟩, (Operator.registered_execute_iff htext).1 hreg⟩
  | filter input cases ih =>
    rw [hsome rfl]
    refine (and_congr ih (isSome_filter_iff.symm.trans isSome_iff_exists)).trans ?_
    constructor
    · rintro ⟨⟨base, hbase, hreg⟩, condition, hcondition⟩
      rw [execute_filter, hcondition, hbase]
      exact ⟨_, rfl, (PlanText.registered_on (by decide) _ base).2 hreg⟩
    · rintro ⟨text, htext, hreg⟩
      rw [execute_filter] at htext
      obtain ⟨condition, hcondition, htext⟩ := bind_eq_some_iff.1 htext
      obtain ⟨base, hbase, rfl⟩ := map_eq_some_iff.1 htext
      exact ⟨⟨base, hbase, (PlanText.registered_on (by decide) _ base).1 hreg⟩, condition,
        hcondition⟩
  | cartesianProduct left right ihl ihr =>
    rw [hsome rfl]
    constructor
    · rintro ⟨⟨hl, hr⟩, hleft, hright⟩
      obtain ⟨leftText, hleft, hregl⟩ := (hsome hl).1 (ihl.1 hleft)
      obtain ⟨rightText, hright, hregr⟩ := (hsome hr).1 (ihr.1 hright)
      exact ⟨.product (ascii "CartesianProduct") leftText rightText,
        by rw [execute, hleft, hright]; rfl, by decide, hregl, hregr⟩
    · rintro ⟨text, htext, hreg⟩
      obtain ⟨leftText, hleft, htext⟩ := bind_eq_some_iff.1 htext
      obtain ⟨rightText, hright, htext⟩ := bind_eq_some_iff.1 htext
      obtain rfl := some.inj htext
      have hnull : ∀ {m : MatchPlan} {text}, m.execute = some text → m.isNull = false := by
        intro m text h
        cases m <;> first | rfl | exact absurd h nofun
      refine ⟨⟨hnull hleft, hnull hright⟩, ihl.2 ?_, ihr.2 ?_⟩
      · exact (hsome (hnull hleft)).2 ⟨leftText, hleft, hreg.2.1⟩
      · exact (hsome (hnull hright)).2 ⟨rightText, hright, hreg.2.2⟩

end MatchPlan

end JasmineGraph.Cypher
