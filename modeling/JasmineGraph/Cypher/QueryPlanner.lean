import JasmineGraph.Cypher.MatchPlanner

/-!
# The plan of a query, from its clauses to the workers

Model of `QueryPlanner::createExecutionPlan` on a query made of `MATCH` clauses and a `RETURN`: the
branch `SINGLE_QUERY` plans the clauses one after the other, each on the operator of those before it,
and the `RETURN` on top of them. The text that `execute` returns goes to the workers, which look up
every operator of it in `methodMap`.

* A clause after one that has a plan gets an operator that is no `NodeByIdSeek`, and a path casts it
  to one all the same.
* An operator that a later clause does not keep is not printed, so it does no harm.
* `SKIP` and `LIMIT` print the empty text.
-/

namespace JasmineGraph.Cypher

open JasmineGraph.Bytes JasmineGraph.Outcome

/-- A query of `MATCH` clauses and a `RETURN`. -/
structure SingleQuery where
  clauses : List MatchClause
  result : ReturnClause

def createExecutionPlan (q : SingleQuery) : Except PlanFault Plan := do
  let currentOperator ← q.clauses.foldlM planMatch .null
  orUndefined (planReturn (visitProjectionBody q.result) (.matched currentOperator))

/-- The query has a plan without a wrong cast, and its text and every text embedded in it name
operators of `methodMap`. -/
def SingleQuery.Executable (q : SingleQuery) : Prop :=
  ∃ plan text query, createExecutionPlan q = .ok plan ∧ plan.execute = some (text, query) ∧
    text.Registered

/-! ## The clauses -/

/-- Every cast of the clauses is to a `NodeByIdSeek`. -/
def ClausesCast : Bool → List MatchClause → Prop
  | _, [] => True
  | null, m :: ms => m.Casts null ∧ ClausesCast (null && m.plansNothing) ms

/-- The operators of every clause that no later one discards are registered and can be printed. -/
def ClausesSound : Bool → List MatchClause → Prop
  | _, [] => True
  | null, m :: ms =>
    (m.PlanSound null ∨ ∃ later ∈ ms, later.Discards) ∧ ClausesSound (null && m.plansNothing) ms

structure ClausesPlanned (current : MatchPlan) (ms : List MatchClause) (result : MatchPlan) :
    Prop where
  sound : result.Sound ↔ ClausesSound current.isNull ms ∧ (current.Sound ∨ ∃ m ∈ ms, m.Discards)
  null : result.isNull = (current.isNull && ms.all MatchClause.plansNothing)

theorem planClauses_meets (current : MatchPlan) (ms : List MatchClause)
    (hcurrent : current.seek = none) :
    Meets Excused (ms.foldlM planMatch current) (ClausesCast current.isNull ms)
      (ClausesPlanned current ms) := by
  induction ms generalizing current with
  | nil =>
    refine .ok ⟨?_, (Bool.and_true _).symm⟩
    exact ⟨fun h => ⟨trivial, .inl h⟩, fun h => h.2.resolve_right nofun⟩
  | cons m ms ih =>
    refine (planMatch_meets m hcurrent).bind fun next hnext => ?_
    rw [← hnext.null]
    refine (ih next hnext.seek).congr .rfl fun result h => ⟨?_, ?_⟩
    · rw [h.sound, hnext.sound, hnext.null, ClausesSound, List.exists_mem_cons_iff]
      tauto
    · rw [h.null, hnext.null, List.all_cons, Bool.and_assoc]

/-! ## The query -/

theorem isSome_orderVariable (s : SortItem) : (orderVariable s.expression).isSome ↔
      s.expression.nodeType = .VARIABLE ∨ s.expression.nodeType = .NON_ARITHMETIC_OPERATOR := by
  unfold orderVariable
  split
  · rename_i htype
    simp [htype]
  · rename_i htype
    rw [Option.isSome_map, ASTNode.isSome_lookup]
    simp [htype, s.lookup htype]
  · rename_i hvar hlookup
    exact iff_of_false nofun fun h => h.elim hvar hlookup

theorem exists_registered_iff (r : ReturnClause) (m : MatchPlan) :
    (∃ text query, r.executed m = some (text, query) ∧ text.Registered) ↔
      m.Sound ∧ r.skip = none ∧ r.limit = none ∧ r.ColumnsPrinted m.isNull ∧
        ∀ o ∈ r.order, (orderVariable o.1.expression).isSome := by
  rw [MatchPlan.sound_iff]
  constructor
  · rintro ⟨text, query, hexec, hreg⟩
    have hne : ∀ members, text ≠ .over (ascii "ProduceResult") members .empty := by
      rintro members rfl
      exact hreg.2
    obtain ⟨hskip, hlimit, hcolumns, hkey, base, hm⟩ := ReturnClause.executed_inv hexec hne
    obtain ⟨text', query', hexec', -, hreg'⟩ :=
      ReturnClause.exists_executed hm hskip hlimit hcolumns hkey
    obtain ⟨rfl, -⟩ := Prod.ext_iff.1 (Option.some.inj (hexec.symm.trans hexec'))
    exact ⟨⟨base, hm, hreg'.1 hreg⟩, hskip, hlimit, hcolumns, hkey⟩
  · rintro ⟨⟨base, hm, hreg⟩, hskip, hlimit, hcolumns, hkey⟩
    obtain ⟨text, query, hexec, -, hreg'⟩ :=
      ReturnClause.exists_executed hm hskip hlimit hcolumns hkey
    exact ⟨text, _, hexec, hreg'.2 hreg⟩

/-- **Which queries can be executed.** A query that the planner can read has a plan with correct casts
and registered operators exactly if no path stands in a clause after one that has a plan, unless the
clause is planned on an id; the operators of the clauses are registered and can be printed; there is
no `SKIP` and no `LIMIT`; the columns can be printed; and the first sort item is a variable or a
property. -/
theorem executable_iff (q : SingleQuery) (h : createExecutionPlan q ≠ .error .undefined) :
    q.Executable ↔ (ClausesCast true q.clauses ∧ ClausesSound true q.clauses) ∧
        q.result.skip = none ∧ q.result.limit = none ∧
        q.result.ColumnsPrinted (q.clauses.all MatchClause.plansNothing) ∧
        ∀ o ∈ q.result.order, o.1.expression.nodeType = .VARIABLE ∨
          o.1.expression.nodeType = .NON_ARITHMETIC_OPERATOR := by
  have hclauses := planClauses_meets .null q.clauses rfl
  simp only [← isSome_orderVariable]
  unfold SingleQuery.Executable
  rw [createExecutionPlan] at h ⊢
  cases hplan : q.clauses.foldlM planMatch .null with
  | error e =>
    rw [hplan] at hclauses h
    have hcast : ¬ClausesCast true q.clauses :=
      hclauses.resolve_left fun hundefined => h (congrArg _ hundefined)
    refine iff_of_false ?_ fun hall => hcast hall.1.1
    rintro ⟨plan, text, query, hok, -⟩
    exact absurd hok nofun
  | ok m =>
    rw [hplan] at hclauses h
    obtain ⟨hcast, hsound, hnull⟩ := hclauses
    have hsound' : m.Sound ↔ ClausesCast true q.clauses ∧ ClausesSound true q.clauses :=
      hsound.trans ⟨fun hall => ⟨hcast, hall.1⟩, fun hall => ⟨hall.2, .inl trivial⟩⟩
    rw [← hsound', show q.clauses.all MatchClause.plansNothing = m.isNull from hnull.symm,
      ← exists_registered_iff]
    unfold ReturnClause.executed
    cases hreturn : planReturn (visitProjectionBody q.result) (.matched m) with
    | none => exact absurd (congrArg orUndefined hreturn) h
    | some plan =>
      constructor
      · rintro ⟨plan', text, query, hok, hexec, hreg⟩
        rw [Except.ok.inj (hok.symm.trans (congrArg orUndefined hreturn))] at hexec
        exact ⟨text, query, hexec, hreg⟩
      · rintro ⟨text, query, hexec, hreg⟩
        exact ⟨plan, text, query, congrArg orUndefined hreturn, hexec, hreg⟩

def variableN : Variable := ⟨ascii "n", by decide, by decide⟩

/-- `RETURN n`, with or without `LIMIT 1`. -/
def returnN (limit : Bool) : ReturnClause where
  distinct := false
  items := [variableNode variableN]
  order := none
  skip := none
  limit := if limit then some (.leaf .DECIMAL (ascii "1")) else none
  aliases := by decide
  lookups := by decide
  named := by decide

/-- `MATCH (n:labels)`. -/
def matchLabels (labels : List Text) : MatchClause where
  first := .node ⟨some variableN, labels, none⟩
  rest := []
  condition := none
  values := by
    rintro n hn entries he
    obtain rfl := PatternPart.node.inj (List.mem_singleton.1 hn)
    exact absurd he nofun
  built := nofun

/-- `MATCH (a)-[r]->(b:Person)`. -/
def matchPath : MatchClause where
  first := .path labelledEnd 0
  rest := []
  condition := none
  values := by
    rintro n hn
    exact absurd (List.mem_singleton.1 hn) nofun
  built := nofun

/-- `MATCH (n:Person) RETURN n`. -/
theorem executable_person :
    SingleQuery.Executable ⟨[matchLabels [ascii "Person"]], returnN false⟩ := by
  refine (executable_iff ⟨[matchLabels [ascii "Person"]], returnN false⟩ nofun).2
    ⟨⟨⟨?_, trivial⟩, .inl ⟨?_, nofun, nofun⟩, trivial⟩, rfl, rfl, .inl ?_, nofun⟩
  · exact fun _ _ _ => .inl rfl
  · exact List.forall_mem_singleton.2 ⟨fun _ _ => by decide, nofun⟩
  · exact List.forall_mem_singleton.2 rfl

/-- `MATCH (n:A:B) RETURN n`, `MATCH (n) RETURN n LIMIT 1` and
`MATCH (n) MATCH (a)-[r]->(b:Person) RETURN n`: an operator that is not registered, an empty text and
a scan that is taken for a `NodeByIdSeek`. -/
theorem not_executable_samples :
    ¬SingleQuery.Executable ⟨[matchLabels [ascii "A", ascii "B"]], returnN false⟩ ∧
      ¬SingleQuery.Executable ⟨[matchLabels []], returnN true⟩ ∧
      ¬SingleQuery.Executable ⟨[matchLabels [], matchPath], returnN false⟩ := by
  refine ⟨?_, ?_, ?_⟩
  · rintro ⟨plan, text, query, hplan, hexec, hreg⟩
    obtain rfl := Except.ok.inj hplan
    obtain ⟨rfl, -⟩ := Prod.ext_iff.1 (Option.some.inj hexec)
    exact absurd hreg.2 (show ascii "MultipleNodeScanByLabel" ∉ methodMap by decide)
  · rintro ⟨plan, text, query, hplan, hexec, hreg⟩
    obtain rfl := Except.ok.inj hplan
    obtain ⟨rfl, -⟩ := Prod.ext_iff.1 (Option.some.inj hexec)
    exact hreg.2
  · rintro ⟨plan, text, query, hplan, -⟩
    exact absurd hplan nofun

end JasmineGraph.Cypher
