import JasmineGraph.MapOption
import JasmineGraph.Cypher.Collect

/-!
# `RETURN DISTINCT`

A query with `RETURN DISTINCT` has a `Distinct` operator below `ProduceResult`.
`OperatorExecutor::Distinct` evaluates the columns of the `RETURN` and adds them to the row; it does
not compare rows. `OperatorExecutor::ProduceResult` keeps the columns, and the master writes the rows
of all workers as they come.

* `ProjectItem` is an entry of the plan's `project` array. Reading a property that a value does not have
  adds it to the value, as null, and reading a property of a string or a number is an exception
  (`none`).
* `resultRow` is what becomes of one row: an object that holds the values of the columns.
-/

namespace JasmineGraph.Cypher

open JasmineGraph.Bytes List Option
open scoped List

inductive ProjectItem
  | lookup (var property assign : Text)
  | function (functionName assign : Text)
  | empty

def accessMember (value : JsonValue) (property : Text) : Option (JsonValue × JsonValue) :=
  match value with
  | .null => some (.object [(property, .null)], .null)
  | .object members =>
    match members.lookup property with
    | some v => some (value, v)
    | none => some (value.set property .null, .null)
  | _ => none

/-- The loop over the members of a row for an entry of `project`. A key occurs once. -/
def ProjectItem.apply (operand : ProjectItem) (data : JsonValue) : Option JsonValue :=
  match operand with
  | .lookup var property assign =>
    match data.member? var with
    | none => some data
    | some value => (accessMember value property).map fun (value, v) =>
        (data.set var value).set assign v
  | .function functionName assign =>
    match data.member? functionName with
    | none => some data
    | some _ =>
      let data := data.set (ascii "variable") (.string assign)
      some (data.set assign ((data.member? functionName).getD .null))
  | .empty => some data

def distinctRow (project : Option (List ProjectItem)) (data : JsonValue) : Option JsonValue :=
  (project.getD []).foldlM (fun data operand => operand.apply data) data

def produceResultRow (columns : List Text) (rawObj : JsonValue) : JsonValue :=
  columns.foldl (fun data column => data.set column ((rawObj.member? column).getD .null)) .null

/-- The plan of a `ProduceResult` over a `Distinct`. -/
structure DistinctPlan where
  columns : List Text
  project : Option (List ProjectItem)

namespace DistinctPlan

variable (plan : DistinctPlan)

/-- What becomes of a row: the values of its columns. -/
def resultRow (data : JsonValue) : Option JsonValue :=
  (distinctRow plan.project data).map (produceResultRow plan.columns)

/-- The value of a column in a row. -/
def columnValue (data : JsonValue) (column : Text) : Option JsonValue :=
  (distinctRow plan.project data).map fun rawObj => (rawObj.member? column).getD .null

def worker (rows : List JsonValue) : Option (List JsonValue) := rows.mapM plan.resultRow

variable {n : Nat}

/-- What the client may get if the operators below `Distinct` deliver these rows. -/
def Master (rows : Fin n → List JsonValue) (out : List JsonValue) : Prop :=
  ∃ results, (∀ i, plan.worker (rows i) = some (results i)) ∧ Collects results out

/-- The rows of all workers. -/
def allRows (rows : Fin n → List JsonValue) : List JsonValue := (finRange n).flatMap rows

open scoped Classical in
/-- What `DISTINCT` asks for: there is a result, and for every row of a worker every result has the
combination of its column values once. -/
def RemovesDuplicates (rows : Fin n → List JsonValue) : Prop :=
  (∃ out, plan.Master rows out) ∧
  ∀ out, plan.Master rows out →
    ∀ row ∈ allRows rows, ∃ result, plan.resultRow row = some result ∧ out.count result = 1

variable {plan}

/-! ## One row -/

theorem member?_produceResultRow (columns : List Text) (rawObj : JsonValue) (c : Text) :
    (produceResultRow columns rawObj).member? c =
      if c ∈ columns then some ((rawObj.member? c).getD .null) else none := by
  have hfold : ∀ (columns : List Text) (data : JsonValue),
      (columns.foldl (fun data column => data.set column ((rawObj.member? column).getD .null))
        data).member? c =
      if c ∈ columns then some ((rawObj.member? c).getD .null) else data.member? c := by
    intro columns
    induction columns with
    | nil => exact fun data => rfl
    | cons column columns ih =>
      intro data
      rw [foldl_cons, ih]
      by_cases hc : c = column
      · simp [hc]
      · simp [hc]
  exact hfold columns .null

theorem produceResultRow_eq_iff {columns : List Text} {rawObj rawObj' : JsonValue} :
    produceResultRow columns rawObj = produceResultRow columns rawObj' ↔
      ∀ c ∈ columns, (rawObj.member? c).getD .null = (rawObj'.member? c).getD .null := by
  constructor
  · intro heq c hc
    have hmember := congrArg (·.member? c) heq
    simp only [member?_produceResultRow, if_pos hc] at hmember
    exact some.inj hmember
  · intro hvalues
    exact foldl_ext _ _ _ fun data c hc => by rw [hvalues c hc]

/-- Two rows with a result have the same one exactly if they agree in every column. -/
theorem resultRow_eq_iff {row row' : JsonValue} (hrow : (plan.resultRow row).isSome)
    (hrow' : (plan.resultRow row').isSome) :
    plan.resultRow row = plan.resultRow row' ↔
      ∀ c ∈ plan.columns, plan.columnValue row c = plan.columnValue row' c := by
  rw [resultRow, isSome_map] at hrow hrow'
  obtain ⟨data, hdata⟩ := isSome_iff_exists.1 hrow
  obtain ⟨data', hdata'⟩ := isSome_iff_exists.1 hrow'
  simp only [resultRow, columnValue, hdata, hdata', map_some, some.injEq]
  exact produceResultRow_eq_iff

/-! ## All rows -/

variable {rows : Fin n → List JsonValue}

/-- **The client gets one row for every row of the workers.** -/
theorem master_perm {out : List JsonValue} (h : plan.Master rows out) :
    ∃ results, (allRows rows).map plan.resultRow = results.map some ∧ out ~ results := by
  obtain ⟨results, hworkers, hcollects⟩ := h
  refine ⟨(finRange n).flatMap results, ?_, hcollects.perm⟩
  rw [allRows, map_flatMap, map_flatMap]
  exact flatMap_congr fun i _ => mapM_eq_some_iff.1 (hworkers i)

theorem exists_master (h : ∀ row ∈ allRows rows, (plan.resultRow row).isSome) :
    ∃ out, plan.Master rows out := by
  have hworker : ∀ i, ∃ results, plan.worker (rows i) = some results := fun i =>
    isSome_iff_exists.1 (isSome_mapM.2 fun row hrow =>
      h row (mem_flatMap.2 ⟨i, mem_finRange i, hrow⟩))
  choose results hresults using hworker
  obtain ⟨out, hout⟩ := exists_collects results
  exact ⟨out, results, hresults, hout⟩

open scoped Classical in
theorem count_eq_one_iff {out : List JsonValue} (h : plan.Master rows out) :
    (∀ row ∈ allRows rows, ∃ result, plan.resultRow row = some result ∧ out.count result = 1) ↔
      (allRows rows).Pairwise fun row row' => plan.resultRow row ≠ plan.resultRow row' := by
  obtain ⟨results, hresults, hperm⟩ := master_perm h
  have hnodup : (allRows rows).Pairwise (fun row row' => plan.resultRow row ≠ plan.resultRow row') ↔
      out.Nodup := by
    rw [← pairwise_map, hresults, hperm.nodup_iff]
    exact nodup_map_iff (some_injective _)
  have hmem : ∀ result, result ∈ out ↔ ∃ row ∈ allRows rows, plan.resultRow row = some result := by
    intro result
    rw [hperm.mem_iff, ← List.mem_map, hresults]
    exact ⟨List.mem_map_of_mem, fun hmem => by
      obtain ⟨r, hr, heq⟩ := List.mem_map.1 hmem
      exact some.inj heq ▸ hr⟩
  rw [hnodup, nodup_iff_count_eq_one]
  constructor
  · intro hcount result hresult
    obtain ⟨row, hrow, heq⟩ := (hmem result).1 hresult
    obtain ⟨result', heq', hone⟩ := hcount row hrow
    rw [heq, some.injEq] at heq'
    rwa [heq']
  · intro hcount row hrow
    obtain ⟨result, hresult, heq⟩ := List.mem_map.1 (hresults ▸ List.mem_map_of_mem hrow)
    exact ⟨result, heq.symm, hcount result ((hmem result).2 ⟨row, hrow, heq.symm⟩)⟩

end DistinctPlan

open DistinctPlan in
/-- **When `RETURN DISTINCT` removes duplicates**: exactly if there are none. Every row must have a
result, and any two rows, on the same or on different workers, differ in some column. -/
theorem removesDuplicates_iff {n : Nat} (plan : DistinctPlan) (rows : Fin n → List JsonValue) :
    plan.RemovesDuplicates rows ↔ (∀ row ∈ allRows rows, (plan.resultRow row).isSome) ∧
        (allRows rows).Pairwise fun row row' =>
          ∃ c ∈ plan.columns, plan.columnValue row c ≠ plan.columnValue row' c := by
  have hdiffer : (∀ row ∈ allRows rows, (plan.resultRow row).isSome) →
      (((allRows rows).Pairwise fun row row' => plan.resultRow row ≠ plan.resultRow row') ↔
        (allRows rows).Pairwise fun row row' =>
          ∃ c ∈ plan.columns, plan.columnValue row c ≠ plan.columnValue row' c) := by
    refine fun hsome => List.Pairwise.iff_of_mem fun {row row'} hrow hrow' => ?_
    rw [Ne, resultRow_eq_iff (hsome row hrow) (hsome row' hrow')]
    simp only [not_forall, exists_prop]
  constructor
  · rintro ⟨⟨out, hout⟩, hremoves⟩
    have hcount := hremoves out hout
    have hsome : ∀ row ∈ allRows rows, (plan.resultRow row).isSome := fun row hrow => by
      obtain ⟨result, hresult, -⟩ := hcount row hrow
      exact isSome_of_eq_some hresult
    exact ⟨hsome, (hdiffer hsome).1 ((count_eq_one_iff hout).1 hcount)⟩
  · rintro ⟨hsome, hpairwise⟩
    exact ⟨exists_master hsome, fun out hout =>
      (count_eq_one_iff hout).2 ((hdiffer hsome).2 hpairwise)⟩

/-- The plan of `MATCH (n) RETURN DISTINCT n.name`. -/
def distinctNames : DistinctPlan :=
  ⟨[ascii "n.name"], some [.lookup (ascii "n") (ascii "name") (ascii "n.name")]⟩

/-- A row that binds `n` to a node with a name. -/
def namedRow : JsonValue :=
  .object [(ascii "n", .object [(ascii "name", .string (ascii "Ann"))])]

open DistinctPlan in
/-- Two nodes of one name on one worker give two rows. -/
theorem not_removesDuplicates_names :
    ¬distinctNames.RemovesDuplicates (fun _ : Fin 1 => [namedRow, namedRow]) := by
  rintro ⟨⟨out, hout⟩, hremoves⟩
  have hpairwise := (count_eq_one_iff hout).1 (hremoves out hout)
  exact rel_of_pairwise_cons hpairwise mem_cons_self rfl

end JasmineGraph.Cypher
