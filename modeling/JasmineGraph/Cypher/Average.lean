import JasmineGraph.Cypher.ReturnPlan

/-!
# The average of a property over the workers

`AverageAggregationHelper` keeps a running mean of the rows of one worker and makes an object of it
and of the number of rows. `OperatorExecutor::Projection` copies the mean to the name of its column
and writes that name down under `"variable"`; `ProduceResult` keeps the members that its plan names.
`AverageAggregation` on the master reads them and weights the means in the order in which they
arrive.

* A `float` is read as a rational number. The plan is the one that is printed for the column.
* The helper's key is `"avg"` however the query spells the function, and for a renamed column the
  plan names nothing but the new name. In both cases the master misses a member and `insert` throws.
-/

namespace JasmineGraph.Cypher

open JasmineGraph.Bytes List Option ASTNode Function

/-- The fields of `AverageAggregationHelper`, and the counters of `AverageAggregation`. -/
structure Average where
  numberOfData : Int := 0
  average : ℚ := 0

/-- The values in the objects that are passed on. -/
inductive AverageMember
  | float (q : ℚ)
  | int (n : Int)
  | string (s : Text)

namespace AverageMember

def getFloat : AverageMember → Option ℚ
  | float q => some q
  | int n => some n
  | string _ => none

def getInt : AverageMember → Option Int
  | float q => some (q.num.tdiv q.den)
  | int n => some n
  | string _ => none

def getString : AverageMember → Option Text
  | string s => some s
  | _ => none

end AverageMember

abbrev AverageObject := Text → Option AverageMember

namespace Average

def insertData (this : Average) (property : ℚ) : Average :=
  let numberOfData := this.numberOfData + 1
  { numberOfData
    average := (this.average * (numberOfData - 1 : Int) + property) / numberOfData }

/-- What `OperatorExecutor::AggregationFunction` computes of the rows of a worker. -/
def localAverage (values : List ℚ) : Average := values.foldl insertData {}

def getFinalResult (this : Average) : AverageObject :=
  update (update (fun _ => none) (ascii "avg") (some (.float this.average)))
    (ascii "numberOfData") (some (.int this.numberOfData))

def weigh (this workerData : Average) : Average :=
  let size := workerData.numberOfData
  { numberOfData := this.numberOfData + size
    average :=
      if 0 < size then
        (workerData.average * size + this.average * this.numberOfData) /
          (this.numberOfData + size : Int)
      else this.average }

end Average

/-- `OperatorExecutor::Projection` on a result, for one entry of its plan. No member is an object
that has a property. -/
def projectAverage (data : AverageObject) (operand : List (Text × Text)) : Option AverageObject :=
  if ((operand.lookup (ascii "variable")).bind data).isSome then none
  else do
    let some name := operand.lookup (ascii "functionName") | some data
    if (data name).isNone then some data
    else
      let assign ← operand.lookup (ascii "assign")
      let data := update data (ascii "variable") (some (.string assign))
      some (update data assign (data name))

/-- `OperatorExecutor::ProduceResult`: a name that the result does not have is null. -/
def keepNames (names : List Text) (rawObj : AverageObject) : AverageObject :=
  fun key => if key ∈ names then rawObj key else none

/-- `AverageAggregation`: its counters, and the object that is written to the client. -/
structure AverageAggregation where
  counters : Average := {}
  data : AverageObject := fun _ => none

def AverageAggregation.insert (this : AverageAggregation) (workerData : AverageObject) :
    Option AverageAggregation := do
  let name ← workerData (ascii "variable") >>= AverageMember.getString
  let size ← workerData (ascii "numberOfData") >>= AverageMember.getInt
  let localAverage ← workerData name >>= AverageMember.getFloat
  let counters := this.counters.weigh ⟨size, localAverage⟩
  let rest := update (update workerData (ascii "variable") none) (ascii "numberOfData") none
  some ⟨counters, update rest name (some (.float counters.average))⟩

/-- The only column of a `RETURN`: the average of a property, renamed or not. -/
structure AverageColumn where
  functionName : Text
  lookup : Text × Text
  newName : Option Text
  isAverage : functionName = ascii "avg" ∨ functionName = ascii "AVG"

namespace AverageColumn

def tree (c : AverageColumn) : ASTNode :=
  let call := internal .FUNCTION_BODY
    [internal .FUNCTION [leaf .NAMESPACE [], leaf .FUNCTION_NAME c.functionName],
      internal .ARGUMENTS [ReturnClause.propertyNode c.lookup.1 c.lookup.2]]
  c.newName.elim call fun name => internal .AS [call, leaf .VARIABLE name]

def name (c : AverageColumn) : Text :=
  c.newName.getD (c.functionName ++ ascii "(" ++ lookupName c.lookup ++ ascii ")")

def workerData (c : AverageColumn) (values : List ℚ) : Option AverageObject := do
  let operand ← projectionOperand c.tree
  let names ← resultNames c.tree
  let data ← operand.toList.foldlM projectAverage (Average.localAverage values).getFinalResult
  some (keepNames names data)

/-- The master with the results of the workers, in the order in which they arrive. -/
def insertAll (c : AverageColumn) (workers : List (List ℚ)) : Option AverageAggregation :=
  workers.foldlM (fun this values => c.workerData values >>= this.insert) {}

end AverageColumn

/-! ## The weighted mean -/

namespace Average

def mean (values : List ℚ) : Average := ⟨values.length, values.sum / values.length⟩

theorem mean_nil : mean [] = {} := by
  simp [mean]

theorem mean_mul_length (values : List ℚ) :
    values.sum / values.length * values.length = values.sum := by
  cases values with
  | nil => simp
  | cons x values =>
    refine div_mul_cancel₀ _ (Nat.cast_ne_zero.2 ?_)
    exact Nat.succ_ne_zero _

/-- **Weighting two means gives the mean of both lists.** -/
theorem weigh_mean (values more : List ℚ) :
    weigh (mean values) (mean more) = mean (values ++ more) := by
  unfold weigh mean
  simp only [Int.cast_natCast, mean_mul_length, length_append, sum_append, ← Nat.cast_add]
  cases more with
  | nil => simp
  | cons x more =>
    rw [if_pos (by simp), add_comm (x :: more).sum]

theorem insertData_mean (values : List ℚ) (property : ℚ) :
    insertData (mean values) property = mean (values ++ [property]) := by
  unfold insertData mean
  simp [mean_mul_length]

theorem localAverage_eq (values : List ℚ) : localAverage values = mean values := by
  induction values using List.reverseRecOn with
  | nil => exact mean_nil.symm
  | append_singleton values property ih =>
    rw [localAverage, foldl_concat, ← insertData_mean, ← ih]
    rfl

end Average

/-! ## From the workers to the master -/

theorem AverageAggregation.exists_insert (this : AverageAggregation) {workerData : AverageObject}
    {name : Text} {worker : Average}
    (hname : workerData (ascii "variable") = some (.string name))
    (hsize : workerData (ascii "numberOfData") = some (.int worker.numberOfData))
    (haverage : workerData name = some (.float worker.average)) :
    ∃ data, this.insert workerData = some ⟨this.counters.weigh worker, data⟩ ∧
      data name = some (.float (this.counters.weigh worker).average) := by
  unfold insert
  simp only [bind_eq_bind, hname, hsize, bind_some, AverageMember.getString,
    haverage]
  exact ⟨_, rfl, update_self ..⟩

namespace AverageColumn

variable {c : AverageColumn}

theorem projectionOperand_tree (c : AverageColumn) : projectionOperand c.tree =
    some (some [(ascii "functionName", c.functionName), (ascii "assign", c.name)]) := by
  obtain ⟨functionName, lookup, _ | name, h⟩ := c <;> rfl

theorem resultNames_tree (c : AverageColumn) : resultNames c.tree =
    some (c.newName.elim [c.name, ascii "variable", ascii "numberOfData"] ([·])) := by
  obtain ⟨functionName, lookup, _ | name, h⟩ := c <;> rfl

def projected (c : AverageColumn) (this : Average) : AverageObject :=
  if c.functionName = ascii "avg" then
    update (update this.getFinalResult (ascii "variable") (some (.string c.name))) c.name
      (some (.float this.average))
  else this.getFinalResult

theorem projectAverage_tree (this : Average) : projectAverage this.getFinalResult
    [(ascii "functionName", c.functionName), (ascii "assign", c.name)] =
      some (c.projected this) := by
  unfold projected
  rcases c.isAverage with hname | hname
  · rw [hname]
    rfl
  · rw [hname]
    rfl

theorem workerData_eq (c : AverageColumn) (values : List ℚ) : c.workerData values =
    some (keepNames (c.newName.elim [c.name, ascii "variable", ascii "numberOfData"] ([·]))
      (c.projected (Average.mean values))) := by
  rw [workerData, projectionOperand_tree, resultNames_tree, Average.localAverage_eq]
  simp only [bind_eq_bind, bind_some, toList_some, foldlM_cons, projectAverage_tree]
  rfl

/-- **In lower case and without another name**, the master gets what it reads. -/
theorem insert_workerData (hname : c.functionName = ascii "avg") (hnew : c.newName = none)
    (this : AverageAggregation) (values : List ℚ) :
    ∃ data, (c.workerData values >>= this.insert) =
        some ⟨this.counters.weigh (Average.mean values), data⟩ ∧
      data c.name = some (.float (this.counters.weigh (Average.mean values)).average) := by
  have hfirst : c.name.head? = some 97 := by
    rw [name, hnew, hname]
    rfl
  have hvariable : ascii "variable" ≠ c.name := fun h => by
    rw [← h] at hfirst
    exact absurd hfirst (by decide)
  have hnumber : ascii "numberOfData" ≠ c.name := fun h => by
    rw [← h] at hfirst
    exact absurd hfirst (by decide)
  rw [workerData_eq, hnew, projected, if_pos hname]
  apply this.exists_insert
  · rw [keepNames, if_pos (by simp), update_of_ne hvariable, update_self]
  · rw [keepNames, if_pos (by simp), update_of_ne hnumber]
    rfl
  · rw [keepNames, if_pos (by simp), update_self]

/-- **In capitals or with another name**, the name of the column does not reach the master. -/
theorem insert_eq_none (h : ¬(c.functionName = ascii "avg" ∧ c.newName = none))
    (this : AverageAggregation) (values : List ℚ) :
    (c.workerData values >>= this.insert) = none := by
  have hstring : (keepNames (c.newName.elim [c.name, ascii "variable", ascii "numberOfData"] ([·]))
      (c.projected (Average.mean values)) (ascii "variable") >>= AverageMember.getString) =
        none := by
    unfold keepNames projected
    by_cases hname : c.functionName = ascii "avg"
    · -- the plan names the new name alone; that one may be `variable`, for a number
      obtain ⟨new, hnew⟩ := ne_none_iff_exists'.1 fun hnew => h ⟨hname, hnew⟩
      rw [hnew]
      split_ifs with hkey
      · rw [name, hnew, ← mem_singleton.1 hkey]
        rfl
      · rfl
    · split_ifs <;> rfl
  rw [workerData_eq, bind_eq_bind, bind_some, AverageAggregation.insert, hstring]
  rfl

theorem exists_insertAll (hname : c.functionName = ascii "avg") (hnew : c.newName = none)
    (workers : List (List ℚ)) : ∃ s, c.insertAll workers = some s ∧
      s.counters = Average.mean workers.flatten ∧
      (workers ≠ [] → s.data c.name = some (.float s.counters.average)) := by
  induction workers using List.reverseRecOn with
  | nil => exact ⟨{}, rfl, Average.mean_nil.symm, (absurd rfl ·)⟩
  | append_singleton workers values ih =>
    obtain ⟨s, hs, hmean, -⟩ := ih
    obtain ⟨data, hinsert, hdata⟩ := insert_workerData hname hnew s values
    refine ⟨⟨s.counters.weigh (Average.mean values), data⟩, ?_, ?_, fun _ => hdata⟩
    · rw [insertAll] at hs
      rw [insertAll, foldlM_append, hs, bind_eq_bind, bind_some, foldlM_cons, hinsert]
      rfl
    · rw [hmean, Average.weigh_mean, flatten_concat]

/-- **The distributed average** of the values of a property, distributed over the workers in any way
and with the results in any order of arrival, is stored as their mean exactly if the query spells
the function `avg` and does not rename the column. -/
theorem stores_mean_iff (c : AverageColumn) {workers : List (List ℚ)} {rows : List ℚ}
    (hworkers : workers ≠ []) (hrows : workers.flatten.Perm rows) :
    (∃ s, c.insertAll workers = some s ∧
        s.data c.name = some (.float (rows.sum / rows.length))) ↔
      c.functionName = ascii "avg" ∧ c.newName = none := by
  constructor
  · rintro ⟨s, hs, -⟩
    by_contra hnot
    obtain ⟨values, workers, rfl⟩ := exists_cons_of_ne_nil hworkers
    rw [insertAll, foldlM_cons, insert_eq_none hnot] at hs
    exact absurd hs nofun
  · rintro ⟨hname, hnew⟩
    obtain ⟨s, hs, hmean, hdata⟩ := exists_insertAll hname hnew workers
    refine ⟨s, hs, ?_⟩
    rw [hdata hworkers, hmean, ← hrows.sum_eq, ← hrows.length_eq]
    rfl

/-- The column `avg(n.age)`, in capitals or not, renamed or not. -/
def averageAge (functionName : Text) (newName : Option Text)
    (h : functionName = ascii "avg" ∨ functionName = ascii "AVG") : AverageColumn :=
  ⟨functionName, (ascii "n", ascii "age"), newName, h⟩

theorem stores_mean_iff_three : ∃ s,
    (averageAge (ascii "avg") none (.inl rfl)).insertAll [[1, 2], [], [6]] = some s ∧
      s.data (ascii "avg(n.age)") = some (.float 3) := by
  have hperm : [[1, 2], [], [6]].flatten.Perm [(6 : ℚ), 1, 2] := by decide
  obtain ⟨s, hs, hdata⟩ := (stores_mean_iff (averageAge (ascii "avg") none (.inl rfl))
    (cons_ne_nil _ _) hperm).2 ⟨rfl, rfl⟩
  refine ⟨s, hs, hdata.trans ?_⟩
  norm_num

/-- `RETURN AVG(n.age)` and `RETURN avg(n.age) AS a`: the first result makes `insert` throw. -/
theorem capitals_or_renamed_throw :
    (averageAge (ascii "AVG") none (.inr rfl)).insertAll [[1, 2]] = none ∧
      (averageAge (ascii "avg") (some (ascii "a")) (.inl rfl)).insertAll [[1, 2]] = none := by
  constructor <;> rw [insertAll, foldlM_cons, insert_eq_none (by decide)] <;> rfl

end AverageColumn

end JasmineGraph.Cypher
