import JasmineGraph.Machine
import JasmineGraph.MapOption
import JasmineGraph.PriorityQueue
import JasmineGraph.Cypher.Json

/-!
# The external sort of a worker

`OperatorExecutor::OrderBy` sorts the rows of its input by the value of one key. Rows go into a
`std::priority_queue`. Whenever the rows in it are estimated to take more than a megabyte the queue
is emptied into a run file, a row on a line, and at the end of the input the run files are merged
with a second queue. If nothing was spilled the rows go from the first queue to the output.

The order is decided in three places. `Row::operator<` compares the keys and turns the result around
for `DESC`; `DynamicComparator`, the comparator of the first queue, swaps the two rows for `DESC`;
and the comparator of the merge is again `Row::operator<`.

* The parser and the printer of the JSON library are arguments (`parse`, `dump`), and so are the two
  queues, of which only the contract of `PriorityQueue` is used.
* `OrderBy.batches` are the rows between two spills.
-/

namespace JasmineGraph.Cypher

open JasmineGraph.Bytes List
open scoped List

/-! ## Rows and their order -/

/-- The loop over the tokens of the key. -/
def getNested : JsonValue → List Text → JsonValue
  | current, [] => current
  | current, token :: tokens =>
    match current.member? token with
    | none => .null
    | some value => getNested value tokens

/-- `Row::getNestedValue`: the key is a path, its members are separated by points. -/
def getNestedValue (obj : JsonValue) (key : Text) : JsonValue := getNested obj (split 46 key)

/-- A `Row`, without the key and the direction, which all rows share. -/
structure SortRow where
  data : JsonValue
  jsonStr : Text

/-- The constructor of `Row`; `none` is the exception of the parser. -/
def SortRow.ofText (parse : Text → Option JsonValue) (str : Text) : Option SortRow :=
  (parse str).map fun data => ⟨data, str⟩

/-- The comparison inside `Row::operator<`. `get<int>` narrows the number. -/
def valueGreater (dump : JsonValue → Text) (val1 val2 : JsonValue) : Bool :=
  match val1, val2 with
  | .int a, .int b => decide (toInt32 b < toInt32 a)
  | .string s, .string t => Text.lt t s
  | val1, val2 => Text.lt (dump val2) (dump val1)

/-- The members of the plan of an `OrderBy` that the operator reads. -/
structure OrderPlan where
  sortKey : Text
  order : Text

namespace OrderPlan

variable (plan : OrderPlan)

def isAsc : Bool := plan.order == ascii "ASC"

def value (row : SortRow) : JsonValue := getNestedValue row.data plan.sortKey

/-- `Row::operator<`. The comparator of the merge has the same body. -/
def rowLess (dump : JsonValue → Text) (a b : SortRow) : Bool :=
  let result := valueGreater dump (plan.value a) (plan.value b)
  if plan.isAsc then result else !result

def dynamicComparator (dump : JsonValue → Text) (a b : SortRow) : Bool :=
  if plan.isAsc then plan.rowLess dump a b else plan.rowLess dump b a

def memoryUsage (sizeofRow : Nat) (row : SortRow) : Nat :=
  sizeofRow + row.jsonStr.length + plan.sortKey.length + 1 + 8

end OrderPlan

/-! ## The operator -/

def runFile (rows : List SortRow) : Text := rows.flatMap fun row => row.jsonStr ++ [10]

def readRun (parse : Text → Option JsonValue) (file : Text) : Option (List SortRow) :=
  (split 10 file).mapM (SortRow.ofText parse)

def maxMemoryBytes : Nat := 1024 * 1024

namespace OrderBy

section Operator

variable (parse : Text → Option JsonValue) (dump : JsonValue → Text) (sizeofRow : Nat)
  (plan : OrderPlan) (H : PriorityQueue (plan.dynamicComparator dump))
  (M : PriorityQueue (lessFst (plan.rowLess dump)))

structure Sorter (State : Type) where
  heap : State
  heapMemoryUsage : Nat
  runFiles : List Text

def flushHeapToRunFile (s : Sorter H.State) : Sorter H.State :=
  if H.elements s.heap = [] then s
  else { s with heap := H.empty, runFiles := s.runFiles ++ [runFile (H.drainAll s.heap)] }

def pushRow (s : Sorter H.State) (row : SortRow) : Sorter H.State :=
  let usage := s.heapMemoryUsage + plan.memoryUsage sizeofRow row
  let s := { s with heapMemoryUsage := usage, heap := H.push row s.heap }
  if maxMemoryBytes < usage then
    { flushHeapToRunFile dump plan H s with heapMemoryUsage := 0 }
  else s

/-- One turn of the loop on a row: a row that does not parse or has no key is dropped. -/
def addRow (s : Sorter H.State) (jsonStr : Text) : Sorter H.State :=
  match SortRow.ofText parse jsonStr with
  | none => s
  | some row => if (plan.value row).isNull then s else pushRow dump sizeofRow plan H s row

/-- What is written to the output buffer. -/
def emit (rows : List SortRow) : List (Message Text) := rows.map (fun row => .row row.jsonStr) ++ [.stop]

def finish (s : Sorter H.State) : Option (List (Message Text)) :=
  if s.runFiles = [] then some (emit (H.drainAll s.heap))
  else
    ((flushHeapToRunFile dump plan H s).runFiles.mapM (readRun parse)).map
      fun runs => emit (M.mergeRuns runs)

end Operator

end OrderBy

/-- `OperatorExecutor::OrderBy` on the rows of its input; `none` is an exception of the merge. -/
def orderBy (parse : Text → Option JsonValue) (dump : JsonValue → Text) (sizeofRow : Nat)
    (plan : OrderPlan) (H : PriorityQueue (plan.dynamicComparator dump))
    (M : PriorityQueue (lessFst (plan.rowLess dump))) (input : List Text) :
    Option (List (Message Text)) :=
  OrderBy.finish parse dump plan H M
    (input.foldl (OrderBy.addRow parse dump sizeofRow plan H) ⟨H.empty, 0, []⟩)

/-! ## Run files -/

theorem split_runFile {rows : List SortRow} (hrows : ∀ row ∈ rows, 10 ∉ row.jsonStr) :
    split 10 (runFile rows) = rows.map SortRow.jsonStr := by
  induction rows with
  | nil => rfl
  | cons row rows ih =>
    obtain ⟨hrow, hrows⟩ := forall_mem_cons.1 hrows
    have hfile : runFile (row :: rows) = row.jsonStr ++ 10 :: runFile rows := by
      simp [runFile]
    rw [hfile, split_line hrow, ih hrows, map_cons]

/-- A row as it comes from the input: its data are what the parser reads from its text, and the text
is one line. -/
structure SortRow.Parsed (parse : Text → Option JsonValue) (row : SortRow) : Prop where
  ofText : SortRow.ofText parse row.jsonStr = some row
  oneLine : 10 ∉ row.jsonStr

/-- **A run file is read back as it was written.** -/
theorem readRun_runFile {parse : Text → Option JsonValue} {rows : List SortRow}
    (hrows : ∀ row ∈ rows, row.Parsed parse) : readRun parse (runFile rows) = some rows := by
  rw [readRun, split_runFile fun row hrow => (hrows row hrow).oneLine]
  exact mapM_map_eq_some fun row hrow => (hrows row hrow).ofText

namespace OrderBy

/-! ## The runs -/

def keyed (parse : Text → Option JsonValue) (plan : OrderPlan) (jsonStr : Text) : Option SortRow :=
  (SortRow.ofText parse jsonStr).filter fun row => !(plan.value row).isNull

def keyedRows (parse : Text → Option JsonValue) (plan : OrderPlan) (input : List Text) : List SortRow :=
  input.filterMap (keyed parse plan)

/-- The rows that are in the queue together, after the ones of `batch`. -/
def batchesFrom (sizeofRow : Nat) (plan : OrderPlan) (usage : Nat) (batch : List SortRow) :
    List SortRow → List (List SortRow)
  | [] => if batch = [] then [] else [batch]
  | row :: rows =>
    if maxMemoryBytes < usage + plan.memoryUsage sizeofRow row then
      (batch ++ [row]) :: batchesFrom sizeofRow plan 0 [] rows
    else
      batchesFrom sizeofRow plan (usage + plan.memoryUsage sizeofRow row) (batch ++ [row]) rows

/-- The rows between two spills. -/
def batches (sizeofRow : Nat) (plan : OrderPlan) (rows : List SortRow) : List (List SortRow) :=
  batchesFrom sizeofRow plan 0 [] rows

theorem flatten_batchesFrom (sizeofRow : Nat) (plan : OrderPlan) (usage : Nat)
    (batch rows : List SortRow) :
    (batchesFrom sizeofRow plan usage batch rows).flatten = batch ++ rows := by
  induction rows generalizing usage batch with
  | nil =>
    rw [batchesFrom]
    split_ifs with hbatch
    · rw [hbatch]
      rfl
    · simp
  | cons row rows ih =>
    rw [batchesFrom]
    split_ifs with husage
    · rw [flatten_cons, ih]
      simp
    · rw [ih]
      simp

section Runs

variable {parse : Text → Option JsonValue} {dump : JsonValue → Text} {sizeofRow : Nat}
  {plan : OrderPlan} {H : PriorityQueue (plan.dynamicComparator dump)}
  {M : PriorityQueue (lessFst (plan.rowLess dump))}

theorem addRow_eq (s : Sorter H.State) (jsonStr : Text) :
    addRow parse dump sizeofRow plan H s jsonStr =
      (keyed parse plan jsonStr).elim s (pushRow dump sizeofRow plan H s) := by
  unfold addRow keyed
  cases SortRow.ofText parse jsonStr with
  | none => rfl
  | some row => cases hnull : (plan.value row).isNull <;> simp [Option.filter, hnull]

theorem foldl_addRow (input : List Text) (s : Sorter H.State) :
    input.foldl (addRow parse dump sizeofRow plan H) s =
      (keyedRows parse plan input).foldl (pushRow dump sizeofRow plan H) s := by
  induction input generalizing s with
  | nil => rfl
  | cons jsonStr input ih =>
    rw [foldl_cons, ih, addRow_eq, keyedRows, keyedRows, filterMap_cons]
    cases keyed parse plan jsonStr with
    | none => rfl
    | some row => rfl

def Drained (H : PriorityQueue (plan.dynamicComparator dump)) (run batch : List SortRow) : Prop :=
  ∃ heap, H.elements heap ~ batch ∧ run = H.drainAll heap

theorem Drained.perm {run batch : List SortRow} (h : Drained H run batch) : run ~ batch := by
  obtain ⟨heap, hheap, rfl⟩ := h
  exact (H.drainAll_perm heap).trans hheap

theorem flush_eq (s : Sorter H.State) {batch : List SortRow} (hheap : H.elements s.heap ~ batch) :
    ∃ runs, Forall₂ (Drained H) runs (if batch = [] then [] else [batch]) ∧
      (flushHeapToRunFile dump plan H s).runFiles = s.runFiles ++ runs.map runFile ∧
      runs.flatten = H.drainAll s.heap ∧ runs.length ≤ 1 := by
  unfold flushHeapToRunFile
  by_cases hbatch : batch = []
  · have hnil : H.elements s.heap = [] := (hbatch ▸ hheap).eq_nil
    have hdrain : H.drainAll s.heap = [] := (hnil ▸ H.drainAll_perm s.heap).eq_nil
    rw [if_pos hbatch, if_pos hnil, hdrain]
    exact ⟨[], .nil, by simp, rfl, by simp⟩
  · have hne : H.elements s.heap ≠ [] := fun hnil => hbatch (hnil ▸ hheap).symm.eq_nil
    rw [if_neg hbatch, if_neg hne]
    exact ⟨[H.drainAll s.heap], .cons ⟨s.heap, hheap, rfl⟩ .nil, rfl, by simp, by simp⟩

theorem pushRow_spill (s : Sorter H.State) {row : SortRow}
    (husage : maxMemoryBytes < s.heapMemoryUsage + plan.memoryUsage sizeofRow row) :
    pushRow dump sizeofRow plan H s row =
      ⟨H.empty, 0, s.runFiles ++ [runFile (H.drainAll (H.push row s.heap))]⟩ := by
  have hne : H.elements (H.push row s.heap) ≠ [] := fun hnil =>
    absurd (hnil ▸ H.elements_push row s.heap).symm.eq_nil (cons_ne_nil _ _)
  simp only [pushRow, if_pos husage, flushHeapToRunFile, if_neg hne]

theorem pushRow_keep (s : Sorter H.State) {row : SortRow}
    (husage : ¬maxMemoryBytes < s.heapMemoryUsage + plan.memoryUsage sizeofRow row) :
    pushRow dump sizeofRow plan H s row =
      ⟨H.push row s.heap, s.heapMemoryUsage + plan.memoryUsage sizeofRow row, s.runFiles⟩ := by
  simp only [pushRow, if_neg husage]

theorem runFiles_ne_nil {rows : List SortRow} {s : Sorter H.State} (h : s.runFiles ≠ []) :
    (rows.foldl (pushRow dump sizeofRow plan H) s).runFiles ≠ [] := by
  induction rows generalizing s with
  | nil => exact h
  | cons row rows ih =>
    refine ih ?_
    by_cases husage : maxMemoryBytes < s.heapMemoryUsage + plan.memoryUsage sizeofRow row
    · rw [pushRow_spill s husage]
      exact append_ne_nil_of_left_ne_nil h _
    · rw [pushRow_keep s husage]
      exact h

/-- **What the loop over the input leaves**: one run for each batch, in the run files and the queue.
If nothing was spilled there is at most one run, the one in the queue. -/
theorem foldl_pushRow (sizeofRow : Nat) (rows : List SortRow) (s : Sorter H.State)
    (batch : List SortRow) (hheap : H.elements s.heap ~ batch) :
    ∃ runs, Forall₂ (Drained H) runs (batchesFrom sizeofRow plan s.heapMemoryUsage batch rows) ∧
      (flushHeapToRunFile dump plan H (rows.foldl (pushRow dump sizeofRow plan H) s)).runFiles =
        s.runFiles ++ runs.map runFile ∧
      ((rows.foldl (pushRow dump sizeofRow plan H) s).runFiles = [] →
        runs.flatten = H.drainAll (rows.foldl (pushRow dump sizeofRow plan H) s).heap ∧
          runs.length ≤ 1) := by
  induction rows generalizing s batch with
  | nil =>
    obtain ⟨runs, hruns, hfiles, hflat⟩ := flush_eq s hheap
    exact ⟨runs, hruns, hfiles, fun _ => hflat⟩
  | cons row rows ih =>
    have hpush : H.elements (H.push row s.heap) ~ batch ++ [row] :=
      (H.elements_push row s.heap).trans
        ((hheap.cons row).trans (perm_append_singleton _ _).symm)
    rw [batchesFrom, foldl_cons]
    by_cases husage : maxMemoryBytes < s.heapMemoryUsage + plan.memoryUsage sizeofRow row
    · rw [pushRow_spill s husage, if_pos husage]
      obtain ⟨runs, hruns, hfiles, -⟩ :=
        ih ⟨H.empty, 0, s.runFiles ++ [runFile (H.drainAll (H.push row s.heap))]⟩
          [] (.of_eq H.elements_empty)
      refine ⟨H.drainAll (H.push row s.heap) :: runs, .cons ⟨_, hpush, rfl⟩ hruns, ?_, fun h => ?_⟩
      · rw [hfiles, append_assoc]
        rfl
      · exact absurd h (runFiles_ne_nil (append_ne_nil_of_right_ne_nil _ (cons_ne_nil _ _)))
    · rw [pushRow_keep s husage, if_neg husage]
      exact ih ⟨H.push row s.heap, _, s.runFiles⟩ _ hpush

/-! ## The output -/

/-- The output holds the runs: their rows, each run in its order, and merged by any key that the
comparator of the merge ranks by. -/
structure Merged (less : SortRow → SortRow → Bool) (runs : List (List SortRow))
    (out : List SortRow) : Prop where
  perm : out ~ runs.flatten
  sublist : ∀ run ∈ runs, run.Sublist out
  sorted : ∀ {κ : Type} [LinearOrder κ] (key : SortRow → κ), RanksOn less key runs.flatten →
    (∀ run ∈ runs, run.Pairwise fun a b => key a ≤ key b) → out.Pairwise fun a b => key a ≤ key b

theorem merged_flatten {less : SortRow → SortRow → Bool} {runs : List (List SortRow)}
    (hlen : runs.length ≤ 1) : Merged less runs runs.flatten where
  perm := .refl _
  sublist _ hrun := sublist_flatten_of_mem hrun
  sorted key _ hsorted := by
    match runs, hlen with
    | [], _ => exact List.Pairwise.nil
    | [run], _ =>
      rw [flatten_singleton]
      exact hsorted run mem_cons_self

theorem exists_of_mem_right {α β : Type} {R : α → β → Prop} {as : List α} {bs : List β}
    (h : Forall₂ R as bs) {b : β} (hb : b ∈ bs) : ∃ a ∈ as, R a b := by
  induction h with
  | nil => exact absurd hb not_mem_nil
  | cons hab _ ih =>
    rcases mem_cons.1 hb with rfl | hb
    · exact ⟨_, mem_cons_self, hab⟩
    · obtain ⟨a, ha, hR⟩ := ih hb
      exact ⟨a, mem_cons_of_mem _ ha, hR⟩

theorem exists_of_mem_left {α β : Type} {R : α → β → Prop} {as : List α} {bs : List β}
    (h : Forall₂ R as bs) {a : α} (ha : a ∈ as) : ∃ b ∈ bs, R a b :=
  exists_of_mem_right h.flip ha

theorem flatten_perm {runs : List (List SortRow)} {rows : List SortRow}
    (hruns : Forall₂ (Drained H) runs (batches sizeofRow plan rows)) :
    runs.flatten ~ rows := by
  have h := Perm.flatten_congr (hruns.imp fun _ _ hrun => hrun.perm)
  rwa [batches, flatten_batchesFrom] at h

/-- **The output of the operator**: one run for each batch, merged. -/
theorem orderBy_merged (sizeofRow : Nat) (H : PriorityQueue (plan.dynamicComparator dump))
    (M : PriorityQueue (lessFst (plan.rowLess dump))) {input : List Text}
    (hrows : ∀ row ∈ keyedRows parse plan input, row.Parsed parse) :
    ∃ runs out, orderBy parse dump sizeofRow plan H M input = some (emit out) ∧
      Forall₂ (Drained H) runs (batches sizeofRow plan (keyedRows parse plan input)) ∧
      Merged (plan.rowLess dump) runs out := by
  obtain ⟨runs, hruns, hfiles, hflat⟩ := foldl_pushRow sizeofRow
    (keyedRows parse plan input) (⟨H.empty, 0, []⟩ : Sorter H.State)
    [] (.of_eq H.elements_empty)
  rw [← foldl_addRow] at hfiles hflat
  rw [nil_append] at hfiles
  by_cases hspilled : (input.foldl (addRow parse dump sizeofRow plan H) ⟨H.empty, 0, []⟩).runFiles = []
  · obtain ⟨hheap, hlen⟩ := hflat hspilled
    refine ⟨runs, runs.flatten, ?_, hruns, merged_flatten hlen⟩
    rw [orderBy, finish, if_pos hspilled, hheap]
  · have hread : (runs.map runFile).mapM (readRun parse) = some runs := by
      refine mapM_map_eq_some fun run hrun => readRun_runFile fun row hrow => hrows row ?_
      exact (flatten_perm hruns).subset (mem_flatten_of_mem hrun hrow)
    refine ⟨runs, M.mergeRuns runs, ?_, hruns, M.mergeRuns_perm runs,
      fun _ => M.sublist_mergeRuns, fun key hrank hsorted => (M.mergeRuns_spec key hsorted).2 hrank⟩
    rw [orderBy, finish, if_neg hspilled, hfiles, hread]
    rfl

end Runs

/-! ## The order of the keys -/

/-- The order that a plan asks for, on keys of one kind. -/
def inOrder (isAsc : Bool) : JsonValue → JsonValue → Prop
  | .int a, .int b => if isAsc then a ≤ b else b ≤ a
  | .string s, .string t => if isAsc then Text.lt t s = false else Text.lt s t = false
  | _, _ => False

structure KeyedBy {κ : Type} [LinearOrder κ] (dump : JsonValue → Text) (plan : OrderPlan)
    (key : SortRow → κ) (rows : List SortRow) : Prop where
  greater : ∀ a ∈ rows, ∀ b ∈ rows,
    valueGreater dump (plan.value a) (plan.value b) = decide (key b < key a)
  inOrder : ∀ a ∈ rows, ∀ b ∈ rows, ∀ isAsc,
    inOrder isAsc (plan.value a) (plan.value b) ↔ if isAsc then key a ≤ key b else key b ≤ key a
  key_eq : ∀ a ∈ rows, ∀ b ∈ rows, key a = key b ↔ plan.value a = plan.value b

section Order

variable {κ : Type} [LinearOrder κ] {dump : JsonValue → Text} {plan : OrderPlan}
  {key : SortRow → κ} {rows : List SortRow}

section

variable (h : KeyedBy dump plan key rows)

include h

theorem dynamicComparator_iff {a b : SortRow} (ha : a ∈ rows)
    (hb : b ∈ rows) : plan.dynamicComparator dump a b = true ↔
      if plan.isAsc then key b < key a else key b ≤ key a := by
  unfold OrderPlan.dynamicComparator OrderPlan.rowLess
  split
  · rw [h.greater a ha b hb, decide_eq_true_iff]
  · rw [h.greater b hb a ha, Bool.not_eq_true', decide_eq_false_iff_not, not_lt]

/-- **The first queue gives the smallest key first**, whatever the order. -/
theorem ranks_heap : RanksOn (plan.dynamicComparator dump) key rows := by
  intro a ha b hb
  rw [dynamicComparator_iff h ha hb, dynamicComparator_iff h hb ha]
  split
  · exact ⟨fun himp => le_of_not_gt fun hlt => lt_asymm hlt (himp hlt),
      fun hle hlt => absurd hle hlt.not_ge⟩
  · exact ⟨fun himp => (le_total (key a) (key b)).elim id himp, fun hle _ => hle⟩

theorem ranks_merge_asc (hasc : plan.isAsc = true) : RanksOn (plan.rowLess dump) key rows := by
  have hrank := ranks_heap h
  simpa only [RanksOn, OrderPlan.dynamicComparator, hasc, if_true] using hrank

theorem ranks_merge_desc (hasc : plan.isAsc = false) :
    RanksOn (plan.rowLess dump) (fun row => OrderDual.toDual (key row)) rows := by
  intro a ha b hb
  have hrank := ranks_heap h b hb a ha
  simpa [OrderPlan.dynamicComparator, hasc] using hrank

end

section Batches

variable {sizeofRow : Nat} {H : PriorityQueue (plan.dynamicComparator dump)}
  {runs : List (List SortRow)} {out : List SortRow}

variable (h : KeyedBy dump plan key rows)
  (hruns : Forall₂ (Drained H) runs (batches sizeofRow plan rows))

include h hruns

theorem run_ascending : ∀ run ∈ runs, run.Pairwise fun a b => key a ≤ key b := by
  intro run hrun
  obtain ⟨batch, hbatch, heap, hheap, rfl⟩ := exists_of_mem_left hruns hrun
  refine (H.drain_spec key (Nat.le_refl _)).2 ((ranks_heap h).mono fun row hrow => ?_)
  exact (flatten_perm hruns).subset
    (mem_flatten_of_mem hrun ((H.drainAll_perm heap).symm.subset hrow))

theorem key_eq_of_descending
    {run : List SortRow} (hrun : run ∈ runs) (hdesc : run.Pairwise fun a b => key b ≤ key a) :
    ∀ a ∈ run, ∀ b ∈ run, key a = key b := by
  have heq : run.Pairwise fun a b => key a = key b :=
    ((run_ascending h hruns run hrun).and hdesc).imp fun hle => le_antisymm hle.1 hle.2
  intro a ha b hb
  exact List.Pairwise.forall_of_forall (R := fun a b => key a = key b) (fun _ _ => rfl) heq ha hb

/-- **When the merged runs are in the order of the plan.** -/
theorem merged_inOrder_iff (hout : Merged (plan.rowLess dump) runs out) :
    (out.Pairwise fun a b => inOrder plan.isAsc (plan.value a) (plan.value b)) ↔
      plan.isAsc = true ∨ ∀ batch ∈ batches sizeofRow plan rows, ∀ a ∈ batch, ∀ b ∈ batch,
        plan.value a = plan.value b := by
  have hflat : ∀ row ∈ runs.flatten, row ∈ rows := fun _ hrow => (flatten_perm hruns).subset hrow
  have hmem : ∀ row ∈ out, row ∈ rows := fun row hrow => hflat row (hout.perm.subset hrow)
  have hpair := List.Pairwise.iff_of_mem fun {a b} ha hb =>
    h.inOrder a (hmem a ha) b (hmem b hb) plan.isAsc
  rw [hpair]
  cases hasc : plan.isAsc with
  | true =>
    refine iff_of_true ?_ (.inl rfl)
    exact hout.sorted key ((ranks_merge_asc h hasc).mono hflat) (run_ascending h hruns)
  | false =>
    constructor
    · intro hdesc
      refine .inr fun batch hbatch a ha b hb => ?_
      obtain ⟨run, hrun, hdrained⟩ := exists_of_mem_right hruns hbatch
      have hin : ∀ row ∈ batch, row ∈ run := fun _ hrow => hdrained.perm.symm.subset hrow
      have hrows : ∀ row ∈ batch, row ∈ rows := fun row hrow =>
        hflat row (mem_flatten_of_mem hrun (hin row hrow))
      have hkey := key_eq_of_descending h hruns hrun (hdesc.sublist (hout.sublist run hrun))
      exact (h.key_eq a (hrows a ha) b (hrows b hb)).1 (hkey a (hin a ha) b (hin b hb))
    · rintro (hfalse | heq)
      · exact absurd hfalse Bool.false_ne_true
      · refine hout.sorted (fun row => OrderDual.toDual (key row))
          ((ranks_merge_desc h hasc).mono hflat) fun run hrun => ?_
        obtain ⟨batch, hbatch, hdrained⟩ := exists_of_mem_left hruns hrun
        refine pairwise_of_forall_mem_list fun a ha b hb => ?_
        have hvalue := heq batch hbatch a (hdrained.perm.subset ha) b (hdrained.perm.subset hb)
        have hrows : ∀ row ∈ run, row ∈ rows := fun row hrow =>
          hflat row (mem_flatten_of_mem hrun hrow)
        exact ((h.key_eq a (hrows a ha) b (hrows b hb)).2 hvalue).ge

end Batches

end Order

/-! ## Integer and string keys -/

/-- The keys are integers of the range of `int`, or strings. -/
inductive UniformKeys (plan : OrderPlan) (rows : List SortRow) : Prop
  | int (h : ∀ row ∈ rows, ∃ n : Int, -2 ^ 31 ≤ n ∧ n < 2 ^ 31 ∧ plan.value row = .int n)
  | string (h : ∀ row ∈ rows, ∃ s, plan.value row = .string s)

def intKey : JsonValue → Int
  | .int n => n
  | _ => 0

def stringKey : JsonValue → List Nat
  | .string s => s.map UInt8.toNat
  | _ => []

theorem keyedBy_int {dump : JsonValue → Text} {plan : OrderPlan} {rows : List SortRow}
    (h : ∀ row ∈ rows, ∃ n : Int, -2 ^ 31 ≤ n ∧ n < 2 ^ 31 ∧ plan.value row = .int n) :
    KeyedBy dump plan (fun row => intKey (plan.value row)) rows where
  greater a ha b hb := by
    obtain ⟨m, hm, hm', hvalue⟩ := h a ha
    obtain ⟨n, hn, hn', hvalue'⟩ := h b hb
    simp only [hvalue, hvalue', valueGreater, intKey, toInt32_of_mem hm hm', toInt32_of_mem hn hn']
  inOrder a ha b hb isAsc := by
    obtain ⟨m, -, -, hvalue⟩ := h a ha
    obtain ⟨n, -, -, hvalue'⟩ := h b hb
    simp only [hvalue, hvalue', inOrder, intKey]
  key_eq a ha b hb := by
    obtain ⟨m, -, -, hvalue⟩ := h a ha
    obtain ⟨n, -, -, hvalue'⟩ := h b hb
    simp only [hvalue, hvalue', intKey, JsonValue.int.injEq]

theorem keyedBy_string {dump : JsonValue → Text} {plan : OrderPlan} {rows : List SortRow}
    (h : ∀ row ∈ rows, ∃ s, plan.value row = .string s) :
    KeyedBy dump plan (fun row => stringKey (plan.value row)) rows where
  greater a ha b hb := by
    obtain ⟨s, hvalue⟩ := h a ha
    obtain ⟨t, hvalue'⟩ := h b hb
    simp only [hvalue, hvalue', valueGreater, stringKey, Text.lt]
  inOrder a ha b hb isAsc := by
    obtain ⟨s, hvalue⟩ := h a ha
    obtain ⟨t, hvalue'⟩ := h b hb
    simp only [hvalue, hvalue', inOrder, stringKey, Text.lt, decide_eq_false_iff_not, not_lt]
  key_eq a ha b hb := by
    obtain ⟨s, hvalue⟩ := h a ha
    obtain ⟨t, hvalue'⟩ := h b hb
    have hinj : Function.Injective (List.map UInt8.toNat) :=
      map_injective_iff.2 fun _ _ => UInt8.toNat_inj.1
    simp only [hvalue, hvalue', stringKey, JsonValue.string.injEq, hinj.eq_iff]

/-- A text that the printer of the JSON library can have written: a line break inside a string is
escaped. -/
abbrev RowText := { text : Text // 10 ∉ text }

theorem parsed_of_mem_keyedRows {parse : Text → Option JsonValue} {plan : OrderPlan}
    {input : List RowText} {row : SortRow}
    (hrow : row ∈ keyedRows parse plan (input.map Subtype.val)) : row.Parsed parse := by
  obtain ⟨text, htext, hkeyed⟩ := mem_filterMap.1 hrow
  obtain ⟨line, -, rfl⟩ := mem_map.1 htext
  obtain ⟨hof, -⟩ := Option.filter_eq_some_iff.1 hkeyed
  have hstr : row.jsonStr = line.1 := by
    obtain ⟨data, -, rfl⟩ := Option.map_eq_some_iff.1 hof
    rfl
  exact ⟨hstr ▸ hof, hstr ▸ line.2⟩

theorem eq_of_emit_eq {parse : Text → Option JsonValue} {out out' : List SortRow}
    (h : ∀ row ∈ out, row.Parsed parse) (h' : ∀ row ∈ out', row.Parsed parse)
    (hemit : emit out = emit out') : out = out' := by
  have htexts : out.map SortRow.jsonStr = out'.map SortRow.jsonStr := by
    have hinj : Function.Injective (Message.row : Text → Message Text) := fun _ _ => Message.row.inj
    refine map_injective_iff.2 hinj ?_
    rw [map_map, map_map]
    exact append_cancel_right hemit
  have hread : ∀ {rows : List SortRow}, (∀ row ∈ rows, row.Parsed parse) →
      (rows.map SortRow.jsonStr).mapM (SortRow.ofText parse) = some rows := fun hrows =>
    mapM_map_eq_some fun row hrow => (hrows row hrow).ofText
  exact Option.some.inj ((hread h).symm.trans (htexts ▸ hread h'))

end OrderBy

open OrderBy in
/-- **When the worker's sort sorts.** On keys that are all integers or all strings, the output holds
exactly the rows that have a key and one end marker. It is in the order of the plan if the order is
`ASC`; for any other order exactly if all rows between two spills have the same key. -/
theorem orderBy_ordered_iff (parse : Text → Option JsonValue) (dump : JsonValue → Text)
    (sizeofRow : Nat) (plan : OrderPlan) (H : PriorityQueue (plan.dynamicComparator dump))
    (M : PriorityQueue (lessFst (plan.rowLess dump))) (input : List RowText)
    (hkeys : UniformKeys plan (keyedRows parse plan (input.map Subtype.val))) :
    (∃ out, orderBy parse dump sizeofRow plan H M (input.map Subtype.val) = some (emit out) ∧
        out ~ keyedRows parse plan (input.map Subtype.val) ∧
        out.Pairwise fun a b => inOrder plan.isAsc (plan.value a) (plan.value b)) ↔
      plan.isAsc = true ∨
        ∀ batch ∈ batches sizeofRow plan (keyedRows parse plan (input.map Subtype.val)),
          ∀ a ∈ batch, ∀ b ∈ batch, plan.value a = plan.value b := by
  obtain ⟨runs, out, hrun, hruns, hout⟩ :=
    orderBy_merged sizeofRow H M fun _ => parsed_of_mem_keyedRows
  have hperm := hout.perm.trans (flatten_perm hruns)
  refine Iff.trans
    ⟨?_, fun hsorted => ⟨out, hrun, hperm, hsorted⟩⟩ ?_
  · rintro ⟨out', hrun', hperm', hsorted⟩
    have hemit : emit out' = emit out := Option.some.inj (hrun'.symm.trans hrun)
    rwa [eq_of_emit_eq (fun _ hrow => parsed_of_mem_keyedRows (hperm'.subset hrow))
      (fun _ hrow => parsed_of_mem_keyedRows (hperm.subset hrow)) hemit] at hsorted
  · cases hkeys with
    | int h => exact merged_inOrder_iff (keyedBy_int h) hruns hout
    | string h => exact merged_inOrder_iff (keyedBy_string h) hruns hout

/-- A row that binds `n` to a node with a given age. -/
def ageRow (text : Text) (age : Int) : SortRow :=
  ⟨.object [(ascii "n", .object [(ascii "age", .int age)])], text⟩

/-- The text of the row of a node that is 20 years old, and of one that is 70. -/
def young : Text := ascii "\x7b\"n\":\x7b\"age\":20\x7d\x7d"

def old : Text := ascii "\x7b\"n\":\x7b\"age\":70\x7d\x7d"

def ages : List SortRow := [ageRow young 20, ageRow old 70]

/-- What the JSON parser makes of the two texts. -/
def parseAges (text : Text) : Option JsonValue :=
  (ages.find? fun row => row.jsonStr == text).map SortRow.data

open OrderBy in
theorem orderBy_ordered_ages :
    ∃ out, orderBy parseAges (fun _ => []) 96 ⟨ascii "n.age", ascii "ASC"⟩ (.selection _)
        (.selection _) [old, young] = some (emit out) ∧
      out ~ keyedRows parseAges ⟨ascii "n.age", ascii "ASC"⟩ [old, young] ∧
      out.Pairwise fun a b => inOrder true (getNestedValue a.data (ascii "n.age"))
        (getNestedValue b.data (ascii "n.age")) :=
  (orderBy_ordered_iff parseAges (fun _ => []) 96 ⟨ascii "n.age", ascii "ASC"⟩ (.selection _)
    (.selection _) [⟨old, by decide⟩, ⟨young, by decide⟩]
    (.int (forall_mem_cons.2 ⟨⟨70, by decide, by decide, rfl⟩,
      forall_mem_cons.2 ⟨⟨20, by decide, by decide, rfl⟩, nofun⟩⟩))).2 (.inl (by decide))

open OrderBy in
/-- Two rows in descending order come out ascending. -/
theorem orderBy_desc_ascending :
    ¬∃ out, orderBy parseAges (fun _ => []) 96 ⟨ascii "n.age", ascii "DESC"⟩ (.selection _)
        (.selection _) [old, young] = some (emit out) ∧
      out ~ keyedRows parseAges ⟨ascii "n.age", ascii "DESC"⟩ [old, young] ∧
      out.Pairwise fun a b => inOrder false (getNestedValue a.data (ascii "n.age"))
        (getNestedValue b.data (ascii "n.age")) := by
  rintro ⟨out, hrun, hperm, hsorted⟩
  have hasc : orderBy parseAges (fun _ => []) 96 ⟨ascii "n.age", ascii "DESC"⟩ (.selection _)
      (.selection _) [old, young] = some (emit ages) := by decide +kernel
  have hparsed : ∀ row ∈ ages, row.Parsed parseAges :=
    forall_mem_cons.2 ⟨⟨rfl, by decide⟩, forall_mem_cons.2 ⟨⟨rfl, by decide⟩, nofun⟩⟩
  have hout : out = ages := by
    refine eq_of_emit_eq (fun row hrow => hparsed row ?_) hparsed
      (Option.some.inj (hrun.symm.trans hasc))
    exact (Perm.swap _ _ _).subset (hperm.subset hrow)
  rw [hout] at hsorted
  have hle := rel_of_pairwise_cons hsorted mem_cons_self
  exact absurd hle (by decide : ¬(70 : Int) ≤ 20)

end JasmineGraph.Cypher
