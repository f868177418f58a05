import JasmineGraph.Cypher.Pattern
import JasmineGraph.Cypher.Where

/-!
# The cases of one `Filter` operator

The planner hands a `Filter` operator a list of cases: `WHERE` trees, property maps, labels and
label lists, each with the variable it constrains. `Filter::execute` writes them into the single
field `condition` of the plan, one after the other.

* `FilterCase` are the cases as the planner builds them; `FilterCase.item` is the pair of variable
  and syntax node that `execute` receives.
* `FilterCase.conditions` says what a case asks of a row: the condition of the `WHERE` tree, one
  comparison for each entry of a property map, one for each label.
-/

namespace JasmineGraph.Cypher

open JasmineGraph.Bytes JasmineGraph.MapLoop List

/-! ## Cases -/

/-- A filter case. A `WHERE` tree comes with its encoding, a label list has two labels or more. -/
inductive FilterCase
  | whereTree (tree : ASTNode) (condition : Condition) (encodes : analyzeWhere tree = some condition)
  | propertiesMap (var : Text) (entries : Entries)
  | nodeLabel (var label : Text)
  | nodeLabels (var first second : Text) (rest : List Text)

/-- The kinds of filter cases, with the number of entries of a property map and the number of
further labels of a label list. -/
inductive CaseKind
  | whereTree
  | propertiesMap (entries : Nat)
  | nodeLabel
  | nodeLabels (rest : Nat)
  deriving DecidableEq

namespace FilterCase

def kind : FilterCase → CaseKind
  | whereTree _ _ _ => .whereTree
  | propertiesMap _ entries => .propertiesMap entries.length
  | nodeLabel _ _ => .nodeLabel
  | nodeLabels _ _ _ rest => .nodeLabels rest.length

/-- The pair that the planner puts on `filterCases`. -/
def item : FilterCase → Text × ASTNode
  | whereTree tree _ _ => (ascii "null", .internal .WHERE [tree])
  | propertiesMap var entries => (var, propertiesNode entries)
  | nodeLabel var label => (var, labelNode label)
  | nodeLabels var first second rest =>
    (var, .internal .NODE_LABELS ((first :: second :: rest).map labelNode))

def conditions : FilterCase → List Condition
  | whereTree _ condition _ => [condition]
  | propertiesMap var entries => entries.map fun e => propertyTest var e.1 e.2.1 e.2.2
  | nodeLabel var label => [propertyTest var (ascii "label") .STRING label]
  | nodeLabels var first second rest =>
    (first :: second :: rest).map (propertyTest var (ascii "label") .STRING)

/-- A row satisfies a case when all its conditions are evaluated to true. -/
def Satisfied (row : Row) (c : FilterCase) : Prop :=
  ∀ condition ∈ c.conditions, evaluateCondition row condition = some true

end FilterCase

/-- A row passes the plan that `Filter::execute` prints for the cases. -/
def Passes (row : Row) (cases : List FilterCase) : Prop :=
  (Filter.execute (cases.map FilterCase.item) >>= evaluateCondition row) = some true

/-- The kinds that `execute` has a branch for and that the branch can encode. -/
def CaseKind.Enforced : CaseKind → Prop
  | .whereTree | .nodeLabel => True
  | .propertiesMap n => 0 < n
  | .nodeLabels _ => False

/-! ## What `execute` does with a case -/

variable {condition : Condition} {c : FilterCase} {items : List (Text × ASTNode)} {b : Bool}
  {k : CaseKind}

/-- A property map of two entries or more becomes a conjunction, one of one entry its comparison,
and an empty one reads past the end of its elements. -/
theorem analyzeCase_propertiesMap (var : Text) (entries : Entries) :
    analyzeCase (FilterCase.propertiesMap var entries).item =
      match entries with
      | [] => none
      | [e] => some (some (propertyTest var e.1 e.2.1 e.2.2))
      | _ => some (some (.logical .AND (FilterCase.propertiesMap var entries).conditions)) := by
  match entries with
  | [] => rfl
  | [e] => rfl
  | e :: e' :: es =>
    have hmapM : ((e :: e' :: es).map entryNode).mapM (analyzeProperty var) =
        some (FilterCase.propertiesMap var (e :: e' :: es)).conditions := by
      rw [mapM_map]
      exact mapM_of_forall fun _ _ => rfl
    exact congrArg (fun o => (o.map (Condition.logical .AND)).map some) hmapM

theorem evaluateAnd_eq_true_iff {row : Row} {cs : List Condition} :
    evaluateAnd row cs = some true ↔ ∀ c ∈ cs, evaluateCondition row c = some true := by
  induction cs with
  | nil => simp [evaluateAnd]
  | cons c cs ih =>
    rw [evaluateAnd, forall_mem_cons, ← ih]
    rcases evaluateCondition row c with _ | _ | _ <;> simp

theorem analyzeCase_of_enforced (h : c.kind.Enforced) :
    ∃ condition, analyzeCase c.item = some (some condition) ∧
      ∀ row, evaluateCondition row condition = some true ↔ c.Satisfied row := by
  cases c with
  | whereTree tree condition encodes =>
    exact ⟨condition, congrArg (Option.map some) encodes, fun row => by
      simp [FilterCase.Satisfied, FilterCase.conditions]⟩
  | propertiesMap var entries =>
    rw [analyzeCase_propertiesMap]
    match entries, h with
    | [e], _ =>
      exact ⟨_, rfl, fun row => by simp [FilterCase.Satisfied, FilterCase.conditions]⟩
    | e :: e' :: es, _ => exact ⟨_, rfl, fun row => evaluateAnd_eq_true_iff⟩
  | nodeLabel var label =>
    exact ⟨propertyTest var (ascii "label") .STRING label, rfl, fun row => by
      simp [FilterCase.Satisfied, FilterCase.conditions]⟩
  | nodeLabels var first second rest => exact h.elim

/-- The cases without a condition: an empty property map has no encoding, a label list no branch. -/
theorem analyzeCase_of_not_enforced (h : ¬ c.kind.Enforced) :
    analyzeCase c.item = if c.kind = .propertiesMap 0 then none else some none := by
  cases c with
  | whereTree tree condition encodes => exact absurd trivial h
  | nodeLabel var label => exact absurd trivial h
  | propertiesMap var entries =>
    rw [length_eq_zero_iff.1 (Nat.eq_zero_of_not_pos h)]
    rfl
  | nodeLabels var first second rest => rfl

theorem analyzeCase_ne_none (h : c.kind ≠ .propertiesMap 0) : analyzeCase c.item ≠ none := by
  by_cases henforced : c.kind.Enforced
  · obtain ⟨condition, hcase, -⟩ := analyzeCase_of_enforced henforced
    rw [hcase]
    exact nofun
  · rw [analyzeCase_of_not_enforced henforced, if_neg h]
    exact nofun

/-! ## What `execute` does with the list -/

theorem execute_eq_none (h : ∃ item ∈ items, analyzeCase item = none) :
    items.foldlM overwrite condition = none := by
  induction items generalizing condition with
  | nil => exact absurd h (by simp)
  | cons item items ih =>
    rw [foldlM_cons, overwrite]
    rcases hitem : analyzeCase item with _ | c
    · rfl
    · obtain ⟨x, hx, hnone⟩ := h
      rcases mem_cons.1 hx with rfl | hx
      · rw [hitem] at hnone
        exact absurd hnone nofun
      · exact ih ⟨x, hx, hnone⟩

theorem execute_skip (condition : Condition) (h : ∀ item ∈ items, analyzeCase item = some none) :
    items.foldlM overwrite condition = some condition := by
  induction items with
  | nil => rfl
  | cons item items ih =>
    obtain ⟨hitem, hitems⟩ := forall_mem_cons.1 h
    rw [foldlM_cons, overwrite, hitem]
    exact ih hitems

theorem execute_isSome (condition : Condition) (h : ∀ item ∈ items, analyzeCase item ≠ none) :
    ∃ last, items.foldlM overwrite condition = some last := by
  induction items generalizing condition with
  | nil => exact ⟨condition, rfl⟩
  | cons item items ih =>
    obtain ⟨hitem, hitems⟩ := forall_mem_cons.1 h
    obtain ⟨c, hc⟩ := Option.ne_none_iff_exists'.1 hitem
    obtain ⟨last, hlast⟩ := ih (c.getD condition) hitems
    exact ⟨last, by rw [foldlM_cons, overwrite, hc]; exact hlast⟩

theorem execute_eq_last (before after : List (Text × ASTNode)) {item : Text × ASTNode}
    (hbefore : ∀ x ∈ before, analyzeCase x ≠ none)
    (hitem : analyzeCase item = some (some condition))
    (hafter : ∀ x ∈ after, analyzeCase x = some none) :
    Filter.execute (before ++ item :: after) = some condition := by
  obtain ⟨last, hlast⟩ := execute_isSome .null hbefore
  have hoverwrite : overwrite last item = some condition := by
    rw [overwrite, hitem]
    rfl
  rw [Filter.execute, foldlM_append, hlast, Option.bind_eq_bind, Option.bind_some,
    foldlM_cons, hoverwrite]
  exact execute_skip condition hafter

theorem passes_singleton_iff {row : Row} (h : c.kind.Enforced) :
    Passes row [c] ↔ c.Satisfied row := by
  obtain ⟨condition, hcase, heval⟩ := analyzeCase_of_enforced h
  have hexecute : Filter.execute [c.item] = some condition :=
    execute_eq_last [] [] nofun hcase nofun
  rw [← heval row, Passes, map_singleton, hexecute]
  rfl

/-! ## Cases to choose from

On a row whose node `n` has the label `A` and the property `p` with the value `x`, every kind of
case has a member that is satisfied and, unless it asks for nothing, one that is not. -/

def sampleRow : Row := fun v =>
  if v = ascii "n" then
    some (.object fun p =>
      if p = ascii "label" then some (.string (ascii "A"))
      else if p = ascii "p" then some (.string (ascii "x")) else none)
  else none

def sampleCase (satisfied : Bool) : CaseKind → FilterCase
  | .whereTree =>
    .whereTree (visitComparisonExpression (constant satisfied))
      (.comparison (.other .DECIMAL (ascii "1")) .DOUBLE_EQUAL
        (.other .DECIMAL (if satisfied then ascii "1" else ascii "2")))
      (by cases satisfied <;> rfl)
  | .propertiesMap n =>
    .propertiesMap (ascii "n")
      (replicate n (ascii "p", .STRING, if satisfied then ascii "x" else ascii "y"))
  | .nodeLabel => .nodeLabel (ascii "n") (if satisfied then ascii "A" else ascii "B")
  | .nodeLabels n =>
    let label := if satisfied then ascii "A" else ascii "B"
    .nodeLabels (ascii "n") label label (replicate n label)

theorem kind_sampleCase (b : Bool) (k : CaseKind) : (sampleCase b k).kind = k := by
  cases k <;> simp [sampleCase, FilterCase.kind]

theorem evaluate_sampleCase (h : condition ∈ (sampleCase b k).conditions) :
    evaluateCondition sampleRow condition = some b := by
  cases k with
  | whereTree =>
    rw [mem_singleton.1 h]
    cases b <;> rfl
  | propertiesMap n =>
    obtain ⟨e, he, rfl⟩ := mem_map.1 h
    rw [eq_of_mem_replicate he]
    cases b <;> rfl
  | nodeLabel =>
    rw [mem_singleton.1 h]
    cases b <;> rfl
  | nodeLabels n =>
    obtain ⟨l, hl, rfl⟩ := mem_map.1 h
    rw [← replicate_succ, ← replicate_succ] at hl
    rw [eq_of_mem_replicate hl]
    cases b <;> rfl

theorem conditions_ne_nil (hk : k ≠ .propertiesMap 0) : (sampleCase b k).conditions ≠ [] := by
  cases k with
  | propertiesMap n =>
    have hn : n ≠ 0 := fun h => hk (congrArg CaseKind.propertiesMap h)
    simpa [sampleCase, FilterCase.conditions] using hn
  | whereTree | nodeLabel | nodeLabels n => exact cons_ne_nil _ _

theorem exists_last {α : Type} (p : α → Prop) (l : List α) :
    (∀ x ∈ l, ¬ p x) ∨ ∃ before x after, l = before ++ x :: after ∧ p x ∧ ∀ y ∈ after, ¬ p y := by
  induction l with
  | nil => exact .inl nofun
  | cons a l ih =>
    rcases ih with hnone | ⟨before, x, after, rfl, hx, hafter⟩
    · by_cases ha : p a
      · exact .inr ⟨[], a, l, rfl, ha, hnone⟩
      · exact .inl (forall_mem_cons.2 ⟨ha, hnone⟩)
    · exact .inr ⟨a :: before, x, after, rfl, hx, hafter⟩

/-! ## The theorem -/

/-- The filters over cases of these kinds pass exactly the rows that satisfy all their cases. -/
def Enforces (kinds : List CaseKind) : Prop :=
  ∀ cases : List FilterCase, cases.map FilterCase.kind = kinds →
    ∀ row, Passes row cases ↔ ∀ c ∈ cases, c.Satisfied row

theorem map_kind_sampleCase (b : Bool) (kinds : List CaseKind) :
    (kinds.map (sampleCase b)).map FilterCase.kind = kinds := by
  rw [map_map]
  exact (map_congr_left fun k _ => kind_sampleCase b k).trans (map_id kinds)

theorem satisfied_sampleCase (k : CaseKind) : (sampleCase true k).Satisfied sampleRow :=
  fun _ h => evaluate_sampleCase h

theorem not_satisfied_sampleCase (hk : k ≠ .propertiesMap 0) :
    ¬ (sampleCase false k).Satisfied sampleRow := by
  intro h
  obtain ⟨condition, hcondition⟩ := exists_mem_of_ne_nil _ (conditions_ne_nil hk)
  exact absurd ((evaluate_sampleCase hcondition).symm.trans (h condition hcondition)) nofun

theorem Enforces.passes_satisfied {kinds : List CaseKind} (h : Enforces kinds) :
    Passes sampleRow (kinds.map (sampleCase true)) := by
  refine (h _ (map_kind_sampleCase true kinds) sampleRow).2 fun c hc => ?_
  obtain ⟨k, -, rfl⟩ := mem_map.1 hc
  exact satisfied_sampleCase k

theorem Enforces.ne_emptyMap {kinds : List CaseKind} (h : Enforces kinds) (hk : k ∈ kinds) :
    k ≠ .propertiesMap 0 := by
  rintro rfl
  have hpasses := h.passes_satisfied
  rw [Passes, Filter.execute,
    execute_eq_none ⟨_, mem_map_of_mem (mem_map_of_mem hk), rfl⟩] at hpasses
  exact absurd hpasses nofun

theorem analyzeCase_sampleCase_skip (hk : k ≠ .propertiesMap 0) (hnot : ¬ k.Enforced) :
    analyzeCase (sampleCase b k).item = some none := by
  rw [← kind_sampleCase b k] at hk hnot
  rw [analyzeCase_of_not_enforced hnot, if_neg hk]

theorem passes_last {before after : List CaseKind}
    (hne : ∀ k' ∈ before ++ k :: after, k' ≠ .propertiesMap 0) (hk : k.Enforced)
    (hafter : ∀ k' ∈ after, ¬ k'.Enforced) :
    Passes sampleRow
      (before.map (sampleCase false) ++ sampleCase true k :: after.map (sampleCase false)) := by
  obtain ⟨condition, hcase, heval⟩ := analyzeCase_of_enforced ((kind_sampleCase true k).symm ▸ hk)
  rw [Passes, map_append, map_cons, execute_eq_last _ _ ?_ hcase ?_]
  · exact (heval sampleRow).2 (satisfied_sampleCase k)
  · intro item hitem
    obtain ⟨_, hc, rfl⟩ := mem_map.1 hitem
    obtain ⟨k', hk', rfl⟩ := mem_map.1 hc
    refine analyzeCase_ne_none ?_
    rw [kind_sampleCase]
    exact hne k' (mem_append_left _ hk')
  · intro item hitem
    obtain ⟨_, hc, rfl⟩ := mem_map.1 hitem
    obtain ⟨k', hk', rfl⟩ := mem_map.1 hc
    exact analyzeCase_sampleCase_skip
      (hne k' (mem_append_right _ (mem_cons_of_mem _ hk'))) (hafter k' hk')

/-- **A filter enforces its cases only when it has one.** The filters over cases of given kinds
pass exactly the rows that satisfy every case if and only if there is one case, of a kind that
`execute` has a branch for (a property map with at least one entry). -/
theorem filter_enforces_iff (kinds : List CaseKind) :
    Enforces kinds ↔ ∃ k, kinds = [k] ∧ k.Enforced := by
  constructor
  · intro h
    rcases exists_last CaseKind.Enforced kinds with hnone | ⟨before, k, after, rfl, hk, hafter⟩
    · -- no case has a branch: the plan has no condition
      have hpasses := h.passes_satisfied
      rw [Passes, Filter.execute, execute_skip] at hpasses
      · exact absurd hpasses nofun
      · intro item hitem
        obtain ⟨_, hc, rfl⟩ := mem_map.1 hitem
        obtain ⟨k, hk, rfl⟩ := mem_map.1 hc
        exact analyzeCase_sampleCase_skip (h.ne_emptyMap hk) (hnone k hk)
    · have hkinds : (before.map (sampleCase false) ++ sampleCase true k ::
          after.map (sampleCase false)).map FilterCase.kind = before ++ k :: after := by
        rw [map_append, map_cons, map_kind_sampleCase, map_kind_sampleCase, kind_sampleCase]
      have hall := (h _ hkinds sampleRow).1 (passes_last (fun _ => h.ne_emptyMap) hk hafter)
      -- a further case would be satisfied, but was chosen not to be
      have hnil : ∀ k', k' ∉ before ++ after := by
        intro k' hk'
        rcases mem_append.1 hk' with hk' | hk'
        · exact not_satisfied_sampleCase (h.ne_emptyMap (mem_append_left _ hk'))
            (hall _ (mem_append_left _ (mem_map_of_mem hk')))
        · exact not_satisfied_sampleCase
            (h.ne_emptyMap (mem_append_right _ (mem_cons_of_mem _ hk')))
            (hall _ (mem_append_right _ (mem_cons_of_mem _ (mem_map_of_mem hk'))))
      obtain ⟨rfl, rfl⟩ := append_eq_nil_iff.1 (eq_nil_iff_forall_not_mem.2 hnil)
      exact ⟨k, rfl, hk⟩
  · rintro ⟨k, rfl, hk⟩ cases hcases row
    obtain ⟨c, rfl, rfl⟩ := map_eq_singleton_iff.1 hcases
    rw [passes_singleton_iff hk, forall_mem_singleton]

/-- The cases for the node `(n:Person {name: 'x'})`: its label and its property map. -/
def personNamedX : List FilterCase :=
  [.nodeLabel (ascii "n") (ascii "Person"),
    .propertiesMap (ascii "n") [(ascii "name", .STRING, ascii "'x'")]]

/-- A row whose node `n` has the given label and the name `x`. -/
def rowWithLabel (label : Text) : Row := fun v =>
  if v = ascii "n" then
    some (.object fun p =>
      if p = ascii "label" then some (.string label)
      else if p = ascii "name" then some (.string (ascii "x")) else none)
  else none

/-- A city of the name `x` passes the filter for a person of the name `x`, and a filter for the two
labels of a node that has both fails on it. -/
theorem city_passes_personNamedX : Passes (rowWithLabel (ascii "City")) personNamedX ∧
      ¬ (∀ c ∈ personNamedX, c.Satisfied (rowWithLabel (ascii "City"))) ∧
      ¬ Passes (rowWithLabel (ascii "City"))
        [.nodeLabels (ascii "n") (ascii "City") (ascii "City") []] ∧
      FilterCase.Satisfied (rowWithLabel (ascii "City"))
        (.nodeLabels (ascii "n") (ascii "City") (ascii "City") []) := by
  refine ⟨rfl, fun h => ?_, nofun, fun condition h => ?_⟩
  · have hlabel := h _ mem_cons_self _ mem_cons_self
    exact absurd hlabel (by decide +kernel)
  · simp only [FilterCase.conditions, map_cons, map_nil, mem_cons, not_mem_nil,
      or_false, or_self] at h
    rw [h]
    rfl

end JasmineGraph.Cypher
