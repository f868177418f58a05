import JasmineGraph.Schedule
import JasmineGraph.Cypher.Ast

/-!
# The aggregation settings of the master

How the master collects the rows of a query is kept in three static variables of `Operator`:
`isAggregate`, `aggregateType` and `aggregateKey`. They are assigned while a plan is printed, by
`AggregationFunction::execute` and `OrderBy::execute`, and read in `CypherQueryExecutor::execute`
after the plan was sent to the workers. `isAggregate` is set to false at the end of the branch that
collects an aggregate; a query that returns early or ends with an exception leaves it as it is.

Every query is a thread of the master. A step is one assignment, the test of `isAggregate`, a use of
the other two variables while rows are collected, or an end.

* `Query` lists the operators of a plan that aggregate, in the order in which they are printed.
* `AsPlanned`: what a step reads is what the query's own plan sets.
* `Undisturbed`: a query starts when `isAggregate` is false; a query that aggregates starts when no
  other query is on its way, and any query starts when none that aggregates is.
-/

namespace JasmineGraph.Cypher

open JasmineGraph.Bytes Function
open JasmineGraph.Schedule

/-- The static variables of `Operator`. -/
structure Settings where
  isAggregate : Bool
  aggregateType : Text
  aggregateKey : Text
  deriving DecidableEq, Repr

inductive Assignment
  | isAggregate
  | aggregateType (type : Text)
  | aggregateKey (key : Text)
  deriving DecidableEq, Repr

def Settings.assign (s : Settings) : Assignment → Settings
  | .isAggregate => { s with isAggregate := true }
  | .aggregateType type => { s with aggregateType := type }
  | .aggregateKey key => { s with aggregateKey := key }

/-- An operator whose `execute` assigns the settings. -/
inductive AggregatingOperator
  | average
  | orderBy (isAsc : Bool) (key : Text)
  deriving DecidableEq, Repr

/-- `AggregationFactory::ASC` and `AggregationFactory::DESC`. -/
def orderName (isAsc : Bool) : Text := if isAsc then ascii "ASC" else ascii "DESC"

/-- The assignments of `AggregationFunction::execute` and `OrderBy::execute`. -/
def AggregatingOperator.assignments : AggregatingOperator → List Assignment
  | average => [.isAggregate, .aggregateType (ascii "Average")]
  | orderBy isAsc key => [.isAggregate, .aggregateType (orderName isAsc), .aggregateKey key]

/-- The operators of a plan that aggregate, in the order in which they are printed. -/
abbrev Query := List AggregatingOperator

namespace Query

def assignments (q : Query) : List Assignment := q.flatMap AggregatingOperator.assignments

def settings (q : Query) (s : Settings) : Settings := q.assignments.foldl Settings.assign s

def own (q : Query) : Settings := q.settings ⟨false, [], []⟩

end Query

/-! ## The settings of a plan -/

namespace Query

theorem settings_concat (q : Query) (op : AggregatingOperator) (s : Settings) :
    settings (q ++ [op]) s = op.assignments.foldl Settings.assign (settings q s) := by
  simp [settings, assignments]

theorem isAggregate_settings (q : Query) {s : Settings} (hs : s.isAggregate = false) :
    (settings q s).isAggregate = (own q).isAggregate := by
  rcases List.eq_nil_or_concat' q with rfl | ⟨q, op, rfl⟩
  · exact hs
  · rw [own, settings_concat, settings_concat]
    cases op <;> rfl

theorem isAggregate_own {q : Query} (hq : (own q).isAggregate = true) : q ≠ [] := by
  rintro rfl
  exact absurd hq Bool.false_ne_true

end Query

/-- What a query in the collection loop does with the settings agrees with its plan: the type is the
same, and so is the key if rows are merged by one. -/
def Settings.Agrees (s own : Settings) : Prop :=
  s.aggregateType = own.aggregateType ∧
    ((∃ isAsc, own.aggregateType = orderName isAsc) → s.aggregateKey = own.aggregateKey)

/-- What was set before the plan was printed does not matter. -/
theorem Query.settings_agrees {q : Query} (hq : q ≠ []) (s : Settings) :
    (q.settings s).Agrees q.own := by
  rcases List.eq_nil_or_concat' q with rfl | ⟨q, op, rfl⟩
  · exact absurd rfl hq
  · rw [own, settings_concat, settings_concat]
    cases op with
    | average =>
      refine ⟨rfl, fun ⟨isAsc, heq⟩ => ?_⟩
      change ascii "Average" = orderName isAsc at heq
      exact absurd heq (by revert isAsc; decide)
    | orderBy isAsc key => exact ⟨rfl, fun _ => rfl⟩

inductive QueryPhase
  | idle
  | planning (todo : List Assignment)
  | collecting (aggregate : Bool)
  | ended
  deriving DecidableEq, Repr

/-- A query is on its way between the start of its planning and the end of its collection. -/
def QueryPhase.Active : QueryPhase → Prop
  | planning _ => True
  | collecting _ => True
  | _ => False

instance : DecidablePred QueryPhase.Active
  | .idle => isFalse id
  | .planning _ => isTrue trivial
  | .collecting _ => isTrue trivial
  | .ended => isFalse id

namespace Master

/-- The static variables and the queries. -/
structure State (ι : Type) where
  settings : Settings
  phase : ι → QueryPhase

/-- A query and what it does next. `fail` is an early return or an exception. -/
inductive Label (ι : Type)
  | start (i : ι)
  | assign (i : ι)
  | collect (i : ι)
  | use (i : ι)
  | finish (i : ι)
  | fail (i : ι)

section Steps

variable {ι : Type} [DecidableEq ι] (query : ι → Query)

def State.enter (s : State ι) (i : ι) (phase : QueryPhase) : State ι :=
  { s with phase := update s.phase i phase }

def step : Label ι → State ι → Option (State ι)
  | .start i, s =>
    match s.phase i with
    | .idle => some (s.enter i (.planning (query i).assignments))
    | _ => none
  | .assign i, s =>
    match s.phase i with
    | .planning (a :: todo) =>
      some { settings := s.settings.assign a, phase := update s.phase i (.planning todo) }
    | _ => none
  | .collect i, s =>
    match s.phase i with
    | .planning [] => some (s.enter i (.collecting s.settings.isAggregate))
    | _ => none
  | .use i, s =>
    match s.phase i with
    | .collecting true => some s
    | _ => none
  | .finish i, s =>
    match s.phase i with
    | .collecting true =>
      some { settings := { s.settings with isAggregate := false },
             phase := update s.phase i .ended }
    | .collecting false => some (s.enter i .ended)
    | _ => none
  | .fail i, s =>
    match s.phase i with
    | .planning _ => some (s.enter i .ended)
    | .collecting _ => some (s.enter i .ended)
    | _ => none

/-- The master at its start. -/
def initial : State ι := ⟨⟨false, [], []⟩, fun _ => .idle⟩

/-- What an enabled step reads is what the query's own plan sets. -/
def AsPlanned (l : Label ι) (s : State ι) : Prop :=
  step query l s ≠ none →
    match l with
    | .collect i => s.settings.isAggregate = (query i).own.isAggregate
    | .use i => s.settings.Agrees (query i).own
    | _ => True

/-- A query starts with `isAggregate` cleared, and not next to another one if either aggregates. -/
def Undisturbed (l : Label ι) (s : State ι) : Prop :=
  match l with
  | .start i => s.settings.isAggregate = false ∧
      ∀ j, (s.phase j).Active → query i = [] ∧ query j = []
  | _ => True

inductive Takes (s : State ι) : Label ι → State ι → Prop
  | start {i : ι} (hphase : s.phase i = .idle) :
      Takes s (.start i) (s.enter i (.planning (query i).assignments))
  | assign {i : ι} {a : Assignment} {todo : List Assignment}
      (hphase : s.phase i = .planning (a :: todo)) :
      Takes s (.assign i) ⟨s.settings.assign a, update s.phase i (.planning todo)⟩
  | collect {i : ι} (hphase : s.phase i = .planning []) :
      Takes s (.collect i) (s.enter i (.collecting s.settings.isAggregate))
  | use {i : ι} (hphase : s.phase i = .collecting true) : Takes s (.use i) s
  | finish {i : ι} (hphase : s.phase i = .collecting true) : Takes s (.finish i)
        ⟨{ s.settings with isAggregate := false }, update s.phase i .ended⟩
  | finishPlain {i : ι} (hphase : s.phase i = .collecting false) :
      Takes s (.finish i) (s.enter i .ended)
  | fail {i : ι} (hactive : (s.phase i).Active) : Takes s (.fail i) (s.enter i .ended)

theorem takes_of_step {l : Label ι} {s t : State ι} (h : step query l s = some t) :
    Takes query s l t := by
  cases l with
  | start i =>
    simp only [step] at h
    split at h
    · rename_i hphase
      cases h
      exact .start hphase
    · exact absurd h nofun
  | assign i =>
    simp only [step] at h
    split at h
    · rename_i a todo hphase
      cases h
      exact .assign hphase
    · exact absurd h nofun
  | collect i =>
    simp only [step] at h
    split at h
    · rename_i hphase
      cases h
      exact .collect hphase
    · exact absurd h nofun
  | use i =>
    simp only [step] at h
    split at h
    · rename_i hphase
      cases h
      exact .use hphase
    · exact absurd h nofun
  | finish i =>
    simp only [step] at h
    split at h
    · rename_i hphase
      cases h
      exact .finish hphase
    · rename_i hphase
      cases h
      exact .finishPlain hphase
    · exact absurd h nofun
  | fail i =>
    simp only [step] at h
    split at h
    · rename_i todo hphase
      cases h
      exact .fail (hphase ▸ trivial)
    · rename_i aggregate hphase
      cases h
      exact .fail (hphase ▸ trivial)
    · exact absurd h nofun

/-! ## Queries that start undisturbed -/

/-- What the settings are for a query on its way: those of its own plan, as far as it was printed, on
top of settings without the flag. -/
def Tracks (q : Query) (settings : Settings) : QueryPhase → Prop
  | .planning todo => ∃ printed before, q.assignments = printed ++ todo ∧
      before.isAggregate = false ∧ settings = printed.foldl Settings.assign before
  | .collecting aggregate => aggregate = q.own.isAggregate ∧
      ∃ before, before.isAggregate = false ∧ settings = q.settings before
  | _ => True

/-- Every query on its way has its own settings, and one that aggregates is alone. -/
structure Separate (s : State ι) : Prop where
  tracks : ∀ i, Tracks (query i) s.settings (s.phase i)
  alone : ∀ i j, i ≠ j → (s.phase i).Active → (s.phase j).Active → query i = [] ∧ query j = []

variable {query} {s : State ι} {i : ι}

theorem tracks_of_not_active {q : Query} {settings : Settings} {phase : QueryPhase}
    (h : ¬phase.Active) : Tracks q settings phase := by
  cases phase with
  | planning todo => exact absurd trivial h
  | collecting aggregate => exact absurd trivial h
  | _ => trivial

section

variable (h : Separate query s)

include h

theorem Separate.alone_update (phase : QueryPhase)
    (hactive : (s.phase i).Active) {j k : ι} (hjk : j ≠ k)
    (hj : (update s.phase i phase j).Active)
    (hk : (update s.phase i phase k).Active) : query j = [] ∧ query k = [] := by
  have hwas : ∀ j, (update s.phase i phase j).Active → (s.phase j).Active := by
    intro j hj
    by_cases hji : j = i
    · exact hji ▸ hactive
    · rwa [update_of_ne hji] at hj
  exact h.alone j k hjk (hwas j hj) (hwas k hk)

theorem Separate.enter {phase : QueryPhase} (hactive : (s.phase i).Active)
    (htracks : Tracks (query i) s.settings phase) : Separate query (s.enter i phase) where
  tracks := forall_update h.tracks htracks
  alone _ _ hjk hj hk := h.alone_update phase hactive hjk hj hk

theorem Separate.change {phase : QueryPhase} (settings : Settings)
    (hactive : (s.phase i).Active) (hquery : query i ≠ [])
    (htracks : Tracks (query i) settings phase) :
    Separate query ⟨settings, update s.phase i phase⟩ where
  tracks j := by
    change Tracks (query j) settings (update s.phase i phase j)
    by_cases hji : j = i
    · rw [hji, update_self]
      exact htracks
    · rw [update_of_ne hji]
      exact tracks_of_not_active fun hj => hquery (h.alone j i hji hj hactive).2
  alone _ _ hjk hj hk := h.alone_update phase hactive hjk hj hk

theorem Separate.start (hu : Undisturbed query (.start i) s) :
    Separate query (s.enter i (.planning (query i).assignments)) where
  tracks := forall_update h.tracks
    ⟨[], s.settings, rfl, hu.1, rfl⟩
  alone j k hjk hj hk := by
    change (update s.phase i _ j).Active at hj
    change (update s.phase i _ k).Active at hk
    by_cases hji : j = i
    · rw [update_of_ne (hji ▸ hjk.symm)] at hk
      exact hji ▸ hu.2 k hk
    · rw [update_of_ne hji] at hj
      by_cases hki : k = i
      · exact hki ▸ (hu.2 j hj).symm
      · rw [update_of_ne hki] at hk
        exact h.alone j k hjk hj hk

omit [DecidableEq ι] in
theorem Separate.settings_eq (hphase : s.phase i = .planning []) :
    ∃ before, before.isAggregate = false ∧ s.settings = (query i).settings before := by
  have htracks := h.tracks i
  rw [hphase] at htracks
  obtain ⟨printed, before, hsplit, hbefore, hsettings⟩ := htracks
  rw [List.append_nil] at hsplit
  exact ⟨before, hbefore, by rw [hsettings, Query.settings, hsplit]⟩

omit [DecidableEq ι] in
theorem Separate.collecting {aggregate : Bool}
    (hphase : s.phase i = .collecting aggregate) : aggregate = (query i).own.isAggregate ∧
      ∃ before, before.isAggregate = false ∧ s.settings = (query i).settings before := by
  have htracks := h.tracks i
  rwa [hphase] at htracks

end

/-- **A step keeps the queries apart.** -/
theorem Separate.step {l : Label ι} {t : State ι} (h : Separate query s)
    (hu : Undisturbed query l s) (hstep : step query l s = some t) : Separate query t := by
  cases takes_of_step query hstep with
  | start hphase => exact h.start hu
  | assign hphase =>
    rename_i i a todo
    have htracks := h.tracks i
    rw [hphase] at htracks
    obtain ⟨printed, before, hsplit, hbefore, hsettings⟩ := htracks
    refine h.change _ (hphase ▸ trivial) (fun hnil => ?_)
      ⟨printed ++ [a], before, ?_, hbefore, ?_⟩
    · rw [hnil] at hsplit
      exact absurd hsplit.symm (List.append_ne_nil_of_right_ne_nil _ (List.cons_ne_nil _ _))
    · rw [hsplit, List.append_assoc]
      rfl
    · rw [hsettings, List.foldl_append]
      rfl
  | collect hphase =>
    obtain ⟨before, hbefore, hown⟩ := h.settings_eq hphase
    refine h.enter (hphase ▸ trivial) ⟨?_, before, hbefore, hown⟩
    rw [hown, Query.isAggregate_settings _ hbefore]
  | use hphase => exact h
  | finish hphase =>
    exact h.change _ (hphase ▸ trivial) (Query.isAggregate_own (h.collecting hphase).1.symm) trivial
  | finishPlain hphase => exact h.enter (hphase ▸ trivial) trivial
  | fail hactive => exact h.enter hactive trivial

/-- Queries that are kept apart read what they set. -/
theorem Separate.asPlanned (h : Separate query s) (l : Label ι) : AsPlanned query l s := by
  intro henabled
  obtain ⟨t, hstep⟩ := Option.ne_none_iff_exists'.1 henabled
  cases takes_of_step query hstep with
  | collect hphase =>
    obtain ⟨before, hbefore, hown⟩ := h.settings_eq hphase
    rw [hown]
    exact Query.isAggregate_settings _ hbefore
  | use hphase =>
    obtain ⟨haggregate, before, -, hown⟩ := h.collecting hphase
    rw [hown]
    exact Query.settings_agrees (Query.isAggregate_own haggregate.symm) before
  | _ => trivial

omit [DecidableEq ι] in
theorem separate_initial : Separate query (initial : State ι) where
  tracks _ := trivial
  alone _ _ _ h := absurd h id

end Steps

open Master in
/-- **Queries that start undisturbed are collected as planned**: in every run of any queries in which
each starts with the flag cleared, and not next to another one if either aggregates, every query
reads the settings of its own plan. -/
theorem collected_asPlanned {ι : Type} [DecidableEq ι] (query : ι → Query) (ls : List (Label ι))
    (hls : Meets (step query) (Undisturbed query) ls initial) :
    Meets (step query) (AsPlanned query) ls initial :=
  hls.imp (fun _ _ _ h hu hstep => h.step hu hstep) (fun l _ h _ => h.asPlanned l) separate_initial

/-- `MATCH (n) RETURN n`, and the same with `ORDER BY n.age ASC`. -/
def plainAndOrdered : Bool → Query
  | false => []
  | true => [.orderBy true (ascii "n.age")]

/-- One query after the other. -/
theorem collected_asPlanned_plainAndOrdered :
    Meets (step plainAndOrdered) (AsPlanned plainAndOrdered)
      [.start true, .assign true, .assign true, .assign true, .collect true, .use true,
        .finish true, .start false, .collect false, .finish false] initial := by
  have hordered : Undisturbed plainAndOrdered (.start true) initial := ⟨rfl, nofun⟩
  refine collected_asPlanned plainAndOrdered _ (.cons hordered rfl (.cons trivial rfl
    (.cons trivial rfl (.cons trivial rfl (.cons trivial rfl (.cons trivial rfl
      (.cons trivial rfl (.cons ⟨rfl, by decide⟩ rfl (.cons trivial rfl (.cons trivial rfl
        trivial))))))))))

/-- The plain query is planned, the other one prints its plan, and then the rows of the first are
collected as an aggregate. -/
theorem collected_disturbed : ∃ ls t, run (step plainAndOrdered) ls initial = some t ∧
      ¬Meets (step plainAndOrdered) (AsPlanned plainAndOrdered) ls initial := by
  refine ⟨[.start false, .start true, .assign true, .collect false], _, rfl, fun h => ?_⟩
  have hflag := (((h.2 _ rfl).2 _ rfl).2 _ rfl).1 nofun
  exact absurd hflag nofun

end Master

end JasmineGraph.Cypher
