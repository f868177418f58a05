import JasmineGraph.MapLoop
import JasmineGraph.MapOption
import JasmineGraph.Cypher.FilterHelper

/-!
# `WHERE` from parse tree to truth value

A `WHERE` expression goes through three representations: the syntax tree of the visitors
(`Cypher/Ast.lean`), the condition of `Filter::analyzeWhere` (`Cypher/Filter.lean`) and the
recursion of `FilterHelper::evaluateCondition` (`Cypher/FilterHelper.lean`). This module follows an
expression over comparisons through all three.

* `codeValue` is the value that comes out for an expression without `XOR`: every odd number of
  `NOT`s gives false, because its node carries the string `"RETURN_BODY"` that the evaluator does
  not know.
* An expression with a proper `XOR` has no condition at all: its encoding throws.
-/

namespace JasmineGraph.Cypher

open JasmineGraph.Bytes JasmineGraph.MapLoop List Expression Connective

/-! ## The code -/

/-- The syntax tree of a `WHERE` expression over comparisons. -/
def visitWhere (e : Expression Comparison) : ASTNode :=
  visitExpression visitComparisonExpression e

/-- Encode a syntax tree and evaluate the condition on a row. -/
def evaluateTree (ast : ASTNode) (row : Row) : Option Bool :=
  analyzeWhere ast >>= evaluateCondition row

/-- `FilterHelper::evaluateComparison` on the condition of one comparison. -/
def atomValue (c : Comparison) (row : Row) : Option Bool :=
  evaluateTree (visitComparisonExpression c) row

/-! ## Levels of the tree -/

section Levels

variable {α : Type} {row : Row} {f : α → ASTNode} {val : α → Bool} {l : List α}

section

variable (h : ∀ a ∈ l, evaluateTree (f a) row = some (val a))

include h

theorem exists_conditions :
    ∃ cond : α → Condition, (l.map f).mapM analyzeWhere = some (l.map cond) ∧
      ∀ a ∈ l, evaluateCondition row (cond a) = some (val a) := by
  have hcond : ∀ a ∈ l, analyzeWhere (f a) = some ((analyzeWhere (f a)).getD .null) ∧
      evaluateCondition row ((analyzeWhere (f a)).getD .null) = some (val a) := by
    intro a ha
    obtain ⟨c, hc, heval⟩ := Option.bind_eq_some_iff.1 (h a ha)
    rw [hc]
    exact ⟨rfl, heval⟩
  refine ⟨_, ?_, fun a ha => (hcond a ha).2⟩
  rw [mapM_map]
  exact mapM_of_forall fun a ha => (hcond a ha).1

theorem evaluateTree_or : evaluateTree (.internal .OR (l.map f)) row = some (l.any val) := by
  obtain ⟨cond, hcond, heval⟩ := exists_conditions h
  rw [evaluateTree, analyzeWhere_or, hcond]
  exact evaluateOr_eq_any heval

theorem evaluateTree_and : evaluateTree (.internal .AND (l.map f)) row = some (l.all val) := by
  obtain ⟨cond, hcond, heval⟩ := exists_conditions h
  rw [evaluateTree, analyzeWhere_and, hcond]
  exact evaluateAnd_eq_all heval

end

/-- The node of an odd number of `NOT`s is false as soon as its child has a condition. -/
theorem evaluateTree_not {ast : ASTNode} {b : Bool} (h : evaluateTree ast row = some b) :
    evaluateTree (.internal Const.NOT [ast]) row = some false := by
  obtain ⟨c, hc, -⟩ := Option.bind_eq_some_iff.1 h
  rw [evaluateTree, analyzeWhere_not, mapM_cons, hc]
  rfl

end Levels

namespace Expression

variable {α β : Type}

/-! ## The two defects, and the value that comes out -/

/-- No level of the expression is a `XOR` of two members or more. -/
def xorFree : Expression α → Bool :=
  fold
    { atom := fun _ => true
      level := fun c b bs => (decide (c ≠ .xor) || bs.isEmpty) && (b :: bs).all id
      not := fun _ b => b }

/-- No level of the expression has an odd number of `NOT`s. -/
def notFree : Expression α → Bool :=
  fold
    { atom := fun _ => true, level := fun _ b bs => (b :: bs).all id
      not := fun n b => decide (n % 2 = 0) && b }

def codeValue (val : α → Bool) : Expression α → Bool :=
  fold
    { atom := val, level := combine, not := fun n b => decide (n % 2 = 0) && b }

variable {c : Connective} {e : Expression α} {es : List (Expression α)}

theorem xorFree_level :
    xorFree (.level c e es) = true ↔ (c ≠ .xor ∨ es = []) ∧ ∀ x ∈ e :: es, xorFree x = true := by
  simp [xorFree]

theorem notFree_level : notFree (.level c e es) = true ↔ ∀ x ∈ e :: es, notFree x = true := by
  simp [notFree]

theorem notFree_not {n : Nat} : notFree (.not n e) = true ↔ n % 2 = 0 ∧ notFree e = true := by
  simp [notFree]

section

variable (val : α → Bool)

theorem value_level (c : Connective) (e : Expression α) (es : List (Expression α)) :
    value val (.level c e es) = c.combine (value val e) (es.map (value val)) := by
  rw [value, fold_level]

theorem value_not (n : Nat) (e : Expression α) :
    value val (.not n e) = if n % 2 = 0 then value val e else !value val e := rfl

theorem codeValue_level (c : Connective) (e : Expression α) (es : List (Expression α)) :
    codeValue val (.level c e es) = c.combine (codeValue val e) (es.map (codeValue val)) := by
  rw [codeValue, fold_level]

theorem codeValue_not (n : Nat) (e : Expression α) :
    codeValue val (.not n e) = (decide (n % 2 = 0) && codeValue val e) := rfl

end

theorem mem_atoms_level {a : α} : a ∈ (level c e es).atoms ↔ ∃ x ∈ e :: es, a ∈ x.atoms := by
  have hatoms : (level c e es).atoms = ((e :: es).map atoms).flatten := by
    rw [atoms, fold_level]
    rfl
  simp only [hatoms, mem_flatten, mem_map, exists_exists_and_eq_and]

theorem map_level (f : α → β) (c : Connective) (e : Expression α) (es : List (Expression α)) :
    map f (.level c e es) = .level c (map f e) (es.map (map f)) := by
  rw [map, fold_level]

/-- A level without a proper `XOR`: one member, or a disjunction or conjunction. -/
theorem level_cases (h : c ≠ .xor ∨ es = []) : es = [] ∨ es ≠ [] ∧ (c = .or ∨ c = .and) := by
  rcases eq_or_ne es [] with hes | hes
  · exact .inl hes
  · cases c with
    | or => exact .inr ⟨hes, .inl rfl⟩
    | xor => exact absurd rfl (h.resolve_right hes)
    | and => exact .inr ⟨hes, .inr rfl⟩

theorem combine_nil (c : Connective) (b : Bool) : c.combine b [] = b := by
  cases c <;> simp [combine]

/-! ## The evaluation -/

section Evaluation

variable {visitAtom : α → ASTNode} {row : Row} {val : α → Bool}

theorem visitExpression_level (c : Connective) (e : Expression α) (es : List (Expression α)) :
    visitExpression visitAtom (.level c e es) =
      visitLevel (match c with | .or => .OR | .xor => .XOR | .and => .AND)
        (visitExpression visitAtom e) (es.map (visitExpression visitAtom)) := by
  cases c <;> exact fold_level _ _ _ _

/-- Without `XOR` the evaluation completes and returns `codeValue`. -/
theorem evaluateTree_of_xorFree (hxor : xorFree e = true)
    (hval : ∀ a ∈ e.atoms, evaluateTree (visitAtom a) row = some (val a)) :
    evaluateTree (visitExpression visitAtom e) row = some (codeValue val e) := by
  induction e using inductionOn with
  | atom a => exact hval a (mem_singleton.2 rfl)
  | level c e es ih =>
    obtain ⟨hlevel, hchildren⟩ := xorFree_level.1 hxor
    have ih' : ∀ x ∈ e :: es,
        evaluateTree (visitExpression visitAtom x) row = some (codeValue val x) :=
      fun x hx => ih x hx (hchildren x hx) fun a ha => hval a (mem_atoms_level.2 ⟨x, hx, ha⟩)
    rw [visitExpression_level, codeValue_level]
    rcases level_cases hlevel with rfl | ⟨hes, rfl | rfl⟩
    · simp only [map_nil, combine_nil]
      exact ih' e mem_cons_self
    · rw [visitLevel, if_neg (by simpa using hes), ← map_cons, evaluateTree_or ih']
      simp [combine]
    · rw [visitLevel, if_neg (by simpa using hes), ← map_cons, evaluateTree_and ih']
      simp [combine]
  | not n e ih =>
    have ih' := ih hxor hval
    rw [codeValue_not]
    rcases Nat.mod_two_eq_zero_or_one n with hn | hn
    · simpa [visitExpression, visitNotExpression, hn] using ih'
    · simpa [visitExpression, visitNotExpression, hn] using evaluateTree_not ih'

theorem isSome_analyzeWhere_iff : (analyzeWhere (visitExpression visitAtom e)).isSome ↔
      xorFree e = true ∧ ∀ a ∈ e.atoms, (analyzeWhere (visitAtom a)).isSome := by
  induction e using inductionOn with
  | atom a =>
    refine Iff.trans ?_ (and_iff_right rfl).symm
    exact (forall_mem_singleton (p := fun x => (analyzeWhere (visitAtom x)).isSome = true)).symm
  | level c e es ih =>
    have hmembers : (∀ x ∈ e :: es, (analyzeWhere (visitExpression visitAtom x)).isSome) ↔
        (∀ x ∈ e :: es, xorFree x = true) ∧
          ∀ a ∈ (level c e es).atoms, (analyzeWhere (visitAtom a)).isSome := by
      rw [forall₂_congr ih, forall₂_and]
      refine and_congr_right fun _ => ?_
      simp only [mem_atoms_level, forall_exists_index, and_imp]
      exact ⟨fun h a x hx => h x hx a, fun h x hx a => h a x hx⟩
    rw [visitExpression_level, xorFree_level, and_assoc, ← hmembers]
    rcases eq_or_ne es [] with rfl | hes
    · rw [and_iff_right (.inr rfl), forall_mem_singleton]
      rfl
    · rw [visitLevel, if_neg (by simpa using hes), ← map_cons]
      cases c with
      | or =>
        rw [analyzeWhere_or, Option.isSome_map, isSome_mapM, forall_mem_map,
          and_iff_right (.inl nofun)]
      | xor => exact iff_of_false nofun fun h => hes (h.1.resolve_left (fun h => h rfl))
      | and =>
        rw [analyzeWhere_and, Option.isSome_map, isSome_mapM, forall_mem_map,
          and_iff_right (.inl nofun)]
  | not n e ih =>
    refine Iff.trans ?_ ih
    rcases Nat.mod_two_eq_zero_or_one n with hn | hn
    · simp [visitExpression, visitNotExpression, hn]
    · have hnode : visitExpression visitAtom (.not n e) =
          .internal Const.NOT [visitExpression visitAtom e] := if_neg (by omega)
      rw [hnode, analyzeWhere_not, Option.isSome_map, isSome_mapM, forall_mem_singleton]

theorem analyzeWhere_of_xorFree_eq_false (hxor : xorFree e = false) :
    analyzeWhere (visitExpression visitAtom e) = none := by
  rw [← Option.not_isSome_iff_eq_none, isSome_analyzeWhere_iff, hxor]
  exact fun h => Bool.false_ne_true h.1

end Evaluation

/-! ## The value that comes out against the Boolean value -/

theorem codeValue_eq_value {val : α → Bool} (hnot : notFree e = true) :
    codeValue val e = value val e := by
  induction e using inductionOn with
  | atom a => rfl
  | level c e es ih =>
    have ih' := fun x hx => ih x hx (notFree_level.1 hnot x hx)
    rw [forall_mem_cons] at ih'
    rw [codeValue_level, value_level, ih'.1, map_congr_left ih'.2]
  | not n e ih =>
    obtain ⟨hn, hnot⟩ := notFree_not.1 hnot
    rw [codeValue_not, value_not, if_pos hn, ih hnot, decide_eq_true hn, Bool.true_and]

theorem shape_level (c : Connective) (e : Expression α) (es : List (Expression α)) :
    (level c e es).shape = .level c e.shape (es.map shape) := map_level _ c e es

theorem xorFree_shape (e : Expression α) : xorFree e.shape = xorFree e := fold_map _ _ e

theorem notFree_shape (e : Expression α) : notFree e.shape = notFree e := fold_map _ _ e

theorem shape_map (f : α → β) (e : Expression α) : (e.map f).shape = e.shape := fold_map _ _ e

theorem shape_unit (s : Expression Unit) : s.shape = s := by
  induction s using inductionOn with
  | atom a => rfl
  | level c s ss ih =>
    rw [forall_mem_cons] at ih
    rw [shape_level, ih.1, map_congr_left ih.2, map_id']
  | not n s ih => exact congrArg (not n) ih

theorem exists_level {P : Expression α → Prop} (c : Connective) {s : Expression Unit}
    {ss : List (Expression Unit)} (h : ∀ x ∈ s :: ss, ∃ y : Expression α, y.shape = x ∧ P y) :
    ∃ e es, (level c e es).shape = .level c s ss ∧ ∀ y ∈ e :: es, P y := by
  have hlist : ∀ l : List (Expression Unit), (∀ x ∈ l, ∃ y : Expression α, y.shape = x ∧ P y) →
      ∃ ys : List (Expression α), ys.map shape = l ∧ ∀ y ∈ ys, P y := by
    intro l hl
    induction l with
    | nil => exact ⟨[], rfl, nofun⟩
    | cons x l ih =>
      obtain ⟨⟨y, hy, hPy⟩, hl⟩ := forall_mem_cons.1 hl
      obtain ⟨ys, hys, hPys⟩ := ih hl
      exact ⟨y :: ys, by rw [map_cons, hy, hys], forall_mem_cons.2 ⟨hPy, hPys⟩⟩
  obtain ⟨ys, hys, hP⟩ := hlist _ h
  obtain ⟨e, es, rfl, rfl, rfl⟩ := map_eq_cons_iff.1 hys
  exact ⟨e, es, shape_level c e es, hP⟩

/-- Every shape without `XOR` takes both truth values. -/
theorem exists_value (s : Expression Unit) (hxor : xorFree s = true) (b : Bool) :
    ∃ e : Expression Bool, e.shape = s ∧ value id e = b := by
  induction s using inductionOn generalizing b with
  | atom a => exact ⟨.atom b, rfl, rfl⟩
  | level c s ss ih =>
    obtain ⟨hlevel, hchildren⟩ := xorFree_level.1 hxor
    obtain ⟨e, es, hshape, hes⟩ := exists_level c fun x hx => ih x hx (hchildren x hx) b
    refine ⟨.level c e es, hshape, ?_⟩
    rw [shape_level] at hshape
    injection hshape with _ _ hss
    rw [value_level]
    rcases level_cases hlevel with rfl | ⟨-, rfl | rfl⟩
    · rw [map_eq_nil_iff.1 hss, map_nil, combine_nil]
      exact hes e mem_cons_self
    · rw [combine, ← map_cons, any_map]
      cases b with
      | false => exact any_eq_false.2 fun y hy => by simp [hes y hy]
      | true => exact any_eq_true.2 ⟨e, mem_cons_self, hes e mem_cons_self⟩
    · rw [combine, ← map_cons, all_map]
      cases b with
      | false => exact all_eq_false.2 ⟨e, mem_cons_self, by simp [hes e]⟩
      | true => exact all_eq_true.2 hes
  | not n s ih =>
    rcases Nat.mod_two_eq_zero_or_one n with hn | hn
    · obtain ⟨e, hshape, he⟩ := ih hxor b
      exact ⟨.not n e, congrArg (not n) hshape, by rw [value_not, if_pos hn, he]⟩
    · obtain ⟨e, hshape, he⟩ := ih hxor (!b)
      refine ⟨.not n e, congrArg (not n) hshape, ?_⟩
      rw [value_not, if_neg (by omega), he, Bool.not_not]

/-- A shape without `XOR` and with an odd `NOT` has atoms for which the evaluator returns false and
the Boolean value is true: below the `NOT` the value false is chosen, and on the way up the other
members of each level leave it to that one. -/
theorem exists_codeValue_false (s : Expression Unit) (hxor : xorFree s = true)
    (hnot : notFree s = false) :
    ∃ e : Expression Bool, e.shape = s ∧ codeValue id e = false ∧ value id e = true := by
  induction s using inductionOn with
  | atom a => exact absurd hnot nofun
  | level c s ss ih =>
    obtain ⟨hlevel, hchildren⟩ := xorFree_level.1 hxor
    obtain ⟨x, hx, hxnot⟩ : ∃ x ∈ s :: ss, notFree x = false := by
      by_contra hall
      push Not at hall
      rw [notFree_level.2 fun x hx => by simpa using hall x hx] at hnot
      exact absurd hnot nofun
    -- the member of the chosen level that stands at the place of `x`
    have hmember : ∀ e es, (level c e es : Expression Bool).shape = .level c s ss →
        ∃ y ∈ e :: es, notFree y = false := by
      intro e es hshape
      rw [shape_level] at hshape
      injection hshape with _ hs hss
      rw [← hs, ← hss, ← map_cons] at hx
      obtain ⟨y, hy, rfl⟩ := mem_map.1 hx
      exact ⟨y, hy, (notFree_shape y).symm.trans hxnot⟩
    -- the members with an odd `NOT` differ, the others have the value `b`
    have hchoose : ∀ b, ∃ e es, (level c e es).shape = .level c s ss ∧ ∀ y ∈ e :: es,
        codeValue id y = (notFree y && b) ∧ value id y = (! notFree y || b) := by
      refine fun b => exists_level c fun x hx => ?_
      cases hx' : notFree x with
      | false =>
        obtain ⟨y, hy, hcode, hvalue⟩ := ih x hx (hchildren x hx) hx'
        have hynot : notFree y = false := by rw [← notFree_shape, hy, hx']
        exact ⟨y, hy, by simp [hcode, hynot], by simp [hvalue, hynot]⟩
      | true =>
        obtain ⟨y, hy, hvalue⟩ := exists_value x (hchildren x hx) b
        have hynot : notFree y = true := by rw [← notFree_shape, hy, hx']
        exact ⟨y, hy, by simp [codeValue_eq_value hynot, hvalue, hynot], by simp [hvalue, hynot]⟩
    rcases level_cases hlevel with rfl | ⟨-, rfl | rfl⟩
    · obtain rfl := mem_singleton.1 hx
      obtain ⟨e, hshape, hcode, hvalue⟩ := ih x hx (hchildren x hx) hxnot
      refine ⟨.level c e [], by rw [shape_level, hshape]; rfl, ?_, ?_⟩
      · rwa [codeValue_level, map_nil, combine_nil]
      · rwa [value_level, map_nil, combine_nil]
    · obtain ⟨e, es, hshape, hes⟩ := hchoose false
      obtain ⟨y, hy, hynot⟩ := hmember e es hshape
      refine ⟨_, hshape, ?_, ?_⟩
      · rw [codeValue_level, combine, ← map_cons, any_map]
        exact any_eq_false.2 fun y hy => by simp [(hes y hy).1]
      · rw [value_level, combine, ← map_cons, any_map]
        exact any_eq_true.2 ⟨y, hy, by simp [(hes y hy).2, hynot]⟩
    · obtain ⟨e, es, hshape, hes⟩ := hchoose true
      obtain ⟨y, hy, hynot⟩ := hmember e es hshape
      refine ⟨_, hshape, ?_, ?_⟩
      · rw [codeValue_level, combine, ← map_cons, all_map]
        exact all_eq_false.2 ⟨y, hy, by simp [(hes y hy).1, hynot]⟩
      · rw [value_level, combine, ← map_cons, all_map]
        exact all_eq_true.2 fun y hy => by simp [(hes y hy).2]
  | not n s ih =>
    rcases Nat.mod_two_eq_zero_or_one n with hn | hn
    · have hs : notFree s = false := by
        cases hs : notFree s with
        | false => rfl
        | true => rw [notFree_not.2 ⟨hn, hs⟩] at hnot; exact absurd hnot nofun
      obtain ⟨e, hshape, hcode, hvalue⟩ := ih hxor hs
      refine ⟨.not n e, congrArg (not n) hshape, ?_, ?_⟩
      · rw [codeValue_not, hcode, Bool.and_false]
      · rw [value_not, if_pos hn, hvalue]
    · obtain ⟨e, hshape, he⟩ := exists_value s hxor false
      refine ⟨.not n e, congrArg (not n) hshape, ?_, ?_⟩
      · rw [codeValue_not, decide_eq_false (by omega), Bool.false_and]
      · rw [value_not, if_neg (by omega), he, Bool.not_false]

theorem mem_atoms_map {f : α → β} {b : β} (hb : b ∈ (map f e).atoms) : ∃ a, f a = b := by
  induction e using inductionOn with
  | atom a => exact ⟨a, (mem_singleton.1 hb).symm⟩
  | level c e es ih =>
    rw [map_level, mem_atoms_level, ← map_cons] at hb
    obtain ⟨_, hmem, hb⟩ := hb
    obtain ⟨x, hx, rfl⟩ := mem_map.1 hmem
    exact ih x hx hb
  | not n e ih => exact ih hb

end Expression

/-! ## `WHERE` expressions -/

/-- The evaluation of a `WHERE` expression completes on a row and returns the Boolean value that
the values of its comparisons combine to. -/
def Faithful (e : Expression Comparison) (row : Row) : Prop :=
  ∀ val : Comparison → Bool, (∀ c ∈ e.atoms, atomValue c row = some (val c)) →
    evaluateTree (visitWhere e) row = some (e.value val)

def constant (b : Bool) : Comparison :=
  let text := if b then ascii "1" else ascii "2"
  { left := .leaf .DECIMAL (ascii "1")
    first := { sign := .eq, rest := text, operand := .leaf .DECIMAL text }
    rest := [] }

theorem atomValue_constant (b : Bool) (row : Row) : atomValue (constant b) row = some b := by
  cases b <;> rfl

def valueOn (row : Row) (c : Comparison) : Bool := (atomValue c row).getD false

theorem valueOn_constant (row : Row) (b : Bool) : valueOn row (constant b) = b := by
  rw [valueOn, atomValue_constant, Option.getD_some]

theorem atomValue_of_mem {e : Expression Bool} {row : Row} {c : Comparison}
    (hc : c ∈ (e.map constant).atoms) : atomValue c row = some (valueOn row c) := by
  obtain ⟨b, rfl⟩ := mem_atoms_map hc
  rw [valueOn_constant, atomValue_constant]

/-- **`WHERE` keeps its Boolean meaning without `XOR` and odd `NOT`s.** All expressions of a shape
are evaluated to their Boolean value, on every row, exactly when the shape has no `XOR` level and
no odd number of `NOT`s. -/
theorem evaluateWhere_faithful_iff (s : Expression Unit) :
    (∀ e : Expression Comparison, e.shape = s → ∀ row, Faithful e row) ↔
      s.xorFree = true ∧ s.notFree = true := by
  constructor
  · intro h
    -- over the constant comparisons, `h` gives the value for every choice of truth values
    have hvalue : ∀ (e : Expression Bool) (row : Row), e.shape = s →
        evaluateTree (visitWhere (e.map constant)) row = some (e.value id) := by
      intro e row he
      rw [h _ ((shape_map _ e).trans he) row (valueOn row) fun _ => atomValue_of_mem,
        value, fold_map]
      simp only [valueOn_constant]
      rfl
    have hxor : s.xorFree = true := by
      by_contra hxor
      have hshape := (shape_map (fun _ => true) s).trans (shape_unit s)
      have hsome := hvalue _ (fun _ => none) hshape
      rw [evaluateTree, visitWhere, analyzeWhere_of_xorFree_eq_false] at hsome
      · exact absurd hsome nofun
      · rwa [← xorFree_shape, shape_map, hshape, ← Bool.not_eq_true]
    refine ⟨hxor, ?_⟩
    by_contra hnot
    obtain ⟨e, rfl, hcode, htrue⟩ :=
      exists_codeValue_false s hxor (Bool.not_eq_true _ ▸ hnot)
    have hsome := hvalue e (fun _ => none) rfl
    rw [← shape_map constant, xorFree_shape] at hxor
    rw [visitWhere, evaluateTree_of_xorFree hxor fun _ => atomValue_of_mem,
      codeValue, fold_map, htrue] at hsome
    simp only [valueOn_constant] at hsome
    exact absurd (hcode.symm.trans (Option.some.inj hsome)) nofun
  · rintro ⟨hxor, hnot⟩ e rfl row val hval
    rw [xorFree_shape] at hxor
    rw [notFree_shape] at hnot
    rw [← codeValue_eq_value hnot]
    exact evaluateTree_of_xorFree hxor hval

/-- The comparison `n.age = 5`. -/
def ageIsFive : Comparison :=
  { left := .internal .NON_ARITHMETIC_OPERATOR [.leaf .VARIABLE (ascii "n"),
        .internal .PROPERTY_LOOKUP [.leaf .SYMBOLIC_WORD (ascii "age")]]
    first := { sign := .eq, rest := ascii " 5", operand := .leaf .DECIMAL (ascii "5") }
    rest := [] }

/-- A row whose node `n` has the given age. -/
def rowWithAge (age : Text) : Row := fun v =>
  if v = ascii "n" then
    some (.object fun p => if p = ascii "age" then some (.string age) else none)
  else none

/-- On a node of age 30, `n.age = 5` is false and `NOT n.age = 5` is evaluated to false as well;
`n.age = 5 XOR n.age = 5` has no condition. -/
theorem not_and_xor_unfaithful : atomValue ageIsFive (rowWithAge (ascii "30")) = some false ∧
      evaluateTree (visitWhere (.not 1 (.atom ageIsFive))) (rowWithAge (ascii "30")) = some false ∧
      analyzeWhere (visitWhere (.level .xor (.atom ageIsFive) [.atom ageIsFive])) = none ∧
      ¬ Faithful (.not 1 (.atom ageIsFive)) (rowWithAge (ascii "30")) ∧
      ¬ Faithful (.level .xor (.atom ageIsFive) [.atom ageIsFive]) (rowWithAge (ascii "30")) := by
  have hfalse : atomValue ageIsFive (rowWithAge (ascii "30")) = some false := by decide +kernel
  have hnot : evaluateTree (visitWhere (.not 1 (.atom ageIsFive))) (rowWithAge (ascii "30")) =
      some false := by decide +kernel
  refine ⟨hfalse, hnot, rfl, fun h => ?_, fun h => ?_⟩
  · have htrue := h (fun _ => false) fun c hc => by rw [mem_singleton.1 hc, hfalse]
    exact absurd htrue nofun
  · have hsome := h (fun _ => false) fun c hc => by
      rw [show c = ageIsFive by simpa [atoms] using hc, hfalse]
    exact absurd hsome nofun

end JasmineGraph.Cypher
