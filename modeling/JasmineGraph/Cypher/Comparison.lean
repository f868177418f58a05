import JasmineGraph.Cypher.Where

/-!
# Comparison chains

`e₀ op₁ e₁ … opₙ eₙ` is parsed into one comparison with `n` partial comparisons. The visitor
`visitOC_PartialComparisonExpression` finds the operator of each by a search in the whole text of
the partial comparison, operand included, and the `COMPARISON` branch of `Filter::analyzeWhere`
reads the first two elements of the node.

* `links` are the comparisons that the chain stands for: `e₀ op₁ e₁`, `e₁ op₂ e₂` and so on.
* What the comparisons of encoded operands mean is left open: a condition is equivalent to the
  conjunction of the links when it is so under every interpretation `I` of
  `operand operator operand`. `FilterHelper::evaluateComparison` on a row is one interpretation.
-/

namespace JasmineGraph.Cypher

open JasmineGraph.Bytes JasmineGraph.MapLoop PartialComparison List

/-! ## The search for the operator -/

theorem contains_singleton {b : UInt8} {s : Text} : Text.contains [b] s = true ↔ b ∈ s := by
  induction s with
  | nil => simp [Text.contains]
  | cons c s ih => simp [Text.contains, ih]

theorem contains_cons_of_ne {b c : UInt8} {pattern s : Text} (h : b ≠ c) :
    Text.contains (b :: pattern) (c :: s) = Text.contains (b :: pattern) s := by
  simp [Text.contains, h]

theorem subset_of_contains {pattern s : Text} (h : Text.contains pattern s = true) :
    pattern ⊆ s := by
  induction s with
  | nil =>
    rw [Text.contains, List.isEmpty_iff] at h
    exact h ▸ Subset.refl []
  | cons c s ih =>
    rw [Text.contains, Bool.or_eq_true] at h
    rcases h with h | h
    · exact IsPrefix.subset <| isPrefixOf_iff_prefix.1 h
    · exact fun b hb => mem_cons_of_mem c (ih h hb)

theorem ascii_ne : ascii "<>" = [60, 62] := rfl

/-- The operator and the text after it let the search find the operator. -/
def Recovered (p : PartialComparison) : Prop :=
  match p.sign with
  | .ne => True
  | .gt => Text.contains (ascii "<>") p.rest = false
  | .eq => 62 ∉ p.rest
  | .lt => 62 ∉ p.rest ∧ 61 ∉ p.rest
  | .le | .ge => False

/-- The search by the bytes of the text. The test for `>=` is never reached with a text that holds
it, since `>` is tested for before. -/
theorem recoverOperator_eq (s : Text) : recoverOperator s =
      if Text.contains (ascii "<>") s = true then .GREATER_THAN_LOWER_THAN
      else if 62 ∈ s then .GREATER_THAN
      else if 61 ∈ s then .DOUBLE_EQUAL
      else if 60 ∈ s then .LOWER_THAN
      else .LOWER_THAN_OR_EQUAL := by
  have hgt : Text.contains (ascii ">") s = true ↔ 62 ∈ s := contains_singleton
  have heq : Text.contains (ascii "=") s = true ↔ 61 ∈ s := contains_singleton
  have hlt : Text.contains (ascii "<") s = true ↔ 60 ∈ s := contains_singleton
  have hge : Text.contains (ascii ">=") s = true → 62 ∈ s :=
    fun h => subset_of_contains h (by decide)
  simp only [recoverOperator, hgt, heq, hlt]
  split_ifs with _ h62 _ _ h <;> first | rfl | exact absurd (hge h) h62

theorem recoverOperator_of_gt {s : Text} (h : 62 ∈ s) :
    recoverOperator s = .GREATER_THAN_LOWER_THAN ∨ recoverOperator s = .GREATER_THAN := by
  rw [recoverOperator_eq]
  split_ifs
  · exact .inl rfl
  · exact .inr rfl

theorem recoverOperator_of_notMem_gt {s : Text} (h : 62 ∉ s) : recoverOperator s =
      if 61 ∈ s then .DOUBLE_EQUAL else if 60 ∈ s then .LOWER_THAN else .LOWER_THAN_OR_EQUAL := by
  have hne : ¬ Text.contains (ascii "<>") s = true := fun hc => h (subset_of_contains hc (by decide))
  rw [recoverOperator_eq, if_neg hne, if_neg h]

theorem recoverOperator_eq_lt {s : Text} (h : 60 ∈ s) :
    recoverOperator s = .LOWER_THAN ↔ 62 ∉ s ∧ 61 ∉ s := by
  by_cases hgt : 62 ∈ s
  · refine iff_of_false (fun heq => ?_) fun hs => hs.1 hgt
    rcases recoverOperator_of_gt hgt with hs | hs <;> exact absurd (hs.symm.trans heq) nofun
  · rw [recoverOperator_of_notMem_gt hgt, if_pos h]
    by_cases heq : 61 ∈ s <;> simp [hgt]

/-- **The operator that was written is found** exactly under `Recovered`. -/
theorem recoverOperator_iff (p : PartialComparison) :
    recoverOperator p.getText = p.sign.nodeType ↔ Recovered p := by
  obtain ⟨sign, rest, operand⟩ := p
  cases sign with
  | ne => exact iff_of_true rfl trivial
  | gt =>
    have htext : getText ⟨.gt, rest, operand⟩ = 62 :: rest := rfl
    rw [htext, recoverOperator_eq, ascii_ne, contains_cons_of_ne (by decide),
      if_pos mem_cons_self]
    simp only [Recovered, Sign.nodeType, ascii_ne]
    split_ifs with h <;> simp [h]
  | eq =>
    have htext : getText ⟨.eq, rest, operand⟩ = 61 :: rest := rfl
    have hmem : (62 : UInt8) ∈ 61 :: rest ↔ 62 ∈ rest := by simp
    simp only [Recovered, Sign.nodeType, htext, ← hmem]
    by_cases h : 62 ∈ 61 :: rest
    · refine iff_of_false (fun heq => ?_) (not_not.2 h)
      rcases recoverOperator_of_gt h with hs | hs <;> exact absurd (hs.symm.trans heq) nofun
    · refine iff_of_true ?_ h
      rw [recoverOperator_of_notMem_gt h, if_pos mem_cons_self]
  | lt =>
    have htext : getText ⟨.lt, rest, operand⟩ = 60 :: rest := rfl
    simp only [Recovered, Sign.nodeType, htext, recoverOperator_eq_lt mem_cons_self]
    simp
  | le =>
    have htext : getText ⟨.le, rest, operand⟩ = 60 :: 61 :: rest := rfl
    refine iff_of_false (fun heq => ?_) id
    rw [htext] at heq
    by_cases h : 62 ∈ 60 :: 61 :: rest
    · rcases recoverOperator_of_gt h with hs | hs <;> exact absurd (hs.symm.trans heq) nofun
    · rw [recoverOperator_of_notMem_gt h] at heq
      exact absurd heq nofun
  | ge =>
    have htext : getText ⟨.ge, rest, operand⟩ = 62 :: 61 :: rest := rfl
    refine iff_of_false (fun heq => ?_) id
    rcases recoverOperator_of_gt mem_cons_self with hs | hs <;>
      exact absurd (hs.symm.trans heq) nofun

/-! ## The links of a chain -/

def linksFrom : ASTNode → List PartialComparison → List (ASTNode × Sign × ASTNode)
  | _, [] => []
  | left, p :: ps => (left, p.sign, p.operand) :: linksFrom p.operand ps

def Comparison.links (c : Comparison) : List (ASTNode × Sign × ASTNode) :=
  linksFrom c.left (c.first :: c.rest)

def Comparison.operands (c : Comparison) : List ASTNode :=
  c.left :: (c.first :: c.rest).map operand

def linkCondition (l : ASTNode × Sign × ASTNode) : Option Condition := do
  some (.comparison (← comparisonOperand l.1) l.2.1.nodeType (← comparisonOperand l.2.2))

/-- The truth of a comparison under an interpretation of `operand operator operand`. -/
def Condition.Holds (I : Operand → NodeType → Operand → Prop) : Condition → Prop
  | .comparison left operator right => I left operator right
  | _ => False

/-- The condition of a chain is equivalent to the conjunction of its links, whatever the
comparisons of operands mean. -/
def ChainFaithful (c : Comparison) : Prop :=
  ∃ condition conditions, analyzeWhere (visitComparisonExpression c) = some condition ∧
    c.links.mapM linkCondition = some conditions ∧
    ∀ I, condition.Holds I ↔ ∀ link ∈ conditions, link.Holds I

/-- The condition of a chain is its first link with the operator that was found. -/
theorem analyzeWhere_comparison (c : Comparison) : analyzeWhere (visitComparisonExpression c) = (do
      some (.comparison (← comparisonOperand c.left) (recoverOperator c.first.getText)
        (← comparisonOperand c.first.operand))) := rfl

theorem Sign.nodeType_injective : Function.Injective Sign.nodeType := by
  intro s t h
  cases s <;> cases t <;> first | rfl | exact absurd h nofun

theorem linkCondition_eq_some {l : ASTNode × Sign × ASTNode} {left right : Operand}
    {operator : NodeType} :
    linkCondition l = some (.comparison left operator right) ↔
      comparisonOperand l.1 = some left ∧ l.2.1.nodeType = operator ∧
        comparisonOperand l.2.2 = some right := by
  rcases hl : comparisonOperand l.1 with _ | a
  · simp [linkCondition, hl]
  · rcases hr : comparisonOperand l.2.2 with _ | b <;> simp [linkCondition, hl, hr]

/-- Every link of the chain is the first one over again: the same operator between operands of the
same encodings. A chain of one comparison does that. -/
def Comparison.Repeats (c : Comparison) : Prop :=
  ∃ left right, ∀ l ∈ c.links,
    comparisonOperand l.1 = some left ∧ l.2.1 = c.first.sign ∧ comparisonOperand l.2.2 = some right

theorem Comparison.first_mem_links (c : Comparison) :
    (c.left, c.first.sign, c.first.operand) ∈ c.links := mem_cons_self

/-- Under the interpretation that holds of the produced comparison only, every link has to be that
comparison. -/
theorem ChainFaithful.recovered_repeats {c : Comparison} (h : ChainFaithful c) :
    Recovered c.first ∧ c.Repeats := by
  obtain ⟨condition, conditions, hcondition, hlinks, hequiv⟩ := h
  obtain ⟨left, hleft, hcondition⟩ := Option.bind_eq_some_iff.1 hcondition
  obtain ⟨right, hright, hcondition⟩ := Option.bind_eq_some_iff.1 hcondition
  obtain rfl := Option.some.inj hcondition
  have hall : ∀ l ∈ c.links, comparisonOperand l.1 = some left ∧
      l.2.1.nodeType = recoverOperator c.first.getText ∧ comparisonOperand l.2.2 = some right := by
    intro l hl
    have hmem : linkCondition l ∈ conditions.map some :=
      mapM_eq_some_iff.1 hlinks ▸ mem_map_of_mem hl
    obtain ⟨link, hlink, heq⟩ := mem_map.1 hmem
    have hholds := (hequiv fun l op r =>
      l = left ∧ op = recoverOperator c.first.getText ∧ r = right).1 ⟨rfl, rfl, rfl⟩ link hlink
    cases link with
    | comparison l' op r' =>
      obtain ⟨rfl, rfl, rfl⟩ := hholds
      exact linkCondition_eq_some.1 heq.symm
    | null | predicate l' op r' | logical t cs => exact hholds.elim
  have hfirst := (hall _ c.first_mem_links).2.1
  refine ⟨(recoverOperator_iff _).1 hfirst.symm, left, right, fun l hl => ?_⟩
  obtain ⟨hl1, hop, hl2⟩ := hall l hl
  exact ⟨hl1, Sign.nodeType_injective (hop.trans hfirst.symm), hl2⟩

/-- **Comparison chains.** The condition of a chain is equivalent to the conjunction of its links,
with the operators written, exactly when the search finds the first operator and every further link
repeats the first. -/
theorem comparison_faithful_iff (c : Comparison) :
    ChainFaithful c ↔ Recovered c.first ∧ c.Repeats := by
  refine ⟨ChainFaithful.recovered_repeats, ?_⟩
  rintro ⟨hrecovered, left, right, hall⟩
  have hlinks : c.links.mapM linkCondition =
      some (c.links.map fun _ => .comparison left c.first.sign.nodeType right) :=
    mapM_of_forall fun l hl => linkCondition_eq_some.2
      ⟨(hall l hl).1, congrArg Sign.nodeType (hall l hl).2.1, (hall l hl).2.2⟩
  refine ⟨.comparison left c.first.sign.nodeType right, _, ?_, hlinks, fun I => ⟨?_, ?_⟩⟩
  · rw [analyzeWhere_comparison, (hall _ c.first_mem_links).1, (hall _ c.first_mem_links).2.2,
      (recoverOperator_iff _).2 hrecovered]
    rfl
  · intro h link hlink
    obtain ⟨_, -, rfl⟩ := mem_map.1 hlink
    exact h
  · exact fun h => h _ (mem_map.2 ⟨_, c.first_mem_links, rfl⟩)

/-- The comparison of `n.age` with the literal 5. -/
def ageAndFive (sign : Sign) : Comparison :=
  { ageIsFive with first := { ageIsFive.first with sign := sign } }

/-- The chain `1 < 2 < 1`. -/
def upAndDown : Comparison :=
  { left := .leaf .DECIMAL (ascii "1")
    first := { sign := .lt, rest := ascii " 2 ", operand := .leaf .DECIMAL (ascii "2") }
    rest := [{ sign := .lt, rest := ascii " 1", operand := .leaf .DECIMAL (ascii "1") }] }

/-- The comparison `'a>b' = 'a>b'`. -/
def arrowText : Comparison :=
  { left := .leaf .STRING (ascii "'a>b'")
    first := { sign := .eq, rest := ascii " 'a>b'", operand := .leaf .STRING (ascii "'a>b'") }
    rest := [] }

/-- The truth value of each link of a chain on a row. -/
def linkValues (c : Comparison) (row : Row) : List (Option Bool) :=
  c.links.map fun l => linkCondition l >>= evaluateCondition row

/-- On a node of age 5, `n.age >= 5` and `n.age <= 5` hold; the first is evaluated as
`n.age > 5` to false, the second as `n.age == 5`. The second link of `1 < 2 < 1` is false and the
chain is evaluated to true. `'a>b' = 'a>b'` is evaluated as `'a>b' > 'a>b'` to false. -/
theorem chains_unfaithful : ¬ ChainFaithful (ageAndFive .ge) ∧ ¬ ChainFaithful (ageAndFive .le) ∧
      ¬ ChainFaithful upAndDown ∧ ¬ ChainFaithful arrowText ∧
      linkValues (ageAndFive .ge) (rowWithAge (ascii "5")) = [some true] ∧
      atomValue (ageAndFive .ge) (rowWithAge (ascii "5")) = some false ∧
      linkValues (ageAndFive .le) (rowWithAge (ascii "4")) = [some true] ∧
      atomValue (ageAndFive .le) (rowWithAge (ascii "4")) = some false ∧
      linkValues upAndDown (rowWithAge (ascii "5")) = [some true, some false] ∧
      atomValue upAndDown (rowWithAge (ascii "5")) = some true ∧
      linkValues arrowText (rowWithAge (ascii "5")) = [some true] ∧
      atomValue arrowText (rowWithAge (ascii "5")) = some false := by
  refine ⟨fun h => ?_, fun h => ?_, fun h => ?_, fun h => ?_, ?_⟩
  · exact h.recovered_repeats.1
  · exact h.recovered_repeats.1
  · obtain ⟨left, right, hall⟩ := h.recovered_repeats.2
    have h1 := (hall _ mem_cons_self).1
    have h2 := (hall _ (mem_cons_of_mem _ mem_cons_self)).1
    exact absurd (h1.trans h2.symm) (by simp [upAndDown, comparisonOperand, ASTNode.leaf,
      ASTNode.nodeType, ASTNode.value, ascii])
  · exact absurd h.recovered_repeats.1 (by simp [Recovered, arrowText, ascii])
  · decide +kernel

end JasmineGraph.Cypher
