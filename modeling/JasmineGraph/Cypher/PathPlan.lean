import JasmineGraph.Cypher.PathPlanner

/-!
# The plans of the path planner

Every plan of `pathPatternHandler` is a scan (or the given seek) with a filter, and on top of it two
*legs*: runs of a loop over the hops on one side. This module says which scan and which legs each
start has, so that what is true of plans can be read off the legs.

* A `Leg` is a loop with the variable it starts from, the relationship that its first hop is to
  differ from, and its hops in the order in which they are expanded.
* `Describes` relates a plan to its scan and its legs.
* Three of the starts scan over a hop. `ScanKind` is what they differ in.
-/

namespace JasmineGraph.Cypher

open JasmineGraph.Bytes List Option Hop

structure Leg where
  loop : Loop
  startVar : Text
  prevRel : Text
  hops : List (Hop Variable)

namespace Leg

def bindings (leg : Leg) : List (Position × Text) := leg.hops.flatMap leg.loop.bindings

def vars (leg : Leg) : List Text := leg.bindings.map Prod.snd

def relationships (leg : Leg) : List RelationshipBinding :=
  leg.loop.relationships leg.startVar leg.hops

def cases (leg : Leg) : List (Text × ASTNode) := leg.loop.cases leg.prevRel leg.hops

def Bound (leg : Leg) (vars : List Text) : Prop :=
  leg.loop.Bound vars leg.startVar leg.prevRel leg.hops

end Leg

def LegsBound : List Text → List Leg → Prop
  | _, [] => True
  | vars, leg :: legs => leg.Bound vars ∧ LegsBound (vars ++ leg.vars) legs

theorem legsBound_append (vars : List Text) (legs : List Leg) (leg : Leg) :
    LegsBound vars (legs ++ [leg]) ↔
      LegsBound vars legs ∧ leg.Bound (vars ++ legs.flatMap Leg.vars) := by
  induction legs generalizing vars with
  | nil => simp [LegsBound]
  | cons x legs ih => simp [LegsBound, ih, and_assoc]

structure Describes (op : Operator) (b : List (Position × Text)) (legs : List Leg)
    (s : Frontier) : Prop where
  vars : s.operator.vars = op.vars ++ legs.flatMap Leg.vars
  relationships : s.operator.relationships = op.relationships ++ legs.flatMap Leg.relationships
  filterCases : s.operator.filterCases = op.filterCases ++ legs.flatMap Leg.cases
  bindings : s.bindings = b ++ legs.flatMap Leg.bindings
  bindsBeforeUse : s.operator.BindsBeforeUse ↔ op.BindsBeforeUse ∧ LegsBound op.vars legs

theorem Describes.refl (s : Frontier) : Describes s.operator s.bindings [] s := by
  constructor <;> simp [LegsBound]

/-- A loop adds a leg. The variables it starts from may have been set anew. -/
theorem Describes.grow {op : Operator} {b : List (Position × Text)} {legs : List Leg}
    {s s' : Frontier} {l : Loop} {hs : List (Hop Variable)} {startVar prevRel : Text}
    (h : Describes op b legs s)
    (hgrown : Grown l hs { s with startVar := startVar, prevRel := prevRel } s') :
    Describes op b (legs ++ [⟨l, startVar, prevRel, hs⟩]) s' where
  vars := by
    rw [hgrown.vars, h.vars]
    simp [Leg.vars, Leg.bindings]
  relationships := by
    rw [hgrown.relationships, h.relationships]
    simp [Leg.relationships]
  filterCases := by
    rw [hgrown.filterCases, h.filterCases]
    simp [Leg.cases]
  bindings := by
    rw [hgrown.bindings, h.bindings]
    simp [Leg.bindings]
  bindsBeforeUse := by
    rw [hgrown.bindsBeforeUse, h.bindsBeforeUse, legsBound_append, h.vars, and_assoc]
    rfl

theorem Describes.congr {op : Operator} {b : List (Position × Text)} {legs : List Leg}
    {s s' : Frontier} (h : Describes op b legs s) (hop : s'.operator = s.operator)
    (hbindings : s'.bindings = s.bindings) : Describes op b legs s' where
  vars := hop ▸ h.vars
  relationships := hop ▸ h.relationships
  filterCases := hop ▸ h.filterCases
  bindings := hbindings ▸ h.bindings
  bindsBeforeUse := hop ▸ h.bindsBeforeUse

/-! ## Starts at a hop -/

section HopStart

variable {p : PathPattern Variable} {h : Hop Variable}

def Hop.startVar (h : Hop Variable) : Text := nodeVar h.left (nodeName h.index)

def Hop.endVar (h : Hop Variable) : Text := nodeVar h.right (nodeName (h.index + 1))

def Hop.scanCases (h : Hop Variable) : List (Text × ASTNode) :=
  h.relCases ++ h.left.cases h.startVar ++ h.right.cases h.endVar

def Hop.scanned (h : Hop Variable) : List (Position × Text) :=
  scanBindings h h.startVar h.endVar h.relVar

def Hop.rightLeg (p : PathPattern Variable) (h : Hop Variable) (l : Loop) : Leg :=
  ⟨l, h.endVar, h.relVar, p.hops.drop (h.index + 1)⟩

def Hop.leftLeg (p : PathPattern Variable) (h : Hop Variable) (l : Loop) : Leg :=
  ⟨l, h.startVar, h.relVar, (p.hops.take h.index).reverse⟩

theorem growBoth_spec (hp : ∀ h ∈ p.hops, h.Plannable) (l : Side → Loop) (rightFirst : Bool)
    (s : Frontier) :
    ∃ s' legs, growBoth p h l rightFirst h.startVar h.endVar h.relVar s = some s' ∧
      Describes s.operator s.bindings legs s' ∧
      legs.Perm [h.leftLeg p (l .left), h.rightLeg p (l .right)] := by
  have hright : ∀ s, ∃ s', runLoop (l .right) (p.hops.drop (h.index + 1)) s = some s' ∧
      Grown (l .right) (p.hops.drop (h.index + 1)) s s' :=
    runLoop_spec fun x hx => hp x (mem_of_mem_drop hx)
  have hleft : ∀ s, ∃ s', runLoop (l .left) (p.hops.take h.index).reverse s = some s' ∧
      Grown (l .left) (p.hops.take h.index).reverse s s' :=
    runLoop_spec fun x hx => hp x (mem_of_mem_take (mem_reverse.1 hx))
  rw [growBoth]
  cases rightFirst with
  | true =>
    obtain ⟨s₁, hrun₁, hgrown₁⟩ := hright { s with startVar := h.endVar, prevRel := h.relVar }
    obtain ⟨s₂, hrun₂, hgrown₂⟩ := hleft { s₁ with startVar := h.startVar, prevRel := h.relVar }
    refine ⟨s₂, [h.rightLeg p (l .right), h.leftLeg p (l .left)], ?_,
      ((Describes.refl s).grow hgrown₁).grow hgrown₂, Perm.swap _ _ _⟩
    simp only [if_true, hrun₁, bind_eq_bind, bind_some, hrun₂]
  | false =>
    obtain ⟨s₁, hrun₁, hgrown₁⟩ := hleft { s with startVar := h.startVar, prevRel := h.relVar }
    obtain ⟨s₂, hrun₂, hgrown₂⟩ := hright { s₁ with startVar := h.endVar, prevRel := h.relVar }
    refine ⟨s₂, [h.leftLeg p (l .left), h.rightLeg p (l .right)], ?_,
      ((Describes.refl s).grow hgrown₁).grow hgrown₂, List.Perm.refl _⟩
    simp only [Bool.false_eq_true, if_false, hrun₁, bind_eq_bind, bind_some, hrun₂]

theorem growBoth_eq_none (hh : h ∈ p.hops) (hp : h.Plannable)
    (hnot : ∃ h ∈ p.hops, ¬ h.Plannable) (l : Side → Loop) (rightFirst : Bool)
    (startVar destVar relVar : Text) (s : Frontier) :
    growBoth p h l rightFirst startVar destVar relVar s = none := by
  obtain ⟨x, hx, hxp⟩ := hnot
  have hside : (∀ l s, runLoop l (p.hops.drop (h.index + 1)) s = none) ∨
      ∀ l s, runLoop l (p.hops.take h.index).reverse s = none := by
    rcases Nat.lt_trichotomy x.index h.index with hlt | heq | hgt
    · exact .inr fun l s => runLoop_eq_none
        ⟨x, mem_reverse.2 (mem_take_hops.2 ⟨hx, hlt⟩), hxp⟩
    · exact absurd (hop_ext hx hh heq ▸ hp) hxp
    · exact .inl fun l s => runLoop_eq_none ⟨x, mem_drop_hops.2 ⟨hx, hgt⟩, hxp⟩
  rw [growBoth]
  rcases hside with hnone | hnone <;> cases rightFirst <;>
    simp [hnone]

/-- The starts that scan over a hop. -/
inductive ScanKind
  | relType | direction | undirected

namespace ScanKind

def scan (k : ScanKind) (h : Hop Variable) : Operator :=
  match k, h.rel.arrow with
  | relType, .undirected => .undirectedRelationshipTypeScan h.relType h.relVar h.startVar h.endVar
  | relType, .left => .directedRelationshipTypeScan .left h.relType h.relVar h.startVar h.endVar
  | relType, .right => .directedRelationshipTypeScan .right h.relType h.relVar h.startVar h.endVar
  | direction, .left => .directedAllRelationshipScan .left h.startVar h.endVar h.relVar
  | direction, _ => .directedAllRelationshipScan .right h.startVar h.endVar h.relVar
  | undirected, _ => .undirectedAllRelationshipScan h.startVar h.endVar h.relVar

def arrows : ScanKind → Bool
  | undirected => false
  | _ => true

/-- The direction start makes no filter cases of labels and properties. -/
def filters : ScanKind → Bool
  | direction => false
  | _ => true

def loop (k : ScanKind) (side : Side) : Loop := ⟨side, .always, k.arrows, k.filters⟩

def cases (k : ScanKind) (h : Hop Variable) : List (Text × ASTNode) :=
  if k.filters then h.scanCases else []

def start (k : ScanKind) (p : PathPattern Variable) (h : Hop Variable) : Option Frontier :=
  match k with
  | relType => relTypeStart p h
  | direction => directionStart p h
  | undirected => undirectedStart p h

variable (k : ScanKind)

theorem vars_scan (h : Hop Variable) : (k.scan h).vars = [h.startVar, h.relVar, h.endVar] := by
  unfold scan
  split <;> rfl

theorem relVars_scan (h : Hop Variable) : (k.scan h).relVars = [h.relVar] := by
  unfold scan
  split <;> rfl

theorem filterCases_scan (h : Hop Variable) : (k.scan h).filterCases = [] := by
  unfold scan
  split <;> rfl

theorem bindsBeforeUse_scan (h : Hop Variable) : (k.scan h).BindsBeforeUse := by
  unfold scan
  split <;> trivial

end ScanKind

theorem scanCases_eq {d : Details} (hcases : d.properties.cases h.relVar = h.relCases) :
    d.properties.cases h.relVar ++ (analyzeNode h.left).kind.cases h.startVar ++
      (analyzeNode h.left).properties.cases h.startVar ++
      (analyzeNode h.right).kind.cases h.endVar ++
      (analyzeNode h.right).properties.cases h.endVar = h.scanCases := by
  rw [hcases, scanCases, ← analyzeNode_cases, ← analyzeNode_cases]
  simp only [append_assoc]

theorem ScanKind.start_spec (k : ScanKind) (hh : h ∈ p.hops) (hp : ∀ h ∈ p.hops, h.Plannable)
    (htyped : k = .relType → h.isTyped = true)
    (hlast : k = .undirected → h.index + 1 = p.hops.length) :
    ∃ s legs, k.start p h = some s ∧
      Describes (withFilter (k.scan h) (k.cases h)) h.scanned legs s ∧
      legs.Perm [h.leftLeg p (k.loop .left), h.rightLeg p (k.loop .right)] := by
  obtain ⟨d, hd, hname, -, hcases, -, hkind⟩ := analyzeRelationship_of_plannable (hp h hh)
  let s₀ : Frontier :=
    ⟨withFilter (k.scan h) (k.cases h), h.startVar, h.relVar, [], h.scanned⟩
  cases k with
  | relType =>
    obtain ⟨s, legs, hrun, hs, hlegs⟩ := growBoth_spec hp (ScanKind.loop .relType)
      (decide ((visitNodePattern h.left).elements.length <
        (visitNodePattern h.right).elements.length)) s₀
    refine ⟨s, legs, ?_, hs, hlegs⟩
    simp only [start, relTypeStart, hd, hkind (htyped rfl), hname, bind_eq_bind,
      bind_some, analyzeNode_name]
    rw [← hrun]
    simp only [s₀, ScanKind.cases, ← scanCases_eq hcases]
    rcases harrow : h.rel.arrow <;> simp only [ScanKind.scan, harrow] <;> rfl
  | direction =>
    obtain ⟨s, legs, hrun, hs, hlegs⟩ := growBoth_spec hp (ScanKind.loop .direction) false s₀
    refine ⟨s, legs, ?_, hs, hlegs⟩
    simp only [start, directionStart, hd, hname, bind_eq_bind, bind_some, analyzeNode_name]
    rw [← hrun]
    simp only [s₀, ScanKind.scan]
    rcases harrow : h.rel.arrow <;> rfl
  | undirected =>
    have hleft : ∀ x ∈ (p.hops.take h.index).reverse, x.Plannable :=
      fun x hx => hp x (mem_of_mem_take (mem_reverse.1 hx))
    obtain ⟨s, hrun, hgrown⟩ := runLoop_spec hleft s₀
    -- there are no hops to the right of the last one
    have hempty : h.rightLeg p (ScanKind.loop .undirected .right) =
        ⟨ScanKind.loop .undirected .right, h.endVar, h.relVar, []⟩ := by
      rw [rightLeg, drop_eq_nil_of_le (hlast rfl).ge]
    have hs : Describes s₀.operator s₀.bindings
        [h.leftLeg p (ScanKind.loop .undirected .left),
          h.rightLeg p (ScanKind.loop .undirected .right)] s := by
      rw [hempty]
      exact (((Describes.refl s₀).grow hgrown).grow (Grown.refl _ _)).congr rfl rfl
    refine ⟨s, _, ?_, hs, List.Perm.refl _⟩
    simp only [start, undirectedStart, hd, hname, bind_eq_bind, bind_some, analyzeNode_name]
    rw [← hrun]
    simp only [s₀, ScanKind.cases, ← scanCases_eq hcases]
    rfl

theorem relTypeStart_eq_none (hh : h ∈ p.hops) (hnot : ∃ h ∈ p.hops, ¬ h.Plannable) :
    relTypeStart p h = none := by
  by_cases hp : h.Plannable
  · obtain ⟨d, hd, -, -, -, -, -⟩ := analyzeRelationship_of_plannable hp
    simp only [relTypeStart, bind_eq_bind, growBoth_eq_none hh hp hnot, bind_fun_none]
  · rcases analyzeRelationship_of_not_plannable hp with hd | ⟨d, hd, hkind⟩
    · rw [relTypeStart, hd]
      rfl
    · have hname : d.kindName = none := by
        rw [Details.kindName, hkind]
        rfl
      simp only [relTypeStart, hd, hname, bind_eq_bind, bind_some, bind_none]

end HopStart

/-! ## The label start -/

section LabelStart

variable {p : PathPattern Variable}

/-- The label that the label start scans for: the value of the first element, which is empty for a
list of labels. -/
def NodePattern.scanLabel {ν : Type} (n : NodePattern ν) : Text :=
  match n.labels with
  | [label] => label
  | _ => []

def NodePattern.propertyCases {ν : Type} (n : NodePattern ν) (v : Text) : List (Text × ASTNode) :=
  (n.properties.map propertiesNode).toList.map fun node => (v, node)

theorem analyzeNode_kindName {n : NodePattern Variable} (hn : n.labels ≠ []) :
    (analyzeNode n).kindName = some n.scanLabel := by
  rw [analyzeNode, getNodeDetails_visit]
  rcases n with ⟨_, _ | ⟨l, _ | ⟨l', ls⟩⟩, _⟩
  · exact absurd rfl hn
  · rfl
  · rfl

theorem analyzeNode_propertyCases (n : NodePattern Variable) (v : Text) :
    (analyzeNode n).properties.cases v = n.propertyCases v := by
  rw [analyzeNode, getNodeDetails_visit, Slot.cases_of, NodePattern.propertyCases]

def labelLoop (position : Nat) : Loop := ⟨.right, .after ((position : Int) - 1), true, true⟩

def labelVar (n : NodePattern Variable) (uninit : Int) : Text := nodeVar n (nodeName (uninit + 1))

def labelRightLeg (p : PathPattern Variable) (position : Nat) (n : NodePattern Variable)
    (uninit : Int) : Leg :=
  ⟨labelLoop position, labelVar n uninit, [], p.hops.drop position⟩

def labelLeftLeg (p : PathPattern Variable) (position : Nat) (n : NodePattern Variable) : Leg :=
  ⟨ScanKind.loop .relType .left, nodeVar n (nodeName ((position : Int) - 1)),
    (p.hops[position]?.map relVar).getD [], (p.hops.take position).reverse⟩

def labelScan (n : NodePattern Variable) (uninit : Int) : Operator :=
  withFilter (.nodeScanByLabel n.scanLabel (labelVar n uninit))
    (n.propertyCases (labelVar n uninit))

theorem labelPrevRel_eq (hp : ∀ h ∈ p.hops, h.Plannable) {position : Nat} (hpos : 0 < position)
    {prevRel : Text} (hprev : p.hops.length ≤ position → prevRel = []) :
    labelPrevRel p position prevRel = some ((p.hops[position]?.map relVar).getD []) := by
  rw [labelPrevRel]
  by_cases hlt : position < p.hops.length
  · have hget := List.getElem?_eq_getElem hlt
    obtain ⟨d, hd, hname, -, -, -, -⟩ :=
      analyzeRelationship_of_plannable (hp _ (getElem_mem hlt))
    rw [if_pos ⟨hpos, hlt⟩, hget]
    simp only [hd, hname, bind_eq_bind, bind_some, map_some, getD_some]
  · rw [if_neg fun h => hlt h.2, List.getElem?_eq_none (by omega), hprev (by omega)]
    rfl

theorem labelStart_spec (hp : ∀ h ∈ p.hops, h.Plannable) (position : Nat)
    {n : NodePattern Variable} (hn : n.labels ≠ []) (uninit : Int) :
    ∃ s, labelStart p position n uninit = some s ∧
      Describes (labelScan n uninit) [(.node position, labelVar n uninit)]
        [labelRightLeg p position n uninit, labelLeftLeg p position n] s := by
  let s₀ : Frontier :=
    ⟨labelScan n uninit, labelVar n uninit, [], [], [(.node position, labelVar n uninit)]⟩
  have hright : ∀ x ∈ p.hops.drop position, x.Plannable :=
    fun x hx => hp x (mem_of_mem_drop hx)
  have hleft : ∀ x ∈ (p.hops.take position).reverse, x.Plannable :=
    fun x hx => hp x (mem_of_mem_take (mem_reverse.1 hx))
  obtain ⟨s₁, hrun₁, hgrown₁⟩ := runLoop_spec hright s₀
  have hs₁ := (Describes.refl s₀).grow hgrown₁
  have hstart : labelStart p position n uninit =
      labelPrevRel p position s₁.prevRel >>= fun prevRel =>
        runLoop (ScanKind.loop .relType .left) (p.hops.take position).reverse
          { s₁ with
            startVar := nodeVar n (nodeName ((position : Int) - 1)), prevRel := prevRel } := by
    simp only [labelStart, analyzeNode_kindName hn, analyzeNode_name, analyzeNode_propertyCases,
      bind_eq_bind, bind_some]
    change (runLoop (labelLoop position) (p.hops.drop position) s₀).bind _ = _
    rw [hrun₁]
    rfl
  rcases Nat.eq_zero_or_pos position with rfl | hpos
  · -- no hops on the left, so that the relationship to differ from does not matter
    exact ⟨_, hstart.trans rfl, (hs₁.grow (Grown.refl _ _)).congr rfl rfl⟩
  · have hprev : p.hops.length ≤ position → s₁.prevRel = [] := by
      intro hle
      rw [drop_eq_nil_of_le hle] at hrun₁
      exact (some.inj hrun₁) ▸ rfl
    obtain ⟨s₂, hrun₂, hgrown₂⟩ := runLoop_spec hleft
      { s₁ with
        startVar := nodeVar n (nodeName ((position : Int) - 1))
        prevRel := (p.hops[position]?.map relVar).getD [] }
    refine ⟨s₂, ?_, hs₁.grow hgrown₂⟩
    rw [hstart, labelPrevRel_eq hp hpos hprev]
    exact hrun₂

end LabelStart

/-! ## The choice -/

section Choice

variable {ν : Type}

/-- Where a plan without an input operator starts. -/
inductive Start (ν : Type)
  | hop (kind : ScanKind) (h : Hop ν)
  | label (position : Nat) (n : NodePattern ν)

theorem hops_ne_nil (p : PathPattern ν) : p.hops ≠ [] := by
  rw [← length_pos_iff]
  exact Nat.succ_pos _

/-- The start of a path: the last hop with a type, the last node with a label, the first hop with a
direction, or the last hop. -/
def PathPattern.choice (p : PathPattern ν) : Start ν :=
  match p.hops.reverse.find? isTyped with
  | some h => .hop .relType h
  | none =>
    match p.hops.reverse.find? isLabelled with
    | some h => .label (h.index + 1) h.right
    | none =>
      if p.start.labels.isEmpty then
        match p.hops.find? isDirected with
        | some h => .hop .direction h
        | none => .hop .undirected (p.hops.getLast (hops_ne_nil p))
      else .label 0 p.start

/-! The choice does not depend on variables. -/

variable {μ : Type}

theorem Hop.plannable_map (f : ν → μ) (h : Hop ν) : (h.map f).Plannable ↔ h.Plannable := by
  rcases h with ⟨_, _, ⟨_, _ | d⟩, _⟩
  · exact ⟨nofun, nofun⟩
  · constructor
    · rintro ⟨_, hd, ht⟩
      cases hd
      exact ⟨d, rfl, ht⟩
    · rintro ⟨_, hd, ht⟩
      cases hd
      exact ⟨d.map f, rfl, ht⟩

theorem Hop.isTyped_map (f : ν → μ) (h : Hop ν) : (h.map f).isTyped = h.isTyped := by
  rcases h with ⟨_, _, ⟨_, _ | d⟩, _⟩ <;> rfl

def Start.map {μ : Type} (f : ν → μ) : Start ν → Start μ
  | hop kind h => .hop kind (h.map f)
  | label position n => .label position (n.map f)

theorem choice_map (f : ν → μ) (p : PathPattern ν) : (p.map f).choice = p.choice.map f := by
  have htyped : isTyped ∘ map f = isTyped := funext fun h => h.isTyped_map f
  have hlabelled : isLabelled ∘ map f = isLabelled := rfl
  have hdirected : isDirected ∘ map f = isDirected := rfl
  have hlabels : (p.map f).start.labels = p.start.labels := rfl
  simp only [PathPattern.choice, hops_map, ← map_reverse, find?_map, htyped, hlabelled,
    hdirected, hlabels, getLast_map]
  rcases p.hops.reverse.find? isTyped with _ | h
  · rcases p.hops.reverse.find? isLabelled with _ | h
    · cases p.start.labels.isEmpty with
      | true => rcases p.hops.find? isDirected with _ | h <;> rfl
      | false => rfl
    · rfl
  · rfl

theorem choice_hop {p : PathPattern ν} {k : ScanKind} {h : Hop ν} (hchoice : p.choice = .hop k h) :
    h ∈ p.hops ∧ (k = .relType → h.isTyped = true) ∧
      (k = .undirected → h.index + 1 = p.hops.length) := by
  rw [PathPattern.choice] at hchoice
  split at hchoice
  · rename_i hfind
    cases hchoice
    exact ⟨mem_reverse.1 (List.mem_of_find?_eq_some hfind), fun _ => find?_some hfind, nofun⟩
  · split at hchoice
    · cases hchoice
    · split at hchoice
      · split at hchoice
        · rename_i hfind
          cases hchoice
          exact ⟨List.mem_of_find?_eq_some hfind, nofun, nofun⟩
        · cases hchoice
          refine ⟨getLast_mem _, nofun, fun _ => ?_⟩
          have hget : p.hops[p.hops.length - 1]? = some (p.hops.getLast (hops_ne_nil p)) := by
            rw [← getLast?_eq_getElem?, getLast?_eq_some_getLast]
          have hindex := getElem?_hopsFrom hget
          have hpos := hops_length p
          omega
      · cases hchoice

theorem choice_label {p : PathPattern ν} {position : Nat} {n : NodePattern ν}
    (hchoice : p.choice = .label position n) :
    n.labels ≠ [] ∧ p.nodes[position]? = some n ∧ position ≤ p.hops.length := by
  rw [PathPattern.choice] at hchoice
  split at hchoice
  · cases hchoice
  · split at hchoice
    · rename_i h hfind
      cases hchoice
      have hh := mem_reverse.1 (List.mem_of_find?_eq_some hfind)
      exact ⟨by simpa [isLabelled] using find?_some hfind, getElem?_nodes_right hh,
        index_lt_length hh⟩
    · split at hchoice
      · split at hchoice <;> cases hchoice
      · rename_i hlabels
        cases hchoice
        exact ⟨by simpa using hlabels, rfl, Nat.zero_le _⟩

/-- What the loop over the chain finds in hops that the planner can read. -/
theorem selectStart_eq (hs : List (Hop Variable)) (hp : ∀ h ∈ hs, h.Plannable) (s : Selection) :
    ∃ r, selectStart hs s = some r ∧ (∀ h, hs.find? isTyped = some h → r.relType = some h) ∧
      (hs.find? isTyped = none → r = ⟨s.relType, s.label.or (hs.find? isLabelled),
          (hs.reverse.find? isDirected).or s.direction⟩) := by
  induction hs generalizing s with
  | nil => exact ⟨s, rfl, nofun, fun _ => by simp⟩
  | cons h hs ih =>
    obtain ⟨hh, hhs⟩ := forall_mem_cons.1 hp
    obtain ⟨d, hd, -, -, -, htyped, -⟩ := analyzeRelationship_of_plannable hh
    simp only [selectStart, hd, htyped, bind_eq_bind, bind_some]
    by_cases ht : h.isTyped = true
    · rw [if_pos ht, find?_cons_of_pos ht]
      exact ⟨_, rfl, fun _ => id, nofun⟩
    · rw [if_neg ht, find?_cons_of_neg ht]
      obtain ⟨r, hr, hsome, hnone⟩ := ih hhs _
      refine ⟨r, hr, hsome, fun hfind => (hnone hfind).trans ?_⟩
      rw [analyzeNode_kind_available]
      congr 1
      · change (if h.isLabelled && s.label.isNone then some h else s.label).or _ = _
        rw [find?_cons]
        cases s.label <;> cases h.isLabelled <;> rfl
      · by_cases hdir : h.rel.arrow = .undirected <;> simp [isDirected, hdir]

/-- A loop that comes to its end has read every hop, or has found one with a type. -/
theorem selectStart_some {hs : List (Hop Variable)} {s r : Selection}
    (hr : selectStart hs s = some r) (hs' : s.relType = none) :
    (∃ h ∈ hs, r.relType = some h) ∨ ∀ h ∈ hs, h.Plannable := by
  induction hs generalizing s with
  | nil => exact .inr nofun
  | cons h hs ih =>
    rw [selectStart] at hr
    by_cases hp : h.Plannable
    · obtain ⟨d, hd, -, -, -, -, -⟩ := analyzeRelationship_of_plannable hp
      simp only [hd, bind_eq_bind, bind_some] at hr
      split at hr
      · cases hr
        exact .inl ⟨h, mem_cons_self, rfl⟩
      · rcases ih hr hs' with ⟨x, hx, hrel⟩ | hall
        · exact .inl ⟨x, mem_cons_of_mem _ hx, hrel⟩
        · exact .inr (forall_mem_cons.2 ⟨hp, hall⟩)
    · rcases analyzeRelationship_of_not_plannable hp with hd | ⟨d, hd, hkind⟩
      · simp only [hd] at hr
        exact absurd hr nofun
      · simp only [hd, hkind, bind_eq_bind, bind_some, if_true] at hr
        cases hr
        exact .inl ⟨h, mem_cons_self, rfl⟩

/-- Without a relationship that the planner cannot read, the plan is that of the chosen start. -/
theorem scanStart_eq {p : PathPattern Variable} (hp : ∀ h ∈ p.hops, h.Plannable) (uninit : Int) :
    scanStart p uninit =
      match p.choice with
      | .hop k h => k.start p h
      | .label position n => labelStart p position n uninit := by
  obtain ⟨r, hr, hsome, hnone⟩ :=
    selectStart_eq p.hops.reverse (fun h hh => hp h (mem_reverse.1 hh)) {}
  simp only [scanStart, hr, bind_eq_bind, bind_some, PathPattern.choice, analyzeNode_kind_available]
  cases htyped : p.hops.reverse.find? isTyped with
  | some h =>
    rw [hsome h htyped]
    rfl
  | none =>
    rw [hnone htyped]
    cases hlabel : p.hops.reverse.find? isLabelled with
    | some h => rfl
    | none =>
      cases hstart : p.start.labels.isEmpty with
      | false => rfl
      | true =>
        rw [reverse_reverse]
        cases p.hops.find? isDirected with
        | some h => rfl
        | none =>
          rfl

/-- A relationship that the planner cannot read leaves the path without a plan. -/
theorem scanStart_eq_none {p : PathPattern Variable} (hnot : ∃ h ∈ p.hops, ¬ h.Plannable)
    (uninit : Int) : scanStart p uninit = none := by
  rw [scanStart]
  cases hr : selectStart p.hops.reverse {} with
  | none => rfl
  | some r =>
    rcases selectStart_some hr rfl with ⟨h, hh, hrel⟩ | hall
    · simp only [hrel, bind_eq_bind, bind_some]
      exact relTypeStart_eq_none (mem_reverse.1 hh) hnot
    · obtain ⟨x, hx, hxp⟩ := hnot
      exact absurd (hall x (mem_reverse.2 hx)) hxp

end Choice

/-! ## The start at a node id -/

section SeekStart

variable {p : PathPattern Variable}

def Side.other : Side → Side
  | left => right
  | right => left

/-- The loops of the id-seek start, which skip the inequality of the very first hop. -/
def seekLoop (side : Side) : Loop := ⟨side, .unlessNull, true, true⟩

def PathPattern.hopsOn {ν : Type} (p : PathPattern ν) (k : Nat) : Side → List (Hop ν)
  | .right => p.hops.drop k
  | .left => (p.hops.take k).reverse

variable {k : Nat} {side : Side}

section

variable {ν : Type} {p : PathPattern ν} {h : Hop ν}

theorem mem_of_mem_hopsOn (hh : h ∈ p.hopsOn k side) : h ∈ p.hops := by
  cases side with
  | right => exact mem_of_mem_drop hh
  | left => exact mem_of_mem_take (mem_reverse.1 hh)

theorem mem_hopsOn_or (hh : h ∈ p.hops) (k : Nat) (side : Side) :
    h ∈ p.hopsOn k side ∨ h ∈ p.hopsOn k side.other := by
  have hcases : h ∈ p.hopsOn k .right ∨ h ∈ p.hopsOn k .left := by
    rcases Nat.lt_or_ge h.index k with hlt | hge
    · exact .inr (mem_reverse.2 (mem_take_hops.2 ⟨hh, hlt⟩))
    · exact .inl (mem_drop_hops.2 ⟨hh, hge⟩)
  cases side with
  | right => exact hcases
  | left => exact hcases.symm

theorem head_hopsOn_right (hh : h ∈ p.hops) : (p.hopsOn h.index .right).head? = some h := by
  rw [PathPattern.hopsOn, drop_hops hh, head?_cons]

theorem head_hopsOn_left (hh : h ∈ p.hops) : (p.hopsOn (h.index + 1) .left).head? = some h := by
  rw [PathPattern.hopsOn, reverse_take_hops hh, head?_cons]

end

def seekLeg (p : PathPattern Variable) (k : Nat) (var prevRel : Text) (side : Side) : Leg :=
  ⟨seekLoop side, var, prevRel, p.hopsOn k side⟩

def seekFrontier (id var : Text) (found : Option Nat) : Frontier :=
  ⟨.nodeByIdSeek id var, var, ascii "null", [], (found.map fun i => (Position.node i, var)).toList⟩

/-- The start at place `k`: one leg, and then the other, whose first relationship is to differ from
the first one of the leg before. -/
structure SeekPlan (p : PathPattern Variable) (id var : Text) (found : Option Nat) (k : Nat)
    (side : Side) (h : Hop Variable) (s : Frontier) : Prop where
  head : (p.hopsOn k side).head? = some h
  describes : Describes (.nodeByIdSeek id var) (seekFrontier id var found).bindings
    [seekLeg p k var (ascii "null") side, seekLeg p k var h.relVar side.other] s

section

variable (hp : ∀ h ∈ p.hops, h.Plannable)

include hp

/-- The two loops around place `k`. -/
theorem seekPlan_of_runs {h : Hop Variable}
    (hhead : (p.hopsOn k side).head? = some h) (id var : Text) (found : Option Nat) :
    ∃ s₁ s₂, runLoop (seekLoop side) (p.hopsOn k side) (seekFrontier id var found) = some s₁ ∧
      runLoop (seekLoop side.other) (p.hopsOn k side.other)
        { s₁ with prevRel := s₁.rel, startVar := var } = some s₂ ∧
      SeekPlan p id var found k side h s₂ := by
  have hside : ∀ side, ∀ x ∈ p.hopsOn k side, x.Plannable :=
    fun _ x hx => hp x (mem_of_mem_hopsOn hx)
  obtain ⟨s₁, hrun₁, hgrown₁⟩ :=
    runLoop_spec (l := seekLoop side) (hside side) (seekFrontier id var found)
  have hrel : s₁.rel = h.relVar := by
    rw [hgrown₁.rel, hhead]
    rfl
  obtain ⟨s₂, hrun₂, hgrown₂⟩ := runLoop_spec (hside side.other)
    { s₁ with prevRel := s₁.rel, startVar := var }
  refine ⟨s₁, s₂, hrun₁, hrun₂, hhead, ?_⟩
  rw [← hrel]
  exact ((Describes.refl (seekFrontier id var found)).grow hgrown₁).grow hgrown₂

theorem seekPlan_of_run {h : Hop Variable}
    (hhead : (p.hopsOn k side).head? = some h) (hother : p.hopsOn k side.other = []) (id var : Text)
    (found : Option Nat) :
    ∃ s, runLoop (seekLoop side) (p.hopsOn k side) (seekFrontier id var found) = some s ∧
      SeekPlan p id var found k side h s := by
  obtain ⟨s₁, s₂, hrun₁, hrun₂, hhead, hd⟩ := seekPlan_of_runs hp hhead id var found
  rw [hother] at hrun₂
  obtain rfl := some.inj hrun₂
  exact ⟨s₁, hrun₁, hhead, hd.congr rfl rfl⟩

theorem seekStart_spec {id var : Text} {found : Option Nat}
    (hfound : seekIndex p var = some found) {uninit : Int}
    (hk : (found.map Int.ofNat).getD uninit = k) (hle : k ≤ p.hops.length) :
    ∃ s side h, seekStart p id var uninit = some s ∧ SeekPlan p id var found k side h s := by
  have hlen := hops_length p
  simp only [seekStart, hfound, bind_eq_bind, bind_some, hk, Int.toNat_natCast]
  rcases Nat.eq_zero_or_pos k with rfl | hpos
  · obtain ⟨h, hh, hindex⟩ := exists_hop (p := p) (i := 0) (by omega)
    obtain ⟨s, hrun, hs⟩ := seekPlan_of_run hp (hindex ▸ head_hopsOn_right hh) rfl id var found
    exact ⟨s, .right, h, by rw [if_pos (by omega)]; exact hrun, hs⟩
  · obtain ⟨h, hh, rfl⟩ : ∃ h ∈ p.hops, k = h.index + 1 := by
      obtain ⟨h, hh, hindex⟩ := exists_hop (p := p) (i := k - 1) (by omega)
      exact ⟨h, hh, by omega⟩
    rw [if_neg (by omega)]
    rcases Nat.eq_or_lt_of_le hle with heq | hlt
    · obtain ⟨s, hrun, hs⟩ := seekPlan_of_run hp (head_hopsOn_left hh)
        (drop_eq_nil_of_le heq.ge) id var found
      rw [PathPattern.hopsOn, heq, take_length] at hrun
      exact ⟨s, .left, h, by rw [if_pos (by omega)]; exact hrun, hs⟩
    · obtain ⟨h', hh', hindex⟩ := exists_hop hlt
      obtain ⟨d, hd, -⟩ := analyzeRelationship_of_plannable (hp h hh)
      obtain ⟨d', hd', -⟩ := analyzeRelationship_of_plannable (hp h' hh')
      have hget := mem_hops_iff.1 hh
      have hget' := mem_hops_iff.1 hh'
      rw [hindex] at hget'
      simp only [if_neg (show ¬ ((h.index + 1 : Nat) : Int) = p.hops.length by omega),
        if_neg (show ¬ ((h.index + 1 : Nat) : Int) < 0 by omega), Nat.add_sub_cancel, hget, hget',
        bind_some, hd, hd']
      by_cases hcount : d.count > d'.count
      · obtain ⟨s₁, s₂, hrun₁, hrun₂, hs⟩ :=
          seekPlan_of_runs hp (head_hopsOn_left hh) id var found
        refine ⟨s₂, .left, h, ?_, hs⟩
        rw [if_pos hcount]
        exact (congrArg (Option.bind · _) hrun₁).trans hrun₂
      · obtain ⟨s₁, s₂, hrun₁, hrun₂, hs⟩ :=
          seekPlan_of_runs hp (hindex ▸ head_hopsOn_right hh') id var found
        refine ⟨s₂, .right, h', ?_, hs⟩
        rw [if_neg hcount]
        exact (congrArg (Option.bind · _) hrun₁).trans hrun₂

end

/-- The plan of an id-seek start comes from a place on a path whose relationships can be read. -/
theorem seekStart_inv {id var : Text} {uninit : Int} {s : Frontier}
    (hs : seekStart p id var uninit = some s) :
    (∀ h ∈ p.hops, h.Plannable) ∧ ∃ found, seekIndex p var = some found ∧
      ∃ k : Nat, (found.map Int.ofNat).getD uninit = k ∧ k ≤ p.hops.length := by
  rw [seekStart] at hs
  rcases hfound : seekIndex p var with _ | found
  · rw [hfound] at hs
    exact absurd hs nofun
  simp only [hfound, bind_eq_bind, bind_some] at hs
  generalize hindex : (found.map Int.ofNat).getD uninit = index at hs
  have hread : ∀ {l : Loop} {hs : List (Hop Variable)} {s₀ s₁ : Frontier},
      runLoop l hs s₀ = some s₁ → ∀ h ∈ hs, h.Plannable := by
    intro l hs s₀ s₁ hrun h hh
    by_contra hnot
    rw [runLoop_eq_none ⟨h, hh, hnot⟩] at hrun
    exact absurd hrun nofun
  split at hs
  · rename_i hzero
    exact ⟨hread hs, found, rfl, 0, hindex.trans hzero, Nat.zero_le _⟩
  split at hs
  · rename_i hend
    exact ⟨fun h hh => hread hs h (mem_reverse.2 hh), found, rfl, _, hindex.trans hend,
      Nat.le_refl _⟩
  split at hs
  · exact absurd hs nofun
  obtain ⟨left, hleft, hs⟩ := bind_eq_some_iff.1 hs
  obtain ⟨right, -, hs⟩ := bind_eq_some_iff.1 hs
  have hlt : index.toNat - 1 < p.hops.length := by
    obtain ⟨h, hget, -⟩ := bind_eq_some_iff.1 hleft
    exact (List.getElem?_eq_some_iff.1 hget).1
  refine ⟨fun h hh => ?_, found, rfl, index.toNat, by omega, by omega⟩
  split at hs
  all_goals
    obtain ⟨s₁, hrun₁, hrun₂⟩ := bind_eq_some_iff.1 hs
  · rcases mem_hopsOn_or hh index.toNat .left with hmem | hmem
    · exact hread hrun₁ h hmem
    · exact hread hrun₂ h hmem
  · rcases mem_hopsOn_or hh index.toNat .right with hmem | hmem
    · exact hread hrun₁ h hmem
    · exact hread hrun₂ h hmem

end SeekStart

end JasmineGraph.Cypher
