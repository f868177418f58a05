import JasmineGraph.Cypher.PathPlan
import JasmineGraph.Cypher.PlanText

/-!
# When the plan of a path is printed

The plan of a path (`Cypher/PathPlan.lean`) is made of a scan or a seek, of `ExpandAll`s and of
filters. It never scans for several labels, so its text is registered. It is printed if all its
filters are, and of the cases that the planner makes only an empty property map cannot be.

* `MapPrinted` says of a node or of a relationship that it has no empty property map that the planner
  sees.
* `PathPattern.MapsPrinted` says it of all positions that become filter cases: all but the node that
  a seek starts from.
-/

namespace JasmineGraph.Cypher

open JasmineGraph.Bytes List Option

/-! ## No scan for several labels -/

variable {l : Loop} {h : Hop Variable} {uninit : Int}

section LabelLists

variable {p : PathPattern Variable} {s s' : Frontier}

theorem noLabelLists_withFilter {op : Operator} {cases : List (Text × ASTNode)} :
    (withFilter op cases).NoLabelLists ↔ op.NoLabelLists := by
  unfold withFilter
  split <;> rfl

theorem noLabelLists_runLoop {hs : List (Hop Variable)} (h : runLoop l hs s = some s')
    (hbottom : s.operator.NoLabelLists) : s'.operator.NoLabelLists := by
  induction hs generalizing s with
  | nil => exact some.inj h ▸ hbottom
  | cons hop hops ih =>
    obtain ⟨s₁, hs₁, h⟩ := bind_eq_some_iff.1 h
    refine ih h ?_
    by_cases hp : hop.Plannable
    · rw [expandHop_eq hp] at hs₁
      obtain rfl := some.inj hs₁
      exact noLabelLists_withFilter.2 hbottom
    · rw [expandHop_eq_none hp] at hs₁
      exact absurd hs₁ nofun

theorem noLabelLists_growBoth {l : Side → Loop} {rightFirst : Bool} {startVar destVar relVar : Text}
    (hgrow : growBoth p h l rightFirst startVar destVar relVar s = some s')
    (hs : s.operator.NoLabelLists) : s'.operator.NoLabelLists := by
  rw [growBoth] at hgrow
  split at hgrow
  all_goals
    obtain ⟨s₁, hrun₁, hrun₂⟩ := bind_eq_some_iff.1 hgrow
    have h₁ : s₁.operator.NoLabelLists := noLabelLists_runLoop hrun₁ hs
    exact noLabelLists_runLoop hrun₂ h₁

theorem noLabelLists_start {k : ScanKind} (hstart : k.start p h = some s) :
    s.operator.NoLabelLists := by
  cases k with
  | relType =>
    obtain ⟨d, -, hstart⟩ := bind_eq_some_iff.1 hstart
    obtain ⟨relType, -, hstart⟩ := bind_eq_some_iff.1 hstart
    refine noLabelLists_growBoth hstart (noLabelLists_withFilter.2 ?_)
    cases h.rel.arrow <;> trivial
  | direction =>
    obtain ⟨d, -, hstart⟩ := bind_eq_some_iff.1 hstart
    exact noLabelLists_growBoth hstart trivial
  | undirected =>
    obtain ⟨d, -, hstart⟩ := bind_eq_some_iff.1 hstart
    exact noLabelLists_runLoop hstart (noLabelLists_withFilter.2 trivial)

theorem noLabelLists_labelStart {position : Nat} {n : NodePattern Variable}
    (h : labelStart p position n uninit = some s) : s.operator.NoLabelLists := by
  obtain ⟨label, -, h⟩ := bind_eq_some_iff.1 h
  obtain ⟨s₁, hrun₁, h⟩ := bind_eq_some_iff.1 h
  obtain ⟨prevRel, -, hrun₂⟩ := bind_eq_some_iff.1 h
  have h₁ : s₁.operator.NoLabelLists :=
    noLabelLists_runLoop hrun₁ (noLabelLists_withFilter.2 trivial)
  exact noLabelLists_runLoop hrun₂ h₁

theorem noLabelLists_seekStart {id var : Text} (h : seekStart p id var uninit = some s) :
    s.operator.NoLabelLists := by
  obtain ⟨found, -, h⟩ := bind_eq_some_iff.1 h
  dsimp only at h
  split at h
  · exact noLabelLists_runLoop h trivial
  split at h
  · exact noLabelLists_runLoop h trivial
  split at h
  · exact absurd h nofun
  obtain ⟨leftRel, -, h⟩ := bind_eq_some_iff.1 h
  obtain ⟨rightRel, -, h⟩ := bind_eq_some_iff.1 h
  split at h
  all_goals
    obtain ⟨s₁, hrun₁, hrun₂⟩ := bind_eq_some_iff.1 h
    have h₁ : s₁.operator.NoLabelLists := noLabelLists_runLoop hrun₁ trivial
    exact noLabelLists_runLoop hrun₂ h₁

theorem noLabelLists_pathPatternHandler {input : Option (Text × Text)}
    (h : pathPatternHandler p input uninit = some s) : s.operator.NoLabelLists := by
  rcases input with _ | ⟨id, var⟩
  · by_cases hp : ∀ h ∈ p.hops, h.Plannable
    · rw [pathPatternHandler, scanStart_eq hp] at h
      split at h
      · exact noLabelLists_start h
      · exact noLabelLists_labelStart h
    · push Not at hp
      rw [pathPatternHandler, scanStart_eq_none hp] at h
      exact absurd h nofun
  · exact noLabelLists_seekStart h

end LabelLists

/-! ## Property maps -/

def NodePattern.MapPrinted {ν : Type} (n : NodePattern ν) : Prop := n.properties ≠ some []

/-- The relationship has no empty property map among what the planner sees of it. -/
def Hop.MapPrinted {ν : Type} (h : Hop ν) : Prop :=
  (h.rel.detail.bind RelationshipDetail.seenProperties) ≠ some []

/-- No empty property map at a position other than the node at the given place. -/
def PathPattern.MapsPrinted {ν : Type} (p : PathPattern ν) (place : Option Nat) : Prop :=
  (∀ h ∈ p.hops, h.MapPrinted) ∧ ∀ i n, some i ≠ place → p.nodes[i]? = some n → n.MapPrinted

def Printed (cases : List (Text × ASTNode)) : Prop := ∀ item ∈ cases, analyzeCase item ≠ none

theorem printed_nil : Printed [] := forall_mem_nil _

@[simp] theorem printed_append {a b : List (Text × ASTNode)} :
    Printed (a ++ b) ↔ Printed a ∧ Printed b := forall_mem_append

theorem printed_properties (properties : Option Entries) (v : Text) :
    Printed ((properties.map propertiesNode).toList.map fun node => (v, node)) ↔
      properties ≠ some [] := by
  cases properties with
  | none => exact iff_of_true nofun nofun
  | some entries =>
    have hcase := analyzeCase_propertiesMap v entries
    rcases entries with _ | ⟨e, _ | ⟨e', es⟩⟩
    · exact iff_of_false (fun h => h _ mem_cons_self hcase) (fun h => h rfl)
    all_goals
      refine iff_of_true (fun item hitem hnone => ?_) nofun
      obtain rfl := mem_singleton.1 hitem
      exact absurd (hcase.symm.trans hnone) nofun

theorem printed_node (n : NodePattern Variable) (v : Text) :
    Printed (n.cases v) ↔ n.MapPrinted := by
  have hlabels : Printed (n.labelsNode.toList.map fun node => (v, node)) := by
    rcases n with ⟨_, _ | ⟨l, _ | ⟨l', ls⟩⟩, _⟩
    · exact nofun
    all_goals
      intro item hitem
      obtain rfl := mem_singleton.1 hitem
      exact nofun
  rw [NodePattern.cases, map_append, printed_append, printed_properties]
  exact and_iff_right hlabels

theorem printed_rel (h : Hop Variable) : Printed h.relCases ↔ h.MapPrinted :=
  printed_properties _ _

theorem printed_inequality (l : Loop) (prevRel : Text) (h : Hop Variable) :
    Printed (l.inequalityCases prevRel h) := by
  unfold Loop.inequalityCases
  split
  · intro item hitem
    obtain rfl := mem_singleton.1 hitem
    exact nofun
  · exact nofun

theorem printed_loop (hl : l.filters = true) (prevRel : Text) (hs : List (Hop Variable)) :
    Printed (l.cases prevRel hs) ↔ ∀ h ∈ hs, h.MapPrinted ∧ (l.side.dest h).MapPrinted := by
  induction hs generalizing prevRel with
  | nil => exact iff_of_true nofun nofun
  | cons h hs ih =>
    rw [Loop.cases, printed_append, printed_append, ih, forall_mem_cons, Loop.constraintCases,
      if_pos hl, printed_append, printed_rel, printed_node]
    exact and_congr_left fun _ => and_iff_right (printed_inequality l prevRel h)

/-- The cases of a loop that makes none of labels and property maps. -/
theorem printed_loop_of_not (hl : l.filters = false) (prevRel : Text) (hs : List (Hop Variable)) :
    Printed (l.cases prevRel hs) := by
  induction hs generalizing prevRel with
  | nil => exact printed_nil
  | cons h hs ih =>
    rw [Loop.cases, printed_append, printed_append, Loop.constraintCases, hl]
    exact ⟨⟨printed_inequality l prevRel h, printed_nil⟩, ih h.relVar⟩

/-- The two sides of a place cover everything but the node there. -/
theorem mapsPrinted_iff {ν : Type} (p : PathPattern ν) {k : Nat} (hk : k ≤ p.hops.length) :
    p.MapsPrinted (some k) ↔ (∀ h ∈ p.hops.drop k, h.MapPrinted ∧ h.right.MapPrinted) ∧
        ∀ h ∈ p.hops.take k, h.MapPrinted ∧ h.left.MapPrinted := by
  constructor
  · rintro ⟨hrel, hnode⟩
    constructor
    · intro h hh
      obtain ⟨hmem, hle⟩ := mem_drop_hops.1 hh
      exact ⟨hrel h hmem, hnode (h.index + 1) _ (by simp; omega) (getElem?_nodes_right hmem)⟩
    · intro h hh
      obtain ⟨hmem, hlt⟩ := mem_take_hops.1 hh
      exact ⟨hrel h hmem, hnode h.index _ (by simp; omega) (getElem?_nodes_left hmem)⟩
  · rintro ⟨hright, hleft⟩
    refine ⟨fun h hh => ?_, fun i n hne hn => ?_⟩
    · rcases Nat.lt_or_ge h.index k with hlt | hge
      · exact (hleft h (mem_take_hops.2 ⟨hh, hlt⟩)).1
      · exact (hright h (mem_drop_hops.2 ⟨hh, hge⟩)).1
    · have hlen : i < p.hops.length + 1 := by
        have := (List.getElem?_eq_some_iff.1 hn).1
        rwa [PathPattern.nodes, length_cons, length_map] at this
      rcases Nat.lt_or_ge i k with hlt | hge
      · -- to the left of the place, the node is the left end of its hop
        obtain ⟨h, hh, rfl⟩ := exists_hop (p := p) (i := i) (by omega)
        have := (hleft h (mem_take_hops.2 ⟨hh, hlt⟩)).2
        rw [getElem?_nodes_left hh] at hn
        exact some.inj hn ▸ this
      · obtain ⟨h, hh, hindex⟩ := exists_hop (p := p) (i := i - 1) (by simp at hne; omega)
        have hi : i = h.index + 1 := by simp at hne; omega
        subst hi
        rw [getElem?_nodes_right hh] at hn
        exact some.inj hn ▸ (hright h (mem_drop_hops.2 ⟨hh, by simp at hne; omega⟩)).2

theorem mapsPrinted_none_iff {ν : Type} {p : PathPattern ν} {k : Nat} {n : NodePattern ν}
    (hn : p.nodes[k]? = some n) :
    p.MapsPrinted none ↔ p.MapsPrinted (some k) ∧ n.MapPrinted := by
  constructor
  · rintro ⟨hrel, hnode⟩
    exact ⟨⟨hrel, fun i n _ => hnode i n nofun⟩, hnode k n nofun hn⟩
  · rintro ⟨⟨hrel, hnode⟩, hk⟩
    refine ⟨hrel, fun i n' _ hn' => ?_⟩
    by_cases hi : i = k
    · subst hi
      exact some.inj (hn.symm.trans hn') ▸ hk
    · exact hnode i n' (by simpa using hi) hn'

/-! ## The filters of a plan -/

/-- The start of a path makes filter cases of its labels and property maps. -/
def PathPattern.filters {ν : Type} (p : PathPattern ν) : Bool :=
  match p.choice with
  | .hop k _ => k.filters
  | .label _ _ => true

section Filters

variable {p : PathPattern Variable} {s : Frontier}

theorem Describes.filtersPrinted_iff {op : Operator} {b : List (Position × Text)} {legs : List Leg}
    (h : Describes op b legs s) :
    s.operator.FiltersPrinted ↔ Printed op.filterCases ∧ ∀ leg ∈ legs, Printed leg.cases := by
  rw [Operator.filtersPrinted_iff, h.filterCases, forall_mem_append]
  refine and_congr_right fun _ => ?_
  simp only [mem_flatMap]
  exact ⟨fun h leg hleg item hitem => h item ⟨leg, hleg, hitem⟩,
    fun h item ⟨leg, hleg, hitem⟩ => h leg hleg item hitem⟩

theorem filtersPrinted_hop {k : ScanKind} {legs : List Leg} (hh : h ∈ p.hops)
    (hs : Describes (withFilter (k.scan h) (k.cases h)) h.scanned legs s)
    (hlegs : legs.Perm [h.leftLeg p (k.loop .left), h.rightLeg p (k.loop .right)]) :
    s.operator.FiltersPrinted ↔ (k.filters = true → p.MapsPrinted none) := by
  have hmem : (∀ leg ∈ legs, Printed leg.cases) ↔
      Printed (h.leftLeg p (k.loop .left)).cases ∧ Printed (h.rightLeg p (k.loop .right)).cases := by
    simp only [hlegs.mem_iff, mem_cons, not_mem_nil, or_false, forall_eq_or_imp, forall_eq]
  rw [hs.filtersPrinted_iff, filterCases_withFilter, ScanKind.filterCases_scan, nil_append,
    hmem, ScanKind.cases]
  cases hk : k.filters with
  | false =>
    refine iff_of_true ⟨printed_nil, ?_, ?_⟩ fun h => absurd h Bool.false_ne_true
    all_goals exact printed_loop_of_not hk _ _
  | true =>
    rw [mapsPrinted_none_iff (getElem?_nodes_left hh),
      mapsPrinted_iff p (index_lt_length hh).le, drop_hops hh, if_pos rfl, Hop.scanCases,
      printed_append, printed_append, printed_rel, printed_node, printed_node, Leg.cases,
      Leg.cases, printed_loop hk, printed_loop hk, forall_mem_cons]
    simp only [Hop.leftLeg, mem_reverse]
    tauto

theorem filtersPrinted_scan_iff (h : scanStart p uninit = some s) :
    s.operator.FiltersPrinted ↔ (p.filters = true → p.MapsPrinted none) := by
  have hp : ∀ h ∈ p.hops, h.Plannable := by
    by_contra hp
    push Not at hp
    rw [scanStart_eq_none hp] at h
    exact absurd h nofun
  rw [scanStart_eq hp] at h
  unfold PathPattern.filters
  cases hchoice : p.choice with
  | hop k hop =>
    rw [hchoice] at h
    obtain ⟨hmem, htyped, hlast⟩ := choice_hop hchoice
    obtain ⟨s', legs, hstart, hs, hlegs⟩ := k.start_spec hmem hp htyped hlast
    obtain rfl := some.inj (hstart.symm.trans h)
    exact filtersPrinted_hop hmem hs hlegs
  | label position n =>
    rw [hchoice] at h
    obtain ⟨hlabels, hn, hpos⟩ := choice_label hchoice
    obtain ⟨s', hstart, hs⟩ := labelStart_spec hp position hlabels uninit
    obtain rfl := some.inj (hstart.symm.trans h)
    rw [hs.filtersPrinted_iff, labelScan, filterCases_withFilter, forall_prop_of_true rfl,
      mapsPrinted_none_iff hn, mapsPrinted_iff p hpos]
    simp only [Operator.filterCases, nil_append, NodePattern.propertyCases,
      printed_properties, mem_cons, not_mem_nil, or_false, forall_eq_or_imp, forall_eq,
      Leg.cases, labelLeftLeg]
    rw [printed_loop rfl, printed_loop rfl]
    simp only [ScanKind.loop, mem_reverse]
    exact and_comm

def PathPattern.seekPlace (p : PathPattern Variable) (var : Text) (uninit : Int) : Option Nat :=
  (seekIndex p var).map fun found => ((found.map Int.ofNat).getD uninit).toNat

theorem filtersPrinted_seek_iff {id var : Text} (h : seekStart p id var uninit = some s) :
    s.operator.FiltersPrinted ↔ p.MapsPrinted (p.seekPlace var uninit) := by
  obtain ⟨hp, found, hfound, k, hk, hle⟩ := seekStart_inv h
  obtain ⟨s', side, hop, hstart, hs⟩ : ∃ s' side hop, seekStart p id var uninit = some s' ∧
      SeekPlan p id var found k side hop s' := seekStart_spec hp hfound hk hle
  obtain rfl := some.inj (hstart.symm.trans h)
  have hplace : p.seekPlace var uninit = some k := by
    rw [PathPattern.seekPlace, hfound, map_some, hk, Int.toNat_natCast]
  rw [hplace, mapsPrinted_iff p hle, hs.describes.filtersPrinted_iff]
  simp only [Operator.filterCases, mem_cons, not_mem_nil, or_false, forall_eq_or_imp,
    forall_eq, Leg.cases, seekLeg]
  rw [printed_loop rfl, printed_loop rfl, and_iff_right printed_nil]
  cases side with
  | right => simp only [seekLoop, PathPattern.hopsOn, Side.other, Side.dest, mem_reverse]
  | left =>
    simp only [PathPattern.hopsOn, mem_reverse]
    exact and_comm

end Filters

end JasmineGraph.Cypher
