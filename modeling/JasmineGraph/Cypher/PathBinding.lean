import JasmineGraph.Cypher.PathPlan

/-!
# Which variable each position of a path receives

The plans of `pathPatternHandler` without an input operator. Every plan binds each position of the
path once (`scanStart_complete`). Two more things are wanted of it: that an operator reads only
variables bound below it, and that anonymous positions receive different names.

The names come from loop counters, and the copies of the loops do not agree on them. A scan over hop
`i` calls its nodes `node_var_i` and `node_var_(i+1)`, a loop to the left calls the node on the left
of hop `i` `node_var_i`, and a loop to the right calls the node on the *right* of hop `i`
`node_var_i` too. So a node two places to the right of a scanned hop receives the name of the node
before it. The label start makes the name of its node from a counter that is not assigned, and
starts the loop to the left from a variable of another name.
-/

namespace JasmineGraph.Cypher

open JasmineGraph.Bytes List Option Hop RelationshipDetail

open scoped List

/-! ## Generated names -/

theorem nodeName_inj {i j : Int} : nodeName i = nodeName j ↔ i = j :=
  ⟨fun h => decimalInt_injective (append_cancel_left h), congrArg nodeName⟩

theorem edgeName_inj {i j : Int} : edgeName i = edgeName j ↔ i = j :=
  ⟨fun h => decimalInt_injective (append_cancel_left h), congrArg edgeName⟩

theorem nodeName_ne_edgeName (i j : Int) : nodeName i ≠ edgeName j := fun h =>
  absurd (congrArg head? h) (by simp [nodeName, edgeName, ascii])

theorem nodeName_ne_nil (i : Int) : nodeName i ≠ [] := by
  simp [nodeName, ascii]

theorem edgeName_ne_nil (i : Int) : edgeName i ≠ [] := by
  simp [edgeName, ascii]

theorem nodeVar_ne_nil (n : NodePattern Variable) (i : Int) : nodeVar n (nodeName i) ≠ [] := by
  rw [nodeVar]
  rcases n.var with _ | v
  · exact nodeName_ne_nil i
  · exact v.ne_nil

theorem Hop.relVar_ne_nil (h : Hop Variable) : h.relVar ≠ [] := by
  rw [relVar]
  rcases h.rel.detail.bind var with _ | v
  · exact edgeName_ne_nil _
  · exact v.ne_nil

/-! ## Positions -/

variable {i : Nat} {leg : Leg} {legs : List Leg} {s : Frontier} {h : Hop Variable}
  {n : NodePattern Variable} {k : ScanKind} {uninit : Int}

section Positions

variable {ν : Type}

/-- A position without a variable of its own. -/
def PathPattern.Anonymous (p : PathPattern ν) : Position → Prop
  | .node i => ∃ n, p.nodes[i]? = some n ∧ n.var = none
  | .rel i => ∃ h, p.hops[i]? = some h ∧ h.rel.detail.bind var = none

def Hop.rightPositions (h : Hop ν) : List Position := [.rel h.index, .node (h.index + 1)]

def Hop.leftPositions (h : Hop ν) : List Position := [.rel h.index, .node h.index]

def PathPattern.positions (p : PathPattern ν) : List Position :=
  .node 0 :: p.hops.flatMap rightPositions

theorem leftPositions_perm (i : Nat) (left : NodePattern ν)
    (chain : List (RelationshipPattern ν × NodePattern ν)) :
    (.node (i + chain.length) :: (hopsFrom i left chain).flatMap leftPositions).Perm
      (.node i :: (hopsFrom i left chain).flatMap rightPositions) := by
  induction chain generalizing i left with
  | nil => exact .refl _
  | cons c chain ih =>
    have hrest := ih (i + 1) c.2
    rw [Nat.add_right_comm, Nat.add_assoc] at hrest
    simp only [hopsFrom, flatMap_cons, leftPositions, rightPositions,
      cons_append, nil_append, length_cons]
    rw [perm_iff_count] at hrest ⊢
    intro x
    have hx := hrest x
    simp only [count_cons] at hx ⊢
    omega

theorem take_hopsFrom (i k : Nat) (left : NodePattern ν)
    (chain : List (RelationshipPattern ν × NodePattern ν)) :
    (hopsFrom i left chain).take k = hopsFrom i left (chain.take k) := by
  induction chain generalizing i k left with
  | nil => simp [hopsFrom]
  | cons c chain ih =>
    cases k with
    | zero => rfl
    | succ k => rw [hopsFrom, take_succ_cons, ih, take_succ_cons, hopsFrom]

theorem positions_perm (p : PathPattern ν) (hi : i ≤ p.hops.length) :
    (.node i :: ((p.hops.drop i).flatMap rightPositions ++
      (p.hops.take i).reverse.flatMap leftPositions)).Perm p.positions := by
  have hleft := leftPositions_perm 0 p.start ((p.first :: p.rest).take i)
  rw [← take_hopsFrom, length_take, Nat.zero_add, ← hopsFrom_length 0 p.start] at hleft
  change (Position.node (min i p.hops.length) :: (p.hops.take i).flatMap _).Perm
    (_ :: (p.hops.take i).flatMap _) at hleft
  rw [Nat.min_eq_left hi] at hleft
  calc _ ~ .node i :: ((p.hops.take i).flatMap leftPositions ++
          (p.hops.drop i).flatMap rightPositions) :=
        (perm_append_comm.trans ((reverse_perm _).flatMap_right _ |>.append_right _)).cons _
    _ ~ .node 0 :: ((p.hops.take i).flatMap rightPositions ++
          (p.hops.drop i).flatMap rightPositions) := hleft.append_right _
    _ = p.positions := by
        rw [← flatMap_append, take_append_drop, PathPattern.positions]

end Positions

/-! ## Every position is bound once -/

/-- A plan binds every position of the path once, under the recorded name. -/
structure Complete (p : PathPattern Variable) (s : Frontier) : Prop where
  received : s.operator.vars = s.bindings.map Prod.snd
  positions : s.bindings.map Prod.fst ~ p.positions
  relationships : s.operator.relVars ~ p.hops.map relVar

namespace Leg

theorem relVars_relationships (leg : Leg) :
    leg.relationships.map RelationshipBinding.relVar = leg.hops.map relVar :=
  leg.loop.relVars_relationships leg.startVar leg.hops

theorem positions_left (hside : leg.loop.side = .left) :
    leg.bindings.map Prod.fst = leg.hops.flatMap leftPositions := by
  rw [bindings, map_flatMap]
  simp only [Loop.bindings, hside]
  rfl

theorem positions_right (hside : leg.loop.side = .right) :
    leg.bindings.map Prod.fst = leg.hops.flatMap rightPositions := by
  rw [bindings, map_flatMap]
  simp only [Loop.bindings, hside]
  rfl

end Leg

/-- A description with a leg to the right and a leg to the left of what the scan binds. -/
theorem Describes.complete {p : PathPattern Variable} {op : Operator} {b : List (Position × Text)}
    {right left : Leg} (h : Describes op b legs s) (hlegs : legs ~ [left, right])
    (hvars : op.vars = b.map Prod.snd) (hpositions : b.map Prod.fst ++
      (right.bindings.map Prod.fst ++ left.bindings.map Prod.fst) ~ p.positions)
    (hrels : op.relVars ++ (right.hops.map relVar ++ left.hops.map relVar) ~
      p.hops.map relVar) : Complete p s where
  received := by
    rw [h.vars, h.bindings, hvars, map_append, map_flatMap]
    rfl
  positions := by
    rw [h.bindings, map_append, map_flatMap]
    refine .trans (.append_left _ ?_) hpositions
    have hperm := (hlegs.trans (.swap _ _ _)).flatMap_right fun leg : Leg => leg.bindings.map Prod.fst
    simpa using hperm
  relationships := by
    rw [Operator.relVars, h.relationships, map_append, map_flatMap]
    refine .trans (.append_left _ ?_) hrels
    have hperm := (hlegs.trans (.swap _ _ _)).flatMap_right
      fun leg : Leg => leg.relationships.map RelationshipBinding.relVar
    simpa [Leg.relVars_relationships] using hperm

/-- Every position is bound exactly once, under the recorded name. -/
theorem scanStart_complete {p : PathPattern Variable} (hp : ∀ h ∈ p.hops, h.Plannable)
    (uninit : Int) : ∃ s, scanStart p uninit = some s ∧ Complete p s := by
  rw [scanStart_eq hp]
  rcases hchoice : p.choice with ⟨k, h⟩ | ⟨position, n⟩
  · obtain ⟨hh, htyped, hlast⟩ := choice_hop hchoice
    obtain ⟨s, legs, hs, hd, hlegs⟩ := k.start_spec hh hp htyped hlast
    refine ⟨s, hs, hd.complete hlegs ?_ ?_ ?_⟩
    · rw [vars_withFilter, k.vars_scan]
      rfl
    · have hperm := positions_perm p (index_lt_length hh).le
      rw [drop_hops hh] at hperm
      rw [Leg.positions_right rfl, Leg.positions_left rfl]
      exact hperm
    · have hperm := (hops_perm p h.index).map relVar
      rw [drop_hops hh, map_append] at hperm
      rw [Operator.relVars, relationships_withFilter, ← Operator.relVars, k.relVars_scan]
      exact hperm
  · obtain ⟨hn, -, hle⟩ := choice_label hchoice
    obtain ⟨s, hs, hd⟩ := labelStart_spec hp position hn uninit
    refine ⟨s, hs, hd.complete (.swap _ _ _) ?_ ?_ ?_⟩
    · rw [labelScan, vars_withFilter]
      rfl
    · rw [Leg.positions_right rfl, Leg.positions_left rfl]
      exact positions_perm p hle
    · have hperm := (hops_perm p position).map relVar
      rw [map_append] at hperm
      rw [Operator.relVars, labelScan, relationships_withFilter]
      exact hperm

/-! ## Names of anonymous positions -/

section Names

variable {p : PathPattern Variable}

def Fresh (p : PathPattern Variable) (bindings : List (Position × Text)) : Prop :=
  ∀ a b v, (a, v) ∈ bindings → (b, v) ∈ bindings → p.Anonymous a → p.Anonymous b → a = b

/-- The name of an anonymous position: the nodes to the right of place `k` are one behind. -/
def generated (k : Nat) : Position → Text
  | .rel i => edgeName i
  | .node i => nodeName (if i ≤ k then i else (i : Int) - 1)

theorem relVar_of_anonymous (hh : h ∈ p.hops) (hanon : p.Anonymous (.rel h.index)) :
    h.relVar = edgeName h.index := by
  obtain ⟨h', hget, hvar⟩ := hanon
  rw [mem_hops_iff.1 hh] at hget
  obtain rfl := some.inj hget
  rw [relVar, hvar]
  rfl

theorem nodeVar_of_anonymous (hn : p.nodes[i]? = some n) (hanon : p.Anonymous (.node i))
    (name : Text) : nodeVar n name = name := by
  obtain ⟨n', hget, hvar⟩ := hanon
  rw [hn] at hget
  obtain rfl := some.inj hget
  rw [nodeVar, hvar]
  rfl

theorem fresh_of_generated {bindings : List (Position × Text)} {k : Nat}
    (hnames : ∀ b ∈ bindings, p.Anonymous b.1 → b.2 = generated k b.1)
    (hk : ¬ (p.Anonymous (.node k) ∧ p.Anonymous (.node (k + 1)))) : Fresh p bindings := by
  intro a b v ha hb hanona hanonb
  have hname : generated k a = generated k b :=
    (hnames _ ha hanona).symm.trans (hnames _ hb hanonb)
  cases a with
  | rel i =>
    cases b with
    | rel j => rw [Int.ofNat_inj.1 (edgeName_inj.1 hname)]
    | node j => exact absurd hname.symm (nodeName_ne_edgeName _ _)
  | node i =>
    cases b with
    | rel j => exact absurd hname (nodeName_ne_edgeName _ _)
    | node j =>
      -- equal names are equal places, unless they are `k` and `k + 1`
      have hij := nodeName_inj.1 hname
      by_cases hi : i = k ∧ j = k + 1
      · obtain ⟨rfl, rfl⟩ := hi
        exact absurd ⟨hanona, hanonb⟩ hk
      · by_cases hj : j = k ∧ i = k + 1
        · obtain ⟨rfl, rfl⟩ := hj
          exact absurd ⟨hanonb, hanona⟩ hk
        · have : i = j := by
            split_ifs at hij <;> omega
          rw [this]

namespace Leg

theorem name_generated {k : Nat} (hhops : ∀ h ∈ leg.hops, h ∈ p.hops ∧
      if leg.loop.side = .right then k ≤ h.index else h.index ≤ k) :
    ∀ b ∈ leg.bindings, p.Anonymous b.1 → b.2 = generated k b.1 := by
  intro b hb hanon
  obtain ⟨h, hh, hb⟩ := mem_flatMap.1 hb
  obtain ⟨hmem, hle⟩ := hhops h hh
  rcases mem_pair.1 hb with rfl | rfl
  · exact relVar_of_anonymous hmem hanon
  simp only [Loop.destVar] at hanon ⊢
  cases hside : leg.loop.side <;> rw [hside] at hle hanon
  · have hle : h.index ≤ k := hle
    rw [Side.dest, nodeVar_of_anonymous (getElem?_nodes_left hmem) hanon, Side.position, generated,
      if_pos hle]
  · have hle : k ≤ h.index := hle
    rw [Side.dest, nodeVar_of_anonymous (getElem?_nodes_right hmem) hanon, Side.position]
    exact nodeName_inj.2 (by omega)

end Leg

end Names

/-! ## Patterns that are planned well -/

/-- What is wanted of a plan. -/
structure WellPlanned (p : PathPattern Variable) (s : Frontier) : Prop extends Complete p s where
  bindsBeforeUse : s.operator.BindsBeforeUse
  fresh : Fresh p s.bindings

/-- The patterns that get such a plan: every relationship can be read, and
* for a scan over a hop, the node to its right and the next one are not both anonymous;
* for a labelled start of the path, it has a variable or all other nodes have one;
* for another labelled node, it has a variable and is not the end of the path. -/
def PathPattern.PlansWell {ν : Type} (p : PathPattern ν) : Prop :=
  (∀ h ∈ p.hops, h.Plannable) ∧
    match p.choice with
    | .hop _ h => ¬ (p.Anonymous (.node (h.index + 1)) ∧ p.Anonymous (.node (h.index + 2)))
    | .label 0 _ => p.Anonymous (.node 0) → ∀ i, p.Anonymous (.node i) → i = 0
    | .label (i + 1) _ => ¬ p.Anonymous (.node (i + 1)) ∧ i + 1 < p.hops.length

section Sufficient

variable {p : PathPattern Variable}

/-- Legs that start from what is bound already read nothing unbound, in whatever order they come. -/
theorem legsBound_of_mem {vars : List Text}
    (h : ∀ leg ∈ legs, leg.startVar ∈ vars ∧ leg.prevRel ∈ vars) : LegsBound vars legs := by
  induction legs generalizing vars with
  | nil => trivial
  | cons leg legs ih =>
    obtain ⟨hleg, hlegs⟩ := forall_mem_cons.1 h
    refine ⟨leg.loop.bound_of_mem hleg.1 fun _ _ _ => hleg.2, ih fun x hx => ?_⟩
    exact ⟨mem_append_left _ (hlegs x hx).1, mem_append_left _ (hlegs x hx).2⟩

theorem bindsBeforeUse_hopScan (k : ScanKind) (h : Hop Variable) :
    (withFilter (k.scan h) (k.cases h)).BindsBeforeUse := by
  refine (bindsBeforeUse_withFilter _ _).2 ⟨fun item hitem v hv => ?_, k.bindsBeforeUse_scan h⟩
  rw [k.vars_scan]
  rw [ScanKind.cases] at hitem
  split at hitem
  · rcases mem_append.1 hitem with hitem | hitem
    · rcases mem_append.1 hitem with hitem | hitem
      · simp [mem_caseVariables_rel hitem hv]
      · simp [mem_caseVariables_node hitem hv]
    · simp [mem_caseVariables_node hitem hv]
  · exact absurd hitem not_mem_nil

theorem bindsBeforeUse_labelScan (n : NodePattern Variable) (uninit : Int) :
    (labelScan n uninit).BindsBeforeUse := by
  refine (bindsBeforeUse_withFilter _ _).2 ⟨fun item hitem v hv => ?_, trivial⟩
  have hcases : item ∈ n.cases (labelVar n uninit) := by
    rw [NodePattern.cases, map_append]
    exact mem_append_right _ hitem
  rw [mem_caseVariables_node hcases hv]
  exact mem_singleton_self _

/-- A scan over a hop always reads what is bound. -/
theorem hopStart_bindsBeforeUse
    (hd : Describes (withFilter (k.scan h) (k.cases h)) h.scanned legs s)
    (hlegs : legs ~ [h.leftLeg p (k.loop .left), h.rightLeg p (k.loop .right)]) :
    s.operator.BindsBeforeUse := by
  refine hd.bindsBeforeUse.2 ⟨bindsBeforeUse_hopScan k h, legsBound_of_mem fun leg hleg => ?_⟩
  rw [vars_withFilter, k.vars_scan]
  rcases mem_cons.1 (hlegs.subset hleg) with rfl | hleg
  · simp [leftLeg]
  · rw [mem_singleton.1 hleg]
    simp [rightLeg]

theorem hopStart_fresh (hh : h ∈ p.hops)
    (hd : Describes (withFilter (k.scan h) (k.cases h)) h.scanned legs s)
    (hlegs : legs ~ [h.leftLeg p (k.loop .left), h.rightLeg p (k.loop .right)])
    (hnamed : ¬ (p.Anonymous (.node (h.index + 1)) ∧ p.Anonymous (.node (h.index + 2)))) :
    Fresh p s.bindings := by
  refine fresh_of_generated (fun b hb hanon => ?_) hnamed
  rw [hd.bindings] at hb
  rcases mem_append.1 hb with hb | hb
  · simp only [scanned, scanBindings, mem_cons, not_mem_nil, or_false] at hb
    rcases hb with rfl | rfl | rfl
    · rw [startVar, nodeVar_of_anonymous (getElem?_nodes_left hh) hanon, generated,
        if_pos (Nat.le_succ _)]
    · exact relVar_of_anonymous hh hanon
    · rw [endVar, nodeVar_of_anonymous (getElem?_nodes_right hh) hanon, generated,
        if_pos (Nat.le_refl _)]
      rfl
  · obtain ⟨leg, hleg, hb⟩ := mem_flatMap.1 hb
    rcases mem_cons.1 (hlegs.subset hleg) with rfl | hleg
    · refine Leg.name_generated (fun x hx => ?_) b hb hanon
      have := mem_take_hops.1 (mem_reverse.1 hx)
      exact ⟨this.1, (this.2.trans (Nat.lt_succ_self _)).le⟩
    · rw [mem_singleton.1 hleg] at hb
      exact Leg.name_generated (fun x hx => mem_drop_hops.1 hx) b hb hanon

theorem labelRightLeg_bound (position : Nat) (n : NodePattern Variable) (uninit : Int) :
    (labelRightLeg p position n uninit).Bound [labelVar n uninit] := by
  refine (labelLoop position).bound_of_mem (mem_singleton_self _) fun h hh happlies => ?_
  rw [labelRightLeg, head?_drop] at hh
  have hindex := getElem?_hopsFrom (show (hopsFrom 0 _ _)[position]? = some h from hh)
  have hgt : (h.index : Int) > (position : Int) - 1 + 1 := of_decide_eq_true happlies
  omega

variable {position : Nat}

theorem labelLeftLeg_bound (hn : p.nodes[position]? = some n)
    (hnamed : ¬ p.Anonymous (.node position)) (hlt : position < p.hops.length) (uninit : Int) :
    (labelLeftLeg p position n).Bound
      ([labelVar n uninit] ++ (labelRightLeg p position n uninit).vars) := by
  refine (ScanKind.loop .relType .left).bound_of_mem ?_ fun _ _ _ => ?_
  · rcases hvar : n.var with _ | v
    · exact absurd ⟨n, hn, hvar⟩ hnamed
    · simp [labelLeftLeg, labelVar, nodeVar, hvar]
  · obtain ⟨h, hh, rfl⟩ := exists_hop hlt
    have hprev : (labelLeftLeg p h.index n).prevRel = h.relVar := by
      rw [labelLeftLeg, mem_hops_iff.1 hh]
      rfl
    rw [hprev]
    refine mem_append_right _ (List.mem_map.2 ⟨(.rel h.index, h.relVar), ?_, rfl⟩)
    refine mem_flatMap.2 ⟨h, ?_, mem_cons_self⟩
    exact mem_drop_hops.2 ⟨hh, Nat.le_refl _⟩

section

variable (hd : Describes (labelScan n uninit) [(.node position, labelVar n uninit)]
  [labelRightLeg p position n uninit, labelLeftLeg p position n] s)

include hd

theorem labelStart_generated : ∀ b ∈ s.bindings, p.Anonymous b.1 →
      b = (.node position, labelVar n uninit) ∨ b.2 = generated position b.1 := by
  intro b hb hanon
  rw [hd.bindings] at hb
  rcases mem_append.1 hb with hb | hb
  · exact .inl (mem_singleton.1 hb)
  · obtain ⟨leg, hleg, hb⟩ := mem_flatMap.1 hb
    rcases mem_cons.1 hleg with rfl | hleg
    · exact .inr (Leg.name_generated (fun x hx => mem_drop_hops.1 hx) b hb hanon)
    · rw [mem_singleton.1 hleg] at hb
      refine .inr (Leg.name_generated (fun x hx => ?_) b hb hanon)
      have := mem_take_hops.1 (mem_reverse.1 hx)
      exact ⟨this.1, this.2.le⟩

theorem labelStart_fresh (hnamed : ¬ p.Anonymous (.node position)) : Fresh p s.bindings := by
  refine fresh_of_generated (fun b hb hanon => ?_) fun h => hnamed h.1
  rcases labelStart_generated hd b hb hanon with rfl | hname
  · exact absurd hanon hnamed
  · exact hname

end

theorem labelStart_fresh_of_only (hd : Describes (labelScan n uninit) [(.node 0, labelVar n uninit)]
      [labelRightLeg p 0 n uninit, labelLeftLeg p 0 n] s) (hn : n.var = none)
    (honly : ∀ i, p.Anonymous (.node i) → i = 0) : Fresh p s.bindings := by
  have hrel : ∀ {i v}, (.rel i, v) ∈ s.bindings → p.Anonymous (.rel i) → v = edgeName i :=
    fun hb hanon => (labelStart_generated hd _ hb hanon).resolve_left nofun
  have hnode : ∀ {i v}, (.node i, v) ∈ s.bindings → p.Anonymous (.node i) →
      ∃ j, v = nodeName j := by
    intro i v hb hanon
    rcases labelStart_generated hd _ hb hanon with heq | hname
    · cases heq
      exact ⟨uninit + 1, by rw [labelVar, nodeVar, hn]; rfl⟩
    · exact ⟨_, hname⟩
  intro a b v ha hb hanona hanonb
  cases a with
  | rel i =>
    cases b with
    | rel j =>
      have hij := edgeName_inj.1 ((hrel ha hanona).symm.trans (hrel hb hanonb))
      rw [Int.ofNat_inj.1 hij]
    | node j =>
      obtain ⟨j', hj'⟩ := hnode hb hanonb
      exact absurd (hj'.symm.trans (hrel ha hanona)) (nodeName_ne_edgeName _ _)
  | node i =>
    cases b with
    | rel j =>
      obtain ⟨i', hi'⟩ := hnode ha hanona
      exact absurd (hi'.symm.trans (hrel hb hanonb)) (nodeName_ne_edgeName _ _)
    | node j => rw [honly i hanona, honly j hanonb]

theorem wellPlanned_of_plansWell (hp : p.PlansWell) (uninit : Int) :
    ∃ s, scanStart p uninit = some s ∧ WellPlanned p s := by
  obtain ⟨hplannable, hstart⟩ := hp
  obtain ⟨s, hs, hcomplete⟩ := scanStart_complete hplannable uninit
  suffices h : s.operator.BindsBeforeUse ∧ Fresh p s.bindings from ⟨s, hs, hcomplete, h.1, h.2⟩
  rw [scanStart_eq hplannable] at hs
  rcases hchoice : p.choice with ⟨k, h⟩ | ⟨position, n⟩
  · obtain ⟨hh, htyped, hlast⟩ := choice_hop hchoice
    obtain ⟨s', legs, hs', hd, hlegs⟩ := k.start_spec hh hplannable htyped hlast
    simp only [hchoice] at hs hstart
    obtain rfl := some.inj (hs.symm.trans hs')
    exact ⟨hopStart_bindsBeforeUse hd hlegs, hopStart_fresh hh hd hlegs hstart⟩
  · obtain ⟨hn, hget, -⟩ := choice_label hchoice
    obtain ⟨s', hs', hd⟩ := labelStart_spec hplannable position hn uninit
    simp only [hchoice] at hs
    obtain rfl := some.inj (hs.symm.trans hs')
    have hbinds : (labelLeftLeg p position n).Bound
        ([labelVar n uninit] ++ (labelRightLeg p position n uninit).vars) →
        s.operator.BindsBeforeUse := fun hleft => by
      refine hd.bindsBeforeUse.2 ⟨bindsBeforeUse_labelScan n uninit, ?_⟩
      rw [labelScan, vars_withFilter]
      exact ⟨labelRightLeg_bound position n uninit, hleft, trivial⟩
    simp only [hchoice] at hstart
    cases position with
    | zero =>
      refine ⟨hbinds trivial, ?_⟩
      by_cases hanon : p.Anonymous (.node 0)
      · have hvar : n.var = none := by
          obtain ⟨n', hget', hvar⟩ := hanon
          rw [hget] at hget'
          exact (some.inj hget') ▸ hvar
        exact labelStart_fresh_of_only hd hvar (hstart hanon)
      · exact labelStart_fresh hd hanon
    | succ i =>
      exact ⟨hbinds (labelLeftLeg_bound hget hstart.1 hstart.2 uninit),
        labelStart_fresh hd hstart.1⟩

end Sufficient

section Necessary

variable {p : PathPattern Variable}

/-- No variable of the pattern looks like a generated node name. -/
structure PathPattern.Plain (p : PathPattern Variable) : Prop where
  node : ∀ n ∈ p.nodes, ∀ v, n.var = some v → ∀ i, v.text ≠ nodeName i
  rel : ∀ h ∈ p.hops, ∀ v, h.rel.detail.bind var = some v → ∀ i, v.text ≠ nodeName i

theorem PathPattern.Plain.relVar_ne (hplain : p.Plain) (hh : h ∈ p.hops) (i : Int) :
    h.relVar ≠ nodeName i := by
  rw [relVar]
  rcases hvar : h.rel.detail.bind var with _ | v
  · exact (nodeName_ne_edgeName _ _).symm
  · exact hplain.rel h hh v hvar i

theorem PathPattern.Plain.nodeVar_eq (hplain : p.Plain) (hn : n ∈ p.nodes) {i j : Int}
    (heq : nodeVar n (nodeName i) = nodeName j) : i = j := by
  rw [nodeVar] at heq
  rcases hvar : n.var with _ | v
  · rw [hvar] at heq
    exact nodeName_inj.1 heq
  · rw [hvar] at heq
    exact absurd heq (hplain.node n hn v hvar j)

theorem length_nodes (p : PathPattern Variable) : p.nodes.length = p.hops.length + 1 := by
  rw [PathPattern.nodes, length_cons, length_map]

theorem mem_rightLeg_of_anonymous {k i : Nat} (hside : leg.loop.side = .right)
    (hhops : leg.hops = p.hops.drop k) (hk : k ≤ i) (hanon : p.Anonymous (.node (i + 1))) :
    (.node (i + 1), nodeName i) ∈ leg.bindings := by
  have hlt : i < p.hops.length := by
    obtain ⟨n, hget, -⟩ := hanon
    have := (List.getElem?_eq_some_iff.1 hget).1
    rw [length_nodes] at this
    omega
  obtain ⟨h, hh, rfl⟩ := exists_hop hlt
  refine mem_flatMap.2 ⟨h, hhops ▸ mem_drop_hops.2 ⟨hh, hk⟩, ?_⟩
  have hname : leg.loop.destVar h = nodeName h.index := by
    rw [Loop.destVar, hside]
    exact nodeVar_of_anonymous (getElem?_nodes_right hh) hanon _
  rw [Loop.bindings, hname, hside]
  exact mem_cons_of_mem _ (mem_singleton_self _)

theorem hopStart_not_fresh (hh : h ∈ p.hops)
    (hd : Describes (withFilter (k.scan h) (k.cases h)) h.scanned legs s)
    (hlegs : legs ~ [h.leftLeg p (k.loop .left), h.rightLeg p (k.loop .right)])
    (hanon : p.Anonymous (.node (h.index + 1))) (hanon' : p.Anonymous (.node (h.index + 2))) :
    ¬ Fresh p s.bindings := by
  intro hfresh
  have hscan : (.node (h.index + 1), nodeName (h.index + 1)) ∈ s.bindings := by
    rw [hd.bindings]
    simp [scanned, scanBindings, endVar, nodeVar_of_anonymous (getElem?_nodes_right hh) hanon]
  have hright : (.node (h.index + 2), nodeName (h.index + 1)) ∈ s.bindings := by
    rw [hd.bindings]
    refine mem_append_right _ (mem_flatMap.2 ⟨h.rightLeg p (k.loop .right), ?_, ?_⟩)
    · exact hlegs.symm.subset (by simp)
    · exact mem_rightLeg_of_anonymous rfl rfl (Nat.le_refl _) hanon'
  exact absurd (hfresh _ _ _ hscan hright hanon hanon') (by simp)

theorem labelStart_not_fresh (hget : p.nodes[0]? = some n)
    (hd : Describes (labelScan n ((i : Int) - 1)) [(.node 0, labelVar n ((i : Int) - 1))]
      [labelRightLeg p 0 n ((i : Int) - 1), labelLeftLeg p 0 n] s) (hanon : p.Anonymous (.node 0))
    (hanon' : p.Anonymous (.node (i + 1))) : ¬ Fresh p s.bindings := by
  intro hfresh
  have hscan : (.node 0, nodeName i) ∈ s.bindings := by
    rw [hd.bindings]
    simp [labelVar, nodeVar_of_anonymous hget hanon]
  have hright : (.node (i + 1), nodeName i) ∈ s.bindings := by
    rw [hd.bindings]
    refine mem_append_right _ (mem_flatMap.2 ⟨_, mem_cons_self, ?_⟩)
    exact mem_rightLeg_of_anonymous rfl rfl (Nat.zero_le _) hanon'
  exact absurd (hfresh _ _ _ hscan hright hanon hanon') (by simp)

/-- The loop to the left of an anonymous labelled node starts from a variable that nothing binds. -/
theorem labelLeftLeg_not_bound (hplain : p.Plain) (hget : p.nodes[i + 1]? = some n)
    (hle : i + 1 ≤ p.hops.length) (hanon : p.Anonymous (.node (i + 1))) :
    ¬ (labelLeftLeg p (i + 1) n).Bound
      ([labelVar n i] ++ (labelRightLeg p (i + 1) n i).vars) := by
  obtain ⟨h, hh, rfl⟩ := exists_hop hle
  intro hbound
  rw [labelLeftLeg, reverse_take_hops hh] at hbound
  obtain ⟨hstart, -, -⟩ := hbound
  rw [nodeVar_of_anonymous hget hanon, Nat.cast_succ, add_sub_cancel_right] at hstart
  rcases mem_append.1 hstart with hstart | hstart
  · rw [mem_singleton, labelVar, nodeVar_of_anonymous hget hanon, nodeName_inj] at hstart
    omega
  · obtain ⟨⟨position, v⟩, hb, rfl⟩ := List.mem_map.1 hstart
    obtain ⟨x, hx, hb⟩ := mem_flatMap.1 hb
    obtain ⟨hx, hlt⟩ := mem_drop_hops.1 hx
    simp only [Loop.bindings, mem_cons, not_mem_nil, or_false, Prod.mk.injEq] at hb
    rcases hb with ⟨-, hb⟩ | ⟨-, hb⟩
    · exact hplain.relVar_ne hx _ hb.symm
    · have := hplain.nodeVar_eq (mem_of_getElem? (getElem?_nodes_right hx)) hb.symm
      omega

/-- The loop to the left of a labelled end of the path wants its first relationship to differ from
the empty variable. -/
theorem labelLeftLeg_not_bound_of_end (hlen : p.hops.length = i + 1) :
    ¬ (labelLeftLeg p (i + 1) n).Bound
      ([labelVar n uninit] ++ (labelRightLeg p (i + 1) n uninit).vars) := by
  obtain ⟨h, hh, rfl⟩ := exists_hop (p := p) (i := i) (by omega)
  have hvars : (labelRightLeg p (h.index + 1) n uninit).vars = [] := by
    rw [labelRightLeg, drop_eq_nil_of_le hlen.le]
    rfl
  have hprev : (p.hops[h.index + 1]?.map relVar).getD [] = [] := by
    rw [List.getElem?_eq_none hlen.le]
    rfl
  intro hbound
  rw [labelLeftLeg, reverse_take_hops hh, hprev, hvars] at hbound
  obtain ⟨-, hcases, -⟩ := hbound
  have hmem := hcases _ (mem_append_left _ (mem_singleton_self _)) []
    (mem_cons_of_mem _ (mem_singleton_self _))
  simp only [cons_append, nil_append, mem_cons, not_mem_nil, or_false] at hmem
  rcases hmem with hmem | hmem | hmem
  · exact nodeVar_ne_nil _ _ hmem.symm
  · exact h.relVar_ne_nil hmem.symm
  · exact nodeVar_ne_nil _ _ hmem.symm

theorem plansWell_of_wellPlanned (hplain : p.Plain)
    (h : ∀ uninit, ∃ s, scanStart p uninit = some s ∧ WellPlanned p s) : p.PlansWell := by
  have hplannable : ∀ h ∈ p.hops, h.Plannable := by
    intro x hx
    by_contra hnot
    obtain ⟨s, hs, -⟩ := h 0
    rw [scanStart_eq_none ⟨x, hx, hnot⟩] at hs
    exact absurd hs nofun
  refine ⟨hplannable, ?_⟩
  simp only [scanStart_eq hplannable] at h
  rcases hchoice : p.choice with ⟨k, x⟩ | ⟨position, n⟩
  · obtain ⟨hx, htyped, hlast⟩ := choice_hop hchoice
    obtain ⟨s, legs, hs, hd, hlegs⟩ := k.start_spec hx hplannable htyped hlast
    obtain ⟨s', hs', hwell⟩ := h 0
    simp only [hchoice] at hs'
    obtain rfl := some.inj (hs.symm.trans hs')
    exact fun hanon => hopStart_not_fresh hx hd hlegs hanon.1 hanon.2 hwell.fresh
  · obtain ⟨hn, hget, hle⟩ := choice_label hchoice
    have hlabel : ∀ uninit, ∃ s, WellPlanned p s ∧
        Describes (labelScan n uninit) [(.node position, labelVar n uninit)]
          [labelRightLeg p position n uninit, labelLeftLeg p position n] s := by
      intro uninit
      obtain ⟨s, hs, hd⟩ := labelStart_spec hplannable position hn uninit
      obtain ⟨s', hs', hwell⟩ := h uninit
      simp only [hchoice] at hs'
      obtain rfl := some.inj (hs.symm.trans hs')
      exact ⟨s, hwell, hd⟩
    cases position with
    | zero =>
      intro hanon i hanon'
      by_contra hne
      obtain ⟨i, rfl⟩ := Nat.exists_eq_succ_of_ne_zero hne
      obtain ⟨s, hwell, hd⟩ := hlabel ((i : Int) - 1)
      exact labelStart_not_fresh hget hd hanon hanon' hwell.fresh
    | succ i =>
      have hbound : ∀ uninit, (labelLeftLeg p (i + 1) n).Bound
          ([labelVar n uninit] ++ (labelRightLeg p (i + 1) n uninit).vars) := by
        intro uninit
        obtain ⟨s, hwell, hd⟩ := hlabel uninit
        have hlegs := (hd.bindsBeforeUse.1 hwell.bindsBeforeUse).2
        rw [labelScan, vars_withFilter] at hlegs
        exact hlegs.2.1
      refine ⟨fun hanon => labelLeftLeg_not_bound hplain hget hle hanon (hbound i), ?_⟩
      by_contra hge
      exact labelLeftLeg_not_bound_of_end (by omega) (hbound 0)

end Necessary

/-! ## The patterns of one shape -/

theorem anonymous_map {ν μ : Type} (f : ν → μ) (p : PathPattern ν) (a : Position) :
    (p.map f).Anonymous a ↔ p.Anonymous a := by
  cases a with
  | node i =>
    simp only [PathPattern.Anonymous, nodes_map, List.getElem?_map, map_eq_some_iff]
    constructor
    · rintro ⟨_, ⟨n, hn, rfl⟩, hvar⟩
      exact ⟨n, hn, map_eq_none_iff.1 hvar⟩
    · rintro ⟨n, hn, hvar⟩
      exact ⟨_, ⟨n, hn, rfl⟩, map_eq_none_iff.2 hvar⟩
  | rel i =>
    have hvar : ∀ h : Hop ν, (h.map f).rel.detail.bind var = (h.rel.detail.bind var).map f := by
      rintro ⟨_, _, ⟨_, _ | d⟩, _⟩ <;> rfl
    simp only [PathPattern.Anonymous, hops_map, List.getElem?_map, map_eq_some_iff]
    constructor
    · rintro ⟨_, ⟨h, hh, rfl⟩, hnone⟩
      exact ⟨h, hh, map_eq_none_iff.1 (hvar h ▸ hnone)⟩
    · rintro ⟨h, hh, hnone⟩
      exact ⟨_, ⟨h, hh, rfl⟩, (hvar h).trans (map_eq_none_iff.2 hnone)⟩

theorem plansWell_map {ν μ : Type} (f : ν → μ) (p : PathPattern ν) :
    (p.map f).PlansWell ↔ p.PlansWell := by
  simp only [PathPattern.PlansWell, choice_map, hops_map, List.forall_mem_map, plannable_map,
    anonymous_map, length_map]
  rcases p.choice with ⟨k, h⟩ | ⟨_ | i, n⟩ <;> rfl

def plainVariable : Variable := ⟨ascii "x", by decide, by decide⟩

theorem plain_map_plainVariable (s : PathPattern Unit) : (s.map fun _ => plainVariable).Plain := by
  have hx : ∀ i, plainVariable.text ≠ nodeName i := fun i h =>
    absurd (congrArg head? h) (by simp [nodeName, ascii, plainVariable])
  constructor
  · intro n hn v hv
    rw [nodes_map] at hn
    obtain ⟨m, -, rfl⟩ := List.mem_map.1 hn
    obtain ⟨u, -, rfl⟩ := map_eq_some_iff.1 hv
    exact hx
  · intro h hh v hv
    rw [hops_map] at hh
    obtain ⟨m, -, rfl⟩ := List.mem_map.1 hh
    rcases m with ⟨_, _, ⟨_, _ | ⟨_ | u, _, _, _⟩⟩, _⟩
    · cases hv
    · cases hv
    · cases hv
      exact hx

/-- **Binding before use.** All patterns of a shape get a plan in which operators read what is bound
below them, every position is bound once and anonymous positions have names of their own, exactly
when the shape is one that is planned well. -/
theorem pathPatternHandler_wellPlanned_iff (s : PathPattern Unit) :
    (∀ p : PathPattern Variable, p.shape = s → ∀ uninit,
      ∃ f, pathPatternHandler p none uninit = some f ∧ WellPlanned p f) ↔ s.PlansWell := by
  constructor
  · intro h
    refine (plansWell_map (fun _ => plainVariable) s).1 ?_
    exact plansWell_of_wellPlanned (plain_map_plainVariable s) (h _ (shape_map_const s _))
  · rintro hs p rfl uninit
    exact wellPlanned_of_plansWell ((plansWell_map _ p).1 hs) uninit

/-- `(a)-[r]->(b:Person)`. -/
def labelledEnd : PathPattern Variable :=
  { start := ⟨some ⟨ascii "a", by decide, by decide⟩, [], none⟩
    first := (⟨.right, some ⟨some ⟨ascii "r", by decide, by decide⟩, [], false, none⟩⟩,
      ⟨some ⟨ascii "b", by decide, by decide⟩, [ascii "Person"], none⟩)
    rest := [] }

/-- `()-[:KNOWS]->()-[]->()`. -/
def anonymousChain : PathPattern Variable :=
  { start := ⟨none, [], none⟩
    first := (⟨.right, some ⟨none, [ascii "KNOWS"], false, none⟩⟩, ⟨none, [], none⟩)
    rest := [(⟨.right, some ⟨none, [], false, none⟩⟩, ⟨none, [], none⟩)] }

/-- The plan of `(a)-[r]->(b:Person)` wants `r` to differ from a variable that nothing binds, and in
the plan of `()-[:KNOWS]->()-[]->()` the second and the third node have one name. -/
theorem pathPlans_not_wellPlanned :
    (∃ s, pathPatternHandler labelledEnd none 0 = some s ∧ ¬ s.operator.BindsBeforeUse) ∧
      ∃ s, pathPatternHandler anonymousChain none 0 = some s ∧
        (.node 1, ascii "node_var_1") ∈ s.bindings ∧ (.node 2, ascii "node_var_1") ∈ s.bindings ∧
        anonymousChain.Anonymous (.node 1) ∧ anonymousChain.Anonymous (.node 2) := by
  constructor
  · refine ⟨_, rfl, fun h => ?_⟩
    exact absurd (h.1 _ (mem_singleton_self _) [] (by decide)) (by decide)
  · exact ⟨_, rfl, by decide +kernel, by decide +kernel, ⟨_, rfl, rfl⟩, ⟨_, rfl, rfl⟩⟩

end JasmineGraph.Cypher
