import JasmineGraph.NativeStore.AddEdge
import JasmineGraph.Partitioner.Partition
import JasmineGraph.MapOption

/-!
# Where CREATE puts its elements

`CreateHelper` runs over the elements of a CREATE: nodes and lists of relationships. A `return`
leaves both loops, so the loops are one loop over the items.

Without an input (`insertWithoutData`) every partition runs the same loop for itself. It adds a
relationship that has an end in it, as a local or a central edge, and returns at the first
relationship that has none, or at the first node, which it adds if it is its own.

With a matched row (`insertFromData`) one partition runs the loop and publishes what belongs to
others. An end that the row does not bind gets its id only if it has a variable; otherwise the id
stays empty and `stoi` throws. A published edge carries graph and partition and is added by
`addEdgeFromString`. A published node does not: `getIDs` finds no `graphId`, the store with the empty
graph id is opened, `stoi("")` throws in the receiving thread and the worker terminates. After a node
the loop returns here too.

A store is the `Log` that `NodeManager` refines. Exceptions are `none`. That the master knows the
worker of every partition is assumed.
-/

namespace JasmineGraph.Cypher

open Bytes NativeStore Partitioner List Function
open Option hiding or_assoc pure_def

/-- An end of a relationship: its variable and its property map, of which only the id matters. -/
structure CreateEnd where
  var : Option (List UInt8)
  properties : Option (Option VertexId)

/-- What the loops run over. -/
inductive CreateItem where
  | node (properties : Option (Option VertexId))
  | relationship (source dest : CreateEnd)

inductive CreateElement where
  | node (properties : Option (Option VertexId))
  | relationships (rels : List (CreateEnd × CreateEnd))

def CreateElement.items : CreateElement → List CreateItem
  | .node properties => [.node properties]
  | .relationships rels => rels.map fun rel => .relationship rel.1 rel.2

def dummyId : VertexId := ascii "0"

/-- The kind of an edge between nodes of two partitions. -/
def relationKind {n : Nat} (source dest : Fin n) : RelationKind :=
  if source = dest then .localRelation else .centralRelation

section Loops

variable (n : Nat) (p : Fin n)

/-- `insertWithoutData` on partition `p`. -/
def insertWithoutData : List CreateItem → Log → Option Log
  | [], g => some g
  | .relationship source dest :: items, g =>
    match source.properties.join, dest.properties.join with
    | some sourceId, some destId => do
      let i ← homeOf n sourceId
      let j ← homeOf n destId
      if i = j ∧ i = p then insertWithoutData items (g.addEdge .localRelation (sourceId, destId))
      else if i = p ∨ j = p then
        insertWithoutData items (g.addEdge .centralRelation (sourceId, destId))
      else some g
    | _, _ => some g
  | .node properties :: _, g =>
    match properties.join with
    | some id => do
      let i ← homeOf n id
      let _ ← homeOf n dummyId
      if i = p then some (g.addNode id) else some g
    | none => some g

/-- A row binds variables of the pattern to nodes. -/
abbrev CreateRow := List UInt8 → Option VertexId

def CreateEnd.resolve (row : CreateRow) (e : CreateEnd) : Option (Option VertexId) :=
  match e.var with
  | some v =>
    match row v with
    | some id => some (some id)
    | none => some e.properties.join
  | none =>
    match e.properties with
    -- the id that is missing is read
    | some none => none
    | _ => some (some [])

inductive CreateMessage where
  | edge (pid : Fin n) (kind : RelationKind) (edge : VertexId × VertexId)
  | node (pid : Fin n) (id : VertexId)

variable {n}

/-- The partitions that partition `p` sends an edge to. -/
def edgeReceivers (i j : Fin n) : List (Fin n) :=
  if i = j ∧ i = p then [] else if i = p then [j] else if j = p then [i] else
    if i = j then [i] else [i, j]

/-- `insertFromData` on partition `p`: its store and what it publishes. -/
def insertFromData (row : CreateRow) : List CreateItem → Log → Option (Log × List (CreateMessage n))
  | [], g => some (g, [])
  | .relationship source dest :: items, g => do
    match ← source.resolve row with
    | none => some (g, [])
    | some sourceId =>
      match ← dest.resolve row with
      | none => some (g, [])
      | some destId =>
        let i ← homeOf n sourceId
        let j ← homeOf n destId
        let kind := relationKind i j
        let g := if i = p ∨ j = p then g.addEdge kind (sourceId, destId) else g
        let (g, messages) ← insertFromData row items g
        some (g, (edgeReceivers p i j).map (.edge · kind (sourceId, destId)) ++ messages)
  | .node properties :: _, g =>
    match properties.join with
    | some id => do
      let i ← homeOf n id
      let _ ← homeOf n dummyId
      if i = p then some (g.addNode id, []) else some (g, [.node i id])
    | none => some (g, [])

def CreateMessage.deliver (stores : Fin n → Log) : CreateMessage n → Option (Fin n → Log)
  | .edge pid kind e => some (update stores pid ((stores pid).addEdge kind e))
  | .node _ _ => none

/-- `insertFromData` on partition `p`, and its messages applied. -/
def createFromData (row : CreateRow) (items : List CreateItem) (stores : Fin n → Log) :
    Option (Fin n → Log) := do
  let (g, messages) ← insertFromData p row items (stores p)
  messages.foldlM CreateMessage.deliver (update stores p g)

end Loops

/-! ## What is listed -/

/-- A listed element with the partitions of its nodes. `named` says that no end of a relationship is
without a variable. -/
inductive Listed (n : Nat) where
  | node (id : VertexId) (home : Fin n)
  | relationship (edge : VertexId × VertexId) (source dest : Fin n) (named : Bool)
deriving DecidableEq

def CreateEnd.node (row : CreateRow) (e : CreateEnd) : Option VertexId :=
  (e.var.bind row).or e.properties.join

def CreateItem.listed (n : Nat) (row : CreateRow) : CreateItem → Option (Listed n)
  | .node properties => do
    let id ← properties.join
    some (.node id (← homeOf n id))
  | .relationship source dest => do
    let s ← source.node row
    let d ← dest.node row
    some (.relationship (s, d) (← homeOf n s) (← homeOf n d) (source.var.isSome ∧ dest.var.isSome))

variable {n : Nat}

namespace Listed

def isRelationship : Listed n → Bool
  | .node _ _ => false
  | .relationship _ _ _ _ => true

/-- The partitions that the element belongs to. -/
def Touches (q : Fin n) : Listed n → Prop
  | .node _ home => home = q
  | .relationship _ source dest _ => source = q ∨ dest = q

instance (q : Fin n) : DecidablePred (Touches q) := fun
  | .node _ home => inferInstanceAs (Decidable (home = q))
  | .relationship _ source dest _ => inferInstanceAs (Decidable (source = q ∨ dest = q))

def store (g : Log) : Listed n → Log
  | .node id _ => g.addNode id
  | .relationship edge source dest _ => g.addEdge (relationKind source dest) edge

/-- Where `y` is stored, so is `x`: it is the same edge, or a node of `y`. -/
def Covers (y : Listed n) : Listed n → Prop
  | .node id _ =>
    match y with
    | .node id' _ => id' = id
    | .relationship edge _ _ _ => edge.1 = id ∨ edge.2 = id
  | .relationship edge _ _ _ =>
    match y with
    | .node _ _ => False
    | .relationship edge' _ _ _ => edge' = edge

def Homed : Listed n → Prop
  | .node id home => homeOf n id = some home
  | .relationship edge source dest _ =>
    homeOf n edge.1 = some source ∧ homeOf n edge.2 = some dest

end Listed

/-- Before `y` there are relationships only, and they satisfy `P`. -/
def Reached (P : Listed n → Prop) (listed : List (Listed n)) (y : Listed n) : Prop :=
  ∃ before after, listed = before ++ y :: after ∧ ∀ z ∈ before, z.isRelationship = true ∧ P z

/-- Every element is where it belongs, and an edge nowhere else. -/
def Created (listed : List (Listed n)) (stores : Fin n → Log) : Prop :=
  ∀ x ∈ listed, match x with
    | .node id home => id ∈ (stores home).ids
    | .relationship edge source dest _ => ∀ q k,
        edge ∈ (stores q).edges k ↔ k = relationKind source dest ∧ (source = q ∨ dest = q)

/-- Every edge is in the partitions of its ends, under the right kind. -/
def WellPlaced (stores : Fin n → Log) : Prop :=
  ∀ q k, ∀ e ∈ (stores q).edges k, ∃ i j, homeOf n e.1 = some i ∧ homeOf n e.2 = some j ∧
    k = relationKind i j ∧ (i = q ∨ j = q)

/-! ## Stores that take a list of elements -/

variable {y : Listed n} {P : Listed n → Prop} {x : Listed n}

section Stores

variable {g : Log} {k : RelationKind} {e : VertexId × VertexId} {id : VertexId}

theorem mem_edges_store : e ∈ (y.store g).edges k ↔ e ∈ g.edges k ∨
    ∃ i j b, y = .relationship e i j b ∧ k = relationKind i j := by
  cases y with
  | node id home => simp [Listed.store, Log.addNode]
  | relationship edge i j b =>
    by_cases hk : k = relationKind i j
    · subst hk
      rw [Listed.store, Log.edges_addEdge, mem_append, mem_singleton]
      refine or_congr_right ⟨fun h => ⟨i, j, b, h ▸ rfl, rfl⟩, ?_⟩
      rintro ⟨_, _, _, h, -⟩
      cases h
      rfl
    · rw [Listed.store, Log.edges_addEdge_of_ne hk]
      refine (or_iff_left ?_).symm
      rintro ⟨_, _, _, h, hk'⟩
      cases h
      exact hk hk'

theorem mem_ids_store (home : Fin n) :
    id ∈ (y.store g).ids ↔ id ∈ g.ids ∨ y.Covers (.node id home) := by
  cases y with
  | node id' home' =>
    rw [Listed.store, Log.mem_addNode, Listed.Covers, or_comm, eq_comm]
  | relationship edge i j b =>
    have hids : (g.addEdge (relationKind i j) edge).ids = ((g.addNode edge.1).addNode edge.2).ids :=
      rfl
    rw [Listed.store, hids, Log.mem_addNode, Log.mem_addNode, Listed.Covers]
    tauto

theorem mem_edges_foldl {l : List (Listed n)} : e ∈ (l.foldl Listed.store g).edges k ↔
    e ∈ g.edges k ∨ ∃ i j b, .relationship e i j b ∈ l ∧ k = relationKind i j := by
  induction l generalizing g with
  | nil => simp
  | cons y l ih =>
    rw [foldl_cons, ih, mem_edges_store, or_assoc]
    simp only [mem_cons, or_and_right, exists_or, eq_comm]

theorem mem_ids_foldl {l : List (Listed n)} (home : Fin n) : id ∈ (l.foldl Listed.store g).ids ↔
    id ∈ g.ids ∨ ∃ y ∈ l, y.Covers (.node id home) := by
  induction l generalizing g with
  | nil => simp
  | cons y l ih =>
    rw [foldl_cons, ih, mem_ids_store home, or_assoc]
    simp only [mem_cons, exists_eq_or_imp]

/-- **When a distribution of the listed elements stores all of them**, into whatever stores: every
element is covered in each of its partitions. -/
theorem created_iff {listed : List (Listed n)} (hhomed : ∀ x ∈ listed, x.Homed)
    {lists : Fin n → List (Listed n)}
    (hlists : ∀ q, ∀ y ∈ lists q, y ∈ listed ∧ y.Touches q) :
    (∀ stores, WellPlaced stores →
        Created listed fun q => (lists q).foldl Listed.store (stores q)) ↔
      ∀ x ∈ listed, ∀ q, x.Touches q → ∃ y ∈ lists q, y.Covers x := by
  constructor
  · -- the empty stores are the hardest ones
    intro h x hx q hq
    have hx' := h (fun _ => Log.empty) (fun _ _ _ he => absurd he not_mem_nil) x hx
    cases x with
    | node id home =>
      obtain rfl : home = q := hq
      exact ((mem_ids_foldl home).1 hx').resolve_left not_mem_nil
    | relationship edge i j b =>
      obtain ⟨i', j', b', hmem, -⟩ :=
        (mem_edges_foldl.1 ((hx' q _).2 ⟨rfl, hq⟩)).resolve_left not_mem_nil
      exact ⟨_, hmem, rfl⟩
  · intro h stores hstores x hx
    cases x with
    | node id home => exact (mem_ids_foldl home).2 (.inr (h _ hx home rfl))
    | relationship edge i j b =>
      obtain ⟨hi, hj⟩ := hhomed _ hx
      intro q k
      rw [mem_edges_foldl]
      constructor
      · rintro (he | ⟨i', j', b', hmem, rfl⟩)
        · obtain ⟨i', j', hi', hj', rfl, hq⟩ := hstores q k edge he
          cases hi.symm.trans hi'
          cases hj.symm.trans hj'
          exact ⟨rfl, hq⟩
        · obtain ⟨hlisted, hq⟩ := hlists q _ hmem
          obtain ⟨hi', hj'⟩ := hhomed _ hlisted
          cases hi.symm.trans hi'
          cases hj.symm.trans hj'
          exact ⟨rfl, hq⟩
      · rintro ⟨rfl, hq⟩
        obtain ⟨y, hy, hcovers⟩ := h _ hx q hq
        cases y with
        | node => exact hcovers.elim
        | relationship edge' i' j' b' =>
          obtain rfl : edge' = edge := hcovers
          obtain ⟨hi', hj'⟩ := hhomed _ (hlists q _ hy).1
          cases hi.symm.trans hi'
          cases hj.symm.trans hj'
          exact .inr ⟨_, _, _, hy, rfl⟩

end Stores

/-! ## What the loops store -/

def reached (P : Listed n → Prop) [DecidablePred P] : List (Listed n) → List (Listed n)
  | [] => []
  | x :: l => if x.isRelationship = true ∧ P x then x :: reached P l else [x]

theorem mem_reached [DecidablePred P] {l : List (Listed n)} : y ∈ reached P l ↔ Reached P l y := by
  induction l with
  | nil => exact ⟨nofun, fun ⟨before, after, h, _⟩ => absurd h.symm (by simp)⟩
  | cons x l ih =>
    have hhead : Reached P (x :: l) x := ⟨[], l, rfl, nofun⟩
    rw [reached]
    split_ifs with hx
    · rw [mem_cons, ih]
      constructor
      · rintro (rfl | ⟨before, after, rfl, hbefore⟩)
        · exact hhead
        · exact ⟨x :: before, after, rfl, forall_mem_cons.2 ⟨hx, hbefore⟩⟩
      · rintro ⟨_ | ⟨z, before⟩, after, h, hbefore⟩
        · exact .inl (List.cons.inj h).1.symm
        · exact .inr ⟨before, after, (List.cons.inj h).2, (forall_mem_cons.1 hbefore).2⟩
    · rw [mem_singleton]
      constructor
      · rintro rfl
        exact hhead
      · rintro ⟨_ | ⟨z, before⟩, after, h, hbefore⟩
        · exact (List.cons.inj h).1.symm
        · obtain rfl := (List.cons.inj h).1
          exact absurd (hbefore x mem_cons_self) hx

def taken (P : Listed n → Prop) [DecidablePred P] (q : Fin n) (l : List (Listed n)) :
    List (Listed n) := (reached P l).filter (Listed.Touches q)

theorem mem_taken [DecidablePred P] {q : Fin n} {l : List (Listed n)} :
    y ∈ taken P q l ↔ Reached P l y ∧ y.Touches q := by
  rw [taken, mem_filter, mem_reached, decide_eq_true_eq]

theorem taken_mem [DecidablePred P] {q : Fin n} {l : List (Listed n)} (hy : y ∈ taken P q l) :
    y ∈ l ∧ y.Touches q := by
  obtain ⟨⟨before, after, rfl, -⟩, hq⟩ := mem_taken.1 hy
  exact ⟨by simp, hq⟩

theorem listed_node {row : CreateRow} {properties : Option (Option VertexId)}
    (h : (CreateItem.node properties).listed n row = some x) :
    ∃ id i, properties.join = some id ∧ homeOf n id = some i ∧ x = .node id i := by
  obtain ⟨id, hid, h⟩ := bind_eq_some_iff.1 h
  obtain ⟨i, hi, h⟩ := bind_eq_some_iff.1 h
  exact ⟨id, i, hid, hi, (some.inj h).symm⟩

theorem listed_relationship {row : CreateRow} {source dest : CreateEnd}
    (h : (CreateItem.relationship source dest).listed n row = some x) :
    ∃ s d i j, source.node row = some s ∧ dest.node row = some d ∧ homeOf n s = some i ∧
      homeOf n d = some j ∧ x = .relationship (s, d) i j (source.var.isSome ∧ dest.var.isSome) := by
  obtain ⟨s, hs, h⟩ := bind_eq_some_iff.1 h
  obtain ⟨d, hd, h⟩ := bind_eq_some_iff.1 h
  obtain ⟨i, hi, h⟩ := bind_eq_some_iff.1 h
  obtain ⟨j, hj, h⟩ := bind_eq_some_iff.1 h
  exact ⟨s, d, i, j, hs, hd, hi, hj, (some.inj h).symm⟩

theorem listed_homed {row : CreateRow} {item : CreateItem} (h : item.listed n row = some x) :
    x.Homed := by
  cases item with
  | node properties =>
    obtain ⟨id, i, -, hi, rfl⟩ := listed_node h
    exact hi
  | relationship source dest =>
    obtain ⟨s, d, i, j, -, -, hi, hj, rfl⟩ := listed_relationship h
    exact ⟨hi, hj⟩

theorem homeOf_dummyId (p : Fin n) : homeOf n dummyId = some ⟨0, p.pos⟩ := by
  have hnumber : stoi dummyId = some 0 := by decide +kernel
  simp [homeOf, hnumber, p.pos]

variable {items : List CreateItem} {l : List (Listed n)} {p : Fin n} {g : Log}

/-- A partition stores its own elements up to the first node or foreign relationship. -/
theorem insertWithoutData_eq (h : items.mapM (CreateItem.listed n fun _ => none) = some l) :
    insertWithoutData n p items g = some ((taken (Listed.Touches p) p l).foldl Listed.store g) := by
  induction items generalizing l g with
  | nil =>
    cases h
    rfl
  | cons item items ih =>
    obtain ⟨x, l, hx, hl, rfl⟩ := mapM_cons_eq_some.1 h
    cases item with
    | node properties =>
      obtain ⟨id, i, hid, hi, rfl⟩ := listed_node hx
      simp only [insertWithoutData, hid, hi, homeOf_dummyId p]
      by_cases hp : i = p
      · simp [taken, reached, Listed.isRelationship, Listed.Touches, Listed.store, hp]
      · simp [taken, reached, Listed.Touches, hp]
    | relationship source dest =>
      obtain ⟨s, d, i, j, hs, hd, hi, hj, rfl⟩ := listed_relationship hx
      have hnone : ∀ e : CreateEnd, e.node (fun _ => none) = e.properties.join := fun e => by
        cases hvar : e.var <;> simp [CreateEnd.node]
      rw [hnone] at hs hd
      simp only [insertWithoutData, hs, hd, hi, hj, bind_eq_bind, bind_some]
      by_cases hp : i = p ∨ j = p
      · have hstep : ∀ b, taken (Listed.Touches p) p (.relationship (s, d) i j b :: l) =
            .relationship (s, d) i j b :: taken (Listed.Touches p) p l := fun b => by
          simp [taken, reached, Listed.isRelationship, Listed.Touches, hp]
        rw [hstep]
        by_cases hij : i = j
        · rw [if_pos ⟨hij, hp.elim id (hij.trans ·)⟩, ih hl]
          simp [Listed.store, relationKind, hij]
        · rw [if_neg fun h => hij h.1, if_pos hp, ih hl]
          simp [Listed.store, relationKind, hij]
      · rw [if_neg fun h => hp (.inl h.2)]
        simp [taken, reached, Listed.Touches, hp]

/-! ## What the row's partition stores and sends -/

/-- `insertFromData` on `p` gets through with the element: the node is its own, the ends of the
relationship have variables. -/
def Listed.Sent (p : Fin n) : Listed n → Prop
  | .node _ home => home = p
  | .relationship _ _ _ named => named = true

def storeAll (x : Listed n) (stores : Fin n → Log) (q : Fin n) : Log :=
  if x.Touches q then x.store (stores q) else stores q

theorem deliver_edgeReceivers (stores : Fin n → Log) (e : VertexId × VertexId) (i j : Fin n)
    (named : Bool) (g : Log) :
    ((edgeReceivers p i j).map (.edge · (relationKind i j) e)).foldlM CreateMessage.deliver
        (update stores p g) =
      some (update (storeAll (.relationship e i j named) stores) p g) := by
  have hone : ∀ (r : Fin n) (s : Fin n → Log),
      CreateMessage.deliver s (.edge r (relationKind i j) e) =
        some (update s r ((s r).addEdge (relationKind i j) e)) := fun _ _ => rfl
  unfold edgeReceivers
  split_ifs <;>
    simp only [map_nil, map_cons, foldlM_nil, foldlM_cons, hone,
      Option.pure_def, bind_eq_bind, bind_some, some.injEq] <;>
    funext q <;>
    simp only [update_apply, storeAll, Listed.Touches, Listed.store] <;>
    grind

theorem homeOf_nil : homeOf n [] = none := by
  have hnumber : stoi [] = none := by decide +kernel
  simp [homeOf, hnumber]

theorem resolve_named {row : CreateRow} {e : CreateEnd} {id : VertexId}
    (hnode : e.node row = some id) (hvar : e.var.isSome = true) : e.resolve row = some (some id) := by
  obtain ⟨v, hv⟩ := isSome_iff_exists.1 hvar
  cases hrow : row v with
  | some id' =>
    simp only [CreateEnd.node, hv, bind_some, hrow, some_or] at hnode
    simp only [CreateEnd.resolve, hv, hrow, hnode]
  | none =>
    simp only [CreateEnd.node, hv, bind_some, hrow, none_or] at hnode
    simp only [CreateEnd.resolve, hv, hrow, hnode]

theorem resolve_anonymous {row : CreateRow} {e : CreateEnd} {id : VertexId}
    (hnode : e.node row = some id) (hvar : e.var.isSome = false) : e.resolve row = some (some []) := by
  rw [isSome_eq_false_iff, isNone_iff_eq_none] at hvar
  have hproperties : e.properties = some (some id) := by
    simpa [CreateEnd.node, hvar, join_eq_some_iff] using hnode
  simp only [CreateEnd.resolve, hvar, hproperties]

variable {row : CreateRow} {source dest : CreateEnd} {s d : VertexId} {i j : Fin n}
  {stores : Fin n → Log}

theorem createFromData_named (hs : source.node row = some s) (hd : dest.node row = some d)
    (hi : homeOf n s = some i) (hj : homeOf n d = some j)
    (hnamed : source.var.isSome = true ∧ dest.var.isSome = true) (named : Bool) :
    createFromData p row (.relationship source dest :: items) stores =
      createFromData p row items (storeAll (.relationship (s, d) i j named) stores) := by
  have hown : storeAll (.relationship (s, d) i j named) stores p =
      if i = p ∨ j = p then (stores p).addEdge (relationKind i j) (s, d) else stores p := rfl
  simp only [createFromData, insertFromData, resolve_named hs hnamed.1, resolve_named hd hnamed.2, hi,
    hj, bind_eq_bind, bind_some, ← hown]
  cases insertFromData p row items (storeAll (.relationship (s, d) i j named) stores p) with
  | none => rfl
  | some r =>
    simp only [bind_some, foldlM_append]
    rw [deliver_edgeReceivers stores (s, d) i j named r.1]
    rfl

theorem createFromData_anonymous (hs : source.node row = some s) (hd : dest.node row = some d)
    (hanonymous : ¬ (source.var.isSome = true ∧ dest.var.isSome = true)) :
    createFromData p row (.relationship source dest :: items) stores = none := by
  cases hsource : source.var.isSome with
  | false =>
    obtain ⟨d', hd'⟩ : ∃ d', dest.resolve row = some (some d') := by
      cases hdest : dest.var.isSome with
      | false => exact ⟨_, resolve_anonymous hd hdest⟩
      | true => exact ⟨_, resolve_named hd hdest⟩
    simp [createFromData, insertFromData, resolve_anonymous hs hsource, hd', homeOf_nil]
  | true =>
    have hdest : dest.var.isSome = false := by simpa [hsource] using hanonymous
    simp [createFromData, insertFromData, resolve_named hs hsource, resolve_anonymous hd hdest,
      homeOf_nil]

/-- The partition gets through exactly if it does so with every element up to the first node. -/
theorem createFromData_spec (h : items.mapM (CreateItem.listed n row) = some l) :
    ((∀ y ∈ reached (fun _ => True) l, y.Sent p) → createFromData p row items stores =
        some fun q => (taken (fun _ => True) q l).foldl Listed.store (stores q)) ∧
      (¬ (∀ y ∈ reached (fun _ => True) l, y.Sent p) → createFromData p row items stores = none) := by
  induction items generalizing l stores with
  | nil =>
    cases h
    exact ⟨fun _ => congrArg some (update_eq_self p stores), fun h => absurd nofun h⟩
  | cons item items ih =>
    obtain ⟨x, l, hx, hl, rfl⟩ := mapM_cons_eq_some.1 h
    cases item with
    | node properties =>
      obtain ⟨id, i, hid, hi, rfl⟩ := listed_node hx
      have hreached : reached (fun _ => True) (.node id i :: l) = [.node id i] := by
        simp [reached, Listed.isRelationship]
      simp only [createFromData, insertFromData, hid, hi, homeOf_dummyId p, bind_eq_bind,
        bind_some, hreached, mem_singleton, forall_eq, Listed.Sent, taken]
      refine ⟨fun hp => ?_, fun hp => ?_⟩
      · rw [if_pos hp]
        refine congrArg some (funext fun q => ?_)
        by_cases hq : q = p
        · subst hq
          simp [Listed.Touches, Listed.store, hp]
        · simp [Listed.Touches, hp, update_of_ne hq, Ne.symm hq]
      · rw [if_neg hp]
        rfl
    | relationship source dest =>
      obtain ⟨s, d, i, j, hs, hd, hi, hj, rfl⟩ := listed_relationship hx
      have hreached : ∀ x : Listed n, x.isRelationship = true →
          reached (fun _ => True) (x :: l) = x :: reached (fun _ => True) l := fun x hx => by
        simp [reached, hx]
      rw [hreached _ rfl, forall_mem_cons]
      by_cases hnamed : source.var.isSome = true ∧ dest.var.isSome = true
      · rw [decide_eq_true hnamed,
          and_iff_right (show Listed.Sent p (.relationship (s, d) i j true) from rfl),
          createFromData_named hs hd hi hj hnamed true]
        refine ⟨fun hall => ((ih hl).1 hall).trans (congrArg some (funext fun q => ?_)), (ih hl).2⟩
        rw [taken, taken, hreached _ rfl, filter_cons]
        by_cases hq : Listed.Touches q (.relationship (s, d) i j true)
        · rw [if_pos (decide_eq_true hq), foldl_cons, storeAll, if_pos hq]
        · rw [if_neg (decide_eq_false hq ▸ Bool.false_ne_true), storeAll, if_neg hq]
      · refine ⟨fun hall => absurd (of_decide_eq_true hall.1) hnamed, fun _ => ?_⟩
        exact createFromData_anonymous hs hd hnamed

/-! ## The theorem -/

/-- Every element, or one that covers it, is reached in each of its partitions. -/
def CoveredBy (P : Fin n → Listed n → Prop) (l : List (Listed n)) : Prop :=
  ∀ x ∈ l, ∀ q, x.Touches q → ∃ y, (Reached (P q) l y ∧ y.Touches q) ∧ y.Covers x

theorem created_taken_iff {P : Fin n → Listed n → Prop} [∀ q, DecidablePred (P q)]
    (h : items.mapM (CreateItem.listed n row) = some l) :
    (∀ stores, WellPlaced stores →
        Created l fun q => (taken (P q) q l).foldl Listed.store (stores q)) ↔ CoveredBy P l := by
  have hhomed : ∀ x ∈ l, x.Homed := fun x hx => by
    rw [mapM_eq_some_iff] at h
    obtain ⟨item, -, hitem⟩ := mem_map.1 (h ▸ mem_map_of_mem hx)
    exact listed_homed hitem
  rw [created_iff hhomed fun q y hy => taken_mem hy]
  simp only [mem_taken, CoveredBy]

/-- **CREATE stores every element where it belongs**, and no relationship anywhere else:

* without an input if and only if every element, or one that covers it, has only relationships with
  an end in its own partition before it, for each of its partitions;
* with a row on partition `p` if and only if up to the first node all ends have variables, that node
  belongs to `p`, and every later element is covered by an earlier one. -/
theorem create_places_iff (elements : List CreateElement) :
    (∀ l, (elements.flatMap CreateElement.items).mapM (CreateItem.listed n fun _ => none) = some l →
      ((∀ stores, WellPlaced stores → ∃ stores',
          (∀ q, insertWithoutData n q (elements.flatMap CreateElement.items) (stores q) =
            some (stores' q)) ∧ Created l stores') ↔
        CoveredBy Listed.Touches l)) ∧
    ∀ (p : Fin n) (row : CreateRow) (l : List (Listed n)),
      (elements.flatMap CreateElement.items).mapM (CreateItem.listed n row) = some l →
      ((∀ stores, WellPlaced stores → ∃ stores',
          createFromData p row (elements.flatMap CreateElement.items) stores = some stores' ∧
            Created l stores') ↔
        (∀ y, Reached (fun _ => True) l y → y.Sent p) ∧ CoveredBy (fun _ _ => True) l) := by
  refine ⟨fun l hl => ?_, fun p row l hl => ?_⟩
  · rw [← created_taken_iff hl]
    refine forall_congr' fun stores => forall_congr' fun _ => ⟨?_, fun h => ⟨_, fun q => ?_, h⟩⟩
    · rintro ⟨stores', hstores, h⟩
      have heq : stores' = _ :=
        funext fun q => some.inj ((hstores q).symm.trans (insertWithoutData_eq hl))
      exact heq ▸ h
    · exact insertWithoutData_eq hl
  · rw [← created_taken_iff hl]
    simp only [← mem_reached]
    by_cases hsent : ∀ y ∈ reached (fun _ => True) l, y.Sent p
    · rw [and_iff_right hsent]
      refine forall_congr' fun stores => forall_congr' fun _ => ?_
      rw [(createFromData_spec hl).1 hsent]
      exact ⟨fun ⟨_, hstores, h⟩ => some.inj hstores ▸ h, fun h => ⟨_, rfl, h⟩⟩
    · refine iff_of_false (fun h => ?_) fun h => hsent h.1
      obtain ⟨stores', hstores, -⟩ := h (fun _ => Log.empty) fun _ _ _ he => absurd he not_mem_nil
      rw [(createFromData_spec hl).2 hsent] at hstores
      cases hstores

/-- `CREATE (a {id: "1"})-[:R]->(b {id: "2"}), (c {id: "3"})-[:R]->(d {id: "5"})`. -/
def twoRelationships : List CreateElement :=
  [.relationships [(⟨some (ascii "a"), some (some (ascii "1"))⟩,
      ⟨some (ascii "b"), some (some (ascii "2"))⟩)],
    .relationships [(⟨some (ascii "c"), some (some (ascii "3"))⟩,
      ⟨some (ascii "d"), some (some (ascii "5"))⟩)]]

/-- The first relationship is cut between two partitions, the second lies in partition 1. -/
def cutAndLocal : List (Listed 2) :=
  let first : Fin 2 := ⟨0, Nat.two_pos⟩
  let second : Fin 2 := ⟨1, Nat.one_lt_two⟩
  [.relationship (ascii "1", ascii "2") second first true,
    .relationship (ascii "3", ascii "5") second second true]

theorem twoRelationships_placed : (∀ stores : Fin 2 → Log, WellPlaced stores → ∃ stores',
      (∀ q, insertWithoutData 2 q (twoRelationships.flatMap CreateElement.items) (stores q) =
        some (stores' q)) ∧ Created cutAndLocal stores') ∧
    ∀ stores : Fin 2 → Log, WellPlaced stores → ∃ stores',
      createFromData 0 (fun _ => none) (twoRelationships.flatMap CreateElement.items) stores =
        some stores' ∧ Created cutAndLocal stores' := by
  have hlisted : (twoRelationships.flatMap CreateElement.items).mapM
      (CreateItem.listed 2 fun _ => none) = some cutAndLocal := by decide +kernel
  have hcovered : ∀ P : Fin 2 → Listed 2 → Prop,
      P 1 (.relationship (ascii "1", ascii "2") 1 0 true) → CoveredBy P cutAndLocal := by
    intro P hfirst x hx q hq
    rcases mem_pair.1 hx with rfl | rfl
    · exact ⟨_, ⟨⟨[], _, rfl, nofun⟩, hq⟩, rfl⟩
    · obtain rfl : 1 = q := hq.elim id id
      refine ⟨_, ⟨⟨[_], [], rfl, fun z hz => ?_⟩, hq⟩, rfl⟩
      obtain rfl := mem_singleton.1 hz
      exact ⟨rfl, hfirst⟩
  refine ⟨((create_places_iff twoRelationships).1 _ hlisted).2 (hcovered _ (.inl rfl)),
    ((create_places_iff twoRelationships).2 0 _ _ hlisted).2
      ⟨fun y hy => ?_, hcovered _ trivial⟩⟩
  obtain ⟨before, after, hsplit, -⟩ := hy
  have hmem : y ∈ cutAndLocal := hsplit ▸ mem_append_right before mem_cons_self
  rcases mem_pair.1 hmem with rfl | rfl <;> rfl

/-- `CREATE ({id: "0"}), ({id: "1"})` on two partitions. Partition 1, where the second node belongs,
returns at the first one. With a row on partition 0 the second node is not reached; as the only one
it is sent to partition 1, whose worker terminates. -/
theorem twoNodes_lost : homeOf 2 (ascii "1") = some 1 ∧
    (insertWithoutData 2 1 [.node (some (some (ascii "0"))), .node (some (some (ascii "1")))]
      Log.empty).map (·.ids) = some [] ∧
    (createFromData (0 : Fin 2) (fun _ => none)
      [.node (some (some (ascii "0"))), .node (some (some (ascii "1")))]
      fun _ => Log.empty).map (fun stores => (stores 1).ids) = some [] ∧
    (createFromData (0 : Fin 2) (fun _ => none) [.node (some (some (ascii "1")))]
      fun _ => Log.empty).isNone := by
  decide +kernel

end JasmineGraph.Cypher
