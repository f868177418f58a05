import JasmineGraph.AdjacencyMap
import JasmineGraph.Bytes.Text
import JasmineGraph.Graph.Triangle

/-!
# `Triangles::countTriangles`

The model of `Triangles::countTriangles` (`query/algorithms/triangles/Triangles.cpp`). A first
loop groups the vertices by recorded degree and leaves out those of degree 1 (`degreeMap`). Then,
by ascending degree and vertex id, a vertex `temp` is joined with its out-neighbours `u` and theirs
`nu`; where `nu` and `temp` are adjacent in either direction the triple is sorted by XOR swaps
(`sortTriple`), looked up in a tree of the triples met so far and, when new, counted and written to
a stream (`LoopState.record`).

What a loop body does is one statement, `Adds`: it extends the list of recorded triples by those of
a set, each once. It composes over the nested loops, for every map, every distribution and every
iteration order of the sets.
-/

namespace JasmineGraph.Triangles

open Bytes JasmineGraph.Graph List Std.TreeMap

/-- `map<long, long>`, a degree (non-negative) for each vertex. -/
abbrev Distribution := Std.TreeMap Long Nat

/-- `TriangleResult`; `count` is `none` where the code leaves it uninitialised. -/
structure TriangleResult where
  triangles : List UInt8
  count : Option Nat
deriving DecidableEq

def degreeMap (distributionMap : Distribution) : Std.TreeMap Nat (Std.TreeSet Long) :=
  distributionMap.foldl
    (fun m startVertexId degree =>
      if degree = 1 then m else m.insert degree ((m.getD degree ∅).insert startVertexId))
    ∅

structure LoopState where
  triangleTree : Std.TreeMap Long (Std.TreeMap Long (Std.TreeSet Long))
  triangleCount : Nat
  triangleStream : List UInt8

def LoopState.init : LoopState := ⟨∅, 0, []⟩

/-- `varOne`, `varTwo`, `varThree` after the three conditional XOR swaps. -/
def sortTriple (temp u nu : Long) : Long × Long × Long :=
  let (varOne, varTwo) := if temp > u then xorSwap temp u else (temp, u)
  let (varOne, varThree) := if varOne > nu then xorSwap varOne nu else (varOne, nu)
  let (varTwo, varThree) :=
    if varTwo > varThree then xorSwap varTwo varThree else (varTwo, varThree)
  (varOne, varTwo, varThree)

/-- `triangleStream << varOne << "," << varTwo << "," << varThree << ":"`. -/
def renderTriangle (x : Long × Long × Long) : List UInt8 :=
  decimalInt x.1.toInt ++ ascii "," ++ decimalInt x.2.1.toInt ++ ascii "," ++
    decimalInt x.2.2.toInt ++ ascii ":"

/-- Look the sorted triple up in the tree; a new one is inserted, counted and written. -/
def LoopState.record (returnTriangles : Bool) (st : LoopState) (x : Long × Long × Long) :
    LoopState :=
  let (varOne, varTwo, varThree) := x
  let itemRes := st.triangleTree.getD varOne ∅
  let add (set2 : Std.TreeSet Long) : LoopState :=
    { triangleTree := st.triangleTree.insert varOne (itemRes.insert varTwo (set2.insert varThree))
      triangleCount := st.triangleCount + 1
      triangleStream :=
        if returnTriangles then st.triangleStream ++ renderTriangle x else st.triangleStream }
  match itemRes[varTwo]? with
  | some set2 => if varThree ∈ set2 then st else add set2
  | none => add ∅

def visitNu (returnTriangles : Bool) (centralStore : AdjacencyMap) (temp u : Long)
    (st : LoopState) (nu : Long) : LoopState :=
  if temp = nu then st
  else if u = nu then st
  else if nu ∈ centralStore.row temp ∨ temp ∈ centralStore.row nu then
    st.record returnTriangles (sortTriple temp u nu)
  else st

def visitU (returnTriangles : Bool) (centralStore : AdjacencyMap) (temp : Long)
    (st : LoopState) (u : Long) : LoopState :=
  if temp = u then st
  else (centralStore.row u).elems.foldl (visitNu returnTriangles centralStore temp u) st

def visitVertex (returnTriangles : Bool) (centralStore : AdjacencyMap) (st : LoopState)
    (temp : Long) : LoopState :=
  (centralStore.row temp).elems.foldl (visitU returnTriangles centralStore temp) st

/-- The detection loop, by ascending degree and vertex id. -/
def detectTriangles (centralStore : AdjacencyMap) (distributionMap : Distribution)
    (returnTriangles : Bool) : LoopState :=
  (degreeMap distributionMap).foldl
    (fun st _ vertices => vertices.foldl (visitVertex returnTriangles centralStore) st) .init

def countTriangles (centralStore : AdjacencyMap) (distributionMap : Distribution)
    (returnTriangles : Bool) : TriangleResult :=
  let st := detectTriangles centralStore distributionMap returnTriangles
  if returnTriangles then
    { triangles := if st.triangleStream = [] then ascii "NILL" else st.triangleStream.dropLast
      count := none }
  else { triangles := [], count := some st.triangleCount }

/-! ## The sorted triple -/

theorem sortTriple_eq (temp u nu : Long) : sortTriple temp u nu = sort3 temp u nu := by
  simp only [sortTriple, sort3, xorSwap_eq, gt_iff_lt]

/-! ## The vertices visited -/

def Visited (distributionMap : Distribution) (v : Long) : Prop :=
  ∃ degree, distributionMap[v]? = some degree ∧ degree ≠ 1

theorem mem_degreeMap_foldl (v : Long) : ∀ (l : List (Long × Nat))
    (m : Std.TreeMap Nat (Std.TreeSet Long)),
    (∃ d, v ∈ (l.foldl (fun m e => if e.2 = 1 then m
        else m.insert e.2 ((m.getD e.2 ∅).insert e.1)) m).getD d ∅) ↔
      (∃ d, v ∈ m.getD d ∅) ∨ ∃ d, (v, d) ∈ l ∧ d ≠ 1
  | [], m => by simp
  | (w, d) :: l, m => by
    have hcons : (∃ e, (v, e) ∈ (w, d) :: l ∧ e ≠ 1) ↔
        (v = w ∧ d ≠ 1) ∨ ∃ e, (v, e) ∈ l ∧ e ≠ 1 := by
      simp [or_and_right, exists_or, and_assoc]
    rw [foldl_cons, mem_degreeMap_foldl v l, hcons]
    by_cases hd : d = 1
    · simp [hd]
    · have hstep : (∃ e, v ∈ (m.insert d ((m.getD d ∅).insert w)).getD e ∅) ↔
          (∃ e, v ∈ m.getD e ∅) ∨ v = w := by
        simp only [getD_insert, Std.compare_eq_iff_eq]
        constructor
        · rintro ⟨e, he⟩
          split_ifs at he with hde
          · rcases Std.TreeSet.mem_insert.1 he with h | h
            · exact .inr (Std.compare_eq_iff_eq.1 h).symm
            · exact .inl ⟨d, h⟩
          · exact .inl ⟨e, he⟩
        · rintro (⟨e, he⟩ | rfl)
          · refine ⟨e, ?_⟩
            split_ifs with hde
            · exact Std.TreeSet.mem_insert.2 (.inr (hde ▸ he))
            · exact he
          · exact ⟨d, by simp⟩
      rw [if_neg hd, hstep, or_assoc, and_iff_left hd]

theorem exists_mem_degreeMap (distributionMap : Distribution) (v : Long) :
    (∃ d, v ∈ (degreeMap distributionMap).getD d ∅) ↔ Visited distributionMap v := by
  unfold degreeMap Visited
  rw [foldl_eq_foldl_toList, mem_degreeMap_foldl]
  simp [Std.TreeMap.mem_toList_iff_getElem?_eq_some]

/-! ## What the loops record -/

def InTree (tree : Std.TreeMap Long (Std.TreeMap Long (Std.TreeSet Long)))
    (x : Long × Long × Long) : Prop :=
  x.2.2 ∈ (tree.getD x.1 ∅).getD x.2.1 ∅

/-- The loop has recorded exactly the triples `ts`, in this order and each once. -/
structure Recorded (returnTriangles : Bool) (st : LoopState) (ts : List (Long × Long × Long)) :
    Prop where
  nodup : ts.Nodup
  tree : ∀ x, InTree st.triangleTree x ↔ x ∈ ts
  count : st.triangleCount = ts.length
  stream : st.triangleStream = if returnTriangles then ts.flatMap renderTriangle else []

theorem recorded_init (returnTriangles : Bool) : Recorded returnTriangles .init [] where
  nodup := nodup_nil
  tree x := by simp [InTree, LoopState.init]
  count := rfl
  stream := by simp [LoopState.init]

theorem inTree_insert {tree : Std.TreeMap Long (Std.TreeMap Long (Std.TreeSet Long))}
    (x y : Long × Long × Long) :
    InTree (tree.insert x.1 ((tree.getD x.1 ∅).insert x.2.1
      (((tree.getD x.1 ∅).getD x.2.1 ∅).insert x.2.2))) y ↔ InTree tree y ∨ y = x := by
  obtain ⟨a, b, c⟩ := x
  obtain ⟨a', b', c'⟩ := y
  simp only [InTree, getD_insert, Std.compare_eq_iff_eq, Prod.mk.injEq]
  by_cases ha : a = a'
  · subst ha
    rw [if_pos rfl, getD_insert]
    simp only [Std.compare_eq_iff_eq, true_and]
    by_cases hb : b = b'
    · subst hb
      rw [if_pos rfl, Std.TreeSet.mem_insert, Std.compare_eq_iff_eq, or_comm, eq_comm]
      simp
    · rw [if_neg hb]
      simp [Ne.symm hb]
  · rw [if_neg ha]
    simp [Ne.symm ha]

/-- `record` in one equation: the lookup decides, and the insertion is the same either way. -/
theorem record_eq (returnTriangles : Bool) (st : LoopState) (x : Long × Long × Long) :
    st.record returnTriangles x =
      if x.2.2 ∈ (st.triangleTree.getD x.1 ∅).getD x.2.1 ∅ then st
      else
        { triangleTree := st.triangleTree.insert x.1 ((st.triangleTree.getD x.1 ∅).insert x.2.1
            (((st.triangleTree.getD x.1 ∅).getD x.2.1 ∅).insert x.2.2))
          triangleCount := st.triangleCount + 1
          triangleStream :=
            if returnTriangles then st.triangleStream ++ renderTriangle x
            else st.triangleStream } := by
  simp only [LoopState.record, getD_eq_getD_getElem? (a := x.2.1)]
  cases (st.triangleTree.getD x.1 ∅)[x.2.1]? with
  | some set2 => rfl
  | none => simp

/-- `f` records the triples of `S` on top of those recorded before. -/
def Adds (returnTriangles : Bool) (f : LoopState → LoopState) (S : Long × Long × Long → Prop) :
    Prop :=
  ∀ st ts, Recorded returnTriangles st ts →
    ∃ ts', Recorded returnTriangles (f st) ts' ∧ ∀ x, x ∈ ts' ↔ x ∈ ts ∨ S x

variable {returnTriangles : Bool}

theorem Adds.none {f : LoopState → LoopState} {S : Long × Long × Long → Prop}
    (hf : ∀ st, f st = st) (hS : ∀ x, ¬ S x) : Adds returnTriangles f S := by
  intro st ts h
  refine ⟨ts, ?_, fun x => ?_⟩
  · rw [hf]
    exact h
  · simp [hS x]

theorem Adds.congr {f : LoopState → LoopState} {S S' : Long × Long × Long → Prop}
    (h : Adds returnTriangles f S) (hS : ∀ x, S x ↔ S' x) : Adds returnTriangles f S' := by
  intro st ts hr
  obtain ⟨ts', hr', hts⟩ := h st ts hr
  exact ⟨ts', hr', fun x => by rw [hts x, hS x]⟩

theorem adds_record (x : Long × Long × Long) :
    Adds returnTriangles (fun st => st.record returnTriangles x) (fun y => y = x) := by
  intro st ts h
  simp only [record_eq]
  by_cases hx : x.2.2 ∈ (st.triangleTree.getD x.1 ∅).getD x.2.1 ∅
  · rw [if_pos hx]
    have hmem : x ∈ ts := (h.tree x).1 hx
    refine ⟨ts, h, fun y => ⟨.inl, ?_⟩⟩
    rintro (hy | rfl)
    · exact hy
    · exact hmem
  · rw [if_neg hx]
    have hnew : x ∉ ts := fun hm => hx ((h.tree x).2 hm)
    refine ⟨ts ++ [x], ⟨?_, ?_, ?_, ?_⟩, fun y => by simp⟩
    · rw [nodup_append]
      exact ⟨h.nodup, nodup_singleton x, fun a ha b hb => by
        rw [mem_singleton] at hb
        exact fun hab => hnew (hb ▸ hab ▸ ha)⟩
    · intro y
      rw [inTree_insert, h.tree y, mem_append, mem_singleton]
    · simp [h.count]
    · rw [h.stream]
      cases returnTriangles <;> simp

/-- **The loop rule.** A loop whose body adds `S a` for the element `a` adds all of them. -/
theorem Adds.foldl {α : Type} {f : LoopState → α → LoopState}
    {S : α → Long × Long × Long → Prop} (h : ∀ a, Adds returnTriangles (fun st => f st a) (S a)) :
    ∀ l : List α, Adds returnTriangles (fun st => l.foldl f st) (fun x => ∃ a ∈ l, S a x)
  | [] => Adds.none (fun _ => rfl) (by simp)
  | a :: l => by
    intro st ts hr
    obtain ⟨ts₁, hr₁, h₁⟩ := h a st ts hr
    obtain ⟨ts₂, hr₂, h₂⟩ := Adds.foldl h l (f st a) ts₁ hr₁
    refine ⟨ts₂, hr₂, fun x => ?_⟩
    rw [h₂ x, h₁ x, or_assoc]
    simp

/-- The triples of distinct vertices the loop builds from `temp`. -/
def LeadsTo (g : AdjacencyMap) (temp u nu : Long) : Prop :=
  temp ≠ u ∧ temp ≠ nu ∧ u ≠ nu ∧ g.Edge temp u ∧ g.Edge u nu ∧ (g.Edge temp nu ∨ g.Edge nu temp)

variable {g : AdjacencyMap}

theorem adds_visitNu (temp u nu : Long) :
    Adds returnTriangles (fun st => visitNu returnTriangles g temp u st nu) (fun x =>
      temp ≠ nu ∧ u ≠ nu ∧ (g.Edge temp nu ∨ g.Edge nu temp) ∧ x = sort3 temp u nu) := by
  unfold visitNu
  split_ifs with h1 h2 h3
  · exact Adds.none (fun _ => rfl) fun x hx => hx.1 h1
  · exact Adds.none (fun _ => rfl) fun x hx => hx.2.1 h2
  · rw [sortTriple_eq]
    exact (adds_record _).congr fun x => ⟨fun hx => ⟨h1, h2, h3, hx⟩, fun hx => hx.2.2.2⟩
  · exact Adds.none (fun _ => rfl) fun x hx => h3 hx.2.2.1

theorem adds_visitU (temp u : Long) :
    Adds returnTriangles (fun st => visitU returnTriangles g temp st u) (fun x =>
      temp ≠ u ∧ ∃ nu ∈ (g.row u).elems,
        temp ≠ nu ∧ u ≠ nu ∧ (g.Edge temp nu ∨ g.Edge nu temp) ∧ x = sort3 temp u nu) := by
  unfold visitU
  split_ifs with h1
  · exact Adds.none (fun _ => rfl) fun x hx => hx.1 h1
  · exact (Adds.foldl (fun nu => adds_visitNu temp u nu) _).congr fun x => by simp [h1]

theorem adds_visitVertex (temp : Long) :
    Adds returnTriangles (fun st => visitVertex returnTriangles g st temp) (fun x =>
      ∃ u nu, LeadsTo g temp u nu ∧ x = sort3 temp u nu) := by
  refine (Adds.foldl (fun u => adds_visitU temp u) _).congr fun x => ?_
  constructor
  · rintro ⟨u, hu, htu, nu, hnu, h1, h2, h3, rfl⟩
    exact ⟨u, nu, ⟨htu, h1, h2, hu, hnu, h3⟩, rfl⟩
  · rintro ⟨u, nu, ⟨htu, h1, h2, hu, hnu, h3⟩, rfl⟩
    exact ⟨u, hu, htu, nu, hnu, h1, h2, h3, rfl⟩

/-- **What a run records**: the sorted triple of every path a visited vertex closes. -/
theorem recorded_detectTriangles (g : AdjacencyMap) (dist : Distribution) (returnTriangles : Bool) :
    ∃ ts, Recorded returnTriangles (detectTriangles g dist returnTriangles) ts ∧
      ∀ x, x ∈ ts ↔ ∃ v u nu, Visited dist v ∧ LeadsTo g v u nu ∧ x = sort3 v u nu := by
  have hrun : Adds returnTriangles
      (fun st => (degreeMap dist).toList.foldl
        (fun st e => e.2.toList.foldl (visitVertex returnTriangles g) st) st) _ :=
    Adds.foldl (fun e : Nat × Std.TreeSet Long =>
      Adds.foldl (fun v => adds_visitVertex v) e.2.toList) _
  obtain ⟨ts, hr, hts⟩ := hrun _ _ (recorded_init returnTriangles)
  refine ⟨ts, ?_, fun x => ?_⟩
  · unfold detectTriangles
    simpa only [foldl_eq_foldl_toList, Std.TreeSet.foldl_eq_foldl_toList] using hr
  · rw [hts x]
    simp only [not_mem_nil, false_or, ← exists_mem_degreeMap]
    constructor
    · rintro ⟨⟨d, vs⟩, hd, v, hv, u, nu, h, rfl⟩
      rw [Std.TreeMap.mem_toList_iff_getElem?_eq_some] at hd
      rw [Std.TreeSet.mem_toList] at hv
      refine ⟨v, u, nu, ⟨d, ?_⟩, h, rfl⟩
      rw [getD_eq_getD_getElem?, hd]
      exact hv
    · rintro ⟨v, u, nu, ⟨d, hv⟩, h, rfl⟩
      rw [getD_eq_getD_getElem?] at hv
      cases hd : (degreeMap dist)[d]? with
      | none => simp [hd] at hv
      | some vs =>
        refine ⟨(d, vs), Std.TreeMap.mem_toList_iff_getElem?_eq_some.2 hd, v, ?_, u, nu, h, rfl⟩
        rw [hd] at hv
        exact Std.TreeSet.mem_toList.2 hv

/-! ## The sets found -/

def Found (g : AdjacencyMap) (dist : Distribution) (t : Finset Long) : Prop :=
  ∃ v u nu, Visited dist v ∧ LeadsTo g v u nu ∧ t = {v, u, nu}

/-- A list of triples as the stream writes it, the last separator erased. -/
def renderTriangles (ts : List (Long × Long × Long)) : List UInt8 :=
  if ts = [] then ascii "NILL" else (ts.flatMap renderTriangle).dropLast

/-- The list names exactly the sets `P`, each once and in ascending order. -/
structure Lists (P : Finset Long → Prop) (ts : List (Long × Long × Long)) : Prop where
  nodup : ts.Nodup
  ascending : ∀ x ∈ ts, Ascending x
  names : ∀ t, P t ↔ ∃ x ∈ ts, members x = t

theorem Lists.mem_iff {P : Finset Long → Prop} {ts : List (Long × Long × Long)} (h : Lists P ts)
    {x : Long × Long × Long} : x ∈ ts ↔ Ascending x ∧ P (members x) := by
  constructor
  · intro hx
    exact ⟨h.ascending x hx, (h.names _).2 ⟨x, hx, rfl⟩⟩
  · rintro ⟨hx, hP⟩
    obtain ⟨y, hy, heq⟩ := (h.names _).1 hP
    rw [← members_injOn (h.ascending y hy) hx heq]
    exact hy

theorem Lists.congr {P Q : Finset Long → Prop} {ts : List (Long × Long × Long)}
    (h : Lists P ts) (hPQ : ∀ t, P t ↔ Q t) : Lists Q ts :=
  { h with names := fun t => (hPQ t).symm.trans (h.names t) }

theorem renderTriangle_ne_nil (x : Long × Long × Long) : renderTriangle x ≠ [] := by
  simp [renderTriangle, ascii]

theorem lists_found {dist : Distribution} {ts : List (Long × Long × Long)} (hn : ts.Nodup)
    (h : ∀ x, x ∈ ts ↔ ∃ v u nu, Visited dist v ∧ LeadsTo g v u nu ∧ x = sort3 v u nu) :
    Lists (Found g dist) ts where
  nodup := hn
  ascending x hx := by
    obtain ⟨v, u, nu, -, ⟨h1, h2, h3, -⟩, rfl⟩ := (h x).1 hx
    exact ascending_sort3 h1 h2 h3
  names t := by
    constructor
    · rintro ⟨v, u, nu, hv, hl, rfl⟩
      exact ⟨sort3 v u nu, (h _).2 ⟨v, u, nu, hv, hl, rfl⟩, members_sort3 v u nu⟩
    · rintro ⟨x, hx, rfl⟩
      obtain ⟨v, u, nu, hv, hl, rfl⟩ := (h x).1 hx
      exact ⟨v, u, nu, hv, hl, members_sort3 v u nu⟩

/-- **The count, for every map and distribution.** -/
theorem count_eq_ncard_found (g : AdjacencyMap) (dist : Distribution) :
    (countTriangles g dist false).count = some {t | Found g dist t}.ncard := by
  obtain ⟨ts, hr, hts⟩ := recorded_detectTriangles g dist false
  have hl := lists_found hr.nodup hts
  rw [ncard_of_listing hl.nodup hl.ascending hl.names]
  simp [countTriangles, hr.count]

/-- **The string, for every map and distribution.** -/
theorem triangles_eq_render_found (g : AdjacencyMap) (dist : Distribution) :
    ∃ ts, Lists (Found g dist) ts ∧
      (countTriangles g dist true).triangles = renderTriangles ts := by
  obtain ⟨ts, hr, hts⟩ := recorded_detectTriangles g dist true
  refine ⟨ts, lists_found hr.nodup hts, ?_⟩
  simp only [countTriangles, hr.stream, if_true, renderTriangles]
  cases ts with
  | nil => rfl
  | cons x ts => simp [renderTriangle_ne_nil]

/-! ## Which triangles are found -/

/-- A directed 3-cycle none of whose vertices has another out-neighbour. -/
def Lone (edge : Long → Long → Prop) (t : Finset Long) : Prop :=
  ∃ a b c, a ≠ b ∧ a ≠ c ∧ b ≠ c ∧ t = {a, b, c} ∧
    (∀ w, edge a w ↔ w = b) ∧ (∀ w, edge b w ↔ w = c) ∧ (∀ w, edge c w ↔ w = a)

theorem Lone.exists_single {edge : Long → Long → Prop} {t : Finset Long} (h : Lone edge t) :
    ∀ v ∈ t, ∃ w, ∀ w', edge v w' ↔ w' = w := by
  obtain ⟨a, b, c, -, -, -, rfl, ha, hb, hc⟩ := h
  simp only [Finset.forall_mem_insert, Finset.mem_singleton, forall_eq]
  exact ⟨⟨b, ha⟩, ⟨c, hb⟩, ⟨a, hc⟩⟩

/-- Every vertex with two out-neighbours is visited. -/
def Branching (g : AdjacencyMap) (dist : Distribution) : Prop :=
  ∀ v a b, g.Edge v a → g.Edge v b → a ≠ b → Visited dist v

variable {dist : Distribution} {a b c : Long}

theorem rotate_triple (a b c : Long) : ({b, c, a} : Finset Long) = {a, b, c} := by
  ext v
  simp only [Finset.mem_insert, Finset.mem_singleton]
  tauto

theorem swap_triple (a b c : Long) : ({b, a, c} : Finset Long) = {a, b, c} :=
  Finset.insert_comm b a {c}

theorem found_isTriangle {t : Finset Long} (h : Found g dist t) :
    IsTriangle (undirected g.Edge) t := by
  obtain ⟨v, u, nu, -, ⟨h1, h2, h3, he1, he2, he3⟩, rfl⟩ := h
  exact (isTriangle_triple (fun _ _ => undirected_symm) h1 h2 h3).2
    ⟨.inl he1, .inl he2, he3⟩

/-- A vertex with edges to both others is visited and finds the triangle. -/
theorem found_of_source (hd : Branching g dist) (hab : a ≠ b) (hac : a ≠ c) (hbc : b ≠ c)
    (h1 : g.Edge a b) (h2 : g.Edge a c) (h3 : g.Edge b c) : Found g dist {a, b, c} :=
  ⟨a, b, c, hd a b c h1 h2 hbc, ⟨hab, hac, hbc, h1, h3, .inl h2⟩, rfl⟩

theorem found_of_cycle (hab : a ≠ b) (hac : a ≠ c) (hbc : b ≠ c) (h1 : g.Edge a b)
    (h2 : g.Edge b c) (h3 : g.Edge c a) (hv : ∃ v ∈ ({a, b, c} : Finset Long), Visited dist v) :
    Found g dist {a, b, c} := by
  obtain ⟨v, hm, hv⟩ := hv
  simp only [Finset.mem_insert, Finset.mem_singleton] at hm
  rcases hm with rfl | rfl | rfl
  · exact ⟨v, b, c, hv, ⟨hab, hac, hbc, h1, h2, .inr h3⟩, rfl⟩
  · exact ⟨v, c, a, hv, ⟨hbc, hab.symm, hac.symm, h2, h3, .inr h1⟩, (rotate_triple a v c).symm⟩
  · exact ⟨v, a, b, hv, ⟨hac.symm, hbc.symm, hab, h3, h1, .inr h2⟩, rotate_triple v a b⟩

/-- A directed cycle is lone, or one of its vertices has a second out-neighbour. -/
theorem lone_or_visited (hd : Branching g dist) (hab : a ≠ b) (hac : a ≠ c) (hbc : b ≠ c)
    (h1 : g.Edge a b) (h2 : g.Edge b c) (h3 : g.Edge c a) :
    Lone g.Edge {a, b, c} ∨ ∃ v ∈ ({a, b, c} : Finset Long), Visited dist v := by
  have hsingle : ∀ v w, g.Edge v w → (∀ w', g.Edge v w' ↔ w' = w) ∨ Visited dist v := by
    intro v w hvw
    by_cases hall : ∀ w', g.Edge v w' → w' = w
    · exact .inl fun w' => ⟨hall w', fun h => h ▸ hvw⟩
    · push Not at hall
      obtain ⟨w', hw', hne⟩ := hall
      exact .inr (hd v w' w hw' hvw hne)
  rcases hsingle a b h1 with ha | ha
  · rcases hsingle b c h2 with hb | hb
    · rcases hsingle c a h3 with hc | hc
      · exact .inl ⟨a, b, c, hab, hac, hbc, rfl, ha, hb, hc⟩
      · exact .inr ⟨c, by simp, hc⟩
    · exact .inr ⟨b, by simp, hb⟩
  · exact .inr ⟨a, by simp, ha⟩

theorem found_or_of_cycle (hd : Branching g dist) (hab : a ≠ b) (hac : a ≠ c) (hbc : b ≠ c)
    (h1 : g.Edge a b) (h2 : g.Edge b c) (h3 : g.Edge c a)
    (hl : Lone g.Edge {a, b, c} → ∃ v ∈ ({a, b, c} : Finset Long), Visited dist v) :
    Found g dist {a, b, c} := by
  refine found_of_cycle hab hac hbc h1 h2 h3 ?_
  rcases lone_or_visited hd hab hac hbc h1 h2 h3 with h | h
  · exact hl h
  · exact h

/-- **Which triangles are found**: all but the lone ones no vertex of which is visited. -/
theorem found_iff (hd : Branching g dist) (t : Finset Long) : Found g dist t ↔
      IsTriangle (undirected g.Edge) t ∧ (Lone g.Edge t → ∃ v ∈ t, Visited dist v) := by
  constructor
  · intro h
    refine ⟨found_isTriangle h, fun _ => ?_⟩
    obtain ⟨v, u, nu, hv, -, rfl⟩ := h
    exact ⟨v, by simp, hv⟩
  · rintro ⟨ht, hl⟩
    obtain ⟨a, b, c, hab, hac, hbc, rfl⟩ := Finset.card_eq_three.1 ht.1
    obtain ⟨h1, h2, h3⟩ :=
      (isTriangle_triple (fun _ _ => undirected_symm) hab hac hbc).1 ht
    -- eight orientations: two cycles, and six orders with a source
    rcases h1 with h1 | h1 <;> rcases h2 with h2 | h2 <;> rcases h3 with h3 | h3
    · exact found_of_source hd hab hac hbc h1 h3 h2
    · exact found_or_of_cycle hd hab hac hbc h1 h2 h3 hl
    · have h := found_of_source hd hac hab hbc.symm h3 h1 h2
      rwa [Finset.pair_comm c b] at h
    · have h := found_of_source hd hac.symm hbc.symm hab h3 h2 h1
      rwa [rotate_triple b c a, rotate_triple a b c] at h
    · have h := found_of_source hd hab.symm hbc hac h1 h2 h3
      rwa [swap_triple] at h
    · have h := found_of_source hd hbc hab.symm hac.symm h2 h1 h3
      rwa [rotate_triple a b c] at h
    · -- the cycle runs the other way: a, c, b
      have hcb : ({a, c, b} : Finset Long) = {a, b, c} := by rw [Finset.pair_comm c b]
      have h := found_or_of_cycle hd hac hab hbc.symm h3 h2 h1 (by rwa [hcb])
      rwa [hcb] at h
    · have h := found_of_source hd hbc.symm hac.symm hab.symm h2 h3 h1
      rwa [Finset.pair_comm b a, rotate_triple b c a, rotate_triple a b c] at h

/-! ## With each key's set size as distribution -/

theorem branching_outDegrees (g : AdjacencyMap) : Branching g g.outDegrees := by
  intro v a b ha hb hab
  exact ⟨(g.row v).size, AdjacencyMap.outDegrees_of_edge ha,
    fun h1 => hab ((VertexSet.mem_iff_of_size_eq_one h1 hb a).1 ha)⟩

theorem not_visited_of_single {v w : Long} (h : ∀ w', g.Edge v w' ↔ w' = w) :
    ¬ Visited g.outDegrees v := by
  rintro ⟨d, hd, h1⟩
  rw [AdjacencyMap.outDegrees_of_edge ((h w).2 rfl)] at hd
  refine h1 ?_
  rw [← Option.some.inj hd]
  exact VertexSet.size_eq_one_iff.2 ⟨w, h⟩

theorem lone_isTriangle {edge : Long → Long → Prop} {t : Finset Long} (h : Lone edge t) :
    IsTriangle (undirected edge) t := by
  obtain ⟨a, b, c, hab, hac, hbc, rfl, ha, hb, hc⟩ := h
  exact (isTriangle_triple (fun _ _ => undirected_symm) hab hac hbc).2
    ⟨.inl ((ha b).2 rfl), .inl ((hb c).2 rfl), .inr ((hc a).2 rfl)⟩

theorem found_outDegrees_iff (t : Finset Long) :
    Found g g.outDegrees t ↔ IsTriangle (undirected g.Edge) t ∧ ¬ Lone g.Edge t := by
  rw [found_iff (branching_outDegrees g)]
  refine and_congr_right fun _ => ⟨fun h hl => ?_, fun h hl => absurd hl h⟩
  obtain ⟨v, hv, hvis⟩ := h hl
  obtain ⟨w, hw⟩ := hl.exists_single v hv
  exact not_visited_of_single hw hvis

/-- The count is exact, and the string lists exactly the triangles. -/
def CountsExactly (g : AdjacencyMap) : Prop :=
  (countTriangles g g.outDegrees false).count = some (numTriangles (undirected g.Edge)) ∧
    ∃ ts, Lists (IsTriangle (undirected g.Edge)) ts ∧
      (countTriangles g g.outDegrees true).triangles = renderTriangles ts

theorem count_eq_ncard (g : AdjacencyMap) : (countTriangles g g.outDegrees false).count =
    some {t | IsTriangle (undirected g.Edge) t ∧ ¬ Lone g.Edge t}.ncard := by
  rw [count_eq_ncard_found]
  simp only [found_outDegrees_iff]

/-- The string lists the same sets, ascending and each once. -/
theorem triangles_eq_render (g : AdjacencyMap) :
    ∃ ts, Lists (fun t => IsTriangle (undirected g.Edge) t ∧ ¬ Lone g.Edge t) ts ∧
      (countTriangles g g.outDegrees true).triangles = renderTriangles ts := by
  obtain ⟨ts, hl, hs⟩ := triangles_eq_render_found g g.outDegrees
  exact ⟨ts, hl.congr found_outDegrees_iff, hs⟩

/-- **Exactness.** `countTriangles` with each key's set size as distribution counts and lists
exactly the triangles of the undirected closure if and only if the map has no lone cycle. -/
theorem countTriangles_exact_iff (g : AdjacencyMap) : CountsExactly g ↔ ¬ ∃ t, Lone g.Edge t := by
  constructor
  · rintro ⟨hc, -⟩ ⟨t, ht⟩
    rw [count_eq_ncard, numTriangles] at hc
    refine absurd (Option.some.inj hc) (Nat.ne_of_lt (Set.ncard_lt_ncard ?_ (Set.toFinite _)))
    refine ⟨fun s hs => hs.1, fun hsub => ?_⟩
    exact (hsub (lone_isTriangle ht) : _ ∧ ¬ Lone g.Edge t).2 ht
  · intro h
    have hall : ∀ t, (IsTriangle (undirected g.Edge) t ∧ ¬ Lone g.Edge t) ↔
        IsTriangle (undirected g.Edge) t :=
      fun t => and_iff_left fun ht => h ⟨t, ht⟩
    obtain ⟨ts, hl, hs⟩ := triangles_eq_render g
    refine ⟨?_, ts, hl.congr hall, hs⟩
    rw [count_eq_ncard, numTriangles]
    simp only [hall]

def directedCycle : AdjacencyMap :=
  ((Std.TreeMap.empty.insert 1 ⟨[2], nodup_singleton 2⟩).insert 2
    ⟨[3], nodup_singleton 3⟩).insert 3 ⟨[1], nodup_singleton 1⟩

/-- Its one triangle is neither counted nor listed: every vertex has degree 1. -/
theorem countTriangles_directedCycle :
    (countTriangles directedCycle directedCycle.outDegrees false).count = some 0 ∧
      (countTriangles directedCycle directedCycle.outDegrees true).triangles = ascii "NILL" ∧
      IsTriangle (undirected directedCycle.Edge) {1, 2, 3} ∧ ¬ CountsExactly directedCycle := by
  have h12 : directedCycle.Edge 1 2 := by unfold AdjacencyMap.Edge; decide
  have h23 : directedCycle.Edge 2 3 := by unfold AdjacencyMap.Edge; decide
  have h31 : directedCycle.Edge 3 1 := by unfold AdjacencyMap.Edge; decide
  have htri : IsTriangle (undirected directedCycle.Edge) {1, 2, 3} :=
    (isTriangle_triple (fun _ _ => undirected_symm) (by decide) (by decide) (by decide)).2
      ⟨.inl h12, .inl h23, .inr h31⟩
  have hzero : (countTriangles directedCycle directedCycle.outDegrees false).count = some 0 := by
    decide
  refine ⟨hzero, by decide, htri, fun h => ?_⟩
  have hcard : numTriangles (undirected directedCycle.Edge) = 0 :=
    (Option.some.inj (hzero.symm.trans h.1)).symm
  have hempty := (Set.ncard_eq_zero (Set.toFinite _)).1 hcard
  exact Set.eq_empty_iff_forall_notMem.1 hempty {1, 2, 3} htri

end JasmineGraph.Triangles
