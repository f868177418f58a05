import JasmineGraph.Instance.InDegree

/-!
# Ego networks

`calculateLocalEgoNet` builds, for a part, a map from vertices to networks; the network of a vertex
maps the vertex itself to its neighbours (its own set) and each local successor to the successors
the two share. It makes three passes.

1. For every vertex of the local store, the network from the local store (`individualEgoNet`).
2. For every vertex of the part's central store (`addOwnCentral`): a vertex without a network gets
   one with its ends. For a vertex that has a network, the source unites the own set with the ends
   in `map<long, unordered_set<long>> egonetSubGraph = egonetMapItr->second`, which is a copy; the
   copy is dropped and the network stays as it is.
3. For every edge of the central stores of the listed workers (`addStart`): if its end has a network,
   its start goes into the end's own set, this time through references.
-/

namespace JasmineGraph.Instance

open Bytes Std.TreeMap AdjacencyMap

/-- `map<long, map<long, unordered_set<long>>>`. -/
abbrev EgoNets := Std.TreeMap Long AdjacencyMap

def neighboursInSameEgoNet (localGraphMap : AdjacencyMap) (neighbours : VertexSet)
    (neighbour : Long) : VertexSet :=
  match localGraphMap[neighbour]? with
  | some neighboursOfNeighbour =>
    neighboursOfNeighbour.elems.foldl (fun s w => if w ∈ neighbours then s.insert w else s) ∅
  | none => ∅

def individualEgoNet (localGraphMap : AdjacencyMap) (v : Long) (neighbours : VertexSet) :
    AdjacencyMap :=
  neighbours.elems.foldl
    (fun net neighbour =>
      net.insert neighbour (neighboursInSameEgoNet localGraphMap neighbours neighbour))
    ((∅ : AdjacencyMap).insert v neighbours)

def localEgoNets (localGraphMap : AdjacencyMap) : EgoNets :=
  localGraphMap.foldl
    (fun egonetMap v neighbours => egonetMap.insert v (individualEgoNet localGraphMap v neighbours)) ∅

def addOwnCentral (egonetMap : EgoNets) (v : Long) (distribution : VertexSet) : EgoNets :=
  match egonetMap[v]? with
  | none => egonetMap.insert v ((∅ : AdjacencyMap).insert v distribution)
  -- the union is assigned within a local copy of the network
  | some _ => egonetMap

/-- The innermost body of the third pass. -/
def addStart (startVid : Long) (egonetMap : EgoNets) (endVid : Long) : EgoNets :=
  match egonetMap[endVid]? with
  | some egonetSubGraph =>
    match egonetSubGraph[endVid]? with
    | some egonetSubGraphNeighbours =>
      egonetMap.insert endVid
        (egonetSubGraph.insert endVid (egonetSubGraphNeighbours.insert startVid))
    | none => egonetMap
  | none => egonetMap

/-- The third pass over one central store. -/
def addCentralStarts (egonetMap : EgoNets) (centralGraphMap : AdjacencyMap) : EgoNets :=
  centralGraphMap.foldl
    (fun egonetMap startVid endVidSet => endVidSet.elems.foldl (addStart startVid) egonetMap)
    egonetMap

/-- The body of the loop over the workers; a store that is not there is passed over. -/
def addWorkerStarts (f : DataFolder) (egonetMap : EgoNets) (worker : List UInt8) :
    Option EgoNets := do
  let partitionID ← workerPartitionID worker
  match f.centralStore partitionID with
  | none => return egonetMap
  | some centralStore => return addCentralStarts egonetMap centralStore

def calculateLocalEgoNet (f : DataFolder) (localDB centralDB : AdjacencyMap)
    (workerSockets : List (List UInt8)) : Option EgoNets :=
  workerSockets.foldlM (addWorkerStarts f) (centralDB.foldl addOwnCentral (localEgoNets localDB))

/-! ## The first pass -/

section FirstPass

variable {g : AdjacencyMap} {nb : VertexSet} {v w x : Long}

theorem mem_foldl_filter : ∀ (l : List Long) (s : VertexSet),
    x ∈ l.foldl (fun s w => if w ∈ nb then s.insert w else s) s ↔ x ∈ s ∨ x ∈ l ∧ x ∈ nb
  | [], s => by simp
  | w :: l, s => by
    rw [List.foldl_cons, mem_foldl_filter l]
    split_ifs with hw
    · rw [VertexSet.mem_insert]
      grind
    · grind

theorem mem_neighboursInSameEgoNet : x ∈ neighboursInSameEgoNet g nb w ↔ g.Edge w x ∧ x ∈ nb := by
  unfold neighboursInSameEgoNet Edge row
  rw [getD_eq_getD_getElem?]
  cases g[w]? with
  | none => simp
  | some s =>
    rw [mem_foldl_filter, or_iff_right (VertexSet.notMem_empty x)]
    rfl

theorem getElem?_foldl_insert (F : Long → VertexSet) : ∀ (l : List Long) (m : AdjacencyMap),
    (l.foldl (fun m w => m.insert w (F w)) m)[x]? = if x ∈ l then some (F x) else m[x]?
  | [], m => by simp
  | w :: l, m => by
    rw [List.foldl_cons, getElem?_foldl_insert F l]
    grind

/-- A network has the vertex's own set and a set for each neighbour. -/
theorem getElem?_individualEgoNet : (individualEgoNet g v nb)[x]? =
      if x ∈ nb then some (neighboursInSameEgoNet g nb x) else if v = x then some nb else none := by
  unfold individualEgoNet
  rw [getElem?_foldl_insert (neighboursInSameEgoNet g nb), getElem?_insert]
  simp only [Std.compare_eq_iff_eq]
  rfl

theorem getElem?_localEgoNets (g : AdjacencyMap) (v : Long) :
    (localEgoNets g)[v]? = g[v]?.map (individualEgoNet g v) := by
  have hstep : ∀ (m : EgoNets) (w : Long) (nb : VertexSet) (v : Long),
      (m.insert w (individualEgoNet g w nb))[v]? =
        if w = v then some (individualEgoNet g w nb) else m[v]? := fun m w nb v => by
    rw [getElem?_insert]
    simp only [Std.compare_eq_iff_eq]
  unfold localEgoNets
  have hloop := MapLoop.obs_foldl (fun (m : EgoNets) (v : Long) => m[v]?)
    (F := fun w nb _ => some (individualEgoNet g w nb)) hstep g ∅ v
  rw [hloop]
  cases g[v]? <;> simp

end FirstPass

/-! ## The second pass -/

theorem getElem?_addOwnCentral (m : EgoNets) (w : Long) (d : VertexSet) (v : Long) :
    (addOwnCentral m w d)[v]? =
      if w = v then some (m[v]?.getD ((∅ : AdjacencyMap).insert w d)) else m[v]? := by
  unfold addOwnCentral
  all_goals grind

/-- **The second pass leaves every network as it is**, and gives one to the vertices without. -/
theorem getElem?_foldl_addOwnCentral (m : EgoNets) (store : AdjacencyMap) (v : Long) :
    (store.foldl addOwnCentral m)[v]? =
      store[v]?.elim m[v]? fun d => some (m[v]?.getD ((∅ : AdjacencyMap).insert v d)) :=
  MapLoop.obs_foldl (fun (m : EgoNets) (v : Long) => m[v]?)
    (F := fun w d o => some (o.getD ((∅ : AdjacencyMap).insert w d))) getElem?_addOwnCentral store m v

/-! ## The third pass -/

/-- The networks are the same up to the own sets, which gain the starts that `P` relates to them. -/
def Extends (m m' : EgoNets) (P : Long → Long → Prop) : Prop :=
  ∀ v net own, m[v]? = some net → net[v]? = some own →
    ∃ net' own', m'[v]? = some net' ∧ net'[v]? = some own' ∧ (∀ x, x ∈ own' ↔ x ∈ own ∨ P x v) ∧
      ∀ w, w ≠ v → net'[w]? = net[w]?

section ThirdPass

variable {m m' m'' : EgoNets} {P Q : Long → Long → Prop}

theorem Extends.refl (m : EgoNets) : Extends m m fun _ _ => False :=
  fun _ net own hnet hown => ⟨net, own, hnet, hown, by simp, fun _ _ => rfl⟩

theorem Extends.congr (h : Extends m m' P) (hPQ : ∀ x v, P x v ↔ Q x v) : Extends m m' Q := by
  have hPQ : P = Q := funext₂ fun x v => propext (hPQ x v)
  exact hPQ ▸ h

theorem Extends.trans (h : Extends m m' P) (h' : Extends m' m'' Q) :
    Extends m m'' fun x v => P x v ∨ Q x v := by
  intro v net own hnet hown
  obtain ⟨net', own', hnet', hown', hmem, hothers⟩ := h v net own hnet hown
  obtain ⟨net'', own'', hnet'', hown'', hmem', hothers'⟩ := h' v net' own' hnet' hown'
  refine ⟨net'', own'', hnet'', hown'', fun x => ?_, fun w hw => ?_⟩
  · rw [hmem', hmem, or_assoc]
  · rw [hothers' w hw, hothers w hw]

theorem extends_addStart (s : Long) (m : EgoNets) (e : Long) :
    Extends m (addStart s m e) fun x v => x = s ∧ v = e := by
  intro v net own hnet hown
  unfold addStart
  by_cases hv : v = e
  · subst hv
    rw [hnet]
    simp only [hown]
    refine ⟨net.insert v (own.insert s), own.insert s, by simp, by simp, fun x => by simp, ?_⟩
    intro w hw
    rw [getElem?_insert, if_neg fun h => hw (Std.compare_eq_iff_eq.1 h).symm]
  · have hkeep : ∀ net', (m.insert e net')[v]? = some net := fun net' => by
      rw [getElem?_insert, if_neg fun h => hv (Std.compare_eq_iff_eq.1 h).symm, hnet]
    refine ⟨net, own, ?_, hown, fun x => by simp [hv], fun w _ => rfl⟩
    split
    · split
      · exact hkeep _
      · exact hnet
    · exact hnet

theorem Extends.foldl {α : Type} {step : EgoNets → α → EgoNets} {P : α → Long → Long → Prop}
    (h : ∀ m a, Extends m (step m a) (P a)) : ∀ (l : List α) (m : EgoNets),
      Extends m (l.foldl step m) fun x v => ∃ a ∈ l, P a x v
  | [], m => (Extends.refl m).congr fun x v => by simp
  | a :: l, m => ((h m a).trans (Extends.foldl h l (step m a))).congr fun x v => by simp

theorem extends_addCentralStarts (m : EgoNets) (c : AdjacencyMap) :
    Extends m (addCentralStarts m c) c.Edge := by
  have hstep : ∀ (m : EgoNets) (e : Long × VertexSet),
      Extends m (e.2.elems.foldl (addStart e.1) m) fun x v => x = e.1 ∧ v ∈ e.2 := fun m e =>
    (Extends.foldl (extends_addStart e.1) e.2.elems m).congr fun x v => by
      constructor
      · rintro ⟨w, hw, rfl, rfl⟩
        exact ⟨rfl, hw⟩
      · rintro ⟨rfl, hv⟩
        exact ⟨v, hv, rfl, rfl⟩
  unfold addCentralStarts
  rw [foldl_eq_foldl_toList]
  refine (Extends.foldl hstep c.toList m).congr fun x v => ?_
  constructor
  · rintro ⟨⟨w, s⟩, he, rfl, hv⟩
    have hs := mem_toList_iff_getElem?_eq_some.1 he
    unfold Edge row
    rw [getD_eq_getD_getElem?, hs]
    exact hv
  · intro hedge
    refine ⟨(x, c.row x), ?_, rfl, hedge⟩
    exact mem_toList_iff_getElem?_eq_some.2
      (getElem?_eq_some_row (mem_of_edge hedge))

/-- The third pass gives the starts of the edges of the listed central stores. -/
theorem extends_foldlM_addWorkerStarts {f : DataFolder} {store : Nat → AdjacencyMap}
    {workers : List (List UInt8)} {listed : List Nat}
    (hnamed : workers.map workerPartitionID = listed.map fun q => some (decimal q))
    (hstore : ∀ q ∈ listed, f.centralStore (decimal q) = some (store q)) (m : EgoNets) :
    ∃ m', workers.foldlM (addWorkerStarts f) m = some m' ∧
      Extends m m' fun x v => ∃ q ∈ listed, (store q).Edge x v := by
  induction workers generalizing listed m with
  | nil =>
    obtain rfl : listed = [] := by simpa using hnamed.symm
    exact ⟨m, rfl, (Extends.refl m).congr fun x v => by simp⟩
  | cons worker workers ih =>
    obtain ⟨q, listed, rfl, hq, hrest⟩ := List.map_eq_cons_iff.1 hnamed.symm
    have hstep : addWorkerStarts f m worker = some (addCentralStarts m (store q)) := by
      simp [addWorkerStarts, ← hq, hstore q List.mem_cons_self]
    obtain ⟨m', hrun, hextends⟩ := ih hrest.symm
      (fun q hq => hstore q (List.mem_cons_of_mem _ hq)) (addCentralStarts m (store q))
    refine ⟨m', by rw [List.foldlM_cons, hstep]; exact hrun, ?_⟩
    exact ((extends_addCentralStarts m (store q)).trans hextends).congr fun x v => by simp

end ThirdPass

/-! ## The networks of a part -/

section Networks

variable {G : CutGraph} (S : Stores G) (p : Nat) (listed : List Nat)

/-- Every vertex that starts an edge of a store of the part has a network with its local and cut
neighbours and the starts of the listed central edges to it; the set of a local successor holds the
successors the two have in common. -/
def EgoNetExact (egonetMap : EgoNets) : Prop :=
  ∀ v, (∃ w, (S.localStore p).Edge v w ∨ (S.centralStore p).Edge v w) →
    ∃ net own, egonetMap[v]? = some net ∧ net[v]? = some own ∧
      (∀ x, x ∈ own ↔ (S.localStore p).Edge v x ∨ (S.centralStore p).Edge v x ∨
        ∃ q ∈ listed, (S.centralStore q).Edge x v) ∧
      ∀ n, (S.localStore p).Edge v n → ∃ s, net[n]? = some s ∧
        ∀ x, x ∈ s ↔ (S.localStore p).Edge n x ∧ (S.localStore p).Edge v x

theorem not_localStore_self (v : Long) : ¬ (S.localStore p).Edge v v := fun h =>
  G.loopless _ ((S.local_edge p v v).1 h).1 rfl

variable {m : EgoNets} (hm : Extends
  ((S.centralStore p).foldl addOwnCentral (localEgoNets (S.localStore p))) m fun x v =>
    ∃ q ∈ listed, (S.centralStore q).Edge x v)

include hm in
/-- The network of a vertex with a local edge: its own set has no cut successor of its own. -/
theorem exists_network_of_mem {v : Long} (hv : v ∈ S.localStore p) :
    ∃ net own, m[v]? = some net ∧ net[v]? = some own ∧
      (∀ x, x ∈ own ↔ (S.localStore p).Edge v x ∨ ∃ q ∈ listed, (S.centralStore q).Edge x v) ∧
      ∀ n, (S.localStore p).Edge v n → ∃ s, net[n]? = some s ∧
        ∀ x, x ∈ s ↔ (S.localStore p).Edge n x ∧ (S.localStore p).Edge v x := by
  have hself := not_localStore_self S p v
  -- the local network is there after two passes
  obtain ⟨net, own, hnet, hown, hmem, hothers⟩ := hm v _ ((S.localStore p).row v)
    (by rw [getElem?_foldl_addOwnCentral, getElem?_localEgoNets, getElem?_eq_some_row hv,
      Option.map_some]; cases (S.centralStore p)[v]? <;> rfl)
    (by rw [getElem?_individualEgoNet]; exact (if_neg hself).trans (if_pos rfl))
  refine ⟨net, own, hnet, hown, hmem, fun n hn => ?_⟩
  have hne : n ≠ v := fun h => hself (h ▸ hn)
  rw [hothers n hne, getElem?_individualEgoNet]
  exact ⟨_, if_pos hn, fun x => mem_neighboursInSameEgoNet⟩

include hm in
theorem exists_network_of_notMem {v : Long} (hv : v ∉ S.localStore p) (hc : v ∈ S.centralStore p) :
    ∃ net own, m[v]? = some net ∧ net[v]? = some own ∧
      ∀ x, x ∈ own ↔ (S.centralStore p).Edge v x ∨ ∃ q ∈ listed, (S.centralStore q).Edge x v := by
  obtain ⟨net, own, hnet, hown, hmem, -⟩ := hm v _ ((S.centralStore p).row v)
    (by rw [getElem?_foldl_addOwnCentral, getElem?_localEgoNets, getElem?_eq_none hv,
      getElem?_eq_some_row hc]; rfl) (by simp)
  exact ⟨net, own, hnet, hown, hmem⟩

theorem listed_iff {v x : Long} (hv : G.part v = p) (hx : G.part x ≠ p) :
    (∃ q ∈ listed, (S.centralStore q).Edge x v) ↔ (x, v) ∈ G.edges ∧ G.part x ∈ listed := by
  constructor
  · rintro ⟨q, hq, hedge⟩
    obtain ⟨hxv, rfl, -⟩ := (S.central_edge q x v).1 hedge
    exact ⟨hxv, hq⟩
  · rintro ⟨hxv, hq⟩
    exact ⟨G.part x, hq, (S.central_edge _ x v).2 ⟨hxv, rfl, fun h => hx (h ▸ hv)⟩⟩

/-- **Ego networks and cut edges.** With the listed central stores readable, the networks are exact
if and only if, for every vertex of the part with a local edge, the end of each of its cut edges has
an edge back to it and is in a listed part. -/
theorem egoNet_iff (f : DataFolder) (workers : List (List UInt8))
    (hnamed : workers.map workerPartitionID = listed.map fun q => some (decimal q))
    (hstore : ∀ q ∈ listed, f.centralStore (decimal q) = some (S.centralStore q)) :
    (∃ egonetMap, calculateLocalEgoNet f (S.localStore p) (S.centralStore p) workers =
        some egonetMap ∧ EgoNetExact S p listed egonetMap) ↔
      ∀ v u w, (v, u) ∈ G.edges → G.part v = p → G.part u = p →
        (v, w) ∈ G.edges → G.part w ≠ p → (w, v) ∈ G.edges ∧ G.part w ∈ listed := by
  obtain ⟨m, hrun, hextends⟩ := extends_foldlM_addWorkerStarts hnamed hstore
    ((S.centralStore p).foldl addOwnCentral (localEgoNets (S.localStore p)))
  have hcalc : calculateLocalEgoNet f (S.localStore p) (S.centralStore p) workers = some m := hrun
  rw [hcalc]
  constructor
  · rintro ⟨m', hm, hexact⟩ v u w hvu hv hu hvw hw
    obtain rfl := Option.some.inj hm
    have hedge : (S.localStore p).Edge v u := (S.local_edge p v u).2 ⟨hvu, hv, hu⟩
    obtain ⟨net, own, hnet, hown, hmem, -⟩ :=
      exists_network_of_mem S p listed hextends (mem_of_edge hedge)
    obtain ⟨net', own', hnet', hown', hmem', -⟩ := hexact v ⟨u, .inl hedge⟩
    obtain rfl := Option.some.inj (hnet.symm.trans hnet')
    obtain rfl := Option.some.inj (hown.symm.trans hown')
    have hcut : (S.centralStore p).Edge v w := (S.central_edge p v w).2 ⟨hvw, hv, hw⟩
    have hnot : ¬ (S.localStore p).Edge v w := fun h => hw ((S.local_edge p v w).1 h).2.2
    have hback := ((hmem w).1 ((hmem' w).2 (.inr (.inl hcut)))).resolve_left hnot
    exact (listed_iff S p listed hv hw).1 hback
  · intro hcond
    refine ⟨m, rfl, fun v ⟨w, hw⟩ => ?_⟩
    by_cases hv : v ∈ S.localStore p
    · obtain ⟨net, own, hnet, hown, hmem, hsets⟩ := exists_network_of_mem S p listed hextends hv
      refine ⟨net, own, hnet, hown, fun x => ?_, hsets⟩
      rw [hmem, or_congr_right]
      refine ⟨.inr, fun h => h.elim (fun hcut => ?_) id⟩
      obtain ⟨u, hvu, hvp, hup⟩ := S.mem_localStore.1 hv
      obtain ⟨hvx, -, hx⟩ := (S.central_edge p v x).1 hcut
      exact (listed_iff S p listed hvp hx).2 (hcond v u x hvu hvp hup hvx hx)
    · have hnone : ∀ x, ¬ (S.localStore p).Edge v x := fun x h => hv (mem_of_edge h)
      have hc := mem_of_edge (hw.resolve_left (hnone w))
      obtain ⟨net, own, hnet, hown, hmem⟩ := exists_network_of_notMem S p listed hextends hv hc
      refine ⟨net, own, hnet, hown, fun x => ?_, fun n hn => absurd hn (hnone n)⟩
      rw [hmem, or_iff_right (hnone x)]

end Networks

/-! ## A cut edge and its reverse -/

/-- The cut edge of the first vertex has its reverse. -/
def mutualCut : CutGraph where
  edges := [(1, 2), (1, 3), (3, 1)]
  loopless := by simp
  ids := by simp [IsInt]
  part v := if v = 3 then 1 else 0

theorem mutualCut_egoNet :
    ∃ egonetMap, calculateLocalEgoNet mutualCut.folder (mutualCut.stores.localStore 0)
        (mutualCut.stores.centralStore 0) [workerName 1] = some egonetMap ∧
      EgoNetExact mutualCut.stores 0 [1] egonetMap :=
  (egoNet_iff mutualCut.stores 0 [1] mutualCut.folder [workerName 1]
      (by simp [workerPartitionID_workerName]) (by simp [CutGraph.folder, ofDigits_decimal])).2
    (by
      simp only [mutualCut] at *
      grind)

/-- The network of `1` does not have its cut successor `3`. -/
theorem cutTriangle_egoNet_lost :
    ¬ ∃ egonetMap, calculateLocalEgoNet cutTriangle.folder (cutTriangle.stores.localStore 0)
        (cutTriangle.stores.centralStore 0) [workerName 1] = some egonetMap ∧
      EgoNetExact cutTriangle.stores 0 [1] egonetMap := by
  rintro ⟨m, hm, hexact⟩
  have hown : (calculateLocalEgoNet cutTriangle.folder (cutTriangle.stores.localStore 0)
      (cutTriangle.stores.centralStore 0) [workerName 1]).bind
        (fun m => m[(1 : Long)]?.bind fun net => net[(1 : Long)]?.map VertexSet.elems) = some [2] := by
    decide +kernel
  have hedge : ∀ x, (cutTriangle.stores.centralStore 0).Edge 1 x ↔
      (1, x) ∈ cutTriangle.edges ∧ cutTriangle.part 1 = 0 ∧ cutTriangle.part x ≠ 0 :=
    cutTriangle.stores.central_edge 0 1
  have hcut : (cutTriangle.stores.centralStore 0).Edge 1 3 := (hedge 3).2 (by decide)
  obtain ⟨net, own, hnet, hself, hmem, -⟩ := hexact 1 ⟨3, .inr hcut⟩
  rw [hm, Option.bind_some, hnet, Option.bind_some, hself, Option.map_some, Option.some.injEq] at hown
  have hthree : (3 : Long) ∈ own.elems := (hmem 3).2 (.inr (.inl hcut))
  rw [hown] at hthree
  exact absurd hthree (by decide)

end JasmineGraph.Instance
