import JasmineGraph.Instance.OutDegree

/-!
# The in-degree distribution, part by part and combined

`calculateInDegreeDist` counts, for one part, the edges of its local store by their ends and adds the
counts of the central stores of all workers in its list; the table is the file `_idd_` of the part.
It has the true in-degrees of the part's own vertices, and for other vertices only what the central
stores know. `calculateLocalPageRank` therefore takes, for every vertex, the maximum over the files
`_idd_0`, `_idd_1`, ... up to the configured number of partitions.

It reads a file with `while (!dataFile.eof()) getline(dataFile, line)`. A file that does not exist
leaves the stream failed and never at its end: the loop does not stop. `readLoop` has fuel, and
returns nothing for such a file with any fuel.

`strtod` is modelled on decimal integers, which is all these files hold; an `int` is exact as a
`double`.
-/

namespace JasmineGraph.Instance

open Bytes List Std.TreeMap

/-! ## The table of a part -/

/-- The body of the inner loop of `getInDegreeDistributionHashMap`. -/
def countEnd (distributionHashMap : Std.TreeMap Long Nat) (v : Long) : Std.TreeMap Long Nat :=
  match distributionHashMap[v]? with
  | some previousValue => distributionHashMap.insert v (previousValue + 1)
  | none => distributionHashMap.insert v 1

def getInDegreeDistributionHashMap (g : AdjacencyMap) : Std.TreeMap Long Nat :=
  g.foldl (fun distributionHashMap _ ends => ends.elems.foldl countEnd distributionHashMap) ∅

def calculateLocalInDegreeDist (f : DataFolder) (partitionID : List UInt8) (maps : Maps) :
    Std.TreeMap Long Nat × Maps :=
  let maps := f.loadLocalStore partitionID maps
  (getInDegreeDistributionHashMap (maps.localStores partitionID), maps)

/-- The loop over the counts of a central store. -/
def mergeInDegrees (degreeDistribution degreeDistributionCentral : Std.TreeMap Long Nat) :
    Std.TreeMap Long Nat :=
  degreeDistributionCentral.foldl
    (fun m v d =>
      match m[v]? with
      | some degreeDistributionValue => m.insert v (degreeDistributionValue + d)
      | none => m.insert v d)
    degreeDistribution

/-- The body of the loop over the workers. -/
def addWorker (f : DataFolder) (acc : Std.TreeMap Long Nat × Maps) (worker : List UInt8) :
    Option (Std.TreeMap Long Nat × Maps) := do
  let workerPartitionID ← workerPartitionID worker
  let maps := f.loadInstanceCentralStore workerPartitionID acc.2
  let centralDB := maps.centralStores workerPartitionID
  return (mergeInDegrees acc.1 (getInDegreeDistributionHashMap centralDB), .clear)

/-- The text of the file `_idd_`, and the maps. -/
def calculateInDegreeDist (f : DataFolder) (partitionID : List UInt8)
    (workerSockets : List (List UInt8)) (maps : Maps) : Option (List UInt8 × Maps) := do
  let (degreeDistribution, maps) ←
    workerSockets.foldlM (addWorker f) (calculateLocalInDegreeDist f partitionID maps)
  return (degreeText degreeDistribution, maps)

/-! ## The combined table -/

/-- An `ifstream`, as far as `getline` and `eof()` see it. -/
structure LineStream where
  rest : List UInt8
  eof : Bool
  fail : Bool

def LineStream.openFile : Option (List UInt8) → LineStream
  | none => ⟨[], false, true⟩
  | some text => ⟨text, false, false⟩

/-- `std::getline(dataFile, line)` into an empty line. -/
def LineStream.getline (s : LineStream) : List UInt8 × LineStream :=
  if s.eof || s.fail then ([], { s with fail := true })
  else
    match s.rest.dropWhile (· ≠ 10) with
    | [] => (s.rest, ⟨[], true, s.rest.isEmpty⟩)
    | _ :: rest => (s.rest.takeWhile (· ≠ 10), ⟨rest, false, false⟩)

def strtod (token : List UInt8) : Int :=
  match scanNumber token with
  | none => 0
  | some (negative, n) => if negative then -n else n

def combineLine (inDegreeDistribution : Std.TreeMap Long Int) (line : List UInt8) :
    Std.TreeMap Long Int :=
  match (split 9 line).map strtod with
  | [nodeID, iddValue] =>
    let nodeID := Int64.ofInt nodeID
    inDegreeDistribution.insert nodeID (max (inDegreeDistribution.getD nodeID 0) iddValue)
  | _ => inDegreeDistribution

/-- `while (!dataFile.eof())`, with fuel. -/
def readLoop : Nat → LineStream → Std.TreeMap Long Int → Option (Std.TreeMap Long Int)
  | 0, _, _ => none
  | fuel + 1, dataFile, inDegreeDistribution =>
    if dataFile.eof then some inDegreeDistribution
    else
      let (line, dataFile) := dataFile.getline
      readLoop fuel dataFile (combineLine inDegreeDistribution line)

/-- The in-degrees that `calculateLocalPageRank` combines from the files `_idd_` of its folder. -/
def combineInDegrees (fuel parCount : Nat) (iddFile : List UInt8 → Option (List UInt8)) :
    Option (Std.TreeMap Long Int) :=
  (List.range parCount).foldlM
    (fun inDegreeDistribution partitionID =>
      readLoop fuel (.openFile (iddFile (decimal partitionID))) inDegreeDistribution)
    ∅

/-! ## Counting -/

section Counting

variable {m c : Std.TreeMap Long Nat} {n k : Long → Nat}

def Counts (m : Std.TreeMap Long Nat) (n : Long → Nat) : Prop :=
  ∀ v, m[v]? = if n v = 0 then none else some (n v)

theorem counts_empty : Counts ∅ fun _ => 0 := fun v => by simp

theorem Counts.congr (h : Counts m n) (hk : ∀ v, n v = k v) : Counts m k := fun v => by
  rw [h v, hk v]

theorem Counts.countEnd (h : Counts m n) (w : Long) :
    Counts (countEnd m w) fun v => n v + if w = v then 1 else 0 := by
  intro v
  unfold Instance.countEnd
  rw [h w]
  split_ifs with hw hzero hv
  all_goals simp only [Std.TreeMap.getElem?_insert, h v]
  all_goals grind

theorem Counts.foldl_countEnd (h : Counts m n) (ends : List Long) :
    Counts (ends.foldl Instance.countEnd m) fun v => n v + ends.count v := by
  induction ends generalizing m n with
  | nil => exact h.congr fun _ => rfl
  | cons w ends ih =>
    refine (ih (h.countEnd w)).congr fun v => ?_
    rw [count_cons]
    simp only [beq_iff_eq]
    omega

def inDegree (g : AdjacencyMap) (v : Long) : Nat :=
  (g.toList.filter fun e => v ∈ e.2).length

theorem counts_getInDegreeDistributionHashMap (g : AdjacencyMap) :
    Counts (getInDegreeDistributionHashMap g) (inDegree g) := by
  unfold getInDegreeDistributionHashMap
  rw [foldl_eq_foldl_toList]
  suffices h : ∀ (l : List (Long × VertexSet)) (m : Std.TreeMap Long Nat) (n : Long → Nat),
      Counts m n → Counts (l.foldl (fun m e => e.2.elems.foldl countEnd m) m)
        fun v => n v + (l.filter fun e => v ∈ e.2).length from
    (h g.toList ∅ _ counts_empty).congr fun v => Nat.zero_add _
  intro l
  induction l with
  | nil => exact fun m n h => h
  | cons e l ih =>
    intro m n h
    refine (ih _ _ (h.foldl_countEnd e.2.elems)).congr fun v => ?_
    have hcount : e.2.elems.count v = if v ∈ e.2 then 1 else 0 := by
      split_ifs with hv
      · exact count_eq_one_of_mem e.2.nodup hv
      · exact count_eq_zero_of_not_mem hv
    rw [filter_cons]
    split_ifs <;> grind

/-- The loop over a central store adds its counts. -/
theorem counts_mergeInDegrees (hm : Counts m n) (hc : Counts c k) :
    Counts (mergeInDegrees m c) fun v => n v + k v := by
  intro v
  unfold mergeInDegrees
  rw [MapLoop.obs_foldl (fun m v => m[v]?) (F := fun _ d o => some (o.getD 0 + d))]
  · rw [hm v, hc v]
    grind
  · all_goals grind

theorem inDegree_eq_card {g : AdjacencyMap} {v : Long} {F : Finset Long}
    (h : ∀ u, u ∈ F ↔ g.Edge u v) : inDegree g v = F.card := by
  have hnodup : ((g.toList.filter fun e => v ∈ e.2).map Prod.fst).Nodup :=
    (List.Sublist.map _ filter_sublist).nodup (MapLoop.nodup_keys_toList g)
  have hset : F = ((g.toList.filter fun e => v ∈ e.2).map Prod.fst).toFinset := by
    ext u
    rw [h, mem_toFinset, mem_map]
    constructor
    · intro hu
      refine ⟨(u, g.row u), mem_filter.2 ⟨?_, decide_eq_true hu⟩, rfl⟩
      exact mem_toList_iff_getElem?_eq_some.2
        (AdjacencyMap.getElem?_eq_some_row (AdjacencyMap.mem_of_edge hu))
    · rintro ⟨⟨u, ends⟩, he, rfl⟩
      obtain ⟨he, hv⟩ := mem_filter.1 he
      have hends := mem_toList_iff_getElem?_eq_some.1 he
      unfold AdjacencyMap.Edge AdjacencyMap.row
      rw [getD_eq_getD_getElem?, hends]
      exact of_decide_eq_true hv
  rw [hset, toFinset_card_of_nodup hnodup, length_map, inDegree]

end Counting

/-! ## The table of a part counts the edges into a vertex -/

section Part

variable {G : CutGraph} (S : Stores G) {v : Long} {p q N : Nat}

theorem inDegree_localStore : inDegree (S.localStore p) v =
      ((G.predecessors v).filter fun u => G.part u = p ∧ G.part v = p).card :=
  inDegree_eq_card fun u => by
    rw [S.local_edge, Finset.mem_filter, CutGraph.mem_predecessors]

theorem inDegree_centralStore : inDegree (S.centralStore q) v =
      ((G.predecessors v).filter fun u => G.part u = q ∧ G.part v ≠ q).card :=
  inDegree_eq_card fun u => by
    rw [S.central_edge, Finset.mem_filter, CutGraph.mem_predecessors]

def partialCount (p N : Nat) (v : Long) : Nat :=
  inDegree (S.localStore p) v + ∑ q ∈ Finset.range N, inDegree (S.centralStore q) v

def predecessorsIn (G : CutGraph) (v : Long) (r : Nat) : Nat :=
  ((G.predecessors v).filter fun u => G.part u = r).card

theorem partialCount_eq (hv : G.part v < N) :
    partialCount S p N v = (if p = G.part v then predecessorsIn G v (G.part v) else 0) +
      ∑ r ∈ (Finset.range N).erase (G.part v), predecessorsIn G v r := by
  unfold partialCount
  rw [inDegree_localStore, ← Finset.add_sum_erase _ _ (Finset.mem_range.2 hv),
    inDegree_centralStore]
  have hown : ((G.predecessors v).filter fun u => G.part u = G.part v ∧ G.part v ≠ G.part v).card =
      0 := by simp
  have hothers : ∀ r ∈ (Finset.range N).erase (G.part v),
      inDegree (S.centralStore r) v = predecessorsIn G v r := fun r hr => by
    have hne : G.part v ≠ r := (Finset.ne_of_mem_erase hr).symm
    rw [inDegree_centralStore, predecessorsIn]
    simp [hne]
  rw [Finset.sum_congr rfl hothers]
  by_cases hp : p = G.part v
  · rw [if_pos hp, predecessorsIn, hp]
    simp
  · have hne : G.part v ≠ p := fun h => hp h.symm
    rw [if_neg hp]
    simp [hne]

variable (hparts : ∀ e ∈ G.edges, G.part e.1 < N ∧ G.part e.2 < N)

include hparts in
theorem sum_predecessorsIn (v : Long) :
    ∑ r ∈ Finset.range N, predecessorsIn G v r = (G.predecessors v).card := by
  refine (Finset.card_eq_sum_card_fiberwise fun u hu => ?_).symm
  rw [Finset.mem_coe, Finset.mem_range]
  exact (hparts _ (G.mem_predecessors.1 hu)).1

include hparts in
/-- **The owner of a vertex knows its in-degree.** -/
theorem partialCount_of_owner (hv : G.part v < N) :
    partialCount S (G.part v) N v = (G.predecessors v).card := by
  rw [partialCount_eq S hv, if_pos rfl, ← sum_predecessorsIn hparts v]
  exact Finset.add_sum_erase _ (predecessorsIn G v) (Finset.mem_range.2 hv)

include hparts in
/-- **No part counts more edges into a vertex than there are.** -/
theorem partialCount_le (p : Nat) (v : Long) : partialCount S p N v ≤ (G.predecessors v).card := by
  by_cases hnone : G.predecessors v = ∅
  · unfold partialCount
    simp [inDegree_localStore, inDegree_centralStore, hnone]
  · obtain ⟨u, hu⟩ := Finset.nonempty_iff_ne_empty.2 hnone
    have hv : G.part v < N := (hparts _ (G.mem_predecessors.1 hu)).2
    have hall := Finset.add_sum_erase _ (predecessorsIn G v) (Finset.mem_range.2 hv)
    rw [sum_predecessorsIn hparts v] at hall
    rw [partialCount_eq S hv]
    split_ifs <;> omega

end Part

/-! ## The file of a part -/

section File

variable {G : CutGraph} {S : Stores G} {f : DataFolder} {N p : Nat}

theorem exists_foldlM_addWorker (hstore : ∀ q < N, f.centralStore (decimal q) = some (S.centralStore q))
    (workers : List (List UInt8)) (parts : List Nat)
    (hnamed : workers.map workerPartitionID = parts.map fun q => some (decimal q))
    (hlt : ∀ q ∈ parts, q < N) (acc : Std.TreeMap Long Nat × Maps) {n : Long → Nat}
    (hacc : Counts acc.1 n) :
    ∃ acc', workers.foldlM (addWorker f) acc = some acc' ∧
      Counts acc'.1 fun v => n v + (parts.map fun q => inDegree (S.centralStore q) v).sum := by
  induction workers generalizing parts acc n with
  | nil =>
    obtain rfl : parts = [] := by simpa using hnamed.symm
    exact ⟨acc, rfl, hacc⟩
  | cons worker workers ih =>
    obtain ⟨q, parts, rfl, hq, hrest⟩ := map_eq_cons_iff.1 hnamed.symm
    have hloads := DataFolder.centralStores_loadInstanceCentralStore (hstore q (hlt q mem_cons_self))
    obtain ⟨acc', hrun, hcounts⟩ := ih parts hrest.symm (fun q hq => hlt q (mem_cons_of_mem _ hq))
      (mergeInDegrees acc.1 (getInDegreeDistributionHashMap (S.centralStore q)), .clear)
      (counts_mergeInDegrees hacc (counts_getInDegreeDistributionHashMap _))
    refine ⟨acc', by simpa [addWorker, ← hq, hloads] using hrun, hcounts.congr fun v => ?_⟩
    rw [map_cons, sum_cons, Nat.add_assoc]

/-- **The file of a part.** -/
theorem exists_calculateInDegreeDist (hlocal : f.localStore (decimal p) = some (S.localStore p))
    (hstore : ∀ q < N, f.centralStore (decimal q) = some (S.centralStore q))
    {workers : List (List UInt8)}
    (hnamed : (workers.map workerPartitionID).Perm ((List.range N).map fun q => some (decimal q)))
    (maps : Maps) :
    ∃ m, (calculateInDegreeDist f (decimal p) workers maps).map Prod.fst = some (degreeText m) ∧
      Counts m (partialCount S p N) := by
  -- the parts in the order in which the list names them
  let parts := (workers.map workerPartitionID).map fun o => ofDigits (o.getD [])
  have hparts : parts.Perm (List.range N) := by
    refine (hnamed.map fun o => ofDigits (o.getD [])).trans (Perm.of_eq ?_)
    rw [map_map]
    exact (map_congr_left fun q _ => ofDigits_decimal q).trans (map_id _)
  have horder : workers.map workerPartitionID = parts.map fun q => some (decimal q) := by
    rw [map_map]
    refine (map_id _).symm.trans (map_congr_left fun o ho => ?_)
    obtain ⟨q, -, rfl⟩ := mem_map.1 (hnamed.mem_iff.1 ho)
    rw [id, Function.comp_apply, Option.getD_some, ofDigits_decimal]
  obtain ⟨acc, hrun, hcounts⟩ := exists_foldlM_addWorker hstore workers parts horder
    (fun q hq => mem_range.1 (hparts.mem_iff.1 hq))
    (calculateLocalInDegreeDist f (decimal p) maps)
    (counts_getInDegreeDistributionHashMap _)
  refine ⟨acc.1, by simp [calculateInDegreeDist, hrun], hcounts.congr fun v => ?_⟩
  rw [DataFolder.localStores_loadLocalStore hlocal, (hparts.map _).sum_eq]
  rfl

end File

/-! ## Reading a file -/

theorem readLoop_missing (fuel : Nat) (m : Std.TreeMap Long Int) :
    readLoop fuel (.openFile none) m = none := by
  induction fuel generalizing m with
  | zero => rfl
  | succ fuel ih => exact ih _

theorem getline_line {line : List UInt8} (h : 10 ∉ line) (rest : List UInt8) :
    LineStream.getline ⟨line ++ 10 :: rest, false, false⟩ = (line, ⟨rest, false, false⟩) := by
  have hall : ∀ b ∈ line, decide (b ≠ 10) = true := fun b hb =>
    decide_eq_true (ne_of_mem_of_not_mem hb h)
  have hstop : decide ((10 : UInt8) ≠ 10) = false := rfl
  unfold LineStream.getline
  rw [dropWhile_append_of_pos hall, takeWhile_append_of_pos hall]
  simp

theorem getline_last {text : List UInt8} (h : 10 ∉ text) :
    LineStream.getline ⟨text, false, false⟩ = (text, ⟨[], true, text.isEmpty⟩) := by
  have hnil : text.dropWhile (fun b => decide (b ≠ 10)) = [] :=
    dropWhile_eq_nil_iff.2 fun b hb => decide_eq_true (ne_of_mem_of_not_mem hb h)
  unfold LineStream.getline
  rw [hnil]
  rfl

/-- **The loop over a file takes its lines one by one.** -/
theorem readLoop_eq {fuel : Nat} {text : List UInt8} (hfuel : text.length + 2 ≤ fuel)
    (m : Std.TreeMap Long Int) :
    readLoop fuel (.openFile (some text)) m = some ((split 10 text).foldl combineLine m) := by
  induction fuel generalizing text m with
  | zero => exact absurd hfuel (by simp)
  | succ fuel ih =>
    simp only [LineStream.openFile] at ih ⊢
    rw [readLoop]
    by_cases hnl : 10 ∈ text
    · obtain ⟨line, rest, rfl, hline⟩ := eq_append_cons_of_mem hnl
      rw [length_append, length_cons] at hfuel
      simp only [getline_line hline, split_line hline]
      exact ih (by omega) _
    · -- the last line ends the file; an empty one does nothing
      obtain ⟨fuel, rfl⟩ := Nat.exists_eq_succ_of_ne_zero (by omega : fuel ≠ 0)
      simp only [getline_last hnl]
      by_cases htext : text = []
      · subst htext
        rfl
      · rw [split_of_notMem hnl htext]
        rfl

theorem strtod_decimalInt (n : Int) : strtod (decimalInt n) = n := by
  rw [strtod, scanNumber_decimalInt]
  simp only [decide_eq_true_eq]
  split_ifs <;> omega

theorem strtod_decimal (n : Nat) : strtod (decimal n) = n := by
  rw [strtod, scanNumber_decimal]
  rfl

/-- What a line of a table does: it raises the number of its vertex. -/
def raise (m : Std.TreeMap Long Int) (v : Long) (k : Nat) : Std.TreeMap Long Int :=
  m.insert v (max (m.getD v 0) k)

theorem combineLine_degreeLine (m : Std.TreeMap Long Int) (v : Long) (k : Nat) :
    combineLine m (degreeLine v k) = raise m v k := by
  rw [combineLine, split_degreeLine, map_cons, map_cons, map_nil, strtod_decimalInt, strtod_decimal]
  simp only [Int64.ofInt_toInt]
  rfl

theorem getElem?_raise (m : Std.TreeMap Long Int) (v : Long) (k : Nat) (u : Long) :
    (raise m v k)[u]? = if v = u then some (max (m[u]?.getD 0) k) else m[u]? := by
  simp only [raise, Std.TreeMap.getElem?_insert, Std.compare_eq_iff_eq, getD_eq_getD_getElem?]
  split_ifs with h
  · rw [h]
  · rfl

/-! ## Combining the files -/

section Combine

variable {M : Std.TreeMap Long Int} {m : Std.TreeMap Long Nat} {n k : Long → Nat}

def Combines (M : Std.TreeMap Long Int) (n : Long → Nat) : Prop :=
  ∀ v, M[v]? = if n v = 0 then none else some (n v : Int)

theorem Combines.congr (h : Combines M n) (hk : ∀ v, n v = k v) : Combines M k := fun v => by
  rw [h v, hk v]

/-- **A file raises the numbers to those of its table.** -/
theorem combines_readLoop (hM : Combines M n) (hm : Counts m k) {fuel : Nat}
    (hfuel : (degreeText m).length + 2 ≤ fuel) :
    ∃ M', readLoop fuel (.openFile (some (degreeText m))) M = some M' ∧
      Combines M' fun v => max (n v) (k v) := by
  refine ⟨_, readLoop_eq hfuel M, fun v => ?_⟩
  rw [split_degreeText, foldl_map]
  simp only [combineLine_degreeLine]
  have hloop := MapLoop.obs_foldl (fun (M : Std.TreeMap Long Int) (v : Long) => M[v]?)
    (F := fun _ (d : Nat) (o : Option Int) => some (max (o.getD 0) d)) getElem?_raise m M v
  rw [foldl_eq_foldl_toList] at hloop
  rw [hloop, hM v, hm v]
  grind

end Combine

/-- A graph in parts `0` to `n - 1`, and the files that `calculateInDegreeDist` has written for
them. Every worker finds its local store and all central stores in its folder, every worker list
names each part once, and there is no other file. -/
structure InDegreeRun (G : CutGraph) (n : Nat) where
  parts : ∀ e ∈ G.edges, G.part e.1 < n ∧ G.part e.2 < n
  stores : Stores G
  folder : Nat → DataFolder
  localStore : ∀ p < n, (folder p).localStore (decimal p) = some (stores.localStore p)
  centralStore : ∀ p < n, ∀ q < n,
    (folder p).centralStore (decimal q) = some (stores.centralStore q)
  workers : Nat → List (List UInt8)
  named : ∀ p < n,
    ((workers p).map workerPartitionID).Perm ((List.range n).map fun q => some (decimal q))
  maps : Nat → Maps
  iddFile : List UInt8 → Option (List UInt8)
  written : ∀ p < n, iddFile (decimal p) =
    (calculateInDegreeDist (folder p) (decimal p) (workers p) (maps p)).map Prod.fst
  others : ∀ p, n ≤ p → iddFile (decimal p) = none

namespace InDegreeRun

variable {G : CutGraph} {n : Nat} (R : InDegreeRun G n)

theorem exists_table {p : Nat} (hp : p < n) :
    ∃ m, R.iddFile (decimal p) = some (degreeText m) ∧ Counts m (partialCount R.stores p n) := by
  rw [R.written p hp]
  exact exists_calculateInDegreeDist (R.localStore p hp) (R.centralStore p hp) (R.named p hp) _

/-- With enough fuel the loop over the first `j` files takes the maxima. -/
theorem exists_combineInDegrees {j : Nat} (hj : j ≤ n) :
    ∃ bound, ∀ fuel, bound ≤ fuel → ∃ M, combineInDegrees fuel j R.iddFile = some M ∧
      Combines M fun v => (Finset.range j).sup fun p => partialCount R.stores p n v := by
  induction j with
  | zero => exact ⟨0, fun fuel _ => ⟨∅, rfl, fun v => by simp⟩⟩
  | succ j ih =>
    obtain ⟨bound, hrun⟩ := ih (by omega)
    obtain ⟨m, hfile, hcounts⟩ := R.exists_table (show j < n by omega)
    refine ⟨max bound ((degreeText m).length + 2), fun fuel hfuel => ?_⟩
    obtain ⟨M, hM, hcombines⟩ := hrun fuel (le_of_max_le_left hfuel)
    obtain ⟨M', hM', hcombines'⟩ := combines_readLoop hcombines hcounts (le_of_max_le_right hfuel)
    refine ⟨M', ?_, hcombines'.congr fun v => ?_⟩
    · unfold combineInDegrees at hM ⊢
      rw [range_succ, foldlM_append, hM]
      simpa [hfile] using hM'
    · rw [Finset.range_add_one, Finset.sup_insert, sup_comm]

theorem sup_partialCount (v : Long) :
    ((Finset.range n).sup fun p => partialCount R.stores p n v) = (G.predecessors v).card := by
  refine le_antisymm (Finset.sup_le fun p _ => partialCount_le R.stores R.parts p v) ?_
  by_cases hnone : G.predecessors v = ∅
  · simp [hnone]
  · obtain ⟨u, hu⟩ := Finset.nonempty_iff_ne_empty.2 hnone
    have hv : G.part v < n := (R.parts _ (G.mem_predecessors.1 hu)).2
    rw [← partialCount_of_owner R.stores R.parts hv]
    exact Finset.le_sup (f := fun p => partialCount R.stores p n v) (Finset.mem_range.2 hv)

end InDegreeRun

/-- The combined table exists and gives every vertex with an incoming edge its in-degree. -/
def CombinedExact (G : CutGraph) (parCount : Nat) (iddFile : List UInt8 → Option (List UInt8)) :
    Prop :=
  ∃ fuel M, combineInDegrees fuel parCount iddFile = some M ∧ ∀ (v : Long) (k : Int),
      M[v]? = some k ↔ (∃ u, (u, v) ∈ G.edges) ∧ k = (G.predecessors v).card

theorem combineInDegrees_missing {iddFile : List UInt8 → Option (List UInt8)} {p parCount : Nat}
    (hp : p < parCount) (hfile : iddFile (decimal p) = none) (fuel : Nat) :
    combineInDegrees fuel parCount iddFile = none := by
  obtain ⟨l, r, hrange⟩ := append_of_mem (mem_range.2 hp)
  rw [combineInDegrees, hrange, foldlM_append]
  refine Option.bind_eq_none_iff.2 fun M _ => ?_
  rw [foldlM_cons, hfile, readLoop_missing]
  rfl

/-- **Combined in-degrees.** They are exact, and there at all, if and only if the graph has as many
parts as partitions are configured. -/
theorem combined_iff {G : CutGraph} {n parCount : Nat} (R : InDegreeRun G n) (hn : n ≤ parCount) :
    CombinedExact G parCount R.iddFile ↔ n = parCount := by
  constructor
  · rintro ⟨fuel, M, hM, -⟩
    by_contra hne
    rw [combineInDegrees_missing (show n < parCount by omega) (R.others n le_rfl)] at hM
    exact nomatch hM
  · rintro rfl
    obtain ⟨fuel, hrun⟩ := R.exists_combineInDegrees le_rfl
    obtain ⟨M, hM, hcombines⟩ := hrun fuel le_rfl
    refine ⟨fuel, M, hM, fun v k => ?_⟩
    have hedge : (G.predecessors v).card ≠ 0 ↔ ∃ u, (u, v) ∈ G.edges := by
      rw [Finset.card_ne_zero]
      exact exists_congr fun u => G.mem_predecessors
    rw [(hcombines.congr R.sup_partialCount) v, ← hedge]
    split_ifs with hzero
    · exact iff_of_false nofun fun h => h.1 hzero
    · rw [Option.some.injEq, and_iff_right hzero, eq_comm]

/-! ## A run over canonical folders -/

/-- The worker of a part: `h:1:` and the part. -/
def workerName (q : Nat) : List UInt8 := 104 :: 58 :: 49 :: 58 :: decimal q

theorem workerPartitionID_workerName (q : Nat) :
    workerPartitionID (workerName q) = some (decimal q) := by
  have hsplit : split 58 ([104] ++ 58 :: ([49] ++ 58 :: decimal q)) = [[104], [49], decimal q] := by
    rw [split_line (by decide), split_line (by decide),
      split_of_notMem (notMem_decimal rfl _) (decimal_ne_nil _)]
  exact congrArg (·[2]?) hsplit

/-- Every worker has the folder of the graph, and the lists name the parts in order. -/
def CutGraph.inDegreeRun (G : CutGraph) (n : Nat)
    (parts : ∀ e ∈ G.edges, G.part e.1 < n ∧ G.part e.2 < n) : InDegreeRun G n where
  parts := parts
  stores := G.stores
  folder _ := G.folder
  localStore p _ := by simp [folder, ofDigits_decimal]
  centralStore p _ q _ := by simp [folder, ofDigits_decimal]
  workers _ := (List.range n).map workerName
  named p _ := by
    rw [map_map]
    exact Perm.of_eq (map_congr_left fun q _ => workerPartitionID_workerName q)
  maps _ := .clear
  iddFile name :=
    if ofDigits name < n then
      (calculateInDegreeDist G.folder name ((List.range n).map workerName) .clear).map Prod.fst
    else none
  written p hp := by rw [ofDigits_decimal, if_pos hp]
  others p hp := by rw [ofDigits_decimal, if_neg (by omega)]

/-- The run for the triangle, in two parts. -/
def cutTriangleRun : InDegreeRun cutTriangle 2 := cutTriangle.inDegreeRun 2 (by simp [cutTriangle])

theorem cutTriangle_combined : CombinedExact cutTriangle 2 cutTriangleRun.iddFile :=
  (combined_iff cutTriangleRun (show 2 ≤ 2 from le_rfl)).2 rfl

/-- With a third partition configured, the combination of the two files does not end. -/
theorem cutTriangle_not_combined : ¬ CombinedExact cutTriangle 3 cutTriangleRun.iddFile := by
  rintro ⟨fuel, M, hM, -⟩
  rw [combineInDegrees_missing (show 2 < 3 by decide) (cutTriangleRun.others 2 le_rfl)] at hM
  exact nomatch hM

end JasmineGraph.Instance
