import JasmineGraph.Bytes.Lines
import JasmineGraph.Schedule

/-!
# Composite aggregation: who counts a combination of files

The model of the composite loop of `TriangleCountExecutor::getTriangleCount` with `proceedOrNot` and
`updateMap` (`frontend/core/executor/impl/TriangleCountExecutor.cpp`). Every thread of a job goes
through the job's combinations of composite central store files. Where its partition is in the
combination's file names it asks `proceedOrNot`, which compares the weight of the partition with all
weights of the process: if one is smaller the thread goes on to the next combination and does not
come back to this one; otherwise the weight is raised, until `updateMap` lowers it again. A thread
that may proceed claims the combination in the map of its job, and aggregates it if nobody has.

A step is what a thread does under one of the two mutexes, or the aggregation itself. Any number of
jobs run at once. The threads are a type `T` with the job and the partition of each, so a job may
also have two threads for one partition. `aggregateWeightMap` is unordered; the loop over it looks
for a smaller weight, and which of several it finds does not matter to the result.
-/

namespace JasmineGraph.Executor.Composite

open Bytes Schedule List Function Std.TreeMap

abbrev FileList := List (List UInt8)

/-! ## File names -/

/-- `fileName.substr(0, fileName.find_last_of("."))`; all of it when there is no dot. -/
def rawFileName (fileName : List UInt8) : List UInt8 :=
  if 46 ∈ fileName then (fileName.reverse.dropWhile (· ≠ 46)).tail.reverse else fileName

/-- The partitions in the names of the files: the parts from index 2 on. -/
def partitionSet (fileList : FileList) : List (List UInt8) :=
  fileList.flatMap fun fileName => (split 95 (rawFileName fileName)).drop 2

/-- `combinationKey`: the names with a colon behind each, the last name first. -/
def combinationKey (fileList : FileList) : List UInt8 :=
  fileList.foldl (fun key fileName => fileName ++ 58 :: key) []

/-! ## Weights -/

abbrev WeightMap := Std.TreeMap Int Int

def touch (aggregateWeightMap : WeightMap) (id : Int) : WeightMap :=
  aggregateWeightMap.insert id (aggregateWeightMap.getD id 0)

def proceedOrNot (aggregateWeightMap : WeightMap) (partitionSet : List (List UInt8))
    (partitionId : Nat) : WeightMap × Bool :=
  let ids := partitionSet.map atoi
  let aggregateWeightMap := ids.foldl touch aggregateWeightMap
  let tempWeightMap : WeightMap :=
    ids.foldl (fun temp id => temp.insert id (aggregateWeightMap.getD id 0)) ∅
  let currentWorkerWeight := tempWeightMap.getD partitionId 0
  let entryWithMinValue := aggregateWeightMap.foldl
    (fun (entry : Int × Int) id weight => if entry.2 > weight then (id, weight) else entry)
    ((partitionId : Int), currentWorkerWeight)
  if entryWithMinValue.1 = partitionId then
    (aggregateWeightMap.insert partitionId (aggregateWeightMap.getD partitionId 0 + 1), true)
  else (aggregateWeightMap, false)

def updateMap (aggregateWeightMap : WeightMap) (partitionId : Nat) : WeightMap :=
  aggregateWeightMap.insert partitionId (aggregateWeightMap.getD partitionId 0 - 1)

theorem getD_touch (m : WeightMap) (id q : Int) : (touch m id).getD q 0 = m.getD q 0 := by
  rw [touch, getD_insert]
  split_ifs with h
  · rw [compare_eq_iff_eq.1 h]
  · rfl

theorem getD_foldl_touch (ids : List Int) (m : WeightMap) (q : Int) :
    (ids.foldl touch m).getD q 0 = m.getD q 0 := by
  induction ids generalizing m with
  | nil => rfl
  | cons id ids ih => rw [foldl_cons, ih, getD_touch]

theorem getD_add (m : WeightMap) (p : Nat) (w q : Int) :
    (m.insert (p : Int) w).getD q 0 = if q = p then w else m.getD q 0 := by
  rw [getD_insert]
  by_cases h : q = p
  · rw [if_pos h, if_pos (compare_eq_iff_eq.2 h.symm)]
  · rw [if_neg h, if_neg fun hc => h (compare_eq_iff_eq.1 hc).symm]

theorem getD_proceedOrNot (m : WeightMap) (set : List (List UInt8)) (p : Nat) (q : Int) :
    (proceedOrNot m set p).1.getD q 0 =
      if (proceedOrNot m set p).2 = true ∧ q = p then m.getD p 0 + 1 else m.getD q 0 := by
  unfold proceedOrNot
  dsimp only
  split_ifs with h1 h2 h2
  · rw [getD_add, if_pos h2.2, getD_foldl_touch]
  · rw [getD_add, if_neg fun hq => h2 ⟨rfl, hq⟩, getD_foldl_touch]
  · exact absurd h2.1 (by decide)
  · rw [getD_foldl_touch]

theorem getD_tempWeightMap (ids : List Int) (m temp : WeightMap) {p : Int} (hp : m.getD p 0 = 0)
    (ht : temp.getD p 0 = 0) :
    (ids.foldl (fun temp id => temp.insert id (m.getD id 0)) temp).getD p 0 = 0 := by
  induction ids generalizing temp with
  | nil => exact ht
  | cons id ids ih =>
    refine ih (temp.insert id (m.getD id 0)) ?_
    rw [getD_insert]
    split_ifs with h
    · rw [compare_eq_iff_eq.1 h, hp]
    · exact ht

/-- The loop finds nothing below a weight that is at most all others. -/
theorem foldl_min (l : List (Int × Int)) (entry : Int × Int) (h : ∀ e ∈ l, entry.2 ≤ e.2) :
    l.foldl (fun entry e => if entry.2 > e.2 then (e.1, e.2) else entry) entry = entry := by
  induction l with
  | nil => rfl
  | cons e l ih =>
    rw [foldl_cons, if_neg (not_lt.2 (h e mem_cons_self))]
    exact ih fun e he => h e (mem_cons_of_mem _ he)

/-- **A partition of weight 0 is not refused.** -/
theorem proceedOrNot_of_zero {m : WeightMap} {p : Nat} (hp : m.getD p 0 = 0)
    (hnonneg : ∀ q, 0 ≤ m.getD q 0) (set : List (List UInt8)) : (proceedOrNot m set p).2 = true := by
  unfold proceedOrNot
  dsimp only
  rw [getD_tempWeightMap _ _ _ (by rw [getD_foldl_touch, hp]) (by simp),
    foldl_eq_foldl_toList, foldl_min, if_pos rfl]
  intro e he
  have hvalue := Std.TreeMap.mem_toList_iff_getElem?_eq_some.1 he
  have hweight := hnonneg e.1
  rwa [← getD_foldl_touch (set.map atoi), getD_eq_getD_getElem?, hvalue] at hweight

/-! ## Keys -/

/-- Names without a colon, of which the key forgets nothing. -/
def ColonFree (fileList : FileList) : Prop := ∀ fileName ∈ fileList, 58 ∉ fileName

theorem split_fileName {fileName : List UInt8} (h : 58 ∉ fileName) (key : List UInt8) :
    split 58 (fileName ++ 58 :: key) = fileName :: split 58 key := by
  rw [split_append_delimiter, split_concat_delimiter]
  by_cases hnil : fileName = []
  · subst hnil
    rfl
  · have hlast : fileName.getLast? ≠ some 58 := fun hlast => h (mem_of_getLast? hlast)
    rw [if_neg (not_or.2 ⟨hnil, hlast⟩), split_of_notMem h hnil, singleton_append]

theorem split_combinationKey {fileList : FileList} (h : ColonFree fileList) :
    split 58 (combinationKey fileList) = fileList.reverse := by
  have hfold : ∀ (fileList : FileList) (key : List UInt8), ColonFree fileList →
      split 58 (fileList.foldl (fun key fileName => fileName ++ 58 :: key) key) =
        fileList.reverse ++ split 58 key := by
    intro fileList
    induction fileList with
    | nil => intro key _; rfl
    | cons fileName fileList ih =>
      intro key h
      rw [foldl_cons, ih _ fun f hf => h f (mem_cons_of_mem _ hf),
        split_fileName (h fileName mem_cons_self), reverse_cons, append_assoc,
        singleton_append]
  rw [combinationKey, hfold fileList [] h, split_nil, append_nil]

theorem combinationKey_inj {fileList fileList' : FileList} (h : ColonFree fileList)
    (h' : ColonFree fileList') (heq : combinationKey fileList = combinationKey fileList') :
    fileList = fileList' := by
  have hsplit := congrArg (split 58) heq
  rw [split_combinationKey h, split_combinationKey h'] at hsplit
  exact reverse_injective hsplit

/-! ## Threads -/

/-- Where a thread stands, with the combinations it has yet to look at. -/
inductive Pc where
  | loop (rest : List FileList)
  /-- `proceedOrNot` has returned `true`. -/
  | claiming (fileList : FileList) (rest : List FileList)
  | aggregating (fileList : FileList) (rest : List FileList)
  /-- Before `updateMap`. -/
  | releasing (rest : List FileList)
deriving DecidableEq

/-- Between `proceedOrNot` and `updateMap`. -/
def Pc.InProgress : Pc → Prop
  | .loop _ => False
  | _ => True

instance (pc : Pc) : Decidable pc.InProgress := by
  cases pc <;> unfold Pc.InProgress <;> infer_instance

/-- The jobs and their threads. -/
structure Jobs (J T : Type) where
  job : T → J
  partitionId : T → Nat
  fileCombinations : J → List FileList

/-- The state of the process: a claim in the `combinationWorkerMap` of a job is a key and the thread
whose partition is stored with it; `aggregated` is the trace of the aggregations. -/
structure State (J T : Type) where
  aggregateWeightMap : WeightMap
  combinationWorkerMap : J → List (List UInt8 × T)
  threads : T → Pc
  aggregated : List (T × FileList)

variable {J T : Type} [DecidableEq J] [DecidableEq T]

namespace State

def move (s : State J T) (t : T) (pc : Pc) : State J T :=
  { s with threads := Function.update s.threads t pc }

def weigh (s : State J T) (weights : WeightMap) : State J T :=
  { s with aggregateWeightMap := weights }

def claim (s : State J T) (j : J) (key : List UInt8) (t : T) : State J T :=
  let claims := s.combinationWorkerMap j ++ [(key, t)]
  { s with combinationWorkerMap := Function.update s.combinationWorkerMap j claims }

def aggregate (s : State J T) (t : T) (fileList : FileList) : State J T :=
  { s with aggregated := s.aggregated ++ [(t, fileList)] }

end State

/-- A step of a thread in the composite loop of `getTriangleCount`. -/
def step (jobs : Jobs J T) (t : T) (s : State J T) : Option (State J T) :=
  let partitionId := jobs.partitionId t
  match s.threads t with
  | .loop [] => none
  | .loop (fileList :: rest) =>
    if decimal partitionId ∈ partitionSet fileList then
      let result := proceedOrNot s.aggregateWeightMap (partitionSet fileList) partitionId
      some ((s.weigh result.1).move t (if result.2 then .claiming fileList rest else .loop rest))
    else some (s.move t (.loop rest))
  | .claiming fileList rest =>
    let key := combinationKey fileList
    if (s.combinationWorkerMap (jobs.job t)).any (fun claim => claim.1 = key) then
      some (s.move t (.releasing rest))
    else some ((s.claim (jobs.job t) key t).move t (.aggregating fileList rest))
  | .aggregating fileList rest => some ((s.aggregate t fileList).move t (.releasing rest))
  | .releasing rest =>
    some ((s.weigh (updateMap s.aggregateWeightMap partitionId)).move t (.loop rest))

/-- The jobs are started; `initiateAggregateMap` or an earlier job has made some entries. -/
def start (jobs : Jobs J T) (weights : WeightMap) : State J T where
  aggregateWeightMap := weights
  combinationWorkerMap := fun _ => []
  threads := fun t => .loop (jobs.fileCombinations (jobs.job t))
  aggregated := []

def Claimed (s : State J T) (j : J) (fileList : FileList) : Prop :=
  ∃ t, (combinationKey fileList, t) ∈ s.combinationWorkerMap j

/-- The thread has left its loop. -/
def Finished (s : State J T) (t : T) : Prop := s.threads t = .loop []

section Steps

variable {jobs : Jobs J T} {s s' : State J T} {t : T}

/-- Everything a step of a thread can do. -/
inductive Move (jobs : Jobs J T) (t : T) (s : State J T) : State J T → Prop
  | pass {fileList rest} (hpc : s.threads t = .loop (fileList :: rest))
    (hmem : decimal (jobs.partitionId t) ∉ partitionSet fileList) :
    Move jobs t s (s.move t (.loop rest))
  | proceed {fileList rest result} (hpc : s.threads t = .loop (fileList :: rest))
    (hmem : decimal (jobs.partitionId t) ∈ partitionSet fileList)
    (hresult : proceedOrNot s.aggregateWeightMap (partitionSet fileList) (jobs.partitionId t) =
      (result, true)) : Move jobs t s ((s.weigh result).move t (.claiming fileList rest))
  | refused {fileList rest result} (hpc : s.threads t = .loop (fileList :: rest))
    (hmem : decimal (jobs.partitionId t) ∈ partitionSet fileList)
    (hresult : proceedOrNot s.aggregateWeightMap (partitionSet fileList) (jobs.partitionId t) =
      (result, false)) : Move jobs t s ((s.weigh result).move t (.loop rest))
  | taken {fileList rest} (hpc : s.threads t = .claiming fileList rest)
    (hclaimed : Claimed s (jobs.job t) fileList) : Move jobs t s (s.move t (.releasing rest))
  | claim {fileList rest} (hpc : s.threads t = .claiming fileList rest)
    (hfree : ¬ Claimed s (jobs.job t) fileList) : Move jobs t s
      ((s.claim (jobs.job t) (combinationKey fileList) t).move t (.aggregating fileList rest))
  | aggregate {fileList rest} (hpc : s.threads t = .aggregating fileList rest) :
    Move jobs t s ((s.aggregate t fileList).move t (.releasing rest))
  | release {rest} (hpc : s.threads t = .releasing rest) : Move jobs t s
      ((s.weigh (updateMap s.aggregateWeightMap (jobs.partitionId t))).move t (.loop rest))

theorem move (h : step jobs t s = some s') : Move jobs t s s' := by
  unfold step at h
  dsimp only at h
  split at h
  · cases h
  · rename_i fileList rest hpc
    split_ifs at h with hmem hresult <;> obtain rfl := Option.some.inj h
    · exact .proceed hpc hmem (Prod.ext rfl hresult)
    · exact .refused hpc hmem (Prod.ext rfl (by simpa using hresult))
    · exact .pass hpc hmem
  · rename_i fileList rest hpc
    split_ifs at h with hany <;> obtain rfl := Option.some.inj h
    · obtain ⟨⟨key, t'⟩, hmem, hkey⟩ := any_eq_true.1 hany
      exact .taken hpc ⟨t', of_decide_eq_true hkey ▸ hmem⟩
    · refine .claim hpc fun ⟨t', hmem⟩ => hany ?_
      exact any_eq_true.2 ⟨_, hmem, decide_eq_true rfl⟩
  · exact Option.some.inj h ▸ .aggregate ‹_›
  · exact Option.some.inj h ▸ .release ‹_›

end Steps

/-! ## Weights and threads -/

section Weights

variable [Fintype T] {jobs : Jobs J T} {s s' : State J T} {t : T}

structure Weighted (jobs : Jobs J T) (weights : WeightMap) (threads : T → Pc) : Prop where
  eq_card : ∀ p : Nat, weights.getD p 0 =
    ((Finset.univ.filter fun t => jobs.partitionId t = p ∧ (threads t).InProgress).card : Int)
  nonneg : ∀ q, 0 ≤ weights.getD q 0

def Pc.share (pc : Pc) : Int := if pc.InProgress then 1 else 0

omit [DecidableEq J] in
theorem Weighted.move {weights weights' : WeightMap} {threads : T → Pc} {pc : Pc}
    (hw : Weighted jobs weights threads)
    (hweights : ∀ q : Int, weights'.getD q 0 =
      if q = jobs.partitionId t then weights.getD q 0 + pc.share - (threads t).share
      else weights.getD q 0) :
    Weighted jobs weights' (Function.update threads t pc) := by
  have hcard : ∀ p : Nat, weights'.getD p 0 = ((Finset.univ.filter fun t' =>
      jobs.partitionId t' = p ∧ (Function.update threads t pc t').InProgress).card : Int) := by
    intro p
    have hupdate := card_update (fun t' pc => jobs.partitionId t' = p ∧ pc.InProgress) threads t pc
    have hp := hw.eq_card p
    rw [hweights p]
    unfold Pc.share
    by_cases hpt : (p : Int) = jobs.partitionId t
    · have hpt' : jobs.partitionId t = p := by omega
      simp only [hpt', true_and] at hupdate
      split_ifs at hupdate ⊢ <;> omega
    · have hpt' : jobs.partitionId t ≠ p := by omega
      simp only [hpt', false_and, if_false, Nat.add_zero] at hupdate
      rw [if_neg hpt, hupdate]
      exact hp
  refine ⟨hcard, fun q => ?_⟩
  by_cases hq : q = jobs.partitionId t
  · rw [hq, hcard]
    exact Int.natCast_nonneg _
  · rw [hweights q, if_neg hq]
    exact hw.nonneg q

omit [DecidableEq J] in
theorem Weighted.keep {weights : WeightMap} {threads : T → Pc} {pc : Pc}
    (hw : Weighted jobs weights threads) (hshare : pc.share = (threads t).share) :
    Weighted jobs weights (Function.update threads t pc) := by
  refine hw.move fun q => ?_
  rw [hshare, Int.add_sub_cancel, ite_self]

theorem Weighted.step (hw : Weighted jobs s.aggregateWeightMap s.threads)
    (h : Composite.step jobs t s = some s') : Weighted jobs s'.aggregateWeightMap s'.threads := by
  cases Composite.move h with
  | @proceed fileList _ _ hpc _ hresult =>
    refine hw.move fun q => ?_
    have hget := getD_proceedOrNot s.aggregateWeightMap (partitionSet fileList) (jobs.partitionId t) q
    rw [hresult] at hget
    refine hget.trans ?_
    rw [hpc]
    by_cases hq : q = jobs.partitionId t
    · rw [hq]
      simp [Pc.share, Pc.InProgress]
    · rw [if_neg fun h => hq h.2, if_neg hq]
  | @refused fileList _ _ hpc _ hresult =>
    refine hw.move fun q => ?_
    have hget := getD_proceedOrNot s.aggregateWeightMap (partitionSet fileList) (jobs.partitionId t) q
    rw [hresult] at hget
    refine hget.trans ?_
    rw [hpc]
    simp [Pc.share, Pc.InProgress]
  | release hpc =>
    refine hw.move fun q => ?_
    change (updateMap _ _).getD q 0 = _
    rw [updateMap, getD_add, hpc]
    by_cases hq : q = jobs.partitionId t
    · rw [hq]
      simp [Pc.share, Pc.InProgress]
    · rw [if_neg hq, if_neg hq]
  | pass hpc | taken hpc | claim hpc | aggregate hpc => exact hw.keep (hpc ▸ rfl)

end Weights

/-! ## Claims and aggregations -/

section Claims

variable {jobs : Jobs J T} {s s' : State J T} {t : T}

def Pc.remaining : Pc → List FileList
  | .loop rest => rest
  | .claiming fileList rest => fileList :: rest
  | .aggregating fileList rest => fileList :: rest
  | .releasing rest => rest

def Pc.Pending (pc : Pc) (fileList : FileList) : Prop := ∃ rest, pc = .aggregating fileList rest

/-- A claim is an aggregation, done or pending, and no combination is claimed twice in a job. -/
structure Claims (jobs : Jobs J T) (s : State J T) : Prop where
  suffix : ∀ t, (s.threads t).remaining <:+ jobs.fileCombinations (jobs.job t)
  unique : ∀ j key t t', (key, t) ∈ s.combinationWorkerMap j →
    (key, t') ∈ s.combinationWorkerMap j → t = t'
  owner : ∀ j key t, (key, t) ∈ s.combinationWorkerMap j → jobs.job t = j
  claimed_iff : ∀ t, ∀ fileList ∈ jobs.fileCombinations (jobs.job t),
    ((combinationKey fileList, t) ∈ s.combinationWorkerMap (jobs.job t) ↔
      (t, fileList) ∈ s.aggregated ∨ (s.threads t).Pending fileList)
  pending : ∀ t fileList, (s.threads t).Pending fileList → (t, fileList) ∉ s.aggregated
  nodup : s.aggregated.Nodup

omit [DecidableEq J] in
theorem suffix_update {threads : T → Pc} {pc : Pc}
    (h : ∀ t, (threads t).remaining <:+ jobs.fileCombinations (jobs.job t))
    (hpc : pc.remaining <:+ (threads t).remaining) :
    ∀ t', (Function.update threads t pc t').remaining <:+ jobs.fileCombinations (jobs.job t') :=
  forall_update
    (P := fun t' (pc : Pc) => pc.remaining <:+ jobs.fileCombinations (jobs.job t')) h
    (hpc.trans (h t))

omit [DecidableEq J] in
theorem Claims.move (hs : Claims jobs s) {pc : Pc} (weights : WeightMap)
    (hpc : pc.remaining <:+ (s.threads t).remaining) (hold : ∀ fl, ¬ (s.threads t).Pending fl)
    (hnew : ∀ fl, ¬ pc.Pending fl) : Claims jobs ((s.weigh weights).move t pc) := by
  have hpending : ∀ t' fl,
      (Function.update s.threads t pc t').Pending fl ↔ (s.threads t').Pending fl := fun t' fl =>
    update_iff (P := fun _ (pc : Pc) => pc.Pending fl) (iff_of_false (hnew fl) (hold fl)) t'
  refine ⟨suffix_update hs.suffix hpc, hs.unique, hs.owner, fun t' fl hfl => ?_, fun t' fl h => ?_,
    hs.nodup⟩
  · exact (hs.claimed_iff t' fl hfl).trans (or_congr_right (hpending t' fl).symm)
  · exact hs.pending t' fl ((hpending t' fl).1 h)

omit [DecidableEq T] in
theorem mem_claim (s : State J T) (j j' : J) (key key' : List UInt8) (t t' : T) :
    (key', t') ∈ (s.claim j key t).combinationWorkerMap j' ↔
      (key', t') ∈ s.combinationWorkerMap j' ∨ j' = j ∧ key' = key ∧ t' = t := by
  unfold State.claim
  by_cases hj : j' = j
  · subst hj
    simp
  · simp [hj]

theorem Claims.claim (hs : Claims jobs s) (hnames : ∀ j, ∀ fl ∈ jobs.fileCombinations j, ColonFree fl)
    {fileList : FileList} {rest : List FileList} (hpc : s.threads t = .claiming fileList rest)
    (hfree : ¬ Claimed s (jobs.job t) fileList) :
    Claims jobs ((s.claim (jobs.job t) (combinationKey fileList) t).move t
      (.aggregating fileList rest)) := by
  have hmem : fileList ∈ jobs.fileCombinations (jobs.job t) := by
    refine (hs.suffix t).subset ?_
    rw [hpc]
    exact mem_cons_self
  have hkey : ∀ fl ∈ jobs.fileCombinations (jobs.job t),
      combinationKey fl = combinationKey fileList ↔ fl = fileList := fun fl hfl =>
    ⟨combinationKey_inj (hnames _ fl hfl) (hnames _ fileList hmem), congrArg combinationKey⟩
  have hpending : ∀ t' fl, (Function.update s.threads t (.aggregating fileList rest) t').Pending fl ↔
      (s.threads t').Pending fl ∨ t' = t ∧ fl = fileList := by
    intro t' fl
    by_cases ht : t' = t
    · subst ht
      simp [Pc.Pending, hpc, eq_comm]
    · simp [ht]
  -- the thread has not aggregated the combination: it would have claimed it before
  have hnot : (t, fileList) ∉ s.aggregated := fun h =>
    hfree ⟨t, (hs.claimed_iff t fileList hmem).2 (.inl h)⟩
  have hsuffix : (Pc.aggregating fileList rest).remaining <:+ (s.threads t).remaining := by
    rw [hpc]
    exact suffix_refl _
  refine ⟨suffix_update hs.suffix hsuffix, fun j key u u' hu hu' => ?_,
    fun j key u h => ?_, fun t' fl hfl => ?_, fun t' fl h => ?_, hs.nodup⟩
  · rcases (mem_claim ..).1 hu with hold | ⟨hj, hk, hut⟩ <;>
      rcases (mem_claim ..).1 hu' with hold' | ⟨hj', hk', hut'⟩
    · exact hs.unique j key u u' hold hold'
    · exact absurd ⟨u, hj' ▸ hk' ▸ hold⟩ hfree
    · exact absurd ⟨u', hj ▸ hk ▸ hold'⟩ hfree
    · exact hut.trans hut'.symm
  · rcases (mem_claim ..).1 h with h | ⟨rfl, -, rfl⟩
    · exact hs.owner j key u h
    · rfl
  · refine (mem_claim ..).trans ?_
    have hold := hs.claimed_iff t' fl hfl
    change _ ↔ (t', fl) ∈ s.aggregated ∨ (Function.update s.threads t _ t').Pending fl
    rw [hpending, hold, or_assoc]
    refine or_congr_right (or_congr_right ?_)
    constructor
    · rintro ⟨-, hk, rfl⟩
      exact ⟨rfl, (hkey fl hfl).1 hk⟩
    · rintro ⟨rfl, rfl⟩
      exact ⟨rfl, rfl, rfl⟩
  · rcases (hpending t' fl).1 h with h | ⟨rfl, rfl⟩
    · exact hs.pending t' fl h
    · exact hnot

omit [DecidableEq J] in
theorem Claims.aggregate (hs : Claims jobs s) {fileList : FileList} {rest : List FileList}
    (hpc : s.threads t = .aggregating fileList rest) :
    Claims jobs ((s.aggregate t fileList).move t (.releasing rest)) := by
  have hpending : ∀ t' fl, (s.threads t').Pending fl ↔
      (Function.update s.threads t (.releasing rest) t').Pending fl ∨ t' = t ∧ fl = fileList := by
    intro t' fl
    by_cases ht : t' = t
    · subst ht
      simp [Pc.Pending, hpc, eq_comm]
    · simp [ht]
  have hnew : ∀ t' fl, (t', fl) ∈ s.aggregated ++ [(t, fileList)] ↔
      (t', fl) ∈ s.aggregated ∨ t' = t ∧ fl = fileList := by
    simp
  have hsuffix : (Pc.releasing rest).remaining <:+ (s.threads t).remaining := by
    rw [hpc]
    exact suffix_cons _ _
  refine ⟨suffix_update hs.suffix hsuffix, hs.unique, hs.owner, fun t' fl hfl => ?_,
    fun t' fl h => ?_, ?_⟩
  · refine (hs.claimed_iff t' fl hfl).trans ?_
    change _ ↔ (t', fl) ∈ s.aggregated ++ [(t, fileList)] ∨ _
    rw [hpending, hnew, or_assoc]
    exact or_congr_right or_comm
  · change (t', fl) ∉ s.aggregated ++ [(t, fileList)]
    rw [hnew]
    rintro (hmem | ⟨rfl, rfl⟩)
    · exact hs.pending t' fl ((hpending t' fl).2 (.inl h)) hmem
    · obtain ⟨rest', hrest⟩ := h
      simp only [State.move, update_self] at hrest
      cases hrest
  · have hfresh := hs.pending t fileList ⟨rest, hpc⟩
    exact nodup_append.2 ⟨hs.nodup, nodup_singleton _, fun x hx y hy hxy => by
      rw [mem_singleton] at hy
      exact hfresh (hy ▸ hxy ▸ hx)⟩

theorem Claims.step (hnames : ∀ j, ∀ fl ∈ jobs.fileCombinations j, ColonFree fl)
    (hs : Claims jobs s) (h : Composite.step jobs t s = some s') : Claims jobs s' := by
  cases Composite.move h with
  | claim hpc hfree => exact hs.claim hnames hpc hfree
  | aggregate hpc => exact hs.aggregate hpc
  | pass hpc | taken hpc =>
    exact hs.move s.aggregateWeightMap (by rw [hpc]; exact suffix_cons _ _)
      (by simp [hpc, Pc.Pending]) (by simp [Pc.Pending])
  | refused hpc =>
    exact hs.move _ (by rw [hpc]; exact suffix_cons _ _) (by simp [hpc, Pc.Pending])
      (by simp [Pc.Pending])
  | proceed hpc | release hpc =>
    exact hs.move _ (by rw [hpc]; exact suffix_refl _) (by simp [hpc, Pc.Pending])
      (by simp [Pc.Pending])

end Claims

/-! ## Runs without a refusal -/

section Runs

variable [Fintype T] {jobs : Jobs J T} {s s' : State J T} {t : T} {weights : WeightMap}

/-- When a thread calls `proceedOrNot`, no thread of its partition is in progress. -/
def Alone (jobs : Jobs J T) (t : T) (s : State J T) : Prop :=
  ∀ fileList rest, s.threads t = .loop (fileList :: rest) →
    decimal (jobs.partitionId t) ∈ partitionSet fileList →
    ∀ t', jobs.partitionId t' = jobs.partitionId t → ¬ (s.threads t').InProgress

def Thorough (jobs : Jobs J T) (s : State J T) : Prop :=
  ∀ t done, done ++ (s.threads t).remaining = jobs.fileCombinations (jobs.job t) →
    ∀ fl ∈ done, decimal (jobs.partitionId t) ∈ partitionSet fl → Claimed s (jobs.job t) fl

omit [DecidableEq J] [Fintype T] in
theorem Thorough.move (hs : Thorough jobs s) {pc : Pc}
    (hthreads : s'.threads = Function.update s.threads t pc)
    (hclaims : ∀ j fl, Claimed s j fl → Claimed s' j fl)
    (hsuffix : (s.threads t).remaining <:+ jobs.fileCombinations (jobs.job t))
    (hpc : pc.remaining = (s.threads t).remaining ∨
      ∃ fl, (s.threads t).remaining = fl :: pc.remaining ∧
        (decimal (jobs.partitionId t) ∈ partitionSet fl → Claimed s' (jobs.job t) fl)) :
    Thorough jobs s' := by
  intro t' done hdone fl hfl hmem
  rw [hthreads] at hdone
  by_cases ht : t' = t
  · subst ht
    rw [update_self] at hdone
    rcases hpc with hsame | ⟨fl', hcons, hclaimed⟩
    · exact hclaims _ _ (hs t' done (hsame ▸ hdone) fl hfl hmem)
    · -- one combination more than before
      obtain ⟨before, hbefore⟩ := hsuffix
      have hsplit : done = before ++ [fl'] := by
        refine append_cancel_right (hdone.trans ?_)
        rw [← hbefore, hcons, append_assoc, singleton_append]
      rw [hsplit, mem_append, mem_singleton] at hfl
      rcases hfl with hfl | rfl
      · exact hclaims _ _ (hs t' before hbefore fl hfl hmem)
      · exact hclaimed hmem
  · rw [update_of_ne ht] at hdone
    exact hclaims _ _ (hs t' done hdone fl hfl hmem)

theorem Thorough.step (hw : Weighted jobs s.aggregateWeightMap s.threads) (hc : Claims jobs s)
    (hs : Thorough jobs s) (halone : Alone jobs t s) (h : Composite.step jobs t s = some s') :
    Thorough jobs s' := by
  have hsuffix := hc.suffix t
  cases Composite.move h with
  | @pass fileList _ hpc hmem =>
    exact hs.move rfl (fun _ _ => id) hsuffix
      (.inr ⟨fileList, by rw [hpc]; rfl, fun h => absurd h hmem⟩)
  | @refused fileList rest _ hpc hmem hresult =>
    have hzero : s.aggregateWeightMap.getD (jobs.partitionId t) 0 = 0 := by
      rw [hw.eq_card, Finset.card_eq_zero.2, Nat.cast_zero]
      refine Finset.filter_eq_empty_iff.2 fun t' _ hin => ?_
      exact halone fileList rest hpc hmem t' hin.1 hin.2
    have htrue := proceedOrNot_of_zero hzero hw.nonneg (partitionSet fileList)
    rw [hresult] at htrue
    cases htrue
  | @taken fileList _ hpc hclaimed =>
    exact hs.move rfl (fun _ _ => id) hsuffix
      (.inr ⟨fileList, by rw [hpc]; rfl, fun _ => hclaimed⟩)
  | claim hpc =>
    refine hs.move rfl (fun j fl => ?_) hsuffix (.inl (by rw [hpc]; rfl))
    rintro ⟨u, hu⟩
    exact ⟨u, (mem_claim ..).2 (.inl hu)⟩
  | @aggregate fileList rest hpc =>
    refine hs.move rfl (fun _ _ => id) hsuffix (.inr ⟨fileList, by rw [hpc]; rfl, fun _ => ⟨t, ?_⟩⟩)
    have hfl : fileList ∈ jobs.fileCombinations (jobs.job t) :=
      hsuffix.subset (by rw [hpc]; exact mem_cons_self)
    exact (hc.claimed_iff t fileList hfl).2 (.inr ⟨rest, hpc⟩)
  | proceed hpc | release hpc =>
    exact hs.move rfl (fun _ _ => id) hsuffix (.inl (by rw [hpc]; rfl))

omit [DecidableEq J] [DecidableEq T] in
theorem weighted_start (hzero : ∀ q, weights.getD q 0 = 0) :
    Weighted jobs (start jobs weights).aggregateWeightMap (start jobs weights).threads := by
  refine ⟨fun p => ?_, fun q => (hzero q).ge⟩
  rw [Finset.card_eq_zero.2 (Finset.filter_eq_empty_iff.2 fun t _ h => h.2)]
  exact hzero p

omit [DecidableEq J] [DecidableEq T] [Fintype T] in
theorem claims_start : Claims jobs (start jobs weights) where
  suffix t := suffix_refl _
  unique j key t t' h := by cases h
  owner j key t h := by cases h
  claimed_iff t fl _ := by simp [start, Pc.Pending]
  pending t fl _ h := by cases h
  nodup := nodup_nil

omit [DecidableEq J] [DecidableEq T] [Fintype T] in
theorem thorough_start : Thorough jobs (start jobs weights) := by
  intro t done hdone fl hfl
  have hnil : done = [] := self_eq_append_left.1 hdone.symm
  subst hnil
  cases hfl

/-- **Each combination once.** Let any number of jobs run, in any interleaving in which a thread
calls `proceedOrNot` only while no thread of its partition is between `proceedOrNot` and
`updateMap`. When the threads of a job have finished, every combination of the job that names the
partition of one of them has been aggregated by exactly one of them, and no thread has aggregated
a combination twice. -/
theorem aggregated_once {ts : List T} {j : J} {fileList : FileList}
    (hzero : ∀ q, weights.getD q 0 = 0)
    (hnames : ∀ j, ∀ fl ∈ jobs.fileCombinations j, ColonFree fl)
    (halone : Meets (step jobs) (Alone jobs) ts (start jobs weights))
    (hrun : run (step jobs) ts (start jobs weights) = some s)
    (hfinished : ∀ t, jobs.job t = j → Finished s t)
    (hmem : fileList ∈ jobs.fileCombinations j)
    (hpartition : ∃ t, jobs.job t = j ∧ decimal (jobs.partitionId t) ∈ partitionSet fileList) :
    (∃! t, jobs.job t = j ∧ (t, fileList) ∈ s.aggregated) ∧ s.aggregated.Nodup := by
  obtain ⟨hw, hc, ht⟩ := halone.invariant
    (I := fun s => Weighted jobs s.aggregateWeightMap s.threads ∧ Claims jobs s ∧ Thorough jobs s)
    (fun t s s' hs hC h => ⟨hs.1.step h, hs.2.1.step hnames h, hs.2.2.step hs.1 hs.2.1 hC h⟩) hrun
    ⟨weighted_start hzero, claims_start, thorough_start⟩
  -- what is claimed in the job is aggregated: nothing is pending any more
  have hdone : ∀ t, jobs.job t = j →
      ((combinationKey fileList, t) ∈ s.combinationWorkerMap j ↔ (t, fileList) ∈ s.aggregated) := by
    rintro t rfl
    refine (hc.claimed_iff t fileList hmem).trans (or_iff_left ?_)
    rintro ⟨rest, hrest⟩
    rw [hfinished t rfl] at hrest
    cases hrest
  obtain ⟨t₀, rfl, hset⟩ := hpartition
  have hall : jobs.fileCombinations (jobs.job t₀) ++ (s.threads t₀).remaining =
      jobs.fileCombinations (jobs.job t₀) := by
    rw [hfinished t₀ rfl]
    exact append_nil _
  obtain ⟨t, hclaim⟩ := ht t₀ _ hall fileList hmem hset
  have hjob := hc.owner _ _ t hclaim
  refine ⟨⟨t, ⟨hjob, (hdone t hjob).1 hclaim⟩, fun t' ⟨hjob', ht'⟩ => ?_⟩, hc.nodup⟩
  exact hc.unique _ _ t' t ((hdone t' hjob').2 ht') hclaim

omit [DecidableEq J] [DecidableEq T] [Fintype T] in
/-- A single job whose threads have different partitions never meets a thread of its partition. -/
theorem alone_of_injective (h : Injective jobs.partitionId) (t : T) (s : State J T) :
    Alone jobs t s := by
  intro fileList rest hpc _ t' ht'
  rw [h ht', hpc]
  exact id

end Runs

def bothPartitions : FileList := [ascii "1_compositecentralstore_0_1.gz"]

/-- A job with a thread for either partition. -/
def oneJob : Jobs Unit (Fin 2) := ⟨fun _ => (), fun t => t, fun _ => [bothPartitions]⟩

theorem aggregated_once_oneJob :
    ∃ s, run (step oneJob) [0, 1, 0, 0, 0, 1, 1] (start oneJob ∅) = some s ∧
      (∃! t, oneJob.job t = () ∧ (t, bothPartitions) ∈ s.aggregated) ∧ s.aggregated.Nodup := by
  obtain ⟨s, hrun, hfinished⟩ : ∃ s ∈ run (step oneJob) [0, 1, 0, 0, 0, 1, 1] (start oneJob ∅),
      ∀ t, s.threads t = .loop [] := by
    decide +kernel
  have hinj : Injective oneJob.partitionId := Fin.val_injective
  refine ⟨s, hrun, aggregated_once (fun q => getD_emptyc) ?_
    (Meets.of_forall (fun t _ => alone_of_injective hinj t) _) hrun
    (fun t _ => hfinished t) mem_cons_self ⟨0, rfl, by decide +kernel⟩⟩
  intro _ fl hfl
  obtain rfl := mem_singleton.1 hfl
  unfold ColonFree
  decide

/-- Two jobs with two threads each. -/
def twoJobs : Jobs Bool (Bool × Fin 2) :=
  ⟨Prod.fst, fun t => t.2, fun _ => [bothPartitions]⟩

/-- Either thread of the second job asks while the thread of the first job with the same partition
is in progress. Both are refused, and the second job ends without its combination. -/
theorem combination_skipped : (run (step twoJobs)
        [(false, 0), (true, 0), (false, 0), (false, 0), (false, 0),
          (false, 1), (true, 1), (false, 1), (false, 1)]
        (start twoJobs ∅)).map
      (fun s => (s.aggregated, decide (∀ t, s.threads t = .loop []))) =
    some ([((false, 0), bothPartitions)], true) := by
  decide +kernel

end JasmineGraph.Executor.Composite
