import JasmineGraph.Executor.AllocNetPlan
import JasmineGraph.MapLoop

/-!
# Load balancing of a triangle count: `filter_partitions`

The model of `scale_up` and `filter_partitions`
(`frontend/core/executor/impl/TriangleCountExecutor.cpp`). The function receives the partitions of
every worker, replicas included, and leaves each partition with one worker: by `alloc_plan` with one
of its holders, and if that does not work out for all of them, after asking for new workers, by
`alloc_net_plan` with any worker, to which it is transferred.

The ids of partitions are the integers behind their texts. The map of the partitions is what
`execute` reads from the rows of a `SELECT DISTINCT` joined with the workers, so a worker has a
partition once and is one of the workers; new workers are new. Addresses and ports of a transfer
are left out.
-/

namespace JasmineGraph.Executor.TriangleCount

open Bytes MapLoop List StdSort

/-! ## The input -/

/-- What `filter_partitions` finds: the workers with their addresses, the CPU usage by address, the
partitions of every worker, and the workers the controller starts when asked for a number. -/
structure Cluster where
  workers : List WorkerId
  address : WorkerId → List UInt8
  cpuUsage : List UInt8 → Option ℚ
  partitionMap : WorkerId → List PartitionId
  newWorkers : Int → List WorkerId
  workers_nodup : workers.Nodup
  id_ne_nil : ∀ w ∈ workers, w ≠ []
  mem_workers : ∀ {w p}, p ∈ partitionMap w → w ∈ workers
  partitionMap_nodup : ∀ w, (partitionMap w).Nodup
  newWorkers_nodup : ∀ n, (newWorkers n).Nodup
  newWorkers_new : ∀ n, ∀ w ∈ newWorkers n, w ∉ workers

namespace Cluster

variable (c : Cluster)

/-- `loads`: the number of cores in use, of four. -/
def loads (w : WorkerId) : Nat :=
  match c.cpuUsage (c.address w) with
  | none => 0
  | some load => (4 * if load < 0 then 0 else load).floor.toNat

def entries : List (PartitionId × WorkerId) :=
  c.workers.flatMap fun w => (c.partitionMap w).map fun p => (p, w)

/-- `P_AVAIL`: the workers that hold a partition. -/
def holders : PartitionId → List WorkerId := c.entries.foldl pushBack fun _ => []

def insertSet (remain : List PartitionId) (p : PartitionId) : List PartitionId :=
  if p ∈ remain then remain else remain.orderedInsert (· ≤ ·) p

/-- All partitions, the initial `remain`. -/
def partitions : List PartitionId := (c.entries.map Prod.fst).foldl insertSet []

/-- `p_avail`: the workers with a load of 3 and more are removed. -/
def available : PartitionId → List WorkerId :=
  c.workers.foldl (fun avail w =>
    if c.loads w < 3 then avail else fun p => (avail p).filter (· ≠ w)) c.holders

def start : Plan := ⟨fun _ => none, c.partitions, c.available, c.loads⟩

/-! ## `scale_up` -/

/-- The number of workers to ask for when so many cores are missing. -/
def workersFor (nCores : Int) : Int :=
  if 0 < nCores % 2 then nCores / 2 + 1 + 1 else nCores / 2 + 1

/-- The cores that are missing: three of a worker's four may be used. -/
def missingCores (loads : WorkerId → Nat) (copyCnt : Nat) : Int :=
  copyCnt + (c.workers.map loads).sum - 3 * c.workers.length

/-- The new workers, if any core is missing. -/
def added (loads : WorkerId → Nat) (copyCnt : Nat) : List WorkerId :=
  if c.missingCores loads copyCnt < 0 then []
  else c.newWorkers (workersFor (c.missingCores loads copyCnt))

/-- The workers and their loads after `scale_up`: `(int) 0.1` for a new one. -/
def scaleUp (loads : WorkerId → Nat) (copyCnt : Nat) : List WorkerId × (WorkerId → Nat) :=
  (c.workers ++ c.added loads copyCnt, fun w => if w ∈ c.added loads copyCnt then 0 else loads w)

end Cluster

/-! ## `filter_partitions` -/

/-- The new `partitionMap`, and the transfers that are started, from and to a worker. -/
structure Outcome where
  partitionMap : WorkerId → List PartitionId
  transfer : PartitionId → Option (WorkerId × WorkerId)

/-- The loop over `alloc` that fills `partitionMap`. -/
def listed (partitions : List PartitionId) (alloc : PartitionId → Option WorkerId) :
    WorkerId → List PartitionId :=
  (partitions.filterMap fun p => (alloc p).map fun w => (w, p)).foldl pushBack fun _ => []

def NetPlan.final (s : NetPlan) (p : PartitionId) : Option WorkerId :=
  match s.transfer p with
  | some t => some t.2
  | none => s.alloc p

/-- What is done about the partitions that remain after `alloc_plan`. -/
def transferRemaining (sort : StdSort) (c : Cluster) (s : Plan) : Option Outcome := do
  let r ← reallocateParts c.holders sort s.alloc s.remain c.partitions
  let scaled := c.scaleUp s.loads r.2.length
  let n ← allocNetPlan sort scaled.1 c.holders r.2 ⟨r.1, fun _ => none, fun _ => 0, scaled.2⟩
    100000000
  return ⟨listed c.partitions n.2.final, n.2.transfer⟩

def filterPartitions (sort : StdSort) (c : Cluster) : Option Outcome := do
  let r ← allocPlan sort c.start
  if r.1 = 0 then return ⟨listed c.partitions r.2.alloc, fun _ => none⟩
  else transferRemaining sort c r.2

/-- **Each partition is listed once**, under a worker that held it or to which a transfer from a
worker that held it was started, and nothing else is listed. -/
structure CountedOnce (c : Cluster) (o : Outcome) : Prop where
  once : ∀ p ∈ c.partitions, ∃ w, (∀ w', (o.partitionMap w').count p = if w' = w then 1 else 0) ∧
    (p ∈ c.partitionMap w ∨ ∃ wf, p ∈ c.partitionMap wf ∧ o.transfer p = some (wf, w))
  only : ∀ p ∉ c.partitions, ∀ w, p ∉ o.partitionMap w

/-- The partitions can be assigned to their holders without a load above 3. -/
def Cluster.Balanced (c : Cluster) : Prop :=
  Assignable c.holders (fun w => 3 - c.loads w) c.partitions

/-! ## The initial state is legal -/

namespace Cluster

variable {c : Cluster} {p : PartitionId} {w : WorkerId}

theorem mem_entries : (p, w) ∈ c.entries ↔ p ∈ c.partitionMap w := by
  simp only [entries, mem_flatMap, mem_map, Prod.mk.injEq]
  constructor
  · rintro ⟨w', -, p', hp, rfl, rfl⟩
    exact hp
  · intro hp
    exact ⟨w, c.mem_workers hp, p, hp, rfl, rfl⟩

theorem mem_holders : w ∈ c.holders p ↔ p ∈ c.partitionMap w := by
  rw [holders, foldl_pushBack, nil_append]
  simp only [mem_map, mem_filter, decide_eq_true_eq]
  constructor
  · rintro ⟨⟨p', w'⟩, ⟨he, rfl⟩, rfl⟩
    exact mem_entries.1 he
  · intro hp
    exact ⟨(p, w), ⟨mem_entries.2 hp, rfl⟩, rfl⟩

theorem nodup_entries : c.entries.Nodup := by
  refine nodup_flatMap.2 ⟨fun w _ => ?_, c.workers_nodup.imp fun {w w'} hne => ?_⟩
  · exact (c.partitionMap_nodup w).map fun p p' h => (Prod.mk.inj h).1
  · intro e he he'
    obtain ⟨p, -, rfl⟩ := mem_map.1 he
    obtain ⟨p', -, h⟩ := mem_map.1 he'
    exact hne (Prod.mk.inj h).2.symm

theorem nodup_holders (p : PartitionId) : (c.holders p).Nodup := by
  rw [holders, foldl_pushBack]
  refine Nodup.map_on (fun e he e' he' h => Prod.ext ?_ h) (nodup_entries.filter _)
  rw [of_decide_eq_true (mem_filter.1 he).2, of_decide_eq_true (mem_filter.1 he').2]

theorem mem_foldl_insertSet (l remain : List PartitionId) :
    p ∈ l.foldl insertSet remain ↔ p ∈ remain ∨ p ∈ l := by
  induction l generalizing remain with
  | nil => simp
  | cons q l ih =>
    rw [foldl_cons, ih, insertSet, mem_cons]
    split_ifs with hq
    · constructor
      · exact fun h => h.imp_right .inr
      · rintro (h | rfl | h)
        exacts [.inl h, .inl hq, .inr h]
    · rw [mem_orderedInsert, or_comm (a := p = q), or_assoc]

theorem nodup_foldl_insertSet (l : List PartitionId) {remain : List PartitionId}
    (h : remain.Nodup) : (l.foldl insertSet remain).Nodup := by
  refine foldlRecOn l _ h ?_
  intro m hm q _
  rw [insertSet]
  split_ifs with hq
  · exact hm
  · exact (perm_orderedInsert _ q m).nodup_iff.2 (nodup_cons.2 ⟨hq, hm⟩)

theorem nodup_partitions (c : Cluster) : c.partitions.Nodup :=
  nodup_foldl_insertSet _ nodup_nil

theorem mem_partitions : p ∈ c.partitions ↔ ∃ w, w ∈ c.holders p := by
  rw [partitions, mem_foldl_insertSet]
  simp only [not_mem_nil, false_or, mem_map, Prod.exists, exists_and_right, exists_eq_right,
    mem_entries, mem_holders]

theorem mem_workers_of_mem_holders (h : w ∈ c.holders p) : w ∈ c.workers :=
  c.mem_workers (mem_holders.1 h)

theorem available_eq (p : PartitionId) :
    c.available p = (c.holders p).filter fun w => decide (c.loads w < 3) := by
  have hfold : ∀ (ws : List WorkerId) (avail : PartitionId → List WorkerId),
      ws.foldl (fun avail w =>
        if c.loads w < 3 then avail else fun p => (avail p).filter (· ≠ w)) avail p =
      (avail p).filter fun w => decide (w ∈ ws → c.loads w < 3) := by
    intro ws
    induction ws with
    | nil => simp
    | cons w ws ih =>
      intro avail
      rw [foldl_cons, ih]
      split_ifs with hload
      · refine filter_congr fun w' _ => decide_eq_decide.2 ?_
        rw [mem_cons]
        constructor
        · rintro h (rfl | h')
          exacts [hload, h h']
        · exact fun h h' => h (.inr h')
      · rw [filter_filter]
        refine filter_congr fun w' _ => ?_
        by_cases hww : w' = w
        · subst hww
          simp [hload]
        · simp [hww]
  rw [available, hfold]
  refine filter_congr fun w hw => decide_eq_decide.2 ?_
  exact ⟨fun h => h (mem_workers_of_mem_holders hw), fun h _ => h⟩

theorem legal_start (c : Cluster) : Legal c.partitions c.holders c.loads c.start where
  nodup := c.nodup_partitions
  remain_iff p := by simp [start]
  placed p w h := nomatch h
  avail_iff p _ w := by simp only [start, available_eq, mem_filter, decide_eq_true_eq]
  avail_nodup p _ := by
    simp only [start, available_eq]
    exact (nodup_holders p).filter _
  loads_le w h := h.le
  given_le w := le_rfl
  loaded w _ := rfl

end Cluster

/-! ## The new map -/

section Outcome

variable {c : Cluster} {alloc : PartitionId → Option WorkerId}
  {transfer : PartitionId → Option (WorkerId × WorkerId)} {p : PartitionId}

theorem listed_eq (partitions : List PartitionId) (alloc : PartitionId → Option WorkerId)
    (w : WorkerId) :
    listed partitions alloc w = partitions.filter fun p => decide (alloc p = some w) := by
  rw [listed, foldl_pushBack]
  induction partitions with
  | nil => rfl
  | cons p ps ih =>
    cases hp : alloc p with
    | none => simpa [hp] using ih
    | some w' =>
      by_cases hw : w' = w
      · simpa [filterMap_cons, filter_cons, hp, hw] using ih
      · simpa [filterMap_cons, filter_cons, hp, hw] using ih

theorem countedOnce_of_alloc (h : ∀ p ∈ c.partitions, ∃ w, alloc p = some w ∧
      (w ∈ c.holders p ∨ ∃ wf ∈ c.holders p, transfer p = some (wf, w))) :
    CountedOnce c ⟨listed c.partitions alloc, transfer⟩ := by
  refine ⟨fun p hp => ?_, fun p hp w hmem => ?_⟩
  · obtain ⟨w, hw, hfrom⟩ := h p hp
    refine ⟨w, fun w' => ?_, ?_⟩
    · simp only [listed_eq]
      split_ifs with hww
      · subst hww
        exact count_eq_one_of_mem (c.nodup_partitions.filter _)
          (mem_filter.2 ⟨hp, decide_eq_true hw⟩)
      · refine count_eq_zero_of_not_mem fun hmem => hww ?_
        have := of_decide_eq_true (mem_filter.1 hmem).2
        rw [hw] at this
        exact (Option.some.inj this).symm
    · refine hfrom.imp Cluster.mem_holders.1 ?_
      rintro ⟨wf, hwf, ht⟩
      exact ⟨wf, Cluster.mem_holders.1 hwf, ht⟩
  · simp only [listed_eq] at hmem
    exact hp (mem_filter.1 hmem).1

theorem CountedOnce.partitionMap_ne_nil {o : Outcome} (h : CountedOnce c o)
    (hp : p ∈ c.partitions) : ∃ w, o.partitionMap w ≠ [] := by
  obtain ⟨w, hcount, -⟩ := h.once p hp
  refine ⟨w, fun hnil => ?_⟩
  have hone := hcount w
  rw [hnil, if_pos rfl] at hone
  cases hone

end Outcome

/-! ## When the partitions can be assigned -/

section Filter

variable {c : Cluster} {s : Plan}

theorem Cluster.id_ne_nil_of_mem_holders (c : Cluster) (p : PartitionId) :
    ∀ w ∈ c.holders p, w ≠ [] :=
  fun w hw => c.id_ne_nil w (mem_workers_of_mem_holders hw)

/-- **A balanced cluster** is dealt with by `alloc_plan`, whatever the sort. -/
theorem filterPartitions_of_balanced (sort : StdSort) (h : c.Balanced) :
    ∃ o, filterPartitions sort c = some o ∧ CountedOnce c o := by
  obtain ⟨rem, s, hplan, hs⟩ := allocPlan_planned sort c.id_ne_nil_of_mem_holders c.legal_start
  obtain rfl := hs.zero_iff.2 h
  refine ⟨_, by rw [filterPartitions, hplan]; rfl, countedOnce_of_alloc fun p hp => ?_⟩
  have hremain : p ∉ s.remain := by
    rw [eq_nil_of_length_eq_zero hs.rem_eq.symm]
    exact not_mem_nil
  cases halloc : s.alloc p with
  | none => exact absurd ((hs.legal.remain_iff p).2 ⟨hp, halloc⟩) hremain
  | some w => exact ⟨w, rfl, .inl (hs.legal.placed p w halloc).2.1⟩

theorem filterPartitions_of_not_balanced (sort : StdSort) (h : ¬ c.Balanced) :
    ∃ s, filterPartitions sort c = transferRemaining sort c s ∧
      Legal c.partitions c.holders c.loads s ∧ ∃ p ∈ s.remain, ∀ w ∈ c.holders p, 3 ≤ s.loads w := by
  obtain ⟨rem, s, hplan, hs⟩ := allocPlan_planned sort c.id_ne_nil_of_mem_holders c.legal_start
  have hrem : rem ≠ 0 := fun hzero => h (hs.zero_iff.1 hzero)
  refine ⟨s, ?_, hs.legal, hs.stuck hrem⟩
  rw [filterPartitions, hplan]
  exact if_neg hrem

/-! ## The workers after `scale_up` -/

theorem Cluster.notMem_added {w : WorkerId} (hw : w ∈ c.workers) (loads : WorkerId → Nat)
    (copyCnt : Nat) : w ∉ c.added loads copyCnt := by
  rw [added]
  split_ifs
  · exact not_mem_nil
  · exact fun h => c.newWorkers_new _ w h hw

theorem Cluster.nodup_scaleUp (loads : WorkerId → Nat) (copyCnt : Nat) :
    (c.scaleUp loads copyCnt).1.Nodup := by
  refine nodup_append.2 ⟨c.workers_nodup, ?_, fun w hw w' hw' heq => ?_⟩
  · rw [added]
    split_ifs
    · exact nodup_nil
    · exact c.newWorkers_nodup _
  · exact notMem_added hw loads copyCnt (heq ▸ hw')

theorem Cluster.loads_scaleUp {w : WorkerId} (hw : w ∈ c.workers) (loads : WorkerId → Nat)
    (copyCnt : Nat) : (c.scaleUp loads copyCnt).2 w = loads w :=
  if_neg (notMem_added hw loads copyCnt)

theorem Cluster.mem_scaleUp {w : WorkerId} (hw : w ∈ c.workers) (loads : WorkerId → Nat)
    (copyCnt : Nat) : w ∈ (c.scaleUp loads copyCnt).1 :=
  mem_append_left _ hw

theorem not_strictWeakOn_byLoad {workers : List WorkerId} {loads : WorkerId → Nat} {w : WorkerId}
    (hw : w ∈ workers) (hload : 3 ≤ loads w) : ¬ StrictWeakOn (byLoad loads) workers := by
  intro h
  have := h.irrefl w hw
  rw [byLoad, if_neg (by omega), decide_eq_true le_rfl] at this
  cases this

/-! ## Undefined behaviour -/

/-- **Without balance the sort of the workers is undefined**: a partition that remains has a holder
with a load of 3, which is in the list that is sorted. -/
theorem filterPartitions_strict (h : ¬ c.Balanced) : filterPartitions strict c = none := by
  obtain ⟨s, heq, hs, p, hp, hstuck⟩ := filterPartitions_of_not_balanced strict h
  obtain ⟨alloc, copying, hreallocate, -, hlength, -⟩ :=
    reallocateParts_divides strict hs.divides c.partitions
  obtain ⟨w, hholder⟩ := Cluster.mem_partitions.1 ((hs.remain_iff p).1 hp).1
  have hw := Cluster.mem_workers_of_mem_holders hholder
  have hload : 3 ≤ (c.scaleUp s.loads copying.length).2 w := by
    rw [Cluster.loads_scaleUp hw]
    exact hstuck w hholder
  have hmem := Cluster.mem_scaleUp hw s.loads copying.length
  cases copying with
  | nil => exact absurd hlength (length_pos_of_mem hp).ne
  | cons q copying =>
    obtain ⟨n, hn⟩ := exists_max?_netLoads (ne_nil_of_mem hmem)
      ⟨alloc, fun _ => none, fun _ => 0, (c.scaleUp s.loads (q :: copying).length).2⟩
    have hzero : n = 0 := by
      obtain ⟨w', -, hw'⟩ := mem_map.1 (max?_eq_some_iff.1 hn).1
      exact hw'.symm
    have hnet : allocNetPlan strict (c.scaleUp s.loads (q :: copying).length).1 c.holders
        (q :: copying)
        ⟨alloc, fun _ => none, fun _ => 0, (c.scaleUp s.loads (q :: copying).length).2⟩
        100000000 = none := by
      unfold allocNetPlan
      simp only [hn, hzero, strict_eq_none (not_strictWeakOn_byLoad hmem hload)]
      rfl
    rw [heq, transferRemaining, hreallocate]
    simp only [Option.bind_eq_bind, Option.bind_some, hnet, Option.bind_none]

/-! ## A sort that permutes -/

/-- The partitions that remain are placed if the workers have room for them; otherwise everything is
lost, also what `alloc_plan` had allocated. -/
theorem transferRemaining_permutes {sort : StdSort} (hsort : sort.Permutes)
    (hs : Legal c.partitions c.holders c.loads s) (hne : s.remain ≠ [])
    (hsmall : c.partitions.length < 100000000) :
    ∃ o, transferRemaining sort c s = some o ∧
      if s.remain.length ≤ capacity (c.scaleUp s.loads s.remain.length).1
        (c.scaleUp s.loads s.remain.length).2 then CountedOnce c o
      else ∀ w, o.partitionMap w = [] := by
  obtain ⟨alloc, copying, hreallocate, hdivides, hlength, -⟩ :=
    reallocateParts_divides sort hs.divides c.partitions
  rw [← hlength]
  have hnodup : copying.Nodup := hdivides.nodup
  have hcopying : ∀ p, p ∈ copying ↔ p ∈ c.partitions ∧ alloc p = none := hdivides.listed_iff
  obtain ⟨p, hp⟩ : ∃ p, p ∈ copying := by
    refine exists_mem_of_ne_nil _ fun hnil => hne (eq_nil_of_length_eq_zero ?_)
    rw [← hlength, hnil, length_nil]
  have hheld : ∀ q ∈ copying, ∃ w, w ∈ c.holders q := fun q hq =>
    Cluster.mem_partitions.1 ((hcopying q).1 hq).1
  obtain ⟨w, hw⟩ := hheld p hp
  have hworkers := ne_nil_of_mem
    (Cluster.mem_scaleUp (Cluster.mem_workers_of_mem_holders hw) s.loads copying.length)
  have hle : copying.length ≤ c.partitions.length :=
    (hnodup.subperm fun q hq => ((hcopying q).1 hq).1).length_le
  obtain ⟨m, hm⟩ := exists_max?_netLoads hworkers
    ⟨alloc, fun _ => none, fun _ => 0, (c.scaleUp s.loads copying.length).2⟩
  obtain rfl : m = 0 := by
    obtain ⟨w', -, hw'⟩ := mem_map.1 (max?_eq_some_iff.1 hm).1
    exact hw'.symm
  obtain ⟨n, s', hnet, hbelow, habove, hroom⟩ :=
    allocNetPlan_spec hsort (c.nodup_scaleUp s.loads copying.length) hworkers hnodup
      (fun q hq => ne_nil_of_mem (hheld q hq).choose_spec) hm 100000000
  refine ⟨⟨listed c.partitions s'.final, s'.transfer⟩, ?_, ?_⟩
  · rw [transferRemaining, hreallocate]
    simp only [Option.bind_eq_bind, Option.bind_some, hnet]
    rfl
  by_cases hn : n < 100000000
  · obtain ⟨hplaces, hcap⟩ := hbelow hn
    rw [if_pos hcap]
    refine countedOnce_of_alloc fun q hq => ?_
    by_cases hqc : q ∈ copying
    · obtain ⟨wt, halloc, ⟨hholder, ht⟩ | ⟨wf, hwf, ht⟩⟩ := hplaces.placed q hqc
      · exact ⟨wt, by rw [NetPlan.final, ht, halloc], .inl hholder⟩
      · exact ⟨wt, by rw [NetPlan.final, ht], .inr ⟨wf, hwf, ht⟩⟩
    · have hfinal : s'.final q = alloc q := by
        rw [NetPlan.final, hplaces.transfer_of_notMem q hqc, hplaces.alloc_of_notMem q hqc]
      cases halloc : alloc q with
      | none => exact absurd ((hcopying q).2 ⟨hq, halloc⟩) hqc
      | some w => exact ⟨w, hfinal.trans halloc, .inl (hdivides.placed q w halloc).2.1⟩
  · obtain ⟨halloc, htransfer⟩ := habove (not_lt.1 hn) (by decide)
    have hfull : ¬ copying.length ≤ capacity (c.scaleUp s.loads copying.length).1
        (c.scaleUp s.loads copying.length).2 := fun hcap => by
      have := hroom hcap (by omega)
      omega
    rw [if_neg hfull]
    simp only [listed_eq, filter_eq_nil_iff, NetPlan.final, htransfer, halloc]
    exact fun _ _ => nofun

/-- The controller starts a worker when every partition is to be copied, or the workers have room
for all of them. -/
def Cluster.HasRoom (c : Cluster) : Prop :=
  c.newWorkers (workersFor (c.missingCores c.loads c.partitions.length)) ≠ [] ∨
    c.partitions.length ≤ capacity c.workers c.loads

/-- The room after `alloc_plan` and `scale_up` is the room at first. -/
theorem Legal.room_iff (hs : Legal c.partitions c.holders c.loads s)
    (hsmall : c.partitions.length < 99999999) :
    s.remain.length ≤ capacity (c.scaleUp s.loads s.remain.length).1
        (c.scaleUp s.loads s.remain.length).2 ↔ c.HasRoom := by
  have hle : s.remain.length ≤ c.partitions.length :=
    (hs.nodup.subperm fun p hp => ((hs.remain_iff p).1 hp).1).length_le
  by_cases hfree : ∃ w ∈ c.workers, c.loads w < 3
  · -- a worker that is not loaded has room for everything
    obtain ⟨w, hw, hload⟩ := hfree
    have hload' := hs.loads_le w hload
    refine iff_of_true ?_ (.inr ?_)
    · have := le_capacity (c.scaleUp s.loads s.remain.length).2
        (Cluster.mem_scaleUp hw s.loads s.remain.length)
      rw [Cluster.loads_scaleUp hw] at this
      omega
    · have := le_capacity c.loads hw
      omega
  · push Not at hfree
    -- nothing was allocated
    have hloads : ∀ w ∈ c.workers, s.loads w = c.loads w := fun w hw => hs.loaded w (hfree w hw)
    have hnone : ∀ p, s.alloc p = none := by
      intro p
      cases hp : s.alloc p with
      | none => rfl
      | some w =>
        obtain ⟨-, hholder, hlt⟩ := hs.placed p w hp
        have := hfree w (Cluster.mem_workers_of_mem_holders hholder)
        omega
    have hperm : s.remain.Perm c.partitions :=
      (perm_ext_iff_of_nodup hs.nodup c.nodup_partitions).2 fun p => by
        rw [hs.remain_iff, hnone]
        exact and_iff_left rfl
    have hsum : (c.workers.map s.loads).sum = (c.workers.map c.loads).sum := by
      rw [map_congr_left hloads]
    have hmissing : c.missingCores s.loads s.remain.length =
        c.missingCores c.loads c.partitions.length := by
      rw [Cluster.missingCores, Cluster.missingCores, hsum, hperm.length_eq]
    have hcores : ¬ c.missingCores c.loads c.partitions.length < 0 := by
      have hge : c.workers.length * 3 ≤ (c.workers.map c.loads).sum := by
        have := card_nsmul_le_sum (c.workers.map c.loads) 3 fun n hn => by
          obtain ⟨w, hw, rfl⟩ := mem_map.1 hn
          exact hfree w hw
        simpa using this
      rw [Cluster.missingCores]
      omega
    have hadded : c.added s.loads s.remain.length =
        c.newWorkers (Cluster.workersFor (c.missingCores c.loads c.partitions.length)) := by
      rw [Cluster.added, hmissing, if_neg hcores]
    by_cases hnew : c.newWorkers
        (Cluster.workersFor (c.missingCores c.loads c.partitions.length)) = []
    · rw [hnew] at hadded
      have hcap : capacity (c.scaleUp s.loads s.remain.length).1
          (c.scaleUp s.loads s.remain.length).2 = capacity c.workers c.loads := by
        have hworkers : (c.scaleUp s.loads s.remain.length).1 = c.workers :=
          (congrArg (c.workers ++ ·) hadded).trans (append_nil _)
        rw [hworkers]
        refine congrArg sum (map_congr_left fun w hw => ?_)
        rw [Cluster.loads_scaleUp hw, hloads w hw]
      rw [hcap, hperm.length_eq]
      exact (or_iff_right fun h => h hnew).symm
    · refine iff_of_true ?_ (.inl hnew)
      obtain ⟨w, hw⟩ := exists_mem_of_ne_nil _ hnew
      rw [← hadded] at hw
      have hmem : w ∈ (c.scaleUp s.loads s.remain.length).1 := mem_append_right _ hw
      have hload : (c.scaleUp s.loads s.remain.length).2 w = 0 := if_pos hw
      have := le_capacity (c.scaleUp s.loads s.remain.length).2 hmem
      omega

/-- With a sort that permutes, what `alloc_plan` cannot deal with is a matter of room. -/
theorem filterPartitions_permutes {sort : StdSort} (hsort : sort.Permutes)
    (hsmall : c.partitions.length < 99999999) (h : ¬ c.Balanced) :
    ∃ o, filterPartitions sort c = some o ∧
      (c.HasRoom → CountedOnce c o) ∧ (¬ c.HasRoom → ∀ w, o.partitionMap w = []) := by
  obtain ⟨s, heq, hs, p, hp, -⟩ := filterPartitions_of_not_balanced sort h
  obtain ⟨o, ho, hroom⟩ :=
    transferRemaining_permutes hsort hs (ne_nil_of_mem hp) (by omega)
  refine ⟨o, heq.trans ho, fun h => ?_, fun h => ?_⟩
  · rwa [if_pos ((hs.room_iff hsmall).2 h)] at hroom
  · rwa [if_neg fun h' => h ((hs.room_iff hsmall).1 h')] at hroom

/-- With a sort that permutes even so, every partition is counted once exactly if the case is balanced
or has room. -/
theorem countedOnce_iff_room {sort : StdSort} (hsort : sort.Permutes)
    (hsmall : c.partitions.length < 99999999) :
    (∃ o, filterPartitions sort c = some o ∧ CountedOnce c o) ↔ c.Balanced ∨ c.HasRoom := by
  by_cases h : c.Balanced
  · exact iff_of_true (filterPartitions_of_balanced sort h) (.inl h)
  obtain ⟨o, ho, hroom, hfull⟩ := filterPartitions_permutes hsort hsmall h
  rw [or_iff_right h]
  refine ⟨fun ⟨o', ho', hcounted⟩ => ?_, fun h' => ⟨o, ho, hroom h'⟩⟩
  obtain rfl := Option.some.inj (ho.symm.trans ho')
  by_contra hno
  -- no partition at all would be balanced
  obtain ⟨p, hp⟩ : ∃ p, p ∈ c.partitions :=
    exists_mem_of_ne_nil _ fun hnil => h (by rw [Cluster.Balanced, hnil]; exact assignable_nil)
  obtain ⟨w, hw⟩ := hcounted.partitionMap_ne_nil hp
  exact hw (hfull hno w)

theorem not_balanced_of_loaded {p : PartitionId} (hp : p ∈ c.partitions)
    (h : ∀ w ∈ c.holders p, 3 ≤ c.loads w) : ¬ c.Balanced := by
  rintro ⟨f, hf, hroom⟩
  obtain ⟨w, hw, hfp⟩ := hf p hp
  have hpos : 0 < 3 - c.loads w := room_pos_of_count_le (hroom w) hp hfp
  have hload := h w hw
  omega

end Filter

/-- **Every partition is counted exactly once** with every sort that keeps the contract of
`std::sort` exactly if the partitions can be assigned to their holders without a load above 3. With
a sort that permutes even though the comparator is no strict weak order, and fewer than 99999999
partitions, it is so exactly if they can be assigned, or a new worker is started, or the workers
have room below a load of 100000001. -/
theorem filterPartitions_countedOnce_iff (c : Cluster) :
    ((∀ sort : StdSort, ∃ o, filterPartitions sort c = some o ∧ CountedOnce c o) ↔ c.Balanced) ∧
    ∀ sort : StdSort, sort.Permutes → c.partitions.length < 99999999 →
      ((∃ o, filterPartitions sort c = some o ∧ CountedOnce c o) ↔ c.Balanced ∨ c.HasRoom) := by
  refine ⟨⟨fun h => ?_, fun h sort => filterPartitions_of_balanced sort h⟩,
    fun sort hsort hsmall => countedOnce_iff_room hsort hsmall⟩
  by_contra hbalanced
  obtain ⟨o, ho, -⟩ := h strict
  rw [filterPartitions_strict hbalanced] at ho
  cases ho

/-! ## One worker -/

/-- A single worker, which holds partition 0, and no new ones. -/
def oneWorker (usage : ℚ) : Cluster where
  workers := [ascii "1"]
  address := fun _ => ascii "10.0.0.1:7780"
  cpuUsage := fun _ => some usage
  partitionMap := fun w => if w = ascii "1" then [0] else []
  newWorkers := fun _ => []
  workers_nodup := nodup_singleton _
  id_ne_nil := by decide
  mem_workers := by
    intro w p hp
    split_ifs at hp with hw
    · exact hw ▸ mem_singleton_self _
    · cases hp
  partitionMap_nodup := by
    intro w
    split_ifs <;> decide
  newWorkers_nodup := fun _ => nodup_nil
  newWorkers_new := nofun

theorem partitions_oneWorker (usage : ℚ) : (oneWorker usage).partitions = [0] := rfl

theorem not_balanced_oneWorker {usage : ℚ} (h : 3 ≤ (oneWorker usage).loads (ascii "1")) :
    ¬ (oneWorker usage).Balanced := by
  refine not_balanced_of_loaded (mem_singleton_self _) fun w hw => ?_
  exact h

/-- A worker with a load of 3: the count depends on what the sort does with the comparator. -/
theorem countedOnce_busy : (∃ o, filterPartitions lenient (oneWorker (3 / 4)) = some o ∧
      CountedOnce (oneWorker (3 / 4)) o) ∧
    ¬ ∀ sort : StdSort, ∃ o, filterPartitions sort (oneWorker (3 / 4)) = some o ∧
      CountedOnce (oneWorker (3 / 4)) o := by
  obtain ⟨hstrict, hpermutes⟩ := filterPartitions_countedOnce_iff (oneWorker (3 / 4))
  have hload : (oneWorker (3 / 4)).loads (ascii "1") = 3 := by decide +kernel
  refine ⟨(hpermutes lenient lenient_permutes (by decide)).2 (.inr (.inr ?_)), ?_⟩
  · have := le_capacity (oneWorker (3 / 4)).loads (mem_singleton_self (ascii "1"))
    rw [hload] at this
    exact le_trans (by decide) this
  · rw [hstrict]
    exact not_balanced_oneWorker hload.ge

/-- A worker with a load of 120000000: partition 0 is lost. -/
theorem partition_lost : (oneWorker 30000000).partitions = [0] ∧ ∀ sort : StdSort, sort.Permutes →
      ∃ o, filterPartitions sort (oneWorker 30000000) = some o ∧ ∀ w, o.partitionMap w = [] := by
  have hload : (oneWorker 30000000).loads (ascii "1") = 120000000 := by decide +kernel
  refine ⟨partitions_oneWorker _, fun sort hsort => ?_⟩
  obtain ⟨o, ho, -, hfull⟩ := filterPartitions_permutes (c := oneWorker 30000000) hsort (by decide)
    (not_balanced_oneWorker (by rw [hload]; decide))
  refine ⟨o, ho, hfull ?_⟩
  rintro (h | h)
  · exact h rfl
  · have hcap : capacity (oneWorker 30000000).workers (oneWorker 30000000).loads =
        100000001 - (oneWorker 30000000).loads (ascii "1") := Nat.add_zero _
    rw [hcap, hload] at h
    exact absurd h (by decide)

end JasmineGraph.Executor.TriangleCount
