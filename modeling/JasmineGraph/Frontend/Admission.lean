import JasmineGraph.MapLoop
import JasmineGraph.MapOption

/-!
# The admission of high-priority jobs

Model of `PerformanceUtil::getResourceAvailableTime`, of `adjustAggregateLoadMap` and of the batch
that `startScheduler` hands over. Loads are rationals, one sample every five seconds. The profiles
in the performance database and the loads of the running jobs are parameters.

* The profiles of a batch are looked up with the first job's type and category. The counter of the
  jobs is declared inside their loop, so the SLA is always the first job's too (**`judged_iff`**).
* A delay is an `int` product of a sample and the gap. It is undefined where it overflows, and the
  schedule of the model ends there.
* All hosts share one delay, which a host with room for the job sets back to zero, whatever the
  hosts before it need (**`withinThreshold_iff`**).
* An accepted job's profile is copied once for every sample of its delay (**`addsAtDelay_iff`**).
-/

namespace JasmineGraph.Frontend.Admission

open List Std.TreeMap

def LOAD_AVG_THREASHOLD : ℚ := 20

/-- `LOAD_AVG_COLLECTING_GAP * 1000`. -/
def gap : Int := 5000

/-- The load samples of each host. -/
abbrev LoadMap := Std.TreeMap (List UInt8) (List ℚ)

/-- The recorded load of a job, by its graph, its type and its category. -/
abbrev Profiles := List UInt8 → List UInt8 → List UInt8 → LoadMap

/-- The loads of a host and those of the new job on it. -/
abbrev HostLoads := List ℚ × List ℚ

/-! ## The delay search -/

def maxLoad (l : List ℚ) : ℚ := l.max?.getD 0

/-- The host's highest load and the job's together leave some room. -/
def HasRoom (h : HostLoads) : Prop :=
  maxLoad (h.1 ++ [0]) + maxLoad h.2 < LOAD_AVG_THREASHOLD
  deriving Decidable

/-- A job that starts at `aggIndex` meets no load that is too high; the test ends with the loads. -/
def fits (load newJob : List ℚ) (aggIndex : Nat) : Bool :=
  ((load.drop aggIndex).zip newJob).all fun p => p.1 + p.2 ≤ LOAD_AVG_THREASHOLD

/-- `aggIndex * Conts::LOAD_AVG_COLLECTING_GAP * 1000`, in `int`. -/
def startTime (aggIndex : Nat) : Option Int :=
  if aggIndex * gap < 2 ^ 31 then some (aggIndex * gap) else none

/-- The turn of the delay search on one host, given its loads and the job's. -/
def hostDelay (t : Int) (h : HostLoads) : Option Int :=
  if h.2 = [] then some t
  else if HasRoom h then some 0
  else
    let load := h.1 ++ [0]
    let maxValueIndex := load.idxOf (maxLoad load)
    (range' maxValueIndex (load.length - maxValueIndex)).foldlM (fun t aggIndex =>
      if fits load h.2 aggIndex then (startTime aggIndex).map (max t) else some t) t

/-- The hosts in the order of the loop, with the job's load on each. -/
def hosts (hostLoadAvgMap newJobLoadAvgMap : LoadMap) : List HostLoads :=
  hostLoadAvgMap.toList.map fun e => (e.2, newJobLoadAvgMap.getD e.1 [])

/-- The sum of the samples, with zeros past an end; a job that starts later is entered with its
whole profile behind each gap. -/
def adjustAggregateLoadMap (aggregate newJob : LoadMap) (time : Int) : LoadMap :=
  newJob.foldl (fun m host load => m.insert host
    (zipWithAll (fun a b => a.getD 0 + b.getD 0) (m.getD host [])
      (if 0 < time then (replicate ((time + gap - 1) / gap).toNat (0 :: load)).flatten else load)))
    aggregate

/-! ## The job loop -/

/-- What the admission reads of a job request. -/
structure JobRequest where
  graphId : List UInt8
  jobType : List UInt8
  category : List UInt8
  graphSla : Int

/-- A job's turn in the loop, by its profile and its SLA: the entry in the schedule, and the loads and
the delay that the next turn starts from. The delay search's `newJobLoadAvgMap[placeId]` enters the
hosts that the profile does not have. -/
def turn (newJob : LoadMap) (graphSla : Int) (hostLoad : LoadMap) (jobAcceptableTime : Int) :
    Option (Int × LoadMap × Int) := do
  let t ← (hosts hostLoad newJob).foldlM hostDelay jobAcceptableTime
  if graphSla < 10 * t then some (-1, hostLoad, t)
  else
    some (t, adjustAggregateLoadMap hostLoad
      (hostLoad.foldl (fun m host _ => m.insertIfNew host []) newJob) t, t)

/-- The job loop: the schedule, up to a delay that overflows. -/
def getResourceAvailableTime (profile : Profiles) (command category : List UInt8)
    (graphSla : Int) : LoadMap → Int → List (List UInt8) → List Int
  | _, _, [] => []
  | hostLoad, jobAcceptableTime, graphId :: graphIdList =>
    match turn (profile graphId command category) graphSla hostLoad jobAcceptableTime with
    | none => []
    | some (time, hostLoad, jobAcceptableTime) =>
      time :: getResourceAvailableTime profile command category graphSla hostLoad jobAcceptableTime
        graphIdList

/-- The call of `startScheduler` for the pending jobs. -/
def startScheduler (profile : Profiles) (running : List UInt8 → List UInt8 → LoadMap) :
    List JobRequest → List Int
  | [] => []
  | first :: rest =>
    getResourceAvailableTime profile first.jobType first.category first.graphSla
      (running first.jobType first.category) 0 ((first :: rest).map (·.graphId))

/-! ## What the search finds -/

theorem maxLoad_mem {l : List ℚ} (h : l ≠ []) : maxLoad l ∈ l := by
  obtain ⟨m, hm⟩ := Option.isSome_iff_exists.1 (isSome_max?_of_ne_nil h)
  rw [maxLoad, hm]
  exact (max?_eq_some_iff.1 hm).1

theorem le_maxLoad {l : List ℚ} {a : ℚ} (h : a ∈ l) : a ≤ maxLoad l := by
  obtain ⟨m, hm⟩ := Option.isSome_iff_exists.1 (isSome_max?_of_mem h)
  rw [maxLoad, hm]
  exact (max?_eq_some_iff.1 hm).2 a h

section

variable (fits : Nat → Bool) {i m n : Nat}

theorem foldlM_startTime {is : List Nat} (hn : n * gap < 2 ^ 31) (his : ∀ a ∈ is, a ≤ n) (t : Int) :
    ∃ s, is.foldlM (fun t a => if fits a then (startTime a).map (max t) else some t) t = some s ∧
      t ≤ s ∧ s ≤ max t (n * gap) := by
  induction is generalizing t with
  | nil => exact ⟨t, rfl, le_rfl, le_max_left _ _⟩
  | cons a is ih =>
    rw [forall_mem_cons] at his
    have ha : (a : Int) * gap ≤ n * gap := by
      unfold gap
      omega
    rw [foldlM_cons]
    by_cases hfits : fits a
    · obtain ⟨s, hs, hts, hst⟩ := ih his.2 (max t (a * gap))
      refine ⟨s, ?_, by omega, by omega⟩
      rw [if_pos hfits, startTime, if_pos (by omega)]
      exact hs
    · rw [if_neg hfits]
      exact ih his.2 t

/-- A search whose last index fits ends there. -/
theorem foldlM_fitting (t : Int) (h : fits (i + m)) :
    (range' i (m + 1)).foldlM (fun t a => if fits a then (startTime a).map (max t) else some t) t =
      (startTime (i + m)).map (max t) := by
  rw [range'_1_concat, foldlM_append]
  by_cases hlast : (i + m : Nat) * gap < 2 ^ 31
  · obtain ⟨s, hs, hts, hst⟩ := foldlM_startTime fits hlast
      (fun a ha => (mem_range'_1.1 ha).2.le) t
    rw [hs, startTime, if_pos hlast]
    simp only [Option.bind_eq_bind, Option.bind_some, foldlM_cons, foldlM_nil, h, if_true, startTime,
      if_pos hlast, Option.map_some, Option.pure_def]
    congr 1
    omega
  · have hnone : startTime (i + m) = none := if_neg hlast
    rw [hnone]
    generalize List.foldlM (m := Option) _ t (range' i m) = before
    cases before with
    | none => rfl
    | some s => simp [h, hnone]

end

/-- The index behind the host's loads always fits. -/
theorem hostDelay_eq (t : Int) {h : HostLoads} (hj : ∀ x ∈ h.2, x ≤ LOAD_AVG_THREASHOLD) :
    hostDelay t h = if h.2 = [] then some t else if HasRoom h then some 0
      else (startTime h.1.length).map (max t) := by
  have hlast : fits (h.1 ++ [0]) h.2 h.1.length := by
    simp only [fits, drop_left, all_eq_true, decide_eq_true_eq]
    rintro ⟨a, b⟩ hp
    have hb := hj b (of_mem_zip hp).2
    simpa [mem_singleton.1 (of_mem_zip hp).1] using hb
  have hi := idxOf_lt_length_of_mem (maxLoad_mem (l := h.1 ++ [0]) (by simp))
  obtain ⟨m, hm⟩ := Nat.exists_eq_add_of_lt hi
  rw [length_append, length_singleton, Nat.add_right_cancel_iff] at hm
  rw [hm] at hlast
  simp only [hostDelay, length_append, length_singleton, hm, Nat.add_assoc, Nat.add_sub_cancel_left,
    foldlM_fitting _ t hlast]

/-! ## The first job's parameters -/

/-- The job loop as it is meant: each job by its own type, category and SLA. -/
def judgeEach (profile : Profiles) : LoadMap → Int → List JobRequest → List Int
  | _, _, [] => []
  | hostLoad, jobAcceptableTime, job :: jobs =>
    match turn (profile job.graphId job.jobType job.category) job.graphSla hostLoad
      jobAcceptableTime with
    | none => []
    | some (time, hostLoad, jobAcceptableTime) =>
      time :: judgeEach profile hostLoad jobAcceptableTime jobs

/-- Two SLAs that accept the same delays. -/
def SameVerdict (sla sla' : Int) : Prop :=
  ∀ n : Nat, n * gap < 2 ^ 31 → (sla < 10 * (n * gap) ↔ sla' < 10 * (n * gap))

/-- A change of the type, the category or the SLA of a rejected job changes no other decision. -/
def Independent (profile : Profiles) (running : List UInt8 → List UInt8 → LoadMap)
    (batch : List JobRequest) : Prop :=
  ∀ (i : Nat) (job : JobRequest), (startScheduler profile running batch)[i]? = some (-1) →
    batch[i]?.map (·.graphId) = some job.graphId → ∀ k ≠ i,
      (startScheduler profile running (batch.set i job))[k]? =
        (startScheduler profile running batch)[k]?

def IsDelay (t : Int) : Prop := ∃ n : Nat, n * gap < 2 ^ 31 ∧ t = n * gap

def asFirst (first job : JobRequest) : JobRequest := { first with graphId := job.graphId }

section

variable {profile : Profiles} {running : List UInt8 → List UInt8 → LoadMap} {newJob hostLoad : LoadMap}
  {sla sla' t t' : Int} {first : JobRequest} {rest jobs : List JobRequest}

theorem startScheduler_eq : startScheduler profile running (first :: rest) =
    judgeEach profile (running first.jobType first.category) 0 ((first :: rest).map (asFirst first)) := by
  have hloop : ∀ (jobs : List JobRequest) (hostLoad : LoadMap) (t : Int),
      getResourceAvailableTime profile first.jobType first.category first.graphSla hostLoad t
        (jobs.map (·.graphId)) = judgeEach profile hostLoad t (jobs.map (asFirst first)) := by
    intro jobs
    induction jobs with
    | nil => intros; rfl
    | cons job jobs ih =>
      intro hostLoad t
      simp only [map_cons, getResourceAvailableTime, judgeEach, asFirst, ih]
  exact hloop _ _ _

theorem isDelay_zero : IsDelay 0 := ⟨0, by decide, by simp⟩

theorem IsDelay.hostDelay {h : HostLoads} (ht : IsDelay t) (heq : hostDelay t h = some t') :
    IsDelay t' := by
  unfold Admission.hostDelay at heq
  split_ifs at heq with hempty hroom
  · exact Option.some.inj heq ▸ ht
  · exact Option.some.inj heq ▸ isDelay_zero
  · refine foldlM_invariant (fun s a s' hs hstep => ?_) ht heq
    split_ifs at hstep with hfits
    · obtain ⟨time, htime, rfl⟩ := Option.map_eq_some_iff.1 hstep
      rw [startTime] at htime
      split_ifs at htime with hlt
      obtain rfl := Option.some.inj htime
      rcases max_choice s (a * gap) with h | h <;> rw [h]
      · exact hs
      · exact ⟨a, hlt, rfl⟩
    · exact Option.some.inj hstep ▸ hs

theorem turn_cases (newJob hostLoad : LoadMap) (ht : IsDelay t) :
    (∀ sla, turn newJob sla hostLoad t = none) ∨
    ∃ s, IsDelay s ∧ ∃ loads, ∀ sla, turn newJob sla hostLoad t =
      some (if sla < 10 * s then (-1, hostLoad, s) else (s, loads, s)) := by
  unfold turn
  cases hs : (hosts hostLoad newJob).foldlM hostDelay t with
  | none => exact .inl fun _ => rfl
  | some s =>
    have hdelay : IsDelay s := foldlM_invariant (fun _ _ _ h => h.hostDelay) ht hs
    refine .inr ⟨s, hdelay, adjustAggregateLoadMap hostLoad
      (hostLoad.foldl (fun m host _ => m.insertIfNew host []) newJob) s, fun sla => ?_⟩
    rw [Option.bind_eq_bind, Option.bind_some, ← apply_ite some]

theorem judgeEach_asFirst (h : ∀ j ∈ jobs, j.jobType = first.jobType ∧ j.category = first.category ∧
      SameVerdict first.graphSla j.graphSla) (ht : IsDelay t) :
    judgeEach profile hostLoad t (jobs.map (asFirst first)) = judgeEach profile hostLoad t jobs := by
  induction jobs generalizing hostLoad t with
  | nil => rfl
  | cons j jobs ih =>
    rw [forall_mem_cons] at h
    obtain ⟨⟨htype, hcategory, hverdict⟩, h⟩ := h
    rw [map_cons, judgeEach, judgeEach, asFirst, htype, hcategory]
    rcases turn_cases (profile j.graphId first.jobType first.category) hostLoad ht with
      hnone | ⟨s, ⟨n, hn, rfl⟩, loads, hturn⟩
    · rw [hnone, hnone]
    · rw [hturn, hturn, if_congr (hverdict n hn) rfl rfl]
      split_ifs <;> exact congrArg _ (ih h ⟨n, hn, rfl⟩)

/-- A job without a profile keeps the delay. -/
theorem turn_empty : turn ∅ sla hostLoad t = some (if sla < 10 * t then (-1, hostLoad, t) else
    (t, adjustAggregateLoadMap hostLoad
      (hostLoad.foldl (fun m host _ => m.insertIfNew host []) ∅) t, t)) := by
  have hkeep : (hosts hostLoad ∅).foldlM hostDelay t = some t := by
    unfold hosts
    induction hostLoad.toList with
    | nil => rfl
    | cons e es ih => exact ih
  rw [turn, hkeep, Option.bind_eq_bind, Option.bind_some, ← apply_ite some]

theorem turn_single (load l : List ℚ) : turn {([], load)} sla {([], l)} t =
    (hostDelay t (l, load)).map fun s => if sla < 10 * s then (-1, {([], l)}, s) else
      (s, adjustAggregateLoadMap {([], l)} {([], load)} s, s) := by
  change (hostDelay t (l, load) >>= some).bind _ = _
  cases hostDelay t (l, load) with
  | none => rfl
  | some s => exact (apply_ite some _ _ _).symm

theorem length_judgeEach (h : ∀ j ∈ jobs, profile j.graphId j.jobType j.category = ∅) :
    (judgeEach profile hostLoad t jobs).length = jobs.length := by
  induction jobs generalizing hostLoad t with
  | nil => rfl
  | cons j jobs ih =>
    rw [forall_mem_cons] at h
    rw [judgeEach, h.1, turn_empty]
    split_ifs <;> exact congrArg (· + 1) (ih h.2)

/-- Only jobs of one type and category have no profile, and the host of the others has too long a
load: the schedule ends at the first of these. -/
theorem sameType_of_length {l : List ℚ} (hl : 2 ^ 31 ≤ l.length * gap)
    (h : (judgeEach (fun _ ty c => if ty = first.jobType ∧ c = first.category then ∅
      else {([], [20])}) {([], l)} 0 jobs).length = jobs.length) :
    ∀ j ∈ jobs, j.jobType = first.jobType ∧ j.category = first.category := by
  induction jobs generalizing l with
  | nil => simp
  | cons j jobs ih =>
    rw [judgeEach] at h
    by_cases hj : j.jobType = first.jobType ∧ j.category = first.category
    · rw [if_pos hj, turn_empty] at h
      refine forall_mem_cons.2 ⟨hj, ?_⟩
      split_ifs at h with hsla
      · exact ih hl (Nat.succ.inj h)
      · exact ih (l := zipWithAll (fun a b => a.getD 0 + b.getD 0) l []) (by simpa using hl)
          (Nat.succ.inj h)
    · have hturn : turn {([], [20])} j.graphSla {([], l)} 0 = none := by
        have hdelay : hostDelay 0 (l, [20]) = none := by
          rw [hostDelay_eq _ fun x hx => (mem_singleton.1 hx).le, if_neg (by simp), if_neg, startTime,
            if_neg hl.not_gt]
          · rfl
          · have hzero := le_maxLoad (l := l ++ [0]) (a := 0) (by simp)
            simp only [HasRoom, not_lt]
            exact le_add_of_nonneg_left hzero
        rw [turn_single, hdelay]
        rfl
      rw [if_neg hj, hturn] at h
      exact absurd h (by simp)

theorem judgeEach_empty : judgeEach (fun _ _ _ => ∅) ∅ 0 jobs =
    jobs.map fun j => if j.graphSla < 0 then -1 else 0 := by
  induction jobs with
  | nil => rfl
  | cons j jobs ih =>
    rw [judgeEach, turn_empty, mul_zero, map_cons, ← ih]
    split_ifs <;> rfl

theorem hasRoom_iff {x c : ℚ} (hx : 0 ≤ x) {m : Nat} :
    HasRoom (x :: replicate m 0, [c]) ↔ x + c < 20 := by
  have hle : ∀ y ∈ x :: replicate m 0 ++ [0], y ≤ x := by
    simp only [cons_append, forall_mem_cons, forall_mem_append, mem_replicate, le_refl, true_and]
    exact ⟨fun y hy => hy.2 ▸ hx, hx, by simp⟩
  have hmax : maxLoad (x :: replicate m 0 ++ [0]) = x :=
    le_antisymm (hle _ (maxLoad_mem (by simp))) (le_maxLoad (by simp))
  simp only [HasRoom, hmax]
  rfl

/-- Jobs of the load `c` on a host with `m + 1` samples, of which the first one holds `x`. The ones in
front fill it up to the threshold, the next one has to wait for the end of the samples. -/
theorem getElem?_judgeEach (pre : List JobRequest) (j : JobRequest) (post : List JobRequest)
    {x c : ℚ} {m : Nat} (hx : 0 ≤ x) (hc : 0 < c) (hsum : x + (pre.length + 1) * c = 20)
    (hpre : ∀ j ∈ pre, 0 ≤ j.graphSla) (hm : (m + 1 : Nat) * gap < 2 ^ 31) :
    (judgeEach (fun _ _ _ => {([], [c])}) {([], x :: replicate m 0)} 0 (pre ++ j :: post))[pre.length]? =
      some (if j.graphSla < 10 * ((m + 1 : Nat) * gap) then -1 else (m + 1 : Nat) * gap) := by
  induction pre generalizing x with
  | nil =>
    have hfull : ¬HasRoom (x :: replicate m 0, [c]) := by
      rw [hasRoom_iff hx, ← hsum]
      simp
    have hload : ∀ y ∈ [c], y ≤ LOAD_AVG_THREASHOLD := by
      rw [forall_mem_singleton, LOAD_AVG_THREASHOLD, ← hsum]
      simpa using hx
    have hdelay : hostDelay 0 (x :: replicate m 0, [c]) = some ((m + 1 : Nat) * gap) := by
      rw [hostDelay_eq _ hload, if_neg (by simp), if_neg hfull, length_cons, length_replicate,
        startTime, if_pos hm, Option.map_some, max_eq_right (by unfold gap; omega)]
    rw [nil_append, judgeEach, turn_single, hdelay, Option.map_some]
    split_ifs <;> rfl
  | cons i pre ih =>
    rw [forall_mem_cons] at hpre
    rw [length_cons, Nat.cast_succ] at hsum
    have hroom : HasRoom (x :: replicate m 0, [c]) := by
      rw [hasRoom_iff hx]
      nlinarith [Nat.cast_nonneg (α := ℚ) pre.length]
    have hdelay : hostDelay 0 (x :: replicate m 0, [c]) = some 0 := by
      rw [hostDelay, if_neg (by simp), if_pos hroom]
    have hadjust : adjustAggregateLoadMap {([], x :: replicate m 0)} {([], [c])} 0 =
        {([], (x + c) :: replicate m 0)} := by
      change ({([], zipWithAll (fun a b => a.getD 0 + b.getD 0) (x :: replicate m 0) [c])} :
        LoadMap) = _
      simp [zipWithAll]
    rw [cons_append, judgeEach, turn_single, hdelay, Option.map_some, mul_zero,
      if_neg hpre.1.not_gt, hadjust]
    exact ih (by linarith) (by linarith) hpre.2

/-- The schedule of a batch depends on the later jobs through their graphs only. -/
theorem startScheduler_congr {others : List JobRequest}
    (h : others.map (·.graphId) = rest.map (·.graphId)) :
    startScheduler profile running (first :: others) = startScheduler profile running (first :: rest) := by
  simp only [startScheduler, map_cons, h]

theorem IsDelay.nonneg (h : IsDelay t) : 0 ≤ t := by
  obtain ⟨n, -, rfl⟩ := h
  unfold gap
  omega

theorem IsDelay.lt (h : IsDelay t) : t < 2 ^ 31 := by
  obtain ⟨n, hn, rfl⟩ := h
  exact hn

theorem length_judgeEach_le : (judgeEach profile hostLoad t jobs).length ≤ jobs.length := by
  induction jobs generalizing hostLoad t with
  | nil => rfl
  | cons j jobs ih =>
    rw [judgeEach]
    split
    · exact Nat.zero_le _
    · exact Nat.succ_le_succ ih

/-- Every entry of a schedule is a delay, or `-1` where the SLA of a job does not accept one. -/
theorem mem_judgeEach {x : Int} (ht : IsDelay t) (hx : x ∈ judgeEach profile hostLoad t jobs) :
    ∃ j ∈ jobs, ∃ s, IsDelay s ∧ x = if j.graphSla < 10 * s then -1 else s := by
  induction jobs generalizing hostLoad t with
  | nil => cases hx
  | cons j jobs ih =>
    rw [judgeEach] at hx
    rcases turn_cases (profile j.graphId j.jobType j.category) hostLoad ht with
      hnone | ⟨s, hs, loads, hturn⟩
    · rw [hnone] at hx
      cases hx
    · rw [hturn] at hx
      have hlater : ∀ loads, x ∈ judgeEach profile loads s jobs → ∃ i ∈ j :: jobs, ∃ s,
          IsDelay s ∧ x = if i.graphSla < 10 * s then -1 else s := fun loads hx => by
        obtain ⟨i, hi, hentry⟩ := ih hs hx
        exact ⟨i, mem_cons_of_mem j hi, hentry⟩
      split_ifs at hx with hsla <;> rcases mem_cons.1 hx with rfl | hx
      · exact ⟨j, mem_cons_self, s, hs, (if_pos hsla).symm⟩
      · exact hlater _ hx
      · exact ⟨j, mem_cons_self, x, hs, (if_neg hsla).symm⟩
      · exact hlater _ hx

/-- **A rejected first job decides over the others.** Its SLA can be lowered until no job is accepted,
and raised until none is rejected. -/
theorem independent_iff
    (hall : (startScheduler profile running (first :: rest)).length = rest.length + 1) :
    Independent profile running (first :: rest) ↔
      (startScheduler profile running (first :: rest)).head? ≠ some (-1) ∨ rest = [] := by
  constructor
  · intro hind
    by_contra! hrejected
    obtain ⟨hhead, hrest⟩ := hrejected
    rw [head?_eq_getElem?] at hhead
    have hlt : 1 < (startScheduler profile running (first :: rest)).length := by
      have hpos := length_pos_iff.2 hrest
      omega
    -- the second entry stays, whatever the SLA of the first job
    have hentry : ∀ sla, ∃ s, IsDelay s ∧
        (startScheduler profile running (first :: rest))[1] = if sla < 10 * s then -1 else s := by
      intro sla
      have hmem := mem_of_getElem? <|
        (hind 0 { first with graphSla := sla } hhead rfl 1 one_ne_zero).trans
          (List.getElem?_eq_getElem hlt)
      rw [set_cons_zero, startScheduler_eq] at hmem
      obtain ⟨j, hj, s, hs, heq⟩ := mem_judgeEach isDelay_zero hmem
      obtain ⟨i, -, rfl⟩ := mem_map.1 hj
      exact ⟨s, hs, heq⟩
    obtain ⟨low, hlow, heq⟩ := hentry (-1)
    obtain ⟨high, hhigh, heq'⟩ := hentry (2 ^ 36)
    have hlow0 := hlow.nonneg
    have hhigh0 := hhigh.nonneg
    have hhigh31 := hhigh.lt
    rw [if_pos (by omega)] at heq
    rw [if_neg (by omega)] at heq'
    omega
  · rintro h i job hi hgraph k hk
    cases i with
    | zero =>
      rcases h with h | rfl
      · exact absurd (head?_eq_getElem? ▸ hi) h
      · rw [set_cons_zero, startScheduler_eq, startScheduler_eq]
        rw [List.getElem?_eq_none, List.getElem?_eq_none] <;>
          exact length_judgeEach_le.trans (Nat.one_le_iff_ne_zero.2 hk)
    | succ i =>
      have hsame : (rest.set i job).map (·.graphId) = rest.map (·.graphId) := by
        rw [getElem?_cons_succ, ← getElem?_map] at hgraph
        obtain ⟨hi, hgraph⟩ := List.getElem?_eq_some_iff.1 hgraph
        rw [map_set, ← hgraph, set_getElem_self]
      rw [set_cons_succ, startScheduler_congr hsame]

section

variable (h : ∀ profile hostLoad, judgeEach profile hostLoad 0 (jobs.map (asFirst first)) =
  judgeEach profile hostLoad 0 jobs)

include h

theorem sameType_of_judgeEach : ∀ j ∈ jobs, j.jobType = first.jobType ∧ j.category = first.category := by
  refine sameType_of_length (l := replicate (2 ^ 31) 0) (by rw [length_replicate]; decide) ?_
  rw [← h, length_judgeEach, length_map]
  simp [asFirst]

theorem sameSign_of_judgeEach : ∀ j ∈ jobs, first.graphSla < 0 ↔ j.graphSla < 0 := by
  have hsign := h (fun _ _ _ => ∅) ∅
  rw [judgeEach_empty, judgeEach_empty, map_map, map_inj_left] at hsign
  intro j hj
  have hentry := hsign j hj
  simp only [Function.comp_apply, asFirst] at hentry
  split_ifs at hentry <;> omega

/-- The jobs in front of `j` start at once, and `j` has to wait for the samples of a host. -/
theorem sameVerdict_of_judgeEach {j : JobRequest} (hj : j ∈ jobs) :
    SameVerdict first.graphSla j.graphSla := by
  intro n hn
  have hsign := sameSign_of_judgeEach h
  cases n with
  | zero => simpa using hsign j hj
  | succ m =>
    by_cases hneg : first.graphSla < 0
    · have hneg' := (hsign j hj).1 hneg
      exact iff_of_true (by unfold gap; omega) (by unfold gap; omega)
    obtain ⟨pre, post, rfl⟩ := append_of_mem hj
    have hc : (0 : ℚ) < 20 / (pre.length + 1) := by positivity
    have hsum : (0 : ℚ) + (pre.length + 1) * (20 / (pre.length + 1)) = 20 := by field_simp; ring
    have hprobe := congrArg (·[pre.length]?)
      (h (fun _ _ _ => {([], [(20 / (pre.length + 1) : ℚ)])}) {([], 0 :: replicate m 0)})
    have hfirst := getElem?_judgeEach (pre.map (asFirst first)) (asFirst first j)
      (post.map (asFirst first)) le_rfl hc (by rwa [length_map])
      (forall_mem_map.2 fun _ _ => not_lt.1 hneg) hn
    have hown := getElem?_judgeEach pre j post le_rfl hc hsum (fun i hi => not_lt.1
      fun hlt => hneg ((hsign i (mem_append_left _ hi)).2 hlt)) hn
    simp only [map_append, map_cons] at hprobe
    rw [length_map] at hfirst
    rw [hfirst, hown, Option.some.injEq] at hprobe
    simp only [asFirst] at hprobe
    have hpos : 0 < (m + 1 : Nat) * gap := by
      unfold gap
      omega
    split_ifs at hprobe <;> omega

end

end

/-- With the job started after `s` samples, the host's load stays within the threshold. -/
def Within (s : Nat) (h : HostLoads) : Prop :=
  ∀ k ∈ range h.2.length, h.1.getD (s + k) 0 + h.2.getD k 0 ≤ LOAD_AVG_THREASHOLD
  deriving Decidable

/-- The first job of the batch is scheduled, and where it is accepted it does not push any host above
the threshold. -/
def KeepsThreshold (profile : Profiles) (command category : List UInt8) (graphSla : Int)
    (hostLoad : LoadMap) (graphId : List UInt8) (graphs : List (List UInt8)) : Prop :=
  ∃ time ∈ (getResourceAvailableTime profile command category graphSla hostLoad 0
    (graphId :: graphs)).head?, 0 ≤ time → ∀ host, Within (time / gap).toNat
      (hostLoad.getD host [], (profile graphId command category).getD host [])

/-- The search on the host does not overflow. -/
def InRange (h : HostLoads) : Prop := h.2 = [] ∨ HasRoom h ∨ h.1.length * gap < 2 ^ 31
  deriving Decidable

/-- A host that does not set the delay back. -/
def keepsDelay (h : HostLoads) : Bool := h.2 = [] ∨ ¬ HasRoom h

/-- The longest load among the job's hosts behind the last one that sets the delay back. -/
def latestEnd (hs : List HostLoads) : Nat :=
  (hs.rtakeWhile keepsDelay).toFinset.sup fun h => if h.2 = [] then 0 else h.1.length

theorem foldlM_hostDelay {hs : List HostLoads}
    (hj : ∀ h ∈ hs, ∀ x ∈ h.2, x ≤ LOAD_AVG_THREASHOLD) :
    hs.foldlM hostDelay 0 =
      if ∀ h ∈ hs, InRange h then some (latestEnd hs * gap) else none := by
  induction hs using reverseRecOn with
  | nil => simp [latestEnd]
  | append_singleton hs h ih =>
    rw [foldlM_append, ih fun a ha => hj a (mem_append_left _ ha)]
    simp only [forall_mem_append, forall_mem_singleton]
    by_cases hall : ∀ h ∈ hs, InRange h
    · have hg : (0 : Int) ≤ gap := by decide
      have hin : InRange h ↔ h.2 = [] ∨ HasRoom h ∨ h.1.length * gap < 2 ^ 31 := .rfl
      rw [if_pos hall, Option.bind_eq_bind, Option.bind_some, foldlM_cons,
        hostDelay_eq _ (hj h (by simp)), latestEnd, latestEnd, rtakeWhile_concat,
        if_congr ((and_iff_right hall).trans hin) rfl rfl]
      by_cases h0 : h.2 = [] <;> by_cases hr : HasRoom h <;>
        simp [keepsDelay, startTime, h0, hr, max_mul_of_nonneg _ _ hg, max_comm]
    · rw [if_neg hall, if_neg fun h => hall h.1]
      rfl

theorem within_of_length_le {s : Nat} {h : HostLoads}
    (hj : ∀ x ∈ h.2, x ≤ LOAD_AVG_THREASHOLD) (hs : h.1.length ≤ s) : Within s h := by
  intro k hk
  rw [mem_range] at hk
  rw [getD_eq_default _ _ (by omega), zero_add, getD_eq_getElem _ _ hk]
  exact hj _ (getElem_mem hk)

theorem within_latestEnd {hs : List HostLoads} (hj : ∀ h ∈ hs, ∀ x ∈ h.2, x ≤ LOAD_AVG_THREASHOLD) :
    (∀ h ∈ hs, Within (latestEnd hs) h) ↔
      ∀ h ∈ hs.rdropWhile keepsDelay, Within (latestEnd hs) h := by
  have hsub := IsPrefix.subset <| rdropWhile_prefix keepsDelay hs
  refine ⟨fun hw h hh => hw h (hsub hh), fun hw h hh => ?_⟩
  have hmem := hh
  rw [← @rdropWhile_append_rtakeWhile _ keepsDelay hs] at hmem
  rcases mem_append.1 hmem with hd | ht
  · exact hw h hd
  by_cases h0 : h.2 = []
  · intro k hk
    simp [h0] at hk
  · have := Finset.le_sup (f := fun h : HostLoads => if h.2 = [] then 0 else h.1.length)
      (mem_toFinset.2 ht)
    exact within_of_length_le (hj h hh) (by simpa [h0, latestEnd] using this)

theorem getD_le {newJob : LoadMap} (hj : ∀ e ∈ newJob.toList, ∀ x ∈ e.2, x ≤ LOAD_AVG_THREASHOLD)
    (host : List UInt8) : ∀ x ∈ newJob.getD host [], x ≤ LOAD_AVG_THREASHOLD := by
  intro x hx
  rw [getD_eq_getD_getElem?] at hx
  cases h : newJob[host]? with
  | none => simp [h] at hx
  | some load =>
    rw [h] at hx
    exact hj _ (mem_toList_iff_getElem?_eq_some.2 h) x hx

theorem forall_within_iff {hostLoad newJob : LoadMap} {s : Nat}
    (hjob : ∀ host, ∀ x ∈ newJob.getD host [], x ≤ LOAD_AVG_THREASHOLD) :
    (∀ host, Within s (hostLoad.getD host [], newJob.getD host [])) ↔
      ∀ h ∈ hosts hostLoad newJob, Within s h := by
  constructor
  · intro hw h hh
    obtain ⟨e, he, rfl⟩ := mem_map.1 hh
    simpa [getD_eq_getD_getElem?, mem_toList_iff_getElem?_eq_some.1 he] using hw e.1
  · intro hw host
    cases hl : hostLoad[host]? with
    | none => exact within_of_length_le (hjob host) (by simp [getD_eq_getD_getElem?, hl])
    | some load =>
      have := hw _ (mem_map.2 ⟨(host, load), mem_toList_iff_getElem?_eq_some.2 hl, rfl⟩)
      simpa [getD_eq_getD_getElem?, hl] using this

/-- **The first job of a batch keeps the threshold exactly if no search overflows and its SLA has it
rejected, or the hosts up to the last one with room also have room behind all loads of the hosts
after it.** -/
theorem withinThreshold_iff (profile : Profiles) (command category : List UInt8) (graphSla : Int)
    (hostLoad : LoadMap) (graphId : List UInt8) (graphs : List (List UInt8))
    (hj : ∀ e ∈ (profile graphId command category).toList, ∀ x ∈ e.2, x ≤ LOAD_AVG_THREASHOLD) :
    let hs := hosts hostLoad (profile graphId command category)
    KeepsThreshold profile command category graphSla hostLoad graphId graphs ↔
      (∀ h ∈ hs, InRange h) ∧ (10 * (latestEnd hs * gap) ≤ graphSla →
        ∀ h ∈ hs.rdropWhile keepsDelay, Within (latestEnd hs) h) := by
  intro hs
  have hjob := getD_le hj
  have hhs : ∀ h ∈ hs, ∀ x ∈ h.2, x ≤ LOAD_AVG_THREASHOLD := by
    intro h hh
    obtain ⟨e, -, rfl⟩ := mem_map.1 hh
    exact hjob e.1
  simp only [KeepsThreshold, getResourceAvailableTime, turn]
  rw [foldlM_hostDelay hhs]
  by_cases hrange : ∀ h ∈ hs, InRange h
  · rw [if_pos hrange, Option.bind_eq_bind, Option.bind_some, and_iff_right hrange,
      ← within_latestEnd hhs, ← forall_within_iff hjob]
    have hg : (0 : Int) < gap := by decide
    split_ifs with hr
    · simp [hr.not_ge]
    · simp [not_lt.1 hr, mul_nonneg, hg.le, hg.ne']
  · rw [if_neg hrange]
    exact iff_of_false (by simp) fun h => hrange h.1

theorem keepsThreshold_busy_last :
    KeepsThreshold (fun _ _ _ => {([1], [10]), ([2], [10])}) [] [] 50000
      {([1], [0]), ([2], [20])} [] [] :=
  (withinThreshold_iff _ _ _ _ _ _ _ (by decide +kernel)).2 (by decide +kernel)

/-- The first host is busy, the second one idle: the job starts at once on both. -/
theorem not_keepsThreshold_busy_first :
    ¬ KeepsThreshold (fun _ _ _ => {([1], [10]), ([2], [10])}) [] [] 50000
      {([1], [20]), ([2], [0])} [] [] := by
  rintro ⟨time, htime, h⟩
  have hzero : time = 0 := by
    have hhead : (getResourceAvailableTime (fun _ _ _ => {([1], [10]), ([2], [10])}) [] [] 50000
      {([1], [20]), ([2], [0])} 0 [[]]).head? = some 0 := by decide +kernel
    exact Option.some.inj (htime.symm.trans hhead)
  subst hzero
  exact absurd (h le_rfl [1]) (by decide +kernel)

/-! ## The load of an admitted job -/

/-- The load of a host at a sample. -/
def loadAt (m : LoadMap) (host : List UInt8) (k : Nat) : ℚ := (m[host]?.getD [])[k]?.getD 0

/-- The job's profile is added from sample `n` on, and to its own hosts only. -/
def AddsAtDelay (aggregate newJob : LoadMap) (n : Nat) : Prop :=
  let adjusted := adjustAggregateLoadMap aggregate newJob (n * gap)
  (∀ host k, loadAt adjusted host k =
    loadAt aggregate host k + if k < n then 0 else loadAt newJob host (k - n)) ∧
  ∀ host, host ∉ newJob → adjusted[host]? = aggregate[host]?

def delayed (n : Nat) (load : List ℚ) : List ℚ :=
  if n = 0 then load else (replicate n (0 :: load)).flatten

section

variable {aggregate newJob : LoadMap} {n : Nat} {host : List UInt8} {load : List ℚ}

theorem getElem?_adjustAggregateLoadMap :
    (adjustAggregateLoadMap aggregate newJob (n * gap))[host]? =
      newJob[host]?.elim aggregate[host]? fun load => some (zipWithAll
        (fun a b => a.getD 0 + b.getD 0) (aggregate[host]?.getD []) (delayed n load)) := by
  have hgaps : ((n * gap + gap - 1) / gap).toNat = n := by
    unfold gap
    omega
  have hpos : 0 < n * gap ↔ ¬n = 0 := by
    unfold gap
    omega
  refine MapLoop.obs_foldl (fun (m : LoadMap) (host : List UInt8) => m[host]?)
    (F := fun _ load o => some (zipWithAll _ (o.getD []) (delayed n load)))
    (fun m host load host' => ?_) ..
  rw [Std.TreeMap.getElem?_insert, Std.TreeMap.getD_eq_getD_getElem?, hgaps,
    if_congr hpos rfl rfl]
  by_cases hhost : host = host'
  · subst hhost
    simp [delayed]
  · simp [hhost]

theorem delayed_of_zero (h : ∀ k : Nat, load[k]?.getD 0 = 0) (k : Nat) :
    (delayed n load)[k]?.getD 0 = 0 := by
  have hzero : ∀ x ∈ load, x = 0 := by
    intro x hx
    obtain ⟨i, hi⟩ := mem_iff_getElem?.1 hx
    simpa [hi] using h i
  have hall : ∀ x ∈ delayed n load, x = 0 := by
    unfold delayed
    split
    · exact hzero
    · intro x hx
      simp only [mem_flatten, mem_replicate] at hx
      obtain ⟨_, ⟨-, rfl⟩, hx⟩ := hx
      exact (mem_cons.1 hx).elim id (hzero x)
  cases hk : (delayed n load)[k]? with
  | none => rfl
  | some x => exact hall x (mem_of_getElem? hk)

theorem loadAt_adjustAggregateLoadMap (k : Nat) :
    loadAt (adjustAggregateLoadMap aggregate newJob (n * gap)) host k =
      loadAt aggregate host k + (delayed n (newJob[host]?.getD []))[k]?.getD 0 := by
  simp only [loadAt, getElem?_adjustAggregateLoadMap]
  cases newJob[host]? with
  | none =>
    rw [Option.elim_none, delayed_of_zero (by simp), add_zero]
  | some load =>
    rw [Option.elim_some, Option.getD_some, Option.getD_some, getElem?_zipWithAll]
    cases (aggregate[host]?.getD [])[k]? <;> cases (delayed n load)[k]? <;> simp

theorem delayed_iff :
    (∀ k, (delayed n load)[k]?.getD 0 = if k < n then 0 else load[k - n]?.getD 0) ↔
      n ≤ 1 ∨ ∀ k : Nat, load[k]?.getD 0 = 0 := by
  constructor
  · intro h
    rcases n with _ | _ | n
    · exact .inl (Nat.zero_le 1)
    · exact .inl le_rfl
    refine .inr fun k => ?_
    -- the first copy of the sample stands at `k + 1`, which is too early
    induction k using Nat.strong_induction_on with
    | _ k ih =>
      by_cases hk : k < load.length
      · have hcopy := h (k + 1)
        rw [delayed, if_neg (by omega), replicate_succ, flatten_cons, cons_append,
          getElem?_cons_succ, getElem?_append_left hk] at hcopy
        rw [hcopy]
        split
        · rfl
        · exact ih _ (by omega)
      · rw [List.getElem?_eq_none (by omega), Option.getD_none]
  · rintro (h | h) k
    · interval_cases n <;> cases k <;> simp [delayed]
    · rw [delayed_of_zero h, h, ite_self]

end

/-- **A job that starts at once or after one sample is added at its delay.** After a longer delay
its profile is entered once for each sample of the delay, which is right for no load only. -/
theorem addsAtDelay_iff (aggregate newJob : LoadMap) (n : Nat) :
    AddsAtDelay aggregate newJob n ↔ n ≤ 1 ∨ ∀ host k, loadAt newJob host k = 0 := by
  unfold AddsAtDelay
  rw [and_iff_left, ← forall_or_left]
  · refine forall_congr' fun host => ?_
    simp only [loadAt_adjustAggregateLoadMap, add_right_inj]
    exact delayed_iff
  · intro host hhost
    rw [getElem?_adjustAggregateLoadMap, Std.TreeMap.getElem?_eq_none hhost]
    rfl

/-- With a delay of two samples the job is already counted at the second one. -/
theorem profile_repeated : ¬AddsAtDelay {([1], [20])} {([1], [10])} 2 := fun h =>
  absurd (h.1 [1] 1) (by decide +kernel)

end JasmineGraph.Frontend.Admission
