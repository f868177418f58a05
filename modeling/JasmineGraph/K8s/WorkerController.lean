import JasmineGraph.Machine

/-!
# New workers on Kubernetes

Two parts of `K8sWorkerController`: the ids that `scaleUp` gives to new workers, and the exits of
`spawnWorker`. This takes `k8sSpawnMutex`, deletes what an earlier attempt may have left, creates four
resources and releases the mutex. A creation that fails throws. It then waits for the worker to
accept a connection; when that takes too long it calls `deleteWorker` and returns the empty text.
-/

namespace JasmineGraph.K8s

open List

/-! ## The ids of new workers -/

/-- `nextWorkerId` after `attachExistingWorkers`, for the workers in the order in which they are
listed: every one sets it anew. -/
def attachExistingWorkers (workerIds : List Int) : Int :=
  workerIds.foldl (fun _ workerId => toInt32 (workerId + 1)) 0

/-- The ids that calls of `scaleUp` hand to their threads. `getNextWorkerId` takes `count` ids at a
time, under a mutex. -/
def scaleUp (nextWorkerId : Int) : List Nat → List Int
  | [] => []
  | count :: counts =>
    (range count).map (fun i : Nat => toInt32 (nextWorkerId + i)) ++
      scaleUp (toInt32 (nextWorkerId + count)) counts

theorem scaleUp_eq {nextWorkerId : Int} {counts : List Nat} (hmin : -2 ^ 31 ≤ nextWorkerId)
    (hmax : nextWorkerId + counts.sum < 2 ^ 31) : scaleUp nextWorkerId counts =
      (range counts.sum).map fun i : Nat => nextWorkerId + i := by
  induction counts generalizing nextWorkerId with
  | nil => rfl
  | cons count counts ih =>
    rw [sum_cons] at hmax
    have hint : ∀ i ≤ count, toInt32 (nextWorkerId + i) = nextWorkerId + i :=
      fun i hi => toInt32_of_mem (by omega) (by omega)
    rw [scaleUp, hint count le_rfl, ih (by omega) (by omega), sum_cons, range_add, map_append,
      map_map]
    refine congrArg₂ _ (map_congr_left fun i hi => hint i (mem_range.1 hi).le)
      (map_congr_left fun i _ => ?_)
    rw [Function.comp_apply, Nat.cast_add, add_assoc]

theorem attachExistingWorkers_eq {workerIds : List Int} (hmin : -2 ^ 31 ≤ workerIds.getLastD (-1))
    (hmax : workerIds.getLastD (-1) + 1 < 2 ^ 31) :
    attachExistingWorkers workerIds = workerIds.getLastD (-1) + 1 := by
  rcases eq_nil_or_concat' workerIds with rfl | ⟨init, last, rfl⟩
  · rfl
  · rw [getLastD_concat] at *
    rw [attachExistingWorkers, foldl_concat]
    exact toInt32_of_mem (by omega) hmax

/-- **New worker ids are fresh**, in whatever order the threads of any number of calls of `scaleUp`
pass them to `spawnWorker`, exactly if no attached worker has one of the ids behind the worker listed
last. -/
theorem nodup_scaleUp_iff {workerIds order : List Int} {counts : List Nat} (hnodup : workerIds.Nodup)
    (hmin : -2 ^ 31 ≤ workerIds.getLastD (-1))
    (hmax : workerIds.getLastD (-1) + 1 + counts.sum < 2 ^ 31)
    (horder : order ~ scaleUp (attachExistingWorkers workerIds) counts) :
    (workerIds ++ order).Nodup ↔
      ∀ id ∈ workerIds, id ≤ workerIds.getLastD (-1) ∨ workerIds.getLastD (-1) + counts.sum < id := by
  rw [attachExistingWorkers_eq hmin (by omega), scaleUp_eq (by omega) hmax] at horder
  have hnew : order.Nodup := by
    refine horder.nodup_iff.2 (nodup_range.map fun i j hij => ?_)
    simpa using hij
  rw [nodup_append', and_iff_right hnodup, and_iff_right hnew]
  refine forall₂_congr fun id hid => ?_
  rw [horder.mem_iff, mem_map]
  constructor
  · intro h
    by_contra! hid
    exact h ⟨(id - (workerIds.getLastD (-1) + 1)).toNat, mem_range.2 (by omega), by omega⟩
  · rintro h ⟨i, hi, rfl⟩
    have := mem_range.1 hi
    omega

theorem nodup_scaleUp_three : ([0, 1, 2] ++ [4, 3] : List Int).Nodup := by
  have horder : [4, 3] ~ scaleUp (attachExistingWorkers [0, 1, 2]) [1, 1] := by decide
  exact (nodup_scaleUp_iff (by decide) (by decide) (by decide) horder).2 (by decide)

/-- Workers 1 and 0 are listed in this order: the next worker gets the id 1 again. -/
theorem not_nodup_scaleUp_one : ¬([1, 0] ++ scaleUp (attachExistingWorkers [1, 0]) [1]).Nodup := by
  decide

/-! ## The exits of `spawnWorker` -/

inductive Resource
  | volume
  | claim
  | service
  | deployment
  deriving DecidableEq, Repr

open Resource

def resources : List Resource := [volume, claim, service, deployment]

/-- What a call of `spawnWorker` leaves behind: what it created, what it asked to be deleted after
that, whether it holds `k8sSpawnMutex`, and whether it returned a worker. -/
structure Spawn where
  created : List Resource
  deleted : List Resource := []
  locked : Bool := false
  running : Bool := false
  deriving DecidableEq, Repr

/-- The requests of `deleteWorker`; `worker` has the ids in the table of that name. -/
def deleteWorker (worker : List Int) (workerId : Int) : List Resource :=
  if workerId ∈ worker then [deployment, service, volume, claim] else []

/-- The loop that waits: every refused connection counts 30 seconds of `TIME_OUT`, and the loop is left
at the first one that is accepted. `connects k` is the outcome of the attempt `k`. -/
def responds (connects : Nat → Bool) : Bool := (range (900 / 30)).any connects

/-- `spawnWorker`, where the creations in `fails` fail. The row of the worker is inserted after it has
responded. -/
def spawnWorker (fails : Resource → Bool) (connects : Nat → Bool) (worker : List Int)
    (workerId : Int) : Spawn :=
  let created := resources.takeWhile fun r => !fails r
  if created = resources then
    if responds connects then { created, running := true }
    else { created, deleted := deleteWorker worker workerId }
  else { created, locked := true }

/-- Nothing is left behind by a call without a running worker: the mutex is free for other calls, and
everything created was asked to be deleted. -/
def Spawn.CleanedUp (s : Spawn) : Prop :=
  s.running = false → s.locked = false ∧ ∀ r ∈ s.created, r ∈ s.deleted

instance (s : Spawn) : Decidable s.CleanedUp := inferInstanceAs (Decidable (_ → _))

theorem takeWhile_resources_eq_iff {fails : Resource → Bool} :
    (resources.takeWhile fun r => !fails r) = resources ↔ ∀ r, fails r = false := by
  rw [takeWhile_eq_self_iff]
  refine ⟨fun h r => ?_, fun h r _ => by rw [h r]; rfl⟩
  have hr : r ∈ resources := by cases r <;> decide
  simpa using h r hr

theorem responds_iff {connects : Nat → Bool} :
    responds connects = true ↔ ∃ k < 30, connects k = true := by
  simp [responds]

theorem deleteWorker_iff {worker : List Int} {workerId : Int} :
    (∀ r ∈ resources, r ∈ deleteWorker worker workerId) ↔ workerId ∈ worker := by
  unfold deleteWorker
  split
  · rename_i hrow
    exact iff_of_true (by decide) hrow
  · rename_i hrow
    exact iff_of_false (fun h => absurd (h volume (by decide)) nofun) hrow

/-- **A spawn cleans up** exactly if no creation fails, and the worker responds in time or the table
has a worker of that id already. -/
theorem spawnWorker_cleanedUp_iff (fails : Resource → Bool) (connects : Nat → Bool)
    (worker : List Int) (workerId : Int) :
    (spawnWorker fails connects worker workerId).CleanedUp ↔
      (∀ r, fails r = false) ∧ ((∃ k < 30, connects k = true) ∨ workerId ∈ worker) := by
  rw [← takeWhile_resources_eq_iff, ← responds_iff]
  unfold spawnWorker Spawn.CleanedUp
  by_cases hcreated : (resources.takeWhile fun r => !fails r) = resources
  · simp only [hcreated]
    by_cases hresponds : responds connects = true
    · simp [hresponds]
    · simp [hresponds, deleteWorker_iff]
  · simp [hcreated]

/-- The worker does not respond: `deleteWorker` finds no row, and all four resources stay. -/
theorem spawnWorker_timeout : ¬(spawnWorker (fun _ => false) (fun _ => false) [] 0).CleanedUp := by
  decide

end JasmineGraph.K8s
