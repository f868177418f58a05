import JasmineGraph.Bytes.Text

/-!
# Scaling down

Model of a round of `scale_down_thread_fn` (`scaler.cpp`) and of what `K8sWorkerController::scaleDown`
does to the metadata: a thread for each worker runs `deleteWorker`, which deletes the row of the worker
and its rows of `worker_has_partition`.

* A worker is removable if its load is at most 0.25 or not known, and it is not used. Of the removable
  ones a round keeps the workers 0 and 1 and, up to two in all, those with the smallest ids.
* The threads delete in an order that nothing fixes. What they ask of Kubernetes is left out.
* A round does not look at the partitions that a worker holds.
-/

namespace JasmineGraph.Scale

open Bytes List Finset

/-! ## The metadata -/

structure WorkerRow where
  idworker : Int
  ip : List UInt8
  serverPort : List UInt8

abbrev PartitionKey := List UInt8 × List UInt8

/-- The tables `worker`, whose primary key is `idworker`, and `worker_has_partition`. -/
structure MetaDB where
  worker : List WorkerRow
  workerHasPartition : List (PartitionKey × Int)
  key : (worker.map WorkerRow.idworker).Nodup

namespace MetaDB

variable (db : MetaDB)

def ids : Finset Int := (db.worker.map WorkerRow.idworker).toFinset

def Holds (w : Int) (p : PartitionKey) : Prop := w ∈ db.ids ∧ (p, w) ∈ db.workerHasPartition

/-- `K8sWorkerController::deleteWorker`. A worker that is not found is left alone. -/
def deleteWorker (workerId : Int) : MetaDB :=
  if workerId ∈ db.ids then
    { worker := db.worker.filter (·.idworker ≠ workerId)
      workerHasPartition := db.workerHasPartition.filter (·.2 ≠ workerId)
      key := db.key.sublist (filter_sublist.map _) }
  else db

end MetaDB

/-! ## A round -/

/-- The order in which the threads of `scaleDown` delete. -/
structure ThreadOrder where
  order : Finset Int → List Int
  mem_order : ∀ removing w, w ∈ order removing ↔ w ∈ removing

/-- What a round reads besides the tables: the values of `cpu_usage` by address, the use counts of the
workers, and the order of its threads. -/
structure Round where
  cpuUsage : List UInt8 → Option ℚ
  usedWorkers : Int → Option Int
  threads : ThreadOrder

def Round.busy (r : Round) (w : WorkerRow) : Bool :=
  match r.cpuUsage (w.ip ++ ascii ":" ++ w.serverPort) with
  | some load => load > 1 / 4
  | none => false

def Round.used (r : Round) (w : WorkerRow) : Bool :=
  match r.usedWorkers w.idworker with
  | some count => count > 0
  | none => false

/-- The set `removing` before workers are spared. -/
def removable (r : Round) (db : MetaDB) : Finset Int :=
  ((db.worker.filter fun w => !r.busy w && !r.used w).map WorkerRow.idworker).toFinset

/-- `while (spare-- > 0)`: the smallest ones are erased. -/
def eraseLeast : Nat → Finset Int → Finset Int
  | 0, removing => removing
  | spare + 1, removing =>
    if h : removing.Nonempty then eraseLeast spare (removing.erase (removing.min' h)) else removing

/-- How many workers besides 0 and 1 are spared. -/
def spare (removing : Finset Int) : Nat :=
  2 - (if 0 ∈ removing then 1 else 0) - (if 1 ∈ removing then 1 else 0)

def removing (r : Round) (db : MetaDB) : Finset Int :=
  eraseLeast (spare (removable r db)) (((removable r db).erase 0).erase 1)

def scaleDown (order : List Int) (db : MetaDB) : MetaDB := order.foldl MetaDB.deleteWorker db

def round (db : MetaDB) (r : Round) : MetaDB := scaleDown (r.threads.order (removing r db)) db

/-! ## What a round removes -/

section Round

variable {r : Round} {db : MetaDB} {s : Finset Int} {order : List Int} {n : Nat} {w v : Int}
  {p : PartitionKey}

theorem mem_eraseLeast : w ∈ eraseLeast n s ↔ w ∈ s ∧ n ≤ (s.filter (· < w)).card := by
  induction n generalizing s with
  | zero => simp [eraseLeast]
  | succ n ih =>
    unfold eraseLeast
    split
    case isFalse h => simp [not_nonempty_iff_eq_empty.1 h]
    case isTrue h =>
      rw [ih, mem_erase, filter_erase, and_assoc, and_left_comm]
      refine and_congr_right fun hw => ?_
      rcases (s.min'_le w hw).eq_or_lt with heq | hlt
      · have hnone : s.filter (· < w) = ∅ :=
          filter_eq_empty_iff.2 fun v hv => not_lt.2 (heq ▸ s.min'_le v hv)
        simp [heq, hnone]
      · have hmem : s.min' h ∈ s.filter (· < w) := Finset.mem_filter.2 ⟨s.min'_mem h, hlt⟩
        have hpos := card_pos.2 ⟨_, hmem⟩
        rw [card_erase_of_mem hmem]
        exact ⟨fun h => by omega, fun h => ⟨hlt.ne', by omega⟩⟩

theorem card_eraseLeast : (eraseLeast n s).card = s.card - n := by
  induction n generalizing s with
  | zero => rfl
  | succ n ih =>
    unfold eraseLeast
    split
    case isFalse h => simp [not_nonempty_iff_eq_empty.1 h]
    case isTrue h =>
      rw [ih, card_erase_of_mem (s.min'_mem h)]
      omega

/-- The workers that a round keeps: those that are not removable, 0 and 1, and those with fewer
smaller ones than are spared. -/
def Kept (r : Round) (db : MetaDB) (w : Int) : Prop :=
  w ∉ removable r db ∨ w = 0 ∨ w = 1 ∨
    ((((removable r db).erase 0).erase 1).filter (· < w)).card < spare (removable r db)

theorem mem_removing_iff : w ∈ removing r db ↔ ¬Kept r db w := by
  unfold removing Kept
  rw [mem_eraseLeast, mem_erase, mem_erase]
  rw [not_or, not_or, not_or, not_lt, not_not]
  tauto

theorem removable_subset : removable r db ⊆ db.ids := by
  intro w hw
  rw [removable, mem_toFinset] at hw
  exact mem_toFinset.2 ((filter_sublist.map _).subset hw)

theorem removing_subset : removing r db ⊆ removable r db := fun _ hw =>
  not_not.1 fun hnot => mem_removing_iff.1 hw (.inl hnot)

theorem card_removing : min 2 (removable r db).card + (removing r db).card ≤
    (removable r db).card := by
  unfold removing spare
  rw [card_eraseLeast]
  by_cases hzero : 0 ∈ removable r db <;> by_cases hone : 1 ∈ removable r db <;>
    simp_all <;> omega

/-! ## What is left -/

theorem ids_deleteWorker : (db.deleteWorker v).ids = db.ids.erase v := by
  unfold MetaDB.deleteWorker
  split
  case isFalse h => exact (erase_eq_of_notMem h).symm
  case isTrue h =>
    ext w
    simp only [MetaDB.ids, mem_toFinset, List.mem_map, List.mem_filter, decide_eq_true_eq,
      mem_erase]
    constructor
    · rintro ⟨row, ⟨hrow, hne⟩, rfl⟩
      exact ⟨hne, row, hrow, rfl⟩
    · rintro ⟨hne, row, hrow, rfl⟩
      exact ⟨row, ⟨hrow, hne⟩, rfl⟩

theorem holds_deleteWorker : (db.deleteWorker v).Holds w p ↔ w ≠ v ∧ db.Holds w p := by
  unfold MetaDB.Holds
  rw [ids_deleteWorker, mem_erase]
  unfold MetaDB.deleteWorker
  split
  · simp only [List.mem_filter, decide_eq_true_eq]
    tauto
  · exact and_assoc

theorem holds_scaleDown : (scaleDown order db).Holds w p ↔ w ∉ order ∧ db.Holds w p := by
  induction order generalizing db with
  | nil => simp [scaleDown]
  | cons v order ih =>
    change (scaleDown order (db.deleteWorker v)).Holds w p ↔ _
    rw [ih, holds_deleteWorker, List.mem_cons]
    tauto

theorem mem_ids_scaleDown : w ∈ (scaleDown order db).ids ↔ w ∉ order ∧ w ∈ db.ids := by
  induction order generalizing db with
  | nil => simp [scaleDown]
  | cons v order ih =>
    change w ∈ (scaleDown order (db.deleteWorker v)).ids ↔ _
    rw [ih, ids_deleteWorker, mem_erase, List.mem_cons]
    tauto

theorem mem_ids_round : w ∈ (round db r).ids ↔ Kept r db w ∧ w ∈ db.ids := by
  rw [round, mem_ids_scaleDown, r.threads.mem_order, mem_removing_iff, not_not]

theorem holds_round : (round db r).Holds w p ↔ Kept r db w ∧ db.Holds w p := by
  rw [round, holds_scaleDown, r.threads.mem_order, mem_removing_iff, not_not]

end Round

/-! ## Rounds -/

/-- A round that stops no worker that is needed: what it removes is neither busy nor used, two
removable workers stay, and so does a holder of every partition that is held. -/
structure SafeRound (db : MetaDB) (r : Round) : Prop where
  idle : ∀ w ∈ db.worker, w.idworker ∉ (round db r).ids → r.busy w = false ∧ r.used w = false
  kept : min 2 (removable r db).card ≤ (removable r db ∩ (round db r).ids).card
  held : ∀ p, (∃ w, db.Holds w p) → ∃ w, (round db r).Holds w p

/-- Every partition that is held has a holder that the round keeps. -/
def HoldersKept (db : MetaDB) (r : Round) : Prop :=
  ∀ p, (∃ w, db.Holds w p) → ∃ w, db.Holds w p ∧ Kept r db w

theorem mem_removable_iff {r : Round} {db : MetaDB} {w : WorkerRow} (hw : w ∈ db.worker) :
    w.idworker ∈ removable r db ↔ r.busy w = false ∧ r.used w = false := by
  simp only [removable, mem_toFinset, List.mem_map, List.mem_filter, Bool.and_eq_true,
    Bool.not_eq_true']
  refine ⟨fun ⟨v, hv, heq⟩ => ?_, fun h => ⟨w, ⟨hw, h⟩, rfl⟩⟩
  rw [← inj_on_of_nodup_map db.key hv.1 hw heq]
  exact hv.2

theorem safeRound_iff (db : MetaDB) (r : Round) : SafeRound db r ↔ HoldersKept db r := by
  have hheld : (∀ p, (∃ w, db.Holds w p) → ∃ w, (round db r).Holds w p) ↔ HoldersKept db r := by
    refine forall₂_congr fun p _ => exists_congr fun w => ?_
    rw [holds_round, and_comm]
  refine ⟨fun h => hheld.1 h.held, fun h => ⟨fun w hw hnot => ?_, ?_, hheld.2 h⟩⟩
  · rw [← mem_removable_iff hw]
    by_contra hkept
    exact hnot (mem_ids_round.2 ⟨.inl hkept, mem_toFinset.2 (List.mem_map_of_mem hw)⟩)
  · have hinter : removable r db ∩ (round db r).ids = removable r db \ removing r db := by
      ext w
      rw [mem_inter, mem_sdiff, mem_ids_round, mem_removing_iff, not_not]
      exact and_congr_right fun hw => and_iff_left (removable_subset hw)
    rw [hinter, card_sdiff_of_subset removing_subset]
    have hcard := @card_removing r db
    omega

/-- **Scaling down is safe exactly if every round keeps a holder of every partition.** -/
theorem rounds_safe_iff (db : MetaDB) (rounds : List Round) :
    (∀ before r after, rounds = before ++ r :: after → SafeRound (before.foldl round db) r) ↔
      ∀ before r after, rounds = before ++ r :: after → HoldersKept (before.foldl round db) r :=
  forall₄_congr fun _ _ _ _ => safeRound_iff _ _

theorem nodup_three : ([0, 1, 2] : List Int).Nodup := by decide

/-- Three workers; the last one holds the only partition. -/
def threeWorkers : MetaDB where
  worker := [⟨0, ascii "a", ascii "7780"⟩, ⟨1, ascii "b", ascii "7780"⟩, ⟨2, ascii "c", ascii "7780"⟩]
  workerHasPartition := [((ascii "0", ascii "1"), 2)]
  key := nodup_three

/-- No load is known and no worker is used. -/
def idle : Round where
  cpuUsage _ := none
  usedWorkers _ := none
  threads := ⟨fun removing => removing.sort (· ≤ ·), fun _ _ => mem_sort _⟩

/-- **The only holder of a partition is removed.** -/
theorem threeWorkers_partition_lost : ¬SafeRound threeWorkers idle := by
  intro h
  obtain ⟨w, hw⟩ := h.held (ascii "0", ascii "1") ⟨2, by decide, by decide⟩
  obtain ⟨hkept, -, hmem⟩ := holds_round.1 hw
  obtain rfl : w = 2 := by simpa [threeWorkers] using hmem
  exact mem_removing_iff.1 (by decide) hkept

end JasmineGraph.Scale
