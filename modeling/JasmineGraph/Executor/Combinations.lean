import JasmineGraph.PrevPermutation

/-!
# `AbstractExecutor::getCombinations`

The model of `AbstractExecutor::getCombinations` (`frontend/core/executor/AbstractExecutor.cpp`),
which lists "all the combinations of 3 workers for given set of workers". A bitmask starts as three
ones, is resized to the number of workers, and `std::prev_permutation` steps through its
permutations; a combination is the workers at the ones. With fewer than three workers the resize
cuts the mask off and the one combination is all of them.
-/

namespace JasmineGraph.Executor

open List

variable {α : Type*} {v c : List α} {m m' : List Bool}

/-- `std::string bitmask(3, 1)` after `bitmask.resize(n, 0)`. -/
def bitmask (n : Nat) : List Bool := replicate (min 3 n) true ++ replicate (n - 3) false

def combination (bitmask : List Bool) : List Nat :=
  (List.range bitmask.length).filter fun i => bitmask.getD i false

def getCombinations (inputVector : List α) : List (List α) :=
  ((downFrom (bitmask inputVector.length)).map combination).map fun combination =>
    combination.filterMap fun index => inputVector[index]?

/-! ## Members at the ones -/

def select : List Bool → List α → List α
  | b :: bs, a :: as => if b then a :: select bs as else select bs as
  | _, _ => []

theorem combination_cons (b : Bool) (bs : List Bool) : combination (b :: bs) =
      (if b then [0] else []) ++ (combination bs).map Nat.succ := by
  unfold combination
  rw [length_cons, range_succ_eq_map, filter_cons, filter_map]
  cases b <;> rfl

theorem filterMap_combination (h : m.length = v.length) :
    ((combination m).filterMap fun index => v[index]?) = select m v := by
  induction m generalizing v with
  | nil =>
    rfl
  | cons b bs ih =>
    obtain ⟨a, as, rfl⟩ := exists_cons_of_length_eq_add_one h.symm
    have htail := ih (Nat.succ.inj h)
    rw [combination_cons, filterMap_append, filterMap_map]
    have hshift : ((fun index => (a :: as)[index]?) ∘ Nat.succ) = fun index => as[index]? := rfl
    rw [hshift, htail]
    cases b <;> rfl

theorem length_select (h : m.length = v.length) : (select m v).length = m.count true := by
  induction m generalizing v with
  | nil => rw [eq_nil_of_length_eq_zero h.symm]; rfl
  | cons b bs ih =>
    obtain ⟨a, as, rfl⟩ := exists_cons_of_length_eq_add_one h.symm
    have htail := ih (Nat.succ.inj h)
    cases b <;> simp [select, htail]

theorem select_sublist (m : List Bool) (v : List α) : (select m v).Sublist v := by
  induction v generalizing m with
  | nil => cases m <;> exact nil_sublist _
  | cons a as ih =>
    cases m with
    | nil => exact nil_sublist _
    | cons b bs =>
      cases b
      · exact (ih bs).cons a
      · exact (ih bs).cons_cons a

theorem exists_select (h : c.Sublist v) : ∃ m, m.length = v.length ∧ select m v = c := by
  induction h with
  | slnil => exact ⟨[], rfl, rfl⟩
  | cons a _ ih =>
    obtain ⟨m, hlen, rfl⟩ := ih
    exact ⟨false :: m, congrArg Nat.succ hlen, rfl⟩
  | cons_cons a _ ih =>
    obtain ⟨m, hlen, rfl⟩ := ih
    exact ⟨true :: m, congrArg Nat.succ hlen, rfl⟩

theorem select_injective (hv : v.Nodup) (hm : m.length = v.length) (hm' : m'.length = v.length)
    (h : select m v = select m' v) : m = m' := by
  induction v generalizing m m' with
  | nil => rw [eq_nil_of_length_eq_zero hm, eq_nil_of_length_eq_zero hm']
  | cons a as ih =>
    obtain ⟨b, bs, rfl⟩ := exists_cons_of_length_eq_add_one hm
    obtain ⟨b', bs', rfl⟩ := exists_cons_of_length_eq_add_one hm'
    obtain ⟨ha, has⟩ := nodup_cons.1 hv
    -- a mask that leaves `a` out selects from the rest, where `a` does not occur again
    have hleft (n : List Bool) : a ∉ select n as := fun h => ha ((select_sublist n as).subset h)
    have htail := ih has (Nat.succ.inj hm) (Nat.succ.inj hm')
    cases b <;> cases b'
    · rw [htail h]
    · exact absurd (h ▸ mem_cons_self) (hleft bs)
    · exact absurd (h ▸ mem_cons_self) (hleft bs')
    · rw [htail (cons.inj h).2]

/-! ## The masks -/

theorem pairwise_bitmask (n : Nat) : (bitmask n).Pairwise (· ≥ ·) := by
  refine pairwise_append.2 ⟨?_, ?_, ?_⟩
  · exact pairwise_replicate.2 (.inr le_rfl)
  · exact pairwise_replicate.2 (.inr le_rfl)
  · intro a ha b hb
    rw [eq_of_mem_replicate hb]
    exact Bool.false_le a

/-- **The masks visited**: every mask of the length with three ones. -/
theorem mem_downFrom_bitmask {n : Nat} :
    m ∈ downFrom (bitmask n) ↔ m.length = n ∧ m.count true = min 3 n := by
  rw [mem_downFrom_of_descending (pairwise_bitmask n), bitmask,
    perm_replicate_append_replicate (by decide)]
  have hlen := count_true_add_count_false m
  constructor
  · omega
  · rintro ⟨rfl, htrue⟩
    refine ⟨htrue, by omega, fun b _ => ?_⟩
    cases b <;> decide

theorem getCombinations_eq (v : List α) :
    getCombinations v = (downFrom (bitmask v.length)).map (select · v) := by
  unfold getCombinations
  rw [map_map]
  refine map_congr_left fun m hm => ?_
  exact filterMap_combination (mem_downFrom_bitmask.1 hm).1

/-- **The combinations are the sublists of three members.** -/
theorem mem_getCombinations : c ∈ getCombinations v ↔ c.Sublist v ∧ c.length = min 3 v.length := by
  rw [getCombinations_eq, mem_map]
  constructor
  · rintro ⟨m, hm, rfl⟩
    obtain ⟨hlen, hcount⟩ := mem_downFrom_bitmask.1 hm
    exact ⟨select_sublist m v, (length_select hlen).trans hcount⟩
  · rintro ⟨hsub, hthree⟩
    obtain ⟨m, hlen, rfl⟩ := exists_select hsub
    exact ⟨m, mem_downFrom_bitmask.2 ⟨hlen, (length_select hlen).symm.trans hthree⟩, rfl⟩

/-- **Every triple once**: of distinct workers the combinations are the sublists of three, which are
the subsets of three in the order of the input, and none is listed twice. -/
theorem getCombinations_triples (hnodup : v.Nodup) (hthree : 3 ≤ v.length) :
    (getCombinations v).Nodup ∧ ∀ c, c ∈ getCombinations v ↔ c.Sublist v ∧ c.length = 3 := by
  constructor
  · rw [getCombinations_eq]
    refine (nodup_downFrom _).map_on fun m hm m' hm' h => ?_
    exact select_injective hnodup (mem_downFrom_bitmask.1 hm).1 (mem_downFrom_bitmask.1 hm').1 h
  · intro c
    rw [mem_getCombinations, min_eq_left hthree]

theorem getCombinations_triples_four : ["0", "1", "2", "3"].Nodup ∧
    (getCombinations ["0", "1", "2", "3"]).Nodup ∧
      ["0", "2", "3"] ∈ getCombinations ["0", "1", "2", "3"] := by
  have hnodup : ["0", "1", "2", "3"].Nodup := by decide
  obtain ⟨hlist, hmem⟩ := getCombinations_triples hnodup (by decide)
  exact ⟨hnodup, hlist, (hmem _).2 (by decide)⟩

end JasmineGraph.Executor
