import Mathlib

/-!
# The contract of `std::priority_queue`, and merging sorted runs

A `PriorityQueue less` holds a multiset of elements and gives them back one by one. What it promises
of the element that `pop` takes is only that nothing lies strictly above it in the comparator, and
this only if there is such an element: `std::priority_queue` asks for a strict weak order, and a
comparator that is not one may have no maximal element. Nothing is said of the order of elements
that compare equal.

`NoneAbove` reads a comparator both as "less" and as "less or equal": an element is maximal if
whatever it is below is below it as well.

* `RanksOn less key l`: on the elements of `l`, the comparator puts a smaller key on top.
* `drain`: taking elements until the queue is empty.
* `mergeRuns`: a queue over the first elements of the runs, refilled from the run that the last
  element came from.
-/

namespace JasmineGraph

open List Option Prod

variable {α κ : Type}

def NoneAbove (less : α → α → Bool) (l : List α) (x : α) : Prop :=
  ∀ y ∈ l, less x y = true → less y x = true

/-- A queue that keeps the contract. -/
structure PriorityQueue (less : α → α → Bool) where
  State : Type
  empty : State
  push : α → State → State
  pop : State → Option (α × State)
  elements : State → List α
  elements_empty : elements empty = []
  elements_push : ∀ x s, elements (push x s) ~ x :: elements s
  pop_eq_none : ∀ {s}, pop s = none → elements s = []
  pop_perm : ∀ {s x s'}, pop s = some (x, s') → elements s ~ x :: elements s'
  pop_noneAbove : ∀ {s x s'}, pop s = some (x, s') →
    (∃ y ∈ elements s, NoneAbove less (elements s) y) → NoneAbove less (elements s) x

def RanksOn [LinearOrder κ] (less : α → α → Bool) (key : α → κ) (l : List α) : Prop :=
  ∀ a ∈ l, ∀ b ∈ l, (less a b = true → less b a = true) ↔ key a ≤ key b

theorem RanksOn.mono [LinearOrder κ] {less : α → α → Bool} {key : α → κ} {l l' : List α}
    (h : RanksOn less key l) (hl : l' ⊆ l) : RanksOn less key l' :=
  fun a ha b hb => h a (hl ha) b (hl hb)

variable {x : α} {n : Nat}

namespace PriorityQueue

variable {less : α → α → Bool} (Q : PriorityQueue less)

theorem length_of_pop {s s' : Q.State} (hpop : Q.pop s = some (x, s')) :
    (Q.elements s).length = (Q.elements s').length + 1 := (Q.pop_perm hpop).length_eq

theorem pop_le [LinearOrder κ] (key : α → κ) {s s' : Q.State}
    (hrank : RanksOn less key (Q.elements s)) (hpop : Q.pop s = some (x, s')) :
    ∀ y ∈ Q.elements s, key x ≤ key y := by
  have hx : x ∈ Q.elements s := (Q.pop_perm hpop).symm.subset mem_cons_self
  obtain ⟨m, hm⟩ : ∃ m, (Q.elements s).argmin key = some m := by
    rw [← isSome_iff_exists, ← ne_none_iff_isSome, Ne, argmin_eq_none]
    exact ne_nil_of_mem hx
  have hmem := argmin_mem hm
  have htop : NoneAbove less (Q.elements s) m := fun y hy =>
    (hrank m hmem y hy).2 (le_of_mem_argmin hy hm)
  intro y hy
  exact (hrank x hx y hy).1 (Q.pop_noneAbove hpop ⟨m, hmem, htop⟩ y hy)

/-! ## Draining -/

/-- `while (!pq.empty()) { ... pq.top() ... pq.pop(); }`, for at most `n` turns. -/
def drain : Nat → Q.State → List α
  | 0, _ => []
  | n + 1, s =>
    match Q.pop s with
    | none => []
    | some (x, s') => x :: drain n s'

def drainAll (s : Q.State) : List α := Q.drain (Q.elements s).length s

theorem drain_spec [LinearOrder κ] (key : α → κ) {s : Q.State} (hn : (Q.elements s).length ≤ n) :
    Q.drain n s ~ Q.elements s ∧
      (RanksOn less key (Q.elements s) → (Q.drain n s).Pairwise fun a b => key a ≤ key b) := by
  induction n generalizing s with
  | zero =>
    rw [length_eq_zero_iff.1 (Nat.le_zero.1 hn)]
    exact ⟨.nil, fun _ => .nil⟩
  | succ n ih =>
    cases hpop : Q.pop s with
    | none =>
      rw [drain, hpop, Q.pop_eq_none hpop]
      exact ⟨.refl _, fun _ => .nil⟩
    | some r =>
      obtain ⟨x, s'⟩ := r
      have hlen := Q.length_of_pop hpop
      have hsub : Q.elements s' ⊆ Q.elements s := fun y hy =>
        (Q.pop_perm hpop).symm.subset (mem_cons_of_mem _ hy)
      obtain ⟨hperm, hsorted⟩ := @ih s' (by omega)
      rw [drain, hpop]
      refine ⟨(hperm.cons x).trans (Q.pop_perm hpop).symm, fun hrank => ?_⟩
      exact .cons (fun y hy => Q.pop_le key hrank hpop y (hsub (hperm.subset hy)))
        (hsorted (hrank.mono hsub))

theorem drainAll_perm (s : Q.State) : Q.drainAll s ~ Q.elements s :=
  (Q.drain_spec (fun _ => ()) le_rfl).1

/-! ## Pushing a list -/

def pushAll (xs : List α) (s : Q.State) : Q.State := xs.foldl (fun s x => Q.push x s) s

theorem elements_pushAll (xs : List α) (s : Q.State) :
    Q.elements (Q.pushAll xs s) ~ xs ++ Q.elements s := by
  induction xs generalizing s with
  | nil => exact .refl _
  | cons x xs ih =>
    have hpush : xs ++ Q.elements (Q.push x s) ~ xs ++ x :: Q.elements s :=
      (Q.elements_push x s).append_left xs
    exact (ih (Q.push x s)).trans (hpush.trans perm_middle)

end PriorityQueue

/-! ## Merging runs -/

/-- The comparator on elements that carry the number of their run. -/
def lessFst (less : α → α → Bool) (a b : α × Nat) : Bool := less a.1 b.1

namespace PriorityQueue

variable {less : α → α → Bool} (Q : PriorityQueue (lessFst less))

/-- The loop of the merge, for at most `n` turns: take an element, and put the next one of its run
in its place. -/
def mergeLoop : Nat → Q.State → List (List α) → List α
  | 0, _, _ => []
  | n + 1, s, runs =>
    match Q.pop s with
    | none => []
    | some ((x, i), s') =>
      match runs[i]? with
      | some (y :: run) => x :: mergeLoop n (Q.push (y, i) s') (runs.set i run)
      | _ => x :: mergeLoop n s' runs

/-- The first elements of the runs, each with the number of its run. -/
def heads (i : Nat) : List (List α) → List (α × Nat)
  | [] => []
  | [] :: runs => heads (i + 1) runs
  | (x :: _) :: runs => (x, i) :: heads (i + 1) runs

def mergeRuns (runs : List (List α)) : List α :=
  Q.mergeLoop runs.flatten.length (Q.pushAll (heads 0 runs) Q.empty) (runs.map tail)

def pending (s : Q.State) (runs : List (List α)) : List α :=
  (Q.elements s).map fst ++ runs.flatten

/-- One turn takes an element off what is to come. -/
theorem pending_perm {s s' : Q.State} {i : Nat} (runs : List (List α))
    (hpop : Q.pop s = some ((x, i), s')) : Q.pending s runs ~ x :: Q.pending s' runs :=
  ((Q.pop_perm hpop).map fst).append_right runs.flatten

variable {run : List α} {runs : List (List α)}

theorem flatten_set_perm {i : Nat} {y : α} (hrun : runs[i]? = some (y :: run)) :
    runs.flatten ~ y :: (runs.set i run).flatten := by
  induction runs generalizing i with
  | nil => exact absurd hrun nofun
  | cons r runs ih =>
    cases i with
    | zero =>
      obtain rfl := some.inj hrun
      exact .refl _
    | succ i =>
      have h := (ih hrun).append_left r
      exact h.trans perm_middle

theorem pending_push_perm {s : Q.State} {i : Nat} {y : α} (hrun : runs[i]? = some (y :: run)) :
    Q.pending (Q.push (y, i) s) (runs.set i run) ~ Q.pending s runs := by
  refine (((Q.elements_push (y, i) s).map fst).append_right _).trans ?_
  exact perm_middle.symm.trans ((flatten_set_perm hrun).symm.append_left _)

def Lined (R : α → α → Prop) (s : Q.State) (runs : List (List α)) : Prop :=
  ∀ i run, runs[i]? = some run → ∀ y ∈ run, ∃ x, (x, i) ∈ Q.elements s ∧ R x y

theorem mergeLoop_of_cons {s s' : Q.State} {x y : α} {i : Nat} (hpop : Q.pop s = some ((x, i), s'))
    (hrun : runs[i]? = some (y :: run)) (n : Nat) :
    Q.mergeLoop (n + 1) s runs = x :: Q.mergeLoop n (Q.push (y, i) s') (runs.set i run) := by
  simp only [mergeLoop, hpop, hrun]

theorem mergeLoop_of_nil {s s' : Q.State} {i : Nat} (hpop : Q.pop s = some ((x, i), s'))
    (hrun : runs[i]?.getD [] = []) (n : Nat) :
    Q.mergeLoop (n + 1) s runs = x :: Q.mergeLoop n s' runs := by
  simp only [mergeLoop, hpop]
  rcases hget : runs[i]? with _ | _ | ⟨y, run⟩
  · rfl
  · rfl
  · rw [hget] at hrun
    exact absurd hrun (cons_ne_nil _ _)

theorem run_cases (runs : List (List α)) (i : Nat) :
    runs[i]?.getD [] = [] ∨ ∃ y run, runs[i]? = some (y :: run) := by
  rcases runs[i]? with _ | _ | ⟨y, run⟩
  · exact .inl rfl
  · exact .inl rfl
  · exact .inr ⟨y, run, rfl⟩

/-- **One turn of the merge.** -/
theorem mergeLoop_succ {s s' : Q.State} {i : Nat} (hpop : Q.pop s = some ((x, i), s')) (n : Nat) :
    ∃ s'' runs', Q.mergeLoop (n + 1) s runs = x :: Q.mergeLoop n s'' runs' ∧
      Q.pending s'' runs' ~ Q.pending s' runs ∧
      ∀ R, Q.Lined R s runs → (∀ run ∈ runs, run.Pairwise R) →
        Q.Lined R s'' runs' ∧ ∀ run ∈ runs', run.Pairwise R := by
  have hother : ∀ {z j}, (z, j) ∈ Q.elements s → j ≠ i → (z, j) ∈ Q.elements s' := by
    intro z j hz hj
    rcases mem_cons.1 ((Q.pop_perm hpop).subset hz) with heq | hz
    · exact absurd (congrArg snd heq) hj
    · exact hz
  rcases run_cases runs i with hrun | ⟨y, run, hrun⟩
  · refine ⟨s', runs, Q.mergeLoop_of_nil hpop hrun n, .refl _,
      fun R hlined hsorted => ⟨fun j r hr z hz => ?_, hsorted⟩⟩
    obtain ⟨w, hw, hR⟩ := hlined j r hr z hz
    refine ⟨w, hother hw fun hj => ?_, hR⟩
    rw [← hj, hr, getD_some] at hrun
    exact absurd hz (hrun ▸ not_mem_nil)
  · refine ⟨Q.push (y, i) s', runs.set i run, Q.mergeLoop_of_cons hpop hrun n,
      Q.pending_push_perm hrun,
      fun R hlined hsorted => ⟨fun j r hr z hz => ?_, fun r hr => ?_⟩⟩
    · rw [List.getElem?_set] at hr
      by_cases hj : i = j
      · -- the element just pushed stands before the rest of its run
        have hsorted' := hsorted _ (mem_of_getElem? hrun)
        rw [if_pos hj] at hr
        split at hr
        · obtain rfl := some.inj hr
          exact ⟨y, (Q.elements_push _ _).symm.subset (hj ▸ mem_cons_self),
            rel_of_pairwise_cons hsorted' hz⟩
        · exact absurd hr nofun
      · rw [if_neg hj] at hr
        obtain ⟨w, hw, hR⟩ := hlined j r hr z hz
        exact ⟨w, (Q.elements_push _ _).symm.subset
          (mem_cons_of_mem _ (hother hw fun h => hj h.symm)), hR⟩
    · rcases mem_or_eq_of_mem_set hr with hr | rfl
      · exact hsorted r hr
      · exact (hsorted _ (mem_of_getElem? hrun)).of_cons

theorem pending_eq_nil {R : α → α → Prop} {s : Q.State} (hlined : Q.Lined R s runs)
    (hpop : Q.pop s = none) : Q.pending s runs = [] := by
  have hempty := Q.pop_eq_none hpop
  rw [pending, hempty, map_nil, nil_append, flatten_eq_nil_iff]
  intro run hrun
  obtain ⟨i, hi⟩ := mem_iff_getElem?.1 hrun
  refine eq_nil_iff_forall_not_mem.2 fun y hy => ?_
  obtain ⟨x, hx, -⟩ := hlined i run hi y hy
  rw [hempty] at hx
  exact absurd hx not_mem_nil

theorem mergeLoop_spec [LinearOrder κ] (key : α → κ) {s : Q.State}
    (hn : (Q.pending s runs).length ≤ n) (hlined : Q.Lined (fun a b => key a ≤ key b) s runs)
    (hsorted : ∀ run ∈ runs, run.Pairwise fun a b => key a ≤ key b) :
    Q.mergeLoop n s runs ~ Q.pending s runs ∧ (RanksOn less key (Q.pending s runs) →
        (Q.mergeLoop n s runs).Pairwise fun a b => key a ≤ key b) := by
  induction n generalizing s runs with
  | zero =>
    rw [length_eq_zero_iff.1 (Nat.le_zero.1 hn)]
    exact ⟨.nil, fun _ => .nil⟩
  | succ n ih =>
    cases hpop : Q.pop s with
    | none =>
      rw [mergeLoop, hpop, Q.pending_eq_nil hlined hpop]
      exact ⟨.refl _, fun _ => .nil⟩
    | some r =>
      obtain ⟨⟨x, i⟩, s'⟩ := r
      obtain ⟨s'', runs', hloop, hperm, hkeep⟩ := Q.mergeLoop_succ hpop n
      obtain ⟨hlined', hsorted'⟩ := hkeep _ hlined hsorted
      have hall : Q.pending s runs ~ x :: Q.pending s'' runs' :=
        (Q.pending_perm runs hpop).trans (hperm.symm.cons x)
      have hlen := hall.length_eq
      rw [length_cons] at hlen
      have hsub : Q.pending s'' runs' ⊆ Q.pending s runs := fun y hy =>
        hall.symm.subset (mem_cons_of_mem _ hy)
      obtain ⟨hrest, hrestSorted⟩ := ih (by omega) hlined' hsorted'
      rw [hloop]
      refine ⟨(hrest.cons x).trans hall.symm, fun hrank =>
        .cons (fun y hy => ?_) (hrestSorted (hrank.mono hsub))⟩
      -- the element taken is first among the heads, and each head is first in its run
      have hqueue : ∀ z ∈ Q.elements s, key x ≤ key z.1 := by
        refine Q.pop_le (fun z => key z.1) (fun a ha b hb => ?_) hpop
        have hin : ∀ z ∈ Q.elements s, z.1 ∈ Q.pending s runs := fun z hz =>
          mem_append_left _ (mem_map_of_mem hz)
        exact hrank a.1 (hin a ha) b.1 (hin b hb)
      rcases mem_append.1 (hsub (hrest.subset hy)) with hy | hy
      · obtain ⟨z, hz, rfl⟩ := mem_map.1 hy
        exact hqueue z hz
      · obtain ⟨run, hrun, hy⟩ := mem_flatten.1 hy
        obtain ⟨j, hj⟩ := mem_iff_getElem?.1 hrun
        obtain ⟨z, hz, hzy⟩ := hlined j run hj y hy
        exact (hqueue (z, j) hz).trans hzy

theorem sublist_mergeLoop {s : Q.State} (runs : List (List α)) {i : Nat}
    (hn : (Q.pending s runs).length ≤ n) (hnodup : ((Q.elements s).map snd).Nodup)
    (hx : (x, i) ∈ Q.elements s) : (x :: runs[i]?.getD []).Sublist (Q.mergeLoop n s runs) := by
  induction n generalizing s runs x with
  | zero =>
    have hnil := length_eq_zero_iff.1 (Nat.le_zero.1 hn)
    rw [map_eq_nil_iff.1 (append_eq_nil_iff.1 hnil).1] at hx
    exact absurd hx not_mem_nil
  | succ n ih =>
    cases hpop : Q.pop s with
    | none =>
      rw [Q.pop_eq_none hpop] at hx
      exact absurd hx not_mem_nil
    | some r =>
      obtain ⟨⟨t, j⟩, s'⟩ := r
      have hnodup' : (j :: (Q.elements s').map snd).Nodup :=
        (((Q.pop_perm hpop).map snd).nodup_iff).1 hnodup
      have hlen := (Q.pending_perm runs hpop).length_eq
      rw [length_cons] at hlen
      rcases run_cases runs j with hrun | ⟨y, run, hrun⟩
      · rw [Q.mergeLoop_of_nil hpop hrun n]
        rcases mem_cons.1 ((Q.pop_perm hpop).subset hx) with heq | hx'
        · cases heq
          rw [hrun]
          exact (nil_sublist _).cons_cons x
        · exact (ih runs (by omega) hnodup'.of_cons hx').cons t
      · have hpush := (Q.elements_push (y, j) s').map snd
        have hlen' := (Q.pending_push_perm (s := s') hrun).length_eq
        rw [Q.mergeLoop_of_cons hpop hrun n]
        rcases mem_cons.1 ((Q.pop_perm hpop).subset hx) with heq | hx'
        · cases heq
          have hset : (runs.set i run)[i]?.getD [] = run := by
            rw [List.getElem?_set_self (List.getElem?_eq_some_iff.1 hrun).1]
            rfl
          have hrest := ih (runs.set i run) (by omega) (hpush.nodup_iff.2 hnodup')
            ((Q.elements_push (y, i) s').symm.subset mem_cons_self)
          rw [hset] at hrest
          rw [hrun]
          exact hrest.cons_cons x
        · have hij : j ≠ i := fun hij =>
            (nodup_cons.1 hnodup').1 (hij ▸ mem_map_of_mem hx')
          have hrest := ih (runs.set j run) (by omega) (hpush.nodup_iff.2 hnodup')
            ((Q.elements_push (y, j) s').symm.subset (mem_cons_of_mem _ hx'))
          rw [List.getElem?_set_ne hij] at hrest
          exact hrest.cons t

/-! ## The merge of a list of runs -/

theorem mem_heads {k i : Nat} :
    (x, i) ∈ heads k runs ↔ ∃ j run, i = k + j ∧ runs[j]? = some (x :: run) := by
  induction runs generalizing k with
  | nil => exact ⟨nofun, nofun⟩
  | cons r runs ih =>
    have hshift : (∃ j run, i = k + 1 + j ∧ runs[j]? = some (x :: run)) ↔
        ∃ j run, i = k + (j + 1) ∧ (r :: runs)[j + 1]? = some (x :: run) := by
      simp only [List.getElem?_cons_succ, Nat.add_right_comm k 1, Nat.add_assoc]
    have hsplit : (∃ j run, i = k + j ∧ (r :: runs)[j]? = some (x :: run)) ↔
        (i = k ∧ ∃ run, r = x :: run) ∨
          ∃ j run, i = k + (j + 1) ∧ (r :: runs)[j + 1]? = some (x :: run) := by
      constructor
      · rintro ⟨_ | j, run, hi, hrun⟩
        · exact .inl ⟨hi, run, some.inj hrun⟩
        · exact .inr ⟨j, run, hi, hrun⟩
      · rintro (⟨rfl, run, rfl⟩ | ⟨j, run, hi, hrun⟩)
        · exact ⟨0, run, rfl, rfl⟩
        · exact ⟨j + 1, run, hi, hrun⟩
    rw [hsplit, ← hshift, ← ih]
    cases r with
    | nil => simp [heads]
    | cons y run => simp [heads, and_comm, eq_comm]

theorem heads_perm (k : Nat) (runs : List (List α)) :
    (heads k runs).map fst ++ (runs.map tail).flatten ~ runs.flatten := by
  induction runs generalizing k with
  | nil => exact .refl _
  | cons r runs ih =>
    cases r with
    | nil => exact ih (k + 1)
    | cons x run =>
      refine .cons x (.trans ?_ ((ih (k + 1)).append_left run))
      change (heads (k + 1) runs).map fst ++ (run ++ (runs.map tail).flatten) ~ _
      rw [← append_assoc, ← append_assoc]
      exact perm_append_comm.append_right _

theorem nodup_heads (k : Nat) (runs : List (List α)) : ((heads k runs).map snd).Nodup := by
  induction runs generalizing k with
  | nil => exact nodup_nil
  | cons r runs ih =>
    cases r with
    | nil => exact ih (k + 1)
    | cons x run =>
      refine nodup_cons.2 ⟨fun hk => ?_, ih (k + 1)⟩
      obtain ⟨⟨y, i⟩, hy, hi⟩ := mem_map.1 hk
      obtain ⟨j, _, hj, -⟩ := mem_heads.1 hy
      omega

theorem elements_heads (runs : List (List α)) :
    Q.elements (Q.pushAll (heads 0 runs) Q.empty) ~ heads 0 runs := by
  have h := Q.elements_pushAll (heads 0 runs) Q.empty
  rwa [Q.elements_empty, append_nil] at h

theorem pending_heads (runs : List (List α)) :
    Q.pending (Q.pushAll (heads 0 runs) Q.empty) (runs.map tail) ~ runs.flatten :=
  (((Q.elements_heads runs).map fst).append_right _).trans (heads_perm 0 runs)

theorem lined_heads {R : α → α → Prop} (hsorted : ∀ run ∈ runs, run.Pairwise R) :
    Q.Lined R (Q.pushAll (heads 0 runs) Q.empty) (runs.map tail) := by
  intro i run hrun y hy
  rw [List.getElem?_map, map_eq_some_iff] at hrun
  obtain ⟨run, hrun, rfl⟩ := hrun
  cases run with
  | nil => exact absurd hy not_mem_nil
  | cons x run =>
    refine ⟨x, (Q.elements_heads runs).symm.subset (mem_heads.2 ⟨i, run, by omega, hrun⟩), ?_⟩
    exact rel_of_pairwise_cons (hsorted _ (mem_of_getElem? hrun)) hy

/-- **Merging keeps the elements**, and sorted runs give a sorted list. -/
theorem mergeRuns_spec [LinearOrder κ] (key : α → κ)
    (hsorted : ∀ run ∈ runs, run.Pairwise fun a b => key a ≤ key b) :
    Q.mergeRuns runs ~ runs.flatten ∧ (RanksOn less key runs.flatten →
      (Q.mergeRuns runs).Pairwise fun a b => key a ≤ key b) := by
  have hpending := Q.pending_heads runs
  obtain ⟨hperm, h⟩ := Q.mergeLoop_spec key hpending.length_eq.le (Q.lined_heads hsorted) (by
    intro run hrun
    obtain ⟨run, hmem, rfl⟩ := mem_map.1 hrun
    exact (hsorted run hmem).tail)
  exact ⟨hperm.trans hpending, fun hrank => h (hrank.mono hpending.subset)⟩

theorem mergeRuns_perm (runs : List (List α)) : Q.mergeRuns runs ~ runs.flatten :=
  (Q.mergeRuns_spec (fun _ => ()) fun _ _ => pairwise_of_forall fun _ _ => le_rfl).1

/-- **Merging keeps the order of every run.** -/
theorem sublist_mergeRuns (hrun : run ∈ runs) : run.Sublist (Q.mergeRuns runs) := by
  obtain ⟨i, hi⟩ := mem_iff_getElem?.1 hrun
  cases run with
  | nil => exact nil_sublist _
  | cons x run =>
    have hx : (x, i) ∈ Q.elements (Q.pushAll (heads 0 runs) Q.empty) :=
      (Q.elements_heads runs).symm.subset (mem_heads.2 ⟨i, run, by omega, hi⟩)
    have h := Q.sublist_mergeLoop (runs.map tail) (Q.pending_heads runs).length_eq.le
      ((((Q.elements_heads runs).map snd).nodup_iff).2 (nodup_heads 0 runs)) hx
    rw [List.getElem?_map, hi] at h
    exact h

end PriorityQueue

/-! ## A queue -/

def extractFirst (p : α → Bool) : List α → Option (α × List α)
  | [] => none
  | x :: l => if p x then some (x, l) else (extractFirst p l).map fun r => (r.1, x :: r.2)

theorem extractFirst_eq_some {p : α → Bool} {l l' : List α} (h : extractFirst p l = some (x, l')) :
    l ~ x :: l' ∧ p x = true := by
  induction l generalizing l' with
  | nil => exact absurd h nofun
  | cons y l ih =>
    rw [extractFirst] at h
    split at h
    · rename_i hy
      cases h
      exact ⟨.refl _, hy⟩
    · obtain ⟨⟨z, r⟩, hr, heq⟩ := map_eq_some_iff.1 h
      cases heq
      obtain ⟨hperm, hp⟩ := ih hr
      exact ⟨(hperm.cons y).trans (.swap _ _ _), hp⟩

theorem extractFirst_eq_none {p : α → Bool} {l : List α} (h : extractFirst p l = none) :
    ∀ x ∈ l, p x = false := by
  induction l with
  | nil => exact nofun
  | cons y l ih =>
    rw [extractFirst] at h
    split at h
    · exact absurd h nofun
    · rename_i hy
      exact forall_mem_cons.2 ⟨Bool.eq_false_iff.2 hy, ih (map_eq_none_iff.1 h)⟩

namespace PriorityQueue

def isTop (less : α → α → Bool) (l : List α) (x : α) : Bool := l.all fun y => !less x y || less y x

theorem isTop_iff {less : α → α → Bool} {l : List α} :
    isTop less l x = true ↔ NoneAbove less l x := by
  simp [isTop, NoneAbove, or_iff_not_imp_left]

/-- The queue that looks through all its elements for a maximal one, and takes the first element if
there is none. -/
def selection (less : α → α → Bool) : PriorityQueue less where
  State := List α
  empty := []
  push := List.cons
  pop l := (extractFirst (isTop less l) l).or (extractFirst (fun _ => true) l)
  elements := id
  elements_empty := rfl
  elements_push _ _ := .refl _
  pop_eq_none {l} h := by
    have hnone := extractFirst_eq_none (or_eq_none_iff.1 h).2
    exact eq_nil_iff_forall_not_mem.2 fun x hx => absurd (hnone x hx) nofun
  pop_perm {l x l'} h := by
    rcases or_eq_some_iff.1 h with h | ⟨-, h⟩
    · exact (extractFirst_eq_some h).1
    · exact (extractFirst_eq_some h).1
  pop_noneAbove {l x l'} h hex := by
    rcases or_eq_some_iff.1 h with h | ⟨hnone, -⟩
    · exact isTop_iff.1 (extractFirst_eq_some h).2
    · obtain ⟨y, hy, htop⟩ := hex
      have hfalse : isTop less l y = false := extractFirst_eq_none hnone y hy
      exact absurd (hfalse.symm.trans (isTop_iff.2 htop)) Bool.false_ne_true

end PriorityQueue

end JasmineGraph
