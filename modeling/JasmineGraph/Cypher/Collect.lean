import JasmineGraph.Schedule
import JasmineGraph.Cypher.Json

/-!
# The collection loop of the master

`CypherQueryExecutor::execute` has a buffer for every worker. For a query without aggregation it
polls the buffers in turn, writes every row it finds to the client and counts the end markers, until
it has seen as many as there are partitions.

A step takes a message from the buffer of a worker; a poll that finds a buffer empty changes nothing.
What the client gets depends on when the workers deliver, so it is a relation, `Collects`.
-/

namespace JasmineGraph.Cypher

open JasmineGraph.Schedule Option Finset
open scoped List

namespace Collect

/-- The rows that each worker still sends before its end marker (`none` after it), the end markers
seen, and the rows written. -/
structure State (n : Nat) (ρ : Type) where
  streams : Fin n → Option (List ρ)
  closeFlag : Nat
  out : List ρ

variable {n : Nat} {ρ : Type}

def step (i : Fin n) (s : State n ρ) : Option (State n ρ) :=
  match s.streams i with
  | none => none
  | some [] =>
    some { s with streams := Function.update s.streams i none, closeFlag := s.closeFlag + 1 }
  | some (row :: rows) =>
    some { s with streams := Function.update s.streams i (some rows), out := s.out ++ [row] }

def start (rows : Fin n → List ρ) : State n ρ := ⟨fun i => some (rows i), 0, []⟩

def pending (s : State n ρ) : Multiset ρ := ∑ i, ((s.streams i).getD [] : Multiset ρ)

def closed (s : State n ρ) : Nat := (univ.filter fun i => s.streams i = none).card

/-- What a step keeps: nothing is lost or written twice, and the end markers are counted. -/
structure Kept (all : Multiset ρ) (s : State n ρ) : Prop where
  rows : (s.out : Multiset ρ) + pending s = all
  count : s.closeFlag = closed s

variable {all : Multiset ρ} {s : State n ρ}

theorem Kept.step {i : Fin n} {s t : State n ρ} (h : Kept all s) (hstep : step i s = some t) :
    Kept all t := by
  have hsum := sum_update (fun _ (a : Option (List ρ)) => (a.getD [] : Multiset ρ)) s.streams i
  have hcard := card_update (fun _ (a : Option (List ρ)) => a = none) s.streams i
  unfold Collect.step at hstep
  split at hstep
  · exact absurd hstep nofun
  · rename_i hnil
    cases hstep
    have hsum := hsum none
    have hcard := hcard none
    rw [hnil] at hsum hcard
    refine ⟨?_, ?_⟩
    · rw [← h.rows, pending, pending]
      exact congrArg (_ + ·) (by simpa using hsum)
    · simpa [closed, h.count] using hcard.symm
  · rename_i row rows hcons
    cases hstep
    have hcard := hcard (some rows)
    rw [hcons] at hsum hcard
    refine ⟨?_, ?_⟩
    · have hcancel : ({row} : Multiset ρ) + ∑ j, ((Function.update s.streams i (some rows) j).getD []
          : Multiset ρ) = pending s := by
        refine add_right_cancel (b := (rows : Multiset ρ)) ?_
        rw [pending, ← getD_some (a := rows), ← hsum, getD_some,
          getD_some, ← Multiset.cons_coe, ← Multiset.singleton_add, add_assoc,
          add_left_comm]
      rw [← h.rows, ← hcancel, ← add_assoc]
      exact congrArg (· + _) (Multiset.coe_add s.out [row]).symm
    · simpa [closed, h.count] using hcard.symm

theorem kept_start (rows : Fin n → List ρ) : Kept (∑ i, (rows i : Multiset ρ)) (start rows) where
  rows := zero_add _
  count := by simp [start, closed]

theorem Kept.finished (h : Kept all s) (hflag : s.closeFlag = n) : (s.out : Multiset ρ) = all := by
  have hcard : closed s = Fintype.card (Fin n) := by
    rw [← h.count, hflag, Fintype.card_fin]
  have hnone : ∀ i, s.streams i = none := by
    intro i
    have hmem : i ∈ univ.filter fun i => s.streams i = none := by
      rw [(card_eq_iff_eq_univ _).1 hcard]
      exact mem_univ i
    exact (mem_filter.1 hmem).2
  have hpending : pending s = 0 := sum_eq_zero fun i _ => by
    rw [hnone i]
    rfl
  rw [← h.rows, hpending, add_zero]

def remaining (s : State n ρ) : Nat := ∑ i, (s.streams i).elim 0 (·.length + 1)

theorem exists_step {i : Fin n} (hi : s.streams i ≠ none) :
    ∃ t, step i s = some t ∧ remaining t < remaining s := by
  have hsum := sum_update (fun _ (a : Option (List ρ)) => a.elim 0 (·.length + 1)) s.streams i
  unfold step
  split
  · rename_i hnone
    exact absurd hnone hi
  · rename_i hnil
    refine ⟨_, rfl, ?_⟩
    have hsum := hsum none
    rw [hnil] at hsum
    simp only [remaining, elim_some, elim_none] at hsum ⊢
    omega
  · rename_i row rows hcons
    refine ⟨_, rfl, ?_⟩
    have hsum := hsum (some rows)
    rw [hcons] at hsum
    simp only [remaining, elim_some, List.length_cons] at hsum ⊢
    omega

theorem exists_run_finished (h : Kept all s) :
    ∃ ls t, run step ls s = some t ∧ t.closeFlag = n := by
  induction hm : remaining s using Nat.strong_induction_on generalizing s with
  | _ m ih =>
    by_cases hopen : ∃ i, s.streams i ≠ none
    · obtain ⟨i, hi⟩ := hopen
      obtain ⟨t, hstep, hlt⟩ := exists_step hi
      obtain ⟨ls, u, hrun, hflag⟩ := ih _ (hm ▸ hlt) (h.step hstep) rfl
      exact ⟨i :: ls, u, run_cons_eq_some.2 ⟨t, hstep, hrun⟩, hflag⟩
    · refine ⟨[], s, rfl, ?_⟩
      have hall : (univ.filter fun i => s.streams i = none) = univ :=
        filter_true_of_mem fun i _ => not_not.1 fun hi => hopen ⟨i, hi⟩
      rw [h.count, closed, hall, card_univ, Fintype.card_fin]

end Collect

/-- What the client may get from workers that send these rows. -/
def Collects {n : Nat} {ρ : Type} (rows : Fin n → List ρ) (out : List ρ) : Prop :=
  ∃ ls s, run Collect.step ls (Collect.start rows) = some s ∧ s.closeFlag = n ∧ s.out = out

open Collect in
/-- **The client gets the rows of all workers**, each as often as it was sent. -/
theorem Collects.perm {n : Nat} {ρ : Type} {rows : Fin n → List ρ} {out : List ρ}
    (h : Collects rows out) : out ~ (List.finRange n).flatMap rows := by
  obtain ⟨ls, s, hrun, hflag, rfl⟩ := h
  have hkept : Kept _ s :=
    run_invariant (fun _ _ _ hs hstep => Kept.step hs hstep) hrun (kept_start rows)
  have hflat : ∀ is : List (Fin n),
      (is.map fun i => (rows i : Multiset ρ)).sum = (is.flatMap rows : Multiset ρ) := by
    intro is
    induction is with
    | nil => rfl
    | cons i is ih =>
      rw [List.map_cons, List.sum_cons, ih, List.flatMap_cons, Multiset.coe_add]
  rw [← Multiset.coe_eq_coe, hkept.finished hflag, ← hflat, Fin.sum_univ_def]

open Collect in
/-- The loop ends after some schedule. -/
theorem exists_collects {n : Nat} {ρ : Type} (rows : Fin n → List ρ) : ∃ out, Collects rows out := by
  obtain ⟨ls, s, hrun, hflag⟩ := exists_run_finished (kept_start rows)
  exact ⟨s.out, ls, s, hrun, hflag, rfl⟩

end JasmineGraph.Cypher
