import JasmineGraph.Schedule
import JasmineGraph.Cypher.Json

/-!
# The Cartesian product of a worker

`OperatorExecutor::CartesianProduct` reads its left input row by row. For every left row it starts
the right plan on all partitions, whose rows and end markers arrive in one buffer, and merges the
left row with each row from there. The loop over this buffer counts the end markers. After the last
one it emits an end marker, joins the producers, and goes on reading: it has no way out.

* A step is a message that the operator takes: the next one of the left input, or the next one of
  some partition's right stream. A schedule chooses the order in which the partitions deliver.
* The operator waits where no step is enabled.
-/

namespace JasmineGraph.Cypher

open JasmineGraph.Schedule
open scoped List

def mergeRows (leftData rightData : JsonValue) : JsonValue :=
  match rightData with
  | .object members => members.foldl (fun data m => data.set m.1 m.2) leftData
  | _ => leftData

namespace CartesianProduct

/-- Where the operator is: at the left input, in the loop of a left row, or at its end. -/
inductive Phase
  | outer
  | inner (leftRow : JsonValue) (count : Nat)
  | finished

/-- The left rows still to be read, the messages that the partitions still have for the current left
row, and what was emitted. -/
structure State (n : Nat) where
  left : List JsonValue
  phase : Phase
  right : Fin n → List (Message JsonValue)
  out : List (Message JsonValue)

/-- The message that is taken: of the left input, or of a partition. -/
inductive Label (n : Nat)
  | left
  | right (i : Fin n)

section Operator

variable {n : Nat} (right : Fin n → List JsonValue)

def step : Label n → State n → Option (State n)
  | .left, s =>
    match s.phase, s.left with
    | .outer, [] => some { s with phase := .finished, out := s.out ++ [.stop] }
    | .outer, row :: rows =>
      some { s with left := rows, phase := .inner row 0, right := fun i => stream (right i) }
    | _, _ => none
  | .right i, s =>
    match s.phase, s.right i with
    | .inner leftRow _, .row r :: rest =>
      some { s with
        right := Function.update s.right i rest
        out := s.out ++ [.row (mergeRows leftRow r)] }
    | .inner leftRow count, .stop :: rest =>
      -- the loop goes on after the last end marker
      some { s with
        phase := .inner leftRow (count + 1)
        right := Function.update s.right i rest
        out := if count + 1 = n then s.out ++ [.stop] else s.out }
    | _, _ => none

def start (n : Nat) (left : List JsonValue) : State n := ⟨left, .outer, fun _ => [], []⟩

def products (left : List JsonValue) : List JsonValue :=
  left.flatMap fun l => (List.finRange n).flatMap fun i => (right i).map (mergeRows l)

/-- What is asked of the operator: there is no run without an end, and where a run ends, the operator
has finished with all rows of the product and then one end marker. -/
def FullProduct (left : List JsonValue) : Prop :=
  (∃ bound, ∀ ls s, run (step right) ls (start n left) = some s → ls.length ≤ bound) ∧
  ∀ ls s, run (step right) ls (start n left) = some s → (∀ l, step right l s = none) →
    s.phase = .finished ∧ ∃ rows, s.out = stream rows ∧ rows ~ products right left

variable {right}

theorem step_cases {l : Label n} {s t : State n} (h : step right l s = some t) :
    (s.phase = .outer ∧ s.left = [] ∧ t.phase = .finished) ∨
    (∃ row, s.phase = .outer ∧ s.left = row :: t.left ∧ t.phase = .inner row 0) ∨
    ∃ row count count', s.phase = .inner row count ∧ t.phase = .inner row count' ∧
      t.left = s.left := by
  unfold step at h
  split at h
  · split at h
    · rename_i hphase hleft
      cases h
      exact .inl ⟨hphase, hleft, rfl⟩
    · rename_i row rows hphase hleft
      cases h
      exact .inr (.inl ⟨row, hphase, hleft, rfl⟩)
    · exact absurd h nofun
  · split at h
    · rename_i leftRow count r rest hphase hright
      cases h
      exact .inr (.inr ⟨leftRow, count, count, hphase, hphase, rfl⟩)
    · rename_i leftRow count rest hphase hright
      cases h
      exact .inr (.inr ⟨leftRow, count, count + 1, hphase, rfl, rfl⟩)
    · exact absurd h nofun

def Waits (row : JsonValue) (rows : List JsonValue) (s : State n) : Prop :=
  (s.phase = .outer ∧ s.left = row :: rows) ∨ ∃ count, s.phase = .inner row count ∧ s.left = rows

variable {row : JsonValue} {rows : List JsonValue} {s : State n}

theorem Waits.step {l : Label n} {s t : State n} (h : Waits row rows s)
    (hstep : step right l s = some t) : Waits row rows t := by
  obtain ⟨hphase, hnil, -⟩ | ⟨row', hphase, hcons, hinner⟩ |
    ⟨row', count, count', hphase, hinner, hleft⟩ := step_cases hstep
  · rcases h with ⟨-, hleft⟩ | ⟨count, hinner, -⟩
    · exact absurd (hnil.symm.trans hleft) nofun
    · exact absurd (hphase.symm.trans hinner) nofun
  · rcases h with ⟨-, hleft⟩ | ⟨count, hinner', -⟩
    · obtain ⟨rfl, hrows⟩ := List.cons.inj (hcons.symm.trans hleft)
      exact .inr ⟨0, hinner, hrows⟩
    · exact absurd (hphase.symm.trans hinner') nofun
  · rcases h with ⟨houter, -⟩ | ⟨count₀, hinner', hrows⟩
    · exact absurd (houter.symm.trans hphase) nofun
    · obtain ⟨rfl, -⟩ := Phase.inner.inj (hinner'.symm.trans hphase)
      exact .inr ⟨count', hinner, hleft.trans hrows⟩

/-- **After the first left row the operator reads right messages only**: the other left rows stay
where they are, and the operator does not finish. -/
theorem waits_for_right {ls : List (Label n)}
    (hrun : run (step right) ls (start n (row :: rows)) = some s) : Waits row rows s :=
  run_invariant (fun _ _ _ hs hstep => Waits.step hs hstep) hrun (.inl ⟨rfl, rfl⟩)

theorem Waits.not_finished (h : Waits row rows s) : s.phase ≠ .finished := by
  intro hfinished
  rcases h with ⟨houter, -⟩ | ⟨count, hinner, -⟩
  · exact absurd (houter.symm.trans hfinished) nofun
  · exact absurd (hinner.symm.trans hfinished) nofun

/-- Without left rows the operator takes one step. -/
theorem run_start_nil {ls : List (Label n)} (hrun : run (step right) ls (start n []) = some s) :
    (ls = [] ∧ s = start n []) ∨ (ls = [.left] ∧ s = ⟨[], .finished, fun _ => [], [.stop]⟩) := by
  cases ls with
  | nil => exact .inl ⟨rfl, (Option.some.inj hrun).symm⟩
  | cons l ls =>
    obtain ⟨t, hstep, hrest⟩ := run_cons_eq_some.1 hrun
    cases l with
    | right i => exact absurd hstep nofun
    | left =>
      obtain rfl : _ = t := Option.some.inj hstep
      cases ls with
      | nil => exact .inr ⟨rfl, (Option.some.inj hrest).symm⟩
      | cons l ls =>
        obtain ⟨u, hstep', -⟩ := run_cons_eq_some.1 hrest
        cases l <;> exact absurd hstep' nofun

end Operator

/-- **When the Cartesian product terminates with the full product**: exactly if the left input has
no row. -/
theorem cartesianProduct_fullProduct_iff {n : Nat} (right : Fin n → List JsonValue)
    (left : List JsonValue) : FullProduct right left ↔ left = [] := by
  constructor
  · rintro ⟨⟨bound, hbound⟩, hend⟩
    cases left with
    | nil => rfl
    | cons row rows =>
      -- the operator cannot finish, so it would have to go on for ever
      have hlive : ∀ ls s, run (step right) ls (start n (row :: rows)) = some s →
          ∃ l t, step right l s = some t := by
        intro ls s hrun
        by_contra hstuck
        have hnone : ∀ l, step right l s = none := fun l =>
          Option.eq_none_iff_forall_ne_some.2 fun t ht => hstuck ⟨l, t, ht⟩
        exact (waits_for_right hrun).not_finished (hend ls s hrun hnone).1
      obtain ⟨ls, s, hlen, hrun⟩ := exists_run_of_length hlive (bound + 1)
      have hle := hbound ls s hrun
      omega
  · rintro rfl
    refine ⟨⟨1, fun ls s hrun => ?_⟩, fun ls s hrun hstuck => ?_⟩
    · obtain ⟨rfl, -⟩ | ⟨rfl, -⟩ := run_start_nil hrun
      · exact Nat.zero_le 1
      · exact Nat.le_refl 1
    · obtain ⟨-, rfl⟩ | ⟨-, rfl⟩ := run_start_nil hrun
      · exact absurd (hstuck .left) nofun
      · exact ⟨rfl, [], rfl, .nil⟩

/-- One left row and one partition without right rows: after the end marker of the partition the
operator has emitted an end marker, and waits. -/
theorem cartesianProduct_waits : ¬FullProduct (fun _ : Fin 1 => []) [.object []] := by
  rintro ⟨-, hend⟩
  have hstuck : ∀ l, step (fun _ : Fin 1 => []) l
      ⟨[], .inner (.object []) 1, fun _ => [], [.stop]⟩ = none := by
    intro l
    cases l <;> rfl
  have hrun : run (step fun _ : Fin 1 => []) [.left, .right 0] (start 1 [.object []]) =
      some ⟨[], .inner (.object []) 1, fun _ => [], [.stop]⟩ := by
    have hright : Function.update (fun _ : Fin 1 => stream ([] : List JsonValue)) 0 [] =
        fun _ => [] := by
      funext i
      rw [Subsingleton.elim i 0, Function.update_self]
    rw [← hright]
    rfl
  exact absurd (hend _ _ hrun hstuck).1 nofun

end CartesianProduct

end JasmineGraph.Cypher
