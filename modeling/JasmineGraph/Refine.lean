import Mathlib

/-!
# Rules for stateful programs

A program is a `StateT S Option`: it reads and changes a state, and `none` means that it has no
defined outcome (it throws, runs into undefined behaviour or does not end).

* `Runs P m r Q`: from every state satisfying `P`, `m` returns `r` in a state satisfying `Q`. It is
  total: the run has an outcome.
* `Agrees R m`: from states related by `R`, `m` returns the same.

With `P` and `Q` saying which abstract state describes the concrete one, `Runs` is a step of a
refinement. The rules compose along `bind`, so a function built from others gets its rule from
theirs.
-/

namespace JasmineGraph.Refine

variable {S α β : Type} {P Q Q' : S → Prop} {m : StateT S Option α}
  {f : α → StateT S Option β} {r : α} {q : β}

def Runs (P : S → Prop) (m : StateT S Option α) (r : α) (Q : S → Prop) : Prop :=
  ∀ s, P s → ∃ s', m s = some (r, s') ∧ Q s'

theorem Runs.pure : Runs P (Pure.pure r) r P := fun s hs => ⟨s, rfl, hs⟩

theorem Runs.bind (h : Runs P m r Q) (h' : Runs Q (f r) q Q') : Runs P (m >>= f) q Q' := by
  intro s hs
  obtain ⟨s', hm, hs'⟩ := h s hs
  obtain ⟨s'', hf, hs''⟩ := h' s' hs'
  refine ⟨s'', ?_, hs''⟩
  change (m s).bind (fun x => f x.1 x.2) = _
  rw [hm]
  exact hf

theorem Runs.run'_eq (h : Runs P m r Q) {s : S} (hs : P s) : m.run' s = some r := by
  obtain ⟨s', hm, -⟩ := h s hs
  change (m s).map Prod.fst = some r
  rw [hm]
  rfl

/-! ## Runs from related states -/

variable {R : S → S → Prop}

/-- From states related by `R`, `m` returns the same or fails in both, and the end states are
related. -/
def Agrees (R : S → S → Prop) (m : StateT S Option α) : Prop :=
  ∀ s s', R s s' → Option.Rel (fun x y => x.1 = y.1 ∧ R x.2 y.2) (m s) (m s')

theorem Agrees.pure : Agrees R (Pure.pure r : StateT S Option α) :=
  fun _ _ hs => .some ⟨rfl, hs⟩

theorem Agrees.bind (h : Agrees R m) (h' : ∀ a, Agrees R (f a)) : Agrees R (m >>= f) := by
  intro s s' hs
  have hm := h s s' hs
  change Option.Rel _ ((m s).bind fun x => f x.1 x.2) ((m s').bind fun x => f x.1 x.2)
  cases hx : m s with
  | none =>
    rw [hx] at hm
    cases hy : m s' with
    | none => exact .none
    | some y =>
      rw [hy] at hm
      cases hm
  | some x =>
    rw [hx] at hm
    cases hy : m s' with
    | none =>
      rw [hy] at hm
      cases hm
    | some y =>
      rw [hy] at hm
      obtain ⟨a, t⟩ := x
      obtain ⟨a', t'⟩ := y
      cases hm with
      | some hr =>
        obtain ⟨rfl, ht⟩ := hr
        exact h' a t t' ht

theorem Agrees.run'_eq (h : Agrees R m) {s s' : S} (hs : R s s') : m.run' s = m.run' s' := by
  have hm := h s s' hs
  change (m s).map Prod.fst = (m s').map Prod.fst
  revert hm
  generalize m s = x
  generalize m s' = y
  intro hm
  cases hm with
  | none => rfl
  | some hr => exact congrArg some hr.1

end JasmineGraph.Refine
