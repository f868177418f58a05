import Mathlib

/-!
# Computations that may stop with a fault

`Meets excused x c P` describes a computation `x : Except ε α` whose faults are of two kinds. Some are
excused: nothing is said about a run that stops with one. Without such a fault the computation
completes exactly if the condition `c` holds, and its result then has the property `P`.
-/

namespace JasmineGraph.Outcome

variable {ε α β : Type} {excused : ε → Prop} {x : Except ε α} {c d : Prop} {P Q : α → Prop}

/-- Unless `x` stops with an excused fault, it completes exactly if `c` holds, with a result that has
the property `P`. -/
def Meets (excused : ε → Prop) (x : Except ε α) (c : Prop) (P : α → Prop) : Prop :=
  match x with
  | .ok a => c ∧ P a
  | .error e => excused e ∨ ¬c

theorem Meets.ok {a : α} (h : P a) : Meets excused (.ok a) True P := ⟨trivial, h⟩

theorem Meets.congr (h : Meets excused x c P) (hc : c ↔ d) (hP : ∀ a, P a → Q a) :
    Meets excused x d Q := by
  cases x with
  | ok a => exact ⟨hc.1 h.1, hP a h.2⟩
  | error e => exact h.imp_right fun hnot hd => hnot (hc.2 hd)

theorem Meets.bind {f : α → Except ε β} {Q : β → Prop} (hx : Meets excused x c P)
    (hf : ∀ a, P a → Meets excused (f a) d Q) : Meets excused (x >>= f) (c ∧ d) Q := by
  cases x with
  | ok a => exact (hf a hx.2).congr (and_iff_right hx.1).symm fun _ h => h
  | error e => exact hx.imp_right fun hnot h => hnot h.1

end JasmineGraph.Outcome
