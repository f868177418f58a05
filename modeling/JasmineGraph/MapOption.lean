import Mathlib

/-!
# A partial function on every element of a list

`l.mapM f` in `Option` is a loop that stops at the first element on which `f` fails. `mapM_eq_some_iff`
says that it returns the list of all values, and only if there is a value for every element.
-/

namespace JasmineGraph

variable {α β : Type} {f : α → Option β} {l : List α}

theorem mapM_eq_some_iff {bs : List β} : l.mapM f = some bs ↔ l.map f = bs.map some := by
  induction l generalizing bs with
  | nil =>
    rw [List.map_nil, eq_comm (a := []), List.map_eq_nil_iff]
    exact ⟨fun h => (Option.some.inj h).symm, fun h => congrArg some h.symm⟩
  | cons a l ih =>
    rw [List.mapM_cons, List.map_cons]
    cases hb : f a with
    | none => cases bs <;> simp
    | some b =>
      cases bs with
      | nil => cases l.mapM f <;> simp
      | cons c cs =>
        rw [List.map_cons, List.cons.injEq, ← ih]
        cases l.mapM f <;> simp

theorem mapM_cons_eq_some {a : α} {bs : List β} : (a :: l).mapM f = some bs ↔
    ∃ b bs', f a = some b ∧ l.mapM f = some bs' ∧ b :: bs' = bs := by
  simp only [List.mapM_cons, Option.bind_eq_bind, Option.bind_eq_some_iff, Option.pure_def,
    Option.some.injEq]
  exact ⟨fun ⟨b, hb, bs', hbs, h⟩ => ⟨b, bs', hb, hbs, h⟩, fun ⟨b, bs', hb, hbs, h⟩ =>
    ⟨b, hb, bs', hbs, h⟩⟩

theorem isSome_mapM : (l.mapM f).isSome ↔ ∀ a ∈ l, (f a).isSome := by
  induction l with
  | nil => simp
  | cons a l ih =>
    rw [List.mapM_cons, List.forall_mem_cons, ← ih]
    cases f a with
    | none => simp
    | some b => cases l.mapM f <;> simp

/-- Values that are read back one by one are read back together. -/
theorem mapM_map_eq_some {g : β → α} {bs : List β} (h : ∀ b ∈ bs, f (g b) = some b) :
    (bs.map g).mapM f = some bs := by
  rw [mapM_eq_some_iff, List.map_map]
  exact List.map_congr_left h

theorem foldlM_invariant {P : β → Prop} {step : β → α → Option β}
    (hstep : ∀ b a b', P b → step b a = some b' → P b') {b b' : β} (hb : P b)
    (h : l.foldlM step b = some b') : P b' := by
  induction l generalizing b with
  | nil => exact Option.some.inj h ▸ hb
  | cons a l ih =>
    rw [List.foldlM_cons] at h
    obtain ⟨c, hc, hl⟩ := Option.bind_eq_some_iff.1 h
    exact ih (hstep b a c hb hc) hl

end JasmineGraph
