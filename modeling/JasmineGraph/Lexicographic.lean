import Mathlib

/-!
# Lexicographic orders by keys

Records are compared by a list of keys, each with a direction: by the first key, and by the rest of
the list where that key ties. A record is given by its values at the keys.
-/

namespace JasmineGraph.Lexicographic

variable {K κ : Type} [LinearOrder κ]

/-- One value stands strictly before another: below it in ascending direction, above it in
descending direction. -/
def Before (asc : Bool) (a b : κ) : Prop := if asc then a < b else b < a

def LexLe : List (K × Bool) → (K → κ) → (K → κ) → Prop
  | [], _, _ => True
  | (k, asc) :: items, x, y => Before asc (x k) (y k) ∨ x k = y k ∧ LexLe items x y

/-- Two lists of keys that order all records alike. -/
def SameOrder (items items' : List (K × Bool)) : Prop :=
  ∀ (κ : Type) [LinearOrder κ] (x y : K → κ), LexLe items x y ↔ LexLe items' x y

theorem not_before_self (asc : Bool) (a : κ) : ¬Before asc a a := by
  cases asc <;> exact lt_irrefl a

theorem lexLe_of_eq {items : List (K × Bool)} {x y : K → κ}
    (h : ∀ item ∈ items, x item.1 = y item.1) : LexLe items x y := by
  induction items with
  | nil => trivial
  | cons item items ih =>
    rw [List.forall_mem_cons] at h
    exact .inr ⟨h.1, ih h.2⟩

/-- Records that differ at one key only, the wrong way round at its first occurrence. -/
theorem exists_not_lexLe {items : List (K × Bool)} {k : K} (hk : ∃ item ∈ items, item.1 = k) :
    ∃ x y : K → ℕ, (∀ j, j ≠ k → x j = y j) ∧ ¬LexLe items x y := by
  classical
  induction items with
  | nil => simp at hk
  | cons item items ih =>
    obtain ⟨j, asc⟩ := item
    by_cases hj : j = k
    · subst hj
      refine ⟨fun i => if i = j ∧ asc = true then 1 else 0,
        fun i => if i = j ∧ asc = false then 1 else 0, fun i hi => by simp [hi], ?_⟩
      cases asc <;> simp [LexLe, Before]
    · obtain ⟨item, hitem, hkey⟩ := hk
      have hmem : item ∈ items := by
        rcases List.mem_cons.1 hitem with rfl | h
        · exact absurd hkey hj
        · exact h
      obtain ⟨x, y, heq, hnot⟩ := ih ⟨item, hmem, hkey⟩
      refine ⟨x, y, heq, ?_⟩
      rintro (hlt | ⟨-, hle⟩)
      · rw [heq j hj] at hlt
        exact not_before_self _ _ hlt
      · exact hnot hle

/-- A list orders as one key does exactly if it starts with that key in that direction and repeats
no other key. -/
theorem sameOrder_single_iff {k : K} {asc : Bool} {first : K × Bool} {rest : List (K × Bool)} :
    SameOrder [(k, asc)] (first :: rest) ↔ first = (k, asc) ∧ ∀ item ∈ rest, item.1 = k := by
  constructor
  · intro h
    have hkeys : ∀ item ∈ first :: rest, item.1 = k := by
      intro item hitem
      by_contra hne
      obtain ⟨x, y, heq, hnot⟩ := exists_not_lexLe ⟨item, hitem, rfl⟩
      exact hnot ((h ℕ x y).1 (.inr ⟨heq k (Ne.symm hne), trivial⟩))
    rw [List.forall_mem_cons] at hkeys
    obtain ⟨j, dir⟩ := first
    obtain ⟨rfl, hrest⟩ := hkeys
    refine ⟨?_, hrest⟩
    have hdir := h ℕ (fun _ => 0) (fun _ => 1)
    cases asc <;> cases dir <;> simp_all [LexLe, Before]
  · rintro ⟨rfl, hrest⟩ κ _ x y
    refine or_congr_right (and_congr_right fun heq => iff_of_true trivial (lexLe_of_eq ?_))
    intro item hitem
    rw [hrest item hitem, heq]

end JasmineGraph.Lexicographic
