import Mathlib

/-!
# The contract of `std::sort`

`std::sort` asks that the comparator be a strict weak order of the elements (`StrictWeakOn`), and
then returns a sorted permutation of them; with any other comparator its behaviour is undefined. A
`StdSort` is a function that keeps this contract, `none` standing for undefined behaviour. Nothing
is said of the order of elements that compare equal.

Two sorts are extreme. `StdSort.strict` is defined only where the contract says so;
`StdSort.lenient` always returns a permutation (`Permutes`).
-/

namespace JasmineGraph

variable {α β : Type}

structure StrictWeakOn (lt : α → α → Bool) (l : List α) : Prop where
  irrefl : ∀ a ∈ l, lt a a = false
  trans : ∀ a ∈ l, ∀ b ∈ l, ∀ c ∈ l, lt a b = true → lt b c = true → lt a c = true
  incomparable : ∀ a ∈ l, ∀ b ∈ l, ∀ c ∈ l, lt a b = false → lt b a = false →
    lt b c = false → lt c b = false → lt a c = false ∧ lt c a = false

theorem strictWeakOn_of_key [LinearOrder β] (f : α → β) {lt : α → α → Bool}
    (h : ∀ a b, lt a b = true ↔ f a < f b) (l : List α) : StrictWeakOn lt l := by
  have hfalse : ∀ a b, lt a b = false ↔ f b ≤ f a := fun a b => by
    rw [← Bool.not_eq_true, h, not_lt]
  refine ⟨fun a _ => (hfalse a a).2 le_rfl, ?_, ?_⟩
  · intro a _ b _ c _ hab hbc
    exact (h a c).2 (((h a b).1 hab).trans ((h b c).1 hbc))
  · intro a _ b _ c _ hab hba hbc hcb
    rw [hfalse] at hab hba hbc hcb
    exact ⟨(hfalse a c).2 (hbc.trans hab), (hfalse c a).2 (hba.trans hcb)⟩

namespace StrictWeakOn

variable {lt : α → α → Bool} {l : List α} {a b c : α}

theorem asymm (h : StrictWeakOn lt l) (ha : a ∈ l) (hb : b ∈ l) (hab : lt a b = true) :
    lt b a = false := by
  by_contra hba
  rw [Bool.not_eq_false] at hba
  exact absurd (h.trans a ha b hb a ha hab hba) (by rw [h.irrefl a ha]; decide)

theorem not_lt_trans (h : StrictWeakOn lt l) (ha : a ∈ l) (hb : b ∈ l) (hc : c ∈ l)
    (hba : lt b a = false) (hcb : lt c b = false) : lt c a = false := by
  by_contra hca
  rw [Bool.not_eq_false] at hca
  have hab : lt a b = false := by
    by_contra hab
    rw [Bool.not_eq_false] at hab
    exact absurd (h.trans c hc a ha b hb hca hab) (by rw [hcb]; decide)
  have hbc : lt b c = false := by
    by_contra hbc
    rw [Bool.not_eq_false] at hbc
    exact absurd (h.trans b hb c hc a ha hbc hca) (by rw [hba]; decide)
  have := (h.incomparable a ha b hb c hc hab hba hbc hcb).2
  exact absurd hca (by rw [this]; decide)

end StrictWeakOn

/-- A function that keeps the contract of `std::sort`. -/
structure StdSort where
  sort : {α : Type} → (α → α → Bool) → List α → Option (List α)
  sorts : ∀ {α : Type} {lt : α → α → Bool} {l : List α}, StrictWeakOn lt l →
    ∃ l', sort lt l = some l' ∧ l'.Perm l ∧ l'.Pairwise fun a b => lt b a = false

namespace StdSort

/-- The sort returns a permutation whatever the comparator says. -/
def Permutes (s : StdSort) : Prop :=
  ∀ {α : Type} (lt : α → α → Bool) (l : List α), ∃ l', s.sort lt l = some l' ∧ l'.Perm l

/-- Sorting by merging, over the elements of the list as a type of their own. -/
def merged (lt : α → α → Bool) (l : List α) : List α :=
  (l.attach.mergeSort fun a b => !lt b.1 a.1).map Subtype.val

theorem merged_perm (lt : α → α → Bool) (l : List α) : (merged lt l).Perm l := by
  have h := (List.mergeSort_perm l.attach fun a b => !lt b.1 a.1).map Subtype.val
  rwa [List.attach_map_subtype_val] at h

theorem pairwise_merged {lt : α → α → Bool} {l : List α} (h : StrictWeakOn lt l) :
    (merged lt l).Pairwise fun a b => lt b a = false := by
  rw [merged, List.pairwise_map]
  have hsorted : (l.attach.mergeSort fun a b => !lt b.1 a.1).Pairwise
      fun a b => (!lt b.1 a.1) = true := by
    refine List.pairwise_mergeSort ?_ ?_ _
    · intro a b c hab hbc
      rw [Bool.not_eq_true'] at *
      exact h.not_lt_trans a.2 b.2 c.2 hab hbc
    · intro a b
      by_cases hab : lt a.1 b.1 = true
      · simp [h.asymm a.2 b.2 hab]
      · simp [hab]
  exact hsorted.imp fun hab => by simpa using hab

/-- The sort that is defined wherever the comparator lets it be. -/
def lenient : StdSort where
  sort lt l := some (merged lt l)
  sorts h := ⟨_, rfl, merged_perm _ _, pairwise_merged h⟩

theorem lenient_permutes : lenient.Permutes := fun lt l => ⟨_, rfl, merged_perm lt l⟩

open Classical in
noncomputable def strict : StdSort where
  sort lt l := if StrictWeakOn lt l then some (merged lt l) else none
  sorts h := ⟨_, if_pos h, merged_perm _ _, pairwise_merged h⟩

theorem strict_eq_none {lt : α → α → Bool} {l : List α} (h : ¬ StrictWeakOn lt l) :
    strict.sort lt l = none := if_neg h

end StdSort

end JasmineGraph
