import Mathlib

/-!
# `std::prev_permutation` and the loop over it

`std::prev_permutation` replaces a range by its predecessor among its permutations in lexicographic
order, and returns `false` on the first of them. The library finds the last position whose element
is greater than its successor; behind it the range ascends. It exchanges that element with the last
smaller one behind it and reverses what is behind (`prevPermutation`, by recursion on the range).
-/

namespace JasmineGraph

open List

variable {α : Type*} [LinearOrder α] {x : α} {l p q xs : List α}

/-- Puts `x` in the place of the last element below it; also returns that element. -/
def exchange (x : α) : List α → Option (α × List α)
  | [] => none
  | y :: ys =>
    match exchange x ys with
    | some (z, zs) => some (z, y :: zs)
    | none => if y < x then some (y, x :: ys) else none

/-- `std::prev_permutation`; `none` when it returns `false`. -/
def prevPermutation : List α → Option (List α)
  | [] => none
  | x :: xs =>
    match prevPermutation xs with
    | some ys => some (x :: ys)
    | none => (exchange x xs).map fun (y, ys) => y :: ys.reverse

theorem exchange_eq_none : exchange x xs = none ↔ ∀ y ∈ xs, x ≤ y := by
  induction xs with
  | nil => simp [exchange]
  | cons y ys ih =>
    simp only [exchange, forall_mem_cons]
    cases h : exchange x ys with
    | some r =>
      simp only [reduceCtorEq, false_iff, not_and]
      intro _ hys
      rw [ih.2 hys] at h
      cases h
    | none =>
      have hys := ih.1 h
      simp only [ite_eq_right_iff, reduceCtorEq, imp_false, not_lt]
      exact (and_iff_left hys).symm

theorem exchange_eq_some {y : α} {ys : List α} (h : exchange x xs = some (y, ys)) :
    ∃ before after, xs = before ++ y :: after ∧ ys = before ++ x :: after ∧ y < x ∧
      ∀ z ∈ after, x ≤ z := by
  induction xs generalizing ys with
  | nil => cases h
  | cons w ws ih =>
    simp only [exchange] at h
    split at h
    · rename_i z zs hz
      cases h
      obtain ⟨before, after, rfl, rfl, hlt, hafter⟩ := ih hz
      exact ⟨w :: before, after, rfl, rfl, hlt, hafter⟩
    · rename_i hnone
      split_ifs at h with hlt
      cases h
      exact ⟨[], ws, rfl, rfl, hlt, exchange_eq_none.1 hnone⟩

theorem prevPermutation_eq_none : prevPermutation l = none ↔ l.Pairwise (· ≤ ·) := by
  induction l with
  | nil => simp [prevPermutation]
  | cons x xs ih =>
    simp only [prevPermutation, pairwise_cons]
    cases h : prevPermutation xs with
    | some ys =>
      rw [h] at ih
      simp only [reduceCtorEq, false_iff, not_and]
      exact fun _ hs => by cases ih.2 hs
    | none => simp [exchange_eq_none, ih.1 h]

/-! ## Extreme permutations -/

omit [LinearOrder α] in
/-- Where a permutation first differs from a range that is ordered by `r`, the range goes first. -/
theorem first_difference {r : α → α → Prop} (hl : l.Pairwise r) (hq : q.Perm l) :
    q = l ∨ ∃ common x xs y ys, l = common ++ x :: xs ∧ q = common ++ y :: ys ∧ x ≠ y ∧ r x y := by
  induction l generalizing q with
  | nil => exact .inl hq.eq_nil
  | cons x xs ih =>
    obtain ⟨hx, hxs⟩ := pairwise_cons.1 hl
    cases q with
    | nil => exact absurd hq.nil_eq (by simp)
    | cons y ys =>
      by_cases hxy : x = y
      · subst hxy
        rcases ih hxs hq.cons_inv with rfl | ⟨common, a, as, b, bs, rfl, rfl, hab⟩
        · exact .inl rfl
        · exact .inr ⟨x :: common, a, as, b, bs, rfl, rfl, hab⟩
      · have hy := (mem_cons.1 (hq.subset mem_cons_self)).resolve_left (Ne.symm hxy)
        exact .inr ⟨[], x, xs, y, ys, rfl, rfl, hxy, hx y hy⟩

theorem append_cons_lt {common xs ys : List α} {x y : α} (h : x < y) :
    common ++ x :: xs < common ++ y :: ys :=
  List.Lex.append_left (· < ·) (List.Lex.rel h) common

theorem le_of_ascending (hl : l.Pairwise (· ≤ ·)) (hq : q.Perm l) : l ≤ q := by
  rcases first_difference hl hq with rfl | ⟨common, x, xs, y, ys, rfl, rfl, hne, hle⟩
  · exact le_rfl
  · exact le_of_lt (append_cons_lt (lt_of_le_of_ne hle hne))

theorem le_of_descending (hl : l.Pairwise (· ≥ ·)) (hq : q.Perm l) : q ≤ l := by
  rcases first_difference hl hq with rfl | ⟨common, x, xs, y, ys, rfl, rfl, hne, hle⟩
  · exact le_rfl
  · exact le_of_lt (append_cons_lt (lt_of_le_of_ne hle hne.symm))

/-! ## The predecessor -/

structure IsPrev (p l : List α) : Prop where
  perm : p.Perm l
  lt : p < l
  greatest : ∀ q, q.Perm l → q < l → q ≤ p

theorem IsPrev.cons (h : IsPrev p l) (x : α) : IsPrev (x :: p) (x :: l) where
  perm := h.perm.cons x
  lt := cons_lt_cons_iff.2 (.inr ⟨rfl, h.lt⟩)
  greatest q hq hlt := by
    cases q with
    | nil => exact absurd hq.nil_eq (by simp)
    | cons y ys =>
      rcases cons_lt_cons_iff.1 hlt with hy | ⟨rfl, hys⟩
      · exact le_of_lt (List.Lex.rel hy)
      · exact cons_le_cons y (h.greatest ys hq.cons_inv hys)

/-- The case of the exchange: the range behind `x` ascends. -/
theorem isPrev_exchange {y : α} {ys : List α} (hxs : xs.Pairwise (· ≤ ·))
    (h : exchange x xs = some (y, ys)) : IsPrev (y :: ys.reverse) (x :: xs) := by
  obtain ⟨before, after, rfl, rfl, hyx, hafter⟩ := exchange_eq_some h
  obtain ⟨hbefore, hrest, hle⟩ := pairwise_append.1 hxs
  obtain ⟨-, hasc⟩ := pairwise_cons.1 hrest
  have hsmall : ∀ z ∈ before, z ≤ y := fun z hz => hle z hz y mem_cons_self
  -- with `x` in the place of `y` the range still ascends, so its reverse descends
  have hdesc : (before ++ x :: after).reverse.Pairwise (· ≥ ·) := by
    rw [pairwise_reverse]
    refine pairwise_append.2 ⟨hbefore, pairwise_cons.2 ⟨hafter, hasc⟩, ?_⟩
    intro z hz w hw
    rcases mem_cons.1 hw with rfl | hw
    · exact (hsmall z hz).trans hyx.le
    · exact hle z hz w (mem_cons_of_mem y hw)
  have hperm : (y :: (before ++ x :: after).reverse).Perm (x :: (before ++ y :: after)) := by
    refine ((reverse_perm _).cons y).trans ?_
    refine (perm_middle.cons y).trans ((Perm.swap x y _).trans ?_)
    exact perm_middle.symm.cons x
  refine ⟨hperm, List.Lex.rel hyx, fun q hq hlt => ?_⟩
  cases q with
  | nil => exact absurd hq.nil_eq (by simp)
  | cons a as =>
    rcases cons_lt_cons_iff.1 hlt with hax | ⟨rfl, has⟩
    · have ha : a ≤ y := by
        rcases mem_cons.1 (hq.subset mem_cons_self) with rfl | ha
        · exact absurd hax (lt_irrefl a)
        · rcases mem_append.1 ha with ha | ha
          · exact hsmall a ha
          · rcases mem_cons.1 ha with rfl | ha
            · exact le_rfl
            · exact absurd hax (not_lt.2 (hafter a ha))
      rcases lt_or_eq_of_le ha with hay | rfl
      · exact le_of_lt (List.Lex.rel hay)
      · exact cons_le_cons a (le_of_descending hdesc (hq.trans hperm.symm).cons_inv)
    · exact absurd has (not_lt.2 (le_of_ascending hxs hq.cons_inv))

/-- **What is returned is the previous permutation.** -/
theorem prevPermutation_spec (h : prevPermutation l = some p) : IsPrev p l := by
  induction l generalizing p with
  | nil => cases h
  | cons x xs ih =>
    simp only [prevPermutation] at h
    split at h
    · rename_i ys hys
      cases h
      exact (ih hys).cons x
    · rename_i hnone
      obtain ⟨⟨y, ys⟩, hex, rfl⟩ := Option.map_eq_some_iff.1 h
      exact isPrev_exchange (prevPermutation_eq_none.1 hnone) hex

/-! ## The loop -/

def below (l : List α) : Finset (List α) := l.permutations.toFinset.filter (· < l)

theorem mem_below : q ∈ below l ↔ q.Perm l ∧ q < l := by
  simp [below, mem_permutations]

theorem IsPrev.card_below_lt (h : IsPrev p l) : (below p).card < (below l).card := by
  refine Finset.card_lt_card ((Finset.ssubset_iff_of_subset ?_).2 ⟨p, ?_, ?_⟩)
  · intro q hq
    obtain ⟨hperm, hlt⟩ := mem_below.1 hq
    exact mem_below.2 ⟨hperm.trans h.perm, hlt.trans h.lt⟩
  · exact mem_below.2 ⟨h.perm, h.lt⟩
  · exact fun hp => lt_irrefl p (mem_below.1 hp).2

/-- The ranges that `do { .. } while (std::prev_permutation(..))` visits. -/
def downFrom (l : List α) : List (List α) :=
  match _h : prevPermutation l with
  | none => [l]
  | some p => l :: downFrom p
termination_by (below l).card
decreasing_by exact (prevPermutation_spec _h).card_below_lt

theorem downFrom_of_none (h : prevPermutation l = none) : downFrom l = [l] := by
  rw [downFrom, h]

theorem downFrom_of_some (h : prevPermutation l = some p) : downFrom l = l :: downFrom p := by
  rw [downFrom, h]

/-- **What the loop visits.** -/
theorem mem_downFrom : q ∈ downFrom l ↔ q.Perm l ∧ q ≤ l := by
  induction l using downFrom.induct with
  | case1 l h =>
    rw [downFrom_of_none h, mem_singleton]
    refine ⟨fun hq => hq ▸ ⟨.refl q, le_rfl⟩, fun ⟨hq, hle⟩ => ?_⟩
    exact le_antisymm hle (le_of_ascending (prevPermutation_eq_none.1 h) hq)
  | case2 l p h ih =>
    have hp := prevPermutation_spec h
    rw [downFrom_of_some h, mem_cons, ih]
    constructor
    · rintro (rfl | ⟨hq, hle⟩)
      · exact ⟨.refl q, le_rfl⟩
      · exact ⟨hq.trans hp.perm, hle.trans hp.lt.le⟩
    · rintro ⟨hq, hle⟩
      rcases eq_or_lt_of_le hle with rfl | hlt
      · exact .inl rfl
      · exact .inr ⟨hq.trans hp.perm.symm, hp.greatest q hq hlt⟩

theorem nodup_downFrom (l : List α) : (downFrom l).Nodup := by
  induction l using downFrom.induct with
  | case1 l h =>
    rw [downFrom_of_none h]
    exact nodup_singleton l
  | case2 l p h ih =>
    rw [downFrom_of_some h]
    -- what comes after `l` is at most `p`
    refine ih.cons fun hl => ?_
    exact absurd (prevPermutation_spec h).lt (not_lt.2 (mem_downFrom.1 hl).2)

theorem mem_downFrom_of_descending (hl : l.Pairwise (· ≥ ·)) : q ∈ downFrom l ↔ q.Perm l :=
  mem_downFrom.trans (and_iff_left_of_imp (le_of_descending hl))

end JasmineGraph
