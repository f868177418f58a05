import Mathlib

/-!
# Lists threaded through numbered cells

Cells are numbered from 1 in the order of their creation, and a list runs through those that have
a property `P`, newest first. Its links are references: `addr b` refers to cell `b`, `addr 0` ends
the list. `Thread` says in closed form what every link of such a list is: the head refers to the
last cell with the property, `next` to the last one before, `prev` to the first one after. Neither
the list nor the order of insertions occurs in it, so a new cell is one case (`Thread.push`,
`Thread.skip`) and no induction over the list.
-/

namespace JasmineGraph

open List Nat

variable {P Q : Nat → Prop} [DecidablePred P] [DecidablePred Q]

namespace Thread

/-- The last cell up to `n` with the property; 0 if there is none. -/
def last (P : Nat → Prop) [DecidablePred P] : Nat → Nat
  | 0 => 0
  | n + 1 => if P (n + 1) then n + 1 else last P n

/-- The first of the `m` cells after `b` with the property; 0 if there is none. -/
def first (P : Nat → Prop) [DecidablePred P] : Nat → Nat → Nat
  | 0, _ => 0
  | m + 1, b => if P (b + 1) then b + 1 else first P m (b + 1)

/-- The cells up to `n` with the property, newest first. -/
def newest (P : Nat → Prop) [DecidablePred P] : Nat → List Nat
  | 0 => []
  | n + 1 => if P (n + 1) then (n + 1) :: newest P n else newest P n

def Visits (step : Nat → Nat) : Nat → List Nat → Prop
  | a, [] => a = 0
  | a, b :: l => a = b ∧ a ≠ 0 ∧ Visits step (step a) l

theorem last_le : ∀ n, last P n ≤ n
  | 0 => Nat.le_refl 0
  | n + 1 => by
    unfold last
    split_ifs
    · exact Nat.le_refl _
    · exact le_succ_of_le (last_le n)

theorem last_spec : ∀ {n}, last P n ≠ 0 → P (last P n)
  | 0, h => absurd rfl h
  | n + 1, h => by
    unfold last at h ⊢
    split_ifs at h ⊢ with hP
    · exact hP
    · exact last_spec h

theorem le_last {b : Nat} (hb : P b) : ∀ {n}, b ≤ n → b ≤ last P n
  | 0, h => h
  | n + 1, h => by
    unfold last
    split_ifs with hP
    · exact h
    · have hne : b ≠ n + 1 := fun heq => hP (heq ▸ hb)
      exact le_last hb (by omega)

theorem last_congr : ∀ {n}, (∀ b, 0 < b → b ≤ n → (P b ↔ Q b)) → last P n = last Q n
  | 0, _ => rfl
  | n + 1, h => by
    have ih := last_congr fun b h0 hb => h b h0 (le_succ_of_le hb)
    simp only [last, h (n + 1) (succ_pos n) (Nat.le_refl _), ih]

theorem first_congr : ∀ {m b}, (∀ c, b < c → c ≤ b + m → (P c ↔ Q c)) → first P m b = first Q m b
  | 0, _, _ => rfl
  | m + 1, b, h => by
    have ih := @first_congr m (b + 1) fun c h0 hc => h c (by omega) (by omega)
    simp only [first, h (b + 1) (lt_succ_self b) (by omega), ih]

theorem mem_newest {b : Nat} : ∀ {n}, b ∈ newest P n ↔ 0 < b ∧ b ≤ n ∧ P b
  | 0 => by
    simp only [newest, not_mem_nil, false_iff]
    omega
  | n + 1 => by
    have ih := @mem_newest b n
    unfold newest
    by_cases heq : b = n + 1
    · subst heq
      split_ifs with hP <;> simp [ih, hP]
    · have hle : b ≤ n + 1 ↔ b ≤ n := by omega
      split_ifs <;> simp [ih, heq, hle]

theorem newest_pairwise : ∀ n, (newest P n).Pairwise (· > ·)
  | 0 => List.Pairwise.nil
  | n + 1 => by
    unfold newest
    split_ifs
    · refine pairwise_cons.2 ⟨fun b hb => ?_, newest_pairwise n⟩
      exact lt_succ_of_le (mem_newest.1 hb).2.1
    · exact newest_pairwise n

theorem length_newest_le : ∀ n, (newest P n).length ≤ n
  | 0 => Nat.le_refl 0
  | n + 1 => by
    have ih := @length_newest_le n
    unfold newest
    split_ifs
    · rw [length_cons]
      omega
    · omega

theorem first_of_pos {m b : Nat} (h : P (b + 1)) : first P (m + 1) b = b + 1 := if_pos h

theorem first_of_neg {m b : Nat} (h : ¬ P (b + 1)) : first P (m + 1) b = first P m (b + 1) :=
  if_neg h

theorem first_succ : ∀ (m b : Nat), first P (m + 1) b =
    if first P m b = 0 then (if P (b + m + 1) then b + m + 1 else 0) else first P m b
  | 0, b => by simp [first]
  | m + 1, b => by
    have ih := @first_succ m (b + 1)
    by_cases hP : P (b + 1)
    · rw [first_of_pos hP, first_of_pos hP, if_neg (succ_ne_zero b)]
    · rw [first_of_neg hP, first_of_neg hP, ih]
      have harith : b + 1 + m + 1 = b + (m + 1) + 1 := by omega
      rw [harith]

theorem first_eq_zero_iff : ∀ {m b : Nat}, first P m b = 0 ↔ last P (b + m) ≤ b
  | 0, b => by simpa [first] using last_le b
  | m + 1, b => by
    have ih := @first_eq_zero_iff m b
    have harith : b + (m + 1) = b + m + 1 := rfl
    rw [first_succ, harith, last]
    by_cases hP : P (b + m + 1)
    · rw [if_pos hP, if_pos hP]
      refine iff_of_false ?_ (by omega)
      split_ifs with h0
      · exact not_false
      · exact h0
    · rw [if_neg hP, if_neg hP]
      split_ifs <;> omega

end Thread

open Thread

/-- The links of the list through the cells `1..n` that have the property. -/
structure Thread (P : Nat → Prop) [DecidablePred P] (addr : Nat → Nat) (n head : Nat)
    (next prev : Nat → Nat) : Prop where
  head_eq : head = addr (last P n)
  next_eq : ∀ b, b < n → P (b + 1) → next (b + 1) = addr (last P b)
  prev_eq : ∀ b, 0 < b → b ≤ n → P b → prev b = addr (first P (n - b) b)

namespace Thread

variable {addr next next' prev prev' step : Nat → Nat} {n head head' : Nat}

/-- The property matters on the cells only, the links on those with the property. -/
theorem congr (h : Thread P addr n head next prev) (hPQ : ∀ b, 0 < b → b ≤ n → (P b ↔ Q b))
    (hhead : head' = head) (hnext : ∀ b, 0 < b → b ≤ n → P b → next' b = next b)
    (hprev : ∀ b, 0 < b → b ≤ n → P b → prev' b = prev b) :
    Thread Q addr n head' next' prev' where
  head_eq := by rw [hhead, h.head_eq, last_congr hPQ]
  next_eq b hb hQ := by
    have hPb := (hPQ _ (succ_pos b) hb).2 hQ
    rw [hnext _ (succ_pos b) hb hPb, h.next_eq b hb hPb,
      last_congr fun c h0 hc => hPQ c h0 (by omega)]
  prev_eq b h0 hb hQ := by
    have hPb := (hPQ b h0 hb).2 hQ
    rw [hprev b h0 hb hPb, h.prev_eq b h0 hb hPb,
      first_congr fun c hc hcn => hPQ c (by omega) (by omega)]

theorem of_none (h : ∀ b, 0 < b → b ≤ n → ¬ P b) (h0 : addr 0 = 0) :
    Thread P addr n 0 next prev where
  head_eq := by
    have hz : last P n = 0 := by
      rcases Nat.eq_zero_or_pos (last P n) with hz | hpos
      · exact hz
      · exact absurd (last_spec (Nat.ne_of_gt hpos)) (h _ hpos (last_le n))
    rw [hz, h0]
  next_eq b hb hP := absurd hP (h _ (succ_pos b) hb)
  prev_eq b hpos hb hP := absurd hP (h b hpos hb)

theorem skip (h : Thread P addr n head next prev) (hP : ¬ P (n + 1)) (hhead : head' = head)
    (hnext : ∀ b, 0 < b → b ≤ n → P b → next' b = next b)
    (hprev : ∀ b, 0 < b → b ≤ n → P b → prev' b = prev b) :
    Thread P addr (n + 1) head' next' prev' where
  head_eq := by rw [hhead, h.head_eq, last, if_neg hP]
  next_eq b hb hPb := by
    have hne : b ≠ n := fun heq => hP (heq ▸ hPb)
    rw [hnext _ (succ_pos b) (by omega) hPb, h.next_eq b (by omega) hPb]
  prev_eq b h0 hb hPb := by
    have hne : b ≠ n + 1 := fun heq => hP (heq ▸ hPb)
    have hsub : n + 1 - b = (n - b) + 1 := by omega
    have hadd : b + (n - b) + 1 = n + 1 := by omega
    rw [hprev b h0 (by omega) hPb, h.prev_eq b h0 (by omega) hPb, hsub, first_succ, hadd, if_neg hP]
    split_ifs with hz
    · rw [hz]
    · rfl

/-- **A new cell with the property becomes the head.** Only three links change: the head, the
forward link of the new cell and the back link of the old head. -/
theorem push (h : Thread P addr n head next prev) (hP : P (n + 1)) (hhead : head' = addr (n + 1))
    (hnew : next' (n + 1) = head) (hnext : ∀ b, 0 < b → b ≤ n → P b → next' b = next b)
    (hend : prev' (n + 1) = addr 0) (hback : last P n ≠ 0 → prev' (last P n) = addr (n + 1))
    (hprev : ∀ b, 0 < b → b ≤ n → P b → b ≠ last P n → prev' b = prev b) :
    Thread P addr (n + 1) head' next' prev' where
  head_eq := by rw [hhead, last, if_pos hP]
  next_eq b hb hPb := by
    by_cases heq : b = n
    · rw [heq, hnew, h.head_eq]
    · rw [hnext _ (succ_pos b) (by omega) hPb, h.next_eq b (by omega) hPb]
  prev_eq b h0 hb hPb := by
    by_cases hbn : b = n + 1
    · rw [hbn, hend, Nat.sub_self, first]
    · have hsub : n + 1 - b = (n - b) + 1 := by omega
      have hadd : b + (n - b) + 1 = n + 1 := by omega
      have hadd' : b + (n - b) = n := by omega
      have hzero : first P (n - b) b = 0 ↔ last P n ≤ b := by rw [first_eq_zero_iff, hadd']
      rw [hsub, first_succ, hadd, if_pos hP]
      have hle : b ≤ last P n := le_last hPb (by omega)
      by_cases hlast : b = last P n
      · rw [if_pos (hzero.2 (Nat.le_of_eq hlast.symm)), ← hback (by omega), ← hlast]
      · rw [if_neg fun hz => hlast (by have := hzero.1 hz; omega), hprev b h0 (by omega) hPb hlast,
          h.prev_eq b h0 (by omega) hPb]

/-! ## Walking the list -/

theorem visits_start : ∀ {a : Nat} {l : List Nat}, Visits step a l → a = l.headD 0
  | _, [], h => h
  | _, _ :: _, h => h.1

/-- **Forward from the head: the cells with the property, newest first.** -/
theorem forward (h : Thread P addr n head next prev) (h0 : addr 0 = 0)
    (hpos : ∀ b, 0 < b → addr b ≠ 0)
    (hstep : ∀ b, 0 < b → b ≤ n → P b → step (addr b) = next b) :
    Visits step head ((newest P n).map addr) := by
  rw [h.head_eq]
  -- induction on the bound: the walk from the last cell up to `c`
  have hwalk : ∀ c, c ≤ n → Visits step (addr (last P c)) ((newest P c).map addr) := by
    intro c
    induction c with
    | zero => exact fun _ => h0
    | succ c ih =>
      intro hc
      by_cases hP : P (c + 1)
      · simp only [last, newest, if_pos hP, map_cons]
        refine ⟨rfl, hpos _ (succ_pos c), ?_⟩
        rw [hstep _ (succ_pos c) hc hP, h.next_eq c hc hP]
        exact ih (le_of_succ_le hc)
      · simp only [last, newest, if_neg hP]
        exact ih (le_of_succ_le hc)
  exact hwalk n (Nat.le_refl n)

/-- **Backward from the oldest cell: the same list reversed.** -/
theorem backward (h : Thread P addr n head next prev) (h0 : addr 0 = 0)
    (hpos : ∀ b, 0 < b → addr b ≠ 0)
    (hstep : ∀ b, 0 < b → b ≤ n → P b → step (addr b) = prev b) :
    Visits step (((newest P n).map addr).reverse.headD 0) ((newest P n).map addr).reverse := by
  -- induction on the bound: what remains after the cells up to `c` is a suffix of the walk
  have hwalk : ∀ c, c ≤ n → ∀ tail, Visits step (addr (first P (n - c) c)) tail →
      Visits step (addr (first P n 0)) (((newest P c).map addr).reverse ++ tail) := by
    intro c
    induction c with
    | zero => exact fun _ tail ht => ht
    | succ c ih =>
      intro hc tail ht
      have hsub : n - c = (n - (c + 1)) + 1 := by omega
      by_cases hP : P (c + 1)
      · simp only [newest, if_pos hP, map_cons, reverse_cons, append_assoc, singleton_append]
        refine ih (le_of_succ_le hc) _ ?_
        rw [hsub, first_of_pos hP]
        refine ⟨rfl, hpos _ (succ_pos c), ?_⟩
        rw [hstep _ (succ_pos c) hc hP, h.prev_eq _ (succ_pos c) hc hP]
        exact ht
      · simp only [newest, if_neg hP]
        refine ih (le_of_succ_le hc) _ ?_
        rw [hsub, first_of_neg hP]
        exact ht
  have hall := hwalk n (Nat.le_refl n) [] (by rw [Nat.sub_self]; exact h0)
  rw [append_nil] at hall
  rw [← visits_start hall]
  exact hall

end Thread

end JasmineGraph
