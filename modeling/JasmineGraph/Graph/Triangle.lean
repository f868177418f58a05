import Mathlib

/-!
# Triangles of a relation, as sets and as ascending triples

A triangle of a relation `adj` is a set of three vertices, any two of them adjacent
(`IsTriangle`); `numTriangles` counts them. Programs list a triangle as a triple in ascending
order. `members` forgets the order, and on ascending triples it forgets nothing
(`members_injOn`), so a duplicate-free list of ascending triples counts the sets it names
(`ncard_of_listing`).

`sort3` is the three-comparison sorting network; on three distinct vertices it returns the
ascending triple of the same members (`ascending_sort3`, `members_sort3`). A search that goes from
each edge to the common neighbours of its ends meets the triples it `Closes`: the triangles, as long
as there are no loops (`closes_iff`).

The triangles with an edge of a second relation can be counted from these edges: one that has several
is met from each, which the `corners` with two and with three of them correct
(`corners_numTrianglesWith`).
-/

namespace JasmineGraph.Graph

open Finset

variable {V : Type}

/-- The undirected closure of a relation. -/
def undirected (r : V → V → Prop) (a b : V) : Prop := r a b ∨ r b a

theorem undirected_symm {r : V → V → Prop} {a b : V} (h : undirected r a b) :
    undirected r b a := Or.symm h

/-- Three vertices, pairwise adjacent. -/
def IsTriangle (adj : V → V → Prop) (t : Finset V) : Prop :=
  t.card = 3 ∧ ∀ a ∈ t, ∀ b ∈ t, a ≠ b → adj a b

noncomputable def numTriangles (adj : V → V → Prop) : Nat := {t | IsTriangle adj t}.ncard

variable [LinearOrder V]

def members (x : V × V × V) : Finset V := {x.1, x.2.1, x.2.2}

def Ascending (x : V × V × V) : Prop := x.1 < x.2.1 ∧ x.2.1 < x.2.2

theorem members_injOn {x y : V × V × V} (hx : Ascending x) (hy : Ascending y)
    (h : members x = members y) : x = y := by
  obtain ⟨a, b, c⟩ := x
  obtain ⟨d, e, f⟩ := y
  obtain ⟨hab, hbc⟩ := hx
  obtain ⟨hde, hef⟩ := hy
  simp only [members] at *
  have hmem : ∀ v, (v = a ∨ v = b ∨ v = c) ↔ (v = d ∨ v = e ∨ v = f) := by
    intro v
    have := Finset.ext_iff.1 h v
    simpa using this
  -- the least, the greatest and then the middle member agree
  have had : a = d := by
    rcases (hmem a).1 (.inl rfl) with h1 | h1 | h1 <;>
      rcases (hmem d).2 (.inl rfl) with h2 | h2 | h2 <;> order
  have hcf : c = f := by
    rcases (hmem c).1 (.inr (.inr rfl)) with h1 | h1 | h1 <;>
      rcases (hmem f).2 (.inr (.inr rfl)) with h2 | h2 | h2 <;> order
  have hbe : b = e := by
    rcases (hmem b).1 (.inr (.inl rfl)) with h1 | h1 | h1 <;> order
  rw [had, hbe, hcf]

def sort3 (a b c : V) : V × V × V :=
  let (a, b) := if b < a then (b, a) else (a, b)
  let (a, c) := if c < a then (c, a) else (a, c)
  let (b, c) := if c < b then (c, b) else (b, c)
  (a, b, c)

theorem members_sort3 (a b c : V) : members (sort3 a b c) = {a, b, c} := by
  unfold sort3 members
  ext v
  simp only [mem_insert, mem_singleton]
  split_ifs <;> dsimp only <;> tauto

theorem ascending_sort3 {a b c : V} (hab : a ≠ b) (hac : a ≠ c) (hbc : b ≠ c) :
    Ascending (sort3 a b c) := by
  unfold sort3
  split_ifs <;> dsimp only <;> split_ifs <;> dsimp only at * <;> constructor <;> order

variable {x : V × V × V} {adj : V → V → Prop}

theorem sort3_of_ascending (h : Ascending x) : sort3 x.1 x.2.1 x.2.2 = x := by
  obtain ⟨a, b, c⟩ := x
  obtain ⟨hab, hbc⟩ : a < b ∧ b < c := h
  simp only [sort3, if_neg hab.not_gt, if_neg (hab.trans hbc).not_gt, if_neg hbc.not_gt]

omit [LinearOrder V] in
theorem isTriangle_triple [DecidableEq V] (hs : ∀ a b, adj a b → adj b a) {a b c : V} (hab : a ≠ b)
    (hac : a ≠ c) (hbc : b ≠ c) : IsTriangle adj {a, b, c} ↔ adj a b ∧ adj b c ∧ adj a c := by
  constructor
  · rintro ⟨-, h⟩
    exact ⟨h a (by simp) b (by simp) hab, h b (by simp) c (by simp) hbc,
      h a (by simp) c (by simp) hac⟩
  · rintro ⟨h1, h2, h3⟩
    refine ⟨card_eq_three.2 ⟨a, b, c, hab, hac, hbc, rfl⟩, ?_⟩
    intro x hx y hy hxy
    simp only [mem_insert, mem_singleton] at hx hy
    rcases hx with rfl | rfl | rfl <;> rcases hy with rfl | rfl | rfl <;>
      first | exact absurd rfl hxy | assumption | exact hs _ _ ‹_›

/-- Every three-element set is the member set of an ascending triple. -/
theorem exists_ascending {t : Finset V} (ht : t.card = 3) : ∃ x, Ascending x ∧ members x = t := by
  obtain ⟨a, b, c, hab, hac, hbc, rfl⟩ := card_eq_three.1 ht
  exact ⟨sort3 a b c, ascending_sort3 hab hac hbc, members_sort3 a b c⟩

/-- The triple of an edge and a vertex next to both its ends. A loop closes triples that are no
triangles. -/
def Closes (adj : V → V → Prop) (x : V × V × V) : Prop :=
  ∃ u v w, adj u v ∧ adj u w ∧ adj v w ∧ x = sort3 u v w

theorem closes_of_isTriangle (hx : Ascending x) (h : IsTriangle adj (members x)) :
    Closes adj x := by
  obtain ⟨a, b, c⟩ := x
  have hsort := sort3_of_ascending hx
  obtain ⟨hab, hbc⟩ : a < b ∧ b < c := hx
  refine ⟨a, b, c, h.2 a ?_ b ?_ hab.ne, h.2 a ?_ c ?_ (hab.trans hbc).ne, h.2 b ?_ c ?_ hbc.ne,
    hsort.symm⟩ <;> simp [members]

theorem closes_loop {v : V} (h : adj v v) : Closes adj (v, v, v) :=
  ⟨v, v, v, h, h, h, by simp [sort3]⟩

theorem closes_iff (hs : ∀ a b, adj a b → adj b a) (hloop : ∀ v, ¬ adj v v) :
    Closes adj x ↔ Ascending x ∧ IsTriangle adj (members x) := by
  refine ⟨?_, fun ⟨hx, h⟩ => closes_of_isTriangle hx h⟩
  rintro ⟨u, v, w, huv, huw, hvw, rfl⟩
  have hne : ∀ {a b}, adj a b → a ≠ b := fun hab heq => hloop _ (heq ▸ hab)
  refine ⟨ascending_sort3 (hne huv) (hne huw) (hne hvw), ?_⟩
  rw [members_sort3, isTriangle_triple hs (hne huv) (hne huw) (hne hvw)]
  exact ⟨huv, hvw, huw⟩

/-- **Listing counts.** A duplicate-free list of ascending triples that names exactly the sets
satisfying `P` has as many entries as there are such sets. -/
theorem ncard_of_listing {P : Finset V → Prop} {ts : List (V × V × V)} (hn : ts.Nodup)
    (hasc : ∀ x ∈ ts, Ascending x) (h : ∀ t, P t ↔ ∃ x ∈ ts, members x = t) :
    {t | P t}.ncard = ts.length := by
  have hset : {t | P t} = members '' (ts.toFinset : Set (V × V × V)) := by
    ext t
    simp only [Set.mem_image, mem_coe, List.mem_toFinset]
    exact h t
  rw [hset, Set.InjOn.ncard_image, Set.ncard_coe_finset, List.toFinset_card_of_nodup hn]
  intro x hx y hy hxy
  rw [mem_coe, List.mem_toFinset] at hx hy
  exact members_injOn (hasc x hx) (hasc y hy) hxy

/-! ## Triangles with a new edge -/

section Orders

variable [Fintype V] {new : V → V → Prop}

def orders : Fin 6 → V × V × V ≃ V × V × V :=
  ![⟨fun x => x, fun x => x, fun _ => rfl, fun _ => rfl⟩,
    ⟨fun x => (x.1, x.2.2, x.2.1), fun x => (x.1, x.2.2, x.2.1), fun _ => rfl, fun _ => rfl⟩,
    ⟨fun x => (x.2.1, x.1, x.2.2), fun x => (x.2.1, x.1, x.2.2), fun _ => rfl, fun _ => rfl⟩,
    ⟨fun x => (x.2.2, x.2.1, x.1), fun x => (x.2.2, x.2.1, x.1), fun _ => rfl, fun _ => rfl⟩,
    ⟨fun x => (x.2.1, x.2.2, x.1), fun x => (x.2.2, x.1, x.2.1), fun _ => rfl, fun _ => rfl⟩,
    ⟨fun x => (x.2.2, x.1, x.2.1), fun x => (x.2.1, x.2.2, x.1), fun _ => rfl, fun _ => rfl⟩]

instance decidableAscending : DecidablePred (Ascending (V := V)) := fun _ =>
  inferInstanceAs (Decidable (_ ∧ _))

theorem sum_triples {f : V × V × V → Nat}
    (hf : ∀ x, f x ≠ 0 → x.1 ≠ x.2.1 ∧ x.2.1 ≠ x.2.2 ∧ x.1 ≠ x.2.2) :
    ∑ x, f x = ∑ x with Ascending x, ∑ i, f (orders i x) := by
  have hone : ∀ x, f x = ∑ i, if Ascending ((orders i).symm x) then f x else 0 := by
    rintro ⟨a, b, c⟩
    rcases eq_or_ne (f (a, b, c)) 0 with hzero | hne
    · simp [hzero]
    · obtain ⟨hab, hbc, hac⟩ := hf _ hne
      simp only [Fin.sum_univ_six, orders, Ascending]
      dsimp
      rcases hab.lt_or_gt with h1 | h1 <;> rcases hbc.lt_or_gt with h2 | h2 <;>
        rcases hac.lt_or_gt with h3 | h3 <;>
        simp only [h1, h2, h3, h1.not_gt, h2.not_gt, h3.not_gt] <;> simp <;> order
  calc ∑ x, f x = ∑ i, ∑ x, if Ascending ((orders i).symm x) then f x else 0 := by
        rw [sum_comm]
        exact sum_congr rfl fun x _ => hone x
    _ = ∑ i, ∑ x, if Ascending x then f (orders i x) else 0 := by
        refine sum_congr rfl fun i _ => ?_
        exact (Fintype.sum_equiv (orders i) _ _ fun x => by rw [Equiv.symm_apply_apply]).symm
    _ = _ := by
        rw [sum_comm, sum_filter]
        refine sum_congr rfl fun x _ => ?_
        split_ifs <;> simp

open Classical in
/-- The number of corners: an edge of `e`, whose first end is next to a vertex by `p` and whose second
end by `q`. -/
noncomputable def corners (e p q : V → V → Prop) : Nat :=
  ∑ x : V × V × V, if e x.1 x.2.1 ∧ p x.1 x.2.2 ∧ q x.2.1 x.2.2 then 1 else 0

noncomputable def numTrianglesWith (adj new : V → V → Prop) : Nat :=
  {t | IsTriangle adj t ∧ ∃ a ∈ t, ∃ b ∈ t, new a b}.ncard

open Classical in
theorem numTrianglesWith_eq (hs : ∀ a b, adj a b → adj b a) (hs' : ∀ a b, new a b → new b a)
    (hsub : ∀ a b, new a b → adj a b) (hloop : ∀ v, ¬ adj v v) :
    numTrianglesWith adj new = ∑ x with Ascending x,
      if (adj x.1 x.2.1 ∧ adj x.2.1 x.2.2 ∧ adj x.1 x.2.2) ∧
        (new x.1 x.2.1 ∨ new x.2.1 x.2.2 ∨ new x.1 x.2.2) then 1 else 0 := by
  have hmem : ∀ x : V × V × V, Ascending x → ((IsTriangle adj (members x) ∧
      ∃ a ∈ members x, ∃ b ∈ members x, new a b) ↔
        (adj x.1 x.2.1 ∧ adj x.2.1 x.2.2 ∧ adj x.1 x.2.2) ∧
          (new x.1 x.2.1 ∨ new x.2.1 x.2.2 ∨ new x.1 x.2.2)) := by
    rintro ⟨a, b, c⟩ ⟨hab, hbc⟩
    rw [members, isTriangle_triple hs hab.ne (hab.trans hbc).ne hbc.ne]
    grind
  rw [numTrianglesWith, ncard_of_listing (nodup_toList (univ.filter fun x =>
    Ascending x ∧ (IsTriangle adj (members x) ∧ ∃ a ∈ members x, ∃ b ∈ members x, new a b)))]
  · rw [length_toList, ← filter_filter, card_filter]
    refine sum_congr rfl fun x hx => ?_
    rw [if_congr (hmem x (mem_filter.1 hx).2) rfl rfl]
  · intro x hx
    simp only [mem_toList, mem_filter] at hx
    exact hx.2.1
  · intro t
    simp only [mem_toList, mem_filter, mem_univ, true_and]
    constructor
    · intro h
      obtain ⟨x, hx, rfl⟩ := exists_ascending h.1.1
      exact ⟨x, ⟨hx, h⟩, rfl⟩
    · rintro ⟨x, ⟨-, h⟩, rfl⟩
      exact h

/-- **Counting triangles from their new edges.** A triangle with several new edges is met from each of
them; the corners with two and with three new edges make up for it. -/
theorem corners_numTrianglesWith (hs : ∀ a b, adj a b → adj b a) (hs' : ∀ a b, new a b → new b a)
    (hsub : ∀ a b, new a b → adj a b) (hloop : ∀ v, ¬ adj v v) :
    3 ∣ corners new new new ∧ corners new adj adj + corners new new new / 3 =
      2 * numTrianglesWith adj new + corners new adj new := by
  classical
  have hne : ∀ a b, adj a b → a ≠ b := fun a b h heq => hloop b (heq ▸ h)
  have hadj : ∀ a b, adj b a ↔ adj a b := fun a b => ⟨hs b a, hs a b⟩
  have hnew : ∀ a b, new b a ↔ new a b := fun a b => ⟨hs' b a, hs' a b⟩
  have hsum : ∀ {p q : V → V → Prop}, (∀ a b, p a b → adj a b) → (∀ a b, q a b → adj a b) →
      corners new p q = ∑ x with Ascending x, ∑ i, if new (orders i x).1 (orders i x).2.1 ∧
        p (orders i x).1 (orders i x).2.2 ∧ q (orders i x).2.1 (orders i x).2.2 then 1 else 0 := by
    intro p q hp hq
    refine sum_triples fun x hx => ?_
    obtain ⟨h1, h2, h3⟩ : new x.1 x.2.1 ∧ p x.1 x.2.2 ∧ q x.2.1 x.2.2 := by simpa using hx
    exact ⟨hne _ _ (hsub _ _ h1), hne _ _ (hq _ _ h3), hne _ _ (hp _ _ h2)⟩
  let all := ∑ x : V × V × V with Ascending x,
    if new x.1 x.2.1 ∧ new x.2.1 x.2.2 ∧ new x.1 x.2.2 then 1 else 0
  have hthree : corners new new new = 6 * all := by
    rw [hsum hsub hsub, mul_sum]
    refine sum_congr rfl fun ⟨a, b, c⟩ _ => ?_
    simp only [Fin.sum_univ_six, orders]
    dsimp
    simp only [hnew a b, hnew a c, hnew b c]
    by_cases hab : new a b <;> by_cases hbc : new b c <;> by_cases hac : new a c <;>
      simp [hab, hbc, hac]
  have hmain : corners new adj adj + 2 * all = 2 * numTrianglesWith adj new + corners new adj new := by
    rw [hsum (fun _ _ h => h) fun _ _ h => h, hsum (fun _ _ h => h) hsub,
      numTrianglesWith_eq hs hs' hsub hloop, mul_sum, mul_sum,
      ← sum_add_distrib, ← sum_add_distrib]
    refine sum_congr rfl fun ⟨a, b, c⟩ _ => ?_
    simp only [Fin.sum_univ_six, orders]
    dsimp
    have h3 := hsub a c
    by_cases hab : new a b <;> by_cases hbc : new b c <;> by_cases hac : new a c <;>
      by_cases hab' : adj a b <;> by_cases hbc' : adj b c <;> by_cases hac' : adj a c <;>
      simp_all only [and_false, false_and, or_false, or_true, if_true, if_false,
        and_self, true_imp_iff, false_imp_iff, Nat.reduceAdd, Nat.reduceMul]
  omega

end Orders
end JasmineGraph.Graph
