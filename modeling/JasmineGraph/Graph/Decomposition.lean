import JasmineGraph.Graph.Triangle

/-!
# Triangles of a partitioned graph

The vertices of a graph are distributed over partitions by `home`. A partition holds the edges with
an end in it (`site`); an edge between two partitions is cut. A triangle with two vertices in one
partition is a triangle of that site and of no other (`existsUnique_site`); a triangle whose three
homes are distinct is a triangle of no site (`not_isTriangle_site`), and it is found in the cut
edges of any collection of partitions that contains the three (`isTriangle_cutAt`).
-/

namespace JasmineGraph.Graph

open Finset

variable {V P : Type} {adj : V → V → Prop} {home : V → P} {t : Finset V} {p q : P}

def site (adj : V → V → Prop) (home : V → P) (p : P) (a b : V) : Prop :=
  adj a b ∧ (home a = p ∨ home b = p)

def cut (adj : V → V → Prop) (home : V → P) (a b : V) : Prop := adj a b ∧ home a ≠ home b

def cutAt (adj : V → V → Prop) (home : V → P) (c : Set P) (a b : V) : Prop :=
  cut adj home a b ∧ (home a ∈ c ∨ home b ∈ c)

def Spread (home : V → P) (t : Finset V) : Prop :=
  ∀ a ∈ t, ∀ b ∈ t, a ≠ b → home a ≠ home b

theorem isTriangle_cut : IsTriangle (cut adj home) t ↔ IsTriangle adj t ∧ Spread home t := by
  constructor
  · rintro ⟨hcard, h⟩
    exact ⟨⟨hcard, fun a ha b hb hab => (h a ha b hb hab).1⟩,
      fun a ha b hb hab => (h a ha b hb hab).2⟩
  · rintro ⟨⟨hcard, h⟩, hspread⟩
    exact ⟨hcard, fun a ha b hb hab => ⟨h a ha b hb hab, hspread a ha b hb hab⟩⟩

theorem isTriangle_of_site (h : IsTriangle (site adj home p) t) : IsTriangle adj t :=
  ⟨h.1, fun a ha b hb hab => (h.2 a ha b hb hab).1⟩

theorem home_of_site (h : IsTriangle (site adj home p) t) {a : V} (ha : a ∈ t) (hap : home a ≠ p) :
    ∀ b ∈ t, b ≠ a → home b = p :=
  fun b hb hba => ((h.2 b hb a ha hba).2).resolve_right hap

theorem not_isTriangle_site (ht : Spread home t) (p : P) : ¬ IsTriangle (site adj home p) t := by
  intro h
  have hthree : 2 < t.card := by
    rw [h.1]
    decide
  obtain ⟨a, b, c, ha, hb, hc, hab, hac, hbc⟩ := two_lt_card_iff.1 hthree
  by_cases hap : home a = p
  · by_cases hbp : home b = p
    · exact ht a ha b hb hab (hap.trans hbp.symm)
    · exact ht a ha c hc hac (hap.trans (home_of_site h hb hbp c hc hbc.symm).symm)
  · have hb' := home_of_site h ha hap b hb hab.symm
    have hc' := home_of_site h ha hap c hc hac.symm
    exact ht b hb c hc hbc (hb'.trans hc'.symm)

theorem site_unique (hp : IsTriangle (site adj home p) t) (hq : IsTriangle (site adj home q) t) :
    p = q := by
  by_contra hne
  -- a vertex outside `p` forces the two others into `p`, and one of them is then outside `q`
  have hspread : Spread home t := by
    intro a ha b hb hab heq
    by_cases hap : home a = p
    · have haq : home a ≠ q := fun h => hne (hap.symm.trans h)
      exact haq (heq.trans (home_of_site hq ha haq b hb hab.symm))
    · exact hap (heq.trans (home_of_site hp ha hap b hb hab.symm))
  exact not_isTriangle_site hspread p hp

theorem isTriangle_site {a b : V} (ht : IsTriangle adj t) (ha : a ∈ t) (hb : b ∈ t) (hab : a ≠ b)
    (heq : home a = home b) : IsTriangle (site adj home (home a)) t := by
  classical
  refine ⟨ht.1, fun x hx y hy hxy => ⟨ht.2 x hx y hy hxy, ?_⟩⟩
  by_contra hnot
  obtain ⟨hxa, hya⟩ := not_or.1 hnot
  -- `x` and `y` would be two more vertices
  have hsub : {x, y, a, b} ⊆ t := by
    intro z hz
    simp only [Finset.mem_insert, mem_singleton] at hz
    rcases hz with rfl | rfl | rfl | rfl <;> assumption
  have hfour : ({x, y, a, b} : Finset V).card = 4 := by
    have hne : ∀ z, home z ≠ home a → z ≠ a ∧ z ≠ b := fun z hz =>
      ⟨fun h => hz (congrArg home h), fun h => hz ((congrArg home h).trans heq.symm)⟩
    simp [hxy, hne x hxa, hne y hya, hab]
  have hle := card_le_card hsub
  rw [ht.1] at hle
  omega

/-- **A triangle with two vertices in one partition belongs to one site.** -/
theorem existsUnique_site (ht : IsTriangle adj t) (hspread : ¬ Spread home t) :
    ∃! p, IsTriangle (site adj home p) t := by
  unfold Spread at hspread
  push Not at hspread
  obtain ⟨a, ha, b, hb, hab, heq⟩ := hspread
  have hsite := isTriangle_site ht ha hb hab heq
  exact ⟨home a, hsite, fun q hq => site_unique hq hsite⟩

/-! ## Cut edges -/

/-- Collections that cover every three partitions find every triangle of cut edges, and nothing
else. -/
theorem isTriangle_cut_iff_exists {ps : Finset P} (hps : ∀ a b, adj a b → home a ∈ ps)
    {cs : Set (Set P)} (hcs : ∀ c ⊆ ps, c.card = 3 → ∃ d ∈ cs, (c : Set P) ⊆ d) :
    IsTriangle (cut adj home) t ↔ ∃ c ∈ cs, IsTriangle (cutAt adj home c) t := by
  classical
  refine ⟨fun h => ?_, fun ⟨c, _, h⟩ => ⟨h.1, fun a ha b hb hab => (h.2 a ha b hb hab).1⟩⟩
  obtain ⟨hadj, hspread⟩ := isTriangle_cut.1 h
  have hcard : (t.image home).card = 3 := by
    rw [card_image_of_injOn, h.1]
    intro a ha b hb heq
    by_contra hab
    exact hspread a ha b hb hab heq
  have hsub : t.image home ⊆ ps := by
    intro p hp
    obtain ⟨a, ha, rfl⟩ := mem_image.1 hp
    obtain ⟨b, hb, hba⟩ := exists_mem_ne (by rw [h.1]; decide) a
    exact hps a b (hadj.2 a ha b hb hba.symm)
  obtain ⟨d, hd, hcd⟩ := hcs _ hsub hcard
  exact ⟨d, hd, h.1, fun a ha b hb hab =>
    ⟨h.2 a ha b hb hab, .inl (hcd (mem_image_of_mem home ha))⟩⟩

/-! ## The sum -/

open Classical in
theorem numTriangles_eq_card_filter {adj' : V → V → Prop} (hfin : {t | IsTriangle adj t}.Finite)
    (hsub : ∀ t, IsTriangle adj' t → IsTriangle adj t) :
    numTriangles adj' = (hfin.toFinset.filter (IsTriangle adj')).card := by
  rw [numTriangles, ← Set.ncard_coe_finset]
  congr 1
  ext t
  simp only [coe_filter, Set.Finite.mem_toFinset]
  exact ⟨fun h => ⟨hsub t h, h⟩, fun h => h.2⟩

/-- **Exactly once.** The triangles of the graph are those of the sites and those of the cut
edges. -/
theorem numTriangles_eq_sum_add {ps : Finset P} (hps : ∀ a b, adj a b → home a ∈ ps)
    (hfin : {t | IsTriangle adj t}.Finite) :
    numTriangles adj = ∑ p ∈ ps, numTriangles (site adj home p) + numTriangles (cut adj home) := by
  classical
  have hsplit : hfin.toFinset =
      (ps.biUnion fun p => hfin.toFinset.filter (IsTriangle (site adj home p))) ∪
        hfin.toFinset.filter (IsTriangle (cut adj home)) := by
    ext t
    simp only [mem_union, mem_biUnion, mem_filter, Set.Finite.mem_toFinset]
    refine ⟨fun ht => ?_, ?_⟩
    · by_cases hspread : Spread home t
      · exact .inr ⟨ht, isTriangle_cut.2 ⟨ht, hspread⟩⟩
      · obtain ⟨p, hp, -⟩ := existsUnique_site ht hspread
        obtain ⟨a, ha, b, hb, hab⟩ := one_lt_card.1 (by rw [ht.1]; decide : 1 < t.card)
        refine .inl ⟨p, ?_, ht, hp⟩
        rcases (hp.2 a ha b hb hab).2 with rfl | rfl
        · exact hps a b (ht.2 a ha b hb hab)
        · exact hps b a (ht.2 b hb a ha hab.symm)
    · rintro (⟨p, -, ht, -⟩ | ⟨ht, -⟩) <;> exact ht
  have hdisjoint : Disjoint
      (ps.biUnion fun p => hfin.toFinset.filter (IsTriangle (site adj home p)))
      (hfin.toFinset.filter (IsTriangle (cut adj home))) := by
    rw [disjoint_left]
    intro t ht hcut
    obtain ⟨p, -, hp⟩ := mem_biUnion.1 ht
    exact not_isTriangle_site (isTriangle_cut.1 (mem_filter.1 hcut).2).2 p
      (mem_filter.1 hp).2
  have hall : numTriangles adj = hfin.toFinset.card := Set.ncard_eq_toFinset_card _ hfin
  rw [hall, hsplit, card_union_of_disjoint hdisjoint, card_biUnion]
  · rw [numTriangles_eq_card_filter hfin fun t h => (isTriangle_cut.1 h).1]
    congr 1
    refine sum_congr rfl fun p _ => ?_
    exact (numTriangles_eq_card_filter hfin fun t => isTriangle_of_site).symm
  · intro p _ q _ hpq
    rw [Function.onFun, disjoint_left]
    intro t hp hq
    exact hpq (site_unique (mem_filter.1 hp).2 (mem_filter.1 hq).2)

end JasmineGraph.Graph
