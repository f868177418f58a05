import Mathlib

/-!
# Interleaved systems

A concurrent program is a function `step : ℓ → σ → Option σ`. A label names a thread together with
the atomic action it takes next, and `none` says that the action is not enabled: the thread stands
elsewhere, waits for a lock or a condition, or the process has died. A schedule is a list of
labels, so a statement about every schedule is a statement about every interleaving.

* `run step ls s`: the state after the schedule `ls`, if every one of its steps was enabled.
* `Meets step C ls s`: every step of the schedule is taken in a state that satisfies `C`.
-/

namespace JasmineGraph.Schedule

open Finset Function

variable {σ ℓ : Type*} {step : ℓ → σ → Option σ} {C : ℓ → σ → Prop} {l : ℓ} {ls ls' : List ℓ}
  {s t : σ}

/-- The state after a schedule; `none` when one of its steps was not enabled. -/
def run (step : ℓ → σ → Option σ) : List ℓ → σ → Option σ
  | [], s => some s
  | l :: ls, s => (step l s).bind (run step ls)

@[simp] theorem run_nil : run step [] s = some s := rfl

theorem run_cons_eq_some :
    run step (l :: ls) s = some t ↔ ∃ u, step l s = some u ∧ run step ls u = some t :=
  Option.bind_eq_some_iff

theorem run_append : run step (ls ++ ls') s = (run step ls s).bind (run step ls') := by
  induction ls generalizing s with
  | nil => rfl
  | cons l ls ih =>
    simp only [List.cons_append, run]
    cases step l s with
    | none => rfl
    | some u => exact ih

theorem run_append_eq_some :
    run step (ls ++ ls') s = some t ↔ ∃ u, run step ls s = some u ∧ run step ls' u = some t := by
  rw [run_append]
  exact Option.bind_eq_some_iff

/-- Every step of the schedule is taken in a state that satisfies `C`. -/
def Meets (step : ℓ → σ → Option σ) (C : ℓ → σ → Prop) : List ℓ → σ → Prop
  | [], _ => True
  | l :: ls, s => C l s ∧ ∀ t, step l s = some t → Meets step C ls t

instance Meets.decidable [∀ l s, Decidable (C l s)] : ∀ ls s, Decidable (Meets step C ls s)
  | [], _ => isTrue trivial
  | l :: ls, s =>
    match h : step l s with
    | none => decidable_of_iff (C l s) (by simp [Meets, h])
    | some t =>
      have := decidable ls t
      decidable_of_iff (C l s ∧ Meets step C ls t) (by simp [Meets, h])

theorem Meets.cons (hl : C l s) (hstep : step l s = some t) (h : Meets step C ls t) :
    Meets step C (l :: ls) s :=
  ⟨hl, fun _ ht => Option.some.inj (hstep.symm.trans ht) ▸ h⟩

theorem Meets.of_forall (h : ∀ l ∈ ls, ∀ s, C l s) (s : σ) : Meets step C ls s := by
  induction ls generalizing s with
  | nil => trivial
  | cons l ls ih =>
    exact ⟨h l List.mem_cons_self s, fun t _ => ih (fun k hk => h k (List.mem_cons_of_mem l hk)) t⟩

variable {I : σ → Prop}

theorem Meets.of_invariant (hstep : ∀ l s t, I s → step l s = some t → I t)
    (hC : ∀ l s, I s → C l s) (ls : List ℓ) (hs : I s) : Meets step C ls s := by
  induction ls generalizing s with
  | nil => trivial
  | cons l ls ih => exact ⟨hC l s hs, fun t ht => ih (hstep l s t hs ht)⟩

/-- **A run preserves what its steps preserve.** -/
theorem Meets.invariant (hstep : ∀ l s t, I s → C l s → step l s = some t → I t)
    (hC : Meets step C ls s) (hrun : run step ls s = some t) (hs : I s) : I t := by
  induction ls generalizing s with
  | nil =>
    cases hrun
    exact hs
  | cons l ls ih =>
    obtain ⟨u, hu, hrun⟩ := run_cons_eq_some.1 hrun
    exact ih (hC.2 u hu) hrun (hstep l s u hs hC.1 hu)

theorem Meets.imp {D : ℓ → σ → Prop} (hstep : ∀ l s t, I s → C l s → step l s = some t → I t)
    (hD : ∀ l s, I s → C l s → D l s) (hC : Meets step C ls s) (hs : I s) : Meets step D ls s := by
  induction ls generalizing s with
  | nil => trivial
  | cons l ls ih =>
    exact ⟨hD l s hs hC.1, fun t ht => ih (hC.2 t ht) (hstep l s t hs hC.1 ht)⟩

theorem run_invariant (hstep : ∀ l s t, I s → step l s = some t → I t)
    (hrun : run step ls s = some t) (hs : I s) : I t :=
  Meets.invariant (fun l s t hI _ => hstep l s t hI)
    (Meets.of_forall (fun _ _ _ => trivial) s) hrun hs

theorem Meets.iff {I P : σ → Prop} (hI : ∀ l s t, I s → C l s → step l s = some t → I t)
    (hP : ∀ l s t, I s → C l s → step l s = some t → (P t ↔ P s))
    (hC : Meets step C ls s) (hrun : run step ls s = some t) (hs : I s) : P t ↔ P s := by
  refine (Meets.invariant (I := fun u => I u ∧ (P u ↔ P s)) (fun l u v hu hl hv => ?_) hC hrun
    ⟨hs, .rfl⟩).2
  exact ⟨hI l u v hu.1 hl hv, (hP l u v hu.1 hl hv).trans hu.2⟩

/-- A property that a step keeps exactly under its side condition holds at the end of a run exactly
if it held at the start and every step met the condition. -/
theorem run_iff_meets {I P : σ → Prop}
    (hstep : ∀ l s t, I s → step l s = some t → I t ∧ (P t ↔ P s ∧ C l s))
    (hrun : run step ls s = some t) (hs : I s) : P t ↔ P s ∧ Meets step C ls s := by
  induction ls generalizing s with
  | nil =>
    cases hrun
    exact (and_iff_left trivial).symm
  | cons l ls ih =>
    obtain ⟨u, hu, hrun⟩ := run_cons_eq_some.1 hrun
    obtain ⟨hI, hP⟩ := hstep l s u hs hu
    rw [ih hrun hI, hP, and_assoc]
    refine and_congr_right fun _ => and_congr_right fun _ => ⟨fun h v hv => ?_, fun h => h u hu⟩
    cases hu.symm.trans hv
    exact h

/-- Until the first occurrence of a label, what the other steps preserve is preserved and what they
do not change is not changed. -/
theorem run_until {I P : σ → Prop} {last : ℓ}
    (hstep : ∀ l s t, I s → l ≠ last → step l s = some t → I t ∧ (P t ↔ P s))
    (hls : last ∉ ls) (hrun : run step (ls ++ [last]) s = some t) (hs : I s) :
    ∃ u, I u ∧ (P u ↔ P s) ∧ step last u = some t := by
  obtain ⟨u, hu, hlast⟩ := run_append_eq_some.1 hrun
  obtain ⟨t', ht, hnil⟩ := run_cons_eq_some.1 hlast
  cases hnil
  have hmeets : Meets step (fun l _ => l ≠ last) ls s :=
    Meets.of_forall (fun l hl _ => ne_of_mem_of_not_mem hl hls) s
  have hI : ∀ l s t, I s → l ≠ last → step l s = some t → I t :=
    fun l s t hs hl h => (hstep l s t hs hl h).1
  exact ⟨u, hmeets.invariant hI hu hs,
    hmeets.iff hI (fun l s t hs hl h => (hstep l s t hs hl h).2) hu hs, ht⟩

theorem Meets.length_le {m : σ → Nat}
    (hstep : ∀ l s t, I s → C l s → step l s = some t → I t ∧ m t < m s) (hC : Meets step C ls s)
    (hrun : run step ls s = some t) (hs : I s) : ls.length + m t ≤ m s := by
  induction ls generalizing s with
  | nil =>
    cases hrun
    exact (Nat.zero_add _).le
  | cons l ls ih =>
    obtain ⟨u, hu, hrun⟩ := run_cons_eq_some.1 hrun
    obtain ⟨hI, hm⟩ := hstep l s u hs hC.1 hu
    have hrest := ih (hC.2 u hu) hrun hI
    rw [List.length_cons]
    omega

theorem run_length_le {m : σ → Nat} (hstep : ∀ l s t, step l s = some t → m t < m s)
    (hrun : run step ls s = some t) : ls.length + m t ≤ m s :=
  Meets.length_le
    (fun l s t _ _ h => ⟨trivial, hstep l s t h⟩)
    (Meets.of_forall (fun _ _ _ => trivial) s) hrun trivial

theorem exists_run_of_length (hlive : ∀ ls t, run step ls s = some t → ∃ l u, step l t = some u)
    (n : Nat) : ∃ ls t, ls.length = n ∧ run step ls s = some t := by
  induction n with
  | zero => exact ⟨[], s, rfl, rfl⟩
  | succ n ih =>
    obtain ⟨ls, t, hlen, hrun⟩ := ih
    obtain ⟨l, u, hstep⟩ := hlive ls t hrun
    refine ⟨ls ++ [l], u, ?_, run_append_eq_some.2 ⟨t, hrun, run_cons_eq_some.2 ⟨u, hstep, rfl⟩⟩⟩
    rw [List.length_append, hlen]
    rfl

/-! ## Where runs end -/

def Halts (step : ℓ → σ → Option σ) (s : σ) : Prop := ∀ l, step l s = none

/-- Wherever a run from here ends, `Q` holds. -/
def EndsIn (step : ℓ → σ → Option σ) (Q : σ → Prop) (s : σ) : Prop :=
  ∀ ls t, run step ls s = some t → Halts step t → Q t

theorem endsIn_of_halts {Q : σ → Prop} (h : Halts step s) : EndsIn step Q s ↔ Q s := by
  refine ⟨fun hends => hends [] s rfl h, fun hQ ls t hrun _ => ?_⟩
  cases ls with
  | nil => exact Option.some.inj hrun ▸ hQ
  | cons l ls =>
    obtain ⟨u, hu, -⟩ := run_cons_eq_some.1 hrun
    exact absurd ((h l).symm.trans hu) nofun

/-- Where only one action is enabled, runs end as they do from its target. -/
theorem endsIn_step {Q : σ → Prop} (hl : step l s = some t) (honly : ∀ k, k ≠ l → step k s = none) :
    EndsIn step Q s ↔ EndsIn step Q t := by
  refine ⟨fun h ls u hrun => h (l :: ls) u (run_cons_eq_some.2 ⟨t, hl, hrun⟩),
    fun h ls u hrun hhalts => ?_⟩
  cases ls with
  | nil =>
    cases hrun
    exact absurd ((hhalts l).symm.trans hl) nofun
  | cons k ls =>
    obtain ⟨v, hv, hrun⟩ := run_cons_eq_some.1 hrun
    by_cases hk : k = l
    · subst hk
      cases hl.symm.trans hv
      exact h ls u hrun hhalts
    · exact absurd ((honly k hk).symm.trans hv) nofun

/-! ## Components

A system of many like threads is a function from their names to their states; a step of one thread
updates it at one name. -/

section Components

variable {ι α : Type*} [DecidableEq ι] {f : ι → α} {i : ι} {a : α}

theorem forall_update {P : ι → α → Prop} (h : ∀ j, P j (f j)) (hi : P i a) :
    ∀ j, P j (update f i a j) :=
  (forall_update_iff f P).2 ⟨hi, fun j _ => h j⟩

/-- A step that keeps a property of its own component keeps it for every component. -/
theorem update_iff {P : ι → α → Prop} (hi : P i a ↔ P i (f i)) (j : ι) :
    P j (update f i a j) ↔ P j (f j) := by
  by_cases hj : j = i
  · subst hj
    rwa [update_self]
  · rw [update_of_ne hj]

theorem forall_update_iff {P : ι → α → Prop} (hi : P i a ↔ P i (f i)) :
    (∀ j, P j (Function.update f i a j)) ↔ ∀ j, P j (f j) :=
  forall_congr' (update_iff hi)

theorem sum_update [Fintype ι] {M : Type*} [AddCommMonoid M] (g : ι → α → M) (f : ι → α) (i : ι)
    (a : α) :
    ∑ j, g j (update f i a j) + g i (f i) = ∑ j, g j (f j) + g i a := by
  have hrest : ∑ j ∈ univ.erase i, g j (update f i a j) = ∑ j ∈ univ.erase i, g j (f j) := by
    refine sum_congr rfl fun j hj => ?_
    rw [update_of_ne (ne_of_mem_erase hj)]
  rw [← add_sum_erase _ _ (mem_univ i), hrest, update_self,
    ← add_sum_erase univ (fun j => g j (f j)) (mem_univ i), add_right_comm,
    add_comm (g i a), add_right_comm]

/-- How a step of one thread changes the number of threads in a phase. -/
theorem card_update [Fintype ι] (P : ι → α → Prop) [∀ j b, Decidable (P j b)] (f : ι → α) (i : ι)
    (a : α) :
    (univ.filter fun j => P j (update f i a j)).card + (if P i (f i) then 1 else 0) =
      (univ.filter fun j => P j (f j)).card + if P i a then 1 else 0 := by
  rw [card_filter, card_filter]
  exact sum_update (fun j b => if P j b then 1 else 0) f i a

end Components

end JasmineGraph.Schedule
