import JasmineGraph.Executor.AllocPlan

/-!
# Partitions without a free holder: `reallocate_parts` and `alloc_net_plan`

The model of the two functions of `frontend/core/executor/impl/TriangleCountExecutor.cpp` that deal
with what `alloc_plan` could not allocate.

`reallocate_parts` takes a worker from a partition with few replicas for one with more, so that the
partitions to be copied are those with few replicas. `alloc_net_plan` then chooses for each of these
a worker with the least load and a holder to transfer it from, and looks for the choice with the
least network load of a worker. It starts from `best = 100000000` and ignores workers with a load
above `minLoad`, which starts at 100000000 as well.

The vectors `remain_l` and `copying` are used at their backs; their lists have the back first.
-/

namespace JasmineGraph.Executor.TriangleCount

open List Function

/-! ## `reallocate_parts` -/

section Reallocate

variable (holders : PartitionId → List WorkerId)

/-- The inner loop: the partition whose worker `p₀` takes, if any. -/
def exchangeFor (alloc : PartitionId → Option WorkerId) (p₀ : PartitionId) :
    List PartitionId → Option PartitionId
  | [] => none
  | p :: ps =>
    if (holders p₀).length ≤ (holders p).length then none
    else
      match alloc p with
      | none => exchangeFor alloc p₀ ps
      | some w => if w ∈ holders p₀ then some p else exchangeFor alloc p₀ ps

variable {holders} {alloc : PartitionId → Option WorkerId} {p p₀ : PartitionId}
  {ps : List PartitionId}

theorem of_exchangeFor (h : exchangeFor holders alloc p₀ ps = some p) :
    (holders p).length < (holders p₀).length ∧ ∃ w, alloc p = some w ∧ w ∈ holders p₀ := by
  induction ps with
  | nil => cases h
  | cons q ps ih =>
    rw [exchangeFor] at h
    split_ifs at h with hle
    cases hq : alloc q with
    | none =>
      rw [hq] at h
      exact ih h
    | some w =>
      simp only [hq] at h
      split_ifs at h with hw
      · cases h
        exact ⟨not_le.1 hle, w, hq, hw⟩
      · exact ih h

variable (holders) in
def reallocate (ps : List PartitionId) (alloc : PartitionId → Option WorkerId) :
    List PartitionId → List PartitionId → (PartitionId → Option WorkerId) × List PartitionId
  | [], copying => (alloc, copying)
  | p₀ :: remain, copying =>
    if (holders p₀).length = 1 then reallocate ps alloc remain (p₀ :: copying)
    else
      match _hexchange : exchangeFor holders alloc p₀ ps with
      | none => reallocate ps alloc remain (p₀ :: copying)
      | some p =>
        reallocate ps (Function.update (Function.update alloc p none) p₀ (alloc p)) (p :: remain)
          copying
termination_by remain => (remain.map fun p => (holders p).length + 1).sum
decreasing_by
  · simp
  · simp
  · have := (of_exchangeFor _hexchange).1
    simp only [map_cons, sum_cons]
    omega

variable (holders) in
/-- The comparator of `remain_l`: partitions with more copies go first. -/
def moreCopies (p₁ p₂ : PartitionId) : Bool := decide ((holders p₂).length < (holders p₁).length)

variable (holders) in
def fewerCopies (p₁ p₂ : PartitionId) : Bool := decide ((holders p₁).length < (holders p₂).length)

variable (holders) in
def reallocateParts (sort : StdSort) (alloc : PartitionId → Option WorkerId)
    (remain partitions : List PartitionId) :
    Option ((PartitionId → Option WorkerId) × List PartitionId) :=
  match sort.sort (moreCopies holders) remain, sort.sort (fewerCopies holders) partitions with
  | some remainL, some ps => some (reallocate holders ps alloc remainL.reverse [])
  | _, _ => none

structure Divides (partitions : List PartitionId) (holders : PartitionId → List WorkerId)
    (given : WorkerId → Nat) (alloc : PartitionId → Option WorkerId)
    (remain copying : List PartitionId) : Prop where
  nodup : (remain ++ copying).Nodup
  listed_iff : ∀ p, p ∈ remain ++ copying ↔ p ∈ partitions ∧ alloc p = none
  placed : ∀ p w, alloc p = some w → p ∈ partitions ∧ w ∈ holders p ∧ given w < 3

variable {partitions remain copying : List PartitionId} {given : WorkerId → Nat}

theorem Divides.copy (h : Divides partitions holders given alloc (p :: remain) copying) :
    Divides partitions holders given alloc remain (p :: copying) := by
  have hperm : (remain ++ p :: copying).Perm (p :: remain ++ copying) := perm_middle
  exact ⟨hperm.nodup_iff.2 h.nodup, fun q => hperm.mem_iff.trans (h.listed_iff q), h.placed⟩

theorem Divides.exchange (h : Divides partitions holders given alloc (p₀ :: remain) copying)
    (hlt : (holders p).length < (holders p₀).length) {w : WorkerId} (hw : alloc p = some w)
    (hw₀ : w ∈ holders p₀) :
    Divides partitions holders given (Function.update (Function.update alloc p none) p₀ (alloc p))
      (p :: remain) copying := by
  have hne : p ≠ p₀ := fun heq => absurd hlt (by rw [heq]; exact lt_irrefl _)
  obtain ⟨hmem₀, -⟩ := (h.listed_iff p₀).1 (by simp)
  obtain ⟨hmem, -, hgiven⟩ := h.placed p w hw
  have hnotMem : p ∉ remain ++ copying := by
    intro hp
    have := ((h.listed_iff p).1 (mem_cons_of_mem _ hp)).2
    rw [hw] at this
    cases this
  have hnotMem₀ : p₀ ∉ remain ++ copying := (nodup_cons.1 h.nodup).1
  have halloc : ∀ q, Function.update (Function.update alloc p none) p₀ (alloc p) q =
      if q = p₀ then some w else if q = p then none else alloc q := by
    intro q
    rw [update_apply, update_apply, hw]
  refine ⟨nodup_cons.2 ⟨hnotMem, (nodup_cons.1 h.nodup).2⟩, fun q => ?_, ?_⟩
  · rw [halloc]
    by_cases hq₀ : q = p₀
    · subst hq₀
      simp [hne.symm, hnotMem₀]
    by_cases hqp : q = p
    · subst hqp
      simp [hq₀, hmem]
    · have := h.listed_iff q
      simpa [hq₀, hqp] using this
  · intro q w' hq
    rw [halloc] at hq
    split_ifs at hq with hq₀
    · cases hq
      exact hq₀ ▸ ⟨hmem₀, hw₀, hgiven⟩
    · exact h.placed q w' hq

/-- **The loop keeps the division** and the number of partitions without a worker, and permutes the
allocation. -/
theorem reallocate_divides (ps : List PartitionId)
    (h : Divides partitions holders given alloc remain copying) :
    Divides partitions holders given (reallocate holders ps alloc remain copying).1 []
        (reallocate holders ps alloc remain copying).2 ∧
      (reallocate holders ps alloc remain copying).2.length = remain.length + copying.length ∧
      ∃ σ : Equiv.Perm PartitionId, (reallocate holders ps alloc remain copying).1 = alloc ∘ σ := by
  fun_induction reallocate holders ps alloc remain copying with
  | case1 alloc copying => exact ⟨h, by simp, 1, rfl⟩
  | case2 alloc p₀ remain copying _ ih =>
    obtain ⟨hd, hlen, hσ⟩ := ih h.copy
    refine ⟨hd, ?_, hσ⟩
    rw [hlen, length_cons, length_cons]
    omega
  | case3 alloc p₀ remain copying _ _ ih =>
    obtain ⟨hd, hlen, hσ⟩ := ih h.copy
    refine ⟨hd, ?_, hσ⟩
    rw [hlen, length_cons, length_cons]
    omega
  | case4 alloc p₀ remain copying _ p hexchange ih =>
    obtain ⟨hlt, w, hw, hw₀⟩ := of_exchangeFor hexchange
    obtain ⟨hd, hlen, σ, hσ⟩ := ih (h.exchange hlt hw hw₀)
    refine ⟨hd, hlen, σ.trans (Equiv.swap p₀ p), ?_⟩
    have halloc : alloc p₀ = none := ((h.listed_iff p₀).1 mem_cons_self).2
    rw [hσ, Equiv.coe_trans, ← comp_assoc, Equiv.comp_swap_eq_update, halloc]

theorem strictWeakOn_moreCopies (holders : PartitionId → List WorkerId) (l : List PartitionId) :
    StrictWeakOn (moreCopies holders) l :=
  strictWeakOn_of_key (fun p => OrderDual.toDual (holders p).length)
    (fun p₁ p₂ => by rw [moreCopies, decide_eq_true_eq, OrderDual.toDual_lt_toDual]) l

theorem strictWeakOn_fewerCopies (holders : PartitionId → List WorkerId) (l : List PartitionId) :
    StrictWeakOn (fewerCopies holders) l :=
  strictWeakOn_of_key (fun p => (holders p).length) (fun _ _ => decide_eq_true_iff) l

theorem reallocateParts_divides (sort : StdSort)
    (h : Divides partitions holders given alloc remain []) (keys : List PartitionId) :
    ∃ alloc' copying, reallocateParts holders sort alloc remain keys = some (alloc', copying) ∧
      Divides partitions holders given alloc' [] copying ∧ copying.length = remain.length ∧
      ∃ σ : Equiv.Perm PartitionId, alloc' = alloc ∘ σ := by
  obtain ⟨remainL, hremainL, hperm, -⟩ := sort.sorts (strictWeakOn_moreCopies holders remain)
  obtain ⟨ps, hps, -⟩ := sort.sorts (strictWeakOn_fewerCopies holders keys)
  have hmem : (remainL.reverse ++ []).Perm (remain ++ []) :=
    ((reverse_perm remainL).trans hperm).append_right []
  have hstart : Divides partitions holders given alloc remainL.reverse [] :=
    ⟨hmem.nodup_iff.2 h.nodup, fun p => hmem.mem_iff.trans (h.listed_iff p), h.placed⟩
  obtain ⟨hdivides, hlength, hσ⟩ := reallocate_divides ps hstart
  refine ⟨_, _, by simp only [reallocateParts, hremainL, hps], hdivides, hlength.trans ?_, hσ⟩
  rw [length_nil, Nat.add_zero, length_reverse, hperm.length_eq]

theorem Legal.divides {s : Plan} (hs : Legal partitions holders given s) :
    Divides partitions holders given s.alloc s.remain [] :=
  ⟨by simpa using hs.nodup, fun p => by simpa using hs.remain_iff p, hs.placed⟩

/-- **`reallocate_parts` permutes the allocation**, for any order of equals that the sort leaves:
the partitions are divided anew between the holders and the copies, with as many on each worker and
as many to be copied as before. -/
theorem reallocateParts_permutes (sort : StdSort) {allocated : List PartitionId}
    (hallocated : ∀ p, p ∈ allocated ↔ alloc p ≠ none) (hnodup : remain.Nodup)
    (hremain : ∀ p ∈ remain, alloc p = none) (hplaced : ∀ p w, alloc p = some w → w ∈ holders p)
    (keys : List PartitionId) :
    ∃ alloc' copying, reallocateParts holders sort alloc remain keys = some (alloc', copying) ∧
      copying.Nodup ∧ copying.length = remain.length ∧
      (∀ p, p ∈ copying ↔ p ∈ allocated ++ remain ∧ alloc' p = none) ∧
      (∀ p w, alloc' p = some w → p ∈ allocated ++ remain ∧ w ∈ holders p) ∧
      ∀ w, {p | alloc' p = some w}.encard = {p | alloc p = some w}.encard := by
  have hstart : Divides (allocated ++ remain) holders (fun _ => 0) alloc remain [] := by
    refine ⟨by simpa using hnodup, fun p => ?_, fun p w hp => ⟨?_, hplaced p w hp, by decide⟩⟩
    · have := hallocated p
      simp only [mem_append]
      tauto
    · exact mem_append_left _ ((hallocated p).2 (by simp [hp]))
  obtain ⟨_, copying, heq, hdivides, hlength, σ, rfl⟩ := reallocateParts_divides sort hstart keys
  exact ⟨_, copying, heq, hdivides.nodup, hlength, hdivides.listed_iff,
    fun p w hp => (hdivides.placed p w hp).imp_right And.left,
    fun w => Set.encard_preimage_of_bijective σ.bijective {p | alloc p = some w}⟩

theorem reallocateParts_permutes_pair :
    ∃ alloc copying, reallocateParts (fun p => if p = 1 then [[1]] else [[1], [2]]) .lenient
      (fun p => if p = 1 then some [1] else none) [2] [1, 2] = some (alloc, copying) ∧
        copying.Nodup ∧ copying.length = 1 := by
  obtain ⟨alloc, copying, h, hnodup, hlength, -⟩ := @reallocateParts_permutes
    (fun p => if p = 1 then [[1]] else [[1], [2]]) (fun p => if p = 1 then some [1] else none)
    [2] .lenient [1] (by simp) (by simp) (by simp) (by simp) [1, 2]
  exact ⟨alloc, copying, h, hnodup, hlength⟩

end Reallocate

/-! ## `alloc_net_plan` -/

/-- What `alloc_net_plan` passes around by reference. -/
structure NetPlan where
  alloc : PartitionId → Option WorkerId
  transfer : PartitionId → Option (WorkerId × WorkerId)
  netLoads : WorkerId → Nat
  loads : WorkerId → Nat

def byLoad (loads : WorkerId → Nat) (w₁ w₂ : WorkerId) : Bool :=
  if loads w₁ < 3 ∨ loads w₂ < 3 then decide (loads w₁ < loads w₂)
  else decide (loads w₁ ≤ loads w₂)

def minLoad (workers : List WorkerId) (loads : WorkerId → Nat) : Nat :=
  workers.foldl (fun m w => if loads w < m then loads w else m) 100000000

def candidates (holders wts : List WorkerId) (loads : WorkerId → Nat) (least : Nat) :
    List (WorkerId × WorkerId) :=
  holders.flatMap fun wf => (wts.filter fun wt => decide (loads wt ≤ least)).map fun wt => (wf, wt)

def bump (loads : WorkerId → Nat) (w : WorkerId) : WorkerId → Nat :=
  Function.update loads w (loads w + 1)

/-- `p` goes to `wt`, and is transferred from `wf` unless they are the same worker. -/
def place (p : PartitionId) (wf wt : WorkerId) (s : NetPlan) : NetPlan where
  alloc := Function.update s.alloc p (some wt)
  transfer := if wf = wt then s.transfer else Function.update s.transfer p (some (wf, wt))
  netLoads := if wf = wt then s.netLoads else bump (bump s.netLoads wf) wt
  loads := bump s.loads wt

/-- The two nested loops, `plan` being the recursive call with the best network load so far. -/
def tryTransfers (plan : WorkerId × WorkerId → Nat → Option (Nat × NetPlan)) :
    List (WorkerId × WorkerId) → Nat → NetPlan → Option (Nat × NetPlan)
  | [], best, bestPlan => some (best, bestPlan)
  | c :: cs, best, bestPlan =>
    match plan c best with
    | none => none
    | some (newNetLoad, s₂) =>
      if newNetLoad < best then tryTransfers plan cs newNetLoad s₂
      else tryTransfers plan cs best bestPlan

def NetPlan.adopt (s best : NetPlan) : NetPlan :=
  { best with transfer := fun q => (best.transfer q).or (s.transfer q) }

/-- `alloc_net_plan` with the ids in `net_loads` and `loads`. The best plan starts with an empty
allocation. -/
def allocNetPlan (sort : StdSort) (workers : List WorkerId)
    (holders : PartitionId → List WorkerId) :
    List PartitionId → NetPlan → Nat → Option (Nat × NetPlan)
  | parts, s, currBest =>
    match (workers.map s.netLoads).max? with
    | none => none
    | some currLoad =>
      if currBest ≤ currLoad then some (currLoad, s)
      else
        match parts with
        | [] => some (currLoad, s)
        | p :: parts =>
          match sort.sort (byLoad s.loads) workers with
          | none => none
          | some wts =>
            (tryTransfers
              (fun c best => allocNetPlan sort workers holders parts (place p c.1 c.2 s) best)
              (candidates (holders p) wts s.loads (minLoad workers s.loads)) currBest
              { s with alloc := fun _ => none }).map fun r => (r.1, s.adopt r.2)

/-- The outcome of the loops: nothing better than before, or the plan of one of the candidates; and
at most what a candidate gives to any bound above it. -/
theorem tryTransfers_spec {plan : WorkerId × WorkerId → Nat → Option (Nat × NetPlan)}
    {cs : List (WorkerId × WorkerId)} (hplan : ∀ c ∈ cs, ∀ best, (plan c best).isSome)
    (best : Nat) (bestPlan : NetPlan) :
    ∃ n s', tryTransfers plan cs best bestPlan = some (n, s') ∧ n ≤ best ∧
      ((n, s') = (best, bestPlan) ∨ n < best ∧ ∃ c ∈ cs, ∃ b, plan c b = some (n, s') ∧ n < b) ∧
      ∀ c ∈ cs, ∀ k < best, (∀ b, k < b → ∀ n' s₂, plan c b = some (n', s₂) → n' ≤ k) → n ≤ k := by
  induction cs generalizing best bestPlan with
  | nil => exact ⟨best, bestPlan, rfl, le_rfl, .inl rfl, nofun⟩
  | cons c cs ih =>
    have hcs := fun c' hc' => hplan c' (mem_cons_of_mem _ hc')
    obtain ⟨⟨n₀, s₀⟩, hc⟩ := Option.isSome_iff_exists.1 (hplan c mem_cons_self best)
    by_cases hlt : n₀ < best
    · obtain ⟨n, s', heq, hle, hfrom, hmin⟩ := ih hcs n₀ s₀
      refine ⟨n, s', ?_, hle.trans hlt.le, .inr ⟨Nat.lt_of_le_of_lt hle hlt, ?_⟩, ?_⟩
      · simp only [tryTransfers, hc, if_pos hlt, heq]
      · rcases hfrom with h | ⟨-, c', hc', b, hb⟩
        · cases h
          exact ⟨c, mem_cons_self, best, hc, hlt⟩
        · exact ⟨c', mem_cons_of_mem _ hc', b, hb⟩
      · intro c' hc' k hk hbound
        rcases mem_cons.1 hc' with rfl | hc'
        · exact hle.trans (hbound best hk n₀ s₀ hc)
        · by_cases hk₀ : k < n₀
          · exact hmin c' hc' k hk₀ hbound
          · exact hle.trans (not_lt.1 hk₀)
    · obtain ⟨n, s', heq, hle, hfrom, hmin⟩ := ih hcs best bestPlan
      refine ⟨n, s', ?_, hle, ?_, ?_⟩
      · simp only [tryTransfers, hc, if_neg hlt, heq]
      · refine hfrom.imp_right fun ⟨hn, c', hc', hb⟩ => ⟨hn, c', mem_cons_of_mem _ hc', hb⟩
      · intro c' hc' k hk hbound
        rcases mem_cons.1 hc' with rfl | hc'
        · exact absurd (hbound best hk n₀ s₀ hc) (by omega)
        · exact hmin c' hc' k hk hbound

section NetPlan

variable {workers : List WorkerId} {holders : PartitionId → List WorkerId} {s s' : NetPlan}
  {p : PartitionId} {parts : List PartitionId} {wf wt : WorkerId} {loads : WorkerId → Nat}

/-! ## The least load -/

theorem minLoad_le (workers : List WorkerId) (loads : WorkerId → Nat) :
    minLoad workers loads ≤ 100000000 := by
  refine foldlRecOn (motive := fun m => m ≤ 100000000) workers _ le_rfl ?_
  intro m hm w _
  split_ifs <;> omega

theorem minLoad_attained (workers : List WorkerId) (loads : WorkerId → Nat) :
    minLoad workers loads = 100000000 ∨ ∃ w ∈ workers, loads w = minLoad workers loads := by
  refine foldlRecOn (motive := fun m => m = 100000000 ∨ ∃ w ∈ workers, loads w = m) workers _
    (.inl rfl) ?_
  intro m hm w hw
  split_ifs
  · exact .inr ⟨w, hw, rfl⟩
  · exact hm

theorem exists_load_le_minLoad {w : WorkerId} (hw : w ∈ workers) (hload : loads w ≤ 100000000) :
    ∃ wt ∈ workers, loads wt ≤ minLoad workers loads := by
  rcases minLoad_attained workers loads with heq | ⟨wt, hwt, heq⟩
  · exact ⟨w, hw, heq ▸ hload⟩
  · exact ⟨wt, hwt, heq.le⟩

/-! ## Room below the bound -/

/-- How many partitions the workers can take before all loads are above the bound. -/
def capacity (workers : List WorkerId) (loads : WorkerId → Nat) : Nat :=
  (workers.map fun w => 100000001 - loads w).sum

theorem le_capacity (loads : WorkerId → Nat) {w : WorkerId} (hw : w ∈ workers) :
    100000001 - loads w ≤ capacity workers loads :=
  single_le_sum (fun _ _ => Nat.zero_le _) _ (mem_map_of_mem hw)

theorem exists_load_le_of_capacity (h : 0 < capacity workers loads) :
    ∃ w ∈ workers, loads w ≤ 100000000 := by
  by_contra hnone
  push Not at hnone
  have hzero : capacity workers loads = 0 := by
    rw [capacity, sum_eq_zero]
    intro x hx
    obtain ⟨w, hw, rfl⟩ := mem_map.1 hx
    have := hnone w hw
    omega
  omega

theorem capacity_bump (hnodup : workers.Nodup) (hwt : wt ∈ workers) (hload : loads wt ≤ 100000000) :
    capacity workers (bump loads wt) + 1 = capacity workers loads := by
  have hperm : ∀ loads, capacity workers loads =
      100000001 - loads wt + capacity (workers.erase wt) loads := fun loads => by
    rw [capacity, ((perm_cons_erase hwt).map _).sum_eq, map_cons, sum_cons, capacity]
  have hrest : capacity (workers.erase wt) (bump loads wt) = capacity (workers.erase wt) loads := by
    refine congrArg sum (map_congr_left fun w hw => ?_)
    rw [bump, update_of_ne (hnodup.mem_erase_iff.1 hw).1]
  rw [hperm, hperm loads, hrest, bump, update_self]
  omega

/-! ## The network load -/

theorem netLoads_place_le (w : WorkerId) : (place p wf wt s).netLoads w ≤ s.netLoads w + 1 := by
  simp only [place]
  split_ifs with heq
  · omega
  · simp only [bump, update_apply, if_neg (Ne.symm heq)]
    split_ifs <;> subst_vars <;> omega

theorem exists_max?_netLoads (hne : workers ≠ []) (s : NetPlan) :
    ∃ n, (workers.map s.netLoads).max? = some n :=
  Option.isSome_iff_exists.1 (List.isSome_max?_of_ne_nil fun h => hne (map_eq_nil_iff.1 h))

theorem max?_netLoads_place_le {n n' : Nat} (h : (workers.map s.netLoads).max? = some n)
    (h' : (workers.map (place p wf wt s).netLoads).max? = some n') : n' ≤ n + 1 := by
  obtain ⟨w, hw, rfl⟩ := mem_map.1 (max?_eq_some_iff.1 h').1
  have := (max?_eq_some_iff.1 h).2 _ (mem_map_of_mem hw)
  exact (netLoads_place_le w).trans (Nat.add_le_add_right this 1)

/-! ## What a plan places -/

/-- From `s` to `s'` the partitions of the list were placed and nothing else changed: each is with
one of its holders, or with a worker to which one of its holders is to transfer it. -/
structure Places (holders : PartitionId → List WorkerId) (parts : List PartitionId)
    (s s' : NetPlan) : Prop where
  alloc_of_notMem : ∀ q ∉ parts, s'.alloc q = s.alloc q
  transfer_of_notMem : ∀ q ∉ parts, s'.transfer q = s.transfer q
  placed : ∀ q ∈ parts, ∃ wt, s'.alloc q = some wt ∧
    (wt ∈ holders q ∧ s'.transfer q = s.transfer q ∨ ∃ wf ∈ holders q, s'.transfer q = some (wf, wt))

theorem transfer_place_of_ne {q : PartitionId} (hq : q ≠ p) :
    (place p wf wt s).transfer q = s.transfer q := by
  simp only [place]
  split_ifs
  · rfl
  · exact update_of_ne hq _ _

theorem transfer_place_self (p : PartitionId) (wf wt : WorkerId) (s : NetPlan) :
    (place p wf wt s).transfer p = if wf = wt then s.transfer p else some (wf, wt) := by
  simp only [place]
  split_ifs
  · rfl
  · exact update_self ..

theorem NetPlan.transfer_adopt_of_eq {q : PartitionId} (h : s'.transfer q = s.transfer q) :
    (s.adopt s').transfer q = s.transfer q := by
  simp only [NetPlan.adopt, h, Option.or_self]

theorem NetPlan.transfer_adopt_of_some {q : PartitionId} {t : WorkerId × WorkerId}
    (h : s'.transfer q = some t) : (s.adopt s').transfer q = some t := by
  simp only [NetPlan.adopt, h, Option.some_or]

theorem Places.cons (h : Places holders parts (place p wf wt s) s') (hp : p ∉ parts)
    (hwf : wf ∈ holders p) : Places holders (p :: parts) s (s.adopt s') := by
  refine ⟨fun q hq => ?_, fun q hq => ?_, fun q hq => ?_⟩
  · rw [mem_cons, not_or] at hq
    exact (h.alloc_of_notMem q hq.2).trans (update_of_ne hq.1 _ _)
  · rw [mem_cons, not_or] at hq
    exact NetPlan.transfer_adopt_of_eq
      ((h.transfer_of_notMem q hq.2).trans (transfer_place_of_ne hq.1))
  · by_cases hqp : q = p
    · subst hqp
      refine ⟨wt, (h.alloc_of_notMem q hp).trans (update_self ..), ?_⟩
      have ht := (h.transfer_of_notMem q hp).trans (transfer_place_self q wf wt s)
      by_cases heq : wf = wt
      · rw [if_pos heq] at ht
        exact .inl ⟨heq ▸ hwf, NetPlan.transfer_adopt_of_eq ht⟩
      · rw [if_neg heq] at ht
        exact .inr ⟨wf, hwf, NetPlan.transfer_adopt_of_some ht⟩
    · have hmem := (mem_cons.1 hq).resolve_left hqp
      obtain ⟨wt', halloc, ⟨hholder, ht⟩ | ⟨wf', hwf', ht⟩⟩ := h.placed q hmem
      · exact ⟨wt', halloc, .inl
          ⟨hholder, NetPlan.transfer_adopt_of_eq (ht.trans (transfer_place_of_ne hqp))⟩⟩
      · exact ⟨wt', halloc, .inr ⟨wf', hwf', NetPlan.transfer_adopt_of_some ht⟩⟩

/-! ## The search -/

theorem mem_candidates {hs wts : List WorkerId} {least : Nat} {c : WorkerId × WorkerId} :
    c ∈ candidates hs wts loads least ↔ c.1 ∈ hs ∧ c.2 ∈ wts ∧ loads c.2 ≤ least := by
  obtain ⟨wf, wt⟩ := c
  simp [candidates]

/-- **`alloc_net_plan`** with a sort that permutes. A result below the bound places all the
partitions, within the room of the workers; one that is not has cleared the allocation. If there is
room, and the bound is above what the transfers can add up to, the result is below the bound. -/
theorem allocNetPlan_spec {sort : StdSort} (hsort : sort.Permutes) (hnodup : workers.Nodup)
    (hne : workers ≠ []) (hparts : parts.Nodup) (hholders : ∀ p ∈ parts, holders p ≠ [])
    {currLoad : Nat} (hload : (workers.map s.netLoads).max? = some currLoad) (currBest : Nat) :
    ∃ n s', allocNetPlan sort workers holders parts s currBest = some (n, s') ∧
      (n < currBest → Places holders parts s s' ∧ parts.length ≤ capacity workers s.loads) ∧
      (currBest ≤ n → currLoad < currBest → s'.alloc = (fun _ => none) ∧ s'.transfer = s.transfer) ∧
      (parts.length ≤ capacity workers s.loads → currLoad + parts.length < currBest →
        n ≤ currLoad + parts.length) := by
  induction parts generalizing s currLoad currBest with
  | nil =>
    refine ⟨currLoad, s, ?_, fun _ => ⟨⟨fun _ _ => rfl, fun _ _ => rfl, nofun⟩, Nat.zero_le _⟩,
      fun hle hlt => absurd hlt (not_lt.2 hle), fun _ _ => le_rfl⟩
    unfold allocNetPlan
    simp only [hload]
    split_ifs <;> rfl
  | cons p parts ih =>
    obtain ⟨hp, hparts⟩ := nodup_cons.1 hparts
    have hrest := fun q hq => hholders q (mem_cons_of_mem _ hq)
    by_cases hprune : currBest ≤ currLoad
    · refine ⟨currLoad, s, ?_, fun h => absurd h (not_lt.2 hprune),
        fun _ h => absurd h (not_lt.2 hprune), fun _ h => absurd h (by omega)⟩
      unfold allocNetPlan
      simp only [hload, if_pos hprune]
    obtain ⟨wts, hwts, hperm⟩ := hsort (byLoad s.loads) workers
    have hcandidate : ∀ c ∈ candidates (holders p) wts s.loads (minLoad workers s.loads),
        c.1 ∈ holders p ∧ c.2 ∈ workers ∧ s.loads c.2 ≤ 100000000 := by
      intro c hc
      obtain ⟨hwf, hwt, hle⟩ := mem_candidates.1 hc
      exact ⟨hwf, hperm.mem_iff.1 hwt, hle.trans (minLoad_le ..)⟩
    have hplan : ∀ c ∈ candidates (holders p) wts s.loads (minLoad workers s.loads), ∀ best,
        (allocNetPlan sort workers holders parts (place p c.1 c.2 s) best).isSome := by
      intro c _ best
      obtain ⟨n, hn⟩ := exists_max?_netLoads hne (place p c.1 c.2 s)
      obtain ⟨n', s', heq, -⟩ := ih hparts hrest hn best
      rw [heq, Option.isSome_some]
    obtain ⟨n, s', heq, hle, hfrom, hmin⟩ :=
      tryTransfers_spec hplan currBest { s with alloc := fun _ => none }
    refine ⟨n, s.adopt s', ?_, ?_, ?_, ?_⟩
    · rw [allocNetPlan]
      simp only [hload, if_neg hprune, hwts, heq, Option.map_some]
    · intro hlt
      rcases hfrom with h | ⟨-, c, hc, b, hb, hnb⟩
      · cases h
        exact absurd hlt (lt_irrefl _)
      obtain ⟨hwf, hwt, hload'⟩ := hcandidate c hc
      obtain ⟨m, hm⟩ := exists_max?_netLoads hne (place p c.1 c.2 s)
      obtain ⟨n₁, s₁, heq₁, hplaces, -⟩ := ih hparts hrest hm b
      rw [hb] at heq₁
      cases heq₁
      obtain ⟨hplaces, hcap⟩ := hplaces hnb
      refine ⟨hplaces.cons hp hwf, ?_⟩
      rw [← capacity_bump hnodup hwt hload']
      exact Nat.succ_le_succ hcap
    · intro hge _
      rcases hfrom with h | ⟨hlt, -⟩
      · cases h
        exact ⟨rfl, funext fun q => NetPlan.transfer_adopt_of_eq rfl⟩
      · exact absurd hlt (not_lt.2 hge)
    · intro hcap hbound
      rw [length_cons] at hcap hbound ⊢
      -- some candidate has room for the partition
      obtain ⟨w, hw, hwload⟩ := exists_load_le_of_capacity (by omega : 0 < capacity workers s.loads)
      obtain ⟨wt, hwt, hleast⟩ := exists_load_le_minLoad hw hwload
      obtain ⟨wf, hwf⟩ := exists_mem_of_ne_nil _ (hholders p mem_cons_self)
      have hc : (wf, wt) ∈ candidates (holders p) wts s.loads (minLoad workers s.loads) :=
        mem_candidates.2 ⟨hwf, hperm.mem_iff.2 hwt, hleast⟩
      refine hmin _ hc _ hbound fun b hb n' s₂ hn' => ?_
      obtain ⟨m, hm⟩ := exists_max?_netLoads hne (place p wf wt s)
      obtain ⟨n₁, s₁, heq₁, -, -, hroom⟩ := ih hparts hrest hm b
      rw [hn'] at heq₁
      cases heq₁
      have hm' := max?_netLoads_place_le hload hm
      have hcap' := capacity_bump hnodup hwt (hleast.trans (minLoad_le ..))
      have hloads : (place p wf wt s).loads = bump s.loads wt := rfl
      rw [hloads] at hroom
      omega

end NetPlan

end JasmineGraph.Executor.TriangleCount
