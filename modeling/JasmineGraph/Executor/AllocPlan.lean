import JasmineGraph.Assignment
import JasmineGraph.Bytes.Text
import JasmineGraph.StdSort

/-!
# Allocating partitions to the workers that hold them: `alloc_plan`

The model of `allocate`, `get_min_partition` and `alloc_plan`
(`frontend/core/executor/impl/TriangleCountExecutor.cpp`). Every partition has replicas on some
workers, and a worker with a load of 3 takes no more. `alloc_plan` gives every partition with a
single available worker to that worker, as long as there is one; it then picks a partition with the
fewest available workers, tries each of them in turn and keeps the best plan, stopping at the first
that leaves nothing.

The maps of the source are functions: a vector that is not in its map is empty and a load that is
not in its map is 0, which is what `operator[]` makes of them. A set of partitions is its ascending
list. `none` stands for undefined behaviour and for a loop that never ends.
-/

namespace JasmineGraph.Executor.TriangleCount

open List Function

/-- The id of a worker, a `std::string`. -/
abbrev WorkerId := List UInt8

abbrev PartitionId := Int

/-- What the four functions of `alloc_plan` pass around by reference. -/
structure Plan where
  alloc : PartitionId → Option WorkerId
  remain : List PartitionId
  pAvail : PartitionId → List WorkerId
  loads : WorkerId → Nat

def allocate (p : PartitionId) (w : WorkerId) (s : Plan) : Plan where
  alloc := Function.update s.alloc p (some w)
  remain := s.remain.erase p
  pAvail := fun q =>
    if q = p then [] else if 3 ≤ s.loads w + 1 then (s.pAvail q).erase w else s.pAvail q
  loads := Function.update s.loads w (s.loads w + 1)

/-- An iteration of `get_min_partition`: the partition so far, with its number of workers. -/
def fewer (pAvail : PartitionId → List WorkerId) (m : PartitionId × Nat) (q : PartitionId) :
    PartitionId × Nat :=
  if 0 < (pAvail q).length ∧ (pAvail q).length < m.2 then (q, (pAvail q).length) else m

/-- The partition with the fewest available workers, `p` being the first that remains. -/
def getMinPartition (p : PartitionId) (remain : List PartitionId)
    (pAvail : PartitionId → List WorkerId) : PartitionId :=
  (remain.foldl (fewer pAvail) (p, 1000000000)).1

def loadPreference : List Nat := [2, 3, 1, 0]

/-- The comparator of the workers. An index past the end is never read: `allocPlan` tests it. -/
def preferred (loads : WorkerId → Nat) (w₁ w₂ : WorkerId) : Bool :=
  decide (loadPreference.getD (loads w₂) 0 < loadPreference.getD (loads w₁) 0)

def onlyAvailable (s : Plan) : Option (PartitionId × WorkerId) :=
  s.remain.findSome? fun p =>
    match s.pAvail p with
    | [w] => some (p, w)
    | _ => none

theorem of_onlyAvailable {s : Plan} {p : PartitionId} {w : WorkerId}
    (h : onlyAvailable s = some (p, w)) : p ∈ s.remain ∧ s.pAvail p = [w] := by
  obtain ⟨q, hq, hmatch⟩ := List.exists_of_findSome?_eq_some h
  split at hmatch
  · case h_1 w' hw =>
    cases hmatch
    exact ⟨hq, hw⟩
  · cases hmatch

theorem length_remain_allocate {s : Plan} {p : PartitionId} (hp : p ∈ s.remain) (w : WorkerId) :
    (allocate p w s).remain.length < s.remain.length := by
  have hlen : (s.remain.erase p).length = s.remain.length - 1 := length_erase_of_mem hp
  have hpos := length_pos_of_mem hp
  rw [allocate, hlen]
  omega

/-- The first loop of `alloc_plan`. A worker without an id would keep it going for ever. -/
def allocateForced (s : Plan) : Option Plan :=
  match _h : onlyAvailable s with
  | none => some s
  | some (p, w) => if w = [] then none else allocateForced (allocate p w s)
termination_by s.remain.length
decreasing_by exact length_remain_allocate (of_onlyAvailable _h).1 w

/-- What `alloc_plan` hands back when a branch leaves nothing: `insert` keeps the entries that are
there, so the loads stay as they were. -/
def Plan.complete (s s₂ : Plan) : Plan where
  alloc := fun p => (s.alloc p).or (s₂.alloc p)
  remain := []
  pAvail := fun _ => []
  loads := s.loads

/-- What `alloc_plan` hands back when every branch leaves something. -/
def Plan.adopt (s best : Plan) : Plan :=
  { best with alloc := fun p => (s.alloc p).or (best.alloc p) }

def Plan.sortAvail (s : Plan) (p : PartitionId) (ws : List WorkerId) : Plan :=
  { s with pAvail := Function.update s.pAvail p ws }

/-- The loop over the available workers, `plan w` being the plan that gives `w` the partition. -/
def tryWorkers (plan : WorkerId → Option (Nat × Plan)) (s : Plan) :
    List WorkerId → Nat → Plan → Option (Nat × Plan)
  | [], bestRem, best => some (bestRem, s.adopt best)
  | w :: ws, bestRem, best =>
    match plan w with
    | none => none
    | some (rem, s₂) =>
      if rem = 0 then some (0, s.complete s₂)
      else if rem < bestRem then tryWorkers plan s ws rem s₂
      else tryWorkers plan s ws bestRem best

theorem getMinPartition_mem {p : PartitionId} {remain : List PartitionId}
    {pAvail : PartitionId → List WorkerId} (hp : p ∈ remain) :
    getMinPartition p remain pAvail ∈ remain := by
  refine foldlRecOn (motive := fun m : PartitionId × Nat => m.1 ∈ remain) remain _ hp ?_
  intro m hm q hq
  rw [fewer]
  split_ifs
  · exact hq
  · exact hm

theorem length_remain_allocateForced {s s' : Plan} (h : allocateForced s = some s') :
    s'.remain.length ≤ s.remain.length := by
  fun_induction allocateForced s with
  | case1 s _ =>
    cases h
    exact Nat.le_refl _
  | case2 => cases h
  | case3 s p w hforced _ ih =>
    exact (ih h).trans (length_remain_allocate (of_onlyAvailable hforced).1 w).le

/-- `alloc_plan`: the number of partitions left, and what it made of its arguments. -/
def allocPlan (sort : StdSort) (s : Plan) : Option (Nat × Plan) :=
  match _hforced : allocateForced s with
  | none => none
  | some s₁ =>
    match _hremain : s₁.remain with
    | [] => some (0, s₁)
    | p :: _ =>
      let p₀ := getMinPartition p s₁.remain s₁.pAvail
      if s₁.pAvail p₀ = [] then some (s₁.remain.length, s₁)
      else if (s₁.pAvail p₀).all fun w => decide (s₁.loads w < loadPreference.length) then
        match sort.sort (preferred s₁.loads) (s₁.pAvail p₀) with
        | none => none
        | some ws =>
          let s₂ := s₁.sortAvail p₀ ws
          tryWorkers (fun w => allocPlan sort (allocate p₀ w s₂)) s₂ ws s₂.remain.length s₂
      else none
termination_by s.remain.length
decreasing_by
  have hmem : p₀ ∈ s₁.remain := getMinPartition_mem (by rw [_hremain]; exact mem_cons_self)
  exact Nat.lt_of_lt_of_le (length_remain_allocate hmem w) (length_remain_allocateForced _hforced)

/-! ## Legal states -/

section Legal

variable (partitions : List PartitionId) (holders : PartitionId → List WorkerId)
  (given : WorkerId → Nat)

/-- The states of a plan for `partitions`, held by `holders`, with the loads `given` at first. -/
structure Legal (s : Plan) : Prop where
  nodup : s.remain.Nodup
  remain_iff : ∀ p, p ∈ s.remain ↔ p ∈ partitions ∧ s.alloc p = none
  placed : ∀ p w, s.alloc p = some w → p ∈ partitions ∧ w ∈ holders p ∧ given w < 3
  avail_iff : ∀ p ∈ s.remain, ∀ w, w ∈ s.pAvail p ↔ w ∈ holders p ∧ s.loads w < 3
  avail_nodup : ∀ p ∈ s.remain, (s.pAvail p).Nodup
  loads_le : ∀ w, given w < 3 → s.loads w ≤ 3
  given_le : ∀ w, given w ≤ s.loads w
  loaded : ∀ w, 3 ≤ given w → s.loads w = given w

def Plan.Feasible (s : Plan) : Prop := Assignable holders (fun w => 3 - s.loads w) s.remain

/-- They can do so without a choice. -/
def Plan.AllForced (s : Plan) : Prop := Forced holders (fun w => 3 - s.loads w) s.remain

variable {partitions holders given} {s s' : Plan} {p q : PartitionId} {w : WorkerId}

theorem mem_pAvail_allocate (hnodup : (s.pAvail q).Nodup) (hqp : q ≠ p) {w' : WorkerId} :
    w' ∈ (allocate p w s).pAvail q ↔ w' ∈ s.pAvail q ∧ ¬(w' = w ∧ 3 ≤ s.loads w + 1) := by
  simp only [allocate, if_neg hqp]
  split_ifs with hfull
  · rw [hnodup.mem_erase_iff, and_comm]
    simp [hfull]
  · simp [hfull]

theorem room_allocate (p : PartitionId) (w : WorkerId) :
    Function.update (fun w => 3 - s.loads w) w (3 - s.loads w - 1) =
      fun w' => 3 - (allocate p w s).loads w' := by
  funext w'
  by_cases hww : w' = w
  · subst hww
    simp only [allocate, update_self]
    omega
  · simp only [allocate, update_of_ne hww]

/-- No partitions that remain can go to their holders, within the loads, and leave fewer. -/
def Plan.LeastLeft (holders : PartitionId → List WorkerId) (s : Plan) (rem : Nat) : Prop :=
  ∀ ps : List PartitionId, ps.Nodup → ps ⊆ s.remain →
    Assignable holders (fun w => 3 - s.loads w) ps → rem + ps.length ≤ s.remain.length

theorem Plan.leastLeft_zero : s.LeastLeft holders 0 := fun ps hnodup hsub _ => by
  rw [Nat.zero_add]
  exact (subperm_of_subset hnodup hsub).length_le

def Plan.Extends (s s' : Plan) : Prop := ∀ p w, s.alloc p = some w → s'.alloc p = some w

theorem Plan.Extends.trans {s₁ s₂ s₃ : Plan} (h : s₁.Extends s₂) (h' : s₂.Extends s₃) :
    s₁.Extends s₃ := fun p w hp => h' p w (h p w hp)

section

variable (hs : Legal partitions holders given s) (hp : p ∈ s.remain)

include hs hp

/-- **A partition is allocated** to one of its available workers. -/
theorem Legal.allocated (hw : w ∈ s.pAvail p) :
    Legal partitions holders given (allocate p w s) := by
  obtain ⟨hholder, hload⟩ := (hs.avail_iff p hp w).1 hw
  have hmem : ∀ {q}, q ∈ (allocate p w s).remain ↔ q ≠ p ∧ q ∈ s.remain :=
    hs.nodup.mem_erase_iff
  have hloads : ∀ w', (allocate p w s).loads w' =
      if w' = w then s.loads w + 1 else s.loads w' := fun w' => update_apply ..
  refine ⟨hs.nodup.erase p, fun q => ?_, fun q w' hq => ?_, fun q hq w' => ?_, fun q hq => ?_,
    fun w' hw' => ?_, fun w' => ?_, fun w' hw' => ?_⟩
  · rw [hmem, hs.remain_iff]
    by_cases hqp : q = p
    · simp [allocate, hqp]
    · simp [allocate, hqp]
  · by_cases hqp : q = p
    · subst hqp
      obtain rfl : w = w' := by simpa [allocate] using hq
      exact ⟨((hs.remain_iff q).1 hp).1, hholder, Nat.lt_of_le_of_lt (hs.given_le w) hload⟩
    · refine hs.placed q w' ?_
      simpa [allocate, hqp] using hq
  · obtain ⟨hqp, hq⟩ := hmem.1 hq
    rw [mem_pAvail_allocate (hs.avail_nodup q hq) hqp, hs.avail_iff q hq, hloads]
    by_cases hww : w' = w
    · subst hww
      simp only [true_and, if_pos]
      constructor
      · rintro ⟨⟨hw', -⟩, hlt⟩
        exact ⟨hw', by omega⟩
      · rintro ⟨hw', hlt⟩
        exact ⟨⟨hw', hload⟩, by omega⟩
    · simp [hww]
  · obtain ⟨hqp, hq⟩ := hmem.1 hq
    simp only [allocate, if_neg hqp]
    split_ifs
    · exact (hs.avail_nodup q hq).erase w
    · exact hs.avail_nodup q hq
  · rw [hloads]
    have := hs.loads_le w' hw'
    split_ifs <;> omega
  · rw [hloads]
    have := hs.given_le w'
    split_ifs with hww
    · subst hww
      omega
    · exact this
  · rw [hloads]
    have := hs.loaded w' hw'
    split_ifs with hww
    · subst hww
      omega
    · exact this

theorem Legal.feasible_iff :
    s.Feasible holders ↔ ∃ w ∈ s.pAvail p, (allocate p w s).Feasible holders := by
  have hnotMem : p ∉ s.remain.erase p := hs.nodup.not_mem_erase
  rw [Plan.Feasible, assignable_perm (perm_cons_erase hp), assignable_cons hnotMem]
  refine exists_congr fun w => ?_
  rw [room_allocate p, hs.avail_iff p hp w, and_assoc]
  refine and_congr_right fun _ => and_congr_left fun _ => ?_
  omega

/-- What every available worker's branch leaves at least is left: an allocation without `p` gives
up at most one partition for it. -/
theorem Legal.leastLeft {rem : Nat} (hne : s.pAvail p ≠ [])
    (h : ∀ w ∈ s.pAvail p, (allocate p w s).LeastLeft holders rem) :
    s.LeastLeft holders rem := by
  intro ps hnodup hsub hassign
  have hlen : (s.remain.erase p).length = s.remain.length - 1 := length_erase_of_mem hp
  have hpos := length_pos_of_mem hp
  by_cases hmem : p ∈ ps
  · have hps := length_erase_of_mem hmem
    rw [assignable_perm (perm_cons_erase hmem), assignable_cons hnodup.not_mem_erase] at hassign
    obtain ⟨w, hw, hroom, hrest⟩ := hassign
    rw [room_allocate p] at hrest
    have hle := h w ((hs.avail_iff p hp w).2 ⟨hw, by omega⟩) (ps.erase p) (hnodup.erase p)
      (fun q hq => ?_) hrest
    · change _ ≤ (s.remain.erase p).length at hle
      omega
    · rw [hnodup.mem_erase_iff] at hq
      exact (mem_erase_of_ne hq.1).2 (hsub hq.2)
  · obtain ⟨w, hw⟩ := exists_mem_of_ne_nil _ hne
    obtain ⟨qs, hqs, hlost, hrest⟩ := hassign.exchange w
    rw [room_allocate p] at hrest
    have hle := h w hw qs (hnodup.sublist hqs) (fun q hq => ?_) hrest
    · change _ ≤ (s.remain.erase p).length at hle
      omega
    · have hq' := hqs.subset hq
      exact (mem_erase_of_ne (ne_of_mem_of_not_mem hq' hmem)).2 (hsub hq')

theorem Legal.extends_allocate (w : WorkerId) : s.Extends (allocate p w s) := by
  intro q w' hq
  have hqp : q ≠ p := by
    rintro rfl
    rw [((hs.remain_iff q).1 hp).2] at hq
    cases hq
  exact (update_of_ne hqp _ _).trans hq

theorem Legal.allForced_iff (hw : s.pAvail p = [w]) (h : s.Feasible holders) :
    s.AllForced holders ↔ (allocate p w s).AllForced holders := by
  have honly : ∀ x, x ∈ holders p ∧ 0 < 3 - s.loads x ↔ x = w := by
    intro x
    rw [← mem_singleton, ← hw, hs.avail_iff p hp, Nat.sub_pos_iff_lt]
  unfold Plan.AllForced
  rw [← room_allocate p w]
  exact ⟨fun hall => hall.erase h hs.nodup hp honly, .cons hp honly⟩

end

theorem Legal.not_allForced (hs : Legal partitions holders given s) (hnone : onlyAvailable s = none)
    (hne : s.remain ≠ []) : ¬s.AllForced holders := by
  unfold Plan.AllForced
  generalize hremain : s.remain = ps
  rintro (_ | ⟨hp, hw, -⟩)
  · exact hne hremain
  rw [← hremain] at hp
  rename_i p w
  have hperm : s.pAvail p ~ [w] :=
    (perm_ext_iff_of_nodup (hs.avail_nodup p hp) (nodup_singleton w)).2 fun x => by
      rw [hs.avail_iff p hp, mem_singleton, ← hw x, Nat.sub_pos_iff_lt]
  have hmatch := findSome?_eq_none_iff.1 hnone p hp
  rw [perm_singleton.1 hperm] at hmatch
  cases hmatch

theorem Plan.Extends.or_alloc (h : s.Extends s') (p : PartitionId) :
    (s.alloc p).or (s'.alloc p) = s'.alloc p := by
  cases hp : s.alloc p with
  | none => rfl
  | some w => rw [h p w hp, Option.some_or]

theorem Legal.complete (hs : Legal partitions holders given s)
    (hs' : Legal partitions holders given s') (h : s.Extends s') (hremain : s'.remain = []) :
    Legal partitions holders given (s.complete s') := by
  have halloc : (s.complete s').alloc = s'.alloc := funext h.or_alloc
  refine ⟨nodup_nil, fun p => ?_, fun p w hp => hs'.placed p w (halloc ▸ hp), nofun, nofun,
    hs.loads_le, hs.given_le, hs.loaded⟩
  rw [halloc, ← hs'.remain_iff, hremain, Plan.complete]

def Plan.loadAfter (s s' : Plan) (w : WorkerId) : Nat :=
  s.loads w + s.remain.countP fun p => s'.alloc p = some w

theorem loadAfter_allocate (hp : p ∈ s.remain) (h : (allocate p w s).Extends s') (w' : WorkerId) :
    (allocate p w s).loadAfter s' w' = s.loadAfter s' w' := by
  have hw : s'.alloc p = some w := h p w (update_self ..)
  rw [Plan.loadAfter, Plan.loadAfter, (perm_cons_erase hp).countP_eq, countP_cons, hw]
  by_cases hww : w' = w
  · subst hww
    simp only [allocate, update_self, decide_true, if_true]
    omega
  · simp [allocate, update_of_ne hww, Ne.symm hww]

theorem Legal.loadAfter_self (hs : Legal partitions holders given s) (w : WorkerId) :
    s.loadAfter s w = s.loads w := by
  rw [Plan.loadAfter, countP_eq_zero.2 fun p hp => by simp [((hs.remain_iff p).1 hp).2],
    Nat.add_zero]

/-! ## The forced allocations -/

theorem allocateForced_spec (hids : ∀ p, ∀ w ∈ holders p, w ≠ [])
    (hs : Legal partitions holders given s) :
    ∃ s', allocateForced s = some s' ∧ Legal partitions holders given s' ∧
      (s.Feasible holders ↔ s'.Feasible holders) ∧ s.Extends s' ∧
      (∀ t, s'.Extends t → ∀ w, s.loadAfter t w = s'.loadAfter t w) ∧
      (∀ rem, s'.LeastLeft holders rem → s.LeastLeft holders rem) ∧ onlyAvailable s' = none ∧
      (s.Feasible holders → (s.AllForced holders ↔ s'.AllForced holders)) := by
  fun_induction allocateForced s with
  | case1 s hnone =>
    exact ⟨s, rfl, hs, .rfl, fun _ _ h => h, fun _ _ _ => rfl, fun _ h => h, hnone, fun _ => .rfl⟩
  | case2 s p hforced =>
    obtain ⟨hp, hw⟩ := of_onlyAvailable hforced
    have hmem : [] ∈ s.pAvail p := hw ▸ mem_singleton_self _
    exact absurd rfl (hids p [] ((hs.avail_iff p hp []).1 hmem).1)
  | case3 s p w hforced _ ih =>
    obtain ⟨hp, hw⟩ := of_onlyAvailable hforced
    have hmem : w ∈ s.pAvail p := hw ▸ mem_singleton_self _
    obtain ⟨s', hs', hlegal, hfeasible, hext, hload, hleast, hnone, hall⟩ :=
      ih (hs.allocated hp hmem)
    have hunit : s.Feasible holders ↔ (allocate p w s).Feasible holders := by
      rw [hs.feasible_iff hp, hw]
      simp
    refine ⟨s', hs', hlegal, hunit.trans hfeasible, (hs.extends_allocate hp w).trans hext,
      fun t ht w' => ?_, fun rem h => hs.leastLeft hp (ne_nil_of_mem hmem) ?_, hnone,
      fun h => (hs.allForced_iff hp hw h).trans (hall (hunit.1 h))⟩
    · rw [← hload t ht, loadAfter_allocate hp (hext.trans ht)]
    · rw [hw]
      simpa using hleast rem h

/-! ## The search -/

/-- The outcome of the loop over the workers, with the plan `f w` of each branch: the first that
leaves nothing, or the best. -/
theorem tryWorkers_spec {plan : WorkerId → Option (Nat × Plan)} {f : WorkerId → Nat × Plan}
    {ws : List WorkerId} (hplan : ∀ w ∈ ws, plan w = some (f w)) (best : Nat × Plan) :
    (∃ w ∈ ws, (f w).1 = 0 ∧ tryWorkers plan s ws best.1 best.2 = some (0, s.complete (f w).2)) ∨
    (∀ w ∈ ws, (f w).1 ≠ 0) ∧ ∃ c ∈ best :: ws.map f,
      tryWorkers plan s ws best.1 best.2 = some (c.1, s.adopt c.2) ∧
        ∀ d ∈ best :: ws.map f, c.1 ≤ d.1 := by
  induction ws generalizing best with
  | nil => exact .inr ⟨nofun, best, mem_cons_self, rfl, by simp⟩
  | cons w ws ih =>
    obtain ⟨hw, hws⟩ := forall_mem_cons.1 hplan
    by_cases hzero : (f w).1 = 0
    · exact .inl ⟨w, mem_cons_self, hzero, by simp [tryWorkers, hw, hzero]⟩
    -- the plan that is kept for the rest of the loop
    obtain ⟨kept, hkept, hle, hle', hstep⟩ : ∃ kept, (kept = best ∨ kept = f w) ∧
        kept.1 ≤ best.1 ∧ kept.1 ≤ (f w).1 ∧
        tryWorkers plan s (w :: ws) best.1 best.2 = tryWorkers plan s ws kept.1 kept.2 := by
      by_cases hlt : (f w).1 < best.1
      · exact ⟨f w, .inr rfl, hlt.le, le_rfl, by simp [tryWorkers, hw, hzero, hlt]⟩
      · exact ⟨best, .inl rfl, le_rfl, not_lt.1 hlt, by simp [tryWorkers, hw, hzero, hlt]⟩
    rw [hstep]
    rcases ih hws kept with ⟨w', hw', hz, heq⟩ | ⟨hnone, c, hc, heq, hmin⟩
    · exact .inl ⟨w', mem_cons_of_mem _ hw', hz, heq⟩
    · have hck := hmin kept mem_cons_self
      refine .inr ⟨forall_mem_cons.2 ⟨hzero, hnone⟩, c, ?_, heq, ?_⟩
      · rcases mem_cons.1 hc with rfl | hc
        · rcases hkept with rfl | rfl <;> simp
        · exact mem_cons_of_mem _ (mem_cons_of_mem _ hc)
      · rw [map_cons, forall_mem_cons, forall_mem_cons]
        exact ⟨hck.trans hle, hck.trans hle', fun d hd => hmin d (mem_cons_of_mem _ hd)⟩

/-- What `alloc_plan` makes of a state. -/
structure Planned (partitions : List PartitionId) (holders : PartitionId → List WorkerId)
    (given : WorkerId → Nat) (s : Plan) (rem : Nat) (s' : Plan) : Prop where
  legal : Legal partitions holders given s'
  extends_ : s.Extends s'
  rem_eq : rem = s'.remain.length
  rem_le : rem ≤ s.remain.length
  zero_iff : rem = 0 ↔ s.Feasible holders
  stuck : rem ≠ 0 → ∃ p ∈ s'.remain, ∀ w ∈ holders p, 3 ≤ s'.loads w

/-- With what the search says about loads and about the partitions that are left. -/
structure Searched (partitions : List PartitionId) (holders : PartitionId → List WorkerId)
    (given : WorkerId → Nat) (s : Plan) (rem : Nat) (s' : Plan) : Prop
    extends Planned partitions holders given s rem s' where
  within : ∀ w, given w < 3 → s.loadAfter s' w ≤ 3
  consistent_iff : (∀ w, s'.loads w = s.loadAfter s' w) ↔ (rem = 0 → s.AllForced holders)
  least : (∀ p, (holders p).length < 1000000000) → s.LeastLeft holders rem

theorem strictWeakOn_preferred (loads : WorkerId → Nat) (ws : List WorkerId) :
    StrictWeakOn (preferred loads) ws :=
  strictWeakOn_of_key (fun w => OrderDual.toDual (loadPreference.getD (loads w) 0))
    (fun w₁ w₂ => by rw [preferred, decide_eq_true_eq, OrderDual.toDual_lt_toDual]) ws

theorem Legal.sorted (hs : Legal partitions holders given s) {ws : List WorkerId}
    (hws : ws.Perm (s.pAvail p)) :
    Legal partitions holders given (s.sortAvail p ws) := by
  have hperm : ∀ q, (Function.update s.pAvail p ws q).Perm (s.pAvail q) := by
    intro q
    by_cases hqp : q = p
    · subst hqp
      rwa [update_self]
    · rw [update_of_ne hqp]
  exact { hs with
    avail_iff := fun q hq w => (hperm q).mem_iff.trans (hs.avail_iff q hq w)
    avail_nodup := fun q hq => (hperm q).nodup_iff.2 (hs.avail_nodup q hq) }

theorem Searched.of_branches (plan : WorkerId → Option (Nat × Plan)) {ws : List WorkerId}
    (hs : Legal partitions holders given s) (hp : p ∈ s.remain) (hws : ∀ w, w ∈ ws ↔ w ∈ s.pAvail p)
    (hne : ws ≠ []) (hchoice : ¬s.AllForced holders)
    (hplan : ∀ w ∈ ws, ∃ rem s', plan w = some (rem, s') ∧
      Searched partitions holders given (allocate p w s) rem s') :
    ∃ rem s', tryWorkers plan s ws s.remain.length s = some (rem, s') ∧
      Searched partitions holders given s rem s' := by
  have : Nonempty Plan := ⟨s⟩
  choose! rem s' hplan hf using hplan
  -- what a branch returns is a plan for the whole state but for feasibility
  have hext : ∀ w ∈ ws, s.Extends (s' w) := fun w hw =>
    (hs.extends_allocate hp w).trans (hf w hw).extends_
  have hload : ∀ w ∈ ws, ∀ w', s.loadAfter (s' w) w' =
      (allocate p w s).loadAfter (s' w) w' := fun w hw w' =>
    (loadAfter_allocate hp (hf w hw).extends_ w').symm
  rcases tryWorkers_spec hplan (s.remain.length, s) with
    ⟨w, hw, hzero, hresult⟩ | ⟨hnone, c, hc, hresult, hmin⟩
  · have h := hf w hw
    have hremain : (s' w).remain = [] := eq_nil_of_length_eq_zero (h.rem_eq.symm.trans hzero)
    have halloc : (s.complete (s' w)).alloc = (s' w).alloc := funext (hext w hw).or_alloc
    refine ⟨0, _, hresult, ⟨hs.complete h.legal (hext w hw) hremain, ?_, rfl, Nat.zero_le _, ?_,
      nofun⟩, fun w' hw' => ?_, ?_, fun _ => Plan.leastLeft_zero⟩
    · exact fun q w' hq => (congrFun halloc q).trans (hext w hw q w' hq)
    · exact iff_of_true rfl ((hs.feasible_iff hp).2 ⟨w, (hws w).1 hw, h.zero_iff.1 hzero⟩)
    · rw [Plan.loadAfter, halloc]
      exact (hload w hw w').trans_le (h.within w' hw')
    · -- the load of `w` does not count `p`
      refine iff_of_false (fun hall => ?_) fun hforced => hchoice (hforced rfl)
      have hp' : (s' w).alloc p = some w := h.extends_ p w (update_self ..)
      have hcount : 0 < s.remain.countP fun q => (s' w).alloc q = some w :=
        countP_pos_iff.2 ⟨p, hp, decide_eq_true hp'⟩
      have heq : s.loads w = _ := hall w
      rw [Plan.loadAfter, halloc] at heq
      omega
  · -- the best plan is a branch's: every branch leaves less than the state itself
    have hlt : ∀ w ∈ ws, rem w < s.remain.length := fun w hw =>
      Nat.lt_of_le_of_lt (hf w hw).rem_le (length_remain_allocate hp w)
    obtain ⟨w, hw, rfl⟩ : ∃ w ∈ ws, (rem w, s' w) = c := by
      rcases mem_cons.1 hc with rfl | hc
      · obtain ⟨w, hw⟩ := exists_mem_of_ne_nil ws hne
        have hle := hmin _ (mem_cons_of_mem _ (mem_map_of_mem hw))
        exact absurd (hlt w hw) (not_lt.2 hle)
      · exact mem_map.1 hc
    have h := hf w hw
    have hne0 : rem w ≠ 0 := hnone w hw
    rw [Plan.adopt, funext (hext w hw).or_alloc] at hresult
    refine ⟨_, _, hresult, ⟨h.legal, hext w hw, h.rem_eq, (hlt w hw).le, ?_, h.stuck⟩,
      fun w' hw' => (hload w hw w').trans_le (h.within w' hw'), ?_,
      fun hsmall => hs.leastLeft hp (ne_nil_of_mem ((hws w).1 hw)) fun w' hw' ps hps hsub ha => ?_⟩
    · refine iff_of_false hne0 fun hfeasible => ?_
      obtain ⟨w', hw', hfeasible'⟩ := (hs.feasible_iff hp).1 hfeasible
      have hw' := (hws w').2 hw'
      exact hnone w' hw' ((hf w' hw').zero_iff.2 hfeasible')
    · refine iff_of_true (fun w' => ?_) fun h0 => absurd h0 hne0
      rw [hload w hw]
      exact h.consistent_iff.2 (fun h0 => absurd h0 hne0) w'
    · have hw' := (hws w').2 hw'
      have hle := hmin _ (mem_cons_of_mem _ (mem_map_of_mem hw'))
      exact (Nat.add_le_add_right hle _).trans ((hf w' hw').least hsmall ps hps hsub ha)

/-- `get_min_partition` finds a partition with available workers if there is one, and fewer of them
than its initial minimum. -/
theorem foldl_fewer (pAvail : PartitionId → List WorkerId) (remain : List PartitionId)
    (m : PartitionId × Nat) : (remain.foldl (fewer pAvail) m).2 ≤ m.2 ∧
      (remain.foldl (fewer pAvail) m = m ∨ pAvail (remain.foldl (fewer pAvail) m).1 ≠ []) ∧
      ∀ q ∈ remain, pAvail q ≠ [] → (remain.foldl (fewer pAvail) m).2 ≤ (pAvail q).length := by
  induction remain generalizing m with
  | nil => exact ⟨le_rfl, .inl rfl, nofun⟩
  | cons q remain ih =>
    obtain ⟨hle, hsame, hmin⟩ := ih (fewer pAvail m q)
    rw [foldl_cons, forall_mem_cons]
    by_cases hq : 0 < (pAvail q).length ∧ (pAvail q).length < m.2
    · have hfewer : fewer pAvail m q = (q, (pAvail q).length) := if_pos hq
      rw [hfewer] at hle hsame hmin ⊢
      refine ⟨hle.trans hq.2.le, .inr ?_, fun _ => hle, hmin⟩
      rcases hsame with hsame | hsame
      · rw [hsame]
        exact ne_nil_of_length_pos hq.1
      · exact hsame
    · have hfewer : fewer pAvail m q = m := if_neg hq
      rw [hfewer] at hle hsame hmin ⊢
      refine ⟨hle, hsame, fun hne => ?_, hmin⟩
      have := length_pos_of_ne_nil hne
      omega

/-- **`alloc_plan` is a complete search**: it returns, every partition is allocated to a holder or
remains, and nothing remains exactly if the partitions can be assigned. -/
theorem allocPlan_searched (sort : StdSort) (hids : ∀ p, ∀ w ∈ holders p, w ≠ [])
    (hs : Legal partitions holders given s) :
    ∃ rem s', allocPlan sort s = some (rem, s') ∧ Searched partitions holders given s rem s' := by
  induction hn : s.remain.length using Nat.strong_induction_on generalizing s with
  | _ n ih =>
    subst hn
    obtain ⟨s₁, hforced, hs₁, hfeasible, hext, hload, hleast, hnone, hall⟩ :=
      allocateForced_spec hids hs
    have hlength := length_remain_allocateForced hforced
    -- a plan for the state after the forced allocations is one for the state
    suffices h : ∃ rem s', allocPlan sort s = some (rem, s') ∧
        Searched partitions holders given s₁ rem s' by
      obtain ⟨rem, s', heq, h⟩ := h
      have hload := hload s' h.extends_
      have hzero := h.zero_iff.trans hfeasible.symm
      refine ⟨rem, s', heq, ⟨h.legal, hext.trans h.extends_, h.rem_eq, h.rem_le.trans hlength,
        hzero, h.stuck⟩, by simpa only [hload] using h.within, ?_,
        fun hsmall => hleast rem (h.least hsmall)⟩
      simp only [hload, h.consistent_iff]
      exact forall_congr' fun h0 => (hall (hzero.1 h0)).symm
    have hself := hs₁.loadAfter_self
    rw [allocPlan]
    split
    · case h_1 h =>
      rw [hforced] at h
      cases h
    · case h_2 s₁' h =>
      obtain rfl := Option.some.inj (hforced.symm.trans h)
      split
      · case h_1 hremain =>
        refine ⟨0, s₁, rfl, ⟨hs₁, fun _ _ h => h, ?_, Nat.zero_le _, ?_, nofun⟩, ?_,
          iff_of_true (fun w => (hself w).symm) fun _ => ?_, fun _ => Plan.leastLeft_zero⟩
        · rw [hremain, length_nil]
        · rw [Plan.Feasible, hremain]
          exact iff_of_true rfl assignable_nil
        · simpa only [hself] using hs₁.loads_le
        · rw [Plan.AllForced, hremain]
          exact .nil
      · case h_2 p rest hremain =>
        generalize hp₀ : getMinPartition p s₁.remain s₁.pAvail = p₀
        have hmem : p₀ ∈ s₁.remain := by
          rw [← hp₀]
          exact getMinPartition_mem (by rw [hremain]; exact mem_cons_self)
        simp only
        split_ifs with hnil hpref
        · have hloaded : ∀ q ∈ s₁.remain, s₁.pAvail q = [] → ∀ w ∈ holders q, 3 ≤ s₁.loads w := by
            intro q hq hnil w hw
            by_contra hlt
            have := (hs₁.avail_iff q hq w).2 ⟨hw, by omega⟩
            rw [hnil] at this
            cases this
          refine ⟨_, s₁, rfl, ⟨hs₁, fun _ _ h => h, rfl, le_rfl, ?_, fun _ => ⟨p₀, hmem,
            hloaded p₀ hmem hnil⟩⟩, by simpa only [hself] using hs₁.loads_le, ?_, ?_⟩
          · refine iff_of_false (length_pos_of_mem hmem).ne' fun h => ?_
            obtain ⟨w, hw, -⟩ := (hs₁.feasible_iff hmem).1 h
            rw [hnil] at hw
            cases hw
          · exact iff_of_true (fun w => (hself w).symm) fun h0 =>
              absurd h0 (length_pos_of_mem hmem).ne'
          · -- no partition that remains has an available worker
            rintro hsmall ps - hsub ⟨f, hf, hroom⟩
            obtain ⟨-, hsame, hmin⟩ := foldl_fewer s₁.pAvail s₁.remain (p, 1000000000)
            rw [getMinPartition] at hp₀
            have hps : ps = [] := eq_nil_iff_forall_not_mem.2 fun q hq => by
              obtain ⟨w, hw, hfw⟩ := hf q hq
              have hpos : 0 < 3 - s₁.loads w := room_pos_of_count_le (hroom w) hq hfw
              have hnone : s₁.pAvail q = [] := by
                by_contra hne
                have hle := hmin q (hsub hq) hne
                rw [hsame.resolve_right (not_not.2 (hp₀.symm ▸ hnil))] at hle
                have hsub' := (subperm_of_subset (hs₁.avail_nodup q (hsub hq)) fun w hw =>
                  ((hs₁.avail_iff q (hsub hq) w).1 hw).1).length_le
                have := hsmall q
                omega
              have := hloaded q (hsub hq) hnone w hw
              omega
            rw [hps]
            exact le_rfl
        · obtain ⟨ws, hsort, hperm, -⟩ :=
            sort.sorts (strictWeakOn_preferred s₁.loads (s₁.pAvail p₀))
          rw [hsort]
          have hs₂ := hs₁.sorted hperm
          have hwsNe : ws ≠ [] := fun h => hnil (nil_perm.1 (h ▸ hperm))
          have havail : (s₁.sortAvail p₀ ws).pAvail p₀ = ws := update_self ..
          obtain ⟨rem, s', heq, h⟩ := Searched.of_branches
            (fun w => allocPlan sort (allocate p₀ w (s₁.sortAvail p₀ ws))) hs₂ hmem
            (fun w => by rw [havail]) hwsNe (hs₁.not_allForced hnone (ne_nil_of_mem hmem))
            fun w hw => ih _ (Nat.lt_of_lt_of_le (length_remain_allocate hmem w) hlength)
              (hs₂.allocated hmem (havail.symm ▸ hw)) rfl
          exact ⟨rem, s', heq, { h with }⟩
        · refine absurd (all_eq_true.2 fun w hw => ?_) hpref
          have := ((hs₁.avail_iff p₀ hmem w).1 hw).2
          exact decide_eq_true (this.trans (by decide))

/-- `alloc_plan` returns from every legal state, whatever the sort does with workers of equal
preference. Each partition is then either allocated to a holder or remains. -/
theorem allocPlan_planned (sort : StdSort) (hids : ∀ p, ∀ w ∈ holders p, w ≠ [])
    (hs : Legal partitions holders given s) :
    ∃ rem s', allocPlan sort s = some (rem, s') ∧ Planned partitions holders given s rem s' := by
  obtain ⟨rem, s', heq, h⟩ := allocPlan_searched sort hids hs
  exact ⟨rem, s', heq, h.toPlanned⟩

end Legal

/-! ## A call -/

section Call

variable (remain : List PartitionId) (pAvail : PartitionId → List WorkerId) (loads : WorkerId → Nat)

/-- An allocation of partitions to available workers, of no more than there is room for. -/
def Respects (alloc : PartitionId → Option WorkerId) : Prop :=
  (∀ p ∈ remain, ∀ w, alloc p = some w → w ∈ pAvail p) ∧
    ∀ w, remain.countP (fun p => alloc p = some w) ≤ 3 - loads w

variable (hremain : remain.Nodup) (havail : ∀ p, (pAvail p).Nodup)
  (hloads : ∀ p, ∀ w ∈ pAvail p, loads w < 3)

include hremain havail hloads

theorem legal_call : Legal remain pAvail loads ⟨fun _ => none, remain, pAvail, loads⟩ where
  nodup := hremain
  remain_iff _ := (and_iff_left rfl).symm
  placed := nofun
  avail_iff p _ w := ⟨fun hw => ⟨hw, hloads p w hw⟩, And.left⟩
  avail_nodup p _ := havail p
  loads_le _ := Nat.le_of_lt
  given_le _ := le_rfl
  loaded _ _ := rfl

variable (hids : ∀ p, ∀ w ∈ pAvail p, w ≠ [])

include hids

/-- **`alloc_plan` is optimal**: it allocates partitions to available workers within the loads,
keeps the others, and no such allocation leaves fewer. -/
theorem allocPlan_least (sort : StdSort) (hfew : ∀ p, (pAvail p).length < 1000000000) :
    ∃ rem s, allocPlan sort ⟨fun _ => none, remain, pAvail, loads⟩ = some (rem, s) ∧
      Respects remain pAvail loads s.alloc ∧ (∀ p w, s.alloc p = some w → p ∈ remain) ∧
      (∀ p, p ∈ s.remain ↔ p ∈ remain ∧ s.alloc p = none) ∧
      rem = remain.countP (fun p => s.alloc p = none) ∧
      ∀ alloc, Respects remain pAvail loads alloc →
        rem ≤ remain.countP (fun p => alloc p = none) := by
  obtain ⟨rem, s, heq, h⟩ := allocPlan_searched sort hids (legal_call _ _ _ hremain havail hloads)
  refine ⟨rem, s, heq, ⟨fun p _ w hw => (h.legal.placed p w hw).2.1, fun w => ?_⟩,
    fun p w hw => (h.legal.placed p w hw).1, h.legal.remain_iff, ?_, fun alloc hr => ?_⟩
  · by_cases hw : loads w < 3
    · have : loads w + remain.countP _ ≤ 3 := h.within w hw
      omega
    · rw [countP_eq_zero.2 fun p _ => by simpa using fun hp => hw (h.legal.placed p w hp).2.2]
      exact Nat.zero_le _
  · rw [h.rem_eq, countP_eq_length_filter]
    refine ((perm_ext_iff_of_nodup h.legal.nodup (hremain.filter _)).2 fun p => ?_).length_eq
    rw [h.legal.remain_iff, mem_filter, decide_eq_true_iff]
  · -- the partitions that `alloc` allocates are assigned by it
    have hle := h.least hfew (remain.filter fun p => !decide (alloc p = none)) (hremain.filter _)
      filter_sublist.subset ⟨alloc, fun p hp => ?_, fun w => ?_⟩
    · rw [← countP_eq_length_filter] at hle
      have hall := remain.length_eq_countP_add_countP fun p => decide (alloc p = none)
      have hnot : remain.countP (fun p => decide ¬decide (alloc p = none) = true) =
          remain.countP fun p => !decide (alloc p = none) := countP_congr fun p _ => by simp
      change _ ≤ remain.length at hle
      omega
    · obtain ⟨hp, hsome⟩ := mem_filter.1 hp
      obtain ⟨w, hw⟩ := Option.ne_none_iff_exists'.1 (by simpa using hsome)
      exact ⟨w, hr.1 p hp w hw, hw⟩
    · exact filter_sublist.countP_le.trans (hr.2 w)

/-- **The load map** counts the new allocations exactly if they can all be made without a choice, or
not all partitions can be allocated: where a branch leaves nothing, its loads are not taken over. -/
theorem loads_consistent_iff (sort : StdSort) :
    (∃ rem s, allocPlan sort ⟨fun _ => none, remain, pAvail, loads⟩ = some (rem, s) ∧
      ∀ w, s.loads w = loads w + remain.countP (fun p => s.alloc p = some w)) ↔
    (Assignable pAvail (fun w => 3 - loads w) remain →
      Forced pAvail (fun w => 3 - loads w) remain) := by
  obtain ⟨rem, s, heq, h⟩ := allocPlan_searched sort hids (legal_call _ _ _ hremain havail hloads)
  constructor
  · rintro ⟨rem', s', heq', hall⟩ hassign
    cases heq.symm.trans heq'
    exact h.consistent_iff.1 hall (h.zero_iff.2 hassign)
  · exact fun hcond => ⟨rem, s, heq, h.consistent_iff.2 fun h0 => hcond (h.zero_iff.1 h0)⟩

end Call

/-- Partition 1 is available on two workers. -/
def twoHolders (p : PartitionId) : List WorkerId := if p = 1 then [[97], [98]] else []

theorem twoHolders_ok (p : PartitionId) : (twoHolders p).Nodup ∧ (∀ w ∈ twoHolders p, w ≠ []) ∧
    (twoHolders p).length < 1000000000 := by
  unfold twoHolders
  split_ifs <;> decide

theorem allocPlan_least_twoHolders : ∃ rem s,
    allocPlan .lenient ⟨fun _ => none, [1], twoHolders, fun _ => 0⟩ = some (rem, s) ∧
      Respects [1] twoHolders (fun _ => 0) s.alloc := by
  obtain ⟨rem, s, heq, hr, -⟩ := allocPlan_least [1] twoHolders (fun _ => 0) (by decide)
    (fun p => (twoHolders_ok p).1) (fun _ _ _ => by decide) (fun p => (twoHolders_ok p).2.1)
    .lenient fun p => (twoHolders_ok p).2.2
  exact ⟨rem, s, heq, hr⟩

theorem loads_consistent_iff_twoHolders :
    (∃ rem s, allocPlan .lenient ⟨fun _ => none, [1], twoHolders, fun _ => 0⟩ = some (rem, s) ∧
      ∀ w, s.loads w = 0 + [1].countP (fun p => s.alloc p = some w)) ↔
    (Assignable twoHolders (fun _ => 3 - 0) [1] → Forced twoHolders (fun _ => 3 - 0) [1]) :=
  loads_consistent_iff [1] twoHolders (fun _ => 0) (by decide) (fun p => (twoHolders_ok p).1)
    (fun _ _ _ => by decide) (fun p => (twoHolders_ok p).2.1) .lenient

/-- The partition is allocated, and no load is 1. -/
theorem loads_not_updated : ¬∃ rem s,
    allocPlan .lenient ⟨fun _ => none, [1], twoHolders, fun _ => 0⟩ = some (rem, s) ∧
      ∀ w, s.loads w = 0 + [1].countP (fun p => s.alloc p = some w) := by
  rintro ⟨rem, s, heq, hall⟩
  have hlegal := legal_call [1] twoHolders (fun _ => 0) (by decide) (fun p => (twoHolders_ok p).1)
    fun _ _ _ => by decide
  obtain ⟨rem', s', heq', h⟩ := allocPlan_searched .lenient (fun p => (twoHolders_ok p).2.1) hlegal
  cases heq.symm.trans heq'
  have hzero : rem = 0 := h.zero_iff.2 ⟨fun _ => some [97], by decide, fun w => ?_⟩
  · exact hlegal.not_allForced rfl (cons_ne_nil _ _) (h.consistent_iff.1 hall hzero)
  · exact countP_le_length.trans (by decide : 1 ≤ 3)

/-- A partition with too many available workers is left if the first one has none. -/
theorem allocPlan_of_many {ws : List WorkerId} (h : 1000000000 ≤ ws.length) (sort : StdSort) :
    ∃ s, allocPlan sort ⟨fun _ => none, [1, 2], update (fun _ => []) 2 ws, fun _ => 0⟩ =
      some (2, s) := by
  have hforced : allocateForced ⟨fun _ => none, [1, 2], update (fun _ => []) 2 ws, fun _ => 0⟩ =
      some ⟨fun _ => none, [1, 2], update (fun _ => []) 2 ws, fun _ => 0⟩ := by
    rw [allocateForced]
    split
    · rfl
    · case h_2 p w hw =>
      obtain ⟨hp, hw⟩ := of_onlyAvailable hw
      rcases mem_pair.1 hp with rfl | rfl
      · exact absurd hw (cons_ne_nil _ _).symm
      · have hone : ws = [w] := by simpa using hw
        rw [hone] at h
        exact absurd h (by simp)
  have hmin : getMinPartition 1 [1, 2] (update (fun _ => []) 2 ws) = 1 := by
    simp [getMinPartition, fewer, not_lt.2 h]
  rw [allocPlan]
  split
  · case h_1 hnone =>
    rw [hforced] at hnone
    cases hnone
  · case h_2 s₁ hs₁ =>
    obtain rfl := Option.some.inj (hforced.symm.trans hs₁)
    exact ⟨_, if_pos (by rw [hmin]; rfl)⟩

/-- A worker without an id is allocated for ever. Of 1000000000 workers none is allocated. -/
theorem allocPlan_not_least :
    (∀ sort, allocPlan sort ⟨fun _ => none, [1], update (fun _ => []) 1 [[]], fun _ => 0⟩ = none) ∧
    ∃ ws : List WorkerId, ws.Nodup ∧ Respects [1, 2] (update (fun _ => []) 2 ws) (fun _ => 0)
        (update (fun _ => none) 2 (some [97])) ∧
      ∀ sort, ∃ s, allocPlan sort ⟨fun _ => none, [1, 2], update (fun _ => []) 2 ws, fun _ => 0⟩ =
        some (2, s) := by
  refine ⟨fun sort => ?_, (List.range 1000000000).map fun n => replicate (n + 1) 97,
    nodup_range.map fun m n h => by simpa using congrArg length h, ⟨?_, fun w => ?_⟩,
    allocPlan_of_many (by rw [length_map, length_range])⟩
  · rw [allocPlan, allocateForced]
    rfl
  · intro p hp w hw
    rcases mem_pair.1 hp with rfl | rfl
    · exact absurd hw nofun
    · obtain rfl := Option.some.inj hw
      exact mem_map.2 ⟨0, mem_range.2 (by decide), rfl⟩
  · exact countP_le_length.trans (by decide : 2 ≤ 3)

end JasmineGraph.Executor.TriangleCount
