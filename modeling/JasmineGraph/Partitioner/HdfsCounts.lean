import JasmineGraph.Partitioner.Hdfs

/-!
# The reported size of an HDFS graph

`streamFromBufferToProcessingQueuePropertyGraph` hands every input edge to the partitioner
(`route`); `startStreamingFromBufferToPartitions` then reads the partitions' counts and writes
`vertexcount` and `edgecount`, while the consumers may still be at work, and stops them after that.

The edge texts are given by their two ids; what else a text holds is not counted.
-/

namespace JasmineGraph.Partitioner

open Schedule Bytes List Finset Function Partitioner

/-- The partitioner `startStreamingFromBufferToPartitions` constructs; its threshold is 1000. -/
abbrev graphConfig (numberOfPartitions : Nat) (isDirected : Bool) : Config (VertexId × VertexId) :=
  ⟨numberOfPartitions, isDirected, 1000, threshold_pos, id⟩

variable {n : Nat} {isDirected : Bool}

/-- The calls for one input edge. An id that is no number is logged, and nothing is called. -/
def route (n : Nat) (isDirected : Bool) (edge : VertexId × VertexId) :
    List (Label (graphConfig n isDirected)) :=
  match homeOf n edge.1, homeOf n edge.2 with
  | some sourceIndex, some destIndex =>
    if sourceIndex = destIndex then [.addLocalEdge edge sourceIndex]
    else .addEdgeCut edge sourceIndex ::
      if isDirected then [] else [.addEdgeCut edge.swap destIndex]
  | _, _ => []

/-! ## What has been recorded -/

section Bookkeeping

variable {E : Type}

def LocalPc.unrecorded : LocalPc E → List E
  | .recording _ edge => [edge]
  | .waiting | .processing _ | .exited => []

def CutPc.unrecorded : CutPc E → List E
  | .recording edge => [edge]
  | _ => []

/-- Recorded, but its far end not registered yet. -/
def CutPc.unregistered : CutPc E → List E
  | .registering edge => [edge]
  | _ => []

variable {cfg : Config E} {l : Label cfg} {ls : List (Label cfg)} {s t : State cfg}
  {i : Fin cfg.numberOfPartitions}

def endsOf (cfg : Config E) (edges : List E) : Finset (VertexId × VertexId) :=
  (edges.map cfg.ends).toFinset

theorem mem_endsOf {edges : List E} {p : VertexId × VertexId} :
    p ∈ endsOf cfg edges ↔ ∃ edge ∈ edges, cfg.ends edge = p := by
  simp [endsOf]

@[simp] theorem endsOf_concat (edges : List E) (edge : E) :
    endsOf cfg (edges ++ [edge]) = insert (cfg.ends edge) (endsOf cfg edges) := by
  ext p
  simp [mem_endsOf, or_comm, eq_comm]

/-- The far end `v` of another partition's cut edge was registered in partition `i`. -/
def RegisteredAt (cuts : Fin cfg.numberOfPartitions → Channel (CutPc E) E)
    (i : Fin cfg.numberOfPartitions) (v : VertexId) : Prop :=
  ∃ j, j ≠ i ∧ ∃ edge ∈ (cuts j).registered,
    homeOf cfg.numberOfPartitions (cfg.ends edge).2 = some i ∧ (cfg.ends edge).2 = v

variable {c : Channel (CutPc E) E}

theorem registeredAt_update {cuts : Fin cfg.numberOfPartitions → Channel (CutPc E) E} {new : List E}
    (hc : c.registered = (cuts i).registered ++ new) (k : Fin cfg.numberOfPartitions) (v : VertexId) :
    RegisteredAt (Function.update cuts i c) k v ↔ RegisteredAt cuts k v ∨
      (i ≠ k ∧ ∃ edge ∈ new, homeOf cfg.numberOfPartitions (cfg.ends edge).2 = some k ∧
        (cfg.ends edge).2 = v) := by
  constructor
  · rintro ⟨j, hj, edge, he, hhome⟩
    by_cases hji : j = i
    · subst hji
      rw [update_self, hc, mem_append] at he
      rcases he with he | he
      · exact .inl ⟨j, hj, edge, he, hhome⟩
      · exact .inr ⟨hj, edge, he, hhome⟩
    · rw [update_of_ne hji] at he
      exact .inl ⟨j, hj, edge, he, hhome⟩
  · rintro (⟨j, hj, edge, he, hhome⟩ | ⟨hik, edge, he, hhome⟩)
    · refine ⟨j, hj, edge, ?_, hhome⟩
      by_cases hji : j = i
      · subst hji
        rw [update_self, hc]
        exact mem_append_left _ he
      · rwa [update_of_ne hji]
    · refine ⟨i, hik, edge, ?_, hhome⟩
      rw [update_self, hc]
      exact mem_append_right _ he

structure Bookkept (s : State cfg) : Prop where
  locals : ∀ i, (s.locals i).chunks.written = (s.locals i).recorded ++ (s.locals i).pc.unrecorded
  cuts : ∀ i, (s.cuts i).chunks.written = (s.cuts i).recorded ++ (s.cuts i).pc.unrecorded
  registered : ∀ i, (s.cuts i).recorded = (s.cuts i).registered ++ (s.cuts i).pc.unregistered
  partitions : ∀ i, ∃ R : Finset VertexId, (s.partitions i).Records cfg.isDirected i
    (endsOf cfg (s.locals i).recorded) (endsOf cfg (s.cuts i).recorded) R ∧
      ∀ v, v ∈ R ↔ RegisteredAt s.cuts i v

theorem bookkept_start : Bookkept (start cfg) where
  locals _ := rfl
  cuts _ := rfl
  registered _ := rfl
  partitions i := ⟨∅, Partition.records_new i.isLt, fun v => by
    simp [RegisteredAt, start, Channel.new]⟩

theorem Bookkept.consumeLocalEdges {c : Channel (LocalPc E) E} (hs : Bookkept s)
    (hc : consumeLocalEdges cfg.partitionFileEdgeThreshold s.terminateConsumers (s.locals i) =
      some c) :
    Bookkept { s with
      locals := Function.update s.locals i c
      partitions := Function.update s.partitions i
        (recordLocal cfg (s.locals i).pc (s.partitions i)) } := by
  have hw := hs.locals i
  obtain ⟨R, hR, hmem⟩ := hs.partitions i
  have hkey : c.chunks.written = c.recorded ++ c.pc.unrecorded ∧
      (recordLocal cfg (s.locals i).pc (s.partitions i)).Records cfg.isDirected i
        (endsOf cfg c.recorded) (endsOf cfg (s.cuts i).recorded) R := by
    rcases localMove hc with hpc | hpc | ⟨hpc, -⟩ | ⟨hpc, -⟩ | hpc <;> rw [hpc] at hw ⊢
    case record =>
      refine ⟨by simpa [LocalPc.unrecorded] using hw, ?_⟩
      rw [endsOf_concat]
      exact hR.addEdge _
    all_goals exact ⟨by simpa [LocalPc.unrecorded] using hw, hR⟩
  refine ⟨forall_update (P := fun _ (c : Channel (LocalPc E) E) => c.chunks.written =
    c.recorded ++ c.pc.unrecorded) hs.locals hkey.1, hs.cuts, hs.registered, fun j => ?_⟩
  by_cases hj : j = i
  · subst hj
    exact ⟨R, by simpa using hkey.2, hmem⟩
  · simpa [hj] using hs.partitions j

theorem Bookkept.updateCut {partitions : Fin cfg.numberOfPartitions → Partition} (hs : Bookkept s)
    (newRegistered : List E) (hwritten : c.chunks.written = c.recorded ++ c.pc.unrecorded)
    (hregistered : c.recorded = c.registered ++ c.pc.unregistered)
    (hnew : c.registered = (s.cuts i).registered ++ newRegistered)
    (hp : ∀ k R, (s.partitions k).Records cfg.isDirected k (endsOf cfg (s.locals k).recorded)
        (endsOf cfg (s.cuts k).recorded) R →
      ∃ R', (partitions k).Records cfg.isDirected k (endsOf cfg (s.locals k).recorded)
        (endsOf cfg (Function.update s.cuts i c k).recorded) R' ∧
        ∀ v, v ∈ R' ↔ v ∈ R ∨ (i ≠ k ∧ ∃ edge ∈ newRegistered,
          homeOf cfg.numberOfPartitions (cfg.ends edge).2 = some k ∧ (cfg.ends edge).2 = v)) :
    Bookkept { s with cuts := Function.update s.cuts i c, partitions := partitions } where
  locals := hs.locals
  cuts := forall_update (P := fun _ (c : Channel (CutPc E) E) =>
    c.chunks.written = c.recorded ++ c.pc.unrecorded) hs.cuts hwritten
  registered := forall_update (P := fun _ (c : Channel (CutPc E) E) =>
    c.recorded = c.registered ++ c.pc.unregistered) hs.registered hregistered
  partitions k := by
    obtain ⟨R, hR, hmem⟩ := hs.partitions k
    obtain ⟨R', hR', hmem'⟩ := hp k R hR
    refine ⟨R', hR', fun v => ?_⟩
    rw [hmem', hmem, registeredAt_update hnew]

theorem Bookkept.updateCut_same (hs : Bookkept s)
    (hwritten : c.chunks.written = c.recorded ++ c.pc.unrecorded)
    (hrecorded : c.recorded = (s.cuts i).recorded)
    (hregistered : c.recorded = c.registered ++ c.pc.unregistered)
    (hsame : c.registered = (s.cuts i).registered) :
    Bookkept { s with cuts := Function.update s.cuts i c, partitions := s.partitions } := by
  refine hs.updateCut [] hwritten hregistered (by rw [hsame, append_nil])
    fun k R hR => ⟨R, ?_, by simp⟩
  by_cases hk : k = i
  · subst hk
    rwa [update_self, hrecorded]
  · rwa [update_of_ne hk]

theorem Bookkept.consumeEdgeCuts {partitions : Fin cfg.numberOfPartitions → Partition}
    (hs : Bookkept s)
    (hc : consumeEdgeCuts cfg.partitionFileEdgeThreshold s.terminateConsumers (s.cuts i) = some c)
    (hp : recordCut cfg i (s.cuts i).pc s.partitions = some partitions) :
    Bookkept { s with cuts := Function.update s.cuts i c, partitions := partitions } := by
  have hw := hs.cuts i
  have hr := hs.registered i
  rcases cutMove hc with hpc | hpc | ⟨hpc, -⟩ | ⟨hpc, -⟩ | ⟨hpc, -⟩ | ⟨hpc, -⟩ | @⟨edge, hpc⟩ |
    @⟨edge, hpc⟩ <;> rw [hpc] at hw hr hp <;>
    simp only [CutPc.unrecorded, CutPc.unregistered] at hw hr
  case test =>
    cases hp
    split_ifs <;> exact hs.updateCut_same hw rfl hr rfl
  case record =>
    -- the edge goes into the partition's cuts
    cases hp
    refine hs.updateCut [] (by simpa [CutPc.unrecorded] using hw)
      (by simpa [CutPc.unregistered] using hr) (by simp) fun k R hR => ⟨R, ?_, by simp⟩
    by_cases hk : k = i
    · subst hk
      simpa using hR.addToEdgeCuts _ _
    · simpa [hk] using hR
  case register =>
    -- its far end is made known to its partition
    obtain ⟨d, hd, rfl⟩ := Option.map_eq_some_iff.1 hp
    refine hs.updateCut [edge] (by simpa [CutPc.unrecorded] using hw)
      (by simpa [CutPc.unregistered] using hr) rfl fun k R hR => ?_
    have hcuts : endsOf cfg (Function.update s.cuts i { s.cuts i with
          pc := .draining
          registered := (s.cuts i).registered ++ [edge] } k).recorded =
        endsOf cfg (s.cuts k).recorded := by
      by_cases hk : k = i
      · subst hk
        rw [update_self]
      · rw [update_of_ne hk]
    rw [hcuts]
    by_cases hkd : d ≠ i ∧ k = d
    · obtain ⟨hdi, rfl⟩ := hkd
      refine ⟨insert (cfg.ends edge).2 R, ?_, fun v => ?_⟩
      · simpa [hdi] using hR.register _
      · simp [hd, Ne.symm hdi, or_comm, eq_comm]
    · refine ⟨R, ?_, fun v => ?_⟩
      · split_ifs with hdi
        · rw [update_of_ne fun hk => hkd ⟨hdi, hk⟩]
          exact hR
        · exact hR
      · have : ¬ (i ≠ k ∧ some d = some k) := fun hik => hkd
          ⟨(Option.some.inj hik.2).symm ▸ hik.1.symm, (Option.some.inj hik.2).symm⟩
        simp only [List.mem_singleton, exists_eq_left, hd]
        exact (or_iff_left fun h => this ⟨h.1, h.2.1⟩).symm
  all_goals
    cases hp
    exact hs.updateCut_same (by simpa [CutPc.unrecorded] using hw) rfl hr rfl

theorem Bookkept.step (hs : Bookkept s) (h : step cfg l s = some t) : Bookkept t := by
  cases move h with
  | addLocalEdge edge i =>
    refine ⟨forall_update (P := fun _ (c : Channel (LocalPc E) E) => c.chunks.written =
      c.recorded ++ c.pc.unrecorded) hs.locals (hs.locals i), hs.cuts, hs.registered, fun j => ?_⟩
    by_cases hj : j = i
    · subst hj
      simpa [addLocalEdge] using hs.partitions j
    · simpa [hj] using hs.partitions j
  | addEdgeCut edge i _ hc =>
    unfold addEdgeCut at hc
    split_ifs at hc
    cases hc
    exact hs.updateCut_same (hs.cuts i) rfl (hs.registered i) rfl
  | consumeLocalEdges i hc => exact hs.consumeLocalEdges hc
  | consumeEdgeCuts i hc hp => exact hs.consumeEdgeCuts hc hp
  | _ => exact { hs with }

theorem Bookkept.run (hs : Bookkept s) (h : run (Partitioner.step cfg) ls s = some t) :
    Bookkept t :=
  run_invariant (fun _ _ _ hs hstep => hs.step hstep) h hs

/-! ## What has been passed -/

theorem passed_step (h : step cfg l s = some t) (i : Fin cfg.numberOfPartitions) (edge : E) :
    (edge ∈ (t.locals i).passed ↔ edge ∈ (s.locals i).passed ∨ l = .addLocalEdge edge i) ∧
      (edge ∈ (t.cuts i).passed ↔ edge ∈ (s.cuts i).passed ∨ l = .addEdgeCut edge i) := by
  cases move h with
  | addLocalEdge e j =>
    by_cases hj : i = j
    · subst hj
      simp [addLocalEdge, eq_comm]
    · simp [hj, Fin.val_inj, Ne.symm hj]
  | addEdgeCut e j _ hc =>
    unfold addEdgeCut at hc
    split_ifs at hc
    cases hc
    by_cases hj : i = j
    · subst hj
      simp [eq_comm]
    · simp [hj, Fin.val_inj, Ne.symm hj]
  | @consumeLocalEdges j c hc =>
    have hpassed : c.passed = (s.locals j).passed := by cases localMove hc <;> rfl
    by_cases hj : i = j
    · subst hj
      simp [hpassed]
    · simp [hj]
  | @consumeEdgeCuts j c _ hc =>
    have hpassed : c.passed = (s.cuts j).passed := by cases cutMove hc <;> rfl
    by_cases hj : i = j
    · subst hj
      simp [hpassed]
    · simp [hj]
  | logged hindex hl =>
    have hne := (i.isLt.trans_le hindex).ne'
    rcases hl with rfl | rfl <;> simp [hne]
  | _ => simp

theorem passed_run (h : run (step cfg) ls s = some t) (i : Fin cfg.numberOfPartitions) (edge : E) :
    (edge ∈ (t.locals i).passed ↔ edge ∈ (s.locals i).passed ∨ .addLocalEdge edge ↑i ∈ ls) ∧
      (edge ∈ (t.cuts i).passed ↔ edge ∈ (s.cuts i).passed ∨ .addEdgeCut edge ↑i ∈ ls) := by
  induction ls generalizing s with
  | nil =>
    cases h
    simp
  | cons l ls ih =>
    obtain ⟨u, hu, h⟩ := run_cons_eq_some.1 h
    have hstep := passed_step hu i edge
    rw [(ih h).1, (ih h).2, hstep.1, hstep.2, List.mem_cons, List.mem_cons, or_assoc, or_assoc,
      @eq_comm _ l, @eq_comm _ l]
    exact ⟨.rfl, .rfl⟩

/-! ## Counting -/

/-- Every edge that was passed is recorded, and every far end registered. -/
structure Quiet (s : State cfg) : Prop where
  localArray : ∀ i, (s.locals i).array = []
  localPc : ∀ i, (s.locals i).pc = .waiting ∨ (s.locals i).pc = .processing []
  cutArray : ∀ i, (s.cuts i).array = []
  cutPc : ∀ i, (s.cuts i).pc = .test ∨ (s.cuts i).pc = .waiting ∨ (s.cuts i).pc = .woken ∨
    (s.cuts i).pc = .draining

instance [DecidableEq E] (s : State cfg) : Decidable (Quiet s) :=
  decidable_of_iff
    ((∀ i, (s.locals i).array = []) ∧
      (∀ i, (s.locals i).pc = .waiting ∨ (s.locals i).pc = .processing []) ∧
      (∀ i, (s.cuts i).array = []) ∧
      ∀ i, (s.cuts i).pc = .test ∨ (s.cuts i).pc = .waiting ∨ (s.cuts i).pc = .woken ∨
        (s.cuts i).pc = .draining)
    ⟨fun h => ⟨h.1, h.2.1, h.2.2.1, h.2.2.2⟩,
      fun h => ⟨h.localArray, h.localPc, h.cutArray, h.cutPc⟩⟩

def Main.isCounting : Main → Bool
  | .countingVertices .. | .countingEdges .. | .countingCuts .. | .counted .. => true
  | .producing | .stopping | .stopped => false

def upTo {n : Nat} (f : Fin n → Nat) (i : Nat) : Nat := ∑ j : Fin n, if j.val < i then f j else 0

theorem upTo_zero {n : Nat} (f : Fin n → Nat) : upTo f 0 = 0 := by simp [upTo]

theorem upTo_succ {n : Nat} (f : Fin n → Nat) {i : Nat} (h : i < n) :
    upTo f (i + 1) = upTo f i + f ⟨i, h⟩ := by
  have hsplit : ∀ j : Fin n, (if j.val < i + 1 then f j else 0) =
      (if j.val < i then f j else 0) + if j = ⟨i, h⟩ then f j else 0 := by
    intro j
    simp only [Fin.ext_iff]
    split_ifs <;> omega
  unfold upTo
  rw [sum_congr rfl fun j _ => hsplit j, sum_add_distrib, sum_ite_eq']
  simp

theorem upTo_of_le {n : Nat} (f : Fin n → Nat) {i : Nat} (h : n ≤ i) : upTo f i = ∑ j, f j :=
  sum_congr rfl fun j _ => if_pos (Nat.lt_of_lt_of_le j.isLt h)

section Tally

variable (cfg) (P : Fin cfg.numberOfPartitions → Partition)

/-- What the owner has counted so far, if the partitions do not change. -/
def Tally : Main → Prop
  | .countingVertices i totalVertices =>
    i ≤ cfg.numberOfPartitions ∧ totalVertices = upTo (fun j => (P j).getVertextCount) i
  | .countingEdges vertices i totalEdges edgeCuts =>
    i ≤ cfg.numberOfPartitions ∧ vertices = ∑ j, (P j).getVertextCount ∧
      totalEdges = upTo (fun j => (P j).getEdgesCount cfg.isDirected) i ∧
      edgeCuts = upTo (fun j => (P j).edgeCutsCount) i
  | .countingCuts vertices i totalEdges edgeCuts =>
    i < cfg.numberOfPartitions ∧ vertices = ∑ j, (P j).getVertextCount ∧
      totalEdges = upTo (fun j => (P j).getEdgesCount cfg.isDirected) (i + 1) ∧
      edgeCuts = upTo (fun j => (P j).edgeCutsCount) i
  | .counted vertices edges =>
    vertices = ∑ j, (P j).getVertextCount ∧
      edges = ∑ j, (P j).getEdgesCount cfg.isDirected + (∑ j, (P j).edgeCutsCount) / 2
  | .producing | .stopping | .stopped => True

variable {cfg P} {m m' : Main}

theorem Tally.count (hm : Tally cfg P m) (h : count cfg P m = some m') :
    m'.isCounting = true ∧ Tally cfg P m' := by
  cases m with
  | producing =>
    cases h
    exact ⟨rfl, Nat.zero_le _, (upTo_zero _).symm⟩
  | countingVertices i totalVertices =>
    obtain ⟨hi, htotal⟩ := hm
    simp only [count] at h
    split_ifs at h with hlt <;> cases h
    · exact ⟨rfl, hlt, by rw [upTo_succ _ hlt, htotal]⟩
    · refine ⟨rfl, Nat.zero_le _, ?_, (upTo_zero _).symm, (upTo_zero _).symm⟩
      rw [htotal, upTo_of_le _ (Nat.not_lt.1 hlt)]
  | countingEdges vertices i totalEdges edgeCuts =>
    obtain ⟨hi, hv, he, hc⟩ := hm
    simp only [count] at h
    split_ifs at h with hlt <;> cases h
    · exact ⟨rfl, hlt, hv, by rw [upTo_succ _ hlt, he], hc⟩
    · refine ⟨rfl, hv, ?_⟩
      rw [he, hc, upTo_of_le _ (Nat.not_lt.1 hlt), upTo_of_le _ (Nat.not_lt.1 hlt)]
  | countingCuts vertices i totalEdges edgeCuts =>
    obtain ⟨hi, hv, he, hc⟩ := hm
    simp only [count, dif_pos hi] at h
    cases h
    exact ⟨rfl, hi, hv, he, by rw [upTo_succ _ hi, hc]⟩
  | counted vertices edges => cases h
  | stopping => cases h
  | stopped => cases h

end Tally

/-- The consumers have nothing to do while the owner counts. -/
structure Reading (P : Fin cfg.numberOfPartitions → Partition) (s : State cfg) : Prop where
  quiet : Quiet s
  partitions : s.partitions = P
  running : s.terminateConsumers = false
  counting : s.main.isCounting = true
  tally : Tally cfg P s.main

theorem Quiet.consumeLocalEdges {c : Channel (LocalPc E) E} (hs : Quiet s)
    (hc : consumeLocalEdges cfg.partitionFileEdgeThreshold false (s.locals i) = some c) :
    c.array = [] ∧ (c.pc = .waiting ∨ c.pc = .processing []) := by
  have harr := hs.localArray i
  have hpc := hs.localPc i
  cases localMove hc with
  | swap => exact ⟨rfl, .inr (by rw [harr])⟩
  | wait => exact ⟨harr, .inl rfl⟩
  | leave _ hflag => cases hflag
  | write hp | record hp => simp [hp] at hpc

theorem Quiet.consumeEdgeCuts (hs : Quiet s)
    (hc : consumeEdgeCuts cfg.partitionFileEdgeThreshold false (s.cuts i) = some c) :
    c.array = [] ∧ (c.pc = .test ∨ c.pc = .waiting ∨ c.pc = .woken ∨ c.pc = .draining) := by
  have harr := hs.cutArray i
  have hpc := hs.cutPc i
  cases cutMove hc with
  | test => exact ⟨harr, .inr (.inl rfl)⟩
  | wake => exact ⟨harr, .inr (.inr (.inl rfl))⟩
  | leave _ hflag => cases hflag
  | drain => exact ⟨harr, .inr (.inr (.inr rfl))⟩
  | write _ ha =>
    rw [harr] at ha
    simp at ha
  | drained => exact ⟨harr, .inl rfl⟩
  | record hp | register hp => simp [hp] at hpc

theorem Quiet.recordLocal (hs : Quiet s) (i : Fin cfg.numberOfPartitions) (P : Partition) :
    recordLocal cfg (s.locals i).pc P = P := by
  rcases hs.localPc i with h | h <;> rw [h] <;> rfl

theorem Quiet.recordCut (hs : Quiet s) (i : Fin cfg.numberOfPartitions)
    (P : Fin cfg.numberOfPartitions → Partition) : recordCut cfg i (s.cuts i).pc P = some P := by
  rcases hs.cutPc i with h | h | h | h <;> rw [h] <;> rfl

theorem Reading.step {P : Fin cfg.numberOfPartitions → Partition} (hs : Reading P s)
    (h : step cfg l s = some t) :
    Reading P t ∨ t.main = .stopping := by
  have hcount := hs.counting
  cases move h with
  | addLocalEdge _ _ hm | addEdgeCut _ _ hm | joined hm | logged _ _ hm =>
    rw [hm] at hcount
    cases hcount
  | consumeLocalEdges j hc =>
    rw [hs.running] at hc
    obtain ⟨harr, hpc⟩ := hs.quiet.consumeLocalEdges hc
    refine .inl ⟨⟨?_, ?_, hs.quiet.cutArray, hs.quiet.cutPc⟩, ?_, hs.running, hs.counting, hs.tally⟩
    · exact forall_update (P := fun _ (c : Channel (LocalPc E) E) => c.array = [])
        hs.quiet.localArray harr
    · exact forall_update (P := fun _ (c : Channel (LocalPc E) E) =>
        c.pc = .waiting ∨ c.pc = .processing []) hs.quiet.localPc hpc
    · dsimp only
      rw [hs.quiet.recordLocal, update_eq_self, hs.partitions]
  | consumeEdgeCuts j hc hp =>
    rw [hs.running] at hc
    obtain ⟨harr, hpc⟩ := hs.quiet.consumeEdgeCuts hc
    rw [hs.quiet.recordCut] at hp
    cases hp
    refine .inl ⟨⟨hs.quiet.localArray, hs.quiet.localPc, ?_, ?_⟩, hs.partitions, hs.running,
      hs.counting, hs.tally⟩
    · exact forall_update (P := fun _ (c : Channel (CutPc E) E) => c.array = [])
        hs.quiet.cutArray harr
    · exact forall_update (P := fun _ (c : Channel (CutPc E) E) =>
        c.pc = .test ∨ c.pc = .waiting ∨ c.pc = .woken ∨ c.pc = .draining) hs.quiet.cutPc hpc
  | count hm =>
    rw [hs.partitions] at hm
    obtain ⟨hcounting, htally⟩ := hs.tally.count hm
    exact .inl ⟨{ hs.quiet with }, hs.partitions, hs.running, hcounting, htally⟩
  | stop => exact .inr rfl

theorem main_step_of_stopping (hs : s.main = .stopping ∨ s.main = .stopped)
    (h : step cfg l s = some t) : t.main = .stopping ∨ t.main = .stopped := by
  cases move h with
  | count hm => rcases hs with hs | hs <;> rw [hs] at hm <;> cases hm
  | stop => exact .inl rfl
  | joined => exact .inr rfl
  | _ => exact hs

/-- The flag is set by nothing but `stopConsumerThreads`. -/
theorem running_of_producing (h : run (step cfg) ls (start cfg) = some s)
    (hmain : s.main = .producing) : s.terminateConsumers = false := by
  have hinv : s.terminateConsumers = false ∨ s.main = .stopping ∨ s.main = .stopped := by
    refine run_invariant (I := fun s => s.terminateConsumers = false ∨ s.main = .stopping ∨
      s.main = .stopped) (fun l s t hs h => ?_) h (.inl rfl)
    rcases hs with hs | hs
    · cases move h <;> simp [hs]
    · exact .inr (main_step_of_stopping hs h)
  rw [hmain] at hinv
  simpa using hinv

def Unready (threshold : Nat) (c : Channel (LocalPc E) E) : Prop :=
  c.passed.length < threshold → c.pc = .waiting ∧ c.ready = false ∧ c.array = c.passed

theorem Unready.addLocalEdge {threshold : Nat} {edge : E} {c : Channel (LocalPc E) E}
    (hc : Unready threshold c) : Unready threshold (addLocalEdge threshold edge c) := by
  intro hlt
  simp only [Partitioner.addLocalEdge, length_append, length_singleton] at hlt ⊢
  obtain ⟨hpc, hready, harr⟩ := hc (by omega)
  refine ⟨hpc, ?_, by rw [harr]⟩
  rw [harr, if_neg (by omega), hready]

theorem Unready.step (hs : s.terminateConsumers = false →
      ∀ i, Unready cfg.partitionFileEdgeThreshold (s.locals i)) (h : step cfg l s = some t) :
    t.terminateConsumers = false →
      ∀ i, Unready cfg.partitionFileEdgeThreshold (t.locals i) := by
  intro hrunning
  cases move h with
  | addLocalEdge edge i =>
    exact forall_update (P := fun _ => Unready cfg.partitionFileEdgeThreshold) (hs hrunning)
      (hs hrunning i).addLocalEdge
  | @consumeLocalEdges i c hc =>
    have hold := hs hrunning
    refine forall_update (P := fun _ => Unready cfg.partitionFileEdgeThreshold) hold fun hlt => ?_
    have hpassed : c.passed = (s.locals i).passed := by cases localMove hc <;> rfl
    obtain ⟨hpc, hready, -⟩ := hold i (hpassed ▸ hlt)
    -- the consumer waits for more edges, so it takes no step
    have hflag : s.terminateConsumers = false := hrunning
    rw [Partitioner.consumeLocalEdges, hpc, hready, hflag] at hc
    cases hc
  | stop => cases hrunning
  | _ => exact hs hrunning

/-- **Few local edges are not recorded before the count**: what is recorded in full is nothing or as
many edges as a file holds. -/
theorem Quiet.passed (hs : Quiet s) (h : run (step cfg) ls (start cfg) = some s)
    (hmain : s.main = .producing) (i : Fin cfg.numberOfPartitions) :
    (s.locals i).passed = [] ∨ cfg.partitionFileEdgeThreshold ≤ (s.locals i).passed.length := by
  have hunready : s.terminateConsumers = false →
      ∀ i, Unready cfg.partitionFileEdgeThreshold (s.locals i) :=
    run_invariant (I := fun s : State cfg => s.terminateConsumers = false →
      ∀ i, Unready cfg.partitionFileEdgeThreshold (s.locals i))
      (fun l s t hs h => Unready.step hs h) h fun _ _ _ => ⟨rfl, rfl, rfl⟩
  by_cases hlt : (s.locals i).passed.length < cfg.partitionFileEdgeThreshold
  · obtain ⟨-, -, harr⟩ := hunready (running_of_producing h hmain) i hlt
    exact .inl (harr ▸ hs.localArray i)
  · exact .inr (Nat.le_of_not_lt hlt)

theorem Quiet.counted {vertices edges : Nat} (hs : Quiet s)
    (hrunning : s.terminateConsumers = false) (hmain : s.main = .producing)
    (h : run (step cfg) (.count :: ls) s = some t) (ht : t.main = .counted vertices edges) :
    vertices = ∑ j, (s.partitions j).getVertextCount ∧
      edges = ∑ j, (s.partitions j).getEdgesCount cfg.isDirected +
        (∑ j, (s.partitions j).edgeCutsCount) / 2 := by
  obtain ⟨u, hu, h⟩ := run_cons_eq_some.1 h
  have hreading : Reading s.partitions u := by
    simp only [step, hmain, count, Option.map_some] at hu
    cases hu
    exact ⟨{ hs with }, rfl, hrunning, rfl, Nat.zero_le _, (upTo_zero _).symm⟩
  have hinv : Reading s.partitions t ∨ t.main = .stopping ∨ t.main = .stopped := by
    refine run_invariant (I := fun t => Reading s.partitions t ∨ t.main = .stopping ∨
      t.main = .stopped) (fun l s t hs h => ?_) h (.inl hreading)
    rcases hs with hs | hs
    · exact (hs.step h).imp_right .inl
    · exact .inr (main_step_of_stopping hs h)
  rw [ht] at hinv
  have hread := hinv.resolve_right (by simp)
  have htally := hread.tally
  rw [ht] at htally
  exact htally

theorem Quiet.recorded (hs : Quiet s) (hsound : Sound s) (hbook : Bookkept s)
    (i : Fin cfg.numberOfPartitions) :
    (s.locals i).recorded.Perm (s.locals i).passed ∧ (s.cuts i).recorded.Perm (s.cuts i).passed ∧
      (s.cuts i).registered.Perm (s.cuts i).passed := by
  have hl : (s.locals i).pc.batch = [] ∧ (s.locals i).pc.unrecorded = [] := by
    rcases hs.localPc i with h | h <;> rw [h] <;> exact ⟨rfl, rfl⟩
  have hc : (s.cuts i).pc.unrecorded = [] ∧ (s.cuts i).pc.unregistered = [] := by
    rcases hs.cutPc i with h | h | h | h <;> rw [h] <;> exact ⟨rfl, rfl⟩
  have hle := (hsound.locals i).edges
  have hce := (hsound.cuts i).edges
  rw [hbook.locals i, hl.1, hl.2, hs.localArray i] at hle
  rw [hbook.cuts i, hc.1, hs.cutArray i] at hce
  refine ⟨by simpa using hle, by simpa using hce, ?_⟩
  rw [hbook.registered i, hc.2] at hce
  simpa using hce

end Bookkeeping

/-! ## The calls for an input -/

section Input

/-- A call of a producer. -/
def Label.isCall {E : Type} {cfg : Config E} : Label cfg → Bool
  | .addLocalEdge .. | .addEdgeCut .. => true
  | _ => false

variable {e e' : VertexId × VertexId} {a b i : Fin n}

theorem addLocalEdge_mem_route (ha : homeOf n e'.1 = some a) (hb : homeOf n e'.2 = some b) :
    .addLocalEdge e ↑i ∈ route n isDirected e' ↔ e' = e ∧ a = i ∧ b = i := by
  simp only [route, ha, hb]
  by_cases hab : a = b
  · subst hab
    simp [Fin.val_inj, eq_comm]
  · rw [if_neg hab]
    refine iff_of_false (by cases isDirected <;> simp) fun h => hab (h.2.1.trans h.2.2.symm)

theorem addEdgeCut_mem_route (ha : homeOf n e'.1 = some a) (hb : homeOf n e'.2 = some b) :
    .addEdgeCut e ↑i ∈ route n isDirected e' ↔
      a ≠ b ∧ (e' = e ∧ a = i ∨ isDirected = false ∧ e'.swap = e ∧ b = i) := by
  simp only [route, ha, hb]
  split_ifs with hab hd
  · simp [hab]
  · simp [hab, hd, Fin.val_inj, eq_comm]
  · simp [hab, hd, Fin.val_inj, eq_comm]

/-- The assumptions on an input: no loops, ids with a partition, no comma in an id, and few enough
edges for the totals, which are `int`s. -/
structure Admissible (n : Nat) (input : List (VertexId × VertexId)) : Prop where
  loopFree : ∀ e ∈ input, e.1 ≠ e.2
  homes : ∀ e ∈ input, (homeOf n e.1).isSome ∧ (homeOf n e.2).isSome
  commaFree : ∀ e ∈ input, 44 ∉ e.1 ∧ 44 ∉ e.2
  fits : 2 * input.length < 2 ^ 31

/-- The distinct vertices of an input. -/
def inputVertices (input : List (VertexId × VertexId)) : Finset VertexId :=
  input.toFinset.image Prod.fst ∪ input.toFinset.image Prod.snd

/-- The number of distinct edges: ordered pairs if directed, unordered pairs otherwise. -/
def inputEdges (isDirected : Bool) (input : List (VertexId × VertexId)) : Nat :=
  if isDirected then input.toFinset.card
  else (input.toFinset.image fun e => s(e.1, e.2)).card

theorem mem_stored {edges : Finset (VertexId × VertexId)} :
    e ∈ Partition.stored isDirected edges ↔ e ∈ edges ∨ isDirected = false ∧ e.swap ∈ edges := by
  unfold Partition.stored
  cases isDirected with
  | true => simp
  | false =>
    simp only [Bool.false_eq_true, if_false, mem_union, mem_image, true_and]
    refine or_congr_right ⟨?_, fun h => ⟨e.swap, h, Prod.swap_swap e⟩⟩
    rintro ⟨e', he', rfl⟩
    rwa [Prod.swap_swap]

theorem image_unordered_stored (edges : Finset (VertexId × VertexId)) :
    (Partition.stored false edges).image (fun e => s(e.1, e.2)) =
      edges.image fun e => s(e.1, e.2) := by
  ext q
  simp only [mem_image, mem_stored, true_and]
  constructor
  · rintro ⟨e, he | he, rfl⟩
    · exact ⟨e, he, rfl⟩
    · exact ⟨e.swap, he, Sym2.eq_swap⟩
  · rintro ⟨e, he, rfl⟩
    exact ⟨e, .inl he, rfl⟩

/-- A state in which the producers have made the calls for the input and the consumers are done. -/
structure Loaded (input : List (VertexId × VertexId)) (s : State (graphConfig n isDirected)) :
    Prop where
  sound : Sound s
  bookkept : Bookkept s
  quiet : Quiet s
  locals : ∀ i e, e ∈ (s.locals i).passed ↔
    e ∈ input ∧ homeOf n e.1 = some i ∧ homeOf n e.2 = some i
  cuts : ∀ i e, e ∈ (s.cuts i).passed ↔
    e ∈ Partition.stored isDirected input.toFinset ∧ homeOf n e.1 = some i ∧ homeOf n e.2 ≠ some i

variable {input : List (VertexId × VertexId)} {s : State (graphConfig n isDirected)}

theorem loaded_of_run {before : List (Label (graphConfig n isDirected))} (hin : Admissible n input)
    (hcalls : (before.filter Label.isCall).Perm (input.flatMap (route n isDirected)))
    (hrun : run (step (graphConfig n isDirected)) before (start _) = some s) (hquiet : Quiet s) :
    Loaded input s := by
  have hcall : ∀ l : Label (graphConfig n isDirected), l.isCall = true →
      (l ∈ before ↔ ∃ e' ∈ input, l ∈ route n isDirected e') := by
    intro l hl
    rw [← mem_flatMap, ← hcalls.mem_iff, List.mem_filter, and_iff_left hl]
  have hhomes : ∀ e ∈ input, ∃ a b, homeOf n e.1 = some a ∧ homeOf n e.2 = some b := by
    intro e he
    obtain ⟨h1, h2⟩ := hin.homes e he
    obtain ⟨a, ha⟩ := Option.isSome_iff_exists.1 h1
    obtain ⟨b, hb⟩ := Option.isSome_iff_exists.1 h2
    exact ⟨a, b, ha, hb⟩
  refine ⟨sound_start.run hrun, bookkept_start.run hrun, hquiet, fun i e => ?_, fun i e => ?_⟩
  · rw [(passed_run hrun i e).1, hcall _ rfl]
    constructor
    · rintro (h | ⟨e', he', hmem⟩)
      · cases h
      · obtain ⟨a, b, ha, hb⟩ := hhomes e' he'
        obtain ⟨rfl, rfl, rfl⟩ := (addLocalEdge_mem_route ha hb).1 hmem
        exact ⟨he', ha, hb⟩
    · rintro ⟨he, ha, hb⟩
      exact .inr ⟨e, he, (addLocalEdge_mem_route ha hb).2 ⟨rfl, rfl, rfl⟩⟩
  · rw [(passed_run hrun i e).2, hcall _ rfl]
    constructor
    · rintro (h | ⟨e', he', hmem⟩)
      · cases h
      · obtain ⟨a, b, ha, hb⟩ := hhomes e' he'
        obtain ⟨hab, ⟨rfl, rfl⟩ | ⟨hd, rfl, rfl⟩⟩ := (addEdgeCut_mem_route ha hb).1 hmem
        · refine ⟨?_, ha, fun h => hab (Option.some.inj (h.symm.trans hb))⟩
          rw [mem_stored]
          exact .inl (mem_toFinset.2 he')
        · refine ⟨?_, hb, fun h => hab (Option.some.inj (ha.symm.trans h))⟩
          rw [mem_stored, Prod.swap_swap]
          exact .inr ⟨hd, mem_toFinset.2 he'⟩
    · rintro ⟨he, ha, hne⟩
      right
      rw [mem_stored] at he
      rcases he with he | ⟨hd, he⟩ <;> rw [mem_toFinset] at he
      · obtain ⟨a, b, -, hb⟩ := hhomes e he
        refine ⟨e, he, (addEdgeCut_mem_route ha hb).2 ⟨?_, .inl ⟨rfl, rfl⟩⟩⟩
        rintro rfl
        exact hne hb
      · obtain ⟨a, b, hb, -⟩ := hhomes e.swap he
        refine ⟨e.swap, he, (addEdgeCut_mem_route hb ha).2 ⟨?_, .inr ⟨hd, Prod.swap_swap e, rfl⟩⟩⟩
        rintro rfl
        exact hne hb

/-! ## The counts of a loaded state -/

section Cardinality

variable {α : Type*}

theorem sum_card_home (A : Finset α) (f : α → Option (Fin n)) (hf : ∀ a ∈ A, (f a).isSome) :
    ∑ i, (A.filter fun a => f a = some i).card = A.card := by
  rw [card_eq_sum_card_fiberwise (f := f)]
  · rw [sum_image fun i _ j _ h => Option.some.inj h]
  · intro a ha
    obtain ⟨i, hi⟩ := Option.isSome_iff_exists.1 (hf a ha)
    simp [hi]

theorem two_mul_card_unordered [DecidableEq α] {T : Finset (α × α)} (hsymm : ∀ p ∈ T, p.swap ∈ T) :
    2 * (T.image fun p => s(p.1, p.2)).card = T.card + (T.filter fun p => p.1 = p.2).card := by
  have hmaps : Set.MapsTo (fun p : α × α => s(p.1, p.2)) ↑(T.filter fun p => p.1 = p.2)
      ↑(T.image fun p => s(p.1, p.2)) := fun p hp =>
    mem_image_of_mem _ (Finset.filter_subset _ _ hp)
  rw [card_eq_sum_card_image (fun p : α × α => s(p.1, p.2)) T,
    card_eq_sum_card_fiberwise hmaps, ← sum_add_distrib, mul_comm]
  refine (Finset.sum_const_nat fun q hq => ?_).symm
  obtain ⟨p, hp, rfl⟩ := mem_image.1 hq
  have hfiber : T.filter (fun r => s(r.1, r.2) = s(p.1, p.2)) = {p, p.swap} := by
    ext r
    simp only [Finset.mem_filter, Finset.mem_insert, Finset.mem_singleton, Sym2.eq_iff]
    constructor
    · rintro ⟨-, ⟨h1, h2⟩ | ⟨h1, h2⟩⟩
      · exact .inl (Prod.ext h1 h2)
      · exact .inr (Prod.ext h1 h2)
    · rintro (rfl | rfl)
      · exact ⟨hp, .inl ⟨rfl, rfl⟩⟩
      · exact ⟨hsymm p hp, .inr ⟨rfl, rfl⟩⟩
  rw [Finset.filter_comm, hfiber]
  by_cases hloop : p.1 = p.2
  · have hswap : p.swap = p := Prod.ext hloop.symm hloop
    simp [hswap, Finset.filter_singleton, hloop]
  · have hne : p ≠ p.swap := fun h => hloop (congrArg Prod.fst h)
    simp [card_pair hne, filter_insert, Finset.filter_singleton, hloop, Ne.symm hloop]

/-- A symmetric set of pairs without loops has two of each unordered pair. -/
theorem card_of_symmetric [DecidableEq α] {T : Finset (α × α)} (hsymm : ∀ p ∈ T, p.swap ∈ T)
    (hloop : ∀ p ∈ T, p.1 ≠ p.2) : T.card = 2 * (T.image fun p => s(p.1, p.2)).card := by
  rw [two_mul_card_unordered hsymm, filter_false_of_mem hloop, card_empty, add_zero]

end Cardinality

variable (hs : Loaded input s) (hin : Admissible n input)

include hs in
theorem Loaded.endsOf_locals (i : Fin n) : endsOf (graphConfig n isDirected) (s.locals i).recorded =
      input.toFinset.filter fun e => homeOf n e.1 = some i ∧ homeOf n e.2 = some i := by
  ext e
  rw [mem_endsOf, Finset.mem_filter, mem_toFinset, ← hs.locals i e,
    ← (hs.quiet.recorded hs.sound hs.bookkept i).1.mem_iff]
  simp

include hs in
theorem Loaded.endsOf_cuts (i : Fin n) : endsOf (graphConfig n isDirected) (s.cuts i).recorded =
      (Partition.stored isDirected input.toFinset).filter fun e =>
        homeOf n e.1 = some i ∧ homeOf n e.2 ≠ some i := by
  ext e
  rw [mem_endsOf, Finset.mem_filter, ← hs.cuts i e,
    ← (hs.quiet.recorded hs.sound hs.bookkept i).2.1.mem_iff]
  simp

include hs hin in
theorem Loaded.getVertextCount (i : Fin n) : (s.partitions i).getVertextCount =
      ((inputVertices input).filter fun v => homeOf n v = some i).card := by
  obtain ⟨R, hR, hmem⟩ := hs.bookkept.partitions i
  rw [hR.getVertextCount, hs.endsOf_locals, hs.endsOf_cuts]
  congr 1
  ext v
  simp only [mem_union, mem_image, Finset.mem_filter, inputVertices, hmem]
  constructor
  · rintro (((⟨e, ⟨he, h1, h2⟩, rfl⟩ | ⟨e, ⟨he, h1, h2⟩, rfl⟩) | ⟨e, ⟨he, h1, -⟩, rfl⟩) | hreg)
    · exact ⟨.inl ⟨e, he, rfl⟩, h1⟩
    · exact ⟨.inr ⟨e, he, rfl⟩, h2⟩
    · refine ⟨?_, h1⟩
      rcases mem_stored.1 he with he | ⟨-, he⟩
      · exact .inl ⟨e, he, rfl⟩
      · exact .inr ⟨e.swap, he, rfl⟩
    · obtain ⟨j, hj, e, he, hhome, rfl⟩ := hreg
      rw [(hs.quiet.recorded hs.sound hs.bookkept j).2.2.mem_iff, hs.cuts] at he
      refine ⟨?_, hhome⟩
      rcases mem_stored.1 he.1 with he | ⟨-, he⟩
      · exact .inr ⟨e, he, rfl⟩
      · exact .inl ⟨e.swap, he, rfl⟩
  · rintro ⟨⟨e, he, rfl⟩ | ⟨e, he, rfl⟩, hhome⟩
    · by_cases h2 : homeOf n e.2 = some i
      · exact .inl (.inl (.inl ⟨e, ⟨he, hhome, h2⟩, rfl⟩))
      · exact .inl (.inr ⟨e, ⟨mem_stored.2 (.inl he), hhome, h2⟩, rfl⟩)
    · obtain ⟨j, hj⟩ := Option.isSome_iff_exists.1 (hin.homes e (mem_toFinset.1 he)).1
      by_cases hji : j = i
      · exact .inl (.inl (.inr ⟨e, ⟨he, hji ▸ hj, hhome⟩, rfl⟩))
      · -- the far end of a cut edge is known to its own partition because it was registered
        refine .inr ⟨j, hji, e, ?_, hhome, rfl⟩
        rw [(hs.quiet.recorded hs.sound hs.bookkept j).2.2.mem_iff, hs.cuts]
        refine ⟨mem_stored.2 (.inl he), hj, fun h => hji ?_⟩
        exact Option.some.inj (h.symm.trans hhome)

include hs hin in
theorem Loaded.sum_getVertextCount :
    ∑ i, (s.partitions i).getVertextCount = (inputVertices input).card := by
  rw [sum_congr rfl fun i _ => hs.getVertextCount hin i]
  refine sum_card_home _ _ fun v hv => ?_
  rcases mem_union.1 hv with hv | hv <;> obtain ⟨e, he, rfl⟩ := mem_image.1 hv
  · exact (hin.homes e (mem_toFinset.1 he)).1
  · exact (hin.homes e (mem_toFinset.1 he)).2

include hs in
theorem Loaded.edgeCutsCount (i : Fin n) : (s.partitions i).edgeCutsCount =
      ((Partition.stored isDirected input.toFinset).filter fun e =>
        homeOf n e.1 = some i ∧ homeOf n e.2 ≠ some i).card := by
  obtain ⟨R, hR, -⟩ := hs.bookkept.partitions i
  rw [hR.edgeCutsCount, hs.endsOf_cuts]

include hs hin in
theorem Loaded.getEdgesCount (i : Fin n) : (s.partitions i).getEdgesCount isDirected =
      if isDirected then
        ((Partition.stored isDirected input.toFinset).filter fun e =>
          homeOf n e.1 = some i ∧ homeOf n e.2 = some i).card
      else ((Partition.stored isDirected input.toFinset).filter fun e =>
          homeOf n e.1 = some i ∧ homeOf n e.2 = some i).card / 2 := by
  obtain ⟨R, hR, -⟩ := hs.bookkept.partitions i
  have hcomma : ∀ e ∈ endsOf (graphConfig n isDirected) (s.locals i).recorded,
      (44 : UInt8) ∉ e.1 ∧ (44 : UInt8) ∉ e.2 := by
    intro e he
    rw [hs.endsOf_locals, Finset.mem_filter, mem_toFinset] at he
    exact hin.commaFree e he.1
  rw [hR.getEdgesCount hcomma, hs.endsOf_locals]
  cases isDirected with
  | true => rfl
  | false =>
    -- the local edges, in the directions they are stored in
    rw [if_neg (by simp), if_neg (by simp)]
    congr 2
    ext e
    simp only [mem_stored, Finset.mem_filter, Prod.fst_swap, Prod.snd_swap]
    tauto

include hin in
/-- Every stored edge is a local or a cut edge of the home of its source. -/
theorem card_stored (isDirected : Bool) :
    ∑ i : Fin n, ((Partition.stored isDirected input.toFinset).filter fun e =>
        homeOf n e.1 = some i ∧ homeOf n e.2 = some i).card +
      ∑ i : Fin n, ((Partition.stored isDirected input.toFinset).filter fun e =>
        homeOf n e.1 = some i ∧ homeOf n e.2 ≠ some i).card =
    (Partition.stored isDirected input.toFinset).card := by
  rw [← sum_card_home _ fun e : VertexId × VertexId => homeOf n e.1, ← sum_add_distrib]
  · refine sum_congr rfl fun i _ => ?_
    rw [← Finset.filter_filter, ← Finset.filter_filter, card_filter_add_card_filter_not]
  · intro e he
    rcases mem_stored.1 he with he | ⟨-, he⟩
    · exact (hin.homes e (mem_toFinset.1 he)).1
    · exact (hin.homes e.swap (mem_toFinset.1 he)).2

include hin in
theorem sum_cuts_eq_zero_iff : ∑ i : Fin n, ((Partition.stored true input.toFinset).filter fun e =>
        homeOf n e.1 = some i ∧ homeOf n e.2 ≠ some i).card = 0 ↔
      ∀ e ∈ input, homeOf n e.1 = homeOf n e.2 := by
  simp only [Finset.sum_eq_zero_iff, mem_univ, forall_const, card_eq_zero,
    filter_eq_empty_iff, mem_stored, Bool.true_eq_false, false_and, or_false,
    mem_toFinset]
  constructor
  · intro h e he
    obtain ⟨i, hi⟩ := Option.isSome_iff_exists.1 (hin.homes e he).1
    have := h i he
    rw [hi]
    by_contra hne
    exact this ⟨hi, Ne.symm hne⟩
  · rintro h i e he ⟨h1, h2⟩
    exact h2 ((h e he).symm.trans h1)

include hs hin in
/-- A directed cut edge is recorded once and counted as half an edge. -/
theorem Loaded.edges_directed (hd : isDirected = true) :
    ∑ i, (s.partitions i).getEdgesCount isDirected + (∑ i, (s.partitions i).edgeCutsCount) / 2 =
        inputEdges isDirected input ↔
      ∀ e ∈ input, homeOf n e.1 = homeOf n e.2 := by
  subst hd
  rw [sum_congr rfl fun i _ => hs.getEdgesCount hin i,
    sum_congr rfl fun i _ => hs.edgeCutsCount i, ← sum_cuts_eq_zero_iff hin]
  have hsum := card_stored hin true
  simp only [if_true, inputEdges]
  have hstored : (Partition.stored true input.toFinset).card = input.toFinset.card := rfl
  omega

include hs hin in
theorem Loaded.edges_undirected (hd : isDirected = false) :
    ∑ i, (s.partitions i).getEdgesCount isDirected + (∑ i, (s.partitions i).edgeCutsCount) / 2 =
      inputEdges isDirected input := by
  subst hd
  set T := Partition.stored false input.toFinset with hT
  have hsymm : ∀ e ∈ T, e.swap ∈ T := by
    intro e he
    rw [hT, mem_stored, Prod.swap_swap]
    rcases mem_stored.1 he with he | ⟨-, he⟩
    · exact .inr ⟨rfl, he⟩
    · exact .inl he
  have hloop : ∀ e ∈ T, e.1 ≠ e.2 := by
    intro e he
    rcases mem_stored.1 he with he | ⟨-, he⟩
    · exact hin.loopFree e (mem_toFinset.1 he)
    · exact (hin.loopFree e.swap (mem_toFinset.1 he)).symm
  have hlocal : ∀ i : Fin n, (T.filter fun e => homeOf n e.1 = some i ∧ homeOf n e.2 = some i).card =
      2 * ((T.filter fun e => homeOf n e.1 = some i ∧ homeOf n e.2 = some i).card / 2) := by
    intro i
    have := card_of_symmetric
      (T := T.filter fun e => homeOf n e.1 = some i ∧ homeOf n e.2 = some i)
      (fun e he => by
        rw [Finset.mem_filter] at he ⊢
        exact ⟨hsymm e he.1, he.2.2, he.2.1⟩)
      (fun e he => hloop e (Finset.mem_filter.1 he).1)
    omega
  have hedges : inputEdges false input = (T.image fun e => s(e.1, e.2)).card := by
    rw [inputEdges, if_neg (by simp), hT, image_unordered_stored]
  have hsum := card_stored hin false
  rw [sum_congr rfl fun i _ => hs.getEdgesCount hin i,
    sum_congr rfl fun i _ => hs.edgeCutsCount i, hedges]
  rw [← hT, card_of_symmetric hsymm hloop, sum_congr rfl fun i _ => hlocal i, ← mul_sum] at hsum
  simp only [← hT, Bool.false_eq_true, if_false]
  omega

/-- **The reported size of a graph.** Let the producers make the calls for the input, in any
interleaving, and let the consumers have recorded every edge when the owner begins to count. That
takes no local edges in a partition, or 1000 and more. Then the vertex count is the number of
distinct vertices, and the edge count is the number of distinct edges exactly if the graph is
undirected or no edge is cut. -/
theorem counted_iff {before during : List (Label (graphConfig n isDirected))}
    {s₁ : State (graphConfig n isDirected)} {vertices edges : Nat} (hin : Admissible n input)
    (hcalls : (before.filter Label.isCall).Perm (input.flatMap (route n isDirected)))
    (hbefore : run (step (graphConfig n isDirected)) before (start _) = some s)
    (hmain : s.main = .producing) (hquiet : Quiet s)
    (hcount : run (step (graphConfig n isDirected)) (.count :: during) s = some s₁)
    (hcounted : s₁.main = .counted vertices edges) :
    (∀ i, (s.locals i).passed = [] ∨ 1000 ≤ (s.locals i).passed.length) ∧
    ((vertices = (inputVertices input).card ∧ edges = inputEdges isDirected input) ↔
      (isDirected = true → ∀ e ∈ input, homeOf n e.1 = homeOf n e.2)) := by
  refine ⟨hquiet.passed hbefore hmain, ?_⟩
  have hs : Loaded input s := loaded_of_run hin hcalls hbefore hquiet
  obtain ⟨hv, he⟩ := hquiet.counted (running_of_producing hbefore hmain) hmain hcount hcounted
  rw [hv, he, hs.sum_getVertextCount hin, and_iff_right rfl]
  by_cases hd : isDirected = true
  · exact (hs.edges_directed hin hd).trans (imp_iff_right hd).symm
  · exact iff_of_true (hs.edges_undirected hin (by simpa using hd)) fun h => absurd h hd

/-- An edge from 1 to 2, which is cut when there are two partitions. -/
def cutEdge : VertexId × VertexId := (ascii "1", ascii "2")

/-- The edge is passed and its consumer records it. -/
def loadCutEdge : List (Label (graphConfig 2 true)) :=
  .addEdgeCut cutEdge 1 :: replicate 7 (.consumeEdgeCuts second)

/-- Undirected edges from 2 to 1 and from 2 to 3, which are passed to both partitions in turn. -/
def twoEdges : List (VertexId × VertexId) := [(ascii "2", ascii "1"), (ascii "2", ascii "3")]

/-- The consumers of the cut edges take turns with the producers. -/
def loadTwoEdges : List (Label (graphConfig 2 false)) :=
  route 2 false (ascii "2", ascii "1") ++ replicate 8 (.consumeEdgeCuts first) ++
    replicate 8 (.consumeEdgeCuts second) ++ route 2 false (ascii "2", ascii "3") ++
    replicate 7 (.consumeEdgeCuts second) ++ replicate 7 (.consumeEdgeCuts first)

theorem counted_iff_twoEdges :
    ∃ s s₁, run (step (graphConfig 2 false)) loadTwoEdges (start _) = some s ∧
      run (step (graphConfig 2 false)) (.count :: replicate 8 .count) s = some s₁ ∧
      s₁.main = .counted 3 2 ∧
      (∀ i, (s.locals i).passed = [] ∨ 1000 ≤ (s.locals i).passed.length) ∧
      ((3 = (inputVertices twoEdges).card ∧ 2 = inputEdges false twoEdges) ↔
        (false = true → ∀ e ∈ twoEdges, homeOf 2 e.1 = homeOf 2 e.2)) := by
  obtain ⟨s, hs, hmain, hquiet, s₁, hs₁, hcounted⟩ :
      ∃ s ∈ run (step (graphConfig 2 false)) loadTwoEdges (start _), s.main = .producing ∧ Quiet s ∧
        ∃ s₁ ∈ run (step (graphConfig 2 false)) (.count :: replicate 8 .count) s,
          s₁.main = .counted 3 2 := by
    decide +kernel
  have hin : Admissible 2 twoEdges := ⟨by decide, by decide +kernel, by decide, by decide⟩
  exact ⟨s, s₁, hs, hs₁, hcounted, counted_iff hin (Perm.of_eq rfl) hs hmain hquiet hs₁ hcounted⟩

/-- The counts of one directed cut edge that is recorded in full, and of one undirected local edge
that waits in its array for the file to fill up. -/
theorem counted_wrong :
    (run (step (graphConfig 2 true)) (loadCutEdge ++ replicate 9 .count) (start _)).map
        State.main = some (.counted 2 0) ∧ inputEdges true [cutEdge] = 1 ∧
      (run (step (graphConfig 2 false))
        (route 2 false (ascii "1", ascii "3") ++ replicate 9 .count) (start _)).map State.main =
        some (.counted 0 0) ∧ (inputVertices [(ascii "1", ascii "3")]).card = 2 := by
  decide +kernel

end Input

end JasmineGraph.Partitioner
