import JasmineGraph.KnowledgeGraph.Pipeline

/-!
# When the extraction pipeline finishes

Nothing brings back a chunk whose exchange has failed, an extractor that cannot connect leaves its
tuple thread waiting, and so does a batch that is larger than the number of workers. Over HDFS an
extractor may in addition look for the front of an empty queue, between the end of the reading and
the push of the end markers.

`Ledger` is the invariant. It says which chunks and markers are where: the chunks of the file are
those that the reader still has, those in the queue, those that extractors hold and the extracted
ones; once the markers are pushed, each is in the queue or was taken by an extractor of its own. Each
lane keeps `Lane.Sound`.
-/

namespace JasmineGraph.KnowledgeGraph

open Bytes Schedule List Option Lane

/-! ## One lane -/

def Lane.tookEnd (lane : Lane) : Nat :=
  match lane.extractor with
  | .ending | .gone => 1
  | _ => 0

def Lane.held (lane : Lane) : Multiset (Chunk PlacedByte) :=
  match lane.extractor with
  | .sending c | .receiving c _ _ | .adding c _ _ _ => {c}
  | _ => 0

def Extractor.tuples : Extractor → List (List UInt8)
  | .receiving _ tuples _ => tuples
  | .adding _ tuple tuples _ => tuple :: tuples
  | _ => []

/-- A bound on the actions that are left before the extractor waits for good. -/
def Extractor.work (cfg : Config) : Extractor → Nat
  | .absent | .gone => 0
  | .connecting => 4
  | .waiting => 3
  | .ending => 2
  | .sending c => 5 + 3 * (cfg.answers c.bytes).length
  | .receiving _ tuples _ => 4 + 3 * tuples.length
  | .adding _ _ tuples _ => 6 + 3 * tuples.length

def Lane.work (cfg : Config) (lane : Lane) : Nat := lane.extractor.work cfg + lane.buffer.length

/-- The buffer has an end marker, at its end, from the moment the extractor is gone until the thread
takes it. -/
def Lane.Fed (lane : Lane) : Prop :=
  (lane.extractor ≠ .gone ∧ lane.endMarkers = 0 ∧ lane.running = true ∧
      ∀ tuple ∈ lane.buffer, tuple ≠ endOfStreamMarker) ∨
    lane.extractor = .gone ∧ lane.endMarkers = 1 ∧ (lane.running = false ∨
      lane.running = true ∧ ∃ tuples, lane.buffer = tuples ++ [endOfStreamMarker] ∧
        ∀ tuple ∈ tuples, tuple ≠ endOfStreamMarker)

structure Lane.Sound (lane : Lane) : Prop where
  present : lane.extractor ≠ .absent
  retry : lane.retry = false
  tuples : ∀ tuple ∈ lane.extractor.tuples, tuple ≠ endOfStreamMarker
  fed : lane.Fed

structure Lane.Steps (cfg : Config) (lane lane' : Lane) : Prop where
  sound : lane'.Sound
  tookEnd : lane'.tookEnd = lane.tookEnd
  held : lane'.held = lane.held
  work : lane'.work cfg < lane.work cfg

section LaneStep

variable {cfg : Config} {a : LaneAction} {lane lane' : Lane}

theorem Lane.Sound.running_of_ne_gone (h : lane.Sound) (hne : lane.extractor ≠ .gone) :
    lane.endMarkers = 0 ∧ lane.running = true ∧ ∀ tuple ∈ lane.buffer, tuple ≠ endOfStreamMarker := by
  rcases h.fed with ⟨-, hfed⟩ | ⟨hgone, -⟩
  · exact hfed
  · exact absurd hgone hne

theorem Lane.Sound.goOn (h : lane.Sound) (hne : lane.extractor ≠ .gone) {e : Extractor}
    (hpresent : e ≠ .absent) (hgone : e ≠ .gone)
    (htuples : ∀ tuple ∈ e.tuples, tuple ≠ endOfStreamMarker) :
    Sound { lane with extractor := e } :=
  ⟨hpresent, h.retry, htuples, .inl ⟨hgone, h.running_of_ne_gone hne⟩⟩

theorem Lane.Sound.get (h : lane.Sound) (hstep : laneStep cfg .get lane = some lane') :
    lane.Steps cfg lane' := by
  obtain ⟨e, retry, buffer, running, endMarkers⟩ := lane
  match running, buffer, hstep with
  | true, line :: buffer, hstep =>
    cases hstep
    refine ⟨⟨h.present, h.retry, h.tuples, ?_⟩, rfl, rfl, by simp [work]⟩
    rcases h.fed with ⟨hne, hnone, -, hbuffer⟩ | ⟨hgone, hone, hend | ⟨-, tuples, hbuffer, hne⟩⟩
    · refine .inl ⟨hne, hnone, ?_, fun tuple ht => hbuffer tuple (mem_cons_of_mem line ht)⟩
      exact decide_eq_true (hbuffer line mem_cons_self)
    · exact absurd hend nofun
    · refine .inr ⟨hgone, hone, ?_⟩
      cases tuples with
      | nil =>
        obtain ⟨rfl, -⟩ := List.cons.inj hbuffer
        exact .inl (by simp)
      | cons tuple tuples =>
        obtain ⟨rfl, rfl⟩ := List.cons.inj hbuffer
        refine .inr ⟨decide_eq_true (hne line mem_cons_self), tuples, rfl, ?_⟩
        exact fun tuple ht => hne tuple (mem_cons_of_mem line ht)

/-- **A lane keeps its chunk and its end marker, and gets on.** -/
theorem Lane.Sound.step (h : lane.Sound) (ha : a.succeeds = true)
    (hstep : laneStep cfg a lane = some lane') : lane.Steps cfg lane' := by
  obtain ⟨e, retry, buffer, running, endMarkers⟩ := lane
  cases a with
  | get => exact h.get hstep
  | connect ok =>
    obtain rfl : ok = true := ha
    cases e <;> try contradiction
    cases hstep
    exact ⟨h.goOn nofun nofun nofun nofun, rfl, rfl, by simp [work, Extractor.work]⟩
  | send ok =>
    obtain rfl : ok = true := ha
    cases e <;> try contradiction
    cases hstep
    exact ⟨h.goOn nofun nofun nofun (cfg.answers_ne _), rfl, rfl, by simp [work, Extractor.work]⟩
  | receive ok =>
    obtain rfl : ok = true := ha
    cases e <;> try contradiction
    next c tuples tupleCount =>
    cases tuples with
    | nil => contradiction
    | cons tuple tuples =>
      cases hstep
      exact ⟨h.goOn nofun nofun nofun h.tuples, rfl, rfl, by simp [work, Extractor.work]; omega⟩
  | add =>
    cases e <;> try contradiction
    next c tuple tuples tupleCount =>
    obtain ⟨-, hsome⟩ := ite_none_right_eq_some.1 hstep
    cases hsome
    obtain ⟨hnone, hrunning, hbuffer⟩ := h.running_of_ne_gone nofun
    refine ⟨⟨nofun, h.retry, ?_, .inl ⟨nofun, hnone, hrunning, ?_⟩⟩, rfl, rfl, ?_⟩
    · exact fun t ht => h.tuples t (mem_cons_of_mem tuple ht)
    · exact forall_mem_append.2 ⟨hbuffer, forall_mem_singleton.2 (h.tuples tuple mem_cons_self)⟩
    · simp [work, Extractor.work]
      omega
  | close =>
    cases e <;> try contradiction
    obtain rfl : retry = false := h.retry
    obtain ⟨-, hsome⟩ := ite_none_right_eq_some.1 hstep
    cases hsome
    obtain ⟨hnone, hrunning, hbuffer⟩ := h.running_of_ne_gone nofun
    refine ⟨⟨nofun, rfl, nofun, .inr ⟨rfl, ?_, .inr ⟨hrunning, buffer, rfl, hbuffer⟩⟩⟩, rfl, rfl, ?_⟩
    · exact congrArg (· + 1) hnone
    · simp [work, Extractor.work]
      omega

/-- The extractor is gone and the thread has ended. -/
def Lane.Finished (lane : Lane) : Prop :=
  lane.extractor = .gone ∧ lane.running = false ∧ lane.endMarkers = 1

theorem exists_get (hrunning : lane.running = true) (hbuffer : lane.buffer ≠ []) :
    ∃ a lane', a.succeeds = true ∧ laneStep cfg a lane = some lane' := by
  obtain ⟨e, retry, buffer, running, endMarkers⟩ := lane
  obtain rfl : running = true := hrunning
  obtain ⟨line, buffer, rfl⟩ := exists_cons_of_ne_nil hbuffer
  exact ⟨.get, _, rfl, rfl⟩

theorem Lane.Sound.progress (cfg : Config) (h : lane.Sound) : lane.Finished ∨ lane.extractor = .waiting ∨
    (∃ c tupleCount, lane.extractor = .receiving c [] tupleCount) ∨
      ∃ a lane', a.succeeds = true ∧ laneStep cfg a lane = some lane' := by
  -- a thread that waits for room in its buffer waits for its own tuple thread
  have hfull : lane.extractor ≠ .gone → ¬ lane.buffer.length < masterBufferSize →
      ∃ a lane', a.succeeds = true ∧ laneStep cfg a lane = some lane' := fun hne hfull =>
    exists_get (h.running_of_ne_gone hne).2.1 fun hnil => hfull (hnil ▸ by decide)
  obtain ⟨e, retry, buffer, running, endMarkers⟩ := lane
  cases e with
  | absent => exact absurd rfl h.present
  | connecting => exact .inr (.inr (.inr ⟨.connect true, _, rfl, rfl⟩))
  | waiting => exact .inr (.inl rfl)
  | sending c => exact .inr (.inr (.inr ⟨.send true, _, rfl, rfl⟩))
  | receiving c tuples tupleCount =>
    cases tuples with
    | nil => exact .inr (.inr (.inl ⟨c, tupleCount, rfl⟩))
    | cons tuple tuples => exact .inr (.inr (.inr ⟨.receive true, _, rfl, rfl⟩))
  | adding c tuple tuples tupleCount =>
    by_cases hroom : buffer.length < masterBufferSize
    · exact .inr (.inr (.inr ⟨.add, _, rfl, if_pos hroom⟩))
    · exact .inr (.inr (.inr (hfull nofun hroom)))
  | ending =>
    by_cases hroom : buffer.length < masterBufferSize
    · exact .inr (.inr (.inr ⟨.close, _, rfl, if_pos hroom⟩))
    · exact .inr (.inr (.inr (hfull nofun hroom)))
  | gone =>
    rcases h.fed with ⟨hne, -⟩ | ⟨-, hone, hend | ⟨hrunning, tuples, hbuffer, -⟩⟩
    · exact absurd rfl hne
    · exact .inl ⟨rfl, hend, hone⟩
    · refine .inr (.inr (.inr (exists_get hrunning ?_)))
      rw [hbuffer]
      exact append_ne_nil_of_right_ne_nil _ (cons_ne_nil _ _)

end LaneStep

/-! ## Where the chunks are -/

def State.Unmarked {n : Nat} (s : State n) : Prop := s.isReading = false ∧ .pushMarkers ∈ s.acts

def closing : Reader → List ReaderAct
  | .hdfs => [.stopReading, .pushMarkers]
  | .localFile => [.pushMarkers, .stopReading]

/-- Where the reader stands: what it has to do, `isReading`, the chunks it has to push and whether
the end markers are pushed. -/
inductive Phase (reader : Reader) :
    List ReaderAct → Bool → List (Chunk PlacedByte) → Bool → Prop
  | pushing (ps : List (Bool × Chunk PlacedByte)) :
    Phase reader (ps.map (fun p => .push p.1 p.2) ++ closing reader) true (ps.map Prod.snd) false
  | unmarked (h : reader = .hdfs) : Phase reader [.pushMarkers] false [] false
  | marked : Phase reader [.stopReading] true [] true
  | done : Phase reader [] false [] true

variable {reader : Reader}

theorem Phase.ended {acts : List ReaderAct} {isReading marked : Bool}
    {pending : List (Chunk PlacedByte)} (h : Phase reader acts isReading pending marked)
    (hended : isReading = false) : reader = .hdfs ∧ .pushMarkers ∈ acts ∨ marked = true := by
  cases h with
  | pushing ps => cases hended
  | unmarked hr => exact .inl ⟨hr, mem_singleton_self _⟩
  | marked => exact .inr rfl
  | done => exact .inr rfl

theorem Phase.done_of_nil {isReading marked : Bool} {pending : List (Chunk PlacedByte)}
    (h : Phase reader [] isReading pending marked) : marked = true ∧ pending = [] := by
  generalize hacts : [] = acts at h
  cases h with
  | pushing ps => cases reader <;> simp [closing] at hacts
  | unmarked => cases hacts
  | marked => cases hacts
  | done => exact ⟨rfl, rfl⟩

theorem Phase.unmarked_of_push {acts : List ReaderAct} {isReading marked waits : Bool}
    {pending : List (Chunk PlacedByte)} {c : Chunk PlacedByte}
    (h : Phase reader (.push waits c :: acts) isReading pending marked) : marked = false := by
  generalize hacts : ReaderAct.push waits c :: acts = acts' at h
  cases h with
  | pushing ps => rfl
  | unmarked => cases hacts
  | marked => cases hacts
  | done => cases hacts

structure Ledger (cfg : Config) {n : Nat} (s : State n) (pending queued : List (Chunk PlacedByte))
    (marked : Bool) (markers : Nat) : Prop where
  phase : Phase cfg.reader s.acts s.isReading pending marked
  dataBuffer : s.dataBuffer = queued.map .chunk ++ replicate markers (.endOfStream cfg.markerId 0)
  ended : markers + ∑ i, (s.lanes i).tookEnd = if marked then cfg.workers else 0
  -- the markers come after all chunks
  last : 0 < ∑ i, (s.lanes i).tookEnd → queued = []
  chunks : (pending + queued + ∑ i, (s.lanes i).held + s.completed :
    Multiset (Chunk PlacedByte)) = cfg.data
  lanes : ∀ i, (s.lanes i).Sound
  tookEmpty : s.tookEmpty = false

/-- The actions that it takes to get a chunk from the queue to its end. -/
def itemWork (cfg : Config) : Item PlacedByte → Nat
  | .chunk c => 3 + 3 * (cfg.answers c.bytes).length
  | .endOfStream _ _ => 0

def actWork (cfg : Config) : ReaderAct → Nat
  | .push _ c => 1 + itemWork cfg (.chunk c)
  | _ => 1

/-- A bound on the number of actions that are left. -/
def State.work (cfg : Config) {n : Nat} (s : State n) : Nat :=
  (s.acts.map (actWork cfg)).sum + (s.dataBuffer.map (itemWork cfg)).sum + ∑ i, (s.lanes i).work cfg

section Steps

variable {cfg : Config} {n : Nat} {s t : State n} {pending queued : List (Chunk PlacedByte)}
  {marked : Bool} {markers : Nat}

theorem coe_move {α : Type} (c : α) (pending queued : List α) :
    (↑pending + ↑(queued ++ [c]) : Multiset α) = ↑(c :: pending) + ↑queued := by
  rw [Multiset.coe_add, Multiset.coe_add, Multiset.coe_eq_coe]
  exact (append_assoc _ _ _ ▸ perm_append_singleton c (pending ++ queued))

def Accounted (cfg : Config) {n : Nat} (s : State n) : Prop :=
  ∃ pending queued marked markers, Ledger cfg s pending queued marked markers

theorem Ledger.read (h : Ledger cfg s pending queued marked markers)
    (hstep : read cfg s = some t) : Accounted cfg t ∧ t.work cfg < s.work cfg := by
  obtain ⟨hphase, hbuffer, hended, hlast, hchunks, hlanes, hempty⟩ := h
  obtain ⟨acts, isReading, dataBuffer, lanes, bytes, realtime, completed, tookEmpty⟩ := s
  -- the markers go behind the queue
  have hmarkers : marked = false → ∀ acts' b, Phase cfg.reader acts' b pending true →
      Accounted cfg (State.mk acts' b
        (dataBuffer ++ replicate cfg.workers (.endOfStream cfg.markerId 0)) lanes bytes realtime
        completed tookEmpty) := by
    rintro rfl acts' b hphase'
    obtain ⟨rfl, hnone⟩ := Nat.add_eq_zero_iff.1 hended
    refine ⟨pending, queued, true, cfg.workers, hphase', ?_, ?_, hlast, hchunks, hlanes, hempty⟩
    · rw [show dataBuffer = _ from hbuffer, replicate_zero, append_nil]
    · rw [if_pos rfl, hnone, Nat.add_zero]
  cases hphase with
  | pushing ps =>
    cases ps with
    | nil =>
      cases hr : cfg.reader with
      | hdfs =>
        simp only [closing, hr] at hstep ⊢
        cases hstep
        refine ⟨⟨[], queued, false, markers, .unmarked hr, hbuffer, hended, hlast, hchunks, hlanes,
          hempty⟩, ?_⟩
        simp [State.work, actWork]
      | localFile =>
        simp only [closing, hr] at hstep ⊢
        cases hstep
        refine ⟨hmarkers rfl _ _ .marked, ?_⟩
        simp [State.work, actWork, itemWork]
    | cons p ps =>
      obtain ⟨waits, c⟩ := p
      obtain ⟨rfl, hnone⟩ := Nat.add_eq_zero_iff.1 hended
      obtain ⟨-, hsome⟩ := ite_none_left_eq_some.1 hstep
      cases hsome
      refine ⟨⟨ps.map Prod.snd, queued ++ [c], false, 0, .pushing ps, ?_, hended, ?_, ?_, hlanes,
        hempty⟩, ?_⟩
      · rw [show dataBuffer = _ from hbuffer]
        simp
      · exact fun hpos => absurd hnone hpos.ne'
      · exact (add_left_inj _).2 ((add_left_inj _).2 (coe_move c _ queued)) ▸ hchunks
      · simp [State.work, actWork]
        omega
  | unmarked hr =>
    cases hstep
    refine ⟨hmarkers rfl _ _ .done, ?_⟩
    simp [State.work, actWork, itemWork]
  | marked =>
    cases hstep
    refine ⟨⟨[], queued, true, markers, .done, hbuffer, hended, hlast, hchunks, hlanes, hempty⟩, ?_⟩
    simp [State.work, actWork]
  | done => cases hstep

theorem Lane.tookEnd_le (lane : Lane) : lane.tookEnd ≤ 1 := by
  unfold tookEnd
  split <;> decide

variable {i : Fin n}

/-- While an extractor has no end marker there are fewer taken than extractors. -/
theorem sum_tookEnd_lt {lanes : Fin n → Lane} (hi : (lanes i).tookEnd = 0) :
    ∑ j, (lanes j).tookEnd < n := by
  have hlt : ∑ j, (lanes j).tookEnd < ∑ _j : Fin n, 1 :=
    Finset.sum_lt_sum (fun j _ => (lanes j).tookEnd_le) ⟨i, Finset.mem_univ i, hi ▸ Nat.zero_lt_one⟩
  rwa [Finset.sum_const, Finset.card_univ, Fintype.card_fin, nsmul_one] at hlt

theorem rebalance {M : Type} [AddCancelCommMonoid M] {p q q' sum sum' held held' k k' : M}
    (hsum : sum' + held = sum + held') (h : q' + held' + k' = q + held + k) :
    p + q' + sum' + k' = p + q + sum + k := by
  refine add_right_cancel (b := held) ?_
  calc p + q' + sum' + k' + held = p + q' + k' + (sum' + held) := by abel
    _ = p + sum + (q' + held' + k') := by rw [hsum]; abel
    _ = p + q + sum + k + held := by rw [h]; abel

section

variable (h : Ledger cfg s pending queued marked markers)

include h

/-- A step of one lane, which may take from the queue and extract a chunk. -/
theorem Ledger.update {lane : Lane}
    (queued' : List (Chunk PlacedByte)) (markers' : Nat) {completed : List (Chunk PlacedByte)}
    (hsound : lane.Sound) (hsuffix : queued' <:+ queued)
    (hended : markers' + lane.tookEnd = markers + (s.lanes i).tookEnd)
    (hlast : lane.tookEnd = (s.lanes i).tookEnd ∨ queued = [])
    (hchunks : (queued' + lane.held + completed : Multiset (Chunk PlacedByte)) =
      queued + (s.lanes i).held + s.completed)
    (hwork : (queued'.map (itemWork cfg ∘ .chunk)).sum + lane.work cfg <
      (queued.map (itemWork cfg ∘ .chunk)).sum + (s.lanes i).work cfg) (hacts : t.acts = s.acts)
    (hreading : t.isReading = s.isReading) (hbuffer : t.dataBuffer =
      queued'.map .chunk ++ replicate markers' (.endOfStream cfg.markerId 0))
    (hlanes : t.lanes = Function.update s.lanes i lane) (hcompleted : t.completed = completed)
    (hempty : t.tookEmpty = s.tookEmpty) : Accounted cfg t ∧ t.work cfg < s.work cfg := by
  have htooks := sum_update (fun _ l => tookEnd l) s.lanes i lane
  have hhelds := sum_update (fun _ l => held l) s.lanes i lane
  have hworks := sum_update (fun _ l => work cfg l) s.lanes i lane
  rw [← hlanes] at htooks hhelds hworks
  refine ⟨⟨pending, queued', marked, markers', ?_, hbuffer, ?_, fun hpos => ?_, ?_, ?_, ?_⟩, ?_⟩
  · exact hacts ▸ hreading ▸ h.phase
  · have := h.ended
    omega
  · have hnil : queued = [] := hlast.elim (fun heq => h.last (by omega)) id
    exact suffix_nil.1 (hnil ▸ hsuffix)
  · rw [← h.chunks, hcompleted]
    exact rebalance hhelds hchunks
  · rw [hlanes]
    exact forall_update h.lanes hsound
  · exact hempty.trans h.tookEmpty
  · simp only [State.work, hacts, hbuffer, h.dataBuffer, map_append, List.map_map, sum_append,
      map_replicate, itemWork, sum_replicate_nat]
    omega

theorem Ledger.lane {a : LaneAction}
    (ha : a.succeeds = true) (hstep : step cfg (.lane i a) s = some t) :
    Accounted cfg t ∧ t.work cfg < s.work cfg := by
  obtain ⟨lane, hlane, rfl⟩ := map_eq_some_iff.1 hstep
  obtain ⟨hsound, htook, hheld, hwork⟩ := (h.lanes i).step ha hlane
  exact h.update queued markers hsound (suffix_refl _) (by rw [htook]) (.inl htook) (by rw [hheld])
    (Nat.add_lt_add_left hwork _) rfl rfl h.dataBuffer rfl rfl rfl

theorem Ledger.complete
    (hstep : complete i s = some t) : Accounted cfg t ∧ t.work cfg < s.work cfg := by
  unfold KnowledgeGraph.complete at hstep
  split at hstep
  case h_2 => cases hstep
  case h_1 c tupleCount hlane =>
  cases hstep
  have hne : (s.lanes i).extractor ≠ .gone := hlane ▸ nofun
  refine h.update queued markers ((h.lanes i).goOn hne (e := .waiting) nofun nofun nofun)
    (suffix_refl _) ?_ ?_ ?_ ?_ rfl rfl h.dataBuffer rfl rfl rfl
  · simp [tookEnd, hlane]
  · simp [tookEnd, hlane]
  · simp only [held, hlane, ← Multiset.coe_add]
    abel
  · simp [work, Extractor.work, hlane]

/-- An extractor that is still to take an end marker finds one when the reading has ended. -/
theorem Ledger.dataBuffer_ne_nil
    (hn : n ≤ cfg.workers) (hi : (s.lanes i).tookEnd = 0) (hmarked : marked = true) :
    s.dataBuffer ≠ [] := by
  intro hnil
  have hended := h.ended
  rw [h.dataBuffer, append_eq_nil_iff, replicate_eq_nil_iff] at hnil
  rw [if_pos hmarked] at hended
  exact absurd (sum_tookEnd_lt hi) (by omega)

theorem Ledger.take (hn : n ≤ cfg.workers) (hdata : ∀ c ∈ cfg.data, c.bytes ≠ endOfStreamMarker)
    (hhdfs : cfg.reader = .hdfs → s.Unmarked → s.dataBuffer ≠ []) (hstep : take i s = some t) :
    Accounted cfg t ∧ t.work cfg < s.work cfg := by
  unfold KnowledgeGraph.take at hstep
  split at hstep
  case h_2 => cases hstep
  case h_1 hlane =>
  have hne : (s.lanes i).extractor ≠ .gone := hlane ▸ nofun
  rcases queued with _ | ⟨c, queued⟩
  · rcases markers with _ | markers
    · have hnil : s.dataBuffer = [] := h.dataBuffer
      rw [hnil] at hstep
      obtain ⟨hreading, -⟩ := ite_none_left_eq_some.1 hstep
      have hzero : (s.lanes i).tookEnd = 0 := by simp [tookEnd, hlane]
      have hended : s.isReading = false := Bool.eq_false_of_not_eq_true hreading
      rcases h.phase.ended hended with ⟨hr, hacts⟩ | hmarked
      · exact absurd hnil (hhdfs hr ⟨hended, hacts⟩)
      · exact absurd hnil (h.dataBuffer_ne_nil hn hzero hmarked)
    · have hcons : s.dataBuffer = .endOfStream cfg.markerId 0 ::
          replicate markers (.endOfStream cfg.markerId 0) := h.dataBuffer
      rw [hcons] at hstep
      cases hstep
      refine h.update [] markers ((h.lanes i).goOn hne (e := .ending) nofun nofun nofun)
        (suffix_refl _) ?_ (.inr rfl) ?_ ?_ rfl rfl rfl rfl rfl rfl
      · simp [tookEnd, hlane]
      · simp [held, hlane]
      · simp [work, Extractor.work, hlane]
  · have hcons : s.dataBuffer = .chunk c ::
        (queued.map .chunk ++ replicate markers (.endOfStream cfg.markerId 0)) := h.dataBuffer
    have hmem : c ∈ cfg.data := by
      rw [← Multiset.mem_coe, ← h.chunks]
      simp
    rw [hcons] at hstep
    have hitem : Extractor.ofItem (.chunk c) = .sending c := if_neg (hdata c hmem)
    simp only [hitem] at hstep
    cases hstep
    refine h.update queued markers ((h.lanes i).goOn hne (e := .sending c) nofun nofun nofun)
      (suffix_cons c queued) ?_ ?_ ?_ ?_ rfl rfl rfl rfl rfl rfl
    · simp [tookEnd, hlane]
    · simp [tookEnd, hlane]
    · simp only [held, hlane, ← Multiset.cons_coe, ← Multiset.singleton_add]
      abel
    · simp [work, Extractor.work, hlane, itemWork]
      omega

end

/-! ## Whole runs -/

/-- No exchange fails and, over HDFS, the extractors do not overtake the reader between its last chunk
and its end markers. -/
def Undisturbed (cfg : Config) (l : Label n) (s : State n) : Prop :=
  l.succeeds = true ∧ ∀ i, l = .take i → cfg.reader = .hdfs → s.Unmarked → s.dataBuffer ≠ []

instance (cfg : Config) (l : Label n) (s : State n) : Decidable (Undisturbed cfg l s) := by
  unfold Undisturbed State.Unmarked
  infer_instance

theorem Accounted.step (hn : n ≤ cfg.workers) (hdata : ∀ c ∈ cfg.data, c.bytes ≠ endOfStreamMarker)
    {l : Label n} (h : Accounted cfg s) (hl : Undisturbed cfg l s) (hstep : step cfg l s = some t) :
    Accounted cfg t ∧ t.work cfg < s.work cfg := by
  obtain ⟨pending, queued, marked, markers, h⟩ := h
  cases l with
  | read => exact h.read hstep
  | take i => exact h.take hn hdata (hl.2 i rfl) hstep
  | complete i => exact h.complete hstep
  | lane i a => exact h.lane hl.1 hstep

theorem accounted_start (hn : cfg.chunksPerBatch ≤ cfg.workers) : Accounted cfg (start cfg) := by
  have hconnecting : ∀ i, (start cfg).lanes i = ⟨.connecting, false, [], true, 0⟩ := fun i => by
    simp only [start, if_pos (Nat.lt_of_lt_of_le i.isLt hn)]
  refine ⟨cfg.data, [], false, 0, ?_, rfl, ?_, fun _ => rfl, ?_, fun i => ?_, rfl⟩
  · cases hr : cfg.reader with
    | hdfs =>
      simpa [start, Config.acts, Config.data, hr, closing, Function.comp_def] using
        @Phase.pushing .hdfs (cfg.data.map (true, ·))
    | localFile =>
      simpa [start, Config.acts, Config.data, hr, closing, Function.comp_def] using
        @Phase.pushing .localFile
          (cfg.chunks.map (true, ·) ++ cfg.leftover.toList.map (false, ·))
  · simp [hconnecting, tookEnd]
  · have hheld : ∀ i, ((start cfg).lanes i).held = 0 := fun i => by rw [hconnecting]; rfl
    rw [Finset.sum_eq_zero fun i _ => hheld i]
    simp [start]
  · rw [hconnecting]
    exact ⟨nofun, rfl, nofun, .inl ⟨nofun, rfl, rfl, nofun⟩⟩

/-- All threads have ended, every chunk was extracted and every buffer was given its end marker. -/
structure State.Finished (cfg : Config) (s : State n) : Prop where
  read : s.acts = []
  lanes : ∀ i, (s.lanes i).Finished
  extracted : s.completed.Perm cfg.data

theorem Ledger.lane_progress (h : Ledger cfg s pending queued marked markers) (i : Fin n)
    (hwait : (s.lanes i).extractor = .waiting → s.dataBuffer ≠ []) :
    (s.lanes i).Finished ∨ ∃ l t, Undisturbed cfg l s ∧ step cfg l s = some t := by
  rcases (h.lanes i).progress cfg with hfin | hwaiting | ⟨c, k, hend⟩ | ⟨a, lane, ha, hlane⟩
  · exact .inl hfin
  · obtain ⟨item, rest, hbuffer⟩ := exists_cons_of_ne_nil (hwait hwaiting)
    have hsome : (KnowledgeGraph.take i s).isSome := by
      simp only [KnowledgeGraph.take, hwaiting, hbuffer, isSome_some]
    obtain ⟨t, ht⟩ := isSome_iff_exists.1 hsome
    exact .inr ⟨.take i, t, ⟨rfl, fun _ _ _ _ => hwait hwaiting⟩, ht⟩
  · have hsome : (KnowledgeGraph.complete i s).isSome := by
      simp only [KnowledgeGraph.complete, hend, isSome_some]
    obtain ⟨t, ht⟩ := isSome_iff_exists.1 hsome
    exact .inr ⟨.complete i, t, ⟨rfl, nofun⟩, ht⟩
  · exact .inr ⟨.lane i a, _, ⟨ha, nofun⟩, map_eq_some_iff.2 ⟨lane, hlane, rfl⟩⟩

theorem read_eq_none (hread : read cfg s = none) : s.acts = [] ∨
    ∃ waits c acts, s.acts = .push waits c :: acts ∧ cfg.workers ≤ s.dataBuffer.length := by
  unfold read at hread
  split at hread
  · exact .inl ‹_›
  · split at hread
    case isTrue hwait => exact .inr ⟨_, _, _, ‹_›, hwait.2.1⟩
    case isFalse => cases hread
  · cases hread
  · cases hread

/-- **No deadlock.** -/
theorem Ledger.progress (h : Ledger cfg s pending queued marked markers) (hpos : 0 < n)
    (hn : n ≤ cfg.workers) :
    s.Finished cfg ∨ ∃ l t, Undisturbed cfg l s ∧ step cfg l s = some t := by
  have hzero : ∀ i, (s.lanes i).extractor = .waiting → (s.lanes i).tookEnd = 0 := fun i hi => by
    simp [tookEnd, hi]
  cases hread : KnowledgeGraph.read cfg s with
  | some t => exact .inr ⟨.read, t, ⟨rfl, nofun⟩, hread⟩
  | none =>
    have hphase := h.phase
    rcases read_eq_none hread with hacts | ⟨waits, c, acts, hacts, hfull⟩
    · rw [hacts] at hphase
      obtain ⟨rfl, rfl⟩ := hphase.done_of_nil
      by_cases hall : ∀ i, (s.lanes i).Finished
      · refine .inl ⟨hacts, hall, ?_⟩
        have htook : ∀ i, (s.lanes i).tookEnd = 1 := fun i => by simp [tookEnd, (hall i).1]
        have hheld : ∀ i, (s.lanes i).held = 0 := fun i => by simp [held, (hall i).1]
        have hchunks := h.chunks
        rw [h.last (by simpa [htook] using hpos), Finset.sum_eq_zero fun i _ => hheld i] at hchunks
        simpa using hchunks
      · obtain ⟨i, hi⟩ := not_forall.1 hall
        refine .inr ((h.lane_progress i fun hwait => ?_).resolve_left hi)
        exact h.dataBuffer_ne_nil hn (hzero i hwait) rfl
    · rw [hacts] at hphase
      obtain rfl := hphase.unmarked_of_push
      have hi : ¬ (s.lanes ⟨0, hpos⟩).Finished := fun hfin => by
        have hnone := (Nat.add_eq_zero_iff.1 h.ended).2
        have htook := Finset.sum_eq_zero_iff.1 hnone ⟨0, hpos⟩ (Finset.mem_univ _)
        simp [tookEnd, hfin.1] at htook
      refine .inr ((h.lane_progress _ fun _ => ?_).resolve_left hi)
      exact ne_nil_of_length_pos (by omega)

end Steps

/-- **The pipeline finishes and extracts every chunk**, if the batch is not larger than the number of
workers, no chunk reads as the end marker, no exchange fails and, over HDFS, the queue does not run
empty between the end of the reading and the push of the markers: every run is short, and from where
it stands it goes on until all is done. -/
theorem pipeline_finishes (cfg : Config) (hbatch : 1 ≤ cfg.chunksPerBatch)
    (hworkers : cfg.chunksPerBatch ≤ cfg.workers)
    (hdata : ∀ c ∈ cfg.data, c.bytes ≠ endOfStreamMarker)
    {ls : List (Label cfg.chunksPerBatch)} {s : State cfg.chunksPerBatch}
    (hmeets : Meets (step cfg) (Undisturbed cfg) ls (start cfg))
    (hrun : run (step cfg) ls (start cfg) = some s) :
    s.tookEmpty = false ∧ ls.length ≤ (start cfg).work cfg ∧
      (s.Finished cfg ∨ ∃ l t, Undisturbed cfg l s ∧ step cfg l s = some t) := by
  have hstep : ∀ l (s t : State cfg.chunksPerBatch), Accounted cfg s → Undisturbed cfg l s →
      step cfg l s = some t → Accounted cfg t ∧ t.work cfg < s.work cfg :=
    fun l s t h hl => h.step hworkers hdata hl
  have hlength := hmeets.length_le hstep hrun (accounted_start hworkers)
  obtain ⟨pending, queued, marked, markers, h⟩ :=
    hmeets.invariant (fun l s t h hl ht => (hstep l s t h hl ht).1) hrun (accounted_start hworkers)
  exact ⟨h.tookEmpty, by omega, h.progress hbatch hworkers⟩

/-- A file of three lines over HDFS, the last one without a newline, two workers and a batch of two. A
worker finds two tuples in every line. -/
abbrev threeLines : Config where
  reader := .hdfs
  chunks := [⟨0, [(97, 0), (10, 1)], 2⟩, ⟨1, [(98, 2), (10, 3)], 2⟩]
  leftover := some ⟨2, [(99, 4)], 1⟩
  markerId := 3
  workers := 2
  chunksPerBatch := 2
  chunkSize := 2
  startFromBytes := 0
  answers _ := [ascii "s", ascii "t"]
  answers_ne := fun _ => by decide

abbrev first : Fin 2 := ⟨0, Nat.two_pos⟩

abbrev second : Fin 2 := ⟨1, Nat.one_lt_two⟩

def extract (i : Fin 2) : List (Label 2) :=
  [.take i, .lane i (.send true), .lane i (.receive true), .lane i .add, .lane i (.receive true),
    .lane i .add, .complete i]

/-- Two chunks are taken after the reader has cleared `isReading`. -/
def threeLinesRun : List (Label 2) :=
  [.read, .read, .lane first (.connect true), .lane second (.connect true)] ++ extract first ++
    [.read, .read] ++ extract second ++ extract first ++
    [.read, .take second, .lane second .close, .lane second .get, .take first]

theorem threeLines_finishes : ∃ s, run (step threeLines) threeLinesRun (start threeLines) = some s ∧
    s.completed = threeLines.data ∧ s.tookEmpty = false ∧
    threeLinesRun.length ≤ (start threeLines).work threeLines ∧
    (s.Finished threeLines ∨ ∃ l t, Undisturbed threeLines l s ∧ step threeLines l s = some t) := by
  have hdata : (run (step threeLines) threeLinesRun (start threeLines)).map (·.completed) =
      some threeLines.data := by decide +kernel
  obtain ⟨s, hs, hcompleted⟩ := map_eq_some_iff.1 hdata
  exact ⟨s, hs, hcompleted, pipeline_finishes threeLines (by decide) (by decide) (by decide +kernel)
    (by decide +kernel) hs⟩

/-- A file of one line, one worker and a batch of one. The worker finds one tuple. -/
def oneLine (reader : Reader) : Config where
  reader := reader
  chunks := [⟨0, [(97, 0), (10, 1)], 2⟩]
  leftover := none
  markerId := 1
  workers := 1
  chunksPerBatch := 1
  chunkSize := 2
  startFromBytes := 0
  answers _ := [ascii "t"]
  answers_ne := fun _ => by decide

abbrev lane : Fin 1 := ⟨0, Nat.one_pos⟩

/-- The extractor is done with the chunk before the reader pushes the end marker. -/
def earlyRun : List (Label 1) :=
  [.read, .read, .lane lane (.connect true), .take lane, .lane lane (.send true),
    .lane lane (.receive true), .lane lane .add, .complete lane, .take lane]

/-- The first exchange fails. -/
def failingRun : List (Label 1) :=
  [.read, .read, .read, .lane lane (.connect true), .take lane, .lane lane (.send false),
    .lane lane (.connect true), .take lane, .lane lane .close, .lane lane (.connect true), .take lane]

/-- Over HDFS the extractor looks for the front of the empty queue before the marker comes. From a
local file one failed exchange is enough: the chunk is lost, and the extractor connects again after
its end marker and finds the queue empty. -/
theorem oneLine_takes_empty :
    (run (step (oneLine .hdfs)) earlyRun (start (oneLine .hdfs))).map (·.tookEmpty) = some true ∧
    (run (step (oneLine .localFile)) failingRun (start (oneLine .localFile))).map
      (fun s => (s.tookEmpty, s.completed)) = some (true, []) := by
  decide +kernel

end JasmineGraph.KnowledgeGraph
