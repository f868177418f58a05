import JasmineGraph.Schedule

/-!
# The worker's end of a Kafka stream: `InstanceStreamHandler`

`handleRequest` puts an edge string into the queue of its graph, starting a consumer thread
(`threadFunction`) for a graph it sees first; the string `"-1"` sets `terminateThreads`, wakes every
consumer and joins them. One session owns the handler, so its calls come one after another; they
interleave with the consumers, and the consumers with each other.

* `extractGraphIdentifier` is a parameter: any function of the text. The entries of the maps
  `threads`, `queues` and `incrementalLocalStoreMap` under one identifier are its `Lane`. A store is
  the list of the edge strings `addEdgeFromString` was called with.
* A step is what a thread does between two points at which others can be seen. A critical section
  is one step, except that a consumer reads `terminateThreads`, which no mutex protects, between
  waking and taking; `handleRequest` waits meanwhile. Notifying changes no state: a waiting
  consumer can go on whenever its predicate holds.
* `passed` is history: the edge strings `handleRequest` was called with.
-/

namespace JasmineGraph.Kafka

open Schedule

/-- Where a consumer thread stands. -/
inductive Pc where
  /-- Before the loop, where it looks its store up. -/
  | starting
  /-- At `while (!terminateThreads)`. -/
  | loop
  /-- In `cond_vars[graphIdentifier].wait`. -/
  | waiting
  /-- The wait has returned; it holds the mutex and will test `terminateThreads`. -/
  | woken
  /-- The test has failed; it holds the mutex and will pop. -/
  | taking
  /-- In `addEdgeFromString`, the mutex released. -/
  | applying (nodeString : String)
  | exited
deriving DecidableEq

/-- What the handler keeps for one graph identifier. -/
structure Lane where
  thread : Option Pc
  queue : List String
  store : Option (List String)
  passed : List String

/-- The edge strings the store has received. -/
def Lane.applied (l : Lane) : List String := l.store.getD []

/-- The critical section of `handleRequest`. -/
def Lane.push (nodeString : String) (l : Lane) : Option Lane :=
  match l.thread with
  | some .woken | some .taking => none
  | some pc => some ⟨some pc, l.queue ++ [nodeString], l.store, l.passed ++ [nodeString]⟩
  | none => some ⟨some .starting, [nodeString], l.store, l.passed ++ [nodeString]⟩

def Lane.threadFunction (terminateThreads : Bool) (l : Lane) : Option Lane :=
  match l.thread with
  | none => none
  | some .starting => some { l with store := some l.applied, thread := some .loop }
  | some .loop => some { l with thread := some (if terminateThreads then .exited else .waiting) }
  | some .waiting =>
    if l.queue ≠ [] ∨ terminateThreads then some { l with thread := some .woken } else none
  | some .woken => some { l with thread := some (if terminateThreads then .exited else .taking) }
  | some .taking =>
    match l.queue with
    | [] => none
    | nodeString :: queue => some { l with queue := queue, thread := some (.applying nodeString) }
  | some (.applying nodeString) =>
    some { l with store := some (l.applied ++ [nodeString]), thread := some .loop }
  | some .exited => none

/-- The handler, with the threads it has started. -/
structure InstanceStreamHandler (G : Type) where
  terminateThreads : Bool
  lanes : G → Lane
  started : List G
  /-- The session is inside the call with `"-1"`. -/
  stopping : Bool

/-- What can happen next. -/
inductive Action (G : Type) where
  | handleRequest (nodeString : String)
  | consumer (g : G)
  | joined
deriving DecidableEq

variable {G : Type} [DecidableEq G]

/-- One step of the handler. -/
def step (extractGraphIdentifier : String → G) :
    Action G → InstanceStreamHandler G → Option (InstanceStreamHandler G)
  | .handleRequest nodeString, h =>
    if h.stopping then none
    else if nodeString = "-1" then some { h with terminateThreads := true, stopping := true }
    else
      let g := extractGraphIdentifier nodeString
      ((h.lanes g).push nodeString).map fun l =>
        { h with
          lanes := Function.update h.lanes g l
          started := if (h.lanes g).thread = none then g :: h.started else h.started }
  | .consumer g, h =>
    ((h.lanes g).threadFunction h.terminateThreads).map fun l =>
      { h with lanes := Function.update h.lanes g l }
  | .joined, h =>
    if h.stopping ∧ ∀ g ∈ h.started, (h.lanes g).thread = some .exited then
      some { h with stopping := false }
    else none

/-- A new handler over the stores the process has loaded. -/
def start (stores : G → Option (List String)) : InstanceStreamHandler G :=
  ⟨false, fun g => ⟨none, [], stores g, []⟩, [], false⟩

/-- The edges for `g` among the calls of a schedule. -/
def edgesFor (extractGraphIdentifier : String → G) (g : G) : List (Action G) → List String :=
  List.filterMap fun
    | .handleRequest nodeString =>
      if nodeString ≠ "-1" ∧ extractGraphIdentifier nodeString = g then some nodeString else none
    | _ => none

/-! ## One lane -/

namespace Lane

variable {l l' : Lane} {nodeString : String} {terminate : Bool} {old : List String}

def inHand (l : Lane) : List String :=
  match l.thread with
  | some (.applying nodeString) => [nodeString]
  | _ => []

/-- No edge is lost, repeated or overtaken, over a store that began as `old`. -/
structure Conserves (old : List String) (terminate : Bool) (l : Lane) : Prop where
  edges : l.applied ++ l.inHand ++ l.queue = old ++ l.passed
  idle : l.thread = none → l.queue = []
  woken : l.thread = some .woken → l.queue ≠ [] ∨ terminate = true
  taking : l.thread = some .taking → l.queue ≠ []

/-- The consumer leaves nothing behind if no edge comes any more and it is told to stop. -/
def Drained (l : Lane) : Prop :=
  if l.thread = some .taking then l.queue.length = 1 else l.queue = []

instance (l : Lane) : Decidable l.Drained := by unfold Drained; infer_instance

def Sealed (l : Lane) : Prop :=
  l.thread = none ∨ l.thread = some .starting ∨ l.thread = some .loop ∨ l.thread = some .exited

theorem push_eq_some (h : l.push nodeString = some l') :
    (l.thread ≠ some .woken ∧ l.thread ≠ some .taking) ∧
      l' = ⟨some (l.thread.getD .starting), (if l.thread = none then [] else l.queue) ++ [nodeString],
        l.store, l.passed ++ [nodeString]⟩ := by
  obtain ⟨thread, queue, store, passed⟩ := l
  rcases thread with _ | (_ | _) <;> simp_all [push]

/-- Everything one consumer step can do. -/
inductive Move (terminate : Bool) (l : Lane) : Lane → Prop
  | load (ht : l.thread = some .starting) :
    Move terminate l { l with store := some l.applied, thread := some .loop }
  | test (ht : l.thread = some .loop) :
    Move terminate l { l with thread := some (if terminate then .exited else .waiting) }
  | wake (ht : l.thread = some .waiting) (hq : l.queue ≠ [] ∨ terminate = true) :
    Move terminate l { l with thread := some .woken }
  | pass (ht : l.thread = some .woken) :
    Move terminate l { l with thread := some (if terminate then .exited else .taking) }
  | take {e : String} {q : List String} (ht : l.thread = some .taking) (hq : l.queue = e :: q) :
    Move terminate l { l with queue := q, thread := some (.applying e) }
  | apply {e : String} (ht : l.thread = some (.applying e)) :
    Move terminate l { l with store := some (l.applied ++ [e]), thread := some .loop }

theorem move (h : l.threadFunction terminate = some l') : Move terminate l l' := by
  unfold threadFunction at h
  split at h
  case h_4 ht =>
    split_ifs at h with hq
    cases h
    exact .wake ht hq
  case h_6 ht =>
    split at h <;> cases h
    exact .take ht ‹_›
  all_goals cases h
  · exact .load ‹_›
  · exact .test ‹_›
  · exact .pass ‹_›
  · exact .apply ‹_›

theorem Conserves.push (hl : l.Conserves old terminate) (h : l.push nodeString = some l') :
    l'.Conserves old terminate := by
  obtain ⟨-, rfl⟩ := push_eq_some h
  have hqueue : (if l.thread = none then [] else l.queue) = l.queue := by
    split_ifs with hn
    · exact (hl.idle hn).symm
    · rfl
  have hhand : inHand ⟨some (l.thread.getD .starting), l.queue ++ [nodeString], l.store,
      l.passed ++ [nodeString]⟩ = l.inHand := by
    cases ht : l.thread <;> simp [inHand, ht]
  rw [hqueue]
  refine ⟨?_, fun hn => by simp at hn, fun _ => .inl (by simp), fun _ => by simp⟩
  rw [hhand, ← List.append_assoc, ← List.append_assoc, ← hl.edges]
  rfl

theorem Conserves.threadFunction (hl : l.Conserves old terminate)
    (h : l.threadFunction terminate = some l') : l'.Conserves old terminate := by
  have he := hl.edges
  cases move h with
  | test ht =>
    cases terminate <;>
      exact ⟨by simpa [inHand, ht, applied] using he, by simp, by simp, by simp⟩
  | wake ht hq => exact ⟨by simpa [inHand, ht, applied] using he, by simp, fun _ => hq, by simp⟩
  | pass ht =>
    -- a consumer that passes the test was woken by its queue
    cases terminate with
    | true => exact ⟨by simpa [inHand, ht, applied] using he, by simp, by simp, by simp⟩
    | false =>
      refine ⟨by simpa [inHand, ht, applied] using he, by simp, by simp, fun _ => ?_⟩
      exact (hl.woken ht).resolve_right (by simp)
  | take ht hq => exact ⟨by simpa [inHand, ht, hq, applied] using he, by simp, by simp, by simp⟩
  | load ht | apply ht =>
    exact ⟨by simpa [inHand, ht, applied] using he, by simp, by simp, by simp⟩

theorem Conserves.terminated (hl : l.Conserves old terminate) : l.Conserves old true :=
  ⟨hl.edges, hl.idle, fun _ => .inr rfl, hl.taking⟩

/-- Once told to stop, a consumer takes at most the edge it was about to take. -/
theorem drained_threadFunction (h : l.threadFunction true = some l') : l'.Drained ↔ l.Drained := by
  cases move h <;> simp_all [Drained]

/-- A store is complete exactly if its consumer left nothing in the queue. -/
theorem Conserves.complete_iff (hl : l.Conserves old terminate)
    (ht : l.thread = none ∨ l.thread = some .exited) :
    l.applied = old ++ l.passed ↔ l.Drained := by
  have hhand : l.inHand = [] := by rcases ht with ht | ht <;> simp [inHand, ht]
  have hdr : l.Drained ↔ l.queue = [] := by rcases ht with ht | ht <;> simp [Drained, ht]
  rw [hdr, ← hl.edges, hhand, List.append_nil, List.self_eq_append_right]

theorem Sealed.push (hl : l.Conserves old terminate) (hs : l.Sealed)
    (h : l.push nodeString = some l') :
    l'.Sealed ∧ l'.applied = l.applied ∧ l'.queue = l.queue ++ [nodeString] := by
  obtain ⟨-, rfl⟩ := push_eq_some h
  refine ⟨?_, rfl, ?_⟩
  · rcases hs with ht | ht | ht | ht <;> simp [Sealed, ht]
  · split_ifs with hn
    · rw [hl.idle hn]
    · rfl

theorem Sealed.threadFunction (hs : l.Sealed) (h : l.threadFunction true = some l') :
    l'.Sealed ∧ l'.applied = l.applied ∧ l'.queue = l.queue := by
  rcases hs with ht | ht | ht | ht <;> rw [Lane.threadFunction, ht] at h <;> cases h <;>
    simp [Sealed, applied]

end Lane

/-! ## The handler -/

variable {extractGraphIdentifier : String → G} {stores : G → Option (List String)}
  {a : Action G} {h h' : InstanceStreamHandler G}

/-- Everything one step of the handler can do. -/
inductive Move (extractGraphIdentifier : String → G) (h : InstanceStreamHandler G) :
    Action G → InstanceStreamHandler G → Prop
  | stop (hno : h.stopping = false) : Move extractGraphIdentifier h (.handleRequest "-1")
      { h with terminateThreads := true, stopping := true }
  | push {e : String} {g : G} {l : Lane} (hno : h.stopping = false) (he : e ≠ "-1")
      (hg : extractGraphIdentifier e = g) (hl : (h.lanes g).push e = some l) :
    Move extractGraphIdentifier h (.handleRequest e)
      { h with
        lanes := Function.update h.lanes g l
        started := if (h.lanes g).thread = none then g :: h.started else h.started }
  | consumer {g : G} {l : Lane} (hl : (h.lanes g).threadFunction h.terminateThreads = some l) :
    Move extractGraphIdentifier h (.consumer g) { h with lanes := Function.update h.lanes g l }
  | joined (hexit : ∀ g ∈ h.started, (h.lanes g).thread = some .exited) :
    Move extractGraphIdentifier h .joined { h with stopping := false }

theorem move (hstep : step extractGraphIdentifier a h = some h') :
    Move extractGraphIdentifier h a h' := by
  cases a with
  | handleRequest e =>
    simp only [step] at hstep
    by_cases hs : h.stopping = true
    · rw [if_pos hs] at hstep
      cases hstep
    rw [if_neg hs] at hstep
    split at hstep
    · cases hstep
      subst e
      exact .stop (by simpa using hs)
    · obtain ⟨l, hl, rfl⟩ := Option.map_eq_some_iff.1 hstep
      exact .push (by simpa using hs) ‹_› rfl hl
  | consumer g =>
    obtain ⟨l, hl, rfl⟩ := Option.map_eq_some_iff.1 hstep
    exact .consumer hl
  | joined =>
    simp only [step] at hstep
    split_ifs at hstep with hj
    cases hstep
    exact .joined hj.2

/-- Every lane conserves its edges, and `started` lists the lanes that have a thread. -/
structure Sound (stores : G → Option (List String)) (h : InstanceStreamHandler G) : Prop where
  lanes : ∀ g, (h.lanes g).Conserves ((stores g).getD []) h.terminateThreads
  started : ∀ g, g ∈ h.started ↔ (h.lanes g).thread ≠ none

omit [DecidableEq G] in
theorem sound_start : Sound stores (start stores) where
  lanes g := ⟨by simp [start, Lane.applied, Lane.inHand], by simp [start], by simp [start],
    by simp [start]⟩
  started g := by simp [start]

theorem Sound.step (hs : Sound stores h) (hstep : step extractGraphIdentifier a h = some h') :
    Sound stores h' := by
  cases move hstep with
  | stop => exact ⟨fun g => (hs.lanes g).terminated, hs.started⟩
  | joined => exact ⟨hs.lanes, hs.started⟩
  | @push _ g l _ _ _ hl =>
    have hsome : l.thread ≠ none := by
      obtain ⟨-, rfl⟩ := Lane.push_eq_some hl
      simp
    refine ⟨forall_update hs.lanes ((hs.lanes g).push hl), fun k => ?_⟩
    by_cases hk : k = g
    · subst hk
      refine iff_of_true ?_ (by simpa using hsome)
      split_ifs with hn
      · exact List.mem_cons_self
      · exact (hs.started k).2 hn
    · dsimp only
      rw [Function.update_of_ne hk, ← hs.started k]
      split_ifs with hn
      · exact List.mem_cons.trans (or_iff_right hk)
      · exact .rfl
  | @consumer g l hl =>
    have hthread : l.thread ≠ none ∧ (h.lanes g).thread ≠ none := by
      cases Lane.move hl <;> simp [*]
    refine ⟨forall_update hs.lanes ((hs.lanes g).threadFunction hl), ?_⟩
    exact forall_update (P := fun k (l : Lane) => k ∈ h.started ↔ l.thread ≠ none) hs.started
      (iff_of_true ((hs.started g).2 hthread.2) hthread.1)

theorem Sound.run {as : List (Action G)} (hs : Sound stores h)
    (hrun : run (Kafka.step extractGraphIdentifier) as h = some h') : Sound stores h' :=
  run_invariant (fun _ _ _ hs hstep => hs.step hstep) hrun hs

/-! ## The call with `"-1"` -/

structure Stopping (stores : G → Option (List String)) (h : InstanceStreamHandler G) : Prop where
  sound : Sound stores h
  terminate : h.terminateThreads = true
  stopping : h.stopping = true

theorem Stopping.step (hs : Stopping stores h) (ha : a ≠ .joined)
    (hstep : step extractGraphIdentifier a h = some h') :
    Stopping stores h' ∧ ((∀ g, (h'.lanes g).Drained) ↔ ∀ g, (h.lanes g).Drained) := by
  have hsound := hs.sound.step hstep
  cases move hstep with
  | stop hno | push hno =>
    rw [hs.stopping] at hno
    cases hno
  | consumer hl =>
    rw [hs.terminate] at hl
    exact ⟨⟨hsound, hs.terminate, hs.stopping⟩,
      forall_update_iff (Lane.drained_threadFunction hl)⟩
  | joined => exact absurd rfl ha

/-- After the call: no consumer will reach its queue again. -/
structure Stopped (stores : G → Option (List String)) (h : InstanceStreamHandler G) : Prop where
  sound : Sound stores h
  terminate : h.terminateThreads = true
  lanes : ∀ g, (h.lanes g).Sealed

/-- After the call a step adds what it passes to a queue, and nothing else happens. -/
theorem Stopped.step (hs : Stopped stores h) (hstep : step extractGraphIdentifier a h = some h') :
    Stopped stores h' ∧ ∀ g, (h'.lanes g).applied = (h.lanes g).applied ∧
      (h'.lanes g).queue = (h.lanes g).queue ++ edgesFor extractGraphIdentifier g [a] := by
  have hsound := hs.sound.step hstep
  cases move hstep with
  | stop => exact ⟨⟨hsound, rfl, hs.lanes⟩, fun g => by simp [edgesFor]⟩
  | @push e _ _ _ he hg hl =>
    subst hg
    obtain ⟨hseal, happ, hq⟩ := (hs.lanes _).push (hs.sound.lanes _) hl
    refine ⟨⟨hsound, hs.terminate, forall_update hs.lanes hseal⟩, fun k => ?_⟩
    by_cases hk : k = extractGraphIdentifier e
    · subst hk
      simp [edgesFor, he, happ, hq]
    · simp [edgesFor, hk, Ne.symm hk]
  | @consumer g _ hl =>
    rw [hs.terminate] at hl
    obtain ⟨hseal, happ, hq⟩ := (hs.lanes g).threadFunction hl
    refine ⟨⟨hsound, hs.terminate, forall_update hs.lanes hseal⟩, fun k => ?_⟩
    by_cases hk : k = g
    · subst hk
      simp [edgesFor, happ, hq]
    · simp [edgesFor, hk]
  | joined => exact ⟨⟨hsound, hs.terminate, hs.lanes⟩, fun g => by simp [edgesFor]⟩

/-- **Nothing that is passed after the call is ever dequeued.** -/
theorem Stopped.run {as : List (Action G)} (hs : Stopped stores h)
    (hrun : run (Kafka.step extractGraphIdentifier) as h = some h') (g : G) :
    (h'.lanes g).applied = (h.lanes g).applied ∧
      (h'.lanes g).queue = (h.lanes g).queue ++ edgesFor extractGraphIdentifier g as := by
  induction as generalizing h with
  | nil =>
    cases hrun
    simp [edgesFor]
  | cons a as ih =>
    obtain ⟨u, hu, hrun⟩ := run_cons_eq_some.1 hrun
    obtain ⟨hu', hlane⟩ := hs.step hu
    obtain ⟨happ, hq⟩ := ih hu' hrun
    refine ⟨happ.trans (hlane g).1, ?_⟩
    rw [hq, (hlane g).2, List.append_assoc]
    congr 1
    exact (List.filterMap_append).symm

/-- When the threads are joined, every lane is sealed and has received all that was passed exactly
if it is drained. -/
theorem Stopping.joined (hs : Stopping stores h)
    (hstep : Kafka.step extractGraphIdentifier .joined h = some h') :
    Stopped stores h' ∧ ∀ g, (h'.lanes g).applied = (stores g).getD [] ++ (h'.lanes g).passed ↔
      (h.lanes g).Drained := by
  have hsound := hs.sound.step hstep
  rcases move hstep with _ | _ | _ | hexit
  have hdone : ∀ g, (h.lanes g).thread = none ∨ (h.lanes g).thread = some .exited := by
    intro g
    by_cases hg : (h.lanes g).thread = none
    · exact .inl hg
    · exact .inr (hexit g ((hs.sound.started g).2 hg))
  refine ⟨⟨hsound, hs.terminate, fun g => ?_⟩, fun g => (hs.sound.lanes g).complete_iff (hdone g)⟩
  rcases hdone g with hg | hg
  · exact .inl hg
  · exact .inr (.inr (.inr hg))

/-- **The end of a stream.** Let the session pass `"-1"` after any interleaving, and let the call
return after any further steps of the consumers. Then every store has received the edges passed
for its graph, each once and in their order, exactly if when the call began no queue held more
than its consumer was already past the last test for; and of what is passed after the call,
nothing is ever dequeued. -/
theorem stop_returns {before during : List (Action G)} {h₀ h₁ h₂ : InstanceStreamHandler G}
    (hbefore : run (step extractGraphIdentifier) before (start stores) = some h₀)
    (hstop : step extractGraphIdentifier (.handleRequest "-1") h₀ = some h₁)
    (hduring : .joined ∉ during)
    (hreturn : run (step extractGraphIdentifier) (during ++ [.joined]) h₁ = some h₂) :
    ((∀ g, (h₂.lanes g).applied = (stores g).getD [] ++ (h₂.lanes g).passed) ↔
        ∀ g, (h₀.lanes g).Drained) ∧
      ∀ after h₃, run (step extractGraphIdentifier) after h₂ = some h₃ → ∀ g,
        (h₃.lanes g).applied = (h₂.lanes g).applied ∧ (h₃.lanes g).queue =
            (h₂.lanes g).queue ++ edgesFor extractGraphIdentifier g after := by
  have hs₀ : Sound stores h₀ := sound_start.run hbefore
  have hs₁ : Stopping stores h₁ ∧ h₁.lanes = h₀.lanes := by
    have hs := hs₀.step hstop
    cases move hstop with
    | stop => exact ⟨⟨hs, rfl, rfl⟩, rfl⟩
    | push _ hne => exact absurd rfl hne
  obtain ⟨h, hs, hdrained, hjoin⟩ := run_until
    (fun a h h' hs ha hstep => hs.step ha hstep) hduring
    hreturn hs₁.1
  obtain ⟨hstopped, hcomplete⟩ := hs.joined hjoin
  refine ⟨?_, fun after h₃ hafter => hstopped.run hafter⟩
  rw [← hs₁.2, ← hdrained]
  exact forall_congr' hcomplete

/-- An edge string of graph 1, partition 0. -/
def edge : String :=
  "\x7b\"source\":\x7b\"id\":\"1\"\x7d,\"destination\":\x7b\"id\":\"2\"\x7d," ++
    "\"properties\":\x7b\"graphId\":\"1\"\x7d,\"EdgeType\":\"Local\",\"PID\":0\x7d"

/-- Its consumer is about to take the edge when the stream ends. -/
theorem stop_returns_taking : ∃ h₀ h₁ h₂, run (step fun _ => "1_0")
        [.handleRequest edge, .consumer "1_0", .consumer "1_0", .consumer "1_0", .consumer "1_0"]
        (start fun _ => none) = some h₀ ∧
      step (fun _ => "1_0") (.handleRequest "-1") h₀ = some h₁ ∧
      run (step fun _ => "1_0") ([.consumer "1_0", .consumer "1_0", .consumer "1_0"] ++ [.joined])
        h₁ = some h₂ ∧
      ((∀ g, (h₂.lanes g).applied = [] ++ (h₂.lanes g).passed) ↔ ∀ g, (h₀.lanes g).Drained) := by
  obtain ⟨h₀, hbefore, h₁, hstop, hsome⟩ : ∃ h₀ ∈ run (step fun _ => "1_0")
      [.handleRequest edge, .consumer "1_0", .consumer "1_0", .consumer "1_0", .consumer "1_0"]
      (start fun _ => none), ∃ h₁ ∈ step (fun _ => "1_0") (.handleRequest "-1") h₀,
        (run (step fun _ => "1_0")
          ([.consumer "1_0", .consumer "1_0", .consumer "1_0"] ++ [.joined]) h₁).isSome := by
    decide +kernel
  obtain ⟨h₂, hreturn⟩ := Option.isSome_iff_exists.1 hsome
  exact ⟨h₀, h₁, h₂, hbefore, hstop, hreturn, (stop_returns hbefore hstop (by decide) hreturn).1⟩

/-- The stream ends before the consumer of a new graph has reached its queue: the edge is never
applied, and neither is one that is passed later. -/
theorem stop_loses_queued_edge : (run (step fun _ => "1_0")
        [.handleRequest edge, .handleRequest "-1", .consumer "1_0", .consumer "1_0", .joined,
          .handleRequest edge] (start fun _ => none)).map
      (fun h => ((h.lanes "1_0").passed, (h.lanes "1_0").applied, (h.lanes "1_0").queue,
        (h.lanes "1_0").thread)) =
    some ([edge, edge], [], [edge, edge], some .exited) := by
  decide +kernel

end JasmineGraph.Kafka
