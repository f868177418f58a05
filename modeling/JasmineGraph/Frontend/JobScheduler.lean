import JasmineGraph.Schedule
import JasmineGraph.Bytes.Text

/-!
# The job scheduler

Model of `JobScheduler.cpp`: `pushJob`, the thread `startScheduler`, `processJob` and `executeJob`,
with the choice of `ExecutorFactory::getExecutor` and `AgentPlanExecutor::execute`.

* The scheduler empties the queue, the highest priority first. Triangle counts, Cypher queries and
  beam searches of priority 5 wait until the queue is empty; of these a job whose queue time is
  negative is rejected with a response. Every other job runs in a thread of its own.
* An executor writes its response at its end. One that returns early or throws leaves none: the
  exception stays in a `std::future` that nobody asks. A job type without an executor leaves none.
* `jobQueue` has no lock. The model takes a push and a take for atomic; in the code the two may race.
* Of a response the model keeps the error message. What the executors other than that of agent plans
  do is left to the environment, which says how each call ends.
-/

namespace JasmineGraph.Frontend.JobScheduler

open Bytes Schedule

/-! ## Jobs and executors -/

inductive JobType
  | triangles | streamingTriangles | pageRank | cypher | semanticBeamSearch | agentPlan
  | other (name : List UInt8)
  deriving DecidableEq

/-- The members of a `JobRequest` that the scheduler reads. -/
structure JobRequest where
  jobId : List UInt8
  jobType : JobType
  priority : Int
  deriving DecidableEq

/-- How `execute` ends: it writes its response, returns before that, or throws before that. -/
inductive Outcome
  | responded | returned | threw
  deriving DecidableEq

/-- A line that the worker sends: the end marker, a chunk of the answer and whether it could be
written to the client, or a line that is logged or passed over. -/
inductive AgentLine
  | done | chunk (written : Bool) | skipped
  deriving DecidableEq

/-- What a call of `AgentPlanExecutor::execute` meets: whether the numbers among its parameters parse,
whether the calls before the plan is sent succeed and whether its fields are sent, and the lines that
come before the connection is closed. -/
structure AgentCall where
  parses : Bool
  socket : Bool
  host : Bool
  connects : Bool
  handshake : Bool
  fields : Fin 7 → Bool
  lines : List AgentLine

/-- The loop over the lines of the answer. -/
def AgentCall.receive : List AgentLine → Outcome
  | [] => .responded
  | .done :: _ => .responded
  | .chunk true :: lines => receive lines
  | .chunk false :: _ => .returned
  | .skipped :: lines => receive lines

def AgentCall.execute (c : AgentCall) : Outcome :=
  if c.parses && c.socket && c.host && c.connects && c.handshake && decide (∀ i, c.fields i) then
    receive c.lines
  else .threw

/-- Every call before the answer succeeds, and every chunk before the end marker is written. -/
def AgentCall.Answers (c : AgentCall) : Prop :=
  (c.parses ∧ c.socket ∧ c.host ∧ c.connects ∧ c.handshake ∧ ∀ i, c.fields i) ∧
    .chunk false ∉ c.lines.takeWhile (· ≠ .done)

theorem AgentCall.receive_eq_responded {lines : List AgentLine} :
    receive lines = .responded ↔ .chunk false ∉ lines.takeWhile (· ≠ .done) := by
  induction lines with
  | nil => simp [receive]
  | cons line lines ih =>
    cases line with
    | done => simp [receive]
    | chunk written => cases written <;> simp [receive, ih]
    | skipped => simp [receive, ih]

theorem AgentCall.execute_eq_responded {c : AgentCall} : c.execute = .responded ↔ c.Answers := by
  have hcalls : (c.parses && c.socket && c.host && c.connects && c.handshake &&
      decide (∀ i, c.fields i)) = true ↔
        c.parses ∧ c.socket ∧ c.host ∧ c.connects ∧ c.handshake ∧ ∀ i, c.fields i := by
    simp [and_assoc]
  rw [execute, Answers, ← hcalls, ← receive_eq_responded]
  split
  case isTrue h => exact (and_iff_right h).symm
  case isFalse h => exact iff_of_false nofun fun hc => h hc.1

/-- What an executor meets: the one of agent plans what its call says, another one its outcome. -/
structure Ending where
  call : AgentCall
  outcome : Outcome

def executeJob (request : JobRequest) (ending : Ending) : Outcome :=
  match request.jobType with
  | .agentPlan => ending.call.execute
  | .other _ => .returned
  | _ => ending.outcome

/-- What `executeJob` meets for the job to get its response. -/
def Ending.Answers (request : JobRequest) (ending : Ending) : Prop :=
  match request.jobType with
  | .agentPlan => ending.call.Answers
  | .other _ => False
  | _ => ending.outcome = .responded

theorem executeJob_eq_responded {request : JobRequest} {ending : Ending} :
    executeJob request ending = .responded ↔ ending.Answers request := by
  rw [executeJob, Ending.Answers]
  split
  · exact AgentCall.execute_eq_responded
  · exact iff_of_false nofun id
  · rfl

/-! ## The scheduler -/

/-- The error message of a response. -/
abbrev JobResponse := Option (List UInt8)

/-- The queue, the list `pendingHPJobList` while it is filled and while it is worked off, the jobs
whose threads run, and the responses. -/
structure State where
  jobQueue : List JobRequest
  pending : List JobRequest
  scheduling : List JobRequest
  running : List JobRequest
  responseMap : List UInt8 → Option JobResponse

def start : State := ⟨[], [], [], [], fun _ => none⟩

/-- A frontend pushes a job; the scheduler takes one from the queue, finds the queue empty, or decides
on the next job of its list; the executor of a job ends. -/
inductive Label
  | push (request : JobRequest)
  | take (request : JobRequest)
  | drained
  | schedule (request : JobRequest) (queueTime : Int)
  | execute (request : JobRequest) (ending : Ending)

/-- `Conts::HIGH_PRIORITY_DEFAULT_VALUE`, for the job types that wait. -/
def Waits (request : JobRequest) : Prop :=
  request.priority = 5 ∧ request.jobType ∈ [.triangles, .cypher, .semanticBeamSearch]

instance (request : JobRequest) : Decidable (Waits request) := inferInstanceAs (Decidable (_ ∧ _))

def State.respond (s : State) (request : JobRequest) (response : JobResponse) : State :=
  { s with responseMap := Function.update s.responseMap request.jobId (some response) }

def step : Label → State → Option State
  | .push request, s => some { s with jobQueue := request :: s.jobQueue }
  | .take request, s =>
    if s.scheduling = [] ∧ request ∈ s.jobQueue ∧ ∀ r ∈ s.jobQueue, r.priority ≤ request.priority then
      let s := { s with jobQueue := s.jobQueue.erase request }
      some (if Waits request then { s with pending := s.pending ++ [request] }
        else { s with running := request :: s.running })
    else none
  | .drained, s =>
    if s.scheduling = [] ∧ s.jobQueue = [] ∧ s.pending ≠ [] then
      some { s with pending := [], scheduling := s.pending }
    else none
  | .schedule request queueTime, s =>
    match s.scheduling with
    | [] => none
    | r :: rest =>
      if r = request then
        let s := { s with scheduling := rest }
        some (if queueTime < 0 then s.respond request (some (ascii
            "Rejecting the job request because SLA cannot be maintained"))
          else { s with running := request :: s.running })
      else none
  | .execute request ending, s =>
    if request ∈ s.running then
      let s := { s with running := s.running.erase request }
      some (if executeJob request ending = .responded then s.respond request none else s)
    else none

/-! ## What is served -/

namespace Label

/-- The job that a frontend pushes. -/
def pushed : Label → Option JobRequest
  | push request => some request
  | _ => none

/-- The job that a step is the last one for: its rejection, or the end of its executor. -/
def served : Label → Option JobRequest
  | schedule request queueTime => if queueTime < 0 then some request else none
  | execute request _ => some request
  | _ => none

def answered : Label → Option JobRequest
  | schedule request queueTime => if queueTime < 0 then some request else none
  | execute request ending => if executeJob request ending = .responded then some request else none
  | _ => none

end Label

namespace State

def unserved (s : State) : List JobRequest := s.jobQueue ++ s.pending ++ s.scheduling ++ s.running

/-- Every job is served. -/
def Quiet (s : State) : Prop := s.unserved = []

/-- A bound on the steps that the jobs still need. -/
def work (s : State) : Nat :=
  4 * s.jobQueue.length + 3 * s.pending.length + 2 * s.scheduling.length + s.running.length

end State

variable {l : Label} {ls : List Label} {s t : State} {r : JobRequest}

theorem mem_unserved : r ∈ s.unserved ↔
    r ∈ s.jobQueue ∨ r ∈ s.pending ∨ r ∈ s.scheduling ∨ r ∈ s.running := by
  simp [State.unserved]

/-- **One step** loses no job, writes the response that its label says, and is progress unless it
pushes a job. -/
theorem step_spec (r : JobRequest) (id : List UInt8) (h : step l s = some t) :
    (r ∈ s.unserved ∨ l.pushed = some r → r ∈ t.unserved ∨ l.served = some r) ∧
      ((t.responseMap id).isSome ↔ (s.responseMap id).isSome ∨ ∃ r ∈ l.answered, r.jobId = id) ∧
      (l.pushed = none → t.work < s.work) := by
  simp only [mem_unserved, State.work]
  cases l with
  | push request =>
    cases h
    grind [Label.pushed, Label.answered]
  | take request =>
    obtain ⟨⟨-, hmem, -⟩, hsome⟩ := Option.ite_none_right_eq_some.1 h
    have hlen := List.length_erase_of_mem hmem
    have hpos := List.length_pos_of_mem hmem
    cases hsome
    grind [Label.pushed, Label.served, Label.answered]
  | drained =>
    obtain ⟨⟨hs, hq, hne⟩, hsome⟩ := Option.ite_none_right_eq_some.1 h
    have hpos := List.length_pos_iff.2 hne
    cases hsome
    grind [Label.pushed, Label.answered]
  | schedule request queueTime =>
    simp only [step] at h
    split at h
    case h_1 => cases h
    case h_2 first rest hlist =>
      obtain ⟨rfl, hsome⟩ := Option.ite_none_right_eq_some.1 h
      cases hsome
      by_cases hq : queueTime < 0
      · simp only [hq, Label.pushed, Label.served, Label.answered, State.respond]
        grind
      · simp only [hq, if_false, Label.pushed, Label.served, Label.answered, hlist]
        grind
  | execute request ending =>
    obtain ⟨hmem, hsome⟩ := Option.ite_none_right_eq_some.1 h
    cases hsome
    by_cases hended : executeJob request ending = .responded
    · simp only [hended, Label.pushed, Label.served, Label.answered, State.respond]
      grind
    · simp only [hended, if_false, Label.pushed, Label.served, Label.answered]
      grind

/-- A job is answered in a run if it is rejected there or what its executor meets lets it answer. -/
theorem mem_answered : r ∈ ls.filterMap Label.answered ↔
    (∃ queueTime < 0, .schedule r queueTime ∈ ls) ∨
      ∃ ending, .execute r ending ∈ ls ∧ ending.Answers r := by
  simp only [List.mem_filterMap]
  constructor
  · rintro ⟨l, hl, hr⟩
    cases l with
    | schedule request queueTime =>
      obtain ⟨hq, hsome⟩ := Option.ite_none_right_eq_some.1 hr
      cases hsome
      exact .inl ⟨queueTime, hq, hl⟩
    | execute request ending =>
      obtain ⟨hended, hsome⟩ := Option.ite_none_right_eq_some.1 hr
      cases hsome
      exact .inr ⟨ending, hl, executeJob_eq_responded.1 hended⟩
    | _ => cases hr
  · rintro (⟨queueTime, hq, hl⟩ | ⟨ending, hl, hended⟩)
    · exact ⟨_, hl, if_pos hq⟩
    · exact ⟨_, hl, if_pos (executeJob_eq_responded.2 hended)⟩

theorem run_spec (r : JobRequest) (id : List UInt8) (h : run step ls s = some t) :
    (r ∈ s.unserved ∨ r ∈ ls.filterMap Label.pushed →
        r ∈ t.unserved ∨ r ∈ ls.filterMap Label.served) ∧
      ((t.responseMap id).isSome ↔
        (s.responseMap id).isSome ∨ ∃ r ∈ ls.filterMap Label.answered, r.jobId = id) := by
  induction ls generalizing s with
  | nil =>
    cases h
    simp
  | cons l ls ih =>
    obtain ⟨u, hu, hrun⟩ := run_cons_eq_some.1 h
    obtain ⟨hmem, hresponse, -⟩ := step_spec r id hu
    obtain ⟨ihmem, ihresponse⟩ := ih hrun
    rw [ihresponse, hresponse]
    grind

/-- An agent plan, and a worker that refuses the connection. -/
def refusedPlan : JobRequest := ⟨ascii "1", .agentPlan, 1⟩

def refused : Ending := ⟨⟨true, true, true, false, false, fun _ => false, []⟩, .threw⟩

def refusedRun : List Label :=
  [.push refusedPlan, .take refusedPlan, .execute refusedPlan refused]

theorem exists_step (h : ¬s.Quiet) : ∃ l t, l.pushed = none ∧ step l s = some t := by
  obtain ⟨jobQueue, pending, scheduling, running, responseMap⟩ := s
  cases running with
  | cons request running => exact ⟨.execute request refused, _, rfl, if_pos List.mem_cons_self⟩
  | nil =>
    cases scheduling with
    | cons request scheduling => exact ⟨.schedule request 0, _, rfl, if_pos rfl⟩
    | nil =>
      cases jobQueue with
      | nil =>
        refine ⟨.drained, _, rfl, if_pos ⟨rfl, rfl, fun hnil => h ?_⟩⟩
        simpa [State.Quiet, State.unserved] using hnil
      | cons first rest =>
        obtain ⟨request, hmem, hmax⟩ :=
          Finset.exists_max_image (first :: rest).toFinset JobRequest.priority ⟨first, by simp⟩
        exact ⟨.take request, _, rfl, if_pos ⟨rfl, List.mem_toFinset.1 hmem,
          fun r hr => hmax r (List.mem_toFinset.2 hr)⟩⟩

/-- **Every job gets an answer exactly if every job is rejected or has an executor that ends
normally.** Whatever has been pushed, the scheduler needs a bounded number of steps to serve it; when
every job is served, a job has a response exactly if a job of its id was rejected or met what its
executor needs to answer. -/
theorem answered_iff (hrun : run step ls start = some s) :
    (∀ ls' t, run step ls' s = some t → (∀ l ∈ ls', l.pushed = none) → ls'.length ≤ s.work) ∧
      (s.Quiet ∨ ∃ l t, l.pushed = none ∧ step l s = some t) ∧
      (s.Quiet → (∀ r ∈ ls.filterMap Label.pushed, r ∈ ls.filterMap Label.served) ∧
        ((∀ r ∈ ls.filterMap Label.pushed, (s.responseMap r.jobId).isSome) ↔
          ∀ r ∈ ls.filterMap Label.pushed, ∃ r', r'.jobId = r.jobId ∧
            ((∃ queueTime < 0, .schedule r' queueTime ∈ ls) ∨
              ∃ ending, .execute r' ending ∈ ls ∧ ending.Answers r'))) := by
  refine ⟨fun ls' t h hls => ?_, ?_, fun hquiet => ⟨fun r hr => ?_, forall₂_congr fun r _ => ?_⟩⟩
  · have hlen := Meets.length_le (I := fun _ => True) (m := State.work)
      (fun l s t _ hl h => ⟨trivial, (step_spec refusedPlan [] h).2.2 hl⟩)
      (Meets.of_forall (fun l hl _ => hls l hl) s) h trivial
    omega
  · exact or_iff_not_imp_left.2 exists_step
  · refine ((run_spec r [] hrun).1 (.inr hr)).resolve_left fun hmem => ?_
    rw [hquiet] at hmem
    exact absurd hmem List.not_mem_nil
  · rw [(run_spec r r.jobId hrun).2]
    refine (or_iff_right Bool.false_ne_true).trans (exists_congr fun r' => ?_)
    rw [mem_answered, and_comm]

def count : JobRequest := ⟨ascii "1", .triangles, 5⟩

def plan : JobRequest := ⟨ascii "2", .agentPlan, 1⟩

/-- The worker sends a line that does not parse, a chunk and the end marker. -/
def answer : Ending :=
  ⟨⟨true, true, true, true, true, fun _ => true, [.skipped, .chunk true, .done]⟩, .threw⟩

/-- The count is rejected and the plan is answered. -/
def countAndPlan : List Label :=
  [.push plan, .push count, .take count, .take plan, .drained, .execute plan answer,
    .schedule count (-1)]

theorem answered_iff_countAndPlan : ∃ s, run step countAndPlan start = some s ∧ s.Quiet ∧
    ∀ r ∈ countAndPlan.filterMap Label.pushed, (s.responseMap r.jobId).isSome := by
  have hrun : run step countAndPlan start = some _ := rfl
  refine ⟨_, hrun, rfl, ((answered_iff hrun).2.2 rfl).2.2 ?_⟩
  refine List.forall_mem_cons.2 ⟨⟨plan, rfl, .inr ⟨answer, by simp [countAndPlan], ?_⟩⟩,
    List.forall_mem_singleton.2 ⟨count, rfl, .inl ⟨-1, by decide, by simp [countAndPlan]⟩⟩⟩
  exact AgentCall.execute_eq_responded.1 (by decide)

/-- **A plan whose worker refuses the connection gets no answer**: it is served, and the state is
again the one at the start. -/
theorem refusedPlan_unanswered : run step refusedRun start = some start ∧
    refusedPlan ∈ refusedRun.filterMap Label.served ∧ start.Quiet ∧
    start.responseMap refusedPlan.jobId = none :=
  ⟨rfl, List.mem_cons_self, rfl, rfl⟩

end JasmineGraph.Frontend.JobScheduler
