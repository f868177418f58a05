import JasmineGraph.Bytes.Lines
import JasmineGraph.Schedule

/-!
# From a file to the processing threads: `HDFSStreamHandler`

The model of `HDFSStreamHandler::streamFromHDFSIntoBuffer` and
`streamFromBufferToProcessingQueuePropertyGraph` (`util/hdfs/HDFSStreamHandler.cpp`). A reader takes
the file in parts of any size, cuts them into lines, keeps the last line of a part that does not end
with a newline for the next part, and pushes the lines into a bounded queue. At the end of the file
it clears `isReading`, pushes what it kept, and pushes the marker `"-1"`. The processing threads pop
lines until one pops the marker, which clears `isProcessing`, or finds the queue empty and
`isReading` cleared.

A step is what a thread does under `dataBufferMutex`, or one access to a flag. A wait on
`dataBufferCV` is a step that is enabled when its predicate holds; which thread a notification wakes
is left to the schedule. What is done with a line is `uncaught`: whether an exception escapes the
handlers of the loop (they catch parse errors and ids that are no integers, not a member of another
type), which ends the process. That the file could be opened is assumed.

Lines can be lost in three ways. A line `"-1"` is taken for the marker. An escaped exception ends
the process. And between the clearing of `isReading` and the push of the kept line every processing
thread may find an empty queue and leave.
-/

namespace JasmineGraph.Hdfs

open Schedule Bytes List

abbrev Line := List UInt8

/-- `END_OF_STREAM_MARKER`. -/
def marker : Line := ascii "-1"

def readPart (leftover part : List UInt8) : List Line × Line :=
  let data := leftover ++ part
  if data.getLast? = some 10 then (split 10 data, [])
  else ((split 10 data).dropLast, (split 10 data).getLast?.getD [])

/-- Where the reader stands. -/
inductive Reader where
  /-- In the loop: the parts to come, the lines of this part to push, the line that is kept. -/
  | reading (parts : List (List UInt8)) (pending : List Line) (leftover : Line)
  | flushing (leftover : Line)
  | marking
  | done

/-- Where a processing thread stands. -/
inductive Processor where
  | test
  | waiting
  | took (line : Line)
  | exited
deriving DecidableEq

/-- The handler with its threads; `taken` is every pop, in order. -/
structure Handler (k : Nat) where
  reader : Reader
  isReading : Bool
  isProcessing : Bool
  dataBuffer : List Line
  processors : Fin k → Processor
  taken : List (Fin k × Line)
  crashed : Bool

/-- Which thread takes the next step. -/
inductive Label (k : Nat) where
  | reader
  | processor (i : Fin k)
deriving DecidableEq

variable {k : Nat} (maxBufferSize : Nat) (uncaught : Line → Bool)

def streamFromHDFSIntoBuffer (h : Handler k) : Option (Handler k) :=
  match h.reader with
  | .reading parts (line :: pending) leftover =>
    if h.dataBuffer.length < maxBufferSize ∨ h.isReading = false then
      some { h with
        reader := .reading parts pending leftover
        dataBuffer := h.dataBuffer ++ [line] }
    else none
  | .reading (part :: parts) [] leftover =>
    let read := readPart leftover part
    some { h with reader := .reading parts read.1 read.2 }
  | .reading [] [] leftover => some { h with reader := .flushing leftover, isReading := false }
  | .flushing leftover =>
    if leftover = [] then some { h with reader := .marking }
    else some { h with reader := .marking, dataBuffer := h.dataBuffer ++ [leftover] }
  | .marking => some { h with reader := .done, dataBuffer := h.dataBuffer ++ [marker] }
  | .done => none

def Handler.move (h : Handler k) (i : Fin k) (pc : Processor) : Handler k :=
  { h with processors := Function.update h.processors i pc }

theorem Handler.processors_move (h : Handler k) (i : Fin k) (pc : Processor) :
    (h.move i pc).processors = Function.update h.processors i pc := rfl

def streamFromBufferToProcessingQueue (i : Fin k) (h : Handler k) : Option (Handler k) :=
  match h.processors i with
  | .test => some (h.move i (if h.isProcessing then .waiting else .exited))
  | .waiting =>
    match h.dataBuffer with
    | line :: rest =>
      let h := { h with dataBuffer := rest, taken := h.taken ++ [(i, line)] }
      some (h.move i (.took line))
    | [] => if h.isReading then none else some (h.move i .exited)
  | .took line =>
    if line = marker then some ({ h with isProcessing := false }.move i .exited)
    else if uncaught line then some { h with crashed := true }
    else some (h.move i .test)
  | .exited => none

def step : Label k → Handler k → Option (Handler k)
  | .reader, h => if h.crashed then none else streamFromHDFSIntoBuffer maxBufferSize h
  | .processor i, h => if h.crashed then none else streamFromBufferToProcessingQueue uncaught i h

/-- The threads are started; `hdfsRead` is going to return `parts`. -/
def start (k : Nat) (parts : List (List UInt8)) : Handler k where
  reader := .reading parts [] []
  isReading := true
  isProcessing := true
  dataBuffer := []
  processors := fun _ => .test
  taken := []
  crashed := false

/-- The processing threads are gone. -/
def Ended (h : Handler k) : Prop := h.crashed = true ∨ ∀ i, h.processors i = .exited

/-! ## Parts and lines -/

theorem split_readPart {leftover part : List UInt8} (hpart : part ≠ []) (rest : List UInt8) :
    split 10 (leftover ++ part ++ rest) =
      (readPart leftover part).1 ++ split 10 ((readPart leftover part).2 ++ rest) := by
  have hdata : leftover ++ part ≠ [] := append_ne_nil_of_right_ne_nil leftover hpart
  unfold readPart
  dsimp only
  split_ifs with hlast
  · exact split_append_terminated hlast
  · exact split_append_unterminated hdata hlast

theorem newline_notMem_readPart (leftover part : List UInt8) : 10 ∉ (readPart leftover part).2 := by
  unfold readPart
  dsimp only
  split_ifs with hlast
  · exact not_mem_nil
  · cases hsplit : (split 10 (leftover ++ part)).getLast? with
    | none => exact not_mem_nil
    | some token => exact delimiter_notMem_of_mem_split (mem_of_getLast? hsplit)

/-! ## Conservation -/

def Reader.rest : Reader → List Line
  | .reading parts pending leftover => pending ++ split 10 (leftover ++ parts.flatten) ++ [marker]
  | .flushing leftover => (if leftover = [] then [] else [leftover]) ++ [marker]
  | .marking => [marker]
  | .done => []

def Reader.Ok : Reader → Prop
  | .reading parts _ leftover => (∀ part ∈ parts, part ≠ []) ∧ 10 ∉ leftover
  | _ => True

def Reader.InLoop : Reader → Prop
  | .reading .. => True
  | _ => False

def stepsLeft : List (List UInt8) → Line → Nat
  | [], _ => 3
  | part :: parts, leftover =>
    (readPart leftover part).1.length + stepsLeft parts (readPart leftover part).2 + 1

def Reader.work : Reader → Nat
  | .reading parts pending leftover => pending.length + stepsLeft parts leftover
  | .flushing _ => 2
  | .marking => 1
  | .done => 0

theorem Reader.work_eq_zero {r : Reader} : r.work = 0 ↔ r = .done := by
  cases r with
  | reading parts pending leftover => cases parts <;> simp [work, stepsLeft]
  | flushing | marking | done => simp [work]

/-- The lines that have been popped. -/
def Handler.popped (h : Handler k) : List Line := h.taken.map Prod.snd

structure Sound (lines : List Line) (h : Handler k) : Prop where
  reader : h.reader.Ok
  isReading : h.isReading = true ↔ h.reader.InLoop
  conserved : h.popped ++ h.dataBuffer ++ h.reader.rest = lines ++ [marker]
  took : ∀ i line, h.processors i = .took line → line ∈ h.popped
  processing : h.isProcessing = false → marker ∈ h.popped

section Steps

variable {maxBufferSize uncaught} {h h' : Handler k} {i : Fin k} {lines : List Line}

/-- **A step of the reader** pushes the first of what is left to push, or nothing, and brings it
closer to its end. -/
theorem reader_cases (hok : h.reader.Ok) (hreading : h.isReading = true ↔ h.reader.InLoop)
    (hstep : streamFromHDFSIntoBuffer maxBufferSize h = some h') :
    ∃ reader isReading pushed, h' = { h with
        reader := reader
        isReading := isReading
        dataBuffer := h.dataBuffer ++ pushed } ∧
      pushed ++ reader.rest = h.reader.rest ∧ reader.Ok ∧
      (isReading = true ↔ reader.InLoop) ∧ reader.work + 1 = h.reader.work := by
  unfold streamFromHDFSIntoBuffer at hstep
  split at hstep <;> rename_i hr <;> rw [hr] at hok hreading
  · rename_i parts line pending leftover
    split_ifs at hstep
    cases hstep
    refine ⟨.reading parts pending leftover, h.isReading, [line], rfl, hr ▸ rfl, hok, hreading, ?_⟩
    simp only [hr, Reader.work, length_cons]
    omega
  · rename_i part parts leftover
    obtain rfl := Option.some.inj hstep
    refine ⟨.reading parts (readPart leftover part).1 (readPart leftover part).2, h.isReading, [],
      by rw [append_nil], ?_, ⟨?_, newline_notMem_readPart _ _⟩, hreading, ?_⟩
    · simp only [hr, Reader.rest, nil_append, flatten_cons]
      rw [← append_assoc leftover, split_readPart (hok.1 part mem_cons_self)]
    · exact fun p hp => hok.1 p (mem_cons_of_mem _ hp)
    · simp only [hr, Reader.work, stepsLeft, length_nil, Nat.zero_add]
  · rename_i leftover
    cases hstep
    refine ⟨.flushing leftover, false, [], by rw [append_nil], ?_, trivial, by
      simp [Reader.InLoop], hr ▸ rfl⟩
    simp only [hr, Reader.rest, nil_append, flatten_nil, append_nil]
    by_cases hnil : leftover = []
    · rw [if_pos hnil, hnil, split_nil]
    · rw [if_neg hnil, split_of_notMem hok.2 hnil]
  · rename_i leftover
    split_ifs at hstep with hnil <;> cases hstep
    · refine ⟨.marking, h.isReading, [], by rw [append_nil], ?_, trivial, hreading, hr ▸ rfl⟩
      simp [hr, Reader.rest, hnil]
    · refine ⟨.marking, h.isReading, [leftover], rfl, ?_, trivial, hreading, hr ▸ rfl⟩
      simp [hr, Reader.rest, hnil]
  · cases hstep
    exact ⟨.done, h.isReading, [marker], rfl, hr ▸ rfl, trivial, hreading, hr ▸ rfl⟩
  · cases hstep

/-- What a processing thread can do next. -/
inductive Move (uncaught : Line → Bool) (i : Fin k) (h : Handler k) : Handler k → Prop
  | test : h.processors i = .test →
      Move uncaught i h (h.move i (if h.isProcessing then .waiting else .exited))
  | pop {line rest} : h.processors i = .waiting → h.dataBuffer = line :: rest → Move uncaught i h
      ({ h with dataBuffer := rest, taken := h.taken ++ [(i, line)] }.move i (.took line))
  | leave : h.processors i = .waiting → h.dataBuffer = [] → h.isReading = false →
      Move uncaught i h (h.move i .exited)
  | mark : h.processors i = .took marker →
      Move uncaught i h ({ h with isProcessing := false }.move i .exited)
  | crash {line} : h.processors i = .took line → uncaught line = true →
      Move uncaught i h { h with crashed := true }
  | proceed : Move uncaught i h (h.move i .test)

theorem move_of_step (hstep : streamFromBufferToProcessingQueue uncaught i h = some h') :
    Move uncaught i h h' := by
  unfold streamFromBufferToProcessingQueue at hstep
  split at hstep
  · rename_i hpc
    cases hstep
    exact .test hpc
  · rename_i hpc
    split at hstep
    · rename_i hbuffer
      cases hstep
      exact .pop hpc hbuffer
    · rename_i hbuffer
      split_ifs at hstep with hreading
      cases hstep
      exact .leave hpc hbuffer (by simpa using hreading)
  · rename_i line hpc
    split_ifs at hstep with hmarker hthrow <;> cases hstep
    · exact .mark (hmarker ▸ hpc)
    · exact .crash hpc hthrow
    · exact .proceed
  · cases hstep

theorem step_eq_some {l : Label k} (hstep : step maxBufferSize uncaught l h = some h') :
    h.crashed = false ∧ (l = .reader ∧ streamFromHDFSIntoBuffer maxBufferSize h = some h' ∨
        ∃ i, l = .processor i ∧ streamFromBufferToProcessingQueue uncaught i h = some h') := by
  cases l with
  | reader =>
    simp only [step] at hstep
    split_ifs at hstep with hc
    exact ⟨by simpa using hc, .inl ⟨rfl, hstep⟩⟩
  | processor i =>
    simp only [step] at hstep
    split_ifs at hstep with hc
    exact ⟨by simpa using hc, .inr ⟨i, rfl, hstep⟩⟩

theorem Sound.move (hs : Sound lines h) {pc : Processor}
    (hpc : ∀ line, pc = .took line → line ∈ h.popped) : Sound lines (h.move i pc) := by
  refine { hs with took := ?_ }
  exact forall_update (P := fun _ (pc : Processor) => ∀ line, pc = .took line → line ∈ h.popped)
    hs.took hpc

theorem Sound.pop (hs : Sound lines h) {line : Line} {rest : List Line}
    (hbuffer : h.dataBuffer = line :: rest) :
    Sound lines { h with dataBuffer := rest, taken := h.taken ++ [(i, line)] } ∧
      line ∈ { h with dataBuffer := rest, taken := h.taken ++ [(i, line)] }.popped := by
  have hpopped : { h with dataBuffer := rest, taken := h.taken ++ [(i, line)] }.popped =
      h.popped ++ [line] := by simp [Handler.popped]
  have hmono : ∀ x, x ∈ h.popped → x ∈ h.popped ++ [line] := fun x hx => mem_append_left _ hx
  refine ⟨⟨hs.reader, hs.isReading, ?_, fun j x hx => ?_, fun hp => ?_⟩, ?_⟩
  · have hconserved := hs.conserved
    rw [hbuffer] at hconserved
    rw [hpopped, ← hconserved]
    simp
  · exact hpopped ▸ hmono x (hs.took j x hx)
  · exact hpopped ▸ hmono marker (hs.processing hp)
  · exact hpopped ▸ mem_append_right _ mem_cons_self

theorem Sound.step {l : Label k} (hs : Sound lines h)
    (hstep : Hdfs.step maxBufferSize uncaught l h = some h') : Sound lines h' := by
  obtain ⟨-, ⟨-, hstep⟩ | ⟨i, -, hstep⟩⟩ := step_eq_some hstep
  · obtain ⟨reader, isReading, pushed, rfl, hrest, hok, hin, -⟩ :=
      reader_cases hs.reader hs.isReading hstep
    refine ⟨hok, hin, ?_, hs.took, hs.processing⟩
    rw [← hs.conserved, ← hrest]
    simp only [Handler.popped, append_assoc]
  · cases move_of_step hstep with
    | test =>
      refine hs.move fun line hline => ?_
      split_ifs at hline
    | pop _ hbuffer =>
      obtain ⟨hpop, hmem⟩ := hs.pop hbuffer
      refine hpop.move fun x hx => ?_
      cases hx
      exact hmem
    | mark hpc =>
      have hs' : Sound lines { h with isProcessing := false } :=
        { hs with processing := fun _ => hs.took i marker hpc }
      exact hs'.move fun _ h => by cases h
    | crash => exact { hs with }
    | leave | proceed => exact hs.move fun _ h => by cases h

end Steps

theorem sound_start {parts : List (List UInt8)} (hparts : ∀ part ∈ parts, part ≠ []) :
    Sound (split 10 parts.flatten) (start k parts) where
  reader := ⟨hparts, not_mem_nil⟩
  isReading := by simp [start, Reader.InLoop]
  conserved := by simp [start, Handler.popped, Reader.rest]
  took i line h := by cases h
  processing h := by cases h

/-! ## Progress of the reader -/

section Progress

variable {maxBufferSize uncaught} {h h' : Handler k} {lines : List Line}

/-- The reader waits for nothing but room for a line. -/
theorem exists_reader_step (hcrashed : h.crashed = false) (hdone : h.reader ≠ .done)
    (hroom : 1 < h.reader.rest.length → h.dataBuffer.length < maxBufferSize) :
    ∃ h', step maxBufferSize uncaught .reader h = some h' := by
  rw [← Option.isSome_iff_exists, step, if_neg (by simp [hcrashed])]
  unfold streamFromHDFSIntoBuffer
  split <;> rename_i hr
  · rw [if_pos (.inl (hroom (by simp [hr, Reader.rest])))]
    rfl
  · rfl
  · rfl
  · split_ifs <;> rfl
  · rfl
  · exact absurd hr hdone

theorem Sound.work_step {l : Label k} (hs : Sound lines h)
    (hstep : Hdfs.step maxBufferSize uncaught l h = some h') :
    [l].count .reader + h'.reader.work = h.reader.work := by
  obtain ⟨-, ⟨rfl, hreader⟩ | ⟨i, rfl, hprocessor⟩⟩ := step_eq_some hstep
  · obtain ⟨reader, isReading, pushed, rfl, -, -, -, hwork⟩ :=
      reader_cases hs.reader hs.isReading hreader
    rw [count_singleton_self, ← hwork, Nat.add_comm]
  · rw [count_singleton, if_neg (by simp), Nat.zero_add]
    cases move_of_step hprocessor <;> rfl

/-- Along a run the work of the reader shrinks with its turns and with nothing else. -/
theorem Sound.work_run {ls : List (Label k)} (hs : Sound lines h)
    (hrun : run (Hdfs.step maxBufferSize uncaught) ls h = some h') :
    ls.count .reader + h'.reader.work = h.reader.work := by
  induction ls generalizing h with
  | nil =>
    cases hrun
    exact Nat.zero_add _
  | cons l ls ih =>
    obtain ⟨u, hstep, hrest⟩ := run_cons_eq_some.1 hrun
    rw [← hs.work_step hstep, ← ih (hs.step hstep) hrest, ← singleton_append, count_append,
      Nat.add_assoc]

/-- If the queue can take the lines that are left, the reader alone gets to its end. -/
theorem Sound.reaches_done {n : Nat} (hs : Sound lines h) (hcrashed : h.crashed = false)
    (hwork : h.reader.work = n) (hroom : lines.length ≤ maxBufferSize + h.popped.length) :
    ∃ h', run (Hdfs.step maxBufferSize uncaught) (replicate n .reader) h = some h' ∧
      h'.reader = .done := by
  induction n generalizing h with
  | zero => exact ⟨h, rfl, Reader.work_eq_zero.1 hwork⟩
  | succ n ih =>
    have hdone : h.reader ≠ .done := fun h0 => by simp [Reader.work_eq_zero.2 h0] at hwork
    have hlength := congrArg length hs.conserved
    simp only [length_append, length_singleton] at hlength
    obtain ⟨h₁, hstep⟩ : ∃ h₁, Hdfs.step maxBufferSize uncaught .reader h = some h₁ :=
      exists_reader_step hcrashed hdone fun hrest => by omega
    have hwork₁ := hs.work_step hstep
    rw [count_singleton_self, hwork, Nat.add_comm, Nat.succ_inj] at hwork₁
    obtain ⟨-, ⟨-, hreader⟩ | ⟨i, hi, -⟩⟩ := step_eq_some hstep
    · have hs₁ := hs.step hstep
      obtain ⟨reader, isReading, pushed, rfl, -⟩ := reader_cases hs.reader hs.isReading hreader
      obtain ⟨h', hrun, hend⟩ := ih hs₁ hcrashed hwork₁ hroom
      exact ⟨h', run_cons_eq_some.2 ⟨_, hstep, hrun⟩, hend⟩
    · cases hi

end Progress

/-- **How the file is cut does not matter.** What has been pushed, popped or not, is the lines of the
file in order as far as the reader has come, and with the marker behind them when it is done. It is
done after a number of turns that the parts determine. A turn waits for room in the queue only, and
a queue with room for the lines that are left lets the reader get to its end alone. -/
theorem pushed_lines {parts : List (List UInt8)} (hparts : ∀ part ∈ parts, part ≠ []) :
    ∃ lines turns, AreTokens 10 parts.flatten lines ∧
      ∀ (ls : List (Label k)) h, run (step maxBufferSize uncaught) ls (start k parts) = some h →
        h.popped ++ h.dataBuffer <+: lines ++ [marker] ∧
        (h.reader = .done ↔ ls.count .reader = turns) ∧
        (h.reader = .done → h.popped ++ h.dataBuffer = lines ++ [marker]) ∧
        (h.crashed = true ∨ h.reader = .done ∨ maxBufferSize ≤ h.dataBuffer.length ∨
          ∃ h', step maxBufferSize uncaught .reader h = some h') ∧
        (h.crashed = false → lines.length ≤ maxBufferSize + h.popped.length →
          ∃ n h', run (step maxBufferSize uncaught) (replicate n .reader) h = some h' ∧
            h'.reader = .done) := by
  refine ⟨_, (start k parts).reader.work, areTokens_split 10 _, fun ls h hrun => ?_⟩
  have hs : Sound (split 10 parts.flatten) h :=
    run_invariant (fun l s t hs hstep => hs.step hstep) hrun (sound_start hparts)
  have hwork := (sound_start (k := k) hparts).work_run hrun
  refine ⟨⟨h.reader.rest, hs.conserved⟩, ?_, fun hdone => ?_, ?_, fun hcrashed hroom =>
    ⟨_, hs.reaches_done hcrashed rfl hroom⟩⟩
  · rw [← Reader.work_eq_zero]
    omega
  · have hconserved := hs.conserved
    rwa [hdone, Reader.rest, append_nil] at hconserved
  · by_contra! hstuck
    obtain ⟨hcrashed, hdone, hroom, hnone⟩ := hstuck
    obtain ⟨h', hstep⟩ := exists_reader_step (by simpa using hcrashed) hdone fun _ => hroom
    exact hnone h' hstep

/-- Two parts of a file without a final newline, read to the end. -/
theorem pushed_lines_twoParts : ∃ h : Handler 1,
    run (step 10 fun _ => false) (replicate 6 .reader) (start 1 [ascii "1", ascii "\n2"]) = some h ∧
      h.reader = .done ∧
      ∃ lines, AreTokens 10 (ascii "1\n2") lines ∧ h.popped ++ h.dataBuffer = lines ++ [marker] := by
  obtain ⟨lines, turns, htokens, hall⟩ := @pushed_lines 1 10 (fun _ => false)
    [ascii "1", ascii "\n2"] (by decide)
  obtain ⟨-, -, hlines, -⟩ := hall (replicate 6 .reader) _ rfl
  exact ⟨_, rfl, rfl, lines, htokens, hlines rfl⟩

/-! ## The end of the processing threads -/

section End

variable {maxBufferSize uncaught} {h h' : Handler k} {lines : List Line}

/-- Only the last line may be spelt like the marker or end the process. -/
def Harmless (uncaught : Line → Bool) (lines : List Line) : Prop :=
  ∀ line ∈ lines.dropLast, line ≠ marker ∧ uncaught line = false

/-- While a kept line waits to be pushed, the last processing thread does not leave. -/
def LastStays (l : Label k) (h : Handler k) : Prop :=
  ∀ i leftover, l = .processor i → h.reader = .flushing leftover → leftover ≠ [] →
    h.dataBuffer = [] → h.processors i = .waiting → ∃ j, j ≠ i ∧ h.processors j ≠ .exited

theorem Sound.prefix_popped (hs : Sound lines h) : h.popped <+: lines ++ [marker] := by
  rw [← hs.conserved, append_assoc]
  exact prefix_append _ _

theorem Sound.complete_of_mem (hs : Sound lines h) {x : Line} (hx : x ∈ h.popped)
    (hlast : x ∉ lines.dropLast) : lines <+: h.popped := by
  by_cases hle : lines.length ≤ h.popped.length
  · exact prefix_of_prefix_length_le (prefix_append lines [marker]) hs.prefix_popped hle
  · have hinit := dropLast_prefix lines
    have hdrop := hinit.trans (prefix_append lines [marker])
    have hpre : h.popped <+: lines.dropLast := by
      refine prefix_of_prefix_length_le hs.prefix_popped hdrop ?_
      rw [length_dropLast]
      omega
    exact absurd (hpre.subset hx) hlast

/-- A thread that finds the queue empty when nothing is kept back leaves with all lines popped. -/
theorem Sound.complete_of_empty (hs : Sound lines h) (hbuffer : h.dataBuffer = [])
    (hreading : h.isReading = false)
    (hkept : ∀ leftover, h.reader = .flushing leftover → leftover = []) : lines <+: h.popped := by
  have hconserved := hs.conserved
  rw [hbuffer, append_nil] at hconserved
  have hloop : ¬ h.reader.InLoop := by
    rw [← hs.isReading, hreading]
    decide
  cases hr : h.reader with
  | reading parts pending leftover =>
    rw [hr] at hloop
    exact absurd trivial hloop
  | flushing leftover =>
    rw [hr, hkept leftover hr] at hconserved
    exact (append_cancel_right hconserved) ▸ prefix_refl _
  | marking =>
    rw [hr] at hconserved
    exact (append_cancel_right hconserved) ▸ prefix_refl _
  | done =>
    rw [hr, Reader.rest, append_nil] at hconserved
    exact hconserved ▸ prefix_append _ _

/-- When the processing threads are gone all lines have been popped. -/
structure Complete (lines : List Line) (h : Handler k) : Prop where
  sound : Sound lines h
  ended : Ended h → lines <+: h.popped

theorem not_ended_move {i : Fin k} {pc : Processor} (hcrashed : h.crashed = false)
    (hpc : pc ≠ .exited) : ¬ Ended (h.move i pc) := by
  rintro (hcrash | hall)
  · exact absurd (hcrashed.symm.trans hcrash) (by decide)
  · have hi := hall i
    rw [Handler.processors_move, Function.update_self] at hi
    exact hpc hi

theorem Complete.step {l : Label k} (hs : Complete lines h) (hharmless : Harmless uncaught lines)
    (hstays : LastStays l h) (hstep : Hdfs.step maxBufferSize uncaught l h = some h') :
    Complete lines h' := by
  refine ⟨hs.sound.step hstep, fun hended => ?_⟩
  have hsound := hs.sound
  obtain ⟨hcrashed, ⟨-, hreader⟩ | ⟨i, rfl, hprocessor⟩⟩ := step_eq_some hstep
  · obtain ⟨reader, isReading, pushed, rfl, -⟩ :=
      reader_cases hsound.reader hsound.isReading hreader
    exact hs.ended hended
  have hmarker : marker ∉ lines.dropLast := fun hm => (hharmless marker hm).1 rfl
  cases move_of_step hprocessor with
  | test =>
    cases hp : h.isProcessing with
    | true =>
      rw [if_pos hp] at hended
      exact absurd hended (not_ended_move hcrashed (by decide))
    | false => exact hsound.complete_of_mem (hsound.processing hp) hmarker
  | pop | proceed => exact absurd hended (not_ended_move hcrashed (by simp))
  | leave hpc hbuffer hreading =>
    refine hsound.complete_of_empty hbuffer hreading fun leftover hr => ?_
    by_contra hne
    obtain ⟨j, hji, hj⟩ := hstays i leftover rfl hr hne hbuffer hpc
    rcases hended with hcrash | hall
    · exact absurd (hcrashed.symm.trans hcrash) (by decide)
    · have hexited := hall j
      rw [Handler.processors_move, Function.update_of_ne hji] at hexited
      exact hj hexited
  | mark hpc => exact hsound.complete_of_mem (hsound.took i marker hpc) hmarker
  | crash hpc hthrow =>
    refine hsound.complete_of_mem (hsound.took i _ hpc) fun hline => ?_
    rw [(hharmless _ hline).2] at hthrow
    cases hthrow

/-- **Every line is popped once.** Let `hdfsRead` return the file in any parts, let only the last
line be spelt like the marker or end the process, and let the processing threads, at least one, not
all leave while the last line of a file without a final newline waits to be pushed. When they are
gone, after any interleaving, the lines have been popped in the order of the file, each by one
thread, with at most the marker behind them. -/
theorem taken_of_ended {parts : List (List UInt8)} {ls : List (Label k)}
    (hk : 0 < k) (hparts : ∀ part ∈ parts, part ≠ [])
    (hharmless : Harmless uncaught (split 10 parts.flatten))
    (hstays : Meets (step maxBufferSize uncaught) LastStays ls (start k parts))
    (hrun : run (step maxBufferSize uncaught) ls (start k parts) = some h) (hended : Ended h) :
    h.popped = split 10 parts.flatten ∨ h.popped = split 10 parts.flatten ++ [marker] := by
  have hstart : Complete (split 10 parts.flatten) (start k parts) := by
    refine ⟨sound_start hparts, ?_⟩
    rintro (hcrash | hall)
    · cases hcrash
    · cases hall ⟨0, hk⟩
  have hs : Complete (split 10 parts.flatten) h :=
    hstays.invariant (fun l s t hs hl hstep => hs.step hharmless hl hstep) hrun hstart
  obtain ⟨rest, hrest⟩ := hs.ended hended
  have hpre := hs.sound.prefix_popped
  rw [← hrest, prefix_append_right_inj] at hpre
  rcases prefix_cons_iff.1 hpre with rfl | ⟨tail, rfl, htail⟩
  · exact .inl (by rw [← hrest, append_nil])
  · rw [prefix_nil.1 htail] at hrest
    exact .inr hrest.symm

/-! ## Files with a final newline -/

/-- Of a file that is empty or ends with a newline nothing is kept back at the end. -/
def Reader.Terminated : Reader → Prop
  | .reading parts _ leftover =>
    leftover ++ parts.flatten = [] ∨ (leftover ++ parts.flatten).getLast? = some 10
  | .flushing leftover => leftover = []
  | _ => True

theorem terminated_readPart {leftover part rest : List UInt8}
    (h : leftover ++ (part ++ rest) = [] ∨ (leftover ++ (part ++ rest)).getLast? = some 10) :
    (readPart leftover part).2 ++ rest = [] ∨
      ((readPart leftover part).2 ++ rest).getLast? = some 10 := by
  by_cases hrest : rest = []
  · subst hrest
    refine .inl ?_
    rw [append_nil] at h ⊢
    unfold readPart
    rcases h with h | h
    · simp [h]
    · rw [if_pos h]
  · right
    rcases h with h | h
    · simp [hrest] at h
    · rw [← append_assoc, getLast?_append_of_ne_nil _ hrest] at h
      rw [getLast?_append_of_ne_nil _ hrest, h]

theorem Reader.Terminated.step {l : Label k} (hok : h.reader.Ok) (ht : h.reader.Terminated)
    (hstep : Hdfs.step maxBufferSize uncaught l h = some h') : h'.reader.Terminated := by
  obtain ⟨-, ⟨-, hreader⟩ | ⟨i, -, hprocessor⟩⟩ := step_eq_some hstep
  · unfold streamFromHDFSIntoBuffer at hreader
    split at hreader <;> rename_i hr <;> rw [hr] at hok ht
    · split_ifs at hreader
      cases hreader
      exact ht
    · obtain rfl := Option.some.inj hreader
      exact terminated_readPart ht
    · obtain rfl := Option.some.inj hreader
      simp only [Reader.Terminated, flatten_nil, append_nil] at ht ⊢
      rcases ht with ht | ht
      · exact ht
      · exact absurd (mem_of_getLast? ht) hok.2
    · split_ifs at hreader <;> cases hreader <;> trivial
    · cases hreader
      trivial
    · cases hreader
  · cases move_of_step hprocessor <;> exact ht

/-- If the file is empty or ends with a newline, it does not matter when the threads leave. -/
theorem meets_lastStays {parts : List (List UInt8)} (hparts : ∀ part ∈ parts, part ≠ [])
    (hnewline : parts.flatten = [] ∨ parts.flatten.getLast? = some 10) (ls : List (Label k)) :
    Meets (step maxBufferSize uncaught) LastStays ls (start k parts) := by
  refine Meets.of_invariant
    (I := fun h => Sound (split 10 parts.flatten) h ∧ h.reader.Terminated)
    (fun l h h' hs hstep => ⟨hs.1.step hstep, hs.2.step hs.1.reader hstep⟩) ?_ ls
    ⟨sound_start hparts, hnewline⟩
  rintro l h ⟨-, ht⟩ i leftover - hr hne
  rw [hr] at ht
  exact absurd ht hne

end End

/-- A reader that runs to its end, and a single processing thread after it. -/
theorem taken_of_ended_twoLines : ∃ h : Handler 1, run (step 10 fun _ => false)
        (replicate 7 .reader ++ replicate 9 (.processor 0))
        (start 1 [ascii "1", ascii "\n2\n"]) = some h ∧
      (h.popped = split 10 (ascii "1\n2\n") ∨ h.popped = split 10 (ascii "1\n2\n") ++ [marker]) := by
  obtain ⟨h, hrun, hended⟩ : ∃ h ∈ run (step 10 fun _ => false)
      (replicate 7 .reader ++ replicate 9 (.processor 0)) (start 1 [ascii "1", ascii "\n2\n"]),
        ∀ i, h.processors i = .exited := by
    decide +kernel
  refine ⟨h, hrun, taken_of_ended (by decide) (by decide) ?_ ?_ hrun (.inr hended)⟩
  · unfold Harmless
    decide
  · exact meets_lastStays (by decide) (.inr (by decide)) _

/-- A first line `"-1"` ends the processing threads before the second line is popped; and a file
without a final newline is left when both threads look at the queue between the clearing of
`isReading` and the push of its line. -/
theorem lines_lost : (run (step 10 fun _ => false) (replicate 6 .reader ++
          [.processor 0, .processor 0, .processor 0, .processor 1])
        (start 2 [ascii "-1\n2\n"])).map
      (fun h => (h.popped, h.dataBuffer, h.processors 0, h.processors 1)) =
        some ([ascii "-1"], [ascii "2", marker], .exited, .exited) ∧
    (run (step 10 fun _ => false)
        ([.reader, .reader, .processor 0, .processor 0, .processor 1, .processor 1, .reader, .reader])
        (start 2 [ascii "1"])).map
      (fun h => (h.popped, h.dataBuffer, h.processors 0, h.processors 1)) =
        some ([], [ascii "1", marker], .exited, .exited) := by
  decide +kernel

end JasmineGraph.Hdfs
