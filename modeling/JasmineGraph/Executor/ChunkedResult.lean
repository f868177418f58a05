import JasmineGraph.Bytes.Text
import JasmineGraph.Machine
import JasmineGraph.Schedule

/-!
# The result of an aggregation, sent in chunks

`aggregate_centralstore_triangles_command` and `aggregate_streaming_centralstore_triangles_command`
cut the result text into chunks of `CHUNK_OFFSET` bytes and append a marker to each: `/SEND` if more
follow, `/CMPT` to the last. The first chunk is sent at once, every other one after a message of the
master has arrived. The master (`TriangleCountExecutor::countCentralStoreTriangles`, and the same
loop in `StreamingTriangleCountExecutor`) takes what one `recv` returns, reads its last five bytes as
the marker, and answers `/SEND` with `/SEND`; any other marker ends the loop.

* The transport may return the bytes of a chunk in several `recv`s: a `Segmentation` fixes the pieces
  of every chunk.
* A step is a chunk that the worker sends, or a `recv` of the master. The master has `failed` where
  `response.substr(response.size() - 5)` throws, because fewer than five bytes arrived.

* The index of the chunk loop is an `unsigned int`, which wraps around. For a result of `2 ^ 32` bytes
  the loop does not end (`chunkLoop_endless`) and nothing is sent.

A piece that is not a whole chunk does not end with a marker, since the text has no slash. So the
master stops at the first chunk that arrives in pieces, with an exception or with a text that is too
short (`not_endsIn_broken`). A static command that has an empty result sends nothing at all.
-/

namespace JasmineGraph.Executor.ChunkedResult

open Bytes Schedule List

def instanceDataLength : Nat := 300

def chunkOffset : Nat := instanceDataLength - 10

def sendMarker : List UInt8 := ascii "/SEND"

def completeMarker : List UInt8 := ascii "/CMPT"

/-! ## The worker -/

/-- The loop over the text from the index `i` on, in at most `fuel` rounds. -/
def chunkLoop (text : List UInt8) : Nat → Nat → Option (List (List UInt8))
  | 0, _ => none
  | fuel + 1, i =>
    if i < text.length then
      let next := u32 (i + chunkOffset)
      (chunkLoop text fuel next).map (((text.drop i).take chunkOffset ++
        if next < text.length then sendMarker else completeMarker) :: ·)
    else some []

/-- The two commands. -/
inductive Command
  | aggregateCentralstoreTriangles
  | aggregateStreamingCentralstoreTriangles
deriving DecidableEq

/-- What a command sends, if `fuel` rounds of its loop are enough. -/
def Command.chunksVector (c : Command) (fuel : Nat) (aggregatedTriangles : List UInt8) :
    Option (List (List UInt8)) :=
  match c with
  | .aggregateCentralstoreTriangles => chunkLoop aggregatedTriangles fuel 0
  | .aggregateStreamingCentralstoreTriangles =>
    if aggregatedTriangles = [] then some [completeMarker]
    else chunkLoop aggregatedTriangles fuel 0

/-! ## The master -/

def trimCopy (s : List UInt8) : List UInt8 := (s.rdropWhile isSpace).dropWhile isSpace

/-- `Utils::read_str_trim_wrapper` on the bytes of one `recv`. -/
def readStrTrim (piece : List UInt8) : List UInt8 := trimCopy (cstr piece)

inductive Master
  | reading (resultStream : List UInt8)
  | returned (response : List UInt8)
  | failed
deriving DecidableEq

/-- One round of the loop: the master with the response appended, and whether it sends `/SEND`. -/
def receive (resultStream piece : List UInt8) : Master × Bool :=
  let response := readStrTrim piece
  if response.length < 5 then (.failed, false)
  else
    let status := response.drop (response.length - 5)
    let result := resultStream ++ response.take (response.length - 5)
    if status = sendMarker then (.reading result, true) else (.returned result, false)

/-! ## The exchange -/

/-- The chunks still to be sent as the pieces they will arrive in, whether one has been sent, the
messages of the master that the worker has not read, the pieces on the way to the master, and the
master. -/
structure State where
  chunksVector : List (List (List UInt8))
  started : Bool
  acks : Nat
  inbox : List (List UInt8)
  master : Master

inductive Party
  | worker
  | master
deriving DecidableEq

/-- The worker sends a chunk, or the master receives a piece. -/
def step : Party → State → Option State
  | .worker, s =>
    match s.chunksVector with
    | [] => none
    | pieces :: rest =>
      if s.started then
        match s.acks with
        | 0 => none
        | acks + 1 => some { s with chunksVector := rest, acks := acks, inbox := s.inbox ++ pieces }
      else some { s with chunksVector := rest, started := true, inbox := s.inbox ++ pieces }
  | .master, s =>
    match s.master, s.inbox with
    | .reading resultStream, piece :: inbox =>
      let (master, answers) := receive resultStream piece
      some { s with
        inbox := inbox
        master := master
        acks := if answers then s.acks + 1 else s.acks }
    | _, _ => none

/-- Bytes that a result consists of: digits, letters, commas and colons. -/
def isResultByte (b : UInt8) : Bool :=
  isDigit b || (65 ≤ b && b ≤ 90) || (97 ≤ b && b ≤ 122) || b == 44 || b == 58

/-- A result text. -/
structure Result where
  text : List UInt8
  bytes : ∀ b ∈ text, isResultByte b = true

/-- How the transport delivers chunks: each in one or more pieces that are not empty. -/
structure Segmentation (sent : List (List UInt8)) where
  pieces : List (List (List UInt8))
  whole : pieces.map List.flatten = sent
  nonempty : ∀ ps ∈ pieces, ∀ p ∈ ps, p ≠ []

def start (pieces : List (List (List UInt8))) : State := ⟨pieces, false, 0, [], .reading []⟩

/-- What is asked of the exchange: it ends, and with the text that was sent. -/
def Reassembles (text : List UInt8) (pieces : List (List (List UInt8))) : Prop :=
  (∃ bound, ∀ ls s, run step ls (start pieces) = some s → ls.length ≤ bound) ∧
    EndsIn step (fun s => s.master = .returned text) (start pieces)

variable {text payload marker piece : List UInt8}

/-! ## The chunks of a text -/

def chunks (text : List UInt8) : List (List UInt8) :=
  if text = [] then []
  else
    (text.take chunkOffset ++ if chunkOffset < text.length then sendMarker else completeMarker) ::
      chunks (text.drop chunkOffset)
termination_by text.length
decreasing_by
  have hpos : 0 < text.length := length_pos_iff.2 ‹_›
  rw [length_drop, chunkOffset, instanceDataLength]
  omega

/-- The longest text whose chunks begin below `2 ^ 32`. -/
def maxLength : Nat := 2 ^ 32 / chunkOffset * chunkOffset

theorem chunkLoop_eq (hmax : text.length ≤ maxLength) {fuel i : Nat} (hi : chunkOffset ∣ i)
    (hfuel : text.length - i < fuel) : chunkLoop text fuel i = some (chunks (text.drop i)) := by
  induction fuel generalizing i with
  | zero => exact absurd hfuel (Nat.not_lt_zero _)
  | succ fuel ih =>
    rw [chunkLoop, chunks]
    by_cases hlt : i < text.length
    · have hnext : u32 (i + chunkOffset) = i + chunkOffset := by
        apply u32_of_lt
        unfold maxLength chunkOffset instanceDataLength at *
        omega
      have hmore : chunkOffset < (text.drop i).length ↔ i + chunkOffset < text.length := by
        rw [length_drop]
        omega
      have hrest := ih (hi.add (dvd_refl _)) (by
        unfold chunkOffset instanceDataLength
        omega)
      simp only [if_pos hlt, hnext, hrest, Option.map_some, drop_drop, if_congr hmore rfl rfl]
      rw [if_neg fun hnil => absurd hlt (Nat.not_lt.2 (drop_eq_nil_iff.1 hnil))]
    · rw [if_neg hlt, if_pos (drop_eq_nil_of_le (Nat.le_of_not_lt hlt))]

/-- An index below `2 ^ 32` does not reach the end of a longer text. -/
theorem chunkLoop_endless (hlong : 2 ^ 32 ≤ text.length) (fuel : Nat) {i : Nat} (hi : i < 2 ^ 32) :
    chunkLoop text fuel i = none := by
  induction fuel generalizing i with
  | zero => rfl
  | succ fuel ih => simp only [chunkLoop, if_pos (hi.trans_le hlong), ih (u32_lt _), Option.map_none]

/-! ## What the master makes of a piece -/

def Plain (l : List UInt8) : Prop := ∀ b ∈ l, b ≠ 0 ∧ isSpace b = false

instance (l : List UInt8) : Decidable (Plain l) := decidableBAll _ l

theorem readStrTrim_of_plain (h : Plain piece) : readStrTrim piece = piece := by
  have hright : piece.rdropWhile isSpace = piece :=
    rdropWhile_eq_self_iff.2 fun hne =>
      Bool.eq_false_iff.1 (h _ (getLast_mem hne)).2
  have hleft : piece.dropWhile isSpace = piece :=
    dropWhile_eq_self_iff.2 fun hpos =>
      Bool.eq_false_iff.1 (h _ (getElem_mem hpos)).2
  rw [readStrTrim, cstr_of_notMem fun hzero => (h 0 hzero).1 rfl, trimCopy, hright, hleft]

theorem isResultByte_spec {b : UInt8} (h : isResultByte b = true) :
    b ≠ 0 ∧ isSpace b = false ∧ b ≠ 47 := by
  simp only [isResultByte, isDigit, isSpace, Bool.or_eq_true, Bool.and_eq_true, decide_eq_true_eq,
    beq_iff_eq, Bool.or_eq_false_iff, beq_eq_false_iff_ne, Bool.and_eq_false_iff,
    decide_eq_false_iff_not, UInt8.le_iff_toNat_le, ne_eq, ← UInt8.toNat_inj,
    UInt8.reduceToNat] at h ⊢
  omega

theorem plain_append {l l' : List UInt8} (h : Plain l) (h' : Plain l') : Plain (l ++ l') :=
  fun b hb => (mem_append.1 hb).elim (h b) (h' b)

theorem plain_of_result (h : ∀ b ∈ payload, isResultByte b = true) : Plain payload := fun b hb =>
  ⟨(isResultByte_spec (h b hb)).1, (isResultByte_spec (h b hb)).2.1⟩

/-- A marker: five bytes, the first of them a slash. -/
structure IsMarker (marker : List UInt8) : Prop where
  length : marker.length = 5
  plain : Plain marker
  slash : marker[0]? = some 47

theorem isMarker_send : IsMarker sendMarker := ⟨rfl, by decide, rfl⟩

theorem isMarker_complete : IsMarker completeMarker := ⟨rfl, by decide, rfl⟩

theorem receive_whole (resultStream : List UInt8)
    (hpayload : ∀ b ∈ payload, isResultByte b = true) (hmarker : IsMarker marker) :
    receive resultStream (payload ++ marker) =
      if marker = sendMarker then (.reading (resultStream ++ payload), true)
      else (.returned (resultStream ++ payload), false) := by
  have hlen : (payload ++ marker).length - 5 = payload.length := by
    rw [length_append, hmarker.length, Nat.add_sub_cancel]
  have hnot : ¬ (payload ++ marker).length < 5 := by
    rw [length_append, hmarker.length]
    omega
  simp only [receive, readStrTrim_of_plain (plain_append (plain_of_result hpayload) hmarker.plain),
    if_neg hnot, hlen, drop_left, take_left]

/-- A piece that lacks the end of its chunk stops the master, with an exception or with less than the
text. -/
theorem receive_broken {rest : List UInt8} (resultStream : List UInt8)
    (hpayload : ∀ b ∈ payload, isResultByte b = true) (hmarker : IsMarker marker)
    (hpiece : piece ++ rest = payload ++ marker) (hrest : rest ≠ []) :
    (receive resultStream piece).2 = false ∧ ((receive resultStream piece).1 = .failed ∨
        ∃ result, (receive resultStream piece).1 = .returned result ∧
          result.length < resultStream.length + payload.length) := by
  have hplain : Plain piece := fun b hb =>
    plain_append (plain_of_result hpayload) hmarker.plain b
      (hpiece ▸ mem_append_left rest hb)
  have hlen : piece.length < payload.length + 5 := by
    have htotal := congrArg List.length hpiece
    rw [length_append, length_append, hmarker.length] at htotal
    have hpos := length_pos_iff.2 hrest
    omega
  simp only [receive, readStrTrim_of_plain hplain]
  split_ifs with hshort hsend
  · exact ⟨rfl, .inl rfl⟩
  · -- the five bytes at the end of the piece begin inside the text, which has no slash
    have hget : piece[piece.length - 5]? = some 47 := by
      have hfirst := congrArg (fun l => l[0]?) hsend
      rwa [List.getElem?_drop] at hfirst
    have hin : piece.length - 5 < payload.length := by omega
    have hbyte : payload[piece.length - 5]? = some 47 := by
      rw [← List.getElem?_append_left hin, ← hpiece, List.getElem?_append_left (by omega)]
      exact hget
    exact absurd rfl (isResultByte_spec (hpayload 47 (mem_of_getElem? hbyte))).2.2
  · refine ⟨rfl, .inr ⟨_, rfl, ?_⟩⟩
    rw [length_append, length_take]
    omega

/-! ## Exchanges end -/

def measure (s : State) : Nat := (s.chunksVector.map fun ps => ps.length + 1).sum + s.inbox.length

theorem measure_step {l : Party} {s t : State} (h : step l s = some t) : measure t < measure s := by
  cases l with
  | worker =>
    simp only [step] at h
    split at h
    · exact absurd h nofun
    · rename_i pieces rest hchunks
      split_ifs at h
      · split at h
        · exact absurd h nofun
        · cases h
          simp only [measure, hchunks, map_cons, sum_cons, length_append]
          omega
      · cases h
        simp only [measure, hchunks, map_cons, sum_cons, length_append]
        omega
  | master =>
    simp only [step] at h
    split at h
    · rename_i resultStream piece inbox hmaster hinbox
      cases h
      simp only [measure, hinbox, length_cons]
      omega
    · exact absurd h nofun

variable {pieces : List (List (List UInt8))} {Q : State → Prop} {done : List UInt8}
  {ps : List (List UInt8)} {rest : List (List (List UInt8))}

/-! ## One chunk after the other -/

/-- The worker may send its next chunk, and the master waits for it. -/
def ready (started : Bool) (pieces : List (List (List UInt8))) (done : List UInt8) : State :=
  ⟨pieces, started, if started then 1 else 0, [], .reading done⟩

/-- The next chunk is on its way, or what is left of it, and the worker waits for an answer. -/
def underway (rest : List (List (List UInt8))) (inbox : List (List UInt8)) (master : Master) :
    State :=
  ⟨rest, true, 0, inbox, master⟩

theorem endsIn_ready {started : Bool} : EndsIn step Q (ready started (ps :: rest) done) ↔
      EndsIn step Q (underway rest ps (.reading done)) := by
  refine endsIn_step (l := .worker) ?_ fun k hk => ?_
  · cases started <;> rfl
  · cases k with
    | worker => exact absurd rfl hk
    | master => rfl

theorem worker_underway {inbox : List (List UInt8)} {master : Master} :
    step .worker (underway rest inbox master) = none := by
  cases rest <;> rfl

theorem endsIn_answered {done result : List UInt8}
    (h : receive done piece = (.reading result, true)) :
    EndsIn step Q (underway rest [piece] (.reading done)) ↔
      EndsIn step Q (ready true rest result) := by
  refine endsIn_step (l := .master) (by simp [step, underway, ready, h]) fun k hk => ?_
  cases k with
  | worker => exact worker_underway
  | master => exact absurd rfl hk

theorem endsIn_stopped {inbox : List (List UInt8)} {master : Master}
    (h : receive done piece = (master, false)) (hmaster : ∀ result, master ≠ .reading result) :
    EndsIn step Q (underway rest (piece :: inbox) (.reading done)) ↔
      Q (underway rest inbox master) := by
  have hhalts : Halts step (underway rest inbox master) := by
    intro l
    cases l with
    | worker => exact worker_underway
    | master =>
      cases master with
      | reading result => exact absurd rfl (hmaster result)
      | returned result => rfl
      | failed => rfl
  refine (endsIn_step (l := .master) (by simp [step, underway, h]) fun k hk => ?_).trans
    (endsIn_of_halts hhalts)
  cases k with
  | worker => exact worker_underway
  | master => exact absurd rfl hk

/-- The master does not get the text if a chunk arrives in pieces. -/
theorem not_endsIn_broken (hpayload : ∀ b ∈ payload, isResultByte b = true)
    (hmarker : IsMarker marker) (hps : ps.flatten = payload ++ marker)
    (hnonempty : ∀ p ∈ ps, p ≠ []) (hbroken : ps.length ≠ 1) (hlen : payload.length ≤ text.length) :
    ¬ EndsIn step (fun s => s.master = .returned (done ++ text))
      (underway rest ps (.reading done)) := by
  match ps with
  | [] =>
    have hmark := congrArg List.length hps
    rw [length_append, hmarker.length] at hmark
    exact absurd hmark (by simp)
  | [piece] => exact absurd rfl hbroken
  | piece :: second :: more =>
    have hflat : piece ++ (second :: more).flatten = payload ++ marker := by simpa using hps
    have hmissing : (second :: more).flatten ≠ [] := by
      have hsecond := hnonempty second (by simp)
      simp [hsecond]
    obtain ⟨hsilent, hstops⟩ := receive_broken done hpayload hmarker hflat hmissing
    have hreading : ∀ result, (receive done piece).1 ≠ .reading result := by
      intro result heq
      rcases hstops with hfailed | ⟨result', hreturned, -⟩
      · exact absurd (heq.symm.trans hfailed) nofun
      · exact absurd (heq.symm.trans hreturned) nofun
    rw [endsIn_stopped (Prod.ext rfl hsilent) hreading]
    intro heq
    rcases hstops with hfailed | ⟨result, hreturned, hshort⟩
    · exact absurd (hfailed.symm.trans heq) nofun
    · cases hreturned.symm.trans heq
      rw [length_append] at hshort
      omega

/-- **The exchange of a text**, of which `done` has arrived before: it ends with the text exactly if
every chunk arrives in one piece. -/
theorem endsIn_chunks (htext : text ≠ []) (hbytes : ∀ b ∈ text, isResultByte b = true)
    (hwhole : pieces.map List.flatten = chunks text) (hnonempty : ∀ ps ∈ pieces, ∀ p ∈ ps, p ≠ [])
    (started : Bool) (done : List UInt8) :
    EndsIn step (fun s => s.master = .returned (done ++ text)) (ready started pieces done) ↔
      ∀ ps ∈ pieces, ps.length = 1 := by
  induction hlen : text.length using Nat.strong_induction_on
    generalizing text pieces started done with
  | _ n ih =>
    rw [chunks, if_neg htext] at hwhole
    obtain ⟨ps, rest, rfl, hps, hrest⟩ := map_eq_cons_iff.1 hwhole
    have hpayload : ∀ b ∈ text.take chunkOffset, isResultByte b = true := fun b hb =>
      hbytes b (mem_of_mem_take hb)
    have hmarker : IsMarker (if chunkOffset < text.length then sendMarker else completeMarker) := by
      split_ifs
      · exact isMarker_send
      · exact isMarker_complete
    rw [endsIn_ready, forall_mem_cons]
    by_cases hone : ps.length = 1
    · rw [and_iff_right hone]
      obtain ⟨piece, rfl⟩ := length_eq_one_iff.1 hone
      rw [flatten_singleton] at hps
      have hreceive := receive_whole done hpayload hmarker
      rw [← hps] at hreceive
      by_cases hmore : chunkOffset < text.length
      · -- the master answers, and the rest of the text follows
        rw [if_pos hmore] at hreceive
        have hdrop : text.drop chunkOffset ≠ [] :=
          ne_nil_of_length_pos (by rw [length_drop]; omega)
        have hshorter : (text.drop chunkOffset).length < n := by
          rw [length_drop, chunkOffset, instanceDataLength]
          omega
        have hnext := ih _ hshorter hdrop (fun b hb => hbytes b (mem_of_mem_drop hb)) hrest
          (fun ps hps => hnonempty ps (mem_cons_of_mem _ hps)) true
          (done ++ text.take chunkOffset) rfl
        rw [append_assoc, take_append_drop] at hnext
        rw [endsIn_answered hreceive]
        exact hnext
      · have htake : text.take chunkOffset = text := take_of_length_le (Nat.le_of_not_lt hmore)
        have hdrop : text.drop chunkOffset = [] := drop_eq_nil_of_le (Nat.le_of_not_lt hmore)
        rw [hdrop, chunks, if_pos rfl, map_eq_nil_iff] at hrest
        subst hrest
        rw [if_neg hmore, htake] at hreceive
        rw [endsIn_stopped hreceive (fun _ => nofun)]
        exact iff_of_true rfl (by simp)
    · refine iff_of_false ?_ fun h => hone h.1
      exact not_endsIn_broken hpayload hmarker hps (hnonempty ps mem_cons_self) hone
        (by rw [length_take]; exact Nat.min_le_right _ _)

/-- The exchange of the streaming command for an empty text: a marker alone. -/
theorem endsIn_marker (hps : ps.flatten = completeMarker) (hnonempty : ∀ p ∈ ps, p ≠ []) :
    EndsIn step (fun s => s.master = .returned []) (ready false [ps] []) ↔ ps.length = 1 := by
  rw [endsIn_ready]
  by_cases hone : ps.length = 1
  · obtain ⟨piece, rfl⟩ := length_eq_one_iff.1 hone
    rw [flatten_singleton] at hps
    have hreceive : receive [] piece = (.returned [], false) := by
      rw [hps]
      decide
    rw [endsIn_stopped hreceive (fun _ => nofun)]
    exact iff_of_true rfl rfl
  · have hnothing : ∀ b ∈ ([] : List UInt8), isResultByte b = true := nofun
    exact iff_of_false (not_endsIn_broken hnothing isMarker_complete hps hnonempty hone
      (Nat.zero_le _)) hone

theorem chunksVector_eq (c : Command) (hmax : text.length ≤ maxLength) {fuel : Nat}
    (hfuel : text.length < fuel) : c.chunksVector fuel text =
      some (if c = .aggregateStreamingCentralstoreTriangles ∧ text = [] then [completeMarker]
        else chunks text) := by
  have hloop : chunkLoop text fuel 0 = some (chunks text) := chunkLoop_eq hmax (dvd_zero _) hfuel
  cases c with
  | aggregateCentralstoreTriangles => rw [Command.chunksVector, hloop, if_neg (by simp)]
  | aggregateStreamingCentralstoreTriangles =>
    rw [Command.chunksVector, hloop]
    by_cases htext : text = [] <;> simp [htext]

theorem endsIn_start_iff (c : Command) (r : Result)
    (hwhole : pieces.map List.flatten =
      if c = .aggregateStreamingCentralstoreTriangles ∧ r.text = [] then [completeMarker]
      else chunks r.text)
    (hnonempty : ∀ ps ∈ pieces, ∀ p ∈ ps, p ≠ []) :
    EndsIn step (fun s => s.master = .returned r.text) (start pieces) ↔
      (c = .aggregateStreamingCentralstoreTriangles ∨ r.text ≠ []) ∧
        ∀ ps ∈ pieces, ps.length = 1 := by
  by_cases htext : r.text = []
  · cases c with
    | aggregateCentralstoreTriangles =>
      rw [if_neg (by simp), htext, chunks, if_pos rfl, map_eq_nil_iff] at hwhole
      subst hwhole
      have hhalts : Halts step (start []) := fun l => by cases l <;> rfl
      rw [endsIn_of_halts hhalts]
      exact iff_of_false nofun fun h => h.1.elim nofun fun hne => hne htext
    | aggregateStreamingCentralstoreTriangles =>
      rw [if_pos ⟨rfl, htext⟩] at hwhole
      obtain ⟨ps, rest, rfl, hps, hrest⟩ := map_eq_cons_iff.1 hwhole
      rw [map_eq_nil_iff] at hrest
      subst hrest
      rw [htext, and_iff_right (.inl rfl), forall_mem_singleton]
      exact endsIn_marker hps (hnonempty ps mem_cons_self)
  · rw [if_neg fun h => htext h.2] at hwhole
    rw [and_iff_right (.inr htext)]
    exact endsIn_chunks htext r.bytes hwhole hnonempty false []

/-- **The loop ends with the text that was sent exactly if something is sent and every chunk arrives
in one piece**, for a text whose chunks begin below `2 ^ 32`. Only the static command sends nothing,
for an empty text. For a text of `2 ^ 32` bytes no command gets to send anything. -/
theorem reassembles_iff (c : Command) (r : Result) :
    (r.text.length ≤ maxLength → ∃ sent,
      (∀ fuel, r.text.length < fuel → c.chunksVector fuel r.text = some sent) ∧
      ∀ seg : Segmentation sent, Reassembles r.text seg.pieces ↔
        (c = .aggregateStreamingCentralstoreTriangles ∨ r.text ≠ []) ∧
          ∀ ps ∈ seg.pieces, ps.length = 1) ∧
    (2 ^ 32 ≤ r.text.length → ∀ fuel, c.chunksVector fuel r.text = none) := by
  refine ⟨fun hmax => ⟨_, fun fuel hfuel => chunksVector_eq c hmax hfuel, fun seg => ?_⟩,
    fun hlong fuel => ?_⟩
  · have hends : (∃ bound, ∀ ls s, run step ls (start seg.pieces) = some s → ls.length ≤ bound) :=
      ⟨_, fun ls s hrun => Nat.le_of_add_right_le (run_length_le (fun _ _ _ => measure_step) hrun)⟩
    rw [Reassembles, and_iff_right hends]
    exact endsIn_start_iff c r seg.whole seg.nonempty
  · have hloop := chunkLoop_endless hlong fuel (show 0 < 2 ^ 32 by decide)
    have htext : r.text ≠ [] := ne_nil_of_length_pos (hlong.trans_lt' (by decide))
    cases c <;> simp [Command.chunksVector, htext, hloop]

/-- The one chunk of the result `1,2,3` arrives in two pieces. The master takes the first one for a
whole chunk and ends with nothing. For an empty result the static command sends nothing, and the
master waits. -/
theorem split_chunk_lost :
    (Command.aggregateCentralstoreTriangles.chunksVector 2 (ascii "1,2,3") =
        some [ascii "1,2,3/CMPT"] ∧
      ∃ seg : Segmentation [ascii "1,2,3/CMPT"], ¬ Reassembles (ascii "1,2,3") seg.pieces) ∧
    Command.aggregateCentralstoreTriangles.chunksVector 1 [] = some [] ∧
      ∃ seg : Segmentation [], ¬ Reassembles [] seg.pieces := by
  refine ⟨⟨by decide, ⟨[[ascii "1,2,3", ascii "/CMPT"]], by decide, by decide⟩, fun h => ?_⟩,
    by decide, ⟨[], rfl, nofun⟩, fun h => ?_⟩
  · have hrun : run step [.worker, .master] (start [[ascii "1,2,3", ascii "/CMPT"]]) =
        some ⟨[], true, 0, [ascii "/CMPT"], .returned []⟩ := by rfl
    have hend := h.2 _ _ hrun fun l => by cases l <;> rfl
    exact absurd hend (by decide)
  · have hend := h.2 [] _ rfl fun l => by cases l <;> rfl
    exact absurd hend nofun

end JasmineGraph.Executor.ChunkedResult
