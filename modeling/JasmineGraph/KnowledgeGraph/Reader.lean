import JasmineGraph.LineText

/-!
# Reading a text for the knowledge-graph pipeline

`streamFromHDFSIntoBuffer` and `streamFromLocalFileIntoBuffer` read a file in pieces of at most
`chunkSize` bytes, put what was left over from the last piece in front of each, and push the
complete lines of the result into `dataBuffer`; a part of them stays as the next left-over, so that
chunks overlap. At the end they push what is left over and one end marker for each worker.

Both cut the text at its last line end (over HDFS, at the last empty line if there is one) and
compute the left-over from the text before the cut. The text after the cut is in neither: it is
lost, unless the piece ends where the text is cut.

The readers are written over any alphabet and look at a byte only through `nl`. Over bytes they are
the source's; over bytes with their positions they are the same runs with the origin of every byte,
which is how `NothingLost` speaks of a line of the file and not only of its text.
-/

namespace JasmineGraph.KnowledgeGraph

open LineText List Option

variable {α : Type} (nl : α → Bool)

structure Chunk (α : Type) where
  chunkId : Nat
  text : List α
  chunkSize : Nat
deriving DecidableEq

/-- What the readers push: chunks of the file and end markers. -/
inductive Item (α : Type) where
  | chunk (c : Chunk α)
  | endOfStream (chunkId chunkSize : Nat)
deriving DecidableEq

/-! ## Searching for line ends -/

def findLastOf : List α → Option Nat
  | [] => none
  | a :: t =>
    match findLastOf t with
    | some i => some (i + 1)
    | none => if nl a then some 0 else none

def rfindParagraph : List α → Option Nat
  | [] => none
  | a :: t =>
    match rfindParagraph t with
    | some i => some (i + 1)
    | none => if nl a ∧ t.head?.any nl then some 0 else none

def findFrom (t : List α) (start : Nat) : Option Nat := ((t.drop start).findIdx? nl).map (· + start)

/-- The position of `newline_pos` in the complete lines, if the text goes on after it. -/
def overlapAt (fullLinesChunk : List α) (overlapStart : Nat) : Option Nat :=
  (findFrom nl fullLinesChunk overlapStart).filter fun newlinePos =>
    newlinePos + 1 < fullLinesChunk.length

/-! ## The readers -/

structure ReaderState (α : Type) where
  leftover : List α
  chunkIdx : Nat
  pushed : List (Item α)

def ReaderState.init : ReaderState α := ⟨[], 0, []⟩

/-- `overlap_start` over HDFS: three tenths of the chunk size before the end. -/
def hdfsOverlapStart (chunkSize size : Nat) : Nat :=
  if 3 * chunkSize < 10 * size then (10 * size - 3 * chunkSize) / 10 else 0

def overlapBytes : Nat := 1024

/-- The body of the loop of `streamFromHDFSIntoBuffer`. -/
def hdfsStep (chunkSize : Nat) (s : ReaderState α) (piece : List α) : ReaderState α :=
  let chunkText := s.leftover ++ piece
  match (rfindParagraph nl chunkText).or (findLastOf nl chunkText) with
  | none => { s with leftover := chunkText }
  | some splitPos =>
    let fullLinesChunk := chunkText.take (splitPos + 1)
    let leftover :=
      match overlapAt nl fullLinesChunk (hdfsOverlapStart chunkSize fullLinesChunk.length) with
      | some newlinePos => fullLinesChunk.drop (newlinePos + 1)
      | none => []
    ⟨leftover, s.chunkIdx + 1, s.pushed ++ [.chunk ⟨s.chunkIdx, fullLinesChunk, piece.length⟩]⟩

/-- The body of the loop of `streamFromLocalFileIntoBuffer`. -/
def localStep (s : ReaderState α) (piece : List α) : ReaderState α :=
  let chunkText := s.leftover ++ piece
  match findLastOf nl chunkText with
  | none => { s with leftover := chunkText }
  | some lastNewline =>
    let fullLinesChunk := chunkText.take (lastNewline + 1)
    match overlapAt nl fullLinesChunk (fullLinesChunk.length - overlapBytes) with
    | some newlinePos =>
      ⟨fullLinesChunk.drop (newlinePos + 1), s.chunkIdx + 1,
        s.pushed ++ [.chunk ⟨s.chunkIdx, fullLinesChunk.take (newlinePos + 1), piece.length⟩]⟩
    | none =>
      ⟨[], s.chunkIdx + 1, s.pushed ++ [.chunk ⟨s.chunkIdx, fullLinesChunk, piece.length⟩]⟩

/-- What a reader pushes after its loop: what is left over, under the id `idx`, and the end markers. -/
def finish (workers idx : Nat) (s : ReaderState α) : List (Item α) :=
  if s.leftover = [] then s.pushed ++ replicate workers (.endOfStream s.chunkIdx 0)
  else s.pushed ++ [.chunk ⟨idx, s.leftover, 0⟩] ++ replicate workers (.endOfStream idx 0)

def streamFromHDFSIntoBuffer (chunkSize workers : Nat) (pieces : List (List α)) : List (Item α) :=
  let s := pieces.foldl (hdfsStep nl chunkSize) .init
  finish workers (s.chunkIdx + 1) s

def streamFromLocalFileIntoBuffer (workers : Nat) (pieces : List (List α)) : List (Item α) :=
  let s := pieces.foldl (localStep nl) .init
  finish workers s.chunkIdx s

/-! ## What taking a piece does -/

/-- The piece is kept, or complete lines are pushed and a part of them kept, and the rest of the text
is dropped. -/
inductive Reads (s : ReaderState α) (piece : List α) : ReaderState α → List α → Prop
  | keep (h : ∀ a ∈ s.leftover ++ piece, nl a = false) :
    Reads s piece { s with leftover := s.leftover ++ piece } []
  | push {closed leftover dropped text : List α}
    (htext : s.leftover ++ piece = closed ++ leftover ++ dropped)
    (hclosed : Ended nl closed) (hpushed : text = closed ∨ text = closed ++ leftover) :
    Reads s piece ⟨leftover, s.chunkIdx + 1,
      s.pushed ++ [.chunk ⟨s.chunkIdx, text, piece.length⟩]⟩ dropped

def dropAfter (cut : Option Nat) (t : List α) : List α :=
  match cut with
  | none => []
  | some i => t.drop (i + 1)

def hdfsDropped (s : ReaderState α) (piece : List α) : List α :=
  dropAfter ((rfindParagraph nl (s.leftover ++ piece)).or (findLastOf nl (s.leftover ++ piece)))
    (s.leftover ++ piece)

def localDropped (s : ReaderState α) (piece : List α) : List α :=
  dropAfter (findLastOf nl (s.leftover ++ piece)) (s.leftover ++ piece)

section Search

variable {nl} {t : List α} {i : Nat}

theorem findLastOf_eq_none : findLastOf nl t = none ↔ ∀ a ∈ t, nl a = false := by
  induction t with
  | nil => simp [findLastOf]
  | cons a t ih =>
    rw [findLastOf, forall_mem_cons, ← ih]
    cases findLastOf nl t <;> simp

theorem findLastOf_eq_some (h : findLastOf nl t = some i) :
    ∃ a x b, t = a ++ x :: b ∧ a.length = i ∧ nl x = true ∧ ∀ y ∈ b, nl y = false := by
  induction t generalizing i with
  | nil => exact nomatch h
  | cons y t ih =>
    rw [findLastOf] at h
    cases ht : findLastOf nl t with
    | some j =>
      rw [ht] at h
      obtain rfl := some.inj h
      obtain ⟨a, x, b, rfl, hlen, hx, hb⟩ := ih ht
      exact ⟨y :: a, x, b, rfl, by rw [length_cons, hlen], hx, hb⟩
    | none =>
      rw [ht] at h
      by_cases hy : nl y = true
      · rw [if_pos hy] at h
        obtain rfl := some.inj h
        exact ⟨[], y, t, rfl, rfl, hy, findLastOf_eq_none.1 ht⟩
      · exact nomatch (if_neg hy).symm.trans h

theorem rfindParagraph_eq_some (h : rfindParagraph nl t = some i) :
    ∃ a x y b, t = a ++ x :: y :: b ∧ a.length = i ∧ nl x = true ∧ nl y = true := by
  induction t generalizing i with
  | nil => exact nomatch h
  | cons z t ih =>
    rw [rfindParagraph] at h
    cases ht : rfindParagraph nl t with
    | some j =>
      rw [ht] at h
      obtain rfl := some.inj h
      obtain ⟨a, x, y, b, rfl, hlen, hx, hy⟩ := ih ht
      exact ⟨z :: a, x, y, b, rfl, by rw [length_cons, hlen], hx, hy⟩
    | none =>
      rw [ht] at h
      by_cases hz : nl z = true ∧ t.head?.any nl = true
      · rw [if_pos hz] at h
        obtain rfl := some.inj h
        cases t with
        | nil => exact nomatch hz.2
        | cons y t => exact ⟨[], z, y, t, rfl, rfl, hz.1, hz.2⟩
      · exact nomatch (if_neg hz).symm.trans h

def CutsAt (nl : α → Bool) (t : List α) (i : Nat) : Prop :=
  ∃ a x b, t = a ++ x :: b ∧ a.length = i ∧ nl x = true

theorem CutsAt.take_ended (h : CutsAt nl t i) : Ended nl (t.take (i + 1)) := by
  obtain ⟨a, x, b, rfl, rfl, hx⟩ := h
  have htake : (a ++ x :: b).take (a.length + 1) = a ++ [x] := by simp [take_append]
  rw [htake]
  exact ended_concat.2 hx

theorem cutsAt_hdfs (h : (rfindParagraph nl t).or (findLastOf nl t) = some i) : CutsAt nl t i := by
  cases hp : rfindParagraph nl t with
  | some j =>
    rw [hp] at h
    obtain rfl := some.inj h
    obtain ⟨a, x, y, b, ht, hlen, hx, -⟩ := rfindParagraph_eq_some hp
    exact ⟨a, x, y :: b, ht, hlen, hx⟩
  | none =>
    rw [hp] at h
    obtain ⟨a, x, b, ht, hlen, hx, -⟩ := findLastOf_eq_some h
    exact ⟨a, x, b, ht, hlen, hx⟩

theorem cutsAt_local (h : findLastOf nl t = some i) : CutsAt nl t i := by
  obtain ⟨a, x, b, ht, hlen, hx, -⟩ := findLastOf_eq_some h
  exact ⟨a, x, b, ht, hlen, hx⟩

theorem overlapAt_eq_some {start : Nat} (h : overlapAt nl t start = some i) :
    CutsAt nl t i ∧ start ≤ i ∧ i + 1 < t.length := by
  obtain ⟨hfind, hlt⟩ := filter_eq_some_iff.1 h
  obtain ⟨j, hj, rfl⟩ := map_eq_some_iff.1 hfind
  have hlt := of_decide_eq_true hlt
  obtain ⟨hjlt, hnl, -⟩ := findIdx?_eq_some_iff_getElem.1 hj
  refine ⟨⟨t.take (j + start), t[j + start], t.drop (j + start + 1), ?_, ?_, ?_⟩, by omega, hlt⟩
  · simp
  · rw [length_take]
    omega
  · simpa [Nat.add_comm] using hnl

end Search

/-- The complete lines up to a cut, and the part of them that is kept. -/
theorem exists_overlap {t : List α} {i : Nat} (hcut : CutsAt nl t i) (start : Nat) :
    ∃ closed leftover, t = closed ++ leftover ++ t.drop (i + 1) ∧ Ended nl closed ∧
      t.take (i + 1) = closed ++ leftover ∧
      ((∃ p, overlapAt nl (t.take (i + 1)) start = some p ∧ closed = (t.take (i + 1)).take (p + 1) ∧
          leftover = (t.take (i + 1)).drop (p + 1)) ∨
        (overlapAt nl (t.take (i + 1)) start = none ∧ closed = t.take (i + 1) ∧ leftover = [])) := by
  cases hoverlap : overlapAt nl (t.take (i + 1)) start with
  | some p =>
    refine ⟨(t.take (i + 1)).take (p + 1), (t.take (i + 1)).drop (p + 1), ?_, ?_, ?_, ?_⟩
    · rw [take_append_drop, take_append_drop]
    · exact (overlapAt_eq_some hoverlap).1.take_ended
    · exact (take_append_drop _ _).symm
    · exact .inl ⟨p, rfl, rfl, rfl⟩
  | none =>
    refine ⟨t.take (i + 1), [], ?_, hcut.take_ended, (append_nil _).symm, .inr ⟨rfl, rfl, rfl⟩⟩
    rw [append_nil, take_append_drop]

theorem reads_hdfs (chunkSize : Nat) (s : ReaderState α) (piece : List α) :
    Reads nl s piece (hdfsStep nl chunkSize s piece) (hdfsDropped nl s piece) := by
  simp only [hdfsStep, hdfsDropped]
  cases hcut : (rfindParagraph nl (s.leftover ++ piece)).or (findLastOf nl (s.leftover ++ piece)) with
  | none => exact Reads.keep (findLastOf_eq_none.1 (or_eq_none_iff.1 hcut).2)
  | some i =>
    obtain ⟨closed, leftover, htext, hclosed, hfull, ⟨p, hoverlap, -, rfl⟩ | ⟨hoverlap, -, rfl⟩⟩ :=
      exists_overlap nl (cutsAt_hdfs hcut) (hdfsOverlapStart chunkSize
        ((s.leftover ++ piece).take (i + 1)).length)
    all_goals
      simp only [hoverlap]
      exact Reads.push htext hclosed (.inr hfull)

theorem reads_local (s : ReaderState α) (piece : List α) :
    Reads nl s piece (localStep nl s piece) (localDropped nl s piece) := by
  simp only [localStep, localDropped]
  cases hcut : findLastOf nl (s.leftover ++ piece) with
  | none => exact Reads.keep (findLastOf_eq_none.1 hcut)
  | some i =>
    obtain ⟨closed, leftover, htext, hclosed, -, ⟨p, hoverlap, rfl, rfl⟩ | ⟨hoverlap, rfl, rfl⟩⟩ :=
      exists_overlap nl (cutsAt_local hcut)
        (((s.leftover ++ piece).take (i + 1)).length - overlapBytes)
    all_goals
      simp only [hoverlap]
      exact Reads.push htext hclosed (.inl rfl)

/-! ## Nothing is lost exactly if nothing is dropped -/

def chunkTexts (items : List (Item α)) : List (List α) :=
  items.filterMap fun
    | .chunk c => some c.text
    | .endOfStream _ _ => none

/-- Every line of the text is a line of some chunk, the chunks are contiguous parts of the text, and
after the last chunk there is one end marker for every worker. -/
structure NothingLost (text : List α) (workers : Nat) (items : List (Item α)) : Prop where
  lines : ∀ line ∈ lines nl text, ∃ chunk ∈ chunkTexts items, line ∈ LineText.lines nl chunk
  contiguous : ∀ chunk ∈ chunkTexts items, chunk <:+: text
  markers : ∃ (chunks : List (Chunk α)) (chunkId chunkSize : Nat),
    items = chunks.map Item.chunk ++ replicate workers (.endOfStream chunkId chunkSize)

section Clean

variable {nl} {step : ReaderState α → List α → ReaderState α}
  {dropped : ReaderState α → List α → List α}

def Clean (step : ReaderState α → List α → ReaderState α)
    (dropped : ReaderState α → List α → List α) : ReaderState α → List (List α) → Prop
  | _, [] => True
  | s, piece :: pieces => dropped s piece = [] ∧ Clean step dropped (step s piece) pieces

/-- The text up to a left-over is covered by the chunks. -/
structure Covers (nl : α → Bool) (read : List α) (s : ReaderState α) : Prop where
  closed : ∃ closed, read = closed ++ s.leftover ∧ Ended nl closed ∧
    ∀ line ∈ lines nl closed, ∃ chunk ∈ chunkTexts s.pushed, line ∈ lines nl chunk
  contiguous : ∀ chunk ∈ chunkTexts s.pushed, chunk <:+: read
  chunks : ∃ chunks : List (Chunk α), s.pushed = chunks.map Item.chunk

theorem chunkTexts_append (xs ys : List (Item α)) :
    chunkTexts (xs ++ ys) = chunkTexts xs ++ chunkTexts ys := filterMap_append

theorem covers_init : Covers nl [] (ReaderState.init : ReaderState α) :=
  ⟨⟨[], rfl, ended_nil, nofun⟩, nofun, ⟨[], rfl⟩⟩

/-- A step that drops nothing keeps the text covered. -/
theorem Covers.reads {read piece : List α} {s s' : ReaderState α} (h : Covers nl read s)
    (hreads : Reads nl s piece s' []) : Covers nl (read ++ piece) s' := by
  obtain ⟨⟨closed₀, hread, hended₀, hcovered⟩, hcontiguous, chunks, hchunks⟩ := h
  have hinfix : ∀ chunk ∈ chunkTexts s.pushed, chunk <:+: read ++ piece := fun chunk hchunk =>
    (hcontiguous chunk hchunk).trans (prefix_append _ _).isInfix
  cases hreads with
  | keep hfree =>
    exact ⟨⟨closed₀, by rw [hread, append_assoc], hended₀, hcovered⟩, hinfix, ⟨chunks, hchunks⟩⟩
  | @push closed leftover _ text htext hclosed hpushed =>
    rw [append_nil] at htext
    have hall : read ++ piece = closed₀ ++ closed ++ leftover := by
      rw [hread, append_assoc, htext, append_assoc]
    have hlines : ∀ line ∈ lines nl closed, line ∈ lines nl text := by
      rcases hpushed with rfl | rfl
      · exact fun line hline => hline
      · rw [lines_append hclosed]
        exact fun line hline => mem_append_left _ hline
    refine ⟨⟨closed₀ ++ closed, hall, hended₀.append hclosed, fun line hline => ?_⟩, ?_, ?_⟩
    · rw [chunkTexts_append]
      rw [lines_append hended₀] at hline
      rcases mem_append.1 hline with hline | hline
      · obtain ⟨chunk, hchunk, hmem⟩ := hcovered line hline
        exact ⟨chunk, mem_append_left _ hchunk, hmem⟩
      · exact ⟨text, mem_append_right _ mem_cons_self, hlines line hline⟩
    · rw [chunkTexts_append]
      intro chunk hchunk
      rcases mem_append.1 hchunk with hchunk | hchunk
      · exact hinfix chunk hchunk
      · obtain rfl : chunk = text := mem_singleton.1 hchunk
        rw [hall]
        rcases hpushed with rfl | rfl
        · exact ⟨closed₀, leftover, rfl⟩
        · exact ⟨closed₀, [], by simp⟩
    · exact ⟨chunks ++ [_], by rw [map_append, ← hchunks]; rfl⟩

variable (hreads : ∀ s piece, Reads nl s piece (step s piece) (dropped s piece))

include hreads in
theorem Clean.covers {pieces : List (List α)} {s : ReaderState α} {read : List α}
    (hclean : Clean step dropped s pieces) (h : Covers nl read s) :
    Covers nl (read ++ pieces.flatten) (pieces.foldl step s) := by
  induction pieces generalizing s read with
  | nil => simpa using h
  | cons piece pieces ih =>
    rw [flatten_cons, ← append_assoc]
    have hstep := hreads s piece
    rw [hclean.1] at hstep
    exact ih hclean.2 (h.reads hstep)

theorem Covers.finish {text : List α} {s : ReaderState α} (h : Covers nl text s) (workers idx : Nat) :
    NothingLost nl text workers (finish workers idx s) := by
  obtain ⟨⟨closed, htext, hended, hcovered⟩, hcontiguous, chunks, hchunks⟩ := h
  have hmarkers : ∀ id, chunkTexts (replicate workers (Item.endOfStream id 0 : Item α)) = [] :=
    fun id => filterMap_eq_nil_iff.2 fun item hitem => by rw [eq_of_mem_replicate hitem]
  unfold KnowledgeGraph.finish
  split_ifs with hleft
  · rw [hleft] at htext
    subst htext
    refine ⟨?_, ?_, ⟨chunks, _, _, by rw [hchunks]⟩⟩
    · simpa only [chunkTexts_append, hmarkers, append_nil] using hcovered
    · simpa only [chunkTexts_append, hmarkers, append_nil] using hcontiguous
  · have hlast : chunkTexts [Item.chunk ⟨idx, s.leftover, 0⟩] = [s.leftover] := rfl
    refine ⟨fun line hline => ?_, fun chunk hchunk => ?_,
      ⟨chunks ++ [⟨idx, s.leftover, 0⟩], idx, 0, ?_⟩⟩
    · simp only [chunkTexts_append, hmarkers, append_nil]
      rw [htext, lines_append hended] at hline
      rcases mem_append.1 hline with hline | hline
      · obtain ⟨chunk, hchunk, hmem⟩ := hcovered line hline
        exact ⟨chunk, mem_append_left _ hchunk, hmem⟩
      · exact ⟨s.leftover, mem_append_right _ mem_cons_self, hline⟩
    · simp only [chunkTexts_append, hmarkers, append_nil] at hchunk
      rcases mem_append.1 hchunk with hchunk | hchunk
      · exact hcontiguous chunk hchunk
      · rw [mem_singleton.1 hchunk, htext]
        exact (suffix_append _ _).isInfix
    · rw [map_append, ← hchunks]
      rfl

def Absent (a : α) (s : ReaderState α) : Prop :=
  a ∉ s.leftover ∧ ∀ chunk ∈ chunkTexts s.pushed, a ∉ chunk

theorem Absent.push {a : α} {s : ReaderState α} (hs : Absent a s) {closed leftover text : List α}
    (ha : a ∉ closed ++ leftover) (hpushed : text = closed ∨ text = closed ++ leftover)
    (n : Nat) : Absent a ⟨leftover, s.chunkIdx + 1, s.pushed ++ [.chunk ⟨s.chunkIdx, text, n⟩]⟩ := by
  rw [mem_append, not_or] at ha
  refine ⟨ha.2, fun chunk hchunk => ?_⟩
  rw [chunkTexts_append] at hchunk
  rcases mem_append.1 hchunk with hchunk | hchunk
  · exact hs.2 chunk hchunk
  · rw [mem_singleton.1 hchunk]
    rcases hpushed with rfl | rfl
    · exact ha.1
    · exact fun hmem => (mem_append.1 hmem).elim ha.1 ha.2

theorem Reads.absent {a : α} {s s' : ReaderState α} {piece drops : List α}
    (h : Reads nl s piece s' drops) (hs : Absent a s) (ha : a ∉ piece) : Absent a s' := by
  have htext : a ∉ s.leftover ++ piece := fun hmem => (mem_append.1 hmem).elim hs.1 ha
  cases h with
  | keep => exact ⟨htext, hs.2⟩
  | push hsplit _ hpushed =>
    rw [hsplit] at htext
    exact hs.push (mt (mem_append_left _) htext) hpushed _

include hreads in
theorem absent_foldl {a : α} {pieces : List (List α)} {s : ReaderState α} (hs : Absent a s)
    (ha : a ∉ pieces.flatten) : Absent a (pieces.foldl step s) := by
  induction pieces generalizing s with
  | nil => exact hs
  | cons piece pieces ih =>
    rw [flatten_cons, mem_append, not_or] at ha
    exact ih ((hreads s piece).absent hs ha.1) ha.2

theorem Reads.absent_last {a : α} {s s' : ReaderState α} {piece drops : List α}
    (h : Reads nl s piece s' drops) (hs : Absent a s) (hpiece : piece.getLast? = some a)
    (hnodup : piece.Nodup) (hdrops : drops ≠ []) : Absent a s' := by
  obtain ⟨init, rfl⟩ := getLast?_eq_some_iff.1 hpiece
  cases h with
  | keep => exact absurd rfl hdrops
  | @push closed leftover _ text hsplit _ hpushed =>
    -- the letter ends what is dropped, and occurs nowhere before
    obtain ⟨drops, b, rfl⟩ := (eq_nil_or_concat' drops).resolve_left hdrops
    have hsplit' : s.leftover ++ init ++ [a] = closed ++ leftover ++ drops ++ [b] := by
      rw [append_assoc, hsplit]
      simp only [append_assoc]
    have hbefore := (append_inj' hsplit' rfl).1
    have hinit : a ∉ init := fun hmem => (nodup_append'.1 hnodup).2.2 hmem mem_cons_self
    have habsent : a ∉ s.leftover ++ init := fun hmem => (mem_append.1 hmem).elim hs.1 hinit
    rw [hbefore] at habsent
    exact hs.push (mt (mem_append_left _) habsent) hpushed _

theorem Absent.finish {a : α} {s : ReaderState α} (h : Absent a s) (workers idx : Nat) :
    ∀ chunk ∈ chunkTexts (KnowledgeGraph.finish workers idx s), a ∉ chunk := by
  intro chunk hchunk
  obtain ⟨item, hitem, htext⟩ := mem_filterMap.1 hchunk
  have hitem : item ∈ s.pushed ∨ item = .chunk ⟨idx, s.leftover, 0⟩ ∨
      ∃ i, item = .endOfStream i 0 := by
    unfold KnowledgeGraph.finish at hitem
    all_goals grind
  rcases hitem with hitem | rfl | ⟨i, rfl⟩
  · exact h.2 chunk (mem_filterMap.2 ⟨item, hitem, htext⟩)
  · exact some.inj htext ▸ h.1
  · exact nomatch htext

include hreads in
theorem clean_of_nothingLost {pieces : List (List α)} {s : ReaderState α} (workers idx : Nat)
    (hne : ∀ piece ∈ pieces, piece ≠ []) (hnodup : pieces.flatten.Nodup)
    (hfresh : ∀ a ∈ pieces.flatten, Absent a s)
    (h : ∀ a ∈ pieces.flatten,
      ∃ chunk ∈ chunkTexts (finish workers idx (pieces.foldl step s)), a ∈ chunk) :
    Clean step dropped s pieces := by
  induction pieces generalizing s with
  | nil => trivial
  | cons piece pieces ih =>
    rw [flatten_cons, nodup_append'] at hnodup
    obtain ⟨hpiece, hpieces, hdisjoint⟩ := hnodup
    refine ⟨?_, ih (fun p hp => hne p (mem_cons_of_mem _ hp)) hpieces (fun a ha => ?_) fun a ha =>
      h a (by rw [flatten_cons]; exact mem_append_right _ ha)⟩
    · by_contra hdrops
      obtain ⟨init, a, hlast⟩ :=
        (eq_nil_or_concat' piece).resolve_left (hne piece mem_cons_self)
      have hmem : a ∈ piece := hlast ▸ mem_append_right _ mem_cons_self
      have hall : a ∈ (piece :: pieces).flatten := by
        exact mem_append_left _ hmem
      have habsent := absent_foldl hreads ((hreads s piece).absent_last (hfresh a hall)
        (by rw [hlast]; simp) hpiece hdrops) fun ha => hdisjoint hmem ha
      obtain ⟨chunk, hchunk, ha⟩ := h a hall
      exact habsent.finish workers idx chunk hchunk ha
    · refine (hreads s piece).absent (hfresh a ?_) fun hmem => hdisjoint hmem ha
      exact mem_append_right _ ha

include hreads in
/-- **Nothing is lost exactly if no piece drops anything**, for a text that has no letter twice. -/
theorem nothingLost_iff_clean {pieces : List (List α)} (workers idx : Nat)
    (hne : ∀ piece ∈ pieces, piece ≠ []) (hnodup : pieces.flatten.Nodup) :
    NothingLost nl pieces.flatten workers (finish workers idx (pieces.foldl step .init)) ↔
      Clean step dropped .init pieces := by
  constructor
  · intro h
    refine clean_of_nothingLost hreads workers idx hne hnodup
      (fun a _ => ⟨not_mem_nil, nofun⟩) fun a ha => ?_
    obtain ⟨line, hline, haline⟩ := exists_mem_lines ha
    obtain ⟨chunk, hchunk, hmem⟩ := h.lines line hline
    exact ⟨chunk, hchunk, mem_of_mem_lines hmem haline⟩
  · intro h
    exact (h.covers hreads covers_init).finish workers idx

end Clean

end JasmineGraph.KnowledgeGraph
