import JasmineGraph.KnowledgeGraph.Pipeline

/-!
# The resume offset

The metadata thread sends `realtime_bytes_read_so_far` to the master as the position to resume from.
`extractTuples` counts with it: a chunk that is extracted adds its size, whichever chunk it is, and
every hundredth tuple of a chunk a fifth of the configured chunk size.
-/

namespace JasmineGraph.KnowledgeGraph

open Bytes Schedule List Option

variable {cfg : Config} {n : Nat} {s t : State n}

/-- The offset is at or before every byte of a chunk that is not extracted. -/
def SkipsNothing (cfg : Config) (s : State n) : Prop :=
  ∀ c ∈ (cfg.data - s.completed : Multiset (Chunk PlacedByte)), ∀ b ∈ c.text,
    s.realtimeBytesReadSoFar ≤ b.2

/-- A chunk lies behind the sizes of the chunks before it. -/
def Spaced (cfg : Config) : Prop :=
  ∀ before c after, cfg.data = before ++ c :: after →
    ∀ b ∈ c.text, cfg.base + (before.map Chunk.chunkSize).sum ≤ b.2

/-- A chunk is extracted after all chunks before it, and no tuple is a hundredth one. -/
def InOrder (cfg : Config) : Label n → State n → Prop
  | .complete i, s => ∀ c tupleCount, (s.lanes i).extractor = .receiving c [] tupleCount →
      s.completed ++ [c] <+: cfg.data
  | .lane i (.receive true), s => ∀ c tuples tupleCount,
      (s.lanes i).extractor = .receiving c tuples tupleCount →
        (tupleCount + 1) % 100 ≠ 0 ∨ cfg.chunkSize < 5
  | _, _ => True

/-- The offset is the size of the chunks that are extracted, the first ones of the file. -/
structure Counted (cfg : Config) (s : State n) : Prop where
  completed : s.completed <+: cfg.data
  bytes : s.bytesReadSoFar = cfg.base + (s.completed.map Chunk.chunkSize).sum
  realtime : s.realtimeBytesReadSoFar = s.bytesReadSoFar

theorem counted_start (cfg : Config) : Counted cfg (start cfg) :=
  ⟨ nil_prefix, rfl, rfl⟩

/-- Neither the reader nor an extractor that takes an item changes what is counted. -/
theorem Counted.congr (h : Counted cfg s) (hcompleted : t.completed = s.completed)
    (hbytes : t.bytesReadSoFar = s.bytesReadSoFar)
    (hrealtime : t.realtimeBytesReadSoFar = s.realtimeBytesReadSoFar) : Counted cfg t :=
  ⟨hcompleted ▸ h.completed, hbytes.trans (hcompleted ▸ h.bytes),
    hrealtime.trans (h.realtime.trans hbytes.symm)⟩

theorem bump_eq_zero {i : Fin n} {a : LaneAction} (hl : InOrder cfg (.lane i a) s) :
    bump cfg.chunkSize a (s.lanes i) = 0 := by
  unfold bump
  split
  · split
    · rename_i hlane
      split
      · rcases hl _ _ _ hlane with hne | hsmall
        · contradiction
        · exact Nat.div_eq_of_lt hsmall
      · rfl
    · rfl
  · rfl

theorem Counted.step {l : Label n} (h : Counted cfg s) (hl : InOrder cfg l s)
    (hstep : step cfg l s = some t) : Counted cfg t := by
  cases l with
  | read =>
    replace hstep : read cfg s = some t := hstep
    unfold read at hstep
    split at hstep
    · cases hstep
    · obtain ⟨-, hsome⟩ := ite_none_left_eq_some.1 hstep
      cases hsome
      exact h.congr rfl rfl rfl
    all_goals
      cases hstep
      exact h.congr rfl rfl rfl
  | take i =>
    replace hstep : take i s = some t := hstep
    unfold take at hstep
    split at hstep
    · split at hstep
      · cases hstep
        exact h.congr rfl rfl rfl
      · obtain ⟨-, hsome⟩ := ite_none_left_eq_some.1 hstep
        cases hsome
        exact h.congr rfl rfl rfl
    · cases hstep
  | complete i =>
    replace hstep : complete i s = some t := hstep
    unfold complete at hstep
    split at hstep
    · rename_i c tupleCount hlane
      cases hstep
      refine ⟨hl c tupleCount hlane, ?_, rfl⟩
      simp only [h.bytes, map_append, map_singleton, sum_append, sum_singleton]
      omega
    · cases hstep
  | lane i a =>
    obtain ⟨lane, -, rfl⟩ := map_eq_some_iff.1 hstep
    exact h.congr rfl rfl (by rw [bump_eq_zero hl, Nat.add_zero])

/-- **The resume offset never skips text that is not extracted**, if the chunks are spaced and every
step extracts in the order of the file. -/
theorem resumeOffset_skips_nothing (cfg : Config) (hspaced : Spaced cfg)
    {ls : List (Label cfg.chunksPerBatch)} {s : State cfg.chunksPerBatch}
    (hmeets : Meets (step cfg) (InOrder cfg) ls (start cfg))
    (hrun : run (step cfg) ls (start cfg) = some s) : SkipsNothing cfg s := by
  have h : Counted cfg s :=
    hmeets.invariant (fun l s t h hl ht => h.step hl ht) hrun (counted_start cfg)
  obtain ⟨rest, hdata⟩ := h.completed
  intro c hc b hb
  rw [← hdata, ← Multiset.coe_add, add_tsub_cancel_left] at hc
  obtain ⟨before, after, rfl⟩ := append_of_mem hc
  have hle := hspaced (s.completed ++ before) c after (by rw [← hdata, append_assoc]) b hb
  rw [map_append, sum_append] at hle
  have hbytes := h.bytes
  have hrealtime := h.realtime
  omega

/-! ## Two chunks -/

/-- The lines of a file of two lines. -/
def lineChunk : Fin 2 → Chunk PlacedByte
  | 0 => ⟨0, [(97, 0), (10, 1)], 2⟩
  | 1 => ⟨1, [(98, 2), (10, 3)], 2⟩

/-- The file, read from the local disk in chunks of two bytes, and two extractors. -/
def twoChunks : Config where
  reader := .localFile
  chunks := [lineChunk 0, lineChunk 1]
  leftover := none
  markerId := 2
  workers := 2
  chunksPerBatch := 2
  chunkSize := 2
  startFromBytes := 0
  answers _ := []
  answers_ne := nofun

/-- Each extractor takes a chunk and sends it. -/
def twoChunksSent : List (Label 2) :=
  [.read, .read, .lane 0 (.connect true), .lane 1 (.connect true), .take 0, .take 1,
    .lane 0 (.send true), .lane 1 (.send true)]

theorem spaced_twoChunks : Spaced twoChunks := by
  intro before c after hdata
  change [lineChunk 0, lineChunk 1] = _ at hdata
  rcases before with _ | ⟨d, _ | ⟨e, before⟩⟩
  · exact fun b _ => Nat.zero_le b.2
  · obtain ⟨hd, hrest⟩ := List.cons.inj hdata
    obtain ⟨hc, -⟩ := List.cons.inj hrest
    rw [← hd, ← hc]
    decide
  · simp at hdata

/-- The first chunk is extracted first. -/
theorem twoChunks_skips_nothing :
    ∃ s, run (step twoChunks) (twoChunksSent ++ [.complete 0]) (start twoChunks) = some s ∧
      s.completed = [lineChunk 0] ∧ SkipsNothing twoChunks s := by
  obtain ⟨s, hs, hcompleted⟩ :
      ∃ s ∈ run (step twoChunks) (twoChunksSent ++ [.complete 0]) (start twoChunks),
        s.completed = [lineChunk 0] := by
    decide +kernel
  have hmeets : Meets (step twoChunks) (InOrder twoChunks) (twoChunksSent ++ [.complete 0])
      (start twoChunks) := by
    iterate 8 refine .cons trivial rfl ?_
    refine ⟨fun c k hlane => ?_, fun _ _ => trivial⟩
    cases hlane
    decide
  exact ⟨s, hs, hcompleted, resumeOffset_skips_nothing twoChunks spaced_twoChunks hmeets hs⟩

/-- The chunks are those that the reader makes of the file. The second one is extracted first: the
offset is 2, and the first chunk starts at 0. -/
theorem twoChunks_skips :
    readFile isNewline .localFile 2 2 4 0 [[(97, 0), (10, 1)], [(98, 2), (10, 3)]] =
      twoChunks.data.map .chunk ++ replicate 2 (.endOfStream 2 0) ∧
    ∃ s, run (step twoChunks) (twoChunksSent ++ [.complete 1]) (start twoChunks) = some s ∧
      ¬ SkipsNothing twoChunks s := by
  refine ⟨by decide +kernel, ?_⟩
  obtain ⟨s, hs, hrealtime, hcompleted⟩ :
      ∃ s ∈ run (step twoChunks) (twoChunksSent ++ [.complete 1]) (start twoChunks),
        s.realtimeBytesReadSoFar = 2 ∧ s.completed = [lineChunk 1] := by
    decide +kernel
  refine ⟨s, hs, fun h => ?_⟩
  have hle := h (lineChunk 0) (by rw [hcompleted]; decide +kernel) (97, 0) (by decide)
  rw [hrealtime] at hle
  exact absurd hle (by decide)

end JasmineGraph.KnowledgeGraph
