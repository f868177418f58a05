import JasmineGraph.KnowledgeGraph.Reader

/-!
# When the readers lose text

A local file is read in pieces of exactly `chunkSize` bytes, the last one apart; over HDFS a read may
return fewer bytes. `Pieces` says which pieces a text can be read in.
-/

namespace JasmineGraph.KnowledgeGraph

open LineText List Option

variable {α : Type} (nl : α → Bool)

def HasEnd (t : List α) : Prop := ∃ a ∈ t, nl a = true

variable {nl} {t : List α}

theorem not_hasEnd : ¬ HasEnd nl t ↔ ∀ a ∈ t, nl a = false := by simp [HasEnd]

theorem hasEnd_append {u : List α} : HasEnd nl (t ++ u) ↔ HasEnd nl t ∨ HasEnd nl u := by
  simp only [HasEnd, mem_append, or_and_right, exists_or]

theorem HasEnd.mono {u : List α} (h : HasEnd nl t) (hsub : t ⊆ u) : HasEnd nl u := by
  obtain ⟨a, ha, hnl⟩ := h
  exact ⟨a, hsub ha, hnl⟩

theorem hasEnd_of_ended (h : Ended nl t) (ht : t ≠ []) : HasEnd nl t :=
  ⟨t.getLast ht, getLast_mem ht, h _ (getLast?_eq_some_getLast ht)⟩

/-! ## From a local file -/

/-- The pieces before leave something over that has a line end. -/
def Carries (nl : α → Bool) (chunkSize : Nat) (before : List (List α)) : Prop :=
  if chunkSize < overlapBytes then ∃ piece ∈ before, HasEnd nl piece.dropLast
  else ∃ piece ∈ before.getLast?, HasEnd nl (piece.drop (piece.length - overlapBytes)).dropLast

theorem localDropped_eq_nil {s : ReaderState α} {piece : List α} (hne : piece ≠ []) :
    localDropped nl s piece = [] ↔ (HasEnd nl (s.leftover ++ piece) → Ended nl piece) := by
  unfold localDropped
  cases hcut : findLastOf nl (s.leftover ++ piece) with
  | none =>
    have hfree := not_hasEnd.2 (findLastOf_eq_none.1 hcut)
    exact iff_of_true rfl fun h => absurd h hfree
  | some i =>
    obtain ⟨a, x, b, htext, rfl, hx, hb⟩ := findLastOf_eq_some hcut
    have hhas : HasEnd nl (s.leftover ++ piece) :=
      ⟨x, by rw [htext]; simp, hx⟩
    have hdrop : dropAfter (some a.length) (s.leftover ++ piece) = b := by
      rw [htext, dropAfter]
      simp
    rw [hdrop]
    constructor
    · rintro rfl -
      have hended : Ended nl (s.leftover ++ piece) := by
        rw [htext]
        exact ended_concat.2 hx
      exact hended.of_append hne
    · intro h
      by_contra hbne
      have hlast : (s.leftover ++ piece).getLast? = some (b.getLast hbne) := by
        rw [htext, getLast?_append_of_ne_nil _ (cons_ne_nil _ _),
          getLast?_cons_of_ne_nil hbne, getLast?_eq_some_getLast hbne]
      rw [getLast?_append_of_ne_nil _ hne] at hlast
      have htrue := h hhas _ hlast
      rw [hb _ (getLast_mem hbne)] at htrue
      exact nomatch htrue

theorem findIdx?_isSome_iff : (t.findIdx? nl).isSome ↔ HasEnd nl t := by
  rw [findIdx?_isSome, List.any_eq_true]
  rfl

/-- The first line end is before the last letter. -/
theorem exists_findIdx?_lt {u : List α} :
    (∃ j, u.findIdx? nl = some j ∧ j + 1 < u.length) ↔ HasEnd nl u.dropLast := by
  rcases eq_nil_or_concat' u with rfl | ⟨init, z, rfl⟩
  · simp [HasEnd]
  · rw [dropLast_concat, ← findIdx?_isSome_iff, findIdx?_append, length_append, length_singleton]
    cases hinit : init.findIdx? nl with
    | some j =>
      have hlt := (findIdx?_eq_some_iff_getElem.1 hinit).1
      exact iff_of_true ⟨j, rfl, by omega⟩ rfl
    | none =>
      refine iff_of_false ?_ nofun
      rintro ⟨j, hj, hlt⟩
      obtain ⟨k, -, rfl⟩ := map_eq_some_iff.1 hj
      omega

theorem overlapAt_isSome_iff {start : Nat} :
    (overlapAt nl t start).isSome ↔ HasEnd nl (t.drop start).dropLast := by
  rw [← exists_findIdx?_lt, length_drop]
  simp only [overlapAt, findFrom, isSome_iff_exists, filter_eq_some_iff,
    map_eq_some_iff, decide_eq_true_eq]
  constructor
  · rintro ⟨p, ⟨j, hj, rfl⟩, hlt⟩
    exact ⟨j, hj, by omega⟩
  · rintro ⟨j, hj, hlt⟩
    exact ⟨j + start, ⟨j, hj, rfl⟩, by omega⟩

section Local

variable {s : ReaderState α} {piece : List α}

theorem leftover_localStep_of_free (h : ¬ HasEnd nl (s.leftover ++ piece)) :
    (localStep nl s piece).leftover = s.leftover ++ piece := by
  have hcut : findLastOf nl (s.leftover ++ piece) = none := findLastOf_eq_none.2 (not_hasEnd.1 h)
  simp only [localStep, hcut]

/-- What is left over of an ended text is ended, and is empty if the overlap has no line end. -/
theorem leftover_localStep_of_ended (hhas : HasEnd nl (s.leftover ++ piece)) (hne : piece ≠ [])
    (hended : Ended nl piece) :
    Ended nl (localStep nl s piece).leftover ∧ (HasEnd nl (localStep nl s piece).leftover ↔
      HasEnd nl ((s.leftover ++ piece).drop
        ((s.leftover ++ piece).length - overlapBytes)).dropLast) := by
  cases hcut : findLastOf nl (s.leftover ++ piece) with
  | none => exact absurd hhas (not_hasEnd.2 (findLastOf_eq_none.1 hcut))
  | some i =>
    have hdropped := (localDropped_eq_nil (s := s) hne).2 fun _ => hended
    have hfull : (s.leftover ++ piece).take (i + 1) = s.leftover ++ piece := by
      rw [localDropped, hcut, dropAfter, drop_eq_nil_iff] at hdropped
      exact take_of_length_le hdropped
    have hall : Ended nl (s.leftover ++ piece) := hfull ▸ (cutsAt_local hcut).take_ended
    rw [← overlapAt_isSome_iff]
    simp only [localStep, hcut, hfull]
    cases hoverlap : overlapAt nl (s.leftover ++ piece)
        ((s.leftover ++ piece).length - overlapBytes) with
    | none => exact ⟨ended_nil, iff_of_false (by simp [HasEnd]) Bool.false_ne_true⟩
    | some p =>
      obtain ⟨-, -, hlt⟩ := overlapAt_eq_some hoverlap
      have hdropne : (s.leftover ++ piece).drop (p + 1) ≠ [] := by
        rw [Ne, drop_eq_nil_iff]
        omega
      have hleft : Ended nl ((s.leftover ++ piece).drop (p + 1)) := by
        rw [← take_append_drop (p + 1) (s.leftover ++ piece)] at hall
        exact hall.of_append hdropne
      exact ⟨hleft, iff_of_true (hasEnd_of_ended hleft hdropne) rfl⟩

/-- What is known of the left-over after some pieces. -/
structure Carried (nl : α → Bool) (chunkSize : Nat) (before : List (List α)) (s : ReaderState α) :
    Prop where
  ended : HasEnd nl s.leftover → Ended nl s.leftover
  iff : HasEnd nl s.leftover ↔ Carries nl chunkSize before

theorem carried_init (chunkSize : Nat) : Carried nl chunkSize [] (.init : ReaderState α) := by
  have hnone : ¬ HasEnd nl (ReaderState.init : ReaderState α).leftover := by
    simp [HasEnd, ReaderState.init]
  refine ⟨fun h => absurd h hnone, iff_of_false hnone ?_⟩
  unfold Carries
  split_ifs <;> simp

theorem hasEnd_window {chunkSize : Nat} {before : List (List α)} (h : Carried nl chunkSize before s)
    (hlength : piece.length = chunkSize) (hne : piece ≠ []) :
    HasEnd nl ((s.leftover ++ piece).drop ((s.leftover ++ piece).length - overlapBytes)).dropLast ↔
      Carries nl chunkSize (before ++ [piece]) := by
  rw [length_append]
  unfold Carries
  split_ifs with hsmall
  · -- the window has the whole piece and an end of what was left over
    have hdrop : (s.leftover ++ piece).drop (s.leftover.length + piece.length - overlapBytes) =
        s.leftover.drop (s.leftover.length + piece.length - overlapBytes) ++ piece :=
      drop_append_of_le_length (by omega)
    have hleft : HasEnd nl (s.leftover.drop (s.leftover.length + piece.length - overlapBytes)) ↔
        HasEnd nl s.leftover := by
      refine ⟨fun h => h.mono (drop_subset _ _), fun hhas => ?_⟩
      have hlne : s.leftover ≠ [] := by
        rintro hnil
        rw [hnil] at hhas
        exact absurd hhas (by simp [HasEnd])
      have hlpos := length_pos_of_ne_nil hlne
      have hdropne : s.leftover.drop (s.leftover.length + piece.length - overlapBytes) ≠ [] := by
        rw [Ne, drop_eq_nil_iff]
        omega
      have hended := h.ended hhas
      rw [← take_append_drop (s.leftover.length + piece.length - overlapBytes) s.leftover] at hended
      exact hasEnd_of_ended (hended.of_append hdropne) hdropne
    rw [hdrop, dropLast_append_of_ne_nil hne, hasEnd_append, hleft, h.iff, Carries, if_pos hsmall]
    simp only [mem_append, mem_singleton, or_and_right, exists_or, exists_eq_left]
  · -- the window is within the piece
    have hdrop : (s.leftover ++ piece).drop (s.leftover.length + piece.length - overlapBytes) =
        piece.drop (piece.length - overlapBytes) := by
      rw [show s.leftover.length + piece.length - overlapBytes =
        s.leftover.length + (piece.length - overlapBytes) by omega]
      simp
    rw [hdrop]
    simp

theorem Carried.step {chunkSize : Nat} {before : List (List α)} (h : Carried nl chunkSize before s)
    (hlength : piece.length = chunkSize) (hne : piece ≠ [])
    (hgood : HasEnd nl (s.leftover ++ piece) → Ended nl piece) :
    Carried nl chunkSize (before ++ [piece]) (localStep nl s piece) := by
  rw [hasEnd_append] at hgood
  by_cases hhas : HasEnd nl (s.leftover ++ piece)
  · obtain ⟨hended, hiff⟩ :=
      leftover_localStep_of_ended hhas hne (hgood (hasEnd_append.1 hhas))
    exact ⟨fun _ => hended, hiff.trans (hasEnd_window h hlength hne)⟩
  · have hleft := leftover_localStep_of_free hhas
    refine ⟨fun hend => absurd (hleft ▸ hend) hhas, ?_⟩
    rw [hleft, ← hasEnd_window h hlength hne]
    exact iff_of_false hhas fun hend =>
      hhas (hend.mono (Subset.trans (dropLast_subset _) (drop_subset _ _)))

end Local

def FullPieces (chunkSize : Nat) (pieces : List (List α)) : Prop :=
  ∀ before piece after, pieces = before ++ piece :: after → after ≠ [] → piece.length = chunkSize

/-- Every piece ends a line that has a line end in it or follows a left-over with one. -/
def EndsLines (nl : α → Bool) (chunkSize : Nat) (before pieces : List (List α)) : Prop :=
  ∀ mid piece after, pieces = mid ++ piece :: after →
    HasEnd nl piece ∨ Carries nl chunkSize (before ++ mid) → Ended nl piece

theorem endsLines_cons {chunkSize : Nat} {before pieces : List (List α)} {piece : List α} :
    EndsLines nl chunkSize before (piece :: pieces) ↔
      (HasEnd nl piece ∨ Carries nl chunkSize before → Ended nl piece) ∧
        EndsLines nl chunkSize (before ++ [piece]) pieces := by
  constructor
  · intro h
    refine ⟨fun hhas => h [] piece pieces rfl (by simpa using hhas), ?_⟩
    intro mid p after hpieces hhas
    exact h (piece :: mid) p after (by rw [hpieces]; rfl) (by simpa using hhas)
  · rintro ⟨hfirst, hrest⟩ mid p after hpieces hhas
    cases mid with
    | nil =>
      obtain ⟨rfl, -⟩ := List.cons.inj hpieces
      exact hfirst (by simpa using hhas)
    | cons q mid =>
      obtain ⟨rfl, hmid⟩ := List.cons.inj hpieces
      exact hrest mid p after hmid (by simpa using hhas)

/-- **Reading a local file drops nothing exactly if the pieces end their lines.** -/
theorem clean_local_iff {chunkSize : Nat} {pieces before : List (List α)} {s : ReaderState α}
    (hne : ∀ piece ∈ pieces, piece ≠ []) (hfull : FullPieces chunkSize pieces)
    (h : Carried nl chunkSize before s) :
    Clean (localStep nl) (localDropped nl) s pieces ↔ EndsLines nl chunkSize before pieces := by
  induction pieces generalizing before s with
  | nil => exact iff_of_true trivial fun mid piece after hpieces => absurd hpieces (by simp)
  | cons piece pieces ih =>
    have hpiece := hne piece mem_cons_self
    have hdropped : localDropped nl s piece = [] ↔
        (HasEnd nl piece ∨ Carries nl chunkSize before → Ended nl piece) := by
      rw [localDropped_eq_nil hpiece, hasEnd_append, h.iff, or_comm]
    rw [Clean, endsLines_cons, hdropped]
    refine and_congr_right fun hgood => ?_
    by_cases hlast : pieces = []
    · subst hlast
      exact iff_of_true trivial fun mid p after hpieces => absurd hpieces (by simp)
    · have hlength := hfull [] piece pieces rfl hlast
      refine ih (fun p hp => hne p (mem_cons_of_mem _ hp)) (fun mid p after hpieces => ?_)
        (h.step hlength hpiece fun hhas => hgood ?_)
      · exact hfull (piece :: mid) p after (by rw [hpieces]; rfl)
      · rw [← h.iff, or_comm]
        exact hasEnd_append.1 hhas

/-! ## Over HDFS -/

section Hdfs

variable {chunkSize : Nat} {s : ReaderState α} {piece : List α}

theorem CutsAt.hasEnd_dropLast {i : Nat} (h : CutsAt nl t i) (hlt : i + 1 < t.length) :
    HasEnd nl t.dropLast := by
  obtain ⟨a, x, b, rfl, rfl, hx⟩ := h
  have hb : b ≠ [] := by
    rintro rfl
    simp at hlt
  refine ⟨x, ?_, hx⟩
  rw [dropLast_append_of_ne_nil (cons_ne_nil _ _), dropLast_cons_of_ne_nil hb]
  simp

/-- A text that has no line end before its last letter is kept or pushed as a whole. -/
theorem hdfs_of_free (h : ¬ HasEnd nl (s.leftover ++ piece).dropLast) :
    hdfsDropped nl s piece = [] ∧ (¬ HasEnd nl (hdfsStep nl chunkSize s piece).leftover) := by
  cases hcut : (rfindParagraph nl (s.leftover ++ piece)).or (findLastOf nl (s.leftover ++ piece)) with
  | none =>
    simp only [hdfsDropped, hdfsStep, hcut]
    exact ⟨rfl, not_hasEnd.2 (findLastOf_eq_none.1 (or_eq_none_iff.1 hcut).2)⟩
  | some i =>
    have hlength : (s.leftover ++ piece).length ≤ i + 1 := by
      by_contra hlt
      exact h ((cutsAt_hdfs hcut).hasEnd_dropLast (by omega))
    have hfull := take_of_length_le hlength
    have hoverlap : ∀ start, overlapAt nl (s.leftover ++ piece) start = none := fun start => by
      refine eq_none_iff_forall_ne_some.2 fun p hp => h ?_
      obtain ⟨hcuts, -, hlt⟩ := overlapAt_eq_some hp
      exact hcuts.hasEnd_dropLast hlt
    simp only [hdfsDropped, hdfsStep, hcut, hfull, hoverlap]
    exact ⟨drop_eq_nil_iff.2 hlength, by simp [HasEnd]⟩

theorem clean_hdfs_of_singletons {pieces : List (List α)} (hone : ∀ piece ∈ pieces, piece.length = 1)
    (hs : ¬ HasEnd nl s.leftover) :
    Clean (hdfsStep nl chunkSize) (hdfsDropped nl) s pieces := by
  induction pieces generalizing s with
  | nil => trivial
  | cons piece pieces ih =>
    obtain ⟨a, rfl⟩ := length_eq_one_iff.1 (hone piece mem_cons_self)
    obtain ⟨hdropped, hleft⟩ := @hdfs_of_free α nl chunkSize s [a] (by simpa using hs)
    exact ⟨hdropped, ih (fun p hp => hone p (mem_cons_of_mem _ hp)) hleft⟩

theorem clean_hdfs_of_free {pieces : List (List α)} (hne : ∀ piece ∈ pieces, piece ≠ [])
    (hfree : ¬ HasEnd nl pieces.flatten.dropLast) (hs : ¬ HasEnd nl s.leftover) :
    Clean (hdfsStep nl chunkSize) (hdfsDropped nl) s pieces := by
  induction pieces generalizing s with
  | nil => trivial
  | cons piece pieces ih =>
    have hpiece := hne piece mem_cons_self
    by_cases hlast : pieces = []
    · subst hlast
      rw [flatten_singleton] at hfree
      refine ⟨(@hdfs_of_free α nl chunkSize s piece fun hhas => ?_).1, trivial⟩
      rw [dropLast_append_of_ne_nil hpiece, hasEnd_append] at hhas
      exact hhas.elim hs hfree
    · have hrest : pieces.flatten ≠ [] := by
        obtain ⟨p, ps, rfl⟩ := exists_cons_of_ne_nil hlast
        exact fun h => hne p (by simp) (append_eq_nil_iff.1 h).1
      rw [flatten_cons, dropLast_append_of_ne_nil hrest, hasEnd_append, not_or] at hfree
      obtain ⟨hdropped, hleft⟩ := @hdfs_of_free α nl chunkSize s piece fun hhas => by
        have hsub := hhas.mono (dropLast_subset _)
        exact (hasEnd_append.1 hsub).elim hs hfree.1
      exact ⟨hdropped, ih (fun p hp => hne p (mem_cons_of_mem _ hp)) hfree.2 hleft⟩

theorem Clean.of_append {step : ReaderState α → List α → ReaderState α}
    {dropped : ReaderState α → List α → List α} {before pieces : List (List α)}
    (h : Clean step dropped s (before ++ pieces)) : Clean step dropped (before.foldl step s) pieces := by
  induction before generalizing s with
  | nil => exact h
  | cons piece before ih => exact ih h.2

/-- Two line ends in a row are an empty line. -/
theorem rfindParagraph_ne_none {a b : List α} {x y : α} (hx : nl x = true) (hy : nl y = true) :
    rfindParagraph nl (a ++ x :: y :: b) ≠ none := by
  induction a with
  | nil =>
    rw [nil_append, rfindParagraph]
    cases rfindParagraph nl (y :: b) <;> simp [hx, hy]
  | cons z a ih =>
    rw [cons_append, rfindParagraph]
    obtain ⟨i, hi⟩ := ne_none_iff_exists'.1 ih
    simp [hi]

/-- A read that ends one letter after a line end drops that letter. -/
theorem hdfsDropped_ne_nil {x y : α} (hx : nl x = true) : hdfsDropped nl s [x, y] ≠ [] := by
  have hhas : HasEnd nl (s.leftover ++ [x, y]) := ⟨x, by simp, hx⟩
  unfold hdfsDropped
  cases hpar : rfindParagraph nl (s.leftover ++ [x, y]) with
  | some i =>
    obtain ⟨a, x', y', b, htext, rfl, -⟩ := rfindParagraph_eq_some hpar
    have hlength := congrArg List.length htext
    rw [some_or, dropAfter, Ne, drop_eq_nil_iff]
    simp only [length_append, length_cons] at hlength ⊢
    omega
  | none =>
    rw [none_or]
    cases hcut : findLastOf nl (s.leftover ++ [x, y]) with
    | none => exact absurd hhas (not_hasEnd.2 (findLastOf_eq_none.1 hcut))
    | some i =>
      obtain ⟨a, x', b, htext, rfl, hx', -⟩ := findLastOf_eq_some hcut
      rw [dropAfter, htext, drop_append]
      simp only [Nat.add_sub_cancel_left]
      intro hnil
      -- the last line end would be the last letter, after another one
      obtain rfl : b = [] := (append_eq_nil_iff.1 hnil).2
      have hlast : s.leftover ++ [x] ++ [y] = a ++ [x'] := by rw [← htext]; simp
      obtain rfl : y = x' := by simpa using (append_inj' hlast rfl).2
      exact rfindParagraph_ne_none hx hx' hpar

end Hdfs

/-! ## Files -/

/-- The two readers. -/
inductive Reader where
  | hdfs
  | localFile
deriving DecidableEq

structure Pieces (reader : Reader) (chunkSize : Nat) (text : List α) (pieces : List (List α)) :
    Prop where
  flatten : pieces.flatten = text
  nonempty : ∀ piece ∈ pieces, piece ≠ []
  size : ∀ piece ∈ pieces, piece.length ≤ chunkSize
  full : reader = .localFile → FullPieces chunkSize pieces

/-- What a reader pushes; it returns at once if the offset is not in the file. -/
def readFile (nl : α → Bool) (reader : Reader) (chunkSize workers totalFileSize startFromBytes : Nat)
    (pieces : List (List α)) : List (Item α) :=
  if 0 < startFromBytes ∧ totalFileSize ≤ startFromBytes then []
  else
    match reader with
    | .hdfs => streamFromHDFSIntoBuffer nl chunkSize workers pieces
    | .localFile => streamFromLocalFileIntoBuffer nl workers pieces

/-- What keeps the reader from losing text. -/
def KeepsLines (nl : α → Bool) (reader : Reader) (chunkSize : Nat) (text : List α) : Prop :=
  match reader with
  | .hdfs => chunkSize = 1 ∨ ¬ HasEnd nl text.dropLast
  | .localFile => ∀ pieces, Pieces .localFile chunkSize text pieces →
      EndsLines nl chunkSize [] pieces

theorem exists_after_of_mem_dropLast {text : List α} {x : α} (h : x ∈ text.dropLast) :
    ∃ a y b, text = a ++ x :: y :: b := by
  rcases eq_nil_or_concat' text with rfl | ⟨init, z, rfl⟩
  · exact absurd h not_mem_nil
  · rw [dropLast_concat] at h
    obtain ⟨a, b, rfl⟩ := append_of_mem h
    cases b with
    | nil => exact ⟨a, z, [], by simp⟩
    | cons y b => exact ⟨a, y, b ++ [z], by simp⟩

/-- Over HDFS nothing is dropped, whatever the reads return, exactly if the chunk size is 1 or no line
end comes before the last letter. -/
theorem forall_clean_hdfs_iff {chunkSize : Nat} (hsize : 0 < chunkSize) {text : List α} :
    (∀ pieces, Pieces .hdfs chunkSize text pieces →
        Clean (hdfsStep nl chunkSize) (hdfsDropped nl) .init pieces) ↔
      chunkSize = 1 ∨ ¬ HasEnd nl text.dropLast := by
  have hinit : ¬ HasEnd nl (ReaderState.init : ReaderState α).leftover := by
    simp [HasEnd, ReaderState.init]
  constructor
  · intro h
    by_contra hnot
    obtain ⟨hone, hhas⟩ := not_or.1 hnot
    obtain ⟨x, hmem, hx⟩ := not_not.1 hhas
    obtain ⟨a, y, b, rfl⟩ := exists_after_of_mem_dropLast hmem
    -- read letter by letter, but the line end together with the letter after it
    have hflatten : ∀ l : List α, (l.map fun c => [c]).flatten = l := fun l => by
      rw [← flatMap_def, flatMap_singleton']
    have hclean := h ((a.map fun c => [c]) ++ [x, y] :: b.map fun c => [c]) ⟨?_, ?_, ?_, nofun⟩
    · exact hdfsDropped_ne_nil hx hclean.of_append.1
    · rw [flatten_append, flatten_cons, hflatten, hflatten]
      rfl
    · simp only [mem_append, List.mem_map, mem_cons]
      rintro piece (⟨c, -, rfl⟩ | rfl | ⟨c, -, rfl⟩) <;> exact cons_ne_nil _ _
    · simp only [mem_append, List.mem_map, mem_cons]
      rintro piece (⟨c, -, rfl⟩ | rfl | ⟨c, -, rfl⟩) <;>
        simp only [length_cons, length_nil] <;> omega
  · rintro (rfl | hfree) pieces hpieces
    · refine clean_hdfs_of_singletons (fun piece hpiece => ?_) hinit
      have hpos := length_pos_of_ne_nil (hpieces.nonempty piece hpiece)
      have hle := hpieces.size piece hpiece
      omega
    · exact clean_hdfs_of_free hpieces.nonempty (hpieces.flatten ▸ hfree) hinit

/-- The bytes of the file from the offset on, with their positions. -/
def placed (file : List UInt8) (startFromBytes : Nat) : List (UInt8 × Nat) :=
  file.zipIdx.drop startFromBytes

def isNewline (b : UInt8 × Nat) : Bool := b.1 == 10

theorem nodup_placed (file : List UInt8) (startFromBytes : Nat) :
    (placed file startFromBytes).Nodup := by
  refine (drop_sublist _ _).nodup ?_
  refine Nodup.of_map Prod.snd ?_
  rw [zipIdx_map_snd]
  exact nodup_range'

/-- **No text is lost by the reader**, for an offset in the file and whatever the reads return, if and
only if: over HDFS, the chunk size is 1 or no line end comes before the last byte; from a local file,
every piece that has a line end in it, or follows pieces that leave a line end over, ends with one. -/
theorem nothingLost_iff (reader : Reader) (file : List UInt8)
    (chunkSize workers startFromBytes : Nat) (hsize : 0 < chunkSize)
    (hstart : startFromBytes = 0 ∨ startFromBytes < file.length) :
    (∀ pieces, Pieces reader chunkSize (placed file startFromBytes) pieces →
        NothingLost isNewline (placed file startFromBytes) workers
          (readFile isNewline reader chunkSize workers file.length startFromBytes pieces)) ↔
      KeepsLines isNewline reader chunkSize (placed file startFromBytes) := by
  have hinside : ¬ (0 < startFromBytes ∧ file.length ≤ startFromBytes) := by omega
  have hnodup := nodup_placed file startFromBytes
  cases reader with
  | hdfs =>
    rw [KeepsLines, ← forall_clean_hdfs_iff hsize]
    refine forall_congr' fun pieces => forall_congr' fun hpieces => ?_
    rw [← hpieces.flatten] at hnodup ⊢
    rw [readFile, if_neg hinside]
    exact nothingLost_iff_clean (reads_hdfs isNewline chunkSize) workers _ hpieces.nonempty hnodup
  | localFile =>
    refine forall_congr' fun pieces => forall_congr' fun hpieces => ?_
    rw [← clean_local_iff hpieces.nonempty (hpieces.full rfl) (carried_init chunkSize)]
    rw [← hpieces.flatten] at hnodup ⊢
    rw [readFile, if_neg hinside]
    exact nothingLost_iff_clean (reads_local isNewline) workers _ hpieces.nonempty hnodup

/-! ## Two lines -/

/-- The lines `ab` and `cd`, the second without an end. -/
def twoLines : List UInt8 := [97, 98, 10, 99, 100]

/-- A local file of five bytes is read in two pieces of up to three. -/
theorem pieces_twoLines {pieces : List (List (UInt8 × Nat))}
    (h : Pieces .localFile 3 (placed twoLines 0) pieces) :
    pieces = [[(97, 0), (98, 1), (10, 2)], [(99, 3), (100, 4)]] := by
  have hflatten := h.flatten
  have hlength := congrArg List.length hflatten
  have hfull := h.full rfl
  rcases pieces with _ | ⟨p, _ | ⟨q, rest⟩⟩
  · cases hlength
  · have hle := h.size p mem_cons_self
    simp only [flatten_cons, flatten_nil, append_nil] at hlength
    rw [hlength] at hle
    exact absurd hle (by decide)
  · have hp : p.length = 3 := hfull [] p (q :: rest) rfl (cons_ne_nil _ _)
    have htext : placed twoLines 0 =
        [(97, 0), (98, 1), (10, 2)] ++ [(99, 3), (100, 4)] := by decide
    rw [htext] at hflatten
    obtain ⟨rfl, hq⟩ := append_inj hflatten hp
    cases rest with
    | nil =>
      rw [flatten_cons, flatten_nil, append_nil] at hq
      rw [hq]
    | cons r rest =>
      have hlong : q.length = 3 := hfull [_] q (r :: rest) rfl (cons_ne_nil _ _)
      have htail := congrArg List.length hq
      simp only [flatten_cons, length_append, length_cons, length_nil] at htail
      omega

/-- Over HDFS byte by byte, and from a local file in pieces that end with the first line. -/
theorem twoLines_nothingLost :
    NothingLost isNewline (placed twoLines 0) 2
      (readFile isNewline .hdfs 1 2 5 0 ((placed twoLines 0).map ([·]))) ∧
    NothingLost isNewline (placed twoLines 0) 2 (readFile isNewline .localFile 3 2 5 0
      [[(97, 0), (98, 1), (10, 2)], [(99, 3), (100, 4)]]) := by
  constructor
  · exact (nothingLost_iff .hdfs twoLines 1 2 0 (by decide) (.inl rfl)).2 (.inl rfl) _
      ⟨by simp [placed, twoLines], by simp [placed, twoLines], by simp [placed, twoLines], nofun⟩
  · refine (nothingLost_iff .localFile twoLines 3 2 0 (by decide) (.inl rfl)).2
      (fun pieces hpieces => ?_) _ ⟨by decide, by decide, by decide, fun _ => ?_⟩
    · rw [pieces_twoLines hpieces, endsLines_cons, endsLines_cons]
      refine ⟨fun _ x hx => ?_, fun hend => ?_, fun mid piece after h => by simp at h⟩
      · cases hx
        rfl
      · simp [HasEnd, Carries, isNewline, overlapBytes] at hend
    · rintro (_ | ⟨p, _ | ⟨q, before⟩⟩) piece after hsplit hafter
      · simp only [nil_append, cons.injEq] at hsplit
        rw [← hsplit.1]
        rfl
      · simp only [cons_append, nil_append, cons.injEq] at hsplit
        exact absurd hsplit.2.2.symm hafter
      · simp at hsplit

theorem loses_second_line (reader : Reader) :
    ¬ ∀ pieces, Pieces reader 5 (placed twoLines 0) pieces →
      NothingLost isNewline (placed twoLines 0) 2 (readFile isNewline reader 5 2 5 0 pieces) := by
  intro h
  have hpieces : Pieces reader 5 (placed twoLines 0) [placed twoLines 0] := by
    refine ⟨by simp, by simp [placed, twoLines], by simp [placed, twoLines], fun _ => ?_⟩
    intro before piece after hsplit hafter
    have hlength := congrArg List.length hsplit
    have hpos := length_pos_of_ne_nil hafter
    simp only [length_append, length_cons, length_nil] at hlength
    omega
  have hchunks : chunkTexts (readFile isNewline reader 5 2 5 0 [placed twoLines 0]) =
      [[(97, 0), (98, 1), (10, 2)]] := by
    cases reader <;> decide +kernel
  obtain ⟨chunk, hchunk, hline⟩ := (h _ hpieces).lines [(99, 3), (100, 4)] (by decide +kernel)
  rw [hchunks, mem_singleton] at hchunk
  rw [hchunk] at hline
  exact absurd hline (by decide +kernel)

/-- Both readers, when they read the file at once, lose the second line. -/
theorem twoLines_lost : (¬ ∀ pieces, Pieces .hdfs 5 (placed twoLines 0) pieces →
      NothingLost isNewline (placed twoLines 0) 2 (readFile isNewline .hdfs 5 2 5 0 pieces)) ∧
    ¬ ∀ pieces, Pieces .localFile 5 (placed twoLines 0) pieces →
      NothingLost isNewline (placed twoLines 0) 2 (readFile isNewline .localFile 5 2 5 0 pieces) :=
  ⟨loses_second_line .hdfs, loses_second_line .localFile⟩

end JasmineGraph.KnowledgeGraph
