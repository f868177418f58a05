import JasmineGraph.Bytes.Lines
import JasmineGraph.Triangles.Count

/-!
# The texts that list triangles

A list of triangles travels as one text: three numbers with commas between them, and a colon
between two triangles. `Names` says that a text lists a triple; the receiver splits the text at the
colons. An empty list is the text `NILL` in `Triangles::countTriangles` and the empty text in
`StreamingTriangles::countDynamicCentralTriangles`; neither names a triple.
-/

namespace JasmineGraph.Triangles

open Bytes List

def tripleText (x : Long × Long × Long) : List UInt8 :=
  decimalInt x.1.toInt ++ 44 :: (decimalInt x.2.1.toInt ++ 44 :: decimalInt x.2.2.toInt)

def Names (text : List UInt8) (x : Long × Long × Long) : Prop := tripleText x ∈ split 58 text

theorem renderTriangle_eq (x : Long × Long × Long) : renderTriangle x = tripleText x ++ [58] := by
  simp [renderTriangle, tripleText, ascii]

theorem split_tripleText (x : Long × Long × Long) : split 44 (tripleText x) =
    [decimalInt x.1.toInt, decimalInt x.2.1.toInt, decimalInt x.2.2.toInt] := by
  have hcomma : ∀ n, (44 : UInt8) ∉ decimalInt n := notMem_decimalInt rfl (by decide)
  have hend : ∀ n, split 44 (decimalInt n ++ [44]) = [decimalInt n] := by
    intro n
    rw [split_concat_delimiter, if_neg, split_of_notMem (hcomma n) (decimalInt_ne_nil n)]
    rintro (h | h)
    · exact decimalInt_ne_nil n h
    · exact hcomma n (mem_of_getLast? h)
  rw [tripleText, split_append_delimiter, hend, split_append_delimiter, hend,
    split_of_notMem (hcomma _) (decimalInt_ne_nil _)]
  rfl

theorem tripleText_injective : Function.Injective tripleText := by
  rintro ⟨a, b, c⟩ ⟨a', b', c'⟩ h
  have hsplit := congrArg (split 44) h
  rw [split_tripleText, split_tripleText] at hsplit
  simp only [List.cons.injEq, and_true] at hsplit
  obtain ⟨ha, hb, hc⟩ := hsplit
  rw [Int64.toInt_inj.1 (decimalInt_injective ha), Int64.toInt_inj.1 (decimalInt_injective hb),
    Int64.toInt_inj.1 (decimalInt_injective hc)]

theorem colon_notMem_tripleText (x : Long × Long × Long) : (58 : UInt8) ∉ tripleText x := by
  have hcolon : ∀ n, (58 : UInt8) ∉ decimalInt n := notMem_decimalInt rfl (by decide)
  simp [tripleText, hcolon]

theorem tripleText_ne_nil (x : Long × Long × Long) : tripleText x ≠ [] := by
  simp [tripleText]

/-! ## Lists of triples -/

theorem split_flatMap_renderTriangle (ts : List (Long × Long × Long)) :
    split 58 (ts.flatMap renderTriangle) = ts.map tripleText := by
  induction ts with
  | nil => rfl
  | cons x ts ih =>
    have hx : split 58 (tripleText x ++ [58]) = [tripleText x] := by
      rw [split_concat_delimiter, if_neg,
        split_of_notMem (colon_notMem_tripleText x) (tripleText_ne_nil x)]
      rintro (h | h)
      · exact tripleText_ne_nil x h
      · exact colon_notMem_tripleText x (mem_of_getLast? h)
    rw [flatMap_cons, renderTriangle_eq, append_assoc, singleton_append,
      split_append_delimiter, hx, ih, map_cons, singleton_append]

theorem split_dropLast_flatMap (ts : List (Long × Long × Long)) :
    split 58 (ts.flatMap renderTriangle).dropLast = ts.map tripleText := by
  rcases eq_nil_or_concat ts with rfl | ⟨ts, x, rfl⟩
  · rfl
  · have hdrop : ((ts ++ [x]).flatMap renderTriangle).dropLast =
        ts.flatMap renderTriangle ++ tripleText x := by
      rw [flatMap_append, flatMap_singleton, renderTriangle_eq, ← append_assoc, dropLast_concat]
    rw [concat_eq_append, hdrop]
    have hx := split_of_notMem (colon_notMem_tripleText x) (tripleText_ne_nil x)
    by_cases hts : ts = []
    · rw [hts, flatMap_nil, nil_append, hx]
      rfl
    · have hlast : (ts.flatMap renderTriangle).getLast? = some 58 := by
        obtain ⟨ts, y, rfl⟩ := eq_nil_or_concat ts |>.resolve_left hts
        rw [concat_eq_append, flatMap_append, flatMap_singleton, renderTriangle_eq,
          ← append_assoc, getLast?_concat]
      rw [split_append_terminated hlast, split_flatMap_renderTriangle, hx, map_append]
      rfl

theorem names_dropLast {ts : List (Long × Long × Long)} {x : Long × Long × Long} :
    Names (ts.flatMap renderTriangle).dropLast x ↔ x ∈ ts := by
  rw [Names, split_dropLast_flatMap, mem_map_of_injective tripleText_injective]

theorem names_renderTriangles {ts : List (Long × Long × Long)} {x : Long × Long × Long} :
    Names (renderTriangles ts) x ↔ x ∈ ts := by
  rw [renderTriangles]
  split_ifs with hts
  · subst hts
    refine iff_of_false (fun h => ?_) not_mem_nil
    -- no comma in NILL
    have hnill : split 58 (ascii "NILL") = [ascii "NILL"] := by decide
    rw [Names, hnill, mem_singleton] at h
    have hcomma : (44 : UInt8) ∈ tripleText x := by simp [tripleText]
    rw [h] at hcomma
    exact absurd hcomma (by decide)
  · exact names_dropLast

end JasmineGraph.Triangles
