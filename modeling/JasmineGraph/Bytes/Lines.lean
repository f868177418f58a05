import JasmineGraph.Bytes.Text

/-!
# Tokens of a stream

`while (std::getline(stream, token, delimiter))` extracts the pieces of a text between delimiters.
A delimiter ends a token, so there is none behind a delimiter that ends the text, and an empty text
has no token; two delimiters in a row enclose an empty one. `split` is the list of the tokens, which
is also what `Utils::split` returns.
-/

namespace JasmineGraph.Bytes

open List

variable {d b : UInt8} {xs ys : List UInt8}

/-- The tokens of a text. -/
def split (d : UInt8) : List UInt8 → List (List UInt8)
  | [] => []
  | b :: bs =>
    if b = d then [] :: split d bs
    else
      match split d bs with
      | [] => [[b]]
      | token :: tokens => (b :: token) :: tokens

@[simp] theorem split_nil : split d [] = [] := rfl

@[simp] theorem split_delimiter_cons : split d (d :: xs) = [] :: split d xs := if_pos rfl

theorem split_ne_nil (h : xs ≠ []) : split d xs ≠ [] := by
  cases xs with
  | nil => exact absurd rfl h
  | cons b bs =>
    rw [split]
    split_ifs
    · exact cons_ne_nil _ _
    · split <;> exact cons_ne_nil _ _

/-- A byte in front of a text with a token goes to the first of them. -/
theorem split_cons_of_ne {token : List UInt8} {tokens : List (List UInt8)} (hb : b ≠ d)
    (h : split d xs = token :: tokens) : split d (b :: xs) = (b :: token) :: tokens := by
  rw [split, if_neg hb, h]

theorem split_singleton (hb : b ≠ d) : split d [b] = [[b]] := by
  rw [split, if_neg hb, split_nil]

/-- **A delimiter separates.** -/
theorem split_append_delimiter (xs ys : List UInt8) :
    split d (xs ++ d :: ys) = split d (xs ++ [d]) ++ split d ys := by
  induction xs with
  | nil => simp
  | cons b bs ih =>
    by_cases hb : b = d
    · subst hb
      simp [ih]
    · obtain ⟨token, tokens, htokens⟩ := exists_cons_of_ne_nil
        (split_ne_nil (append_ne_nil_of_right_ne_nil bs (cons_ne_nil d [])))
      rw [htokens, cons_append] at ih
      rw [cons_append, cons_append, split_cons_of_ne hb ih, split_cons_of_ne hb htokens,
        cons_append]

/-- A delimiter at the end ends the last token, or makes an empty one if there is none to end. -/
theorem split_concat_delimiter (xs : List UInt8) :
    split d (xs ++ [d]) =
      if xs = [] ∨ xs.getLast? = some d then split d xs ++ [[]] else split d xs := by
  induction xs with
  | nil => simp
  | cons b bs ih =>
    by_cases hbs : bs = []
    · subst hbs
      by_cases hb : b = d
      · simp [hb]
      · simp [hb, split_singleton hb, split_cons_of_ne hb split_delimiter_cons]
    · have hlast : (b :: bs).getLast? = bs.getLast? := getLast?_cons_of_ne_nil hbs
      simp only [hbs, cons_ne_nil, hlast, cons_append] at ih ⊢
      by_cases hb : b = d
      · subst hb
        simp only [split_delimiter_cons, ih]
        split_ifs <;> rfl
      · obtain ⟨token, tokens, htokens⟩ := exists_cons_of_ne_nil (split_ne_nil hbs)
        rw [split_cons_of_ne hb htokens]
        split_ifs at ih ⊢
        · rw [htokens] at ih
          exact split_cons_of_ne hb ih
        · rw [htokens] at ih
          exact split_cons_of_ne hb ih

/-! ## A text that arrives in parts -/

theorem delimiter_notMem_of_mem_split {token : List UInt8} (h : token ∈ split d xs) :
    d ∉ token := by
  induction xs generalizing token with
  | nil => cases h
  | cons b bs ih =>
    by_cases hb : b = d
    · subst hb
      rw [split_delimiter_cons] at h
      rcases mem_cons.1 h with rfl | h
      · exact not_mem_nil
      · exact ih h
    · by_cases hbs : bs = []
      · subst hbs
        rw [split_singleton hb, mem_singleton] at h
        subst h
        simpa using Ne.symm hb
      · obtain ⟨first, tokens, htokens⟩ := exists_cons_of_ne_nil (split_ne_nil hbs)
        rw [split_cons_of_ne hb htokens] at h
        rw [htokens] at ih
        rcases mem_cons.1 h with rfl | h
        · refine fun hd => ?_
          rcases mem_cons.1 hd with hd | hd
          · exact hb hd.symm
          · exact ih mem_cons_self hd
        · exact ih (mem_cons_of_mem _ h)

theorem split_of_notMem (h : d ∉ xs) (hxs : xs ≠ []) : split d xs = [xs] := by
  induction xs with
  | nil => exact absurd rfl hxs
  | cons b bs ih =>
    obtain ⟨hb, hbs⟩ := not_or.1 (mt mem_cons.2 h)
    by_cases hnil : bs = []
    · subst hnil
      exact split_singleton (Ne.symm hb)
    · exact split_cons_of_ne (Ne.symm hb) (ih hbs hnil)

theorem split_line (h : d ∉ xs) (ys : List UInt8) : split d (xs ++ d :: ys) = xs :: split d ys := by
  rw [split_append_delimiter, split_concat_delimiter]
  by_cases hxs : xs = []
  · rw [hxs]
    rfl
  · have hlast : ¬(xs = [] ∨ xs.getLast? = some d) :=
      not_or.2 ⟨hxs, fun hd => h (mem_of_getLast? hd)⟩
    rw [if_neg hlast, split_of_notMem h hxs]
    rfl

/-- After a part that ends with a delimiter the next part starts a token. -/
theorem split_append_terminated (h : xs.getLast? = some d) :
    split d (xs ++ ys) = split d xs ++ split d ys := by
  obtain ⟨body, rfl⟩ := getLast?_eq_some_iff.1 h
  rw [append_assoc, singleton_append, split_append_delimiter]

/-- After any other part the next one continues its last token. -/
theorem split_append_unterminated (hxs : xs ≠ []) (h : xs.getLast? ≠ some d) :
    split d (xs ++ ys) =
      (split d xs).dropLast ++ split d ((split d xs).getLast?.getD [] ++ ys) := by
  induction xs with
  | nil => exact absurd rfl hxs
  | cons b bs ih =>
    by_cases hbs : bs = []
    · subst hbs
      have hb : b ≠ d := fun hb => h (by rw [hb]; rfl)
      rw [split_singleton hb]
      rfl
    · rw [getLast?_cons_of_ne_nil hbs] at h
      have ih := ih hbs h
      obtain ⟨token, tokens, htokens⟩ := exists_cons_of_ne_nil (split_ne_nil (d := d) hbs)
      by_cases hb : b = d
      · subst hb
        rw [cons_append, split_delimiter_cons, split_delimiter_cons, ih, htokens]
        rfl
      · rw [split_cons_of_ne hb htokens]
        rw [htokens] at ih
        cases tokens with
        | nil =>
          change split d (b :: (bs ++ ys)) = split d (b :: (token ++ ys))
          rw [split, ih]
          rfl
        | cons next tokens => exact split_cons_of_ne hb ih

/-! ## What the tokens are -/

/-- The pieces of a text that a delimiter ends, and what is behind the last delimiter if that is not
empty. -/
def AreTokens (d : UInt8) (xs : List UInt8) (tokens : List (List UInt8)) : Prop :=
  ∃ ended tail, (∀ token ∈ ended, d ∉ token) ∧ d ∉ tail ∧ xs = ended.flatMap (· ++ [d]) ++ tail ∧
    tokens = ended ++ if tail = [] then [] else [tail]

theorem areTokens_split (d : UInt8) (xs : List UInt8) : AreTokens d xs (split d xs) := by
  induction xs with
  | nil => exact ⟨[], [], by simp⟩
  | cons b bs ih =>
    obtain ⟨ended, tail, hended, htail, hbs, hsplit⟩ := ih
    by_cases hb : b = d
    · subst hb
      exact ⟨[] :: ended, tail, by simpa using hended, htail, by simp [hbs], by simp [hsplit]⟩
    · cases ended with
      | nil =>
        refine ⟨[], b :: tail, by simp, by simp [htail, Ne.symm hb], by simp [hbs], ?_⟩
        rw [split, if_neg hb, hsplit]
        by_cases hnil : tail = [] <;> simp [hnil]
      | cons token ended =>
        refine ⟨(b :: token) :: ended, tail, ?_, htail, by simp [hbs], split_cons_of_ne hb hsplit⟩
        simpa [Ne.symm hb] using hended

/-! ## Non-empty tokens -/

def pieces (d : UInt8) (xs : List UInt8) : List (List UInt8) := (split d xs).filter (· ≠ [])

theorem pieces_append_delimiter (xs ys : List UInt8) :
    pieces d (xs ++ d :: ys) = pieces d xs ++ pieces d ys := by
  unfold pieces
  rw [split_append_delimiter, split_concat_delimiter]
  split_ifs <;> simp

end JasmineGraph.Bytes
