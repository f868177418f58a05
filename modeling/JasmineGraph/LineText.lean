import Mathlib

/-!
# Texts that are made of lines

A text is a list over any alphabet with a test `nl` for line ends. `lines nl t` are its lines, each
with its end; the last one may have none. `Ended nl t` says that the text is empty or its last
letter is a line end, so that a line starts after it.

Nothing depends on what the letters are. A text whose letters carry their positions has no letter
twice, and a line of it is a line at a place.
-/

namespace JasmineGraph.LineText

variable {α : Type} (nl : α → Bool)

def lines : List α → List (List α)
  | [] => []
  | a :: t =>
    if nl a then [a] :: lines t
    else
      match lines t with
      | [] => [[a]]
      | line :: rest => (a :: line) :: rest

/-- A line starts after the text. -/
def Ended (t : List α) : Prop := ∀ a ∈ t.getLast?, nl a = true

variable {nl}

theorem ended_nil : Ended nl [] := by simp [Ended]

theorem ended_concat {t : List α} {a : α} : Ended nl (t ++ [a]) ↔ nl a = true := by simp [Ended]

theorem Ended.of_append {s t : List α} (h : Ended nl (s ++ t)) (ht : t ≠ []) : Ended nl t := by
  intro a ha
  refine h a ?_
  rw [List.getLast?_append_of_ne_nil _ ht]
  exact ha

theorem Ended.append {s t : List α} (hs : Ended nl s) (ht : Ended nl t) : Ended nl (s ++ t) := by
  by_cases hnil : t = []
  · rw [hnil, List.append_nil]
    exact hs
  · intro a ha
    rw [List.getLast?_append_of_ne_nil _ hnil] at ha
    exact ht a ha

@[simp] theorem lines_nil : lines nl [] = [] := rfl

theorem flatten_lines (nl : α → Bool) (t : List α) : (lines nl t).flatten = t := by
  induction t with
  | nil => rfl
  | cons a t ih =>
    rw [lines]
    split_ifs
    · rw [List.flatten_cons, ih]
      rfl
    · cases ht : lines nl t with
      | nil =>
        rw [ht] at ih
        rw [← ih]
        rfl
      | cons line rest =>
        rw [ht] at ih
        rw [← ih]
        rfl

theorem lines_append {s : List α} (hs : Ended nl s) (t : List α) :
    lines nl (s ++ t) = lines nl s ++ lines nl t := by
  induction s with
  | nil => rfl
  | cons a s ih =>
    by_cases hnil : s = []
    · subst hnil
      have ha : nl a = true := hs a rfl
      simp [lines, ha]
    · have hs' : Ended nl s := Ended.of_append (s := [a]) hs hnil
      have hlines : lines nl s ≠ [] := fun h => hnil (by rw [← flatten_lines nl s, h]; rfl)
      rw [List.cons_append, lines, ih hs', lines]
      split_ifs
      · rfl
      · obtain ⟨line, rest, hcons⟩ := List.exists_cons_of_ne_nil hlines
        rw [hcons]
        rfl

theorem exists_mem_lines {t : List α} {a : α} (ha : a ∈ t) : ∃ line ∈ lines nl t, a ∈ line := by
  rw [← flatten_lines nl t] at ha
  exact List.mem_flatten.1 ha

theorem mem_of_mem_lines {t line : List α} {a : α} (hline : line ∈ lines nl t) (ha : a ∈ line) :
    a ∈ t := by
  rw [← flatten_lines nl t]
  exact List.mem_flatten.2 ⟨line, hline, ha⟩

end JasmineGraph.LineText
