import Mathlib.Data.List.DropRight
import Mathlib.Tactic.Common

/-!
# The words of a text

A word is a part of a text between two blanks.  `words_append_cons` is the law of the library: the
words of a text are those before a blank and those after it.  With it a text that is put together
from words is taken apart again (`words_intercalate`), and neither the blanks at its ends
(`words_strip`) nor its lines (`flatMap_words_lines`) matter.
-/

namespace Laboratory.Algorithm

variable {α : Type*} {blank : α → Bool}

/-- The words of a text. -/
def words (blank : α → Bool) (text : List α) : List (List α) :=
  (text.splitOnP blank).filter fun word => !word.isEmpty

/-- A list that stands between blanks in a text. -/
def IsWord (blank : α → Bool) (word : List α) : Prop :=
  word ≠ [] ∧ ∀ c ∈ word, blank c = false

@[simp]
theorem words_nil : words blank [] = [] := rfl

/-- **The words before a blank and those after it.** -/
theorem words_append_cons {c : α} (hc : blank c = true) (text rest : List α) :
    words blank (text ++ c :: rest) = words blank text ++ words blank rest := by
  rw [words, List.splitOnP_append_cons _ _ hc, List.filter_append, words, words]

theorem words_cons {c : α} (hc : blank c = true) (rest : List α) :
    words blank (c :: rest) = words blank rest :=
  words_append_cons hc [] rest

theorem words_concat {c : α} (hc : blank c = true) (text : List α) :
    words blank (text ++ [c]) = words blank text := by
  rw [words_append_cons hc, words_nil, List.append_nil]

/-- A word is the only word in it. -/
theorem IsWord.words_eq {word : List α} (h : IsWord blank word) : words blank word = [word] := by
  rw [words, List.splitOnP_eq_singleton h.2]
  simp [h.1]

/-- **The words that a text is put together from.** -/
theorem words_intercalate {c : α} (hc : blank c = true) {ws : List (List α)}
    (h : ∀ word ∈ ws, IsWord blank word) : words blank ([c].intercalate ws) = ws := by
  induction ws with
  | nil => rfl
  | cons word ws ih =>
    have hword := h word List.mem_cons_self
    have hws := ih fun w hw => h w (List.mem_cons_of_mem _ hw)
    cases ws with
    | nil =>
      rw [List.intercalate_singleton]
      exact hword.words_eq
    | cons w ws =>
      have hjoin : [c].intercalate (word :: w :: ws) = word ++ c :: [c].intercalate (w :: ws) := by
        rw [List.intercalate_cons_cons, List.append_assoc, List.singleton_append]
      rw [hjoin, words_append_cons hc, hword.words_eq, hws, List.singleton_append]

/-! ### Blanks at the ends -/

/-- The text without the blanks at its ends. -/
def strip (blank : α → Bool) (text : List α) : List α :=
  (text.dropWhile blank).rdropWhile blank

theorem words_dropWhile (text : List α) :
    words blank (text.dropWhile blank) = words blank text := by
  induction text with
  | nil => rfl
  | cons c text ih =>
    rw [List.dropWhile_cons]
    split_ifs with hc
    · rw [ih, words_cons hc]
    · rfl

theorem words_rdropWhile (text : List α) :
    words blank (text.rdropWhile blank) = words blank text := by
  induction text using List.reverseRecOn with
  | nil => rfl
  | append_singleton text c ih =>
    by_cases hc : blank c = true
    · rw [List.rdropWhile_concat_pos _ _ _ hc, ih, words_concat hc]
    · rw [List.rdropWhile_concat_neg _ _ _ hc]

theorem words_strip (text : List α) : words blank (strip blank text) = words blank text := by
  rw [strip, words_rdropWhile, words_dropWhile]

/-! ### Lines -/

/-- The lines of a text: a line break at the end ends the last line. -/
def lines (lineBreak : α → Bool) : List α → List (List α)
  | [] => []
  | c :: rest =>
    if lineBreak c then [] :: lines lineBreak rest
    else
      match lines lineBreak rest with
      | [] => [[c]]
      | line :: others => (c :: line) :: others

variable {lineBreak : α → Bool}

/-- A first line, and what follows it. -/
theorem lines_append_cons {c : α} (hc : lineBreak c = true) {line : List α}
    (hline : ∀ a ∈ line, lineBreak a = false) (rest : List α) :
    lines lineBreak (line ++ c :: rest) = line :: lines lineBreak rest := by
  induction line with
  | nil => rw [List.nil_append, lines, if_pos hc]
  | cons a line ih =>
    rw [List.cons_append, lines, if_neg (by simp [hline a List.mem_cons_self]),
      ih fun b hb => hline b (List.mem_cons_of_mem _ hb)]

/-- A text without line breaks is one line. -/
theorem lines_eq_singleton {line : List α} (hnil : line ≠ [])
    (hline : ∀ a ∈ line, lineBreak a = false) : lines lineBreak line = [line] := by
  induction line with
  | nil => exact absurd rfl hnil
  | cons a line ih =>
    rw [lines, if_neg (by simp [hline a List.mem_cons_self])]
    cases line with
    | nil => rfl
    | cons b line =>
      rw [ih (List.cons_ne_nil _ _) fun c hc => hline c (List.mem_cons_of_mem _ hc)]

variable (lineBreak) in
/-- A text has no line break, or a first line. -/
theorem exists_line (text : List α) :
    (∀ a ∈ text, lineBreak a = false) ∨ ∃ line c rest, text = line ++ c :: rest ∧
      lineBreak c = true ∧ ∀ a ∈ line, lineBreak a = false := by
  induction text with
  | nil => exact .inl (by simp)
  | cons a text ih =>
    by_cases ha : lineBreak a = true
    · exact .inr ⟨[], a, text, rfl, ha, by simp⟩
    · have ha := Bool.eq_false_iff.mpr ha
      rcases ih with h | ⟨line, c, rest, rfl, hc, hline⟩
      · exact .inl (List.forall_mem_cons.mpr ⟨ha, h⟩)
      · exact .inr ⟨a :: line, c, rest, rfl, hc, List.forall_mem_cons.mpr ⟨ha, hline⟩⟩

/-- **Words do not go over lines**: where line breaks are blanks, the words of a text are those of
its lines. -/
theorem flatMap_words_lines (hbreak : ∀ c, lineBreak c = true → blank c = true) (text : List α) :
    (lines lineBreak text).flatMap (words blank) = words blank text := by
  induction hn : text.length using Nat.strong_induction_on generalizing text with
  | _ n ih =>
    rcases exists_line lineBreak text with h | ⟨line, c, rest, rfl, hc, hline⟩
    · by_cases hnil : text = []
      · subst hnil
        rfl
      · rw [lines_eq_singleton hnil h, List.flatMap_singleton]
    · rw [lines_append_cons hc hline, List.flatMap_cons, words_append_cons (hbreak c hc),
        ih rest.length (by simp [← hn]; omega) rest rfl]

end Laboratory.Algorithm
