import Mathlib.Data.List.TakeWhile

/-!
# The words of a text

The pieces of a text between its separators, without the empty ones, and the words of each of its
lines.
-/

namespace Lib

variable {α : Type*}

/-- The words of a text, where `sep` tells the separators. -/
def words (sep : α → Bool) (text : List α) : List (List α) :=
  (text.splitOnP sep).filter (· ≠ [])

variable {sep : α → Bool}

/-- No text, no word. -/
@[simp] theorem words_nil : words sep [] = [] := by
  simp [words]

/-- The words on both sides of a separator. -/
theorem words_append_cons {a : α} (ha : sep a) (l r : List α) :
    words sep (l ++ a :: r) = words sep l ++ words sep r := by
  rw [words, List.splitOnP_append_cons l r ha, List.filter_append]
  rfl

/-- A separator in front makes no difference. -/
theorem words_cons_of_sep {a : α} (ha : sep a) (l : List α) :
    words sep (a :: l) = words sep l := by
  have happend := words_append_cons ha [] l
  simpa using happend

/-- A text without separators is a word. -/
theorem words_eq_self {l : List α} (h : ∀ a ∈ l, sep a = false) (hne : l ≠ []) :
    words sep l = [l] := by
  rw [words, List.splitOnP_eq_singleton h]
  simp [hne]

/-- The first word, and those of what follows it. -/
theorem words_cons {a : α} (ha : sep a = false) (l : List α) :
    words sep (a :: l) =
      (a :: l.takeWhile (! sep ·)) :: words sep (l.dropWhile (! sep ·)) := by
  have hword : ∀ b ∈ a :: l.takeWhile (! sep ·), sep b = false := by
    intro b hb
    obtain rfl | hb := List.mem_cons.1 hb
    · exact ha
    · simpa using List.mem_takeWhile_imp hb
  have hself := words_eq_self hword (List.cons_ne_nil _ _)
  cases hrest : l.dropWhile (! sep ·) with
  | nil =>
    rw [List.dropWhile_eq_nil_iff] at hrest
    rw [List.takeWhile_eq_self_iff.2 hrest] at hself ⊢
    simpa using hself
  | cons b r =>
    have hb : sep b := by
      have hhead := List.head_dropWhile_not (! sep ·) (l := l) (by simp [hrest])
      simpa [hrest] using hhead
    have hl : a :: l = (a :: l.takeWhile (! sep ·)) ++ b :: r := by
      rw [List.cons_append, ← hrest, List.takeWhile_append_dropWhile]
    rw [hl, words_append_cons hb, words_cons_of_sep hb, hself, List.singleton_append]

/-- The separators in front of a text are dropped. -/
theorem words_dropWhile (l : List α) : words sep (l.dropWhile sep) = words sep l := by
  induction l with
  | nil => rfl
  | cons a l ih =>
    cases ha : sep a with
    | true => rw [List.dropWhile_cons_of_pos ha, ih, words_cons_of_sep ha]
    | false => rw [List.dropWhile_cons_of_neg (by simp [ha])]

/-- A text without words is made of separators. -/
theorem words_eq_nil_iff {l : List α} : words sep l = [] ↔ l.dropWhile sep = [] := by
  rw [← words_dropWhile]
  cases hrest : l.dropWhile sep with
  | nil => simp
  | cons a rest =>
    have hhead := List.head?_dropWhile_not sep l
    rw [hrest] at hhead
    rw [words_cons (by simpa using hhead)]
    simp

/-- The first word of a text, behind the separators in front of it. -/
theorem words_eq_cons {l : List α} (h : l.dropWhile sep ≠ []) :
    words sep l = (l.dropWhile sep).takeWhile (! sep ·) ::
      words sep ((l.dropWhile sep).dropWhile (! sep ·)) := by
  rw [← words_dropWhile]
  cases hrest : l.dropWhile sep with
  | nil => exact absurd hrest h
  | cons a rest =>
    have ha : sep a = false := by
      have hhead := List.head?_dropWhile_not sep l
      simpa [hrest] using hhead
    rw [words_cons ha, List.takeWhile_cons_of_pos (by simp [ha]),
      List.dropWhile_cons_of_pos (by simp [ha])]

/-! ## Lines of words -/

/-- The words of each line of a text that has some, where `eol` tells the ends of lines. -/
def wordLines (eol sep : α → Bool) (text : List α) : List (List (List α)) :=
  ((text.splitOnP eol).map (words sep)).filter (· ≠ [])

variable {eol : α → Bool}

/-- No text, no line of words. -/
@[simp] theorem wordLines_nil : wordLines eol sep [] = [] := by
  simp [wordLines]

/-- The lines of words on both sides of an end of line. -/
theorem wordLines_append_cons {a : α} (ha : eol a) (l r : List α) :
    wordLines eol sep (l ++ a :: r) = wordLines eol sep l ++ wordLines eol sep r := by
  rw [wordLines, List.splitOnP_append_cons l r ha, List.map_append, List.filter_append]
  rfl

/-- An empty line has no words. -/
theorem wordLines_cons_of_eol {a : α} (ha : eol a) (l : List α) :
    wordLines eol sep (a :: l) = wordLines eol sep l := by
  have happend : wordLines eol sep ([] ++ a :: l) = _ := wordLines_append_cons ha [] l
  rwa [wordLines_nil] at happend

/-- A text without ends of lines is a line. -/
theorem wordLines_line {l : List α} (h : ∀ a ∈ l, eol a = false) (hne : words sep l ≠ []) :
    wordLines eol sep l = [words sep l] := by
  rw [wordLines, List.splitOnP_eq_singleton h]
  simp [hne]

/-- The lines of entries are read apart. -/
theorem wordLines_flatMap {β : Type*} {a : α} (ha : eol a) {line : β → List α}
    {entry : β → List (List α)} {l : List β}
    (h : ∀ b ∈ l, (∀ c ∈ line b, eol c = false) ∧ words sep (line b) = entry b ∧ entry b ≠ [])
    (r : List α) : wordLines eol sep (l.flatMap (fun b => line b ++ [a]) ++ r) =
      l.map entry ++ wordLines eol sep r := by
  induction l with
  | nil => rfl
  | cons b l ih =>
    obtain ⟨⟨hline, hwords, hne⟩, hl⟩ := List.forall_mem_cons.1 h
    have hone : wordLines eol sep (line b) = [entry b] := by
      rw [wordLines_line hline (hwords ▸ hne), hwords]
    rw [List.flatMap_cons, List.append_assoc, List.append_assoc, List.singleton_append,
      wordLines_append_cons ha, hone, ih hl]
    rfl

end Lib
