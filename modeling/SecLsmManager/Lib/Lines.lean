import Mathlib.Data.List.DropRight

/-!
# Texts made of lines

A text in which every entry is written on a line, and its reader. What is read back is what was
written exactly when each entry keeps the end of line out of its line and is read from it
(`readLines_written`): otherwise a line breaks in two, and there are more lines than entries.
-/

namespace Lib

variable {α β : Type*}

/-! ## Lines -/

/-- The text of the lines, each with its end. -/
def terminated (eol : α) (lines : List (List α)) : List α := lines.flatMap (· ++ [eol])

/-- The entries of lines, the last of which is what follows the last end of line. -/
def readEntries (read : List α → Option β) : List (List α) → Option (List β)
  | [] => none
  | [last] => if last = [] then some [] else none
  | line :: next :: lines =>
    match read line, readEntries read (next :: lines) with
    | some entry, some entries => some (entry :: entries)
    | _, _ => none

/-- Entries are read from lines that end, each from one. -/
theorem readEntries_append_end (read : List α → Option β) (lines : List (List α))
    (entries : List β) :
    readEntries read (lines ++ [[]]) = some entries ↔ lines.map read = entries.map some := by
  induction lines generalizing entries with
  | nil => cases entries <;> simp [readEntries]
  | cons line lines ih =>
    have hcons : readEntries read (line :: (lines ++ [[]])) =
        match read line, readEntries read (lines ++ [[]]) with
        | some entry, some entries => some (entry :: entries)
        | _, _ => none := by
      cases lines <;> rfl
    rw [List.cons_append, hcons, List.map_cons]
    cases entries with
    | nil => cases read line <;> cases readEntries read (lines ++ [[]]) <;> simp
    | cons entry entries =>
      rw [List.map_cons, List.cons.injEq, ← ih]
      cases read line with
      | none => simp
      | some e =>
        cases readEntries read (lines ++ [[]]) with
        | none => simp
        | some es => simp

/-- One more line behind the mark. -/
theorem intercalate_snoc (mark : α) {lines : List (List α)} (h : lines ≠ []) (line : List α) :
    [mark].intercalate (lines ++ [line]) = [mark].intercalate lines ++ mark :: line := by
  induction lines with
  | nil => exact absurd rfl h
  | cons first lines ih =>
    cases lines with
    | nil => simp
    | cons second lines =>
      have ih := ih (List.cons_ne_nil _ _)
      rw [List.cons_append, List.cons_append, List.intercalate_cons_cons, ← List.cons_append, ih,
        List.intercalate_cons_cons]
      simp

/-- A line is cut behind its last mark. -/
theorem cut_last {p : α → Bool} {mark : α} (hmark : ¬ p mark) (a : List α) {b : List α}
    (hb : ∀ c ∈ b, p c) :
    (a ++ [mark] ++ b).rdropWhile p = a ++ [mark] ∧ (a ++ [mark] ++ b).rtakeWhile p = b := by
  have hreverse : ∀ c ∈ b.reverse, p c := fun c hc => hb c (List.mem_reverse.1 hc)
  rw [List.rdropWhile, List.rtakeWhile, List.reverse_append, List.reverse_append,
    List.dropWhile_append_of_pos hreverse, List.takeWhile_append_of_pos hreverse]
  simp [hmark]

variable [DecidableEq α]

/-- The entries of a text. -/
def readLines (eol : α) (read : List α → Option β) (text : List α) : Option (List β) :=
  readEntries read (text.splitOn eol)

/-! ## What a text breaks into -/

/-- Text that ends each of its lines breaks into their pieces, with nothing behind the last end. -/
theorem splitOn_terminated (eol : α) (lines : List (List α)) :
    (terminated eol lines).splitOn eol = lines.flatMap (·.splitOn eol) ++ [[]] := by
  induction lines with
  | nil => rfl
  | cons line lines ih =>
    rw [terminated, List.flatMap_cons, List.append_assoc, List.singleton_append,
      List.splitOn_append_cons_self, List.flatMap_cons, List.append_assoc]
    exact congrArg _ ih

/-- No piece of a text has the mark at which it is broken. -/
theorem notMem_of_mem_splitOn {a : α} {l piece : List α} (h : piece ∈ l.splitOn a) : a ∉ piece := by
  induction l generalizing piece with
  | nil =>
    rw [List.splitOn_nil, List.mem_singleton] at h
    rw [h]
    exact List.not_mem_nil
  | cons b l ih =>
    rw [List.splitOn_cons_eq_if_modifyHead] at h
    split at h
    · obtain rfl | h := List.mem_cons.1 h
      · exact List.not_mem_nil
      · exact ih h
    · rename_i hb
      have hb : a ≠ b := fun hab => hb (beq_iff_eq.2 hab.symm)
      cases hsplit : l.splitOn a with
      | nil => exact absurd hsplit (List.splitOn_ne_nil a l)
      | cons first pieces =>
        rw [hsplit, List.modifyHead_cons, List.mem_cons] at h
        obtain rfl | h := h
        · exact List.not_mem_cons_of_ne_of_not_mem hb (ih (hsplit ▸ List.mem_cons_self))
        · exact ih (hsplit ▸ List.mem_cons_of_mem first h)

/-- The first piece of a text is the whole text when it has no mark. -/
theorem head?_splitOn_eq_self {a : α} {l : List α} : (l.splitOn a).head? = some l ↔ a ∉ l := by
  constructor
  · intro h
    exact notMem_of_mem_splitOn (List.mem_of_mem_head? h)
  · intro h
    rw [List.splitOn_eq_singleton h, List.head?_cons]

/-- There is one piece more than marks. -/
theorem length_splitOn (a : α) (l : List α) : (l.splitOn a).length = l.count a + 1 := by
  induction l with
  | nil => rfl
  | cons b l ih =>
    rw [List.splitOn_cons_eq_if_modifyHead, List.count_cons]
    split
    · rw [List.length_cons, ih]
    · rw [List.length_modifyHead, ih, Nat.add_zero]

/-- The lines are as many as the pieces when none breaks. -/
theorem length_flatMap_splitOn (eol : α) (lines : List (List α)) :
    lines.length ≤ (lines.flatMap (·.splitOn eol)).length ∧
      ((lines.flatMap (·.splitOn eol)).length = lines.length ↔ ∀ line ∈ lines, eol ∉ line) := by
  induction lines with
  | nil => simp
  | cons line lines ih =>
    obtain ⟨hle, hiff⟩ := ih
    rw [List.flatMap_cons, List.length_append, length_splitOn, List.length_cons,
      List.forall_mem_cons, ← hiff, ← List.count_eq_zero]
    omega

/-- Lines without an end of line inside do not break. -/
theorem flatMap_splitOn {eol : α} {lines : List (List α)} (h : ∀ line ∈ lines, eol ∉ line) :
    lines.flatMap (·.splitOn eol) = lines := by
  induction lines with
  | nil => rfl
  | cons line lines ih =>
    obtain ⟨hline, hlines⟩ := List.forall_mem_cons.1 h
    rw [List.flatMap_cons, List.splitOn_eq_singleton hline, ih hlines, List.singleton_append]

/-! ## What is read back -/

/-- **A text is read back** exactly when the lines of its entries do not break and are read. -/
theorem readLines_written (eol : α) (read : List α → Option β) (write : β → List α)
    (entries : List β) :
    readLines eol read (terminated eol (entries.map write)) = some entries ↔
      ∀ entry ∈ entries, eol ∉ write entry ∧ read (write entry) = some entry := by
  rw [readLines, splitOn_terminated, readEntries_append_end]
  constructor
  · intro h
    have hlength := congrArg List.length h
    rw [List.length_map, List.length_map] at hlength
    have hwhole := (length_flatMap_splitOn eol (entries.map write)).2.1
      (hlength.trans (List.length_map write).symm)
    rw [flatMap_splitOn hwhole, List.map_map] at h
    intro entry hentry
    refine ⟨hwhole _ (List.mem_map_of_mem hentry), ?_⟩
    exact List.map_inj_left.1 h entry hentry
  · intro h
    rw [flatMap_splitOn, List.map_map]
    · exact List.map_inj_left.2 fun entry hentry => (h entry hentry).2
    · intro line hline
      obtain ⟨entry, hentry, rfl⟩ := List.mem_map.1 hline
      exact (h entry hentry).1

end Lib
