import SecLsmManager.Templating.ReadFile
import SecLsmManager.Tool.Command
import SecLsmManager.Lib.Words

/-!
# The input of the command line tool

The loop of `main` in `main-sec-lsm-manager-cmd.c`, which reads lines in `buffer` and cuts them in
`str`. What `read` meets is an argument (`FileEvent`), and each store is checked. A line of forty
tokens is cut outside of `str`, and a line that fills the buffer is taken for the end of the input
(`readCommands_iff`).
-/

namespace SecLsmManager

open Lib

/-! ## The source -/

/-- `sizeof buffer`. -/
def BUFFER_SIZE : Nat := 4000

/-- The count of entries of `str`, which no proof unfolds. -/
@[irreducible] def STR_SIZE : Nat := 40

def LF : UInt8 := 10

/-- The delimiters of `strtok`. -/
def isBlank (c : UInt8) : Bool := c = 32 ∨ c = 9

/-- A store in `buffer`; `none` outside of it. -/
def store (buffer : Nat → UInt8) (i : Nat) (bytes : List UInt8) : Option (Nat → UInt8) :=
  if i + bytes.length ≤ BUFFER_SIZE then some (writeCells buffer i bytes) else none

/-- The string of `buffer` at an index. -/
def stringAt (buffer : Nat → UInt8) (s : Nat) : CStr :=
  CStr.ofBytes (cells buffer s (BUFFER_SIZE - s))

/-- `strtok` from the index `s`: the index of the token, if there is one, the buffer and the index
where the next call starts. It is `none` if the string or a store leaves the buffer. -/
def strtok (buffer : Nat → UInt8) (s : Nat) : Option (Option Nat × (Nat → UInt8) × Nat) :=
  if 0 ∈ cells buffer s (BUFFER_SIZE - s) then
    let text := (stringAt buffer s).bytes
    let start := s + (text.takeWhile isBlank).length
    let text := text.dropWhile isBlank
    let stop := start + (text.takeWhile (! isBlank ·)).length
    if text = [] then some (none, buffer, start)
    else if text.dropWhile (! isBlank ·) = [] then some (some start, buffer, stop)
    else (store buffer stop [0]).map fun buffer => (some start, buffer, stop + 1)
  else none

/-- The loop that fills `str`, where `room` is the count of its entries from `nstr` on; `none` if a
store leaves `str` or `buffer`. -/
def tokenLoop : Nat → (Nat → UInt8) → Nat → Option (List Nat × (Nat → UInt8))
  | 0, _, _ => none
  | room + 1, buffer, s =>
    match strtok buffer s with
    | none => none
    | some (none, buffer, _) => some ([], buffer)
    | some (some token, buffer, s) =>
      (tokenLoop room buffer s).map fun (str, buffer) => (token :: str, buffer)

/-- How the program ends: at the end of the input, by a command, within a `do_all` that does not
end, or with a store outside of `buffer` or `str`. -/
inductive ToolEnd
  | endOfInput
  | exited (status : Int)
  | stuck
  | fault
  deriving DecidableEq

/-- The tokens that were given to `do_all`, line by line, and how the program ends. -/
structure Session where
  given : List (List CStr)
  ending : ToolEnd
  deriving DecidableEq

/-- The variables of the loop, with the tokens that were given to `do_all`. -/
structure ToolInput where
  buffer : Nat → UInt8
  bufill : Nat
  given : List (List CStr)

/-- The loop on the lines of `buffer`, where `answers n` are the codes of the calls of the `n`-th
`do_all`. It makes at most as many turns as there are bytes. -/
def lineLoop (answers : Nat → Nat → Int) : Nat → ToolInput → Except Session ToolInput
  | 0, input => .ok input
  | turns + 1, input =>
    match (cells input.buffer 0 input.bufill).idxOf? LF with
    | none => .ok input
    | some p =>
      match store input.buffer p [0] with
      | none => .error ⟨input.given, .fault⟩
      | some buffer =>
        match tokenLoop STR_SIZE buffer 0 with
        | none => .error ⟨input.given, .fault⟩
        | some (str, buffer) =>
          let tokens := str.map (stringAt buffer)
          let given := input.given ++ [tokens]
          match doAll false (answers input.given.length) tokens.length tokens with
          | none => .error ⟨given, .stuck⟩
          | some ⟨_, some status⟩ => .error ⟨given, .exited status⟩
          | some ⟨_, none⟩ =>
            let bufill := input.bufill - (p + 1)
            if bufill = 0 then .ok ⟨buffer, bufill, given⟩
            else
              match store buffer 0 (cells buffer (p + 1) bufill) with
              | none => .error ⟨given, .fault⟩
              | some buffer => lineLoop answers turns ⟨buffer, bufill, given⟩

/-- More turns than the loop makes on what `read` meets. -/
def inputSize : List FileEvent → Nat
  | [] => 0
  | .bytes _ more :: events => more.length + 1 + inputSize events
  | .error _ :: events => 1 + inputSize events

/-- Each read takes something from the input, or comes to its end. -/
theorem inputSize_fileRead (count : Nat) (events : List FileEvent) :
    (fileRead count events).1 = .data [] ∨
      inputSize (fileRead count events).2 < inputSize events := by
  cases events with
  | nil => exact .inl rfl
  | cons event events =>
    cases event with
    | error e => simp [fileRead, inputSize]
    | bytes first more =>
      cases count with
      | zero => exact .inl rfl
      | succ count =>
        right
        cases hdrop : (first :: more).drop (count + 1) with
        | nil =>
          simp only [fileRead, hdrop, inputSize]
          omega
        | cons next rest =>
          have hlength := congrArg List.length hdrop
          rw [List.length_drop, List.length_cons, List.length_cons] at hlength
          simp only [fileRead, hdrop, inputSize]
          omega

/-- The loop of `main`. -/
def mainLoop (answers : Nat → Nat → Int) (events : List FileEvent) (input : ToolInput) :
    Session :=
  match _h : fileRead (BUFFER_SIZE - input.bufill) events with
  | (.error _, rest) => mainLoop answers rest input
  | (.data [], _) => ⟨input.given, .endOfInput⟩
  | (.data (first :: more), rest) =>
    match store input.buffer input.bufill (first :: more) with
    | none => ⟨input.given, .fault⟩
    | some buffer =>
      let bufill := input.bufill + (first :: more).length
      match lineLoop answers bufill ⟨buffer, bufill, input.given⟩ with
      | .error session => session
      | .ok next => mainLoop answers rest next
termination_by inputSize events
decreasing_by
  all_goals
    have hsize := inputSize_fileRead (BUFFER_SIZE - input.bufill) events
    rw [_h] at hsize
    simpa using hsize

/-- The commands that the tool reads on its standard input. -/
def readCommands (answers : Nat → Nat → Int) (events : List FileEvent) : Session :=
  mainLoop answers events ⟨fun _ => 0, 0, []⟩

/-! ## Strings of the buffer -/

/-- A NUL is stored in the buffer. -/
theorem store_nul (buffer : Nat → UInt8) {i : Nat} (h : i < BUFFER_SIZE) :
    ∃ buffer', store buffer i [0] = some buffer' ∧ buffer' i = 0 ∧
      ∀ k, k ≠ i → buffer' k = buffer k := by
  refine ⟨Function.update buffer i 0, ?_, Function.update_self .., fun k hk => ?_⟩
  · rw [store, List.length_singleton, if_pos (Nat.succ_le_of_lt h), writeCells_cons,
      writeCells_nil]
  · exact Function.update_of_ne hk _ _

/-- The buffer has the string at the index `s`. -/
structure HasString (buffer : Nat → UInt8) (s : Nat) (text : List UInt8) : Prop where
  text_eq : cells buffer s text.length = text
  stop : buffer (s + text.length) = 0
  nonul : 0 ∉ text
  size : s + text.length < BUFFER_SIZE

namespace HasString

variable {buffer buffer' : Nat → UInt8} {s : Nat} {text l r : List UInt8}

/-- The buffer from the string on: its characters, the NUL and what is left of the buffer. -/
theorem cells_eq (h : HasString buffer s text) :
    ∃ rest, cells buffer s (BUFFER_SIZE - s) = text ++ 0 :: rest := by
  have hsize := h.size
  obtain ⟨k, hk⟩ : ∃ k, BUFFER_SIZE - s = text.length + (1 + k) :=
    ⟨BUFFER_SIZE - s - text.length - 1, by omega⟩
  refine ⟨cells buffer (s + text.length + 1) k, ?_⟩
  rw [hk, cells_append, h.text_eq, cells_append, cells_succ_last, cells_zero, Nat.add_zero, h.stop]
  rfl

theorem stringAt (h : HasString buffer s text) : stringAt buffer s = ⟨text, h.nonul⟩ := by
  obtain ⟨rest, hrest⟩ := h.cells_eq
  rw [SecLsmManager.stringAt, hrest, CStr.ofBytes_append_nul]
  exact CStr.ext (CStr.ofBytes_of_nonul h.nonul)

/-- Its NUL is in the buffer. -/
theorem zero_mem (h : HasString buffer s text) : 0 ∈ cells buffer s (BUFFER_SIZE - s) := by
  obtain ⟨rest, hrest⟩ := h.cells_eq
  rw [hrest]
  simp

/-- It is there in any buffer that agrees on its characters. -/
theorem congr (h : HasString buffer s text)
    (heq : ∀ k, s ≤ k → k ≤ s + text.length → buffer' k = buffer k) :
    HasString buffer' s text where
  text_eq := (cells_congr fun k h1 h2 => heq k h1 h2.le).trans h.text_eq
  stop := (heq _ (Nat.le_add_right s _) le_rfl).trans h.stop
  nonul := h.nonul
  size := h.size

/-- The first characters of a string. -/
theorem left (h : HasString buffer s (l ++ r)) : cells buffer s l.length = l := by
  have htext := h.text_eq
  rw [List.length_append, cells_append] at htext
  exact (List.append_inj htext (by simp)).1

/-- The rest of a string is one, further on. -/
theorem right (h : HasString buffer s (l ++ r)) : HasString buffer (s + l.length) r where
  text_eq := by
    have htext := h.text_eq
    rw [List.length_append, cells_append] at htext
    exact (List.append_inj htext (by simp)).2
  stop := by
    have hstop := h.stop
    rwa [List.length_append, ← Nat.add_assoc] at hstop
  nonul h0 := h.nonul (List.mem_append_right l h0)
  size := by
    have hsize := h.size
    rwa [List.length_append, ← Nat.add_assoc] at hsize

/-- The first part of a string, once a NUL is stored behind it. -/
theorem cut {c : UInt8} (h : HasString buffer s (l ++ c :: r)) :
    ∃ buffer', store buffer (s + l.length) [0] = some buffer' ∧ HasString buffer' s l ∧
      HasString buffer' (s + l.length + 1) r ∧
      ∀ k, k ≠ s + l.length → buffer' k = buffer k := by
  have hsize := h.size
  rw [List.length_append, List.length_cons] at hsize
  obtain ⟨buffer', hstore, hnul, hother⟩ := store_nul buffer (i := s + l.length) (by omega)
  refine ⟨buffer', hstore, ?_, ?_, hother⟩
  · exact {
      text_eq := (cells_congr fun k _ h2 => hother k (by omega)).trans h.left
      stop := hnul
      nonul := fun h0 => h.nonul (List.mem_append_left _ h0)
      size := by omega }
  · have hright : HasString buffer (s + (l ++ [c]).length) r := by
      refine HasString.right (l := l ++ [c]) ?_
      simpa using h
    rw [List.length_append, List.length_singleton, ← Nat.add_assoc] at hright
    exact hright.congr fun k h1 _ => hother k (by omega)

end HasString

/-! ## The tokens of a line -/

variable {buffer : Nat → UInt8} {s : Nat} {line : List UInt8}

/-- `strtok` on a string: the blanks are skipped, and the word behind them is cut off. -/
theorem strtok_eq (h : HasString buffer s line) :
    strtok buffer s =
      if line.dropWhile isBlank = [] then
        some (none, buffer, s + (line.takeWhile isBlank).length)
      else if (line.dropWhile isBlank).dropWhile (! isBlank ·) = [] then
        some (some (s + (line.takeWhile isBlank).length), buffer,
          s + (line.takeWhile isBlank).length +
            ((line.dropWhile isBlank).takeWhile (! isBlank ·)).length)
      else
        (store buffer (s + (line.takeWhile isBlank).length +
          ((line.dropWhile isBlank).takeWhile (! isBlank ·)).length) [0]).map fun buffer' =>
            (some (s + (line.takeWhile isBlank).length), buffer',
              s + (line.takeWhile isBlank).length +
                ((line.dropWhile isBlank).takeWhile (! isBlank ·)).length + 1) := by
  have htext : (stringAt buffer s).bytes = line := by rw [h.stringAt]
  rw [strtok, if_pos h.zero_mem]
  simp only [htext]

/-- A line without words has no token. -/
theorem strtok_none (h : HasString buffer s line) (hwords : words isBlank line = []) :
    ∃ s', strtok buffer s = some (none, buffer, s') :=
  ⟨_, by rw [strtok_eq h, if_pos (words_eq_nil_iff.1 hwords)]⟩

/-- A token: the first word of the line is a string of the buffer, and what follows it is the string
where the next call starts. -/
structure IsToken (buffer : Nat → UInt8) (s : Nat) (line : List UInt8) (token : Nat)
    (buffer' : Nat → UInt8) (s' : Nat) (word line' : List UInt8) : Prop where
  call : strtok buffer s = some (some token, buffer', s')
  words_eq : words isBlank line = word :: words isBlank line'
  hasString : HasString buffer' token word
  rest : HasString buffer' s' line'
  start_le : s ≤ s'
  end_eq : s' + line'.length = s + line.length
  kept : ∀ k, k ≤ token + word.length → k < s' ∨ s' + line'.length ≤ k
  others : ∀ k, k < s ∨ s + line.length ≤ k → buffer' k = buffer k

/-- A line with words has a token, its first one. -/
theorem strtok_some (h : HasString buffer s line) (hwords : words isBlank line ≠ []) :
    ∃ token buffer' s' word line', IsToken buffer s line token buffer' s' word line' := by
  have hrest : line.dropWhile isBlank ≠ [] := fun hnil => hwords (words_eq_nil_iff.2 hnil)
  have hcall := strtok_eq h
  have hsplit := words_eq_cons hrest
  have hline := List.takeWhile_append_dropWhile (p := isBlank) (l := line)
  have hword := List.takeWhile_append_dropWhile (p := (! isBlank ·)) (l := line.dropWhile isBlank)
  rw [if_neg hrest] at hcall
  generalize line.takeWhile isBlank = blanks at hcall hline
  generalize hright : (line.dropWhile isBlank).takeWhile (! isBlank ·) = word
    at hcall hsplit hword
  cases htail : (line.dropWhile isBlank).dropWhile (! isBlank ·) with
  | nil =>
    rw [htail, if_pos rfl] at hcall
    rw [htail] at hsplit hword
    have hlength : line.length = blanks.length + word.length := by
      rw [← hline, ← hword]
      simp
    rw [← hline, ← hword, List.append_nil] at h
    have hnil : HasString buffer (s + blanks.length + word.length) [] := by
      refine HasString.right (l := word) ?_
      simpa using h.right
    exact ⟨_, _, _, word, [], {
      call := hcall
      words_eq := hsplit
      hasString := h.right
      rest := hnil
      start_le := by omega
      end_eq := by
        rw [hlength, List.length_nil]
        omega
      kept := by
        intro k _
        rw [List.length_nil]
        omega
      others := fun _ _ => rfl }⟩
  | cons c line' =>
    have hc : isBlank c = true := by
      have hhead := List.head?_dropWhile_not (! isBlank ·) (line.dropWhile isBlank)
      simpa [htail] using hhead
    rw [htail, if_neg (List.cons_ne_nil c line')] at hcall
    rw [htail, words_cons_of_sep hc] at hsplit
    rw [htail] at hword
    have hlength : line.length = blanks.length + (word.length + (line'.length + 1)) := by
      rw [← hline, ← hword]
      simp
    rw [← hline, ← hword] at h
    obtain ⟨buffer', hstore, hstring, hrest', hothers⟩ := h.right.cut
    rw [hstore, Option.map_some] at hcall
    exact ⟨_, _, _, word, line', {
      call := hcall
      words_eq := hsplit
      hasString := hstring
      rest := hrest'
      start_le := by omega
      end_eq := by omega
      kept := by omega
      others := fun k hk => hothers k (by omega) }⟩

/-- The tokens of a line: its words between blanks. -/
def lineTokens (line : List UInt8) : List CStr := (words isBlank line).map CStr.ofBytes

/-- The tokens of a line fit when there is an entry more for the end. -/
theorem tokenLoop_some {room : Nat} (h : HasString buffer s line)
    (hroom : (lineTokens line).length < room) :
    ∃ str buffer', tokenLoop room buffer s = some (str, buffer') ∧
      str.map (stringAt buffer') = lineTokens line ∧
      ∀ k, k < s ∨ s + line.length ≤ k → buffer' k = buffer k := by
  induction room generalizing buffer s line with
  | zero => exact absurd hroom (Nat.not_lt_zero _)
  | succ room ih =>
    by_cases hwords : words isBlank line = []
    · obtain ⟨s', hcall⟩ := strtok_none h hwords
      exact ⟨[], buffer, by rw [tokenLoop, hcall], by rw [lineTokens, hwords]; rfl, fun _ _ => rfl⟩
    · obtain ⟨token, buffer', s', word, line', htoken⟩ := strtok_some h hwords
      have htokens : lineTokens line = .ofBytes word :: lineTokens line' := by
        rw [lineTokens, htoken.words_eq]
        rfl
      rw [htokens, List.length_cons] at hroom
      obtain ⟨str, buffer'', hloop, hstr, hothers⟩ := ih htoken.rest (Nat.lt_of_succ_lt_succ hroom)
      refine ⟨token :: str, buffer'', by rw [tokenLoop, htoken.call]; simp [hloop], ?_, ?_⟩
      · -- the next calls leave the token
        have hstring : HasString buffer'' token word :=
          htoken.hasString.congr fun k _ hk => hothers k (htoken.kept k hk)
        rw [List.map_cons, hstring.stringAt, hstr, htokens]
        congr 1
        exact CStr.ext (CStr.ofBytes_of_nonul hstring.nonul).symm
      · have hstart := htoken.start_le
        have hend := htoken.end_eq
        exact fun k hk => (hothers k (by omega)).trans (htoken.others k hk)

/-- Otherwise an entry is stored behind those of `str`. -/
theorem tokenLoop_none {room : Nat} (h : HasString buffer s line)
    (hroom : room ≤ (lineTokens line).length) : tokenLoop room buffer s = none := by
  induction room generalizing buffer s line with
  | zero => rfl
  | succ room ih =>
    have hwords : words isBlank line ≠ [] := by
      intro hnil
      rw [lineTokens, hnil] at hroom
      exact absurd hroom (Nat.not_succ_le_zero room)
    obtain ⟨token, buffer', s', word, line', htoken⟩ := strtok_some h hwords
    rw [lineTokens, htoken.words_eq, List.map_cons, List.length_cons] at hroom
    rw [tokenLoop, htoken.call]
    simp only [ih htoken.rest (Nat.le_of_succ_le_succ hroom), Option.map_none]

/-! ## What `do_all` comes back from -/

/-- What `do_all` does without the option to quit does not depend on the codes of the calls. -/
theorem doAll_answers (answers answers' : Nat → Int) (fuel : Nat) (tokens : List CStr) :
    doAll false answers fuel tokens = doAll false answers' fuel tokens := by
  induction fuel generalizing answers answers' tokens with
  | zero => cases tokens <;> rfl
  | succ fuel ih =>
    cases tokens with
    | nil => rfl
    | cons name av =>
      simp only [doAll, Bool.false_eq_true, false_and, if_false]
      rw [ih]

/-- The loop makes at most a turn for each token, or it does not end. -/
theorem doAll_turns (answers : Nat → Int) {fuel fuel' : Nat} {tokens : List CStr}
    (hfuel : tokens.length ≤ fuel) (hfuel' : tokens.length ≤ fuel') :
    doAll false answers fuel tokens = doAll false answers fuel' tokens := by
  induction fuel generalizing answers fuel' tokens with
  | zero =>
    obtain rfl := List.length_eq_zero_iff.1 (Nat.le_zero.1 hfuel)
    cases fuel' <;> rfl
  | succ fuel ih =>
    cases tokens with
    | nil => cases fuel' <;> rfl
    | cons token tokens =>
      obtain ⟨fuel', rfl⟩ := Nat.exists_eq_add_one_of_ne_zero (Nat.ne_of_gt
        (Nat.lt_of_lt_of_le (Nat.succ_pos _) hfuel'))
      rw [List.length_cons] at hfuel hfuel'
      cases hdrop : (token :: tokens).dropWhile isSep with
      | nil =>
        have hsep := List.dropWhile_eq_nil_iff.1 hdrop
        rw [doAll_separators (List.cons_ne_nil _ _) hsep,
          doAll_separators (List.cons_ne_nil _ _) hsep]
      | cons name av =>
        rw [doAll_succ answers hdrop, doAll_succ answers hdrop, List.drop_succ_cons]
        rw [ih]
        · rw [List.length_drop]
          omega
        · rw [List.length_drop]
          omega

/-- More turns than `do_all` makes make no difference. -/
theorem doAll_mono {answers : Nat → Int} {fuel fuel' : Nat} (hle : fuel ≤ fuel')
    {tokens : List CStr} {run : Run} (h : doAll false answers fuel tokens = some run) :
    doAll false answers fuel' tokens = some run := by
  induction fuel generalizing answers fuel' tokens run with
  | zero =>
    cases tokens with
    | nil => cases fuel' <;> exact h
    | cons token tokens => cases h
  | succ fuel ih =>
    obtain ⟨fuel', rfl⟩ := Nat.exists_eq_add_one_of_ne_zero (Nat.ne_of_gt
      (Nat.lt_of_lt_of_le (Nat.succ_pos _) hle))
    cases hdrop : tokens.dropWhile isSep with
    | nil =>
      cases tokens with
      | nil => exact h
      | cons token tokens =>
        rw [doAll_separators (List.cons_ne_nil _ _) (List.dropWhile_eq_nil_iff.1 hdrop)] at h
        cases h
    | cons name av =>
      rw [doAll_succ answers hdrop] at h ⊢
      split at h
      next hquit =>
        rw [if_pos hquit]
        exact h
      next hquit =>
        obtain ⟨run', hrun', rfl⟩ := Option.map_eq_some_iff.1 h
        rw [if_neg hquit, ih (Nat.le_of_succ_le_succ hle) hrun', Option.map_some]

/-- The list of tokens is one from which `do_all` comes back. -/
def ComesBack (tokens : List CStr) : Prop :=
  ∃ fuel commands, doAll false (fun _ => 0) fuel tokens = some ⟨commands, none⟩

/-- Whether it comes back is seen in as many turns as there are tokens, whatever the calls answer.
-/
theorem comesBack_iff (answers : Nat → Int) (tokens : List CStr) :
    ComesBack tokens ↔
      ∃ commands, doAll false answers tokens.length tokens = some ⟨commands, none⟩ := by
  constructor
  · rintro ⟨fuel, commands, hrun⟩
    refine ⟨commands, ?_⟩
    rw [doAll_answers _ (fun _ => 0)]
    have hmono := doAll_mono (Nat.le_max_left fuel tokens.length) hrun
    rwa [doAll_turns _ (Nat.le_max_right fuel tokens.length) le_rfl] at hmono
  · rintro ⟨commands, hrun⟩
    rw [doAll_answers _ (fun _ => 0)] at hrun
    exact ⟨tokens.length, commands, hrun⟩

/-- It comes back from tokens without a separator and without a `quit`. -/
theorem comesBack_of_plain {tokens : List CStr} (hsep : ∀ token ∈ tokens, isSep token = false)
    (hquit : .lit "quit" ∉ tokens) : ComesBack tokens :=
  ⟨tokens.length, _, doAll_segments hsep hquit le_rfl _⟩

/-! ## Lines -/

/-- What the standard input delivers. -/
def inputBytes : List FileEvent → List UInt8
  | [] => []
  | .bytes first more :: events => first :: more ++ inputBytes events
  | .error _ :: events => inputBytes events

/-- The lines of the input that have their end. -/
def completeLines (input : List UInt8) : List (List UInt8) := (input.splitOn LF).dropLast

/-- An input without a line feed has no line. -/
theorem completeLines_open {input : List UInt8} (h : LF ∉ input) : completeLines input = [] := by
  rw [completeLines, List.splitOn_eq_singleton h]
  rfl

/-- The first line of an input. -/
theorem completeLines_cons {line : List UInt8} (h : LF ∉ line) (input : List UInt8) :
    completeLines (line ++ LF :: input) = line :: completeLines input := by
  rw [completeLines, List.splitOn_append_cons_self, List.splitOn_eq_singleton h,
    List.singleton_append, List.dropLast_cons_of_ne_nil (List.splitOn_ne_nil LF input)]
  rfl

/-- What the tool does with the lines. -/
def served : List (List UInt8) → Session
  | [] => ⟨[], .endOfInput⟩
  | line :: lines =>
    if BUFFER_SIZE ≤ line.length then ⟨[], .endOfInput⟩
    else if STR_SIZE ≤ (lineTokens line).length then ⟨[], .fault⟩
    else
      match doAll false (fun _ => 0) (lineTokens line).length (lineTokens line) with
      | none => ⟨[lineTokens line], .stuck⟩
      | some ⟨_, some status⟩ => ⟨[lineTokens line], .exited status⟩
      | some ⟨_, none⟩ => ⟨lineTokens line :: (served lines).given, (served lines).ending⟩

/-- A session that goes on. -/
def Session.after (given : List (List CStr)) (session : Session) : Session :=
  { session with given := given ++ session.given }

/-- A line that fills the buffer ends the session. -/
theorem served_full {pending : List UInt8} (hline : LF ∉ pending)
    (hfull : BUFFER_SIZE ≤ pending.length) (more : List UInt8) :
    served (completeLines (pending ++ more)) = ⟨[], .endOfInput⟩ := by
  by_cases hmore : LF ∈ more
  · obtain ⟨a, b, rfl, ha⟩ := List.eq_append_cons_of_mem hmore
    have hline' : LF ∉ pending ++ a := by simp [hline, ha]
    rw [← List.append_assoc, completeLines_cons hline', served, if_pos]
    rw [List.length_append]
    omega
  · rw [completeLines_open (by simp [hline, hmore]), served]

/-! ## The loops -/

/-- What is in the buffer and not yet cut. -/
structure Uncut (input : ToolInput) (text : List UInt8) : Prop where
  text_eq : cells input.buffer 0 input.bufill = text
  nonul : 0 ∉ text
  size : input.bufill ≤ BUFFER_SIZE

namespace Uncut

variable {input : ToolInput} {text rest : List UInt8}

/-- The buffer is filled as far as the text. -/
theorem length_eq (h : Uncut input text) : text.length = input.bufill := by
  rw [← h.text_eq, cells_length]

/-- The end of a line is replaced by a NUL. -/
theorem cut (h : Uncut input (line ++ LF :: rest)) :
    ∃ buffer', store input.buffer line.length [0] = some buffer' ∧ HasString buffer' 0 line ∧
      cells buffer' (line.length + 1) rest.length = rest := by
  have hlength := h.length_eq
  have hsize := h.size
  rw [List.length_append, List.length_cons] at hlength
  obtain ⟨buffer', hstore, hstop, hothers⟩ := store_nul input.buffer (i := line.length) (by omega)
  have htext := h.text_eq
  rw [← hlength, cells_append, Nat.zero_add] at htext
  obtain ⟨hleft, hright⟩ := List.append_inj htext (cells_length _ _ _)
  rw [cells_succ, List.cons.injEq] at hright
  refine ⟨buffer', hstore, ?_, ?_⟩
  · exact {
      text_eq := (cells_congr fun k _ h2 => hothers k (by omega)).trans hleft
      stop := by rw [Nat.zero_add, hstop]
      nonul := fun h0 => h.nonul (List.mem_append_left _ h0)
      size := by omega }
  · exact (cells_congr fun k h1 _ => hothers k (by omega)).trans hright.2

end Uncut

variable {answers : Nat → Nat → Int} {input : ToolInput} {text rest : List UInt8}

/-- The first line feed is at the end of the first line. -/
theorem idxOf?_append_cons {l : List UInt8} (h : LF ∉ l) (r : List UInt8) :
    (l ++ LF :: r).idxOf? LF = some l.length := by
  induction l with
  | nil => simp [List.idxOf?_cons]
  | cons a l ih =>
    obtain ⟨ha, hl⟩ := not_or.1 (mt List.mem_cons.2 h)
    rw [List.cons_append, List.idxOf?_cons, if_neg (by simpa using Ne.symm ha), ih hl]
    rfl

/-- A turn of the loop on a line. -/
theorem lineLoop_line (h : Uncut input (line ++ LF :: rest)) (hline : LF ∉ line) (turns : Nat) :
    (STR_SIZE ≤ (lineTokens line).length ∧
      lineLoop answers (turns + 1) input = .error ⟨input.given, .fault⟩) ∨
    ((lineTokens line).length < STR_SIZE ∧
      match doAll false (fun _ => 0) (lineTokens line).length (lineTokens line) with
      | none => lineLoop answers (turns + 1) input =
          .error ⟨input.given ++ [lineTokens line], .stuck⟩
      | some ⟨_, some status⟩ => lineLoop answers (turns + 1) input =
          .error ⟨input.given ++ [lineTokens line], .exited status⟩
      | some ⟨_, none⟩ => ∃ next, Uncut next rest ∧
          next.given = input.given ++ [lineTokens line] ∧
          lineLoop answers (turns + 1) input = lineLoop answers turns next) := by
  obtain ⟨buffer, hstore, hstring, hrest⟩ := h.cut
  rw [lineLoop, h.text_eq, idxOf?_append_cons hline]
  simp only [hstore]
  obtain hroom | hroom := Nat.lt_or_ge (lineTokens line).length STR_SIZE
  · obtain ⟨str, buffer', hloop, hstr, hothers⟩ := tokenLoop_some hstring hroom
    refine .inr ⟨hroom, ?_⟩
    simp only [hloop, hstr, doAll_answers (answers input.given.length) (fun _ => 0)]
    cases hrun : doAll false (fun _ => 0) (lineTokens line).length (lineTokens line) with
    | none => rfl
    | some run =>
      obtain ⟨commands, exit⟩ := run
      cases exit with
      | some status => rfl
      | none =>
        have hlength := h.length_eq
        have hsize := h.size
        rw [List.length_append, List.length_cons] at hlength
        have hbufill : input.bufill - (line.length + 1) = rest.length := by omega
        have hnul : 0 ∉ rest := fun h0 =>
          h.nonul (List.mem_append_right line (List.mem_cons_of_mem LF h0))
        have hrest' : cells buffer' (line.length + 1) rest.length = rest :=
          (cells_congr fun k h1 _ => hothers k (.inr (by omega))).trans hrest
        simp only [hbufill]
        by_cases hempty : rest.length = 0
        · obtain rfl := List.length_eq_zero_iff.1 hempty
          refine ⟨⟨buffer', 0, _⟩, ⟨cells_zero _ _, hnul, Nat.zero_le _⟩, rfl, ?_⟩
          cases turns <;> simp [lineLoop]
        · have hstore' : store buffer' 0 rest = some (writeCells buffer' 0 rest) := by
            rw [store, if_pos (by omega)]
          refine ⟨⟨writeCells buffer' 0 rest, rest.length, _⟩,
            ⟨cells_writeCells buffer' 0 rest, hnul, by simp only; omega⟩, rfl, ?_⟩
          rw [if_neg hempty, hrest', hstore']
  · exact .inl ⟨hroom, by simp only [tokenLoop_none hstring hroom]⟩

/-- The loop on the lines serves those that the buffer has. -/
theorem lineLoop_spec (answers : Nat → Nat → Int) (h : Uncut input text) {turns : Nat}
    (hturns : input.bufill ≤ turns) (more : List UInt8) :
    match lineLoop answers turns input with
    | .error session =>
      session = (served (completeLines (text ++ more))).after input.given
    | .ok next => ∃ text', Uncut next text' ∧ LF ∉ text' ∧
        (served (completeLines (text' ++ more))).after next.given =
          (served (completeLines (text ++ more))).after input.given := by
  induction turns generalizing input text with
  | zero =>
    have htext : text = [] := by
      rw [← h.text_eq, Nat.le_zero.1 hturns, cells_zero]
    exact ⟨text, h, by simp [htext], rfl⟩
  | succ turns ih =>
    by_cases hmem : LF ∈ text
    · obtain ⟨line, rest, rfl, hline⟩ := List.eq_append_cons_of_mem hmem
      have hlength := h.length_eq
      have hsize := h.size
      rw [List.length_append, List.length_cons] at hlength
      have hserved : served (completeLines (line ++ LF :: rest ++ more)) =
          served (line :: completeLines (rest ++ more)) := by
        rw [List.append_assoc, List.cons_append, completeLines_cons hline]
      rw [hserved, served, if_neg (by omega)]
      obtain ⟨hroom, hloop⟩ | ⟨hroom, hloop⟩ := lineLoop_line h hline turns
      · rw [hloop, if_pos hroom]
        simp [Session.after]
      · rw [if_neg (Nat.not_le.2 hroom)]
        cases hrun : doAll false (fun _ => 0) (lineTokens line).length (lineTokens line) with
        | none =>
          rw [hrun] at hloop
          rw [hloop]
          rfl
        | some run =>
          obtain ⟨commands, exit⟩ := run
          rw [hrun] at hloop
          cases exit with
          | some status =>
            rw [hloop]
            rfl
          | none =>
            obtain ⟨next, hnext, hgiven, hloop⟩ := hloop
            have hbufill := hnext.length_eq
            have hrest := ih hnext (by omega)
            rw [hloop]
            simpa [Session.after, hgiven] using hrest
    · rw [lineLoop, h.text_eq, List.idxOf?_eq_none_iff.2 hmem]
      exact ⟨text, h, hmem, rfl⟩

/-- What `read` gives and leaves. -/
structure Reads (count : Nat) (events : List FileEvent) (bytes : List UInt8)
    (rest : List FileEvent) : Prop where
  length_le : bytes.length ≤ count
  bytes_eq : inputBytes events = bytes ++ inputBytes rest
  nonul : (∀ event ∈ events, event.NoNul) → 0 ∉ bytes ∧ ∀ event ∈ rest, event.NoNul

/-- A read that fails delivers nothing. -/
theorem fileRead_error {count : Nat} {events rest : List FileEvent} {e : Errno}
    (h : fileRead count events = (.error e, rest)) : Reads count events [] rest := by
  cases events with
  | nil => cases h
  | cons event events =>
    cases event with
    | bytes first more => cases h
    | error e' =>
      cases h
      exact ⟨Nat.zero_le _, rfl, fun hall => ⟨List.not_mem_nil, (List.forall_mem_cons.1 hall).2⟩⟩

/-- A read delivers the next bytes, or is at the end of the input. -/
theorem fileRead_data {count : Nat} {events rest : List FileEvent} {bytes : List UInt8}
    (h : fileRead count events = (.data bytes, rest)) :
    (bytes = [] ∧ (events = [] ∨ count = 0)) ∨ (bytes ≠ [] ∧ Reads count events bytes rest) := by
  cases events with
  | nil =>
    cases h
    exact .inl ⟨rfl, .inl rfl⟩
  | cons event events =>
    cases event with
    | error e => cases h
    | bytes first more =>
      rw [fileRead, Prod.mk.injEq, ReadAnswer.data.injEq] at h
      obtain ⟨rfl, rfl⟩ := h
      cases count with
      | zero => exact .inl ⟨rfl, .inr rfl⟩
      | succ count =>
        have hsplit := List.take_append_drop (count + 1) (first :: more)
        refine .inr ⟨by simp, List.length_take_le _ _, ?_, fun hall => ?_⟩
        · rw [inputBytes]
          conv_lhs => rw [← hsplit, List.append_assoc]
          cases (first :: more).drop (count + 1) <;> rfl
        · obtain ⟨hfirst, hevents⟩ := List.forall_mem_cons.1 hall
          have hdrop : 0 ∉ (first :: more).drop (count + 1) := fun h0 =>
            hfirst (List.mem_of_mem_drop h0)
          refine ⟨fun h0 => hfirst (List.mem_of_mem_take h0), ?_⟩
          cases hrest : (first :: more).drop (count + 1) with
          | nil => exact hevents
          | cons next rest =>
            rw [hrest] at hdrop
            exact List.forall_mem_cons.2 ⟨hdrop, hevents⟩

/-- The bytes that `read` stores come behind those that wait. -/
theorem Uncut.read (h : Uncut input text) {bytes : List UInt8} (hnul : 0 ∉ bytes)
    (hlength : bytes.length ≤ BUFFER_SIZE - input.bufill) :
    ∃ buffer, store input.buffer input.bufill bytes = some buffer ∧
      Uncut ⟨buffer, input.bufill + bytes.length, input.given⟩ (text ++ bytes) := by
  have hsize := h.size
  refine ⟨writeCells input.buffer input.bufill bytes, ?_, ?_, ?_, ?_⟩
  · rw [store, if_pos (by omega)]
  · have hold : cells (writeCells input.buffer input.bufill bytes) 0 input.bufill = text := by
      rw [← h.text_eq]
      exact cells_congr fun k _ h2 => writeCells_of_lt _ _ (by omega)
    simp only [cells_append, Nat.zero_add, hold, cells_writeCells]
  · simp [h.nonul, hnul]
  · simp only
    omega

/-- The loop serves the complete lines of the input, however it is split. -/
theorem mainLoop_eq (answers : Nat → Nat → Int) (events : List FileEvent) (input : ToolInput)
    (hnul : ∀ event ∈ events, event.NoNul) (h : Uncut input text) (htext : LF ∉ text) :
    mainLoop answers events input =
      (served (completeLines (text ++ inputBytes events))).after input.given := by
  induction hsize : inputSize events using Nat.strong_induction_on
    generalizing events input text with
  | _ size ih =>
    have hlt := inputSize_fileRead (BUFFER_SIZE - input.bufill) events
    rw [mainLoop]
    split
    next e rest hread =>
      rw [hread] at hlt
      have hreads := fileRead_error hread
      have hrest := ih (inputSize rest) (by simpa [← hsize] using hlt) rest input
        (hreads.nonul hnul).2 h htext rfl
      rw [hrest, hreads.bytes_eq, List.nil_append]
    next rest hread =>
      obtain ⟨-, rfl | hcount⟩ | ⟨hne, -⟩ := fileRead_data hread
      · rw [inputBytes, List.append_nil, completeLines_open htext]
        simp [served, Session.after]
      · have hfull : BUFFER_SIZE ≤ text.length := by
          rw [h.length_eq]
          omega
        rw [served_full htext hfull]
        simp [Session.after]
      · exact absurd rfl hne
    next first more rest hread =>
      rw [hread] at hlt
      obtain ⟨hnil, -⟩ | ⟨-, hreads⟩ := fileRead_data hread
      · cases hnil
      obtain ⟨hbytes, hevents⟩ := hreads.nonul hnul
      obtain ⟨buffer, hstore, huncut⟩ := h.read hbytes hreads.length_le
      have hlines := lineLoop_spec answers huncut le_rfl (inputBytes rest)
      rw [List.append_assoc, ← hreads.bytes_eq] at hlines
      simp only [hstore]
      split
      next session hloop =>
        rw [hloop] at hlines
        exact hlines
      next next' hloop =>
        rw [hloop] at hlines
        obtain ⟨text', hnext, htext', hserved⟩ := hlines
        rw [← hserved]
        exact ih (inputSize rest) (by simpa [← hsize] using hlt) rest next' hevents hnext htext' rfl

/-- The two loops of the tool serve the complete lines of the input, however it is cut. -/
theorem readCommands_eq (answers : Nat → Nat → Int) (events : List FileEvent)
    (hnul : ∀ event ∈ events, event.NoNul) :
    readCommands answers events = served (completeLines (inputBytes events)) := by
  have huncut : Uncut ⟨fun _ => 0, 0, []⟩ [] :=
    ⟨cells_zero _ _, List.not_mem_nil, Nat.zero_le _⟩
  rw [readCommands, mainLoop_eq answers events _ hnul huncut List.not_mem_nil, List.nil_append]
  rfl

/-! ## The lines that are given -/

/-- The lines that fit in the buffer with their end. -/
def shortLines (lines : List (List UInt8)) : List (List UInt8) :=
  lines.filter (·.length < BUFFER_SIZE)

/-- Nothing is stored outside of `buffer` and `str`, and the complete lines that fit in the buffer
are given to `do_all`, each one once and in order, with their tokens. -/
structure GivesLines (answers : Nat → Nat → Int) (events : List FileEvent) : Prop where
  inBounds : (readCommands answers events).ending ≠ .fault
  lines : (readCommands answers events).given =
    (shortLines (completeLines (inputBytes events))).map lineTokens

/-- The lines that fit in the buffer have at most 39 tokens, and each line in front of one fits in
the buffer as well, and `do_all` comes back from it. -/
structure Servable (lines : List (List UInt8)) : Prop where
  tokens : ∀ line ∈ lines, line.length < BUFFER_SIZE → (lineTokens line).length < STR_SIZE
  reached : ∀ before line behind, lines = before ++ line :: behind →
    (∃ l ∈ behind, l.length < BUFFER_SIZE) →
    line.length < BUFFER_SIZE ∧ ComesBack (lineTokens line)

/-- No line fits in the buffer. -/
theorem shortLines_eq_nil_iff {lines : List (List UInt8)} :
    shortLines lines = [] ↔ ¬ ∃ l ∈ lines, l.length < BUFFER_SIZE := by
  simp [shortLines]

/-- Then there is nothing to give. -/
theorem servable_of_shortLines_nil {lines : List (List UInt8)} (h : shortLines lines = []) :
    Servable lines := by
  have hnone := shortLines_eq_nil_iff.1 h
  refine ⟨fun line hline hshort => absurd ⟨line, hline, hshort⟩ hnone, ?_⟩
  rintro before line behind rfl ⟨l, hl, hshort⟩
  exact absurd ⟨l, by simp [hl], hshort⟩ hnone

/-- The condition on the first line, and on the others. -/
theorem servable_cons {line : List UInt8} {lines : List (List UInt8)} :
    Servable (line :: lines) ↔
      (line.length < BUFFER_SIZE → (lineTokens line).length < STR_SIZE) ∧
        (shortLines lines ≠ [] → line.length < BUFFER_SIZE ∧ ComesBack (lineTokens line)) ∧
        Servable lines := by
  rw [Ne, shortLines_eq_nil_iff, not_not]
  constructor
  · intro h
    refine ⟨h.tokens line List.mem_cons_self, h.reached [] line lines rfl, ?_, ?_⟩
    · exact fun l hl => h.tokens l (List.mem_cons_of_mem line hl)
    · rintro before l behind rfl
      exact h.reached (line :: before) l behind rfl
  · rintro ⟨htokens, hreached, h⟩
    refine ⟨List.forall_mem_cons.2 ⟨htokens, h.tokens⟩, ?_⟩
    rintro (_ | ⟨first, before⟩) l behind heq
    · obtain ⟨rfl, rfl⟩ := List.cons.inj heq
      exact hreached
    · exact h.reached before l behind (List.cons.inj heq).2

/-- A line behind which no line is served. -/
theorem servable_last {line : List UInt8} {lines : List (List UInt8)}
    (htokens : line.length < BUFFER_SIZE → (lineTokens line).length < STR_SIZE)
    (hlast : ¬ (line.length < BUFFER_SIZE ∧ ComesBack (lineTokens line))) :
    Servable (line :: lines) ↔ shortLines lines = [] := by
  rw [servable_cons]
  constructor
  · rintro ⟨-, hreached, -⟩
    by_contra hne
    exact hlast (hreached hne)
  · intro hnil
    exact ⟨htokens, fun hne => absurd hnil hne, servable_of_shortLines_nil hnil⟩

/-- The lines that are served are the short ones exactly when all of them are servable. -/
theorem served_iff (lines : List (List UInt8)) :
    ((served lines).ending ≠ .fault ∧
      (served lines).given = (shortLines lines).map lineTokens) ↔ Servable lines := by
  induction lines with
  | nil => exact iff_of_true ⟨by simp [served], rfl⟩ (servable_of_shortLines_nil rfl)
  | cons line lines ih =>
    rw [served]
    by_cases hfull : BUFFER_SIZE ≤ line.length
    · have hshort : shortLines (line :: lines) = shortLines lines :=
        List.filter_cons_of_neg (by simpa using hfull)
      have hlong := Nat.not_lt.2 hfull
      rw [if_pos hfull, hshort, servable_last (fun h => absurd h hlong) fun h => hlong h.1]
      simp
    have hlength : line.length < BUFFER_SIZE := Nat.lt_of_not_le hfull
    have hshort : shortLines (line :: lines) = line :: shortLines lines :=
      List.filter_cons_of_pos (by simpa using hlength)
    rw [if_neg hfull, hshort, List.map_cons]
    by_cases hroom : STR_SIZE ≤ (lineTokens line).length
    · rw [if_pos hroom]
      refine iff_of_false (fun h => h.1 rfl) fun h => ?_
      exact absurd (h.tokens line List.mem_cons_self hlength) (Nat.not_lt.2 hroom)
    have hfits := Nat.lt_of_not_le hroom
    have hback := comesBack_iff (fun _ => 0) (lineTokens line)
    rw [if_neg hroom]
    cases hrun : doAll false (fun _ => 0) (lineTokens line).length (lineTokens line) with
    | none =>
      rw [servable_last (fun _ => hfits) fun h => by simpa [hrun] using hback.1 h.2]
      simp
    | some run =>
      obtain ⟨commands, exit⟩ := run
      cases exit with
      | some status =>
        rw [servable_last (fun _ => hfits) fun h => by simpa [hrun] using hback.1 h.2]
        simp
      | none =>
        have hcomes := hback.2 ⟨commands, hrun⟩
        rw [servable_cons, ← ih]
        simp [hlength, hfits, hcomes]

/-- **What the tool reads.** The lines are given, and no store leaves `buffer` and `str`, exactly
when the lines are servable. -/
theorem readCommands_iff (answers : Nat → Nat → Int) (events : List FileEvent)
    (hnul : ∀ event ∈ events, event.NoNul) :
    GivesLines answers events ↔ Servable (completeLines (inputBytes events)) := by
  rw [← served_iff, ← readCommands_eq answers events hnul]
  exact ⟨fun h => ⟨h.inBounds, h.lines⟩, fun h => ⟨h.1, h.2⟩⟩

/-- The lines `id ab` and `clear`, in two reads. -/
def twoReads : List FileEvent :=
  [.bytes 105 [100, 32, 97], .bytes 98 [10, 99, 108, 101, 97, 114, 10]]

/-- The two lines are given. -/
theorem readCommands_two : GivesLines (fun _ _ => 0) twoReads := by
  refine (readCommands_iff (fun _ _ => 0) twoReads (by simp [twoReads, FileEvent.NoNul])).2 ?_
  have hlines : completeLines (inputBytes twoReads) =
      [[105, 100, 32, 97, 98], [99, 108, 101, 97, 114]] := by decide +kernel
  rw [hlines, servable_cons, servable_cons]
  refine ⟨fun _ => by decide +kernel, fun _ => ⟨by decide, ?_⟩, fun _ => by decide +kernel,
    fun hne => absurd rfl hne, servable_of_shortLines_nil rfl⟩
  exact comesBack_of_plain (by decide +kernel) (by decide +kernel)

/-- A line of forty tokens. -/
def fortyTokens : List FileEvent :=
  [.bytes 97 ((List.replicate 39 [32, 97]).flatten ++ [LF])]

/-- The end of the tokens of that line is stored behind `str`. -/
theorem readCommands_forty : ¬ ∀ (answers : Nat → Nat → Int) (events : List FileEvent),
    (∀ event ∈ events, event.NoNul) → GivesLines answers events := by
  intro h
  have hnul : ∀ event ∈ fortyTokens, event.NoNul := by
    intro event hevent
    obtain rfl := List.mem_singleton.1 hevent
    change (0 : UInt8) ∉ _
    decide +kernel
  have hgives := h (fun _ _ => 0) fortyTokens hnul
  have hfault : (served (completeLines (inputBytes fortyTokens))).ending = .fault := by
    decide +kernel
  rw [← readCommands_eq (fun _ _ => 0) fortyTokens hnul] at hfault
  exact hgives.inBounds hfault

end SecLsmManager
