import Mathlib.Data.List.DropRight
import Mathlib.Data.List.Infix
import Mathlib.Algebra.Order.Group.Nat
import Mathlib.Algebra.Group.Nat.Even

/-!
# Escaped records

Records of fields written as one stream over an alphabet with three marks: a separator of
fields, an end of record and an escape. The escape is context sensitive: it is written before
a separator, an end of record, and before an escape that a mark or the end of its field
follows; anywhere else an escape stands for itself.

Two readings of a stream meet here. `linesFrom` looks backwards: an end of record counts when
an even number of escapes precedes it. `Body` looks forwards, by the grammar: a record's text is
made of plain symbols and of escapes each followed by one symbol. `body_iff` says they agree.
`decodeFields_encodeFields` and `lines_stream` are the round trips.
-/

namespace Lib

variable {α : Type*}

/-- The marks of an escaped text. -/
structure Marks (α : Type*) where
  /-- separator of fields -/
  sep : α
  /-- end of record -/
  eor : α
  /-- escape -/
  esc : α
  sep_ne_eor : sep ≠ eor
  sep_ne_esc : sep ≠ esc
  eor_ne_esc : eor ≠ esc

namespace Marks

/-- `g` put before the first field. -/
def prependHead (g : List α) : List (List α) → List (List α)
  | [] => [g]
  | f :: fs => (g ++ f) :: fs

/-- What is put before twice is put before at once. -/
@[simp] theorem prependHead_prependHead (g h : List α) (fs : List (List α)) :
    prependHead g (prependHead h fs) = prependHead (g ++ h) fs := by
  cases fs <;> simp [prependHead]

/-- Nothing put before changes nothing. -/
theorem prependHead_nil {fs : List (List α)} (h : fs ≠ []) : prependHead [] fs = fs := by
  cases fs with
  | nil => contradiction
  | cons => rfl

/-- There is a first field then. -/
theorem prependHead_ne_nil (g : List α) (fs : List (List α)) : prependHead g fs ≠ [] := by
  cases fs <;> simp [prependHead]

variable (M : Marks α)

/-- The grammar of the text of a record, without its end: plain symbols, and escapes each
followed by any symbol. -/
inductive Body : List α → Prop
  | nil : Body []
  | plain {c : α} {l : List α} : c ≠ M.eor → c ≠ M.esc → Body l → Body (c :: l)
  | pair {l : List α} (d : α) : Body l → Body (M.esc :: d :: l)

/-- Two texts of the grammar make one. -/
theorem Body.append {a b : List α} (ha : M.Body a) (hb : M.Body b) : M.Body (a ++ b) := by
  induction ha with
  | nil => exact hb
  | plain h1 h2 _ ih => exact .plain h1 h2 ih
  | pair d _ ih => exact .pair d ih

variable [DecidableEq α]

/-! ## The encoder and the decoder -/

/-- A symbol an escape can protect. -/
def special (c : α) : Bool := c = M.sep || c = M.eor || c = M.esc

/-- Whether the symbol `c`, followed in its field by `s`, is written with an escape. -/
def needsEsc (c : α) (s : List α) : Bool :=
  if c = M.sep ∨ c = M.eor then true
  else if c = M.esc then s.head?.all M.special
  else false

/-- A field as it is written. -/
def encodeField : List α → List α
  | [] => []
  | c :: s => (if M.needsEsc c s then [M.esc, c] else [c]) ++ encodeField s

/-- The fields of a record as they are written, without the end of record. -/
def encodeFields (fs : List (List α)) : List α :=
  [M.sep].intercalate (fs.map M.encodeField)

/-- A record as it is written. -/
def encodeRecord (fs : List (List α)) : List α := M.encodeFields fs ++ [M.eor]

/-- The fields of a record's text: split at each separator that is not escaped, with the
escapes before a mark removed and the others kept. -/
def decodeFields : List α → List (List α)
  | [] => [[]]
  | [c] => if c = M.sep then [[], []] else [[c]]
  | c :: d :: l =>
    if c = M.sep then [] :: decodeFields (d :: l)
    else if c = M.esc then
      prependHead (if M.special d then [d] else [c, d]) (decodeFields l)
    else prependHead [c] (decodeFields (d :: l))

/-- A record has one field at least, if an empty one. -/
theorem decodeFields_ne_nil (l : List α) : M.decodeFields l ≠ [] := by
  unfold decodeFields
  split
  · simp
  · split <;> simp
  · split
    · simp
    · split <;> exact prependHead_ne_nil _ _

/-- A separator that is not escaped starts a field. -/
theorem decodeFields_sep (l : List α) :
    M.decodeFields (M.sep :: l) = [] :: M.decodeFields l := by
  cases l <;> simp [decodeFields]

/-- A plain symbol belongs to the first field. -/
theorem decodeFields_plain {c : α} (h1 : c ≠ M.sep) (h2 : c ≠ M.esc) (l : List α) :
    M.decodeFields (c :: l) = prependHead [c] (M.decodeFields l) := by
  cases l <;> simp [decodeFields, h1, h2, prependHead]

/-- An escape goes with the symbol after it, and is kept when that symbol is no mark. -/
theorem decodeFields_pair (d : α) (l : List α) :
    M.decodeFields (M.esc :: d :: l) =
      prependHead (if M.special d then [d] else [M.esc, d]) (M.decodeFields l) := by
  simp [decodeFields, M.sep_ne_esc.symm]

/-- Only the empty text has one empty field. -/
theorem eq_nil_of_decodeFields {l : List α} (h : M.decodeFields l = [[]]) : l = [] := by
  have hp : ∀ (g : List α) (fs : List (List α)), g ≠ [] → prependHead g fs ≠ [[]] := by
    intro g fs hg
    cases fs <;> simp [prependHead, hg]
  unfold decodeFields at h
  split at h
  · rfl
  · split at h <;> simp at h
  · split at h
    · exact absurd (List.cons.inj h).2 (M.decodeFields_ne_nil _)
    · split at h
      · exact absurd h (hp _ _ (by split <;> simp))
      · exact absurd h (hp _ _ (by simp))

/-- Only marks are escaped. -/
theorem special_of_needsEsc {c : α} {s : List α} (h : M.needsEsc c s = true) :
    M.special c = true := by
  unfold needsEsc at h
  unfold special
  split at h
  · rename_i h'
    rcases h' with rfl | rfl <;> simp
  · split at h
    · rename_i h'
      simp [h']
    · cases h

/-- A symbol that is not escaped ends nothing, and if it is an escape then one before no mark. -/
theorem needsEsc_false {c : α} {s : List α} (h : M.needsEsc c s = false) :
    c ≠ M.sep ∧ c ≠ M.eor ∧ (c = M.esc → ∃ d l, s = d :: l ∧ M.special d = false) := by
  unfold needsEsc at h
  split at h
  · cases h
  · rename_i h'
    push Not at h'
    refine ⟨h'.1, h'.2, fun hc => ?_⟩
    rw [if_pos hc] at h
    cases s with
    | nil => cases h
    | cons d l => exact ⟨d, l, rfl, h⟩

/-- Any other symbol is written as it is. -/
theorem needsEsc_of_not_special {c : α} {s : List α} (h : M.special c = false) :
    M.needsEsc c s = false := by
  rw [← Bool.not_eq_true] at h ⊢
  exact fun h' => h (M.special_of_needsEsc h')

/-- An encoded field decodes to itself, before the end of the record or a separator. -/
theorem decodeFields_encodeField_append : ∀ (s rest : List α),
    rest = [] ∨ (∃ r, rest = M.sep :: r) →
    M.decodeFields (M.encodeField s ++ rest) = prependHead s (M.decodeFields rest)
  | [], rest, _ => by
    rw [encodeField, List.nil_append, prependHead_nil (M.decodeFields_ne_nil rest)]
  | c :: s, rest, hr => by
    cases hn : M.needsEsc c s with
    | true =>
      have ih := decodeFields_encodeField_append s rest hr
      simp only [encodeField, hn, if_true, List.cons_append, List.nil_append]
      rw [decodeFields_pair, M.special_of_needsEsc hn, ih]
      simp
    | false =>
      obtain ⟨h1, h2, h3⟩ := M.needsEsc_false hn
      by_cases hc : c = M.esc
      · subst hc
        obtain ⟨d, s', rfl, hd⟩ := h3 rfl
        have ih := decodeFields_encodeField_append s' rest hr
        have hn' := M.needsEsc_of_not_special (s := s') hd
        simp only [encodeField, hn, hn', Bool.false_eq_true, if_false, List.cons_append,
          List.nil_append]
        rw [decodeFields_pair, hd, ih]
        simp
      · have ih := decodeFields_encodeField_append s rest hr
        simp only [encodeField, hn, Bool.false_eq_true, if_false, List.cons_append,
          List.nil_append]
        rw [M.decodeFields_plain h1 hc, ih]
        simp

/-- A separator stands between two fields. -/
theorem encodeFields_cons_cons (f g : List α) (fs : List (List α)) :
    M.encodeFields (f :: g :: fs) = M.encodeField f ++ M.sep :: M.encodeFields (g :: fs) := by
  simp [encodeFields, List.intercalate]

/-- Two parts of a record that both have fields are separated. -/
theorem encodeFields_append : ∀ {fs gs : List (List α)}, fs ≠ [] → gs ≠ [] →
    M.encodeFields (fs ++ gs) = M.encodeFields fs ++ M.sep :: M.encodeFields gs
  | [], _, h, _ => absurd rfl h
  | [f], [], _, h => absurd rfl h
  | [f], g :: gs, _, _ => by
    have hf : M.encodeFields [f] = M.encodeField f := by simp [encodeFields, List.intercalate]
    rw [List.singleton_append, encodeFields_cons_cons, hf]
  | f :: f' :: fs, gs, _, hgs => by
    have ih := encodeFields_append (List.cons_ne_nil f' fs) hgs
    rw [List.cons_append, List.cons_append, encodeFields_cons_cons, ← List.cons_append, ih,
      encodeFields_cons_cons, List.append_assoc, List.cons_append]

/-- **Round trip of a record.** Decoding the text of a record gives its fields back. -/
theorem decodeFields_encodeFields : ∀ {fs : List (List α)}, fs ≠ [] →
    M.decodeFields (M.encodeFields fs) = fs
  | [], h => absurd rfl h
  | [f], _ => by
    have h := M.decodeFields_encodeField_append f [] (.inl rfl)
    simpa [encodeFields, List.intercalate, decodeFields, prependHead] using h
  | f :: g :: fs, _ => by
    have ih := decodeFields_encodeFields (List.cons_ne_nil g fs)
    rw [encodeFields_cons_cons, decodeFields_encodeField_append _ _ _ (.inr ⟨_, rfl⟩),
      decodeFields_sep, ih]
    simp [prependHead]

/-! ## Ends of records, looking backwards -/

/-- The number of escapes that end a text. -/
def escRun (l : List α) : Nat := (l.rtakeWhile (· = M.esc)).length

/-- Whether the symbol after the text `l` is escaped: an odd number of escapes precedes it. -/
def escaped (l : List α) : Bool := M.escRun l % 2 = 1

/-- Nothing is escaped at the start. -/
@[simp] theorem escaped_nil : M.escaped [] = false := by simp [escaped, escRun]

/-- The escapes at the end grow by one, or begin again. -/
theorem escRun_concat (l : List α) (c : α) :
    M.escRun (l ++ [c]) = if c = M.esc then M.escRun l + 1 else 0 := by
  unfold escRun
  by_cases h : c = M.esc <;> simp [h]

/-- A symbol changes whether the next one is escaped: an escape that is not itself escaped
protects it, and nothing else does. -/
theorem escaped_concat (l : List α) (c : α) :
    M.escaped (l ++ [c]) = (decide (c = M.esc) && !M.escaped l) := by
  unfold escaped
  rw [escRun_concat]
  by_cases h : c = M.esc
  · simp only [h, if_true, decide_true, Bool.true_and]
    rcases Nat.mod_two_eq_zero_or_one (M.escRun l) with h' | h' <;> simp [h', Nat.add_mod]
  · simp [h]

/-- The same, read from the front with the state `b` before the text. -/
def escapedFrom (b : Bool) (l : List α) : Bool :=
  l.foldl (fun b c => decide (c = M.esc) && !b) b

/-- The state before the text is that after the empty one. -/
@[simp] theorem escapedFrom_nil (b : Bool) : M.escapedFrom b [] = b := rfl

/-- One symbol is read. -/
@[simp] theorem escapedFrom_cons (b : Bool) (c : α) (l : List α) :
    M.escapedFrom b (c :: l) = M.escapedFrom (decide (c = M.esc) && !b) l := rfl

/-- Both ways to read a text agree. -/
theorem escaped_eq_escapedFrom (l : List α) : M.escaped l = M.escapedFrom false l := by
  induction l using List.reverseRecOn with
  | nil => simp
  | append_singleton l c ih => rw [escaped_concat, ih]; simp [escapedFrom]

/-- No end of record in a text: each of its end marks is escaped. -/
def NoEnd (l : List α) : Prop := ∀ a b, l = a ++ M.eor :: b → M.escaped a = true

/-- A text of the grammar has no end of record. -/
theorem Body.noEnd {l : List α} (h : M.Body l) : M.NoEnd l := by
  intro a b hl
  rw [escaped_eq_escapedFrom]
  induction h generalizing a with
  | nil => simp at hl
  | plain h1 h2 _ ih =>
    cases a with
    | nil => simp only [List.nil_append, List.cons.injEq] at hl; exact absurd hl.1 h1
    | cons x a =>
      simp only [List.cons_append, List.cons.injEq] at hl
      obtain ⟨rfl, hl⟩ := hl
      simpa [h2] using ih _ hl
  | pair d _ ih =>
    cases a with
    | nil =>
      simp only [List.nil_append, List.cons.injEq] at hl
      exact absurd hl.1.symm M.eor_ne_esc
    | cons x a =>
      simp only [List.cons_append, List.cons.injEq] at hl
      obtain ⟨rfl, hl⟩ := hl
      cases a with
      | nil => simp
      | cons y a =>
        simp only [List.cons_append, List.cons.injEq] at hl
        simpa using ih _ hl.2

/-- What follows a text of the grammar is not escaped by it. -/
theorem Body.escaped {l : List α} (h : M.Body l) : M.escaped l = false := by
  rw [escaped_eq_escapedFrom]
  induction h with
  | nil => rfl
  | plain _ h2 _ ih => simpa [h2] using ih
  | pair d _ ih => simpa using ih

/-- Nor has what follows a part that escapes nothing behind it. -/
theorem NoEnd.tail {a l : List α} (h : M.NoEnd (a ++ l)) (ha : M.escapedFrom false a = false) :
    M.NoEnd l := by
  rintro x y rfl
  have := h (a ++ x) y (by simp)
  rw [escaped_eq_escapedFrom] at this ⊢
  rw [escapedFrom, List.foldl_append] at this
  rwa [show List.foldl _ false a = false from ha] at this

/-- A text without an end of record is one of the grammar, when it escapes nothing behind it. -/
theorem body_of_noEnd : ∀ {l : List α}, M.NoEnd l → M.escapedFrom false l = false → M.Body l
  | [], _, _ => .nil
  | [c], h, he => by
    by_cases hc : c = M.esc
    · simp [hc] at he
    · refine .plain ?_ hc .nil
      rintro rfl
      simpa using h [] [] rfl
  | c :: d :: l, h, he => by
    by_cases hc : c = M.esc
    · subst hc
      exact .pair d (body_of_noEnd (NoEnd.tail M (a := [M.esc, d]) h (by simp)) (by simpa using he))
    · refine .plain ?_ hc
        (body_of_noEnd (NoEnd.tail M (a := [c]) h (by simp [hc])) (by simpa [hc] using he))
      rintro rfl
      simpa using h [] (d :: l) rfl

/-- **The two readings agree.** A text is a record's body by the grammar exactly when looking
backwards finds no end of record in it and finds the symbol after it not escaped. -/
theorem body_iff (l : List α) : M.Body l ↔ M.NoEnd l ∧ M.escaped l = false := by
  refine ⟨fun h => ⟨h.noEnd, h.escaped⟩, fun h => M.body_of_noEnd h.1 ?_⟩
  rw [← escaped_eq_escapedFrom]
  exact h.2

/-- An encoded field is the text of a record. -/
theorem body_encodeField : ∀ s : List α, M.Body (M.encodeField s)
  | [] => .nil
  | c :: s => by
    cases hn : M.needsEsc c s with
    | true =>
      simp only [encodeField, hn, if_true, List.cons_append, List.nil_append]
      exact .pair c (body_encodeField s)
    | false =>
      obtain ⟨_, h2, h3⟩ := M.needsEsc_false hn
      by_cases hc : c = M.esc
      · subst hc
        obtain ⟨d, s', rfl, hd⟩ := h3 rfl
        simp only [encodeField, hn, M.needsEsc_of_not_special hd, Bool.false_eq_true, if_false,
          List.cons_append, List.nil_append]
        exact .pair d (body_encodeField s')
      · simp only [encodeField, hn, Bool.false_eq_true, if_false, List.cons_append,
          List.nil_append]
        exact .plain h2 hc (body_encodeField s)

/-- The encoded fields of a record are the text of a record. -/
theorem body_encodeFields : ∀ fs : List (List α), M.Body (M.encodeFields fs)
  | [] => .nil
  | [f] => by simpa [encodeFields, List.intercalate] using M.body_encodeField f
  | f :: g :: fs => by
    rw [encodeFields_cons_cons]
    exact (M.body_encodeField f).append M
      (.plain M.sep_ne_eor M.sep_ne_esc (body_encodeFields (g :: fs)))

/-! ## Streams of records -/

/-- The texts of the records that end in a stream, when `cur` precedes it in its record. -/
def linesFrom (cur : List α) : List α → List (List α)
  | [] => []
  | c :: l =>
    if c = M.eor ∧ M.escaped cur = false then cur :: linesFrom [] l
    else linesFrom (cur ++ [c]) l

/-- What follows the last end of record in a stream, when `cur` precedes it in its record. -/
def restFrom (cur : List α) : List α → List α
  | [] => cur
  | c :: l =>
    if c = M.eor ∧ M.escaped cur = false then restFrom [] l else restFrom (cur ++ [c]) l

/-- The texts of the records that end in a stream. -/
def lines (l : List α) : List (List α) := M.linesFrom [] l

/-- What follows the last end of record in a stream. -/
def rest (l : List α) : List α := M.restFrom [] l

/-- The lines of a stream go on from the rest of its first part. -/
theorem linesFrom_append (cur a b : List α) :
    M.linesFrom cur (a ++ b) = M.linesFrom cur a ++ M.linesFrom (M.restFrom cur a) b := by
  induction a generalizing cur with
  | nil => rfl
  | cons c a ih =>
    simp only [List.cons_append, linesFrom, restFrom]
    split
    · rw [ih, List.cons_append]
    · rw [ih]

/-- So does its rest. -/
theorem restFrom_append (cur a b : List α) :
    M.restFrom cur (a ++ b) = M.restFrom (M.restFrom cur a) b := by
  induction a generalizing cur with
  | nil => rfl
  | cons c a ih =>
    simp only [List.cons_append, restFrom]
    split <;> rw [ih]

/-- From the start, too. -/
theorem lines_append (a b : List α) :
    M.lines (a ++ b) = M.lines a ++ M.linesFrom (M.rest a) b := M.linesFrom_append [] a b

/-- And the rest from the start. -/
theorem rest_append (a b : List α) : M.rest (a ++ b) = M.restFrom (M.rest a) b :=
  M.restFrom_append [] a b

/-- The lines of a prefix of a stream are a prefix of its lines. -/
theorem lines_mono {a b : List α} (h : a <+: b) : M.lines a <+: M.lines b := by
  obtain ⟨c, rfl⟩ := h
  exact ⟨_, (M.lines_append a c).symm⟩

/-- The first part of a text without an end of record has none. -/
theorem NoEnd.of_append {a b : List α} (h : M.NoEnd (a ++ b)) : M.NoEnd a := by
  rintro x y rfl
  exact h x (y ++ b) (by simp)

/-- A text without an end of record ends no line. -/
theorem linesFrom_noEnd (cur l : List α) (h : M.NoEnd (cur ++ l)) :
    M.linesFrom cur l = [] ∧ M.restFrom cur l = cur ++ l := by
  induction l generalizing cur with
  | nil => simp [linesFrom, restFrom]
  | cons c l ih =>
    have hc : ¬ (c = M.eor ∧ M.escaped cur = false) := by
      rintro ⟨rfl, hf⟩
      rw [h cur l rfl] at hf
      cases hf
    simp only [linesFrom, restFrom, if_neg hc]
    have := ih (cur ++ [c]) (by simpa using h)
    simpa using this

/-- One more symbol, when it ends no record. -/
theorem noEnd_concat {l : List α} (h : M.NoEnd l) {c : α} (hc : c = M.eor → M.escaped l = true) :
    M.NoEnd (l ++ [c]) := by
  intro a b hab
  rcases List.eq_nil_or_concat' b with rfl | ⟨b, d, rfl⟩
  · have := List.append_inj' hab rfl
    simp only [List.cons.injEq, and_true] at this
    rw [← this.1]
    exact hc this.2
  · rw [← List.cons_append, ← List.append_assoc] at hab
    exact h a b (List.append_inj' hab rfl).1

/-- The empty text has no end of record. -/
theorem noEnd_nil : M.NoEnd [] := by
  intro a b h
  simp at h

/-- A record's text followed by the end mark is one line. -/
theorem lines_body_cons {b : List α} (h : M.Body b) (l : List α) :
    M.lines (b ++ M.eor :: l) = b :: M.lines l := by
  have h' := M.linesFrom_noEnd [] b (by simpa using h.noEnd)
  rw [lines, linesFrom_append, h'.1, h'.2]
  simp [linesFrom, h.escaped, lines]

/-- What follows a line is the rest of what comes behind it. -/
theorem rest_body_cons {b : List α} (h : M.Body b) (l : List α) :
    M.rest (b ++ M.eor :: l) = M.rest l := by
  have h' := M.linesFrom_noEnd [] b (by simpa using h.noEnd)
  rw [rest, restFrom_append, h'.2]
  simp [restFrom, h.escaped, rest]

/-- The lines of a stream for a reader that holds at most `n` bytes of a record, and whether it
meets `n` bytes without the end of their record. -/
def linesWithin (n : Nat) (cur : List α) : List α → List (List α) × Bool
  | [] => ([], n ≤ cur.length)
  | c :: l =>
    if n ≤ cur.length then ([], true)
    else if c = M.eor ∧ M.escaped cur = false then
      (cur :: (linesWithin n [] l).1, (linesWithin n [] l).2)
    else linesWithin n (cur ++ [c]) l

/-- A reader that holds `cur` and takes no more than it has room for takes its lines. -/
theorem linesWithin_append {n : Nat} {cur a : List α} (h : cur.length + a.length ≤ n)
    (b : List α) :
    M.linesWithin n cur (a ++ b) =
      (M.linesFrom cur a ++ (M.linesWithin n (M.restFrom cur a) b).1,
        (M.linesWithin n (M.restFrom cur a) b).2) := by
  induction a generalizing cur with
  | nil => rfl
  | cons c a ih =>
    have hn : ¬ n ≤ cur.length := by
      rw [List.length_cons] at h
      omega
    simp only [List.cons_append, linesWithin, linesFrom, restFrom, if_neg hn]
    split
    · rw [ih (by simp at h ⊢; omega)]
      rfl
    · exact ih (by simp at h ⊢; omega)

/-- Within the bound `n`, the lines of a stream that starts with `R` are those of `R`, and then
those that go on from the rest of `R`. -/
def GoesOn (n : Nat) (R : List α) : Prop :=
  ∀ x, M.linesWithin n [] (R ++ x) =
    (M.lines R ++ (M.linesWithin n (M.rest R) x).1, (M.linesWithin n (M.rest R) x).2)

/-- From the start the lines of a stream are its own. -/
theorem goesOn_nil (n : Nat) : M.GoesOn n [] := fun _ => rfl

/-- A reader with room for what comes next goes on. -/
theorem GoesOn.append {n : Nat} {R a : List α} (h : M.GoesOn n R)
    (hlen : (M.rest R).length + a.length ≤ n) : M.GoesOn n (R ++ a) := by
  intro x
  rw [List.append_assoc, h, M.linesWithin_append hlen, lines_append, rest_append, List.append_assoc]

/-- It has the lines of `R` first. -/
theorem GoesOn.isPrefix {n : Nat} {R : List α} (h : M.GoesOn n R) (x : List α) :
    M.lines R <+: (M.linesWithin n [] (R ++ x)).1 := by
  rw [h x]
  exact List.prefix_append _ _

/-- A stream that ends at `R`. -/
theorem GoesOn.whole {n : Nat} {R : List α} (h : M.GoesOn n R) :
    M.linesWithin n [] R = (M.lines R, decide (n ≤ (M.rest R).length)) := by
  have hx := h []
  rw [List.append_nil, linesWithin, List.append_nil] at hx
  exact hx

/-- The rest of `R` is too long. -/
theorem GoesOn.full {n : Nat} {R : List α} (h : M.GoesOn n R) (hlen : n ≤ (M.rest R).length)
    (x : List α) : M.linesWithin n [] (R ++ x) = (M.lines R, true) := by
  have hw : M.linesWithin n (M.rest R) x = ([], true) := by
    cases x with
    | nil => simp [linesWithin, hlen]
    | cons c l => simp [linesWithin, hlen]
  rw [h, hw, List.append_nil]

/-- Records as they are written one after the other. -/
def stream (rs : List (List (List α))) : List α := rs.flatMap M.encodeRecord

/-- No record, no text. -/
@[simp] theorem stream_nil : M.stream [] = [] := rfl

/-- **Round trip of a stream.** The lines of written records are their texts. -/
theorem lines_stream (rs : List (List (List α))) :
    M.lines (M.stream rs) = rs.map M.encodeFields := by
  induction rs with
  | nil => rfl
  | cons r rs ih =>
    rw [stream, List.flatMap_cons, encodeRecord, List.append_assoc, List.singleton_append,
      lines_body_cons _ (M.body_encodeFields r), List.map_cons, ← stream, ih]

/-- Nor has any prefix of such a text. -/
theorem NoEnd.of_isPrefix {a b : List α} (h : M.NoEnd b) (hp : a <+: b) : M.NoEnd a := by
  obtain ⟨c, rfl⟩ := hp
  exact h.of_append M

/-- What follows the last end of record in a prefix of a stream is shorter than a record. -/
theorem rest_length_of_isPrefix (n : Nat) : ∀ (rs : List (List (List α))) (R : List α),
    0 < n → (∀ r ∈ rs, (M.encodeRecord r).length ≤ n) → R <+: M.stream rs → (M.rest R).length < n
  | [], R, hn, _, h => by
    rw [stream_nil, List.prefix_nil] at h
    subst h
    simpa [rest, restFrom] using hn
  | r :: rs, R, hn, hr, h => by
    have hbody := M.body_encodeFields r
    have hlen := hr r List.mem_cons_self
    rw [stream, List.flatMap_cons] at h
    rcases Nat.lt_or_ge R.length (M.encodeRecord r).length with hlt | hge
    · -- the prefix ends in the first record
      have hR : R <+: M.encodeFields r := by
        have h1 := List.prefix_of_prefix_length_le h (List.prefix_append _ _) (Nat.le_of_lt hlt)
        refine List.prefix_of_prefix_length_le h1 (List.prefix_append _ _) ?_
        simp only [encodeRecord, List.length_append, List.length_singleton] at hlt
        omega
      have h2 := (M.linesFrom_noEnd [] R (hbody.noEnd.of_isPrefix M hR)).2
      rw [rest, h2, List.nil_append]
      omega
    · obtain ⟨R', rfl⟩ := List.prefix_of_prefix_length_le (List.prefix_append _ _) h hge
      rw [List.prefix_append_right_inj] at h
      rw [encodeRecord, List.append_assoc, List.singleton_append, rest_body_cons _ hbody]
      exact rest_length_of_isPrefix n rs R' hn (fun r' h' => hr r' (List.mem_cons_of_mem _ h')) h

end Marks

end Lib
