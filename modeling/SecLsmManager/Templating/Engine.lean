import SecLsmManager.Templating.Mustach
import Mathlib.Data.List.Infix

/-!
# Turns of the engine

What `process` does on a text that opens no tag (`process_text`) and on each tag between the
separators that it starts with. A run is cut where these lemmas cut it: `Leads m m'` says that
`process` from `m` is `process` from `m'`, but for the fuel.
-/

namespace SecLsmManager

/-! ## Searching -/

/-- The first occurrence stands where nothing before it, and nothing across its start, is one. -/
theorem strstr_append {needle s : List UInt8} (h : ¬ needle <:+: s ++ needle.dropLast)
    (r : List UInt8) : strstr needle (s ++ (needle ++ r)) = some (s, needle ++ r) := by
  induction s with
  | nil =>
    cases hr : needle ++ r with
    | nil =>
      rw [(List.append_eq_nil_iff.1 hr).1]
      rfl
    | cons c s =>
      have hpre : needle <+: c :: s := ⟨r, hr⟩
      simp [strstr, hpre]
  | cons c s ih =>
    have hpre : ¬ needle <+: c :: (s ++ (needle ++ r)) := by
      intro hp
      have hp' : needle <+: c :: s ++ needle.dropLast := by
        have hlong : c :: s ++ needle.dropLast <+: c :: (s ++ (needle ++ r)) := by
          refine (List.prefix_cons_inj c).2 ((List.prefix_append_right_inj s).2 ?_)
          exact (List.dropLast_prefix needle).trans (List.prefix_append needle r)
        refine List.prefix_of_prefix_length_le hp hlong ?_
        simp only [List.length_append, List.length_cons, List.length_dropLast]
        omega
      exact h hp'.isInfix
    have hs : ¬ needle <:+: s ++ needle.dropLast :=
      fun hi => h (hi.trans (List.suffix_cons c _).isInfix)
    simp [strstr, hpre, ih hs]

/-- A text that does not hold the needle. -/
theorem strstr_none {needle s : List UInt8} (h : ¬ needle <:+: s) : strstr needle s = none := by
  induction s with
  | nil =>
    have hne : needle ≠ [] := by
      rintro rfl
      exact h (List.infix_refl _)
    exact if_neg hne
  | cons c s ih =>
    have hpre : ¬ needle <+: c :: s := fun hp => h hp.isInfix
    have hs : ¬ needle <:+: s := fun hi => h (hi.trans (List.suffix_cons c s).isInfix)
    simp [strstr, hpre, ih hs]

/-! ## Names -/

/-- The name that stands in a tag, between blanks. -/
structure Named (name inside : List UInt8) : Prop where
  ne_nil : name ≠ []
  short : name.length ≤ MUSTACH_MAX_LENGTH
  inside : ∃ left right, inside = left ++ name ++ right ∧ (∀ c ∈ left, isspace c = true) ∧
    ∀ c ∈ right, isspace c = true
  first : ∀ c ∈ name.head?, isspace c = false
  last : ∀ c ∈ name.getLast?, isspace c = false

/-- The name is what the blanks around it leave. -/
theorem Named.trim {name inside : List UInt8} (h : Named name inside) : trim inside = name := by
  obtain ⟨left, right, rfl, hleft, hright⟩ := h.inside
  have hdrop : (left ++ name ++ right).dropWhile isspace = name ++ right := by
    rw [List.append_assoc, List.dropWhile_append_of_pos hleft]
    cases hname : name with
    | nil => exact absurd hname h.ne_nil
    | cons c name =>
      have hc := h.first c (by rw [hname]; rfl)
      rw [List.cons_append, List.dropWhile_cons_of_neg (by simp [hc])]
  rw [SecLsmManager.trim, hdrop, List.rdropWhile, List.reverse_append,
    List.dropWhile_append_of_pos (by simpa using hright)]
  have hrev : name.reverse.dropWhile isspace = name.reverse := by
    cases hname : name.reverse with
    | nil => rfl
    | cons c s =>
      have hlast : name.getLast? = some c := by
        rw [← List.head?_reverse, hname]
        rfl
      have hc := h.last c hlast
      exact List.dropWhile_cons_of_neg (by simp [hc])
  rw [hrev, List.reverse_reverse]

/-- The name of a tag is read, as it is neither empty nor too long. -/
theorem Named.tagName {name inside : List UInt8} (h : Named name inside) :
    tagName inside = .ok name := by
  simp [SecLsmManager.tagName, h.trim, h.ne_nil, h.short]

/-! ## Tags -/

/-- A tag that starts with a mark. -/
theorem readTag_begin {name inside : List UInt8} (h : Named name inside) (inverted : Bool)
    (clstr template : List UInt8) :
    readTag clstr ((if inverted then 94 else 35) :: inside) template =
      .ok (.beginSection inverted name, template) := by
  cases inverted with
  | false =>
    simp only [readTag, readTag.marked, Bool.false_eq_true, if_false, List.cons_append,
      List.head?_cons, reduceCtorEq, List.tail_cons, h.tagName]
    rfl
  | true =>
    simp only [readTag, readTag.marked, if_true, List.cons_append, List.head?_cons, reduceCtorEq,
      if_false, List.tail_cons, h.tagName]
    rfl

/-- A tag that ends a section. -/
theorem readTag_end {name inside : List UInt8} (h : Named name inside)
    (clstr template : List UInt8) :
    readTag clstr (47 :: inside) template = .ok (.endSection name, template) := by
  simp only [readTag, readTag.marked, List.cons_append, List.head?_cons, reduceCtorEq, if_false,
    List.tail_cons, h.tagName]
  rfl

/-- The bytes that make a tag something else than a name to replace. -/
def tagMarks : List UInt8 := [33, 61, 123, 94, 35, 47, 38, 62, 58]

/-- A tag that is replaced, as its name begins with no mark. -/
theorem readTag_name {name inside : List UInt8} (h : Named name inside)
    (hmark : ∀ c ∈ inside.head?, c ∉ tagMarks) (clstr template : List UInt8) :
    readTag clstr inside template = .ok (.replacement true name, template) := by
  cases hinside : inside with
  | nil =>
    obtain ⟨left, right, heq, -⟩ := h.inside
    rw [hinside] at heq
    simp [h.ne_nil] at heq
  | cons c rest =>
    have hc : c ∉ tagMarks := hmark c (by rw [hinside]; rfl)
    simp only [tagMarks, List.mem_cons, List.not_mem_nil, or_false, not_or] at hc
    obtain ⟨h1, h2, h3, h4, h5, h6, h7, h8, h9⟩ := hc
    rw [readTag, List.cons_append, List.head?_cons, ← hinside, h.tagName]
    split <;> simp_all
    rfl

/-! ## Runs -/

variable {γ : Type*} (itf : MustachItf γ)

/-- The engine at `template`, between the separators it starts with. -/
def processing (stack : List Frame) (enabled : Bool) (closure : γ) (template file : List UInt8) :
    Mustach γ :=
  { template, opstr := [123, 123], clstr := [125, 125], stack, enabled, closure, file }

/-- From `m` the engine goes on to `m'`. -/
def Leads (m m' : Mustach γ) : Prop := ∃ k, ∀ n, process itf (n + k) m = process itf n m'

variable {itf}

/-- The turns of two parts of a run add up. -/
theorem Leads.trans {m m' m'' : Mustach γ} (h : Leads itf m m') (h' : Leads itf m' m'') :
    Leads itf m m'' := by
  obtain ⟨k, hk⟩ := h
  obtain ⟨k', hk'⟩ := h'
  refine ⟨k' + k, fun n => ?_⟩
  rw [← Nat.add_assoc, hk, hk']

/-- One turn of the loop. -/
theorem Leads.turn {m m' : Mustach γ} (h : m.turn itf = .again m') : Leads itf m m' :=
  ⟨1, fun n => by rw [process, h]⟩

/-- A text that opens no tag, with what follows it: the end of the template or a tag. -/
structure OpensNot (last : Bool) (s : List UInt8) : Prop where
  nonul : 0 ∉ s
  closed : ¬ [123, 123] <:+: s ++ if last then [] else [123]

/-- What follows a text. -/
def Follows (last : Bool) (r : List UInt8) : Prop := if last then r = [] else [123, 123] <+: r

/-- **A text is emitted** before what follows it is looked at. -/
theorem process_text {last : Bool} {s r : List UInt8} (hs : OpensNot last s) (hr : Follows last r)
    (stack : List Frame) (enabled : Bool) (closure : γ) (file : List UInt8) :
    Leads itf (processing stack enabled closure (s ++ r) file)
      (processing stack enabled closure r (if enabled then file ++ s else file)) := by
  refine ⟨0, fun n => ?_⟩
  cases n with
  | zero => rfl
  | succ n =>
    have hturn : (processing stack enabled closure (s ++ r) file).turn itf =
        (processing stack enabled closure r (if enabled then file ++ s else file)).turn itf := by
      cases last with
      | true =>
        obtain rfl : r = [] := hr
        have hclosed := hs.closed
        rw [if_pos rfl, List.append_nil] at hclosed
        have hnil : strstr [123, 123] [] = none := rfl
        simp only [Mustach.turn, processing, List.append_nil, strstr_none hclosed, hnil]
        cases enabled
        · rfl
        · simp only [iwrapEmit, Mustach.stop, List.append_nil, if_true]
          rfl
      | false =>
        obtain ⟨r', rfl⟩ : [123, 123] <+: r := hr
        have hfirst := strstr_append hs.closed r'
        have hnil := @strstr_append [123, 123] [] (by decide) r'
        rw [List.nil_append] at hnil
        simp only [Mustach.turn, processing, hfirst, hnil]
        cases enabled <;> simp [iwrapEmit, Mustach.stop]
    simp only [process, hturn]

/-- **A tag is read** up to the closing separator. -/
theorem turn_tag {beg r r' : List UInt8} {tag : Tag} (hbeg : ¬ [125, 125] <:+: beg ++ [125])
    (htag : readTag [125, 125] beg r = .ok (tag, r')) (stack : List Frame) (enabled : Bool)
    (closure : γ) (file : List UInt8) :
    (processing stack enabled closure ([123, 123] ++ (beg ++ ([125, 125] ++ r))) file).turn itf =
      (processing stack enabled closure r' file).act itf tag := by
  have hopen := @strstr_append [123, 123] [] (by decide) (beg ++ ([125, 125] ++ r))
  have hclose := @strstr_append [125, 125] beg hbeg r
  rw [List.nil_append] at hopen
  have hdrop : ([123, 123] ++ (beg ++ ([125, 125] ++ r))).drop 2 = beg ++ ([125, 125] ++ r) := rfl
  have hdrop' : ([125, 125] ++ r).drop 2 = r := rfl
  simp only [Mustach.turn, processing, hopen, List.length_cons, List.length_nil, Nat.zero_add,
    Nat.reduceAdd, hdrop, hclose, hdrop', htag]
  cases enabled <;> simp [iwrapEmit]

end SecLsmManager
