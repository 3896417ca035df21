import SecLsmManager.Context.PathStd
import SecLsmManager.Lib.Lines

/-!
# Paths by components

What `path_std` does, component by component. `PathScan` holds the components that are kept, and
its step says what the next one makes of them. The loop of `path_std` follows the scan as long as
it can take components back (`PathCursor.At.passAll`): it cannot once the text is beyond the buffer
(`PathScan.overflows`).
-/

namespace SecLsmManager

open Lib

/-! ## The scan -/

/-- What lies between the slashes of a path. -/
def components (path : List UInt8) : List (List UInt8) := path.splitOn SLASH

/-- The components kept once `c` is scanned: an empty component or a dot is dropped, a dot-dot
removes the one before it. -/
def keep (kept : List (List UInt8)) (c : List UInt8) : List (List UInt8) :=
  if c = [] ∨ c = [DOT] then kept
  else if c = [DOT, DOT] then kept.dropLast
  else kept ++ [c]

/-- A component that is kept. -/
structure Regular (c : List UInt8) : Prop where
  ne_nil : c ≠ []
  ne_dot : c ≠ [DOT]
  ne_dotdot : c ≠ [DOT, DOT]

/-- The components kept, whether a slash comes before the first of them, and whether one comes
before the next. -/
structure PathScan where
  kept : List (List UInt8)
  lead : Bool
  slash : Bool
  deriving DecidableEq

namespace PathScan

def init : PathScan := ⟨[], false, false⟩

/-- The component `c`, where `more` says that a slash ends it and `fps` that the path is
absolute. -/
def step (fps more : Bool) (s : PathScan) (c : List UInt8) : PathScan where
  kept := keep s.kept c
  lead := if s.kept = [] then s.slash else s.lead
  slash :=
    if c = [] then s.slash || more
    else if c = [DOT] then s.slash
    else if c = [DOT, DOT] then keep s.kept c ≠ [] || fps
    else more

/-- The components up to the end of the path. -/
def scan (fps : Bool) : PathScan → List (List UInt8) → PathScan
  | s, [] => s
  | s, c :: cs => scan fps (s.step fps (!cs.isEmpty) c) cs

/-- The text of the components kept. -/
def text (s : PathScan) : List UInt8 :=
  if s.kept = [] then []
  else (if s.lead then [SLASH] else []) ++ [SLASH].intercalate s.kept

/-- The standard path: the root or the current directory when no component is kept. -/
def standard (s : PathScan) : List UInt8 :=
  if s.kept = [] then if s.slash then [SLASH] else [DOT] else s.text

/-- Whether a dot-dot comes when the text is longer than `size`. -/
def overflows (size : Nat) (fps : Bool) : PathScan → List (List UInt8) → Bool
  | _, [] => false
  | s, c :: cs =>
    (c = [DOT, DOT] && size < s.text.length) || overflows size fps (s.step fps true c) cs

/-- What holds of a scan between two components. -/
structure Ready (s : PathScan) : Prop where
  regular : ∀ c ∈ s.kept, Regular c
  noslash : ∀ c ∈ s.kept, SLASH ∉ c
  slash : s.kept ≠ [] → s.slash = true

/-- The scan starts ready. -/
theorem init_ready : init.Ready :=
  ⟨fun _ h => (nomatch h), fun _ h => (nomatch h), fun h => absurd rfl h⟩

/-- A step keeps what `keep` says, whatever the flags. -/
theorem kept_step (fps more : Bool) (s : PathScan) (c : List UInt8) :
    (s.step fps more c).kept = keep s.kept c := rfl

end PathScan

/-! ## Components kept -/

/-- An empty component changes nothing. -/
theorem keep_nil (kept : List (List UInt8)) : keep kept [] = kept := if_pos (.inl rfl)

/-- Nor does a dot. -/
theorem keep_dot (kept : List (List UInt8)) : keep kept [DOT] = kept := if_pos (.inr rfl)

/-- A dot-dot takes the last component away. -/
theorem keep_dotdot (kept : List (List UInt8)) : keep kept [DOT, DOT] = kept.dropLast := by
  rw [keep, if_neg (by simp), if_pos rfl]

/-- The components of a normalised path are kept. -/
theorem Component.regular {c : List UInt8} (h : Component c) : Regular c :=
  ⟨h.ne_nil, h.ne_dot, h.ne_dotdot⟩

/-- A regular component is added at the end. -/
theorem keep_regular (kept : List (List UInt8)) {c : List UInt8} (h : Regular c) :
    keep kept c = kept ++ [c] := by
  rw [keep, if_neg (not_or.2 ⟨h.ne_nil, h.ne_dot⟩), if_neg h.ne_dotdot]

/-- A component is dropped, removes another one or is kept. -/
theorem component_cases (c : List UInt8) : c = [] ∨ c = [DOT] ∨ c = [DOT, DOT] ∨ Regular c := by
  by_cases hnil : c = []
  · exact .inl hnil
  by_cases hdot : c = [DOT]
  · exact .inr (.inl hdot)
  by_cases hdotdot : c = [DOT, DOT]
  · exact .inr (.inr (.inl hdotdot))
  · exact .inr (.inr (.inr ⟨hnil, hdot, hdotdot⟩))

/-- What is kept was kept before, or is the component that is scanned. -/
theorem keep_subset {kept : List (List UInt8)} {c d : List UInt8} (h : d ∈ keep kept c) :
    d ∈ kept ∨ (Regular c ∧ d = c) := by
  obtain rfl | rfl | rfl | hc := component_cases c
  · exact .inl (keep_nil kept ▸ h)
  · exact .inl (keep_dot kept ▸ h)
  · rw [keep_dotdot] at h
    exact .inl (List.dropLast_subset _ h)
  · rw [keep_regular kept hc, List.mem_append, List.mem_singleton] at h
    exact h.imp_right fun hd => ⟨hc, hd⟩

/-! ## The text of a scan -/

namespace PathScan

/-- The text gets the component that is kept, behind its slash. -/
theorem text_regular {s : PathScan} (hs : s.Ready) (fps more : Bool) {c : List UInt8}
    (hc : Regular c) :
    (s.step fps more c).text = s.text ++ ((if s.slash then [SLASH] else []) ++ c) := by
  have hkept : (s.step fps more c).kept = s.kept ++ [c] := keep_regular s.kept hc
  rw [text, if_neg (by simp [hkept]), hkept]
  by_cases h : s.kept = []
  · have hlead : (s.step fps more c).lead = s.slash := if_pos h
    rw [hlead, text, if_pos h, h]
    simp
  · have hlead : (s.step fps more c).lead = s.lead := if_neg h
    rw [hlead, text, if_neg h, intercalate_snoc _ h, if_pos (hs.slash h), List.append_assoc]
    rfl

/-- The text loses the last component, with the slash before it. -/
theorem text_dotdot {s : PathScan} (hs : s.Ready) (fps more : Bool) :
    (s.step fps more [DOT, DOT]).text = (s.text.rdropWhile (· ≠ SLASH)).dropLast := by
  have hkept : (s.step fps more [DOT, DOT]).kept = s.kept.dropLast := keep_dotdot s.kept
  obtain hnil | ⟨kept, c, hsnoc⟩ := List.eq_nil_or_concat s.kept
  · rw [text, if_pos (by rw [hkept, hnil]; rfl), text, if_pos hnil]
    rfl
  · rw [List.concat_eq_append] at hsnoc
    have hne : s.kept ≠ [] := by simp [hsnoc]
    have hlead : (s.step fps more [DOT, DOT]).lead = s.lead := if_neg hne
    have hc : SLASH ∉ c := hs.noslash c (by simp [hsnoc])
    rw [text, hkept, hlead, text, if_neg hne, hsnoc, List.dropLast_concat]
    cases kept with
    | nil =>
      rw [if_pos rfl, List.nil_append, List.intercalate_singleton, rdropWhile_noslash hc]
      cases s.lead <;> rfl
    | cons d kept =>
      have hcut :
          (if s.lead = true then [SLASH] else []) ++ [SLASH].intercalate (d :: kept ++ [c]) =
          (if s.lead = true then [SLASH] else []) ++ [SLASH].intercalate (d :: kept) ++ [SLASH] ++
            c := by
        rw [intercalate_snoc _ (List.cons_ne_nil _ _)]
        simp
      rw [hcut, rdropWhile_noslash hc, List.rdropWhile_concat_neg _ _ _ (by simp),
        List.dropLast_concat, if_neg (List.cons_ne_nil _ _)]

/-- The text stays when the components kept stay. -/
theorem text_keep {s : PathScan} (fps more : Bool) {c : List UInt8} (h : keep s.kept c = s.kept) :
    (s.step fps more c).text = s.text := by
  have hkept : (s.step fps more c).kept = s.kept := h
  rw [text, text, hkept]
  by_cases hnil : s.kept = []
  · rw [if_pos hnil, if_pos hnil]
  · have hlead : (s.step fps more c).lead = s.lead := if_neg hnil
    rw [if_neg hnil, if_neg hnil, hlead]

/-- The text is empty only where nothing is kept. -/
theorem text_eq_nil {s : PathScan} (h : ∀ c ∈ s.kept, Regular c) : s.text = [] ↔ s.kept = [] := by
  rw [text]
  cases hkept : s.kept with
  | nil => simp
  | cons c kept =>
    have hc : c ≠ [] := (h c (by simp [hkept])).ne_nil
    cases kept with
    | nil => simp [hc]
    | cons d kept => simp

/-- Each step keeps regular components only. -/
theorem Ready.kept_step {s : PathScan} (hs : s.Ready) (fps more : Bool) (c : List UInt8) :
    ∀ d ∈ (s.step fps more c).kept, Regular d := by
  intro d hd
  obtain hd | ⟨hreg, rfl⟩ := keep_subset hd
  · exact hs.regular d hd
  · exact hreg

/-- A step over a component that a slash ends leaves the scan ready. -/
theorem Ready.step {s : PathScan} (hs : s.Ready) (fps : Bool) {c : List UInt8} (hc : SLASH ∉ c) :
    (s.step fps true c).Ready where
  regular := hs.kept_step fps true c
  noslash := by
    intro d hd
    obtain hd | ⟨-, rfl⟩ := keep_subset hd
    · exact hs.noslash d hd
    · exact hc
  slash := by
    intro hne
    rw [PathScan.kept_step] at hne
    obtain rfl | rfl | rfl | hreg := component_cases c
    · simp [PathScan.step]
    · rw [keep_dot] at hne
      simp [PathScan.step, hs.slash hne]
    · simp [PathScan.step, hne]
    · simp [PathScan.step, hreg.ne_nil, hreg.ne_dot, hreg.ne_dotdot]

end PathScan

/-! ## The loop -/

namespace PathCursor

/-- The loop of `path_std`, with as many turns as it needs. -/
def go (size : Nat) (fps : Bool) (path : List UInt8) (k : PathCursor) : PathCursor :=
  loop size fps path.length path k

/-- The loop comes to its end in as many turns as the path has characters; more make no difference.
-/
theorem loop_fuel (size : Nat) (fps : Bool) {n m : Nat} {path : List UInt8} (k : PathCursor)
    (hn : path.length ≤ n) (hm : path.length ≤ m) :
    loop size fps n path k = loop size fps m path k := by
  induction n generalizing m path k with
  | zero =>
    obtain rfl := List.length_eq_zero_iff.1 (Nat.le_zero.1 hn)
    cases m <;> rfl
  | succ n ih =>
    cases path with
    | nil => cases m <;> rfl
    | cons c path =>
      cases m with
      | zero => exact absurd hm (Nat.not_succ_le_zero _)
      | succ m =>
        have hlen := k.step_length size fps c path
        exact ih _ (Nat.le_trans hlen (Nat.le_of_succ_le_succ hn))
          (Nat.le_trans hlen (Nat.le_of_succ_le_succ hm))

/-- One turn of the loop. -/
theorem go_cons (size : Nat) (fps : Bool) (c : UInt8) (path : List UInt8) (k : PathCursor) :
    go size fps (c :: path) k =
      go size fps (k.step size fps c path).1 (k.step size fps c path).2 :=
  loop_fuel size fps _ (k.step_length size fps c path) (Nat.le_refl _)

/-! ### Component by component -/

variable {size : Nat} {fps : Bool}

/-- What the loop does of characters that it copies. -/
def putAll (size : Nat) (k : PathCursor) (cs : List UInt8) : PathCursor :=
  cs.foldl (fun k c => k.put size c) k

/-- What the loop does of the component `c`, where `more` says that a slash ends it. -/
def pass (size : Nat) (fps more : Bool) (k : PathCursor) (c : List UInt8) : PathCursor :=
  if c = [] then if more then { k with ps := true, sd := true } else k
  else if c = [DOT] then k
  else if c = [DOT, DOT] then
    let len := if k.len ≤ size then backToSlash k.buffer k.len else k.len
    { k with len, ps := len > 0 || fps }
  else { (if k.ps then k.put size SLASH else k).putAll size c with sd := more, ps := more }

def passAll (size : Nat) (fps : Bool) : PathCursor → List (List UInt8) → PathCursor
  | k, [] => k
  | k, c :: cs => passAll size fps (k.pass size fps (!cs.isEmpty) c) cs

/-- Past a dot-dot the cursor is at the slash before, if its text is in the buffer. -/
theorem pass_dotdot (more : Bool) (k : PathCursor) : k.pass size fps more [DOT, DOT] =
    { k with
      len := if k.len ≤ size then backToSlash k.buffer k.len else k.len
      ps := (if k.len ≤ size then backToSlash k.buffer k.len else k.len) > 0 || fps } := by
  rw [pass, if_neg (by simp), if_neg (by simp), if_pos rfl]

/-- A regular component is copied, behind a slash if one is due. -/
theorem pass_regular (more : Bool) (k : PathCursor) {c : List UInt8} (h : Regular c) :
    k.pass size fps more c =
      { (if k.ps then k.put size SLASH else k).putAll size c with sd := more, ps := more } := by
  rw [pass, if_neg h.ne_nil, if_neg h.ne_dot, if_neg h.ne_dotdot]

/-- Behind a slash, a component may start. -/
theorem pass_sd {k : PathCursor} (hsd : k.sd = true) (c : List UInt8) :
    (k.pass size fps true c).sd = true := by
  obtain rfl | rfl | rfl | hreg := component_cases c
  · rfl
  · exact hsd
  · rw [pass_dotdot]
    exact hsd
  · rw [pass_regular true k hreg]

/-- The turn on a slash. -/
theorem step_slash (k : PathCursor) (path : List UInt8) :
    k.step size fps SLASH path = (path, { k with ps := true, sd := true }) := if_pos rfl

/-- The turn on a dot between slashes. -/
theorem step_dot {k : PathCursor} (hsd : k.sd = true) {tail : List UInt8}
    (htail : atEnd tail = true) : k.step size fps DOT tail = (tail.drop 1, k) := by
  have hd : DOT ≠ SLASH := by decide
  rw [PathCursor.step, if_neg hd, if_pos ⟨hsd, rfl, htail⟩]

/-- The turn on a dot-dot between slashes. -/
theorem step_dotdot {k : PathCursor} (hsd : k.sd = true) {tail : List UInt8}
    (htail : atEnd tail = true) (more : Bool) :
    k.step size fps DOT (DOT :: tail) = (tail.drop 1, k.pass size fps more [DOT, DOT]) := by
  have hd : DOT ≠ SLASH := by decide
  have hdot : ¬ (k.sd = true ∧ DOT = DOT ∧ atEnd (DOT :: tail) = true) := by
    rintro ⟨-, -, he⟩
    exact hd (of_decide_eq_true he)
  rw [PathCursor.step, if_neg hd, if_neg hdot, if_pos ⟨hsd, rfl, rfl, htail⟩, pass_dotdot]
  rfl

/-- At the start of a regular component, the loop copies its first character, behind the pending
slash. -/
theorem step_regular {k : PathCursor} (hsd : k.sd = true) {d : UInt8} {cs tail : List UInt8}
    (hslash : SLASH ∉ d :: cs) (hreg : Regular (d :: cs)) :
    k.step size fps d (cs ++ tail) =
      (cs ++ tail, { (if k.ps then k.put size SLASH else k).put size d with
        sd := false, ps := false }) := by
  obtain ⟨hd, hcs⟩ := not_or.1 (List.mem_cons.not.1 hslash)
  have hdot : ¬ (d = DOT ∧ atEnd (cs ++ tail) = true) := by
    rintro ⟨rfl, he⟩
    cases cs with
    | nil => exact hreg.ne_dot rfl
    | cons e cs =>
      simp only [List.cons_append, atEnd, decide_eq_true_eq] at he
      exact hcs (he ▸ List.mem_cons_self)
  have hdotdot : ¬ (d = DOT ∧ (cs ++ tail).head? = some DOT ∧
      atEnd ((cs ++ tail).drop 1) = true) := by
    rintro ⟨rfl, hh, he⟩
    cases cs with
    | nil => exact hreg.ne_dot rfl
    | cons e cs =>
      simp only [List.cons_append, List.head?_cons, Option.some.injEq] at hh
      subst hh
      cases cs with
      | nil => exact hreg.ne_dotdot rfl
      | cons f cs =>
        simp only [List.cons_append, List.drop_succ_cons, List.drop_zero, atEnd,
          decide_eq_true_eq] at he
        exact hcs (he ▸ List.mem_cons_of_mem _ List.mem_cons_self)
  simp only [PathCursor.step, if_neg (Ne.symm hd), hsd, true_and, if_neg hdot, if_neg hdotdot]

/-- Inside a component, the loop copies. -/
theorem go_copy {cs : List UInt8} (hcs : SLASH ∉ cs) (tail : List UInt8) {k : PathCursor}
    (hsd : k.sd = false) (hps : k.ps = false) :
    go size fps (cs ++ tail) k = go size fps tail (k.putAll size cs) := by
  induction cs generalizing k with
  | nil => rfl
  | cons c cs ih =>
    obtain ⟨hc, hcs⟩ := not_or.1 (List.mem_cons.not.1 hcs)
    have hput : { k.put size c with sd := false, ps := false } = k.put size c := by
      cases k
      cases hsd
      cases hps
      rfl
    have hstep : k.step size fps c (cs ++ tail) = (cs ++ tail, k.put size c) := by
      rw [← hput]
      simp [PathCursor.step, Ne.symm hc, hsd, hps]
    rw [List.cons_append, go_cons, hstep]
    exact ih hcs hsd hps

/-- Copying does not look at the flags. -/
theorem putAll_flags (k : PathCursor) (cs : List UInt8) (sd ps : Bool) :
    ({ k with sd, ps } : PathCursor).putAll size cs = { k.putAll size cs with sd, ps } := by
  induction cs generalizing k with
  | nil => rfl
  | cons c cs ih => exact ih (k.put size c)

/-- The loop goes past a component, and past the slash that ends it. -/
theorem go_pass (size : Nat) (fps : Bool) {k : PathCursor} (hsd : k.sd = true)
    {c : List UInt8} (hc : SLASH ∉ c) (tail : List UInt8) (hend : atEnd tail = true) :
    go size fps (c ++ tail) k = go size fps (tail.drop 1) (k.pass size fps (!tail.isEmpty) c) := by
  obtain rfl | rfl | rfl | hreg := component_cases c
  · cases tail with
    | nil => rfl
    | cons d tail =>
      obtain rfl : d = SLASH := of_decide_eq_true hend
      rw [List.nil_append, go_cons, step_slash]
      rfl
  · rw [List.singleton_append, go_cons, step_dot hsd hend]
    rfl
  · rw [List.cons_append, List.singleton_append, go_cons, step_dotdot hsd hend]
  · obtain ⟨d, cs, rfl⟩ := List.exists_cons_of_ne_nil hreg.ne_nil
    rw [List.cons_append, go_cons, step_regular hsd hc hreg,
      go_copy (not_or.1 (List.mem_cons.not.1 hc)).2 tail rfl rfl, putAll_flags,
      pass_regular _ k hreg]
    cases tail with
    | nil => rfl
    | cons e tail =>
      obtain rfl : e = SLASH := of_decide_eq_true hend
      rw [go_cons, step_slash]
      rfl

/-- The loop passes the components of a path one after the other. -/
theorem go_passAll (size : Nat) (fps : Bool) {comps : List (List UInt8)}
    (hcomps : ∀ c ∈ comps, SLASH ∉ c) (hne : comps ≠ []) {k : PathCursor} (hsd : k.sd = true) :
    go size fps ([SLASH].intercalate comps) k = k.passAll size fps comps := by
  induction comps generalizing k with
  | nil => exact absurd rfl hne
  | cons c comps ih =>
    obtain ⟨hc, hcomps⟩ := List.forall_mem_cons.1 hcomps
    cases comps with
    | nil =>
      have hgo := go_pass size fps hsd hc [] rfl
      rw [List.append_nil] at hgo
      rw [List.intercalate_singleton, hgo]
      rfl
    | cons d comps =>
      have hgo := go_pass size fps hsd hc (SLASH :: [SLASH].intercalate (d :: comps)) rfl
      rw [List.intercalate_cons_cons, List.append_assoc, List.singleton_append, hgo]
      exact ih hcomps (List.cons_ne_nil _ _) (pass_sd hsd c)

/-! ### The text of a cursor -/

/-- The cursor is behind `text`, and the buffer holds what fits of it. -/
structure Holds (size : Nat) (k : PathCursor) (text : List UInt8) : Prop where
  len : k.len = text.length
  stored : cells k.buffer 0 (min text.length size) = text.take size

/-- A cursor at the start holds the empty text. -/
theorem Holds.nil {k : PathCursor} (h : k.len = 0) : k.Holds size [] := ⟨h, by simp⟩

/-- A character that is put goes to the end of the text, stored or not. -/
theorem Holds.put {k : PathCursor} {text : List UInt8} (h : k.Holds size text)
    (c : UInt8) : (k.put size c).Holds size (text ++ [c]) where
  len := by
    rw [List.length_append, ← h.len]
    rfl
  stored := by
    have hlen := h.len
    have hstored := h.stored
    rw [List.length_append, List.length_singleton]
    by_cases hlt : k.len < size
    · rw [Nat.min_eq_left (by omega), List.take_of_length_le (by omega)] at hstored
      have hput := cells_update_last k.buffer 0 text.length c
      rw [Nat.zero_add, hstored, ← hlen] at hput
      rw [Nat.min_eq_left (by omega), List.take_of_length_le (by simp; omega), ← hlen]
      simpa only [PathCursor.put, if_pos hlt] using hput
    · rw [Nat.min_eq_right (by omega)] at hstored ⊢
      rw [List.take_append_of_le_length (by omega), ← hstored]
      simp only [PathCursor.put, if_neg hlt]

/-- So do those of a component. -/
theorem Holds.putAll {k : PathCursor} {text : List UInt8} (h : k.Holds size text)
    (cs : List UInt8) : (k.putAll size cs).Holds size (text ++ cs) := by
  induction cs generalizing k text with
  | nil => rwa [List.append_nil]
  | cons c cs ih =>
    rw [← List.singleton_append, ← List.append_assoc]
    exact ih (h.put c)

/-- As long as the text is in the buffer, its last component is found there. -/
theorem Holds.back {k : PathCursor} {text : List UInt8} (h : k.Holds size text)
    (hfit : text.length ≤ size) (ps : Bool) :
    { k with len := backToSlash k.buffer k.len, ps }.Holds size
      (text.rdropWhile (· ≠ SLASH)).dropLast := by
  have hstored := h.stored
  rw [Nat.min_eq_left hfit, List.take_of_length_le hfit] at hstored
  have hback := cells_backToSlash k.buffer k.len
  rw [h.len, hstored] at hback
  have hlen := congrArg List.length hback
  rw [cells_length] at hlen
  have hle : (text.rdropWhile (· ≠ SLASH)).dropLast.length ≤ size := by
    have := (List.rdropWhile_prefix (· ≠ SLASH) (l := text)).length_le
    rw [List.length_dropLast]
    omega
  refine ⟨by rw [h.len]; exact hlen, ?_⟩
  rw [Nat.min_eq_left hle, List.take_of_length_le hle, ← hlen]
  exact hback

/-- The cursor is where the scan is. -/
structure At (size : Nat) (k : PathCursor) (s : PathScan) : Prop where
  ps : k.ps = s.slash
  holds : k.Holds size s.text

/-- A component leads the cursor and the scan to the same place, if what it takes back is in the
buffer. -/
theorem At.pass (fps : Bool) {k : PathCursor} {s : PathScan} (h : k.At size s)
    (hs : s.Ready) {c : List UInt8} (hfit : c = [DOT, DOT] → s.text.length ≤ size) (more : Bool) :
    (k.pass size fps more c).At size (s.step fps more c) := by
  obtain rfl | rfl | rfl | hreg := component_cases c
  · have hps : (k.pass size fps more []).ps = (s.slash || more) := by
      rw [← h.ps]
      cases more with
      | true => exact (Bool.or_true _).symm
      | false => exact (Bool.or_false _).symm
    have hlen : (k.pass size fps more []).len = k.len := by cases more <;> rfl
    have hbuffer : (k.pass size fps more []).buffer = k.buffer := by cases more <;> rfl
    refine ⟨hps, ?_⟩
    rw [PathScan.text_keep fps more (keep_nil _)]
    exact ⟨hlen.trans h.holds.len, hbuffer ▸ h.holds.stored⟩
  · refine ⟨h.ps, ?_⟩
    rw [PathScan.text_keep fps more (keep_dot _)]
    exact h.holds
  · have hlen : k.len ≤ size := h.holds.len ▸ hfit rfl
    have hback := h.holds.back (hfit rfl) (backToSlash k.buffer k.len > 0 || fps)
    rw [← PathScan.text_dotdot hs fps more] at hback
    rw [pass_dotdot]
    simp only [if_pos hlen]
    refine ⟨?_, hback⟩
    -- a text is left when components are
    have hnil := PathScan.text_eq_nil (hs.kept_step fps more [DOT, DOT])
    have hpos : backToSlash k.buffer k.len > 0 ↔ keep s.kept [DOT, DOT] ≠ [] := by
      rw [gt_iff_lt, Nat.pos_iff_ne_zero, ne_eq, ne_eq, ← PathScan.kept_step fps more, ← hnil,
        ← List.length_eq_zero_iff]
      exact not_congr (Eq.congr hback.len rfl)
    simp [PathScan.step, hpos]
  · have hlead : (if k.ps then k.put size SLASH else k).Holds size
        (s.text ++ if s.slash then [SLASH] else []) := by
      rw [← h.ps]
      cases k.ps with
      | true => exact h.holds.put SLASH
      | false =>
        rw [if_neg Bool.false_ne_true, if_neg Bool.false_ne_true, List.append_nil]
        exact h.holds
    have hput := hlead.putAll c
    rw [List.append_assoc, ← PathScan.text_regular hs fps more hreg] at hput
    rw [pass_regular more k hreg]
    refine ⟨?_, hput.len, hput.stored⟩
    simp [PathScan.step, hreg.ne_nil, hreg.ne_dot, hreg.ne_dotdot]

/-- **The loop follows the scan**, as long as what it takes back is in the buffer. -/
theorem At.passAll {comps : List (List UInt8)} (hcomps : ∀ c ∈ comps, SLASH ∉ c)
    {k : PathCursor} {s : PathScan} (h : k.At size s) (hs : s.Ready)
    (hfit : PathScan.overflows size fps s comps = false) :
    (k.passAll size fps comps).At size (PathScan.scan fps s comps) := by
  induction comps generalizing k s with
  | nil => exact h
  | cons c comps ih =>
    obtain ⟨hc, hcomps⟩ := List.forall_mem_cons.1 hcomps
    rw [PathScan.overflows, Bool.or_eq_false_iff] at hfit
    have hback : c = [DOT, DOT] → s.text.length ≤ size := by
      rintro rfl
      simpa using hfit.1
    have hpass := h.pass fps hs hback (!comps.isEmpty)
    cases comps with
    | nil => exact hpass
    | cons d comps => exact ih hcomps hpass (hs.step fps hc) hfit.2

end PathCursor

/-! ## The standard path -/

/-- A path is absolute when it starts with a slash. -/
def CStr.Absolute (path : CStr) : Prop := path.bytes.head? = some SLASH

instance (path : CStr) : Decidable path.Absolute := inferInstanceAs (Decidable (_ = _))

/-- The scan of a path. -/
def scanPath (path : CStr) : PathScan :=
  .scan path.Absolute .init (components path.bytes)

/-- Whether `path_std` has to take back a component that it has not stored, for lack of room. -/
def Overflows (size : Nat) (path : CStr) : Bool :=
  PathScan.overflows size path.Absolute .init (components path.bytes)

/-- The buffer holds the beginning of a text, with its end when there is room for it. -/
structure StoredText (size : Nat) (buffer : Nat → UInt8) (text : List UInt8) : Prop where
  stored : cells buffer 0 (min text.length size) = text.take size
  ended : text.length < size → buffer text.length = 0

/-- What a scan keeps is what `keep` makes of the components in turn. -/
theorem PathScan.kept_scan (fps : Bool) (s : PathScan) (comps : List (List UInt8)) :
    (PathScan.scan fps s comps).kept = comps.foldl keep s.kept := by
  induction comps generalizing s with
  | nil => rfl
  | cons c comps ih => exact ih _

/-- It is regular components only. -/
theorem foldl_keep_regular {kept comps : List (List UInt8)} (h : ∀ c ∈ kept, Regular c) :
    ∀ c ∈ comps.foldl keep kept, Regular c := by
  induction comps generalizing kept with
  | nil => exact h
  | cons c comps ih =>
    refine ih fun d hd => ?_
    obtain hd | ⟨hreg, rfl⟩ := keep_subset hd
    · exact h d hd
    · exact hreg

/-- A text is ended behind the cursor. -/
theorem PathCursor.Holds.ended {size : Nat} {k : PathCursor} {text : List UInt8}
    (h : k.Holds size text) :
    StoredText size (if k.len < size then Function.update k.buffer k.len 0 else k.buffer) text := by
  have hlen := h.len
  by_cases hlt : k.len < size
  · rw [if_pos hlt, hlen]
    refine ⟨?_, fun _ => Function.update_self ..⟩
    rw [cells_update_outside _ _ (.inr (by omega))]
    exact h.stored
  · rw [if_neg hlt]
    exact ⟨h.stored, fun hlt' => absurd hlt' (hlen ▸ hlt)⟩

/-- The last turn of the loop. -/
theorem PathCursor.At.finish {size : Nat} {k : PathCursor} {s : PathScan}
    (h : k.At size s) (hs : ∀ c ∈ s.kept, Regular c) :
    (k.finish size).1 = s.standard.length ∧ StoredText size (k.finish size).2 s.standard := by
  have hnil := PathScan.text_eq_nil hs
  have hlen := h.holds.len
  by_cases hkept : s.kept = []
  · have h0 : k.len = 0 := by rw [hlen, hnil.2 hkept, List.length_nil]
    rw [PathScan.standard, if_pos hkept, ← h.ps]
    cases hps : k.ps with
    | true =>
      have hfinish : k.finish size = ((k.put size SLASH).len, if (k.put size SLASH).len < size then
          Function.update (k.put size SLASH).buffer (k.put size SLASH).len 0
          else (k.put size SLASH).buffer) := by
        simp [PathCursor.finish, PathCursor.put, hps, h0]
      rw [hfinish]
      have hempty : k.Holds size [] := .nil h0
      have hroot := hempty.put SLASH
      exact ⟨hroot.len, hroot.ended⟩
    | false =>
      -- the buffer gets a dot over the NUL
      let k₀ := { k with
        buffer := if k.len < size then Function.update k.buffer k.len 0 else k.buffer }
      have hfinish : k.finish size = ((k₀.put size DOT).len, if (k₀.put size DOT).len < size then
          Function.update (k₀.put size DOT).buffer (k₀.put size DOT).len 0
          else (k₀.put size DOT).buffer) := by
        simp [PathCursor.finish, PathCursor.put, hps, h0, k₀]
      rw [hfinish]
      have hempty : k₀.Holds size [] := .nil h0
      have hdot := hempty.put DOT
      exact ⟨hdot.len, hdot.ended⟩
  · have h0 : k.len ≠ 0 := fun h0 => hkept (hnil.1 (List.length_eq_zero_iff.1 (hlen ▸ h0)))
    have hfinish : k.finish size =
        (k.len, if k.len < size then Function.update k.buffer k.len 0 else k.buffer) := by
      simp [PathCursor.finish, h0]
    rw [PathScan.standard, if_neg hkept, hfinish]
    exact ⟨hlen, h.holds.ended⟩

/-- `path_std` passes the components of the path and ends the text. -/
theorem pathStd_passAll (buffer : Nat → UInt8) (size : Nat) (path : CStr) :
    pathStd buffer size path = (PathCursor.passAll size path.Absolute ⟨buffer, 0, false, true⟩
      (components path.bytes)).finish size := by
  have hgo := PathCursor.go_passAll size path.Absolute
    (fun c hc => notMem_of_mem_splitOn hc) (List.splitOn_ne_nil SLASH path.bytes)
    (k := ⟨buffer, 0, false, true⟩) rfl
  rw [List.intercalate_splitOn] at hgo
  exact congrArg (PathCursor.finish size) hgo

/-- **`path_std` gives the standard path**, when it has no component to take back that it has not
stored. -/
theorem pathStd_scan (buffer : Nat → UInt8) {size : Nat} {path : CStr}
    (h : Overflows size path = false) :
    (pathStd buffer size path).1 = (scanPath path).standard.length ∧
      StoredText size (pathStd buffer size path).2 (scanPath path).standard := by
  have hinit : PathCursor.At size ⟨buffer, 0, false, true⟩ .init := ⟨rfl, .nil rfl⟩
  have hat := hinit.passAll (fun c hc => notMem_of_mem_splitOn hc) PathScan.init_ready h
  rw [pathStd_passAll]
  refine hat.finish fun c hc => ?_
  rw [PathScan.kept_scan] at hc
  exact foldl_keep_regular (List.forall_mem_nil _) c hc

/-! ## The buffer -/

/-- A character is put inside the buffer, or nowhere. -/
theorem PathCursor.put_frame {size i : Nat} (k : PathCursor) (c : UInt8) (hi : size ≤ i) :
    (k.put size c).buffer i = k.buffer i := by
  simp only [PathCursor.put]
  split
  · exact Function.update_of_ne (by omega) ..
  · rfl

/-- So no turn of the loop writes beyond it. -/
theorem PathCursor.step_frame {size i : Nat} (fps : Bool) (c : UInt8) (path : List UInt8)
    (k : PathCursor) (hi : size ≤ i) : (k.step size fps c path).2.buffer i = k.buffer i := by
  unfold PathCursor.step
  split
  · rfl
  split
  · rfl
  split
  · rfl
  · simp only [PathCursor.put_frame _ _ hi]
    split
    · exact k.put_frame SLASH hi
    · rfl

/-- Nor does the loop. -/
theorem PathCursor.loop_frame {size i : Nat} (fps : Bool) (hi : size ≤ i) (n : Nat)
    (path : List UInt8) (k : PathCursor) : (loop size fps n path k).buffer i = k.buffer i := by
  induction n generalizing path k with
  | zero => rfl
  | succ n ih =>
    cases path with
    | nil => rfl
    | cons c path =>
      rw [PathCursor.loop, ih]
      exact k.step_frame fps c path hi

/-- Nor does the end, where a slash or a dot and the NUL are put. -/
theorem PathCursor.finish_frame {size i : Nat} (k : PathCursor) (hi : size ≤ i) :
    (k.finish size).2 i = k.buffer i := by
  have hwrite : ∀ (b : Nat → UInt8) (j : Nat) (c : UInt8),
      (if j < size then Function.update b j c else b) i = b i := by
    intro b j c
    split
    · exact Function.update_of_ne (by omega) ..
    · rfl
  have hslash :
      (if k.ps = true ∧ k.len = 0 then k.put size SLASH else k).buffer i = k.buffer i := by
    split
    · exact k.put_frame SLASH hi
    · rfl
  unfold PathCursor.finish
  generalize (if k.ps = true ∧ k.len = 0 then k.put size SLASH else k) = k' at hslash
  simp only
  split
  · exact (hwrite _ 1 0).trans ((hwrite _ 0 DOT).trans ((hwrite _ k'.len 0).trans hslash))
  · exact (hwrite _ k'.len 0).trans hslash

/-- **`path_std` writes inside the buffer only.** -/
theorem pathStd_frame (buffer : Nat → UInt8) {size : Nat} (path : CStr) {i : Nat} (hi : size ≤ i) :
    (pathStd buffer size path).2 i = buffer i := by
  rw [pathStd, PathCursor.finish_frame _ hi, PathCursor.loop_frame _ hi]

end SecLsmManager
