import SecLsmManager.Context.Context
import SecLsmManager.Context.PathScan

/-!
# The length of standard paths

Beyond the buffer `path_std` counts the characters of a path, and a component that it should take
back it counts for ever: `PathCount` is what it counts then. The length that it returns is that of
the standard path exactly when this does not happen, but for a single character
(`pathStd_exact_iff`).
-/

namespace SecLsmManager

open Lib

/-! ## Counting without taking back -/

/-- The characters counted, and whether a slash comes before the next ones. -/
structure PathCount where
  len : Nat
  slash : Bool
  deriving DecidableEq

namespace PathCount

/-- The component `c`, when a dot-dot takes nothing back. -/
def step (fps more : Bool) (n : PathCount) (c : List UInt8) : PathCount :=
  if c = [] then { n with slash := n.slash || more }
  else if c = [DOT] then n
  else if c = [DOT, DOT] then { n with slash := n.len > 0 || fps }
  else ⟨n.len + ((if n.slash then 1 else 0) + c.length), more⟩

def count (fps : Bool) : PathCount → List (List UInt8) → PathCount
  | n, [] => n
  | n, c :: cs => count fps (n.step fps (!cs.isEmpty) c) cs

/-- A regular component is counted, with its slash. -/
theorem step_regular (fps more : Bool) (n : PathCount) {c : List UInt8} (h : Regular c) :
    n.step fps more c = ⟨n.len + ((if n.slash then 1 else 0) + c.length), more⟩ := by
  rw [step, if_neg h.ne_nil, if_neg h.ne_dot, if_neg h.ne_dotdot]

/-- A dot-dot takes nothing back. -/
theorem step_dotdot (fps more : Bool) (n : PathCount) :
    n.step fps more [DOT, DOT] = { n with slash := n.len > 0 || fps } := by
  rw [step, if_neg (by simp), if_neg (by simp), if_pos rfl]

/-- Only regular components are counted. -/
theorem len_step_of_not_regular (fps more : Bool) (n : PathCount) {c : List UInt8}
    (h : ¬ Regular c) : (n.step fps more c).len = n.len := by
  obtain rfl | rfl | rfl | hreg := component_cases c
  · rfl
  · rfl
  · rw [step_dotdot]
  · exact absurd hreg h

/-- The count never goes back. -/
theorem le_len_step (fps more : Bool) (n : PathCount) (c : List UInt8) :
    n.len ≤ (n.step fps more c).len := by
  by_cases h : Regular c
  · rw [step_regular fps more n h]
    exact Nat.le_add_right _ _
  · rw [len_step_of_not_regular fps more n h]

/-- Nor does it over all components. -/
theorem le_len_count (fps : Bool) (n : PathCount) (comps : List (List UInt8)) :
    n.len ≤ (count fps n comps).len := by
  induction comps generalizing n with
  | nil => exact Nat.le_refl _
  | cons c comps ih => exact Nat.le_trans (n.le_len_step fps _ c) (ih _)

end PathCount

namespace PathCursor

variable {size : Nat} {fps : Bool}

/-- The cursor is where the count is. -/
structure Counts (k : PathCursor) (n : PathCount) : Prop where
  ps : k.ps = n.slash
  len : k.len = n.len

/-- The cursor counts the characters that are put, stored or not. -/
theorem putAll_len (k : PathCursor) (cs : List UInt8) :
    (k.putAll size cs).len = k.len + cs.length := by
  induction cs generalizing k with
  | nil => rfl
  | cons c cs ih =>
    rw [List.length_cons, Nat.add_comm cs.length, ← Nat.add_assoc]
    exact ih (k.put size c)

/-- A component leads the cursor and the count to the same place, if none is taken back. -/
theorem Counts.pass (size : Nat) (fps : Bool) {k : PathCursor} {n : PathCount} (h : k.Counts n)
    (hback : k.len = 0 ∨ size < k.len) (more : Bool) (c : List UInt8) :
    (k.pass size fps more c).Counts (n.step fps more c) := by
  obtain rfl | rfl | rfl | hreg := component_cases c
  · cases more with
    | true => exact ⟨(Bool.or_true _).symm, h.len⟩
    | false => exact ⟨h.ps.trans (Bool.or_false _).symm, h.len⟩
  · exact h
  · have hlen : (if k.len ≤ size then backToSlash k.buffer k.len else k.len) = k.len := by
      obtain h0 | hlt := hback
      · rw [h0]
        exact ite_self 0
      · exact if_neg (Nat.not_le_of_lt hlt)
    rw [pass_dotdot, PathCount.step_dotdot, hlen]
    exact ⟨by rw [h.len], h.len⟩
  · rw [pass_regular more k hreg, PathCount.step_regular fps more n hreg]
    refine ⟨rfl, ?_⟩
    simp only [putAll_len]
    rw [← h.ps, ← h.len]
    cases k.ps with
    | true =>
      simp only [if_true, PathCursor.put]
      omega
    | false => simp

/-- The cursor goes with the count where it cannot look back into the buffer. -/
theorem Counts.passAll (size : Nat) (fps : Bool) {k : PathCursor} {n : PathCount}
    (h : k.Counts n) (hback : size = 0 ∨ size < k.len) (comps : List (List UInt8)) :
    (k.passAll size fps comps).Counts (PathCount.count fps n comps) := by
  induction comps generalizing k n with
  | nil => exact h
  | cons c comps ih =>
    have hnow : k.len = 0 ∨ size < k.len := by omega
    have hpass := h.pass size fps hnow (!comps.isEmpty) c
    refine ih hpass ?_
    have hle := n.le_len_step fps (!comps.isEmpty) c
    rw [hpass.len]
    have := h.len
    omega

end PathCursor

/-! ## Beyond the buffer -/

/-- To take a component back makes a text shorter. -/
theorem length_dropLast_back_lt {text : List UInt8} (h : text ≠ []) :
    (text.rdropWhile (· ≠ SLASH)).dropLast.length < text.length := by
  have hle := (List.rdropWhile_prefix (· ≠ SLASH) (l := text)).length_le
  have hpos := List.length_pos_of_ne_nil h
  rw [List.length_dropLast]
  omega

/-- The count stays beyond the text of the scan. -/
theorem PathCount.exceeds {fps : Bool} {comps : List (List UInt8)} (hcomps : ∀ c ∈ comps, SLASH ∉ c)
    {n : PathCount} {s : PathScan} (hs : s.Ready) (hslash : n.slash = true)
    (h : s.text.length < n.len) :
    (PathScan.scan fps s comps).text.length < (count fps n comps).len := by
  induction comps generalizing n s with
  | nil => exact h
  | cons c comps ih =>
    obtain ⟨hc, hcomps⟩ := List.forall_mem_cons.1 hcomps
    have hpos : 0 < n.len := Nat.zero_lt_of_lt h
    have hstep : ∀ more, (s.step fps more c).text.length < (n.step fps more c).len ∧
        (more = true → (n.step fps more c).slash = true) := by
      intro more
      obtain rfl | rfl | rfl | hreg := component_cases c
      · rw [PathScan.text_keep fps more (keep_nil _)]
        exact ⟨h, fun _ => Bool.or_eq_true_iff.2 (.inl hslash)⟩
      · rw [PathScan.text_keep fps more (keep_dot _)]
        exact ⟨h, fun _ => hslash⟩
      · rw [PathScan.text_dotdot hs, step_dotdot]
        refine ⟨?_, fun _ => Bool.or_eq_true_iff.2 (.inl (decide_eq_true hpos))⟩
        have hle := (List.rdropWhile_prefix (· ≠ SLASH) (l := s.text)).length_le
        rw [List.length_dropLast]
        simp only
        omega
      · rw [PathScan.text_regular hs fps more hreg, step_regular fps more n hreg]
        refine ⟨?_, fun hmore => hmore⟩
        rw [hslash, List.length_append, List.length_append]
        cases s.slash with
        | true => simpa using h
        | false =>
          simp only [Bool.false_eq_true, if_false, List.length_nil, if_true]
          omega
    cases comps with
    | nil => exact (hstep false).1
    | cons d comps => exact ih hcomps (hs.step fps hc) ((hstep true).2 rfl) (hstep true).1

/-- A component that cannot be taken back leaves the cursor beyond the buffer and the text. -/
theorem PathCursor.At.beyond {size : Nat} {fps : Bool} {comps : List (List UInt8)}
    (hcomps : ∀ c ∈ comps, SLASH ∉ c) {k : PathCursor} {s : PathScan} (h : k.At size s)
    (hs : s.Ready) (hover : PathScan.overflows size fps s comps = true) :
    size < (k.passAll size fps comps).len ∧
      (PathScan.scan fps s comps).text.length < (k.passAll size fps comps).len := by
  induction comps generalizing k s with
  | nil => cases hover
  | cons c comps ih =>
    obtain ⟨hc, htail⟩ := List.forall_mem_cons.1 hcomps
    by_cases hnow : c = [DOT, DOT] ∧ size < s.text.length
    · obtain ⟨rfl, hlong⟩ := hnow
      have hlen := h.holds.len
      have hlt : size < k.len := hlen ▸ hlong
      have hne : s.text ≠ [] := List.ne_nil_of_length_pos (Nat.zero_lt_of_lt hlong)
      have hps : (k.len > 0 || fps) = true :=
        Bool.or_eq_true_iff.2 (.inl (decide_eq_true (Nat.zero_lt_of_lt hlt)))
      have hpass : k.pass size fps (!comps.isEmpty) [DOT, DOT] = { k with ps := true } := by
        rw [pass_dotdot, if_neg (Nat.not_le_of_lt hlt), hps]
      have hcount : Counts { k with ps := true } ⟨k.len, true⟩ := ⟨rfl, rfl⟩
      have hend := hcount.passAll size fps (.inr hlt) comps
      have htext : (s.step fps (!comps.isEmpty) [DOT, DOT]).text.length < k.len := by
        rw [PathScan.text_dotdot hs, hlen]
        exact length_dropLast_back_lt hne
      rw [PathCursor.passAll, hpass, hend.len, PathScan.scan]
      refine ⟨Nat.lt_of_lt_of_le hlt (PathCount.le_len_count fps ⟨k.len, true⟩ comps), ?_⟩
      cases comps with
      | nil => exact htext
      | cons d comps =>
        exact PathCount.exceeds htail (n := ⟨k.len, true⟩) (hs.step fps hc) rfl htext
    · have hback : c = [DOT, DOT] → s.text.length ≤ size :=
        fun hdot => Nat.le_of_not_lt fun hlt => hnow ⟨hdot, hlt⟩
      have hrest : PathScan.overflows size fps (s.step fps true c) comps = true := by
        rw [PathScan.overflows, Bool.or_eq_true_iff] at hover
        refine hover.resolve_left fun hf => hnow ?_
        simpa using hf
      have hpass := h.pass fps hs hback (!comps.isEmpty)
      cases comps with
      | nil => cases hrest
      | cons d comps => exact ih htail hpass (hs.step fps hc) hrest

/-- **Beyond the buffer**, the length returned is more than that of the standard path. -/
theorem pathStd_beyond (buffer : Nat → UInt8) {size : Nat} {path : CStr}
    (h : Overflows size path = true) :
    size < (pathStd buffer size path).1 ∧
      (scanPath path).text.length < (pathStd buffer size path).1 := by
  have hinit : PathCursor.At size ⟨buffer, 0, false, true⟩ .init := ⟨rfl, .nil rfl⟩
  have hbeyond := hinit.beyond
    (fun c (hc : c ∈ components path.bytes) => notMem_of_mem_splitOn hc) PathScan.init_ready h
  rw [pathStd_passAll]
  generalize PathCursor.passAll size path.Absolute ⟨buffer, 0, false, true⟩
    (components path.bytes) = k at hbeyond
  have h0 : k.len ≠ 0 := Nat.ne_of_gt (Nat.zero_lt_of_lt hbeyond.1)
  have hlen : (k.finish size).1 = k.len := by simp [PathCursor.finish, h0]
  rw [hlen]
  exact hbeyond

/-! ## A single character -/

/-- A path with one component kept, which is a character without a slash before it, and a dot-dot
behind it. -/
def OneByte (path : CStr) : Prop :=
  ∃ pre b post, components path.bytes = pre ++ [b] :: post ∧ Regular [b] ∧
    (∀ c ∈ pre ++ post, ¬ Regular c) ∧ [DOT, DOT] ∈ post ∧
    (pre.foldl (PathScan.step path.Absolute true) .init).slash = false

/-- Without regular components nothing is kept. -/
theorem foldl_keep_nil {comps : List (List UInt8)} (h : ∀ c ∈ comps, ¬ Regular c) :
    comps.foldl keep [] = [] := by
  induction comps with
  | nil => rfl
  | cons c comps ih =>
    obtain ⟨hc, hcomps⟩ := List.forall_mem_cons.1 h
    have hkeep : keep [] c = [] := by
      obtain rfl | rfl | rfl | hreg := component_cases c
      · exact keep_nil []
      · exact keep_dot []
      · exact keep_dotdot []
      · exact absurd hreg hc
    rw [List.foldl_cons, hkeep]
    exact ih hcomps

/-- A dot-dot removes the only component kept, unless others come. -/
theorem foldl_keep_singleton {comps : List (List UInt8)} (h : ∀ c ∈ comps, ¬ Regular c)
    (d : List UInt8) : comps.foldl keep [d] = [] ↔ [DOT, DOT] ∈ comps := by
  induction comps with
  | nil => simp
  | cons c comps ih =>
    obtain ⟨hc, hcomps⟩ := List.forall_mem_cons.1 h
    rw [List.foldl_cons, List.mem_cons]
    obtain rfl | rfl | rfl | hreg := component_cases c
    · rw [keep_nil, ih hcomps]
      simp
    · rw [keep_dot, ih hcomps]
      simp
    · rw [keep_dotdot]
      exact iff_of_true (foldl_keep_nil hcomps) (.inl rfl)
    · exact absurd hreg hc

namespace PathCount

/-- The count goes on from a first part. -/
theorem count_append (fps : Bool) (pre : List (List UInt8)) (n : PathCount) (c : List UInt8)
    (post : List (List UInt8)) :
    count fps n (pre ++ c :: post) = count fps (pre.foldl (step fps true) n) (c :: post) := by
  induction pre generalizing n with
  | nil => rfl
  | cons d pre ih =>
    have hmore : (!(pre ++ c :: post).isEmpty) = true := by simp
    rw [List.cons_append, count, hmore, List.foldl_cons]
    exact ih _

/-- Without regular components nothing is counted. -/
theorem len_count_of_not_regular (fps : Bool) {comps : List (List UInt8)}
    (h : ∀ c ∈ comps, ¬ Regular c) (n : PathCount) : (count fps n comps).len = n.len := by
  induction comps generalizing n with
  | nil => rfl
  | cons c comps ih =>
    obtain ⟨hc, hcomps⟩ := List.forall_mem_cons.1 h
    rw [count, ih hcomps, len_step_of_not_regular fps _ n hc]

/-- Each regular component counts. -/
theorem not_regular_of_len_count {fps : Bool} {comps : List (List UInt8)} {n : PathCount}
    (h : (count fps n comps).len ≤ n.len) : ∀ c ∈ comps, ¬ Regular c := by
  induction comps generalizing n with
  | nil => exact List.forall_mem_nil _
  | cons c comps ih =>
    rw [count] at h
    have hle := le_len_count fps (n.step fps (!comps.isEmpty) c) comps
    refine List.forall_mem_cons.2 ⟨fun hreg => ?_, ih (Nat.le_trans h (n.le_len_step fps _ c))⟩
    rw [step_regular fps _ n hreg] at h hle
    have hpos := List.length_pos_of_ne_nil hreg.ne_nil
    simp only at hle
    omega

/-- Between components that are not kept, the count and the scan agree on the slash. -/
theorem slash_foldl (fps : Bool) {pre : List (List UInt8)} (h : ∀ c ∈ pre, ¬ Regular c)
    {n : PathCount} {s : PathScan} (hn : n.len = 0) (hs : s.kept = [])
    (hslash : n.slash = s.slash) :
    (pre.foldl (step fps true) n).len = 0 ∧
      (pre.foldl (step fps true) n).slash = (pre.foldl (PathScan.step fps true) s).slash := by
  induction pre generalizing n s with
  | nil => exact ⟨hn, hslash⟩
  | cons c pre ih =>
    obtain ⟨hc, hpre⟩ := List.forall_mem_cons.1 h
    have hkept : (s.step fps true c).kept = [] := by
      have hfold : [c].foldl keep [] = [] := foldl_keep_nil (List.forall_mem_singleton.2 hc)
      rw [PathScan.kept_step, hs]
      exact hfold
    refine ih hpre ((len_step_of_not_regular fps true n hc).trans hn) hkept ?_
    obtain rfl | rfl | rfl | hreg := component_cases c
    · exact congrArg (· || true) hslash
    · exact hslash
    · rw [step_dotdot, hn]
      simp [PathScan.step, hs, keep_dotdot]
    · exact absurd hreg hc

/-- What counts one character in all. -/
theorem count_eq_one {fps : Bool} {comps : List (List UInt8)} {n : PathCount} {s : PathScan}
    (hn : n.len = 0) (hs : s.kept = []) (hslash : n.slash = s.slash)
    (h : (count fps n comps).len = 1) :
    ∃ pre b post, comps = pre ++ [b] :: post ∧ Regular [b] ∧ (∀ c ∈ pre ++ post, ¬ Regular c) ∧
      (pre.foldl (PathScan.step fps true) s).slash = false := by
  induction comps generalizing n s with
  | nil =>
    rw [count, hn] at h
    cases h
  | cons c comps ih =>
    by_cases hreg : Regular c
    · have hle := le_len_count fps (n.step fps (!comps.isEmpty) c) comps
      have hpos := List.length_pos_of_ne_nil hreg.ne_nil
      have hrest := @not_regular_of_len_count fps comps (n.step fps (!comps.isEmpty) c)
      rw [count] at h
      rw [h, step_regular fps _ n hreg, hn] at hle hrest
      simp only at hle hrest
      cases hps : n.slash with
      | true =>
        rw [hps, if_pos rfl] at hle
        omega
      | false =>
        rw [hps, if_neg Bool.false_ne_true] at hle hrest
        obtain ⟨b, rfl⟩ := List.length_eq_one_iff.1 (show c.length = 1 by omega)
        exact ⟨[], b, comps, rfl, hreg, hrest (Nat.le_refl 1), hslash.symm.trans hps⟩
    · cases comps with
      | nil =>
        rw [count, count, len_step_of_not_regular fps _ n hreg, hn] at h
        cases h
      | cons d comps =>
        have hstep := slash_foldl fps (List.forall_mem_singleton.2 hreg) hn hs hslash
        have hkept : (s.step fps true c).kept = [] := by
          have hfold : [c].foldl keep [] = [] := foldl_keep_nil (List.forall_mem_singleton.2 hreg)
          rw [PathScan.kept_step, hs]
          exact hfold
        obtain ⟨pre, b, post, hcomps, hb, hother, hlast⟩ := ih hstep.1 hkept hstep.2 h
        refine ⟨c :: pre, b, post, by rw [hcomps, List.cons_append], hb, ?_, hlast⟩
        rw [List.cons_append]
        exact List.forall_mem_cons.2 ⟨hreg, hother⟩

end PathCount

/-! ## The length returned -/

/-- The length returned is that of the standard path, the beginning of which is in the buffer. -/
structure StdExact (buffer : Nat → UInt8) (size : Nat) (path : CStr) : Prop where
  length : (pathStd buffer size path).1 = (scanPath path).standard.length
  stored : StoredText size (pathStd buffer size path).2 (scanPath path).standard

/-- With a buffer of no byte, the length returned counts all components. -/
theorem pathStd_zero (buffer : Nat → UInt8) (path : CStr) :
    (pathStd buffer 0 path).1 =
      max 1 (PathCount.count path.Absolute ⟨0, false⟩ (components path.bytes)).len := by
  have hinit : PathCursor.Counts ⟨buffer, 0, false, true⟩ ⟨0, false⟩ := ⟨rfl, rfl⟩
  have hcounts := hinit.passAll 0 path.Absolute (.inl rfl)
    (components path.bytes)
  rw [pathStd_passAll, ← hcounts.len]
  generalize PathCursor.passAll 0 path.Absolute ⟨buffer, 0, false, true⟩
    (components path.bytes) = k
  by_cases h0 : k.len = 0
  · by_cases hps : k.ps = true
    · simp [PathCursor.finish, PathCursor.put, h0, hps]
    · simp [PathCursor.finish, h0, hps]
  · simp only [PathCursor.finish, h0, and_false, if_false]
    omega

/-- What overflows an empty buffer is counted. -/
theorem count_pos_of_overflows {path : CStr} (h : Overflows 0 path = true) :
    0 < (PathCount.count path.Absolute ⟨0, false⟩ (components path.bytes)).len := by
  have hat : PathCursor.At 0 ⟨fun _ => 0, 0, false, true⟩ .init := ⟨rfl, .nil rfl⟩
  have hbeyond := hat.beyond
    (fun c (hc : c ∈ components path.bytes) => notMem_of_mem_splitOn hc) PathScan.init_ready h
  have hcounts : PathCursor.Counts ⟨fun _ => 0, 0, false, true⟩ ⟨0, false⟩ := ⟨rfl, rfl⟩
  exact (hcounts.passAll 0 path.Absolute (.inl rfl) (components path.bytes)).len ▸ hbeyond.1

/-- The code is right by chance when one character is counted and none is kept. -/
theorem OneByte.exact {path : CStr} (h : OneByte path) (buffer : Nat → UInt8) :
    StdExact buffer 0 path := by
  obtain ⟨pre, b, post, hcomps, hb, hother, hdotdot, hslash⟩ := h
  rw [List.forall_mem_append] at hother
  have hpre := PathCount.slash_foldl path.Absolute hother.1 (n := ⟨0, false⟩)
    (s := .init) rfl rfl rfl
  -- one character is counted
  have hcount : (PathCount.count path.Absolute ⟨0, false⟩ (components path.bytes)).len = 1 := by
    rw [hcomps, PathCount.count_append, PathCount.count,
      PathCount.len_count_of_not_regular _ hother.2, PathCount.step_regular _ _ _ hb, hpre.1,
      hpre.2, hslash]
    rfl
  -- and none is kept
  have hkept : (scanPath path).kept = [] := by
    rw [scanPath, PathScan.kept_scan, hcomps, List.foldl_append, PathScan.init,
      foldl_keep_nil hother.1, List.foldl_cons, keep_regular [] hb]
    exact (foldl_keep_singleton hother.2 [b]).2 hdotdot
  have hlen : (scanPath path).standard.length = 1 := by
    rw [PathScan.standard, if_pos hkept]
    cases (scanPath path).slash <;> rfl
  refine ⟨?_, ?_, fun hlt => absurd hlt (Nat.not_lt_zero _)⟩
  · rw [pathStd_zero, hcount, hlen]
    rfl
  · rw [Nat.min_zero, List.take_zero]
    rfl

/-- A text with room for all that follows does not overflow. -/
theorem PathScan.Ready.overflows {size : Nat} {fps : Bool} {comps : List (List UInt8)}
    (hcomps : ∀ c ∈ comps, SLASH ∉ c) {s : PathScan} (hs : s.Ready)
    (h : s.text.length + (if s.slash then 1 else 0) + ([SLASH].intercalate comps).length ≤ size) :
    PathScan.overflows size fps s comps = false := by
  induction comps generalizing s with
  | nil => rfl
  | cons c comps ih =>
    obtain ⟨hc, htail⟩ := List.forall_mem_cons.1 hcomps
    have hnow : ¬ size < s.text.length := by omega
    rw [PathScan.overflows, decide_eq_false hnow, Bool.and_false, Bool.false_or]
    cases comps with
    | nil => rfl
    | cons d comps =>
      refine ih htail (hs.step fps hc) ?_
      rw [List.intercalate_cons_cons, List.length_append, List.length_append,
        List.length_singleton] at h
      -- what the text gets, the rest of the path loses
      have hstep : (s.step fps true c).text.length ≤
          s.text.length + (if s.slash then 1 else 0) + c.length := by
        obtain rfl | rfl | rfl | hreg := component_cases c
        · rw [PathScan.text_keep fps true (keep_nil _)]
          omega
        · rw [PathScan.text_keep fps true (keep_dot _)]
          omega
        · have hle := (List.rdropWhile_prefix (· ≠ SLASH) (l := s.text)).length_le
          rw [PathScan.text_dotdot hs, List.length_dropLast]
          omega
        · rw [PathScan.text_regular hs fps true hreg, List.length_append, List.length_append]
          cases s.slash with
          | true => simp; omega
          | false => simp
      have hslash : (if (s.step fps true c).slash then 1 else 0) ≤ 1 := by split <;> omega
      omega

/-- There is always room to take a component back in a buffer as long as the path. -/
theorem overflows_of_length_le {size : Nat} {path : CStr} (h : path.length ≤ size) :
    Overflows size path = false := by
  refine PathScan.init_ready.overflows (fun c hc => notMem_of_mem_splitOn hc) ?_
  rw [List.intercalate_splitOn]
  simpa [PathScan.init, PathScan.text] using (show path.bytes.length ≤ size from h)

/-- **The length returned by `path_std`** is that of the standard path exactly when no component
is to be taken back beyond the buffer, but for a single character when the buffer has no byte. So
`context_add_path` takes for too long the paths whose standard path is, and those that go beyond
its buffer. -/
theorem pathStd_exact_iff (buffer : Nat → UInt8) (size : Nat) (path : CStr) :
    (path.length ≤ size → StdExact buffer size path) ∧
      (StdExact buffer size path ↔ Overflows size path = false ∨ (size = 0 ∧ OneByte path)) ∧
      ((pathStd buffer stdSize path).1 ≥ stdSize ↔
        (scanPath path).standard.length ≥ stdSize ∨ Overflows stdSize path = true) := by
  have hfits : ∀ {size : Nat}, Overflows size path = false → StdExact buffer size path :=
    fun hover => ⟨(pathStd_scan buffer hover).1, (pathStd_scan buffer hover).2⟩
  refine ⟨fun hle => hfits (overflows_of_length_le hle), ⟨fun hexact => ?_, ?_⟩, ?_⟩
  · by_cases hover : Overflows size path = true
    · right
      obtain ⟨hsize, htext⟩ := pathStd_beyond buffer hover
      rw [hexact.length] at hsize htext
      by_cases hkept : (scanPath path).kept = []
      · have hone : (scanPath path).standard.length = 1 := by
          rw [PathScan.standard, if_pos hkept]
          cases (scanPath path).slash <;> rfl
        obtain rfl : size = 0 := by omega
        refine ⟨rfl, ?_⟩
        have hlen := hexact.length
        rw [hone, pathStd_zero] at hlen
        have hcount :
            (PathCount.count path.Absolute ⟨0, false⟩ (components path.bytes)).len = 1 := by
          have hpos := count_pos_of_overflows hover
          omega
        obtain ⟨pre, b, post, hcomps, hb, hother, hslash⟩ := PathCount.count_eq_one
          (s := .init) rfl rfl rfl hcount
        rw [List.forall_mem_append] at hother
        refine ⟨pre, b, post, hcomps, hb, List.forall_mem_append.2 hother, ?_, hslash⟩
        rw [scanPath, PathScan.kept_scan, hcomps, List.foldl_append, PathScan.init,
          foldl_keep_nil hother.1, List.foldl_cons, keep_regular [] hb] at hkept
        exact (foldl_keep_singleton hother.2 [b]).1 hkept
      · rw [PathScan.standard, if_neg hkept] at htext
        exact absurd htext (Nat.lt_irrefl _)
    · exact .inl (Bool.not_eq_true _ ▸ hover)
  · rintro (hover | ⟨rfl, hone⟩)
    · exact hfits hover
    · exact hone.exact buffer
  · cases hover : Overflows stdSize path with
    | false => simp [(hfits hover).length]
    | true =>
      have hbeyond := pathStd_beyond buffer hover
      exact iff_of_true (Nat.le_of_lt hbeyond.1) (.inr rfl)

/-- The component of `/ab/..` is not taken back beyond the buffer; nor is one of 1100 characters
by `context_add_path`, which refuses the path though its standard path is the root. -/
theorem pathStd_length_depends :
    (¬ ∀ (path : CStr) (buffer buffer' : Nat → UInt8) (size size' : Nat),
        (pathStd buffer size path).1 = (pathStd buffer' size' path).1) ∧
      ∃ path, (pathStd (fun _ => 0) stdSize path).1 ≥ stdSize ∧
        (scanPath path).standard = [SLASH] := by
  refine ⟨fun h => ?_, .ofBytes (SLASH :: (List.replicate 1100 97 ++ [SLASH, DOT, DOT])), ?_, ?_⟩
  · exact absurd (h (.lit "/ab/..") (fun _ => 0) (fun _ => 0) 0 10) (by decide +kernel)
  · decide +kernel
  · decide +kernel

end SecLsmManager
