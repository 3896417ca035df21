import SecLsmManager.Base
import Mathlib.Data.List.DropRight

/-!
# Standard paths

`path_std` of `path-utils.c`: it copies a path to a buffer without its empty, dot and dot-dot
components. It writes inside the buffer only and counts beyond it, and it stops taking
components back once the count is beyond. The invariant `PathCursor.Inv` says what is in the
buffer while the count is inside; a path that ends inside is then normalised.
-/

namespace SecLsmManager

open Lib

def SLASH : UInt8 := 47
def DOT : UInt8 := 46

/-- The locals of `path_std`, with the buffer they fill. -/
structure PathCursor where
  buffer : Nat → UInt8
  len : Nat
  ps : Bool
  sd : Bool

/-- `if (len < size) buffer[len] = c; len++`. -/
def PathCursor.put (k : PathCursor) (size : Nat) (c : UInt8) : PathCursor :=
  { k with
    buffer := if k.len < size then Function.update k.buffer k.len c else k.buffer
    len := k.len + 1 }

/-- `while (len > 0 && buffer[--len] != '/')`. -/
def backToSlash (buffer : Nat → UInt8) : Nat → Nat
  | 0 => 0
  | len + 1 => if buffer len ≠ SLASH then backToSlash buffer len else len

/-- Whether a component ends where `path` starts. -/
def atEnd : List UInt8 → Bool
  | [] => true
  | c :: _ => c = SLASH

/-- One turn of the loop of `path_std` at the character `c`, when `path` follows it. -/
def PathCursor.step (size : Nat) (fps : Bool) (c : UInt8) (path : List UInt8) (k : PathCursor) :
    List UInt8 × PathCursor :=
  if c = SLASH then (path, { k with ps := true, sd := true })
  else if k.sd ∧ c = DOT ∧ atEnd path then (path.drop 1, k)
  else if k.sd ∧ c = DOT ∧ path.head? = some DOT ∧ atEnd (path.drop 1) then
    let len := if k.len ≤ size then backToSlash k.buffer k.len else k.len
    (path.drop 2, { k with len, ps := len > 0 || fps })
  else
    let k := if k.ps then k.put size SLASH else k
    (path, { k.put size c with sd := false, ps := false })

/-- The loop of `path_std` up to the end of the path. -/
def PathCursor.loop (size : Nat) (fps : Bool) : Nat → List UInt8 → PathCursor → PathCursor
  | n + 1, c :: path, k =>
    let (path, k) := k.step size fps c path
    loop size fps n path k
  | _, _, k => k

/-- The last turn of the loop, which returns the length. -/
def PathCursor.finish (size : Nat) (k : PathCursor) : Nat × (Nat → UInt8) :=
  let k := if k.ps ∧ k.len = 0 then k.put size SLASH else k
  let buffer := if k.len < size then Function.update k.buffer k.len 0 else k.buffer
  if k.len = 0 then
    let buffer := if size > 0 then Function.update buffer 0 DOT else buffer
    (1, if size > 1 then Function.update buffer 1 0 else buffer)
  else (k.len, buffer)

/-- The length of the standard path and the buffer after the call. -/
def pathStd (buffer : Nat → UInt8) (size : Nat) (path : CStr) : Nat × (Nat → UInt8) :=
  let fps := path.bytes.head? = some SLASH
  (PathCursor.loop size fps path.length path.bytes ⟨buffer, 0, false, true⟩).finish size

/-! ## Normal form -/

/-- A component of a normalised path. -/
structure Component (c : List UInt8) : Prop where
  ne_nil : c ≠ []
  noslash : SLASH ∉ c
  nonul : 0 ∉ c
  ne_dot : c ≠ [DOT]
  ne_dotdot : c ≠ [DOT, DOT]

/-- An absolute path without empty, dot or dot-dot component, and without a slash at its end
unless it is the root. -/
def CStr.Normalised (p : CStr) : Prop :=
  p.bytes = [SLASH] ∨ ∃ comps, comps ≠ [] ∧ (∀ c ∈ comps, Component c) ∧
    p.bytes = comps.flatMap (SLASH :: ·)

/-- A text of complete components: the first one may have no slash before it. -/
inductive PathText : List UInt8 → Prop
  | nil : PathText []
  | lead {c : List UInt8} : Component c → PathText c
  | snoc {t c : List UInt8} : PathText t → Component c → PathText (t ++ SLASH :: c)

/-- No component has a NUL. -/
theorem PathText.nonul {t : List UInt8} (h : PathText t) : 0 ∉ t := by
  have hs : (0 : UInt8) ≠ SLASH := by decide
  induction h with
  | nil => exact List.not_mem_nil
  | lead hc => exact hc.nonul
  | snoc _ hc ih => simp [ih, hc.nonul, hs]

/-- A text that starts with a slash is that of an absolute path. -/
theorem PathText.absolute {t : List UInt8} (h : PathText t) (h0 : t.head? = some SLASH) :
    ∃ comps, comps ≠ [] ∧ (∀ c ∈ comps, Component c) ∧ t = comps.flatMap (SLASH :: ·) := by
  induction h with
  | nil => cases h0
  | lead hc => exact absurd (List.mem_of_mem_head? h0) hc.noslash
  | @snoc t c ht hc ih =>
    by_cases h : t = []
    · subst h
      exact ⟨[c], by simp, by simpa using hc, by simp⟩
    · rw [List.head?_append_of_ne_nil _ h] at h0
      obtain ⟨comps, -, h2, rfl⟩ := ih h0
      refine ⟨comps ++ [c], by simp, fun d hd => ?_, by simp⟩
      rcases List.mem_append.1 hd with hd | hd
      · exact h2 d hd
      · rw [List.mem_singleton.1 hd]
        exact hc

/-- What is left in the buffer ends before the last slash. -/
theorem cells_backToSlash (b : Nat → UInt8) (n : Nat) :
    cells b 0 (backToSlash b n) = ((cells b 0 n).rdropWhile (· ≠ SLASH)).dropLast := by
  induction n with
  | zero => rfl
  | succ n ih =>
    rw [backToSlash, cells_succ_last, List.rdropWhile_concat, Nat.zero_add]
    by_cases h : b n = SLASH
    · simp [h]
    · simp only [ne_eq, h, not_false_eq_true, if_true, decide_true]
      exact ih

/-- The last component is taken away whole. -/
theorem rdropWhile_noslash {c : List UInt8} (h : SLASH ∉ c) (t : List UInt8) :
    (t ++ c).rdropWhile (· ≠ SLASH) = t.rdropWhile (· ≠ SLASH) := by
  induction c using List.reverseRecOn with
  | nil => rw [List.append_nil]
  | append_singleton c d ih =>
    simp only [List.mem_append, List.mem_singleton, not_or] at h
    rw [← List.append_assoc, List.rdropWhile_concat_pos _ _ _ (by simpa using Ne.symm h.2)]
    exact ih h.1

/-- Going back to the last slash takes the last component off. -/
theorem PathText.back {t : List UInt8} (h : PathText t) :
    PathText (t.rdropWhile (· ≠ SLASH)).dropLast := by
  cases h with
  | nil => exact .nil
  | lead hc =>
    have := rdropWhile_noslash hc.noslash []
    rw [List.nil_append] at this
    rw [this]
    exact .nil
  | @snoc t c ht hc =>
    rw [show t ++ SLASH :: c = t ++ [SLASH] ++ c by simp, rdropWhile_noslash hc.noslash,
      List.rdropWhile_concat_neg _ _ _ (by simp), List.dropLast_concat]
    exact ht

/-! ## The invariant of the loop -/

/-- The rest of the component in progress. -/
def segment (path : List UInt8) : List UInt8 := path.takeWhile (· ≠ SLASH)

/-- The text in the buffer when `path` follows: complete components, or one in progress. -/
inductive Written (path : List UInt8) : Bool → List UInt8 → Prop
  | complete {t : List UInt8} : PathText t → Written path true t
  | first {c : List UInt8} : c ≠ [] → Component (c ++ segment path) → Written path false c
  | next {t c : List UInt8} : PathText t → c ≠ [] → Component (c ++ segment path) →
      Written path false (t ++ SLASH :: c)

/-- At the end of a component the text is made of complete ones. -/
theorem Written.close {path t : List UInt8} {sd : Bool} (h : Written path sd t)
    (he : segment path = []) : PathText t := by
  cases h with
  | complete ht => exact ht
  | first _ hc => exact .lead (by simpa [he] using hc)
  | next ht _ hc => exact .snoc ht (by simpa [he] using hc)

/-- Between two components the text is complete. -/
theorem Written.text {path t : List UInt8} (h : Written path true t) : PathText t := by
  cases h with
  | complete ht => exact ht

structure PathCursor.Inv (size : Nat) (k : PathCursor) (path : List UInt8) : Prop where
  pending : k.ps = true → k.sd = true
  fresh : k.sd = true → k.ps = false → k.len = 0
  text : k.len ≤ size → Written path k.sd (cells k.buffer 0 k.len)
  nonul : 0 ∉ path

/-- A character that is stored is behind the text. -/
theorem PathCursor.cells_put {size : Nat} {k : PathCursor} {c : UInt8}
    (h : (k.put size c).len ≤ size) :
    cells (k.put size c).buffer 0 (k.put size c).len = cells k.buffer 0 k.len ++ [c] := by
  have hlt : k.len < size := h
  simp only [PathCursor.put, if_pos hlt]
  have := cells_update_last k.buffer 0 k.len c
  rwa [Nat.zero_add] at this

/-- A component ends at a slash. -/
theorem segment_slash (path : List UInt8) : segment (SLASH :: path) = [] := by
  simp [segment]

/-- It goes on with any other character. -/
theorem segment_cons {c : UInt8} (h : c ≠ SLASH) (path : List UInt8) :
    segment (c :: path) = c :: segment path := by
  simp [segment, h]

/-- It is at its end there. -/
theorem segment_eq_nil {path : List UInt8} : segment path = [] ↔ atEnd path = true := by
  cases path with
  | nil => simp [segment, atEnd]
  | cons c path => by_cases h : c = SLASH <;> simp [segment, atEnd, h]

/-- It has no NUL. -/
theorem nonul_segment {path : List UInt8} (h : 0 ∉ path) : 0 ∉ segment path :=
  fun hm => h (List.takeWhile_subset _ hm)

/-- It has no slash. -/
theorem noslash_segment (path : List UInt8) : SLASH ∉ segment path := fun h => by
  simpa using List.mem_takeWhile_imp h

/-- A component that starts with `c` is a proper one, unless it is dot or dot-dot. -/
theorem component_cons {c : UInt8} {path : List UInt8} (hc : c ≠ SLASH) (h0 : 0 ∉ c :: path)
    (h1 : ¬ (c = DOT ∧ atEnd path = true))
    (h2 : ¬ (c = DOT ∧ path.head? = some DOT ∧ atEnd (path.drop 1) = true)) :
    Component (c :: segment path) where
  ne_nil := List.cons_ne_nil _ _
  noslash := by
    simp only [List.mem_cons, not_or]
    exact ⟨Ne.symm hc, noslash_segment path⟩
  nonul := by
    have := nonul_segment h0
    rwa [segment_cons hc] at this
  ne_dot := fun h => by
    rw [List.cons.injEq, segment_eq_nil] at h
    exact h1 h
  ne_dotdot := fun h => by
    rw [List.cons.injEq] at h
    refine h2 ⟨h.1, ?_⟩
    cases path with
    | nil => cases h.2
    | cons d path =>
      by_cases hd : d = SLASH
      · rw [hd, segment_slash] at h
        cases h.2
      · rw [segment_cons hd, List.cons.injEq, segment_eq_nil] at h
        exact ⟨by rw [h.2.1]; rfl, h.2.2⟩

/-- Each turn of the loop keeps the invariant. -/
theorem PathCursor.Inv.step {size : Nat} {k : PathCursor} {c : UInt8} {path : List UInt8}
    (h : k.Inv size (c :: path)) (fps : Bool) :
    (k.step size fps c path).2.Inv size (k.step size fps c path).1 := by
  have h0 : 0 ∉ path := fun hm => h.nonul (List.mem_cons_of_mem _ hm)
  unfold PathCursor.step
  split
  · rename_i hc
    subst hc
    exact ⟨fun _ => rfl, fun _ hf => (nomatch hf),
      fun hl => .complete ((h.text hl).close (segment_slash path)), h0⟩
  split
  · rename_i hsd
    refine ⟨h.pending, h.fresh, fun hl => ?_, fun hm => h0 (List.mem_of_mem_drop hm)⟩
    have ht := h.text hl
    rw [hsd.1] at ht ⊢
    exact .complete ht.text
  split
  · rename_i hsd
    refine ⟨fun _ => hsd.1, fun _ hps => ?_, fun hl => ?_, fun hm => h0 (List.mem_of_mem_drop hm)⟩
    · simpa using (Bool.or_eq_false_iff.1 hps).1
    · simp only at hl ⊢
      rw [hsd.1]
      split at hl
      · rename_i hle
        have ht := h.text hle
        rw [hsd.1] at ht
        rw [if_pos hle, cells_backToSlash]
        exact .complete ht.text.back
      · contradiction
  · rename_i hc h1 h2
    refine ⟨fun hf => (nomatch hf), fun hf => (nomatch hf), fun hl => ?_, h0⟩
    simp only at hl ⊢
    rw [PathCursor.cells_put hl]
    by_cases hps : k.ps = true
    · -- a component starts after a slash
      have hsd := h.pending hps
      simp only [hsd, true_and] at h1 h2
      simp only [if_pos hps] at hl ⊢
      have hl' : (k.put size SLASH).len ≤ size := Nat.le_of_succ_le hl
      have ht := h.text (Nat.le_of_succ_le hl')
      rw [hsd] at ht
      rw [PathCursor.cells_put hl', List.append_assoc]
      exact .next ht.text (List.cons_ne_nil _ _) (component_cons hc h.nonul h1 h2)
    · simp only [if_neg hps] at hl ⊢
      have ht := h.text (Nat.le_of_succ_le hl)
      by_cases hsd : k.sd = true
      · -- the first component starts
        simp only [hsd, true_and] at h1 h2
        rw [h.fresh hsd (by simpa using hps)]
        exact .first (List.cons_ne_nil _ _) (component_cons hc h.nonul h1 h2)
      · -- the component in progress goes on
        have hsd' : k.sd = false := by simpa using hsd
        rw [hsd'] at ht
        generalize cells k.buffer 0 k.len = T at ht
        cases ht with
        | first hne hcomp =>
          rw [segment_cons hc] at hcomp
          exact .first (by simp) (by simpa using hcomp)
        | @next t d ht hne hcomp =>
          rw [segment_cons hc] at hcomp
          rw [List.append_assoc, List.cons_append]
          exact .next ht (by simp) (by simpa using hcomp)

/-- No turn of the loop adds to what is left of the path. -/
theorem PathCursor.step_length (size : Nat) (fps : Bool) (c : UInt8) (path : List UInt8)
    (k : PathCursor) : (k.step size fps c path).1.length ≤ path.length := by
  unfold PathCursor.step
  split
  · exact Nat.le_refl _
  split
  · simp
  split
  · simp
  · exact Nat.le_refl _

/-- The invariant holds when the path is at its end. -/
theorem PathCursor.Inv.loop {size : Nat} (fps : Bool) : ∀ {n : Nat} {path : List UInt8}
    {k : PathCursor}, k.Inv size path → path.length ≤ n →
      (PathCursor.loop size fps n path k).Inv size []
  | 0, [], k, h, _ => h
  | 0, _ :: _, _, _, hn => absurd hn (Nat.not_succ_le_zero _)
  | _ + 1, [], k, h, _ => h
  | n + 1, c :: path, k, h, hn => by
    have hlen := k.step_length size fps c path
    rw [PathCursor.loop]
    refine (h.step fps).loop fps ?_
    rw [List.length_cons] at hn
    omega

/-- A text that a NUL ends inside the buffer is the string of the buffer. -/
theorem ofBytes_ended {b : Nat → UInt8} {n size : Nat} (hlt : n < size)
    (hnonul : 0 ∉ cells b 0 n) :
    (CStr.ofBytes (cells (Function.update b n 0) 0 size)).bytes = cells b 0 n := by
  have hc : cells (Function.update b n 0) 0 n = cells b 0 n :=
    cells_update_outside b 0 (.inr (Nat.le_of_eq (Nat.zero_add n)))
  have hb := CStr.bytes_ofBytes_cells hlt (Function.update_self n 0 b) (hc ▸ hnonul)
  rwa [hc] at hb

/-- An absolute path that ends inside the buffer is there: it is the root, or the text that the
loop wrote. -/
theorem PathCursor.Inv.finish_text {size : Nat} {k : PathCursor} (h : k.Inv size [])
    (hlt : (k.finish size).1 < size) (h0 : (k.finish size).2 0 = SLASH) :
    let t := (CStr.ofBytes (cells (k.finish size).2 0 size)).bytes
    t.length = (k.finish size).1 ∧
      (t = [SLASH] ∨ k.len ≤ size ∧ t = cells k.buffer 0 k.len ∧ t.head? = some SLASH) := by
  by_cases hlen : k.len = 0
  · by_cases hps : k.ps = true
    · -- the root
      have h1 : (k.finish size).1 = 1 := by simp [PathCursor.finish, PathCursor.put, hlen, hps]
      rw [h1] at hlt
      have hf : k.finish size = (1, Function.update (Function.update k.buffer 0 SLASH) 1 0) := by
        simp [PathCursor.finish, PathCursor.put, hlen, hps, hlt, Nat.lt_of_succ_lt hlt]
      have hroot : cells (Function.update k.buffer 0 SLASH) 0 1 = [SLASH] := by simp [cells_succ]
      rw [hf, ofBytes_ended hlt (by rw [hroot]; decide), hroot]
      exact ⟨rfl, .inl rfl⟩
    · -- no component and no slash: the path is relative
      have h1 : (k.finish size).1 = 1 := by simp [PathCursor.finish, hlen, hps]
      rw [h1] at hlt
      have hd : (k.finish size).2 0 = DOT := by
        simp [PathCursor.finish, hlen, hps, hlt, Nat.lt_of_succ_lt hlt]
      rw [hd] at h0
      exact absurd h0 (by decide)
  · have h1 : (k.finish size).1 = k.len := by simp [PathCursor.finish, hlen]
    rw [h1] at hlt
    have hf : k.finish size = (k.len, Function.update k.buffer k.len 0) := by
      simp [PathCursor.finish, hlen, hlt]
    have htext : PathText (cells k.buffer 0 k.len) := (h.text (Nat.le_of_lt hlt)).close rfl
    rw [hf] at h0
    have h0 : k.buffer 0 = SLASH := (Function.update_of_ne (Ne.symm hlen) 0 k.buffer).symm.trans h0
    rw [hf, ofBytes_ended hlt htext.nonul]
    refine ⟨cells_length _ _ _, .inr ⟨Nat.le_of_lt hlt, rfl, ?_⟩⟩
    obtain ⟨n, hn⟩ := Nat.exists_eq_succ_of_ne_zero hlen
    rw [hn, cells_succ, h0]
    rfl

/-- An absolute path that ends inside the buffer is there, normalised. -/
theorem PathCursor.Inv.finish {size : Nat} {k : PathCursor} (h : k.Inv size [])
    (hlt : (k.finish size).1 < size) (h0 : (k.finish size).2 0 = SLASH) :
    (CStr.ofBytes (cells (k.finish size).2 0 size)).Normalised ∧
      (CStr.ofBytes (cells (k.finish size).2 0 size)).length = (k.finish size).1 := by
  obtain ⟨hlen, hroot | ⟨hle, htext, hhead⟩⟩ := h.finish_text hlt h0
  · exact ⟨.inl hroot, hlen⟩
  · refine ⟨.inr ?_, hlen⟩
    have ht : PathText (cells k.buffer 0 k.len) := (h.text hle).close rfl
    rw [htext] at hhead ⊢
    exact ht.absolute hhead

/-- **`path_std` normalises.** A standard path that is shorter than the buffer and starts with a
slash is normalised, and its length is the one returned. -/
theorem pathStd_spec (buffer : Nat → UInt8) (size : Nat) (path : CStr)
    (hlt : (pathStd buffer size path).1 < size) (h0 : (pathStd buffer size path).2 0 = SLASH) :
    (CStr.ofBytes (cells (pathStd buffer size path).2 0 size)).Normalised ∧
      (CStr.ofBytes (cells (pathStd buffer size path).2 0 size)).length =
        (pathStd buffer size path).1 := by
  have hinit : PathCursor.Inv size ⟨buffer, 0, false, true⟩ path.bytes :=
    ⟨fun hf => (nomatch hf), fun _ _ => rfl, fun _ => .complete .nil, path.nonul⟩
  exact (hinit.loop _ (Nat.le_refl _)).finish hlt h0

end SecLsmManager
