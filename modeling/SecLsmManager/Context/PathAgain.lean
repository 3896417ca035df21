import SecLsmManager.Context.PathNormal
import SecLsmManager.Client.Utf8

/-!
# Standard paths again

A normalised path that fits in the buffer is its own standard path (`stdPath_normalised`), and the
standard path of a path that passes `is_utf8` passes it too (`pathStd_utf8`): `path_std` cuts at
slashes only, and no character of several bytes holds one.
-/

namespace SecLsmManager

open Lib

/-! ## Fixed points -/

/-- **A normalised path is its own standard path.** -/
theorem stdPath_normalised {path : CStr} (h : path.Normalised) {size : Nat}
    (hsize : path.length < size) :
    (pathStd (fun _ => 0) size path).1 = path.length ∧
      (pathStd (fun _ => 0) size path).2 0 = SLASH ∧
      CStr.ofBytes (cells (pathStd (fun _ => 0) size path).2 0 size) = path := by
  obtain ⟨hlen, htext⟩ := pathStd_normalised (fun _ => 0) h hsize
  obtain ⟨rest, hrest⟩ := h.absolute.bytes
  refine ⟨hlen, ?_, CStr.ext (htext.string hsize path.nonul)⟩
  have hpos : 0 < min path.bytes.length size := by
    rw [CStr.length, hrest, List.length_cons] at hsize
    rw [hrest, List.length_cons]
    omega
  have hstored := htext.stored
  obtain ⟨n, hn⟩ := Nat.exists_eq_succ_of_ne_zero (Nat.ne_of_gt hpos)
  rw [hn, cells_succ, List.take_of_length_le (Nat.le_of_lt hsize), hrest] at hstored
  exact (List.cons.inj hstored).1

/-! ## UTF-8 -/

/-- The check goes on behind a text that passes it. -/
theorem utf8Loop_append {len : Nat} {a : List UInt8} (h : utf8Loop len a = true)
    (b : List UInt8) : utf8Loop len (a ++ b) = utf8Loop 0 b := by
  induction a generalizing len with
  | nil =>
    cases len with
    | zero => rfl
    | succ len => cases h
  | cons c a ih =>
    cases len with
    | zero =>
      rw [List.cons_append]
      simp only [utf8Loop] at h ⊢
      cases hc : utf8Length c with
      | none => simp only [hc, Bool.false_eq_true] at h
      | some len =>
        simp only [hc] at h ⊢
        exact ih h
    | succ len =>
      rw [List.cons_append]
      simp only [utf8Loop] at h ⊢
      split at h
      · cases h
      · rename_i hc
        rw [if_neg hc]
        exact ih h

/-- A slash is a character, wherever it is. -/
theorem utf8Loop_slash (len : Nat) (a b : List UInt8) :
    utf8Loop len (a ++ SLASH :: b) = (utf8Loop len a && utf8Loop 0 b) := by
  induction a generalizing len with
  | nil =>
    cases len with
    | zero => rfl
    | succ len => rfl
  | cons c a ih =>
    cases len with
    | zero =>
      rw [List.cons_append]
      simp only [utf8Loop]
      cases utf8Length c with
      | none => rfl
      | some len => exact ih len
    | succ len =>
      rw [List.cons_append]
      simp only [utf8Loop]
      split
      · rfl
      · exact ih len

/-- Going back to a slash leaves a text that passes the check. -/
theorem utf8Loop_back {t : List UInt8} (h : utf8Loop 0 t = true) :
    utf8Loop 0 (t.rdropWhile (· ≠ SLASH)).dropLast = true := by
  cases hdrop : (t.rdropWhile (· ≠ SLASH)).reverse with
  | nil => rw [List.reverse_eq_nil_iff.1 hdrop]; rfl
  | cons c r =>
    have heq : t.rdropWhile (· ≠ SLASH) = r.reverse ++ [c] := by
      rw [← List.reverse_reverse (t.rdropWhile (· ≠ SLASH)), hdrop, List.reverse_cons]
    have hne : t.rdropWhile (· ≠ SLASH) ≠ [] := by
      rw [heq]
      simp
    have hget := (List.getLast_congr hne (by simp) heq).trans List.getLast_concat
    have hc : c = SLASH := by
      have hlast := List.rdropWhile_last_not (· ≠ SLASH) t hne
      rw [hget] at hlast
      simpa using hlast
    obtain ⟨s, hs⟩ := List.rdropWhile_prefix (· ≠ SLASH) (l := t)
    rw [← hs, heq, hc, List.append_assoc, List.singleton_append, utf8Loop_slash,
      Bool.and_eq_true] at h
    rw [heq, List.dropLast_concat]
    exact h.1

/-- The text in the buffer and the rest of the path pass the check, together in a component and
one by one between two of them. -/
def PathCursor.Utf8 (size : Nat) (k : PathCursor) (path : List UInt8) : Prop :=
  k.len ≤ size →
    match k.sd with
    | true => utf8Loop 0 (cells k.buffer 0 k.len) = true ∧ utf8Loop 0 path = true
    | false => utf8Loop 0 (cells k.buffer 0 k.len ++ path) = true

/-- Each turn of the loop keeps the texts well formed. -/
theorem PathCursor.Utf8.step {size : Nat} {k : PathCursor} {c : UInt8} {path : List UInt8}
    (hinv : k.Inv size (c :: path)) (h : k.Utf8 size (c :: path)) (fps : Bool) :
    (k.step size fps c path).2.Utf8 size (k.step size fps c path).1 := by
  have dot : ∀ {l : List UInt8}, utf8Loop 0 (DOT :: l) = utf8Loop 0 l := rfl
  -- behind an end of component comes the end or a slash
  have skip : ∀ {l : List UInt8}, atEnd l = true → utf8Loop 0 l = true →
      utf8Loop 0 (l.drop 1) = true := by
    intro l he hl
    cases l with
    | nil => rfl
    | cons d l =>
      simp only [atEnd, decide_eq_true_eq] at he
      subst he
      exact hl
  unfold PathCursor.step
  split
  · rename_i hc
    subst hc
    intro hle
    have hk := h hle
    cases hsd : k.sd with
    | true =>
      simp only [hsd] at hk
      exact ⟨hk.1, hk.2⟩
    | false =>
      simp only [hsd, utf8Loop_slash, Bool.and_eq_true] at hk
      exact hk
  split
  · rename_i hdot
    obtain ⟨hsd, rfl, he⟩ := hdot
    intro hle
    have hk := h hle
    simp only [hsd] at hk ⊢
    exact ⟨hk.1, skip he (dot ▸ hk.2)⟩
  split
  · rename_i hdot
    obtain ⟨hsd, rfl, hh, he⟩ := hdot
    intro hle
    obtain ⟨l, rfl⟩ := List.head?_eq_some_iff.1 hh
    simp only at hle
    split at hle
    · rename_i hlen
      have hk := h hlen
      simp only [hsd, if_pos hlen] at hk ⊢
      rw [cells_backToSlash]
      refine ⟨utf8Loop_back hk.1, ?_⟩
      rw [dot, dot] at hk
      exact skip he hk.2
    · contradiction
  · rename_i hc _ _
    intro hle
    simp only at hle ⊢
    rw [PathCursor.cells_put hle]
    cases hps : k.ps with
    | true =>
      have hsd := hinv.pending hps
      simp only [hps, if_true] at hle ⊢
      have hle' : (k.put size SLASH).len ≤ size := Nat.le_of_succ_le hle
      have hk := h (Nat.le_of_succ_le hle')
      simp only [hsd] at hk
      rw [PathCursor.cells_put hle', List.append_assoc, List.append_assoc, utf8Loop_append hk.1]
      exact hk.2
    | false =>
      simp only [hps, Bool.false_eq_true, if_false] at hle ⊢
      have hk := h (Nat.le_of_succ_le hle)
      cases hsd : k.sd with
      | true =>
        simp only [hsd] at hk
        rw [hinv.fresh hsd hps]
        exact hk.2
      | false =>
        simp only [hsd] at hk
        rw [List.append_assoc]
        exact hk

theorem PathCursor.Utf8.loop {size : Nat} (fps : Bool) : ∀ {n : Nat} {path : List UInt8}
    {k : PathCursor}, k.Inv size path → k.Utf8 size path → path.length ≤ n →
      (PathCursor.loop size fps n path k).Utf8 size []
  | 0, [], k, _, h, _ => h
  | 0, _ :: _, _, _, _, hn => absurd hn (Nat.not_succ_le_zero _)
  | _ + 1, [], k, _, h, _ => h
  | n + 1, c :: path, k, hinv, h, hn => by
    have hlen := k.step_length size fps c path
    rw [PathCursor.loop]
    refine PathCursor.Utf8.loop fps (hinv.step fps) (h.step hinv fps) ?_
    exact Nat.le_trans hlen (Nat.le_of_succ_le_succ hn)

/-- **`path_std` keeps UTF-8.** -/
theorem pathStd_utf8 {size : Nat} {path : CStr} (h : isUtf8 path = true)
    (hlt : (pathStd (fun _ => 0) size path).1 < size)
    (h0 : (pathStd (fun _ => 0) size path).2 0 = SLASH) :
    isUtf8 (CStr.ofBytes (cells (pathStd (fun _ => 0) size path).2 0 size)) = true := by
  have hinit : PathCursor.Inv size ⟨fun _ => 0, 0, false, true⟩ path.bytes :=
    ⟨fun hf => (nomatch hf), fun _ _ => rfl, fun _ => .complete .nil, path.nonul⟩
  have hutf8 : PathCursor.Utf8 size ⟨fun _ => 0, 0, false, true⟩ path.bytes := fun _ => ⟨rfl, h⟩
  have hfuel : path.bytes.length ≤ path.length := Nat.le_refl _
  have hloop := hutf8.loop (decide (path.bytes.head? = some SLASH)) hinit hfuel
  have hend := hinit.loop (decide (path.bytes.head? = some SLASH)) hfuel
  have htext := hend.finish_text hlt h0
  obtain ⟨-, hroot | ⟨hle, hcells, -⟩⟩ := htext
  · rw [isUtf8, pathStd, hroot]
    rfl
  · rw [isUtf8, pathStd, hcells]
    have hk := hloop hle
    split at hk
    · exact hk.1
    · rwa [List.append_nil] at hk

end SecLsmManager
