import Mathlib.Data.List.Basic
import Mathlib.Logic.Function.Basic

/-!
# Byte cells: segments and rings

A buffer of a C program is a block of cells read by index. This module reads such a block in
the two ways a bounded buffer uses it: as a linear segment (`cells`), and as a ring of `cap`
cells whose indices wrap (`ringCells`). A write is `Function.update`; the lemmas say which
segments a write leaves alone and which it extends.
-/

namespace Lib

variable {α : Type*}

/-! ## Linear segments -/

/-- The `n` cells from index `i` on. -/
def cells (m : Nat → α) (i n : Nat) : List α :=
  (List.range n).map fun k => m (i + k)

@[simp] theorem cells_length (m : Nat → α) (i n : Nat) : (cells m i n).length = n := by
  simp [cells]

@[simp] theorem cells_zero (m : Nat → α) (i : Nat) : cells m i 0 = [] := rfl

/-- A cell of the block. -/
@[simp] theorem getElem_cells (m : Nat → α) (i n k : Nat) (h : k < (cells m i n).length) :
    (cells m i n)[k] = m (i + k) := by
  simp [cells]

/-- A segment starts with its first cell. -/
theorem cells_succ (m : Nat → α) (i n : Nat) :
    cells m i (n + 1) = m i :: cells m (i + 1) n := by
  apply List.ext_getElem (by simp)
  intro k h1 h2
  cases k with
  | zero => simp
  | succ k => simp; congr 1; omega

/-- A segment ends with its last cell. -/
theorem cells_succ_last (m : Nat → α) (i n : Nat) :
    cells m i (n + 1) = cells m i n ++ [m (i + n)] := by
  simp [cells, List.range_succ]

/-- A segment splits at any length. -/
theorem cells_append (m : Nat → α) (i n k : Nat) :
    cells m i (n + k) = cells m i n ++ cells m (i + n) k := by
  induction k with
  | zero => simp
  | succ k ih =>
      rw [← Nat.add_assoc, cells_succ_last, ih, cells_succ_last, List.append_assoc,
        Nat.add_assoc i n k]

/-- Two blocks that agree on a segment have the same segment. -/
theorem cells_congr {m m' : Nat → α} {i n : Nat} (h : ∀ k, i ≤ k → k < i + n → m k = m' k) :
    cells m i n = cells m' i n := by
  apply List.ext_getElem (by simp)
  intro k h1 h2
  simp only [cells_length] at h1
  simp only [getElem_cells]
  exact h _ (by omega) (by omega)

/-- A write outside a segment leaves it alone. -/
theorem cells_update_outside (m : Nat → α) {i n j : Nat} (v : α) (h : j < i ∨ i + n ≤ j) :
    cells (Function.update m j v) i n = cells m i n :=
  cells_congr fun k h1 h2 => Function.update_of_ne (by omega) _ _

/-- A write just past a segment extends it. -/
theorem cells_update_last (m : Nat → α) (i n : Nat) (v : α) :
    cells (Function.update m (i + n) v) i (n + 1) = cells m i n ++ [v] := by
  rw [cells_succ_last, cells_update_outside _ _ (.inr (Nat.le_refl _)), Function.update_self]

/-! ## Block writes -/

/-- The block `m` with the list `l` written from index `i` on. -/
def writeCells (m : Nat → α) (i : Nat) (l : List α) : Nat → α :=
  fun k => if i ≤ k then l.getD (k - i) (m k) else m k

/-- The cells before the text are as they were. -/
theorem writeCells_of_lt (m : Nat → α) {i k : Nat} (l : List α) (h : k < i) :
    writeCells m i l k = m k := if_neg (by omega)

/-- So are those behind it. -/
theorem writeCells_of_ge (m : Nat → α) {i k : Nat} (l : List α) (h : i + l.length ≤ k) :
    writeCells m i l k = m k := by
  unfold writeCells
  split
  · rw [List.getD_eq_getElem?_getD, List.getElem?_eq_none (by omega), Option.getD_none]
  · rfl

/-- The cells of the text. -/
theorem writeCells_getElem (m : Nat → α) (i : Nat) (l : List α) {k : Nat} (h : k < l.length) :
    writeCells m i l (i + k) = l[k] := by
  simp [writeCells, h]

@[simp] theorem writeCells_nil (m : Nat → α) (i : Nat) : writeCells m i [] = m := by
  funext k
  simp [writeCells]

/-- A list is written from its first element on. -/
theorem writeCells_cons (m : Nat → α) (i : Nat) (a : α) (l : List α) :
    writeCells m i (a :: l) = writeCells (Function.update m i a) (i + 1) l := by
  funext k
  unfold writeCells
  obtain hlt | rfl | hgt := Nat.lt_trichotomy k i
  · rw [if_neg (by omega), if_neg (by omega), Function.update_of_ne (by omega)]
  · rw [if_pos (Nat.le_refl k), if_neg (by omega), Function.update_self, Nat.sub_self]
    rfl
  · rw [if_pos (by omega), if_pos (by omega), Function.update_of_ne (by omega),
      show k - i = k - (i + 1) + 1 by omega, List.getD_cons_succ]

/-- Reading back the written list. -/
theorem cells_writeCells (m : Nat → α) (i : Nat) (l : List α) :
    cells (writeCells m i l) i l.length = l := by
  apply List.ext_getElem (by simp)
  intro k h1 h2
  simp [writeCells, h2]

/-! ## Rings -/

/-- The `n` cells from index `i` on in a ring of `cap` cells. -/
def ringCells (cap : Nat) (m : Nat → α) (i n : Nat) : List α :=
  (List.range n).map fun k => m ((i + k) % cap)

/-- The index `k` cells after `i` in a ring of `cap` cells, by comparison and subtraction. -/
def wrap (cap i : Nat) : Nat := if i ≥ cap then i - cap else i

/-- Below two turns, the comparison computes the remainder. -/
theorem wrap_eq_mod {cap i : Nat} (h : i < 2 * cap) : wrap cap i = i % cap := by
  unfold wrap
  split
  · rw [Nat.mod_eq_sub_mod ‹_›, Nat.mod_eq_of_lt (by omega)]
  · rw [Nat.mod_eq_of_lt (by omega)]

/-- An index that is wrapped once is in the ring. -/
theorem wrap_lt {cap i : Nat} (h : i < 2 * cap) : wrap cap i < cap := by
  unfold wrap
  split <;> omega

@[simp] theorem ringCells_length (cap : Nat) (m : Nat → α) (i n : Nat) :
    (ringCells cap m i n).length = n := by
  simp [ringCells]

/-- A cell of the ring. -/
@[simp] theorem getElem_ringCells (cap : Nat) (m : Nat → α) (i n k : Nat)
    (h : k < (ringCells cap m i n).length) :
    (ringCells cap m i n)[k] = m ((i + k) % cap) := by
  simp [ringCells]

/-- Distinct offsets of less than one turn are distinct cells. -/
theorem ring_index_ne {cap i a b : Nat} (hab : a < b) (hb : b < cap) :
    (i + a) % cap ≠ (i + b) % cap := by
  intro h
  have h1 := Nat.div_add_mod (i + a) cap
  have h2 := Nat.div_add_mod (i + b) cap
  have h3 : cap * ((i + b) / cap) = cap * ((i + a) / cap) + (b - a) := by omega
  have h4 : (b - a) % cap = 0 := by
    rw [← Nat.mul_add_mod cap ((i + a) / cap) (b - a), ← h3, Nat.mul_mod_right]
  rw [Nat.mod_eq_of_lt (by omega)] at h4
  omega

/-- A write to a free cell leaves the ring's content alone. -/
theorem ringCells_update_free (cap : Nat) (m : Nat → α) (i n k : Nat) (v : α) (h1 : n ≤ k)
    (h2 : k < cap) : ringCells cap (Function.update m ((i + k) % cap) v) i n =
      ringCells cap m i n := by
  apply List.ext_getElem (by simp)
  intro j h3 h4
  simp only [ringCells_length] at h3
  simp only [getElem_ringCells]
  exact Function.update_of_ne (ring_index_ne (by omega) h2) _ _

/-- A write to the first free cell appends to the ring's content. -/
theorem ringCells_push (cap : Nat) (m : Nat → α) (i n : Nat) (v : α) (h : n < cap) :
    ringCells cap (Function.update m ((i + n) % cap) v) i (n + 1) = ringCells cap m i n ++ [v] := by
  have h1 := ringCells_update_free cap m i n n v (Nat.le_refl _) h
  unfold ringCells at h1 ⊢
  rw [List.range_succ, List.map_append, h1]
  simp

/-- Dropping from the ring's content moves its start. -/
theorem ringCells_drop (cap : Nat) (m : Nat → α) (i n k : Nat) :
    (ringCells cap m i n).drop k = ringCells cap m ((i + k) % cap) (n - k) := by
  apply List.ext_getElem (by simp)
  intro j h1 h2
  simp only [List.getElem_drop, getElem_ringCells, Nat.mod_add_mod, Nat.add_assoc]

/-- Taking from the ring's content shortens it. -/
theorem ringCells_take (cap : Nat) (m : Nat → α) (i n k : Nat) (h : k ≤ n) :
    (ringCells cap m i n).take k = ringCells cap m i k := by
  apply List.ext_getElem (by simp [h])
  intro j h1 h2
  simp

/-- A ring's content that does not wrap is one segment. -/
theorem ringCells_one {cap : Nat} (m : Nat → α) {i n : Nat} (h : i + n ≤ cap) :
    ringCells cap m i n = cells m i n := by
  apply List.ext_getElem (by simp)
  intro j h1 h2
  simp only [ringCells_length] at h1
  simp only [getElem_ringCells, getElem_cells]
  rw [Nat.mod_eq_of_lt (by omega)]

/-- A ring's content that wraps is a segment up to the end and one from the start. -/
theorem ringCells_two {cap : Nat} (m : Nat → α) {i n : Nat} (hi : i < cap) (hn : n ≤ cap)
    (h : cap < i + n) :
    ringCells cap m i n = cells m i (cap - i) ++ cells m 0 (n - (cap - i)) := by
  apply List.ext_getElem (by simp; omega)
  intro j h1 h2
  simp only [ringCells_length] at h1
  simp only [getElem_ringCells, List.getElem_append, cells_length, getElem_cells]
  split
  · rw [Nat.mod_eq_of_lt (by omega)]
  · rw [Nat.mod_eq_sub_mod (by omega), Nat.mod_eq_of_lt (by omega)]
    congr 1
    omega

end Lib
