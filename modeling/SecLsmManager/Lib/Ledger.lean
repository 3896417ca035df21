import Mathlib.Data.List.Nodup
import Mathlib.Data.List.Range
import Mathlib.Data.List.Perm.Basic

/-!
# Ledgers of resources

The account of resources that are acquired and released. A resource is named by its rank among
those that were acquired. A ledger is sound when each release was of a resource that was held: then
no resource is released twice, and those that are held are as many as the difference.
-/

namespace Lib

/-- The count of resources that were acquired, and the ranks of those that were released. -/
structure Ledger where
  acquired : Nat
  released : List Nat
  deriving DecidableEq

namespace Ledger

/-- Nothing was acquired yet. -/
def empty : Ledger := ⟨0, []⟩

/-- The ledger after the acquisition of the resource of rank `l.acquired`. -/
def acquire (l : Ledger) : Ledger := { l with acquired := l.acquired + 1 }

def release (l : Ledger) (n : Nat) : Ledger := { l with released := l.released ++ [n] }

/-- The resources that were acquired and not released. -/
def held (l : Ledger) : List Nat := (List.range l.acquired).filter (· ∉ l.released)

/-- What is held was acquired and not yet released. -/
theorem mem_held {l : Ledger} {n : Nat} : n ∈ l.held ↔ n < l.acquired ∧ n ∉ l.released := by
  simp [held]

/-- Each resource was released once at most, and after it was acquired. -/
structure Sound (l : Ledger) : Prop where
  lt : ∀ n ∈ l.released, n < l.acquired
  nodup : l.released.Nodup

variable {l : Ledger} {n : Nat}

/-- The empty ledger is sound. -/
theorem Sound.empty : Sound empty := ⟨List.forall_mem_nil _, List.nodup_nil⟩

/-- Acquiring keeps a ledger sound. -/
theorem Sound.acquire (h : l.Sound) : l.acquire.Sound :=
  ⟨fun n hn => Nat.lt_succ_of_lt (h.lt n hn), h.nodup⟩

/-- Releasing what is held does, too. -/
theorem Sound.release (h : l.Sound) (hn : n ∈ l.held) : (l.release n).Sound where
  lt := by
    intro m hm
    obtain hm | hm := List.mem_append.1 hm
    · exact h.lt m hm
    · exact List.mem_singleton.1 hm ▸ (mem_held.1 hn).1
  nodup := h.nodup.append (List.nodup_singleton n) (by simpa using (mem_held.1 hn).2)

/-- What was acquired is held or was released. -/
theorem Sound.length_held (h : l.Sound) : l.held.length + l.released.length = l.acquired := by
  have hreleased : ((List.range l.acquired).filter (· ∈ l.released)).Perm l.released := by
    refine (List.perm_ext_iff_of_nodup (List.nodup_range.filter _) h.nodup).2 fun n => ?_
    simpa using h.lt n
  have hall := List.length_eq_length_filter_add (l := List.range l.acquired) (· ∈ l.released)
  rw [List.length_range, hreleased.length_eq] at hall
  have hheld : l.held = (List.range l.acquired).filter fun n => !decide (n ∈ l.released) :=
    List.filter_congr (by simp)
  rw [hheld]
  omega

/-- Acquiring adds one to what is held. -/
theorem Sound.length_held_acquire (h : l.Sound) : l.acquire.held.length = l.held.length + 1 := by
  have hbefore := h.length_held
  have hafter := h.acquire.length_held
  simp only [Ledger.acquire] at hafter ⊢
  omega

/-- Releasing what is held takes one away. -/
theorem Sound.length_held_release (h : l.Sound) (hn : n ∈ l.held) :
    (l.release n).held.length + 1 = l.held.length := by
  have hbefore := h.length_held
  have hafter := (h.release hn).length_held
  simp only [Ledger.release, List.length_append, List.length_singleton] at hafter ⊢
  omega

/-- The resource that is acquired is held. -/
theorem Sound.mem_held_acquire (h : l.Sound) : l.acquired ∈ l.acquire.held :=
  mem_held.2 ⟨Nat.lt_succ_self _, fun hm => Nat.lt_irrefl _ (h.lt _ hm)⟩

end Ledger

end Lib
