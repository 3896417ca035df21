import Mathlib.Data.List.Basic

/-!
# Stores that are modified in transactions

The modifications of a store are made on a draft, between the call that enters a transaction and
the one that leaves it; the draft becomes current or is dropped. A log of calls, each with its
code, is run on a store.
-/

namespace Lib

variable {σ ω : Type*}

/-- A store, with the draft of its transaction. -/
structure Store (σ : Type*) where
  current : σ
  draft : Option σ

/-- The calls to a store whose modifications are `ω`. -/
inductive Call (ω : Type*)
  | connect
  | enter
  | modify (op : ω)
  | leave (commit : Bool)
  deriving DecidableEq

/-- A call, and the code that it returned. -/
abbrev Answered (ω : Type*) := Call ω × Int

/-- What a call does. One that fails does nothing, but to close the transaction. -/
def Store.call (apply : ω → σ → σ) (store : Store σ) : Answered ω → Store σ
  | (.connect, _) => store
  | (.enter, code) => if code < 0 then store else { store with draft := some store.current }
  | (.modify op, code) =>
    if code < 0 then store else { store with draft := store.draft.map (apply op) }
  | (.leave commit, code) =>
    ⟨if commit ∧ ¬ code < 0 then store.draft.getD store.current else store.current, none⟩

def Store.run (apply : ω → σ → σ) (store : Store σ) (log : List (Answered ω)) : Store σ :=
  log.foldl (Store.call apply) store

/-- No call leaves the store as it is. -/
@[simp] theorem Store.run_nil (apply : ω → σ → σ) (store : Store σ) : store.run apply [] = store :=
  rfl

/-- The first call of a log is made first. -/
@[simp] theorem Store.run_cons (apply : ω → σ → σ) (store : Store σ) (call : Answered ω)
    (log : List (Answered ω)) :
    store.run apply (call :: log) = (store.call apply call).run apply log := rfl

/-- A log made of two is the second run after the first. -/
@[simp] theorem Store.run_append (apply : ω → σ → σ) (store : Store σ)
    (log log' : List (Answered ω)) :
    store.run apply (log ++ log') = (store.run apply log).run apply log' := List.foldl_append ..

/-- Every transaction that is entered is left once, and the modifications are made inside; `inside`
tells whether one is entered before the log. -/
def Balanced : Bool → List (Answered ω) → Prop
  | inside, [] => inside = false
  | inside, (.connect, _) :: log => Balanced inside log
  | inside, (.enter, code) :: log => inside = false ∧ Balanced (decide (0 ≤ code)) log
  | inside, (.modify _, _) :: log => inside = true ∧ Balanced true log
  | inside, (.leave _, _) :: log => inside = true ∧ Balanced false log

/-- All the calls are modifications. -/
def Modifies (log : List (Answered ω)) : Prop := ∀ call ∈ log, ∃ op, call.1 = .modify op

/-- The empty log only modifies. -/
theorem Modifies.nil : Modifies ([] : List (Answered ω)) := fun _ h => by cases h

/-- A modification in front of a log that only modifies, whatever its code. -/
theorem Modifies.cons {log : List (Answered ω)} (h : Modifies log) (op : ω) (code : Int) :
    Modifies ((.modify op, code) :: log) :=
  List.forall_mem_cons.2 ⟨⟨op, rfl⟩, h⟩

/-- Modifications stay inside of the transaction. -/
theorem Modifies.balanced {log : List (Answered ω)} (h : Modifies log)
    {rest : List (Answered ω)} (hrest : Balanced true rest) : Balanced true (log ++ rest) := by
  induction log with
  | nil => exact hrest
  | cons call log ih =>
    obtain ⟨⟨op, hop⟩, hlog⟩ := List.forall_mem_cons.1 h
    obtain ⟨_, code⟩ := call
    cases hop
    exact ⟨rfl, ih hlog⟩

end Lib
