import SecLsmManager.Lib.Shared
import Mathlib.Data.List.Induction

/-!
# Calls in one order

An object serves calls, each in one action on the data of a session and on the state that all
sessions share; a history of it is what happened, in one order. Sessions with finer steps have a
history when each of their steps does what a call does, or nothing. It is made with the run, step by
step (`Follows`): a session opens and closes in it when it does in the run, and a call is added by a
step of its session. So a call that has returned is before every call that begins later.
-/

namespace Lib

/-- The data that a session may open with, and what a call gives and makes of it and the state. -/
structure Object (α β γ ο : Type*) where
  opens : α → Prop
  serve : γ → α × β → ο × (α × β)

namespace Shared

/-- What can happen to an object under the names `ι`. -/
inductive Event (ι α γ : Type*)
  | opens (i : ι) (a : α)
  | calls (i : ι) (c : γ)
  | closes (i : ι)

variable {ι α α' β β' γ ο : Type*} [DecidableEq ι] {object : Object α β γ ο}

/-- What happens, where a session keeps its calls and what they gave. -/
def apply (object : Object α β γ ο) (s : Shared ι (α × List (γ × ο)) β) :
    Event ι α γ → Shared ι (α × List (γ × ο)) β
  | .opens i a => s.set i (some (a, [])) s.state
  | .calls i c =>
    match s.sessions i with
    | none => s
    | some (a, calls) =>
      let (o, a', b') := object.serve c (a, s.state)
      s.set i (some (a', calls ++ [(c, o)])) b'
  | .closes i => s.set i none s.state

/-- What `history` makes of the state `b`, where no session is open. -/
def after (object : Object α β γ ο) (b : β) (history : List (Event ι α γ)) :
    Shared ι (α × List (γ × ο)) β :=
  history.foldl (apply object) ⟨fun _ => none, b⟩

/-- The sessions of a history open as the object lets them. -/
def Opens (object : Object α β γ ο) (history : List (Event ι α γ)) : Prop :=
  ∀ i a, .opens i a ∈ history → object.opens a

/-- A history that goes on is applied to what it made so far. -/
theorem after_append (object : Object α β γ ο) (b : β) (history later : List (Event ι α γ)) :
    after object b (history ++ later) = later.foldl (apply object) (after object b history) :=
  List.foldl_append

/-- `s` stands where `t` does, when `R` relates their sessions. -/
structure Stands (R : α' → α × List (γ × ο) → Prop) (s : Shared ι α' β)
    (t : Shared ι (α × List (γ × ο)) β) : Prop where
  state : s.state = t.state
  sessions : ∀ i, Option.Rel R (s.sessions i) (t.sessions i)

/-- What a step under `i`, from `s` to `s'`, may add to a history: a session that opens, one that
goes on with a call or without, or one that is gone. -/
inductive Adds (object : Object α β γ ο) (i : ι) (s s' : Shared ι α' β) :
    List (Event ι α γ) → Prop
  | opens {a : α} {a' : α'} : object.opens a → s.sessions i = none → s'.sessions i = some a' →
      Adds object i s s' [.opens i a]
  | silent {a a' : α'} : s.sessions i = some a → s'.sessions i = some a' → Adds object i s s' []
  | calls {a a' : α'} (c : γ) : s.sessions i = some a → s'.sessions i = some a' →
      Adds object i s s' [.calls i c]
  | closes : s'.sessions i = none → Adds object i s s' [.closes i]

/-- The history of the steps of a run from the state `b`, to `s`: each step adds to it, and what the
history makes of `b` stands where the run does, after each of them. -/
inductive Follows (object : Object α β γ ο) (R : α' → α × List (γ × ο) → Prop) (b : β) :
    List (ι × Shared ι α' β) → Shared ι α' β → List (Event ι α γ) → Prop
  | refl {s : Shared ι α' β} : Stands R s (after object b []) → Follows object R b [] s []
  | step {steps : List (ι × Shared ι α' β)} {i : ι} {s s' : Shared ι α' β}
      {history events : List (Event ι α γ)} : Follows object R b steps s history →
      Adds object i s s' events → Stands R s' (after object b (history ++ events)) →
      Follows object R b (steps ++ [(i, s')]) s' (history ++ events)

/-- The sessions of `rules` do what the calls of the object do: each action is a call that takes
effect, or nothing. -/
structure Linear (rules : Rules α' β) (object : Object α β γ ο)
    (R : α' → α × List (γ × ο) → Prop) : Prop where
  opens : ∀ {a'}, rules.opens a' → ∃ a, object.opens a ∧ R a' (a, [])
  acts : ∀ {x y : α' × β} {a : α} {calls : List (γ × ο)}, R x.1 (a, calls) → rules.acts x y →
    (y.2 = x.2 ∧ R y.1 (a, calls)) ∨
      ∃ c, y.2 = (object.serve c (a, x.2)).2.2 ∧
        R y.1 ((object.serve c (a, x.2)).2.1, calls ++ [(c, (object.serve c (a, x.2)).1)])

section
variable {R : α' → α × List (γ × ο) → Prop} {rules : Rules α' β} {s s' : Shared ι α' β}
  {t : Shared ι (α × List (γ × ο)) β}

/-- Related sessions may be put in the place of `i`, with one state. -/
theorem Stands.set (h : Stands R s t) (i : ι) {x : Option α'} {y : Option (α × List (γ × ο))}
    (hxy : Option.Rel R x y) (b : β) : Stands R (s.set i x b) (t.set i y b) := by
  refine ⟨rfl, fun j => ?_⟩
  rcases eq_or_ne j i with rfl | hj
  · rw [set_same, set_same]
    exact hxy
  · rw [set_others s hj, set_others t hj]
    exact h.sessions j

omit [DecidableEq ι] in
/-- A session that is open in the run is open in the history. -/
theorem Stands.of_some (h : Stands R s t) {i : ι} {a : α'} (hi : s.sessions i = some a) :
    ∃ p, t.sessions i = some p ∧ R a p := by
  have hrel := h.sessions i
  rw [hi] at hrel
  generalize t.sessions i = y at hrel ⊢
  cases hrel with
  | some hR => exact ⟨_, rfl, hR⟩

/-- **A step** adds an event to the history, or none. -/
theorem Linear.step (h : Linear rules object R) {i : ι} (hstep : Step rules i s s')
    (hs : Stands R s t) :
    ∃ events, Adds object i s s' events ∧ Stands R s' (events.foldl (apply object) t) := by
  cases hstep with
  | @opens a' hnone ha =>
    obtain ⟨a, hopens, hR⟩ := h.opens ha
    refine ⟨_, .opens hopens hnone (set_same s i _ _), ?_⟩
    rw [hs.state]
    exact hs.set i (.some hR) t.state
  | @acts a' a'' b' ha hact =>
    obtain ⟨⟨a, calls⟩, ht, hR⟩ := hs.of_some ha
    obtain ⟨hb, hR'⟩ | ⟨c, hb, hR'⟩ := h.acts hR hact
    · refine ⟨_, .silent ha (set_same s i _ _), ?_⟩
      have hsame : t.set i (some (a, calls)) b' = t := by
        rw [show b' = t.state from hb.trans hs.state]
        exact set_self ht
      rw [List.foldl_nil, ← hsame]
      exact hs.set i (.some hR') b'
    · refine ⟨_, .calls c ha (set_same s i _ _), ?_⟩
      rw [hs.state] at hb hR'
      simp only [List.foldl_cons, List.foldl_nil, apply, ht]
      rw [show b' = _ from hb]
      exact hs.set i (.some hR') _
  | closes =>
    refine ⟨_, .closes (set_same s i _ _), ?_⟩
    rw [hs.state]
    exact hs.set i .none t.state

/-- Before any step. -/
theorem Follows.nil (b : β) :
    Follows object R b [] (⟨fun _ => none, b⟩ : Shared ι α' β) [] :=
  .refl ⟨rfl, fun _ => .none⟩

/-- What the history makes stands where the run does, at its end. -/
theorem Follows.stands {b : β} {steps : List (ι × Shared ι α' β)}
    {history : List (Event ι α γ)} (h : Follows object R b steps s history) :
    Stands R s (after object b history) := by
  cases h with
  | refl hs => exact hs
  | step _ _ hs => exact hs

/-- **Linearizability.** A history of a run goes on with the run. -/
theorem Linear.follows (h : Linear rules object R) {b : β} {steps more : List (ι × Shared ι α' β)}
    {history : List (Event ι α γ)} (hs : Follows object R b steps s history)
    (hmore : Steps rules s more s') :
    ∃ later, Follows object R b (steps ++ more) s' (history ++ later) := by
  induction hmore with
  | refl => exact ⟨[], by rwa [List.append_nil, List.append_nil]⟩
  | @step more i t t' _ hstep ih =>
    obtain ⟨later, ht⟩ := ih
    obtain ⟨events, hadds, hstands⟩ := h.step hstep ht.stands
    refine ⟨later ++ events, ?_⟩
    rw [← List.append_assoc, ← List.append_assoc]
    refine ht.step hadds ?_
    rw [after_append]
    exact hstands

/-- The sessions of a history open as the object lets them. -/
theorem Follows.opens {b : β} {steps : List (ι × Shared ι α' β)}
    {history : List (Event ι α γ)} (h : Follows object R b steps s history) :
    Opens object history := by
  induction h with
  | refl => exact fun i a ha => (List.not_mem_nil ha).elim
  | step _ hadds _ ih =>
    intro i a ha
    rcases List.mem_append.1 ha with ha | ha
    · exact ih i a ha
    cases hadds with
    | opens hopens =>
      cases List.mem_singleton.1 ha
      exact hopens
    | silent => exact (List.not_mem_nil ha).elim
    | calls => cases List.mem_singleton.1 ha
    | closes => cases List.mem_singleton.1 ha

omit [DecidableEq ι] in
/-- A weaker relation holds where `R` does. -/
theorem Stands.mono {R' : α' → α × List (γ × ο) → Prop} (h : Stands R s t)
    (hR : ∀ a p, R a p → R' a p) : Stands R' s t := by
  refine ⟨h.state, fun i => ?_⟩
  have hi := h.sessions i
  generalize s.sessions i = x, t.sessions i = y at hi ⊢
  cases hi with
  | none => exact .none
  | some hi => exact .some (hR _ _ hi)

/-- So a history for `R` is one for a weaker relation. -/
theorem Follows.mono {R' : α' → α × List (γ × ο) → Prop} {b : β}
    {steps : List (ι × Shared ι α' β)} {history : List (Event ι α γ)}
    (h : Follows object R b steps s history) (hR : ∀ a p, R a p → R' a p) :
    Follows object R' b steps s history := by
  induction h with
  | refl hs => exact .refl (hs.mono hR)
  | step _ hadds hs ih => exact ih.step hadds (hs.mono hR)

end

/-! ## What is private -/

/-- The calls of a session alone: on its data, with the state `b` at each of them. -/
def alone (object : Object α β γ ο) (b : β) : List γ → α → α × List (γ × ο)
  | [], a => (a, [])
  | c :: cs, a =>
    let (o, a', _) := object.serve c (a, b)
    let (a'', calls) := alone object b cs a'
    (a'', (c, o) :: calls)

theorem alone_concat (object : Object α β γ ο) (b : β) (cs : List γ) (c : γ) (a : α) :
    alone object b (cs ++ [c]) a =
      let (a', calls) := alone object b cs a
      ((object.serve c (a', b)).2.1, calls ++ [(c, (object.serve c (a', b)).1)]) := by
  induction cs generalizing a with
  | nil => rfl
  | cons c' cs ih => simp only [List.cons_append, alone, ih]

/-- The calls of `P` give on the data what they give on another object, whatever the states are. -/
def Private (object : Object α β γ ο) (object' : Object α β' γ ο) (P : γ → Prop) : Prop :=
  ∀ c, P c → ∀ a b b', (object.serve c (a, b)).1 = (object'.serve c (a, b')).1 ∧
    (object.serve c (a, b)).2.1 = (object'.serve c (a, b')).2.1

/-- **Private calls** give what they give alone, whatever the other sessions do. -/
theorem Private.after {object' : Object α β' γ ο} {P : γ → Prop} (h : Private object object' P)
    (b : β) (b₀ : β')
    {history : List (Event ι α γ)} (hopens : Opens object history) {i : ι} {a : α}
    {calls : List (γ × ο)} (hi : (after object b history).sessions i = some (a, calls))
    (hP : ∀ e ∈ calls, P e.1) :
    ∃ a₀, object.opens a₀ ∧ (a, calls) = alone object' b₀ (calls.map Prod.fst) a₀ := by
  induction history using List.reverseRecOn generalizing a calls with
  | nil => cases hi
  | append_singleton history event ih =>
    have hbefore : ∀ {a calls}, (Shared.after object b history).sessions i = some (a, calls) →
        (∀ e ∈ calls, P e.1) →
        ∃ a₀, object.opens a₀ ∧ (a, calls) = alone object' b₀ (calls.map Prod.fst) a₀ :=
      ih fun j a ha => hopens j a (List.mem_append_left _ ha)
    rw [after_append, List.foldl_cons, List.foldl_nil] at hi
    generalize Shared.after object b history = t at hi hbefore
    cases event with
    | opens j a₀ =>
      rcases eq_or_ne i j with rfl | hj
      · rw [apply, set_same] at hi
        cases hi
        exact ⟨_, hopens i _ (List.mem_append_right _ List.mem_cons_self), rfl⟩
      · rw [apply, set_others t hj] at hi
        exact hbefore hi hP
    | calls j c =>
      rw [apply] at hi
      split at hi
      · exact hbefore hi hP
      · rename_i a' calls' hsession
        rcases eq_or_ne i j with rfl | hj
        · rw [set_same] at hi
          cases hi
          obtain ⟨hcalls, hc⟩ := List.forall_mem_append.1 hP
          obtain ⟨a₀, ha₀, halone⟩ := hbefore hsession hcalls
          obtain ⟨hgives, hmakes⟩ := h c (hc _ List.mem_cons_self) a' t.state b₀
          refine ⟨a₀, ha₀, ?_⟩
          rw [List.map_append, List.map_singleton, alone_concat, ← halone, hgives, hmakes]
        · rw [set_others t hj] at hi
          exact hbefore hi hP
    | closes j =>
      rcases eq_or_ne i j with rfl | hj
      · rw [apply, set_same] at hi
        cases hi
      · rw [apply, set_others t hj] at hi
        exact hbefore hi hP

end Shared

end Lib
