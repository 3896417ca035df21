import Mathlib.Data.List.Basic
import Mathlib.Data.List.Induction
import Mathlib.Logic.Function.Basic
import Mathlib.Logic.Relation

/-!
# Sessions that share a state

Sessions open and close under the names `ι`, and each acts on its own data and on a state that all
of them share, one action at a time and in any order (`Run`). What is seen of a run from outside is
told apart from the actions of the sessions: that a session opens, gets an input or closes.
`Observed` lists it, in the order in which it happened.
-/

namespace Lib

/-- What is not at the end of a run as at its start has its last change in it. -/
theorem exists_last_change {γ δ : Type*} {r : γ → γ → Prop} {c c' : γ} (f : γ → δ)
    (h : Relation.ReflTransGen r c c') (hne : f c' ≠ f c) :
    ∃ d d', Relation.ReflTransGen r c d ∧ r d d' ∧ Relation.ReflTransGen r d' c' ∧
      f d' ≠ f d ∧ f d' = f c' := by
  induction h with
  | refl => exact absurd rfl hne
  | @tail e e' hrun hstep ih =>
    rcases eq_or_ne (f e') (f e) with heq | hlast
    · obtain ⟨d, d', hbefore, hd, hafter, hchange, hsame⟩ := ih (heq ▸ hne)
      exact ⟨d, d', hbefore, hd, hafter.tail hstep, hchange, hsame.trans heq.symm⟩
    · exact ⟨e, e', hrun, hstep, .refl, hlast, rfl⟩

/-- The last change in steps that are listed. -/
theorem exists_last_change_foldl {γ δ τ : Type*} (step : γ → τ → γ) (f : γ → δ) (c : γ)
    {steps : List τ} (hne : f (steps.foldl step c) ≠ f c) :
    ∃ before t after, steps = before ++ t :: after ∧
      f (step (before.foldl step c) t) ≠ f (before.foldl step c) ∧
      f (step (before.foldl step c) t) = f (steps.foldl step c) := by
  induction steps using List.reverseRecOn with
  | nil => exact absurd rfl hne
  | append_singleton steps t ih =>
    have hlist : (steps ++ [t]).foldl step c = step (steps.foldl step c) t := List.foldl_append
    rw [hlist] at hne ⊢
    rcases eq_or_ne (f (step (steps.foldl step c) t)) (f (steps.foldl step c)) with heq | hlast
    · obtain ⟨before, t', after, rfl, hchange, hsame⟩ := ih (heq ▸ hne)
      refine ⟨before, t', after ++ [t], by simp, hchange, ?_⟩
      rw [hsame, heq]
    · exact ⟨steps, t, [], rfl, hlast, rfl⟩

variable {ι α β ε : Type*}

@[ext] structure Shared (ι α β : Type*) where
  /-- the open sessions, with their data -/
  sessions : ι → Option α
  state : β

namespace Shared

/-- The data that a session may open with, and what an action makes of its data and the state. -/
structure Rules (α β : Type*) where
  opens : α → Prop
  acts : α × β → α × β → Prop

section
variable [DecidableEq ι]

def set (s : Shared ι α β) (i : ι) (session : Option α) (state : β) : Shared ι α β :=
  ⟨Function.update s.sessions i session, state⟩

/-- What can happen under the name `i`. -/
inductive Step (rules : Rules α β) (i : ι) (s : Shared ι α β) : Shared ι α β → Prop
  | opens {a : α} : s.sessions i = none → rules.opens a → Step rules i s (s.set i (some a) s.state)
  | acts {a a' : α} {b' : β} : s.sessions i = some a → rules.acts (a, s.state) (a', b') →
      Step rules i s (s.set i (some a') b')
  | closes : Step rules i s (s.set i none s.state)

/-- Steps under any names, in any order. -/
abbrev Run (rules : Rules α β) : Shared ι α β → Shared ι α β → Prop :=
  Relation.ReflTransGen fun s s' => ∃ i, Step rules i s s'

/-- The steps of a run: under which name each of them is, and what it comes to. -/
inductive Steps (rules : Rules α β) (s : Shared ι α β) :
    List (ι × Shared ι α β) → Shared ι α β → Prop
  | refl : Steps rules s [] s
  | step {steps : List (ι × Shared ι α β)} {i : ι} {t t' : Shared ι α β} :
      Steps rules s steps t → Step rules i t t' → Steps rules s (steps ++ [(i, t')]) t'

/-- What is seen of a run from outside: a session opens, gets an input or closes. -/
inductive Observation (ι ε : Type*)
  | opens (i : ι)
  | gets (i : ι) (e : ε)
  | closes (i : ι)
  deriving DecidableEq

/-- Runs with all that is observed of them, in its order: `get` is what an input makes of the data
of its session. The actions of the sessions are not observed. -/
inductive Observed (rules : Rules α β) (get : α → ε → α) (s : Shared ι α β) :
    List (Observation ι ε) → Shared ι α β → Prop
  | refl : Observed rules get s [] s
  | opens {seen : List (Observation ι ε)} {i : ι} {a : α} {t : Shared ι α β} :
      Observed rules get s seen t → t.sessions i = none → rules.opens a →
      Observed rules get s (seen ++ [.opens i]) (t.set i (some a) t.state)
  | acts {seen : List (Observation ι ε)} {i : ι} {a a' : α} {b' : β} {t : Shared ι α β} :
      Observed rules get s seen t → t.sessions i = some a → rules.acts (a, t.state) (a', b') →
      Observed rules get s seen (t.set i (some a') b')
  | gets {seen : List (Observation ι ε)} {i : ι} {a : α} {t : Shared ι α β} (e : ε) :
      Observed rules get s seen t → t.sessions i = some a →
      Observed rules get s (seen ++ [.gets i e]) (t.set i (some (get a e)) t.state)
  | closes {seen : List (Observation ι ε)} {i : ι} {a : α} {t : Shared ι α β} :
      Observed rules get s seen t → t.sessions i = some a →
      Observed rules get s (seen ++ [.closes i]) (t.set i none t.state)

/-- The session `i` was opened from `s` to `s'`, or closed. -/
def changeAt (s s' : Shared ι α β) (i : ι) : List (Observation ι ε) :=
  match s.sessions i, s'.sessions i with
  | none, some _ => [.opens i]
  | some _, none => [.closes i]
  | _, _ => []

/-- The sessions that were opened or closed from `s` to `s'`. -/
def changes (names : List ι) (s s' : Shared ι α β) : List (Observation ι ε) :=
  names.flatMap (changeAt s s')

variable {rules : Rules α β} {get : α → ε → α} {s s' s'' : Shared ι α β} {i : ι}

/-- The session that is set. -/
@[simp] theorem set_same (s : Shared ι α β) (i : ι) (x : Option α) (b : β) :
    (s.set i x b).sessions i = x := Function.update_self _ _ _

/-- The others are as they were. -/
theorem set_others (s : Shared ι α β) {i j : ι} (hj : j ≠ i) (x : Option α) (b : β) :
    (s.set i x b).sessions j = s.sessions j := Function.update_of_ne hj _ _

/-- What is set twice is what was set last. -/
theorem set_set (s : Shared ι α β) (i : ι) (x y : Option α) (b b' : β) :
    (s.set i x b).set i y b' = s.set i y b' := by
  simp only [set, Function.update_idem]

/-- To set what is there changes nothing. -/
theorem set_self {x : Option α} (h : s.sessions i = x) : s.set i x s.state = s := by
  rw [set, ← h, Function.update_eq_self]

/-- Steps under one name are a run. -/
theorem Step.run (h : Relation.ReflTransGen (Step rules i) s s') : Run rules s s' :=
  Relation.ReflTransGen.mono (fun _ _ hstep => ⟨i, hstep⟩) _ _ h

/-- A run has steps. -/
theorem Run.exists_steps (h : Run rules s s') : ∃ steps, Steps rules s steps s' := by
  induction h with
  | refl => exact ⟨[], .refl⟩
  | tail _ hstep ih =>
    obtain ⟨steps, hsteps⟩ := ih
    obtain ⟨i, hstep⟩ := hstep
    exact ⟨_, hsteps.step hstep⟩

/-- The actions of one session, one after the other. -/
theorem Step.actions {a a' : α} {b' : β} (ha : s.sessions i = some a)
    (h : Relation.ReflTransGen rules.acts (a, s.state) (a', b')) :
    Relation.ReflTransGen (Step rules i) s (s.set i (some a') b') := by
  suffices hrun : ∀ p, Relation.ReflTransGen rules.acts (a, s.state) p →
      Relation.ReflTransGen (Step rules i) s (s.set i (some p.1) p.2) from hrun _ h
  intro p hp
  induction hp with
  | refl =>
    rw [set_self ha]
  | @tail p q _ hact ih =>
    refine ih.tail ?_
    rw [← set_set s i (some p.1) (some q.1) p.2 q.2]
    exact .acts (set_same s i _ _) hact

/-- What holds of each session and of the state. -/
def Each (P : α → Prop) (Q : β → Prop) (s : Shared ι α β) : Prop :=
  (∀ i a, s.sessions i = some a → P a) ∧ Q s.state

/-- What holds of all sessions holds with one that is set to what it holds of. -/
theorem Each.set {P : α → Prop} {Q : β → Prop} (h : s.Each P Q) (i : ι) {x : Option α} {b : β}
    (hx : ∀ a, x = some a → P a) (hb : Q b) : (s.set i x b).Each P Q := by
  refine ⟨fun j a ha => ?_, hb⟩
  rcases eq_or_ne j i with rfl | hj
  · exact hx a ((set_same s j x b).symm.trans ha)
  · exact h.1 j a ((set_others s hj x b).symm.trans ha)

/-- What a step keeps of what holds of each session and of the state. -/
theorem Step.each {P : α → Prop} {Q : β → Prop} (hopens : ∀ a, rules.opens a → P a)
    (hacts : ∀ a b a' b', P a → Q b → rules.acts (a, b) (a', b') → P a' ∧ Q b')
    (h : Step rules i s s') (hs : s.Each P Q) : s'.Each P Q := by
  cases h with
  | opens _ ha =>
    refine hs.set i (fun a' ha' => ?_) hs.2
    cases ha'
    exact hopens _ ha
  | acts ha hact =>
    obtain ⟨hP, hQ⟩ := hacts _ _ _ _ (hs.1 i _ ha) hs.2 hact
    refine hs.set i (fun a' ha' => ?_) hQ
    cases ha'
    exact hP
  | closes => exact hs.set i (fun a' ha' => by cases ha') hs.2

/-- **The rule of the invariant**, for what holds of each session and of the state. -/
theorem Run.invariant {P : α → Prop} {Q : β → Prop} (hopens : ∀ a, rules.opens a → P a)
    (hacts : ∀ a b a' b', P a → Q b → rules.acts (a, b) (a', b') → P a' ∧ Q b')
    (h : Run rules s s') (hs : s.Each P Q) : s'.Each P Q := by
  induction h with
  | refl => exact hs
  | tail _ hstep ih =>
    obtain ⟨i, hstep⟩ := hstep
    exact hstep.each hopens hacts ih

/-! ## What is observed -/

/-- Two runs are observed in turn. -/
theorem Observed.trans {seen seen' : List (Observation ι ε)} (h : Observed rules get s seen s')
    (h' : Observed rules get s' seen' s'') : Observed rules get s (seen ++ seen') s'' := by
  induction h' with
  | refl => rwa [List.append_nil]
  | opens _ hnone ha ih =>
    rw [← List.append_assoc]
    exact ih.opens hnone ha
  | acts _ ha hact ih => exact ih.acts ha hact
  | gets e _ ha ih =>
    rw [← List.append_assoc]
    exact ih.gets e ha
  | closes _ ha ih =>
    rw [← List.append_assoc]
    exact ih.closes ha

/-- The actions of one session, one after the other, are not observed. -/
theorem Observed.actions {a a' : α} {b' : β} (ha : s.sessions i = some a)
    (h : Relation.ReflTransGen rules.acts (a, s.state) (a', b')) :
    Observed rules get s [] (s.set i (some a') b') := by
  suffices hrun : ∀ p, Relation.ReflTransGen rules.acts (a, s.state) p →
      Observed rules get s [] (s.set i (some p.1) p.2) from hrun _ h
  intro p hp
  induction hp with
  | refl =>
    rw [set_self ha]
    exact .refl
  | @tail p q _ hact ih =>
    rw [← set_set s i (some p.1) (some q.1) p.2 q.2]
    exact ih.acts (set_same s i _ _) hact

/-- A session that is closed, if there is one, is seen to close. -/
theorem Observed.close (s : Shared ι α β) (i : ι) :
    Observed rules get s (changeAt s (s.set i none s.state) i) (s.set i none s.state) := by
  rw [changeAt, set_same]
  cases ha : s.sessions i with
  | none =>
    rw [set_self ha]
    exact .refl
  | some a => exact Observed.refl.closes ha

/-- **The rule of the invariant** over a run that is observed. -/
theorem Observed.invariant {P : α → Prop} {Q : β → Prop} {seen : List (Observation ι ε)}
    (hopens : ∀ a, rules.opens a → P a) (hget : ∀ a e, P a → P (get a e))
    (hacts : ∀ a b a' b', P a → Q b → rules.acts (a, b) (a', b') → P a' ∧ Q b')
    (h : Observed rules get s seen s') (hs : s.Each P Q) : s'.Each P Q := by
  induction h with
  | refl => exact hs
  | opens _ hnone ha ih => exact (Step.opens hnone ha).each hopens hacts ih
  | acts _ ha hact ih => exact (Step.acts ha hact).each hopens hacts ih
  | gets e _ ha ih =>
    refine ih.set _ (fun a' ha' => ?_) ih.2
    cases ha'
    exact hget _ e (ih.1 _ _ ha)
  | closes _ ha ih => exact Step.closes.each hopens hacts ih

omit [DecidableEq ι] in
/-- A change of a session is told by what it was before and after. -/
theorem changeAt_congr {t t' : Shared ι α β} (h : t.sessions i = s.sessions i)
    (h' : t'.sessions i = s'.sessions i) :
    (changeAt t t' i : List (Observation ι ε)) = changeAt s s' i := by
  rw [changeAt, changeAt, h, h']

omit [DecidableEq ι] in
/-- Nothing changes where the sessions are the same. -/
theorem changeAt_same (h : s'.sessions i = s.sessions i) :
    (changeAt s s' i : List (Observation ι ε)) = [] := by
  rw [changeAt, h]
  cases s.sessions i <;> rfl

omit [DecidableEq ι] in
/-- What changes under one name only. -/
theorem changes_one {names : List ι} (hnames : names.Nodup) (hi : i ∈ names)
    (hothers : ∀ j, j ≠ i → s'.sessions j = s.sessions j) :
    (changes names s s' : List (Observation ι ε)) = changeAt s s' i := by
  obtain ⟨before, after, rfl⟩ := List.append_of_mem hi
  have hnone : ∀ names : List ι, (∀ j ∈ names, j ≠ i) →
      (names.flatMap (changeAt s s') : List (Observation ι ε)) = [] := fun names h =>
    List.flatMap_eq_nil_iff.2 fun j hj => changeAt_same (hothers j (h j hj))
  rw [List.perm_middle.nodup_iff, List.nodup_cons, List.mem_append, not_or] at hnames
  rw [changes, List.flatMap_append, List.flatMap_cons,
    hnone before fun j hj => ne_of_mem_of_not_mem hj hnames.1.1,
    hnone after fun j hj => ne_of_mem_of_not_mem hj hnames.1.2, List.nil_append, List.append_nil]

omit [DecidableEq ι] in
/-- What changes under one name, and then under others. -/
theorem changes_cons {names : List ι} (hi : i ∉ names)
    (hfirst : ∀ j, j ≠ i → s'.sessions j = s.sessions j)
    (hothers : ∀ j, j ∉ names → s''.sessions j = s'.sessions j) :
    (changes (i :: names) s s'' : List (Observation ι ε)) =
      changeAt s s' i ++ changes names s' s'' := by
  rw [changes, List.flatMap_cons, changeAt_congr rfl (hothers i hi)]
  refine congrArg _ (List.flatMap_congr fun j hj => ?_)
  exact changeAt_congr (hfirst j (ne_of_mem_of_not_mem hj hi)).symm rfl

end

end Shared

end Lib
