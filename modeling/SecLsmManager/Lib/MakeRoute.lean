import SecLsmManager.Lib.FileTree

/-!
# Making the directories of a route

Two ways of making a directory with those that lead to it. One makes the directories in order
(`made`). The other starts with the whole route: it drops a step when the one in front of it is
missing, and it takes the step back when the directory is there (`ensure`). It does not end when a
directory is missing behind one that is there, and else it ends (`ensure_ends_iff`).
-/

namespace Lib.FileTree

variable {Name E : Type*} [DecidableEq Name]

/-- What is known once a directory is made, or was there. -/
inductive Attempt (Name E : Type*)
  | there (t : FileTree Name E)
  | missing
  | failed

def attempt (t : FileTree Name E) (links : Nat) (cwd : List Name) (route : Route Name) :
    Attempt Name E :=
  match t.mkdir links cwd route with
  | .ok t' => .there t'
  | .error .present => .there t
  | .error .missing => .missing
  | .error _ => .failed

/-- The tree once the directories of the first steps are made in order, when they can be. -/
def made (t : FileTree Name E) (links : Nat) (cwd : List Name) (route : Route Name) :
    Nat → Option (FileTree Name E)
  | 0 => some t
  | n + 1 =>
    match made t links cwd route n with
    | none => none
    | some t' =>
      match t'.attempt links cwd (route.upTo (n + 1)) with
      | .there t'' => some t''
      | _ => none

/-- The directories made from the end of the route, where `n` is the number of steps under way. It
ends with whether the directory of the whole route is there. -/
def ensure (links : Nat) (cwd : List Name) (route : Route Name) :
    Nat → Nat → FileTree Name E → Option (Bool × FileTree Name E)
  | 0, _, _ => none
  | fuel + 1, n, t =>
    match t.attempt links cwd (route.upTo n) with
    | .there t' =>
      if n = route.steps.length then some (true, t') else ensure links cwd route fuel (n + 1) t'
    | .missing => if n ≤ 1 then some (false, t) else ensure links cwd route fuel (n - 1) t
    | .failed => some (false, t)

variable {t t' : FileTree Name E} {links : Nat} {cwd : List Name} {route : Route Name}

/-! ## One step more -/

omit [DecidableEq Name] in
/-- One step more of the route. -/
theorem upTo_succ_steps {n : Nat} (h : n < route.steps.length) :
    (route.upTo (n + 1)).steps = (route.upTo n).steps ++ [route.steps[n]] :=
  (List.take_append_getElem h).symm

omit [DecidableEq Name] in
/-- A part of the route that has steps. -/
theorem upTo_steps_ne_nil {n : Nat} (hn : 0 < n) (h : n < route.steps.length) :
    (route.upTo n).steps ≠ [] := by
  rw [Route.upTo_steps, ← List.length_pos_iff, List.length_take]
  omega

/-- A directory that is made was missing, so the next one was missing as well. -/
theorem attempt_succ_of_there {n : Nat} (h : n < route.steps.length)
    (hthere : t.attempt links cwd (route.upTo n) = .there t') :
    (t.mkdir links cwd (route.upTo n) = .error .present ∧ t' = t) ∨
      t.attempt links cwd (route.upTo (n + 1)) = .missing := by
  rw [attempt] at hthere
  split at hthere
  next t'' hok =>
    right
    rw [attempt, mkdir_of_resolve_error (upTo_succ_steps h) rfl (resolve_of_mkdir_ok hok)]
  next hpresent =>
    cases hthere
    exact .inl ⟨hpresent, rfl⟩
  · cases hthere
  · cases hthere

/-- Behind a directory that is missing the next one is missing. -/
theorem attempt_succ_of_missing {n : Nat} (hn : 0 < n) (h : n < route.steps.length)
    (hmissing : t.attempt links cwd (route.upTo n) = .missing) :
    t.attempt links cwd (route.upTo (n + 1)) = .missing := by
  rw [attempt] at hmissing
  split at hmissing
  · cases hmissing
  · cases hmissing
  next herror =>
    obtain ⟨e', hresolve, he⟩ :=
      resolve_of_mkdir_error (upTo_steps_ne_nil hn h) herror (by simp)
    rw [he rfl] at hresolve
    rw [attempt, mkdir_of_resolve_error (upTo_succ_steps h) rfl hresolve]
  · cases hmissing

/-- Behind one that cannot be made the next one is missing or cannot be made. -/
theorem attempt_succ_of_failed {n : Nat} (hn : 0 < n) (h : n < route.steps.length)
    (hfailed : t.attempt links cwd (route.upTo n) = .failed) :
    t.attempt links cwd (route.upTo (n + 1)) = .missing ∨
      t.attempt links cwd (route.upTo (n + 1)) = .failed := by
  rw [attempt] at hfailed
  split at hfailed
  · cases hfailed
  · cases hfailed
  · cases hfailed
  next e hpresent hmissing herror =>
    obtain ⟨e', hresolve, -⟩ :=
      resolve_of_mkdir_error (upTo_steps_ne_nil hn h) herror fun he => hpresent (by rw [he])
    rw [attempt, mkdir_of_resolve_error (upTo_succ_steps h) rfl hresolve]
    cases e' with
    | present => exact absurd hresolve (walk_ne_present t links _ _)
    | missing => exact .inl rfl
    | notDirectory => exact .inr rfl
    | tooManyLinks => exact .inr rfl
    | other e => exact .inr rfl

/-- A directory that is there once is there. -/
theorem mkdir_of_there (h : t.attempt links cwd route = .there t') :
    t'.mkdir links cwd route = .error .present := by
  rw [attempt] at h
  split at h
  next hok =>
    cases h
    exact mkdir_again hok
  next hpresent =>
    cases h
    exact hpresent
  · cases h
  · cases h

/-! ## In order -/

/-- In order: one directory more. -/
theorem made_succ {n : Nat} (hmade : t.made links cwd route n = some t') :
    t.made links cwd route (n + 1) =
      match t'.attempt links cwd (route.upTo (n + 1)) with
      | .there t'' => some t''
      | _ => none := by
  rw [made, hmade]

/-- The one before was made, then. -/
theorem made_succ_eq_some {n : Nat} {t'' : FileTree Name E}
    (h : t.made links cwd route (n + 1) = some t'') :
    ∃ t', t.made links cwd route n = some t' ∧
      t'.attempt links cwd (route.upTo (n + 1)) = .there t'' := by
  rw [made] at h
  split at h
  · cases h
  next t' hmade =>
    split at h
    next hthere =>
      cases h
      exact ⟨t', hmade, hthere⟩
    · cases h

/-- So were all before it. -/
theorem made_of_le {m n : Nat} (hmn : m ≤ n) (h : t.made links cwd route n = some t') :
    ∃ s, t.made links cwd route m = some s := by
  induction hmn generalizing t' with
  | refl => exact ⟨t', h⟩
  | step _ ih =>
    obtain ⟨s, hs, -⟩ := made_succ_eq_some h
    exact ih hs

/-- The directory made last is there. -/
theorem mkdir_of_made {n : Nat} (hn : 0 < n) (h : t.made links cwd route n = some t') :
    t'.mkdir links cwd (route.upTo n) = .error .present := by
  cases n with
  | zero => exact absurd hn (Nat.lt_irrefl 0)
  | succ n =>
    obtain ⟨s, -, hthere⟩ := made_succ_eq_some h
    exact mkdir_of_there hthere

/-- No directory that is made in order is missing in front of the next one. -/
def Smooth (t : FileTree Name E) (links : Nat) (cwd : List Name) (route : Route Name) : Prop :=
  ∀ n t', 0 < n → n < route.steps.length → t.made links cwd route n = some t' →
    t'.attempt links cwd (route.upTo (n + 1)) ≠ .missing

/-- What makes a directory missing behind one that is there: a link to nowhere, or a directory that
makes its entries itself. -/
theorem smooth_iff : t.Smooth links cwd route ↔
    ∀ n t', 0 < n → n < route.steps.length → t.made links cwd route n = some t' →
      ¬ t'.Dangling links cwd (route.upTo n) ∧ ¬ t'.Barren links cwd (route.upTo (n + 1)) := by
  refine forall_congr' fun n => forall_congr' fun t' => forall_congr' fun hn =>
    forall_congr' fun h => forall_congr' fun hmade => ?_
  have hmissing := mkdir_eq_missing_iff (upTo_steps_ne_nil hn h) (mkdir_of_made hn hmade)
    (upTo_succ_steps h) (Route.start_upTo cwd route (n + 1))
  rw [← not_or, ← hmissing, not_iff_not]
  constructor
  · intro hattempt
    rw [attempt] at hattempt
    split at hattempt
    · cases hattempt
    · cases hattempt
    next herror => exact herror
    · cases hattempt
  · intro herror
    rw [attempt, herror]

/-! ## From the end -/

/-- A step of the route: those in front of it need nothing, or it is missing, or it fails as one in
front of it does. -/
theorem made_or_missing_or_failed (t : FileTree Name E) (links : Nat) (cwd : List Name) {j : Nat}
    (h : j < route.steps.length) :
    t.made links cwd route j = some t ∨
    (t.attempt links cwd (route.upTo (j + 1)) = .missing ∧ 0 < j) ∨
    t.attempt links cwd (route.upTo (j + 1)) = .failed ∧ ∃ m s, m < j ∧
      t.made links cwd route m = some s ∧ s.attempt links cwd (route.upTo (m + 1)) = .failed := by
  induction j with
  | zero => exact .inl rfl
  | succ j ih =>
    obtain hmade | ⟨hmissing, hj⟩ | ⟨hfailed, m, s, hm, hmade, hfails⟩ := ih (Nat.lt_of_succ_lt h)
    · cases hattempt : t.attempt links cwd (route.upTo (j + 1)) with
      | there t' =>
        obtain ⟨-, rfl⟩ | hmissing := attempt_succ_of_there h hattempt
        · exact .inl (by rw [made_succ hmade, hattempt])
        · exact .inr (.inl ⟨hmissing, j.succ_pos⟩)
      | missing => exact .inr (.inl ⟨attempt_succ_of_missing j.succ_pos h hattempt, j.succ_pos⟩)
      | failed =>
        obtain hmissing | hfailed := attempt_succ_of_failed j.succ_pos h hattempt
        · exact .inr (.inl ⟨hmissing, j.succ_pos⟩)
        · exact .inr (.inr ⟨hfailed, j, t, j.lt_succ_self, hmade, hattempt⟩)
    · exact .inr (.inl ⟨attempt_succ_of_missing j.succ_pos h hmissing, j.succ_pos⟩)
    · obtain hmissing | hfailed := attempt_succ_of_failed j.succ_pos h hfailed
      · exact .inr (.inl ⟨hmissing, j.succ_pos⟩)
      · exact .inr (.inr ⟨hfailed, m, s, Nat.lt_succ_of_lt hm, hmade, hfails⟩)

/-- Once it goes on in order, it ends. -/
theorem ensure_ends_of_made (hsmooth : t.Smooth links cwd route) {j : Nat}
    (h : j < route.steps.length) (hmade : t.made links cwd route j = some t') :
    ∃ fuel, (ensure links cwd route fuel (j + 1) t').isSome := by
  induction hd : route.steps.length - j generalizing j t' with
  | zero => omega
  | succ d ih =>
    cases hattempt : t'.attempt links cwd (route.upTo (j + 1)) with
    | there t'' =>
      by_cases hend : j + 1 = route.steps.length
      · exact ⟨1, by rw [ensure, hattempt]; simp [hend]⟩
      · have hmade' : t.made links cwd route (j + 1) = some t'' := by
          rw [made_succ hmade, hattempt]
        obtain ⟨fuel, hfuel⟩ := ih (Nat.lt_of_le_of_ne h hend) hmade' (by omega)
        exact ⟨fuel + 1, by rw [ensure, hattempt]; simpa [hend] using hfuel⟩
    | missing =>
      have hj : j = 0 := by
        by_contra hj
        exact hsmooth j t' (Nat.pos_of_ne_zero hj) h hmade hattempt
      exact ⟨1, by rw [ensure, hattempt]; simp [hj]⟩
    | failed => exact ⟨1, by rw [ensure, hattempt]; simp⟩

/-- It comes to an end from any number of steps, where no directory that is there leads to a missing
one. -/
theorem ensure_ends_of_smooth (hsmooth : t.Smooth links cwd route) {j : Nat}
    (h : j < route.steps.length) : ∃ fuel, (ensure links cwd route fuel (j + 1) t).isSome := by
  induction j with
  | zero => exact ensure_ends_of_made hsmooth h rfl
  | succ j ih =>
    obtain hmade | ⟨hmissing, -⟩ | ⟨hfailed, -⟩ := t.made_or_missing_or_failed links cwd h
    · exact ensure_ends_of_made hsmooth h hmade
    · obtain ⟨fuel, hfuel⟩ := ih (Nat.lt_of_succ_lt h)
      exact ⟨fuel + 1, by rw [ensure, hmissing]; simpa using hfuel⟩
    · exact ⟨1, by rw [ensure, hfailed]; simp⟩

/-- The states between which it goes when the directory behind `n` is missing: on the way back, on
the way forth, and at the turn. -/
inductive Around (t : FileTree Name E) (links : Nat) (cwd : List Name) (route : Route Name)
    (n : Nat) (t' : FileTree Name E) : Nat → FileTree Name E → Prop
  | back {j : Nat} : j < route.steps.length → Around t links cwd route n t' (j + 1) t
  | forth {j : Nat} {s : FileTree Name E} : j ≤ n → t.made links cwd route j = some s →
      Around t links cwd route n t' (j + 1) s
  | turn : Around t links cwd route n t' n t'

/-- Otherwise it goes back and forth without an end. -/
theorem ensure_around {n : Nat} (hn : 0 < n) (h : n < route.steps.length)
    (hmade : t.made links cwd route n = some t')
    (hmissing : t'.attempt links cwd (route.upTo (n + 1)) = .missing) (fuel : Nat) {k : Nat}
    {s : FileTree Name E} (hs : t.Around links cwd route n t' k s) :
    ensure links cwd route fuel k s = none := by
  have hnext : t.made links cwd route (n + 1) = none := by rw [made_succ hmade, hmissing]
  induction fuel generalizing k s with
  | zero => rfl
  | succ fuel ih =>
    -- on the way forth: the next directory, or the turn
    have hforth : ∀ j s, j ≤ n → t.made links cwd route j = some s →
        ensure links cwd route (fuel + 1) (j + 1) s = none := by
      intro j s hj hjs
      obtain hj | rfl := Nat.lt_or_eq_of_le hj
      · obtain ⟨s', hs'⟩ := made_of_le hj hmade
        obtain ⟨s'', hs'', hthere⟩ := made_succ_eq_some hs'
        cases hjs.symm.trans hs''
        rw [ensure, hthere]
        simpa [show j + 1 ≠ route.steps.length by omega] using ih (.forth hj hs')
      · cases hjs.symm.trans hmade
        rw [ensure, hmissing]
        simpa [Nat.not_le.2 hn] using ih .turn
    cases hs with
    | @back j hj =>
      obtain hs | ⟨hs, hpos⟩ | ⟨-, m, s, -, hs, hfails⟩ := t.made_or_missing_or_failed links cwd hj
      · refine hforth j t ?_ hs
        by_contra hlt
        obtain ⟨s, hs'⟩ := made_of_le (Nat.lt_of_not_le hlt) hs
        cases hs'.symm.trans hnext
      · rw [ensure, hs]
        obtain ⟨i, rfl⟩ := Nat.exists_eq_succ_of_ne_zero (Nat.ne_of_gt hpos)
        simpa using ih (.back (Nat.lt_of_succ_lt hj))
      · -- in order, the first failure would be in front of `n`
        have hm : t.made links cwd route (m + 1) = none := by rw [made_succ hs, hfails]
        obtain hmn | hmn := Nat.lt_or_ge m n
        · obtain ⟨s', hs'⟩ := made_of_le hmn hmade
          cases hs'.symm.trans hm
        · obtain ⟨s', hs'⟩ := made_of_le hmn hs
          obtain hmn | rfl := Nat.lt_or_eq_of_le hmn
          · obtain ⟨s', hs'⟩ := made_of_le hmn hs
            cases hs'.symm.trans hnext
          · cases hs.symm.trans hmade
            cases hfails.symm.trans hmissing
    | forth hj hs => exact hforth _ _ hj hs
    | turn =>
      have hthere : t'.attempt links cwd (route.upTo n) = .there t' := by
        rw [attempt, mkdir_of_made hn hmade]
      rw [ensure, hthere]
      simpa [Nat.ne_of_lt h] using ih (.forth (Nat.le_refl n) hmade)

/-- It ends exactly when no directory is missing behind one that is there. -/
theorem ensure_ends_iff : (∃ fuel, (ensure links cwd route fuel route.steps.length t).isSome) ↔
    t.Smooth links cwd route := by
  constructor
  · rintro ⟨fuel, hfuel⟩ n t' hn h hmade hmissing
    obtain ⟨j, hj⟩ := Nat.exists_eq_succ_of_ne_zero (Nat.ne_zero_of_lt h)
    have haround : t.Around links cwd route n t' (j + 1) t := .back (by omega)
    rw [hj, ensure_around hn h hmade hmissing fuel haround] at hfuel
    cases hfuel
  · intro hsmooth
    cases hj : route.steps.length with
    | zero =>
      refine ⟨1, ?_⟩
      rw [ensure]
      cases t.attempt links cwd (route.upTo 0) <;> simp [hj]
    | succ j => exact ensure_ends_of_smooth hsmooth (by omega)

end Lib.FileTree
