import Mathlib.Data.List.Basic
import Mathlib.Logic.Function.Basic

/-!
# Trees of files

A tree of directories, files and symbolic links, and the routes through it. An entry is known by its
location, the names from it up to the root. A route is walked step by step, and a link on the way is
replaced by its target, up to a count of links. The directory at the end of a route can be made when
the route leads to it but for the last step.

A link is dangling when its target is missing. Then the link is there for who makes a directory, and
it is missing for who walks through it. An entry can also be missing for who makes it, as it is in a
directory of a virtual file system that makes its entries itself.
-/

namespace Lib

/-! ## Routes -/

/-- A step of a route. -/
inductive RouteStep (Name : Type*)
  | here
  | up
  | down (name : Name)
  deriving DecidableEq

/-- A way through a tree, from the root or from a directory. -/
structure Route (Name : Type*) where
  fromRoot : Bool
  steps : List (RouteStep Name)
  deriving DecidableEq

inductive FileKind (Name : Type*)
  | directory
  | file
  | link (target : Route Name)
  deriving DecidableEq

/-- Why an operation on a tree fails. -/
inductive FileError (E : Type*)
  | missing
  | notDirectory
  | tooManyLinks
  | present
  | other (e : E)
  deriving DecidableEq

variable {Name E : Type*}

/-- Where a route starts. -/
def Route.start (cwd : List Name) (route : Route Name) : List Name :=
  if route.fromRoot then [] else cwd

/-- The first `n` steps of a route. -/
def Route.upTo (route : Route Name) (n : Nat) : Route Name :=
  { route with steps := route.steps.take n }

@[simp] theorem Route.upTo_steps (route : Route Name) (n : Nat) :
    (route.upTo n).steps = route.steps.take n := rfl

@[simp] theorem Route.start_upTo (cwd : List Name) (route : Route Name) (n : Nat) :
    (route.upTo n).start cwd = route.start cwd := rfl

/-! ## Trees -/

/-- A tree of files: what is at each location, and the entries that cannot be looked up or created,
for a reason of their own. -/
structure FileTree (Name E : Type*) where
  kind : List Name → Option (FileKind Name)
  refused : List Name → Option E
  uncreatable : List Name → Option (FileError E)
  absent : ∀ loc, uncreatable loc ≠ some .present
  root : kind [] = some .directory
  closed : ∀ name loc, kind (name :: loc) ≠ none → kind loc = some .directory

namespace FileTree

section Walk

variable [DecidableEq Name]

/-- Where a step leads: to a location, or to the target of a link. -/
inductive Step (Name : Type*)
  | reach (loc : List Name)
  | follow (start : List Name) (steps : List (RouteStep Name))

/-- A step from a location. -/
def step (t : FileTree Name E) (loc : List Name) : RouteStep Name →
    Except (FileError E) (Step Name)
  | .here => if t.kind loc = some .directory then .ok (.reach loc) else .error .notDirectory
  | .up => if t.kind loc = some .directory then .ok (.reach loc.tail) else .error .notDirectory
  | .down name =>
    if t.kind loc = some .directory then
      match t.refused (name :: loc) with
      | some e => .error (.other e)
      | none =>
        match t.kind (name :: loc) with
        | none => .error .missing
        | some (.link target) => .ok (.follow (target.start loc) target.steps)
        | some _ => .ok (.reach (name :: loc))
    else .error .notDirectory

/-- The walk along some steps, where `follow` walks behind a link. -/
def walkWith (t : FileTree Name E)
    (follow : List Name → List (RouteStep Name) → Except (FileError E) (List Name)) :
    List Name → List (RouteStep Name) → Except (FileError E) (List Name)
  | loc, [] => .ok loc
  | loc, s :: steps =>
    match t.step loc s with
    | .error e => .error e
    | .ok (.reach loc) => walkWith t follow loc steps
    | .ok (.follow start target) => follow start (target ++ steps)

/-- The walk along some steps with at most `links` links. -/
def walk (t : FileTree Name E) : Nat → List Name → List (RouteStep Name) →
    Except (FileError E) (List Name)
  | 0 => t.walkWith fun _ _ => .error .tooManyLinks
  | links + 1 => t.walkWith (walk t links)

/-- The location a route leads to. -/
def resolve (t : FileTree Name E) (links : Nat) (cwd : List Name) (route : Route Name) :
    Except (FileError E) (List Name) := t.walk links (route.start cwd) route.steps

/-- The directory of the last step of a route, and that step. -/
def place (t : FileTree Name E) (links : Nat) (cwd : List Name) (route : Route Name) :
    Except (FileError E) (List Name × RouteStep Name) :=
  match route.steps.getLast? with
  | none => .error (if route.fromRoot then .present else .missing)
  | some last =>
    match t.walk links (route.start cwd) route.steps.dropLast with
    | .error e => .error e
    | .ok loc => if t.kind loc = some .directory then .ok (loc, last) else .error .notDirectory

/-- The tree with an empty directory more. -/
def grow (t : FileTree Name E) (loc : List Name) (name : Name)
    (hloc : t.kind loc = some .directory) : FileTree Name E where
  kind := Function.update t.kind (name :: loc) (some .directory)
  refused := t.refused
  uncreatable := t.uncreatable
  absent := t.absent
  root := by rw [Function.update_of_ne (List.cons_ne_nil _ _).symm, t.root]
  closed name' loc' h := by
    by_cases hnew : loc' = name :: loc
    · rw [hnew, Function.update_self]
    rw [Function.update_of_ne hnew]
    by_cases heq : name' :: loc' = name :: loc
    · rw [(List.cons.inj heq).2, hloc]
    · rw [Function.update_of_ne heq] at h
      exact t.closed name' loc' h

/-- The tree once a directory is made at the end of a route. -/
def mkdir (t : FileTree Name E) (links : Nat) (cwd : List Name) (route : Route Name) :
    Except (FileError E) (FileTree Name E) :=
  match t.place links cwd route with
  | .error e => .error e
  | .ok (loc, .down name) =>
    match t.refused (name :: loc), t.kind (name :: loc), t.uncreatable (name :: loc) with
    | some e, _, _ => .error (.other e)
    | none, some _, _ => .error .present
    | none, none, some e => .error e
    | none, none, none =>
      if h : t.kind loc = some .directory then .ok (t.grow loc name h) else .error .notDirectory
  | .ok (_, _) => .error .present

/-! ## Walks -/

variable {t : FileTree Name E} {links : Nat} {cwd : List Name} {route : Route Name}

/-- No step leads where it starts. -/
theorem walk_nil (t : FileTree Name E) (links : Nat) (loc : List Name) :
    t.walk links loc [] = .ok loc := by
  cases links <;> rfl

/-- One step, then the others. -/
theorem walk_cons (t : FileTree Name E) (links : Nat) (loc : List Name) (s : RouteStep Name)
    (steps : List (RouteStep Name)) :
    t.walk links loc (s :: steps) =
      match t.step loc s with
      | .error e => .error e
      | .ok (.reach loc) => t.walk links loc steps
      | .ok (.follow start target) =>
        match links with
        | 0 => .error .tooManyLinks
        | links + 1 => t.walk links start (target ++ steps) := by
  cases links <;> rw [walk, walkWith]

omit [DecidableEq Name] in
/-- The induction along a walk, through the links that it follows. -/
theorem walk_induction {P : Nat → List Name → List (RouteStep Name) → Prop}
    (nil : ∀ links loc, P links loc [])
    (cons : ∀ links loc s steps, (∀ loc', P links loc' steps) →
      (∀ links' start target, links = links' + 1 → P links' start (target ++ steps)) →
      P links loc (s :: steps)) (links : Nat) (loc : List Name) (steps : List (RouteStep Name)) :
    P links loc steps := by
  induction links generalizing loc steps with
  | zero =>
    induction steps generalizing loc with
    | nil => exact nil 0 loc
    | cons s steps ih =>
      exact cons 0 loc s steps ih fun _ _ _ h => absurd h.symm (Nat.succ_ne_zero _)
  | succ links ihlinks =>
    induction steps generalizing loc with
    | nil => exact nil (links + 1) loc
    | cons s steps ih =>
      refine cons (links + 1) loc s steps ih fun links' start target h => ?_
      cases h
      exact ihlinks start (target ++ steps)

/-- A walk that goes on behind some steps. -/
theorem walk_append (t : FileTree Name E) (links : Nat) (loc : List Name)
    (steps : List (RouteStep Name)) :
    (∃ e, t.walk links loc steps = .error e ∧ ∀ more,
      t.walk links loc (steps ++ more) = .error e) ∨
    ∃ loc' links', t.walk links loc steps = .ok loc' ∧ ∀ more,
      t.walk links loc (steps ++ more) = t.walk links' loc' more := by
  induction links, loc, steps using walk_induction with
  | nil links loc => exact .inr ⟨loc, links, walk_nil t links loc, fun _ => rfl⟩
  | cons links loc s steps ih ihlinks =>
    simp only [List.cons_append, walk_cons]
    cases t.step loc s with
    | error e => exact .inl ⟨e, rfl, fun _ => rfl⟩
    | ok next =>
      cases next with
      | reach loc => exact ih loc
      | follow start target =>
        cases links with
        | zero => exact .inl ⟨_, rfl, fun _ => rfl⟩
        | succ links =>
          have hrest := ihlinks links start target rfl
          simpa only [List.append_assoc] using hrest

/-- An error of the first steps is the one of all. -/
theorem walk_append_error {loc : List Name} {steps : List (RouteStep Name)} {e : FileError E}
    (h : t.walk links loc steps = .error e) (more : List (RouteStep Name)) :
    t.walk links loc (steps ++ more) = .error e := by
  obtain ⟨e', he, hmore⟩ | ⟨loc', links', hok, -⟩ := t.walk_append links loc steps
  · cases he.symm.trans h
    exact hmore more
  · cases hok.symm.trans h

/-- The last step of a walk. -/
theorem walk_concat {loc loc' : List Name} {steps : List (RouteStep Name)}
    (h : t.walk links loc steps = .ok loc') (s : RouteStep Name) :
    ∃ links', t.walk links loc (steps ++ [s]) =
      match t.step loc' s with
      | .error e => .error e
      | .ok (.reach loc) => .ok loc
      | .ok (.follow start target) =>
        match links' with
        | 0 => .error .tooManyLinks
        | links + 1 => t.walk links start target := by
  obtain ⟨e', he, -⟩ | ⟨loc'', links', hok, hmore⟩ := t.walk_append links loc steps
  · cases he.symm.trans h
  · cases hok.symm.trans h
    refine ⟨links', ?_⟩
    rw [hmore, walk_cons]
    cases t.step loc' s with
    | error e => rfl
    | ok next =>
      cases next with
      | reach loc => exact walk_nil t links' loc
      | follow start target => cases links' <;> simp

/-- A step that fails says why. -/
theorem step_ne_present (t : FileTree Name E) (loc : List Name) (s : RouteStep Name) :
    t.step loc s ≠ .error .present := by
  intro h
  cases s with
  | here =>
    rw [step] at h
    split at h <;> cases h
  | up =>
    rw [step] at h
    split at h <;> cases h
  | down name =>
    simp only [step] at h
    split at h
    · split at h
      · cases h
      · split at h <;> cases h
    · cases h

/-- No walk fails because something is there. -/
theorem walk_ne_present (t : FileTree Name E) (links : Nat) (loc : List Name)
    (steps : List (RouteStep Name)) : t.walk links loc steps ≠ .error .present := by
  induction links, loc, steps using walk_induction with
  | nil links loc =>
    rw [walk_nil]
    exact fun h => by cases h
  | cons links loc s steps ih ihlinks =>
    rw [walk_cons]
    cases hstep : t.step loc s with
    | error e =>
      intro h
      cases h
      exact t.step_ne_present loc s hstep
    | ok next =>
      cases next with
      | reach loc => exact ih loc
      | follow start target =>
        cases links with
        | zero => exact fun h => by cases h
        | succ links => exact ihlinks links start target rfl

/-! ## A directory more -/

/-- What was there is as it was. -/
theorem grow_kind {loc : List Name} {name : Name} (hloc : t.kind loc = some .directory)
    (hnew : t.kind (name :: loc) = none) {l : List Name} (hl : t.kind l ≠ none) :
    (t.grow loc name hloc).kind l = t.kind l := by
  refine Function.update_of_ne (fun heq => ?_) _ _
  exact hl (heq ▸ hnew)

/-- The new directory is one. -/
theorem grow_kind_self {loc : List Name} {name : Name} (hloc : t.kind loc = some .directory) :
    (t.grow loc name hloc).kind (name :: loc) = some .directory :=
  Function.update_self ..

/-- A step that leads somewhere leads there when there is a directory more. -/
theorem step_grow {loc : List Name} {name : Name} (hloc : t.kind loc = some .directory)
    (hnew : t.kind (name :: loc) = none) {start : List Name} {s : RouteStep Name} {next : Step Name}
    (h : t.step start s = .ok next) : (t.grow loc name hloc).step start s = .ok next := by
  have hdir : t.kind start = some .directory := by
    by_contra hdir
    cases s <;> simp [step, hdir] at h
  have hdir' : (t.grow loc name hloc).kind start = some .directory :=
    (grow_kind hloc hnew (by simp [hdir])).trans hdir
  cases s with
  | here =>
    rw [step, if_pos hdir] at h
    rw [step, if_pos hdir', h]
  | up =>
    rw [step, if_pos hdir] at h
    rw [step, if_pos hdir', h]
  | down n =>
    simp only [step, if_pos hdir] at h
    simp only [step, if_pos hdir']
    have hrefused : (t.grow loc name hloc).refused = t.refused := rfl
    rw [hrefused]
    cases hr : t.refused (n :: start) with
    | some e =>
      rw [hr] at h
      cases h
    | none =>
      rw [hr] at h
      have hsome : t.kind (n :: start) ≠ none := by
        intro hnone
        rw [hnone] at h
        cases h
      rw [grow_kind hloc hnew hsome]
      exact h

/-- So does a walk. -/
theorem walk_grow {loc : List Name} {name : Name} (hloc : t.kind loc = some .directory)
    (hnew : t.kind (name :: loc) = none) (links : Nat) (start : List Name)
    (steps : List (RouteStep Name)) {dest : List Name} :
    t.walk links start steps = .ok dest →
      (t.grow loc name hloc).walk links start steps = .ok dest := by
  induction links, start, steps using walk_induction with
  | nil links start =>
    rw [walk_nil, walk_nil]
    exact id
  | cons links start s steps ih ihlinks =>
    intro h
    rw [walk_cons] at h ⊢
    cases hstep : t.step start s with
    | error e =>
      rw [hstep] at h
      cases h
    | ok next =>
      rw [hstep] at h
      rw [step_grow hloc hnew hstep]
      cases next with
      | reach l => exact ih l h
      | follow start' target =>
        cases links with
        | zero => cases h
        | succ links => exact ihlinks links start' target rfl h

/-! ## What `mkdir` answers -/

/-- The place of a route is where all steps but the last one lead. -/
theorem place_concat {init : List (RouteStep Name)} {last : RouteStep Name}
    (h : route.steps = init ++ [last]) :
    t.place links cwd route =
      match t.walk links (route.start cwd) init with
      | .error e => .error e
      | .ok loc =>
        if t.kind loc = some .directory then .ok (loc, last) else .error .notDirectory := by
  simp only [place, h, List.getLast?_concat, List.dropLast_concat]

/-- A place is in a directory. -/
theorem place_eq_ok {loc : List Name} {last : RouteStep Name}
    (h : t.place links cwd route = .ok (loc, last)) :
    ∃ init, route.steps = init ++ [last] ∧ t.walk links (route.start cwd) init = .ok loc ∧
      t.kind loc = some .directory := by
  obtain hnil | ⟨init, s, hsteps⟩ := route.steps.eq_nil_or_concat'
  · rw [place, hnil] at h
    cases h
  · rw [place_concat hsteps] at h
    split at h
    · cases h
    next loc' hwalk =>
      split at h
      next hdir =>
        cases h
        exact ⟨init, hsteps, hwalk, hdir⟩
      · cases h

/-- The directory of the place. -/
theorem kind_of_place {loc : List Name} {last : RouteStep Name}
    (h : t.place links cwd route = .ok (loc, last)) : t.kind loc = some .directory := by
  obtain ⟨init, -, -, hdir⟩ := place_eq_ok h
  exact hdir

/-- All that making a directory can come to. -/
inductive Mkdir (t : FileTree Name E) (links : Nat) (cwd : List Name) (route : Route Name) :
    Except (FileError E) (FileTree Name E) → Prop
  | unplaced {e : FileError E} : t.place links cwd route = .error e →
      Mkdir t links cwd route (.error e)
  | turned {loc : List Name} {last : RouteStep Name} : t.place links cwd route = .ok (loc, last) →
      (∀ name, last ≠ .down name) → Mkdir t links cwd route (.error .present)
  | refused {loc : List Name} {name : Name} {e : E} :
      t.place links cwd route = .ok (loc, .down name) → t.refused (name :: loc) = some e →
      Mkdir t links cwd route (.error (.other e))
  | present {loc : List Name} {name : Name} : t.place links cwd route = .ok (loc, .down name) →
      t.refused (name :: loc) = none → t.kind (name :: loc) ≠ none →
      Mkdir t links cwd route (.error .present)
  | uncreatable {loc : List Name} {name : Name} {e : FileError E} :
      t.place links cwd route = .ok (loc, .down name) → t.refused (name :: loc) = none →
      t.kind (name :: loc) = none → t.uncreatable (name :: loc) = some e →
      Mkdir t links cwd route (.error e)
  | made {loc : List Name} {name : Name} : t.place links cwd route = .ok (loc, .down name) →
      t.refused (name :: loc) = none → t.kind (name :: loc) = none →
      (h : t.kind loc = some .directory) → Mkdir t links cwd route (.ok (t.grow loc name h))

/-- `mkdir` by what stands at the place. -/
theorem mkdir_cases (t : FileTree Name E) (links : Nat) (cwd : List Name) (route : Route Name) :
    Mkdir t links cwd route (t.mkdir links cwd route) := by
  rw [mkdir]
  cases hplace : t.place links cwd route with
  | error e => exact .unplaced hplace
  | ok found =>
    obtain ⟨loc, last⟩ := found
    have hdir := kind_of_place hplace
    cases last with
    | here => exact .turned hplace fun _ h => by cases h
    | up => exact .turned hplace fun _ h => by cases h
    | down name =>
      simp only
      cases hrefused : t.refused (name :: loc) with
      | some e => exact .refused hplace hrefused
      | none =>
        cases hkind : t.kind (name :: loc) with
        | some k => exact .present hplace hrefused (by simp [hkind])
        | none =>
          cases hun : t.uncreatable (name :: loc) with
          | some e => exact .uncreatable hplace hrefused hkind hun
          | none =>
            simp only [dif_pos hdir]
            exact .made hplace hrefused hkind hdir

/-- The end of a route from the directory of its last step. -/
theorem resolve_of_place {loc : List Name} {last : RouteStep Name}
    (h : t.place links cwd route = .ok (loc, last)) :
    ∃ links', t.resolve links cwd route =
      match t.step loc last with
      | .error e => .error e
      | .ok (.reach loc) => .ok loc
      | .ok (.follow start target) =>
        match links' with
        | 0 => .error .tooManyLinks
        | links + 1 => t.walk links start target := by
  obtain ⟨init, hsteps, hwalk, -⟩ := place_eq_ok h
  rw [resolve, hsteps]
  exact walk_concat hwalk last

/-- A route without a place does not resolve. -/
theorem resolve_of_place_error (hne : route.steps ≠ []) {e : FileError E}
    (h : t.place links cwd route = .error e) : t.resolve links cwd route = .error e := by
  obtain hnil | ⟨init, last, hsteps⟩ := route.steps.eq_nil_or_concat'
  · exact absurd hnil hne
  rw [place_concat hsteps] at h
  rw [resolve, hsteps]
  cases hwalk : t.walk links (route.start cwd) init with
  | error e' =>
    rw [hwalk] at h
    cases h
    exact walk_append_error hwalk [last]
  | ok loc =>
    simp only [hwalk] at h
    split at h
    · cases h
    next hdir =>
      cases h
      obtain ⟨links', hlinks⟩ := walk_concat hwalk last
      rw [hlinks]
      cases last <;> simp only [step, if_neg hdir]

/-- Nor does one whose last step is refused. -/
theorem resolve_of_refused {loc : List Name} {name : Name} {e : E}
    (h : t.place links cwd route = .ok (loc, .down name))
    (hrefused : t.refused (name :: loc) = some e) :
    t.resolve links cwd route = .error (.other e) := by
  obtain ⟨links', hresolve⟩ := resolve_of_place h
  simp only [hresolve, step, if_pos (kind_of_place h), hrefused]

/-- Nor one whose last name is not there. -/
theorem resolve_of_absent {loc : List Name} {name : Name}
    (h : t.place links cwd route = .ok (loc, .down name))
    (hrefused : t.refused (name :: loc) = none) (hkind : t.kind (name :: loc) = none) :
    t.resolve links cwd route = .error .missing := by
  obtain ⟨links', hresolve⟩ := resolve_of_place h
  simp only [hresolve, step, if_pos (kind_of_place h), hrefused, hkind]

/-- A directory that is made was missing. -/
theorem resolve_of_mkdir_ok {t' : FileTree Name E} (h : t.mkdir links cwd route = .ok t') :
    t.resolve links cwd route = .error .missing := by
  have hcases := t.mkdir_cases links cwd route
  rw [h] at hcases
  cases hcases with
  | made hplace hrefused hkind _ => exact resolve_of_absent hplace hrefused hkind

/-- A route leads nowhere when its directory cannot be made. -/
theorem resolve_of_mkdir_error (hne : route.steps ≠ []) {e : FileError E}
    (h : t.mkdir links cwd route = .error e) (he : e ≠ .present) :
    ∃ e', t.resolve links cwd route = .error e' ∧ (e = .missing → e' = .missing) := by
  have hcases := t.mkdir_cases links cwd route
  rw [h] at hcases
  cases hcases with
  | unplaced hplace => exact ⟨e, resolve_of_place_error hne hplace, id⟩
  | turned _ _ => exact absurd rfl he
  | present _ _ _ => exact absurd rfl he
  | @refused _ _ e' hplace hrefused =>
    exact ⟨.other e', resolve_of_refused hplace hrefused, fun h => by cases h⟩
  | uncreatable hplace hrefused hkind _ =>
    exact ⟨.missing, resolve_of_absent hplace hrefused hkind, fun _ => rfl⟩

/-- No directory is made behind a route that leads nowhere. -/
theorem mkdir_of_resolve_error {next : Route Name} {s : RouteStep Name}
    (hnext : next.steps = route.steps ++ [s]) (hstart : next.start cwd = route.start cwd)
    {e : FileError E} (h : t.resolve links cwd route = .error e) :
    t.mkdir links cwd next = .error e := by
  rw [resolve] at h
  simp only [mkdir, place_concat hnext, hstart, h]

/-- A directory that was made is there. -/
theorem mkdir_again {t' : FileTree Name E} (h : t.mkdir links cwd route = .ok t') :
    t'.mkdir links cwd route = .error .present := by
  have hcases := t.mkdir_cases links cwd route
  rw [h] at hcases
  cases hcases with
  | @made loc name hplace hrefused hkind hdir =>
    obtain ⟨init, hsteps, hwalk, -⟩ := place_eq_ok hplace
    have hwalk' := walk_grow hdir hkind links _ _ hwalk
    have hdir' : (t.grow loc name hdir).kind loc = some .directory :=
      (grow_kind hdir hkind (by simp [hdir])).trans hdir
    have hrefused' : (t.grow loc name hdir).refused (name :: loc) = none := hrefused
    simp only [mkdir, place_concat hsteps, hwalk', if_pos hdir', hrefused', grow_kind_self]

/-- The route leads to a link whose target is missing. -/
def Dangling (t : FileTree Name E) (links : Nat) (cwd : List Name) (route : Route Name) : Prop :=
  (∃ loc name target, t.place links cwd route = .ok (loc, .down name) ∧
    t.kind (name :: loc) = some (.link target)) ∧
  t.resolve links cwd route = .error .missing

/-- The entry at the end of the route is missing, and it is missing for who makes it as well. -/
def Barren (t : FileTree Name E) (links : Nat) (cwd : List Name) (route : Route Name) : Prop :=
  ∃ loc name, t.place links cwd route = .ok (loc, .down name) ∧ t.refused (name :: loc) = none ∧
    t.kind (name :: loc) = none ∧ t.uncreatable (name :: loc) = some .missing

/-- What is there leads somewhere, or it is a dangling link. -/
theorem dangling_of_present (hne : route.steps ≠ [])
    (h : t.mkdir links cwd route = .error .present)
    (hmissing : t.resolve links cwd route = .error .missing) : t.Dangling links cwd route := by
  have hcases := t.mkdir_cases links cwd route
  rw [h] at hcases
  cases hcases with
  | unplaced hplace => cases (resolve_of_place_error hne hplace).symm.trans hmissing
  | @turned loc last hplace hlast =>
    obtain ⟨links', hresolve⟩ := resolve_of_place hplace
    rw [hmissing] at hresolve
    cases last with
    | here => simp [step, kind_of_place hplace] at hresolve
    | up => simp [step, kind_of_place hplace] at hresolve
    | down name => exact absurd rfl (hlast name)
  | @present loc name hplace hrefused hkind =>
    obtain ⟨links', hresolve⟩ := resolve_of_place hplace
    rw [hmissing] at hresolve
    cases hk : t.kind (name :: loc) with
    | none => exact absurd hk hkind
    | some k =>
      cases k with
      | directory => simp [step, kind_of_place hplace, hrefused, hk] at hresolve
      | file => simp [step, kind_of_place hplace, hrefused, hk] at hresolve
      | link target => exact ⟨⟨loc, name, target, hplace, hk⟩, hmissing⟩
  | uncreatable _ _ _ hun => exact absurd hun (t.absent _)

/-- When the directory behind one that is there is missing for who makes it. -/
theorem mkdir_eq_missing_iff (hne : route.steps ≠ [])
    (h : t.mkdir links cwd route = .error .present) {next : Route Name} {s : RouteStep Name}
    (hnext : next.steps = route.steps ++ [s]) (hstart : next.start cwd = route.start cwd) :
    t.mkdir links cwd next = .error .missing ↔
      t.Dangling links cwd route ∨ t.Barren links cwd next := by
  constructor
  · intro hmissing
    have hcases := t.mkdir_cases links cwd next
    rw [hmissing] at hcases
    cases hcases with
    | unplaced hplace =>
      rw [place_concat hnext, hstart] at hplace
      split at hplace
      next e hwalk =>
        cases hplace
        exact .inl (dangling_of_present hne h hwalk)
      · split at hplace <;> cases hplace
    | uncreatable hplace hrefused hkind hun =>
      exact .inr ⟨_, _, hplace, hrefused, hkind, hun⟩
  · rintro (⟨-, hmissing⟩ | ⟨loc, name, hplace, hrefused, hkind, hun⟩)
    · exact mkdir_of_resolve_error hnext hstart hmissing
    · simp only [mkdir, hplace, hrefused, hkind, hun]

end Walk

end FileTree

end Lib
