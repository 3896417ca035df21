import SecLsmManager.Library.Library

/-!
# The command line tool

`do_all` of `main-sec-lsm-manager-cmd.c` and what it calls. A command returns the count of tokens
that it has used. `do_any` skips separators in front of a command, and `do_all` drops the count
that it returns from before them. So with a separator some tokens are run again, and the loop
does not end on the separators of the end (`doAll_once_iff`). What the calls of the library return
is an argument: `answers n` is the code of the call of the `n`-th turn.
-/

namespace SecLsmManager

/-- `ISSEP`. -/
def isSep (x : CStr) : Bool := x = .lit ";"

/-- What a command does with its tokens. -/
inductive Act
  | call (call : ApiCall)
  | disconnect
  | notEnough
  | badArgument (argument : CStr)
  | badLog (argument : CStr)
  | help (topic : Option CStr)
  | unknown
  | quit
  deriving DecidableEq

/-- A command that was run, with the tokens that it has used. -/
structure Command where
  tokens : List CStr
  act : Act
  deriving DecidableEq

/-- `last_status` after a command, where `answer` is the code of the call. -/
def Act.lastStatus (answer : Int) : Act → Int
  | .call _ => answer
  | .notEnough | .badArgument _ => -EINVAL
  | _ => 0

/-- The loop of `plink`. -/
def plinkLoop : Nat → List CStr → Nat
  | nrm + 1, token :: av => if isSep token then 0 else plinkLoop nrm av + 1
  | _, _ => 0

def plink (av : List CStr) (maxi : Nat) : Nat := plinkLoop (min maxi av.length) av

/-- `av[i]`. -/
def arg (av : List CStr) (i : Nat) : CStr := av.getD i .empty

/-- A command of the tokens that `plink` links. -/
def doLinked (maxi : Nat) (act : List CStr → Act) (av : List CStr) : Nat × Command :=
  let used := plink av maxi
  (used, ⟨av.take used, act (av.take used)⟩)

/-- A command that needs all of its `maxi` tokens. -/
def doCommand (maxi : Nat) (act : List CStr → Act) : List CStr → Nat × Command :=
  doLinked maxi fun av => if av.length < maxi then .notEnough else act av

/-- The call of a command whose first argument is checked. -/
def checked (av : List CStr) (call : ApiCall) : Act :=
  if (arg av 1).length = 0 then .badArgument (arg av 1) else .call call

def doClear : List CStr → Nat × Command := doCommand 1 fun _ => .call .clear

def doDisplay : List CStr → Nat × Command := doCommand 1 fun _ => .call .display

def doId : List CStr → Nat × Command := doCommand 2 fun av => checked av (.setId (arg av 1))

def doPath : List CStr → Nat × Command :=
  doCommand 3 fun av => checked av (.addPath (arg av 1) (arg av 2))

def doPlug : List CStr → Nat × Command :=
  doCommand 4 fun av => checked av (.addPlug (arg av 1) (arg av 2) (arg av 3))

def doPermission : List CStr → Nat × Command :=
  doCommand 2 fun av => checked av (.addPermission (arg av 1))

def doInstall : List CStr → Nat × Command := doCommand 1 fun _ => .call .install

def doUninstall : List CStr → Nat × Command := doCommand 1 fun _ => .call .uninstall

def doReset : List CStr → Nat × Command := doCommand 1 fun _ => .disconnect

def doLog : List CStr → Nat × Command :=
  doLinked 2 fun av =>
    if av.length > 1 then
      if arg av 1 = .lit "on" then .call (.log 1 0)
      else if arg av 1 = .lit "off" then .call (.log 0 1)
      else .badLog (arg av 1)
    else .call (.log 0 0)

/-- The commands that have a help text of their own. -/
def helpTopics : List CStr :=
  ["log", "quit", "help", "clear", "display", "id", "path", "plug", "permission", "install",
    "uninstall", "reset"].map .lit

def doHelp (av : List CStr) : Nat × Command :=
  let topic := if av.length > 1 ∧ arg av 1 ∈ helpTopics then some (arg av 1) else none
  let rc := if topic.isSome then 2 else 1
  (rc, ⟨av.take rc, .help topic⟩)

/-- What `do_any` calls, for a name that is not a separator. -/
def doName (name : CStr) : List CStr → Nat × Command :=
  if name = .lit "log" then doLog
  else if name = .lit "clear" then doClear
  else if name = .lit "display" then doDisplay
  else if name = .lit "id" then doId
  else if name = .lit "path" then doPath
  else if name = .lit "plug" then doPlug
  else if name = .lit "permission" then doPermission
  else if name = .lit "install" then doInstall
  else if name = .lit "uninstall" then doUninstall
  else if name = .lit "reset" then doReset
  else if name = .lit "quit" then fun av => (1, ⟨av.take 1, .quit⟩)
  else if name = .lit "help" ∨ name = .lit "?" then doHelp
  else fun av => (1, ⟨av.take 1, .unknown⟩)

/-- `do_any`: the count of tokens that it returns, and the command that it has run. -/
def doAny (av : List CStr) : Nat × Option Command :=
  match av.dropWhile isSep with
  | [] => (0, none)
  | name :: av =>
    let (rc, command) := doName name (name :: av)
    (rc, some command)

/-- The commands that `do_all` runs, and the status it exits with if it does not return. -/
structure Run where
  commands : List Command
  exit : Option Int
  deriving DecidableEq

/-- A run that begins with a command. -/
def Run.after (command : Option Command) (run : Run) : Run :=
  { run with commands := command.toList ++ run.commands }

/-- `do_all`; `none` if its loop has not ended after `fuel` turns. -/
def doAll (quit : Bool) (answers : Nat → Int) : Nat → List CStr → Option Run
  | _, [] => some ⟨[], none⟩
  | 0, _ :: _ => none
  | fuel + 1, name :: av =>
    let (rc, command) := doAny (name :: av)
    if command.any (·.act = .quit) then some (.after command ⟨[], some 0⟩)
    else
      let lastStatus := command.elim 0 (·.act.lastStatus (answers 0))
      if quit ∧ (rc = 0 ∨ lastStatus < 0) then some (.after command ⟨[], some 1⟩)
      else
        (doAll quit (fun n => answers (n + 1)) fuel ((name :: av).drop rc)).map
          (.after command)

/-! ## The reference segmentation -/

/-- The most tokens that a command takes, its name included. -/
def maxTokens (name : CStr) : Nat :=
  if name = .lit "log" ∨ name = .lit "id" ∨ name = .lit "permission" then 2
  else if name = .lit "path" then 3
  else if name = .lit "plug" then 4
  else if name = .lit "help" ∨ name = .lit "?" then 2
  else 1

/-- Whether a command may take the token: no separator, and for a help nothing but a topic. -/
def mayTake (name token : CStr) : Bool :=
  !isSep token && ((name ≠ .lit "help" && name ≠ .lit "?") || token ∈ helpTopics)

/-- The arguments of the command `name` that `av` follows. -/
def arguments (name : CStr) (av : List CStr) : List CStr :=
  (av.takeWhile (mayTake name)).take (maxTokens name - 1)

/-- The arguments are among the tokens that follow the command. -/
theorem length_arguments_le (name : CStr) (av : List CStr) :
    (arguments name av).length ≤ av.length :=
  Nat.le_trans (List.length_take_le' _ _) (List.takeWhile_prefix _).length_le

/-- The commands of a list of tokens: the separators are skipped, and a command takes its
arguments. -/
def segments : List CStr → List (List CStr)
  | [] => []
  | token :: av =>
    if isSep token then segments av
    else (token :: arguments token av) :: segments (av.drop (arguments token av).length)
termination_by tokens => tokens.length
decreasing_by
  · simp
  · simp only [List.length_drop, List.length_cons]
    omega

/-- What the command of a segment is when it is run on its own. -/
def execute (segment : List CStr) : Command := (doName (arg segment 0) segment).2

/-- The loop ends, and it has run the commands of the segments, each one once and in order. -/
def RunsOnce (answers : Nat → Int) (tokens : List CStr) : Prop :=
  ∃ fuel, doAll false answers fuel tokens = some ⟨(segments tokens).map execute, none⟩

/-! ## A command takes its own tokens -/

/-- The loop of `plink` links up to `n` tokens, and stops at a separator. -/
theorem plinkLoop_length (n : Nat) (av : List CStr) :
    plinkLoop n av = ((av.takeWhile fun t => !isSep t).take n).length := by
  induction av generalizing n with
  | nil => cases n <;> rfl
  | cons token av ih =>
    cases n with
    | zero => rfl
    | succ n =>
      rw [plinkLoop]
      cases hsep : isSep token with
      | true => simp [hsep]
      | false => simp [hsep, ih]

/-- The first elements that a predicate holds of are a prefix of the list. -/
theorem take_takeWhile_length {α : Type*} (p : α → Bool) (l : List α) (n : Nat) :
    l.take ((l.takeWhile p).take n).length = (l.takeWhile p).take n := by
  have hpre : (l.takeWhile p).take n <+: l := (List.take_prefix _ _).trans (List.takeWhile_prefix _)
  exact (List.prefix_iff_eq_take.1 hpre).symm

/-- `plink` links the name of the command and what follows it up to a separator. -/
theorem plink_cons {name : CStr} (hsep : isSep name = false) (av : List CStr) (maxi : Nat) :
    plink (name :: av) (maxi + 1) = ((av.takeWhile fun t => !isSep t).take maxi).length + 1 := by
  have hmin : min (maxi + 1) (name :: av).length = min maxi av.length + 1 := by
    rw [List.length_cons]
    omega
  have hle : (av.takeWhile fun t => !isSep t).length ≤ av.length :=
    (List.takeWhile_prefix _).length_le
  rw [plink, hmin, plinkLoop, hsep, if_neg Bool.false_ne_true, plinkLoop_length,
    List.length_take, List.length_take]
  omega

/-- The command uses the arguments of its name, and is what it is on these. -/
structure Takes (name : CStr) (run : List CStr → Nat × Command) : Prop where
  used : ∀ av, (run (name :: av)).1 = (arguments name av).length + 1
  tokens : ∀ av, (run (name :: av)).2.tokens = name :: arguments name av
  alone : ∀ av, (run (name :: av)).2 = (run (name :: arguments name av)).2

/-- Every argument of a command is one that it may take. -/
theorem mayTake_of_mem {name token : CStr} {av : List CStr} (h : token ∈ arguments name av) :
    mayTake name token = true := List.mem_takeWhile_imp (List.mem_of_mem_take h)

/-- The arguments of a command are those that it takes when nothing else follows. -/
theorem arguments_arguments (name : CStr) (av : List CStr) :
    arguments name (arguments name av) = arguments name av := by
  have hall : ∀ token ∈ arguments name av, mayTake name token = true := fun _ => mayTake_of_mem
  rw [arguments, List.takeWhile_eq_self_iff.2 hall, arguments, List.take_take, Nat.min_self]

/-- A command of `plink` takes what it links. -/
theorem Takes.linked (maxi : Nat) {name : CStr} (hsep : isSep name = false)
    (hhelp : (name ≠ .lit "help" && name ≠ .lit "?") = true)
    (hmax : maxTokens name = maxi + 1) (act : List CStr → Act) :
    Takes name (doLinked (maxi + 1) act) := by
  have hmay : mayTake name = fun t => !isSep t := by
    funext t
    rw [mayTake, hhelp, Bool.true_or, Bool.and_true]
  have hargs : ∀ av, (av.takeWhile fun t => !isSep t).take maxi = arguments name av := by
    intro av
    rw [arguments, hmay, hmax, Nat.add_sub_cancel]
  have hlinked : ∀ av, doLinked (maxi + 1) act (name :: av) =
      ((arguments name av).length + 1,
        ⟨name :: arguments name av, act (name :: arguments name av)⟩) := by
    intro av
    have htake := take_takeWhile_length (fun t => !isSep t) av maxi
    rw [hargs] at htake
    rw [doLinked, plink_cons hsep, hargs, List.take_succ_cons, htake]
  refine ⟨fun av => by rw [hlinked], fun av => by rw [hlinked], fun av => ?_⟩
  rw [hlinked, hlinked, arguments_arguments]

/-- So does one that `do_command` checks the number of its arguments for. -/
theorem Takes.command (maxi : Nat) {name : CStr} (hsep : isSep name = false)
    (hhelp : (name ≠ .lit "help" && name ≠ .lit "?") = true)
    (hmax : maxTokens name = maxi + 1) (act : List CStr → Act) :
    Takes name (doCommand (maxi + 1) act) := .linked maxi hsep hhelp hmax _

/-- A command that takes its name only. -/
theorem Takes.single {name : CStr} (hmax : maxTokens name = 1) (act : Act) :
    Takes name fun av => (1, ⟨av.take 1, act⟩) := by
  have hargs : ∀ av, arguments name av = [] := by
    intro av
    rw [arguments, hmax]
    rfl
  refine ⟨fun av => ?_, fun av => ?_, fun av => ?_⟩
  · rw [hargs]
    rfl
  · rw [hargs]
    rfl
  · rw [hargs]
    rfl

/-- No topic of the help is a separator. -/
theorem isSep_of_topic {token : CStr} (h : token ∈ helpTopics) : isSep token = false := by
  have hall : ∀ token ∈ helpTopics, isSep token = false := by decide +kernel
  exact hall token h

/-- The help takes one topic at most. -/
theorem Takes.help {name : CStr} (hname : name = .lit "help" ∨ name = .lit "?") :
    Takes name doHelp := by
  have hmax : maxTokens name = 2 := by
    rcases hname with rfl | rfl <;> decide +kernel
  have hmay : ∀ token, mayTake name token = decide (token ∈ helpTopics) := by
    intro token
    have hhelp : (name ≠ .lit "help" && name ≠ .lit "?") = false := by
      rcases hname with rfl | rfl <;> decide +kernel
    rw [mayTake, hhelp, Bool.false_or]
    by_cases htopic : token ∈ helpTopics
    · rw [isSep_of_topic htopic, decide_eq_true htopic]
      rfl
    · rw [decide_eq_false htopic, Bool.and_false]
  have hargs : ∀ token av, arguments name (token :: av) =
      if token ∈ helpTopics then [token] else [] := by
    intro token av
    rw [arguments, hmax]
    by_cases htopic : token ∈ helpTopics
    · simp [hmay, htopic]
    · simp [hmay, htopic]
  have hnone : arguments name [] = [] := by rw [arguments, List.takeWhile_nil, List.take_nil]
  have hrun : ∀ token av, doHelp (name :: token :: av) =
      if token ∈ helpTopics then (2, ⟨[name, token], .help (some token)⟩)
      else (1, ⟨[name], .help none⟩) := by
    intro token av
    by_cases htopic : token ∈ helpTopics
    · simp [doHelp, arg, htopic]
    · simp [doHelp, arg, htopic]
  have halone : doHelp [name] = (1, ⟨[name], .help none⟩) := rfl
  refine ⟨fun av => ?_, fun av => ?_, fun av => ?_⟩
  all_goals
    cases av with
    | nil => simp [hnone, halone]
    | cons token av =>
      by_cases htopic : token ∈ helpTopics
      · simp [hargs, hrun, htopic]
      · simp [hargs, hrun, halone, htopic]

/-- A name that no other command has is taken alone. -/
theorem maxTokens_eq_one {name : CStr} (h : name ∉ ["log", "id", "path", "plug", "permission",
    "help", "?"].map CStr.lit) : maxTokens name = 1 := by
  simp only [List.map_cons, List.map_nil, List.mem_cons, List.not_mem_nil, not_or] at h
  rw [maxTokens, if_neg (by tauto), if_neg (by tauto), if_neg (by tauto), if_neg (by tauto)]

/-- Whatever its name is, a command takes its arguments. -/
theorem takes_doName {name : CStr} (hsep : isSep name = false) : Takes name (doName name) := by
  refine iteInduction (motive := Takes name) (fun h => ?_) fun hlog => ?_
  · subst h
    exact .linked 1 hsep (by decide +kernel) (by decide +kernel) _
  refine iteInduction (motive := Takes name) (fun h => ?_) fun hclear => ?_
  · subst h
    exact .command 0 hsep (by decide +kernel) (by decide +kernel) _
  refine iteInduction (motive := Takes name) (fun h => ?_) fun hdisplay => ?_
  · subst h
    exact .command 0 hsep (by decide +kernel) (by decide +kernel) _
  refine iteInduction (motive := Takes name) (fun h => ?_) fun hid => ?_
  · subst h
    exact .command 1 hsep (by decide +kernel) (by decide +kernel) _
  refine iteInduction (motive := Takes name) (fun h => ?_) fun hpath => ?_
  · subst h
    exact .command 2 hsep (by decide +kernel) (by decide +kernel) _
  refine iteInduction (motive := Takes name) (fun h => ?_) fun hplug => ?_
  · subst h
    exact .command 3 hsep (by decide +kernel) (by decide +kernel) _
  refine iteInduction (motive := Takes name) (fun h => ?_) fun hpermission => ?_
  · subst h
    exact .command 1 hsep (by decide +kernel) (by decide +kernel) _
  refine iteInduction (motive := Takes name) (fun h => ?_) fun hinstall => ?_
  · subst h
    exact .command 0 hsep (by decide +kernel) (by decide +kernel) _
  refine iteInduction (motive := Takes name) (fun h => ?_) fun huninstall => ?_
  · subst h
    exact .command 0 hsep (by decide +kernel) (by decide +kernel) _
  refine iteInduction (motive := Takes name) (fun h => ?_) fun hreset => ?_
  · subst h
    exact .command 0 hsep (by decide +kernel) (by decide +kernel) _
  refine iteInduction (motive := Takes name) (fun h => ?_) fun hquit => ?_
  · subst h
    exact .single (by decide +kernel) .quit
  refine iteInduction (motive := Takes name) .help fun hhelp => ?_
  refine .single (maxTokens_eq_one ?_) .unknown
  simp only [List.map_cons, List.map_nil, List.mem_cons, List.not_mem_nil, not_or]
  exact ⟨hlog, hid, hpath, hplug, hpermission, (not_or.1 hhelp).1, (not_or.1 hhelp).2, not_false⟩

/-- A call of the library is not an exit. -/
theorem checked_ne_quit (av : List CStr) (call : ApiCall) : checked av call ≠ .quit := by
  unfold checked
  split <;> nofun

/-- Nor is what `do_command` does of it. -/
theorem doCommand_ne_quit (maxi : Nat) (act : List CStr → Act) (h : ∀ av, act av ≠ .quit)
    (av : List CStr) : (doCommand maxi act av).2.act ≠ .quit :=
  iteInduction (motive := (· ≠ Act.quit)) (fun _ => nofun) fun _ => h _

/-- Nor is `log`. -/
theorem doLog_ne_quit (av : List CStr) : (doLog av).2.act ≠ .quit := by
  simp only [doLog, doLinked]
  split_ifs <;> nofun

/-- No command but `quit` exits. -/
theorem doName_ne_quit {name : CStr} (hname : name ≠ .lit "quit") (av : List CStr) :
    (doName name av).2.act ≠ .quit := by
  have next : ∀ {c : Prop} [Decidable c] {run run' : List CStr → Nat × Command},
      (run av).2.act ≠ .quit → (run' av).2.act ≠ .quit →
      ((if c then run else run') av).2.act ≠ .quit := by
    intro c _ run run' h h'
    split
    · exact h
    · exact h'
  unfold doName
  refine next (doLog_ne_quit av) ?_
  refine next (doCommand_ne_quit 1 (fun _ => .call .clear) (fun _ => nofun) av) ?_
  refine next (doCommand_ne_quit 1 (fun _ => .call .display) (fun _ => nofun) av) ?_
  refine next (doCommand_ne_quit 2 _ (fun _ => checked_ne_quit _ _) av) ?_
  refine next (doCommand_ne_quit 3 _ (fun _ => checked_ne_quit _ _) av) ?_
  refine next (doCommand_ne_quit 4 _ (fun _ => checked_ne_quit _ _) av) ?_
  refine next (doCommand_ne_quit 2 _ (fun _ => checked_ne_quit _ _) av) ?_
  refine next (doCommand_ne_quit 1 (fun _ => .call .install) (fun _ => nofun) av) ?_
  refine next (doCommand_ne_quit 1 (fun _ => .call .uninstall) (fun _ => nofun) av) ?_
  refine next (doCommand_ne_quit 1 (fun _ => .disconnect) (fun _ => nofun) av) ?_
  rw [if_neg hname]
  exact next nofun nofun

/-! ## Runs -/

/-- A command uses its name and its arguments. -/
theorem execute_tokens {name : CStr} (hsep : isSep name = false) (av : List CStr) :
    (execute (name :: arguments name av)).tokens = name :: arguments name av := by
  have htakes := (takes_doName hsep).tokens (arguments name av)
  rw [arguments_arguments] at htakes
  exact htakes

/-- A command begins behind the separators. -/
theorem isSep_of_dropWhile {tokens : List CStr} {name : CStr} {av : List CStr}
    (h : tokens.dropWhile isSep = name :: av) : isSep name = false := by
  have hhead := List.head?_dropWhile_not isSep tokens
  rw [h] at hhead
  simpa using hhead

/-- A turn of the loop runs the next command, with its arguments. -/
theorem doAny_of_dropWhile {tokens : List CStr} {name : CStr} {av : List CStr}
    (h : tokens.dropWhile isSep = name :: av) :
    doAny tokens =
      ((arguments name av).length + 1, some (execute (name :: arguments name av))) := by
  have htakes := takes_doName (isSep_of_dropWhile h)
  rw [doAny, h]
  change ((doName name (name :: av)).1, some (doName name (name :: av)).2) = _
  rw [htakes.used, htakes.alone]
  rfl

/-- A turn of the loop that runs a command. -/
theorem doAll_succ {fuel : Nat} {tokens : List CStr} {name : CStr} {av : List CStr}
    (answers : Nat → Int) (h : tokens.dropWhile isSep = name :: av) :
    doAll false answers (fuel + 1) tokens =
      if (execute (name :: arguments name av)).act = .quit then
        some ⟨[execute (name :: arguments name av)], some 0⟩
      else (doAll false (fun n => answers (n + 1)) fuel
        (tokens.drop ((arguments name av).length + 1))).map
          (.after (some (execute (name :: arguments name av)))) := by
  cases tokens with
  | nil => cases h
  | cons token tokens =>
    rw [doAll, doAny_of_dropWhile h]
    simp [Run.after]

/-- The count of tokens that the commands of a run use. -/
def Run.used (run : Run) : Nat := (run.commands.flatMap (·.tokens)).length

/-- A run that ends has used as many tokens as there are: those of the separators are used too,
by commands that run again. -/
theorem doAll_used {answers : Nat → Int} {fuel : Nat} {tokens : List CStr} {run : Run}
    (h : doAll false answers fuel tokens = some run) (hexit : run.exit = none) :
    run.used = tokens.length := by
  induction fuel generalizing answers tokens run with
  | zero =>
    cases tokens with
    | nil => cases h; rfl
    | cons token tokens => cases h
  | succ fuel ih =>
    cases hdrop : tokens.dropWhile isSep with
    | nil =>
      cases tokens with
      | nil => cases h; rfl
      | cons token tokens =>
        rw [doAll, doAny, hdrop] at h
        simp only [Option.any_none, Bool.false_eq_true, if_false, false_and, List.drop_zero] at h
        obtain ⟨run', h', rfl⟩ := Option.map_eq_some_iff.1 h
        exact ih h' hexit
    | cons name av =>
      rw [doAll_succ answers hdrop] at h
      have hsuffix : name :: av <:+ tokens := hdrop ▸ List.dropWhile_suffix isSep
      have hlen := hsuffix.length_le
      have hargs := length_arguments_le name av
      rw [List.length_cons] at hlen
      split at h
      · cases h
        cases hexit
      · obtain ⟨run', h', rfl⟩ := Option.map_eq_some_iff.1 h
        have hrest := ih h' hexit
        have hsep := isSep_of_dropWhile hdrop
        rw [Run.used] at hrest ⊢
        simp only [Run.after, Option.toList_some, List.singleton_append, List.flatMap_cons,
          List.length_append, hrest, execute_tokens hsep, List.length_cons, List.length_drop]
        omega

/-- The segments are the tokens but the separators, in order. -/
theorem segments_flatten (tokens : List CStr) :
    (segments tokens).flatten = tokens.filter fun t => !isSep t := by
  induction tokens using segments.induct with
  | case1 => rw [segments, List.flatten_nil, List.filter_nil]
  | case2 token av hsep ih =>
    rw [segments, if_pos hsep, ih, List.filter_cons_of_neg (by simp [hsep])]
  | case3 token av hsep ih =>
    have htaken : ∀ t ∈ arguments token av, (!isSep t) = true := fun t ht =>
      (Bool.and_eq_true_iff.1 (mayTake_of_mem ht)).1
    have hpre : arguments token av <+: av :=
      (List.take_prefix _ _).trans (List.takeWhile_prefix _)
    obtain ⟨rest, hav⟩ := hpre
    rw [segments, if_neg hsep, List.flatten_cons, ih, List.filter_cons_of_pos (by simpa using hsep)]
    generalize arguments token av = args at htaken hav
    subst hav
    rw [List.drop_left, List.filter_append, List.filter_eq_self.2 htaken, List.cons_append]

/-- The reference uses the tokens that are no separators. -/
theorem segments_used (tokens : List CStr) :
    (⟨(segments tokens).map execute, none⟩ : Run).used =
      (tokens.filter fun t => !isSep t).length := by
  rw [← segments_flatten, Run.used, List.flatMap_map]
  congr 1
  induction tokens using segments.induct with
  | case1 => rw [segments, List.flatMap_nil, List.flatten_nil]
  | case2 token av hsep ih => rwa [segments, if_pos hsep]
  | case3 token av hsep ih =>
    rw [segments, if_neg hsep, List.flatMap_cons, List.flatten_cons, ih,
      execute_tokens (by simpa using hsep)]

/-- Without separators and `quit` the loop runs the segments, whatever the calls answer. -/
theorem doAll_segments {tokens : List CStr} (hsep : ∀ token ∈ tokens, isSep token = false)
    (hquit : .lit "quit" ∉ tokens) {fuel : Nat} (hfuel : tokens.length ≤ fuel)
    (answers : Nat → Int) :
    doAll false answers fuel tokens = some ⟨(segments tokens).map execute, none⟩ := by
  induction fuel generalizing answers tokens with
  | zero =>
    obtain rfl := List.length_eq_zero_iff.1 (Nat.le_zero.1 hfuel)
    rw [segments]
    rfl
  | succ fuel ih =>
    cases tokens with
    | nil =>
      rw [segments]
      rfl
    | cons name av =>
      have hname := hsep name List.mem_cons_self
      have hav : ∀ token ∈ av.drop (arguments name av).length, token ∈ name :: av :=
        fun token h => List.mem_cons_of_mem name (List.mem_of_mem_drop h)
      have hact : (execute (name :: arguments name av)).act ≠ .quit :=
        doName_ne_quit (fun h => hquit (h ▸ List.mem_cons_self)) _
      have hlen : (av.drop (arguments name av).length).length ≤ fuel := by
        rw [List.length_cons] at hfuel
        rw [List.length_drop]
        omega
      rw [doAll_succ answers (List.dropWhile_cons_of_neg (by simp [hname])), if_neg hact,
        List.drop_succ_cons, ih (fun token h => hsep token (hav token h))
          (fun h => hquit (hav _ h)) hlen, segments, if_neg (by simp [hname])]
      rfl

/-- **When each command is run once.** The loop ends with the commands of the reference, each one
run once and in order, exactly when there is no separator. -/
theorem doAll_once_iff (answers : Nat → Int) (tokens : List CStr) (hquit : .lit "quit" ∉ tokens) :
    RunsOnce answers tokens ↔ ∀ token ∈ tokens, isSep token = false := by
  constructor
  · rintro ⟨fuel, hrun⟩ token hmem
    have hused := doAll_used hrun rfl
    rw [segments_used] at hused
    have hall := List.length_filter_eq_length_iff.1 hused token hmem
    simpa using hall
  · intro hsep
    exact ⟨tokens.length, doAll_segments hsep hquit (Nat.le_refl _) answers⟩

/-- The command `id app` and the command `install` behind it are run once. -/
theorem doAll_once_two : RunsOnce (fun _ => 0) (["id", "app", "install"].map .lit) :=
  (doAll_once_iff (fun _ => 0) (["id", "app", "install"].map .lit) (by decide +kernel)).2
    (by decide +kernel)

/-- In `install ; uninstall` a command is run again. -/
theorem doAll_runs_again : ¬ ∀ (answers : Nat → Int) (tokens : List CStr),
    .lit "quit" ∉ tokens → RunsOnce answers tokens := by
  intro h
  have hquit : .lit "quit" ∉ ["install", ";", "uninstall"].map CStr.lit := by decide +kernel
  have hall := (doAll_once_iff (fun _ => 0) _ hquit).1 (h (fun _ => 0) _ hquit)
  exact absurd hall (by decide +kernel)

/-- That command is `uninstall`. -/
example : doAll false (fun _ => 0) 3 (["install", ";", "uninstall"].map .lit) =
    some ⟨[⟨[.lit "install"], .call .install⟩, ⟨[.lit "uninstall"], .call .uninstall⟩,
      ⟨[.lit "uninstall"], .call .uninstall⟩], none⟩ := by decide +kernel

/-- On separators alone the loop does not end. -/
theorem doAll_separators {tokens : List CStr} (hne : tokens ≠ [])
    (hsep : ∀ token ∈ tokens, isSep token = true) (answers : Nat → Int) (fuel : Nat) :
    doAll false answers fuel tokens = none := by
  obtain ⟨name, av, rfl⟩ := List.exists_cons_of_ne_nil hne
  induction fuel generalizing answers with
  | zero => rfl
  | succ fuel ih =>
    rw [doAll, doAny, List.dropWhile_eq_nil_iff.2 hsep]
    simp [ih]

end SecLsmManager
