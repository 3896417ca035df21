import SecLsmManager.Action.Action
import SecLsmManager.Policy.System

/-!
# Smack

The functions of `lsm-smack/smack-template.c` and `lsm-smack/smack.c`. What is outside of them is
`SmackEnv`: the files of the system, the template and its engine, and the library of Smack, which
loads rules in the kernel. Which of the calls fail is `Faults`; the functions that are called to
put things back get their own. A call to the library that fails may have loaded or cleared a part
of the rules, and a file that is badly written or closed holds what its answer says.
-/

namespace SecLsmManager

variable {κ ρ : Type*}

def DROP_LABEL : CStr := .lit "User:Home"
def SMACK_EXTENSION : CStr := .lit "smack"
def TRUE_VALUE : CStr := .lit "TRUE"
def PATH_MAX : Nat := 4096

/-- What the functions find outside of the state: `κ` is the rules of the kernel and `ρ` the rules
of a `struct smack_accesses`. -/
structure SmackEnv (κ ρ : Type*) where
  /-- `get_smack_policy_dir` -/
  policyDir : CStr
  /-- `fmustach` on the template: its code and the text it writes -/
  fmustach : Context → Int × List UInt8
  /-- `smack_enabled` -/
  enabled : Bool
  /-- `smack_accesses_add_from_file`, `none` for a text that is no list of rules -/
  accessesAdd : List UInt8 → Option ρ
  /-- `smack_accesses_apply` -/
  accessesApply : ρ → κ → κ
  /-- `smack_accesses_clear` -/
  accessesClear : ρ → κ → κ
  /-- what `smack_accesses_apply` leaves when it fails, in each of the ways it may -/
  accessesApplyPart : Nat → ρ → κ → κ
  /-- what `smack_accesses_clear` leaves when it fails, in each of the ways it may -/
  accessesClearPart : Nat → ρ → κ → κ
  /-- the label that the kernel gives to a new link -/
  linkLabel : Option CStr

/-- The failures of the calls to the system; those on the paths and the plugs of the context are
given by their ranks, and so are the answers of `lstat`, which is called twice for a path that is
to lose its labels. A call to the library that fails does so in a way of its own, and writes that
are lost, with or without an error of the engine, leave a text in the file. -/
structure Faults where
  answers : Nat → Answers
  answersAgain : Nat → Answers
  xattr : Nat → Xattr → Fault
  symlink : Nat → Fault
  linkXattr : Nat → Fault
  unlink : Nat → Fault
  readTemplate : Fault
  openDest : Fault
  writes : Option (Fault × List UInt8)
  openRules : Fault
  accessesNew : Fault
  accessesAdd : Fault
  accessesApply : Option (Errno × Nat)
  accessesClear : Option (Errno × Nat)
  remove : Fault

/-- No call fails, over plain files. -/
def Faults.none : Faults :=
  ⟨fun _ => .plain, fun _ => .plain, fun _ _ => .none, fun _ => .none, fun _ => .none,
    fun _ => .none, .none, .none, .none, .none, .none, .none, .none, .none, .none⟩

/-! ## Definitions of the types of paths -/

/-- `path_type_definitions_t`. -/
structure PathTypeDefinition where
  label : CStr
  isExecutable : Bool
  isTransmute : Bool

/-- The entry of `patterns` for a type, with its `%s` set to `id`. -/
def patterns (id : CStr) : PathType → PathTypeDefinition
  | .typeUnset => ⟨.lit "", false, false⟩
  | .typeDefault => ⟨.lit "", false, false⟩
  | .typeConf => ⟨.lit "App:" ++ id ++ .lit ":Conf", false, false⟩
  | .typeData => ⟨.lit "App:" ++ id ++ .lit ":Data", false, true⟩
  | .typeExec => ⟨.lit "App:" ++ id ++ .lit ":Exec", true, false⟩
  | .typeHttp => ⟨.lit "App:" ++ id ++ .lit ":Http", false, true⟩
  | .typeIcon => ⟨.lit "App:" ++ id ++ .lit ":Icon", false, false⟩
  | .typeId => ⟨.lit "App:" ++ id, false, true⟩
  | .typeLib => ⟨.lit "App:" ++ id ++ .lit ":Lib", false, true⟩
  | .typePlug => ⟨.lit "App:" ++ id ++ .lit ":Plug", false, false⟩
  | .typePublic => ⟨.lit "System:Shared", false, true⟩

def initPathTypeDefinitions (id : CStr) (type : PathType) : PathTypeDefinition :=
  let pattern := patterns id type
  { pattern with label := .snprintf SEC_LSM_MANAGER_MAX_SIZE_LABEL pattern.label }

def smackGetLabel (appid : CStr) : CStr :=
  (CStr.snprintf SEC_LSM_MANAGER_MAX_SIZE_LABEL (.lit "App:" ++ appid)).take
    SEC_LSM_MANAGER_MAX_SIZE_ID

/-! ## Rules -/

/-- The code and the path of the rule file. -/
def getSmackRulePath (env : SmackEnv κ ρ) (id : CStr) : Int × CStr :=
  let path := env.policyDir ++ .lit "/" ++ id ++ .lit "." ++ SMACK_EXTENSION
  if path.length > SEC_LSM_MANAGER_MAX_SIZE_PATH then
    (-ENAMETOOLONG, .snprintf (SEC_LSM_MANAGER_MAX_SIZE_PATH + 1) path)
  else (path.length, .snprintf (SEC_LSM_MANAGER_MAX_SIZE_PATH + 1) path)

/-- The code of `fmustach` and what the destination holds once it is closed. A `fwrite` that fails
stops the engine; a `fputs` or the `fclose` that fails does not show in the code. -/
def rendered (env : SmackEnv κ ρ) (faults : Faults) (context : Context) : Int × List UInt8 :=
  match faults.writes with
  | none => env.fmustach context
  | some (none, text) => ((env.fmustach context).1, text)
  | some (some e, text) => (-e.val, text)

/-- The destination holds what was written also when the engine fails. -/
def templateProcess (env : SmackEnv κ ρ) (faults : Faults) (dest : CStr) (context : Context)
    (s : System κ) : Int × System κ :=
  match faults.readTemplate, faults.openDest with
  | none, none =>
    let (rc, text) := rendered env faults context
    (rc, { s with ruleFiles := Function.update s.ruleFiles dest (some text) })
  | _, _ => (-EINVAL, s)

/-- The opening of a file and the reading of its rules, in `create_smack_rules` and in
`remove_load_rules`. -/
def readAccesses (env : SmackEnv κ ρ) (faults : Faults) (file : CStr) (s : System κ) :
    Except Int ρ :=
  match faults.openRules with
  | some e => .error (-e.val)
  | none =>
    match s.ruleFiles file with
    | none => .error (-ENOENT)
    | some text =>
      match faults.accessesNew with
      | some e => .error (-e.val)
      | none =>
        match faults.accessesAdd with
        | some e => .error (-e.val)
        | none =>
          match env.accessesAdd text with
          | none => .error (-1)
          | some accesses => .ok accesses

def createSmackRules (env : SmackEnv κ ρ) (faults : Faults) (context : Context) (s : System κ) :
    Int × System κ :=
  let (rc, file) := getSmackRulePath env context.idString
  if rc < 0 then (rc, s)
  else
    let (rc, s) := templateProcess env faults file context s
    if rc < 0 then (rc, s)
    else
      match readAccesses env faults file s with
      | .error rc => (rc, (removeFile faults.remove file s).2)
      | .ok accesses =>
        if env.enabled then
          match faults.accessesApply with
          | some (e, n) => (-e.val, (removeFile faults.remove file
              { s with rules := env.accessesApplyPart n accesses s.rules }).2)
          | none => (0, { s with rules := env.accessesApply accesses s.rules })
        else (0, s)

def removeLoadRules (env : SmackEnv κ ρ) (faults : Faults) (file : CStr) (s : System κ) :
    Int × System κ :=
  match readAccesses env faults file s with
  | .error rc => (rc, s)
  | .ok accesses =>
    match faults.accessesClear with
    | some (e, n) => (-e.val, { s with rules := env.accessesClearPart n accesses s.rules })
    | none => (0, { s with rules := env.accessesClear accesses s.rules })

/-- The code of `remove_load_rules` is not kept. -/
def removeSmackRules (env : SmackEnv κ ρ) (faults : Faults) (context : Context) (s : System κ) :
    Int × System κ :=
  let (rc, file) := getSmackRulePath env context.idString
  if rc < 0 then (rc, s)
  else
    let s := if env.enabled then (removeLoadRules env faults file s).2 else s
    removeFile faults.remove file s

/-! ## Labels -/

/-- The labels of a path are removed; the calls fail as `fault` says. -/
def unsetPathLabels (answers : Answers) (fault : Xattr → Fault) (path : CStr) (s : System κ) :
    Int × System κ :=
  let pp := getPathProperty answers path false
  if pp < 0 then (pp, s)
  else
    let (rc, s) := unsetXattr (fault .smack) path .smack s
    let (rc2, s) := unsetXattr (fault .smackexec) path .smackexec s
    let rc := if rc2 < 0 then (if rc < 0 then rc else rc2) else rc
    let (rc2, s) := unsetXattr (fault .smacktransmute) path .smacktransmute s
    let rc := if rc2 < 0 then (if rc < 0 ∨ pp ≠ PATH_DIRECTORY then rc else rc2) else rc
    (rc, s)

/-- The labels of a path are set; the calls fail as `fault` says. -/
def smackSetPathLabels (fault : Xattr → Fault) (path label : CStr) (execlabel : Option CStr)
    (transmute : Bool) (s : System κ) : Int × System κ :=
  let (rc, s) := putXattr (fault .smack) path .smack (some label) s
  let (rc2, s) := putXattr (fault .smackexec) path .smackexec execlabel s
  -- the source looks at `rc` here, so a failure for the exec label alone is not reported
  let rc := if rc < 0 then (if rc < 0 then rc else rc2) else rc
  let (rc2, s) := putXattr (fault .smacktransmute) path .smacktransmute
    (if transmute then some TRUE_VALUE else none) s
  let rc := if rc2 < 0 then (if rc < 0 ∨ ¬ transmute then rc else rc2) else rc
  (rc, s)

/-- The turn of `label_all_paths` for the path of rank `i`. -/
def labelPath (faults : Faults) (id : CStr) (set : Bool) (i : Nat) (path : Path) (s : System κ) :
    Int × System κ :=
  let definition := initPathTypeDefinitions id path.pathType
  let execLabel := (initPathTypeDefinitions id .typeId).label
  let pp := getPathProperty (faults.answers i) path.path false
  if pp < 0 then (pp, s)
  else if ¬ set then unsetPathLabels (faults.answersAgain i) (faults.xattr i) path.path s
  else
    smackSetPathLabels (faults.xattr i) path.path definition.label
      (if pp = PATH_FILE_EXEC ∧ definition.isExecutable then some execLabel else none)
      (pp = PATH_DIRECTORY ∧ definition.isTransmute) s

/-- The loops on the paths, from the rank `i` on: they stop at the first failure. -/
def pathsLoop (turn : Nat → Path → System κ → Int × System κ) :
    Nat → List Path → System κ → Int × System κ
  | _, [], s => (0, s)
  | i, path :: paths, s =>
    let (rc, s) := turn i path s
    if rc < 0 then (rc, s) else pathsLoop turn (i + 1) paths s

def labelAllPaths (faults : Faults) (context : Context) (set : Bool) (s : System κ) :
    Int × System κ :=
  pathsLoop (labelPath faults context.idString set) 0 context.pathSet s

def smackDropPathLabels (faults : Faults) (context : Context) (s : System κ) : Int × System κ :=
  pathsLoop (fun i path => smackSetPathLabels (faults.xattr i) path.path DROP_LABEL none false)
    0 context.pathSet s

/-! ## Plugs -/

/-- The code and the name of the link of a plug. -/
def plugLinkPath (context : Context) (plug : Plug) : Int × CStr :=
  let path := plug.impdir ++ .lit "/" ++ context.idString
  if path.length > PATH_MAX then (-ENAMETOOLONG, .snprintf (PATH_MAX + 1) path)
  else (path.length, .snprintf (PATH_MAX + 1) path)

/-- The turn of `install_smack_plugs` for the plug of rank `i`. -/
def installPlug (env : SmackEnv κ ρ) (faults : Faults) (context : Context) (i : Nat) (plug : Plug)
    (s : System κ) : Int × System κ :=
  let (rc2, buffer) := plugLinkPath context plug
  if rc2 < 0 then (rc2, s)
  else
    let (rc2, s) := symlink (faults.symlink i) env.linkLabel plug.expdir buffer s
    if rc2 < 0 then (rc2, s)
    else setLinkXattr (faults.linkXattr i) buffer (smackGetLabel context.idString) s

/-- The turn of `uninstall_smack_plugs` for the plug of rank `i`. -/
def uninstallPlug (faults : Faults) (context : Context) (i : Nat) (plug : Plug) (s : System κ) :
    Int × System κ :=
  let (rc2, buffer) := plugLinkPath context plug
  if rc2 < 0 then (rc2, s) else unlink (faults.unlink i) buffer s

/-- The loops on the plugs, from the rank `i` on, with their `rc`: they go on after a failure and
keep the first one. -/
def plugsLoop (turn : Nat → Plug → System κ → Int × System κ) :
    Nat → List Plug → Int → System κ → Int × System κ
  | _, [], rc, s => (rc, s)
  | i, plug :: plugs, rc, s =>
    let (rc2, s) := turn i plug s
    plugsLoop turn (i + 1) plugs (if rc2 < 0 ∧ rc = 0 then rc2 else rc) s

def installSmackPlugs (env : SmackEnv κ ρ) (faults : Faults) (context : Context) (s : System κ) :
    Int × System κ :=
  plugsLoop (installPlug env faults context) 0 context.plugset 0 s

def uninstallSmackPlugs (faults : Faults) (context : Context) (s : System κ) : Int × System κ :=
  plugsLoop (uninstallPlug faults context) 0 context.plugset 0 s

/-! ## Installation and removal -/

def forceUninstallSmack (env : SmackEnv κ ρ) (faults : Faults) (context : Context)
    (s : System κ) : Int × System κ :=
  let (rc, s) := smackDropPathLabels faults context s
  if context.id 0 ≠ 0 then
    let (rc2, s) := uninstallSmackPlugs faults context s
    let rc := if rc2 < 0 then rc2 else rc
    let (rc2, s) := removeSmackRules env faults context s
    let rc := if rc2 < 0 then rc2 else rc
    (rc, s)
  else (rc, s)

def installStatus (env : SmackEnv κ ρ) (revert : Faults) (context : Context)
    (r : Int × System κ) : Int × System κ :=
  if r.1 ≥ 0 then r else (r.1, (forceUninstallSmack env revert context r.2).2)

/-- What `install_smack_with_id` does before the check of its status. -/
def installWithId (env : SmackEnv κ ρ) (faults : Faults) (context : Context) (s : System κ) :
    Int × System κ :=
  let (rc, s) := createSmackRules env faults context s
  let (rc, s) := if rc ≥ 0 then installSmackPlugs env faults context s else (rc, s)
  if rc ≥ 0 then labelAllPaths faults context true s else (rc, s)

def installSmackWithId (env : SmackEnv κ ρ) (faults revert : Faults) (context : Context)
    (s : System κ) : Int × System κ :=
  installStatus env revert context (installWithId env faults context s)

/-- What `install_smack_no_id` does before the check of its status. -/
def installNoId (faults : Faults) (context : Context) (s : System κ) : Int × System κ :=
  if context.needId then (-EINVAL, s) else labelAllPaths faults context false s

def installSmackNoId (env : SmackEnv κ ρ) (faults revert : Faults) (context : Context)
    (s : System κ) : Int × System κ :=
  installStatus env revert context (installNoId faults context s)

def smackInstall (env : SmackEnv κ ρ) (faults revert : Faults) (context : Context)
    (s : System κ) : Int × System κ :=
  if context.id 0 ≠ 0 then installSmackWithId env faults revert context s
  else installSmackNoId env faults revert context s

def smackUninstall (env : SmackEnv κ ρ) (faults : Faults) (context : Context) (s : System κ) :
    Int × System κ :=
  if context.id 0 = 0 ∧ context.needId then (-EINVAL, s)
  else forceUninstallSmack env faults context s

/-- The security module of `mac-interface.h`; `revert` is for the calls that put things back. -/
def smackMac (env : SmackEnv κ ρ) (faults revert : Faults) : Mac (System κ) where
  install context s := smackInstall env faults revert context s
  uninstall context s := smackUninstall env faults context s
  getLabel := smackGetLabel

end SecLsmManager
