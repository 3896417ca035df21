import SecLsmManager.Policy.System
import SecLsmManager.Templating.Template
import SecLsmManager.Lib.Cells

/-!
# SELinux

The installation of `lsm-selinux/selinux.c`, with `selinux-template.c` and `selinux-compile.c`.
What is outside of them is `SelinuxEnv`: the directories, the templates and their engine, and the
name of the module that a compiled file declares. What the calls answer is `SelinuxAnswers`:
libsemanage may fail and leave any value in `errno`, also 0.
-/

namespace SecLsmManager

open Lib

/-- The part of the system that SELinux acts on: the files of the modules, the modules of the
policy and the attribute `security.selinux` of the other files. -/
structure SelinuxSystem where
  files : Files
  modules : List CStr
  labels : CStr → Option CStr

structure SelinuxEnv where
  /-- `get_selinux_rules_dir` -/
  rulesDir : CStr
  /-- the module that a pp file declares -/
  moduleName : List UInt8 → CStr

/-- The failure of a call to libsemanage, with the value of `errno` after it. -/
abbrev LibFault := Option Nat

/-- What a call of `template_process` finds: the failures of `read_file` and `fopen`, the code of
`fmustach` and what the file then holds, after an `fclose` that may fail. -/
structure TemplateAnswers where
  read : Fault
  opened : Fault
  code : Int
  text : List UInt8
  deriving DecidableEq

/-- What a call of `create_semanage_handle` gets from libsemanage. -/
structure HandleAnswers where
  create : LibFault
  connect : LibFault
  priority : LibFault

/-- How the compile script ends. -/
inductive ExitStatus
  | exited (code : Nat)
  | signaled (status : Nat)

/-- The answers to the calls of an installation; those on the paths are given by their ranks. -/
structure SelinuxAnswers where
  handle : HandleAnswers
  te : TemplateAnswers
  iface : TemplateAnswers
  openFc : Fault
  fputs : Nat → Fault
  /-- what the fc file holds when `fclose` fails -/
  closeFc : Option (List UInt8)
  /-- `remove`, where the generation of the files fails -/
  removeIf' : Fault
  removeTe' : Fault
  vfork : Fault
  /-- the pp file that the script leaves -/
  compiled : Option (List UInt8)
  waitpid : Fault
  status : ExitStatus
  installFile : LibFault
  /-- `errno` when there is no pp file -/
  noFile : Nat
  /-- `semanage_commit`, with its code -/
  commit : Except Nat Nat
  removePp : Fault
  removeTe : Fault
  removeIf : Fault
  removeFc : Fault
  /-- the checks after -/
  statTe : Fault
  statFc : Fault
  statIf : Fault
  checkHandle : HandleAnswers
  moduleList : LibFault
  moduleName : Nat → LibFault
  /-- the labels -/
  lstat : Nat → Answers
  setxattr : Nat → Fault
  /-- what the memory of `_id_` and of the labels that are not set holds -/
  idMem : Nat → UInt8
  labelMem : PathType → CStr

/-! ## Names and labels -/

/-- The loop of `trfid`, on the rest of the id with its NUL: `sizeof idx` is 4. -/
def trfidLoop : List UInt8 → Nat → (Nat → UInt8) → Nat → UInt8
  | [], _, array => array
  | c :: id, idx, array =>
    let array := Function.update array idx (if c = 45 then 95 else c)
    if c ≠ 0 ∧ idx + 1 < 4 then trfidLoop id (idx + 1) array else array

def trfid (mem : Nat → UInt8) (id : CStr) : CStr :=
  let array := trfidLoop (id.bytes ++ [0]) 0 mem
  let array := Function.update array SEC_LSM_MANAGER_MAX_SIZE_ID 0
  .ofBytes (cells array 0 (SEC_LSM_MANAGER_MAX_SIZE_ID + 1))

namespace Selinux

/-- The label that `init_path_type_definitions` gives to a type. -/
def initPathTypeDefinitions (mem : PathType → CStr) (id : CStr) : PathType → CStr
  | .typeConf => label (id ++ .lit "_conf_t")
  | .typeData => label (id ++ .lit "_data_t")
  | .typeExec => label (id ++ .lit "_exec_t")
  | .typeHttp => label (id ++ .lit "_http_t")
  | .typeIcon => label (id ++ .lit "_icon_t")
  | .typeId => label (id ++ .lit "_t")
  | .typeLib => label (id ++ .lit "_lib_t")
  | .typePlug => label (.lit "redpesk_public_t")
  | .typePublic => label (.lit "redpesk_public_t")
  -- not set
  | .typeUnset => mem .typeUnset
  | .typeDefault => mem .typeDefault
where
  label (type : CStr) : CStr :=
    .snprintf SEC_LSM_MANAGER_MAX_SIZE_LABEL (.lit "system_u:object_r:" ++ type)

end Selinux

/-! ## The files of the module -/

def SEMOD_MAX_SIZE_PATH : Nat := SEC_LSM_MANAGER_MAX_SIZE_PATH + SEC_LSM_MANAGER_MAX_SIZE_ID + 6
def SEC_LSM_MANAGER_MAX_SIZE_DIR : Nat := 1024
def SEC_LSM_MANAGER_MAX_SIZE_LINE_MODULE : Nat :=
  SEC_LSM_MANAGER_MAX_SIZE_PATH + SEC_LSM_MANAGER_MAX_SIZE_LABEL + 50

section
variable (env : SelinuxEnv) (answers : SelinuxAnswers) (context : Context)

/-- A path of `init_selinux_module`. -/
def moduleFile (extension : CStr) : CStr :=
  .snprintf SEMOD_MAX_SIZE_PATH ((env.rulesDir.take (SEC_LSM_MANAGER_MAX_SIZE_DIR - 1)) ++
    .lit "/" ++ context.idString ++ .lit "." ++ extension)

def selinuxTeFile : CStr := moduleFile env context (.lit "te")
def selinuxFcFile : CStr := moduleFile env context (.lit "fc")
def selinuxIfFile : CStr := moduleFile env context (.lit "if")
def selinuxPpFile : CStr := moduleFile env context (.lit "pp")

namespace SelinuxSystem

def write (s : SelinuxSystem) (file : CStr) (text : List UInt8) : SelinuxSystem :=
  { s with files := Function.update s.files file (some text) }

/-- `template_process` -/
def templateProcess (answers : TemplateAnswers) (dest : CStr) (s : SelinuxSystem) :
    Int × SelinuxSystem :=
  match answers.read, answers.opened with
  | none, none => (answers.code, s.write dest answers.text)
  | _, _ => (-EINVAL, s)

/-- `remove_file` -/
def removeFile (fault : Fault) (file : CStr) (s : SelinuxSystem) : Int × SelinuxSystem :=
  match fault with
  | some e => (-e.val, s)
  | none =>
    match s.files file with
    | none => (-ENOENT, s)
    | some _ => (0, { s with files := Function.update s.files file none })

end SelinuxSystem

/-- The line of a path. -/
def fcLine (definitions : PathType → CStr) (path : Path) : CStr :=
  .snprintf SEC_LSM_MANAGER_MAX_SIZE_LINE_MODULE (path.path ++ .lit "(/.*)? gen_context(" ++
    definitions path.pathType ++ .lit ",s0)\n")

/-- The loop of `generate_app_module_fc`, on the text of the file. -/
def fcLoop (fputs : Nat → Fault) (definitions : PathType → CStr) :
    Nat → List Path → List UInt8 → Int × List UInt8
  | _, [], text => (0, text)
  | i, path :: paths, text =>
    match fputs i with
    | some e => (-e.val, text)
    | none => fcLoop fputs definitions (i + 1) paths (text ++ (fcLine definitions path).bytes)

/-- The code of `fclose` is not looked at. -/
def generateAppModuleFc (definitions : PathType → CStr) (s : SelinuxSystem) :
    Int × SelinuxSystem :=
  match answers.openFc with
  | some e => (-e.val, s)
  | none =>
    let (rc, text) := fcLoop answers.fputs definitions 0 context.pathSet []
    (rc, s.write (selinuxFcFile env context) (answers.closeFc.getD text))

def generateAppModuleFiles (definitions : PathType → CStr) (s : SelinuxSystem) :
    Int × SelinuxSystem :=
  let (rc, s) := s.templateProcess answers.te (selinuxTeFile env context)
  if rc < 0 then (rc, s)
  else
    let (rc, s) := s.templateProcess answers.iface (selinuxIfFile env context)
    if rc < 0 then (rc, (s.removeFile answers.removeTe' (selinuxTeFile env context)).2)
    else
      let (rc, s) := generateAppModuleFc env answers context definitions s
      if rc < 0 then
        let s := (s.removeFile answers.removeIf' (selinuxIfFile env context)).2
        (rc, (s.removeFile answers.removeTe' (selinuxTeFile env context)).2)
      else (rc, s)

def removeAppModuleFiles (s : SelinuxSystem) : Int × SelinuxSystem :=
  let (rc, s) := s.removeFile answers.removeTe (selinuxTeFile env context)
  if rc < 0 then (rc, s)
  else
    let (rc, s) := s.removeFile answers.removeIf (selinuxIfFile env context)
    if rc < 0 then (rc, s)
    else s.removeFile answers.removeFc (selinuxFcFile env context)

/-! ## The module -/

/-- The code of `create_semanage_handle`. -/
def createSemanageHandle (answers : HandleAnswers) : Int :=
  match answers.create, answers.connect, answers.priority with
  | none, none, none => 0
  | some errno, _, _ => failure (-errno)
  | none, some errno, _ => failure (-errno)
  | none, none, some errno => failure (-errno)
where
  failure (rc : Int) : Int := if rc ≥ 0 then -EINVAL else rc

/-- `launch_compile`: the code of the script is not looked at. -/
def launchCompile (s : SelinuxSystem) : Int × SelinuxSystem :=
  match answers.vfork with
  | some e => (-e.val, s)
  | none =>
    let s :=
      match answers.compiled with
      | none => s
      | some pp => s.write (selinuxPpFile env context) pp
    match answers.waitpid with
    | some e => (-e.val, s)
    | none =>
      match answers.status with
      | .exited _ => (0, s)
      | .signaled status => (status, s)

/-- `install_module`: what libsemanage installs is in the policy when it is committed, and then it
is the first of the modules that `check_module` is given. -/
def installModule (s : SelinuxSystem) : Int × SelinuxSystem :=
  match answers.installFile, s.files (selinuxPpFile env context) with
  | some errno, _ => (-errno, s)
  | none, none => (-answers.noFile, s)
  | none, some pp =>
    match answers.commit with
    | .error errno => (-errno, s)
    | .ok rc => (rc, { s with modules := s.modules.insert (env.moduleName pp) })

def createSelinuxRules (definitions : PathType → CStr) (s : SelinuxSystem) :
    Int × SelinuxSystem :=
  let rc := createSemanageHandle answers.handle
  if rc < 0 then (rc, s)
  else
    let (rc, s) := generateAppModuleFiles env answers context definitions s
    if rc < 0 then (rc, s)
    else
      let (rc, s) := launchCompile env answers context s
      if rc < 0 then (rc, (removeAppModuleFiles env answers context s).2)
      else
        let (rc, s) := installModule env answers context s
        if rc < 0 then
          let s := (s.removeFile answers.removePp (selinuxPpFile env context)).2
          (rc, (removeAppModuleFiles env answers context s).2)
        else (rc, s)

/-! ## The checks after -/

def fileExists (fault : Fault) (file : CStr) (s : SelinuxSystem) : Bool :=
  fault.isNone && (s.files file).isSome

def checkModuleFilesExist (s : SelinuxSystem) : Bool :=
  fileExists answers.statTe (selinuxTeFile env context) s &&
    fileExists answers.statFc (selinuxFcFile env context) s &&
      fileExists answers.statIf (selinuxIfFile env context) s

/-- The loop of `check_module` on the modules of the policy. -/
def checkModuleLoop (moduleName : Nat → LibFault) (id : CStr) : Nat → List CStr → Bool
  | _, [] => false
  | i, name :: modules =>
    match moduleName i with
    | some _ => false
    | none => if name = id then true else checkModuleLoop moduleName id (i + 1) modules

def checkModuleInPolicy (s : SelinuxSystem) : Bool :=
  if createSemanageHandle answers.checkHandle < 0 then false
  else
    match answers.moduleList with
    | some _ => false
    | none => checkModuleLoop answers.moduleName context.idString 0 s.modules

/-! ## Labels -/

def labelFile (i : Nat) (path label : CStr) (s : SelinuxSystem) : Int × SelinuxSystem :=
  if getPathProperty (answers.lstat i) path false < 0 then (-ENOENT, s)
  else
    match answers.setxattr i with
    | some e => (-e.val, s)
    | none => (0, { s with labels := Function.update s.labels path (some label) })

/-- The loop of `selinux_process_paths`. -/
def processPathsLoop (definitions : PathType → CStr) :
    Nat → List Path → SelinuxSystem → Int × SelinuxSystem
  | _, [], s => (0, s)
  | i, path :: paths, s =>
    let label := CStr.snprintf (SEC_LSM_MANAGER_MAX_SIZE_LABEL + 3)
      (definitions path.pathType ++ .lit ":s0")
    let (rc, s) := labelFile answers i path.path label s
    if rc < 0 then (rc, s) else processPathsLoop definitions (i + 1) paths s

def selinuxProcessPaths (definitions : PathType → CStr) (s : SelinuxSystem) :
    Int × SelinuxSystem :=
  processPathsLoop answers definitions 0 context.pathSet s

/-! ## The installation -/

def selinuxInstall (s : SelinuxSystem) : Int × SelinuxSystem :=
  if context.id 0 = 0 then (-EINVAL, s)
  else
    let definitions := Selinux.initPathTypeDefinitions answers.labelMem
      (trfid answers.idMem context.idString)
    let (rc, s) := createSelinuxRules env answers context definitions s
    if rc < 0 then (rc, s)
    else if ¬ checkModuleFilesExist env answers context s then (-ENOENT, s)
    else if ¬ checkModuleInPolicy answers context s then (-ENOENT, s)
    else
      let (rc, s) := selinuxProcessPaths answers context definitions s
      if rc < 0 then (rc, s) else (0, s)

end

end SecLsmManager
