import SecLsmManager.Context.PathStd

/-!
# The context of a session

The functions of `context/context.c`, `context/paths.c`, `context/permissions.c` and
`context/plugs.c`. The id is the array of the source, byte by byte: its C string depends on all
that was written in it. The sets are lists, in the order in which the source walks them. What
the file system and the allocator answer during a call is an argument, `Answers`.
-/

namespace SecLsmManager

open Lib

/-! ## What the system answers -/

/-- The result of `stat` or `lstat`: the type of the file and whether it is executable. -/
inductive StatAnswer
  | error (e : Errno)
  | mode (islnk isdir isexec : Bool)

/-- The answers to one call: of `stat` (or `lstat`, when not following) and of the allocator, to
its allocations by rank. -/
structure Answers where
  stat : CStr → Bool → StatAnswer
  alloc : Nat → Bool

def PATH_FILE_DATA : Int := 0
def PATH_FILE_EXEC : Int := 1
def PATH_DIRECTORY : Int := 2
def PATH_LINK : Int := 3

def getPathProperty (answers : Answers) (path : CStr) (follow : Bool) : Int :=
  match answers.stat path follow with
  | .error e =>
    if e.val = ENOENT ∨ e.val = ENOTDIR then -ENOENT
    else if e.val = ENOMEM then -ENOMEM
    else -EACCES
  | .mode islnk isdir isexec =>
    if islnk then PATH_LINK
    else if isdir then PATH_DIRECTORY
    else if isexec then PATH_FILE_EXEC
    else PATH_FILE_DATA

def checkPathExists (answers : Answers) (path : CStr) (follow : Bool) : Int :=
  let rc := getPathProperty answers path follow
  if rc < 0 then rc else 0

def checkDirectoryExists (answers : Answers) (path : CStr) (follow : Bool) : Int :=
  let rc := getPathProperty answers path follow
  if rc < 0 then rc else if rc = PATH_DIRECTORY then 0 else -ENOTDIR

/-! ## Paths -/

/-- `enum path_type`. -/
inductive PathType
  | typeUnset | typeDefault | typeConf | typeData | typeExec | typeHttp | typeIcon | typeId
  | typeLib | typePlug | typePublic
  deriving DecidableEq

def typeStrings : PathType → CStr
  | .typeUnset => .lit "<unset>"
  | .typeDefault => .lit "default"
  | .typeConf => .lit "conf"
  | .typeData => .lit "data"
  | .typeExec => .lit "exec"
  | .typeHttp => .lit "http"
  | .typeIcon => .lit "icon"
  | .typeId => .lit "id"
  | .typeLib => .lit "lib"
  | .typePlug => .lit "plug"
  | .typePublic => .lit "public"

def pathTypeIsValid (pathType : PathType) : Bool := pathType ≠ .typeUnset

/-- The types in the order in which `path_type_get` tries them. -/
def pathTypes : List PathType :=
  [.typePublic, .typePlug, .typeLib, .typeId, .typeIcon, .typeHttp, .typeExec, .typeData,
    .typeConf, .typeDefault]

def pathTypeGet (pathTypeString : CStr) : PathType :=
  (pathTypes.find? fun type => pathTypeString = typeStrings type).getD .typeUnset

/-- `struct path`. -/
structure Path where
  path : CStr
  pathType : PathType
  deriving DecidableEq

def pathSetSearch (pathSet : List Path) (path : CStr) : Option Path :=
  pathSet.find? fun p => path = p.path

def pathSetHas (pathSet : List Path) (path : CStr) : Bool := (pathSetSearch pathSet path).isSome

def pathSetAdd (answers : Answers) (pathSet : List Path) (path : CStr) (pathType : PathType) :
    Int × List Path :=
  if path.length < 1 ∨ path.length ≥ SEC_LSM_MANAGER_MAX_SIZE_PATH then (-EINVAL, pathSet)
  else if ¬ pathTypeIsValid pathType then (-EINVAL, pathSet)
  else if ¬ answers.alloc 0 then (-ENOMEM, pathSet)
  else if ¬ answers.alloc 1 then (-ENOMEM, pathSet)
  else (0, pathSet ++ [⟨path, pathType⟩])

/-! ## Permissions -/

/-- `tolower` in the C locale. -/
def toLower (c : UInt8) : UInt8 := if 65 ≤ c ∧ c ≤ 90 then c + 32 else c

/-- Whether `strcasecmp` finds no difference, in the C locale. -/
def eqCase (a b : CStr) : Bool := a.bytes.map toLower = b.bytes.map toLower

def permissionSetHas (permissionSet : List CStr) (permission : CStr) : Bool :=
  permissionSet.any fun p => eqCase permission p

def permissionSetAdd (answers : Answers) (permissionSet : List CStr) (permission : CStr) :
    Int × List CStr :=
  if permissionSetHas permissionSet permission then (0, permissionSet)
  else if permission.length < SEC_LSM_MANAGER_MIN_SIZE_PERMISSION ∨
      permission.length > SEC_LSM_MANAGER_MAX_SIZE_PERMISSION then (-EINVAL, permissionSet)
  else if ¬ answers.alloc 0 then (-ENOMEM, permissionSet)
  -- the array grows by blocks of 8 items
  else if permissionSet.length % 8 = 0 ∧ ¬ answers.alloc 1 then (-ENOMEM, permissionSet)
  else (0, permissionSet ++ [permission])

/-! ## Plugs -/

/-- `struct plug`. -/
structure Plug where
  expdir : CStr
  impid : CStr
  impdir : CStr
  deriving DecidableEq

def plugsetAdd (answers : Answers) (plugset : List Plug) (expdir impid impdir : CStr) :
    Int × List Plug :=
  if expdir.length < 1 ∨ expdir.length > SEC_LSM_MANAGER_MAX_SIZE_PATH ∨
      impdir.length < 1 ∨ impdir.length > SEC_LSM_MANAGER_MAX_SIZE_PATH ∨
      impid.length < SEC_LSM_MANAGER_MIN_SIZE_ID ∨ impid.length > SEC_LSM_MANAGER_MAX_SIZE_ID then
    (-EINVAL, plugset)
  else if ¬ answers.alloc 0 then (-ENOMEM, plugset)
  else (0, ⟨expdir, impid, impdir⟩ :: plugset)

/-- `search` of `plugs.c`: an argument that is `NULL` is `none`. -/
def plugsetSearch (plugset : List Plug) (expdir impid impdir : Option CStr) : Option Plug :=
  plugset.find? fun plug =>
    expdir.all (· = plug.expdir) && impid.all (· = plug.impid) && impdir.all (· = plug.impdir)

def plugsetHas (plugset : List Plug) (expdir impid impdir : Option CStr) : Bool :=
  (plugsetSearch plugset expdir impid impdir).isSome

/-! ## The context -/

/-- `struct context`, but the interface of the permission manager. The functions that use that
one take it as an argument. -/
structure Context where
  /-- the array `id` of `SEC_LSM_MANAGER_MAX_SIZE_ID + 1` bytes -/
  id : Nat → UInt8
  permissionSet : List CStr
  pathSet : List Path
  plugset : List Plug
  needId : Bool
  errorFlag : Bool

/-- The size of the array `id`. -/
def Context.idSize : Nat := SEC_LSM_MANAGER_MAX_SIZE_ID + 1

/-- The C string at `context->id`, as far as the array goes. -/
def Context.idString (context : Context) : CStr := .ofBytes (cells context.id 0 idSize)

/-- The C string at `context->id` ends in the array. -/
def Context.IdTerminated (context : Context) : Prop := ∃ i < idSize, context.id i = 0

/-- `context_init`, over the allocated bytes `mem` of the array `id`. -/
def contextInit (mem : Nat → UInt8) : Context :=
  { id := fun i => if i < SEC_LSM_MANAGER_MAX_SIZE_ID then 0 else mem i
    permissionSet := [], pathSet := [], plugset := [], needId := false, errorFlag := false }

/-- `context_create`, when the allocation succeeds. -/
def contextCreate (mem : Nat → UInt8) : Context := contextInit mem

def contextClear (context : Context) : Context :=
  { context with
    id := Function.update context.id 0 0
    permissionSet := [], plugset := [], pathSet := [], needId := false, errorFlag := false }

def contextRaiseError (context : Context) : Context := { context with errorFlag := true }

def contextHasError (context : Context) : Bool := context.errorFlag

/-- `isalnum` in the C locale. -/
def isAlnum (c : UInt8) : Bool :=
  (48 ≤ c && c ≤ 57) || (65 ≤ c && c ≤ 90) || (97 ≤ c && c ≤ 122)

/-- A character that `context_is_valid_id` accepts. -/
def isIdChar (car : UInt8) : Bool := isAlnum car || car = 45 || car = 95

/-- The loop of `context_is_valid_id` from `idx` on. -/
def validIdLoop : Nat → List UInt8 → Int
  | idx, [] => if idx < SEC_LSM_MANAGER_MIN_SIZE_ID then -EINVAL else idx
  | idx, car :: id =>
    if idx ≥ SEC_LSM_MANAGER_MAX_SIZE_ID then -EINVAL
    else if ¬ isIdChar car then -EINVAL
    else validIdLoop (idx + 1) id

def contextIsValidId (id : CStr) : Int := validIdLoop 0 id.bytes

/-- The result and the array `id`. -/
def setids (src : CStr) (id : Nat → UInt8) : Int × (Nat → UInt8) :=
  let rc := contextIsValidId src
  if rc ≥ 0 then (0, writeCells id 0 (src.bytes.take rc.toNat)) else (rc, id)

def contextSetId (context : Context) (id : CStr) : Int × Context :=
  if context.errorFlag then (-ENOTRECOVERABLE, context)
  else if context.id 0 ≠ 0 then (-EEXIST, context)
  else
    let (rc, array) := setids id context.id
    let array := if rc < 0 then Function.update array 0 0 else array
    (rc, { context with id := array })

def contextAddPermission (answers : Answers) (context : Context) (permission : CStr) :
    Int × Context :=
  if context.errorFlag then (-ENOTRECOVERABLE, context)
  else if permissionSetHas context.permissionSet permission then (-EEXIST, context)
  else
    let (rc, permissionSet) := permissionSetAdd answers context.permissionSet permission
    let context := { context with permissionSet }
    if rc < 0 then (rc, context) else (0, { context with needId := true })

/-- The size of the buffers for standard paths. -/
def stdSize : Nat := SEC_LSM_MANAGER_MAX_SIZE_PATH + 1

/-- The standard path and the code of the checks of its length and of its start. -/
def stdAbsolute (path : CStr) : Int × CStr :=
  let (pathLen, stdpath) := pathStd (fun _ => 0) stdSize path
  if pathLen ≥ stdSize then (-EINVAL, .ofBytes (cells stdpath 0 stdSize))
  else if pathLen < 1 ∨ stdpath 0 ≠ SLASH then (-EINVAL, .ofBytes (cells stdpath 0 stdSize))
  else (0, .ofBytes (cells stdpath 0 stdSize))

def contextAddPath (answers : Answers) (context : Context) (path type : CStr) : Int × Context :=
  if context.errorFlag then (-ENOTRECOVERABLE, context)
  else
    let pathType := pathTypeGet type
    if ¬ pathTypeIsValid pathType then (-EINVAL, context)
    else
      let (rc, stdpath) := stdAbsolute path
      if rc < 0 then (rc, context)
      else if pathSetHas context.pathSet stdpath then (-EEXIST, context)
      else
        let rc := checkPathExists answers stdpath false
        if rc < 0 then (rc, context)
        else
          let (rc, pathSet) := pathSetAdd answers context.pathSet stdpath pathType
          let context := { context with pathSet }
          if rc < 0 then (rc, context)
          else
            (0, { context with
              needId := if pathType ≠ .typeDefault then true else context.needId })

def contextAddPlug (answers : Answers) (context : Context) (expdir impid impdir : CStr) :
    Int × Context :=
  if context.errorFlag then (-ENOTRECOVERABLE, context)
  else
    let (rc, stdexpdir) := stdAbsolute expdir
    if rc < 0 then (rc, context)
    else
      let (rc, stdimpdir) := stdAbsolute impdir
      if rc < 0 then (rc, context)
      else if plugsetHas context.plugset none none (some stdimpdir) then (-EEXIST, context)
      else
        let rc := contextIsValidId impid
        if rc < 0 then (rc, context)
        else
          let rc := checkDirectoryExists answers stdexpdir true
          if rc < 0 then (rc, context)
          else
            let rc := checkDirectoryExists answers stdimpdir true
            if rc < 0 then (rc, context)
            else
              let (rc, plugset) := plugsetAdd answers context.plugset stdexpdir impid stdimpdir
              let context := { context with plugset }
              if rc < 0 then (rc, context) else (0, { context with needId := true })

def contextHasPermission (context : Context) (permission : CStr) : Bool :=
  permissionSetHas context.permissionSet permission

/-! ## Runs -/

/-- A call to one of the operations, with the answers it gets. -/
inductive ContextOp
  | setId (id : CStr)
  | addPath (answers : Answers) (path type : CStr)
  | addPermission (answers : Answers) (permission : CStr)
  | addPlug (answers : Answers) (expdir impid impdir : CStr)
  | raiseError
  | clear

def Context.step (context : Context) : ContextOp → Int × Context
  | .setId id => contextSetId context id
  | .addPath answers path type => contextAddPath answers context path type
  | .addPermission answers permission => contextAddPermission answers context permission
  | .addPlug answers expdir impid impdir => contextAddPlug answers context expdir impid impdir
  | .raiseError => (0, contextRaiseError context)
  | .clear => (0, contextClear context)

def Context.run (context : Context) (ops : List ContextOp) : Context :=
  ops.foldl (fun c op => (c.step op).2) context

end SecLsmManager
