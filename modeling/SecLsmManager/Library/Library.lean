import SecLsmManager.Client.Client

/-!
# The client library

The functions of `protocol/sec-lsm-manager.c` that a call of the API goes through. A call is a run
of turns: a turn is what the library does with the answer of the system to its last call, up to the
next call that may wait. `Stage` says in which loop the call stands between two turns.
-/

namespace SecLsmManager

/-- `enum connection_state`. -/
inductive ConnectionState
  | disconnected | connected | broken
  deriving DecidableEq

/-- `struct sec_lsm_manager`, with the fields of the copy of the reply. -/
structure Handle where
  prot : Prot
  synclock : Bool
  state : ConnectionState
  reply : List CStr

/-- The calls of the API that send a request. -/
inductive ApiCall
  | setId (id : CStr)
  | addPath (path pathType : CStr)
  | addPlug (expdir impid impdir : CStr)
  | addPermission (permission : CStr)
  | clear
  | install
  | uninstall
  | log (on off : Int)
  | display
  deriving DecidableEq

/-- The fields that a call gives to `sync_process`. -/
def ApiCall.fields : ApiCall → List CStr
  | .setId id => [wordId, id]
  | .addPath path pathType => [wordPath, path, pathType]
  | .addPlug expdir impid impdir => [wordPlug, expdir, impid, impdir]
  | .addPermission permission => [wordPermission, permission]
  | .clear => [wordClear]
  | .install => [wordInstall]
  | .uninstall => [wordUninstall]
  | .log on off =>
    if on ≠ 0 ∨ off ≠ 0 then [wordLog, if off ≠ 0 then wordOff else wordOn] else [wordLog]
  | .display => [wordDisplay]

/-! ## What follows the sending -/

/-- `raw_wait_done_or_error`, on the code of `wait_any_reply`. -/
def rawWaitDoneOrError (reply : List CStr) (rc : Int) : Int :=
  if rc > 0 then
    if reply.head? = some wordDone then rc
    else if reply.head? = some wordError then -EPROTO
    else -ECANCELED
  else rc

def waitDoneOrError (reply : List CStr) (rc : Int) : Int :=
  let rc := rawWaitDoneOrError reply rc
  if rc < 0 then rc else 0

def waitLogReply (reply : List CStr) (rc : Int) : Int :=
  let rc := rawWaitDoneOrError reply rc
  if rc > 0 then if reply.length ≥ 2 ∧ reply[1]? = some wordOn then 1 else 0 else rc

/-- A turn of `wait_display_replies`: `none` when the reply goes to the callback and the next one
is waited for. -/
def waitDisplayReplies (reply : List CStr) (rc : Int) : Option Int :=
  if rc > 2 ∧ reply.head? = some wordString then none
  else if rc > 0 ∧ reply.head? = some wordError then some (-1)
  else some rc

/-- The function `aftersend` of a call, on the code of `wait_reply`. -/
def ApiCall.aftersend : ApiCall → List CStr → Int → Option Int
  | .log _ _, reply, rc => some (waitLogReply reply rc)
  | .display, reply, rc => waitDisplayReplies reply rc
  | _, reply, rc => some (waitDoneOrError reply rc)

/-! ## The turns of a call -/

/-- What a call has done: the fields that it gave to the callback, and the bytes that it has
written and read. -/
structure Trace where
  call : ApiCall
  shown : List (List CStr)
  wrote : List UInt8
  read : List UInt8
  deriving DecidableEq

/-- Where a call stands. -/
inductive Stage
  /-- in `flushw`, called by `send_fields` with the record put or between its two trials -/
  | flush (put : Bool)
  /-- at the head of the loop of `wait_reply` -/
  | next
  /-- before `prot_read` in `wait_reply` -/
  | read
  deriving DecidableEq

/-- What the library is doing. -/
inductive Doing
  | idle
  | runs (trace : Trace) (stage : Stage)
  deriving DecidableEq

/-- What a call of `prot_read` gets, and the failure of `poll` when that is `EAGAIN`. -/
structure InAnswer where
  read : ReadAnswer
  poll : Option Errno

/-- A handle, the call that it is in, and the calls that have returned with their codes. -/
structure Library where
  handle : Handle
  doing : Doing
  returned : List (Trace × Int)

/-- The loop of `send_fields` that fills the fields. -/
def putFieldsLoop : Prot → List CStr → Int × Prot
  | prot, [] => (0, prot)
  | prot, field :: fields =>
    let (rc, prot) := protPutField prot field
    if rc = 0 then putFieldsLoop prot fields else (rc, prot)

/-- A trial of `send_fields`. -/
def sendTrial (prot : Prot) (fields : List CStr) : Int × Prot :=
  let (rc, prot) := putFieldsLoop prot fields
  let (rc, prot) := if rc = 0 then protPutEnd prot else (rc, prot)
  if rc = 0 then (rc, prot) else (rc, protPutCancel prot)

/-- `ensure_opened`, where `opening` is what `connection` gives and `alive` says whether the empty
write on the socket succeeds. -/
def ensureOpened (opening : Int × Handle) (alive : Bool) (handle : Handle) : Int × Handle :=
  match handle.state with
  | .disconnected => opening
  | .connected => if alive then (0, handle) else (-EPIPE, { handle with state := .broken })
  | .broken => (-EPIPE, handle)

namespace Library

/-- The end of `sync_process`. -/
def returns (lib : Library) (trace : Trace) (rc : Int) : Library where
  handle := { lib.handle with synclock := false }
  doing := .idle
  returned := lib.returned ++ [(trace, rc)]

/-- A turn of the loop of `send_fields`. -/
def send (lib : Library) (trace : Trace) (trial : Bool) : Library :=
  let (rc, prot) := sendTrial lib.handle.prot trace.call.fields
  let lib := { lib with handle := { lib.handle with prot } }
  if rc = 0 then { lib with doing := .runs trace (.flush true) }
  else if trial then lib.returns trace rc
  else { lib with doing := .runs trace (.flush false) }

/-- The beginning of `sync_process`. -/
def start (lib : Library) (call : ApiCall) (opening : Int × Handle) (alive : Bool) : Library :=
  let trace : Trace := ⟨call, [], [], []⟩
  if lib.handle.synclock then { lib with returned := lib.returned ++ [(trace, -EBUSY)] }
  else
    let (rc, handle) := ensureOpened opening alive { lib.handle with synclock := true }
    let lib := { lib with handle }
    if rc ≥ 0 then lib.send trace false else lib.returns trace rc

/-- What follows `flushw` in `send_fields` and in `sync_process`. -/
def flushed (lib : Library) (trace : Trace) (put : Bool) (rc : Int) : Library :=
  if put then
    if rc ≥ 0 then { lib with doing := .runs trace .next } else lib.returns trace rc
  else if rc = 0 then lib.send trace true
  else lib.returns trace rc

/-- A turn of the loop of `flushw`, with the bytes that it writes. -/
def flush (lib : Library) (trace : Trace) (put : Bool) (answer : OutAnswer) :
    Library × List UInt8 :=
  if protShouldWrite lib.handle.prot then
    let (rc, prot, bytes) := protWrite lib.handle.prot answer.write
    let lib := { lib with handle := { lib.handle with prot } }
    let trace := { trace with wrote := trace.wrote ++ bytes }
    let rc := if rc = -EAGAIN then answer.poll.elim 0 (- ·.val) else rc
    (if rc < 0 then lib.flushed trace put rc
      else { lib with doing := .runs trace (.flush put) }, bytes)
  else (lib.flushed trace put 0, [])

/-- `aftersend` gets the code of `wait_reply`. -/
def replied (lib : Library) (trace : Trace) (rc : Int) : Library :=
  match trace.call.aftersend lib.handle.reply rc with
  | some rc => lib.returns trace rc
  | none =>
    { lib with
      doing := .runs { trace with shown := trace.shown ++ [lib.handle.reply.tail] } .next }

/-- The label `disconnect` of `wait_reply`. -/
def disconnect (lib : Library) (trace : Trace) : Library :=
  { lib with handle := { lib.handle with state := .broken } }.replied trace (-EPIPE)

/-- A turn of the loop of `wait_reply`, up to `prot_read`. -/
def next (lib : Library) (trace : Trace) : Library :=
  let (rc, prot) := protGet (protNext lib.handle.prot)
  let lib := { lib with handle := { lib.handle with prot } }
  if rc > 0 then
    { lib with handle := { lib.handle with reply := protArgs prot } }.replied trace rc
  else if rc = -EMSGSIZE then lib.disconnect trace
  else if rc < 0 then { lib with doing := .runs trace .read }
  else { lib with doing := .runs trace .next }

/-- A turn of the loop of `wait_reply` on `prot_read`, with the count of bytes that it reads. -/
def read (lib : Library) (trace : Trace) (answer : InAnswer) : Library × Nat :=
  let (rc, prot) := protRead lib.handle.prot answer.read
  let lib := { lib with handle := { lib.handle with prot } }
  let bytes :=
    match answer.read with
    | .data bytes => bytes.take rc.toNat
    | .error _ => []
  let trace := { trace with read := trace.read ++ bytes }
  if rc > 0 then ({ lib with doing := .runs trace .next }, rc.toNat)
  else if rc = 0 then (lib.disconnect trace, 0)
  else
    let rc := if rc = -EAGAIN then answer.poll.elim 0 (- ·.val) else rc
    (if rc < 0 then lib.replied trace rc else { lib with doing := .runs trace .read }, 0)

end Library

end SecLsmManager
