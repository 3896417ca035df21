import SecLsmManager.Action.Action
import SecLsmManager.Client.Utf8
import SecLsmManager.Protocol.Prot

/-!
# The client side of the server

The functions of `protocol/client.c`, and `on_client_event` of the server. The state is
`struct client` with the part of the world it acts on: the system behind the permission manager
and the security module, the bytes still to be read, the bytes written, and what the file system
and the output channel will answer.
-/

namespace SecLsmManager

variable {σ : Type*}

/-! ## The words of the protocol -/

def wordClear : CStr := .lit "clear"
def wordDisplay : CStr := .lit "display"
def wordDone : CStr := .lit "done"
def wordError : CStr := .lit "error"
def wordId : CStr := .lit "id"
def wordInstall : CStr := .lit "install"
def wordLog : CStr := .lit "log"
def wordOff : CStr := .lit "off"
def wordOn : CStr := .lit "on"
def wordPath : CStr := .lit "path"
def wordPermission : CStr := .lit "permission"
def wordPlug : CStr := .lit "plug"
def wordSecLsmManager : CStr := .lit "sec-lsm-manager"
def wordString : CStr := .lit "string"
def wordUninstall : CStr := .lit "uninstall"

def PROTOCOL_VERSION_1 : Nat := 1
def PROTOCOL_VERSION_1_STRING : CStr := .lit "1"
def DEFAULT_PROTOCOL_VERSION : Nat := PROTOCOL_VERSION_1
def MAX_PUTX_ITEMS : Nat := 15

/-- What a call of `prot_write` gets, and the failure of `poll` when that is `EAGAIN`. -/
structure OutAnswer where
  write : WriteAnswer
  poll : Option Errno

/-- `struct client`, and the part of the world that its functions act on. -/
structure Client (σ : Type*) where
  prot : Prot
  context : Context
  version : Nat
  invalid : Bool
  /-- whether `fdin` is open -/
  connected : Bool
  /-- `sec_lsm_manager_server_log` -/
  serverLog : Bool
  /-- the state behind the permission manager and the security module -/
  system : σ
  /-- the answers to the next requests that need some -/
  answers : Nat → Answers
  /-- the answers to the next writes; everything is accepted after them -/
  writes : List OutAnswer
  /-- the bytes of the peer that are not read yet -/
  input : List UInt8
  /-- the bytes that were written -/
  sent : List UInt8

def EAGAIN_ERRNO : Errno := ⟨EAGAIN, by decide⟩

/-! ## Replies -/

/-- The loop of `ckarg` from the offset on. -/
def ckargLoop : List UInt8 → List UInt8 → Bool
  | [], value => value = []
  | _ :: _, [] => false
  | a :: arg, v :: value => if a = v then ckargLoop arg value else false

def ckarg (arg value : CStr) (offset : Nat) : Bool :=
  ckargLoop (arg.bytes.drop offset) (value.bytes.drop offset)

/-- `prot_write` to `fdout`. -/
def Client.write (client : Client σ) (answer : WriteAnswer) : Int × Client σ :=
  let (rc, prot, bytes) := protWrite client.prot answer
  (rc, { client with prot, sent := client.sent ++ bytes })

/-- The loop of `flushw`, over the answers to the writes. -/
def flushLoop : List OutAnswer → Client σ → Int × Client σ
  | [], client =>
    let client := { client with writes := [] }
    if protShouldWrite client.prot then
      (0, (client.write (.written PROT_MAX_BUFFER_LENGTH)).2)
    else (0, client)
  | answer :: writes, client =>
    if protShouldWrite client.prot then
      let (rc, client) := { client with writes }.write answer.write
      if rc ≥ 0 then flushLoop writes client
      else if rc = -ENODATA then (0, client)
      else if rc ≠ -EAGAIN then (rc, client)
      else
        match answer.poll with
        | none => flushLoop writes client
        | some e => (-e.val, client)
    else (0, { client with writes := answer :: writes })

def flushw (client : Client σ) : Int × Client σ := flushLoop client.writes client

def putx (client : Client σ) (fields : List CStr) : Int × Client σ :=
  if fields.length > MAX_PUTX_ITEMS then (-EINVAL, client)
  else
    let (rc, prot) := protPut client.prot fields
    let client := { client with prot }
    if rc = -ECANCELED then
      let (rc, client) := flushw client
      if rc = 0 then
        let (rc, prot) := protPut client.prot fields
        (rc, { client with prot })
      else (rc, client)
    else (rc, client)

/-- `arg` is `none` for `NULL`. -/
def sendDone (client : Client σ) (arg : Option CStr) : Client σ :=
  (flushw (putx client (wordDone :: arg.toList)).2).2

def sendError (client : Client σ) (errorstr : CStr) : Client σ :=
  let client := { client with context := contextRaiseError client.context }
  (flushw (putx client [wordError, errorstr]).2).2

/-- The records by which `display_visitor_itf` shows the content of a context, in the order of
`context_visit`. -/
def contextVisit (context : Context) : List (List CStr) :=
  (if context.id 0 ≠ 0 then [[wordString, wordId, context.idString]] else []) ++
  context.pathSet.map (fun p => [wordString, wordPath, p.path, typeStrings p.pathType]) ++
  context.permissionSet.map (fun p => [wordString, wordPermission, p]) ++
  context.plugset.map (fun p => [wordString, wordPlug, p.expdir, p.impid, p.impdir])

/-- The visit: `putx` of each record, up to the first code that is not 0. -/
def visitLoop : List (List CStr) → Client σ → Int × Client σ
  | [], client => (0, client)
  | fields :: l, client =>
    let (rc, client) := putx client fields
    if rc = 0 then visitLoop l client else (rc, client)

def sendDisplay (client : Client σ) : Int × Client σ :=
  let (rc, client) :=
    if contextHasError client.context then putx client [wordString, wordError, wordOn]
    else (0, client)
  if rc = 0 then visitLoop (contextVisit client.context) client else (rc, client)

/-! ## Requests -/

def checkUtf8 (args : List CStr) : Bool := args.all isUtf8

def invalidProtocol (client : Client σ) : Client σ :=
  { sendError client (.lit "protocol") with invalid := true }

/-- The texts of the errors of a request, by their `errno` value. -/
abbrev ErrorTexts := List (Int × CStr)

def errtxt (texts : ErrorTexts) (rc : Int) : CStr :=
  ((texts.find? fun e => e.1 = -rc).map Prod.snd).getD (.lit "internal")

def notRecoverable : Int × CStr := (ENOTRECOVERABLE, .lit "not-recoverable")
def invalidText : Int × CStr := (EINVAL, .lit "invalid")
def alreadySet : Int × CStr := (EEXIST, .lit "already-set")
def notFound : Int × CStr := (ENOENT, .lit "not-found")
def noAccess : Int × CStr := (EACCES, .lit "no-access")

def idTexts : ErrorTexts := [notRecoverable, invalidText, alreadySet]
def installTexts : ErrorTexts := [notRecoverable, invalidText, (EPERM, .lit "forbidden")]
def pathTexts : ErrorTexts := [notRecoverable, invalidText, alreadySet, notFound, noAccess]
def permissionTexts : ErrorTexts := [notRecoverable, invalidText, alreadySet]
def plugTexts : ErrorTexts :=
  [notRecoverable, invalidText, alreadySet, notFound, noAccess, (ENOTDIR, .lit "not-dir")]
def uninstallTexts : ErrorTexts := [notRecoverable, invalidText]

/-- The end of a request with the code `rc`. -/
def sendStatus (client : Client σ) (rc : Int) (texts : ErrorTexts) : Client σ :=
  if rc ≥ 0 then sendDone client none else sendError client (errtxt texts rc)

/-- A request takes its answers. -/
def Client.nextAnswers (client : Client σ) : Answers × Client σ :=
  (client.answers 0, { client with answers := fun n => client.answers (n + 1) })

def onClear (client : Client σ) : Client σ :=
  sendDone { client with context := contextClear client.context } none

def onDisplay (client : Client σ) : Client σ :=
  let (rc, client) := sendDisplay client
  if rc ≥ 0 then sendDone client none else sendError client (.lit "internal")

def onId (client : Client σ) (id : CStr) : Client σ :=
  let (rc, context) := contextSetId client.context id
  sendStatus { client with context } rc idTexts

def onInstall (permgr : PermMgr σ) (mac : Mac σ) (client : Client σ) : Client σ :=
  let (rc, system) := actionInstall permgr mac client.context client.system
  sendStatus { client with system } rc installTexts

/-- `setlog` is the argument, if there is one. -/
def onLog (client : Client σ) (setlog : Option CStr) : Client σ :=
  let nextlog :=
    match setlog with
    | none => client.serverLog
    | some arg => ckarg arg wordOn 0
  { sendDone client (some (if nextlog then wordOn else wordOff)) with serverLog := nextlog }

def onPath (client : Client σ) (path type : CStr) : Client σ :=
  let (answers, client) := client.nextAnswers
  let (rc, context) := contextAddPath answers client.context path type
  sendStatus { client with context } rc pathTexts

def onPermission (client : Client σ) (permission : CStr) : Client σ :=
  let (answers, client) := client.nextAnswers
  let (rc, context) := contextAddPermission answers client.context permission
  sendStatus { client with context } rc permissionTexts

def onPlug (client : Client σ) (expdir impid impdir : CStr) : Client σ :=
  let (answers, client) := client.nextAnswers
  let (rc, context) := contextAddPlug answers client.context expdir impid impdir
  sendStatus { client with context } rc plugTexts

def onUninstall (permgr : PermMgr σ) (mac : Mac σ) (client : Client σ) : Client σ :=
  let (rc, system) := actionUninstall permgr mac client.context client.system
  sendStatus { client with system } rc uninstallTexts

/-- The `switch` of `onrequest`, on the first character of the key. -/
def requestSwitch (permgr : PermMgr σ) (mac : Mac σ) (client : Client σ) (key : CStr)
    (args : List CStr) : Client σ :=
  match key.bytes.head? with
  | some 99 => -- 'c'
    match ckarg key wordClear 1, args with
    | true, [] => onClear client
    | _, _ => invalidProtocol client
  | some 100 => -- 'd'
    match ckarg key wordDisplay 1, args with
    | true, [] => onDisplay client
    | _, _ => invalidProtocol client
  | some 105 => -- 'i'
    match ckarg key wordId 1, args with
    | true, [id] => onId client id
    | _, _ =>
      match ckarg key wordInstall 1, args with
      | true, [] => onInstall permgr mac client
      | _, _ => invalidProtocol client
  | some 108 => -- 'l'
    match ckarg key wordLog 1, args with
    | true, [] => onLog client none
    | true, [arg] =>
      if ¬ ckarg arg wordOn 0 ∧ ¬ ckarg arg wordOff 0 then invalidProtocol client
      else onLog client (some arg)
    | _, _ => invalidProtocol client
  | some 112 => -- 'p'
    match ckarg key wordPath 1, args with
    | true, [path, type] => onPath client path type
    | _, _ =>
      match ckarg key wordPermission 1, args with
      | true, [permission] => onPermission client permission
      | _, _ =>
        match ckarg key wordPlug 1, args with
        | true, [expdir, impid, impdir] => onPlug client expdir impid impdir
        | _, _ => invalidProtocol client
  | some 117 => -- 'u'
    match ckarg key wordUninstall 1, args with
    | true, [] => onUninstall permgr mac client
    | _, _ => invalidProtocol client
  | _ => invalidProtocol client

def onrequest (permgr : PermMgr σ) (mac : Mac σ) (client : Client σ) : List CStr → Client σ
  | [] => client
  | key :: args =>
    if ¬ checkUtf8 (key :: args) then invalidProtocol client
    else if client.version = 0 ∧ ckarg key wordSecLsmManager 0 then
      -- the versions are tried from the last one
      match args.reverse.find? fun arg => ckarg arg PROTOCOL_VERSION_1_STRING 0 with
      | none => invalidProtocol client
      | some arg => sendDone { client with version := PROTOCOL_VERSION_1 } (some arg)
    else
      let version := if client.version = 0 then DEFAULT_PROTOCOL_VERSION else client.version
      requestSwitch permgr mac { client with version } key args

/-! ## Processing of the input -/

/-- The loop on the pending requests: its code is positive when the client is invalid, otherwise
the negative code of `prot_get`. Each turn that goes on drops a byte at least. -/
def processPending (permgr : PermMgr σ) (mac : Mac σ) : Nat → Client σ → Int × Client σ
  | 0, client => (-EAGAIN, client)
  | n + 1, client =>
    if client.invalid then (1, client)
    else
      let (rc, prot) := protGet client.prot
      let client := { client with prot }
      if rc < 0 then (rc, client)
      else
        let client := if rc > 0 then onrequest permgr mac client (protArgs prot) else client
        processPending permgr mac n { client with prot := protNext client.prot }

/-- `prot_read` from `fdin`: a read of at most `n + 1` bytes, or `EAGAIN`. -/
def Client.read (client : Client σ) : Option Nat → Int × Client σ
  | none =>
    let (rc, prot) := protRead client.prot (.error EAGAIN_ERRNO)
    (rc, { client with prot })
  | some n =>
    let (rc, prot) := protRead client.prot (.data (client.input.take (n + 1)))
    (rc, { client with prot, input := client.input.drop rc.toNat })

/-- The loop of `client_process_input`. The reads get the given counts of bytes and then
`EAGAIN`; a read at the end of the input gets 0. -/
def clientProcessInput (permgr : PermMgr σ) (mac : Mac σ) : List Nat → Client σ → Int × Client σ
  | cuts, client =>
    let (rc, client) := processPending permgr mac (client.prot.inbuf.count + 1) client
    if rc = -EMSGSIZE then (rc, client)
    else if ¬ client.connected then (-EINVAL, client)
    else if client.invalid then (-EPROTO, client)
    else
      match cuts with
      | [] => client.read none
      | n :: cuts =>
        let (rc, client) := client.read (some n)
        if rc ≤ 0 then (rc, client) else clientProcessInput permgr mac cuts client

/-- A client of the server, until it is destroyed. -/
structure Connection (σ : Type*) where
  client : Client σ
  destroyed : Bool
  /-- the codes of `client_process_input` -/
  codes : List Int

/-- An event on the file descriptor: whether it is `EPOLLHUP`, and what the reads will get. -/
structure Event where
  hup : Bool
  cuts : List Nat

def onClientEvent (permgr : PermMgr σ) (mac : Mac σ) (c : Connection σ) (event : Event) :
    Connection σ :=
  if c.destroyed then c
  else if event.hup then { c with destroyed := true }
  else
    let (rc, client) := clientProcessInput permgr mac event.cuts c.client
    let keep := rc > 0 ∨ rc = -EAGAIN
    { client, destroyed := ¬ keep, codes := c.codes ++ [rc] }

/-- `client_create`. -/
def clientCreate (mem : ProtMem) (idmem : Nat → UInt8) (system : σ) (serverLog : Bool)
    (answers : Nat → Answers) (writes : List OutAnswer) (input : List UInt8) : Client σ :=
  { prot := protReset mem, context := contextCreate idmem, version := 0, invalid := false
    connected := true, serverLog, system, answers, writes, input, sent := [] }

end SecLsmManager
