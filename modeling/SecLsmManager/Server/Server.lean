import SecLsmManager.Client.Client

/-!
# The server

The loop of `protocol/sec-lsm-manager-server.c` over the poll set of `protocol/pollitem.c`. The
poll set maps the descriptors that are registered to what is waited for on them; closing a
descriptor removes it. What the calls of a turn answer is `TurnAnswers`: any call of `epoll_ctl`
may fail, and the clock gives any time.
-/

namespace SecLsmManager

variable {σ : Type*} {n : Nat}

/-! ## The poll set -/

/-- A `pollitem_t`, by the handler and the closure that it has. -/
inductive PollItem (n : Nat)
  | server
  | client (idx : Fin n)
  deriving DecidableEq

/-- A descriptor of the poll set: whether `EPOLLIN` is waited for, and the pollitem. -/
structure Registration (n : Nat) where
  input : Bool
  item : PollItem n
  deriving DecidableEq

abbrev PollSet (n : Nat) := Nat → Option (Registration n)

/-- `pollitem_add`. As the other calls of `epoll_ctl`, it changes nothing when it fails. -/
def pollitemAdd (ok : Bool) (fd : Nat) (reg : Registration n) (poll : PollSet n) :
    Int × PollSet n :=
  if ok && (poll fd).isNone then (0, Function.update poll fd (some reg)) else (-1, poll)

/-- `pollitem_mod` -/
def pollitemMod (ok : Bool) (fd : Nat) (reg : Registration n) (poll : PollSet n) :
    Int × PollSet n :=
  if ok && (poll fd).isSome then (0, Function.update poll fd (some reg)) else (-1, poll)

/-- `pollitem_del` -/
def pollitemDel (ok : Bool) (fd : Nat) (poll : PollSet n) : Int × PollSet n :=
  if ok && (poll fd).isSome then (0, Function.update poll fd none) else (-1, poll)

/-- `close`, for what it does to the poll set. -/
def closeFd (fd : Nat) (poll : PollSet n) : PollSet n := Function.update poll fd none

/-! ## The state -/

/-- `struct client` of the server. `fd` is the descriptor of its pollitem and of its client. -/
structure ServerClient (σ : Type*) where
  client : Option (Client σ)
  fd : Nat
  lasttime : Int

/-- `struct sec_lsm_manager_server`, with the poll set and what its clients share: the system and
`sec_lsm_manager_server_log`. -/
structure Server (σ : Type*) (n : Nat) where
  /-- the descriptor of its pollitem -/
  fd : Nat
  stoprc : Int
  stopped : Bool
  deaf : Bool
  clients : Fin n → ServerClient σ
  poll : PollSet n
  system : σ
  log : Bool

/-- What `epoll_wait` gives: nothing before the end of the time, an interruption, another error,
or an event. -/
inductive Waited
  | timeout
  | interrupted
  | failed
  | event (fd : Nat) (hup input : Bool)

/-- The answers to the calls of a turn. -/
structure TurnAnswers (n : Nat) where
  /-- `time`, for the event and for the end of the turn -/
  now : Int
  later : Int
  /-- what arrived from the peer, and the counts of bytes that the reads get -/
  arrived : List UInt8
  cuts : List Nat
  /-- the answers to the requests and to the writes -/
  answers : Nat → Answers
  writes : List OutAnswer
  /-- `accept` -/
  accept : Option Nat
  /-- `client_create`, when it succeeds with the memory that it gets -/
  create : Option (ProtMem × (Nat → UInt8))
  /-- the success of `epoll_ctl`, by call -/
  add : Bool
  disarm : Bool
  arm : Bool
  delete : Bool
  deletes : Fin n → Bool

namespace Server

def setClient (server : Server σ n) (idx : Fin n) (client : ServerClient σ) : Server σ n :=
  { server with clients := Function.update server.clients idx client }

/-- `sec_lsm_manager_server_stop` -/
def stop (server : Server σ n) (status : Int) : Server σ n :=
  if server.stopped then server else { server with stopped := true, stoprc := status }

/-- `client_disconnect` -/
def clientDisconnect (server : Server σ n) (idx : Fin n) : Server σ n :=
  match (server.clients idx).client with
  | none => server
  | some client =>
    if client.connected then
      { server with poll := closeFd (server.clients idx).fd server.poll }.setClient idx
        { server.clients idx with client := some { client with connected := false } }
    else server

/-- `client_destroy`, and the slot that is free after it. -/
def clientDestroy (server : Server σ n) (idx : Fin n) : Server σ n :=
  (server.clientDisconnect idx).setClient idx { server.clients idx with client := none }

/-- The removal of a client from the poll set, and its end. -/
def drop (server : Server σ n) (ok : Bool) (idx : Fin n) : Server σ n :=
  { server with poll := (pollitemDel ok (server.clients idx).fd server.poll).2 }.clientDestroy idx

/-! ## Events -/

def onClientEvent (permgr : PermMgr σ) (mac : Mac σ) (env : TurnAnswers n) (server : Server σ n)
    (idx : Fin n) (hup : Bool) : Server σ n :=
  let slot := server.clients idx
  match slot.client with
  | none => server
  | some client =>
    if hup then server.drop env.delete idx
    else
      let (rc, client) := clientProcessInput permgr mac env.cuts { client with
        system := server.system
        serverLog := server.log
        answers := env.answers
        writes := env.writes
        input := client.input ++ env.arrived }
      let server := { server with system := client.system, log := client.serverLog }
      let keep := rc > 0 ∨ rc = -EAGAIN
      if keep then server.setClient idx { slot with client := some client, lasttime := env.now }
      else (server.setClient idx { slot with client := some client }).drop env.delete idx

/-- The search of a slot. -/
def freeSlot (server : Server σ n) : Option (Fin n) :=
  (List.finRange n).find? fun idx => (server.clients idx).client.isNone

/-- If full avoid accepting new clients. -/
def disarm (server : Server σ n) (env : TurnAnswers n) : Server σ n :=
  let (rc, poll) := pollitemMod env.disarm server.fd ⟨false, .server⟩ server.poll
  let server := { server with poll }
  { (if rc < 0 then server.stop rc else server) with deaf := true }

/-- A client for a connection that was accepted: its code is negative when there is none. -/
def addClient (env : TurnAnswers n) (server : Server σ n) (idx : Fin n) (fd : Nat) :
    Int × Server σ n :=
  match env.create with
  | none =>
    (-ENOMEM, { server with poll := closeFd fd server.poll }.setClient idx
      { server.clients idx with client := none })
  | some (mem, idmem) =>
    let client := clientCreate mem idmem server.system server.log env.answers env.writes []
    let server := server.setClient idx { client := some client, fd, lasttime := env.now }
    let (rc, poll) := pollitemAdd env.add fd ⟨true, .client idx⟩ server.poll
    let server := { server with poll }
    if rc < 0 then (rc, server.clientDestroy idx) else (0, server)

def onServerEvent (env : TurnAnswers n) (server : Server σ n) (hup input : Bool) : Server σ n :=
  if hup then server.stop (-EPIPE)
  else if ¬ input then server
  else
    match server.freeSlot with
    | none => server.disarm env
    | some idx =>
      match env.accept with
      | none => server
      | some fd =>
        let (rc, server) := server.addClient env idx fd
        if rc < 0 then server
        else if ∃ next, idx < next ∧ (server.clients next).client.isNone then server
        else server.disarm env

/-- `pollitem_wait_dispatch`: its code, and whether `errno` is `EINTR`. -/
def waitDispatch (permgr : PermMgr σ) (mac : Mac σ) (env : TurnAnswers n) (server : Server σ n) :
    Waited → (Int × Bool) × Server σ n
  | .timeout => ((0, false), server)
  | .interrupted => ((-1, true), server)
  | .failed => ((-1, false), server)
  | .event fd hup input =>
    match server.poll fd with
    | none => ((0, false), server)
    | some ⟨_, .server⟩ => ((1, false), server.onServerEvent env hup input)
    | some ⟨_, .client idx⟩ => ((1, false), server.onClientEvent permgr mac env idx hup)

/-! ## Turns -/

/-- The turn of the loop over the clients: the clients of the past are disconnected, and those that
are not connected destroyed. `ncli` counts the others. -/
def sweepClient (env : TurnAnswers n) (trig : Int) (r : Server σ n × Nat) (idx : Fin n) :
    Server σ n × Nat :=
  let (server, ncli) := r
  if (server.clients idx).client.isNone then (server, ncli)
  else
    let server :=
      if (server.clients idx).lasttime ≤ trig then server.clientDisconnect idx else server
    if (server.clients idx).client.any Client.connected then (server, ncli + 1)
    else (server.drop (env.deletes idx) idx, ncli)

def sweep (env : TurnAnswers n) (trig : Int) (server : Server σ n) : Server σ n × Nat :=
  (List.finRange n).foldl (sweepClient env trig) (server, 0)

/-- One turn of the loop of `sec_lsm_manager_server_serve`. -/
def turn (permgr : PermMgr σ) (mac : Mac σ) (shutofftime : Int) (waited : Waited)
    (env : TurnAnswers n) (server : Server σ n) : Server σ n :=
  let ((rc, interrupted), server) := server.waitDispatch permgr mac env waited
  if rc < 0 ∧ ¬ interrupted then server.stop rc
  else
    let trig := if shutofftime < 0 then 0 else env.later - shutofftime
    let (server, ncli) := server.sweep env trig
    if rc = 0 ∧ ncli = 0 ∧ shutofftime ≥ 0 then server.stop 0
    else if server.deaf ∧ ncli < n then
      let (rc, poll) := pollitemMod env.arm server.fd ⟨true, .server⟩ server.poll
      let server := { server with poll }
      if rc < 0 then server.stop rc else server
    else server

/-- A server that was created, when `sec_lsm_manager_server_serve` starts. -/
def create (fd : Nat) (system : σ) (log : Bool) : Server σ n where
  fd := fd
  stoprc := 0
  stopped := false
  deaf := false
  clients := fun _ => { client := none, fd := 0, lasttime := 0 }
  poll := (pollitemAdd true fd ⟨true, .server⟩ fun _ => none).2
  system := system
  log := log

end Server

end SecLsmManager
