import Mathlib.Data.List.FinRange
import SecLsmManager.Client.Refinement
import SecLsmManager.Lib.Shared
import SecLsmManager.Server.Listening

/-!
# The server refines the service

What the server is for, over its whole life: sessions that open with a fresh context and close at
any time, each of which is a manager on the context of its own, and which all act on one system and
one log. A turn of the loop of the server, whatever happens in it, is some steps of the service,
whose sessions open and close when the clients of the server come and go, and hear the bytes that
arrive in the turn and no others.
-/

namespace SecLsmManager

variable {σ : Type*} {n : Nat}

/-! ## The service -/

/-- What a session has for itself; `unread` is what its peer has sent and no record was taken
from. -/
structure Visit where
  standing : Standing
  context : Context
  unread : List UInt8

/-- A manager, split in what its session has and what all of them share. -/
def Manager.split (m : Manager σ) (unread : List UInt8) : Visit × (σ × Bool) :=
  (⟨m.standing, m.context, unread⟩, m.system, m.log)

/-- The peer of a session sends bytes. -/
def Visit.hears (visit : Visit) (bytes : List UInt8) : Visit :=
  { visit with unread := visit.unread ++ bytes }

/-- What a session does with what it has heard, from its beginning on: an empty record is skipped,
or the next record is taken and served. -/
inductive Visit.Acts (permgr : PermMgr σ) (mac : Mac σ) :
    Visit × (σ × Bool) → Visit × (σ × Bool) → Prop
  | skips (m : Manager σ) (rest : List UInt8) :
      Acts permgr mac (m.split (PROT_RECORD_SEPARATOR :: rest)) (m.split rest)
  | takes (m : Manager σ) (shows : Bool) {line : List UInt8} (rest : List UInt8) :
      line ≠ [] → protMarks.Body line →
      Acts permgr mac (m.split (line ++ PROT_RECORD_SEPARATOR :: rest))
        ((m.reply permgr mac shows (report line)).2.split rest)

/-- A session opens with a context that was created and nothing to read. -/
def service (permgr : PermMgr σ) (mac : Mac σ) : Lib.Shared.Rules Visit (σ × Bool) where
  opens visit := ∃ mem, visit = ⟨.fresh, contextCreate mem, []⟩
  acts := Visit.Acts permgr mac

/-- A session of the service opens, hears bytes or closes. -/
abbrev Happening (n : Nat) := Lib.Shared.Observation (Fin n) (List UInt8)

/-- Runs of the service, with all that happens to its sessions. -/
abbrev ServiceRun (permgr : PermMgr σ) (mac : Mac σ) (s : Lib.Shared (Fin n) Visit (σ × Bool)) :
    List (Happening n) → Lib.Shared (Fin n) Visit (σ × Bool) → Prop :=
  Lib.Shared.Observed (service permgr mac) Visit.hears s

/-- What a client received and no record was taken from: it is buffered, or not read yet. -/
def Client.unread (c : Client σ) : List UInt8 :=
  Lib.cells c.prot.inbuf.content 0 c.prot.inbuf.count ++ c.input

/-- What a client is as a session, with what it shares. -/
def Client.split (c : Client σ) : Visit × (σ × Bool) := c.view.split c.unread

/-- What the server is as a service. -/
def Server.shared (server : Server σ n) : Lib.Shared (Fin n) Visit (σ × Bool) where
  sessions idx := (server.clients idx).client.map fun client => client.split.1
  state := (server.system, server.log)

/-! ## A client -/

section
variable {permgr : PermMgr σ} {mac : Mac σ}

/-- What the session of a client does, one act after the other. -/
abbrev Client.Acts (permgr : PermMgr σ) (mac : Mac σ) (c c' : Client σ) : Prop :=
  Relation.ReflTransGen (service permgr mac).acts c.split c'.split

/-- A session skips any number of empty records. -/
theorem Manager.skips (m : Manager σ) (k : Nat) (rest : List UInt8) :
    Relation.ReflTransGen (Visit.Acts permgr mac)
      (m.split (List.replicate k PROT_RECORD_SEPARATOR ++ rest)) (m.split rest) := by
  induction k with
  | zero => exact .refl
  | succ k ih => exact .head (.skips m _) ih

/-- The buffers of a client between two moves. -/
def Client.Live (c : Client σ) : Prop := ∃ q b, OutIdle c.prot q ∧ Pending c.prot b

/-- A move of a client, which takes a record or reads, is some acts of its session: reading is none.
-/
theorem Client.Live.move {c c' : Client σ} (h : c.Live) (hmove : c.Move permgr mac c') :
    c'.Live ∧ c.Acts permgr mac c' := by
  obtain ⟨q, b, hidle, hpend⟩ := h
  have hunread : c.unread = b ++ c.input := by rw [Client.unread, hpend.bytes]
  cases hmove with
  | take hvalid =>
    obtain ⟨k, b', rfl, -, hp, hidle', hview, hinput, -⟩ |
        ⟨k, line, b', shows, q', rfl, hline, hbody, hp, hidle', hinput, -, -, hview, -⟩ :=
      Client.take_manages permgr mac hidle hpend hvalid
    · refine ⟨⟨q, b', hidle', hp⟩, ?_⟩
      rw [Client.Acts, Client.split, Client.split, hunread, Client.unread, hp.bytes, hview, hinput,
        List.append_assoc]
      exact c.view.skips k _
    · refine ⟨⟨q', b', hidle', hp⟩, ?_⟩
      rw [Client.Acts, Client.split, Client.split, hunread, Client.unread, hp.bytes, hview, hinput,
        List.append_assoc, List.append_assoc, List.cons_append]
      exact (c.view.skips k _).tail (.takes c.view shows _ hline hbody)
  | read cut =>
    cases cut with
    | none =>
      have heq : (c.read none).2 = c := by simp only [Client.read, protRead_error]
      rw [heq]
      exact ⟨⟨q, b, hidle, hpend⟩, .refl⟩
    | some n =>
      obtain ⟨x, hx, hp, -, -⟩ := hpend.readInput c.input n
      have hout := protRead_sameOutput c.prot (.data (c.input.take (n + 1)))
      have hsame : (c.read (some n)).2.split = c.split := by
        have hbytes : (c.read (some n)).2.unread = b ++ x ++ (c.read (some n)).2.input :=
          congrArg (· ++ _) hp.bytes
        have hinput : x ++ (c.read (some n)).2.input = c.input := hx
        rw [Client.split, Client.split, hbytes, hunread, List.append_assoc, hinput]
        rfl
      refine ⟨⟨q, b ++ x, hidle.congr hout, hp⟩, ?_⟩
      rw [Client.Acts, hsame]

/-- So are all moves of a turn. -/
theorem Client.Live.moves {c c' : Client σ} (h : c.Live) (hmoves : c.Moves permgr mac c') :
    c'.Live ∧ c.Acts permgr mac c' := by
  induction hmoves with
  | refl => exact ⟨h, .refl⟩
  | tail _ hmove ih =>
    obtain ⟨hlive, hacts⟩ := ih
    obtain ⟨hlive', hacts'⟩ := hlive.move hmove
    exact ⟨hlive', hacts.trans hacts'⟩

/-- The buffers of a new client are empty and in order. -/
theorem clientCreate_live (mem : ProtMem) (idmem : Nat → UInt8) (system : σ) (serverLog : Bool)
    (answers : Nat → Answers) (writes : List OutAnswer) (input : List UInt8) :
    (clientCreate mem idmem system serverLog answers writes input).Live :=
  ⟨[], [], outIdle_protReset mem, pending_protReset mem⟩

end

namespace Server

/-! ## The parts of a turn -/

variable (permgr : PermMgr σ) (mac : Mac σ)

/-- Every client has its buffers in order. -/
def Live (server : Server σ n) : Prop :=
  ∀ idx client, (server.clients idx).client = some client → client.Live

/-- The sessions that opened or closed from `server` to `server'`. -/
def changes (server server' : Server σ n) : List (Happening n) :=
  Lib.Shared.changes (List.finRange n) server.shared server'.shared

/-- From `server` to `server'` the service makes some steps, in which `seen` happens, and the
clients stay in order. -/
structure Serves (server : Server σ n) (seen : List (Happening n))
    (server' : Server σ n) : Prop where
  live : server'.Live
  run : ServiceRun permgr mac server.shared seen server'.shared

variable {permgr mac} {server server' server'' : Server σ n} {seen : List (Happening n)}

/-- To do nothing is no step of the service. -/
theorem Serves.refl (h : server.Live) : server.Serves permgr mac [] server := ⟨h, .refl⟩

/-- What happens in two parts of a turn happens in turn. -/
theorem Serves.trans {seen' : List (Happening n)}
    (h : server.Serves permgr mac seen server')
    (h' : server'.Serves permgr mac seen' server'') :
    server.Serves permgr mac (seen ++ seen') server'' :=
  ⟨h'.live, h.run.trans h'.run⟩

/-- What the service does not see may follow. -/
theorem Serves.congr (h : server.Serves permgr mac seen server') (hlive : server''.Live)
    (hshared : server''.shared = server'.shared) : server.Serves permgr mac seen server'' :=
  ⟨hlive, hshared ▸ h.run⟩

/-- The service does not see that the loop stops. -/
theorem shared_stop (server : Server σ n) (status : Int) :
    (server.stop status).shared = server.shared := by
  rw [Server.stop]
  split <;> rfl

/-- Nor does any client. -/
theorem Live.stop (h : server.Live) (status : Int) : (server.stop status).Live := by
  rw [Server.stop]
  split
  · exact h
  · exact h

/-- A slot that is set is the session of its client that is set, or none. -/
theorem shared_setClient (server : Server σ n) (idx : Fin n) (slot : ServerClient σ) :
    (server.setClient idx slot).shared = server.shared.set idx
      (slot.client.map fun client => client.split.1) server.shared.state := by
  refine Lib.Shared.ext (funext fun j => ?_) rfl
  simp only [shared, setClient, Lib.Shared.set, Function.update_apply]
  split <;> rfl

/-- A slot may be set to a client with its buffers in order. -/
theorem Live.setClient (h : server.Live) (idx : Fin n) {slot : ServerClient σ}
    (hslot : ∀ client, slot.client = some client → client.Live) :
    (server.setClient idx slot).Live := by
  intro j client hj
  simp only [Server.setClient, Function.update_apply] at hj
  split at hj
  · exact hslot client hj
  · exact h j client hj

/-- A slot may be set free. -/
theorem Live.setFree (h : server.Live) (idx : Fin n) (fd : Nat) (lasttime : Int) :
    (server.setClient idx ⟨none, fd, lasttime⟩).Live := by
  refine h.setClient idx fun client hc => ?_
  cases hc

/-- The session of a client. -/
theorem shared_session {idx : Fin n} {client : Client σ}
    (h : (server.clients idx).client = some client) :
    server.shared.sessions idx = some client.split.1 := by
  simp only [shared, h, Option.map_some]

/-- A client that is disconnected is still the same session. -/
theorem shared_disconnect (server : Server σ n) (idx : Fin n) :
    (server.clientDisconnect idx).shared = server.shared := by
  rw [Server.clientDisconnect]
  split
  · rfl
  rename_i client hclient
  split
  · have hsame := shared_session hclient
    rw [shared_setClient]
    exact Lib.Shared.set_self hsame
  · rfl

/-- Its buffers are still in order. -/
theorem Live.disconnect (h : server.Live) (idx : Fin n) : (server.clientDisconnect idx).Live := by
  rw [Server.clientDisconnect]
  split
  · exact h
  rename_i client hclient
  split
  · refine Live.setClient h idx fun client' hc => ?_
    cases hc
    exact h idx client hclient
  · exact h

/-- The session of a client that is dropped is gone. -/
theorem shared_drop (server : Server σ n) (ok : Bool) (idx : Fin n) :
    (server.drop ok idx).shared = server.shared.set idx none server.shared.state := by
  rw [Server.drop, Server.clientDestroy, shared_setClient, shared_disconnect]
  rfl

/-- A client that is dropped is a session that closes. -/
theorem Serves.drop (h : server.Serves permgr mac seen server') (ok : Bool) (idx : Fin n) :
    server.Serves permgr mac
      (seen ++ Lib.Shared.changeAt server'.shared (server'.drop ok idx).shared idx)
      (server'.drop ok idx) := by
  have hpoll : ({ server' with poll := (pollitemDel ok (server'.clients idx).fd
      server'.poll).2 } : Server σ n).Live := h.live
  refine ⟨(hpoll.disconnect idx).setFree idx _ _, ?_⟩
  rw [shared_drop]
  exact h.run.trans (.close _ _)

/-- The client of an event at its turn, with what has arrived. -/
def attended (server : Server σ n) (env : TurnAnswers n) (client : Client σ) : Client σ :=
  { client with
    system := server.system
    serverLog := server.log
    answers := env.answers
    writes := env.writes
    input := client.input ++ env.arrived }

/-- What a client hears in an event. -/
def heard (server : Server σ n) (env : TurnAnswers n) (idx : Fin n) (hup : Bool) :
    List (Happening n) :=
  if hup ∨ (server.clients idx).client.isNone then [] else [.gets idx env.arrived]

/-- What is set in one slot is all that changes. -/
theorem changes_set {idx : Fin n} {x : Option Visit} {b : σ × Bool}
    (h : server'.shared = server.shared.set idx x b) :
    server.changes server' = Lib.Shared.changeAt server.shared server'.shared idx := by
  refine Lib.Shared.changes_one (List.nodup_finRange n) (List.mem_finRange idx) fun j hj => ?_
  rw [h, Lib.Shared.set_others _ hj]

/-- What the service does not see changes nothing. -/
theorem changes_congr (h : server''.shared = server'.shared) :
    server.changes server'' = server.changes server' := by
  rw [changes, changes, h]

/-- Where the service is the same, nothing happened. -/
theorem changes_same (h : server'.shared = server.shared) : server.changes server' = [] :=
  List.flatMap_eq_nil_iff.2 fun idx _ =>
    Lib.Shared.changeAt_same (congrArg (fun s => s.sessions idx) h)

/-- What the service does not see is no step of it. -/
theorem Serves.of_same (hlive : server'.Live) (h : server'.shared = server.shared) :
    server.Serves permgr mac (server.changes server') server' := by
  rw [changes_same h]
  exact ⟨hlive, h ▸ .refl⟩

/-- The session of a client that is attended hears the bytes that arrived, and then acts. -/
theorem Serves.processes (h : server.Live) (env : TurnAnswers n) {idx : Fin n} {client : Client σ}
    (hclient : (server.clients idx).client = some client) {r : Int × Client σ}
    (hr : clientProcessInput permgr mac env.cuts (server.attended env client) = r)
    (lasttime : Int) :
    server.Serves permgr mac [.gets idx env.arrived]
      ({ server with system := r.2.system, log := r.2.serverLog }.setClient idx
        ⟨some r.2, (server.clients idx).fd, lasttime⟩) := by
  have hlive : (server.attended env client).Live := h idx client hclient
  obtain ⟨hlive', hacts⟩ := hlive.moves (hr ▸ clientProcessInput_moves permgr mac env.cuts _)
  have hhears : (server.attended env client).split =
      (client.split.1.hears env.arrived, server.shared.state) := by
    have hunread : (server.attended env client).unread = client.unread ++ env.arrived :=
      (List.append_assoc _ _ _).symm
    rw [Client.split, hunread]
    rfl
  rw [Client.Acts, hhears] at hacts
  refine ⟨Live.setClient h idx fun client' hc => ?_, ?_⟩
  · cases hc
    exact hlive'
  · have hgets : ServiceRun permgr mac server.shared [.gets idx env.arrived] _ :=
      .gets env.arrived .refl (shared_session hclient)
    have hrun := hgets.trans (.actions (Lib.Shared.set_same _ _ _ _) hacts)
    rw [Lib.Shared.set_set] at hrun
    rw [shared_setClient]
    exact hrun

/-- **An event of a client**: its session hears the bytes that arrived and takes lines, and may
close. -/
theorem Serves.onClientEvent (h : server.Live) (env : TurnAnswers n) (idx : Fin n) (hup : Bool) :
    server.Serves permgr mac (server.heard env idx hup ++
      server.changes (server.onClientEvent permgr mac env idx hup))
      (server.onClientEvent permgr mac env idx hup) := by
  rw [Server.onClientEvent, heard]
  dsimp only
  cases hclient : (server.clients idx).client with
  | none =>
    rw [if_pos (.inr rfl)]
    exact .of_same h rfl
  | some client =>
  cases hup with
  | true =>
    simp only [if_true, true_or]
    rw [changes_set (shared_drop server env.delete idx)]
    exact (Serves.refl h).drop env.delete idx
  | false =>
  simp only [Bool.false_eq_true, Option.isNone_some, or_self, if_false]
  rw [← attended]
  generalize hr : clientProcessInput permgr mac env.cuts (server.attended env client) = r
  have hserves := Serves.processes h env hclient hr
  have hsession := shared_session hclient
  have hshared : ∀ lasttime, ({ server with system := r.2.system, log := r.2.serverLog }.setClient
      idx ⟨some r.2, (server.clients idx).fd, lasttime⟩).shared =
      server.shared.set idx (some r.2.split.1) (r.2.system, r.2.serverLog) :=
    fun lasttime => shared_setClient _ _ _
  split
  · rw [changes_set (hshared _), Lib.Shared.changeAt, hshared, Lib.Shared.set_same, hsession]
    exact hserves env.now
  · have hdrop := shared_drop ({ server with
      system := r.2.system, log := r.2.serverLog }.setClient idx
        ⟨some r.2, (server.clients idx).fd, (server.clients idx).lasttime⟩) env.delete idx
    have hdropped := (hserves (server.clients idx).lasttime).drop env.delete idx
    rw [hshared, Lib.Shared.set_set] at hdrop
    rw [changes_set hdrop, Lib.Shared.changeAt, hdrop, Lib.Shared.set_same, hsession]
    rw [Lib.Shared.changeAt, hdrop, hshared, Lib.Shared.set_same, Lib.Shared.set_same] at hdropped
    exact hdropped

/-- No session is open in a free slot. -/
theorem shared_free {idx : Fin n} (h : server.freeSlot = some idx) :
    server.shared.sessions idx = none := by
  have hfree : (server.clients idx).client = none := not_not.1 (freeSlot_some h)
  simp only [shared, hfree, Option.map_none]

/-- **A connection**: a session opens, or nothing happens. -/
theorem Serves.addClient (h : server.Live) (env : TurnAnswers n) {idx : Fin n}
    (hfree : server.shared.sessions idx = none) (fd : Nat) :
    server.Serves permgr mac (server.changes (server.addClient env idx fd).2)
      (server.addClient env idx fd).2 := by
  rw [Server.addClient]
  cases hcreate : env.create with
  | none =>
    refine .of_same (Live.setFree h idx _ _) ?_
    rw [shared_setClient]
    exact Lib.Shared.set_self hfree
  | some memory =>
  obtain ⟨mem, idmem⟩ := memory
  dsimp only
  generalize hclient : clientCreate mem idmem server.system server.log env.answers env.writes []
    = client
  have hlive : client.Live := hclient ▸ clientCreate_live _ _ _ _ _ _ _
  generalize hadded : ({ server.setClient idx ⟨some client, fd, env.now⟩ with
      poll := (pollitemAdd env.add fd ⟨true, .client idx⟩
        (server.setClient idx ⟨some client, fd, env.now⟩).poll).2 } : Server σ n) = added
  have hlive' : added.Live := by
    subst hadded
    refine Live.setClient h idx fun client' hc => ?_
    cases hc
    exact hlive
  have hshared : added.shared = server.shared.set idx (some client.split.1) server.shared.state :=
    hadded ▸ shared_setClient _ _ _
  split
  -- a client that is not registered is gone again
  · refine .of_same ((hlive'.disconnect idx).setFree idx _ _) ?_
    rw [clientDestroy, shared_setClient, shared_disconnect, hshared, Lib.Shared.set_set]
    exact Lib.Shared.set_self hfree
  · refine ⟨hlive', ?_⟩
    rw [changes_set hshared, Lib.Shared.changeAt, hshared, hfree, Lib.Shared.set_same]
    refine .opens .refl hfree ⟨idmem, ?_⟩
    subst hclient
    rfl

/-- The service does not see that the listening socket is disarmed. -/
theorem shared_disarm (server : Server σ n) (env : TurnAnswers n) :
    (server.disarm env).shared = server.shared := by
  rw [Server.disarm]
  dsimp only
  split
  · exact shared_stop { server with poll := _ } _
  · rfl

/-- Nor does any client. -/
theorem Live.disarm (h : server.Live) (env : TurnAnswers n) : (server.disarm env).Live := by
  rw [Server.disarm]
  dsimp only
  split
  · rw [Server.stop]
    split
    · exact h
    · exact h
  · exact h

/-- An event on the listening socket opens a session at most. -/
theorem Serves.onServerEvent (h : server.Live) (env : TurnAnswers n) (hup input : Bool) :
    server.Serves permgr mac (server.changes (server.onServerEvent env hup input))
      (server.onServerEvent env hup input) := by
  rw [Server.onServerEvent]
  split
  · exact .of_same (h.stop _) (shared_stop _ _)
  split
  · exact .of_same h rfl
  split
  · exact .of_same (h.disarm env) (shared_disarm _ _)
  rename_i idx hslot
  split
  · exact .of_same h rfl
  rename_i fd haccept
  have hadd : server.Serves permgr mac (server.changes (server.addClient env idx fd).2)
      (server.addClient env idx fd).2 := .addClient h env (shared_free hslot) fd
  dsimp only
  split
  · exact hadd
  split
  · exact hadd
  · rw [changes_congr (shared_disarm _ _)]
    exact hadd.congr (hadd.live.disarm env) (shared_disarm _ _)

/-- What the clients hear in a turn: what arrived from the peer whose event it is. -/
def arrivals (server : Server σ n) (waited : Waited) (env : TurnAnswers n) :
    List (Happening n) :=
  match waited with
  | .event fd hup _ =>
    match server.poll fd with
    | some ⟨_, .client idx⟩ => server.heard env idx hup
    | _ => []
  | _ => []

/-- What the wait gave is dispatched: only the client of the event hears what has arrived. -/
theorem Serves.waitDispatch (permgr : PermMgr σ) (mac : Mac σ) (h : server.Live)
    (env : TurnAnswers n) (waited : Waited) :
    server.Serves permgr mac (server.arrivals waited env ++
      server.changes (server.waitDispatch permgr mac env waited).2)
      (server.waitDispatch permgr mac env waited).2 := by
  cases waited with
  | timeout | interrupted | failed => exact .of_same h rfl
  | event fd hup input =>
    rw [Server.waitDispatch, arrivals]
    cases hpoll : server.poll fd with
    | none => exact .of_same h rfl
    | some registration =>
      obtain ⟨_, item⟩ := registration
      cases item with
      | server => exact .onServerEvent h env hup input
      | client idx => exact .onClientEvent h env idx hup

/-- The turn of the sweep on a client closes its session at most. -/
theorem Serves.sweepClient (permgr : PermMgr σ) (mac : Mac σ) (h : server.Live)
    (env : TurnAnswers n) (trig : Int) (ncli : Nat) (idx : Fin n) :
    server.Serves permgr mac
      (Lib.Shared.changeAt server.shared
        (Server.sweepClient env trig (server, ncli) idx).1.shared idx)
      (Server.sweepClient env trig (server, ncli) idx).1 ∧
      ∀ j, j ≠ idx → (Server.sweepClient env trig (server, ncli) idx).1.shared.sessions j =
        server.shared.sessions j := by
  have hsame : ∀ {server' : Server σ n}, server'.Live → server'.shared = server.shared →
      server.Serves permgr mac (Lib.Shared.changeAt server.shared server'.shared idx) server' ∧
        ∀ j, j ≠ idx → server'.shared.sessions j = server.shared.sessions j := by
    intro server' hlive hshared
    rw [hshared, Lib.Shared.changeAt_same rfl]
    exact ⟨⟨hlive, hshared ▸ .refl⟩, fun _ _ => rfl⟩
  rw [Server.sweepClient]
  dsimp only
  split
  · exact hsame h rfl
  generalize hswept : (if (server.clients idx).lasttime ≤ trig then
    server.clientDisconnect idx else server) = swept
  have hlive : swept.Live := by
    subst hswept
    split
    · exact h.disconnect idx
    · exact h
  have hshared : swept.shared = server.shared := by
    subst hswept
    split
    · exact shared_disconnect _ _
    · rfl
  split
  · exact hsame hlive hshared
  · have hrefl : swept.Serves permgr mac [] swept := .refl hlive
    have hdrop := hrefl.drop (env.deletes idx) idx
    have hgone := shared_drop swept (env.deletes idx) idx
    rw [hshared] at hdrop hgone
    refine ⟨⟨hdrop.live, hshared ▸ hdrop.run⟩, fun j hj => ?_⟩
    rw [hgone, Lib.Shared.set_others _ hj]

/-- The sweep closes sessions. -/
theorem Serves.sweep (permgr : PermMgr σ) (mac : Mac σ) (h : server.Live) (env : TurnAnswers n)
    (trig : Int) :
    server.Serves permgr mac (server.changes (server.sweep env trig).1)
      (server.sweep env trig).1 := by
  suffices hloop : ∀ (idxs : List (Fin n)), idxs.Nodup → ∀ (server : Server σ n) (ncli : Nat),
      server.Live →
      let swept := (idxs.foldl (Server.sweepClient env trig) (server, ncli)).1
      server.Serves permgr mac (Lib.Shared.changes idxs server.shared swept.shared) swept ∧
        ∀ j, j ∉ idxs → swept.shared.sessions j = server.shared.sessions j from
    (hloop _ (List.nodup_finRange n) server 0 h).1
  intro idxs
  induction idxs with
  | nil => exact fun _ server ncli h => ⟨.refl h, fun _ _ => rfl⟩
  | cons idx idxs ih =>
    intro hnodup server ncli h
    obtain ⟨hidx, hnodup⟩ := List.nodup_cons.1 hnodup
    obtain ⟨hone, hfirst⟩ := Serves.sweepClient permgr mac h env trig ncli idx
    rw [List.foldl_cons]
    generalize Server.sweepClient env trig (server, ncli) idx = one at hone hfirst ⊢
    obtain ⟨hrest, hothers⟩ := ih hnodup one.1 one.2 hone.live
    dsimp only
    refine ⟨?_, fun j hj => ?_⟩
    · rw [Lib.Shared.changes_cons hidx hfirst hothers]
      exact hone.trans hrest
    · rw [List.mem_cons, not_or] at hj
      exact (hothers j hj.2).trans (hfirst j hj.1)

/-- What happens in a turn: bytes arrive from the peer whose event it is, and sessions open and
close as the clients come and go in the event and in the sweep that follows. -/
def happens (permgr : PermMgr σ) (mac : Mac σ) (shutofftime : Int) (waited : Waited)
    (env : TurnAnswers n) (server : Server σ n) : List (Happening n) :=
  let dispatched := (server.waitDispatch permgr mac env waited).2
  server.arrivals waited env ++ server.changes dispatched ++
    dispatched.changes (server.turn permgr mac shutofftime waited env)

/-- **A turn of the loop** is some steps of the service, in which happens what happens in it. -/
theorem Serves.turn (permgr : PermMgr σ) (mac : Mac σ) (h : server.Live) (shutofftime : Int)
    (waited : Waited) (env : TurnAnswers n) :
    server.Serves permgr mac (server.happens permgr mac shutofftime waited env)
      (server.turn permgr mac shutofftime waited env) := by
  have hwait := Serves.waitDispatch permgr mac h env waited
  refine hwait.trans ?_
  have hlive := hwait.live
  rw [Server.turn]
  generalize server.waitDispatch permgr mac env waited = r at hlive ⊢
  dsimp only
  split
  · exact .of_same (hlive.stop _) (shared_stop _ _)
  have hsweep := Serves.sweep permgr mac hlive env
    (if shutofftime < 0 then 0 else env.later - shutofftime)
  generalize r.2.sweep env (if shutofftime < 0 then 0 else env.later - shutofftime) = r'
    at hsweep ⊢
  have hstop : ∀ (server' : Server σ n) status, server'.Live → server'.shared = r'.1.shared →
      r.2.Serves permgr mac (r.2.changes (server'.stop status)) (server'.stop status) := by
    intro server' status hlive' hshared
    rw [changes_congr ((shared_stop _ _).trans hshared)]
    exact hsweep.congr (hlive'.stop _) ((shared_stop _ _).trans hshared)
  split
  · exact hstop _ _ hsweep.live rfl
  split
  · split
    · exact hstop _ _ hsweep.live rfl
    · exact ⟨hsweep.live, hsweep.run⟩
  · exact hsweep

/-! ## Main result -/

/-- Turns of the loop, with any events and any answers to the calls. -/
abbrev Turns (permgr : PermMgr σ) (mac : Mac σ) (shutofftime : Int) :
    Server σ n → Server σ n → Prop :=
  Relation.ReflTransGen fun server server' => ∃ waited env,
    server' = server.turn permgr mac shutofftime waited env

/-- The turns of a run, with their events and the answers to their calls. -/
def run (permgr : PermMgr σ) (mac : Mac σ) (shutofftime : Int)
    (turns : List (Waited × TurnAnswers n)) (server : Server σ n) : Server σ n :=
  turns.foldl (fun server turn => server.turn permgr mac shutofftime turn.1 turn.2) server

/-- What happens in the turns of a run. -/
def happened (permgr : PermMgr σ) (mac : Mac σ) (shutofftime : Int) :
    List (Waited × TurnAnswers n) → Server σ n → List (Happening n)
  | [], _ => []
  | (waited, env) :: turns, server => server.happens permgr mac shutofftime waited env ++
      happened permgr mac shutofftime turns (server.turn permgr mac shutofftime waited env)

/-- The turns of a run, by induction on them. -/
theorem Serves.turns (permgr : PermMgr σ) (mac : Mac σ) (h : server.Live) (shutofftime : Int)
    (turns : List (Waited × TurnAnswers n)) :
    server.Serves permgr mac (server.happened permgr mac shutofftime turns)
      (server.run permgr mac shutofftime turns) := by
  induction turns generalizing server with
  | nil => exact .refl h
  | cons turn turns ih =>
    have hturn := Serves.turn permgr mac h shutofftime turn.1 turn.2
    exact hturn.trans (ih hturn.live)

/-- A run is some turns. -/
theorem turns_run (shutofftime : Int) (turns : List (Waited × TurnAnswers n)) :
    server.Turns permgr mac shutofftime (server.run permgr mac shutofftime turns) := by
  induction turns generalizing server with
  | nil => exact .refl
  | cons turn turns ih => exact .head ⟨turn.1, turn.2, rfl⟩ ih

/-- Some turns are a run. -/
theorem Turns.exists_run {shutofftime : Int} (h : server.Turns permgr mac shutofftime server') :
    ∃ turns, server' = server.run permgr mac shutofftime turns := by
  induction h with
  | refl => exact ⟨[], rfl⟩
  | tail _ hturn ih =>
    obtain ⟨turns, rfl⟩ := ih
    obtain ⟨waited, env, rfl⟩ := hturn
    exact ⟨turns ++ [(waited, env)], by rw [run, run, List.foldl_append]; rfl⟩

/-- A new server has no client. -/
theorem Live.create (fd : Nat) (system : σ) (log : Bool) :
    (Server.create fd system log : Server σ n).Live := nofun

end Server

/-- **The server refines the service.** A new server is a service without sessions, and any turns
of its loop, whatever the order of the events, the bytes, the failures and the time, are steps of
the service in which exactly that happens which happens in the turns: a session opens when a client
comes and closes when it goes, and it hears what arrives from its peer, all of it once, in its order
and nothing else. What a session does is to skip and to take the records at the beginning of what it
has heard, on a context of its own, and the system and the log were only changed by the requests
served, one after the other. -/
theorem server_refines_service (permgr : PermMgr σ) (mac : Mac σ) (shutofftime : Int) (fd : Nat)
    (system : σ) (log : Bool) (turns more : List (Waited × TurnAnswers n)) :
    let start : Server σ n := Server.create fd system log
    let reached := start.run permgr mac shutofftime turns
    start.shared = ⟨fun _ => none, system, log⟩ ∧
      ServiceRun permgr mac start.shared (start.happened permgr mac shutofftime turns)
        reached.shared ∧
      ServiceRun permgr mac reached.shared (reached.happened permgr mac shutofftime more)
        (reached.run permgr mac shutofftime more).shared := by
  intro start reached
  have hturns : start.Serves permgr mac (start.happened permgr mac shutofftime turns) reached :=
    .turns permgr mac (Server.Live.create fd system log) shutofftime turns
  exact ⟨rfl, hturns.run, (Server.Serves.turns permgr mac hturns.live shutofftime more).run⟩

/-- Two turns of a server: a client connects, and sends `arrived`, which is read in `cuts`. -/
def visit (arrived : List UInt8) (cuts : List Nat) : List (Waited × TurnAnswers 1) :=
  [(.event 3 false true, acceptedTurn),
    (.event 4 false true, { acceptedTurn with arrived, cuts })]

/-- The server after them. -/
def Server.visited (permgr : PermMgr σ) (mac : Mac σ) (system : σ) (arrived : List UInt8)
    (cuts : List Nat) : Server σ 1 :=
  (Server.create 3 system false : Server σ 1).run permgr mac (-1) (visit arrived cuts)

/-- The two turns of the visit are turns. -/
theorem Server.turns_visited (permgr : PermMgr σ) (mac : Mac σ) (system : σ) (arrived : List UInt8)
    (cuts : List Nat) : (Server.create 3 system false).Turns permgr mac (-1)
      (Server.visited permgr mac system arrived cuts) :=
  Server.turns_run (-1) (visit arrived cuts)

/-- A connection, and a request in two reads and the beginning of another one. -/
example : (Server.create 3 () false : Server Unit 1).happened .idle .idle (-1)
    (visit (CStr.lit "log on\nlog").bytes [3, 30]) =
      [.opens 0, .gets 0 (CStr.lit "log on\nlog").bytes] := by
  decide +kernel

end SecLsmManager
