import SecLsmManager.Library.Network
import SecLsmManager.Server.Listening

/-!
# The events of the server in a network

What the server does on an event of a client that has a handle on its other side: it takes records
and reads, which are steps of the network, and may close the session (`server_event_network`). So
what is proved of every run of a network is said of the loop of the server with the library on the
other side of its sockets.
-/

namespace SecLsmManager

variable {σ : Type*} {permgr : PermMgr σ} {mac : Mac σ}

/-! ## The steps of the server -/

/-- What the server does with a session: a turn of the loop on the pending requests, or a read of
what has come when there is nothing to take. -/
inductive Joint.Serving (permgr : PermMgr σ) (mac : Mac σ) : Joint σ → Joint σ → Prop
  | take {j : Joint σ} : j.server.invalid = false → Serving permgr mac j (j.take permgr mac)
  | receive {j : Joint σ} (n : Nat) : j.server.invalid = false →
      (protGet j.server.prot).1 = -EAGAIN → j.server.input ≠ [] →
      Serving permgr mac j (j.receive n)

/-- What the server leaves of a joint: the library, and the answers so far. -/
structure Joint.Spares (j j' : Joint σ) : Prop where
  library : j'.library = j.library
  answered : j.answered <+: j'.answered

/-- What the server does is a step of the joint. -/
theorem Joint.Serving.step {j j' : Joint σ} (h : Joint.Serving permgr mac j j') :
    Joint.Step permgr mac j j' := by
  cases h with
  | take hvalid => exact .take hvalid
  | receive n hvalid hget hinput => exact .receive n hvalid hget hinput

/-- So are any number of its turns and reads. -/
theorem Joint.Serving.steps {j j' : Joint σ}
    (h : Relation.ReflTransGen (Joint.Serving permgr mac) j j') :
    Relation.ReflTransGen (Joint.Step permgr mac) j j' :=
  Relation.ReflTransGen.mono (fun _ _ => Joint.Serving.step) _ _ h

/-- They leave the library as it is, and only add answers. -/
theorem Joint.Serving.spares {j j' : Joint σ}
    (h : Relation.ReflTransGen (Joint.Serving permgr mac) j j') : j.Spares j' := by
  induction h with
  | refl => exact ⟨rfl, List.prefix_rfl⟩
  | tail _ hserving ih =>
    cases hserving with
    | receive => exact ⟨ih.library, ih.answered⟩
    | take =>
      refine ⟨ih.library, ih.answered.trans ?_⟩
      simp only [Joint.take]
      split
      · exact List.prefix_append _ _
      · exact List.prefix_rfl

/-! ## The loop on the pending requests -/

/-- `prot_get` on what a session has buffered: a request, or `EAGAIN`, and again. -/
theorem Joint.Sound.get {j : Joint σ} (h : j.Sound) :
    (protGet j.server.prot).1 > 0 ∨ (protGet j.server.prot).1 = -EAGAIN ∧
      (protGet (protGet j.server.prot).2).1 = -EAGAIN := by
  have hnil : j.server.Rests [] → (protGet j.server.prot).1 = -EAGAIN ∧
      (protGet (protGet j.server.prot).2).1 = -EAGAIN := by
    intro hrests
    obtain ⟨p, hout, hget, hp⟩ := protGet_nil hrests.pending hrests.idle.no_empty
    obtain ⟨p', -, hget', -⟩ := protGet_nil hp (hrests.idle.congr hout).no_empty
    rw [hget, hget']
    exact ⟨rfl, rfl⟩
  cases h.phase with
  | quiet _ _ _ _ hrests => exact .inr (hnil hrests)
  | answers _ _ _ _ _ _ _ _ _ _ hrests => exact .inr (hnil hrests)
  | @asks call stage wrote q b hfit _ _ _ _ _ _ hrests _ hline =>
    have hrecord : b ++ (j.server.input ++ q) = encode call.record.fields ++ [] := by
      rw [List.append_nil]
      exact hline
    obtain ⟨p, hout, ⟨line, b', hne, -, -, hget, -⟩ | ⟨hget, hp, -, hrest⟩⟩ :=
      protGet_record call.record hfit hrests.pending hrests.idle.no_empty hrecord
    · rw [hget]
      exact .inl (Int.natCast_pos.2 (reported_length_pos hne))
    · right
      obtain ⟨p', -, ⟨line, b', -, -, hnone, -⟩ | ⟨hget', -⟩⟩ := protGet_record call.record hfit hp
        (hrests.idle.congr hout).no_empty hrecord
      · exact absurd (List.append_eq_nil_iff.1 hnone).2 hrest
      · rw [hget, hget']
        exact ⟨rfl, rfl⟩

/-- Where the loop on the pending requests ends, with its code. -/
inductive Joint.Processed (j : Joint σ) (rc : Int) : Prop
  | violates : rc = 1 → j.server.invalid = true → Processed j rc
  | waits : rc = -EAGAIN → j.server.invalid = false → (protGet j.server.prot).1 = -EAGAIN →
      Processed j rc

/-- **The loop on the pending requests** is turns of the server, of which there is a first one. -/
theorem Joint.Sound.processes (permgr : PermMgr σ) (mac : Mac σ) {n : Nat} {j : Joint σ}
    (h : j.Sound) (hvalid : j.server.invalid = false) (hn : j.server.prot.inbuf.count < n) :
    ∃ j', Relation.ReflTransGen (Joint.Serving permgr mac) (j.take permgr mac) j' ∧
      j'.server = (processPending permgr mac n j.server).2 ∧
      j'.Processed (processPending permgr mac n j.server).1 := by
  induction n generalizing j with
  | zero => exact absurd hn (Nat.not_lt_zero _)
  | succ n ih =>
    have hopen : ¬ j.server.invalid = true := by rw [hvalid]; exact Bool.false_ne_true
    rw [processPending, if_neg hopen]
    rcases h.get with hpos | ⟨hagain, hagain'⟩
    · have hneg : ¬ (protGet j.server.prot).1 < 0 := not_lt.2 hpos.le
      have htake : j.server.take permgr mac =
          { onrequest permgr mac { j.server with prot := (protGet j.server.prot).2 }
              (protArgs (protGet j.server.prot).2) with
            prot := protNext (onrequest permgr mac
              { j.server with prot := (protGet j.server.prot).2 }
              (protArgs (protGet j.server.prot).2)).prot } := by
        simp only [Client.take, if_neg hneg, if_pos hpos]
      simp only [if_neg hneg, if_pos hpos]
      rw [← htake]
      -- the request is behind
      obtain ⟨b, hrests⟩ := h.rests
      have hless : (j.server.take permgr mac).prot.inbuf.count < n := by
        obtain ⟨-, -, -, -, -, -, -, -, -, -, hneg'⟩ |
            ⟨k, line, b', -, -, hb, -, -, hp, -⟩ :=
          Client.take_manages permgr mac hrests.idle hrests.pending hvalid
        · exact absurd hneg' hneg
        · have hbefore := hrests.pending.length
          have hafter := hp.length
          simp only [hb, List.length_append, List.length_cons] at hbefore
          omega
      cases hinvalid : (j.server.take permgr mac).invalid with
      | true =>
        obtain ⟨n, rfl⟩ : ∃ m, n = m + 1 := ⟨n - 1, by omega⟩
        rw [processPending, if_pos hinvalid]
        exact ⟨j.take permgr mac, .refl, rfl, .violates rfl hinvalid⟩
      | false =>
        obtain ⟨j', hserving, hserver, hprocessed⟩ :=
          ih (j := j.take permgr mac) h.take hinvalid hless
        exact ⟨j', .head (.take hinvalid) hserving, hserver, hprocessed⟩
    · have hneg : (protGet j.server.prot).1 < 0 := by rw [hagain]; decide
      have htake : j.server.take permgr mac =
          { j.server with prot := (protGet j.server.prot).2 } := by
        simp only [Client.take, if_pos hneg]
      simp only [if_pos hneg]
      refine ⟨j.take permgr mac, .refl, htake, .waits hagain ?_ ?_⟩
      · exact (congrArg Client.invalid htake).trans hvalid
      · rw [show (j.take permgr mac).server = _ from htake]
        exact hagain'

/-! ## An event -/

/-- A joint with what `client_process_input` leaves to share at its end, and with its client when
that is kept. -/
structure Joint.Served (j : Joint σ) (r : Int × Client σ) : Prop where
  shared : j.shared = (r.2.system, r.2.serverLog)
  kept : r.1 > 0 ∨ r.1 = -EAGAIN → j.server = r.2 ∧ r.2.invalid = false

/-- A code that ends the session keeps no client. -/
theorem Joint.Served.ended {j : Joint σ} {rc : Int} (h : rc ∈ [-EMSGSIZE, -EINVAL, -EPROTO]) :
    j.Served (rc, j.server) := by
  have hcodes : ∀ rc ∈ [-EMSGSIZE, -EINVAL, -EPROTO], ¬ (rc > 0 ∨ rc = -EAGAIN) := by decide
  exact ⟨rfl, fun hkept => absurd hkept (hcodes rc h)⟩

/-- **`client_process_input`** is turns and reads of the server, of which a turn is the first, and a
read at the end of the channel, if there is one. -/
theorem Joint.Sound.event (permgr : PermMgr σ) (mac : Mac σ) (cuts : List Nat) {j : Joint σ}
    (h : j.Sound) (hvalid : j.server.invalid = false) :
    ∃ j', Relation.ReflTransGen (Joint.Serving permgr mac) (j.take permgr mac) j' ∧
      j'.Served (clientProcessInput permgr mac cuts j.server) := by
  induction cuts generalizing j with
  | nil =>
    obtain ⟨k, hserving, hserver, -⟩ :=
      h.processes permgr mac hvalid (Nat.lt_succ_self _)
    refine ⟨k, hserving, ?_⟩
    rw [clientProcessInput]
    generalize processPending permgr mac (j.server.prot.inbuf.count + 1) j.server = r at hserver
    obtain ⟨rc, client⟩ := r
    obtain rfl : k.server = client := hserver
    dsimp only
    split
    · rename_i hrc
      exact hrc ▸ .ended (by decide)
    split
    · exact .ended (by decide)
    split
    · exact .ended (by decide)
    · rename_i hopen
      have hread : (k.server.read none).2 = k.server := by simp only [Client.read, protRead_error]
      exact ⟨by rw [hread]; rfl, fun _ => ⟨hread.symm, hread ▸ Bool.eq_false_iff.2 hopen⟩⟩
  | cons n cuts ih =>
    obtain ⟨k, hserving, hserver, hprocessed⟩ :=
      h.processes permgr mac hvalid (Nat.lt_succ_self _)
    rw [clientProcessInput]
    generalize processPending permgr mac (j.server.prot.inbuf.count + 1) j.server = r
      at hserver hprocessed
    obtain ⟨rc, client⟩ := r
    obtain rfl : k.server = client := hserver
    dsimp only at hprocessed ⊢
    split
    · rename_i hrc
      exact ⟨k, hserving, hrc ▸ .ended (by decide)⟩
    split
    · exact ⟨k, hserving, .ended (by decide)⟩
    split
    · exact ⟨k, hserving, .ended (by decide)⟩
    rename_i hopen
    cases hprocessed with
    | violates _ hinvalid => exact absurd hinvalid hopen
    | waits hrc hvalid' hget =>
      have hk : k.Sound := h.take.run (Joint.Serving.steps hserving)
      rcases eq_or_ne k.server.input [] with hnone | hsome
      · -- the read gets 0, or has no room
        have hread : (k.server.read (some n)).1 ∈ [-ENOBUFS, 0] := by
          simp only [Client.read, hnone, List.take_nil, protRead_data]
          split
          · exact List.mem_cons_self
          · simp [readable]
        have hends : ∀ rc ∈ [-ENOBUFS, 0], rc ≤ 0 ∧ ¬ (rc > 0 ∨ rc = -EAGAIN) := by decide
        obtain ⟨hle, hnot⟩ := hends _ hread
        rw [if_pos hle]
        exact ⟨k, hserving, rfl, fun hkept => absurd hkept hnot⟩
      · have hreceive : Joint.Serving permgr mac k (k.receive n) := .receive n hvalid' hget hsome
        split
        · exact ⟨k.receive n, hserving.tail hreceive, rfl, fun _ => ⟨rfl, hvalid'⟩⟩
        · obtain ⟨j', hserving', hserved⟩ :=
            ih (j := k.receive n) (hk.step hreceive.step) hvalid'
          exact ⟨j', (hserving.tail hreceive).trans (.head (.take hvalid') hserving'), hserved⟩

/-! ## Main result -/

/-- The client of the server is the one of the joint, but for what the server gives it in its turn
and for the bytes that have not arrived. -/
structure Joint.Attached (j : Joint σ) (client : Client σ) (channel : List UInt8) : Prop where
  valid : client.invalid = false
  turn : ∀ (shared : σ × Bool) answers writes, (j.turn shared answers writes).server =
    { client with
      system := shared.1
      serverLog := shared.2
      answers
      writes
      input := client.input ++ channel }

/-- The server is the one of the network: it shares the same, and each of its clients is the one of
a joint. -/
structure Server.Attached {n : Nat} (server : Server σ n)
    (s : Lib.Shared (Fin n) (Joint σ) (σ × Bool)) : Prop where
  state : s.state = (server.system, server.log)
  clients : ∀ idx, Option.Rel (fun client (j : Joint σ) => ∃ channel, j.Attached client channel)
    (server.clients idx).client (s.sessions idx)

section
variable {n : Nat} {server : Server σ n} {s : Lib.Shared (Fin n) (Joint σ) (σ × Bool)}
  {idx : Fin n}

/-- One slot and its session are set together. -/
theorem Server.Attached.set (h : server.Attached s) (slot : ServerClient σ) {x : Option (Joint σ)}
    (hx : Option.Rel (fun client (j : Joint σ) => ∃ channel, j.Attached client channel)
      slot.client x) (system : σ) (log : Bool) :
    (Server.setClient { server with system, log } idx slot).Attached
      (s.set idx x (system, log)) := by
  refine ⟨rfl, fun i => ?_⟩
  simp only [Server.setClient, Lib.Shared.set, Function.update_apply]
  split
  · exact hx
  · exact h.clients i

/-- A client that is destroyed, when the others are attached. -/
theorem Server.Attached.drop (hstate : s.state = (server.system, server.log))
    (hothers : ∀ i, i ≠ idx →
      Option.Rel (fun client (j : Joint σ) => ∃ channel, j.Attached client channel)
        (server.clients i).client (s.sessions i)) (ok : Bool) :
    (server.drop ok idx).Attached (s.set idx none s.state) := by
  have hclients : ∀ i, ((server.drop ok idx).clients i).client =
      if i = idx then none else (server.clients i).client := by
    intro i
    rw [Server.drop, Server.clientDestroy, Server.clientDisconnect]
    split
    · simp only [Server.setClient, Function.update_apply]
      split <;> rfl
    split
    · simp only [Server.setClient, Function.update_apply]
      split <;> rfl
    · simp only [Server.setClient, Function.update_apply]
      split <;> rfl
  have hshared : ((server.drop ok idx).system, (server.drop ok idx).log) =
      (server.system, server.log) := by
    rw [Server.drop, Server.clientDestroy, Server.clientDisconnect]
    split
    · rfl
    split
    · rfl
    · rfl
  refine ⟨hstate.trans hshared.symm, fun i => ?_⟩
  rw [hclients]
  rcases eq_or_ne i idx with rfl | hi
  · rw [if_pos rfl, Lib.Shared.set_same]
    exact .none
  · rw [if_neg hi, Lib.Shared.set_others s hi]
    exact hothers i hi

/-- What an event of the client `idx` makes of the network: nothing of a free slot, a session that
closes when its peer hung up, and one that is served and kept, or served and dropped, where the
server takes at least a turn in it and spares the library. -/
inductive Server.ClientEvent (permgr : PermMgr σ) (mac : Mac σ) (env : TurnAnswers n) (idx : Fin n)
    (s : Lib.Shared (Fin n) (Joint σ) (σ × Bool)) (hup : Bool) :
    Lib.Shared (Fin n) (Joint σ) (σ × Bool) → Prop
  | free : s.sessions idx = none → ClientEvent permgr mac env idx s hup s
  | hangs {j : Joint σ} : s.sessions idx = some j → hup = true →
      ClientEvent permgr mac env idx s hup (s.set idx none s.state)
  | serves {j j' : Joint σ} {kept : Option (Joint σ)} : s.sessions idx = some j → hup = false →
      Relation.TransGen (Joint.Serving permgr mac) (j.turn s.state env.answers env.writes) j' →
      j.Spares j' → kept = some j' ∨ kept = none →
      ClientEvent permgr mac env idx s hup (s.set idx kept j'.shared)

/-- **An event of the server is steps of the network.** Whatever the state that a network and its
server have come to, and whatever the event of a client is: when all that is in its channel
arrives, the event is turns and reads of the session, which are steps of the network under its name,
and the session closes if the server drops the client; the server is again the one of the
network. -/
theorem server_event_network (permgr : PermMgr σ) (mac : Mac σ) {shared : σ × Bool}
    (hrun : Lib.Shared.Run (network permgr mac) ⟨fun _ => none, shared⟩ s)
    (h : server.Attached s) (env : TurnAnswers n) (hup : Bool)
    (hwrites : ∀ answer ∈ env.writes, answer.Accepts)
    (harrived : ∀ client j, (server.clients idx).client = some client →
      s.sessions idx = some j → j.server.input = client.input ++ env.arrived) :
    ∃ s', Server.ClientEvent permgr mac env idx s hup s' ∧
      Relation.ReflTransGen (Lib.Shared.Step (network permgr mac) idx) s s' ∧
      (server.onClientEvent permgr mac env idx hup).Attached s' := by
  rw [Server.onClientEvent]
  dsimp only
  have hidx := h.clients idx
  cases hslot : (server.clients idx).client with
  | none =>
    rw [hslot] at hidx
    refine ⟨s, .free ?_, .refl, h⟩
    generalize s.sessions idx = session at hidx
    cases hidx
    rfl
  | some client =>
    rw [hslot] at hidx
    generalize hsession : s.sessions idx = session at hidx
    cases hidx with
    | @some _ j hj =>
    obtain ⟨channel, hattached⟩ := hj
    dsimp only
    cases hup with
    | true =>
      exact ⟨_, .hangs hsession rfl, .single .closes, .drop h.state (fun i _ => h.clients i) _⟩
    | false =>
    -- the client at its turn
    have hturn := hattached.turn s.state env.answers env.writes
    have hchannel : channel = env.arrived := by
      have hinput := congrArg Client.input hturn
      exact List.append_cancel_left (hinput.symm.trans (harrived client j hslot hsession))
    have hstart : ({ client with
        system := server.system
        serverLog := server.log
        answers := env.answers
        writes := env.writes
        input := client.input ++ env.arrived } : Client σ) =
        (j.turn s.state env.answers env.writes).server := by
      rw [hturn, hchannel, h.state]
    have hvalid : (j.turn s.state env.answers env.writes).server.invalid = false := by
      rw [hturn]
      exact hattached.valid
    have hsound := (network_sound hrun hsession).turn s.state env.answers hwrites
    obtain ⟨j', hserving, hshared, hkept⟩ := hsound.event permgr mac env.cuts hvalid
    have hfirst : Joint.Serving permgr mac (j.turn s.state env.answers env.writes)
        ((j.turn s.state env.answers env.writes).take permgr mac) := .take hvalid
    obtain ⟨hlibrary, hanswered⟩ := Joint.Serving.spares (.head hfirst hserving)
    have hevent : ∀ {kept}, kept = some j' ∨ kept = none →
        Server.ClientEvent permgr mac env idx s false (s.set idx kept j'.shared) :=
      .serves hsession rfl (.head' hfirst hserving) ⟨hlibrary, hanswered⟩
    simp only [Bool.false_eq_true, if_false]
    rw [hstart]
    generalize clientProcessInput permgr mac env.cuts
      (j.turn s.state env.answers env.writes).server = r at hshared hkept
    have hacts : Relation.ReflTransGen (network permgr mac).acts (j, s.state) (j', j'.shared) :=
      .head ⟨env.answers, env.writes, hwrites, hfirst.step, rfl⟩
        (hsound.take.actions (Joint.Serving.steps hserving))
    have hnetwork := Lib.Shared.Step.actions hsession hacts
    rw [hshared] at hnetwork hevent
    split
    · rename_i hkeep
      obtain ⟨hserver, hvalid'⟩ := hkept hkeep
      refine ⟨_, hevent (.inl rfl), hnetwork, ?_⟩
      refine h.set _ (.some ⟨[], hvalid', fun shared answers writes => ?_⟩) _ _
      simp only [Joint.turn, hserver, List.append_nil]
    · have hdropped := hevent (.inr rfl)
      rw [← Lib.Shared.set_set s idx (some j') none (r.2.system, r.2.serverLog)] at hdropped
      refine ⟨_, hdropped, hnetwork.tail .closes, ?_⟩
      refine .drop rfl (fun i hi => ?_) env.delete
      rw [Lib.Shared.set_others s hi]
      simp only [Server.setClient, Function.update_of_ne hi]
      exact h.clients i

end

/-- A handle at the beginning of a display. -/
def startingHandle : Joint Unit :=
  (openedHandle.turn ((), false) (fun _ => .plain) []).start .display
    (0, openedHandle.library.handle)

/-- A handle that has asked for a display. -/
def askingHandle : Joint Unit :=
  startingHandle.flush ⟨.display, [], [], []⟩ true ⟨.written 100, none⟩

/-- The library of the example has a call under way. -/
theorem startingHandle_runs : startingHandle.library.doing =
    .runs ⟨.display, [], [], []⟩ (.flush true) := by
  decide +kernel

/-- The server takes the request of a display, which waits in the channel. -/
theorem server_event_network_serves :
    let s := (⟨fun _ => none, ((), false)⟩ : Lib.Shared (Fin 1) (Joint Unit) _).set 0
      (some askingHandle) ((), false)
    let server := (Server.create 3 () false : Server Unit 1).setClient 0
      ⟨some { askingHandle.server with input := [] }, 4, 0⟩
    let env := { acceptedTurn with arrived := encode [wordDisplay], cuts := [30] }
    ∃ s', Server.ClientEvent .idle .idle env 0 s false s' ∧
      Relation.ReflTransGen (Lib.Shared.Step (network .idle .idle) 0) s s' ∧
      (server.onClientEvent .idle .idle env 0 false).Attached s' := by
  intro s server env
  let start : Lib.Shared (Fin 1) (Joint Unit) (Unit × Bool) := ⟨fun _ => none, ((), false)⟩
  have hopen : Lib.Shared.Run (network .idle .idle) start
      (start.set 0 (some openedHandle) start.state) := .single ⟨0, .opens rfl openedHandle_opens⟩
  have hvalid : openedHandle.server.invalid = false := by decide +kernel
  have hstart : Joint.Step .idle .idle (openedHandle.turn ((), false) (fun _ => .plain) [])
      startingHandle := .start .display _ openedHandle_connected.idle hvalid
  have hflush : Joint.Step .idle .idle startingHandle askingHandle :=
    .flush startingHandle_runs (.inl ⟨100, rfl⟩)
  have hacts : (network .idle .idle).acts (openedHandle, ((), false))
      (startingHandle, ((), false)) := ⟨_, _, List.forall_mem_nil _, hstart, rfl⟩
  have hacts' : (network .idle .idle).acts (startingHandle, ((), false))
      (askingHandle, ((), false)) := ⟨fun _ => .plain, [], List.forall_mem_nil _, hflush, rfl⟩
  have hrun := hopen.trans (Lib.Shared.Step.run
    (Lib.Shared.Step.actions (Lib.Shared.set_same start 0 _ _) (.head hacts (.single hacts'))))
  rw [Lib.Shared.set_set] at hrun
  have hsession : s.sessions 0 = some askingHandle := Lib.Shared.set_same _ _ _ _
  have hattached : server.Attached s := by
    refine ⟨rfl, fun i => ?_⟩
    obtain rfl := Subsingleton.elim i 0
    rw [hsession]
    exact .some ⟨askingHandle.server.input, hvalid, fun shared answers writes => rfl⟩
  refine server_event_network .idle .idle hrun hattached env false (List.forall_mem_nil _)
    fun client j hclient hj => ?_
  obtain rfl : { askingHandle.server with input := [] } = client := Option.some.inj hclient
  obtain rfl : askingHandle = j := Option.some.inj (hsession.symm.trans hj)
  show askingHandle.server.input = encode [wordDisplay]
  decide +kernel

end SecLsmManager
