import SecLsmManager.Lib.History
import SecLsmManager.Library.Remote

/-!
# Many handles and one server

Any number of programs that have handles, with their sessions at one server. The sessions share the
system and the log, and the steps of all of them come in any order. What all programs see is what
they would see if each call was made in one step, in one order that goes with the time
(`network_linearizable`), and a call never waits for those of the others (`network_completes`).
-/

namespace SecLsmManager

variable {σ : Type*} {permgr : PermMgr σ} {mac : Mac σ}

/-! ## The network -/

/-- What the session of a handle shares with the others. -/
def Joint.shared (j : Joint σ) : σ × Bool := (j.server.system, j.server.serverLog)

/-- What it has for itself. -/
def Joint.own (j : Joint σ) : Standing × Context := (j.server.view.standing, j.server.context)

/-- The joint at its turn, with the answers to what the server calls in it. -/
def Joint.turn (j : Joint σ) (shared : σ × Bool) (answers : Nat → Answers)
    (writes : List OutAnswer) : Joint σ :=
  { j with server := { j.server with
      system := shared.1
      serverLog := shared.2
      answers
      writes } }

/-- A handle opens with the greeting; then it and its session make their steps. -/
def network (permgr : PermMgr σ) (mac : Mac σ) : Lib.Shared.Rules (Joint σ) (σ × Bool) where
  opens j := ∃ mem mem' idmem system serverLog answers writes,
    (∀ answer ∈ writes, OutAnswer.Accepts answer) ∧ j = (Joint.greet permgr mac mem
      (clientCreate mem' idmem system serverLog answers writes [])).2
  acts p q := ∃ answers writes, (∀ answer ∈ writes, OutAnswer.Accepts answer) ∧
    Joint.Step permgr mac (p.1.turn p.2 answers writes) q.1 ∧ q.2 = q.1.shared

/-- A call, with what the directories of the manager answer in it. -/
abbrev Request := ApiCall × (Nat → Answers)

/-- What a program sees of a call. -/
abbrev Outcome := Bool × List (List CStr)

/-- What the network is for: the calls are made on the machine, where each session has a context of
its own. -/
def networkObject (permgr : PermMgr σ) (mac : Mac σ) :
    Lib.Object (Standing × Context) (σ × Bool) Request Outcome where
  opens own := ∃ mem, own = (.greeted, contextCreate mem)
  serve request p :=
    let (outcome, m) := Manager.call permgr mac
      ⟨p.1.1, p.1.2, p.2.2, p.2.1, request.2⟩ request.1
    (outcome, (m.standing, m.context), (m.system, m.log))

/-! ## The calls of a handle -/

/-- What the program sees of a call, by the records of the reply. -/
def replyOutcome (records : List (List CStr)) : Outcome :=
  (records.getLast?.bind List.head? = some wordDone, records.dropLast.map List.tail)

/-- A call that fits is one request and its reply. -/
theorem Manager.call_of_fits (m : Manager σ) {call : ApiCall} (h : Fits call.fields) :
    m.call permgr mac call = (replyOutcome (m.answer permgr mac call.fields).1,
      (m.answer permgr mac call.fields).2) := if_pos h

/-- A call that is too long for the buffer fails alone. -/
theorem Manager.call_of_long (m : Manager σ) {call : ApiCall} (h : ¬ Fits call.fields) :
    m.call permgr mac call = ((false, []), m) := if_neg h

/-- The calls of a handle that have returned. -/
def Library.calls (lib : Library) : List (ApiCall × Outcome) :=
  lib.returned.map fun e => (e.1.call, outcome e)

/-- `calls` have taken effect: those that have returned, and the one that is under way when the
server has taken its request. -/
inductive Joint.Made (j : Joint σ) : List (ApiCall × Outcome) → Prop
  | returned : j.answered = exchanges j.library.returned → Made j j.library.calls
  | taken {trace : Trace} {stage : Stage} {records : List (List CStr)} :
      j.library.doing = .runs trace stage → [] ∉ records →
      j.answered = exchanges j.library.returned ++
        [(trace.call.fields, records.flatMap encode)] →
      Made j (j.library.calls ++ [(trace.call, replyOutcome records)])

/-! ## What a step of the library can do -/

/-- Behind the calls `returned`, the call `call` goes on in `lib`, or has returned. -/
inductive Library.Continues (call : ApiCall) (returned : List (Trace × Int)) (lib : Library) : Prop
  | goes {trace : Trace} {stage : Stage} : lib.doing = .runs trace stage → trace.call = call →
      lib.returned = returned → Continues call returned lib
  | returns {e : Trace × Int} : lib.doing = .idle → e.1.call = call →
      lib.returned = returned ++ [e] → Continues call returned lib

section
variable {lib : Library} {trace : Trace} {call : ApiCall} {returned : List (Trace × Int)}
  (hcall : trace.call = call) (hreturned : lib.returned = returned)
include hcall hreturned

/-- A call that returns was the one under way. -/
theorem Library.returns_continues (rc : Int) :
    Library.Continues call returned (lib.returns trace rc) :=
  .returns rfl hcall (congrArg (· ++ _) hreturned)

/-- The call under way stays the same while it sends. -/
theorem Library.send_continues (trial : Bool) :
    Library.Continues call returned (lib.send trace trial) := by
  rw [send]
  dsimp only
  split
  · exact .goes rfl hcall hreturned
  split
  · refine Library.returns_continues ?_ ?_ _
    exacts [hcall, hreturned]
  · exact .goes rfl hcall hreturned

/-- The same behind a flush. -/
theorem Library.flushed_continues (put : Bool) (rc : Int) :
    Library.Continues call returned (lib.flushed trace put rc) := by
  rw [flushed]
  split
  · split
    · exact .goes rfl hcall hreturned
    · refine Library.returns_continues ?_ ?_ rc
      exacts [hcall, hreturned]
  split
  · refine Library.send_continues ?_ ?_ true
    exacts [hcall, hreturned]
  · refine Library.returns_continues ?_ ?_ rc
    exacts [hcall, hreturned]

/-- The same for one write of a flush. -/
theorem Library.flush_continues (put : Bool) (answer : OutAnswer) :
    Library.Continues call returned (lib.flush trace put answer).1 := by
  rw [flush]
  split
  · dsimp only
    generalize (if (protWrite lib.handle.prot answer.write).1 = -EAGAIN then _ else _) = rc
    split
    · refine Library.flushed_continues ?_ ?_ put rc
      exacts [hcall, hreturned]
    · exact .goes rfl hcall hreturned
  · refine Library.flushed_continues ?_ ?_ put 0
    exacts [hcall, hreturned]

/-- The same behind a reply. -/
theorem Library.replied_continues (rc : Int) :
    Library.Continues call returned (lib.replied trace rc) := by
  rw [replied]
  split
  · refine Library.returns_continues ?_ ?_ _
    exacts [hcall, hreturned]
  · exact .goes rfl hcall hreturned

/-- The same while it looks for a reply. -/
theorem Library.next_continues : Library.Continues call returned (lib.next trace) := by
  rw [next]
  dsimp only
  split
  · refine Library.replied_continues ?_ ?_ _
    exacts [hcall, hreturned]
  split
  · refine Library.replied_continues ?_ ?_ (-EPIPE)
    exacts [hcall, hreturned]
  split
  · exact .goes rfl hcall hreturned
  · exact .goes rfl hcall hreturned

/-- The same for one read. -/
theorem Library.read_continues (answer : InAnswer) :
    Library.Continues call returned (lib.read trace answer).1 := by
  rw [read]
  dsimp only
  split
  · exact .goes rfl hcall hreturned
  split
  · refine Library.replied_continues ?_ ?_ (-EPIPE)
    exacts [hcall, hreturned]
  generalize (if (protRead lib.handle.prot answer.read).1 = -EAGAIN then _ else _) = rc
  split
  · refine Library.replied_continues ?_ ?_ rc
    exacts [hcall, hreturned]
  · exact .goes rfl hcall hreturned

end

/-! ## The steps of a joint -/

/-- Between two calls, no reply is on its way. -/
theorem Joint.Sound.answered_of_idle {j : Joint σ} (h : j.Sound)
    (hidle : j.library.doing = .idle) : j.answered = exchanges j.library.returned := by
  cases h.phase with
  | quiet _ _ _ _ _ _ hans => exact hans
  | asks _ hdoing =>
    rw [hidle] at hdoing
    cases hdoing
  | answers _ hdoing =>
    rw [hidle] at hdoing
    cases hdoing

/-- The outcome of a call that had an exchange, or whose request was too long. -/
theorem Returned.outcome {e : Trace × Int} (h : Returned e) :
    (¬ Fits e.1.call.fields → outcome e = (false, [])) ∧
      (Fits e.1.call.fields → ∀ records, [] ∉ records → e.1.read = records.flatMap encode →
        outcome e = replyOutcome records) := by
  rw [Returned] at h
  refine ⟨fun hlong => ?_, fun hfit records hne hread => ?_⟩
  · obtain ⟨hcode, -, -, hshown⟩ := (if_neg hlong).mp h
    rw [SecLsmManager.outcome, hcode, hshown]
    rfl
  · obtain ⟨strings, last, hexchange⟩ := (if_pos hfit).mp h
    exact outcome_of_reply hne hread hexchange

/-- **A step of the library**: the calls are the same, or one with a request that is too long has
returned. -/
theorem Joint.Made.continues {j j' : Joint σ} {calls : List (ApiCall × Outcome)}
    (h : j.Made calls) {trace : Trace} {stage : Stage}
    (hruns : j.library.doing = .runs trace stage) (hsound : j'.Sound)
    (hanswered : j'.answered = j.answered)
    (hcontinues : Library.Continues trace.call j.library.returned j'.library) :
    j'.Made calls ∨ ¬ Fits trace.call.fields ∧ j'.Made (calls ++ [(trace.call, (false, []))]) := by
  cases hcontinues with
  | @goes trace' stage' hruns' hcall hreturned =>
    have hcalls : j'.library.calls = j.library.calls := congrArg (List.map _) hreturned
    left
    cases h with
    | returned hans =>
      rw [← hcalls]
      exact .returned (by rw [hanswered, hans, hreturned])
    | @taken trace₀ _ records hruns₀ hne hans =>
      obtain rfl : trace₀ = trace := by
        rw [hruns] at hruns₀
        cases hruns₀
        rfl
      rw [← hcalls, ← hcall]
      exact .taken hruns' hne (by rw [hanswered, hans, hreturned, hcall])
  | @returns e hidle hcall hreturned =>
    have hquiet := hsound.answered_of_idle hidle
    have hcalls : j'.library.calls = j.library.calls ++ [(e.1.call, outcome e)] := by
      rw [Library.calls, hreturned, List.map_append]
      rfl
    have hmade : j'.Made (j.library.calls ++ [(trace.call, outcome e)]) := by
      rw [← hcall, ← hcalls]
      exact .returned hquiet
    have he : Returned e := hsound.returned e (hreturned ▸ List.mem_concat_self)
    obtain ⟨hrefused, hserved⟩ := he.outcome
    -- what was answered tells if the request was taken
    rw [hanswered, hreturned, exchanges_concat] at hquiet
    rcases Decidable.em (Fits e.1.call.fields) with hfit | hlong
    · rw [if_pos hfit] at hquiet
      left
      cases h with
      | returned hans => simp [hans] at hquiet
      | @taken trace₀ _ records hruns₀ hne hans =>
        obtain rfl : trace₀ = trace := by
          rw [hruns] at hruns₀
          cases hruns₀
          rfl
        have hlast := List.append_cancel_left (hans.symm.trans hquiet)
        simp only [List.cons.injEq, Prod.mk.injEq, and_true] at hlast
        rw [← hserved hfit records hne hlast.2.symm]
        exact hmade
    · rw [if_neg hlong, List.append_nil] at hquiet
      rw [hrefused hlong] at hmade
      right
      cases h with
      | returned hans => exact ⟨hcall ▸ hlong, hmade⟩
      | taken _ _ hans => simp [hans] at hquiet

/-- **A turn of the server** takes the request of the call under way, or none. -/
theorem Joint.Made.take {j : Joint σ} {calls : List (ApiCall × Outcome)} (h : j.Made calls)
    (hsound : j.Sound) (hvalid : j.server.invalid = false) :
    ((j.take permgr mac).server.view = j.server.view ∧ (j.take permgr mac).Made calls) ∨
      ∃ call, let r := j.server.view.call permgr mac call
        (j.take permgr mac).server.view = r.2 ∧
          (j.take permgr mac).Made (calls ++ [(call, r.1)]) := by
  obtain ⟨b, hrests⟩ := hsound.rests
  obtain ⟨-, b', -, -, -, -, hview, -, -, -, hneg⟩ |
      ⟨-, line, b', shows, q', -, -, -, -, -, -, hpos, hargs, hview, hacc⟩ :=
    Client.take_manages permgr mac hrests.idle hrests.pending hvalid
  · have hanswered : (j.take permgr mac).answered = j.answered := by
      simp only [Joint.take, if_neg (not_lt.2 hneg.le)]
    refine .inl ⟨hview, ?_⟩
    cases h with
    | returned hans => exact .returned (hanswered.trans hans)
    | taken hruns hne hans => exact .taken hruns hne (hanswered.trans hans)
  · obtain ⟨-, -, rfl, hsent⟩ := hacc hrests.accepting rfl
    have hanswered : (j.take permgr mac).answered = j.answered ++
        [(report line, (j.server.view.answer permgr mac (report line)).1.flatMap encode)] := by
      simp only [Joint.take, if_pos hpos, hargs, hsent, List.drop_left]
      rfl
    have hserver : (j.take permgr mac).server.view =
        (j.server.view.answer permgr mac (report line)).2 := hview
    -- a request is taken for the call under way only, and once
    have hlong : (exchanges j.library.returned).length < (j.take permgr mac).answered.length := by
      rw [hanswered, List.length_append, List.length_singleton]
      cases h with
      | returned hans => rw [hans]; exact Nat.lt_succ_self _
      | taken _ _ hans => rw [hans, List.length_append]; omega
    cases hsound.take.phase with
    | quiet _ _ _ _ _ _ hans => exact absurd (congrArg List.length hans).symm hlong.ne
    | asks _ _ _ _ _ _ _ _ _ _ hans => exact absurd (congrArg List.length hans).symm hlong.ne
    | @answers call stage _ _ _ _ _ hfit hruns _ _ _ _ _ _ _ _ _ _ hans =>
      obtain ⟨hbefore, hlast⟩ := List.append_inj' (hanswered.symm.trans hans) rfl
      obtain ⟨hline, -⟩ := Prod.mk.inj (List.singleton_inj.1 hlast)
      rw [hline] at hanswered hserver
      refine .inr ⟨call, ?_⟩
      rw [Manager.call_of_fits _ hfit]
      refine ⟨hserver, ?_⟩
      cases h with
      | returned _ =>
        exact .taken hruns (Manager.reply_ne_nil _ _ _) (hanswered.trans (by rw [hbefore]))
      | taken _ _ hans => simp [hans, Joint.take] at hbefore

/-- **A step** does what one call does on the machine, or nothing. -/
theorem Joint.Made.step {j j' : Joint σ} {calls : List (ApiCall × Outcome)} (h : j.Made calls)
    (hsound : j.Sound) (hstep : Joint.Step permgr mac j j') :
    (j'.server.view = j.server.view ∧ j'.Made calls) ∨
      ∃ call, let r := j.server.view.call permgr mac call
        j'.server.view = r.2 ∧ j'.Made (calls ++ [(call, r.1)]) := by
  have hsound' : j'.Sound := hsound.step hstep
  -- what is left to say of a step of the library
  have hlibrary : ∀ {trace stage}, j.library.doing = .runs trace stage →
      j'.answered = j.answered → j'.server.view = j.server.view →
      Library.Continues trace.call j.library.returned j'.library →
      (j'.server.view = j.server.view ∧ j'.Made calls) ∨
        ∃ call, let r := j.server.view.call permgr mac call
          j'.server.view = r.2 ∧ j'.Made (calls ++ [(call, r.1)]) := by
    intro trace stage hruns hanswered hview hcontinues
    obtain hmade | ⟨hlong, hmade⟩ := h.continues hruns hsound' hanswered hcontinues
    · exact .inl ⟨hview, hmade⟩
    · refine .inr ⟨trace.call, ?_⟩
      rw [Manager.call_of_long _ hlong]
      exact ⟨hview, hmade⟩
  cases hstep with
  | start call opening hidle hvalid =>
    obtain ⟨-, hreturned⟩ := hsound.starts call opening hidle
    have hcalls : (j.start call opening).library.calls = j.library.calls :=
      congrArg (List.map _) hreturned
    refine .inl ⟨rfl, ?_⟩
    cases h with
    | returned hans =>
      rw [← hcalls]
      exact .returned (by rw [hreturned]; exact hans)
    | taken hruns =>
      rw [hidle] at hruns
      cases hruns
  | flush hruns _ => exact hlibrary hruns rfl rfl (Library.flush_continues rfl rfl _ _)
  | next hruns => exact hlibrary hruns rfl rfl (Library.next_continues rfl rfl)
  | read cut hruns _ => exact hlibrary hruns rfl rfl (Library.read_continues rfl rfl _)
  | take hvalid => exact h.take hsound hvalid
  | receive n _ _ _ =>
    refine .inl ⟨rfl, ?_⟩
    cases h with
    | returned hans => exact .returned hans
    | taken hruns hne hans => exact .taken hruns hne hans

/-! ## The sessions of the network -/

/-- A turn keeps the invariant, whatever the others did to what is shared. -/
theorem Joint.Sound.turn {j : Joint σ} (h : j.Sound) (shared : σ × Bool)
    (answers : Nat → Answers) {writes : List OutAnswer}
    (hwrites : ∀ answer ∈ writes, answer.Accepts) : (j.turn shared answers writes).Sound := by
  have hrests : ∀ {b}, j.server.Rests b → (j.turn shared answers writes).server.Rests b :=
    fun hrests => ⟨hrests.pending, hrests.idle, hwrites⟩
  refine ⟨h.state, h.lock, h.returned, ?_⟩
  cases h.phase with
  | quiet hdoing hout hbuf hdown hrest hinput hans =>
    exact .quiet hdoing hout hbuf hdown (hrests hrest) hinput hans
  | asks hfit hdoing hstage hq hout hwrote hdown hrest hvalid hline hans =>
    exact .asks hfit hdoing hstage hq hout hwrote hdown (hrests hrest) hvalid hline hans
  | answers hfit hdoing hstage hout hshown hdisplay hlast hsome hread hbytes hrest hinput hans =>
    exact .answers hfit hdoing hstage hout hshown hdisplay hlast hsome hread hbytes (hrests hrest)
      hinput hans

/-- A joint stands where the calls have led, on the session of its own. -/
structure Joint.Follows (j : Joint σ) (p : (Standing × Context) × List (Request × Outcome)) :
    Prop where
  sound : j.Sound
  own : j.own = p.1
  made : j.Made (p.2.map fun e => (e.1.1, e.2))

/-- A session after the greeting. -/
theorem Client.Rests.take_greeting_view (permgr : PermMgr σ) (mac : Mac σ) {c : Client σ}
    (h : c.Rests (encode greeting)) (hversion : c.version = 0) (hvalid : c.invalid = false) :
    (c.take permgr mac).view = { c.view with standing := .greeted } := by
  let r : Record := ⟨greeting, by decide, by decide, by decide⟩
  have hfit : Fits r.fields := by decide +kernel
  have heq : encode greeting ++ [] = encode r.fields ++ [] := rfl
  obtain ⟨p, hout, ⟨line, b', hline, hreport, -, hget, hhold⟩ | ⟨-, -, -, hsome⟩⟩ :=
    protGet_record r hfit h.pending h.idle.no_empty heq
  · have hreceives : Receives { c with prot := p } greeting
        (.hello [PROTOCOL_VERSION_1_STRING] List.mem_cons_self) :=
      ⟨by decide +kernel, rfl, fun _ => hversion⟩
    have hserve : onrequest permgr mac { c with prot := p } greeting =
        sendDone ({ c with prot := p } : Client σ).started (some PROTOCOL_VERSION_1_STRING) :=
      onrequest_query hreceives
    have hdone : Fits (wordDone :: (some PROTOCOL_VERSION_1_STRING).toList) := by decide +kernel
    have hview := (sendDone_manages (c := ({ c with prot := p } : Client σ).started)
      (h.idle.congr hout) _ hdone).view
    have hstarted : ({ c with prot := p } : Client σ).started.view =
        { c.view with standing := .greeted } := Client.started_view hvalid
    have hargs : r.fields = greeting := rfl
    rw [Client.take_record hline hget hhold, hreport, hargs, hserve]
    exact hview.trans hstarted
  · exact absurd rfl hsome

/-- The session of a handle that opens. -/
theorem Joint.greet_own (permgr : PermMgr σ) (mac : Mac σ) (mem mem' : ProtMem)
    (idmem : Nat → UInt8) (system : σ) (serverLog : Bool) (answers : Nat → Answers)
    {writes : List OutAnswer} (hwrites : ∀ answer ∈ writes, answer.Accepts) :
    (Joint.greet permgr mac mem
      (clientCreate mem' idmem system serverLog answers writes [])).2.own =
        (.greeted, contextCreate idmem) := by
  have hlen : (encode greeting).length ≤ PROT_MAX_BUFFER_LENGTH := by decide +kernel
  have hne : encode greeting ≠ [] := by decide +kernel
  have hsome : greeting ≠ [] := List.cons_ne_nil _ _
  obtain ⟨-, p, hput, hidle, hsame⟩ | ⟨hlong, -⟩ :=
    sendTrial_spec (outIdle_protReset mem) hsome
  · obtain ⟨p', hwrite, -⟩ := protWrite_spec hidle.toOutState PROT_MAX_BUFFER_LENGTH hne
    rw [List.take_of_length_le hlen] at hwrite
    let c : Client σ := clientCreate mem' idmem system serverLog answers writes (encode greeting)
    have hrests : c.Rests [] := ⟨pending_protReset mem', outIdle_protReset mem', hwrites⟩
    obtain ⟨ps, hread, hps, houts⟩ := protRead_all hrests.pending hlen
    have htake : c.input.take (PROT_MAX_BUFFER_LENGTH + 1) = encode greeting :=
      List.take_of_length_le (Nat.le_succ_of_le hlen)
    have hreads : (c.read (some PROT_MAX_BUFFER_LENGTH)).2 =
        { c with prot := ps, input := [] } := by
      simp only [Client.read, htake, hread, Int.toNat_natCast]
      rw [show c.input = encode greeting from rfl, List.drop_length]
    have hview := Client.Rests.take_greeting_view permgr mac
      (c := { c with prot := ps, input := [] })
      ⟨hps, (outIdle_protReset mem').congr houts, hwrites⟩ rfl rfl
    have hserver : (Joint.greet permgr mac mem
        (clientCreate mem' idmem system serverLog answers writes [])).2.server =
        ({ c with prot := ps, input := [] } : Client σ).take permgr mac := by
      rw [← hreads]
      simp only [Joint.greet, hput, hwrite]
      rfl
    have hcontext := congrArg Manager.context hview
    rw [Joint.own, hserver, hview]
    exact Prod.ext rfl hcontext
  · exact absurd hlen hlong

/-- A handle that was not used follows no calls. -/
theorem Joint.Connected.follows {j : Joint σ} (h : j.Connected) : j.Follows (j.own, []) := by
  refine ⟨h.sound, rfl, ?_⟩
  have hnone : j.library.calls = [] := by
    rw [Library.calls, h.returned]
    rfl
  have hmade := Joint.Made.returned (h.sound.answered_of_idle h.idle)
  rw [hnone] at hmade
  exact hmade

/-- What other sessions do to the shared state makes no call. -/
theorem Joint.Made.turn {j : Joint σ} {calls : List (ApiCall × Outcome)} (h : j.Made calls)
    (shared : σ × Bool) (answers : Nat → Answers) (writes : List OutAnswer) :
    (j.turn shared answers writes).Made calls := by
  cases h with
  | returned hans => exact .returned hans
  | taken hruns hne hans => exact .taken hruns hne hans

/-- A session opens greeted, with a fresh context. -/
theorem network_opens {j : Joint σ} (h : (network permgr mac).opens j) :
    ∃ mem, j.Follows ((.greeted, contextCreate mem), []) := by
  obtain ⟨mem, mem', idmem, system, serverLog, answers, writes, hwrites, hj⟩ := h
  obtain ⟨-, hconnected⟩ :=
    Joint.greet_connected permgr mac mem mem' idmem system serverLog answers hwrites
  have hown := Joint.greet_own permgr mac mem mem' idmem system serverLog answers hwrites
  rw [← hj] at hconnected hown
  exact ⟨idmem, hown ▸ hconnected.follows⟩

/-- **A step of the network** is a call that takes effect, or nothing. -/
theorem network_acts {j j' : Joint σ} {shared shared' : σ × Bool} {own : Standing × Context}
    {calls : List (Request × Outcome)} (h : j.Follows (own, calls))
    (hacts : (network permgr mac).acts (j, shared) (j', shared')) :
    (shared' = shared ∧ j'.Follows (own, calls)) ∨
      ∃ request, let r := (networkObject permgr mac).serve request (own, shared)
        shared' = r.2.2 ∧ j'.Follows (r.2.1, calls ++ [(request, r.1)]) := by
  obtain ⟨answers, writes, hwrites, hstep, hshared⟩ := hacts
  dsimp only at hstep hshared
  have hown : j.own = own := h.own
  have hturn := h.sound.turn shared answers hwrites
  have hsound := hturn.step hstep
  -- the machine that the session is in its turn
  have hmachine : (j.turn shared answers writes).server.view =
      ⟨own.1, own.2, shared.2, shared.1, answers⟩ := by
    rw [← hown]
    rfl
  have hparts : ∀ m, j'.server.view = m →
      j'.own = (m.standing, m.context) ∧ shared' = (m.system, m.log) := by
    rintro m rfl
    exact ⟨rfl, hshared⟩
  obtain ⟨hview, hmade⟩ | ⟨call, hview, hmade⟩ :=
    (h.made.turn shared answers writes).step hturn hstep
  · obtain ⟨hown', hshared'⟩ := hparts _ (hview.trans hmachine)
    exact .inl ⟨hshared', hsound, hown', hmade⟩
  · rw [hmachine] at hview hmade
    obtain ⟨hown', hshared'⟩ := hparts _ hview
    refine .inr ⟨(call, answers), hshared', hsound, hown', ?_⟩
    rw [List.map_append]
    exact hmade

/-- The call of a handle takes effect when the server takes its request, or when it returns without
one. -/
theorem network_linear (permgr : PermMgr σ) (mac : Mac σ) :
    Lib.Shared.Linear (network permgr mac) (networkObject permgr mac) Joint.Follows where
  opens h := by
    obtain ⟨mem, hfollows⟩ := network_opens h
    exact ⟨_, ⟨mem, rfl⟩, hfollows⟩
  acts h hacts := network_acts h hacts

/-! ## Private calls -/

/-- The words of what is shared. -/
def sharedWords : List (Option CStr) := [some wordInstall, some wordUninstall, some wordLog]

/-- A call that only concerns the session: it neither changes nor shows what is shared. -/
def ApiCall.Private (call : ApiCall) : Prop := call.fields.head? ∉ sharedWords

instance (call : ApiCall) : Decidable call.Private := inferInstanceAs (Decidable (_ ∉ _))

section
variable {σ' : Type*} {permgr' : PermMgr σ'} {mac' : Mac σ'}

/-- Managers that only differ in what is shared. -/
structure Manager.Alike (m : Manager σ) (m' : Manager σ') : Prop where
  standing : m.standing = m'.standing
  context : m.context = m'.context
  answers : m.answers = m'.answers

/-- The same replies, and managers that stay alike. -/
structure Manager.SameReply (r : List (List CStr) × Manager σ)
    (r' : List (List CStr) × Manager σ') : Prop where
  records : r.1 = r'.1
  alike : r.2.Alike r'.2

/-- Alike managers conclude alike. -/
theorem Manager.Alike.conclude {m : Manager σ} {m' : Manager σ'} (h : m.Alike m') (rc : Int)
    (texts : ErrorTexts) : SameReply (m.conclude rc texts) (m'.conclude rc texts) := by
  rw [Manager.conclude, Manager.conclude]
  split
  · exact ⟨rfl, h⟩
  · exact ⟨rfl, h.standing, congrArg contextRaiseError h.context, h.answers⟩

/-- They serve alike what does not touch the shared state. -/
theorem Manager.Alike.serve {m : Manager σ} {m' : Manager σ'} (h : m.Alike m') (shows : Bool)
    {query : Query} (hquery : query.fields.head? ∉ sharedWords) :
    SameReply (m.serve permgr mac shows query) (m'.serve permgr' mac' shows query) := by
  obtain ⟨standing, context, log, system, answers⟩ := m
  obtain ⟨standing', context', log', system', answers'⟩ := m'
  obtain ⟨rfl, rfl, rfl⟩ := h
  cases query with
  | hello versions hversion => exact ⟨rfl, rfl, rfl, rfl⟩
  | clear => exact ⟨rfl, rfl, rfl, rfl⟩
  | display =>
    rw [Manager.serve, Manager.serve, Manager.display, Manager.display]
    split
    · exact ⟨rfl, rfl, rfl, rfl⟩
    · exact ⟨rfl, rfl, rfl, rfl⟩
  | install => exact absurd (by decide) hquery
  | uninstall => exact absurd (by decide) hquery
  | log setlog =>
    have hlog : (Query.log setlog).fields.head? = some wordLog := by cases setlog <;> rfl
    exact absurd (hlog ▸ by decide) hquery
  | _ =>
    simp only [Manager.serve]
    refine Alike.conclude ?_ _ _
    exact ⟨rfl, rfl, rfl⟩

/-- So they reply alike. -/
theorem Manager.Alike.reply {m : Manager σ} {m' : Manager σ'} (h : m.Alike m') (shows : Bool)
    {args : List CStr} (hargs : args.head? ∉ sharedWords) :
    SameReply (m.reply permgr mac shows args) (m'.reply permgr' mac' shows args) := by
  rw [Manager.reply, Manager.reply, ← h.standing]
  split
  · exact ⟨rfl, h⟩
  split
  · rename_i query hparse
    obtain ⟨-, rfl, -⟩ := Query.parse_iff.1 hparse
    refine Alike.serve ?_ shows hargs
    exact ⟨rfl, h.context, h.answers⟩
  · exact ⟨rfl, rfl, congrArg contextRaiseError h.context, h.answers⟩

/-- So their calls give the same. -/
theorem Manager.Alike.call (permgr : PermMgr σ) (mac : Mac σ) (permgr' : PermMgr σ')
    (mac' : Mac σ') {m : Manager σ} {m' : Manager σ'} (h : m.Alike m') {call : ApiCall}
    (hcall : call.Private) :
    (m.call permgr mac call).1 = (m'.call permgr' mac' call).1 ∧
      (m.call permgr mac call).2.Alike (m'.call permgr' mac' call).2 := by
  have hshows : decide m.Shows = decide m'.Shows := by
    simp only [Manager.Shows, h.context]
  rcases Decidable.em (Fits call.fields) with hfit | hlong
  · have hreply : SameReply (m.answer permgr mac call.fields)
        (m'.answer permgr' mac' call.fields) := by
      rw [Manager.answer, Manager.answer, hshows]
      exact h.reply _ hcall
    rw [Manager.call_of_fits _ hfit, Manager.call_of_fits _ hfit]
    exact ⟨congrArg replyOutcome hreply.records, hreply.alike⟩
  · rw [Manager.call_of_long _ hlong, Manager.call_of_long _ hlong]
    exact ⟨rfl, h⟩

/-- Private calls give the same on any system. -/
theorem networkObject_private (permgr : PermMgr σ) (mac : Mac σ) (permgr' : PermMgr σ')
    (mac' : Mac σ') : Lib.Shared.Private (networkObject permgr mac) (networkObject permgr' mac')
      fun request => request.1.Private := by
  rintro ⟨call, answers⟩ hcall own shared shared'
  have halike : Manager.Alike (⟨own.1, own.2, shared.2, shared.1, answers⟩ : Manager σ)
      (⟨own.1, own.2, shared'.2, shared'.1, answers⟩ : Manager σ') := ⟨rfl, rfl, rfl⟩
  obtain ⟨houtcome, hafter⟩ := halike.call permgr mac permgr' mac' hcall
  exact ⟨houtcome, Prod.ext hafter.standing hafter.context⟩

end

/-! ## Runs of the network -/

section
variable {ι : Type*} [DecidableEq ι] {shared : σ × Bool}
  {s s' : Lib.Shared ι (Joint σ) (σ × Bool)} {i : ι} {j : Joint σ}

/-- Every joint of a run is sound. -/
theorem network_sound (hrun : Lib.Shared.Run (network permgr mac) ⟨fun _ => none, shared⟩ s)
    (hi : s.sessions i = some j) : j.Sound := by
  refine (hrun.invariant (P := Joint.Sound) (Q := fun _ => True) ?_ ?_ ⟨?_, trivial⟩).1 i j hi
  · intro j hj
    obtain ⟨mem, hfollows⟩ := network_opens hj
    exact hfollows.sound
  · rintro j shared j' shared' hsound - ⟨answers, writes, hwrites, hstep, -⟩
    exact ⟨(hsound.turn shared answers hwrites).step hstep, trivial⟩
  · exact fun _ _ hnone => by cases hnone

/-- The steps of a joint are actions of the network. -/
theorem Joint.Sound.actions {j j' : Joint σ} (h : j.Sound)
    (hsteps : Relation.ReflTransGen (Joint.Step permgr mac) j j') :
    Relation.ReflTransGen (network permgr mac).acts (j, j.shared) (j', j'.shared) := by
  induction hsteps with
  | refl => exact .refl
  | @tail k k' hrun hstep ih =>
    obtain ⟨b, hrests⟩ := (h.run hrun).rests
    exact ih.tail ⟨k.server.answers, k.server.writes, hrests.accepting, hstep, rfl⟩

/-- A call under way can return, whatever is shared. -/
theorem Joint.Sound.returns {j : Joint σ} (h : j.Sound) (permgr : PermMgr σ) (mac : Mac σ)
    (shared : σ × Bool) {trace : Trace} {stage : Stage}
    (hruns : j.library.doing = .runs trace stage) :
    ∃ j' shared', Relation.ReflTransGen (network permgr mac).acts (j, shared) (j', shared') ∧
      j.Ends trace.call j' := by
  have hnone : ∀ answer ∈ ([] : List OutAnswer), answer.Accepts := List.forall_mem_nil _
  have hturn := h.turn shared j.server.answers hnone
  obtain ⟨j', hsteps, hends⟩ : ∃ j', Relation.ReflTransGen (Joint.Step permgr mac)
      (j.turn shared j.server.answers []) j' ∧
        (j.turn shared j.server.answers []).Ends trace.call j' := hturn.completes hruns
  refine ⟨j', j'.shared, ?_, hends⟩
  rcases hsteps.cases_head with rfl | ⟨k, hstep, hrest⟩
  · have hidle := hends.1
    rw [show (j.turn shared j.server.answers []).library.doing = .runs trace stage from hruns]
      at hidle
    cases hidle
  · exact .head ⟨j.server.answers, [], hnone, hstep, rfl⟩ ((hturn.step hstep).actions hrest)

/-- A query keeps the standing. -/
theorem Manager.serve_standing (m : Manager σ) (shows : Bool) (query : Query) :
    (m.serve permgr mac shows query).2.standing = m.standing := by
  have hconclude : ∀ (m : Manager σ) rc texts, (m.conclude rc texts).2.standing = m.standing := by
    intro m rc texts
    rw [Manager.conclude]
    split <;> rfl
  cases query with
  | hello | clear | log => rfl
  | display =>
    rw [Manager.serve, Manager.display]
    split <;> rfl
  | _ =>
    simp only [Manager.serve]
    exact hconclude _ _ _

/-- The line of a call is one of a query. -/
theorem ApiCall.exists_query (call : ApiCall) :
    ∃ query : Query, query.fields = call.fields ∧ ¬ query.IsHello := by
  cases call with
  | setId appid => exact ⟨.id appid, rfl, id⟩
  | addPath path pathType => exact ⟨.path path pathType, rfl, id⟩
  | addPlug expdir impid impdir => exact ⟨.plug expdir impid impdir, rfl, id⟩
  | addPermission permission => exact ⟨.permission permission, rfl, id⟩
  | clear => exact ⟨.clear, rfl, id⟩
  | install => exact ⟨.install, rfl, id⟩
  | uninstall => exact ⟨.uninstall, rfl, id⟩
  | display => exact ⟨.display, rfl, id⟩
  | log on off =>
    rw [ApiCall.fields]
    split
    · split
      · exact ⟨.log (some false), rfl, id⟩
      · exact ⟨.log (some true), rfl, id⟩
    · exact ⟨.log none, rfl, id⟩

/-- A call whose strings are in UTF-8 does not violate the protocol. -/
theorem Manager.call_greeted {m : Manager σ} (h : m.standing = .greeted) {call : ApiCall}
    (hutf8 : checkUtf8 call.fields = true) : (m.call permgr mac call).2.standing = .greeted := by
  rcases Decidable.em (Fits call.fields) with hfit | hlong
  · obtain ⟨query, hfields, hhello⟩ := call.exists_query
    have hparse : Query.parse (decide (m.standing = .fresh)) call.fields = some query :=
      Query.parse_iff.2 ⟨hutf8, hfields.symm, fun hq => absurd hq hhello⟩
    have hlive : ¬ m.standing = .ended := by rw [h]; decide
    rw [Manager.call_of_fits _ hfit, Manager.answer, Manager.reply, if_neg hlive, hparse]
    exact Manager.serve_standing _ _ _
  · rw [Manager.call_of_long _ hlong]
    exact h

/-- **A session whose calls were in UTF-8 goes on.** -/
theorem network_goes_on (hrun : Lib.Shared.Run (network permgr mac) ⟨fun _ => none, shared⟩ s)
    (hi : s.sessions i = some j) (hidle : j.library.doing = .idle)
    (hutf8 : ∀ e ∈ j.library.returned, checkUtf8 e.1.call.fields = true) :
    j.server.invalid = false := by
  let P : Joint σ → Prop := fun j => ∃ p, j.Follows p ∧
    ((∀ e ∈ p.2, checkUtf8 e.1.1.fields = true) → p.1.1 = .greeted)
  have hinv : s.Each P fun _ => True := by
    refine hrun.invariant (P := P) (fun j hj => ?_) ?_ ⟨?_, trivial⟩
    · obtain ⟨mem, hfollows⟩ := network_opens hj
      exact ⟨_, hfollows, fun _ => rfl⟩
    · rintro j shared j' shared' ⟨⟨own, calls⟩, hfollows, hgreeted⟩ - hacts
      obtain ⟨-, hfollows'⟩ | ⟨request, -, hfollows'⟩ := network_acts hfollows hacts
      · exact ⟨⟨_, hfollows', hgreeted⟩, trivial⟩
      · refine ⟨⟨_, hfollows', fun hall => ?_⟩, trivial⟩
        obtain ⟨hbefore, hlast⟩ := List.forall_mem_append.1 hall
        exact Manager.call_greeted (hgreeted hbefore) (hlast _ List.mem_cons_self)
    · exact fun _ _ hnone => by cases hnone
  obtain ⟨⟨own, calls⟩, hfollows, hgreeted⟩ := hinv.1 i j hi
  have hmade := hfollows.made
  generalize hcalls : calls.map (fun e => (e.1.1, e.2)) = made at hmade
  have hstanding : own.1 = .greeted := by
    refine hgreeted fun e he => ?_
    have hmem := List.mem_map_of_mem (f := fun e : Request × Outcome => (e.1.1, e.2)) he
    rw [hcalls] at hmem
    cases hmade with
    | returned =>
      obtain ⟨e', he', heq⟩ := List.mem_map.1 hmem
      rw [← congrArg Prod.fst heq]
      exact hutf8 e' he'
    | taken hruns =>
      rw [hidle] at hruns
      cases hruns
  have hview : j.server.view.standing = .greeted := (congrArg Prod.fst hfollows.own).trans hstanding
  refine Bool.eq_false_iff.2 fun hinvalid => ?_
  rw [(Client.view_ended _).2 hinvalid] at hview
  cases hview

/-- A program begins a call. -/
theorem network_starts (hrun : Lib.Shared.Run (network permgr mac) ⟨fun _ => none, shared⟩ s)
    (hi : s.sessions i = some j) (hidle : j.library.doing = .idle)
    (hutf8 : ∀ e ∈ j.library.returned, checkUtf8 e.1.call.fields = true) (call : ApiCall) :
    ∃ j' shared', Lib.Shared.Run (network permgr mac) s (s.set i (some j') shared') ∧
      j'.library.returned = j.library.returned ∧
      ∃ put, j'.library.doing = .runs ⟨call, [], [], []⟩ (.flush put) := by
  have hnone : ∀ answer ∈ ([] : List OutAnswer), answer.Accepts := List.forall_mem_nil _
  have hturn := (network_sound hrun hi).turn s.state j.server.answers hnone
  have hvalid := network_goes_on hrun hi hidle hutf8
  let opening : Int × Handle := (0, j.library.handle)
  obtain ⟨hruns, hreturned⟩ := hturn.starts call opening hidle
  have hstep : Joint.Step permgr mac (j.turn s.state j.server.answers [])
      ((j.turn s.state j.server.answers []).start call opening) := .start call opening hidle hvalid
  have hacts : (network permgr mac).acts (j, s.state) (_, Joint.shared _) :=
    ⟨_, _, hnone, hstep, rfl⟩
  exact ⟨_, _, .single ⟨i, .acts hi hacts⟩, hreturned, hruns⟩

/-- A program makes a call, which returns. -/
theorem network_returns (hrun : Lib.Shared.Run (network permgr mac) ⟨fun _ => none, shared⟩ s)
    (hi : s.sessions i = some j) (hidle : j.library.doing = .idle)
    (hutf8 : ∀ e ∈ j.library.returned, checkUtf8 e.1.call.fields = true) (call : ApiCall) :
    ∃ j' shared', Lib.Shared.Run (network permgr mac) s (s.set i (some j') shared') ∧
      j.Ends call j' := by
  obtain ⟨k, shared₁, hstart, hreturned, put, hruns⟩ := network_starts hrun hi hidle hutf8 call
  have hk : (s.set i (some k) shared₁).sessions i = some k := Lib.Shared.set_same _ _ _ _
  obtain ⟨j', shared', hacts, hidle', trace, rc, hcall, hlast⟩ :=
    (network_sound (hrun.trans hstart) hk).returns permgr mac shared₁ hruns
  refine ⟨j', shared', ?_, hidle', trace, rc, hcall, by rw [hlast, hreturned]⟩
  have hrest := Lib.Shared.Step.actions hk hacts
  rw [Lib.Shared.set_set] at hrest
  exact hstart.trans (Lib.Shared.Step.run hrest)

end

/-! ## Two programs -/

/-- A handle after its greeting. -/
@[irreducible] def openedHandle : Joint Unit :=
  (Joint.greet .idle .idle ⟨fun _ => 0, fun _ => 0, fun _ => 0⟩
    (clientCreate ⟨fun _ => 0, fun _ => 0, fun _ => 0⟩ (fun _ => 0) () false (fun _ => .plain) []
      [])).2

/-- The handle of the examples is one that opens. -/
theorem openedHandle_opens : (network .idle .idle).opens openedHandle := by
  unfold openedHandle
  exact ⟨_, _, _, _, _, _, _, List.forall_mem_nil _, rfl⟩

/-- It is connected. -/
theorem openedHandle_connected : openedHandle.Connected := by
  unfold openedHandle
  exact (Joint.greet_connected _ _ _ _ _ _ _ _ (List.forall_mem_nil _)).2

/-- Two programs have opened a handle. The first one has displayed its context and displays it
again, and the second one has put the log on and installs. -/
structure TwoPrograms (s : Lib.Shared Bool (Joint Unit) (Unit × Bool)) (j j' : Joint Unit) :
    Prop where
  run : Lib.Shared.Run (network .idle .idle) ⟨fun _ => none, ((), false)⟩ s
  first : s.sessions false = some j
  second : s.sessions true = some j'
  returned : j.library.returned.map (fun e => e.1.call) = [.display]
  returned' : j'.library.returned.map (fun e => e.1.call) = [.log 1 0]
  runs : ∃ put, j.library.doing = .runs ⟨.display, [], [], []⟩ (.flush put)
  runs' : ∃ put, j'.library.doing = .runs ⟨.install, [], [], []⟩ (.flush put)

/-- The first call of a handle has returned. -/
theorem Joint.Ends.first {j j' : Joint σ} {call : ApiCall} (h : j.Ends call j')
    (hnone : j.library.returned = []) :
    j'.library.returned.map (fun e => e.1.call) = [call] := by
  obtain ⟨-, trace, rc, rfl, hreturned⟩ := h
  rw [hreturned, hnone]
  rfl

/-- The calls of the examples are UTF-8 text. -/
theorem utf8_of_calls {lib : Library} {call : ApiCall}
    (h : lib.returned.map (fun e => e.1.call) = [call]) (hcall : checkUtf8 call.fields = true) :
    ∀ e ∈ lib.returned, checkUtf8 e.1.call.fields = true := by
  intro e he
  have hmem := List.mem_map_of_mem (f := fun e : Trace × Int => e.1.call) he
  rw [h] at hmem
  rw [List.mem_singleton.1 hmem]
  exact hcall

/-- The run of the example, one step after the other. -/
theorem exists_twoPrograms : ∃ s j j', TwoPrograms s j j' := by
  let start : Lib.Shared Bool (Joint Unit) (Unit × Bool) := ⟨fun _ => none, ((), false)⟩
  let one := start.set false (some openedHandle) start.state
  let two := one.set true (some openedHandle) one.state
  have hone : Lib.Shared.Run (network .idle .idle) start one :=
    .single ⟨false, .opens rfl openedHandle_opens⟩
  have htwo : Lib.Shared.Run (network .idle .idle) start two :=
    hone.tail ⟨true, .opens (Lib.Shared.set_others start (by decide) _ _) openedHandle_opens⟩
  have hnone : ∀ e ∈ openedHandle.library.returned, checkUtf8 e.1.call.fields = true := by
    rw [openedHandle_connected.returned]
    exact List.forall_mem_nil _
  -- the first program displays, and the second one puts the log on
  obtain ⟨j, shared, hrun, hends⟩ := network_returns htwo (i := false) (j := openedHandle)
    (Lib.Shared.set_others one (by decide) _ _) openedHandle_connected.idle hnone .display
  have hj := hends.first openedHandle_connected.returned
  obtain ⟨j', shared', hrun', hends'⟩ := network_returns (htwo.trans hrun) (i := true)
    (j := openedHandle) ((Lib.Shared.set_others _ (by decide) _ _).trans
      (Lib.Shared.set_same one _ _ _)) openedHandle_connected.idle hnone (.log 1 0)
  have hj' := hends'.first openedHandle_connected.returned
  -- both begin another call
  have hthree := (htwo.trans hrun).trans hrun'
  obtain ⟨k, shared₂, hstart, hreturned, hruns⟩ := network_starts hthree (i := false) (j := j)
    ((Lib.Shared.set_others _ (by decide) _ _).trans (Lib.Shared.set_same _ _ _ _)) hends.1
    (utf8_of_calls hj (by decide)) .display
  obtain ⟨k', shared₃, hstart', hreturned', hruns'⟩ := network_starts (hthree.trans hstart)
    (i := true) (j := j')
    ((Lib.Shared.set_others _ (by decide) _ _).trans (Lib.Shared.set_same _ _ _ _)) hends'.1
    (utf8_of_calls hj' (by decide)) .install
  exact ⟨_, k, k', (hthree.trans hstart).trans hstart',
    (Lib.Shared.set_others _ (by decide) _ _).trans (Lib.Shared.set_same _ _ _ _),
    Lib.Shared.set_same _ _ _ _, hreturned ▸ hj, hreturned' ▸ hj', hruns, hruns'⟩

/-! ## Main results -/

/-- What the program of a handle has seen, by the calls that have taken effect on its session: all
of them have returned, but the one that is under way may have taken effect. -/
def Joint.Seen (j : Joint σ) (calls : List (Request × Outcome)) : Prop :=
  ∃ pending, calls.map (fun e => (e.1.1, e.2)) = j.library.calls ++ pending ∧
    ∀ e ∈ pending, pending = [e] ∧ ∃ trace stage, j.library.doing = .runs trace stage ∧
      e.1 = trace.call

/-- What a history gives to the calls of a session is what its program has seen. -/
theorem Joint.Follows.seen {j : Joint σ} {p : (Standing × Context) × List (Request × Outcome)}
    (h : j.Follows p) : j.Seen p.2 := by
  have hmade := h.made
  generalize hcalls : p.2.map (fun e => (e.1.1, e.2)) = made at hmade
  cases hmade with
  | returned _ =>
    exact ⟨[], by rw [hcalls, List.append_nil], fun e he => (List.not_mem_nil he).elim⟩
  | @taken trace stage records hruns _ _ =>
    refine ⟨_, hcalls, fun e he => ?_⟩
    obtain rfl := List.mem_singleton.1 he
    exact ⟨rfl, trace, stage, hruns, rfl⟩

section
variable {ι : Type*} [DecidableEq ι] {shared : σ × Bool}
  {s s' : Lib.Shared ι (Joint σ) (σ × Bool)} {i : ι} {j : Joint σ}

/-- A history of the steps of a network, made with them: the sessions open and close in it when they
do in the run, a call is added by a step of its handle, and after every step the history gives what
the sessions share, what each of them has for itself and what its program has seen. -/
abbrev Linearizes (permgr : PermMgr σ) (mac : Mac σ) (shared : σ × Bool)
    (steps : List (ι × Lib.Shared ι (Joint σ) (σ × Bool)))
    (s : Lib.Shared ι (Joint σ) (σ × Bool))
    (history : List (Lib.Shared.Event ι (Standing × Context) Request)) : Prop :=
  Lib.Shared.Follows (networkObject permgr mac) (fun j p => j.own = p.1 ∧ j.Seen p.2) shared
    steps s history

/-- **Linearizability.** In any run of any number of handles that open, make calls and close, in
any order and with any cuts: there is one order of their calls, each made in one step on the
machine, that gives what all programs see at every moment of the run, and the order of a longer run
goes on from it, so that a call that has returned comes before every call that begins later. -/
theorem network_linearizable (permgr : PermMgr σ) (mac : Mac σ)
    {steps more : List (ι × Lib.Shared ι (Joint σ) (σ × Bool))}
    (hsteps : Lib.Shared.Steps (network permgr mac) ⟨fun _ => none, shared⟩ steps s)
    (hmore : Lib.Shared.Steps (network permgr mac) s more s') :
    ∃ history later, Linearizes permgr mac shared steps s history ∧
      Linearizes permgr mac shared (steps ++ more) s' (history ++ later) := by
  have hlinear := network_linear permgr mac
  obtain ⟨history, hs⟩ := hlinear.follows (.nil shared) hsteps
  obtain ⟨later, hs'⟩ := hlinear.follows hs hmore
  have hseen : ∀ (j : Joint σ) p, j.Follows p → j.own = p.1 ∧ j.Seen p.2 :=
    fun j p h => ⟨h.own, h.seen⟩
  exact ⟨history, later, hs.mono hseen, hs'.mono hseen⟩

/-- Two programs have made calls and are in the middle of others, of which the display returns. -/
theorem network_linearizable_two : ∃ s j j' steps s' k more history later, TwoPrograms s j j' ∧
    Lib.Shared.Steps (network .idle .idle) ⟨fun _ => none, ((), false)⟩ steps s ∧
    Lib.Shared.Steps (network .idle .idle) s more s' ∧
    s'.sessions false = some k ∧ j.Ends .display k ∧
    Linearizes .idle .idle ((), false) steps s history ∧
    Linearizes .idle .idle ((), false) (steps ++ more) s' (history ++ later) := by
  obtain ⟨s, j, j', h⟩ := exists_twoPrograms
  obtain ⟨put, hruns⟩ := h.runs
  obtain ⟨k, shared', hacts, hends⟩ : ∃ k shared',
      Relation.ReflTransGen (network .idle .idle).acts (j, s.state) (k, shared') ∧
        j.Ends .display k := (network_sound h.run h.first).returns .idle .idle s.state hruns
  have hrun := Lib.Shared.Step.run (Lib.Shared.Step.actions h.first hacts)
  obtain ⟨steps, hsteps⟩ := h.run.exists_steps
  obtain ⟨more, hmore⟩ := hrun.exists_steps
  obtain ⟨history, later, hs, hs'⟩ := network_linearizable .idle .idle hsteps hmore
  exact ⟨s, j, j', steps, _, k, more, history, later, h, hsteps, hmore,
    Lib.Shared.set_same _ _ _ _, hends, hs, hs'⟩

/-- **A call never waits for the others.** From every state that a network comes to, a call under
way returns by steps of its own handle and session alone, whatever the others are in the middle
of. -/
theorem network_completes (permgr : PermMgr σ) (mac : Mac σ)
    (hrun : Lib.Shared.Run (network permgr mac) ⟨fun _ => none, shared⟩ s)
    (hi : s.sessions i = some j) {trace : Trace} {stage : Stage}
    (hruns : j.library.doing = .runs trace stage) :
    ∃ j' shared', Relation.ReflTransGen (network permgr mac).acts (j, s.state) (j', shared') ∧
      j.Ends trace.call j' :=
  (network_sound hrun hi).returns permgr mac s.state hruns

/-- The second display of a program returns, while another program installs. -/
theorem network_completes_two : ∃ s j j', TwoPrograms s j j' ∧ ∃ k shared',
    Relation.ReflTransGen (network .idle .idle).acts (j, s.state) (k, shared') ∧
      j.Ends .display k := by
  obtain ⟨s, j, j', h⟩ := exists_twoPrograms
  obtain ⟨put, hruns⟩ := h.runs
  exact ⟨s, j, j', h, network_completes .idle .idle h.run h.first hruns⟩

/-- **Programs do not interfere.** A handle whose calls neither install nor uninstall nor name the
log: what its program has seen, and what its session has for itself, is what the same calls give
alone, after the greeting and without any system, whatever the other programs and the interfaces
do. -/
theorem network_private (permgr : PermMgr σ) (mac : Mac σ)
    (hrun : Lib.Shared.Run (network permgr mac) ⟨fun _ => none, shared⟩ s)
    (hi : s.sessions i = some j) (hreturned : ∀ e ∈ j.library.returned, e.1.call.Private)
    (hruns : ∀ trace stage, j.library.doing = .runs trace stage → trace.call.Private) :
    ∃ calls mem, j.Seen calls ∧ (j.own, calls) =
      Lib.Shared.alone (networkObject .idle .idle) ((), false) (calls.map Prod.fst)
        (.greeted, contextCreate mem) := by
  obtain ⟨steps, hsteps⟩ := hrun.exists_steps
  obtain ⟨history, hs⟩ := (network_linear permgr mac).follows (.nil shared) hsteps
  obtain ⟨⟨own, calls⟩, ht, hfollows⟩ := hs.stands.of_some hi
  obtain ⟨pending, hcalls, hpending⟩ := hfollows.seen
  -- the calls that have taken effect have returned, or one of them is under way
  have hprivate : ∀ e ∈ calls, e.1.1.Private := by
    intro e he
    have hmem := List.mem_map_of_mem (f := fun e : Request × Outcome => (e.1.1, e.2)) he
    rw [hcalls] at hmem
    rcases List.mem_append.1 hmem with hmem | hmem
    · obtain ⟨e', he', heq⟩ := List.mem_map.1 hmem
      rw [← congrArg Prod.fst heq]
      exact hreturned e' he'
    · obtain ⟨-, trace, stage, hdoing, heq⟩ := hpending _ hmem
      rw [show e.1.1 = trace.call from heq]
      exact hruns trace stage hdoing
  obtain ⟨own₀, ⟨mem, rfl⟩, halone⟩ := (networkObject_private permgr mac .idle .idle).after shared
    ((), false) hs.opens ht hprivate
  have hown : j.own = own := hfollows.own
  rw [← hown] at halone
  exact ⟨calls, mem, ⟨pending, hcalls, hpending⟩, halone⟩

/-- A program that displays, beside another one that has put the log on and installs. -/
theorem network_private_two : ∃ s j j', TwoPrograms s j j' ∧ ∃ calls mem, j.Seen calls ∧
    (j.own, calls) = Lib.Shared.alone (networkObject .idle .idle) ((), false)
      (calls.map Prod.fst) (.greeted, contextCreate mem) := by
  obtain ⟨s, j, j', h⟩ := exists_twoPrograms
  obtain ⟨put, hruns⟩ := h.runs
  refine ⟨s, j, j', h, network_private .idle .idle h.run h.first (fun e he => ?_)
    (fun trace stage hdoing => ?_)⟩
  · have hmem := List.mem_map_of_mem (f := fun e : Trace × Int => e.1.call) he
    rw [h.returned] at hmem
    rw [List.mem_singleton.1 hmem]
    decide
  · rw [hruns] at hdoing
    cases hdoing
    decide

end

end SecLsmManager
