import SecLsmManager.Client.Requests
import SecLsmManager.Protocol.Receiver

/-!
# Connections

A connection is a stream of bytes, read in any pieces by the turns of `client_process_input`. What
the server has to do with the records of the stream is `Conversation`: one reply for each of them,
in their order, up to the first violation of the protocol. `Talk` says that a client is in such a
conversation with the records it took from what it has read; each record that is processed
(`Talk.record`), each read and each event keeps it.
-/

namespace SecLsmManager

open Lib

variable {σ : Type*} {permgr : PermMgr σ} {mac : Mac σ}

/-! ## Conversations -/

/-- A record is a query of the protocol, when it is the first one or not. -/
def IsQuery (first : Prop) (args : List CStr) : Prop :=
  checkUtf8 args = true ∧ ∃ q : Query, args = q.fields ∧ (q.IsHello → first)

/-- A reply: strings, for a display only, and then one end, which reports no violation. -/
inductive IsReply (args : List CStr) : List (List CStr) → Prop
  | intro {strings : List (List CStr)} {last : List CStr} :
      (∀ fields ∈ strings, IsString fields) → (strings ≠ [] → args = [wordDisplay]) →
      (last.head? = some wordDone ∨ last.head? = some wordError) → last ≠ protocolError →
      IsReply args (strings ++ [last])

/-- Records, their replies, and whether the last record violated the protocol. -/
inductive Conversation : List (List CStr) → List (List (List CStr)) → Bool → Prop
  | nil : Conversation [] [] false
  | query {records : List (List CStr)} {replies : List (List (List CStr))} {args : List CStr}
      {reply : List (List CStr)} : Conversation records replies false →
      IsQuery (records = []) args → IsReply args reply →
      Conversation (records ++ [args]) (replies ++ [reply]) false
  | violation {records : List (List CStr)} {replies : List (List (List CStr))} {args : List CStr} :
      Conversation records replies false → ¬ IsQuery (records = []) args →
      Conversation (records ++ [args]) (replies ++ [[protocolError]]) true

/-- What a query is replied, when all writes are accepted, is a reply. -/
theorem Replied.isReply {c c' : Client σ} {query : Query} {q q' : List UInt8}
    {strings ends : List (List CStr)} (h : Replied c c' query q q' strings ends)
    (ha : c.Accepting) : IsReply query.fields (strings ++ ends) := by
  obtain rfl | ⟨last, rfl, hlast⟩ := h.kind
  · exact absurd rfl (h.accepting ha).2
  refine .intro h.keyed (fun hne => ?_) ?_ ?_
  · rw [h.display hne]
    rfl
  · cases hlast with
    | done arg => exact .inl rfl
    | error hf ht => exact .inr rfl
  · intro hp
    cases hlast with
    | done arg => exact absurd (List.cons.inj hp).1 wordDone_ne_wordError
    | error hf ht => exact ht (List.cons.inj (List.cons.inj hp).2).1

/-! ## The records -/

/-- A record that is held does not depend on the output. -/
theorem Holding.congr {p p' : Prot} {line b : List UInt8} (h : Holding p line b)
    (hs : SameInput p p') : Holding p' line b where
  count := hs.2.1 ▸ h.count
  count_le := hs.1 ▸ h.count_le
  pos_le := hs.1 ▸ h.pos_le
  bytes := hs.1 ▸ h.bytes
  fields := hs.1 ▸ hs.2.1 ▸ h.fields

/-- The output does not depend on the input. -/
theorem OutIdle.congr {p p' : Prot} {q : List UInt8} (h : OutIdle p q) (hs : SameOutput p p') :
    OutIdle p' q where
  ring := hs.1 ▸ h.ring
  pending := hs.1 ▸ h.pending
  committed := hs.2.2.1 ▸ h.committed
  idle := fun _ => rfl
  no_fields := hs.2.1 ▸ h.no_fields
  no_empty := hs.2.2.2 ▸ h.no_empty

/-- The client `c` has read `R` of the stream `bs`, of which the bytes `b` are buffered, and taken
the records from it; everything that it emitted is written. -/
structure Talk (c : Client σ) (bs R b : List UInt8) (records : List (List CStr))
    (replies : List (List (List CStr))) (ended : Bool) : Prop where
  stream : R ++ c.input = bs
  pending : Pending c.prot b
  received : Received R records b
  grammar : protMarks.GoesOn PROT_MAX_BUFFER_LENGTH R
  idle : OutIdle c.prot []
  sent : c.sent = replies.flatten.flatMap encode
  accepting : c.Accepting
  connected : c.connected = true
  invalid : c.invalid = ended
  version : ended = false → (c.version = 0 ↔ records = [])
  conversation : Conversation records replies ended

/-- What `onrequest` does with a record of a conversation. -/
theorem onrequest_talk (permgr : PermMgr σ) (mac : Mac σ) {c : Client σ}
    {records : List (List CStr)} {replies : List (List (List CStr))} {args : List CStr}
    (hne : args ≠ []) (hidle : OutIdle c.prot []) (ha : c.Accepting) (hvalid : c.invalid = false)
    (hversion : c.version = 0 ↔ records = []) (hc : Conversation records replies false) :
    ∃ reply ended, Puts c (onrequest permgr mac c args) [] [] reply ∧
      Conversation (records ++ [args]) (replies ++ [reply]) ended ∧
      (onrequest permgr mac c args).invalid = ended ∧
      (onrequest permgr mac c args).connected = c.connected ∧
      (onrequest permgr mac c args).input = c.input ∧
      (ended = false → (onrequest permgr mac c args).version ≠ 0) := by
  obtain ⟨query, hr, hserve⟩ | ⟨hnone, version, hinvalid⟩ := onrequest_cases permgr mac c hne
  · obtain ⟨q', strings, ends, hrep⟩ := serve_replied permgr mac (c := c.started) hidle query
    obtain ⟨rfl, -⟩ := hrep.accepting ha
    obtain ⟨hu, rfl, hfirst⟩ := hr
    have hp := hrep.puts
    rw [hserve]
    refine ⟨strings ++ ends, false, ⟨hp.idle, hp.stream, hp.same, hp.accepting⟩, .query hc ?_
      (hrep.isReply ha), hrep.link.1.trans hvalid, hrep.link.2.1, hrep.link.2.2.1, fun _ => ?_⟩
    · exact ⟨hu, query, rfl, fun hq => hversion.1 (hfirst hq)⟩
    · exact hrep.link.2.2.2 ▸ c.started_version
  · obtain ⟨q', ends, hp, -, hacc, hcore⟩ :=
      invalidProtocol_spec (c := { c with version }) hidle
    obtain ⟨rfl, rfl⟩ := hacc ha
    rw [hinvalid]
    refine ⟨[protocolError], true, ⟨hp.idle, hp.stream, hp.same, hp.accepting⟩,
      .violation hc ?_, hcore.invalid, hcore.connected, hcore.input, fun hf => by cases hf⟩
    rintro ⟨hu, query, hf, hfirst⟩
    exact hnone query ⟨hu, hf, fun hq => hversion.2 (hfirst hq)⟩

/-- A buffered record is taken, processed and released. -/
theorem Talk.record (permgr : PermMgr σ) (mac : Mac σ) {c : Client σ} {p : Prot}
    {bs R b b' line : List UInt8} {records : List (List CStr)} {replies : List (List (List CStr))}
    (h : Talk c bs R b records replies false) (hout : SameOutput c.prot p)
    (hhold : Holding p line b') (hline : line ≠ [])
    (hreceived : Received R (records ++ [report line]) b') :
    ∃ reply ended, Talk
      { onrequest permgr mac { c with prot := p } (protArgs p) with
        prot := protNext (onrequest permgr mac { c with prot := p } (protArgs p)).prot }
      bs R b' (records ++ [report line]) (replies ++ [reply]) ended := by
  have hne : report line ≠ [] := by
    have hpos := reported_length_pos hline
    intro h0
    rw [← List.length_map (f := CStr.ofBytes), ← report, h0] at hpos
    exact absurd hpos (Nat.lt_irrefl 0)
  rw [hhold.args]
  obtain ⟨reply, ended, hp, hconv, hinvalid, hconn, hinput, hversion⟩ :=
    onrequest_talk permgr mac (c := { c with prot := p }) hne (h.idle.congr hout) h.accepting
      h.invalid (h.version rfl) h.conversation
  have hpend := (hhold.congr hp.same).next
  generalize onrequest permgr mac { c with prot := p } (report line) = c' at *
  obtain ⟨hpend, hnext⟩ := hpend
  refine ⟨reply, ended, ?_, hpend, hreceived, h.grammar, hp.idle.congr hnext, ?_,
    hp.accepting h.accepting, hconn.trans h.connected, hinvalid, fun hf => ?_, hconv⟩
  · rw [hinput]
    exact h.stream
  · have hs := hp.stream
    simp only [List.append_nil, h.sent] at hs
    rw [hs, List.flatten_append, List.flatMap_append, List.flatten_singleton]
  · exact iff_of_false (hversion hf) (by simp)

/-! ## The turns of the server -/

/-- The outcomes of the loop on the pending requests: a violation, or all the records of what was
read are taken. -/
inductive Processed (r : Int × Client σ) (bs R : List UInt8) : Prop
  | violation {b : List UInt8} {records : List (List CStr)} {replies : List (List (List CStr))} :
      Talk r.2 bs R b records replies true → r.1 = 1 → Processed r bs R
  | drained {replies : List (List (List CStr))} :
      Talk r.2 bs R (protMarks.rest R) (reports (protMarks.lines R)) replies false →
      r.1 = waitCode (protMarks.rest R) → Processed r bs R

/-- What was said stands while bytes come in. -/
theorem Talk.prot {c : Client σ} {p : Prot} {bs R b b' : List UInt8} {records : List (List CStr)}
    {replies : List (List (List CStr))} {ended : Bool} (h : Talk c bs R b records replies ended)
    (hout : SameOutput c.prot p) (hp : Pending p b') (hr : Received R records b') :
    Talk { c with prot := p } bs R b' records replies ended :=
  { h with pending := hp, received := hr, idle := h.idle.congr hout }

/-- **The loop on the pending requests** ends before its count of turns, since each turn drops the
bytes of a record. -/
theorem Talk.process (permgr : PermMgr σ) (mac : Mac σ) : ∀ {n : Nat} {c : Client σ}
    {bs R b : List UInt8} {records : List (List CStr)} {replies : List (List (List CStr))}
    {ended : Bool}, Talk c bs R b records replies ended → b.length < n →
    Processed (processPending permgr mac n c) bs R
  | 0, _, _, _, _, _, _, _, _, hn => absurd hn (Nat.not_lt_zero _)
  | n + 1, c, bs, R, b, records, replies, true, h, hn => by
    rw [processPending, if_pos h.invalid]
    exact .violation h rfl
  | n + 1, c, bs, R, b, records, replies, false, h, hn => by
    have hvalid : ¬ c.invalid = true := Bool.not_eq_true _ ▸ h.invalid
    rw [processPending, if_neg hvalid]
    obtain ⟨k, p, hout, ⟨line, b', rfl, hline, hbody, hget, hhold⟩ | ⟨b', rfl, hno, hget, hp⟩⟩ :=
      protGet_spec h.pending h.idle.no_empty
    · have hpos := reported_length_pos hline
      have hr := h.received.skip.line hbody
      rw [show reports [line] = [report line] by simp [reports, hline]] at hr
      obtain ⟨reply, ended, htalk⟩ :=
        h.record permgr mac hout hhold hline hr
      have hneg : ¬ ((reported line).length : Int) < 0 := by omega
      have hgt : ((reported line).length : Int) > 0 := by omega
      simp only [hget, if_neg hneg, if_pos hgt]
      refine Talk.process permgr mac htalk ?_
      simp only [List.length_append, List.length_cons, List.length_replicate] at hn
      omega
    · have hr := h.received.skip
      obtain ⟨rfl, rfl⟩ := hr.noEnd hno
      simp only [hget, if_pos (waitCode_neg _)]
      exact .drained (h.prot hout hp hr) rfl

/-- The outcomes of `client_process_input`: a violation, or all the records of what was read are
taken and the buffer is full, or the next read has to wait, or the stream has ended. -/
inductive Turned (r : Int × Client σ) (bs : List UInt8) : Prop
  | violation {R b : List UInt8} {records : List (List CStr)}
      {replies : List (List (List CStr))} :
      Talk r.2 bs R b records replies true → r.1 = -EPROTO → Turned r bs
  | waits {R : List UInt8} {replies : List (List (List CStr))} :
      Talk r.2 bs R (protMarks.rest R) (reports (protMarks.lines R)) replies false →
      (r.1 = -EMSGSIZE ∧ (protMarks.rest R).length = PROT_MAX_BUFFER_LENGTH ∨ r.1 = -EAGAIN ∨
        r.1 = 0 ∧ r.2.input = []) → Turned r bs

/-- A read of a client with room in its buffer. -/
theorem Talk.read {c : Client σ} {bs R b : List UInt8} {records : List (List CStr)}
    {replies : List (List (List CStr))} (h : Talk c bs R b records replies false)
    (hroom : b.length < PROT_MAX_BUFFER_LENGTH) (hrest : b = protMarks.rest R) (n : Nat) :
    ∃ x, Talk (c.read (some n)).2 bs (R ++ x) (b ++ x) records replies false ∧
      (c.read (some n)).1 = x.length ∧ (x = [] → (c.read (some n)).2.input = []) := by
  obtain ⟨x, hx, hp, hlen, hcode⟩ := h.pending.readInput c.input n
  obtain ⟨hrc, hend⟩ := hcode hroom
  have hout := protRead_sameOutput c.prot (.data (c.input.take (n + 1)))
  refine ⟨x, ⟨?_, hp, h.received.append x, h.grammar.append _ (hrest ▸ hlen), h.idle.congr hout,
    h.sent, h.accepting, h.connected, h.invalid, h.version, h.conversation⟩, hrc, fun hnil => ?_⟩
  · rw [List.append_assoc]
    exact (congrArg (R ++ ·) hx).trans h.stream
  · simp only [Client.read, hend hnil, List.drop_nil]

/-- What follows the loop on the pending requests in `client_process_input`: the read, `next`, is
for a client with room in its buffer. -/
theorem Processed.turned {r next : Int × Client σ} {bs R : List UInt8} (h : Processed r bs R)
    (hnext : ∀ replies,
      Talk r.2 bs R (protMarks.rest R) (reports (protMarks.lines R)) replies false →
      (protMarks.rest R).length < PROT_MAX_BUFFER_LENGTH → Turned next bs) :
    Turned (if r.1 = -EMSGSIZE then (r.1, r.2) else if ¬ r.2.connected then (-EINVAL, r.2)
      else if r.2.invalid then (-EPROTO, r.2) else next) bs := by
  have hmsgsize : (1 : Int) ≠ -EMSGSIZE := by decide
  have hagain : -EAGAIN ≠ -EMSGSIZE := by decide
  cases h with
  | violation htalk hrc =>
    simp only [hrc, if_neg hmsgsize, htalk.connected, htalk.invalid, not_true_eq_false, if_false,
      if_true]
    exact .violation htalk rfl
  | drained htalk hrc =>
    obtain ⟨hw, hfull⟩ | ⟨hw, hroom⟩ := htalk.pending.waitCode
    · simp only [hrc, hw, if_true]
      exact .waits htalk (.inl ⟨rfl, hfull⟩)
    · simp only [hrc, hw, if_neg hagain, htalk.connected, htalk.invalid, not_true_eq_false,
        Bool.false_eq_true, if_false]
      exact hnext _ htalk hroom

/-- **`client_process_input`**, whatever its reads get. -/
theorem Talk.turn (permgr : PermMgr σ) (mac : Mac σ) (cuts : List Nat) {c : Client σ}
    {bs R b : List UInt8} {records : List (List CStr)} {replies : List (List (List CStr))}
    (h : Talk c bs R b records replies false) :
    Turned (clientProcessInput permgr mac cuts c) bs := by
  induction cuts generalizing c R b records replies with
  | nil =>
    have hproc := h.process permgr mac (n := c.prot.inbuf.count + 1)
      (by rw [h.pending.length]; exact Nat.lt_succ_self _)
    rw [clientProcessInput]
    generalize processPending permgr mac (c.prot.inbuf.count + 1) c = r at hproc ⊢
    refine hproc.turned fun replies htalk hroom => ?_
    have hlen := htalk.pending.length
    have hcount : ¬ r.2.prot.inbuf.count = PROT_MAX_BUFFER_LENGTH := by omega
    simp only [Client.read, protRead, inbufRead, if_neg hcount]
    exact .waits htalk (.inr (.inl rfl))
  | cons n cuts ih =>
    have hproc := h.process permgr mac (n := c.prot.inbuf.count + 1)
      (by rw [h.pending.length]; exact Nat.lt_succ_self _)
    rw [clientProcessInput]
    generalize processPending permgr mac (c.prot.inbuf.count + 1) c = r at hproc ⊢
    refine hproc.turned fun replies htalk hroom => ?_
    obtain ⟨x, hread, hcode, hend⟩ := htalk.read hroom rfl n
    simp only
    split
    · rename_i hle
      have hx : x = [] := List.eq_nil_of_length_eq_zero (by omega)
      subst hx
      simp only [List.append_nil] at hread
      exact .waits hread (.inr (.inr ⟨hcode, hend rfl⟩))
    · exact ih hread

/-! ## The events -/

/-- The states of a connection over the stream `bs`: it ended by a violation, or it has taken all
the records that it read. -/
inductive Connection.State (c : Connection σ) (bs : List UInt8) : Prop
  | violated {R b : List UInt8} {records : List (List CStr)} {replies : List (List (List CStr))} :
      Talk c.client bs R b records replies true → c.destroyed = true →
      c.codes.getLast? = some (-EPROTO) → State c bs
  | waits {R : List UInt8} {replies : List (List (List CStr))} :
      Talk c.client bs R (protMarks.rest R) (reports (protMarks.lines R)) replies false →
      c.codes.getLast? ≠ some (-EPROTO) →
      (c.codes.getLast? = some (-EMSGSIZE) →
        (protMarks.rest R).length = PROT_MAX_BUFFER_LENGTH ∧ c.destroyed = true) → State c bs

/-- No event reaches a client that is destroyed. -/
theorem onClientEvent_destroyed {c : Connection σ} (h : c.destroyed = true) (event : Event) :
    onClientEvent permgr mac c event = c := if_pos h

/-- Nor does any run. -/
theorem Connection.run_destroyed {c : Connection σ} (h : c.destroyed = true) (events : List Event) :
    events.foldl (onClientEvent permgr mac) c = c := by
  induction events with
  | nil => rfl
  | cons event events ih => rw [List.foldl_cons, onClientEvent_destroyed h, ih]

/-- An event keeps the state of the connection. -/
theorem Connection.State.event {c : Connection σ} {bs : List UInt8} (h : c.State bs)
    (event : Event) : (onClientEvent permgr mac c event).State bs := by
  cases h with
  | violated htalk hdestroyed hcode =>
    rw [onClientEvent_destroyed hdestroyed]
    exact .violated htalk hdestroyed hcode
  | waits htalk hcode hfull =>
    cases hd : c.destroyed with
    | true =>
      rw [onClientEvent_destroyed hd]
      exact .waits htalk hcode hfull
    | false =>
      have hlive : ¬ c.destroyed = true := by simp [hd]
      rw [onClientEvent, if_neg hlive]
      cases event.hup with
      | true => exact .waits htalk hcode fun hlast => ⟨(hfull hlast).1, rfl⟩
      | false =>
        have hturn := htalk.turn permgr mac event.cuts
        generalize clientProcessInput permgr mac event.cuts c.client = r at hturn
        cases hturn with
        | violation htalk' hrc =>
          exact .violated htalk' (by simp [hrc, EPROTO, EAGAIN]) (by simp [hrc])
        | waits htalk' hrc =>
          refine .waits htalk' ?_ fun hlast => ?_
          · obtain ⟨hrc, -⟩ | hrc | ⟨hrc, -⟩ := hrc
            · simp [hrc, EMSGSIZE, EPROTO]
            · simp [hrc, EAGAIN, EPROTO]
            · simp [hrc, EPROTO]
          · simp only [Bool.false_eq_true, if_false, List.getLast?_append, List.getLast?_singleton,
              Option.some_or, Option.some.injEq] at hlast
            obtain ⟨-, hlen⟩ | hrc | ⟨hrc, -⟩ := hrc
            · exact ⟨hlen, by simp [hlast, EMSGSIZE, EAGAIN]⟩
            · exact absurd (hrc.symm.trans hlast) (by decide)
            · exact absurd (hrc.symm.trans hlast) (by decide)

/-- The invariant holds after any events. -/
theorem Connection.State.run {c : Connection σ} {bs : List UInt8} (h : c.State bs)
    (events : List Event) : (events.foldl (onClientEvent permgr mac) c).State bs := by
  induction events generalizing c with
  | nil => exact h
  | cons event events ih => exact ih (h.event event)

/-- A connection that was just created, over a channel that accepts. -/
theorem Connection.State.init (mem : ProtMem) (idmem : Nat → UInt8) (system : σ)
    (serverLog : Bool) (answers : Nat → Answers) {writes : List OutAnswer}
    (hacc : ∀ answer ∈ writes, answer.Accepts) (bs : List UInt8) :
    Connection.State ⟨clientCreate mem idmem system serverLog answers writes bs, false, []⟩ bs := by
  refine @Connection.State.waits _ _ _ [] [] ?_ (by simp) (fun hlast => by simp at hlast)
  exact
    { stream := rfl
      pending := pending_protReset mem
      received := .nil
      grammar := protMarks.goesOn_nil _
      idle := outIdle_protReset mem
      sent := rfl
      accepting := hacc
      connected := rfl
      invalid := rfl
      version := fun _ => iff_of_true rfl rfl
      conversation := .nil }

end SecLsmManager
